import Mori.Suspicions

/-!
A push/pull state merged twice. An entry is settled where its message has nothing to
say to the record under its name: `Settled` lists how that can be. Merging an entry
settles it, entries of other names leave it settled, and merging a settled entry
again changes nothing, though it may report a conflict once more.
-/
namespace Mori.Idempotence
open Mori.Net Mori.Protocol Mori.State Mori.Table Mori.Moves Mori.LocalNode Mori.Suspicions

/-- What a handler reads of an instance for a message about a name. -/
structure View where
  config : Config
  shutdown : Bool
  leave : Bool
  record : Option NodeState
  timer : Option Suspicion

def view (m : Memberlist) (n : Bytes) : View := ⟨m.config,m.shutdown,m.leave,entry m n,(m.nodeTimers n).map m.suspicions⟩

/-- An alive message has nothing to say to a record: its address is another one and
    the name not to be had, its incarnation is old, it has been refuted, or the local
    node knows all of it. -/
inductive Known (v : View) (s : NodeState) (a : Alive) (vsn : Versions) (since : Time) : Prop
  | conflict (differs : conflicts s a) (kept : v.config.ipAllowed a.addr = false ∨ ¬ reclaimable v.config s since) :
      Known v s a vsn since
  | old (remote : s.name ≠ v.config.name) (agrees : ¬ conflicts s a) (stale : a.incarnation ≤ s.incarnation) :
      Known v s a vsn since
  | refuted (isLocal : s.name = v.config.name) (older : a.incarnation < s.incarnation) : Known v s a vsn since
  | same (isLocal : s.name = v.config.name) (repeats : sameAlive s a vsn) (calm : v.timer = none) : Known v s a vsn since

def AliveSettled (v : View) (a : Alive) (env : Env) : Prop :=
  ∀ vsn, acceptableVsn a = some vsn → ¬ (v.leave = true ∧ a.node = v.config.name) → ¬ filtered v.config a vsn false env →
    (v.record = none → v.config.ipAllowed a.addr = false) ∧ ∀ s, v.record = some s → Known v s a vsn env.since

def DeadSettled (v : View) (d : Dead) : Prop :=
  ∀ s, v.record = some s → d.incarnation < s.incarnation ∨ (s.deadOrLeft = true ∧ v.timer = none)

def SuspectSettled (v : View) (a : Suspect) : Prop :=
  ∀ s, v.record = some s → a.incarnation < s.incarnation ∨ (v.timer = none ∧ s.state ≠ .alive) ∨
    ∃ timer, v.timer = some timer ∧ (timer.k ≤ timer.n ∨ a.from_ ∈ timer.confirmations)

def Settled (v : View) (r : PushNodeState) (env : Env) : Prop :=
  v.shutdown = true ∨ match NodeStateType.ofInt r.state with
    | some .alive => AliveSettled v ⟨r.incarnation,r.name,r.addr,r.port,r.metadata,r.vsn⟩ env
    | some .left => DeadSettled v ⟨r.incarnation,r.name,r.name⟩
    | some .dead => SuspectSettled v ⟨r.incarnation,r.name,v.config.name⟩
    | some .suspect => SuspectSettled v ⟨r.incarnation,r.name,v.config.name⟩
    | none => True

/-- Nothing but conflict notifications was added. -/
def Repeats (m m' : Memberlist) : Prop :=
  ∃ repeated, m' = { m with events := m.events ++ repeated } ∧ ∀ e ∈ repeated, e.kind = .conflict

section
variable {m m' m'' : Memberlist} {n : Bytes} {r : Ref} {a : Alive} {env : Env}

theorem repeats_refl (m : Memberlist) : Repeats m m :=
  ⟨[],by rw [List.append_nil],fun e member => (List.not_mem_nil member).elim⟩

theorem repeats_of_eq (same : m' = m) : Repeats m m' := by
  rw [same]
  exact repeats_refl m

theorem repeats_trans (first : Repeats m m') (second : Repeats m' m'') : Repeats m m'' := by
  obtain ⟨es,rfl,conflicts⟩ := first
  obtain ⟨es',rfl,conflicts'⟩ := second
  refine ⟨es ++ es',by simp only [List.append_assoc],fun e member => ?_⟩
  rcases List.mem_append.mp member with before | after
  · exact conflicts e before
  · exact conflicts' e after

theorem clearTimer_calm (calm : m.nodeTimers n = none) : clearTimer m n = m := by
  unfold clearTimer
  rw [← calm,Function.update_eq_self]

theorem timer_none : (view m n).timer = none ↔ m.nodeTimers n = none := Option.map_eq_none_iff

/-- What the local node has refuted or knows already. -/
theorem aliveKnown_local {vsn : Versions} (updatesNode : Bool) (now : Time) (isLocal : (m.heap r).name = m.config.name)
    (known : a.incarnation < (m.heap r).incarnation ∨ (sameAlive (m.heap r) a vsn ∧ m.nodeTimers a.node = none)) :
    aliveKnown m r a vsn updatesNode none false none now = m := by
  unfold aliveKnown
  rcases known with older | ⟨same,calm⟩
  · rw [if_neg (fun stale => stale.2.1 isLocal),if_pos ⟨older,isLocal⟩]
  · have newer : ¬ a.incarnation < (m.heap r).incarnation := by
      rw [same.1]
      exact UInt32.lt_irrefl _
    rw [if_neg (fun stale => stale.2.1 isLocal),if_neg (fun older => newer older.1),if_pos ⟨rfl,isLocal⟩,if_pos same]
    exact clearTimer_calm calm

theorem aliveNode_settled (settled : AliveSettled (view m a.node) a env) : Repeats m (aliveNode m a false env) := by
  unfold aliveNode aliveNodeLocked
  by_cases down : m.shutdown = true
  · rw [if_pos down]; exact repeats_refl m
  rw [if_neg down]
  by_cases left : m.leave = true ∧ a.node = m.config.name
  · rw [if_pos left]; exact repeats_refl m
  rw [if_neg left]
  cases accepted : acceptableVsn a with
  | none => exact repeats_refl m
  | some vsn =>
    simp only
    by_cases refused : filtered m.config a vsn false env
    · rw [if_pos refused]; exact repeats_refl m
    rw [if_neg refused]
    obtain ⟨unknown,known⟩ := settled vsn accepted left refused
    cases found : m.nodeMap a.node with
    | none =>
      have blocked : m.config.ipAllowed a.addr = false := unknown (entry_eq_none.mpr found)
      simp only
      rw [if_pos blocked]
      exact repeats_refl m
    | some r =>
      simp only
      -- A message about the local node may bring another address, too.
      have absorbed : (∀ updatesNode, aliveKnown m r a vsn updatesNode none false none env.now = m) →
          Repeats m (if conflicts (m.heap r) a then
            if m.config.ipAllowed a.addr = false then m
            else if reclaimable m.config (m.heap r) env.since then aliveKnown m r a vsn true none false none env.now
            else if m.config.conflict = true then
              enqueueEventLocked m [nextEvent m .conflict (m.heap r).toNode
                (some ⟨a.node,a.addr,a.port,a.metadata,.alive,{}⟩) none]
            else m
          else aliveKnown m r a vsn false none false none env.now) := by
        intro same
        rw [same,same]
        split_ifs
        · exact repeats_refl m
        · exact repeats_refl m
        · exact ⟨_,rfl,fun e member => by rw [List.mem_singleton.mp member]; rfl⟩
        · exact repeats_refl m
        · exact repeats_refl m
      cases known (m.heap r) (entry_eq found) with
      | conflict differs kept =>
        rw [if_pos differs]
        split_ifs with blocked old asked
        · exact repeats_refl m
        · rcases kept with no | fresh
          · exact absurd no blocked
          · exact absurd old fresh
        · exact ⟨_,rfl,fun e member => by rw [List.mem_singleton.mp member]; rfl⟩
        · exact repeats_refl m
      | old remote agrees stale =>
        rw [if_neg agrees,aliveKnown,if_pos ⟨stale,remote,rfl⟩]
        exact repeats_refl m
      | refuted isLocal older =>
        exact absorbed (fun updatesNode => aliveKnown_local updatesNode env.now isLocal (.inl older))
      | same isLocal repeats calm =>
        exact absorbed (fun updatesNode =>
          aliveKnown_local updatesNode env.now isLocal (.inr ⟨repeats,timer_none.mp calm⟩))

theorem deadNode_settled {d : Dead} (settled : DeadSettled (view m d.node) d) (env : Env) : deadNode m d env = m := by
  unfold deadNode deadNodeLocked
  cases found : m.nodeMap d.node with
  | none =>
    simp only
    split_ifs <;> rfl
  | some r =>
    simp only
    rcases settled (m.heap r) (entry_eq found) with older | ⟨isDead,calm⟩
    · rw [if_pos older]
      split_ifs <;> rfl
    · rw [if_pos isDead,clearTimer_calm (timer_none.mp calm)]
      split_ifs <;> rfl

theorem confirm_known {timer : Suspicion} {from_ : Bytes} (known : timer.k ≤ timer.n ∨ from_ ∈ timer.confirmations) :
    timer.confirm from_ = (timer,false) := by
  unfold Suspicion.confirm
  rcases known with enough | counted
  · rw [if_pos enough]
  · split_ifs <;> rfl

theorem suspectNode_settled {s : Suspect} (settled : SuspectSettled (view m s.node) s) (env : Env) :
    suspectNode m s env = m := by
  unfold suspectNode
  by_cases down : m.shutdown = true
  · rw [if_pos down]
  rw [if_neg down]
  cases found : m.nodeMap s.node with
  | none => rfl
  | some r =>
    simp only
    rcases settled (m.heap r) (entry_eq found) with older | ⟨calm,quiet⟩ | ⟨timer,running,known⟩
    · rw [if_pos older]
    · simp only [timer_none.mp calm]
      rw [if_pos quiet]
      split_ifs <;> rfl
    · obtain ⟨t,armed,same⟩ := Option.map_eq_some_iff.mp running
      subst same
      simp only [armed,confirmTimer,confirm_known known,Function.update_eq_self,Bool.false_eq_true,if_false]
      split_ifs <;> rfl

theorem mergeEntry_settled {r : PushNodeState} (settled : Settled (view m r.name) r env) : Repeats m (mergeEntry m r env) := by
  unfold mergeEntry
  rcases settled with down | settled
  · have up : m.shutdown = true := down
    cases NodeStateType.ofInt r.state with
    | none => exact repeats_refl m
    | some t =>
      cases t <;> simp only [aliveNode,deadNode,suspectNode,if_pos up] <;> exact repeats_refl m
  · cases known : NodeStateType.ofInt r.state with
    | none => exact repeats_refl m
    | some t =>
      rw [known] at settled
      cases t with
      | alive => exact aliveNode_settled settled
      | suspect => exact repeats_of_eq (suspectNode_settled settled env)
      | dead => exact repeats_of_eq (suspectNode_settled settled env)
      | left => exact repeats_of_eq (deadNode_settled settled env)

end

section
variable {m m' : Memberlist} {n : Bytes} {r : Ref} {a : Alive} {env env' : Env}

/-- A refutation beats every incarnation but the last. -/
theorem lt_beat (c : Counter) {accusedInc : UInt32} (room : accusedInc.toNat < 2 ^ 32 - 1) :
    accusedInc < (c.beat accusedInc).value := by
  rw [UInt32.lt_iff_toNat_lt,toNat_beat]
  split_ifs with low <;> omega

theorem aliveRecord_agrees (s : NodeState) (a : Alive) (vsn : Versions) (now : Time) :
    ¬ conflicts (aliveRecord s a vsn now) a := by
  simp [conflicts,aliveRecord,ipEqual_refl]

theorem flags_message {op : Op} (message : IsMessage op) (made : Commits m op m') :
    m'.config = m.config ∧ m'.shutdown = m.shutdown ∧ m'.leave = m.leave := by
  have moves : ∀ {m m' : Memberlist}, Move m op m' → m'.config = m.config ∧ m'.shutdown = m.shutdown ∧ m'.leave = m.leave := by
    intro m m' move
    cases move <;> first | exact ⟨rfl,rfl,rfl⟩ | exact message.elim
  cases made with
  | idle => exact ⟨rfl,rfl,rfl⟩
  | move move => exact moves move
  | join _ added move =>
    obtain ⟨config,shutdown,leave⟩ := moves added
    obtain ⟨config',shutdown',leave'⟩ := moves move
    exact ⟨config'.trans config,shutdown'.trans shutdown,leave'.trans leave⟩

theorem aliveKnown_known (wf : TableWF m) (found : m.nodeMap a.node = some r) (room : a.incarnation.toNat < 2 ^ 32 - 1)
    {updatesNode : Bool} (fits : updatesNode = false → ¬ conflicts (m.heap r) a) (vsn : Versions) (now since : Time) :
    ∃ s, entry (aliveKnown m r a vsn updatesNode none false none now) a.node = some s ∧
      Known (view (aliveKnown m r a vsn updatesNode none false none now) a.node) s a vsn since := by
  unfold aliveKnown
  simp only [true_and]
  split_ifs with stale older isLocal same
  · exact ⟨m.heap r,entry_eq found,.old stale.2.1 (fits stale.2.2) stale.1⟩
  · exact ⟨m.heap r,entry_eq found,.refuted older.2 older.1⟩
  · exact ⟨m.heap r,entry_eq found,.same isLocal same (timer_none.mpr (Function.update_self ..))⟩
  · refine ⟨_,entry_at (table_refuteAlive wf found none).2 rfl,.refuted isLocal ?_⟩
    exact lt_beat m.incarnation room
  · exact ⟨_,entry_at (table_applyAlive wf a found vsn none none now).2 rfl,
      .old isLocal (aliveRecord_agrees _ _ _ _) (UInt32.le_refl _)⟩

theorem answers_of_known {vsn : Versions} {since : Time} {P : Prop}
    (known : ∃ s, entry m a.node = some s ∧ Known (view m a.node) s a vsn since) :
    ((view m a.node).record = none → P) ∧
      ∀ s, (view m a.node).record = some s → Known (view m a.node) s a vsn since := by
  obtain ⟨s,held,known⟩ := known
  constructor
  · intro absent
    rw [view,held] at absent
    cases absent
  · intro s' held'
    have same : s = s' := Option.some.inj (held.symm.trans held')
    rw [← same]
    exact known

theorem aliveNode_settles (wf : TableWF m) (up : m.shutdown = false) (room : a.incarnation.toNat < 2 ^ 32 - 1)
    (clock : env'.since = env.since) (filter : env'.notifyAlive = env.notifyAlive) :
    AliveSettled (view (aliveNode m a false env) a.node) a env' := by
  intro vsn accepted
  obtain ⟨config,-,leave⟩ := flags_message (show IsMessage (.alive a env) from trivial) (aliveNode_commits m a env)
  intro staying unfiltered
  have staying' : ¬ (m.leave = true ∧ a.node = m.config.name) := by
    rw [← config,← leave]
    exact staying
  have unfiltered' : ¬ filtered m.config a vsn false env := by
    rw [filtered,← filter,← config]
    exact unfiltered
  have result : aliveNode m a false env = aliveNodeLocked m a none false none env := by
    rw [aliveNode,up]
    rfl
  rw [result]
  simp only [aliveNodeLocked,if_neg staying',accepted,if_neg unfiltered']
  cases found : m.nodeMap a.node with
  | none =>
    simp only
    by_cases blocked : m.config.ipAllowed a.addr = false
    · rw [if_pos blocked]
      refine ⟨fun _ => blocked,fun s held => ?_⟩
      rw [view,entry_eq_none.mpr found] at held
      cases held
    · rw [if_neg blocked]
      have wf' := tableWF_addNode (s := newRecord a vsn) wf found env.offset
      have agrees : ¬ conflicts ((addNode m (newRecord a vsn) env.offset).heap m.alloc) a := by
        rw [addNode_heap]
        exact newRecord_agrees a vsn
      exact answers_of_known (aliveKnown_known wf' (addNode_nodeMap m (newRecord a vsn) env.offset) room (fun _ => agrees) vsn
        env.now env'.since)
  | some r =>
    simp only
    by_cases differs : conflicts (m.heap r) a
    · rw [if_pos differs]
      -- The record stays as it is where the name is not reclaimed.
      have stays : ∀ m', view m' a.node = view m a.node →
          m.config.ipAllowed a.addr = false ∨ ¬ reclaimable m.config (m.heap r) env'.since →
          ((view m' a.node).record = none → (view m' a.node).config.ipAllowed a.addr = false) ∧
            ∀ s, (view m' a.node).record = some s → Known (view m' a.node) s a vsn env'.since := by
        intro m' same kept
        rw [same]
        exact answers_of_known ⟨m.heap r,entry_eq found,.conflict differs kept⟩
      split_ifs with blocked old asked
      · exact stays m rfl (.inl blocked)
      · exact answers_of_known (aliveKnown_known wf found room (fun no => by cases no) vsn env.now env'.since)
      · exact stays _ rfl (.inr (clock ▸ old))
      · exact stays m rfl (.inr (clock ▸ old))
    · rw [if_neg differs]
      exact answers_of_known (aliveKnown_known wf found room (fun _ => differs) vsn env.now env'.since)

/-- The record under a name is the one that is written there. -/
theorem record_eq {s s' : NodeState} (held : entry m n = some s) (record : (view m n).record = some s') : s' = s :=
  (Option.some.inj (held.symm.trans record)).symm

theorem deadNode_settles {d : Dead} (wf : TableWF m) (up : m.shutdown = false) (room : d.incarnation.toNat < 2 ^ 32 - 1)
    (env : Env) : DeadSettled (view (deadNode m d env) d.node) d := by
  have result : deadNode m d env = deadNodeLocked m d none env.now := by
    rw [deadNode,up]
    rfl
  rw [result]
  unfold deadNodeLocked
  intro s record
  cases found : m.nodeMap d.node with
  | none =>
    rw [found] at record
    cases (entry_eq_none.mpr found).symm.trans record
  | some r =>
    rw [found] at record
    simp only at record ⊢
    split_ifs at record ⊢ with stale isDead isLocal staying
    · rw [record_eq (entry_eq found) record]
      exact .inl stale
    · rw [record_eq (entry_eq found) record]
      exact .inr ⟨isDead,timer_none.mpr (Function.update_self ..)⟩
    · rw [record_eq (entry_at (table_refuteDead wf found d.incarnation).2 rfl) record]
      exact .inl (lt_beat m.incarnation room)
    all_goals
      rw [record_eq (entry_at (table_applyDead wf d found _ none env.now).2 rfl) record]
      exact .inr ⟨deadRecord_dead _ _ _,timer_none.mpr (Function.update_self ..)⟩

theorem confirm_knows (timer : Suspicion) (from_ : Bytes) :
    (timer.confirm from_).1.k ≤ (timer.confirm from_).1.n ∨ from_ ∈ (timer.confirm from_).1.confirmations := by
  unfold Suspicion.confirm
  split_ifs with enough counted
  · exact .inl enough
  · exact .inr counted
  · exact .inr List.mem_cons_self

theorem suspectNode_settles {a : Suspect} (wf : TableWF m) (up : m.shutdown = false)
    (room : a.incarnation.toNat < 2 ^ 32 - 1) (env : Env) : SuspectSettled (view (suspectNode m a env) a.node) a := by
  unfold suspectNode
  rw [up]
  simp only [Bool.false_eq_true,if_false]
  intro s record
  cases found : m.nodeMap a.node with
  | none =>
    rw [found] at record
    cases (entry_eq_none.mpr found).symm.trans record
  | some r =>
    rw [found] at record
    simp only at record ⊢
    by_cases stale : a.incarnation < (m.heap r).incarnation
    · rw [if_pos stale] at record ⊢
      rw [record_eq (entry_eq found) record]
      exact .inl stale
    rw [if_neg stale] at record ⊢
    cases armed : m.nodeTimers a.node with
    | some t =>
      refine .inr (.inr ⟨((m.suspicions t).confirm a.from_).1,?_,confirm_knows _ _⟩)
      simp [view,confirmTimer,armed]
    | none =>
      rw [armed] at record
      simp only at record ⊢
      split_ifs at record ⊢ with quiet isLocal
      · rw [record_eq (entry_eq found) record]
        exact .inr (.inl ⟨timer_none.mpr armed,quiet⟩)
      · rw [record_eq (entry_at (table_refute wf found a.incarnation).2 rfl) record]
        exact .inl (lt_beat m.incarnation room)
      · refine .inr (.inr ⟨newSuspicion a.node env.now a.from_ (expectedConfirmations m),?_,.inr List.mem_cons_self⟩)
        simp [view,applySuspect]

theorem flags_merge (wf : TableWF m) (r : PushNodeState) (env : Env) :
    (mergeEntry m r env).config = m.config ∧ (mergeEntry m r env).shutdown = m.shutdown ∧
      (mergeEntry m r env).leave = m.leave := by
  rcases apply_commits wf (.merge r env) with idle | ⟨cause,resolved,made⟩
  · have same : mergeEntry m r env = m := idle
    rw [same]
    exact ⟨rfl,rfl,rfl⟩
  · rcases resolve_cases resolved with ⟨rfl,direct⟩ | ⟨message,-⟩
    · exact absurd trivial direct
    · exact flags_message message made

theorem mergeEntry_settles {r : PushNodeState} (wf : TableWF m) (room : r.incarnation.toNat < 2 ^ 32 - 1)
    (clock : env'.since = env.since) (filter : env'.notifyAlive = env.notifyAlive) :
    Settled (view (mergeEntry m r env) r.name) r env' := by
  obtain ⟨config,shutdown,-⟩ := flags_merge wf r env
  cases up : m.shutdown with
  | true => exact .inl (shutdown.trans up)
  | false =>
    right
    have suspected : SuspectSettled (view (suspectNode m ⟨r.incarnation,r.name,m.config.name⟩ env) r.name)
        ⟨r.incarnation,r.name,m.config.name⟩ := suspectNode_settles (a := ⟨r.incarnation,r.name,m.config.name⟩) wf up room env
    unfold mergeEntry at config ⊢
    cases known : NodeStateType.ofInt r.state with
    | none => trivial
    | some t =>
      rw [known] at config
      cases t with
      | alive => exact aliveNode_settles (a := ⟨r.incarnation,r.name,r.addr,r.port,r.metadata,r.vsn⟩) wf up room clock filter
      | suspect =>
        simp only [view] at suspected config ⊢
        rw [config] at suspected ⊢
        exact suspected
      | dead =>
        simp only [view] at suspected config ⊢
        rw [config] at suspected ⊢
        exact suspected
      | left => exact deadNode_settles (d := ⟨r.incarnation,r.name,r.name⟩) wf up room env

end

/-- A message, or a merged entry, about another name. -/
def Elsewhere (n : Bytes) : Op → Prop
  | .alive a _ => a.node ≠ n
  | .suspect s _ => s.node ≠ n
  | .dead d _ => d.node ≠ n
  | .merge r _ => r.name ≠ n
  | _ => False

section
variable {m m' : Memberlist} {n : Bytes} {op : Op}

theorem elsewhere_resolve {cause : Op} (elsewhere : Elsewhere n op) (resolved : resolve m op = some cause) :
    Elsewhere n cause := by
  cases op with
  | merge r env =>
    rcases resolve_merge resolved with ⟨-,rfl⟩ | rfl | rfl
    · exact elsewhere
    · exact elsewhere
    · exact elsewhere
  | expire => exact elsewhere.elim
  | _ => cases resolved; exact elsewhere

theorem view_eq (config : m'.config = m.config) (shutdown : m'.shutdown = m.shutdown) (leave : m'.leave = m.leave)
    (record : entry m' n = entry m n) (timer : m'.nodeTimers n = m.nodeTimers n)
    (same : ∀ t, m.nodeTimers n = some t → m'.suspicions t = m.suspicions t) : view m' n = view m n := by
  unfold view
  rw [config,shutdown,leave,record,timer]
  congr 1
  exact Option.map_congr same

/-- A move about another name. The timers of two names are two. -/
theorem view_move (elsewhere : Elsewhere n op) (wf : TableWF m) (timers : Timers m) (move : Move m op m') :
    view m' n = view m n := by
  have others : ∀ {n'}, n' ≠ n → Function.update m.nodeTimers n' none n = m.nodeTimers n :=
    fun other => Function.update_of_ne (Ne.symm other) ..
  cases move with
  | conflict => rfl
  | @add a env vsn =>
    exact view_eq rfl rfl rfl (entry_other (entry_addNode wf (newRecord a vsn) env.offset) elsewhere) rfl (fun _ _ => rfl)
  | repeatAlive => exact view_eq rfl rfl rfl rfl (others elsewhere) (fun _ _ => rfl)
  | refuteAlive found =>
    exact view_eq rfl rfl rfl (entry_other (table_refuteAlive wf found none).2 elsewhere) (others elsewhere) (fun _ _ => rfl)
  | @applyAlive a env r vsn found =>
    exact view_eq rfl rfl rfl (entry_other (table_applyAlive wf a found _ _ _ _).2 elsewhere) (others elsewhere)
      (fun _ _ => rfl)
  | @confirm s env r t found newer timer =>
    refine view_eq rfl rfl rfl rfl rfl (fun t' timer' => ?_)
    have different : t' ≠ t := by
      rintro rfl
      obtain ⟨-,here,-⟩ := timers.timer s.node t' timer
      obtain ⟨-,there,-⟩ := timers.timer n t' timer'
      exact elsewhere (here.symm.trans there)
    exact Function.update_of_ne different ..
  | refuteSuspect found =>
    exact view_eq rfl rfl rfl (entry_other (table_refute wf found _).2 elsewhere) rfl (fun _ _ => rfl)
  | @applySuspect s env r found =>
    refine view_eq rfl rfl rfl (entry_other (table_applySuspect wf s found _).2 elsewhere)
      (Function.update_of_ne (Ne.symm elsewhere) ..) (fun t timer => ?_)
    have earlier : t ≠ m.armed := Nat.ne_of_lt (timers.timer n t timer).1
    exact Function.update_of_ne earlier ..
  | repeatDead => exact view_eq rfl rfl rfl rfl (others elsewhere) (fun _ _ => rfl)
  | refuteDead found =>
    exact view_eq rfl rfl rfl (entry_other (table_refuteDead wf found _).2 elsewhere) (others elsewhere) (fun _ _ => rfl)
  | @applyDead d env r notify found =>
    exact view_eq rfl rfl rfl (entry_other (table_applyDead wf d found _ _ _).2 elsewhere) (others elsewhere)
      (fun _ _ => rfl)
  | reset => exact elsewhere.elim
  | updateStale => exact elsewhere.elim
  | update => exact elsewhere.elim
  | leave => exact elsewhere.elim
  | leaveDead => exact elsewhere.elim

theorem mergeEntry_elsewhere {r : PushNodeState} (wf : TableWF m) (timers : Timers m) (other : r.name ≠ n) (env : Env) :
    view (mergeEntry m r env) n = view m n := by
  have kept := apply_keeps (I := fun m' => Timers m' ∧ view m' n = view m n) (P := Elsewhere n) elsewhere_resolve
    (fun elsewhere wf held move =>
      ⟨timers_move wf held.1 move,(view_move elsewhere wf held.1 move).trans held.2⟩)
    wf ⟨timers,rfl⟩ (show Elsewhere n (.merge r env) from other)
  exact kept.2.2

theorem mergeEntry_keeps (wf : TableWF m) (timers : Timers m) (r : PushNodeState) (env : Env) :
    TableWF (mergeEntry m r env) ∧ Timers (mergeEntry m r env) :=
  apply_invariant timers_move wf timers (.merge r env)

end

section
variable {m : Memberlist}

theorem mergeState_elsewhere {n : Bytes} {remote : List (PushNodeState × Env)} (wf : TableWF m) (timers : Timers m)
    (others : ∀ r ∈ remote, r.1.name ≠ n) : view (mergeState m remote) n = view m n := by
  induction remote generalizing m with
  | nil => rfl
  | cons r remote ih =>
    obtain ⟨wf',timers'⟩ := mergeEntry_keeps wf timers r.1 r.2
    have later := ih wf' timers' (fun r' member => others r' (List.mem_cons_of_mem r member))
    exact later.trans (mergeEntry_elsewhere wf timers (others r List.mem_cons_self) r.2)

/-- A merge settles its entries. -/
theorem mergeState_settles {remote : List (PushNodeState × Env)} (wf : TableWF m) (timers : Timers m)
    (distinct : (remote.map (fun r => r.1.name)).Nodup) (room : ∀ r ∈ remote, r.1.incarnation.toNat < 2 ^ 32 - 1) :
    ∀ r ∈ remote, ∀ env', env'.since = r.2.since → env'.notifyAlive = r.2.notifyAlive →
      Settled (view (mergeState m remote) r.1.name) r.1 env' := by
  induction remote generalizing m with
  | nil => exact fun r member => (List.not_mem_nil member).elim
  | cons first remote ih =>
    obtain ⟨wf',timers'⟩ := mergeEntry_keeps wf timers first.1 first.2
    rw [List.map_cons,List.nodup_cons] at distinct
    intro r member env' clock filter
    rcases List.mem_cons.mp member with rfl | later
    · have others : ∀ r' ∈ remote, r'.1.name ≠ r.1.name := by
        intro r' member' same
        exact distinct.1 (List.mem_map.mpr ⟨r',member',same⟩)
      have kept := mergeState_elsewhere wf' timers' others
      change Settled (view (mergeState (mergeEntry m r.1 r.2) remote) r.1.name) r.1 env'
      rw [kept]
      exact mergeEntry_settles wf (room r List.mem_cons_self) clock filter
    · exact ih wf' timers' distinct.2 (fun r' member' => room r' (List.mem_cons_of_mem first member')) r later env' clock filter

/-- A merge of settled entries. -/
theorem mergeState_settled {remote : List (PushNodeState × Env)}
    (settled : ∀ r ∈ remote, Settled (view m r.1.name) r.1 r.2) : Repeats m (mergeState m remote) := by
  induction remote generalizing m with
  | nil => exact repeats_refl m
  | cons r remote ih =>
    have first := mergeEntry_settled (settled r List.mem_cons_self)
    refine repeats_trans first (ih (m := mergeEntry m r.1 r.2) ?_)
    intro r' member
    obtain ⟨repeated,same,-⟩ := first
    rw [same]
    exact settled r' (List.mem_cons_of_mem r member)

end

/-- `mergeState` at one clock reading, with the draws of its insertions. -/
def mergeAt (m : Memberlist) (remote : List PushNodeState) (clock : Time) (notifyAlive : Node → Bool) (offsets : Nat → Nat) :
    Memberlist :=
  mergeState m (remote.zipIdx.map (fun r => (r.1,⟨clock,clock,offsets r.2,notifyAlive⟩)))

/-- A state that is merged twice in a row leaves what it leaves when it is merged
    once: all but conflict notifications, which may be repeated. -/
theorem merge_idempotent {conf : Config} {m : Memberlist} (reached : Reachable conf m) (down : Bool)
    (remote : List PushNodeState) (distinct : (remote.map (·.name)).Nodup)
    (bounded : ∀ r ∈ remote, r.incarnation.toNat < 2 ^ 32 - 1) (clock : Time) (notifyAlive : Node → Bool)
    (offsets offsets' : Nat → Nat) {once : Memberlist}
    (merged : once = mergeAt { m with shutdown := down } remote clock notifyAlive offsets) :
    ∃ repeated, mergeAt once remote clock notifyAlive offsets' = { once with events := once.events ++ repeated } ∧
      ∀ e ∈ repeated, e.kind = .conflict := by
  obtain ⟨wf,-⟩ := tableWF_reachable reached
  have wf' : TableWF { m with shutdown := down } := tableWF_of_same (m := m) ⟨rfl,rfl,rfl,rfl,rfl⟩ wf
  have timers : Timers { m with shutdown := down } :=
    timers_frame (timers_reachable reached) rfl rfl rfl rfl (fun _ => ⟨rfl,rfl⟩) rfl
  have names : ((remote.zipIdx.map (fun r => ((r.1,⟨clock,clock,offsets r.2,notifyAlive⟩) : PushNodeState × Env))).map
      (fun r => r.1.name)) = remote.map (·.name) := by
    rw [List.map_map]
    exact (List.map_map (l := remote.zipIdx) (f := Prod.fst) (g := fun r => r.name)).symm.trans
      (congrArg (List.map (·.name)) (List.zipIdx_map_fst 0 remote))
  rw [← names] at distinct
  have room : ∀ r ∈ remote.zipIdx.map (fun r => ((r.1,⟨clock,clock,offsets r.2,notifyAlive⟩) : PushNodeState × Env)),
      r.1.incarnation.toNat < 2 ^ 32 - 1 := by
    intro r member
    obtain ⟨⟨r₀,i⟩,listed,rfl⟩ := List.mem_map.mp member
    exact bounded r₀ (List.fst_mem_of_mem_zipIdx listed)
  have settles := mergeState_settles wf' timers distinct room
  rw [show mergeState { m with shutdown := down } _ = once from merged.symm] at settles
  refine mergeState_settled (fun r member => ?_)
  obtain ⟨⟨r₀,i⟩,listed,rfl⟩ := List.mem_map.mp member
  exact settles (r₀,⟨clock,clock,offsets i,notifyAlive⟩) (List.mem_map.mpr ⟨(r₀,i),listed,rfl⟩)
    ⟨clock,clock,offsets' i,notifyAlive⟩ rfl rfl

/-- The local node, accused of having left, and two others. -/
def threeStates : List PushNodeState :=
  [⟨[97],some [10,0,0,1],7946,none,7,3,some [1,5,2,0,0,0]⟩,⟨[98],some [10,0,0,2],7946,none,1,0,some [1,5,2,0,0,0]⟩,
    ⟨[99],some [10,0,0,3],7946,none,0,0,some [1,5,2,0,0,0]⟩]

theorem merge_idempotent_three :
    ∃ once repeated, once = mergeAt { restarted with shutdown := false } threeStates 5 (fun _ => true) (fun _ => 0) ∧
      once.incarnation.value = 8 ∧
      mergeAt once threeStates 5 (fun _ => true) (fun _ => 1) = { once with events := once.events ++ repeated } := by
  obtain ⟨repeated,same,-⟩ := merge_idempotent reachable_restarted false threeStates (by decide) (by decide) 5
    (fun _ => true) (fun _ => 0) (fun _ => 1) rfl
  exact ⟨_,repeated,rfl,rfl,same⟩

end Mori.Idempotence
