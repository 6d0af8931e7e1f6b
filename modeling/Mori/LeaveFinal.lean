import Mori.Authority

/-!
Leaving for good. A node that has left draws no incarnation any more, so that a
peer whose record is dead or left at the node's last incarnation cannot take it
for alive again. Processing the leave brings a peer there from any record except
one that is dead at an older incarnation, which the leave does not touch: then an
alive message of the last incarnation that is still under way revives the node.
-/
namespace Mori.LeaveFinal
open Mori.Net Mori.Protocol Mori.State Mori.Table Mori.Moves Mori.LocalNode Mori.PeerRecord Mori.Cluster
open Mori.Decisions Mori.Instance Mori.Authority
set_option linter.unusedSimpArgs false

/-- The packet says that the node left: its own dead message, or an entry of a
    push/pull state. -/
def IsLeave (x : Bytes) : Packet → Prop
  | .gossip (.dead d) => d.node = x ∧ d.from_ = x
  | .gossip _ => False
  | .state r => r.name = x ∧ r.state = NodeStateType.left.toInt

/-- The record counts the node as gone, at its last incarnation. -/
def Gone (w : World) (x : Bytes) (s : NodeState) : Prop :=
  w.left x ∧ s.deadOrLeft = true ∧ s.incarnation = w.counter x

theorem gone_mono {y x : Bytes} {w w' : World} {s : NodeState} (step : Evolves y w w') (gone : Gone w x s) :
    Gone w' x s := by
  obtain ⟨left,isDead,last⟩ := gone
  obtain ⟨left',frozen⟩ := left_mono step left
  exact ⟨left',isDead,last.trans frozen.symm⟩

section
variable {S : Setup} {w : World} {x y : Bytes} {m m' : Memberlist} {s : NodeState}

/-- No true message changes such a record, unless it takes the name over. -/
theorem gone_change {op : Op} (told : OpTrue S w op)
    (untaken : ∀ a env, op = .alive a env → a.node = x → ¬ Reclaims m.config s a env)
    (held : entry m x = some s) (gone : Gone w x s) (change : PeerChange m m' x op) :
    entry m' x = some s ∨ entry m' x = none := by
  obtain ⟨left,isDead,last⟩ := gone
  cases change with
  | same kept => exact .inl (kept.trans held)
  | add here absent => rw [absent] at held; cases held
  | @alive a env vsn p here before accepted fits after =>
    rw [held] at before
    cases before
    rcases fits with ⟨-,newer⟩ | reclaims
    · -- The node has drawn no newer incarnation.
      have known : AliveTrue S w a := told
      have bound := known.known.bound
      rw [here,← last] at bound
      exact absurd (UInt32.lt_of_lt_of_le newer bound) (UInt32.lt_irrefl _)
    · exact absurd reclaims (untaken a env rfl here)
  | suspect here before isAlive =>
    rw [held] at before
    cases before
    simp [NodeState.deadOrLeft,isAlive] at isDead
  | dead here before live =>
    rw [held] at before
    cases before
    rw [isDead] at live
    cases live
  | @reset now draws after =>
    by_cases reaped : reaps m.config now s = true
    · exact .inr (by rw [after,held]; simp [reaped])
    · exact .inl (by rw [after,held]; simp [reaped])

/-- No critical section of a peer changes such a record, except that it may reap it
    or take the name over. -/
theorem gone_apply (is : InstTrue S w y m) (remote : x ≠ y) (op : Op)
    (told : ∀ cause, resolve m op = some cause → OpTrue S w cause)
    (untaken : ∀ a env, resolve m op = some (.alive a env) → a.node = x → ¬ Reclaims m.config s a env)
    (held : entry m x = some s) (gone : Gone w x s) :
    entry (apply m op) x = some s ∨ entry (apply m op) x = none := by
  have away : x ≠ m.config.name := by rw [inst_name is]; exact remote
  rcases apply_commits is.wf op with idle | ⟨cause,resolved,made⟩
  · rw [idle]; exact .inl held
  have toldCause := told cause resolved
  generalize apply m op = m' at made
  cases made with
  | idle => exact .inl held
  | move move =>
    exact gone_change toldCause (fun a env same => untaken a env (same ▸ resolved)) held gone
      (peer_move is.wf away move)
  | @join a env m₁ m' absent added move =>
    -- The message is about a node that the peer does not know.
    have other : a.node ≠ x := by
      rintro rfl
      rw [entry_eq_none.mpr absent] at held
      cases held
    have first := alive_change_other (peer_move is.wf away added) other
    have away₁ : x ≠ m₁.config.name := by rw [config_move added]; exact away
    have second := alive_change_other (peer_move (tableWF_move is.wf added) away₁ move) other
    exact .inl ((second.trans first).trans held)

/-- A peer that processes the leave counts the node as gone, unless it has it dead
    at an older incarnation. -/
theorem gone_deadNode (is : InstTrue S w y m) (remote : x ≠ y) {d : Dead} (told : DeadTrue w d) (node : d.node = x)
    (self : d.from_ = x) (held : entry m x = some s) (fresh : ¬ (s.state = .dead ∧ s.incarnation < d.incarnation))
    (env : Env) : ∃ s', entry (deadNode m d env) x = some s' ∧ Gone w x s' := by
  obtain ⟨left,last⟩ := told.left (node.trans self.symm)
  rw [node] at left last
  obtain ⟨r,found,rfl⟩ := entry_eq_some.mp held
  have isTrue := is.records x _ held
  have name := entry_name is.wf held
  have bound : (m.heap r).incarnation ≤ w.counter x := by
    have known := isTrue.known.bound
    rwa [name] at known
  have current : ¬ d.incarnation < (m.heap r).incarnation := by
    rw [last]
    exact UInt32.not_lt.mpr bound
  have away : (m.heap r).name ≠ m.config.name := by rw [name,inst_name is]; exact remote
  have found' : m.nodeMap d.node = some r := node ▸ found
  by_cases isDead : (m.heap r).deadOrLeft = true
  · have result : deadNode m d env = clearTimer m d.node := by
      simp [deadNode,is.up,deadNodeLocked,found',current,isDead]
    refine ⟨m.heap r,by rw [result]; exact held,left,isDead,?_⟩
    rcases (deadOrLeft_iff _).mp isDead with dead | gone
    · have newer : ¬ (m.heap r).incarnation < d.incarnation := fun older => fresh ⟨dead,older⟩
      rw [last] at newer
      exact UInt32.le_antisymm bound (UInt32.not_lt.mp newer)
    · have top := (isTrue.left gone).2
      rwa [name] at top
  · have result : deadNode m d env = applyDead m r d none none env.now := by
      simp [deadNode,is.up,deadNodeLocked,found',current,isDead,away]
    refine ⟨deadRecord (m.heap r) d env.now,?_,left,?_,last⟩
    · rw [result]
      exact entry_at (table_applyDead is.wf d found' none none env.now).2 node
    · simp [deadRecord,NodeState.deadOrLeft,node,self]

end

/-- The action has `y` process an alive message that takes the name of `x` over: it
    gives another address, which is allowed, for a record that may be reclaimed. -/
def TakesOver (c : Global) (x y : Bytes) (a : Action) : Prop :=
  ∃ op msg env s, Told c a y op ∧ resolve (c.inst y) op = some (.alive msg env) ∧ msg.node = x ∧
    entry (c.inst y) x = some s ∧ Reclaims (c.inst y).config s msg env

/-- Nobody takes over the name of a node whose port every receiver keeps: all
    messages about it give its one address. -/
theorem not_takesOver {S : Setup} {c : Global} {w : World} (is : Authentic S c w) {x : Bytes} (unmasked : Unmasked S x)
    (y : Bytes) (a : Action) : ¬ TakesOver c x y a := by
  rintro ⟨op,msg,env,s,told,resolved,node,held,differs,-⟩
  have isTrue : AliveTrue S w msg := told_true is told resolved
  have stored := (is.inst y).records x s held
  have name := entry_name (is.inst y).wf held
  have addr : s.addr = msg.addr := by rw [stored.addr,isTrue.addr,name,node]
  have port : s.port = msg.port := by
    rw [stored.port (name ▸ unmasked),isTrue.port (node ▸ unmasked),name,node]
  simp [conflicts,addr,port,ipEqual_refl] at differs

/-- Once a peer counts a node as gone, an action keeps its record or reaps it, unless
    it takes the name over. -/
theorem gone_act {S : Setup} {c : Global} {w : World} {x y : Bytes} {s : NodeState} (is : Authentic S c w)
    (remote : x ≠ y) (a : Action) (bounded : Bounded (act S c a)) (untaken : ¬ TakesOver c x y a)
    (held : entry (c.inst y) x = some s) (gone : Gone w x s) :
    ∃ w', Authentic S (act S c a) w' ∧ Gone w' x s ∧
      (entry ((act S c a).inst y) x = some s ∨ entry ((act S c a).inst y) x = none) := by
  obtain ⟨_,w',step,is'⟩ := authentic_does is (act_does S c a) bounded
  refine ⟨w',is',gone_mono step gone,?_⟩
  have does := act_does S c a
  generalize act S c a = c' at does bounded
  -- Only what the peer does itself can matter.
  have elsewhere : ∀ {y' : Bytes} {m : Memberlist}, y' ≠ y →
      entry (Function.update c.inst y' m y) x = some s ∨ entry (Function.update c.inst y' m y) x = none := by
    intro y' m other
    rw [Function.update_of_ne (Ne.symm other)]
    exact .inl held
  cases does with
  | @finish y' i =>
    by_cases same : y' = y
    · subst same
      refine .inl ?_
      simp only [Global.put,Function.update_self]
      exact held
    · exact elsewhere same
  | @draw y' metadata idle =>
    by_cases same : y' = y
    · subst same
      refine .inl ?_
      simp only [Global.put,Function.update_self]
      exact held
    · exact elsewhere same
  | @start y' b m receipt env drawn committed =>
    by_cases same : y' = y
    · subst same
      have here := is.inst y'
      have node := (is.drawn y' b drawn).node
      have boot := aliveNodeLocked_boot (node.trans (inst_name here).symm) receipt env
      simp only [setAliveLocked,here.up] at committed
      cases committed
      refine .inl ?_
      simp only [Global.put,Function.update_self]
      exact (boot_other here.wf (by rw [node]; exact Ne.symm remote) boot).trans held
    · exact elsewhere same
  | @critical y' op told =>
    by_cases same : y' = y
    · subst same
      simp only [Global.put,Function.update_self]
      exact gone_apply (is.inst y') remote op (fun _ => told_true is told)
        (fun msg env resolved node reclaims => untaken ⟨op,msg,env,s,told,resolved,node,held,reclaims⟩) held gone
    · exact elsewhere same
  | _ => exact .inl held

theorem gone_acts {S : Setup} {c : Global} {w : World} {x y : Bytes} {s : NodeState} (is : Authentic S c w)
    (sane : Sane S c) (remote : x ≠ y) (held : entry (c.inst y) x = some s)
    (gone : Gone w x s) (later : List Action) (bounded : Bounded (acts S c later))
    (untaken : ∀ before a, before ++ [a] <+: later → ¬ TakesOver (acts S c before) x y a)
    (kept : ∀ before, before <+: later → entry ((acts S c before).inst y) x ≠ none) :
    entry ((acts S c later).inst y) x = some s := by
  induction later generalizing c w with
  | nil => exact held
  | cons a later ih =>
    have sane' := (sane_does sane (act_does S c a)).1
    have bounded' : Bounded (act S c a) := bounded_acts sane' later bounded
    have first : ¬ TakesOver c x y a := untaken [] a (List.cons_prefix_cons.mpr ⟨rfl,List.nil_prefix⟩)
    obtain ⟨w',is',gone',still | reaped⟩ := gone_act is remote a bounded' first held gone
    · exact ih is' sane' still gone' bounded
        (fun before b earlier => untaken (a :: before) b (List.cons_prefix_cons.mpr ⟨rfl,earlier⟩))
        (fun before earlier => kept (a :: before) (List.cons_prefix_cons.mpr ⟨rfl,earlier⟩))
    · exact absurd reaped (kept [a] (List.cons_prefix_cons.mpr ⟨rfl,List.nil_prefix⟩))

/-- Once a peer has processed the leave of a node that it did not have dead at an
    older incarnation, it has the node dead or left until it reaps its record, in
    every run in which no later step takes the node's name over. -/
theorem leave_final (S : Setup) {x y : Bytes} (remote : x ≠ y) {c : Global} (reached : Reaches S c) {i : Nat}
    {p : Packet} (sent : c.net[i]? = some p) (leaves : IsLeave x p) {s : NodeState}
    (held : entry (c.inst y) x = some s) (fresh : ¬ (s.state = .dead ∧ s.incarnation < p.incarnation)) (env : Env)
    (later : List Action) (bounded : Bounded (acts S (act S c (.deliver y i env)) later))
    (untaken : ∀ before a, before ++ [a] <+: later →
      ¬ TakesOver (acts S (act S c (.deliver y i env)) before) x y a)
    (kept : ∀ before, before <+: later →
      entry ((acts S (act S c (.deliver y i env)) before).inst y) x ≠ none) :
    ∃ s', entry ((acts S (act S c (.deliver y i env)) later).inst y) x = some s' ∧ s'.deadOrLeft = true := by
  have sane : Sane S c := by
    obtain ⟨actions,rfl⟩ := reached
    exact sane_acts (sane_initial S) actions
  have sane' := (sane_does sane (act_does S c (.deliver y i env))).1
  have processed := bounded_acts sane' later bounded
  obtain ⟨w,is⟩ := authentic_reaches reached (bounded_act sane _ processed)
  obtain ⟨_,w',step,is'⟩ := authentic_does is (act_does S c (.deliver y i env)) processed
  have member := List.mem_of_getElem? sent
  have received : (act S c (.deliver y i env)).inst y = receive (c.inst y) p env := by
    simp [act,sent,Global.put]
  have here := is.inst y
  obtain ⟨s',held',gone⟩ : ∃ s', entry ((act S c (.deliver y i env)).inst y) x = some s' ∧ Gone w x s' := by
    rw [received]
    cases p with
    | gossip msg =>
      cases msg with
      | dead d => exact gone_deadNode here remote (is.net _ member) leaves.1 leaves.2 held fresh env
      | alive a => exact leaves.elim
      | suspect s => exact leaves.elim
    | state r =>
      obtain ⟨node,isLeft⟩ := leaves
      have merged : receive (c.inst y) (.state r) env = deadNode (c.inst y) ⟨r.incarnation,r.name,r.name⟩ env := by
        simp [receive,mergeEntry,isLeft]
      rw [merged]
      have told : DeadTrue w ⟨r.incarnation,r.name,r.name⟩ := by
        obtain ⟨t,isTrue,rfl⟩ := is.net _ member
        exact ⟨isTrue.known,fun _ => isTrue.left (pushState_left isLeft)⟩
      exact gone_deadNode here remote told node node held fresh env
  exact ⟨s',gone_acts is' sane' remote held' (gone_mono step gone) later bounded untaken kept,gone.2.1⟩

/-- The node `b` hears of `a`, suspects it after a failed probe and declares it dead.
    Its suspicion (packet 1) is under way. -/
def declared : List Action :=
  announced ++ [.draw [98] none,.start [98] none { now := 1 },.deliver [98] 0 { now := 2 },.probe [98] 0,
    .probeFailed [98] 0 { now := 3 },.gossip [98] 1,.expire [98] 0 { now := 4 }]

/-- The node `a` refutes the suspicion (packet 2) and then leaves (packet 3). -/
def departed : List Action :=
  declared ++ [.deliver [97] 1 { now := 5 },.gossip [97] 1,.leave [97] none { now := 6 },.gossip [97] 1]

/-- What `b` has of `a` after these actions. -/
def view (actions : List Action) : Option NodeState := entry ((acts plain (initial plain) actions).inst [98]) [97]

theorem plain_unmasked (x : Bytes) : Unmasked plain x :=
  ⟨fun _ => (by decide : (2 : UInt8) ≤ 2),(by decide : UInt16.ofInt 7946 ≠ 0)⟩

/-- The leave overtakes the refutation, which then revives the node at `b`. -/
theorem leave_undone :
    Bounded (acts plain (initial plain) (departed ++ [.deliver [98] 3 { now := 7 },.deliver [98] 2 { now := 8 }])) ∧
      Unmasked plain [97] ∧
      (acts plain (initial plain) departed).net[3]? = some (.gossip (.dead ⟨2,[97],[97]⟩)) ∧
      ∃ s t u, view departed = some s ∧ s.state = .dead ∧ s.incarnation = 1 ∧
        view (departed ++ [.deliver [98] 3 { now := 7 }]) = some t ∧ t.state = .dead ∧ t.incarnation = 1 ∧
        view (departed ++ [.deliver [98] 3 { now := 7 },.deliver [98] 2 { now := 8 }]) = some u ∧
        u.state = .alive ∧ u.incarnation = 2 :=
  ⟨bounded_of_actors plain [[97],[98]] (by decide) (by decide),plain_unmasked [97],by decide,
    _,_,_,rfl,by decide,by decide,rfl,by decide,by decide,rfl,by decide,by decide⟩

/-- Both nodes know each other when `a` leaves (packet 1), and `b` processes the leave. -/
def parting : List Action :=
  announced ++ [.deliver [98] 0 { now := 1 },.leave [97] none { now := 2 },.gossip [97] 0]

theorem parting_bounded (last : List Action) (short : last = [] ∨ last = [.deliver [98] 0 {}]) :
    Bounded (acts plain (initial plain) (parting ++ [.deliver [98] 1 {}] ++ last)) := by
  rcases short with rfl | rfl
  · exact bounded_of_actors plain [[97],[98]] (by decide) (by decide)
  · exact bounded_of_actors plain [[97],[98]] (by decide) (by decide)

theorem leave_final_parting :
    (acts plain (initial plain) parting).net[1]? = some (.gossip (.dead ⟨1,[97],[97]⟩)) ∧
      ∃ s', entry ((acts plain (act plain (acts plain (initial plain) parting) (.deliver [98] 1 {}))
        [.deliver [98] 0 {}]).inst [98]) [97] = some s' ∧ s'.deadOrLeft = true := by
  refine ⟨by decide,leave_final plain (x := [97]) (y := [98]) (by decide) ⟨parting,rfl⟩ (i := 1)
    (p := .gossip (.dead ⟨1,[97],[97]⟩)) (by decide) ⟨rfl,rfl⟩ (s := _) rfl (by decide) {} [.deliver [98] 0 {}]
    (parting_bounded _ (.inr rfl)) ?_ ?_⟩
  · intro before a early
    have first : before = [] := by
      have size := early.length_le
      simp only [List.length_append,List.length_singleton] at size
      exact List.length_eq_zero_iff.mp (by omega)
    subst first
    have bounded := parting_bounded [] (.inl rfl)
    simp only [List.append_nil] at bounded
    obtain ⟨w,is⟩ := authentic_reaches ⟨_,rfl⟩ bounded
    rw [acts_snoc] at is
    exact not_takesOver is (plain_unmasked [97]) [98] a
  · intro before early
    have cases : before = [] ∨ before = [.deliver [98] 0 {}] := by
      rcases List.prefix_cons_iff.mp early with rfl | ⟨t,rfl,rest⟩
      · exact .inl rfl
      · rw [List.prefix_nil.mp rest]; exact .inr rfl
    rcases cases with rfl | rfl <;> decide

end Mori.LeaveFinal
