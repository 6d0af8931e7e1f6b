import Mori.Reordering

/-!
Accusations and their refutations, from the accused to those who have heard the accusation.
The accused answers an accusation that is not older than its record, and only such a one.
Whoever hears the answer has the node alive again, whatever the accusation has made of it
there, and none of the messages that the accusation has led to takes it down again.
-/
namespace Mori.Refutations
open Mori.Net Mori.Protocol Mori.State Mori.Table Mori.Moves Mori.LocalNode Mori.PeerRecord Mori.Suspicions
open Mori.Reordering

/-- The node that a section accuses, and of which incarnation. -/
def accusation : Op → Option (Bytes × UInt32)
  | .suspect s _ => some (s.node,s.incarnation)
  | .dead d _ => some (d.node,d.incarnation)
  | .merge r _ =>
    match NodeStateType.ofInt r.state with
    | some .alive => none
    | some _ => some (r.name,r.incarnation)
    | none => none
  | _ => none

/-- The section accuses the node of no later incarnation. -/
def Outdated (n : Bytes) (i : UInt32) (op : Op) : Prop :=
  match accusation op with
  | some (n',j) => n' = n → j ≤ i
  | none => True

/-- The node is alive at a later incarnation. -/
def Cleared (n : Bytes) (i : UInt32) (m : Memberlist) : Prop :=
  ∃ s, entry m n = some s ∧ s.state = .alive ∧ i < s.incarnation

section
variable {m m' : Memberlist} {n : Bytes} {i : UInt32} {op cause : Op}

/-- An expired timer accuses suspects only. -/
theorem outdated_resolve (wf : TableWF m) (cleared : Cleared n i m) (old : Outdated n i op) (resolved : resolve m op = some cause) :
    Outdated n i cause := by
  rcases resolve_cases resolved with ⟨rfl,-⟩ | ⟨-,indirect⟩
  · exact old
  · cases op with
    | merge r env =>
      simp only [resolve] at resolved
      simp only [Outdated,accusation] at old
      cases known : NodeStateType.ofInt r.state with
      | none =>
        rw [known] at resolved
        cases resolved
      | some t =>
        rw [known] at resolved old
        cases t <;> cases resolved <;> exact old
    | expire t env =>
      obtain ⟨s,held,⟨suspect,-⟩,rfl⟩ := resolve_expire resolved
      intro here
      obtain ⟨s',held',isAlive,-⟩ := cleared
      rw [← entry_name wf held,show s.name = n from here,held'] at held
      cases held
      rw [isAlive] at suspect
      cases suspect
    | _ => exact indirect.elim

/-- Nothing but a later accusation takes the node down. -/
theorem cleared_change (change : PeerChange m m' n op) (old : Outdated n i op) (cleared : Cleared n i m) : Cleared n i m' := by
  obtain ⟨s,held,isAlive,later⟩ := cleared
  have latest {j : UInt32} (newer : s.incarnation ≤ j) : ¬ j ≤ i := UInt32.not_le.mpr (UInt32.lt_of_lt_of_le later newer)
  cases change with
  | same kept => exact ⟨s,kept.trans held,isAlive,later⟩
  | add here absent =>
    rw [absent] at held
    cases held
  | alive here before accepted fits after =>
    rw [held] at before
    cases before
    rcases fits with ⟨-,newer⟩ | ⟨-,-,gone | ⟨gone,-⟩⟩
    · exact ⟨_,after,rfl,UInt32.lt_trans later newer⟩
    · rw [isAlive] at gone
      cases gone
    · rw [isAlive] at gone
      cases gone
  | suspect here before _ newer =>
    rw [held] at before
    cases before
    exact absurd (old here) (latest newer)
  | dead here before _ newer =>
    rw [held] at before
    cases before
    exact absurd (old here) (latest newer)
  | reset after =>
    refine ⟨s,?_,isAlive,later⟩
    rw [after,held,Option.filter_some,if_pos]
    simp [reaps,NodeState.deadOrLeft,isAlive]

theorem cleared_apply (wf : TableWF m) (remote : n ≠ m.config.name) (old : Outdated n i op) (cleared : Cleared n i m) :
    Cleared n i (apply m op) := by
  rcases apply_commits wf op with idle | ⟨cause,resolved,made⟩
  · rwa [idle]
  · have outdated := outdated_resolve wf cleared old resolved
    have kept := commits_invariant (I := fun m' => m'.config = m.config ∧ Cleared n i m') made
      (by
        rintro m₁ m₂ wf ⟨config,cleared⟩ move
        exact ⟨(config_move move).trans config,cleared_change (peer_move wf (config ▸ remote) move) outdated cleared⟩)
      wf ⟨rfl,cleared⟩
    exact kept.2.2

theorem cleared_run {conf : Config} (reached : Reachable conf m) (remote : n ≠ conf.name) {ops : List Op}
    (old : ∀ op ∈ ops, Outdated n i op) (cleared : Cleared n i m) : Cleared n i (run m ops) := by
  induction ops generalizing m with
  | nil => exact cleared
  | cons op ops ih =>
    obtain ⟨wf,config⟩ := tableWF_reachable reached
    refine ih (.step reached op) (fun op' member => old op' (List.mem_cons_of_mem op member)) ?_
    exact cleared_apply wf (config ▸ remote) (old op List.mem_cons_self) cleared

end

/-- A message that says the node is suspect or dead. -/
def Accuses (n : Bytes) (i : UInt32) : Message → Prop
  | .alive _ => False
  | .suspect s => s.node = n ∧ s.incarnation = i
  | .dead d => d.node = n ∧ d.incarnation = i

/-- The answer of the accused. -/
def answer (m : Memberlist) (me : NodeState) (i : UInt32) : Alive :=
  ⟨(m.incarnation.beat i).value,me.name,me.addr,me.port,me.metadata,some me.vsn.toList⟩

section
variable {conf : Config} {m : Memberlist} {me : NodeState} {i : UInt32} {x : Message} {env : Env}

theorem beat_later (room : i < 4294967295) : i < (m.incarnation.beat i).value := by
  have value := toNat_beat m.incarnation i
  have most : i.toNat < 4294967295 := UInt32.lt_iff_toNat_lt.mp room
  rw [UInt32.lt_iff_toNat_lt,value]
  split_ifs <;> omega

/-- The accused queues an answer, unless the accusation is older than its record. -/
theorem accused_answers (env : Env) (reached : Reachable conf m) (own : entry m conf.name = some me) (isAlive : me.state = .alive)
    (staying : m.leave = false) (accuses : Accuses conf.name i x) :
    (i < me.incarnation → apply m (handling x env) = m) ∧
      (me.incarnation ≤ i → (apply m (handling x env)).broadcasts.getLast? =
        some ⟨ipString (bytes me.addr),.alive (answer m me i),none⟩) := by
  obtain ⟨wf,config⟩ := tableWF_reachable reached
  obtain ⟨r,found,rfl⟩ := entry_eq_some.mp own
  have named : (m.heap r).name = m.config.name := config ▸ wf.named _ r found
  have up := up_reachable reached
  have idle := idle_of_alive reached own isAlive
  have live : (m.heap r).deadOrLeft = false := (deadOrLeft_false_iff _).mpr (.inl isAlive)
  cases x with
  | alive a => exact accuses.elim
  | suspect s =>
    obtain ⟨here,rfl⟩ := accuses
    constructor
    · intro older
      simp only [handling,apply,suspectNode,up,here,found,if_pos older]
      rfl
    · intro fresh
      simp only [handling,apply,suspectNode,up,here,found,if_neg (UInt32.not_lt.mpr fresh),idle,isAlive,named]
      exact List.getLast?_concat
  | dead d =>
    obtain ⟨here,rfl⟩ := accuses
    constructor
    · intro older
      simp only [handling,apply,deadNode,deadNodeLocked,up,here,found,if_pos older]
      rfl
    · intro fresh
      simp only [handling,apply,deadNode,deadNodeLocked,up,here,found,if_neg (UInt32.not_lt.mpr fresh),live,named,staying]
      exact List.getLast?_concat

end

section
variable {conf conf' : Config} {m peer : Memberlist} {me s : NodeState} {i : UInt32} {x : Message}

/-- Whoever hears the answer has the node alive. -/
theorem answer_clears (reached : Reachable conf' peer) (remote : me.name ≠ conf'.name) (room : i < 4294967295)
    (held : entry peer me.name = some s) (known : s.incarnation ≤ i) (agrees : ¬ conflicts s (answer m me i)) {env : Env}
    (heard : heardBy conf' env.notifyAlive (answer m me i) = true) :
    Cleared me.name i (apply peer (.alive (answer m me i) env)) := by
  obtain ⟨wf,config⟩ := tableWF_reachable reached
  subst config
  have later := beat_later (m := m) room
  have newer : (standing s).2 < number (.alive (answer m me i)) :=
    UInt32.lt_iff_toNat_lt.mp (UInt32.lt_of_le_of_lt known later)
  obtain ⟨s',held',-,stands⟩ := message_step (.alive (answer m me i)) env remote wf (timers_reachable reached)
    (up_reachable reached) held rfl (fun a same => Message.alive.inj same ▸ agrees)
  rw [hear,if_pos ⟨heard,newer⟩] at stands
  refine ⟨s',held',(Prod.mk.inj stands).1,?_⟩
  rw [UInt32.toNat_inj.mp (Prod.mk.inj stands).2]
  exact later

/-- An accusation, be it of a suspect or of a dead node, is answered by the accused exactly if
    it is not older than its record. Unless it names the largest incarnation, which the answer
    cannot exceed, the answer makes everyone who knows the node at its
    address, and to whom the accusation is the latest that is known of it, take it for alive
    and stop its timer; no message that accuses it of that incarnation or an earlier one
    changes this afterwards. -/
theorem refutation_clears (reached : Reachable conf m) (own : entry m conf.name = some me) (isAlive : me.state = .alive)
    (staying : m.leave = false) (accuses : Accuses conf.name i x) (env : Env) :
    (i < me.incarnation → apply m (handling x env) = m) ∧
    (me.incarnation ≤ i →
      (apply m (handling x env)).broadcasts.getLast? = some ⟨ipString (bytes me.addr),.alive (answer m me i),none⟩) ∧
    (me.incarnation ≤ i → i < 4294967295 →
      ∀ {conf' : Config} {peer : Memberlist} {s : NodeState}, Reachable conf' peer → conf.name ≠ conf'.name →
        entry peer conf.name = some s → s.incarnation ≤ i → ¬ conflicts s (answer m me i) →
        ∀ env' : Env, heardBy conf' env'.notifyAlive (answer m me i) = true →
        ∀ ops, (∀ op ∈ ops, Outdated conf.name i op) →
          Cleared conf.name i (run (apply peer (.alive (answer m me i) env')) ops) ∧
            (run (apply peer (.alive (answer m me i) env')) ops).nodeTimers conf.name = none) := by
  obtain ⟨ignored,answered⟩ := accused_answers env reached own isAlive staying accuses
  refine ⟨ignored,answered,?_⟩
  intro _ room conf' peer s reached' remote held known agrees env' heard ops old
  rw [← entry_name (tableWF_reachable reached).1 own] at remote held old ⊢
  have after : Reachable conf' (apply peer (.alive (answer m me i) env')) := .step reached' (.alive (answer m me i) env')
  have cleared := cleared_run after remote old (answer_clears reached' remote room held known agrees heard)
  have ⟨s,held,alive,_⟩ := cleared
  exact ⟨cleared,idle_of_alive (reachable_run after ops) held alive⟩

end

/-- The node `b`, which suspects `a`. -/
def doubting : Memberlist :=
  run (buildMemberlist { name := [98] }) [.alive ⟨1,[97],some [10,0,0,1],7946,none,some [1,5,2,0,0,0]⟩ {},.suspect ⟨1,[97],[98]⟩ {}]

/-- The accusation once more, what others make of it, and the timer that was stopped. -/
def aftermath : List Op := [.suspect ⟨1,[97],[99]⟩ {},.dead ⟨1,[97],[99]⟩ {},.expire 0 {}]

theorem refutation_clears_doubted :
    (entry doubting [97]).map (fun s => s.state) = some .suspect ∧
      Cleared [97] 1 (run (apply doubting (.alive (answer restarted (restarted.heap 1) 1) {})) aftermath) := by
  have accuses : Accuses [97] 1 (.suspect ⟨1,[97],[98]⟩) := ⟨rfl,rfl⟩
  have own : entry restarted [97] = some (restarted.heap 1) := rfl
  have old : ∀ op ∈ aftermath, Outdated [97] 1 op := by simp [aftermath,Outdated,accusation]
  obtain ⟨-,-,clears⟩ := refutation_clears reachable_restarted own rfl rfl accuses {}
  exact ⟨rfl,(clears (by decide) (by decide) (reachable_run .build _) (by decide) rfl (by decide) (by decide) {} (by decide) aftermath old).1⟩

end Mori.Refutations
