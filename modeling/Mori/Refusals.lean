import Mori.LocalNode

/-!
Alive messages that are not applied. A message about another node is either applied or
leaves the table, the timers and the queue as they were, except for a message with
incarnation 0 about a node that is not known: `aliveNodeLocked` adds the node as a dead
one before it compares incarnations, and then returns.
-/
namespace Mori.Refusals
open Mori.Net Mori.Protocol Mori.State Mori.Table Mori.Moves Mori.LocalNode

/-- A message has been applied: its node is alive as the message says, and the message is
    queued. -/
def Applied (m : Memberlist) (a : Alive) : Prop :=
  (∃ s, entry m a.node = some s ∧ s.state = .alive ∧ s.incarnation = a.incarnation ∧ s.metadata = a.metadata ∧
    s.addr = a.addr ∧ s.port = a.port) ∧ ⟨a.node,.alive a,none⟩ ∈ m.broadcasts

/-- The table with its records, the timers and the queue are as before; at most a conflict
    was reported. -/
structure Untouched (m m' : Memberlist) : Prop where
  nodes : m'.nodes = m.nodes
  nodeMap : m'.nodeMap = m.nodeMap
  numNodes : m'.numNodes = m.numNodes
  heap : m'.heap = m.heap
  nodeTimers : m'.nodeTimers = m.nodeTimers
  suspicions : m'.suspicions = m.suspicions
  broadcasts : m'.broadcasts = m.broadcasts
  events : m'.events = m.events ∨ ∃ e, e.kind = .conflict ∧ m'.events = m.events ++ [e]

theorem untouched_refl (m : Memberlist) : Untouched m m := ⟨rfl,rfl,rfl,rfl,rfl,rfl,rfl,.inl rfl⟩

/-- A message that nothing refuses before its node is looked up. -/
def Admitted (m : Memberlist) (a : Alive) (env : Env) : Prop :=
  m.shutdown = false ∧ ∃ vsn, acceptableVsn a = some vsn ∧ ¬ filtered m.config a vsn false env

/-- A message that adds a node and is not applied to it. -/
def Phantom (m : Memberlist) (a : Alive) (env : Env) : Prop :=
  a.incarnation = 0 ∧ Admitted m a env ∧ m.nodeMap a.node = none ∧ m.config.ipAllowed a.addr = true

section
variable {m : Memberlist} {a : Alive} {env : Env} {r : Ref} {vsn : Versions}

/-- For the record of another node only its incarnation decides. -/
theorem aliveKnown_remote (remote : (m.heap r).name ≠ m.config.name) (updatesNode : Bool) (now : Time) :
    aliveKnown m r a vsn updatesNode none false none now =
      if a.incarnation ≤ (m.heap r).incarnation ∧ updatesNode = false then m
      else applyAlive m r a vsn none none now := by
  unfold aliveKnown
  simp only [remote,ne_eq,not_false_eq_true,true_and,and_false,if_false]

theorem applied_applyAlive (wf : TableWF m) (found : m.nodeMap a.node = some r) (now : Time) :
    Applied (applyAlive m r a vsn none none now) a := by
  obtain ⟨-,entries⟩ := table_applyAlive wf a found vsn none none now
  refine ⟨⟨aliveRecord (m.heap r) a vsn now,?_,rfl,rfl,rfl,rfl,rfl⟩,List.mem_append_right _ List.mem_cons_self⟩
  rw [entries,Function.update_self]

/-- A message about an unknown node. -/
theorem aliveNode_absent (remote : a.node ≠ m.config.name) (up : m.shutdown = false)
    (accepted : acceptableVsn a = some vsn) (passed : ¬ filtered m.config a vsn false env)
    (absent : m.nodeMap a.node = none) (allowed : m.config.ipAllowed a.addr = true) :
    aliveNode m a false env = if a.incarnation = 0 then addNode m (newRecord a vsn) env.offset
      else applyAlive (addNode m (newRecord a vsn) env.offset) m.alloc a vsn none none env.now := by
  have other : ((addNode m (newRecord a vsn) env.offset).heap m.alloc).name ≠
      (addNode m (newRecord a vsn) env.offset).config.name := by
    rw [addNode_heap]
    exact remote
  have zero : a.incarnation ≤ 0 ↔ a.incarnation = 0 := by
    rw [UInt32.le_iff_toNat_le,← UInt32.toNat_inj]
    exact Nat.le_zero
  have known : aliveKnown _ _ a vsn false none false none env.now = _ := aliveKnown_remote other false env.now
  rw [addNode_heap] at known
  simp only [newRecord,zero,and_true] at known
  simp only [aliveNode,up,aliveNodeLocked,remote,and_false,if_false,accepted,if_neg passed,absent,allowed,
    Bool.true_eq_false,Bool.false_eq_true]
  exact known

/-- A message about another node that is not a phantom is applied or changes nothing. -/
theorem applied_or_untouched (wf : TableWF m) (remote : a.node ≠ m.config.name) (real : ¬ Phantom m a env) :
    Applied (aliveNode m a false env) a ∨ Untouched m (aliveNode m a false env) := by
  by_cases up : m.shutdown = false
  case neg =>
    rw [aliveNode,if_pos (by simpa using up)]
    exact .inr (untouched_refl m)
  cases accepted : acceptableVsn a with
  | none =>
    have refused : aliveNode m a false env = m := by simp [aliveNode,up,aliveNodeLocked,remote,accepted]
    rw [refused]
    exact .inr (untouched_refl m)
  | some vsn =>
    by_cases passed : filtered m.config a vsn false env
    · have refused : aliveNode m a false env = m := by simp [aliveNode,up,aliveNodeLocked,remote,accepted,passed]
      rw [refused]
      exact .inr (untouched_refl m)
    cases found : m.nodeMap a.node with
    | none =>
      by_cases allowed : m.config.ipAllowed a.addr = true
      · have later : a.incarnation ≠ 0 := fun zero => real ⟨zero,⟨up,vsn,accepted,passed⟩,found,allowed⟩
        rw [aliveNode_absent remote up accepted passed found allowed,if_neg later]
        exact .inl (applied_applyAlive (tableWF_addNode wf found _) (addNode_nodeMap _ _ _) _)
      · have refused : aliveNode m a false env = m := by
          simp [aliveNode,up,aliveNodeLocked,remote,accepted,passed,found,allowed]
        rw [refused]
        exact .inr (untouched_refl m)
    | some r =>
      have other : (m.heap r).name ≠ m.config.name := (wf.named a.node r found) ▸ remote
      have known (updatesNode : Bool) : Applied (aliveKnown m r a vsn updatesNode none false none env.now) a ∨
          Untouched m (aliveKnown m r a vsn updatesNode none false none env.now) := by
        rw [aliveKnown_remote other]
        split_ifs
        · exact .inr (untouched_refl m)
        · exact .inl (applied_applyAlive wf found _)
      simp only [aliveNode,up,aliveNodeLocked,remote,and_false,if_false,accepted,if_neg passed,found,Bool.false_eq_true]
      split_ifs
      · exact .inr (untouched_refl m)
      · exact known true
      · exact .inr ⟨rfl,rfl,rfl,rfl,rfl,rfl,rfl,.inr ⟨_,rfl,rfl⟩⟩
      · exact .inr (untouched_refl m)
      · exact known false

/-- A phantom is added to the table as a dead node. -/
theorem neither_of_phantom (wf : TableWF m) (remote : a.node ≠ m.config.name) (phantom : Phantom m a env) :
    ¬ (Applied (aliveNode m a false env) a ∨ Untouched m (aliveNode m a false env)) := by
  obtain ⟨zero,⟨up,vsn,accepted,passed⟩,absent,allowed⟩ := phantom
  rw [aliveNode_absent remote up accepted passed absent allowed,if_pos zero]
  rintro (⟨⟨s,held,live,-⟩,-⟩ | untouched)
  · change entry (addNode m (newRecord a vsn) env.offset) (newRecord a vsn).name = some s at held
    rw [entry_addNode wf,Function.update_self] at held
    cases held
    cases live
  · have added := addNode_nodeMap m (newRecord a vsn) env.offset
    rw [untouched.nodeMap] at added
    exact absurd (absent.symm.trans added) (by simp)

end

/-- In every reachable state, and after a shutdown, an alive message about another node is
    applied or changes nothing, unless it has incarnation 0 and passes all checks that are
    made before an unknown node is added. -/
theorem applied_or_untouched_iff {conf : Config} {m : Memberlist} (reached : Reachable conf m) (down : Bool) (a : Alive)
    (remote : a.node ≠ conf.name) (env : Env) :
    (Applied (aliveNode { m with shutdown := down } a false env) a ∨
      Untouched { m with shutdown := down } (aliveNode { m with shutdown := down } a false env)) ↔
    ¬ Phantom { m with shutdown := down } a env := by
  obtain ⟨wf,rfl⟩ := tableWF_reachable reached
  have wf' : TableWF { m with shutdown := down } := tableWF_of_same (m := m) ⟨rfl,rfl,rfl,rfl,rfl⟩ wf
  exact ⟨fun held phantom => neither_of_phantom wf' remote phantom held,applied_or_untouched wf' remote⟩

/-- A message about a second node, of an incarnation. -/
def peerAliveAt (incarnation : UInt32) : Alive := ⟨incarnation,[98],some [10,0,0,2],7946,none,some [1,5,2,0,0,0]⟩

theorem applied_or_untouched_iff_first :
    Reachable restarting restarted ∧ (peerAliveAt 1).node ≠ restarting.name ∧
    ((Applied (aliveNode { restarted with shutdown := false } (peerAliveAt 1) false {}) (peerAliveAt 1) ∨
      Untouched { restarted with shutdown := false }
        (aliveNode { restarted with shutdown := false } (peerAliveAt 1) false {})) ↔
      ¬ Phantom { restarted with shutdown := false } (peerAliveAt 1) {}) :=
  ⟨reachable_restarted,by decide,applied_or_untouched_iff reachable_restarted false (peerAliveAt 1) (by decide) {}⟩

/-- The second node is listed and counted as a dead one, and nothing is queued. -/
theorem zero_incarnation_added :
    Reachable restarting restarted ∧ (peerAliveAt 0).node ≠ restarting.name ∧ restarted.numNodes = 1 ∧
    (aliveNode restarted (peerAliveAt 0) false {}).numNodes = 2 ∧
    (aliveNode restarted (peerAliveAt 0) false {}).nodes.length = 2 ∧
    (entry (aliveNode restarted (peerAliveAt 0) false {}) [98]).map (fun s => (s.state,s.incarnation)) = some (.dead,0) ∧
    (aliveNode restarted (peerAliveAt 0) false {}).broadcasts = restarted.broadcasts ∧
    ¬ (Applied (aliveNode restarted (peerAliveAt 0) false {}) (peerAliveAt 0) ∨
      Untouched restarted (aliveNode restarted (peerAliveAt 0) false {})) := by
  refine ⟨reachable_restarted,by decide,rfl,rfl,rfl,rfl,rfl,?_⟩
  rintro (⟨⟨s,held,live,-⟩,-⟩ | untouched)
  · cases held
    cases live
  · exact absurd untouched.numNodes (by decide)

end Mori.Refusals
