import Mori.Table

/-!
The steps of an instance and what a step can do. `apply` runs one critical
section; `Move` lists every change a critical section can make together with
what the code has checked by then. A section makes at most two moves
(`apply_commits`): a message about an unknown node first adds a record. An
invariant that each move keeps holds along every run (`run_invariant`).
-/
namespace Mori.Moves
open Mori.Net Mori.Protocol Mori.State Mori.Table

/-- One nodeLock critical section, with what it reads from outside. Received
    messages have any content. -/
inductive Op where
  | alive (a : Alive) (env : Env)
  | suspect (s : Suspect) (env : Env)
  | dead (d : Dead) (env : Env)
  | merge (r : PushNodeState) (env : Env)
  | expire (t : Nat) (env : Env)
  | reset (now : Time) (draws : Nat → Nat)
  | update (answer : Slice) (notify receipt : Option Nat) (env : Env)
  | leave (receipt : Option Nat) (env : Env)

/-- A critical section; a call that returns an error changes nothing. -/
def apply (m : Memberlist) : Op → Memberlist
  | .alive a env => aliveNode m a false env
  | .suspect s env => suspectNode m s env
  | .dead d env => deadNode m d env
  | .merge r env => mergeEntry m r env
  | .expire t env => expire m t env.now
  | .reset now draws => resetNodes m now draws
  | .update answer notify receipt env => (updateNodeContext m answer notify receipt env).toOption.getD m
  | .leave receipt env => (leaveContext m receipt env.now).toOption.getD m

/-- A sequence of critical sections. -/
def run (m : Memberlist) (ops : List Op) : Memberlist := ops.foldl apply m

theorem run_append (m : Memberlist) (first second : List Op) :
    run m (first ++ second) = run (run m first) second :=
  List.foldl_append

theorem run_snoc (m : Memberlist) (ops : List Op) (op : Op) : run m (ops ++ [op]) = apply (run m ops) op := by
  rw [run_append]; rfl

/-- A merge is a run of its entries, which other sections may interleave. -/
theorem mergeState_eq_run (m : Memberlist) (remote : List (PushNodeState × Env)) :
    mergeState m remote = run m (remote.map (fun r => .merge r.1 r.2)) := by
  simp [mergeState,run,List.foldl_map,apply]

/-- The message section that a merged entry or an expired timer amounts to. -/
def resolve (m : Memberlist) : Op → Option Op
  | .merge r env =>
    match NodeStateType.ofInt r.state with
    | some .alive => some (.alive ⟨r.incarnation,r.name,r.addr,r.port,r.metadata,r.vsn⟩ env)
    | some .left => some (.dead ⟨r.incarnation,r.name,r.name⟩ env)
    | some .dead => some (.suspect ⟨r.incarnation,r.name,m.config.name⟩ env)
    | some .suspect => some (.suspect ⟨r.incarnation,r.name,m.config.name⟩ env)
    | none => none
  | .expire t env =>
    match entry m (m.suspicions t).node with
    | some s =>
      if s.state = .suspect ∧ s.stateChange = (m.suspicions t).changeTime then
        some (.dead ⟨s.incarnation,s.name,m.config.name⟩ env)
      else none
    | none => none
  | op => some op

theorem apply_resolve (m : Memberlist) (op : Op) : apply m op = (resolve m op).elim m (apply m) := by
  cases op with
  | merge r env =>
    simp only [apply,mergeEntry,resolve]
    cases NodeStateType.ofInt r.state with
    | none => rfl
    | some t => cases t <;> rfl
  | expire t env =>
    simp only [apply,expire,resolve,entry]
    cases found : m.nodeMap (m.suspicions t).node with
    | none => simp
    | some r =>
      simp only [Option.map_some]
      by_cases expired : (m.heap r).state = .suspect ∧ (m.heap r).stateChange = (m.suspicions t).changeTime
      · simp [expired,apply,deadNode]
      · simp [expired]
  | _ => rfl

/-- A merged entry amounts to an alive, a suspect or a dead message about its node. -/
theorem resolve_merge {m : Memberlist} {r : PushNodeState} {env : Env} {cause : Op}
    (resolved : resolve m (.merge r env) = some cause) :
    (r.state = NodeStateType.alive.toInt ∧ cause = .alive ⟨r.incarnation,r.name,r.addr,r.port,r.metadata,r.vsn⟩ env) ∨
      cause = .suspect ⟨r.incarnation,r.name,m.config.name⟩ env ∨ cause = .dead ⟨r.incarnation,r.name,r.name⟩ env := by
  simp only [resolve] at resolved
  cases known : NodeStateType.ofInt r.state with
  | none => rw [known] at resolved; cases resolved
  | some t =>
    rw [known] at resolved
    cases t with
    | alive => cases resolved; exact .inl ⟨eq_toInt_of_ofInt known,rfl⟩
    | suspect => cases resolved; exact .inr (.inl rfl)
    | dead => cases resolved; exact .inr (.inl rfl)
    | left => cases resolved; exact .inr (.inr rfl)

theorem resolve_expire {m : Memberlist} {t : Nat} {env : Env} {cause : Op}
    (resolved : resolve m (.expire t env) = some cause) :
    ∃ s, entry m (m.suspicions t).node = some s ∧
      (s.state = .suspect ∧ s.stateChange = (m.suspicions t).changeTime) ∧
      cause = .dead ⟨s.incarnation,s.name,m.config.name⟩ env := by
  simp only [resolve] at resolved
  cases held : entry m (m.suspicions t).node with
  | none => rw [held] at resolved; cases resolved
  | some s =>
    rw [held] at resolved
    simp only at resolved
    split_ifs at resolved with expired
    cases resolved
    exact ⟨s,rfl,expired,rfl⟩

/-- A section that processes a message. -/
def IsMessage : Op → Prop
  | .alive .. => True
  | .suspect .. => True
  | .dead .. => True
  | _ => False

/-- A section that stands for another one. -/
def Indirect : Op → Prop
  | .merge .. => True
  | .expire .. => True
  | _ => False

theorem resolve_cases {m : Memberlist} {op cause : Op} (resolved : resolve m op = some cause) :
    (cause = op ∧ ¬ Indirect op) ∨ (IsMessage cause ∧ Indirect op) := by
  cases op with
  | merge r env =>
    refine .inr ⟨?_,trivial⟩
    rcases resolve_merge resolved with ⟨-,rfl⟩ | rfl | rfl
    · trivial
    · trivial
    · trivial
  | expire t env =>
    obtain ⟨s,-,-,rfl⟩ := resolve_expire resolved
    exact .inr ⟨trivial,trivial⟩
  | _ => cases resolved; exact .inl ⟨rfl,id⟩

theorem resolve_direct {m : Memberlist} {op cause : Op} (resolved : resolve m op = some cause) : ¬ Indirect cause := by
  rcases resolve_cases resolved with ⟨rfl,direct⟩ | ⟨message,-⟩
  · exact direct
  · cases cause <;> first | exact id | exact message.elim

/-- A section of `resetNodes`, the one that no message leads to and that does not look at the
    shutdown flag. -/
def IsReset : Op → Prop
  | .reset .. => True
  | _ => False

instance : ∀ op, Decidable (IsReset op)
  | .reset .. => instDecidableTrue
  | .alive .. | .suspect .. | .dead .. | .merge .. | .expire .. | .update .. | .leave .. => instDecidableFalse

theorem resolve_not_reset {m : Memberlist} {op cause : Op} (other : ¬ IsReset op) (resolved : resolve m op = some cause) :
    ¬ IsReset cause := by
  rcases resolve_cases resolved with ⟨rfl,-⟩ | ⟨message,-⟩
  · exact other
  · cases cause <;> first | exact id | exact message.elim

/-- The alive message with which `UpdateNodeContext` renews the record at `r`. -/
def ownAlive (m : Memberlist) (r : Ref) (metadata : Slice) : Alive :=
  ⟨(m.incarnation.add 1).value,m.config.name,(m.heap r).addr,(m.heap r).port,metadata,m.config.buildVsnArray⟩

/-- The dead message with which the node whose record is at `r` leaves. -/
def ownDead (m : Memberlist) (r : Ref) : Dead := ⟨(m.heap r).incarnation,m.config.name,m.config.name⟩

/-- What a critical section can do to an instance. -/
inductive Move (m : Memberlist) : Op → Memberlist → Prop
  | conflict {a : Alive} {env : Env} {r : Ref} (found : m.nodeMap a.node = some r)
      (differs : conflicts (m.heap r) a) (kept : ¬ reclaimable m.config (m.heap r) env.since)
      (asked : m.config.conflict = true) :
      Move m (.alive a env) (enqueueEventLocked m [nextEvent m .conflict (m.heap r).toNode
        (some ⟨a.node,a.addr,a.port,a.metadata,.alive,{}⟩) none])
  | add {a : Alive} {env : Env} {vsn : Versions} (absent : m.nodeMap a.node = none)
      (accepted : acceptableVsn a = some vsn) (allowed : m.config.ipAllowed a.addr = true)
      (joining : a.node = m.config.name → m.leave = false) :
      Move m (.alive a env) (addNode m (newRecord a vsn) env.offset)
  | repeatAlive {a : Alive} {env : Env} {r : Ref} (found : m.nodeMap a.node = some r)
      (isLocal : (m.heap r).name = m.config.name) :
      Move m (.alive a env) (clearTimer m a.node)
  | refuteAlive {a : Alive} {env : Env} {r : Ref} (found : m.nodeMap a.node = some r)
      (isLocal : (m.heap r).name = m.config.name) (staying : a.node = m.config.name → m.leave = false)
      (newer : (m.heap r).incarnation ≤ a.incarnation) :
      Move m (.alive a env) (refuteAlive m r a none)
  | applyAlive {a : Alive} {env : Env} {r : Ref} {vsn : Versions} (found : m.nodeMap a.node = some r)
      (accepted : acceptableVsn a = some vsn) (remote : (m.heap r).name ≠ m.config.name)
      (fits : (¬ conflicts (m.heap r) a ∧ (m.heap r).incarnation < a.incarnation) ∨
        (conflicts (m.heap r) a ∧ m.config.ipAllowed a.addr = true ∧
          reclaimable m.config (m.heap r) env.since)) :
      Move m (.alive a env) (applyAlive m r a vsn none none env.now)
  | confirm {s : Suspect} {env : Env} {r : Ref} {t : Nat} (found : m.nodeMap s.node = some r)
      (newer : (m.heap r).incarnation ≤ s.incarnation) (timer : m.nodeTimers s.node = some t) :
      Move m (.suspect s env) (confirmTimer m t s)
  | refuteSuspect {s : Suspect} {env : Env} {r : Ref} (found : m.nodeMap s.node = some r)
      (isLocal : (m.heap r).name = m.config.name) (isAlive : (m.heap r).state = .alive)
      (newer : (m.heap r).incarnation ≤ s.incarnation) :
      Move m (.suspect s env) (refute m r s.incarnation)
  | applySuspect {s : Suspect} {env : Env} {r : Ref} (found : m.nodeMap s.node = some r)
      (remote : (m.heap r).name ≠ m.config.name) (isAlive : (m.heap r).state = .alive)
      (newer : (m.heap r).incarnation ≤ s.incarnation) (timer : m.nodeTimers s.node = none) :
      Move m (.suspect s env) (applySuspect m r s env.now)
  | repeatDead {d : Dead} {env : Env} {r : Ref} (found : m.nodeMap d.node = some r)
      (isDead : (m.heap r).deadOrLeft = true) (newer : (m.heap r).incarnation ≤ d.incarnation) :
      Move m (.dead d env) (clearTimer m d.node)
  | refuteDead {d : Dead} {env : Env} {r : Ref} (found : m.nodeMap d.node = some r)
      (isLocal : (m.heap r).name = m.config.name) (staying : m.leave = false)
      (live : (m.heap r).deadOrLeft = false) (newer : (m.heap r).incarnation ≤ d.incarnation) :
      Move m (.dead d env) (refute (clearTimer m d.node) r d.incarnation)
  | applyDead {d : Dead} {env : Env} {r : Ref} {notify : Option Nat} (found : m.nodeMap d.node = some r)
      (remote : (m.heap r).name = m.config.name → m.leave = true)
      (live : (m.heap r).deadOrLeft = false) (newer : (m.heap r).incarnation ≤ d.incarnation) :
      Move m (.dead d env) (applyDead m r d notify none env.now)
  | reset {now : Time} {draws : Nat → Nat} : Move m (.reset now draws) (resetNodes m now draws)
  | updateStale {answer : Slice} {notify receipt : Option Nat} {env : Env} {r : Ref}
      (found : m.nodeMap m.config.name = some r) (staying : m.leave = false)
      (stale : (m.incarnation.add 1).value < (m.heap r).incarnation) :
      Move m (.update answer notify receipt env) { m with incarnation := m.incarnation.add 1 }
  | update {answer metadata : Slice} {notify receipt : Option Nat} {env : Env} {r : Ref}
      (given : delegateMeta m.config answer = .ok metadata)
      (found : m.nodeMap m.config.name = some r) (staying : m.leave = false)
      (newer : (m.heap r).incarnation ≤ (m.incarnation.add 1).value) :
      Move m (.update answer notify receipt env)
        (State.applyAlive { m with incarnation := m.incarnation.add 1 } r (ownAlive m r metadata)
          m.config.versions notify receipt env.now)
  | leave {receipt : Option Nat} {env : Env} {r : Ref} (found : m.nodeMap m.config.name = some r)
      (staying : m.leave = false) (live : (m.heap r).deadOrLeft = false) :
      Move m (.leave receipt env)
        (State.applyDead { m with leaveReceipt := receipt, leave := true } r (ownDead m r)
          (some m.leaveBroadcast) receipt env.now)
  | leaveDead {receipt : Option Nat} {env : Env} {r : Ref} (found : m.nodeMap m.config.name = some r)
      (staying : m.leave = false) (isDead : (m.heap r).deadOrLeft = true) :
      Move m (.leave receipt env)
        (clearTimer { m with leaveReceipt := receipt, leave := true } m.config.name)

/-- The moves of one critical section: none, one, or one on the record that a
    message about an unknown node has added. -/
inductive Commits (m : Memberlist) : Op → Memberlist → Prop
  | idle {op : Op} : Commits m op m
  | move {op : Op} {m' : Memberlist} (move : Move m op m') : Commits m op m'
  | join {a : Alive} {env : Env} {m₁ m' : Memberlist} (absent : m.nodeMap a.node = none)
      (added : Move m (.alive a env) m₁) (move : Move m₁ (.alive a env) m') : Commits m (.alive a env) m'

section Updates
variable {m : Memberlist} {n : Bytes} {r : Ref}

/-- An update that overwrites the record of a name, and nothing else of the table. -/
theorem table_of_write {m' : Memberlist} {s : NodeState} (wf : TableWF m) (found : m.nodeMap n = some r)
    (name : s.name = n) (same : SameTable (write m r s) m') :
    TableWF m' ∧ entry m' = Function.update (entry m) n (some s) :=
  ⟨tableWF_of_same same (tableWF_write wf found name),(entry_of_same same).trans (entry_write wf found s)⟩

/-- The local record after a refutation. -/
def refuted (m : Memberlist) (me : NodeState) (accusedInc : UInt32) : NodeState :=
  { me with incarnation := (m.incarnation.beat accusedInc).value }

theorem table_refute (wf : TableWF m) (found : m.nodeMap n = some r) (accusedInc : UInt32) :
    TableWF (refute m r accusedInc) ∧
      entry (refute m r accusedInc) = Function.update (entry m) n (some (refuted m (m.heap r) accusedInc)) :=
  table_of_write wf found (wf.named n r found) ⟨rfl,rfl,rfl,rfl,rfl⟩

theorem table_refuteDead (wf : TableWF m) (found : m.nodeMap n = some r) (accusedInc : UInt32) :
    TableWF (refute (clearTimer m n) r accusedInc) ∧
      entry (refute (clearTimer m n) r accusedInc) =
        Function.update (entry m) n (some (refuted m (m.heap r) accusedInc)) :=
  table_of_write wf found (wf.named n r found) ⟨rfl,rfl,rfl,rfl,rfl⟩

theorem table_refuteAlive (wf : TableWF m) {a : Alive} (found : m.nodeMap a.node = some r) (receipt : Option Nat) :
    TableWF (refuteAlive m r a receipt) ∧
      entry (refuteAlive m r a receipt) =
        Function.update (entry m) a.node (some (refuted m (m.heap r) a.incarnation)) :=
  table_of_write wf found (wf.named a.node r found) ⟨rfl,rfl,rfl,rfl,rfl⟩

theorem table_applyAlive (wf : TableWF m) (a : Alive) (found : m.nodeMap a.node = some r) (vsn : Versions)
    (notify receipt : Option Nat) (now : Time) :
    TableWF (applyAlive m r a vsn notify receipt now) ∧
      entry (applyAlive m r a vsn notify receipt now) =
        Function.update (entry m) a.node (some (aliveRecord (m.heap r) a vsn now)) :=
  table_of_write wf found (wf.named a.node r found) ⟨rfl,rfl,rfl,rfl,rfl⟩

/-- `applyAlive` after an incarnation was drawn. -/
theorem table_update (wf : TableWF m) (a : Alive) (found : m.nodeMap a.node = some r) (counter : Counter)
    (vsn : Versions) (notify receipt : Option Nat) (now : Time) :
    TableWF (applyAlive { m with incarnation := counter } r a vsn notify receipt now) ∧
      entry (applyAlive { m with incarnation := counter } r a vsn notify receipt now) =
        Function.update (entry m) a.node (some (aliveRecord (m.heap r) a vsn now)) :=
  table_of_write wf found (wf.named a.node r found) ⟨rfl,rfl,rfl,rfl,rfl⟩

theorem table_applyDead (wf : TableWF m) (d : Dead) (found : m.nodeMap d.node = some r) (notify receipt : Option Nat)
    (now : Time) :
    TableWF (applyDead m r d notify receipt now) ∧
      entry (applyDead m r d notify receipt now) =
        Function.update (entry m) d.node (some (deadRecord (m.heap r) d now)) :=
  table_of_write wf found (wf.named d.node r found) ⟨rfl,rfl,rfl,rfl,rfl⟩

/-- `applyDead` after the leave was recorded. -/
theorem table_leave (wf : TableWF m) (d : Dead) (found : m.nodeMap d.node = some r) (left notify receipt : Option Nat)
    (now : Time) :
    TableWF (applyDead { m with leaveReceipt := left, leave := true } r d notify receipt now) ∧
      entry (applyDead { m with leaveReceipt := left, leave := true } r d notify receipt now) =
        Function.update (entry m) d.node (some (deadRecord (m.heap r) d now)) :=
  table_of_write wf found (wf.named d.node r found) ⟨rfl,rfl,rfl,rfl,rfl⟩

theorem table_applySuspect (wf : TableWF m) (s : Suspect) (found : m.nodeMap s.node = some r) (now : Time) :
    TableWF (applySuspect m r s now) ∧
      entry (applySuspect m r s now) = Function.update (entry m) s.node (some (suspectRecord (m.heap r) s now)) :=
  table_of_write wf found (wf.named s.node r found) ⟨rfl,rfl,rfl,rfl,rfl⟩

end Updates

theorem tableWF_move {m m' : Memberlist} {op : Op} (wf : TableWF m) (move : Move m op m') : TableWF m' := by
  cases move with
  | conflict => exact tableWF_of_same (m := m) ⟨rfl,rfl,rfl,rfl,rfl⟩ wf
  | add absent => exact tableWF_addNode wf absent _
  | repeatAlive => exact tableWF_of_same (m := m) ⟨rfl,rfl,rfl,rfl,rfl⟩ wf
  | refuteAlive found => exact (table_refuteAlive wf found none).1
  | applyAlive found => exact (table_applyAlive wf _ found _ _ _ _).1
  | confirm => exact tableWF_of_same (m := m) ⟨rfl,rfl,rfl,rfl,rfl⟩ wf
  | refuteSuspect found => exact (table_refute wf found _).1
  | applySuspect found => exact (table_applySuspect wf _ found _).1
  | repeatDead => exact tableWF_of_same (m := m) ⟨rfl,rfl,rfl,rfl,rfl⟩ wf
  | refuteDead found => exact (table_refuteDead wf found _).1
  | applyDead found => exact (table_applyDead wf _ found _ _ _).1
  | reset => exact tableWF_resetNodes _ _ wf
  | updateStale => exact tableWF_of_same (m := m) ⟨rfl,rfl,rfl,rfl,rfl⟩ wf
  | @update _ metadata _ _ _ r _ found => exact (table_update wf (ownAlive m r metadata) found _ _ _ _ _).1
  | @leave _ _ r found => exact (table_leave wf (ownDead m r) found _ _ _ _).1
  | leaveDead => exact tableWF_of_same (m := m) ⟨rfl,rfl,rfl,rfl,rfl⟩ wf

theorem aliveKnown_move {m : Memberlist} {a : Alive} (env : Env) {r : Ref} {vsn : Versions} {updatesNode : Bool}
    (found : m.nodeMap a.node = some r) (accepted : acceptableVsn a = some vsn)
    (staying : a.node = m.config.name → m.leave = false)
    (fits : (updatesNode = false ∧ ¬ conflicts (m.heap r) a) ∨
      (conflicts (m.heap r) a ∧ m.config.ipAllowed a.addr = true ∧ reclaimable m.config (m.heap r) env.since)) :
    aliveKnown m r a vsn updatesNode none false none env.now = m ∨
      Move m (.alive a env) (aliveKnown m r a vsn updatesNode none false none env.now) := by
  unfold aliveKnown
  simp only [true_and]
  split_ifs with stale older isLocal same
  · exact .inl rfl
  · exact .inl rfl
  · exact .inr (.repeatAlive found isLocal)
  · have newer : (m.heap r).incarnation ≤ a.incarnation := UInt32.not_lt.mp (fun lower => older ⟨lower,isLocal⟩)
    exact .inr (.refuteAlive found isLocal staying newer)
  · refine .inr (.applyAlive found accepted isLocal ?_)
    rcases fits with ⟨known,agrees⟩ | reclaims
    · exact .inl ⟨agrees,UInt32.not_le.mp (fun lower => stale ⟨lower,isLocal,known⟩)⟩
    · exact .inr reclaims

/-- At most one move is no move or one. -/
theorem commits_of_move {m m' : Memberlist} {op : Op} (made : m' = m ∨ Move m op m') : Commits m op m' := by
  rcases made with rfl | move
  · exact .idle
  · exact .move move

theorem newRecord_agrees (a : Alive) (vsn : Versions) : ¬ conflicts (newRecord a vsn) a := by
  simp [conflicts,newRecord,ipEqual_refl]

theorem aliveNode_commits (m : Memberlist) (a : Alive) (env : Env) :
    Commits m (.alive a env) (aliveNode m a false env) := by
  unfold aliveNode aliveNodeLocked
  by_cases down : m.shutdown = true
  · rw [if_pos down]; exact .idle
  rw [if_neg down]
  by_cases left : m.leave = true ∧ a.node = m.config.name
  · rw [if_pos left]; exact .idle
  rw [if_neg left]
  have staying : a.node = m.config.name → m.leave = false := by
    intro isLocal
    simpa using fun gone => left ⟨gone,isLocal⟩
  cases accepted : acceptableVsn a with
  | none => exact .idle
  | some vsn =>
    simp only
    by_cases refused : filtered m.config a vsn false env
    · rw [if_pos refused]; exact .idle
    rw [if_neg refused]
    cases found : m.nodeMap a.node with
    | none =>
      simp only
      split_ifs with blocked
      · exact .idle
      have allowed : m.config.ipAllowed a.addr = true := by simpa using blocked
      have added : Move m (.alive a env) (addNode m (newRecord a vsn) env.offset) :=
        .add found accepted allowed staying
      have agrees : ¬ conflicts ((addNode m (newRecord a vsn) env.offset).heap m.alloc) a := by
        rw [addNode_heap]
        exact newRecord_agrees a vsn
      rcases aliveKnown_move env (addNode_nodeMap m (newRecord a vsn) env.offset) accepted staying
        (.inl ⟨rfl,agrees⟩) with same | move
      · rw [same]
        exact .move added
      · exact .join found added move
    | some r =>
      simp only
      split_ifs with differs blocked old asked
      · exact .idle
      · exact commits_of_move (aliveKnown_move env found accepted staying (.inr ⟨differs,by simpa using blocked,old⟩))
      · exact .move (.conflict found differs old asked)
      · exact .idle
      · exact commits_of_move (aliveKnown_move env found accepted staying (.inl ⟨rfl,differs⟩))

theorem suspectNode_commits (m : Memberlist) (s : Suspect) (env : Env) :
    Commits m (.suspect s env) (suspectNode m s env) := by
  unfold suspectNode
  by_cases down : m.shutdown = true
  · rw [if_pos down]; exact .idle
  rw [if_neg down]
  cases found : m.nodeMap s.node with
  | none => exact .idle
  | some r =>
    simp only
    by_cases stale : s.incarnation < (m.heap r).incarnation
    · rw [if_pos stale]; exact .idle
    rw [if_neg stale]
    have newer : (m.heap r).incarnation ≤ s.incarnation := UInt32.not_lt.mp stale
    cases timer : m.nodeTimers s.node with
    | some t => exact .move (.confirm found newer timer)
    | none =>
      simp only
      split_ifs with quiet isLocal
      · exact .idle
      · exact .move (.refuteSuspect found isLocal (by simpa using quiet) newer)
      · exact .move (.applySuspect found isLocal (by simpa using quiet) newer timer)

theorem deadNode_commits (m : Memberlist) (d : Dead) (env : Env) : Commits m (.dead d env) (deadNode m d env) := by
  unfold deadNode deadNodeLocked
  by_cases down : m.shutdown = true
  · rw [if_pos down]; exact .idle
  rw [if_neg down]
  cases found : m.nodeMap d.node with
  | none => exact .idle
  | some r =>
    simp only
    split_ifs with stale isDead isLocal staying
    · exact .idle
    · exact .move (.repeatDead found isDead (UInt32.not_lt.mp stale))
    · exact .move (.refuteDead found isLocal staying (by simpa using isDead) (UInt32.not_lt.mp stale))
    · exact .move (.applyDead found (fun _ => by simpa using staying) (by simpa using isDead)
        (UInt32.not_lt.mp stale))
    · exact .move (.applyDead found (fun same => absurd same isLocal) (by simpa using isDead)
        (UInt32.not_lt.mp stale))

/-- The versions that a node announces pass the check of its peers. -/
theorem acceptableVsn_own (conf : Config) {a : Alive} (own : a.vsn = conf.buildVsnArray) :
    acceptableVsn a = some conf.versions := by
  unfold acceptableVsn
  rw [own,Config.buildVsnArray,parseVsn_toList]
  simp [Config.versions,protocolVersionMin,protocolVersionMax]

/-- An alive message of the node itself that repeats the stored address is
    applied unless its incarnation is old. -/
theorem aliveNodeLocked_own {m : Memberlist} {a : Alive} {r : Ref} {vsn : Versions} (notify receipt : Option Nat)
    (env : Env) (staying : m.leave = false) (accepted : acceptableVsn a = some vsn) (found : m.nodeMap a.node = some r)
    (isLocal : (m.heap r).name = m.config.name) (agrees : ¬ conflicts (m.heap r) a) :
    aliveNodeLocked m a notify true receipt env =
      if a.incarnation < (m.heap r).incarnation then m else applyAlive m r a vsn notify receipt env.now := by
  simp [aliveNodeLocked,staying,accepted,filtered,found,agrees,aliveKnown,isLocal]

theorem update_commits {m : Memberlist} (wf : TableWF m) (answer : Slice) (notify receipt : Option Nat) (env : Env) :
    Commits m (.update answer notify receipt env) (apply m (.update answer notify receipt env)) := by
  simp only [apply,updateNodeContext,updateNodeLocked]
  by_cases down : m.shutdown = true
  · simp only [if_pos down]; exact .idle
  simp only [if_neg down]
  cases given : delegateMeta m.config answer with
  | error err => exact .idle
  | ok metadata =>
    simp only
    by_cases left : m.leave = true
    · simp only [if_pos left]; exact .idle
    simp only [if_neg left]
    cases found : m.nodeMap m.config.name with
    | none => exact .idle
    | some r =>
      have staying : m.leave = false := by simpa using left
      have isLocal : (m.heap r).name = m.config.name := wf.named _ _ found
      have agrees : ¬ conflicts (m.heap r) (ownAlive m r metadata) := by simp [conflicts,ownAlive,ipEqual_refl]
      have result := aliveNodeLocked_own (m := { m with incarnation := m.incarnation.add 1 })
        (a := ownAlive m r metadata) notify receipt env staying (acceptableVsn_own m.config rfl) found isLocal agrees
      simp only [Except.toOption,Option.getD_some]
      rw [show (⟨(m.incarnation.add 1).value,m.config.name,(m.heap r).addr,(m.heap r).port,metadata,
        m.config.buildVsnArray⟩ : Alive) = ownAlive m r metadata from rfl,result]
      split_ifs with stale
      · exact .move (.updateStale found staying stale)
      · exact .move (.update given found staying (UInt32.not_lt.mp stale))

theorem leave_commits {m : Memberlist} (wf : TableWF m) (receipt : Option Nat) (env : Env) :
    Commits m (.leave receipt env) (apply m (.leave receipt env)) := by
  simp only [apply,leaveContext,leaveLocked]
  by_cases down : m.shutdown = true
  · simp only [if_pos down]; exact .idle
  simp only [if_neg down]
  by_cases left : m.leave = true
  · simp only [if_pos left]; exact .idle
  simp only [if_neg left]
  cases found : m.nodeMap m.config.name with
  | none => exact .idle
  | some r =>
    have staying : m.leave = false := by simpa using left
    have isLocal : (m.heap r).name = m.config.name := wf.named _ _ found
    simp only [Except.toOption,Option.getD_some,deadNodeLocked,isLocal,found,UInt32.lt_irrefl,if_false,if_true]
    by_cases isDead : (m.heap r).deadOrLeft = true
    · rw [if_pos isDead]
      exact .move (.leaveDead found staying isDead)
    · rw [if_neg isDead]
      exact .move (.leave found staying (by simpa using isDead))

/-- A critical section does nothing, or it makes the moves of the section it
    amounts to. -/
theorem apply_commits {m : Memberlist} (wf : TableWF m) (op : Op) :
    apply m op = m ∨ ∃ cause, resolve m op = some cause ∧ Commits m cause (apply m op) := by
  rw [apply_resolve]
  cases resolved : resolve m op with
  | none => exact .inl rfl
  | some cause =>
    refine .inr ⟨cause,rfl,?_⟩
    simp only [Option.elim_some]
    cases cause with
    | alive a env => exact aliveNode_commits m a env
    | suspect s env => exact suspectNode_commits m s env
    | dead d env => exact deadNode_commits m d env
    | reset now draws => exact .move .reset
    | update answer notify receipt env => exact update_commits wf answer notify receipt env
    | leave receipt env => exact leave_commits wf receipt env
    | merge r env => exact absurd trivial (resolve_direct resolved)
    | expire t env => exact absurd trivial (resolve_direct resolved)

theorem config_move {m m' : Memberlist} {op : Op} (move : Move m op m') : m'.config = m.config := by
  cases move <;> rfl

theorem shutdown_move {m m' : Memberlist} {op : Op} (move : Move m op m') : m'.shutdown = m.shutdown := by
  cases move <;> rfl

/-- Only `LeaveContext` sets the leave flag. -/
theorem leave_move {m m' : Memberlist} {op : Op} (move : Move m op m') :
    m'.leave = m.leave ∨ m'.leave = true ∧ ∃ receipt env, op = .leave receipt env := by
  cases move with
  | leave => exact .inr ⟨rfl,_,_,rfl⟩
  | leaveDead => exact .inr ⟨rfl,_,_,rfl⟩
  | _ => exact .inl rfl

/-- What every move of a section keeps, the section keeps. -/
theorem commits_invariant {I : Memberlist → Prop} {op : Op} {m m' : Memberlist} (made : Commits m op m')
    (keeps : ∀ {m m'}, TableWF m → I m → Move m op m' → I m') (wf : TableWF m) (start : I m) :
    TableWF m' ∧ I m' := by
  cases made with
  | idle => exact ⟨wf,start⟩
  | move move => exact ⟨tableWF_move wf move,keeps wf start move⟩
  | join absent added move =>
    have wf₁ := tableWF_move wf added
    exact ⟨tableWF_move wf₁ move,keeps wf₁ (keeps wf start added) move⟩

section Kinds
variable {I : Memberlist → Prop} {P : Op → Prop}

/-- What the moves of a kind of section keep, such a section keeps. -/
theorem apply_keeps (passes : ∀ {m op cause}, P op → resolve m op = some cause → P cause)
    (keeps : ∀ {m m' op}, P op → TableWF m → I m → Move m op m' → I m') {m : Memberlist} (wf : TableWF m)
    (start : I m) {op : Op} (kind : P op) : TableWF (apply m op) ∧ I (apply m op) := by
  rcases apply_commits wf op with idle | ⟨cause,resolved,made⟩
  · rw [idle]; exact ⟨wf,start⟩
  · exact commits_invariant made (keeps (passes kind resolved)) wf start

/-- So does a run of such sections. -/
theorem run_keeps (passes : ∀ {m op cause}, P op → resolve m op = some cause → P cause)
    (keeps : ∀ {m m' op}, P op → TableWF m → I m → Move m op m' → I m') {m : Memberlist} (wf : TableWF m)
    (start : I m) {ops : List Op} (kind : ∀ op ∈ ops, P op) : TableWF (run m ops) ∧ I (run m ops) := by
  induction ops generalizing m with
  | nil => exact ⟨wf,start⟩
  | cons op ops ih =>
    obtain ⟨wf',held⟩ := apply_keeps passes keeps wf start (kind op List.mem_cons_self)
    exact ih wf' held (fun op' member => kind op' (List.mem_cons_of_mem op member))

end Kinds

theorem apply_invariant {I : Memberlist → Prop} (keeps : ∀ {m m' op}, TableWF m → I m → Move m op m' → I m')
    {m : Memberlist} (wf : TableWF m) (start : I m) (op : Op) : TableWF (apply m op) ∧ I (apply m op) :=
  apply_keeps (P := fun _ => True) (fun _ _ => trivial) (fun _ => keeps) wf start trivial

theorem tableWF_apply {m : Memberlist} (wf : TableWF m) (op : Op) : TableWF (apply m op) :=
  (apply_invariant (I := fun _ => True) (fun _ _ _ => trivial) wf trivial op).1

/-- What every move keeps, every run keeps. -/
theorem run_invariant {I : Memberlist → Prop} (keeps : ∀ {m m' op}, TableWF m → I m → Move m op m' → I m')
    {m : Memberlist} (wf : TableWF m) (start : I m) (ops : List Op) : TableWF (run m ops) ∧ I (run m ops) :=
  run_keeps (P := fun _ => True) (fun _ _ => trivial) (fun _ => keeps) wf start (fun _ _ => trivial)

/-- The states of an instance, its start included: `setAlive` draws an incarnation
    at some point and commits its message at a later one. -/
inductive Reachable (conf : Config) : Memberlist → Prop
  | build : Reachable conf (buildMemberlist conf)
  | draw {m : Memberlist} (before : Reachable conf m) (addr : Slice) (port : Int) (metadata : Slice) :
      Reachable conf (setAliveMessage m addr port metadata).1
  | commit {m m' : Memberlist} (before : Reachable conf m) {a : Alive} (named : a.node = conf.name)
      {receipt : Option Nat} {env : Env} (committed : setAliveLocked m a receipt env = .ok m') : Reachable conf m'
  | step {m : Memberlist} (before : Reachable conf m) (op : Op) : Reachable conf (apply m op)

/-- What the commit of `setAlive` can do. -/
inductive Boot (m : Memberlist) (a : Alive) : Memberlist → Prop
  | idle : Boot m a m
  | conflict (e : QueuedEvent) : Boot m a (enqueueEventLocked m [e])
  | apply {r : Ref} {vsn : Versions} {receipt : Option Nat} {now : Time} (found : m.nodeMap a.node = some r) :
      Boot m a (applyAlive m r a vsn none receipt now)
  | first {vsn : Versions} {offset : Nat} {receipt : Option Nat} {now : Time} (absent : m.nodeMap a.node = none) :
      Boot m a (applyAlive (addNode m (newRecord a vsn) offset) m.alloc a vsn none receipt now)

theorem aliveKnown_boot {m : Memberlist} {r : Ref} {a : Alive} (found : m.nodeMap a.node = some r) (vsn : Versions)
    (updatesNode : Bool) (receipt : Option Nat) (now : Time) :
    Boot m a (aliveKnown m r a vsn updatesNode none true receipt now) := by
  unfold aliveKnown
  dsimp only
  split_ifs with stale older isLocal same
  · exact .idle
  · exact .idle
  · exact absurd isLocal.1 (by simp)
  · exact absurd isLocal.1 (by simp)
  · exact .apply found

theorem aliveKnown_first {m : Memberlist} {a : Alive} (named : a.node = m.config.name) (vsn : Versions) (offset : Nat)
    (receipt : Option Nat) (now : Time) :
    aliveKnown (addNode m (newRecord a vsn) offset) m.alloc a vsn false none true receipt now =
      applyAlive (addNode m (newRecord a vsn) offset) m.alloc a vsn none receipt now := by
  have oldest : (newRecord a vsn).incarnation = 0 := rfl
  have isLocal : (newRecord a vsn).name = (addNode m (newRecord a vsn) offset).config.name := named
  simp [aliveKnown,addNode_heap,oldest,isLocal]

theorem aliveNodeLocked_boot {m : Memberlist} {a : Alive} (named : a.node = m.config.name) (receipt : Option Nat)
    (env : Env) : Boot m a (aliveNodeLocked m a none true receipt env) := by
  unfold aliveNodeLocked
  by_cases left : m.leave = true ∧ a.node = m.config.name
  · rw [if_pos left]; exact .idle
  rw [if_neg left]
  cases acceptableVsn a with
  | none => exact .idle
  | some vsn =>
    simp only [filtered,Bool.true_eq_false,false_and,and_false,if_false]
    cases found : m.nodeMap a.node with
    | none =>
      simp only
      split_ifs with blocked
      · exact .idle
      · rw [aliveKnown_first named]
        exact .first found
    | some r =>
      simp only
      split_ifs with differs blocked old asked
      · exact .idle
      · exact aliveKnown_boot found vsn true receipt env.now
      · exact .conflict _
      · exact .idle
      · exact aliveKnown_boot found vsn false receipt env.now

theorem setAliveLocked_boot {m m' : Memberlist} {a : Alive} {receipt : Option Nat} {env : Env}
    (named : a.node = m.config.name) (committed : setAliveLocked m a receipt env = .ok m') :
    m' = aliveNodeLocked m a none true receipt env ∧ Boot m a m' := by
  unfold setAliveLocked at committed
  split_ifs at committed
  cases committed
  exact ⟨rfl,aliveNodeLocked_boot named receipt env⟩

theorem tableWF_boot {m m' : Memberlist} {a : Alive} (wf : TableWF m) (boot : Boot m a m') : TableWF m' := by
  cases boot with
  | idle => exact wf
  | conflict => exact tableWF_of_same (m := m) ⟨rfl,rfl,rfl,rfl,rfl⟩ wf
  | apply found => exact (table_applyAlive wf a found _ _ _ _).1
  | first absent =>
    exact (table_applyAlive (tableWF_addNode wf absent _) a (addNode_nodeMap ..) _ _ _ _).1

theorem config_boot {m m' : Memberlist} {a : Alive} (boot : Boot m a m') : m'.config = m.config := by
  cases boot <;> rfl

/-- What the start and every move keep holds in every reachable state. -/
theorem reachable_invariant {conf : Config} {I : Memberlist → Prop} (build : I (buildMemberlist conf))
    (draw : ∀ {m} (counter : Counter), I m → I { m with incarnation := counter })
    (boot : ∀ {m m' a receipt env}, TableWF m → I m → a.node = m.config.name →
      m' = aliveNodeLocked m a none true receipt env → Boot m a m' → I m')
    (keeps : ∀ {m m' op}, TableWF m → I m → Move m op m' → I m') {m : Memberlist} (reached : Reachable conf m) :
    (TableWF m ∧ m.config = conf) ∧ I m := by
  induction reached with
  | build => exact ⟨⟨tableWF_build conf,rfl⟩,build⟩
  | @draw m before addr port metadata ih =>
    exact ⟨⟨tableWF_of_same (m := m) ⟨rfl,rfl,rfl,rfl,rfl⟩ ih.1.1,ih.1.2⟩,draw _ ih.2⟩
  | @commit m m' before a named receipt env committed ih =>
    obtain ⟨⟨wf,config⟩,held⟩ := ih
    have here : a.node = m.config.name := by rw [config]; exact named
    obtain ⟨committed',made⟩ := setAliveLocked_boot here committed
    exact ⟨⟨tableWF_boot wf made,(config_boot made).trans config⟩,boot wf held here committed' made⟩
  | @step m before op ih =>
    obtain ⟨⟨wf,config⟩,held⟩ := ih
    have kept := apply_invariant (I := fun m => m.config = conf ∧ I m)
      (fun wf held move => ⟨(config_move move).trans held.1,keeps wf held.2 move⟩) wf ⟨config,held⟩ op
    exact ⟨⟨kept.1,kept.2.1⟩,kept.2.2⟩

theorem tableWF_reachable {conf : Config} {m : Memberlist} (reached : Reachable conf m) :
    TableWF m ∧ m.config = conf :=
  (reachable_invariant (I := fun _ => True) trivial (fun _ _ => trivial) (fun _ _ _ _ _ => trivial)
    (fun _ _ _ => trivial) reached).1

end Mori.Moves
