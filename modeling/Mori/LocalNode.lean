import Mori.Moves
import Mori.Machines
import Mathlib.Data.List.Induction

/-!
The record of the local node. Once `setAlive` has committed on an empty table,
no message can make the node forget itself, change what it says of itself, or
come back after it left. `setAlive` itself does not hold its ground against
messages that arrive before it commits.
-/
namespace Mori.LocalNode
open Mori.Net Mori.Protocol Mori.State Mori.Table Mori.Moves
set_option linter.unusedSimpArgs false

/-- The record under the local name. -/
abbrev localEntry (m : Memberlist) : Option NodeState := entry m m.config.name

/-- What the local node says of itself. -/
def content (s : NodeState) : Slice × UInt16 × Slice × Versions := (s.addr,s.port,s.metadata,s.vsn)

theorem local_of_found {m : Memberlist} (wf : TableWF m) {n : Bytes} {r : Ref} (found : m.nodeMap n = some r)
    (isLocal : (m.heap r).name = m.config.name) : n = m.config.name :=
  (wf.named n r found).symm.trans isLocal

theorem remote_of_found {m : Memberlist} (wf : TableWF m) {n : Bytes} {r : Ref} (found : m.nodeMap n = some r)
    (remote : (m.heap r).name ≠ m.config.name) : m.config.name ≠ n :=
  fun same => remote ((wf.named n r found).trans same.symm)

/-- What a move can do to the local record. -/
inductive LocalChange (m m' : Memberlist) : Op → Prop
  | same {op : Op} (kept : localEntry m' = localEntry m) (flag : m'.leave = m.leave) : LocalChange m m' op
  | add {a : Alive} {env : Env} {vsn : Versions} (absent : localEntry m = none) (joining : m.leave = false)
      (added : localEntry m' = some (newRecord a vsn)) (flag : m'.leave = m.leave) : LocalChange m m' (.alive a env)
  | refute {op : Op} {me : NodeState} {accusedInc : UInt32} (before : localEntry m = some me)
      (after : localEntry m' = some (refuted m me accusedInc)) (flag : m'.leave = m.leave) : LocalChange m m' op
  | dead {d : Dead} {env : Env} {me : NodeState} (before : localEntry m = some me) (live : me.deadOrLeft = false)
      (left : m.leave = true) (flag : m'.leave = m.leave) : LocalChange m m' (.dead d env)
  | reset {now : Time} {draws : Nat → Nat}
      (after : localEntry m' = (localEntry m).filter (fun s => !reaps m.config now s))
      (flag : m'.leave = m.leave) : LocalChange m m' (.reset now draws)
  | update {answer : Slice} {notify receipt : Option Nat} {env : Env} {me new : NodeState}
      (staying : m.leave = false) (before : localEntry m = some me) (after : localEntry m' = some new)
      (isAlive : new.state = .alive) (flag : m'.leave = m.leave) : LocalChange m m' (.update answer notify receipt env)
  | leave {receipt : Option Nat} {env : Env} {me : NodeState} (before : localEntry m = some me)
      (after : localEntry m' = some { me with state := .left, stateChange := env.now })
      (flag : m'.leave = true) : LocalChange m m' (.leave receipt env)
  | leaveDead {receipt : Option Nat} {env : Env} {me : NodeState} (staying : m.leave = false)
      (before : localEntry m = some me) (isDead : me.deadOrLeft = true) (kept : localEntry m' = localEntry m)
      (flag : m'.leave = true) : LocalChange m m' (.leave receipt env)

section
variable {m m' : Memberlist}

theorem local_eq {n : Bytes} {r : Ref} (found : m.nodeMap n = some r) (here : n = m.config.name) :
    localEntry m = some (m.heap r) := found_at found here

theorem local_at {n : Bytes} {s : NodeState} (changed : entry m' = Function.update (entry m) n (some s))
    (same : m'.config = m.config) (here : n = m.config.name) : localEntry m' = some s := by
  rw [localEntry,same]
  exact entry_at changed here

theorem local_other {n : Bytes} {s : NodeState} (changed : entry m' = Function.update (entry m) n (some s))
    (same : m'.config = m.config) (other : m.config.name ≠ n) : localEntry m' = localEntry m := by
  rw [localEntry,same]
  exact entry_other changed (Ne.symm other)

theorem local_move {op : Op} (wf : TableWF m) (move : Move m op m') : LocalChange m m' op := by
  cases move with
  | conflict => exact .same rfl rfl
  | @add a env vsn absent accepted allowed joining =>
    have changed := entry_addNode wf (newRecord a vsn) env.offset
    by_cases isLocal : a.node = m.config.name
    · have empty : localEntry m = none := entry_eq_none.mpr (isLocal ▸ absent)
      exact .add empty (joining isLocal) (local_at changed rfl isLocal) rfl
    · exact .same (local_other changed rfl (Ne.symm isLocal)) rfl
  | repeatAlive => exact .same rfl rfl
  | refuteAlive found isLocal =>
    have here := local_of_found wf found isLocal
    exact .refute (local_eq found here) (local_at (table_refuteAlive wf found none).2 rfl here) rfl
  | applyAlive found accepted remote =>
    exact .same (local_other (table_applyAlive wf _ found _ _ _ _).2 rfl (remote_of_found wf found remote)) rfl
  | confirm => exact .same rfl rfl
  | refuteSuspect found isLocal =>
    have here := local_of_found wf found isLocal
    exact .refute (local_eq found here) (local_at (table_refute wf found _).2 rfl here) rfl
  | applySuspect found remote =>
    exact .same (local_other (table_applySuspect wf _ found _).2 rfl (remote_of_found wf found remote)) rfl
  | repeatDead => exact .same rfl rfl
  | refuteDead found isLocal =>
    have here := local_of_found wf found isLocal
    exact .refute (local_eq found here) (local_at (table_refuteDead wf found _).2 rfl here) rfl
  | @applyDead d env r notify found leaving live =>
    by_cases isLocal : (m.heap r).name = m.config.name
    · exact .dead (local_eq found (local_of_found wf found isLocal)) live (leaving isLocal) rfl
    · exact .same (local_other (table_applyDead wf _ found _ _ _).2 rfl (remote_of_found wf found isLocal)) rfl
  | reset => exact .reset (entry_resetNodes _ _ wf m.config.name) rfl
  | updateStale => exact .same rfl rfl
  | @update _ metadata _ _ _ r _ found staying =>
    exact .update staying (entry_eq found)
      (local_at (table_update wf (ownAlive m r metadata) found _ _ _ _ _).2 rfl rfl) rfl rfl
  | @leave _ _ r found =>
    refine .leave (entry_eq found)
      ((local_at (table_leave wf (ownDead m r) found _ _ _ _).2 rfl rfl).trans ?_) rfl
    simp [deadRecord,ownDead]
  | leaveDead found staying isDead => exact .leaveDead staying (entry_eq found) isDead rfl rfl

end

/-- Once it has left, the local node is not live. -/
def Departed (m : Memberlist) : Prop := m.leave = true → ∀ me, localEntry m = some me → me.deadOrLeft = true

theorem departed_move {m m' : Memberlist} {op : Op} (wf : TableWF m) (departed : Departed m) (move : Move m op m') :
    Departed m' := by
  intro left me held
  cases local_move wf move with
  | same kept flag => exact departed (flag ▸ left) me (kept ▸ held)
  | add _ joining _ flag =>
    rw [flag,joining] at left
    cases left
  | @refute _ before inc held' after flag =>
    rw [after] at held
    cases held
    exact departed (flag ▸ left) before held'
  | @dead _ _ before held' live isLeft =>
    have isDead := departed isLeft before held'
    rw [live] at isDead
    cases isDead
  | reset after flag =>
    rw [after,Option.filter_eq_some_iff] at held
    exact departed (flag ▸ left) me held.1
  | update staying _ _ _ flag =>
    rw [flag,staying] at left
    cases left
  | leave _ after =>
    rw [after] at held
    cases held
    rfl
  | leaveDead _ before isDead kept =>
    rw [kept,before] at held
    cases held
    exact isDead

/-- A message of a peer, gossiped or merged from its push/pull state. -/
def Incoming : Op → Prop
  | .alive .. => True
  | .suspect .. => True
  | .dead .. => True
  | .merge .. => True
  | _ => False

/-- Before `setAlive` commits, messages can only leave a dead record of the local node. -/
structure Starting (conf : Config) (m : Memberlist) : Prop where
  config : m.config = conf
  up : m.shutdown = false
  staying : m.leave = false
  dead : ∀ s, localEntry m = some s → s.state = .dead

theorem starting_build (conf : Config) : Starting conf (buildMemberlist conf) where
  config := rfl
  up := rfl
  staying := rfl
  dead := by simp [localEntry,entry,buildMemberlist]

/-- What a message of a peer amounts to is a message of a peer. -/
theorem incoming_resolve {m : Memberlist} {op cause : Op} (incoming : Incoming op) (resolved : resolve m op = some cause) :
    Incoming cause := by
  rcases resolve_cases resolved with ⟨rfl,-⟩ | ⟨message,-⟩
  · exact incoming
  · cases cause <;> trivial

theorem starting_move {conf : Config} {m m' : Memberlist} {op : Op} (message : Incoming op) (wf : TableWF m)
    (start : Starting conf m) (move : Move m op m') : Starting conf m' where
  config := (config_move move).trans start.config
  up := (shutdown_move move).trans start.up
  staying := by
    rcases leave_move move with kept | ⟨-,receipt,env,rfl⟩
    · exact kept.trans start.staying
    · exact message.elim
  dead := by
    intro s held
    cases local_move wf move with
    | same kept => exact start.dead s (kept ▸ held)
    | add absent joining added =>
      rw [added] at held
      cases held
      rfl
    | @refute _ me _ before after =>
      rw [after] at held
      cases held
      exact start.dead me before
    | dead before live left => exact absurd left (by simp [start.staying])
    | _ => exact message.elim

theorem starting_run {conf : Config} {m : Memberlist} (wf : TableWF m) (start : Starting conf m) {ops : List Op}
    (incoming : ∀ op ∈ ops, Incoming op) : TableWF (run m ops) ∧ Starting conf (run m ops) :=
  run_keeps incoming_resolve starting_move wf start incoming

/-- What `setAlive` is for: the node knows itself alive at its own address. -/
def SelfAlive (m : Memberlist) (addr : Slice) (port : Int) : Prop :=
  ∃ s, localEntry m = some s ∧ s.state = .alive ∧ s.addr = addr ∧ s.port = UInt16.ofInt port

/-- `setAlive` where the node is not in its own table. -/
theorem aliveNodeLocked_first {m : Memberlist} {a : Alive} {vsn : Versions} {receipt : Option Nat} {env : Env}
    (staying : m.leave = false) (accepted : acceptableVsn a = some vsn) (named : a.node = m.config.name)
    (absent : m.nodeMap a.node = none) (allowed : m.config.ipAllowed a.addr = true) :
    aliveNodeLocked m a none true receipt env =
      applyAlive (addNode m (newRecord a vsn) env.offset) m.alloc a vsn none receipt env.now := by
  simp [aliveNodeLocked,staying,accepted,filtered,absent,allowed,aliveKnown_first named]

/-- The commit of `setAlive` on a state that incoming messages have reached. -/
theorem aliveNodeLocked_bootstrap {conf : Config} {m : Memberlist} (wf : TableWF m) (start : Starting conf m)
    {a : Alive} (named : a.node = conf.name) (own : a.vsn = conf.buildVsnArray)
    (allowed : conf.ipAllowed a.addr = true) (receipt : Option Nat) (env : Env) :
    (∃ s, localEntry (aliveNodeLocked m a none true receipt env) = some s ∧ s.state = .alive ∧
      s.addr = a.addr ∧ s.port = a.port) ↔
    ∀ s, localEntry m = some s → s.incarnation ≤ a.incarnation ∧
      (conflicts s a → reclaimable conf s env.since) := by
  obtain ⟨rfl,up,staying,dead⟩ := start
  have accepted := acceptableVsn_own m.config own
  have applied : ∀ {m₁ : Memberlist} {r : Ref}, TableWF m₁ → m₁.config = m.config → m₁.nodeMap a.node = some r →
      ∃ s, localEntry (applyAlive m₁ r a m.config.versions none receipt env.now) = some s ∧ s.state = .alive ∧
        s.addr = a.addr ∧ s.port = a.port := by
    intro m₁ r wf₁ same found
    have here : a.node = m₁.config.name := by rw [same]; exact named
    exact ⟨_,local_at (table_applyAlive wf₁ a found _ none receipt env.now).2 rfl here,rfl,rfl,rfl⟩
  cases found : m.nodeMap a.node with
  | none =>
    have empty : localEntry m = none := entry_eq_none.mpr (named ▸ found)
    rw [aliveNodeLocked_first staying accepted named found allowed]
    refine iff_of_true (applied (tableWF_addNode wf found _) rfl (addNode_nodeMap ..)) ?_
    simp [empty]
  | some r =>
    have isLocal : (m.heap r).name = m.config.name := (wf.named _ _ found).trans named
    have held : localEntry m = some (m.heap r) := local_eq found named
    -- A refused message leaves the record as it was, dead.
    have refused : ∀ {m' : Memberlist}, localEntry m' = localEntry m →
        ¬ ∃ s, localEntry m' = some s ∧ s.state = .alive ∧ s.addr = a.addr ∧ s.port = a.port := by
      rintro m' kept ⟨s,held',isAlive,-⟩
      rw [dead s (kept ▸ held')] at isAlive
      cases isAlive
    by_cases stuck : conflicts (m.heap r) a ∧ ¬ reclaimable m.config (m.heap r) env.since
    · refine iff_of_false (refused ?_) (fun fine => stuck.2 ((fine _ held).2 stuck.1))
      simp only [aliveNodeLocked,staying,accepted,filtered,found,allowed,stuck.1,stuck.2]
      by_cases asked : m.config.conflict = true
      · simp [asked]; rfl
      · simp [asked]
    · have result : aliveNodeLocked m a none true receipt env =
          if a.incarnation < (m.heap r).incarnation then m
          else applyAlive m r a m.config.versions none receipt env.now := by
        by_cases differs : conflicts (m.heap r) a
        · have old : reclaimable m.config (m.heap r) env.since := by
            by_contra young
            exact stuck ⟨differs,young⟩
          simp [aliveNodeLocked,staying,accepted,filtered,found,allowed,differs,old,aliveKnown,isLocal]
        · exact aliveNodeLocked_own none receipt env staying accepted found isLocal differs
      rw [result]
      by_cases stale : a.incarnation < (m.heap r).incarnation
      · rw [if_pos stale]
        exact iff_of_false (refused rfl) (fun fine => UInt32.not_lt.mpr (fine _ held).1 stale)
      · rw [if_neg stale]
        refine iff_of_true (applied wf rfl found) ?_
        intro s held'
        rw [held] at held'
        cases held'
        exact ⟨UInt32.not_lt.mp stale,fun differs => by_contra fun young => stuck ⟨differs,young⟩⟩

/-- The record has the given address, as `net.IP`, and port. -/
def At (s : NodeState) (addr : Slice) (port : Int) : Prop :=
  ipEqual (bytes s.addr) (bytes addr) = true ∧ s.port = UInt16.ofInt port

/-- After any messages before and between its two halves, `setAlive` makes the
    node alive at its own address exactly when the record that the messages have
    left, if any, is not newer than the next incarnation of the node when `setAlive`
    draws it, and has the node's address or may be reclaimed. -/
theorem setAlive_selfAlive_iff (conf : Config) (addr : Slice) (port : Int) (metadata : Slice)
    (before between : List Op) (incoming : ∀ op ∈ before ++ between, Incoming op)
    (allowed : conf.ipAllowed addr = true) (receipt : Option Nat) (env : Env) :
    let m₀ := run (buildMemberlist conf) before
    let drawn := setAliveMessage m₀ addr port metadata
    let m := run drawn.1 between
    ∃ m', setAliveLocked m drawn.2 receipt env = .ok m' ∧
      (SelfAlive m' addr port ↔
        ∀ s, entry m conf.name = some s → s.incarnation ≤ m₀.incarnation.value + 1 ∧
          (At s addr port ∨ reclaimable conf s env.since)) := by
  intro m₀ drawn m
  obtain ⟨wf₁,start₁⟩ := starting_run (tableWF_build conf) (starting_build conf)
    (fun op member => incoming op (List.mem_append_left _ member))
  have wfDrawn : TableWF drawn.1 := tableWF_of_same (m := m₀) ⟨rfl,rfl,rfl,rfl,rfl⟩ wf₁
  have startDrawn : Starting conf drawn.1 := ⟨start₁.config,start₁.up,start₁.staying,start₁.dead⟩
  obtain ⟨wf,start⟩ := starting_run wfDrawn startDrawn
    (fun op member => incoming op (List.mem_append_right _ member))
  have named : drawn.2.node = conf.name := congrArg Config.name start₁.config
  have own : drawn.2.vsn = conf.buildVsnArray := congrArg Config.buildVsnArray start₁.config
  refine ⟨aliveNodeLocked m drawn.2 none true receipt env,by simp [setAliveLocked,m,start.up],?_⟩
  have decided := aliveNodeLocked_bootstrap wf start named own allowed receipt env
  have same : entry m conf.name = localEntry m := by rw [localEntry,start.config]
  have address : ∀ s : NodeState, (conflicts s drawn.2 → reclaimable conf s env.since) ↔
      (At s addr port ∨ reclaimable conf s env.since) := by
    intro s
    have agrees : ¬ conflicts s drawn.2 ↔ At s addr port := by
      simp [conflicts,At,drawn,setAliveMessage]
    rw [← agrees]
    exact imp_iff_not_or
  simp only [same,← address]
  exact decided

section
/-- The node `a` at 10.0.0.1. -/
def restarting : Config := { name := [97] }

/-- A peer's message about that node, from before it restarted. -/
def oldAlive (addr : Bytes) (incarnation : UInt32) : Alive where
  incarnation := incarnation
  node := [97]
  addr := some addr
  port := 7946
  metadata := none
  vsn := restarting.buildVsnArray

/-- The state and the message of `setAlive` when it is about to commit. -/
def startWith (before between : List Op) : Memberlist × Alive :=
  let drawn := setAliveMessage (run (buildMemberlist restarting) before) (some [10,0,0,1]) 7946 none
  (run drawn.1 between,drawn.2)

/-- A restarted node stays dead in its own table, while `setAlive` returns no
    error: when it has heard of its former address before it starts, and when it
    refutes its former incarnation between the two halves of `setAlive`. -/
theorem setAlive_leaves_dead :
    (∃ m', setAliveLocked (startWith [.alive (oldAlive [10,0,0,2] 1) {}] []).1
        (startWith [.alive (oldAlive [10,0,0,2] 1) {}] []).2 none {} = .ok m' ∧
      (localEntry m').map (·.state) = some .dead ∧ ¬ SelfAlive m' (some [10,0,0,1]) 7946) ∧
    (∃ m', setAliveLocked (startWith [] [.alive (oldAlive [10,0,0,1] 7) {}]).1
        (startWith [] [.alive (oldAlive [10,0,0,1] 7) {}]).2 none {} = .ok m' ∧
      (localEntry m').map (·.state) = some .dead ∧ ¬ SelfAlive m' (some [10,0,0,1]) 7946) := by
  have notAlive : ∀ m' : Memberlist, (localEntry m').map (·.state) = some .dead →
      ¬ SelfAlive m' (some [10,0,0,1]) 7946 := by
    rintro m' dead ⟨s,held,isAlive,-⟩
    rw [held] at dead
    simp [isAlive] at dead
  refine ⟨⟨_,rfl,?_,notAlive _ ?_⟩,⟨_,rfl,?_,notAlive _ ?_⟩⟩ <;> decide

/-- The same node with a message about it before `setAlive`. -/
theorem setAlive_selfAlive_iff_restarting :
    restarting.ipAllowed (some [10,0,0,1]) = true ∧
    ∃ m', setAliveLocked (startWith [.alive (oldAlive [10,0,0,2] 1) {}] []).1
        (startWith [.alive (oldAlive [10,0,0,2] 1) {}] []).2 none {} = .ok m' ∧
      (SelfAlive m' (some [10,0,0,1]) 7946 ↔
        ∀ s, entry (startWith [.alive (oldAlive [10,0,0,2] 1) {}] []).1 [97] = some s →
          s.incarnation ≤ (run (buildMemberlist restarting) [.alive (oldAlive [10,0,0,2] 1) {}]).incarnation.value + 1 ∧
            (At s (some [10,0,0,1]) 7946 ∨ reclaimable restarting s 0)) :=
  ⟨rfl,setAlive_selfAlive_iff restarting (some [10,0,0,1]) 7946 none [.alive (oldAlive [10,0,0,2] 1) {}] []
    (by simp [Incoming]) rfl none {}⟩

end

/-! ## After `setAlive` -/

/-- An instance right after `setAlive` has committed on its empty table, with an own address that
    `CIDRsAllowed` allows. (With any other `setAlive` adds no record.) -/
def Started (m : Memberlist) : Prop :=
  ∃ (conf : Config) (addr : Slice) (port : Int) (answer metadata : Slice) (receipt : Option Nat) (env : Env),
    delegateMeta conf answer = .ok metadata ∧ conf.ipAllowed addr = true ∧
      setAliveLocked (setAliveMessage (buildMemberlist conf) addr port metadata).1
        (setAliveMessage (buildMemberlist conf) addr port metadata).2 receipt env = .ok m

/-- The state and the message of `setAlive` on an empty table. -/
def firstDraw (conf : Config) (addr : Slice) (port : Int) (metadata : Slice) : Memberlist × Alive :=
  setAliveMessage (buildMemberlist conf) addr port metadata

/-- `setAlive` adds the local record and applies its message to it. -/
theorem started_eq {m : Memberlist} (started : Started m) :
    ∃ (conf : Config) (addr : Slice) (port : Int) (metadata : Slice) (receipt : Option Nat) (offset : Nat) (now : Time),
      conf.ipAllowed addr = true ∧
      m = applyAlive (addNode (firstDraw conf addr port metadata).1
          (newRecord (firstDraw conf addr port metadata).2 conf.versions) offset) 1
        (firstDraw conf addr port metadata).2 conf.versions none receipt now := by
  obtain ⟨conf,addr,port,answer,metadata,receipt,env,-,allowed,committed⟩ := started
  refine ⟨conf,addr,port,metadata,receipt,env.offset,env.now,allowed,?_⟩
  cases committed
  exact aliveNodeLocked_first (m := (firstDraw conf addr port metadata).1)
    (a := (firstDraw conf addr port metadata).2) rfl (acceptableVsn_own conf rfl) rfl rfl allowed

theorem firstDraw_wf (conf : Config) (addr : Slice) (port : Int) (metadata : Slice) :
    TableWF (firstDraw conf addr port metadata).1 :=
  tableWF_of_same (m := buildMemberlist conf) ⟨rfl,rfl,rfl,rfl,rfl⟩ (tableWF_build conf)

/-- The record that `setAlive` stores. -/
def firstRecord (conf : Config) (addr : Slice) (port : Int) (metadata : Slice) (now : Time) : NodeState :=
  aliveRecord (newRecord (firstDraw conf addr port metadata).2 conf.versions)
    (firstDraw conf addr port metadata).2 conf.versions now

/-- Right after `setAlive` the table holds the local node alone. -/
theorem started_table {m : Memberlist} (started : Started m) :
    TableWF m ∧ ∃ addr port metadata now, m.config.ipAllowed addr = true ∧
      entry m = Function.update (fun _ => none) m.config.name (some (firstRecord m.config addr port metadata now)) := by
  obtain ⟨conf,addr,port,metadata,receipt,offset,now,allowed,rfl⟩ := started_eq started
  have added := tableWF_addNode (firstDraw_wf conf addr port metadata)
    (s := newRecord (firstDraw conf addr port metadata).2 conf.versions) rfl offset
  have applied := table_applyAlive added (firstDraw conf addr port metadata).2 (addNode_nodeMap ..) conf.versions none
    receipt now
  refine ⟨applied.1,addr,port,metadata,now,allowed,applied.2.trans ?_⟩
  rw [entry_addNode (firstDraw_wf conf addr port metadata),addNode_heap]
  exact Function.update_idem ..

/-- The local record in every state after `setAlive`. -/
structure LocalInv (m : Memberlist) : Prop where
  up : m.shutdown = false
  present : m.leave = false → ∃ s, localEntry m = some s ∧ s.state = .alive
  gone : m.leave = true → ∀ s, localEntry m = some s → s.state = .left
  unsuspected : m.nodeTimers m.config.name = none

theorem departed_of_locals {m : Memberlist} (locals : LocalInv m) : Departed m := by
  intro left me held
  simp [NodeState.deadOrLeft,locals.gone left me held]

theorem localInv_started {m : Memberlist} (started : Started m) : LocalInv m := by
  obtain ⟨-,addr,port,metadata,now,-,table⟩ := started_table started
  have held : localEntry m = some (firstRecord m.config addr port metadata now) := by
    rw [localEntry,table,Function.update_self]
  obtain ⟨conf,addr',port',metadata',receipt,offset,now',-,rfl⟩ := started_eq started
  refine ⟨rfl,fun _ => ⟨_,held,rfl⟩,fun left => ?_,?_⟩
  · cases left
  · exact Function.update_self ..

/-- No move arms a timer for the local node. -/
theorem unsuspected_move {m m' : Memberlist} {op : Op} (wf : TableWF m) (move : Move m op m')
    (free : m.nodeTimers m.config.name = none) : m'.nodeTimers m'.config.name = none := by
  have cleared : ∀ n, Function.update m.nodeTimers n none m.config.name = none := by
    intro n
    by_cases same : m.config.name = n
    · rw [same,Function.update_self]
    · rw [Function.update_of_ne same]; exact free
  cases move with
  | repeatAlive => exact cleared _
  | refuteAlive => exact cleared _
  | applyAlive => exact cleared _
  | @applySuspect s env r found remote =>
    have other := remote_of_found wf found remote
    exact (Function.update_of_ne other ..).trans free
  | repeatDead => exact cleared _
  | refuteDead => exact cleared _
  | applyDead => exact cleared _
  | update => exact cleared _
  | leave => exact cleared _
  | leaveDead => exact cleared _
  | _ => exact free

theorem localInv_move {m m' : Memberlist} {op : Op} (wf : TableWF m) (inv : LocalInv m) (move : Move m op m') :
    LocalInv m' := by
  have up := (shutdown_move move).trans inv.up
  have free := unsuspected_move wf move inv.unsuspected
  suffices (m'.leave = false → ∃ s, localEntry m' = some s ∧ s.state = .alive) ∧
      (m'.leave = true → ∀ s, localEntry m' = some s → s.state = .left) from ⟨up,this.1,this.2,free⟩
  cases local_move wf move with
  | same kept flag => rw [kept,flag]; exact ⟨inv.present,inv.gone⟩
  | add absent joining =>
    -- Before it leaves the node is in its table, and afterwards it is not added again.
    obtain ⟨s,held,-⟩ := inv.present joining
    rw [absent] at held
    cases held
  | @refute _ me accusedInc before after flag =>
    rw [after,flag]
    refine ⟨fun staying => ?_,fun left s held => ?_⟩
    · obtain ⟨s,held,isAlive⟩ := inv.present staying
      rw [before] at held
      cases held
      exact ⟨_,rfl,isAlive⟩
    · cases held
      exact inv.gone left me before
  | @dead d env me before live left =>
    have isLeft := inv.gone left me before
    simp [NodeState.deadOrLeft,isLeft] at live
  | @reset now draws after flag =>
    rw [after,flag]
    refine ⟨fun staying => ?_,fun left s held => ?_⟩
    · obtain ⟨s,held,isAlive⟩ := inv.present staying
      exact ⟨s,by simp [held,reaps,NodeState.deadOrLeft,isAlive],isAlive⟩
    · exact inv.gone left s (Option.eq_some_of_filter_eq_some held)
  | @update _ _ _ _ me new staying before after isAlive flag =>
    rw [after,flag,staying]
    exact ⟨fun _ => ⟨new,rfl,isAlive⟩,fun left => by cases left⟩
  | leave before after flag =>
    rw [after,flag]
    refine ⟨fun staying => absurd staying (by simp),fun _ s held => ?_⟩
    cases held
    rfl
  | @leaveDead _ _ me staying before isDead =>
    obtain ⟨s,held,isAlive⟩ := inv.present staying
    rw [before] at held
    cases held
    simp [NodeState.deadOrLeft,isAlive] at isDead

/-- Without `UpdateNodeContext` a move keeps what the node says of itself. -/
theorem content_move {m m' : Memberlist} {op : Op} (wf : TableWF m) (inv : LocalInv m) (move : Move m op m')
    (other : ∀ answer notify receipt env, op ≠ .update answer notify receipt env)
    {said : Slice × UInt16 × Slice × Versions} (before : ∀ s, localEntry m = some s → content s = said) :
    ∀ s, localEntry m' = some s → content s = said := by
  intro s held
  cases local_move wf move with
  | same kept => exact before s (kept ▸ held)
  | add absent joining =>
    obtain ⟨me,present,-⟩ := inv.present joining
    rw [absent] at present
    cases present
  | @refute _ me accusedInc known after =>
    rw [after] at held
    cases held
    exact before me known
  | @dead d env me known live left =>
    have isLeft := inv.gone left me known
    simp [NodeState.deadOrLeft,isLeft] at live
  | reset after =>
    rw [after] at held
    exact before s (Option.eq_some_of_filter_eq_some held)
  | update => exact absurd rfl (other _ _ _ _)
  | @leave _ _ me known after =>
    rw [after] at held
    cases held
    exact before me known
  | leaveDead _ _ _ kept => exact before s (kept ▸ held)

/-- Once it has left and was reaped, the local node stays out of its table. -/
theorem absent_move {m m' : Memberlist} {op : Op} (wf : TableWF m) (gone : m.leave = true ∧ localEntry m = none)
    (move : Move m op m') : m'.leave = true ∧ localEntry m' = none := by
  obtain ⟨left,absent⟩ := gone
  cases local_move wf move with
  | same kept flag => exact ⟨flag.trans left,kept.trans absent⟩
  | add _ joining => rw [left] at joining; cases joining
  | reset after flag => exact ⟨flag.trans left,by rw [after,absent]; rfl⟩
  | refute before => rw [absent] at before; cases before
  | dead before => rw [absent] at before; cases before
  | update _ before => rw [absent] at before; cases before
  | leave before => rw [absent] at before; cases before
  | leaveDead _ before => rw [absent] at before; cases before

theorem localInv_run {m : Memberlist} (started : Started m) (ops : List Op) :
    TableWF (run m ops) ∧ LocalInv (run m ops) :=
  run_invariant localInv_move (started_table started).1 (localInv_started started) ops

theorem absent_run {m : Memberlist} (wf : TableWF m) (left : m.leave = true) (absent : localEntry m = none)
    (ops : List Op) : localEntry (run m ops) = none :=
  (run_invariant absent_move wf ⟨left,absent⟩ ops).2.2

/-- `LeaveContext` commits wherever the instance is up and holds its own record. -/
theorem leave_apply {m : Memberlist} (wf : TableWF m) (inv : LocalInv m) (receipt : Option Nat) (env : Env) :
    (apply m (.leave receipt env)).leave = true := by
  by_cases left : m.leave = true
  · simp [apply,leaveContext,inv.up,left,Except.toOption]
  · obtain ⟨s,held,-⟩ := inv.present (by simpa using left)
    obtain ⟨r,found,-⟩ := entry_eq_some.mp held
    have isLocal := wf.named _ _ found
    simp only [apply,leaveContext,leaveLocked,inv.up,left,found,deadNodeLocked,isLocal,Except.toOption,Option.getD_some]
    by_cases isDead : (m.heap r).deadOrLeft = true
    · simp [isDead,clearTimer]
    · simp [isDead,applyDead]

theorem leave_apply_iff {m : Memberlist} (wf : TableWF m) (inv : LocalInv m) (op : Op) :
    (apply m op).leave = true ↔ m.leave = true ∨ ∃ receipt env, op = .leave receipt env := by
  constructor
  · intro left
    rcases apply_commits wf op with idle | ⟨cause,resolved,made⟩
    · rw [idle] at left; exact .inl left
    have traced := commits_invariant made
      (I := fun m' => m'.leave = true → m.leave = true ∨ ∃ receipt env, cause = .leave receipt env)
      (fun _ known move left => by
        rcases leave_move move with kept | ⟨-,leaving⟩
        · exact known (kept ▸ left)
        · exact .inr leaving) wf .inl
    rcases traced.2 left with before | ⟨receipt,env,rfl⟩
    · exact .inl before
    · rcases resolve_cases resolved with ⟨same,-⟩ | ⟨message,-⟩
      · exact .inr ⟨receipt,env,same.symm⟩
      · exact message.elim
  · rintro (left | ⟨receipt,env,rfl⟩)
    · have kept := apply_invariant (I := fun m => m.leave = true) (fun _ held move => by
        rcases leave_move move with kept | ⟨set,-⟩
        · exact kept.trans held
        · exact set) wf left op
      exact kept.2
    · exact leave_apply wf inv receipt env

/-- `LeaveContext` has committed exactly when a call of it is among the steps. -/
theorem leave_run_iff {m : Memberlist} (started : Started m) (ops : List Op) :
    (run m ops).leave = true ↔ ∃ receipt env, Op.leave receipt env ∈ ops := by
  induction ops using List.reverseRecOn with
  | nil =>
    obtain ⟨conf,addr,port,metadata,receipt,offset,now,-,rfl⟩ := started_eq started
    simp [run]
    rfl
  | append_singleton ops op ih =>
    obtain ⟨wf,inv⟩ := localInv_run started ops
    rw [run_snoc,leave_apply_iff wf inv,ih]
    constructor
    · rintro (⟨receipt,env,member⟩ | ⟨receipt,env,rfl⟩)
      · exact ⟨receipt,env,List.mem_append_left _ member⟩
      · exact ⟨receipt,env,by simp⟩
    · rintro ⟨receipt,env,member⟩
      rcases List.mem_append.mp member with member | member
      · exact .inl ⟨receipt,env,member⟩
      · exact .inr ⟨receipt,env,(List.mem_singleton.mp member).symm⟩

/-- The node `a` after a start that no message disturbs. -/
def restarted : Memberlist :=
  aliveNodeLocked (firstDraw restarting (some [10,0,0,1]) 7946 none).1
    (firstDraw restarting (some [10,0,0,1]) 7946 none).2 none true none {}

theorem restarted_started : Started restarted := ⟨restarting,some [10,0,0,1],7946,none,none,none,{},rfl,rfl,rfl⟩

theorem reachable_restarted : Reachable restarting restarted :=
  .commit (.draw .build (some [10,0,0,1]) 7946 none) rfl
    (show setAliveLocked (firstDraw restarting (some [10,0,0,1]) 7946 none).1
      (firstDraw restarting (some [10,0,0,1]) 7946 none).2 none {} = .ok restarted from rfl)

/-- The step is not a `resetNodes` that finds the local record dead or left for more
    than `GossipToTheDeadTime`. -/
def Spares (m : Memberlist) : Op → Prop
  | .reset now _ =>
    ∀ s ∈ localEntry m, s.deadOrLeft = true → sub now s.stateChange ≤ m.config.gossipToTheDeadTime
  | _ => True

/-- The table holds the local record, which is no longer live once the node has left. -/
structure Known (m : Memberlist) : Prop where
  present : ∃ s, localEntry m = some s
  gone : Departed m

theorem localNode_eq (m : Memberlist) : localNode m = (localEntry m).map (·.toNode) := by
  rw [localNode,localEntry,entry,Option.map_map]
  rfl

theorem known_move {m m' : Memberlist} {op : Op} (other : ¬ IsReset op) (wf : TableWF m)
    (known : Known m) (move : Move m op m') : Known m' := by
  obtain ⟨⟨me,held⟩,gone⟩ := known
  refine ⟨?_,departed_move wf gone move⟩
  cases local_move wf move with
  | same kept => exact ⟨me,kept.trans held⟩
  | add absent => rw [held] at absent; cases absent
  | refute _ after => exact ⟨_,after⟩
  | dead before live left => exact absurd (gone left _ before) (by simp [live])
  | reset => exact absurd trivial other
  | update _ _ after => exact ⟨_,after⟩
  | leave _ after => exact ⟨_,after⟩
  | leaveDead _ _ _ kept => exact ⟨me,kept.trans held⟩

/-- Only a `resetNodes` removes the local record, and not one that spares it. -/
theorem known_apply {m : Memberlist} (op : Op) (known : TableWF m ∧ Known m) (spared : Spares m op) :
    TableWF (apply m op) ∧ Known (apply m op) := by
  obtain ⟨wf,known⟩ := known
  cases op with
  | reset now draws =>
    obtain ⟨⟨me,held⟩,gone⟩ := known
    have kept : localEntry (resetNodes m now draws) = localEntry m := by
      have stays : reaps m.config now me = false := by
        simp only [reaps,Bool.and_eq_false_imp,decide_eq_false_iff_not,not_lt]
        exact spared me held
      have reset : localEntry (resetNodes m now draws) = _ := entry_resetNodes now draws wf m.config.name
      rw [reset,← localEntry,held,Option.filter_some,stays]
      rfl
    exact ⟨tableWF_apply wf _,⟨me,kept.trans held⟩,fun left s held' => gone left s (kept ▸ held')⟩
  | _ => exact apply_keeps (P := fun op => ¬ IsReset op) resolve_not_reset known_move wf known id

/-- The local record goes only where a `resetNodes` reaps it, and only after a leave. -/
theorem reaped_of_absent {m : Memberlist} (wf : TableWF m) (inv : LocalInv m) {op : Op} {s : NodeState}
    (held : localEntry m = some s) (absent : localEntry (apply m op) = none) :
    s.state = .left ∧ ∃ now draws, op = .reset now draws ∧ reaps m.config now s = true := by
  have unspared : ¬ Spares m op := by
    intro spared
    obtain ⟨-,⟨me,present⟩,-⟩ := known_apply op ⟨wf,⟨s,held⟩,departed_of_locals inv⟩ spared
    rw [absent] at present
    cases present
  cases op with
  | reset now draws =>
    have reaped : reaps m.config now s = true := by
      by_contra stays
      refine unspared (fun me held' isDead => ?_)
      cases held.symm.trans held'
      simpa [reaps,isDead] using stays
    refine ⟨?_,now,draws,rfl,reaped⟩
    cases left : m.leave with
    | true => exact inv.gone left s held
    | false =>
      obtain ⟨me,held',isAlive⟩ := inv.present left
      cases held.symm.trans held'
      simp [reaps,NodeState.deadOrLeft,isAlive] at reaped
  | _ => exact absurd trivial unspared

/-- No message rewrites the local record. In every run after a `setAlive` with an address that
    `CIDRsAllowed` allows, the record is alive and unsuspected until a `LeaveContext`, only an
    `UpdateNodeContext` changes what it says, and after the leave it is left, and there until
    a `resetNodes` reaps it, for good. -/
theorem local_record_protected {m₀ : Memberlist} (started : Started m₀) (ops : List Op) :
    let m := run m₀ ops
    ((¬ ∃ receipt env, Op.leave receipt env ∈ ops) →
      ∃ s, localEntry m = some s ∧ s.state = .alive ∧ m.nodeTimers m.config.name = none) ∧
    (∀ op, (∀ answer notify receipt env, op ≠ .update answer notify receipt env) →
      ∀ s s', localEntry m = some s → localEntry (apply m op) = some s' → content s' = content s) ∧
    ((∃ receipt env, Op.leave receipt env ∈ ops) →
      (∀ s, localEntry m = some s → s.state = .left) ∧
      (localEntry m = none → ∀ later, localEntry (run m later) = none)) ∧
    (∀ s op, localEntry m = some s → localEntry (apply m op) = none →
      s.state = .left ∧ ∃ now draws, op = .reset now draws ∧ reaps m.config now s = true) := by
  intro m
  obtain ⟨wf,inv⟩ := localInv_run started ops
  have flag := leave_run_iff started ops
  refine ⟨fun staying => ?_,fun op other s s' held held' => ?_,fun left => ⟨inv.gone (flag.mpr left),?_⟩,
    fun s op held absent => reaped_of_absent wf inv held absent⟩
  · obtain ⟨s,held,isAlive⟩ := inv.present (by simpa [← flag] using staying)
    exact ⟨s,held,isAlive,inv.unsuspected⟩
  · rcases apply_commits wf op with idle | ⟨cause,resolved,made⟩
    · rw [idle] at held'
      rw [held] at held'
      cases held'
      rfl
    have cause_other : ∀ answer notify receipt env, cause ≠ .update answer notify receipt env := by
      rintro answer notify receipt env rfl
      rcases resolve_cases resolved with ⟨rfl,-⟩ | ⟨message,-⟩
      · exact other _ _ _ _ rfl
      · exact message.elim
    have kept := commits_invariant made
      (I := fun m' => LocalInv m' ∧ ∀ s', localEntry m' = some s' → content s' = content s)
      (fun wf' held move => ⟨localInv_move wf' held.1 move,content_move wf' held.1 move cause_other held.2⟩) wf
      ⟨inv,fun s' held' => by rw [held] at held'; cases held'; rfl⟩
    exact kept.2.2 s' held'
  · exact fun absent later => absent_run wf (flag.mpr left) absent later

theorem local_record_protected_restarted :
    Started restarted ∧
      let m := run restarted [.alive (oldAlive [10,0,0,2] 9) {},.dead ⟨9,[97],[98]⟩ {}]
      ∃ s, localEntry m = some s ∧ s.state = .alive ∧ m.nodeTimers m.config.name = none :=
  ⟨restarted_started,
    (local_record_protected restarted_started
      [.alive (oldAlive [10,0,0,2] 9) {},.dead ⟨9,[97],[98]⟩ {}]).1 (by simp)⟩

/-! ## `LocalNode`

It dereferences the local record without a check. `resetNodes` reaps that record like
any other, so that a node which has left loses it some time later.
-/

/-- `setAlive` leaves a local record in the table, whatever was there before. -/
theorem known_boot {m : Memberlist} {a : Alive} (wf : TableWF m) (staying : m.leave = false)
    (named : a.node = m.config.name) (own : a.vsn = m.config.buildVsnArray) (allowed : m.config.ipAllowed a.addr = true)
    (receipt : Option Nat) (env : Env) : Known (aliveNodeLocked m a none true receipt env) := by
  have boot := aliveNodeLocked_boot named receipt env
  generalize made : aliveNodeLocked m a none true receipt env = m' at boot ⊢
  have config := config_boot boot
  have flag : m'.leave = m.leave := by cases boot <;> rfl
  refine ⟨?_,fun left => absurd (flag.symm.trans left) (by simp [staying])⟩
  rw [localEntry,config,← named]
  cases found : m.nodeMap a.node with
  | none =>
    rw [← made,aliveNodeLocked_first staying (acceptableVsn_own _ own) named found allowed,
      (table_applyAlive (tableWF_addNode wf found env.offset) a (addNode_nodeMap ..) _ _ _ _).2,Function.update_self]
    exact ⟨_,rfl⟩
  | some r =>
    have held : ∃ s, entry m a.node = some s := ⟨_,entry_eq_some.mpr ⟨r,found,rfl⟩⟩
    cases boot with
    | idle => exact held
    | conflict => exact held
    | apply => rw [(table_applyAlive wf a ‹_› _ _ _ _).2,Function.update_self]; exact ⟨_,rfl⟩
    | first absent => rw [absent] at found; cases found

/-- Wherever `setAlive` commits with an address that the node may have, `LocalNode`
    finds its record from then on, in every run in which no `resetNodes` comes upon
    that record dead or left for more than `GossipToTheDeadTime`. -/
theorem localNode_safe {conf : Config} {drawnAt m m₀ : Memberlist} (drew : Reachable conf drawnAt)
    (reached : Reachable conf m) (staying : m.leave = false) (addr : Slice) (port : Int) (metadata : Slice)
    (allowed : conf.ipAllowed addr = true) {receipt : Option Nat} {env : Env}
    (committed : setAliveLocked m (setAliveMessage drawnAt addr port metadata).2 receipt env = .ok m₀) {ops : List Op}
    (spared : Machines.Along apply Spares m₀ ops) : ∃ node, localNode (run m₀ ops) = some node := by
  obtain ⟨-,config⟩ := tableWF_reachable drew
  obtain ⟨wf,rfl⟩ := tableWF_reachable reached
  have named : (setAliveMessage drawnAt addr port metadata).2.node = m.config.name := congrArg Config.name config
  have own : (setAliveMessage drawnAt addr port metadata).2.vsn = m.config.buildVsnArray :=
    congrArg Config.buildVsnArray config
  have start : TableWF m₀ ∧ Known m₀ := by
    refine ⟨(tableWF_reachable (.commit reached named committed)).1,?_⟩
    obtain ⟨rfl,-⟩ := setAliveLocked_boot named committed
    exact known_boot wf staying named own allowed receipt env
  have known : TableWF (run m₀ ops) ∧ Known (run m₀ ops) :=
    Machines.along_keeps (I := fun m => TableWF m ∧ Known m) (fun _ op => known_apply op) start spared
  obtain ⟨s,held⟩ := known.2.present
  exact ⟨s.toNode,by rw [localNode_eq,held]; rfl⟩

/-- The node leaves at second 1, and its table wraps around later. -/
def leaving (later : Time) : List Op := [.leave none { now := 1000000000 },.reset later (fun _ => 0)]

/-- The same node, which allows 192.168.0.0/16 only. -/
def secluded : Config := { restarting with cidrsAllowed := some [⟨[192,168,0,0],[255,255,0,0]⟩] }

/-- 31 seconds after it has left, the node is reaped, and `LocalNode` dereferences nothing.
    So it does right after a `setAlive` whose address the node does not allow. -/
theorem localNode_panics :
    (setAliveLocked (firstDraw restarting (some [10,0,0,1]) 7946 none).1
        (firstDraw restarting (some [10,0,0,1]) 7946 none).2 none {} = .ok restarted ∧
      (∃ node, localNode (run restarted [.leave none { now := 1000000000 }]) = some node) ∧
      localNode (run restarted (leaving 32000000000)) = none) ∧
    ∃ m₀, setAliveLocked (firstDraw secluded (some [10,0,0,1]) 7946 none).1
        (firstDraw secluded (some [10,0,0,1]) 7946 none).2 none {} = .ok m₀ ∧ localNode m₀ = none := by
  refine ⟨⟨rfl,⟨_,rfl⟩,?_⟩,_,rfl,?_⟩
  · decide
  · decide

/-- 30 seconds after it has left, the record is still there. -/
theorem localNode_safe_leaving : ∃ node, localNode (run restarted (leaving 31000000000)) = some node := by
  have spared : Machines.Along apply Spares restarted (leaving 31000000000) := by
    refine ⟨trivial,?_,trivial⟩
    rintro s held -
    cases held
    decide
  have committed : setAliveLocked (setAliveMessage (buildMemberlist restarting) (some [10,0,0,1]) 7946 none).1
      (setAliveMessage (buildMemberlist restarting) (some [10,0,0,1]) 7946 none).2 none {} = .ok restarted := rfl
  have drawn : Reachable restarting (setAliveMessage (buildMemberlist restarting) (some [10,0,0,1]) 7946 none).1 :=
    .draw .build (some [10,0,0,1]) 7946 none
  exact localNode_safe .build drawn rfl (some [10,0,0,1]) 7946 none rfl committed spared

/-- What a refutation is for: the record at `r` and the alive message that is queued
    for it are newer than the accusation and than the record was. -/
structure Beats (m : Memberlist) (r : Ref) (accusedInc : UInt32) : Prop where
  accusation : accusedInc.toNat < ((refute m r accusedInc).heap r).incarnation.toNat
  previous : (m.heap r).incarnation.toNat < ((refute m r accusedInc).heap r).incarnation.toNat
  queued : ∃ name a, (refute m r accusedInc).broadcasts.getLast? = some ⟨name,.alive a,none⟩ ∧
    a.node = (m.heap r).name ∧ a.incarnation = ((refute m r accusedInc).heap r).incarnation
  counter : (refute m r accusedInc).incarnation.value = ((refute m r accusedInc).heap r).incarnation

/-- A refutation beats every accusation but the last incarnation, as long as the
    counter is not at the last incarnation itself. -/
theorem refute_beats_iff (m : Memberlist) (r : Ref) (accusedInc : UInt32)
    (stored : (m.heap r).incarnation ≤ m.incarnation.value) :
    Beats m r accusedInc ↔
      accusedInc.toNat < 2 ^ 32 - 1 ∧ (m.incarnation.value.toNat < 2 ^ 32 - 1 ∨ (m.heap r).incarnation ≤ accusedInc) := by
  have drawn : ((refute m r accusedInc).heap r).incarnation = (m.incarnation.beat accusedInc).value := by
    simp [refute]
  have value := toNat_beat m.incarnation accusedInc
  have most := m.incarnation.value.toNat_lt
  have accusedMost := accusedInc.toNat_lt
  rw [UInt32.le_iff_toNat_le] at stored ⊢
  constructor
  · rintro ⟨accusation,previous,-,-⟩
    rw [drawn,value] at accusation previous
    split_ifs at accusation previous <;> omega
  · rintro ⟨room,below⟩
    have above : accusedInc.toNat < (m.incarnation.beat accusedInc).value.toNat ∧
        (m.heap r).incarnation.toNat < (m.incarnation.beat accusedInc).value.toNat := by
      rw [value]
      split_ifs <;> omega
    have last : (refute m r accusedInc).broadcasts.getLast? = _ := List.getLast?_concat
    exact ⟨drawn ▸ above.1,drawn ▸ above.2,⟨_,_,last,rfl,drawn.symm⟩,drawn.symm⟩

/-- The node `a` with a counter and the incarnation of its record, at 1. -/
def counting (counter stored : UInt32) : Memberlist :=
  { restarted with
    incarnation := ⟨counter,0⟩
    heap := Function.update restarted.heap 1 { restarted.heap 1 with incarnation := stored } }

/-- Nothing beats the last incarnation, and the counter wraps after it. -/
theorem refute_loses :
    ((counting 1 1).heap 1).incarnation ≤ (counting 1 1).incarnation.value ∧ ¬ Beats (counting 1 1) 1 4294967295 ∧
      ((counting 4294967295 4294967295).heap 1).incarnation ≤ (counting 4294967295 4294967295).incarnation.value ∧
      ¬ Beats (counting 4294967295 4294967295) 1 5 := by
  refine ⟨by decide,fun beats => ?_,by decide,fun beats => ?_⟩
  · exact absurd beats.accusation (by decide)
  · exact absurd beats.previous (by decide)

theorem refute_beats_iff_accused : Beats (counting 1 1) 1 7 :=
  (refute_beats_iff (counting 1 1) 1 7 (by decide)).mpr ⟨by decide,.inl (by decide)⟩

end Mori.LocalNode
