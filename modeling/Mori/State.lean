import Mori.Protocol
import Mathlib.Logic.Function.Basic

/-!
The state of an instance and the handlers of `state.go` that change it. Node
records and suspicion timers live in arenas and the tables hold pointers into
them, as in the source, where `nodes` and `nodeMap` share their records. Each
function is one nodeLock critical section; what it reads from outside (clock,
random source, delegate) is an argument.
-/
namespace Mori.State
open Mori.Net Mori.Protocol

/-- A node of the cluster. -/
structure Node where
  name : Bytes
  addr : Slice
  port : UInt16
  metadata : Slice
  state : NodeStateType
  vsn : Versions := {}
deriving DecidableEq,Repr

/-- The view of another node: `stateChange` is when the state last changed. -/
structure NodeState extends Node where
  incarnation : UInt32 := 0
  stateChange : Time := 0
deriving DecidableEq,Repr

def NodeState.deadOrLeft (n : NodeState) : Bool := n.state == .dead || n.state == .left

theorem deadOrLeft_iff (n : NodeState) : n.deadOrLeft = true ↔ n.state = .dead ∨ n.state = .left := by
  simp [NodeState.deadOrLeft]

theorem deadOrLeft_false_iff (n : NodeState) : n.deadOrLeft = false ↔ n.state = .alive ∨ n.state = .suspect := by
  unfold NodeState.deadOrLeft
  cases n.state <;> decide

/-- A pointer to a node record; 0 is nil. -/
abbrev Ref := Nat

/-- An `atomic.Uint32`. No code reads `adds`: it counts the calls of `Add`. -/
structure Counter where
  value : UInt32 := 0
  adds : Nat := 0
deriving DecidableEq,Repr

def Counter.add (c : Counter) (delta : UInt32) : Counter := ⟨c.value + delta,c.adds + 1⟩

/-- What a suspicion timer holds. `node` and `changeTime` are what its expiry
    callback captured. Its durations are left out: a callback may run at any time. -/
structure Suspicion where
  node : Bytes
  changeTime : Time
  k : Int
  n : Int := 0
  confirmations : List Bytes
deriving DecidableEq,Repr

/-- The conversion of an `int` to `int32`. -/
def int32 (k : Int) : Int := Int.bmod k (2 ^ 32)

def newSuspicion (node : Bytes) (changeTime : Time) (from_ : Bytes) (k : Int) : Suspicion where
  node := node
  changeTime := changeTime
  k := int32 k
  confirmations := [from_]

/-- Registers a confirmation; true where it was new information. -/
def Suspicion.confirm (s : Suspicion) (from_ : Bytes) : Suspicion × Bool :=
  if s.k ≤ s.n then (s,false)
  else if from_ ∈ s.confirmations then (s,false)
  else ({ s with n := s.n + 1, confirmations := from_ :: s.confirmations },true)

@[simp] theorem confirm_node (s : Suspicion) (from_ : Bytes) : (s.confirm from_).1.node = s.node := by
  unfold Suspicion.confirm; split_ifs <;> rfl
@[simp] theorem confirm_changeTime (s : Suspicion) (from_ : Bytes) :
    (s.confirm from_).1.changeTime = s.changeTime := by
  unfold Suspicion.confirm; split_ifs <;> rfl

/-- The health score of the local node. -/
structure Awareness where
  max : Int
  score : Int := 0
deriving DecidableEq,Repr

def Awareness.applyDelta (a : Awareness) (delta : Int) : Awareness :=
  let score := a.score + delta
  { a with score := if score < 0 then 0 else if a.max - 1 < score then a.max - 1 else score }

/-- A queued broadcast of a membership message; `notify` is the channel told
    when its transmission is finished. -/
structure Broadcast where
  name : Bytes
  msg : Message
  notify : Option Nat := none
deriving DecidableEq,Repr

inductive EventKind where
  | join
  | update
  | leave
  | conflict
deriving DecidableEq,Repr

/-- A committed membership event; `receipt` is what a lifecycle call waits on. -/
structure QueuedEvent where
  kind : EventKind
  node : Node
  other : Option Node := none
  seq : Nat
  receipt : Option Nat := none
deriving DecidableEq,Repr

/-- An instance. `heap` holds the node records and `suspicions` the timers, of
    which `alloc` and `armed` are the next free pointers. `events` is every event
    committed so far. No code reads `stateChanges`: it is the clock readings that
    were stored as the time of a state change, in order. -/
structure Memberlist where
  config : Config
  incarnation : Counter := {}
  numNodes : UInt32 := 0
  shutdown : Bool := false
  leave : Bool := false
  leaveReceipt : Option Nat := none
  leaveBroadcast : Nat := 0
  heap : Ref → NodeState := fun _ => ⟨⟨[],none,0,none,.dead,{}⟩,0,0⟩
  alloc : Ref := 1
  nodes : List Ref := []
  nodeMap : Bytes → Option Ref := fun _ => none
  suspicions : Nat → Suspicion := fun _ => ⟨[],0,0,0,[]⟩
  armed : Nat := 0
  nodeTimers : Bytes → Option Nat := fun _ => none
  awareness : Awareness
  broadcasts : List Broadcast := []
  events : List QueuedEvent := []
  stateChanges : List Time := []

/-- What `buildMemberlist` assembles. -/
def buildMemberlist (conf : Config) : Memberlist where
  config := conf
  awareness := ⟨conf.awarenessMaxMultiplier,0⟩

/-- What one call reads from outside: the clock behind `time.Since` and behind
    `time.Now`, the draw behind `randomOffset`, and whether the alive delegate
    accepts a node. -/
structure Env where
  since : Time := 0
  now : Time := 0
  offset : Nat := 0
  notifyAlive : Node → Bool := fun _ => true

/-- The record under a name. -/
def entry (m : Memberlist) (name : Bytes) : Option NodeState := (m.nodeMap name).map m.heap

/-- Overwrites the record a pointer leads to. -/
def write (m : Memberlist) (r : Ref) (s : NodeState) : Memberlist :=
  { m with heap := Function.update m.heap r s }

/-- `delete(m.nodeTimers, name)`. -/
def clearTimer (m : Memberlist) (name : Bytes) : Memberlist :=
  { m with nodeTimers := Function.update m.nodeTimers name none }

/-- The queue with one more message; one queued under the same non-empty name is
    invalidated. -/
def encodeBroadcastNotify (queue : List Broadcast) (name : Bytes) (msg : Message) (notify : Option Nat) :
    List Broadcast :=
  (if name = [] then queue else queue.filter (fun b => b.name ≠ name)) ++ [⟨name,msg,notify⟩]

theorem encodeBroadcastNotify_nil (name : Bytes) (msg : Message) (notify : Option Nat) :
    encodeBroadcastNotify [] name msg notify = [⟨name,msg,notify⟩] := by
  unfold encodeBroadcastNotify
  split_ifs <;> rfl

/-- The event as it is committed next. -/
def nextEvent (m : Memberlist) (kind : EventKind) (node : Node) (other : Option Node)
    (receipt : Option Nat) : QueuedEvent :=
  ⟨kind,node,other,m.events.length + 1,receipt⟩

/-- `enqueueEventLocked`, for the events that a critical section emits. -/
def enqueueEventLocked (m : Memberlist) (emitted : List QueuedEvent) : Memberlist :=
  { m with events := m.events ++ emitted }

/-- Exchanges the elements at two indices. -/
def swap (l : List Ref) (i j : Nat) : List Ref := (l.set i (l.getD j 0)).set j (l.getD i 0)

/-- A random offset below `n`, or 0 when there is none. -/
def randomOffset (draw n : Nat) : Nat := if n = 0 then 0 else draw % n

/-- The counter after `refute` has drawn an incarnation that beats the accusation. -/
def Counter.beat (c : Counter) (accusedInc : UInt32) : Counter :=
  let c := c.add 1
  if c.value ≤ accusedInc then c.add (accusedInc - c.value + 1) else c

/-- The next value of the counter where it is above the accusation, and the one
    after the accusation where it is not; both wrap around. -/
theorem toNat_beat (c : Counter) (accusedInc : UInt32) : (c.beat accusedInc).value.toNat =
    if (c.value.toNat + 1) % 2 ^ 32 ≤ accusedInc.toNat then (accusedInc.toNat + 1) % 2 ^ 32
    else (c.value.toNat + 1) % 2 ^ 32 := by
  have one : (1 : UInt32).toNat = 1 := rfl
  have next : (c.add 1).value.toNat = (c.value.toNat + 1) % 2 ^ 32 := by
    rw [Counter.add,UInt32.toNat_add,one]
  rw [← next,Counter.beat]
  by_cases low : (c.add 1).value ≤ accusedInc
  · have skipped : ((c.add 1).add (accusedInc - (c.add 1).value + 1)).value.toNat = (accusedInc.toNat + 1) % 2 ^ 32 := by
      rw [Counter.add,UInt32.toNat_add,UInt32.toNat_add,UInt32.toNat_sub_of_le _ _ low,one]
      rw [UInt32.le_iff_toNat_le] at low
      omega
    rw [if_pos low,if_pos (UInt32.le_iff_toNat_le.mp low),skipped]
  · rw [if_neg low,if_neg (fun wrong => low (UInt32.le_iff_toNat_le.mpr wrong))]

/-- Draws a new incarnation for the local record and queues an alive message
    with its data, under the text of its address. -/
def refute (m : Memberlist) (r : Ref) (accusedInc : UInt32) : Memberlist :=
  let me := m.heap r
  let counter := m.incarnation.beat accusedInc
  { m with
    incarnation := counter
    heap := Function.update m.heap r { me with incarnation := counter.value }
    awareness := m.awareness.applyDelta 1
    broadcasts := encodeBroadcastNotify m.broadcasts (ipString (bytes me.addr))
      (.alive ⟨counter.value,me.name,me.addr,me.port,me.metadata,some me.vsn.toList⟩) none }

/-- The record stored for a node not seen before; it counts as dead until the
    message is applied. -/
def newRecord (a : Alive) (vsn : Versions) : NodeState where
  name := a.node
  addr := a.addr
  port := a.port
  metadata := a.metadata
  state := .dead
  vsn := vsn

/-- Adds a record at the end of the node list and swaps it to a random offset. -/
def addNode (m : Memberlist) (s : NodeState) (draw : Nat) : Memberlist :=
  { m with
    heap := Function.update m.heap m.alloc s
    alloc := m.alloc + 1
    nodeMap := Function.update m.nodeMap s.name (some m.alloc)
    nodes := swap (m.nodes ++ [m.alloc]) (randomOffset draw m.nodes.length) m.nodes.length
    numNodes := m.numNodes + 1 }

/-- The record after an alive message was applied. A message without versions
    keeps the stored ones. -/
def aliveRecord (state : NodeState) (a : Alive) (vsn : Versions) (now : Time) : NodeState :=
  { state with
    addr := a.addr
    port := a.port
    metadata := a.metadata
    state := .alive
    vsn := if (bytes a.vsn).length = 0 then state.vsn else vsn
    incarnation := a.incarnation
    stateChange := if state.state = .alive then state.stateChange else now }

/-- The event an alive message emits, given the record before and after it. -/
def aliveEvent (m : Memberlist) (old new : NodeState) (receipt : Option Nat) : List QueuedEvent :=
  if m.config.events = false then []
  else if old.state = .dead ∨ old.state = .left then [nextEvent m .join new.toNode none receipt]
  else if bytesEqual old.metadata new.metadata then []
  else [nextEvent m .update new.toNode none receipt]

/-- Applies an alive message to the record at `r`. -/
def applyAlive (m : Memberlist) (r : Ref) (a : Alive) (vsn : Versions) (notify receipt : Option Nat)
    (now : Time) : Memberlist :=
  let state := m.heap r
  let new := aliveRecord state a vsn now
  { m with
    nodeTimers := Function.update m.nodeTimers a.node none
    broadcasts := encodeBroadcastNotify m.broadcasts a.node (.alive a) notify
    heap := Function.update m.heap r new
    stateChanges := m.stateChanges ++ (if state.state = .alive then [] else [now])
    events := m.events ++ aliveEvent m state new receipt }

/-- Refutes an alive message about the local node, whose record is at `r`. -/
def refuteAlive (m : Memberlist) (r : Ref) (a : Alive) (receipt : Option Nat) : Memberlist :=
  let state := m.heap r
  let m := refute (clearTimer m a.node) r a.incarnation
  enqueueEventLocked m (aliveEvent m state (m.heap r) receipt)

/-- Whether an alive message says of the local node what is known already. -/
def sameAlive (state : NodeState) (a : Alive) (vsn : Versions) : Prop :=
  a.incarnation = state.incarnation ∧ bytesEqual a.metadata state.metadata ∧
    (bytes a.vsn).length ≠ 0 ∧ vsn = state.vsn
instance (state : NodeState) (a : Alive) (vsn : Versions) : Decidable (sameAlive state a vsn) := by
  unfold sameAlive; infer_instance

/-- `aliveNodeLocked` from the incarnation checks on, for the record at `r`. -/
def aliveKnown (m : Memberlist) (r : Ref) (a : Alive) (vsn : Versions) (updatesNode : Bool)
    (notify : Option Nat) (bootstrap : Bool) (receipt : Option Nat) (now : Time) : Memberlist :=
  let state := m.heap r
  if a.incarnation ≤ state.incarnation ∧ state.name ≠ m.config.name ∧ updatesNode = false then m
  else if a.incarnation < state.incarnation ∧ state.name = m.config.name then m
  else if bootstrap = false ∧ state.name = m.config.name then
    if sameAlive state a vsn then clearTimer m a.node
    else refuteAlive m r a receipt
  else applyAlive m r a vsn notify receipt now

/-- The address or the port of a message is not the stored one. -/
def conflicts (state : NodeState) (a : Alive) : Prop :=
  ipEqual (bytes state.addr) (bytes a.addr) = false ∨ state.port ≠ a.port
instance (state : NodeState) (a : Alive) : Decidable (conflicts state a) := by
  unfold conflicts; infer_instance

/-- The record's node left, or died longer ago than the time after which its
    name may be reclaimed. -/
def reclaimable (conf : Config) (state : NodeState) (since : Time) : Prop :=
  state.state = .left ∨
    (state.state = .dead ∧ 0 < conf.deadNodeReclaimTime ∧ conf.deadNodeReclaimTime < sub since state.stateChange)
instance (conf : Config) (state : NodeState) (since : Time) : Decidable (reclaimable conf state since) := by
  unfold reclaimable; infer_instance

/-- The version vector is absent, or it is complete and satisfies
    0 < pmin <= pmax. -/
def acceptableVsn (a : Alive) : Option Versions :=
  match parseVsn a.vsn with
  | none => none
  | some vsn =>
    if (bytes a.vsn).length ≠ 0 ∧ (vsn.pMin = 0 ∨ vsn.pMax = 0 ∨ vsn.pMax < vsn.pMin) then none else some vsn

/-- The alive delegate filters remote messages, and refuses those without versions. -/
def filtered (conf : Config) (a : Alive) (vsn : Versions) (bootstrap : Bool) (env : Env) : Prop :=
  conf.alive = true ∧ bootstrap = false ∧
    ((bytes a.vsn).length = 0 ∨
      env.notifyAlive ⟨a.node,a.addr,a.port,a.metadata,.alive,vsn⟩ = false)
instance (conf : Config) (a : Alive) (vsn : Versions) (bootstrap : Bool) (env : Env) :
    Decidable (filtered conf a vsn bootstrap env) := by
  unfold filtered; infer_instance

def aliveNodeLocked (m : Memberlist) (a : Alive) (notify : Option Nat) (bootstrap : Bool)
    (receipt : Option Nat) (env : Env) : Memberlist :=
  if m.leave = true ∧ a.node = m.config.name then m
  else match acceptableVsn a with
  | none => m
  | some vsn =>
    if filtered m.config a vsn bootstrap env then m
    else match m.nodeMap a.node with
    | none =>
      if m.config.ipAllowed a.addr = false then m
      else aliveKnown (addNode m (newRecord a vsn) env.offset) m.alloc a vsn false notify bootstrap receipt env.now
    | some r =>
      if conflicts (m.heap r) a then
        if m.config.ipAllowed a.addr = false then m
        else if reclaimable m.config (m.heap r) env.since then
          aliveKnown m r a vsn true notify bootstrap receipt env.now
        else if m.config.conflict then
          enqueueEventLocked m [nextEvent m .conflict (m.heap r).toNode
            (some ⟨a.node,a.addr,a.port,a.metadata,.alive,{}⟩) none]
        else m
      else aliveKnown m r a vsn false notify bootstrap receipt env.now

def aliveNode (m : Memberlist) (a : Alive) (bootstrap : Bool) (env : Env) : Memberlist :=
  if m.shutdown then m else aliveNodeLocked m a none bootstrap none env

def deadRecord (state : NodeState) (d : Dead) (now : Time) : NodeState :=
  { state with
    state := if d.node = d.from_ then .left else .dead
    incarnation := d.incarnation
    stateChange := now }

theorem deadRecord_dead (s : NodeState) (d : Dead) (now : Time) : (deadRecord s d now).deadOrLeft = true := by
  simp only [deadRecord,NodeState.deadOrLeft]
  split_ifs <;> rfl

/-- Marks the record at `r` dead, or left when the node itself says so. -/
def applyDead (m : Memberlist) (r : Ref) (d : Dead) (notify receipt : Option Nat) (now : Time) : Memberlist :=
  let new := deadRecord (m.heap r) d now
  { m with
    nodeTimers := Function.update m.nodeTimers d.node none
    broadcasts := encodeBroadcastNotify m.broadcasts d.node (.dead d) notify
    heap := Function.update m.heap r new
    stateChanges := m.stateChanges ++ [now]
    events := m.events ++ (if m.config.events then [nextEvent m .leave new.toNode none receipt] else []) }

def deadNodeLocked (m : Memberlist) (d : Dead) (receipt : Option Nat) (now : Time) : Memberlist :=
  match m.nodeMap d.node with
  | none => m
  | some r =>
    if d.incarnation < (m.heap r).incarnation then m
    else if (m.heap r).deadOrLeft then clearTimer m d.node
    else if (m.heap r).name = m.config.name then
      if m.leave = false then refute (clearTimer m d.node) r d.incarnation
      else applyDead m r d (some m.leaveBroadcast) receipt now
    else applyDead m r d none receipt now

def deadNode (m : Memberlist) (d : Dead) (env : Env) : Memberlist :=
  if m.shutdown then m else deadNodeLocked m d none env.now

def suspectRecord (state : NodeState) (s : Suspect) (now : Time) : NodeState :=
  { state with state := .suspect, incarnation := s.incarnation, stateChange := now }

/-- The number of confirmations a new timer expects. -/
def expectedConfirmations (m : Memberlist) : Int :=
  let k := m.config.suspicionMult - 2
  if (m.numNodes.toNat : Int) - 2 < k then 0 else k

/-- Marks the record at `r` suspect and arms a timer for it. -/
def applySuspect (m : Memberlist) (r : Ref) (s : Suspect) (now : Time) : Memberlist :=
  { m with
    broadcasts := encodeBroadcastNotify m.broadcasts s.node (.suspect s) none
    heap := Function.update m.heap r (suspectRecord (m.heap r) s now)
    stateChanges := m.stateChanges ++ [now]
    suspicions := Function.update m.suspicions m.armed
      (newSuspicion s.node now s.from_ (expectedConfirmations m))
    armed := m.armed + 1
    nodeTimers := Function.update m.nodeTimers s.node (some m.armed) }

/-- A confirmation of a running suspicion; new information is gossiped on. -/
def confirmTimer (m : Memberlist) (t : Nat) (s : Suspect) : Memberlist :=
  let confirmed := (m.suspicions t).confirm s.from_
  { m with
    suspicions := Function.update m.suspicions t confirmed.1
    broadcasts := if confirmed.2 then encodeBroadcastNotify m.broadcasts s.node (.suspect s) none
      else m.broadcasts }

def suspectNode (m : Memberlist) (s : Suspect) (env : Env) : Memberlist :=
  if m.shutdown then m
  else match m.nodeMap s.node with
  | none => m
  | some r =>
    if s.incarnation < (m.heap r).incarnation then m
    else match m.nodeTimers s.node with
    | some t => confirmTimer m t s
    | none =>
      if (m.heap r).state ≠ .alive then m
      else if (m.heap r).name = m.config.name then refute m r s.incarnation
      else applySuspect m r s env.now

/-- The expiry callback of the timer at `t`. -/
def expire (m : Memberlist) (t : Nat) (now : Time) : Memberlist :=
  if m.shutdown then m
  else match m.nodeMap (m.suspicions t).node with
  | none => m
  | some r =>
    if (m.heap r).state = .suspect ∧ (m.heap r).stateChange = (m.suspicions t).changeTime then
      deadNodeLocked m ⟨(m.heap r).incarnation,(m.heap r).name,m.config.name⟩ none now
    else m

/-- One iteration of the loop of `mergeState`, which takes nodeLock for each
    entry. A dead node is only suspected, and unknown states are ignored. -/
def mergeEntry (m : Memberlist) (r : PushNodeState) (env : Env) : Memberlist :=
  match NodeStateType.ofInt r.state with
  | some .alive => aliveNode m ⟨r.incarnation,r.name,r.addr,r.port,r.metadata,r.vsn⟩ false env
  | some .left => deadNode m ⟨r.incarnation,r.name,r.name⟩ env
  | some .dead => suspectNode m ⟨r.incarnation,r.name,m.config.name⟩ env
  | some .suspect => suspectNode m ⟨r.incarnation,r.name,m.config.name⟩ env
  | none => m

/-- `mergeState`, with what each of its entries reads from outside. -/
def mergeState (m : Memberlist) (remote : List (PushNodeState × Env)) : Memberlist :=
  remote.foldl (fun m r => mergeEntry m r.1 r.2) m

/-- The loop of `moveDeadNodes` with `left = n - numDead - i` indices to go. -/
def moveDeadLoop (heap : Ref → NodeState) (deadTime : Duration) (now : Time) :
    (left : Nat) → (nodes : List Ref) → (i : Nat) → List Ref × Nat
  | 0,nodes,i => (nodes,i)
  | left + 1,nodes,i =>
    let n := heap (nodes.getD i 0)
    if n.deadOrLeft = true ∧ deadTime < sub now n.stateChange then
      moveDeadLoop heap deadTime now left (swap nodes i (i + left)) i
    else moveDeadLoop heap deadTime now left nodes (i + 1)

/-- Moves the expired dead and left nodes to the end and returns the index of
    the first. -/
def moveDeadNodes (heap : Ref → NodeState) (nodes : List Ref) (deadTime : Duration) (now : Time) :
    List Ref × Nat :=
  moveDeadLoop heap deadTime now nodes.length nodes 0

/-- The Fisher-Yates shuffle: index `i` is exchanged with a draw up to `i`, from
    the last index down. -/
def shuffleFrom (draws : Nat → Nat) : Nat → List Ref → List Ref
  | 0,nodes => nodes
  | i + 1,nodes => shuffleFrom draws i (swap nodes (i + 1) (draws (i + 1) % (i + 2)))

def shuffleNodes (draws : Nat → Nat) (nodes : List Ref) : List Ref := shuffleFrom draws (nodes.length - 1) nodes

/-- Reaps the expired dead nodes and shuffles the others. -/
def resetNodes (m : Memberlist) (now : Time) (draws : Nat → Nat) : Memberlist :=
  let moved := moveDeadNodes m.heap m.nodes m.config.gossipToTheDeadTime now
  let nodes := moved.1
  let deadIdx := moved.2
  { m with
    nodeMap := (nodes.drop deadIdx).foldl (fun table r => Function.update table (m.heap r).name none) m.nodeMap
    nodes := shuffleNodes draws (nodes.take deadIdx)
    numNodes := UInt32.ofNat deadIdx }

/-- The live nodes, in list order. -/
def members (m : Memberlist) : List Node :=
  ((m.nodes.map m.heap).filter (fun n => !n.deadOrLeft)).map (·.toNode)

/-- `LocalNode`; `none` is the dereference of a record that the table does not hold. -/
def localNode (m : Memberlist) : Option Node := (m.nodeMap m.config.name).map (fun r => (m.heap r).toNode)

inductive LifecycleError where
  | shutdown
  | metaTooLarge
  | left
  | noLocalNode
deriving DecidableEq,Repr

/-- The local metadata, given what the delegate answers. -/
def delegateMeta (conf : Config) (answer : Slice) : Except LifecycleError Slice :=
  if conf.delegate = false then .ok none
  else if conf.metaLimit < (bytes answer).length then .error .metaTooLarge
  else .ok answer

/-- The first half of `setAlive`, outside nodeLock: it draws an incarnation for
    the address that the transport advertises and the local metadata. -/
def setAliveMessage (m : Memberlist) (addr : Slice) (port : Int) (metadata : Slice) : Memberlist × Alive :=
  let counter := m.incarnation.add 1
  ({ m with incarnation := counter },
    ⟨counter.value,m.config.name,addr,UInt16.ofInt port,metadata,m.config.buildVsnArray⟩)

/-- The critical section of `setAlive`. -/
def setAliveLocked (m : Memberlist) (a : Alive) (receipt : Option Nat) (env : Env) :
    Except LifecycleError Memberlist :=
  if m.shutdown then .error .shutdown else .ok (aliveNodeLocked m a none true receipt env)

/-- The critical section of `UpdateNodeContext`. -/
def updateNodeLocked (m : Memberlist) (metadata : Slice) (notify receipt : Option Nat) (env : Env) :
    Except LifecycleError Memberlist :=
  if m.shutdown then .error .shutdown
  else if m.leave then .error .left
  else match m.nodeMap m.config.name with
  | none => .error .noLocalNode
  | some r =>
    let counter := m.incarnation.add 1
    .ok (aliveNodeLocked { m with incarnation := counter }
      ⟨counter.value,m.config.name,(m.heap r).addr,(m.heap r).port,metadata,m.config.buildVsnArray⟩
      notify true receipt env)

/-- `UpdateNodeContext` up to the end of its critical section. -/
def updateNodeContext (m : Memberlist) (answer : Slice) (notify receipt : Option Nat) (env : Env) :
    Except LifecycleError Memberlist :=
  if m.shutdown then .error .shutdown
  else match delegateMeta m.config answer with
  | .error err => .error err
  | .ok metadata => updateNodeLocked m metadata notify receipt env

/-- The critical section of `LeaveContext`. -/
def leaveLocked (m : Memberlist) (receipt : Option Nat) (now : Time) : Except LifecycleError Memberlist :=
  if m.shutdown then .error .shutdown
  else match m.nodeMap m.config.name with
  | none => .error .noLocalNode
  | some r => .ok (deadNodeLocked { m with leaveReceipt := receipt, leave := true }
      ⟨(m.heap r).incarnation,(m.heap r).name,(m.heap r).name⟩ receipt now)

/-- `LeaveContext` up to the end of its commit phase, which leaveSem makes
    exclusive: a call after the commit changes nothing. -/
def leaveContext (m : Memberlist) (receipt : Option Nat) (now : Time) : Except LifecycleError Memberlist :=
  if m.shutdown then .error .shutdown
  else if m.leave then .ok m
  else leaveLocked m receipt now

end Mori.State
