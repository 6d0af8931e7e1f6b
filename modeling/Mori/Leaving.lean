import Mori.Gossip
import Mori.Suspicions

/-!
`LeaveContext`: any number of calls, each of which may be cancelled, against messages,
`UpdateNodeContext` and `Shutdown`. leaveSem makes the commit phase exclusive, and the
critical section of the commit writes one thing after the other: the receipt, the leave
flag, then the record, the broadcast and the event. Whenever nodeLock is free, all of it
has happened or none.
-/
namespace Mori.Leaving
open Mori.Net Mori.Protocol Mori.State Mori.Table Mori.Moves Mori.LocalNode Mori.Machines Function
open Mori.Gossip hiding Act step Inv inv_step

/-- Why a call returns early. -/
inductive Err where
  | context
  | shutdown
  | noLocalNode
deriving DecidableEq,Repr

/-- Where a call of `LeaveContext` is. `own` tells whether it has committed itself; the
    receipt of a call is its number. -/
inductive Call where
  | idle
  /-- It has leaveSem. -/
  | acquired
  /-- The instance was not shut down. -/
  | checked
  /-- The leave was not committed; it waits for nodeLock. -/
  | locking
  | holding
  /-- The instance was still not shut down. -/
  | entered
  | found (r : Ref)
  | published (r : Ref)
  | flagged (r : Ref)
  | buried
  /-- It returns from the critical section with an error. -/
  | failing (err : Err)
  /-- It releases leaveSem, and then waits or returns. -/
  | ending (receipt : Option Nat) (own : Bool)
  | refused (err : Err)
  | waiting (receipt : Option Nat) (own : Bool)
  | returned (own : Bool) (err : Option Err)
deriving DecidableEq,Repr

/-- What the others do under nodeLock: a section, or that of `finishShutdown`. -/
inductive Job where
  | critical (op : Op)
  | finishShutdown

/-- Where another user of nodeLock is. -/
inductive Other where
  | idle
  | holding (job : Job)
  | ran

/-- An instance, its two locks and their users. No code reads `commits`: it logs the calls
    that have committed. -/
structure State where
  g : Gossiper
  locked : Bool := false
  leaveSem : Bool := false
  call : Nat → Call := fun _ => .idle
  other : Nat → Other := fun _ => .idle
  commits : List Nat := []

/-- An instance, with any queue; the log starts here. -/
def initial (m : Memberlist) (q : BroadcastQueue) : State where
  g := { m := { m with broadcasts := [] }, handed := handed_nil m, broadcasts := q }

namespace State

def moveTo (s : State) (k : Nat) (c : Call) : State := { s with call := update s.call k c }

end State

/-- The sections of messages and of updates; the leave has its own steps, and dead
    records are not reaped. -/
def Allowed : Op → Prop
  | .leave .. => False
  | .reset .. => False
  | _ => True

def IsLeave : Op → Prop
  | .leave .. => True
  | _ => False

instance : ∀ op, Decidable (Allowed op)
  | .leave .. | .reset .. => instDecidableFalse
  | .alive .. | .suspect .. | .dead .. | .merge .. | .expire .. | .update .. => instDecidableTrue

inductive Act where
  /-- The next step of a call. -/
  | go (k : Nat) (now : Time) (draws : Nat → UInt64)
  /-- The context of a call is done, where it looks at it. -/
  | cancel (k : Nat)
  /-- A call that waits sees that the instance shuts down. -/
  | interrupt (k : Nat)
  | enter (p : Nat) (job : Job)
  | work (p : Nat) (draws : Nat → UInt64)
  | exit (p : Nat)
  | shutdown

/-- The call that makes a step. -/
def Act.caller : Act → Option Nat
  | .go k .. => some k
  | .cancel k => some k
  | .interrupt k => some k
  | _ => none

/-- The dead message with which the node whose record is at `r` leaves. -/
def leaveMessage (m : Memberlist) (r : Ref) : Dead := ⟨(m.heap r).incarnation,(m.heap r).name,(m.heap r).name⟩

/-- `LeaveContext`, one step at a time. -/
def go (s : State) (k : Nat) (now : Time) (draws : Nat → UInt64) : State :=
  match s.call k with
  | .idle => if s.leaveSem then s else { s.moveTo k .acquired with leaveSem := true }
  | .acquired => s.moveTo k (if s.g.m.shutdown then .refused .shutdown else .checked)
  | .checked => s.moveTo k (if s.g.m.leave then .ending s.g.m.leaveReceipt false else .locking)
  | .locking => if s.locked then s else { s.moveTo k .holding with locked := true }
  | .holding => s.moveTo k (if s.g.m.shutdown then .failing .shutdown else .entered)
  | .entered =>
    match s.g.m.nodeMap s.g.m.config.name with
    | none => s.moveTo k (.failing .noLocalNode)
    | some r => s.moveTo k (.found r)
  | .found r =>
    { s.moveTo k (.published r) with g := { s.g with m := { s.g.m with leaveReceipt := some k }, handed := s.g.handed } }
  | .published r =>
    { s.moveTo k (.flagged r) with g := { s.g with m := { s.g.m with leave := true }, handed := s.g.handed } }
  | .flagged r =>
    { s.moveTo k .buried with
      g := commit s.g (deadNodeLocked s.g.m (leaveMessage s.g.m r) (some k) now) draws
      commits := s.commits ++ [k] }
  | .buried => { s.moveTo k (.ending (some k) true) with locked := false }
  | .failing err => { s.moveTo k (.refused err) with locked := false }
  | .ending receipt own => { s.moveTo k (.waiting receipt own) with leaveSem := false }
  | .refused err => { s.moveTo k (.returned false (some err)) with leaveSem := false }
  | .waiting _ own => s.moveTo k (.returned own none)
  | .returned .. => s

def work (g : Gossiper) (draws : Nat → UInt64) : Job → Gossiper
  | .critical op => if Allowed op then commit g (apply g.m op) draws else g
  | .finishShutdown => { g with m := { g.m with nodeTimers := fun _ => none }, handed := g.handed }

def step (s : State) : Act → State
  | .go k now draws => go s k now draws
  | .cancel k =>
    match s.call k with
    | .idle => s.moveTo k (.returned false (some .context))
    | .locking => s.moveTo k (.refused .context)
    | .waiting _ own => s.moveTo k (.returned own (some .context))
    | _ => s
  | .interrupt k =>
    match s.call k with
    | .waiting _ own => if s.g.m.shutdown then s.moveTo k (.returned own (some .shutdown)) else s
    | _ => s
  | .enter p job =>
    match s.other p with
    | .idle => if s.locked then s else { s with other := update s.other p (.holding job), locked := true }
    | _ => s
  | .work p draws =>
    match s.other p with
    | .holding job => { s with other := update s.other p .ran, g := work s.g draws job }
    | _ => s
  | .exit p =>
    match s.other p with
    | .ran => { s with other := update s.other p .idle, locked := false }
    | _ => s
  | .shutdown => { s with g := { s.g with m := { s.g.m with shutdown := true }, handed := s.g.handed } }

/-- A broadcast with which the local node says that it leaves. -/
def isSelfDead (name : Bytes) (b : State.Broadcast) : Bool :=
  match b.msg with
  | .dead d => d.node = name && d.from_ = name
  | _ => false

/-- The event that the local node has left. -/
def isOwnLeave (name : Bytes) (e : QueuedEvent) : Bool := e.kind = .leave && e.node.name = name

def selfDeads (g : Gossiper) : Nat := g.queued.countP (isSelfDead g.m.config.name)

def ownLeaves (m : Memberlist) : Nat := m.events.countP (isOwnLeave m.config.name)

/-- Nothing of it has happened but, perhaps, what the receipt and the flag say. -/
structure Untouched (g : Gossiper) : Prop where
  record : ∃ me, localEntry g.m = some me ∧ me.state = .alive
  broadcast : selfDeads g = 0
  event : ownLeaves g.m = 0

/-- None of it has happened. -/
structure Before (g : Gossiper) : Prop extends Untouched g where
  leave : g.m.leave = false
  receipt : g.m.leaveReceipt = none

/-- All of it has happened, in call `k`. -/
structure After (g : Gossiper) (k : Nat) : Prop where
  leave : g.m.leave = true
  receipt : g.m.leaveReceipt = some k
  record : ∃ me, localEntry g.m = some me ∧ me.state = .left
  broadcast : selfDeads g = 1
  event : ownLeaves g.m = if g.m.config.events then 1 else 0

/-- A call between the acquisition of leaveSem and the end of its commit phase. -/
def InCommit : Call → Prop
  | .idle => False
  | .waiting .. => False
  | .returned .. => False
  | _ => True

/-! ## What the others keep -/

/-- The instance as if it were not shut down. -/
def up (m : Memberlist) : Memberlist := { m with shutdown := false }

theorem up_eq {m : Memberlist} (running : m.shutdown = false) : up m = m := by
  unfold up
  rw [← running]

/-- What a section keeps that is not a leave. -/
structure Kept (g g' : Gossiper) : Prop where
  table : TableWF g'.m
  locals : LocalInv (up g'.m)
  config : g'.m.config = g.m.config
  leave : g'.m.leave = g.m.leave
  receipt : g'.m.leaveReceipt = g.m.leaveReceipt
  present : ∀ me, localEntry g.m = some me → ∃ me', localEntry g'.m = some me'
  broadcast : selfDeads g' = selfDeads g
  event : ownLeaves g'.m = ownLeaves g.m

section
variable {m m' : Memberlist} {g g' : Gossiper} {op : Op}

theorem stays_of_allowed (allowed : Allowed op) : ¬ IsLeave op := by
  intro leaves
  cases op <;> first | exact leaves | exact allowed

theorem allowed_cause {cause : Op} (allowed : Allowed op) (resolved : resolve m op = some cause) : Allowed cause := by
  rcases resolve_cases resolved with ⟨rfl,-⟩ | ⟨message,-⟩
  · exact allowed
  · cases cause with
    | leave => exact message.elim
    | reset => exact message.elim
    | _ => trivial

/-- After the flag is set no section does anything. -/
theorem apply_of_shutdown (down : m.shutdown = true) (allowed : Allowed op) : apply m op = m := by
  cases op with
  | alive a env => simp [apply,aliveNode,down]
  | suspect s env => simp [apply,suspectNode,down]
  | dead d env => simp [apply,deadNode,down]
  | merge r env =>
    simp only [apply,mergeEntry]
    split
    · simp [aliveNode,down]
    · simp [deadNode,down]
    · simp [suspectNode,down]
    · simp [suspectNode,down]
    · rfl
  | expire t env => simp [apply,expire,down]
  | reset => exact allowed.elim
  | update => simp [apply,updateNodeContext,down,Except.toOption]
  | leave => exact allowed.elim

theorem ownLeaves_append {events : List QueuedEvent} (log : m'.events = m.events ++ events) (same : m'.config = m.config)
    (other : ∀ e ∈ events, e.kind = .leave → e.node.name ≠ m.config.name) : ownLeaves m' = ownLeaves m := by
  have none : events.countP (isOwnLeave m.config.name) = 0 := by
    rw [List.countP_eq_zero]
    intro e member own
    simp only [isOwnLeave,Bool.and_eq_true,decide_eq_true_eq] at own
    exact other e member own.1 own.2
  rw [ownLeaves,log,same,List.countP_append,none]
  rfl

theorem aliveEvent_kind {old new : NodeState} {receipt : Option Nat} {e : QueuedEvent}
    (member : e ∈ aliveEvent m old new receipt) : e.kind ≠ .leave := by
  unfold aliveEvent at member
  split_ifs at member
  · cases member
  · rw [List.mem_singleton.mp member]
    simp [nextEvent]
  · cases member
  · rw [List.mem_singleton.mp member]
    simp [nextEvent]

/-- Only a leave reports that the local node has left. -/
theorem ownLeaves_move (wf : TableWF m) (gone : Departed m) (staying : ¬ IsLeave op) (move : Move m op m') :
    ownLeaves m' = ownLeaves m := by
  cases move with
  | conflict =>
    refine ownLeaves_append rfl rfl ?_
    intro e member
    rw [List.mem_singleton.mp member]
    simp [nextEvent]
  | refuteAlive => exact ownLeaves_append rfl rfl (fun e member kind => absurd kind (aliveEvent_kind member))
  | applyAlive => exact ownLeaves_append rfl rfl (fun e member kind => absurd kind (aliveEvent_kind member))
  | update => exact ownLeaves_append rfl rfl (fun e member kind => absurd kind (aliveEvent_kind member))
  | @applyDead d env r notify found leaving live =>
    refine ownLeaves_append rfl rfl ?_
    intro e member _ name
    by_cases isLocal : (m.heap r).name = m.config.name
    · have isDead := gone (leaving isLocal) _ (local_eq found (local_of_found wf found isLocal))
      rw [live] at isDead
      cases isDead
    · split_ifs at member
      · rw [List.mem_singleton.mp member] at name
        exact isLocal name
      · cases member
  | leave => exact absurd trivial staying
  | leaveDead => exact absurd trivial staying
  | _ => rfl

theorem flags_move (staying : ¬ IsLeave op) (move : Move m op m') :
    m'.leave = m.leave ∧ m'.leaveReceipt = m.leaveReceipt ∧ m'.config = m.config := by
  cases move with
  | leave => exact absurd trivial staying
  | leaveDead => exact absurd trivial staying
  | _ => exact ⟨rfl,rfl,rfl⟩

theorem present_move (wf : TableWF m) (locals : LocalInv m) (allowed : Allowed op) (move : Move m op m')
    (present : ∃ me, localEntry m = some me) : ∃ me, localEntry m' = some me := by
  cases local_move wf move with
  | same kept => rw [kept]; exact present
  | add _ _ added => exact ⟨_,added⟩
  | refute _ after => exact ⟨_,after⟩
  | @dead _ _ me before live left =>
    have isLeft := locals.gone left me before
    simp [NodeState.deadOrLeft,isLeft] at live
  | reset => exact allowed.elim
  | update _ _ after => exact ⟨_,after⟩
  | leave => exact allowed.elim
  | leaveDead => exact allowed.elim

theorem sent_selfDead {b : State.Broadcast} (locals : LocalInv m) (allowed : Allowed op) (sent : Sent m op b) :
    isSelfDead m.config.name b = false := by
  cases sent with
  | dead remote => simp [isSelfDead,remote]
  | @deadLocal d env me _ left held live =>
    have isLeft := locals.gone left me held
    simp [NodeState.deadOrLeft,isLeft] at live
  | leave => exact allowed.elim
  | _ => rfl

theorem selfDeads_commit (config : m.config = g.m.config) (draws : Nat → UInt64) :
    selfDeads (commit g m draws) = selfDeads g + m.broadcasts.countP (isSelfDead g.m.config.name) := by
  rw [selfDeads,commit_m,commit_queued,List.countP_append]
  simp only [config,selfDeads]

theorem kept_section (wf : TableWF g.m) (locals : LocalInv (up g.m)) (allowed : Allowed op) (draws : Nat → UInt64) :
    Kept g (commit g (apply g.m op) draws) := by
  cases down : g.m.shutdown with
  | true =>
    rw [apply_of_shutdown down allowed,commit_of_nil g.handed]
    have same : ({ g.m with broadcasts := [] } : Memberlist) = g.m := by rw [← g.handed]
    exact {
      table := same ▸ wf
      locals := same ▸ locals
      config := rfl
      leave := rfl
      receipt := rfl
      present := fun me held => ⟨me,same ▸ held⟩
      broadcast := rfl
      event := rfl }
  | false =>
    rw [up_eq down] at locals
    obtain ⟨table,moved,⟨leave,receipt,config⟩,event,present⟩ := apply_keeps (P := Allowed)
      (I := fun m' => LocalInv m' ∧
        (m'.leave = g.m.leave ∧ m'.leaveReceipt = g.m.leaveReceipt ∧ m'.config = g.m.config) ∧
        ownLeaves m' = ownLeaves g.m ∧ ((∃ me, localEntry g.m = some me) → ∃ me, localEntry m' = some me))
      (fun kind resolved => allowed_cause kind resolved)
      (fun kind wf held move => by
        obtain ⟨locals,⟨leave,receipt,config⟩,event,present⟩ := held
        obtain ⟨leave',receipt',config'⟩ := flags_move (stays_of_allowed kind) move
        exact ⟨localInv_move wf locals move,⟨leave'.trans leave,receipt'.trans receipt,config'.trans config⟩,
          (ownLeaves_move wf (departed_of_locals locals) (stays_of_allowed kind) move).trans event,fun held => present_move wf locals kind move (present held)⟩)
      wf ⟨locals,⟨rfl,rfl,rfl⟩,rfl,id⟩ allowed
    have broadcast : (apply g.m op).broadcasts.countP (isSelfDead g.m.config.name) = 0 := by
      rcases sends_apply wf g.handed op with nothing | ⟨cause,resolved,nothing | ⟨b,sent,kind⟩⟩
      · rw [nothing]
        rfl
      · rw [nothing]
        rfl
      · rw [sent,List.countP_singleton,sent_selfDead locals (allowed_cause allowed resolved) kind]
        rfl
    have installed := commit_m g (apply g.m op) draws
    exact {
      table := by
        rw [installed]
        exact tableWF_of_same (m := apply g.m op) ⟨rfl,rfl,rfl,rfl,rfl⟩ table
      locals := by
        rw [installed]
        exact ⟨rfl,moved.present,moved.gone,moved.unsuspected⟩
      config := by
        rw [installed]
        exact config
      leave := by
        rw [installed]
        exact leave
      receipt := by
        rw [installed]
        exact receipt
      present := by
        intro me held
        rw [installed]
        exact present ⟨me,held⟩
      broadcast := by rw [selfDeads_commit config,broadcast,Nat.add_zero]
      event := by
        rw [installed]
        exact event }

theorem kept_work (wf : TableWF g.m) (locals : LocalInv (up g.m)) (draws : Nat → UInt64) (job : Job) :
    Kept g (work g draws job) := by
  have same : Kept g g := ⟨wf,locals,rfl,rfl,rfl,fun me held => ⟨me,held⟩,rfl,rfl⟩
  cases job with
  | critical op =>
    simp only [work]
    split_ifs with allowed
    · exact kept_section wf locals allowed draws
    · exact same
  | finishShutdown =>
    exact {
      table := tableWF_of_same (m := g.m) ⟨rfl,rfl,rfl,rfl,rfl⟩ wf
      locals := ⟨rfl,locals.present,locals.gone,rfl⟩
      config := rfl
      leave := rfl
      receipt := rfl
      present := fun me held => ⟨me,held⟩
      broadcast := rfl
      event := rfl }

theorem Kept.before (kept : Kept g g') (before : Before g) : Before g' where
  record := kept.locals.present (kept.leave.trans before.leave)
  broadcast := kept.broadcast.trans before.broadcast
  event := kept.event.trans before.event
  leave := kept.leave.trans before.leave
  receipt := kept.receipt.trans before.receipt

theorem Kept.after (kept : Kept g g') {k : Nat} (after : After g k) : After g' k where
  leave := kept.leave.trans after.leave
  receipt := kept.receipt.trans after.receipt
  record := by
    obtain ⟨me,held,-⟩ := after.record
    obtain ⟨me',held'⟩ := kept.present me held
    exact ⟨me',held',kept.locals.gone (kept.leave.trans after.leave) me' held'⟩
  broadcast := kept.broadcast.trans after.broadcast
  event := by
    rw [kept.event,kept.config]
    exact after.event

end

section
variable {g : Gossiper} {k : Nat} {r : Ref}

/-- The last write of the critical section: the record, the broadcast and the event. -/
theorem buried_after (wf : TableWF g.m) (left : g.m.leave = true) (receipt : g.m.leaveReceipt = some k)
    (untouched : Untouched g)
    (found : g.m.nodeMap g.m.config.name = some r) (now : Time) (draws : Nat → UInt64) :
    let g' := commit g (deadNodeLocked g.m (leaveMessage g.m r) (some k) now) draws
    TableWF g'.m ∧ LocalInv (up g'.m) ∧ After g' k := by
  obtain ⟨me,held,isAlive⟩ := untouched.record
  have isLocal : (g.m.heap r).name = g.m.config.name := wf.named _ _ found
  have own : localEntry g.m = some (g.m.heap r) := entry_eq found
  rw [own] at held
  cases held
  have live : (g.m.heap r).deadOrLeft = false := by simp [NodeState.deadOrLeft,isAlive]
  have done : deadNodeLocked g.m (leaveMessage g.m r) (some k) now =
      applyDead g.m r (leaveMessage g.m r) (some g.m.leaveBroadcast) (some k) now := by
    simp [deadNodeLocked,leaveMessage,isLocal,found,live,left]
  have node : (leaveMessage g.m r).node = g.m.config.name := isLocal
  have table := table_applyDead wf (leaveMessage g.m r) (node ▸ found) (some g.m.leaveBroadcast) (some k) now
  have record := local_at table.2 rfl node
  have state : (deadRecord (g.m.heap r) (leaveMessage g.m r) now).state = .left := by simp [deadRecord,leaveMessage]
  have sent : (applyDead g.m r (leaveMessage g.m r) (some g.m.leaveBroadcast) (some k) now).broadcasts =
      [⟨g.m.config.name,.dead (leaveMessage g.m r),some g.m.leaveBroadcast⟩] := by
    simp only [applyDead,g.handed,encodeBroadcastNotify_nil,node]
  intro g'
  have installed : g'.m = { applyDead g.m r (leaveMessage g.m r) (some g.m.leaveBroadcast) (some k) now with broadcasts := [] } := by
    rw [← done]
    exact commit_m ..
  have held : localEntry g'.m = some (deadRecord (g.m.heap r) (leaveMessage g.m r) now) := by
    rw [installed]
    exact record
  refine ⟨?_,?_,?_⟩
  · rw [installed]
    exact tableWF_of_same (m := applyDead g.m r (leaveMessage g.m r) (some g.m.leaveBroadcast) (some k) now)
      ⟨rfl,rfl,rfl,rfl,rfl⟩ table.1
  · rw [installed] at held ⊢
    refine ⟨rfl,fun staying => ?_,fun _ s here => ?_,?_⟩
    · have still : g.m.leave = false := staying
      rw [left] at still
      cases still
    · have same := here.symm.trans held
      cases same
      exact state
    · change update g.m.nodeTimers (leaveMessage g.m r).node none g.m.config.name = none
      rw [node,update_self]
  · exact {
      leave := by
        rw [installed]
        exact left
      receipt := by
        rw [installed]
        exact receipt
      record := ⟨_,held,state⟩
      broadcast := by
        have same : g' = commit g (applyDead g.m r (leaveMessage g.m r) (some g.m.leaveBroadcast) (some k) now) draws := by
          rw [← done]
        rw [same,selfDeads_commit (m := applyDead ..) rfl,sent,untouched.broadcast]
        simp [isSelfDead,leaveMessage,isLocal]
      event := by
        have log : g'.m.events = g.m.events ++ (if g.m.config.events then
            [nextEvent g.m .leave (deadRecord (g.m.heap r) (leaveMessage g.m r) now).toNode none (some k)] else []) := by
          rw [installed]
          rfl
        have config : g'.m.config = g.m.config := by
          rw [installed]
          rfl
        have none := untouched.event
        rw [ownLeaves] at none
        rw [ownLeaves,log,config,List.countP_append,none]
        split_ifs
        · simp [isOwnLeave,nextEvent,deadRecord,isLocal]
        · rfl }

end

inductive Party where
  | call (k : Nat)
  | other (p : Nat)
deriving DecidableEq

def OwnsCall : Call → Prop
  | .holding => True
  | .entered => True
  | .found _ => True
  | .published _ => True
  | .flagged _ => True
  | .buried => True
  | .failing _ => True
  | _ => False

def OwnsOther : Other → Prop
  | .idle => False
  | _ => True

/-- Who has nodeLock. -/
def Owns (call : Nat → Call) (other : Nat → Other) : Party → Prop
  | .call k => OwnsCall (call k)
  | .other p => OwnsOther (other p)

/-- A call in the middle of its commit. -/
def Writing : Call → Prop
  | .published _ => True
  | .flagged _ => True
  | _ => False

/-- How far the leave is. -/
inductive Status (s : State) : Prop
  | before (quiet : ∀ k, ¬ Writing (s.call k)) (locals : LocalInv (up s.g.m)) (none : Before s.g)
      (commits : s.commits = [])
  | published {k : Nat} {r : Ref} (here : s.call k = .published r) (locals : LocalInv (up s.g.m))
      (untouched : Untouched s.g) (leave : s.g.m.leave = false) (receipt : s.g.m.leaveReceipt = some k)
      (commits : s.commits = [])
  | flagged {k : Nat} {r : Ref} (here : s.call k = .flagged r) (untouched : Untouched s.g)
      (leave : s.g.m.leave = true) (receipt : s.g.m.leaveReceipt = some k) (commits : s.commits = [])
  | after {k : Nat} (quiet : ∀ k, ¬ Writing (s.call k)) (locals : LocalInv (up s.g.m)) (all : After s.g k)
      (commits : s.commits = [k])

/-- What is known where a call is. -/
def Place (g : Gossiper) (commits : List Nat) (k : Nat) : Call → Prop
  | .locking => g.m.leave = false ∧ k ∉ commits
  | .holding => g.m.leave = false ∧ k ∉ commits
  | .entered => g.m.leave = false ∧ k ∉ commits
  | .found r => g.m.leave = false ∧ g.m.nodeMap g.m.config.name = some r ∧ k ∉ commits
  | .published r => g.m.nodeMap g.m.config.name = some r
  | .flagged r => g.m.nodeMap g.m.config.name = some r
  | .buried => commits = [k]
  | .ending receipt own => ∃ c, commits = [c] ∧ receipt = some c ∧ (own = true ↔ c = k)
  | .waiting receipt own => ∃ c, commits = [c] ∧ receipt = some c ∧ (own = true ↔ c = k)
  | .returned own _ => own = true ↔ k ∈ commits
  | _ => k ∉ commits

structure Inv (s : State) : Prop where
  table : TableWF s.g.m
  lock : Held s.locked (Owns s.call s.other)
  leaveSem : Held s.leaveSem (fun k => InCommit (s.call k))
  status : Status s
  place : ∀ k, Place s.g s.commits k (s.call k)

section
variable {s : State} {k : Nat} {c c₀ : Call}

theorem inCommit_of_owns {c : Call} (owns : OwnsCall c) : InCommit c := by
  cases c <;> trivial

theorem owns_of_writing {c : Call} (writing : Writing c) : OwnsCall c := by
  cases c <;> trivial

theorem aside_call : Aside (.call k) (Owns s.call s.other) (Owns (update s.call k c) s.other) := by
  intro q different
  cases q with
  | call j =>
    have other : j ≠ k := fun same => different (same ▸ rfl)
    simp only [Owns,update_of_ne other]
  | other p => rfl

theorem owns_self : Owns (update s.call k c) s.other (.call k) ↔ OwnsCall c := by
  simp only [Owns,update_self]

theorem lock_same (inv : Inv s) (here : s.call k = c₀) (same : OwnsCall c ↔ OwnsCall c₀) :
    Held s.locked (Owns (update s.call k c) s.other) := by
  refine held_same inv.lock aside_call ?_
  rw [owns_self,same,← here]
  rfl

theorem lock_take (inv : Inv s) (free : s.locked = false) (owns : OwnsCall c) :
    Held true (Owns (update s.call k c) s.other) :=
  held_take (free ▸ inv.lock) aside_call (owns_self.mpr owns)

theorem lock_release (inv : Inv s) (here : s.call k = c₀) (owns : OwnsCall c₀) (gives : ¬ OwnsCall c) :
    Held false (Owns (update s.call k c) s.other) := by
  refine held_release inv.lock aside_call ?_ (fun has => gives (owns_self.mp has))
  rw [← here] at owns
  exact owns

theorem sem_same (inv : Inv s) (here : s.call k = c₀) (same : InCommit c ↔ InCommit c₀) :
    Held s.leaveSem (fun j => InCommit (update s.call k c j)) := by
  refine held_same inv.leaveSem (aside_update InCommit s.call k c) ?_
  rw [update_self,here]
  exact same

theorem sem_take (inv : Inv s) (free : s.leaveSem = false) (has : InCommit c) :
    Held true (fun j => InCommit (update s.call k c j)) := by
  refine held_take (free ▸ inv.leaveSem) (aside_update InCommit s.call k c) ?_
  rw [update_self]
  exact has

theorem sem_release (inv : Inv s) (here : s.call k = c₀) (has : InCommit c₀) (gives : ¬ InCommit c) :
    Held false (fun j => InCommit (update s.call k c j)) := by
  refine held_release inv.leaveSem (aside_update InCommit s.call k c) (here ▸ has) ?_
  rw [update_self]
  exact gives

theorem quiet_at (quiet : ∀ j, ¬ Writing (s.call j)) (quiet' : ¬ Writing c) (j : Nat) : ¬ Writing (update s.call k c j) :=
  (forall_update_iff s.call (fun _ c => ¬ Writing c)).mpr ⟨quiet',fun j _ => quiet j⟩ j

theorem status_at (status : Status s) (here : s.call k = c₀) (quiet : ¬ Writing c₀) (quiet' : ¬ Writing c)
    (locked sem : Bool) : Status { s.moveTo k c with locked := locked, leaveSem := sem } := by
  have elsewhere : ∀ {j c'}, s.call j = c' → Writing c' → update s.call k c j = c' := by
    intro j c' there writing
    have other : j ≠ k := by
      rintro rfl
      rw [← here,there] at quiet
      exact quiet writing
    rw [update_of_ne other]
    exact there
  cases status with
  | before idle locals none commits => exact .before (quiet_at idle quiet') locals none commits
  | published here locals untouched leave receipt commits =>
    exact .published (elsewhere here trivial) locals untouched leave receipt commits
  | flagged here untouched leave receipt commits =>
    exact .flagged (elsewhere here trivial) untouched leave receipt commits
  | after idle locals all commits => exact .after (quiet_at idle quiet') locals all commits

theorem inv_phase (inv : Inv s) {locked sem : Bool} (here : s.call k = c₀) (quiet : ¬ Writing c₀) (quiet' : ¬ Writing c)
    (place : Place s.g s.commits k c) (lock : Held locked (Owns (update s.call k c) s.other))
    (leaveSem : Held sem (fun j => InCommit (update s.call k c j))) :
    Inv { s.moveTo k c with locked := locked, leaveSem := sem } where
  table := inv.table
  lock := lock
  leaveSem := leaveSem
  status := status_at inv.status here quiet quiet' locked sem
  place := (forall_update_iff s.call (Place s.g s.commits)).mpr ⟨place,fun j _ => inv.place j⟩

theorem inv_at (inv : Inv s) (here : s.call k = c₀) (quiet : ¬ Writing c₀) (quiet' : ¬ Writing c)
    (place : Place s.g s.commits k c) (lock : OwnsCall c ↔ OwnsCall c₀) (leaveSem : InCommit c ↔ InCommit c₀) :
    Inv (s.moveTo k c) :=
  inv_phase inv here quiet quiet' place (lock_same inv here lock) (sem_same inv here leaveSem)

theorem commit_unique (inv : Inv s) {j : Nat} {c d : Call} (there : s.call j = c) (inside : InCommit c)
    (here : s.call k = d) (own : InCommit d) : j = k ∧ c = d := by
  subst there here
  have same : j = k := inv.leaveSem.single j k inside own
  exact ⟨same,congrArg s.call same⟩

/-- A call in its commit phase that finds the leave committed waits for its receipt. -/
theorem place_checked (inv : Inv s) (here : s.call k = .checked) :
    Place s.g s.commits k (if s.g.m.leave then .ending s.g.m.leaveReceipt false else .locking) := by
  have outside : k ∉ s.commits := by
    have place := inv.place k
    rw [here] at place
    exact place
  cases flag : s.g.m.leave with
  | false => exact ⟨flag,outside⟩
  | true =>
    cases inv.status with
    | before _ _ none => rw [none.leave] at flag; cases flag
    | published _ _ _ leave => rw [leave] at flag; cases flag
    | flagged there => cases (commit_unique inv there trivial here trivial).2
    | @after c _ _ all commits =>
      refine ⟨c,commits,all.receipt,?_⟩
      constructor
      · intro wrong
        cases wrong
      · rintro rfl
        rw [commits] at outside
        exact absurd (List.mem_singleton_self c) outside

/-- Nothing of the leave has happened while a call that has not found it committed holds leaveSem. -/
theorem before_of_found (inv : Inv s) {r : Ref} (here : s.call k = .found r) :
    LocalInv (up s.g.m) ∧ Before s.g ∧ s.commits = [] := by
  have place := inv.place k
  rw [here] at place
  have sole : ∀ {j c'}, s.call j = c' → Writing c' → False := by
    intro j c' there writing
    rw [(commit_unique inv there (inCommit_of_owns (owns_of_writing writing)) here trivial).2] at writing
    exact writing
  cases inv.status with
  | before _ locals none commits => exact ⟨locals,none,commits⟩
  | published there => exact (sole there trivial).elim
  | flagged there => exact (sole there trivial).elim
  | after _ _ all =>
    have staying := place.1
    rw [all.leave] at staying
    cases staying

theorem inv_publish (inv : Inv s) {r : Ref} (here : s.call k = .found r) :
    Inv { s.moveTo k (.published r) with
      g := { s.g with m := { s.g.m with leaveReceipt := some k }, handed := s.g.handed } } := by
  obtain ⟨locals,before,commits⟩ := before_of_found inv here
  have own := inv.place k
  rw [here] at own
  exact {
    table := tableWF_of_same (m := s.g.m) ⟨rfl,rfl,rfl,rfl,rfl⟩ inv.table
    lock := lock_same inv here .rfl
    leaveSem := sem_same inv here .rfl
    status := .published (update_self ..) ⟨rfl,locals.present,locals.gone,locals.unsuspected⟩
      ⟨before.record,before.broadcast,before.event⟩ before.leave rfl commits
    place := (forall_update_iff s.call (Place _ s.commits)).mpr ⟨own.2.1,fun j _ => inv.place j⟩ }

theorem status_published (inv : Inv s) {r : Ref} (here : s.call k = .published r) :
    LocalInv (up s.g.m) ∧ Untouched s.g ∧ s.g.m.leaveReceipt = some k ∧ s.commits = [] := by
  have writes : Writing (s.call k) := by rw [here]; trivial
  cases inv.status with
  | before quiet => exact absurd writes (quiet k)
  | published there locals untouched leave receipt commits =>
    have same := (commit_unique inv there trivial here trivial).1
    exact ⟨locals,untouched,same ▸ receipt,commits⟩
  | flagged there => cases (commit_unique inv there trivial here trivial).2
  | after quiet => exact absurd writes (quiet k)

theorem status_flagged (inv : Inv s) {r : Ref} (here : s.call k = .flagged r) :
    Untouched s.g ∧ s.g.m.leave = true ∧ s.g.m.leaveReceipt = some k ∧ s.commits = [] := by
  have writes : Writing (s.call k) := by rw [here]; trivial
  cases inv.status with
  | before quiet => exact absurd writes (quiet k)
  | published there => cases (commit_unique inv there trivial here trivial).2
  | flagged there untouched leave receipt commits =>
    have same := (commit_unique inv there trivial here trivial).1
    exact ⟨untouched,leave,same ▸ receipt,commits⟩
  | after quiet => exact absurd writes (quiet k)

theorem outside_of_other (inv : Inv s) (here : InCommit (s.call k)) {j : Nat} (other : j ≠ k) : ¬ InCommit (s.call j) :=
  fun inside => other (inv.leaveSem.single j k inside here)

theorem inv_flag (inv : Inv s) {r : Ref} (here : s.call k = .published r) :
    Inv { s.moveTo k (.flagged r) with
      g := { s.g with m := { s.g.m with leave := true }, handed := s.g.handed } } := by
  obtain ⟨locals,untouched,receipt,commits⟩ := status_published inv here
  have own := inv.place k
  rw [here] at own
  exact {
    table := tableWF_of_same (m := s.g.m) ⟨rfl,rfl,rfl,rfl,rfl⟩ inv.table
    lock := lock_same inv here .rfl
    leaveSem := sem_same inv here .rfl
    status := .flagged (update_self ..) ⟨untouched.record,untouched.broadcast,untouched.event⟩ rfl receipt commits
    place := by
      refine (forall_update_iff s.call (Place _ s.commits)).mpr ⟨own,fun j same => ?_⟩
      have outside := outside_of_other inv (by rw [here]; trivial) same
      have place := inv.place j
      -- Only the phases outside of the commit remain, which do not look at the flag.
      cases there : s.call j with
      | idle => rw [there] at place; exact place
      | waiting => rw [there] at place; exact place
      | returned => rw [there] at place; exact place
      | _ => rw [there] at outside; exact absurd trivial outside }

theorem inv_bury (inv : Inv s) {r : Ref} (here : s.call k = .flagged r) (now : Time) (draws : Nat → UInt64) :
    Inv { s.moveTo k .buried with
      g := commit s.g (deadNodeLocked s.g.m (leaveMessage s.g.m r) (some k) now) draws
      commits := s.commits ++ [k] } := by
  obtain ⟨untouched,left,receipt,commits⟩ := status_flagged inv here
  have found := inv.place k
  rw [here] at found
  obtain ⟨table,locals,after⟩ := buried_after inv.table left receipt untouched found now draws
  have sole : ∀ j, j ≠ k → ¬ InCommit (s.call j) := fun j => outside_of_other inv (by rw [here]; trivial)
  exact {
    table := table
    lock := lock_same inv here .rfl
    leaveSem := sem_same inv here .rfl
    status := by
      refine .after ?_ locals after (by rw [commits]; rfl)
      exact (forall_update_iff s.call (fun _ c => ¬ Writing c)).mpr
        ⟨id,fun j same writing => sole j same (inCommit_of_owns (owns_of_writing writing))⟩
    place := by
      intro j
      simp only [State.moveTo,commits,List.nil_append]
      by_cases same : j = k
      · rw [same,update_self]
        rfl
      · rw [update_of_ne same]
        have outside := sole j same
        have place := inv.place j
        rw [commits] at place
        cases there : s.call j with
        | idle =>
          change j ∉ [k]
          simpa using same
        | waiting =>
          rw [there] at place
          obtain ⟨c,none,-⟩ := place
          cases none
        | returned own err =>
          rw [there] at place
          have uncommitted : own ≠ true := fun wrong => absurd (place.mp wrong) (by simp)
          change own = true ↔ j ∈ [k]
          simp [uncommitted,same]
        | _ => rw [there] at outside; exact absurd trivial outside }

theorem place_returned {g : Gossiper} {commits : List Nat} {receipt : Option Nat} {own : Bool} {err : Option Err}
    (place : Place g commits k (.waiting receipt own)) : Place g commits k (.returned own err) := by
  obtain ⟨c,committed,-,mine⟩ := place
  change own = true ↔ k ∈ commits
  rw [committed,List.mem_singleton,mine]
  exact eq_comm

theorem inv_go (inv : Inv s) (now : Time) (draws : Nat → UInt64) : Inv (go s k now draws) := by
  have place := inv.place k
  unfold go
  cases here : s.call k with
  | idle =>
    simp only
    split_ifs with taken
    · exact inv
    · rw [here] at place
      refine inv_phase (c := .acquired) inv here id id place (lock_same inv here .rfl) ?_
      exact sem_take inv (by simpa using taken) trivial
  | acquired =>
    rw [here] at place
    simp only
    split_ifs
    · exact inv_at inv here id id place .rfl .rfl
    · exact inv_at inv here id id place .rfl .rfl
  | checked =>
    have next := place_checked inv here
    simp only
    split_ifs at next ⊢
    · exact inv_at inv here id id next .rfl .rfl
    · exact inv_at inv here id id next .rfl .rfl
  | locking =>
    simp only
    split_ifs with taken
    · exact inv
    · rw [here] at place
      refine inv_phase (c := .holding) inv here id id place ?_ (sem_same inv here .rfl)
      exact lock_take inv (by simpa using taken) trivial
  | holding =>
    rw [here] at place
    simp only
    split_ifs
    · exact inv_at inv here id id place.2 .rfl .rfl
    · exact inv_at inv here id id place .rfl .rfl
  | entered =>
    rw [here] at place
    simp only
    cases found : s.g.m.nodeMap s.g.m.config.name with
    | none => exact inv_at inv here id id place.2 .rfl .rfl
    | some r =>
      exact inv_at inv here id id ⟨place.1,found,place.2⟩ .rfl .rfl
  | found r => exact inv_publish inv here
  | published r => exact inv_flag inv here
  | flagged r => exact inv_bury inv here now draws
  | buried =>
    rw [here] at place
    refine inv_phase (c := .ending (some k) true) inv here id id ⟨k,place,rfl,by simp⟩ ?_
      (sem_same inv here .rfl)
    exact lock_release inv here trivial id
  | failing err =>
    rw [here] at place
    refine inv_phase (c := .refused err) inv here id id place ?_ (sem_same inv here .rfl)
    exact lock_release inv here trivial id
  | ending receipt own =>
    rw [here] at place
    refine inv_phase (c := .waiting receipt own) inv here id id place (lock_same inv here .rfl) ?_
    exact sem_release inv here trivial id
  | refused err =>
    rw [here] at place
    refine inv_phase (c := .returned false (some err)) inv here id id ?_
      (lock_same inv here .rfl) (sem_release inv here trivial id)
    exact ⟨(fun wrong => by cases wrong),fun inside => absurd inside place⟩
  | waiting receipt own =>
    rw [here] at place
    exact inv_at inv here id id (place_returned place) .rfl .rfl
  | returned own err => exact inv

theorem inv_cancel (inv : Inv s) : Inv (step s (.cancel k)) := by
  have place := inv.place k
  simp only [step]
  cases here : s.call k with
  | idle =>
    rw [here] at place
    refine inv_at inv here id id ?_ .rfl .rfl
    exact ⟨(fun wrong => by cases wrong),fun inside => absurd inside place⟩
  | locking =>
    rw [here] at place
    exact inv_at inv here id id place.2 .rfl .rfl
  | waiting receipt own =>
    rw [here] at place
    exact inv_at inv here id id (place_returned place) .rfl .rfl
  | _ => exact inv

theorem inv_interrupt (inv : Inv s) : Inv (step s (.interrupt k)) := by
  have place := inv.place k
  simp only [step]
  cases here : s.call k with
  | waiting receipt own =>
    rw [here] at place
    simp only
    split_ifs
    · exact inv_at inv here id id (place_returned place) .rfl .rfl
    · exact inv
  | _ => exact inv

theorem aside_other {o : Other} {p : Nat} : Aside (.other p) (Owns s.call s.other) (Owns s.call (update s.other p o)) := by
  intro q different
  cases q with
  | call j => rfl
  | other p' =>
    have other : p' ≠ p := fun same => different (same ▸ rfl)
    simp only [Owns,update_of_ne other]

theorem inv_other (inv : Inv s) {other : Nat → Other} {locked : Bool} (lock : Held locked (Owns s.call other)) :
    Inv { s with other := other, locked := locked } :=
  { inv with
    lock := lock
    status := by
      cases inv.status with
      | before quiet locals none commits => exact .before quiet locals none commits
      | published here locals untouched leave receipt commits => exact .published here locals untouched leave receipt commits
      | flagged here untouched leave receipt commits => exact .flagged here untouched leave receipt commits
      | after quiet locals all commits => exact .after quiet locals all commits }

theorem inv_enter (inv : Inv s) (p : Nat) (job : Job) : Inv (step s (.enter p job)) := by
  simp only [step]
  cases s.other p with
  | idle =>
    simp only
    split_ifs with taken
    · exact inv
    · have free : s.locked = false := by simpa using taken
      exact inv_other inv (held_take (free ▸ inv.lock) aside_other (by simp [Owns,OwnsOther]))
  | _ => exact inv

theorem inv_exit (inv : Inv s) (p : Nat) : Inv (step s (.exit p)) := by
  simp only [step]
  cases here : s.other p with
  | ran =>
    have owns : Owns s.call s.other (.other p) := by simp [Owns,OwnsOther,here]
    exact inv_other inv (held_release inv.lock aside_other owns (by simp [Owns,OwnsOther]))
  | _ => exact inv

/-- What a section keeps is enough for the calls that do not have nodeLock. -/
theorem place_kept {g g' : Gossiper} (kept : Kept g g') {commits : List Nat} (outside : ¬ OwnsCall c)
    (place : Place g commits k c) : Place g' commits k c := by
  cases c with
  | locking => exact ⟨kept.leave.trans place.1,place.2⟩
  | idle => exact place
  | acquired => exact place
  | checked => exact place
  | refused => exact place
  | ending => exact place
  | waiting => exact place
  | returned => exact place
  | _ => exact absurd trivial outside

theorem inv_work (inv : Inv s) (p : Nat) (draws : Nat → UInt64) : Inv (step s (.work p draws)) := by
  simp only [step]
  cases here : s.other p with
  | holding job =>
    have owns : Owns s.call s.other (.other p) := by simp [Owns,OwnsOther,here]
    have outside : ∀ j, ¬ OwnsCall (s.call j) := by
      intro j has
      have same := inv.lock.single (.call j) (.other p) has owns
      cases same
    have quiet : ∀ j, ¬ Writing (s.call j) := fun j writing => outside j (owns_of_writing writing)
    have locals : LocalInv (up s.g.m) := by
      cases inv.status with
      | before _ locals => exact locals
      | published there locals => exact locals
      | @flagged j _ there => exact absurd (by rw [there]; trivial) (quiet j)
      | after _ locals => exact locals
    have kept := kept_work inv.table locals draws job
    exact {
      table := kept.table
      lock := held_same inv.lock (aside_other (s := s)) (by simp [Owns,OwnsOther,here])
      leaveSem := inv.leaveSem
      status := by
        cases inv.status with
        | before _ _ none commits => exact .before quiet kept.locals (kept.before none) commits
        | @published j _ there => exact absurd (by rw [there]; trivial) (quiet j)
        | @flagged j _ there => exact absurd (by rw [there]; trivial) (quiet j)
        | after _ _ all commits => exact .after quiet kept.locals (kept.after all) commits
      place := fun j => place_kept kept (outside j) (inv.place j) }
  | _ => exact inv

theorem inv_shutdown (inv : Inv s) : Inv (step s .shutdown) :=
  { inv with
    table := tableWF_of_same (m := s.g.m) ⟨rfl,rfl,rfl,rfl,rfl⟩ inv.table
    status := by
      cases inv.status with
      | before quiet locals none commits =>
        exact .before quiet locals ⟨⟨none.record,none.broadcast,none.event⟩,none.leave,none.receipt⟩ commits
      | published here locals untouched leave receipt commits =>
        exact .published here locals ⟨untouched.record,untouched.broadcast,untouched.event⟩ leave receipt commits
      | flagged here untouched leave receipt commits =>
        exact .flagged here ⟨untouched.record,untouched.broadcast,untouched.event⟩ leave receipt commits
      | after quiet locals all commits =>
        exact .after quiet locals ⟨all.leave,all.receipt,all.record,all.broadcast,all.event⟩ commits }

theorem inv_step (s : State) (act : Act) (inv : Inv s) : Inv (step s act) := by
  cases act with
  | go k now draws => exact inv_go inv now draws
  | cancel k => exact inv_cancel inv
  | interrupt k => exact inv_interrupt inv
  | enter p job => exact inv_enter inv p job
  | work p draws => exact inv_work inv p draws
  | exit p => exact inv_exit inv p
  | shutdown => exact inv_shutdown inv

end

/-- As long as the node has not left, nothing says that it has. -/
structure Staying (m : Memberlist) : Prop where
  gone : Departed m
  receipt : m.leave = false → m.leaveReceipt = none
  event : m.leave = false → ownLeaves m = 0

section
variable {m m' : Memberlist} {op : Op}

theorem staying_move (wf : TableWF m) (staying : Staying m) (move : Move m op m') : Staying m' := by
  have gone := departed_move wf staying.gone move
  by_cases leaves : IsLeave op
  · have left : m'.leave = true := by
      cases move with
      | leave => rfl
      | leaveDead => rfl
      | _ => exact leaves.elim
    refine ⟨gone,fun still => ?_,fun still => ?_⟩ <;>
    · rw [left] at still
      cases still
  · obtain ⟨leave,receipt,-⟩ := flags_move leaves move
    refine ⟨gone,fun still => ?_,fun still => ?_⟩
    · exact receipt.trans (staying.receipt (leave ▸ still))
    · exact (ownLeaves_move wf staying.gone leaves move).trans (staying.event (leave ▸ still))

theorem ownLeaves_aliveKnown (m : Memberlist) (r : Ref) (a : Alive) (vsn : Versions) (updatesNode : Bool)
    (notify : Option Nat) (bootstrap : Bool) (receipt : Option Nat) (now : Time) :
    ownLeaves (aliveKnown m r a vsn updatesNode notify bootstrap receipt now) = ownLeaves m := by
  unfold aliveKnown
  dsimp only
  split_ifs
  · rfl
  · rfl
  · rfl
  · exact ownLeaves_append rfl rfl (fun e member kind => absurd kind (aliveEvent_kind member))
  · exact ownLeaves_append rfl rfl (fun e member kind => absurd kind (aliveEvent_kind member))

theorem ownLeaves_aliveNodeLocked (m : Memberlist) (a : Alive) (notify : Option Nat) (bootstrap : Bool)
    (receipt : Option Nat) (env : Env) : ownLeaves (aliveNodeLocked m a notify bootstrap receipt env) = ownLeaves m := by
  unfold aliveNodeLocked
  by_cases left : m.leave = true ∧ a.node = m.config.name
  · rw [if_pos left]
  rw [if_neg left]
  cases acceptableVsn a with
  | none => rfl
  | some vsn =>
    by_cases dropped : filtered m.config a vsn bootstrap env
    · simp only [dropped,if_true]
    simp only [dropped,if_false]
    cases found : m.nodeMap a.node with
    | none =>
      simp only
      split_ifs
      · rfl
      · exact ownLeaves_aliveKnown ..
    | some r =>
      simp only
      split_ifs
      · rfl
      · exact ownLeaves_aliveKnown ..
      · refine ownLeaves_append rfl rfl (fun e member kind => ?_)
        rw [List.mem_singleton.mp member] at kind
        cases kind
      · rfl
      · exact ownLeaves_aliveKnown ..

theorem staying_boot {a : Alive} {receipt : Option Nat} {env : Env} (staying : Staying m)
    (named : a.node = m.config.name) (made : m' = aliveNodeLocked m a none true receipt env) (boot : Boot m a m') :
    Staying m' := by
  cases flag : m.leave with
  | true =>
    rw [made,aliveNodeLocked,if_pos ⟨flag,named⟩]
    exact staying
  | false =>
    have leave : m'.leave = false := by cases boot <;> exact flag
    have receipts : m'.leaveReceipt = m.leaveReceipt := by cases boot <;> rfl
    have event : ownLeaves m' = ownLeaves m := by
      rw [made]
      exact ownLeaves_aliveNodeLocked ..
    refine ⟨fun still => ?_,fun _ => receipts.trans (staying.receipt flag),fun _ => event.trans (staying.event flag)⟩
    rw [leave] at still
    cases still

theorem staying_reachable {conf : Config} (reached : Reachable conf m) : Staying m :=
  (reachable_invariant (I := Staying)
    ⟨(fun left => by cases left),fun _ => rfl,fun _ => rfl⟩
    (fun _ staying => ⟨staying.gone,staying.receipt,staying.event⟩)
    (fun _ staying named made boot => staying_boot staying named made boot) staying_move reached).2

end

theorem inv_initial {conf : Config} {m : Memberlist} (reached : Reachable conf m)
    (alive : ∃ me, localEntry m = some me ∧ me.state = .alive) (q : BroadcastQueue) : Inv (initial m q) := by
  obtain ⟨me,held,isAlive⟩ := alive
  have staying := staying_reachable reached
  have leave : m.leave = false := by
    cases left : m.leave with
    | false => rfl
    | true =>
      have isDead := staying.gone left me held
      simp [NodeState.deadOrLeft,isAlive] at isDead
  have unsuspected : m.nodeTimers m.config.name = none := by
    cases armed : m.nodeTimers m.config.name with
    | none => rfl
    | some t =>
      obtain ⟨-,-,s,held',isSuspect,-⟩ := (Suspicions.timers_reachable reached).timer _ _ armed
      have same := held.symm.trans held'
      cases same
      rw [isAlive] at isSuspect
      cases isSuspect
  have locals : LocalInv (up (initial m q).g.m) := by
    refine ⟨rfl,fun _ => ⟨me,held,isAlive⟩,fun left => ?_,unsuspected⟩
    have still : m.leave = true := left
    rw [leave] at still
    cases still
  have before : Before (initial m q).g :=
    ⟨⟨⟨me,held,isAlive⟩,rfl,staying.event leave⟩,leave,staying.receipt leave⟩
  exact {
    table := tableWF_of_same (m := m) ⟨rfl,rfl,rfl,rfl,rfl⟩ (tableWF_reachable reached).1
    lock := held_nobody (fun p => by cases p <;> exact id)
    leaveSem := held_nobody (fun _ => id)
    status := .before (fun _ => id) locals before rfl
    place := fun k => List.not_mem_nil }

/-! ## The calls that do not commit -/

/-- A call that has begun to write. -/
def Committing : Call → Prop
  | .published _ => True
  | .flagged _ => True
  | .buried => True
  | .ending _ own => own = true
  | .waiting _ own => own = true
  | .returned own _ => own = true
  | _ => False

section
variable {s : State} {k : Nat}

theorem call_of_other {act : Act} (other : act.caller ≠ some k) : (step s act).call k = s.call k := by
  cases act with
  | go j now draws =>
    have different : k ≠ j := fun same => other (same ▸ rfl)
    simp only [step,go]
    cases s.call j with
    | entered =>
      simp only
      split <;> exact update_of_ne different ..
    | idle =>
      simp only
      split_ifs
      · rfl
      · exact update_of_ne different ..
    | locking =>
      simp only
      split_ifs
      · rfl
      · exact update_of_ne different ..
    | returned => rfl
    | _ => exact update_of_ne different ..
  | cancel j =>
    have different : k ≠ j := fun same => other (same ▸ rfl)
    simp only [step]
    split
    · exact update_of_ne different ..
    · exact update_of_ne different ..
    · exact update_of_ne different ..
    · rfl
  | interrupt j =>
    have different : k ≠ j := fun same => other (same ▸ rfl)
    simp only [step]
    split
    · split_ifs
      · exact update_of_ne different ..
      · rfl
    · rfl
  | enter p job =>
    simp only [step]
    split
    · split_ifs <;> rfl
    · rfl
  | work p draws =>
    simp only [step]
    split <;> rfl
  | exit p =>
    simp only [step]
    split <;> rfl
  | shutdown => rfl

/-- A step of a call changes nothing but where it is, or the call has begun to write. -/
theorem committing_own {act : Act} (own : act.caller = some k) :
    Committing ((step s act).call k) ∨ ¬ Committing (s.call k) ∧ (step s act).g = s.g := by
  have idle : Committing (s.call k) ∨ ¬ Committing (s.call k) ∧ s.g = s.g :=
    (Classical.em _).imp_right (fun before => ⟨before,rfl⟩)
  have moved : ∀ {receipt own} (err : Option Err), s.call k = .waiting receipt own →
      Committing ((s.moveTo k (.returned own err)).call k) ∨ ¬ Committing (s.call k) ∧ s.g = s.g := by
    intro receipt own err here
    change Committing (update s.call k (.returned own err) k) ∨ _
    rw [here,update_self]
    exact (Classical.em (own = true)).imp_right (fun before => ⟨before,rfl⟩)
  cases act with
  | go j now draws =>
    cases own
    simp only [step,go]
    cases here : s.call k with
    | entered =>
      simp only
      split <;> exact .inr ⟨id,rfl⟩
    | idle =>
      simp only
      split_ifs <;> exact .inr ⟨id,rfl⟩
    | locking =>
      simp only
      split_ifs <;> exact .inr ⟨id,rfl⟩
    | found => exact .inl (by simp [State.moveTo,Committing])
    | published => exact .inl (by simp [State.moveTo,Committing])
    | flagged => exact .inl (by simp [State.moveTo,Committing])
    | buried => exact .inl (by simp [State.moveTo,Committing])
    | ending receipt own =>
      cases own with
      | true => exact .inl (by simp [State.moveTo,Committing])
      | false => exact .inr ⟨Bool.false_ne_true,rfl⟩
    | waiting receipt own =>
      have done := moved none here
      rw [here] at done
      exact done
    | returned own err =>
      cases own with
      | true => exact .inl (by simp [here,Committing])
      | false => exact .inr ⟨Bool.false_ne_true,rfl⟩
    | _ => exact .inr ⟨id,rfl⟩
  | cancel j =>
    cases own
    simp only [step]
    split
    · rename_i here
      exact .inr ⟨here ▸ id,rfl⟩
    · rename_i here
      exact .inr ⟨here ▸ id,rfl⟩
    · rename_i here
      exact moved _ here
    · exact idle
  | interrupt j =>
    cases own
    simp only [step]
    split
    · rename_i here
      split_ifs
      · exact moved _ here
      · exact idle
    · exact idle
  | _ => cases own

end

theorem committing_back {k : Nat} (s : State) (act : Act) (last : ¬ Committing ((step s act).call k)) :
    ¬ Committing (s.call k) ∧ (act.caller = some k → (step s act).g = s.g) := by
  by_cases own : act.caller = some k
  · rcases committing_own own with wrong | ⟨before,same⟩
    · exact absurd wrong last
    · exact ⟨before,fun _ => same⟩
  · rw [call_of_other own] at last
    exact ⟨last,fun mine => absurd mine own⟩

/-- A call that finds the leave committed waits on the receipt of the call that committed. -/
theorem waits_of_left {s : State} {k : Nat} (inv : Inv s) (checked : s.call k = .checked) (left : s.g.m.leave = true)
    (now : Time) (draws : Nat → UInt64) :
    ∃ c, c ≠ k ∧ s.commits = [c] ∧ (run step s [.go k now draws,.go k now draws]).call k = .waiting (some c) false := by
  have place := inv.place k
  rw [checked] at place
  cases inv.status with
  | before _ _ none =>
    rw [none.leave] at left
    cases left
  | published _ _ _ leave =>
    rw [leave] at left
    cases left
  | flagged there => cases (commit_unique inv there trivial checked trivial).2
  | @after c _ _ all commits =>
    refine ⟨c,?_,commits,?_⟩
    · rintro rfl
      rw [commits] at place
      exact place (List.mem_singleton.mpr rfl)
    · simp [Machines.run,step,go,checked,left,State.moveTo,all.receipt]

/-- At most one call commits. Whenever nodeLock is free the leave flag, the receipt, the
    record, the broadcast and the event all say that the node has left, or none does. A call
    that has returned without a commit has changed nothing of the instance in any of its
    steps; one that finds the leave committed waits on the receipt of the call that
    committed. leaveSem is taken exactly while a call is in its commit phase. -/
theorem leave_commits_once {conf : Config} {m : Memberlist} (reached : Reachable conf m)
    (alive : ∃ me, localEntry m = some me ∧ me.state = .alive) (q : BroadcastQueue) (acts : List Act) :
    let s := run step (initial m q) acts
    s.commits.length ≤ 1 ∧
    (s.locked = false → Before s.g ∧ s.commits = [] ∨ ∃ k, After s.g k ∧ s.commits = [k]) ∧
    (∀ k err, s.call k = .returned false err → k ∉ s.commits ∧
      Along step (fun s act => act.caller = some k → (step s act).g = s.g) (initial m q) acts) ∧
    (∀ k, s.call k = .checked → s.g.m.leave = true → ∀ now draws, ∃ c, c ≠ k ∧ s.commits = [c] ∧
      (run step s [.go k now draws,.go k now draws]).call k = .waiting (some c) false) ∧
    (∀ k receipt, s.call k = .waiting receipt false → ∃ c, c ≠ k ∧ s.commits = [c] ∧ receipt = some c) ∧
    (s.leaveSem = true ↔ ∃ k, InCommit (s.call k)) := by
  intro s
  have inv : Inv s := run_keeps inv_step (inv_initial reached alive q) acts
  refine ⟨?_,fun free => ?_,fun k err returned => ?_,fun k checked left now draws => ?_,fun k receipt waiting => ?_,
    inv.leaveSem.flag_iff⟩
  · cases inv.status with
    | after _ _ _ commits => rw [commits,List.length_singleton]
    | _ => simp [*]
  · have unowned : Held false (Owns s.call s.other) := free ▸ inv.lock
    have outside : ∀ k, ¬ Writing (s.call k) := fun k writing =>
      nobody_of_held unowned (.call k) (owns_of_writing writing)
    cases inv.status with
    | before _ _ none commits => exact .inl ⟨none,commits⟩
    | @published k r here => exact absurd (by rw [here]; trivial) (outside k)
    | @flagged k r here => exact absurd (by rw [here]; trivial) (outside k)
    | @after k _ _ all commits => exact .inr ⟨k,all,commits⟩
  · have place := inv.place k
    rw [returned] at place
    have last : ¬ Committing (s.call k) := by
      rw [returned]
      exact Bool.false_ne_true
    exact ⟨fun member => Bool.false_ne_true (place.mpr member),(along_of_end (I := fun s => ¬ Committing (s.call k)) committing_back last).2⟩
  · exact waits_of_left inv checked left now draws
  · have place := inv.place k
    rw [waiting] at place
    obtain ⟨c,commits,same,own⟩ := place
    exact ⟨c,fun mine => Bool.false_ne_true (own.mpr mine),commits,same⟩

/-- Call 0 commits. Call 1 is cancelled while it waits for leaveSem, and call 2 finds the leave committed. -/
def departing : List Act :=
  let commits : Act := .go 0 5 (fun _ => 0)
  let finds : Act := .go 2 6 (fun _ => 0)
  [commits,commits,commits,commits,commits,commits,commits,commits,.cancel 1,commits,commits,commits,
    finds,finds,finds,finds]

theorem leave_commits_once_departing :
    let s := run step (initial restarted .empty) departing
    (∃ k, After s.g k ∧ s.commits = [k]) ∧ s.call 1 = .returned false (some .context) ∧ 1 ∉ s.commits ∧
      s.call 2 = .waiting (some 0) false ∧ s.leaveSem = false := by
  intro s
  have alive : ∃ me, localEntry restarted = some me ∧ me.state = .alive := ⟨_,rfl,rfl⟩
  obtain ⟨-,free,returned,-,-,-⟩ := leave_commits_once reachable_restarted alive .empty departing
  have cancelled : s.call 1 = .returned false (some .context) := by decide
  have committed : s.commits ≠ [] := by decide
  refine ⟨?_,cancelled,(returned 1 _ cancelled).1,by decide,by decide⟩
  rcases free (by decide) with ⟨-,wrong⟩ | after
  · exact absurd wrong committed
  · exact after

end Mori.Leaving
