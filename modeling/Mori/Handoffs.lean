import Mori.Machines
import Mori.Dispatch
import Mathlib.Data.List.Perm.Basic

/-!
The hand-off of packet messages. `handleCommandIn` checks and extends a queue under
`msgQueueLock` and then sends a token, which is dropped where one is pending already;
`packetHandler` receives a token and takes messages, each under the lock, until both
queues are empty. Every one of these is a step, and the steps of any number of calls of
`handleCommandIn` and of the handler come in any order.
-/
namespace Mori.Handoffs
open Mori.Net Mori.Protocol Mori.Compound Mori.Dispatch Mori.Machines Function
set_option linter.unusedSimpArgs false

section
variable (depth : Int) (msg : Handoff) (s : Inbox)

/-- The queue that a message belongs to, alive messages apart. -/
def queueOf : List Handoff := if msg.msgType = aliveMsg then s.highPriorityMsgQueue else s.lowPriorityMsgQueue

def full : Bool := depth ≤ (queueOf msg s).length

/-- What `handleCommandIn` does under `msgQueueLock`. -/
def pushBack : Inbox :=
  if full depth msg s then s.refuse (.queueFull msg.msgType)
  else if msg.msgType = aliveMsg then { s with highPriorityMsgQueue := s.highPriorityMsgQueue ++ [msg] }
  else { s with lowPriorityMsgQueue := s.lowPriorityMsgQueue ++ [msg] }

/-- The send on `handoffCh`, which holds one token. -/
def notify : Inbox := { s with handoff := true }

/-- Messages are taken from the back, alive messages first. -/
def getNextMessage : Option (Handoff × Inbox) :=
  match s.highPriorityMsgQueue.getLast? with
  | some msg => some (msg,{ s with highPriorityMsgQueue := s.highPriorityMsgQueue.dropLast })
  | none =>
    match s.lowPriorityMsgQueue.getLast? with
    | some msg => some (msg,{ s with lowPriorityMsgQueue := s.lowPriorityMsgQueue.dropLast })
    | none => none

end

/-- With nothing in between, the two steps are what a packet does to the queues. -/
theorem queueMessage_eq (recv : Receiver) (msgType : UInt8) (buf : Bytes) (s : Inbox) :
    queueMessage recv msgType buf s =
      notify (pushBack recv.settings.handoffQueueDepth ⟨msgType,buf,recv.source⟩ s) := by
  by_cases high : msgType = aliveMsg
  · simp [queueMessage,notify,pushBack,full,queueOf,high]
  · simp [queueMessage,notify,pushBack,full,queueOf,high]

/-- Everything queued. -/
def queued (s : Inbox) : List Handoff := s.highPriorityMsgQueue ++ s.lowPriorityMsgQueue

/-- Each queue is within the bound and holds its own messages. -/
structure Sorted (depth : Int) (s : Inbox) : Prop where
  highRoom : s.highPriorityMsgQueue.length ≤ depth
  lowRoom : s.lowPriorityMsgQueue.length ≤ depth
  high : ∀ msg ∈ s.highPriorityMsgQueue, msg.msgType = aliveMsg
  low : ∀ msg ∈ s.lowPriorityMsgQueue, msg.msgType ≠ aliveMsg

section
variable {depth : Int} {msg : Handoff} {s s' : Inbox}

theorem sorted_pushBack (sorted : Sorted depth s) (msg : Handoff) : Sorted depth (pushBack depth msg s) := by
  obtain ⟨highRoom,lowRoom,high,low⟩ := sorted
  unfold pushBack
  split_ifs with isFull isHigh
  · exact ⟨highRoom,lowRoom,high,low⟩
  · simp only [full,queueOf,isHigh,if_true,decide_eq_true_eq,not_le] at isFull
    refine ⟨?_,lowRoom,?_,low⟩
    · rw [List.length_append,List.length_singleton]
      omega
    · exact List.forall_mem_append.mpr ⟨high,List.forall_mem_singleton.mpr isHigh⟩
  · simp only [full,queueOf,isHigh,if_false,decide_eq_true_eq,not_le] at isFull
    refine ⟨highRoom,?_,high,?_⟩
    · rw [List.length_append,List.length_singleton]
      omega
    · exact List.forall_mem_append.mpr ⟨low,List.forall_mem_singleton.mpr isHigh⟩

/-- A message is queued once, or refused. -/
theorem queued_pushBack (depth : Int) (msg : Handoff) (s : Inbox) :
    (queued (pushBack depth msg s)).Perm (queued s ++ if full depth msg s then [] else [msg]) := by
  unfold pushBack
  split_ifs with isFull isHigh
  · rw [List.append_nil]
    exact .refl _
  · simp only [queued,List.append_assoc]
    exact List.Perm.append_left _ List.perm_append_comm
  · simp only [queued,List.append_assoc]
    exact .refl _

/-- What `getNextMessage` takes: the last alive message, or the last of the others where
    there is none. -/
theorem getNextMessage_cases (taken : getNextMessage s = some (msg,s')) :
    (∃ rest, s.highPriorityMsgQueue = rest ++ [msg] ∧ s' = { s with highPriorityMsgQueue := rest }) ∨
    (s.highPriorityMsgQueue = [] ∧
      ∃ rest, s.lowPriorityMsgQueue = rest ++ [msg] ∧ s' = { s with lowPriorityMsgQueue := rest }) := by
  unfold getNextMessage at taken
  cases high : s.highPriorityMsgQueue.getLast? with
  | some last =>
    rw [high] at taken
    cases taken
    exact .inl ⟨_,(List.dropLast_append_getLast? _ high).symm,rfl⟩
  | none =>
    rw [high] at taken
    cases low : s.lowPriorityMsgQueue.getLast? with
    | none => simp [low] at taken
    | some last =>
      rw [low] at taken
      cases taken
      exact .inr ⟨List.getLast?_eq_none_iff.mp high,_,(List.dropLast_append_getLast? _ low).symm,rfl⟩

theorem getNextMessage_none (empty : getNextMessage s = none) : queued s = [] := by
  unfold getNextMessage at empty
  cases high : s.highPriorityMsgQueue.getLast? with
  | some last => simp [high] at empty
  | none =>
    cases low : s.lowPriorityMsgQueue.getLast? with
    | some last => simp [high,low] at empty
    | none => rw [queued,List.getLast?_eq_none_iff.mp high,List.getLast?_eq_none_iff.mp low,List.append_nil]

theorem sorted_getNextMessage (sorted : Sorted depth s) (taken : getNextMessage s = some (msg,s')) : Sorted depth s' := by
  obtain ⟨highRoom,lowRoom,high,low⟩ := sorted
  rcases getNextMessage_cases taken with ⟨rest,split,rfl⟩ | ⟨-,rest,split,rfl⟩
  · rw [split] at highRoom high
    rw [List.length_append] at highRoom
    refine ⟨?_,lowRoom,(List.forall_mem_append.mp high).1,low⟩
    simp only
    omega
  · rw [split] at lowRoom low
    rw [List.length_append] at lowRoom
    refine ⟨highRoom,?_,high,(List.forall_mem_append.mp low).1⟩
    simp only
    omega

theorem queued_getNextMessage (taken : getNextMessage s = some (msg,s')) : (queued s).Perm (msg :: queued s') := by
  rcases getNextMessage_cases taken with ⟨rest,split,rfl⟩ | ⟨empty,rest,split,rfl⟩
  · simp only [queued,split,List.append_assoc,List.singleton_append]
    exact List.perm_middle
  · simp only [queued,split,empty,List.nil_append]
    exact List.perm_append_singleton msg rest

/-- Another message is taken only when no alive message is queued. -/
theorem getNextMessage_priority (sorted : Sorted depth s) (taken : getNextMessage s = some (msg,s'))
    (other : msg.msgType ≠ aliveMsg) : ∀ q ∈ queued s, q.msgType ≠ aliveMsg := by
  rcases getNextMessage_cases taken with ⟨rest,split,-⟩ | ⟨empty,-⟩
  · exact absurd (sorted.high msg (by rw [split]; exact List.mem_append_right _ List.mem_cons_self)) other
  · rw [queued,empty]
    exact sorted.low

end

/-- Where `packetHandler` is. -/
inductive Handler where
  /-- Before it receives from `handoffCh` or `shutdownCh`. -/
  | parked
  /-- Before it takes the next message. -/
  | taking
  /-- In `handleQueued`. -/
  | handling (msg : Handoff)
  | returned
deriving DecidableEq,Repr

/-- The message that is being handled. -/
def Handler.current : Handler → List Handoff
  | .handling msg => [msg]
  | _ => []

/-- The queues, those who use them and the shutdown signal: `sending` are the calls that
    have left the lock and not sent the token yet. No code reads the last two fields:
    they are the messages that were pushed, and those whose handling has ended. -/
structure State where
  inbox : Inbox := {}
  handler : Handler := .parked
  sending : Nat → Bool := fun _ => false
  shutdown : Bool := false
  pushed : List Handoff := []
  handled : List Handoff := []

inductive Act where
  | push (call : Nat) (msg : Handoff)
  | notify (call : Nat)
  | receive
  | take
  | returns
  | shutdown
  | exit
deriving DecidableEq,Repr

/-- The types that are handed off. -/
def handsOff (msgType : UInt8) : Bool := msgType ∈ [suspectMsg,aliveMsg,deadMsg,userMsg]

def push (depth : Int) (s : State) (call : Nat) (msg : Handoff) : State :=
  { s with
    inbox := pushBack depth msg s.inbox
    sending := update s.sending call true
    pushed := s.pushed ++ if full depth msg s.inbox then [] else [msg] }

def take (s : State) : State :=
  match getNextMessage s.inbox with
  | some (msg,inbox) => { s with inbox := inbox, handler := .handling msg }
  | none => { s with handler := .parked }

def step (depth : Int) (s : State) : Act → State
  | .push call msg => if s.sending call = false ∧ handsOff msg.msgType = true then push depth s call msg else s
  | .notify call =>
    if s.sending call = true then { s with inbox := notify s.inbox, sending := update s.sending call false } else s
  | .receive =>
    if s.handler = .parked ∧ s.inbox.handoff = true then
      { s with inbox := { s.inbox with handoff := false }, handler := .taking }
    else s
  | .take => if s.handler = .taking then take s else s
  | .returns =>
    match s.handler with
    | .handling msg => { s with handled := s.handled ++ [msg], handler := .taking }
    | _ => s
  | .shutdown => { s with shutdown := true }
  | .exit => if s.handler = .parked ∧ s.shutdown = true then { s with handler := .returned } else s

structure Inv (depth : Int) (s : State) : Prop where
  sorted : Sorted depth s.inbox
  once : (s.handled ++ s.handler.current ++ queued s.inbox).Perm s.pushed
  known : ∀ msg ∈ s.pushed, handsOff msg.msgType = true
  awake : s.handler = .parked → queued s.inbox ≠ [] → s.inbox.handoff = true ∨ ∃ call, s.sending call = true

theorem inv_initial {depth : Int} (bound : 0 ≤ depth) : Inv depth {} where
  sorted := ⟨bound,bound,List.forall_mem_nil _,List.forall_mem_nil _⟩
  once := .refl _
  known _ wrong := by cases wrong
  awake _ wrong := absurd rfl wrong

section
variable {depth : Int} {s : State}

theorem inv_push (inv : Inv depth s) (call : Nat) {msg : Handoff} (ours : handsOff msg.msgType = true) :
    Inv depth (push depth s call msg) where
  sorted := sorted_pushBack inv.sorted msg
  once := by
    refine ((queued_pushBack depth msg s.inbox).append_left _).trans ?_
    rw [← List.append_assoc]
    exact inv.once.append_right _
  known := by
    refine List.forall_mem_append.mpr ⟨inv.known,?_⟩
    split_ifs
    · exact fun _ wrong => absurd wrong List.not_mem_nil
    · exact List.forall_mem_singleton.mpr ours
  awake _ _ := .inr ⟨call,update_self call _ _⟩

theorem inv_notify (inv : Inv depth s) (call : Nat) :
    Inv depth { s with inbox := notify s.inbox, sending := update s.sending call false } :=
  { inv with
    sorted := ⟨inv.sorted.highRoom,inv.sorted.lowRoom,inv.sorted.high,inv.sorted.low⟩
    awake _ _ := .inl rfl }

theorem inv_receive (inv : Inv depth s) (parked : s.handler = .parked) :
    Inv depth { s with inbox := { s.inbox with handoff := false }, handler := .taking } where
  sorted := ⟨inv.sorted.highRoom,inv.sorted.lowRoom,inv.sorted.high,inv.sorted.low⟩
  once := by
    have once := inv.once
    rw [parked] at once
    exact once
  known := inv.known
  awake wrong := by cases wrong

/-- The handler takes a message, or parks when both queues are empty. -/
theorem inv_take (inv : Inv depth s) (taking : s.handler = .taking) : Inv depth (take s) := by
  obtain ⟨sorted,once,known,awake⟩ := inv
  rw [taking] at once
  unfold take
  cases taken : getNextMessage s.inbox with
  | none => exact ⟨sorted,once,known,fun _ work => absurd (getNextMessage_none taken) work⟩
  | some next =>
    obtain ⟨msg,inbox⟩ := next
    refine ⟨sorted_getNextMessage sorted taken,?_,known,fun wrong => by cases wrong⟩
    refine List.Perm.trans ?_ once
    simp only [Handler.current,List.append_assoc,List.nil_append,List.singleton_append]
    exact (queued_getNextMessage taken).symm.append_left _

theorem inv_return (inv : Inv depth s) {msg : Handoff} (handling : s.handler = .handling msg) :
    Inv depth { s with handled := s.handled ++ [msg], handler := .taking } := by
  obtain ⟨sorted,once,known,awake⟩ := inv
  rw [handling] at once
  refine ⟨sorted,?_,known,fun wrong => by cases wrong⟩
  simpa only [Handler.current,List.append_nil] using once

theorem inv_exit (inv : Inv depth s) (parked : s.handler = .parked) : Inv depth { s with handler := .returned } := by
  obtain ⟨sorted,once,known,awake⟩ := inv
  rw [parked] at once
  exact ⟨sorted,once,known,fun wrong => by cases wrong⟩

theorem inv_step (inv : Inv depth s) (a : Act) : Inv depth (step depth s a) := by
  cases a with
  | push call msg =>
    simp only [step]
    split_ifs with free
    · exact inv_push inv call free.2
    · exact inv
  | notify call =>
    simp only [step]
    split_ifs
    · exact inv_notify inv call
    · exact inv
  | receive =>
    simp only [step]
    split_ifs with ready
    · exact inv_receive inv ready.1
    · exact inv
  | take =>
    simp only [step]
    split_ifs with taking
    · exact inv_take inv taking
    · exact inv
  | returns =>
    simp only [step]
    split
    · next msg handling => exact inv_return inv handling
    · exact inv
  | shutdown => exact ⟨inv.sorted,inv.once,inv.known,inv.awake⟩
  | exit =>
    simp only [step]
    split_ifs with ready
    · exact inv_exit inv ready.1
    · exact inv

end

theorem inv_run {depth : Int} (bound : 0 ≤ depth) (acts : List Act) : Inv depth (run (step depth) {} acts) :=
  run_keeps (I := Inv depth) (fun _ a inv => inv_step inv a) (inv_initial bound) acts

/-- The hand-off neither strands messages nor exceeds its bound, in every interleaving of
    calls of `handleCommandIn` and the handler: each queue is within the depth; what was
    handled, what is being handled and what is queued is what was pushed, each message as
    often as it was pushed, and every one is of a type that `handleQueued` knows; a message
    that is not alive is taken only when no alive message is queued; and the handler is
    never parked without a token while a message is queued and no call is about to send one. -/
theorem handoff_sound {depth : Int} (bound : 0 ≤ depth) (acts : List Act) :
    let s := run (step depth) {} acts
    (s.inbox.highPriorityMsgQueue.length ≤ depth ∧ s.inbox.lowPriorityMsgQueue.length ≤ depth) ∧
    ((s.handled ++ s.handler.current ++ queued s.inbox).Perm s.pushed ∧
      ∀ msg ∈ s.pushed, msg.msgType ∈ [suspectMsg,aliveMsg,deadMsg,userMsg]) ∧
    (∀ msg inbox, getNextMessage s.inbox = some (msg,inbox) → msg.msgType ≠ aliveMsg →
      ∀ q ∈ queued s.inbox, q.msgType ≠ aliveMsg) ∧
    ¬ (s.handler = .parked ∧ s.inbox.handoff = false ∧ (∀ call, s.sending call = false) ∧ queued s.inbox ≠ []) := by
  intro s
  have inv : Inv depth s := inv_run bound acts
  refine ⟨⟨inv.sorted.highRoom,inv.sorted.lowRoom⟩,⟨inv.once,?_⟩,?_,?_⟩
  · intro msg member
    exact of_decide_eq_true (inv.known msg member)
  · exact fun msg inbox taken other => getNextMessage_priority inv.sorted taken other
  · rintro ⟨parked,none,nobody,work⟩
    rcases inv.awake parked work with token | ⟨call,sending⟩
    · rw [none] at token
      cases token
    · rw [nobody call] at sending
      cases sending

/-- A user message and an alive message wait, and a second user message finds no room. -/
def busy : List Act :=
  [.push 0 ⟨userMsg,[1],.pipe⟩,.push 1 ⟨aliveMsg,[2],.pipe⟩,.notify 1,.receive,.push 2 ⟨userMsg,[3],.pipe⟩,.take]

theorem handoff_sound_busy :
    (run (step 1) {} busy).handler = .handling ⟨aliveMsg,[2],.pipe⟩ ∧
      [⟨aliveMsg,[2],.pipe⟩,⟨userMsg,[1],.pipe⟩].Perm (run (step 1) {} busy).pushed :=
  ⟨by decide,(@handoff_sound 1 (by decide) busy).2.1.1⟩

end Mori.Handoffs
