import Mori.Machines
import Mori.Wire
import Mathlib.Data.List.Nodup

/-!
The handlers that wait for acks. Own probes, calls of `Ping` and relayed indirect pings
draw sequence numbers from one counter and store a handler for theirs in one map; timer
callbacks reap handlers, and acks take them out. Every statement of these that takes
`ackLock`, a channel, a timer or the counter is a step, and the steps of any number of
calls, of their timer callbacks and of any number of packets come in any order;
`packetListen`, which handles one packet at a time, runs some of these orders only.
-/
namespace Mori.Acks
open Mori.Net Mori.Wire Mori.Machines Function
set_option linter.unusedSimpArgs false

structure AckMessage where
  complete : Bool
  payload : Slice
  timestamp : Time
deriving DecidableEq,Repr

/-- An indirect ping request, with the text of the address that its packet came from. -/
structure Request where
  ind : IndirectPingReq
  source : Bytes
deriving DecidableEq,Repr

/-- An `Address`: where a packet is sent, and the node name. -/
structure Endpoint where
  addr : Bytes
  name : Bytes
deriving DecidableEq,Repr

def joinHostPort (host : Bytes) (port : UInt16) : Bytes :=
  (if 0x3a ∈ host then [0x5b] ++ host ++ [0x5d] else host) ++ [0x3a] ++
    (Nat.toDigits 10 port.toNat).map (fun c => c.toNat.toUInt8)

/-- Where the requester wants its answer. -/
def respondTo (req : Request) : Endpoint where
  addr :=
    if 0 < (bytes req.ind.sourceAddr).length ∧ 0 < req.ind.sourcePort then
      joinHostPort (ipString (bytes req.ind.sourceAddr)) req.ind.sourcePort
    else req.source
  name := req.ind.sourceNode

/-- What waits for an ack: `probeNode`, `Ping` or `handleIndirectPing`. -/
inductive Task where
  | probe
  | ping
  | relay (req : Request)
deriving DecidableEq,Repr

/-- Where such a call is. -/
inductive Stage where
  | idle
  /-- It has drawn its sequence number. -/
  | drawn
  /-- In `setProbeChannels`: the timer runs; before the handler is stored. -/
  | started
  /-- In `setAckHandler`: the handler is stored; before the timer runs. -/
  | stored
  /-- Before it sends the ping. -/
  | pinging
  /-- Before it receives from the ack channel or `ProbeTimeout` is over. -/
  | selecting
  /-- Before it puts the message back into the ack channel. -/
  | requeueing (v : AckMessage)
  /-- After the indirect pings; before it receives from the ack channel. -/
  | waiting
  | returned
deriving DecidableEq,Repr

/-- Where the timer of a handler is. -/
inductive Timer where
  | unset
  | running
  /-- In its callback, before it takes `ackLock`. -/
  | fired
  /-- In the callback of `setProbeChannels`, before it sends its message. -/
  | reaped
  | stopped
  | over
deriving DecidableEq,Repr

/-- Where the goroutine is that sends a nack to the requester. -/
inductive Nacker where
  | off
  | waiting
  | sent
  | cancelled
deriving DecidableEq,Repr

/-- How the send of a ping ends. -/
inductive PingResult where
  | sent
  | remoteFailure
  | otherFailure
deriving DecidableEq,Repr

/-- A call and what it has made: `cancelled` tells that `cancelCh` is closed. -/
structure Owner where
  stage : Stage := .idle
  timer : Timer := .unset
  ackCh : List AckMessage := []
  nackCh : Nat := 0
  cancelled : Bool := false
  nacker : Nacker := .off
deriving DecidableEq,Repr

/-- What a call, its timer or its nack does without the map and the counter. -/
inductive Move where
  | startTimer
  | ping (result : PingResult)
  | receive
  | timeOut
  | requeue
  | fire
  | expire (now : Time)
  | nack
  | cancelNack
deriving DecidableEq,Repr

/-- The call is about to store its handler. -/
def stores : Task → Stage → Bool
  | .relay _,.drawn => true
  | .probe,.started => true
  | .ping,.started => true
  | _,_ => false

def afterStore : Task → Stage
  | .relay _ => .stored
  | _ => .pinging

def afterPing : Task → PingResult → Stage
  | .probe,.sent => .selecting
  | .probe,.remoteFailure => .waiting
  | .ping,.sent => .selecting
  | _,_ => .returned

def afterReceive (v : AckMessage) : Task → Stage
  | .probe => if v.complete then .returned else .requeueing v
  | _ => .returned

def afterTimeOut : Task → Stage
  | .probe => .waiting
  | _ => .returned

/-- Only the callback of `setProbeChannels` sends a message. -/
def afterReap : Task → Timer
  | .relay _ => .over
  | _ => .reaped

def nackerOf : Task → Nacker
  | .relay req => if req.ind.nack then .waiting else .off
  | _ => .off

namespace Owner
variable (indirectChecks : Nat) (task : Task) (o : Owner)

/-- A send that is dropped where the ack channel is full. -/
def send (v : AckMessage) : Owner := if o.ackCh.length < indirectChecks + 1 then { o with ackCh := o.ackCh ++ [v] } else o

def startTimer : Owner :=
  match task with
  | .relay _ => if o.stage = .stored then { o with timer := .running, stage := .pinging } else o
  | _ => if o.stage = .drawn then { o with timer := .running, stage := .started } else o

def receive : Owner :=
  match o.stage,o.ackCh with
  | .selecting,v :: rest => { o with ackCh := rest, stage := afterReceive v task }
  | .waiting,_ :: rest => { o with ackCh := rest, stage := .returned }
  | _,_ => o

/-- This send waits for a free slot. -/
def requeue : Owner :=
  match o.stage with
  | .requeueing v =>
    if o.ackCh.length < indirectChecks + 1 then { o with ackCh := o.ackCh ++ [v], stage := .waiting } else o
  | _ => o

def move : Move → Owner
  | .startTimer => o.startTimer task
  | .ping result =>
    if o.stage = .pinging then { o with stage := afterPing task result, nacker := nackerOf task } else o
  | .receive => o.receive task
  | .timeOut => if o.stage = .selecting then { o with stage := afterTimeOut task } else o
  | .requeue => o.requeue indirectChecks
  | .fire => if o.timer = .running then { o with timer := .fired } else o
  | .expire now => if o.timer = .reaped then { o.send indirectChecks ⟨false,none,now⟩ with timer := .over } else o
  | .nack => if o.nacker = .waiting then { o with nacker := .sent } else o
  | .cancelNack => if o.nacker = .waiting ∧ o.cancelled = true then { o with nacker := .cancelled } else o

/-- `Stop` keeps a timer from firing, and does nothing where it has fired. -/
def stopTimer : Owner := if o.timer = .running then { o with timer := .stopped } else o

end Owner

/-- Where the handling of a packet with an ack or a nack is. -/
inductive Packet where
  | idle
  /-- In `invokeAckHandler`: it has taken a handler out of the map. -/
  | found (i : Nat) (ack : AckResp) (timestamp : Time)
  /-- It has stopped the timer; before it calls the handler. -/
  | stopped (i : Nat) (ack : AckResp) (timestamp : Time)
  /-- In the handler of a relay: it has closed `cancelCh`. -/
  | forwarding (i : Nat)
  /-- In `invokeNackHandler`: before it calls the handler. -/
  | nacking (i : Nat)
  | done
  /-- It has dereferenced a timer that was not set. -/
  | nilTimer
  /-- It has closed a closed channel. -/
  | closedTwice
deriving DecidableEq,Repr

/-- The handler of a call: not there yet, in the map at some time, taken out by a
    packet, called by that packet, done with. -/
inductive Place where
  | unused
  | drawn
  | mapped
  | taken (p : Nat)
  | called (p : Nat)
  | over
deriving DecidableEq,Repr

/-- A packet with an ack has called a handler. -/
structure Trigger where
  packet : Nat
  number : UInt32
  owner : Nat
deriving DecidableEq,Repr

/-- An ack that was forwarded. -/
structure Sent where
  owner : Nat
  dest : Endpoint
  ack : AckResp
deriving DecidableEq,Repr

/-- The counter, the map from numbers to handlers, the calls that own them, and the
    packets. No code reads the last five fields: they count the numbers that were drawn,
    in all and up to that of each call, follow each handler, and list the handlers that
    were called and the acks that were forwarded. -/
structure State where
  sequenceNum : UInt32 := 0
  ackHandlers : UInt32 → Option Nat := fun _ => none
  task : Nat → Task := fun _ => .probe
  seqNo : Nat → UInt32 := fun _ => 0
  owner : Nat → Owner := fun _ => {}
  packet : Nat → Packet := fun _ => .idle
  drawn : Nat := 0
  ticket : Nat → Nat := fun _ => 0
  place : Nat → Place := fun _ => .unused
  triggered : List Trigger := []
  sent : List Sent := []

inductive Act where
  | call (i : Nat) (task : Task)
  | own (i : Nat) (move : Move)
  | store (i : Nat)
  | reap (i : Nat)
  | lookUp (p : Nat) (ack : AckResp) (timestamp : Time)
  | stop (p : Nat)
  | invoke (p : Nat)
  | forward (p : Nat)
  | lookUpNack (p : Nat) (nack : NackResp)
  | invokeNack (p : Nat)
deriving DecidableEq,Repr

section
variable (indirectChecks : Nat) (s : State) (i p : Nat)

/-- `nextSeqNo` of a call that begins. -/
def call (task : Task) : State :=
  { s with
    sequenceNum := s.sequenceNum + 1
    task := update s.task i task
    seqNo := update s.seqNo i (s.sequenceNum + 1)
    owner := update s.owner i { stage := .drawn }
    drawn := s.drawn + 1
    ticket := update s.ticket i (s.drawn + 1)
    place := update s.place i .drawn }

def store : State :=
  { s with
    ackHandlers := update s.ackHandlers (s.seqNo i) (some i)
    owner := update s.owner i { s.owner i with stage := afterStore (s.task i) }
    place := update s.place i .mapped }

/-- What a timer callback does under `ackLock`. -/
def reap : State :=
  { s with
    ackHandlers := update s.ackHandlers (s.seqNo i) none
    owner := update s.owner i { s.owner i with timer := afterReap (s.task i) } }

def goOn (x : Packet) : State := { s with packet := update s.packet p x }

/-- The packet takes the handler of call `i` out of the map. -/
def take (ack : AckResp) (timestamp : Time) : State :=
  { s with
    ackHandlers := update s.ackHandlers ack.seqNo none
    packet := update s.packet p (.found i ack timestamp)
    place := update s.place i (.taken p) }

/-- What `invokeAckHandler` does under `ackLock`. -/
def lookUp (ack : AckResp) (timestamp : Time) : State :=
  match s.ackHandlers ack.seqNo with
  | some i => take s i p ack timestamp
  | none => goOn s p .done

def stopTimer (ack : AckResp) (timestamp : Time) : State :=
  { s with
    owner := update s.owner i (s.owner i).stopTimer
    packet := update s.packet p (.stopped i ack timestamp) }

def stop (ack : AckResp) (timestamp : Time) : State :=
  if (s.owner i).timer = .unset then goOn s p .nilTimer else stopTimer s i p ack timestamp

/-- The handler of a probe sends a message. -/
def answer (ack : AckResp) (timestamp : Time) : State :=
  { s with
    owner := update s.owner i ((s.owner i).send indirectChecks ⟨true,ack.payload,timestamp⟩)
    packet := update s.packet p .done
    place := update s.place i .over
    triggered := s.triggered ++ [⟨p,ack.seqNo,i⟩] }

/-- The handler of a relay closes `cancelCh`. -/
def close (ack : AckResp) : State :=
  { s with
    owner := update s.owner i { s.owner i with cancelled := true }
    packet := update s.packet p (.forwarding i)
    place := update s.place i (.called p)
    triggered := s.triggered ++ [⟨p,ack.seqNo,i⟩] }

/-- The call of the handler. -/
def invoke (ack : AckResp) (timestamp : Time) : State :=
  match s.task i with
  | .relay _ => if (s.owner i).cancelled then goOn s p .closedTwice else close s i p ack
  | _ => answer indirectChecks s i p ack timestamp

/-- The ack that answers a request. -/
def forwarded : Task → List Sent
  | .relay req => [⟨i,respondTo req,{ seqNo := req.ind.seqNo }⟩]
  | _ => []

def forward : State :=
  { s with
    packet := update s.packet p .done
    place := update s.place i .over
    sent := s.sent ++ forwarded i (s.task i) }

/-- The handler of a relay has no function for nacks. -/
def lookUpNack (nack : NackResp) : State :=
  match s.ackHandlers nack.seqNo with
  | some i =>
    match s.task i with
    | .relay _ => goOn s p .done
    | _ => goOn s p (.nacking i)
  | none => goOn s p .done

/-- A send that is dropped where the channel is full; `Ping` has none. -/
def invokeNack : State :=
  let room := decide (s.task i = .probe ∧ (s.owner i).nackCh < indirectChecks + 1)
  { s with
    owner := update s.owner i { s.owner i with nackCh := (s.owner i).nackCh + if room then 1 else 0 }
    packet := update s.packet p .done }

end

def step (indirectChecks : Nat) (s : State) : Act → State
  | .call i task => if (s.owner i).stage = .idle then call s i task else s
  | .own i move => { s with owner := update s.owner i ((s.owner i).move indirectChecks (s.task i) move) }
  | .store i => if stores (s.task i) (s.owner i).stage = true then store s i else s
  | .reap i => if (s.owner i).timer = .fired then reap s i else s
  | .lookUp p ack timestamp => if s.packet p = .idle then lookUp s p ack timestamp else s
  | .stop p =>
    match s.packet p with
    | .found i ack timestamp => stop s i p ack timestamp
    | _ => s
  | .invoke p =>
    match s.packet p with
    | .stopped i ack timestamp => invoke indirectChecks s i p ack timestamp
    | _ => s
  | .forward p =>
    match s.packet p with
    | .forwarding i => forward s i p
    | _ => s
  | .lookUpNack p nack => if s.packet p = .idle then lookUpNack s p nack else s
  | .invokeNack p =>
    match s.packet p with
    | .nacking i => invokeNack indirectChecks s i p
    | _ => s

/-- The steps that are possible in a state, and what they lead to. -/
inductive Did (indirectChecks : Nat) (s : State) : Act → State → Prop
  | nothing {a : Act} : Did indirectChecks s a s
  | call {i : Nat} (task : Task) (idle : (s.owner i).stage = .idle) : Did indirectChecks s (.call i task) (call s i task)
  | own (i : Nat) (move : Move) : Did indirectChecks s (.own i move)
      { s with owner := update s.owner i ((s.owner i).move indirectChecks (s.task i) move) }
  | store {i : Nat} (now : stores (s.task i) (s.owner i).stage = true) : Did indirectChecks s (.store i) (store s i)
  | reap {i : Nat} (fired : (s.owner i).timer = .fired) : Did indirectChecks s (.reap i) (reap s i)
  | take {i p : Nat} {ack : AckResp} (timestamp : Time) (idle : s.packet p = .idle)
      (held : s.ackHandlers ack.seqNo = some i) :
      Did indirectChecks s (.lookUp p ack timestamp) (take s i p ack timestamp)
  | miss {a : Act} {p : Nat} (idle : s.packet p = .idle) : Did indirectChecks s a (goOn s p .done)
  | nilTimer {i p : Nat} {ack : AckResp} {timestamp : Time} (found : s.packet p = .found i ack timestamp)
      (unset : (s.owner i).timer = .unset) : Did indirectChecks s (.stop p) (goOn s p .nilTimer)
  | stopTimer {i p : Nat} {ack : AckResp} {timestamp : Time} (found : s.packet p = .found i ack timestamp)
      (set : (s.owner i).timer ≠ .unset) : Did indirectChecks s (.stop p) (stopTimer s i p ack timestamp)
  | answer {i p : Nat} {ack : AckResp} {timestamp : Time} (stopped : s.packet p = .stopped i ack timestamp) :
      Did indirectChecks s (.invoke p) (answer indirectChecks s i p ack timestamp)
  | close {i p : Nat} {ack : AckResp} {timestamp : Time} (stopped : s.packet p = .stopped i ack timestamp) :
      Did indirectChecks s (.invoke p) (close s i p ack)
  | closeTwice {i p : Nat} {ack : AckResp} {timestamp : Time} (stopped : s.packet p = .stopped i ack timestamp)
      (cancelled : (s.owner i).cancelled = true) : Did indirectChecks s (.invoke p) (goOn s p .closedTwice)
  | forward {i p : Nat} (forwarding : s.packet p = .forwarding i) : Did indirectChecks s (.forward p) (forward s i p)
  | nack {i p : Nat} (nack : NackResp) (idle : s.packet p = .idle) :
      Did indirectChecks s (.lookUpNack p nack) (goOn s p (.nacking i))
  | invokeNack {i p : Nat} (nacking : s.packet p = .nacking i) :
      Did indirectChecks s (.invokeNack p) (invokeNack indirectChecks s i p)

theorem did_step (indirectChecks : Nat) (s : State) (a : Act) : Did indirectChecks s a (step indirectChecks s a) := by
  cases a with
  | call i task =>
    simp only [step]
    split_ifs with idle
    · exact .call task idle
    · exact .nothing
  | own i move => exact .own i move
  | store i =>
    simp only [step]
    split_ifs with now
    · exact .store now
    · exact .nothing
  | reap i =>
    simp only [step]
    split_ifs with fired
    · exact .reap fired
    · exact .nothing
  | lookUp p ack timestamp =>
    simp only [step,lookUp]
    split_ifs with idle
    · split
      · next held => exact .take timestamp idle held
      · exact .miss idle
    · exact .nothing
  | stop p =>
    simp only [step]
    split
    · next found =>
      simp only [stop]
      split_ifs with unset
      · exact .nilTimer found unset
      · exact .stopTimer found unset
    · exact .nothing
  | invoke p =>
    simp only [step]
    split
    · next stopped =>
      simp only [invoke]
      split
      · split_ifs with cancelled
        · exact .closeTwice stopped cancelled
        · exact .close stopped
      · exact .answer stopped
    · exact .nothing
  | forward p =>
    simp only [step]
    split
    · next forwarding => exact .forward forwarding
    · exact .nothing
  | lookUpNack p nack =>
    simp only [step,lookUpNack]
    split_ifs with idle
    · split
      · split
        · exact .miss idle
        · exact .nack nack idle
      · exact .miss idle
    · exact .nothing
  | invokeNack p =>
    simp only [step]
    split
    · next nacking => exact .invokeNack nacking
    · exact .nothing

/-! ## What every step keeps -/

/-- The message that waits to be put back. -/
def Stage.inHand : Stage → Nat
  | .requeueing _ => 1
  | _ => 0

/-- The call has stored its handler and started the timer. -/
def Stage.registered : Stage → Bool
  | .idle => false
  | .drawn => false
  | .started => false
  | .stored => false
  | _ => true

def Place.isCalled : Place → Bool
  | .called _ => true
  | .over => true
  | _ => false

/-- A call, given the place of its handler. At most one message in the ack channel
    is an ack, and at most one is that of the timer. -/
structure Sound (place : Place) (o : Owner) : Prop where
  unused : o.stage = .idle → place = .unused
  early : o.stage = .drawn ∨ o.stage = .started → place = .drawn
  untimed : o.stage = .drawn ∨ o.stage = .stored → o.timer = .unset
  answers : o.ackCh.countP (·.complete) ≤ if place = .over then 1 else 0
  expiries : o.ackCh.countP (!·.complete) + o.stage.inHand ≤ if o.timer = .over then 1 else 0
  hand : ∀ v, o.stage = .requeueing v → v.complete = false
  closed : o.cancelled = true → place.isCalled = true

section
variable {indirectChecks : Nat} {task : Task} {place : Place} {o : Owner}

theorem countP_send (indirectChecks : Nat) (o : Owner) (v : AckMessage) (q : AckMessage → Bool) :
    (o.send indirectChecks v).ackCh.countP q ≤ o.ackCh.countP q + if q v then 1 else 0 := by
  unfold Owner.send
  split_ifs <;> simp [*]

theorem send_same (o : Owner) (v : AckMessage) : o.send indirectChecks v = { o with ackCh := (o.send indirectChecks v).ackCh } := by
  unfold Owner.send
  split_ifs <;> rfl

/-- What a move can do to the stage of a call and to its timer. -/
inductive Moved (o o' : Owner) : Prop
  | same (stage : o'.stage = o.stage) (timer : o'.timer = o.timer)
  | starts (stage : o.stage = .drawn ∧ o'.stage = .started ∨ o.stage = .stored ∧ o'.stage = .pinging)
      (timer : o'.timer = .running)
  | goesOn (before : o.stage.registered = true) (after : o'.stage.registered = true) (timer : o'.timer = o.timer)
  | fires (stage : o'.stage = o.stage) (before : o.timer = .running) (after : o'.timer = .fired)
  | expires (stage : o'.stage = o.stage) (before : o.timer = .reaped) (after : o'.timer = .over)

theorem moved_receive (o : Owner) : Moved o (o.receive task) := by
  unfold Owner.receive
  split
  · next v rest selecting held =>
    refine .goesOn (by rw [selecting]; rfl) ?_ rfl
    cases task <;> simp only [afterReceive]
    · split_ifs <;> rfl
    · rfl
    · rfl
  · next waiting held => exact .goesOn (by rw [waiting]; rfl) rfl rfl
  · exact .same rfl rfl

theorem moved_move (indirectChecks : Nat) (task : Task) (o : Owner) (move : Move) :
    Moved o (o.move indirectChecks task move) := by
  cases move with
  | startTimer =>
    simp only [Owner.move,Owner.startTimer]
    split <;> split_ifs with here
    · exact .starts (.inr ⟨here,rfl⟩) rfl
    · exact .same rfl rfl
    · exact .starts (.inl ⟨here,rfl⟩) rfl
    · exact .same rfl rfl
  | ping result =>
    simp only [Owner.move]
    split_ifs with here
    · refine .goesOn (by rw [here]; rfl) ?_ rfl
      cases task <;> cases result <;> rfl
    · exact .same rfl rfl
  | receive => exact moved_receive o
  | timeOut =>
    simp only [Owner.move]
    split_ifs with here
    · refine .goesOn (by rw [here]; rfl) ?_ rfl
      cases task <;> rfl
    · exact .same rfl rfl
  | requeue =>
    simp only [Owner.move,Owner.requeue]
    split
    · next v requeueing =>
      split_ifs
      · exact .goesOn (by rw [requeueing]; rfl) rfl rfl
      · exact .same rfl rfl
    · exact .same rfl rfl
  | fire =>
    simp only [Owner.move]
    split_ifs with running
    · exact .fires rfl running rfl
    · exact .same rfl rfl
  | expire now =>
    simp only [Owner.move]
    split_ifs with reaped
    · rw [send_same]
      exact .expires rfl reaped rfl
    · exact .same rfl rfl
  | nack =>
    simp only [Owner.move]
    split_ifs <;> exact .same rfl rfl
  | cancelNack =>
    simp only [Owner.move]
    split_ifs <;> exact .same rfl rfl

/-- A call that has registered its handler goes on, and its channel changes. -/
theorem sound_registered (sound : Sound place o) {stage : Stage} (registered : stage.registered = true)
    {ackCh : List AckMessage} (answers : ackCh.countP (·.complete) ≤ if place = .over then 1 else 0)
    (expiries : ackCh.countP (!·.complete) + stage.inHand ≤ if o.timer = .over then 1 else 0)
    (hand : ∀ v, stage = .requeueing v → v.complete = false) :
    Sound place { o with stage := stage, ackCh := ackCh } where
  unused idle := by
    cases show stage = .idle from idle
    cases registered
  early first := by
    rcases first with is | is
    · cases show stage = .drawn from is
      cases registered
    · cases show stage = .started from is
      cases registered
  untimed first := by
    rcases first with is | is
    · cases show stage = .drawn from is
      cases registered
    · cases show stage = .stored from is
      cases registered
  answers := answers
  expiries := expiries
  hand := hand
  closed := sound.closed

theorem sound_goOn (sound : Sound place o) {stage : Stage} (registered : stage.registered = true)
    (empty : stage.inHand = 0) : Sound place { o with stage := stage } := by
  refine sound_registered sound registered sound.answers ?_ (fun v is => ?_)
  · rw [empty]
    exact (Nat.le_add_right _ _).trans sound.expiries
  · rw [is] at empty
    cases empty

theorem sound_timer (sound : Sound place o) {timer : Timer} (running : o.timer ≠ .unset) (before : o.timer ≠ .over) :
    Sound place { o with timer := timer } :=
  { sound with
    untimed early := absurd (sound.untimed early) running
    expiries := by
      have expiries := sound.expiries
      rw [if_neg before] at expiries
      exact expiries.trans (Nat.zero_le _) }

theorem unsent_of_timer (sound : Sound place o) (before : o.timer ≠ .over) : o.ackCh.countP (!·.complete) = 0 := by
  have expiries := sound.expiries
  rw [if_neg before] at expiries
  omega

/-- The timer starts as its call goes on to a stage where it waits for nothing yet. -/
theorem sound_started (sound : Sound place o) (untimed : o.timer = .unset) {stage : Stage}
    (next : stage = .pinging ∨ stage = .started ∧ place = .drawn) :
    Sound place { o with timer := .running, stage := stage } := by
  have unsent := unsent_of_timer sound (by simp [untimed])
  rcases next with rfl | ⟨rfl,drawn⟩
  · refine ⟨?_,?_,?_,sound.answers,?_,?_,sound.closed⟩ <;> simp [unsent,Stage.inHand]
  · refine ⟨?_,?_,?_,sound.answers,?_,?_,sound.closed⟩ <;> simp [unsent,Stage.inHand,drawn]

theorem sound_startTimer (sound : Sound place o) : Sound place (o.startTimer task) := by
  unfold Owner.startTimer
  split
  · split_ifs with here
    · exact sound_started sound (sound.untimed (.inr here)) (.inl rfl)
    · exact sound
  · split_ifs with here
    · exact sound_started sound (sound.untimed (.inl here)) (.inr ⟨rfl,sound.early (.inl here)⟩)
    · exact sound

theorem sound_pop (sound : Sound place o) {v : AckMessage} {rest : List AckMessage} (held : o.ackCh = v :: rest) :
    Sound place { o with ackCh := rest } := by
  have answers := sound.answers
  have expiries := sound.expiries
  rw [held,List.countP_cons] at answers expiries
  refine ⟨sound.unused,sound.early,sound.untimed,?_,?_,sound.hand,sound.closed⟩
  · exact (Nat.le_add_right ..).trans answers
  · simp only
    omega

theorem sound_receive (sound : Sound place o) : Sound place (o.receive task) := by
  unfold Owner.receive
  split
  · next v rest selecting held =>
    cases task with
    | probe =>
      by_cases complete : v.complete = true
      · simp only [afterReceive,complete,if_true]
        exact sound_goOn (sound_pop sound held) rfl rfl
      · -- The timer's message moves from the channel to the hands of the call.
        simp only [afterReceive,complete,if_false,Bool.false_eq_true]
        have expiries := sound.expiries
        simp only [held,selecting,Stage.inHand,List.countP_cons,complete] at expiries
        refine sound_registered sound rfl (sound_pop sound held).answers ?_ ?_
        · simpa [Stage.inHand] using expiries
        · rintro w same
          cases same
          simpa using complete
    | ping => exact sound_goOn (sound_pop sound held) rfl rfl
    | relay => exact sound_goOn (sound_pop sound held) rfl rfl
  · next held => exact sound_goOn (sound_pop sound held) rfl rfl
  · exact sound

theorem sound_requeue (sound : Sound place o) : Sound place (o.requeue indirectChecks) := by
  unfold Owner.requeue
  split
  · next v requeueing =>
    split_ifs
    · have expired := sound.hand v requeueing
      have expiries := sound.expiries
      simp only [requeueing,Stage.inHand] at expiries
      refine sound_registered sound rfl ?_ ?_ ?_
      · simpa [List.countP_append,expired] using sound.answers
      · simpa [List.countP_append,expired,Stage.inHand] using expiries
      · exact fun _ wrong => by cases wrong
    · exact sound
  · exact sound

theorem sound_expire (sound : Sound place o) (reaped : o.timer = .reaped) (now : Time) :
    Sound place { o.send indirectChecks ⟨false,none,now⟩ with timer := .over } := by
  have unsent := sound.expiries
  rw [if_neg (by simp [reaped])] at unsent
  have answers := countP_send indirectChecks o ⟨false,none,now⟩ (·.complete)
  have expiries := countP_send indirectChecks o ⟨false,none,now⟩ (!·.complete)
  rw [send_same]
  refine ⟨sound.unused,sound.early,fun early => ?_,answers.trans sound.answers,?_,sound.hand,sound.closed⟩
  · exact absurd (sound.untimed early) (by simp [reaped])
  · simp only [Bool.not_false,if_true] at expiries ⊢
    omega

theorem sound_move (sound : Sound place o) (move : Move) : Sound place (o.move indirectChecks task move) := by
  cases move with
  | startTimer => exact sound_startTimer sound
  | ping result =>
    simp only [Owner.move]
    split_ifs with here
    · have next : (afterPing task result).registered = true ∧ (afterPing task result).inHand = 0 := by
        cases task <;> cases result <;> exact ⟨rfl,rfl⟩
      have went := sound_goOn sound next.1 next.2
      exact ⟨went.unused,went.early,went.untimed,went.answers,went.expiries,went.hand,went.closed⟩
    · exact sound
  | receive => exact sound_receive sound
  | timeOut =>
    simp only [Owner.move]
    split_ifs
    · cases task <;> exact sound_goOn sound rfl rfl
    · exact sound
  | requeue => exact sound_requeue sound
  | fire =>
    simp only [Owner.move]
    split_ifs with here
    · exact sound_timer sound (by simp [here]) (by simp [here])
    · exact sound
  | expire now =>
    simp only [Owner.move]
    split_ifs with reaped
    · exact sound_expire sound reaped now
    · exact sound
  | nack =>
    simp only [Owner.move]
    split_ifs
    · exact ⟨sound.unused,sound.early,sound.untimed,sound.answers,sound.expiries,sound.hand,sound.closed⟩
    · exact sound
  | cancelNack =>
    simp only [Owner.move]
    split_ifs
    · exact ⟨sound.unused,sound.early,sound.untimed,sound.answers,sound.expiries,sound.hand,sound.closed⟩
    · exact sound

end

/-- A handler was called by the packet, or is being called. -/
def Packet.ended : Packet → Bool
  | .forwarding _ => true
  | .done => true
  | _ => false

/-- What a packet is at: the handler that it has taken is its own, and under its number. -/
def Handling (s : State) (p : Nat) : Packet → Prop
  | .found i ack _ => s.place i = .taken p ∧ s.seqNo i = ack.seqNo
  | .stopped i ack _ => s.place i = .taken p ∧ s.seqNo i = ack.seqNo
  | .forwarding i => s.place i = .called p
  | .closedTwice => False
  | _ => True

/-- The ack answers the request of its call, and goes to the requester. -/
def Answers (s : State) (e : Sent) : Prop :=
  ∃ req, s.task e.owner = .relay req ∧ e.dest = respondTo req ∧ e.ack = { seqNo := req.ind.seqNo }

/-- Each handler is in one place: in the map under its own number, with one packet, or
    in the list of those that were called. -/
structure Links (s : State) : Prop where
  mapped : ∀ q i, s.ackHandlers q = some i → s.place i = .mapped ∧ s.seqNo i = q
  packets : ∀ p, Handling s p (s.packet p)
  packetOnce : (s.triggered.map Trigger.packet).Nodup
  ownerOnce : (s.triggered.map Trigger.owner).Nodup
  called : ∀ t ∈ s.triggered, (s.place t.owner).isCalled = true ∧ s.seqNo t.owner = t.number
  ended : ∀ t ∈ s.triggered, (s.packet t.packet).ended = true
  sentOnce : (s.sent.map Sent.owner).Nodup
  sent : ∀ e ∈ s.sent, s.place e.owner = .over ∧ Answers s e

/-- Of all handlers only that of call `i` has moved. -/
structure Only (i : Nat) (s s' : State) : Prop where
  place : ∀ j, j ≠ i → s'.place j = s.place j
  seqNo : ∀ j, j ≠ i → s'.seqNo j = s.seqNo j
  task : ∀ j, j ≠ i → s'.task j = s.task j

section
variable {indirectChecks : Nat} {s s' : State} {i p : Nat}

theorem handling_only (only : Only i s s') {x : Packet} (handling : Handling s p x) (notTaken : s.place i ≠ .taken p)
    (notCalled : s.place i ≠ .called p) : Handling s' p x := by
  have other : ∀ j, s.place j = .taken p ∨ s.place j = .called p → j ≠ i := by
    rintro j (taken | called) rfl
    · exact notTaken taken
    · exact notCalled called
  cases x with
  | found j ack timestamp =>
    have ne := other j (.inl handling.1)
    exact ⟨(only.place j ne).trans handling.1,(only.seqNo j ne).trans handling.2⟩
  | stopped j ack timestamp =>
    have ne := other j (.inl handling.1)
    exact ⟨(only.place j ne).trans handling.1,(only.seqNo j ne).trans handling.2⟩
  | forwarding j => exact (only.place j (other j (.inr handling))).trans handling
  | closedTwice => exact handling
  | _ => trivial

theorem mapped_only (only : Only i s s') (links : Links s) (free : s.place i ≠ .mapped) {q : UInt32} {j : Nat}
    (held : s.ackHandlers q = some j) : s'.place j = .mapped ∧ s'.seqNo j = q := by
  obtain ⟨place,number⟩ := links.mapped q j held
  have ne : j ≠ i := by
    rintro rfl
    exact free place
  exact ⟨(only.place j ne).trans place,(only.seqNo j ne).trans number⟩

theorem called_only (only : Only i s s') (links : Links s) (free : (s.place i).isCalled = false) {t : Trigger}
    (member : t ∈ s.triggered) : (s'.place t.owner).isCalled = true ∧ s'.seqNo t.owner = t.number := by
  obtain ⟨place,number⟩ := links.called t member
  have ne : t.owner ≠ i := by
    intro same
    rw [same,free] at place
    cases place
  exact ⟨(congrArg Place.isCalled (only.place _ ne)).trans place,(only.seqNo _ ne).trans number⟩

theorem sent_only (only : Only i s s') (links : Links s) (free : s.place i ≠ .over) {e : Sent} (member : e ∈ s.sent) :
    s'.place e.owner = .over ∧ Answers s' e := by
  obtain ⟨place,req,task,answer⟩ := links.sent e member
  have ne : e.owner ≠ i := by
    intro same
    rw [same] at place
    exact free place
  exact ⟨(only.place _ ne).trans place,req,(only.task _ ne).trans task,answer⟩

/-- A packet that had called nobody goes on, or one goes on that has. -/
theorem ended_update (links : Links s) {x : Packet} (next : (s.packet p).ended = true → x.ended = true) :
    ∀ t ∈ s.triggered, (update s.packet p x t.packet).ended = true := by
  intro t member
  have ended := links.ended t member
  by_cases same : t.packet = p
  · rw [same,update_self]
    rw [same] at ended
    exact next ended
  · rw [update_of_ne same]
    exact ended

theorem links_call (links : Links s) (unused : s.place i = .unused) (task : Task) : Links (call s i task) := by
  have only : Only i s (call s i task) :=
    ⟨fun j ne => update_of_ne ne .. ,fun j ne => update_of_ne ne ..,fun j ne => update_of_ne ne ..⟩
  refine ⟨fun q j held => ?_,fun p => ?_,links.packetOnce,links.ownerOnce,fun t member => ?_,links.ended,links.sentOnce,
    fun e member => ?_⟩
  · exact mapped_only only links (by simp [unused]) held
  · exact handling_only only (links.packets p) (by simp [unused]) (by simp [unused])
  · exact called_only only links (by simp [unused,Place.isCalled]) member
  · exact sent_only only links (by simp [unused]) member

theorem links_store (links : Links s) (drawn : s.place i = .drawn) : Links (store s i) := by
  have only : Only i s (store s i) := ⟨fun j ne => update_of_ne ne .. ,fun _ _ => rfl,fun _ _ => rfl⟩
  refine ⟨fun q j held => ?_,fun p => ?_,links.packetOnce,links.ownerOnce,fun t member => ?_,links.ended,links.sentOnce,
    fun e member => ?_⟩
  · by_cases same : q = s.seqNo i
    · simp only [store,same,update_self,Option.some.injEq] at held
      rw [← held,same]
      exact ⟨update_self ..,rfl⟩
    · simp only [store,update_of_ne same] at held
      exact mapped_only only links (by simp [drawn]) held
  · exact handling_only only (links.packets p) (by simp [drawn]) (by simp [drawn])
  · exact called_only only links (by simp [drawn,Place.isCalled]) member
  · exact sent_only only links (by simp [drawn]) member

/-- Handlers leave the map, and nothing else happens to them. -/
theorem links_remove (links : Links s) (q : UInt32) (owner : Nat → Owner) :
    Links { s with ackHandlers := update s.ackHandlers q none, owner := owner } := by
  refine ⟨fun q' j held => ?_,links.packets,links.packetOnce,links.ownerOnce,links.called,links.ended,links.sentOnce,
    links.sent⟩
  by_cases same : q' = q
  · simp [same] at held
  · simp only [update_of_ne same] at held
    exact links.mapped q' j held

theorem links_packet (links : Links s) (p : Nat) (x : Packet) (next : (s.packet p).ended = true → x.ended = true)
    (handling : Handling s p x) (owner : Nat → Owner) :
    Links { s with owner := owner, packet := update s.packet p x } := by
  refine ⟨links.mapped,fun p' => ?_,links.packetOnce,links.ownerOnce,links.called,ended_update links next,links.sentOnce,
    links.sent⟩
  by_cases same : p' = p
  · rw [same]
    simp only [update_self]
    exact handling
  · simp only [update_of_ne same]
    exact links.packets p'

theorem links_take (links : Links s) (idle : s.packet p = .idle) {ack : AckResp} (held : s.ackHandlers ack.seqNo = some i)
    (timestamp : Time) : Links (take s i p ack timestamp) := by
  obtain ⟨mapped,number⟩ := links.mapped _ i held
  have only : Only i s (take s i p ack timestamp) := ⟨fun j ne => update_of_ne ne ..,fun _ _ => rfl,fun _ _ => rfl⟩
  refine ⟨fun q j held' => ?_,fun p' => ?_,links.packetOnce,links.ownerOnce,fun t member => ?_,
    ended_update links (by simp [idle,Packet.ended]),links.sentOnce,fun e member => ?_⟩
  · -- The handler has left the map, where it was under its number only.
    by_cases same : q = ack.seqNo
    · simp [take,same] at held'
    simp only [take,update_of_ne same] at held'
    obtain ⟨place,number'⟩ := links.mapped q j held'
    have ne : j ≠ i := by
      rintro rfl
      exact same (number'.symm.trans number)
    exact ⟨(only.place j ne).trans place,number'⟩
  · by_cases same : p' = p
    · simp only [take,same,update_self]
      exact ⟨update_self ..,number⟩
    · simp only [take,update_of_ne same]
      exact handling_only only (links.packets p') (by simp [mapped]) (by simp [mapped])
  · exact called_only only links (by simp [mapped,Place.isCalled]) member
  · exact sent_only only links (by simp [mapped]) member

theorem links_triggered (links : Links s) {ack : AckResp} {timestamp : Time} (stopped : s.packet p = .stopped i ack timestamp)
    {place : Place} (isCalled : place.isCalled = true) {x : Packet} (ended : x.ended = true) (owner : Nat → Owner)
    (handling : ∀ s' : State, s'.place i = place → Handling s' p x) :
    Links { s with
      owner := owner
      packet := update s.packet p x
      place := update s.place i place
      triggered := s.triggered ++ [⟨p,ack.seqNo,i⟩] } := by
  have held := links.packets p
  rw [stopped] at held
  obtain ⟨taken,number⟩ := held
  have only : Only i s { s with place := update s.place i place } :=
    ⟨fun j ne => update_of_ne ne ..,fun _ _ => rfl,fun _ _ => rfl⟩
  have newPacket : p ∉ s.triggered.map Trigger.packet := by
    intro member
    obtain ⟨t,triggered,rfl⟩ := List.mem_map.mp member
    have wrong := links.ended t triggered
    rw [stopped] at wrong
    cases wrong
  have newOwner : i ∉ s.triggered.map Trigger.owner := by
    intro member
    obtain ⟨t,triggered,rfl⟩ := List.mem_map.mp member
    have wrong := (links.called t triggered).1
    rw [taken] at wrong
    cases wrong
  refine ⟨fun q j held => ?_,fun p' => ?_,?_,?_,?_,?_,links.sentOnce,fun e member => ?_⟩
  · exact mapped_only only links (by simp [taken]) held
  · by_cases same : p' = p
    · rw [same]
      simp only [update_self]
      exact handling _ (update_self ..)
    · simp only [update_of_ne same]
      exact handling_only only (links.packets p') (by simp [taken,Ne.symm same]) (by simp [taken])
  · rw [List.map_append]
    exact links.packetOnce.append (List.nodup_singleton _) (by simpa using newPacket)
  · rw [List.map_append]
    exact links.ownerOnce.append (List.nodup_singleton _) (by simpa using newOwner)
  · refine List.forall_mem_append.mpr ⟨fun t member => ?_,List.forall_mem_singleton.mpr ⟨?_,number⟩⟩
    · exact called_only only links (by simp [taken,Place.isCalled]) member
    · simp only [update_self]
      exact isCalled
  · refine List.forall_mem_append.mpr ⟨ended_update links (fun _ => ended),List.forall_mem_singleton.mpr ?_⟩
    simp only [update_self]
    exact ended
  · exact sent_only only links (by simp [taken]) member

theorem links_forward (links : Links s) (forwarding : s.packet p = .forwarding i) : Links (forward s i p) := by
  have called := links.packets p
  rw [forwarding] at called
  have only : Only i s { s with place := update s.place i .over } :=
    ⟨fun j ne => update_of_ne ne ..,fun _ _ => rfl,fun _ _ => rfl⟩
  have new : i ∉ s.sent.map Sent.owner := by
    intro member
    obtain ⟨e,sent,rfl⟩ := List.mem_map.mp member
    have wrong := (links.sent e sent).1
    rw [show s.place e.owner = .called p from called] at wrong
    cases wrong
  refine ⟨fun q j held => ?_,fun p' => ?_,links.packetOnce,links.ownerOnce,fun t member => ?_,
    ended_update links (fun _ => rfl),?_,?_⟩
  · exact mapped_only only links (by rw [show s.place i = .called p from called]; simp) held
  · by_cases same : p' = p
    · rw [same]
      simp only [forward,update_self]
      trivial
    · simp only [forward,update_of_ne same]
      exact handling_only only (links.packets p') (by rw [show s.place i = .called p from called]; simp)
        (by rw [show s.place i = .called p from called]; simp [Ne.symm same])
  · obtain ⟨place,number⟩ := links.called t member
    refine ⟨?_,number⟩
    by_cases same : t.owner = i
    · simp only [forward,same,update_self]
      rfl
    · simp only [forward,update_of_ne same]
      exact place
  · simp only [forward,List.map_append]
    refine links.sentOnce.append ?_ ?_
    · cases s.task i <;> simp [forwarded]
    · cases s.task i <;> simp [forwarded,new]
  · refine List.forall_mem_append.mpr ⟨fun e member => ?_,fun e member => ?_⟩
    · exact sent_only only links (by rw [show s.place i = .called p from called]; simp) member
    · cases task : s.task i with
      | relay req =>
        rw [task,forwarded] at member
        rw [List.mem_singleton.mp member]
        exact ⟨update_self ..,req,task,rfl,rfl⟩
      | _ => simp [task,forwarded] at member

end

structure Inv (s : State) : Prop where
  sound : ∀ i, Sound (s.place i) (s.owner i)
  links : Links s

theorem inv_initial : Inv {} where
  sound _ := by constructor <;> simp [Stage.inHand]
  links := by constructor <;> simp [Handling]

section
variable {indirectChecks : Nat} {s : State} {i p : Nat}

/-- One call changes, and the place of its handler may. -/
theorem sound_update (inv : Inv s) {place : Place} {o : Owner} (here : Sound place o) :
    ∀ j, Sound (update s.place i place j) (update s.owner i o j) := by
  intro j
  by_cases same : j = i
  · rw [same,update_self,update_self]
    exact here
  · rw [update_of_ne same,update_of_ne same]
    exact inv.sound j

theorem sound_owner (inv : Inv s) {o : Owner} (here : Sound (s.place i) o) :
    ∀ j, Sound (s.place j) (update s.owner i o j) := by
  have all := sound_update (i := i) inv here
  rwa [update_eq_self] at all

/-- The handler moves on, and the call stays where it is. -/
theorem sound_place {place place' : Place} {o : Owner} (sound : Sound place o)
    (stored : place ≠ .unused ∧ place ≠ .drawn) (stays : place = .over → place' = .over)
    (called : place.isCalled = true → place'.isCalled = true) : Sound place' o :=
  { sound with
    unused idle := absurd (sound.unused idle) stored.1
    early first := absurd (sound.early first) stored.2
    answers := by
      refine sound.answers.trans ?_
      by_cases isOver : place = .over
      · rw [if_pos isOver,if_pos (stays isOver)]
      · rw [if_neg isOver]
        exact Nat.zero_le _
    closed cancelled := called (sound.closed cancelled) }

theorem inv_call (inv : Inv s) (idle : (s.owner i).stage = .idle) (task : Task) : Inv (call s i task) where
  sound := sound_update inv (by constructor <;> simp [Stage.inHand])
  links := links_call inv.links ((inv.sound i).unused idle) task

theorem stores_early {task : Task} {stage : Stage} (now : stores task stage = true) :
    (stage = .drawn ∨ stage = .started) ∧ (afterStore task = .stored → stage = .drawn) := by
  cases task <;> cases stage <;> simp_all [stores,afterStore]

theorem inv_store (inv : Inv s) (now : stores (s.task i) (s.owner i).stage = true) : Inv (store s i) where
  sound := by
    obtain ⟨early,untimed⟩ := stores_early now
    have sound := inv.sound i
    have drawn := sound.early early
    have answers := sound.answers
    have closed := sound.closed
    have expiries := sound.expiries
    rw [drawn] at answers closed
    have next : (afterStore (s.task i)).inHand = 0 := by cases s.task i <;> rfl
    refine sound_update inv ⟨?_,?_,?_,answers,?_,?_,closed⟩
    · cases s.task i <;> simp [afterStore]
    · cases s.task i <;> simp [afterStore]
    · rintro (wrong | stored)
      · cases task : s.task i <;> simp [task,afterStore] at wrong
      · exact sound.untimed (.inl (untimed stored))
    · simp only [next]
      omega
    · cases s.task i <;> simp [afterStore]
  links := links_store inv.links ((inv.sound i).early (stores_early now).1)

theorem inv_reap (inv : Inv s) (fired : (s.owner i).timer = .fired) : Inv (reap s i) where
  sound := sound_owner inv (sound_timer (inv.sound i) (by simp [fired]) (by simp [fired]))
  links := links_remove inv.links (s.seqNo i) _

theorem inv_goOn (inv : Inv s) {x : Packet} (next : (s.packet p).ended = true → x.ended = true) (handling : Handling s p x) :
    Inv (goOn s p x) :=
  ⟨inv.sound,links_packet inv.links p x next handling s.owner⟩

theorem inv_take (inv : Inv s) (idle : s.packet p = .idle) {ack : AckResp} (held : s.ackHandlers ack.seqNo = some i)
    (timestamp : Time) : Inv (take s i p ack timestamp) where
  sound := by
    have mapped := (inv.links.mapped _ i held).1
    have here : Sound (.taken p) (s.owner i) :=
      sound_place (inv.sound i) (by simp [mapped]) (by simp [mapped]) (by simp [mapped,Place.isCalled])
    have all := sound_update (i := i) inv here
    rwa [update_eq_self] at all
  links := links_take inv.links idle held timestamp

theorem inv_stopTimer (inv : Inv s) {ack : AckResp} {timestamp : Time} (found : s.packet p = .found i ack timestamp)
    (set : (s.owner i).timer ≠ .unset) : Inv (stopTimer s i p ack timestamp) := by
  have held := inv.links.packets p
  rw [found] at held
  refine ⟨sound_owner inv ?_,
    links_packet inv.links p (.stopped i ack timestamp) (by simp [found,Packet.ended]) held _⟩
  unfold Owner.stopTimer
  split_ifs with running
  · exact sound_timer (inv.sound i) set (by simp [running])
  · exact inv.sound i

/-- An ack in the channel is the one that its handler has sent. -/
theorem sound_answered {o : Owner} (sound : Sound (.taken p) o) (ack : AckResp) (timestamp : Time) :
    Sound .over (o.send indirectChecks ⟨true,ack.payload,timestamp⟩) := by
  have answers := countP_send indirectChecks o ⟨true,ack.payload,timestamp⟩ (·.complete)
  have expiries := countP_send indirectChecks o ⟨true,ack.payload,timestamp⟩ (!·.complete)
  have before := sound.answers
  have placed : Sound .over o := sound_place sound (by simp) (by simp) (by simp [Place.isCalled])
  rw [send_same]
  refine ⟨placed.unused,placed.early,placed.untimed,?_,?_,placed.hand,placed.closed⟩
  · simp only [if_true,reduceCtorEq,if_false] at answers before ⊢
    omega
  · refine (Nat.add_le_add_right expiries _).trans ?_
    simpa using placed.expiries

/-- The handler that a packet is about to call is its own, and has not been called. -/
theorem taken_of_stopped (inv : Inv s) {ack : AckResp} {timestamp : Time} (stopped : s.packet p = .stopped i ack timestamp) :
    Sound (.taken p) (s.owner i) := by
  have held := inv.links.packets p
  rw [stopped] at held
  have sound := inv.sound i
  rwa [held.1] at sound

theorem inv_answer (inv : Inv s) {ack : AckResp} {timestamp : Time} (stopped : s.packet p = .stopped i ack timestamp) :
    Inv (answer indirectChecks s i p ack timestamp) :=
  ⟨sound_update inv (sound_answered (taken_of_stopped inv stopped) ack timestamp),
    links_triggered inv.links stopped rfl rfl _ (fun _ _ => trivial)⟩

theorem inv_close (inv : Inv s) {ack : AckResp} {timestamp : Time} (stopped : s.packet p = .stopped i ack timestamp) :
    Inv (close s i p ack) := by
  have placed : Sound (.called p) (s.owner i) :=
    sound_place (taken_of_stopped inv stopped) (by simp) (by simp) (by simp [Place.isCalled])
  refine ⟨sound_update inv ?_,links_triggered inv.links stopped rfl rfl _ (fun _ called => called)⟩
  exact ⟨placed.unused,placed.early,placed.untimed,placed.answers,placed.expiries,placed.hand,fun _ => rfl⟩

theorem inv_forward (inv : Inv s) (forwarding : s.packet p = .forwarding i) : Inv (forward s i p) where
  sound := by
    have called := inv.links.packets p
    rw [forwarding] at called
    have sound := inv.sound i
    rw [show s.place i = .called p from called] at sound
    have here : Sound .over (s.owner i) := sound_place sound (by simp) (by simp) (by simp [Place.isCalled])
    have all := sound_update (i := i) inv here
    rwa [update_eq_self] at all
  links := links_forward inv.links forwarding

theorem inv_invokeNack (inv : Inv s) : Inv (invokeNack indirectChecks s i p) where
  sound := by
    have sound := inv.sound i
    exact sound_owner inv ⟨sound.unused,sound.early,sound.untimed,sound.answers,sound.expiries,sound.hand,sound.closed⟩
  links := links_packet inv.links p .done (fun _ => rfl) trivial _

theorem inv_did (inv : Inv s) {a : Act} {s' : State} (did : Did indirectChecks s a s') : Inv s' := by
  cases did with
  | nothing => exact inv
  | call task idle => exact inv_call inv idle task
  | own i move =>
    have links := inv.links
    exact ⟨sound_owner inv (sound_move (inv.sound i) move),links.mapped,links.packets,links.packetOnce,links.ownerOnce,
      links.called,links.ended,links.sentOnce,links.sent⟩
  | store now => exact inv_store inv now
  | reap fired => exact inv_reap inv fired
  | take timestamp idle held => exact inv_take inv idle held timestamp
  | miss => exact inv_goOn inv (fun _ => rfl) trivial
  | nilTimer found => exact inv_goOn inv (by simp [found,Packet.ended]) trivial
  | stopTimer found set => exact inv_stopTimer inv found set
  | answer stopped => exact inv_answer inv stopped
  | close stopped => exact inv_close inv stopped
  | closeTwice stopped cancelled =>
    have wrong := (taken_of_stopped inv stopped).closed cancelled
    cases wrong
  | forward forwarding => exact inv_forward inv forwarding
  | nack nack idle => exact inv_goOn inv (by simp [idle,Packet.ended]) trivial
  | invokeNack => exact inv_invokeNack inv

theorem inv_step (inv : Inv s) (a : Act) : Inv (step indirectChecks s a) := inv_did inv (did_step indirectChecks s a)

end

theorem inv_run (indirectChecks : Nat) (acts : List Act) : Inv (run (step indirectChecks) {} acts) :=
  run_keeps (I := Inv) (fun _ a inv => inv_step inv a) inv_initial acts

/-! ## The ack channel of a probe

Acks and the timer never wait for a slot in the channel, but the probe does when it puts
back the message of the timer. Nobody else receives from the channel.
-/

theorem length_of_requeueing {place : Place} {o : Owner} (sound : Sound place o) {v : AckMessage}
    (requeueing : o.stage = .requeueing v) : o.ackCh.length ≤ 1 := by
  have answers : o.ackCh.countP (·.complete) ≤ 1 := by
    refine sound.answers.trans ?_
    split_ifs <;> decide
  have expiries : o.ackCh.countP (!·.complete) + 1 ≤ 1 := by
    have expiries := sound.expiries
    rw [requeueing,Stage.inHand] at expiries
    refine expiries.trans ?_
    split_ifs <;> decide
  have split := List.length_eq_countP_add_countP (fun v : AckMessage => v.complete) (l := o.ackCh)
  simp only [Bool.not_eq_true,← Bool.not_eq_true'] at split expiries
  simp only [Bool.decide_eq_true] at split
  omega

/-- A probe waits for a slot with no one left to free it. -/
def Jammed (indirectChecks : Nat) (v : AckMessage) (o : Owner) : Prop :=
  o.stage = .requeueing v ∧ indirectChecks + 1 ≤ o.ackCh.length

section
variable {indirectChecks : Nat} {v : AckMessage} {s : State} {i j : Nat} {o : Owner}

theorem send_jammed (jammed : Jammed indirectChecks v o) (w : AckMessage) : o.send indirectChecks w = o :=
  if_neg (Nat.not_lt.mpr jammed.2)

theorem jammed_move (jammed : Jammed indirectChecks v o) (task : Task) (move : Move) :
    Jammed indirectChecks v (o.move indirectChecks task move) := by
  obtain ⟨stage,full⟩ := jammed
  cases move with
  | startTimer => cases task <;> simp [Owner.move,Owner.startTimer,stage,Jammed,full]
  | receive => simp [Owner.move,Owner.receive,stage,Jammed,full]
  | requeue => simp [Owner.move,Owner.requeue,stage,Jammed,full,Nat.not_lt.mpr full]
  | expire now =>
    simp only [Owner.move,send_jammed ⟨stage,full⟩]
    split_ifs <;> exact ⟨stage,full⟩
  | ping => simp [Owner.move,stage,Jammed,full]
  | timeOut => simp [Owner.move,stage,Jammed,full]
  | fire =>
    simp only [Owner.move]
    split_ifs <;> exact ⟨stage,full⟩
  | nack =>
    simp only [Owner.move]
    split_ifs <;> exact ⟨stage,full⟩
  | cancelNack =>
    simp only [Owner.move]
    split_ifs <;> exact ⟨stage,full⟩

theorem jammed_update {f : Nat → Owner} (jammed : Jammed indirectChecks v (f i))
    (here : Jammed indirectChecks v (f j) → Jammed indirectChecks v o) : Jammed indirectChecks v (update f j o i) := by
  by_cases same : i = j
  · rw [same,update_self]
    exact here (same ▸ jammed)
  · rw [update_of_ne same]
    exact jammed

theorem jammed_did (jammed : Jammed indirectChecks v (s.owner i)) {a : Act} {s' : State}
    (did : Did indirectChecks s a s') : Jammed indirectChecks v (s'.owner i) := by
  cases did with
  | call task idle =>
    refine jammed_update jammed (fun wrong => ?_)
    rw [Jammed,idle] at wrong
    cases wrong.1
  | own j move => exact jammed_update jammed (fun here => jammed_move here _ move)
  | @store j now =>
    refine jammed_update jammed (fun wrong => ?_)
    rw [wrong.1] at now
    cases task : s.task j <;> simp [task,stores] at now
  | reap => exact jammed_update jammed id
  | stopTimer =>
    refine jammed_update jammed (fun here => ?_)
    unfold Owner.stopTimer
    split_ifs <;> exact here
  | answer =>
    refine jammed_update jammed (fun here => ?_)
    rw [send_jammed here]
    exact here
  | close => exact jammed_update jammed id
  | invokeNack => exact jammed_update jammed id
  | _ => exact jammed

end

/-- An ack is looked up before the timer of its probe fires, and is sent once the probe
    has received the timer's message. -/
def lateAck : List Act :=
  [.call 0 .probe,.own 0 .startTimer,.store 0,.own 0 (.ping .sent),.lookUp 0 { seqNo := 1 } 7,.own 0 .fire,.reap 0,
    .own 0 (.expire 8),.own 0 .receive,.stop 0,.invoke 0]

theorem lateAck_jammed : Jammed 0 ⟨false,none,8⟩ ((run (step 0) {} lateAck).owner 0) := by
  constructor <;> decide

/-- A probe that puts back the message of the timer always finds a slot exactly when
    there are indirect checks. -/
theorem requeue_free_iff (indirectChecks : Nat) :
    (∀ (acts : List Act) (i : Nat) (v : AckMessage),
      ((run (step indirectChecks) {} acts).owner i).stage = .requeueing v →
      ((run (step indirectChecks) {} acts).owner i).ackCh.length < indirectChecks + 1) ↔ 0 < indirectChecks := by
  constructor
  · intro free
    by_contra no
    obtain rfl : indirectChecks = 0 := by omega
    have wrong := free lateAck 0 ⟨false,none,8⟩ lateAck_jammed.1
    exact absurd lateAck_jammed.2 (Nat.not_le.mpr wrong)
  · intro some acts i v requeueing
    have short := length_of_requeueing ((inv_run indirectChecks acts).sound i) requeueing
    omega

/-- Without indirect checks a probe can find no slot, and then waits for ever: it alone
    receives from the channel. -/
theorem probe_hangs :
    ((run (step 0) {} lateAck).owner 0).stage = .requeueing ⟨false,none,8⟩ ∧
      ((run (step 0) {} lateAck).owner 0).ackCh.length = 0 + 1 ∧
      ∀ acts, ((run (step 0) {} (lateAck ++ acts)).owner 0).stage = .requeueing ⟨false,none,8⟩ := by
  refine ⟨lateAck_jammed.1,by decide,fun acts => ?_⟩
  have jammed : Jammed 0 ⟨false,none,8⟩ ((run (step 0) {} (lateAck ++ acts)).owner 0) := by
    rw [run_append]
    exact run_keeps (I := fun s : State => Jammed 0 ⟨false,none,8⟩ (s.owner 0)) 
      (fun s a here => jammed_did here (did_step 0 s a)) lateAck_jammed acts
  exact jammed.1

end Mori.Acks
