import Mori.Machines
import Mathlib.Algebra.Order.Ring.Nat
import Mathlib.Data.Bool.Count

/-!
Who waits for whom while an instance shuts down. `Shutdown` waits for the listeners of
the transport, which hand each packet to `packetListen` and each stream to
`streamListen`; `packetListen` runs delegate callbacks itself and takes nodeLock to
answer; NotifyAlive runs under nodeLock; and any callback may call `Shutdown`. A call
on the packet listener, or under nodeLock, can wait for itself. The tracked goroutines,
which it joins, wait for locks, and a probe waits for its channel: without indirect checks
that has one slot, in which a late ack can take the place of the message that the probe has
received and puts back. Apart from these, some goroutine can always go on until every call
has returned.

A goroutine is given as what it still has to do: callbacks, sections of nodeLock, and so
on. A callback returns, apart from its call of `Shutdown`.
-/
namespace Mori.Teardown
open Mori.Machines Function

/-- Whether a callback calls `Shutdown`, given whether the instance is shut down. -/
abbrev Decision := Bool → Bool

/-- What is done under the write lock: NotifyAlive, and events, whose own callbacks run
    on the dispatcher. -/
inductive Inner where
  | notify (calls : Decision)
  | emit (calls : Decision)

/-- A section of nodeLock; a write section may look at the shutdown flag first. -/
inductive Locked where
  | read
  | write (fenced : Bool) (body : List Inner)

/-- What a goroutine has to do: a delegate callback that holds no lock, or a section. -/
inductive Work where
  | callback (calls : Decision)
  | locked (l : Locked)

inductive Item where
  | work (w : Work)
  /-- Sections under mergeLock. -/
  | merge (ls : List Locked)
  /-- A message for `packetHandler`; alive messages have their own queue. -/
  | handoff (alive : Bool) (ws : List Work)
  /-- A call of `probeNode`. -/
  | probe (pings answered asks fails : List Work)

/-- Where `probeNode` looks at its ack channel next. -/
inductive ProbeStage where
  /-- The select after the ping. -/
  | selecting
  /-- The send of a timeout message that it has received. -/
  | requeueing
  /-- The receive after the indirect pings. -/
  | waiting
  /-- Not any more. -/
  | ending
deriving DecidableEq,Repr

/-- `probeNode` after it has made its channel: what it does before the next look at it, what
    it does then if the ping was answered, if it was not, and if the indirect ones were not
    either; whether the timer runs, and what is in the channel, where acks are true and the
    timeout message is false. An ack takes the handler and then sends. The timer may fire
    before the handler is stored, so that it can be taken after that, too. -/
structure Probe where
  stage : ProbeStage := .selecting
  works : List Work
  answered : List Work
  asks : List Work
  fails : List Work
  timer : Bool := true
  handler : Bool := true
  taken : Bool := false
  acks : List Bool := []

/-- Where the teardown of a call of `Shutdown` is. -/
inductive Stage where
  /-- In `shutdownLock.Lock`. -/
  | acquiring
  | checking
  /-- In the shutdown of the transport: before it sets the transport's flag. -/
  | flagging
  /-- Before it closes the sockets. -/
  | closing
  /-- In the transport's `wg.Wait`. -/
  | waiting
  /-- Before it sets the flag and closes shutdownCh. -/
  | setting
  | releasing (did : Bool)
deriving DecidableEq,Repr

/-- Where `finishShutdown` is. -/
inductive Finish where
  /-- In `shutdownWG.Wait`. -/
  | waiting
  | announcing
  | locking
  | holding
  | sealed
  /-- In `eventWG.Wait`. -/
  | joining
deriving DecidableEq,Repr

/-- What a goroutine is in the middle of. A writer first excludes the other writers and
    announces itself, which stops new readers, and then waits for the readers. -/
inductive Frame where
  | ready
  | rlocking
  | reading
  | announcing (fenced : Bool) (body : List Inner)
  | locking (fenced : Bool) (body : List Inner)
  | entered (fenced : Bool) (body : List Inner)
  | inside (body : List Inner)
  /-- In `Shutdown`; under nodeLock, with the rest of the section, if NotifyAlive calls it. -/
  | shutdown (reentrant : Bool) (stage : Stage) (under : Option (List Inner))
  /-- In `finishShutdown`, for a call of `Shutdown` or for the reaper of one. -/
  | finishing (call : Bool) (stage : Finish)

/-- Goroutines that shutdownWG counts, those of the application with the reapers, and
    the dispatcher. -/
inductive Kind where
  | tracked
  | app
  | dispatcher
deriving DecidableEq,Repr

structure Thread where
  kind : Kind
  exited : Bool := false
  frame : Frame := .ready
  merge : Option (List Locked) := none
  probe : Option Probe := none
  todo : List Item := []

/-- A goroutine of the transport that reads from a socket. -/
inductive Listener where
  | reading
  /-- It sends on packetCh or streamCh what will be done with what it has read. -/
  | sending (items : List Item)
  | exited

/-- The goroutines, of which the first `bound` exist, and what they share. -/
structure State where
  threads : Nat → Thread
  bound : Nat
  depth : Nat
  indirectChecks : Nat
  udp : Nat → Listener := fun _ => .reading
  udps : Nat
  tcp : Nat → Listener := fun _ => .reading
  tcps : Nat
  flagged : Bool := false
  closed : Bool := false
  shutdown : Bool := false
  streamExited : Bool := false
  eventsSealed : Bool := false
  events : List Decision := []
  highPriority : List (List Work) := []
  lowPriority : List (List Work) := []

/-- `packetListen`, `packetHandler` and the dispatcher. -/
def firstThread (i : Nat) : Thread where
  kind := if i < 2 then .tracked else if i = 2 then .dispatcher else .app

/-- An instance with its listeners, its number of indirect checks and the depth of its message queues. -/
def initial (depth indirectChecks udps tcps : Nat) : State where
  threads := firstThread
  bound := 3
  depth := depth
  indirectChecks := indirectChecks
  udps := udps
  tcps := tcps

namespace Frame

/-- It has nodeLock for writing. -/
def writes : Frame → Bool
  | .entered .. => true
  | .inside .. => true
  | .shutdown _ _ (some _) => true
  | .finishing _ .holding => true
  | .finishing _ .sealed => true
  | _ => false

/-- It excludes new readers and the other writers. -/
def claims : Frame → Bool
  | .locking .. => true
  | .finishing _ .locking => true
  | f => f.writes

def reads : Frame → Bool
  | .reading => true
  | _ => false

/-- It has shutdownLock. -/
def tears : Frame → Bool
  | .shutdown _ .acquiring _ => false
  | .shutdown .. => true
  | _ => false

/-- It is in a call of `Shutdown`. -/
def calling : Frame → Bool
  | .shutdown .. => true
  | .finishing call _ => call
  | _ => false

end Frame

/-- At its select, with nothing to do. -/
def Thread.idle (t : Thread) : Bool :=
  match t.frame,t.merge,t.probe,t.todo with
  | .ready,none,none,[] => true
  | _,_,_,_ => false

def Listener.gone : Listener → Bool
  | .exited => true
  | _ => false

namespace State
variable (s : State)

def claimed : Prop := ∃ j < s.bound, (s.threads j).frame.claims = true

def read : Prop := ∃ j < s.bound, (s.threads j).frame.reads = true

def torn : Prop := ∃ j < s.bound, (s.threads j).frame.tears = true

def merging : Prop := ∃ j < s.bound, (s.threads j).merge.isSome = true

/-- The listeners have exited. -/
def gone : Prop := (∀ u < s.udps, (s.udp u).gone = true) ∧ ∀ u < s.tcps, (s.tcp u).gone = true

/-- The tracked goroutines have exited. -/
def joined : Prop :=
  s.streamExited = true ∧ ∀ j < s.bound, (s.threads j).kind = .tracked → (s.threads j).exited = true

instance : Decidable s.claimed := by unfold claimed; infer_instance
instance : Decidable s.read := by unfold read; infer_instance
instance : Decidable s.torn := by unfold torn; infer_instance
instance : Decidable s.merging := by unfold merging; infer_instance
instance : Decidable s.gone := by unfold gone; infer_instance
instance : Decidable s.joined := by unfold joined; infer_instance

def set (i : Nat) (t : Thread) : State := { s with threads := update s.threads i t }

def moveTo (i : Nat) (f : Frame) : State := s.set i { s.threads i with frame := f }

/-- Starts a goroutine. -/
def add (t : Thread) : State := { s with threads := update s.threads s.bound t, bound := s.bound + 1 }

/-- Queues a message for `packetHandler`, or drops it. -/
def enqueue (alive : Bool) (ws : List Work) : State :=
  if alive then
    if s.highPriority.length < s.depth then { s with highPriority := ws :: s.highPriority } else s
  else
    if s.lowPriority.length < s.depth then { s with lowPriority := ws :: s.lowPriority } else s

end State

def Locked.start : Locked → Frame
  | .read => .rlocking
  | .write fenced body => .announcing fenced body

def Work.start (down : Bool) : Work → Frame
  | .callback calls => if calls down then .shutdown true .acquiring none else .ready
  | .locked l => l.start

/-- Where a re-entrant call returns to. -/
def resume : Option (List Inner) → Frame
  | none => .ready
  | some body => .inside body

namespace Probe

/-- A send that does not wait. -/
def send (indirectChecks : Nat) (complete : Bool) (p : Probe) : Probe :=
  if p.acks.length < indirectChecks + 1 then { p with acks := p.acks ++ [complete] } else p

/-- The callback of the timer. -/
def fire (indirectChecks : Nat) (p : Probe) : Probe :=
  if p.timer then { p.send indirectChecks false with timer := false } else p

/-- `invokeAckHandler` takes the handler. -/
def take (p : Probe) : Probe := if p.handler then { p with handler := false, taken := true } else p

/-- It stops the timer and sends. -/
def answer (indirectChecks : Nat) (p : Probe) : Probe :=
  if p.taken then { p.send indirectChecks true with timer := false, taken := false } else p

/-- `ProbeTimeout` is over at the select. -/
def timeOut (p : Probe) : Probe :=
  match p.stage,p.works with
  | .selecting,[] => { p with stage := .waiting, works := p.asks }
  | _,_ => p

/-- What `probeNode` does where it looks at its channel, unless it has to wait. -/
def look (indirectChecks : Nat) (p : Probe) : Option (Option Probe) :=
  match p.stage,p.acks with
  | .selecting,true :: _ => some (some { p with stage := .ending, works := p.answered })
  | .selecting,false :: acks => some (some { p with stage := .requeueing, acks := acks })
  | .requeueing,acks =>
    if acks.length < indirectChecks + 1 then
      some (some { p with stage := .waiting, works := p.asks, acks := acks ++ [false] })
    else none
  | .waiting,true :: _ => some none
  | .waiting,false :: _ => some (some { p with stage := .ending, works := p.fails })
  | .ending,_ => some none
  | _,[] => none

end Probe

/-- Somebody else does something to what the probe of a goroutine has made. -/
def State.tell (s : State) (i : Nat) (f : Probe → Probe) : State :=
  match (s.threads i).probe with
  | some p => s.set i { s.threads i with probe := some (f p) }
  | none => s

def probeNode (s : State) (i : Nat) (p : Probe) : State :=
  let t := s.threads i
  match p.works with
  | w :: ws => s.set i { t with probe := some { p with works := ws }, frame := w.start s.shutdown }
  | [] =>
    match p.look s.indirectChecks with
    | some next => s.set i { t with probe := next }
    | none => s

/-- The next piece of work. -/
def beginItem (s : State) (i : Nat) : State :=
  let t := s.threads i
  match t.merge,t.probe with
  | some [],_ => s.set i { t with merge := none }
  | some (l :: ls),_ => s.set i { t with merge := some ls, frame := l.start }
  | none,some p => probeNode s i p
  | none,none =>
    match t.todo with
    | [] => s
    | .probe pings answered asks fails :: rest =>
      s.set i { t with todo := rest, probe := some { works := pings, answered := answered, asks := asks, fails := fails } }
    | .work w :: rest => s.set i { t with todo := rest, frame := w.start s.shutdown }
    | .merge ls :: rest => if s.merging then s else s.set i { t with todo := rest, merge := some ls }
    | .handoff alive ws :: rest => (s.set i { t with todo := rest }).enqueue alive ws

/-- The teardown of `Shutdown`. -/
def tear (s : State) (i : Nat) (reentrant : Bool) (under : Option (List Inner)) : Stage → State
  | .acquiring => if s.torn then s else s.moveTo i (.shutdown reentrant .checking under)
  | .checking => s.moveTo i (.shutdown reentrant (if s.shutdown then .releasing false else .flagging) under)
  | .flagging => { s.moveTo i (.shutdown reentrant .closing under) with flagged := true }
  | .closing => { s.moveTo i (.shutdown reentrant .waiting under) with closed := true }
  | .waiting => if s.gone then s.moveTo i (.shutdown reentrant .setting under) else s
  | .setting => { s.moveTo i (.shutdown reentrant (.releasing true) under) with shutdown := true }
  | .releasing did =>
    if reentrant then
      if did then (s.moveTo i (resume under)).add { kind := .app, frame := .finishing false .waiting }
      else s.moveTo i (resume under)
    else s.moveTo i (.finishing true .waiting)

def finishShutdown (s : State) (i : Nat) (call : Bool) : Finish → State
  | .waiting => if s.joined then s.moveTo i (.finishing call .announcing) else s
  | .announcing => if s.claimed then s else s.moveTo i (.finishing call .locking)
  | .locking => if s.read then s else s.moveTo i (.finishing call .holding)
  | .holding => { s.moveTo i (.finishing call .sealed) with eventsSealed := true }
  | .sealed => s.moveTo i (.finishing call .joining)
  | .joining => if (s.threads 2).exited then s.moveTo i .ready else s

def go (s : State) (i : Nat) : State :=
  match (s.threads i).frame with
  | .ready => beginItem s i
  | .rlocking => if s.claimed then s else s.moveTo i .reading
  | .reading => s.moveTo i .ready
  | .announcing fenced body => if s.claimed then s else s.moveTo i (.locking fenced body)
  | .locking fenced body => if s.read then s else s.moveTo i (.entered fenced body)
  | .entered fenced body => s.moveTo i (.inside (if fenced && s.shutdown then [] else body))
  | .inside [] => s.moveTo i .ready
  | .inside (.notify calls :: body) =>
    s.moveTo i (if calls s.shutdown then .shutdown true .acquiring (some body) else .inside body)
  | .inside (.emit calls :: body) => { s.moveTo i (.inside body) with events := s.events ++ [calls] }
  | .shutdown reentrant stage under => tear s i reentrant under stage
  | .finishing call stage => finishShutdown s i call stage

inductive Act where
  /-- A packet is read from a socket. -/
  | arrive (u : Nat) (items : List Item)
  /-- A connection is accepted. -/
  | connect (u : Nat) (items : List Item)
  /-- A goroutine of the application starts. -/
  | app
  /-- A tracked goroutine starts another. -/
  | spawn (p : Nat) (items : List Item)
  /-- A tick of the schedule, or a use of the interface by the application. -/
  | give (i : Nat) (items : List Item)
  /-- The application calls `Shutdown`. -/
  | call (i : Nat)
  | go (i : Nat)
  /-- `packetListen` receives. -/
  | receive (u : Nat)
  /-- `streamListen` receives, and starts a handler. -/
  | accept (u : Nat)
  /-- A read from a closed socket fails. -/
  | failUdp (u : Nat)
  | failTcp (u : Nat)
  /-- `packetHandler` takes a message. -/
  | take
  /-- The dispatcher takes an event. -/
  | deliver
  | exit (i : Nat)
  | exitStream
  /-- An ack takes the handler of a probe. -/
  | takeHandler (i : Nat)
  | answer (i : Nat)
  /-- The timer of a probe fires. -/
  | fire (i : Nat)
  | timeOut (i : Nat)

/-- `getNextMessage`. -/
def take (s : State) : State :=
  match s.highPriority,s.lowPriority with
  | ws :: rest,_ => { s.set 1 { s.threads 1 with todo := ws.map .work } with highPriority := rest }
  | [],ws :: rest => { s.set 1 { s.threads 1 with todo := ws.map .work } with lowPriority := rest }
  | [],[] => s

/-- A goroutine at its select that may exit. -/
def mayExit (s : State) (t : Thread) : Bool :=
  match t.kind with
  | .tracked => s.shutdown
  | .app => false
  | .dispatcher => s.eventsSealed && s.events.isEmpty

def step (s : State) : Act → State
  | .arrive u items =>
    match s.udp u with
    | .reading => if u < s.udps ∧ s.closed = false then { s with udp := update s.udp u (.sending items) } else s
    | _ => s
  | .connect u items =>
    match s.tcp u with
    | .reading => if u < s.tcps ∧ s.closed = false then { s with tcp := update s.tcp u (.sending items) } else s
    | _ => s
  | .app => s.add { kind := .app }
  | .spawn p items =>
    if p < s.bound ∧ (s.threads p).kind = .tracked ∧ (s.threads p).exited = false then
      s.add { kind := .tracked, todo := items }
    else s
  | .give i items =>
    if 3 ≤ i ∧ i < s.bound ∧ (s.threads i).idle = true ∧ (s.threads i).exited = false then
      s.set i { s.threads i with todo := items }
    else s
  | .call i =>
    if i < s.bound ∧ (s.threads i).kind = .app ∧ (s.threads i).idle = true then
      s.moveTo i (.shutdown false .acquiring none)
    else s
  | .go i => go s i
  | .receive u =>
    match s.udp u with
    | .sending items =>
      if u < s.udps ∧ (s.threads 0).idle = true ∧ (s.threads 0).exited = false then
        { s.set 0 { s.threads 0 with todo := items } with udp := update s.udp u .reading }
      else s
    | _ => s
  | .accept u =>
    match s.tcp u with
    | .sending items =>
      if u < s.tcps ∧ s.streamExited = false then
        { s.add { kind := .tracked, todo := items } with tcp := update s.tcp u .reading }
      else s
    | _ => s
  | .failUdp u =>
    match s.udp u with
    | .reading => if u < s.udps ∧ s.flagged = true ∧ s.closed = true then { s with udp := update s.udp u .exited } else s
    | _ => s
  | .failTcp u =>
    match s.tcp u with
    | .reading => if u < s.tcps ∧ s.flagged = true ∧ s.closed = true then { s with tcp := update s.tcp u .exited } else s
    | _ => s
  | .take => if (s.threads 1).idle = true ∧ (s.threads 1).exited = false then take s else s
  | .deliver =>
    match s.events with
    | calls :: rest =>
      if (s.threads 2).idle = true ∧ (s.threads 2).exited = false then
        { s.set 2 { s.threads 2 with todo := [.work (.callback calls)] } with events := rest }
      else s
    | [] => s
  | .exit i =>
    if i < s.bound ∧ (s.threads i).idle = true ∧ (s.threads i).exited = false ∧ mayExit s (s.threads i) = true then
      s.set i { s.threads i with exited := true }
    else s
  | .exitStream => if s.shutdown then { s with streamExited := true } else s
  | .takeHandler i => s.tell i Probe.take
  | .answer i => s.tell i (Probe.answer s.indirectChecks)
  | .fire i => s.tell i (Probe.fire s.indirectChecks)
  | .timeOut i =>
    match (s.threads i).frame with
    | .ready => s.tell i Probe.timeOut
    | _ => s

/-- The steps that the goroutines take by themselves. -/
def Act.Internal : Act → Prop
  | .go _ => True
  | .receive _ => True
  | .accept _ => True
  | .failUdp _ => True
  | .failTcp _ => True
  | .take => True
  | .deliver => True
  | .exit _ => True
  | .exitStream => True
  | .answer _ => True
  | .fire _ => True
  | .timeOut _ => True
  | _ => False

/-- The goroutine is in a call of `Shutdown` that has not returned. -/
def InCall (s : State) (i : Nat) : Prop := (s.threads i).frame.calling = true

/-- It does not call `Shutdown` before the instance is shut down. -/
def Patient (calls : Decision) : Prop := calls false = false

def Inner.Tame : Inner → Prop
  | .notify calls => Patient calls
  | .emit _ => True

def Locked.Tame : Locked → Prop
  | .read => True
  | .write _ body => ∀ x ∈ body, x.Tame

/-- Work that goroutine `i` may be given: every NotifyAlive is patient, and so are the
    callbacks that run on `packetListen`, which is goroutine 0. -/
def Work.Fits (i : Nat) : Work → Prop
  | .callback calls => i = 0 → Patient calls
  | .locked l => l.Tame

def Item.Fits (i : Nat) : Item → Prop
  | .work w => w.Fits i
  | .merge ls => ∀ l ∈ ls, l.Tame
  | .handoff _ ws => ∀ w ∈ ws, w.Fits 1
  | .probe pings answered asks fails => ∀ w ∈ pings ++ answered ++ asks ++ fails, w.Fits i

/-- The work that the environment gives fits. -/
def Act.Tame : Act → Prop
  | .arrive _ items => ∀ x ∈ items, x.Fits 0
  | .connect _ items => ∀ x ∈ items, x.Fits 1
  | .spawn _ items => ∀ x ∈ items, x.Fits 1
  | .give _ items => ∀ x ∈ items, x.Fits 1
  | _ => True

theorem Work.fits_other {w : Work} {i : Nat} (fits : w.Fits 1) (other : i ≠ 0) : w.Fits i := by
  cases w with
  | callback => exact fun wrong => absurd wrong other
  | locked l => exact fits

theorem Item.fits_other {x : Item} {i : Nat} (fits : x.Fits 1) (other : i ≠ 0) : x.Fits i := by
  cases x with
  | work w => exact Work.fits_other fits other
  | merge ls => exact fits
  | handoff alive ws => exact fits
  | probe => exact fun w member => Work.fits_other (fits w member) other

/-! ## The invariant -/

/-- What has happened for good. -/
structure Past where
  flagged : Prop
  closed : Prop
  gone : Prop
  down : Prop
  sealed : Prop

def State.past (s : State) : Past where
  flagged := s.flagged = true
  closed := s.closed = true
  gone := s.gone
  down := s.shutdown = true
  sealed := s.eventsSealed = true

structure Past.Le (g g' : Past) : Prop where
  flagged : g.flagged → g'.flagged
  closed : g.closed → g'.closed
  gone : g.gone → g'.gone
  down : g.down → g'.down
  sealed : g.sealed → g'.sealed

def StageOk (g : Past) : Stage → Prop
  | .closing => g.flagged
  | .waiting => g.flagged ∧ g.closed
  | .setting => g.gone
  | .releasing _ => g.down
  | _ => True

/-- A call that is not re-entrant is the application's; one on `packetListen` or under
    nodeLock was made after the shutdown, and one under mergeLock is under nodeLock. -/
structure CallOk (g : Past) (i : Nat) (t : Thread) (reentrant : Bool) (stage : Stage) (under : Option (List Inner)) :
    Prop where
  app : reentrant = false → t.kind = .app ∧ under = none
  merge : under = none → t.merge = none
  late : i = 0 ∨ under ≠ none → g.down
  body : ∀ body, under = some body → ∀ x ∈ body, x.Tame
  stage : StageOk g stage

/-- What is known of goroutine `i`, which is `t`, where it is in the middle of something. -/
def FrameOk (g : Past) (i : Nat) (t : Thread) : Frame → Prop
  | .announcing _ body => ∀ x ∈ body, x.Tame
  | .locking _ body => ∀ x ∈ body, x.Tame
  | .entered _ body => ∀ x ∈ body, x.Tame
  | .inside body => ∀ x ∈ body, x.Tame
  | .shutdown reentrant stage under => CallOk g i t reentrant stage under
  | .finishing _ stage => t.kind = .app ∧ t.merge = none ∧ g.down ∧ (stage = .sealed ∨ stage = .joining → g.sealed)
  | _ => True

/-- There is one timeout message and one ack at most, so that there is a slot for the one that
    is put back if the channel has two; and something comes for a probe that waits. -/
structure Probe.Ok (i : Nat) (p : Probe) : Prop where
  works : ∀ w ∈ p.works, w.Fits i
  later : ∀ w ∈ p.answered ++ p.asks ++ p.fails, w.Fits i
  timeouts : p.acks.count false + p.timer.toNat + (decide (p.stage = .requeueing)).toNat ≤ 1
  answers : p.acks.count true + p.handler.toNat + p.taken.toNat ≤ 1
  heard : p.stage = .selecting ∨ p.stage = .waiting → p.timer = true ∨ p.taken = true ∨ p.acks ≠ []

structure ThreadOk (g : Past) (i : Nat) (t : Thread) : Prop where
  exited : t.kind = .tracked → t.exited = true → g.down
  frame : FrameOk g i t t.frame
  merge : ∀ ls, t.merge = some ls → ∀ l ∈ ls, l.Tame
  probe : ∀ p, t.probe = some p → p.Ok i
  todo : ∀ x ∈ t.todo, x.Fits i

structure Inv (s : State) : Prop where
  threads : ∀ i, ThreadOk s.past i (s.threads i)
  beyond : ∀ i, s.bound ≤ i → (s.threads i).idle = true
  few : 3 ≤ s.bound
  checks : 0 < s.indirectChecks
  listener : (s.threads 0).kind = .tracked
  dispatcher : (s.threads 2).kind = .dispatcher
  down : s.shutdown = true → s.gone
  stream : s.streamExited = true → s.shutdown = true
  udp : ∀ u items, s.udp u = .sending items → ∀ x ∈ items, x.Fits 0
  tcp : ∀ u items, s.tcp u = .sending items → ∀ x ∈ items, x.Fits 1
  high : ∀ ws ∈ s.highPriority, ∀ w ∈ ws, w.Fits 1
  low : ∀ ws ∈ s.lowPriority, ∀ w ∈ ws, w.Fits 1

section
variable {g g' : Past} {i : Nat} {t : Thread}

theorem Past.le_refl (g : Past) : g.Le g := ⟨id,id,id,id,id⟩

theorem stageOk_mono (le : g.Le g') {stage : Stage} (ok : StageOk g stage) : StageOk g' stage := by
  cases stage with
  | closing => exact le.flagged ok
  | waiting => exact ⟨le.flagged ok.1,le.closed ok.2⟩
  | setting => exact le.gone ok
  | releasing => exact le.down ok
  | _ => trivial

theorem frameOk_mono (le : g.Le g') {f : Frame} (ok : FrameOk g i t f) : FrameOk g' i t f := by
  cases f with
  | shutdown reentrant stage under =>
    exact ⟨ok.app,ok.merge,fun stage => le.down (ok.late stage),ok.body,stageOk_mono le ok.stage⟩
  | finishing call stage => exact ⟨ok.1,ok.2.1,le.down ok.2.2.1,fun late => le.sealed (ok.2.2.2 late)⟩
  | _ => exact ok

theorem threadOk_mono (le : g.Le g') (ok : ThreadOk g i t) : ThreadOk g' i t :=
  ⟨fun kind exited => le.down (ok.exited kind exited),frameOk_mono le ok.frame,ok.merge,ok.probe,ok.todo⟩

/-- What is known of a goroutine depends on its kind and on mergeLock only. -/
theorem frameOk_congr {t' : Thread} {f : Frame} (kind : t'.kind = t.kind) (merge : t'.merge = t.merge)
    (ok : FrameOk g i t f) : FrameOk g i t' f := by
  cases f with
  | shutdown reentrant stage under =>
    exact ⟨fun own => kind ▸ ok.app own,fun free => merge.trans (ok.merge free),ok.late,ok.body,ok.stage⟩
  | finishing call stage => exact ⟨kind.trans ok.1,merge.trans ok.2.1,ok.2.2⟩
  | _ => exact ok

/-- A goroutine moves on within what it is in the middle of. -/
theorem threadOk_frame {f : Frame} (ok : ThreadOk g i t) (frame : FrameOk g i t f) : ThreadOk g i { t with frame := f } :=
  ⟨ok.exited,frameOk_congr (t := t) rfl rfl frame,ok.merge,ok.probe,ok.todo⟩

theorem threads_set {threads : Nat → Thread} (le : g.Le g') (ok : ∀ j, ThreadOk g j (threads j)) (new : ThreadOk g' i t)
    (j : Nat) : ThreadOk g' j (update threads i t j) := by
  by_cases here : j = i
  · rw [here,update_self]
    exact new
  · rw [update_of_ne here]
    exact threadOk_mono le (ok j)

end

section
variable {s : State} {i : Nat} {t : Thread}

theorem kind_set {j : Nat} {kind : Kind} (same : t.kind = (s.threads i).kind) (before : (s.threads j).kind = kind) :
    (update s.threads i t j).kind = kind := by
  by_cases here : j = i
  · rw [here,update_self,same,← here]
    exact before
  · rw [update_of_ne here]
    exact before

theorem beyond_set (inv : Inv s) (within : i < s.bound) (j : Nat) (outside : s.bound ≤ j) :
    (update s.threads i t j).idle = true := by
  rw [update_of_ne (by omega)]
  exact inv.beyond j outside

theorem inv_set (inv : Inv s) (within : i < s.bound) (same : t.kind = (s.threads i).kind) (ok : ThreadOk s.past i t) :
    Inv (s.set i t) :=
  { inv with
    threads := threads_set s.past.le_refl inv.threads ok
    beyond := beyond_set inv within
    listener := kind_set same inv.listener
    dispatcher := kind_set same inv.dispatcher }

theorem inv_at {f : Frame} (inv : Inv s) (within : i < s.bound) (ok : FrameOk s.past i (s.threads i) f) :
    Inv (s.moveTo i f) :=
  inv_set inv within rfl (threadOk_frame (inv.threads i) ok)

theorem inv_add (inv : Inv s) (ok : ThreadOk s.past s.bound t) : Inv (s.add t) :=
  { inv with
    threads := threads_set s.past.le_refl inv.threads ok
    beyond j outside := by
      have past : s.bound + 1 ≤ j := outside
      change (update s.threads s.bound t j).idle = true
      rw [update_of_ne (by omega)]
      exact inv.beyond j (by omega)
    few := Nat.le_succ_of_le inv.few
    listener := by
      have few := inv.few
      change (update s.threads s.bound t 0).kind = .tracked
      rw [update_of_ne (by omega)]
      exact inv.listener
    dispatcher := by
      have few := inv.few
      change (update s.threads s.bound t 2).kind = .dispatcher
      rw [update_of_ne (by omega)]
      exact inv.dispatcher }

theorem inv_enqueue (inv : Inv s) (alive : Bool) {ws : List Work} (fits : ∀ w ∈ ws, w.Fits 1) : Inv (s.enqueue alive ws) := by
  have pushed : ∀ {queue : List (List Work)}, (∀ ws ∈ queue, ∀ w ∈ ws, w.Fits 1) → ∀ ws' ∈ ws :: queue, ∀ w ∈ ws', w.Fits 1 := by
    intro queue old ws' member
    rcases List.mem_cons.mp member with rfl | later
    · exact fits
    · exact old ws' later
  unfold State.enqueue
  split_ifs
  · exact { inv with high := pushed inv.high }
  · exact inv
  · exact { inv with low := pushed inv.low }
  · exact inv

theorem idle_iff {t : Thread} : t.idle = true ↔ t.frame = .ready ∧ t.merge = none ∧ t.probe = none ∧ t.todo = [] := by
  unfold Thread.idle
  split
  · next frame merge probe todo => exact ⟨fun _ => ⟨frame,merge,probe,todo⟩,fun _ => rfl⟩
  · next other =>
    refine ⟨(fun wrong => by cases wrong),?_⟩
    rintro ⟨frame,merge,probe,todo⟩
    exact (other frame merge probe todo).elim

theorem within_of_busy (inv : Inv s) (busy : (s.threads i).idle = false) : i < s.bound := by
  by_contra outside
  rw [inv.beyond i (by omega)] at busy
  cases busy

theorem busy_of_frame {f : Frame} (here : (s.threads i).frame = f) (busy : f ≠ .ready) : (s.threads i).idle = false := by
  rw [← Bool.not_eq_true,idle_iff]
  exact fun idle => busy (here.symm.trans idle.1)

theorem patient_down {calls : Decision} {down : Bool} (patient : Patient calls) (called : calls down = true) : down = true := by
  cases down with
  | true => rfl
  | false =>
    rw [patient] at called
    cases called

theorem locked_ok {l : Locked} (tame : l.Tame) : FrameOk s.past i t l.start := by
  cases l with
  | read => trivial
  | write fenced body => exact tame

theorem start_ok {w : Work} (fits : w.Fits i) (merge : t.merge = none) : FrameOk s.past i t (w.start s.shutdown) := by
  cases w with
  | callback calls =>
    simp only [Work.start]
    split_ifs with called
    · refine ⟨(fun wrong => by cases wrong),fun _ => merge,?_,(fun _ wrong => by cases wrong),trivial⟩
      rintro (listener | wrong)
      · exact patient_down (fits listener) called
      · exact absurd rfl wrong
    · trivial
  | locked l => exact locked_ok fits

section
variable {p q : Probe} {c : Nat}

theorem probe_ok {pings answered asks fails : List Work} (fits : ∀ w ∈ pings ++ answered ++ asks ++ fails, w.Fits i) :
    Probe.Ok i { works := pings, answered := answered, asks := asks, fails := fails } where
  works w member := fits w (by simp [member])
  later w member := fits w (by simp only [List.append_assoc] at member ⊢; exact List.mem_append_right _ member)
  timeouts := by simp
  answers := by simp
  heard _ := .inl rfl

theorem send_acks (c : Nat) (complete : Bool) (p : Probe) :
    (p.send c complete).acks ≠ [] ∧ (p.send c complete).acks.count complete ≤ p.acks.count complete + 1 ∧
      (p.send c complete).acks.count (!complete) = p.acks.count (!complete) := by
  unfold Probe.send
  split_ifs with room
  · cases complete <;> simp
  · refine ⟨fun none => room ?_,Nat.le_succ _,rfl⟩
    rw [none]
    exact Nat.succ_pos c

theorem send_same (c : Nat) (complete : Bool) (p : Probe) : p.send c complete = { p with acks := (p.send c complete).acks } := by
  unfold Probe.send
  split_ifs <;> rfl

theorem ok_fire (ok : p.Ok i) : (p.fire c).Ok i := by
  obtain ⟨some,more,same⟩ := send_acks c false p
  have timeouts := ok.timeouts
  unfold Probe.fire
  split_ifs with runs
  · rw [send_same]
    rw [runs,Bool.toNat_true] at timeouts
    refine ⟨ok.works,ok.later,?_,?_,fun _ => .inr (.inr some)⟩
    · simp only [Bool.toNat_false]
      omega
    · exact same ▸ ok.answers
  · exact ok

theorem ok_take (ok : p.Ok i) : p.take.Ok i := by
  have answers := ok.answers
  unfold Probe.take
  split_ifs with stored
  · rw [stored,Bool.toNat_true] at answers
    refine ⟨ok.works,ok.later,ok.timeouts,?_,fun _ => .inr (.inl rfl)⟩
    simp only [Bool.toNat_false,Bool.toNat_true]
    omega
  · exact ok

theorem ok_answer (ok : p.Ok i) : (p.answer c).Ok i := by
  obtain ⟨some,more,same⟩ := send_acks c true p
  have timeouts := ok.timeouts
  have answers := ok.answers
  unfold Probe.answer
  split_ifs with taken
  · rw [send_same]
    rw [taken,Bool.toNat_true] at answers
    simp only [Bool.not_true] at same
    refine ⟨ok.works,ok.later,?_,?_,fun _ => .inr (.inr some)⟩
    · simp only [Bool.toNat_false,same]
      omega
    · simp only [Bool.toNat_false]
      omega
  · exact ok

theorem ok_timeOut (ok : p.Ok i) : p.timeOut.Ok i := by
  unfold Probe.timeOut
  split
  · next stage _ =>
    have timeouts := ok.timeouts
    refine ⟨fun w member => ok.later w (by simp [member]),ok.later,?_,ok.answers,fun _ => ok.heard (.inl stage)⟩
    simpa [stage] using timeouts
  · exact ok

theorem ok_look (ok : p.Ok i) (looked : p.look c = some (some q)) : q.Ok i := by
  obtain ⟨works,later,timeouts,answers,heard⟩ := ok
  unfold Probe.look at looked
  split at looked
  · next stage acks =>
    cases looked
    refine ⟨fun w member => later w (by simp [member]),later,?_,answers,fun wrong => by simp at wrong⟩
    simpa [stage] using timeouts
  · next rest stage acks =>
    cases looked
    rw [acks] at timeouts answers
    simp only [stage,List.count_cons_self] at timeouts
    refine ⟨works,later,?_,by simpa using answers,fun wrong => by simp at wrong⟩
    simp only [decide_true,Bool.toNat_true]
    omega
  · next stage =>
    split_ifs at looked
    cases looked
    simp only [stage,decide_true,Bool.toNat_true] at timeouts
    refine ⟨fun w member => later w (by simp [member]),later,?_,by simpa using answers,fun _ => .inr (.inr (by simp))⟩
    simp only [List.count_append,List.count_singleton_self,reduceCtorEq,decide_false,Bool.toNat_false]
    omega
  · cases looked
  · next stage acks =>
    cases looked
    refine ⟨fun w member => later w (by simp [member]),later,?_,answers,fun wrong => by simp at wrong⟩
    simpa [stage] using timeouts
  · cases looked
  · cases looked

end

theorem inv_probeNode {p : Probe} (inv : Inv s) (within : i < s.bound) (here : (s.threads i).frame = .ready)
    (merge : (s.threads i).merge = none) (fine : p.Ok i) : Inv (probeNode s i p) := by
  have ok := inv.threads i
  simp only [probeNode]
  split
  · next w ws works =>
    have fits := fine.works
    rw [works] at fits
    refine inv_set inv within rfl ⟨ok.exited,start_ok (fits w List.mem_cons_self) merge,ok.merge,fun q same => ?_,ok.todo⟩
    cases same
    exact ⟨fun w member => fits w (List.mem_cons_of_mem _ member),fine.later,fine.timeouts,fine.answers,fine.heard⟩
  · split
    · next next looked =>
      refine inv_set inv within rfl ⟨ok.exited,?_,ok.merge,fun q same => ?_,ok.todo⟩
      · rw [here]
        trivial
      · cases same
        exact ok_look fine looked
    · exact inv

theorem busy_of_probe {p : Probe} (made : (s.threads i).probe = some p) : (s.threads i).idle = false := by
  rw [← Bool.not_eq_true,idle_iff,made]
  exact fun idle => by cases idle.2.2.1

theorem inv_tell (inv : Inv s) (i : Nat) {f : Probe → Probe} (kept : ∀ p : Probe, p.Ok i → (f p).Ok i) : Inv (s.tell i f) := by
  have ok := inv.threads i
  unfold State.tell
  split
  · next p made =>
    refine inv_set inv (within_of_busy inv (busy_of_probe made)) rfl
      ⟨ok.exited,frameOk_congr (t := s.threads i) rfl rfl ok.frame,ok.merge,fun q told => ?_,ok.todo⟩
    cases told
    exact kept p (ok.probe p made)
  · exact inv

theorem inv_begin (inv : Inv s) (within : i < s.bound) (here : (s.threads i).frame = .ready) : Inv (beginItem s i) := by
  have ok := inv.threads i
  have rest_fits : ∀ {x rest}, (s.threads i).todo = x :: rest → x.Fits i ∧ ∀ x ∈ rest, x.Fits i := by
    intro x rest todo
    have fits := ok.todo
    rw [todo] at fits
    exact ⟨fits x List.mem_cons_self,fun x member => fits x (List.mem_cons_of_mem _ member)⟩
  have ready : ∀ {t : Thread}, t.frame = (s.threads i).frame → FrameOk s.past i t t.frame := by
    intro t same
    rw [same,here]
    trivial
  simp only [beginItem]
  split
  · exact inv_set inv within rfl ⟨ok.exited,ready rfl,(fun _ wrong => by cases wrong),ok.probe,ok.todo⟩
  · next l ls merge =>
    have tame := ok.merge _ merge
    refine inv_set inv within rfl ⟨ok.exited,locked_ok (tame l List.mem_cons_self),?_,ok.probe,ok.todo⟩
    intro ls' left l' member
    cases left
    exact tame l' (List.mem_cons_of_mem _ member)
  · next p merge probe => exact inv_probeNode inv within here merge (ok.probe p probe)
  · next merge _ =>
    split
    · exact inv
    · next pings answered asks fails rest todo =>
      obtain ⟨first,later⟩ := rest_fits todo
      refine inv_set inv within rfl ⟨ok.exited,ready rfl,ok.merge,fun p new => ?_,later⟩
      cases new
      exact probe_ok first
    · next w rest todo =>
      obtain ⟨first,later⟩ := rest_fits todo
      exact inv_set inv within rfl ⟨ok.exited,start_ok first merge,ok.merge,ok.probe,later⟩
    · next ls rest todo =>
      obtain ⟨first,later⟩ := rest_fits todo
      split_ifs
      · exact inv
      · refine inv_set inv within rfl ⟨ok.exited,ready rfl,fun ls' taken => ?_,ok.probe,later⟩
        cases taken
        exact first
    · next alive ws rest todo =>
      obtain ⟨first,later⟩ := rest_fits todo
      have popped : Inv (s.set i { s.threads i with todo := rest }) :=
        inv_set inv within rfl ⟨ok.exited,ready rfl,ok.merge,ok.probe,later⟩
      exact inv_enqueue popped alive first

/-- Something happens for good while a goroutine moves on. -/
theorem inv_past {s' : State} {f : Frame} (inv : Inv s) (within : i < s.bound) (le : s.past.Le s'.past)
    (threads : s'.threads = (s.moveTo i f).threads) (bound : s'.bound = s.bound)
    (ok : FrameOk s'.past i (s.threads i) f) (down : s'.shutdown = true → s'.gone)
    (stream : s'.streamExited = s.streamExited) (udp : s'.udp = s.udp) (tcp : s'.tcp = s.tcp)
    (high : s'.highPriority = s.highPriority) (low : s'.lowPriority = s.lowPriority)
    (checks : s'.indirectChecks = s.indirectChecks) : Inv s' where
  threads := by
    rw [threads]
    exact threads_set le inv.threads (threadOk_frame (threadOk_mono le (inv.threads i)) ok)
  beyond := by
    rw [threads,bound]
    exact beyond_set inv within
  few := bound ▸ inv.few
  checks := checks ▸ inv.checks
  listener := by
    rw [threads]
    exact kind_set rfl inv.listener
  dispatcher := by
    rw [threads]
    exact kind_set rfl inv.dispatcher
  down := down
  stream gone := le.down (inv.stream (stream ▸ gone))
  udp := udp ▸ inv.udp
  tcp := tcp ▸ inv.tcp
  high := high ▸ inv.high
  low := low ▸ inv.low

theorem resume_ok {under : Option (List Inner)} (body : ∀ body, under = some body → ∀ x ∈ body, x.Tame) :
    FrameOk s.past i t (resume under) := by
  cases under with
  | none => trivial
  | some rest => exact body rest rfl

theorem inv_tear (inv : Inv s) (within : i < s.bound) {reentrant : Bool} {stage : Stage} {under : Option (List Inner)}
    (ok : CallOk s.past i (s.threads i) reentrant stage under) : Inv (tear s i reentrant under stage) := by
  have moved : ∀ {stage'}, StageOk s.past stage' → CallOk s.past i (s.threads i) reentrant stage' under :=
    fun stage' => ⟨ok.app,ok.merge,ok.late,ok.body,stage'⟩
  cases stage with
  | acquiring =>
    simp only [tear]
    split_ifs
    · exact inv
    · exact inv_at inv within (moved trivial)
  | checking =>
    simp only [tear]
    split_ifs with down
    · exact inv_at inv within (moved down)
    · exact inv_at inv within (moved trivial)
  | flagging =>
    refine inv_past inv within ⟨fun _ => rfl,id,id,id,id⟩ rfl rfl ?_ inv.down rfl rfl rfl rfl rfl rfl
    exact ⟨ok.app,ok.merge,ok.late,ok.body,rfl⟩
  | closing =>
    refine inv_past inv within ⟨id,fun _ => rfl,id,id,id⟩ rfl rfl ?_ inv.down rfl rfl rfl rfl rfl rfl
    exact ⟨ok.app,ok.merge,ok.late,ok.body,ok.stage,rfl⟩
  | waiting =>
    simp only [tear]
    split_ifs with gone
    · exact inv_at inv within (moved gone)
    · exact inv
  | setting =>
    refine inv_past inv within ⟨id,id,id,fun _ => rfl,id⟩ rfl rfl ?_ (fun _ => ok.stage) rfl rfl rfl rfl rfl rfl
    exact ⟨ok.app,ok.merge,fun _ => rfl,ok.body,rfl⟩
  | releasing did =>
    simp only [tear]
    split_ifs with again spawns
    · have returned := inv_at inv within (resume_ok ok.body)
      refine inv_add returned ⟨(fun wrong => by cases wrong),⟨rfl,rfl,ok.stage,?_⟩,(fun _ wrong => by cases wrong),
        (fun _ wrong => by cases wrong),(fun _ wrong => by cases wrong)⟩
      rintro (wrong | wrong) <;> cases wrong
    · exact inv_at inv within (resume_ok ok.body)
    · obtain ⟨kind,outside⟩ := ok.app (by simpa using again)
      refine inv_at inv within ⟨kind,ok.merge outside,ok.stage,?_⟩
      rintro (wrong | wrong) <;> cases wrong

theorem inv_finishShutdown (inv : Inv s) (within : i < s.bound) {call : Bool} {stage : Finish}
    (ok : FrameOk s.past i (s.threads i) (.finishing call stage)) : Inv (finishShutdown s i call stage) := by
  obtain ⟨kind,merge,down,late⟩ := ok
  cases stage with
  | waiting =>
    simp only [finishShutdown]
    split_ifs
    · refine inv_at inv within ⟨kind,merge,down,?_⟩
      rintro (wrong | wrong) <;> cases wrong
    · exact inv
  | announcing =>
    simp only [finishShutdown]
    split_ifs
    · exact inv
    · refine inv_at inv within ⟨kind,merge,down,?_⟩
      rintro (wrong | wrong) <;> cases wrong
  | locking =>
    simp only [finishShutdown]
    split_ifs
    · exact inv
    · refine inv_at inv within ⟨kind,merge,down,?_⟩
      rintro (wrong | wrong) <;> cases wrong
  | holding =>
    refine inv_past inv within ⟨id,id,id,id,fun _ => rfl⟩ rfl rfl ?_ inv.down rfl rfl rfl rfl rfl rfl
    exact ⟨kind,merge,down,fun _ => rfl⟩
  | sealed => exact inv_at inv within ⟨kind,merge,down,fun _ => late (.inl rfl)⟩
  | joining =>
    simp only [finishShutdown]
    split_ifs
    · exact inv_at inv within trivial
    · exact inv

theorem inv_go (inv : Inv s) (i : Nat) : Inv (go s i) := by
  have frame := (inv.threads i).frame
  by_cases within : i < s.bound
  · unfold go
    cases here : (s.threads i).frame with
    | ready => exact inv_begin inv within here
    | rlocking =>
      simp only
      split_ifs
      · exact inv
      · exact inv_at inv within trivial
    | reading => exact inv_at inv within trivial
    | announcing fenced body =>
      rw [here] at frame
      simp only
      split_ifs
      · exact inv
      · exact inv_at inv within frame
    | locking fenced body =>
      rw [here] at frame
      simp only
      split_ifs
      · exact inv
      · exact inv_at inv within frame
    | entered fenced body =>
      rw [here] at frame
      refine inv_at inv within ?_
      split_ifs
      · exact fun x member => absurd member List.not_mem_nil
      · exact frame
    | inside body =>
      rw [here] at frame
      cases body with
      | nil => exact inv_at inv within trivial
      | cons x body =>
        have first := frame x List.mem_cons_self
        have later : ∀ x ∈ body, x.Tame := fun x member => frame x (List.mem_cons_of_mem _ member)
        cases x with
        | notify calls =>
          refine inv_at inv within ?_
          split_ifs with called
          · refine ⟨(fun wrong => by cases wrong),(fun wrong => by cases wrong),fun _ => patient_down first called,
              fun body' rest => ?_,trivial⟩
            cases rest
            exact later
          · exact later
        | emit calls => exact { inv_at (f := .inside body) inv within later with }
    | shutdown reentrant stage under =>
      rw [here] at frame
      exact inv_tear inv within frame
    | finishing call stage =>
      rw [here] at frame
      exact inv_finishShutdown inv within frame
  · obtain ⟨ready,merge,probe,todo⟩ := idle_iff.mp (inv.beyond i (by omega))
    simp only [go,ready,beginItem,merge,probe,todo]
    exact inv

theorem not_gone_udp {u : Nat} (within : u < s.udps) (here : (s.udp u).gone = false) : ¬ s.gone := by
  intro gone
  rw [gone.1 u within] at here
  cases here

theorem not_gone_tcp {u : Nat} (within : u < s.tcps) (here : (s.tcp u).gone = false) : ¬ s.gone := by
  intro gone
  rw [gone.2 u within] at here
  cases here

/-- One listener changes, while not all have exited. -/
theorem inv_listeners {udp tcp : Nat → Listener} (inv : Inv s) (remains : ¬ s.gone)
    (fits : ∀ u items, udp u = .sending items → ∀ x ∈ items, x.Fits 0)
    (fits' : ∀ u items, tcp u = .sending items → ∀ x ∈ items, x.Fits 1) : Inv { s with udp := udp, tcp := tcp } := by
  have up : ¬ s.shutdown = true := fun down => remains (inv.down down)
  have le : s.past.Le { s with udp := udp, tcp := tcp }.past := ⟨id,id,fun gone => absurd gone remains,id,id⟩
  exact { inv with
    threads := fun j => threadOk_mono le (inv.threads j)
    down := fun down => absurd down up
    udp := fits
    tcp := fits' }

theorem fits_update {k u : Nat} {l : Listener} {listeners : Nat → Listener}
    (old : ∀ u items, listeners u = .sending items → ∀ x ∈ items, x.Fits k)
    (new : ∀ items, l = .sending items → ∀ x ∈ items, x.Fits k) :
    ∀ u' items, update listeners u l u' = .sending items → ∀ x ∈ items, x.Fits k := by
  intro u' items sending
  by_cases here : u' = u
  · rw [here,update_self] at sending
    exact new items sending
  · rw [update_of_ne here] at sending
    exact old u' items sending

theorem nothing_fits {k : Nat} {l : Listener} (silent : ∀ items, l ≠ .sending items) :
    ∀ items, l = .sending items → ∀ x ∈ items, x.Fits k := fun items sending => absurd sending (silent items)

theorem fits_sending {k : Nat} {items : List Item} (fits : ∀ x ∈ items, x.Fits k) :
    ∀ items', Listener.sending items = .sending items' → ∀ x ∈ items', x.Fits k := by
  intro items' same
  cases same
  exact fits

theorem inv_arrive (inv : Inv s) (u : Nat) {items : List Item} (fits : ∀ x ∈ items, x.Fits 0) :
    Inv (step s (.arrive u items)) := by
  simp only [step]
  split
  · next reading =>
    split_ifs with reads
    · exact inv_listeners inv (not_gone_udp reads.1 (by rw [reading]; rfl)) (fits_update inv.udp (fits_sending fits)) inv.tcp
    · exact inv
  · exact inv

theorem inv_connect (inv : Inv s) (u : Nat) {items : List Item} (fits : ∀ x ∈ items, x.Fits 1) :
    Inv (step s (.connect u items)) := by
  simp only [step]
  split
  · next reading =>
    split_ifs with reads
    · exact inv_listeners inv (not_gone_tcp reads.1 (by rw [reading]; rfl)) inv.udp (fits_update inv.tcp (fits_sending fits))
    · exact inv
  · exact inv

theorem silent_reading (items : List Item) : Listener.reading ≠ .sending items := fun wrong => by cases wrong

theorem silent_exited (items : List Item) : Listener.exited ≠ .sending items := fun wrong => by cases wrong

theorem inv_failUdp (inv : Inv s) (u : Nat) : Inv (step s (.failUdp u)) := by
  simp only [step]
  split
  · next reading =>
    split_ifs with failed
    · have remains : ¬ s.gone := not_gone_udp failed.1 (by rw [reading]; rfl)
      exact inv_listeners inv remains (fits_update inv.udp (nothing_fits silent_exited)) inv.tcp
    · exact inv
  · exact inv

theorem inv_failTcp (inv : Inv s) (u : Nat) : Inv (step s (.failTcp u)) := by
  simp only [step]
  split
  · next reading =>
    split_ifs with failed
    · have remains : ¬ s.gone := not_gone_tcp failed.1 (by rw [reading]; rfl)
      exact inv_listeners inv remains inv.udp (fits_update inv.tcp (nothing_fits silent_exited))
    · exact inv
  · exact inv

theorem todo_ok {items : List Item} (ok : ThreadOk s.past i (s.threads i)) (fits : ∀ x ∈ items, x.Fits i) :
    ThreadOk s.past i { s.threads i with todo := items } :=
  ⟨ok.exited,frameOk_congr (t := s.threads i) rfl rfl ok.frame,ok.merge,ok.probe,fits⟩

theorem new_ok {items : List Item} (inv : Inv s) (fits : ∀ x ∈ items, x.Fits 1) :
    ThreadOk s.past s.bound { kind := .tracked, todo := items } := by
  have few := inv.few
  refine ⟨(fun _ wrong => by cases wrong),trivial,(fun _ wrong => by cases wrong),(fun _ wrong => by cases wrong),?_⟩
  intro x member
  exact Item.fits_other (fits x member) (by omega)

theorem inv_receive (inv : Inv s) (u : Nat) : Inv (step s (.receive u)) := by
  have few := inv.few
  simp only [step]
  split
  · next items sending =>
    split_ifs with free
    · have given : Inv (s.set 0 { s.threads 0 with todo := items }) :=
        inv_set inv (by omega) rfl (todo_ok (inv.threads 0) (inv.udp u items sending))
      have remains : ¬ s.gone := not_gone_udp free.1 (by rw [sending]; rfl)
      exact inv_listeners given remains (fits_update inv.udp (nothing_fits silent_reading)) inv.tcp
    · exact inv
  · exact inv

theorem inv_accept (inv : Inv s) (u : Nat) : Inv (step s (.accept u)) := by
  simp only [step]
  split
  · next items sending =>
    split_ifs with free
    · have given : Inv (s.add { kind := .tracked, todo := items }) := inv_add inv (new_ok inv (inv.tcp u items sending))
      have remains : ¬ s.gone := not_gone_tcp free.1 (by rw [sending]; rfl)
      exact inv_listeners given remains inv.udp (fits_update inv.tcp (nothing_fits silent_reading))
    · exact inv
  · exact inv

theorem fits_map {ws : List Work} (fits : ∀ w ∈ ws, w.Fits 1) : ∀ x ∈ ws.map Item.work, x.Fits 1 := by
  intro x member
  obtain ⟨w,old,rfl⟩ := List.mem_map.mp member
  exact fits w old

theorem inv_take (inv : Inv s) : Inv (take s) := by
  have few := inv.few
  have given : ∀ {ws : List Work}, (∀ w ∈ ws, w.Fits 1) → Inv (s.set 1 { s.threads 1 with todo := ws.map .work }) :=
    fun fits => inv_set inv (by omega) rfl (todo_ok (inv.threads 1) (fits_map fits))
  unfold take
  cases high : s.highPriority with
  | cons ws rest =>
    have old := inv.high
    rw [high] at old
    exact { given (old ws List.mem_cons_self) with high := fun ws' member => old ws' (List.mem_cons_of_mem _ member) }
  | nil =>
    cases low : s.lowPriority with
    | cons ws rest =>
      have old := inv.low
      rw [low] at old
      exact { given (old ws List.mem_cons_self) with low := fun ws' member => old ws' (List.mem_cons_of_mem _ member) }
    | nil => exact inv

theorem inv_deliver (inv : Inv s) : Inv (step s .deliver) := by
  have few := inv.few
  simp only [step]
  split
  · next calls rest _ =>
    split_ifs
    · have given : Inv (s.set 2 { s.threads 2 with todo := [.work (.callback calls)] }) := by
        refine inv_set inv (by omega) rfl (todo_ok (inv.threads 2) (fun x member => ?_))
        rw [List.mem_singleton.mp member]
        exact fun wrong => by cases wrong
      exact { given with }
    · exact inv
  · exact inv

theorem inv_exit (inv : Inv s) (i : Nat) : Inv (step s (.exit i)) := by
  have ok := inv.threads i
  simp only [step]
  split_ifs with may
  · refine inv_set inv may.1 rfl ⟨fun kind _ => ?_,frameOk_congr (t := s.threads i) rfl rfl ok.frame,ok.merge,ok.probe,ok.todo⟩
    have down := may.2.2.2
    simp only at kind
    rw [mayExit,kind] at down
    exact down
  · exact inv

theorem inv_step (s : State) (act : Act) (inv : Inv s) (tame : act.Tame) : Inv (step s act) := by
  cases act with
  | arrive u items => exact inv_arrive inv u tame
  | connect u items => exact inv_connect inv u tame
  | app =>
    exact inv_add inv ⟨(fun wrong => by cases wrong),trivial,(fun _ wrong => by cases wrong),(fun _ wrong => by cases wrong),
      (fun _ wrong => by cases wrong)⟩
  | spawn p items =>
    simp only [step]
    split_ifs
    · exact inv_add inv (new_ok inv tame)
    · exact inv
  | give i items =>
    simp only [step]
    split_ifs with free
    · exact inv_set inv free.2.1 rfl
        (todo_ok (inv.threads i) (fun x member => Item.fits_other (tame x member) (by omega)))
    · exact inv
  | call i =>
    simp only [step]
    split_ifs with free
    · have ne : i ≠ 0 := by
        rintro rfl
        have kind := inv.listener
        rw [free.2.1] at kind
        cases kind
      refine inv_at inv free.1 ⟨fun _ => ⟨free.2.1,rfl⟩,fun _ => (idle_iff.mp free.2.2).2.1,?_,(fun _ wrong => by cases wrong),trivial⟩
      rintro (wrong | wrong)
      · exact absurd wrong ne
      · exact absurd rfl wrong
    · exact inv
  | go i => exact inv_go inv i
  | receive u => exact inv_receive inv u
  | accept u => exact inv_accept inv u
  | failUdp u => exact inv_failUdp inv u
  | failTcp u => exact inv_failTcp inv u
  | take =>
    simp only [step]
    split_ifs
    · exact inv_take inv
    · exact inv
  | deliver => exact inv_deliver inv
  | exit i => exact inv_exit inv i
  | exitStream =>
    simp only [step]
    split_ifs with down
    · exact { inv with stream := fun _ => down }
    · exact inv
  | takeHandler i => exact inv_tell inv i (fun _ => ok_take)
  | answer i => exact inv_tell inv i (fun _ => ok_answer)
  | fire i => exact inv_tell inv i (fun _ => ok_fire)
  | timeOut i =>
    simp only [step]
    split
    · exact inv_tell inv i (fun _ => ok_timeOut)
    · exact inv

theorem inv_initial (depth : Nat) {indirectChecks : Nat} (checks : 0 < indirectChecks) (udps tcps : Nat) :
    Inv (initial depth indirectChecks udps tcps) where
  threads i := ⟨(fun _ wrong => by cases wrong),trivial,(fun _ wrong => by cases wrong),(fun _ wrong => by cases wrong),
    (fun _ wrong => by cases wrong)⟩
  beyond _ _ := rfl
  few := Nat.le_refl 3
  checks := checks
  listener := rfl
  dispatcher := rfl
  down wrong := by cases wrong
  stream wrong := by cases wrong
  udp _ _ wrong := by cases wrong
  tcp _ _ wrong := by cases wrong
  high _ wrong := by cases wrong
  low _ wrong := by cases wrong

end

/-! ## The work that is left

Everything that is pending has a weight, which pays for what it starts.
-/

def Inner.weight : Inner → Nat
  | .notify _ => 22
  | .emit _ => 25

def bodyWeight (inner : List Inner) : Nat := (inner.map Inner.weight).sum

def Locked.weight : Locked → Nat
  | .read => 3
  | .write _ inner => 5 + bodyWeight inner

def Work.weight : Work → Nat
  | .callback _ => 22
  | .locked l => l.weight

def worksWeight (ws : List Work) : Nat := (ws.map Work.weight).sum

def lockedWeight (ls : List Locked) : Nat := (ls.map Locked.weight).sum

def Item.weight : Item → Nat
  | .work w => w.weight
  | .merge ls => 2 + lockedWeight ls
  | .handoff _ ws => 2 + worksWeight ws
  | .probe pings answered asks fails => 6 + worksWeight pings + worksWeight answered + worksWeight asks + worksWeight fails

def Probe.weight (p : Probe) : Nat :=
  p.timer.toNat + p.taken.toNat + worksWeight p.works +
    match p.stage with
    | .selecting => 4 + worksWeight p.answered + worksWeight p.asks + worksWeight p.fails
    | .requeueing => 3 + worksWeight p.asks + worksWeight p.fails
    | .waiting => 2 + worksWeight p.fails
    | .ending => 1

def itemsWeight (xs : List Item) : Nat := (xs.map Item.weight).sum

/-- The last stage pays for a reaper. -/
def Stage.weight : Stage → Nat
  | .acquiring => 20
  | .checking => 19
  | .flagging => 18
  | .closing => 17
  | .waiting => 16
  | .setting => 15
  | .releasing _ => 14

def Finish.weight : Finish → Nat
  | .waiting => 7
  | .announcing => 6
  | .locking => 5
  | .holding => 4
  | .sealed => 3
  | .joining => 2

def Frame.weight : Frame → Nat
  | .ready => 0
  | .rlocking => 2
  | .reading => 1
  | .announcing _ inner => 4 + bodyWeight inner
  | .locking _ inner => 3 + bodyWeight inner
  | .entered _ inner => 2 + bodyWeight inner
  | .inside inner => 1 + bodyWeight inner
  | .shutdown _ stage under => stage.weight + under.elim 0 (fun inner => 1 + bodyWeight inner)
  | .finishing _ stage => stage.weight

def Thread.weight (t : Thread) : Nat :=
  (!t.exited).toNat + t.frame.weight + t.merge.elim 0 (fun ls => 1 + lockedWeight ls) + t.probe.elim 0 Probe.weight +
    itemsWeight t.todo

/-- A listener pays for the goroutine that its stream starts. -/
def Listener.weight : Listener → Nat
  | .reading => 1
  | .sending xs => 3 + itemsWeight xs
  | .exited => 0

def queueWeight (queue : List (List Work)) : Nat := (queue.map (fun ws => 1 + worksWeight ws)).sum

def State.work (s : State) : Nat :=
  ∑ j ∈ Finset.range s.bound, (s.threads j).weight + ∑ u ∈ Finset.range s.udps, (s.udp u).weight +
    ∑ u ∈ Finset.range s.tcps, (s.tcp u).weight + queueWeight s.highPriority + queueWeight s.lowPriority +
    24 * s.events.length + (!s.streamExited).toNat

section
variable {s : State} {i : Nat} {t : Thread}

theorem ready_weight : Frame.ready.weight = 0 := rfl

theorem resume_weight (under : Option (List Inner)) :
    (resume under).weight = under.elim 0 (fun inner => 1 + bodyWeight inner) := by
  cases under <;> rfl

theorem locked_weight (l : Locked) : l.start.weight < l.weight := by
  cases l with
  | read => simp [Locked.start,Frame.weight,Locked.weight]
  | write fenced inner =>
    simp only [Locked.start,Frame.weight,Locked.weight]
    omega

theorem start_weight (w : Work) (down : Bool) : (w.start down).weight < w.weight := by
  cases w with
  | callback calls =>
    simp only [Work.start]
    split_ifs
    · simp [Frame.weight,Stage.weight,Work.weight]
    · simp [Frame.weight,Work.weight]
  | locked l => exact locked_weight l

theorem work_set (within : i < s.bound) : (s.set i t).work + (s.threads i).weight = s.work + t.weight := by
  have changed := sum_update Thread.weight s.threads s.bound t within
  simp only [State.work,State.set]
  omega

theorem work_at {f : Frame} (within : i < s.bound) : (s.moveTo i f).work + (s.threads i).frame.weight = s.work + f.weight := by
  have changed := work_set (t := { s.threads i with frame := f }) within
  simp only [Thread.weight] at changed
  simp only [State.moveTo]
  omega

theorem work_add : (s.add t).work = s.work + t.weight := by
  have added := sum_extend Thread.weight s.threads s.bound t
  simp only [State.work,State.add]
  omega

theorem work_enqueue (alive : Bool) (ws : List Work) : (s.enqueue alive ws).work ≤ s.work + 1 + worksWeight ws := by
  unfold State.enqueue
  split_ifs
  · simp only [State.work,queueWeight,List.map_cons,List.sum_cons]
    omega
  · omega
  · simp only [State.work,queueWeight,List.map_cons,List.sum_cons]
    omega
  · omega

/-! ## Blocked goroutines -/

/-- What a goroutine has to wait for, if it is there. -/
def Blocked (s : State) (i : Nat) : Prop :=
  match (s.threads i).frame with
  | .ready =>
    (s.threads i).merge = none ∧
      match (s.threads i).probe,(s.threads i).todo with
      | some p,_ => p.works = [] ∧ p.look s.indirectChecks = none
      | none,[] => True
      | none,.merge _ :: _ => s.merging
      | none,_ => False
  | .rlocking => s.claimed
  | .announcing .. => s.claimed
  | .locking .. => s.read
  | .shutdown _ .acquiring _ => s.torn
  | .shutdown _ .waiting _ => ¬ s.gone
  | .finishing _ .waiting => ¬ s.joined
  | .finishing _ .announcing => s.claimed
  | .finishing _ .locking => s.read
  | .finishing _ .joining => (s.threads 2).exited = false
  | _ => False

theorem look_less {p : Probe} {c : Nat} {next : Option Probe} (works : p.works = []) (looked : p.look c = some next) :
    next.elim 0 Probe.weight < p.weight := by
  have spent : worksWeight p.works = 0 := by rw [works]; rfl
  unfold Probe.look at looked
  split at looked
  · next stage _ =>
    cases looked
    simp only [Option.elim_some,Probe.weight,stage]
    omega
  · next stage _ =>
    cases looked
    simp only [Option.elim_some,Probe.weight,stage]
    omega
  · next stage =>
    split_ifs at looked
    cases looked
    simp only [Option.elim_some,Probe.weight,stage]
    omega
  · next stage _ =>
    cases looked
    simp only [Option.elim_none,Probe.weight,stage]
    omega
  · next stage _ =>
    cases looked
    simp only [Option.elim_some,Probe.weight,stage]
    omega
  · next stage =>
    cases looked
    simp only [Option.elim_none,Probe.weight,stage]
    omega
  · cases looked

theorem work_tell {p : Probe} (f : Probe → Probe) (within : i < s.bound) (made : (s.threads i).probe = some p) :
    (s.tell i f).work + p.weight = s.work + (f p).weight := by
  have changed := work_set (t := { s.threads i with probe := some (f p) }) within
  simp only [Thread.weight,made,Option.elim_some] at changed
  simp only [State.tell,made]
  omega

theorem probeNode_less {p : Probe} (within : i < s.bound) (here : (s.threads i).frame = .ready)
    (made : (s.threads i).probe = some p) (free : ¬ (p.works = [] ∧ p.look s.indirectChecks = none)) :
    (probeNode s i p).work < s.work := by
  simp only [probeNode]
  split
  · next w ws works =>
    have changed := work_set (t := { s.threads i with probe := some { p with works := ws }, frame := w.start s.shutdown }) within
    have less := start_weight w s.shutdown
    simp only [Thread.weight,made,here,Option.elim_some,Probe.weight,works,worksWeight,List.map_cons,List.sum_cons,
      ready_weight] at changed
    omega
  · next works =>
    split
    · next next looked =>
      have changed := work_set (t := { s.threads i with probe := next }) within
      have less := look_less works looked
      simp only [Thread.weight,made,Option.elim_some] at changed
      omega
    · next waits => exact absurd ⟨works,waits⟩ free

theorem begin_less (within : i < s.bound) (here : (s.threads i).frame = .ready) (free : ¬ Blocked s i) :
    (beginItem s i).work < s.work := by
  simp only [Blocked,here] at free
  simp only [beginItem]
  split
  · next _ merge =>
    have changed := work_set (t := { s.threads i with merge := none }) within
    simp only [Thread.weight,merge,Option.elim_none,Option.elim_some,lockedWeight,List.map_nil,List.sum_nil] at changed
    omega
  · next l ls merge =>
    have changed := work_set (t := { s.threads i with merge := some ls, frame := l.start }) within
    have less := locked_weight l
    simp only [Thread.weight,merge,here,Option.elim_some,lockedWeight,List.map_cons,List.sum_cons,ready_weight] at changed
    omega
  · next p merge probe => exact probeNode_less within here probe (fun waits => free ⟨merge,by rw [probe]; exact waits⟩)
  · next merge probe =>
    split
    · next todo => exact absurd ⟨merge,by rw [probe,todo]; trivial⟩ free
    · next pings answered asks fails rest todo =>
      have changed := work_set (t := { s.threads i with
        todo := rest, probe := some { works := pings, answered := answered, asks := asks, fails := fails } }) within
      simp only [Thread.weight,probe,todo,itemsWeight,List.map_cons,List.sum_cons,Item.weight,Option.elim_none,Option.elim_some,
        Probe.weight,Bool.toNat_true,Bool.toNat_false] at changed
      omega
    · next w rest todo =>
      have changed := work_set (t := { s.threads i with todo := rest, frame := w.start s.shutdown }) within
      have less := start_weight w s.shutdown
      simp only [Thread.weight,todo,here,itemsWeight,List.map_cons,List.sum_cons,ready_weight,Item.weight] at changed
      omega
    · next ls rest todo =>
      rw [if_neg (fun busy => free ⟨merge,by rw [probe,todo]; exact busy⟩)]
      have changed := work_set (t := { s.threads i with todo := rest, merge := some ls }) within
      simp only [Thread.weight,todo,merge,itemsWeight,List.map_cons,List.sum_cons,Item.weight,Option.elim_none,Option.elim_some] at changed
      omega
    · next alive ws rest todo =>
      have changed := work_set (t := { s.threads i with todo := rest }) within
      have pushed := work_enqueue (s := s.set i { s.threads i with todo := rest }) alive ws
      simp only [Thread.weight,todo,itemsWeight,List.map_cons,List.sum_cons,Item.weight] at changed
      simp only [] at pushed
      omega

theorem tear_less (within : i < s.bound) {reentrant : Bool} {stage : Stage} {under : Option (List Inner)}
    (here : (s.threads i).frame = .shutdown reentrant stage under) (free : ¬ Blocked s i) :
    (tear s i reentrant under stage).work < s.work := by
  have moved : ∀ {f : Frame}, (s.moveTo i f).work + (stage.weight + under.elim 0 (fun inner => 1 + bodyWeight inner)) =
      s.work + f.weight := by
    intro f
    have changed := work_at (f := f) within
    rwa [here] at changed
  simp only [Blocked,here] at free
  cases stage with
  | acquiring =>
    have changed := moved (f := .shutdown reentrant .checking under)
    rw [tear,if_neg free]
    simp only [Frame.weight,Stage.weight] at changed
    omega
  | checking =>
    have changed := moved (f := .shutdown reentrant (if s.shutdown then .releasing false else .flagging) under)
    rw [tear]
    split_ifs at changed ⊢ <;>
    · simp only [Frame.weight,Stage.weight] at changed
      omega
  | flagging =>
    have changed := moved (f := .shutdown reentrant .closing under)
    simp only [Frame.weight,Stage.weight] at changed
    change (s.moveTo i _).work < s.work
    omega
  | closing =>
    have changed := moved (f := .shutdown reentrant .waiting under)
    simp only [Frame.weight,Stage.weight] at changed
    change (s.moveTo i _).work < s.work
    omega
  | waiting =>
    have changed := moved (f := .shutdown reentrant .setting under)
    rw [tear,if_pos (not_not.mp free)]
    simp only [Frame.weight,Stage.weight] at changed
    omega
  | setting =>
    have changed := moved (f := .shutdown reentrant (.releasing true) under)
    simp only [Frame.weight,Stage.weight] at changed
    change (s.moveTo i _).work < s.work
    omega
  | releasing did =>
    have resumed := moved (f := resume under)
    have joined := moved (f := .finishing true .waiting)
    rw [resume_weight] at resumed
    simp only [Frame.weight,Stage.weight,Finish.weight] at resumed joined
    simp only [tear]
    split_ifs
    · rw [work_add]
      simp only [Thread.weight,Frame.weight,Finish.weight,Bool.not_false,Bool.toNat_true,Option.elim_none,itemsWeight,
        List.map_nil,List.sum_nil]
      omega
    · omega
    · omega

theorem finish_less (within : i < s.bound) {call : Bool} {stage : Finish}
    (here : (s.threads i).frame = .finishing call stage) (free : ¬ Blocked s i) :
    (finishShutdown s i call stage).work < s.work := by
  have moved : ∀ {f : Frame}, (s.moveTo i f).work + stage.weight = s.work + f.weight := by
    intro f
    have changed := work_at (f := f) within
    rwa [here] at changed
  simp only [Blocked,here] at free
  cases stage with
  | waiting =>
    have changed := moved (f := .finishing call .announcing)
    rw [finishShutdown,if_pos (not_not.mp free)]
    simp only [Frame.weight,Finish.weight] at changed
    omega
  | announcing =>
    have changed := moved (f := .finishing call .locking)
    rw [finishShutdown,if_neg free]
    simp only [Frame.weight,Finish.weight] at changed
    omega
  | locking =>
    have changed := moved (f := .finishing call .holding)
    rw [finishShutdown,if_neg free]
    simp only [Frame.weight,Finish.weight] at changed
    omega
  | holding =>
    have changed := moved (f := .finishing call .sealed)
    simp only [Frame.weight,Finish.weight] at changed
    change (s.moveTo i _).work < s.work
    omega
  | sealed =>
    have changed := moved (f := .finishing call .joining)
    simp only [Frame.weight,Finish.weight] at changed
    change (s.moveTo i _).work < s.work
    omega
  | joining =>
    have changed := moved (f := .ready)
    rw [finishShutdown,if_pos (by simpa using free)]
    simp only [Frame.weight,Finish.weight] at changed
    omega

/-- A goroutine that is not blocked lowers the work that is left. -/
theorem go_less (within : i < s.bound) (free : ¬ Blocked s i) : (go s i).work < s.work := by
  have moved : ∀ {f g : Frame}, (s.threads i).frame = f → (s.moveTo i g).work + f.weight = s.work + g.weight := by
    intro f g here
    have changed := work_at (f := g) within
    rwa [here] at changed
  unfold go
  cases here : (s.threads i).frame with
  | ready => exact begin_less within here free
  | rlocking =>
    have changed := moved (g := .reading) here
    simp only [Blocked,here] at free
    simp only [Frame.weight,if_neg free] at changed ⊢
    omega
  | reading =>
    have changed := moved (g := .ready) here
    simp only [Frame.weight] at changed ⊢
    omega
  | announcing fenced inner =>
    have changed := moved (g := .locking fenced inner) here
    simp only [Blocked,here] at free
    simp only [Frame.weight,if_neg free] at changed ⊢
    omega
  | locking fenced inner =>
    have changed := moved (g := .entered fenced inner) here
    simp only [Blocked,here] at free
    simp only [Frame.weight,if_neg free] at changed ⊢
    omega
  | entered fenced inner =>
    have changed := moved (g := .inside (if fenced && s.shutdown then [] else inner)) here
    simp only
    split_ifs at changed ⊢ <;>
    · simp only [Frame.weight,bodyWeight,List.map_nil,List.sum_nil] at changed
      omega
  | inside inner =>
    cases inner with
    | nil =>
      have changed := moved (g := .ready) here
      simp only [Frame.weight,bodyWeight,List.map_nil,List.sum_nil] at changed ⊢
      omega
    | cons x inner =>
      cases x with
      | notify calls =>
        have changed := moved (g := if calls s.shutdown then .shutdown true .acquiring (some inner) else .inside inner) here
        simp only
        split_ifs at changed ⊢ <;>
        · simp only [Frame.weight,Stage.weight,Option.elim_some,bodyWeight,List.map_cons,List.sum_cons,Inner.weight] at changed
          omega
      | emit calls =>
        have changed := moved (g := .inside inner) here
        simp only [Frame.weight,bodyWeight,List.map_cons,List.sum_cons,Inner.weight] at changed
        have emitted : ({ s.moveTo i (.inside inner) with events := s.events ++ [calls] } : State).work =
            (s.moveTo i (.inside inner)).work + 24 := by
          simp only [State.work,State.moveTo,State.set,List.length_append,List.length_singleton]
          omega
        refine lt_of_eq_of_lt emitted ?_
        omega
  | shutdown reentrant stage under => exact tear_less within here free
  | finishing call stage => exact finish_less within here free

/-- Some goroutine can take a step of its own that lowers the work that is left. -/
def Goes (s : State) : Prop := ∃ act : Act, act.Internal ∧ (step s act).work < s.work

theorem goes_of_free (within : i < s.bound) (free : ¬ Blocked s i) : Goes s := ⟨.go i,trivial,go_less within free⟩

theorem goes_of_read (read : s.read) : Goes s := by
  obtain ⟨j,within,reads⟩ := read
  refine goes_of_free within (fun blocked => ?_)
  cases here : (s.threads j).frame with
  | reading => simp [Blocked,here] at blocked
  | _ =>
    rw [here] at reads
    cases reads

/-- Once the instance is shut down, the listeners are gone and the holder of shutdownLock does not wait. -/
theorem goes_of_torn_down (inv : Inv s) (down : s.shutdown = true) (torn : s.torn) : Goes s := by
  obtain ⟨j,within,tears⟩ := torn
  refine goes_of_free within (fun blocked => ?_)
  cases here : (s.threads j).frame with
  | shutdown reentrant stage under =>
    cases stage with
    | acquiring =>
      rw [here] at tears
      cases tears
    | waiting =>
      simp only [Blocked,here] at blocked
      exact blocked (inv.down down)
    | _ => simp [Blocked,here] at blocked
  | _ =>
    rw [here] at tears
    cases tears

theorem goes_of_late (inv : Inv s) (within : i < s.bound) (down : s.shutdown = true) {reentrant : Bool} {stage : Stage}
    {under : Option (List Inner)} (here : (s.threads i).frame = .shutdown reentrant stage under) : Goes s := by
  by_cases free : Blocked s i
  · cases stage with
    | acquiring =>
      simp only [Blocked,here] at free
      exact goes_of_torn_down inv down free
    | waiting =>
      simp only [Blocked,here] at free
      exact absurd (inv.down down) free
    | _ => simp [Blocked,here] at free
  · exact goes_of_free within free

theorem goes_of_writes (inv : Inv s) (within : i < s.bound) (writes : (s.threads i).frame.writes = true) : Goes s := by
  have ok := (inv.threads i).frame
  cases here : (s.threads i).frame with
  | entered fenced inner => exact goes_of_free within (by simp [Blocked,here])
  | inside inner => exact goes_of_free within (by simp [Blocked,here])
  | shutdown reentrant stage under =>
    rw [here] at ok writes
    cases under with
    | none => cases writes
    | some inner => exact goes_of_late inv within (ok.late (.inr (by simp))) here
  | finishing call stage =>
    rw [here] at writes
    cases stage with
    | holding => exact goes_of_free within (by simp [Blocked,here])
    | sealed => exact goes_of_free within (by simp [Blocked,here])
    | _ => cases writes
  | _ =>
    rw [here] at writes
    cases writes

theorem goes_of_claimed (inv : Inv s) (claimed : s.claimed) : Goes s := by
  obtain ⟨j,within,claims⟩ := claimed
  by_cases writes : (s.threads j).frame.writes = true
  · exact goes_of_writes inv within writes
  · by_cases free : Blocked s j
    · cases here : (s.threads j).frame with
      | locking fenced inner =>
        simp only [Blocked,here] at free
        exact goes_of_read free
      | finishing call stage =>
        rw [here] at claims writes
        cases stage with
        | locking =>
          simp only [Blocked,here] at free
          exact goes_of_read free
        | _ => exact absurd claims writes
      | _ =>
        rw [here] at claims writes
        exact absurd claims writes
    · exact goes_of_free within free

/-- A goroutine in a section, or about to take mergeLock, goes on unless it waits in `Shutdown`. -/
theorem goes_of_merging (inv : Inv s) (merging : s.merging) : Goes s := by
  obtain ⟨j,within,merges⟩ := merging
  have ok := (inv.threads j).frame
  have inside : (s.threads j).merge ≠ none := by
    intro none
    rw [none] at merges
    cases merges
  by_cases free : Blocked s j
  · cases here : (s.threads j).frame with
    | ready =>
      simp only [Blocked,here] at free
      exact absurd free.1 inside
    | rlocking =>
      simp only [Blocked,here] at free
      exact goes_of_claimed inv free
    | announcing =>
      simp only [Blocked,here] at free
      exact goes_of_claimed inv free
    | locking =>
      simp only [Blocked,here] at free
      exact goes_of_read free
    | shutdown reentrant stage under =>
      rw [here] at ok
      have late : under ≠ none := fun none => inside (ok.merge none)
      exact goes_of_late inv within (ok.late (.inr late)) here
    | finishing call stage =>
      rw [here] at ok
      exact absurd ok.2.1 inside
    | _ => simp [Blocked,here] at free
  · exact goes_of_free within free

/-- A probe that waits for its channel is told something: at the select it gives up, a message
    that it puts back finds a slot, and the timer fires or an ack is on its way. -/
theorem goes_of_probe {p : Probe} (inv : Inv s) (within : i < s.bound) (here : (s.threads i).frame = .ready)
    (made : (s.threads i).probe = some p) (works : p.works = []) (waits : p.look s.indirectChecks = none) : Goes s := by
  have ok := (inv.threads i).probe p made
  have spent : worksWeight p.works = 0 := by rw [works]; rfl
  cases stage : p.stage with
  | selecting =>
    have told := work_tell Probe.timeOut within made
    refine ⟨.timeOut i,trivial,?_⟩
    simp only [step,here]
    simp only [Probe.timeOut,stage,works,Probe.weight] at told
    simp only [worksWeight,List.map_nil,List.sum_nil] at told
    omega
  | requeueing =>
    have length := List.count_false_add_count_true p.acks
    have timeouts := ok.timeouts
    have answers := ok.answers
    have checks := inv.checks
    simp only [stage,decide_true,Bool.toNat_true] at timeouts
    rw [Probe.look,stage] at waits
    simp only [ite_eq_right_iff,reduceCtorEq,imp_false,not_lt] at waits
    omega
  | waiting =>
    rcases ok.heard (.inr stage) with runs | taken | some
    · have told := work_tell (Probe.fire s.indirectChecks) within made
      refine ⟨.fire i,trivial,?_⟩
      simp only [Probe.fire,runs,if_true] at told
      rw [send_same] at told
      simp only [Probe.weight,runs,Bool.toNat_true,Bool.toNat_false] at told
      simp only [step]
      omega
    · have told := work_tell (Probe.answer s.indirectChecks) within made
      refine ⟨.answer i,trivial,?_⟩
      simp only [Probe.answer,taken,if_true] at told
      rw [send_same] at told
      simp only [Probe.weight,taken,Bool.toNat_true,Bool.toNat_false] at told
      simp only [step]
      omega
    · obtain ⟨complete,rest,acks⟩ := List.exists_cons_of_ne_nil some
      cases complete <;> simp [Probe.look,stage,acks] at waits
  | ending => simp [Probe.look,stage] at waits

/-- Apart from calls of `Shutdown`, a goroutine that has something to do waits for locks and for
    the channel of its probe only. -/
theorem goes_of_busy (inv : Inv s) (busy : (s.threads i).idle = false) (call : (s.threads i).frame.calling = false)
    (reaper : ∀ stage, (s.threads i).frame ≠ .finishing false stage) : Goes s := by
  have within := within_of_busy inv busy
  by_cases free : Blocked s i
  · cases here : (s.threads i).frame with
    | ready =>
      simp only [Blocked,here] at free
      obtain ⟨merge,todo⟩ := free
      split at todo
      · next p _ made => exact goes_of_probe inv within here made todo.1 todo.2
      · next probe none =>
        rw [idle_iff.mpr ⟨here,merge,probe,none⟩] at busy
        cases busy
      · exact goes_of_merging inv todo
      · exact todo.elim
    | rlocking =>
      simp only [Blocked,here] at free
      exact goes_of_claimed inv free
    | announcing =>
      simp only [Blocked,here] at free
      exact goes_of_claimed inv free
    | locking =>
      simp only [Blocked,here] at free
      exact goes_of_read free
    | shutdown =>
      rw [here] at call
      cases call
    | finishing again stage =>
      rw [here] at call
      cases again with
      | true => cases call
      | false => exact absurd here (reaper stage)
    | _ => simp [Blocked,here] at free
  · exact goes_of_free within free

theorem work_udp {u : Nat} {l : Listener} (within : u < s.udps) :
    ({ s with udp := update s.udp u l } : State).work + (s.udp u).weight = s.work + l.weight := by
  have changed := sum_update Listener.weight s.udp s.udps l within
  simp only [State.work]
  omega

theorem work_tcp {u : Nat} {l : Listener} (within : u < s.tcps) :
    ({ s with tcp := update s.tcp u l } : State).work + (s.tcp u).weight = s.work + l.weight := by
  have changed := sum_update Listener.weight s.tcp s.tcps l within
  simp only [State.work]
  omega

theorem work_give (xs : List Item) (within : i < s.bound) (idle : (s.threads i).idle = true) :
    (s.set i { s.threads i with todo := xs }).work = s.work + itemsWeight xs := by
  have changed := work_set (t := { s.threads i with todo := xs }) within
  simp only [Thread.weight,(idle_iff.mp idle).2.2.2,itemsWeight,List.map_nil,List.sum_nil] at changed
  simp only [itemsWeight]
  omega

theorem failUdp_less {u : Nat} (within : u < s.udps) (here : s.udp u = .reading) (flagged : s.flagged = true)
    (closed : s.closed = true) : Goes s := by
  have done : step s (.failUdp u) = { s with udp := update s.udp u .exited } := by
    simp only [step,here]
    exact if_pos ⟨within,flagged,closed⟩
  have changed := work_udp (l := .exited) within
  simp only [here,Listener.weight] at changed
  refine ⟨.failUdp u,trivial,?_⟩
  rw [done]
  omega

theorem failTcp_less {u : Nat} (within : u < s.tcps) (here : s.tcp u = .reading) (flagged : s.flagged = true)
    (closed : s.closed = true) : Goes s := by
  have done : step s (.failTcp u) = { s with tcp := update s.tcp u .exited } := by
    simp only [step,here]
    exact if_pos ⟨within,flagged,closed⟩
  have changed := work_tcp (l := .exited) within
  simp only [here,Listener.weight] at changed
  refine ⟨.failTcp u,trivial,?_⟩
  rw [done]
  omega

theorem receive_less (inv : Inv s) {u : Nat} {xs : List Item} (within : u < s.udps) (here : s.udp u = .sending xs)
    (idle : (s.threads 0).idle = true) (alive : (s.threads 0).exited = false) : Goes s := by
  have few := inv.few
  have done : step s (.receive u) = { s.set 0 { s.threads 0 with todo := xs } with udp := update s.udp u .reading } := by
    simp only [step,here]
    exact if_pos ⟨within,idle,alive⟩
  have given := work_give (i := 0) xs (by omega) idle
  have changed := work_udp (s := s.set 0 { s.threads 0 with todo := xs }) (l := .reading) within
  have same : (s.set 0 { s.threads 0 with todo := xs }).udp u = .sending xs := here
  rw [same,given] at changed
  simp only [Listener.weight] at changed
  refine ⟨.receive u,trivial,?_⟩
  rw [done]
  refine Nat.lt_of_add_lt_add_right (n := 3 + itemsWeight xs) (lt_of_eq_of_lt changed ?_)
  omega

theorem accept_less {u : Nat} {xs : List Item} (within : u < s.tcps) (here : s.tcp u = .sending xs)
    (receiving : s.streamExited = false) : Goes s := by
  have done : step s (.accept u) = { s.add { kind := .tracked, todo := xs } with tcp := update s.tcp u .reading } := by
    simp only [step,here]
    exact if_pos ⟨within,receiving⟩
  have added := work_add (s := s) (t := { kind := .tracked, todo := xs })
  have changed := work_tcp (s := s.add { kind := .tracked, todo := xs }) (l := .reading) within
  have same : (s.add { kind := .tracked, todo := xs }).tcp u = .sending xs := here
  rw [same,added] at changed
  simp only [Listener.weight,Thread.weight,ready_weight,Bool.not_false,Bool.toNat_true,Option.elim_none] at changed
  refine ⟨.accept u,trivial,?_⟩
  rw [done]
  refine Nat.lt_of_add_lt_add_right (n := 3 + itemsWeight xs) (lt_of_eq_of_lt changed ?_)
  omega

/-- As long as the instance is not shut down, `packetListen` is in no call of `Shutdown`. -/
theorem goes_of_packetListen (inv : Inv s) (up : s.shutdown = false) (busy : (s.threads 0).idle = false) : Goes s := by
  have ok := (inv.threads 0).frame
  have notDown : s.shutdown = true → False := fun down => by
    rw [up] at down
    cases down
  refine goes_of_busy inv busy ?_ (fun stage reaper => ?_)
  · cases here : (s.threads 0).frame with
    | shutdown =>
      rw [here] at ok
      exact (notDown (ok.late (.inl rfl))).elim
    | finishing =>
      rw [here] at ok
      exact (notDown ok.2.2.1).elim
    | _ => rfl
  · rw [reaper] at ok
    exact notDown ok.2.2.1

/-- While the sockets are closed, a listener that has not exited fails or hands over what it
    has read: `packetListen` and `streamListen` are there to receive it. -/
theorem goes_of_listeners (inv : Inv s) (flagged : s.flagged = true) (closed : s.closed = true) (remains : ¬ s.gone) :
    Goes s := by
  have up : s.shutdown = false := by
    rw [← Bool.not_eq_true]
    exact fun down => remains (inv.down down)
  have alive : (s.threads 0).exited = false := by
    rw [← Bool.not_eq_true]
    intro exited
    have down : s.shutdown = true := (inv.threads 0).exited inv.listener exited
    rw [up] at down
    cases down
  have receiving : s.streamExited = false := by
    rw [← Bool.not_eq_true]
    intro exited
    have down := inv.stream exited
    rw [up] at down
    cases down
  rcases not_and_or.mp remains with packets | streams
  · obtain ⟨u,packets⟩ := not_forall.mp packets
    obtain ⟨within,still⟩ := Classical.not_imp.mp packets
    cases here : s.udp u with
    | reading => exact failUdp_less within here flagged closed
    | sending xs =>
      cases idle : (s.threads 0).idle with
      | true => exact receive_less inv within here idle alive
      | false => exact goes_of_packetListen inv up idle
    | exited =>
      rw [here] at still
      exact absurd rfl still
  · obtain ⟨u,streams⟩ := not_forall.mp streams
    obtain ⟨within,still⟩ := Classical.not_imp.mp streams
    cases here : s.tcp u with
    | reading => exact failTcp_less within here flagged closed
    | sending xs => exact accept_less within here receiving
    | exited =>
      rw [here] at still
      exact absurd rfl still

theorem goes_of_waiting (inv : Inv s) (within : i < s.bound) {reentrant : Bool} {under : Option (List Inner)}
    (here : (s.threads i).frame = .shutdown reentrant .waiting under) : Goes s := by
  have ok := (inv.threads i).frame
  rw [here] at ok
  by_cases free : Blocked s i
  · simp only [Blocked,here] at free
    exact goes_of_listeners inv ok.stage.1 ok.stage.2 free
  · exact goes_of_free within free

theorem goes_of_torn (inv : Inv s) (torn : s.torn) : Goes s := by
  obtain ⟨j,within,tears⟩ := torn
  by_cases free : Blocked s j
  · cases here : (s.threads j).frame with
    | shutdown reentrant stage under =>
      cases stage with
      | acquiring =>
        rw [here] at tears
        cases tears
      | waiting => exact goes_of_waiting inv within here
      | _ => simp [Blocked,here] at free
    | _ =>
      rw [here] at tears
      cases tears
  · exact goes_of_free within free

/-- A goroutine that is not in `finishShutdown` goes on, or what it waits for does. -/
theorem goes_of_unfinished (inv : Inv s) (busy : (s.threads i).idle = false)
    (unfinished : ∀ call stage, (s.threads i).frame ≠ .finishing call stage) : Goes s := by
  have within := within_of_busy inv busy
  cases here : (s.threads i).frame with
  | shutdown reentrant stage under =>
    by_cases free : Blocked s i
    · cases stage with
      | acquiring =>
        simp only [Blocked,here] at free
        exact goes_of_torn inv free
      | waiting => exact goes_of_waiting inv within here
      | _ => simp [Blocked,here] at free
    · exact goes_of_free within free
  | finishing call stage => exact absurd here (unfinished call stage)
  | _ => exact goes_of_busy inv busy (by rw [here]; rfl) (fun stage => unfinished false stage)

theorem exit_less (within : i < s.bound) (idle : (s.threads i).idle = true) (alive : (s.threads i).exited = false)
    (may : mayExit s (s.threads i) = true) : Goes s := by
  have done : step s (.exit i) = s.set i { s.threads i with exited := true } := if_pos ⟨within,idle,alive,may⟩
  have changed := work_set (t := { s.threads i with exited := true }) within
  simp only [Thread.weight,alive,Bool.not_false,Bool.not_true,Bool.toNat_true,Bool.toNat_false] at changed
  refine ⟨.exit i,trivial,?_⟩
  simp only [done]
  omega

theorem worksWeight_map (ws : List Work) : itemsWeight (ws.map .work) = worksWeight ws := by
  rw [itemsWeight,worksWeight,List.map_map]
  rfl

/-- `packetHandler` takes the messages that are queued before it ends. -/
theorem take_less (inv : Inv s) (idle : (s.threads 1).idle = true) (alive : (s.threads 1).exited = false)
    (queued : s.highPriority ≠ [] ∨ s.lowPriority ≠ []) : Goes s := by
  have few := inv.few
  have done : step s .take = take s := if_pos ⟨idle,alive⟩
  have given : ∀ ws : List Work, (s.set 1 { s.threads 1 with todo := ws.map .work }).work = s.work + worksWeight ws := by
    intro ws
    rw [← worksWeight_map]
    exact work_give _ (by omega) idle
  refine ⟨.take,trivial,?_⟩
  rw [done]
  unfold take
  cases high : s.highPriority with
  | cons ws rest =>
    have changed := given ws
    simp only [State.work,State.set,high,queueWeight,List.map_cons,List.sum_cons] at changed ⊢
    omega
  | nil =>
    cases low : s.lowPriority with
    | cons ws rest =>
      have changed := given ws
      simp only [State.work,State.set,low,queueWeight,List.map_cons,List.sum_cons] at changed ⊢
      omega
    | nil => exact absurd low (queued.resolve_left (fun wrong => wrong high))

theorem unfinished_of_kind (inv : Inv s) (kind : (s.threads i).kind ≠ .app) (call : Bool) (stage : Finish) :
    (s.threads i).frame ≠ .finishing call stage := by
  intro here
  have ok := (inv.threads i).frame
  rw [here] at ok
  exact kind ok.1

/-- Once the instance is shut down, the tracked goroutines end. -/
theorem goes_of_tracked (inv : Inv s) (down : s.shutdown = true) (unjoined : ¬ s.joined) : Goes s := by
  rcases not_and_or.mp unjoined with stream | tracked
  · rw [Bool.not_eq_true] at stream
    have done : step s .exitStream = { s with streamExited := true } := if_pos down
    refine ⟨.exitStream,trivial,?_⟩
    rw [done]
    simp only [State.work,stream,Bool.not_false,Bool.not_true,Bool.toNat_true,Bool.toNat_false]
    omega
  · obtain ⟨j,tracked⟩ := not_forall.mp tracked
    obtain ⟨within,tracked⟩ := Classical.not_imp.mp tracked
    obtain ⟨kind,alive⟩ := Classical.not_imp.mp tracked
    rw [Bool.not_eq_true] at alive
    cases idle : (s.threads j).idle with
    | true =>
      by_cases messages : j = 1 ∧ (s.highPriority ≠ [] ∨ s.lowPriority ≠ [])
      · obtain ⟨rfl,queued⟩ := messages
        exact take_less inv idle alive queued
      · refine exit_less within idle alive ?_
        rw [mayExit,kind]
        exact down
    | false => exact goes_of_unfinished inv idle (unfinished_of_kind inv (by rw [kind]; decide))

theorem goes_of_dispatcher (inv : Inv s) (closed : s.eventsSealed = true) (alive : (s.threads 2).exited = false) :
    Goes s := by
  have few := inv.few
  have kind := inv.dispatcher
  cases idle : (s.threads 2).idle with
  | true =>
    cases events : s.events with
    | nil =>
      refine exit_less (by omega) idle alive ?_
      rw [mayExit,kind,closed,events]
      rfl
    | cons calls rest =>
      have done : step s .deliver =
          { s.set 2 { s.threads 2 with todo := [.work (.callback calls)] } with events := rest } := by
        simp only [step,events]
        exact if_pos ⟨idle,alive⟩
      have given := work_give (i := 2) [.work (.callback calls)] (by omega) idle
      refine ⟨.deliver,trivial,?_⟩
      rw [done]
      simp only [State.work,State.set,events,List.length_cons,itemsWeight,List.map_cons,List.map_nil,List.sum_cons,
        List.sum_nil,Item.weight,Work.weight] at given ⊢
      omega
  | false => exact goes_of_unfinished inv idle (unfinished_of_kind inv (by rw [kind]; decide))

/-- As long as a goroutine has something to do, some goroutine can go on. -/
theorem progress (inv : Inv s) (busy : (s.threads i).idle = false) : Goes s := by
  have within := within_of_busy inv busy
  cases here : (s.threads i).frame with
  | finishing call stage =>
    have ok := (inv.threads i).frame
    rw [here] at ok
    by_cases free : Blocked s i
    · cases stage with
      | waiting =>
        simp only [Blocked,here] at free
        exact goes_of_tracked inv ok.2.2.1 free
      | announcing =>
        simp only [Blocked,here] at free
        exact goes_of_claimed inv free
      | locking =>
        simp only [Blocked,here] at free
        exact goes_of_read free
      | joining =>
        simp only [Blocked,here] at free
        exact goes_of_dispatcher inv (ok.2.2.2 (.inr rfl)) free
      | _ => simp [Blocked,here] at free
    · exact goes_of_free within free
  | _ => exact goes_of_unfinished inv busy (fun call stage wrong => by rw [here] at wrong; cases wrong)

end

theorem tame_of_internal {act : Act} (internal : act.Internal) : act.Tame := by
  cases act <;> first | exact internal.elim | trivial

theorem uncalled_of_idle {s : State} {i : Nat} (idle : (s.threads i).idle = true) : ¬ InCall s i := by
  rw [InCall,(idle_iff.mp idle).1]
  exact Bool.false_ne_true

/-- Where there are indirect checks, and the callbacks on `packetListen` and those under nodeLock
    call `Shutdown` only once the instance is shut down, every call of `Shutdown` can return from
    every state that is reached, by steps that the goroutines take by themselves. -/
theorem shutdown_returns (depth : Nat) {indirectChecks : Nat} (checks : 0 < indirectChecks) (udps tcps : Nat)
    (acts : List Act) (tame : Along step (fun _ act => act.Tame) (initial depth indirectChecks udps tcps) acts) :
    let s := run step (initial depth indirectChecks udps tcps) acts
    ∃ more, (∀ act ∈ more, act.Internal) ∧ ∀ i, ¬ InCall (run step s more) i := by
  intro s
  have inv : Inv s := along_keeps inv_step (inv_initial depth checks udps tcps) tame
  obtain ⟨more,internal,done⟩ := drains (D := fun s => ∀ i, (s.threads i).idle = true) State.work
    (fun s act inv internal => inv_step s act inv (tame_of_internal internal))
    (fun s inv busy => by
      obtain ⟨i,busy⟩ := not_forall.mp busy
      exact progress inv (by simpa using busy)) inv
  exact ⟨more,internal,fun i => uncalled_of_idle (done i)⟩

/-! ## Calls that never return -/

section
variable {s : State} {i k : Nat}

/-- A step of one goroutine, seen by the others and by the listeners of packets. -/
structure Beside (i : Nat) (s s' : State) : Prop where
  others : ∀ k, k ≠ i → k < s.bound → s'.threads k = s.threads k
  udp : s'.udp = s.udp
  udps : s'.udps = s.udps
  checks : s'.indirectChecks = s.indirectChecks
  bound : s.bound ≤ s'.bound

theorem beside_rfl : Beside i s s := ⟨fun _ _ _ => rfl,rfl,rfl,rfl,Nat.le_refl _⟩

theorem beside_set {t : Thread} : Beside i s (s.set i t) :=
  ⟨fun _ other _ => update_of_ne other ..,rfl,rfl,rfl,Nat.le_refl _⟩

theorem beside_at {f : Frame} : Beside i s (s.moveTo i f) := beside_set

theorem beside_add {s' : State} {t : Thread} (before : Beside i s s') : Beside i s (s'.add t) :=
  { before with
    others k other within := by
      have new : k ≠ s'.bound := Nat.ne_of_lt (Nat.lt_of_lt_of_le within before.bound)
      exact (update_of_ne new ..).trans (before.others k other within)
    bound := Nat.le_succ_of_le before.bound }

theorem beside_enqueue {s' : State} (before : Beside i s s') (alive : Bool) (ws : List Work) :
    Beside i s (s'.enqueue alive ws) := by
  unfold State.enqueue
  split_ifs
  · exact ⟨before.others,before.udp,before.udps,before.checks,before.bound⟩
  · exact before
  · exact ⟨before.others,before.udp,before.udps,before.checks,before.bound⟩
  · exact before

theorem beside_begin : Beside i s (beginItem s i) := by
  simp only [beginItem]
  split
  · exact beside_set
  · exact beside_set
  · simp only [probeNode]
    split
    · exact beside_set
    · split
      · exact beside_set
      · exact beside_rfl
  · split
    · exact beside_rfl
    · exact beside_set
    · exact beside_set
    · split_ifs
      · exact beside_rfl
      · exact beside_set
    · exact beside_enqueue beside_set ..

theorem beside_tear (reentrant : Bool) (under : Option (List Inner)) (stage : Stage) :
    Beside i s (tear s i reentrant under stage) := by
  cases stage with
  | acquiring =>
    simp only [tear]
    split_ifs
    · exact beside_rfl
    · exact beside_at
  | waiting =>
    simp only [tear]
    split_ifs
    · exact beside_at
    · exact beside_rfl
  | releasing did =>
    simp only [tear]
    split_ifs
    · exact beside_add beside_at
    · exact beside_at
    · exact beside_at
  | _ => exact ⟨(beside_at (s := s)).others,rfl,rfl,rfl,Nat.le_refl _⟩

theorem beside_finishShutdown (call : Bool) (stage : Finish) : Beside i s (finishShutdown s i call stage) := by
  cases stage with
  | holding => exact ⟨(beside_at (s := s)).others,rfl,rfl,rfl,Nat.le_refl _⟩
  | sealed => exact beside_at
  | _ =>
    simp only [finishShutdown]
    split_ifs <;> first | exact beside_at | exact beside_rfl

theorem beside_go : Beside i s (go s i) := by
  unfold go
  split
  · exact beside_begin
  · split_ifs <;> first | exact beside_at | exact beside_rfl
  · exact beside_at
  · split_ifs <;> first | exact beside_at | exact beside_rfl
  · split_ifs <;> first | exact beside_at | exact beside_rfl
  · exact beside_at
  · exact beside_at
  · exact beside_at
  · exact ⟨(beside_at (s := s)).others,rfl,rfl,rfl,Nat.le_refl _⟩
  · exact beside_tear ..
  · exact beside_finishShutdown ..

/-- The probe puts a message back for which there is no slot. -/
def Probe.Clogged (c : Nat) (p : Probe) : Prop := p.stage = .requeueing ∧ p.works = [] ∧ c < p.acks.length

/-- A goroutine after a step of another one: at most, its probe is told something, which does
    not make room. -/
structure Kept (k : Nat) (s s' : State) : Prop where
  bound : s.bound ≤ s'.bound
  thread : ∃ probe, s'.threads k = { s.threads k with probe := probe } ∧
    ∀ c, (∃ p ∈ (s.threads k).probe, p.Clogged c) → ∃ p ∈ probe, p.Clogged c

theorem kept_of_same {s' : State} (bound : s.bound ≤ s'.bound) (same : s'.threads k = s.threads k) : Kept k s s' :=
  ⟨bound,_,same,fun _ => id⟩

theorem kept_tell {f : Probe → Probe} (j : Nat) (clogs : ∀ c (p : Probe), p.Clogged c → (f p).Clogged c) :
    Kept k s (s.tell j f) := by
  unfold State.tell
  split
  · next p made =>
    by_cases here : k = j
    · subst here
      refine ⟨Nat.le_refl _,some (f p),update_self ..,?_⟩
      rintro c ⟨q,same,clogged⟩
      cases made.symm.trans same
      exact ⟨f p,rfl,clogs c p clogged⟩
    · exact kept_of_same (Nat.le_refl _) (update_of_ne here ..)
  · exact kept_of_same (Nat.le_refl _) rfl

theorem clogged_send {c : Nat} {p : Probe} (clogged : p.Clogged c) (n : Nat) (complete : Bool) : (p.send n complete).Clogged c := by
  obtain ⟨stage,works,full⟩ := clogged
  unfold Probe.send
  split_ifs
  · refine ⟨stage,works,?_⟩
    rw [List.length_append]
    omega
  · exact ⟨stage,works,full⟩

theorem clogged_take {c : Nat} {p : Probe} (clogged : p.Clogged c) : p.take.Clogged c := by
  unfold Probe.take
  split_ifs <;> exact clogged

theorem clogged_answer {c : Nat} {p : Probe} (clogged : p.Clogged c) (n : Nat) : (p.answer n).Clogged c := by
  unfold Probe.answer
  split_ifs
  · exact clogged_send clogged ..
  · exact clogged

theorem clogged_fire {c : Nat} {p : Probe} (clogged : p.Clogged c) (n : Nat) : (p.fire n).Clogged c := by
  unfold Probe.fire
  split_ifs
  · exact clogged_send clogged ..
  · exact clogged

/-- The timer of the first select does not matter to a probe that has left it. -/
theorem clogged_timeOut {c : Nat} {p : Probe} (clogged : p.Clogged c) : p.timeOut.Clogged c := by
  simpa [Probe.timeOut,clogged.1] using clogged

/-- A goroutine that has something to do goes on by its own steps only. -/
theorem kept_step (within : k < s.bound) (busy : (s.threads k).idle = false) {act : Act} (other : act ≠ .go k) :
    Kept k s (step s act) := by
  have apart : ∀ {j}, (s.threads j).idle = true → k ≠ j := by
    rintro j idle rfl
    rw [busy] at idle
    cases idle
  have same : Kept k s s := kept_of_same (Nat.le_refl _) rfl
  cases act with
  | go j => exact kept_of_same beside_go.bound (beside_go.others k (fun here => other (here ▸ rfl)) within)
  | app => exact kept_of_same (Nat.le_succ _) (update_of_ne (Nat.ne_of_lt within) ..)
  | spawn p items =>
    simp only [step]
    split_ifs
    · exact kept_of_same (Nat.le_succ _) (update_of_ne (Nat.ne_of_lt within) ..)
    · exact same
  | give j items =>
    simp only [step]
    split_ifs with free
    · exact kept_of_same (Nat.le_refl _) (update_of_ne (apart free.2.2.1) ..)
    · exact same
  | call j =>
    simp only [step]
    split_ifs with free
    · exact kept_of_same (Nat.le_refl _) (update_of_ne (apart free.2.2) ..)
    · exact same
  | receive u =>
    simp only [step]
    split
    · split_ifs with free
      · exact kept_of_same (Nat.le_refl _) (update_of_ne (apart free.2.1) ..)
      · exact same
    · exact same
  | accept u =>
    simp only [step]
    split
    · split_ifs
      · exact kept_of_same (Nat.le_succ _) (update_of_ne (Nat.ne_of_lt within) ..)
      · exact same
    · exact same
  | take =>
    simp only [step]
    split_ifs with free
    · unfold take
      split
      · exact kept_of_same (Nat.le_refl _) (update_of_ne (apart free.1) ..)
      · exact kept_of_same (Nat.le_refl _) (update_of_ne (apart free.1) ..)
      · exact same
    · exact same
  | deliver =>
    simp only [step]
    split
    · split_ifs with free
      · exact kept_of_same (Nat.le_refl _) (update_of_ne (apart free.1) ..)
      · exact same
    · exact same
  | exit j =>
    simp only [step]
    split_ifs with free
    · exact kept_of_same (Nat.le_refl _) (update_of_ne (apart free.2.1) ..)
    · exact same
  | exitStream =>
    simp only [step]
    split_ifs
    · exact kept_of_same (Nat.le_refl _) rfl
    · exact same
  | takeHandler j => exact kept_tell j (fun _ _ => clogged_take)
  | answer j => exact kept_tell j (fun _ _ clogged => clogged_answer clogged _)
  | fire j => exact kept_tell j (fun _ _ clogged => clogged_fire clogged _)
  | timeOut j =>
    simp only [step]
    split
    · exact kept_tell j (fun _ _ => clogged_timeOut)
    · exact same
  -- The listeners change, and nothing else.
  | _ =>
    simp only [step]
    split
    · split_ifs
      · exact kept_of_same (Nat.le_refl _) rfl
      · exact same
    · exact same

/-- What a listener of packets has read stays where it is while `packetListen` is busy. -/
theorem sending_step {xs : List Item} (busy : (s.threads 0).idle = false) (sending : s.udp 0 = .sending xs) (act : Act) :
    (step s act).udp 0 = .sending xs := by
  have reads : ∀ {u : Nat} {l : Listener}, s.udp u = .reading → update s.udp u l 0 = .sending xs := by
    intro u l reading
    rw [update_of_ne]
    · exact sending
    · rintro rfl
      rw [sending] at reading
      cases reading
  cases act with
  | arrive u items =>
    simp only [step]
    split
    · next reading =>
      split_ifs
      · exact reads reading
      · exact sending
    · exact sending
  | failUdp u =>
    simp only [step]
    split
    · next reading =>
      split_ifs
      · exact reads reading
      · exact sending
    · exact sending
  | receive u =>
    simp only [step,busy,Bool.false_eq_true,false_and,and_false,if_false]
    split <;> exact sending
  | go j => exact (congrFun beside_go.udp 0).trans sending
  | take =>
    simp only [step]
    split_ifs
    · unfold take
      split <;> exact sending
    · exact sending
  | _ =>
    simp only [step,State.tell]
    repeat' split
    all_goals exact sending

theorem shared_step (s : State) (act : Act) :
    (step s act).udps = s.udps ∧ (step s act).indirectChecks = s.indirectChecks := by
  cases act with
  | go j => exact ⟨beside_go.udps,beside_go.checks⟩
  | take =>
    simp only [step]
    split_ifs
    · unfold take
      split <;> exact ⟨rfl,rfl⟩
    · exact ⟨rfl,rfl⟩
  | _ =>
    simp only [step,State.tell]
    repeat' split
    all_goals exact ⟨rfl,rfl⟩

/-- The call on goroutine `i` waits for a listener that waits for `packetListen`, which is
    this goroutine, or waits for nodeLock, which this goroutine has. -/
structure Stuck (i : Nat) (s : State) : Prop where
  within : i < s.bound
  call : ∃ reentrant under, (s.threads i).frame = .shutdown reentrant .waiting under ∧
    (i = 0 ∨ under ≠ none ∧ (s.threads 0).frame = .rlocking)
  udps : 0 < s.udps
  sending : ∃ xs, s.udp 0 = .sending xs

theorem inCall_of_stuck (stuck : Stuck i s) : InCall s i := by
  obtain ⟨reentrant,under,here,-⟩ := stuck.call
  rw [InCall,here]
  rfl

theorem waits_of_stuck (stuck : Stuck i s) (who : k = i ∨ k = 0) : (s.threads k).idle = false ∧ go s k = s := by
  obtain ⟨reentrant,under,here,rest⟩ := stuck.call
  obtain ⟨xs,sending⟩ := stuck.sending
  have remains : ¬ s.gone := not_gone_udp stuck.udps (by rw [sending]; rfl)
  have own : (s.threads i).idle = false ∧ go s i = s :=
    ⟨busy_of_frame here (fun wrong => by cases wrong),by simp only [go,here,tear,if_neg remains]⟩
  rcases who with rfl | rfl
  · exact own
  · rcases rest with rfl | ⟨locked,reading⟩
    · exact own
    · refine ⟨busy_of_frame reading (fun wrong => by cases wrong),?_⟩
      have claimed : s.claimed := by
        refine ⟨i,stuck.within,?_⟩
        rw [here]
        cases under with
        | none => exact absurd rfl locked
        | some inner => rfl
      simp only [go,reading,if_pos claimed]

theorem stuck_step (s : State) (act : Act) (stuck : Stuck i s) : Stuck i (step s act) := by
  obtain ⟨xs,sending⟩ := stuck.sending
  have positive : 0 < s.bound := Nat.lt_of_le_of_lt (Nat.zero_le _) stuck.within
  by_cases own : act = .go i ∨ act = .go 0
  · have unchanged : step s act = s := by
      rcases own with rfl | rfl
      · exact (waits_of_stuck stuck (.inl rfl)).2
      · exact (waits_of_stuck stuck (.inr rfl)).2
    rw [unchanged]
    exact stuck
  · obtain ⟨mine,listener⟩ := not_or.mp own
    have busy := (waits_of_stuck stuck (.inr rfl)).1
    obtain ⟨bound,probe,same,-⟩ := kept_step stuck.within (waits_of_stuck stuck (.inl rfl)).1 mine
    obtain ⟨-,probe',same',-⟩ := kept_step positive busy listener
    refine ⟨Nat.lt_of_lt_of_le stuck.within bound,?_,(shared_step s act).1 ▸ stuck.udps,xs,sending_step busy sending act⟩
    rw [same,same']
    exact stuck.call

/-- The call on goroutine `i` waits for goroutine `j`, which waits for ever in a probe. -/
structure HeldUp (i j : Nat) (s : State) : Prop where
  within : i < s.bound ∧ j < s.bound
  call : (s.threads i).frame = .finishing true .waiting
  tracked : (s.threads j).kind = .tracked ∧ (s.threads j).exited = false
  ready : (s.threads j).frame = .ready ∧ (s.threads j).merge = none
  probe : ∃ p ∈ (s.threads j).probe, p.Clogged s.indirectChecks

theorem heldUp_step {j : Nat} (s : State) (act : Act) (heldUp : HeldUp i j s) : HeldUp i j (step s act) := by
  obtain ⟨⟨mine,other⟩,call,⟨tracked,alive⟩,⟨ready,merge⟩,p,made,clogged⟩ := heldUp
  have unjoined : ¬ s.joined := by
    intro joined
    rw [joined.2 j other tracked] at alive
    cases alive
  have waits : go s i = s := by simp only [go,call,finishShutdown,if_neg unjoined]
  have blocked : p.look s.indirectChecks = none := by
    rw [Probe.look,clogged.1]
    exact if_neg (by have full := clogged.2.2; omega)
  have blocks : go s j = s := by simp only [go,ready,beginItem,merge,show (s.threads j).probe = some p from made,probeNode,clogged.2.1,blocked]
  by_cases own : act = .go i ∨ act = .go j
  · have unchanged : step s act = s := by
      rcases own with rfl | rfl
      · exact waits
      · exact blocks
    rw [unchanged]
    exact ⟨⟨mine,other⟩,call,⟨tracked,alive⟩,⟨ready,merge⟩,p,made,clogged⟩
  · obtain ⟨here,there⟩ := not_or.mp own
    obtain ⟨bound,probe,same,-⟩ := kept_step mine (busy_of_frame call (fun wrong => by cases wrong)) here
    obtain ⟨-,probe',same',clogs⟩ := kept_step other (busy_of_probe made) there
    refine ⟨⟨Nat.lt_of_lt_of_le mine bound,Nat.lt_of_lt_of_le other bound⟩,?_,?_,?_,?_⟩
    · rw [same]
      exact call
    · rw [same']
      exact ⟨tracked,alive⟩
    · rw [same']
      exact ⟨ready,merge⟩
    · rw [same',(shared_step s act).2]
      exact clogs _ ⟨p,made,clogged⟩

/-- The goroutine is in a call of `Shutdown` that does not return, whatever is done. -/
def Hung (i : Nat) (s : State) : Prop := ∀ more, InCall (run step s more) i

theorem hung_of_stuck (stuck : Stuck i s) : Hung i s :=
  fun more => inCall_of_stuck (run_keeps (I := Stuck i) stuck_step stuck more)

theorem hung_of_heldUp {j : Nat} (heldUp : HeldUp i j s) : Hung i s := by
  intro more
  rw [InCall,(run_keeps (I := HeldUp i j) heldUp_step heldUp more).call]
  rfl

end

/-- AckPayload calls `Shutdown` while the next packet has been read. -/
def answering : List Act :=
  [.arrive 0 [.work (.callback (fun _ => true)),.work (.locked .read)],.receive 0,.go 0,.arrive 0 [],
    .go 0,.go 0,.go 0,.go 0]

/-- NotifyAlive calls `Shutdown` while a ping is being answered and the next packet has been read. -/
def vetting : List Act :=
  [.arrive 0 [.handoff true [.locked (.write true [.notify (fun _ => true)])]],.receive 0,.go 0,.take,
    .go 1,.go 1,.go 1,.go 1,.arrive 0 [.work (.locked .read)],.receive 0,.go 0,.arrive 0 [],
    .go 1,.go 1,.go 1,.go 1,.go 1]

/-- Without indirect checks, a late ack takes the slot of the message that a probe puts back; the
    application calls `Shutdown`. -/
def probing : List Act :=
  [.spawn 0 [],.app,.give 3 [.probe [.locked .read] [] [.locked .read] []],.go 3,.go 3,.go 3,.go 3,.takeHandler 3,.fire 3,
    .go 3,.answer 3,.call 4,.go 4,.go 4,.go 4,.go 4,.failUdp 0,.failTcp 0,.go 4,.go 4,.go 4]

theorem shutdown_hangs :
    Hung 0 (run step (initial 1024 3 1 1) answering) ∧ Hung 1 (run step (initial 1024 3 1 1) vetting) ∧
      Hung 4 (run step (initial 1024 0 1 1) probing) := by
  have listener : Stuck 0 (run step (initial 1024 3 1 1) answering) :=
    ⟨by decide,⟨true,none,rfl,.inl rfl⟩,by decide,⟨[],rfl⟩⟩
  have handler : Stuck 1 (run step (initial 1024 3 1 1) vetting) :=
    ⟨by decide,⟨true,some [],rfl,.inr ⟨by simp,rfl⟩⟩,by decide,⟨[],rfl⟩⟩
  have probe : HeldUp 4 3 (run step (initial 1024 0 1 1) probing) :=
    ⟨by decide,rfl,by decide,⟨rfl,rfl⟩,_,rfl,rfl,rfl,by decide⟩
  exact ⟨hung_of_stuck listener,hung_of_stuck handler,hung_of_heldUp probe⟩

/-- The application calls `Shutdown`, and so does NotifyMsg, while a packet waits to be received. -/
def stopping : List Act :=
  [.app,.arrive 0 [.work (.callback (fun _ => false)),.handoff false [.callback (fun _ => true)]],.receive 0,
    .go 0,.go 0,.take,.arrive 0 [.work (.locked .read)],.call 3,.go 3,.go 1,.go 3,.go 3,.go 3]

theorem shutdown_returns_stopping :
    let s := run step (initial 1024 3 1 1) stopping
    InCall s 1 ∧ InCall s 3 ∧ ∃ more, (∀ act ∈ more, act.Internal) ∧ ∀ i, ¬ InCall (run step s more) i := by
  refine ⟨rfl,rfl,shutdown_returns 1024 (by decide) 1 1 stopping ?_⟩
  simp [stopping,Along,Act.Tame,Item.Fits,Work.Fits,Patient,Locked.Tame]

end Mori.Teardown
