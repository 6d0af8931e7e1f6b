import Mori.Machines
import Mori.State
import Mathlib.Data.List.Nodup

/-!
Delivery of membership events: producers append to a queue and send a wake-up, which is
dropped where one is pending already; a single dispatcher pops one event at a time,
runs its callback, closes its receipt and counts it; `finishShutdown` seals the queue
and sends the same wake-up. Every statement of these that takes `eventMu` or a channel
is a step, and the steps of any number of producers, of any number of calls of
`finishShutdown` and of the dispatcher come in any order.
-/
namespace Mori.Delivery
open Mori.Net Mori.State Mori.Machines Function
set_option linter.unusedSimpArgs false

/-- Where the dispatcher is. -/
inductive Dispatcher where
  /-- Before it looks at the queue. -/
  | looking
  /-- Before it receives from `eventWake`. -/
  | parked
  /-- In the callback for an event. -/
  | calling (ev : QueuedEvent)
  /-- The callback has returned; before it closes the receipt. -/
  | closing (ev : QueuedEvent)
  /-- Before it counts the event as delivered. -/
  | counting
  | exited
deriving DecidableEq,Repr

/-- Where a producer, or a call of `finishShutdown`, is. -/
inductive Sender where
  | idle
  /-- It has changed the queue; before it sends the wake-up. -/
  | sending
  | done
deriving DecidableEq,Repr

/-- The queue and those who use it. No code reads the last three fields: they are the
    events in the order of their commits, those whose callbacks returned, and the
    receipts that were closed. -/
structure State where
  events : List QueuedEvent := []
  eventSeq : Nat := 0
  eventPending : Int := 0
  eventsSealed : Bool := false
  eventWake : Bool := false
  dispatcher : Dispatcher := .looking
  producer : Nat → Sender := fun _ => .idle
  finisher : Nat → Sender := fun _ => .idle
  commits : List QueuedEvent := []
  ran : List QueuedEvent := []
  closed : List Nat := []

/-- What a producer commits. A receipt is its own. -/
structure Event where
  kind : EventKind
  node : Node
  other : Option Node := none
  receipt : Bool := false
deriving DecidableEq,Repr

inductive Act where
  | append (p : Nat) (e : Event)
  | wake (p : Nat)
  | sealQueue (f : Nat)
  | wakeSealed (f : Nat)
  | look
  | receive
  | returns
  | close
  | count
deriving DecidableEq,Repr

/-- The event that producer `p` queues. -/
def queuedEvent (s : State) (p : Nat) (e : Event) : QueuedEvent :=
  ⟨e.kind,e.node,e.other,s.eventSeq + 1,if e.receipt then some p else none⟩

/-- `enqueueEventLocked`, up to the wake-up. -/
def enqueueEventLocked (s : State) (p : Nat) (e : Event) : State :=
  { s with
    eventSeq := s.eventSeq + 1
    events := s.events ++ [queuedEvent s p e]
    eventPending := s.eventPending + 1
    producer := update s.producer p .sending
    commits := s.commits ++ [queuedEvent s p e] }

/-- The dispatcher's look at the queue. -/
def look (s : State) : State :=
  match s.events with
  | [] => { s with dispatcher := if s.eventsSealed then .exited else .parked }
  | ev :: rest => { s with events := rest, dispatcher := .calling ev }

def step (s : State) : Act → State
  | .append p e => if s.producer p = .idle then enqueueEventLocked s p e else s
  | .wake p =>
    if s.producer p = .sending then { s with eventWake := true, producer := update s.producer p .done } else s
  | .sealQueue f =>
    if s.finisher f = .idle then { s with eventsSealed := true, finisher := update s.finisher f .sending } else s
  | .wakeSealed f =>
    if s.finisher f = .sending then { s with eventWake := true, finisher := update s.finisher f .done } else s
  | .look => if s.dispatcher = .looking then look s else s
  | .receive =>
    if s.dispatcher = .parked ∧ s.eventWake = true then { s with eventWake := false, dispatcher := .looking } else s
  | .returns =>
    match s.dispatcher with
    | .calling ev => { s with ran := s.ran ++ [ev], dispatcher := .closing ev }
    | _ => s
  | .close =>
    match s.dispatcher with
    | .closing ev => { s with closed := s.closed ++ ev.receipt.toList, dispatcher := .counting }
    | _ => s
  | .count =>
    if s.dispatcher = .counting then { s with eventPending := s.eventPending - 1, dispatcher := .looking } else s

/-- The event whose callback runs. -/
def Dispatcher.running : Dispatcher → List QueuedEvent
  | .calling ev => [ev]
  | _ => []

/-- The receipt of the event whose callback has returned. -/
def Dispatcher.unclosed : Dispatcher → List Nat
  | .closing ev => ev.receipt.toList
  | _ => []

/-- Events that were popped and not counted yet. -/
def Dispatcher.inFlight : Dispatcher → Int
  | .calling _ => 1
  | .closing _ => 1
  | .counting => 1
  | _ => 0

/-- Somebody is about to send a wake-up. -/
def Sending (s : State) : Prop := (∃ p, s.producer p = .sending) ∨ ∃ f, s.finisher f = .sending

structure Inv (s : State) : Prop where
  order : s.ran ++ s.dispatcher.running ++ s.events = s.commits
  pending : s.eventPending = s.events.length + s.dispatcher.inFlight
  receipts : s.closed ++ s.dispatcher.unclosed = s.ran.filterMap QueuedEvent.receipt
  own : ∀ r ∈ s.commits.filterMap QueuedEvent.receipt, s.producer r ≠ .idle
  single : (s.commits.filterMap QueuedEvent.receipt).Nodup
  awake : s.dispatcher = .parked → s.events ≠ [] ∨ s.eventsSealed = true → s.eventWake = true ∨ Sending s

theorem inv_initial : Inv {} where
  order := rfl
  pending := rfl
  receipts := rfl
  own _ wrong := by cases wrong
  single := .nil
  awake wrong := by cases wrong

section
variable {s : State} {p f : Nat}

/-- The receipt of a new event, if any, is its producer's. -/
theorem receipt_of_new {e : Event} {r : Nat} (member : r ∈ [queuedEvent s p e].filterMap QueuedEvent.receipt) : r = p := by
  obtain ⟨ev,new,receipt⟩ := List.mem_filterMap.mp member
  rw [List.mem_singleton.mp new,queuedEvent] at receipt
  split_ifs at receipt
  cases receipt
  rfl

theorem inv_append (inv : Inv s) (idle : s.producer p = .idle) (e : Event) : Inv (enqueueEventLocked s p e) where
  order := by
    simp only [enqueueEventLocked,← inv.order,List.append_assoc]
  pending := by
    simp only [enqueueEventLocked,inv.pending,List.length_append,List.length_singleton]
    omega
  receipts := inv.receipts
  own r member := by
    simp only [enqueueEventLocked,List.filterMap_append,List.mem_append] at member ⊢
    by_cases same : r = p
    · rw [same,update_self]
      decide
    · rw [update_of_ne same]
      exact inv.own r (member.resolve_right (fun new => same (receipt_of_new new)))
  single := by
    simp only [enqueueEventLocked,List.filterMap_append]
    refine List.Nodup.append inv.single ?_ ?_
    · cases receipt : (queuedEvent s p e).receipt <;> simp [List.filterMap_cons,receipt]
    · intro r old new
      rw [receipt_of_new new] at old
      exact inv.own p old idle
  awake _ _ := .inr (.inl ⟨p,update_self p _ _⟩)

theorem inv_wake (inv : Inv s) : Inv { s with eventWake := true, producer := update s.producer p .done } :=
  { inv with
    own := (forall_update_iff s.producer (fun r c => r ∈ s.commits.filterMap (·.receipt) → c ≠ .idle)).mpr
      ⟨fun _ => by decide,fun r _ => inv.own r⟩
    awake _ _ := .inl rfl }

theorem inv_seal (inv : Inv s) : Inv { s with eventsSealed := true, finisher := update s.finisher f .sending } :=
  { inv with
    awake _ _ := .inr (.inr ⟨f,update_self f _ _⟩) }

theorem inv_wakeSealed (inv : Inv s) : Inv { s with eventWake := true, finisher := update s.finisher f .done } :=
  { inv with
    awake _ _ := .inl rfl }

/-- The dispatcher pops an event, or leaves, or finds nothing to do. -/
theorem inv_look (inv : Inv s) (looking : s.dispatcher = .looking) : Inv (look s) := by
  obtain ⟨order,pending,receipts,own,single,awake⟩ := inv
  rw [looking] at order pending receipts
  unfold look
  split
  · next empty =>
    cases done : s.eventsSealed with
    | true => exact ⟨order,pending,receipts,own,single,fun wrong => by cases wrong⟩
    | false =>
      refine ⟨order,pending,receipts,own,single,?_⟩
      rintro _ (some | wrong)
      · exact absurd empty some
      · simp [done] at wrong
  · next ev rest first =>
    refine ⟨?_,?_,receipts,own,single,fun wrong => by cases wrong⟩
    · simpa [Dispatcher.running,first] using order
    · simp only [Dispatcher.inFlight,first,List.length_cons] at pending ⊢
      omega

theorem inv_receive (inv : Inv s) (parked : s.dispatcher = .parked) :
    Inv { s with eventWake := false, dispatcher := .looking } := by
  obtain ⟨order,pending,receipts,own,single,awake⟩ := inv
  rw [parked] at order pending receipts
  exact ⟨order,pending,receipts,own,single,fun wrong => by cases wrong⟩

theorem inv_return (inv : Inv s) {ev : QueuedEvent} (calling : s.dispatcher = .calling ev) :
    Inv { s with ran := s.ran ++ [ev], dispatcher := .closing ev } := by
  obtain ⟨order,pending,receipts,own,single,awake⟩ := inv
  rw [calling] at order pending receipts
  refine ⟨?_,pending,?_,own,single,fun wrong => by cases wrong⟩
  · simpa [Dispatcher.running] using order
  · simp only [Dispatcher.unclosed,List.append_nil] at receipts
    rw [receipts,List.filterMap_append]
    cases receipt : ev.receipt <;> simp [Dispatcher.unclosed,List.filterMap_cons,receipt]

theorem inv_close (inv : Inv s) {ev : QueuedEvent} (closing : s.dispatcher = .closing ev) :
    Inv { s with closed := s.closed ++ ev.receipt.toList, dispatcher := .counting } := by
  obtain ⟨order,pending,receipts,own,single,awake⟩ := inv
  rw [closing] at order pending receipts
  exact ⟨order,pending,(List.append_nil _).trans receipts,own,single,fun wrong => by cases wrong⟩

theorem inv_count (inv : Inv s) (counting : s.dispatcher = .counting) :
    Inv { s with eventPending := s.eventPending - 1, dispatcher := .looking } := by
  obtain ⟨order,pending,receipts,own,single,awake⟩ := inv
  rw [counting] at order pending receipts
  refine ⟨order,?_,receipts,own,single,fun wrong => by cases wrong⟩
  simp only [Dispatcher.inFlight] at pending ⊢
  omega

theorem inv_step (inv : Inv s) (a : Act) : Inv (step s a) := by
  cases a with
  | append p e =>
    simp only [step]
    split_ifs with idle
    · exact inv_append inv idle e
    · exact inv
  | wake p =>
    simp only [step]
    split_ifs
    · exact inv_wake inv
    · exact inv
  | sealQueue f =>
    simp only [step]
    split_ifs
    · exact inv_seal inv
    · exact inv
  | wakeSealed f =>
    simp only [step]
    split_ifs
    · exact inv_wakeSealed inv
    · exact inv
  | look =>
    simp only [step]
    split_ifs with looking
    · exact inv_look inv looking
    · exact inv
  | receive =>
    simp only [step]
    split_ifs with awake
    · exact inv_receive inv awake.1
    · exact inv
  | returns =>
    simp only [step]
    split
    · next ev calling => exact inv_return inv calling
    · exact inv
  | close =>
    simp only [step]
    split
    · next ev closing => exact inv_close inv closing
    · exact inv
  | count =>
    simp only [step]
    split_ifs with counting
    · exact inv_count inv counting
    · exact inv

end

theorem inv_run (acts : List Act) : Inv (run step {} acts) :=
  run_keeps (I := Inv) (fun _ a inv => inv_step inv a) inv_initial acts

section
variable {s : State}

theorem receipts_sublist (inv : Inv s) : s.closed.Sublist (s.commits.filterMap QueuedEvent.receipt) := by
  have closed : s.closed.Sublist (s.ran.filterMap QueuedEvent.receipt) := inv.receipts ▸ List.sublist_append_left _ _
  rw [← inv.order,List.append_assoc,List.filterMap_append]
  exact closed.trans (List.sublist_append_left _ _)

/-- A receipt that was closed belongs to an event whose callback returned. -/
theorem ran_of_closed (inv : Inv s) {r : Nat} (closed : r ∈ s.closed) : ∃ ev ∈ s.ran, ev.receipt = some r := by
  have member : r ∈ s.ran.filterMap QueuedEvent.receipt := inv.receipts ▸ List.mem_append_left _ closed
  exact List.mem_filterMap.mp member

/-- Once the dispatcher is past it, the receipt of an event whose callback returned is closed. -/
theorem closed_of_ran (inv : Inv s) {ev : QueuedEvent} {r : Nat} (ran : ev ∈ s.ran) (receipt : ev.receipt = some r) :
    r ∈ s.closed ∨ ∃ ev', s.dispatcher = .closing ev' ∧ ev'.receipt = some r := by
  have member : r ∈ s.closed ++ s.dispatcher.unclosed := by
    rw [inv.receipts]
    exact List.mem_filterMap.mpr ⟨ev,ran,receipt⟩
  rcases List.mem_append.mp member with closed | unclosed
  · exact .inl closed
  · cases place : s.dispatcher with
    | closing ev' =>
      rw [place] at unclosed
      exact .inr ⟨ev',rfl,by simpa [Dispatcher.unclosed] using unclosed⟩
    | _ => simp [place,Dispatcher.unclosed] at unclosed

theorem look_exits (after : (look s).dispatcher = .exited) : (look s).eventsSealed = true ∧ (look s).events = [] := by
  unfold look at after ⊢
  split at after
  · next empty =>
    by_cases done : s.eventsSealed = true
    · simp only [empty]
      exact ⟨done,trivial⟩
    · simp [done] at after
  · cases after

/-- The dispatcher exits only on an empty, sealed queue. -/
theorem exits_drained {a : Act} (before : s.dispatcher ≠ .exited) (after : (step s a).dispatcher = .exited) :
    (step s a).eventsSealed = true ∧ (step s a).events = [] := by
  cases a with
  | look =>
    by_cases looking : s.dispatcher = .looking
    · rw [step,if_pos looking] at after ⊢
      exact look_exits after
    · rw [step,if_neg looking] at after
      exact absurd after before
  | returns | close =>
    simp only [step] at after
    split at after
    · cases after
    · exact absurd after before
  | receive | count =>
    simp only [step] at after
    split_ifs at after
    exact absurd after before
  | _ =>
    simp only [step,enqueueEventLocked] at after
    split_ifs at after <;> exact absurd after before

end

/-- Delivery is exactly-once, in the order of the commits, with no lost wake-up, in every
    interleaving of producers, finishers and the dispatcher: what ran, then what runs,
    then what is queued is what was committed; a receipt is closed at most once, and
    only after the callback of its event has returned, and the dispatcher does not get
    past an event without; the count of pending events is right; the dispatcher exits
    only when the queue is sealed and empty; and it is never parked without a token
    while there is work or a seal and nobody is about to send one. -/
theorem events_delivered (acts : List Act) :
    let s := run step {} acts
    s.ran ++ s.dispatcher.running ++ s.events = s.commits ∧
    (s.closed.Nodup ∧ (∀ r ∈ s.closed, ∃ ev ∈ s.ran, ev.receipt = some r) ∧
      ∀ ev ∈ s.ran, ∀ r, ev.receipt = some r → r ∈ s.closed ∨ ∃ ev', s.dispatcher = .closing ev' ∧ ev'.receipt = some r) ∧
    s.eventPending = s.events.length + s.dispatcher.inFlight ∧
    (∀ a, s.dispatcher ≠ .exited → (step s a).dispatcher = .exited →
      (step s a).eventsSealed = true ∧ (step s a).events = []) ∧
    ¬ (s.dispatcher = .parked ∧ s.eventWake = false ∧ ¬ Sending s ∧ (s.events ≠ [] ∨ s.eventsSealed = true)) := by
  intro s
  have inv : Inv s := inv_run acts
  refine ⟨inv.order,⟨?_,?_,?_⟩,inv.pending,?_,?_⟩
  · exact inv.single.sublist (receipts_sublist inv)
  · exact fun r => ran_of_closed inv
  · exact fun ev ran r => closed_of_ran inv ran
  · exact fun a => exits_drained
  · rintro ⟨parked,none,nobody,work⟩
    rcases inv.awake parked work with token | sending
    · rw [none] at token
      cases token
    · exact nobody sending

end Mori.Delivery
