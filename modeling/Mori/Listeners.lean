import Mori.Machines
import Mathlib.Algebra.Order.BigOperators.Group.Finset

/-!
The listeners of a `NetTransport` and its `Shutdown`. A listener hands what it has read to a
channel without a buffer, and looks at the shutdown flag only when a read fails. So `Shutdown`,
which waits for all listeners, can return exactly if somebody receives from these channels or no
listener has anything in hand. When a start fails at the size of the metadata,
`buildMemberlist` shuts the transport down before anybody receives.
-/
namespace Mori.Listeners
open Mori.Machines

/-- Where `tcpListen` or `udpListen` stands: at its read, which includes the delay after an
    error; at the send to its channel; and after its loop. -/
inductive Stage where
  | reading
  | holding
  | ended
deriving DecidableEq,Repr

/-- A listener, and whether its socket is closed. -/
structure Worker where
  closed : Bool := false
  stage : Stage := .reading
deriving DecidableEq,Repr

/-- A call of `Shutdown`: before the store of the flag, after it, and after `wg.Wait`. -/
inductive Closing where
  | idle
  | closing
  | returned
deriving DecidableEq,Repr

/-- `drained` tells whether `packetListen` and `streamListen` run. -/
structure State (ι : Type) where
  workers : ι → Worker := fun _ => {}
  drained : Bool
  shutdown : Bool := false
  closing : Closing := .idle

/-- A packet or a connection arrives, one is received from the channel, a read fails; and the
    steps of `Shutdown`. -/
inductive Act (ι : Type) where
  | arrive (i : ι)
  | receive (i : ι)
  | fail (i : ι)
  | store
  | close (i : ι)
  | wait

variable {ι : Type} [DecidableEq ι]

def State.set (s : State ι) (i : ι) (w : Worker) : State ι := { s with workers := Function.update s.workers i w }

def act [Fintype ι] (s : State ι) : Act ι → State ι
  | .arrive i => if s.workers i = ⟨false,.reading⟩ then s.set i ⟨false,.holding⟩ else s
  | .receive i => if (s.workers i).stage = .holding ∧ s.drained = true then s.set i ⟨(s.workers i).closed,.reading⟩ else s
  | .fail i =>
    if (s.workers i).stage = .reading then s.set i ⟨(s.workers i).closed,if s.shutdown then .ended else .reading⟩ else s
  | .store => if s.closing = .idle then { s with shutdown := true, closing := .closing } else s
  | .close i => if s.closing = .closing then s.set i ⟨true,(s.workers i).stage⟩ else s
  | .wait => if s.closing = .closing ∧ ∀ i, s.workers i = ⟨true,.ended⟩ then { s with closing := .returned } else s

/-- Nothing more arrives. -/
def Settles : Act ι → Prop
  | .arrive _ => False
  | _ => True

/-- What a step can do. Nothing leaves the hand of a listener but through the channel. -/
inductive Step (s : State ι) (a : Act ι) : State ι → Prop
  | stay : Step s a s
  | move (i : ι) (w : Worker) (runs : (s.workers i).stage ≠ .ended ∨ s.closing = .closing)
    (holds : (s.workers i).stage = .holding → w.stage = .holding ∨ s.drained = true)
    (takes : Settles a → w.stage = .holding → (s.workers i).stage = .holding) : Step s a (s.set i w)
  | store (idle : s.closing = .idle) : Step s a { s with shutdown := true, closing := .closing }
  | wait (called : s.closing = .closing) (all : ∀ i, s.workers i = ⟨true,.ended⟩) : Step s a { s with closing := .returned }

/-- No listener has anything in hand. -/
def Idle (s : State ι) : Prop := ∀ i, (s.workers i).stage ≠ .holding

structure Inv (s : State ι) : Prop where
  flag : s.closing ≠ .idle → s.shutdown = true
  ended : s.closing = .returned → ∀ i, (s.workers i).stage = .ended

/-- The listener has something in hand that nobody receives. -/
structure Stuck (i : ι) (s : State ι) : Prop where
  undrained : s.drained = false
  holds : (s.workers i).stage = .holding
  waits : s.closing ≠ .returned

def CanEnd (s : State ι) : Prop := Inv s ∧ (s.drained = true ∨ Idle s)

section
variable {s s' : State ι} {a : Act ι} {i : ι}

theorem inv_step (inv : Inv s) (step : Step s a s') : Inv s' := by
  cases step with
  | stay => exact inv
  | move i w runs =>
    refine ⟨inv.flag,fun returned => ?_⟩
    rcases runs with runs | called
    · exact absurd (inv.ended returned i) runs
    · exact absurd (called.symm.trans returned) (by decide)
  | store => exact ⟨fun _ => rfl,fun wrong => by cases wrong⟩
  | wait called all => exact ⟨fun _ => inv.flag (by rw [called]; decide),fun _ i => by rw [all i]⟩

theorem stuck_step (stuck : Stuck i s) (step : Step s a s') : Stuck i s' := by
  obtain ⟨undrained,holds,waits⟩ := stuck
  cases step with
  | stay => exact ⟨undrained,holds,waits⟩
  | move j w _ kept =>
    refine ⟨undrained,?_,waits⟩
    by_cases same : i = j
    · subst same
      rcases kept holds with held | drained
      · simpa [State.set] using held
      · rw [undrained] at drained
        cases drained
    · simpa [State.set,Function.update_of_ne same] using holds
  | store => exact ⟨undrained,holds,fun wrong => by cases wrong⟩
  | wait called all =>
    rw [all i] at holds
    cases holds

end

variable [Fintype ι]

def Stage.steps : Stage → Nat
  | .ended => 0
  | .reading => 1
  | .holding => 2

/-- What is left to do for a listener: its socket is to be closed and its loop to end. -/
def Worker.steps (w : Worker) : Nat := (if w.closed then 0 else 1) + w.stage.steps

def Closing.steps : Closing → Nat
  | .idle => 2
  | .closing => 1
  | .returned => 0

def work (s : State ι) : Nat := ∑ i, (s.workers i).steps + s.closing.steps

theorem work_set {s : State ι} {i : ι} {w : Worker} (less : w.steps < (s.workers i).steps) : work (s.set i w) < work s := by
  refine Nat.add_lt_add_right (Finset.sum_lt_sum (fun j _ => ?_) ⟨i,Finset.mem_univ i,?_⟩) _
  · by_cases same : j = i
    · subst same
      simpa [State.set] using less.le
    · simp [State.set,Function.update_of_ne same]
  · simpa [State.set] using less

/-- While `Shutdown` has not returned, some step brings it nearer to that. -/
theorem progress (s : State ι) (can : CanEnd s) (unfinished : s.closing ≠ .returned) : ∃ a, Settles a ∧ work (act s a) < work s := by
  obtain ⟨inv,can⟩ := can
  cases now : s.closing with
  | idle =>
    refine ⟨.store,trivial,?_⟩
    rw [act,if_pos now]
    exact Nat.add_lt_add_left (by rw [now]; exact Nat.one_lt_two) _
  | closing =>
    by_cases all : ∀ i, s.workers i = ⟨true,.ended⟩
    · refine ⟨.wait,trivial,?_⟩
      rw [act,if_pos ⟨now,all⟩]
      exact Nat.add_lt_add_left (by rw [now]; exact Nat.zero_lt_one) _
    · obtain ⟨i,busy⟩ := not_forall.mp all
      cases here : s.workers i with
      | mk closed stage =>
        cases stage with
        | ended =>
          refine ⟨.close i,trivial,?_⟩
          rw [act,if_pos now]
          cases closed with
          | true => exact absurd here busy
          | false => exact work_set (by rw [here]; decide)
        | reading =>
          refine ⟨.fail i,trivial,?_⟩
          rw [act,if_pos (by rw [here]),inv.flag (by rw [now]; decide)]
          exact work_set (by rw [here]; exact Nat.add_lt_add_left Nat.zero_lt_one _)
        | holding =>
          have drained : s.drained = true := can.resolve_right (fun idle => idle i (by rw [here]))
          refine ⟨.receive i,trivial,?_⟩
          rw [act,if_pos ⟨by rw [here],drained⟩]
          exact work_set (by rw [here]; exact Nat.add_lt_add_left Nat.one_lt_two _)
  | returned => exact absurd now unfinished

end Mori.Listeners
