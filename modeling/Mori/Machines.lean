import Mathlib.Algebra.BigOperators.Group.Finset.Piecewise

/-!
Machines that take one act after another: what every step keeps holds after every run,
also where the steps keep it only under a condition that the run meets. An act that is
not possible in a state leaves the state as it is. `Held` is for what one party at a
time can have. A machine of which some act always lowers the work that is left, until a
goal is reached, can reach it (`drains`); the work of many parties is a sum over them.
-/
namespace Mori.Machines

variable {S A : Type}

/-- The state after some acts. -/
def run (step : S → A → S) (s : S) (acts : List A) : S := acts.foldl step s

/-- Every act of the run meets the condition in the state in which it is taken. -/
def Along (step : S → A → S) (ok : S → A → Prop) : S → List A → Prop
  | _,[] => True
  | s,a :: acts => ok s a ∧ Along step ok (step s a) acts

instance (step : S → A → S) (ok : S → A → Prop) [∀ s a, Decidable (ok s a)] :
    ∀ s acts, Decidable (Along step ok s acts)
  | _,[] => inferInstanceAs (Decidable True)
  | s,a :: acts => @instDecidableAnd _ _ _ (instDecidableAlong step ok (step s a) acts)

section
variable {step : S → A → S} {ok : S → A → Prop} {I : S → Prop}

theorem run_append (s : S) (acts more : List A) : run step s (acts ++ more) = run step (run step s acts) more :=
  List.foldl_append

/-- What every step that meets the condition keeps, a run of such steps keeps. -/
theorem along_keeps (keeps : ∀ s a, I s → ok s a → I (step s a)) {s : S} {acts : List A} (holds : I s)
    (met : Along step ok s acts) : I (run step s acts) := by
  induction acts generalizing s with
  | nil => exact holds
  | cons a acts ih => exact ih (keeps s a holds met.1) met.2

/-- What such steps ensure wherever the invariant holds, every step of such a run ensures. -/
theorem along_also {also : S → A → Prop} (keeps : ∀ s a, I s → ok s a → I (step s a))
    (ensures : ∀ s a, I s → ok s a → also s a) {s : S} {acts : List A} (holds : I s) (met : Along step ok s acts) :
    Along step also s acts := by
  induction acts generalizing s with
  | nil => trivial
  | cons a acts ih => exact ⟨ensures s a holds met.1,ih (keeps s a holds met.1) met.2⟩

/-- What holds at the end and, by each step, before it as well, every step of the run also shows. -/
theorem along_of_end {also : S → A → Prop} (back : ∀ s a, I (step s a) → I s ∧ also s a) {s : S} {acts : List A}
    (last : I (run step s acts)) : I s ∧ Along step also s acts := by
  induction acts generalizing s with
  | nil => exact ⟨last,trivial⟩
  | cons a acts ih =>
    obtain ⟨next,rest⟩ := ih last
    obtain ⟨here,this⟩ := back s a next
    exact ⟨here,this,rest⟩

/-- Where the condition is just what a step needs to keep a property, a run has the property
    all along exactly if all its steps meet the condition. -/
theorem along_iff {P : S → Prop} (keeps : ∀ s a, I s → I (step s a)) (exactly : ∀ s a, I s → P s → (P (step s a) ↔ ok s a))
    {s : S} (holds : I s) (start : P s) (acts : List A) :
    (∀ n, P (run step s (acts.take n))) ↔ Along step ok s acts := by
  induction acts generalizing s with
  | nil =>
    refine ⟨fun _ => trivial,fun _ n => ?_⟩
    rw [List.take_nil]
    exact start
  | cons a acts ih =>
    constructor
    · intro all
      have next : P (step s a) := all 1
      exact ⟨(exactly s a holds start).mp next,(ih (keeps s a holds) next).mp (fun n => all (n + 1))⟩
    · rintro ⟨here,later⟩ n
      have next : P (step s a) := (exactly s a holds start).mpr here
      cases n with
      | zero => exact start
      | succ n => exact (ih (keeps s a holds) next).mpr later n

/-- What every step keeps, every run keeps. -/
theorem run_keeps (keeps : ∀ s a, I s → I (step s a)) {s : S} (holds : I s) (acts : List A) :
    I (run step s acts) := by
  induction acts generalizing s with
  | nil => exact holds
  | cons a acts ih => exact ih (keeps s a holds)

/-- Where some act of a kind always lowers the work that is left, such acts lead to the goal. -/
theorem drains {K : A → Prop} {D : S → Prop} (work : S → Nat) (keeps : ∀ s a, I s → K a → I (step s a))
    (progress : ∀ s, I s → ¬ D s → ∃ a, K a ∧ work (step s a) < work s) {s : S} (holds : I s) :
    ∃ acts, (∀ a ∈ acts, K a) ∧ D (run step s acts) := by
  induction left : work s using Nat.strong_induction_on generalizing s with
  | _ n ih =>
    by_cases reached : D s
    · exact ⟨[],fun _ member => absurd member List.not_mem_nil,reached⟩
    · obtain ⟨a,isKind,less⟩ := progress s holds reached
      obtain ⟨acts,kinds,last⟩ := ih _ (left ▸ less) (keeps s a holds isKind) rfl
      refine ⟨a :: acts,fun b member => ?_,last⟩
      rcases List.mem_cons.mp member with rfl | later
      · exact isKind
      · exact kinds b later

end

section
variable {α : Type} (w : α → Nat) (f : Nat → α) (n : Nat) (x : α)

/-- One of the parties changes. -/
theorem sum_update {i : Nat} (within : i < n) :
    ∑ j ∈ Finset.range n, w (Function.update f i x j) + w (f i) = ∑ j ∈ Finset.range n, w (f j) + w x := by
  have member : i ∈ Finset.range n := Finset.mem_range.mpr within
  have others : ∑ j ∈ (Finset.range n).erase i, w (Function.update f i x j) = ∑ j ∈ (Finset.range n).erase i, w (f j) := by
    refine Finset.sum_congr rfl (fun j other => ?_)
    rw [Function.update_of_ne (Finset.ne_of_mem_erase other)]
  rw [← Finset.add_sum_erase _ _ member,← Finset.add_sum_erase _ (fun j => w (f j)) member,others,Function.update_self]
  omega

/-- A party is added. -/
theorem sum_extend :
    ∑ j ∈ Finset.range (n + 1), w (Function.update f n x j) = ∑ j ∈ Finset.range n, w (f j) + w x := by
  rw [Finset.sum_range_succ,Function.update_self]
  refine congrArg (· + w x) (Finset.sum_congr rfl (fun j member => ?_))
  rw [Function.update_of_ne (Nat.ne_of_lt (Finset.mem_range.mp member))]

end

/-! ## One holder at most

A flag, such as that of a mutex, tells whether anybody has what only one can have.
-/

structure Held {α : Type} (flag : Bool) (Has : α → Prop) : Prop where
  single : ∀ p q, Has p → Has q → p = q
  flag_iff : flag = true ↔ ∃ p, Has p

section
variable {α : Type} {flag : Bool} {Has Has' : α → Prop} {p q : α}

theorem held_nobody (nobody : ∀ p, ¬ Has p) : Held false Has where
  single p _ first := absurd first (nobody p)
  flag_iff := iff_of_false Bool.false_ne_true (fun ⟨p,has⟩ => nobody p has)

theorem nobody_of_held (held : Held false Has) (p : α) : ¬ Has p := by
  intro has
  have raised := held.flag_iff.mpr ⟨p,has⟩
  cases raised

/-- Nobody but `p` gets it or gives it up. -/
def Aside (p : α) (Has Has' : α → Prop) : Prop := ∀ q, q ≠ p → (Has' q ↔ Has q)

theorem aside_update {α β : Type} [DecidableEq α] (P : β → Prop) (f : α → β) (p : α) (x : β) :
    Aside p (fun q => P (f q)) (fun q => P (Function.update f p x q)) := by
  intro q other
  simp only [Function.update_of_ne other]

theorem held_same (held : Held flag Has) (aside : Aside p Has Has') (same : Has' p ↔ Has p) : Held flag Has' := by
  have all : ∀ q, Has' q ↔ Has q := by
    intro q
    by_cases here : q = p
    · rw [here]
      exact same
    · exact aside q here
  refine ⟨fun q r first second => held.single q r ((all q).mp first) ((all r).mp second),?_⟩
  rw [held.flag_iff]
  exact exists_congr (fun q => (all q).symm)

/-- Somebody takes what nobody has. -/
theorem held_take (held : Held false Has) (aside : Aside p Has Has') (now : Has' p) : Held true Has' := by
  have sole : ∀ q, Has' q → q = p := by
    intro q has
    by_contra other
    exact nobody_of_held held q ((aside q other).mp has)
  refine ⟨?_,fun _ => ⟨p,now⟩,fun _ => rfl⟩
  intro q r first second
  rw [sole q first,sole r second]

/-- The holder gives it up. -/
theorem held_release (held : Held flag Has) (aside : Aside p Has Has') (had : Has p) (gone : ¬ Has' p) : Held false Has' := by
  refine held_nobody (fun q has => ?_)
  by_cases here : q = p
  · exact gone (here ▸ has)
  · exact here (held.single q p ((aside q here).mp has) had)

/-- The holder passes it on. -/
theorem held_pass (held : Held flag Has) (has : Has p) (now : Has' q) (other : ∀ r, Has' r → r = q ∨ r ≠ p ∧ Has r) :
    Held flag Has' := by
  have sole : ∀ r, Has' r → r = q := by
    intro r first
    refine (other r first).resolve_right ?_
    rintro ⟨different,second⟩
    exact different (held.single r p second has)
  refine ⟨?_,?_⟩
  · intro r r' first second
    rw [sole r first,sole r' second]
  · exact ⟨fun _ => ⟨q,now⟩,fun _ => held.flag_iff.mpr ⟨p,has⟩⟩

end
end Mori.Machines
