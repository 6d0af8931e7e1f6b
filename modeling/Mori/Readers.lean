import Mathlib.Data.List.Basic
import Mathlib.Algebra.Order.Ring.Nat

/-!
Readers of an input: computations that take items off the front of their input or
fail, over any items, any state that holds the input and any errors. `Reads p b a`
says that `p` takes exactly `b` off every input that starts with it and returns
`a`. `Exact p` says that the success of `p` depends on nothing but what it takes, and
`Yields p Q` that whatever `p` returns satisfies `Q`. `Agree R p q` says that `p` and `q`
do the same up to `R` on their results, and `Twin k p q` that, over different states, they
do the same to what is unread.
-/
namespace Mori.Readers

/-- A computation that reads from a state of type `σ`. -/
abbrev Reader (σ ε α : Type) := StateT σ (Except ε) α

/-- States in front of whose input more input can be put. -/
class Input (β : outParam Type) (σ : Type) where
  feed : List β → σ → σ
  feed_nil (s : σ) : feed [] s = s
  feed_append (b c : List β) (s : σ) : feed (b ++ c) s = feed b (feed c s)

variable {β σ ε ε' α γ : Type}

/-- The same reader with its errors wrapped. -/
def wrapError (f : ε → ε') (p : Reader σ ε α) : Reader σ ε' α := fun s => (p.run s).mapError f

/-- Runs a step a number of times. -/
def iterate (step : α → Reader σ ε α) : Nat → α → Reader σ ε α
  | 0,a => pure a
  | n + 1,a => step a >>= iterate step n

/-- A computation of two parts succeeds when both do. -/
theorem bind_ok {p : Reader σ ε α} {f : α → Reader σ ε γ} {s : σ} {r : γ × σ} :
    (p >>= f).run s = .ok r ↔ ∃ a s', p.run s = .ok (a,s') ∧ (f a).run s' = .ok r := by
  rw [StateT.run_bind]
  cases ran : p.run s with
  | error e =>
    constructor
    · intro wrong; cases wrong
    · rintro ⟨_,_,wrong,_⟩; cases wrong
  | ok pair =>
    constructor
    · intro done
      exact ⟨pair.1,pair.2,rfl,done⟩
    · rintro ⟨a,s',same,done⟩
      cases same
      exact done

theorem wrapError_ok {f : ε → ε'} {p : Reader σ ε α} {s : σ} {r : α × σ} :
    (wrapError f p).run s = .ok r ↔ p.run s = .ok r := by
  change (p.run s).mapError f = .ok r ↔ _
  cases p.run s with
  | error e => simp [Except.mapError]
  | ok pair => simp [Except.mapError]

/-- The reader takes exactly `b` off the front of its input and returns `a`. -/
def Reads [Input β σ] (p : Reader σ ε α) (b : List β) (a : α) : Prop :=
  ∀ s : σ, p.run (Input.feed b s) = .ok (a,s)

section
variable [Input β σ] {p : Reader σ ε α} {b c : List β} {a : α} {r : γ}

theorem reads_pure (a : α) : Reads (pure a : Reader σ ε α) ([] : List β) a := by
  intro s
  rw [Input.feed_nil]
  rfl

theorem reads_bind {f : α → Reader σ ε γ} (first : Reads p b a) (second : Reads (f a) c r) :
    Reads (p >>= f) (b ++ c) r := by
  intro s
  rw [Input.feed_append,bind_ok]
  exact ⟨a,_,first _,second s⟩

/-- A reader followed by a computation that takes nothing. -/
theorem reads_then {f : α → Reader σ ε γ} (first : Reads p b a) (second : Reads (f a) [] r) : Reads (p >>= f) b r := by
  have both := reads_bind first second
  rwa [List.append_nil] at both

theorem reads_map {f : α → γ} (first : Reads p b a) : Reads (p >>= fun x => pure (f x)) b (f a) :=
  reads_then first (reads_pure _)

theorem reads_wrapError {f : ε → ε'} (reads : Reads p b a) : Reads (wrapError f p) b a :=
  fun s => wrapError_ok.mpr (reads s)

theorem reads_iterate_zero (step : α → Reader σ ε α) (a : α) : Reads (iterate step 0 a) ([] : List β) a := reads_pure a

theorem reads_iterate_succ {step : α → Reader σ ε α} {n : Nat} {a' a'' : α} (first : Reads (step a) b a')
    (rest : Reads (iterate step n a') c a'') : Reads (iterate step (n + 1) a) (b ++ c) a'' :=
  reads_bind first rest

end

/-- The reader fails on every input that starts with `b`. -/
def Fails [Input β σ] (p : Reader σ ε α) (b : List β) (e : ε) : Prop :=
  ∀ s : σ, p.run (Input.feed b s) = .error e

section
variable [Input β σ] {p : Reader σ ε α} {b c : List β} {a : α} {e : ε}

theorem fails_throw (e : ε) (b : List β) : Fails (throw e : Reader σ ε α) b e := fun _ => rfl

theorem fails_bind {f : α → Reader σ ε γ} (first : Reads p b a) (second : Fails (f a) c e) :
    Fails (p >>= f) (b ++ c) e := by
  intro s
  rw [Input.feed_append,StateT.run_bind,first]
  exact second s

theorem fails_first {f : α → Reader σ ε γ} (first : Fails p b e) : Fails (p >>= f) b e := by
  intro s
  rw [StateT.run_bind,first]
  rfl

theorem fails_append (fails : Fails p b e) (c : List β) : Fails p (b ++ c) e := by
  intro s
  rw [Input.feed_append]
  exact fails _

end

/-! ## What a reader looks at

The success of an exact reader depends on nothing but what it takes: what follows may be
cut off or replaced. A reader may also look ahead, at how much is left; it is exact together
with what comes after it, where that takes as much.
-/

/-- What the reader takes off an input it takes off every input that starts with it. -/
def Exact [Input β σ] (p : Reader σ ε α) : Prop :=
  ∀ s a s', p.run s = .ok (a,s') → ∃ b, s = Input.feed b s' ∧ Reads p b a

section
variable [Input β σ] {p : Reader σ ε α}

theorem exact_pure (a : α) : Exact (pure a : Reader σ ε α) := by
  intro s a' s' done
  cases done
  exact ⟨[],(Input.feed_nil s).symm,reads_pure a⟩

theorem exact_throw (e : ε) : Exact (throw e : Reader σ ε α) := by
  intro s a s' done
  cases done

theorem exact_bind {f : α → Reader σ ε γ} (first : Exact p) (second : ∀ a, Exact (f a)) : Exact (p >>= f) := by
  intro s r s'' done
  obtain ⟨a,s',ran,rest⟩ := bind_ok.mp done
  obtain ⟨b,rfl,reads⟩ := first s a s' ran
  obtain ⟨c,rfl,reads'⟩ := second a s' r s'' rest
  exact ⟨b ++ c,(Input.feed_append b c s'').symm,reads_bind reads reads'⟩

theorem exact_map {f : α → γ} (exact : Exact p) : Exact (p >>= fun a => pure (f a)) :=
  exact_bind exact (fun a => exact_pure (f a))

theorem exact_ite {c : Prop} [Decidable c] {q : Reader σ ε α} (yes : Exact p) (no : Exact q) :
    Exact (if c then p else q) := by
  split_ifs
  · exact yes
  · exact no

theorem exact_wrapError {f : ε → ε'} (exact : Exact p) : Exact (wrapError f p) := by
  intro s a s' done
  obtain ⟨b,same,reads⟩ := exact s a s' (wrapError_ok.mp done)
  exact ⟨b,same,reads_wrapError reads⟩

theorem exact_iterate {step : α → Reader σ ε α} (exact : ∀ a, Exact (step a)) (n : Nat) (a : α) :
    Exact (iterate step n a) := by
  induction n generalizing a with
  | zero => exact exact_pure a
  | succ n ih => exact exact_bind (exact a) ih

end

/-- What the reader takes is derived by the grammar, together with what it returns. -/
def Derives [Input β σ] (p : Reader σ ε α) (G : List β → α → Prop) : Prop :=
  ∀ s a s', p.run s = .ok (a,s') → ∃ b, s = Input.feed b s' ∧ G b a

section
variable [Input β σ] {p : Reader σ ε α} {G : List β → α → Prop}

theorem derives_pure {a : α} (holds : G [] a) : Derives (pure a : Reader σ ε α) G := by
  intro s a' s' done
  cases done
  exact ⟨[],(Input.feed_nil s).symm,holds⟩

theorem derives_throw (e : ε) : Derives (throw e : Reader σ ε α) G := by
  intro s a s' done
  cases done

theorem derives_bind {f : α → Reader σ ε γ} {H : List β → γ → Prop} (first : Derives p G)
    (second : ∀ b a, G b a → Derives (f a) (fun c r => H (b ++ c) r)) : Derives (p >>= f) H := by
  intro s r s'' done
  obtain ⟨a,s',ran,rest⟩ := bind_ok.mp done
  obtain ⟨b,rfl,here⟩ := first s a s' ran
  obtain ⟨c,rfl,there⟩ := second b a here s' r s'' rest
  exact ⟨b ++ c,(Input.feed_append b c s'').symm,there⟩

theorem derives_ite {c : Prop} [Decidable c] {q : Reader σ ε α} (yes : c → Derives p G) (no : ¬ c → Derives q G) :
    Derives (if c then p else q) G := by
  split_ifs with holds
  · exact yes holds
  · exact no holds

theorem derives_wrapError {f : ε → ε'} (derives : Derives p G) : Derives (wrapError f p) G :=
  fun s a s' done => derives s a s' (wrapError_ok.mp done)

/-- A reader that takes all that the grammar derives looks at nothing else. -/
theorem exact_of_derives (derives : Derives p G) (complete : ∀ b a, G b a → Reads p b a) : Exact p := by
  intro s a s' done
  obtain ⟨b,same,derived⟩ := derives s a s' done
  exact ⟨b,same,complete b a derived⟩

/-- A reader that takes all that the grammar derives, and nothing else, succeeds
    exactly on that. -/
theorem run_iff_of_derives (derives : Derives p G) (complete : ∀ b a, G b a → Reads p b a) (s : σ) (a : α) (s' : σ) :
    p.run s = .ok (a,s') ↔ ∃ b, s = Input.feed b s' ∧ G b a := by
  constructor
  · exact derives s a s'
  · rintro ⟨b,rfl,derived⟩
    exact complete b a derived s'

end

/-- Whatever the reader returns satisfies `Q`. -/
def Yields (p : Reader σ ε α) (Q : α → Prop) : Prop := ∀ s a s', p.run s = .ok (a,s') → Q a

section
variable {p : Reader σ ε α} {Q : α → Prop}

theorem yields_pure {a : α} (holds : Q a) : Yields (pure a : Reader σ ε α) Q := by
  intro s a' s' done
  cases done
  exact holds

theorem yields_mono {R : α → Prop} (yields : Yields p Q) (weaker : ∀ a, Q a → R a) : Yields p R :=
  fun s a s' done => weaker a (yields s a s' done)

theorem yields_throw (e : ε) : Yields (throw e : Reader σ ε α) Q := by
  intro s a s' done
  cases done

theorem yields_bind {f : α → Reader σ ε γ} {R : γ → Prop} (first : Yields p Q) (second : ∀ a, Q a → Yields (f a) R) :
    Yields (p >>= f) R := by
  intro s r s'' done
  obtain ⟨a,s',ran,rest⟩ := bind_ok.mp done
  exact second a (first s a s' ran) s' r s'' rest

/-- What the first part returns does not matter. -/
theorem yields_after {f : α → Reader σ ε γ} {R : γ → Prop} (second : ∀ a, Yields (f a) R) : Yields (p >>= f) R :=
  yields_bind (Q := fun _ => True) (fun _ _ _ _ => trivial) (fun a _ => second a)

theorem yields_wrapError {f : ε → ε'} (yields : Yields p Q) : Yields (wrapError f p) Q :=
  fun s a s' done => yields s a s' (wrapError_ok.mp done)

theorem yields_iterate {step : α → Reader σ ε α} (keeps : ∀ a, Q a → Yields (step a) Q) (n : Nat) {a : α}
    (holds : Q a) : Yields (iterate step n a) Q := by
  induction n generalizing a with
  | zero => exact yields_pure holds
  | succ n ih => exact yields_bind (keeps a holds) (fun a' holds' => ih holds')

end

/-- Both readers fail with the same error, or leave the same state with related results. -/
def Agree (R : α → γ → Prop) (p : Reader σ ε α) (q : Reader σ ε γ) : Prop :=
  ∀ s, (∃ e, p.run s = .error e ∧ q.run s = .error e) ∨ ∃ a c s', p.run s = .ok (a,s') ∧ q.run s = .ok (c,s') ∧ R a c

section
variable {R : α → γ → Prop} {p : Reader σ ε α} {q : Reader σ ε γ}

theorem agree_pure {a : α} {c : γ} (related : R a c) : Agree R (pure a : Reader σ ε α) (pure c) :=
  fun s => .inr ⟨a,c,s,rfl,rfl,related⟩

theorem agree_throw (e : ε) : Agree R (throw e : Reader σ ε α) (throw e) := fun _ => .inl ⟨e,rfl,rfl⟩

theorem agree_ite {c : Prop} [Decidable c] {p' : Reader σ ε α} {q' : Reader σ ε γ} (yes : c → Agree R p q)
    (no : ¬ c → Agree R p' q') : Agree R (if c then p else p') (if c then q else q') := by
  split_ifs with holds
  · exact yes holds
  · exact no holds

theorem agree_refl (p : Reader σ ε α) : Agree (fun a c => a = c) p p := by
  intro s
  cases ran : p.run s with
  | error e => exact .inl ⟨e,rfl,rfl⟩
  | ok r => exact .inr ⟨r.1,r.1,r.2,rfl,rfl,rfl⟩

theorem agree_bind {α' γ' : Type} {S : α' → γ' → Prop} {f : α → Reader σ ε α'} {g : γ → Reader σ ε γ'}
    (first : Agree R p q) (second : ∀ a c, R a c → Agree S (f a) (g c)) : Agree S (p >>= f) (q >>= g) := by
  intro s
  rw [StateT.run_bind,StateT.run_bind]
  rcases first s with ⟨e,left,right⟩ | ⟨a,c,s',left,right,related⟩
  · rw [left,right]
    exact .inl ⟨e,rfl,rfl⟩
  · rw [left,right]
    exact second a c related s'

theorem agree_ok (agree : Agree R p q) {s s' : σ} {a : α} (done : p.run s = .ok (a,s')) :
    ∃ c, q.run s = .ok (c,s') ∧ R a c := by
  rcases agree s with ⟨e,left,right⟩ | ⟨a',c,s'',left,right,related⟩
  · rw [left] at done
    cases done
  · rw [left] at done
    cases done
    exact ⟨c,right,related⟩

/-- Where its results are determined by those of the other, a reader is as good as the
    other. -/
theorem run_iff_of_agree (agree : Agree R p q) (unique : ∀ {a a' c}, R a c → R a' c → a = a') {s s' : σ} {a : α} :
    p.run s = .ok (a,s') ↔ ∃ c, q.run s = .ok (c,s') ∧ R a c := by
  refine ⟨agree_ok agree,?_⟩
  rintro ⟨c,done,related⟩
  rcases agree s with ⟨e,-,right⟩ | ⟨a',c',s'',left,right,related'⟩
  · rw [right] at done
    cases done
  · rw [right] at done
    cases done
    rw [left,unique related related']

end

/-! ## Two kinds of input

Two readers of different states are twins when they do the same to what is unread.
-/

/-- States with what is still to be read. -/
class Unread (β : outParam Type) (σ : Type) where
  unread : σ → List β

section
variable {τ : Type} [Unread β σ] [Unread β τ]

/-- What a reader returns and leaves unread, if it succeeds. -/
def outcome (p : Reader σ ε α) (s : σ) : Option (α × List β) :=
  match p.run s with
  | .ok (a,s') => some (a,Unread.unread s')
  | .error _ => none

/-- Where the reader succeeds it takes at least `k` items. -/
def Consumes (k : Nat) (p : Reader σ ε α) : Prop :=
  ∀ s a s', p.run s = .ok (a,s') → (Unread.unread s').length + k ≤ (Unread.unread s).length

/-- The readers do the same to what is unread, and take at least `k` items of it. -/
structure Twin (k : Nat) (p : Reader σ ε α) (q : Reader τ ε' α) : Prop where
  same : ∀ s t, Unread.unread s = Unread.unread t → outcome p s = outcome q t
  left : Consumes k p
  right : Consumes k q

@[simp] theorem outcome_pure (a : α) (s : σ) : outcome (pure a : Reader σ ε α) s = some (a,Unread.unread s) := rfl

@[simp] theorem outcome_throw (e : ε) (s : σ) : outcome (throw e : Reader σ ε α) s = none := rfl

@[simp] theorem outcome_get_bind (f : σ → Reader σ ε α) (s : σ) : outcome (get >>= f) s = outcome (f s) s := rfl

theorem outcome_of_ok {p : Reader σ ε α} {s s' : σ} {a : α} (done : p.run s = .ok (a,s')) :
    outcome p s = some (a,Unread.unread s') := by
  rw [outcome,done]

theorem outcome_of_error {p : Reader σ ε α} {s : σ} {e : ε} (failed : p.run s = .error e) : outcome p s = none := by
  rw [outcome,failed]

theorem outcome_eq_some {p : Reader σ ε α} {s : σ} {a : α} {rest : List β} :
    outcome p s = some (a,rest) ↔ ∃ s', p.run s = .ok (a,s') ∧ Unread.unread s' = rest := by
  constructor
  · intro same
    cases ran : p.run s with
    | error e => simp [outcome_of_error ran] at same
    | ok r =>
      rw [outcome_of_ok ran] at same
      cases same
      exact ⟨r.2,rfl,rfl⟩
  · rintro ⟨s',done,rfl⟩
    exact outcome_of_ok done

theorem outcome_eq_none {p : Reader σ ε α} {s : σ} : outcome p s = none ↔ ∃ e, p.run s = .error e := by
  cases ran : p.run s with
  | error e => simp [outcome_of_error ran]
  | ok r => simp [outcome_of_ok ran]

@[simp] theorem outcome_wrapError (f : ε → ε') (p : Reader σ ε α) (s : σ) :
    outcome (wrapError f p) s = outcome p s := by
  cases ran : p.run s with
  | error e =>
    have failed : (wrapError f p).run s = .error (f e) := by
      change (p.run s).mapError f = _
      rw [ran]
      rfl
    rw [outcome_of_error ran,outcome_of_error failed]
  | ok r => rw [outcome_of_ok ran,outcome_of_ok (wrapError_ok.mpr ran)]

theorem outcome_bind_of_ok {p : Reader σ ε α} {f : α → Reader σ ε γ} {s s' : σ} {a : α} (done : p.run s = .ok (a,s')) :
    outcome (p >>= f) s = outcome (f a) s' := by
  unfold outcome
  rw [StateT.run_bind,done]
  rfl

theorem outcome_bind_of_error {p : Reader σ ε α} {f : α → Reader σ ε γ} {s : σ} {e : ε} (failed : p.run s = .error e) :
    outcome (p >>= f) s = none := by
  unfold outcome
  rw [StateT.run_bind,failed]
  rfl

theorem outcome_map {f : α → γ} {p : Reader σ ε α} (s : σ) :
    outcome (p >>= fun a => pure (f a)) s = (outcome p s).map (Prod.map f id) := by
  cases ran : p.run s with
  | error e => rw [outcome_bind_of_error ran,outcome_of_error ran,Option.map_none]
  | ok r => rw [outcome_bind_of_ok ran,outcome_of_ok ran,outcome_pure,Option.map_some,Prod.map_apply,id_eq]

/-- Where two readers have one outcome, what is related in every state they can leave
    is related after them. -/
theorem outcome_bind_rel {R : Option (γ × List β) → Option (γ × List β) → Prop} {p : Reader σ ε α} {q : Reader τ ε' α}
    {f : α → Reader σ ε γ} {g : α → Reader τ ε' γ} {s : σ} {t : τ} (failed : R none none)
    (start : outcome p s = outcome q t)
    (next : ∀ a s' t', Unread.unread s' = Unread.unread t' → R (outcome (f a) s') (outcome (g a) t')) :
    R (outcome (p >>= f) s) (outcome (q >>= g) t) := by
  cases ran : p.run s with
  | error e =>
    rw [outcome_of_error ran] at start
    obtain ⟨e',failed'⟩ := outcome_eq_none.mp start.symm
    rw [outcome_bind_of_error ran,outcome_bind_of_error failed']
    exact failed
  | ok r =>
    rw [outcome_of_ok ran] at start
    obtain ⟨t',done,left⟩ := outcome_eq_some.mp start.symm
    rw [outcome_bind_of_ok ran,outcome_bind_of_ok done]
    exact next r.1 r.2 t' left.symm

/-- A reader that has to take more than there is fails. -/
theorem outcome_of_consumes {k : Nat} {p : Reader σ ε α} {s : σ} (consumes : Consumes k p)
    (few : (Unread.unread s).length < k) : outcome p s = none := by
  cases ran : p.run s with
  | error e => exact outcome_of_error ran
  | ok r =>
    have least := consumes s r.1 r.2 ran
    omega

theorem consumes_mono {j k : Nat} {p : Reader σ ε α} (consumes : Consumes k p) (less : j ≤ k) : Consumes j p := by
  intro s a s' done
  have least := consumes s a s' done
  omega

theorem consumes_of_outcome {k : Nat} {p q : Reader σ ε α} (same : ∀ s, outcome p s = outcome q s)
    (consumes : Consumes k q) : Consumes k p := by
  intro s a s' done
  obtain ⟨s'',done',left⟩ := outcome_eq_some.mp (same s ▸ outcome_of_ok done)
  exact left ▸ consumes s a s'' done'

theorem consumes_bind {j k : Nat} {p : Reader σ ε α} {f : α → Reader σ ε γ} (first : Consumes j p)
    (second : ∀ a, Consumes k (f a)) : Consumes (j + k) (p >>= f) := by
  intro s r s'' done
  obtain ⟨a,s',ran,rest⟩ := bind_ok.mp done
  have taken := first s a s' ran
  have more := second a s' r s'' rest
  omega

/-- What the reader takes it takes off every input that starts with it and has as many
    items left as `k` says. -/
def ExactBefore [Input β σ] (k : α → Nat) (p : Reader σ ε α) : Prop :=
  ∀ s a s', p.run s = .ok (a,s') → ∃ b, s = Input.feed b s' ∧
    ∀ t : σ, k a ≤ (Unread.unread t).length → p.run (Input.feed b t) = .ok (a,t)

section
variable [Input β σ] {k : α → Nat} {p : Reader σ ε α}

theorem exactBefore_wrapError {f : ε → ε'} (exact : ExactBefore k p) : ExactBefore k (wrapError f p) := by
  intro s a s' done
  obtain ⟨b,same,reads⟩ := exact s a s' (wrapError_ok.mp done)
  exact ⟨b,same,fun t enough => wrapError_ok.mpr (reads t enough)⟩

/-- What follows takes as much as was looked at. -/
theorem exact_before {f : α → Reader σ ε γ} (first : ExactBefore k p) (second : ∀ a, Exact (f a))
    (takes : ∀ a, Consumes (k a) (f a)) : Exact (p >>= f) := by
  intro s r s'' done
  obtain ⟨a,s',ran,rest⟩ := bind_ok.mp done
  obtain ⟨b,rfl,reads⟩ := first s a s' ran
  obtain ⟨c,rfl,reads'⟩ := second a s' r s'' rest
  refine ⟨b ++ c,(Input.feed_append b c s'').symm,fun t => ?_⟩
  have enough := takes a _ r t (reads' t)
  rw [Input.feed_append,bind_ok]
  exact ⟨a,_,reads _ (by omega),reads' t⟩

end

theorem twin_pure (a : α) : Twin 0 (pure a : Reader σ ε α) (pure a : Reader τ ε' α) where
  same s t unread := by simp [unread]
  left s a s' done := by cases done; exact le_rfl
  right s a s' done := by cases done; exact le_rfl

theorem twin_throw {k : Nat} (e : ε) (e' : ε') : Twin k (throw e : Reader σ ε α) (throw e' : Reader τ ε' α) where
  same _ _ _ := rfl
  left s a s' done := by cases done
  right s a s' done := by cases done

section
variable {j k : Nat} {p : Reader σ ε α} {q : Reader τ ε' α}

theorem twin_mono (twin : Twin k p q) (less : j ≤ k) : Twin j p q :=
  ⟨twin.same,consumes_mono twin.left less,consumes_mono twin.right less⟩

/-- Readers with the outcomes of twins are twins. -/
theorem twin_congr {p' : Reader σ ε α} {q' : Reader τ ε' α} (left : ∀ s, outcome p' s = outcome p s)
    (right : ∀ t, outcome q' t = outcome q t) (twin : Twin k p q) : Twin k p' q' where
  same s t unread := by rw [left,right,twin.same s t unread]
  left := consumes_of_outcome left twin.left
  right := consumes_of_outcome right twin.right

theorem twin_any (twin : Twin k p q) : Twin 0 p q := twin_mono twin (Nat.zero_le k)

theorem twin_ite {c : Prop} [Decidable c] {p' : Reader σ ε α} {q' : Reader τ ε' α} (yes : Twin k p q)
    (no : Twin k p' q') : Twin k (if c then p else p') (if c then q else q') := by
  split_ifs
  · exact yes
  · exact no

theorem twin_bind {f : α → Reader σ ε γ} {g : α → Reader τ ε' γ} (first : Twin j p q)
    (second : ∀ a, Twin k (f a) (g a)) : Twin (j + k) (p >>= f) (q >>= g) where
  same s t unread := outcome_bind_rel (R := Eq) rfl (first.same s t unread) (fun a => (second a).same)
  left := consumes_bind first.left (fun a => (second a).left)
  right := consumes_bind first.right (fun a => (second a).right)

/-- What follows may take nothing. -/
theorem twin_after {f : α → Reader σ ε γ} {g : α → Reader τ ε' γ} (first : Twin k p q)
    (second : ∀ a, Twin 0 (f a) (g a)) : Twin k (p >>= f) (q >>= g) := twin_bind first second

theorem twin_map {f : α → γ} (twin : Twin k p q) :
    Twin k (p >>= fun a => pure (f a)) (q >>= fun a => pure (f a)) := twin_bind twin (fun a => twin_pure (f a))

theorem twin_wrapError {ε₁ ε₂ : Type} {f : ε → ε₁} {g : ε' → ε₂} (twin : Twin k p q) :
    Twin k (wrapError f p) (wrapError g q) where
  same s t unread := by
    rw [outcome_wrapError,outcome_wrapError]
    exact twin.same s t unread
  left s a s' done := twin.left s a s' (wrapError_ok.mp done)
  right s a s' done := twin.right s a s' (wrapError_ok.mp done)

/-- Readers that are one function of what is unread are twins. -/
theorem twin_of_outcome {f : List β → Option (α × List β)} (left : ∀ s, outcome p s = f (Unread.unread s))
    (right : ∀ t, outcome q t = f (Unread.unread t))
    (takes : ∀ b a rest, f b = some (a,rest) → rest.length + k ≤ b.length) : Twin k p q where
  same s t unread := by rw [left,right,unread]
  left s a s' done := takes _ a _ (left s ▸ outcome_of_ok done)
  right t a t' done := takes _ a _ (right t ▸ outcome_of_ok done)

theorem twin_iterate {step : α → Reader σ ε α} {step' : α → Reader τ ε' α} (twin : ∀ a, Twin k (step a) (step' a))
    (n : Nat) (a : α) : Twin (n * k) (iterate step n a) (iterate step' n a) := by
  induction n generalizing a with
  | zero =>
    rw [Nat.zero_mul]
    exact twin_pure a
  | succ n ih =>
    rw [Nat.succ_mul,Nat.add_comm]
    exact twin_bind (twin a) ih

end

/-! ### Counts that may be refused early

A reader may refuse a count of values, each of at least `w` items, for which there is
too little left. It then refuses earlier than one that does not know what is left.
-/

/-- The outcomes are the same, or too little is left for either count. -/
def SameCount (w : Nat) (x y : Option (Nat × List β)) : Prop :=
  x = y ∨ (∀ n rest, x = some (n,rest) → rest.length < n * w) ∧ ∀ n rest, y = some (n,rest) → rest.length < n * w

/-- The readers return the same, except for counts for which too little is left. -/
structure Counted (w k : Nat) (p : Reader σ ε Nat) (q : Reader τ ε' Nat) : Prop where
  same : ∀ s t, Unread.unread s = Unread.unread t → SameCount w (outcome p s) (outcome q t)
  left : Consumes k p
  right : Consumes k q

section
variable {w j k : Nat} {p : Reader σ ε Nat} {q : Reader τ ε' Nat}

theorem counted_of_twin (twin : Twin k p q) : Counted w k p q :=
  ⟨fun s t unread => .inl (twin.same s t unread),twin.left,twin.right⟩

theorem counted_wrapError {ε₁ ε₂ : Type} {f : ε → ε₁} {g : ε' → ε₂} (counted : Counted w k p q) :
    Counted w k (wrapError f p) (wrapError g q) where
  same s t unread := by
    simp only [outcome_wrapError]
    exact counted.same s t unread
  left s a s' done := counted.left s a s' (wrapError_ok.mp done)
  right s a s' done := counted.right s a s' (wrapError_ok.mp done)

theorem counted_bind {p : Reader σ ε α} {q : Reader τ ε' α} {f : α → Reader σ ε Nat} {g : α → Reader τ ε' Nat}
    (first : Twin j p q) (second : ∀ a, Counted w k (f a) (g a)) : Counted w (j + k) (p >>= f) (q >>= g) where
  same s t unread := outcome_bind_rel (R := SameCount w) (.inl rfl) (first.same s t unread) (fun a => (second a).same)
  left := consumes_bind first.left (fun a => (second a).left)
  right := consumes_bind first.right (fun a => (second a).right)

/-- What has to take more than is unread fails. -/
theorem outcome_bind_of_short {f : Nat → Reader σ ε α} {s : σ} (takes : ∀ n, Consumes (n * w) (f n))
    (short : ∀ n rest, outcome p s = some (n,rest) → rest.length < n * w) : outcome (p >>= f) s = none := by
  cases ran : p.run s with
  | error e => exact outcome_bind_of_error ran
  | ok r =>
    rw [outcome_bind_of_ok ran]
    exact outcome_of_consumes (takes r.1) (short _ _ (outcome_of_ok ran))

/-- The values that were counted make up for what was refused early. -/
theorem twin_counted {f : Nat → Reader σ ε α} {g : Nat → Reader τ ε' α} (counted : Counted w k p q)
    (twin : ∀ n, Twin (n * w) (f n) (g n)) : Twin k (p >>= f) (q >>= g) where
  same s t unread := by
    rcases counted.same s t unread with start | ⟨short,short'⟩
    · exact outcome_bind_rel (R := Eq) rfl start (fun n => (twin n).same)
    · rw [outcome_bind_of_short (fun n => (twin n).left) short,outcome_bind_of_short (fun n => (twin n).right) short']
  left := consumes_bind counted.left (fun n => consumes_mono (twin n).left (Nat.zero_le _))
  right := consumes_bind counted.right (fun n => consumes_mono (twin n).right (Nat.zero_le _))

end
end

/-- The low `n` bytes of a number, the highest first. -/
def bigEndian : Nat → Nat → List UInt8
  | 0,_ => []
  | n + 1,v => bigEndian n (v / 256) ++ [UInt8.ofNat v]

/-- The number that bytes stand for, the highest first. -/
def ofBigEndian (b : List UInt8) : Nat := b.foldl (fun v c => v * 256 + c.toNat) 0

@[simp] theorem length_bigEndian (n v : Nat) : (bigEndian n v).length = n := by
  induction n generalizing v with
  | zero => rfl
  | succ n ih => simp [bigEndian,ih]

theorem ofBigEndian_bigEndian (n v : Nat) : ofBigEndian (bigEndian n v) = v % 256 ^ n := by
  induction n generalizing v with
  | zero => simp [bigEndian,ofBigEndian,Nat.mod_one]
  | succ n ih =>
    have last : ofBigEndian (bigEndian (n + 1) v) = ofBigEndian (bigEndian n (v / 256)) * 256 + (UInt8.ofNat v).toNat := by
      simp [ofBigEndian,bigEndian,List.foldl_append]
    rw [last,ih,Nat.pow_succ',Nat.mod_mul,UInt8.toNat_ofNat',Nat.mul_comm (v / 256 % 256 ^ n),Nat.add_comm]

theorem ofBigEndian_of_lt {n v : Nat} (fits : v < 256 ^ n) : ofBigEndian (bigEndian n v) = v := by
  rw [ofBigEndian_bigEndian,Nat.mod_eq_of_lt fits]

end Mori.Readers
