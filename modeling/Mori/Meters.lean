import Mori.Readers

/-!
Metered readers: computations that keep the state and a meter when they fail, over any
state, any meter and any errors. `Erases m p` says that without its meter `m` is the
reader `p`. `Paid cost fee m` says that whatever `m` adds to the cost it takes off the
input, except for a fee where it fails, and `Ranges nested deepest k m` that it nests at
most `k` calls.
-/
namespace Mori.Meters
open Mori.Readers

/-- A reader that keeps its state, with a meter, when it fails. -/
abbrev Metered (σ ω ε α : Type) := ExceptT ε (StateM (σ × ω)) α

variable {β σ ω ε ε' α γ : Type}

/-- The result of a run, with the state and the meter that it leaves. -/
def exec (m : Metered σ ω ε α) (x : σ × ω) : Except ε α × σ × ω := (ExceptT.run m).run x

/-- The result of a reader; if it failed the state is kept. -/
def kept (x : σ × ω) : Except ε (α × σ) → Except ε α × σ × ω
  | .ok (a,s) => (.ok a,s,x.2)
  | .error e => (.error e,x)

/-- A reader that is not metered itself. What it has taken when it fails does not count
    as taken. -/
def leaf (p : Reader σ ε α) : Metered σ ω ε α := fun x => kept x (p.run x.1)

/-- A call: the meter changes when it starts, and once more when it ends. -/
def called (start : ω → ω) (finish : ω → ω → ω) (m : Metered σ ω ε α) : Metered σ ω ε α := fun x =>
  let y := exec m (x.1,start x.2)
  (y.1,y.2.1,finish x.2 y.2.2)

/-- `m` with its errors wrapped. -/
def rewrap (f : ε → ε') (m : Metered σ ω ε α) : Metered σ ω ε' α := fun x =>
  let y := exec m x
  (y.1.mapError f,y.2)

/-- A loop of `n` steps. -/
def repeated (step : α → Metered σ ω ε α) : Nat → α → Metered σ ω ε α
  | 0,a => pure a
  | n + 1,a => step a >>= repeated step n

/-- A result of the first part of a computation, followed by the rest. -/
def chain (f : α → Metered σ ω ε γ) : Except ε α × σ × ω → Except ε γ × σ × ω
  | (.ok a,y) => exec (f a) y
  | (.error e,y) => (.error e,y)

theorem exec_bind (m : Metered σ ω ε α) (f : α → Metered σ ω ε γ) (x : σ × ω) :
    exec (m >>= f) x = chain f (exec m x) := by
  change (ExceptT.bindCont f (exec m x).1).run (exec m x).2 = _
  rcases exec m x with ⟨_ | a,y⟩ <;> rfl

theorem exec_leaf (p : Reader σ ε α) (x : σ × ω) : exec (leaf p) x = kept x (p.run x.1) := rfl

theorem exec_called (start : ω → ω) (finish : ω → ω → ω) (m : Metered σ ω ε α) (x : σ × ω) :
    exec (called start finish m) x =
      ((exec m (x.1,start x.2)).1,(exec m (x.1,start x.2)).2.1,finish x.2 (exec m (x.1,start x.2)).2.2) := rfl

theorem exec_rewrap (f : ε → ε') (m : Metered σ ω ε α) (x : σ × ω) :
    exec (rewrap f m) x = ((exec m x).1.mapError f,(exec m x).2) := rfl

section
variable {m : Metered σ ω ε α} {p : Reader σ ε α} {x : σ × ω} {r : Except ε α} {y : σ × ω}

theorem bind_did {f : α → Metered σ ω ε γ} {r : Except ε γ} (ran : exec (m >>= f) x = (r,y)) :
    (∃ e, exec m x = (.error e,y) ∧ r = .error e) ∨ ∃ a z, exec m x = (.ok a,z) ∧ exec (f a) z = (r,y) := by
  rw [exec_bind] at ran
  rcases did : exec m x with ⟨e | a,z⟩
  · rw [did] at ran
    cases ran
    exact .inl ⟨e,rfl,rfl⟩
  · rw [did] at ran
    exact .inr ⟨a,z,rfl,ran⟩

theorem leaf_did (ran : exec (leaf p : Metered σ ω ε α) x = (r,y)) :
    (∃ a s, p.run x.1 = .ok (a,s) ∧ r = .ok a ∧ y = (s,x.2)) ∨ ∃ e, p.run x.1 = .error e ∧ r = .error e ∧ y = x := by
  rw [exec_leaf] at ran
  cases did : p.run x.1 with
  | error e =>
    rw [did] at ran
    cases ran
    exact .inr ⟨e,rfl,rfl,rfl⟩
  | ok q =>
    rw [did] at ran
    cases ran
    exact .inl ⟨q.1,q.2,rfl,rfl,rfl⟩

theorem called_did {start : ω → ω} {finish : ω → ω → ω} (ran : exec (called start finish m) x = (r,y)) :
    ∃ w, exec m (x.1,start x.2) = (r,y.1,w) ∧ y.2 = finish x.2 w := by
  rw [exec_called] at ran
  cases ran
  exact ⟨_,rfl,rfl⟩

theorem rewrap_did {f : ε → ε'} {r : Except ε' α} (ran : exec (rewrap f m) x = (r,y)) :
    ∃ r', exec m x = (r',y) ∧ r = r'.mapError f := by
  rw [exec_rewrap] at ran
  cases ran
  exact ⟨_,rfl,rfl⟩

end

/-- A result without its meter. -/
def erase : Except ε α × σ × ω → Except ε (α × σ)
  | (.ok a,s,_) => .ok (a,s)
  | (.error e,_) => .error e

/-- Without its meter the computation is a reader. -/
def Erases (m : Metered σ ω ε α) (p : Reader σ ε α) : Prop := ∀ x, p.run x.1 = erase (exec m x)

section
variable {m : Metered σ ω ε α} {p : Reader σ ε α}

theorem erases_pure (a : α) : Erases (pure a : Metered σ ω ε α) (pure a) := fun _ => rfl

theorem erases_throw (e : ε) : Erases (throw e : Metered σ ω ε α) (throw e) := fun _ => rfl

theorem erases_leaf (p : Reader σ ε α) : Erases (leaf p : Metered σ ω ε α) p := by
  intro x
  rw [exec_leaf]
  cases p.run x.1 <;> rfl

theorem erases_bind {f : α → Metered σ ω ε γ} {g : α → Reader σ ε γ} (head : Erases m p)
    (rest : ∀ a, Erases (f a) (g a)) : Erases (m >>= f) (p >>= g) := by
  intro x
  rw [StateT.run_bind,head x,exec_bind]
  rcases exec m x with ⟨e | a,s,w⟩
  · rfl
  · exact rest a (s,w)

theorem erases_ite {c : Prop} [Decidable c] {m' : Metered σ ω ε α} {p' : Reader σ ε α} (yes : Erases m p)
    (no : Erases m' p') : Erases (if c then m else m') (if c then p else p') := by
  split_ifs
  · exact yes
  · exact no

theorem erases_called {start : ω → ω} {finish : ω → ω → ω} (erases : Erases m p) : Erases (called start finish m) p := by
  intro x
  rw [erases (x.1,start x.2),exec_called]
  rcases exec m (x.1,start x.2) with ⟨_ | a,s,w⟩ <;> rfl

theorem erases_rewrap {f : ε → ε'} (erases : Erases m p) : Erases (rewrap f m) (wrapError f p) := by
  intro x
  change (p.run x.1).mapError f = _
  rw [erases x,exec_rewrap]
  rcases exec m x with ⟨_ | a,s,w⟩ <;> rfl

theorem erases_repeated {step : α → Metered σ ω ε α} {step' : α → Reader σ ε α}
    (erases : ∀ a, Erases (step a) (step' a)) (n : Nat) (a : α) : Erases (repeated step n a) (iterate step' n a) := by
  induction n generalizing a with
  | zero => exact erases_pure a
  | succ n ih => exact erases_bind (erases a) ih

end

/-- The fee of a failure. -/
def feeOf (fee : Nat) : Except ε α → Nat
  | .ok _ => 0
  | .error _ => fee

/-- How much is left to read. -/
def left [Unread β σ] (s : σ) : Nat := (Unread.unread s).length

/-- The cost grows by no more than what is taken off the input, and a fee for a failure. -/
def Paid [Unread β σ] (cost : ω → Nat) (fee : Nat) (m : Metered σ ω ε α) : Prop :=
  ∀ x r y, exec m x = (r,y) → left y.1 ≤ left x.1 ∧ cost y.2 + left y.1 ≤ cost x.2 + left x.1 + feeOf fee r

section
variable [Unread β σ] {cost : ω → Nat} {fee : Nat} {m : Metered σ ω ε α} {p : Reader σ ε α}

theorem paid_pure (a : α) : Paid cost fee (pure a : Metered σ ω ε α) := by
  intro x r y ran
  cases ran
  exact ⟨Nat.le_refl _,Nat.le_refl _⟩

theorem paid_throw (e : ε) : Paid cost fee (throw e : Metered σ ω ε α) := by
  intro x r y ran
  cases ran
  exact ⟨Nat.le_refl _,Nat.le_add_right _ _⟩

theorem paid_bind {f : α → Metered σ ω ε γ} (head : Paid cost fee m) (rest : ∀ a, Paid cost fee (f a)) :
    Paid cost fee (m >>= f) := by
  intro x r y ran
  rcases bind_did ran with ⟨e,did,rfl⟩ | ⟨a,z,did,did'⟩
  · exact head x (.error e) y did
  · obtain ⟨less,within⟩ := head x (.ok a) z did
    obtain ⟨less',within'⟩ := rest a z r y did'
    simp only [feeOf] at within
    exact ⟨by omega,by omega⟩

theorem paid_ite {c : Prop} [Decidable c] {m' : Metered σ ω ε α} (yes : Paid cost fee m) (no : Paid cost fee m') :
    Paid cost fee (if c then m else m') := by
  split_ifs
  · exact yes
  · exact no

theorem paid_rewrap {f : ε → ε'} (paid : Paid cost fee m) : Paid cost fee (rewrap f m) := by
  intro x r y ran
  obtain ⟨r',did,rfl⟩ := rewrap_did ran
  have same : feeOf fee (r'.mapError f) = feeOf fee r' := by cases r' <;> rfl
  rw [same]
  exact paid x r' y did

theorem paid_repeated {step : α → Metered σ ω ε α} (paid : ∀ a, Paid cost fee (step a)) (n : Nat) (a : α) :
    Paid cost fee (repeated step n a) := by
  induction n generalizing a with
  | zero => exact paid_pure a
  | succ n ih => exact paid_bind (paid a) ih

theorem paid_leaf (takes : Consumes 0 p) : Paid cost fee (leaf p : Metered σ ω ε α) := by
  intro x r y ran
  rcases leaf_did ran with ⟨a,s,did,rfl,rfl⟩ | ⟨e,-,rfl,rfl⟩
  · have less : left s ≤ left x.1 := takes x.1 a s did
    exact ⟨less,by simp only [feeOf]; omega⟩
  · exact ⟨Nat.le_refl _,Nat.le_add_right _ _⟩

/-- What a whole run costs. -/
theorem paid_run (paid : Paid cost fee m) (x : σ × ω) :
    left (exec m x).2.1 ≤ left x.1 ∧ cost (exec m x).2.2 ≤ cost x.2 + (left x.1 - left (exec m x).2.1) + fee := by
  obtain ⟨less,within⟩ := paid x (exec m x).1 (exec m x).2 rfl
  have most : feeOf fee (exec m x).1 ≤ fee := by
    cases (exec m x).1 with
    | ok a => exact Nat.zero_le fee
    | error e => exact Nat.le_refl fee
  exact ⟨less,by omega⟩

end

/-- Like `Paid`, with a fee paid ahead, which is kept where the computation fails. -/
def Ahead [Unread β σ] (cost : ω → Nat) (fee : Nat) (m : Metered σ ω ε α) : Prop :=
  ∀ x r y, exec m x = (r,y) → left y.1 ≤ left x.1 ∧ cost y.2 + left y.1 + fee ≤ cost x.2 + left x.1 + feeOf fee r

section
variable [Unread β σ] {cost : ω → Nat} {fee : Nat} {m : Metered σ ω ε α} {p : Reader σ ε α}

theorem ahead_throw (e : ε) : Ahead cost fee (throw e : Metered σ ω ε α) := by
  intro x r y ran
  cases ran
  exact ⟨Nat.le_refl _,Nat.le_refl _⟩

theorem ahead_leaf (takes : Consumes fee p) : Ahead cost fee (leaf p : Metered σ ω ε α) := by
  intro x r y ran
  rcases leaf_did ran with ⟨a,s,did,rfl,rfl⟩ | ⟨e,-,rfl,rfl⟩
  · have less : left s + fee ≤ left x.1 := takes x.1 a s did
    exact ⟨by dsimp only; omega,by simp only [feeOf]; omega⟩
  · exact ⟨Nat.le_refl _,Nat.le_refl _⟩

theorem ahead_bind {f : α → Metered σ ω ε γ} (head : Ahead cost fee m) (rest : ∀ a, Paid cost fee (f a)) :
    Ahead cost fee (m >>= f) := by
  intro x r y ran
  rcases bind_did ran with ⟨e,did,rfl⟩ | ⟨a,z,did,did'⟩
  · exact head x (.error e) y did
  · obtain ⟨less,within⟩ := head x (.ok a) z did
    obtain ⟨less',within'⟩ := rest a z r y did'
    simp only [feeOf] at within
    exact ⟨by omega,by omega⟩

/-- A call that costs no more than what is paid ahead. -/
theorem paid_called {start : ω → ω} {finish : ω → ω → ω} (ahead : Ahead cost fee m)
    (started : ∀ w, cost (start w) ≤ cost w + fee) (finished : ∀ w w', cost (finish w w') = cost w') :
    Paid cost fee (called start finish m) := by
  intro x r y ran
  obtain ⟨w,did,same⟩ := called_did ran
  obtain ⟨less,within⟩ := ahead _ r _ did
  have charged := started x.2
  rw [same,finished]
  dsimp only at less within
  exact ⟨less,by omega⟩

/-- A call that costs more than its reader takes only where the computation fails next. -/
theorem paid_called_bind {start : ω → ω} {finish : ω → ω → ω} {f : α → Metered σ ω ε γ}
    (started : ∀ w, cost (start w) ≤ cost w + fee) (finished : ∀ w w', cost (finish w w') = cost w')
    (takes : ∀ s a s', p.run s = .ok (a,s') → left s' ≤ left s ∧ (left s' + fee ≤ left s ∨ ∃ e, f a = throw e))
    (rest : ∀ a, Paid cost fee (f a)) : Paid cost fee (called start finish (leaf p) >>= f) := by
  intro x r y ran
  have charged := started x.2
  rcases bind_did ran with ⟨e,failed,rfl⟩ | ⟨a,z,done,did⟩
  · obtain ⟨w,failed,same⟩ := called_did failed
    rcases leaf_did failed with ⟨_,_,_,wrong,-⟩ | ⟨_,_,_,here⟩
    · cases wrong
    · obtain ⟨stays,rfl⟩ := Prod.mk.inj here
      rw [same,finished,stays]
      exact ⟨Nat.le_refl _,by simp only [feeOf]; omega⟩
  · obtain ⟨w,done,same⟩ := called_did done
    rcases leaf_did done with ⟨a',s,read,returned,here⟩ | ⟨_,_,wrong,-⟩
    · cases returned
      obtain ⟨moved,rfl⟩ := Prod.mk.inj here
      obtain ⟨less,enough⟩ := takes x.1 a s read
      have cost' : cost z.2 = cost (start x.2) := by rw [same,finished]
      rcases enough with enough | ⟨e,failing⟩
      · obtain ⟨less',within⟩ := rest a z r y did
        rw [moved,cost'] at within
        rw [moved] at less'
        exact ⟨by omega,by omega⟩
      · rw [failing] at did
        cases did
        rw [moved,cost']
        exact ⟨less,by simp only [feeOf]; omega⟩
    · cases wrong

end

/-- At most `k` calls are nested, and all that start end. -/
def Ranges (nested deepest : ω → Nat) (k : Nat) (m : Metered σ ω ε α) : Prop :=
  ∀ x r y, exec m x = (r,y) → nested y.2 = nested x.2 ∧ deepest y.2 ≤ max (deepest x.2) (nested x.2 + k)

section
variable {nested deepest : ω → Nat} {k : Nat} {m : Metered σ ω ε α}

theorem ranges_pure (a : α) : Ranges nested deepest k (pure a : Metered σ ω ε α) := by
  intro x r y ran
  cases ran
  exact ⟨rfl,Nat.le_max_left _ _⟩

theorem ranges_throw (e : ε) : Ranges nested deepest k (throw e : Metered σ ω ε α) := by
  intro x r y ran
  cases ran
  exact ⟨rfl,Nat.le_max_left _ _⟩

theorem ranges_leaf (p : Reader σ ε α) : Ranges nested deepest k (leaf p : Metered σ ω ε α) := by
  intro x r y ran
  rcases leaf_did ran with ⟨_,_,_,_,rfl⟩ | ⟨_,_,_,rfl⟩ <;> exact ⟨rfl,Nat.le_max_left _ _⟩

theorem ranges_bind {f : α → Metered σ ω ε γ} (head : Ranges nested deepest k m)
    (rest : ∀ a, Ranges nested deepest k (f a)) : Ranges nested deepest k (m >>= f) := by
  intro x r y ran
  rcases bind_did ran with ⟨e,did,rfl⟩ | ⟨a,z,did,did'⟩
  · exact head x (.error e) y did
  · obtain ⟨same,deep⟩ := head x (.ok a) z did
    obtain ⟨same',deep'⟩ := rest a z r y did'
    exact ⟨by omega,by omega⟩

theorem ranges_ite {c : Prop} [Decidable c] {m' : Metered σ ω ε α} (yes : Ranges nested deepest k m)
    (no : Ranges nested deepest k m') : Ranges nested deepest k (if c then m else m') := by
  split_ifs
  · exact yes
  · exact no

theorem ranges_rewrap {f : ε → ε'} (ranges : Ranges nested deepest k m) : Ranges nested deepest k (rewrap f m) := by
  intro x r y ran
  obtain ⟨r',did,-⟩ := rewrap_did ran
  exact ranges x r' y did

theorem ranges_repeated {step : α → Metered σ ω ε α} (ranges : ∀ a, Ranges nested deepest k (step a)) (n : Nat) (a : α) :
    Ranges nested deepest k (repeated step n a) := by
  induction n generalizing a with
  | zero => exact ranges_pure a
  | succ n ih => exact ranges_bind (ranges a) ih

/-- A call of which the meter keeps only that it was made. -/
theorem ranges_called {start : ω → ω} {finish : ω → ω → ω} {j : Nat} (ranges : Ranges nested deepest k m)
    (inside : ∀ w, nested (start w) = nested w + j ∧ deepest (start w) ≤ max (deepest w) (nested w + (k + j)))
    (finished : ∀ w w', nested w' = nested (start w) → nested (finish w w') = nested w ∧ deepest (finish w w') = deepest w') :
    Ranges nested deepest (k + j) (called start finish m) := by
  intro x r y ran
  obtain ⟨w,did,same⟩ := called_did ran
  obtain ⟨kept,deep⟩ := ranges _ r _ did
  obtain ⟨back,deepest'⟩ := finished x.2 w kept
  obtain ⟨more,most⟩ := inside x.2
  dsimp only at deep
  rw [same]
  exact ⟨back,by omega⟩

theorem ranges_run (ranges : Ranges nested deepest k m) (x : σ × ω) :
    deepest (exec m x).2.2 ≤ max (deepest x.2) (nested x.2 + k) := (ranges x (exec m x).1 (exec m x).2 rfl).2

end

/-- Whatever holds of the meter holds after the computation too. -/
def Keeps (I : ω → Prop) (m : Metered σ ω ε α) : Prop := ∀ x r y, exec m x = (r,y) → I x.2 → I y.2

/-- An entry in the meter. -/
def noted (f : ω → ω) : Metered σ ω ε Unit := called f (fun _ w => w) (pure ())

section
variable {I : ω → Prop} {m : Metered σ ω ε α}

theorem keeps_pure (a : α) : Keeps I (pure a : Metered σ ω ε α) := by
  intro x r y ran holds
  cases ran
  exact holds

theorem keeps_throw (e : ε) : Keeps I (throw e : Metered σ ω ε α) := by
  intro x r y ran holds
  cases ran
  exact holds

theorem keeps_leaf (p : Reader σ ε α) : Keeps I (leaf p : Metered σ ω ε α) := by
  intro x r y ran holds
  rcases leaf_did ran with ⟨_,_,_,_,rfl⟩ | ⟨_,_,_,rfl⟩ <;> exact holds

theorem keeps_noted {f : ω → ω} (kept : ∀ w, I w → I (f w)) : Keeps I (noted f : Metered σ ω ε Unit) := by
  intro x r y ran holds
  cases ran
  exact kept x.2 holds

theorem keeps_bind {f : α → Metered σ ω ε γ} (head : Keeps I m) (rest : ∀ a, Keeps I (f a)) : Keeps I (m >>= f) := by
  intro x r y ran holds
  rcases bind_did ran with ⟨e,did,rfl⟩ | ⟨a,z,did,did'⟩
  · exact head x (.error e) y did holds
  · exact rest a z r y did' (head x (.ok a) z did holds)

theorem keeps_ite {c : Prop} [Decidable c] {m' : Metered σ ω ε α} (yes : Keeps I m) (no : Keeps I m') :
    Keeps I (if c then m else m') := by
  split_ifs
  · exact yes
  · exact no

theorem keeps_run (keeps : Keeps I m) (x : σ × ω) (holds : I x.2) : I (exec m x).2.2 :=
  keeps x (exec m x).1 (exec m x).2 rfl holds

theorem erases_noted {p : Reader σ ε α} {f : ω → ω} (erases : Erases m p) : Erases (noted f >>= fun _ => m) p :=
  erases_bind (p := pure ()) (erases_called (erases_pure ())) (fun _ => erases)

end

end Mori.Meters
