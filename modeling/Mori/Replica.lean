import Mathlib.Computability.Language
import Mathlib.Logic.Function.Basic

/-!
A table kept by replaying a log of changes. For each key a well-formed log is a
sequence of episodes, each a join, some updates and a leave, of which the last
may still run. `Mirrors` relates the log at a key to what the table that it
reports on holds there; there is one rule for each change to that table.
-/
namespace Mori.Replica
open Computability
variable {K V S : Type} [DecidableEq K]

/-- A change of the value under a key. -/
inductive Change (V : Type) where
  | join (value : V)
  | update (value : V)
  | leave

inductive Kind where
  | join
  | update
  | leave
deriving DecidableEq

def Change.kind : Change V → Kind
  | .join _ => .join
  | .update _ => .update
  | .leave => .leave

/-- The value under the key after the change. -/
def Change.value : Change V → Option V
  | .join value => some value
  | .update value => some value
  | .leave => none

/-- The table that a log describes. -/
def replay (log : List (K × Change V)) : K → Option V :=
  log.foldl (fun table change => Function.update table change.1 change.2.value) (fun _ => none)

/-- The kinds of the changes at a key, in order. -/
def word (log : List (K × Change V)) (k : K) : List Kind :=
  (log.filter (fun change => change.1 = k)).map (fun change => change.2.kind)

/-- A join, some updates and a leave. -/
def episode : Language Kind := {[.join]} * {[.update]}∗ * {[.leave]}

/-- Episodes of which the last one has not ended. -/
def running : Language Kind := episode∗ * ({[.join]} * {[.update]}∗)

theorem kstar_snoc {L : Language Kind} {past last : List Kind} (first : past ∈ L∗) (next : last ∈ L) :
    past ++ last ∈ L∗ :=
  Set.mem_of_mem_of_subset (Language.append_mem_mul first next) (kstar_mul_le_kstar (a := L))

theorem join_running {w : List Kind} (ended : w ∈ episode∗) : w ++ [.join] ∈ running := by
  refine Language.append_mem_mul ended ?_
  have : ([.join] : List Kind) ++ [] ∈ ({[.join]} * {[.update]}∗ : Language Kind) :=
    Language.append_mem_mul rfl (Language.nil_mem_kstar _)
  simpa using this

theorem update_running {w : List Kind} (runs : w ∈ running) : w ++ [.update] ∈ running := by
  obtain ⟨past,ended,rest,⟨join,joined,updates,updated,rfl⟩,rfl⟩ := Language.mem_mul.mp runs
  have more : updates ++ [.update] ∈ ({[.update]}∗ : Language Kind) := kstar_snoc updated rfl
  have := Language.append_mem_mul ended (Language.append_mem_mul joined more)
  simpa [running] using this

theorem leave_ended {w : List Kind} (runs : w ∈ running) : w ++ [.leave] ∈ episode∗ := by
  obtain ⟨past,ended,rest,started,rfl⟩ := Language.mem_mul.mp runs
  have whole : rest ++ [.leave] ∈ episode := Language.append_mem_mul started rfl
  rw [List.append_assoc]
  exact kstar_snoc ended whole

/-- What the log says of a key when the table it reports on holds `held` there.
    `R` relates a reported value to a held one. -/
def Mirrors (R : V → S → Prop) (log : List (K × Change V)) (k : K) (held : Option S) : Prop :=
  match held with
  | none => replay log k = none ∧ word log k ∈ episode∗
  | some s => ∃ value, replay log k = some value ∧ R value s ∧ word log k ∈ running

theorem replay_append (log : List (K × Change V)) (change : K × Change V) :
    replay (log ++ [change]) = Function.update (replay log) change.1 change.2.value :=
  List.foldl_append

section
variable {R : V → S → Prop} {log : List (K × Change V)} {k : K}

theorem mirrors_nil : Mirrors R ([] : List (K × Change V)) k none := ⟨rfl,Language.nil_mem_kstar _⟩

/-- A change at another key. -/
theorem mirrors_other {held : Option S} {change : K × Change V} (mirrors : Mirrors R log k held)
    (other : k ≠ change.1) : Mirrors R (log ++ [change]) k held := by
  have words : word (log ++ [change]) k = word log k := by
    simp [word,List.filter_append,Ne.symm other]
  unfold Mirrors at *
  rw [replay_append,Function.update_of_ne other,words]
  exact mirrors

theorem word_snoc (change : Change V) : word (log ++ [(k,change)]) k = word log k ++ [change.kind] := by
  simp [word,List.filter_append]

theorem mirrors_join {value : V} {s : S} (mirrors : Mirrors R log k none) (related : R value s) :
    Mirrors R (log ++ [(k,.join value)]) k (some s) := by
  refine ⟨value,?_,related,?_⟩
  · rw [replay_append,Function.update_self]; rfl
  · rw [word_snoc]; exact join_running mirrors.2

theorem mirrors_update {value : V} {s s' : S} (mirrors : Mirrors R log k (some s)) (related : R value s') :
    Mirrors R (log ++ [(k,.update value)]) k (some s') := by
  obtain ⟨-,-,-,runs⟩ := mirrors
  refine ⟨value,?_,related,?_⟩
  · rw [replay_append,Function.update_self]; rfl
  · rw [word_snoc]; exact update_running runs

theorem mirrors_leave {s : S} (mirrors : Mirrors R log k (some s)) : Mirrors R (log ++ [(k,.leave)]) k none := by
  obtain ⟨-,-,-,runs⟩ := mirrors
  refine ⟨?_,?_⟩
  · rw [replay_append,Function.update_self]; rfl
  · rw [word_snoc]; exact leave_ended runs

/-- A change of the held value that needs no report. -/
theorem mirrors_silent {s s' : S} (mirrors : Mirrors R log k (some s)) (related : ∀ value, R value s → R value s') :
    Mirrors R log k (some s') := by
  obtain ⟨value,replayed,old,runs⟩ := mirrors
  exact ⟨value,replayed,related value old,runs⟩

theorem mirrors_word {held : Option S} (mirrors : Mirrors R log k held) :
    word log k ∈ episode∗ ∨ word log k ++ [.leave] ∈ episode∗ := by
  cases held with
  | none => exact .inl mirrors.2
  | some s =>
    obtain ⟨-,-,-,runs⟩ := mirrors
    exact .inr (leave_ended runs)

end

end Mori.Replica
