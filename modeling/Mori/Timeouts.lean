import Mathlib.Analysis.SpecialFunctions.Log.Basic
import Mori.Confirmations
import Mori.Queue

/-!
How long a suspicion lasts (`suspicion.go`). The logarithms and the seconds are real numbers
here; durations are machine words. Each confirmation shortens the timeout, down to the minimum
when as many came as are expected, and the instant at which the timer is due moves with it,
never later. Beyond that number of confirmations, which `Confirm` does not count, the
milliseconds may leave the range of a duration.
-/
namespace Mori.Timeouts
open Mori.Net Mori.State Mori.Confirmations
open Mori.Queue (int64 int64_of_fits)

noncomputable def seconds (d : Duration) : ℝ := d / 1000000000

def millisecond : Duration := 1000000

noncomputable def frac (n k : Int) : ℝ := Real.log (n + 1) / Real.log (k + 1)

noncomputable def raw (n k : Int) (min max : Duration) : ℝ := seconds max - frac n k * (seconds max - seconds min)

/-- The timeout in whole milliseconds, before it is a duration. -/
noncomputable def unclamped (n k : Int) (min max : Duration) : Int := ⌊1000 * raw n k min max⌋ * millisecond

noncomputable def clamped (n k : Int) (min max : Duration) : Duration :=
  let timeout := int64 (unclamped n k min max)
  if timeout < min then min else timeout

noncomputable def remainingSuspicionTime (n k : Int) (elapsed min max : Duration) : Duration :=
  int64 (clamped n k min max - elapsed)

/-- A suspicion with its clock: `due` is when the timer is due or, if `Confirm` started the callback itself,
    when it did, and `last` when the last confirmation was counted. -/
structure Clocked where
  suspicion : Suspicion
  min : Duration
  max : Duration
  start : Time
  due : Time
  armed : Bool := true
  last : Time

/-- `newSuspicion` at an instant. -/
def newClocked (node : Bytes) (changeTime : Time) (from_ : Bytes) (k : Int) (min max : Duration) (now : Time) : Clocked where
  suspicion := newSuspicion node changeTime from_ k
  min := min
  max := max
  start := now
  due := now + (if k < 1 then min else max)
  last := now

/-- `Confirm` at an instant. -/
noncomputable def confirmAt (s : Clocked) (call : Bytes × Time) : Clocked :=
  let confirmed := s.suspicion.confirm call.1
  if confirmed.2 then
    let remaining := remainingSuspicionTime confirmed.1.n confirmed.1.k (sub call.2 s.start) s.min s.max
    let s := { s with suspicion := confirmed.1, last := call.2 }
    if s.armed then
      if 0 < remaining then { s with due := call.2 + remaining } else { s with due := call.2, armed := false }
    else s
  else s

/-- A call at an instant is a call whose operations nothing comes between, with the time that remains there. -/
theorem confirmAt_run (s : Clocked) (call : Bytes × Time) (t : Timed) (idle : t.pc = .idle) (same : t.suspicion = s.suspicion)
    (armed : t.armed = s.armed) :
    let remaining := remainingSuspicionTime (s.suspicion.n + 1) s.suspicion.k (sub call.2 s.start) s.min s.max
    let after := Machines.run step t [.confirm call.1,.add,.stop remaining,.rearm]
    after.pc = .idle ∧ after.suspicion = (confirmAt s call).suspicion ∧ after.armed = (confirmAt s call).armed := by
  obtain ⟨suspicion,armed',pending,ran,pc,returned⟩ := t
  dsimp only at idle same armed
  subst idle same armed
  rw [confirmAt,Suspicion.confirm]
  by_cases enough : s.suspicion.k ≤ s.suspicion.n
  · simp [Machines.run,step,Timed.returns,enough]
  by_cases known : call.1 ∈ s.suspicion.confirmations
  · simp [Machines.run,step,Timed.returns,enough,known]
  cases s.armed with
  | false => simp [Machines.run,step,Timed.returns,enough,known]
  | true =>
    by_cases positive : 0 < remainingSuspicionTime (s.suspicion.n + 1) s.suspicion.k (sub call.2 s.start) s.min s.max
    · simp [Machines.run,step,Timed.returns,enough,known,positive]
    · simp [Machines.run,step,Timed.returns,enough,known,positive]

/-- The parameters of a suspicion that expects confirmations. -/
structure Params (k : Int) (min max : Duration) : Prop where
  expects : 1 ≤ k
  low : 0 ≤ min
  ordered : min ≤ max
  word : max ≤ maxDuration

section
variable {n n' k : Int} {min max : Duration}

theorem log_pos (params : Params k min max) : 0 < Real.log (k + 1) := by
  have one : (1 : ℝ) ≤ k := by exact_mod_cast params.expects
  exact Real.log_pos (by linarith)

theorem frac_mono (params : Params k min max) (low : 0 ≤ n) (more : n ≤ n') : frac n k ≤ frac n' k := by
  have positive : (0 : ℝ) ≤ n := by exact_mod_cast low
  have larger : (n : ℝ) ≤ n' := by exact_mod_cast more
  exact div_le_div_of_nonneg_right (Real.log_le_log (by linarith) (by linarith)) (log_pos params).le

theorem frac_zero (k : Int) : frac 0 k = 0 := by
  simp [frac]

theorem frac_self (params : Params k min max) : frac k k = 1 := div_self (log_pos params).ne'

theorem seconds_le (params : Params k min max) : seconds min ≤ seconds max := by
  have ordered : (min : ℝ) ≤ max := by exact_mod_cast params.ordered
  rw [seconds,seconds]
  linarith

theorem raw_anti (params : Params k min max) (low : 0 ≤ n) (more : n ≤ n') : raw n' k min max ≤ raw n k min max := by
  have grows := mul_le_mul_of_nonneg_right (frac_mono params low more) (sub_nonneg.mpr (seconds_le params))
  rw [raw,raw]
  linarith

theorem raw_zero (k : Int) (min max : Duration) : raw 0 k min max = seconds max := by
  rw [raw,frac_zero]
  ring

theorem raw_self (params : Params k min max) : raw k k min max = seconds min := by
  rw [raw,frac_self params]
  ring

/-- Whole milliseconds are no more than the time they are taken of. -/
theorem unclamped_le {d : Duration} (most : raw n k min max ≤ seconds d) : unclamped n k min max ≤ d := by
  have floor := Int.floor_le (1000 * raw n k min max)
  rw [seconds] at most
  have cast : ((⌊1000 * raw n k min max⌋ * millisecond : Int) : ℝ) ≤ d := by
    push_cast [millisecond]
    linarith
  exact_mod_cast cast

theorem unclamped_anti (params : Params k min max) (low : 0 ≤ n) (more : n ≤ n') :
    unclamped n' k min max ≤ unclamped n k min max := by
  have less := raw_anti params low more
  have floor : ⌊1000 * raw n' k min max⌋ ≤ ⌊1000 * raw n k min max⌋ := Int.floor_mono (by linarith)
  exact Int.mul_le_mul_of_nonneg_right floor (by decide)

theorem unclamped_le_max (params : Params k min max) (low : 0 ≤ n) : unclamped n k min max ≤ max :=
  unclamped_le (raw_zero k min max ▸ raw_anti params le_rfl low)

theorem unclamped_le_min (params : Params k min max) (enough : k ≤ n) : unclamped n k min max ≤ min :=
  unclamped_le (raw_self params ▸ raw_anti params (by have := params.expects; omega) enough)

/-- The timeout before it is clamped is a duration. -/
def Fits (n k : Int) (min max : Duration) : Prop := minDuration ≤ unclamped n k min max

theorem fits_of_le (params : Params k min max) (low : 0 ≤ n) (counted : n ≤ k) : Fits n k min max := by
  have least := raw_anti params low counted
  rw [raw_self params] at least
  have positive : 0 ≤ seconds min := by
    have low : (0 : ℝ) ≤ min := by exact_mod_cast params.low
    rw [seconds]
    linarith
  have floor : 0 ≤ ⌊1000 * raw n k min max⌋ := Int.floor_nonneg.mpr (by linarith)
  have whole : 0 ≤ unclamped n k min max := Int.mul_nonneg floor (by decide)
  exact le_trans (by decide) whole

/-- The timeout is the larger of the minimum and the whole milliseconds. -/
theorem clamped_eq (params : Params k min max) (low : 0 ≤ n) (fits : Fits n k min max) :
    clamped n k min max = if unclamped n k min max < min then min else unclamped n k min max := by
  rw [clamped,int64_of_fits fits ((unclamped_le_max params low).trans params.word)]

theorem clamped_ge (params : Params k min max) (low : 0 ≤ n) (fits : Fits n k min max) : min ≤ clamped n k min max := by
  rw [clamped_eq params low fits]
  split_ifs with less
  · exact le_rfl
  · exact not_lt.mp less

theorem clamped_le (params : Params k min max) (low : 0 ≤ n) (fits : Fits n k min max) : clamped n k min max ≤ max := by
  rw [clamped_eq params low fits]
  split_ifs
  · exact params.ordered
  · exact unclamped_le_max params low

theorem fits_anti (params : Params k min max) (low : 0 ≤ n) (more : n ≤ n') (fits : Fits n' k min max) : Fits n k min max :=
  le_trans fits (unclamped_anti params low more)

theorem clamped_anti (params : Params k min max) (low : 0 ≤ n) (more : n ≤ n') (fits : Fits n' k min max) :
    clamped n' k min max ≤ clamped n k min max := by
  have less := unclamped_anti params low more
  rw [clamped_eq params low (fits_anti params low more fits),clamped_eq params (low.trans more) fits]
  split_ifs with short shorter
  · exact le_rfl
  · exact not_lt.mp shorter
  · exact absurd (less.trans_lt (by assumption)) short
  · exact less

theorem clamped_enough (params : Params k min max) (enough : k ≤ n) (fits : Fits n k min max) : clamped n k min max = min := by
  have least := unclamped_le_min params enough
  rw [clamped_eq params (by have := params.expects; omega) fits]
  split_ifs with less
  · rfl
  · exact le_antisymm least (not_lt.mp less)

/-- With the time that has passed, what remains is the timeout. -/
theorem remaining_total (params : Params k min max) (low : 0 ≤ n) (fits : Fits n k min max) (elapsed : Duration) :
    int64 (remainingSuspicionTime n k elapsed min max + elapsed) = clamped n k min max := by
  have least := clamped_ge params low fits
  have most := clamped_le params low fits
  rw [remainingSuspicionTime,int64,int64,Int.bmod_add_bmod,Int.sub_add_cancel]
  exact int64_of_fits (le_trans (by decide) (params.low.trans least)) (most.trans params.word)

end

/-- A call that is made before the timer fires. -/
def BeforeDue (s : Clocked) (call : Bytes × Time) : Prop := s.armed = true ∧ s.start ≤ call.2 ∧ call.2 ≤ s.due

/-- The timeout after `n` confirmations, seen from the start. -/
noncomputable def Clocked.limit (s : Clocked) (n : Int) : Time := s.start + clamped n s.suspicion.k s.min s.max

/-- The timer is due at the limit; a callback that was started directly was so by a confirmation that
    came no earlier. -/
structure Due (s : Clocked) : Prop where
  params : Params s.suspicion.k s.min s.max
  low : 0 ≤ s.suspicion.n
  counted : s.suspicion.n ≤ s.suspicion.k
  waits : s.armed = true → s.suspicion.n = 0 ∧ s.due = s.start + s.max ∨
    1 ≤ s.suspicion.n ∧ s.due = s.limit s.suspicion.n ∧ s.last < s.due
  ended : s.armed = false → 1 ≤ s.suspicion.n ∧ s.due = s.last ∧ s.limit s.suspicion.n ≤ s.last

section
variable {s : Clocked} {from_ : Bytes} {now : Time} {n : Int}

theorem limit_min (due : Due s) (low : 0 ≤ n) (counted : n ≤ s.suspicion.k) : s.start + s.min ≤ s.limit n := by
  have least := clamped_ge due.params low (fits_of_le due.params low counted)
  rw [Clocked.limit]
  linarith

theorem limit_enough (due : Due s) : s.limit s.suspicion.k = s.start + s.min := by
  have low : 0 ≤ s.suspicion.k := due.low.trans due.counted
  rw [Clocked.limit,clamped_enough due.params le_rfl (fits_of_le due.params low le_rfl)]

/-- The timer never waits for longer than the timeout of the confirmations to come. -/
theorem limit_le_due (due : Due s) (armed : s.armed = true) (more : s.suspicion.n ≤ n) (counted : n ≤ s.suspicion.k) :
    s.limit n ≤ s.due := by
  have low : 0 ≤ n := due.low.trans more
  have fits := fits_of_le due.params low counted
  rcases due.waits armed with ⟨-,whole⟩ | ⟨-,shorter,-⟩
  · have most := clamped_le due.params low fits
    rw [whole,Clocked.limit]
    linarith
  · have less := clamped_anti due.params due.low more fits
    rw [shorter,Clocked.limit,Clocked.limit]
    linarith

theorem due_le_max (due : Due s) (armed : s.armed = true) : s.due ≤ s.start + s.max := by
  rcases due.waits armed with ⟨-,whole⟩ | ⟨-,shorter,-⟩
  · exact whole.le
  · have most := clamped_le due.params due.low (fits_of_le due.params due.low due.counted)
    rw [shorter,Clocked.limit]
    linarith

theorem sub_of_fits {t u : Time} (later : u ≤ t) (fits : t - u ≤ maxDuration) : sub t u = t - u := by
  have low : minDuration ≤ t - u := by
    rw [minDuration]
    linarith
  rw [sub,min_eq_right fits,max_eq_right low]

/-- Before the timer is due, what remains of a timeout is the time until its limit. -/
theorem remaining_eq (due : Due s) (before : BeforeDue s (from_,now)) (low : 0 ≤ n) (counted : n ≤ s.suspicion.k) :
    remainingSuspicionTime n s.suspicion.k (sub now s.start) s.min s.max = s.limit n - now := by
  obtain ⟨armed,since,within⟩ := before
  have fits := fits_of_le due.params low counted
  have least := clamped_ge due.params low fits
  have most := clamped_le due.params low fits
  have latest := due_le_max due armed
  have nonneg := due.params.low
  have elapsed : sub now s.start = now - s.start :=
    sub_of_fits since ((sub_le_iff_le_add'.mpr (within.trans latest)).trans due.params.word)
  have word : s.max ≤ 2 ^ 63 - 1 := due.params.word
  rw [remainingSuspicionTime,elapsed,int64_of_fits (by linarith) (by linarith),Clocked.limit]
  ring

/-- A confirmation that is counted moves the timer to the limit, or comes after the limit and is the end itself. -/
theorem confirmAt_counted (due : Due s) (before : BeforeDue s (from_,now)) (fewer : s.suspicion.n < s.suspicion.k)
    (unknown : from_ ∉ s.suspicion.confirmations) :
    confirmAt s (from_,now) =
      let counted := { s with
        suspicion := { s.suspicion with n := s.suspicion.n + 1, confirmations := from_ :: s.suspicion.confirmations }
        last := now }
      if now < s.limit (s.suspicion.n + 1) then { counted with due := s.limit (s.suspicion.n + 1) }
      else { counted with due := now, armed := false } := by
  have taken : s.suspicion.confirm from_ =
      ({ s.suspicion with n := s.suspicion.n + 1, confirmations := from_ :: s.suspicion.confirmations },true) := by
    rw [Suspicion.confirm,if_neg (Int.not_le.mpr fewer),if_neg unknown]
  have low : 0 ≤ s.suspicion.n + 1 := by
    have := due.low
    omega
  have remains := remaining_eq due before low fewer
  have ahead : 0 < s.limit (s.suspicion.n + 1) - now ↔ now < s.limit (s.suspicion.n + 1) := sub_pos
  simp only [confirmAt,taken,if_true,before.1,remains,ahead]
  split_ifs
  · rw [add_sub_cancel]
  · rfl

theorem confirmAt_refused (refused : s.suspicion.confirm from_ = (s.suspicion,false)) : confirmAt s (from_,now) = s := by
  simp only [confirmAt,refused,Bool.false_eq_true,if_false]

/-- A call does nothing, or it counts. -/
theorem confirmAt_cases (due : Due s) (before : BeforeDue s (from_,now)) :
    confirmAt s (from_,now) = s ∨ s.suspicion.n < s.suspicion.k ∧
      ((now < s.limit (s.suspicion.n + 1) ∧ confirmAt s (from_,now) = { s with
        suspicion := { s.suspicion with n := s.suspicion.n + 1, confirmations := from_ :: s.suspicion.confirmations }
        due := s.limit (s.suspicion.n + 1)
        last := now }) ∨
      (s.limit (s.suspicion.n + 1) ≤ now ∧ confirmAt s (from_,now) = { s with
        suspicion := { s.suspicion with n := s.suspicion.n + 1, confirmations := from_ :: s.suspicion.confirmations }
        due := now
        armed := false
        last := now })) := by
  rcases confirm_cases s.suspicion from_ with refused | ⟨fewer,unknown,-⟩
  · exact .inl (confirmAt_refused refused)
  · refine .inr ⟨fewer,?_⟩
    have counted := confirmAt_counted due before fewer unknown
    dsimp only at counted
    split_ifs at counted with ahead
    · exact .inl ⟨ahead,counted⟩
    · exact .inr ⟨not_lt.mp ahead,counted⟩

theorem due_confirmAt (due : Due s) (before : BeforeDue s (from_,now)) : Due (confirmAt s (from_,now)) := by
  have low := due.low
  rcases confirmAt_cases due before with same | ⟨fewer,⟨ahead,counted⟩ | ⟨expired,counted⟩⟩
  · rw [same]
    exact due
  · rw [counted]
    exact ⟨due.params,by dsimp only; omega,fewer,(fun _ => .inr ⟨by dsimp only; omega,rfl,ahead⟩),
      fun wrong => by rw [before.1] at wrong; cases wrong⟩
  · rw [counted]
    exact ⟨due.params,by dsimp only; omega,fewer,(fun wrong => by cases wrong),
      fun _ => ⟨by dsimp only; omega,rfl,expired⟩⟩

/-- The timer is never due later than before. -/
theorem confirmAt_due_le (due : Due s) (before : BeforeDue s (from_,now)) : (confirmAt s (from_,now)).due ≤ s.due := by
  rcases confirmAt_cases due before with same | ⟨fewer,⟨-,counted⟩ | ⟨-,counted⟩⟩
  · rw [same]
  · rw [counted]
    exact limit_le_due due before.1 (by omega) fewer
  · rw [counted]
    exact before.2.2

theorem min_le_due (due : Due s) : s.start + s.min ≤ s.due := by
  have least := limit_min due due.low due.counted
  cases armed : s.armed with
  | true => exact least.trans (limit_le_due due armed le_rfl due.counted)
  | false =>
    obtain ⟨-,same,passed⟩ := due.ended armed
    rw [same]
    exact least.trans passed

/-- After as many confirmations as are expected the timer is due after the minimum, or was at the last
    confirmation if that came later. -/
theorem due_enough (due : Due s) (enough : s.suspicion.n = s.suspicion.k) :
    s.due = if s.start + s.min ≤ s.last then s.last else s.start + s.min := by
  have expects := due.params.expects
  have limit := limit_enough due
  cases armed : s.armed with
  | true =>
    rcases due.waits armed with ⟨unarmed,-⟩ | ⟨-,shorter,later⟩
    · omega
    · rw [enough,limit] at shorter
      rw [shorter] at later ⊢
      rw [if_neg (not_le.mpr later)]
  | false =>
    obtain ⟨-,same,passed⟩ := due.ended armed
    rw [enough,limit] at passed
    rw [if_pos passed,same]

/-- What a call does not change. -/
theorem confirmAt_fixed (s : Clocked) (call : Bytes × Time) :
    (confirmAt s call).suspicion.k = s.suspicion.k ∧ (confirmAt s call).min = s.min ∧ (confirmAt s call).start = s.start := by
  rcases confirm_cases s.suspicion call.1 with refused | ⟨-,-,taken⟩
  · simp only [confirmAt,refused,Bool.false_eq_true,if_false,and_self]
  · simp only [confirmAt,taken,if_true]
    split_ifs
    · exact ⟨rfl,rfl,rfl⟩
    · exact ⟨rfl,rfl,rfl⟩
    · exact ⟨rfl,rfl,rfl⟩

theorem fixed_run (s : Clocked) (calls : List (Bytes × Time)) :
    (Machines.run confirmAt s calls).suspicion.k = s.suspicion.k ∧ (Machines.run confirmAt s calls).min = s.min ∧
      (Machines.run confirmAt s calls).start = s.start := by
  refine Machines.run_keeps (I := fun s' : Clocked => s'.suspicion.k = s.suspicion.k ∧ s'.min = s.min ∧ s'.start = s.start)
    (fun s' call held => ?_) ⟨rfl,rfl,rfl⟩ calls
  obtain ⟨expected,least,begun⟩ := confirmAt_fixed s' call
  exact ⟨expected.trans held.1,least.trans held.2.1,begun.trans held.2.2⟩

end

theorem due_new {k : Int} {min max : Duration} (params : Params k min max) (range : k < 2 ^ 31) (node : Bytes)
    (changeTime : Time) (from_ : Bytes) (start : Time) : Due (newClocked node changeTime from_ k min max start) := by
  have expects := params.expects
  have whole : int32 k = k := Int.bmod_eq_of_le_mul_two (by omega) (by omega)
  refine ⟨?_,le_rfl,?_,fun _ => .inl ⟨rfl,?_⟩,fun wrong => by cases wrong⟩
  · show Params (int32 k) min max
    rw [whole]
    exact params
  · show 0 ≤ int32 k
    omega
  · rw [newClocked,if_neg (by omega)]

/-- The total timeout, of which a part has elapsed. -/
noncomputable def total (n k : Int) (elapsed min max : Duration) : Duration :=
  int64 (remainingSuspicionTime n k elapsed min max + elapsed)

/-- Confirmations shorten the timeout, down to the minimum: as long as it is a duration before it is clamped, as it is for
    the confirmations that are counted, the total timeout does not depend on the time that has elapsed, is
    between the minimum and the maximum, does not increase with the confirmations, and is the minimum when as many
    came as are expected. Calls of `Confirm` before the timer fires never move it later, and never before the
    minimum; after as many as are expected it is due after the minimum, or was at the last
    confirmation. -/
theorem suspicion_timeout_shortens (k : Int) (min max : Duration) (expects : 1 ≤ k) (range : k < 2 ^ 31) (low : 0 ≤ min)
    (ordered : min ≤ max) (word : max ≤ maxDuration) :
    (∀ n, 0 ≤ n → Fits n k min max →
      (∀ elapsed elapsed', total n k elapsed min max = total n k elapsed' min max) ∧
      ∀ elapsed, min ≤ total n k elapsed min max ∧ total n k elapsed min max ≤ max ∧
        (∀ fewer, 0 ≤ fewer → fewer ≤ n → total n k elapsed min max ≤ total fewer k elapsed min max) ∧
        (k ≤ n → total n k elapsed min max = min)) ∧
    (∀ n, 0 ≤ n → n ≤ k → Fits n k min max) ∧
    ∀ (node : Bytes) (changeTime : Time) (from_ : Bytes) (start : Time) (calls : List (Bytes × Time)),
      Machines.Along confirmAt BeforeDue (newClocked node changeTime from_ k min max start) calls →
      let s := Machines.run confirmAt (newClocked node changeTime from_ k min max start) calls
      (∀ call, BeforeDue s call → (confirmAt s call).due ≤ s.due) ∧ start + min ≤ s.due ∧
        (s.suspicion.n = k → s.due = if start + min ≤ s.last then s.last else start + min) := by
  have params : Params k min max := ⟨expects,low,ordered,word⟩
  refine ⟨?_,fun n => fits_of_le params,?_⟩
  · intro n nonneg fits
    have same : ∀ elapsed, total n k elapsed min max = clamped n k min max := remaining_total params nonneg fits
    refine ⟨fun elapsed elapsed' => (same elapsed).trans (same elapsed').symm,fun elapsed => ?_⟩
    rw [same]
    refine ⟨clamped_ge params nonneg fits,clamped_le params nonneg fits,?_,fun enough => clamped_enough params enough fits⟩
    intro fewer nonneg' less
    have less_total := remaining_total params nonneg' (fits_anti params nonneg' less fits) elapsed
    rw [total,less_total]
    exact clamped_anti params nonneg' less fits
  · intro node changeTime from_ start calls before s
    have due : Due s := Machines.along_keeps (fun s call due before => due_confirmAt due before)
      (due_new params range node changeTime from_ start) before
    obtain ⟨expected,least,begun⟩ := fixed_run (newClocked node changeTime from_ k min max start) calls
    have whole : s.suspicion.k = k := expected.trans (Int.bmod_eq_of_le_mul_two (by omega) (by omega))
    have enough := due_enough due
    have early := min_le_due due
    rw [show s.start = start from begun,show s.min = min from least] at enough early
    rw [whole] at enough
    exact ⟨fun call before => confirmAt_due_le due before,early,enough⟩

/-- The one confirmation that is expected comes after the minimum: the callback is started at once. -/
theorem suspicion_timeout_shortens_late :
    Machines.Along confirmAt BeforeDue (newClocked [98] 0 [99] 1 2 10 0) [([100],5)] ∧
      (confirmAt (newClocked [98] 0 [99] 1 2 10 0) ([100],5)).due = 5 := by
  have before : Machines.Along confirmAt BeforeDue (newClocked [98] 0 [99] 1 2 10 0) [([100],5)] :=
    ⟨⟨rfl,by decide,by decide⟩,trivial⟩
  have counted : (confirmAt (newClocked [98] 0 [99] 1 2 10 0) ([100],5)).suspicion.n = 1 ∧
      (confirmAt (newClocked [98] 0 [99] 1 2 10 0) ([100],5)).last = 5 := by
    have taken : (newClocked [98] 0 [99] 1 2 10 0).suspicion.confirm [100] =
        ({ newSuspicion [98] 0 [99] 1 with n := 1, confirmations := [[100],[99]] },true) := by decide
    simp only [confirmAt,taken,if_true]
    split_ifs
    · exact ⟨rfl,rfl⟩
    · exact ⟨rfl,rfl⟩
    · exact ⟨rfl,rfl⟩
  have shortens := suspicion_timeout_shortens 1 2 10 (by decide) (by decide) (by decide) (by decide) (by decide)
  have due := (shortens.2.2 [98] 0 [99] 0 [([100],5)] before).2.2 counted.1
  have last : (Machines.run confirmAt (newClocked [98] 0 [99] 1 2 10 0) [([100],5)]).last = 5 := counted.2
  rw [last,if_pos (by decide)] at due
  exact ⟨before,due⟩

/-- Three confirmations are two doublings. -/
theorem frac_three : frac 3 1 = 2 := by
  have four : Real.log (((3 : Int) : ℝ) + 1) = 2 * Real.log 2 := by
    rw [show ((3 : Int) : ℝ) + 1 = 2 ^ 2 by norm_num,Real.log_pow]
    norm_num
  have positive : Real.log 2 ≠ 0 := (Real.log_pos one_lt_two).ne'
  rw [frac,four,show ((1 : Int) : ℝ) + 1 = 2 by norm_num]
  field_simp

theorem unclamped_three : unclamped 3 1 0 maxDuration = -9223372036855000000 := by
  have floor : ⌊1000 * raw 3 1 0 maxDuration⌋ = -9223372036855 := by
    rw [raw,frac_three,seconds,seconds,Int.floor_eq_iff,maxDuration]
    constructor
    · norm_num
    · norm_num
  rw [unclamped,floor]
  rfl

/-- With three confirmations where one is expected, the whole milliseconds of a long timeout are less than
    the least duration, and as a duration they are a long timeout again. -/
theorem timeout_wraps :
    total 1 1 0 0 maxDuration = 0 ∧ total 3 1 0 0 maxDuration = 9223372036854551616 := by
  have params : Params 1 0 maxDuration := ⟨le_rfl,le_rfl,by decide,le_rfl⟩
  have fits : Fits 1 1 0 maxDuration := fits_of_le params (by decide) le_rfl
  constructor
  · rw [total,remaining_total params (by decide) fits]
    exact clamped_enough params le_rfl fits
  · rw [total,remainingSuspicionTime,clamped,unclamped_three]
    rfl

end Mori.Timeouts
