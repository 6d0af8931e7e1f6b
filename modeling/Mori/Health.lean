import Mori.Machines
import Mori.Queue
import Mori.State

/-!
The health score (`awareness.go`) on machine words, and how probes and refutations move it.
The score lengthens the interval of a probe; it is to stay between zero and the multiplier
of the configuration, which nothing validates. Under a multiplier that leaves no room, the
upper bound is applied after the lower one and takes the score below zero, and the interval
of the probes that follow is shorter than configured.
-/
namespace Mori.Health
open Mori.Net Mori.Protocol Mori.State Mori.Machines
open Mori.Queue (int64 int64_of_fits)

/-- `ApplyDelta`. -/
def applyDelta (a : Awareness) (delta : Int) : Awareness :=
  let score := int64 (a.score + delta)
  { a with
    score :=
      if score < 0 then 0
      else if int64 (a.max - 1) < score then int64 (a.max - 1)
      else score }

def scaleTimeout (a : Awareness) (timeout : Duration) : Duration := int64 (timeout * int64 (a.score + 1))

/-- How sending the ping of a probe ends. -/
inductive Sending where
  | sent
  | failed
  | failedRemote
deriving DecidableEq,Repr

/-- What a call of `probeNode` meets: whether the ack comes in time and whether it comes after
    the indirect pings, the `PMax` of the peers that are asked for those, whether the TCP ping
    reaches the node, and how many nacks have come in the end. -/
structure Probe where
  sending : Sending
  acked : Bool := false
  peers : List UInt8 := []
  ackedLater : Bool := false
  didContact : Bool := false
  nackCount : Nat := 0
deriving DecidableEq,Repr

def expectedNacks (p : Probe) : Nat := (p.peers.filter (fun pMax => 4 ≤ pMax)).length

/-- `probeNode` from `HANDLE_REMOTE_FAILURE` on, with the delta so far. -/
def handleRemoteFailure (p : Probe) (delta : Int) : Int :=
  if p.ackedLater then delta
  else if p.didContact then delta
  else if 0 < expectedNacks p then
    if p.nackCount < expectedNacks p then expectedNacks p - p.nackCount else 0
  else 1

/-- What `probeNode` passes to `ApplyDelta` when it returns. -/
def awarenessDelta (p : Probe) : Int :=
  match p.sending with
  | .failed => 0
  | .failedRemote => handleRemoteFailure p 0
  | .sent => if p.acked then -1 else handleRemoteFailure p (-1)

/-- The calls that move the score. -/
inductive Call where
  | probeNode (p : Probe)
  | refute
deriving DecidableEq,Repr

def Call.delta : Call → Int
  | .probeNode p => awarenessDelta p
  | .refute => 1

def step (a : Awareness) (c : Call) : Awareness := applyDelta a c.delta

/-- The values of an `int`. -/
def IsInt (x : Int) : Prop := -2 ^ 63 ≤ x ∧ x ≤ 2 ^ 63 - 1

/-- The score is within its bounds, and no probe gets less time than is configured. -/
structure Sound (a : Awareness) : Prop where
  nonneg : 0 ≤ a.score
  below : 1 ≤ a.max → a.score < a.max
  slower : ∀ interval : Duration, 0 ≤ interval → interval * (a.score + 1) ≤ maxDuration → interval ≤ scaleTimeout a interval

/-- The call finds a multiplier that leaves room, the least `int`, whose predecessor wraps,
    or a sum that the lower bound is for. -/
def Bounded (a : Awareness) (c : Call) : Prop := 1 ≤ a.max ∨ a.max = -2 ^ 63 ∨ int64 (a.score + c.delta) < 0

instance (a : Awareness) (c : Call) : Decidable (Bounded a c) := inferInstanceAs (Decidable (_ ∨ _ ∨ _))

section
variable {a : Awareness}

/-- The score that is left is negative if the upper bound is and gets applied. -/
theorem applyDelta_nonneg_iff (a : Awareness) (delta : Int) :
    0 ≤ (applyDelta a delta).score ↔ 0 ≤ int64 (a.max - 1) ∨ int64 (a.score + delta) < 0 := by
  unfold applyDelta
  generalize int64 (a.max - 1) = most
  generalize int64 (a.score + delta) = score
  dsimp only
  split_ifs <;> omega

theorem most_nonneg_iff {max : Int} (isInt : IsInt max) : 0 ≤ int64 (max - 1) ↔ 1 ≤ max ∨ max = -2 ^ 63 := by
  obtain ⟨low,high⟩ := isInt
  by_cases least : max = -2 ^ 63
  · subst least
    exact iff_of_true (by decide) (.inr rfl)
  · rw [int64_of_fits (by omega) (by omega)]
    omega

theorem applyDelta_below (isInt : IsInt a.max) (room : 1 ≤ a.max) (delta : Int) : (applyDelta a delta).score < a.max := by
  have most : int64 (a.max - 1) = a.max - 1 := int64_of_fits (by omega) (by have := isInt.2; omega)
  unfold applyDelta
  rw [most]
  dsimp only
  split_ifs <;> omega

/-- A score that is not negative shortens no interval. -/
theorem le_scaleTimeout (nonneg : 0 ≤ a.score) {interval : Int} (low : 0 ≤ interval)
    (fits : interval * (a.score + 1) ≤ 2 ^ 63 - 1) : interval ≤ scaleTimeout a interval := by
  rcases eq_or_lt_of_le low with zero | positive
  · rw [← zero,scaleTimeout,zero_mul]
    exact le_rfl
  · have longer : interval ≤ interval * (a.score + 1) := le_mul_of_one_le_right low (by omega)
    have more : a.score + 1 ≤ interval * (a.score + 1) := le_mul_of_one_le_left (by omega) positive
    rw [scaleTimeout,int64_of_fits (x := a.score + 1) (by omega) (by omega),int64_of_fits (by omega) fits]
    exact longer

theorem sound_applyDelta_iff (isInt : IsInt a.max) (delta : Int) :
    Sound (applyDelta a delta) ↔ 0 ≤ (applyDelta a delta).score :=
  ⟨Sound.nonneg,fun nonneg => ⟨nonneg,fun room => applyDelta_below isInt room delta,fun _ low => le_scaleTimeout nonneg low⟩⟩

theorem sound_step_iff (isInt : IsInt a.max) (c : Call) : Sound (step a c) ↔ Bounded a c := by
  rw [step,sound_applyDelta_iff isInt,applyDelta_nonneg_iff,most_nonneg_iff isInt,or_assoc]
  rfl

end

theorem sound_start (conf : Config) : Sound (buildMemberlist conf).awareness where
  nonneg := le_rfl
  below room := room
  slower _ low fits := le_scaleTimeout le_rfl low fits

/-- The score stays within its bounds, and no probe gets less time than is configured, in every
    state of exactly those runs in which every call finds a multiplier that leaves room, or a sum
    below zero. -/
theorem sound_iff_bounded (conf : Config) (isInt : IsInt conf.awarenessMaxMultiplier) (calls : List Call) :
    (∀ n, Sound (run step (buildMemberlist conf).awareness (calls.take n))) ↔
      Along step Bounded (buildMemberlist conf).awareness calls := by
  have kept : ∀ (a : Awareness) (c : Call), IsInt a.max → IsInt (step a c).max := fun _ _ isInt => isInt
  have sound : ∀ (a : Awareness) (c : Call), IsInt a.max → Sound a → (Sound (step a c) ↔ Bounded a c) :=
    fun _ c isInt _ => sound_step_iff isInt c
  exact along_iff kept sound isInt (sound_start conf) calls

/-- A failed probe that one nack came for, a refutation, and a ping that could not be sent. -/
def setbacks : List Call :=
  [.probeNode { sending := .sent, peers := [5,5,2], nackCount := 1 },.refute,.probeNode { sending := .failed }]

theorem sound_iff_bounded_default :
    (∀ n, Sound (run step (buildMemberlist { name := [0x61] }).awareness (setbacks.take n))) ∧
    Along step Bounded (buildMemberlist { name := [0x61] }).awareness setbacks :=
  have bounded : Along step Bounded (buildMemberlist { name := [0x61] }).awareness setbacks := by decide
  ⟨(sound_iff_bounded { name := [0x61] } ⟨by decide,by decide⟩ setbacks).mpr bounded,bounded⟩

/-- A configuration that does not set the multiplier. -/
def unset : Config := { name := [0x61], awarenessMaxMultiplier := 0 }

/-- One ping that could not be sent takes the score to -1; the next probe gets no time at all
    of the second that is configured. -/
theorem score_below_zero :
    (run step (buildMemberlist unset).awareness [.probeNode { sending := .failed }]).score = -1 ∧
    scaleTimeout (run step (buildMemberlist unset).awareness [.probeNode { sending := .failed }]) 1000000000 = 0 := by
  decide

/-! ## The membership state

The score of a `Memberlist` is a number there, not a machine word.
-/

theorem applyDelta_eq {a : Awareness} {delta : Int} (most : IsInt (a.max - 1)) (sum : IsInt (a.score + delta)) :
    applyDelta a delta = a.applyDelta delta := by
  rw [applyDelta,Awareness.applyDelta,int64_of_fits most.1 most.2,int64_of_fits sum.1 sum.2]

/-- `refute` is one of the calls. -/
theorem awareness_refute {m : Memberlist} (isInt : IsInt m.awareness.max) (room : 1 ≤ m.awareness.max)
    (sound : Sound m.awareness) (r : Ref) (accusedInc : UInt32) :
    (refute m r accusedInc).awareness = step m.awareness .refute := by
  have nonneg := sound.nonneg
  have below := sound.below room
  have high := isInt.2
  exact (applyDelta_eq ⟨by omega,by omega⟩ ⟨by omega,by omega⟩).symm

end Mori.Health
