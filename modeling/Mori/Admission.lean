import Mori.Connections
import Mori.Machines
import Mathlib.Algebra.Order.BigOperators.Group.Finset

/-!
The counter of push/pull requests, over the handlers of all connections. A handler adds itself
before it looks at the sum and takes itself off when it returns, whether it was turned away or
not. So those that are being turned away count as long as they have not returned.
-/
namespace Mori.Admission
open Mori.Connections Mori.Machines

/-- Where the handler of a push/pull request stands: before `pushPullReq.Add(1)`, past the check
    of the sum, and after the deferred `Add`. -/
inductive Phase where
  | waiting
  | serving
  | refused
  | done
deriving DecidableEq,Repr

structure State where
  connections : Nat
  pushPullReq : UInt32 := 0
  handlers : Nat → Phase := fun _ => .waiting

inductive Act where
  | enter (i : Nat)
  | finish (i : Nat)

def isInside : Phase → Bool
  | .serving => true
  | .refused => true
  | _ => false

def isServing : Phase → Bool
  | .serving => true
  | _ => false

/-- The sum that a handler checks is the one its own `Add` has returned, so nothing comes between. -/
def check (numConcurrent : UInt32) : Phase := if maxPushPullRequests ≤ numConcurrent.toNat then .refused else .serving

def State.set (s : State) (i : Nat) (sum : UInt32) (phase : Phase) : State :=
  { s with pushPullReq := sum, handlers := Function.update s.handlers i phase }

def act (s : State) : Act → State
  | .enter i =>
    if i < s.connections ∧ s.handlers i = .waiting then s.set i (s.pushPullReq + 1) (check (s.pushPullReq + 1)) else s
  -- `^uint32(0)` is added, which takes one off.
  | .finish i =>
    if i < s.connections ∧ isInside (s.handlers i) = true then s.set i (s.pushPullReq + ~~~0) .done else s

/-- How many handlers of a kind there are. -/
def tally (s : State) (kind : Phase → Bool) : Nat := ∑ i ∈ Finset.range s.connections, (kind (s.handlers i)).toNat

structure Inv (s : State) : Prop where
  few : s.connections < 4294967296
  counter : s.pushPullReq.toNat = tally s isInside
  served : tally s isServing < maxPushPullRequests

section
variable {s : State} {i : Nat}

theorem tally_le (s : State) (kind : Phase → Bool) : tally s kind ≤ s.connections := by
  refine (Finset.sum_le_card_nsmul _ _ 1 (fun i _ => Bool.toNat_le _)).trans ?_
  simp

theorem serving_le (s : State) : tally s isServing ≤ tally s isInside := by
  refine Finset.sum_le_sum (fun i _ => ?_)
  cases s.handlers i <;> decide

theorem tally_set (within : i < s.connections) (sum : UInt32) (phase : Phase) (kind : Phase → Bool) :
    tally (s.set i sum phase) kind + (kind (s.handlers i)).toNat = tally s kind + (kind phase).toNat :=
  sum_update (fun phase => (kind phase).toNat) s.handlers s.connections phase within

/-- A handler that adds itself finds the number of those inside, itself included. -/
theorem numConcurrent_eq (inv : Inv s) (within : i < s.connections) (waits : s.handlers i = .waiting) :
    (s.pushPullReq + 1).toNat = tally s isInside + 1 := by
  have more := tally_set within 0 .serving isInside
  have few : _ < 4294967296 := (tally_le (s.set i 0 .serving) isInside).trans_lt inv.few
  rw [waits] at more
  simp only [isInside,Bool.toNat_false,Bool.toNat_true] at more
  rw [UInt32.toNat_add,inv.counter]
  exact Nat.mod_eq_of_lt (by show _ + 1 < 4294967296; omega)

theorem inv_enter (inv : Inv s) (within : i < s.connections) (waits : s.handlers i = .waiting) :
    Inv (s.set i (s.pushPullReq + 1) (check (s.pushPullReq + 1))) := by
  have sum := numConcurrent_eq inv within waits
  have tallies := tally_set within (s.pushPullReq + 1) (check (s.pushPullReq + 1))
  generalize s.pushPullReq + 1 = numConcurrent at *
  have inside := tallies isInside
  have serving := tallies isServing
  rw [waits] at inside serving
  by_cases full : maxPushPullRequests ≤ numConcurrent.toNat
  · rw [check,if_pos full] at *
    exact ⟨inv.few,sum.trans inside.symm,serving.trans_lt inv.served⟩
  -- Those that are served are among those inside, and the handler has counted these.
  · rw [check,if_neg full] at *
    have counter := sum.trans inside.symm
    exact ⟨inv.few,counter,((serving_le _).trans counter.ge).trans_lt (Nat.lt_of_not_le full)⟩

theorem inv_finish (inv : Inv s) (within : i < s.connections) (inside : isInside (s.handlers i) = true) :
    Inv (s.set i (s.pushPullReq + ~~~0) .done) := by
  have fewer := tally_set within (s.pushPullReq + ~~~0) .done isInside
  have serving := tally_set within (s.pushPullReq + ~~~0) .done isServing
  have served := inv.served
  rw [inside,← inv.counter] at fewer
  simp only [isInside,isServing,Bool.toNat_false,Bool.toNat_true,Nat.add_zero] at fewer serving
  have taken : (s.pushPullReq - 1).toNat = s.pushPullReq.toNat - 1 :=
    UInt32.toNat_sub_of_le _ _ (UInt32.le_iff_toNat_le.mpr (fewer ▸ Nat.le_add_left 1 _))
  rw [UInt32.not_zero,← UInt32.sub_eq_add_neg] at *
  exact ⟨inv.few,by rw [← fewer] at taken; exact taken,by omega⟩

theorem inv_act (s : State) (a : Act) (inv : Inv s) : Inv (act s a) := by
  cases a with
  | enter i =>
    rw [act]
    split_ifs with can
    exacts [inv_enter inv can.1 can.2,inv]
  | finish i =>
    rw [act]
    split_ifs with can
    exacts [inv_finish inv can.1 can.2,inv]

/-- Whatever the handlers of fewer than 2^32 connections do, fewer requests are served at a time
    than the limit, the counter is the number of those inside, and a request is turned away
    exactly if all but one of the places are taken, by others that have not returned. -/
theorem requests_bounded {n : Nat} (few : n < 4294967296) (acts : List Act) :
    let s := run act { connections := n } acts
    tally s isServing < maxPushPullRequests ∧ s.pushPullReq.toNat = tally s isInside ∧
    ∀ i < s.connections, s.handlers i = .waiting →
      ((act s (.enter i)).handlers i = .refused ↔ maxPushPullRequests ≤ tally s isInside + 1) := by
  intro s
  have fresh : Inv { connections := n } := ⟨few,by simp [tally,isInside],by simp [tally,isServing,maxPushPullRequests]⟩
  have inv : Inv s := run_keeps (I := Inv) inv_act fresh acts
  refine ⟨inv.served,inv.counter,fun i within waits => ?_⟩
  rw [act,if_pos ⟨within,waits⟩,← numConcurrent_eq inv within waits]
  simp [State.set,check]

/-- One request less than the limit has come in. -/
def crowded : State := run act { connections := 128 } ((List.range 127).map .enter)

/-- The next one is turned away, and counted until it returns. -/
theorem requests_bounded_crowded :
    tally crowded isServing < maxPushPullRequests ∧ (act crowded (.enter 127)).handlers 127 = .refused ∧
      (act crowded (.enter 127)).pushPullReq.toNat = 128 := by
  have within : 127 < crowded.connections := by decide +kernel
  have waits : crowded.handlers 127 = .waiting := by decide +kernel
  have full : maxPushPullRequests ≤ tally crowded isInside + 1 := by decide +kernel
  have counted : (act crowded (.enter 127)).pushPullReq.toNat = 128 := by decide +kernel
  unfold crowded at within waits full counted ⊢
  obtain ⟨served,-,refused⟩ := requests_bounded (n := 128) (by decide) ((List.range 127).map .enter)
  exact ⟨served,(refused 127 within waits).mpr full,counted⟩

end

end Mori.Admission
