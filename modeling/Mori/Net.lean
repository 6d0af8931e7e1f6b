import Mathlib.Data.List.Basic
import Mathlib.Tactic.Ring
import Mathlib.Tactic.Linarith

/-!
What the protocol uses of Go's `[]byte`, `net` and `time`: byte slices that
tell nil from empty, the comparison and the text of `net.IP`, membership in a
`net.IPNet`, and the saturating difference of two instants.
-/
namespace Mori.Net

/-- A Go string or the contents of a byte slice. -/
abbrev Bytes := List UInt8

/-- A Go `[]byte`: `none` is nil, `some []` is empty and not nil. -/
abbrev Slice := Option Bytes

/-- The contents of a slice; nil reads as empty. -/
def bytes (s : Slice) : Bytes := s.getD []

@[simp] theorem bytes_none : bytes none = [] := rfl
@[simp] theorem bytes_some (b : Bytes) : bytes (some b) = b := rfl

/-- `bytes.Equal`: nil and empty are equal. -/
def bytesEqual (a b : Slice) : Bool := bytes a == bytes b

theorem bytesEqual_iff (a b : Slice) : bytesEqual a b = true ↔ bytes a = bytes b := by
  simp [bytesEqual]

/-- The first twelve bytes of an IPv4-mapped IPv6 address. -/
def v4InV6Prefix : Bytes := [0,0,0,0,0,0,0,0,0,0,0xff,0xff]

/-- `net.IP.To4`: the four-byte form of an IPv4 address. -/
def to4 (ip : Bytes) : Option Bytes :=
  if ip.length = 4 then some ip
  else if ip.length = 16 ∧ ip.take 12 = v4InV6Prefix then some (ip.drop 12)
  else none

/-- `net.IP.Equal`: an IPv4 address and its IPv4-mapped form are equal. -/
def ipEqual (ip x : Bytes) : Bool :=
  if ip.length = x.length then ip == x
  else if ip.length = 4 ∧ x.length = 16 then x.take 12 == v4InV6Prefix && ip == x.drop 12
  else if ip.length = 16 ∧ x.length = 4 then ip.take 12 == v4InV6Prefix && ip.drop 12 == x
  else false

/-- The form of an address that `ipEqual` compares. -/
def canonical (ip : Bytes) : Bytes := (to4 ip).getD ip

theorem canonical_of_short {ip : Bytes} (short : ip.length ≠ 16) : canonical ip = ip := by
  unfold canonical to4
  split_ifs <;> simp_all

theorem canonical_of_mapped {ip : Bytes} (long : ip.length = 16) (mapped : ip.take 12 = v4InV6Prefix) :
    canonical ip = ip.drop 12 := by
  simp [canonical,to4,long,mapped]

theorem canonical_of_plain {ip : Bytes} (plain : ip.take 12 ≠ v4InV6Prefix) : canonical ip = ip := by
  unfold canonical to4
  split_ifs <;> simp_all

/-- `net.IP.Equal` compares canonical forms, so it is an equivalence. -/
theorem ipEqual_iff (ip x : Bytes) : ipEqual ip x = true ↔ canonical ip = canonical x := by
  -- Addresses of one length are compared as they are; mapped ones share their first twelve bytes.
  have sameLength : ip.length = x.length → (ip = x ↔ canonical ip = canonical x) := by
    intro same
    constructor
    · rintro rfl; rfl
    · intro equal
      by_cases long : ip.length = 16
      · by_cases mapped : ip.take 12 = v4InV6Prefix <;> by_cases mapped' : x.take 12 = v4InV6Prefix
        · rw [canonical_of_mapped long mapped,canonical_of_mapped (same ▸ long) mapped'] at equal
          rw [← List.take_append_drop 12 ip,← List.take_append_drop 12 x,mapped,mapped',equal]
        · rw [canonical_of_mapped long mapped,canonical_of_plain mapped'] at equal
          have := congrArg List.length equal
          simp only [List.length_drop] at this
          omega
        · rw [canonical_of_plain mapped,canonical_of_mapped (same ▸ long) mapped'] at equal
          have := congrArg List.length equal
          simp only [List.length_drop] at this
          omega
        · rwa [canonical_of_plain mapped,canonical_of_plain mapped'] at equal
      · rwa [canonical_of_short long,canonical_of_short (same ▸ long)] at equal
  have mixed : ∀ a b : Bytes, a.length = 4 → b.length = 16 →
      ((b.take 12 = v4InV6Prefix ∧ a = b.drop 12) ↔ canonical a = canonical b) := by
    intro a b short long
    have itself : canonical a = a := canonical_of_short (by omega)
    rw [itself]
    by_cases mapped : b.take 12 = v4InV6Prefix
    · simp [canonical_of_mapped long mapped,mapped]
    · rw [canonical_of_plain mapped]
      constructor
      · rintro ⟨isMapped,_⟩; exact absurd isMapped mapped
      · rintro rfl; omega
  unfold ipEqual
  split_ifs with same shorter longer
  · simpa using sameLength same
  · simpa using mixed ip x shorter.1 shorter.2
  · have := mixed x ip longer.2 longer.1
    simp only [Bool.and_eq_true,beq_iff_eq]
    constructor
    · rintro ⟨mapped,rest⟩; exact (this.mp ⟨mapped,rest.symm⟩).symm
    · intro equal
      obtain ⟨mapped,rest⟩ := this.mpr equal.symm
      exact ⟨mapped,rest.symm⟩
  · simp only [false_iff]
    intro equal
    have lengths := congrArg List.length equal
    unfold canonical to4 at lengths
    split_ifs at lengths <;> simp_all

theorem ipEqual_refl (ip : Bytes) : ipEqual ip ip = true := (ipEqual_iff ip ip).mpr rfl

theorem ipEqual_trans {ip x y : Bytes} (first : ipEqual ip x = true) (second : ipEqual x y = true) :
    ipEqual ip y = true :=
  (ipEqual_iff ip y).mpr (((ipEqual_iff ip x).mp first).trans ((ipEqual_iff x y).mp second))

/-- A `net.IPNet`. -/
structure IPNet where
  ip : Bytes
  mask : Bytes
deriving DecidableEq,Repr

/-- `net.networkNumberAndMask`: an unusable network reads as an empty pair. -/
def networkNumberAndMask (n : IPNet) : Bytes × Bytes :=
  match to4 n.ip with
  | some ip4 =>
    if n.mask.length = 4 then (ip4,n.mask)
    else if n.mask.length = 16 then (ip4,n.mask.drop 12)
    else ([],[])
  | none => if n.ip.length = 16 ∧ n.mask.length = 16 then (n.ip,n.mask) else ([],[])

/-- `net.IPNet.Contains`. -/
def contains (n : IPNet) (ip : Bytes) : Bool :=
  let (number,mask) := networkNumberAndMask n
  let ip := canonical ip
  ip.length == number.length &&
    (List.zip (List.zip number mask) ip).all (fun ((b,k),c) => b &&& k == c &&& k)

/-- The decimal digits of a byte. -/
def decimal (b : UInt8) : Bytes := (Nat.toDigits 10 b.toNat).map (fun c => c.toNat.toUInt8)

/-- The hexadecimal digits of a number, without leading zeros. -/
def hex (n : Nat) : Bytes := (Nat.toDigits 16 n).map (fun c => c.toNat.toUInt8)

/-- The eight groups of a sixteen-byte address. -/
def groups : Bytes → List Nat
  | hi :: lo :: rest => (hi.toNat * 256 + lo.toNat) :: groups rest
  | _ => []

/-- How many zero groups start the list. -/
def zeroRun : List Nat → Nat
  | 0 :: rest => zeroRun rest + 1
  | _ => 0

/-- The first longest run of at least two zero groups, as start and end;
    (255,255) when there is none. -/
def longestZeros (gs : List Nat) : Nat × Nat :=
  (List.range gs.length).foldl (fun best i =>
    let l := zeroRun (gs.drop i)
    if 2 ≤ l ∧ best.2 - best.1 < l then (i,i + l) else best) (255,255)

/-- The text of an IPv6 address from group `i` on, with the zeros from `best.1`
    to `best.2` elided. The fuel is the number of groups left. -/
def text6 (gs : List Nat) (best : Nat × Nat) : Nat → Nat → Bytes
  | 0,_ => []
  | fuel + 1,i =>
    if i = best.1 then
      [0x3a,0x3a] ++ (match gs[best.2]? with
        | some g => hex g ++ text6 gs best fuel (best.2 + 1)
        | none => [])
    else match gs[i]? with
      | some g => (if 0 < i then [0x3a] else []) ++ hex g ++ text6 gs best fuel (i + 1)
      | none => []

/-- `net.IP.String`. -/
def ipString (ip : Bytes) : Bytes :=
  if ip.length = 0 then [0x3c,0x6e,0x69,0x6c,0x3e]
  else match to4 ip with
    | some ip4 => (ip4.map decimal).intersperse [0x2e] |>.flatten
    | none =>
      if ip.length = 16 then text6 (groups ip) (longestZeros (groups ip)) 9 0
      else 0x3f :: (ip.map (fun b => hex (b.toNat / 16) ++ hex (b.toNat % 16))).flatten

/-- A `time.Time`, in nanoseconds since Go's zero time. -/
abbrev Time := Int

/-- A `time.Duration`, in nanoseconds. -/
abbrev Duration := Int

def maxDuration : Duration := 2 ^ 63 - 1
def minDuration : Duration := -2 ^ 63

/-- `time.Time.Sub`: the difference, saturated to the range of a duration. -/
def sub (t u : Time) : Duration := max minDuration (min maxDuration (t - u))

end Mori.Net
