import Mathlib.Data.List.Induction
import Mori.Formats

/-!
The integers of the decoder as the source computes them: every format ends up in one
`uint64` with a flag for negative values, by conversions that depend on the width of the
format, and is compared and converted again by the reads of unsigned and signed integers.
They read the numbers of `Mori.Msgpack`, and accept exactly what encodes a number in range.
-/
namespace Mori.Integers
open Mori.Net Mori.Readers Mori.Msgpack Mori.Formats
set_option linter.unusedSimpArgs false

/-- The loop of `readFixed`. -/
def shiftIn (p : Bytes) : UInt64 := p.foldl (fun v c => v <<< 8 ||| c.toUInt64) 0

def readFixed (n : Nat) : Dec UInt64 := do
  return shiftIn (← readInto n)

/-- `readInteger`: a negative value is returned as the bits of an `int64`. -/
def readInteger (want : String) : Dec (UInt64 × Bool) := do
  let c ← readByte
  if c ≤ posFixintMax then return (c.toUInt64,false)
  else if negFixintMin ≤ c then return (c.toInt8.toInt64.toUInt64,true)
  else if c = nilByte then return (0,false)
  else if c = uint8Byte then return (← readFixed 1,false)
  else if c = uint16Byte then return (← readFixed 2,false)
  else if c = uint32Byte then return (← readFixed 4,false)
  else if c = uint64Byte then return (← readFixed 8,false)
  else if c = int8Byte then
    let i := (← readFixed 1).toUInt8.toInt8.toInt64
    return (i.toUInt64,i < 0)
  else if c = int16Byte then
    let i := (← readFixed 2).toUInt16.toInt16.toInt64
    return (i.toUInt64,i < 0)
  else if c = int32Byte then
    let i := (← readFixed 4).toUInt32.toInt32.toInt64
    return (i.toUInt64,i < 0)
  else if c = int64Byte then
    let v ← readFixed 8
    return (v,v.toInt64 < 0)
  else throw (.type want c)

def readUint (limit : UInt64) : Dec UInt64 := do
  let (v,neg) ← readInteger "unsigned integer"
  if neg then throw (.negative v.toInt64.toInt)
  else if limit < v then throw (.overflow v.toNat limit.toNat)
  else return v

def maxInt64 : UInt64 := 0x7fffffffffffffff

def readInt (lo hi : Int64) : Dec Int64 := do
  let (v,neg) ← readInteger "signed integer"
  if neg = false ∧ maxInt64 < v then throw (.overflowSigned v.toNat)
  else if v.toInt64 < lo ∨ hi < v.toInt64 then throw (.outside v.toInt64.toInt lo.toInt hi.toInt)
  else return v.toInt64

/-- The number that is returned as a `uint64` and a flag. -/
def number (v : UInt64) (neg : Bool) : Int := if neg then v.toInt64.toInt else v.toNat

theorem shiftIn_concat (p : Bytes) (c : UInt8) : shiftIn (p ++ [c]) = shiftIn p <<< 8 ||| c.toUInt64 := by
  simp only [shiftIn,List.foldl_append,List.foldl_cons,List.foldl_nil]

theorem ofBigEndian_concat (p : Bytes) (c : UInt8) : ofBigEndian (p ++ [c]) = ofBigEndian p * 256 + c.toNat := by
  simp only [ofBigEndian,List.foldl_append,List.foldl_cons,List.foldl_nil]

theorem ofBigEndian_lt (p : Bytes) : ofBigEndian p < 256 ^ p.length := by
  induction p using List.reverseRecOn with
  | nil => decide
  | append_singleton p c ih =>
    have byte := c.toNat_lt
    rw [ofBigEndian_concat,List.length_append,List.length_singleton,pow_succ]
    omega

/-- A shift by a byte loses nothing where the top byte is free. -/
theorem toNat_shift {v : UInt64} (free : v.toNat < 2 ^ 56) (c : UInt8) :
    (v <<< 8 ||| c.toUInt64).toNat = v.toNat * 256 + c.toNat := by
  have byte : c.toNat < 2 ^ 8 := c.toNat_lt
  have eight : (8 : UInt64).toNat % 64 = 8 := by decide
  have shifted : (v <<< 8).toNat = 2 ^ 8 * v.toNat := by
    rw [UInt64.toNat_shiftLeft,eight,Nat.shiftLeft_eq,Nat.mod_eq_of_lt (by omega),Nat.mul_comm]
  rw [UInt64.toNat_or,shifted,UInt8.toNat_toUInt64,← Nat.two_pow_add_eq_or_of_lt byte]
  omega

theorem toNat_shiftIn {p : Bytes} (short : p.length ≤ 8) : (shiftIn p).toNat = ofBigEndian p := by
  induction p using List.reverseRecOn with
  | nil => rfl
  | append_singleton p c ih =>
    rw [List.length_append,List.length_singleton] at short
    have same := ih (by omega)
    have free : (shiftIn p).toNat < 2 ^ 56 := by
      rw [same]
      exact Nat.lt_of_lt_of_le (ofBigEndian_lt p) (Nat.pow_le_pow_right (by decide) (by omega : p.length ≤ 7))
    rw [shiftIn_concat,toNat_shift free,same,ofBigEndian_concat]

/-- The conversion of bits to a signed integer of the same width. -/
theorem toInt_bits {n w : Nat} (v : BitVec w) (width : w = 8 * (n + 1)) : v.toInt = signed (n + 1) v.toNat := by
  have size : 2 ^ w = 256 ^ (n + 1) := by
    rw [width,pow_mul]
    norm_num
  have cast : ((2 ^ w : Nat) : Int) = 256 ^ (n + 1) := by
    rw [size]
    norm_num
  have even : 2 * v.toNat < 256 ^ (n + 1) ↔ v.toNat < 256 ^ (n + 1) / 2 := by
    rw [pow_succ]
    omega
  rw [BitVec.toInt_eq_toNat_cond,cast,size,signed]
  simp only [even]

section
variable {v : UInt64}

/-! The conversions of a number of 1, 2, 4 or 8 bytes to a signed integer of that width and
then to an `int64`. -/

theorem toInt_one (small : v.toNat < 256 ^ 1) : v.toUInt8.toInt8.toInt64.toInt = signed 1 v.toNat := by
  have same : v.toUInt8.toNat = v.toNat := by
    rw [UInt64.toNat_toUInt8]
    exact Nat.mod_eq_of_lt small
  rw [Int8.toInt_toInt64,← same]
  exact toInt_bits (n := 0) v.toUInt8.toBitVec rfl

theorem toInt_two (small : v.toNat < 256 ^ 2) : v.toUInt16.toInt16.toInt64.toInt = signed 2 v.toNat := by
  have same : v.toUInt16.toNat = v.toNat := by
    rw [UInt64.toNat_toUInt16]
    exact Nat.mod_eq_of_lt small
  rw [Int16.toInt_toInt64,← same]
  exact toInt_bits (n := 1) v.toUInt16.toBitVec rfl

theorem toInt_four (small : v.toNat < 256 ^ 4) : v.toUInt32.toInt32.toInt64.toInt = signed 4 v.toNat := by
  have same : v.toUInt32.toNat = v.toNat := by
    rw [UInt64.toNat_toUInt32]
    exact Nat.mod_eq_of_lt small
  rw [Int32.toInt_toInt64,← same]
  exact toInt_bits (n := 3) v.toUInt32.toBitVec rfl

theorem toInt_eight (v : UInt64) : v.toInt64.toInt = signed 8 v.toNat := toInt_bits (n := 7) v.toBitVec rfl

end

theorem toInt_byte (c : UInt8) : c.toInt8.toInt64.toInt = signed 1 c.toNat := by
  rw [Int8.toInt_toInt64]
  exact toInt_bits (n := 0) c.toBitVec rfl

/-- A `uint64` with its flag stands for a number: the flag is set exactly if it is negative. -/
def Stands (x : UInt64 × Bool) (v : Int) : Prop := number x.1 x.2 = v ∧ x.2 = decide (v < 0)

theorem stands_unsigned {v : UInt64} {n : Nat} (same : v.toNat = n) : Stands (v,false) n := by
  have nonneg : ¬ ((n : Int) < 0) := by omega
  refine ⟨?_,?_⟩
  · simp only [number,Bool.false_eq_true,if_false,same]
  · simp only [nonneg,decide_false]

theorem stands_signed {i : Int64} {v : Int} (same : i.toInt = v) : Stands (i.toUInt64,decide (i < 0)) v := by
  have sign : i < 0 ↔ v < 0 := by
    rw [Int64.lt_iff_toInt_lt,same]
    rfl
  refine ⟨?_,?_⟩
  · rw [number,Int64.toInt64_toUInt64,same]
    split_ifs with negative
    · rfl
    · -- The bits of a number that is not negative are the number.
      have bits := toInt_eight i.toUInt64
      have low := i.toUInt64.toNat_lt
      rw [Int64.toInt64_toUInt64,same,signed] at bits
      rw [decide_eq_true_eq,sign] at negative
      dsimp only
      split_ifs at bits <;> omega
  · simp only [sign]

theorem agree_readFixed {n : Nat} (short : n ≤ 8) :
    Agree (fun v m => v.toNat = m ∧ m < 256 ^ n) (readFixed n) (Msgpack.readFixed n) := by
  refine agree_bind (R := fun p p' => p = p' ∧ p.length = n) ?_ ?_
  · intro d
    rcases agree_refl (readInto n) d with failed | ⟨p,_,d',done,again,rfl⟩
    · exact .inl failed
    · exact .inr ⟨p,p,d',done,again,rfl,yields_readInto n d p d' done⟩
  · rintro p _ ⟨rfl,length⟩
    refine agree_pure ⟨toNat_shiftIn (by omega),?_⟩
    rw [← length]
    exact ofBigEndian_lt p

theorem agree_unsigned {n : Nat} (short : n ≤ 8) :
    Agree Stands (readFixed n >>= fun v => pure (v,false)) (Msgpack.readFixed n >>= fun m => pure (m : Int)) :=
  agree_bind (agree_readFixed short) (fun _ _ same => agree_pure (stands_unsigned same.1))

/-- The signed formats, with the conversion of their width. -/
theorem agree_signed {n : Nat} (short : n ≤ 8) {conv : UInt64 → Int64}
    (width : ∀ {v : UInt64}, v.toNat < 256 ^ n → (conv v).toInt = signed n v.toNat) :
    Agree Stands (readFixed n >>= fun v => pure ((conv v).toUInt64,decide (conv v < 0)))
      (Msgpack.readFixed n >>= fun m => pure (signed n m)) := by
  refine agree_bind (agree_readFixed short) ?_
  rintro v _ ⟨rfl,small⟩
  exact agree_pure (stands_signed (width small))

theorem agree_readInteger (want : String) : Agree Stands (readInteger want) (Msgpack.readInteger want) := by
  refine agree_bind (agree_refl readByte) ?_
  rintro c _ rfl
  refine agree_ite (fun _ => agree_pure (stands_unsigned (UInt8.toNat_toUInt64 c))) (fun _ => ?_)
  refine agree_ite (fun format => agree_pure ?_) (fun _ => ?_)
  · have byte := c.toNat_lt
    have negative : signed 1 c.toNat < 0 := by
      rw [signed_fixint format]
      omega
    refine ⟨?_,?_⟩
    · rw [number,if_pos rfl,Int64.toInt64_toUInt64,toInt_byte]
    · rw [decide_eq_true negative]
  refine agree_ite (fun _ => agree_pure (stands_unsigned rfl)) (fun _ => ?_)
  refine agree_ite (fun _ => agree_unsigned (by decide)) (fun _ => ?_)
  refine agree_ite (fun _ => agree_unsigned (by decide)) (fun _ => ?_)
  refine agree_ite (fun _ => agree_unsigned (by decide)) (fun _ => ?_)
  refine agree_ite (fun _ => agree_unsigned (by decide)) (fun _ => ?_)
  refine agree_ite (fun _ => agree_signed (by decide) toInt_one) (fun _ => ?_)
  refine agree_ite (fun _ => agree_signed (by decide) toInt_two) (fun _ => ?_)
  refine agree_ite (fun _ => agree_signed (by decide) toInt_four) (fun _ => ?_)
  exact agree_ite (fun _ => agree_signed (by decide) (fun _ => toInt_eight _)) (fun _ => agree_throw _)

theorem agree_readUint (limit : UInt64) :
    Agree (fun v n => v.toNat = n) (readUint limit) (Msgpack.readUint limit.toNat) := by
  refine agree_bind (agree_readInteger _) ?_
  rintro ⟨v,neg⟩ _ ⟨rfl,sign⟩
  cases neg with
  | true =>
    rw [if_pos (of_decide_eq_true sign.symm)]
    exact agree_throw _
  | false =>
    rw [if_neg (of_decide_eq_false sign.symm)]
    have above : limit < v ↔ limit.toNat < (number v false).toNat := UInt64.lt_iff_toNat_lt
    simp only [Bool.false_eq_true,if_false,above]
    exact agree_ite (fun _ => agree_throw _) (fun _ => agree_pure rfl)

/-- Only an unsigned number is too large for an `int64`. -/
theorem maxInt64_lt_iff (v : UInt64) (neg : Bool) : neg = false ∧ maxInt64 < v ↔ 2 ^ 63 - 1 < number v neg := by
  cases neg with
  | true =>
    have signed := v.toInt64.toInt_lt
    simp only [number,if_true]
    refine ⟨fun unsigned => ?_,fun large => ?_⟩
    · cases unsigned.1
    · omega
  | false =>
    have largest : maxInt64.toNat = 2 ^ 63 - 1 := rfl
    simp only [number,UInt64.lt_iff_toNat_lt,largest,true_and,Bool.false_eq_true,if_false]
    omega

theorem toInt_of_not_large {v : UInt64} {neg : Bool} (fits : ¬ 2 ^ 63 - 1 < number v neg) :
    v.toInt64.toInt = number v neg := by
  cases neg with
  | true => rfl
  | false =>
    simp only [number,Bool.false_eq_true,if_false] at fits ⊢
    rw [toInt_eight,signed,if_pos (by norm_num; omega)]

theorem agree_readInt (lo hi : Int64) :
    Agree (fun i v => i.toInt = v) (readInt lo hi) (Msgpack.readInt lo.toInt hi.toInt) := by
  refine agree_bind (agree_readInteger _) ?_
  rintro ⟨v,neg⟩ _ ⟨rfl,-⟩
  simp only [maxInt64_lt_iff]
  refine agree_ite (fun large => ?_) (fun fits => ?_)
  · obtain ⟨rfl,-⟩ := (maxInt64_lt_iff v neg).mpr large
    exact agree_throw _
  · have same := toInt_of_not_large fits
    simp only [Int64.lt_iff_toInt_lt,same]
    exact agree_ite (fun _ => agree_throw _) (fun _ => agree_pure same)

theorem readUint_iff (limit : Nat) (d : Decoder) (v : Nat) (d' : Decoder) :
    (Msgpack.readUint limit : Dec _).run d = .ok (v,d') ↔
      ∃ b, d = Input.feed b d' ∧ IntegerOrNil b v ∧ v ≤ limit := by
  refine run_iff_of_derives (G := fun b (n : Nat) => IntegerOrNil b n ∧ n ≤ limit) ?_ ?_ d v d'
  · refine derives_bind (derives_readInteger _) (fun b n derived => ?_)
    refine derives_ite (fun _ => derives_throw _) (fun nonneg => ?_)
    refine derives_ite (fun _ => derives_throw _) (fun inside => derives_pure ?_)
    rw [List.append_nil,Int.toNat_of_nonneg (Int.not_lt.mp nonneg)]
    exact ⟨derived,Nat.not_lt.mp inside⟩
  · rintro b n ⟨derived,inside⟩
    refine reads_then (reads_readInteger derived _) ?_
    rw [if_neg (by omega),Int.toNat_natCast,if_neg (Nat.not_lt.mpr inside)]
    exact reads_pure n

theorem readInt_iff (lo hi : Int) (d : Decoder) (v : Int) (d' : Decoder) :
    (Msgpack.readInt lo hi : Dec _).run d = .ok (v,d') ↔
      ∃ b, d = Input.feed b d' ∧ IntegerOrNil b v ∧ v ≤ 2 ^ 63 - 1 ∧ lo ≤ v ∧ v ≤ hi := by
  refine run_iff_of_derives (G := fun b n => IntegerOrNil b n ∧ n ≤ 2 ^ 63 - 1 ∧ lo ≤ n ∧ n ≤ hi) ?_ ?_ d v d'
  · refine derives_bind (derives_readInteger _) (fun b n derived => ?_)
    refine derives_ite (fun _ => derives_throw _) (fun fits => ?_)
    refine derives_ite (fun _ => derives_throw _) (fun inside => derives_pure ?_)
    rw [List.append_nil]
    exact ⟨derived,by omega,by omega,by omega⟩
  · rintro b n ⟨derived,fits,low,high⟩
    refine reads_then (reads_readInteger derived _) ?_
    rw [if_neg (by omega),if_neg (by omega)]
    exact reads_pure n

/-- The unsigned read accepts nil and the encodings of the numbers up to the limit, and
    nothing else. -/
theorem run_readUint (limit v : UInt64) (streaming : Bool) (input rest : Bytes) :
    (readUint limit).run ⟨streaming,input⟩ = .ok (v,⟨streaming,rest⟩) ↔
      ∃ b, input = b ++ rest ∧ (b = [nilByte] ∧ v = 0 ∨ Integer b v.toNat ∧ v ≤ limit) := by
  have zero : v = 0 ↔ (v.toNat : Int) = 0 := by
    rw [← UInt64.toNat_inj]
    exact Int.natCast_eq_zero.symm
  rw [run_iff_of_agree (agree_readUint limit) (fun same same' => UInt64.toNat_inj.mp (same.trans same'.symm))]
  simp only [readUint_iff,exists_eq_right',Input.feed,Decoder.mk.injEq,true_and,IntegerOrNil,zero,
    UInt64.le_iff_toNat_le]
  refine exists_congr (fun b => and_congr_right (fun _ => ⟨?_,?_⟩))
  · rintro ⟨absent | integer,inside⟩
    · exact .inl absent
    · exact .inr ⟨integer,inside⟩
  · rintro (absent | ⟨integer,inside⟩)
    · exact ⟨.inl absent,by omega⟩
    · exact ⟨.inr integer,inside⟩

/-- The signed read accepts nil, where 0 is in range, and the encodings of the numbers in
    range, and nothing else. -/
theorem run_readInt (lo hi v : Int64) (streaming : Bool) (input rest : Bytes) :
    (readInt lo hi).run ⟨streaming,input⟩ = .ok (v,⟨streaming,rest⟩) ↔
      ∃ b, input = b ++ rest ∧ (b = [nilByte] ∧ v = 0 ∧ lo ≤ 0 ∧ 0 ≤ hi ∨ Integer b v.toInt ∧ lo ≤ v ∧ v ≤ hi) := by
  have zero : v = 0 ↔ v.toInt = 0 := Int64.toInt_inj.symm
  have fits := v.toInt_lt
  rw [run_iff_of_agree (agree_readInt lo hi) (fun same same' => Int64.toInt_inj.mp (same.trans same'.symm))]
  simp only [readInt_iff,exists_eq_right',Input.feed,Decoder.mk.injEq,true_and,IntegerOrNil,zero,
    Int64.le_iff_toInt_le,Int64.toInt_zero]
  refine exists_congr (fun b => and_congr_right (fun _ => ⟨?_,?_⟩))
  · rintro ⟨⟨absent,none⟩ | integer,-,low,high⟩
    · exact .inl ⟨absent,none,by omega,by omega⟩
    · exact .inr ⟨integer,low,high⟩
  · rintro (⟨absent,none,low,high⟩ | ⟨integer,low,high⟩)
    · exact ⟨.inl ⟨absent,none⟩,by omega,by omega,by omega⟩
    · exact ⟨.inr integer,by omega,low,high⟩

/-- The reads of integers accept nil and the encodings of the numbers in range in every
    format, take exactly these bytes and return the number; what is appended is read back. -/
theorem integers_exact (streaming : Bool) (input rest : Bytes) :
    (∀ limit v : UInt64, (readUint limit).run ⟨streaming,input⟩ = .ok (v,⟨streaming,rest⟩) ↔
      ∃ b, input = b ++ rest ∧ (b = [nilByte] ∧ v = 0 ∨ Integer b v.toNat ∧ v ≤ limit)) ∧
    (∀ lo hi v : Int64, (readInt lo hi).run ⟨streaming,input⟩ = .ok (v,⟨streaming,rest⟩) ↔
      ∃ b, input = b ++ rest ∧
        (b = [nilByte] ∧ v = 0 ∧ lo ≤ 0 ∧ 0 ≤ hi ∨ Integer b v.toInt ∧ lo ≤ v ∧ v ≤ hi)) ∧
    (∀ limit v : UInt64, v ≤ limit →
      (readUint limit).run ⟨streaming,appendUint v.toNat ++ rest⟩ = .ok (v,⟨streaming,rest⟩)) ∧
    ∀ lo hi v : Int64, lo ≤ v → v ≤ hi →
      (readInt lo hi).run ⟨streaming,appendInt v.toInt ++ rest⟩ = .ok (v,⟨streaming,rest⟩) := by
  refine ⟨fun limit v => run_readUint limit v streaming input rest,
    fun lo hi v => run_readInt lo hi v streaming input rest,fun limit v inside => ?_,fun lo hi v low high => ?_⟩
  · rw [run_iff_of_agree (agree_readUint limit) (fun same same' => UInt64.toNat_inj.mp (same.trans same'.symm))]
    exact ⟨v.toNat,reads_readUint (UInt64.le_iff_toNat_le.mp inside) v.toNat_lt ⟨streaming,rest⟩,rfl⟩
  · rw [run_iff_of_agree (agree_readInt lo hi) (fun same same' => Int64.toInt_inj.mp (same.trans same'.symm))]
    rw [Int64.le_iff_toInt_le] at low high
    exact ⟨v.toInt,reads_readInt low high v.le_toInt v.toInt_lt ⟨streaming,rest⟩,rfl⟩

end Mori.Integers
