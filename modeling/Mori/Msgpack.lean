import Mori.Net
import Mori.Readers

/-!
The subset of MessagePack that the wire protocol uses (`internal/msgpack`): the
encoders, and the decoder in both of its modes, over a byte slice and over a
stream. An integer is the number it stands for; an encoder is the bytes that it
appends.
-/
namespace Mori.Msgpack
open Mori.Net Mori.Readers
set_option linter.unusedSimpArgs false

def posFixintMax : UInt8 := 0x7f
def fixmapMin : UInt8 := 0x80
def fixmapMax : UInt8 := 0x8f
def fixarrayMin : UInt8 := 0x90
def fixarrayMax : UInt8 := 0x9f
def fixstrMin : UInt8 := 0xa0
def fixstrMax : UInt8 := 0xbf
def nilByte : UInt8 := 0xc0
def falseByte : UInt8 := 0xc2
def trueByte : UInt8 := 0xc3
def bin8 : UInt8 := 0xc4
def bin16 : UInt8 := 0xc5
def bin32 : UInt8 := 0xc6
def ext8 : UInt8 := 0xc7
def ext16 : UInt8 := 0xc8
def ext32 : UInt8 := 0xc9
def float32Byte : UInt8 := 0xca
def float64Byte : UInt8 := 0xcb
def uint8Byte : UInt8 := 0xcc
def uint16Byte : UInt8 := 0xcd
def uint32Byte : UInt8 := 0xce
def uint64Byte : UInt8 := 0xcf
def int8Byte : UInt8 := 0xd0
def int16Byte : UInt8 := 0xd1
def int32Byte : UInt8 := 0xd2
def int64Byte : UInt8 := 0xd3
def fixext1 : UInt8 := 0xd4
def fixext16 : UInt8 := 0xd8
def str8 : UInt8 := 0xd9
def str16 : UInt8 := 0xda
def str32 : UInt8 := 0xdb
def array16 : UInt8 := 0xdc
def array32 : UInt8 := 0xdd
def map16 : UInt8 := 0xde
def map32 : UInt8 := 0xdf
def negFixintMin : UInt8 := 0xe0

/-- The conversion of an integer to an unsigned one of `n` bytes. -/
def unsigned (n : Nat) (v : Int) : Nat := (v % 256 ^ n).toNat

/-- The conversion of an unsigned integer of `n` bytes to a signed one. -/
def signed (n : Nat) (v : Nat) : Int := if v < 256 ^ n / 2 then v else (v : Int) - 256 ^ n

def appendNil : Bytes := [nilByte]

def appendBool (v : Bool) : Bytes := if v then [trueByte] else [falseByte]

/-- `AppendUint`: the smallest format. -/
def appendUint (v : Nat) : Bytes :=
  if v ≤ 0x7f then [UInt8.ofNat v]
  else if v ≤ 0xff then [uint8Byte,UInt8.ofNat v]
  else if v ≤ 0xffff then uint16Byte :: bigEndian 2 v
  else if v ≤ 0xffffffff then uint32Byte :: bigEndian 4 v
  else uint64Byte :: bigEndian 8 v

/-- `AppendInt`: positive numbers above 127 use the signed formats too. -/
def appendInt (v : Int) : Bytes :=
  if 127 < v then
    if v ≤ 2 ^ 15 - 1 then int16Byte :: bigEndian 2 (unsigned 2 v)
    else if v ≤ 2 ^ 31 - 1 then int32Byte :: bigEndian 4 (unsigned 4 v)
    else int64Byte :: bigEndian 8 (unsigned 8 v)
  else if -32 ≤ v then [UInt8.ofNat (unsigned 1 v)]
  else if -128 ≤ v then [int8Byte,UInt8.ofNat (unsigned 1 v)]
  else if -2 ^ 15 ≤ v then int16Byte :: bigEndian 2 (unsigned 2 v)
  else if -2 ^ 31 ≤ v then int32Byte :: bigEndian 4 (unsigned 4 v)
  else int64Byte :: bigEndian 8 (unsigned 8 v)

def appendRawHeader (n : Nat) : Bytes :=
  if n < 32 then [fixstrMin ||| UInt8.ofNat n]
  else if n < 2 ^ 16 then str16 :: bigEndian 2 n
  else str32 :: bigEndian 4 n

def appendString (s : Bytes) : Bytes := appendRawHeader s.length ++ s

def appendBytes : Slice → Bytes
  | none => appendNil
  | some p => appendRawHeader p.length ++ p

def appendMapHeader (n : Nat) : Bytes :=
  if n < 16 then [fixmapMin ||| UInt8.ofNat n]
  else if n < 2 ^ 16 then map16 :: bigEndian 2 n
  else map32 :: bigEndian 4 n

/-- Why decoding fails. `field` is what `decodeMap` adds: the message, and the key
    of the entry unless it is nil. -/
inductive Error where
  | truncated
  | type (want : String) (c : UInt8)
  | mapCount (n : Nat)
  | rawLength (n : Int)
  | tooLong (n limit : Nat)
  | negative (v : Int)
  | overflow (v limit : Nat)
  | overflowSigned (v : Nat)
  | outside (v lo hi : Int)
  | nested
  | field (message : String) (key : Option Bytes) (err : Error)
deriving DecidableEq,Repr

def maxSkipDepth : Nat := 32

/-- A decoder: the input it has not read yet, and whether that comes from a stream,
    whose end it cannot see coming. -/
structure Decoder where
  streaming : Bool
  input : Bytes
deriving DecidableEq,Repr

/-- A decoder over a slice. -/
def newDecoder (b : Bytes) : Decoder := ⟨false,b⟩

/-- A decoder over a stream that holds `b` up to its end. -/
def newStreamDecoder (b : Bytes) : Decoder := ⟨true,b⟩

instance : Input UInt8 Decoder where
  feed b d := { d with input := b ++ d.input }
  feed_nil _ := rfl
  feed_append b c d := by simp

/-- The unread input of a slice. -/
def Decoder.remaining (d : Decoder) : Option Nat := if d.streaming then none else some d.input.length

/-- A reader of MessagePack. -/
abbrev Dec (α : Type) := Reader Decoder Error α

def readByte : Dec UInt8 := fun d =>
  match d.input with
  | [] => .error .truncated
  | c :: rest => .ok (c,{ d with input := rest })

/-- `readInto`: the next `n` bytes. -/
def readInto (n : Nat) : Dec Bytes := fun d =>
  if d.input.length < n then .error .truncated
  else .ok (d.input.take n,{ d with input := d.input.drop n })

def readFixed (n : Nat) : Dec Nat := do
  return ofBigEndian (← readInto n)

def discard (n : Nat) : Dec Unit := do
  let _ ← readInto n

/-- What the two modes of a decoder do each in their own way. `readText` and
    `readName` are the next `n` bytes as `ReadString` and `ReadKey` take them. -/
class Mode (σ : Type) where
  remaining : σ → Option Nat
  readByte : Reader σ Error UInt8
  readFixed : Nat → Reader σ Error Nat
  readInto : Nat → Reader σ Error Bytes
  discard : Nat → Reader σ Error Unit
  readText : Nat → Reader σ Error Bytes
  readName : Nat → Reader σ Error Bytes

instance : Mode Decoder where
  remaining := Decoder.remaining
  readByte := readByte
  readFixed := readFixed
  readInto := readInto
  discard := discard
  readText := readInto
  readName := readInto

section
variable {σ : Type} [Mode σ]

def readRaw (n : Int) : Reader σ Error Bytes := if n < 0 then throw (.rawLength n) else Mode.readInto n.toNat

/-- The checks of a map count that is not part of the format byte. -/
def checkMapCount (n : Nat) : Reader σ Error Nat := do
  if 2 ^ 31 - 1 < n then throw (.mapCount n)
  match Mode.remaining (← get) with
  | some r => if r / 2 < n then throw .truncated else return n
  | none => return n

def readMapHeader : Reader σ Error Nat := do
  let c ← Mode.readByte
  if fixmapMin ≤ c ∧ c ≤ fixmapMax then return (c &&& 0x0f).toNat
  else if c = nilByte then return 0
  else if c = map16 then checkMapCount (← Mode.readFixed 2)
  else if c = map32 then checkMapCount (← Mode.readFixed 4)
  else throw (.type "map" c)

/-- The length of a str or bin value; `none` is a nil value. -/
def rawLen (want : String) : Reader σ Error (Option Nat) := do
  let c ← Mode.readByte
  if fixstrMin ≤ c ∧ c ≤ fixstrMax then return some (c &&& 0x1f).toNat
  else if c = nilByte then return none
  else if c = str8 ∨ c = bin8 then return some (← Mode.readFixed 1)
  else if c = str16 ∨ c = bin16 then return some (← Mode.readFixed 2)
  else if c = str32 ∨ c = bin32 then return some (← Mode.readFixed 4)
  else throw (.type want c)

def readBytes (limit : Nat) : Reader σ Error Slice := do
  match ← rawLen "bytes" with
  | none => return none
  | some n =>
    if limit < n then throw (.tooLong n limit)
    else if n = 0 then return some []
    else return some (← Mode.readInto n)

def readString (limit : Nat) : Reader σ Error Bytes := do
  match ← rawLen "string" with
  | none => return []
  | some n =>
    if n = 0 then return []
    else if limit < n then throw (.tooLong n limit)
    else Mode.readText n

def maxKeyLen : Nat := 64

/-- A map key; nil where it is nil or too long to match a field. -/
def readKey : Reader σ Error (Option Bytes) := do
  match ← rawLen "map key" with
  | none => return none
  | some n =>
    if maxKeyLen < n then
      Mode.discard n
      return none
    else return some (← Mode.readName n)

/-- Any integer format; nil reads as 0. -/
def readInteger (want : String) : Reader σ Error Int := do
  let c ← Mode.readByte
  if c ≤ posFixintMax then return c.toNat
  else if negFixintMin ≤ c then return signed 1 c.toNat
  else if c = nilByte then return 0
  else if c = uint8Byte then return (← Mode.readFixed 1 : Nat)
  else if c = uint16Byte then return (← Mode.readFixed 2 : Nat)
  else if c = uint32Byte then return (← Mode.readFixed 4 : Nat)
  else if c = uint64Byte then return (← Mode.readFixed 8 : Nat)
  else if c = int8Byte then return signed 1 (← Mode.readFixed 1)
  else if c = int16Byte then return signed 2 (← Mode.readFixed 2)
  else if c = int32Byte then return signed 4 (← Mode.readFixed 4)
  else if c = int64Byte then return signed 8 (← Mode.readFixed 8)
  else throw (.type want c)

def readUint (limit : Nat) : Reader σ Error Nat := do
  let v ← readInteger "unsigned integer"
  if v < 0 then throw (.negative v)
  else if limit < v.toNat then throw (.overflow v.toNat limit)
  else return v.toNat

def readInt (lo hi : Int) : Reader σ Error Int := do
  let v ← readInteger "signed integer"
  if 2 ^ 63 - 1 < v then throw (.overflowSigned v.toNat)
  else if v < lo ∨ hi < v then throw (.outside v lo hi)
  else return v

def readBool : Reader σ Error Bool := do
  let c ← Mode.readByte
  if c = trueByte ∨ c = 1 then return true
  else if c = falseByte ∨ c = 0 ∨ c = nilByte then return false
  else throw (.type "bool" c)

/-- What is left of a value to skip after its format byte: a payload of bytes, or
    a number of elements. -/
inductive Body where
  | payload (n : Nat)
  | elements (n : Nat)

/-- The format byte of a value to skip, with the length that follows it. -/
def skipHeader (c : UInt8) : Reader σ Error Body := do
  if c ≤ posFixintMax ∨ negFixintMin ≤ c ∨ c = nilByte ∨ c = falseByte ∨ c = trueByte then return .payload 0
  else if fixmapMin ≤ c ∧ c ≤ fixmapMax then return .elements (2 * (c &&& 0x0f).toNat)
  else if fixarrayMin ≤ c ∧ c ≤ fixarrayMax then return .elements (c &&& 0x0f).toNat
  else if fixstrMin ≤ c ∧ c ≤ fixstrMax then return .payload (c &&& 0x1f).toNat
  else if c = uint8Byte ∨ c = int8Byte then return .payload 1
  else if c = uint16Byte ∨ c = int16Byte then return .payload 2
  else if c = uint32Byte ∨ c = int32Byte ∨ c = float32Byte then return .payload 4
  else if c = uint64Byte ∨ c = int64Byte ∨ c = float64Byte then return .payload 8
  else if fixext1 ≤ c ∧ c ≤ fixext16 then return .payload (1 + 2 ^ (c - fixext1).toNat)
  else if c = str8 ∨ c = bin8 then return .payload (← Mode.readFixed 1)
  else if c = str16 ∨ c = bin16 then return .payload (← Mode.readFixed 2)
  else if c = str32 ∨ c = bin32 then return .payload (← Mode.readFixed 4)
  else if c = ext8 then return .payload ((← Mode.readFixed 1) + 1)
  else if c = ext16 then return .payload ((← Mode.readFixed 2) + 1)
  else if c = ext32 then return .payload ((← Mode.readFixed 4) + 1)
  else if c = array16 then return .elements (← Mode.readFixed 2)
  else if c = array32 then return .elements (← Mode.readFixed 4)
  else if c = map16 then return .elements (2 * (← Mode.readFixed 2))
  else if c = map32 then return .elements (2 * (← Mode.readFixed 4))
  else throw (.type "any value" c)

/-- `skip` with the number of nesting levels that are still allowed. -/
def skipWithin : Nat → Reader σ Error Unit
  | 0 => throw .nested
  | depth + 1 => do
    match ← skipHeader (← Mode.readByte) with
    | .payload n => Mode.discard n
    | .elements n =>
      match Mode.remaining (← get) with
      | some r => if r < n then throw .truncated else iterate (fun _ => skipWithin depth) n ()
      | none => iterate (fun _ => skipWithin depth) n ()

def skip : Reader σ Error Unit := skipWithin (maxSkipDepth + 1)

end

theorem reads_readByte (c : UInt8) : Reads readByte [c] c := fun _ => rfl

theorem reads_readInto (b : Bytes) : Reads (readInto b.length) b b := by
  intro d
  simp [readInto,Input.feed,StateT.run]

theorem reads_readFixed {n v : Nat} (fits : v < 256 ^ n) : Reads (readFixed n) (bigEndian n v) v := by
  have taken := reads_readInto (bigEndian n v)
  rw [length_bigEndian] at taken
  have read := reads_map (f := ofBigEndian) taken
  rwa [ofBigEndian_of_lt fits] at read

/-- A format byte decides how the rest is read. -/
theorem reads_format {α : Type} {f : UInt8 → Dec α} {c : UInt8} {b : Bytes} {a : α} (rest : Reads (f c) b a) :
    Reads (readByte >>= f) (c :: b) a := reads_bind (reads_readByte c) rest

theorem fixstr_byte : ∀ n < 32, (fixstrMin ≤ fixstrMin ||| UInt8.ofNat n ∧ fixstrMin ||| UInt8.ofNat n ≤ fixstrMax) ∧
    ((fixstrMin ||| UInt8.ofNat n) &&& 0x1f).toNat = n := by decide

theorem fixmap_byte : ∀ n < 16, (fixmapMin ≤ fixmapMin ||| UInt8.ofNat n ∧ fixmapMin ||| UInt8.ofNat n ≤ fixmapMax) ∧
    ((fixmapMin ||| UInt8.ofNat n) &&& 0x0f).toNat = n := by decide

theorem reads_rawLen (want : String) {n : Nat} (fits : n < 2 ^ 32) :
    Reads (rawLen want : Dec _) (appendRawHeader n) (some n) := by
  unfold appendRawHeader
  split_ifs with short medium
  · obtain ⟨inside,back⟩ := fixstr_byte n short
    refine reads_format ?_
    rw [if_pos inside,back]
    exact reads_pure _
  · exact reads_format (reads_map (reads_readFixed medium))
  · exact reads_format (reads_map (reads_readFixed fits))

theorem reads_readString {limit : Nat} {b : Bytes} (bound : b.length ≤ limit) (fits : b.length < 2 ^ 32) :
    Reads (readString limit : Dec _) (appendString b) b := by
  refine reads_bind (reads_rawLen _ fits) ?_
  by_cases empty : b.length = 0
  · rw [List.length_eq_zero_iff.mp empty]
    exact reads_pure _
  · simp only [empty,Nat.not_lt.mpr bound,if_false]
    exact reads_readInto b

theorem reads_readBytes {limit : Nat} {s : Slice} (bound : (bytes s).length ≤ limit)
    (fits : (bytes s).length < 2 ^ 32) : Reads (readBytes limit : Dec _) (appendBytes s) s := by
  cases s with
  | none => exact reads_bind (b := [nilByte]) (c := []) (reads_format (reads_pure _)) (reads_pure _)
  | some b =>
    refine reads_bind (reads_rawLen _ fits) ?_
    rw [bytes_some] at bound
    by_cases empty : b.length = 0
    · rw [List.length_eq_zero_iff.mp empty]
      exact reads_pure _
    · simp only [empty,Nat.not_lt.mpr bound,if_false]
      exact reads_map (reads_readInto b)

theorem reads_readKey {k : Bytes} (short : k.length ≤ maxKeyLen) : Reads (readKey : Dec _) (appendString k) (some k) := by
  have fits : k.length < 2 ^ 32 := Nat.lt_of_le_of_lt short (by decide)
  refine reads_bind (reads_rawLen _ fits) ?_
  simp only [Nat.not_lt.mpr short,if_false]
  exact reads_map (reads_readInto k)

theorem reads_readMapHeader {n : Nat} (few : n < 16) : Reads (readMapHeader : Dec _) (appendMapHeader n) n := by
  obtain ⟨inside,back⟩ := fixmap_byte n few
  rw [appendMapHeader,if_pos few]
  refine reads_format ?_
  rw [if_pos inside,back]
  exact reads_pure n

theorem reads_readBool (v : Bool) : Reads (readBool : Dec _) (appendBool v) v := by
  cases v
  · exact reads_format (reads_pure false)
  · exact reads_format (reads_pure true)

theorem fixint_byte : ∀ v < 128, (UInt8.ofNat v ≤ posFixintMax) ∧ (UInt8.ofNat v).toNat = v := by decide

theorem reads_readInteger_uint (want : String) {v : Nat} (fits : v < 2 ^ 64) :
    Reads (readInteger want : Dec _) (appendUint v) v := by
  unfold appendUint
  split_ifs with fixint one two four
  · obtain ⟨inside,back⟩ := fixint_byte v (by omega)
    refine reads_format ?_
    rw [if_pos inside,back]
    exact reads_pure _
  · exact reads_format (reads_map (f := fun n : Nat => (n : Int)) (reads_readFixed (n := 1) (by omega)))
  · exact reads_format (reads_map (f := fun n : Nat => (n : Int)) (reads_readFixed (by omega)))
  · exact reads_format (reads_map (f := fun n : Nat => (n : Int)) (reads_readFixed (by omega)))
  · exact reads_format (reads_map (f := fun n : Nat => (n : Int)) (reads_readFixed (by omega)))

theorem reads_readUint {v limit : Nat} (bound : v ≤ limit) (fits : v < 2 ^ 64) :
    Reads (readUint limit : Dec _) (appendUint v) v := by
  refine reads_then (reads_readInteger_uint _ fits) ?_
  simp only [Int.toNat_natCast,Nat.not_lt.mpr bound,if_false,
    show ¬ ((v : Int) < 0) from Int.not_lt.mpr (Int.natCast_nonneg v)]
  exact reads_pure v

theorem signed_unsigned {n : Nat} {v : Int} (low : -(256 ^ n / 2 : Nat) ≤ v) (high : v < (256 ^ n / 2 : Nat)) :
    unsigned n v < 256 ^ n ∧ signed n (unsigned n v) = v := by
  have even : 256 ^ n / 2 * 2 ≤ 256 ^ n := Nat.div_mul_le_self _ 2
  have cast : ((256 ^ n : Nat) : Int) = 256 ^ n := by norm_num
  unfold signed unsigned
  rw [← cast]
  generalize 256 ^ n = size at *
  by_cases negative : v < 0
  · have wrapped : v % (size : Int) = v + size := by
      rw [← Int.add_emod_right,Int.emod_eq_of_lt (by omega) (by omega)]
    rw [wrapped]
    split_ifs <;> omega
  · rw [Int.emod_eq_of_lt (by omega) (by omega)]
    split_ifs <;> omega

theorem negative_byte {v : Int} (low : -32 ≤ v) (high : v < 0) :
    ¬ UInt8.ofNat (unsigned 1 v) ≤ posFixintMax ∧ negFixintMin ≤ UInt8.ofNat (unsigned 1 v) := by
  have wrapped : unsigned 1 v = (v + 256).toNat := by
    simp only [unsigned,pow_one]
    rw [← Int.add_emod_right,Int.emod_eq_of_lt (by omega) (by omega)]
  have value : (UInt8.ofNat (unsigned 1 v)).toNat = (v + 256).toNat := by
    rw [wrapped]
    exact UInt8.toNat_ofNat_of_lt' (by simp only [UInt8.size]; omega)
  simp only [UInt8.le_iff_toNat_le,value,posFixintMax,negFixintMin,UInt8.reduceToNat]
  omega

theorem positive_byte {v : Int} (low : 0 ≤ v) (high : v ≤ 127) :
    UInt8.ofNat (unsigned 1 v) ≤ posFixintMax ∧ unsigned 1 v = v.toNat := by
  have same : unsigned 1 v = v.toNat := by
    simp only [unsigned,pow_one]
    rw [Int.emod_eq_of_lt (by omega) (by omega)]
  have value : (UInt8.ofNat (unsigned 1 v)).toNat = v.toNat := by
    rw [same]
    exact UInt8.toNat_ofNat_of_lt' (by simp only [UInt8.size]; omega)
  refine ⟨?_,same⟩
  rw [UInt8.le_iff_toNat_le,value]
  simp only [posFixintMax,UInt8.reduceToNat]
  omega

/-- The one-byte integers, from -32 to 127. -/
theorem reads_readInteger_byte (want : String) {v : Int} (low : -32 ≤ v) (high : v ≤ 127) :
    Reads (readInteger want : Dec _) [UInt8.ofNat (unsigned 1 v)] v := by
  obtain ⟨fits,back⟩ := signed_unsigned (n := 1) (v := v) (by norm_num; omega) (by norm_num; omega)
  have value : (UInt8.ofNat (unsigned 1 v)).toNat = unsigned 1 v := UInt8.toNat_ofNat_of_lt' fits
  refine reads_format ?_
  by_cases negative : v < 0
  · obtain ⟨above,top⟩ := negative_byte low negative
    rw [if_neg above,if_pos top,value,back]
    exact reads_pure v
  · obtain ⟨below,same⟩ := positive_byte (Int.not_lt.mp negative) high
    rw [if_pos below,value,same,Int.toNat_of_nonneg (by omega)]
    exact reads_pure v

theorem reads_readInteger_int (want : String) {v : Int} (low : -2 ^ 63 ≤ v) (high : v < 2 ^ 63) :
    Reads (readInteger want : Dec _) (appendInt v) v := by
  -- Every format wider than a byte reads its two's complement back.
  have wide : ∀ {n : Nat} {c : UInt8}, -(256 ^ n / 2 : Nat) ≤ v → v < (256 ^ n / 2 : Nat) →
      (∀ b, Reads (readFixed n >>= fun u => pure (signed n u)) b v →
        Reads (readInteger want : Dec _) (c :: b) v) → Reads (readInteger want : Dec _) (c :: bigEndian n (unsigned n v)) v := by
    intro n c lower upper format
    obtain ⟨fits,back⟩ := signed_unsigned lower upper
    have read := reads_map (f := signed n) (reads_readFixed fits)
    rw [back] at read
    exact format _ read
  unfold appendInt
  split_ifs with positive two four fixint one two' four'
  · exact wide (n := 2) (by norm_num; omega) (by norm_num; omega) (fun _ read => reads_format read)
  · exact wide (n := 4) (by norm_num; omega) (by norm_num; omega) (fun _ read => reads_format read)
  · exact wide (n := 8) (by norm_num; omega) (by norm_num; omega) (fun _ read => reads_format read)
  · exact reads_readInteger_byte want fixint (by omega)
  · exact wide (n := 1) (by norm_num; omega) (by norm_num; omega) (fun _ read => reads_format read)
  · exact wide (n := 2) (by norm_num; omega) (by norm_num; omega) (fun _ read => reads_format read)
  · exact wide (n := 4) (by norm_num; omega) (by norm_num; omega) (fun _ read => reads_format read)
  · exact wide (n := 8) (by norm_num; omega) (by norm_num; omega) (fun _ read => reads_format read)

theorem reads_readInt {v lo hi : Int} (low : lo ≤ v) (high : v ≤ hi) (lower : -2 ^ 63 ≤ v) (upper : v < 2 ^ 63) :
    Reads (readInt lo hi : Dec _) (appendInt v) v := by
  refine reads_then (reads_readInteger_int _ lower upper) ?_
  have small : ¬ (2 ^ 63 - 1 < v) := by omega
  have inside : ¬ (v < lo ∨ hi < v) := by omega
  rw [if_neg small,if_neg inside]
  exact reads_pure v

theorem reads_discard (b : Bytes) : Reads (discard b.length) b () := reads_map (reads_readInto b)

/-- A value that holds no other values is skipped with its payload, at any depth. -/
theorem reads_skipWithin {depth : Nat} {c : UInt8} (header payload : Bytes)
    (head : Reads (skipHeader c : Dec _) header (.payload payload.length)) :
    Reads (skipWithin (depth + 1) : Dec _) (c :: (header ++ payload)) () :=
  reads_format (reads_bind head (reads_discard payload))

theorem reads_skip {c : UInt8} (header payload : Bytes)
    (head : Reads (skipHeader c : Dec _) header (.payload payload.length)) :
    Reads (skip : Dec _) (c :: (header ++ payload)) () :=
  reads_skipWithin header payload head

theorem reads_skip_single {c : UInt8}
    (single : c ≤ posFixintMax ∨ negFixintMin ≤ c ∨ c = nilByte ∨ c = falseByte ∨ c = trueByte) :
    Reads (skip : Dec _) [c] () := by
  refine reads_skip [] [] ?_
  rw [skipHeader,if_pos single]
  exact reads_pure _

/-- A number is skipped with its `n` bytes. -/
theorem reads_skip_fixed {c : UInt8} {n v : Nat} (format : (skipHeader c : Dec _) = pure (.payload n)) :
    Reads (skip : Dec _) (c :: bigEndian n v) () := by
  refine reads_skip [] _ ?_
  rw [format,length_bigEndian]
  exact reads_pure _

theorem reads_skip_uint (v : Nat) : Reads (skip : Dec _) (appendUint v) () := by
  unfold appendUint
  split_ifs with fixint one two four
  · exact reads_skip_single (.inl (fixint_byte v (by omega)).1)
  · exact reads_skip_fixed (n := 1) rfl
  · exact reads_skip_fixed rfl
  · exact reads_skip_fixed rfl
  · exact reads_skip_fixed rfl

theorem reads_skip_int (v : Int) : Reads (skip : Dec _) (appendInt v) () := by
  unfold appendInt
  split_ifs with positive two four fixint one two' four'
  · exact reads_skip_fixed rfl
  · exact reads_skip_fixed rfl
  · exact reads_skip_fixed rfl
  · by_cases negative : v < 0
    · exact reads_skip_single (.inr (.inl (negative_byte fixint negative).2))
    · exact reads_skip_single (.inl (positive_byte (Int.not_lt.mp negative) (by omega)).1)
  · exact reads_skip_fixed (n := 1) rfl
  · exact reads_skip_fixed rfl
  · exact reads_skip_fixed rfl
  · exact reads_skip_fixed rfl

theorem reads_skip_bool (v : Bool) : Reads (skip : Dec _) (appendBool v) () := by
  cases v
  · exact reads_skip_single (by decide)
  · exact reads_skip_single (by decide)

theorem skipHeader_fixstr : ∀ n < 32, (skipHeader (fixstrMin ||| UInt8.ofNat n) : Dec _) = pure (.payload n) := by
  intro n short
  have tests : ∀ n < 32, ¬ (fixstrMin ||| UInt8.ofNat n ≤ posFixintMax ∨ negFixintMin ≤ fixstrMin ||| UInt8.ofNat n ∨
      fixstrMin ||| UInt8.ofNat n = nilByte ∨ fixstrMin ||| UInt8.ofNat n = falseByte ∨
      fixstrMin ||| UInt8.ofNat n = trueByte) ∧
      ¬ (fixmapMin ≤ fixstrMin ||| UInt8.ofNat n ∧ fixstrMin ||| UInt8.ofNat n ≤ fixmapMax) ∧
      ¬ (fixarrayMin ≤ fixstrMin ||| UInt8.ofNat n ∧ fixstrMin ||| UInt8.ofNat n ≤ fixarrayMax) := by decide
  obtain ⟨single,map,array⟩ := tests n short
  obtain ⟨inside,back⟩ := fixstr_byte n short
  rw [skipHeader,if_neg single,if_neg map,if_neg array,if_pos inside,back]

theorem reads_skip_string {b : Bytes} (fits : b.length < 2 ^ 32) : Reads (skip : Dec _) (appendString b) () := by
  unfold appendString appendRawHeader
  split_ifs with short medium
  · refine reads_skip [] _ ?_
    rw [skipHeader_fixstr b.length short]
    exact reads_pure _
  · exact reads_skip _ _ (reads_map (reads_readFixed medium))
  · exact reads_skip _ _ (reads_map (reads_readFixed fits))

theorem reads_skip_bytes {s : Slice} (fits : (bytes s).length < 2 ^ 32) : Reads (skip : Dec _) (appendBytes s) () := by
  cases s with
  | none => exact reads_skip_single (by decide)
  | some b => exact reads_skip_string fits

theorem yields_readInto (n : Nat) : Yields (readInto n) (fun b => b.length = n) := by
  intro d b d' done
  simp only [readInto,StateT.run] at done
  split_ifs at done with short
  cases done
  exact List.length_take_of_le (Nat.not_lt.mp short)

theorem yields_readString (limit : Nat) : Yields (readString limit : Dec _) (fun b => b.length ≤ limit) := by
  refine yields_after ?_
  rintro (_ | n)
  · exact yields_pure (Nat.zero_le _)
  · by_cases empty : n = 0
    · simp only [empty,if_true]
      exact yields_pure (Nat.zero_le _)
    · by_cases long : limit < n
      · simp only [empty,long,if_true,if_false]
        exact yields_throw _
      · simp only [empty,long,if_false]
        exact yields_mono (yields_readInto n) (fun b same => same ▸ Nat.not_lt.mp long)

theorem yields_readBytes (limit : Nat) : Yields (readBytes limit : Dec _) (fun s => (bytes s).length ≤ limit) := by
  refine yields_after ?_
  rintro (_ | n)
  · exact yields_pure (Nat.zero_le _)
  · by_cases long : limit < n
    · simp only [long,if_true]
      exact yields_throw _
    · by_cases empty : n = 0
      · simp only [empty,Nat.not_lt_zero,if_true,if_false]
        exact yields_pure (Nat.zero_le _)
      · simp only [empty,long,if_false]
        exact yields_bind (yields_readInto n) (fun b same => yields_pure (same.le.trans (Nat.not_lt.mp long)))

theorem yields_readInt (lo hi : Int) : Yields (readInt lo hi : Dec _) (fun v => lo ≤ v ∧ v ≤ hi) := by
  refine yields_after (fun v => ?_)
  by_cases high : 2 ^ 63 - 1 < v
  · simp only [high,if_true]
    exact yields_throw _
  · by_cases out : v < lo ∨ hi < v
    · simp only [high,out,if_true,if_false]
      exact yields_throw _
    · simp only [high,out,if_false]
      exact yields_pure (by omega)

end Mori.Msgpack
