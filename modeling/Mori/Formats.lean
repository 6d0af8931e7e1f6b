import Mori.Modes

/-!
MessagePack as a grammar: which bytes are an integer, a str or bin value, the header of a
map, or a value of any kind with its containers nested to some depth. What the decoder
reads as an integer, a key or a map header is derived by the grammar and the other way
round, and it skips every value that is not nested too deep.
-/
namespace Mori.Formats
open Mori.Net Mori.Readers Mori.Msgpack Mori.Modes
set_option linter.unusedSimpArgs false

/-- The format bytes that are followed by an unsigned integer of some bytes. -/
def unsignedFormats : List (UInt8 × Nat) := [(uint8Byte,1),(uint16Byte,2),(uint32Byte,4),(uint64Byte,8)]

/-- The format bytes that are followed by a signed integer of some bytes. -/
def signedFormats : List (UInt8 × Nat) := [(int8Byte,1),(int16Byte,2),(int32Byte,4),(int64Byte,8)]

/-- The encodings of an integer. -/
inductive Integer : Bytes → Int → Prop
  | positive {c : UInt8} (format : c ≤ posFixintMax) : Integer [c] c.toNat
  | negative {c : UInt8} (format : negFixintMin ≤ c) : Integer [c] (c.toNat - 256)
  | unsigned {c : UInt8} {n : Nat} {b : Bytes} (format : (c,n) ∈ unsignedFormats) (size : b.length = n) :
      Integer (c :: b) (ofBigEndian b)
  | signed {c : UInt8} {n : Nat} {b : Bytes} (format : (c,n) ∈ signedFormats) (size : b.length = n) :
      Integer (c :: b) (signed n (ofBigEndian b))

/-- The format bytes of str and bin values that are followed by a length of some bytes. -/
def rawFormats : List (UInt8 × Nat) := [(str8,1),(bin8,1),(str16,2),(bin16,2),(str32,4),(bin32,4)]

/-- The headers of a str or bin value of some length. -/
inductive RawHeader : Bytes → Nat → Prop
  | fixed {c : UInt8} (format : fixstrMin ≤ c ∧ c ≤ fixstrMax) : RawHeader [c] (c &&& 0x1f).toNat
  | sized {c : UInt8} {n : Nat} {b : Bytes} (format : (c,n) ∈ rawFormats) (size : b.length = n) :
      RawHeader (c :: b) (ofBigEndian b)

/-- The encodings of a key of a map, which is nil or a str or bin value. -/
inductive Key : Bytes → Option Bytes → Prop
  | absent : Key [nilByte] none
  | raw {header k : Bytes} (length : RawHeader header k.length) : Key (header ++ k) (some k)

/-- The format bytes of maps that are followed by a count of some bytes. -/
def mapFormats : List (UInt8 × Nat) := [(map16,2),(map32,4)]

/-- The headers of a map with some number of entries; nil stands for an empty map. -/
inductive MapHeader : Bytes → Nat → Prop
  | absent : MapHeader [nilByte] 0
  | fixed {c : UInt8} (format : fixmapMin ≤ c ∧ c ≤ fixmapMax) : MapHeader [c] (c &&& 0x0f).toNat
  | sized {c : UInt8} {n : Nat} {b : Bytes} (format : (c,n) ∈ mapFormats) (size : b.length = n)
      (few : ofBigEndian b ≤ 2 ^ 31 - 1) : MapHeader (c :: b) (ofBigEndian b)

/-- The format bytes that are followed by some bytes: the integers, the floats and the
    extensions of fixed size, whose type is the first of these bytes. -/
def scalarFormats : List (UInt8 × Nat) :=
  unsignedFormats ++ signedFormats ++
    [(float32Byte,4),(float64Byte,8),(fixext1,2),(0xd5,3),(0xd6,5),(0xd7,9),(fixext16,17)]

/-- The format bytes of extensions that are followed by a length of some bytes. -/
def extFormats : List (UInt8 × Nat) := [(ext8,1),(ext16,2),(ext32,4)]

/-- A value that holds no others. -/
inductive Scalar : Bytes → Prop
  | single {c : UInt8} (format : c ≤ posFixintMax ∨ negFixintMin ≤ c ∨ c = nilByte ∨ c = falseByte ∨ c = trueByte) :
      Scalar [c]
  | sized {c : UInt8} {n : Nat} {b : Bytes} (format : (c,n) ∈ scalarFormats) (size : b.length = n) : Scalar (c :: b)
  | raw {header b : Bytes} (length : RawHeader header b.length) : Scalar (header ++ b)
  | ext {c : UInt8} {n : Nat} {length b : Bytes} (format : (c,n) ∈ extFormats) (size : length.length = n)
      (payload : b.length = ofBigEndian length + 1) : Scalar (c :: (length ++ b))

/-- The format bytes of containers that are followed by a count of some bytes, with how many
    values are to each of what is counted. -/
def containerFormats : List (UInt8 × Nat × Nat) := [(array16,2,1),(array32,4,1),(map16,2,2),(map32,4,2)]

/-- The headers of an array or a map that holds some number of values, two to each entry of
    a map. -/
inductive ContainerHeader : Bytes → Nat → Prop
  | fixmap {c : UInt8} (format : fixmapMin ≤ c ∧ c ≤ fixmapMax) : ContainerHeader [c] (2 * (c &&& 0x0f).toNat)
  | fixarray {c : UInt8} (format : fixarrayMin ≤ c ∧ c ≤ fixarrayMax) : ContainerHeader [c] (c &&& 0x0f).toNat
  | sized {c : UInt8} {n each : Nat} {b : Bytes} (format : (c,n,each) ∈ containerFormats) (size : b.length = n) :
      ContainerHeader (c :: b) (each * ofBigEndian b)

/-- A value with containers nested at most `depth` deep. -/
inductive Value : Nat → Bytes → Prop
  | scalar {depth : Nat} {b : Bytes} (scalar : Scalar b) : Value depth b
  | container {depth : Nat} {header : Bytes} {values : List Bytes} (count : ContainerHeader header values.length)
      (each : ∀ v ∈ values, Value depth v) : Value (depth + 1) (header ++ values.flatten)

theorem derives_readByte : Derives readByte (fun b c => b = [c]) := by
  rintro ⟨streaming,_ | ⟨c,rest⟩⟩ c' d' done
  · cases done
  · cases done
    exact ⟨[c],rfl,rfl⟩

theorem derives_readInto (n : Nat) : Derives (readInto n) (fun b a => b = a ∧ b.length = n) := by
  intro d a d' done
  have length := yields_readInto n d a d' done
  simp only [readInto,StateT.run] at done
  split_ifs at done
  cases done
  refine ⟨d.input.take n,?_,rfl,length⟩
  simp only [Input.feed,List.take_append_drop]

theorem derives_readFixed (n : Nat) : Derives (readFixed n) (fun b v => b.length = n ∧ v = ofBigEndian b) := by
  refine derives_bind (derives_readInto n) (fun b a taken => derives_pure ?_)
  rw [List.append_nil,← taken.1]
  exact ⟨taken.2,rfl⟩

section
variable {α : Type} {G : Bytes → α → Prop}

/-- A format byte decides how the rest is derived. -/
theorem derives_format {f : UInt8 → Dec α} (rest : ∀ c, Derives (f c) (fun b a => G (c :: b) a)) :
    Derives (readByte >>= f) G := by
  refine derives_bind derives_readByte (fun b c same => ?_)
  rw [same]
  exact rest c

/-- A number of `n` bytes. -/
theorem derives_fixed {f : Nat → α} {n : Nat} (holds : ∀ b, b.length = n → G b (f (ofBigEndian b))) :
    Derives (readFixed n >>= fun v => pure (f v)) G := by
  refine derives_bind (derives_readFixed n) ?_
  rintro b v ⟨length,rfl⟩
  refine derives_pure ?_
  rw [List.append_nil]
  exact holds b length

end

/-- What `readInteger` reads: nil counts as 0. -/
def IntegerOrNil (b : Bytes) (v : Int) : Prop := b = [nilByte] ∧ v = 0 ∨ Integer b v

theorem signed_fixint {c : UInt8} (format : negFixintMin ≤ c) : signed 1 c.toNat = c.toNat - 256 := by
  have large : ¬ c.toNat < 256 ^ 1 / 2 := by
    rw [UInt8.le_iff_toNat_le] at format
    simp only [negFixintMin,UInt8.reduceToNat] at format
    omega
  rw [signed,if_neg large]
  norm_num

theorem derives_readInteger (want : String) : Derives (readInteger want : Dec _) IntegerOrNil := by
  refine derives_format (fun c => ?_)
  refine derives_ite (fun format => derives_pure (.inr (.positive format))) (fun _ => ?_)
  refine derives_ite (fun format => derives_pure (.inr ?_)) (fun _ => ?_)
  · rw [signed_fixint format]
    exact .negative format
  refine derives_ite (fun format => derives_pure (.inl ⟨by rw [format],rfl⟩)) (fun _ => ?_)
  have unsigned : ∀ {n}, (c,n) ∈ unsignedFormats →
      Derives (readFixed n >>= fun v => pure (v : Int)) (fun b a => IntegerOrNil (c :: b) a) := by
    intro n format
    exact derives_fixed (fun b size => .inr (.unsigned format size))
  have signed : ∀ {n}, (c,n) ∈ signedFormats →
      Derives (readFixed n >>= fun v => pure (signed n v)) (fun b a => IntegerOrNil (c :: b) a) := by
    intro n format
    exact derives_fixed (fun b size => .inr (.signed format size))
  refine derives_ite (fun format => unsigned (by simp [format,unsignedFormats])) (fun _ => ?_)
  refine derives_ite (fun format => unsigned (by simp [format,unsignedFormats])) (fun _ => ?_)
  refine derives_ite (fun format => unsigned (by simp [format,unsignedFormats])) (fun _ => ?_)
  refine derives_ite (fun format => unsigned (by simp [format,unsignedFormats])) (fun _ => ?_)
  refine derives_ite (fun format => signed (by simp [format,signedFormats])) (fun _ => ?_)
  refine derives_ite (fun format => signed (by simp [format,signedFormats])) (fun _ => ?_)
  refine derives_ite (fun format => signed (by simp [format,signedFormats])) (fun _ => ?_)
  exact derives_ite (fun format => signed (by simp [format,signedFormats])) (fun _ => derives_throw _)

/-- The header of a str or bin value, or nil. -/
def RawOrNil (b : Bytes) : Option Nat → Prop
  | none => b = [nilByte]
  | some n => RawHeader b n

theorem derives_rawLen (want : String) : Derives (rawLen want : Dec _) RawOrNil := by
  refine derives_format (fun c => ?_)
  refine derives_ite (fun format => derives_pure (.fixed format)) (fun _ => ?_)
  refine derives_ite (fun format => derives_pure ?_) (fun _ => ?_)
  · rw [format]
    rfl
  have sized : ∀ {n}, (c,n) ∈ rawFormats →
      Derives (readFixed n >>= fun v => pure (some v)) (fun b a => RawOrNil (c :: b) a) := by
    intro n format
    exact derives_fixed (fun b size => RawHeader.sized format size)
  refine derives_ite (fun format => sized ?_) (fun _ => ?_)
  · rcases format with format | format <;> simp [format,rawFormats]
  refine derives_ite (fun format => sized ?_) (fun _ => ?_)
  · rcases format with format | format <;> simp [format,rawFormats]
  refine derives_ite (fun format => sized ?_) (fun _ => derives_throw _)
  · rcases format with format | format <;> simp [format,rawFormats]

/-- A key as it is returned: one that is too long to be a field name is not. -/
def shortKey : Option Bytes → Option Bytes
  | none => none
  | some k => if maxKeyLen < k.length then none else some k

theorem derives_readKey : Derives (readKey : Dec _) (fun b r => ∃ k, Key b k ∧ r = shortKey k) := by
  refine derives_bind (derives_rawLen _) ?_
  rintro header (_ | n) length
  · refine derives_pure ⟨none,?_,rfl⟩
    rw [show header = [nilByte] from length]
    exact .absent
  · refine derives_ite (fun long => ?_) (fun short => ?_)
    · refine derives_bind (G := fun b _ => b.length = n) ?_ ?_
      · refine derives_bind (derives_readInto n) (fun b a taken => derives_pure ?_)
        rw [List.append_nil]
        exact taken.2
      · rintro b _ rfl
        refine derives_pure ⟨some b,?_,?_⟩
        · rw [List.append_nil]
          exact .raw length
        · simp only [shortKey,if_pos long]
    · refine derives_bind (derives_readInto n) ?_
      rintro b a ⟨rfl,rfl⟩
      refine derives_pure ⟨some b,?_,?_⟩
      · rw [List.append_nil]
        exact .raw length
      · simp only [shortKey,if_neg short]

theorem derives_checkMapCount (n : Nat) :
    Derives (checkMapCount n : Dec _) (fun b m => b = [] ∧ m = n ∧ n ≤ 2 ^ 31 - 1) := by
  intro d m d' done
  unfold checkMapCount at done
  by_cases large : 2 ^ 31 - 1 < n
  · simp only [large,if_true] at done
    cases done
  · simp only [large,if_false] at done
    obtain ⟨_,_,got,rest⟩ := bind_ok.mp done
    cases got
    split at rest
    · split_ifs at rest
      · cases rest
      · cases rest
        exact ⟨[],rfl,rfl,rfl,Nat.not_lt.mp large⟩
    · cases rest
      exact ⟨[],rfl,rfl,rfl,Nat.not_lt.mp large⟩

theorem derives_readMapHeader : Derives (readMapHeader : Dec _) MapHeader := by
  refine derives_format (fun c => ?_)
  refine derives_ite (fun format => derives_pure (.fixed format)) (fun _ => ?_)
  refine derives_ite (fun format => derives_pure ?_) (fun _ => ?_)
  · rw [format]
    exact .absent
  have sized : ∀ {n}, (c,n) ∈ mapFormats →
      Derives (readFixed n >>= fun v => checkMapCount v) (fun b m => MapHeader (c :: b) m) := by
    intro n format
    refine derives_bind (derives_readFixed n) ?_
    rintro b v ⟨size,rfl⟩ d m d' done
    obtain ⟨_,same,rfl,rfl,few⟩ := derives_checkMapCount _ d m d' done
    refine ⟨[],same,?_⟩
    dsimp only
    rw [List.append_nil]
    exact .sized format size few
  refine derives_ite (fun format => sized (by simp [format,mapFormats])) (fun _ => ?_)
  exact derives_ite (fun format => sized (by simp [format,mapFormats])) (fun _ => derives_throw _)

theorem reads_fixed {b : Bytes} {n : Nat} (size : b.length = n) : Reads (readFixed n) b (ofBigEndian b) := by
  rw [← size]
  exact reads_map (reads_readInto b)

theorem reads_readInteger {b : Bytes} {v : Int} (derived : IntegerOrNil b v) (want : String) :
    Reads (readInteger want : Dec _) b v := by
  rcases derived with ⟨rfl,rfl⟩ | integer
  · exact reads_format (reads_pure 0)
  cases integer with
  | positive format =>
    refine reads_format ?_
    rw [if_pos format]
    exact reads_pure _
  | negative format =>
    have large := format
    rw [UInt8.le_iff_toNat_le] at large
    refine reads_format ?_
    rw [if_neg (fun small => ?_),if_pos format,signed_fixint format]
    · exact reads_pure _
    · rw [UInt8.le_iff_toNat_le] at small
      simp only [negFixintMin,posFixintMax,UInt8.reduceToNat] at large small
      omega
  | unsigned format size =>
    simp only [unsignedFormats,List.mem_cons,List.not_mem_nil,or_false,Prod.mk.injEq] at format
    rcases format with ⟨rfl,rfl⟩ | ⟨rfl,rfl⟩ | ⟨rfl,rfl⟩ | ⟨rfl,rfl⟩ <;>
      exact reads_format (reads_map (f := fun n : Nat => (n : Int)) (reads_fixed size))
  | signed format size =>
    simp only [signedFormats,List.mem_cons,List.not_mem_nil,or_false,Prod.mk.injEq] at format
    rcases format with ⟨rfl,rfl⟩ | ⟨rfl,rfl⟩ | ⟨rfl,rfl⟩ | ⟨rfl,rfl⟩ <;>
      exact reads_format (reads_map (reads_fixed size))

theorem reads_rawHeader {b : Bytes} {n : Nat} (header : RawHeader b n) (want : String) :
    Reads (rawLen want : Dec _) b (some n) := by
  cases header with
  | fixed format =>
    refine reads_format ?_
    rw [if_pos format]
    exact reads_pure _
  | sized format size =>
    simp only [rawFormats,List.mem_cons,List.not_mem_nil,or_false,Prod.mk.injEq] at format
    rcases format with ⟨rfl,rfl⟩ | ⟨rfl,rfl⟩ | ⟨rfl,rfl⟩ | ⟨rfl,rfl⟩ | ⟨rfl,rfl⟩ | ⟨rfl,rfl⟩ <;>
      exact reads_format (reads_map (reads_fixed size))

theorem reads_key {b : Bytes} {k : Option Bytes} (key : Key b k) : Reads (readKey : Dec _) b (shortKey k) := by
  cases key with
  | absent => exact reads_bind (b := [nilByte]) (c := []) (reads_format (reads_pure _)) (reads_pure _)
  | @raw header k length =>
    refine reads_bind (reads_rawHeader length _) ?_
    simp only [shortKey]
    by_cases long : maxKeyLen < k.length
    · rw [if_pos long,if_pos long]
      exact reads_map (reads_discard k)
    · rw [if_neg long,if_neg long]
      exact reads_map (reads_readInto k)

/-- The header of a map is read where two bytes are left for each of its entries. -/
theorem run_mapHeader {b : Bytes} {n : Nat} (header : MapHeader b n) {d : Decoder} (enough : n * 2 ≤ d.input.length) :
    (readMapHeader : Dec _).run (Input.feed b d) = .ok (n,d) := by
  have checked : ∀ n, n * 2 ≤ d.input.length → n ≤ 2 ^ 31 - 1 → (checkMapCount n : Dec _).run d = .ok (n,d) := by
    intro n enough few
    unfold checkMapCount
    simp only [if_neg (Nat.not_lt.mpr few)]
    refine bind_ok.mpr ⟨d,d,rfl,?_⟩
    split
    · next r known =>
      have length : r = d.input.length := LawfulMode.remaining d r known
      rw [if_neg (by omega)]
      rfl
    · rfl
  cases header with
  | absent => rfl
  | @fixed c format =>
    refine bind_ok.mpr ⟨c,d,rfl,?_⟩
    rw [if_pos format]
    rfl
  | @sized c n b format size few =>
    refine bind_ok.mpr ⟨c,Input.feed b d,rfl,?_⟩
    simp only [mapFormats,List.mem_cons,List.not_mem_nil,or_false,Prod.mk.injEq] at format
    rcases format with ⟨rfl,rfl⟩ | ⟨rfl,rfl⟩ <;>
      exact bind_ok.mpr ⟨_,d,reads_fixed size d,checked _ enough few⟩

/-- The format bytes from fixmap to fixstr stand for no value of one byte. -/
theorem not_single {c : UInt8} (low : fixmapMin ≤ c) (high : c ≤ fixstrMax) :
    ¬ (c ≤ posFixintMax ∨ negFixintMin ≤ c ∨ c = nilByte ∨ c = falseByte ∨ c = trueByte) := by
  simp only [UInt8.le_iff_toNat_le,← UInt8.toNat_inj,posFixintMax,negFixintMin,nilByte,falseByte,trueByte,fixmapMin,
    fixstrMax,UInt8.reduceToNat] at *
  omega

theorem skipHeader_fixmap {c : UInt8} (format : fixmapMin ≤ c ∧ c ≤ fixmapMax) :
    (skipHeader c : Dec _) = pure (.elements (2 * (c &&& 0x0f).toNat)) := by
  have high : c ≤ fixstrMax := UInt8.le_trans format.2 (by decide)
  rw [skipHeader,if_neg (not_single format.1 high),if_pos format]

theorem skipHeader_fixarray {c : UInt8} (format : fixarrayMin ≤ c ∧ c ≤ fixarrayMax) :
    (skipHeader c : Dec _) = pure (.elements (c &&& 0x0f).toNat) := by
  have low : fixmapMin ≤ c := UInt8.le_trans (by decide) format.1
  have high : c ≤ fixstrMax := UInt8.le_trans format.2 (by decide)
  have above : ¬ (fixmapMin ≤ c ∧ c ≤ fixmapMax) := by
    rintro ⟨-,wrong⟩
    exact absurd (UInt8.le_trans format.1 wrong) (by decide)
  rw [skipHeader,if_neg (not_single low high),if_neg above,if_pos format]

theorem skipHeader_fixstr_byte {c : UInt8} (format : fixstrMin ≤ c ∧ c ≤ fixstrMax) :
    (skipHeader c : Dec _) = pure (.payload (c &&& 0x1f).toNat) := by
  have low : fixmapMin ≤ c := UInt8.le_trans (by decide) format.1
  have aboveMap : ¬ (fixmapMin ≤ c ∧ c ≤ fixmapMax) := by
    rintro ⟨-,wrong⟩
    exact absurd (UInt8.le_trans format.1 wrong) (by decide)
  have aboveArray : ¬ (fixarrayMin ≤ c ∧ c ≤ fixarrayMax) := by
    rintro ⟨-,wrong⟩
    exact absurd (UInt8.le_trans format.1 wrong) (by decide)
  rw [skipHeader,if_neg (not_single low format.2),if_neg aboveMap,if_neg aboveArray,if_pos format]

theorem skipHeader_scalar {c : UInt8} {n : Nat} (format : (c,n) ∈ scalarFormats) :
    (skipHeader c : Dec _) = pure (.payload n) := by
  simp only [scalarFormats,unsignedFormats,signedFormats,List.cons_append,List.nil_append,List.mem_cons,
    List.not_mem_nil,or_false,Prod.mk.injEq] at format
  rcases format with ⟨rfl,rfl⟩ | ⟨rfl,rfl⟩ | ⟨rfl,rfl⟩ | ⟨rfl,rfl⟩ | ⟨rfl,rfl⟩ | ⟨rfl,rfl⟩ | ⟨rfl,rfl⟩ | ⟨rfl,rfl⟩ |
    ⟨rfl,rfl⟩ | ⟨rfl,rfl⟩ | ⟨rfl,rfl⟩ | ⟨rfl,rfl⟩ | ⟨rfl,rfl⟩ | ⟨rfl,rfl⟩ | ⟨rfl,rfl⟩ <;> rfl

theorem reads_scalar {depth : Nat} {b : Bytes} (scalar : Scalar b) : Reads (skipWithin (depth + 1) : Dec _) b () := by
  cases scalar with
  | single format =>
    refine reads_skipWithin [] [] ?_
    rw [skipHeader,if_pos format]
    exact reads_pure _
  | sized format size =>
    refine reads_skipWithin [] _ ?_
    rw [skipHeader_scalar format,size]
    exact reads_pure _
  | @raw header b length =>
    generalize size : b.length = n at length
    cases length with
    | fixed format =>
      refine reads_skipWithin [] b ?_
      rw [skipHeader_fixstr_byte format,size]
      exact reads_pure _
    | sized format counted =>
      refine reads_skipWithin _ b ?_
      rw [size]
      simp only [rawFormats,List.mem_cons,List.not_mem_nil,or_false,Prod.mk.injEq] at format
      rcases format with ⟨rfl,rfl⟩ | ⟨rfl,rfl⟩ | ⟨rfl,rfl⟩ | ⟨rfl,rfl⟩ | ⟨rfl,rfl⟩ | ⟨rfl,rfl⟩ <;>
        exact reads_map (reads_fixed counted)
  | ext format size payload =>
    refine reads_skipWithin _ _ ?_
    rw [payload]
    simp only [extFormats,List.mem_cons,List.not_mem_nil,or_false,Prod.mk.injEq] at format
    rcases format with ⟨rfl,rfl⟩ | ⟨rfl,rfl⟩ | ⟨rfl,rfl⟩ <;>
      exact reads_map (f := fun n => Body.payload (n + 1)) (reads_fixed size)

theorem reads_containerHeader {b : Bytes} {n : Nat} (header : ContainerHeader b n) :
    ∃ c rest, b = c :: rest ∧ Reads (skipHeader c : Dec _) rest (.elements n) := by
  cases header with
  | fixmap format =>
    refine ⟨_,[],rfl,?_⟩
    rw [skipHeader_fixmap format]
    exact reads_pure _
  | fixarray format =>
    refine ⟨_,[],rfl,?_⟩
    rw [skipHeader_fixarray format]
    exact reads_pure _
  | sized format size =>
    refine ⟨_,_,rfl,?_⟩
    simp only [containerFormats,List.mem_cons,List.not_mem_nil,or_false,Prod.mk.injEq] at format
    rcases format with ⟨rfl,rfl,rfl⟩ | ⟨rfl,rfl,rfl⟩ | ⟨rfl,rfl,rfl⟩ | ⟨rfl,rfl,rfl⟩
    · rw [Nat.one_mul]
      exact reads_map (reads_fixed size)
    · rw [Nat.one_mul]
      exact reads_map (reads_fixed size)
    · exact reads_map (f := fun n => Body.elements (2 * n)) (reads_fixed size)
    · exact reads_map (f := fun n => Body.elements (2 * n)) (reads_fixed size)

/-- The loop over the elements of a container. -/
theorem reads_elements {depth : Nat} {values : List Bytes}
    (each : ∀ v ∈ values, Reads (skipWithin depth : Dec _) v ()) :
    Reads (iterate (fun _ => (skipWithin depth : Dec Unit)) values.length ()) values.flatten () := by
  induction values with
  | nil => exact reads_iterate_zero _ ()
  | cons v values ih =>
    refine reads_iterate_succ (each v List.mem_cons_self) (ih ?_)
    exact fun v' listed => each v' (List.mem_cons_of_mem v listed)

/-- The loop over elements takes a byte for each. -/
theorem consumes_elements (depth n : Nat) :
    Consumes n (iterate (fun _ => (skipWithin depth : Dec Unit)) n ()) := by
  have loop := twin_iterate (fun _ => twin_skipWithin (σ := Decoder) (τ := Decoder) depth) n ()
  rw [Nat.mul_one] at loop
  exact loop.left

/-- A check that `n` bytes are left passes where that many are taken. -/
theorem reads_guarded {α : Type} {n : Nat} {e : Error} {loop : Dec α} {b : Bytes} {a : α} (takes : Consumes n loop)
    (reads : Reads loop b a) :
    Reads (do
      match Mode.remaining (← get) with
      | some r => if r < n then throw e else loop
      | none => loop) b a := by
  intro d
  refine bind_ok.mpr ⟨Input.feed b d,Input.feed b d,rfl,?_⟩
  split
  · next r known =>
    have length : r = (Input.feed b d).input.length := LawfulMode.remaining _ r known
    have enough : d.input.length + n ≤ (Input.feed b d).input.length := takes _ a d (reads d)
    rw [if_neg (by omega)]
    exact reads d
  · exact reads d

/-- A value is skipped at every depth that leaves room for its containers. -/
theorem reads_value {depth : Nat} {b : Bytes} (value : Value depth b) :
    Reads (skipWithin (depth + 1) : Dec _) b () := by
  induction value with
  | scalar scalar => exact reads_scalar scalar
  | @container depth header values count each ih =>
    obtain ⟨c,rest,rfl,head⟩ := reads_containerHeader count
    exact reads_format (reads_bind head (reads_guarded (consumes_elements (depth + 1) _) (reads_elements ih)))

end Mori.Formats
