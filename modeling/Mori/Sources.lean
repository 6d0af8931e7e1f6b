import Mori.Modes

/-!
Decoding from a stream as the source does it: `io.ReadFull` into scratch buffers and
into buffers that grow with what has arrived, and `io.CopyN` for what is skipped. The
stream returns its bytes in chunks of any sizes, so that every one of these loops may
take several reads. However the bytes are split, a value is decoded as it is from a
slice that holds them, and what follows it is read from the same position.
-/
namespace Mori.Sources
open Mori.Net Mori.Readers Mori.Msgpack Mori.Wire Mori.Codecs Mori.Modes

/-- A stream: the chunks that its reads have yet to return, some perhaps empty, and
    whether its end is reported with the last of them or by a read of its own. -/
structure Source where
  chunks : List Bytes
  eofWithLast : Bool

/-- `Read` into a buffer of `n` bytes: what was read and whether `io.EOF` came with it. -/
def Source.read (src : Source) (n : Nat) : Bytes × Bool × Source :=
  match src.chunks with
  | [] => ([],true,src)
  | c :: rest =>
    if c.length ≤ n then (c,rest.isEmpty && src.eofWithLast,{ src with chunks := rest })
    else (c.take n,false,{ src with chunks := c.drop n :: rest })

/-- `ReadByte`, past empty chunks. -/
def nextOfChunks : List Bytes → Option (UInt8 × List Bytes)
  | [] => none
  | [] :: rest => nextOfChunks rest
  | (c :: cs) :: rest => some (c,cs :: rest)

/-- The loop of `io.ReadFull` into a buffer of `n` bytes, of which `got` is filled. -/
def readAtLeast (n : Nat) : Nat → Bytes → Source → Bytes × Source
  | 0,got,src => (got,src)
  | fuel + 1,got,src =>
    if got.length < n then
      match src.read (n - got.length) with
      | (p,true,src') => (got ++ p,src')
      | (p,false,src') => readAtLeast n fuel (got ++ p) src'
    else (got,src)

/-- The buffer of `io.Discard`. -/
def discardBuffer : Nat := 8192

/-- The loop of `io.CopyN` to `io.Discard`, with `n` bytes to go: how many were not there. -/
def copyDiscard : Nat → Nat → Source → Nat × Source
  | 0,n,src => (n,src)
  | fuel + 1,n,src =>
    if n = 0 then (0,src)
    else
      match src.read (min discardBuffer n) with
      | (p,true,src') => (n - p.length,src')
      | (p,false,src') => copyDiscard fuel (n - p.length) src'

/-- A decoder over a stream, with what the runtime allocates beyond the capacity it is
    asked for when a buffer grows. -/
structure StreamDecoder where
  src : Source
  slack : Nat → Nat

/-- `io.ReadFull`; a stream that ends before is truncated. -/
def readFull (n : Nat) : Reader StreamDecoder Error Bytes := fun d =>
  match readAtLeast n (d.src.chunks.length + 1) [] d.src with
  | (got,src) => if got.length < n then .error .truncated else .ok (got,{ d with src })

def readByte : Reader StreamDecoder Error UInt8 := fun d =>
  match nextOfChunks d.src.chunks with
  | none => .error .truncated
  | some (c,chunks) => .ok (c,{ d with src.chunks := chunks })

/-- The most that is allocated before the bytes have arrived. -/
def streamChunk : Nat := 64 * 2 ^ 10

/-- The capacity of a buffer of `n` bytes of which `len` are filled: once it is used up,
    `slices.Grow` asks for what is missing, but at most for as much again or a chunk. -/
def grow (slack : Nat → Nat) (n len cap : Nat) : Nat :=
  if len = cap then
    let asked := len + min (n - len) (max len streamChunk)
    asked + slack asked
  else cap

/-- The loop of `readInto`: `out` is filled, with a capacity of `cap`. -/
def fill (n : Nat) : Nat → Bytes → Nat → Reader StreamDecoder Error Bytes
  | 0,out,_ => if out.length < n then throw .truncated else return out
  | fuel + 1,out,cap => do
    if out.length < n then
      let cap' := grow (← get).slack n out.length cap
      let chunk ← readFull (min cap' n - out.length)
      fill n fuel (out ++ chunk) cap'
    else return out

def readInto (n : Nat) : Reader StreamDecoder Error Bytes := fill n n [] (min n streamChunk)

/-- `discard`. A length comes from four bytes at most, so that it fits an `int64`. -/
def discard (n : Nat) : Reader StreamDecoder Error Unit := fun d =>
  match copyDiscard (n + d.src.chunks.length + 1) n d.src with
  | (left,src) => if left = 0 then .ok ((),{ d with src }) else .error .truncated

instance : Mode StreamDecoder where
  remaining _ := none
  readByte := readByte
  readFixed n := do return ofBigEndian (← readFull n)
  readInto := readInto
  discard := discard
  readText := readInto
  readName := readFull

/-- What the stream has yet to return. -/
def Source.unread (src : Source) : Bytes := src.chunks.flatten

instance : Unread UInt8 StreamDecoder := ⟨fun d => d.src.unread⟩

/-- What a read does: it takes at most `n` bytes off the front; an end it reports is the
    end; and otherwise it has filled the buffer or used up a chunk. -/
structure ReadSpec (src : Source) (n : Nat) (p : Bytes) (eof : Bool) (src' : Source) : Prop where
  front : p ++ src'.unread = src.unread
  most : p.length ≤ n
  ended : eof = true → src'.unread = []
  progress : eof = false → src'.chunks.length ≤ src.chunks.length ∧
    (p.length = n ∨ src'.chunks.length < src.chunks.length)

theorem read_spec (src : Source) (n : Nat) :
    ReadSpec src n (src.read n).1 (src.read n).2.1 (src.read n).2.2 := by
  obtain ⟨chunks,eofWithLast⟩ := src
  cases chunks with
  | nil => exact ⟨rfl,Nat.zero_le n,fun _ => rfl,(fun wrong => by cases wrong)⟩
  | cons c rest =>
    by_cases whole : c.length ≤ n
    · simp only [Source.read,if_pos whole]
      refine ⟨rfl,whole,?_,fun _ => ⟨by simp,.inr (by simp)⟩⟩
      intro last
      simp only [Bool.and_eq_true,List.isEmpty_iff] at last
      simp [Source.unread,last.1]
    · simp only [Source.read,if_neg whole]
      refine ⟨?_,?_,(fun wrong => by cases wrong),fun _ => ⟨by simp,.inl ?_⟩⟩
      · simp only [Source.unread,List.flatten_cons,← List.append_assoc,List.take_append_drop]
      · simp
      · simp only [List.length_take]
        omega

theorem readAtLeast_spec (n fuel : Nat) (got : Bytes) (src : Source)
    (enough : src.chunks.length < fuel ∨ n ≤ got.length) (room : got.length ≤ n) :
    (readAtLeast n fuel got src).1 = got ++ src.unread.take (n - got.length) ∧
    (readAtLeast n fuel got src).2.unread = src.unread.drop (n - got.length) := by
  induction fuel generalizing got src with
  | zero =>
    have full : n - got.length = 0 := by omega
    simp [readAtLeast,full]
  | succ fuel ih =>
    by_cases more : got.length < n
    · obtain ⟨front,most,ended,progress⟩ := read_spec src (n - got.length)
      rw [readAtLeast,if_pos more]
      generalize src.read (n - got.length) = r at front most ended progress ⊢
      obtain ⟨p,eof,src'⟩ := r
      dsimp only at front most ended progress
      cases eof with
      | true =>
        rw [ended rfl,List.append_nil] at front
        subst front
        simp only [ended rfl,List.take_of_length_le most,List.drop_of_length_le most]
        exact ⟨trivial,trivial⟩
      | false =>
        obtain ⟨fewer,done⟩ := progress rfl
        have length : (got ++ p).length = got.length + p.length := List.length_append
        obtain ⟨first,second⟩ := ih (got ++ p) src' (by omega) (by omega)
        have rest : n - (got ++ p).length = n - got.length - p.length := by omega
        rw [rest] at first second
        rw [← front,List.take_append,List.drop_append,List.take_of_length_le most,List.drop_of_length_le most]
        exact ⟨first.trans (List.append_assoc _ _ _),second⟩
    · have full : n - got.length = 0 := by omega
      rw [readAtLeast,if_neg more]
      simp [full]

theorem outcome_readFull (n : Nat) (d : StreamDecoder) : outcome (readFull n) d = taken n d.src.unread := by
  obtain ⟨first,second⟩ := readAtLeast_spec n (d.src.chunks.length + 1) [] d.src (.inl (Nat.lt_succ_self _)) (Nat.zero_le n)
  rw [List.nil_append,List.length_nil,Nat.sub_zero] at first
  rw [List.length_nil,Nat.sub_zero] at second
  have run : (readFull n).run d = if (d.src.unread.take n).length < n then .error .truncated
      else .ok (d.src.unread.take n,{ d with src := (readAtLeast n (d.src.chunks.length + 1) [] d.src).2 }) := by
    rw [← first]
    rfl
  rw [List.length_take] at run
  unfold taken
  by_cases enough : n ≤ d.src.unread.length
  · rw [if_neg (by omega)] at run
    rw [if_pos enough,outcome_of_ok run,← second]
    rfl
  · rw [if_pos (by omega)] at run
    rw [if_neg enough,outcome_of_error run]

/-- Taking bytes in two parts. -/
theorem taken_add (j k : Nat) (b : Bytes) : taken (j + k) b =
    (taken j b).bind (fun first => (taken k first.2).map (fun second => (first.1 ++ second.1,second.2))) := by
  unfold taken
  by_cases enough : j ≤ b.length
  · by_cases all : j + k ≤ b.length
    · have rest : k ≤ (b.drop j).length := by rw [List.length_drop]; omega
      simp only [if_pos enough,if_pos all,Option.bind_some,if_pos rest,Option.map_some,List.take_add,List.drop_drop]
    · have rest : ¬ k ≤ (b.drop j).length := by rw [List.length_drop]; omega
      simp only [if_pos enough,if_neg all,Option.bind_some,if_neg rest,Option.map_none]
  · rw [if_neg enough,if_neg (by omega)]
    rfl

theorem length_taken {n : Nat} {b first rest : Bytes} (some : taken n b = .some (first,rest)) : first.length = n := by
  unfold taken at some
  split_ifs at some with enough
  cases some
  exact List.length_take_of_le enough

theorem lt_grow (slack : Nat → Nat) {n len cap : Nat} (more : len < n) (fits : len ≤ cap) :
    len < grow slack n len cap := by
  have chunk : 0 < streamChunk := by decide
  unfold grow
  dsimp only
  split_ifs <;> omega

theorem outcome_fill_full {n : Nat} {out : Bytes} (full : ¬ out.length < n) (fuel cap : Nat) (d : StreamDecoder) :
    outcome (fill n fuel out cap) d = (taken (n - out.length) d.src.unread).map (Prod.map (out ++ ·) id) := by
  have none : n - out.length = 0 := by omega
  have all : taken 0 d.src.unread = some ([],d.src.unread) := rfl
  rw [none,all,Option.map_some,Prod.map_apply,List.append_nil]
  cases fuel with
  | zero => rw [fill,if_neg full]; rfl
  | succ fuel => rw [fill,if_neg full]; rfl

theorem outcome_fill (n fuel : Nat) (out : Bytes) (cap : Nat) (d : StreamDecoder) (enough : n - out.length ≤ fuel)
    (room : out.length ≤ n) (fits : out.length ≤ cap) :
    outcome (fill n fuel out cap) d = (taken (n - out.length) d.src.unread).map (Prod.map (out ++ ·) id) := by
  induction fuel generalizing out cap d with
  | zero => exact outcome_fill_full (by omega) 0 cap d
  | succ fuel ih =>
    by_cases more : out.length < n
    · have bigger := lt_grow d.slack more fits
      rw [fill,if_pos more,outcome_get_bind]
      generalize grow d.slack n out.length cap = cap' at bigger ⊢
      have parts : n - out.length = (min cap' n - out.length) + (n - min cap' n) := by omega
      have read := outcome_readFull (min cap' n - out.length) d
      rw [parts,taken_add]
      cases first : taken (min cap' n - out.length) d.src.unread with
      | none =>
        obtain ⟨e,failed⟩ := outcome_eq_none.mp (read.trans first)
        exact outcome_bind_of_error failed
      | some r =>
        obtain ⟨d',done,left⟩ := outcome_eq_some.mp (read.trans first)
        have length : (out ++ r.1).length = min cap' n := by
          rw [List.length_append,length_taken first]
          omega
        refine (outcome_bind_of_ok done).trans ?_
        have rest : d'.src.unread = r.2 := left
        rw [ih (out ++ r.1) cap' d' (by omega) (by omega) (by omega),length,rest,Option.bind_some,Option.map_map]
        congr 1
        funext second
        simp [Prod.map]
    · exact outcome_fill_full more (fuel + 1) cap d

theorem outcome_readInto (n : Nat) (d : StreamDecoder) : outcome (readInto n) d = taken n d.src.unread := by
  have filled := outcome_fill n n [] (min n streamChunk) d (Nat.sub_le n _) (Nat.zero_le n) (Nat.zero_le _)
  refine filled.trans ?_
  rw [List.length_nil,Nat.sub_zero]
  cases taken n d.src.unread <;> rfl

theorem copyDiscard_spec (fuel n : Nat) (src : Source) (enough : n + src.chunks.length < fuel) :
    (copyDiscard fuel n src).1 = n - src.unread.length ∧ (copyDiscard fuel n src).2.unread = src.unread.drop n := by
  induction fuel generalizing n src with
  | zero => omega
  | succ fuel ih =>
    by_cases done : n = 0
    · simp [copyDiscard,done]
    · obtain ⟨front,most,ended,progress⟩ := read_spec src (min discardBuffer n)
      rw [copyDiscard,if_neg done]
      generalize src.read (min discardBuffer n) = r at front most ended progress ⊢
      obtain ⟨p,eof,src'⟩ := r
      dsimp only at front most ended progress
      have within : p.length ≤ n := by omega
      cases eof with
      | true =>
        rw [ended rfl,List.append_nil] at front
        subst front
        simp only [ended rfl,List.drop_of_length_le within]
        exact ⟨trivial,trivial⟩
      | false =>
        have buffer : 0 < discardBuffer := by decide
        obtain ⟨fewer,moved⟩ := progress rfl
        obtain ⟨first,second⟩ := ih (n - p.length) src' (by omega)
        rw [← front,List.drop_append,List.drop_of_length_le within,List.length_append,Nat.sub_add_eq]
        exact ⟨first,second⟩

theorem outcome_discard (n : Nat) (d : StreamDecoder) :
    outcome (discard n) d = (taken n d.src.unread).map (Prod.map (fun _ => ()) id) := by
  obtain ⟨first,second⟩ := copyDiscard_spec (n + d.src.chunks.length + 1) n d.src (Nat.lt_succ_self _)
  have run : (discard n).run d = if n - d.src.unread.length = 0 then
      .ok ((),{ d with src := (copyDiscard (n + d.src.chunks.length + 1) n d.src).2 }) else .error .truncated := by
    rw [← first]
    rfl
  unfold taken
  by_cases enough : n ≤ d.src.unread.length
  · rw [if_pos (by omega)] at run
    rw [if_pos enough,outcome_of_ok run,Option.map_some,Prod.map_apply,← second]
    rfl
  · rw [if_neg (by omega)] at run
    rw [if_neg enough,outcome_of_error run,Option.map_none]

theorem nextOfChunks_spec (chunks : List Bytes) :
    (nextOfChunks chunks).map (Prod.map id List.flatten) = nextByte chunks.flatten := by
  induction chunks with
  | nil => rfl
  | cons c rest ih =>
    cases c with
    | nil => exact ih
    | cons c cs => rfl

theorem outcome_readByte (d : StreamDecoder) : outcome readByte d = nextByte d.src.unread := by
  have next := nextOfChunks_spec d.src.chunks
  rw [Source.unread,← next]
  cases found : nextOfChunks d.src.chunks with
  | none =>
    have failed : readByte.run d = .error .truncated := by
      simp only [StateT.run,readByte,found]
    rw [outcome_of_error failed,Option.map_none]
  | some r =>
    have done : readByte.run d = .ok (r.1,{ d with src.chunks := r.2 }) := by
      simp only [StateT.run,readByte,found]
    rw [outcome_of_ok done]
    rfl

instance : LawfulMode StreamDecoder where
  remaining _ _ known := by cases known
  readByte := outcome_readByte
  readFixed n d := (outcome_map d).trans (congrArg _ (outcome_readFull n d))
  readInto := outcome_readInto
  discard := outcome_discard
  readText := outcome_readInto
  readName := outcome_readFull

/-- What decoding from a slice and from a stream have in common. -/
def Agrees {α : Type} (slice : Reader Decoder Error α) (stream : Reader StreamDecoder Error α) : Prop :=
  ∀ (b : Bytes) (d : StreamDecoder), d.src.chunks.flatten = b → ∀ (a : α) (rest : Bytes),
    (∃ d', slice.run (newDecoder b) = .ok (a,d') ∧ d'.input = rest) ↔
    ∃ d', stream.run d = .ok (a,d') ∧ d'.src.chunks.flatten = rest

theorem agrees_of_twin {α : Type} {k : Nat} {slice : Reader Decoder Error α} {stream : Reader StreamDecoder Error α}
    (twin : Twin k slice stream) : Agrees slice stream := by
  intro b d split a rest
  have same := twin.same (newDecoder b) d split.symm
  calc (∃ d', slice.run (newDecoder b) = .ok (a,d') ∧ d'.input = rest)
    _ ↔ outcome slice (newDecoder b) = some (a,rest) := outcome_eq_some.symm
    _ ↔ outcome stream d = some (a,rest) := by rw [same]
    _ ↔ ∃ d', stream.run d = .ok (a,d') ∧ d'.src.chunks.flatten = rest := outcome_eq_some

/-- Slice and stream decoding agree on every message, on skipped values and on raw
    bytes: either succeeds where the other does, with the same value and the same
    bytes left, however the stream splits its bytes into reads. -/
theorem slice_stream_agree :
    (∀ t, Agrees (decodeMsgpack t) (decodeMsgpack t)) ∧ Agrees skip skip ∧ ∀ n, Agrees (readRaw n) (readRaw n) := by
  refine ⟨?_,?_,?_⟩
  · exact fun t => agrees_of_twin (twin_decodeMsgpack t)
  · exact agrees_of_twin twin_skip
  · exact fun n => agrees_of_twin (twin_readRaw n)

end Mori.Sources
