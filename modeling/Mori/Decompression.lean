import Mori.Queue
import Mori.Sources
import Mori.Stream

/-!
Decompression under a limit (`decompressBuffer` of `util.go`). The reader returns what it
decodes in chunks of any sizes, into a buffer that is grown whenever it is full, by no more
than leads one byte past the limit; the runtime may allocate more than it is asked for.
However the output is cut and whatever is allocated, all of it is returned if it is within
the limit and none of it otherwise.
-/
namespace Mori.Decompression
open Mori.Net Mori.Wire Mori.Sources Mori.Stream
open Mori.Queue (int64 int64_of_fits)

/-- The most bytes that one allocation can have on a 64-bit platform. -/
def maxAlloc : Nat := 2 ^ 48

/-- A compress message in memory. -/
structure Message where
  compress : Compress
  fits : (bytes compress.buf).length ≤ maxAlloc

/-- The reader: what it has yet to return, and the error that it reports at the end in
    place of `io.EOF`. -/
structure LzwReader where
  src : Source
  failure : Option String

/-- The variables of the loop. No code reads `asked`: it is the capacities that the buffer
    was asked to have, the last one in front. `grown` counts the calls of `slices.Grow`. -/
structure Loop where
  out : Bytes
  cap : Nat
  reader : LzwReader
  grown : Nat
  asked : List Int

/-- What a part of an iteration comes to. -/
inductive Turn where
  | more (b : Loop)
  | returns (result : Except StreamError Bytes)
  | panics

def Turn.bind : Turn → (Loop → Turn) → Turn
  | .more b,next => next b
  | .returns result,_ => .returns result
  | .panics,_ => .panics

def tooLarge (limit : Int) : Except StreamError Bytes := .error (.decompressedTooLarge limit.toNat)

section
variable (limit : Int) (slack : Nat → Nat)

/-- `slices.Grow`, which panics on a negative number. The k-th call allocates `slack k`
    bytes more than it has to. -/
def grow (n : Int) (b : Loop) : Turn :=
  if n < 0 then .panics
  else .more { b with
    cap := if n ≤ (b.cap : Int) - b.out.length then b.cap else b.out.length + n.toNat + slack b.grown
    grown := b.grown + 1
    asked := (b.out.length + n) :: b.asked }

/-- The first half of an iteration: a full buffer is grown. -/
def makeRoom (b : Loop) : Turn :=
  if b.out.length = b.cap then
    if limit < b.out.length then .returns (tooLarge limit)
    else grow slack (min (b.cap : Int) (int64 (int64 (limit + 1) - b.out.length))) b
  else .more b

/-- What `Read` returns for the rest of the buffer. -/
def Loop.read (b : Loop) : Bytes × Bool × Source := b.reader.src.read (b.cap - b.out.length)

/-- The second half: the rest of the buffer is read into. -/
def readOnce (b : Loop) : Turn :=
  let out := b.out ++ b.read.1
  if b.read.2.1 then
    match b.reader.failure with
    | none => if limit < out.length then .returns (tooLarge limit) else .returns (.ok out)
    | some err => .returns (.error (.lzw err))
  else .more { b with out, reader.src := b.read.2.2 }

def turn (b : Loop) : Turn := (makeRoom limit slack b).bind (readOnce limit)

/-- Some iterations. -/
def turns : Nat → Loop → Turn
  | 0,b => .more b
  | n + 1,b => (turn limit slack b).bind (turns n)

/-- The capacity of the first buffer. -/
def startCap (m : Message) : Int := min (int64 (4 * (bytes m.compress.buf).length + 64)) (int64 (limit + 1))

def start (m : Message) (r : LzwReader) : Loop := ⟨[],(startCap limit m).toNat,r,0,[startCap limit m]⟩

/-- How many reads it takes at most. -/
def LzwReader.work (r : LzwReader) : Nat := r.src.unread.length + r.src.chunks.length

/-- `decompressBuffer`, with as many iterations as it takes at most (`turns_returns`). -/
def decompressBuffer (m : Message) (r : LzwReader) : Turn :=
  if m.compress.algo ≠ lzwAlgo then .returns (.error (.algorithm m.compress.algo))
  else if startCap limit m < 0 then .panics
  else turns limit slack (r.work + 1) (start limit m r)

end

/-- What may be returned when the reader gives `s` and then ends, or fails. Output past the
    limit that ends with an error is refused for the one reason or the other. -/
inductive Settled (limit : Int) (s : Bytes) : Option String → Except StreamError Bytes → Prop where
  | large {failure : Option String} (past : limit < s.length) : Settled limit s failure (tooLarge limit)
  | fails (err : String) : Settled limit s (some err) (.error (.lzw err))
  | whole (fits : (s.length : Int) ≤ limit) : Settled limit s none (.ok s)

section
variable {limit : Int} {s : Bytes} {failure : Option String} {result : Except StreamError Bytes}

theorem settled_ok_iff (settled : Settled limit s failure result) (out : Bytes) :
    result = .ok out ↔ failure = none ∧ (s.length : Int) ≤ limit ∧ s = out := by
  cases settled with
  | large past => exact iff_of_false (fun wrong => by cases wrong) (fun wrong => by omega)
  | fails err => exact iff_of_false (fun wrong => by cases wrong) (fun wrong => by cases wrong.1)
  | whole fits => exact ⟨fun same => ⟨rfl,fits,Except.ok.inj same⟩,fun same => congrArg Except.ok same.2.2⟩

/-- What is not within the limit and ended by `io.EOF` gives an error. -/
theorem settled_error (settled : Settled limit s failure result) (bad : failure ≠ none ∨ limit < s.length) :
    ∃ err, result = .error err := by
  cases settled with
  | large past => exact ⟨_,rfl⟩
  | fails err => exact ⟨_,rfl⟩
  | whole fits => exact absurd bad (by simp only [ne_eq,not_true_eq_false,false_or,not_lt]; exact fits)

end

/-- What holds whenever an iteration begins. -/
structure Filling (limit : Int) (s : Bytes) (failure : Option String) (b : Loop) : Prop where
  whole : b.out ++ b.reader.src.unread = s
  within : b.out.length ≤ b.cap
  positive : 0 < b.cap
  asked : ∀ a ∈ b.asked, a ≤ limit + 1
  failure : b.reader.failure = failure

/-- What the first half of an iteration comes to. -/
inductive Made (limit : Int) (s : Bytes) (failure : Option String) (b : Loop) : Turn → Prop where
  | large (past : limit < s.length) : Made limit s failure b (.returns (tooLarge limit))
  | room {b₁ : Loop} (filling : Filling limit s failure b₁) (room : b₁.out.length < b₁.cap) (out : b₁.out = b.out)
      (reader : b₁.reader = b.reader) : Made limit s failure b (.more b₁)

/-- What a whole iteration comes to. -/
inductive Turned (limit : Int) (s : Bytes) (failure : Option String) (b : Loop) : Turn → Prop where
  | returns {result : Except StreamError Bytes} (settled : Settled limit s failure result) :
      Turned limit s failure b (.returns result)
  | more {b' : Loop} (filling : Filling limit s failure b') (less : b'.reader.work < b.reader.work) :
      Turned limit s failure b (.more b')

section
variable {limit : Int} {slack : Nat → Nat} {s : Bytes} {failure : Option String} {b b₁ : Loop}

theorem length_whole (filling : Filling limit s failure b) : b.out.length + b.reader.src.unread.length = s.length := by
  rw [← filling.whole,List.length_append]

/-- What a full buffer within the limit is grown by: at least a byte, and not beyond the byte
    past the limit. -/
theorem growth_bounds (high : limit < 2 ^ 62) {len : Nat} (positive : 0 < len) (fits : (len : Int) ≤ limit) :
    0 < min (len : Int) (int64 (int64 (limit + 1) - len)) ∧
    len + min (len : Int) (int64 (int64 (limit + 1) - len)) ≤ limit + 1 := by
  rw [int64_of_fits (x := limit + 1) (by omega) (by omega),int64_of_fits (by omega) (by omega)]
  omega

theorem makeRoom_made (slack : Nat → Nat) (high : limit < 2 ^ 62) (filling : Filling limit s failure b) :
    Made limit s failure b (makeRoom limit slack b) := by
  have length := length_whole filling
  unfold makeRoom
  by_cases full : b.out.length = b.cap
  · rw [if_pos full]
    by_cases large : limit < b.out.length
    · rw [if_pos large]
      exact .large (by omega)
    · obtain ⟨grows,most⟩ := growth_bounds high (full ▸ filling.positive) (not_lt.mp large)
      rw [if_neg large,← full,grow]
      generalize min (b.out.length : Int) (int64 (int64 (limit + 1) - b.out.length)) = n at grows most ⊢
      -- the buffer is full, so that any growth is an allocation
      rw [if_neg (by omega),if_neg (by omega)]
      have room : b.out.length < b.out.length + n.toNat + slack b.grown := by omega
      refine .room ⟨filling.whole,room.le,Nat.zero_lt_of_lt room,fun a asked => ?_,filling.failure⟩ room rfl rfl
      rcases List.mem_cons.mp asked with rfl | earlier
      · exact most
      · exact filling.asked a earlier
  · rw [if_neg full]
    exact .room filling (lt_of_le_of_ne filling.within full) rfl rfl

theorem read_loop (b : Loop) : ReadSpec b.reader.src (b.cap - b.out.length) b.read.1 b.read.2.1 b.read.2.2 :=
  read_spec b.reader.src (b.cap - b.out.length)

/-- A read with room lowers the work that is left, unless it reports the end. -/
theorem readOnce_turned (filling : Filling limit s failure b) (room : b.out.length < b.cap) :
    Turned limit s failure b (readOnce limit b) := by
  obtain ⟨front,most,ended,progress⟩ := read_loop b
  have whole : (b.out ++ b.read.1) ++ b.read.2.2.unread = s := by
    rw [List.append_assoc,front,filling.whole]
  unfold readOnce
  dsimp only
  cases eof : b.read.2.1 with
  | true =>
    have all : b.out ++ b.read.1 = s := by
      rw [← whole,ended eof,List.append_nil]
    rw [if_pos rfl,all,filling.failure]
    cases failure with
    | none =>
      dsimp only
      split_ifs with past
      · exact .returns (.large past)
      · exact .returns (.whole (not_lt.mp past))
    | some err => exact .returns (.fails err)
  | false =>
    -- either the room is filled, so that bytes were read, or a chunk is used up
    obtain ⟨left,moved⟩ := progress eof
    have within : (b.out ++ b.read.1).length ≤ b.cap := by
      rw [List.length_append]
      omega
    have bytes : b.read.1.length + b.read.2.2.unread.length = b.reader.src.unread.length := by
      rw [← List.length_append,front]
    have less : b.read.2.2.unread.length + b.read.2.2.chunks.length < b.reader.work := by
      unfold LzwReader.work
      omega
    rw [if_neg Bool.false_ne_true]
    exact .more ⟨whole,within,filling.positive,filling.asked,filling.failure⟩ less

theorem turn_turned (slack : Nat → Nat) (high : limit < 2 ^ 62) (filling : Filling limit s failure b) :
    Turned limit s failure b (turn limit slack b) := by
  have made := makeRoom_made slack high filling
  unfold turn
  generalize makeRoom limit slack b = t at made ⊢
  cases made with
  | large past => exact .returns (.large past)
  | room next room out reader =>
    have turned := readOnce_turned next room
    change Turned limit s failure b (readOnce limit _)
    generalize readOnce limit _ = t at turned ⊢
    cases turned with
    | returns settled => exact .returns settled
    | more filling less => exact .more filling (reader ▸ less)

/-- More iterations than there is work end the loop. -/
theorem turns_returns (high : limit < 2 ^ 62) {n : Nat} (enough : b.reader.work < n) (filling : Filling limit s failure b) :
    ∃ result, turns limit slack n b = .returns result ∧ Settled limit s failure result := by
  induction n generalizing b with
  | zero => omega
  | succ n ih =>
    have turned := turn_turned slack high filling
    rw [turns]
    generalize turn limit slack b = t at turned ⊢
    cases turned with
    | returns settled => exact ⟨_,rfl,settled⟩
    | more next less => exact ih (by omega) next

/-- The invariant holds as long as the loop goes on. -/
theorem turns_filling (high : limit < 2 ^ 62) {n : Nat} {b' : Loop} (filling : Filling limit s failure b)
    (goes : turns limit slack n b = .more b') : Filling limit s failure b' := by
  induction n generalizing b with
  | zero =>
    cases goes
    exact filling
  | succ n ih =>
    have turned := turn_turned slack high filling
    rw [turns] at goes
    generalize turn limit slack b = t at turned goes
    cases turned with
    | returns settled => cases goes
    | more next less => exact ih next goes

end

section
variable {limit : Int} (slack : Nat → Nat) {m : Message} {s : Bytes} {r : LzwReader}

theorem startCap_bounds (low : 0 ≤ limit) (high : limit < 2 ^ 62) (m : Message) :
    0 < startCap limit m ∧ startCap limit m ≤ limit + 1 := by
  have fits := m.fits
  have most : maxAlloc = 2 ^ 48 := rfl
  rw [startCap,int64_of_fits (by omega) (by omega),int64_of_fits (by omega) (by omega)]
  omega

theorem start_filling (low : 0 ≤ limit) (high : limit < 2 ^ 62) (m : Message) (delivers : r.src.unread = s) :
    Filling limit s r.failure (start limit m r) := by
  obtain ⟨positive,most⟩ := startCap_bounds low high m
  refine ⟨delivers,Nat.zero_le _,Int.pos_iff_toNat_pos.mp positive,fun a asked => ?_,rfl⟩
  rw [List.mem_singleton.mp asked]
  exact most

theorem decompressBuffer_settled (low : 0 ≤ limit) (high : limit < 2 ^ 62) (lzw : m.compress.algo = lzwAlgo)
    (delivers : r.src.unread = s) :
    ∃ result, decompressBuffer limit slack m r = .returns result ∧ Settled limit s r.failure result := by
  have positive := (startCap_bounds low high m).1
  rw [decompressBuffer,if_neg (not_not_intro lzw),if_neg (by omega)]
  exact turns_returns high (Nat.lt_succ_self _) (start_filling low high m delivers)

/-- A read with room returns something of a chunk that has something. -/
theorem read_some {src : Source} {n : Nat} {c : Bytes} {rest : List Bytes} (room : 0 < n) (next : src.chunks = c :: rest)
    (nonempty : c ≠ []) : (src.read n).1 ≠ [] := by
  rw [Source.read,next]
  dsimp only
  split_ifs with whole
  · exact nonempty
  · intro nothing
    rcases List.take_eq_nil_iff.mp nothing with none | empty
    · omega
    · exact nonempty empty

theorem out_readOnce {b b' : Loop} (goes : readOnce limit b = .more b') : b'.out = b.out ++ b.read.1 := by
  unfold readOnce at goes
  dsimp only at goes
  cases ended : b.read.2.1 with
  | true =>
    rw [ended,if_pos rfl] at goes
    split at goes
    · split at goes <;> cases goes
    · cases goes
  | false =>
    rw [ended,if_neg Bool.false_ne_true] at goes
    cases goes
    rfl

/-- An iteration that reads: `b` is the loop when it begins, and `b₁` when there is room. -/
structure Advances (limit : Int) (b b₁ : Loop) : Prop where
  asked : ∀ a ∈ b₁.asked, a ≤ limit + 1
  room : b₁.out.length < b₁.cap
  delivers : ∀ c rest, b₁.reader.src.chunks = c :: rest → c ≠ [] → b₁.read.1 ≠ []
  longer : ∀ b', readOnce limit b₁ = .more b' → b₁.read.1 ≠ [] → b.out.length < b'.out.length

theorem makeRoom_advances (high : limit < 2 ^ 62) {b b₁ : Loop} {failure : Option String}
    (filling : Filling limit s failure b) (makes : makeRoom limit slack b = .more b₁) : Advances limit b b₁ := by
  have made := makeRoom_made slack high filling
  rw [makes] at made
  cases made with
  | room next room out reader =>
    refine ⟨next.asked,room,fun c rest chunks nonempty => read_some (by omega) chunks nonempty,fun b' goes filled => ?_⟩
    rw [out_readOnce goes,out,List.length_append]
    exact Nat.lt_add_of_pos_right (List.length_pos_iff.mpr filled)

/-- Bounded decompression is exact: all that the reader gives before `io.EOF` is returned if it is
    within the limit, anything else is an error, and the buffer is never asked to exceed the limit
    by more than a byte. Every read has room for something, so that every iteration in which the
    reader has something makes the output longer. -/
theorem decompressBuffer_exact (m : Message) (lzw : m.compress.algo = lzwAlgo) (low : 0 ≤ limit) (high : limit < 2 ^ 62)
    (slack : Nat → Nat) (s : Bytes) (r : LzwReader) (delivers : r.src.unread = s) :
    (r.failure = none → (s.length : Int) ≤ limit → decompressBuffer limit slack m r = .returns (.ok s)) ∧
    (limit < s.length → ∃ err, decompressBuffer limit slack m r = .returns (.error err)) ∧
    (r.failure ≠ none → ∃ err, decompressBuffer limit slack m r = .returns (.error err)) ∧
    ∀ n b b₁, turns limit slack n (start limit m r) = .more b → makeRoom limit slack b = .more b₁ → Advances limit b b₁ := by
  obtain ⟨result,returns,settled⟩ := decompressBuffer_settled slack low high lzw delivers
  rw [returns]
  refine ⟨fun ends fits => ?_,fun large => ?_,fun fails => ?_,fun n b b₁ goes makes => ?_⟩
  · exact congrArg Turn.returns ((settled_ok_iff settled s).mpr ⟨ends,fits,rfl⟩)
  · exact (settled_error settled (.inr large)).imp (fun _ same => congrArg Turn.returns same)
  · exact (settled_error settled (.inl fails)).imp (fun _ same => congrArg Turn.returns same)
  · exact makeRoom_advances slack high (turns_filling high (start_filling low high m delivers) goes) makes

theorem fits_sample : (bytes (some [1,2,3])).length ≤ maxAlloc := by decide

def sample : Message := ⟨⟨lzwAlgo,some [1,2,3]⟩,fits_sample⟩

/-- Three bytes in two chunks and an empty one, the last with `io.EOF`. -/
def sampleReader : LzwReader := ⟨⟨[[7],[],[8,9]],true⟩,none⟩

theorem decompressBuffer_exact_sample :
    decompressBuffer 3 (fun _ => 5) sample sampleReader = .returns (.ok [7,8,9]) ∧
    ∃ err, decompressBuffer 2 (fun _ => 5) sample sampleReader = .returns (.error err) :=
  ⟨(decompressBuffer_exact sample rfl (by decide) (by decide) _ [7,8,9] sampleReader rfl).1 rfl (by decide),
    (decompressBuffer_exact sample rfl (by decide) (by decide) _ [7,8,9] sampleReader rfl).2.1 (by decide)⟩

end

/-! ## The coder's output at once

`Stream.decompressBuffer` has the whole output before it compares lengths.
-/

theorem stream_settled (coders : Coders) {c : Compress} (lzw : c.algo = lzwAlgo) (limit : Nat) :
    Settled limit (coders.lzw.read (bytes c.buf)).1 (coders.lzw.read (bytes c.buf)).2
      (Stream.decompressBuffer coders c limit) := by
  rw [Stream.decompressBuffer,if_neg (not_not_intro lzw)]
  generalize coders.lzw.read (bytes c.buf) = read
  obtain ⟨s,failure⟩ := read
  dsimp only
  split_ifs with large
  · exact .large (Int.ofNat_lt.mpr large)
  · cases failure with
    | none => exact .whole (Int.ofNat_le.mpr (not_lt.mp large))
    | some err => exact .fails err

/-- The loop returns what `Stream.decompressBuffer` returns. Where both fail they may differ in
    the error: output that is too large and also ends with an error is refused for either. -/
theorem decompressBuffer_refines (coders : Coders) (m : Message) {limit : Nat} (high : limit < 2 ^ 62) (slack : Nat → Nat)
    (r : LzwReader) (reads : coders.lzw.read (bytes m.compress.buf) = (r.src.unread,r.failure)) :
    ∃ result, decompressBuffer limit slack m r = .returns result ∧
      ∀ out, result = .ok out ↔ Stream.decompressBuffer coders m.compress limit = .ok out := by
  by_cases lzw : m.compress.algo = lzwAlgo
  · obtain ⟨result,returns,settled⟩ :=
      decompressBuffer_settled slack (Int.natCast_nonneg limit) (by omega) lzw (rfl : r.src.unread = r.src.unread)
    have whole := stream_settled coders lzw limit
    rw [reads] at whole
    exact ⟨result,returns,fun out => (settled_ok_iff settled out).trans (settled_ok_iff whole out).symm⟩
  · rw [decompressBuffer,if_pos lzw,Stream.decompressBuffer,if_pos lzw]
    exact ⟨_,rfl,fun out => Iff.rfl⟩

end Mori.Decompression
