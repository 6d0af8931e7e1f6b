import Mathlib.Data.List.Basic
import Mathlib.Data.List.Infix
import Mathlib.Tactic.SplitIfs

/-!
Reading ahead, as Go's `bufio.Reader` does. A connection delivers what it carries in
chunks of any size; a read gets the next chunk, or as much of it as there is room for.
`peek` shows the first bytes, and reads as many chunks into its buffer as that takes. However the
chunks are cut, what is buffered and what the connection still has is what it carried
(`peek_shows`, `peek_ends`).
-/
namespace Mori.Buffered

variable {α : Type}

/-- How many reads in a row may deliver nothing before a reader gives up. -/
def maxConsecutiveEmptyReads : Nat := 100

/-- No reader that asks again after a read that delivered nothing has to give up. -/
def Lively (chunks : List (List α)) : Prop := ¬ List.replicate maxConsecutiveEmptyReads [] <:+: chunks

theorem lively_rest {chunk : List α} {rest : List (List α)} (lively : Lively (chunk :: rest)) : Lively rest :=
  fun run => lively (run.trans (List.suffix_cons chunk rest).isInfix)

theorem lively_short {chunks : List (List α)} (few : chunks.length < maxConsecutiveEmptyReads) : Lively chunks := by
  intro run
  have length := run.length_le
  rw [List.length_replicate] at length
  omega

/-- A chunk that is not empty ends a row of empty reads. -/
theorem lively_cons {chunk : List α} {rest : List (List α)} (nonempty : chunk ≠ []) (lively : Lively rest) :
    Lively (chunk :: rest) := by
  intro run
  rcases List.infix_cons_iff.mp run with first | later
  · rw [maxConsecutiveEmptyReads,List.replicate_succ,List.cons_prefix_cons] at first
    exact nonempty first.1.symm
  · exact lively later

theorem lively_drop {chunk : List α} {rest : List (List α)} {n : Nat} (lively : Lively (chunk :: rest)) (more : n < chunk.length) :
    Lively (chunk.drop n :: rest) :=
  lively_cons (fun wrong => by rw [List.drop_eq_nil_iff] at wrong; omega) (lively_rest lively)

/-- What a connection has yet to deliver, and whether its end comes with the last chunk
    or in a read of its own. -/
structure Conn (α : Type) where
  chunks : List (List α)
  early : Bool
  lively : Lively chunks

/-- All that the connection carries. -/
def Conn.content (c : Conn α) : List α := c.chunks.flatten

/-- `Read` with room for `n`: what is delivered, and whether the end is reported. -/
def Conn.read : Conn α → Nat → Conn α × List α × Bool
  | ⟨[],early,lively⟩,_ => (⟨[],early,lively⟩,[],true)
  | ⟨chunk :: rest,early,lively⟩,n =>
    if more : n < chunk.length then (⟨chunk.drop n :: rest,early,lively_drop lively more⟩,chunk.take n,false)
    else (⟨rest,early,lively_rest lively⟩,chunk,early && rest.isEmpty)

inductive ReadError where
  | eof
  | noProgress
  | bufferFull
deriving DecidableEq,Repr

/-- A `bufio.Reader` of which nothing has been read yet. -/
structure Reader (α : Type) where
  conn : Conn α
  buffered : List α := []
  err : Option ReadError := none

/-- The loop of `fill`. -/
def fillLoop (size : Nat) : Nat → Reader α → Reader α
  | 0,b => { b with err := some .noProgress }
  | i + 1,b =>
    let result := b.conn.read (size - b.buffered.length)
    let b := { b with conn := result.1, buffered := b.buffered ++ result.2.1 }
    if result.2.2 then { b with err := some .eof }
    else if result.2.1.isEmpty then fillLoop size i b
    else b

def fill (size : Nat) (b : Reader α) : Reader α := fillLoop size maxConsecutiveEmptyReads b

/-- The loop of `Peek`, with as much fuel as it takes turns at most (`peekLoop_stops`). -/
def peekLoop (size n : Nat) : Nat → Reader α → Reader α
  | 0,b => b
  | fuel + 1,b =>
    if b.buffered.length < n ∧ b.buffered.length < size ∧ b.err = none then peekLoop size n fuel (fill size b) else b

/-- `Peek`: the first `n` that are not read yet, or fewer and why. -/
def peek (size n : Nat) (b : Reader α) : Reader α × List α × Option ReadError :=
  let b := peekLoop size n n b
  if size < n then (b,b.buffered,some .bufferFull)
  else if b.buffered.length < n then ({ b with err := none },b.buffered,some (b.err.getD .bufferFull))
  else (b,b.buffered.take n,none)

section
variable {c : Conn α} {n : Nat}

theorem read_content (c : Conn α) (n : Nat) : (c.read n).2.1 ++ (c.read n).1.content = c.content := by
  obtain ⟨chunks,early,lively⟩ := c
  cases chunks with
  | nil => rfl
  | cons chunk rest =>
    rw [Conn.read]
    split_ifs with more
    · rw [Conn.content,Conn.content,List.flatten_cons,List.flatten_cons,← List.append_assoc,List.take_append_drop]
    · rfl

theorem read_room (c : Conn α) (n : Nat) : (c.read n).2.1.length ≤ n := by
  obtain ⟨chunks,early,lively⟩ := c
  cases chunks with
  | nil => exact Nat.zero_le n
  | cons chunk rest =>
    rw [Conn.read]
    split_ifs with more
    · exact List.length_take_le n chunk
    · exact not_lt.mp more

/-- The end is reported when nothing is left. -/
theorem read_end (ends : (c.read n).2.2 = true) : (c.read n).1.chunks = [] := by
  obtain ⟨chunks,early,lively⟩ := c
  cases chunks with
  | nil => rfl
  | cons chunk rest =>
    rw [Conn.read] at ends ⊢
    split_ifs at ends ⊢ with more
    exact List.isEmpty_iff.mp ((Bool.and_eq_true _ _).mp ends).2

/-- A read with room that delivers nothing and does not report the end has met an empty chunk. -/
theorem read_empty (room : 0 < n) (goes : (c.read n).2.2 = false) (nothing : (c.read n).2.1 = []) :
    c.chunks = [] :: (c.read n).1.chunks := by
  obtain ⟨chunks,early,lively⟩ := c
  cases chunks with
  | nil => cases goes
  | cons chunk rest =>
    rw [Conn.read] at nothing ⊢
    split_ifs at nothing ⊢ with more
    · have taken := congrArg List.length nothing
      simp only [List.length_take,List.length_nil] at taken
      omega
    · exact congrArg (· :: rest) nothing

end

/-- The reader carries `s`, of which a part is in its buffer, and has met at most the end. -/
structure Carries (size : Nat) (s : List α) (b : Reader α) : Prop where
  content : b.buffered ++ b.conn.content = s
  fits : b.buffered.length ≤ size
  err : b.err = none ∨ b.err = some .eof ∧ b.conn.chunks = []

section
variable {size n i : Nat} {s : List α} {b : Reader α}

/-- Unless only empty chunks follow, filling adds to the buffer or meets the end. -/
theorem fillLoop_spec (carries : Carries size s b) (fresh : b.err = none) (room : b.buffered.length < size)
    (nonempty : ¬ List.replicate i [] <+: b.conn.chunks) :
    Carries size s (fillLoop size i b) ∧
      (b.buffered.length < (fillLoop size i b).buffered.length ∨ (fillLoop size i b).err = some .eof) := by
  induction i generalizing b with
  | zero => exact absurd List.nil_prefix nonempty
  | succ i ih =>
    have content := read_content b.conn (size - b.buffered.length)
    have kept : b.buffered ++ (b.conn.read (size - b.buffered.length)).2.1 ++
        (b.conn.read (size - b.buffered.length)).1.content = s := by
      rw [List.append_assoc,content]
      exact carries.content
    have fits : (b.buffered ++ (b.conn.read (size - b.buffered.length)).2.1).length ≤ size := by
      have most := read_room b.conn (size - b.buffered.length)
      rw [List.length_append]
      omega
    rw [fillLoop]
    by_cases ends : (b.conn.read (size - b.buffered.length)).2.2 = true
    · rw [if_pos ends]
      exact ⟨⟨kept,fits,.inr ⟨rfl,read_end ends⟩⟩,.inr rfl⟩
    rw [if_neg ends]
    have goes : (b.conn.read (size - b.buffered.length)).2.2 = false := by simpa using ends
    by_cases nothing : (b.conn.read (size - b.buffered.length)).2.1 = []
    · -- the empty chunk is gone: one try fewer for one empty chunk fewer
      have first := read_empty (by omega) goes nothing
      rw [if_pos (List.isEmpty_iff.mpr nothing)]
      rw [nothing,List.append_nil] at kept ⊢
      refine ih ⟨kept,room.le,.inl fresh⟩ fresh room fun run => nonempty ?_
      rw [first,List.replicate_succ,List.cons_prefix_cons]
      exact ⟨rfl,run⟩
    · rw [if_neg fun empty => nothing (List.isEmpty_iff.mp empty)]
      refine ⟨⟨kept,fits,.inl fresh⟩,.inl ?_⟩
      have grown := List.length_pos_iff.mpr nothing
      simp only [List.length_append]
      omega

theorem fill_spec (carries : Carries size s b) (fresh : b.err = none) (room : b.buffered.length < size) :
    Carries size s (fill size b) ∧ (b.buffered.length < (fill size b).buffered.length ∨ (fill size b).err = some .eof) :=
  fillLoop_spec carries fresh room fun run => b.conn.lively run.isInfix

theorem peekLoop_carries (carries : Carries size s b) : Carries size s (peekLoop size n i b) := by
  induction i generalizing b with
  | zero => exact carries
  | succ i ih =>
    rw [peekLoop]
    split_ifs with goes
    · exact ih (fill_spec carries goes.2.2 goes.2.1).1
    · exact carries

/-- Each turn of the loop adds to the buffer or meets the end, so the loop stops by itself. -/
theorem peekLoop_stops (carries : Carries size s b) (fuel : n ≤ b.buffered.length + i) :
    ¬ ((peekLoop size n i b).buffered.length < n ∧ (peekLoop size n i b).buffered.length < size ∧
      (peekLoop size n i b).err = none) := by
  induction i generalizing b with
  | zero => exact fun goes => absurd goes.1 (by simpa [peekLoop] using fuel)
  | succ i ih =>
    rw [peekLoop]
    split_ifs with goes
    · obtain ⟨filled,grown | ended⟩ := fill_spec carries goes.2.2 goes.2.1
      · exact ih filled (by omega)
      · -- a reader that met the end is not filled again
        have stays : peekLoop size n i (fill size b) = fill size b := by
          cases i with
          | zero => rfl
          | succ i => rw [peekLoop,if_neg fun again => by rw [ended] at again; cases again.2.2]
        rw [stays,ended]
        exact fun again => by cases again.2.2
    · exact goes

/-- A buffer that stays short of what was asked for holds all there is. -/
theorem peekLoop_short (carries : Carries size s b) (fits : n ≤ size) (short : (peekLoop size n n b).buffered.length < n) :
    (peekLoop size n n b).err = some .eof ∧ (peekLoop size n n b).conn.chunks = [] ∧ (peekLoop size n n b).buffered = s := by
  have after : Carries size s (peekLoop size n n b) := peekLoop_carries carries
  rcases after.err with fresh | ⟨ended,empty⟩
  · exact absurd ⟨short,by omega,fresh⟩ (peekLoop_stops carries (Nat.le_add_left n b.buffered.length))
  · have content := after.content
    rw [Conn.content,empty,List.flatten_nil,List.append_nil] at content
    exact ⟨ended,empty,content⟩

/-- Peeking shows what the connection carries, however it is cut into chunks. -/
theorem peek_shows (carries : Carries size s b) (fits : n ≤ size) (there : n ≤ s.length) :
    ∃ b', peek size n b = (b',s.take n,none) ∧ Carries size s b' ∧ n ≤ b'.buffered.length := by
  have after : Carries size s (peekLoop size n n b) := peekLoop_carries carries
  have full : ¬ (peekLoop size n n b).buffered.length < n := fun short => by
    rw [(peekLoop_short carries fits short).2.2] at short
    omega
  refine ⟨peekLoop size n n b,?_,after,not_lt.mp full⟩
  rw [peek,if_neg (by omega),if_neg full,← after.content,List.take_append_of_le_length (not_lt.mp full)]

/-- Peeking beyond what the connection carries shows all of it and reports the end. -/
theorem peek_ends (carries : Carries size s b) (fits : n ≤ size) (beyond : s.length < n) :
    ∃ b', peek size n b = (b',s,some .eof) ∧ b'.conn.chunks = [] := by
  have after : Carries size s (peekLoop size n n b) := peekLoop_carries carries
  have short : (peekLoop size n n b).buffered.length < n := by
    have content := congrArg List.length after.content
    rw [List.length_append] at content
    omega
  obtain ⟨ended,empty,all⟩ := peekLoop_short carries fits short
  refine ⟨⟨(peekLoop size n n b).conn,s,none⟩,?_,empty⟩
  rw [peek,if_neg (by omega),if_pos short,all,ended]
  rfl

/-- Peeking at what is in the buffer reads nothing. -/
theorem peek_buffered (fits : b.buffered.length ≤ size) :
    peek size b.buffered.length b = (b,b.buffered,none) := by
  have stays : ∀ fuel, peekLoop size b.buffered.length fuel b = b := by
    intro fuel
    cases fuel with
    | zero => rfl
    | succ fuel => rw [peekLoop,if_neg fun goes => absurd goes.1 (Nat.lt_irrefl _)]
  rw [peek,stays,if_neg (by omega),if_neg (Nat.lt_irrefl _),List.take_length]

end

end Mori.Buffered
