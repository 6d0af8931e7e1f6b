import Mori.Buffered
import Mori.Connections

/-!
The label of a connection (`label.go`, `peeked_conn.go`), read by read: the header is peeked at
in a buffer that takes what the connection has ready, and what was read too far is put in front
of the connection again. However the bytes arrive, the result is that for the bytes as a
whole, which is the result for a packet.
-/
namespace Mori.LabelStreams
open Mori.Net Mori.Compound Mori.Packet Mori.Buffered
open Mori.Connections (StreamLabelError streamLabelError removeLabelHeaderFromStream_eq)

/-- The buffer of a `bufio.NewReader`. -/
def defaultBufSize : Nat := 4096

structure PeekedConn where
  peeked : Bytes
  conn : Conn UInt8

/-- `Read` with room for `n`: what is delivered, and whether the end is reported. -/
def PeekedConn.read (c : PeekedConn) (n : Nat) : PeekedConn × Bytes × Bool :=
  if 0 < c.peeked.length then ({ c with peeked := c.peeked.drop n },c.peeked.take n,false)
  else
    let result := c.conn.read n
    ({ c with conn := result.1 },result.2.1,result.2.2)

inductive StreamError where
  | label (err : StreamLabelError)
  | read (err : ReadError)
deriving DecidableEq,Repr

/-- The error of a peek that the header does not end with. -/
def truncatedOr : ReadError → StreamError
  | .eof => .label .truncated
  | err => .read err

def newPeekedConnFromBufferedReader (br : Reader UInt8) (offset : Nat) : Except StreamError PeekedConn :=
  match peek defaultBufSize br.buffered.length br with
  | (_,_,some err) => .error (.read err)
  | (br,peeked,none) => .ok ⟨peeked.drop offset,br.conn⟩

/-- The connection without its label, and the label. -/
def removeLabelHeaderFromStream (conn : Conn UInt8) : Except StreamError (PeekedConn × Bytes) :=
  match peek defaultBufSize 1 { conn := conn } with
  | (br,_,some .eof) => .ok (⟨[],br.conn⟩,[])
  | (_,_,some err) => .error (.read err)
  | (br,peeked,none) =>
    if peeked.getD 0 0 ≠ hasLabelMsg then (newPeekedConnFromBufferedReader br 0).map (fun conn => (conn,[]))
    else match peek defaultBufSize 2 br with
    | (_,_,some err) => .error (truncatedOr err)
    | (br,peeked,none) =>
      let size := (peeked.getD 1 0).toNat
      if size < 1 then .error (.label .empty)
      else match peek defaultBufSize (2 + size) br with
      | (_,_,some err) => .error (truncatedOr err)
      | (br,peeked,none) =>
        let label := (peeked.take (2 + size)).drop 2
        (newPeekedConnFromBufferedReader br (2 + size)).map (fun conn => (conn,label))

def PeekedConn.content (c : PeekedConn) : Bytes := c.peeked ++ c.conn.content

/-- What reads of some sizes deliver until the end is reported, and whether it is. -/
def readAll : PeekedConn → List Nat → Bytes × Bool
  | _,[] => ([],false)
  | c,n :: sizes =>
    let result := c.read n
    if result.2.2 then (result.2.1,true)
    else
      let later := readAll result.1 sizes
      (result.2.1 ++ later.1,later.2)

theorem peekedRead_content (c : PeekedConn) (n : Nat) : (c.read n).2.1 ++ (c.read n).1.content = c.content := by
  rw [PeekedConn.read]
  split_ifs with buffered
  · rw [PeekedConn.content,PeekedConn.content,← List.append_assoc,List.take_append_drop]
  · have empty : c.peeked = [] := List.length_eq_zero_iff.mp (by omega)
    rw [PeekedConn.content,PeekedConn.content,empty]
    exact read_content c.conn n

theorem peekedRead_end {c : PeekedConn} {n : Nat} (ends : (c.read n).2.2 = true) : (c.read n).1.content = [] := by
  rw [PeekedConn.read] at ends ⊢
  split_ifs at ends ⊢ with buffered
  have empty : c.peeked = [] := List.length_eq_zero_iff.mp (by omega)
  rw [PeekedConn.content,empty,Conn.content,read_end ends]
  rfl

/-- What was read, and what is left of it, is what the connection carried; at the end nothing is. -/
theorem readAll_spec (c : PeekedConn) (sizes : List Nat) :
    ∃ left, (readAll c sizes).1 ++ left = c.content ∧ ((readAll c sizes).2 = true → left = []) := by
  induction sizes generalizing c with
  | nil => exact ⟨c.content,rfl,fun wrong => by cases wrong⟩
  | cons n sizes ih =>
    have content := peekedRead_content c n
    rw [readAll]
    split_ifs with ends
    · exact ⟨(c.read n).1.content,content,fun _ => peekedRead_end ends⟩
    · obtain ⟨left,whole,last⟩ := ih (c.read n).1
      exact ⟨left,by rw [List.append_assoc,whole,content],last⟩

/-- The reads that a connection may take: for each byte and each chunk one. -/
def PeekedConn.work (c : PeekedConn) : Nat := c.peeked.length + c.conn.content.length + c.conn.chunks.length

/-- A read with room gets on, or reports the end. -/
theorem peekedRead_work (c : PeekedConn) {n : Nat} (room : 0 < n) :
    (c.read n).1.work < c.work ∨ (c.read n).2.2 = true := by
  obtain ⟨peeked,chunks,early,lively⟩ := c
  rw [PeekedConn.read]
  split_ifs with buffered
  · refine .inl ?_
    simp only [PeekedConn.work,List.length_drop]
    dsimp only at buffered
    omega
  · cases chunks with
    | nil => exact .inr rfl
    | cons chunk rest =>
      refine .inl ?_
      simp only [PeekedConn.work,Conn.read]
      split_ifs with more
      · simp only [Conn.content,List.flatten_cons,List.length_append,List.length_drop,List.length_cons]
        omega
      · simp only [Conn.content,List.flatten_cons,List.length_append,List.length_cons]
        omega

theorem readAll_ends (c : PeekedConn) {sizes : List Nat} (room : ∀ n ∈ sizes, 0 < n) (enough : c.work < sizes.length) :
    (readAll c sizes).2 = true := by
  induction sizes generalizing c with
  | nil => exact absurd enough (Nat.not_lt_zero _)
  | cons n sizes ih =>
    rw [readAll]
    split_ifs with ends
    · rfl
    · rcases peekedRead_work c (room n List.mem_cons_self) with less | wrong
      · refine ih (c.read n).1 (fun n member => room n (List.mem_cons_of_mem _ member)) ?_
        rw [List.length_cons] at enough
        omega
      · exact absurd wrong ends

/-- Read to the end with reads of any sizes, the connection yields these bytes: what was read is a
    first part of them, all of them once the end is reported, and the end is reported after enough
    reads with room. -/
structure Yields (c : PeekedConn) (rest : Bytes) : Prop where
  part : ∀ sizes, (readAll c sizes).1 <+: rest
  whole : ∀ sizes, (readAll c sizes).2 = true → (readAll c sizes).1 = rest
  ends : ∃ enough, ∀ sizes : List Nat, (∀ n ∈ sizes, 0 < n) → enough ≤ sizes.length → (readAll c sizes).2 = true

theorem yields_content (c : PeekedConn) : Yields c c.content where
  part sizes := by
    obtain ⟨left,whole,-⟩ := readAll_spec c sizes
    exact ⟨left,whole⟩
  whole sizes ended := by
    obtain ⟨left,whole,last⟩ := readAll_spec c sizes
    rw [last ended,List.append_nil] at whole
    exact whole
  ends := ⟨c.work + 1,fun _ room enough => readAll_ends c room enough⟩

section
variable {s : Bytes} {br : Reader UInt8} {conn : Conn UInt8}

theorem carries_fresh (conn : Conn UInt8) : Carries defaultBufSize conn.content { conn := conn } :=
  ⟨rfl,Nat.zero_le _,.inl rfl⟩

/-- What was read ahead and not used stands in front of the connection again. -/
theorem newPeekedConn_content {offset : Nat} (carries : Carries defaultBufSize s br) (within : offset ≤ br.buffered.length) :
    ∃ c, newPeekedConnFromBufferedReader br offset = .ok c ∧ c.content = s.drop offset := by
  refine ⟨⟨br.buffered.drop offset,br.conn⟩,?_,?_⟩
  · rw [newPeekedConnFromBufferedReader,peek_buffered carries.fits]
  · rw [← carries.content,List.drop_append_of_le_length within]
    rfl

/-- However it is cut into chunks, a connection gives what its bytes as a whole give. -/
theorem removeLabelHeaderFromStream_refines (conn : Conn UInt8) :
    match Connections.removeLabelHeaderFromStream conn.content with
    | .error err => removeLabelHeaderFromStream conn = .error (.label err)
    | .ok (rest,label) => ∃ c, removeLabelHeaderFromStream conn = .ok (c,label) ∧ c.content = rest := by
  have fresh := carries_fresh conn
  unfold removeLabelHeaderFromStream
  generalize conn.content = s at fresh ⊢
  cases s with
  | nil =>
    obtain ⟨br,shown,empty⟩ := peek_ends fresh (by decide : 1 ≤ defaultBufSize) (by decide)
    rw [shown]
    refine ⟨_,rfl,?_⟩
    rw [PeekedConn.content,Conn.content,empty]
    rfl
  | cons msgType rest =>
    obtain ⟨br,shown,carries,one⟩ := peek_shows fresh (by decide : 1 ≤ defaultBufSize) (Nat.le_add_left 1 _)
    rw [shown]
    by_cases plain : msgType ≠ hasLabelMsg
    · obtain ⟨c,made,content⟩ := newPeekedConn_content carries (Nat.zero_le _)
      simp only [Connections.removeLabelHeaderFromStream,List.take_succ_cons,List.getD_cons_zero,if_pos plain,made]
      exact ⟨c,rfl,content⟩
    cases rest with
    | nil =>
      obtain ⟨br,shown,-⟩ := peek_ends carries (by decide : 2 ≤ defaultBufSize) (Nat.lt_succ_self 1)
      simp only [Connections.removeLabelHeaderFromStream,List.take_succ_cons,List.getD_cons_zero,if_neg plain,shown]
      rfl
    | cons size body =>
      obtain ⟨br,shown,carries,two⟩ := peek_shows carries (by decide : 2 ≤ defaultBufSize) (Nat.le_add_left 2 _)
      simp only [Connections.removeLabelHeaderFromStream,List.take_succ_cons,List.getD_cons_zero,List.getD_cons_succ,
        if_neg plain,shown]
      by_cases empty : size.toNat < 1
      · simp only [if_pos empty]
      have fits : 2 + size.toNat ≤ defaultBufSize := by
        have byte := size.toNat_lt
        rw [defaultBufSize]
        omega
      by_cases short : body.length < size.toNat
      · have beyond : (msgType :: size :: body).length < 2 + size.toNat := by
          simp only [List.length_cons]
          omega
        obtain ⟨br,shown,-⟩ := peek_ends carries fits beyond
        simp only [if_neg empty,if_pos short,shown]
        rfl
      · have there : 2 + size.toNat ≤ (msgType :: size :: body).length := by
          simp only [List.length_cons]
          omega
        obtain ⟨br,shown,carries,header⟩ := peek_shows carries fits there
        obtain ⟨c,made,content⟩ := newPeekedConn_content carries header
        simp only [if_neg empty,if_neg short,shown,made]
        refine ⟨c,?_,?_⟩
        · rw [List.take_take,Nat.min_self,Nat.add_comm 2]
          rfl
        · rw [content,Nat.add_comm 2]
          rfl

end

/-- Labels of packets and of connections. A label comes off the packet it was put on, and
    a connection gives what a packet with its bytes gives, however they are delivered: it is
    accepted when the packet is, with the same label, and then yields the bytes of the packet. -/
theorem label_framing :
    (∀ label payload : Bytes, 1 ≤ label.length → label.length ≤ labelMaxSize →
      ∃ wire, addLabelHeaderToPacket payload label = .ok wire ∧ removeLabelHeaderFromPacket wire = .ok (payload,label)) ∧
    ∀ (b : Bytes) (conn : Conn UInt8), conn.content = b →
      match removeLabelHeaderFromPacket b with
      | .error err => removeLabelHeaderFromStream conn = .error (.label (streamLabelError err))
      | .ok (rest,label) => ∃ c, removeLabelHeaderFromStream conn = .ok (c,label) ∧ Yields c rest := by
  refine ⟨?_,?_⟩
  · intro label payload positive fits
    have empty : label ≠ [] := List.length_pos_iff.mp positive
    refine ⟨makeLabelHeader label payload,?_,removeLabelHeader_made empty fits payload⟩
    rw [addLabelHeaderToPacket,if_neg empty,if_neg (Nat.not_lt.mpr fits)]
  · rintro b conn rfl
    have refines := removeLabelHeaderFromStream_refines conn
    rw [removeLabelHeaderFromStream_eq] at refines
    cases removed : removeLabelHeaderFromPacket conn.content with
    | error err =>
      rw [removed] at refines
      exact refines
    | ok result =>
      rw [removed] at refines
      obtain ⟨c,accepted,content⟩ := refines
      exact ⟨c,accepted,content ▸ yields_content c⟩

theorem cutLabel_lively : Lively [[hasLabelMsg],[2,65],[],[66,7]] := lively_short (by decide)

/-- A header that is cut within the label, by a read that delivers nothing at that, and ends in a
    chunk with what follows it. -/
def cutLabel : Conn UInt8 := ⟨[[hasLabelMsg],[2,65],[],[66,7]],true,cutLabel_lively⟩

theorem label_framing_cut :
    removeLabelHeaderFromPacket cutLabel.content = .ok ([7],[65,66]) ∧
      ∃ c, removeLabelHeaderFromStream cutLabel = .ok (c,[65,66]) ∧ Yields c [7] :=
  ⟨rfl,label_framing.2 [hasLabelMsg,2,65,66,7] cutLabel rfl⟩

end Mori.LabelStreams
