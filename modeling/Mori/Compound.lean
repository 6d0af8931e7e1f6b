import Mori.Net
import Mori.Readers
import Mathlib.Tactic.Linarith

/-!
Compound messages (`util.go`): the count of the parts in one byte, their lengths in
two bytes each, and the parts. Up to 255 parts that fit their lengths come back as
they were; the count of more parts wraps around, so that they do not.
-/
namespace Mori.Compound
open Mori.Net Mori.Readers

def pingMsg : UInt8 := 0
def indirectPingMsg : UInt8 := 1
def ackRespMsg : UInt8 := 2
def suspectMsg : UInt8 := 3
def aliveMsg : UInt8 := 4
def deadMsg : UInt8 := 5
def compoundMsg : UInt8 := 7
def userMsg : UInt8 := 8
def nackRespMsg : UInt8 := 11
def hasCrcMsg : UInt8 := 12
def hasLabelMsg : UInt8 := 244

def compoundHeaderOverhead : Int := 2
def compoundOverhead : Int := 2
def userMsgOverhead : Int := 1

/-- The type, the count of the parts, the length of each, and the parts. -/
def makeCompoundMessage (msgs : List Bytes) : Bytes :=
  compoundMsg :: UInt8.ofNat msgs.length :: ((msgs.map (fun m => bigEndian 2 m.length)).flatten ++ msgs.flatten)

def maxMsgs : Nat := 255

/-- As many compound messages as the limit of parts makes necessary. -/
def makeCompoundMessages (msgs : List Bytes) : List Bytes :=
  if maxMsgs < msgs.length then
    makeCompoundMessage (msgs.take maxMsgs) :: makeCompoundMessages (msgs.drop maxMsgs)
  else if 0 < msgs.length then [makeCompoundMessage msgs]
  else []
termination_by msgs.length
decreasing_by
  rw [List.length_drop]
  simp only [maxMsgs] at *
  omega

inductive CompoundError where
  | missingLength
  | truncatedLengths
deriving DecidableEq,Repr

/-- The lengths of a number of parts. -/
def partLengths : Nat → Bytes → List Nat
  | 0,_ => []
  | n + 1,buf => ofBigEndian (buf.take 2) :: partLengths n (buf.drop 2)

/-- The parts of the given lengths, and how many of them were cut off. -/
def splitParts : List Nat → Bytes → Nat × List Bytes
  | [],_ => (0,[])
  | msgLen :: lengths,buf =>
    if buf.length < msgLen then (lengths.length + 1,[])
    else
      let rest := splitParts lengths (buf.drop msgLen)
      (rest.1,buf.take msgLen :: rest.2)

/-- Splits a compound message after its type; also returns how many messages were
    truncated. -/
def decodeCompoundMessage : Bytes → Except CompoundError (Nat × List Bytes)
  | [] => .error .missingLength
  | numParts :: buf =>
    if buf.length < numParts.toNat * 2 then .error .truncatedLengths
    else .ok (splitParts (partLengths numParts.toNat buf) (buf.drop (numParts.toNat * 2)))

/-- What some messages take as parts: each with its length field. -/
def partsLength (msgs : List Bytes) : Nat := (msgs.map (fun m => m.length + 2)).sum

@[simp] theorem partsLength_nil : partsLength [] = 0 := rfl

@[simp] theorem partsLength_cons (m : Bytes) (msgs : List Bytes) :
    partsLength (m :: msgs) = m.length + 2 + partsLength msgs := rfl

theorem partsLength_append (a b : List Bytes) : partsLength (a ++ b) = partsLength a + partsLength b := by
  simp [partsLength]

theorem length_lengths (msgs : List Bytes) : (msgs.map (fun m => bigEndian 2 m.length)).flatten.length = msgs.length * 2 := by
  induction msgs with
  | nil => rfl
  | cons m msgs ih =>
    simp only [List.map_cons,List.flatten_cons,List.length_append,length_bigEndian,ih,List.length_cons]
    omega

theorem length_makeCompoundMessage (msgs : List Bytes) : (makeCompoundMessage msgs).length = 2 + partsLength msgs := by
  have parts : partsLength msgs = msgs.length * 2 + msgs.flatten.length := by
    induction msgs with
    | nil => rfl
    | cons m msgs ih =>
      simp only [partsLength_cons,List.length_cons,List.flatten_cons,List.length_append,ih]
      omega
  simp only [makeCompoundMessage,List.length_cons,List.length_append,length_lengths]
  omega

/-- The compound messages are those of consecutive pieces of the messages, none of
    which has too many. -/
theorem makeCompoundMessages_pieces (msgs : List Bytes) :
    ∃ pieces : List (List Bytes), pieces.flatten = msgs ∧ (∀ piece ∈ pieces, piece.length ≤ maxMsgs) ∧
      makeCompoundMessages msgs = pieces.map makeCompoundMessage := by
  induction msgs using makeCompoundMessages.induct with
  | case1 msgs many ih =>
    obtain ⟨pieces,whole,small,same⟩ := ih
    refine ⟨msgs.take maxMsgs :: pieces,?_,?_,?_⟩
    · rw [List.flatten_cons,whole,List.take_append_drop]
    · intro piece member
      rcases List.mem_cons.mp member with rfl | later
      · rw [List.length_take]
        exact Nat.min_le_left _ _
      · exact small piece later
    · rw [makeCompoundMessages,if_pos many,same,List.map_cons]
  | case2 msgs few nonempty =>
    refine ⟨[msgs],by simp,?_,?_⟩
    · intro piece member
      rw [List.mem_singleton.mp member]
      exact Nat.not_lt.mp few
    · rw [makeCompoundMessages,if_neg few,if_pos nonempty]
      rfl
  | case3 msgs few nothing =>
    have empty : msgs = [] := List.eq_nil_of_length_eq_zero (by omega)
    refine ⟨[],by simp [empty],by simp,?_⟩
    rw [makeCompoundMessages,if_neg few,if_neg nothing]
    rfl

theorem partLengths_lengths {msgs : List Bytes} (sizes : ∀ m ∈ msgs, m.length < 65536) (rest : Bytes) :
    partLengths msgs.length ((msgs.map (fun m => bigEndian 2 m.length)).flatten ++ rest) = msgs.map (·.length) := by
  induction msgs with
  | nil => rfl
  | cons m msgs ih =>
    have small : m.length < 256 ^ 2 := sizes m List.mem_cons_self
    have first := length_bigEndian 2 m.length
    simp only [List.map_cons,List.flatten_cons,List.length_cons,partLengths,List.append_assoc]
    rw [List.take_left' first,List.drop_left' first,ofBigEndian_of_lt small,
      ih (fun m' later => sizes m' (List.mem_cons_of_mem m later))]

theorem splitParts_flatten (msgs : List Bytes) : splitParts (msgs.map (·.length)) msgs.flatten = (0,msgs) := by
  induction msgs with
  | nil => rfl
  | cons m msgs ih =>
    have enough : ¬ (m ++ msgs.flatten).length < m.length := by
      rw [List.length_append]
      omega
    simp only [List.map_cons,List.flatten_cons,splitParts,if_neg enough,List.drop_left,List.take_left,ih]

/-- A compound message of up to 255 parts gives its parts back. -/
theorem decode_makeCompoundMessage {msgs : List Bytes} (few : msgs.length ≤ maxMsgs)
    (sizes : ∀ m ∈ msgs, m.length < 65536) :
    decodeCompoundMessage (makeCompoundMessage msgs).tail = .ok (0,msgs) := by
  have count : (UInt8.ofNat msgs.length).toNat = msgs.length :=
    UInt8.toNat_ofNat_of_lt' (Nat.lt_of_le_of_lt few (by decide))
  have fields := length_lengths msgs
  have enough : ¬ ((msgs.map (fun m => bigEndian 2 m.length)).flatten ++ msgs.flatten).length < msgs.length * 2 := by
    rw [List.length_append]
    omega
  simp only [makeCompoundMessage,List.tail_cons,decodeCompoundMessage,count,if_neg enough]
  rw [partLengths_lengths sizes,List.drop_left' fields,splitParts_flatten]

theorem length_splitParts (lengths : List Nat) (buf : Bytes) : (splitParts lengths buf).2.length ≤ lengths.length := by
  induction lengths generalizing buf with
  | nil => exact Nat.le_refl _
  | cons n lengths ih =>
    simp only [splitParts]
    split_ifs
    · exact Nat.zero_le _
    · exact Nat.succ_le_succ (ih _)

theorem length_partLengths (n : Nat) (buf : Bytes) : (partLengths n buf).length = n := by
  induction n generalizing buf with
  | zero => rfl
  | succ n ih => simp only [partLengths,List.length_cons,ih]

/-- No compound message has more than 255 parts. -/
theorem length_decodeCompoundMessage {buf : Bytes} {trunc : Nat} {parts : List Bytes}
    (decoded : decodeCompoundMessage buf = .ok (trunc,parts)) : parts.length ≤ maxMsgs := by
  cases buf with
  | nil => cases decoded
  | cons numParts buf =>
    simp only [decodeCompoundMessage] at decoded
    split_ifs at decoded
    have same := Except.ok.inj decoded
    have most := length_splitParts (partLengths numParts.toNat buf) (buf.drop (numParts.toNat * 2))
    rw [same,length_partLengths] at most
    have byte := numParts.toNat_lt
    exact Nat.le_of_lt_succ (Nat.lt_of_le_of_lt most byte)

/-- The length that is declared for a part, behind the count of the parts. -/
def declaredLength (buf : Bytes) (i : Nat) : Nat := ofBigEndian ((buf.drop (2 * i)).take 2)

/-- The parts are segments of the body one after another, each of its declared length,
    and those that are missing were cut off at one that is longer than what is left. -/
structure Tiled (numParts : Nat) (buf : Bytes) (trunc : Nat) (parts : List Bytes) : Prop where
  counted : parts.length + trunc = numParts
  sized : parts.map (·.length) = (List.range parts.length).map (declaredLength buf)
  segments : ∃ rest, buf.drop (numParts * 2) = parts.flatten ++ rest ∧
    (0 < trunc → rest.length < declaredLength buf parts.length)

theorem partLengths_declared (n : Nat) (buf : Bytes) : partLengths n buf = (List.range n).map (declaredLength buf) := by
  induction n generalizing buf with
  | zero => rfl
  | succ n ih =>
    have later : ∀ i, declaredLength (buf.drop 2) i = declaredLength buf (i + 1) := by
      intro i
      rw [declaredLength,declaredLength,List.drop_drop,Nat.mul_succ,Nat.add_comm]
    rw [partLengths,ih,List.range_succ_eq_map,List.map_cons,List.map_map]
    refine congrArg (List.cons _) (List.map_congr_left ?_)
    intro i _
    exact later i

theorem splitParts_tiles (lengths : List Nat) (buf : Bytes) :
    let split := splitParts lengths buf
    split.2.length + split.1 = lengths.length ∧ split.2.map (·.length) = lengths.take split.2.length ∧
      ∃ rest, buf = split.2.flatten ++ rest ∧ (0 < split.1 → ∃ n, lengths[split.2.length]? = some n ∧ rest.length < n) := by
  induction lengths generalizing buf with
  | nil => exact ⟨rfl,rfl,buf,rfl,fun cut => absurd cut (Nat.lt_irrefl 0)⟩
  | cons msgLen lengths ih =>
    simp only [splitParts]
    by_cases short : buf.length < msgLen
    · rw [if_pos short]
      exact ⟨by simp,rfl,buf,rfl,fun _ => ⟨msgLen,rfl,short⟩⟩
    · obtain ⟨counted,sized,rest,segments,next⟩ := ih (buf.drop msgLen)
      have whole : (buf.take msgLen).length = msgLen := List.length_take_of_le (Nat.not_lt.mp short)
      rw [if_neg short]
      refine ⟨?_,?_,rest,?_,next⟩
      · simp only [List.length_cons]
        omega
      · rw [List.map_cons,whole,sized,List.length_cons,List.take_succ_cons]
      · rw [List.flatten_cons,List.append_assoc,← segments,List.take_append_drop]

/-- What is decoded tiles the body. -/
theorem decode_tiled {numParts : UInt8} {buf : Bytes} {trunc : Nat} {parts : List Bytes}
    (decoded : decodeCompoundMessage (numParts :: buf) = .ok (trunc,parts)) : Tiled numParts.toNat buf trunc parts := by
  simp only [decodeCompoundMessage] at decoded
  split_ifs at decoded
  have same := Except.ok.inj decoded
  obtain ⟨counted,sized,rest,segments,next⟩ :=
    splitParts_tiles (partLengths numParts.toNat buf) (buf.drop (numParts.toNat * 2))
  rw [same] at counted sized segments next
  rw [length_partLengths] at counted
  rw [partLengths_declared] at sized next
  refine ⟨counted,?_,rest,segments,fun cut => ?_⟩
  · rw [sized,← List.map_take,List.take_range,Nat.min_eq_left (Nat.le.intro counted)]
  · obtain ⟨n,declared,short⟩ := next cut
    have within : parts.length < numParts.toNat := Nat.lt_of_lt_of_eq (Nat.lt_add_of_pos_right cut) counted
    rw [List.getElem?_map,List.getElem?_range within,Option.map_some] at declared
    exact Option.some.inj declared ▸ short

/-- Messages that fit their length fields come back from their compound messages, of up
    to 255 parts each, in order. Whatever is decoded, it is refused where the count or a
    length field is missing and tiles the body otherwise. -/
theorem compound_framing_exact :
    (∀ msgs : List Bytes, (∀ m ∈ msgs, m.length ≤ 65535) → ∃ decoded : List (List Bytes),
      (makeCompoundMessages msgs).map (fun c => decodeCompoundMessage c.tail) = decoded.map (fun parts => .ok (0,parts)) ∧
        (∀ parts ∈ decoded, parts.length ≤ 255) ∧ decoded.flatten = msgs) ∧
    ∀ buf : Bytes, match decodeCompoundMessage buf with
      | .error .missingLength => buf = []
      | .error .truncatedLengths => ∃ numParts body, buf = numParts :: body ∧ body.length < 2 * numParts.toNat
      | .ok (trunc,parts) => ∃ numParts body, buf = numParts :: body ∧ 2 * numParts.toNat ≤ body.length ∧
          Tiled numParts.toNat body trunc parts := by
  constructor
  · intro msgs sizes
    obtain ⟨pieces,whole,small,same⟩ := makeCompoundMessages_pieces msgs
    refine ⟨pieces,?_,small,whole⟩
    rw [same,List.map_map]
    refine List.map_congr_left (fun piece member => ?_)
    refine decode_makeCompoundMessage (small piece member) (fun m listed => Nat.lt_succ_of_le (sizes m ?_))
    rw [← whole]
    exact List.mem_flatten_of_mem member listed
  · intro buf
    cases buf with
    | nil => rfl
    | cons numParts body =>
      by_cases short : body.length < numParts.toNat * 2
      · have refused : decodeCompoundMessage (numParts :: body) = .error .truncatedLengths := if_pos short
        rw [refused]
        exact ⟨numParts,body,rfl,by omega⟩
      · cases decoded : decodeCompoundMessage (numParts :: body) with
        | error err =>
          simp only [decodeCompoundMessage,if_neg short] at decoded
          cases decoded
        | ok result => exact ⟨numParts,body,rfl,by omega,decode_tiled decoded⟩

/-- One message more than a compound message takes, and a body that ends within a part. -/
theorem compound_framing_exact_samples :
    (∃ decoded : List (List Bytes), (makeCompoundMessages (List.replicate 256 [8])).map (fun c => decodeCompoundMessage c.tail) =
        decoded.map (fun parts => .ok (0,parts)) ∧ (∀ parts ∈ decoded, parts.length ≤ 255) ∧
        decoded.flatten = List.replicate 256 [8]) ∧
      decodeCompoundMessage [2,0,1,0,5,9,9] = .ok (1,[[9]]) ∧ Tiled 2 [0,1,0,5,9,9] 1 [[9]] := by
  have decoded : decodeCompoundMessage [2,0,1,0,5,9,9] = .ok (1,[[9]]) := by
    simp [decodeCompoundMessage,partLengths,splitParts,ofBigEndian]
  refine ⟨compound_framing_exact.1 (List.replicate 256 [8]) (fun m member => ?_),decoded,?_⟩
  · rw [List.eq_of_mem_replicate member,List.length_singleton]
    omega
  · have framing := compound_framing_exact.2 [2,0,1,0,5,9,9]
    rw [decoded] at framing
    obtain ⟨numParts,body,same,-,tiled⟩ := framing
    cases same
    exact tiled

end Mori.Compound
