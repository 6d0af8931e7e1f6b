import Mori.Codecs

/-!
Any two modes of a decoder agree, provided that their reads do to the unread input
what they should. A mode that knows how much is left refuses counts early; the values
that were counted take at least a byte each, so that the other mode fails on them.
-/
namespace Mori.Modes
open Mori.Net Mori.Readers Mori.Msgpack Mori.Protocol Mori.Wire Mori.Codecs

instance : Unread UInt8 Decoder := ⟨Decoder.input⟩

/-- The first `n` bytes and the rest. -/
def taken (n : Nat) (b : Bytes) : Option (Bytes × Bytes) := if n ≤ b.length then some (b.take n,b.drop n) else none

/-- The first byte and the rest. -/
def nextByte : Bytes → Option (UInt8 × Bytes)
  | [] => none
  | c :: rest => some (c,rest)

/-- The reads of a mode take what is unread in order, and fail where it is too short. -/
class LawfulMode (σ : Type) [Mode σ] [Unread UInt8 σ] : Prop where
  remaining : ∀ (s : σ) r, Mode.remaining s = some r → r = (Unread.unread s).length
  readByte : ∀ s : σ, outcome Mode.readByte s = nextByte (Unread.unread s)
  readFixed : ∀ n (s : σ), outcome (Mode.readFixed n) s = (taken n (Unread.unread s)).map (Prod.map ofBigEndian id)
  readInto : ∀ n (s : σ), outcome (Mode.readInto n) s = taken n (Unread.unread s)
  discard : ∀ n (s : σ), outcome (Mode.discard n) s = (taken n (Unread.unread s)).map (Prod.map (fun _ => ()) id)
  readText : ∀ n (s : σ), outcome (Mode.readText n) s = taken n (Unread.unread s)
  readName : ∀ n (s : σ), outcome (Mode.readName n) s = taken n (Unread.unread s)

theorem length_of_taken {n : Nat} {b a rest : Bytes} (some : taken n b = .some (a,rest)) :
    rest.length + n ≤ b.length := by
  unfold taken at some
  split_ifs at some with enough
  cases some
  rw [List.length_drop]
  omega

theorem length_of_taken_map {α : Type} {f : Bytes → α} {n : Nat} {b rest : Bytes} {a : α}
    (some : (taken n b).map (Prod.map f id) = .some (a,rest)) : rest.length + n ≤ b.length := by
  obtain ⟨⟨a',rest'⟩,first,same⟩ := Option.map_eq_some_iff.mp some
  cases same
  exact length_of_taken first

theorem length_of_nextByte {b rest : Bytes} {c : UInt8} (some : nextByte b = .some (c,rest)) :
    rest.length + 1 ≤ b.length := by
  cases b with
  | nil => cases some
  | cons c' b => cases some; exact le_rfl

/-- Two decoders of a field are twins, or neither knows the field. -/
inductive Alike {σ τ μ : Type} [Unread UInt8 σ] [Unread UInt8 τ] :
    Option (Reader σ Error μ) → Option (Reader τ Error μ) → Prop
  | unknown : Alike none none
  | known {p : Reader σ Error μ} {q : Reader τ Error μ} (twin : Twin 1 p q) : Alike (some p) (some q)

theorem alike_ite {σ τ μ : Type} [Unread UInt8 σ] [Unread UInt8 τ] {c : Prop} [Decidable c]
    {α : Type} {p : Reader σ Error α} {q : Reader τ Error α} {f : α → μ} {a : Option (Reader σ Error μ)}
    {b : Option (Reader τ Error μ)} (twin : Twin 1 p q) (other : Alike a b) :
    Alike (if c then some (do return f (← p)) else a) (if c then some (do return f (← q)) else b) := by
  split_ifs
  · exact .known (twin_map twin)
  · exact other

section
variable {σ τ : Type} [Mode σ] [Unread UInt8 σ] [LawfulMode σ] [Mode τ] [Unread UInt8 τ] [LawfulMode τ]

theorem twin_readByte : Twin 1 (Mode.readByte : Reader σ Error _) (Mode.readByte : Reader τ Error _) :=
  twin_of_outcome LawfulMode.readByte LawfulMode.readByte (fun _ _ _ => length_of_nextByte)

theorem twin_readFixed (n : Nat) : Twin n (Mode.readFixed n : Reader σ Error _) (Mode.readFixed n : Reader τ Error _) :=
  twin_of_outcome (LawfulMode.readFixed n) (LawfulMode.readFixed n) (fun _ _ _ => length_of_taken_map)

theorem twin_readInto (n : Nat) : Twin n (Mode.readInto n : Reader σ Error _) (Mode.readInto n : Reader τ Error _) :=
  twin_of_outcome (LawfulMode.readInto n) (LawfulMode.readInto n) (fun _ _ _ => length_of_taken)

theorem twin_discard (n : Nat) : Twin n (Mode.discard n : Reader σ Error _) (Mode.discard n : Reader τ Error _) :=
  twin_of_outcome (LawfulMode.discard n) (LawfulMode.discard n) (fun _ _ _ => length_of_taken_map)

theorem twin_readText (n : Nat) : Twin n (Mode.readText n : Reader σ Error _) (Mode.readText n : Reader τ Error _) :=
  twin_of_outcome (LawfulMode.readText n) (LawfulMode.readText n) (fun _ _ _ => length_of_taken)

theorem twin_readName (n : Nat) : Twin n (Mode.readName n : Reader σ Error _) (Mode.readName n : Reader τ Error _) :=
  twin_of_outcome (LawfulMode.readName n) (LawfulMode.readName n) (fun _ _ _ => length_of_taken)

/-- A value takes at least its format byte. -/
theorem twin_format {α : Type} {f : UInt8 → Reader σ Error α} {g : UInt8 → Reader τ Error α}
    (rest : ∀ c, Twin 0 (f c) (g c)) : Twin 1 (Mode.readByte >>= f) (Mode.readByte >>= g) :=
  twin_bind twin_readByte rest

theorem twin_readRaw (n : Int) : Twin 0 (readRaw n : Reader σ Error _) (readRaw n : Reader τ Error _) := by
  unfold readRaw
  split_ifs
  · exact twin_throw _ _
  · exact twin_any (twin_readInto _)

theorem twin_rawLen (want : String) : Twin 1 (rawLen want : Reader σ Error _) (rawLen want : Reader τ Error _) := by
  refine twin_format (fun c => ?_)
  refine twin_ite (twin_pure _) (twin_ite (twin_pure _) ?_)
  refine twin_ite (twin_map (twin_any (twin_readFixed 1))) ?_
  refine twin_ite (twin_map (twin_any (twin_readFixed 2))) ?_
  exact twin_ite (twin_map (twin_any (twin_readFixed 4))) (twin_throw _ _)

theorem twin_readBytes (limit : Nat) : Twin 1 (readBytes limit : Reader σ Error _) (readBytes limit : Reader τ Error _) := by
  refine twin_after (twin_rawLen _) ?_
  rintro (_ | n)
  · exact twin_pure _
  · exact twin_ite (twin_throw _ _) (twin_ite (twin_pure _) (twin_map (twin_any (twin_readInto n))))

theorem twin_readString (limit : Nat) :
    Twin 1 (readString limit : Reader σ Error _) (readString limit : Reader τ Error _) := by
  refine twin_after (twin_rawLen _) ?_
  rintro (_ | n)
  · exact twin_pure _
  · exact twin_ite (twin_pure _) (twin_ite (twin_throw _ _) (twin_any (twin_readText n)))

theorem twin_readKey : Twin 1 (readKey : Reader σ Error _) (readKey : Reader τ Error _) := by
  refine twin_after (twin_rawLen _) ?_
  rintro (_ | n)
  · exact twin_pure _
  · refine twin_ite ?_ (twin_map (twin_any (twin_readName n)))
    exact twin_after (twin_any (twin_discard n)) (fun _ => twin_pure _)

theorem twin_readInteger (want : String) :
    Twin 1 (readInteger want : Reader σ Error _) (readInteger want : Reader τ Error _) := by
  refine twin_format (fun c => ?_)
  refine twin_ite (twin_pure _) (twin_ite (twin_pure _) (twin_ite (twin_pure _) ?_))
  refine twin_ite (twin_map (f := fun n : Nat => (n : Int)) (twin_any (twin_readFixed 1))) ?_
  refine twin_ite (twin_map (f := fun n : Nat => (n : Int)) (twin_any (twin_readFixed 2))) ?_
  refine twin_ite (twin_map (f := fun n : Nat => (n : Int)) (twin_any (twin_readFixed 4))) ?_
  refine twin_ite (twin_map (f := fun n : Nat => (n : Int)) (twin_any (twin_readFixed 8))) ?_
  refine twin_ite (twin_map (twin_any (twin_readFixed 1))) ?_
  refine twin_ite (twin_map (twin_any (twin_readFixed 2))) ?_
  refine twin_ite (twin_map (twin_any (twin_readFixed 4))) ?_
  exact twin_ite (twin_map (twin_any (twin_readFixed 8))) (twin_throw _ _)

theorem twin_readUint (limit : Nat) : Twin 1 (readUint limit : Reader σ Error _) (readUint limit : Reader τ Error _) :=
  twin_after (twin_readInteger _) (fun _ => twin_ite (twin_throw _ _) (twin_ite (twin_throw _ _) (twin_pure _)))

theorem twin_readInt (lo hi : Int) : Twin 1 (readInt lo hi : Reader σ Error _) (readInt lo hi : Reader τ Error _) :=
  twin_after (twin_readInteger _) (fun _ => twin_ite (twin_throw _ _) (twin_ite (twin_throw _ _) (twin_pure _)))

theorem twin_readBool : Twin 1 (readBool : Reader σ Error _) (readBool : Reader τ Error _) :=
  twin_format (fun _ => twin_ite (twin_pure _) (twin_ite (twin_pure _) (twin_throw _ _)))

theorem twin_skipHeader (c : UInt8) : Twin 0 (skipHeader c : Reader σ Error _) (skipHeader c : Reader τ Error _) := by
  have fixed (n : Nat) (f : Nat → Body) : Twin 0 ((Mode.readFixed n : Reader σ Error _) >>= fun v => pure (f v))
      ((Mode.readFixed n : Reader τ Error _) >>= fun v => pure (f v)) := twin_map (twin_any (twin_readFixed n))
  refine twin_ite (twin_pure _) (twin_ite (twin_pure _) (twin_ite (twin_pure _) (twin_ite (twin_pure _) ?_)))
  refine twin_ite (twin_pure _) (twin_ite (twin_pure _) (twin_ite (twin_pure _) (twin_ite (twin_pure _) ?_)))
  refine twin_ite (twin_pure _) (twin_ite (fixed 1 _) (twin_ite (fixed 2 _) (twin_ite (fixed 4 _) ?_)))
  refine twin_ite (fixed 1 (fun n => .payload (n + 1))) (twin_ite (fixed 2 (fun n => .payload (n + 1))) ?_)
  refine twin_ite (fixed 4 (fun n => .payload (n + 1))) (twin_ite (fixed 2 _) (twin_ite (fixed 4 _) ?_))
  refine twin_ite (fixed 2 (fun n => .elements (2 * n))) ?_
  exact twin_ite (fixed 4 (fun n => .elements (2 * n))) (twin_throw _ _)

/-- Refusing `n` values early for want of input changes nothing where they take as much. -/
theorem outcome_guarded {α : Type} {n : Nat} {e : Error} {loop : Reader σ Error α} (takes : Consumes n loop) (s : σ) :
    outcome (do
      match Mode.remaining (← get) with
      | some r => if r < n then throw e else loop
      | none => loop) s = outcome loop s := by
  rw [outcome_get_bind]
  cases left : Mode.remaining s with
  | none => rfl
  | some r =>
    by_cases few : r < n
    · rw [LawfulMode.remaining s r left] at few
      simp only [LawfulMode.remaining s r left,if_pos few,outcome_throw]
      exact (outcome_of_consumes takes few).symm
    · simp only [if_neg few]

theorem twin_skipWithin (depth : Nat) :
    Twin 1 (skipWithin depth : Reader σ Error _) (skipWithin depth : Reader τ Error _) := by
  induction depth with
  | zero => exact twin_throw _ _
  | succ depth ih =>
    refine twin_format (fun c => twin_after (twin_skipHeader c) ?_)
    rintro (n | n)
    · exact twin_any (twin_discard n)
    · have loop := twin_iterate (fun _ => ih) n ()
      rw [Nat.mul_one] at loop
      exact twin_any (twin_congr (outcome_guarded loop.left) (outcome_guarded loop.right) loop)

theorem twin_skip : Twin 1 (skip : Reader σ Error _) (skip : Reader τ Error _) := twin_skipWithin _

/-- What a count is read as, once the bound on counts is kept. -/
def counted (n : Nat) (b : Bytes) : Option (Nat × Bytes) := if 2 ^ 31 - 1 < n then none else some (n,b)

/-- A count is refused early only where too little is left. -/
theorem outcome_checkMapCount (n : Nat) (s : σ) :
    outcome (checkMapCount n) s = counted n (Unread.unread s) ∨
    outcome (checkMapCount n) s = none ∧ (Unread.unread s).length < n * 2 := by
  unfold checkMapCount counted
  by_cases large : 2 ^ 31 - 1 < n
  · simp only [large,if_true]
    exact .inl rfl
  · simp only [large,if_false,outcome_get_bind]
    cases left : Mode.remaining s with
    | none => exact .inl rfl
    | some r =>
      have length := LawfulMode.remaining s r left
      by_cases few : r / 2 < n
      · simp only [if_pos few]
        exact .inr ⟨rfl,by omega⟩
      · simp only [if_neg few]
        exact .inl rfl

theorem eq_of_checkMapCount {n m : Nat} {s : σ} {rest : Bytes} (some : outcome (checkMapCount n) s = .some (m,rest)) :
    m = n ∧ rest = Unread.unread s := by
  rcases outcome_checkMapCount n s with same | ⟨same,_⟩
  · rw [same,counted] at some
    split_ifs at some
    cases some
    exact ⟨rfl,rfl⟩
  · rw [same] at some
    cases some

theorem consumes_checkMapCount (n : Nat) : Consumes 0 (checkMapCount n : Reader σ Error _) := by
  intro s a s' done
  rw [(eq_of_checkMapCount (outcome_of_ok done)).2]
  exact le_rfl

theorem counted_checkMapCount (n : Nat) :
    Counted 2 0 (checkMapCount n : Reader σ Error _) (checkMapCount n : Reader τ Error _) where
  same s t unread := by
    by_cases few : (Unread.unread s).length < n * 2
    · refine .inr ⟨?_,?_⟩
      · intro m rest some
        obtain ⟨rfl,rfl⟩ := eq_of_checkMapCount some
        exact few
      · intro m rest some
        obtain ⟨rfl,rfl⟩ := eq_of_checkMapCount some
        exact unread ▸ few
    · have left := (outcome_checkMapCount n s).resolve_right (fun short => few short.2)
      have right := (outcome_checkMapCount n t).resolve_right (fun short => few (unread ▸ short.2))
      exact .inl (by rw [left,right,unread])
  left := consumes_checkMapCount n
  right := consumes_checkMapCount n

theorem counted_readMapHeader : Counted 2 1 (readMapHeader : Reader σ Error _) (readMapHeader : Reader τ Error _) := by
  refine counted_bind (k := 0) twin_readByte (fun c => ?_)
  split_ifs
  · exact counted_of_twin (twin_pure _)
  · exact counted_of_twin (twin_pure _)
  · exact counted_bind (twin_any (twin_readFixed 2)) counted_checkMapCount
  · exact counted_bind (twin_any (twin_readFixed 4)) counted_checkMapCount
  · exact counted_of_twin (twin_throw _ _)

section
variable {μ : Type} {message : String} {decodeField : FieldDecoder σ μ} {decodeField' : FieldDecoder τ μ}

theorem twin_decodeEntry (alike : ∀ m k, Alike (decodeField m k) (decodeField' m k)) (m : μ) :
    Twin 2 (decodeEntry message decodeField m) (decodeEntry message decodeField' m) := by
  refine twin_bind (twin_wrapError twin_readKey) (fun k => twin_wrapError (k := 1) ?_)
  have related := alike m (bytes k)
  generalize decodeField m (bytes k) = p,decodeField' m (bytes k) = q at related ⊢
  cases related with
  | unknown => exact twin_map twin_skip
  | known twin => exact twin

theorem twin_decodeMap (alike : ∀ m k, Alike (decodeField m k) (decodeField' m k)) (zero : μ) :
    Twin 1 (decodeMap message decodeField zero) (decodeMap message decodeField' zero) :=
  twin_counted (counted_wrapError counted_readMapHeader) (fun n => twin_iterate (twin_decodeEntry alike) n zero)

end

theorem twin_decU32 : Twin 1 (decU32 : Reader σ Error _) (decU32 : Reader τ Error _) := twin_map (twin_readUint _)

theorem twin_decU16 : Twin 1 (decU16 : Reader σ Error _) (decU16 : Reader τ Error _) := twin_map (twin_readUint _)

theorem twin_decU8 : Twin 1 (decU8 : Reader σ Error _) (decU8 : Reader τ Error _) := twin_map (twin_readUint _)

theorem twin_decInt : Twin 1 (decInt : Reader σ Error _) (decInt : Reader τ Error _) := twin_readInt _ _

theorem twin_decBool : Twin 1 (decBool : Reader σ Error _) (decBool : Reader τ Error _) := twin_readBool

theorem twin_decString : Twin 1 (decString : Reader σ Error _) (decString : Reader τ Error _) :=
  twin_readString _

theorem twin_decBytes (limit : Nat) :
    Twin 1 (decBytes limit : Reader σ Error _) (decBytes limit : Reader τ Error _) := twin_readBytes limit

theorem alike_ping (m : Ping) (k : Bytes) :
    Alike (pingField m k : Option (Reader σ Error _)) (pingField m k : Option (Reader τ Error _)) := by
  refine alike_ite twin_decU32 ?_
  refine alike_ite twin_decString ?_
  refine alike_ite (twin_decBytes _) ?_
  refine alike_ite twin_decU16 ?_
  exact alike_ite twin_decString .unknown

theorem alike_indirectPingReq (m : IndirectPingReq) (k : Bytes) :
    Alike (indirectPingReqField m k : Option (Reader σ Error _)) (indirectPingReqField m k : Option (Reader τ Error _)) := by
  refine alike_ite twin_decU32 ?_
  refine alike_ite (twin_decBytes _) ?_
  refine alike_ite twin_decU16 ?_
  refine alike_ite twin_decString ?_
  refine alike_ite twin_decBool ?_
  refine alike_ite (twin_decBytes _) ?_
  refine alike_ite twin_decU16 ?_
  exact alike_ite twin_decString .unknown

theorem alike_ackResp (m : AckResp) (k : Bytes) :
    Alike (ackRespField m k : Option (Reader σ Error _)) (ackRespField m k : Option (Reader τ Error _)) := by
  refine alike_ite twin_decU32 ?_
  exact alike_ite (twin_decBytes _) .unknown

theorem alike_nackResp (m : NackResp) (k : Bytes) :
    Alike (nackRespField m k : Option (Reader σ Error _)) (nackRespField m k : Option (Reader τ Error _)) := by
  exact alike_ite twin_decU32 .unknown

theorem alike_errResp (m : ErrResp) (k : Bytes) :
    Alike (errRespField m k : Option (Reader σ Error _)) (errRespField m k : Option (Reader τ Error _)) := by
  exact alike_ite twin_decString .unknown

theorem alike_suspect (m : Suspect) (k : Bytes) :
    Alike (suspectField m k : Option (Reader σ Error _)) (suspectField m k : Option (Reader τ Error _)) := by
  refine alike_ite twin_decU32 ?_
  refine alike_ite twin_decString ?_
  exact alike_ite twin_decString .unknown

theorem alike_alive (m : Alive) (k : Bytes) :
    Alike (aliveField m k : Option (Reader σ Error _)) (aliveField m k : Option (Reader τ Error _)) := by
  refine alike_ite twin_decU32 ?_
  refine alike_ite twin_decString ?_
  refine alike_ite (twin_decBytes _) ?_
  refine alike_ite twin_decU16 ?_
  refine alike_ite (twin_decBytes _) ?_
  exact alike_ite (twin_decBytes _) .unknown

theorem alike_dead (m : Dead) (k : Bytes) :
    Alike (deadField m k : Option (Reader σ Error _)) (deadField m k : Option (Reader τ Error _)) := by
  refine alike_ite twin_decU32 ?_
  refine alike_ite twin_decString ?_
  exact alike_ite twin_decString .unknown

theorem alike_pushPullHeader (m : PushPullHeader) (k : Bytes) :
    Alike (pushPullHeaderField m k : Option (Reader σ Error _)) (pushPullHeaderField m k : Option (Reader τ Error _)) := by
  refine alike_ite twin_decInt ?_
  refine alike_ite twin_decInt ?_
  exact alike_ite twin_decBool .unknown

theorem alike_userMsgHeader (m : UserMsgHeader) (k : Bytes) :
    Alike (userMsgHeaderField m k : Option (Reader σ Error _)) (userMsgHeaderField m k : Option (Reader τ Error _)) := by
  exact alike_ite twin_decInt .unknown

theorem alike_pushNodeState (m : PushNodeState) (k : Bytes) :
    Alike (pushNodeStateField m k : Option (Reader σ Error _)) (pushNodeStateField m k : Option (Reader τ Error _)) := by
  refine alike_ite twin_decString ?_
  refine alike_ite (twin_decBytes _) ?_
  refine alike_ite twin_decU16 ?_
  refine alike_ite (twin_decBytes _) ?_
  refine alike_ite twin_decU32 ?_
  refine alike_ite twin_decInt ?_
  exact alike_ite (twin_decBytes _) .unknown

theorem alike_compress (m : Compress) (k : Bytes) :
    Alike (compressField m k : Option (Reader σ Error _)) (compressField m k : Option (Reader τ Error _)) := by
  refine alike_ite twin_decU8 ?_
  exact alike_ite (twin_decBytes _) .unknown

/-- Two modes decode every message alike. -/
theorem twin_decodeMsgpack (t : MessageType) :
    Twin 1 (decodeMsgpack t : Reader σ Error _) (decodeMsgpack t : Reader τ Error _) := by
  cases t with
  | ping => exact twin_decodeMap alike_ping _
  | indirectPingReq => exact twin_decodeMap alike_indirectPingReq _
  | ackResp => exact twin_decodeMap alike_ackResp _
  | nackResp => exact twin_decodeMap alike_nackResp _
  | errResp => exact twin_decodeMap alike_errResp _
  | suspect => exact twin_decodeMap alike_suspect _
  | alive => exact twin_decodeMap alike_alive _
  | dead => exact twin_decodeMap alike_dead _
  | pushPullHeader => exact twin_decodeMap alike_pushPullHeader _
  | userMsgHeader => exact twin_decodeMap alike_userMsgHeader _
  | pushNodeState => exact twin_decodeMap alike_pushNodeState _
  | compress => exact twin_decodeMap alike_compress _

end

theorem outcome_readInto (n : Nat) (d : Decoder) : outcome (readInto n) d = taken n d.input := by
  unfold taken
  by_cases short : d.input.length < n
  · have failed : (readInto n).run d = .error .truncated := if_pos short
    rw [outcome_of_error failed,if_neg (Nat.not_le.mpr short)]
  · have done : (readInto n).run d = .ok (d.input.take n,{ d with input := d.input.drop n }) := if_neg short
    rw [outcome_of_ok done,if_pos (Nat.not_lt.mp short)]
    rfl

instance : LawfulMode Decoder where
  remaining d r known := by
    change (if d.streaming then none else some d.input.length) = some r at known
    split_ifs at known
    cases known
    rfl
  readByte d := by
    obtain ⟨streaming,_ | ⟨c,rest⟩⟩ := d
    · rfl
    · rfl
  readFixed n d := (outcome_map d).trans (congrArg _ (outcome_readInto n d))
  readInto := outcome_readInto
  discard n d := (outcome_map (f := fun _ => ()) d).trans (congrArg _ (outcome_readInto n d))
  readText := outcome_readInto
  readName := outcome_readInto

end Mori.Modes
