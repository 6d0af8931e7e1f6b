import Mori.Formats

/-!
The fields of the messages as tables: under which key each message keeps which kind of
value, and where. Every decoder is the decoder of its table, so that what holds of the
kinds of values holds of all messages: a message that is decoded depends on nothing but
the bytes that it takes, and no strict part of them is decoded.
-/
namespace Mori.Fields
open Mori.Net Mori.Readers Mori.Msgpack Mori.Protocol Mori.Wire Mori.Codecs Mori.Modes Mori.Formats
set_option linter.unusedSimpArgs false

/-- The kinds of values that fields have. -/
inductive Kind where
  | u32
  | u16
  | u8
  | int
  | bool
  | string
  | bytes (limit : Nat)

abbrev Kind.Value : Kind → Type
  | .u32 => UInt32
  | .u16 => UInt16
  | .u8 => UInt8
  | .int => Int
  | .bool => Bool
  | .string => Bytes
  | .bytes _ => Slice

def Kind.read {σ : Type} [Mode σ] : (k : Kind) → Reader σ Error k.Value
  | .u32 => decU32
  | .u16 => decU16
  | .u8 => decU8
  | .int => decInt
  | .bool => decBool
  | .string => decString
  | .bytes limit => decBytes limit

/-- A field of a message. -/
structure Slot (μ : Type) where
  name : String
  kind : Kind
  get : μ → kind.Value
  set : μ → kind.Value → μ

section
variable {σ μ : Type} [Mode σ]

/-- The decoder of a table: the first field of the name takes the value. -/
def fromSlots : List (Slot μ) → FieldDecoder σ μ
  | [] => fun _ _ => none
  | s :: slots => fun m k => if k = ascii s.name then some (do return s.set m (← s.kind.read)) else fromSlots slots m k

end

/-- The name that errors give a message. -/
def label : MessageType → String
  | .ping => "ping"
  | .indirectPingReq => "indirect ping"
  | .ackResp => "ack"
  | .nackResp => "nack"
  | .errResp => "error response"
  | .suspect => "suspect"
  | .alive => "alive"
  | .dead => "dead"
  | .pushPullHeader => "push/pull header"
  | .userMsgHeader => "user message header"
  | .pushNodeState => "push node state"
  | .compress => "compress"

/-- The message without any entries. -/
def zero : (t : MessageType) → t.Value
  | .ping => {}
  | .indirectPingReq => {}
  | .ackResp => {}
  | .nackResp => {}
  | .errResp => {}
  | .suspect => ⟨0,[],[]⟩
  | .alive => ⟨0,[],none,0,none,none⟩
  | .dead => ⟨0,[],[]⟩
  | .pushPullHeader => {}
  | .userMsgHeader => {}
  | .pushNodeState => {}
  | .compress => {}

def slots : (t : MessageType) → List (Slot t.Value)
  | .ping => [
      ⟨"SeqNo",.u32,Ping.seqNo,fun m v => { m with seqNo := v }⟩,
      ⟨"Node",.string,Ping.node,fun m v => { m with node := v }⟩,
      ⟨"SourceAddr",.bytes maxFieldBytes,Ping.sourceAddr,fun m v => { m with sourceAddr := v }⟩,
      ⟨"SourcePort",.u16,Ping.sourcePort,fun m v => { m with sourcePort := v }⟩,
      ⟨"SourceNode",.string,Ping.sourceNode,fun m v => { m with sourceNode := v }⟩]
  | .indirectPingReq => [
      ⟨"SeqNo",.u32,IndirectPingReq.seqNo,fun m v => { m with seqNo := v }⟩,
      ⟨"Target",.bytes maxFieldBytes,IndirectPingReq.target,fun m v => { m with target := v }⟩,
      ⟨"Port",.u16,IndirectPingReq.port,fun m v => { m with port := v }⟩,
      ⟨"Node",.string,IndirectPingReq.node,fun m v => { m with node := v }⟩,
      ⟨"Nack",.bool,IndirectPingReq.nack,fun m v => { m with nack := v }⟩,
      ⟨"SourceAddr",.bytes maxFieldBytes,IndirectPingReq.sourceAddr,fun m v => { m with sourceAddr := v }⟩,
      ⟨"SourcePort",.u16,IndirectPingReq.sourcePort,fun m v => { m with sourcePort := v }⟩,
      ⟨"SourceNode",.string,IndirectPingReq.sourceNode,fun m v => { m with sourceNode := v }⟩]
  | .ackResp => [
      ⟨"SeqNo",.u32,AckResp.seqNo,fun m v => { m with seqNo := v }⟩,
      ⟨"Payload",.bytes maxFieldBytes,AckResp.payload,fun m v => { m with payload := v }⟩]
  | .nackResp => [⟨"SeqNo",.u32,NackResp.seqNo,fun m v => { m with seqNo := v }⟩]
  | .errResp => [⟨"Error",.string,ErrResp.error,fun m v => { m with error := v }⟩]
  | .suspect => [
      ⟨"Incarnation",.u32,Suspect.incarnation,fun m v => { m with incarnation := v }⟩,
      ⟨"Node",.string,Suspect.node,fun m v => { m with node := v }⟩,
      ⟨"From",.string,Suspect.from_,fun m v => { m with from_ := v }⟩]
  | .alive => [
      ⟨"Incarnation",.u32,Alive.incarnation,fun m v => { m with incarnation := v }⟩,
      ⟨"Node",.string,Alive.node,fun m v => { m with node := v }⟩,
      ⟨"Addr",.bytes maxFieldBytes,Alive.addr,fun m v => { m with addr := v }⟩,
      ⟨"Port",.u16,Alive.port,fun m v => { m with port := v }⟩,
      ⟨"Meta",.bytes maxFieldBytes,Alive.metadata,fun m v => { m with metadata := v }⟩,
      ⟨"Vsn",.bytes maxFieldBytes,Alive.vsn,fun m v => { m with vsn := v }⟩]
  | .dead => [
      ⟨"Incarnation",.u32,Dead.incarnation,fun m v => { m with incarnation := v }⟩,
      ⟨"Node",.string,Dead.node,fun m v => { m with node := v }⟩,
      ⟨"From",.string,Dead.from_,fun m v => { m with from_ := v }⟩]
  | .pushPullHeader => [
      ⟨"Nodes",.int,PushPullHeader.nodes,fun m v => { m with nodes := v }⟩,
      ⟨"UserStateLen",.int,PushPullHeader.userStateLen,fun m v => { m with userStateLen := v }⟩,
      ⟨"Join",.bool,PushPullHeader.join,fun m v => { m with join := v }⟩]
  | .userMsgHeader => [⟨"UserMsgLen",.int,UserMsgHeader.userMsgLen,fun m v => { m with userMsgLen := v }⟩]
  | .pushNodeState => [
      ⟨"Name",.string,PushNodeState.name,fun m v => { m with name := v }⟩,
      ⟨"Addr",.bytes maxFieldBytes,PushNodeState.addr,fun m v => { m with addr := v }⟩,
      ⟨"Port",.u16,PushNodeState.port,fun m v => { m with port := v }⟩,
      ⟨"Meta",.bytes maxFieldBytes,PushNodeState.metadata,fun m v => { m with metadata := v }⟩,
      ⟨"Incarnation",.u32,PushNodeState.incarnation,fun m v => { m with incarnation := v }⟩,
      ⟨"State",.int,PushNodeState.state,fun m v => { m with state := v }⟩,
      ⟨"Vsn",.bytes maxFieldBytes,PushNodeState.vsn,fun m v => { m with vsn := v }⟩]
  | .compress => [
      ⟨"Algo",.u8,Compress.algo,fun m v => { m with algo := v }⟩,
      ⟨"Buf",.bytes maxCompressedBytes,Compress.buf,fun m v => { m with buf := v }⟩]

/-- Every message is decoded by its table. -/
theorem decodeMsgpack_eq {σ : Type} [Mode σ] (t : MessageType) :
    (decodeMsgpack t : Reader σ Error t.Value) = decodeMap (label t) (fromSlots (slots t)) (zero t) := by
  cases t <;> rfl

theorem exact_readByte : Exact readByte := by
  rintro ⟨streaming,_ | ⟨c,rest⟩⟩ c' d' done
  · cases done
  · cases done
    exact ⟨[c],rfl,reads_readByte c⟩

theorem exact_readInto (n : Nat) : Exact (readInto n) := by
  intro d a d' done
  obtain ⟨b,same,rfl,rfl⟩ := derives_readInto n d a d' done
  exact ⟨b,same,reads_readInto b⟩

theorem exact_readFixed (n : Nat) : Exact (readFixed n) := exact_map (exact_readInto n)

theorem exact_discard (n : Nat) : Exact (discard n) := exact_map (exact_readInto n)

theorem exact_rawLen (want : String) : Exact (rawLen want : Dec _) := by
  refine exact_bind exact_readByte (fun c => ?_)
  refine exact_ite (exact_pure _) (exact_ite (exact_pure _) ?_)
  refine exact_ite (exact_map (exact_readFixed 1)) (exact_ite (exact_map (exact_readFixed 2)) ?_)
  exact exact_ite (exact_map (exact_readFixed 4)) (exact_throw _)

theorem exact_readBytes (limit : Nat) : Exact (readBytes limit : Dec _) := by
  refine exact_bind (exact_rawLen _) ?_
  rintro (_ | n)
  · exact exact_pure _
  · exact exact_ite (exact_throw _) (exact_ite (exact_pure _) (exact_map (exact_readInto n)))

theorem exact_readString (limit : Nat) : Exact (readString limit : Dec _) := by
  refine exact_bind (exact_rawLen _) ?_
  rintro (_ | n)
  · exact exact_pure _
  · exact exact_ite (exact_pure _) (exact_ite (exact_throw _) (exact_readInto n))

theorem exact_readKey : Exact (readKey : Dec _) := by
  refine exact_of_derives derives_readKey ?_
  rintro b _ ⟨k,key,rfl⟩
  exact reads_key key

theorem exact_readInteger (want : String) : Exact (readInteger want : Dec _) :=
  exact_of_derives (derives_readInteger want) (fun _ _ derived => reads_readInteger derived want)

theorem exact_readUint (limit : Nat) : Exact (readUint limit : Dec _) :=
  exact_bind (exact_readInteger _)
    (fun _ => exact_ite (exact_throw _) (exact_ite (exact_throw _) (exact_pure _)))

theorem exact_readInt (lo hi : Int) : Exact (readInt lo hi : Dec _) :=
  exact_bind (exact_readInteger _)
    (fun _ => exact_ite (exact_throw _) (exact_ite (exact_throw _) (exact_pure _)))

theorem exact_readBool : Exact (readBool : Dec _) :=
  exact_bind exact_readByte (fun _ => exact_ite (exact_pure _) (exact_ite (exact_pure _) (exact_throw _)))

theorem exact_read (k : Kind) : Exact (k.read : Dec k.Value) := by
  cases k with
  | u32 | u16 | u8 => exact exact_map (exact_readUint _)
  | int => exact exact_readInt _ _
  | bool => exact exact_readBool
  | string => exact exact_readString _
  | bytes limit => exact exact_readBytes limit

theorem exact_skipHeader (c : UInt8) : Exact (skipHeader c : Dec _) := by
  have fixed (n : Nat) (f : Nat → Body) : Exact (readFixed n >>= fun v => pure (f v)) := exact_map (exact_readFixed n)
  refine exact_ite (exact_pure _) (exact_ite (exact_pure _) (exact_ite (exact_pure _) (exact_ite (exact_pure _) ?_)))
  refine exact_ite (exact_pure _) (exact_ite (exact_pure _) (exact_ite (exact_pure _) (exact_ite (exact_pure _) ?_)))
  refine exact_ite (exact_pure _) (exact_ite (fixed 1 _) (exact_ite (fixed 2 _) (exact_ite (fixed 4 _) ?_)))
  refine exact_ite (fixed 1 (fun n => .payload (n + 1))) (exact_ite (fixed 2 (fun n => .payload (n + 1))) ?_)
  refine exact_ite (fixed 4 (fun n => .payload (n + 1))) (exact_ite (fixed 2 _) (exact_ite (fixed 4 _) ?_))
  refine exact_ite (fixed 2 (fun n => .elements (2 * n))) ?_
  exact exact_ite (fixed 4 (fun n => .elements (2 * n))) (exact_throw _)

/-- A check that `n` bytes are left passes with every input that starts with what is taken. -/
theorem exact_guarded {α : Type} {n : Nat} {e : Error} {loop : Dec α} (takes : Consumes n loop) (exact : Exact loop) :
    Exact (do
      match Mode.remaining (← get) with
      | some r => if r < n then throw e else loop
      | none => loop) := by
  intro d a d' done
  obtain ⟨_,_,got,rest⟩ := bind_ok.mp done
  cases got
  have ran : loop.run d = .ok (a,d') := by
    split at rest
    · split_ifs at rest
      · cases rest
      · exact rest
    · exact rest
  obtain ⟨b,same,reads⟩ := exact d a d' ran
  exact ⟨b,same,reads_guarded takes reads⟩

theorem exact_skipWithin (depth : Nat) : Exact (skipWithin depth : Dec _) := by
  induction depth with
  | zero => exact exact_throw _
  | succ depth ih =>
    refine exact_bind exact_readByte (fun c => exact_bind (exact_skipHeader c) ?_)
    rintro (n | n)
    · exact exact_discard n
    · exact exact_guarded (consumes_elements depth n) (exact_iterate (fun _ => ih) n ())

theorem exact_skip : Exact (skip : Dec _) := exact_skipWithin _

/-- A count is checked against two bytes for each entry. -/
theorem exactBefore_readMapHeader : ExactBefore (fun n => n * 2) (readMapHeader : Dec _) := by
  intro d n d' done
  obtain ⟨b,same,header⟩ := derives_readMapHeader d n d' done
  exact ⟨b,same,fun t enough => run_mapHeader header enough⟩

theorem twin_read {σ τ : Type} [Mode σ] [Unread UInt8 σ] [LawfulMode σ] [Mode τ] [Unread UInt8 τ] [LawfulMode τ]
    (k : Kind) : Twin 1 (k.read : Reader σ Error _) (k.read : Reader τ Error _) := by
  cases k with
  | u32 => exact twin_decU32
  | u16 => exact twin_decU16
  | u8 => exact twin_decU8
  | int => exact twin_decInt
  | bool => exact twin_decBool
  | string => exact twin_decString
  | bytes limit => exact twin_decBytes limit

section
variable {μ : Type} {message : String} {table : List (Slot μ)}

/-- A known field is read and set; of two fields of a name the first is. -/
theorem fromSlots_some {σ : Type} [Mode σ] {m : μ} {k : Bytes} {decode : Reader σ Error μ}
    (known : fromSlots table m k = some decode) :
    ∃ s ∈ table, k = ascii s.name ∧ decode = (do return s.set m (← s.kind.read)) := by
  induction table with
  | nil => cases known
  | cons s table ih =>
    unfold fromSlots at known
    split_ifs at known with named
    · cases known
      exact ⟨s,List.mem_cons_self,named,rfl⟩
    · obtain ⟨s',listed,rest⟩ := ih known
      exact ⟨s',List.mem_cons_of_mem s listed,rest⟩

theorem exact_decodeEntry (m : μ) : Exact (decodeEntry message (fromSlots table) m : Dec _) := by
  refine exact_bind (exact_wrapError exact_readKey) (fun k => exact_wrapError ?_)
  cases known : fromSlots (σ := Decoder) table m (bytes k) with
  | none => exact exact_map exact_skip
  | some decode =>
    obtain ⟨s,-,-,rfl⟩ := fromSlots_some known
    exact exact_map (exact_read s.kind)

theorem alike_fromSlots {σ τ : Type} [Mode σ] [Unread UInt8 σ] [LawfulMode σ] [Mode τ] [Unread UInt8 τ] [LawfulMode τ]
    (m : μ) (k : Bytes) : Alike (fromSlots (σ := σ) table m k) (fromSlots (σ := τ) table m k) := by
  induction table with
  | nil => exact .unknown
  | cons s table ih => exact alike_ite (twin_read s.kind) ih

/-- The entries take two bytes each: a format byte of the key and one of the value. -/
theorem consumes_entries (n : Nat) (m : μ) :
    Consumes (n * 2) (iterate (decodeEntry message (fromSlots table)) n m : Dec μ) :=
  (twin_iterate (twin_decodeEntry (τ := Decoder) alike_fromSlots) n m).left

theorem exact_decodeMap (zero : μ) : Exact (decodeMap message (fromSlots table) zero : Dec μ) :=
  exact_before (exactBefore_wrapError exactBefore_readMapHeader) (exact_iterate exact_decodeEntry · zero)
    (consumes_entries · zero)

end

theorem exact_decodeMsgpack (t : MessageType) : Exact (decodeMsgpack t : Dec t.Value) := by
  rw [decodeMsgpack_eq]
  exact exact_decodeMap (zero t)

/-- What is decoded from a slice is decoded from it with anything after it. -/
theorem decoded_append {t : MessageType} {b : Bytes} {v : t.Value} {d : Decoder}
    (decoded : (decodeMsgpack t : Dec _).run (newDecoder b) = .ok (v,d)) :
    ∃ taken rest, b = taken ++ rest ∧ d = newDecoder rest ∧
      ∀ suffix, (decodeMsgpack t : Dec _).run (newDecoder (b ++ suffix)) = .ok (v,newDecoder (rest ++ suffix)) := by
  obtain ⟨taken,same,reads⟩ := exact_decodeMsgpack t (newDecoder b) v d decoded
  obtain ⟨streaming,rest⟩ := d
  simp only [newDecoder,Input.feed,Decoder.mk.injEq] at same
  obtain ⟨rfl,rfl⟩ := same
  refine ⟨taken,rest,rfl,rfl,fun suffix => ?_⟩
  rw [List.append_assoc]
  exact reads (newDecoder (rest ++ suffix))

/-- What is decoded to the end of a slice is decoded from no strict prefix of it, and what
    is decoded from a slice is decoded from the same bytes whatever follows them. -/
theorem truncated_rejected (t : MessageType) (b : Bytes) (v : t.Value) (d : Decoder)
    (decoded : (decodeMsgpack t : Dec _).run (newDecoder b) = .ok (v,d)) :
    (d.input = [] → ∀ p, p <+: b → p ≠ b → ∃ e, (decodeMsgpack t : Dec _).run (newDecoder p) = .error e) ∧
    ∃ taken rest, b = taken ++ rest ∧ d = newDecoder rest ∧
      ∀ suffix, (decodeMsgpack t : Dec _).run (newDecoder (b ++ suffix)) = .ok (v,newDecoder (rest ++ suffix)) := by
  refine ⟨?_,decoded_append decoded⟩
  rintro whole p ⟨suffix,rfl⟩ strict
  cases ran : (decodeMsgpack t : Dec _).run (newDecoder p) with
  | error e => exact ⟨e,rfl⟩
  | ok r =>
    -- The prefix would be decoded from the whole too, and leave the rest of it.
    obtain ⟨_,rest,-,-,more⟩ := decoded_append ran
    have left := more suffix
    rw [decoded] at left
    cases left
    have none : suffix = [] := (List.append_eq_nil_iff.mp whole).2
    exact absurd (by rw [none,List.append_nil]) strict

theorem truncated_rejected_nack :
    ((⟨false,[]⟩ : Decoder).input = [] → ∀ p, p <+: appendNackResp ⟨300⟩ → p ≠ appendNackResp ⟨300⟩ →
      ∃ e, (decodeMsgpack .nackResp : Dec _).run (newDecoder p) = .error e) ∧
    ∃ taken rest, appendNackResp ⟨300⟩ = taken ++ rest ∧ ⟨false,[]⟩ = newDecoder rest ∧
      ∀ suffix, (decodeMsgpack .nackResp : Dec _).run (newDecoder (appendNackResp ⟨300⟩ ++ suffix)) =
        .ok (⟨300⟩,newDecoder (rest ++ suffix)) :=
  truncated_rejected .nackResp (appendNackResp ⟨300⟩) ⟨300⟩ ⟨false,[]⟩ rfl

end Mori.Fields
