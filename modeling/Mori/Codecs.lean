import Mori.Wire

/-!
The codec of the twelve messages as a whole. What is written is a map of entries in
the order of their keys, each with one value; what was written is read back, except
that an empty source address of a ping is left out and comes back as nil; and what
is read from any input can be written and read again.
-/
namespace Mori.Codecs
open Mori.Net Mori.Readers Mori.Msgpack Mori.Protocol Mori.Wire
set_option linter.unusedSimpArgs false

/-- The types of messages. -/
inductive MessageType where
  | ping
  | indirectPingReq
  | ackResp
  | nackResp
  | errResp
  | suspect
  | alive
  | dead
  | pushPullHeader
  | userMsgHeader
  | pushNodeState
  | compress
deriving DecidableEq,Repr

abbrev MessageType.Value : MessageType → Type
  | .ping => Ping
  | .indirectPingReq => IndirectPingReq
  | .ackResp => AckResp
  | .nackResp => NackResp
  | .errResp => ErrResp
  | .suspect => Suspect
  | .alive => Alive
  | .dead => Dead
  | .pushPullHeader => PushPullHeader
  | .userMsgHeader => UserMsgHeader
  | .pushNodeState => PushNodeState
  | .compress => Compress

/-- `AppendMsgpack`. -/
def appendMsgpack : (t : MessageType) → t.Value → Bytes
  | .ping => appendPing
  | .indirectPingReq => appendIndirectPingReq
  | .ackResp => appendAckResp
  | .nackResp => appendNackResp
  | .errResp => appendErrResp
  | .suspect => appendSuspect
  | .alive => appendAlive
  | .dead => appendDead
  | .pushPullHeader => appendPushPullHeader
  | .userMsgHeader => appendUserMsgHeader
  | .pushNodeState => appendPushNodeState
  | .compress => appendCompress

/-- `DecodeMsgpack`. -/
def decodeMsgpack {σ : Type} [Mode σ] : (t : MessageType) → Reader σ Error t.Value
  | .ping => decodePing
  | .indirectPingReq => decodeIndirectPingReq
  | .ackResp => decodeAckResp
  | .nackResp => decodeNackResp
  | .errResp => decodeErrResp
  | .suspect => decodeSuspect
  | .alive => decodeAlive
  | .dead => decodeDead
  | .pushPullHeader => decodePushPullHeader
  | .userMsgHeader => decodeUserMsgHeader
  | .pushNodeState => decodePushNodeState
  | .compress => decodeCompress

/-- A string within the bound of a field. -/
def Text (b : Bytes) : Prop := b.length ≤ maxFieldBytes

/-- A byte slice within the bound of a field. -/
def Field (s : Slice) : Prop := (bytes s).length ≤ maxFieldBytes

/-- An `int` of the source. -/
def GoInt (v : Int) : Prop := -2 ^ 63 ≤ v ∧ v < 2 ^ 63

/-- The fields of a message are within the bounds of their decoders. -/
def Within : (t : MessageType) → t.Value → Prop
  | .ping,m => Text m.node ∧ Field m.sourceAddr ∧ Text m.sourceNode
  | .indirectPingReq,m => Field m.target ∧ Text m.node ∧ Field m.sourceAddr ∧ Text m.sourceNode
  | .ackResp,m => Field m.payload
  | .nackResp,_ => True
  | .errResp,m => Text m.error
  | .suspect,m => Text m.node ∧ Text m.from_
  | .alive,m => Text m.node ∧ Field m.addr ∧ Field m.metadata ∧ Field m.vsn
  | .dead,m => Text m.node ∧ Text m.from_
  | .pushPullHeader,m => GoInt m.nodes ∧ GoInt m.userStateLen
  | .userMsgHeader,m => GoInt m.userMsgLen
  | .pushNodeState,m => Text m.name ∧ Field m.addr ∧ Field m.metadata ∧ GoInt m.state ∧ Field m.vsn
  | .compress,m => (bytes m.buf).length ≤ maxCompressedBytes

/-- An empty slice as nil. -/
def nonempty (s : Slice) : Slice := if (bytes s).length = 0 then none else s

/-- The message with an empty source address as nil. -/
def normalise : (t : MessageType) → t.Value → t.Value
  | .ping,m => { m with sourceAddr := nonempty m.sourceAddr }
  | .indirectPingReq,m => { m with sourceAddr := nonempty m.sourceAddr }
  | .ackResp,m => m
  | .nackResp,m => m
  | .errResp,m => m
  | .suspect,m => m
  | .alive,m => m
  | .dead,m => m
  | .pushPullHeader,m => m
  | .userMsgHeader,m => m
  | .pushNodeState,m => m
  | .compress,m => m

/-- An entry of a map: its key and its encoded value. -/
structure Entry where
  key : String
  value : Bytes

def Entry.encode (e : Entry) : Bytes := appendString (ascii e.key) ++ e.value

def sourceEntries (addr : Slice) (port : UInt16) (node : Bytes) : List Entry :=
  (if (bytes addr).length ≠ 0 then [⟨"SourceAddr",appendBytes addr⟩] else []) ++
  ((if node ≠ [] then [⟨"SourceNode",appendString node⟩] else []) ++
  (if port ≠ 0 then [⟨"SourcePort",appendUint port.toNat⟩] else []))

def entries : (t : MessageType) → t.Value → List Entry
  | .ping,m => [⟨"Node",appendString m.node⟩,⟨"SeqNo",appendUint m.seqNo.toNat⟩] ++
      sourceEntries m.sourceAddr m.sourcePort m.sourceNode
  | .indirectPingReq,m => [⟨"Nack",appendBool m.nack⟩,⟨"Node",appendString m.node⟩,
      ⟨"Port",appendUint m.port.toNat⟩,⟨"SeqNo",appendUint m.seqNo.toNat⟩] ++
      (sourceEntries m.sourceAddr m.sourcePort m.sourceNode ++ [⟨"Target",appendBytes m.target⟩])
  | .ackResp,m => [⟨"Payload",appendBytes m.payload⟩,⟨"SeqNo",appendUint m.seqNo.toNat⟩]
  | .nackResp,m => [⟨"SeqNo",appendUint m.seqNo.toNat⟩]
  | .errResp,m => [⟨"Error",appendString m.error⟩]
  | .suspect,m => [⟨"From",appendString m.from_⟩,⟨"Incarnation",appendUint m.incarnation.toNat⟩,
      ⟨"Node",appendString m.node⟩]
  | .alive,m => [⟨"Addr",appendBytes m.addr⟩,⟨"Incarnation",appendUint m.incarnation.toNat⟩,
      ⟨"Meta",appendBytes m.metadata⟩,⟨"Node",appendString m.node⟩,⟨"Port",appendUint m.port.toNat⟩,
      ⟨"Vsn",appendBytes m.vsn⟩]
  | .dead,m => [⟨"From",appendString m.from_⟩,⟨"Incarnation",appendUint m.incarnation.toNat⟩,
      ⟨"Node",appendString m.node⟩]
  | .pushPullHeader,m => [⟨"Join",appendBool m.join⟩,⟨"Nodes",appendInt m.nodes⟩,
      ⟨"UserStateLen",appendInt m.userStateLen⟩]
  | .userMsgHeader,m => [⟨"UserMsgLen",appendInt m.userMsgLen⟩]
  | .pushNodeState,m => [⟨"Addr",appendBytes m.addr⟩,⟨"Incarnation",appendUint m.incarnation.toNat⟩,
      ⟨"Meta",appendBytes m.metadata⟩,⟨"Name",appendString m.name⟩,⟨"Port",appendUint m.port.toNat⟩,
      ⟨"State",appendInt m.state⟩,⟨"Vsn",appendBytes m.vsn⟩]
  | .compress,m => [⟨"Algo",appendUint m.algo.toNat⟩,⟨"Buf",appendBytes m.buf⟩]

/-- A source field is either counted as left out or written. -/
theorem length_sourceEntries (addr : Slice) (port : UInt16) (node : Bytes) :
    (sourceEntries addr port node).length = 3 - omitted addr port node := by
  unfold sourceEntries omitted
  by_cases a : (bytes addr).length = 0 <;> by_cases n : node = [] <;> by_cases p : port = 0 <;> simp [a,n,p]

theorem omitted_le (addr : Slice) (port : UInt16) (node : Bytes) : omitted addr port node ≤ 3 := by
  unfold omitted
  split_ifs <;> omega

theorem appendSource_eq (addr : Slice) (port : UInt16) (node : Bytes) :
    appendSource addr port node = ((sourceEntries addr port node).map Entry.encode).flatten := by
  unfold appendSource sourceEntries
  by_cases a : (bytes addr).length = 0 <;> by_cases n : node = [] <;> by_cases p : port = 0 <;>
    simp [a,n,p,Entry.encode,appendB,appendS,appendU]

/-- A message is written as the map of its entries. -/
theorem appendMsgpack_eq (t : MessageType) (v : t.Value) :
    appendMsgpack t v = appendMap ((entries t v).map Entry.encode) := by
  cases t with
  | ping =>
    have most := omitted_le v.sourceAddr v.sourcePort v.sourceNode
    have count : ((entries .ping v).map Entry.encode).length = 5 - omitted v.sourceAddr v.sourcePort v.sourceNode := by
      simp only [entries,List.length_map,List.length_append,List.length_cons,List.length_nil,length_sourceEntries]
      omega
    rw [appendMap,count]
    simp [appendMsgpack,appendPing,appendSource_eq,entries,Entry.encode,appendS,appendU]
  | indirectPingReq =>
    have most := omitted_le v.sourceAddr v.sourcePort v.sourceNode
    have count : ((entries .indirectPingReq v).map Entry.encode).length =
        8 - omitted v.sourceAddr v.sourcePort v.sourceNode := by
      simp only [entries,List.length_map,List.length_append,List.length_cons,List.length_nil,length_sourceEntries]
      omega
    rw [appendMap,count]
    simp [appendMsgpack,appendIndirectPingReq,appendSource_eq,entries,Entry.encode,appendS,appendU,appendB,appendFlag]
  | _ => rfl

/-- The keys are written in the order of their bytes. -/
theorem keys_increase (t : MessageType) (v : t.Value) :
    ((entries t v).map (fun e => ascii e.key)).Pairwise (· < ·) := by
  cases t with
  | ping | indirectPingReq =>
    simp only [entries,sourceEntries]
    split_ifs <;> simp only [List.map_append,List.map_cons,List.map_nil] <;> decide
  | _ =>
    simp only [entries,List.map_cons,List.map_nil]
    decide

section
variable {μ : Type} {decodeField : FieldDecoder Decoder μ} {m m' m'' : μ} {rest : List Entry} {key : String}
  {value : Bytes}

theorem fills_entry {read : Dec μ} (short : (ascii key).length ≤ maxKeyLen)
    (known : decodeField m (ascii key) = some read) (reads : Reads read value m')
    (fills : Fills decodeField m' (rest.map Entry.encode) m'') :
    Fills decodeField m ((⟨key,value⟩ :: rest : List Entry).map Entry.encode) m'' := .cons short known reads fills

/-- An entry that is written under a condition, and is not needed where it fails. -/
theorem fills_when (m' : μ) {c : Prop} [Decidable c] (short : (ascii key).length ≤ maxKeyLen)
    (written : c → ∃ read, decodeField m (ascii key) = some read ∧ Reads read value m') (unneeded : ¬ c → m = m')
    (fills : Fills decodeField m' (rest.map Entry.encode) m'') :
    Fills decodeField m (((if c then [⟨key,value⟩] else []) ++ rest : List Entry).map Entry.encode) m'' := by
  by_cases holds : c
  · obtain ⟨read,known,reads⟩ := written holds
    rw [if_pos holds]
    exact fills_entry short known reads fills
  · rw [if_neg holds,unneeded holds]
    exact fills

end

theorem reads_field {s : Slice} (within : Field s) : Reads (decBytes maxFieldBytes : Dec _) (appendBytes s) s :=
  reads_decBytes within (by decide)

theorem reads_int {v : Int} (within : GoInt v) : Reads (decInt : Dec _) (appendInt v) v :=
  reads_decInt within.1 within.2

theorem nonempty_of_ne {s : Slice} (some : (bytes s).length ≠ 0) : nonempty s = s := if_neg some

theorem nonempty_of_eq {s : Slice} (none : ¬ (bytes s).length ≠ 0) : nonempty s = .none :=
  if_pos (not_not.mp none)

theorem fills_ping {m : Ping} (within : Within .ping m) :
    Fills pingField {} ((entries .ping m).map Entry.encode) (normalise .ping m) := by
  obtain ⟨node,addr,source⟩ := within
  refine fills_entry (by decide) rfl (reads_map (reads_decString node)) ?_
  refine fills_entry (by decide) rfl (reads_map (reads_decU32 m.seqNo)) ?_
  refine fills_when { seqNo := m.seqNo, node := m.node, sourceAddr := nonempty m.sourceAddr } (by decide) ?_ ?_ ?_
  · intro some
    rw [nonempty_of_ne some]
    exact ⟨_,rfl,reads_map (reads_field addr)⟩
  · intro none
    rw [nonempty_of_eq none]
  refine fills_when
    { seqNo := m.seqNo, node := m.node, sourceAddr := nonempty m.sourceAddr, sourceNode := m.sourceNode }
    (by decide) ?_ ?_ ?_
  · exact fun _ => ⟨_,rfl,reads_map (reads_decString source)⟩
  · intro none
    rw [not_not.mp none]
  rw [← List.append_nil (if m.sourcePort ≠ 0 then _ else _)]
  refine fills_when _ (by decide) ?_ ?_ (.nil _)
  · exact fun _ => ⟨_,rfl,reads_map (reads_decU16 m.sourcePort)⟩
  · intro none
    simp only [normalise,not_not.mp none]

theorem fills_indirectPingReq {m : IndirectPingReq} (within : Within .indirectPingReq m) :
    Fills indirectPingReqField {} ((entries .indirectPingReq m).map Entry.encode) (normalise .indirectPingReq m) := by
  obtain ⟨target,node,addr,source⟩ := within
  refine fills_entry (by decide) rfl (reads_map (reads_readBool m.nack)) ?_
  refine fills_entry (by decide) rfl (reads_map (reads_decString node)) ?_
  refine fills_entry (by decide) rfl (reads_map (reads_decU16 m.port)) ?_
  refine fills_entry (by decide) rfl (reads_map (reads_decU32 m.seqNo)) ?_
  simp only [sourceEntries,List.append_assoc,List.nil_append]
  refine fills_when {
    seqNo := m.seqNo, port := m.port, node := m.node, nack := m.nack,
    sourceAddr := nonempty m.sourceAddr } (by decide) ?_ ?_ ?_
  · intro some
    rw [nonempty_of_ne some]
    exact ⟨_,rfl,reads_map (reads_field addr)⟩
  · intro none
    rw [nonempty_of_eq none]
  refine fills_when {
    seqNo := m.seqNo, port := m.port, node := m.node, nack := m.nack,
    sourceAddr := nonempty m.sourceAddr, sourceNode := m.sourceNode } (by decide) ?_ ?_ ?_
  · exact fun _ => ⟨_,rfl,reads_map (reads_decString source)⟩
  · intro none
    rw [not_not.mp none]
  refine fills_when {
    seqNo := m.seqNo, port := m.port, node := m.node, nack := m.nack,
    sourceAddr := nonempty m.sourceAddr, sourceNode := m.sourceNode, sourcePort := m.sourcePort } (by decide) ?_ ?_ ?_
  · exact fun _ => ⟨_,rfl,reads_map (reads_decU16 m.sourcePort)⟩
  · intro none
    rw [not_not.mp none]
  exact fills_entry (by decide) rfl (reads_map (reads_field target)) (.nil _)

theorem reads_suspect {m : Suspect} (within : Within .suspect m) : Reads (decodeSuspect : Dec _) (appendSuspect m) m := by
  refine reads_decodeMap ?_ (by simp)
  refine .cons (by decide) rfl (reads_map (reads_decString within.2)) ?_
  refine .cons (by decide) rfl (reads_map (reads_decU32 m.incarnation)) ?_
  exact .cons (by decide) rfl (reads_map (reads_decString within.1)) (.nil m)

theorem reads_alive {m : Alive} (within : Within .alive m) : Reads (decodeAlive : Dec _) (appendAlive m) m := by
  obtain ⟨node,addr,metadata,vsn⟩ := within
  refine reads_decodeMap ?_ (by simp)
  refine .cons (by decide) rfl (reads_map (reads_field addr)) ?_
  refine .cons (by decide) rfl (reads_map (reads_decU32 m.incarnation)) ?_
  refine .cons (by decide) rfl (reads_map (reads_field metadata)) ?_
  refine .cons (by decide) rfl (reads_map (reads_decString node)) ?_
  refine .cons (by decide) rfl (reads_map (reads_decU16 m.port)) ?_
  exact .cons (by decide) rfl (reads_map (reads_field vsn)) (.nil m)

theorem reads_dead {m : Dead} (within : Within .dead m) : Reads (decodeDead : Dec _) (appendDead m) m := by
  refine reads_decodeMap ?_ (by simp)
  refine .cons (by decide) rfl (reads_map (reads_decString within.2)) ?_
  refine .cons (by decide) rfl (reads_map (reads_decU32 m.incarnation)) ?_
  exact .cons (by decide) rfl (reads_map (reads_decString within.1)) (.nil m)

theorem reads_ackResp {m : AckResp} (within : Field m.payload) : Reads (decodeAckResp : Dec _) (appendAckResp m) m := by
  refine reads_decodeMap ?_ (by simp)
  refine .cons (by decide) rfl (reads_map (reads_field within)) ?_
  exact .cons (by decide) rfl (reads_map (reads_decU32 m.seqNo)) (.nil m)

/-- A map has fewer entries than its header byte can count. -/
theorem few_entries (t : MessageType) (v : t.Value) : ((entries t v).map Entry.encode).length < 16 := by
  cases t with
  | ping | indirectPingReq =>
    simp only [entries,List.length_map,List.length_append,List.length_cons,List.length_nil,length_sourceEntries]
    omega
  | _ => simp [entries]

theorem reads_appendMsgpack {t : MessageType} {v : t.Value} (within : Within t v) :
    Reads (decodeMsgpack t : Dec _) (appendMsgpack t v) (normalise t v) := by
  cases t with
  | ping =>
    rw [appendMsgpack_eq]
    exact reads_decodeMap (fills_ping within) (few_entries .ping v)
  | indirectPingReq =>
    rw [appendMsgpack_eq]
    exact reads_decodeMap (fills_indirectPingReq within) (few_entries .indirectPingReq v)
  | ackResp => exact reads_ackResp within
  | nackResp =>
    refine reads_decodeMap ?_ (by simp)
    exact .cons (by decide) rfl (reads_map (reads_decU32 v.seqNo)) (.nil v)
  | errResp =>
    refine reads_decodeMap ?_ (by simp)
    exact .cons (by decide) rfl (reads_map (reads_decString within)) (.nil v)
  | suspect => exact reads_suspect within
  | alive => exact reads_alive within
  | dead => exact reads_dead within
  | pushPullHeader => exact reads_pushPullHeader within.1 within.2
  | userMsgHeader =>
    refine reads_decodeMap ?_ (by simp)
    exact .cons (by decide) rfl (reads_map (reads_int within)) (.nil v)
  | pushNodeState =>
    obtain ⟨name,addr,metadata,state,vsn⟩ := within
    exact reads_pushNodeState ⟨name,addr,metadata,vsn⟩ state.1 state.2
  | compress => exact reads_compress within

theorem reads_skip_text {b : Bytes} (within : Text b) : Reads (skip : Dec _) (appendString b) () :=
  reads_skip_string (Nat.lt_of_le_of_lt within (by decide))

theorem reads_skip_field {s : Slice} (within : Field s) : Reads (skip : Dec _) (appendBytes s) () :=
  reads_skip_bytes (Nat.lt_of_le_of_lt within (by decide))

theorem sourceEntries_values {addr : Slice} {port : UInt16} {node : Bytes} (text : Text node) (field : Field addr) :
    ∀ e ∈ sourceEntries addr port node, Reads (skip : Dec _) e.value () := by
  intro e written
  simp only [sourceEntries,List.mem_append] at written
  rcases written with written | written | written
  · obtain ⟨_,member⟩ := List.mem_ite_nil_right.mp written
    rw [List.mem_singleton.mp member]
    exact reads_skip_field field
  · obtain ⟨_,member⟩ := List.mem_ite_nil_right.mp written
    rw [List.mem_singleton.mp member]
    exact reads_skip_text text
  · obtain ⟨_,member⟩ := List.mem_ite_nil_right.mp written
    rw [List.mem_singleton.mp member]
    exact reads_skip_uint _

/-- An entry can be skipped by a decoder that does not know its key. -/
theorem entries_values {t : MessageType} {v : t.Value} (within : Within t v) :
    ∀ e ∈ entries t v, Reads (skip : Dec _) e.value () := by
  cases t <;> simp only [Within] at within <;>
    simp only [entries,List.forall_mem_append,List.forall_mem_cons,List.forall_mem_nil]
  case ping =>
    obtain ⟨node,addr,source⟩ := within
    exact ⟨⟨reads_skip_text node,reads_skip_uint _,List.forall_mem_nil _⟩,sourceEntries_values source addr⟩
  case indirectPingReq =>
    obtain ⟨target,node,addr,source⟩ := within
    exact ⟨⟨reads_skip_bool _,reads_skip_text node,reads_skip_uint _,reads_skip_uint _,List.forall_mem_nil _⟩,
      sourceEntries_values source addr,reads_skip_field target,List.forall_mem_nil _⟩
  case ackResp => exact ⟨reads_skip_field within,reads_skip_uint _,List.forall_mem_nil _⟩
  case nackResp => exact ⟨reads_skip_uint _,List.forall_mem_nil _⟩
  case errResp => exact ⟨reads_skip_text within,List.forall_mem_nil _⟩
  case suspect | dead =>
    exact ⟨reads_skip_text within.2,reads_skip_uint _,reads_skip_text within.1,List.forall_mem_nil _⟩
  case alive =>
    obtain ⟨node,addr,metadata,vsn⟩ := within
    exact ⟨reads_skip_field addr,reads_skip_uint _,reads_skip_field metadata,reads_skip_text node,reads_skip_uint _,
      reads_skip_field vsn,List.forall_mem_nil _⟩
  case pushPullHeader => exact ⟨reads_skip_bool _,reads_skip_int _,reads_skip_int _,List.forall_mem_nil _⟩
  case userMsgHeader => exact ⟨reads_skip_int _,List.forall_mem_nil _⟩
  case pushNodeState =>
    obtain ⟨name,addr,metadata,_,vsn⟩ := within
    exact ⟨reads_skip_field addr,reads_skip_uint _,reads_skip_field metadata,reads_skip_text name,reads_skip_uint _,
      reads_skip_int _,reads_skip_field vsn,List.forall_mem_nil _⟩
  case compress =>
    exact ⟨reads_skip_uint _,reads_skip_bytes (Nat.lt_of_le_of_lt within (by decide)),List.forall_mem_nil _⟩

theorem yields_decString : Yields (decString : Dec _) Text := yields_readString _

theorem yields_decBytes : Yields (decBytes maxFieldBytes : Dec _) Field := yields_readBytes _

theorem yields_decInt : Yields (decInt : Dec _) GoInt :=
  yields_mono (yields_readInt _ _) (fun _ inside => ⟨inside.1,by omega⟩)

theorem yields_ping : Yields (decodePing : Dec _) (Within .ping) := by
  refine yields_decodeMap ⟨Nat.zero_le _,Nat.zero_le _,Nat.zero_le _⟩ ?_
  rintro m k ⟨node,addr,source⟩
  refine fieldYields_keep (fun _ => ⟨node,addr,source⟩) ?_
  refine fieldYields_read yields_decString (fun _ node => ⟨node,addr,source⟩) ?_
  refine fieldYields_read yields_decBytes (fun _ addr => ⟨node,addr,source⟩) ?_
  refine fieldYields_keep (fun _ => ⟨node,addr,source⟩) ?_
  exact fieldYields_read yields_decString (fun _ source => ⟨node,addr,source⟩) fieldYields_none

theorem yields_indirectPingReq : Yields (decodeIndirectPingReq : Dec _) (Within .indirectPingReq) := by
  refine yields_decodeMap ⟨Nat.zero_le _,Nat.zero_le _,Nat.zero_le _,Nat.zero_le _⟩ ?_
  rintro m k ⟨target,node,addr,source⟩
  refine fieldYields_keep (fun _ => ⟨target,node,addr,source⟩) ?_
  refine fieldYields_read yields_decBytes (fun _ target => ⟨target,node,addr,source⟩) ?_
  refine fieldYields_keep (fun _ => ⟨target,node,addr,source⟩) ?_
  refine fieldYields_read yields_decString (fun _ node => ⟨target,node,addr,source⟩) ?_
  refine fieldYields_keep (fun _ => ⟨target,node,addr,source⟩) ?_
  refine fieldYields_read yields_decBytes (fun _ addr => ⟨target,node,addr,source⟩) ?_
  refine fieldYields_keep (fun _ => ⟨target,node,addr,source⟩) ?_
  exact fieldYields_read yields_decString (fun _ source => ⟨target,node,addr,source⟩) fieldYields_none

theorem yields_ackResp : Yields (decodeAckResp : Dec _) (Within .ackResp) := by
  refine yields_decodeMap (Nat.zero_le _) ?_
  intro m k payload
  refine fieldYields_keep (fun _ => payload) ?_
  exact fieldYields_read yields_decBytes (fun _ payload => payload) fieldYields_none

theorem yields_errResp : Yields (decodeErrResp : Dec _) (Within .errResp) := by
  refine yields_decodeMap (Nat.zero_le _) ?_
  intro m k _
  exact fieldYields_read yields_decString (fun _ error => error) fieldYields_none

theorem yields_suspect : Yields (decodeSuspect : Dec _) (Within .suspect) := by
  refine yields_decodeMap ⟨Nat.zero_le _,Nat.zero_le _⟩ ?_
  rintro m k ⟨node,source⟩
  refine fieldYields_keep (fun _ => ⟨node,source⟩) ?_
  refine fieldYields_read yields_decString (fun _ node => ⟨node,source⟩) ?_
  exact fieldYields_read yields_decString (fun _ source => ⟨node,source⟩) fieldYields_none

theorem yields_alive : Yields (decodeAlive : Dec _) (Within .alive) := by
  refine yields_decodeMap ⟨Nat.zero_le _,Nat.zero_le _,Nat.zero_le _,Nat.zero_le _⟩ ?_
  rintro m k ⟨node,addr,metadata,vsn⟩
  refine fieldYields_keep (fun _ => ⟨node,addr,metadata,vsn⟩) ?_
  refine fieldYields_read yields_decString (fun _ node => ⟨node,addr,metadata,vsn⟩) ?_
  refine fieldYields_read yields_decBytes (fun _ addr => ⟨node,addr,metadata,vsn⟩) ?_
  refine fieldYields_keep (fun _ => ⟨node,addr,metadata,vsn⟩) ?_
  refine fieldYields_read yields_decBytes (fun _ metadata => ⟨node,addr,metadata,vsn⟩) ?_
  exact fieldYields_read yields_decBytes (fun _ vsn => ⟨node,addr,metadata,vsn⟩) fieldYields_none

theorem yields_dead : Yields (decodeDead : Dec _) (Within .dead) := by
  refine yields_decodeMap ⟨Nat.zero_le _,Nat.zero_le _⟩ ?_
  rintro m k ⟨node,source⟩
  refine fieldYields_keep (fun _ => ⟨node,source⟩) ?_
  refine fieldYields_read yields_decString (fun _ node => ⟨node,source⟩) ?_
  exact fieldYields_read yields_decString (fun _ source => ⟨node,source⟩) fieldYields_none

theorem goInt_zero : GoInt 0 := by unfold GoInt; omega

theorem yields_pushPullHeader : Yields (decodePushPullHeader : Dec _) (Within .pushPullHeader) := by
  refine yields_decodeMap ⟨goInt_zero,goInt_zero⟩ ?_
  rintro m k ⟨nodes,state⟩
  refine fieldYields_read yields_decInt (fun _ nodes => ⟨nodes,state⟩) ?_
  refine fieldYields_read yields_decInt (fun _ state => ⟨nodes,state⟩) ?_
  exact fieldYields_keep (fun _ => ⟨nodes,state⟩) fieldYields_none

theorem yields_userMsgHeader : Yields (decodeUserMsgHeader : Dec _) (Within .userMsgHeader) := by
  refine yields_decodeMap goInt_zero ?_
  intro m k _
  exact fieldYields_read yields_decInt (fun _ length => length) fieldYields_none

theorem yields_pushNodeState : Yields (decodePushNodeState : Dec _) (Within .pushNodeState) := by
  refine yields_decodeMap ⟨Nat.zero_le _,Nat.zero_le _,Nat.zero_le _,goInt_zero,Nat.zero_le _⟩ ?_
  rintro m k ⟨name,addr,metadata,state,vsn⟩
  refine fieldYields_read yields_decString (fun _ name => ⟨name,addr,metadata,state,vsn⟩) ?_
  refine fieldYields_read yields_decBytes (fun _ addr => ⟨name,addr,metadata,state,vsn⟩) ?_
  refine fieldYields_keep (fun _ => ⟨name,addr,metadata,state,vsn⟩) ?_
  refine fieldYields_read yields_decBytes (fun _ metadata => ⟨name,addr,metadata,state,vsn⟩) ?_
  refine fieldYields_keep (fun _ => ⟨name,addr,metadata,state,vsn⟩) ?_
  refine fieldYields_read yields_decInt (fun _ state => ⟨name,addr,metadata,state,vsn⟩) ?_
  exact fieldYields_read yields_decBytes (fun _ vsn => ⟨name,addr,metadata,state,vsn⟩) fieldYields_none

theorem yields_compress : Yields (decodeCompress : Dec _) (Within .compress) := by
  refine yields_decodeMap (Nat.zero_le _) ?_
  intro m k buf
  refine fieldYields_keep (fun _ => buf) ?_
  exact fieldYields_read (yields_readBytes _) (fun _ buf => buf) fieldYields_none

theorem yields_decodeMsgpack (t : MessageType) : Yields (decodeMsgpack t : Dec _) (Within t) := by
  cases t with
  | ping => exact yields_ping
  | indirectPingReq => exact yields_indirectPingReq
  | ackResp => exact yields_ackResp
  | nackResp => exact fun _ _ _ _ => trivial
  | errResp => exact yields_errResp
  | suspect => exact yields_suspect
  | alive => exact yields_alive
  | dead => exact yields_dead
  | pushPullHeader => exact yields_pushPullHeader
  | userMsgHeader => exact yields_userMsgHeader
  | pushNodeState => exact yields_pushNodeState
  | compress => exact yields_compress

/-- The codec round-trips. A message within its bounds is read back from what was
    written, whatever follows, as itself up to an empty source address; it is
    written as a map whose keys increase, with one value to each key; and what was
    read from any input reads the same once it is written again. -/
theorem wire_roundTrip (t : MessageType) :
    (∀ v, Within t v → ∀ streaming rest,
      (decodeMsgpack t).run (⟨streaming,appendMsgpack t v ++ rest⟩ : Decoder) =
        .ok (normalise t v,⟨streaming,rest⟩)) ∧
    (∀ v, Within t v → ∃ entries : List Entry,
      appendMsgpack t v = appendMapHeader entries.length ++ (entries.map Entry.encode).flatten ∧
      (entries.map (fun e => ascii e.key)).Pairwise (· < ·) ∧
      ∀ e ∈ entries, ∀ streaming rest,
        skip.run (⟨streaming,e.value ++ rest⟩ : Decoder) = .ok ((),⟨streaming,rest⟩)) ∧
    ∀ (d d' : Decoder) v, (decodeMsgpack t).run d = .ok (v,d') → ∀ streaming rest,
      (decodeMsgpack t).run (⟨streaming,appendMsgpack t v ++ rest⟩ : Decoder) =
        .ok (normalise t v,⟨streaming,rest⟩) := by
  refine ⟨?_,?_,?_⟩
  · intro v within streaming rest
    exact reads_appendMsgpack within ⟨streaming,rest⟩
  · intro v within
    refine ⟨entries t v,?_,keys_increase t v,?_⟩
    · rw [appendMsgpack_eq,appendMap,List.length_map]
    · intro e written streaming rest
      exact entries_values within e written ⟨streaming,rest⟩
  · intro d d' v decoded streaming rest
    exact reads_appendMsgpack (yields_decodeMsgpack t d v d' decoded) ⟨streaming,rest⟩

theorem wire_roundTrip_emptySource :
    (decodeMsgpack .ping).run (⟨false,appendMsgpack .ping ⟨7,ascii "a",some [],0,[]⟩ ++ [9]⟩ : Decoder) =
      .ok ((⟨7,ascii "a",none,0,[]⟩ : Ping),⟨false,[9]⟩) :=
  (wire_roundTrip .ping).1 ⟨7,ascii "a",some [],0,[]⟩ ⟨by unfold Text; decide,Nat.zero_le _,Nat.zero_le _⟩ false [9]

end Mori.Codecs
