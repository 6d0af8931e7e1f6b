import Mori.Msgpack
import Mori.Protocol

/-!
The messages of the protocol and their codec (`internal/wire`). A message encodes
as a map keyed by field name, in the order of the names. Decoding takes the entries
in any order, skips unknown ones and lets the last of a key win.
-/
namespace Mori.Wire
open Mori.Net Mori.Readers Mori.Msgpack Mori.Protocol
set_option linter.unusedSimpArgs false

/-- The bound of a string or byte-slice field, except `Compress.buf`. -/
def maxFieldBytes : Nat := 2 ^ 20
def maxCompressedBytes : Nat := 64 * 2 ^ 20

/-- Sent directly to a node. The source fields are for a direct reply. -/
structure Ping where
  seqNo : UInt32 := 0
  node : Bytes := []
  sourceAddr : Slice := none
  sourcePort : UInt16 := 0
  sourceNode : Bytes := []
deriving DecidableEq,Repr

/-- Asks a node to ping a target on the sender's behalf. -/
structure IndirectPingReq where
  seqNo : UInt32 := 0
  target : Slice := none
  port : UInt16 := 0
  node : Bytes := []
  nack : Bool := false
  sourceAddr : Slice := none
  sourcePort : UInt16 := 0
  sourceNode : Bytes := []
deriving DecidableEq,Repr

structure AckResp where
  seqNo : UInt32 := 0
  payload : Slice := none
deriving DecidableEq,Repr

structure NackResp where
  seqNo : UInt32 := 0
deriving DecidableEq,Repr

/-- Relays an error from the remote end of a stream. -/
structure ErrResp where
  error : Bytes := []
deriving DecidableEq,Repr

/-- Tells the other side how many states follow. -/
structure PushPullHeader where
  nodes : Int := 0
  userStateLen : Int := 0
  join : Bool := false
deriving DecidableEq,Repr

/-- Precedes a user message on a stream. -/
structure UserMsgHeader where
  userMsgLen : Int := 0
deriving DecidableEq,Repr

/-- Wraps a payload compressed with `algo`. -/
structure Compress where
  algo : UInt8 := 0
  buf : Slice := none
deriving DecidableEq,Repr

/-- The bytes of a field name. -/
def ascii (s : String) : Bytes := s.toList.map (fun c => c.toNat.toUInt8)

section
variable {σ : Type} [Mode σ]

def decU32 : Reader σ Error UInt32 := do return UInt32.ofNat (← readUint (2 ^ 32 - 1))
def decU16 : Reader σ Error UInt16 := do return UInt16.ofNat (← readUint (2 ^ 16 - 1))
def decU8 : Reader σ Error UInt8 := do return UInt8.ofNat (← readUint (2 ^ 8 - 1))
def decInt : Reader σ Error Int := readInt (-2 ^ 63) (2 ^ 63 - 1)
def decBool : Reader σ Error Bool := readBool
def decString : Reader σ Error Bytes := readString maxFieldBytes
def decBytes (limit : Nat) : Reader σ Error Slice := readBytes limit

/-- How a message decodes the value of a field into itself; `none` for an unknown key. -/
abbrev FieldDecoder (σ μ : Type) := μ → Bytes → Option (Reader σ Error μ)

section
variable {μ : Type} (message : String) (decodeField : FieldDecoder σ μ)

/-- An entry of a map. -/
def decodeEntry (m : μ) : Reader σ Error μ := do
  let k ← wrapError (.field message none) readKey
  wrapError (.field message k) (match decodeField m (bytes k) with
    | some decode => decode
    | none => do
      skip
      return m)

def decodeMap (zero : μ) : Reader σ Error μ := do
  let n ← wrapError (.field message none) readMapHeader
  iterate (decodeEntry message decodeField) n zero

end

def pingField : FieldDecoder σ Ping := fun m k =>
  if k = ascii "SeqNo" then some (do return { m with seqNo := ← decU32 })
  else if k = ascii "Node" then some (do return { m with node := ← decString })
  else if k = ascii "SourceAddr" then some (do return { m with sourceAddr := ← decBytes maxFieldBytes })
  else if k = ascii "SourcePort" then some (do return { m with sourcePort := ← decU16 })
  else if k = ascii "SourceNode" then some (do return { m with sourceNode := ← decString })
  else none

def decodePing : Reader σ Error Ping := decodeMap "ping" pingField {}

def indirectPingReqField : FieldDecoder σ IndirectPingReq := fun m k =>
  if k = ascii "SeqNo" then some (do return { m with seqNo := ← decU32 })
  else if k = ascii "Target" then some (do return { m with target := ← decBytes maxFieldBytes })
  else if k = ascii "Port" then some (do return { m with port := ← decU16 })
  else if k = ascii "Node" then some (do return { m with node := ← decString })
  else if k = ascii "Nack" then some (do return { m with nack := ← decBool })
  else if k = ascii "SourceAddr" then some (do return { m with sourceAddr := ← decBytes maxFieldBytes })
  else if k = ascii "SourcePort" then some (do return { m with sourcePort := ← decU16 })
  else if k = ascii "SourceNode" then some (do return { m with sourceNode := ← decString })
  else none

def decodeIndirectPingReq : Reader σ Error IndirectPingReq := decodeMap "indirect ping" indirectPingReqField {}

def ackRespField : FieldDecoder σ AckResp := fun m k =>
  if k = ascii "SeqNo" then some (do return { m with seqNo := ← decU32 })
  else if k = ascii "Payload" then some (do return { m with payload := ← decBytes maxFieldBytes })
  else none

def decodeAckResp : Reader σ Error AckResp := decodeMap "ack" ackRespField {}

def nackRespField : FieldDecoder σ NackResp := fun m k =>
  if k = ascii "SeqNo" then some (do return { m with seqNo := ← decU32 })
  else none

def decodeNackResp : Reader σ Error NackResp := decodeMap "nack" nackRespField {}

def errRespField : FieldDecoder σ ErrResp := fun m k =>
  if k = ascii "Error" then some (do return { m with error := ← decString })
  else none

def decodeErrResp : Reader σ Error ErrResp := decodeMap "error response" errRespField {}

def suspectField : FieldDecoder σ Suspect := fun m k =>
  if k = ascii "Incarnation" then some (do return { m with incarnation := ← decU32 })
  else if k = ascii "Node" then some (do return { m with node := ← decString })
  else if k = ascii "From" then some (do return { m with from_ := ← decString })
  else none

def decodeSuspect : Reader σ Error Suspect := decodeMap "suspect" suspectField ⟨0,[],[]⟩

def aliveField : FieldDecoder σ Alive := fun m k =>
  if k = ascii "Incarnation" then some (do return { m with incarnation := ← decU32 })
  else if k = ascii "Node" then some (do return { m with node := ← decString })
  else if k = ascii "Addr" then some (do return { m with addr := ← decBytes maxFieldBytes })
  else if k = ascii "Port" then some (do return { m with port := ← decU16 })
  else if k = ascii "Meta" then some (do return { m with metadata := ← decBytes maxFieldBytes })
  else if k = ascii "Vsn" then some (do return { m with vsn := ← decBytes maxFieldBytes })
  else none

def decodeAlive : Reader σ Error Alive := decodeMap "alive" aliveField ⟨0,[],none,0,none,none⟩

def deadField : FieldDecoder σ Dead := fun m k =>
  if k = ascii "Incarnation" then some (do return { m with incarnation := ← decU32 })
  else if k = ascii "Node" then some (do return { m with node := ← decString })
  else if k = ascii "From" then some (do return { m with from_ := ← decString })
  else none

def decodeDead : Reader σ Error Dead := decodeMap "dead" deadField ⟨0,[],[]⟩

def pushPullHeaderField : FieldDecoder σ PushPullHeader := fun m k =>
  if k = ascii "Nodes" then some (do return { m with nodes := ← decInt })
  else if k = ascii "UserStateLen" then some (do return { m with userStateLen := ← decInt })
  else if k = ascii "Join" then some (do return { m with join := ← decBool })
  else none

def decodePushPullHeader : Reader σ Error PushPullHeader := decodeMap "push/pull header" pushPullHeaderField {}

def userMsgHeaderField : FieldDecoder σ UserMsgHeader := fun m k =>
  if k = ascii "UserMsgLen" then some (do return { m with userMsgLen := ← decInt })
  else none

def decodeUserMsgHeader : Reader σ Error UserMsgHeader := decodeMap "user message header" userMsgHeaderField {}

def pushNodeStateField : FieldDecoder σ PushNodeState := fun m k =>
  if k = ascii "Name" then some (do return { m with name := ← decString })
  else if k = ascii "Addr" then some (do return { m with addr := ← decBytes maxFieldBytes })
  else if k = ascii "Port" then some (do return { m with port := ← decU16 })
  else if k = ascii "Meta" then some (do return { m with metadata := ← decBytes maxFieldBytes })
  else if k = ascii "Incarnation" then some (do return { m with incarnation := ← decU32 })
  else if k = ascii "State" then some (do return { m with state := ← decInt })
  else if k = ascii "Vsn" then some (do return { m with vsn := ← decBytes maxFieldBytes })
  else none

def decodePushNodeState : Reader σ Error PushNodeState := decodeMap "push node state" pushNodeStateField {}

def compressField : FieldDecoder σ Compress := fun m k =>
  if k = ascii "Algo" then some (do return { m with algo := ← decU8 })
  else if k = ascii "Buf" then some (do return { m with buf := ← decBytes maxCompressedBytes })
  else none

def decodeCompress : Reader σ Error Compress := decodeMap "compress" compressField {}

end

/-- `decode`: a message from a slice, whatever follows it. -/
def decode {α : Type} (read : Dec α) (buf : Bytes) : Except Error α := (read.run (newDecoder buf)).map Prod.fst

def appendU (key : String) (v : Nat) : Bytes := appendString (ascii key) ++ appendUint v
def appendI (key : String) (v : Int) : Bytes := appendString (ascii key) ++ appendInt v
def appendS (key : String) (v : Bytes) : Bytes := appendString (ascii key) ++ appendString v
def appendB (key : String) (v : Slice) : Bytes := appendString (ascii key) ++ appendBytes v
def appendFlag (key : String) (v : Bool) : Bytes := appendString (ascii key) ++ appendBool v

/-- A map of encoded entries. -/
def appendMap (entries : List Bytes) : Bytes := appendMapHeader entries.length ++ entries.flatten

/-- How many of the source fields of a ping are zero, and so not written. -/
def omitted (addr : Slice) (port : UInt16) (node : Bytes) : Nat :=
  (if (bytes addr).length = 0 then 1 else 0) + (if port = 0 then 1 else 0) + (if node = [] then 1 else 0)

def appendSource (addr : Slice) (port : UInt16) (node : Bytes) : Bytes :=
  (if (bytes addr).length ≠ 0 then appendB "SourceAddr" addr else []) ++
  (if node ≠ [] then appendS "SourceNode" node else []) ++
  (if port ≠ 0 then appendU "SourcePort" port.toNat else [])

def appendPing (m : Ping) : Bytes :=
  appendMapHeader (5 - omitted m.sourceAddr m.sourcePort m.sourceNode) ++ appendS "Node" m.node ++
    appendU "SeqNo" m.seqNo.toNat ++ appendSource m.sourceAddr m.sourcePort m.sourceNode

def appendIndirectPingReq (m : IndirectPingReq) : Bytes :=
  appendMapHeader (8 - omitted m.sourceAddr m.sourcePort m.sourceNode) ++ appendFlag "Nack" m.nack ++
    appendS "Node" m.node ++ appendU "Port" m.port.toNat ++ appendU "SeqNo" m.seqNo.toNat ++
    appendSource m.sourceAddr m.sourcePort m.sourceNode ++ appendB "Target" m.target

def appendAckResp (m : AckResp) : Bytes := appendMap [appendB "Payload" m.payload,appendU "SeqNo" m.seqNo.toNat]

def appendNackResp (m : NackResp) : Bytes := appendMap [appendU "SeqNo" m.seqNo.toNat]

def appendErrResp (m : ErrResp) : Bytes := appendMap [appendS "Error" m.error]

def appendSuspect (m : Suspect) : Bytes :=
  appendMap [appendS "From" m.from_,appendU "Incarnation" m.incarnation.toNat,appendS "Node" m.node]

def appendAlive (m : Alive) : Bytes :=
  appendMap [appendB "Addr" m.addr,appendU "Incarnation" m.incarnation.toNat,appendB "Meta" m.metadata,
    appendS "Node" m.node,appendU "Port" m.port.toNat,appendB "Vsn" m.vsn]

def appendDead (m : Dead) : Bytes :=
  appendMap [appendS "From" m.from_,appendU "Incarnation" m.incarnation.toNat,appendS "Node" m.node]

def appendPushPullHeader (m : PushPullHeader) : Bytes :=
  appendMap [appendFlag "Join" m.join,appendI "Nodes" m.nodes,appendI "UserStateLen" m.userStateLen]

def appendUserMsgHeader (m : UserMsgHeader) : Bytes := appendMap [appendI "UserMsgLen" m.userMsgLen]

def appendPushNodeState (m : PushNodeState) : Bytes :=
  appendMap [appendB "Addr" m.addr,appendU "Incarnation" m.incarnation.toNat,appendB "Meta" m.metadata,
    appendS "Name" m.name,appendU "Port" m.port.toNat,appendI "State" m.state,appendB "Vsn" m.vsn]

def appendCompress (m : Compress) : Bytes := appendMap [appendU "Algo" m.algo.toNat,appendB "Buf" m.buf]

theorem reads_decU32 (v : UInt32) : Reads (decU32 : Dec _) (appendUint v.toNat) v := by
  have fits := v.toNat_lt
  have bound : v.toNat ≤ 2 ^ 32 - 1 := by omega
  have read := reads_map (f := UInt32.ofNat) (reads_readUint bound (by omega))
  rwa [UInt32.ofNat_toNat] at read

theorem reads_decU16 (v : UInt16) : Reads (decU16 : Dec _) (appendUint v.toNat) v := by
  have fits := v.toNat_lt
  have bound : v.toNat ≤ 2 ^ 16 - 1 := by omega
  have read := reads_map (f := UInt16.ofNat) (reads_readUint bound (by omega))
  rwa [UInt16.ofNat_toNat] at read

theorem reads_decU8 (v : UInt8) : Reads (decU8 : Dec _) (appendUint v.toNat) v := by
  have fits := v.toNat_lt
  have bound : v.toNat ≤ 2 ^ 8 - 1 := by omega
  have read := reads_map (f := UInt8.ofNat) (reads_readUint bound (by omega))
  rwa [UInt8.ofNat_toNat] at read

theorem reads_decInt {v : Int} (low : -2 ^ 63 ≤ v) (high : v < 2 ^ 63) : Reads (decInt : Dec _) (appendInt v) v :=
  reads_readInt low (by omega) low high

theorem reads_decString {b : Bytes} (bound : b.length ≤ maxFieldBytes) : Reads (decString : Dec _) (appendString b) b :=
  reads_readString bound (Nat.lt_of_le_of_lt bound (by decide))

theorem reads_decBytes {limit : Nat} {s : Slice} (bound : (bytes s).length ≤ limit) (small : limit < 2 ^ 32) :
    Reads (decBytes limit : Dec _) (appendBytes s) s :=
  reads_readBytes bound (Nat.lt_of_le_of_lt bound small)

section
variable {μ : Type} {message : String} {decodeField : FieldDecoder Decoder μ}

/-- The entries, in this order, turn one value of a message into another. -/
inductive Fills (decodeField : FieldDecoder Decoder μ) : μ → List Bytes → μ → Prop
  | nil (m : μ) : Fills decodeField m [] m
  | cons {m m' m'' : μ} {key : String} {value : Bytes} {entries : List Bytes} {read : Dec μ}
      (short : (ascii key).length ≤ maxKeyLen) (known : decodeField m (ascii key) = some read)
      (reads : Reads read value m') (rest : Fills decodeField m' entries m'') :
      Fills decodeField m ((appendString (ascii key) ++ value) :: entries) m''

theorem reads_decodeEntry {m m' : μ} {key value : Bytes} {read : Dec μ} (short : key.length ≤ maxKeyLen)
    (known : decodeField m key = some read) (reads : Reads read value m') :
    Reads (decodeEntry message decodeField m) (appendString key ++ value) m' := by
  refine reads_bind (reads_wrapError (reads_readKey short)) (reads_wrapError ?_)
  simp only [bytes_some,known]
  exact reads

theorem reads_entries {m m' : μ} {entries : List Bytes} (fills : Fills decodeField m entries m') :
    Reads (iterate (decodeEntry message decodeField) entries.length m) entries.flatten m' := by
  induction fills with
  | nil m => exact reads_iterate_zero _ m
  | cons short known reads rest ih => exact reads_iterate_succ (reads_decodeEntry short known reads) ih

theorem reads_decodeMap {zero m : μ} {entries : List Bytes} (fills : Fills decodeField zero entries m)
    (few : entries.length < 16) : Reads (decodeMap message decodeField zero) (appendMap entries) m :=
  reads_bind (reads_wrapError (reads_readMapHeader few)) (reads_entries fills)

end

theorem reads_pushPullHeader {m : PushPullHeader} (nodes : -2 ^ 63 ≤ m.nodes ∧ m.nodes < 2 ^ 63)
    (state : -2 ^ 63 ≤ m.userStateLen ∧ m.userStateLen < 2 ^ 63) :
    Reads (decodePushPullHeader : Dec _) (appendPushPullHeader m) m := by
  refine reads_decodeMap ?_ (by simp)
  refine .cons (by decide) rfl (reads_map (reads_readBool m.join)) ?_
  refine .cons (by decide) rfl (reads_map (reads_decInt nodes.1 nodes.2)) ?_
  exact .cons (by decide) rfl (reads_map (reads_decInt state.1 state.2)) (.nil m)

/-- The fields of a state that are bounded are within their bounds. -/
structure Bounded (m : PushNodeState) : Prop where
  name : m.name.length ≤ maxFieldBytes
  addr : (bytes m.addr).length ≤ maxFieldBytes
  metadata : (bytes m.metadata).length ≤ maxFieldBytes
  vsn : (bytes m.vsn).length ≤ maxFieldBytes

theorem reads_pushNodeState {m : PushNodeState} (bounded : Bounded m) (low : -2 ^ 63 ≤ m.state)
    (high : m.state < 2 ^ 63) : Reads (decodePushNodeState : Dec _) (appendPushNodeState m) m := by
  refine reads_decodeMap ?_ (by simp)
  refine .cons (by decide) rfl (reads_map (reads_decBytes bounded.addr (by decide))) ?_
  refine .cons (by decide) rfl (reads_map (reads_decU32 m.incarnation)) ?_
  refine .cons (by decide) rfl (reads_map (reads_decBytes bounded.metadata (by decide))) ?_
  refine .cons (by decide) rfl (reads_map (reads_decString bounded.name)) ?_
  refine .cons (by decide) rfl (reads_map (reads_decU16 m.port)) ?_
  refine .cons (by decide) rfl (reads_map (reads_decInt low high)) ?_
  exact .cons (by decide) rfl (reads_map (reads_decBytes bounded.vsn (by decide))) (.nil m)

theorem reads_compress {m : Compress} (bound : (bytes m.buf).length ≤ maxCompressedBytes) :
    Reads (decodeCompress : Dec _) (appendCompress m) m := by
  refine reads_decodeMap ?_ (by simp)
  refine .cons (by decide) rfl (reads_map (reads_decU8 m.algo)) ?_
  exact .cons (by decide) rfl (reads_map (reads_decBytes bound (by decide))) (.nil m)

theorem length_appendUint_pos (v : Nat) : 0 < (appendUint v).length := by
  unfold appendUint
  split_ifs <;> simp

theorem length_appendInt_pos (v : Int) : 0 < (appendInt v).length := by
  unfold appendInt
  split_ifs <;> simp

theorem length_appendRawHeader_pos (n : Nat) : 0 < (appendRawHeader n).length := by
  unfold appendRawHeader
  split_ifs <;> simp

theorem length_appendBytes_pos (s : Slice) : 0 < (appendBytes s).length := by
  cases s with
  | none => exact Nat.zero_lt_one
  | some b =>
    have header := length_appendRawHeader_pos b.length
    simp only [appendBytes,List.length_append]
    omega

/-- A state takes at least fifty bytes, so that the bound of a message bounds the
    number of its states. -/
theorem le_length_appendPushNodeState (m : PushNodeState) : 50 ≤ (appendPushNodeState m).length := by
  have addr := length_appendBytes_pos m.addr
  have incarnation := length_appendUint_pos m.incarnation.toNat
  have metadata := length_appendBytes_pos m.metadata
  have name := length_appendRawHeader_pos m.name.length
  have port := length_appendUint_pos m.port.toNat
  have state := length_appendInt_pos m.state
  have vsn := length_appendBytes_pos m.vsn
  have keys : (appendString (ascii "Addr")).length = 5 ∧ (appendString (ascii "Incarnation")).length = 12 ∧
      (appendString (ascii "Meta")).length = 5 ∧ (appendString (ascii "Name")).length = 5 ∧
      (appendString (ascii "Port")).length = 5 ∧ (appendString (ascii "State")).length = 6 ∧
      (appendString (ascii "Vsn")).length = 4 ∧ (appendMapHeader 7).length = 1 := by decide
  simp only [appendPushNodeState,appendMap,appendB,appendU,appendS,appendI,List.length_append,List.length_cons,
    List.length_nil,List.flatten_cons,List.flatten_nil,Nat.reduceAdd,keys]
  have body : (appendString m.name).length = (appendRawHeader m.name.length).length + m.name.length := by
    simp [appendString]
  omega

section
variable {μ : Type} {message : String} {decodeField : FieldDecoder Decoder μ}

/-- The decoder of a key, where the key is known, returns what satisfies `Q`. -/
def FieldYields (Q : μ → Prop) (field : Option (Dec μ)) : Prop := ∀ read, field = some read → Yields read Q

theorem fieldYields_none {Q : μ → Prop} : FieldYields Q none := fun _ known => by cases known

/-- One key after the other: what is read satisfies `R`, and the message with it `Q`. -/
theorem fieldYields_read {α : Type} {Q : μ → Prop} {R : α → Prop} {key : Prop} [Decidable key] {read : Dec α} {f : α → μ}
    {field : Option (Dec μ)} (yields : Yields read R) (here : ∀ a, R a → Q (f a)) (others : FieldYields Q field) :
    FieldYields Q (if key then some (do return f (← read)) else field) := by
  split_ifs
  · intro read' known
    cases known
    exact yields_bind yields (fun a fine => yields_pure (here a fine))
  · exact others

/-- A key that `Q` does not depend on. -/
theorem fieldYields_keep {α : Type} {Q : μ → Prop} {key : Prop} [Decidable key] {read : Dec α} {f : α → μ}
    {field : Option (Dec μ)} (here : ∀ a, Q (f a)) (others : FieldYields Q field) :
    FieldYields Q (if key then some (do return f (← read)) else field) :=
  fieldYields_read (R := fun _ => True) (fun _ _ _ _ => trivial) (fun a _ => here a) others

/-- What the fields keep and the zero value has, a decoded message has. -/
theorem yields_decodeMap {Q : μ → Prop} {zero : μ} (start : Q zero)
    (keeps : ∀ m k, Q m → FieldYields Q (decodeField m k)) :
    Yields (decodeMap message decodeField zero) Q := by
  refine yields_after (fun n => yields_iterate ?_ n start)
  intro m holds
  refine yields_after (fun k => yields_wrapError ?_)
  cases known : decodeField m (bytes k) with
  | some read => exact keeps m _ holds read known
  | none => exact yields_after (fun _ => yields_pure holds)

end

/-- The fields of an alive message that end up in a record are bounded. -/
structure AliveBounded (m : Alive) : Prop where
  node : m.node.length ≤ maxFieldBytes
  addr : (bytes m.addr).length ≤ maxFieldBytes
  metadata : (bytes m.metadata).length ≤ maxFieldBytes

end Mori.Wire
