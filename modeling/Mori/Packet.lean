import Mori.Compound
import Mori.QueueRefinement
import Mori.PushPull

/-!
Packets as they are sent (`net.go`, `broadcast.go`, `label.go`): what is piggybacked
on a message, and how a message is compressed, checksummed, encrypted and labelled.
The space that `sendMsg` and `gossip` reserve is what the framing takes, so a packet
that they fill stays within the packet budget.
-/
namespace Mori.Packet
open Mori.Net Mori.Readers Mori.Protocol Mori.Wire Mori.Security Mori.Stream Mori.Compound
open Mori.Queue (TransmitLimitedQueue)
open Mori.State (Memberlist Node)

/-- What packets depend on beside the `Config`. `packetBufferSize` is the budget of
    the transport. -/
structure Settings where
  packetBufferSize : Int := 1400
  requireNodeNames : Bool := false
  skipInboundLabelCheck : Bool := false
  handoffQueueDepth : Int := 1024
deriving DecidableEq,Repr

/-- An `Address`: the host that `net.SplitHostPort` finds in it, and the node name. -/
structure Address where
  host : Option Bytes
  name : Bytes
deriving DecidableEq,Repr

/-- The address of a node. -/
def fullAddress (node : Node) : Address := ⟨some (ipString (bytes node.addr)),node.name⟩

def labelMaxSize : Nat := 255

inductive LabelError where
  | tooLong (label : Bytes)
  | truncated
  | empty
deriving DecidableEq,Repr

def makeLabelHeader (label rest : Bytes) : Bytes := hasLabelMsg :: UInt8.ofNat label.length :: (label ++ rest)

def addLabelHeaderToPacket (buf label : Bytes) : Except LabelError Bytes :=
  if label = [] then .ok buf
  else if labelMaxSize < label.length then .error (.tooLong label)
  else .ok (makeLabelHeader label buf)

/-- The packet without its label, and the label. -/
def removeLabelHeaderFromPacket : Bytes → Except LabelError (Bytes × Bytes)
  | [] => .ok ([],[])
  | msgType :: buf =>
    if msgType ≠ hasLabelMsg then .ok (msgType :: buf,[])
    else match buf with
    | [] => .error .truncated
    | size :: buf =>
      if size.toNat < 1 then .error .empty
      else if buf.length < size.toNat then .error .truncated
      else .ok (buf.drop size.toNat,buf.take size.toNat)

def labelOverhead (label : Bytes) : Int := if label = [] then 0 else 2 + label.length

/-- A bit of `crc32.ChecksumIEEE`. -/
def crcBit (crc : UInt32) : UInt32 := if crc &&& 1 = 1 then (crc >>> 1) ^^^ 0xedb88320 else crc >>> 1

def crcByte (crc : UInt32) (b : UInt8) : UInt32 := Nat.repeat crcBit 8 (crc ^^^ b.toUInt32)

def checksumIEEE (buf : Bytes) : UInt32 := buf.foldl crcByte 0xffffffff ^^^ 0xffffffff

def crcOverhead : Int := 5

/-- A message with its checksum in front. -/
def withCrc (msg : Bytes) : Bytes := hasCrcMsg :: (bigEndian 4 (checksumIEEE msg).toNat ++ msg)

def maxIncompressiblePacket : Nat := 22

/-- The most that encryption adds. The versions are 0 and 1. -/
def encryptOverhead (vsn : UInt8) : Int := if vsn = 0 then 45 else 29

inductive SendError where
  | nodeNameRequired
  | address
  | label (err : LabelError)
deriving DecidableEq,Repr

section
variable (coders : Coders) (settings : Settings)

/-- The compressed form where that is smaller. -/
def shrinkPacket (conf : Config) (msg : Bytes) : Bytes :=
  if conf.enableCompression ∧ maxIncompressiblePacket < msg.length then
    match compressPayload coders msg with
    | some buf => if buf.length < msg.length then buf else msg
    | none => msg
  else msg

/-- The highest protocol version of the recipient, where it is known: the node that
    is given, or else the one whose name is the host. -/
def recipientPMax (m : Memberlist) (a : Address) : Option Node → Except SendError (Option UInt8)
  | some node => .ok (some node.vsn.pMax)
  | none =>
    match a.host with
    | none => .error .address
    | some toAddr => .ok ((State.entry m toAddr).map (fun state => state.vsn.pMax))

/-- A payload with the checksum that the recipient understands, encrypted. -/
def envelop (conf : Config) (pMax : Option UInt8) (nonce : Nonce) (msg : Bytes) : Bytes :=
  let msg := if (pMax.map (fun v => decide (5 ≤ v))).getD false then withCrc msg else msg
  match outgoingKey conf with
  | some key => sealPayload coders.gcm (encryptionVersion conf) key nonce msg conf.label
  | none => msg

/-- What `rawSendMsgPacket` and the label wrapper of the transport write. -/
def rawSendMsgPacket (m : Memberlist) (a : Address) (node : Option Node) (nonce : Nonce) (msg : Bytes) :
    Except SendError Bytes :=
  if a.name = [] ∧ settings.requireNodeNames = true then .error .nodeNameRequired
  else match recipientPMax m a node with
  | .error err => .error err
  | .ok pMax => (addLabelHeaderToPacket (envelop coders m.config pMax nonce (shrinkPacket coders m.config msg))
      m.config.label).mapError .label

end

/-- What a call of `getBroadcasts` meets: the retransmit limit of the moment, the
    answer of the delegate to an overhead and a limit, and the priorities drawn. -/
structure Turn where
  transmitLimit : Int
  offer : Int → Int → List Bytes
  draws : Nat → UInt64

/-- The delegate keeps to its contract: its messages, each with the overhead, are
    within the limit. -/
def Turn.Fair (turn : Turn) : Prop :=
  ∀ overhead limit : Int, 0 ≤ limit → ((turn.offer overhead limit).map (fun msg => (msg.length : Int) + overhead)).sum ≤ limit

/-- What some messages take of a budget. -/
def charge (overhead : Int) (msgs : List Bytes) : Int := (msgs.map (fun msg => (msg.length : Int) + overhead)).sum

/-- The messages of the delegate for what is left of a budget, framed. -/
def userMessages (conf : Config) (turn : Turn) (overhead avail : Int) : List Bytes :=
  if conf.delegate = true ∧ overhead + userMsgOverhead < avail then
    (turn.offer (overhead + userMsgOverhead) avail).map (fun msg => userMsg :: msg)
  else []

/-- `getBroadcasts` of the instance: the queue first, then the delegate. -/
def getBroadcasts (conf : Config) (q : TransmitLimitedQueue) (turn : Turn) (overhead limit : Int) :
    Option (TransmitLimitedQueue × List Bytes) :=
  (Queue.getBroadcasts q overhead limit turn.transmitLimit turn.draws).map (fun (q,toSend) =>
    (q,toSend ++ userMessages conf turn overhead (limit - charge overhead toSend)))

/-- What the encryption of outgoing packets adds, where they are encrypted. -/
def sealOverhead (conf : Config) : Int :=
  if encryptionEnabled conf = true ∧ conf.gossipVerifyOutgoing = true then encryptOverhead (encryptionVersion conf) else 0

/-- A call of `sendMsg`: what was piggybacked, what was handed to
    `rawSendMsgPacket`, and what that wrote. -/
structure Sent where
  extra : List Bytes
  payload : Bytes
  written : Except SendError Bytes

/-- The room for the messages of a gossip packet. -/
def gossipBytesAvail (settings : Settings) (conf : Config) : Int :=
  settings.packetBufferSize - compoundHeaderOverhead - crcOverhead - labelOverhead conf.label -
    (if encryptionEnabled conf = true then encryptOverhead (encryptionVersion conf) else 0)

/-- The payloads for some messages: one message as it is, or compound messages. -/
def gossipPayloads (msgs : List Bytes) : List Bytes := if msgs.length = 1 then msgs else makeCompoundMessages msgs

/-- What `gossip` writes to a node for some messages. -/
def gossipTo (coders : Coders) (settings : Settings) (m : Memberlist) (node : Node) (nonces : Nat → Nonce)
    (msgs : List Bytes) : List (Except SendError Bytes) :=
  (gossipPayloads msgs).zipIdx.map (fun (payload,j) =>
    rawSendMsgPacket coders settings m (fullAddress node) (some node) (nonces j) payload)

/-- `gossip` from the node number `i` of those selected on: what it writes, in
    order. It ends at the first node for which nothing is left. -/
def gossipFrom (coders : Coders) (settings : Settings) (m : Memberlist) (turns : Nat → Turn)
    (nonces : Nat → Nat → Nonce) : Nat → List Node → TransmitLimitedQueue →
    Option (TransmitLimitedQueue × List (Except SendError Bytes))
  | _,[],q => some (q,[])
  | i,node :: kNodes,q =>
    (getBroadcasts m.config q (turns i) compoundOverhead (gossipBytesAvail settings m.config)).bind (fun (q,msgs) =>
      if msgs.length = 0 then some (q,[])
      else
        (gossipFrom coders settings m turns nonces (i + 1) kNodes q).map (fun (q,later) =>
          (q,gossipTo coders settings m node (nonces i) msgs ++ later)))

/-- `gossip` to the nodes that were selected. -/
def gossip (coders : Coders) (settings : Settings) (m : Memberlist) (turns : Nat → Turn) (nonces : Nat → Nat → Nonce)
    (kNodes : List Node) (q : TransmitLimitedQueue) : Option (TransmitLimitedQueue × List (Except SendError Bytes)) :=
  gossipFrom coders settings m turns nonces 0 kNodes q

open Mori.QueueLinks (WF)
open Mori.QueueRefinement (Reached entries wf_reached getBroadcasts_spec)
open Mori.PlainQueue (pick)

/-- The queued broadcasts that a budget takes, and then those that the delegate has
    for the rest of it. -/
def extras (conf : Config) (q : TransmitLimitedQueue) (turn : Turn) (overhead limit : Int) : List Bytes :=
  let queued := (pick overhead limit (entries q)).1.map (fun e => e.b.message)
  queued ++ userMessages conf turn overhead (limit - charge overhead queued)

section
variable {coders : Coders} {settings : Settings} {conf : Config} {m : Memberlist} {q : TransmitLimitedQueue} {turn : Turn}

theorem getBroadcasts_extras (wf : WF q []) (conf : Config) (turn : Turn) (overhead limit : Int) :
    ∃ q', getBroadcasts conf q turn overhead limit = some (q',extras conf q turn overhead limit) ∧ WF q' [] := by
  obtain ⟨q',done,wf',-⟩ := getBroadcasts_spec wf overhead limit turn.transmitLimit turn.draws
  refine ⟨q',?_,wf'⟩
  rw [getBroadcasts,done]
  rfl

theorem charge_append (overhead : Int) (a b : List Bytes) : charge overhead (a ++ b) = charge overhead a + charge overhead b := by
  simp [charge]

/-- Framed, the messages of the delegate take what it was told they do. -/
theorem charge_framed (overhead : Int) (msgs : List Bytes) :
    charge overhead (msgs.map (fun msg => userMsg :: msg)) = charge (overhead + userMsgOverhead) msgs := by
  induction msgs with
  | nil => rfl
  | cons msg msgs ih =>
    simp only [charge,List.map_cons,List.sum_cons,List.length_cons,userMsgOverhead] at ih ⊢
    rw [ih]
    push_cast
    ring

theorem charge_queued (overhead : Int) (es : List PlainQueue.Entry) :
    charge overhead (es.map (fun e => e.b.message)) = (es.map (fun e => overhead + e.len)).sum := by
  rw [charge,List.map_map]
  refine congrArg List.sum (List.map_congr_left (fun e _ => ?_))
  exact Int.add_comm _ _

/-- Whatever is piggybacked is within the budget. -/
theorem charge_extras (fair : turn.Fair) {overhead limit : Int} (positive : 0 ≤ overhead)
    (nonempty : extras conf q turn overhead limit ≠ []) : charge overhead (extras conf q turn overhead limit) ≤ limit := by
  simp only [extras] at nonempty ⊢
  generalize picked : (pick overhead limit (entries q)).1 = taken at nonempty ⊢
  rw [charge_append]
  unfold userMessages at nonempty ⊢
  split_ifs at nonempty ⊢ with room
  · have answered := fair (overhead + userMsgOverhead) (limit - charge overhead (taken.map (fun e => e.b.message)))
      (by simp only [userMsgOverhead] at room ⊢; omega)
    rw [charge_framed]
    simp only [charge] at answered ⊢
    linarith
  · have fits := PlainQueue.pick_fits overhead limit (entries q)
    rw [picked] at fits
    simp only [List.append_nil] at nonempty
    have picks : taken ≠ [] := by
      rintro rfl
      exact nonempty rfl
    have bound := fits picks
    rw [← charge_queued] at bound
    simp only [charge,List.map_nil,List.sum_nil] at bound ⊢
    linarith

theorem charge_compoundOverhead (msgs : List Bytes) : charge compoundOverhead msgs = partsLength msgs := by
  induction msgs with
  | nil => rfl
  | cons msg msgs ih =>
    simp only [charge,List.map_cons,List.sum_cons,partsLength_cons,compoundOverhead] at ih ⊢
    rw [ih]
    push_cast
    ring

theorem length_shrinkPacket (coders : Coders) (conf : Config) (msg : Bytes) : (shrinkPacket coders conf msg).length ≤ msg.length := by
  unfold shrinkPacket
  split_ifs
  · cases compressPayload coders msg with
    | none => exact Nat.le_refl _
    | some buf =>
      by_cases smaller : buf.length < msg.length
      · simp only [if_pos smaller]
        exact Nat.le_of_lt smaller
      · simp only [if_neg smaller]
        exact Nat.le_refl _
  · exact Nat.le_refl _

theorem encryptedLength_le {vsn : UInt8} (known : vsn ≤ maxEncryptionVersion) (n : Nat) :
    (encryptedLength vsn n : Int) ≤ n + encryptOverhead vsn := by
  unfold encryptedLength encryptOverhead versionSize nonceSize tagSize blockSize
  by_cases old : vsn = 0
  · subst old
    rw [if_neg (by decide),if_pos rfl]
    omega
  · have modern := one_le_of_ne_zero old
    rw [if_pos modern,if_neg old]
    omega

theorem outgoingKey_isSome (conf : Config) :
    (outgoingKey conf).isSome = true ↔ encryptionEnabled conf = true ∧ conf.gossipVerifyOutgoing = true := by
  unfold outgoingKey encryptionEnabled
  cases conf.keyring.getD [] with
  | nil => simp
  | cons key keys => simp

theorem length_envelop (coders : Coders) (conf : Config) (pMax : Option UInt8) (nonce : Nonce) (msg : Bytes) :
    ((envelop coders conf pMax nonce msg).length : Int) ≤ msg.length + crcOverhead + sealOverhead conf := by
  unfold envelop
  generalize checked : (if (pMax.map (fun v => decide (5 ≤ v))).getD false = true then withCrc msg else msg) = plain
  have longer : (plain.length : Int) ≤ msg.length + crcOverhead := by
    rw [← checked]
    unfold crcOverhead
    split_ifs
    · simp [withCrc]
      omega
    · omega
  cases keyed : outgoingKey conf with
  | none =>
    have off : ¬ (encryptionEnabled conf = true ∧ conf.gossipVerifyOutgoing = true) := by
      rw [← outgoingKey_isSome,keyed]
      decide
    simp only [sealOverhead,if_neg off]
    omega
  | some key =>
    have on := (outgoingKey_isSome conf).mp (by rw [keyed]; rfl)
    simp only [sealOverhead,if_pos on]
    rw [length_sealPayload key nonce plain conf.label (encryptionVersion_le conf)]
    have most := encryptedLength_le (encryptionVersion_le conf) plain.length
    omega

theorem length_addLabelHeader {buf label wire : Bytes} (added : addLabelHeaderToPacket buf label = .ok wire) :
    (wire.length : Int) = buf.length + labelOverhead label := by
  unfold addLabelHeaderToPacket at added
  unfold labelOverhead
  split_ifs at added ⊢
  · cases added
    omega
  · cases added
    simp [makeLabelHeader]
    omega

/-- A label that was put in front of a packet comes off it, whatever the packet is. -/
theorem removeLabelHeader_made {label : Bytes} (empty : label ≠ []) (fits : label.length ≤ labelMaxSize) (buf : Bytes) :
    removeLabelHeaderFromPacket (makeLabelHeader label buf) = .ok (buf,label) := by
  have most : labelMaxSize < UInt8.size := by decide
  have size : (UInt8.ofNat label.length).toNat = label.length := UInt8.toNat_ofNat_of_lt' (Nat.lt_of_le_of_lt fits most)
  have nonempty : ¬ label.length < 1 := by
    have positive := List.length_pos_iff.mpr empty
    omega
  have enough : ¬ (label ++ buf).length < label.length := by
    rw [List.length_append]
    omega
  simp only [makeLabelHeader,removeLabelHeaderFromPacket,ne_eq,not_true_eq_false,if_false,size,nonempty,enough,
    List.drop_left,List.take_left]

/-- What was written is the envelope with the label. -/
theorem rawSendMsgPacket_written {a : Address} {node : Option Node} {nonce : Nonce} {msg wire : Bytes}
    (written : rawSendMsgPacket coders settings m a node nonce msg = .ok wire) :
    ∃ pMax, addLabelHeaderToPacket (envelop coders m.config pMax nonce (shrinkPacket coders m.config msg))
      m.config.label = .ok wire := by
  unfold rawSendMsgPacket at written
  split_ifs at written
  cases looked : recipientPMax m a node with
  | error err => rw [looked] at written; cases written
  | ok pMax =>
    rw [looked] at written
    simp only at written
    refine ⟨pMax,?_⟩
    cases added : addLabelHeaderToPacket (envelop coders m.config pMax nonce (shrinkPacket coders m.config msg))
        m.config.label with
    | error err => rw [added] at written; cases written
    | ok wire' =>
      rw [added] at written
      cases written
      rfl

/-- A packet is its payload with what was reserved for it. -/
theorem length_rawSendMsgPacket {a : Address} {node : Option Node} {nonce : Nonce} {msg wire : Bytes}
    (written : rawSendMsgPacket coders settings m a node nonce msg = .ok wire) :
    (wire.length : Int) ≤ msg.length + crcOverhead + sealOverhead m.config + labelOverhead m.config.label := by
  obtain ⟨pMax,added⟩ := rawSendMsgPacket_written written
  have total := length_addLabelHeader added
  have length := length_envelop coders m.config pMax nonce (shrinkPacket coders m.config msg)
  have smaller := length_shrinkPacket coders m.config msg
  omega

theorem partsLength_flatten {pieces : List (List Bytes)} {piece : List Bytes} (member : piece ∈ pieces) :
    partsLength piece ≤ partsLength pieces.flatten := by
  induction pieces with
  | nil => cases member
  | cons first pieces ih =>
    rw [List.flatten_cons,partsLength_append]
    rcases List.mem_cons.mp member with rfl | later
    · exact Nat.le_add_right _ _
    · exact Nat.le_trans (ih later) (Nat.le_add_left _ _)

/-- A payload of gossip is at most its messages with the framing of a compound. -/
theorem length_gossipPayloads {msgs : List Bytes} {payload : Bytes} (member : payload ∈ gossipPayloads msgs) :
    payload.length ≤ 2 + partsLength msgs := by
  unfold gossipPayloads at member
  split_ifs at member with single
  · obtain ⟨msg,rfl⟩ := List.length_eq_one_iff.mp single
    rw [List.mem_singleton.mp member,partsLength_cons]
    omega
  · obtain ⟨pieces,whole,-,same⟩ := makeCompoundMessages_pieces msgs
    rw [same] at member
    obtain ⟨piece,listed,rfl⟩ := List.mem_map.mp member
    rw [length_makeCompoundMessage,← whole]
    have part := partsLength_flatten listed
    omega

/-- Messages within the room for gossip are written within the packet budget. -/
theorem gossipTo_within (node : Node) (nonces : Nat → Nonce) {msgs : List Bytes}
    (bound : charge compoundOverhead msgs ≤ gossipBytesAvail settings m.config) {wire : Bytes}
    (written : .ok wire ∈ gossipTo coders settings m node nonces msgs) : (wire.length : Int) ≤ settings.packetBufferSize := by
  obtain ⟨⟨payload,j⟩,listed,written⟩ := List.mem_map.mp written
  have length := length_rawSendMsgPacket written
  have short := length_gossipPayloads (List.fst_mem_of_mem_zipIdx listed)
  -- Gossip reserves the space for encryption also where it does not encrypt.
  have reserved : sealOverhead m.config ≤
      if encryptionEnabled m.config = true then encryptOverhead (encryptionVersion m.config) else 0 := by
    unfold sealOverhead encryptOverhead
    split_ifs <;> simp_all
  rw [charge_compoundOverhead] at bound
  simp only [gossipBytesAvail,compoundHeaderOverhead] at bound
  simp only at length short
  omega

theorem gossipTo_fits (fair : turn.Fair) (node : Node) (nonces : Nat → Nonce) {msgs : List Bytes}
    (found : extras m.config q turn compoundOverhead (gossipBytesAvail settings m.config) = msgs) (nonempty : msgs ≠ [])
    {wire : Bytes} (written : .ok wire ∈ gossipTo coders settings m node nonces msgs) :
    (wire.length : Int) ≤ settings.packetBufferSize := by
  refine gossipTo_within node nonces ?_ written
  rw [← found] at nonempty ⊢
  exact charge_extras fair (by decide) nonempty

/-- An instance with a delegate, without compression and encryption. -/
def plainNode : Memberlist := State.buildMemberlist { name := [97], label := [108], delegate := true, enableCompression := false }

end

end Mori.Packet
