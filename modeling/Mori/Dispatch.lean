import Mori.Packet
import Mori.Traffic

/-!
Packets as they are received (`net.go`): the label, the encryption and the checksum
are taken off, and the message is dispatched by its type. Compressed and compound
messages are unpacked and their contents dispatched in turn. What is sent as a packet
arrives as it was. What is piggybacked arrives with it, unless there is more than the
count of a compound message can tell.
-/
namespace Mori.Dispatch
open Mori.Net Mori.Readers Mori.Protocol Mori.Wire Mori.Security Mori.Stream Mori.Compound Mori.Packet
open Mori.Queue (TransmitLimitedQueue)
open Mori.State (Memberlist Node)
open Mori.Traffic (Source)

def maxPacketDecompressedBytes : Nat := 2 ^ 20

/-- Which wrapping messages enclose a part of a packet. -/
structure Envelope where
  inCompound : Bool := false
  inCompress : Bool := false
deriving DecidableEq,Repr

/-- How many more wrappings a part may have. -/
def Envelope.room (env : Envelope) : Nat := (if env.inCompound then 0 else 1) + (if env.inCompress then 0 else 1)

/-- Why something of a packet is not handled. -/
inductive Refusal where
  | label (err : LabelError)
  | doubleLabel
  | unacceptableLabel (label : Bytes)
  | decrypt (err : SecurityError)
  | checksum (crc expected : UInt32)
  | missingType
  | nestedCompound
  | nestedCompressed
  | queueFull (msgType : UInt8)
  | notSupported (msgType : UInt8)
  | compound (err : CompoundError)
  | truncated (n : Nat)
  | decompress (err : StreamError)
deriving DecidableEq,Repr

/-- A message that waits for the packet handler. -/
structure Handoff where
  msgType : UInt8
  buf : Bytes
  source : Source
deriving DecidableEq,Repr

/-- The handlers that are called at once. -/
inductive Call where
  | ping (buf : Bytes) (source : Source)
  | indirectPing (buf : Bytes) (source : Source)
  | ack (buf : Bytes) (source : Source) (timestamp : Time)
  | nack (buf : Bytes) (source : Source)
deriving DecidableEq,Repr

/-- What handling packets leaves: the two queues of the packet handler, last in last,
    whether it was notified, the handlers called and what was logged. No code reads
    `commands`: it lists the calls of `handleCommandIn`. -/
structure Inbox where
  highPriorityMsgQueue : List Handoff := []
  lowPriorityMsgQueue : List Handoff := []
  handoff : Bool := false
  calls : List Call := []
  log : List Refusal := []
  commands : List (Envelope × Bytes) := []
deriving DecidableEq,Repr

def Inbox.refuse (s : Inbox) (r : Refusal) : Inbox := { s with log := s.log ++ [r] }

def Inbox.command (s : Inbox) (env : Envelope) (buf : Bytes) : Inbox := { s with commands := s.commands ++ [(env,buf)] }

/-- The parts of an instance that receive: its coders and settings, and where a packet
    comes from, and when. -/
structure Receiver where
  coders : Coders
  settings : Settings
  config : Config
  source : Source
  timestamp : Time

section
variable (recv : Receiver)

def decompressPayload (msg : Bytes) : Except StreamError Bytes :=
  match decode decodeCompress msg with
  | .error err => .error (.decode err)
  | .ok c => decompressBuffer recv.coders c maxPacketDecompressedBytes

/-- Queues a message for the packet handler, if its queue has room. -/
def queueMessage (msgType : UInt8) (buf : Bytes) (s : Inbox) : Inbox :=
  let queue := if msgType = aliveMsg then s.highPriorityMsgQueue else s.lowPriorityMsgQueue
  let queued := queue ++ [⟨msgType,buf,recv.source⟩]
  let s :=
    if recv.settings.handoffQueueDepth ≤ queue.length then s.refuse (.queueFull msgType)
    else if msgType = aliveMsg then { s with highPriorityMsgQueue := queued }
    else { s with lowPriorityMsgQueue := queued }
  { s with handoff := true }

/-- The types that do not wrap others. -/
def handleMessage (msgType : UInt8) (buf : Bytes) (s : Inbox) : Inbox :=
  if msgType = pingMsg then { s with calls := s.calls ++ [.ping buf recv.source] }
  else if msgType = indirectPingMsg then { s with calls := s.calls ++ [.indirectPing buf recv.source] }
  else if msgType = ackRespMsg then { s with calls := s.calls ++ [.ack buf recv.source recv.timestamp] }
  else if msgType = nackRespMsg then { s with calls := s.calls ++ [.nack buf recv.source] }
  else if msgType = suspectMsg ∨ msgType = aliveMsg ∨ msgType = deadMsg ∨ msgType = userMsg then
    queueMessage recv msgType buf s
  else s.refuse (.notSupported msgType)

/-- The parts of a compound message, each handled by `handle`. -/
def handleCompound (handle : Bytes → Inbox → Inbox) (buf : Bytes) (s : Inbox) : Inbox :=
  match decodeCompoundMessage buf with
  | .error err => s.refuse (.compound err)
  | .ok (trunc,parts) =>
    parts.foldl (fun s part => handle part s) (if 0 < trunc then s.refuse (.truncated trunc) else s)

def handleCompressed (handle : Bytes → Inbox → Inbox) (buf : Bytes) (s : Inbox) : Inbox :=
  match decompressPayload recv buf with
  | .error err => s.refuse (.decompress err)
  | .ok payload => handle payload s

/-- `handleCommandIn`, with the number of wrappings that are left. -/
def handleAt : Nat → Envelope → Bytes → Inbox → Inbox
  | _,env,[],s => (s.command env []).refuse .missingType
  | room,env,msgType :: buf,s =>
    let s := s.command env (msgType :: buf)
    if msgType = compoundMsg then
      if env.inCompound then s.refuse .nestedCompound
      else match room with
      | 0 => s
      | room + 1 => handleCompound (handleAt room { env with inCompound := true }) buf s
    else if msgType = compressMsg then
      if env.inCompress then s.refuse .nestedCompressed
      else match room with
      | 0 => s
      | room + 1 => handleCompressed recv (handleAt room { env with inCompress := true }) buf s
    else handleMessage recv msgType buf s

def handleCommandIn (env : Envelope) (buf : Bytes) (s : Inbox) : Inbox := handleAt recv env.room env buf s

def handleCommand (buf : Bytes) (s : Inbox) : Inbox := handleCommandIn recv {} buf s

/-- The plaintext of a packet; one that does not open is taken as it is where
    encryption is not demanded. -/
def decryptPacket (buf packetLabel : Bytes) : Except SecurityError Bytes :=
  if encryptionEnabled recv.config = true then
    match openPayload recv.coders.gcm (recv.config.keyring.getD []) buf packetLabel with
    | .ok plain => .ok plain
    | .error err => if recv.config.gossipVerifyIncoming = false then .ok buf else .error err
  else .ok buf

/-- Verifies the checksum, if there is one, and handles the message. -/
def verifyPacket (buf : Bytes) (s : Inbox) : Inbox :=
  if 5 ≤ buf.length ∧ buf.head? = some hasCrcMsg then
    let crc := checksumIEEE (buf.drop 5)
    let expected := UInt32.ofNat (ofBigEndian ((buf.drop 1).take 4))
    if crc ≠ expected then s.refuse (.checksum crc expected)
    else handleCommand recv (buf.drop 5) s
  else handleCommand recv buf s

def ingestPacket (buf : Bytes) (s : Inbox) : Inbox :=
  match removeLabelHeaderFromPacket buf with
  | .error err => s.refuse (.label err)
  | .ok (buf,packetLabel) =>
    if recv.settings.skipInboundLabelCheck = true ∧ packetLabel ≠ [] then s.refuse .doubleLabel
    else
      let packetLabel := if recv.settings.skipInboundLabelCheck then recv.config.label else packetLabel
      if recv.config.label ≠ packetLabel then s.refuse (.unacceptableLabel packetLabel)
      else match decryptPacket recv buf packetLabel with
      | .error err => s.refuse (.decrypt err)
      | .ok buf => verifyPacket recv buf s

end

section
variable {recv : Receiver} {env : Envelope} {s : Inbox}

theorem room_inCompound (fresh : env.inCompound = false) : env.room = { env with inCompound := true }.room + 1 := by
  obtain ⟨_,inCompress⟩ := env
  cases fresh
  cases inCompress <;> rfl

theorem room_inCompress (fresh : env.inCompress = false) : env.room = { env with inCompress := true }.room + 1 := by
  obtain ⟨inCompound,_⟩ := env
  cases fresh
  cases inCompound <;> rfl

/-- A compound message is its parts, unless it is inside one. -/
theorem handleCommandIn_compound (fresh : env.inCompound = false) (buf : Bytes) (s : Inbox) :
    handleCommandIn recv env (compoundMsg :: buf) s =
      handleCompound (handleCommandIn recv { env with inCompound := true }) buf (s.command env (compoundMsg :: buf)) := by
  unfold handleCommandIn
  rw [room_inCompound fresh,handleAt]
  simp only [if_true,fresh,Bool.false_eq_true,if_false]

/-- A compressed message is its content, unless it is inside one. -/
theorem handleCommandIn_compress (fresh : env.inCompress = false) (buf : Bytes) (s : Inbox) :
    handleCommandIn recv env (compressMsg :: buf) s =
      handleCompressed recv (handleCommandIn recv { env with inCompress := true }) buf
        (s.command env (compressMsg :: buf)) := by
  have other : ¬ compressMsg = compoundMsg := by decide
  unfold handleCommandIn
  rw [room_inCompress fresh,handleAt]
  simp only [other,if_true,fresh,Bool.false_eq_true,if_false]

end

section
open Mori.QueueRefinement (Reached wf_reached)
variable {q : TransmitLimitedQueue} {turn : Turn} {settings : Settings} {m : Memberlist} {msg : Bytes}

/-- A nack for the sequence number 1. -/
def nackOne : Bytes := [11,0x81,0xa5,0x53,0x65,0x71,0x4e,0x6f,1]

end

/-- The types of the messages that an instance sends as packets. -/
def ownTypes : List UInt8 :=
  [pingMsg,indirectPingMsg,ackRespMsg,nackRespMsg,suspectMsg,aliveMsg,deadMsg,userMsg,compoundMsg]

/-- A message of one of the own types. -/
def Own (msg : Bytes) : Prop := ∃ msgType ∈ ownTypes, msg.head? = some msgType

/-- No key opens a packet. -/
def Unsealed (gcm : Gcm) (keys : List Bytes) (packet data : Bytes) : Prop :=
  ∀ k ∈ keys, gcm.openWith k ((packet.drop versionSize).take nonceSize) ((packet.drop versionSize).drop nonceSize) data = none

/-- A packet without the header for a label. -/
def unlabelled (label wire : Bytes) : Bytes := if label = [] then wire else wire.drop (2 + label.length)

/-- The receiver can read what the sender writes: it has the key, or the packet is in
    plaintext, which it takes for that, and it does not demand encryption. -/
def Accepts (recv : Receiver) (sender : Config) (packet : Bytes) : Prop :=
  match outgoingKey sender with
  | some key => key ∈ recv.config.keyring.getD [] ∧
      Foreign recv.coders.gcm (recv.config.keyring.getD []) key packet sender.label
  | none => encryptionEnabled recv.config = false ∨ recv.config.gossipVerifyIncoming = false ∧
      Unsealed recv.coders.gcm (recv.config.keyring.getD []) packet sender.label

section
variable {recv : Receiver} {coders : Coders} {conf : Config} {msg packet : Bytes} {s : Inbox}

/-- A packet is compressed where that makes it smaller. -/
theorem shrinkPacket_cases (coders : Coders) (conf : Config) (msg : Bytes) :
    shrinkPacket coders conf msg = msg ∨ ∃ c, coders.lzw.write msg = some c ∧
      shrinkPacket coders conf msg = compressMsg :: appendCompress ⟨lzwAlgo,some c⟩ ∧
      (appendCompress ⟨lzwAlgo,some c⟩).length < msg.length := by
  unfold shrinkPacket compressPayload
  split_ifs
  · cases written : coders.lzw.write msg with
    | none => exact .inl rfl
    | some c =>
      simp only [Option.map_some]
      split_ifs with smaller
      · exact .inr ⟨c,rfl,rfl,Nat.lt_of_succ_lt smaller⟩
      · exact .inl rfl
  · exact .inl rfl

theorem decode_of_reads {α : Type} {read : Msgpack.Dec α} {b : Bytes} {a : α} (reads : Reads read b a) :
    decode read b = .ok a := by
  have whole : Msgpack.newDecoder b = Input.feed b (Msgpack.newDecoder []) := by simp [Input.feed,Msgpack.newDecoder]
  rw [decode,whole,reads]
  rfl

theorem decompressPayload_compressed {c : Bytes} (written : recv.coders.lzw.write msg = some c)
    (smaller : (appendCompress ⟨lzwAlgo,some c⟩).length < msg.length) (size : msg.length ≤ maxPacketDecompressedBytes) :
    decompressPayload recv (appendCompress ⟨lzwAlgo,some c⟩) = .ok msg := by
  have inside := length_le_appendCompress lzwAlgo c
  have field : c.length ≤ maxCompressedBytes := by
    have : maxPacketDecompressedBytes ≤ maxCompressedBytes := by decide
    omega
  have decoded : decode decodeCompress (appendCompress ⟨lzwAlgo,some c⟩) = .ok ⟨lzwAlgo,some c⟩ :=
    decode_of_reads (reads_compress (m := ⟨lzwAlgo,some c⟩) field)
  have fits : ¬ maxPacketDecompressedBytes < msg.length := Nat.not_lt.mpr size
  simp only [decompressPayload,decoded,decompressBuffer,bytes_some,recv.coders.lzw.read_write written,fits,ne_eq,
    not_true_eq_false,if_false]

/-- A message, compressed or not, is handled as it is. -/
theorem handle_shrinkPacket (recv : Receiver) (conf : Config) (size : msg.length ≤ maxPacketDecompressedBytes) (s : Inbox) :
    handleCommand recv (shrinkPacket recv.coders conf msg) s = handleCommand recv msg s ∨
      handleCommand recv (shrinkPacket recv.coders conf msg) s =
        handleCommandIn recv { inCompress := true } msg (s.command {} (shrinkPacket recv.coders conf msg)) := by
  rcases shrinkPacket_cases recv.coders conf msg with same | ⟨c,written,compressed,smaller⟩
  · exact .inl (by rw [same])
  · right
    rw [compressed,handleCommand,handleCommandIn_compress rfl,handleCompressed,
      decompressPayload_compressed written smaller size]

theorem verifyPacket_withCrc (msg : Bytes) (s : Inbox) : verifyPacket recv (withCrc msg) s = handleCommand recv msg s := by
  have small : (checksumIEEE msg).toNat < 256 ^ 4 := (checksumIEEE msg).toNat_lt
  have field := length_bigEndian 4 (checksumIEEE msg).toNat
  have rest : (withCrc msg).drop 5 = msg := by
    simp only [withCrc,List.drop_succ_cons]
    exact List.drop_left' field
  have value : ((withCrc msg).drop 1).take 4 = bigEndian 4 (checksumIEEE msg).toNat := by
    simp only [withCrc,List.drop_succ_cons,List.drop_zero]
    exact List.take_left' field
  have long : 5 ≤ (withCrc msg).length ∧ (withCrc msg).head? = some hasCrcMsg := by
    simp [withCrc]
  rw [verifyPacket,if_pos long,rest,value,ofBigEndian_of_lt small,UInt32.ofNat_toNat]
  simp

theorem verifyPacket_plain (other : msg.head? ≠ some hasCrcMsg) (s : Inbox) :
    verifyPacket recv msg s = handleCommand recv msg s := by
  rw [verifyPacket,if_neg (fun both => other both.2)]

theorem openPayload_unsealed {gcm : Gcm} {keys : List Bytes} {data : Bytes} (unsealed : Unsealed gcm keys packet data) :
    ∃ err, openPayload gcm keys packet data = .error err := by
  cases packet with
  | nil => exact ⟨_,rfl⟩
  | cons vsn rest =>
    have nobody : keys.findSome? (fun k => gcm.openWith k (rest.take nonceSize) (rest.drop nonceSize) data) = none := by
      rw [List.findSome?_eq_none_iff]
      exact unsealed
    simp only [openPayload,nobody]
    split_ifs
    · exact ⟨_,rfl⟩
    · exact ⟨_,rfl⟩
    · exact ⟨_,rfl⟩

/-- The label comes off a packet that does not look labelled itself. -/
theorem removeLabelHeader_added {label wire : Bytes} (other : packet.head? ≠ some hasLabelMsg)
    (added : addLabelHeaderToPacket packet label = .ok wire) :
    removeLabelHeaderFromPacket wire = .ok (packet,label) ∧ unlabelled label wire = packet := by
  unfold addLabelHeaderToPacket at added
  unfold unlabelled
  split_ifs at added ⊢ with blank long
  · cases added
    refine ⟨?_,rfl⟩
    rw [blank]
    cases packet with
    | nil => rfl
    | cons msgType rest =>
      have different : msgType ≠ hasLabelMsg := by simpa using other
      simp only [removeLabelHeaderFromPacket,if_pos different]
  · cases added
    constructor
    · exact removeLabelHeader_made blank (Nat.not_lt.mp long) packet
    · rw [makeLabelHeader,Nat.add_comm]
      exact List.drop_left

theorem head_shrinkPacket (coders : Coders) (conf : Config) (own : Own msg) :
    ∃ msgType ∈ compressMsg :: ownTypes, (shrinkPacket coders conf msg).head? = some msgType := by
  rcases shrinkPacket_cases coders conf msg with same | ⟨c,-,compressed,-⟩
  · obtain ⟨msgType,member,head⟩ := own
    exact ⟨msgType,List.mem_cons_of_mem _ member,by rw [same,head]⟩
  · exact ⟨compressMsg,List.mem_cons_self,by rw [compressed]; rfl⟩

theorem head_other {msgType other : UInt8} (member : msgType ∈ compressMsg :: ownTypes) (head : msg.head? = some msgType)
    (foreign : other ∉ compressMsg :: ownTypes) : msg.head? ≠ some other := by
  rw [head]
  intro same
  rw [Option.some.inj same] at member
  exact foreign member

/-- What is sealed or sent: a message, compressed or not, with or without checksum. -/
def checked (pMax : Option UInt8) (msg : Bytes) : Bytes :=
  if (pMax.map (fun v => decide (5 ≤ v))).getD false then withCrc msg else msg

theorem head_checked {pMax : Option UInt8} {msgType : UInt8} (member : msgType ∈ compressMsg :: ownTypes)
    (head : msg.head? = some msgType) : (checked pMax msg).head? ≠ some hasLabelMsg := by
  unfold checked
  split_ifs
  · rw [withCrc,List.head?_cons]
    decide
  · exact head_other member head (by decide)

theorem verifyPacket_checked {pMax : Option UInt8} {msgType : UInt8} (member : msgType ∈ compressMsg :: ownTypes)
    (head : msg.head? = some msgType) (s : Inbox) :
    verifyPacket recv (checked pMax msg) s = handleCommand recv msg s := by
  unfold checked
  split_ifs
  · exact verifyPacket_withCrc msg s
  · exact verifyPacket_plain (head_other member head (by decide)) s

/-- The receiver gets at what was sealed, or sent in plaintext. -/
theorem decryptPacket_envelop (sender : Config) (pMax : Option UInt8) (nonce : Nonce) (msg : Bytes)
    (accepts : Accepts recv sender (envelop recv.coders sender pMax nonce msg)) :
    decryptPacket recv (envelop recv.coders sender pMax nonce msg) sender.label = .ok (checked pMax msg) := by
  unfold Accepts at accepts
  unfold envelop at accepts ⊢
  cases keyed : outgoingKey sender with
  | some key =>
    rw [keyed] at accepts
    obtain ⟨member,foreign⟩ := accepts
    have enabled : encryptionEnabled recv.config = true := by
      cases ring : recv.config.keyring.getD [] with
      | nil => rw [ring] at member; cases member
      | cons head tail => simp [encryptionEnabled,ring]
    have opened := openPayload_sealPayload (encryptionVersion_le sender) member foreign
    simp only at opened ⊢
    rw [decryptPacket,if_pos enabled,opened]
    rfl
  | none =>
    rw [keyed] at accepts
    simp only at accepts ⊢
    rcases accepts with off | ⟨lenient,unsealed⟩
    · rw [decryptPacket,if_neg (by rw [off]; decide)]
      rfl
    · by_cases enabled : encryptionEnabled recv.config = true
      · obtain ⟨err,failed⟩ := openPayload_unsealed unsealed
        rw [decryptPacket,if_pos enabled,failed]
        simp only [lenient,if_true]
        rfl
      · rw [decryptPacket,if_neg enabled]
        rfl

theorem head_envelop {sender : Config} {pMax : Option UInt8} {nonce : Nonce} {msgType : UInt8}
    (member : msgType ∈ compressMsg :: ownTypes) (head : msg.head? = some msgType) :
    (envelop coders sender pMax nonce msg).head? ≠ some hasLabelMsg := by
  unfold envelop
  cases outgoingKey sender with
  | none => exact head_checked member head
  | some key =>
    simp only [sealPayload,List.head?_cons,encryptionVersion]
    split_ifs <;> decide

/-- A packet of an own message reaches the dispatcher with that message, after at most
    one decompression, at a receiver that can read it. A receiver that demands
    encryption dispatches nothing of a packet in plaintext. -/
theorem packet_transparent (recv : Receiver) (settings : Settings) (m : Memberlist) (a : Address) (node : Option Node)
    (nonce : Nonce) (msg wire : Bytes) (own : Own msg) (size : msg.length ≤ maxPacketDecompressedBytes)
    (written : rawSendMsgPacket recv.coders settings m a node nonce msg = .ok wire)
    (label : recv.config.label = m.config.label) (checks : recv.settings.skipInboundLabelCheck = false) (s : Inbox) :
    (Accepts recv m.config (unlabelled m.config.label wire) →
      ingestPacket recv wire s = handleCommand recv msg s ∨
      ∃ compressed, ingestPacket recv wire s =
        handleCommandIn recv { inCompress := true } msg (s.command {} compressed)) ∧
    (outgoingKey m.config = none → encryptionEnabled recv.config = true → recv.config.gossipVerifyIncoming = true →
      Unsealed recv.coders.gcm (recv.config.keyring.getD []) (unlabelled m.config.label wire) m.config.label →
      ∃ err, ingestPacket recv wire s = s.refuse (.decrypt err)) := by
  obtain ⟨pMax,added⟩ := rawSendMsgPacket_written written
  obtain ⟨msgType,member,head⟩ := head_shrinkPacket recv.coders m.config own
  obtain ⟨removed,bare⟩ := removeLabelHeader_added (head_envelop member head) added
  have stripped : ingestPacket recv wire s =
      match decryptPacket recv (envelop recv.coders m.config pMax nonce (shrinkPacket recv.coders m.config msg))
        m.config.label with
      | .error err => s.refuse (.decrypt err)
      | .ok buf => verifyPacket recv buf s := by
    simp only [ingestPacket,removed,checks,label,Bool.false_eq_true,false_and,if_false,ne_eq,not_true_eq_false]
  rw [bare,stripped]
  constructor
  · intro accepts
    rw [decryptPacket_envelop m.config pMax nonce _ accepts]
    simp only [verifyPacket_checked member head]
    rcases handle_shrinkPacket recv m.config size s with plain | compressed
    · exact .inl plain
    · exact .inr ⟨_,compressed⟩
  · intro plain enabled demanded unsealed
    obtain ⟨err,failed⟩ := openPayload_unsealed unsealed
    refine ⟨err,?_⟩
    rw [decryptPacket,if_pos enabled,failed]
    simp only [demanded,Bool.true_eq_false,if_false]

/-- Takes an empty tag off, where there may be one. -/
def openShort (cipher : Bytes) : Option Bytes :=
  if tagSize ≤ cipher.length then some (cipher.take (cipher.length - tagSize)) else none

theorem openShort_sealed (plain : Bytes) : openShort (plain ++ List.replicate tagSize 0) = some plain := by
  simp [openShort]

/-- A cipher that only adds an empty tag and refuses what is too short for one. -/
def shortTag : Gcm := { PushPull.tagging with
  openWith := fun _ _ cipher _ => openShort cipher
  open_seal := fun _ _ plain _ => openShort_sealed plain }

/-- A receiver with the label of `plainNode`. -/
def receiver (keyring : Option (List Bytes)) : Receiver :=
  ⟨⟨PushPull.storing,shortTag⟩,{},{ name := [98], label := [108], keyring := keyring },.ip [10,0,0,1],0⟩

theorem packet_transparent_plain :
    (∀ s, ingestPacket (receiver none) ([244,1,108] ++ nackOne) s = handleCommand (receiver none) nackOne s ∨
      ∃ compressed, ingestPacket (receiver none) ([244,1,108] ++ nackOne) s =
        handleCommandIn (receiver none) { inCompress := true } nackOne (s.command {} compressed)) ∧
    ∀ s, ∃ err, ingestPacket (receiver (some [List.replicate 16 7])) ([244,1,108] ++ nackOne) s = s.refuse (.decrypt err) := by
  have own : Own nackOne := ⟨nackRespMsg,by decide,rfl⟩
  have written : ∀ keyring, rawSendMsgPacket (receiver keyring).coders {} plainNode ⟨some [49],[]⟩ none PushPull.zeroNonce
      nackOne = .ok ([244,1,108] ++ nackOne) := fun _ => rfl
  have closed : Unsealed shortTag [List.replicate 16 7] nackOne [108] := by
    intro k _
    rfl
  constructor
  · intro s
    exact (packet_transparent (receiver none) {} plainNode ⟨some [49],[]⟩ none PushPull.zeroNonce nackOne _ own (by decide)
      (written none) rfl rfl s).1 (.inl rfl)
  · intro s
    exact (packet_transparent (receiver (some [List.replicate 16 7])) {} plainNode ⟨some [49],[]⟩ none PushPull.zeroNonce
      nackOne _ own (by decide) (written _) rfl rfl s).2 rfl rfl rfl closed

end

end Mori.Dispatch
