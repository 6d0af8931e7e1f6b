import Mori.Dispatch
import Mori.Connections
import Mathlib.Data.Set.Image

/-!
Which encrypted messages an instance opens. The data that are authenticated with a
message tell the channels and the labels apart: whatever is changed around the
ciphertext, an instance opens only what was sealed with its own label and for the
channel on which it arrives.
-/
namespace Mori.Labels
open Mori.Net Mori.Readers Mori.Msgpack Mori.Protocol Mori.Wire Mori.Security Mori.Stream Mori.Compound Mori.Packet Mori.Dispatch Mori.Connections

inductive Channel where
  | packet
  | stream
deriving DecidableEq,Repr

/-- A message that an instance seals: the channel it is for, the label of the instance,
    and what `sealPayload` is given. -/
structure Outgoing where
  channel : Channel
  label : Bytes
  vsn : UInt8
  known : vsn ≤ maxEncryptionVersion
  key : Bytes
  nonce : Nonce
  msg : Bytes

/-- The data that are authenticated with a message. -/
def Outgoing.authData (e : Outgoing) : Bytes :=
  match e.channel with
  | .packet => e.label
  | .stream => encryptHeader (encryptedLength e.vsn e.msg.length) ++ e.label

def Outgoing.sealing (e : Outgoing) : Sealing := ⟨e.vsn,e.known,e.key,e.nonce,e.msg,e.authData⟩

/-- What an instance seals of a message that it sends. -/
def outgoing (channel : Channel) (conf : Config) (key : Bytes) (nonce : Nonce) (msg : Bytes) : Outgoing :=
  ⟨channel,conf.label,encryptionVersion conf,encryptionVersion_le conf,key,nonce,msg⟩

section
variable (coders : Coders) {conf : Config} {key : Bytes}

/-- `rawSendMsgPacket` seals so. -/
theorem envelop_outgoing (keyed : outgoingKey conf = some key) (pMax : Option UInt8) (nonce : Nonce) (msg : Bytes) :
    envelop coders conf pMax nonce msg =
      (outgoing .packet conf key nonce (checked pMax msg)).sealing.relabelled coders.gcm (encryptionVersion conf) := by
  rw [envelop,keyed]
  rfl

/-- `encryptLocalState` seals so. -/
theorem encryptLocalState_outgoing (nonce : Nonce) (msg : Bytes) :
    encryptLocalState coders conf key nonce msg conf.label =
      encryptHeader (encryptedLength (encryptionVersion conf) msg.length) ++
        (outgoing .stream conf key nonce msg).sealing.relabelled coders.gcm (encryptionVersion conf) := rfl

end

/-- A label that does not look like the header of an encrypted stream message. -/
structure Legal (label : Bytes) : Prop where
  size : label.length ≤ labelMaxSize
  start : label.head? ≠ some encryptMsg

/-- The data of a packet are told from those of a stream by their first byte. -/
theorem authData_packet {e : Outgoing} {label : Bytes} (legal : Legal label) (same : e.authData = label) :
    e.channel = .packet ∧ e.label = label := by
  unfold Outgoing.authData at same
  split at same
  · next channel => exact ⟨channel,same⟩
  · refine absurd ?_ legal.start
    rw [← same]
    rfl

/-- The header of a stream message has a fixed length, so that the label can be told from it. -/
theorem authData_stream {e : Outgoing} {header label : Bytes} (legal : Legal e.label) (four : header.length = 4)
    (same : e.authData = encryptMsg :: header ++ label) : e.channel = .stream ∧ e.label = label := by
  unfold Outgoing.authData at same
  split at same
  · refine absurd ?_ legal.start
    rw [same]
    rfl
  · next channel =>
    have split := (List.append_inj same (by simp [encryptHeader,four])).2
    exact ⟨channel,split⟩

/-- What `ingestPacket` gives to `openPayload`: the payload and the data. -/
def packetPayload (recv : Receiver) (wire : Bytes) : Option (Bytes × Bytes) :=
  match removeLabelHeaderFromPacket wire with
  | .error _ => none
  | .ok (buf,packetLabel) =>
    if recv.settings.skipInboundLabelCheck = true ∧ packetLabel ≠ [] then none
    else
      let packetLabel := if recv.settings.skipInboundLabelCheck then recv.config.label else packetLabel
      if recv.config.label ≠ packetLabel then none else some (buf,packetLabel)

/-- What `handleConn` gives to `readStream`. -/
def incomingStream (settings : Settings) (conf : Config) (conn : Bytes) : Option Bytes :=
  match removeLabelHeaderFromStream conn with
  | .error _ => none
  | .ok (conn,streamLabel) =>
    if settings.skipInboundLabelCheck = true ∧ streamLabel ≠ [] then none
    else if conf.label ≠ (if settings.skipInboundLabelCheck then conf.label else streamLabel) then none
    else some conn

/-- What `readStream` gives to `openPayload`. -/
def streamPayload (conn streamLabel : Bytes) : Option (Bytes × Bytes) :=
  match conn.take maxCompressedStreamBytes with
  | [] => none
  | msgType :: bufConn =>
    if msgType ≠ encryptMsg ∨ bufConn.length < 4 then none
    else
      let moreBytes := ofBigEndian (bufConn.take 4)
      if maxPushStateBytes < moreBytes ∨ (bufConn.drop 4).length < moreBytes then none
      else some ((bufConn.drop 4).take moreBytes,encryptMsg :: bufConn.take 4 ++ streamLabel)

section
variable {recv : Receiver} {coders : Coders} {conf : Config} {settings : Settings}

/-- A packet that is not given to `openPayload` or that it does not open is refused. -/
theorem ingestPacket_opened (enabled : encryptionEnabled recv.config = true)
    (demanded : recv.config.gossipVerifyIncoming = true) (wire : Bytes) (s : Inbox) :
    (∃ r, ingestPacket recv wire s = s.refuse r) ∨ ∃ payload plain,
      packetPayload recv wire = some (payload,recv.config.label) ∧
        openPayload recv.coders.gcm (recv.config.keyring.getD []) payload recv.config.label = .ok plain := by
  unfold ingestPacket packetPayload
  cases removeLabelHeaderFromPacket wire with
  | error err => exact .inl ⟨_,rfl⟩
  | ok pair =>
    obtain ⟨buf,packetLabel⟩ := pair
    dsimp only
    by_cases double : recv.settings.skipInboundLabelCheck = true ∧ packetLabel ≠ []
    · rw [if_pos double]
      exact .inl ⟨_,rfl⟩
    by_cases other : recv.config.label ≠ (if recv.settings.skipInboundLabelCheck = true then recv.config.label else packetLabel)
    · rw [if_neg double,if_pos other]
      exact .inl ⟨_,rfl⟩
    rw [if_neg double,if_neg other,if_neg double,if_neg other,← not_not.mp other,decryptPacket,if_pos enabled]
    cases opened : openPayload recv.coders.gcm (recv.config.keyring.getD []) buf recv.config.label with
    | ok plain => exact .inr ⟨buf,plain,rfl,opened⟩
    | error err =>
      refine .inl ⟨.decrypt err,?_⟩
      simp only [demanded,Bool.true_eq_false,if_false]

/-- A stream message that is not given to `openPayload` or that it does not open is refused. -/
theorem readStream_opened (demanded : encryptionEnabled conf = true ∧ conf.gossipVerifyIncoming = true) (conn label : Bytes) :
    (∃ err, readStream coders conf conn label = .error err) ∨ ∃ payload header plain, header.length = 4 ∧
      streamPayload conn label = some (payload,encryptMsg :: header ++ label) ∧
        openPayload coders.gcm (conf.keyring.getD []) payload (encryptMsg :: header ++ label) = .ok plain := by
  have enabled : ¬ encryptionEnabled conf = false := by rw [demanded.1]; decide
  unfold readStream readEnvelope streamPayload
  cases conn.take maxCompressedStreamBytes with
  | nil => exact .inl ⟨_,rfl⟩
  | cons msgType bufConn =>
    dsimp only
    by_cases other : msgType ≠ encryptMsg
    · rw [if_neg other,if_pos demanded]
      exact .inl ⟨_,rfl⟩
    have isEncrypted : msgType = encryptMsg := not_not.mp other
    rw [if_pos isEncrypted,if_neg enabled]
    unfold decryptRemoteState
    by_cases short : bufConn.length < 4
    · rw [if_pos short]
      exact .inl ⟨_,rfl⟩
    by_cases large : maxPushStateBytes < ofBigEndian (bufConn.take 4)
    · simp only [if_neg short,if_pos large]
      exact .inl ⟨_,rfl⟩
    by_cases missing : (bufConn.drop 4).length < ofBigEndian (bufConn.take 4)
    · simp only [if_neg short,if_neg large,if_pos missing]
      exact .inl ⟨_,rfl⟩
    have here : ¬ (msgType ≠ encryptMsg ∨ bufConn.length < 4) := fun wrong => wrong.elim other short
    have whole : ¬ (maxPushStateBytes < ofBigEndian (bufConn.take 4) ∨
        (bufConn.drop 4).length < ofBigEndian (bufConn.take 4)) := fun wrong => wrong.elim large missing
    simp only [if_neg short,if_neg large,if_neg missing,if_neg here,if_neg whole]
    cases opened : openPayload coders.gcm (conf.keyring.getD []) ((bufConn.drop 4).take (ofBigEndian (bufConn.take 4)))
        (encryptMsg :: bufConn.take 4 ++ label) with
    | error err => exact .inl ⟨_,rfl⟩
    | ok plain =>
      have four : (bufConn.take 4).length = 4 := List.length_take_of_le (Nat.not_lt.mp short)
      exact .inr ⟨_,_,plain,four,rfl,opened⟩

/-- A stream that is not given to `readStream` or that it refuses is dropped. -/
theorem handleConn_read (numConcurrent : Nat) (conn : Bytes) :
    (∃ why, handleConn coders settings conf numConcurrent conn = .dropped why) ∨ ∃ inner,
      incomingStream settings conf conn = some inner ∧ ∀ err, readStream coders conf inner conf.label ≠ .error err := by
  unfold handleConn incomingStream
  cases removeLabelHeaderFromStream conn with
  | error err => exact .inl ⟨_,rfl⟩
  | ok pair =>
    obtain ⟨inner,streamLabel⟩ := pair
    dsimp only
    by_cases double : settings.skipInboundLabelCheck = true ∧ streamLabel ≠ []
    · rw [if_pos double]
      exact .inl ⟨_,rfl⟩
    by_cases other : conf.label ≠ (if settings.skipInboundLabelCheck = true then conf.label else streamLabel)
    · rw [if_neg double,if_pos other]
      exact .inl ⟨_,rfl⟩
    rw [if_neg double,if_neg other,if_neg double,if_neg other,← not_not.mp other]
    cases read : readStream coders conf inner conf.label with
    | error err => exact .inl ⟨_,rfl⟩
    | ok pair => exact .inr ⟨inner,rfl,fun err wrong => by rw [read] at wrong; cases wrong⟩

end

/-- The payload has the nonce and the ciphertext of the message. -/
def Outgoing.Carried (gcm : Gcm) (e : Outgoing) (payload : Bytes) : Prop :=
  e.nonce.draw = payloadNonce payload ∧ e.sealing.cipher gcm = payloadCipher payload

/-- The payload was sealed for this channel and label: some message with its nonce and
    ciphertext was, and where there is only one such message, that one. -/
structure Meant (gcm : Gcm) (log : Set Outgoing) (channel : Channel) (label payload : Bytes) : Prop where
  sealed : ∃ e ∈ log, e.Carried gcm payload ∧ e.channel = channel ∧ e.label = label
  only : ∀ e ∈ log, e.Carried gcm payload → (∀ e' ∈ log, e'.Carried gcm payload → e' = e) →
    e.channel = channel ∧ e.label = label

theorem meant_of_sealed {gcm : Gcm} {log : Set Outgoing} {channel : Channel} {label payload : Bytes}
    (sealed : ∃ e ∈ log, e.Carried gcm payload ∧ e.channel = channel ∧ e.label = label) :
    Meant gcm log channel label payload := by
  refine ⟨sealed,fun e _ _ only => ?_⟩
  obtain ⟨e',member,carried,meant⟩ := sealed
  exact only e' member carried ▸ meant

section
variable {gcm : Gcm} {log : Set Outgoing} {keys : List Bytes} {payload data plain : Bytes}

/-- A payload that opens has the nonce, the ciphertext and the data of a message. -/
theorem outgoing_of_opened (unforged : Unforged gcm (Set.image Outgoing.sealing log) keys payload data)
    (opened : openPayload gcm keys payload data = .ok plain) : ∃ e ∈ log, e.Carried gcm payload ∧ e.authData = data := by
  obtain ⟨-,-,sealed,-,-,-,⟨key,ring,opens⟩,-⟩ := openPayload_ok opened
  obtain ⟨-,⟨e,member,rfl⟩,-,nonce,cipher,same,-⟩ := unforged key ring sealed opens
  exact ⟨e,member,⟨nonce,cipher⟩,same⟩

/-- Nothing that the cipher has not been given to seal is in what an instance opens. -/
def Ideal (recv : Receiver) (log : Set Outgoing) (presented : Option (Bytes × Bytes)) : Prop :=
  ∀ payload data, presented = some (payload,data) →
    Unforged recv.coders.gcm (Set.image Outgoing.sealing log) (recv.config.keyring.getD []) payload data

/-- An instance refuses all encrypted packets and stream messages but those that were
    sealed with its own label and for the channel on which they arrive, whatever is
    around their ciphertext. -/
theorem channels_separate (recv : Receiver) (log : Set Outgoing) (legal : ∀ e ∈ log, Legal e.label)
    (own : Legal recv.config.label) (enabled : encryptionEnabled recv.config = true)
    (demanded : recv.config.gossipVerifyIncoming = true) :
    (∀ wire s, Ideal recv log (packetPayload recv wire) → (∃ r, ingestPacket recv wire s = s.refuse r) ∨
      ∃ payload data, packetPayload recv wire = some (payload,data) ∧
        Meant recv.coders.gcm log .packet recv.config.label payload) ∧
    (∀ conn, Ideal recv log (streamPayload conn recv.config.label) →
      (∃ err, readStream recv.coders recv.config conn recv.config.label = .error err) ∨
      ∃ payload data, streamPayload conn recv.config.label = some (payload,data) ∧
        Meant recv.coders.gcm log .stream recv.config.label payload) ∧
    ∀ numConcurrent conn, (∀ inner, incomingStream recv.settings recv.config conn = some inner →
        Ideal recv log (streamPayload inner recv.config.label)) →
      (∃ why, handleConn recv.coders recv.settings recv.config numConcurrent conn = .dropped why) ∨
      ∃ inner payload data, incomingStream recv.settings recv.config conn = some inner ∧
        streamPayload inner recv.config.label = some (payload,data) ∧
        Meant recv.coders.gcm log .stream recv.config.label payload := by
  have streams : ∀ conn, Ideal recv log (streamPayload conn recv.config.label) →
      (∃ err, readStream recv.coders recv.config conn recv.config.label = .error err) ∨
      ∃ payload data, streamPayload conn recv.config.label = some (payload,data) ∧
        Meant recv.coders.gcm log .stream recv.config.label payload := by
    intro conn ideal
    refine (readStream_opened ⟨enabled,demanded⟩ conn recv.config.label).imp_right ?_
    rintro ⟨payload,header,plain,four,presented,opened⟩
    obtain ⟨e,member,carried,same⟩ := outgoing_of_opened (ideal _ _ presented) opened
    exact ⟨payload,_,presented,meant_of_sealed ⟨e,member,carried,authData_stream (legal e member) four same⟩⟩
  refine ⟨?_,streams,?_⟩
  · intro wire s ideal
    refine (ingestPacket_opened enabled demanded wire s).imp_right ?_
    rintro ⟨payload,plain,presented,opened⟩
    obtain ⟨e,member,carried,same⟩ := outgoing_of_opened (ideal _ _ presented) opened
    exact ⟨payload,_,presented,meant_of_sealed ⟨e,member,carried,authData_packet own same⟩⟩
  · intro numConcurrent conn ideal
    refine (handleConn_read numConcurrent conn).imp_right ?_
    rintro ⟨inner,incoming,passes⟩
    rcases streams inner (ideal inner incoming) with ⟨err,failed⟩ | ⟨payload,data,presented,meant⟩
    · exact absurd failed (passes err)
    · exact ⟨inner,payload,data,incoming,presented,meant⟩

end

/-- An instance with a label and a key of zeros. -/
def keyed (label : Bytes) : Config := { name := [97], label := label, keyring := some [List.replicate 16 0] }

def listening (label : Bytes) : Receiver := ⟨⟨PushPull.storing,summing⟩,{},keyed label,.ip [10,0,0,1],0⟩

/-- A packet that the instance with label `A` sends. -/
def sealedA : Outgoing := outgoing .packet (keyed [65]) (List.replicate 16 0) PushPull.zeroNonce [8,1]

/-- With the label header of the instance `B` the packet is refused there. -/
theorem channels_separate_relabelled :
    ∃ r, ingestPacket (listening [66]) (makeLabelHeader [66] (sealedA.sealing.relabelled summing 1)) {} =
      Inbox.refuse {} r := by
  have payload : packetPayload (listening [66]) (makeLabelHeader [66] (sealedA.sealing.relabelled summing 1)) =
      some (sealedA.sealing.relabelled summing 1,[66]) := rfl
  have closed : ∀ key ∈ [List.replicate 16 (0 : UInt8)], openSum key (payloadNonce (sealedA.sealing.relabelled summing 1))
      (payloadCipher (sealedA.sealing.relabelled summing 1)) [66] = none := by decide
  have separate := (channels_separate (listening [66]) {sealedA}
    (fun e single => by rw [Set.mem_singleton_iff.mp single]; exact ⟨by decide,by decide⟩) ⟨by decide,by decide⟩ rfl rfl).1
    (makeLabelHeader [66] (sealedA.sealing.relabelled summing 1)) {}
  refine (separate ?_).resolve_right ?_
  · intro payload' data presented key ring plain opened
    rw [payload] at presented
    cases presented
    have refused := closed key ring
    rw [show openSum key _ _ _ = some plain from opened] at refused
    cases refused
  · rintro ⟨payload',data,-,meant⟩
    obtain ⟨e,rfl,-,-,label⟩ := meant.sealed
    cases label

end Mori.Labels
