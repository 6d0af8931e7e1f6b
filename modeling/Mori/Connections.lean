import Mori.Packet
import Mori.Codecs

/-!
Connections (`net.go`, `label.go`): the label in front of a stream, how an incoming
stream is handled, and user messages on a stream. A user message that was reported
as sent reaches the delegate of the receiver once and as it was, unless it is empty.
-/
namespace Mori.Connections
open Mori.Net Mori.Readers Mori.Msgpack Mori.Protocol Mori.Wire Mori.Codecs Mori.Security Mori.Stream Mori.Compound
open Mori.PushPull Mori.Packet
set_option linter.unusedSimpArgs false

def maxUserMsgBytes : Nat := 20 * 1024 * 1024
def maxPushPullRequests : Nat := 128

/-- What is written in front of an outgoing stream. -/
def addLabelHeaderToStream (label : Bytes) : Except LabelError Bytes :=
  if label = [] then .ok []
  else if labelMaxSize < label.length then .error (.tooLong label)
  else .ok (makeLabelHeader label [])

inductive StreamLabelError where
  | truncated
  | empty
deriving DecidableEq,Repr

/-- The stream without its label, and the label. -/
def removeLabelHeaderFromStream : Bytes → Except StreamLabelError (Bytes × Bytes)
  | [] => .ok ([],[])
  | msgType :: conn =>
    if msgType ≠ hasLabelMsg then .ok (msgType :: conn,[])
    else match conn with
    | [] => .error .truncated
    | size :: conn =>
      if size.toNat < 1 then .error .empty
      else if conn.length < size.toNat then .error .truncated
      else .ok (conn.drop size.toNat,conn.take size.toNat)

inductive UserSendError where
  | nodeNameRequired
  | tooLarge (n : Nat)
  | label (err : LabelError)
  | stream (err : MessageTooLarge)
deriving DecidableEq,Repr

/-- The header and the text of a user message. -/
def userMsgBody (msg : Bytes) : Bytes := appendUserMsgHeader ⟨msg.length⟩ ++ msg

section
variable (coders : Coders) (settings : Settings)

/-- What `sendUserMsg` writes: the label, when it connects, and the message. -/
def sendUserMsg (conf : Config) (a : Address) (nonce : Nonce) (sendBuf : Bytes) : Except UserSendError (Bytes × Bytes) :=
  if a.name = [] ∧ settings.requireNodeNames = true then .error .nodeNameRequired
  else if maxUserMsgBytes < sendBuf.length then .error (.tooLarge sendBuf.length)
  else match addLabelHeaderToStream conf.label with
  | .error err => .error (.label err)
  | .ok header =>
    match rawSendMsgStream coders conf nonce (userMsg :: userMsgBody sendBuf) conf.label with
    | .error err => .error (.stream err)
    | .ok sent => .ok (header,sent)

inductive UserMsgError where
  | decode (err : Error)
  | length (n : Int)
  | short (n : Int) (err : Error)
deriving DecidableEq,Repr

/-- `readUserMsg`, up to what the delegate is told, if it is told anything. -/
def readUserMsg : Reader Decoder UserMsgError (Option Bytes) := do
  let header ← wrapError .decode decodeUserMsgHeader
  if header.userMsgLen < 0 ∨ maxUserMsgBytes < header.userMsgLen then throw (.length header.userMsgLen)
  else if header.userMsgLen = 0 then return none
  else do return some (← wrapError (.short header.userMsgLen) (readRaw header.userMsgLen))

/-- Why a stream is dropped before its message is looked at. -/
inductive Dropped where
  | label (err : StreamLabelError)
  | doubleLabel
  | unacceptableLabel (label : Bytes)
  | failed (err : StreamError)
deriving DecidableEq,Repr

/-- What `handleConn` makes of a stream: the message it goes on with, or why it does not. -/
inductive Handled where
  | dropped (why : Dropped)
  | user (msg : Except UserMsgError (Option Bytes))
  | tooManyRequests
  | pushPull (state : Except StreamError (Bool × List PushNodeState × Slice))
  | pingError (err : Error)
  | unexpectedNode (node : Bytes)
  | ack (seqNo : UInt32)
  | invalidType (msgType : UInt8)

/-- The message behind the envelope of a stream. -/
def handleStreamMessage (conf : Config) (numConcurrent : Nat) (msgType : UInt8) (dec : Decoder) : Handled :=
  if msgType = userMsg then .user ((readUserMsg.run dec).map Prod.fst)
  else if msgType = pushPullMsg then
    if maxPushPullRequests ≤ numConcurrent then .tooManyRequests
    else .pushPull (((readRemoteState conf).run dec).map Prod.fst)
  else if msgType = pingMsg then
    match decodePing.run dec with
    | .error err => .pingError err
    | .ok (p,_) => if p.node ≠ [] ∧ p.node ≠ conf.name then .unexpectedNode p.node else .ack p.seqNo
  else .invalidType msgType

/-- `handleConn`, on all that arrives on the connection; `numConcurrent` is what the
    counter of push/pull requests would be with this one. -/
def handleConn (conf : Config) (numConcurrent : Nat) (conn : Bytes) : Handled :=
  match removeLabelHeaderFromStream conn with
  | .error err => .dropped (.label err)
  | .ok (conn,streamLabel) =>
    if settings.skipInboundLabelCheck = true ∧ streamLabel ≠ [] then .dropped .doubleLabel
    else
      let streamLabel := if settings.skipInboundLabelCheck then conf.label else streamLabel
      if conf.label ≠ streamLabel then .dropped (.unacceptableLabel streamLabel)
      else match readStream coders conf conn streamLabel with
      | .error err => .dropped (.failed err)
      | .ok (msgType,dec) => handleStreamMessage conf numConcurrent msgType dec

end

/-- The calls of NotifyMsg. -/
def notified (conf : Config) : Handled → List Bytes
  | .user (.ok (some msg)) => if conf.delegate then [msg] else []
  | _ => []

section
variable {coders : Coders} {settings : Settings} {sender receiver : Config} {a : Address} {nonce : Nonce}
  {msg header sent label : Bytes}

/-- The length and the text of a message are read, but nothing comes of an empty one. -/
theorem reads_readUserMsg (fits : msg.length ≤ maxUserMsgBytes) :
    Reads readUserMsg (userMsgBody msg) (if msg = [] then none else some msg) := by
  have most : maxUserMsgBytes < 2 ^ 63 := by decide
  have within : Within .userMsgHeader (⟨msg.length⟩ : UserMsgHeader) := ⟨by dsimp only; omega,by dsimp only; omega⟩
  have first : Reads (wrapError UserMsgError.decode decodeUserMsgHeader) (appendUserMsgHeader ⟨msg.length⟩) ⟨msg.length⟩ :=
    reads_wrapError (reads_appendMsgpack within)
  have bounded : ¬ ((msg.length : Int) < 0 ∨ (maxUserMsgBytes : Int) < msg.length) := by omega
  refine reads_bind first ?_
  dsimp only
  rw [if_neg bounded]
  by_cases empty : msg = []
  · subst empty
    exact reads_pure none
  · have nonzero : ¬ (msg.length : Int) = 0 := by
      have := List.length_pos_iff.mpr empty
      omega
    rw [if_neg nonzero,if_neg empty]
    refine reads_map (reads_wrapError ?_)
    rw [readRaw,if_neg (by omega),Int.toNat_natCast]
    exact reads_readInto msg

/-- The error of a stream for what a packet would be refused for. -/
def streamLabelError : LabelError → StreamLabelError
  | .empty => .empty
  | _ => .truncated

/-- Streams and packets are labelled alike. -/
theorem removeLabelHeaderFromStream_eq (conn : Bytes) :
    removeLabelHeaderFromStream conn = (removeLabelHeaderFromPacket conn).mapError streamLabelError := by
  cases conn with
  | nil => rfl
  | cons msgType conn =>
    by_cases plain : msgType ≠ hasLabelMsg
    · simp only [removeLabelHeaderFromStream,removeLabelHeaderFromPacket,if_pos plain]
      rfl
    cases conn with
    | nil =>
      simp only [removeLabelHeaderFromStream,removeLabelHeaderFromPacket,if_neg plain]
      rfl
    | cons size conn =>
      simp only [removeLabelHeaderFromStream,removeLabelHeaderFromPacket,if_neg plain]
      split_ifs
      · rfl
      · rfl
      · rfl

/-- A label is taken off as it was put on. -/
theorem removeLabelHeader_added (added : addLabelHeaderToStream label = .ok header) (other : sent.head? ≠ some hasLabelMsg) :
    removeLabelHeaderFromStream (header ++ sent) = .ok (sent,label) := by
  unfold addLabelHeaderToStream at added
  split_ifs at added with empty long
  · cases added
    subst empty
    cases sent with
    | nil => rfl
    | cons msgType conn =>
      have plain : msgType ≠ hasLabelMsg := fun wrong => other (congrArg some wrong)
      simp only [List.nil_append,removeLabelHeaderFromStream,if_pos plain]
  · cases added
    have whole : makeLabelHeader label [] ++ sent = makeLabelHeader label sent := by simp [makeLabelHeader]
    rw [whole,removeLabelHeaderFromStream_eq,removeLabelHeader_made empty (Nat.not_lt.mp long)]
    rfl

/-- With the label that it expects, a receiver goes on with what follows the label, in
    both of its modes. -/
theorem handleConn_labelled {receiving : Settings} (added : addLabelHeaderToStream receiver.label = .ok header)
    (other : sent.head? ≠ some hasLabelMsg) (numConcurrent : Nat) :
    handleConn coders receiving receiver numConcurrent (if receiving.skipInboundLabelCheck then sent else header ++ sent) =
      match readStream coders receiver sent receiver.label with
      | .error err => .dropped (.failed err)
      | .ok (msgType,dec) => handleStreamMessage receiver numConcurrent msgType dec := by
  cases mode : receiving.skipInboundLabelCheck with
  | true =>
    have bare : removeLabelHeaderFromStream ([] ++ sent) = .ok (sent,[]) := removeLabelHeader_added rfl other
    rw [List.nil_append] at bare
    simp only [handleConn,bare,mode,if_true,ne_eq,not_true_eq_false,and_false,if_false]
  | false =>
    have removed := removeLabelHeader_added added other
    simp only [handleConn,mode,Bool.false_eq_true,if_false,removed,false_and,ne_eq,not_true_eq_false]

/-- A message on a stream starts with its own type or that of its envelope. -/
theorem head_rawSendMsgStream {msgType : UInt8} {body : Bytes} (unlabelled : msgType ≠ hasLabelMsg) (plain : msgType ≠ encryptMsg)
    (written : rawSendMsgStream coders sender nonce (msgType :: body) label = .ok sent) :
    ∃ t, sent.head? = some t ∧ t ≠ hasLabelMsg ∧ (outgoingKey sender = none → t ≠ encryptMsg) := by
  obtain ⟨t,b,shrunk,-,wraps⟩ := shrink_wraps coders sender msgType body
  have types : t ≠ hasLabelMsg ∧ t ≠ encryptMsg := by
    cases wraps with
    | plain => exact ⟨unlabelled,plain⟩
    | compressed => decide
  unfold rawSendMsgStream at written
  rw [shrunk] at written
  cases keyed : outgoingKey sender with
  | none =>
    rw [keyed] at written
    cases written
    exact ⟨t,rfl,types.1,fun _ => types.2⟩
  | some key =>
    rw [keyed] at written
    dsimp only at written
    split_ifs at written
    cases written
    exact ⟨encryptMsg,rfl,by decide,fun wrong => by cases wrong⟩

/-- A receiver that demands encryption drops a message without. -/
theorem readStream_demanded {t : UInt8} (head : sent.head? = some t) (plain : t ≠ encryptMsg)
    (demanded : encryptionEnabled receiver = true ∧ receiver.gossipVerifyIncoming = true) :
    readStream coders receiver sent label = .error .notEncrypted := by
  cases sent with
  | nil => cases head
  | cons _ rest =>
    cases head
    have taken : (t :: rest).take maxCompressedStreamBytes = t :: rest.take (maxCompressedStreamBytes - 1) := rfl
    have envelope : readEnvelope coders receiver (t :: rest) label = .error .notEncrypted := by
      simp only [readEnvelope,taken,if_neg plain,if_pos demanded]
    rw [readStream,envelope]

/-- What was written, where `sendUserMsg` reports success. -/
theorem sendUserMsg_ok (written : sendUserMsg coders settings sender a nonce msg = .ok (header,sent)) :
    msg.length ≤ maxUserMsgBytes ∧ addLabelHeaderToStream sender.label = .ok header ∧
      rawSendMsgStream coders sender nonce (userMsg :: userMsgBody msg) sender.label = .ok sent := by
  unfold sendUserMsg at written
  split_ifs at written with unnamed large
  cases added : addLabelHeaderToStream sender.label with
  | error err =>
    rw [added] at written
    cases written
  | ok front =>
    cases streamed : rawSendMsgStream coders sender nonce (userMsg :: userMsgBody msg) sender.label with
    | error err =>
      rw [added,streamed] at written
      cases written
    | ok written' =>
      rw [added,streamed] at written
      cases written
      exact ⟨Nat.not_lt.mp large,rfl,rfl⟩

theorem length_appendInt_le (v : Int) : (appendInt v).length ≤ 9 := by
  unfold appendInt
  split_ifs <;> simp

/-- The limit of a user message is within that of a stream message. -/
theorem length_userMsgBody (fits : msg.length ≤ maxUserMsgBytes) : (userMsgBody msg).length < maxStreamMessageBytes := by
  have header : (appendUserMsgHeader ⟨msg.length⟩).length ≤ 21 := by
    have key : (appendMapHeader 1).length + (appendString (ascii "UserMsgLen")).length = 12 := by decide
    have value := length_appendInt_le (msg.length : Int)
    simp only [appendUserMsgHeader,appendMap,appendI,List.length_cons,List.length_nil,List.flatten_cons,List.flatten_nil,
      List.append_nil,List.length_append,Nat.zero_add]
    omega
  have room : maxUserMsgBytes + 21 < maxStreamMessageBytes := by decide
  rw [userMsgBody,List.length_append]
  omega

/-- A user message that `sendUserMsg` reports as sent reaches the delegate of a receiver
    once and as it was, exactly if it is not empty and the receiver does not demand an
    encryption that the sender does not use. -/
theorem userMsg_delivered_iff (coders : Coders) (settings receiving : Settings) (sender receiver : Config) (a : Address)
    (nonce : Nonce) (msg : Bytes) {header sent : Bytes}
    (written : sendUserMsg coders settings sender a nonce msg = .ok (header,sent))
    (label : receiver.label = sender.label) (delegate : receiver.delegate = true)
    (keyed : ∀ key, outgoingKey sender = some key → key ∈ receiver.keyring.getD [] ∧
      Foreign coders.gcm (receiver.keyring.getD []) key (sent.drop 5) (sent.take 5 ++ sender.label))
    (numConcurrent : Nat) :
    notified receiver (handleConn coders receiving receiver numConcurrent
        (if receiving.skipInboundLabelCheck then sent else header ++ sent)) = [msg] ↔
      msg ≠ [] ∧ (outgoingKey sender = none → ¬ (encryptionEnabled receiver = true ∧ receiver.gossipVerifyIncoming = true)) := by
  obtain ⟨fits,added,streamed⟩ := sendUserMsg_ok written
  obtain ⟨t,head,unlabelled,plain⟩ := head_rawSendMsgStream (by decide) (by decide) streamed
  have other : sent.head? ≠ some hasLabelMsg := by
    rw [head]
    exact fun wrong => unlabelled (Option.some.inj wrong)
  rw [handleConn_labelled (label ▸ added) other,label]
  by_cases refused : outgoingKey sender = none ∧ encryptionEnabled receiver = true ∧ receiver.gossipVerifyIncoming = true
  · rw [readStream_demanded head (plain refused.1) refused.2]
    exact iff_of_false (fun wrong => by cases wrong) (fun fine => fine.2 refused.1 refused.2)
  · have readable : Readable coders sender receiver sent sender.label := by
      unfold Readable
      cases key : outgoingKey sender with
      | none => exact fun demanded => refused ⟨key,demanded⟩
      | some key' => exact keyed key' key
    obtain ⟨d,read⟩ := readStream_rawSendMsgStream streamed (by decide) (by decide) (length_userMsgBody fits) readable []
    rw [List.append_nil] at read
    rw [read]
    have handled : handleStreamMessage receiver numConcurrent userMsg (Input.feed (userMsgBody msg) d) =
        .user (.ok (if msg = [] then none else some msg)) := by
      rw [handleStreamMessage,if_pos rfl,reads_readUserMsg fits d]
      rfl
    dsimp only
    rw [handled]
    by_cases empty : msg = []
    · rw [if_pos empty]
      exact iff_of_false (fun wrong => by cases wrong) (fun fine => fine.1 empty)
    · rw [if_neg empty]
      refine iff_of_true ?_ ⟨empty,fun key demanded => refused ⟨key,demanded⟩⟩
      rw [notified,if_pos delegate]

end

/-- A node with a label and a delegate, without compression. -/
def talking (keyring : Option (List Bytes)) : Config :=
  { name := [97], label := [108], keyring := keyring, delegate := true, enableCompression := false }

/-- An empty message is sent, with success, and read, but not delivered. -/
theorem userMsg_lost :
    ∃ header sent, sendUserMsg ⟨storing,tagging⟩ {} (talking none) ⟨some [49],[98]⟩ zeroNonce [] = .ok (header,sent) ∧
      notified (talking none) (handleConn ⟨storing,tagging⟩ {} (talking none) 0 (header ++ sent)) = [] :=
  ⟨_,_,rfl,rfl⟩

theorem userMsg_delivered_iff_sealed :
    ∃ header sent, sendUserMsg ⟨storing,tagging⟩ {} (talking (some [List.replicate 16 7])) ⟨some [49],[98]⟩ zeroNonce [1,2] =
        .ok (header,sent) ∧
      notified (talking (some [List.replicate 16 7]))
        (handleConn ⟨storing,tagging⟩ {} (talking (some [List.replicate 16 7])) 0 (header ++ sent)) = [[1,2]] := by
  have written : ∃ header sent, sendUserMsg ⟨storing,tagging⟩ {} (talking (some [List.replicate 16 7])) ⟨some [49],[98]⟩
      zeroNonce [1,2] = .ok (header,sent) := ⟨_,_,rfl⟩
  obtain ⟨header,sent,written⟩ := written
  refine ⟨header,sent,written,?_⟩
  have delivered := userMsg_delivered_iff ⟨storing,tagging⟩ {} {} (talking (some [List.replicate 16 7]))
    (talking (some [List.replicate 16 7])) ⟨some [49],[98]⟩ zeroNonce [1,2] written rfl rfl ?_ 0
  · exact delivered.mpr ⟨by simp,fun wrong => by cases wrong⟩
  · intro key keyed
    cases keyed
    exact ⟨List.mem_singleton.mpr rfl,foreign_primary rfl _⟩

end Mori.Connections
