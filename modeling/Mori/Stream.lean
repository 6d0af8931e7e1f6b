import Mori.Wire
import Mori.Security

/-!
Messages on a stream (`net.go`): how a message is compressed and encrypted for its
connection, how it is read there, and the limits that both sides keep. What the
receiver reads is what the sender was given, whatever follows on the connection.
-/
namespace Mori.Stream
open Mori.Net Mori.Readers Mori.Msgpack Mori.Protocol Mori.Wire Mori.Security
set_option linter.unusedSimpArgs false

def pushPullMsg : UInt8 := 6
def compressMsg : UInt8 := 9
def encryptMsg : UInt8 := 10

def maxPushStateBytes : Nat := 20 * 1024 * 1024
def maxPushStateNodes : Nat := 1024 * 1024
def maxDecompressedBytes : Nat := 2 * maxPushStateBytes
def maxStreamMessageBytes : Nat := maxDecompressedBytes
def maxCompressedStreamBytes : Nat := maxDecompressedBytes * 3 / 2 + maxDecompressedBytes / 1024 + 64 * 1024

def lzwAlgo : UInt8 := 0

/-- The LZW coder: the writer may fail, and the reader gives some output and then
    ends, or fails. Reading what was written gives the input back. -/
structure Lzw where
  write : Bytes → Option Bytes
  read : Bytes → Bytes × Option String
  read_write {b c : Bytes} (written : write b = some c) : read c = (b,none)

/-- The parts of a connection's coding that are not the protocol's own. -/
structure Coders where
  lzw : Lzw
  gcm : Gcm

/-- `ErrMessageTooLarge`, with what was too large. -/
inductive MessageTooLarge where
  | userState (n : Nat)
  | pushPull (n : Nat)
  | encrypted (n : Nat)
deriving DecidableEq,Repr

section
variable (coders : Coders)

def compressPayload (inp : Bytes) : Option Bytes :=
  (coders.lzw.write inp).map (fun c => compressMsg :: appendCompress ⟨lzwAlgo,some c⟩)

/-- The compressed form where that is smaller. -/
def shrink (conf : Config) (sendBuf : Bytes) : Bytes :=
  if conf.enableCompression then
    match compressPayload coders sendBuf with
    | some compBuf => if compBuf.length < sendBuf.length then compBuf else sendBuf
    | none => sendBuf
  else sendBuf

/-- The type and the length of an encrypted message, which are authenticated with it. -/
def encryptHeader (encLen : Nat) : Bytes := encryptMsg :: bigEndian 4 encLen

def encryptLocalState (conf : Config) (key : Bytes) (nonce : Nonce) (sendBuf streamLabel : Bytes) : Bytes :=
  let header := encryptHeader (encryptedLength (encryptionVersion conf) sendBuf.length)
  header ++ sealPayload coders.gcm (encryptionVersion conf) key nonce sendBuf (header ++ streamLabel)

/-- What `rawSendMsgStream` writes. -/
def rawSendMsgStream (conf : Config) (nonce : Nonce) (sendBuf streamLabel : Bytes) : Except MessageTooLarge Bytes :=
  let sendBuf := shrink coders conf sendBuf
  match outgoingKey conf with
  | none => .ok sendBuf
  | some key =>
    let n := encryptedLength (encryptionVersion conf) sendBuf.length
    if maxPushStateBytes < n then .error (.encrypted n)
    else .ok (encryptLocalState coders conf key nonce sendBuf streamLabel)

/-- Why a stream message is refused. -/
inductive StreamError where
  | eof
  | tooLarge (n : Nat)
  | notConfigured
  | notEncrypted
  | decryptedEmpty
  | decompressedEmpty
  | algorithm (algo : UInt8)
  | decompressedTooLarge (limit : Nat)
  | lzw (err : String)
  | security (err : SecurityError)
  | decode (err : Error)
  | nodeCount (n : Int)
  | userStateLen (n : Int)
  | noName (i : Nat)
  | userState (n : Int) (err : Error)
deriving DecidableEq,Repr

/-- `decompressBuffer`, on the whole output of the coder; output past the limit is refused
    whatever follows it. -/
def decompressBuffer (c : Compress) (limit : Nat) : Except StreamError Bytes :=
  if c.algo ≠ lzwAlgo then .error (.algorithm c.algo)
  else
    let out := coders.lzw.read (bytes c.buf)
    if limit < out.1.length then .error (.decompressedTooLarge limit)
    else match out.2 with
    | some err => .error (.lzw err)
    | none => .ok out.1

/-- `decryptRemoteState`, on the connection after the type byte. -/
def decryptRemoteState (conf : Config) (bufConn streamLabel : Bytes) : Except StreamError Bytes :=
  if bufConn.length < 4 then .error .eof
  else
    let moreBytes := ofBigEndian (bufConn.take 4)
    if maxPushStateBytes < moreBytes then .error (.tooLarge moreBytes)
    else if (bufConn.drop 4).length < moreBytes then .error .eof
    else (openPayload coders.gcm (conf.keyring.getD []) ((bufConn.drop 4).take moreBytes)
      (encryptMsg :: bufConn.take 4 ++ streamLabel)).mapError .security

/-- `readStream` up to the decryption: the type of the message and its decoder. A
    plaintext message is bounded as it is read, type byte included. -/
def readEnvelope (conf : Config) (conn streamLabel : Bytes) : Except StreamError (UInt8 × Decoder) :=
  match conn.take maxCompressedStreamBytes with
  | [] => .error .eof
  | msgType :: bufConn =>
    if msgType = encryptMsg then
      if encryptionEnabled conf = false then .error .notConfigured
      else match decryptRemoteState coders conf bufConn streamLabel with
      | .error err => .error err
      | .ok [] => .error .decryptedEmpty
      | .ok (plainType :: plain) => .ok (plainType,newDecoder plain)
    else if encryptionEnabled conf = true ∧ conf.gossipVerifyIncoming = true then .error .notEncrypted
    else if msgType = compressMsg then .ok (msgType,newStreamDecoder bufConn)
    else .ok (msgType,newStreamDecoder (bufConn.take (maxStreamMessageBytes - 1)))

/-- The decompression of `readStream`. -/
def readCompressed (dec : Decoder) : Except StreamError (UInt8 × Decoder) :=
  match decodeCompress.run dec with
  | .error err => .error (.decode err)
  | .ok (c,_) =>
    match decompressBuffer coders c maxDecompressedBytes with
    | .error err => .error err
    | .ok [] => .error .decompressedEmpty
    | .ok (msgType :: decomp) => .ok (msgType,newDecoder decomp)

def readStream (conf : Config) (conn streamLabel : Bytes) : Except StreamError (UInt8 × Decoder) :=
  match readEnvelope coders conf conn streamLabel with
  | .error err => .error err
  | .ok (msgType,dec) => if msgType = compressMsg then readCompressed coders dec else .ok (msgType,dec)

end

/-- The receiver has what it needs to read the message: the key it was sealed
    with, or no demand for encryption where the sender does not encrypt. -/
def Readable (coders : Coders) (sender receiver : Config) (sent streamLabel : Bytes) : Prop :=
  match outgoingKey sender with
  | none => ¬ (encryptionEnabled receiver = true ∧ receiver.gossipVerifyIncoming = true)
  | some key => key ∈ receiver.keyring.getD [] ∧
      Foreign coders.gcm (receiver.keyring.getD []) key (sent.drop 5) (sent.take 5 ++ streamLabel)

section
variable {coders : Coders} {sender receiver : Config} {nonce : Nonce} {label body rest sent : Bytes} {msgType : UInt8}

/-- Instances with one ring read each other, unless they demand encryption without
    encrypting. -/
theorem readable_same (ring : receiver.keyring = sender.keyring)
    (consistent : encryptionEnabled receiver = true → receiver.gossipVerifyIncoming = true →
      sender.gossipVerifyOutgoing = true) : Readable coders sender receiver sent label := by
  unfold Readable
  cases keyed : outgoingKey sender with
  | none =>
    rintro ⟨enabled,demanded⟩
    have outgoing := consistent enabled demanded
    simp only [encryptionEnabled,ring] at enabled
    simp only [outgoingKey,outgoing,if_true] at keyed
    rw [List.head?_eq_none_iff.mp keyed] at enabled
    cases enabled
  | some key =>
    have primary : (receiver.keyring.getD []).head? = some key := by
      rw [ring]
      unfold outgoingKey at keyed
      split_ifs at keyed
      exact keyed
    exact ⟨List.mem_of_head? primary,foreign_primary primary _⟩

theorem take_append_of_fits {n : Nat} {b : Bytes} (fits : b.length ≤ n) (rest : Bytes) :
    (b ++ rest).take n = b ++ rest.take (n - b.length) := by
  rw [List.take_append,List.take_of_length_le fits]

/-- A message as it is, or wrapped in a compress message. -/
inductive Wraps (coders : Coders) (msgType : UInt8) (body : Bytes) : UInt8 → Bytes → Prop
  | plain : Wraps coders msgType body msgType body
  | compressed {c : Bytes} (written : coders.lzw.write (msgType :: body) = some c)
      (smaller : (appendCompress ⟨lzwAlgo,some c⟩).length < body.length) :
      Wraps coders msgType body compressMsg (appendCompress ⟨lzwAlgo,some c⟩)

theorem shrink_wraps (coders : Coders) (conf : Config) (msgType : UInt8) (body : Bytes) :
    ∃ t b, shrink coders conf (msgType :: body) = t :: b ∧ b.length ≤ body.length ∧ Wraps coders msgType body t b := by
  unfold shrink compressPayload
  by_cases enabled : conf.enableCompression = true
  · cases written : coders.lzw.write (msgType :: body) with
    | none => exact ⟨msgType,body,by simp [enabled],le_rfl,.plain⟩
    | some c =>
      by_cases smaller : (appendCompress ⟨lzwAlgo,some c⟩).length < body.length
      · exact ⟨compressMsg,_,by simp [enabled,smaller],smaller.le,.compressed written smaller⟩
      · exact ⟨msgType,body,by simp [enabled,smaller],le_rfl,.plain⟩
  · exact ⟨msgType,body,by simp [enabled],le_rfl,.plain⟩

theorem length_le_appendCompress (algo : UInt8) (c : Bytes) : c.length ≤ (appendCompress ⟨algo,some c⟩).length := by
  simp only [appendCompress,appendMap,appendB,appendBytes,List.flatten_cons,List.flatten_nil,List.length_append,
    List.length_nil]
  omega

/-- The decompression of `readStream` gives the message back. -/
theorem unwraps {t : UInt8} {b : Bytes} (wraps : Wraps coders msgType body t b) (plain : msgType ≠ compressMsg)
    (bound : body.length < maxStreamMessageBytes) (d : Decoder) :
    ∃ d', (if t = compressMsg then readCompressed coders (Input.feed b d) else .ok (t,Input.feed b d)) =
      .ok (msgType,Input.feed body d') := by
  cases wraps with
  | plain => exact ⟨d,by rw [if_neg plain]⟩
  | @compressed c written smaller =>
    refine ⟨newDecoder [],?_⟩
    have inside := length_le_appendCompress lzwAlgo c
    have field : c.length ≤ maxCompressedBytes := by
      have : maxStreamMessageBytes ≤ maxCompressedBytes := by decide
      omega
    have decoded : decodeCompress.run (Input.feed (appendCompress ⟨lzwAlgo,some c⟩) d) = .ok (⟨lzwAlgo,some c⟩,d) :=
      reads_compress (m := ⟨lzwAlgo,some c⟩) field d
    have fits : ¬ maxDecompressedBytes < (msgType :: body).length := Nat.not_lt.mpr bound
    have inflated : decompressBuffer coders ⟨lzwAlgo,some c⟩ maxDecompressedBytes = .ok (msgType :: body) := by
      simp only [decompressBuffer,bytes_some,coders.lzw.read_write written,fits,ne_eq,not_true_eq_false,if_false]
    rw [if_pos rfl]
    simp only [readCompressed,decoded,inflated]
    simp [Input.feed,newDecoder]

/-- A plaintext message on the connection. -/
theorem readEnvelope_plain {t : UInt8} {b : Bytes} (plain : t ≠ encryptMsg)
    (undemanded : ¬ (encryptionEnabled receiver = true ∧ receiver.gossipVerifyIncoming = true))
    (bound : b.length < maxStreamMessageBytes) (rest : Bytes) :
    ∃ d, readEnvelope coders receiver (t :: b ++ rest) label = .ok (t,Input.feed b d) := by
  have fits : (t :: b).length ≤ maxCompressedStreamBytes := by
    have : maxStreamMessageBytes ≤ maxCompressedStreamBytes := by decide
    rw [List.length_cons]
    omega
  unfold readEnvelope
  rw [take_append_of_fits fits,List.cons_append]
  simp only [if_neg plain,if_neg undemanded]
  by_cases compressed : t = compressMsg
  · refine ⟨newStreamDecoder (rest.take (maxCompressedStreamBytes - (t :: b).length)),?_⟩
    rw [if_pos compressed]
    rfl
  · refine ⟨newStreamDecoder ((rest.take (maxCompressedStreamBytes - (t :: b).length)).take
      (maxStreamMessageBytes - 1 - b.length)),?_⟩
    rw [if_neg compressed,take_append_of_fits (by omega)]
    rfl

/-- What follows the type of an encrypted message is as long as its length field says. -/
theorem length_encryptLocalState (coders : Coders) (conf : Config) (key : Bytes) (nonce : Nonce) (msg label : Bytes) :
    ∃ payload, encryptLocalState coders conf key nonce msg label = encryptMsg :: (bigEndian 4 payload.length ++ payload) ∧
      payload.length = encryptedLength (encryptionVersion conf) msg.length := by
  have size : (sealPayload coders.gcm (encryptionVersion conf) key nonce msg
      (encryptHeader (encryptedLength (encryptionVersion conf) msg.length) ++ label)).length =
        encryptedLength (encryptionVersion conf) msg.length :=
    length_sealPayload key nonce msg _ (encryptionVersion_le conf)
  refine ⟨_,?_,size⟩
  rw [size]
  rfl

/-- `decryptRemoteState` gives the message back, whatever follows on the connection. -/
theorem decryptRemoteState_encrypted {key msg : Bytes} (member : key ∈ receiver.keyring.getD [])
    (written : encryptLocalState coders sender key nonce msg label = sent)
    (bound : encryptedLength (encryptionVersion sender) msg.length ≤ maxPushStateBytes)
    (foreign : Foreign coders.gcm (receiver.keyring.getD []) key (sent.drop 5) (sent.take 5 ++ label)) (rest : Bytes) :
    decryptRemoteState coders receiver (sent.tail ++ rest) label = .ok msg := by
  subst written
  simp only [encryptLocalState] at foreign ⊢
  generalize lengthEq : encryptedLength (encryptionVersion sender) msg.length = n at *
  have header : (encryptHeader n).length = 5 := by simp [encryptHeader]
  generalize payloadEq : sealPayload coders.gcm (encryptionVersion sender) key nonce msg (encryptHeader n ++ label) =
    payload at foreign ⊢
  have payloadLength : payload.length = n := by
    rw [← payloadEq,← lengthEq]
    exact length_sealPayload key nonce _ _ (encryptionVersion_le sender)
  rw [← header,List.drop_left,List.take_left] at foreign
  have opened : openPayload coders.gcm (receiver.keyring.getD []) payload (encryptHeader n ++ label) = .ok msg := by
    rw [← payloadEq] at foreign ⊢
    exact openPayload_sealPayload (encryptionVersion_le sender) member foreign
  have small : n < 256 ^ 4 := Nat.lt_of_le_of_lt bound (by decide)
  have shape : (encryptHeader n ++ payload).tail ++ rest = bigEndian 4 n ++ payload ++ rest := rfl
  have first : (bigEndian 4 n ++ payload ++ rest).take 4 = bigEndian 4 n := by
    rw [List.append_assoc,List.take_left' (length_bigEndian 4 n)]
  have last : (bigEndian 4 n ++ payload ++ rest).drop 4 = payload ++ rest := by
    rw [List.append_assoc,List.drop_left' (length_bigEndian 4 n)]
  have long : ¬ (bigEndian 4 n ++ payload ++ rest).length < 4 := by simp
  have whole : ¬ (payload ++ rest).length < n := by simp [payloadLength]
  rw [shape]
  simp only [decryptRemoteState,long,first,last,ofBigEndian_of_lt small,Nat.not_lt.mpr bound,whole,if_false,
    List.take_left' payloadLength]
  rw [show encryptMsg :: bigEndian 4 n ++ label = encryptHeader n ++ label from rfl,opened]
  rfl

/-- An encrypted message on the connection. -/
theorem readEnvelope_encrypted {t : UInt8} {b key : Bytes} (member : key ∈ receiver.keyring.getD [])
    (written : encryptLocalState coders sender key nonce (t :: b) label = sent)
    (bound : encryptedLength (encryptionVersion sender) (t :: b).length ≤ maxPushStateBytes)
    (foreign : Foreign coders.gcm (receiver.keyring.getD []) key (sent.drop 5) (sent.take 5 ++ label)) (rest : Bytes) :
    readEnvelope coders receiver (sent ++ rest) label = .ok (t,Input.feed b (newDecoder [])) := by
  have decrypted := decryptRemoteState_encrypted member written bound foreign
  obtain ⟨payload,shape,size⟩ := length_encryptLocalState coders sender key nonce (t :: b) label
  rw [← written,shape] at decrypted ⊢
  have enabled : encryptionEnabled receiver = true := by
    cases ring : receiver.keyring.getD [] with
    | nil => rw [ring] at member; cases member
    | cons head tail => simp [encryptionEnabled,ring]
  have fits : (encryptMsg :: (bigEndian 4 payload.length ++ payload)).length ≤ maxCompressedStreamBytes := by
    have : maxPushStateBytes + 5 ≤ maxCompressedStreamBytes := by decide
    rw [List.length_cons,List.length_append,length_bigEndian]
    omega
  unfold readEnvelope
  rw [take_append_of_fits fits,List.cons_append]
  rw [List.tail_cons] at decrypted
  simp only [if_true,enabled,decrypted]
  simp [Input.feed,newDecoder]

/-- What a sender writes for a message, a receiver that can read it reads, whatever
    follows on the connection. -/
theorem readStream_rawSendMsgStream (written : rawSendMsgStream coders sender nonce (msgType :: body) label = .ok sent)
    (plain : msgType ≠ compressMsg) (plaintext : msgType ≠ encryptMsg) (bound : body.length < maxStreamMessageBytes)
    (readable : Readable coders sender receiver sent label) (rest : Bytes) :
    ∃ d, readStream coders receiver (sent ++ rest) label = .ok (msgType,Input.feed body d) := by
  obtain ⟨t,b,shrunk,smaller,wraps⟩ := shrink_wraps coders sender msgType body
  have envelope : ∃ d, readEnvelope coders receiver (sent ++ rest) label = .ok (t,Input.feed b d) := by
    unfold rawSendMsgStream at written
    unfold Readable at readable
    rw [shrunk] at written
    cases keyed : outgoingKey sender with
    | none =>
      rw [keyed] at written readable
      cases written
      have visible : t ≠ encryptMsg := by
        cases wraps with
        | plain => exact plaintext
        | compressed => decide
      exact readEnvelope_plain visible readable (by omega) rest
    | some key =>
      rw [keyed] at written readable
      simp only at written
      split_ifs at written with large
      exact ⟨_,readEnvelope_encrypted readable.1 (Except.ok.inj written) (Nat.not_lt.mp large) readable.2 rest⟩
  obtain ⟨d,read⟩ := envelope
  obtain ⟨d',unwrapped⟩ := unwraps wraps plain bound d
  refine ⟨d',?_⟩
  simp only [readStream,read]
  exact unwrapped

end

end Mori.Stream
