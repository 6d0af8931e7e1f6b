import Mori.Protocol
import Mathlib.Algebra.Order.Ring.Nat

/-!
Encryption (`security.go`). AES-GCM itself is a parameter, of which the protocol
uses that opening inverts sealing and that sealing adds a tag. The nonce of a
message is an argument, as it is drawn at random.
-/
namespace Mori.Security
open Mori.Net Mori.Protocol

def versionSize : Nat := 1
def nonceSize : Nat := 12
def tagSize : Nat := 16
def blockSize : Nat := 16
def maxEncryptionVersion : UInt8 := 1

/-- AES-GCM under any key; `none` where a message does not authenticate. -/
structure Gcm where
  sealWith : (key nonce plain data : Bytes) → Bytes
  openWith : (key nonce cipher data : Bytes) → Option Bytes
  open_seal (key nonce plain data : Bytes) : openWith key nonce (sealWith key nonce plain data) data = some plain
  length_seal (key nonce plain data : Bytes) : (sealWith key nonce plain data).length = plain.length + tagSize

/-- What is drawn for one message. -/
structure Nonce where
  draw : Bytes
  size : draw.length = nonceSize

/-- `EncryptionEnabled`: a keyring with a key. -/
def encryptionEnabled (conf : Config) : Bool := !(conf.keyring.getD []).isEmpty

/-- The version of a sender: 0 pads, for protocol 1. -/
def encryptionVersion (conf : Config) : UInt8 := if conf.protocolVersion = 1 then 0 else 1

theorem encryptionVersion_le (conf : Config) : encryptionVersion conf ≤ maxEncryptionVersion := by
  unfold encryptionVersion
  split_ifs <;> decide

/-- The key under which a sender encrypts, where it does. -/
def outgoingKey (conf : Config) : Option Bytes :=
  if conf.gossipVerifyOutgoing then (conf.keyring.getD []).head? else none

/-- How many bytes pad a message of a length to full blocks, at least one. -/
def padLength (n : Nat) : Nat := blockSize - n % blockSize

/-- A message padded for version 0. -/
def pkcs7encode (msg : Bytes) : Bytes :=
  msg ++ List.replicate (padLength msg.length) (UInt8.ofNat (padLength msg.length))

inductive SecurityError where
  | emptyPadding
  | padding (pad : Nat)
  | emptyPayload
  | version (vsn : UInt8)
  | tooSmall (n : Nat)
  | noKey
deriving DecidableEq,Repr

def pkcs7decode (buf : Bytes) : Except SecurityError Bytes :=
  match buf.getLast? with
  | none => .error .emptyPadding
  | some last =>
    if last.toNat < 1 ∨ blockSize < last.toNat ∨ buf.length < last.toNat then .error (.padding last.toNat)
    else .ok (buf.take (buf.length - last.toNat))

theorem padLength_bounds (n : Nat) : 1 ≤ padLength n ∧ padLength n ≤ blockSize := by
  unfold padLength blockSize
  omega

theorem pkcs7decode_encode (msg : Bytes) : pkcs7decode (pkcs7encode msg) = .ok msg := by
  obtain ⟨positive,most⟩ := padLength_bounds msg.length
  have value : (UInt8.ofNat (padLength msg.length)).toNat = padLength msg.length := by
    refine UInt8.toNat_ofNat_of_lt' (Nat.lt_of_le_of_lt most ?_)
    decide
  have last : (pkcs7encode msg).getLast? = some (UInt8.ofNat (padLength msg.length)) := by
    have nonempty : padLength msg.length ≠ 0 := by omega
    simp [pkcs7encode,List.getLast?_append,List.getLast?_replicate,nonempty]
  have fine : ¬ (padLength msg.length < 1 ∨ blockSize < padLength msg.length ∨
      msg.length + padLength msg.length < padLength msg.length) := by omega
  simp only [pkcs7decode,last,value]
  rw [pkcs7encode,List.length_append,List.length_replicate,if_neg fine,Nat.add_sub_cancel,List.take_left]

def encryptedLength (vsn : UInt8) (inp : Nat) : Nat :=
  if 1 ≤ vsn then versionSize + nonceSize + inp + tagSize
  else versionSize + nonceSize + inp + (blockSize - inp % blockSize) + tagSize

section
variable (gcm : Gcm)

/-- The version, the nonce and the ciphertext. -/
def sealPayload (vsn : UInt8) (key : Bytes) (nonce : Nonce) (msg data : Bytes) : Bytes :=
  vsn :: (nonce.draw ++ gcm.sealWith key nonce.draw (if vsn = 0 then pkcs7encode msg else msg) data)

/-- Opens a payload with the first key that authenticates it. -/
def openPayload (keys : List Bytes) (msg data : Bytes) : Except SecurityError Bytes :=
  match msg with
  | [] => .error .emptyPayload
  | vsn :: rest =>
    if maxEncryptionVersion < vsn then .error (.version vsn)
    else if rest.length + 1 < encryptedLength vsn 0 then .error (.tooSmall (rest.length + 1))
    else match keys.findSome? (fun key => gcm.openWith key (rest.take nonceSize) (rest.drop nonceSize) data) with
    | none => .error .noKey
    | some plain => if vsn = 0 then pkcs7decode plain else .ok plain

variable {gcm} {vsn : UInt8} {key : Bytes} {nonce : Nonce} {msg data : Bytes}

theorem one_le_of_ne_zero (new : vsn ≠ 0) : 1 ≤ vsn := by
  rw [UInt8.le_iff_toNat_le]
  have nonzero : vsn.toNat ≠ 0 := fun zero => new (UInt8.toNat_inj.mp zero)
  exact Nat.pos_of_ne_zero nonzero

theorem length_sealPayload (key : Bytes) (nonce : Nonce) (msg data : Bytes) (known : vsn ≤ maxEncryptionVersion) :
    (sealPayload gcm vsn key nonce msg data).length = encryptedLength vsn msg.length := by
  have size := nonce.size
  unfold sealPayload encryptedLength
  by_cases old : vsn = 0
  · subst old
    simp only [List.length_cons,List.length_append,gcm.length_seal,if_true,pkcs7encode,List.length_replicate,size,
      show ¬ (1 : UInt8) ≤ 0 by decide,if_false,padLength,versionSize]
    omega
  · have modern := one_le_of_ne_zero old
    simp only [List.length_cons,List.length_append,gcm.length_seal,if_neg old,if_pos modern,size,versionSize]
    omega

/-- No key that a receiver tries before the sender's authenticates the payload. -/
def Foreign (gcm : Gcm) (keys : List Bytes) (key payload data : Bytes) : Prop :=
  ∀ k ∈ keys.takeWhile (fun k => k ≠ key), gcm.openWith k ((payload.drop versionSize).take nonceSize)
    ((payload.drop versionSize).drop nonceSize) data = none

/-- Nothing is tried before the primary key. -/
theorem foreign_primary {keys : List Bytes} (primary : keys.head? = some key) (payload : Bytes) :
    Foreign gcm keys key payload data := by
  intro k listed
  cases keys with
  | nil => cases primary
  | cons head tail =>
    cases primary
    simp at listed

theorem findSome_of_first {f : Bytes → Option Bytes} {key plain : Bytes} {keys : List Bytes} (member : key ∈ keys)
    (found : f key = some plain) (earlier : ∀ k ∈ keys.takeWhile (fun k => k ≠ key), f k = none) :
    keys.findSome? f = some plain := by
  induction keys with
  | nil => cases member
  | cons head tail ih =>
    by_cases same : head = key
    · simp [same,found]
    · have first : (head :: tail).takeWhile (fun k => k ≠ key) = head :: tail.takeWhile (fun k => k ≠ key) := by
        simp [same]
      rw [first] at earlier
      have skipped := earlier head List.mem_cons_self
      have later : key ∈ tail := (List.mem_cons.mp member).resolve_left (Ne.symm same)
      rw [List.findSome?_cons,skipped]
      exact ih later (fun k listed => earlier k (List.mem_cons_of_mem head listed))

/-- A receiver that has the key opens what was sealed. -/
theorem openPayload_sealPayload {keys : List Bytes} (known : vsn ≤ maxEncryptionVersion) (member : key ∈ keys)
    (foreign : Foreign gcm keys key (sealPayload gcm vsn key nonce msg data) data) :
    openPayload gcm keys (sealPayload gcm vsn key nonce msg data) data = .ok msg := by
  have size := nonce.size
  have enough : encryptedLength vsn 0 ≤ encryptedLength vsn msg.length := by
    unfold encryptedLength blockSize
    split_ifs <;> omega
  have total : (sealPayload gcm vsn key nonce msg data).length = _ := length_sealPayload key nonce msg data known
  generalize plainEq : (if vsn = 0 then pkcs7encode msg else msg) = plain at total
  have shape : sealPayload gcm vsn key nonce msg data = vsn :: (nonce.draw ++ gcm.sealWith key nonce.draw plain data) := by
    rw [sealPayload,plainEq]
  rw [shape] at foreign total ⊢
  have nonceBack : (nonce.draw ++ gcm.sealWith key nonce.draw plain data).take nonceSize = nonce.draw := by
    rw [← size,List.take_left]
  have cipherBack : (nonce.draw ++ gcm.sealWith key nonce.draw plain data).drop nonceSize =
      gcm.sealWith key nonce.draw plain data := by
    rw [← size,List.drop_left]
  have opened : keys.findSome? (fun k => gcm.openWith k nonce.draw (gcm.sealWith key nonce.draw plain data) data) =
      some plain := by
    refine findSome_of_first member (gcm.open_seal ..) (fun k listed => ?_)
    have refused := foreign k listed
    simpa only [versionSize,List.drop_succ_cons,List.drop_zero,nonceBack,cipherBack] using refused
  have notShort : ¬ (nonce.draw ++ gcm.sealWith key nonce.draw plain data).length + 1 < encryptedLength vsn 0 := by
    rw [List.length_cons] at total
    omega
  simp only [openPayload,UInt8.not_lt.mpr known,notShort,nonceBack,cipherBack,opened,if_false]
  by_cases old : vsn = 0
  · rw [if_pos old] at plainEq
    rw [if_pos old,← plainEq,pkcs7decode_encode]
  · rw [if_neg old] at plainEq
    rw [if_neg old,← plainEq]

end

/-- A call of `sealPayload` by a holder of the key. -/
structure Sealing where
  vsn : UInt8
  known : vsn ≤ maxEncryptionVersion
  key : Bytes
  nonce : Nonce
  msg : Bytes
  data : Bytes

/-- What the cipher was given to seal. -/
def Sealing.plain (e : Sealing) : Bytes := if e.vsn = 0 then pkcs7encode e.msg else e.msg

def Sealing.cipher (gcm : Gcm) (e : Sealing) : Bytes := gcm.sealWith e.key e.nonce.draw e.plain e.data

/-- The payload of a sealing with any version in front, which is not sealed. -/
def Sealing.relabelled (gcm : Gcm) (e : Sealing) (vsn : UInt8) : Bytes := vsn :: (e.nonce.draw ++ e.cipher gcm)

/-- The nonce and the ciphertext of a payload. -/
def payloadNonce (payload : Bytes) : Bytes := (payload.drop versionSize).take nonceSize
def payloadCipher (payload : Bytes) : Bytes := (payload.drop versionSize).drop nonceSize

/-- The cipher is ideal on a payload: under a key of the ring it opens only with the
    nonce and the data of a sealing under that key that gave this ciphertext, and
    gives what was sealed. -/
def Unforged (gcm : Gcm) (log : Set Sealing) (keys : List Bytes) (payload data : Bytes) : Prop :=
  ∀ key ∈ keys, ∀ plain, gcm.openWith key (payloadNonce payload) (payloadCipher payload) data = some plain →
    ∃ e ∈ log, e.key = key ∧ e.nonce.draw = payloadNonce payload ∧ e.cipher gcm = payloadCipher payload ∧
      e.data = data ∧ e.plain = plain

/-- Whatever opens, under any ring, is a message that was sealed with the same data. -/
def Authentic (gcm : Gcm) (log : Set Sealing) : Prop :=
  ∀ keys payload data p, Unforged gcm log keys payload data → openPayload gcm keys payload data = .ok p →
    ∃ e ∈ log, e.key ∈ keys ∧ e.msg = p ∧ e.data = data

/-- What a message reads as under the other version, which is no part of the sealed
    data: with the padding of version 0 left on, or with as many bytes taken off as
    the last byte of a message of version 1 says. -/
inductive Misread : Sealing → Bytes → Prop
  | padded {e : Sealing} (old : e.vsn = 0) : Misread e (pkcs7encode e.msg)
  | cut {e : Sealing} {last : UInt8} (modern : e.vsn = 1) (block : blockSize ≤ e.msg.length)
      (ends : e.msg.getLast? = some last) (positive : 1 ≤ last.toNat) (most : last.toNat ≤ blockSize) :
      Misread e (e.msg.take (e.msg.length - last.toNat))

section
variable {gcm : Gcm} {log : Set Sealing} {keys : List Bytes} {payload data p : Bytes}

theorem version_cases {vsn : UInt8} (known : vsn ≤ maxEncryptionVersion) : vsn = 0 ∨ vsn = 1 := by
  rw [UInt8.le_iff_toNat_le] at known
  have most : vsn.toNat ≤ 1 := known
  rcases Nat.le_one_iff_eq_zero_or_eq_one.mp most with zero | one
  · exact .inl (UInt8.toNat_inj.mp zero)
  · exact .inr (UInt8.toNat_inj.mp one)

/-- What an opened payload consists of. -/
theorem openPayload_ok (opened : openPayload gcm keys payload data = .ok p) :
    ∃ vsn rest plain, payload = vsn :: rest ∧ vsn ≤ maxEncryptionVersion ∧ encryptedLength vsn 0 ≤ rest.length + 1 ∧
      (∃ key ∈ keys, gcm.openWith key (payloadNonce payload) (payloadCipher payload) data = some plain) ∧
      (if vsn = 0 then pkcs7decode plain else .ok plain) = .ok p := by
  cases payload with
  | nil => cases opened
  | cons vsn rest =>
    unfold openPayload at opened
    dsimp only at opened
    by_cases unknown : maxEncryptionVersion < vsn
    · rw [if_pos unknown] at opened
      cases opened
    by_cases short : rest.length + 1 < encryptedLength vsn 0
    · rw [if_neg unknown,if_pos short] at opened
      cases opened
    rw [if_neg unknown,if_neg short] at opened
    split at opened
    · cases opened
    · next plain found =>
      obtain ⟨key,member,opens⟩ := List.exists_of_findSome?_eq_some found
      exact ⟨vsn,rest,plain,rfl,UInt8.not_lt.mp unknown,Nat.not_lt.mp short,⟨key,member,opens⟩,opened⟩

theorem pkcs7decode_ok {buf : Bytes} (decoded : pkcs7decode buf = .ok p) :
    ∃ last, buf.getLast? = some last ∧ 1 ≤ last.toNat ∧ last.toNat ≤ blockSize ∧
      p = buf.take (buf.length - last.toNat) := by
  unfold pkcs7decode at decoded
  split at decoded
  · cases decoded
  · next last ends =>
    split_ifs at decoded with bad
    cases decoded
    exact ⟨last,ends,by omega,by omega,rfl⟩

theorem length_cipher (gcm : Gcm) (e : Sealing) : (e.cipher gcm).length = e.plain.length + tagSize :=
  gcm.length_seal ..

/-- What was sealed opens under any version that is in front of it, if it is long enough. -/
theorem openPayload_relabelled (e : Sealing) (vsn : UInt8) (known : vsn ≤ maxEncryptionVersion)
    (long : encryptedLength vsn 0 ≤ versionSize + nonceSize + e.plain.length + tagSize) :
    openPayload gcm [e.key] (e.relabelled gcm vsn) e.data =
      if vsn = 0 then pkcs7decode e.plain else .ok e.plain := by
  have opens : gcm.openWith e.key e.nonce.draw (e.cipher gcm) e.data = some e.plain := gcm.open_seal ..
  have nonceBack : (e.nonce.draw ++ e.cipher gcm).take nonceSize = e.nonce.draw := by
    rw [← e.nonce.size,List.take_left]
  have cipherBack : (e.nonce.draw ++ e.cipher gcm).drop nonceSize = e.cipher gcm := by
    rw [← e.nonce.size,List.drop_left]
  have enough : ¬ (e.nonce.draw ++ e.cipher gcm).length + 1 < encryptedLength vsn 0 := by
    rw [List.length_append,length_cipher,e.nonce.size]
    unfold versionSize at long
    omega
  simp only [openPayload,Sealing.relabelled,nonceBack,cipherBack,opens,List.findSome?_cons]
  rw [if_neg (UInt8.not_lt.mpr known),if_neg enough]

/-- Under the other version what was sealed opens to its misreading. -/
theorem openPayload_misread {e : Sealing} (misread : Misread e p) :
    ∃ vsn, openPayload gcm [e.key] (e.relabelled gcm vsn) e.data = .ok p := by
  cases misread with
  | padded old =>
    have plain : e.plain = pkcs7encode e.msg := by rw [Sealing.plain,if_pos old]
    have long : encryptedLength 1 0 ≤ versionSize + nonceSize + e.plain.length + tagSize := by
      rw [show encryptedLength 1 0 = versionSize + nonceSize + tagSize from rfl]
      omega
    refine ⟨1,?_⟩
    rw [openPayload_relabelled e 1 (by decide) long,plain]
    rfl
  | cut modern block ends positive most =>
    have plain : e.plain = e.msg := by rw [Sealing.plain,modern,if_neg (by decide)]
    have long : encryptedLength 0 0 ≤ versionSize + nonceSize + e.plain.length + tagSize := by
      rw [show encryptedLength 0 0 = versionSize + nonceSize + blockSize + tagSize from rfl,plain]
      omega
    refine ⟨0,?_⟩
    rw [openPayload_relabelled e 0 (by decide) long,plain,if_pos rfl,pkcs7decode,ends]
    exact if_neg (by omega)

/-- The payload of a sealing, under whatever version, is not forged. -/
theorem unforged_relabelled (gcm : Gcm) {e : Sealing} (member : e ∈ log) (vsn : UInt8) :
    Unforged gcm log [e.key] (e.relabelled gcm vsn) e.data := by
  have nonceBack : payloadNonce (e.relabelled gcm vsn) = e.nonce.draw := by
    rw [payloadNonce,Sealing.relabelled,versionSize,List.drop_one,List.tail_cons,← e.nonce.size,List.take_left]
  have cipherBack : payloadCipher (e.relabelled gcm vsn) = e.cipher gcm := by
    rw [payloadCipher,Sealing.relabelled,versionSize,List.drop_one,List.tail_cons,← e.nonce.size,List.drop_left]
  have opens : gcm.openWith e.key e.nonce.draw (e.cipher gcm) e.data = some e.plain := gcm.open_seal ..
  intro key own plain opened
  rw [List.mem_singleton.mp own,nonceBack,cipherBack,opens] at opened
  cases opened
  exact ⟨e,member,(List.mem_singleton.mp own).symm,nonceBack.symm,cipherBack.symm,rfl,rfl⟩

/-- What opens is what was sealed or, under the other version, its misreading. -/
theorem message_or_misread {e : Sealing} {vsn : UInt8} {rest : Bytes}
    (long : encryptedLength vsn 0 ≤ rest.length + 1) (cipher : e.cipher gcm = payloadCipher (vsn :: rest))
    (read : (if vsn = 0 then pkcs7decode e.plain else .ok e.plain) = .ok p) : e.msg = p ∨ Misread e p := by
  rcases version_cases e.known with old | modern
  · have plain : e.plain = pkcs7encode e.msg := by rw [Sealing.plain,if_pos old]
    rw [plain,pkcs7decode_encode] at read
    split_ifs at read
    · cases read
      exact .inl rfl
    · cases read
      exact .inr (.padded old)
  · have plain : e.plain = e.msg := by rw [Sealing.plain,modern,if_neg (by decide)]
    rw [plain] at read
    split_ifs at read with zero
    · obtain ⟨last,ends,positive,most,rfl⟩ := pkcs7decode_ok read
      have block : blockSize ≤ e.msg.length := by
        have length := length_cipher gcm e
        rw [cipher,plain,payloadCipher,versionSize,List.drop_one,List.tail_cons,List.length_drop] at length
        rw [zero,show encryptedLength 0 0 = versionSize + nonceSize + blockSize + tagSize from rfl,versionSize] at long
        omega
      exact .inr (.cut modern block ends positive most)
    · cases read
      exact .inl rfl

/-- What is opened is authentic exactly where every misreading of what was sealed
    was sealed itself. -/
theorem openPayload_authentic_iff (gcm : Gcm) (log : Set Sealing) :
    Authentic gcm log ↔ ∀ e ∈ log, ∀ p, Misread e p → ∃ e' ∈ log, e'.key = e.key ∧ e'.msg = p ∧ e'.data = e.data := by
  constructor
  · intro authentic e member p misread
    obtain ⟨vsn,opened⟩ := openPayload_misread misread
    obtain ⟨e',member',ring,message,data⟩ := authentic [e.key] _ e.data p (unforged_relabelled gcm member vsn) opened
    exact ⟨e',member',List.mem_singleton.mp ring,message,data⟩
  · intro closed keys payload data p unforged opened
    obtain ⟨vsn,rest,plain,rfl,-,long,⟨key,ring,opens⟩,read⟩ := openPayload_ok opened
    obtain ⟨e,member,rfl,-,cipher,rfl,rfl⟩ := unforged key ring plain opens
    rcases message_or_misread long cipher read with rfl | misread
    · exact ⟨e,member,ring,rfl,rfl⟩
    · obtain ⟨e',member',sameKey,message,data⟩ := closed e member p misread
      exact ⟨e',member',sameKey ▸ ring,message,data⟩

end

/-- A tag that depends on all that is sealed. -/
def sumTag (key nonce plain data : Bytes) : Bytes :=
  List.replicate tagSize ((key ++ nonce ++ plain ++ data).foldl (fun sum b => sum + b) 0)

def openSum (key nonce cipher data : Bytes) : Option Bytes :=
  let plain := cipher.take (cipher.length - tagSize)
  if cipher.drop (cipher.length - tagSize) = sumTag key nonce plain data then some plain else none

theorem openSum_seal (key nonce plain data : Bytes) :
    openSum key nonce (plain ++ sumTag key nonce plain data) data = some plain := by
  simp [openSum,sumTag]

theorem length_sumTag (key nonce plain data : Bytes) :
    (plain ++ sumTag key nonce plain data).length = plain.length + tagSize := by
  simp [sumTag]

/-- A cipher that adds such a tag and checks it. -/
def summing : Gcm where
  sealWith key nonce plain data := plain ++ sumTag key nonce plain data
  openWith := openSum
  open_seal := openSum_seal
  length_seal := length_sumTag

theorem length_zeros : (List.replicate nonceSize (0 : UInt8)).length = nonceSize := List.length_replicate

/-- A sealing of a user message under a version, with a key and a nonce of zeros. -/
def sampleSealing (vsn : UInt8) (known : vsn ≤ maxEncryptionVersion) (text : Bytes) : Sealing :=
  ⟨vsn,known,List.replicate 16 0,⟨List.replicate nonceSize 0,length_zeros⟩,8 :: text,[]⟩

/-- A text of 16 bytes that ends in 2. -/
def sampleText : Bytes := List.replicate 15 65 ++ [2]

/-- With the version byte changed on the way, a message loses its end or gets padding. -/
theorem openPayload_misreads :
    (openPayload summing [List.replicate 16 0] ((sampleSealing 1 (by decide) sampleText).relabelled summing 0) [] =
        .ok (8 :: List.replicate 14 65) ∧ ¬ Authentic summing {sampleSealing 1 (by decide) sampleText}) ∧
      openPayload summing [List.replicate 16 0] ((sampleSealing 0 (by decide) sampleText).relabelled summing 1) [] =
        .ok (pkcs7encode (8 :: sampleText)) ∧ ¬ Authentic summing {sampleSealing 0 (by decide) sampleText} := by
  have cut : openPayload summing [List.replicate 16 0] ((sampleSealing 1 (by decide) sampleText).relabelled summing 0) [] =
      .ok (8 :: List.replicate 14 65) :=
    openPayload_relabelled (sampleSealing 1 (by decide) sampleText) 0 (by decide) (by decide)
  have padded : openPayload summing [List.replicate 16 0] ((sampleSealing 0 (by decide) sampleText).relabelled summing 1) [] =
      .ok (pkcs7encode (8 :: sampleText)) :=
    openPayload_relabelled (sampleSealing 0 (by decide) sampleText) 1 (by decide) (by decide)
  refine ⟨⟨cut,fun authentic => ?_⟩,padded,fun authentic => ?_⟩
  · have unforged := unforged_relabelled summing (e := sampleSealing 1 (by decide) sampleText) (Set.mem_singleton _) 0
    obtain ⟨e,rfl,-,message,-⟩ := authentic _ _ _ _ unforged cut
    exact absurd message (by decide)
  · have unforged := unforged_relabelled summing (e := sampleSealing 0 (by decide) sampleText) (Set.mem_singleton _) 1
    obtain ⟨e,rfl,-,message,-⟩ := authentic _ _ _ _ unforged padded
    exact absurd message (by decide)

end Mori.Security
