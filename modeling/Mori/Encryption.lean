import Mori.Packet
import Mori.Keyrings

/-!
What is sealed is opened. Under both versions, with a key anywhere in the ring of the
receiver, `openPayload` gives back what `sealPayload` was given, and `decryptRemoteState`
what `encryptLocalState` was given. The lengths of what is sealed are those that the
sender computes before it seals, one of which it authenticates.
-/
namespace Mori.Encryption
open Mori.Net Mori.Readers Mori.Protocol Mori.Security Mori.Stream Mori.Packet Mori.Keyrings

/-- The cipher tells the keys of a ring apart: what is sealed with one of them does not
    open with another. Of all keys at once no cipher can do that, as there are more keys
    than tags. -/
def Apart (gcm : Gcm) (keys : List Bytes) : Prop :=
  ∀ key ∈ keys, ∀ other ∈ keys, other ≠ key → ∀ nonce plain data,
    gcm.openWith other nonce (gcm.sealWith key nonce plain data) data = none

section
variable {gcm : Gcm} {keys : List Bytes} {key : Bytes}

theorem refused_of_apart (apart : Apart gcm keys) (member : key ∈ keys) (vsn : UInt8) (nonce : Nonce) (msg data : Bytes) :
    Refused gcm keys key (sealPayload gcm vsn key nonce msg data) data := by
  intro other listed different
  have nonceBack : payloadNonce (sealPayload gcm vsn key nonce msg data) = nonce.draw := by
    rw [payloadNonce,sealPayload,versionSize,List.drop_one,List.tail_cons,← nonce.size,List.take_left]
  have cipherBack : payloadCipher (sealPayload gcm vsn key nonce msg data) =
      gcm.sealWith key nonce.draw (if vsn = 0 then pkcs7encode msg else msg) data := by
    rw [payloadCipher,sealPayload,versionSize,List.drop_one,List.tail_cons,← nonce.size,List.drop_left]
  rw [nonceBack,cipherBack]
  exact apart key member other listed different nonce.draw _ data

end

/-- With a key of the ring, any message under either version comes back from its sealed
    form, which has the computed length, within the overhead of the version. On a stream
    the length field says how many bytes follow, and the message comes back unless these
    are too many. -/
theorem encryption_round_trips (coders : Coders) (ring : Keyring) (apart : Apart coders.gcm ring.getAEADs) {key : Bytes}
    (member : key ∈ ring.keys) (nonce : Nonce) (msg : Bytes) :
    (∀ vsn data, vsn ≤ maxEncryptionVersion →
      openPayload coders.gcm ring.getAEADs (sealPayload coders.gcm vsn key nonce msg data) data = .ok msg ∧
      (sealPayload coders.gcm vsn key nonce msg data).length = encryptedLength vsn msg.length ∧
      (encryptedLength vsn msg.length : Int) ≤ msg.length + encryptOverhead vsn) ∧
    ∀ (sender receiver : Config) (label : Bytes), receiver.keyring = some ring.getAEADs →
      encryptedLength (encryptionVersion sender) msg.length ≤ maxPushStateBytes →
      decryptRemoteState coders receiver (encryptLocalState coders sender key nonce msg label).tail label = .ok msg ∧
      ∃ field payload, encryptLocalState coders sender key nonce msg label = encryptMsg :: (field ++ payload) ∧
        field.length = 4 ∧ ofBigEndian field = payload.length := by
  have listed : key ∈ ring.getAEADs := (getAEADs_eq ring).symm ▸ member
  have foreign : ∀ vsn data, Foreign coders.gcm ring.getAEADs key (sealPayload coders.gcm vsn key nonce msg data) data :=
    fun vsn data => foreign_of_refused (refused_of_apart apart listed vsn nonce msg data)
  refine ⟨fun vsn data known => ?_,fun sender receiver label held bound => ⟨?_,?_⟩⟩
  · exact ⟨openPayload_sealPayload known listed (foreign vsn data),length_sealPayload key nonce msg data known,
      encryptedLength_le known msg.length⟩
  · have keys : receiver.keyring.getD [] = ring.getAEADs := by rw [held,Option.getD_some]
    have header : ∀ n, (encryptHeader n).length = 5 := fun n => by simp [encryptHeader]
    have alone : Foreign coders.gcm (receiver.keyring.getD []) key
        ((encryptLocalState coders sender key nonce msg label).drop 5)
        ((encryptLocalState coders sender key nonce msg label).take 5 ++ label) := by
      rw [keys,encryptLocalState,List.drop_left' (header _),List.take_left' (header _)]
      exact foreign _ _
    have back := decryptRemoteState_encrypted (keys ▸ listed) rfl bound alone []
    rwa [List.append_nil] at back
  · obtain ⟨payload,shape,size⟩ := length_encryptLocalState coders sender key nonce msg label
    have small : payload.length < 256 ^ 4 := Nat.lt_of_le_of_lt (size ▸ bound) (by decide)
    exact ⟨_,payload,shape,length_bigEndian 4 _,ofBigEndian_of_lt small⟩

/-- The sum that `sumTag` repeats. -/
def byteSum (b : Bytes) : UInt8 := b.foldl (fun sum c => sum + c) 0

theorem byteSum_append (a b : Bytes) : byteSum (a ++ b) = byteSum a + byteSum b := by
  have shifted : ∀ (b : Bytes) (start : UInt8), b.foldl (fun sum c => sum + c) start = start + byteSum b := by
    intro b
    induction b with
    | nil => exact fun start => (UInt8.add_zero start).symm
    | cons c b ih =>
      intro start
      rw [byteSum,List.foldl_cons,List.foldl_cons,ih (start + c),ih (0 + c),UInt8.zero_add,UInt8.add_assoc]
  rw [byteSum,List.foldl_append]
  exact shifted b (byteSum a)

/-- A cipher that sums up what it is given tells keys of different sums apart. -/
theorem apart_summing {keys : List Bytes}
    (sums : ∀ key ∈ keys, ∀ other ∈ keys, other ≠ key → byteSum other ≠ byteSum key) : Apart summing keys := by
  intro key member other listed different nonce plain data
  have plainBack : (plain ++ sumTag key nonce plain data).take ((plain ++ sumTag key nonce plain data).length - tagSize) =
      plain := by
    rw [length_sumTag,Nat.add_sub_cancel,List.take_left]
  have tagBack : (plain ++ sumTag key nonce plain data).drop ((plain ++ sumTag key nonce plain data).length - tagSize) =
      sumTag key nonce plain data := by
    rw [length_sumTag,Nat.add_sub_cancel,List.drop_left]
  show openSum other nonce (plain ++ sumTag key nonce plain data) data = none
  rw [openSum,plainBack,tagBack]
  refine if_neg (fun same => sums key member other listed different ?_)
  have tags : byteSum (key ++ nonce ++ plain ++ data) = byteSum (other ++ nonce ++ plain ++ data) :=
    List.replicate_right_injective (by decide) same
  simp only [byteSum_append] at tags
  exact ((UInt8.add_left_inj _).mp ((UInt8.add_left_inj _).mp ((UInt8.add_left_inj _).mp tags))).symm

theorem valid_both : ∀ key ∈ [oldKey,newKey], Valid key := by decide

theorem valid_old : Valid oldKey := by decide

theorem nodup_both : [oldKey,newKey].Nodup := by decide

/-- The ring of a node that has both keys, in the order in which it got them. -/
def bothRing : Keyring := installKeysLocked [oldKey,newKey] oldKey valid_both valid_old nodup_both

/-- An empty message of version 0 under the second key of a ring. -/
theorem encryption_round_trips_second :
    bothRing.keys = [oldKey,newKey] ∧
      openPayload summing bothRing.getAEADs (sealPayload summing 0 newKey PushPull.zeroNonce [] [7]) [7] = .ok [] ∧
      (sealPayload summing 0 newKey PushPull.zeroNonce [] [7]).length = 45 ∧
      decryptRemoteState ⟨PushPull.storing,summing⟩ { name := [97], keyring := some [oldKey,newKey] }
        (encryptLocalState ⟨PushPull.storing,summing⟩ { name := [98] } newKey PushPull.zeroNonce [6,1] [65]).tail [65] =
          .ok [6,1] := by
  have apart : Apart summing bothRing.getAEADs := apart_summing (by decide)
  have trips := fun msg => encryption_round_trips ⟨PushPull.storing,summing⟩ bothRing apart
    (show newKey ∈ bothRing.keys by decide) PushPull.zeroNonce msg
  refine ⟨rfl,((trips []).1 0 [7] (by decide)).1,((trips []).1 0 [7] (by decide)).2.1,?_⟩
  exact ((trips [6,1]).2 { name := [98] } { name := [97], keyring := some [oldKey,newKey] } [65] rfl (by decide)).1

end Mori.Encryption
