import Mori.Gossip
import Mori.Packet

/-!
The cap on the local metadata (`memberlist.go`). At construction an alive message of
the largest size is encoded and compared with what a packet has room for. The size of
an encoded message grows with each of its fields, across the formats of the codec,
and what is reserved is what gossip reserves, so every alive message about the local
node is gossiped when it is first in the queue.
-/
namespace Mori.MetaSize
open Mori.Net Mori.Readers Mori.Msgpack Mori.Wire Mori.Protocol Mori.Security Mori.Stream Mori.Compound Mori.Packet Mori.Gossip
open Mori.Queue (TransmitLimitedQueue)
open Mori.QueueLinks (WF linked)
open Mori.QueueRefinement (Reached entries entryOf wf_reached getBroadcasts_spec)
open Mori.PlainQueue (Entry pick pickFrom pick_fits)
open Mori.State (Memberlist Node)

inductive MetaSizeError where
  | exceeds (limit budget : Int)
  | doesNotFit (limit : Int) (msgSize : Nat) (budget : Int)
deriving DecidableEq,Repr

/-- What a packet has room for, of at most 65535 bytes. -/
def metaBudget (settings : Settings) (conf : Config) : Int :=
  min settings.packetBufferSize 65535 - (compoundHeaderOverhead + compoundOverhead + crcOverhead) - labelOverhead conf.label -
    (if encryptionEnabled conf = true then encryptOverhead (encryptionVersion conf) else 0)

/-- The alive message of the largest size. -/
def fullSizeAlive (conf : Config) (limit : Int) : Alive where
  incarnation := 0xffffffff
  node := conf.name
  addr := some (List.replicate 16 0)
  port := 0xffff
  metadata := some (List.replicate limit.toNat 0)
  vsn := conf.buildVsnArray

/-- What the check returns, and the lengths of the metadata that it makes. -/
structure Validation where
  result : Except MetaSizeError Unit
  made : List Nat := []

def validateMetaMaxSize (settings : Settings) (conf : Config) : Validation :=
  let limit := conf.metaLimit
  if settings.packetBufferSize ≤ 0 then { result := .ok () }
  else
    let budget := metaBudget settings conf
    if budget < limit then { result := .error (.exceeds limit budget) }
    else
      let msgSize := (encode (.alive (fullSizeAlive conf limit))).length
      if budget < msgSize then { result := .error (.doesNotFit limit msgSize budget), made := [limit.toNat] }
      else { result := .ok (), made := [limit.toNat] }

theorem length_appendUint_mono {v w : Nat} (le : v ≤ w) : (appendUint v).length ≤ (appendUint w).length := by
  unfold appendUint
  split_ifs <;> simp only [List.length_cons,List.length_nil,length_bigEndian] <;> omega

/-- The length of a string of the wire. -/
def rawLength (n : Nat) : Nat := (appendRawHeader n).length + n

theorem rawLength_mono {n k : Nat} (le : n ≤ k) : rawLength n ≤ rawLength k := by
  unfold rawLength appendRawHeader
  split_ifs <;> simp only [List.length_cons,List.length_nil,length_bigEndian] <;> omega

theorem length_appendString (s : Bytes) : (appendString s).length = rawLength s.length := by
  rw [appendString,List.length_append]
  rfl

theorem length_appendBytes_some (p : Bytes) : (appendBytes (some p)).length = rawLength p.length := by
  rw [appendBytes,List.length_append]
  rfl

theorem length_appendBytes_le {s : Slice} {n : Nat} (le : (bytes s).length ≤ n) : (appendBytes s).length ≤ rawLength n := by
  cases s with
  | none =>
    have header := length_appendRawHeader_pos n
    unfold rawLength
    exact Nat.le_add_right_of_le header
  | some p =>
    rw [length_appendBytes_some]
    exact rawLength_mono le

/-- The size of an alive message grows with each field. -/
theorem length_appendAlive_le {a : Alive} {incarnation : UInt32} {node addr metadata vsn : Bytes} {port : UInt16}
    (hi : a.incarnation.toNat ≤ incarnation.toNat) (hn : a.node.length ≤ node.length)
    (ha : (bytes a.addr).length ≤ addr.length) (hp : a.port.toNat ≤ port.toNat)
    (hm : (bytes a.metadata).length ≤ metadata.length) (hv : (bytes a.vsn).length ≤ vsn.length) :
    (appendAlive a).length ≤ (appendAlive ⟨incarnation,node,some addr,port,some metadata,some vsn⟩).length := by
  have inc := length_appendUint_mono hi
  have portLength := length_appendUint_mono hp
  have name := rawLength_mono hn
  have address := length_appendBytes_le ha
  have metaLength := length_appendBytes_le hm
  have version := length_appendBytes_le hv
  simp only [appendAlive,appendMap,appendB,appendU,appendS,List.length_append,List.flatten_cons,List.flatten_nil,List.length_nil,
    length_appendString,length_appendBytes_some,List.length_cons] at *
  omega

/-- An alive message about the local node. -/
structure Announces (conf : Config) (a : Alive) : Prop where
  node : a.node = conf.name
  addr : (bytes a.addr).length ≤ 16
  metadata : ((bytes a.metadata).length : Int) ≤ conf.metaLimit
  vsn : (bytes a.vsn).length = 6

/-- Some messages that gossip got from the queue, or from the queue and the delegate:
    the alive message is the first of them, and what is written for them fits. -/
structure Carried (coders : Coders) (settings : Settings) (m : Memberlist) (a : Alive) (msgs : List Bytes) : Prop where
  head : msgs.head? = some (encode (.alive a))
  fits : ∀ node nonces wire, .ok wire ∈ gossipTo coders settings m node nonces msgs →
    (wire.length : Int) ≤ settings.packetBufferSize

section
variable {coders : Coders} {settings : Settings} {conf : Config} {m : Memberlist} {a : Alive} {q : TransmitLimitedQueue}

theorem length_encode_le (announces : Announces conf a) :
    (encode (.alive a)).length ≤ (encode (.alive (fullSizeAlive conf conf.metaLimit))).length := by
  have metadata := announces.metadata
  refine Nat.succ_le_succ (length_appendAlive_le ?_ ?_ ?_ ?_ ?_ ?_)
  · exact Nat.le_of_lt_succ a.incarnation.toNat_lt
  · rw [announces.node]
  · rw [List.length_replicate]
    exact announces.addr
  · exact Nat.le_of_lt_succ a.port.toNat_lt
  · rw [List.length_replicate]
    omega
  · exact Nat.le_of_eq announces.vsn

/-- What the check lets through fits. -/
theorem full_le_budget (positive : 0 < settings.packetBufferSize)
    (valid : (validateMetaMaxSize settings conf).result = .ok ()) :
    ((encode (.alive (fullSizeAlive conf conf.metaLimit))).length : Int) ≤ metaBudget settings conf := by
  unfold validateMetaMaxSize at valid
  simp only [if_neg (Int.not_le.mpr positive)] at valid
  split_ifs at valid with exceeds large
  exact Int.not_lt.mp large

theorem made_le_budget {n : Nat} (member : n ∈ (validateMetaMaxSize settings conf).made) :
    (n : Int) ≤ metaBudget settings conf := by
  have nonneg : 0 ≤ conf.metaLimit := by
    unfold Config.metaLimit
    split_ifs <;> omega
  unfold validateMetaMaxSize at member
  simp only at member
  split_ifs at member with unset exceeds large
  · cases member
  · cases member
  · rw [List.mem_singleton.mp member,Int.toNat_of_nonneg nonneg]
    exact Int.not_lt.mp exceeds
  · rw [List.mem_singleton.mp member,Int.toNat_of_nonneg nonneg]
    exact Int.not_lt.mp exceeds

theorem labelOverhead_nonneg (label : Bytes) : 0 ≤ labelOverhead label := by
  unfold labelOverhead
  split_ifs <;> omega

/-- The budget of the check is within what gossip has room for, and within a part of a
    compound message. -/
theorem metaBudget_le (settings : Settings) (conf : Config) :
    metaBudget settings conf ≤ 65535 ∧ metaBudget settings conf + compoundOverhead ≤ gossipBytesAvail settings conf := by
  have label := labelOverhead_nonneg conf.label
  have sealing : 0 ≤ if encryptionEnabled conf = true then encryptOverhead (encryptionVersion conf) else 0 := by
    unfold encryptOverhead
    split_ifs <;> omega
  have least := min_le_left settings.packetBufferSize 65535
  have most := min_le_right settings.packetBufferSize 65535
  simp only [metaBudget,gossipBytesAvail,compoundHeaderOverhead,compoundOverhead,crcOverhead]
  omega

/-- The first entry is picked if it fits. -/
theorem pick_first {overhead limit : Int} {e : Entry} {es : List Entry} (room : overhead < limit)
    (fits : e.len ≤ limit - overhead) : (pick overhead limit (e :: es)).1.head? = some e := by
  have room : ¬ limit - 0 - overhead ≤ 0 := by omega
  have found : (e :: es).find? (fun e => 0 ≤ e.transmits && e.len ≤ limit - 0 - overhead) = some e :=
    List.find?_cons_of_pos (by simpa using fits)
  simp only [pick,List.length_cons,pickFrom,if_neg room,found,List.head?_cons]

theorem head_map_append {α β : Type} {l : List α} {x : α} (head : l.head? = some x) (f : α → β) (more : List β) :
    (l.map f ++ more).head? = some (f x) := by
  cases l with
  | nil => cases head
  | cons y l =>
    cases head
    rfl

/-- What gossip takes of a queue in which the message is the first. -/
theorem carried_first (reached : Reached q) {r : Queue.Ref} {rest : List Queue.Ref} (starts : linked q = r :: rest)
    (message : (q.heap r).b.message = encode (.alive a))
    (room : ((encode (.alive a)).length : Int) + compoundOverhead ≤ gossipBytesAvail settings m.config) :
    (∀ transmitLimit draws, ∃ q' msgs, Queue.getBroadcasts q compoundOverhead (gossipBytesAvail settings m.config) transmitLimit
        draws = some (q',msgs) ∧ Carried coders settings m a msgs) ∧
      ∀ turn : Turn, turn.Fair → ∃ q' msgs, Packet.getBroadcasts m.config q turn compoundOverhead
        (gossipBytesAvail settings m.config) = some (q',msgs) ∧ Carried coders settings m a msgs := by
  have wf := wf_reached reached
  have positive : (0 : Int) < (encode (.alive a)).length := Int.natCast_pos.mpr (Nat.succ_pos _)
  have picked : (pick compoundOverhead (gossipBytesAvail settings m.config) (entries q)).1.head? = some (entryOf q.heap r) := by
    rw [entries,starts,List.map_cons]
    refine pick_first (by omega) ?_
    have len : (entryOf q.heap r).len = (encode (.alive a)).length := congrArg (fun b : Bytes => (b.length : Int)) message
    omega
  refine ⟨fun transmitLimit draws => ?_,fun turn fair => ?_⟩
  · obtain ⟨q',done,-⟩ := getBroadcasts_spec wf compoundOverhead (gossipBytesAvail settings m.config) transmitLimit draws
    refine ⟨q',_,done,?_,fun node nonces wire written => gossipTo_within node nonces ?_ written⟩
    · have head := head_map_append picked (fun e : Entry => e.b.message) []
      rw [List.append_nil] at head
      exact head.trans (congrArg some message)
    · refine (charge_queued ..).trans_le (pick_fits _ _ _ ?_)
      exact List.ne_nil_of_mem (List.mem_of_mem_head? picked)
  · obtain ⟨q',done,-⟩ := getBroadcasts_extras wf m.config turn compoundOverhead (gossipBytesAvail settings m.config)
    have head := head_map_append picked (fun e : Entry => e.b.message) (userMessages m.config turn compoundOverhead
      (gossipBytesAvail settings m.config - charge compoundOverhead ((pick compoundOverhead
        (gossipBytesAvail settings m.config) (entries q)).1.map (fun e => e.b.message))))
    refine ⟨q',_,done,head.trans (congrArg some message),fun node nonces wire written => ?_⟩
    exact gossipTo_fits fair node nonces rfl (List.ne_nil_of_mem (List.mem_of_mem_head? head)) written

end

/-- The check of the metadata cap is sound: it makes no metadata beyond the budget, and
    where it passes, every alive message about the local node is at most 65535 bytes and
    fits into what gossip has room for. So gossip takes it when it is first in the queue,
    and what it writes is within the packet budget, also with what a delegate adds that
    keeps to its contract. -/
theorem metaMaxSize_sound (coders : Coders) (settings : Settings) (m : Memberlist) :
    (∀ n ∈ (validateMetaMaxSize settings m.config).made, (n : Int) ≤ metaBudget settings m.config) ∧
    (0 < settings.packetBufferSize → (validateMetaMaxSize settings m.config).result = .ok () →
      ∀ a, Announces m.config a →
        (encode (.alive a)).length ≤ 65535 ∧
        ((encode (.alive a)).length : Int) + compoundOverhead ≤ gossipBytesAvail settings m.config ∧
        ∀ q r rest, Reached q → linked q = r :: rest → (q.heap r).b.message = encode (.alive a) →
          (∀ transmitLimit draws, ∃ q' msgs, Queue.getBroadcasts q compoundOverhead (gossipBytesAvail settings m.config)
              transmitLimit draws = some (q',msgs) ∧ Carried coders settings m a msgs) ∧
            ∀ turn : Turn, turn.Fair → ∃ q' msgs, Packet.getBroadcasts m.config q turn compoundOverhead
              (gossipBytesAvail settings m.config) = some (q',msgs) ∧ Carried coders settings m a msgs) := by
  refine ⟨fun n => made_le_budget,fun positive valid a announces => ?_⟩
  have small := length_encode_le announces
  have full := full_le_budget positive valid
  obtain ⟨part,room⟩ := metaBudget_le settings m.config
  have fits : ((encode (.alive a)).length : Int) + compoundOverhead ≤ gossipBytesAvail settings m.config := by omega
  exact ⟨by omega,fits,fun q r rest reached starts message => carried_first reached starts message fits⟩

/-- A node whose metadata is at most one byte. -/
def modest : Memberlist := State.buildMemberlist { name := [97], metaMaxSize := 1 }

def modestAlive : Alive := ⟨7,[97],some [10,0,0,1],7946,some [1],some [1,5,2,0,0,0]⟩

/-- A queue that holds this message. -/
def announcing : TransmitLimitedQueue :=
  (Queue.queueBroadcast {} ⟨0,.named [97],encode (.alive modestAlive)⟩ (fun _ => false) 0).getD {}

theorem reached_announcing : Reached announcing :=
  ⟨[(.queueBroadcast ⟨0,.named [97],encode (.alive modestAlive)⟩ (fun _ => false),fun _ => 0)],[[]],
    by simp [QueueRefinement.Proper],rfl⟩

theorem metaMaxSize_sound_modest :
    (validateMetaMaxSize {} modest.config).result = .ok () ∧ Announces modest.config modestAlive ∧
      ((encode (.alive modestAlive)).length : Int) + compoundOverhead ≤ gossipBytesAvail {} modest.config ∧
      ∀ transmitLimit draws, ∃ q' msgs, Queue.getBroadcasts announcing compoundOverhead (gossipBytesAvail {} modest.config)
        transmitLimit draws = some (q',msgs) ∧
          Carried ⟨PushPull.storing,PushPull.tagging⟩ {} modest modestAlive msgs := by
  have announces : Announces modest.config modestAlive := ⟨rfl,by decide,by decide,rfl⟩
  have valid : (validateMetaMaxSize {} modest.config).result = .ok () := rfl
  obtain ⟨-,fits,queued⟩ := (metaMaxSize_sound ⟨PushPull.storing,PushPull.tagging⟩ {} modest).2 (by decide) valid modestAlive
    announces
  exact ⟨valid,announces,fits,(queued announcing 0 [] reached_announcing rfl rfl).1⟩

end Mori.MetaSize
