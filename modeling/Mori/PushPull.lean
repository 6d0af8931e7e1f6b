import Mori.Stream
import Mori.Cluster

/-!
Push/pull (`net.go`): the message in which a node sends its table and its user
state, and how a peer reads it. The limits of both sides agree: whatever is sent is
read, entry by entry as it was.
-/
namespace Mori.PushPull
open Mori.Net Mori.Readers Mori.Msgpack Mori.Protocol Mori.Wire Mori.Security Mori.Stream Mori.State
open Mori.Cluster (pushState)
set_option linter.unusedSimpArgs false

/-- The user state, given what the delegate answers. -/
def localUserState (m : Memberlist) (answer : Slice) : Bytes := if m.config.delegate then bytes answer else []

/-- The header, the states and the user state. -/
def pushPullBody (localNodes : List PushNodeState) (userData : Bytes) (join : Bool) : Bytes :=
  appendPushPullHeader ⟨localNodes.length,userData.length,join⟩ ++
    ((localNodes.map appendPushNodeState).flatten ++ userData)

/-- What `sendLocalState` writes. -/
def sendLocalState (coders : Coders) (m : Memberlist) (join : Bool) (answer : Slice) (nonce : Nonce)
    (streamLabel : Bytes) : Except MessageTooLarge Bytes :=
  let localNodes := m.nodes.map (fun r => pushState (m.heap r))
  let userData := localUserState m answer
  let out := pushPullMsg :: pushPullBody localNodes userData join
  if maxPushStateBytes < userData.length then .error (.userState userData.length)
  else if maxStreamMessageBytes < out.length then .error (.pushPull out.length)
  else rawSendMsgStream coders m.config nonce out streamLabel

/-- A reader of a stream message. -/
abbrev StreamReader (α : Type) := Reader Decoder StreamError α

/-- The loop over the states, from the state `i` on. -/
def readStates : Nat → Nat → StreamReader (List PushNodeState)
  | 0,_ => return []
  | n + 1,i => do
    let s ← wrapError .decode decodePushNodeState
    if s.name = [] then throw (.noName i)
    else return s :: (← readStates n (i + 1))

def readUserState {σ : Type} [Mode σ] (n : Int) : Reader σ StreamError Slice :=
  if 0 < n then do return some (← wrapError (.userState n) (readRaw n)) else return none

/-- A state with the port that the receiver stores. -/
def received (conf : Config) (r : PushNodeState) : PushNodeState := { r with port := conf.receivedPort r.port }

def readRemoteState (conf : Config) : StreamReader (Bool × List PushNodeState × Slice) := do
  let header ← wrapError .decode decodePushPullHeader
  if header.nodes < 0 ∨ maxPushStateNodes < header.nodes then throw (.nodeCount header.nodes)
  else if header.userStateLen < 0 ∨ maxPushStateBytes < header.userStateLen then
    throw (.userStateLen header.userStateLen)
  else do
    let remoteNodes ← readStates header.nodes.toNat 0
    let userBuf ← readUserState header.userStateLen
    return (header.join,remoteNodes.map (received conf),userBuf)

/-- A record whose fields are within the bounds of the wire. -/
structure Sized (s : NodeState) : Prop where
  name : s.name.length ≤ maxFieldBytes
  addr : (bytes s.addr).length ≤ maxFieldBytes
  metadata : (bytes s.metadata).length ≤ maxFieldBytes

/-- A record whose state a peer accepts: it also has a name. -/
structure Sendable (s : NodeState) : Prop extends Sized s where
  named : s.name ≠ []

/-- A state that a peer decodes. -/
structure Decodable (r : PushNodeState) : Prop where
  bounded : Wire.Bounded r
  low : -2 ^ 63 ≤ r.state
  high : r.state < 2 ^ 63

theorem decodable_pushState {s : NodeState} (sized : Sized s) : Decodable (pushState s) where
  bounded := ⟨sized.name,sized.addr,sized.metadata,show 6 ≤ maxFieldBytes by decide⟩
  low := by
    simp only [pushState]
    cases s.state <;> decide
  high := by
    simp only [pushState]
    cases s.state <;> decide

theorem reads_state {r : PushNodeState} (fine : Decodable r) :
    Reads (wrapError StreamError.decode decodePushNodeState : StreamReader _) (appendPushNodeState r) r :=
  reads_wrapError (reads_pushNodeState fine.bounded fine.low fine.high)

theorem reads_readStates {states : List PushNodeState} (fine : ∀ r ∈ states, Decodable r)
    (named : ∀ r ∈ states, r.name ≠ []) (i : Nat) :
    Reads (readStates states.length i) (states.map appendPushNodeState).flatten states := by
  induction states generalizing i with
  | nil => exact reads_pure []
  | cons r states ih =>
    refine reads_bind (reads_state (fine r List.mem_cons_self)) ?_
    rw [if_neg (named r List.mem_cons_self)]
    exact reads_map (ih (fun r' listed => fine r' (List.mem_cons_of_mem r listed))
      (fun r' listed => named r' (List.mem_cons_of_mem r listed)) (i + 1))

/-- A state without a name makes the receiver refuse them all. -/
theorem fails_readStates {states : List PushNodeState} (fine : ∀ r ∈ states, Decodable r)
    (nameless : ∃ r ∈ states, r.name = []) (i : Nat) :
    ∃ j, Fails (readStates states.length i) (states.map appendPushNodeState).flatten (.noName j) := by
  induction states generalizing i with
  | nil =>
    obtain ⟨r,listed,-⟩ := nameless
    cases listed
  | cons r states ih =>
    have first := reads_state (fine r List.mem_cons_self)
    by_cases empty : r.name = []
    · refine ⟨i,fails_bind first ?_⟩
      rw [if_pos empty]
      exact fails_throw _ _
    · have later : ∃ r' ∈ states, r'.name = [] := by
        obtain ⟨r',listed,nameless'⟩ := nameless
        rcases List.mem_cons.mp listed with rfl | listed
        · exact absurd nameless' empty
        · exact ⟨r',listed,nameless'⟩
      obtain ⟨j,fails⟩ := ih (fun r' listed => fine r' (List.mem_cons_of_mem r listed)) later (i + 1)
      refine ⟨j,fails_bind first ?_⟩
      rw [if_neg empty]
      exact fails_first fails

/-- The user state as the receiver gets it. -/
def userBuf (userData : Bytes) : Slice := if userData = [] then none else some userData

theorem reads_readUserState (userData : Bytes) :
    Reads (readUserState userData.length : StreamReader _) userData (userBuf userData) := by
  unfold readUserState userBuf
  by_cases empty : userData = []
  · subst empty
    exact reads_pure none
  · have positive : (0 : Int) < userData.length := by
      have := List.length_pos_iff.mpr empty
      omega
    rw [if_pos positive,if_neg empty]
    refine reads_map (reads_wrapError ?_)
    rw [readRaw,if_neg (by omega),Int.toNat_natCast]
    exact reads_readInto userData

section
variable {states : List PushNodeState} {userData : Bytes}

theorem reads_header (few : states.length ≤ maxPushStateNodes) (small : userData.length ≤ maxPushStateBytes)
    (join : Bool) :
    Reads (wrapError StreamError.decode decodePushPullHeader : StreamReader _)
      (appendPushPullHeader ⟨states.length,userData.length,join⟩) ⟨states.length,userData.length,join⟩ := by
  have most : maxPushStateNodes < 2 ^ 63 ∧ maxPushStateBytes < 2 ^ 63 := by decide
  exact reads_wrapError (reads_pushPullHeader (by dsimp only; omega) (by dsimp only; omega))

/-- After a header within the limits, the states and the user state are read. -/
theorem header_fits (few : states.length ≤ maxPushStateNodes) (small : userData.length ≤ maxPushStateBytes) :
    ¬ ((states.length : Int) < 0 ∨ (maxPushStateNodes : Int) < states.length) ∧
      ¬ ((userData.length : Int) < 0 ∨ (maxPushStateBytes : Int) < userData.length) := by
  omega

/-- A peer reads a body that is within the limits. -/
theorem reads_readRemoteState (conf : Config) (fine : ∀ r ∈ states, Decodable r) (named : ∀ r ∈ states, r.name ≠ [])
    (few : states.length ≤ maxPushStateNodes) (small : userData.length ≤ maxPushStateBytes) (join : Bool) :
    Reads (readRemoteState conf) (pushPullBody states userData join)
      (join,states.map (received conf),userBuf userData) := by
  obtain ⟨count,size⟩ := header_fits few small
  refine reads_bind (reads_header few small join) ?_
  dsimp only
  rw [if_neg count,if_neg size,Int.toNat_natCast]
  exact reads_bind (reads_readStates fine named 0) (reads_map (reads_readUserState userData))

theorem fails_readRemoteState (conf : Config) (fine : ∀ r ∈ states, Decodable r) (nameless : ∃ r ∈ states, r.name = [])
    (few : states.length ≤ maxPushStateNodes) (small : userData.length ≤ maxPushStateBytes) (join : Bool) :
    ∃ j, Fails (readRemoteState conf) (pushPullBody states userData join) (.noName j) := by
  obtain ⟨count,size⟩ := header_fits few small
  obtain ⟨j,fails⟩ := fails_readStates fine nameless 0
  refine ⟨j,fails_bind (reads_header few small join) ?_⟩
  dsimp only
  rw [if_neg count,if_neg size,Int.toNat_natCast]
  exact fails_first (fails_append fails userData)

end

/-- The bound of a message bounds the number of its states. -/
theorem length_states (states : List PushNodeState) :
    50 * states.length ≤ ((states.map appendPushNodeState).flatten).length := by
  induction states with
  | nil => exact Nat.le_refl 0
  | cons r states ih =>
    have first := le_length_appendPushNodeState r
    simp only [List.map_cons,List.flatten_cons,List.length_append,List.length_cons]
    omega

section
variable {coders : Coders} {m : Memberlist} {join : Bool} {answer : Slice} {nonce : Nonce} {label sent : Bytes}
  {peer : Config}

/-- A peer that can read the connection gets the body that was sent, and its counts
    are within the limits. -/
theorem sendLocalState_read (written : sendLocalState coders m join answer nonce label = .ok sent)
    (readable : Readable coders m.config peer sent label) (rest : Bytes) :
    (m.nodes.map (fun r => pushState (m.heap r))).length ≤ maxPushStateNodes ∧
      (localUserState m answer).length ≤ maxPushStateBytes ∧
      ∃ d, readStream coders peer (sent ++ rest) label = .ok (pushPullMsg,
        Input.feed (pushPullBody (m.nodes.map (fun r => pushState (m.heap r))) (localUserState m answer) join) d) := by
  unfold sendLocalState at written
  dsimp only at written
  split_ifs at written with large long
  generalize m.nodes.map (fun r => pushState (m.heap r)) = states at *
  rw [List.length_cons] at long
  have few : states.length ≤ maxPushStateNodes := by
    have each := length_states states
    have total : (pushPullBody states (localUserState m answer) join).length ≥
        ((states.map appendPushNodeState).flatten).length := by
      simp only [pushPullBody,List.length_append]
      omega
    simp only [maxPushStateNodes,maxStreamMessageBytes,maxDecompressedBytes,maxPushStateBytes] at long ⊢
    omega
  exact ⟨few,Nat.not_lt.mp large,
    readStream_rawSendMsgStream written (by decide) (by decide) (by omega) readable rest⟩

theorem decodable_states (sized : ∀ r ∈ m.nodes, Sized (m.heap r)) :
    ∀ s ∈ m.nodes.map (fun r => pushState (m.heap r)), Decodable s := by
  intro s listed
  obtain ⟨r,member,rfl⟩ := List.mem_map.mp listed
  exact decodable_pushState (sized r member)

/-- A peer that can read the connection accepts what a table of sendable records sends. -/
theorem sendLocalState_accepted (sendable : ∀ r ∈ m.nodes, Sendable (m.heap r))
    (written : sendLocalState coders m join answer nonce label = .ok sent)
    (readable : Readable coders m.config peer sent label) (rest : Bytes) :
    ∃ d d', readStream coders peer (sent ++ rest) label = .ok (pushPullMsg,d) ∧
      (readRemoteState peer).run d =
        .ok ((join,m.nodes.map (fun r => received peer (pushState (m.heap r))),userBuf (localUserState m answer)),d') := by
  obtain ⟨few,small,d,read⟩ := sendLocalState_read written readable rest
  have named : ∀ s ∈ m.nodes.map (fun r => pushState (m.heap r)), s.name ≠ [] := by
    intro s listed
    obtain ⟨r,member,rfl⟩ := List.mem_map.mp listed
    exact (sendable r member).named
  have accepted := reads_readRemoteState peer (decodable_states (fun r member => (sendable r member).toSized)) named few
    small join d
  refine ⟨_,d,read,accepted.trans ?_⟩
  rw [List.map_map]
  rfl

/-- It refuses what a table with a nameless record sends. -/
theorem sendLocalState_refused (sized : ∀ r ∈ m.nodes, Sized (m.heap r)) (nameless : ∃ r ∈ m.nodes, (m.heap r).name = [])
    (written : sendLocalState coders m join answer nonce label = .ok sent)
    (readable : Readable coders m.config peer sent label) (rest : Bytes) :
    ∃ d i, readStream coders peer (sent ++ rest) label = .ok (pushPullMsg,d) ∧
      (readRemoteState peer).run d = .error (.noName i) := by
  obtain ⟨few,small,d,read⟩ := sendLocalState_read written readable rest
  obtain ⟨r,member,empty⟩ := nameless
  obtain ⟨i,fails⟩ := fails_readRemoteState peer (decodable_states sized) ⟨_,List.mem_map.mpr ⟨r,member,rfl⟩,empty⟩ few
    small join
  exact ⟨_,i,read,fails d⟩

end

/-- The limits of sender and receiver agree. Whatever the compression, the
    encryption and the label: a push/pull message that the sender does not find
    too large is read by every peer that has the sender's key, and gives the join
    flag, the states in order and the user state that were sent, except that a
    missing port becomes the peer's own. -/
theorem pushPull_limits_agree (coders : Coders) (m : Memberlist) (sendable : ∀ r ∈ m.nodes, Sendable (m.heap r))
    (join : Bool) (answer : Slice) (nonce : Nonce) (label : Bytes) {sent : Bytes}
    (written : sendLocalState coders m join answer nonce label = .ok sent) {peer : Config}
    (modern : 2 ≤ peer.protocolVersion) (readable : Readable coders m.config peer sent label) (rest : Bytes) :
    ∃ d d', readStream coders peer (sent ++ rest) label = .ok (pushPullMsg,d) ∧
      (readRemoteState peer).run d =
        .ok ((join,
          m.nodes.map (fun r =>
            { name := (m.heap r).name
              addr := (m.heap r).addr
              port := if (m.heap r).port = 0 then UInt16.ofInt peer.bindPort else (m.heap r).port
              metadata := (m.heap r).metadata
              incarnation := (m.heap r).incarnation
              state := (m.heap r).state.toInt
              vsn := some (m.heap r).vsn.toList }),
          if localUserState m answer = [] then none else some (localUserState m answer)),d') := by
  obtain ⟨d,d',read,accepted⟩ := sendLocalState_accepted sendable written readable rest
  refine ⟨d,d',read,accepted.trans ?_⟩
  have port : ∀ p : UInt16, peer.receivedPort p = if p = 0 then UInt16.ofInt peer.bindPort else p := by
    intro p
    simp [Config.receivedPort,UInt8.not_lt.mpr modern]
  simp only [received,pushState,port,userBuf]

/-- A coder that stores its input as it is. -/
def storing : Lzw where
  write b := some b
  read c := (c,none)
  read_write written := by rw [Option.some.inj written]

/-- A cipher that only adds an empty tag. -/
def tagging : Gcm where
  sealWith _ _ plain _ := plain ++ List.replicate tagSize 0
  openWith _ _ cipher _ := some (cipher.take (cipher.length - tagSize))
  open_seal _ _ plain _ := by simp
  length_seal _ _ plain _ := by simp

/-- A nonce of zeros. -/
def zeroNonce : Nonce := ⟨List.replicate nonceSize 0,rfl⟩

/-- The node `a` with a label, a key and a delegate, right after its start. -/
def labelled : Memberlist :=
  let conf : Config := { name := [97], label := [108], keyring := some [List.replicate 16 1], delegate := true }
  let drawn := setAliveMessage (buildMemberlist conf) (some [10,0,0,1]) 7946 none
  aliveNodeLocked drawn.1 drawn.2 none true none {}

/-- It encrypts what it sends, the user state of two bytes included. -/
theorem pushPull_limits_agree_labelled :
    ∃ sent, sendLocalState ⟨storing,tagging⟩ labelled true (some [5,6]) zeroNonce [108] = .ok sent ∧
      sent.head? = some encryptMsg ∧
      ∃ d d', readStream ⟨storing,tagging⟩ labelled.config (sent ++ [1,2]) [108] = .ok (pushPullMsg,d) ∧
        (readRemoteState labelled.config).run d =
          .ok ((true,[⟨[97],some [10,0,0,1],7946,none,1,0,some [1,5,2,0,0,0]⟩],some [5,6]),d') := by
  have sendable : ∀ r ∈ labelled.nodes, Sendable (labelled.heap r) := by
    intro r listed
    have only : labelled.nodes = [1] := by decide
    rw [only,List.mem_singleton] at listed
    subst listed
    exact ⟨⟨by decide,by decide,by decide⟩,by decide⟩
  exact ⟨_,rfl,rfl,pushPull_limits_agree ⟨storing,tagging⟩ labelled sendable true (some [5,6]) zeroNonce [108] rfl (by decide)
    (readable_same rfl (fun _ _ => rfl)) [1,2]⟩

end Mori.PushPull
