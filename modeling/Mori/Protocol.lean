import Mori.Net

/-!
The data of the protocol: the messages of `internal/wire` as values, the node
states, the version vectors, and what the modelled functions read of `Config`.
-/
namespace Mori.Protocol
open Mori.Net

/-- Broadcast when a node is suspected dead; `from_` is who suspects. -/
structure Suspect where
  incarnation : UInt32
  node : Bytes
  from_ : Bytes
deriving DecidableEq,Repr

/-- Broadcast when a node is known alive; overloaded for joins. -/
structure Alive where
  incarnation : UInt32
  node : Bytes
  addr : Slice
  port : UInt16
  metadata : Slice
  vsn : Slice
deriving DecidableEq,Repr

/-- Broadcast when a node is confirmed dead; overloaded for leaves, which a
    node sends about itself. -/
structure Dead where
  incarnation : UInt32
  node : Bytes
  from_ : Bytes
deriving DecidableEq,Repr

/-- One node's state in a push/pull exchange; `state` is any number a peer sends. -/
structure PushNodeState where
  name : Bytes := []
  addr : Slice := none
  port : UInt16 := 0
  metadata : Slice := none
  incarnation : UInt32 := 0
  state : Int := 0
  vsn : Slice := none
deriving DecidableEq,Repr

/-- The membership messages that are gossiped. -/
inductive Message where
  | alive (a : Alive)
  | suspect (s : Suspect)
  | dead (d : Dead)
deriving DecidableEq,Repr

/-- The node a message is about. -/
def Message.node : Message → Bytes
  | .alive a => a.node
  | .suspect s => s.node
  | .dead d => d.node

/-- The incarnation a message claims for its node. -/
def Message.incarnation : Message → UInt32
  | .alive a => a.incarnation
  | .suspect s => s.incarnation
  | .dead d => d.incarnation

/-- `NodeStateType`, in the order of its numbers. -/
inductive NodeStateType where
  | alive
  | suspect
  | dead
  | left
deriving DecidableEq,Repr

/-- The number of a state, as push/pull sends it. -/
def NodeStateType.toInt : NodeStateType → Int
  | .alive => 0
  | .suspect => 1
  | .dead => 2
  | .left => 3

/-- The state a received number stands for; `mergeState` ignores the others. -/
def NodeStateType.ofInt : Int → Option NodeStateType
  | 0 => some .alive
  | 1 => some .suspect
  | 2 => some .dead
  | 3 => some .left
  | _ => none

@[simp] theorem ofInt_toInt (t : NodeStateType) : NodeStateType.ofInt t.toInt = some t := by
  cases t <;> rfl

theorem eq_toInt_of_ofInt {n : Int} {t : NodeStateType} (known : NodeStateType.ofInt n = some t) : n = t.toInt := by
  unfold NodeStateType.ofInt at known
  split at known <;> cases known <;> rfl

/-- A protocol version vector of `vsnLen` entries, in wire order. -/
structure Versions where
  pMin : UInt8 := 0
  pMax : UInt8 := 0
  pCur : UInt8 := 0
  dMin : UInt8 := 0
  dMax : UInt8 := 0
  dCur : UInt8 := 0
deriving DecidableEq,Repr

def Versions.toList (v : Versions) : Bytes := [v.pMin,v.pMax,v.pCur,v.dMin,v.dMax,v.dCur]

/-- Validates a received vector: none means zeros, one shorter than `vsnLen` is
    malformed, and entries past `vsnLen` are ignored. -/
def parseVsn (v : Slice) : Option Versions :=
  match bytes v with
  | [] => some {}
  | a :: b :: c :: d :: e :: f :: _ => some ⟨a,b,c,d,e,f⟩
  | _ => none

@[simp] theorem parseVsn_toList (v : Versions) : parseVsn (some v.toList) = some v := rfl

def protocolVersionMin : UInt8 := 1
def protocolVersionMax : UInt8 := 5

/-- What the modelled functions read of `Config`, with the values of
    `DefaultLANConfig`. A delegate is present or absent here; what it answers is
    an input of the call that asks it. -/
structure Config where
  name : Bytes
  label : Bytes := []
  bindPort : Int := 7946
  protocolVersion : UInt8 := 2
  suspicionMult : Int := 4
  awarenessMaxMultiplier : Int := 8
  gossipToTheDeadTime : Duration := 30000000000
  gossipVerifyIncoming : Bool := true
  gossipVerifyOutgoing : Bool := true
  enableCompression : Bool := true
  /-- `none` is a nil keyring; else the installed keys, the primary first. -/
  keyring : Option (List Bytes) := none
  delegate : Bool := false
  delegateProtocolVersion : UInt8 := 0
  delegateProtocolMin : UInt8 := 0
  delegateProtocolMax : UInt8 := 0
  events : Bool := false
  conflict : Bool := false
  alive : Bool := false
  metaMaxSize : Int := 0
  deadNodeReclaimTime : Duration := 0
  /-- `none` is a nil list. -/
  cidrsAllowed : Option (List IPNet) := none

/-- The versions this node understands and speaks. -/
def Config.versions (conf : Config) : Versions :=
  ⟨protocolVersionMin,protocolVersionMax,conf.protocolVersion,
    conf.delegateProtocolMin,conf.delegateProtocolMax,conf.delegateProtocolVersion⟩

def Config.buildVsnArray (conf : Config) : Slice := some conf.versions.toList

/-- The cap on the local metadata: the configured one, else 512 bytes. -/
def Config.metaLimit (conf : Config) : Int := if 0 < conf.metaMaxSize then conf.metaMaxSize else 512

def Config.ipMustBeChecked (conf : Config) : Bool := 0 < (conf.cidrsAllowed.getD []).length

/-- True where `IPAllowed` returns no error. -/
def Config.ipAllowed (conf : Config) (ip : Slice) : Bool :=
  !conf.ipMustBeChecked || (conf.cidrsAllowed.getD []).any (fun n => contains n (bytes ip))

/-- The port that `handleAlive` and `readRemoteState` store: protocol 1 sends
    none, and a missing one reads as the configured port. -/
def Config.receivedPort (conf : Config) (port : UInt16) : UInt16 :=
  if conf.protocolVersion < 2 ∨ port = 0 then UInt16.ofInt conf.bindPort else port

theorem receivedPort_of_port {conf : Config} {port : UInt16} (speaks : 2 ≤ conf.protocolVersion)
    (given : port ≠ 0) : conf.receivedPort port = port := by
  have modern : ¬ conf.protocolVersion < 2 := UInt8.not_lt.mpr speaks
  simp [Config.receivedPort,modern,given]

end Mori.Protocol
