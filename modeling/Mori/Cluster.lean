import Mori.Suspicions

/-!
A cluster of instances with distinct names, each created once. Everything an
instance sends stays on the network, which delivers any of it to anyone, at any
time and any number of times, or never. A push/pull state travels entry by entry,
since its receiver merges it so. Probes act on copies of records, which may be old
by the time the probe fails.
-/
namespace Mori.Cluster
open Mori.Net Mori.Protocol Mori.State Mori.Table Mori.Moves Mori.LocalNode

/-- The instances: their configurations, and the address that each one's transport
    advertises. -/
structure Setup where
  conf : Bytes → Config
  addr : Bytes → Slice
  port : Bytes → Int
  named : ∀ x, (conf x).name = x

/-- How far `Create` has come: `setAlive` has not drawn its incarnation, has not
    committed its message, or has committed. -/
inductive Phase where
  | idle
  | drawn (a : Alive)
  | up
deriving DecidableEq

/-- What travels: a gossiped message, or an entry of a push/pull state. -/
inductive Packet where
  | gossip (msg : Message)
  | state (r : PushNodeState)
deriving DecidableEq

def Packet.node : Packet → Bytes
  | .gossip msg => msg.node
  | .state r => r.name

def Packet.incarnation : Packet → UInt32
  | .gossip msg => msg.incarnation
  | .state r => r.incarnation

/-- The state of the whole cluster. -/
structure Global where
  inst : Bytes → Memberlist
  phase : Bytes → Phase := fun _ => .idle
  net : List Packet := []
  /-- The records that the probes of an instance have copied. -/
  copies : Bytes → List NodeState := fun _ => []

/-- The cluster before anything has started. -/
def initial (S : Setup) : Global where
  inst x := buildMemberlist (S.conf x)

/-- An entry of the state that `sendLocalState` sends. -/
def pushState (s : NodeState) : PushNodeState :=
  ⟨s.name,s.addr,s.port,s.metadata,s.incarnation,s.state.toInt,some s.vsn.toList⟩

/-- A state is sent as left only for a record that is. -/
theorem pushState_left {s : NodeState} (sent : (pushState s).state = NodeStateType.left.toInt) : s.state = .left := by
  have same := congrArg NodeStateType.ofInt sent
  simp only [pushState,ofInt_toInt] at same
  exact Option.some.inj same

/-- `handleAlive` from the decoded message on. -/
def handleAlive (m : Memberlist) (a : Alive) (env : Env) : Memberlist :=
  if m.config.ipMustBeChecked = true ∧ a.addr ≠ none ∧ m.config.ipAllowed a.addr = false then m
  else aliveNode m { a with port := m.config.receivedPort a.port } false env

/-- What the receiver of a packet does. A push/pull entry gets its port in
    `readRemoteState`. -/
def receive (m : Memberlist) (p : Packet) (env : Env) : Memberlist :=
  match p with
  | .gossip (.alive a) => handleAlive m a env
  | .gossip (.suspect s) => suspectNode m s env
  | .gossip (.dead d) => deadNode m d env
  | .state r => mergeEntry m { r with port := m.config.receivedPort r.port } env

inductive Action where
  /-- `setAlive` draws an incarnation for the metadata its delegate answers. -/
  | draw (x : Bytes) (answer : Slice)
  /-- `setAlive` commits. -/
  | start (x : Bytes) (receipt : Option Nat) (env : Env)
  /-- A queued broadcast is sent. -/
  | gossip (x : Bytes) (i : Nat)
  /-- A queued broadcast is dropped, when it was sent often enough. -/
  | finish (x : Bytes) (i : Nat)
  /-- An entry of the local state is sent. -/
  | pushPull (x : Bytes) (i : Nat)
  | deliver (y : Bytes) (i : Nat) (env : Env)
  /-- `probe` copies the next record unless it is its own or dead. -/
  | probe (y : Bytes) (i : Nat)
  /-- `probeNode` adds a suspect message to the ping of a node that is not alive. -/
  | probeSuspect (y : Bytes) (i : Nat)
  /-- The probe of a copied record has failed. -/
  | probeFailed (y : Bytes) (i : Nat) (env : Env)
  | expire (y : Bytes) (t : Nat) (env : Env)
  | reset (y : Bytes) (now : Time) (draws : Nat → Nat)
  | update (y : Bytes) (answer : Slice) (notify receipt : Option Nat) (env : Env)
  | leave (y : Bytes) (receipt : Option Nat) (env : Env)

/-- Replaces the state of one instance. -/
def Global.put (c : Global) (y : Bytes) (m : Memberlist) : Global :=
  { c with inst := Function.update c.inst y m }

/-- The suspicion that a probe raises. -/
def probeMessage (y : Bytes) (s : NodeState) : Suspect := ⟨s.incarnation,s.name,y⟩

/-- An action; one that is not possible changes nothing. -/
def act (S : Setup) (c : Global) : Action → Global
  | .draw x answer =>
    match c.phase x,delegateMeta (c.inst x).config answer with
    | .idle,.ok metadata =>
      let drawn := setAliveMessage (c.inst x) (S.addr x) (S.port x) metadata
      { c.put x drawn.1 with phase := Function.update c.phase x (.drawn drawn.2) }
    | _,_ => c
  | .start x receipt env =>
    match c.phase x with
    | .drawn a =>
      match setAliveLocked (c.inst x) a receipt env with
      | .ok m => { c.put x m with phase := Function.update c.phase x .up }
      | .error _ => c
    | _ => c
  | .gossip x i =>
    match (c.inst x).broadcasts[i]? with
    | some b => { c with net := c.net ++ [.gossip b.msg] }
    | none => c
  | .finish x i => c.put x { c.inst x with broadcasts := (c.inst x).broadcasts.eraseIdx i }
  | .pushPull x i =>
    match (c.inst x).nodes[i]? with
    | some r => { c with net := c.net ++ [.state (pushState ((c.inst x).heap r))] }
    | none => c
  | .deliver y i env =>
    match c.net[i]? with
    | some p => c.put y (receive (c.inst y) p env)
    | none => c
  | .probe y i =>
    match (c.inst y).nodes[i]? with
    | some r =>
      let s := (c.inst y).heap r
      if s.name = y ∨ s.deadOrLeft = true then c
      else { c with copies := Function.update c.copies y (c.copies y ++ [s]) }
    | none => c
  | .probeSuspect y i =>
    match (c.copies y)[i]? with
    | some s => if s.state = .alive then c else { c with net := c.net ++ [.gossip (.suspect (probeMessage y s))] }
    | none => c
  | .probeFailed y i env =>
    match (c.copies y)[i]? with
    | some s => c.put y (apply (c.inst y) (.suspect (probeMessage y s) env))
    | none => c
  | .expire y t env => c.put y (apply (c.inst y) (.expire t env))
  | .reset y now draws => c.put y (apply (c.inst y) (.reset now draws))
  | .update y answer notify receipt env =>
    if c.phase y = .up then c.put y (apply (c.inst y) (.update answer notify receipt env)) else c
  | .leave y receipt env => if c.phase y = .up then c.put y (apply (c.inst y) (.leave receipt env)) else c

def acts (S : Setup) (c : Global) (actions : List Action) : Global := actions.foldl (act S) c

/-- The states that the cluster can reach. -/
def Reaches (S : Setup) (c : Global) : Prop := ∃ actions, c = acts S (initial S) actions

/-- No counter has wrapped: each instance has made fewer than 2^32 - 1 increments. -/
def Bounded (c : Global) : Prop := ∀ x, (c.inst x).incarnation.adds < 2 ^ 32 - 1

theorem acts_snoc (S : Setup) (c : Global) (actions : List Action) (a : Action) :
    acts S c (actions ++ [a]) = act S (acts S c actions) a := by
  simp [acts]

/-- The instance that acts. -/
def Action.actor : Action → Bytes
  | .draw x _ => x
  | .start x _ _ => x
  | .gossip x _ => x
  | .finish x _ => x
  | .pushPull x _ => x
  | .deliver y _ _ => y
  | .probe y _ => y
  | .probeSuspect y _ => y
  | .probeFailed y _ _ => y
  | .expire y _ _ => y
  | .reset y _ _ => y
  | .update y _ _ _ _ => y
  | .leave y _ _ => y

/-- Which critical section an action makes an instance run, and where that comes from. -/
inductive Told (c : Global) : Action → Bytes → Op → Prop
  | alive {y : Bytes} {i : Nat} {a : Alive} {env : Env} (sent : c.net[i]? = some (.gossip (.alive a))) :
      Told c (.deliver y i env) y (.alive { a with port := (c.inst y).config.receivedPort a.port } env)
  | suspect {y : Bytes} {i : Nat} {s : Suspect} {env : Env} (sent : c.net[i]? = some (.gossip (.suspect s))) :
      Told c (.deliver y i env) y (.suspect s env)
  | dead {y : Bytes} {i : Nat} {d : Dead} {env : Env} (sent : c.net[i]? = some (.gossip (.dead d))) :
      Told c (.deliver y i env) y (.dead d env)
  | merge {y : Bytes} {i : Nat} {r : PushNodeState} {env : Env} (sent : c.net[i]? = some (.state r)) :
      Told c (.deliver y i env) y (.merge { r with port := (c.inst y).config.receivedPort r.port } env)
  | probe {y : Bytes} {i : Nat} {s : NodeState} {env : Env} (copied : (c.copies y)[i]? = some s) :
      Told c (.probeFailed y i env) y (.suspect (probeMessage y s) env)
  | expire {y : Bytes} {t : Nat} {env : Env} : Told c (.expire y t env) y (.expire t env)
  | reset {y : Bytes} {now : Time} {draws : Nat → Nat} : Told c (.reset y now draws) y (.reset now draws)
  | update {y : Bytes} {answer : Slice} {notify receipt : Option Nat} {env : Env} (up : c.phase y = .up) :
      Told c (.update y answer notify receipt env) y (.update answer notify receipt env)
  | leave {y : Bytes} {receipt : Option Nat} {env : Env} (up : c.phase y = .up) :
      Told c (.leave y receipt env) y (.leave receipt env)

/-- What an action can do to the cluster. -/
inductive Does (S : Setup) (c : Global) (a : Action) : Global → Prop
  | idle : Does S c a c
  | sendMessage {x : Bytes} {b : Broadcast} (queued : b ∈ (c.inst x).broadcasts) :
      Does S c a { c with net := c.net ++ [.gossip b.msg] }
  | sendState {x : Bytes} {r : Ref} (listed : r ∈ (c.inst x).nodes) :
      Does S c a { c with net := c.net ++ [.state (pushState ((c.inst x).heap r))] }
  | sendSuspect {y : Bytes} {s : NodeState} (copied : s ∈ c.copies y) :
      Does S c a { c with net := c.net ++ [.gossip (.suspect (probeMessage y s))] }
  | copy {y : Bytes} {r : Ref} (listed : r ∈ (c.inst y).nodes) :
      Does S c a { c with copies := Function.update c.copies y (c.copies y ++ [(c.inst y).heap r]) }
  | finish {x : Bytes} {i : Nat} :
      Does S c a (c.put x { c.inst x with broadcasts := (c.inst x).broadcasts.eraseIdx i })
  | draw {x : Bytes} {metadata : Slice} (idle : c.phase x = .idle) :
      Does S c a { c.put x (setAliveMessage (c.inst x) (S.addr x) (S.port x) metadata).1 with
        phase := Function.update c.phase x
          (.drawn (setAliveMessage (c.inst x) (S.addr x) (S.port x) metadata).2) }
  | start {x : Bytes} {msg : Alive} {m : Memberlist} {receipt : Option Nat} {env : Env}
      (drawn : c.phase x = .drawn msg) (committed : setAliveLocked (c.inst x) msg receipt env = .ok m) :
      Does S c a { c.put x m with phase := Function.update c.phase x .up }
  | critical {y : Bytes} {op : Op} (told : Told c a y op) : Does S c a (c.put y (apply (c.inst y) op))

theorem put_self (c : Global) (y : Bytes) : c.put y (c.inst y) = c := by
  simp [Global.put]

theorem receive_does (S : Setup) (c : Global) (y : Bytes) {i : Nat} {p : Packet} (sent : c.net[i]? = some p)
    (env : Env) : Does S c (.deliver y i env) (c.put y (receive (c.inst y) p env)) := by
  cases p with
  | gossip msg =>
    cases msg with
    | alive a =>
      simp only [receive,handleAlive]
      split_ifs
      · rw [put_self]; exact .idle
      · exact .critical (.alive sent)
    | suspect s => exact .critical (.suspect sent)
    | dead d => exact .critical (.dead sent)
  | state r => exact .critical (.merge sent)

theorem act_does (S : Setup) (c : Global) (a : Action) : Does S c a (act S c a) := by
  cases a with
  | draw x answer =>
    simp only [act]
    split
    next idle given => exact .draw idle
    next => exact .idle
  | start x receipt env =>
    simp only [act]
    split
    next a drawn =>
      cases committed : setAliveLocked (c.inst x) a receipt env with
      | ok m => exact .start drawn committed
      | error err => exact .idle
    next => exact .idle
  | gossip x i =>
    simp only [act]
    cases stored : (c.inst x).broadcasts[i]? with
    | some b => exact .sendMessage (List.mem_of_getElem? stored)
    | none => exact .idle
  | finish x i => exact .finish
  | pushPull x i =>
    simp only [act]
    cases stored : (c.inst x).nodes[i]? with
    | some r => exact .sendState (List.mem_of_getElem? stored)
    | none => exact .idle
  | deliver y i env =>
    simp only [act]
    cases stored : c.net[i]? with
    | some p => exact receive_does S c y stored env
    | none => exact .idle
  | probe y i =>
    simp only [act]
    cases stored : (c.inst y).nodes[i]? with
    | some r =>
      simp only
      split_ifs
      · exact .idle
      · exact .copy (List.mem_of_getElem? stored)
    | none => exact .idle
  | probeSuspect y i =>
    simp only [act]
    cases stored : (c.copies y)[i]? with
    | some s =>
      simp only
      split_ifs
      · exact .idle
      · exact .sendSuspect (List.mem_of_getElem? stored)
    | none => exact .idle
  | probeFailed y i env =>
    simp only [act]
    cases stored : (c.copies y)[i]? with
    | some s => exact .critical (.probe stored)
    | none => exact .idle
  | expire y t env => exact .critical .expire
  | reset y now draws => exact .critical .reset
  | update y answer notify receipt env =>
    simp only [act]
    split_ifs with up
    · exact .critical (.update up)
    · exact .idle
  | leave y receipt env =>
    simp only [act]
    split_ifs with up
    · exact .critical (.leave up)
    · exact .idle

/-- An action changes the state of its own instance only. -/
theorem act_other (S : Setup) (c : Global) {a : Action} {x : Bytes} (other : x ≠ a.actor) :
    (act S c a).inst x = c.inst x := by
  have elsewhere : ∀ {y m}, x ≠ y → (c.put y m).inst x = c.inst x := fun away => Function.update_of_ne away ..
  cases a with
  | draw y answer =>
    simp only [act]
    split
    · exact elsewhere other
    · rfl
  | start y receipt env =>
    simp only [act]
    split
    · split
      · exact elsewhere other
      · rfl
    · rfl
  | finish y i => exact elsewhere other
  | expire y t env => exact elsewhere other
  | reset y now draws => exact elsewhere other
  | probe y i =>
    simp only [act]
    split
    · split_ifs <;> rfl
    · rfl
  | probeSuspect y i =>
    simp only [act]
    split
    · split_ifs <;> rfl
    · rfl
  | update y answer notify receipt env =>
    simp only [act]
    split_ifs
    · exact elsewhere other
    · rfl
  | leave y receipt env =>
    simp only [act]
    split_ifs
    · exact elsewhere other
    · rfl
  | deliver y i env =>
    simp only [act]
    split
    · exact elsewhere other
    · rfl
  | probeFailed y i env =>
    simp only [act]
    split
    · exact elsewhere other
    · rfl
  | gossip y i =>
    simp only [act]
    split <;> rfl
  | pushPull y i =>
    simp only [act]
    split <;> rfl

theorem acts_other (S : Setup) {x : Bytes} {actions : List Action} (others : ∀ a ∈ actions, x ≠ a.actor) (c : Global) :
    (acts S c actions).inst x = c.inst x := by
  induction actions generalizing c with
  | nil => rfl
  | cons a actions ih =>
    exact (ih (fun b member => others b (List.mem_cons_of_mem a member)) (act S c a)).trans
      (act_other S c (others a List.mem_cons_self))

end Mori.Cluster
