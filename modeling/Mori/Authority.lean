import Mori.Instance

/-!
Who may say what in a cluster. Everything in it, each record, queued broadcast,
message and copied record, repeats what the node it is about has decided
(`Authentic`): this holds initially and every action keeps it. So no incarnation
exceeds the counter of its node, nobody but a node itself can say that it left,
and live records of one incarnation agree.
-/
namespace Mori.Authority
open Mori.Net Mori.Protocol Mori.State Mori.Table Mori.Moves Mori.LocalNode Mori.PeerRecord Mori.Cluster
open Mori.Decisions Mori.Instance
set_option linter.unusedSimpArgs false

/-- A push/pull entry is the copy of a record. -/
def PacketTrue (S : Setup) (w : World) : Packet → Prop
  | .gossip msg => MsgTrue S w msg
  | .state r => ∃ s, RecTrue S w s ∧ r = pushState s

theorem packetTrue_mono {S : Setup} {y : Bytes} {w w' : World} (step : Evolves y w w') {p : Packet}
    (is : PacketTrue S w p) : PacketTrue S w' p := by
  cases p with
  | gossip msg => exact msgTrue_mono step is
  | state r =>
    obtain ⟨s,recorded,same⟩ := is
    exact ⟨s,recTrue_mono step recorded,same⟩

/-- The message that `setAlive` has drawn and will commit. -/
structure Drawn (S : Setup) (w : World) (x : Bytes) (a : Alive) : Prop where
  node : a.node = x
  incarnation : a.incarnation = w.counter x
  addr : a.addr = S.addr x
  port : a.port = UInt16.ofInt (S.port x)
  vsn : a.vsn = (S.conf x).buildVsnArray

/-- Everything in the cluster repeats what the nodes have decided. -/
structure Authentic (S : Setup) (c : Global) (w : World) : Prop where
  inst : ∀ x, InstTrue S w x (c.inst x)
  starting : ∀ x, c.phase x ≠ .up → ¬ w.born x
  drawn : ∀ x a, c.phase x = .drawn a → Drawn S w x a
  net : ∀ p ∈ c.net, PacketTrue S w p
  copies : ∀ y, ∀ s ∈ c.copies y, RecTrue S w s

/-- Nothing is decided. -/
def noDecisions : World where
  born _ := False
  counter _ := 0
  left _ := False
  said _ _ := none

theorem authentic_initial (S : Setup) : Authentic S (initial S) noDecisions where
  inst := by
    intro x
    exact {
      wf := tableWF_build _
      config := rfl
      up := rfl
      counter := rfl
      exact := rfl
      left := by simp [noDecisions,initial,buildMemberlist]
      born := by simp [noDecisions,initial,buildMemberlist,entry]
      own := by simp [initial,buildMemberlist,entry]
      records := by simp [initial,buildMemberlist,entry]
      queue := by simp [initial,buildMemberlist] }
  starting := fun _ _ => id
  drawn := fun _ _ drawn => by cases drawn
  net := by simp [initial]
  copies := by simp [initial]

section
variable {S : Setup} {c : Global} {w : World}

/-- Without port masking a receiver keeps the port of an authentic message. -/
theorem receivedPort_true {x y : Bytes} {port : UInt16} (unmasked : Unmasked S x)
    (told : port = UInt16.ofInt (S.port x)) : (S.conf y).receivedPort port = UInt16.ofInt (S.port x) := by
  subst told
  exact receivedPort_of_port (unmasked.1 y) unmasked.2

/-- A section is told nothing but what nodes have decided. -/
theorem told_true (is : Authentic S c w) {a : Action} {y : Bytes} {op cause : Op} (told : Told c a y op)
    (resolved : resolve (c.inst y) op = some cause) : OpTrue S w cause := by
  have config := (is.inst y).config
  cases told with
  | @alive _ _ a env sent =>
    cases resolved
    have isTrue : AliveTrue S w a := is.net _ (List.mem_of_getElem? sent)
    refine ⟨isTrue.known,isTrue.addr,fun unmasked => ?_,isTrue.vsn,isTrue.said⟩
    rw [config]
    exact receivedPort_true unmasked (isTrue.port unmasked)
  | suspect sent => cases resolved; exact is.net _ (List.mem_of_getElem? sent)
  | dead sent => cases resolved; exact is.net _ (List.mem_of_getElem? sent)
  | merge sent =>
    obtain ⟨s,isTrue,rfl⟩ := is.net _ (List.mem_of_getElem? sent)
    simp only [resolve,pushState,ofInt_toInt] at resolved
    cases state : s.state with
    | alive =>
      rw [state] at resolved
      cases resolved
      refine ⟨isTrue.known,isTrue.addr,fun unmasked => ?_,?_,isTrue.said state⟩
      · rw [config]
        exact receivedPort_true unmasked (isTrue.port unmasked)
      · simp only [isTrue.vsn,Config.buildVsnArray]
    | suspect => rw [state] at resolved; cases resolved; exact isTrue.known
    | dead => rw [state] at resolved; cases resolved; exact isTrue.known
    | left =>
      rw [state] at resolved
      cases resolved
      exact ⟨isTrue.known,fun _ => isTrue.left state⟩
  | probe copied => cases resolved; exact (is.copies _ _ (List.mem_of_getElem? copied)).known
  | @expire _ t env =>
    obtain ⟨s,held,expired,rfl⟩ := resolve_expire resolved
    have name := entry_name (is.inst y).wf held
    refine ⟨((is.inst y).records _ s held).known,fun self => ?_⟩
    -- The local record is alive or left, never suspect.
    have here : ((c.inst y).suspicions t).node = y :=
      name.symm.trans (self.trans (inst_name (is.inst y)))
    rw [here] at held
    have state := ((is.inst y).own s held).2
    rw [expired.1] at state
    split_ifs at state
  | reset => cases resolved; trivial
  | update => cases resolved; trivial
  | leave => cases resolved; trivial

/-- An action of the instance `y`, after which its state is `m` and its phase `ph`. -/
theorem authentic_at {c' : Global} {w' : World} {y : Bytes} {m : Memberlist} {ph : Phase} (is : Authentic S c w)
    (step : Evolves y w w') (insts : c'.inst = Function.update c.inst y m)
    (phases : c'.phase = Function.update c.phase y ph) (net : c'.net = c.net) (copies : c'.copies = c.copies)
    (here : InstTrue S w' y m) (starting : ph ≠ .up → ¬ w'.born y) (drawn : ∀ a, ph = .drawn a → Drawn S w' y a) :
    Authentic S c' w' where
  inst := by
    rw [insts]
    exact (Function.forall_update_iff c.inst (p := InstTrue S w')).mpr
      ⟨here,fun x other => inst_mono step other (is.inst x)⟩
  starting := by
    rw [phases]
    refine (Function.forall_update_iff c.phase (p := fun x phase => phase ≠ .up → ¬ w'.born x)).mpr
      ⟨starting,fun x other => ?_⟩
    rw [(step.others x other).1]
    exact is.starting x
  drawn := by
    rw [phases]
    refine (Function.forall_update_iff c.phase (p := fun x phase => ∀ a, phase = .drawn a → Drawn S w' x a)).mpr
      ⟨drawn,fun x other a phase => ?_⟩
    obtain ⟨node,incarnation,addr,port,vsn⟩ := is.drawn x a phase
    exact ⟨node,incarnation.trans (step.others x other).2.1.symm,addr,port,vsn⟩
  net := by
    rw [net]
    exact fun p member => packetTrue_mono step (is.net p member)
  copies := by
    rw [copies]
    exact fun y' s member => recTrue_mono step (is.copies y' s member)

theorem authentic_send {p : Packet} (is : Authentic S c w) (sent : PacketTrue S w p) :
    Authentic S { c with net := c.net ++ [p] } w :=
  { is with
    net := by
      intro p' member
      rcases List.mem_append.mp member with old | new
      · exact is.net p' old
      · rw [List.mem_singleton.mp new]; exact sent }

/-- A listed record is in the table. -/
theorem listed_true (is : Authentic S c w) {y : Bytes} {r : Ref} (listed : r ∈ (c.inst y).nodes) :
    RecTrue S w ((c.inst y).heap r) := by
  obtain ⟨n,found⟩ := ((is.inst y).wf.listed r).mp listed
  exact (is.inst y).records n _ (entry_eq found)

/-- The node `x` is stored by its own `setAlive`. -/
def birth (w : World) (x : Bytes) (metadata : Slice) : World :=
  { w with
    born := fun n => n = x ∨ w.born n
    said := Function.update w.said x (Function.update (w.said x) (w.counter x) metadata) }

theorem birth_evolves {x : Bytes} (metadata : Slice) (unborn : ¬ w.born x) : Evolves x w (birth w x metadata) where
  others := by
    intro n other
    simp [birth,other]
  born := fun born => absurd born unborn
  counter := UInt32.le_refl _
  left := fun left => ⟨left,rfl⟩
  said := fun born => absurd born unborn

/-- `setAlive` commits: it stores the node, or refuses an address that its own
    configuration does not allow. -/
theorem inst_start {x : Bytes} {m : Memberlist} {a : Alive} (is : InstTrue S w x m) (unborn : ¬ w.born x)
    (drawn : Drawn S w x a) (receipt : Option Nat) (env : Env) :
    ∃ w', Evolves x w w' ∧ InstTrue S w' x (aliveNodeLocked m a none true receipt env) := by
  have name := inst_name is
  have named : a.node = m.config.name := drawn.node.trans name.symm
  have absent : entry m x = none := by
    by_contra present
    exact unborn (is.born.mpr (.inl present))
  have staying : m.leave = false := by
    by_contra left
    exact unborn (is.born.mpr (.inr (by simpa using left)))
  have accepted : acceptableVsn a = some (S.conf x).versions := acceptableVsn_own _ drawn.vsn
  have absent' : m.nodeMap a.node = none := by rw [drawn.node]; exact entry_eq_none.mp absent
  by_cases allowed : m.config.ipAllowed a.addr = true
  · rw [aliveNodeLocked_first staying accepted named absent' allowed]
    have step := birth_evolves a.metadata unborn
    have isTrue : AliveTrue S (birth w x a.metadata) a := by
      constructor
      · rw [drawn.node,drawn.incarnation]
        exact ⟨.inl rfl,UInt32.le_refl _⟩
      · rw [drawn.node]; exact drawn.addr
      · rw [drawn.node]; exact fun _ => drawn.port
      · rw [drawn.node]; exact drawn.vsn
      · rw [drawn.node,drawn.incarnation]
        simp [birth]
    have wf := tableWF_addNode is.wf (s := newRecord a (S.conf x).versions) absent' env.offset
    have applied := table_applyAlive wf a (addNode_nodeMap ..) (S.conf x).versions none receipt env.now
    have added := entry_addNode is.wf (newRecord a (S.conf x).versions) env.offset
    have after := entry_at applied.2 drawn.node
    refine ⟨_,step,?_⟩
    constructor
    · exact applied.1
    · exact is.config
    · exact is.up
    · exact is.counter
    · exact is.exact
    · exact is.left
    · rw [after]
      exact iff_of_true (.inl rfl) (.inl (by simp))
    · intro s held
      rw [after] at held
      cases held
      refine ⟨drawn.incarnation,?_⟩
      rw [show (applyAlive (addNode m (newRecord a (S.conf x).versions) env.offset) m.alloc a
        (S.conf x).versions none receipt env.now).leave = m.leave from rfl,staying]
      rfl
    · intro n s held
      by_cases here : n = x
      · subst here
        rw [after] at held
        cases held
        refine aliveRecord_true isTrue accepted ?_ env.now
        rw [addNode_heap]
        rfl
      · rw [entry_other applied.2 (by rw [drawn.node]; exact Ne.symm here),
          entry_other added (by rw [show (newRecord a (S.conf x).versions).name = a.node from rfl,drawn.node]; exact Ne.symm here)] at held
        exact recTrue_mono step (is.records n s held)
    · intro b member
      rcases queue_mem member with old | new
      · exact msgTrue_mono step (is.queue b old)
      · rw [new]; exact isTrue
  · have refused : aliveNodeLocked m a none true receipt env = m := by
      simp [aliveNodeLocked,staying,accepted,filtered,absent',allowed]
    rw [refused]
    exact ⟨w,evolves_refl x w,is⟩

/-- Every action keeps the cluster authentic, as long as no counter wraps. -/
theorem authentic_does {c' : Global} {a : Action} (is : Authentic S c w) (does : Does S c a c') (bounded : Bounded c') :
    ∃ y w', Evolves y w w' ∧ Authentic S c' w' := by
  cases does with
  | idle => exact ⟨[],w,evolves_refl _ w,is⟩
  | @sendMessage x b queued => exact ⟨x,w,evolves_refl x w,authentic_send is ((is.inst x).queue b queued)⟩
  | @sendState x r listed => exact ⟨x,w,evolves_refl x w,authentic_send is ⟨_,listed_true is listed,rfl⟩⟩
  | @sendSuspect y s copied => exact ⟨y,w,evolves_refl y w,authentic_send is (is.copies y s copied).known⟩
  | @copy y r listed =>
    refine ⟨y,w,evolves_refl y w,{ is with copies := ?_ }⟩
    intro y' s member
    dsimp only at member
    by_cases same : y' = y
    · subst same
      rw [Function.update_self] at member
      rcases List.mem_append.mp member with old | new
      · exact is.copies y' s old
      · rw [List.mem_singleton.mp new]; exact listed_true is listed
    · rw [Function.update_of_ne same] at member
      exact is.copies y' s member
  | @finish x i =>
    have here := is.inst x
    refine ⟨x,w,evolves_refl x w,authentic_at is (evolves_refl x w) rfl (Function.update_eq_self ..).symm rfl rfl
      ⟨tableWF_of_same (m := c.inst x) ⟨rfl,rfl,rfl,rfl,rfl⟩ here.wf,here.config,here.up,here.counter,here.exact,
        here.left,here.born,here.own,here.records,?_⟩ (is.starting x) (is.drawn x)⟩
    exact fun b member => here.queue b (List.mem_of_mem_eraseIdx member)
  | @draw x metadata idle =>
    have here := is.inst x
    have unborn := is.starting x (by rw [idle]; simp)
    have room : (c.inst x).incarnation.adds + 1 < 2 ^ 32 := by
      have := bounded x
      simp only [Global.put,Function.update_self,setAliveMessage,Counter.add] at this
      omega
    obtain ⟨value,above⟩ := next_above here room
    let w' : World := { w with counter := Function.update w.counter x ((c.inst x).incarnation.value + 1) }
    have top : w'.counter x = (c.inst x).incarnation.value + 1 := Function.update_self ..
    have unleft : ¬ w.left x := fun left => unborn (here.born.mpr (.inr (here.left.mp left)))
    have step : Evolves x w w' :=
      ⟨fun n other => ⟨Iff.rfl,Function.update_of_ne other ..,Iff.rfl,rfl⟩,id,by rw [top]; exact UInt32.le_of_lt above,
        fun left => absurd left unleft,fun _ _ _ => rfl⟩
    have absent : entry (c.inst x) x = none := by
      by_contra present
      exact unborn (here.born.mpr (.inl present))
    have drawnTrue : InstTrue S w' x (setAliveMessage (c.inst x) (S.addr x) (S.port x) metadata).1 :=
      { wf := tableWF_of_same (m := c.inst x) ⟨rfl,rfl,rfl,rfl,rfl⟩ here.wf
        config := here.config
        up := here.up
        counter := top.symm
        exact := value
        left := here.left
        born := here.born
        own := fun s held => by
          rw [show entry (setAliveMessage (c.inst x) (S.addr x) (S.port x) metadata).1 x = none from absent] at held
          cases held
        records := fun n s held => recTrue_mono step (here.records n s held)
        queue := fun b member => msgTrue_mono step (here.queue b member) }
    refine ⟨x,w',step,authentic_at is step rfl rfl rfl rfl drawnTrue (fun _ => unborn) ?_⟩
    intro a drawn
    cases drawn
    refine ⟨inst_name here,top.symm,rfl,rfl,?_⟩
    simp only [setAliveMessage,here.config]
  | @start x msg m receipt env drawn committed =>
    have here := is.inst x
    have unborn := is.starting x (by rw [drawn]; simp)
    obtain ⟨w',step,started⟩ := inst_start here unborn (is.drawn x msg drawn) receipt env
    simp only [setAliveLocked,here.up] at committed
    cases committed
    exact ⟨x,w',step,authentic_at is step rfl rfl rfl rfl started (fun notUp => absurd rfl notUp)
      (fun _ wrong => by cases wrong)⟩
  | @critical y op told =>
    have here := is.inst y
    have room := bounded y
    simp only [Global.put,Function.update_self] at room
    obtain ⟨w',step,decided,after⟩ := inst_apply here op (fun _ => told_true is told) room
    refine ⟨y,w',step,authentic_at is step rfl (Function.update_eq_self ..).symm rfl rfl after ?_ ?_⟩
    · intro notUp
      rw [decided (is.starting y notUp)]
      exact is.starting y notUp
    · intro a drawn
      have notUp : c.phase y ≠ .up := by
        rw [show c.phase y = .drawn a from drawn]
        simp
      rw [decided (is.starting y notUp)]
      exact is.drawn y a drawn

end

/-- What holds whether or not counters wrap. -/
def Sane (S : Setup) (c : Global) : Prop :=
  ∀ x, TableWF (c.inst x) ∧ (c.inst x).config = S.conf x ∧ ∀ a, c.phase x = .drawn a → a.node = x

theorem adds_apply {m : Memberlist} (wf : TableWF m) (op : Op) :
    (apply m op).config = m.config ∧ m.incarnation.adds ≤ (apply m op).incarnation.adds :=
  (apply_invariant (I := fun m' => m'.config = m.config ∧ m.incarnation.adds ≤ m'.incarnation.adds)
    (fun _ held move => ⟨(config_move move).trans held.1,Nat.le_trans held.2 (adds_move move)⟩) wf
    ⟨rfl,Nat.le_refl _⟩ op).2

section
variable {S : Setup} {c c' : Global}

/-- An action of one instance that keeps its table and configuration, and draws
    incarnations at most. -/
theorem sane_at {y : Bytes} {m : Memberlist} {ph : Phase} (sane : Sane S c)
    (insts : c'.inst = Function.update c.inst y m) (phases : c'.phase = Function.update c.phase y ph)
    (wf : TableWF m) (config : m.config = (c.inst y).config)
    (adds : (c.inst y).incarnation.adds ≤ m.incarnation.adds) (drawn : ∀ a, ph = .drawn a → a.node = y) :
    Sane S c' ∧ ∀ x, (c.inst x).incarnation.adds ≤ (c'.inst x).incarnation.adds := by
  constructor
  · intro x
    rw [insts,phases]
    by_cases same : x = y
    · subst same
      rw [Function.update_self,Function.update_self]
      exact ⟨wf,config.trans (sane x).2.1,drawn⟩
    · rw [Function.update_of_ne same,Function.update_of_ne same]
      exact sane x
  · rw [insts]
    exact (Function.forall_update_iff c.inst (p := fun x m => (c.inst x).incarnation.adds ≤ m.incarnation.adds)).mpr
      ⟨adds,fun _ _ => Nat.le_refl _⟩

theorem sane_does {a : Action} (sane : Sane S c) (does : Does S c a c') :
    Sane S c' ∧ ∀ x, (c.inst x).incarnation.adds ≤ (c'.inst x).incarnation.adds := by
  cases does with
  | @finish x i =>
    exact sane_at sane rfl (Function.update_eq_self ..).symm
      (tableWF_of_same (m := c.inst x) ⟨rfl,rfl,rfl,rfl,rfl⟩ (sane x).1) rfl (Nat.le_refl _) (sane x).2.2
  | @draw x metadata idle =>
    refine sane_at sane rfl rfl (tableWF_of_same (m := c.inst x) ⟨rfl,rfl,rfl,rfl,rfl⟩ (sane x).1) rfl (Nat.le_succ _) ?_
    intro a drawn
    cases drawn
    show (c.inst x).config.name = x
    rw [(sane x).2.1]
    exact S.named x
  | @start x msg m receipt env drawn committed =>
    have named : msg.node = (c.inst x).config.name := by
      rw [(sane x).2.2 msg drawn,(sane x).2.1]
      exact (S.named x).symm
    obtain ⟨rfl,made⟩ := setAliveLocked_boot named committed
    refine sane_at sane rfl rfl (tableWF_boot (sane x).1 made) (config_boot made) ?_ (fun _ wrong => by cases wrong)
    generalize aliveNodeLocked (c.inst x) msg none true receipt env = m at made
    cases made <;> exact Nat.le_refl _
  | @critical y op told =>
    obtain ⟨config,adds⟩ := adds_apply (sane y).1 op
    exact sane_at sane rfl (Function.update_eq_self ..).symm (tableWF_apply (sane y).1 op) config adds (sane y).2.2
  | _ => exact ⟨sane,fun _ => Nat.le_refl _⟩

theorem sane_initial (S : Setup) : Sane S (initial S) :=
  fun _ => ⟨tableWF_build _,rfl,fun _ drawn => by cases drawn⟩

theorem sane_acts (sane : Sane S c) (actions : List Action) : Sane S (acts S c actions) := by
  induction actions generalizing c with
  | nil => exact sane
  | cons a actions ih => exact ih (sane_does sane (act_does S c a)).1

/-- A bounded state was bounded before. -/
theorem bounded_act (sane : Sane S c) (a : Action) (bounded : Bounded (act S c a)) : Bounded c :=
  fun x => Nat.lt_of_le_of_lt ((sane_does sane (act_does S c a)).2 x) (bounded x)

theorem bounded_acts (sane : Sane S c) (actions : List Action) (bounded : Bounded (acts S c actions)) : Bounded c := by
  induction actions generalizing c with
  | nil => exact bounded
  | cons a actions ih => exact bounded_act sane a (ih (sane_does sane (act_does S c a)).1 bounded)

end

/-- Every state that the cluster reaches without a wrap is authentic. -/
theorem authentic_reaches {S : Setup} {c : Global} (reached : Reaches S c) (bounded : Bounded c) :
    ∃ w, Authentic S c w := by
  obtain ⟨actions,rfl⟩ := reached
  induction actions using List.reverseRecOn with
  | nil => exact ⟨noDecisions,authentic_initial S⟩
  | append_singleton actions a ih =>
    rw [acts_snoc] at bounded ⊢
    have before := bounded_act (sane_acts (sane_initial S) actions) a bounded
    obtain ⟨w,is⟩ := ih before
    obtain ⟨y,w',-,is'⟩ := authentic_does is (act_does S _ a) bounded
    exact ⟨w',is'⟩

/-- In every state reached without a wrap, every incarnation attached to a node, in
    a table, a queue or a message under way, is at most the node's own counter, and
    the node's own record carries the counter. If a record or a message says that
    the node left, it has committed `LeaveContext`. -/
theorem incarnation_authority (S : Setup) {c : Global} (reached : Reaches S c) (bounded : Bounded c) (x : Bytes) :
    ((∀ y s, entry (c.inst y) x = some s → s.incarnation ≤ (c.inst x).incarnation.value) ∧
      (∀ y, ∀ b ∈ (c.inst y).broadcasts, b.msg.node = x → b.msg.incarnation ≤ (c.inst x).incarnation.value) ∧
      (∀ p ∈ c.net, p.node = x → p.incarnation ≤ (c.inst x).incarnation.value) ∧
      (∀ s, entry (c.inst x) x = some s → s.incarnation = (c.inst x).incarnation.value)) ∧
    ((∃ y s, entry (c.inst y) x = some s ∧ s.state = .left) ∨
        (∃ d, .gossip (.dead d) ∈ c.net ∧ d.node = x ∧ d.from_ = x) ∨
        (∃ r, .state r ∈ c.net ∧ r.name = x ∧ r.state = NodeStateType.left.toInt) →
      (c.inst x).leave = true) := by
  obtain ⟨w,is⟩ := authentic_reaches reached bounded
  have top := (is.inst x).counter
  have messages : ∀ {msg : Message}, MsgTrue S w msg → msg.node = x → msg.incarnation ≤ w.counter x := by
    rintro msg isTrue rfl
    cases msg with
    | alive a => exact isTrue.known.bound
    | suspect s => exact isTrue.bound
    | dead d => exact isTrue.known.bound
  rw [top]
  refine ⟨⟨?_,?_,?_,?_⟩,?_⟩
  · intro y s held
    have known := ((is.inst y).records x s held).known.bound
    rwa [entry_name (is.inst y).wf held] at known
  · intro y b member node
    exact messages ((is.inst y).queue b member) node
  · intro p sent node
    cases p with
    | gossip msg => exact messages (is.net _ sent) node
    | state r =>
      obtain ⟨s,isTrue,rfl⟩ := is.net _ sent
      have node : s.name = x := node
      subst node
      exact isTrue.known.bound
  · intro s held
    exact ((is.inst x).own s held).1
  · rw [← (is.inst x).left]
    rintro (⟨y,s,held,isLeft⟩ | ⟨d,sent,rfl,self⟩ | ⟨r,sent,rfl,isLeft⟩)
    · have said := (((is.inst y).records x s held).left isLeft).1
      rwa [entry_name (is.inst y).wf held] at said
    · have isTrue : DeadTrue w d := is.net _ sent
      exact (isTrue.left self.symm).1
    · obtain ⟨s,isTrue,rfl⟩ := is.net _ sent
      exact (isTrue.left (pushState_left isLeft)).1

/-- No counter has wrapped if none of the instances that act has wrapped its own. -/
theorem bounded_of_actors (S : Setup) (actors : List Bytes) {actions : List Action}
    (only : ∀ a ∈ actions, a.actor ∈ actors)
    (each : ∀ x ∈ actors, ((acts S (initial S) actions).inst x).incarnation.adds < 2 ^ 32 - 1) :
    Bounded (acts S (initial S) actions) := by
  intro x
  by_cases member : x ∈ actors
  · exact each x member
  · have quiet : ∀ a ∈ actions, x ≠ a.actor := fun a listed same => member (same ▸ only a listed)
    rw [acts_other S quiet]
    exact Nat.lt_of_lt_of_le Nat.zero_lt_one (by decide)

/-- Instances with default configurations at one address. -/
def plain : Setup where
  conf x := { name := x }
  addr _ := some [10,0,0,1]
  port _ := 7946
  named _ := rfl

/-- The node `a` starts and its message is under way. -/
def announced : List Action := [.draw [97] none,.start [97] none {},.gossip [97] 0]

theorem announced_bounded : Bounded (acts plain (initial plain) announced) :=
  bounded_of_actors plain [[97]] (by decide) (by decide)

theorem incarnation_authority_announced :
    Bounded (acts plain (initial plain) announced) ∧
      ∀ p ∈ (acts plain (initial plain) announced).net, p.node = [97] →
        p.incarnation ≤ ((acts plain (initial plain) announced).inst [97]).incarnation.value :=
  ⟨announced_bounded,(incarnation_authority plain ⟨announced,rfl⟩ announced_bounded [97]).1.2.2.1⟩

/-- Two live records of one node and incarnation agree on its address, metadata and
    versions, and on its port where every instance keeps the advertised one. -/
theorem live_records_agree (S : Setup) {c : Global} (reached : Reaches S c) (bounded : Bounded c) {x y z : Bytes}
    {s t : NodeState} (first : entry (c.inst y) x = some s) (second : entry (c.inst z) x = some t)
    (alive : s.state = .alive) (alive' : t.state = .alive) (same : s.incarnation = t.incarnation) :
    ipEqual (bytes s.addr) (bytes t.addr) = true ∧ bytes s.metadata = bytes t.metadata ∧ s.vsn = t.vsn ∧
      ((∀ n, 2 ≤ (S.conf n).protocolVersion) → UInt16.ofInt (S.port x) ≠ 0 → s.port = t.port) := by
  obtain ⟨w,is⟩ := authentic_reaches reached bounded
  obtain ⟨-,addr,port,vsn,said,-⟩ := (is.inst y).records x s first
  obtain ⟨-,addr',port',vsn',said',-⟩ := (is.inst z).records x t second
  rw [entry_name (is.inst y).wf first] at addr port vsn said
  rw [entry_name (is.inst z).wf second] at addr' port' vsn' said'
  refine ⟨?_,?_,vsn.trans vsn'.symm,?_⟩
  · rw [addr,addr']; exact ipEqual_refl _
  · rw [said alive,said' alive',same]
  · intro speak given
    exact (port ⟨speak,given⟩).trans (port' ⟨speak,given⟩).symm

/-- The node `b` speaks protocol 1, where messages carry no port. -/
def masking : Setup where
  conf x := if x = [98] then { name := x, protocolVersion := 1, bindPort := 8000 } else { name := x }
  addr _ := some [10,0,0,1]
  port _ := 7946
  named x := by split <;> rfl

/-- The node `b` hears of `a` and stores its own configured port for it. -/
def heard : List Action := announced ++ [.deliver [98] 0 {}]

theorem live_records_disagree :
    Bounded (acts masking (initial masking) heard) ∧
      ∃ s t, entry ((acts masking (initial masking) heard).inst [97]) [97] = some s ∧
        entry ((acts masking (initial masking) heard).inst [98]) [97] = some t ∧ s.state = .alive ∧ t.state = .alive ∧
        s.incarnation = t.incarnation ∧ s.port = 7946 ∧ t.port = 8000 :=
  ⟨bounded_of_actors masking [[97],[98]] (by decide) (by decide),
    _,_,rfl,rfl,by decide,by decide,by decide,by decide,by decide⟩

theorem heard_bounded : Bounded (acts plain (initial plain) heard) :=
  bounded_of_actors plain [[97],[98]] (by decide) (by decide)

theorem live_records_agree_plain :
    Bounded (acts plain (initial plain) heard) ∧
      ∃ s t, entry ((acts plain (initial plain) heard).inst [97]) [97] = some s ∧
        entry ((acts plain (initial plain) heard).inst [98]) [97] = some t ∧
        (ipEqual (bytes s.addr) (bytes t.addr) = true ∧ bytes s.metadata = bytes t.metadata ∧ s.vsn = t.vsn ∧
          ((∀ n, 2 ≤ (plain.conf n).protocolVersion) → UInt16.ofInt (plain.port [97]) ≠ 0 → s.port = t.port)) :=
  ⟨heard_bounded,_,_,rfl,rfl,
    live_records_agree plain ⟨heard,rfl⟩ heard_bounded (y := [97]) (z := [98]) rfl rfl rfl rfl rfl⟩

end Mori.Authority
