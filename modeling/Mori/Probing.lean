import Mori.LocalNode

/-!
The node list as the failure detector walks it. Between two critical sections
the list, the map and the counter describe one table, which records leave only
through `resetNodes`. `probe` reads the list in one section, advances its index
outside of it and resets the list in another; every other section may run in
between, and each may put a record at any offset. No record of a pass is missed:
one that has not been examined stands at the index or behind it.
-/
namespace Mori.Probing
open Mori.Net Mori.Protocol Mori.State Mori.Table Mori.Moves Mori.LocalNode

section
variable {m m' : Memberlist} {op : Op} {n : Bytes} {r : Ref}

/-- A new name replaces none. -/
theorem nodeMap_addNode {s : NodeState} (absent : m.nodeMap s.name = none) (draw : Nat) (held : m.nodeMap n = some r) :
    (addNode m s draw).nodeMap n = some r := by
  have different : n ≠ s.name := by
    rintro rfl
    rw [absent] at held
    cases held
  simp only [addNode,Function.update_of_ne different,held]

theorem nodeMap_move (other : ¬ IsReset op) (held : m.nodeMap n = some r) (move : Move m op m') :
    m'.nodeMap n = some r := by
  cases move with
  | add absent => exact nodeMap_addNode absent _ held
  | reset => exact absurd trivial other
  | _ => exact held

theorem nodeMap_apply (wf : TableWF m) (other : ¬ IsReset op) (held : m.nodeMap n = some r) :
    (apply m op).nodeMap n = some r :=
  (apply_keeps (I := fun m => m.nodeMap n = some r) (P := fun op => ¬ IsReset op) resolve_not_reset
    (fun other _ held move => nodeMap_move other held move) wf held other).2

theorem nodeMap_boot {a : Alive} (held : m.nodeMap n = some r) (boot : Boot m a m') : m'.nodeMap n = some r := by
  cases boot with
  | @first vsn offset _ _ absent => exact nodeMap_addNode (s := newRecord a vsn) absent offset held
  | _ => exact held

/-- The list holds the records that the map leads to, each once. -/
theorem nodeMap_iff (wf : TableWF m) : m.nodeMap n = some r ↔ r ∈ m.nodes ∧ (m.heap r).name = n := by
  constructor
  · intro held
    exact ⟨(wf.listed r).mpr ⟨n,held⟩,wf.named n r held⟩
  · rintro ⟨listed,named⟩
    obtain ⟨n',held⟩ := (wf.listed r).mp listed
    have same : n' = n := (wf.named n' r held).symm.trans named
    rw [← same,held]

theorem nodup_names (wf : TableWF m) : (m.nodes.map (fun r => (m.heap r).name)).Nodup := by
  refine List.Nodup.map_on ?_ wf.nodup
  intro r listed r' listed' same
  have held := (nodeMap_iff wf (n := (m.heap r).name)).mpr ⟨listed,rfl⟩
  have held' := (nodeMap_iff wf (n := (m.heap r).name)).mpr ⟨listed',same.symm⟩
  exact Option.some.inj (held.symm.trans held')

/-- Between critical sections the list has no nil and no name twice, the map leads
    from the names of its records to exactly these, and the counter has its length;
    a record leaves the table only through `resetNodes`. -/
theorem table_consistent {conf : Config} (reached : Reachable conf m) :
    (0 ∉ m.nodes ∧ (m.nodes.map (fun r => (m.heap r).name)).Nodup ∧
      (∀ n r, m.nodeMap n = some r ↔ r ∈ m.nodes ∧ (m.heap r).name = n) ∧
      m.numNodes = UInt32.ofNat m.nodes.length ∧
      (m.nodes.length < 2 ^ 32 → m.numNodes.toNat = m.nodes.length)) ∧
    ∀ n r, m.nodeMap n = some r →
      (∀ op, ¬ IsReset op → (apply m op).nodeMap n = some r) ∧
      (∀ addr port metadata, (setAliveMessage m addr port metadata).1.nodeMap n = some r) ∧
      ∀ a receipt env m', a.node = conf.name → setAliveLocked m a receipt env = .ok m' → m'.nodeMap n = some r := by
  obtain ⟨wf,config⟩ := tableWF_reachable reached
  refine ⟨⟨fun listed => Nat.lt_irrefl 0 (wf.notNil 0 listed),nodup_names wf,fun n r => nodeMap_iff wf,wf.counted,?_⟩,?_⟩
  · intro short
    rw [wf.counted]
    exact UInt32.toNat_ofNat_of_lt' short
  · intro n r held
    refine ⟨fun op other => nodeMap_apply wf other held,fun _ _ _ => held,?_⟩
    intro a receipt env m' named committed
    exact nodeMap_boot held (setAliveLocked_boot (named.trans (congrArg Config.name config.symm)) committed).2

end

/-- A node `a` that knows of `b`. -/
def pair : Memberlist := aliveNode restarted ⟨1,[98],some [10,0,0,2],7946,none,some [1,5,2,0,0,0]⟩ false {}

theorem reachable_pair : Reachable restarting pair :=
  .step reachable_restarted (.alive ⟨1,[98],some [10,0,0,2],7946,none,some [1,5,2,0,0,0]⟩ {})

theorem table_consistent_pair :
    (pair.nodes.map (fun r => (pair.heap r).name)).Nodup ∧ pair.numNodes = 2 ∧
      (apply pair (.dead ⟨1,[98],[98]⟩ {})).nodeMap [98] = some 2 := by
  obtain ⟨⟨-,distinct,-,counted,-⟩,kept⟩ := table_consistent reachable_pair
  exact ⟨distinct,counted,(kept [98] 2 rfl).1 _ id⟩

/-- Where a call of `probe` stands: outside of one, at its label, before and after
    `resetNodes`, between the section that reads the list and the increment, and
    before `probeNode`. -/
inductive Phase where
  | idle
  | start (numCheck : Nat)
  | wrap (numCheck : Nat)
  | restart (numCheck : Nat)
  | advance (numCheck : Nat) (node : NodeState) (skip : Bool)
  | probe (node : NodeState)

/-- What `probe` does to a record: it reads it, or calls `probeNode` with a copy. -/
inductive Event where
  | examined (r : Ref) (node : NodeState)
  | probed (node : NodeState)

/-- The list right after a call of `resetNodes` and what happened since. -/
structure Pass where
  listed : List Ref := []
  events : List Event := []

/-- An instance with its failure detector. No code reads `pass` and `passes`: the
    current pass, and those that a later call of `resetNodes` has ended. -/
structure Prober where
  m : Memberlist
  probeIndex : Nat := 0
  phase : Phase := .idle
  pass : Pass := {}
  passes : List Pass := []

/-- The local node and the dead are not probed. -/
def skips (conf : Config) (node : NodeState) : Bool := node.name == conf.name || node.deadOrLeft

/-- The read section of `probe`. -/
def check (p : Prober) (numCheck : Nat) : Prober :=
  if p.m.nodes.length ≤ numCheck then { p with phase := .idle }
  else if p.m.nodes.length ≤ p.probeIndex then { p with phase := .wrap numCheck }
  else
    let r := p.m.nodes.getD p.probeIndex 0
    let node := p.m.heap r
    { p with
      phase := .advance numCheck node (skips p.m.config node)
      pass := { p.pass with events := p.pass.events ++ [.examined r node] } }

/-- The next step of `probe`. -/
def probeStep (p : Prober) (now : Time) (draws : Nat → Nat) : Prober :=
  match p.phase with
  | .idle => p
  | .start numCheck => check p numCheck
  | .wrap numCheck =>
    let m := resetNodes p.m now draws
    { p with m := m, phase := .restart numCheck, pass := { listed := m.nodes }, passes := p.passes ++ [p.pass] }
  | .restart numCheck => { p with probeIndex := 0, phase := .start (numCheck + 1) }
  | .advance numCheck node skip =>
    { p with probeIndex := p.probeIndex + 1, phase := if skip then .start (numCheck + 1) else .probe node }
  | .probe node =>
    { p with phase := .idle, pass := { p.pass with events := p.pass.events ++ [.probed node] } }

/-- A tick of the ticker, which runs one call of `probe` at a time, a step of that
    call, or a critical section of another goroutine. -/
inductive Act where
  | tick
  | step (now : Time) (draws : Nat → Nat)
  | other (op : Op)

def act (p : Prober) : Act → Prober
  | .tick => if p.phase matches .idle then { p with phase := .start 0 } else p
  | .step now draws => probeStep p now draws
  | .other op => { p with m := apply p.m op }

def runActs (p : Prober) (acts : List Act) : Prober := acts.foldl act p

section
variable {conf : Config} {m m' : Memberlist} {op : Op} {r : Ref} {p : Prober}

/-- The record stands at the index or behind it. -/
def Ahead (m : Memberlist) (index : Nat) (r : Ref) : Prop :=
  ∃ i, index ≤ i ∧ i < m.nodes.length ∧ m.nodes.getD i 0 = r

/-- A record that makes room for a new one moves to the end. -/
theorem ahead_addNode {index : Nat} (s : NodeState) (draw : Nat) (ahead : Ahead m index r) :
    Ahead (addNode m s draw) index r := by
  obtain ⟨i,behind,inside,here⟩ := ahead
  have offset : randomOffset draw m.nodes.length < (m.nodes ++ [m.alloc]).length := by
    rw [List.length_append,List.length_singleton]
    exact Nat.lt_succ_of_le (randomOffset_le draw m.nodes.length)
  have last : m.nodes.length < (m.nodes ++ [m.alloc]).length := by simp
  have old : ∀ k, k < m.nodes.length → (m.nodes ++ [m.alloc]).getD k 0 = m.nodes.getD k 0 := by
    intro k below
    rw [List.getD_eq_getElem?_getD,List.getElem?_append_left below,List.getD_eq_getElem?_getD]
  by_cases moved : i = randomOffset draw m.nodes.length
  · refine ⟨m.nodes.length,by omega,by simp [addNode,swap_length],?_⟩
    rw [addNode,swap_getD offset last,if_pos rfl,← moved,old i inside,here]
  · refine ⟨i,behind,by simp only [addNode,swap_length,List.length_append]; omega,?_⟩
    rw [addNode,swap_getD offset last,if_neg (Nat.ne_of_lt inside),if_neg moved,old i inside,here]

theorem ahead_move {index : Nat} (other : ¬ IsReset op) (ahead : Ahead m index r) (move : Move m op m') :
    Ahead m' index r := by
  cases move with
  | add => exact ahead_addNode _ _ ahead
  | reset => exact absurd trivial other
  | _ => exact ahead

theorem ahead_apply {index : Nat} (wf : TableWF m) (other : ¬ IsReset op) (ahead : Ahead m index r) :
    Ahead (apply m op) index r :=
  (apply_keeps (I := fun m => Ahead m index r) (P := fun op => ¬ IsReset op) resolve_not_reset
    (fun other _ ahead move => ahead_move other ahead move) wf ahead other).2

/-- Where the records not examined yet stand, given the phase. None is left once
    the index was seen to be at the end. -/
def cursor (probeIndex : Nat) : Phase → Option Nat
  | .wrap _ => none
  | .restart _ => some 0
  | .advance .. => some (probeIndex + 1)
  | _ => some probeIndex

/-- Every examination of a record that is not to be skipped is followed by a call
    of `probeNode`. -/
def Answered (conf : Config) : List Event → Prop
  | [] => True
  | .probed _ :: rest => Answered conf rest
  | .examined _ node :: rest => (skips conf node = false → rest.head? = some (.probed node)) ∧ Answered conf rest

theorem answered_append {first second : List Event} (before : Answered conf first) (after : Answered conf second) :
    Answered conf (first ++ second) := by
  induction first with
  | nil => exact after
  | cons event first ih =>
    cases event with
    | probed node => exact ih before
    | examined r node =>
      refine ⟨fun wanted => ?_,ih before.2⟩
      show (first ++ second).head? = some (.probed node)
      rw [List.head?_append,before.1 wanted]
      rfl

/-- The call of `probeNode` that follows an examination. -/
theorem probed_of_answered {events : List Event} {node : NodeState} (answered : Answered conf events)
    (examined : .examined r node ∈ events) (wanted : skips conf node = false) :
    ∃ before after, events = before ++ .examined r node :: .probed node :: after := by
  induction events with
  | nil => cases examined
  | cons event events ih =>
    rcases List.mem_cons.mp examined with here | later
    · subst here
      obtain ⟨after,rest⟩ := List.head?_eq_some_iff.mp (answered.1 wanted)
      exact ⟨[],after,by rw [rest]; rfl⟩
    · have tail : Answered conf events := by
        cases event with
        | probed node => exact answered
        | examined r node => exact answered.2
      obtain ⟨before,after,split⟩ := ih tail later
      exact ⟨event :: before,after,by rw [split]; rfl⟩

/-- Every record of the pass was examined, and probed where it was not to be skipped. -/
def Complete (conf : Config) (pass : Pass) : Prop :=
  Answered conf pass.events ∧ ∀ r ∈ pass.listed, ∃ node, .examined r node ∈ pass.events

/-- The events of the pass are answered but for the examination in progress. -/
def InProgress (conf : Config) (events : List Event) : Phase → Prop
  | .advance _ node skip => skip = skips conf node ∧ ∃ r before, events = before ++ [.examined r node] ∧
      Answered conf before
  | .probe node => ∃ r before, events = before ++ [.examined r node] ∧ Answered conf before
  | _ => Answered conf events

structure Sound (conf : Config) (p : Prober) : Prop where
  wf : TableWF p.m
  config : p.m.config = conf
  current : InProgress conf p.pass.events p.phase
  pending : ∀ r ∈ p.pass.listed, (∃ node, .examined r node ∈ p.pass.events) ∨
    ∃ index ∈ cursor p.probeIndex p.phase, Ahead p.m index r
  ended : ∀ pass ∈ p.passes, Complete conf pass

theorem sound_other (sound : Sound conf p) (other : ¬ IsReset op) : Sound conf (act p (.other op)) :=
  { sound with
    wf := tableWF_apply sound.wf op
    config := by
      have kept := apply_invariant (I := fun m => m.config = conf) (fun _ held move => (config_move move).trans held)
        sound.wf sound.config op
      exact kept.2
    pending := by
      intro r listed
      rcases sound.pending r listed with examined | ⟨index,indexed,ahead⟩
      · exact .inl examined
      · exact .inr ⟨index,indexed,ahead_apply sound.wf other ahead⟩ }

/-- The record at the index is examined; the others not examined yet are behind it. -/
theorem ahead_next {index : Nat} (ahead : Ahead m index r) (other : m.nodes.getD index 0 ≠ r) : Ahead m (index + 1) r := by
  obtain ⟨i,behind,inside,here⟩ := ahead
  refine ⟨i,?_,inside,here⟩
  have different : i ≠ index := by
    rintro rfl
    exact other here
  omega

theorem sound_check (sound : Sound conf p) {numCheck : Nat} (phase : p.phase = .start numCheck) :
    Sound conf (check p numCheck) := by
  have current := sound.current
  have pending := sound.pending
  rw [phase] at current pending
  unfold check
  split_ifs with enough wrapped
  · exact ⟨sound.wf,sound.config,current,pending,sound.ended⟩
  · refine ⟨sound.wf,sound.config,current,?_,sound.ended⟩
    -- Nothing stands behind the end of the list.
    intro r listed
    rcases pending r listed with examined | ⟨index,indexed,i,behind,inside,-⟩
    · exact .inl examined
    · have same : p.probeIndex = index := Option.some.inj indexed
      omega
  · refine ⟨sound.wf,sound.config,⟨by rw [sound.config],_,_,rfl,current⟩,?_,sound.ended⟩
    intro r listed
    rcases pending r listed with ⟨node,examined⟩ | ⟨index,indexed,ahead⟩
    · exact .inl ⟨node,List.mem_append_left _ examined⟩
    · have same : p.probeIndex = index := Option.some.inj indexed
      subst same
      by_cases here : p.m.nodes.getD p.probeIndex 0 = r
      · refine .inl ⟨p.m.heap r,List.mem_append_right _ ?_⟩
        rw [← here]
        exact List.mem_singleton_self _
      · exact .inr ⟨_,rfl,ahead_next ahead here⟩

/-- A pass that is being ended is complete. -/
theorem complete_of_wrap (sound : Sound conf p) {numCheck : Nat} (phase : p.phase = .wrap numCheck) :
    Complete conf p.pass := by
  have current := sound.current
  rw [phase] at current
  refine ⟨current,fun r listed => ?_⟩
  rcases sound.pending r listed with examined | ⟨index,indexed,-⟩
  · exact examined
  · rw [phase] at indexed
    cases indexed

theorem answered_examined {events : List Event} {node : NodeState} (last : List Event)
    (current : ∃ r before, events = before ++ [.examined r node] ∧ Answered conf before)
    (followed : skips conf node = false → last.head? = some (.probed node)) (rest : Answered conf last) :
    Answered conf (events ++ last) := by
  obtain ⟨r,before,rfl,answered⟩ := current
  rw [List.append_assoc]
  exact answered_append answered ⟨followed,rest⟩

theorem sound_probeStep (sound : Sound conf p) (now : Time) (draws : Nat → Nat) : Sound conf (probeStep p now draws) := by
  have current := sound.current
  have pending := sound.pending
  unfold probeStep
  cases phase : p.phase with
  | idle => exact sound
  | start numCheck => exact sound_check sound phase
  | wrap numCheck =>
    refine ⟨tableWF_resetNodes now draws sound.wf,sound.config,trivial,?_,?_⟩
    · intro r listed
      obtain ⟨i,inside,here⟩ := List.mem_iff_getElem.mp listed
      refine .inr ⟨0,rfl,i,Nat.zero_le i,inside,?_⟩
      rw [getD_of_lt inside]
      exact here
    · intro pass member
      rcases List.mem_append.mp member with old | new
      · exact sound.ended pass old
      · rw [List.mem_singleton.mp new]
        exact complete_of_wrap sound phase
  | restart numCheck =>
    rw [phase] at current pending
    exact ⟨sound.wf,sound.config,current,pending,sound.ended⟩
  | advance numCheck node skip =>
    rw [phase] at current pending
    obtain ⟨known,current⟩ := current
    cases skip with
    | true =>
      refine ⟨sound.wf,sound.config,?_,pending,sound.ended⟩
      have skipped : ¬ skips conf node = false := by
        rw [← known]
        decide
      have answered := answered_examined [] current (fun wanted => absurd wanted skipped) trivial
      rw [List.append_nil] at answered
      exact answered
    | false => exact ⟨sound.wf,sound.config,current,pending,sound.ended⟩
  | probe node =>
    rw [phase] at current pending
    refine ⟨sound.wf,sound.config,?_,?_,sound.ended⟩
    · exact answered_examined _ current (fun _ => rfl) trivial
    · intro r listed
      rcases pending r listed with ⟨examined,member⟩ | ahead
      · exact .inl ⟨examined,List.mem_append_left _ member⟩
      · exact .inr ahead

theorem sound_tick (sound : Sound conf p) : Sound conf (act p .tick) := by
  have current := sound.current
  have pending := sound.pending
  unfold act
  cases phase : p.phase with
  | idle =>
    rw [phase] at current pending
    exact ⟨sound.wf,sound.config,current,pending,sound.ended⟩
  | _ => exact sound

theorem sound_runActs (sound : Sound conf p) {acts : List Act} (others : ∀ op, .other op ∈ acts → ¬ IsReset op) :
    Sound conf (runActs p acts) := by
  induction acts generalizing p with
  | nil => exact sound
  | cons a acts ih =>
    refine ih ?_ (fun op member => others op (List.mem_cons_of_mem a member))
    cases a with
    | tick => exact sound_tick sound
    | step now draws => exact sound_probeStep sound now draws
    | other op => exact sound_other sound (others op List.mem_cons_self)

end

def isExamined : Event → Bool
  | .examined .. => true
  | .probed _ => false

/-- How many records `probe` has examined so far. -/
def examinations (p : Prober) : Nat := ((p.passes ++ [p.pass]).flatMap Pass.events).countP isExamined

def isStep : Act → Bool
  | .step .. => true
  | _ => false

/-- Other goroutines insert no record. -/
def Quiet : Prober → List Act → Prop
  | _,[] => True
  | p,.other op :: acts => (apply p.m op).nodes = p.m.nodes ∧ Quiet (act p (.other op)) acts
  | p,a :: acts => Quiet (act p a) acts

/-- How many steps the call makes at most, in a table of that size. -/
def stepsLeft (size : Nat) : Phase → Nat
  | .idle => 0
  | .start numCheck => 3 * (size - numCheck) + 1
  | .wrap numCheck => 3 * (size - numCheck)
  | .restart numCheck => 3 * (size - numCheck) - 1
  | .advance numCheck _ _ => 3 * (size - numCheck)
  | .probe _ => 1

/-- Each examination but the last has raised `numCheck`, which stays below the size. -/
def Spent (size examined : Nat) : Phase → Prop
  | .idle => examined ≤ size
  | .start numCheck => numCheck ≤ size ∧ examined ≤ numCheck
  | .wrap numCheck => numCheck < size ∧ examined ≤ numCheck
  | .restart numCheck => numCheck < size ∧ examined ≤ numCheck
  | .advance numCheck _ _ => numCheck < size ∧ examined ≤ numCheck + 1
  | .probe _ => examined ≤ size

section
variable {p : Prober} {size base : Nat}

/-- A call in a table of at most that size, which began after so many examinations. -/
structure Within (size base : Nat) (p : Prober) : Prop where
  bounded : p.m.nodes.length ≤ size
  spent : Spent size (examinations p - base) p.phase

theorem resetNodes_length (m : Memberlist) (now : Time) (draws : Nat → Nat) :
    (resetNodes m now draws).nodes.length ≤ m.nodes.length := by
  obtain ⟨perm,bound,-⟩ := moveDeadNodes_spec m.heap m.nodes m.config.gossipToTheDeadTime now
  show (shuffleNodes draws _).length ≤ _
  rw [(shuffleNodes_perm draws _).length_eq,List.length_take]
  omega

theorem within_probeStep (within : Within size base p) (now : Time) (draws : Nat → Nat) :
    Within size base (probeStep p now draws) ∧
      stepsLeft size (probeStep p now draws).phase ≤ stepsLeft size p.phase - 1 := by
  obtain ⟨bounded,spent⟩ := within
  unfold probeStep
  cases phase : p.phase with
  | idle =>
    refine ⟨⟨bounded,spent⟩,?_⟩
    rw [phase]
    exact Nat.zero_le _
  | start numCheck =>
    rw [phase] at spent
    simp only [check]
    split_ifs with enough wrapped
    · exact ⟨⟨bounded,Nat.le_trans spent.2 spent.1⟩,Nat.zero_le _⟩
    · refine ⟨⟨bounded,by omega,spent.2⟩,?_⟩
      simp only [stepsLeft]
      omega
    · refine ⟨⟨bounded,by omega,?_⟩,?_⟩
      · have one : examinations { p with
            phase := .advance numCheck (p.m.heap (p.m.nodes.getD p.probeIndex 0))
              (skips p.m.config (p.m.heap (p.m.nodes.getD p.probeIndex 0)))
            pass := { p.pass with events := p.pass.events ++
              [.examined (p.m.nodes.getD p.probeIndex 0) (p.m.heap (p.m.nodes.getD p.probeIndex 0))] } } =
            examinations p + 1 := by
          simp [examinations,isExamined,Nat.add_assoc]
        have before := spent.2
        dsimp only at one ⊢
        omega
      · simp only [stepsLeft]
        omega
  | wrap numCheck =>
    rw [phase] at spent
    have shorter := resetNodes_length p.m now draws
    have same : examinations { p with
        m := resetNodes p.m now draws
        phase := .restart numCheck
        pass := { listed := (resetNodes p.m now draws).nodes }
        passes := p.passes ++ [p.pass] } = examinations p := by
      simp [examinations]
    refine ⟨⟨Nat.le_trans shorter bounded,spent.1,?_⟩,Nat.le_refl _⟩
    rw [same]
    exact spent.2
  | restart numCheck =>
    rw [phase] at spent
    refine ⟨⟨bounded,spent.1,Nat.le_succ_of_le spent.2⟩,?_⟩
    have below := spent.1
    simp only [stepsLeft]
    omega
  | advance numCheck node skip =>
    rw [phase] at spent
    have below := spent.1
    cases skip with
    | true =>
      refine ⟨⟨bounded,spent.1,spent.2⟩,?_⟩
      simp only [stepsLeft,if_true]
      omega
    | false =>
      refine ⟨⟨bounded,Nat.le_trans spent.2 below⟩,?_⟩
      simp only [stepsLeft,Bool.false_eq_true,if_false]
      omega
  | probe node =>
    rw [phase] at spent
    have same : examinations { p with
        phase := .idle
        pass := { p.pass with events := p.pass.events ++ [.probed node] } } = examinations p := by
      simp [examinations,isExamined]
    refine ⟨⟨bounded,?_⟩,Nat.zero_le _⟩
    rw [same]
    exact spent

theorem within_call {call : List Act} (within : Within size base p) (quiet : Quiet p call) (single : .tick ∉ call) :
    Within size base (runActs p call) ∧
      stepsLeft size (runActs p call).phase ≤ stepsLeft size p.phase - call.countP isStep := by
  induction call generalizing p with
  | nil => exact ⟨within,Nat.le_refl _⟩
  | cons a call ih =>
    have rest : .tick ∉ call := fun later => single (List.mem_cons_of_mem a later)
    cases a with
    | tick => exact absurd List.mem_cons_self single
    | step now draws =>
      obtain ⟨within',fewer⟩ := within_probeStep within now draws
      obtain ⟨held,fewer⟩ := ih within' quiet rest
      have counted : (Act.step now draws :: call).countP isStep = call.countP isStep + 1 := List.countP_cons_of_pos rfl
      refine ⟨held,?_⟩
      rw [counted]
      change stepsLeft size (runActs (probeStep p now draws) call).phase ≤ _
      omega
    | other op =>
      have within' : Within size base (act p (.other op)) := ⟨by rw [act,quiet.1]; exact within.bounded,within.spent⟩
      obtain ⟨held,fewer⟩ := ih within' quiet.2 rest
      have counted : (Act.other op :: call).countP isStep = call.countP isStep := List.countP_cons_of_neg Bool.false_ne_true
      refine ⟨held,?_⟩
      rw [counted]
      exact fewer

theorem idle_of_stepsLeft (within : Within size base p) (zero : stepsLeft size p.phase = 0) : p.phase = .idle := by
  have spent := within.spent
  cases phase : p.phase with
  | idle => rfl
  | start numCheck =>
    rw [phase] at zero
    cases zero
  | probe node =>
    rw [phase] at zero
    cases zero
  | _ =>
    rw [phase] at zero spent
    have below := spent.1
    simp only [stepsLeft] at zero
    omega

end

/-- Every record that is in the list right after a call of `resetNodes` is examined
    before the next call, and each examination of a record that is neither the local
    one nor dead or left is followed by a call of `probeNode`. A call of `probe`
    during which no record is inserted ends, and examines no more records than the
    list had at its start. -/
theorem probe_skips_nobody {conf : Config} {m : Memberlist} (reached : Reachable conf m) {acts : List Act}
    (others : ∀ op, .other op ∈ acts → ¬ IsReset op) {p : Prober} (run : p = runActs { m := m } acts) :
    (∀ pass ∈ p.passes, ∀ r ∈ pass.listed, (∃ node, .examined r node ∈ pass.events) ∧
      ∀ node, .examined r node ∈ pass.events → node.name ≠ conf.name → node.deadOrLeft = false →
        ∃ before after, pass.events = before ++ .examined r node :: .probed node :: after) ∧
    (p.phase = .idle → ∀ call, .tick ∉ call → Quiet (act p .tick) call →
      examinations (runActs (act p .tick) call) ≤ examinations p + p.m.nodes.length ∧
      (3 * p.m.nodes.length + 1 ≤ call.countP isStep → (runActs (act p .tick) call).phase = .idle)) := by
  obtain ⟨wf,config⟩ := tableWF_reachable reached
  constructor
  · intro pass ended r listed
    have start : Sound conf { m := m } :=
      ⟨wf,config,trivial,fun r listed => (List.not_mem_nil listed).elim,fun pass member => (List.not_mem_nil member).elim⟩
    have sound := sound_runActs start others
    rw [← run] at sound
    obtain ⟨answered,examined⟩ := sound.ended pass ended
    refine ⟨examined r listed,?_⟩
    intro node member remote live
    have wanted : skips conf node = false := by
      simp [skips,remote,live]
    exact probed_of_answered answered member wanted
  · intro idle call single quiet
    have begun : act p .tick = { p with phase := .start 0 } := by
      rw [act,idle]
      rfl
    have within : Within p.m.nodes.length (examinations p) (act p .tick) := by
      rw [begun]
      refine ⟨Nat.le_refl _,Nat.zero_le _,?_⟩
      show examinations p - examinations p ≤ 0
      omega
    obtain ⟨held,fewer⟩ := within_call within quiet single
    have full : stepsLeft p.m.nodes.length (act p .tick).phase = 3 * p.m.nodes.length + 1 := by
      rw [begun]
      rfl
    constructor
    · have spent := held.spent
      cases phase : (runActs (act p .tick) call).phase <;> rw [phase] at spent <;> simp only [Spent] at spent <;> omega
    · intro enough
      exact idle_of_stepsLeft held (by omega)

/-- Four ticks, each with the steps of a call. -/
def fourTicks : List Act := (List.replicate 4 (.tick :: List.replicate 7 (.step 0 (fun _ => 0)))).flatten

theorem probe_skips_nobody_pair :
    (runActs { m := pair } fourTicks).passes.map (fun pass => pass.listed.length) = [0,2] ∧
    (∀ pass ∈ (runActs { m := pair } fourTicks).passes, ∀ r ∈ pass.listed, ∃ node, .examined r node ∈ pass.events) ∧
    (runActs (act (runActs { m := pair } fourTicks) .tick) (List.replicate 7 (.step 0 (fun _ => 0)))).phase = .idle := by
  have others : ∀ op, .other op ∈ fourTicks → ¬ IsReset op := by
    intro op member
    simp [fourTicks] at member
  obtain ⟨passes,calls⟩ := probe_skips_nobody reachable_pair others rfl
  refine ⟨rfl,fun pass ended r listed => (passes pass ended r listed).1,?_⟩
  exact (calls rfl _ (by simp) (by simp [List.replicate,Quiet])).2 (by decide)

end Mori.Probing
