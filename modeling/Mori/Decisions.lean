import Mori.Cluster

/-!
What the nodes of a cluster have decided. Every node alone decides its
incarnations, the metadata of each and its leaving; `World` is what they have
decided so far, and it only grows (`Evolves`). A message or a record is true when
it repeats what its node has decided, and it stays true. What a true message does
to a true record is a true record.
-/
namespace Mori.Decisions
open Mori.Net Mori.Protocol Mori.State Mori.Moves Mori.Cluster

/-- What the nodes have decided. -/
structure World where
  /-- `setAlive` has stored the node in its own table. -/
  born : Bytes → Prop
  counter : Bytes → UInt32
  left : Bytes → Prop
  /-- The metadata of each incarnation. -/
  said : Bytes → UInt32 → Slice

/-- The node `y` has decided something more; one that has left draws no incarnation. -/
structure Evolves (y : Bytes) (w w' : World) : Prop where
  others : ∀ x, x ≠ y → (w'.born x ↔ w.born x) ∧ w'.counter x = w.counter x ∧ (w'.left x ↔ w.left x) ∧
    w'.said x = w.said x
  born : w.born y → w'.born y
  counter : w.counter y ≤ w'.counter y
  left : w.left y → w'.left y ∧ w'.counter y = w.counter y
  said : w.born y → ∀ i, i ≤ w.counter y → w'.said y i = w.said y i

theorem evolves_refl (y : Bytes) (w : World) : Evolves y w w where
  others := fun _ _ => ⟨Iff.rfl,rfl,Iff.rfl,rfl⟩
  born := id
  counter := UInt32.le_refl _
  left := fun left => ⟨left,rfl⟩
  said := fun _ _ _ => rfl

theorem evolves_trans {y : Bytes} {w₁ w₂ w₃ : World} (first : Evolves y w₁ w₂) (second : Evolves y w₂ w₃) :
    Evolves y w₁ w₃ where
  others := by
    intro x other
    obtain ⟨born,counter,left,said⟩ := first.others x other
    obtain ⟨born',counter',left',said'⟩ := second.others x other
    exact ⟨born'.trans born,counter'.trans counter,left'.trans left,said'.trans said⟩
  born := fun born => second.born (first.born born)
  counter := UInt32.le_trans first.counter second.counter
  left := by
    intro left
    obtain ⟨left',frozen⟩ := first.left left
    obtain ⟨left'',frozen'⟩ := second.left left'
    exact ⟨left'',frozen'.trans frozen⟩
  said := by
    intro born i bound
    rw [second.said (first.born born) i (UInt32.le_trans bound first.counter)]
    exact first.said born i bound

section
variable {y : Bytes} {w w' : World}

theorem born_mono (step : Evolves y w w') {x : Bytes} (born : w.born x) : w'.born x := by
  by_cases same : x = y
  · subst same; exact step.born born
  · exact (step.others x same).1.mpr born

theorem counter_mono (step : Evolves y w w') (x : Bytes) : w.counter x ≤ w'.counter x := by
  by_cases same : x = y
  · subst same; exact step.counter
  · rw [(step.others x same).2.1]; exact UInt32.le_refl _

theorem left_mono (step : Evolves y w w') {x : Bytes} (left : w.left x) : w'.left x ∧ w'.counter x = w.counter x := by
  by_cases same : x = y
  · subst same; exact step.left left
  · obtain ⟨-,counter,stays,-⟩ := step.others x same
    exact ⟨stays.mpr left,counter⟩

theorem said_mono (step : Evolves y w w') {x : Bytes} (born : w.born x) {i : UInt32} (bound : i ≤ w.counter x) :
    w'.said x i = w.said x i := by
  by_cases same : x = y
  · subst same; exact step.said born i bound
  · rw [(step.others x same).2.2.2]

end

/-- Every instance keeps the port that the node advertises. -/
def Unmasked (S : Setup) (x : Bytes) : Prop :=
  (∀ y, 2 ≤ (S.conf y).protocolVersion) ∧ UInt16.ofInt (S.port x) ≠ 0

/-- The node has drawn the incarnation. -/
structure Known (w : World) (x : Bytes) (incarnation : UInt32) : Prop where
  born : w.born x
  bound : incarnation ≤ w.counter x

structure AliveTrue (S : Setup) (w : World) (a : Alive) : Prop where
  known : Known w a.node a.incarnation
  addr : a.addr = S.addr a.node
  port : Unmasked S a.node → a.port = UInt16.ofInt (S.port a.node)
  vsn : a.vsn = (S.conf a.node).buildVsnArray
  said : a.metadata = w.said a.node a.incarnation

structure DeadTrue (w : World) (d : Dead) : Prop where
  known : Known w d.node d.incarnation
  left : d.node = d.from_ → w.left d.node ∧ d.incarnation = w.counter d.node

def MsgTrue (S : Setup) (w : World) : Message → Prop
  | .alive a => AliveTrue S w a
  | .suspect s => Known w s.node s.incarnation
  | .dead d => DeadTrue w d

/-- A record repeats the metadata of its incarnation where it is alive; suspect and
    dead messages raise the incarnation without it. -/
structure RecTrue (S : Setup) (w : World) (s : NodeState) : Prop where
  known : Known w s.name s.incarnation
  addr : s.addr = S.addr s.name
  port : Unmasked S s.name → s.port = UInt16.ofInt (S.port s.name)
  vsn : s.vsn = (S.conf s.name).versions
  said : s.state = .alive → s.metadata = w.said s.name s.incarnation
  left : s.state = .left → w.left s.name ∧ s.incarnation = w.counter s.name

section
variable {S : Setup} {y : Bytes} {w w' : World}

theorem known_mono (step : Evolves y w w') {x : Bytes} {i : UInt32} (known : Known w x i) : Known w' x i :=
  ⟨born_mono step known.born,UInt32.le_trans known.bound (counter_mono step x)⟩

theorem aliveTrue_mono (step : Evolves y w w') {a : Alive} (is : AliveTrue S w a) : AliveTrue S w' a :=
  { is with
    known := known_mono step is.known
    said := is.said.trans (said_mono step is.known.born is.known.bound).symm }

theorem deadTrue_mono (step : Evolves y w w') {d : Dead} (is : DeadTrue w d) : DeadTrue w' d where
  known := known_mono step is.known
  left := by
    intro self
    obtain ⟨left,last⟩ := is.left self
    obtain ⟨left',frozen⟩ := left_mono step left
    exact ⟨left',last.trans frozen.symm⟩

theorem msgTrue_mono (step : Evolves y w w') {msg : Message} (is : MsgTrue S w msg) : MsgTrue S w' msg := by
  cases msg with
  | alive a => exact aliveTrue_mono step is
  | suspect s => exact known_mono step is
  | dead d => exact deadTrue_mono step is

theorem recTrue_mono (step : Evolves y w w') {s : NodeState} (is : RecTrue S w s) : RecTrue S w' s :=
  { is with
    known := known_mono step is.known
    said := fun isAlive => (is.said isAlive).trans (said_mono step is.known.born is.known.bound).symm
    left := by
      intro isLeft
      obtain ⟨left,last⟩ := is.left isLeft
      obtain ⟨left',frozen⟩ := left_mono step left
      exact ⟨left',last.trans frozen.symm⟩ }

/-- The versions of an authentic message are those of its node. -/
theorem aliveTrue_vsn {a : Alive} (is : AliveTrue S w a) {vsn : Versions} (accepted : acceptableVsn a = some vsn) :
    vsn = (S.conf a.node).versions := by
  rw [acceptableVsn_own _ is.vsn] at accepted
  exact (Option.some.inj accepted).symm

theorem newRecord_true {a : Alive} (is : AliveTrue S w a) {vsn : Versions} (accepted : acceptableVsn a = some vsn) :
    RecTrue S w (newRecord a vsn) :=
  { is with
    known := ⟨is.known.born,UInt32.zero_le⟩
    vsn := aliveTrue_vsn is accepted
    said := fun isAlive => by cases isAlive
    left := fun isLeft => by cases isLeft }

theorem aliveRecord_true {a : Alive} (is : AliveTrue S w a) {vsn : Versions} (accepted : acceptableVsn a = some vsn)
    {s : NodeState} (name : s.name = a.node) (now : Time) : RecTrue S w (aliveRecord s a vsn now) := by
  have versions : (aliveRecord s a vsn now).vsn = (S.conf a.node).versions := by
    have given : (bytes a.vsn).length ≠ 0 := by
      rw [is.vsn]
      simp [Config.buildVsnArray,Versions.toList]
    simp only [aliveRecord,if_neg given]
    exact aliveTrue_vsn is accepted
  constructor
  · rw [show (aliveRecord s a vsn now).name = a.node from name]; exact is.known
  · rw [show (aliveRecord s a vsn now).name = a.node from name]; exact is.addr
  · rw [show (aliveRecord s a vsn now).name = a.node from name]; exact is.port
  · rw [show (aliveRecord s a vsn now).name = a.node from name]; exact versions
  · rw [show (aliveRecord s a vsn now).name = a.node from name]; exact fun _ => is.said
  · exact fun isLeft => by cases isLeft

theorem suspectRecord_true {p : Suspect} (is : Known w p.node p.incarnation) {s : NodeState} (old : RecTrue S w s)
    (name : s.name = p.node) (now : Time) : RecTrue S w (suspectRecord s p now) :=
  { old with
    known := by rw [show (suspectRecord s p now).name = p.node from name]; exact is
    said := fun isAlive => by cases isAlive
    left := fun isLeft => by cases isLeft }

theorem deadRecord_true {d : Dead} (is : DeadTrue w d) {s : NodeState} (old : RecTrue S w s) (name : s.name = d.node)
    (now : Time) : RecTrue S w (deadRecord s d now) :=
  { old with
    known := by rw [show (deadRecord s d now).name = d.node from name]; exact is.known
    said := by
      intro isAlive
      simp only [deadRecord] at isAlive
      split_ifs at isAlive
    left := by
      intro isLeft
      rw [show (deadRecord s d now).name = d.node from name]
      simp only [deadRecord] at isLeft
      split_ifs at isLeft with self
      exact is.left self }

end

end Mori.Decisions
