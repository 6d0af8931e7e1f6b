import Mori.Merging
import Mori.Cluster

/-!
The check of protocol versions as a relation between nodes. `verifyProtocol` keeps the
range of versions that all live nodes understand and checks the others against it; it
succeeds exactly if every node that may still take part speaks versions that every live
node understands, one pair at a time. This does not depend on which of the nodes are
local, so that two nodes that exchange their tables come to the same answer.
-/
namespace Mori.Compatibility
open Mori.Net Mori.Protocol Mori.State Mori.Traffic Mori.Merging
open Mori.Cluster (pushState)

/-- A node with versions `c` understands what a node with versions `p` speaks. -/
def Compatible (c p : Versions) : Prop :=
  (c.pMin ≤ p.pCur ∧ p.pCur ≤ c.pMax) ∧ c.dMin ≤ p.dCur ∧ p.dCur ≤ c.dMax

/-- The versions of a vector; an empty one reads as zeros. -/
def versions (vsn : Slice) : Versions := (parseVsn vsn).getD {}

/-- The nodes that may still take part: those that are not dead or left. -/
inductive Participant (m : Memberlist) (remote : List PushNodeState) : Versions → Prop
  | here {r : Ref} (listed : r ∈ m.nodes) (stays : (m.heap r).state ≠ .dead ∧ (m.heap r).state ≠ .left) :
      Participant m remote (m.heap r).vsn
  | there {r : PushNodeState} (listed : r ∈ remote)
      (stays : r.state ≠ NodeStateType.dead.toInt ∧ r.state ≠ NodeStateType.left.toInt) :
      Participant m remote (versions r.vsn)

/-- The nodes that constrain the others: those that are alive, with versions. -/
inductive Constraint (m : Memberlist) (remote : List PushNodeState) : Versions → Prop
  | here {r : Ref} (listed : r ∈ m.nodes) (live : (m.heap r).state = .alive) : Constraint m remote (m.heap r).vsn
  | there {r : PushNodeState} (listed : r ∈ remote) (live : r.state = NodeStateType.alive.toInt)
      (given : (bytes r.vsn).length ≠ 0) : Constraint m remote (versions r.vsn)

theorem max_le_both {a b c : UInt8} : max a b ≤ c ↔ a ≤ c ∧ b ≤ c := by
  refine ⟨fun both => ⟨UInt8.le_trans (le_max_both a b).1 both,UInt8.le_trans (le_max_both a b).2 both⟩,?_⟩
  rintro ⟨left,right⟩
  change (if a ≤ b then b else a) ≤ c
  split_ifs
  · exact right
  · exact left

/-- The range at the start excludes nothing. -/
theorem speaks_full (v : Versions) : Speaks {} v :=
  ⟨⟨UInt8.zero_le,UInt8.le_iff_toNat_le.mpr (Nat.le_of_lt_succ v.pCur.toNat_lt)⟩,
    UInt8.zero_le,UInt8.le_iff_toNat_le.mpr (Nat.le_of_lt_succ v.dCur.toNat_lt)⟩

/-- To narrow the range by a node is to ask for its understanding too. -/
theorem speaks_narrow (u : Understood) (c v : Versions) : Speaks (u.narrow c) v ↔ Speaks u v ∧ Compatible c v := by
  simp only [Speaks,Compatible,Understood.narrow,max_le_both,Std.le_min_iff]
  tauto

theorem check_ok_iff (u : Understood) (name : Bytes) (v : Versions) : u.check name v = .ok () ↔ Speaks u v := by
  refine ⟨speaks_of_check,fun ⟨protocol,delegate⟩ => ?_⟩
  rw [Understood.check,if_neg (not_or.mpr ⟨UInt8.not_lt.mpr protocol.1,UInt8.not_lt.mpr protocol.2⟩),
    if_neg (not_or.mpr ⟨UInt8.not_lt.mpr delegate.1,UInt8.not_lt.mpr delegate.2⟩)]

theorem forM_ok_iff {α ε : Type} {f : α → Except ε Unit} {xs : List α} :
    xs.forM f = .ok () ↔ ∀ x ∈ xs, f x = .ok () := by
  refine ⟨forM_ok,fun each => ?_⟩
  induction xs with
  | nil => rfl
  | cons x xs ih =>
    obtain ⟨here,others⟩ := List.forall_mem_cons.mp each
    change (f x >>= fun _ => xs.forM f) = _
    rw [here]
    exact ih others

/-- A vector is read unless it has between one and five entries. -/
theorem parseVsn_isSome_iff (vsn : Slice) :
    (parseVsn vsn).isSome = true ↔ (bytes vsn).length = 0 ∨ 6 ≤ (bytes vsn).length := by
  unfold parseVsn
  rcases bytes vsn with _ | ⟨_,_ | ⟨_,_ | ⟨_,_ | ⟨_,_ | ⟨_,_ | ⟨_,_⟩⟩⟩⟩⟩⟩ <;> simp

/-- Where every vector is read, the first loop asks for the understanding of the live nodes
    with versions. -/
theorem narrowRemote_ok {remote : List PushNodeState} (read : ∀ r ∈ remote, (parseVsn r.vsn).isSome = true)
    (u : Understood) : ∃ u', narrowRemote remote u = .ok u' ∧ ∀ v, Speaks u' v ↔
      Speaks u v ∧ ∀ r ∈ remote, r.state = NodeStateType.alive.toInt → (bytes r.vsn).length ≠ 0 →
        Compatible (versions r.vsn) v := by
  induction remote generalizing u with
  | nil => exact ⟨u,rfl,fun v => by simp⟩
  | cons rn remote ih =>
    obtain ⟨here,others⟩ := List.forall_mem_cons.mp read
    obtain ⟨vsn,parsed⟩ := Option.isSome_iff_exists.mp here
    have same : versions rn.vsn = vsn := by rw [versions,parsed,Option.getD_some]
    obtain ⟨u',done,spoken⟩ :=
      ih others (if rn.state ≠ NodeStateType.alive.toInt ∨ (bytes rn.vsn).length = 0 then u else u.narrow vsn)
    refine ⟨u',?_,fun v => ?_⟩
    · rw [narrowRemote,parsed]
      exact done
    · rw [spoken,List.forall_mem_cons,same,← and_assoc]
      refine and_congr_left (fun _ => ?_)
      split_ifs with skipped
      · have passed : rn.state = NodeStateType.alive.toInt → (bytes rn.vsn).length ≠ 0 → Compatible vsn v :=
          fun live given => absurd skipped (not_or.mpr ⟨not_not.mpr live,given⟩)
        exact ⟨fun speaks => ⟨speaks,passed⟩,And.left⟩
      · rw [not_or,not_not] at skipped
        rw [speaks_narrow]
        exact and_congr_right (fun _ => ⟨fun compatible _ _ => compatible,fun each => each skipped.1 skipped.2⟩)

theorem speaks_narrowLocal (m : Memberlist) (u : Understood) (v : Versions) :
    Speaks (narrowLocal m u) v ↔ Speaks u v ∧ ∀ r ∈ m.nodes, (m.heap r).state = .alive → Compatible (m.heap r).vsn v := by
  unfold narrowLocal
  induction m.nodes generalizing u with
  | nil => simp
  | cons r rs ih =>
    rw [List.foldl_cons,ih,List.forall_mem_cons,← and_assoc]
    refine and_congr_left (fun _ => ?_)
    split_ifs with skipped
    · exact ⟨fun speaks => ⟨speaks,fun live => absurd live skipped⟩,And.left⟩
    · rw [speaks_narrow]
      exact and_congr_right (fun _ => ⟨fun compatible _ => compatible,fun each => each (not_not.mp skipped)⟩)

/-- The range that the two loops leave is what all constraints allow. -/
theorem speaks_iff {m : Memberlist} {remote : List PushNodeState} (read : ∀ r ∈ remote, (parseVsn r.vsn).isSome = true) :
    ∃ u, narrowRemote remote {} = .ok u ∧
      ∀ v, Speaks (narrowLocal m u) v ↔ ∀ c, Constraint m remote c → Compatible c v := by
  obtain ⟨u,done,spoken⟩ := narrowRemote_ok read {}
  refine ⟨u,done,fun v => ?_⟩
  rw [speaks_narrowLocal,spoken,and_iff_right (speaks_full v)]
  constructor
  · rintro ⟨remotes,locals⟩ c constraint
    cases constraint with
    | here listed live => exact locals _ listed live
    | there listed live given => exact remotes _ listed live given
  · intro each
    exact ⟨fun r listed live given => each _ (.there listed live given),fun r listed live => each _ (.here listed live)⟩

section
variable {m : Memberlist} {remote : List PushNodeState}

/-- What the last two loops check, given the range. -/
theorem verifyProtocol_eq {u : Understood} (narrowed : narrowRemote remote {} = .ok u) :
    verifyProtocol m remote = .ok () ↔
      (∀ r ∈ remote, r.state ≠ NodeStateType.dead.toInt ∧ r.state ≠ NodeStateType.left.toInt →
        Speaks (narrowLocal m u) (versions r.vsn)) ∧
      ∀ r ∈ m.nodes, (m.heap r).deadOrLeft = false → Speaks (narrowLocal m u) (m.heap r).vsn := by
  have both : verifyProtocol m remote = (do
      remote.forM (fun n =>
        if n.state = NodeStateType.dead.toInt ∨ n.state = NodeStateType.left.toInt then return ()
        else (narrowLocal m u).check n.name (versions n.vsn))
      m.nodes.forM (fun r =>
        if (m.heap r).deadOrLeft then return () else (narrowLocal m u).check (m.heap r).name (m.heap r).vsn)) := by
    unfold verifyProtocol
    rw [narrowed]
    rfl
  rw [both]
  refine Iff.trans ⟨bind_ok,fun ⟨first,second⟩ => ?_⟩ (and_congr forM_ok_iff forM_ok_iff |>.trans ?_)
  · rw [first]
    exact second
  refine and_congr (forall₂_congr (fun r _ => ?_)) (forall₂_congr (fun r _ => ?_))
  · split_ifs with gone
    · exact ⟨fun _ stays => absurd gone (not_or.mpr stays),fun _ => rfl⟩
    · rw [check_ok_iff]
      exact ⟨fun speaks _ => speaks,fun each => each (not_or.mp gone)⟩
  · split_ifs with gone
    · exact ⟨fun _ stays => absurd gone (by rw [stays]; decide),fun _ => rfl⟩
    · rw [check_ok_iff]
      exact ⟨fun speaks _ => speaks,fun each => each (Bool.not_eq_true _ ▸ gone)⟩

/-- A success means that every vector is read. -/
theorem read_of_verified (verified : verifyProtocol m remote = .ok ()) : ∀ r ∈ remote, (parseVsn r.vsn).isSome = true := by
  cases narrowed : narrowRemote remote {} with
  | error e =>
    rw [verifyProtocol,narrowed] at verified
    cases verified
  | ok u =>
    intro r listed
    obtain ⟨v,parsed,-⟩ := (narrowRemote_spec narrowed).2 r listed
    rw [parsed]
    rfl

theorem stays_iff (s : NodeState) : s.deadOrLeft = false ↔ s.state ≠ .dead ∧ s.state ≠ .left := by
  rw [deadOrLeft_false_iff]
  cases s.state <;> decide

/-- The check succeeds exactly if all vectors are read and every participant speaks what
    every constraint understands. -/
theorem verifyProtocol_iff : verifyProtocol m remote = .ok () ↔
    (∀ r ∈ remote, (bytes r.vsn).length = 0 ∨ 6 ≤ (bytes r.vsn).length) ∧
    ∀ p, Participant m remote p → ∀ c, Constraint m remote c → Compatible c p := by
  have wellFormed : (∀ r ∈ remote, (bytes r.vsn).length = 0 ∨ 6 ≤ (bytes r.vsn).length) ↔
      ∀ r ∈ remote, (parseVsn r.vsn).isSome = true :=
    forall₂_congr (fun r _ => (parseVsn_isSome_iff r.vsn).symm)
  rw [wellFormed]
  refine ⟨fun verified => ?_,fun ⟨read,each⟩ => ?_⟩
  · have read := read_of_verified verified
    obtain ⟨u,narrowed,spoken⟩ := speaks_iff (m := m) read
    obtain ⟨remotes,locals⟩ := (verifyProtocol_eq narrowed).mp verified
    refine ⟨read,fun p participant => (spoken p).mp ?_⟩
    cases participant with
    | here listed stays => exact locals _ listed ((stays_iff _).mpr stays)
    | there listed stays => exact remotes _ listed stays
  · obtain ⟨u,narrowed,spoken⟩ := speaks_iff (m := m) read
    refine (verifyProtocol_eq narrowed).mpr ⟨fun r listed stays => ?_,fun r listed stays => ?_⟩
    · exact (spoken _).mpr (each _ (.there listed stays))
    · exact (spoken _).mpr (each _ (.here listed ((stays_iff _).mp stays)))

end

/-- The states that a node pushes. -/
def pushed (m : Memberlist) : List PushNodeState := m.nodes.map (fun r => pushState (m.heap r))

section
variable {a b : Memberlist} {v : Versions}

theorem toInt_eq_iff (s t : NodeStateType) : s.toInt = t.toInt ↔ s = t := by
  cases s <;> cases t <;> decide

/-- A node takes part in the one exchange as it does in the other. -/
theorem participant_symm (participant : Participant a (pushed b) v) : Participant b (pushed a) v := by
  cases participant with
  | here listed stays =>
    refine .there (r := pushState _) (List.mem_map_of_mem listed) ⟨?_,?_⟩
    · exact fun dead => stays.1 ((toInt_eq_iff _ _).mp dead)
    · exact fun left => stays.2 ((toInt_eq_iff _ _).mp left)
  | there listed stays =>
    obtain ⟨r,member,rfl⟩ := List.mem_map.mp listed
    refine .here member ⟨?_,?_⟩
    · exact fun dead => stays.1 ((toInt_eq_iff _ _).mpr dead)
    · exact fun left => stays.2 ((toInt_eq_iff _ _).mpr left)

theorem constraint_symm (constraint : Constraint a (pushed b) v) : Constraint b (pushed a) v := by
  cases constraint with
  | here listed live =>
    exact .there (r := pushState _) (List.mem_map_of_mem listed) ((toInt_eq_iff _ _).mpr live) (Nat.succ_ne_zero 5)
  | there listed live given =>
    obtain ⟨r,member,rfl⟩ := List.mem_map.mp listed
    exact .here member ((toInt_eq_iff _ _).mp live)

/-- What is pushed has a version vector of six entries. -/
theorem pushed_read : ∀ r ∈ pushed b, (bytes r.vsn).length = 0 ∨ 6 ≤ (bytes r.vsn).length := by
  intro r listed
  obtain ⟨r',-,rfl⟩ := List.mem_map.mp listed
  exact .inr (Nat.le_refl 6)

theorem verified_symm (verified : verifyProtocol a (pushed b) = .ok ()) : verifyProtocol b (pushed a) = .ok () := by
  obtain ⟨-,each⟩ := verifyProtocol_iff.mp verified
  refine verifyProtocol_iff.mpr ⟨pushed_read,fun p taking c asking => ?_⟩
  exact each p (participant_symm taking) c (constraint_symm asking)

end

/-- `verifyProtocol` decides whether every node that takes part speaks what every live node
    understands, and two nodes decide alike on each other's tables. -/
theorem verifyProtocol_pairwise :
    (∀ (m : Memberlist) (remote : List PushNodeState), verifyProtocol m remote = .ok () ↔
      (∀ r ∈ remote, (bytes r.vsn).length = 0 ∨ 6 ≤ (bytes r.vsn).length) ∧
      ∀ p, Participant m remote p → ∀ c, Constraint m remote c → Compatible c p) ∧
    ∀ a b : Memberlist, verifyProtocol a (pushed b) = .ok () ↔ verifyProtocol b (pushed a) = .ok () :=
  ⟨fun _ _ => verifyProtocol_iff,fun _ _ => ⟨verified_symm,verified_symm⟩⟩

end Mori.Compatibility
