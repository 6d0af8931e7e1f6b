import Mori.State
import Mathlib.Data.List.Perm.Basic
import Mathlib.Data.List.Nodup

/-!
The node table. `TableWF` says that `nodes`, `nodeMap` and `numNodes` describe
one set of records with distinct names; every primitive update keeps it, and
under it each of them changes `entry`, the table as a map from names to records,
at one name at most.
-/
namespace Mori.Table
open Mori.Net Mori.Protocol Mori.State
set_option linter.unusedSimpArgs false

theorem getD_of_lt {l : List Ref} {i : Nat} (inside : i < l.length) : l.getD i 0 = l[i] := by
  simp [inside]

theorem swap_length (l : List Ref) (i j : Nat) : (swap l i j).length = l.length := by
  simp [swap]

theorem swap_perm {l : List Ref} {i j : Nat} (first : i < l.length) (second : j < l.length) :
    (swap l i j).Perm l := by
  unfold swap
  rw [getD_of_lt first,getD_of_lt second]
  exact List.set_set_perm first second

/-- What stands where after an exchange. -/
theorem swap_getD {l : List Ref} {i j : Nat} (first : i < l.length) (second : j < l.length) (k : Nat) :
    (swap l i j).getD k 0 = if k = j then l.getD i 0 else if k = i then l.getD j 0 else l.getD k 0 := by
  simp only [swap,List.getD_eq_getElem?_getD,List.getElem?_set,List.length_set]
  by_cases atJ : k = j
  · subst atJ; simp [second]
  · by_cases atI : k = i
    · subst atI; simp [first,atJ,Ne.symm atJ]
    · simp [atJ,atI,Ne.symm atJ,Ne.symm atI]

theorem randomOffset_lt {n : Nat} (positive : 0 < n) (draw : Nat) : randomOffset draw n < n := by
  rw [randomOffset,if_neg positive.ne']
  exact Nat.mod_lt draw positive

theorem randomOffset_le (draw n : Nat) : randomOffset draw n ≤ n := by
  rcases Nat.eq_zero_or_pos n with rfl | positive
  · exact le_rfl
  · exact (randomOffset_lt positive draw).le

theorem shuffleFrom_perm (draws : Nat → Nat) (i : Nat) (nodes : List Ref) (inside : i = 0 ∨ i < nodes.length) :
    (shuffleFrom draws i nodes).Perm nodes := by
  induction i generalizing nodes with
  | zero => exact List.Perm.refl nodes
  | succ i ih =>
    have below : i + 1 < nodes.length := by omega
    have drawn : draws (i + 1) % (i + 2) < nodes.length := by
      have := Nat.mod_lt (draws (i + 1)) (show 0 < i + 2 by omega)
      omega
    have step := ih (swap nodes (i + 1) (draws (i + 1) % (i + 2))) (.inr (by rw [swap_length]; omega))
    exact step.trans (swap_perm below drawn)

theorem shuffleNodes_perm (draws : Nat → Nat) (nodes : List Ref) : (shuffleNodes draws nodes).Perm nodes := by
  apply shuffleFrom_perm
  omega

/-- A record that `resetNodes` reaps at the given clock reading. -/
def Expired (heap : Ref → NodeState) (deadTime : Duration) (now : Time) (r : Ref) : Prop :=
  (heap r).deadOrLeft = true ∧ deadTime < sub now (heap r).stateChange

/-- The loop keeps what is not expired before `i` and the expired behind the
    indices to go. -/
theorem moveDeadLoop_spec (heap : Ref → NodeState) (deadTime : Duration) (now : Time) (left : Nat) :
    ∀ (nodes : List Ref) (i : Nat), i + left ≤ nodes.length →
      (∀ j, j < i → ¬ Expired heap deadTime now (nodes.getD j 0)) →
      (∀ j, i + left ≤ j → j < nodes.length → Expired heap deadTime now (nodes.getD j 0)) →
      (moveDeadLoop heap deadTime now left nodes i).1.Perm nodes ∧
      (moveDeadLoop heap deadTime now left nodes i).2 ≤ nodes.length ∧
      (∀ j, j < (moveDeadLoop heap deadTime now left nodes i).2 →
        ¬ Expired heap deadTime now ((moveDeadLoop heap deadTime now left nodes i).1.getD j 0)) ∧
      (∀ j, (moveDeadLoop heap deadTime now left nodes i).2 ≤ j → j < nodes.length →
        Expired heap deadTime now ((moveDeadLoop heap deadTime now left nodes i).1.getD j 0)) := by
  induction left with
  | zero =>
    intro nodes i inside front back
    exact ⟨List.Perm.refl nodes,inside,front,back⟩
  | succ left ih =>
    intro nodes i inside front back
    by_cases expired : Expired heap deadTime now (nodes.getD i 0)
    · have step : moveDeadLoop heap deadTime now (left + 1) nodes i =
          moveDeadLoop heap deadTime now left (swap nodes i (i + left)) i := by
        rw [moveDeadLoop]
        exact if_pos expired
      have first : i < nodes.length := by omega
      have last : i + left < nodes.length := by omega
      -- The record at `i` moves behind the indices to go; the one it meets is looked at next.
      have front' : ∀ j, j < i → ¬ Expired heap deadTime now ((swap nodes i (i + left)).getD j 0) := by
        intro j before
        rw [swap_getD first last,if_neg (by omega),if_neg (by omega)]
        exact front j before
      have back' : ∀ j, i + left ≤ j → j < (swap nodes i (i + left)).length →
          Expired heap deadTime now ((swap nodes i (i + left)).getD j 0) := by
        intro j behind below
        rw [swap_length] at below
        rw [swap_getD first last]
        by_cases moved : j = i + left
        · rw [if_pos moved]; exact expired
        · rw [if_neg moved,if_neg (by omega)]
          exact back j (by omega) below
      obtain ⟨perm,bound,kept,reaped⟩ :=
        ih (swap nodes i (i + left)) i (by rw [swap_length]; omega) front' back'
      rw [swap_length] at bound reaped
      rw [step]
      exact ⟨perm.trans (swap_perm first last),bound,kept,reaped⟩
    · have step : moveDeadLoop heap deadTime now (left + 1) nodes i =
          moveDeadLoop heap deadTime now left nodes (i + 1) := by
        rw [moveDeadLoop]
        exact if_neg expired
      have front' : ∀ j, j < i + 1 → ¬ Expired heap deadTime now (nodes.getD j 0) := by
        intro j before
        by_cases last : j = i
        · rw [last]; exact expired
        · exact front j (by omega)
      rw [step]
      exact ih nodes (i + 1) (by omega) front' (fun j behind below => back j (by omega) below)

/-- `moveDeadNodes` permutes the list and returns the index from which on
    exactly the expired nodes stand. -/
theorem moveDeadNodes_spec (heap : Ref → NodeState) (nodes : List Ref) (deadTime : Duration) (now : Time) :
    (moveDeadNodes heap nodes deadTime now).1.Perm nodes ∧
    (moveDeadNodes heap nodes deadTime now).2 ≤ nodes.length ∧
    (∀ r ∈ (moveDeadNodes heap nodes deadTime now).1.take (moveDeadNodes heap nodes deadTime now).2,
      ¬ Expired heap deadTime now r) ∧
    (∀ r ∈ (moveDeadNodes heap nodes deadTime now).1.drop (moveDeadNodes heap nodes deadTime now).2,
      Expired heap deadTime now r) := by
  obtain ⟨perm,bound,kept,reaped⟩ := moveDeadLoop_spec heap deadTime now nodes.length nodes 0
    (by omega) (fun j below => absurd below (Nat.not_lt_zero j)) (fun j behind below => absurd below (by omega))
  have size := perm.length_eq
  refine ⟨perm,bound,?_,?_⟩
  · intro r member
    obtain ⟨j,inside,rfl⟩ := List.mem_iff_getElem.mp member
    have below : j < (moveDeadNodes heap nodes deadTime now).2 := by
      have := inside
      simp only [List.length_take] at this
      omega
    have listed : j < (moveDeadNodes heap nodes deadTime now).1.length := by
      have := inside
      simp only [List.length_take] at this
      omega
    have := kept j below
    rw [List.getElem_take]
    rwa [show (moveDeadLoop heap deadTime now nodes.length nodes 0).1 =
      (moveDeadNodes heap nodes deadTime now).1 from rfl,getD_of_lt listed] at this
  · intro r member
    obtain ⟨j,inside,rfl⟩ := List.mem_iff_getElem.mp member
    have listed : (moveDeadNodes heap nodes deadTime now).2 + j <
        (moveDeadNodes heap nodes deadTime now).1.length := by
      have := inside
      simp only [List.length_drop] at this
      omega
    have := reaped ((moveDeadNodes heap nodes deadTime now).2 + j) (Nat.le_add_right _ j) (by
      rw [← size]; exact listed)
    rw [List.getElem_drop]
    rwa [show (moveDeadLoop heap deadTime now nodes.length nodes 0).1 =
      (moveDeadNodes heap nodes deadTime now).1 from rfl,getD_of_lt listed] at this

/-- `nodes` lists without repetition the records that `nodeMap` maps names to,
    each under its own name, and `numNodes` counts them. -/
structure TableWF (m : Memberlist) : Prop where
  named : ∀ n r, m.nodeMap n = some r → (m.heap r).name = n
  listed : ∀ r, r ∈ m.nodes ↔ ∃ n, m.nodeMap n = some r
  nodup : m.nodes.Nodup
  notNil : ∀ r ∈ m.nodes, 0 < r
  allocated : ∀ r ∈ m.nodes, r < m.alloc
  started : 0 < m.alloc
  counted : m.numNodes = UInt32.ofNat m.nodes.length

theorem tableWF_build (conf : Config) : TableWF (buildMemberlist conf) where
  named := by simp [buildMemberlist]
  listed := by simp [buildMemberlist]
  nodup := by simp [buildMemberlist]
  notNil := by simp [buildMemberlist]
  allocated := by simp [buildMemberlist]
  started := by simp [buildMemberlist]
  counted := by simp [buildMemberlist]

/-- The table is the same in both states. -/
structure SameTable (m m' : Memberlist) : Prop where
  heap : m'.heap = m.heap
  alloc : m'.alloc = m.alloc
  nodes : m'.nodes = m.nodes
  nodeMap : m'.nodeMap = m.nodeMap
  numNodes : m'.numNodes = m.numNodes

theorem tableWF_of_same {m m' : Memberlist} (same : SameTable m m') (wf : TableWF m) : TableWF m' where
  named := by rw [same.nodeMap,same.heap]; exact wf.named
  listed := by rw [same.nodes,same.nodeMap]; exact wf.listed
  nodup := by rw [same.nodes]; exact wf.nodup
  notNil := by rw [same.nodes]; exact wf.notNil
  allocated := by rw [same.nodes,same.alloc]; exact wf.allocated
  started := by rw [same.alloc]; exact wf.started
  counted := by rw [same.numNodes,same.nodes]; exact wf.counted

theorem entry_of_same {m m' : Memberlist} (same : SameTable m m') : entry m' = entry m := by
  funext n
  simp [entry,same.nodeMap,same.heap]

theorem entry_eq {m : Memberlist} {n : Bytes} {r : Ref} (found : m.nodeMap n = some r) :
    entry m n = some (m.heap r) := by
  simp [entry,found]

theorem entry_eq_some {m : Memberlist} {n : Bytes} {s : NodeState} :
    entry m n = some s ↔ ∃ r, m.nodeMap n = some r ∧ m.heap r = s := by
  simp [entry]

theorem entry_eq_none {m : Memberlist} {n : Bytes} : entry m n = none ↔ m.nodeMap n = none := by
  simp [entry]

theorem entry_name {m : Memberlist} (wf : TableWF m) {n : Bytes} {s : NodeState} (held : entry m n = some s) :
    s.name = n := by
  obtain ⟨r,found,rfl⟩ := entry_eq_some.mp held
  exact wf.named n r found

theorem found_at {m : Memberlist} {n n' : Bytes} {r : Ref} (found : m.nodeMap n' = some r) (here : n' = n) :
    entry m n = some (m.heap r) :=
  here ▸ entry_eq found

section
variable {m m' : Memberlist} {n n' : Bytes} {s : NodeState}

theorem entry_at (changed : entry m' = Function.update (entry m) n' (some s)) (here : n' = n) :
    entry m' n = some s := by
  rw [changed,here,Function.update_self]

theorem entry_other (changed : entry m' = Function.update (entry m) n' (some s)) (other : n' ≠ n) :
    entry m' n = entry m n := by
  rw [changed,Function.update_of_ne (Ne.symm other)]

end

/-- A record stands under one name. -/
theorem ref_unique {m : Memberlist} (wf : TableWF m) {n n' : Bytes} {r : Ref} (first : m.nodeMap n = some r)
    (second : m.nodeMap n' = some r) : n = n' :=
  (wf.named n r first).symm.trans (wf.named n' r second)

theorem tableWF_write {m : Memberlist} (wf : TableWF m) {n : Bytes} {r : Ref} (found : m.nodeMap n = some r)
    {s : NodeState} (name : s.name = n) : TableWF (write m r s) :=
  { wf with
    named := by
      intro n' r' found'
      have found' : m.nodeMap n' = some r' := found'
      by_cases same : r' = r
      · subst same
        simp only [write,Function.update_self]
        exact name.trans (ref_unique wf found found')
      · simp only [write,Function.update_of_ne same]
        exact wf.named n' r' found' }

theorem entry_write {m : Memberlist} (wf : TableWF m) {n : Bytes} {r : Ref} (found : m.nodeMap n = some r)
    (s : NodeState) : entry (write m r s) = Function.update (entry m) n (some s) := by
  funext n'
  by_cases same : n' = n
  · subst same; simp [entry,write,found]
  · rw [Function.update_of_ne same]
    simp only [entry,write]
    cases found' : m.nodeMap n' with
    | none => rfl
    | some r' =>
      have other : r' ≠ r := by
        rintro rfl
        exact same (ref_unique wf found' found)
      simp [Function.update_of_ne other]

theorem addNode_nodes_perm (m : Memberlist) (s : NodeState) (draw : Nat) :
    (addNode m s draw).nodes.Perm (m.nodes ++ [m.alloc]) := by
  simp only [addNode]
  apply swap_perm
  · rw [List.length_append,List.length_singleton]
    exact Nat.lt_succ_of_le (randomOffset_le draw m.nodes.length)
  · simp

theorem tableWF_addNode {m : Memberlist} (wf : TableWF m) {s : NodeState} (absent : m.nodeMap s.name = none)
    (draw : Nat) : TableWF (addNode m s draw) where
  named := by
    intro n r found
    simp only [addNode] at found ⊢
    by_cases same : n = s.name
    · subst same
      rw [Function.update_self] at found
      cases found
      rw [Function.update_self]
    · rw [Function.update_of_ne same] at found
      have old : r ≠ m.alloc := Nat.ne_of_lt (wf.allocated r ((wf.listed r).mpr ⟨n,found⟩))
      rw [Function.update_of_ne old]
      exact wf.named n r found
  listed := by
    intro r
    rw [(addNode_nodes_perm m s draw).mem_iff,List.mem_append,List.mem_singleton,wf.listed r]
    simp only [addNode]
    constructor
    · rintro (⟨n,found⟩ | rfl)
      · refine ⟨n,?_⟩
        have other : n ≠ s.name := by
          rintro rfl
          rw [absent] at found
          cases found
        rw [Function.update_of_ne other]
        exact found
      · exact ⟨s.name,Function.update_self ..⟩
    · rintro ⟨n,found⟩
      by_cases same : n = s.name
      · subst same
        rw [Function.update_self] at found
        cases found
        exact .inr rfl
      · rw [Function.update_of_ne same] at found
        exact .inl ⟨n,found⟩
  nodup := by
    rw [(addNode_nodes_perm m s draw).nodup_iff]
    refine List.nodup_append.mpr ⟨wf.nodup,List.nodup_singleton _,?_⟩
    intro r member r' single
    rw [List.mem_singleton] at single
    exact single ▸ Nat.ne_of_lt (wf.allocated r member)
  notNil := by
    intro r member
    rw [(addNode_nodes_perm m s draw).mem_iff,List.mem_append,List.mem_singleton] at member
    rcases member with old | rfl
    · exact wf.notNil r old
    · exact wf.started
  allocated := by
    intro r member
    rw [(addNode_nodes_perm m s draw).mem_iff,List.mem_append,List.mem_singleton] at member
    rcases member with old | rfl
    · exact Nat.lt_succ_of_lt (wf.allocated r old)
    · exact Nat.lt_succ_self m.alloc
  started := Nat.succ_pos m.alloc
  counted := by
    have size := (addNode_nodes_perm m s draw).length_eq
    rw [size]
    show m.numNodes + 1 = _
    rw [wf.counted,List.length_append,List.length_singleton,UInt32.ofNat_add]
    rfl

theorem entry_addNode {m : Memberlist} (wf : TableWF m) (s : NodeState) (draw : Nat) :
    entry (addNode m s draw) = Function.update (entry m) s.name (some s) := by
  funext n
  by_cases same : n = s.name
  · subst same; simp [entry,addNode]
  · rw [Function.update_of_ne same]
    simp only [entry,addNode,Function.update_of_ne same]
    cases found : m.nodeMap n with
    | none => rfl
    | some r =>
      have old : r ≠ m.alloc := Nat.ne_of_lt (wf.allocated r ((wf.listed r).mpr ⟨n,found⟩))
      simp [Function.update_of_ne old]

theorem addNode_nodeMap (m : Memberlist) (s : NodeState) (draw : Nat) :
    (addNode m s draw).nodeMap s.name = some m.alloc := by
  simp [addNode]

theorem addNode_heap (m : Memberlist) (s : NodeState) (draw : Nat) : (addNode m s draw).heap m.alloc = s := by
  simp [addNode]

/-- Deleting the names of some records from a table. -/
theorem foldl_delete (name : Ref → Bytes) (rs : List Ref) (table : Bytes → Option Ref) (n : Bytes) :
    rs.foldl (fun table r => Function.update table (name r) none) table n =
      if ∃ r ∈ rs, name r = n then none else table n := by
  induction rs generalizing table with
  | nil => simp
  | cons r rs ih =>
    rw [List.foldl_cons,ih]
    by_cases later : ∃ r' ∈ rs, name r' = n
    · rw [if_pos later,if_pos]
      obtain ⟨r',member,same⟩ := later
      exact ⟨r',List.mem_cons_of_mem r member,same⟩
    · rw [if_neg later]
      by_cases same : name r = n
      · subst same
        rw [Function.update_self,if_pos ⟨r,List.mem_cons_self,rfl⟩]
      · rw [Function.update_of_ne (Ne.symm same),if_neg]
        rintro ⟨r',member,named⟩
        rcases List.mem_cons.mp member with rfl | member
        · exact same named
        · exact later ⟨r',member,named⟩

/-- Whether `resetNodes` reaps a record at the given clock reading. -/
def reaps (conf : Config) (now : Time) (s : NodeState) : Bool :=
  s.deadOrLeft && decide (conf.gossipToTheDeadTime < sub now s.stateChange)

theorem reaps_iff {m : Memberlist} {now : Time} {r : Ref} :
    reaps m.config now (m.heap r) = true ↔ Expired m.heap m.config.gossipToTheDeadTime now r := by
  simp [reaps,Expired]

/-- `nodes` and `nodeMap` hold the same records, each under its own name. -/
structure Agree (m : Memberlist) : Prop where
  named : ∀ n r, m.nodeMap n = some r → (m.heap r).name = n
  listed : ∀ r, r ∈ m.nodes ↔ ∃ n, m.nodeMap n = some r

theorem TableWF.agree {m : Memberlist} (wf : TableWF m) : Agree m := ⟨wf.named,wf.listed⟩

section Reset
variable {m : Memberlist} (now : Time) (draws : Nat → Nat)

/-- A pointer stays exactly when its record is not expired. -/
theorem resetNodes_mem (r : Ref) :
    r ∈ (resetNodes m now draws).nodes ↔
      r ∈ m.nodes ∧ ¬ Expired m.heap m.config.gossipToTheDeadTime now r := by
  obtain ⟨perm,-,kept,reaped⟩ := moveDeadNodes_spec m.heap m.nodes m.config.gossipToTheDeadTime now
  have shuffled : r ∈ (resetNodes m now draws).nodes ↔
      r ∈ (moveDeadNodes m.heap m.nodes m.config.gossipToTheDeadTime now).1.take
        (moveDeadNodes m.heap m.nodes m.config.gossipToTheDeadTime now).2 :=
    (shuffleNodes_perm draws _).mem_iff
  rw [shuffled]
  constructor
  · intro member
    exact ⟨perm.mem_iff.mp (List.mem_of_mem_take member),kept r member⟩
  · rintro ⟨member,fresh⟩
    have listed := perm.mem_iff.mpr member
    rw [← List.take_append_drop (moveDeadNodes m.heap m.nodes m.config.gossipToTheDeadTime now).2
      (moveDeadNodes m.heap m.nodes m.config.gossipToTheDeadTime now).1,List.mem_append] at listed
    rcases listed with front | back
    · exact front
    · exact absurd (reaped r back) fresh

/-- A name stays exactly when its record is not expired. -/
theorem resetNodes_nodeMap (agree : Agree m) (n : Bytes) :
    (resetNodes m now draws).nodeMap n =
      (m.nodeMap n).filter (fun r => !reaps m.config now (m.heap r)) := by
  obtain ⟨perm,-,kept,reaped⟩ := moveDeadNodes_spec m.heap m.nodes m.config.gossipToTheDeadTime now
  simp only [resetNodes]
  rw [foldl_delete]
  cases found : m.nodeMap n with
  | none => simp
  | some r =>
    by_cases expired : Expired m.heap m.config.gossipToTheDeadTime now r
    · have gone : ∃ r' ∈ (moveDeadNodes m.heap m.nodes m.config.gossipToTheDeadTime now).1.drop
          (moveDeadNodes m.heap m.nodes m.config.gossipToTheDeadTime now).2, (m.heap r').name = n := by
        refine ⟨r,?_,agree.named n r found⟩
        have listed := perm.mem_iff.mpr ((agree.listed r).mpr ⟨n,found⟩)
        rw [← List.take_append_drop (moveDeadNodes m.heap m.nodes m.config.gossipToTheDeadTime now).2
          (moveDeadNodes m.heap m.nodes m.config.gossipToTheDeadTime now).1,List.mem_append] at listed
        rcases listed with front | back
        · exact absurd expired (kept r front)
        · exact back
      rw [if_pos gone,Option.filter_some,if_neg]
      simpa using reaps_iff.mpr expired
    · have stays : ¬ ∃ r' ∈ (moveDeadNodes m.heap m.nodes m.config.gossipToTheDeadTime now).1.drop
          (moveDeadNodes m.heap m.nodes m.config.gossipToTheDeadTime now).2, (m.heap r').name = n := by
        rintro ⟨r',member,named⟩
        obtain ⟨n',found'⟩ := (agree.listed r').mp (perm.mem_iff.mp (List.mem_of_mem_drop member))
        have same : n' = n := (agree.named n' r' found').symm.trans named
        rw [same,found] at found'
        cases found'
        exact expired (reaped r member)
      rw [if_neg stays,Option.filter_some,if_pos]
      simpa using mt reaps_iff.mp expired

theorem entry_resetNodes (wf : TableWF m) (n : Bytes) :
    entry (resetNodes m now draws) n =
      (entry m n).filter (fun s => !reaps m.config now s) := by
  simp only [entry]
  rw [resetNodes_nodeMap now draws wf.agree]
  cases found : m.nodeMap n with
  | none => rfl
  | some r =>
    have heap : (resetNodes m now draws).heap = m.heap := rfl
    rw [heap]
    simp only [Option.filter_some,Option.map_some]
    split_ifs <;> rfl

/-- Reaping changes no record that stays. -/
theorem entry_of_reset (wf : TableWF m) {n : Bytes} {s : NodeState}
    (kept : entry (resetNodes m now draws) n = some s) : entry m n = some s := by
  rw [entry_resetNodes now draws wf] at kept
  exact Option.eq_some_of_filter_eq_some kept

theorem resetNodes_count : (resetNodes m now draws).numNodes = UInt32.ofNat (resetNodes m now draws).nodes.length := by
  obtain ⟨perm,bound,-⟩ := moveDeadNodes_spec m.heap m.nodes m.config.gossipToTheDeadTime now
  have size : (resetNodes m now draws).nodes.length =
      (moveDeadNodes m.heap m.nodes m.config.gossipToTheDeadTime now).2 := by
    show (shuffleNodes draws _).length = _
    rw [(shuffleNodes_perm draws _).length_eq,List.length_take,perm.length_eq]
    exact Nat.min_eq_left bound
  rw [size]
  rfl

theorem tableWF_resetNodes (wf : TableWF m) : TableWF (resetNodes m now draws) where
  named := by
    intro n r found
    rw [resetNodes_nodeMap now draws wf.agree,Option.filter_eq_some_iff] at found
    exact wf.named n r found.1
  listed := by
    intro r
    rw [resetNodes_mem,wf.listed r]
    simp only [resetNodes_nodeMap now draws wf.agree,Option.filter_eq_some_iff]
    constructor
    · rintro ⟨⟨n,found⟩,fresh⟩
      exact ⟨n,found,by simpa using mt reaps_iff.mp fresh⟩
    · rintro ⟨n,found,fresh⟩
      exact ⟨⟨n,found⟩,fun expired => by simp [reaps_iff.mpr expired] at fresh⟩
  nodup := by
    obtain ⟨perm,-⟩ := moveDeadNodes_spec m.heap m.nodes m.config.gossipToTheDeadTime now
    exact (shuffleNodes_perm draws _).nodup_iff.mpr
      ((perm.nodup_iff.mpr wf.nodup).sublist (List.take_sublist _ _))
  notNil := fun r member => wf.notNil r ((resetNodes_mem now draws r).mp member).1
  allocated := fun r member => wf.allocated r ((resetNodes_mem now draws r).mp member).1
  started := wf.started
  counted := resetNodes_count now draws

end Reset

/-- `Members` lists the records that are neither dead nor left. -/
theorem mem_members {m : Memberlist} (wf : TableWF m) (node : Node) :
    node ∈ members m ↔ ∃ s, entry m node.name = some s ∧ s.deadOrLeft = false ∧ s.toNode = node := by
  simp only [members,List.mem_map,List.mem_filter]
  constructor
  · rintro ⟨s,⟨⟨r,listed,rfl⟩,live⟩,rfl⟩
    obtain ⟨n,found⟩ := (wf.listed r).mp listed
    have name := wf.named n r found
    refine ⟨m.heap r,?_,by simpa using live,rfl⟩
    rw [show (m.heap r).toNode.name = n from name]
    exact entry_eq found
  · rintro ⟨s,held,live,rfl⟩
    obtain ⟨r,found,rfl⟩ := entry_eq_some.mp held
    exact ⟨m.heap r,⟨⟨r,(wf.listed r).mpr ⟨_,found⟩,rfl⟩,by simpa using live⟩,rfl⟩

end Mori.Table
