import Mori.Table

/-!
Reaping (`util.go`, `state.go`): the loop of `moveDeadNodes` by its own counters. It never leaves the
list and stops after one turn for each entry, with the entries that stay in front and the expired ones
behind them, so that `resetNodes` keeps the same entries in the list, in the map and in the count.
-/
namespace Mori.DeadNodes
open Mori.Net Mori.Protocol Mori.State Mori.Table

/-- An element of a slice; `none` is the panic of an index that is out of range. -/
def element (nodes : List Ref) (i : Int) : Option Ref := if 0 ≤ i then nodes[i.toNat]? else none

/-- `nodes[i], nodes[j] = nodes[j], nodes[i]`. -/
def exchange (nodes : List Ref) (i j : Int) : Option (List Ref) :=
  (element nodes i).bind (fun first => (element nodes j).map (fun second =>
    (nodes.set i.toNat second).set j.toNat first))

/-- The loop of `moveDeadNodes`, as far as the fuel goes; `none` also where an index is out of range. -/
def scan (heap : Ref → NodeState) (deadTime : Duration) (now : Time) : Nat → List Ref → Int → Int → Option (List Ref × Int)
  | 0,_,_,_ => none
  | fuel + 1,nodes,i,numDead =>
    let n : Int := nodes.length
    if i < n - numDead then
      (element nodes i).bind (fun r =>
        if (heap r).deadOrLeft = false then scan heap deadTime now fuel nodes (i + 1) numDead
        else if sub now (heap r).stateChange ≤ deadTime then scan heap deadTime now fuel nodes (i + 1) numDead
        else (exchange nodes i (n - numDead - 1)).bind (fun nodes =>
          -- `i--`, and `i++` of the loop
          scan heap deadTime now fuel nodes (i - 1 + 1) (numDead + 1)))
    else some (nodes,n - numDead)

theorem element_of_lt {nodes : List Ref} {i : Nat} (inside : i < nodes.length) :
    element nodes i = some (nodes.getD i 0) := by
  rw [element,if_pos (Int.natCast_nonneg i),Int.toNat_natCast,List.getElem?_eq_getElem inside,getD_of_lt inside]

theorem exchange_of_lt {nodes : List Ref} {i j : Nat} (first : i < nodes.length) (second : j < nodes.length) :
    exchange nodes i j = some (swap nodes i j) := by
  rw [exchange,element_of_lt first,element_of_lt second,Int.toNat_natCast,Int.toNat_natCast]
  rfl

section
variable {heap : Ref → NodeState} {deadTime : Duration} {now : Time}

/-- With `left` entries to go, the loop takes that many turns, each within the list. -/
theorem scan_eq (left fuel : Nat) (nodes : List Ref) (i numDead : Nat) (sizes : i + left + numDead = nodes.length)
    (enough : left < fuel) :
    scan heap deadTime now fuel nodes i numDead =
      some ((moveDeadLoop heap deadTime now left nodes i).1,((moveDeadLoop heap deadTime now left nodes i).2 : Int)) := by
  induction left generalizing fuel nodes i numDead with
  | zero =>
    obtain ⟨fuel,rfl⟩ : ∃ f, fuel = f + 1 := ⟨fuel - 1,by omega⟩
    have last : (nodes.length : Int) - numDead = i := by omega
    simp only [scan,last,lt_irrefl,if_false]
    rfl
  | succ left ih =>
    obtain ⟨fuel,rfl⟩ : ∃ f, fuel = f + 1 := ⟨fuel - 1,by omega⟩
    have inside : i < nodes.length := by omega
    have goes : (i : Int) < nodes.length - numDead := by omega
    rw [scan,if_pos goes,element_of_lt inside,Option.bind_some,moveDeadLoop]
    by_cases dead : (heap (nodes.getD i 0)).deadOrLeft = false
    · rw [if_pos dead,if_neg (by rw [dead]; exact fun wrong => Bool.false_ne_true wrong.1)]
      exact ih fuel nodes (i + 1) numDead (by omega) (by omega)
    rw [if_neg dead]
    by_cases recent : sub now (heap (nodes.getD i 0)).stateChange ≤ deadTime
    · rw [if_pos recent,if_neg fun wrong => not_lt.mpr recent wrong.2]
      exact ih fuel nodes (i + 1) numDead (by omega) (by omega)
    · have last : (nodes.length : Int) - numDead - 1 = ((i + left : Nat) : Int) := by omega
      rw [if_neg recent,if_pos ⟨by simpa using dead,not_le.mp recent⟩,last,exchange_of_lt inside (by omega),Option.bind_some,
        Int.sub_add_cancel]
      exact ih fuel (swap nodes i (i + left)) i (numDead + 1) (by rw [swap_length]; omega) (by omega)

/-- The loop stops by itself, with the result of `moveDeadNodes`. -/
theorem scan_moveDeadNodes (nodes : List Ref) :
    scan heap deadTime now (nodes.length + 1) nodes 0 0 =
      some ((moveDeadNodes heap nodes deadTime now).1,((moveDeadNodes heap nodes deadTime now).2 : Int)) :=
  scan_eq nodes.length (nodes.length + 1) nodes 0 0 (by omega) (by omega)

/-- A record that stays: it is alive or suspect, or changed at most as long ago as the dead are gossiped to. -/
def Stays (heap : Ref → NodeState) (deadTime : Duration) (now : Time) (r : Ref) : Prop :=
  (heap r).state = .alive ∨ (heap r).state = .suspect ∨ sub now (heap r).stateChange ≤ deadTime

instance (heap : Ref → NodeState) (deadTime : Duration) (now : Time) (r : Ref) : Decidable (Stays heap deadTime now r) :=
  inferInstanceAs (Decidable (_ ∨ _ ∨ _))

theorem stays_iff (r : Ref) : Stays heap deadTime now r ↔ ¬ Expired heap deadTime now r := by
  unfold Stays Expired NodeState.deadOrLeft
  cases (heap r).state with
  | alive | suspect => simp
  | dead | left => simp

/-- A list with all that satisfy a condition in front is filtered by cutting it. -/
theorem filter_of_split {α : Type} (p : α → Prop) [DecidablePred p] {l : List α} {i : Nat} (front : ∀ x ∈ l.take i, p x)
    (back : ∀ x ∈ l.drop i, ¬ p x) : l.filter p = l.take i := by
  conv_lhs => rw [← List.take_append_drop i l]
  rw [List.filter_append,List.filter_eq_self.mpr (fun x member => decide_eq_true (front x member)),
    List.filter_eq_nil_iff.mpr (fun x member => by simpa using back x member),List.append_nil]

end

section
variable {m : Memberlist}

/-- The list keeps exactly what stays, in some order. -/
theorem resetNodes_nodes (now : Time) (draws : Nat → Nat) :
    (resetNodes m now draws).nodes.Perm (m.nodes.filter (fun r => Stays m.heap m.config.gossipToTheDeadTime now r)) := by
  obtain ⟨perm,-,kept,reaped⟩ := moveDeadNodes_spec m.heap m.nodes m.config.gossipToTheDeadTime now
  have split := filter_of_split (fun r => Stays m.heap m.config.gossipToTheDeadTime now r)
    (fun r member => (stays_iff r).mpr (kept r member))
    (fun r member stays => (stays_iff r).mp stays (reaped r member))
  refine (shuffleNodes_perm draws _).trans ?_
  rw [← split]
  exact perm.filter _

theorem resetNodes_map (agree : Agree m) (now : Time) (draws : Nat → Nat) (n : Bytes) :
    (resetNodes m now draws).nodeMap n =
      (m.nodeMap n).filter (fun r => Stays m.heap m.config.gossipToTheDeadTime now r) := by
  rw [resetNodes_nodeMap now draws agree]
  congr 1
  funext r
  by_cases stays : Stays m.heap m.config.gossipToTheDeadTime now r
  · have fresh := mt reaps_iff.mp ((stays_iff r).mp stays)
    simp [stays,fresh]
  · have expired := reaps_iff.mpr (not_not.mp (mt (stays_iff r).mpr stays))
    simp [stays,expired]

end

/-- A difference of instants is compared as it is, unless with the longest duration. -/
theorem sub_le_iff {t u : Time} {d : Duration} (least : minDuration ≤ d) (short : d < maxDuration) :
    sub t u ≤ d ↔ t - u ≤ d := by
  rw [sub,max_le_iff,min_le_iff]
  constructor
  · rintro ⟨-,long | within⟩
    · exact absurd long (not_le.mpr short)
    · exact within
  · exact fun within => ⟨least,.inr within⟩

/-- `moveDeadNodes` stops after a turn for each entry, with no index out of range. It permutes the list, and
    returns the index from which on the entries are dead or left for longer than the dead are gossiped
    to. So where the list and the map agree, `resetNodes` keeps exactly the other entries in both, and
    counts them. -/
theorem reaping_exact :
    (∀ (heap : Ref → NodeState) (nodes : List Ref) (deadTime : Duration) (now : Time),
      ∃ (moved : List Ref) (deadIdx : Nat), scan heap deadTime now (nodes.length + 1) nodes 0 0 = some (moved,(deadIdx : Int)) ∧
        moved.Perm nodes ∧ deadIdx ≤ nodes.length ∧
        (∀ r ∈ moved.take deadIdx, (heap r).deadOrLeft = false ∨ sub now (heap r).stateChange ≤ deadTime) ∧
        ∀ r ∈ moved.drop deadIdx, (heap r).deadOrLeft = true ∧ deadTime < sub now (heap r).stateChange) ∧
    (∀ (t u : Time) (d : Duration), minDuration ≤ d → d < maxDuration → (sub t u ≤ d ↔ t - u ≤ d)) ∧
    ∀ (m : Memberlist) (now : Time) (draws : Nat → Nat), Agree m →
      let stays := fun r => decide (Stays m.heap m.config.gossipToTheDeadTime now r)
      (resetNodes m now draws).nodes.Perm (m.nodes.filter stays) ∧
        (∀ n, (resetNodes m now draws).nodeMap n = (m.nodeMap n).filter stays) ∧
        (resetNodes m now draws).numNodes = UInt32.ofNat (m.nodes.filter stays).length := by
  refine ⟨?_,fun t u d => sub_le_iff,?_⟩
  · intro heap nodes deadTime now
    obtain ⟨perm,bound,kept,reaped⟩ := moveDeadNodes_spec heap nodes deadTime now
    refine ⟨_,_,scan_moveDeadNodes nodes,perm,bound,?_,reaped⟩
    intro r member
    have fresh := kept r member
    rw [Expired,not_and_or,not_lt] at fresh
    exact fresh.imp_left (fun live => by simpa using live)
  · intro m now draws agree stays
    have list := resetNodes_nodes (m := m) now draws
    refine ⟨list,resetNodes_map agree now draws,?_⟩
    rw [resetNodes_count,list.length_eq]

/-- A table with a node that is dead since the start of the clock. -/
def deadPeer : Memberlist :=
  addNode (buildMemberlist { name := [97], gossipToTheDeadTime := 5 })
    { name := [98], addr := none, port := 0, metadata := none, state := .dead } 0

theorem reaping_exact_peer :
    Agree deadPeer ∧ deadPeer.nodes = [1] ∧ (resetNodes deadPeer 10 (fun _ => 0)).nodeMap [98] = none ∧
      (resetNodes deadPeer 5 (fun _ => 0)).nodeMap [98] = some 1 := by
  have agree : Agree deadPeer := (tableWF_addNode (tableWF_build _) rfl 0).agree
  have late := (reaping_exact.2.2 deadPeer 10 (fun _ => 0) agree).2.1 [98]
  have early := (reaping_exact.2.2 deadPeer 5 (fun _ => 0) agree).2.1 [98]
  exact ⟨agree,by decide,late.trans (by decide),early.trans (by decide)⟩

end Mori.DeadNodes
