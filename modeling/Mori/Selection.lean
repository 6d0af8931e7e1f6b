import Mori.Slices
import Mori.Table

/-!
Random peers (`util.go`): `kRandomNodes` scans a shuffled copy of a short list, and draws from a long
one a bounded number of times. Whatever is drawn, what it returns is from the list, not excluded and
without repetition, and the slice of the caller stays as it was; from a short list it
returns as many as there are.
-/
namespace Mori.Selection
open Mori.Net Mori.Protocol Mori.State Mori.Table Mori.Slices

/-- `slices.Clone`: an append to the slice without length and capacity. -/
def clone (grow : Nat → Nat) (mem : Memory Ref) (s : Window) : Memory Ref × Window :=
  mem.append grow { s with len := 0, cap := 0 } (mem.read s)

/-- `nodes[i], nodes[j] = nodes[j], nodes[i]` on the array of a slice. -/
def swapAt (mem : Memory Ref) (s : Window) (i j : Nat) : Memory Ref :=
  (mem.write s i [(mem.read s).getD j 0]).write s j [(mem.read s).getD i 0]

def shuffleAtFrom (draws : Nat → Nat) (s : Window) : Nat → Memory Ref → Memory Ref
  | 0,mem => mem
  | i + 1,mem => shuffleAtFrom draws s i (swapAt mem s (i + 1) (draws (i + 1) % (i + 2)))

/-- `shuffleNodes` on the array of a slice. -/
def shuffleNodesAt (draws : Nat → Nat) (mem : Memory Ref) (s : Window) : Memory Ref := shuffleAtFrom draws s (s.len - 1) mem

/-- `exclude != nil && exclude(state)`. -/
def excluded (exclude : Option (Ref → Bool)) (r : Ref) : Bool := (exclude.map (fun f => f r)).getD false

section
variable (heap : Ref → NodeState) (exclude : Option (Ref → Bool)) (k : Nat)

/-- The scan of the shuffled copy, from an entry on. -/
def pick : List Ref → List Node → List Node
  | [],kNodes => kNodes
  | r :: nodes,kNodes =>
    if kNodes.length < k then
      if excluded exclude r = true then pick nodes kNodes else pick nodes (kNodes ++ [(heap r).toNode])
    else kNodes

/-- The draws that are left, from draw `i` on. -/
def probe (draws : Nat → Nat) (nodes : List Ref) : (left : Nat) → (i : Nat) → List Node → List Node
  | 0,_,kNodes => kNodes
  | left + 1,i,kNodes =>
    if kNodes.length < k then
      let r := nodes.getD (randomOffset (draws i) nodes.length) 0
      if excluded exclude r = true then probe draws nodes left (i + 1) kNodes
      else if kNodes.any (fun node => node.name = (heap r).name) = true then probe draws nodes left (i + 1) kNodes
      else probe draws nodes left (i + 1) (kNodes ++ [(heap r).toNode])
    else kNodes

/-- What is selected, and the memory with the copy that was shuffled. -/
def kRandomNodes (grow draws : Nat → Nat) (mem : Memory Ref) (nodes : Window) : Memory Ref × List Node :=
  let n := nodes.len
  if n < k * 3 then
    let copied := clone grow mem nodes
    let mem := shuffleNodesAt draws copied.1 copied.2
    (mem,pick heap exclude k (mem.read copied.2) [])
  else (mem,probe heap exclude k draws (mem.read nodes) (3 * n) 0 [])

end

section
variable {grow draws : Nat → Nat} {mem base : Memory Ref} {s : Window} {i j : Nat}

theorem fits_swapAt (fits : Fits mem s) (first : i < s.len) (second : j < s.len) : Fits (swapAt mem s i j) s :=
  fits_write (fits_write fits first.le fits _) second.le (fits_write fits first.le fits _) _

theorem read_swapAt (fits : Fits mem s) (first : i < s.len) (second : j < s.len) :
    (swapAt mem s i j).read s = swap (mem.read s) i j := by
  have size := length_read fits
  have written : (mem.write s i [(mem.read s).getD j 0]).read s = (mem.read s).set i ((mem.read s).getD j 0) := by
    rw [read_write fits first,overwrite_singleton (by omega)]
  rw [swapAt,read_write (fits_write fits first.le fits _) second,written,overwrite_singleton (by rw [List.length_set]; omega)]
  rfl

theorem keeps_swapAt (kept : base.Keeps mem) (new : base.arrays.length ≤ s.array) : base.Keeps (swapAt mem s i j) :=
  keeps_write (keeps_write kept new _ _) new _ _

/-- Shuffling the array of a slice shuffles what the slice shows, and touches no older array. -/
theorem shuffleAtFrom_spec (draws : Nat → Nat) (fits : Fits mem s) (inside : i = 0 ∨ i < s.len) (kept : base.Keeps mem)
    (new : base.arrays.length ≤ s.array) :
    (shuffleAtFrom draws s i mem).read s = shuffleFrom draws i (mem.read s) ∧ base.Keeps (shuffleAtFrom draws s i mem) := by
  induction i generalizing mem with
  | zero => exact ⟨rfl,kept⟩
  | succ i ih =>
    have first : i + 1 < s.len := by omega
    have second : draws (i + 1) % (i + 2) < s.len := by
      have below : draws (i + 1) % (i + 2) < i + 2 := Nat.mod_lt _ (Nat.succ_pos _)
      omega
    have next := ih (fits_swapAt fits first second) (by omega) (keeps_swapAt kept new)
    rw [read_swapAt fits first second] at next
    exact next

theorem fits_zero (fits : Fits mem s) : Fits mem { s with len := 0, cap := 0 } := by
  have within := fits.within
  exact ⟨fits.known,by dsimp only; omega,le_rfl⟩

theorem read_clone (grow : Nat → Nat) (fits : Fits mem s) : (clone grow mem s).1.read (clone grow mem s).2 = mem.read s := by
  rw [clone,read_append grow _ (fits_zero fits)]
  show List.take 0 _ ++ _ = _
  rw [List.take_zero,List.nil_append]

/-- A copy has an array of its own, unless there is nothing to copy. -/
theorem clone_cases (grow : Nat → Nat) (fits : Fits mem s) :
    mem.Keeps (clone grow mem s).1 ∧ ((clone grow mem s).2.len ≤ 1 ∨ mem.arrays.length ≤ (clone grow mem s).2.array) := by
  have size := length_read fits
  rw [clone,Memory.append]
  split_ifs with room
  · dsimp only at room
    have nothing : mem.read s = [] := List.length_eq_zero_iff.mp (by omega)
    rw [nothing,write_nil (fits_zero fits).known]
    exact ⟨keeps_refl mem,.inl (by simp)⟩
  · exact ⟨keeps_extend mem _,.inr le_rfl⟩

/-- The copy shows what the slice showed, shuffled, and the memory of the caller is kept. -/
theorem shuffled_copy (grow draws : Nat → Nat) (fits : Fits mem s) :
    (shuffleNodesAt draws (clone grow mem s).1 (clone grow mem s).2).read (clone grow mem s).2 =
      shuffleNodes draws (mem.read s) ∧ mem.Keeps (shuffleNodesAt draws (clone grow mem s).1 (clone grow mem s).2) := by
  have copied : Fits (clone grow mem s).1 (clone grow mem s).2 := fits_append grow _ (fits_zero fits)
  have shown := read_clone grow fits
  have size : (mem.read s).length = (clone grow mem s).2.len := by rw [← shown,length_read copied]
  obtain ⟨kept,few | new⟩ := clone_cases grow fits
  · have last : (clone grow mem s).2.len - 1 = 0 := by omega
    rw [shuffleNodesAt,shuffleNodes,size,last]
    exact ⟨shown,kept⟩
  · have shuffled := shuffleAtFrom_spec draws copied (i := (clone grow mem s).2.len - 1) (by omega) kept new
    rw [shuffleNodesAt,shuffleNodes,size]
    rw [shown] at shuffled
    exact shuffled

end

section
variable {heap : Ref → NodeState} {exclude : Option (Ref → Bool)} {k : Nat}

/-- The nodes of some records that are not excluded. -/
def eligible (exclude : Option (Ref → Bool)) (nodes : List Ref) : List Ref := nodes.filter (fun r => !excluded exclude r)

/-- The scan takes the first entries that are not excluded. -/
theorem pick_eq (nodes : List Ref) (kNodes : List Node) :
    pick heap exclude k nodes kNodes =
      kNodes ++ ((eligible exclude nodes).take (k - kNodes.length)).map (fun r => (heap r).toNode) := by
  induction nodes generalizing kNodes with
  | nil => simp [pick,eligible]
  | cons r nodes ih =>
    rw [pick]
    by_cases room : kNodes.length < k
    · rw [if_pos room]
      obtain ⟨left,more⟩ : ∃ left, k - kNodes.length = left + 1 := ⟨k - kNodes.length - 1,by omega⟩
      by_cases out : excluded exclude r = true
      · rw [if_pos out,ih]
        simp [eligible,out]
      · have fewer : k - (kNodes ++ [(heap r).toNode]).length = left := by
          rw [List.length_append,List.length_singleton]
          omega
        rw [if_neg out,ih,fewer,more]
        simp [eligible,out]
    · rw [if_neg room,Nat.sub_eq_zero_of_le (Nat.not_lt.mp room)]
      simp

/-- What a selection has to be: no more than asked for, of entries that are not excluded, without repetition. -/
structure Selected (heap : Ref → NodeState) (exclude : Option (Ref → Bool)) (k : Nat) (nodes : List Ref) (kNodes : List Node) :
    Prop where
  most : kNodes.length ≤ k
  listed : ∀ node ∈ kNodes, ∃ r ∈ eligible exclude nodes, node = (heap r).toNode
  distinct : (kNodes.map (fun node => node.name)).Nodup

theorem selected_pick {nodes scanned : List Ref} (perm : scanned.Perm nodes)
    (distinct : (nodes.map (fun r => (heap r).name)).Nodup) : Selected heap exclude k nodes (pick heap exclude k scanned []) := by
  rw [pick_eq,List.nil_append,List.length_nil,Nat.sub_zero]
  refine ⟨?_,?_,?_⟩
  · rw [List.length_map]
    exact List.length_take_le _ _
  · intro node member
    obtain ⟨r,taken,rfl⟩ := List.mem_map.mp member
    exact ⟨r,(perm.filter _).mem_iff.mp (List.mem_of_mem_take taken),rfl⟩
  · have names : (scanned.map (fun r => (heap r).name)).Nodup := (perm.map _).nodup_iff.mpr distinct
    rw [List.map_map]
    exact names.sublist (((List.take_sublist _ _).trans List.filter_sublist).map _)

/-- A drawn entry that is not excluded, and has no name that is selected, can be added. -/
theorem selected_add {nodes : List Ref} {kNodes : List Node} {r : Ref} (selected : Selected heap exclude k nodes kNodes)
    (room : kNodes.length < k) (member : r ∈ nodes) (free : ¬ excluded exclude r = true)
    (new : ¬ kNodes.any (fun node => node.name = (heap r).name) = true) :
    Selected heap exclude k nodes (kNodes ++ [(heap r).toNode]) where
  most := by
    rw [List.length_append,List.length_singleton]
    exact room
  listed node taken := by
    rcases List.mem_append.mp taken with earlier | last
    · exact selected.listed node earlier
    · refine ⟨r,List.mem_filter.mpr ⟨member,?_⟩,List.mem_singleton.mp last⟩
      simpa using free
  distinct := by
    rw [List.map_append,List.nodup_append]
    refine ⟨selected.distinct,List.nodup_singleton _,?_⟩
    intro name earlier name' last same
    obtain ⟨node,taken,rfl⟩ := List.mem_map.mp earlier
    have named : node.name = (heap r).name := same.trans (List.mem_singleton.mp last)
    exact new (List.any_eq_true.mpr ⟨node,taken,decide_eq_true named⟩)

theorem selected_probe (draws : Nat → Nat) {nodes : List Ref} (left i : Nat) {kNodes : List Node} (filled : 0 < left → nodes ≠ [])
    (selected : Selected heap exclude k nodes kNodes) :
    Selected heap exclude k nodes (probe heap exclude k draws nodes left i kNodes) := by
  induction left generalizing i kNodes with
  | zero => exact selected
  | succ left ih =>
    have nonempty : nodes ≠ [] := filled (Nat.succ_pos left)
    have inside : randomOffset (draws i) nodes.length < nodes.length :=
      randomOffset_lt (List.length_pos_iff.mpr nonempty) (draws i)
    have member : nodes.getD (randomOffset (draws i) nodes.length) 0 ∈ nodes := by
      rw [getD_of_lt inside]
      exact List.getElem_mem inside
    rw [probe]
    by_cases room : kNodes.length < k
    · rw [if_pos room]
      dsimp only
      split_ifs with out known
      · exact ih (i + 1) (fun _ => nonempty) selected
      · exact ih (i + 1) (fun _ => nonempty) selected
      · exact ih (i + 1) (fun _ => nonempty) (selected_add selected room member out known)
    · rw [if_neg room]
      exact selected

theorem selected_nil (nodes : List Ref) : Selected heap exclude k nodes [] :=
  ⟨Nat.zero_le k,fun _ member => absurd member List.not_mem_nil,List.nodup_nil⟩

end

section
variable (heap : Ref → NodeState) (exclude : Option (Ref → Bool)) {k : Nat} (grow draws : Nat → Nat) {mem : Memory Ref} {nodes : Window}

/-- From a short list, the first of the shuffled copy that are not excluded. -/
theorem kRandomNodes_short (fits : Fits mem nodes) (short : nodes.len < k * 3)
    (distinct : ((mem.read nodes).map (fun r => (heap r).name)).Nodup) :
    let result := kRandomNodes heap exclude k grow draws mem nodes
    Selected heap exclude k (mem.read nodes) result.2 ∧ mem.Keeps result.1 ∧
      result.2.length = min k (eligible exclude (mem.read nodes)).length := by
  obtain ⟨shown,kept⟩ := shuffled_copy grow draws fits
  have perm := shuffleNodes_perm draws (mem.read nodes)
  have same : (eligible exclude (shuffleNodes draws (mem.read nodes))).Perm (eligible exclude (mem.read nodes)) := perm.filter _
  rw [kRandomNodes,if_pos short]
  dsimp only
  rw [shown]
  refine ⟨selected_pick perm distinct,kept,?_⟩
  rw [pick_eq,List.nil_append,List.length_map,List.length_take,List.length_nil,Nat.sub_zero,same.length_eq]

/-- From a long list, what is drawn. -/
theorem kRandomNodes_long (fits : Fits mem nodes) (long : ¬ nodes.len < k * 3) :
    let result := kRandomNodes heap exclude k grow draws mem nodes
    Selected heap exclude k (mem.read nodes) result.2 ∧ mem.Keeps result.1 := by
  have size := length_read fits
  rw [kRandomNodes,if_neg long]
  refine ⟨selected_probe draws (3 * nodes.len) 0 (fun positive => ?_) (selected_nil _),keeps_refl mem⟩
  exact List.length_pos_iff.mp (by omega)

end

/-- Whatever the random source yields, at most `k` nodes are returned, from the list, pairwise distinct by name and
    none of them excluded; the slice of the caller, as every other, still shows what it showed; and from a list
    of fewer than `3 * k` entries as many are returned as there are to return. -/
theorem selection_sound (heap : Ref → NodeState) (exclude : Option (Ref → Bool)) (k : Nat) (grow draws : Nat → Nat)
    (mem : Memory Ref) (nodes : Window) (fits : Fits mem nodes)
    (distinct : ((mem.read nodes).map (fun r => (heap r).name)).Nodup) :
    let result := kRandomNodes heap exclude k grow draws mem nodes
    result.2.length ≤ k ∧
      (∀ node ∈ result.2, ∃ r ∈ mem.read nodes, excluded exclude r = false ∧ node = (heap r).toNode) ∧
      (result.2.map (fun node => node.name)).Nodup ∧
      (∀ s, Fits mem s → result.1.read s = mem.read s) ∧
      ((mem.read nodes).length < 3 * k →
        result.2.length = min k ((mem.read nodes).filter (fun r => !excluded exclude r)).length) := by
  have size := length_read fits
  intro result
  have spec : Selected heap exclude k (mem.read nodes) result.2 ∧ mem.Keeps result.1 ∧
      ((mem.read nodes).length < 3 * k → result.2.length = min k (eligible exclude (mem.read nodes)).length) := by
    by_cases short : nodes.len < k * 3
    · obtain ⟨selected,kept,all⟩ := kRandomNodes_short heap exclude grow draws fits short distinct
      exact ⟨selected,kept,fun _ => all⟩
    · obtain ⟨selected,kept⟩ := kRandomNodes_long heap exclude grow draws fits short
      exact ⟨selected,kept,fun wrong => by omega⟩
  obtain ⟨selected,kept,all⟩ := spec
  refine ⟨selected.most,?_,selected.distinct,fun s fits => read_of_keeps kept fits.known,all⟩
  intro node member
  obtain ⟨r,taken,same⟩ := selected.listed node member
  obtain ⟨listed,free⟩ := List.mem_filter.mp taken
  exact ⟨r,listed,by simpa using free,same⟩

/-- Peers, each with a name of its own. -/
def peers : Ref → NodeState := fun r => { name := [r.toUInt8], addr := none, port := 0, metadata := none, state := .alive }

/-- Two of three peers, the second being excluded, and two of seven, which are drawn. -/
theorem selection_sound_peers :
    (kRandomNodes peers (some (fun r => r = 2)) 2 id id ⟨[[1,2,3]]⟩ ⟨0,0,3,3⟩).2.length = 2 ∧
      (kRandomNodes peers (some (fun r => r = 2)) 2 id id ⟨[[1,2,3]]⟩ ⟨0,0,3,3⟩).1.read ⟨0,0,3,3⟩ = [1,2,3] ∧
      (kRandomNodes peers (some (fun r => r = 2)) 2 id id ⟨[[1,2,3,4,5,6,7]]⟩ ⟨0,0,7,7⟩).2.map (fun node => node.name) = [[1],[3]] ∧
      (kRandomNodes peers (some (fun r => r = 2)) 2 id id ⟨[[1,2,3,4,5,6,7]]⟩ ⟨0,0,7,7⟩).1.read ⟨0,0,7,7⟩ = [1,2,3,4,5,6,7] := by
  have fits : Fits (⟨[[1,2,3]]⟩ : Memory Ref) ⟨0,0,3,3⟩ := ⟨by decide,by decide,by decide⟩
  have fits' : Fits (⟨[[1,2,3,4,5,6,7]]⟩ : Memory Ref) ⟨0,0,7,7⟩ := ⟨by decide,by decide,by decide⟩
  have short := selection_sound peers (some (fun r => r = 2)) 2 id id ⟨[[1,2,3]]⟩ ⟨0,0,3,3⟩ fits (by decide)
  have long := selection_sound peers (some (fun r => r = 2)) 2 id id ⟨[[1,2,3,4,5,6,7]]⟩ ⟨0,0,7,7⟩ fits' (by decide)
  exact ⟨short.2.2.2.2 (by decide),short.2.2.2.1 _ fits,by decide,long.2.2.2.1 _ fits'⟩

end Mori.Selection
