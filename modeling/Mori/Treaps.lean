import Mathlib.Data.List.Sort

/-!
Treaps over any entries: binary trees that are ordered by `less` and, as heaps, by
`prio`. Both are parameters of the operations, so that the keys may live outside
the tree. Every operation is described by what it does to the entries in order
(`toList`), where the priorities do not matter: inserting is inserting into a
sorted list, deleting is erasing, and a search finds the first entry of the list.
-/
namespace Mori.Treaps

inductive Treap (α : Type) where
  | nil
  | node (left : Treap α) (x : α) (right : Treap α)
deriving Repr

variable {α σ : Type}

/-- The entries in order. -/
def toList : Treap α → List α
  | .nil => []
  | .node l x r => toList l ++ x :: toList r

@[simp] theorem toList_nil : toList (.nil : Treap α) = [] := rfl
@[simp] theorem toList_node (l r : Treap α) (x : α) : toList (.node l x r) = toList l ++ x :: toList r := rfl

def size : Treap α → Nat
  | .nil => 0
  | .node l _ r => size l + size r + 1

theorem size_eq_length (t : Treap α) : size t = (toList t).length := by
  induction t with
  | nil => rfl
  | node l x r ihl ihr =>
    simp only [size,toList_node,List.length_append,List.length_cons,ihl,ihr]
    omega

section
variable (less : α → α → Bool) (prio : α → Nat)

/-- The entries that order before `k`, and the rest. -/
def split : Treap α → α → Treap α × Treap α
  | .nil,_ => (.nil,.nil)
  | .node l x r,k =>
    if less x k then (.node l x (split r k).1,(split r k).2)
    else ((split l k).1,.node (split l k).2 x r)

/-- Links an entry that is not linked already. -/
def insert : Treap α → α → Treap α
  | .nil,x => .node .nil x .nil
  | .node l y r,x =>
    if prio y < prio x then .node (split less (.node l y r) x).1 x (split less (.node l y r) x).2
    else if less x y then .node (insert l x) y r
    else .node l y (insert r x)

/-- Joins the tree with left part `l`, root `x` and right part `r` with a tree whose
    entries all order after; `join` joins `r` with such a tree. -/
def mergeRoot (join : Treap α → Treap α) (l : Treap α) (x : α) (r : Treap α) : Treap α → Treap α
  | .nil => .node l x r
  | .node l' y r' =>
    if prio y < prio x then .node l x (join (.node l' y r')) else .node (mergeRoot join l x r l') y r'

/-- Joins two trees where every entry of the first orders before the second. -/
def merge : Treap α → Treap α → Treap α
  | .nil,hi => hi
  | .node l x r,hi => mergeRoot prio (merge r) l x r hi

@[simp] theorem merge_nil_left (hi : Treap α) : merge prio .nil hi = hi := rfl

@[simp] theorem merge_nil_right (lo : Treap α) : merge prio lo .nil = lo := by
  cases lo <;> rfl

theorem merge_node_node (l r l' r' : Treap α) (x y : α) :
    merge prio (.node l x r) (.node l' y r') =
      if prio y < prio x then .node l x (merge prio r (.node l' y r'))
      else .node (merge prio (.node l x r) l') y r' := rfl

/-- Unlinks an entry. `none` is where the search for it runs off the tree. -/
def delete [DecidableEq α] : Treap α → α → Option (Treap α)
  | .nil,_ => none
  | .node l y r,x =>
    if y = x then some (merge prio l r)
    else if less x y then (delete l x).map (fun l' => .node l' y r)
    else (delete r x).map (fun r' => .node l y r')

end

/-- The search for the first entry that is not `before`, with the best one so far. -/
def ceilFrom (before : α → Bool) : Treap α → Option α → Option α
  | .nil,best => best
  | .node l x r,best => if before x then ceilFrom before r best else ceilFrom before l (some x)

def ceil (before : α → Bool) (t : Treap α) : Option α := ceilFrom before t none

/-- The first entry. -/
def min : Treap α → Option α
  | .nil => none
  | .node .nil x _ => some x
  | .node (.node l y r) _ _ => min (.node l y r)

/-- The last entry. -/
def max : Treap α → Option α
  | .nil => none
  | .node _ x .nil => some x
  | .node _ _ (.node l y r) => max (.node l y r)

/-- The way down to the first entry that is not `before`: the entries passed with
    their right parts, the last one on top. -/
def descend (before : α → Bool) : Treap α → List (α × Treap α) → List (α × Treap α)
  | .nil,stack => stack
  | .node l x r,stack => if before x then descend before r stack else descend before l ((x,r) :: stack)

/-- Visits the entries on the stack, each with its right part, until a visit says
    that it was the last. The fuel is the number of visits left. -/
def ascendStack (visit : σ → α → σ × Bool) : Nat → List (α × Treap α) → σ → σ
  | 0,_,s => s
  | _ + 1,[],s => s
  | fuel + 1,(x,r) :: stack,s =>
    if (visit s x).2 then ascendStack visit fuel (descend (fun _ => false) r stack) (visit s x).1
    else (visit s x).1

/-- Visits in order the entries that are not `before`. -/
def ascendFrom (before : α → Bool) (t : Treap α) (visit : σ → α → σ × Bool) (s : σ) : σ :=
  ascendStack visit (size t) (descend before t []) s

/-- A strict order on the entries, where entries that are not ordered count as equal. -/
structure WeakOrder (less : α → α → Bool) : Prop where
  irrefl : ∀ a, less a a = false
  trans : ∀ a b c, less a b = true → less b c = true → less a c = true
  between : ∀ a b c, less a c = true → less a b = true ∨ less b c = true

theorem WeakOrder.asymm {less : α → α → Bool} (order : WeakOrder less) {a b : α} (first : less a b = true) :
    less b a = false := by
  by_contra second
  have same := order.trans a b a first (by simpa using second)
  rw [order.irrefl] at same
  cases same

/-- What orders before an entry orders before what does not. -/
theorem WeakOrder.lt_of_lt_of_not {less : α → α → Bool} (order : WeakOrder less) {a b c : α} (first : less a b = true)
    (second : less c b = false) : less a c = true := by
  rcases order.between a c b first with done | wrong
  · exact done
  · rw [second] at wrong
    cases wrong

/-- The entries increase. -/
def Sorted (less : α → α → Bool) (l : List α) : Prop := l.Pairwise (fun a b => less a b = true)

section
variable {less : α → α → Bool}

/-- A sorted list with one more entry. -/
abbrev insertSorted (less : α → α → Bool) (x : α) (l : List α) : List α :=
  l.orderedInsert (fun a b => less a b = true) x

theorem insertSorted_cut {x : α} {lo hi : List α} (below : ∀ y ∈ lo, less x y = false)
    (above : ∀ y ∈ hi, less x y = true) : insertSorted less x (lo ++ hi) = lo ++ x :: hi := by
  induction lo with
  | nil =>
    cases hi with
    | nil => rfl
    | cons y hi => simp [insertSorted,above y List.mem_cons_self]
  | cons y lo ih =>
    have first := below y List.mem_cons_self
    have rest := ih (fun z member => below z (List.mem_cons_of_mem y member))
    simp only [insertSorted] at rest
    simp [insertSorted,first,rest]

theorem insertSorted_left {x y : α} (before : less x y = true) (l r : List α) :
    insertSorted less x (l ++ y :: r) = insertSorted less x l ++ y :: r := by
  induction l with
  | nil => simp [insertSorted,before]
  | cons z l ih =>
    simp only [insertSorted] at ih ⊢
    by_cases first : less x z = true
    · simp [first]
    · simp [first,ih]

theorem insertSorted_right {x y : α} {l : List α} (below : ∀ z ∈ l, less x z = false) (after : less x y = false)
    (r : List α) : insertSorted less x (l ++ y :: r) = l ++ y :: insertSorted less x r := by
  induction l with
  | nil => simp [insertSorted,after]
  | cons z l ih =>
    have first := below z List.mem_cons_self
    have rest := ih (fun z' member => below z' (List.mem_cons_of_mem z member))
    simp only [insertSorted] at rest ⊢
    simp [first,rest]

theorem mem_insertSorted {x y : α} {l : List α} : y ∈ insertSorted less x l ↔ y = x ∨ y ∈ l :=
  List.mem_orderedInsert ..

theorem perm_insertSorted (x : α) (l : List α) : (insertSorted less x l).Perm (x :: l) :=
  List.perm_orderedInsert ..

/-- `x` is ordered with respect to every entry. -/
def Comparable (less : α → α → Bool) (x : α) (l : List α) : Prop := ∀ y ∈ l, less x y = true ∨ less y x = true

end

/-- At every entry, what is on its left is related to it by `R`, and what is on its
    right by `S`. -/
def Each (R S : α → α → Prop) : Treap α → Prop
  | .nil => True
  | .node l x r => (∀ y ∈ toList l, R y x) ∧ (∀ y ∈ toList r, S y x) ∧ Each R S l ∧ Each R S r

section
variable {less : α → α → Bool} {prio : α → Nat} {R S : α → α → Prop}

theorem each_congr {R' S' : α → α → Prop} {t : Treap α}
    (same : ∀ x ∈ toList t, ∀ y ∈ toList t, (R x y → R' x y) ∧ (S x y → S' x y)) (each : Each R S t) :
    Each R' S' t := by
  induction t with
  | nil => trivial
  | node l x r ihl ihr =>
    obtain ⟨left,right,below,above⟩ := each
    have root : x ∈ toList (.node l x r) := by simp
    have inLeft : ∀ y ∈ toList l, y ∈ toList (.node l x r) := fun y member => by simp [member]
    have inRight : ∀ y ∈ toList r, y ∈ toList (.node l x r) := fun y member => by simp [member]
    refine ⟨?_,?_,ihl ?_ below,ihr ?_ above⟩
    · intro y member
      exact (same y (inLeft y member) x root).1 (left y member)
    · intro y member
      exact (same y (inRight y member) x root).2 (right y member)
    · intro y member z member'
      exact same y (inLeft y member) z (inLeft z member')
    · intro y member z member'
      exact same y (inRight y member) z (inRight z member')

variable (less) in
theorem toList_split (t : Treap α) (k : α) : toList (split less t k).1 ++ toList (split less t k).2 = toList t := by
  induction t with
  | nil => rfl
  | node l x r ihl ihr =>
    simp only [split]
    split_ifs with before
    · simp [ihr]
    · rw [toList_node,toList_node,← List.append_assoc,ihl]

theorem mem_split_left {t : Treap α} {k y : α} (member : y ∈ toList (split less t k).1) : y ∈ toList t := by
  rw [← toList_split less t k]
  exact List.mem_append_left _ member

theorem mem_split_right {t : Treap α} {k y : α} (member : y ∈ toList (split less t k).2) : y ∈ toList t := by
  rw [← toList_split less t k]
  exact List.mem_append_right _ member

theorem each_split {t : Treap α} (each : Each R S t) (k : α) :
    Each R S (split less t k).1 ∧ Each R S (split less t k).2 := by
  induction t with
  | nil => exact ⟨trivial,trivial⟩
  | node l x r ihl ihr =>
    obtain ⟨left,right,below,above⟩ := each
    simp only [split]
    split_ifs
    · exact ⟨⟨left,fun y member => right y (mem_split_left member),below,(ihr above).1⟩,(ihr above).2⟩
    · exact ⟨(ihl below).1,fun y member => left y (mem_split_right member),right,(ihl below).2,above⟩

theorem perm_insert (t : Treap α) (x : α) : (toList (insert less prio t x)).Perm (x :: toList t) := by
  induction t with
  | nil => exact List.Perm.refl _
  | node l z r ihl ihr =>
    simp only [insert]
    split_ifs
    · rw [← toList_split less (.node l z r) x]
      exact List.perm_middle
    · exact ihl.append_right _
    · refine ((ihr.cons z).append_left _).trans ?_
      exact ((List.Perm.swap x z (toList r)).append_left _).trans List.perm_middle

theorem mem_insert {t : Treap α} {x y : α} : y ∈ toList (insert less prio t x) ↔ y = x ∨ y ∈ toList t := by
  rw [(perm_insert t x).mem_iff,List.mem_cons]

theorem toList_merge (lo hi : Treap α) : toList (merge prio lo hi) = toList lo ++ toList hi := by
  induction lo generalizing hi with
  | nil => rfl
  | node l x r _ ihr =>
    induction hi with
    | nil => simp
    | node l' y r' ihl' _ =>
      rw [merge_node_node]
      split_ifs
      · simp [ihr]
      · rw [toList_node,ihl',toList_node,toList_node]
        simp

/-- What is left after a deletion was there before. -/
theorem mem_of_delete [DecidableEq α] {t t' : Treap α} {x y : α} (deleted : delete less prio t x = some t')
    (member : y ∈ toList t') : y ∈ toList t := by
  induction t generalizing t' with
  | nil => cases deleted
  | node l z r ihl ihr =>
    simp only [delete] at deleted
    rw [toList_node,List.mem_append,List.mem_cons]
    split_ifs at deleted
    · cases deleted
      rw [toList_merge] at member
      exact (List.mem_append.mp member).imp id .inr
    · obtain ⟨l',smaller,rfl⟩ := Option.map_eq_some_iff.mp deleted
      rw [toList_node,List.mem_append,List.mem_cons] at member
      exact member.imp (ihl smaller) id
    · obtain ⟨r',smaller,rfl⟩ := Option.map_eq_some_iff.mp deleted
      rw [toList_node,List.mem_append,List.mem_cons] at member
      exact member.imp id (Or.imp id (ihr smaller))

/-- A deletion keeps what a merge of the two sides of an entry keeps. -/
theorem each_delete [DecidableEq α]
    (merged : ∀ (l r : Treap α) (x : α), Each R S (.node l x r) → Each R S (merge prio l r)) {t t' : Treap α} {x : α}
    (each : Each R S t) (deleted : delete less prio t x = some t') : Each R S t' := by
  induction t generalizing t' with
  | nil => cases deleted
  | node l z r ihl ihr =>
    simp only [delete] at deleted
    split_ifs at deleted
    · cases deleted
      exact merged l r z each
    · obtain ⟨l',smaller,rfl⟩ := Option.map_eq_some_iff.mp deleted
      obtain ⟨left,right,below,above⟩ := each
      exact ⟨fun y member => left y (mem_of_delete smaller member),right,ihl below smaller,above⟩
    · obtain ⟨r',smaller,rfl⟩ := Option.map_eq_some_iff.mp deleted
      obtain ⟨left,right,below,above⟩ := each
      exact ⟨left,fun y member => right y (mem_of_delete smaller member),below,ihr above smaller⟩

/-- What is on the left of an entry orders before it, and what is on the right does
    not. -/
def Ordered (less : α → α → Bool) : Treap α → Prop := Each (fun y x => less y x = true) (fun y x => less y x = false)

theorem split_spec (order : WeakOrder less) {t : Treap α} (ordered : Ordered less t) (k : α) :
    (∀ y ∈ toList (split less t k).1, less y k = true) ∧ (∀ y ∈ toList (split less t k).2, less y k = false) := by
  induction t with
  | nil => simp [split]
  | node l x r ihl ihr =>
    obtain ⟨below,above,left,right⟩ := ordered
    simp only [split]
    split_ifs with before
    · obtain ⟨lo,hi⟩ := ihr right
      refine ⟨fun y member => ?_,hi⟩
      rcases List.mem_append.mp member with inLeft | rest
      · exact order.trans y x k (below y inLeft) before
      · rcases List.mem_cons.mp rest with rfl | inRight
        · exact before
        · exact lo y inRight
    · obtain ⟨lo,hi⟩ := ihl left
      refine ⟨lo,fun y member => ?_⟩
      rcases List.mem_append.mp member with inLeft | rest
      · exact hi y inLeft
      · rcases List.mem_cons.mp rest with rfl | inRight
        · simpa using before
        · by_contra wrong
          rcases order.between y x k (by simpa using wrong) with first | second
          · rw [above y inRight] at first
            cases first
          · exact before second

theorem ordered_insert (order : WeakOrder less) {t : Treap α} (ordered : Ordered less t) (x : α) :
    Ordered less (insert less prio t x) := by
  induction t with
  | nil => simp [insert,Ordered,Each]
  | node l z r ihl ihr =>
    simp only [insert]
    split_ifs with higher before
    · obtain ⟨lo,hi⟩ := split_spec order ordered x
      exact ⟨lo,hi,each_split ordered x⟩
    · obtain ⟨below,above,left,right⟩ := ordered
      refine ⟨fun y member => ?_,above,ihl left,right⟩
      rcases mem_insert.mp member with rfl | old
      · exact before
      · exact below y old
    · obtain ⟨below,above,left,right⟩ := ordered
      refine ⟨below,fun y member => ?_,left,ihr right⟩
      rcases mem_insert.mp member with rfl | old
      · simpa using before
      · exact above y old

theorem ordered_merge (order : WeakOrder less) {lo hi : Treap α} (first : Ordered less lo) (second : Ordered less hi)
    (apart : ∀ a ∈ toList lo, ∀ b ∈ toList hi, less a b = true) : Ordered less (merge prio lo hi) := by
  induction lo generalizing hi with
  | nil => exact second
  | node l x r _ ihr =>
    induction hi with
    | nil => simpa using first
    | node l' y r' ihl' _ =>
      obtain ⟨below,above,left,right⟩ := first
      obtain ⟨below',above',left',right'⟩ := second
      rw [merge_node_node]
      split_ifs with higher
      · refine ⟨below,fun z member => ?_,left,ihr right ⟨below',above',left',right'⟩ ?_⟩
        · rw [toList_merge] at member
          rcases List.mem_append.mp member with own | other
          · exact above z own
          · exact order.asymm (apart x (by simp) z other)
        · intro a member b member'
          exact apart a (by simp [member]) b member'
      · refine ⟨fun z member => ?_,above',ihl' left' ?_,right'⟩
        · rw [toList_merge] at member
          rcases List.mem_append.mp member with own | other
          · exact apart z own y (by simp)
          · exact below' z other
        · intro a member b member'
          exact apart a member b (by simp [member'])

theorem ordered_delete [DecidableEq α] (order : WeakOrder less) {t t' : Treap α} {x : α} (ordered : Ordered less t)
    (deleted : delete less prio t x = some t') : Ordered less t' := by
  refine each_delete ?_ ordered deleted
  rintro l r z ⟨below,above,left,right⟩
  refine ordered_merge order left right ?_
  intro a member b member'
  exact order.lt_of_lt_of_not (below a member) (above b member')

/-- A linked entry is found and erased. -/
theorem delete_spec [DecidableEq α] (order : WeakOrder less) {t : Treap α} (ordered : Ordered less t) {x : α}
    (linked : x ∈ toList t) :
    ∃ t', delete less prio t x = some t' ∧ toList t' = (toList t).erase x := by
  induction t with
  | nil => cases linked
  | node l y r ihl ihr =>
    obtain ⟨below,above,left,right⟩ := ordered
    have apart : y ∉ toList l := by
      intro member
      have wrong : less y y = true := below y member
      rw [order.irrefl] at wrong
      cases wrong
    simp only [delete]
    by_cases here : y = x
    · subst here
      refine ⟨merge prio l r,if_pos rfl,?_⟩
      rw [toList_merge,toList_node,List.erase_append_right _ apart,List.erase_cons_head]
    rw [if_neg here]
    by_cases before : less x y = true
    · have inLeft : x ∈ toList l := by
        rcases List.mem_append.mp linked with inLeft | rest
        · exact inLeft
        · rcases List.mem_cons.mp rest with same | inRight
          · exact absurd same.symm here
          · rw [above x inRight] at before
            cases before
      obtain ⟨l',deleted,entries⟩ := ihl left inLeft
      refine ⟨.node l' y r,by rw [if_pos before,deleted]; rfl,?_⟩
      rw [toList_node,toList_node,entries,List.erase_append_left _ inLeft]
    · have notLeft : x ∉ toList l := fun member => before (below x member)
      have inRight : x ∈ toList r := by
        rcases List.mem_append.mp linked with inLeft | rest
        · exact absurd inLeft notLeft
        · exact (List.mem_cons.mp rest).resolve_left (Ne.symm here)
      obtain ⟨r',deleted,entries⟩ := ihr right inRight
      refine ⟨.node l y r',by rw [if_neg before,deleted]; rfl,?_⟩
      rw [toList_node,toList_node,entries,List.erase_append_right _ notLeft,List.erase_cons_tail (by simpa using here)]

/-- The entries of an ordered treap never decrease. -/
theorem ascending_of_ordered (order : WeakOrder less) {t : Treap α} (ordered : Ordered less t) :
    (toList t).Pairwise (fun a b => less b a = false) := by
  induction t with
  | nil => exact List.Pairwise.nil
  | node l x r ihl ihr =>
    obtain ⟨below,above,left,right⟩ := ordered
    refine List.pairwise_append.mpr ⟨ihl left,List.pairwise_cons.mpr ⟨above,ihr right⟩,?_⟩
    intro a member b member'
    rcases List.mem_cons.mp member' with rfl | inRight
    · exact order.asymm (below a member)
    · exact order.asymm (order.lt_of_lt_of_not (below a member) (above b inRight))

/-- Where any two entries are ordered, they increase. -/
theorem sorted_of_ordered (order : WeakOrder less) {t : Treap α} (ordered : Ordered less t) (once : (toList t).Nodup)
    (total : ∀ a ∈ toList t, ∀ b ∈ toList t, a ≠ b → less a b = true ∨ less b a = true) : Sorted less (toList t) := by
  refine (List.Pairwise.and_mem.mp ((ascending_of_ordered order ordered).and once)).imp ?_
  rintro a b ⟨member,member',notAbove,apart⟩
  exact (total a member b member' apart).resolve_right (by simp [notAbove])

theorem toList_insert (order : WeakOrder less) {t : Treap α} (ordered : Ordered less t) {x : α}
    (comparable : Comparable less x (toList t)) :
    toList (insert less prio t x) = insertSorted less x (toList t) := by
  induction t with
  | nil => rfl
  | node l y r ihl ihr =>
    have inLeft : Comparable less x (toList l) := fun z member => comparable z (by simp [member])
    have inRight : Comparable less x (toList r) := fun z member => comparable z (by simp [member])
    simp only [insert]
    split_ifs with higher before
    · -- The new root takes the tree apart at its place.
      obtain ⟨lo,hi⟩ := split_spec order ordered x
      have parts := toList_split less (.node l y r) x
      rw [toList_node,← parts,insertSorted_cut (fun z member => order.asymm (lo z member))]
      intro z member
      have known := comparable z (by rw [← parts]; exact List.mem_append_right _ member)
      exact known.resolve_right (by simp [hi z member])
    · rw [toList_node,toList_node,ihl ordered.2.2.1 inLeft,insertSorted_left before]
    · have after : less x y = false := by simpa using before
      have lower : ∀ z ∈ toList l, less x z = false := by
        intro z member
        by_contra wrong
        exact before (order.trans x z y (by simpa using wrong) (ordered.1 z member))
      rw [toList_node,toList_node,ihr ordered.2.2.2 inRight,insertSorted_right lower after]

/-- No entry has a higher priority than one above it. -/
def HeapOrdered (prio : α → Nat) : Treap α → Prop := Each (fun y x => prio y ≤ prio x) (fun y x => prio y ≤ prio x)

/-- The priority of the root bounds them all. -/
theorem heapOrdered_root {l r : Treap α} {x y : α} (heap : HeapOrdered prio (.node l x r))
    (member : y ∈ toList (.node l x r)) : prio y ≤ prio x := by
  rcases List.mem_append.mp member with inLeft | rest
  · exact heap.1 y inLeft
  · rcases List.mem_cons.mp rest with rfl | inRight
    · exact Nat.le_refl _
    · exact heap.2.1 y inRight

theorem heapOrdered_insert {t : Treap α} (heap : HeapOrdered prio t) (x : α) :
    HeapOrdered prio (insert less prio t x) := by
  induction t with
  | nil => simp [insert,HeapOrdered,Each]
  | node l z r ihl ihr =>
    simp only [insert]
    split_ifs with higher before
    · have top : ∀ y ∈ toList (.node l z r), prio y ≤ prio x :=
        fun y member => Nat.le_of_lt (Nat.lt_of_le_of_lt (heapOrdered_root heap member) higher)
      exact ⟨fun y member => top y (mem_split_left member),fun y member => top y (mem_split_right member),
        each_split heap x⟩
    · obtain ⟨left,right,below,above⟩ := heap
      refine ⟨fun y member => ?_,right,ihl below,above⟩
      rcases mem_insert.mp member with rfl | old
      · exact Nat.not_lt.mp higher
      · exact left y old
    · obtain ⟨left,right,below,above⟩ := heap
      refine ⟨left,fun y member => ?_,below,ihr above⟩
      rcases mem_insert.mp member with rfl | old
      · exact Nat.not_lt.mp higher
      · exact right y old

theorem heapOrdered_merge {lo hi : Treap α} (first : HeapOrdered prio lo) (second : HeapOrdered prio hi) :
    HeapOrdered prio (merge prio lo hi) := by
  induction lo generalizing hi with
  | nil => exact second
  | node l x r _ ihr =>
    induction hi with
    | nil => simpa using first
    | node l' y r' ihl' _ =>
      rw [merge_node_node]
      split_ifs with higher
      · refine ⟨first.1,fun z member => ?_,first.2.2.1,ihr first.2.2.2 second⟩
        rw [toList_merge] at member
        rcases List.mem_append.mp member with own | other
        · exact first.2.1 z own
        · exact Nat.le_trans (heapOrdered_root second other) (Nat.le_of_lt higher)
      · refine ⟨fun z member => ?_,second.2.1,ihl' second.2.2.1,second.2.2.2⟩
        rw [toList_merge] at member
        rcases List.mem_append.mp member with own | other
        · exact Nat.le_trans (heapOrdered_root first own) (Nat.not_lt.mp higher)
        · exact second.1 z other

theorem heapOrdered_delete [DecidableEq α] {t t' : Treap α} {x : α} (heap : HeapOrdered prio t)
    (deleted : delete less prio t x = some t') : HeapOrdered prio t' :=
  each_delete (fun _ _ _ node => heapOrdered_merge node.2.2.1 node.2.2.2) heap deleted

end

section
variable {before : α → Bool}

/-- What orders before an entry that is `before` is `before` too. -/
def Initial (before : α → Bool) (l : List α) : Prop := l.Pairwise (fun a b => before b = true → before a = true)

theorem ceilFrom_eq {t : Treap α} (initial : Initial before (toList t)) (best : Option α) :
    ceilFrom before t best = ((toList t).find? (fun x => !before x)).or best := by
  induction t generalizing best with
  | nil => rfl
  | node l x r ihl ihr =>
    obtain ⟨left,rest,across⟩ := List.pairwise_append.mp initial
    obtain ⟨-,right⟩ := List.pairwise_cons.mp rest
    simp only [ceilFrom]
    split_ifs with early
    · -- The left part is before the root, which is `before`.
      have nothing : (toList l).find? (fun y => !before y) = none := by
        rw [List.find?_eq_none]
        intro y member
        simp [across y member x List.mem_cons_self early]
      rw [ihr right,toList_node,List.find?_append,nothing,Option.none_or,List.find?_cons]
      simp [early]
    · rw [ihl left,toList_node,List.find?_append,List.find?_cons]
      simp [early]

theorem ceil_eq {t : Treap α} (initial : Initial before (toList t)) :
    ceil before t = (toList t).find? (fun x => !before x) := by
  rw [ceil,ceilFrom_eq initial,Option.or_none]

theorem min_eq (t : Treap α) : min t = (toList t).head? := by
  induction t with
  | nil => rfl
  | node l x r ihl _ =>
    cases l with
    | nil => rfl
    | node l' y r' =>
      rw [min,ihl]
      simp [List.head?_append]

theorem max_eq (t : Treap α) : max t = (toList t).getLast? := by
  induction t with
  | nil => rfl
  | node l x r _ ihr =>
    cases r with
    | nil => simp [max]
    | node l' y r' =>
      rw [max,ihr]
      simp [List.getLast?_append,List.getLast?_cons]

/-- Visits the items of a list until a visit says that it was the last. -/
def walk (visit : σ → α → σ × Bool) (s : σ) : List α → σ
  | [] => s
  | x :: xs => if (visit s x).2 then walk visit (visit s x).1 xs else (visit s x).1

/-- A walk that never stops early is a fold. -/
theorem walk_eq_foldl {visit : σ → α → σ × Bool} (goes : ∀ s x, (visit s x).2 = true) (s : σ) (l : List α) :
    walk visit s l = l.foldl (fun s x => (visit s x).1) s := by
  induction l generalizing s with
  | nil => rfl
  | cons x l ih => simp only [walk,goes,if_true,List.foldl_cons,ih]

/-- The entries that a stack stands for. -/
def pending : List (α × Treap α) → List α
  | [] => []
  | (x,r) :: stack => x :: (toList r ++ pending stack)

theorem pending_descend {t : Treap α} (initial : Initial before (toList t)) (stack : List (α × Treap α)) :
    pending (descend before t stack) = (toList t).filter (fun x => !before x) ++ pending stack := by
  induction t generalizing stack with
  | nil => rfl
  | node l x r ihl ihr =>
    obtain ⟨left,rest,across⟩ := List.pairwise_append.mp initial
    obtain ⟨after,right⟩ := List.pairwise_cons.mp rest
    simp only [descend]
    split_ifs with early
    · have nothing : (toList l).filter (fun y => !before y) = [] := by
        rw [List.filter_eq_nil_iff]
        intro y member
        simp [across y member x List.mem_cons_self early]
      rw [ihr right,toList_node,List.filter_append,nothing,List.filter_cons]
      simp [early]
    · -- What orders after an entry that is not `before` is not either.
      have all : (toList r).filter (fun y => !before y) = toList r := by
        rw [List.filter_eq_self]
        intro y member
        by_contra late
        exact early (after y member (by simpa using late))
      rw [ihl left,toList_node,List.filter_append,List.filter_cons,all]
      simp [early,pending]

theorem ascendStack_eq (visit : σ → α → σ × Bool) (fuel : Nat) (stack : List (α × Treap α)) (s : σ)
    (enough : (pending stack).length ≤ fuel) : ascendStack visit fuel stack s = walk visit s (pending stack) := by
  induction fuel generalizing stack s with
  | zero =>
    cases stack with
    | nil => rfl
    | cons top stack => simp [pending] at enough
  | succ fuel ih =>
    cases stack with
    | nil => rfl
    | cons top stack =>
      obtain ⟨x,r⟩ := top
      have all : Initial (fun _ => false) (toList r) := List.pairwise_of_forall (fun _ _ never => never)
      have next := pending_descend all stack
      simp only [Bool.not_false,List.filter_true] at next
      simp only [pending,List.length_cons] at enough
      simp only [ascendStack,pending,walk]
      rw [ih _ _ (by rw [next]; omega),next]

/-- The traversal visits in order the entries that are not `before`. -/
theorem ascendFrom_eq {t : Treap α} (initial : Initial before (toList t)) (visit : σ → α → σ × Bool) (s : σ) :
    ascendFrom before t visit s = walk visit s ((toList t).filter (fun x => !before x)) := by
  have stack := pending_descend initial []
  simp only [pending,List.append_nil] at stack
  rw [ascendFrom,ascendStack_eq,stack]
  rw [stack,size_eq_length]
  exact List.length_filter_le ..

end

end Mori.Treaps
