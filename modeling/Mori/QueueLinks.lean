import Mori.Queue
import Mathlib.Data.List.Nodup

/-!
The links of the broadcast queue: the treap is ordered and heap-ordered, the index
holds exactly the named entries that are linked, and the count is that of the linked
entries. While packets are filled, some entries wait outside the treap; the
invariant is about the linked entries and about those. Linking and unlinking keep
it, so that an entry that is linked can always be unlinked.
-/
namespace Mori.QueueLinks
open Mori.Net Mori.Treaps Mori.Queue

/-- The linked entries, in order. -/
abbrev linked (q : TransmitLimitedQueue) : List Ref := toList q.root

theorem less_iff {b o : LimitedBroadcast} :
    less b o = true ↔ b.transmits < o.transmits ∨
      b.transmits = o.transmits ∧ (o.msgLen < b.msgLen ∨ o.msgLen = b.msgLen ∧ o.id < b.id) := by
  unfold less
  split_ifs with tier size
  · simp only [decide_eq_true_eq]
    omega
  · simp only [decide_eq_true_eq]
    omega
  · simp only [decide_eq_true_eq]
    omega

theorem less_false_iff {b o : LimitedBroadcast} :
    less b o = false ↔ o.transmits < b.transmits ∨
      b.transmits = o.transmits ∧ (b.msgLen < o.msgLen ∨ o.msgLen = b.msgLen ∧ b.id ≤ o.id) := by
  rw [← Bool.not_eq_true,less_iff]
  omega

theorem lessAt_order (heap : Ref → LimitedBroadcast) : WeakOrder (lessAt heap) where
  irrefl a := by
    rw [less_false_iff]
    omega
  trans a b c first second := by
    rw [less_iff] at first second ⊢
    omega
  between a b c below := by
    rw [less_iff] at below ⊢
    rw [less_iff]
    omega

/-- Entries with distinct ids are ordered. -/
theorem less_total {b o : LimitedBroadcast} (ids : b.id ≠ o.id) : less b o = true ∨ less o b = true := by
  rw [less_iff,less_iff]
  omega

/-- The map holds, by their names, the listed elements that have one. -/
def Indexes {κ ρ : Type} (names : κ → Option ρ) (named : κ → Prop) (listed : ρ → Prop) (key : ρ → κ) : Prop :=
  ∀ k r, names k = some r ↔ named k ∧ listed r ∧ key r = k

section
variable {κ ρ : Type} {names : κ → Option ρ} {named : κ → Prop} {listed listed' : ρ → Prop} {key : ρ → κ} {x : ρ}

theorem listed_apart {r : ρ} {k : κ} (others : ∀ r, r ≠ x → (listed r ↔ listed' r)) (away : k ≠ key x) :
    listed r ∧ key r = k ↔ listed' r ∧ key r = k := by
  refine and_congr_left (fun same => others r ?_)
  rintro rfl
  exact away same.symm

/-- An element without a name may come or go. -/
theorem indexes_unnamed (index : Indexes names named listed key) (others : ∀ r, r ≠ x → (listed r ↔ listed' r))
    (unnamed : ¬ named (key x)) : Indexes names named listed' key := by
  intro k r
  rw [index k r]
  refine and_congr_right (fun full => listed_apart others ?_)
  rintro rfl
  exact unnamed full

/-- One with a name of its own comes or goes with what the map holds under it. -/
theorem indexes_update [DecidableEq κ] (index : Indexes names named listed key) (others : ∀ r, r ≠ x → (listed r ↔ listed' r))
    (full : named (key x)) (alone : ∀ r, listed' r → key r = key x → r = x) {held : Option ρ}
    (own : ∀ r, held = some r ↔ r = x ∧ listed' x) : Indexes (Function.update names (key x) held) named listed' key := by
  intro k r
  by_cases here : k = key x
  · rw [here,Function.update_self,own]
    constructor
    · rintro ⟨rfl,inside⟩
      exact ⟨full,inside,rfl⟩
    · rintro ⟨-,inside,same⟩
      have equal := alone r inside same
      exact ⟨equal,equal ▸ inside⟩
  · rw [Function.update_of_ne here,index k r]
    exact and_congr_right (fun _ => listed_apart others here)

end

/-- The links of a queue while the `pending` entries are out of it. -/
structure WF (q : TransmitLimitedQueue) (pending : List Ref) : Prop where
  ordered : Ordered (lessAt q.heap) q.root
  heaped : HeapOrdered (prioAt q.heap) q.root
  once : (linked q ++ pending).Nodup
  allocated : ∀ r ∈ linked q ++ pending, r < q.alloc
  named : ∀ r ∈ linked q ++ pending, (q.heap r).name = (q.heap r).b.name
  sized : ∀ r ∈ linked q ++ pending, (q.heap r).msgLen = (q.heap r).b.message.length
  bounded : ∀ r ∈ linked q ++ pending, (q.heap r).id ≤ maxInt64
  apart : ∀ r ∈ linked q ++ pending, ∀ r' ∈ linked q ++ pending,
    (q.heap r).name = (q.heap r').name → (q.heap r).name ≠ [] → r = r'
  count : q.n = (linked q).length
  index : ∀ name r, lookup q name = some r ↔ name ≠ [] ∧ r ∈ linked q ∧ (q.heap r).name = name
  ready : linked q ++ pending ≠ [] → q.tm ≠ none

theorem wf_empty : WF {} [] where
  ordered := trivial
  heaped := trivial
  once := List.nodup_nil
  allocated r member := by cases member
  named r member := by cases member
  sized r member := by cases member
  bounded r member := by cases member
  apart r member := by cases member
  count := rfl
  index name r := by simp [lookup,linked]
  ready nonempty := absurd rfl nonempty

section
variable {q q' : TransmitLimitedQueue} {pending pending' : List Ref} {r : Ref}

/-- Entries outside the treap may change their keys, and fewer may be pending. -/
theorem wf_frame (wf : WF q pending) (root : q'.root = q.root) (count : q'.n = q.n) (names : lookup q' = lookup q)
    (ready : q.tm ≠ none → q'.tm ≠ none) (alloc : q.alloc ≤ q'.alloc)
    (same : ∀ r ∈ linked q, q'.heap r = q.heap r)
    (kept : ∀ r ∈ pending', r ∈ pending ∧ (q'.heap r).name = (q.heap r).name ∧ (q'.heap r).b = (q.heap r).b ∧
      (q'.heap r).msgLen = (q.heap r).msgLen ∧ (q'.heap r).id = (q.heap r).id)
    (fewer : pending'.Nodup) : WF q' pending' := by
  have old : ∀ r ∈ linked q ++ pending', r ∈ linked q ++ pending ∧ (q'.heap r).name = (q.heap r).name ∧
      (q'.heap r).b = (q.heap r).b ∧ (q'.heap r).msgLen = (q.heap r).msgLen ∧ (q'.heap r).id = (q.heap r).id := by
    intro r member
    rcases List.mem_append.mp member with inside | outside
    · rw [same r inside]
      exact ⟨List.mem_append_left _ inside,rfl,rfl,rfl,rfl⟩
    · exact ⟨List.mem_append_right _ (kept r outside).1,(kept r outside).2⟩
  have links : linked q' = linked q := by rw [linked,root]
  constructor
  · rw [root]
    refine each_congr ?_ wf.ordered
    intro a first b second
    simp only [lessAt,same a first,same b second]
    exact ⟨id,id⟩
  · rw [root]
    refine each_congr ?_ wf.heaped
    intro a first b second
    simp only [prioAt,same a first,same b second]
    exact ⟨id,id⟩
  · obtain ⟨inside,-,across⟩ := List.nodup_append.mp wf.once
    rw [links]
    refine List.nodup_append.mpr ⟨inside,fewer,?_⟩
    intro a first b second
    exact across a first b (kept b second).1
  · intro r member
    rw [links] at member
    exact Nat.lt_of_lt_of_le (wf.allocated r (old r member).1) alloc
  · intro r member
    rw [links] at member
    obtain ⟨was,name,b,-⟩ := old r member
    rw [name,b]
    exact wf.named r was
  · intro r member
    rw [links] at member
    obtain ⟨was,-,b,size,-⟩ := old r member
    rw [size,b]
    exact wf.sized r was
  · intro r member
    rw [links] at member
    obtain ⟨was,-,-,-,id⟩ := old r member
    rw [id]
    exact wf.bounded r was
  · intro r member r' member'
    rw [links] at member member'
    rw [(old r member).2.1,(old r' member').2.1]
    exact wf.apart r (old r member).1 r' (old r' member').1
  · rw [count,links,wf.count]
  · intro name r
    rw [names,wf.index,links]
    refine and_congr_right (fun _ => and_congr_right (fun member => ?_))
    rw [same r member]
  · intro nonempty
    rw [links] at nonempty
    refine ready (wf.ready ?_)
    obtain ⟨r,member⟩ := List.exists_mem_of_ne_nil _ nonempty
    exact List.ne_nil_of_mem (old r member).1

/-- A pending entry is not linked. -/
theorem unlinked (wf : WF q pending) (member : r ∈ pending) : r ∉ linked q := by
  intro inside
  exact (List.nodup_append.mp wf.once).2.2 r inside r member rfl

/-- The log of what was finished and returned does not matter. -/
theorem wf_log (wf : WF q pending) (finished : List (Ref × Cause)) (returned : List Ref) :
    WF { q with finished := finished, returned := returned } pending :=
  wf_frame wf rfl rfl rfl id (Nat.le_refl _) (fun _ _ => rfl) (fun _ member => ⟨member,rfl,rfl,rfl,rfl⟩)
    (List.nodup_append.mp wf.once).2.1

/-- A pending entry may be forgotten. -/
theorem wf_forget (wf : WF q (pending ++ [r])) : WF q pending :=
  wf_frame wf rfl rfl rfl id (Nat.le_refl _) (fun _ _ => rfl)
    (fun _ member => ⟨List.mem_append_left _ member,rfl,rfl,rfl,rfl⟩)
    (List.nodup_append.mp (List.nodup_append.mp wf.once).2.1).1

/-- A new entry with a name of its own may wait to be linked. -/
theorem wf_await (wf : WF q []) (fresh : r ∉ linked q) (allocated : r < q.alloc)
    (named : (q.heap r).name = (q.heap r).b.name) (sized : (q.heap r).msgLen = (q.heap r).b.message.length)
    (bounded : (q.heap r).id ≤ maxInt64) (own : (q.heap r).name ≠ [] → ∀ r' ∈ linked q, (q.heap r').name ≠ (q.heap r).name)
    (ready : q.tm ≠ none) : WF q [r] := by
  have both : ∀ r' ∈ linked q ++ [r], r' ∈ linked q ++ [] ∨ r' = r := by
    intro r' member
    rw [List.append_nil]
    simpa using member
  constructor
  · exact wf.ordered
  · exact wf.heaped
  · refine List.nodup_append.mpr ⟨(List.nodup_append.mp wf.once).1,List.nodup_singleton r,?_⟩
    intro a inside b same
    rw [List.mem_singleton.mp same]
    exact fun equal => fresh (equal ▸ inside)
  · intro r' member
    rcases both r' member with old | rfl
    · exact wf.allocated r' old
    · exact allocated
  · intro r' member
    rcases both r' member with old | rfl
    · exact wf.named r' old
    · exact named
  · intro r' member
    rcases both r' member with old | rfl
    · exact wf.sized r' old
    · exact sized
  · intro r' member
    rcases both r' member with old | rfl
    · exact wf.bounded r' old
    · exact bounded
  · intro a first b second same titled
    rcases both a first with old | rfl
    · rcases both b second with old' | rfl
      · exact wf.apart a old b old' same titled
      · exact absurd same (own (same ▸ titled) a (by simpa using old))
    · rcases both b second with old' | rfl
      · exact absurd same.symm (own titled b (by simpa using old'))
      · rfl
  · exact wf.count
  · exact wf.index
  · exact fun _ => ready

/-- A linked entry can be unlinked; it is pending then. -/
theorem deleteItem_spec (wf : WF q pending) (member : r ∈ linked q) :
    ∃ root tm, deleteItem q r = some { q with root := root, n := q.n - 1, tm := tm } ∧
      toList root = (linked q).erase r ∧ (q.tm ≠ none → tm ≠ none) ∧
      WF { q with root := root, n := q.n - 1, tm := tm } (pending ++ [r]) := by
  obtain ⟨root,deleted,entries⟩ := delete_spec (lessAt_order q.heap) wf.ordered member
  have deleted : treapDelete q.heap q.root r = some root := deleted
  obtain ⟨inside,outside,across⟩ := List.nodup_append.mp wf.once
  have known : ∀ r' ∈ toList root ++ (pending ++ [r]), r' ∈ linked q ++ pending := by
    intro r' listed
    rw [entries] at listed
    rcases List.mem_append.mp listed with stays | out
    · exact List.mem_append_left _ (List.mem_of_mem_erase stays)
    · rcases List.mem_append.mp out with waits | same
      · exact List.mem_append_right _ waits
      · rw [List.mem_singleton.mp same]
        exact List.mem_append_left _ member
  have positive : 0 < (linked q).length := List.length_pos_of_mem member
  refine ⟨root,
    if (q.heap r).name ≠ [] then q.tm.map (fun tm => Function.update tm (q.heap r).name none) else q.tm,
    by rw [deleteItem,deleted]; rfl,entries,?_,?_⟩
  · intro ready
    split_ifs
    · simpa using ready
    · exact ready
  constructor
  · exact ordered_delete (lessAt_order q.heap) wf.ordered deleted
  · exact heapOrdered_delete wf.heaped deleted
  · rw [linked,entries]
    refine List.nodup_append.mpr ⟨inside.erase r,?_,?_⟩
    · refine List.nodup_append.mpr ⟨outside,List.nodup_singleton r,?_⟩
      intro a waits b same
      rw [List.mem_singleton.mp same]
      exact (across r member a waits).symm
    · intro a stays b out
      rcases List.mem_append.mp out with waits | same
      · exact across a (List.mem_of_mem_erase stays) b waits
      · rw [List.mem_singleton.mp same]
        exact (inside.mem_erase_iff.mp stays).1
  · exact fun r' listed => wf.allocated r' (known r' listed)
  · exact fun r' listed => wf.named r' (known r' listed)
  · exact fun r' listed => wf.sized r' (known r' listed)
  · exact fun r' listed => wf.bounded r' (known r' listed)
  · exact fun a first b second => wf.apart a (known a first) b (known b second)
  · have shorter : ((linked q).erase r).length = (linked q).length - 1 := List.length_erase_of_mem member
    have count := wf.count
    simp only [linked,entries] at shorter count positive ⊢
    omega
  · have stays : ∀ r', r' ∈ toList root ↔ r' ≠ r ∧ r' ∈ linked q := by
      intro r'
      rw [entries]
      exact inside.mem_erase_iff
    have others : ∀ r', r' ≠ r → (r' ∈ linked q ↔ r' ∈ toList root) :=
      fun r' different => ⟨fun listed => (stays r').mpr ⟨different,listed⟩,fun listed => ((stays r').mp listed).2⟩
    split_ifs with titled
    · -- Unlinking an entry removes its own name only.
      have alone : ∀ r' ∈ toList root, (q.heap r').name = (q.heap r).name → r' = r := by
        intro r' listed same
        exact wf.apart r' (List.mem_append_left _ ((stays r').mp listed).2) r (List.mem_append_left _ member) same
          (same ▸ titled)
      have updated : lookup { q with
          root := root, n := q.n - 1, tm := q.tm.map (fun tm => Function.update tm (q.heap r).name none) } =
          Function.update (lookup q) (q.heap r).name none := by
        funext name
        simp only [lookup,Function.update_apply]
        cases q.tm with
        | none => simp
        | some tm => simp [Function.update_apply]
      rw [updated]
      refine indexes_update (x := r) wf.index others titled alone (fun r' => ?_)
      simp [stays r]
    · exact indexes_unnamed wf.index others titled
  · intro _
    have ready := wf.ready (List.ne_nil_of_mem (List.mem_append_left _ member))
    split_ifs
    · simpa using ready
    · exact ready

/-- A pending entry can be linked. It takes its place in the order where it is
    ordered with respect to the linked entries. -/
theorem addItem_spec (wf : WF q (r :: pending)) (draw : UInt64) :
    ∃ root tm,
      let linkedNow := { q with
        heap := Function.update q.heap r { q.heap r with prio := draw }, root := root, n := q.n + 1, tm := tm }
      addItem q r draw = some linkedNow ∧ (toList root).Perm (r :: linked q) ∧
      (Comparable (lessAt q.heap) r (linked q) → toList root = insertSorted (lessAt q.heap) r (linked q)) ∧
      WF linkedNow pending := by
  generalize heapEq : Function.update q.heap r { q.heap r with prio := draw } = heap
  have outside : r ∉ linked q := unlinked wf List.mem_cons_self
  have fields : ∀ a, (heap a).name = (q.heap a).name ∧ (heap a).b = (q.heap a).b ∧
      (heap a).msgLen = (q.heap a).msgLen ∧ (heap a).id = (q.heap a).id ∧ (heap a).transmits = (q.heap a).transmits := by
    intro a
    subst heapEq
    simp only [Function.update_apply]
    split_ifs with same
    · rw [same]
      exact ⟨rfl,rfl,rfl,rfl,rfl⟩
    · exact ⟨rfl,rfl,rfl,rfl,rfl⟩
  have sameKeys : lessAt heap = lessAt q.heap := by
    funext a b
    simp only [lessAt,less,fields]
  have ordered : Ordered (lessAt heap) q.root := by
    rw [sameKeys]
    exact wf.ordered
  have heaped : HeapOrdered (prioAt heap) q.root := by
    refine each_congr ?_ wf.heaped
    intro a first b second
    subst heapEq
    simp only [prioAt,Function.update_of_ne (fun same : a = r => outside (same ▸ first)),
      Function.update_of_ne (fun same : b = r => outside (same ▸ second))]
    exact ⟨id,id⟩
  have perm : (toList (treapInsert heap q.root r)).Perm (r :: linked q) := perm_insert q.root r
  have known : ∀ a ∈ toList (treapInsert heap q.root r) ++ pending, a ∈ linked q ++ r :: pending := by
    intro a listed
    rcases List.mem_append.mp listed with inside | waits
    · rcases List.mem_cons.mp (perm.mem_iff.mp inside) with rfl | old
      · simp
      · exact List.mem_append_left _ old
    · simp [waits]
  have ready := wf.ready (List.ne_nil_of_mem (List.mem_append_right _ List.mem_cons_self))
  obtain ⟨tm,tmEq⟩ := Option.ne_none_iff_exists'.mp ready
  have listed : r ∈ linked q ++ r :: pending := by simp
  refine ⟨treapInsert heap q.root r,
    if (q.heap r).name ≠ [] then some (Function.update tm (q.heap r).name (some r)) else q.tm,?_,perm,?_,?_⟩
  · simp only [addItem,heapEq,(fields r).1]
    split_ifs with titled
    · simp only [tmEq,Option.map_some]
    · rfl
  · intro comparable
    rw [← sameKeys] at comparable ⊢
    exact toList_insert (lessAt_order heap) ordered comparable
  · constructor
    · exact ordered_insert (lessAt_order heap) ordered r
    · exact heapOrdered_insert heaped r
    · refine (List.Perm.nodup_iff ?_).mpr wf.once
      exact (perm.append_right pending).trans List.perm_middle.symm
    · exact fun a member => wf.allocated a (known a member)
    · intro a member
      rw [(fields a).1,(fields a).2.1]
      exact wf.named a (known a member)
    · intro a member
      rw [(fields a).2.2.1,(fields a).2.1]
      exact wf.sized a (known a member)
    · intro a member
      rw [(fields a).2.2.2.1]
      exact wf.bounded a (known a member)
    · intro a first b second
      rw [(fields a).1,(fields b).1]
      exact wf.apart a (known a first) b (known b second)
    · have longer := perm.length_eq
      simp only [List.length_cons] at longer
      simp only [linked,longer,wf.count]
      omega
    · have now : ∀ a, a ∈ toList (treapInsert heap q.root r) ↔ a = r ∨ a ∈ linked q := by
        intro a
        rw [perm.mem_iff,List.mem_cons]
      have others : ∀ a, a ≠ r → (a ∈ linked q ↔ a ∈ toList (treapInsert heap q.root r)) := by
        intro a different
        rw [now,or_iff_right different]
      intro name a
      rw [(fields a).1]
      revert name a
      split_ifs with titled
      · have alone : ∀ a ∈ toList (treapInsert heap q.root r), (q.heap a).name = (q.heap r).name → a = r := by
          intro a member same
          exact wf.apart a (known a (List.mem_append_left _ member)) r listed same (same ▸ titled)
        have index := wf.index
        simp only [lookup,tmEq,Option.bind_some] at index ⊢
        refine indexes_update (x := r) index others titled alone (fun a => ?_)
        simp [now r,eq_comm]
      · exact indexes_unnamed wf.index others titled
    · intro _
      split_ifs
      · simp
      · exact ready

/-- Linked entries can be unlinked one after the other. -/
theorem deleteAll_spec {remove : List Ref} (wf : WF q pending) (once : remove.Nodup)
    (member : ∀ r ∈ remove, r ∈ linked q) :
    ∃ root tm, remove.foldlM deleteItem q = some { q with root := root, n := q.n - remove.length, tm := tm } ∧
      toList root = (linked q).filter (fun r => r ∉ remove) ∧ (q.tm ≠ none → tm ≠ none) ∧
      WF { q with root := root, n := q.n - remove.length, tm := tm } pending := by
  induction remove generalizing q with
  | nil =>
    refine ⟨q.root,q.tm,by simp,by simp [linked],id,?_⟩
    simpa using wf
  | cons r remove ih =>
    obtain ⟨absent,once⟩ := List.nodup_cons.mp once
    obtain ⟨root,tm,deleted,entries,ready,wf'⟩ := deleteItem_spec wf (member r List.mem_cons_self)
    have inside := (List.nodup_append.mp wf.once).1
    have erased : (linked q).erase r = (linked q).filter (fun r' => r' ≠ r) := by
      rw [inside.erase_eq_filter]
      refine List.filter_congr (fun r' _ => ?_)
      by_cases same : r' = r
      · simp [same]
      · simp [same]
    obtain ⟨root',tm',deleted',entries',ready',wf''⟩ := ih (wf_forget wf') once (by
      intro r' later
      have different : r' ≠ r := by
        rintro rfl
        exact absent later
      simp only [linked,entries]
      exact (List.mem_erase_of_ne different).mpr (member r' (List.mem_cons_of_mem r later)))
    have count : q.n - 1 - remove.length = q.n - (r :: remove).length := by
      simp only [List.length_cons]
      omega
    rw [count] at deleted' wf''
    refine ⟨root',tm',?_,?_,fun nonempty => ready' (ready nonempty),wf''⟩
    · simp only [List.foldlM_cons,deleted]
      exact deleted'
    · rw [entries']
      simp only [linked,entries]
      rw [erased,List.filter_filter]
      refine List.filter_congr (fun r' _ => ?_)
      rw [Bool.and_comm]
      simp

end

end Mori.QueueLinks
