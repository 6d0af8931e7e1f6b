import Mori.QueueLinks
import Mori.PlainQueue

/-!
The broadcast queue refines the plain sorted list. Each operation succeeds, keeps
the links in order and does what the list does; only the place of an entry among
those with the same key could depend on the priorities, and with distinct ids there
are none.
-/
namespace Mori.QueueRefinement
open Mori.Net Mori.Treaps Mori.Queue Mori.QueueLinks Mori.PlainQueue

def entryOf (heap : Ref → LimitedBroadcast) (r : Ref) : Entry := ⟨r,(heap r).transmits,(heap r).id,(heap r).b⟩

def entries (q : TransmitLimitedQueue) : List Entry := (linked q).map (entryOf q.heap)

/-- The plain list that a queue stands for. -/
def abs (q : TransmitLimitedQueue) : Plain :=
  { entries := entries q, submitted := q.alloc, idGen := q.idGen, finished := q.finished, returned := q.returned }

/-- The same but for the order of the entries. -/
structure Like (p p' : Plain) : Prop where
  entries : p.entries.Perm p'.entries
  submitted : p.submitted = p'.submitted
  idGen : p.idGen = p'.idGen
  finished : p.finished = p'.finished
  returned : p.returned = p'.returned

theorem like_refl (p : Plain) : Like p p := ⟨List.Perm.refl _,rfl,rfl,rfl,rfl⟩

theorem eq_of_like {p p' : Plain} (like : Like p p') (same : p.entries = p'.entries) : p = p' := by
  obtain ⟨-,submitted,idGen,finished,returned⟩ := like
  cases p
  cases p'
  simp_all

/-- No two entries have the same id. -/
def Distinct (es : List Entry) : Prop := (es.map (·.id)).Nodup

section
variable {heap : Ref → LimitedBroadcast}

theorem before_entryOf {a b : Ref} (first : (heap a).msgLen = (heap a).b.message.length)
    (second : (heap b).msgLen = (heap b).b.message.length) :
    (entryOf heap a).before (entryOf heap b) = lessAt heap a b := by
  simp only [Entry.before,entryOf,Entry.len,lessAt,less,first,second]
  rfl

theorem entryOf_inj : Function.Injective (entryOf heap) := fun _ _ same => congrArg Entry.ref same

theorem map_insertSorted {r : Ref} {l : List Ref}
    (sized : ∀ a ∈ r :: l, (heap a).msgLen = (heap a).b.message.length) :
    (insertSorted (lessAt heap) r l).map (entryOf heap) = insertSorted Entry.before (entryOf heap r) (l.map (entryOf heap)) := by
  induction l with
  | nil => rfl
  | cons a l ih =>
    have keys := before_entryOf (sized r (by simp)) (sized a (by simp))
    have rest := ih (fun b member => sized b (by
      rcases List.mem_cons.mp member with rfl | later
      · simp
      · simp [later]))
    simp only [insertSorted,List.orderedInsert_cons,List.map_cons,keys] at rest ⊢
    split_ifs
    · rfl
    · rw [List.map_cons,rest]

theorem comparable_of_distinct {r : Ref} {l : List Ref} (distinct : Distinct (entryOf heap r :: l.map (entryOf heap))) :
    Comparable (lessAt heap) r l := by
  intro a member
  refine less_total ?_
  intro same
  simp only [Distinct,List.map_cons,List.nodup_cons,List.map_map] at distinct
  exact distinct.1 (List.mem_map.mpr ⟨a,member,same.symm⟩)

end

theorem distinct_perm {es es' : List Entry} (perm : es.Perm es') (distinct : Distinct es) : Distinct es' :=
  (perm.map Entry.id).nodup_iff.mp distinct

section
variable {q : TransmitLimitedQueue} {pending : List Ref} {r : Ref}

theorem entryOf_prio (heap : Ref → LimitedBroadcast) (r : Ref) (draw : UInt64) :
    entryOf (Function.update heap r { heap r with prio := draw }) = entryOf heap := by
  funext a
  by_cases same : a = r
  · subst same
    simp only [entryOf,Function.update_self]
  · simp only [entryOf,Function.update_of_ne same]

/-- What linking an entry does to the list. -/
structure Links (q q' : TransmitLimitedQueue) (e : Entry) : Prop where
  perm : (entries q').Perm (e :: entries q)
  place : Distinct (e :: entries q) → entries q' = insertSorted Entry.before e (entries q)
  same : entryOf q'.heap = entryOf q.heap
  alloc : q'.alloc = q.alloc
  idGen : q'.idGen = q.idGen
  finished : q'.finished = q.finished
  returned : q'.returned = q.returned

theorem addItem_links (wf : WF q (r :: pending)) (draw : UInt64) :
    ∃ q', addItem q r draw = some q' ∧ WF q' pending ∧ Links q q' (entryOf q.heap r) := by
  obtain ⟨root,tm,added,perm,place,wf'⟩ := addItem_spec wf draw
  refine ⟨_,added,wf',?_,?_,entryOf_prio .., rfl,rfl,rfl,rfl⟩
  · simp only [entries,entryOf_prio]
    exact perm.map (entryOf q.heap)
  · intro distinct
    simp only [entries,entryOf_prio,linked]
    rw [place (comparable_of_distinct distinct),map_insertSorted]
    intro a member
    refine wf.sized a ?_
    rcases List.mem_cons.mp member with rfl | inside
    · simp
    · exact List.mem_append_left _ inside

end

section
variable {q : TransmitLimitedQueue} {pending : List Ref}

/-- The entries that a new broadcast makes obsolete. -/
def doomed (q : TransmitLimitedQueue) (b : Broadcast) (invalidates : Broadcast → Bool) : List Ref :=
  (linked q).filter (fun r => replaces b invalidates (entryOf q.heap r))

/-- The entries that a plain broadcast is asked about, with its answer. -/
def hit (heap : Ref → LimitedBroadcast) (invalidates : Broadcast → Bool) (r : Ref) : Bool :=
  (heap r).b.kind = .plain && invalidates (heap r).b

theorem hit_iff {heap : Ref → LimitedBroadcast} {invalidates : Broadcast → Bool} {r : Ref} :
    hit heap invalidates r = true ↔ (heap r).b.kind = .plain ∧ invalidates (heap r).b = true := by
  simp [hit]

theorem scan_fold (invalidates : Broadcast → Bool) (l : List Ref) (q : TransmitLimitedQueue) (remove : List Ref) :
    l.foldl (fun (s : TransmitLimitedQueue × List Ref) cur =>
      (if (s.1.heap cur).b.kind = .plain ∧ invalidates (s.1.heap cur).b = true then
        ((finish s.1 cur .invalidated,s.2 ++ [cur]),true)
      else ((s.1,s.2),true)).1) (q,remove) =
    ({ q with
        finished := q.finished ++ (l.filter (hit q.heap invalidates)).map (fun r => (r,.invalidated)) },
      remove ++ l.filter (hit q.heap invalidates)) := by
  induction l generalizing q remove with
  | nil => simp
  | cons cur l ih =>
    rw [List.foldl_cons,List.filter_cons]
    by_cases found : hit q.heap invalidates cur = true
    · rw [if_pos (hit_iff.mp found),ih,if_pos found]
      simp [finish]
    · rw [if_neg (fun asked => found (hit_iff.mpr asked)),ih,if_neg found]

theorem scan_eq (q : TransmitLimitedQueue) (invalidates : Broadcast → Bool) :
    scan q invalidates =
      ({ q with
          finished := q.finished ++ ((linked q).filter (hit q.heap invalidates)).map (fun r => (r,.invalidated)) },
        (linked q).filter (hit q.heap invalidates)) := by
  have all : Initial (fun _ => false) (toList q.root) := List.pairwise_of_forall (fun _ _ never => never)
  rw [scan,ascendFrom_eq all]
  simp only [Bool.not_false,List.filter_true]
  rw [walk_eq_foldl]
  · exact scan_fold invalidates (linked q) q []
  · intro s cur
    split_ifs <;> rfl

/-- What is invalidated is finished first and unlinked then. -/
theorem invalidate_eq (wf : WF q pending) (b : Broadcast) (invalidates : Broadcast → Bool) :
    invalidate q b invalidates = (doomed q b invalidates).foldlM deleteItem
      { q with finished := q.finished ++ (doomed q b invalidates).map (fun r => (r,.invalidated)) } := by
  have names : ∀ r ∈ linked q, (q.heap r).name = (q.heap r).b.name :=
    fun r member => wf.named r (List.mem_append_left _ member)
  by_cases named : b.name ≠ []
  · have same : ∀ r, replaces b invalidates (entryOf q.heap r) = decide ((q.heap r).b.name = b.name) := by
      intro r
      simp only [replaces,named,ne_eq,not_false_eq_true,if_true,entryOf]
      rfl
    simp only [invalidate,named,ne_eq,not_false_eq_true,if_true]
    cases found : lookup q b.name with
    | some old =>
      obtain ⟨-,member,name⟩ := (wf.index b.name old).mp found
      have inside := (List.nodup_append.mp wf.once).1
      have only : doomed q b invalidates = [old] := by
        have selected : doomed q b invalidates = (linked q).filter (fun r => r = old) := by
          refine List.filter_congr (fun r listed => ?_)
          rw [same,← names r listed,decide_eq_decide]
          constructor
          · intro equal
            exact wf.apart r (List.mem_append_left _ listed) old (List.mem_append_left _ member)
              (equal.trans name.symm) (by rw [equal]; exact named)
          · rintro rfl
            exact name
        rw [selected,List.filter_eq,List.count_eq_one_of_mem inside member]
        rfl
      rw [only]
      simp [finish]
    | none =>
      have nobody : doomed q b invalidates = [] := by
        refine List.filter_eq_nil_iff.mpr (fun r listed => ?_)
        rw [same,← names r listed]
        intro equal
        have entry := (wf.index b.name r).mpr ⟨named,listed,by simpa using equal⟩
        rw [found] at entry
        cases entry
      rw [nobody]
      simp
  · by_cases unique : b.kind = .unique
    · have nobody : doomed q b invalidates = [] := by
        refine List.filter_eq_nil_iff.mpr (fun r _ => ?_)
        simp [replaces,named,unique]
      rw [nobody]
      simp [invalidate,named,unique]
    · have scanned : doomed q b invalidates =
          (linked q).filter (hit q.heap invalidates) := by
        refine List.filter_congr (fun r _ => ?_)
        simp only [replaces,named,unique,if_false]
        rfl
      simp only [invalidate,named,unique,if_false]
      rw [scan_eq,scanned]

/-- The state after the obsolete entries were finished and unlinked. -/
structure Invalidated (q q' : TransmitLimitedQueue) (b : Broadcast) (invalidates : Broadcast → Bool) : Prop where
  wf : WF q' []
  links : linked q' = (linked q).filter (fun r => !replaces b invalidates (entryOf q.heap r))
  finished : q'.finished = q.finished ++ (doomed q b invalidates).map (fun r => (r,.invalidated))
  heap : q'.heap = q.heap
  alloc : q'.alloc = q.alloc
  idGen : q'.idGen = q.idGen
  returned : q'.returned = q.returned
  ready : q.tm ≠ none → q'.tm ≠ none

theorem invalidate_spec (wf : WF q []) (b : Broadcast) (invalidates : Broadcast → Bool) :
    ∃ q', invalidate q b invalidates = some q' ∧ Invalidated q q' b invalidates := by
  have inside : (linked q).Nodup := (List.nodup_append.mp wf.once).1
  obtain ⟨root,tm,deleted,rest,ready,wf'⟩ := deleteAll_spec
    (wf_log wf (q.finished ++ (doomed q b invalidates).map (fun r => (r,.invalidated))) q.returned)
    (inside.filter (fun r => replaces b invalidates (entryOf q.heap r))) (fun r member => List.mem_of_mem_filter member)
  refine ⟨_,(invalidate_eq wf b invalidates).trans deleted,wf',rest.trans ?_,rfl,rfl,rfl,rfl,rfl,ready⟩
  refine List.filter_congr (fun r listed => ?_)
  simp only [List.mem_filter,show r ∈ linked q from listed,true_and]
  cases replaces b invalidates (entryOf q.heap r) <;> rfl

theorem int64_le (x : Int) : int64 x ≤ maxInt64 := by
  have below : Int.bmod x (2 ^ 64) < ((2 ^ 64 : Nat) + 1 : Int) / 2 := Int.bmod_lt (by norm_num)
  simp only [int64,maxInt64]
  norm_num at below ⊢
  omega

/-- The state after the new entry was made, before anything was invalidated. -/
structure Submitted (q q' : TransmitLimitedQueue) (b : Broadcast) : Prop where
  wf : WF q' []
  links : linked q' = linked q
  old : ∀ r ∈ linked q, q'.heap r = q.heap r
  new : q'.heap q.alloc =
    { transmits := 0, msgLen := b.message.length, id := int64 (q.idGen + 1), b := b, name := b.name }
  fresh : q.alloc ∉ linked q
  alloc : q'.alloc = q.alloc + 1
  idGen : q'.idGen = int64 (q.idGen + 1)
  finished : q'.finished = q.finished
  returned : q'.returned = q.returned
  ready : q'.tm ≠ none

theorem submit_spec (wf : WF q []) (b : Broadcast) : Submitted q (submit (lazyInit q) b 0) b := by
  have fresh : q.alloc ∉ linked q := fun member => absurd (wf.allocated _ (by simpa using member)) (Nat.lt_irrefl _)
  have old : ∀ r ∈ linked q, (submit (lazyInit q) b 0).heap r = q.heap r := by
    intro r member
    refine Function.update_of_ne ?_ _ _
    rintro rfl
    exact fresh member
  refine ⟨?_,rfl,old,Function.update_self ..,fresh,rfl,rfl,rfl,rfl,by simp [submit,lazyInit]⟩
  refine wf_frame wf rfl rfl ?_ (by simp [submit,lazyInit]) (by simp [submit,lazyInit]) old
    (fun r member => by cases member) List.nodup_nil
  funext name
  simp only [lookup,submit,lazyInit]
  cases q.tm with
  | none => rfl
  | some tm => rfl

variable {q' : TransmitLimitedQueue} {b : Broadcast}

theorem Submitted.entryOf (sub : Submitted q q' b) {r : Ref} (member : r ∈ linked q) :
    entryOf q'.heap r = entryOf q.heap r := by
  simp only [QueueRefinement.entryOf,sub.old r member]

theorem Submitted.doomed (sub : Submitted q q' b) (invalidates : Broadcast → Bool) :
    (doomed q' b invalidates).map (fun r => (r,Cause.invalidated)) =
      ends .invalidated ((entries q).filter (replaces b invalidates)) := by
  have selected : QueueRefinement.doomed q' b invalidates = QueueRefinement.doomed q b invalidates := by
    rw [QueueRefinement.doomed,sub.links]
    refine List.filter_congr (fun r member => ?_)
    rw [sub.entryOf member]
  rw [selected,ends,entries,List.filter_map,List.map_map]
  rfl

theorem Submitted.kept (sub : Submitted q q' b) (invalidates : Broadcast → Bool) :
    ((linked q).filter (fun r => !replaces b invalidates (QueueRefinement.entryOf q'.heap r))).map
      (QueueRefinement.entryOf q'.heap) = (entries q).filter (fun e => !replaces b invalidates e) := by
  have selected : (linked q).filter (fun r => !replaces b invalidates (QueueRefinement.entryOf q'.heap r)) =
      (linked q).filter ((fun e => !replaces b invalidates e) ∘ QueueRefinement.entryOf q.heap) := by
    refine List.filter_congr (fun r member => ?_)
    rw [sub.entryOf member]
    rfl
  rw [selected,entries,List.filter_map]
  exact List.map_congr_left (fun r member => sub.entryOf (List.mem_of_mem_filter member))

theorem Submitted.own (wf : WF q []) (sub : Submitted q q' b) {invalidates : Broadcast → Bool} {r : Ref}
    (member : r ∈ linked q) (kept : replaces b invalidates (QueueRefinement.entryOf q'.heap r) = false)
    (named : b.name ≠ []) : (q'.heap r).name ≠ b.name := by
  rw [sub.entryOf member] at kept
  simp only [replaces,named,ne_eq,not_false_eq_true,if_true,QueueRefinement.entryOf] at kept
  rw [sub.old r member,wf.named r (List.mem_append_left _ member)]
  exact of_decide_eq_false kept

/-- A submission succeeds and does what it does to the list. -/
theorem queueBroadcast_spec (wf : WF q []) (b : Broadcast) (invalidates : Broadcast → Bool) (draw : UInt64) :
    ∃ q', queueBroadcast q b invalidates draw = some q' ∧ WF q' [] ∧ Like (abs q') (queue (abs q) b invalidates) ∧
      (Distinct (queue (abs q) b invalidates).entries → abs q' = queue (abs q) b invalidates) := by
  have sub := submit_spec wf b
  generalize made : submit (lazyInit q) b 0 = q₁ at sub
  obtain ⟨q₂,invalidated,inv⟩ := invalidate_spec sub.wf b invalidates
  have links := inv.links
  rw [sub.links] at links
  have inside : ∀ r ∈ linked q₂, r ∈ linked q ∧ replaces b invalidates (entryOf q₁.heap r) = false := by
    intro r member
    rw [links,List.mem_filter] at member
    simpa using member
  have kept : entries q₂ = (entries q).filter (fun e => !replaces b invalidates e) := by
    rw [entries,links,inv.heap,sub.kept]
  have new : q₂.heap q.alloc = _ := (congrFun inv.heap q.alloc).trans sub.new
  have waiting : WF q₂ [q.alloc] := by
    refine wf_await inv.wf (fun member => sub.fresh (inside _ member).1) ?_ (by rw [new]) (by rw [new])
      (by rw [new]; exact int64_le _) ?_ (inv.ready sub.ready)
    · rw [inv.alloc,sub.alloc]
      exact Nat.lt_succ_self _
    · rw [new,inv.heap]
      intro named r member
      exact Submitted.own wf sub (inside r member).1 (inside r member).2 named
  obtain ⟨q₃,added,wf₃,placed⟩ := addItem_links waiting draw
  have entry : entryOf q₂.heap q.alloc = ⟨q.alloc,0,int64 (q.idGen + 1),b⟩ := by
    simp only [entryOf,new]
  rw [entry] at placed
  have like : Like (abs q₃) (queue (abs q) b invalidates) := by
    constructor
    · have perm := placed.perm
      rw [kept] at perm
      exact perm.trans (perm_insertSorted ..).symm
    · exact placed.alloc.trans (inv.alloc.trans sub.alloc)
    · exact placed.idGen.trans (inv.idGen.trans sub.idGen)
    · refine placed.finished.trans (inv.finished.trans ?_)
      rw [sub.finished,sub.doomed]
      rfl
    · exact placed.returned.trans (inv.returned.trans sub.returned)
  refine ⟨q₃,?_,wf₃,like,fun distinct => eq_of_like like ?_⟩
  · rw [queueBroadcast,queueBroadcastAt,made,invalidated]
    exact added
  · have place := placed.place
    rw [kept] at place
    exact place (distinct_perm (perm_insertSorted ..) distinct)

/-! ## Filling a packet -/

/-- The key of the search: the entries before it are on a lower tier, or too large. -/
theorem before_key {b : LimitedBroadcast} (bounded : b.id ≤ maxInt64) (tier : Nat) (free : Int) :
    less b { transmits := tier, msgLen := free, id := maxInt64 } = false ↔
      tier < b.transmits ∨ b.transmits = tier ∧ b.msgLen ≤ free := by
  rw [less_false_iff]
  simp only
  omega

theorem initial_key (wf : WF q pending) (k : LimitedBroadcast) : Initial (fun r => less (q.heap r) k) (linked q) := by
  refine (ascending_of_ordered (lessAt_order q.heap) wf.ordered).imp ?_
  intro a b notAbove below
  rw [less_false_iff] at notAbove
  rw [less_iff] at below ⊢
  omega

/-- The first entry that fits, from a tier on. -/
def firstFit (q : TransmitLimitedQueue) (tier : Nat) (free : Int) : Option Ref :=
  (linked q).find? (fun r => tier ≤ (q.heap r).transmits && ((q.heap r).b.message.length : Int) ≤ free)

/-- The search finds the first entry that fits if it is on the tier, and otherwise
    nothing on the tier fits. -/
theorem fitting_spec (wf : WF q pending) (tier : Nat) (free : Int) :
    match fitting q tier free with
    | some keep => firstFit q tier free = some keep ∧ (q.heap keep).transmits = tier
    | none => ∀ r ∈ linked q, (q.heap r).transmits = tier → free < (q.heap r).b.message.length := by
  have sized : ∀ r ∈ linked q, (q.heap r).msgLen = (q.heap r).b.message.length :=
    fun r member => wf.sized r (List.mem_append_left _ member)
  have bounded : ∀ r ∈ linked q, (q.heap r).id ≤ maxInt64 :=
    fun r member => wf.bounded r (List.mem_append_left _ member)
  have found := ceil_eq (initial_key wf { transmits := tier, msgLen := free, id := maxInt64 })
  simp only [fitting,treapCeil,found]
  cases search : (toList q.root).find? (fun r => !less (q.heap r) { transmits := tier, msgLen := free, id := maxInt64 }) with
  | none =>
    simp only [skipLarge,Option.filter_none]
    intro r member same
    have passed := List.find?_eq_none.mp search r member
    simp only [Bool.not_eq_true,Bool.not_eq_false'] at passed
    by_contra small
    rw [← Bool.not_eq_false,before_key (bounded r member)] at passed
    exact passed (.inr ⟨same,by rw [sized r member]; omega⟩)
  | some keep =>
    obtain ⟨hit,early,late,split,before⟩ := List.find?_eq_some_iff_append.mp search
    have member : keep ∈ linked q := by rw [linked,split]; simp
    simp only [Bool.not_eq_true',before_key (bounded keep member)] at hit
    have small : ¬((q.heap keep).transmits = tier ∧ free < ((q.heap keep).b.message.length : Int)) := by
      rw [sized keep member] at hit
      omega
    rw [skipLarge,if_neg small]
    by_cases same : (q.heap keep).transmits = tier
    · rw [Option.filter_some,if_pos (by simpa using same)]
      refine ⟨?_,same⟩
      refine List.find?_eq_some_iff_append.mpr ⟨?_,early,late,split,?_⟩
      · rw [sized keep member] at hit
        simp only [Bool.and_eq_true,decide_eq_true_eq]
        omega
      · intro r earlier
        have inside : r ∈ linked q := by rw [linked,split]; simp [earlier]
        have passed := before r earlier
        simp only [Bool.not_not,← Bool.not_eq_false,before_key (bounded r inside),sized r inside] at passed
        simp only [Bool.not_eq_true',Bool.and_eq_false_iff,decide_eq_false_iff_not]
        omega
    · rw [Option.filter_some,if_neg (by simpa using same)]
      -- Whatever fits on the tier would have been found before.
      intro r inside tierEq
      by_contra fits
      have notBefore : less (q.heap r) { transmits := tier, msgLen := free, id := maxInt64 } = false := by
        rw [before_key (bounded r inside),sized r inside]
        omega
      rw [linked,split] at inside
      rcases List.mem_append.mp inside with earlier | later
      · have passed := before r earlier
        simp [notBefore] at passed
      · rcases List.mem_cons.mp later with rfl | after
        · exact same tierEq
        · have ascending := ascending_of_ordered (lessAt_order q.heap) wf.ordered
          rw [split] at ascending
          have notAbove := (List.pairwise_cons.mp (List.pairwise_append.mp ascending).2.1).1 r after
          rw [less_false_iff] at notAbove
          omega

/-- What filling a packet with some entries does. -/
structure Filled (transmitLimit : Int) (s s' : Batch) (taken : List Entry) : Prop where
  wf : WF s'.q s'.reinsert
  toSend : s'.toSend = s.toSend ++ taken.map (·.b.message)
  finished : s'.q.finished = s.q.finished ++ ends .transmitLimit (taken.filter (final transmitLimit))
  returned : s'.q.returned = s.q.returned ++ taken.map (·.ref)
  again : s'.reinsert.map (entryOf s'.q.heap) =
    s.reinsert.map (entryOf s.q.heap) ++ (taken.filter (fun e => !final transmitLimit e)).map Entry.bump
  alloc : s'.q.alloc = s.q.alloc
  idGen : s'.q.idGen = s.q.idGen

variable {s s' : Batch} {transmitLimit : Int}

theorem filled_nil (wf : WF s.q s.reinsert) : Filled transmitLimit s s [] where
  wf := wf
  toSend := by simp
  finished := by simp [ends]
  returned := by simp
  again := by simp
  alloc := rfl
  idGen := rfl

theorem filled_append {s'' : Batch} {taken taken' : List Entry} (first : Filled transmitLimit s s' taken)
    (second : Filled transmitLimit s' s'' taken') : Filled transmitLimit s s'' (taken ++ taken') where
  wf := second.wf
  toSend := by rw [second.toSend,first.toSend,List.map_append,List.append_assoc]
  finished := by
    rw [second.finished,first.finished]
    simp only [ends,List.filter_append,List.map_append,List.append_assoc]
  returned := by rw [second.returned,first.returned,List.map_append,List.append_assoc]
  again := by rw [second.again,first.again,List.filter_append,List.map_append,List.append_assoc]
  alloc := second.alloc.trans first.alloc
  idGen := second.idGen.trans first.idGen

/-- An entry whose key changes is unlinked, so that no other entry changes. -/
theorem entryOf_update {heap : Ref → LimitedBroadcast} {l : List Ref} {r : Ref} (absent : r ∉ l) (lb : LimitedBroadcast) :
    l.map (entryOf (Function.update heap r lb)) = l.map (entryOf heap) := by
  refine List.map_congr_left (fun a member => ?_)
  have different : a ≠ r := by
    rintro rfl
    exact absent member
  simp only [entryOf,Function.update_of_ne different]

theorem take_spec (transmitLimit : Int) (wf : WF s.q s.reinsert) (overhead : Int) {keep : Ref} (member : keep ∈ linked s.q) :
    ∃ s', take overhead transmitLimit s keep = some s' ∧ Filled transmitLimit s s' [entryOf s.q.heap keep] ∧
      entries s'.q = (entries s.q).erase (entryOf s.q.heap keep) ∧
      s'.bytesUsed = s.bytesUsed + (overhead + (entryOf s.q.heap keep).len) := by
  obtain ⟨root,tm,deleted,rest,-,wf'⟩ := deleteItem_spec wf member
  have inside := (List.nodup_append.mp wf.once).1
  have out : keep ∉ toList root := by
    rw [rest]
    exact inside.not_mem_erase
  have waits : keep ∉ s.reinsert := fun pending => unlinked wf pending member
  have erased : (toList root).map (entryOf s.q.heap) = (entries s.q).erase (entryOf s.q.heap keep) := by
    rw [rest,List.map_erase entryOf_inj]
    rfl
  by_cases last : transmitLimit ≤ ((s.q.heap keep).transmits : Int) + 1
  · have isFinal : final transmitLimit (entryOf s.q.heap keep) = true := decide_eq_true last
    have done : take overhead transmitLimit s keep = some { s with
        q := finish { s.q with root := root, n := s.q.n - 1, tm := tm, returned := s.q.returned ++ [keep] } keep .transmitLimit
        bytesUsed := s.bytesUsed + (overhead + (s.q.heap keep).b.message.length)
        toSend := s.toSend ++ [(s.q.heap keep).b.message] } := by
      rw [take,deleted]
      exact congrArg some (if_pos last)
    refine ⟨_,done,?_,erased,rfl⟩
    constructor
    · exact wf_log (wf_forget wf') _ _
    · rfl
    · simp [finish,isFinal,ends]
      rfl
    · rfl
    · simp [isFinal,finish]
    · rfl
    · rfl
  · have more : final transmitLimit (entryOf s.q.heap keep) = false := decide_eq_false last
    let bumped := { s.q.heap keep with transmits := (s.q.heap keep).transmits + 1 }
    have done : take overhead transmitLimit s keep = some { s with
        q := { s.q with
          root := root, n := s.q.n - 1, tm := tm, returned := s.q.returned ++ [keep]
          heap := Function.update s.q.heap keep bumped }
        bytesUsed := s.bytesUsed + (overhead + (s.q.heap keep).b.message.length)
        toSend := s.toSend ++ [(s.q.heap keep).b.message]
        reinsert := s.reinsert ++ [keep] } := by
      rw [take,deleted]
      exact congrArg some (if_neg last)
    refine ⟨_,done,?_,?_,rfl⟩
    · constructor
      · refine wf_frame wf' rfl rfl rfl id (Nat.le_refl _) ?_ ?_ (List.nodup_append.mp wf'.once).2.1
        · intro r inside
          refine Function.update_of_ne ?_ _ _
          rintro rfl
          exact out inside
        · intro r listed
          refine ⟨listed,?_⟩
          by_cases same : r = keep
          · subst same
            simp only [Function.update_self]
            exact ⟨rfl,rfl,rfl,rfl⟩
          · simp only [Function.update_of_ne same]
            exact ⟨trivial,trivial,trivial,trivial⟩
      · rfl
      · simp [more,ends]
      · rfl
      · have moved : entryOf (Function.update s.q.heap keep bumped) keep = (entryOf s.q.heap keep).bump := by
          simp only [entryOf,Function.update_self]
          rfl
        simp only [List.map_append,entryOf_update waits,List.map_cons,List.map_nil,moved,List.filter_cons,more,
          Bool.not_false,if_true,List.filter_nil]
      · rfl
      · rfl
    · simp only [entries,linked]
      rw [entryOf_update out]
      exact erased

/-- The tier to start from does not matter where it selects the same entries. -/
theorem pickFrom_congr {overhead limit used : Int} {tier tier' : Nat} {es : List Entry} (fuel : Nat)
    (same : ∀ e ∈ es, e.len ≤ limit - used - overhead → (tier ≤ e.transmits ↔ tier' ≤ e.transmits)) :
    pickFrom overhead limit fuel tier used es = pickFrom overhead limit fuel tier' used es := by
  cases fuel with
  | zero => rfl
  | succ fuel =>
    have found : es.find? (fun e => tier ≤ e.transmits && e.len ≤ limit - used - overhead) =
        es.find? (fun e => tier' ≤ e.transmits && e.len ≤ limit - used - overhead) := by
      rw [← List.head?_filter,← List.head?_filter]
      refine congrArg List.head? (List.filter_congr (fun e member => ?_))
      by_cases fits : e.len ≤ limit - used - overhead
      · simp only [same e member fits]
      · simp [fits]
    simp only [pickFrom,found]

theorem pickFrom_none {overhead limit used : Int} {tier : Nat} {es : List Entry} (fuel : Nat)
    (above : ∀ e ∈ es, e.transmits < tier) : pickFrom overhead limit fuel tier used es = ([],es) := by
  cases fuel with
  | zero => rfl
  | succ fuel =>
    have nothing : es.find? (fun e => tier ≤ e.transmits && e.len ≤ limit - used - overhead) = none := by
      refine List.find?_eq_none.mpr (fun e member => ?_)
      have below := above e member
      simp only [Bool.and_eq_true,decide_eq_true_eq]
      omega
    simp only [pickFrom,nothing]
    split_ifs <;> rfl

theorem find_entries (q : TransmitLimitedQueue) (tier : Nat) (free : Int) :
    (entries q).find? (fun e => tier ≤ e.transmits && e.len ≤ free) = (firstFit q tier free).map (entryOf q.heap) :=
  List.find?_map ..

/-- The loop over the tiers takes what is picked from the list. -/
theorem fill_spec (overhead limit transmitLimit : Int) (maxTr fuel tier picks : Nat) (s : Batch) (wf : WF s.q s.reinsert)
    (tiers : ∀ e ∈ entries s.q, e.transmits ≤ maxTr) (enough : maxTr + 1 - tier + (entries s.q).length < fuel)
    (all : (entries s.q).length ≤ picks) :
    ∃ s', fill overhead limit transmitLimit maxTr fuel tier s = some s' ∧
      Filled transmitLimit s s' (pickFrom overhead limit picks tier s.bytesUsed (entries s.q)).1 ∧
      entries s'.q = (pickFrom overhead limit picks tier s.bytesUsed (entries s.q)).2 := by
  induction fuel generalizing tier picks s with
  | zero => omega
  | succ fuel ih =>
    simp only [fill]
    by_cases passed : maxTr < tier
    · rw [if_pos passed,pickFrom_none picks (fun e member => Nat.lt_of_le_of_lt (tiers e member) passed)]
      exact ⟨s,rfl,filled_nil wf,rfl⟩
    rw [if_neg passed]
    by_cases full : limit - s.bytesUsed - overhead ≤ 0
    · have nothing : pickFrom overhead limit picks tier s.bytesUsed (entries s.q) = ([],entries s.q) := by
        cases picks with
        | zero => rfl
        | succ picks => simp only [pickFrom,full,if_true]
      rw [if_pos full,nothing]
      exact ⟨s,rfl,filled_nil wf,rfl⟩
    rw [if_neg full]
    have found := fitting_spec wf tier (limit - s.bytesUsed - overhead)
    cases search : fitting s.q tier (limit - s.bytesUsed - overhead) with
    | none =>
      -- Nothing on this tier fits.
      rw [search] at found
      have next : pickFrom overhead limit picks tier s.bytesUsed (entries s.q) =
          pickFrom overhead limit picks (tier + 1) s.bytesUsed (entries s.q) := by
        refine pickFrom_congr picks (fun e member fits => ?_)
        obtain ⟨r,listed,rfl⟩ := List.mem_map.mp member
        have large := found r listed
        simp only [entryOf,Entry.len] at fits ⊢
        omega
      rw [next]
      exact ih (tier + 1) picks s wf tiers (by omega) all
    | some keep =>
      rw [search] at found
      obtain ⟨first,onTier⟩ := found
      have member : keep ∈ linked s.q := List.mem_of_find?_eq_some first
      obtain ⟨s₁,taken,filled,rest,used⟩ := take_spec transmitLimit wf overhead member
      have listed : entryOf s.q.heap keep ∈ entries s.q := List.mem_map_of_mem member
      have shorter := List.length_erase_of_mem listed
      have positive := List.length_pos_of_mem listed
      rw [← rest] at shorter
      cases picks with
      | zero => omega
      | succ picks =>
        obtain ⟨s₂,done,filled',rest'⟩ := ih tier picks s₁ filled.wf (by
          intro e stays
          rw [rest] at stays
          exact tiers e (List.mem_of_mem_erase stays)) (by omega) (by omega)
        have picked : pickFrom overhead limit (picks + 1) tier s.bytesUsed (entries s.q) =
            (entryOf s.q.heap keep :: (pickFrom overhead limit picks tier s₁.bytesUsed (entries s₁.q)).1,
              (pickFrom overhead limit picks tier s₁.bytesUsed (entries s₁.q)).2) := by
          rw [pickFrom,if_neg full,find_entries,first,rest,used]
          simp only [Option.map_some]
          rw [show (entryOf s.q.heap keep).transmits = tier from onTier]
        rw [picked]
        refine ⟨s₂,?_,filled_append filled filled',rest'⟩
        simp only [taken,Option.bind_some]
        exact done

/-- The entries for the next tier are linked one after the other. -/
theorem relink_spec (draws : Nat → UInt64) {reinsert : List Ref} (i : Nat) (wf : WF q reinsert) :
    ∃ q', relink draws i reinsert q = some q' ∧ WF q' [] ∧
      (entries q').Perm (reinsert.map (entryOf q.heap) ++ entries q) ∧
      (Distinct (reinsert.map (entryOf q.heap) ++ entries q) →
        entries q' = (reinsert.map (entryOf q.heap)).foldl (fun es e => insertSorted Entry.before e es) (entries q)) ∧
      q'.alloc = q.alloc ∧ q'.idGen = q.idGen ∧ q'.finished = q.finished ∧ q'.returned = q.returned := by
  induction reinsert generalizing q i with
  | nil => exact ⟨q,rfl,wf,List.Perm.refl _,fun _ => rfl,rfl,rfl,rfl,rfl⟩
  | cons cur reinsert ih =>
    obtain ⟨q₁,added,wf₁,links⟩ := addItem_links wf (draws i)
    obtain ⟨q₂,done,wf₂,perm,place,alloc,idGen,finished,returned⟩ := ih (i + 1) wf₁
    have moved : (reinsert.map (entryOf q.heap) ++ entryOf q.heap cur :: entries q).Perm
        ((cur :: reinsert).map (entryOf q.heap) ++ entries q) := List.perm_middle
    rw [links.same] at perm place
    refine ⟨q₂,?_,wf₂,?_,?_,alloc.trans links.alloc,idGen.trans links.idGen,finished.trans links.finished,
      returned.trans links.returned⟩
    · rw [relink,added]
      exact done
    · exact (perm.trans (links.perm.append_left _)).trans moved
    · intro distinct
      have apart := distinct_perm moved.symm distinct
      have first : Distinct (entryOf q.heap cur :: entries q) := by
        simp only [Distinct,List.map_append] at apart
        exact (List.nodup_append.mp apart).2.1
      rw [place (distinct_perm (links.perm.append_left _).symm apart),links.place first]
      rfl

theorem getTransmitRange_spec (wf : WF q pending) (nonzero : q.n ≠ 0) :
    ∃ lo hi, getTransmitRange q = some (lo,hi) ∧ ∀ r ∈ linked q, lo ≤ (q.heap r).transmits ∧ (q.heap r).transmits ≤ hi := by
  have total := wf.count
  have ascending : (linked q).Pairwise (fun a b => lessAt q.heap b a = false) :=
    ascending_of_ordered (lessAt_order q.heap) wf.ordered
  have least := min_eq q.root
  have most := max_eq q.root
  obtain ⟨front,last,closes⟩ := (List.eq_nil_or_concat' (linked q)).resolve_left (by
    intro nothing
    rw [nothing] at total
    exact nonzero total)
  obtain ⟨first,rest,starts⟩ := List.exists_cons_of_ne_nil (show linked q ≠ [] by rw [closes]; simp)
  refine ⟨(q.heap first).transmits,(q.heap last).transmits,?_,?_⟩
  · rw [show toList q.root = first :: rest from starts] at least
    rw [show toList q.root = front ++ [last] from closes] at most
    simp only [getTransmitRange,nonzero,if_false,treapMin,treapMax,least,most]
    simp
  · intro r member
    constructor
    · rw [starts] at member ascending
      rcases List.mem_cons.mp member with rfl | later
      · exact Nat.le_refl _
      · have order := (List.pairwise_cons.mp ascending).1 r later
        rw [less_false_iff] at order
        omega
    · rw [closes] at member ascending
      rcases List.mem_append.mp member with earlier | same
      · have order := (List.pairwise_append.mp ascending).2.2 r earlier last (by simp)
        rw [less_false_iff] at order
        omega
      · rw [List.mem_singleton.mp same]

/-- Filling a packet succeeds and does what it does to the list. -/
theorem getBroadcasts_spec (wf : WF q []) (overhead limit transmitLimit : Int) (draws : Nat → UInt64) :
    ∃ q', getBroadcasts q overhead limit transmitLimit draws = some (q',(get (abs q) overhead limit transmitLimit).2) ∧
      WF q' [] ∧ Like (abs q') (get (abs q) overhead limit transmitLimit).1 ∧
      (Distinct (get (abs q) overhead limit transmitLimit).1.entries →
        abs q' = (get (abs q) overhead limit transmitLimit).1) := by
  have total := wf.count
  by_cases empty : q.n = 0
  · have nothing : linked q = [] := List.eq_nil_of_length_eq_zero (by omega)
    have same : get (abs q) overhead limit transmitLimit = (abs q,[]) := by
      simp [PlainQueue.get,abs,entries,nothing,pick,pickFrom,ends]
    rw [same]
    exact ⟨q,by rw [getBroadcasts,if_pos empty],wf,like_refl _,fun _ => rfl⟩
  · obtain ⟨lo,hi,range,between⟩ := getTransmitRange_spec wf empty
    have tiers : ∀ e ∈ entries q, lo ≤ e.transmits ∧ e.transmits ≤ hi := by
      intro e member
      obtain ⟨r,listed,rfl⟩ := List.mem_map.mp member
      exact between r listed
    have count : (entries q).length = size q.root := by
      rw [entries,List.length_map,size_eq_length]
    obtain ⟨s,filled,effect,left⟩ := fill_spec overhead limit transmitLimit hi
      (hi - lo + size q.root + 2) lo (entries q).length { q := q } wf (fun e member => (tiers e member).2)
      (by simp only [count]; omega) (Nat.le_refl _)
    have picked : pickFrom overhead limit (entries q).length lo 0 (entries q) = pick overhead limit (entries q) :=
      pickFrom_congr _ (fun e member _ => ⟨fun _ => Nat.zero_le _,fun _ => (tiers e member).1⟩)
    rw [picked] at effect left
    obtain ⟨q',relinked,wf',perm,place,alloc,idGen,finished,returned⟩ := relink_spec draws 0 effect.wf
    have again := effect.again
    simp only [List.map_nil,List.nil_append] at again
    rw [again,left] at perm place
    have like : Like (abs q') (get (abs q) overhead limit transmitLimit).1 := by
      constructor
      · exact perm.trans (foldl_insert_perm ..).symm
      · exact alloc.trans effect.alloc
      · exact idGen.trans effect.idGen
      · exact finished.trans effect.finished
      · exact returned.trans effect.returned
    refine ⟨q',?_,wf',like,fun distinct => eq_of_like like ?_⟩
    · rw [getBroadcasts,if_neg empty,range]
      simp only [Option.bind_some,filled,relinked,Option.map_some,effect.toSend,List.nil_append]
      rfl
    · exact place (distinct_perm (foldl_insert_perm ..) distinct)

theorem pruneLoop_spec {maxRetain : Int} (retain : 0 ≤ maxRetain) (fuel : Nat) (wf : WF q [])
    (enough : (linked q).length ≤ fuel) :
    ∃ q', pruneLoop maxRetain fuel q = some q' ∧ WF q' [] ∧ abs q' = prune (abs q) maxRetain := by
  have total := wf.count
  induction fuel generalizing q with
  | zero =>
    have nothing : linked q = [] := List.eq_nil_of_length_eq_zero (by omega)
    refine ⟨q,if_neg (by omega),wf,?_⟩
    simp [PlainQueue.prune,abs,entries,nothing,ends]
  | succ fuel ih =>
    by_cases crowded : maxRetain < q.n
    · obtain ⟨front,cur,last⟩ := (List.eq_nil_or_concat' (linked q)).resolve_left (by
        intro nothing
        rw [nothing] at total
        simp only [List.length_nil,Nat.cast_zero] at total
        omega)
      have max := max_eq q.root
      rw [show toList q.root = front ++ [cur] from last,List.getLast?_concat] at max
      have member : cur ∈ linked q := by rw [last]; simp
      obtain ⟨root,tm,deleted,rest,-,wf'⟩ := deleteItem_spec (wf_log wf (q.finished ++ [(cur,.pruned)]) q.returned) member
      have inside : (linked q).Nodup := (List.nodup_append.mp wf.once).1
      have remaining : toList root = front := by
        refine rest.trans ?_
        have out : cur ∉ front := by
          rw [last] at inside
          exact fun early => (List.nodup_append.mp inside).2.2 cur early cur (by simp) rfl
        rw [show linked _ = front ++ [cur] from last,List.erase_append_right _ out]
        simp
      have length : (linked q).length = front.length + 1 := by rw [last]; simp
      obtain ⟨q',done,wf'',result⟩ := ih (wf_forget wf') (by simp only [linked,remaining]; omega) wf'.count
      refine ⟨q',?_,wf'',result.trans ?_⟩
      · rw [pruneLoop,if_pos crowded,treapMax,max,Option.bind_some,finish,deleted]
        exact done
      · have fits : maxRetain.toNat ≤ front.length := by omega
        have fits' : maxRetain.toNat ≤ (front.map (entryOf q.heap)).length := by simpa using fits
        have before : entries q = front.map (entryOf q.heap) ++ [entryOf q.heap cur] := by
          rw [entries,last,List.map_append]
          rfl
        simp only [PlainQueue.prune,abs,before]
        simp only [entries,linked,remaining,List.take_append_of_le_length fits',List.drop_append_of_le_length fits']
        simp [ends,entryOf]
    · refine ⟨q,if_neg crowded,wf,?_⟩
      have short : (entries q).length ≤ maxRetain.toNat := by
        simp only [entries,List.length_map]
        omega
      simp [PlainQueue.prune,abs,ends,List.take_of_length_le short,List.drop_of_length_le short]

theorem reset_fold (l : List Ref) (q : TransmitLimitedQueue) :
    l.foldl (fun q cur => (finish q cur .reset,true).1) q =
      { q with finished := q.finished ++ l.map (fun r => (r,.reset)) } := by
  induction l generalizing q with
  | nil => simp
  | cons cur l ih =>
    rw [List.foldl_cons,ih]
    simp [finish]

theorem reset_spec (q : TransmitLimitedQueue) : WF (Queue.reset q) [] ∧ abs (Queue.reset q) = reset (abs q) := by
  have all : Initial (fun _ => false) (toList q.root) := List.pairwise_of_forall (fun _ _ never => never)
  have walked := ascendFrom_eq all (fun q cur => (finish q cur .reset,true)) q
  rw [walk_eq_foldl (fun _ _ => rfl),reset_fold] at walked
  simp only [Bool.not_false,List.filter_true] at walked
  constructor
  · constructor
    · trivial
    · trivial
    · exact List.nodup_nil
    · intro r member
      cases member
    · intro r member
      cases member
    · intro r member
      cases member
    · intro r member
      cases member
    · intro r member
      cases member
    · rfl
    · intro name r
      simp [lookup,Queue.reset,linked]
    · intro nonempty
      exact absurd rfl nonempty
  · simp only [Queue.reset,walked,abs,PlainQueue.reset,entries,ends,List.map_map]
    rfl

/-- A prune is asked to keep a number of entries. -/
def Proper : Op → Prop
  | .prune maxRetain => 0 ≤ maxRetain
  | _ => True

/-- Every operation succeeds and does what it does to the list. -/
theorem step_spec (wf : WF q []) (draws : Nat → UInt64) {op : Op} (proper : Proper op) :
    ∃ q', Queue.step q draws op = some (q',(PlainQueue.step (abs q) op).2) ∧ WF q' [] ∧
      Like (abs q') (PlainQueue.step (abs q) op).1 ∧
      (Distinct (PlainQueue.step (abs q) op).1.entries → abs q' = (PlainQueue.step (abs q) op).1) := by
  cases op with
  | queueBroadcast b invalidates =>
    obtain ⟨q',done,wf',like,exactly⟩ := queueBroadcast_spec wf b invalidates (draws 0)
    refine ⟨q',?_,wf',like,exactly⟩
    rw [Queue.step,done]
    rfl
  | getBroadcasts overhead limit transmitLimit => exact getBroadcasts_spec wf overhead limit transmitLimit draws
  | prune maxRetain =>
    obtain ⟨q',done,wf',result⟩ := pruneLoop_spec proper (size q.root) wf (by rw [size_eq_length])
    refine ⟨q',?_,wf',?_,fun _ => result⟩
    · rw [Queue.step,Queue.prune,done]
      rfl
    · rw [result]
      exact like_refl _
  | reset =>
    obtain ⟨wf',result⟩ := reset_spec q
    refine ⟨Queue.reset q,rfl,wf',?_,fun _ => result⟩
    rw [result]
    exact like_refl _

/-- How many entries an operation submits. -/
def submits : Op → Nat
  | .queueBroadcast _ _ => 1
  | _ => 0

theorem submitted_step (p : Plain) (op : Op) : (PlainQueue.step p op).1.submitted = p.submitted + submits op := by
  cases op <;> rfl

/-- The ids are distinct and were given out before. -/
structure Stamped (p : Plain) : Prop where
  distinct : Distinct p.entries
  given : ∀ e ∈ p.entries, e.id ≤ p.idGen
  gen : 0 ≤ p.idGen ∧ p.idGen ≤ p.submitted

/-- Entries may be reordered, sent on or dropped. -/
theorem stamped_subperm {p p' : Plain} (stamped : Stamped p)
    (fewer : (p'.entries.map Entry.id).Subperm (p.entries.map Entry.id)) (gen : p'.idGen = p.idGen)
    (submitted : p'.submitted = p.submitted) : Stamped p' := by
  constructor
  · obtain ⟨ids,perm,sublist⟩ := fewer
    exact perm.nodup_iff.mp (stamped.distinct.sublist sublist)
  · intro e member
    obtain ⟨old,known,same⟩ := List.mem_map.mp (fewer.subset (List.mem_map_of_mem member))
    rw [gen,← same]
    exact stamped.given old known
  · rw [gen,submitted]
    exact stamped.gen

theorem get_subperm (p : Plain) (overhead limit transmitLimit : Int) :
    ((get p overhead limit transmitLimit).1.entries.map Entry.id).Subperm (p.entries.map Entry.id) := by
  have placed := (foldl_insert_perm (((pick overhead limit p.entries).1.filter (fun e => !final transmitLimit e)).map
    Entry.bump) (pick overhead limit p.entries).2).map Entry.id
  have whole := (pick_perm overhead limit p.entries).map Entry.id
  have bumped : ∀ es : List Entry, (es.map Entry.bump).map Entry.id = es.map Entry.id := by
    intro es
    rw [List.map_map]
    rfl
  rw [List.map_append,bumped] at placed
  rw [List.map_append] at whole
  exact placed.subperm.trans ((((List.filter_sublist.map Entry.id).append_right _).subperm).trans whole.subperm)

theorem stamped_step {p : Plain} (stamped : Stamped p) {op : Op} (few : p.submitted + submits op < 2 ^ 63) :
    Stamped (PlainQueue.step p op).1 := by
  obtain ⟨low,high⟩ := stamped.gen
  cases op with
  | queueBroadcast b invalidates =>
    have next : int64 (p.idGen + 1) = p.idGen + 1 := int64_of_fits (by omega) (by
      simp only [submits] at few
      omega)
    have older : ∀ e ∈ p.entries.filter (fun e => !replaces b invalidates e), e.id < p.idGen + 1 := by
      intro e member
      have := stamped.given e (List.mem_of_mem_filter member)
      omega
    simp only [PlainQueue.step,queue,next]
    constructor
    · refine distinct_perm (perm_insertSorted ..).symm ?_
      simp only [Distinct,List.map_cons]
      refine List.nodup_cons.mpr ⟨?_,stamped.distinct.sublist (List.filter_sublist.map _)⟩
      intro listed
      obtain ⟨e,member,same⟩ := List.mem_map.mp listed
      have := older e member
      omega
    · intro e member
      rcases mem_insertSorted.mp member with rfl | old
      · exact Int.le_refl _
      · exact Int.le_of_lt (older e old)
    · simp only [Nat.cast_add,Nat.cast_one]
      omega
  | getBroadcasts overhead limit transmitLimit =>
    exact stamped_subperm stamped (get_subperm p overhead limit transmitLimit) rfl rfl
  | prune maxRetain => exact stamped_subperm stamped ((List.take_sublist ..).map _).subperm rfl rfl
  | reset =>
    refine ⟨List.nodup_nil,?_,Int.le_refl 0,Int.natCast_nonneg _⟩
    intro e member
    cases member

theorem stamped_empty : Stamped {} := by
  refine ⟨List.nodup_nil,?_,Int.le_refl 0,Int.le_refl 0⟩
  intro e member
  cases member

theorem run_refines {ops : List (Op × (Nat → UInt64))} (wf : WF q []) (stamped : Stamped (abs q))
    (proper : ∀ op ∈ ops, Proper op.1) (few : (abs q).submitted + (ops.map (fun op => submits op.1)).sum < 2 ^ 63) :
    ∃ q', Queue.run q ops = some (q',(PlainQueue.run (abs q) (ops.map Prod.fst)).2) ∧ WF q' [] ∧ Stamped (abs q') ∧
      abs q' = (PlainQueue.run (abs q) (ops.map Prod.fst)).1 := by
  induction ops generalizing q with
  | nil => exact ⟨q,rfl,wf,stamped,rfl⟩
  | cons head ops ih =>
    obtain ⟨op,draws⟩ := head
    simp only [List.map_cons,List.sum_cons] at few
    obtain ⟨q₁,done,wf₁,-,exactly⟩ := step_spec wf draws (proper (op,draws) List.mem_cons_self)
    have next : Stamped (PlainQueue.step (abs q) op).1 := stamped_step stamped (by omega)
    have same := exactly next.distinct
    have counted := submitted_step (abs q) op
    rw [← same] at next counted
    obtain ⟨q₂,ran,wf₂,stamped₂,result⟩ := ih wf₁ next (fun op' later => proper op' (List.mem_cons_of_mem _ later))
      (by omega)
    refine ⟨q₂,?_,wf₂,stamped₂,?_⟩
    · rw [Queue.run,done]
      simp only [Option.bind_some,ran,Option.map_some,List.map_cons,PlainQueue.run,same]
    · rw [result,same]
      rfl

/-- Whatever the priorities, the queue does what the sorted list does, and its links
    are in order. The overheads and limits are any integers: the code, which computes with
    64 bits, runs like this with other limits (`FirstFit.runInt_refines`). -/
theorem queue_refines_sorted_list (ops : List (Op × (Nat → UInt64))) (proper : ∀ op ∈ ops, Proper op.1)
    (few : (ops.map (fun op => submits op.1)).sum < 2 ^ 63) :
    ∃ q outs, Queue.run {} ops = some (q,outs) ∧
      Sorted (lessAt q.heap) (linked q) ∧ HeapOrdered (prioAt q.heap) q.root ∧
      ((linked q).map (fun r => (q.heap r).id)).Nodup ∧ q.n = (linked q).length ∧
      (∀ name r, lookup q name = some r ↔ name ≠ [] ∧ r ∈ linked q ∧ (q.heap r).name = name) ∧
      (abs q,outs) = PlainQueue.run {} (ops.map Prod.fst) := by
  obtain ⟨q,ran,wf,stamped,result⟩ := run_refines wf_empty stamped_empty proper (by simpa [abs] using few)
  have distinct : ((linked q).map (fun r => (q.heap r).id)).Nodup := by
    have ids : (((linked q).map (entryOf q.heap)).map Entry.id).Nodup := stamped.distinct
    rwa [List.map_map] at ids
  refine ⟨q,_,ran,?_,wf.heaped,distinct,wf.count,wf.index,Prod.ext result rfl⟩
  refine sorted_of_ordered (lessAt_order q.heap) wf.ordered (List.nodup_append.mp wf.once).1 ?_
  intro a first b second apart
  refine less_total (fun same => apart ?_)
  exact List.inj_on_of_nodup_map distinct first second same

/-- Two named submissions under one name and a packet: the hypotheses are met. -/
theorem queue_refines_sorted_list_named :
    ∃ q outs, Queue.run {} [(.queueBroadcast ⟨0,.named [1],[7,7]⟩ (fun _ => false),fun _ => 3),
        (.queueBroadcast ⟨1,.named [1],[8]⟩ (fun _ => false),fun _ => 3),(.getBroadcasts 2 100 1,fun _ => 3),
        (.prune 0,fun _ => 3)] = some (q,outs) ∧
      (abs q,outs) = PlainQueue.run {} [.queueBroadcast ⟨0,.named [1],[7,7]⟩ (fun _ => false),
        .queueBroadcast ⟨1,.named [1],[8]⟩ (fun _ => false),.getBroadcasts 2 100 1,.prune 0] := by
  obtain ⟨q,outs,ran,-,-,-,-,-,result⟩ := queue_refines_sorted_list
    [(.queueBroadcast ⟨0,.named [1],[7,7]⟩ (fun _ => false),fun _ => 3),
      (.queueBroadcast ⟨1,.named [1],[8]⟩ (fun _ => false),fun _ => 3),(.getBroadcasts 2 100 1,fun _ => 3),
      (.prune 0,fun _ => 3)]
    (by simp [Proper]) (by simp [submits])
  exact ⟨q,outs,ran,result⟩

theorem settled_like {p p' : Plain} (like : Like p p') (settled : Settled p') : Settled p := by
  unfold Settled at settled ⊢
  rw [like.finished,like.submitted]
  exact ((like.entries.map _).append_right _).trans settled

theorem counted_like {p p' : Plain} {limit : Int} (like : Like p p') (counted : Counted limit p') : Counted limit p where
  live e member := by
    rw [like.returned]
    exact counted.live e (like.entries.mem_iff.mp member)
  done f member := by
    rw [like.returned]
    exact counted.done f (like.finished ▸ member)
  fresh r unknown := by
    rw [like.returned]
    exact counted.fresh r (like.submitted ▸ unknown)

theorem run_accounts {ops : List (Op × (Nat → UInt64))} (wf : WF q []) (settled : Settled (abs q))
    (proper : ∀ op ∈ ops, Proper op.1) :
    ∃ q' outs, Queue.run q ops = some (q',outs) ∧ WF q' [] ∧ Settled (abs q') ∧
      (abs q').submitted = (abs q).submitted + (ops.map (fun op => submits op.1)).sum ∧
      ∀ limit, (∀ op ∈ ops, At limit op.1) → Counted limit (abs q) → Counted limit (abs q') := by
  induction ops generalizing q with
  | nil => exact ⟨q,[],rfl,wf,settled,rfl,fun _ _ counted => counted⟩
  | cons head ops ih =>
    obtain ⟨op,draws⟩ := head
    obtain ⟨q₁,done,wf₁,like,-⟩ := step_spec wf draws (proper (op,draws) List.mem_cons_self)
    have counts := submitted_step (abs q) op
    rw [← like.submitted] at counts
    obtain ⟨q₂,outs,ran,wf₂,settled₂,total,counted₂⟩ := ih wf₁ (settled_like like (settled_step settled op))
      (fun op' later => proper op' (List.mem_cons_of_mem _ later))
    refine ⟨q₂,(PlainQueue.step (abs q) op).2 :: outs,?_,wf₂,settled₂,?_,?_⟩
    · rw [Queue.run,done]
      simp only [Option.bind_some,ran,Option.map_some]
    · simp only [List.map_cons,List.sum_cons]
      omega
    · intro limit fixed counted
      refine counted₂ limit (fun op' later => fixed op' (List.mem_cons_of_mem _ later)) ?_
      exact counted_like like (counted_step settled counted (fixed (op,draws) List.mem_cons_self))

/-- A queue to which operations have led. -/
def Reached (q : TransmitLimitedQueue) : Prop :=
  ∃ ops outs, (∀ op ∈ ops, Proper op.1) ∧ Queue.run {} ops = some (q,outs)

theorem wf_reached (reached : Reached q) : WF q [] := by
  obtain ⟨ops,outs,proper,ran⟩ := reached
  obtain ⟨q',outs',ran',wf,-⟩ := run_accounts wf_empty settled_empty proper
  rw [ran] at ran'
  cases ran'
  exact wf

/-- Every submission is either linked, or finished exactly once. One packet takes an
    entry at most once, and under a fixed limit an entry is sent at most so often, and
    exactly so often where it is finished by the limit. Runs in 64 bits are among these runs
    (`FirstFit.runInt_eq`). -/
theorem broadcast_accounted (ops : List (Op × (Nat → UInt64))) (proper : ∀ op ∈ ops, Proper op.1) :
    ∃ q outs, Queue.run {} ops = some (q,outs) ∧ q.alloc = (ops.map (fun op => submits op.1)).sum ∧
      (∀ r < q.alloc, r ∈ linked q ∧ (q.finished.map Prod.fst).count r = 0 ∨
        r ∉ linked q ∧ (q.finished.map Prod.fst).count r = 1) ∧
      (∀ overhead limit transmitLimit draws, ∃ q' taken,
        getBroadcasts q overhead limit transmitLimit draws = some (q',taken.map (fun r => (q.heap r).b.message)) ∧
        q'.returned = q.returned ++ taken ∧ taken.Nodup ∧ ∀ r ∈ taken, r ∈ linked q) ∧
      (∀ limit, (∀ op ∈ ops, At limit op.1) → ∀ r < q.alloc, (q.returned.count r : Int) ≤ max 1 limit ∧
        ((r,.transmitLimit) ∈ q.finished → (q.returned.count r : Int) = max 1 limit)) := by
  obtain ⟨q,outs,ran,wf,settled,total,counted⟩ := run_accounts wf_empty settled_empty proper
  have refs : (entries q).map (·.ref) = linked q := by
    rw [entries,List.map_map]
    exact List.map_id _
  have whole : (linked q ++ q.finished.map Prod.fst).Perm (List.range q.alloc) := by
    have perm : ((entries q).map (·.ref) ++ q.finished.map Prod.fst).Perm (List.range q.alloc) := settled
    rwa [refs] at perm
  have inside := (List.nodup_append.mp wf.once).1
  have once : ∀ r < q.alloc, (linked q).count r + (q.finished.map Prod.fst).count r = 1 := by
    intro r known
    have counts := whole.count_eq r
    rw [List.count_append,List.count_eq_one_of_mem List.nodup_range (List.mem_range.mpr known)] at counts
    exact counts
  refine ⟨q,outs,ran,total.trans (Nat.zero_add _),?_,?_,?_⟩
  · intro r known
    have counts := once r known
    by_cases member : r ∈ linked q
    · rw [List.count_eq_one_of_mem inside member] at counts
      exact .inl ⟨member,by omega⟩
    · rw [List.count_eq_zero_of_not_mem member] at counts
      exact .inr ⟨member,by omega⟩
  · intro overhead limit transmitLimit draws
    obtain ⟨q',done,-,like,-⟩ := getBroadcasts_spec wf overhead limit transmitLimit draws
    have listed : ∀ e ∈ (pick overhead limit (entries q)).1, ∃ r ∈ linked q, entryOf q.heap r = e :=
      fun e member => List.mem_map.mp ((pick_mem overhead limit).mpr (.inl member))
    refine ⟨q',(pick overhead limit (entries q)).1.map Entry.ref,?_,like.returned,?_,?_⟩
    · rw [done,List.map_map]
      refine congrArg (fun out => some (q',out)) (List.map_congr_left (fun e member => ?_))
      obtain ⟨r,-,rfl⟩ := listed e member
      rfl
    · exact (List.nodup_append.mp (pick_refs settled overhead limit)).1
    · intro r member
      obtain ⟨e,taken,rfl⟩ := List.mem_map.mp member
      obtain ⟨r,inside,rfl⟩ := listed e taken
      exact inside
  · intro limit fixed r known
    have counted := counted limit fixed (counted_empty limit)
    have counts := once r known
    by_cases member : r ∈ linked q
    · obtain ⟨times,below⟩ := counted.live (entryOf q.heap r) (List.mem_map_of_mem member)
      rw [List.count_eq_one_of_mem inside member] at counts
      refine ⟨?_,?_⟩
      · rw [show q.returned.count r = (entryOf q.heap r).transmits from times]
        exact Int.le_of_lt below
      · intro finished
        have positive : 0 < (q.finished.map Prod.fst).count r :=
          List.count_pos_iff.mpr (List.mem_map.mpr ⟨_,finished,rfl⟩)
        omega
    · rw [List.count_eq_zero_of_not_mem member] at counts
      have positive : 0 < (q.finished.map Prod.fst).count r := by omega
      obtain ⟨f,finished,rfl⟩ := List.mem_map.mp (List.count_pos_iff.mp positive)
      obtain ⟨most,_⟩ := counted.done f finished
      exact ⟨most,fun limited => (counted.done _ limited).2 rfl⟩

/-- Two submissions of which the longer one, which comes first, does not fit. -/
def crowding : List (Op × (Nat → UInt64)) :=
  [(.queueBroadcast ⟨0,.plain,[7,7]⟩ (fun _ => false),fun _ => 3),
    (.queueBroadcast ⟨1,.plain,[8,8,8,8]⟩ (fun _ => false),fun _ => 3),(.getBroadcasts 2 5 1,fun _ => 3)]

/-- The other is sent at a limit of one and finished by it. -/
theorem broadcast_accounted_crowding :
    ∃ q, Queue.run {} crowding = some (q,[[],[],[[7,7]]]) ∧ linked q = [1] ∧ q.finished = [(0,.transmitLimit)] ∧
      (q.finished.map Prod.fst).count 1 = 0 ∧ (q.returned.count 0 : Int) = max 1 1 ∧ (q.returned.count 1 : Int) ≤ max 1 1 := by
  obtain ⟨q,outs,ran,total,once,-,limited⟩ := broadcast_accounted crowding (by simp [crowding,Proper])
  have two : q.alloc = 2 := total
  have shown : (Queue.run {} crowding).map (fun x => (x.2,linked x.1,x.1.finished)) =
    some ([[],[],[[7,7]]],[1],[(0,.transmitLimit)]) := by decide
  rw [ran] at shown
  obtain ⟨rfl,links,finished⟩ : outs = _ ∧ linked q = _ ∧ q.finished = _ := by simpa using shown
  have most := limited 1 (by simp [crowding,At])
  have known : ∀ r < 2, r < q.alloc := fun r below => two ▸ below
  refine ⟨q,ran,links,finished,?_,(most 0 (known 0 (by decide))).2 (by simp [finished]),(most 1 (known 1 (by decide))).1⟩
  rcases once 1 (known 1 (by decide)) with ⟨-,none⟩ | ⟨gone,-⟩
  · exact none
  · exact absurd (by simp [links]) gone

end

end Mori.QueueRefinement
