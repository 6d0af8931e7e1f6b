import Mori.FirstFit
import Mathlib.Algebra.Order.BigOperators.Group.List

/-!
How long a broadcast can wait in the queue. The queue hands out what has been sent least often
first, and what it hands out falls behind. So a broadcast that fits into a packet goes out
before `GetBroadcasts` has been called more often than other transmissions could be in front
of it; each broadcast that is submitted meanwhile adds to these.
-/
namespace Mori.Starvation
open Mori.Net Mori.Queue Mori.PlainQueue Mori.QueueRefinement Mori.QueueLinks Mori.Treaps Mori.Packing Mori.FirstFit

/-- How often another entry can go before the one that waits. -/
def turns (e f : Entry) : Nat := if f.ref = e.ref then 0 else e.transmits + 1 - f.transmits

def allTurns (e : Entry) (es : List Entry) : Nat := (es.map (turns e)).sum

/-- The entry can be handed out by every call of `GetBroadcasts`. -/
def Fitting (e : Entry) : Op → Prop
  | .getBroadcasts overhead limit _ => 0 ≤ overhead ∧ 0 < limit - overhead ∧ e.len ≤ limit - overhead
  | _ => True

def gets : Op → Nat
  | .getBroadcasts .. => 1
  | _ => 0

section
variable {e f : Entry} {es es' : List Entry} {p p' : Plain}

theorem allTurns_append (e : Entry) (es es' : List Entry) : allTurns e (es ++ es') = allTurns e es + allTurns e es' := by
  simp [allTurns]

theorem allTurns_perm (perm : es.Perm es') : allTurns e es = allTurns e es' := (perm.map (turns e)).sum_eq

theorem allTurns_sublist (sub : es.Sublist es') : allTurns e es ≤ allTurns e es' :=
  (sub.map (turns e)).sum_le_sum (fun _ _ => Nat.zero_le _)

/-- What is sent again falls behind: by a turn, if it was not behind the waiting entry. -/
theorem allTurns_again (transmitLimit : Int) {taken : List Entry} (member : f ∈ taken) (other : f.ref ≠ e.ref)
    (first : f.transmits ≤ e.transmits) :
    allTurns e ((taken.filter (fun f => !final transmitLimit f)).map Entry.bump) < allTurns e taken := by
  have sums : ∀ taken : List Entry, allTurns e ((taken.filter (fun f => !final transmitLimit f)).map Entry.bump) =
      (taken.map (fun f => if final transmitLimit f then 0 else turns e f.bump)).sum := by
    intro taken
    induction taken with
    | nil => rfl
    | cons f taken ih =>
      cases last : final transmitLimit f <;> simp [last,allTurns] at ih ⊢ <;> exact ih
  have bumped : ∀ f : Entry, turns e f.bump = if f.ref = e.ref then 0 else e.transmits + 1 - (f.transmits + 1) := fun _ => rfl
  rw [sums]
  refine List.sum_lt_sum _ _ (fun g _ => ?_) ⟨f,member,?_⟩
  · rw [bumped,turns]
    split_ifs <;> omega
  · rw [bumped,turns,if_neg other,if_neg other]
    split_ifs <;> omega

end

/-- The entry is not in the queue any more, or has been sent since. -/
def Gone (e : Entry) (p : Plain) : Prop := ∀ f ∈ p.entries, f.ref = e.ref → e.transmits < f.transmits

section
variable {e : Entry} {p p' : Plain}

theorem not_mem_of_gone (gone : Gone e p) : e ∉ p.entries := fun member => Nat.lt_irrefl _ (gone e member rfl)

theorem same_of_ref (settled : Settled p) {f g : Entry} (first : f ∈ p.entries) (second : g ∈ p.entries) (same : f.ref = g.ref) :
    f = g :=
  List.inj_on_of_nodup_map (List.nodup_append.mp (settled_nodup settled)).1 first second same

theorem gone_like (like : Like p p') (gone : Gone e p') : Gone e p :=
  fun f member same => gone f (like.entries.mem_iff.mp member) same

/-- What a call of `GetBroadcasts` leaves. -/
theorem entries_get (p : Plain) (overhead limit transmitLimit : Int) :
    (PlainQueue.get p overhead limit transmitLimit).1.entries.Perm
      (((pick overhead limit p.entries).1.filter (fun f => !final transmitLimit f)).map Entry.bump ++
        (pick overhead limit p.entries).2) :=
  foldl_insert_perm ..

theorem gone_get (gone : Gone e p) (overhead limit transmitLimit : Int) :
    Gone e (PlainQueue.get p overhead limit transmitLimit).1 := by
  intro f member same
  have parts := pick_perm overhead limit p.entries
  rcases List.mem_append.mp ((entries_get p overhead limit transmitLimit).mem_iff.mp member) with again | left
  · obtain ⟨g,taken,rfl⟩ := List.mem_map.mp again
    have before := gone g (parts.mem_iff.mp (List.mem_append_left _ (List.mem_of_mem_filter taken))) same
    exact Nat.lt_succ_of_lt before
  · exact gone f (parts.mem_iff.mp (List.mem_append_right _ left)) same

theorem entries_queue (p : Plain) (b : Broadcast) (invalidates : Broadcast → Bool) :
    (queue p b invalidates).entries.Perm
      (⟨p.submitted,0,int64 (p.idGen + 1),b⟩ :: p.entries.filter (fun f => !replaces b invalidates f)) :=
  perm_insertSorted ..

theorem gone_step (old : e.ref < p.submitted) (gone : Gone e p) (op : Op) : Gone e (PlainQueue.step p op).1 := by
  cases op with
  | queueBroadcast b invalidates =>
    intro f member same
    rcases List.mem_cons.mp ((entries_queue p b invalidates).mem_iff.mp member) with rfl | kept
    · exact absurd same (Nat.ne_of_gt old)
    · exact gone f (List.mem_of_mem_filter kept) same
  | getBroadcasts overhead limit transmitLimit => exact gone_get gone overhead limit transmitLimit
  | prune maxRetain => exact fun f member same => gone f (List.mem_of_mem_take member) same
  | reset => exact fun f member => by cases member

/-- An entry that fits is handed out, or one in front of it is. -/
theorem turn_get (settled : Settled p) (ascending : p.entries.Pairwise (fun f g => f.transmits ≤ g.transmits))
    (member : e ∈ p.entries) {overhead limit : Int} (transmitLimit : Int) (cost : 0 ≤ overhead) (room : 0 < limit - overhead)
    (fits : e.len ≤ limit - overhead) :
    Gone e (PlainQueue.get p overhead limit transmitLimit).1 ∨
      e ∈ (PlainQueue.get p overhead limit transmitLimit).1.entries ∧
        allTurns e (PlainQueue.get p overhead limit transmitLimit).1.entries < allTurns e p.entries := by
  have parts := pick_perm overhead limit p.entries
  have after := entries_get p overhead limit transmitLimit
  by_cases taken : e ∈ (pick overhead limit p.entries).1
  · refine .inl (fun f remains same => ?_)
    rcases List.mem_append.mp (after.mem_iff.mp remains) with again | left
    · obtain ⟨g,listed,rfl⟩ := List.mem_map.mp again
      have here := same_of_ref settled (parts.mem_iff.mp (List.mem_append_left _ (List.mem_of_mem_filter listed))) member same
      subst here
      exact Nat.lt_succ_self _
    · -- Nothing is both taken and left.
      have here := same_of_ref settled (parts.mem_iff.mp (List.mem_append_right _ left)) member same
      subst here
      have once : ((pick overhead limit p.entries).1 ++ (pick overhead limit p.entries).2).Nodup :=
        parts.nodup_iff.mpr (List.nodup_append.mp (settled_nodup settled)).1.of_map
      exact absurd rfl ((List.nodup_append.mp once).2.2 _ taken _ left)
  · have left := (List.mem_append.mp (parts.mem_iff.mpr member)).resolve_left taken
    refine .inr ⟨after.mem_iff.mpr (List.mem_append_right _ left),?_⟩
    have fitting : Fits (under overhead limit) Entry.len 0 e := ⟨by simp only [under]; omega,by simp only [under]; omega⟩
    rw [pick_onePass cost ascending] at taken left parts after
    obtain ⟨f,first,order⟩ := onePass_blocked ascending fitting left
    have other : f.ref ≠ e.ref := by
      intro same
      have here := same_of_ref settled (parts.mem_iff.mp (List.mem_append_left _ first)) member same
      exact taken (here ▸ first)
    have less := allTurns_again transmitLimit first other order
    rw [allTurns_perm after,← allTurns_perm parts,allTurns_append,allTurns_append]
    omega

theorem turn_step (settled : Settled p) (ascending : p.entries.Pairwise (fun f g => f.transmits ≤ g.transmits))
    (member : e ∈ p.entries) {op : Op} (fits : Fitting e op) :
    Gone e (PlainQueue.step p op).1 ∨ e ∈ (PlainQueue.step p op).1.entries ∧
      allTurns e (PlainQueue.step p op).1.entries + gets op ≤ allTurns e p.entries + (e.transmits + 1) * submits op := by
  cases op with
  | queueBroadcast b invalidates =>
    have after := entries_queue p b invalidates
    have old := settled_entry settled member
    by_cases replaced : replaces b invalidates e = true
    · refine .inl (fun f remains same => ?_)
      rcases List.mem_cons.mp (after.mem_iff.mp remains) with rfl | kept
      · exact absurd same (Nat.ne_of_gt old)
      · have here := same_of_ref settled (List.mem_of_mem_filter kept) member same
        subst here
        simp [replaced] at kept
    · refine .inr ⟨after.mem_iff.mpr (List.mem_cons_of_mem _ (List.mem_filter.mpr ⟨member,by simp [replaced]⟩)),?_⟩
      have new : turns e ⟨p.submitted,0,int64 (p.idGen + 1),b⟩ ≤ e.transmits + 1 := by
        unfold turns
        split_ifs <;> simp
      have rest := allTurns_sublist (e := e) (List.filter_sublist (p := fun f => !replaces b invalidates f) (l := p.entries))
      have sum := allTurns_perm (e := e) after
      simp only [allTurns,List.map_cons,List.sum_cons] at sum rest
      show allTurns e (queue p b invalidates).entries + 0 ≤ allTurns e p.entries + (e.transmits + 1) * 1
      simp only [allTurns]
      omega
  | getBroadcasts overhead limit transmitLimit =>
    obtain ⟨cost,room,small⟩ := fits
    refine (turn_get settled ascending member transmitLimit cost room small).imp_right (And.imp_right (fun less => ?_))
    exact Nat.le_trans less (Nat.le_add_right _ _)
  | prune maxRetain =>
    by_cases kept : e ∈ p.entries.take maxRetain.toNat
    · exact .inr ⟨kept,Nat.le_trans (allTurns_sublist (List.take_sublist _ _)) (Nat.le_add_right _ _)⟩
    · refine .inl (fun f remains same => ?_)
      have here := same_of_ref settled (List.mem_of_mem_take remains) member same
      exact absurd (here ▸ remains) kept
  | reset => exact .inl (fun f remains => by cases remains)

end

section
variable {q : TransmitLimitedQueue} {e : Entry}

theorem ascending_entries (wf : WF q []) : (entries q).Pairwise (fun f g => f.transmits ≤ g.transmits) := by
  refine List.pairwise_map.mpr ((linked_ascending wf).imp ?_)
  intro a b after
  rw [less_false_iff] at after
  simp only [entryOf]
  omega

theorem turn_run {ops : List (Op × (Nat → UInt64))} (proper : ∀ op ∈ ops, Proper op.1) (fits : ∀ op ∈ ops, Fitting e op.1)
    (wf : WF q []) (settled : Settled (abs q)) (old : e.ref < (abs q).submitted) {q' : TransmitLimitedQueue}
    {outs : List (List Bytes)} (ran : Queue.run q ops = some (q',outs)) :
    (Gone e (abs q) → Gone e (abs q')) ∧
    (e ∈ entries q → Gone e (abs q') ∨ e ∈ entries q' ∧
      allTurns e (entries q') + (ops.map (fun op => gets op.1)).sum ≤
        allTurns e (entries q) + (e.transmits + 1) * (ops.map (fun op => submits op.1)).sum) := by
  induction ops generalizing q outs with
  | nil =>
    cases ran
    exact ⟨id,fun member => .inr ⟨member,by simp⟩⟩
  | cons head ops ih =>
    obtain ⟨op,draws⟩ := head
    have here : Proper op := proper (op,draws) List.mem_cons_self
    have fitting : Fitting e op := fits (op,draws) List.mem_cons_self
    obtain ⟨q₁,done,wf₁,like,-⟩ := step_spec wf draws here
    rw [Queue.run,done,Option.bind_some] at ran
    obtain ⟨⟨q₂,rest⟩,later,last⟩ := Option.map_eq_some_iff.mp ran
    cases last
    have settled₁ := settled_like like (settled_step settled op)
    have old₁ : e.ref < (abs q₁).submitted := by
      rw [like.submitted,submitted_step]
      exact Nat.lt_of_lt_of_le old (Nat.le_add_right _ _)
    obtain ⟨stays,goes⟩ := ih (fun op' later => proper op' (List.mem_cons_of_mem _ later))
      (fun op' later => fits op' (List.mem_cons_of_mem _ later)) wf₁ settled₁ old₁ later
    refine ⟨fun gone => stays (gone_like like (gone_step old gone op)),fun member => ?_⟩
    rcases turn_step settled (ascending_entries wf) member fitting with gone | ⟨kept,turn⟩
    · exact .inl (stays (gone_like like gone))
    · have kept₁ : e ∈ entries q₁ := like.entries.mem_iff.mpr kept
      refine (goes kept₁).imp_right (And.imp_right (fun total => ?_))
      have same : allTurns e (entries q₁) = _ := allTurns_perm like.entries
      have before : allTurns e (abs q).entries = allTurns e (entries q) := rfl
      simp only [List.map_cons,List.sum_cons]
      rw [Nat.mul_add]
      omega

/-- Whatever is submitted and removed meanwhile: as long as a broadcast that fits waits in the
    queue, `GetBroadcasts` has not been called more often than other transmissions could be in
    front of it at the start, and for each broadcast submitted since as many more as the waiting
    one has had, and one. -/
theorem waiting_bounded (reached : Reached q) (queued : e ∈ entries q) {ops : List (Op × (Nat → UInt64))}
    (proper : ∀ op ∈ ops, Proper op.1) (fits : ∀ op ∈ ops, Fitting e op.1) {q' : TransmitLimitedQueue}
    {outs : List (List Bytes)} (ran : Queue.run q ops = some (q',outs)) (waits : e ∈ entries q') :
    (ops.map (fun op => gets op.1)).sum ≤
      allTurns e (entries q) + (e.transmits + 1) * (ops.map (fun op => submits op.1)).sum := by
  have settled : Settled (abs q) := by
    obtain ⟨ops,outs,proper,ran⟩ := reached
    obtain ⟨_,_,again,-,settled,-⟩ := run_accounts wf_empty settled_empty proper
    cases ran.symm.trans again
    exact settled
  obtain ⟨-,goes⟩ := turn_run proper fits (wf_reached reached) settled (settled_entry settled queued) ran
  rcases goes queued with gone | ⟨-,total⟩
  · exact absurd waits (not_mem_of_gone gone)
  · omega

end

/-- Two broadcasts of one byte: the one submitted last is in front. -/
def pair : TransmitLimitedQueue :=
  ((queueBroadcast {} ⟨0,.plain,[7]⟩ (fun _ => false) 0).bind
    (fun q => queueBroadcast q ⟨1,.plain,[8]⟩ (fun _ => false) 0)).getD {}

/-- The bound is met: one call with room for one broadcast sends the other one. -/
theorem waiting_bounded_pair :
    ∃ q' outs, Queue.run pair [(.getBroadcasts 2 5 4,fun _ => 0)] = some (q',outs) ∧
      (⟨0,0,1,⟨0,.plain,[7]⟩⟩ : Entry) ∈ entries q' ∧ outs = [[[8]]] ∧
      1 ≤ allTurns ⟨0,0,1,⟨0,.plain,[7]⟩⟩ (entries pair) + (0 + 1) * 0 := by
  have reached : Reached pair := by
    refine ⟨[(.queueBroadcast ⟨0,.plain,[7]⟩ (fun _ => false),fun _ => 0),
      (.queueBroadcast ⟨1,.plain,[8]⟩ (fun _ => false),fun _ => 0)],[[],[]],?_,rfl⟩
    exact List.forall_mem_cons.mpr ⟨trivial,List.forall_mem_singleton.mpr trivial⟩
  have fits : ∀ op ∈ [(Op.getBroadcasts 2 5 4,fun _ : Nat => (0 : UInt64))], Fitting ⟨0,0,1,⟨0,.plain,[7]⟩⟩ op.1 :=
    List.forall_mem_singleton.mpr ⟨by decide,by decide,by decide⟩
  refine ⟨_,_,rfl,?_,?_,waiting_bounded reached ?_ (by exact List.forall_mem_singleton.mpr trivial) fits rfl ?_⟩ <;> decide

end Mori.Starvation
