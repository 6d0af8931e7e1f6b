import Mori.QueueRefinement
import Mori.Packing

/-!
Filling a packet is first fit. The code walks the tiers, searches the treap for the
next message that fits and takes it off; what it takes is what one pass over the
entries takes, in their order. `GetBroadcasts` computes with 64 bits, and that is
the same as computing with another limit.
-/
namespace Mori.FirstFit
open Mori.Net Mori.Treaps Mori.Queue Mori.QueueLinks Mori.PlainQueue Mori.QueueRefinement Mori.Packing

theorem len_nonneg (e : Entry) : 0 ≤ e.len := Int.natCast_nonneg _

section
variable {overhead limit used : Int} {tier : Nat} {passed rest : List Entry} {e : Entry}

/-- The search of the list passes over entries of an earlier tier and over large ones. -/
theorem find_passed (skipped : ∀ e ∈ passed, e.transmits < tier ∨ limit - used - overhead < e.len) :
    (passed ++ rest).find? (fun e => tier ≤ e.transmits && e.len ≤ limit - used - overhead) =
      rest.find? (fun e => tier ≤ e.transmits && e.len ≤ limit - used - overhead) := by
  rw [List.find?_append,List.find?_eq_none.mpr,Option.none_or]
  intro e member
  have := skipped e member
  simp only [Bool.and_eq_true,decide_eq_true_eq]
  omega

/-- What was passed over is not picked later: it is on an earlier tier or too large,
    and the room shrinks. -/
theorem pickFrom_onePass (cost : 0 ≤ overhead) {fuel : Nat}
    (skipped : ∀ e ∈ passed, e.transmits < tier ∨ limit - used - overhead < e.len)
    (tiers : ∀ e ∈ rest, tier ≤ e.transmits) (ascending : rest.Pairwise (fun a b => a.transmits ≤ b.transmits))
    (enough : rest.length ≤ fuel) :
    pickFrom overhead limit fuel tier used (passed ++ rest) =
      Prod.map id (passed ++ ·) (onePass overhead (under overhead limit) Entry.len used rest) := by
  -- The pass has come to `rest`: an entry is taken, or it is passed over for good.
  induction rest generalizing fuel tier used passed with
  | nil =>
    cases fuel with
    | zero => rfl
    | succ fuel =>
      simp only [pickFrom,find_passed skipped,List.find?_nil]
      split_ifs <;> rfl
  | cons e rest ih =>
    obtain ⟨above,ascending'⟩ := List.pairwise_cons.mp ascending
    obtain ⟨fuel,rfl⟩ : ∃ n, fuel = n + 1 := ⟨fuel - 1,by simp only [List.length_cons] at enough; omega⟩
    have enough' : rest.length ≤ fuel := by simpa using enough
    have here : tier ≤ e.transmits := tiers e List.mem_cons_self
    by_cases full : limit - used - overhead ≤ 0
    · have closed : under overhead limit used ≤ 0 := full
      rw [onePass_full closed,pickFrom,if_pos full]
      rfl
    · by_cases small : e.len ≤ limit - used - overhead
      · have found : (passed ++ e :: rest).find? (fun e => tier ≤ e.transmits && e.len ≤ limit - used - overhead) = some e := by
          rw [find_passed skipped,List.find?_cons_of_pos (by simp [here,small])]
        have fresh : e ∉ passed := fun member => by
          have := skipped e member
          omega
        have remaining : pickFrom overhead limit fuel e.transmits (used + (overhead + e.len)) (passed ++ rest) = _ :=
          ih (fun p member => by
            have := skipped p member
            have := len_nonneg e
            omega) above ascending' enough'
        have fits : Fits (under overhead limit) Entry.len used e := ⟨Int.not_le.mp full,small⟩
        rw [onePass_take fits,pickFrom,if_neg full]
        simp only [found,List.erase_append_right _ fresh,List.erase_cons_head,remaining]
        rfl
      · have remaining : pickFrom overhead limit (fuel + 1) tier used (passed ++ [e] ++ rest) = _ :=
          ih (fun p member => by
            rcases List.mem_append.mp member with old | new
            · exact skipped p old
            · rw [List.mem_singleton.mp new]
              omega) (fun p member => tiers p (List.mem_cons_of_mem _ member)) ascending' (by omega)
        rw [List.append_assoc] at remaining
        have large : ¬Fits (under overhead limit) Entry.len used e := fun fits => small fits.2
        rw [onePass_skip large]
        refine remaining.trans ?_
        simp only [Prod.map,List.append_assoc]
        rfl

theorem pick_onePass (cost : 0 ≤ overhead) {es : List Entry} (ascending : es.Pairwise (fun a b => a.transmits ≤ b.transmits)) :
    pick overhead limit es = onePass overhead (under overhead limit) Entry.len 0 es := by
  have whole : pickFrom overhead limit es.length 0 0 ([] ++ es) = _ :=
    pickFrom_onePass cost (fun e member => by cases member) (fun e _ => Nat.zero_le _) ascending (Nat.le_refl _)
  exact whole

end

/-- The variable `free` of `GetBroadcasts`, in 64 bits. -/
def free (overhead limit bytesUsed : Int) : Int := int64 (int64 (limit - bytesUsed) - overhead)

/-- A batch whose byte count is a 64-bit number. -/
def counted (s : Batch) : Batch := { s with bytesUsed := int64 s.bytesUsed }

/-- The loop over the tiers, in 64 bits. -/
def fillInt (overhead limit transmitLimit : Int) (maxTr : Nat) : Nat → Nat → Batch → Option Batch
  | 0,_,_ => none
  | fuel + 1,transmits,s =>
    if maxTr < transmits then some s
    else if free overhead limit s.bytesUsed ≤ 0 then some s
    else match fitting s.q transmits (free overhead limit s.bytesUsed) with
    | none => fillInt overhead limit transmitLimit maxTr fuel (transmits + 1) s
    | some keep =>
      ((take overhead transmitLimit s keep).map counted).bind (fillInt overhead limit transmitLimit maxTr fuel transmits)

/-- `GetBroadcasts`, in 64 bits. -/
def getBroadcastsInt (q : TransmitLimitedQueue) (overhead limit transmitLimit : Int) (draws : Nat → UInt64) :
    Option (TransmitLimitedQueue × List Bytes) :=
  if q.n = 0 then some (q,[])
  else
    (getTransmitRange q).bind (fun (minTr,maxTr) =>
      (fillInt overhead limit transmitLimit maxTr (maxTr - minTr + size q.root + 2) minTr { q := q }).bind (fun s =>
        (relink draws 0 s.reinsert s.q).map (fun q => (q,s.toSend))))

/-- The arguments are numbers of 64 bits, and the overhead is not negative. -/
structure Words (overhead limit : Int) : Prop where
  cost : 0 ≤ overhead
  overhead : overhead < 2 ^ 63
  low : -2 ^ 63 ≤ limit
  high : limit < 2 ^ 63

/-- The limit that the code works with: the first difference may overflow. -/
def reach (overhead limit : Int) : Int := if limit - overhead < -2 ^ 63 then limit + 2 ^ 64 else limit

/-- From here on no difference overflows. -/
structure Ample (overhead limit used : Int) : Prop where
  nonneg : 0 ≤ used
  room : -2 ^ 63 ≤ under overhead (reach overhead limit) used

section
variable {overhead limit used transmitLimit : Int}

theorem free_eq (overhead limit used : Int) : free overhead limit used = int64 (limit - used - overhead) :=
  Int.bmod_sub_bmod ..

theorem free_int64 (overhead limit used : Int) : free overhead limit (int64 used) = free overhead limit used := by
  simp only [free,int64,Int.sub_bmod_bmod]

theorem reach_cases (overhead limit : Int) :
    -2 ^ 63 ≤ limit - overhead ∧ reach overhead limit = limit ∨
      limit - overhead < -2 ^ 63 ∧ reach overhead limit = limit + 2 ^ 64 := by
  unfold reach
  split_ifs with wraps
  · exact .inr ⟨wraps,rfl⟩
  · exact .inl ⟨Int.not_lt.mp wraps,rfl⟩

theorem free_of_ample (words : Words overhead limit) (ample : Ample overhead limit used) :
    free overhead limit used = under overhead (reach overhead limit) used := by
  obtain ⟨cost,short,low,high⟩ := words
  obtain ⟨nonneg,room⟩ := ample
  rw [free_eq]
  unfold under at room ⊢
  rcases reach_cases overhead limit with ⟨fits,same⟩ | ⟨wraps,far⟩
  · rw [same] at room ⊢
    exact int64_of_fits room (by omega)
  · rw [far] at room ⊢
    have shift : limit + 2 ^ 64 - used - overhead = limit - used - overhead + 2 ^ 64 := by omega
    rw [← int64_of_fits room (by omega),shift]
    exact (Int.add_bmod_right ..).symm

theorem ample_zero (words : Words overhead limit) : Ample overhead limit 0 := by
  obtain ⟨cost,short,low,high⟩ := words
  refine ⟨Int.le_refl 0,?_⟩
  unfold under
  rcases reach_cases overhead limit with ⟨fits,same⟩ | ⟨wraps,far⟩ <;> omega

theorem ample_take (words : Words overhead limit) (ample : Ample overhead limit used) {n : Int} (nonneg : 0 ≤ n)
    (small : n ≤ under overhead (reach overhead limit) used) : Ample overhead limit (used + (overhead + n)) := by
  obtain ⟨cost,short,low,high⟩ := words
  obtain ⟨nonneg,room⟩ := ample
  unfold under at small
  refine ⟨by omega,?_⟩
  unfold under
  omega

theorem skipLarge_fits {q : TransmitLimitedQueue} {transmits : Nat} {space : Int} {fuel : Nat} {from_ : Option Ref} {keep : Ref}
    (found : skipLarge q transmits space fuel from_ = some keep) :
    ¬((q.heap keep).transmits = transmits ∧ space < ((q.heap keep).b.message.length : Int)) := by
  induction fuel generalizing from_ with
  | zero => cases found
  | succ fuel ih =>
    cases from_ with
    | none => cases found
    | some r =>
      rw [skipLarge] at found
      split_ifs at found with large
      · exact ih found
      · cases found
        exact large

/-- What the search finds fits. -/
theorem fitting_fits {q : TransmitLimitedQueue} {transmits : Nat} {space : Int} {keep : Ref}
    (found : fitting q transmits space = some keep) : ((q.heap keep).b.message.length : Int) ≤ space := by
  obtain ⟨searched,tier⟩ := Option.filter_eq_some_iff.mp found
  have := skipLarge_fits searched
  simp only [decide_eq_true_eq] at tier
  omega

theorem take_counted (overhead transmitLimit : Int) (s : Batch) (keep : Ref) :
    (take overhead transmitLimit (counted s) keep).map counted = (take overhead transmitLimit s keep).map counted := by
  unfold take
  simp only [Option.map_map]
  refine congrArg (fun f => (deleteItem s.q keep).map f) (funext fun q => ?_)
  simp only [Function.comp_apply]
  split_ifs <;> simp [counted,int64]

theorem take_used {s s' : Batch} {keep : Ref} (taken : take overhead transmitLimit s keep = some s') :
    s'.bytesUsed = s.bytesUsed + (overhead + ((s.q.heap keep).b.message.length : Int)) := by
  obtain ⟨q,deleted,rfl⟩ := Option.map_eq_some_iff.mp taken
  obtain ⟨root,-,rfl⟩ := Option.map_eq_some_iff.mp deleted
  simp only
  split_ifs <;> rfl

/-- The loop in 64 bits is the loop with the limit that it works with. -/
theorem fillInt_eq (words : Words overhead limit) (maxTr fuel transmits : Nat) {s : Batch}
    (ample : Ample overhead limit s.bytesUsed) :
    fillInt overhead limit transmitLimit maxTr fuel transmits (counted s) =
      (fill overhead (reach overhead limit) transmitLimit maxTr fuel transmits s).map counted := by
  induction fuel generalizing transmits s with
  | zero => rfl
  | succ fuel ih =>
    have room : free overhead limit (counted s).bytesUsed = reach overhead limit - s.bytesUsed - overhead :=
      (free_int64 ..).trans (free_of_ample words ample)
    rw [fillInt,fill,room]
    by_cases done : maxTr < transmits
    · rw [if_pos done,if_pos done]
      rfl
    · rw [if_neg done,if_neg done]
      by_cases full : reach overhead limit - s.bytesUsed - overhead ≤ 0
      · rw [if_pos full,if_pos full]
        rfl
      · rw [if_neg full,if_neg full,show (counted s).q = s.q from rfl]
        cases found : fitting s.q transmits (reach overhead limit - s.bytesUsed - overhead) with
        | none => exact ih (transmits + 1) ample
        | some keep =>
          simp only [take_counted]
          cases taken : take overhead transmitLimit s keep with
          | none => rfl
          | some s' =>
            simp only [Option.map_some,Option.bind_some]
            refine ih transmits ?_
            rw [take_used taken]
            exact ample_take words ample (Int.natCast_nonneg _) (fitting_fits found)

theorem getBroadcastsInt_eq (words : Words overhead limit) (q : TransmitLimitedQueue) (draws : Nat → UInt64) :
    getBroadcastsInt q overhead limit transmitLimit draws =
      getBroadcasts q overhead (reach overhead limit) transmitLimit draws := by
  unfold getBroadcastsInt getBroadcasts
  split_ifs with empty
  · rfl
  · refine congrArg (fun f => (getTransmitRange q).bind f) (funext fun range => ?_)
    have same : fillInt overhead limit transmitLimit range.2 (range.2 - range.1 + size q.root + 2) range.1
        (counted { q := q }) = _ := fillInt_eq words _ _ _ (ample_zero words)
    have start : counted { q := q } = { q := q } := rfl
    rw [start] at same
    simp only [same,Option.bind_map]
    rfl

end

/-- The arguments of a call that fills a packet are numbers of 64 bits. -/
def Sized : Op → Prop
  | .getBroadcasts overhead limit _ => Words overhead limit
  | _ => True

def stepInt (q : TransmitLimitedQueue) (draws : Nat → UInt64) : Op → Option (TransmitLimitedQueue × List Bytes)
  | .getBroadcasts overhead limit transmitLimit => getBroadcastsInt q overhead limit transmitLimit draws
  | op => step q draws op

def runInt (q : TransmitLimitedQueue) : List (Op × (Nat → UInt64)) → Option (TransmitLimitedQueue × List (List Bytes))
  | [] => some (q,[])
  | (op,draws) :: ops =>
    (stepInt q draws op).bind (fun (q,out) => (runInt q ops).map (fun (q,outs) => (q,out :: outs)))

/-- The operation with the limit that the code works with. -/
def unwrapped : Op → Op
  | .getBroadcasts overhead limit transmitLimit => .getBroadcasts overhead (reach overhead limit) transmitLimit
  | op => op

theorem stepInt_eq (q : TransmitLimitedQueue) (draws : Nat → UInt64) {op : Op} (sized : Sized op) :
    stepInt q draws op = step q draws (unwrapped op) := by
  cases op with
  | getBroadcasts overhead limit transmitLimit => exact getBroadcastsInt_eq sized q draws
  | queueBroadcast b invalidates => rfl
  | prune maxRetain => rfl
  | reset => rfl

/-- Every run in 64 bits is a run. -/
theorem runInt_eq (q : TransmitLimitedQueue) {ops : List (Op × (Nat → UInt64))} (sized : ∀ op ∈ ops, Sized op.1) :
    runInt q ops = Queue.run q (ops.map (Prod.map unwrapped id)) := by
  induction ops generalizing q with
  | nil => rfl
  | cons head ops ih =>
    have later := fun q => ih q (fun op member => sized op (List.mem_cons_of_mem _ member))
    have here := stepInt_eq q head.2 (sized head List.mem_cons_self)
    simp only [runInt,here,later]
    rfl

theorem proper_unwrapped {op : Op} (proper : Proper op) : Proper (unwrapped op) := by
  cases op with
  | prune maxRetain => exact proper
  | getBroadcasts overhead limit transmitLimit => exact trivial
  | queueBroadcast b invalidates => exact trivial
  | reset => exact trivial

/-- A run in 64 bits does what the sorted list does with the limits that the code works with. -/
theorem runInt_refines {ops : List (Op × (Nat → UInt64))} (fine : ∀ op ∈ ops, Proper op.1 ∧ Sized op.1)
    (few : (ops.map (fun op => submits op.1)).sum < 2 ^ 63) :
    ∃ q outs, runInt {} ops = some (q,outs) ∧ WF q [] ∧
      (abs q,outs) = PlainQueue.run {} (ops.map (fun op => unwrapped op.1)) := by
  have proper : ∀ op ∈ ops.map (Prod.map unwrapped id), Proper op.1 := by
    intro op member
    obtain ⟨op',listed,rfl⟩ := List.mem_map.mp member
    exact proper_unwrapped (fine op' listed).1
  have same : (ops.map (Prod.map unwrapped id)).map (fun op => submits op.1) = ops.map (fun op => submits op.1) := by
    rw [List.map_map]
    refine List.map_congr_left (fun op _ => ?_)
    cases h : op.1 <;> simp [h,unwrapped,submits]
  obtain ⟨q,ran,wf,-,result⟩ := run_refines wf_empty stamped_empty proper (by rw [same]; simpa [QueueRefinement.abs] using few)
  rw [List.map_map] at ran result
  exact ⟨q,_,(runInt_eq _ (fun op member => (fine op member).2)).trans ran,wf,Prod.ext result rfl⟩

/-- A queue to which operations in 64 bits have led. -/
def Reachable (q : TransmitLimitedQueue) : Prop :=
  ∃ ops outs, (∀ op ∈ ops, Proper op.1 ∧ Sized op.1) ∧ runInt {} ops = some (q,outs)

theorem reached_of_reachable {q : TransmitLimitedQueue} (reachable : Reachable q) : Reached q := by
  obtain ⟨ops,outs,fine,ran⟩ := reachable
  rw [runInt_eq _ (fun op member => (fine op member).2)] at ran
  refine ⟨_,outs,fun op member => ?_,ran⟩
  obtain ⟨op',listed,rfl⟩ := List.mem_map.mp member
  exact proper_unwrapped (fine op' listed).1

/-- The length of the message of an entry. -/
def lengthAt (q : TransmitLimitedQueue) (r : Ref) : Int := (q.heap r).b.message.length

/-- The entries that one pass over the queue chooses, and those that it leaves. -/
def chosen (q : TransmitLimitedQueue) (overhead limit : Int) : List Ref × List Ref :=
  onePass overhead (free overhead limit) (lengthAt q) 0 (linked q)

section
variable {q : TransmitLimitedQueue} {overhead limit : Int}

theorem lengthAt_nonneg (r : Ref) : 0 ≤ lengthAt q r := Int.natCast_nonneg _

theorem chosen_eq (words : Words overhead limit) :
    chosen q overhead limit = onePass overhead (under overhead (reach overhead limit)) (lengthAt q) 0 (linked q) := by
  refine onePass_congr (fun used (ample : Ample overhead limit used) => free_of_ample words ample) ?_ lengthAt_nonneg
    (ample_zero words) _
  intro used n ample nonneg small
  rw [free_of_ample words ample] at small
  exact ample_take words ample nonneg small

theorem linked_ascending (wf : WF q []) : (linked q).Pairwise (fun a b => less (q.heap b) (q.heap a) = false) :=
  ascending_of_ordered (lessAt_order q.heap) wf.ordered

theorem pick_chosen (wf : WF q []) (words : Words overhead limit) :
    pick overhead (reach overhead limit) (entries q) =
      Prod.map (List.map (entryOf q.heap)) (List.map (entryOf q.heap)) (chosen q overhead limit) := by
  have ascending : (entries q).Pairwise (fun a b => a.transmits ≤ b.transmits) := by
    refine List.pairwise_map.mpr ((linked_ascending wf).imp ?_)
    intro a b after
    rw [less_false_iff] at after
    simp only [entryOf]
    omega
  rw [pick_onePass words.cost ascending,chosen_eq words,entries,onePass_map]
  rfl

/-- The messages that one pass chooses are returned, and the others stay. -/
theorem getBroadcasts_chosen (wf : WF q []) (words : Words overhead limit) (transmitLimit : Int) (draws : Nat → UInt64) :
    ∃ q', getBroadcastsInt q overhead limit transmitLimit draws =
        some (q',(chosen q overhead limit).1.map (fun r => (q.heap r).b.message)) ∧
      ∀ r ∈ (chosen q overhead limit).2, entryOf q.heap r ∈ entries q' := by
  obtain ⟨q',done,-,like,-⟩ := getBroadcasts_spec wf overhead (reach overhead limit) transmitLimit draws
  refine ⟨q',?_,?_⟩
  · rw [getBroadcastsInt_eq words,done]
    simp only [PlainQueue.get,QueueRefinement.abs,pick_chosen wf words,Prod.map,List.map_map]
    rfl
  · intro r left
    refine like.entries.mem_iff.mpr ((foldl_insert_perm ..).mem_iff.mpr (List.mem_append_right _ ?_))
    simp only [QueueRefinement.abs,pick_chosen wf words,Prod.map]
    exact List.mem_map_of_mem left

theorem reach_of_nonneg (words : Words overhead limit) (nonneg : 0 ≤ limit) : reach overhead limit = limit := by
  have := words.overhead
  exact if_neg (by omega)

theorem chosen_fits (words : Words overhead limit) (taken : (chosen q overhead limit).1 ≠ []) :
    bytes overhead (lengthAt q) (chosen q overhead limit).1 ≤ reach overhead limit := by
  rw [chosen_eq words] at taken ⊢
  have fits := onePass_fits _ taken
  rwa [Int.zero_add] at fits

theorem ample_chosen (words : Words overhead limit) :
    Ample overhead limit (bytes overhead (lengthAt q) (chosen q overhead limit).1) := by
  by_cases nothing : (chosen q overhead limit).1 = []
  · rw [nothing,bytes_nil]
    exact ample_zero words
  · refine ⟨bytes_nonneg words.cost lengthAt_nonneg _,?_⟩
    have fits := chosen_fits words nothing
    have short := words.overhead
    unfold under
    omega

theorem chosen_within (words : Words overhead limit) (nonneg : 0 ≤ limit) :
    bytes overhead (lengthAt q) (chosen q overhead limit).1 ≤ limit := by
  by_cases nothing : (chosen q overhead limit).1 = []
  · rwa [nothing,bytes_nil]
  · have fits := chosen_fits words nothing
    rwa [reach_of_nonneg words nonneg] at fits

theorem chosen_negative (words : Words overhead limit) (negative : limit < 0) (fits : -2 ^ 63 ≤ limit - overhead) :
    (chosen q overhead limit).1 = [] := by
  have same : reach overhead limit = limit := if_neg (by omega)
  have cost := words.cost
  have full : under overhead limit 0 ≤ 0 := by
    unfold under
    omega
  rw [chosen_eq words,same,onePass_full full]

theorem left_large (words : Words overhead limit) {r : Ref} (left : r ∈ (chosen q overhead limit).2) (positive : 0 < lengthAt q r) :
    free overhead limit (bytes overhead (lengthAt q) (chosen q overhead limit).1) < lengthAt q r := by
  have shrinks : ∀ used n, 0 ≤ n →
      under overhead (reach overhead limit) (used + (overhead + n)) ≤ under overhead (reach overhead limit) used := by
    intro used n nonneg
    have cost := words.cost
    unfold under
    omega
  rw [free_of_ample words (ample_chosen words)]
  rw [chosen_eq words] at left ⊢
  have large := (onePass_left shrinks lengthAt_nonneg (linked q)).2 r left positive
  rwa [Int.zero_add] at large

/-- `GetBroadcasts` is first fit in the order of the queue: what one pass chooses is
    returned. For a limit that is not negative it fits, for a negative one nothing is
    returned, unless the difference of limit and overhead overflows, and no entry that
    stays would fit in what is left. -/
theorem getBroadcasts_first_fit (reachable : Reachable q) (words : Words overhead limit) (transmitLimit : Int)
    (draws : Nat → UInt64) :
    (linked q).Pairwise (fun a b => less (q.heap b) (q.heap a) = false) ∧
      (∃ q', getBroadcastsInt q overhead limit transmitLimit draws =
          some (q',(chosen q overhead limit).1.map (fun r => (q.heap r).b.message)) ∧
        ∀ r ∈ (chosen q overhead limit).2, entryOf q.heap r ∈ entries q') ∧
      ((chosen q overhead limit).1 ++ (chosen q overhead limit).2).Perm (linked q) ∧
      (0 ≤ limit → bytes overhead (lengthAt q) (chosen q overhead limit).1 ≤ limit) ∧
      (limit < 0 → -2 ^ 63 ≤ limit - overhead → (chosen q overhead limit).1 = []) ∧
      ∀ r ∈ (chosen q overhead limit).2, 0 < lengthAt q r →
        free overhead limit (bytes overhead (lengthAt q) (chosen q overhead limit).1) < lengthAt q r := by
  have wf := wf_reached (reached_of_reachable reachable)
  exact ⟨linked_ascending wf,getBroadcasts_chosen wf words transmitLimit draws,onePass_perm ..,chosen_within words,
    chosen_negative words,fun r left positive => left_large words left positive⟩

end

/-- A queue with one broadcast of one byte. -/
def lone : TransmitLimitedQueue := (queueBroadcast {} ⟨0,.plain,[7]⟩ (fun _ => false) 0).getD {}

theorem reachable_lone : Reachable lone := by
  refine ⟨[(.queueBroadcast ⟨0,.plain,[7]⟩ (fun _ => false),fun _ => 0)],[[]],?_,rfl⟩
  intro op member
  rw [List.mem_singleton.mp member]
  exact ⟨trivial,trivial⟩

/-- A longer broadcast as well, which comes before the other. -/
def mixed : TransmitLimitedQueue := (queueBroadcast lone ⟨1,.plain,[8,8,8,8,8]⟩ (fun _ => false) 0).getD {}

theorem reachable_mixed : Reachable mixed := by
  refine ⟨[(.queueBroadcast ⟨0,.plain,[7]⟩ (fun _ => false),fun _ => 0),
    (.queueBroadcast ⟨1,.plain,[8,8,8,8,8]⟩ (fun _ => false),fun _ => 0)],[[],[]],?_,rfl⟩
  intro op member
  simp only [List.mem_cons,List.not_mem_nil,or_false] at member
  rcases member with rfl | rfl <;> exact ⟨trivial,trivial⟩

/-- The longer one is passed over. -/
theorem getBroadcasts_first_fit_mixed :
    Reachable mixed ∧ Words 2 4 ∧ linked mixed = [1,0] ∧ chosen mixed 2 4 = ([0],[1]) ∧
      (∃ q', getBroadcastsInt mixed 2 4 4 (fun _ => 0) = some (q',[[7]]) ∧ entryOf mixed.heap 1 ∈ entries q') ∧
      bytes 2 (lengthAt mixed) [0] ≤ 4 ∧ free 2 4 (bytes 2 (lengthAt mixed) [0]) < lengthAt mixed 1 := by
  have words : Words 2 4 := ⟨by decide,by decide,by decide,by decide⟩
  have choice : chosen mixed 2 4 = ([0],[1]) := by decide
  obtain ⟨-,⟨q',done,stays⟩,-,fits,-,large⟩ := getBroadcasts_first_fit reachable_mixed words 4 (fun _ => 0)
  rw [choice] at done stays fits large
  exact ⟨reachable_mixed,words,by decide,choice,⟨q',done,stays 1 (by simp)⟩,fits (by decide),large 1 (by simp) (by decide)⟩

/-- Nothing is returned for a negative limit, and that is more than the limit. Where
    the overhead cannot be taken off the limit, everything is returned. -/
theorem negative_limit_exceeded :
    Reachable lone ∧ Words 0 (-1) ∧ (∃ q', getBroadcastsInt lone 0 (-1) 4 (fun _ => 0) = some (q',[])) ∧
      (chosen lone 0 (-1)).1 = [] ∧ ¬bytes 0 (lengthAt lone) (chosen lone 0 (-1)).1 ≤ -1 ∧
      Words 1 (-2 ^ 63) ∧ ∃ q', getBroadcastsInt lone 1 (-2 ^ 63) 4 (fun _ => 0) = some (q',[[7]]) := by
  refine ⟨reachable_lone,⟨by decide,by decide,by decide,by decide⟩,⟨_,rfl⟩,rfl,by decide,
    ⟨by decide,by decide,by decide,by decide⟩,_,rfl⟩

end Mori.FirstFit
