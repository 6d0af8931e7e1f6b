import Mori.Queue
import Mathlib.Data.List.Perm.Basic
import Mathlib.Data.List.Nodup
import Mathlib.Tactic.Linarith

/-!
What the broadcast queue is for, as a plain sorted list without priorities and
pointers: a packet is filled with the first entry that fits, from the current tier
on, as long as there is one, and what was sent moves on to the next tier or is
finished. Every submission is either queued or finished once, and
is sent as often as its transmit count says.
-/
namespace Mori.PlainQueue
open Mori.Net Mori.Treaps Mori.Queue

/-- A queued broadcast; `ref` counts the submissions. -/
structure Entry where
  ref : Ref
  transmits : Nat
  id : Int
  b : Broadcast
deriving DecidableEq,Repr

def Entry.len (e : Entry) : Int := e.b.message.length

/-- Fewer transmits first, then longer messages, then newer ones. -/
def Entry.before (e o : Entry) : Bool :=
  if e.transmits ≠ o.transmits then e.transmits < o.transmits
  else if e.len ≠ o.len then o.len < e.len
  else o.id < e.id

/-- The entry on the next tier. -/
def Entry.bump (e : Entry) : Entry := { e with transmits := e.transmits + 1 }

structure Plain where
  entries : List Entry := []
  submitted : Nat := 0
  idGen : Int := 0
  finished : List (Ref × Cause) := []
  returned : List Ref := []

/-- Whether a new broadcast makes a queued one obsolete. -/
def replaces (b : Broadcast) (invalidates : Broadcast → Bool) (e : Entry) : Bool :=
  if b.name ≠ [] then e.b.name = b.name
  else if b.kind = .unique then false
  else e.b.kind = .plain && invalidates e.b

/-- The log entries of some calls of `Finished`. -/
def ends (cause : Cause) (es : List Entry) : List (Ref × Cause) := es.map (fun e => (e.ref,cause))

def queue (p : Plain) (b : Broadcast) (invalidates : Broadcast → Bool) : Plain :=
  { p with
    entries := insertSorted Entry.before ⟨p.submitted,0,int64 (p.idGen + 1),b⟩
      (p.entries.filter (fun e => !replaces b invalidates e))
    submitted := p.submitted + 1
    idGen := int64 (p.idGen + 1)
    finished := p.finished ++ ends .invalidated (p.entries.filter (replaces b invalidates)) }

/-- Takes the first entry from a tier on whose message fits into what is left of the
    limit, as long as there is one. The second list is what stays. The fuel is the
    number of entries. -/
def pickFrom (overhead limit : Int) : Nat → Nat → Int → List Entry → List Entry × List Entry
  | 0,_,_,es => ([],es)
  | fuel + 1,tier,used,es =>
    if limit - used - overhead ≤ 0 then ([],es)
    else match es.find? (fun e => tier ≤ e.transmits && e.len ≤ limit - used - overhead) with
    | none => ([],es)
    | some e =>
      let rest := pickFrom overhead limit fuel e.transmits (used + (overhead + e.len)) (es.erase e)
      (e :: rest.1,rest.2)

def pick (overhead limit : Int) (es : List Entry) : List Entry × List Entry := pickFrom overhead limit es.length 0 0 es

/-- Whether the next transmission of an entry is its last. -/
def final (transmitLimit : Int) (e : Entry) : Bool := transmitLimit ≤ (e.transmits : Int) + 1

def get (p : Plain) (overhead limit transmitLimit : Int) : Plain × List Bytes :=
  let taken := (pick overhead limit p.entries).1
  let again := (taken.filter (fun e => !final transmitLimit e)).map Entry.bump
  ({ p with
      entries := again.foldl (fun es e => insertSorted Entry.before e es) (pick overhead limit p.entries).2
      finished := p.finished ++ ends .transmitLimit (taken.filter (final transmitLimit))
      returned := p.returned ++ taken.map (·.ref) },
    taken.map (·.b.message))

/-- Keeps the first entries; the others are finished from the last on. -/
def prune (p : Plain) (maxRetain : Int) : Plain :=
  { p with
    entries := p.entries.take maxRetain.toNat
    finished := p.finished ++ ends .pruned (p.entries.drop maxRetain.toNat).reverse }

def reset (p : Plain) : Plain :=
  { p with entries := [], idGen := 0, finished := p.finished ++ ends .reset p.entries }

def step (p : Plain) : Op → Plain × List Bytes
  | .queueBroadcast b invalidates => (queue p b invalidates,[])
  | .getBroadcasts overhead limit transmitLimit => get p overhead limit transmitLimit
  | .prune maxRetain => (prune p maxRetain,[])
  | .reset => (reset p,[])

def run (p : Plain) : List Op → Plain × List (List Bytes)
  | [] => (p,[])
  | op :: ops => ((run (step p op).1 ops).1,(step p op).2 :: (run (step p op).1 ops).2)

/-- An entry that is found is taken off the list. -/
theorem find_perm {es : List Entry} {found : Entry → Bool} {e : Entry} (first : es.find? found = some e) :
    (e :: es.erase e).Perm es :=
  (List.perm_cons_erase (List.mem_of_find?_eq_some first)).symm

theorem pickFrom_perm (overhead limit : Int) (fuel tier : Nat) (used : Int) (es : List Entry) :
    ((pickFrom overhead limit fuel tier used es).1 ++ (pickFrom overhead limit fuel tier used es).2).Perm es := by
  induction fuel generalizing tier used es with
  | zero => exact List.Perm.refl es
  | succ fuel ih =>
    simp only [pickFrom]
    split_ifs
    · exact List.Perm.refl es
    · split
      · exact List.Perm.refl es
      · next e first => exact ((ih _ _ _).cons e).trans (find_perm first)

theorem pick_perm (overhead limit : Int) (es : List Entry) :
    ((pick overhead limit es).1 ++ (pick overhead limit es).2).Perm es :=
  pickFrom_perm ..

theorem pickFrom_fits (overhead limit : Int) (fuel tier : Nat) (used : Int) (es : List Entry)
    (taken : (pickFrom overhead limit fuel tier used es).1 ≠ []) :
    used + ((pickFrom overhead limit fuel tier used es).1.map (fun e => overhead + e.len)).sum ≤ limit := by
  induction fuel generalizing tier used es with
  | zero => exact absurd rfl taken
  | succ fuel ih =>
    simp only [pickFrom] at taken ⊢
    split_ifs at taken ⊢ with full
    · exact absurd rfl taken
    · split at taken
      · exact absurd rfl taken
      · next e first =>
        have fits : e.len ≤ limit - used - overhead := by
          have := List.find?_some first
          simp only [Bool.and_eq_true,decide_eq_true_eq] at this
          exact this.2
        simp only [List.map_cons,List.sum_cons]
        by_cases last : (pickFrom overhead limit fuel e.transmits (used + (overhead + e.len)) (es.erase e)).1 = []
        · rw [last]
          simp only [List.map_nil,List.sum_nil]
          linarith
        · linarith [ih _ _ _ last]

/-- What is taken fits, each message with its overhead. -/
theorem pick_fits (overhead limit : Int) (es : List Entry) (taken : (pick overhead limit es).1 ≠ []) :
    ((pick overhead limit es).1.map (fun e => overhead + e.len)).sum ≤ limit := by
  have fits := pickFrom_fits overhead limit es.length 0 0 es taken
  rw [Int.zero_add] at fits
  exact fits

theorem foldl_insert_perm (again es : List Entry) :
    (again.foldl (fun es e => insertSorted Entry.before e es) es).Perm (again ++ es) := by
  induction again generalizing es with
  | nil => exact List.Perm.refl es
  | cons e again ih =>
    refine (ih _).trans ?_
    exact ((perm_insertSorted e es).append_left again).trans List.perm_middle

/-- The entries queued and those finished, together, are the submissions. -/
def Settled (p : Plain) : Prop :=
  (p.entries.map (·.ref) ++ p.finished.map Prod.fst).Perm (List.range p.submitted)

theorem refs_ends (cause : Cause) (es : List Entry) : (ends cause es).map Prod.fst = es.map (·.ref) := by
  simp [ends]

section
variable {p p' : Plain}

/-- Entries that leave the queue are finished, and no others are. -/
theorem settled_of_perm (settled : Settled p) (new gone : List Ref)
    (counted : List.range p'.submitted = List.range p.submitted ++ new)
    (split : (p'.entries.map (·.ref) ++ gone).Perm (p.entries.map (·.ref) ++ new))
    (log : p'.finished.map Prod.fst = p.finished.map Prod.fst ++ gone) : Settled p' := by
  unfold Settled at settled ⊢
  rw [counted,log]
  rw [List.perm_iff_count] at settled split ⊢
  intro r
  have before := settled r
  have moved := split r
  simp only [List.count_append] at before moved ⊢
  omega

theorem settled_queue (settled : Settled p) (b : Broadcast) (invalidates : Broadcast → Bool) :
    Settled (queue p b invalidates) := by
  have inserted : ((queue p b invalidates).entries.map (·.ref)).Perm _ :=
    (perm_insertSorted ⟨p.submitted,0,int64 (p.idGen + 1),b⟩
      (p.entries.filter (fun e => !replaces b invalidates e))).map (·.ref)
  have parts := (List.filter_append_perm (replaces b invalidates) p.entries).map (·.ref)
  refine settled_of_perm settled [p.submitted]
    ((p.entries.filter (replaces b invalidates)).map (·.ref)) List.range_succ ?_ (by simp [queue,refs_ends])
  rw [List.perm_iff_count] at inserted parts ⊢
  intro r
  have first := inserted r
  have second := parts r
  simp only [queue,List.map_append,List.map_cons,List.count_append,List.count_cons,List.count_nil] at first second ⊢
  omega

theorem settled_get (settled : Settled p) (overhead limit transmitLimit : Int) :
    Settled (get p overhead limit transmitLimit).1 := by
  generalize parts : pick overhead limit p.entries = picked
  have whole := (pick_perm overhead limit p.entries).map (·.ref)
  rw [parts] at whole
  have relinked := (foldl_insert_perm ((picked.1.filter (fun e => !final transmitLimit e)).map Entry.bump) picked.2).map
    (·.ref)
  have sent := (List.filter_append_perm (final transmitLimit) picked.1).map (·.ref)
  have bumped : ((picked.1.filter (fun e => !final transmitLimit e)).map Entry.bump).map (·.ref) =
      (picked.1.filter (fun e => !final transmitLimit e)).map (·.ref) := by
    rw [List.map_map]
    rfl
  refine settled_of_perm settled [] ((picked.1.filter (final transmitLimit)).map (·.ref))
    (by simp [get]) ?_ (by simp [get,parts,refs_ends])
  rw [List.map_append] at whole relinked sent
  rw [bumped] at relinked
  rw [List.perm_iff_count] at whole relinked sent ⊢
  intro r
  have first := whole r
  have second := relinked r
  have third := sent r
  simp only [get,parts,List.count_append,List.count_nil] at first second third ⊢
  omega

theorem settled_prune (settled : Settled p) (maxRetain : Int) : Settled (prune p maxRetain) := by
  refine settled_of_perm settled [] ((p.entries.drop maxRetain.toNat).reverse.map (·.ref))
    (by simp [prune]) ?_ (by simp [prune,refs_ends])
  have back := ((List.reverse_perm (p.entries.drop maxRetain.toNat)).append_left
    (p.entries.take maxRetain.toNat)).map (·.ref)
  rw [List.take_append_drop,List.map_append] at back
  simpa [prune] using back

theorem settled_reset (settled : Settled p) : Settled (reset p) :=
  settled_of_perm settled [] (p.entries.map (·.ref)) (by simp [reset]) (by simp [reset])
    (by simp [reset,refs_ends])

theorem settled_step (settled : Settled p) (op : Op) : Settled (step p op).1 := by
  cases op with
  | queueBroadcast b invalidates => exact settled_queue settled b invalidates
  | getBroadcasts overhead limit transmitLimit => exact settled_get settled overhead limit transmitLimit
  | prune maxRetain => exact settled_prune settled maxRetain
  | reset => exact settled_reset settled

theorem settled_nodup (settled : Settled p) : (p.entries.map (·.ref) ++ p.finished.map Prod.fst).Nodup :=
  settled.nodup_iff.mpr List.nodup_range

theorem settled_entry (settled : Settled p) {e : Entry} (member : e ∈ p.entries) : e.ref < p.submitted :=
  List.mem_range.mp (settled.mem_iff.mp (List.mem_append_left _ (List.mem_map_of_mem member)))

theorem settled_apart (settled : Settled p) {e : Entry} (member : e ∈ p.entries) {f : Ref × Cause}
    (finished : f ∈ p.finished) : e.ref ≠ f.1 :=
  (List.nodup_append.mp (settled_nodup settled)).2.2 _ (List.mem_map_of_mem member) _ (List.mem_map_of_mem finished)

/-- A queued entry was sent as often as its transmit count says, and less often than
    the limit; a finished one at most so often, and exactly so often where the limit
    was the cause. -/
structure Counted (limit : Int) (p : Plain) : Prop where
  live : ∀ e ∈ p.entries, p.returned.count e.ref = e.transmits ∧ (e.transmits : Int) < max 1 limit
  done : ∀ f ∈ p.finished, (p.returned.count f.1 : Int) ≤ max 1 limit ∧
    (f.2 = .transmitLimit → (p.returned.count f.1 : Int) = max 1 limit)
  fresh : ∀ r, p.submitted ≤ r → p.returned.count r = 0

variable {limit : Int}

/-- Entries may leave the queue for another cause than the limit. -/
theorem counted_drop (counted : Counted limit p) (log : p'.returned = p.returned) (same : p'.submitted = p.submitted)
    (fewer : ∀ e ∈ p'.entries, e ∈ p.entries) {cause : Cause} (other : cause ≠ .transmitLimit) {gone : List Entry}
    (left : ∀ e ∈ gone, e ∈ p.entries) (ended : p'.finished = p.finished ++ ends cause gone) : Counted limit p' where
  live e member := by
    rw [log]
    exact counted.live e (fewer e member)
  done f member := by
    rw [log]
    rw [ended] at member
    rcases List.mem_append.mp member with old | new
    · exact counted.done f old
    · obtain ⟨e,listed,rfl⟩ := List.mem_map.mp new
      obtain ⟨times,below⟩ := counted.live e (left e listed)
      exact ⟨by rw [times]; exact Int.le_of_lt below,fun same => absurd same other⟩
  fresh r unknown := by
    rw [log]
    exact counted.fresh r (same ▸ unknown)

theorem counted_queue (counted : Counted limit p) (b : Broadcast) (invalidates : Broadcast → Bool) :
    Counted limit (queue p b invalidates) where
  live e member := by
    rcases mem_insertSorted.mp member with rfl | old
    · exact ⟨counted.fresh p.submitted (Nat.le_refl _),by simp⟩
    · exact counted.live e (List.mem_of_mem_filter old)
  done f member := by
    rcases List.mem_append.mp member with old | new
    · exact counted.done f old
    · obtain ⟨e,listed,rfl⟩ := List.mem_map.mp new
      obtain ⟨times,below⟩ := counted.live e (List.mem_of_mem_filter listed)
      exact ⟨by simp only [queue,times]; exact Int.le_of_lt below,fun same => by cases same⟩
  fresh r unknown := counted.fresh r (Nat.le_of_succ_le unknown)

/-- What is taken was queued, and each entry is taken once. -/
theorem pick_refs (settled : Settled p) (overhead limit : Int) :
    ((pick overhead limit p.entries).1.map (·.ref) ++ (pick overhead limit p.entries).2.map (·.ref)).Nodup := by
  have whole := (pick_perm overhead limit p.entries).map (·.ref)
  rw [List.map_append] at whole
  exact whole.nodup_iff.mpr (List.nodup_append.mp (settled_nodup settled)).1

theorem pick_mem (overhead limit : Int) {es : List Entry} {e : Entry} :
    e ∈ es ↔ e ∈ (pick overhead limit es).1 ∨ e ∈ (pick overhead limit es).2 := by
  rw [← List.mem_append]
  exact (pick_perm overhead limit es).mem_iff.symm

theorem counted_get (settled : Settled p) (counted : Counted limit p) (overhead space : Int) :
    Counted limit (get p overhead space limit).1 := by
  have apart := pick_refs settled overhead space
  have queued : ∀ e, e ∈ p.entries ↔ _ := fun e => pick_mem overhead space
  generalize pickedEq : pick overhead space p.entries = picked at apart queued
  obtain ⟨once,-,disjoint⟩ := List.nodup_append.mp apart
  have log : (get p overhead space limit).1.returned = p.returned ++ picked.1.map (·.ref) := by simp only [get,pickedEq]
  -- An entry that is taken is logged once more, any other entry is not.
  have sent : ∀ e ∈ picked.1, (p.returned ++ picked.1.map (·.ref)).count e.ref = e.transmits + 1 := by
    intro e member
    rw [List.count_append,List.count_eq_one_of_mem once (List.mem_map_of_mem member),
      (counted.live e ((queued e).mpr (.inl member))).1]
  have unsent : ∀ r, r ∉ picked.1.map (·.ref) → (p.returned ++ picked.1.map (·.ref)).count r = p.returned.count r := by
    intro r absent
    rw [List.count_append,List.count_eq_zero_of_not_mem absent,Nat.add_zero]
  constructor
  · intro e member
    rw [log]
    have listed : e ∈ ((picked.1.filter (fun e => !final limit e)).map Entry.bump) ++ picked.2 := by
      rw [← (foldl_insert_perm ..).mem_iff]
      simpa only [get,pickedEq] using member
    rcases List.mem_append.mp listed with again | stays
    · obtain ⟨old,kept,rfl⟩ := List.mem_map.mp again
      obtain ⟨taken,more⟩ := List.mem_filter.mp kept
      refine ⟨sent old taken,?_⟩
      simp only [final,Bool.not_eq_true',decide_eq_false_iff_not,not_le] at more
      simp only [Entry.bump,Nat.cast_add,Nat.cast_one]
      omega
    · rw [unsent e.ref (fun taken => disjoint _ taken _ (List.mem_map_of_mem stays) rfl)]
      exact counted.live e ((queued e).mpr (.inr stays))
  · intro f member
    rw [log]
    have listed : f ∈ p.finished ++ ends .transmitLimit (picked.1.filter (final limit)) := by
      simpa only [get,pickedEq] using member
    rcases List.mem_append.mp listed with old | new
    · have absent : f.1 ∉ picked.1.map (·.ref) := by
        intro taken
        obtain ⟨e,member,same⟩ := List.mem_map.mp taken
        exact settled_apart settled ((queued e).mpr (.inl member)) old same
      rw [unsent f.1 absent]
      exact counted.done f old
    · obtain ⟨e,ended,rfl⟩ := List.mem_map.mp new
      obtain ⟨taken,last⟩ := List.mem_filter.mp ended
      have below := (counted.live e ((queued e).mpr (.inl taken))).2
      simp only [final,decide_eq_true_eq] at last
      have limited : ((e.transmits + 1 : Nat) : Int) = max 1 limit := by
        push_cast
        omega
      rw [sent e taken,limited]
      exact ⟨Int.le_refl _,fun _ => rfl⟩
  · intro r unknown
    rw [log,unsent r]
    · exact counted.fresh r unknown
    · intro taken
      obtain ⟨e,member,rfl⟩ := List.mem_map.mp taken
      have known := settled_entry settled ((queued e).mpr (.inl member))
      exact absurd unknown (Nat.not_le.mpr known)

/-- The operation fills packets at the given transmit limit, if it does. -/
def At (limit : Int) : Op → Prop
  | .getBroadcasts _ _ transmitLimit => transmitLimit = limit
  | _ => True

theorem counted_step (settled : Settled p) (counted : Counted limit p) {op : Op} (fixed : At limit op) :
    Counted limit (step p op).1 := by
  cases op with
  | queueBroadcast b invalidates => exact counted_queue counted b invalidates
  | getBroadcasts overhead space transmitLimit =>
    cases fixed
    exact counted_get settled counted overhead space
  | prune maxRetain =>
    exact counted_drop counted rfl rfl (fun e member => List.mem_of_mem_take member) (by decide)
      (fun e member => List.mem_of_mem_drop (List.mem_reverse.mp member)) rfl
  | reset => exact counted_drop counted rfl rfl (fun e member => by cases member) (by decide) (fun e member => member) rfl

end

theorem settled_empty : Settled {} := List.Perm.refl []

theorem counted_empty (limit : Int) : Counted limit {} where
  live e member := by cases member
  done f member := by cases member
  fresh r _ := rfl

end Mori.PlainQueue
