import Mori.Machines
import Mathlib.Data.List.Nodup

/-!
The acquisition of nodeLock that a context bounds (`lockNodes`): a caller that does not
get the lock at once queues a channel, and one helper goroutine waits for the lock on
behalf of all queued callers and hands it to the oldest. Any number of callers, of
plain users of the lock and of helpers take steps in any order. The mutex only knows
whether it is locked; who owns it is read off where the parties are in their code.
-/
namespace Mori.LockQueue
open Mori.Machines Function
set_option linter.unusedSimpArgs false

/-- Where a call of `lockNodes` is. -/
inductive Call where
  | idle
  /-- In `nodeLock.Lock`, its context having no end. -/
  | locking
  /-- Before `TryLock`. -/
  | trying
  /-- Before its channel is appended to the waiters. -/
  | joining
  /-- Before it starts the helper. -/
  | spawning
  /-- In the select. -/
  | waiting
  /-- Its context is done; before it deregisters. -/
  | leaving
  /-- It was no longer among the waiters; before it receives the token. -/
  | draining
  /-- It received the token; before it releases the lock. -/
  | releasing
  /-- It returned nil, and has not unlocked yet. -/
  | acquired
  /-- It returned nil, and its caller unlocked since. -/
  | unlocked
  /-- It returned an error. -/
  | failed
deriving DecidableEq,Repr

/-- Where a plain user of the lock is. -/
inductive User where
  | idle
  | locking
  | holding
deriving DecidableEq,Repr

/-- Where the helper that a call started is. -/
inductive Helper where
  | absent
  /-- The call has set parked for it, and not started it yet. -/
  | pending
  /-- In `nodeLock.Lock`. -/
  | locking
  /-- It has the lock; before it looks at the queue. -/
  | holding
  /-- It found the queue empty and cleared parked; before it unlocks. -/
  | unlocking
  | exited
deriving DecidableEq,Repr

structure State where
  /-- The mutex: whether it is write-locked, and its readers. -/
  locked : Bool
  readers : Nat
  ctxDone : Nat → Bool
  call : Nat → Call
  user : Nat → User
  helper : Nat → Helper
  /-- Whether the channel of a call holds a token. -/
  ready : Nat → Bool
  waiters : List Nat
  parked : Bool

def initial : State where
  locked := false
  readers := 0
  ctxDone _ := false
  call _ := .idle
  user _ := .idle
  helper _ := .absent
  ready _ := false
  waiters := []
  parked := false

inductive Act where
  | cancel (i : Nat)
  | enter (i : Nat) (background : Bool)
  | lock (i : Nat)
  | tryLock (i : Nat) (taken : Bool)
  | enqueue (i : Nat)
  | spawn (i : Nat)
  | receive (i : Nat)
  | giveUp (i : Nat)
  | deregister (i : Nat)
  | drain (i : Nat)
  | release (i : Nat)
  | unlock (i : Nat)
  | userEnter (p : Nat)
  | userLock (p : Nat)
  | userUnlock (p : Nat)
  | helperLock (h : Nat)
  | helperTurn (h : Nat)
  | helperUnlock (h : Nat)
  | rLock
  | rUnlock
deriving DecidableEq,Repr

/-- Neither a writer nor a reader has the lock. -/
def State.free (s : State) : Prop := s.locked = false ∧ s.readers = 0

instance (s : State) : Decidable s.free := inferInstanceAs (Decidable (_ ∧ _))

def State.at (s : State) (i : Nat) (c : Call) : State := { s with call := update s.call i c }

/-- The helper's look at the queue, under the queue's mutex. -/
def lockNodesHelper (s : State) (h : Nat) : State :=
  match s.waiters with
  | [] => { s with parked := false, helper := update s.helper h .unlocking }
  | w :: rest =>
    let s := { s with waiters := rest, ready := update s.ready w true }
    if rest = [] then { s with parked := false, helper := update s.helper h .exited }
    else { s with helper := update s.helper h .locking }

def step (s : State) : Act → State
  | .cancel i => { s with ctxDone := update s.ctxDone i true }
  | .enter i background =>
    if s.call i = .idle then
      if background then s.at i .locking else if s.ctxDone i then s.at i .failed else s.at i .trying
    else s
  | .lock i => if s.call i = .locking ∧ s.free then { s.at i .acquired with locked := true } else s
  -- An attempt may fail although nobody has the lock.
  | .tryLock i taken =>
    if s.call i = .trying then
      if taken then if s.free then { s.at i .acquired with locked := true } else s
      else s.at i .joining
    else s
  | .enqueue i =>
    if s.call i = .joining then
      let s' := { s with waiters := s.waiters ++ [i], parked := true }
      if s.parked then s'.at i .waiting else { s'.at i .spawning with helper := update s.helper i .pending }
    else s
  | .spawn i =>
    if s.call i = .spawning then { s.at i .waiting with helper := update s.helper i .locking } else s
  | .receive i =>
    if s.call i = .waiting ∧ s.ready i = true then { s.at i .acquired with ready := update s.ready i false } else s
  | .giveUp i => if s.call i = .waiting ∧ s.ctxDone i = true then s.at i .leaving else s
  | .deregister i =>
    if s.call i = .leaving then
      if i ∈ s.waiters then { s.at i .failed with waiters := s.waiters.erase i } else s.at i .draining
    else s
  | .drain i =>
    if s.call i = .draining ∧ s.ready i = true then { s.at i .releasing with ready := update s.ready i false } else s
  | .release i => if s.call i = .releasing then { s.at i .failed with locked := false } else s
  | .unlock i => if s.call i = .acquired then { s.at i .unlocked with locked := false } else s
  | .userEnter p => if s.user p = .idle then { s with user := update s.user p .locking } else s
  | .userLock p =>
    if s.user p = .locking ∧ s.free then { s with user := update s.user p .holding, locked := true } else s
  | .userUnlock p =>
    if s.user p = .holding then { s with user := update s.user p .idle, locked := false } else s
  | .helperLock h =>
    if s.helper h = .locking ∧ s.free then { s with helper := update s.helper h .holding, locked := true } else s
  | .helperTurn h => if s.helper h = .holding then lockNodesHelper s h else s
  | .helperUnlock h =>
    if s.helper h = .unlocking then { s with helper := update s.helper h .exited, locked := false } else s
  | .rLock => if s.locked = false then { s with readers := s.readers + 1 } else s
  | .rUnlock => { s with readers := s.readers - 1 }

inductive Party where
  | call (i : Nat)
  | user (p : Nat)
  | helper (h : Nat)
deriving DecidableEq,Repr

/-- A caller has the lock from the moment the token is in its channel. -/
def OwnsCall (c : Call) (ready : Bool) : Prop := c = .acquired ∨ c = .releasing ∨ ready = true

def OwnsHelper (h : Helper) : Prop := h = .holding ∨ h = .unlocking

/-- The party has the lock and is the one to release it. -/
def Owns (s : State) : Party → Prop
  | .call i => OwnsCall (s.call i) (s.ready i)
  | .user p => s.user p = .holding
  | .helper h => OwnsHelper (s.helper h)

/-- A helper from the moment parked is set for it until it clears parked. -/
def Active (s : State) (h : Nat) : Prop := s.helper h = .pending ∨ s.helper h = .locking ∨ s.helper h = .holding

/-- Whether the channel of a call is queued and whether it holds a token, by where the
    call is: one that waits is in the queue until it has its token. -/
def Place : Call → Bool → Bool → Prop
  | .spawning,queued,ready => queued = true ∧ ready = false
  | .waiting,queued,ready => queued = !ready
  | .leaving,queued,ready => queued = !ready
  | .draining,queued,ready => queued = false ∧ ready = true
  | _,queued,ready => queued = false ∧ ready = false

/-- A call has set parked for a helper and not started it, or has not come that far. -/
def Spawned (c : Call) (h : Helper) : Prop :=
  (c = .spawning ↔ h = .pending) ∧ (c = .idle ∨ c = .trying ∨ c = .joining → h = .absent)

structure Inv (s : State) : Prop where
  owners : Held s.locked (Owns s)
  helpers : Held s.parked (Active s)
  place : ∀ i, Place (s.call i) (decide (i ∈ s.waiters)) (s.ready i)
  spawned : ∀ i, Spawned (s.call i) (s.helper i)
  nodup : s.waiters.Nodup
  served : s.waiters ≠ [] → s.parked = true

theorem inv_initial : Inv initial where
  owners := by
    refine ⟨?_,?_⟩
    · rintro (i | i | i) q owns
      · simp [Owns,OwnsCall,initial] at owns
      · simp [Owns,initial] at owns
      · simp [Owns,OwnsHelper,initial] at owns
    · constructor
      · intro locked
        cases locked
      · rintro ⟨i | i | i,owns⟩
        · simp [Owns,OwnsCall,initial] at owns
        · simp [Owns,initial] at owns
        · simp [Owns,OwnsHelper,initial] at owns
  helpers := by constructor <;> simp [Active,initial]
  place _ := ⟨rfl,rfl⟩
  spawned _ := by simp [Spawned,initial]
  nodup := .nil
  served empty := absurd rfl empty

/-- A step of call `i`: where the call is then, whether its channel is queued and holds a
    token, and where its helper is. Everybody else stays where they are. -/
structure ByCall (s s' : State) (i : Nat) (c : Call) (queued ready : Bool) (h : Helper) : Prop where
  call : s'.call = update s.call i c
  ready : s'.ready = update s.ready i ready
  waiters : ∀ j, decide (j ∈ s'.waiters) = if j = i then queued else decide (j ∈ s.waiters)
  helper : s'.helper = update s.helper i h
  user : s'.user = s.user
  owns : OwnsHelper h ↔ OwnsHelper (s.helper i)

theorem aside_active (s : State) (h : Nat) (k : Helper) : Aside h (Active s) (Active { s with helper := update s.helper h k }) := by
  intro g other
  simp only [Active,update_of_ne other]

section
variable {s s' : State} {i : Nat} {c : Call} {queued ready : Bool} {h : Helper}

theorem ByCall.owns_self (move : ByCall s s' i c queued ready h) : Owns s' (.call i) ↔ OwnsCall c ready := by
  simp only [Owns,move.call,move.ready,update_self]

theorem ByCall.aside (move : ByCall s s' i c queued ready h) : Aside (.call i) (Owns s) (Owns s') := by
  intro p different
  cases p with
  | call j =>
    have other : j ≠ i := fun same => different (same ▸ rfl)
    simp only [Owns,move.call,move.ready,update_of_ne other]
  | user p => simp only [Owns,move.user]
  | helper j =>
    by_cases same : j = i
    · simp only [Owns,move.helper,same,update_self]
      exact move.owns
    · simp only [Owns,move.helper,update_of_ne same]

theorem ByCall.place (move : ByCall s s' i c queued ready h) (inv : Inv s) (here : Place c queued ready) (j : Nat) :
    Place (s'.call j) (decide (j ∈ s'.waiters)) (s'.ready j) := by
  rw [move.call,move.ready,move.waiters j]
  by_cases same : j = i
  · rw [same,update_self,update_self,if_pos rfl]
    exact here
  · rw [update_of_ne same,update_of_ne same,if_neg same]
    exact inv.place j

theorem ByCall.spawned (move : ByCall s s' i c queued ready h) (inv : Inv s) (here : Spawned c h) (j : Nat) :
    Spawned (s'.call j) (s'.helper j) := by
  rw [move.call,move.helper]
  by_cases same : j = i
  · rw [same,update_self,update_self]
    exact here
  · rw [update_of_ne same,update_of_ne same]
    exact inv.spawned j

/-- The call neither gets nor gives up the lock. -/
theorem ByCall.owners_same (move : ByCall s s' i c queued ready h) (inv : Inv s)
    (here : OwnsCall c ready ↔ OwnsCall (s.call i) (s.ready i)) : Held s.locked (Owns s') :=
  held_same inv.owners move.aside (move.owns_self.trans here)

theorem ByCall.owners_take (move : ByCall s s' i c queued ready h) (inv : Inv s) (free : s.locked = false)
    (now : OwnsCall c ready) : Held true (Owns s') :=
  held_take (free ▸ inv.owners) move.aside (move.owns_self.mpr now)

theorem ByCall.owners_release (move : ByCall s s' i c queued ready h) (inv : Inv s)
    (had : OwnsCall (s.call i) (s.ready i)) (gone : ¬ OwnsCall c ready) : Held false (Owns s') :=
  held_release inv.owners move.aside had (fun owns => gone (move.owns_self.mp owns))

theorem byCall_at (s : State) (i : Nat) (c : Call) :
    ByCall s (s.at i c) i c (decide (i ∈ s.waiters)) (s.ready i) (s.helper i) where
  call := rfl
  ready := (update_eq_self i s.ready).symm
  waiters j := by
    by_cases same : j = i
    · rw [if_pos same,same]
      rfl
    · rw [if_neg same]
      rfl
  helper := (update_eq_self i s.helper).symm
  user := rfl
  owns := .rfl

/-- A call that has not queued its channel, or is done with it. -/
def Outside (c : Call) : Prop :=
  c = .idle ∨ c = .locking ∨ c = .trying ∨ c = .joining ∨ c = .acquired ∨ c = .releasing ∨ c = .unlocked ∨ c = .failed

/-- Before its channel is queued. -/
def Early (c : Call) : Prop := c = .idle ∨ c = .trying ∨ c = .joining

instance : DecidablePred Outside := fun _ => inferInstanceAs (Decidable (_ ∨ _))
instance : DecidablePred Early := fun _ => inferInstanceAs (Decidable (_ ∨ _))

theorem place_of_outside (outside : Outside c) : Place c queued ready ↔ queued = false ∧ ready = false := by
  rcases outside with rfl | rfl | rfl | rfl | rfl | rfl | rfl | rfl <;> rfl

theorem spawned_of_late {c' : Call} (spawned : Spawned c h) (before : c ≠ .spawning) (after : c' ≠ .spawning)
    (early : Early c' → Early c) : Spawned c' h := by
  refine ⟨⟨fun same => absurd same after,fun pending => absurd (spawned.1.mpr pending) before⟩,?_⟩
  intro first
  exact spawned.2 (early first)

theorem ne_spawning_of_outside (outside : Outside c) : c ≠ .spawning := by
  rintro rfl
  revert outside
  decide

/-- A call moves on outside the queue, and the lock is what it has made it. -/
theorem inv_outside (locked : Bool) (inv : Inv s) (before : Outside (s.call i)) (after : Outside c)
    (early : Early c → Early (s.call i))
    (owners : ByCall s { s.at i c with locked := locked } i c false false (s.helper i) →
      Held locked (Owns { s.at i c with locked := locked })) : Inv { s.at i c with locked := locked } := by
  obtain ⟨queued,ready⟩ := (place_of_outside before).mp (inv.place i)
  have move : ByCall s { s.at i c with locked := locked } i c false false (s.helper i) := by
    have only := byCall_at s i c
    rw [queued,ready] at only
    exact { only with }
  exact { inv with
    owners := owners move
    place := move.place inv ((place_of_outside after).mpr ⟨rfl,rfl⟩)
    spawned := move.spawned inv (spawned_of_late (inv.spawned i) (ne_spawning_of_outside before)
      (ne_spawning_of_outside after) early) }

theorem inv_move (inv : Inv s) (before : Outside (s.call i)) (after : Outside c) (early : Early c → Early (s.call i))
    (here : OwnsCall c false ↔ OwnsCall (s.call i) false) : Inv (s.at i c) := by
  have ready := ((place_of_outside before).mp (inv.place i)).2
  exact inv_outside s.locked inv before after early (fun move => move.owners_same inv (by rwa [ready]))

theorem inv_take (inv : Inv s) (before : Outside (s.call i)) (free : s.locked = false) :
    Inv { s.at i .acquired with locked := true } :=
  inv_outside _ inv before (by decide) (by simp [Early]) (fun move => move.owners_take inv free (.inl rfl))

theorem inv_drop (inv : Inv s) (before : s.call i = .acquired ∨ s.call i = .releasing)
    (after : c = .unlocked ∨ c = .failed) : Inv { s.at i c with locked := false } := by
  have outside : Outside (s.call i) := by
    rcases before with same | same <;> rw [same] <;> decide
  have had : OwnsCall (s.call i) (s.ready i) := before.imp_right .inl
  rcases after with rfl | rfl
  · exact inv_outside _ inv outside (by decide) (by simp [Early]) (fun move => move.owners_release inv had (by simp [OwnsCall]))
  · exact inv_outside _ inv outside (by decide) (by simp [Early]) (fun move => move.owners_release inv had (by simp [OwnsCall]))

/-- A call whose context is done leaves the select, and then the queue. -/
theorem inv_leaving (inv : Inv s) (before : s.call i = .waiting ∨ s.call i = .leaving)
    (after : c = .leaving ∨ c = .draining) (place : Place c (decide (i ∈ s.waiters)) (s.ready i)) : Inv (s.at i c) :=
  { inv with
    owners := by
      refine (byCall_at s i c).owners_same inv ?_
      rcases before with same | same <;> rcases after with rfl | rfl <;> simp [OwnsCall,same]
    place := (byCall_at s i c).place inv place
    spawned := by
      refine (byCall_at s i c).spawned inv (spawned_of_late (inv.spawned i) ?_ ?_ ?_)
      · rcases before with same | same <;> rw [same] <;> decide
      · rcases after with rfl | rfl <;> decide
      · rcases after with rfl | rfl <;> simp [Early] }

theorem inv_receive (inv : Inv s) (before : s.call i = .waiting ∨ s.call i = .draining) (token : s.ready i = true)
    (after : c = .acquired ∨ c = .releasing) : Inv { s.at i c with ready := update s.ready i false } := by
  have queued : decide (i ∈ s.waiters) = false := by
    have place := inv.place i
    rcases before with same | same <;> rw [same,token] at place
    · exact place
    · exact place.1
  have only := byCall_at s i c
  rw [queued] at only
  have move : ByCall s { s.at i c with ready := update s.ready i false } i c false false (s.helper i) :=
    { only with ready := rfl }
  exact { inv with
    owners := move.owners_same inv (iff_of_true (after.imp_right .inl) (.inr (.inr token)))
    place := move.place inv (by rcases after with rfl | rfl <;> exact ⟨rfl,rfl⟩)
    spawned := by
      refine move.spawned inv (spawned_of_late (inv.spawned i) ?_ ?_ ?_)
      · rcases before with same | same <;> rw [same] <;> decide
      · rcases after with rfl | rfl <;> decide
      · rcases after with rfl | rfl <;> simp [Early] }

theorem inv_deregister (inv : Inv s) (before : s.call i = .leaving) (queued : i ∈ s.waiters) :
    Inv { s.at i .failed with waiters := s.waiters.erase i } := by
  have place := inv.place i
  have token : s.ready i = false := by
    rw [before] at place
    simpa [Place,queued] using place
  have move : ByCall s { s.at i .failed with waiters := s.waiters.erase i } i .failed false false (s.helper i) := {
    byCall_at s i .failed with
    ready := by rw [← token]; exact (update_eq_self i s.ready).symm
    waiters := by
      intro j
      simp only [inv.nodup.mem_erase_iff]
      by_cases same : j = i <;> simp [same] }
  exact {
    owners := move.owners_same inv (by simp [OwnsCall,before,token])
    helpers := inv.helpers
    place := move.place inv ⟨rfl,rfl⟩
    spawned := move.spawned inv (spawned_of_late (inv.spawned i) (by simp [before]) (by decide) (by simp [Early]))
    nodup := inv.nodup.erase i
    served := fun _ => inv.served (List.ne_nil_of_mem queued) }

/-- A call queues its channel, and sets parked for its helper if nobody has. -/
theorem byCall_enqueue (inv : Inv s) (before : s.call i = .joining) (owns : OwnsHelper h ↔ OwnsHelper (s.helper i)) :
    ByCall s { s.at i c with waiters := s.waiters ++ [i], parked := true, helper := update s.helper i h }
      i c true false h := by
  have place := inv.place i
  rw [before] at place
  exact {
    byCall_at s i c with
    ready := by rw [← place.2]; exact (update_eq_self i s.ready).symm
    waiters := by
      intro j
      by_cases same : j = i <;> simp [same]
    helper := rfl
    owns := owns }

theorem inv_enqueue (inv : Inv s) (before : s.call i = .joining) (spawned : Spawned c h)
    (place : Place c true false) (owns : OwnsHelper h ↔ OwnsHelper (s.helper i)) (free : ¬ OwnsCall c false)
    (helpers : Held true (fun g => Active { s with helper := update s.helper i h } g)) :
    Inv { s.at i c with waiters := s.waiters ++ [i], parked := true, helper := update s.helper i h } := by
  have outside := inv.place i
  rw [before] at outside
  have move := byCall_enqueue (c := c) inv before owns
  exact {
    owners := move.owners_same inv (by rw [outside.2,before]; exact iff_of_false free (by simp [OwnsCall]))
    helpers := helpers
    place := move.place inv place
    spawned := move.spawned inv spawned
    nodup := by
      refine inv.nodup.append (List.nodup_singleton i) ?_
      simpa using of_decide_eq_false outside.1
    served := fun _ => rfl }

theorem inv_enqueue_waiting (inv : Inv s) (before : s.call i = .joining) (parked : s.parked = true) :
    Inv { s.at i .waiting with waiters := s.waiters ++ [i], parked := true } := by
  have spawned : Spawned .waiting (s.helper i) :=
    spawned_of_late (inv.spawned i) (by simp [before]) (by decide) (by simp [Early])
  have helpers : Held true (fun g => Active { s with helper := update s.helper i (s.helper i) } g) := by
    rw [update_eq_self,← parked]
    exact inv.helpers
  have result := inv_enqueue inv before spawned rfl .rfl (by simp [OwnsCall]) helpers
  rwa [update_eq_self] at result

theorem inv_enqueue_spawning (inv : Inv s) (before : s.call i = .joining) (parked : s.parked = false) :
    Inv { s.at i .spawning with waiters := s.waiters ++ [i], parked := true, helper := update s.helper i .pending } := by
  have absent : s.helper i = .absent := (inv.spawned i).2 (by simp [before])
  have helpers : Held true (fun g => Active { s with helper := update s.helper i .pending } g) := by
    exact held_take (parked ▸ inv.helpers) (aside_active s i .pending) (.inl (update_self i _ _))
  refine inv_enqueue inv before ?_ ⟨rfl,rfl⟩ ?_ (by simp [OwnsCall]) helpers
  · simp [Spawned]
  · simp [OwnsHelper,absent]

theorem inv_spawn (inv : Inv s) (before : s.call i = .spawning) :
    Inv { s.at i .waiting with helper := update s.helper i .locking } := by
  have place := inv.place i
  rw [before] at place
  have pending : s.helper i = .pending := (inv.spawned i).1.mp before
  have only := byCall_at s i .waiting
  rw [place.1,place.2] at only
  have move : ByCall s { s.at i .waiting with helper := update s.helper i .locking } i .waiting true false .locking :=
    { only with helper := rfl, owns := by simp [OwnsHelper,pending] }
  exact { inv with
    owners := move.owners_same inv (by simp [OwnsCall,before,place.2])
    helpers := held_same inv.helpers (aside_active s i .locking) (by simp [Active,pending])
    place := move.place inv rfl
    spawned := move.spawned inv (by simp [Spawned]) }

end

section
variable {s : State} {p : Nat}

theorem aside_user (s : State) (p : Nat) (u : User) (locked : Bool) :
    Aside (.user p) (Owns s) (Owns { s with user := update s.user p u, locked := locked }) := by
  intro q different
  cases q with
  | user r =>
    have other : r ≠ p := fun same => different (same ▸ rfl)
    simp only [Owns,update_of_ne other]
  | call i => rfl
  | helper h => rfl

theorem inv_userEnter (inv : Inv s) (idle : s.user p = .idle) : Inv { s with user := update s.user p .locking } :=
  { inv with
    owners := held_same inv.owners (aside_user s p .locking s.locked) (by simp [Owns,idle]) }

theorem inv_userLock (inv : Inv s) (free : s.locked = false) :
    Inv { s with user := update s.user p .holding, locked := true } :=
  { inv with
    owners := held_take (free ▸ inv.owners) (aside_user s p .holding true) (update_self p _ _) }

theorem inv_userUnlock (inv : Inv s) (holding : s.user p = .holding) :
    Inv { s with user := update s.user p .idle, locked := false } :=
  { inv with
    owners := held_release inv.owners (aside_user s p .idle false) holding (by simp [Owns]) }

end

section
variable {s : State} {h : Nat}

theorem aside_helper (s : State) (h : Nat) (k : Helper) (locked parked : Bool) :
    Aside (.helper h) (Owns s) (Owns { s with helper := update s.helper h k, locked := locked, parked := parked }) := by
  intro q different
  cases q with
  | helper g =>
    have other : g ≠ h := fun same => different (same ▸ rfl)
    simp only [Owns,update_of_ne other]
  | call i => rfl
  | user p => rfl

/-- A helper that stays active, or inactive. -/
theorem helpers_same {k : Helper} (inv : Inv s) (same : Active { s with helper := update s.helper h k } h ↔ Active s h) :
    Held s.parked (Active { s with helper := update s.helper h k }) :=
  held_same inv.helpers (aside_active s h k) same

theorem spawned_helper {s : State} {k : Helper} (inv : Inv s) (before : s.helper h ≠ .pending ∧ s.helper h ≠ .absent)
    (after : k ≠ .pending) (i : Nat) : Spawned (s.call i) (update s.helper h k i) := by
  by_cases same : i = h
  · subst same
    rw [update_self]
    have spawned := inv.spawned i
    refine ⟨⟨fun wrong => absurd (spawned.1.mp wrong) before.1,fun wrong => absurd wrong after⟩,?_⟩
    intro early
    exact absurd (spawned.2 early) before.2
  · rw [update_of_ne same]
    exact inv.spawned i

theorem inv_helperLock (inv : Inv s) (before : s.helper h = .locking) (free : s.locked = false) :
    Inv { s with helper := update s.helper h .holding, locked := true } :=
  { inv with
    owners := held_take (free ▸ inv.owners) (aside_helper s h .holding true s.parked) (.inl (update_self h _ _))
    helpers := helpers_same inv (by simp [Active,before])
    spawned := spawned_helper inv (by simp [before]) (by decide) }

theorem inv_helperUnlock (inv : Inv s) (before : s.helper h = .unlocking) :
    Inv { s with helper := update s.helper h .exited, locked := false } :=
  { inv with
    owners := held_release inv.owners (aside_helper s h .exited false s.parked) (.inr before) (by simp [Owns,OwnsHelper])
    helpers := helpers_same inv (by simp [Active,before])
    spawned := spawned_helper inv (by simp [before]) (by decide) }

theorem helpers_clear (inv : Inv s) (before : s.helper h = .holding) {k : Helper}
    (after : k = .unlocking ∨ k = .exited) : Held false (Active { s with helper := update s.helper h k }) := by
  refine held_release inv.helpers (aside_active s h k) (.inr (.inr before)) ?_
  rcases after with rfl | rfl <;> simp [Active]

/-- The lock passes from the helper to the caller whose channel is first. -/
theorem owners_handoff {s' : State} {w : Nat} {k : Helper} (inv : Inv s) (before : s.helper h = .holding)
    (after : ¬ OwnsHelper k) (helper : s'.helper = update s.helper h k) (call : s'.call = s.call)
    (ready : s'.ready = update s.ready w true) (user : s'.user = s.user) : Held s.locked (Owns s') := by
  refine held_pass (p := .helper h) (q := .call w) inv.owners (.inl before) ?_ (fun q owns => ?_)
  · simp [Owns,OwnsCall,ready]
  · cases q with
    | call i =>
      by_cases same : i = w
      · exact .inl (same ▸ rfl)
      · simp only [Owns,call,ready,update_of_ne same] at owns
        exact .inr ⟨by simp,owns⟩
    | user p => exact .inr ⟨by simp,by simpa only [Owns,user] using owns⟩
    | helper g =>
      by_cases same : g = h
      · simp only [Owns,helper,same,update_self] at owns
        exact absurd owns after
      · simp only [Owns,helper,update_of_ne same] at owns
        exact .inr ⟨by simpa using same,owns⟩

/-- A queued call has started its helper once any helper has the lock. -/
theorem started {w : Nat} (inv : Inv s) (before : s.helper h = .holding) : s.call w ≠ .spawning := by
  intro spawning
  have pending := (inv.spawned w).1.mp spawning
  have same := inv.helpers.single w h (.inl pending) (.inr (.inr before))
  rw [same,before] at pending
  cases pending

/-- The channel that is handed the lock leaves the queue. -/
theorem place_handoff {w : Nat} {rest : List Nat} (inv : Inv s) (before : s.helper h = .holding)
    (first : s.waiters = w :: rest) (i : Nat) : Place (s.call i) (decide (i ∈ rest)) (update s.ready w true i) := by
  have place := inv.place i
  have nodup := inv.nodup
  rw [first] at place nodup
  by_cases same : i = w
  · subst same
    rw [decide_eq_true List.mem_cons_self] at place
    rw [decide_eq_false (List.nodup_cons.mp nodup).1,update_self]
    have late := started (w := i) inv before
    cases stage : s.call i <;> rw [stage] at place late <;> simp [Place] at place late ⊢
  · rw [update_of_ne same]
    simpa [same] using place

theorem inv_turn_empty (inv : Inv s) (before : s.helper h = .holding) (empty : s.waiters = []) :
    Inv { s with parked := false, helper := update s.helper h .unlocking } :=
  { inv with
    owners := held_same inv.owners (aside_helper s h .unlocking s.locked false) (by simp [Owns,OwnsHelper,before])
    helpers := helpers_clear inv before (.inl rfl)
    spawned := spawned_helper inv (by simp [before]) (by decide)
    served some := absurd empty some }

section
variable {w : Nat} {rest : List Nat}

theorem inv_turn_last (inv : Inv s) (before : s.helper h = .holding) (first : s.waiters = [w]) :
    Inv { s with waiters := [], ready := update s.ready w true, parked := false, helper := update s.helper h .exited } where
  owners := owners_handoff (s := s) (k := .exited) inv before (by simp [OwnsHelper]) rfl rfl rfl rfl
  helpers := helpers_clear inv before (.inr rfl)
  place := place_handoff inv before first
  spawned := spawned_helper inv (by simp [before]) (by decide)
  nodup := .nil
  served some := absurd rfl some

theorem inv_turn_more (inv : Inv s) (before : s.helper h = .holding) (first : s.waiters = w :: rest) :
    Inv { s with waiters := rest, ready := update s.ready w true, helper := update s.helper h .locking } where
  owners := owners_handoff (s := s) (k := .locking) inv before (by simp [OwnsHelper]) rfl rfl rfl rfl
  helpers := helpers_same inv (by simp [Active,before])
  place := place_handoff inv before first
  spawned := spawned_helper inv (by simp [before]) (by decide)
  nodup := by
    have nodup := inv.nodup
    rw [first] at nodup
    exact (List.nodup_cons.mp nodup).2
  served _ := inv.served (by simp [first])

end

theorem inv_helperTurn (inv : Inv s) (before : s.helper h = .holding) : Inv (lockNodesHelper s h) := by
  unfold lockNodesHelper
  split
  · next empty => exact inv_turn_empty inv before empty
  · next w rest first =>
    by_cases last : rest = []
    · subst last
      exact inv_turn_last inv before first
    · simp only [last,if_false]
      exact inv_turn_more inv before first

end

/-! ## Every run -/

theorem inv_step {s : State} (inv : Inv s) (a : Act) : Inv (step s a) := by
  cases a with
  | cancel i => exact { inv with }
  | rLock =>
    simp only [step]
    split_ifs
    · exact { inv with }
    · exact inv
  | rUnlock => exact { inv with }
  | enter i background =>
    simp only [step]
    split_ifs with idle endless done
    · exact inv_move inv (by simp [idle,Outside]) (by decide) (by simp [Early]) (by simp [OwnsCall,idle])
    · exact inv_move inv (by simp [idle,Outside]) (by decide) (by simp [Early]) (by simp [OwnsCall,idle])
    · exact inv_move inv (by simp [idle,Outside]) (by decide) (by simp [Early,idle]) (by simp [OwnsCall,idle])
    · exact inv
  | lock i =>
    simp only [step]
    split_ifs with ready
    · exact inv_take inv (by simp [ready.1,Outside]) ready.2.1
    · exact inv
  | tryLock i taken =>
    simp only [step]
    split_ifs with trying taken free
    · exact inv_take inv (by simp [trying,Outside]) free.1
    · exact inv
    · exact inv_move inv (by simp [trying,Outside]) (by decide) (by simp [Early,trying]) (by simp [OwnsCall,trying])
    · exact inv
  | enqueue i =>
    simp only [step]
    split_ifs with joining parked
    · exact inv_enqueue_waiting inv joining parked
    · exact inv_enqueue_spawning inv joining (Bool.not_eq_true _ ▸ parked)
    · exact inv
  | spawn i =>
    simp only [step]
    split_ifs with spawning
    · exact inv_spawn inv spawning
    · exact inv
  | receive i =>
    simp only [step]
    split_ifs with ready
    · exact inv_receive inv (.inl ready.1) ready.2 (.inl rfl)
    · exact inv
  | giveUp i =>
    simp only [step]
    split_ifs with done
    · have place := inv.place i
      rw [done.1] at place
      exact inv_leaving inv (.inl done.1) (.inl rfl) place
    · exact inv
  | deregister i =>
    simp only [step]
    split_ifs with leaving queued
    · exact inv_deregister inv leaving queued
    · have place := inv.place i
      rw [leaving] at place
      refine inv_leaving inv (.inr leaving) (.inr rfl) ?_
      simpa [Place,queued] using place
    · exact inv
  | drain i =>
    simp only [step]
    split_ifs with ready
    · exact inv_receive inv (.inr ready.1) ready.2 (.inr rfl)
    · exact inv
  | release i =>
    simp only [step]
    split_ifs with releasing
    · exact inv_drop inv (.inr releasing) (.inr rfl)
    · exact inv
  | unlock i =>
    simp only [step]
    split_ifs with acquired
    · exact inv_drop inv (.inl acquired) (.inl rfl)
    · exact inv
  | userEnter p =>
    simp only [step]
    split_ifs with idle
    · exact inv_userEnter inv idle
    · exact inv
  | userLock p =>
    simp only [step]
    split_ifs with ready
    · exact inv_userLock inv ready.2.1
    · exact inv
  | userUnlock p =>
    simp only [step]
    split_ifs with holding
    · exact inv_userUnlock inv holding
    · exact inv
  | helperLock h =>
    simp only [step]
    split_ifs with ready
    · exact inv_helperLock inv ready.1 ready.2.1
    · exact inv
  | helperTurn h =>
    simp only [step]
    split_ifs with holding
    · exact inv_helperTurn inv holding
    · exact inv
  | helperUnlock h =>
    simp only [step]
    split_ifs with unlocking
    · exact inv_helperUnlock inv unlocking
    · exact inv

theorem inv_run (acts : List Act) : Inv (run step initial acts) :=
  run_keeps (I := Inv) (fun _ a inv => inv_step inv a) inv_initial acts

theorem not_owns_of_done {s : State} (inv : Inv s) {i : Nat} (done : s.call i = .failed ∨ s.call i = .unlocked) :
    ¬ Owns s (.call i) ∧ i ∉ s.waiters := by
  have place := inv.place i
  rcases done with same | same <;> rw [same] at place
  · exact ⟨by simp [Owns,OwnsCall,same,place.2],of_decide_eq_false place.1⟩
  · exact ⟨by simp [Owns,OwnsCall,same,place.2],of_decide_eq_false place.1⟩

/-- A caller or plain user that has asked for the lock and not got it. -/
def Waits (s : State) : Party → Prop
  | .call i => s.call i = .locking ∨ s.call i = .trying ∨ s.call i = .joining ∨ s.call i = .spawning ∨
      s.call i = .waiting ∨ s.call i = .leaving ∨ s.call i = .draining
  | .user p => s.user p = .locking
  | .helper _ => False

theorem waits_of_queued {s : State} (inv : Inv s) {i : Nat} (queued : i ∈ s.waiters) : Waits s (.call i) := by
  have place := inv.place i
  rw [decide_eq_true queued] at place
  cases stage : s.call i <;> rw [stage] at place <;> simp [Place,Waits,stage] at place ⊢

/-- A helper that has the lock, with nobody in the queue, gives it back. -/
theorem helper_releases {s : State} {h : Nat} (owns : Owns s (.helper h)) (empty : s.waiters = []) :
    (run step s [.helperTurn h,.helperUnlock h]).locked = false := by
  rcases owns with holding | unlocking
  · simp [run,step,holding,lockNodesHelper,empty]
  · simp [run,step,unlocking]

/-- The hand-off neither loses nor duplicates the lock, in every interleaving: one party
    owns it at most, and one does exactly while the mutex is locked; a call that
    returned nil owns it until its caller unlocks, one that returned an error neither
    owns it nor is queued; there is one active helper at most, exactly while parked is
    set, and always while a channel is queued; and where no caller and no plain user
    owns the lock or waits for it, it is free, or the next steps of the helper that
    has it release it. -/
theorem lock_handed_once (acts : List Act) :
    let s := run step initial acts
    (∀ p q, Owns s p → Owns s q → p = q) ∧ (s.locked = true ↔ ∃ p, Owns s p) ∧
    (∀ i, (s.call i = .acquired → Owns s (.call i)) ∧
      (s.call i = .failed ∨ s.call i = .unlocked → ¬ Owns s (.call i) ∧ i ∉ s.waiters)) ∧
    (∀ g h, Active s g → Active s h → g = h) ∧ (s.parked = true ↔ ∃ h, Active s h) ∧
    (s.waiters ≠ [] → ∃ h, Active s h) ∧
    ((∀ p, (∀ h, p ≠ .helper h) → ¬ Owns s p ∧ ¬ Waits s p) →
      s.locked = false ∨ ∃ h, Owns s (.helper h) ∧ (run step s [.helperTurn h,.helperUnlock h]).locked = false) := by
  intro s
  have inv : Inv s := inv_run acts
  refine ⟨inv.owners.single,inv.owners.flag_iff,?_,inv.helpers.single,inv.helpers.flag_iff,?_,?_⟩
  · intro i
    exact ⟨.inl,not_owns_of_done inv⟩
  · intro some
    exact inv.helpers.flag_iff.mp (inv.served some)
  · intro nobody
    have empty : s.waiters = [] := by
      refine List.eq_nil_iff_forall_not_mem.mpr (fun i queued => ?_)
      exact (nobody (.call i) (by simp)).2 (waits_of_queued inv queued)
    by_cases locked : s.locked = true
    · obtain ⟨p,owns⟩ := inv.owners.flag_iff.mp locked
      cases p with
      | helper h => exact .inr ⟨h,owns,helper_releases owns empty⟩
      | call i => exact absurd owns (nobody (.call i) (by simp)).1
      | user p => exact absurd owns (nobody (.user p) (by simp)).1
    · exact .inl (Bool.not_eq_true _ ▸ locked)

/-- A caller whose context ends after the hand-off gives the lock back. -/
example :
    let s := run step initial [.userEnter 0,.userLock 0,.enter 1 false,.tryLock 1 false,.enqueue 1,.spawn 1,
      .userUnlock 0,.helperLock 1,.cancel 1,.giveUp 1,.helperTurn 1,.deregister 1,.drain 1]
    s.call 1 = .releasing ∧ s.locked = true ∧ (step s (.release 1)).call 1 = .failed ∧
      (step s (.release 1)).locked = false := by decide

end Mori.LockQueue
