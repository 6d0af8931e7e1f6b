import Mori.Delivery
import Mori.Moves

/-!
`Shutdown` against everything that takes nodeLock. The flag is set without the lock, so a
critical section that has looked at it may still commit afterwards. `finishShutdown`
joins the tracked goroutines, takes nodeLock, seals the event queue and clears the
timers: every section that passed its check has left by then, and every later one finds
the flag set. Only `resetNodes`, which tracked goroutines run, does not look at the flag.
-/
namespace Mori.Shutdown
open Mori.Net Mori.Protocol Mori.State Mori.Table Mori.Moves Mori.Machines Function
open Mori.Delivery (Event)

/-- Where a user of nodeLock is: a handler, an expiry callback, a call of
    `UpdateNodeContext` or `LeaveContext`, or a goroutine of the schedule. -/
inductive Party where
  | idle
  /-- It has nodeLock; before it looks at the flag. -/
  | holding (op : Op)
  /-- The flag was not set, or it does not look. -/
  | checked (op : Op)
  /-- The table has changed; these events are still to be queued. -/
  | emitting (todo : List Event)
  /-- An event is queued; before its wake-up is sent. -/
  | waking (n : Nat) (todo : List Event)
  | leaving

/-- Where a call of `Shutdown` is. `reentrant` is what `inReentrantContext` says of its
    goroutine, and `did` whether it did the teardown. -/
inductive Call where
  | idle
  /-- It has shutdownLock. -/
  | locked (reentrant : Bool)
  /-- In the shutdown of the transport. -/
  | tearing (reentrant : Bool)
  | unlocking (reentrant did : Bool)
  | deciding (reentrant did : Bool)
  /-- In `finishShutdown`. -/
  | joining
  | returned (reentrant : Bool)
deriving DecidableEq,Repr

/-- Where the `finishShutdown` is that a call runs, or its reaper. -/
inductive Finisher where
  | idle
  /-- In `shutdownWG.Wait`. -/
  | waiting
  | locking
  | holding
  /-- The queue is sealed. -/
  | sealed
  /-- The timers are cleared. -/
  | cleared
  /-- It has left its section; before it sends the wake-up. -/
  | unlocked
  /-- In `eventWG.Wait`. -/
  | joining
  | done
deriving DecidableEq,Repr

/-- An instance with its event queue, its locks and their users. `live` are the
    goroutines that shutdownWG counts. -/
structure State where
  m : Memberlist
  queue : Delivery.State := {}
  locked : Bool := false
  shutdownLock : Bool := false
  live : List Nat
  party : Nat → Party := fun _ => .idle
  call : Nat → Call := fun _ => .idle
  finisher : Nat → Finisher := fun _ => .idle

/-- An instance and its tracked goroutines; the log of events starts here. -/
def initial (m : Memberlist) (live : List Nat) : State where
  m := { m with events := [] }
  live := live

inductive Act where
  | enter (p : Nat) (op : Op)
  | go (p : Nat)
  /-- A tracked goroutine starts another. -/
  | spawn (p q : Nat)
  /-- A tracked goroutine ends. -/
  | finish (p : Nat)
  | shutdown (k : Nat) (reentrant : Bool)
  | proceed (k : Nat)
  | quiesce (f : Nat)
  /-- A step of the dispatcher. -/
  | deliver (a : Delivery.Act)

/-- A section after its check: the flag was not set when it looked, whatever it is now. -/
def commit (m : Memberlist) (op : Op) : Memberlist :=
  { apply { m with shutdown := false } op with shutdown := m.shutdown }

/-- An event as its producer hands it over. -/
def handed (e : QueuedEvent) : Event := ⟨e.kind,e.node,e.other,e.receipt.isSome⟩

/-- The events of a section. -/
def emitted (m : Memberlist) (op : Op) : List Event := ((commit m op).events.drop m.events.length).map handed

namespace State

def moveTo (s : State) (p : Nat) (c : Party) : State := { s with party := update s.party p c }

def calling (s : State) (k : Nat) (c : Call) : State := { s with call := update s.call k c }

def finishing (s : State) (f : Nat) (c : Finisher) : State := { s with finisher := update s.finisher f c }

end State

def go (s : State) (p : Nat) : State :=
  match s.party p with
  | .idle => s
  | .holding op => s.moveTo p (if s.m.shutdown = true ∧ ¬ IsReset op then .leaving else .checked op)
  | .checked op => { s.moveTo p (.emitting (emitted s.m op)) with m := commit s.m op }
  | .emitting [] => s.moveTo p .leaving
  | .emitting (e :: todo) =>
    { s.moveTo p (.waking s.queue.commits.length todo) with
      queue := Delivery.step s.queue (.append s.queue.commits.length e) }
  | .waking n todo => { s.moveTo p (.emitting todo) with queue := Delivery.step s.queue (.wake n) }
  | .leaving => { s.moveTo p .idle with locked := false }

/-- `Shutdown`, from where it has shutdownLock. -/
def proceed (s : State) (k : Nat) : State :=
  match s.call k with
  | .idle => s
  | .locked reentrant => s.calling k (if s.m.shutdown then .unlocking reentrant false else .tearing reentrant)
  | .tearing reentrant => { s.calling k (.unlocking reentrant true) with m := { s.m with shutdown := true } }
  | .unlocking reentrant did => { s.calling k (.deciding reentrant did) with shutdownLock := false }
  | .deciding true true => (s.calling k (.returned true)).finishing k .waiting
  | .deciding true false => s.calling k (.returned true)
  | .deciding false _ => (s.calling k .joining).finishing k .waiting
  | .joining => if s.finisher k = .done then s.calling k (.returned false) else s
  | .returned _ => s

def finishShutdown (s : State) (f : Nat) : State :=
  match s.finisher f with
  | .idle => s
  | .waiting => if s.live = [] then s.finishing f .locking else s
  | .locking => if s.locked then s else { s.finishing f .holding with locked := true }
  | .holding => { s.finishing f .sealed with queue := Delivery.step s.queue (.sealQueue f) }
  | .sealed => { s.finishing f .cleared with m := { s.m with nodeTimers := fun _ => none } }
  | .cleared => { s.finishing f .unlocked with locked := false }
  | .unlocked => { s.finishing f .joining with queue := Delivery.step s.queue (.wakeSealed f) }
  | .joining => if s.queue.dispatcher = .exited then s.finishing f .done else s
  | .done => s

/-- The steps of the dispatcher. -/
def IsDispatch : Delivery.Act → Prop
  | .look => True
  | .receive => True
  | .returns => True
  | .close => True
  | .count => True
  | _ => False

instance : ∀ a, Decidable (IsDispatch a)
  | .look | .receive | .returns | .close | .count => instDecidableTrue
  | .append .. | .wake .. | .sealQueue .. | .wakeSealed .. => instDecidableFalse

def step (s : State) : Act → State
  | .enter p op =>
    match s.party p with
    | .idle =>
      if s.locked = true ∨ IsReset op ∧ p ∉ s.live then s
      else { s.moveTo p (.holding op) with locked := true }
    | _ => s
  | .go p => go s p
  | .spawn p q => if p ∈ s.live then { s with live := q :: s.live } else s
  | .finish p =>
    match s.party p with
    | .idle => { s with live := s.live.erase p }
    | _ => s
  | .shutdown k reentrant =>
    if s.call k = .idle ∧ s.shutdownLock = false then { s.calling k (.locked reentrant) with shutdownLock := true } else s
  | .proceed k => proceed s k
  | .quiesce f => finishShutdown s f
  | .deliver a => if IsDispatch a then { s with queue := Delivery.step s.queue a } else s

inductive Owner where
  | party (p : Nat)
  | finisher (f : Nat)

def Party.Owns : Party → Prop
  | .idle => False
  | _ => True

/-- In a section that may still change something. -/
def Party.Working : Party → Prop
  | .idle => False
  | .holding op => IsReset op
  | .leaving => False
  | _ => True

/-- The events that a party has still to queue. -/
def Party.todo : Party → List Event
  | .emitting todo => todo
  | .waking _ todo => todo
  | _ => []

namespace Finisher

def Owns : Finisher → Prop
  | .holding => True
  | .sealed => True
  | .cleared => True
  | _ => False

/-- It has left its section. -/
def Left : Finisher → Prop
  | .unlocked => True
  | .joining => True
  | .done => True
  | _ => False

/-- The tracked goroutines have ended. -/
def Joined : Finisher → Prop
  | .idle => False
  | .waiting => False
  | _ => True

/-- The timers are cleared. -/
def Cleared (c : Finisher) : Prop := c = .cleared ∨ c.Left

/-- The queue is sealed. -/
def Sealed (c : Finisher) : Prop := c = .sealed ∨ c.Cleared

end Finisher

/-- Who has nodeLock. -/
def Owns (party : Nat → Party) (finisher : Nat → Finisher) : Owner → Prop
  | .party p => (party p).Owns
  | .finisher f => (finisher f).Owns

/-- Before the call starts `finishShutdown`. -/
def Call.Starting : Call → Prop
  | .joining => False
  | .returned _ => False
  | _ => True

/-- The flag is set. -/
def Call.Torn : Call → Prop
  | .idle => False
  | .locked _ => False
  | .tearing _ => False
  | _ => True

/-- The calls, their `finishShutdown` and the flag. -/
structure Stages (down : Bool) (call : Nat → Call) (finisher : Nat → Finisher) : Prop where
  unstarted : ∀ k, (call k).Starting → finisher k = .idle
  torn : ∀ k, (call k).Torn → down = true
  down : ∀ f, finisher f ≠ .idle → down = true
  returned : ∀ k, call k = .returned false → finisher k = .done

/-- What has ended where a `finishShutdown` is. -/
structure Fence (nodeTimers : Bytes → Option Nat) (live : List Nat) (party : Nat → Party) (finisher : Nat → Finisher) :
    Prop where
  joined : ∀ f, (finisher f).Joined → live = []
  left : ∀ f, (finisher f).Left → ∀ p, ¬ (party p).Working
  timers : ∀ f, (finisher f).Cleared → nodeTimers = fun _ => none

/-- The event queue and those who join its dispatcher. -/
structure Queue (queue : Delivery.State) (finisher : Nat → Finisher) : Prop where
  delivery : Delivery.Inv queue
  fresh : ∀ n, queue.commits.length ≤ n → queue.producer n = .idle
  drained : queue.dispatcher = .exited → queue.eventsSealed = true ∧ queue.events = []
  sealing : queue.eventsSealed = true → ∃ f, (finisher f).Sealed
  exited : ∀ f, finisher f = .done → queue.dispatcher = .exited

/-- The committed events are those that are queued and those that are about to be. -/
structure Log (events commits : List QueuedEvent) (party : Nat → Party) : Prop where
  owner : ∀ p, (party p).Owns → commits.map handed ++ (party p).todo = events.map handed
  free : (∀ p, ¬ (party p).Owns) → commits.map handed = events.map handed

structure Inv (s : State) : Prop where
  table : TableWF s.m
  lock : Held s.locked (Owns s.party s.finisher)
  stages : Stages s.m.shutdown s.call s.finisher
  fence : Fence s.m.nodeTimers s.live s.party s.finisher
  queue : Queue s.queue s.finisher
  log : Log s.m.events s.queue.commits s.party

section
variable {s : State} {p f : Nat} {c : Party} {party : Nat → Party} {finisher : Nat → Finisher}

theorem Party.owns_of_working (working : c.Working) : c.Owns := by
  cases c <;> first | exact working | trivial

theorem Finisher.joined_of_left {c : Finisher} (left : c.Left) : c.Joined := by
  cases c <;> first | exact left | trivial

theorem inv_initial {m : Memberlist} (wf : TableWF m) (live : List Nat) : Inv (initial m live) where
  table := tableWF_of_same (m := m) ⟨rfl,rfl,rfl,rfl,rfl⟩ wf
  lock := held_nobody (fun o => by cases o <;> exact id)
  stages := ⟨fun _ _ => rfl,fun _ => False.elim,fun _ wrong => absurd rfl wrong,fun _ wrong => by cases wrong⟩
  fence := ⟨fun _ => False.elim,fun _ => False.elim,fun _ wrong => wrong.elim (fun wrong => by cases wrong) False.elim⟩
  queue := ⟨Delivery.inv_initial,fun _ _ => rfl,(fun wrong => by cases wrong),(fun wrong => by cases wrong),
    fun _ wrong => by cases wrong⟩
  log := ⟨fun _ => False.elim,fun _ => rfl⟩

theorem aside_party : Aside (.party p) (Owns party finisher) (Owns (update party p c) finisher) := by
  intro o different
  cases o with
  | party q =>
    have other : q ≠ p := fun same => different (same ▸ rfl)
    simp only [Owns,update_of_ne other]
  | finisher f => rfl

theorem owns_self : Owns (update party p c) finisher (.party p) ↔ c.Owns := by
  simp only [Owns,update_self]

theorem lock_same (inv : Inv s) (before : (s.party p).Owns) (after : c.Owns) :
    Held s.locked (Owns (update s.party p c) s.finisher) :=
  held_same inv.lock aside_party (iff_of_true (owns_self.mpr after) before)

theorem alone_of_owns (inv : Inv s) (owns : (s.party p).Owns) {q : Nat} (other : q ≠ p) : ¬ (s.party q).Owns := by
  intro has
  have same := inv.lock.single (.party q) (.party p) has owns
  cases same
  exact other rfl

/-- A party that may still change something is in its section before the queue is sealed. -/
theorem unsealed_of_working (inv : Inv s) (working : (s.party p).Working) (f : Nat) : ¬ (s.finisher f).Sealed := by
  have outside : ¬ (s.finisher f).Owns := by
    intro has
    have same := inv.lock.single (.party p) (.finisher f) (Party.owns_of_working working) has
    cases same
  rintro (atSeal | atClear | left)
  · exact outside (atSeal ▸ trivial)
  · exact outside (atClear ▸ trivial)
  · exact inv.fence.left f left p working

theorem fence_at {timers : Bytes → Option Nat} {live : List Nat} (fence : Fence timers live party finisher)
    (still : c.Working → ∀ f, ¬ (finisher f).Left) : Fence timers live (update party p c) finisher :=
  { fence with
    left f left := (forall_update_iff party (fun _ c => ¬ c.Working)).mpr
      ⟨fun working => still working f left,fun q _ => fence.left f left q⟩ }

theorem fence_unsealed {timers timers' : Bytes → Option Nat} {live : List Nat} (fence : Fence timers live party finisher)
    (unsealed : ∀ f, ¬ (finisher f).Sealed) : Fence timers' live (update party p c) finisher where
  joined := fence.joined
  left f left := absurd (.inr (.inr left)) (unsealed f)
  timers f cleared := absurd (.inr cleared) (unsealed f)

theorem log_owner {events commits : List QueuedEvent} (alone : ∀ {q}, q ≠ p → ¬ (party q).Owns) (owns : c.Owns)
    (same : commits.map handed ++ c.todo = events.map handed) : Log events commits (update party p c) where
  owner := (forall_update_iff party (fun _ c => c.Owns → commits.map handed ++ c.todo = events.map handed)).mpr
    ⟨fun _ => same,fun _ other has => absurd has (alone other)⟩
  free nobody := by
    have mine := nobody p
    rw [update_self] at mine
    exact absurd owns mine

theorem log_free {events commits : List QueuedEvent} (alone : ∀ {q}, q ≠ p → ¬ (party q).Owns)
    (same : commits.map handed = events.map handed) : Log events commits (update party p .idle) where
  owner := (forall_update_iff party (fun _ c => c.Owns → commits.map handed ++ c.todo = events.map handed)).mpr
    ⟨False.elim,fun _ other has => absurd has (alone other)⟩
  free _ := same

theorem inv_enter (inv : Inv s) (p : Nat) (op : Op) : Inv (step s (.enter p op)) := by
  simp only [step]
  cases here : s.party p with
  | idle =>
    simp only
    split_ifs with blocked
    · exact inv
    · obtain ⟨unlocked,tracked⟩ := not_or.mp blocked
      have unowned : Held false (Owns s.party s.finisher) := by
        rw [Bool.not_eq_true] at unlocked
        exact unlocked ▸ inv.lock
      have nobody : ∀ q, ¬ (s.party q).Owns := fun q => nobody_of_held unowned (.party q)
      exact { inv with
        lock := held_take unowned aside_party (owns_self.mpr trivial)
        fence := by
          refine fence_at inv.fence (fun unchecked f left => tracked ⟨unchecked,?_⟩)
          rw [inv.fence.joined f (Finisher.joined_of_left left)]
          exact List.not_mem_nil
        log := log_owner (fun _ => nobody _) trivial ((List.append_nil _).trans (inv.log.free nobody)) }
  | _ => exact inv

theorem inv_within (inv : Inv s) (before : (s.party p).Owns) (after : c.Owns)
    (still : c.Working → ∀ f, ¬ (s.finisher f).Left) (same : c.todo = (s.party p).todo) : Inv (s.moveTo p c) :=
  { inv with
    lock := lock_same inv before after
    fence := fence_at inv.fence still
    log := log_owner (alone_of_owns inv before) after (same ▸ inv.log.owner p before) }

/-- A step of a section that has passed its check, which writes the table or the queue. -/
theorem inv_working {m' : Memberlist} {q : Delivery.State} (inv : Inv s) (working : (s.party p).Working) (after : c.Owns)
    (table : TableWF m') (up : m'.shutdown = s.m.shutdown) (queue : Queue q s.finisher)
    (log : q.commits.map handed ++ c.todo = m'.events.map handed) : Inv { s.moveTo p c with m := m', queue := q } := by
  have owns := Party.owns_of_working working
  have unsealed : ∀ f, ¬ (s.finisher f).Sealed := unsealed_of_working inv working
  have stages : Stages m'.shutdown s.call s.finisher := by
    rw [up]
    exact inv.stages
  exact ⟨table,lock_same inv owns after,stages,fence_unsealed inv.fence unsealed,queue,
    log_owner (alone_of_owns inv owns) after log⟩

end

section
variable {m m' : Memberlist} {op : Op}

theorem events_move (move : Move m op m') : m.events <+: m'.events := by
  cases move <;> first | exact List.prefix_append .. | exact List.prefix_rfl

theorem tableWF_commit (wf : TableWF m) (op : Op) : TableWF (commit m op) := by
  have up : TableWF { m with shutdown := false } := tableWF_of_same (m := m) ⟨rfl,rfl,rfl,rfl,rfl⟩ wf
  exact tableWF_of_same (m := apply { m with shutdown := false } op) ⟨rfl,rfl,rfl,rfl,rfl⟩ (tableWF_apply up op)

theorem events_commit (wf : TableWF m) (op : Op) : m.events <+: (commit m op).events := by
  have up : TableWF { m with shutdown := false } := tableWF_of_same (m := m) ⟨rfl,rfl,rfl,rfl,rfl⟩ wf
  exact (apply_invariant (I := fun m' => m.events <+: m'.events)
    (fun _ held move => held.trans (events_move move)) up List.prefix_rfl op).2

/-- The events of a section are the ones that it adds to the log. -/
theorem emitted_eq (wf : TableWF m) (op : Op) :
    m.events.map handed ++ emitted m op = (commit m op).events.map handed := by
  obtain ⟨new,log⟩ := events_commit wf op
  rw [emitted,← log,List.drop_left,List.map_append]

end

section
variable {q : Delivery.State} {finisher : Nat → Finisher} {n : Nat} {e : Event}

theorem handed_queuedEvent : handed (Delivery.queuedEvent q n e) = e := by
  cases e with
  | mk kind node other receipt => cases receipt <;> rfl

theorem commits_append (idle : q.producer n = .idle) :
    (Delivery.step q (.append n e)).commits.map handed = q.commits.map handed ++ [e] := by
  rw [Delivery.step,if_pos idle,Delivery.enqueueEventLocked,List.map_append,List.map_singleton,handed_queuedEvent]

theorem queue_append (queue : Queue q finisher) (unsealed : ∀ f, ¬ (finisher f).Sealed) (e : Event) :
    Queue (Delivery.step q (.append q.commits.length e)) finisher := by
  have idle := queue.fresh _ le_rfl
  have wide : q.eventsSealed = false := by
    rw [← Bool.not_eq_true]
    intro closed
    obtain ⟨f,atSeal⟩ := queue.sealing closed
    exact unsealed f atSeal
  have delivery := Delivery.inv_step queue.delivery (.append q.commits.length e)
  rw [Delivery.step,if_pos idle] at delivery ⊢
  exact { queue with
    delivery := delivery
    fresh := by
      intro k beyond
      simp only [Delivery.enqueueEventLocked,List.length_append,List.length_singleton] at beyond ⊢
      rw [update_of_ne (by omega)]
      exact queue.fresh k (by omega)
    drained := by
      intro gone
      rw [(queue.drained gone).1] at wide
      cases wide }

theorem queue_wake (queue : Queue q finisher) : Queue (Delivery.step q (.wake n)) finisher := by
  have delivery := Delivery.inv_step queue.delivery (.wake n)
  simp only [Delivery.step] at delivery ⊢
  split_ifs at delivery ⊢ with sending
  · refine ⟨delivery,fun k beyond => ?_,queue.drained,queue.sealing,queue.exited⟩
    have other : k ≠ n := by
      rintro rfl
      rw [queue.fresh k beyond] at sending
      cases sending
    simp only [update_of_ne other]
    exact queue.fresh k beyond
  · exact queue

theorem commits_wake : (Delivery.step q (.wake n)).commits = q.commits := by
  simp only [Delivery.step]
  split_ifs <;> rfl

end

section
variable {s : State} {p : Nat}

theorem inv_go (inv : Inv s) (p : Nat) : Inv (go s p) := by
  unfold go
  cases here : s.party p with
  | idle => exact inv
  | holding op =>
    have owns : (s.party p).Owns := here ▸ trivial
    simp only
    split_ifs with stop
    · exact inv_within inv owns trivial False.elim (by rw [here]; rfl)
    · refine inv_within inv owns trivial (fun _ f left => stop ⟨?_,?_⟩) (by rw [here]; rfl)
      · refine inv.stages.down f (fun idle => ?_)
        rw [idle] at left
        exact left
      · intro unchecked
        exact inv.fence.left f left p (by rw [here]; exact unchecked)
  | checked op =>
    have working : (s.party p).Working := here ▸ trivial
    have log := inv.log.owner p (Party.owns_of_working working)
    rw [here] at log
    refine inv_working inv working trivial (tableWF_commit inv.table op) rfl inv.queue ?_
    rw [← emitted_eq inv.table op,← log]
    exact congrArg (· ++ _) (List.append_nil _).symm
  | emitting todo =>
    have working : (s.party p).Working := here ▸ trivial
    have owns := Party.owns_of_working working
    cases todo with
    | nil => exact inv_within inv owns trivial False.elim (by rw [here]; rfl)
    | cons e todo =>
      have log := inv.log.owner p owns
      rw [here] at log
      refine inv_working inv working trivial inv.table rfl (queue_append inv.queue (unsealed_of_working inv working) e) ?_
      rw [commits_append (inv.queue.fresh _ le_rfl),List.append_assoc]
      exact log
  | waking n todo =>
    have working : (s.party p).Working := here ▸ trivial
    have log := inv.log.owner p (Party.owns_of_working working)
    rw [here] at log
    refine inv_working inv working trivial inv.table rfl (queue_wake inv.queue) ?_
    rw [commits_wake]
    exact log
  | leaving =>
    have owns : (s.party p).Owns := here ▸ trivial
    have log := inv.log.owner p owns
    rw [here] at log
    exact { inv with
      lock := held_release inv.lock aside_party owns owns_self.mp
      fence := fence_at inv.fence False.elim
      log := log_free (alone_of_owns inv owns) ((List.append_nil _).symm.trans log) }

end

/-! ## The calls -/

section
variable {s : State} {k f : Nat} {c : Call} {call : Nat → Call} {finisher : Nat → Finisher} {down : Bool}

theorem stages_call (stages : Stages down call finisher) (early : c.Starting → (call k).Starting)
    (torn : c.Torn → down = true) (unreturned : c ≠ .returned false) : Stages down (update call k c) finisher where
  unstarted := (forall_update_iff call (fun j c => c.Starting → finisher j = .idle)).mpr
    ⟨fun starting => stages.unstarted k (early starting),fun j _ => stages.unstarted j⟩
  torn := (forall_update_iff call (fun _ c => c.Torn → down = true)).mpr ⟨torn,fun j _ => stages.torn j⟩
  down := stages.down
  returned := (forall_update_iff call (fun j c => c = .returned false → finisher j = .done)).mpr
    ⟨fun returned => absurd returned unreturned,fun j _ => stages.returned j⟩

theorem stages_down (stages : Stages down call finisher) : Stages true call finisher :=
  ⟨stages.unstarted,fun _ _ => rfl,fun _ _ => rfl,stages.returned⟩

theorem stages_start (stages : Stages down call finisher) (early : (call k).Starting) (torn : (call k).Torn)
    (started : ¬ c.Starting) (unreturned : c ≠ .returned false) :
    Stages down (update call k c) (update finisher k .waiting) where
  unstarted j starting := by
    have other : j ≠ k := by
      rintro rfl
      rw [update_self] at starting
      exact started starting
    rw [update_of_ne other] at starting ⊢
    exact stages.unstarted j starting
  torn _ _ := stages.torn k torn
  down _ _ := stages.torn k torn
  returned j isReturned := by
    have other : j ≠ k := by
      rintro rfl
      rw [update_self] at isReturned
      exact unreturned isReturned
    rw [update_of_ne other] at isReturned ⊢
    exact stages.returned j isReturned

theorem stages_finisher {c : Finisher} (stages : Stages down call finisher) (begun : finisher f ≠ .idle)
    (undone : finisher f ≠ .done) : Stages down call (update finisher f c) where
  unstarted j starting := by
    have other : j ≠ f := by
      rintro rfl
      exact begun (stages.unstarted j starting)
    rw [update_of_ne other]
    exact stages.unstarted j starting
  torn := stages.torn
  down _ _ := stages.down f begun
  returned j isReturned := by
    have other : j ≠ f := by
      rintro rfl
      exact undone (stages.returned j isReturned)
    rw [update_of_ne other]
    exact stages.returned j isReturned

theorem fence_finisher {timers : Bytes → Option Nat} {live : List Nat} {party : Nat → Party} {c : Finisher}
    (fence : Fence timers live party finisher) (joined : c.Joined → live = [])
    (left : c.Left → ∀ p, ¬ (party p).Working) (cleared : c.Cleared → timers = fun _ => none) :
    Fence timers live party (update finisher f c) where
  joined := (forall_update_iff finisher (fun _ c => c.Joined → live = [])).mpr ⟨joined,fun j _ => fence.joined j⟩
  left := (forall_update_iff finisher (fun _ c => c.Left → ∀ p, ¬ (party p).Working)).mpr ⟨left,fun j _ => fence.left j⟩
  timers := (forall_update_iff finisher (fun _ c => c.Cleared → timers = fun _ => none)).mpr
    ⟨cleared,fun j _ => fence.timers j⟩

theorem queue_finisher {q : Delivery.State} {c : Finisher} (queue : Queue q finisher)
    (atSeal : (finisher f).Sealed → c.Sealed) (exited : c = .done → q.dispatcher = .exited) :
    Queue q (update finisher f c) :=
  { queue with
    sealing closed := by
      obtain ⟨j,has⟩ := queue.sealing closed
      by_cases mine : j = f
      · exact ⟨f,by rw [update_self]; exact atSeal (mine ▸ has)⟩
      · exact ⟨j,by rw [update_of_ne mine]; exact has⟩
    exited := (forall_update_iff finisher (fun _ c => c = .done → q.dispatcher = .exited)).mpr
      ⟨exited,fun j _ => queue.exited j⟩ }

theorem aside_finisher {c : Finisher} : Aside (.finisher f) (Owns party finisher) (Owns party (update finisher f c)) := by
  intro o different
  cases o with
  | party p => rfl
  | finisher j =>
    have other : j ≠ f := fun same => different (same ▸ rfl)
    simp only [Owns,update_of_ne other]

theorem owns_finisher {c : Finisher} : Owns party (update finisher f c) (.finisher f) ↔ c.Owns := by
  simp only [Owns,update_self]

theorem lock_finisher {c : Finisher} (inv : Inv s) (same : c.Owns ↔ (s.finisher f).Owns) :
    Held s.locked (Owns s.party (update s.finisher f c)) :=
  held_same inv.lock aside_finisher (owns_finisher.trans same)

theorem inv_call (inv : Inv s) (stages : Stages s.m.shutdown (update s.call k c) s.finisher) (shutdownLock : Bool) :
    Inv { s.calling k c with shutdownLock := shutdownLock } :=
  ⟨inv.table,inv.lock,stages,inv.fence,inv.queue,inv.log⟩

theorem inv_start (inv : Inv s) (early : (s.call k).Starting) (torn : (s.call k).Torn) (started : ¬ c.Starting)
    (unreturned : c ≠ .returned false) : Inv ((s.calling k c).finishing k .waiting) := by
  have idle := inv.stages.unstarted k early
  have unsealed : ¬ (s.finisher k).Sealed := by
    rw [idle]
    rintro (wrong | wrong | wrong) <;> cases wrong
  exact { inv with
    lock := lock_finisher inv (by rw [idle]; exact Iff.rfl)
    stages := stages_start inv.stages early torn started unreturned
    fence := fence_finisher inv.fence False.elim False.elim (fun wrong => wrong.elim (fun wrong => by cases wrong) False.elim)
    queue := queue_finisher inv.queue (fun has => absurd has unsealed) (fun wrong => by cases wrong) }

theorem inv_shutdown (inv : Inv s) (k : Nat) (reentrant : Bool) : Inv (step s (.shutdown k reentrant)) := by
  simp only [step]
  split_ifs with free
  · refine inv_call inv (stages_call inv.stages (fun _ => ?_) False.elim (fun wrong => by cases wrong)) true
    rw [free.1]
    trivial
  · exact inv

theorem inv_proceed (inv : Inv s) (k : Nat) : Inv (proceed s k) := by
  unfold proceed
  cases here : s.call k with
  | idle => exact inv
  | locked reentrant =>
    have early : (s.call k).Starting := here ▸ trivial
    simp only
    split_ifs with down
    · exact inv_call inv (stages_call inv.stages (fun _ => early) (fun _ => down) (fun wrong => by cases wrong)) _
    · exact inv_call inv (stages_call inv.stages (fun _ => early) False.elim (fun wrong => by cases wrong)) _
  | tearing reentrant =>
    have early : (s.call k).Starting := here ▸ trivial
    exact { inv with
      table := tableWF_of_same (m := s.m) ⟨rfl,rfl,rfl,rfl,rfl⟩ inv.table
      stages := stages_call (stages_down inv.stages) (fun _ => early) (fun _ => rfl) (fun wrong => by cases wrong) }
  | unlocking reentrant did =>
    have early : (s.call k).Starting := here ▸ trivial
    have torn := inv.stages.torn k (here ▸ trivial)
    exact inv_call inv (stages_call inv.stages (fun _ => early) (fun _ => torn) (fun wrong => by cases wrong)) _
  | deciding reentrant did =>
    have early : (s.call k).Starting := here ▸ trivial
    have torn : (s.call k).Torn := here ▸ trivial
    cases reentrant with
    | false => exact inv_start inv early torn id (fun wrong => by cases wrong)
    | true =>
      cases did with
      | true => exact inv_start inv early torn id (fun wrong => by cases wrong)
      | false =>
        exact inv_call inv
          (stages_call inv.stages False.elim (fun _ => inv.stages.torn k torn) (fun wrong => by cases wrong)) _
  | joining =>
    simp only
    split_ifs with done
    · have torn := inv.stages.torn k (here ▸ trivial)
      refine inv_call inv ⟨?_,fun j _ => torn,inv.stages.down,?_⟩ _
      · exact (forall_update_iff s.call (fun j c => c.Starting → s.finisher j = .idle)).mpr
          ⟨False.elim,fun j _ => inv.stages.unstarted j⟩
      · exact (forall_update_iff s.call (fun j c => c = .returned false → s.finisher j = .done)).mpr
          ⟨fun _ => done,fun j _ => inv.stages.returned j⟩
    · exact inv
  | returned => exact inv

theorem queue_seal {q : Delivery.State} (queue : Queue q finisher) :
    Queue (Delivery.step q (.sealQueue f)) (update finisher f .sealed) := by
  have moved := queue_finisher (f := f) (c := .sealed) queue (fun _ => .inl rfl) (fun wrong => by cases wrong)
  have delivery := Delivery.inv_step queue.delivery (.sealQueue f)
  simp only [Delivery.step] at delivery ⊢
  split_ifs at delivery ⊢
  · exact {
      delivery := delivery
      fresh := queue.fresh
      drained := fun gone => ⟨rfl,(queue.drained gone).2⟩
      sealing := fun _ => ⟨f,by rw [update_self]; exact .inl rfl⟩
      exited := moved.exited }
  · exact moved

theorem queue_wakeSealed {q : Delivery.State} (queue : Queue q finisher) :
    Queue (Delivery.step q (.wakeSealed f)) (update finisher f .joining) := by
  have moved := queue_finisher (f := f) (c := .joining) queue (fun _ => .inr (.inr trivial)) (fun wrong => by cases wrong)
  have delivery := Delivery.inv_step queue.delivery (.wakeSealed f)
  simp only [Delivery.step] at delivery ⊢
  split_ifs at delivery ⊢
  · exact ⟨delivery,queue.fresh,queue.drained,moved.sealing,moved.exited⟩
  · exact moved

theorem commits_of_seal {q : Delivery.State} : (Delivery.step q (.sealQueue f)).commits = q.commits := by
  simp only [Delivery.step]
  split_ifs <;> rfl

theorem commits_of_wakeSealed {q : Delivery.State} : (Delivery.step q (.wakeSealed f)).commits = q.commits := by
  simp only [Delivery.step]
  split_ifs <;> rfl

theorem inv_finisher {c c₀ : Finisher} {locked : Bool} {q : Delivery.State} (inv : Inv s) (here : s.finisher f = c₀)
    (begun : c₀ ≠ .idle) (undone : c₀ ≠ .done) (lock : Held locked (Owns s.party (update s.finisher f c)))
    (fence : Fence s.m.nodeTimers s.live s.party (update s.finisher f c)) (queue : Queue q (update s.finisher f c))
    (same : q.commits = s.queue.commits) : Inv { s.finishing f c with locked := locked, queue := q } where
  table := inv.table
  lock := lock
  stages := stages_finisher inv.stages (here ▸ begun) (here ▸ undone)
  fence := fence
  queue := queue
  log := same ▸ inv.log

/-- Once the tracked goroutines have ended they stay so; a finisher that goes on without
    clearing the timers or leaving its section adds nothing to the fence. -/
theorem fence_joined {c : Finisher} (inv : Inv s) (joined : (s.finisher f).Joined) (inside : ¬ c.Cleared) :
    Fence s.m.nodeTimers s.live s.party (update s.finisher f c) :=
  fence_finisher inv.fence (fun _ => inv.fence.joined f joined) (fun left => absurd (.inr left) inside)
    (fun cleared => absurd cleared inside)

theorem fence_left {c : Finisher} (inv : Inv s) (left : (s.finisher f).Left) :
    Fence s.m.nodeTimers s.live s.party (update s.finisher f c) :=
  fence_finisher inv.fence (fun _ => inv.fence.joined f (Finisher.joined_of_left left))
    (fun _ => inv.fence.left f left) (fun _ => inv.fence.timers f (.inr left))

theorem nobody_of_finisher (inv : Inv s) (owns : (s.finisher f).Owns) (p : Nat) : ¬ (s.party p).Owns := by
  intro has
  have same := inv.lock.single (.party p) (.finisher f) has owns
  cases same

theorem not_cleared {c : Finisher} (before : c ≠ .cleared) (inside : ¬ c.Left) : ¬ c.Cleared := by
  rintro (wrong | wrong)
  · exact before wrong
  · exact inside wrong

theorem inv_finishShutdown (inv : Inv s) (f : Nat) : Inv (finishShutdown s f) := by
  unfold finishShutdown
  cases here : s.finisher f with
  | idle => exact inv
  | waiting =>
    simp only
    split_ifs with ended
    · refine inv_finisher inv here (by decide) (by decide) (lock_finisher inv (by rw [here]; exact Iff.rfl)) ?_ ?_ rfl
      · exact fence_finisher inv.fence (fun _ => ended) False.elim
          (fun wrong => absurd wrong (not_cleared (by decide) id))
      · refine queue_finisher inv.queue (fun has => ?_) (fun wrong => by cases wrong)
        rw [here] at has
        rcases has with wrong | wrong | wrong <;> cases wrong
    · exact inv
  | locking =>
    simp only
    split_ifs with taken
    · exact inv
    · rw [Bool.not_eq_true] at taken
      refine inv_finisher inv here (by decide) (by decide)
        (held_take (taken ▸ inv.lock) aside_finisher (owns_finisher.mpr trivial))
        (fence_joined inv (here ▸ trivial) (not_cleared (by decide) id)) ?_ rfl
      refine queue_finisher inv.queue (fun has => ?_) (fun wrong => by cases wrong)
      rw [here] at has
      rcases has with wrong | wrong | wrong <;> cases wrong
  | holding =>
    exact inv_finisher inv here (by decide) (by decide) (lock_finisher inv (by rw [here]; exact Iff.rfl))
      (fence_joined inv (here ▸ trivial) (not_cleared (by decide) id)) (queue_seal inv.queue) commits_of_seal
  | sealed =>
    exact {
      table := tableWF_of_same (m := s.m) ⟨rfl,rfl,rfl,rfl,rfl⟩ inv.table
      lock := lock_finisher inv (by rw [here]; exact Iff.rfl)
      stages := stages_finisher inv.stages (by rw [here]; decide) (by rw [here]; decide)
      fence := by
        have cleared : Fence (fun _ => none) s.live s.party s.finisher :=
          ⟨inv.fence.joined,inv.fence.left,fun _ _ => rfl⟩
        exact fence_finisher cleared (fun _ => inv.fence.joined f (here ▸ trivial)) False.elim (fun _ => rfl)
      queue := queue_finisher inv.queue (fun _ => .inr (.inl rfl)) (fun wrong => by cases wrong)
      log := inv.log }
  | cleared =>
    have owns : (s.finisher f).Owns := here ▸ trivial
    have nobody := nobody_of_finisher inv owns
    refine inv_finisher inv here (by decide) (by decide)
      (held_release inv.lock aside_finisher owns owns_finisher.mp) ?_
      (queue_finisher inv.queue (fun _ => .inr (.inr trivial)) (fun wrong => by cases wrong)) rfl
    exact fence_finisher inv.fence (fun _ => inv.fence.joined f (here ▸ trivial))
      (fun _ p working => nobody p (Party.owns_of_working working)) (fun _ => inv.fence.timers f (.inl here))
  | unlocked =>
    exact inv_finisher inv here (by decide) (by decide) (lock_finisher inv (by rw [here]; exact Iff.rfl))
      (fence_left inv (here ▸ trivial)) (queue_wakeSealed inv.queue) commits_of_wakeSealed
  | joining =>
    simp only
    split_ifs with gone
    · exact inv_finisher inv here (by decide) (by decide) (lock_finisher inv (by rw [here]; exact Iff.rfl))
        (fence_left inv (here ▸ trivial)) (queue_finisher inv.queue (fun _ => .inr (.inr trivial)) (fun _ => gone)) rfl
    · exact inv
  | done => exact inv

theorem dispatch_exited {q : Delivery.State} {a : Delivery.Act} (dispatch : IsDispatch a) (gone : q.dispatcher = .exited) :
    Delivery.step q a = q := by
  cases a with
  | append => exact dispatch.elim
  | wake => exact dispatch.elim
  | sealQueue => exact dispatch.elim
  | wakeSealed => exact dispatch.elim
  | _ => simp [Delivery.step,gone]

/-- The dispatcher commits, seals and produces nothing. -/
theorem dispatch_keeps (q : Delivery.State) {a : Delivery.Act} (dispatch : IsDispatch a) :
    (Delivery.step q a).commits = q.commits ∧ (Delivery.step q a).producer = q.producer ∧
      (Delivery.step q a).eventsSealed = q.eventsSealed := by
  cases a with
  | append => exact dispatch.elim
  | wake => exact dispatch.elim
  | sealQueue => exact dispatch.elim
  | wakeSealed => exact dispatch.elim
  | look =>
    by_cases looking : q.dispatcher = .looking
    · rw [Delivery.step,if_pos looking,Delivery.look]
      split <;> exact ⟨rfl,rfl,rfl⟩
    · rw [Delivery.step,if_neg looking]
      exact ⟨rfl,rfl,rfl⟩
  | returns | close =>
    simp only [Delivery.step]
    split <;> exact ⟨rfl,rfl,rfl⟩
  | receive | count =>
    simp only [Delivery.step]
    split_ifs <;> exact ⟨rfl,rfl,rfl⟩

theorem inv_deliver (inv : Inv s) (a : Delivery.Act) : Inv (step s (.deliver a)) := by
  simp only [step]
  split_ifs with dispatch
  · obtain ⟨commits,producer,closed⟩ := dispatch_keeps s.queue dispatch
    refine ⟨inv.table,inv.lock,inv.stages,inv.fence,?_,commits ▸ inv.log⟩
    exact {
      delivery := Delivery.inv_step inv.queue.delivery a
      fresh := by
        rw [commits,producer]
        exact inv.queue.fresh
      drained := by
        by_cases before : s.queue.dispatcher = .exited
        · rw [dispatch_exited dispatch before]
          exact inv.queue.drained
        · exact Delivery.exits_drained before
      sealing := by
        rw [closed]
        exact inv.queue.sealing
      exited := by
        intro f done
        have gone := inv.queue.exited f done
        rw [dispatch_exited dispatch gone]
        exact gone }
  · exact inv

theorem inv_live (inv : Inv s) {live : List Nat} (ended : s.live = [] → live = []) : Inv { s with live := live } :=
  ⟨inv.table,inv.lock,inv.stages,⟨fun f has => ended (inv.fence.joined f has),inv.fence.left,inv.fence.timers⟩,
    inv.queue,inv.log⟩

theorem inv_step (s : State) (act : Act) (inv : Inv s) : Inv (step s act) := by
  cases act with
  | enter p op => exact inv_enter inv p op
  | go p => exact inv_go inv p
  | spawn p q =>
    simp only [step]
    split_ifs with parent
    · refine inv_live inv (fun ended => ?_)
      rw [ended] at parent
      cases parent
    · exact inv
  | finish p =>
    simp only [step]
    split
    · refine inv_live inv (fun ended => ?_)
      rw [ended]
      rfl
    · exact inv
  | shutdown k reentrant => exact inv_shutdown inv k reentrant
  | proceed k => exact inv_proceed inv k
  | quiesce f => exact inv_finishShutdown inv f
  | deliver a => exact inv_deliver inv a

end

section
variable {s : State} {f : Nat}

/-- Nothing of the instance changes, and nothing is committed. -/
structure Still (f : Nat) (s s' : State) : Prop where
  m : s'.m = s.m
  commits : s'.queue.commits = s.queue.commits
  left : (s'.finisher f).Left

theorem still_rfl (left : (s.finisher f).Left) : Still f s s := ⟨rfl,rfl,left⟩

/-- A section that begins after the fence, or that the fence has let pass, has nothing to do. -/
theorem still_go (inv : Inv s) (left : (s.finisher f).Left) (p : Nat) : Still f s (go s p) := by
  have nothing := inv.fence.left f left p
  unfold go
  cases here : s.party p with
  | idle => exact still_rfl left
  | holding op => exact ⟨rfl,rfl,left⟩
  | leaving => exact ⟨rfl,rfl,left⟩
  | _ => exact absurd (here ▸ trivial) nothing

theorem still_proceed (inv : Inv s) (left : (s.finisher f).Left) (k : Nat) : Still f s (proceed s k) := by
  have begun : s.finisher f ≠ .idle := by
    intro idle
    rw [idle] at left
    exact left
  have down := inv.stages.down f begun
  have started : ∀ c, (s.call k).Starting → Still f s ((s.calling k c).finishing k .waiting) := by
    intro c early
    have other : f ≠ k := by
      rintro rfl
      exact begun (inv.stages.unstarted f early)
    refine ⟨rfl,rfl,?_⟩
    simp only [State.finishing,State.calling,update_of_ne other]
    exact left
  unfold proceed
  cases here : s.call k with
  | tearing reentrant =>
    refine ⟨?_,rfl,left⟩
    change { s.m with shutdown := true } = s.m
    rw [← down]
  | deciding reentrant did =>
    have early : (s.call k).Starting := here ▸ trivial
    cases reentrant with
    | false => exact started _ early
    | true =>
      cases did with
      | true => exact started _ early
      | false => exact ⟨rfl,rfl,left⟩
  | joining =>
    simp only
    split_ifs
    · exact ⟨rfl,rfl,left⟩
    · exact still_rfl left
  | _ => exact ⟨rfl,rfl,left⟩

theorem still_finishShutdown (inv : Inv s) (left : (s.finisher f).Left) (j : Nat) : Still f s (finishShutdown s j) := by
  have moved : ∀ c, (f = j → c.Left) → ((s.finishing j c).finisher f).Left := by
    intro c stays
    by_cases mine : f = j
    · simp only [State.finishing,mine,update_self]
      exact stays mine
    · simp only [State.finishing,update_of_ne mine]
      exact left
  have other : ∀ {c}, s.finisher j = c → ¬ c.Left → f = j → False := by
    rintro c there inside rfl
    exact inside (there ▸ left)
  unfold finishShutdown
  cases here : s.finisher j with
  | idle => exact still_rfl left
  | waiting =>
    simp only
    split_ifs
    · exact ⟨rfl,rfl,moved _ (fun mine => (other here id mine).elim)⟩
    · exact still_rfl left
  | locking =>
    simp only
    split_ifs
    · exact still_rfl left
    · exact ⟨rfl,rfl,moved _ (fun mine => (other here id mine).elim)⟩
  | holding => exact ⟨rfl,commits_of_seal,moved _ (fun mine => (other here id mine).elim)⟩
  | sealed =>
    refine ⟨?_,rfl,moved _ (fun mine => (other here id mine).elim)⟩
    change { s.m with nodeTimers := fun _ => none } = s.m
    rw [← inv.fence.timers f (.inr left)]
  | cleared => exact ⟨rfl,rfl,moved _ (fun _ => trivial)⟩
  | unlocked => exact ⟨rfl,commits_of_wakeSealed,moved _ (fun _ => trivial)⟩
  | joining =>
    simp only
    split_ifs
    · exact ⟨rfl,rfl,moved _ (fun _ => trivial)⟩
    · exact still_rfl left
  | done => exact still_rfl left

theorem still_step (inv : Inv s) (left : (s.finisher f).Left) (act : Act) : Still f s (step s act) := by
  cases act with
  | enter p op =>
    simp only [step]
    split
    · split_ifs <;> exact ⟨rfl,rfl,left⟩
    · exact still_rfl left
  | go p => exact still_go inv left p
  | spawn p q =>
    simp only [step]
    split_ifs <;> exact ⟨rfl,rfl,left⟩
  | finish p =>
    simp only [step]
    split <;> exact ⟨rfl,rfl,left⟩
  | shutdown k reentrant =>
    simp only [step]
    split_ifs <;> exact ⟨rfl,rfl,left⟩
  | proceed k => exact still_proceed inv left k
  | quiesce j => exact still_finishShutdown inv left j
  | deliver a =>
    simp only [step]
    split_ifs with dispatch
    · exact ⟨rfl,(dispatch_keeps s.queue dispatch).1,left⟩
    · exact still_rfl left

theorem still_run (inv : Inv s) (left : (s.finisher f).Left) (acts : List Act) : Still f s (run step s acts) := by
  have kept : Inv (run step s acts) ∧ Still f s (run step s acts) := Machines.run_keeps (I := fun s' => Inv s' ∧ Still f s s')
    (fun s' act held => by
      obtain ⟨inv',still⟩ := held
      obtain ⟨m,commits,left'⟩ := still_step inv' still.left act
      exact ⟨inv_step s' act inv',⟨m.trans still.m,commits.trans still.commits,left'⟩⟩)
    ⟨inv,still_rfl left⟩ acts
  exact kept.2

/-- Once the dispatcher has exited, every event was delivered. -/
theorem delivered_of_done (inv : Inv s) (done : s.finisher f = .done) :
    s.queue.ran = s.queue.commits ∧ s.queue.ran.map handed = s.m.events.map handed := by
  have left : (s.finisher f).Left := done ▸ trivial
  have gone := inv.queue.exited f done
  have order := inv.queue.delivery.order
  rw [gone,(inv.queue.drained gone).2] at order
  have ran : s.queue.ran = s.queue.commits := by simpa [Delivery.Dispatcher.running] using order
  refine ⟨ran,?_⟩
  rw [ran]
  by_cases nobody : ∀ p, ¬ (s.party p).Owns
  · exact inv.log.free nobody
  · obtain ⟨p,owns⟩ := not_forall_not.mp nobody
    have log := inv.log.owner p owns
    have nothing := inv.fence.left f left p
    have none : (s.party p).todo = [] := by
      cases here : s.party p with
      | emitting => exact absurd (here ▸ trivial) nothing
      | waking => exact absurd (here ▸ trivial) nothing
      | _ => rfl
    rwa [none,List.append_nil] at log

end

/-- From the moment a `finishShutdown` has left its section no step of anybody changes the
    instance, its table, its timers and its log of events included, or commits an event, and there
    are no timers. When a call returns that is not re-entrant, the callbacks of all committed
    events have returned, in the order of the commits. -/
theorem nothing_after_shutdown {conf : Config} {m : Memberlist} (reached : Reachable conf m) (live : List Nat)
    (acts : List Act) :
    let s := run step (initial m live) acts
    (∀ f, (s.finisher f).Left → s.m.nodeTimers = (fun _ => none) ∧
      ∀ more, (run step s more).m = s.m ∧ (run step s more).queue.commits = s.queue.commits) ∧
    ∀ k, s.call k = .returned false →
      s.queue.ran = s.queue.commits ∧ s.queue.ran.map handed = s.m.events.map handed := by
  intro s
  have inv : Inv s := Machines.run_keeps inv_step (inv_initial (tableWF_reachable reached).1 live) acts
  refine ⟨fun f left => ⟨inv.fence.timers f (.inr left),fun more => ?_⟩,fun k returned => ?_⟩
  · have still := still_run inv left more
    exact ⟨still.m,still.commits⟩
  · exact delivered_of_done inv (inv.stages.returned k returned)

/-- A node with an event delegate. -/
def watched : Config := { name := [97], events := true }

/-- An alive message of a peer. -/
def joins (name : UInt8) : Op := .alive ⟨1,[name],some [10,0,0,name],7946,none,some [1,5,2,0,0,0]⟩ {}

/-- A peer joins, and a second one only after the shutdown has begun. -/
def stopping : List Act :=
  [.enter 1 (joins 98),.go 1,.go 1,.go 1,.go 1,.go 1,.go 1,.deliver .look,.deliver .returns,
    .shutdown 0 false,.proceed 0,.proceed 0,.proceed 0,.proceed 0,.enter 2 (joins 99),.go 2,.go 2,.finish 0,
    .quiesce 0,.quiesce 0,.quiesce 0,.quiesce 0,.quiesce 0,.quiesce 0,
    .deliver .close,.deliver .count,.deliver .look,.quiesce 0,.proceed 0]

theorem nothing_after_shutdown_stopping :
    let s := run step (initial (buildMemberlist watched) [0]) stopping
    s.m.nodes.length = 1 ∧ s.queue.commits.length = 1 ∧ s.queue.ran = s.queue.commits ∧
      ∀ more, (run step s more).m = s.m := by
  intro s
  obtain ⟨still,delivered⟩ := nothing_after_shutdown (Reachable.build : Reachable watched _) [0] stopping
  have left : (s.finisher 0).Left := by
    have done : s.finisher 0 = .done := by decide
    rw [done]
    trivial
  exact ⟨by decide,by decide,(delivered 0 (by decide)).1,fun more => ((still 0 left).2 more).1⟩

end Mori.Shutdown
