import Mori.Relays

/-!
Handlers that nobody reaps. `setAckHandler` stores its handler and then starts the timer
that reaps it, but `setProbeChannels` starts the timer first: where its callback takes
`ackLock` before the handler is stored, it deletes nothing, and the handler stays until
an ack comes. As long as no callback is that early, no handler outlives its timeout.
-/
namespace Mori.Reaping
open Mori.Wire Mori.Machines Mori.Acks Mori.Relays Function

/-- The callback has deleted the handler from the map, or will not run. -/
def spent : Timer → Bool
  | .reaped => true
  | .stopped => true
  | .over => true
  | _ => false

/-- The callback of `setProbeChannels` takes `ackLock` only once the handler is stored. -/
def Timely (s : State) : Act → Prop
  | .reap i => (s.owner i).stage ≠ .started
  | _ => True

/-- No registration is under way, and no timer runs or is in its callback. -/
def Quiet (s : State) : Prop :=
  ∀ i, ((s.owner i).stage = .idle ∨ (s.owner i).stage.registered = true) ∧ (s.owner i).timer ≠ .running ∧
    (s.owner i).timer ≠ .fired

/-- Every call has a number of its own. -/
structure Ticketed (s : State) : Prop where
  counter : s.sequenceNum = UInt32.ofNat s.drawn
  number : ∀ i, s.place i ≠ .unused → s.seqNo i = UInt32.ofNat (s.ticket i) ∧ s.ticket i ≤ s.drawn
  distinct : ∀ i j, s.place i ≠ .unused → s.place j ≠ .unused → s.ticket i = s.ticket j → i = j

section
variable {indirectChecks : Nat} {s s' : State} {i p : Nat}

theorem ticketed_undrawn (ticketed : Ticketed s) (undrawn : Undrawn s s') : Ticketed s' := by
  refine ⟨counter_undrawn undrawn ticketed.counter,number_undrawn undrawn ticketed.number,fun i j first second => ?_⟩
  rw [undrawn.number.2]
  exact ticketed.distinct i j (undrawn.used i first) (undrawn.used j second)

theorem ticketed_call (ticketed : Ticketed s) (task : Task) : Ticketed (call s i task) := by
  refine ⟨next_number ticketed.counter,number_call ticketed.counter ticketed.number task,fun j k first second same => ?_⟩
  have older : ∀ j, j ≠ i → (call s i task).place j ≠ .unused → (call s i task).ticket j ≠ s.drawn + 1 := by
    intro j other used
    simp only [call,update_of_ne other] at used ⊢
    have := (ticketed.number j used).2
    omega
  have own : (call s i task).ticket i = s.drawn + 1 := update_self ..
  by_cases isFirst : j = i <;> by_cases isSecond : k = i
  · rw [isFirst,isSecond]
  · rw [isFirst,own] at same
    exact absurd same.symm (older k isSecond second)
  · rw [isSecond,own] at same
    exact absurd same (older j isFirst first)
  · simp only [call,update_of_ne isFirst,update_of_ne isSecond] at first second same
    exact ticketed.distinct j k first second same

theorem ticketed_step (inv : Inv s) (ticketed : Ticketed s) (a : Act) : Ticketed (step indirectChecks s a) := by
  by_cases other : ∀ i task, a ≠ .call i task
  · exact ticketed_undrawn ticketed (undrawn_did inv (did_step indirectChecks s a) other)
  · simp only [ne_eq,not_forall,not_not] at other
    obtain ⟨i,task,rfl⟩ := other
    simp only [step]
    split_ifs
    · exact ticketed_call ticketed task
    · exact ticketed

/-- Before the counter comes around, no two calls have the same number. -/
theorem owner_of_number (ticketed : Ticketed s) (few : s.drawn < 2 ^ 32) {j : Nat} (first : s.place i ≠ .unused)
    (second : s.place j ≠ .unused) (same : s.seqNo i = s.seqNo j) : i = j := by
  obtain ⟨number,most⟩ := ticketed.number i first
  obtain ⟨number',most'⟩ := ticketed.number j second
  refine ticketed.distinct i j first second ?_
  rw [number,number'] at same
  have values := congrArg UInt32.toNat same
  simp only [UInt32.toNat_ofNat'] at values
  omega

/-- Every handler in the map has a timer that is still to reap it, and so has every
    handler that is about to be stored. -/
structure Awaited (s : State) : Prop where
  mapped : ∀ q i, s.ackHandlers q = some i → spent (s.owner i).timer = false
  started : ∀ i, (s.owner i).stage = .started → spent (s.owner i).timer = false

/-- Only one call changes, the map only loses handlers, and the call's timer is not
    spent by that. -/
theorem awaited_owner (awaited : Awaited s) (i : Nat) {o : Owner}
    (timer : spent (s.owner i).timer = false → spent o.timer = false)
    (stage : o.stage = .started → (s.owner i).stage = .started ∨ spent o.timer = false)
    (owners : s'.owner = update s.owner i o)
    (handlers : ∀ q j, s'.ackHandlers q = some j → s.ackHandlers q = some j) : Awaited s' := by
  refine ⟨fun q j held => ?_,fun j started => ?_⟩
  · have before := awaited.mapped q j (handlers q j held)
    by_cases same : j = i
    · rw [owners,same,update_self]
      exact timer (same ▸ before)
    · rwa [owners,update_of_ne same]
  · by_cases same : j = i
    · rw [owners,same,update_self] at started ⊢
      rcases stage started with already | running
      · exact timer (awaited.started i already)
      · exact running
    · rw [owners,update_of_ne same] at started ⊢
      exact awaited.started j started

/-- No call changes, and the map only loses handlers. -/
theorem awaited_same (awaited : Awaited s) (owners : s'.owner = s.owner)
    (handlers : ∀ q j, s'.ackHandlers q = some j → s.ackHandlers q = some j) : Awaited s' := by
  refine ⟨fun q j held => ?_,fun j started => ?_⟩
  · rw [owners]
    exact awaited.mapped q j (handlers q j held)
  · rw [owners] at started ⊢
    exact awaited.started j started

end

section
variable {indirectChecks : Nat} {task : Task} {o : Owner}

theorem spent_move (waits : spent o.timer = false) (move : Move) : spent (o.move indirectChecks task move).timer = false := by
  cases moved_move indirectChecks task o move with
  | same _ timer => rwa [timer]
  | goesOn _ _ timer => rwa [timer]
  | starts _ timer =>
    rw [timer]
    rfl
  | fires _ _ timer =>
    rw [timer]
    rfl
  | expires _ reaped =>
    rw [reaped] at waits
    cases waits

/-- A call comes to this stage by starting its timer. -/
theorem started_move (move : Move) (started : (o.move indirectChecks task move).stage = .started) :
    o.stage = .started ∨ spent (o.move indirectChecks task move).timer = false := by
  cases moved_move indirectChecks task o move with
  | starts _ timer =>
    rw [timer]
    exact .inr rfl
  | goesOn _ after =>
    rw [started] at after
    cases after
  | same stage => exact .inl (stage ▸ started)
  | fires stage => exact .inl (stage ▸ started)
  | expires stage => exact .inl (stage ▸ started)

theorem idle_move (move : Move) (idle : o.stage = .idle) : (o.move indirectChecks task move).stage = .idle := by
  cases moved_move indirectChecks task o move with
  | starts stage => simp [idle] at stage
  | goesOn before =>
    rw [idle] at before
    cases before
  | same stage => rwa [stage]
  | fires stage => rwa [stage]
  | expires stage => rwa [stage]

end

section
variable {indirectChecks : Nat} {s s' : State} {i p : Nat}

/-- A call whose handler is unused has not begun. -/
def Begun (s : State) : Prop := ∀ i, s.place i = .unused → (s.owner i).stage = .idle

/-- Only one call changes, and it stays idle if it was. -/
theorem begun_owner (begun : Begun s) (i : Nat) {o : Owner} (idle : (s.owner i).stage = .idle → o.stage = .idle)
    (owners : s'.owner = update s.owner i o) (places : ∀ j, s'.place j = .unused → s.place j = .unused) : Begun s' := by
  intro j unused
  have before := begun j (places j unused)
  by_cases same : j = i
  · rw [owners,same,update_self]
    exact idle (same ▸ before)
  · rwa [owners,update_of_ne same]

theorem unused_update {place : Place} (used : place ≠ .unused) (j : Nat) (unused : update s.place i place j = .unused) :
    s.place j = .unused := by
  by_cases same : j = i
  · rw [same,update_self] at unused
    exact absurd unused used
  · rwa [update_of_ne same] at unused

theorem begun_did (begun : Begun s) {a : Act} (did : Did indirectChecks s a s') : Begun s' := by
  cases did with
  | @call i task idle =>
    intro j unused
    by_cases same : j = i
    · simp [call,same] at unused
    · simp only [call,update_of_ne same] at unused ⊢
      exact begun j unused
  | own i move => exact begun_owner begun i (idle_move move) rfl (fun _ unused => unused)
  | @store i now =>
    intro j unused
    by_cases same : j = i
    · simp [store,same] at unused
    · simp only [store,update_of_ne same] at unused ⊢
      exact begun j unused
  | @reap i =>
    refine begun_owner begun i ?_ rfl (fun _ unused => unused)
    exact id
  | @take i p => exact fun j unused => begun j (unused_update (by simp) j unused)
  | @stopTimer i p =>
    refine begun_owner begun i ?_ rfl (fun _ unused => unused)
    unfold Owner.stopTimer
    split_ifs <;> exact id
  | @answer i p =>
    refine begun_owner begun i ?_ rfl (fun j unused => unused_update (by simp) j unused)
    rw [send_same]
    exact id
  | @close i p =>
    refine begun_owner begun i ?_ rfl (fun j unused => unused_update (by simp) j unused)
    exact id
  | @forward i p => exact fun j unused => begun j (unused_update (by simp) j unused)
  | @invokeNack i p =>
    refine begun_owner begun i ?_ rfl (fun _ unused => unused)
    exact id
  | _ => exact begun

theorem awaited_store (inv : Inv s) (awaited : Awaited s) (now : stores (s.task i) (s.owner i).stage = true) :
    Awaited (store s i) := by
  have waits : spent (s.owner i).timer = false := by
    rcases (stores_early now).1 with drawn | started
    · rw [(inv.sound i).untimed (.inl drawn)]
      rfl
    · exact awaited.started i started
  refine ⟨fun q j held => ?_,fun j started => ?_⟩
  · by_cases same : j = i
    · simpa only [store,same,update_self] using waits
    · simp only [store,update_of_ne same] at held ⊢
      by_cases number : q = s.seqNo i
      · rw [number,update_self] at held
        exact absurd (Option.some.inj held).symm same
      · rw [update_of_ne number] at held
        exact awaited.mapped q j held
  · by_cases same : j = i
    · simpa only [store,same,update_self] using waits
    · simp only [store,update_of_ne same] at started ⊢
      exact awaited.started j started

/-- The handler of the callback is not in the map after it, and is not stored later. -/
theorem awaited_reap (inv : Inv s) (awaited : Awaited s) (stored : (s.owner i).stage ≠ .started) : Awaited (reap s i) := by
  refine ⟨fun q j held => ?_,fun j started => ?_⟩
  · have before := handlers_removed s _ q j held
    have other : j ≠ i := by
      rintro rfl
      simp [reap,(inv.links.mapped q j before).2] at held
    simp only [reap,update_of_ne other]
    exact awaited.mapped q j before
  · by_cases same : j = i
    · simp only [reap,same,update_self] at started
      exact absurd started stored
    · simp only [reap,update_of_ne same] at started ⊢
      exact awaited.started j started

/-- The handler whose timer a packet stops is with that packet. -/
theorem awaited_stopTimer (inv : Inv s) (awaited : Awaited s) {ack : AckResp} {timestamp : Net.Time}
    (found : s.packet p = .found i ack timestamp) : Awaited (stopTimer s i p ack timestamp) := by
  have taken := inv.links.packets p
  rw [found] at taken
  refine ⟨fun q j held => ?_,fun j started => ?_⟩
  · have other : j ≠ i := by
      rintro rfl
      exact absurd ((inv.links.mapped q j held).1.symm.trans taken.1) (by simp)
    simp only [stopTimer,update_of_ne other]
    exact awaited.mapped q j held
  · by_cases same : j = i
    · have still : (s.owner i).stage = .started := by
        simp only [stopTimer,same,update_self,Owner.stopTimer] at started
        split_ifs at started <;> exact started
      exact absurd (((inv.sound i).early (.inr still)).symm.trans taken.1) (by simp)
    · simp only [stopTimer,update_of_ne same] at started ⊢
      exact awaited.started j started

theorem awaited_did (inv : Inv s) (awaited : Awaited s) {a : Act} (did : Did indirectChecks s a s') (timely : Timely s a) :
    Awaited s' := by
  cases did with
  | nothing => exact awaited
  | @call i task idle =>
    exact awaited_owner awaited i (fun _ => rfl) (fun _ => .inr rfl) rfl (fun _ _ held => held)
  | own i move =>
    exact awaited_owner awaited i (fun waits => spent_move waits move) (started_move move) rfl (fun _ _ held => held)
  | @store i now => exact awaited_store inv awaited now
  | @reap i fired => exact awaited_reap inv awaited timely
  | take => exact awaited_same awaited rfl (handlers_removed s _)
  | stopTimer found => exact awaited_stopTimer inv awaited found
  | @answer i p ack timestamp stopped =>
    refine awaited_owner awaited i ?_ ?_ rfl (fun _ _ held => held)
    · rw [send_same]
      exact id
    · rw [send_same]
      exact .inl
  | @close i p =>
    refine awaited_owner awaited i ?_ ?_ rfl (fun _ _ held => held)
    · exact id
    · exact .inl
  | @invokeNack i p =>
    refine awaited_owner awaited i ?_ ?_ rfl (fun _ _ held => held)
    · exact id
    · exact .inl
  | _ => exact awaited_same awaited rfl (fun _ _ held => held)

end

/-- The steps of `packetListen` come one packet at a time, and no callback is early. -/
def Orderly (s : State) (a : Act) : Prop := Serial s a ∧ Timely s a

/-- What orderly runs keep. -/
structure Kept (s : State) : Prop where
  inv : Inv s
  ticketed : Ticketed s
  begun : Begun s
  punctual : Punctual s
  awaited : Awaited s

theorem kept_step {indirectChecks : Nat} {s : State} {a : Act} (kept : Kept s) (orderly : Orderly s a) :
    Kept (step indirectChecks s a) := by
  have did := did_step indirectChecks s a
  exact ⟨inv_step kept.inv a,ticketed_step kept.inv kept.ticketed a,begun_did kept.begun did,
    punctual_did kept.inv kept.punctual did orderly.1,awaited_did kept.inv kept.awaited did orderly.2⟩

theorem kept_initial : Kept {} where
  inv := inv_initial
  ticketed := ⟨rfl,fun _ wrong => absurd rfl wrong,fun _ _ wrong => absurd rfl wrong⟩
  begun _ _ := rfl
  punctual := ⟨fun _ _ => .inl rfl,by simp,by simp⟩
  awaited := ⟨fun _ _ held => (by cases held),fun _ started => (by cases started)⟩

section
variable {s : State} {i : Nat}

theorem unmapped_of_spent (kept : Kept s) (few : s.drawn < 2 ^ 32) (registered : (s.owner i).stage.registered = true)
    (done : spent (s.owner i).timer = true) : s.ackHandlers (s.seqNo i) = none := by
  have used : s.place i ≠ .unused := by
    intro unused
    rw [kept.begun i unused] at registered
    cases registered
  cases held : s.ackHandlers (s.seqNo i) with
  | none => rfl
  | some j =>
    obtain ⟨mapped,number⟩ := kept.inv.links.mapped _ j held
    have same := owner_of_number kept.ticketed few used (by simp [mapped]) number.symm
    have waits := kept.awaited.mapped _ j held
    rw [← same,done] at waits
    cases waits

/-- A handler in the map is that of a registration under way, or has a timer. -/
theorem unmapped_of_quiet (kept : Kept s) (quiet : Quiet s) (q : UInt32) : s.ackHandlers q = none := by
  cases held : s.ackHandlers q with
  | none => rfl
  | some i =>
    have mapped := (kept.inv.links.mapped q i held).1
    have waits := kept.awaited.mapped q i held
    obtain ⟨idle | registered,notRunning,notFired⟩ := quiet i
    · exact absurd ((kept.inv.sound i).unused idle) (by simp [mapped])
    · have unset : (s.owner i).timer = .unset := by
        cases timer : (s.owner i).timer <;> simp_all [spent]
      rcases kept.punctual.timed i unset with stage | stage | ⟨stage,-⟩ <;> rw [stage] at registered <;> cases registered

end

/-- No handler outlives its timeout, in every interleaving of registrations, timer
    callbacks and packets, these one at a time, in which fewer than 2^32 numbers are drawn
    and no callback of `setProbeChannels` takes `ackLock` before its handler is stored:
    once a registration has returned and its callback has run or its timer is stopped,
    there is no handler for its number, and once nothing is under way there is none. -/
theorem handlers_reaped {indirectChecks : Nat} {acts : List Act} (orderly : Along (step indirectChecks) Orderly {} acts)
    (few : (run (step indirectChecks) {} acts).drawn < 2 ^ 32) :
    let s := run (step indirectChecks) {} acts
    (∀ i, (s.owner i).stage.registered = true → spent (s.owner i).timer = true → s.ackHandlers (s.seqNo i) = none) ∧
      (Quiet s → ∀ q, s.ackHandlers q = none) := by
  intro s
  have kept : Kept s := along_keeps (fun _ _ => kept_step) kept_initial orderly
  exact ⟨fun i => unmapped_of_spent kept few,unmapped_of_quiet kept⟩

/-- A probe that gets no ack. -/
def unanswered : List Act :=
  [.call 0 .probe,.own 0 .startTimer,.store 0,.own 0 (.ping .sent),.own 0 .fire,.reap 0,.own 0 (.expire 9)]

theorem handlers_reaped_unanswered :
    (run (step 3) {} unanswered).ackHandlers 1 = none ∧ ((run (step 3) {} unanswered).owner 0).timer = .over := by
  have orderly : Along (step 3) Orderly {} unanswered := by
    refine ⟨⟨trivial,trivial⟩,⟨trivial,trivial⟩,⟨trivial,trivial⟩,⟨trivial,trivial⟩,⟨trivial,trivial⟩,⟨trivial,?_⟩,
      ⟨trivial,trivial⟩,trivial⟩
    simp only [Timely]
    decide
  exact ⟨(handlers_reaped orderly (by decide)).1 0 (by decide) (by decide),by decide⟩

/-- The callback of a probe takes `ackLock` before the handler is stored, and the ping
    cannot be sent. -/
def early : List Act :=
  [.call 0 .probe,.own 0 .startTimer,.own 0 .fire,.reap 0,.store 0,.own 0 (.expire 9),.own 0 (.ping .otherFailure)]

/-- The handler stays, although its call has returned and its timer is over. -/
theorem early_callback_leaks :
    Along (step 3) Serial {} early ∧ (run (step 3) {} early).drawn = 1 ∧
      ((run (step 3) {} early).owner 0).stage = .returned ∧ ((run (step 3) {} early).owner 0).timer = .over ∧
      Quiet (run (step 3) {} early) ∧ (run (step 3) {} early).ackHandlers ((run (step 3) {} early).seqNo 0) = some 0 := by
  refine ⟨⟨trivial,trivial,trivial,trivial,trivial,trivial,trivial,trivial⟩,by decide,by decide,by decide,fun i => ?_,
    by decide⟩
  cases i with
  | zero => decide
  | succ i =>
    have unused : (run (step 3) {} early).owner (i + 1) = {} := rfl
    rw [unused]
    exact ⟨.inl rfl,by simp,by simp⟩

end Mori.Reaping
