import Mori.Acks

/-!
The handlers of many calls. An ack carries nothing but a sequence number, and numbers come
back after 2^32 draws. A call has its number for itself as long as fewer are drawn from its
own draw until its handler has left the map, and then acks reach the call that waits for
them, and relays answer the peer that asked.
-/
namespace Mori.Relays
open Mori.Net Mori.Wire Mori.Machines Mori.Acks Function
set_option linter.unusedSimpArgs false

/-- The call has drawn its number, and its handler is not stored yet or is in the map. -/
def Outstanding (s : State) (i : Nat) : Prop := s.place i = .drawn ∨ s.ackHandlers (s.seqNo i) = some i

/-- A number is drawn only while each outstanding call has seen fewer than 2^32 draws
    after its own, this one included. -/
def Fresh (s : State) : Act → Prop
  | .call _ _ => ∀ j, Outstanding s j → s.drawn + 1 < s.ticket j + 2 ^ 32
  | _ => True

structure Numbered (s : State) : Prop where
  counter : s.sequenceNum = UInt32.ofNat s.drawn
  number : ∀ i, s.place i ≠ .unused → s.seqNo i = UInt32.ofNat (s.ticket i) ∧ s.ticket i ≤ s.drawn
  unique : ∀ i j, Outstanding s i → Outstanding s j → s.seqNo i = s.seqNo j → i = j

/-- No number is drawn. -/
structure Undrawn (s s' : State) : Prop where
  counter : s'.sequenceNum = s.sequenceNum ∧ s'.drawn = s.drawn
  number : s'.seqNo = s.seqNo ∧ s'.ticket = s.ticket
  used : ∀ i, s'.place i ≠ .unused → s.place i ≠ .unused
  outstanding : ∀ i, Outstanding s' i → Outstanding s i

section
variable {indirectChecks : Nat} {s s' : State} {i p : Nat}

/-- The number of the call that begins. -/
theorem next_number (counter : s.sequenceNum = UInt32.ofNat s.drawn) : s.sequenceNum + 1 = UInt32.ofNat (s.drawn + 1) := by
  rw [counter,UInt32.ofNat_add]
  rfl

/-- Every call that has begun has the number of its ticket. -/
theorem number_call (counter : s.sequenceNum = UInt32.ofNat s.drawn)
    (number : ∀ j, s.place j ≠ .unused → s.seqNo j = UInt32.ofNat (s.ticket j) ∧ s.ticket j ≤ s.drawn) (task : Task) (j : Nat)
    (used : (call s i task).place j ≠ .unused) :
    (call s i task).seqNo j = UInt32.ofNat ((call s i task).ticket j) ∧ (call s i task).ticket j ≤ (call s i task).drawn := by
  by_cases isNew : j = i
  · simp only [call,isNew,update_self]
    exact ⟨next_number counter,Nat.le_refl _⟩
  · simp only [call,update_of_ne isNew] at used ⊢
    obtain ⟨same,most⟩ := number j used
    exact ⟨same,Nat.le_succ_of_le most⟩

theorem number_undrawn (undrawn : Undrawn s s')
    (number : ∀ j, s.place j ≠ .unused → s.seqNo j = UInt32.ofNat (s.ticket j) ∧ s.ticket j ≤ s.drawn) (j : Nat)
    (used : s'.place j ≠ .unused) : s'.seqNo j = UInt32.ofNat (s'.ticket j) ∧ s'.ticket j ≤ s'.drawn := by
  rw [undrawn.number.1,undrawn.number.2,undrawn.counter.2]
  exact number j (undrawn.used j used)

theorem counter_undrawn (undrawn : Undrawn s s') (counter : s.sequenceNum = UInt32.ofNat s.drawn) :
    s'.sequenceNum = UInt32.ofNat s'.drawn := by
  rw [undrawn.counter.1,undrawn.counter.2]
  exact counter

theorem numbered_undrawn (numbered : Numbered s) (undrawn : Undrawn s s') : Numbered s' := by
  refine ⟨counter_undrawn undrawn numbered.counter,number_undrawn undrawn numbered.number,fun i j here there => ?_⟩
  rw [undrawn.number.1]
  exact numbered.unique i j (undrawn.outstanding i here) (undrawn.outstanding j there)

theorem numbered_call (inv : Inv s) (numbered : Numbered s) (idle : (s.owner i).stage = .idle) {task : Task}
    (fresh : Fresh s (.call i task)) : Numbered (call s i task) := by
  have unused := (inv.sound i).unused idle
  have next := next_number numbered.counter
  have before : ∀ j, j ≠ i → Outstanding (call s i task) j → Outstanding s j := by
    intro j ne outstanding
    simpa only [Outstanding,call,update_of_ne ne] using outstanding
  have differs : ∀ j, j ≠ i → Outstanding (call s i task) j → s.sequenceNum + 1 ≠ s.seqNo j := by
    intro j ne outstanding same
    have held := before j ne outstanding
    have used : s.place j ≠ .unused := by
      rcases held with drawn | mapped
      · simp [drawn]
      · simp [(inv.links.mapped _ j mapped).1]
    obtain ⟨number,most⟩ := numbered.number j used
    have recent := fresh j held
    rw [next,number] at same
    have values := congrArg UInt32.toNat same
    simp only [UInt32.toNat_ofNat'] at values
    omega
  refine ⟨next,number_call numbered.counter numbered.number task,fun j k here there same => ?_⟩
  by_cases first : j = i
  · by_cases second : k = i
    · rw [first,second]
    · simp only [call,first,update_self,update_of_ne second] at same
      exact absurd same (differs k second there)
  · by_cases second : k = i
    · simp only [call,second,update_self,update_of_ne first] at same
      exact absurd same.symm (differs j first here)
    · simp only [call,update_of_ne first,update_of_ne second] at same
      exact numbered.unique j k (before j first here) (before k second there) same

/-- A handler that was stored moves on. -/
theorem undrawn_place (i : Nat) (place : Place) (used : s.place i ≠ .unused) (stored : place ≠ .drawn)
    (counter : s'.sequenceNum = s.sequenceNum ∧ s'.drawn = s.drawn) (number : s'.seqNo = s.seqNo ∧ s'.ticket = s.ticket)
    (places : s'.place = update s.place i place)
    (handlers : ∀ q j, s'.ackHandlers q = some j → s.ackHandlers q = some j) : Undrawn s s' := by
  refine ⟨counter,number,fun j held => ?_,fun j outstanding => ?_⟩
  · by_cases same : j = i
    · rw [same]
      exact used
    · rwa [places,update_of_ne same] at held
  · rcases outstanding with drawn | mapped
    · by_cases same : j = i
      · rw [places,same,update_self] at drawn
        exact absurd drawn stored
      · rw [places,update_of_ne same] at drawn
        exact .inl drawn
    · rw [number.1] at mapped
      exact .inr (handlers _ _ mapped)

/-- No handler moves, except out of the map. -/
theorem undrawn_same (counter : s'.sequenceNum = s.sequenceNum ∧ s'.drawn = s.drawn)
    (number : s'.seqNo = s.seqNo ∧ s'.ticket = s.ticket) (places : s'.place = s.place)
    (handlers : ∀ q j, s'.ackHandlers q = some j → s.ackHandlers q = some j) : Undrawn s s' := by
  refine ⟨counter,number,fun j held => places ▸ held,fun j outstanding => ?_⟩
  rcases outstanding with drawn | mapped
  · exact .inl (places ▸ drawn)
  · rw [number.1] at mapped
    exact .inr (handlers _ _ mapped)

theorem handlers_removed (s : State) (q : UInt32) :
    ∀ q' j, update s.ackHandlers q none q' = some j → s.ackHandlers q' = some j := by
  intro q' j held
  by_cases same : q' = q
  · simp [same] at held
  · rwa [update_of_ne same] at held

theorem undrawn_store (drawn : s.place i = .drawn) : Undrawn s (store s i) := by
  refine ⟨⟨rfl,rfl⟩,⟨rfl,rfl⟩,fun j held => ?_,fun j outstanding => ?_⟩
  · by_cases same : j = i
    · simp [same,drawn]
    · simpa only [store,update_of_ne same] using held
  · by_cases same : j = i
    · rw [same]
      exact .inl drawn
    · simp only [Outstanding,store,update_of_ne same] at outstanding
      refine outstanding.imp_right (fun mapped => ?_)
      by_cases number : s.seqNo j = s.seqNo i
      · rw [number,update_self] at mapped
        exact absurd (Option.some.inj mapped).symm same
      · rwa [update_of_ne number] at mapped

theorem undrawn_did (inv : Inv s) {a : Act} (did : Did indirectChecks s a s') (other : ∀ i task, a ≠ .call i task) :
    Undrawn s s' := by
  cases did with
  | call => exact absurd rfl (other _ _)
  | store now => exact undrawn_store ((inv.sound _).early (stores_early now).1)
  | reap => exact undrawn_same ⟨rfl,rfl⟩ ⟨rfl,rfl⟩ rfl (handlers_removed s _)
  | @take i p _ _ _ held =>
    have mapped := (inv.links.mapped _ i held).1
    exact undrawn_place i (.taken p) (by simp [mapped]) (by simp) ⟨rfl,rfl⟩ ⟨rfl,rfl⟩ rfl (handlers_removed s _)
  | @answer i p _ _ stopped =>
    have taken := inv.links.packets p
    rw [stopped] at taken
    exact undrawn_place i .over (by simp [taken.1]) (by simp) ⟨rfl,rfl⟩ ⟨rfl,rfl⟩ rfl (fun _ _ held => held)
  | @close i p _ _ stopped =>
    have taken := inv.links.packets p
    rw [stopped] at taken
    exact undrawn_place i (.called p) (by simp [taken.1]) (by simp) ⟨rfl,rfl⟩ ⟨rfl,rfl⟩ rfl (fun _ _ held => held)
  | @forward i p forwarding =>
    have called := inv.links.packets p
    rw [forwarding] at called
    exact undrawn_place i .over (by rw [show s.place i = .called p from called]; simp) (by simp) ⟨rfl,rfl⟩ ⟨rfl,rfl⟩ rfl
      (fun _ _ held => held)
  | _ => exact undrawn_same ⟨rfl,rfl⟩ ⟨rfl,rfl⟩ rfl (fun _ _ held => held)

theorem numbered_step (inv : Inv s) (numbered : Numbered s) (a : Act) (fresh : Fresh s a) :
    Numbered (step indirectChecks s a) := by
  by_cases other : ∀ i task, a ≠ .call i task
  · exact numbered_undrawn numbered (undrawn_did inv (did_step indirectChecks s a) other)
  · simp only [ne_eq,not_forall,not_not] at other
    obtain ⟨i,task,rfl⟩ := other
    simp only [step]
    split_ifs with idle
    · exact numbered_call inv numbered idle fresh
    · exact numbered

end

theorem numbered_initial : Numbered {} where
  counter := rfl
  number _ wrong := absurd rfl wrong
  unique i j here := by simp [Outstanding] at here

/-- Acks are routed to the right handler at most once, in every interleaving of probes,
    pings, relays, their timers and any packets in which a call sees fewer than 2^32 draws
    from its own until its handler has left the map: a packet calls one handler at most
    and a handler is called at most once, under its own number; the map leads from a
    number to the one call that is outstanding with it; for each request at most one ack
    is forwarded, with the number of the request and to the requester; and no packet
    closes a channel twice. -/
theorem acks_routed (indirectChecks : Nat) {acts : List Act} (few : Along (step indirectChecks) Fresh {} acts) :
    let s := run (step indirectChecks) {} acts
    ((s.triggered.map Trigger.packet).Nodup ∧ (s.triggered.map Trigger.owner).Nodup ∧
      ∀ t ∈ s.triggered, s.seqNo t.owner = t.number) ∧
    (∀ q i, s.ackHandlers q = some i → s.seqNo i = q ∧ ∀ j, Outstanding s j → s.seqNo j = q → j = i) ∧
    ((s.sent.map Sent.owner).Nodup ∧ ∀ e ∈ s.sent, ∃ req, s.task e.owner = .relay req ∧ e.dest = respondTo req ∧
      e.ack = { seqNo := req.ind.seqNo }) ∧
    ∀ p, s.packet p ≠ .closedTwice := by
  intro s
  obtain ⟨inv,numbered⟩ : Inv s ∧ Numbered s :=
    along_keeps (I := fun s => Inv s ∧ Numbered s)
      (fun _ a holds fresh => ⟨inv_step holds.1 a,numbered_step holds.1 holds.2 a fresh⟩) ⟨inv_initial,numbered_initial⟩
      few
  have links := inv.links
  refine ⟨⟨links.packetOnce,links.ownerOnce,fun t member => (links.called t member).2⟩,fun q i held => ?_,
    ⟨links.sentOnce,fun e member => (links.sent e member).2⟩,fun p twice => ?_⟩
  · have number := (links.mapped q i held).2
    refine ⟨number,fun j outstanding same => ?_⟩
    exact numbered.unique j i outstanding (.inr (number.symm ▸ held)) (same.trans number.symm)
  · have wrong := links.packets p
    rw [twice] at wrong
    exact wrong

/-- Two peers ask with the same number, a probe begins, and the first relay gets its ack
    twice. -/
def crossed (first second : Request) : List Act :=
  [.call 0 (.relay first),.store 0,.own 0 .startTimer,.own 0 (.ping .sent),
    .call 1 (.relay second),.store 1,.own 1 .startTimer,.own 1 (.ping .sent),.call 2 .probe,
    .lookUp 0 { seqNo := 1 } 7,.stop 0,.invoke 0,.forward 0,.lookUp 1 { seqNo := 1 } 8]

/-- The request of a node `b` or `c` at 10.0.0.2, with number 5. -/
def asking (name : UInt8) : Request where
  ind := { seqNo := 5, node := [97], sourceAddr := some [10,0,0,2], sourcePort := 7946, sourceNode := [name] }
  source := []

theorem fresh_of_few {s : State} (few : s.drawn + 1 < 2 ^ 32) (a : Act) : Fresh s a := by
  cases a with
  | call i task => exact fun j _ => Nat.lt_add_left _ few
  | _ => trivial

theorem acks_routed_crossed :
    (run (step 3) {} (crossed (asking 98) (asking 99))).sent = [⟨0,respondTo (asking 98),{ seqNo := 5 }⟩] ∧
      ∀ q i, (run (step 3) {} (crossed (asking 98) (asking 99))).ackHandlers q = some i →
        (run (step 3) {} (crossed (asking 98) (asking 99))).seqNo i = q := by
  have few : Along (step 3) Fresh {} (crossed (asking 98) (asking 99)) := by
    refine ⟨?_,?_,?_,?_,?_,?_,?_,?_,?_,?_,?_,?_,?_,?_,trivial⟩ <;> exact fresh_of_few (by decide) _
  exact ⟨by decide,fun q i held => ((acks_routed 3 few).2.1 q i held).1⟩

/-! ## One packet at a time

`setAckHandler` stores its handler before it starts the timer, and `invokeAckHandler` does
not check that there is one. `packetListen` runs both, one packet after the other.
-/

/-- A packet is being handled. -/
def busy : Packet → Bool
  | .idle => false
  | .done => false
  | _ => true

/-- `packetListen` is between two packets. -/
def Listening (s : State) : Prop :=
  (∀ p, busy (s.packet p) = false) ∧
    ∀ i req, s.task i = .relay req → (s.owner i).stage = .idle ∨ (s.owner i).stage = .returned

/-- A packet is begun only when none is being handled. -/
def Serial (s : State) : Act → Prop
  | .call _ (.relay _) => Listening s
  | .lookUp _ _ _ => Listening s
  | .lookUpNack _ _ => Listening s
  | _ => True

/-- A call is past the start of its timer, or before it. -/
def Timed (task : Task) (o : Owner) : Prop :=
  o.timer = .unset → o.stage = .idle ∨ o.stage = .drawn ∨ (o.stage = .stored ∧ ∃ req, task = .relay req)

/-- No packet has come, or will come, upon a timer that is not set. -/
structure Punctual (s : State) : Prop where
  timed : ∀ i, Timed (s.task i) (s.owner i)
  found : ∀ p i ack timestamp, s.packet p = .found i ack timestamp → (s.owner i).timer ≠ .unset
  never : ∀ p, s.packet p ≠ .nilTimer

section
variable {indirectChecks : Nat} {task : Task} {o : Owner} {s : State} {i p : Nat}

theorem set_send (o : Owner) (v : AckMessage) : (o.send indirectChecks v).timer = o.timer := by
  rw [send_same]

theorem set_move (set : o.timer ≠ .unset) (move : Move) : (o.move indirectChecks task move).timer ≠ .unset := by
  rcases moved_move indirectChecks task o move with
    ⟨-,timer⟩ | ⟨-,timer⟩ | ⟨-,-,timer⟩ | ⟨-,-,timer⟩ | ⟨-,-,timer⟩ <;> simp [timer,set]

theorem timed_move (timed : Timed task o) (move : Move) : Timed task (o.move indirectChecks task move) := by
  intro unset
  cases moved_move indirectChecks task o move with
  | same stage timer =>
    rw [stage]
    exact timed (timer ▸ unset)
  | goesOn before after timer =>
    -- Before the timer runs the call does nothing but start it.
    rcases timed (timer ▸ unset) with idle | drawn | ⟨stored,-⟩
    · simp [idle,Stage.registered] at before
    · simp [drawn,Stage.registered] at before
    · simp [stored,Stage.registered] at before
  | starts _ timer => simp [timer] at unset
  | fires _ _ timer => simp [timer] at unset
  | expires _ _ timer => simp [timer] at unset

theorem punctual_owner (punctual : Punctual s) (timed : Timed (s.task i) o)
    (set : (s.owner i).timer ≠ .unset → o.timer ≠ .unset) : Punctual { s with owner := update s.owner i o } := by
  refine ⟨?_,fun p => ?_,punctual.never⟩
  · exact (forall_update_iff s.owner (fun j o => Timed (s.task j) o)).mpr ⟨timed,fun j _ => punctual.timed j⟩
  · exact (forall_update_iff s.owner (fun j o => ∀ ack timestamp, s.packet p = .found j ack timestamp → o.timer ≠ .unset)).mpr
      ⟨fun ack timestamp found => set (punctual.found p i ack timestamp found),fun j _ => punctual.found p j⟩

/-- A packet goes on to where no timer is looked at. -/
theorem punctual_packet (punctual : Punctual s) {x : Packet} (other : ∀ i ack timestamp, x ≠ .found i ack timestamp)
    (notNil : x ≠ .nilTimer) : Punctual { s with packet := update s.packet p x } := by
  refine ⟨punctual.timed,?_,?_⟩
  · exact (forall_update_iff s.packet (fun _ x => ∀ i ack timestamp, x = .found i ack timestamp → (s.owner i).timer ≠ .unset)).mpr
      ⟨fun i ack timestamp found => absurd found (other i ack timestamp),fun q _ => punctual.found q⟩
  · exact (forall_update_iff s.packet (fun _ x => x ≠ .nilTimer)).mpr ⟨notNil,fun q _ => punctual.never q⟩

theorem punctual_call (inv : Inv s) (punctual : Punctual s) (idle : (s.owner i).stage = .idle) (task : Task) :
    Punctual (call s i task) := by
  have unused := (inv.sound i).unused idle
  refine ⟨fun j => ?_,fun p j ack timestamp found => ?_,punctual.never⟩
  · by_cases same : j = i
    · simp only [call,same,update_self]
      exact fun _ => .inr (.inl rfl)
    · simp only [call,update_of_ne same]
      exact punctual.timed j
  · have taken := inv.links.packets p
    rw [show s.packet p = .found j ack timestamp from found] at taken
    have ne : j ≠ i := by
      rintro rfl
      exact absurd taken.1 (by simp [unused])
    simp only [call,update_of_ne ne]
    exact punctual.found p j ack timestamp found

theorem punctual_store (punctual : Punctual s) (now : stores (s.task i) (s.owner i).stage = true) :
    Punctual (store s i) := by
  have stored := punctual_owner (i := i) (o := { s.owner i with stage := afterStore (s.task i) }) punctual
    (fun unset => by
      have before := punctual.timed i unset
      cases task : s.task i with
      | relay req => exact .inr (.inr ⟨rfl,req,rfl⟩)
      | _ =>
        rw [task] at now
        rcases before with stage | stage | stage <;> simp [stage,stores] at now)
    id
  exact ⟨stored.timed,stored.found,stored.never⟩

/-- Between packets every handler in the map has its timer. -/
theorem punctual_take (inv : Inv s) (punctual : Punctual s) (listening : Listening s) {ack : AckResp}
    (held : s.ackHandlers ack.seqNo = some i) (timestamp : Time) : Punctual (take s i p ack timestamp) := by
  have mapped := (inv.links.mapped _ i held).1
  have set : (s.owner i).timer ≠ .unset := by
    intro unset
    rcases punctual.timed i unset with idle | drawn | ⟨stored,req,relay⟩
    · exact absurd ((inv.sound i).unused idle) (by simp [mapped])
    · exact absurd ((inv.sound i).early (.inl drawn)) (by simp [mapped])
    · rcases listening.2 i req relay with idle | returned
      · simp [stored] at idle
      · simp [stored] at returned
  refine ⟨punctual.timed,?_,?_⟩
  · refine (forall_update_iff s.packet (fun _ x => ∀ j ack timestamp, x = .found j ack timestamp → (s.owner j).timer ≠ .unset)).mpr
      ⟨?_,fun q _ => punctual.found q⟩
    rintro j ack' timestamp' ⟨⟩
    exact set
  · exact (forall_update_iff s.packet (fun _ x => x ≠ .nilTimer)).mpr ⟨by simp,fun q _ => punctual.never q⟩

theorem punctual_stopTimer (punctual : Punctual s) (set : (s.owner i).timer ≠ .unset) (ack : AckResp) (timestamp : Time) :
    Punctual (stopTimer s i p ack timestamp) := by
  have still : (s.owner i).stopTimer.timer ≠ .unset := by
    unfold Owner.stopTimer
    split_ifs <;> simp [set]
  have stopped := punctual_owner (i := i) punctual (fun wrong => absurd wrong still) (fun _ => still)
  exact punctual_packet stopped (by simp) (by simp)

theorem punctual_answer (punctual : Punctual s) (ack : AckResp) (timestamp : Time) :
    Punctual (answer indirectChecks s i p ack timestamp) := by
  have sent : Timed (s.task i) ((s.owner i).send indirectChecks ⟨true,ack.payload,timestamp⟩) := by
    rw [send_same]
    exact punctual.timed i
  have answered := punctual_packet (p := p) (x := .done)
    (punctual_owner (i := i) punctual sent (by rw [set_send]; exact id)) (by simp) (by simp)
  exact ⟨answered.timed,answered.found,answered.never⟩

theorem punctual_did (inv : Inv s) (punctual : Punctual s) {a : Act} {s' : State} (did : Did indirectChecks s a s')
    (serial : Serial s a) : Punctual s' := by
  cases did with
  | nothing => exact punctual
  | call task idle => exact punctual_call inv punctual idle task
  | own i move =>
    exact punctual_owner punctual (timed_move (punctual.timed i) move) (fun set => set_move set move)
  | store now => exact punctual_store punctual now
  | @reap i =>
    have next : afterReap (s.task i) ≠ .unset := by cases s.task i <;> simp [afterReap]
    have reaped := punctual_owner (i := i) (o := { s.owner i with timer := afterReap (s.task i) }) punctual
      (fun wrong => absurd wrong next) (fun _ => next)
    exact ⟨reaped.timed,reaped.found,reaped.never⟩
  | take timestamp _ held => exact punctual_take inv punctual serial held timestamp
  | nilTimer found unset => exact absurd unset (punctual.found _ _ _ _ found)
  | stopTimer _ set => exact punctual_stopTimer punctual set _ _
  | answer => exact punctual_answer punctual _ _
  | @close i p =>
    have closed := punctual_packet (p := p) (x := .forwarding i)
      (punctual_owner (i := i) (o := { s.owner i with cancelled := true }) punctual (punctual.timed i) id) (by simp)
      (by simp)
    exact ⟨closed.timed,closed.found,closed.never⟩
  | @forward i p =>
    have done := punctual_packet (p := p) (x := .done) punctual (by simp) (by simp)
    exact ⟨done.timed,done.found,done.never⟩
  | @invokeNack i p =>
    refine punctual_packet (x := .done) (punctual_owner (i := i) punctual ?_ ?_) (by simp) (by simp)
    · exact punctual.timed i
    · exact id
  | miss => exact punctual_packet punctual (by simp) (by simp)
  | closeTwice => exact punctual_packet punctual (by simp) (by simp)
  | nack => exact punctual_packet punctual (by simp) (by simp)

end

/-- As long as packets are handled one after the other, none of them panics: neither does
    one find a timer that is not set, nor does one close a channel twice. -/
theorem packets_safe {indirectChecks : Nat} {acts : List Act} (serial : Along (step indirectChecks) Serial {} acts) (p : Nat) :
    (run (step indirectChecks) {} acts).packet p ≠ .nilTimer ∧
      (run (step indirectChecks) {} acts).packet p ≠ .closedTwice := by
  have start : Punctual {} := ⟨fun _ _ => .inl rfl,by simp,by simp⟩
  obtain ⟨inv,punctual⟩ : Inv (run (step indirectChecks) {} acts) ∧ Punctual (run (step indirectChecks) {} acts) :=
    along_keeps (I := fun s => Inv s ∧ Punctual s)
      (fun _ a holds met => ⟨inv_step holds.1 a,punctual_did holds.1 holds.2 (did_step indirectChecks _ a) met⟩) ⟨inv_initial,start⟩ serial
  refine ⟨punctual.never p,fun twice => ?_⟩
  have wrong := inv.links.packets p
  rw [twice] at wrong
  exact wrong

end Mori.Relays
