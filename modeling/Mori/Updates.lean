import Mori.Gossip

/-!
`UpdateNodeContext` and `LeaveContext` against each other, against messages and against
`GetBroadcasts`. A call fetches the delegate's metadata, commits in one critical section,
and then waits on a channel that the queue signals when it is done with the message: when
it has been sent often enough, but also when another message of the node replaces it.
-/
namespace Mori.Updates
open Mori.Net Mori.Protocol Mori.State Mori.Table Mori.Moves Mori.LocalNode Mori.PlainQueue Mori.QueueRefinement
open Mori.Gossip Mori.Machines Function

/-- Whether another member is alive. -/
def anyAliveLocked (m : Memberlist) : Bool :=
  m.nodes.any (fun r => !(m.heap r).deadOrLeft && (m.heap r).name ≠ m.config.name)

/-- What a call has committed: its incarnation, the channel that it waits on, whether there
    were peers, how many messages `GetBroadcasts` had returned by then, and which version of
    the metadata it announces. -/
structure Commit where
  incarnation : UInt32
  channel : Nat
  hasPeers : Bool
  since : Nat
  version : Nat
deriving DecidableEq,Repr

/-- A call. A leave that finds itself committed by another call has no commit of its own. -/
inductive Call where
  | idle
  | started (version : Nat)
  | fetched (metadata : Slice) (version : Nat)
  | waiting (c : Commit)
  | confirmed (c : Option Commit)
  | returned (c : Option Commit)
  | failed
deriving DecidableEq,Repr

/-- An instance with the calls made on it. `notified` tells which channels hold a token.
    No code reads the rest: `metadata` is every value of the delegate's metadata, of which
    `version` is the current one, `committed` is the version that was committed last, and
    `followed` tells whether a call was started since the last change. -/
structure State where
  g : Gossiper
  notified : Nat → Bool := fun _ => false
  call : Nat → Call := fun _ => .idle
  metadata : Nat → Slice
  version : Nat := 0
  committed : Nat := 0
  followed : Bool := true

/-- The channel that the message at a place of the log signals. -/
def notify (g : Gossiper) (r : Nat) : Option Nat := g.queued[r]?.bind (fun b => b.notify)

namespace State

def moveTo (s : State) (k : Nat) (c : Call) : State := { s with call := update s.call k c }

/-- The instance goes on to `g`: each call of `Finished` leaves a token in its channel. -/
def advance (s : State) (g : Gossiper) : State :=
  { s with
    g := g
    notified := fun c => s.notified c || (g.finished.drop s.g.finished.length).any (fun f => notify g f.1 = some c) }

end State

/-- The channel of an update; that of the leaves is made with the instance. -/
def notifyCh (m : Memberlist) (k : Nat) : Nat := m.leaveBroadcast + 1 + k

inductive Act where
  | change (answer : Slice)
  | start (k : Nat)
  | fetch (k : Nat)
  | update (k : Nat) (receipt : Option Nat) (env : Env) (draws : Nat → UInt64)
  | leave (k : Nat) (receipt : Option Nat) (env : Env) (draws : Nat → UInt64)
  | receive (op : Op) (draws : Nat → UInt64)
  | getBroadcasts (overhead limit transmitLimit : Int) (draws : Nat → UInt64)
  | confirm (k : Nat)
  | finish (k : Nat)
  | abandon (k : Nat)

/-- The critical sections that are not those of a call. -/
def Foreign : Op → Prop
  | .update .. => False
  | .leave .. => False
  | _ => True

instance : ∀ op, Decidable (Foreign op)
  | .update .. | .leave .. => instDecidableFalse
  | .alive .. | .suspect .. | .dead .. | .merge .. | .expire .. | .reset .. => instDecidableTrue

/-- What an act does. One that is not possible does nothing. -/
def step (s : State) : Act → State
  | .change answer =>
    { s with metadata := update s.metadata (s.version + 1) answer, version := s.version + 1, followed := false }
  | .start k =>
    if s.call k = .idle then
      { s.moveTo k (if s.g.m.shutdown then .failed else .started s.version) with followed := true }
    else s
  | .fetch k =>
    match s.call k with
    | .started _ =>
      match delegateMeta s.g.m.config (s.metadata s.version) with
      | .error _ => s.moveTo k .failed
      | .ok metadata => s.moveTo k (.fetched metadata s.version)
    | _ => s
  | .update k receipt env draws =>
    match s.call k with
    | .fetched metadata version =>
      match updateNodeLocked s.g.m metadata (some (notifyCh s.g.m k)) receipt env with
      | .error _ => s.moveTo k .failed
      | .ok m =>
        { (s.advance (commit s.g m draws)).moveTo k (.waiting {
            incarnation := (s.g.m.incarnation.add 1).value, channel := notifyCh s.g.m k, hasPeers := anyAliveLocked m,
            since := s.g.returned.length, version := version }) with
          committed := version }
    | _ => s
  | .leave k receipt env draws =>
    if s.call k = .idle then
      if s.g.m.shutdown then s.moveTo k .failed
      else if s.g.m.leave then s.moveTo k (.confirmed none)
      else match leaveLocked s.g.m receipt env.now with
        | .error _ => s.moveTo k .failed
        | .ok m =>
          (s.advance (commit s.g m draws)).moveTo k (.waiting {
            incarnation := ((localEntry s.g.m).map (fun me => me.incarnation)).getD 0,
            channel := s.g.m.leaveBroadcast, hasPeers := anyAliveLocked m, since := s.g.returned.length,
            version := s.committed })
    else s
  | .receive op draws => if Foreign op then s.advance (commit s.g (apply s.g.m op) draws) else s
  | .getBroadcasts overhead limit transmitLimit draws =>
    s.advance (Gossip.getBroadcasts s.g overhead limit transmitLimit draws)
  | .confirm k =>
    match s.call k with
    | .waiting c =>
      if c.hasPeers = false then s.moveTo k (.confirmed (some c))
      else if s.notified c.channel then
        { s.moveTo k (.confirmed (some c)) with notified := update s.notified c.channel false }
      else s
    | _ => s
  | .finish k =>
    match s.call k with
    | .confirmed c => s.moveTo k (.returned c)
    | _ => s
  | .abandon k =>
    match s.call k with
    | .idle => s
    | .returned _ => s
    | .failed => s
    | _ => s.moveTo k .failed

/-- An instance after `setAlive`, whose delegate answers `answer`. -/
def initial (m : Memberlist) (draws : Nat → UInt64) (answer : Slice) : State where
  g := commit (created m.config) m draws
  metadata := fun _ => answer

/-- A message about the local node with the incarnation of the commit, or a later one, was
    returned by `GetBroadcasts` since. -/
def Handed (g : Gossiper) (c : Commit) : Prop :=
  ∃ j r b, c.since ≤ j ∧ g.returned[j]? = some r ∧ g.queued[r]? = some b ∧ b.msg.node = g.m.config.name ∧
    c.incarnation ≤ b.msg.incarnation

/-- Whoever waits for a message is told when it has been returned. -/
structure Told (g : Gossiper) : Prop where
  sent : ∀ e ∈ g.entries, 0 < e.transmits → e.ref ∈ g.returned
  told : ∀ f ∈ g.finished, notify g f.1 ≠ none → f.1 ∈ g.returned
  ended : ∀ f ∈ g.finished, f.1 < g.queued.length
  known : ∀ r ∈ g.returned, r < g.queued.length

section
variable {g : Gossiper}

theorem ref_lt (inv : Gossip.Inv g) {e : Entry} (member : e ∈ g.entries) : e.ref < g.queued.length := by
  obtain ⟨b,place,-⟩ := inv.logged e member
  exact (List.getElem?_eq_some_iff.mp place).1

theorem notify_append {g' : Gossiper} {new : List State.Broadcast} (log : g'.queued = g.queued ++ new) {r : Nat}
    (inside : r < g.queued.length) : notify g' r = notify g r := by
  rw [notify,log,List.getElem?_append_left inside,notify]

theorem told_queueBroadcast (inv : Gossip.Inv g) (told : Told g) {b : State.Broadcast} (draws : Nat → UInt64)
    (sent : ∀ e ∈ g.entries, b.name ≠ [] → e.b.name = b.name → notify g e.ref ≠ none → 0 < e.transmits) :
    Told (queueBroadcast draws g b) where
  sent e member positive := by
    rw [returned_queueBroadcast]
    rcases mem_queueBroadcast.mp member with rfl | ⟨old,-⟩
    · exact absurd positive (Nat.lt_irrefl 0)
    · exact told.sent e old positive
  told f member waited := by
    rw [finished_queueBroadcast] at member
    rw [returned_queueBroadcast]
    rcases List.mem_append.mp member with old | new
    · rw [notify_append rfl (told.ended f old)] at waited
      exact told.told f old waited
    · obtain ⟨e,replaced,rfl⟩ := List.mem_map.mp new
      obtain ⟨queued,same⟩ := List.mem_filter.mp replaced
      have names : b.name ≠ [] ∧ e.b.name = b.name := of_decide_eq_true same
      rw [notify_append rfl (ref_lt inv queued)] at waited
      exact told.sent e queued (sent e queued names.1 names.2 waited)
  ended f member := by
    rw [finished_queueBroadcast] at member
    have longer : g.queued.length ≤ (queueBroadcast draws g b).queued.length := by simp [queueBroadcast]
    refine Nat.lt_of_lt_of_le ?_ longer
    rcases List.mem_append.mp member with old | new
    · exact told.ended f old
    · obtain ⟨e,replaced,rfl⟩ := List.mem_map.mp new
      exact ref_lt inv (List.mem_filter.mp replaced).1
  known r member := by
    rw [returned_queueBroadcast] at member
    have longer : g.queued.length ≤ (queueBroadcast draws g b).queued.length := by simp [queueBroadcast]
    exact Nat.lt_of_lt_of_le (told.known r member) longer

theorem told_getBroadcasts (inv : Gossip.Inv g) (told : Told g) (overhead limit transmitLimit : Int)
    (draws : Nat → UInt64) : Told (Gossip.getBroadcasts g overhead limit transmitLimit draws) where
  sent e member positive := by
    rw [returned_getBroadcasts]
    rcases mem_getBroadcasts member with old | ⟨e₀,-,rfl,taken⟩
    · exact List.mem_append_left _ (told.sent e old positive)
    · exact List.mem_append_right _ (List.mem_map.mpr ⟨e₀,taken,rfl⟩)
  told f member waited := by
    rw [finished_getBroadcasts] at member
    rw [returned_getBroadcasts]
    rcases List.mem_append.mp member with old | new
    · exact List.mem_append_left _ (told.told f old waited)
    · obtain ⟨e,limited,rfl⟩ := List.mem_map.mp new
      exact List.mem_append_right _ (List.mem_map.mpr ⟨e,(List.mem_filter.mp limited).1,rfl⟩)
  ended f member := by
    rw [finished_getBroadcasts] at member
    rcases List.mem_append.mp member with old | new
    · exact told.ended f old
    · obtain ⟨e,limited,rfl⟩ := List.mem_map.mp new
      exact ref_lt inv ((pick_mem overhead limit).mpr (.inl (List.mem_filter.mp limited).1))
  known r member := by
    rw [returned_getBroadcasts] at member
    rcases List.mem_append.mp member with old | new
    · exact told.known r old
    · obtain ⟨e,taken,rfl⟩ := List.mem_map.mp new
      exact ref_lt inv ((pick_mem overhead limit).mpr (.inl taken))

end

/-- The channel that the message of a section signals. -/
def signals (m : Memberlist) : Op → Option Nat
  | .update _ notify _ _ => notify
  | .leave .. => some m.leaveBroadcast
  | _ => none

/-- A section that queues a message under the local name: one of a lifecycle call, or a
    refutation where the name is the text of the address. -/
def Competes (m : Memberlist) : Op → Prop
  | .update .. => True
  | .leave .. => True
  | op => Accuses m op ∧ ∃ me ∈ localEntry m, ipString (bytes me.addr) = m.config.name

instance (m : Memberlist) : ∀ op, Decidable (Competes m op)
  | .update .. | .leave .. => instDecidableTrue
  | .alive .. | .suspect .. | .dead .. | .merge .. | .expire .. | .reset .. =>
    inferInstanceAs (Decidable (_ ∧ ∃ _ ∈ _, _))

/-- No message under the local name that a call has queued has still to be sent. It does not
    matter whether the call still waits for it: it may have had no peers, or be cancelled. -/
def Clear (g : Gossiper) : Prop :=
  ∀ e ∈ g.entries, e.b.name = g.m.config.name → notify g e.ref ≠ none → 0 < e.transmits

instance (g : Gossiper) : Decidable (Clear g) := inferInstanceAs (Decidable (∀ _ ∈ _, _))

/-- What an instance and its queue keep, with new messages that signal `channel`. -/
structure Extends (g g' : Gossiper) (channel : Option Nat) : Prop where
  config : g'.m.config = g.m.config
  leaves : g'.m.leaveBroadcast = g.m.leaveBroadcast
  leave : g.m.leave = true → g'.m.leave = true
  queued : ∃ new, g'.queued = g.queued ++ new ∧ ∀ b ∈ new, b.notify = none ∨ b.notify = channel
  returned : g.returned <+: g'.returned

section
variable {m : Memberlist} {g : Gossiper} {op cause : Op} {b : State.Broadcast}

theorem local_absurd (inv : LocalInv m) {me : NodeState} (left : m.leave = true) (held : localEntry m = some me)
    (live : me.deadOrLeft = false) : False := by
  have isLeft := inv.gone left me held
  simp [NodeState.deadOrLeft,isLeft] at live

theorem sent_notify (inv : LocalInv m) (sent : Sent m op b) : b.notify = none ∨ b.notify = signals m op := by
  cases sent with
  | deadLocal _ left held live => exact (local_absurd inv left held live).elim
  | update => exact .inr rfl
  | leave => exact .inr rfl
  | _ => exact .inl rfl

/-- A message of a call is queued under the local name. -/
theorem sent_own (sent : Sent m op b) (waited : b.notify ≠ none) :
    b.name = m.config.name ∧ b.msg.node = m.config.name := by
  cases sent with
  | deadLocal isLocal => exact ⟨isLocal,isLocal⟩
  | update => exact ⟨rfl,rfl⟩
  | leave => exact ⟨rfl,rfl⟩
  | _ => exact absurd rfl waited

theorem sent_competes (inv : LocalInv m) (sent : Sent m op b) (here : b.name = m.config.name) : Competes m op := by
  cases sent with
  | alive remote => exact absurd here remote
  | @suspect s _ timed =>
    have isLocal : s.node = m.config.name := here
    exact absurd inv.unsuspected (isLocal ▸ timed isLocal)
  | dead remote => exact absurd here remote
  | deadLocal _ left held live => exact (local_absurd inv left held live).elim
  | @refute _ me _ accuses own =>
    have present : ∃ s, localEntry m = some s := by
      cases op with
      | alive a env =>
        obtain ⟨s,held,-⟩ := inv.present accuses.2.1
        exact ⟨s,held⟩
      | suspect s env =>
        obtain ⟨-,me,held,-⟩ := accuses
        exact ⟨me,held⟩
      | dead d env =>
        obtain ⟨-,-,me,held,-⟩ := accuses
        exact ⟨me,held⟩
      | _ => exact accuses.elim
    obtain ⟨s,held⟩ := present
    have text : ipString (bytes s.addr) = m.config.name := own s held ▸ here
    cases op with
    | alive a env => exact ⟨accuses,s,held,text⟩
    | suspect _ env => exact ⟨accuses,s,held,text⟩
    | dead d env => exact ⟨accuses,s,held,text⟩
    | _ => exact accuses.elim
  | update => trivial
  | leave => trivial

theorem told_section (inv : Gossip.Inv g) (locals : LocalInv g.m) (told : Told g)
    (own : ∀ b ∈ g.queued, b.notify ≠ none → b.name = g.m.config.name ∧ b.msg.node = g.m.config.name)
    (clear : ∀ cause ∈ resolve g.m op, Competes g.m cause → Clear g) (draws : Nat → UInt64) :
    Told (commit g (apply g.m op) draws) := by
  have moved : ∀ (m : Memberlist) (handed : m.broadcasts = []), Told { g with m := m, handed := handed } :=
    fun _ _ => ⟨told.sent,told.told,told.ended,told.known⟩
  rcases sends_apply inv.table g.handed op with nothing | ⟨cause,resolved,nothing | ⟨b,sent,kind⟩⟩
  · rw [commit_of_nil nothing]
    exact moved _ _
  · rw [commit_of_nil nothing]
    exact moved _ _
  · rw [commit_of_one sent]
    have table : TableWF { apply g.m op with broadcasts := [] } :=
      tableWF_of_same (m := apply g.m op) ⟨rfl,rfl,rfl,rfl,rfl⟩ (tableWF_apply inv.table op)
    refine told_queueBroadcast (inv_of_table inv table rfl) (moved _ _) draws ?_
    intro e member named same waited
    -- The entry that is replaced is of the local node, so the new message is too.
    obtain ⟨b₀,place,entry⟩ := inv.logged e member
    have waited₀ : b₀.notify ≠ none := by
      have here : notify g e.ref = b₀.notify := by rw [notify,place]; rfl
      exact here ▸ waited
    have name := (own b₀ (List.mem_of_getElem? place) waited₀).1
    have entryName : e.b.name = g.m.config.name := by
      rw [entry]
      exact name
    exact clear cause resolved (sent_competes locals kind (same.symm.trans entryName)) e member entryName waited

theorem leaveBroadcast_apply (wf : TableWF m) (op : Op) : (apply m op).leaveBroadcast = m.leaveBroadcast :=
  (apply_invariant (I := fun m' => m'.leaveBroadcast = m.leaveBroadcast)
    (fun _ held move => by rw [← held]; cases move <;> rfl) wf rfl op).2

theorem config_apply (wf : TableWF m) (op : Op) : (apply m op).config = m.config :=
  (apply_invariant (I := fun m' => m'.config = m.config) (fun _ held move => (config_move move).trans held) wf rfl op).2

theorem leave_mono (wf : TableWF m) (op : Op) (left : m.leave = true) : (apply m op).leave = true := by
  refine (apply_invariant (I := fun m => m.leave = true) (fun _ held move => ?_) wf left op).2
  rcases leave_move move with kept | ⟨set,-⟩
  · exact kept.trans held
  · exact set

theorem extends_section (inv : Gossip.Inv g) (locals : LocalInv g.m) {channel : Option Nat}
    (only : ∀ cause ∈ resolve g.m op, signals g.m cause = channel) (draws : Nat → UInt64) :
    Extends g (commit g (apply g.m op) draws) channel where
  config := by rw [commit_m]; exact config_apply inv.table op
  leaves := by rw [commit_m]; exact leaveBroadcast_apply inv.table op
  leave left := by rw [commit_m]; exact leave_mono inv.table op left
  queued := by
    refine ⟨_,commit_queued _,?_⟩
    intro b member
    rcases sends_apply inv.table g.handed op with nothing | ⟨cause,resolved,nothing | ⟨b',sent,kind⟩⟩
    · rw [nothing] at member
      cases member
    · rw [nothing] at member
      cases member
    · rw [sent] at member
      rw [List.mem_singleton.mp member,← only cause resolved]
      exact sent_notify locals kind
  returned := by
    have same : (commit g (apply g.m op) draws).returned = g.returned := commit_returned _
    exact same ▸ List.prefix_refl _

theorem extends_getBroadcasts (g : Gossiper) (overhead limit transmitLimit : Int) (draws : Nat → UInt64) :
    Extends g (Gossip.getBroadcasts g overhead limit transmitLimit draws) none where
  config := rfl
  leaves := rfl
  leave left := left
  queued := ⟨[],(List.append_nil _).symm,by simp⟩
  returned := by
    rw [returned_getBroadcasts]
    exact List.prefix_append ..

theorem localInv_section (inv : Gossip.Inv g) (locals : LocalInv g.m) (op : Op) (draws : Nat → UInt64) :
    LocalInv (commit g (apply g.m op) draws).m := by
  have moved := (apply_invariant localInv_move inv.table locals op).2
  rw [commit_m]
  exact ⟨moved.up,moved.present,moved.gone,moved.unsuspected⟩

theorem own_section (inv : Gossip.Inv g)
    (own : ∀ b ∈ g.queued, b.notify ≠ none → b.name = g.m.config.name ∧ b.msg.node = g.m.config.name) (op : Op)
    (draws : Nat → UInt64) :
    ∀ b ∈ (commit g (apply g.m op) draws).queued, b.notify ≠ none →
      b.name = (commit g (apply g.m op) draws).m.config.name ∧
        b.msg.node = (commit g (apply g.m op) draws).m.config.name := by
  intro b member waited
  rw [commit_m,show ({ apply g.m op with broadcasts := [] } : Memberlist).config = g.m.config from config_apply inv.table op]
  rw [commit_queued] at member
  rcases List.mem_append.mp member with old | new
  · exact own b old waited
  · rcases sends_apply inv.table g.handed op with nothing | ⟨cause,resolved,nothing | ⟨b',sent,kind⟩⟩
    · rw [nothing] at new
      cases new
    · rw [nothing] at new
      cases new
    · rw [sent] at new
      rw [List.mem_singleton.mp new] at waited ⊢
      exact sent_own kind waited

end

/-! ## The calls -/

/-- No message signals the channel yet. -/
def Fresh (g : Gossiper) (channel : Nat) : Prop := ∀ b ∈ g.queued, b.notify ≠ some channel

/-- Every message that signals the channel of a commit is one that the commit asks for, and
    was not returned before it. -/
def Announced (g : Gossiper) (c : Commit) : Prop :=
  c.since ≤ g.returned.length ∧
    ∀ r b, g.queued[r]? = some b → b.notify = some c.channel → b.msg.node = g.m.config.name ∧
      c.incarnation ≤ b.msg.incarnation ∧ ∀ j, g.returned[j]? = some r → c.since ≤ j

/-- What is known where a call is. -/
def Place (g : Gossiper) (k : Nat) : Call → Prop
  | .idle => Fresh g (notifyCh g.m k)
  | .started _ => Fresh g (notifyCh g.m k)
  | .fetched metadata _ => Fresh g (notifyCh g.m k) ∧ delegateMeta g.m.config metadata = .ok metadata
  | .waiting c => Announced g c ∧ (c.channel = notifyCh g.m k ∨ c.channel = g.m.leaveBroadcast ∧ g.m.leave = true)
  | .confirmed (some c) => c.hasPeers = true → Handed g c
  | .returned (some c) => c.hasPeers = true → Handed g c
  | _ => True

structure Inv (s : State) : Prop where
  gossip : Gossip.Inv s.g
  locals : LocalInv s.g.m
  told : Told s.g
  own : ∀ b ∈ s.g.queued, b.notify ≠ none → b.name = s.g.m.config.name ∧ b.msg.node = s.g.m.config.name
  token : ∀ c, s.notified c = true → ∃ f ∈ s.g.finished, notify s.g f.1 = some c
  leaving : s.g.m.leave = false → Fresh s.g s.g.m.leaveBroadcast
  place : ∀ k, Place s.g k (s.call k)

section
variable {g g' : Gossiper} {channel : Option Nat} {k : Nat} {s : State}

theorem notifyCh_ne_leave (m : Memberlist) (k : Nat) : notifyCh m k ≠ m.leaveBroadcast := by
  unfold notifyCh
  omega

theorem notifyCh_inj {m : Memberlist} {k k' : Nat} (same : notifyCh m k = notifyCh m k') : k = k' := by
  unfold notifyCh at same
  omega

theorem Extends.notifyCh (more : Extends g g' channel) (k : Nat) : notifyCh g'.m k = notifyCh g.m k := by
  rw [Updates.notifyCh,Updates.notifyCh,more.leaves]

theorem Extends.fresh (more : Extends g g' channel) {c : Nat} (other : channel ≠ some c) (fresh : Fresh g c) :
    Fresh g' c := by
  obtain ⟨new,log,signal⟩ := more.queued
  intro b member same
  rw [log] at member
  rcases List.mem_append.mp member with old | added
  · exact fresh b old same
  · rcases signal b added with none | here
    · rw [none] at same
      cases same
    · exact other (here.symm.trans same)

theorem Extends.unused (more : Extends g g' channel) (mine : channel ≠ some (Updates.notifyCh g.m k))
    (fresh : Fresh g (Updates.notifyCh g.m k)) : Fresh g' (Updates.notifyCh g'.m k) := by
  rw [more.notifyCh]
  exact more.fresh mine fresh

theorem Extends.place_old (more : Extends g g' channel) {r : Nat} {b : State.Broadcast} (place : g.queued[r]? = some b) :
    g'.queued[r]? = some b := by
  obtain ⟨new,log,-⟩ := more.queued
  rw [log,List.getElem?_append_left (List.getElem?_eq_some_iff.mp place).1]
  exact place

theorem Extends.handed (more : Extends g g' channel) {c : Commit} (handed : Handed g c) : Handed g' c := by
  obtain ⟨j,r,b,since,returned,place,node,newer⟩ := handed
  refine ⟨j,r,b,since,?_,more.place_old place,?_,newer⟩
  · obtain ⟨later,log⟩ := more.returned
    rw [← log,List.getElem?_append_left (List.getElem?_eq_some_iff.mp returned).1]
    exact returned
  · rw [more.config]
    exact node

theorem Extends.announced (more : Extends g g' channel) {c : Commit} (other : channel ≠ some c.channel)
    (announced : Announced g c) : Announced g' c := by
  obtain ⟨new,log,signal⟩ := more.queued
  obtain ⟨later,log'⟩ := more.returned
  refine ⟨?_,?_⟩
  · rw [← log',List.length_append]
    exact Nat.le_trans announced.1 (Nat.le_add_right ..)
  intro r b place same
  rw [more.config]
  rw [log] at place
  by_cases old : r < g.queued.length
  · rw [List.getElem?_append_left old] at place
    obtain ⟨node,newer,since⟩ := announced.2 r b place same
    refine ⟨node,newer,?_⟩
    intro j returned
    rw [← log'] at returned
    by_cases before : j < g.returned.length
    · rw [List.getElem?_append_left before] at returned
      exact since j returned
    · exact Nat.le_trans announced.1 (Nat.not_lt.mp before)
  · -- The new messages signal other channels.
    rw [List.getElem?_append_right (Nat.not_lt.mp old)] at place
    rcases signal b (List.mem_of_getElem? place) with none | here
    · rw [none] at same
      cases same
    · exact absurd (here.symm.trans same) other

/-- What is known of a call stays true where the new messages signal another channel. -/
theorem Extends.place (more : Extends g g' channel) {c : Call} (mine : channel ≠ some (Updates.notifyCh g.m k))
    (leaves : channel = some g.m.leaveBroadcast → g.m.leave = false) (place : Place g k c) : Place g' k c := by
  cases c with
  | idle => exact more.unused mine place
  | started v => exact more.unused mine place
  | fetched metadata v =>
    refine ⟨more.unused mine place.1,?_⟩
    rw [more.config]
    exact place.2
  | waiting c =>
    obtain ⟨announced,which⟩ := place
    refine ⟨more.announced ?_ announced,?_⟩
    · rcases which with same | ⟨same,left⟩
      · rw [same]
        exact mine
      · intro wrong
        rw [same] at wrong
        rw [leaves wrong] at left
        cases left
    · rw [more.notifyCh,more.leaves]
      exact which.imp id (fun here => ⟨here.1,more.leave here.2⟩)
  | confirmed c =>
    cases c with
    | none => trivial
    | some c => exact fun peers => more.handed (place peers)
  | returned c =>
    cases c with
    | none => trivial
    | some c => exact fun peers => more.handed (place peers)
  | failed => trivial

/-- The tokens after the instance has gone on. -/
theorem token_advance (inv : Inv s) (more : Extends s.g g channel) (grown : s.g.finished <+: g.finished) {c : Nat}
    (token : (s.advance g).notified c = true) : ∃ f ∈ g.finished, notify g f.1 = some c := by
  simp only [State.advance,Bool.or_eq_true,List.any_eq_true,decide_eq_true_eq] at token
  rcases token with old | ⟨f,member,signal⟩
  · obtain ⟨f,member,signal⟩ := inv.token c old
    obtain ⟨new,log,-⟩ := more.queued
    refine ⟨f,grown.subset member,?_⟩
    rw [notify_append log (inv.told.ended f member)]
    exact signal
  · exact ⟨f,List.mem_of_mem_drop member,signal⟩

theorem inv_at (inv : Inv s) {c : Call} (place : Place s.g k c) : Inv (s.moveTo k c) :=
  { inv with
    place k' := by
      by_cases same : k' = k
      · rw [same,show (s.moveTo k c).call k = c from update_self ..]
        exact place
      · rw [show (s.moveTo k c).call k' = s.call k' from update_of_ne same ..]
        exact inv.place k' }

/-- The critical section of a call, or of a message. -/
theorem inv_section (inv : Inv s) {op : Op} (only : ∀ cause ∈ resolve s.g.m op, signals s.g.m cause = channel)
    (clear : ∀ cause ∈ resolve s.g.m op, Competes s.g.m cause → Clear s.g)
    (leaving : (apply s.g.m op).leave = false → channel ≠ some s.g.m.leaveBroadcast) (draws : Nat → UInt64)
    (committed : Nat) {call : Nat → Call} (place : ∀ k, Place (commit s.g (apply s.g.m op) draws) k (call k)) :
    Inv { s.advance (commit s.g (apply s.g.m op) draws) with call := call, committed := committed } := by
  have more := extends_section inv.gossip inv.locals only draws
  exact {
    gossip := inv_commit inv.gossip (tableWF_apply inv.gossip.table op) draws
    locals := localInv_section inv.gossip inv.locals op draws
    told := told_section inv.gossip inv.locals inv.told inv.own clear draws
    own := own_section inv.gossip inv.own op draws
    token := fun c token => token_advance inv more (commit_finished _) token
    leaving := by
      intro staying
      have staying' : (apply s.g.m op).leave = false := by rw [State.advance,commit_m] at staying; exact staying
      have before : s.g.m.leave = false := by
        cases flag : s.g.m.leave with
        | false => rfl
        | true => rw [leave_mono inv.gossip.table op flag] at staying'; cases staying'
      rw [show (s.advance (commit s.g (apply s.g.m op) draws)).g = commit s.g (apply s.g.m op) draws from rfl,more.leaves]
      exact more.fresh (leaving staying') (inv.leaving before)
    place := place }

theorem foreign_cause {m : Memberlist} {op cause : Op} (foreign : Foreign op) (resolved : resolve m op = some cause) :
    Foreign cause := by
  rcases resolve_cases resolved with ⟨rfl,-⟩ | ⟨message,-⟩
  · exact foreign
  · cases cause with
    | update => exact message.elim
    | leave => exact message.elim
    | _ => trivial

theorem signals_foreign {m : Memberlist} {op : Op} (foreign : Foreign op) : signals m op = none := by
  cases op with
  | update => exact foreign.elim
  | leave => exact foreign.elim
  | _ => rfl

theorem inv_receive (inv : Inv s) {op : Op} (foreign : Foreign op)
    (clear : ∀ cause ∈ resolve s.g.m op, Competes s.g.m cause → Clear s.g) (draws : Nat → UInt64) :
    Inv (s.advance (commit s.g (apply s.g.m op) draws)) := by
  have only : ∀ cause ∈ resolve s.g.m op, signals s.g.m cause = none := 
    fun _ resolved => signals_foreign (foreign_cause foreign resolved)
  have more := extends_section inv.gossip inv.locals only draws
  exact inv_section inv only clear (fun _ => by simp) draws s.committed
    (fun k => more.place (by simp) (fun wrong => by cases wrong) (inv.place k))

theorem inv_getBroadcasts (inv : Inv s) (overhead limit transmitLimit : Int) (draws : Nat → UInt64) :
    Inv (s.advance (Gossip.getBroadcasts s.g overhead limit transmitLimit draws)) := by
  have more := extends_getBroadcasts s.g overhead limit transmitLimit draws
  exact { inv with
    gossip := Gossip.inv_getBroadcasts inv.gossip ..
    told := told_getBroadcasts inv.gossip inv.told ..
    token := by
      intro c token
      refine token_advance inv more ?_ token
      rw [finished_getBroadcasts]
      exact List.prefix_append ..
    place := fun k => more.place (by simp) (fun wrong => by cases wrong) (inv.place k) }

/-- A section whose messages all signal a new channel announces what it commits. -/
theorem announced_section (told : Told s.g) {op : Op} {c : Commit} (fresh : Fresh s.g c.channel)
    (since : c.since = s.g.returned.length) (config : (apply s.g.m op).config = s.g.m.config)
    (messages : ∀ b ∈ (apply s.g.m op).broadcasts, b.msg.node = s.g.m.config.name ∧ c.incarnation ≤ b.msg.incarnation)
    (draws : Nat → UInt64) : Announced (commit s.g (apply s.g.m op) draws) c := by
  unfold Announced
  rw [commit_returned,commit_queued,commit_m]
  refine ⟨Nat.le_of_eq since,?_⟩
  intro r b place signal
  by_cases old : r < s.g.queued.length
  · rw [List.getElem?_append_left old] at place
    exact absurd signal (fresh b (List.mem_of_getElem? place))
  · rw [List.getElem?_append_right (Nat.not_lt.mp old)] at place
    obtain ⟨node,newer⟩ := messages b (List.mem_of_getElem? place)
    refine ⟨config ▸ node,newer,?_⟩
    intro j returned
    exact absurd (told.known r (List.mem_of_getElem? returned)) old

theorem updateNodeLocked_apply {m m' : Memberlist} {metadata : Slice} {notify receipt : Option Nat} {env : Env}
    (up : m.shutdown = false) (given : delegateMeta m.config metadata = .ok metadata)
    (done : updateNodeLocked m metadata notify receipt env = .ok m') :
    apply m (.update metadata notify receipt env) = m' := by
  simp [apply,updateNodeContext,up,given,done,Except.toOption]

theorem update_messages {m : Memberlist} (wf : TableWF m) (idle : m.broadcasts = []) {answer : Slice}
    {notify receipt : Option Nat} {env : Env} {b : State.Broadcast}
    (member : b ∈ (apply m (.update answer notify receipt env)).broadcasts) :
    b.msg.node = m.config.name ∧ (m.incarnation.add 1).value ≤ b.msg.incarnation := by
  rcases sends_update idle (update_commits wf answer notify receipt env) with nothing | ⟨b',sent,kind⟩
  · rw [nothing] at member
    cases member
  · rw [sent] at member
    rw [List.mem_singleton.mp member]
    cases kind with
    | update => exact ⟨rfl,UInt32.le_refl _⟩
    | refute accuses => exact accuses.elim

theorem inv_update (inv : Inv s) {metadata : Slice} {version : Nat} (here : s.call k = .fetched metadata version)
    {receipt : Option Nat} {env : Env} {m : Memberlist}
    (done : updateNodeLocked s.g.m metadata (some (notifyCh s.g.m k)) receipt env = .ok m) (clear : Clear s.g)
    (draws : Nat → UInt64) {c : Commit} (incarnation : c.incarnation = (s.g.m.incarnation.add 1).value)
    (channel : c.channel = notifyCh s.g.m k) (since : c.since = s.g.returned.length) (committed : Nat) :
    Inv { (s.advance (commit s.g m draws)).moveTo k (.waiting c) with committed := committed } := by
  have place := inv.place k
  rw [here] at place
  obtain ⟨fresh,given⟩ := place
  rw [← updateNodeLocked_apply inv.locals.up given done]
  have only : ∀ cause ∈ resolve s.g.m (.update metadata (some (notifyCh s.g.m k)) receipt env),
      signals s.g.m cause = some (notifyCh s.g.m k) := by
    intro cause resolved
    cases resolved
    rfl
  have more := extends_section inv.gossip inv.locals only draws
  refine inv_section inv only (fun _ _ _ => clear) ?_ draws committed ?_
  · intro _ wrong
    exact notifyCh_ne_leave _ _ (Option.some.inj wrong)
  · intro k'
    by_cases same : k' = k
    · rw [same]
      simp only [State.moveTo,update_self]
      refine ⟨?_,.inl (channel.trans (more.notifyCh k).symm)⟩
      refine announced_section inv.told (channel ▸ fresh) since (config_apply inv.gossip.table _) ?_ draws
      intro b member
      rw [incarnation]
      exact update_messages inv.gossip.table s.g.handed member
    · simp only [State.moveTo]
      rw [update_of_ne same]
      refine more.place ?_ ?_ (inv.place k')
      · intro wrong
        exact same (notifyCh_inj (Option.some.inj wrong)).symm
      · intro wrong
        exact absurd (Option.some.inj wrong) (notifyCh_ne_leave _ _)

theorem leaveLocked_apply {m m' : Memberlist} {receipt : Option Nat} {env : Env} (up : m.shutdown = false)
    (staying : m.leave = false) (done : leaveLocked m receipt env.now = .ok m') :
    apply m (.leave receipt env) = m' := by
  simp [apply,leaveContext,up,staying,done,Except.toOption]

theorem leave_messages {m : Memberlist} (wf : TableWF m) (idle : m.broadcasts = []) {receipt : Option Nat} {env : Env}
    {b : State.Broadcast} (member : b ∈ (apply m (.leave receipt env)).broadcasts) :
    b.msg.node = m.config.name ∧
      ((localEntry m).map (fun me => me.incarnation)).getD 0 ≤ b.msg.incarnation := by
  rcases sends_leave idle (leave_commits wf receipt env) with nothing | ⟨b',sent,kind⟩
  · rw [nothing] at member
    cases member
  · rw [sent] at member
    rw [List.mem_singleton.mp member]
    cases kind with
    | leave found =>
      refine ⟨rfl,?_⟩
      rw [show localEntry m = _ from entry_eq found]
      exact UInt32.le_refl _
    | refute accuses => exact accuses.elim

theorem inv_leave (inv : Inv s) {receipt : Option Nat} {env : Env} {m : Memberlist}
    (staying : s.g.m.leave = false) (done : leaveLocked s.g.m receipt env.now = .ok m) (clear : Clear s.g)
    (draws : Nat → UInt64) {c : Commit}
    (incarnation : c.incarnation = ((localEntry s.g.m).map (fun me => me.incarnation)).getD 0)
    (channel : c.channel = s.g.m.leaveBroadcast) (since : c.since = s.g.returned.length) :
    Inv ((s.advance (commit s.g m draws)).moveTo k (.waiting c)) := by
  rw [← leaveLocked_apply inv.locals.up staying done]
  have only : ∀ cause ∈ resolve s.g.m (.leave receipt env), signals s.g.m cause = some s.g.m.leaveBroadcast := by
    intro cause resolved
    cases resolved
    rfl
  have more := extends_section inv.gossip inv.locals only draws
  have left : (apply s.g.m (.leave receipt env)).leave = true := leave_apply inv.gossip.table inv.locals receipt env
  refine inv_section inv only (fun _ _ _ => clear) ?_ draws s.committed ?_
  · intro still
    rw [left] at still
    cases still
  · intro k'
    by_cases same : k' = k
    · rw [same]
      simp only [update_self]
      refine ⟨?_,.inr ⟨channel.trans more.leaves.symm,?_⟩⟩
      · refine announced_section inv.told (channel ▸ inv.leaving staying) since (config_apply inv.gossip.table _) ?_ draws
        intro b member
        rw [incarnation]
        exact leave_messages inv.gossip.table s.g.handed member
      · rw [commit_m]
        exact left
    · rw [update_of_ne same]
      refine more.place ?_ (fun _ => staying) (inv.place k')
      intro wrong
      exact notifyCh_ne_leave _ _ (Option.some.inj wrong).symm

/-- A call that its channel tells has been heard. -/
theorem handed_of_token (inv : Inv s) {c : Commit} (here : s.call k = .waiting c) (token : s.notified c.channel = true) :
    Handed s.g c := by
  have place := inv.place k
  rw [here] at place
  obtain ⟨f,member,signal⟩ := inv.token c.channel token
  have returned := inv.told.told f member (by rw [signal]; simp)
  obtain ⟨b,queued,notifies⟩ := Option.bind_eq_some_iff.mp signal
  obtain ⟨node,newer,since⟩ := place.1.2 f.1 b queued notifies
  obtain ⟨j,inside,here'⟩ := List.mem_iff_getElem.mp returned
  have shown : s.g.returned[j]? = some f.1 := List.getElem?_eq_some_iff.mpr ⟨inside,here'⟩
  exact ⟨j,f.1,b,since j shown,shown,queued,node,newer⟩

/-- What competes with a message that a call has queued comes when that message was sent. -/
def Unraced (s : State) : Act → Prop
  | .update .. => s.g.m.leave = false → Clear s.g
  | .leave .. => s.g.m.leave = false → Clear s.g
  | .receive op _ => ∀ cause ∈ resolve s.g.m op, Competes s.g.m cause → Clear s.g
  | _ => True

instance (s : State) : ∀ act, Decidable (Unraced s act)
  | .update .. | .leave .. => inferInstanceAs (Decidable (_ → _))
  | .receive .. => inferInstanceAs (Decidable (∀ _ ∈ _, _ → _))
  | .change .. | .start .. | .fetch .. | .getBroadcasts .. | .confirm .. | .finish .. | .abandon .. => instDecidableTrue

theorem updateNodeLocked_staying {m m' : Memberlist} {metadata : Slice} {notify receipt : Option Nat} {env : Env}
    (done : updateNodeLocked m metadata notify receipt env = .ok m') : m.leave = false := by
  cases flag : m.leave with
  | false => rfl
  | true =>
    simp only [updateNodeLocked,flag,if_true] at done
    split_ifs at done

theorem delegateMeta_again {conf : Config} {answer metadata : Slice} (given : delegateMeta conf answer = .ok metadata) :
    delegateMeta conf metadata = .ok metadata := by
  unfold delegateMeta at given ⊢
  split_ifs at given ⊢ with none large <;> first | rfl | (cases given; first | rfl | contradiction)

theorem inv_confirm (inv : Inv s) {c : Commit} (here : s.call k = .waiting c) (token : s.notified c.channel = true) :
    Inv { s.moveTo k (.confirmed (some c)) with notified := update s.notified c.channel false } := by
  have moved : Inv (s.moveTo k (.confirmed (some c))) := inv_at inv (fun _ => handed_of_token inv here token)
  refine { moved with token := fun c' token' => ?_ }
  change update s.notified c.channel false c' = true at token'
  by_cases same : c' = c.channel
  · rw [same,update_self] at token'
    cases token'
  · rw [update_of_ne same] at token'
    exact inv.token c' token'

theorem inv_step (s : State) (act : Act) (inv : Inv s) (unraced : Unraced s act) : Inv (step s act) := by
  have place : ∀ k c, s.call k = c → Place s.g k c := fun k c here => here ▸ inv.place k
  cases act with
  | change answer => exact { inv with }
  | start k =>
    simp only [step]
    by_cases idle : s.call k = .idle
    · rw [if_pos idle]
      have moved : Inv (s.moveTo k (if s.g.m.shutdown then .failed else .started s.version)) := by
        refine inv_at inv ?_
        rw [inv.locals.up]
        exact place k .idle idle
      exact { moved with }
    · rw [if_neg idle]
      exact inv
  | fetch k =>
    simp only [step]
    cases here : s.call k with
    | started v =>
      simp only
      cases given : delegateMeta s.g.m.config (s.metadata s.version) with
      | error err => exact inv_at inv trivial
      | ok metadata => exact inv_at inv ⟨place k _ here,delegateMeta_again given⟩
    | _ => exact inv
  | update k receipt env draws =>
    simp only [step]
    cases here : s.call k with
    | fetched metadata version =>
      simp only
      cases done : updateNodeLocked s.g.m metadata (some (notifyCh s.g.m k)) receipt env with
      | error err => exact inv_at inv trivial
      | ok m => exact inv_update inv here done (unraced (updateNodeLocked_staying done)) draws rfl rfl rfl version
    | _ => exact inv
  | leave k receipt env draws =>
    simp only [step]
    split_ifs with idle down left
    · exact inv_at inv trivial
    · exact inv_at inv trivial
    · cases done : leaveLocked s.g.m receipt env.now with
      | error err => exact inv_at inv trivial
      | ok m =>
        have staying : s.g.m.leave = false := by simpa using left
        exact inv_leave inv staying done (unraced staying) draws rfl rfl rfl
    · exact inv
  | receive op draws =>
    simp only [step]
    split_ifs with foreign
    · exact inv_receive inv foreign unraced draws
    · exact inv
  | getBroadcasts => exact inv_getBroadcasts inv ..
  | confirm k =>
    simp only [step]
    cases here : s.call k with
    | waiting c =>
      simp only
      split_ifs with alone token
      · refine inv_at inv (fun peers => ?_)
        rw [alone] at peers
        cases peers
      · exact inv_confirm inv here token
      · exact inv
    | _ => exact inv
  | finish k =>
    simp only [step]
    cases here : s.call k with
    | confirmed c =>
      refine inv_at inv ?_
      have known := place k _ here
      cases c with
      | none => trivial
      | some c => exact known
    | _ => exact inv
  | abandon k =>
    simp only [step]
    cases here : s.call k with
    | idle => exact inv
    | returned c => exact inv
    | failed => exact inv
    | _ => exact inv_at inv trivial

/-- `setAlive` has queued one message, that nobody waits for. -/
theorem started_broadcasts {m : Memberlist} (started : Started m) :
    ∃ a, m.broadcasts = [⟨m.config.name,.alive a,none⟩] ∧ a.node = m.config.name ∧
      ∃ me, localEntry m = some me ∧ me.metadata = a.metadata ∧ me.incarnation = m.incarnation.value := by
  obtain ⟨conf,addr,port,metadata,receipt,offset,now,-,rfl⟩ := started_eq started
  refine ⟨(firstDraw conf addr port metadata).2,encodeBroadcastNotify_nil ..,rfl,
    firstRecord conf addr port metadata now,?_,rfl,rfl⟩
  have added := tableWF_addNode (firstDraw_wf conf addr port metadata)
    (s := newRecord (firstDraw conf addr port metadata).2 conf.versions) rfl offset
  have applied := table_applyAlive added (firstDraw conf addr port metadata).2 (addNode_nodeMap ..) conf.versions none
    receipt now
  refine (local_at applied.2 rfl rfl).trans ?_
  rw [addNode_heap]
  rfl

theorem inv_initial {m : Memberlist} (started : Started m) (draws : Nat → UInt64) (answer : Slice) :
    Inv (initial m draws answer) := by
  obtain ⟨wf,-⟩ := started_table started
  have locals := localInv_started started
  obtain ⟨a,sent,-⟩ := started_broadcasts started
  have queued : (initial m draws answer).g.queued = [⟨m.config.name,.alive a,none⟩] := by
    rw [initial,commit_queued,sent]
    rfl
  have quiet : ∀ b ∈ (initial m draws answer).g.queued, b.notify = none := by
    intro b member
    rw [queued] at member
    rw [List.mem_singleton.mp member]
  have empty : Told { created m.config with m := { m with broadcasts := [] }, handed := rfl } := by
    constructor
    · intro e member
      cases member
    · intro f member
      cases member
    · intro f member
      cases member
    · intro r member
      cases member
  have cleared : TableWF { m with broadcasts := [] } := tableWF_of_same (m := m) ⟨rfl,rfl,rfl,rfl,rfl⟩ wf
  exact {
    gossip := inv_commit (inv_created m.config) wf draws
    locals := by
      rw [initial,commit_m]
      exact ⟨locals.up,locals.present,locals.gone,locals.unsuspected⟩
    told := by
      rw [initial,commit_of_one sent]
      refine told_queueBroadcast (inv_of_table (inv_created m.config) cleared rfl) empty draws ?_
      intro e member
      cases member
    own := fun b member waited => absurd (quiet b member) waited
    token := by
      intro c token
      cases token
    leaving := by
      intro _ b member
      rw [quiet b member]
      simp
    place := by
      intro k b member
      rw [quiet b member]
      simp }

end

/-- In every run in which the calls, and the refutations under the local name, commit only
    when no message that a call has queued, whether or not that call still waits, has still to
    be sent: a call that returns without an error and had peers has been heard. A message
    about the local node with its incarnation, or a later one, was returned by
    `GetBroadcasts` after its commit. -/
theorem confirmed_handed {m : Memberlist} (started : Started m) (draws : Nat → UInt64) (answer : Slice)
    (acts : List Act) (unraced : Along step Unraced (initial m draws answer) acts) (k : Nat) (c : Commit)
    (returned : (run step (initial m draws answer) acts).call k = .returned (some c)) (peers : c.hasPeers = true) :
    Handed (run step (initial m draws answer) acts).g c := by
  have inv := along_keeps (I := Inv) inv_step (inv_initial started draws answer) unraced
  have place := inv.place k
  rw [returned] at place
  exact place peers

section
/-- The node `a` hears of `b`, and updates. -/
def updating (k : Nat) : List Act := [.start k,.fetch k,.update k none {} (fun _ => 0)]

def hears : Act :=
  .receive (.alive ⟨1,[98],some [10,0,0,2],7946,none,restarting.buildVsnArray⟩ {}) (fun _ => 0)

/-- A second update replaces the message of the first, which returns although nothing has been sent. -/
theorem confirmed_unsent :
    Started restarted ∧
      let s := run step (initial restarted (fun _ => 0) none) (hears :: updating 0 ++ updating 1 ++ [.confirm 0,.finish 0])
      ∃ c, s.call 0 = .returned (some c) ∧ c.hasPeers = true ∧ ¬ Handed s.g c := by
  refine ⟨restarted_started,⟨2,1,true,0,0⟩,by decide,rfl,?_⟩
  rintro ⟨j,r,b,-,returned,-⟩
  have none : (run step (initial restarted (fun _ => 0) none)
    (hears :: updating 0 ++ updating 1 ++ [.confirm 0,.finish 0])).g.returned = [] := by decide
  rw [none] at returned
  cases returned

/-- An update that is sent before it returns. -/
theorem confirmed_handed_sent :
    let acts := hears :: updating 0 ++ [.getBroadcasts 2 1400 1 (fun _ => 0),.confirm 0,.finish 0]
    Along step Unraced (initial restarted (fun _ => 0) none) acts ∧
      Handed (run step (initial restarted (fun _ => 0) none) acts).g ⟨2,1,true,0,0⟩ :=
  ⟨by decide,confirmed_handed restarted_started (fun _ => 0) none _ (by decide) 0 ⟨2,1,true,0,0⟩ (by decide) rfl⟩

end

end Mori.Updates
