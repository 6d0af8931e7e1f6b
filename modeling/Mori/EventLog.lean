import Mori.LocalNode
import Mori.Replica

/-!
The committed events as a replica of the membership. For each name the join,
update and leave events form whole episodes of which the last may still run, and
an application that replays them holds exactly the nodes that `Members` returns,
with their metadata, ports and addresses.
-/
namespace Mori.EventLog
open Mori.Net Mori.Protocol Mori.State Mori.Table Mori.Moves Mori.LocalNode Mori.Replica
open Computability
set_option linter.unusedSimpArgs false

/-- What a committed event tells an application; conflicts change nothing. -/
def change (e : QueuedEvent) : Option (Bytes × Change Node) :=
  match e.kind with
  | .join => some (e.node.name,.join e.node)
  | .update => some (e.node.name,.update e.node)
  | .leave => some (e.node.name,.leave)
  | .conflict => none

def changes (events : List QueuedEvent) : List (Bytes × Change Node) := events.filterMap change

theorem changes_append (events emitted : List QueuedEvent) :
    changes (events ++ emitted) = changes events ++ changes emitted :=
  List.filterMap_append

/-- A reported node and a record with the same metadata, port and address. -/
def SameContent (x : Node) (s : NodeState) : Prop :=
  bytes x.metadata = bytes s.metadata ∧ x.port = s.port ∧ ipEqual (bytes x.addr) (bytes s.addr) = true

theorem sameContent_self (s : NodeState) : SameContent s.toNode s := ⟨rfl,rfl,ipEqual_refl _⟩

/-- A record counts as a member unless it is dead or left. -/
def live (held : Option NodeState) : Option NodeState := held.filter (fun s => !s.deadOrLeft)

theorem live_of_live {s : NodeState} (isLive : s.deadOrLeft = false) : live (some s) = some s := by
  simp [live,isLive]
theorem live_of_dead {s : NodeState} (isDead : s.deadOrLeft = true) : live (some s) = none := by
  simp [live,isDead]

/-- The log mirrors the live records. -/
structure EventInv (m : Memberlist) : Prop where
  asked : m.config.events = true
  mirrors : ∀ n, Mirrors SameContent (changes m.events) n (live (entry m n))

section
variable {m m' : Memberlist} {n : Bytes}

theorem eventInv_frame (inv : EventInv m) (config : m'.config = m.config) (records : entry m' = entry m)
    (log : changes m'.events = changes m.events) : EventInv m' where
  asked := by rw [config]; exact inv.asked
  mirrors := by rw [records,log]; exact inv.mirrors

/-- An update of the record under one name, and at most one event about it. -/
theorem eventInv_write (inv : EventInv m) {s : NodeState} (config : m'.config = m.config)
    (records : entry m' = Function.update (entry m) n (some s))
    (emitted : changes m'.events = changes m.events ∨ ∃ c, changes m'.events = changes m.events ++ [(n,c)])
    (here : Mirrors SameContent (changes m'.events) n (live (some s))) : EventInv m' where
  asked := by rw [config]; exact inv.asked
  mirrors := by
    intro n'
    rw [records]
    by_cases same : n' = n
    · subst same
      rw [Function.update_self]
      exact here
    · rw [Function.update_of_ne same]
      rcases emitted with silent | ⟨c,emitted⟩
      · rw [silent]; exact inv.mirrors n'
      · rw [emitted]; exact mirrors_other (inv.mirrors n') same

end

section
variable {m : Memberlist} {r : Ref}

/-- An alive message makes a dead node join, and reports a live one where its
    metadata changed; a live one keeps its address. -/
theorem eventInv_applyAlive (wf : TableWF m) (inv : EventInv m) {a : Alive} (found : m.nodeMap a.node = some r)
    (agrees : (m.heap r).deadOrLeft = false → ¬ conflicts (m.heap r) a) (vsn : Versions)
    (notify receipt : Option Nat) (now : Time) : EventInv (applyAlive m r a vsn notify receipt now) := by
  have records := (table_applyAlive wf a found vsn notify receipt now).2
  have known := inv.mirrors a.node
  rw [entry_eq found] at known
  let new := aliveRecord (m.heap r) a vsn now
  have name : new.toNode.name = a.node := wf.named _ _ found
  have isLive : live (some new) = some new := live_of_live rfl
  have log : (applyAlive m r a vsn notify receipt now).events = m.events ++ aliveEvent m (m.heap r) new receipt := rfl
  by_cases wasDead : (m.heap r).deadOrLeft = true
  · -- The node joins.
    have joined : aliveEvent m (m.heap r) new receipt = [nextEvent m .join new.toNode none receipt] := by
      simp [aliveEvent,inv.asked,(deadOrLeft_iff _).mp wasDead]
    have emitted : changes (applyAlive m r a vsn notify receipt now).events =
        changes m.events ++ [(a.node,.join new.toNode)] := by
      rw [log,joined,changes_append]
      simp [changes,change,nextEvent,name]
    rw [live_of_dead wasDead] at known
    refine eventInv_write inv rfl records (.inr ⟨_,emitted⟩) ?_
    rw [emitted,isLive]
    exact mirrors_join known (sameContent_self new)
  · have wasLive : (m.heap r).deadOrLeft = false := by simpa using wasDead
    have alive : ¬ ((m.heap r).state = .dead ∨ (m.heap r).state = .left) := fun dead =>
      wasDead ((deadOrLeft_iff _).mpr dead)
    rw [live_of_live wasLive] at known
    by_cases same : bytesEqual (m.heap r).metadata new.metadata = true
    · have silent : changes (applyAlive m r a vsn notify receipt now).events = changes m.events := by
        rw [log,changes_append]
        simp [aliveEvent,inv.asked,alive,same,changes]
      refine eventInv_write inv rfl records (.inl silent) ?_
      rw [silent,isLive]
      refine mirrors_silent known ?_
      rintro x ⟨metadata,port,addr⟩
      have agreed : ipEqual (bytes (m.heap r).addr) (bytes a.addr) = true ∧ (m.heap r).port = a.port := by
        simpa [conflicts] using agrees wasLive
      exact ⟨metadata.trans ((bytesEqual_iff _ _).mp same),port.trans agreed.2,ipEqual_trans addr agreed.1⟩
    · have updated : aliveEvent m (m.heap r) new receipt = [nextEvent m .update new.toNode none receipt] := by
        simp [aliveEvent,inv.asked,alive,same]
      have emitted : changes (applyAlive m r a vsn notify receipt now).events =
          changes m.events ++ [(a.node,.update new.toNode)] := by
        rw [log,updated,changes_append]
        simp [changes,change,nextEvent,name]
      refine eventInv_write inv rfl records (.inr ⟨_,emitted⟩) ?_
      rw [emitted,isLive]
      exact mirrors_update known (sameContent_self new)

/-- A node that dies or leaves is reported once. -/
theorem eventInv_applyDead (wf : TableWF m) (inv : EventInv m) {d : Dead} (found : m.nodeMap d.node = some r)
    (wasLive : (m.heap r).deadOrLeft = false) (notify receipt : Option Nat) (now : Time) :
    EventInv (applyDead m r d notify receipt now) := by
  have known := inv.mirrors d.node
  rw [entry_eq found,live_of_live wasLive] at known
  have name : (deadRecord (m.heap r) d now).toNode.name = d.node := wf.named _ _ found
  have emitted : changes (applyDead m r d notify receipt now).events = changes m.events ++ [(d.node,.leave)] := by
    simp only [applyDead,changes_append,inv.asked,if_true]
    simp [changes,change,nextEvent,name]
  refine eventInv_write inv rfl (table_applyDead wf d found notify receipt now).2 (.inr ⟨_,emitted⟩) ?_
  rw [emitted,live_of_dead (deadRecord_dead _ d now)]
  exact mirrors_leave known

/-- A refutation reports nothing: it changes the incarnation only. -/
theorem eventInv_refuted {m' : Memberlist} {n : Bytes} (inv : EventInv m) (found : m.nodeMap n = some r)
    (config : m'.config = m.config) {accusedInc : UInt32}
    (records : entry m' = Function.update (entry m) n (some (refuted m (m.heap r) accusedInc)))
    (silent : changes m'.events = changes m.events) : EventInv m' := by
  refine eventInv_write inv config records (.inl silent) ?_
  have known := inv.mirrors n
  rw [entry_eq found] at known
  rw [silent]
  by_cases wasDead : (m.heap r).deadOrLeft = true
  · have isDead : (refuted m (m.heap r) accusedInc).deadOrLeft = true := wasDead
    rw [live_of_dead wasDead] at known
    rw [live_of_dead isDead]
    exact known
  · have wasLive : (m.heap r).deadOrLeft = false := by simpa using wasDead
    have isLive : (refuted m (m.heap r) accusedInc).deadOrLeft = false := wasLive
    rw [live_of_live wasLive] at known
    rw [live_of_live isLive]
    exact mirrors_silent known (fun _ related => related)

theorem eventInv_add (wf : TableWF m) (inv : EventInv m) {a : Alive} (absent : m.nodeMap a.node = none)
    (vsn : Versions) (offset : Nat) : EventInv (addNode m (newRecord a vsn) offset) := by
  refine eventInv_write inv rfl (entry_addNode wf (newRecord a vsn) offset) (.inl rfl) ?_
  have known := inv.mirrors a.node
  rw [entry_eq_none.mpr absent] at known
  exact known

theorem eventInv_reset (wf : TableWF m) (inv : EventInv m) (now : Time) (draws : Nat → Nat) :
    EventInv (resetNodes m now draws) where
  asked := inv.asked
  mirrors := by
    intro n
    -- A reaped record was dead already.
    have kept : live (entry (resetNodes m now draws) n) = live (entry m n) := by
      rw [entry_resetNodes now draws wf,live,live,Option.filter_filter]
      congr 1
      funext s
      cases isDead : s.deadOrLeft <;> simp [reaps,isDead]
    rw [kept]
    exact inv.mirrors n

end

theorem eventInv_move {m m' : Memberlist} {op : Op} (wf : TableWF m) (self : LocalInv m) (inv : EventInv m)
    (move : Move m op m') : EventInv m' := by
  cases move with
  | conflict =>
    refine eventInv_frame inv rfl rfl ?_
    simp [enqueueEventLocked,changes_append,changes,change,nextEvent]
  | add absent => exact eventInv_add wf inv absent _ _
  | @refuteAlive a env r found isLocal staying =>
    have here := local_of_found wf found isLocal
    refine eventInv_refuted inv found rfl (table_refuteAlive wf found none).2 ?_
    -- The local record is alive and keeps its metadata.
    obtain ⟨s,held,isAlive⟩ := self.present (staying here)
    rw [local_eq found here] at held
    cases held
    simp [refuteAlive,refute,clearTimer,enqueueEventLocked,changes_append,aliveEvent,inv.asked,isAlive,
      (bytesEqual_iff _ _).mpr,changes]
  | applyAlive found accepted remote fits =>
    refine eventInv_applyAlive wf inv found (fun wasLive => ?_) _ _ _ _
    rcases fits with ⟨agrees,-⟩ | ⟨-,-,old⟩
    · exact agrees
    · rcases old with left | ⟨dead,-⟩
      · simp [NodeState.deadOrLeft,left] at wasLive
      · simp [NodeState.deadOrLeft,dead] at wasLive
  | refuteSuspect found => exact eventInv_refuted inv found rfl (table_refute wf found _).2 rfl
  | @applySuspect s env r found remote isAlive =>
    have known := inv.mirrors s.node
    rw [entry_eq found,live_of_live (by simp [NodeState.deadOrLeft,isAlive])] at known
    refine eventInv_write inv rfl (table_applySuspect wf s found _).2 (.inl rfl) ?_
    rw [live_of_live rfl]
    exact mirrors_silent known (fun _ related => related)
  | refuteDead found => exact eventInv_refuted inv found rfl (table_refuteDead wf found _).2 rfl
  | applyDead found remote wasLive => exact eventInv_applyDead wf inv found wasLive _ _ _
  | reset => exact eventInv_reset wf inv _ _
  | @update _ metadata _ _ _ r _ found =>
    have wf' : TableWF { m with incarnation := m.incarnation.add 1 } :=
      tableWF_of_same (m := m) ⟨rfl,rfl,rfl,rfl,rfl⟩ wf
    refine eventInv_applyAlive wf' (eventInv_frame inv rfl rfl rfl) (a := ownAlive m r metadata) found
      (fun _ => ?_) _ _ _ _
    simp [conflicts,ownAlive,ipEqual_refl]
  | @leave receipt _ r found _ wasLive =>
    have wf' : TableWF { m with leaveReceipt := receipt, leave := true } :=
      tableWF_of_same (m := m) ⟨rfl,rfl,rfl,rfl,rfl⟩ wf
    exact eventInv_applyDead wf' (eventInv_frame inv rfl rfl rfl) (d := ownDead m r) found wasLive _ _ _
  | _ => exact eventInv_frame inv rfl rfl rfl

theorem eventInv_started {m : Memberlist} (started : Started m) (asked : m.config.events = true) : EventInv m := by
  obtain ⟨conf,addr,port,metadata,receipt,offset,now,-,rfl⟩ := started_eq started
  have wf := firstDraw_wf conf addr port metadata
  have empty : EventInv (firstDraw conf addr port metadata).1 := ⟨asked,fun n => mirrors_nil⟩
  have added := eventInv_add wf empty (a := (firstDraw conf addr port metadata).2) rfl conf.versions offset
  refine eventInv_applyAlive (tableWF_addNode wf rfl offset) added (addNode_nodeMap ..) (fun wasLive => ?_) _ _ _ _
  rw [addNode_heap] at wasLive
  cases wasLive

theorem eventInv_run {m : Memberlist} (started : Started m) (asked : m.config.events = true) (ops : List Op) :
    TableWF (run m ops) ∧ EventInv (run m ops) := by
  have kept := run_invariant (I := fun m => LocalInv m ∧ EventInv m)
    (fun wf held move => ⟨localInv_move wf held.1 move,eventInv_move wf held.1 held.2 move⟩)
    (started_table started).1 ⟨localInv_started started,eventInv_started started asked⟩ ops
  exact ⟨kept.1,kept.2.2⟩

/-- After every step of a run that starts with a `setAlive` at an address that `CIDRsAllowed`
    allows, the join, update and leave events of each name form whole episodes of which
    the last may lack its leave, and replaying the log gives the names that `Members` returns, each with
    the metadata, port and address of its node. -/
theorem event_log_replica {m₀ : Memberlist} (started : Started m₀) (asked : m₀.config.events = true) (ops : List Op) :
    let m := run m₀ ops
    (∀ n, word (changes m.events) n ∈ episode∗ ∨ word (changes m.events) n ++ [.leave] ∈ episode∗) ∧
    (∀ n, (∃ x, replay (changes m.events) n = some x) ↔ ∃ node ∈ members m, node.name = n) ∧
    ∀ node ∈ members m, ∃ x, replay (changes m.events) node.name = some x ∧
      bytes x.metadata = bytes node.metadata ∧ x.port = node.port ∧ ipEqual (bytes x.addr) (bytes node.addr) = true := by
  intro m
  obtain ⟨wf,inv⟩ := eventInv_run started asked ops
  have member : ∀ node ∈ members m, ∃ x, replay (changes m.events) node.name = some x ∧
      bytes x.metadata = bytes node.metadata ∧ x.port = node.port ∧ ipEqual (bytes x.addr) (bytes node.addr) = true := by
    intro node listed
    obtain ⟨s,held,isLive,rfl⟩ := (mem_members wf node).mp listed
    have known := inv.mirrors s.toNode.name
    rw [held,live_of_live isLive] at known
    obtain ⟨x,replayed,related,-⟩ := known
    exact ⟨x,replayed,related⟩
  refine ⟨fun n => mirrors_word (inv.mirrors n),fun n => ⟨?_,?_⟩,member⟩
  · rintro ⟨x,replayed⟩
    have known := inv.mirrors n
    cases alive : live (entry m n) with
    | none =>
      rw [alive] at known
      rw [known.1] at replayed
      cases replayed
    | some s =>
      obtain ⟨held,isLive⟩ := Option.filter_eq_some_iff.mp alive
      have name := entry_name wf held
      refine ⟨s.toNode,(mem_members wf _).mpr ⟨s,?_,by simpa using isLive,rfl⟩,name⟩
      rw [name]; exact held
  · rintro ⟨node,listed,rfl⟩
    obtain ⟨x,replayed,-⟩ := member node listed
    exact ⟨x,replayed⟩

/-- The node `a` with an event delegate, after its start. -/
def watched : Memberlist :=
  aliveNodeLocked (firstDraw { restarting with events := true } (some [10,0,0,1]) 7946 none).1
    (firstDraw { restarting with events := true } (some [10,0,0,1]) 7946 none).2 none true none {}

theorem watched_started : Started watched :=
  ⟨{ restarting with events := true },some [10,0,0,1],7946,none,none,none,{},rfl,rfl,rfl⟩

/-- It hears of a peer, which then dies and comes back. -/
def visits : List Op :=
  [.alive ⟨1,[98],some [10,0,0,3],7946,none,restarting.buildVsnArray⟩ {},.dead ⟨1,[98],[99]⟩ {},
    .alive ⟨2,[98],some [10,0,0,3],7946,some [1],restarting.buildVsnArray⟩ {}]

theorem event_log_replica_watched :
    Started watched ∧ watched.config.events = true ∧
      (∃ node ∈ members (run watched visits), node.name = [98]) ∧
      ∃ x, replay (changes (run watched visits).events) [98] = some x :=
  ⟨watched_started,rfl,⟨_,List.mem_cons_self,rfl⟩,
    ((event_log_replica watched_started rfl visits).2.1 [98]).mpr ⟨_,List.mem_cons_self,rfl⟩⟩

end Mori.EventLog
