import Mori.Updates

/-!
Whether the metadata that the delegate answers last reaches the other members. A call of
`UpdateNodeContext` fetches the metadata before it takes nodeLock, so that a call that
fetched it earlier may commit later; and the update that wraps the incarnation is dropped.
-/
namespace Mori.Metadata
open Mori.Net Mori.Protocol Mori.State Mori.Table Mori.Moves Mori.LocalNode Mori.Machines Mori.Updates Function
open Mori.Gossip hiding Act step Inv inv_step inv_getBroadcasts

/-- The metadata that a message announces for a node. -/
def announces (name : Bytes) (b : State.Broadcast) : Option Slice :=
  match b.msg with
  | .alive a => if a.node = name then some a.metadata else none
  | _ => none

/-- What the alive messages about the local node announced, in order. -/
def announcements (g : Gossiper) : List Slice := g.queued.filterMap (announces g.m.config.name)

/-- The version of the metadata that a call has seen. -/
def seen : Call → Option Nat
  | .started v => some v
  | .fetched _ v => some v
  | .waiting c => some c.version
  | .confirmed c => c.map (fun c => c.version)
  | .returned c => c.map (fun c => c.version)
  | _ => none

/-- Calls commit in the order of what they have fetched, and not at the last incarnation;
    the node does not leave. -/
def Ordered (s : State) : Act → Prop
  | .update k .. =>
    match s.call k with
    | .fetched _ version => s.committed ≤ version ∧ s.g.m.incarnation.value < 4294967295
    | _ => True
  | .leave .. => False
  | _ => True

/-- The incarnation of the local record was drawn from the counter. -/
def Low (m : Memberlist) : Prop := ∀ me ∈ localEntry m, me.incarnation ≤ m.incarnation.value

section
variable {m m' : Memberlist} {op : Op}

theorem low_same (low : Low m) (kept : localEntry m' = localEntry m) (counter : m'.incarnation = m.incarnation) :
    Low m' := by
  intro me held
  rw [counter]
  exact low me (kept ▸ held)

theorem low_refute {me : NodeState} {accusedInc : UInt32} (after : localEntry m' = some (refuted m me accusedInc))
    (counter : m'.incarnation = m.incarnation.beat accusedInc) : Low m' := by
  intro s held
  rw [show localEntry m' = some s from held] at after
  cases after
  rw [counter]
  exact UInt32.le_refl _

/-- Only a refutation and an update draw incarnations. -/
theorem low_move (wf : TableWF m) (locals : LocalInv m) (foreign : Foreign op) (move : Move m op m') (low : Low m) :
    Low m' := by
  cases move with
  | conflict => exact low_same low rfl rfl
  | @add a env vsn absent accepted allowed joining =>
    have changed := entry_addNode wf (newRecord a vsn) env.offset
    by_cases isLocal : a.node = m.config.name
    · obtain ⟨me,held,-⟩ := locals.present (joining isLocal)
      rw [show localEntry m = none from entry_eq_none.mpr (isLocal ▸ absent)] at held
      cases held
    · exact low_same low (local_other changed rfl (Ne.symm isLocal)) rfl
  | repeatAlive => exact low_same low rfl rfl
  | refuteAlive found isLocal =>
    exact low_refute (local_at (table_refuteAlive wf found none).2 rfl (local_of_found wf found isLocal)) rfl
  | applyAlive found accepted remote =>
    exact low_same low (local_other (table_applyAlive wf _ found _ _ _ _).2 rfl (remote_of_found wf found remote)) rfl
  | confirm => exact low_same low rfl rfl
  | refuteSuspect found isLocal =>
    exact low_refute (local_at (table_refute wf found _).2 rfl (local_of_found wf found isLocal)) rfl
  | applySuspect found remote =>
    exact low_same low (local_other (table_applySuspect wf _ found _).2 rfl (remote_of_found wf found remote)) rfl
  | repeatDead => exact low_same low rfl rfl
  | refuteDead found isLocal =>
    exact low_refute (local_at (table_refuteDead wf found _).2 rfl (local_of_found wf found isLocal)) rfl
  | @applyDead d env r notify found leaving live =>
    by_cases isLocal : (m.heap r).name = m.config.name
    · exact (local_absurd locals (leaving isLocal) (local_eq found (local_of_found wf found isLocal)) live).elim
    · exact low_same low (local_other (table_applyDead wf _ found _ _ _).2 rfl (remote_of_found wf found isLocal)) rfl
  | @reset now draws =>
    intro me held
    have after : localEntry (resetNodes m now draws) = _ := entry_resetNodes now draws wf m.config.name
    rw [show localEntry (resetNodes m now draws) = some me from held] at after
    exact low me (Option.eq_some_of_filter_eq_some after.symm)
  | updateStale => exact foreign.elim
  | update => exact foreign.elim
  | leave => exact foreign.elim
  | leaveDead => exact foreign.elim

/-- A foreign section keeps the local record, up to its incarnation. -/
theorem record_apply (wf : TableWF m) (locals : LocalInv m) (staying : m.leave = false) (foreign : Foreign op)
    {me : NodeState} (held : localEntry m = some me) (low : me.incarnation ≤ m.incarnation.value) :
    (apply m op).leave = false ∧ ∃ me', localEntry (apply m op) = some me' ∧ me'.metadata = me.metadata ∧
      me'.incarnation ≤ (apply m op).incarnation.value := by
  have start : LocalInv m ∧ m.leave = false ∧ Low m ∧ ∀ s, localEntry m = some s → content s = content me := by
    refine ⟨locals,staying,?_,?_⟩
    · intro s here
      rw [show localEntry m = some s from here] at held
      cases held
      exact low
    · intro s here
      rw [here] at held
      cases held
      rfl
  have kept := apply_keeps (P := Foreign)
    (I := fun m => LocalInv m ∧ m.leave = false ∧ Low m ∧ ∀ s, localEntry m = some s → content s = content me)
    (fun kind resolved => foreign_cause kind resolved) (fun kind wf held move => ?_) wf start foreign
  · obtain ⟨-,locals',staying',low',same⟩ := kept
    obtain ⟨me',held',-⟩ := locals'.present staying'
    have content' := same me' held'
    simp only [content,Prod.mk.injEq] at content'
    exact ⟨staying',me',held',content'.2.2.1,low' me' held'⟩
  · obtain ⟨locals',staying',low',same⟩ := held
    refine ⟨localInv_move wf locals' move,?_,low_move wf locals' kind move low',?_⟩
    · rcases leave_move move with unchanged | ⟨-,receipt,env,rfl⟩
      · exact unchanged.trans staying'
      · exact kind.elim
    · refine content_move wf locals' move ?_ same
      rintro answer notify receipt env rfl
      exact kind.elim

/-- The section of an update that does not wrap the counter. -/
theorem updateNodeLocked_ok (wf : TableWF m) (locals : LocalInv m) (staying : m.leave = false) {r : Ref}
    (found : m.nodeMap m.config.name = some r) (newer : (m.heap r).incarnation ≤ (m.incarnation.add 1).value)
    (metadata : Slice) (notify receipt : Option Nat) (env : Env) :
    updateNodeLocked m metadata notify receipt env =
      .ok (applyAlive { m with incarnation := m.incarnation.add 1 } r (ownAlive m r metadata) m.config.versions notify
        receipt env.now) := by
  have agrees : ¬ conflicts (m.heap r) (ownAlive m r metadata) := by simp [conflicts,ownAlive,ipEqual_refl]
  have result := aliveNodeLocked_own (m := { m with incarnation := m.incarnation.add 1 })
    (a := ownAlive m r metadata) notify receipt env staying (acceptableVsn_own m.config rfl) found
    (wf.named _ _ found) agrees
  have fresh : ¬ (ownAlive m r metadata).incarnation < (m.heap r).incarnation := UInt32.not_lt.mpr newer
  rw [if_neg fresh] at result
  rw [updateNodeLocked,if_neg (by simp [locals.up]),if_neg (by simp [staying]),found]
  exact congrArg Except.ok result

end

/-- What is known of the metadata that a call has seen. -/
def Stage (s : State) : Call → Prop
  | .started v => v ≤ s.version
  | .fetched metadata v => v ≤ s.version ∧ delegateMeta s.g.m.config (s.metadata v) = .ok metadata
  | .waiting c => c.version ≤ s.committed
  | .confirmed c => ∃ c', c = some c' ∧ c'.version ≤ s.committed
  | .returned c => ∃ c', c = some c' ∧ c'.version ≤ s.committed
  | _ => True

/-- The local record and the last message about it announce the version that was committed last. -/
structure Current (s : State) : Prop where
  gossip : Gossip.Inv s.g
  locals : LocalInv s.g.m
  staying : s.g.m.leave = false
  record : ∃ me, localEntry s.g.m = some me ∧ me.incarnation ≤ s.g.m.incarnation.value ∧
    delegateMeta s.g.m.config (s.metadata s.committed) = .ok me.metadata ∧
      (announcements s.g).getLast? = some me.metadata
  within : s.committed ≤ s.version
  stage : ∀ k, Stage s (s.call k)
  following : s.followed = true → s.version = 0 ∨ ∃ k, s.call k = .failed ∨ seen (s.call k) = some s.version

section
variable {s : State} {k : Nat}

/-- What a call has seen stays what it was while versions are added and committed. -/
theorem stage_mono {s' : State} {c : Call} (stage : Stage s c) (config : s'.g.m.config = s.g.m.config)
    (metadata : ∀ v ≤ s.version, s'.metadata v = s.metadata v) (version : s.version ≤ s'.version)
    (committed : s.committed ≤ s'.committed) : Stage s' c := by
  cases c with
  | started v => exact Nat.le_trans stage version
  | fetched given v =>
    refine ⟨Nat.le_trans stage.1 version,?_⟩
    rw [config,metadata v stage.1]
    exact stage.2
  | waiting c => exact Nat.le_trans stage committed
  | confirmed c => exact stage.imp (fun _ known => ⟨known.1,Nat.le_trans known.2 committed⟩)
  | returned c => exact stage.imp (fun _ known => ⟨known.1,Nat.le_trans known.2 committed⟩)
  | _ => trivial

theorem current_at (current : Current s) {c : Call} (stage : Stage s c)
    (ahead : s.followed = true → seen (s.call k) = some s.version → c = .failed ∨ seen c = some s.version)
    (live : s.call k ≠ .failed) : Current (s.moveTo k c) :=
  { current with
    stage k' := by
      by_cases same : k' = k
      · rw [same,show (s.moveTo k c).call k = c from update_self ..]
        exact stage
      · rw [show (s.moveTo k c).call k' = s.call k' from update_of_ne same ..]
        exact current.stage k'
    following follows := by
      refine (current.following follows).imp id ?_
      rintro ⟨k',saw⟩
      by_cases same : k' = k
      · subst same
        refine ⟨k',?_⟩
        rw [show (s.moveTo k' c).call k' = c from update_self ..]
        rcases saw with failed | version
        · exact absurd failed live
        · exact ahead follows version
      · refine ⟨k',?_⟩
        rw [show (s.moveTo k c).call k' = s.call k' from update_of_ne same ..]
        exact saw }

theorem announcements_commit {g : Gossiper} {m : Memberlist} (config : m.config = g.m.config) (draws : Nat → UInt64) :
    announcements (commit g m draws) = announcements g ++ m.broadcasts.filterMap (announces g.m.config.name) := by
  rw [announcements,commit_m,commit_queued,List.filterMap_append]
  simp only [config,announcements]

/-- A message that is not of a call announces what the local record holds. -/
theorem sent_announces {m : Memberlist} {op : Op} {b : State.Broadcast} (foreign : Foreign op) (sent : Sent m op b)
    {me : NodeState} (held : localEntry m = some me) {metadata : Slice}
    (announced : announces m.config.name b = some metadata) : metadata = me.metadata := by
  cases sent with
  | alive remote => simp [announces,remote] at announced
  | suspect => simp [announces] at announced
  | dead => simp [announces] at announced
  | deadLocal => simp [announces] at announced
  | refute accuses own isLocal =>
    simp only [announces,refutation,isLocal,if_true,Option.some.injEq] at announced
    rw [← announced,own me held]
  | update => exact foreign.elim
  | leave => exact foreign.elim

theorem announcements_section (current : Current s) {op : Op} (foreign : Foreign op) {me : NodeState}
    (held : localEntry s.g.m = some me) (last : (announcements s.g).getLast? = some me.metadata) (draws : Nat → UInt64) :
    (announcements (commit s.g (apply s.g.m op) draws)).getLast? = some me.metadata := by
  rw [announcements_commit (config_apply current.gossip.table op)]
  rcases sends_apply current.gossip.table s.g.handed op with nothing | ⟨cause,resolved,nothing | ⟨b,sent,kind⟩⟩
  · rw [nothing]
    simpa using last
  · rw [nothing]
    simpa using last
  · rw [sent]
    cases announced : announces s.g.m.config.name b with
    | none => simpa [announced] using last
    | some metadata =>
      have same := sent_announces (foreign_cause foreign resolved) kind held announced
      simp [announced,same]

theorem current_receive (current : Current s) {op : Op} (foreign : Foreign op) (draws : Nat → UInt64) :
    Current (s.advance (commit s.g (apply s.g.m op) draws)) := by
  obtain ⟨me,held,low,given,last⟩ := current.record
  obtain ⟨staying,me',held',same,low'⟩ :=
    record_apply current.gossip.table current.locals current.staying foreign held low
  have config : (commit s.g (apply s.g.m op) draws).m.config = s.g.m.config := by
    rw [commit_m]
    exact config_apply current.gossip.table op
  have installed := commit_m s.g (apply s.g.m op) draws
  exact { current with
    gossip := inv_commit current.gossip (tableWF_apply current.gossip.table op) draws
    locals := localInv_section current.gossip current.locals op draws
    staying := by
      rw [State.advance,installed]
      exact staying
    record := by
      refine ⟨me',?_,?_,?_,?_⟩
      · rw [State.advance,installed]
        exact held'
      · rw [State.advance,installed]
        exact low'
      · simp only [State.advance]
        rw [config,same]
        exact given
      · rw [same]
        exact announcements_section current foreign held last draws
    stage := fun k => stage_mono (current.stage k) config (fun _ _ => rfl) (Nat.le_refl _) (Nat.le_refl _) }

theorem le_add_one {x : UInt32} (below : x < 4294967295) : x ≤ x + 1 := by
  rw [UInt32.le_iff_toNat_le,UInt32.toNat_add]
  have bound : x.toNat < 4294967295 := below
  have one : (1 : UInt32).toNat = 1 := rfl
  omega

/-- What an update that does not wrap the counter leads to. -/
structure Updated (m m' : Memberlist) (metadata : Slice) : Prop where
  table : TableWF m'
  locals : LocalInv m'
  config : m'.config = m.config
  staying : m'.leave = false
  record : ∃ me, localEntry m' = some me ∧ me.metadata = metadata ∧ me.incarnation ≤ m'.incarnation.value
  announced : m'.broadcasts.filterMap (announces m.config.name) = [metadata]

theorem updated_of_ok {m m' : Memberlist} (wf : TableWF m) (idle : m.broadcasts = []) (locals : LocalInv m)
    (staying : m.leave = false) {me : NodeState} (held : localEntry m = some me)
    (newer : me.incarnation ≤ (m.incarnation.add 1).value) {metadata : Slice}
    (given : delegateMeta m.config metadata = .ok metadata) {notify receipt : Option Nat} {env : Env}
    (done : updateNodeLocked m metadata notify receipt env = .ok m') : Updated m m' metadata := by
  have same := updateNodeLocked_apply locals.up given done
  obtain ⟨r,found,rfl⟩ := entry_eq_some.mp held
  rw [updateNodeLocked_ok wf locals staying found newer] at done
  have result := Except.ok.inj done
  have table := table_update wf (ownAlive m r metadata) found (m.incarnation.add 1) m.config.versions notify receipt env.now
  rw [result] at table
  have kept := (apply_invariant localInv_move wf locals (.update metadata notify receipt env)).2
  rw [same] at kept
  refine ⟨table.1,kept,?_,?_,?_,?_⟩
  · rw [← result]
    rfl
  · rw [← result]
    exact staying
  · refine ⟨_,local_at table.2 (by rw [← result]; rfl) rfl,rfl,?_⟩
    rw [← result]
    exact UInt32.le_refl _
  · rw [← result]
    simp [applyAlive,idle,encodeBroadcastNotify_nil,announces,ownAlive]

theorem current_update (current : Current s) {metadata : Slice} {version : Nat}
    (here : s.call k = .fetched metadata version) (ordered : s.committed ≤ version)
    (below : s.g.m.incarnation.value < 4294967295) {notify receipt : Option Nat} {env : Env} {m : Memberlist}
    (done : updateNodeLocked s.g.m metadata notify receipt env = .ok m) (draws : Nat → UInt64) {c : Commit}
    (announced : c.version = version) :
    Current { (s.advance (commit s.g m draws)).moveTo k (.waiting c) with committed := version } := by
  obtain ⟨me,held,low,given,last⟩ := current.record
  have fetched := current.stage k
  rw [here] at fetched
  have updated := updated_of_ok current.gossip.table s.g.handed current.locals current.staying held
    (UInt32.le_trans low (le_add_one below)) (delegateMeta_again fetched.2) done
  obtain ⟨me',held',same,low'⟩ := updated.record
  have installed := commit_m s.g m draws
  have config : (commit s.g m draws).m.config = s.g.m.config := by
    rw [installed]
    exact updated.config
  have own : update s.call k (.waiting c) k = .waiting c := update_self ..
  exact {
    gossip := inv_commit current.gossip updated.table draws
    locals := by
      rw [State.moveTo,State.advance,installed]
      exact ⟨updated.locals.up,updated.locals.present,updated.locals.gone,updated.locals.unsuspected⟩
    staying := by
      rw [State.moveTo,State.advance,installed]
      exact updated.staying
    record := by
      refine ⟨me',?_,?_,?_,?_⟩
      · rw [State.moveTo,State.advance,installed]
        exact held'
      · rw [State.moveTo,State.advance,installed]
        exact low'
      · simp only [State.moveTo,State.advance]
        rw [config,same]
        exact fetched.2
      · simp only [State.moveTo,State.advance]
        rw [announcements_commit updated.config,updated.announced,same,List.getLast?_concat]
    within := fetched.1
    stage := by
      intro k'
      simp only [State.moveTo,State.advance]
      by_cases mine : k' = k
      · rw [mine,own]
        exact Nat.le_of_eq announced
      · rw [update_of_ne mine]
        exact stage_mono (current.stage k') config (fun _ _ => rfl) (Nat.le_refl _) ordered
    following := by
      intro follows
      refine (current.following follows).imp id ?_
      rintro ⟨k',saw⟩
      refine ⟨k',?_⟩
      simp only [State.moveTo,State.advance]
      by_cases mine : k' = k
      · subst mine
        rw [own]
        rw [here] at saw
        refine .inr ?_
        rcases saw with failed | version'
        · cases failed
        · rw [← version']
          exact congrArg some announced
      · rw [update_of_ne mine]
        exact saw }

theorem current_change (current : Current s) (answer : Slice) : Current (step s (.change answer)) := by
  have old : ∀ v, v ≤ s.version → update s.metadata (s.version + 1) answer v = s.metadata v :=
    fun v known => update_of_ne (by omega) ..
  exact { current with
    record := by
      obtain ⟨me,held,low,given,last⟩ := current.record
      refine ⟨me,held,low,?_,last⟩
      simp only [step]
      rw [old s.committed current.within]
      exact given
    within := Nat.le_succ_of_le current.within
    stage := fun k => stage_mono (current.stage k) rfl old (Nat.le_succ _) (Nat.le_refl _)
    following := fun wrong => by cases wrong }

theorem current_step (s : State) (act : Act) (current : Current s) (ordered : Ordered s act) : Current (step s act) := by
  have stage : ∀ k c, s.call k = c → Stage s c := fun k c here => here ▸ current.stage k
  have live : ∀ {k c}, s.call k = c → c ≠ .failed → s.call k ≠ .failed := fun here other wrong => other (here.symm.trans wrong)
  cases act with
  | change answer => exact current_change current answer
  | start k =>
    simp only [step]
    by_cases idle : s.call k = .idle
    · rw [if_pos idle,if_neg (by simp [current.locals.up])]
      have moved : Current (s.moveTo k (.started s.version)) :=
        current_at current (Nat.le_refl _) (fun _ _ => .inr rfl) (live idle (by simp))
      refine { moved with following := fun _ => .inr ⟨k,.inr ?_⟩ }
      simp only [State.moveTo]
      rw [update_self]
      rfl
    · rw [if_neg idle]
      exact current
  | fetch k =>
    simp only [step]
    cases here : s.call k with
    | started v =>
      simp only
      cases given : delegateMeta s.g.m.config (s.metadata s.version) with
      | error err => exact current_at current trivial (fun _ _ => .inl rfl) (live here (by simp))
      | ok metadata => exact current_at current ⟨Nat.le_refl _,given⟩ (fun _ _ => .inr rfl) (live here (by simp))
    | _ => exact current
  | update k receipt env draws =>
    simp only [Ordered] at ordered
    simp only [step]
    cases here : s.call k with
    | fetched metadata version =>
      rw [here] at ordered
      simp only
      cases done : updateNodeLocked s.g.m metadata (some (notifyCh s.g.m k)) receipt env with
      | error err => exact current_at current trivial (fun _ _ => .inl rfl) (live here (by simp))
      | ok m => exact current_update current here ordered.1 ordered.2 done draws rfl
    | _ => exact current
  | leave => exact ordered.elim
  | receive op draws =>
    simp only [step]
    split_ifs with foreign
    · exact current_receive current foreign draws
    · exact current
  | getBroadcasts overhead limit transmitLimit draws =>
    exact { current with
      gossip := Gossip.inv_getBroadcasts current.gossip .. }
  | confirm k =>
    simp only [step]
    cases here : s.call k with
    | waiting c =>
      have moved : Current (s.moveTo k (.confirmed (some c))) := by
        refine current_at current ⟨c,rfl,stage k _ here⟩ ?_ (live here (by simp))
        intro _ version
        rw [here] at version
        exact .inr version
      simp only
      split_ifs
      · exact moved
      · exact { moved with }
      · exact current
    | _ => exact current
  | finish k =>
    simp only [step]
    cases here : s.call k with
    | confirmed c =>
      have known : Stage s (.confirmed c) := stage k _ here
      refine current_at current known ?_ (live here (by simp))
      intro _ version
      rw [here] at version
      exact .inr version
    | _ => exact current
  | abandon k =>
    simp only [step]
    cases here : s.call k with
    | idle => exact current
    | returned c => exact current
    | failed => exact current
    | _ => exact current_at current trivial (fun _ _ => .inl rfl) (live here (by simp))

end

theorem current_initial {m : Memberlist} (started : Started m) (draws : Nat → UInt64) {answer : Slice}
    (told : ∀ me, localEntry m = some me → delegateMeta m.config answer = .ok me.metadata) :
    Current (initial m draws answer) := by
  have inv := inv_initial started draws answer
  obtain ⟨a,sent,node,me,held,same,drawn⟩ := started_broadcasts started
  have installed : (initial m draws answer).g.m = { m with broadcasts := [] } := by rw [initial,commit_m]
  refine ⟨inv.gossip,inv.locals,?_,⟨me,?_,?_,?_,?_⟩,Nat.le_refl _,fun _ => trivial,fun _ => .inl rfl⟩
  · rw [installed]
    obtain ⟨conf,addr,port,metadata,receipt,offset,now,-,rfl⟩ := started_eq started
    rfl
  · rw [installed]
    exact held
  · rw [installed]
    exact UInt32.le_of_eq drawn
  · rw [installed]
    exact told me held
  · change (announcements (commit (created m.config) m draws)).getLast? = _
    rw [announcements_commit (g := created m.config) (m := m) rfl,sent,same]
    simp [announces,node,announcements,created,buildMemberlist]

/-- In every run in which the calls commit in the order of what they have fetched, and not
    at the last incarnation: once every call has returned without an error and the last
    change of the metadata was followed by a call, the local record and the last alive
    message about the node announce the delegate's metadata. -/
theorem metadata_current {m : Memberlist} (started : Started m) (draws : Nat → UInt64) (answer : Slice)
    (told : ∀ me, localEntry m = some me → delegateMeta m.config answer = .ok me.metadata) (acts : List Act)
    (ordered : Along step Ordered (initial m draws answer) acts)
    (followed : (run step (initial m draws answer) acts).followed = true)
    (returned : ∀ k, (run step (initial m draws answer) acts).call k = .idle ∨
      ∃ c, (run step (initial m draws answer) acts).call k = .returned c) :
    let s := run step (initial m draws answer) acts
    ∃ me, localEntry s.g.m = some me ∧ delegateMeta s.g.m.config (s.metadata s.version) = .ok me.metadata ∧
      (announcements s.g).getLast? = some me.metadata := by
  intro s
  have current : Current s := along_keeps (I := Current) current_step (current_initial started draws told) ordered
  obtain ⟨me,held,-,given,last⟩ := current.record
  -- The call that saw the current version has committed it, or a later one.
  have newest : s.version ≤ s.committed := by
    rcases current.following followed with zero | ⟨k,saw⟩
    · rw [zero]
      exact Nat.zero_le _
    · have stage := current.stage k
      rcases returned k with idle | ⟨c,done⟩
      · rw [show s.call k = _ from idle] at saw
        rcases saw with wrong | wrong
        · cases wrong
        · cases wrong
      · rw [show s.call k = _ from done] at saw stage
        obtain ⟨c',rfl,known⟩ := stage
        rcases saw with wrong | version
        · cases wrong
        · rw [← Option.some.inj version]
          exact known
  have same : s.committed = s.version := Nat.le_antisymm current.within newest
  exact ⟨me,held,same ▸ given,last⟩

section
/-- The node `a` with a delegate, whose metadata is empty at first. -/
def delegating : Config := { name := [97], delegate := true }

def announcing : Memberlist :=
  aliveNodeLocked (firstDraw delegating (some [10,0,0,1]) 7946 none).1
    (firstDraw delegating (some [10,0,0,1]) 7946 none).2 none true none {}

theorem announcing_started : Started announcing := ⟨delegating,some [10,0,0,1],7946,none,none,none,{},rfl,rfl,rfl⟩

/-- The first call fetches, the metadata changes, the second call fetches and commits, and the first commits last. -/
def overtaken : List Act :=
  [.start 0,.fetch 0,.change (some [2]),.start 1,.fetch 1,.update 1 none {} (fun _ => 0),.confirm 1,.finish 1,
    .update 0 none {} (fun _ => 0),.confirm 0,.finish 0]

/-- A peer drives the incarnation to the last one, so that the next update wraps to an old one. -/
def wrapping : List Act :=
  [.receive (.suspect ⟨4294967294,[97],[98]⟩ {}) (fun _ => 0),.change (some [2]),.start 0,.fetch 0,
    .update 0 none {} (fun _ => 0),.confirm 0,.finish 0]

/-- All calls have returned without an error after the change, and the old metadata stays. -/
theorem metadata_lost :
    Started announcing ∧
      ∀ acts ∈ [overtaken,wrapping],
        let s := run step (initial announcing (fun _ => 0) none) acts
        s.followed = true ∧ (∀ k, s.call k = .idle ∨ ∃ c, s.call k = .returned c) ∧
          delegateMeta s.g.m.config (s.metadata s.version) = .ok (some [2]) ∧
          (localEntry s.g.m).map (fun me => me.metadata) = some none := by
  refine ⟨announcing_started,?_⟩
  intro acts member
  rcases List.mem_cons.mp member with rfl | member
  · refine ⟨by decide,?_,by decide,by decide⟩
    rintro (_ | _ | k)
    · exact .inr ⟨some ⟨3,1,false,0,0⟩,by decide⟩
    · exact .inr ⟨some ⟨2,2,false,0,1⟩,by decide⟩
    · exact .inl rfl
  · rw [List.mem_singleton.mp member]
    refine ⟨by decide,?_,by decide,by decide⟩
    rintro (_ | k)
    · exact .inr ⟨some ⟨0,1,false,0,1⟩,by decide⟩
    · exact .inl rfl

/-- Two updates, the second of which fetches the metadata after it has changed. -/
theorem metadata_current_updated :
    let acts : List Act := [.start 0,.fetch 0,.update 0 none {} (fun _ => 0),.confirm 0,.finish 0,.change (some [2]),
      .start 1,.fetch 1,.update 1 none {} (fun _ => 0),.confirm 1,.finish 1]
    let s := run step (initial announcing (fun _ => 0) none) acts
    Along step Ordered (initial announcing (fun _ => 0) none) acts ∧
      ∃ me, localEntry s.g.m = some me ∧ delegateMeta s.g.m.config (s.metadata s.version) = .ok me.metadata ∧
        (announcements s.g).getLast? = some me.metadata := by
  intro acts s
  have ordered : Along step Ordered (initial announcing (fun _ => 0) none) acts := by
    refine ⟨trivial,trivial,?_,trivial,trivial,trivial,trivial,trivial,?_,trivial,trivial,trivial⟩
    · exact ⟨by decide,by decide⟩
    · exact ⟨by decide,by decide⟩
  refine ⟨ordered,metadata_current announcing_started (fun _ => 0) none ?_ acts ordered (by decide) ?_⟩
  · intro me held
    cases held
    rfl
  · rintro (_ | _ | k)
    · exact .inr ⟨some ⟨2,1,false,0,0⟩,by decide⟩
    · exact .inr ⟨some ⟨3,2,false,0,1⟩,by decide⟩
    · exact .inl rfl

end

end Mori.Metadata
