import Mori.PeerRecord

/-!
Suspicion timers. In every reachable state the timers stand under exactly the
names of the suspect records, and a timer carries the time at which the record
under its name became suspect. As long as the clock readings stored at state
changes increase, such a time identifies the suspicion, so that the callback of
a timer whose suspicion has ended finds nothing to do.
-/
namespace Mori.Suspicions
open Mori.Net Mori.Protocol Mori.State Mori.Table Mori.Moves Mori.LocalNode Mori.PeerRecord
set_option linter.unusedSimpArgs false

/-- The times at which the timers armed so far were armed, in order. -/
def armedAt (m : Memberlist) : List Time := (List.range m.armed).map (fun t => (m.suspicions t).changeTime)

structure Timers (m : Memberlist) : Prop where
  /-- A timer belongs to a suspect record, and to the change that made it suspect. -/
  timer : ∀ n t, m.nodeTimers n = some t → t < m.armed ∧ (m.suspicions t).node = n ∧
    ∃ s, entry m n = some s ∧ s.state = .suspect ∧ s.stateChange = (m.suspicions t).changeTime
  suspect : ∀ n s, entry m n = some s → s.state = .suspect → ∃ t, m.nodeTimers n = some t
  /-- The local node is never suspect. -/
  self : ∀ s, localEntry m = some s → s.state ≠ .suspect
  logged : (armedAt m).Sublist m.stateChanges

theorem timers_build (conf : Config) : Timers (buildMemberlist conf) where
  timer := by simp [buildMemberlist]
  suspect := by simp [buildMemberlist,entry]
  self := by simp [localEntry,buildMemberlist,entry]
  logged := by simp [armedAt,buildMemberlist]

section
variable {m m' : Memberlist}

/-- A record that is not suspect has no timer. -/
theorem no_timer (inv : Timers m) {n : Bytes} (calm : ∀ s, entry m n = some s → s.state ≠ .suspect) :
    m.nodeTimers n = none := by
  by_contra armed
  obtain ⟨t,timer⟩ := Option.ne_none_iff_exists'.mp armed
  obtain ⟨-,-,s,held,suspect,-⟩ := inv.timer n t timer
  exact calm s held suspect

/-- An update that leaves the records and timers alone. -/
theorem timers_frame (inv : Timers m) (config : m'.config = m.config) (records : entry m' = entry m)
    (timers : m'.nodeTimers = m.nodeTimers) (armed : m'.armed = m.armed)
    (same : ∀ t, (m'.suspicions t).node = (m.suspicions t).node ∧
      (m'.suspicions t).changeTime = (m.suspicions t).changeTime)
    (log : m'.stateChanges = m.stateChanges) : Timers m' where
  timer := by
    intro n t timer
    rw [timers] at timer
    rw [armed,records,(same t).1,(same t).2]
    exact inv.timer n t timer
  suspect := by
    rw [records,timers]
    exact inv.suspect
  self := by
    rw [localEntry,config,records]
    exact inv.self
  logged := by
    have times : armedAt m' = armedAt m := by
      simp only [armedAt,armed,(same _).2]
    rw [times,log]
    exact inv.logged

/-- An update that stores a record which is not suspect and deletes its timer. -/
theorem timers_settle (inv : Timers m) {n : Bytes} {s : NodeState}
    (records : entry m' = Function.update (entry m) n (some s)) (calm : s.state ≠ .suspect)
    (config : m'.config = m.config) (timers : m'.nodeTimers = Function.update m.nodeTimers n none)
    (armed : m'.armed = m.armed) (same : m'.suspicions = m.suspicions)
    (log : m.stateChanges <+: m'.stateChanges) : Timers m' where
  timer := by
    intro n' t timer
    rw [timers] at timer
    by_cases here : n' = n
    · rw [here,Function.update_self] at timer
      cases timer
    · rw [Function.update_of_ne here] at timer
      rw [armed,records,same,Function.update_of_ne here]
      exact inv.timer n' t timer
  suspect := by
    intro n' s' held suspect
    rw [records] at held
    by_cases here : n' = n
    · rw [here,Function.update_self] at held
      cases held
      exact absurd suspect calm
    · rw [Function.update_of_ne here] at held
      rw [timers,Function.update_of_ne here]
      exact inv.suspect n' s' held suspect
  self := by
    intro s' held
    rw [localEntry,config,records] at held
    by_cases here : m.config.name = n
    · rw [here,Function.update_self] at held
      cases held
      exact calm
    · rw [Function.update_of_ne here] at held
      exact inv.self s' held
  logged := by
    have times : armedAt m' = armedAt m := by simp only [armedAt,armed,same]
    rw [times]
    exact inv.logged.trans log.sublist

/-- Deleting the timer of a record that is not suspect. -/
theorem clear_calm (inv : Timers m) {n : Bytes} (calm : ∀ s, entry m n = some s → s.state ≠ .suspect) :
    Function.update m.nodeTimers n none = m.nodeTimers := by
  rw [← no_timer inv calm]
  exact Function.update_eq_self ..

theorem timers_arm (inv : Timers m) (wf : TableWF m) {a : Suspect} {r : Ref} (found : m.nodeMap a.node = some r)
    (remote : (m.heap r).name ≠ m.config.name) (now : Time) : Timers (applySuspect m r a now) := by
  have records := (table_applySuspect wf a found now).2
  have older : ∀ t, t < m.armed → (applySuspect m r a now).suspicions t = m.suspicions t :=
    fun t below => Function.update_of_ne (Nat.ne_of_lt below) ..
  have newest : (applySuspect m r a now).suspicions m.armed =
      newSuspicion a.node now a.from_ (expectedConfirmations m) := Function.update_self ..
  constructor
  · intro n t timer
    by_cases here : n = a.node
    · subst here
      have : t = m.armed := Option.some.inj (timer.symm.trans (Function.update_self ..))
      subst this
      rw [newest,records,Function.update_self]
      exact ⟨Nat.lt_succ_self _,rfl,_,rfl,rfl,rfl⟩
    · have timer' : m.nodeTimers n = some t := (Function.update_of_ne here ..).symm.trans timer
      obtain ⟨below,owner,known⟩ := inv.timer n t timer'
      rw [older t below,records,Function.update_of_ne here]
      exact ⟨Nat.lt_succ_of_lt below,owner,known⟩
  · intro n s held suspect
    by_cases here : n = a.node
    · subst here
      exact ⟨m.armed,Function.update_self ..⟩
    · rw [records,Function.update_of_ne here] at held
      obtain ⟨t,timer⟩ := inv.suspect n s held suspect
      exact ⟨t,(Function.update_of_ne here ..).trans timer⟩
  · intro s held
    have other := remote_of_found wf found remote
    rw [local_other records rfl other] at held
    exact inv.self s held
  · have earlier : (List.range m.armed).map (fun t => ((applySuspect m r a now).suspicions t).changeTime) =
        armedAt m := by
      apply List.map_congr_left
      intro t member
      rw [older t (List.mem_range.mp member)]
    show ((List.range (m.armed + 1)).map _).Sublist (m.stateChanges ++ [now])
    rw [List.range_succ,List.map_append,earlier,List.map_singleton,newest]
    exact inv.logged.append (List.Sublist.refl _)

theorem timers_reset (inv : Timers m) (wf : TableWF m) (now : Time) (draws : Nat → Nat) :
    Timers (resetNodes m now draws) := by
  have records := entry_resetNodes now draws wf
  -- Only dead and left records are reaped.
  have kept : ∀ {n s}, entry m n = some s → s.state = .suspect → entry (resetNodes m now draws) n = some s := by
    intro n s held suspect
    rw [records,held]
    simp [reaps,NodeState.deadOrLeft,suspect]
  have known : ∀ {n s}, entry (resetNodes m now draws) n = some s → entry m n = some s :=
    fun held => entry_of_reset now draws wf held
  constructor
  · intro n t timer
    obtain ⟨below,owner,s,held,suspect,same⟩ := inv.timer n t timer
    exact ⟨below,owner,s,kept held suspect,suspect,same⟩
  · exact fun n s held suspect => inv.suspect n s (known held) suspect
  · exact fun s held => inv.self s (known held)
  · exact inv.logged

theorem deadRecord_calm (s : NodeState) (d : Dead) (now : Time) : (deadRecord s d now).state ≠ .suspect := by
  simp only [deadRecord]
  split_ifs <;> simp

theorem timers_move {op : Op} (wf : TableWF m) (inv : Timers m) (move : Move m op m') : Timers m' := by
  -- The local record is not suspect, before and after a refutation.
  have calmLocal : ∀ {n r}, m.nodeMap n = some r → (m.heap r).name = m.config.name →
      (m.heap r).state ≠ .suspect :=
    fun found isLocal => inv.self _ (local_eq found (local_of_found wf found isLocal))
  have calmAt : ∀ {n r}, m.nodeMap n = some r → (m.heap r).state ≠ .suspect →
      ∀ s, entry m n = some s → s.state ≠ .suspect := by
    intro n r found calm s held
    rw [entry_eq found] at held
    cases held
    exact calm
  have calmDead : ∀ {r}, (m.heap r).deadOrLeft = true → (m.heap r).state ≠ .suspect := by
    intro r isDead suspect
    simp [NodeState.deadOrLeft,suspect] at isDead
  cases move with
  | conflict => exact timers_frame inv rfl rfl rfl rfl (fun _ => ⟨rfl,rfl⟩) rfl
  | @add a env vsn absent =>
    have free := clear_calm inv (n := a.node) (by simp [entry_eq_none.mpr absent])
    exact timers_settle inv (entry_addNode wf (newRecord a vsn) env.offset) (by simp [newRecord]) rfl free.symm rfl rfl
      (List.prefix_refl _)
  | repeatAlive found isLocal =>
    exact timers_frame inv rfl rfl (clear_calm inv (calmAt found (calmLocal found isLocal))) rfl
      (fun _ => ⟨rfl,rfl⟩) rfl
  | refuteAlive found isLocal =>
    exact timers_settle inv (table_refuteAlive wf found none).2 (calmLocal found isLocal) rfl rfl rfl rfl
      (List.prefix_refl _)
  | applyAlive found =>
    exact timers_settle inv (table_applyAlive wf _ found _ _ _ _).2 (by simp [aliveRecord]) rfl rfl rfl rfl
      (List.prefix_append ..)
  | @confirm s env r t =>
    refine timers_frame inv rfl rfl rfl rfl (fun t' => ?_) rfl
    by_cases same : t' = t
    · subst same
      simp [confirmTimer]
    · simp [confirmTimer,Function.update_of_ne same]
  | refuteSuspect found isLocal =>
    have calm := calmLocal found isLocal
    exact timers_settle inv (table_refute wf found _).2 calm rfl (clear_calm inv (calmAt found calm)).symm rfl rfl
      (List.prefix_refl _)
  | applySuspect found remote => exact timers_arm inv wf found remote _
  | repeatDead found isDead =>
    exact timers_frame inv rfl rfl (clear_calm inv (calmAt found (calmDead isDead))) rfl (fun _ => ⟨rfl,rfl⟩) rfl
  | refuteDead found isLocal =>
    exact timers_settle inv (table_refuteDead wf found _).2 (calmLocal found isLocal) rfl rfl rfl rfl
      (List.prefix_refl _)
  | applyDead found =>
    exact timers_settle inv (table_applyDead wf _ found _ _ _).2 (deadRecord_calm _ _ _) rfl rfl rfl rfl
      (List.prefix_append ..)
  | @reset now draws => exact timers_reset inv wf now draws
  | updateStale => exact timers_frame inv rfl rfl rfl rfl (fun _ => ⟨rfl,rfl⟩) rfl
  | @update _ metadata _ _ _ r _ found =>
    exact timers_settle inv (table_update wf (ownAlive m r metadata) found _ _ _ _ _).2 (by simp [aliveRecord]) rfl
      rfl rfl rfl (List.prefix_append ..)
  | @leave _ env r found =>
    exact timers_settle inv (table_leave wf (ownDead m r) found _ _ _ _).2 (deadRecord_calm _ _ _) rfl rfl rfl rfl
      (List.prefix_append ..)
  | leaveDead found _ isDead =>
    exact timers_frame inv rfl rfl (clear_calm inv (calmAt found (calmDead isDead))) rfl (fun _ => ⟨rfl,rfl⟩) rfl

theorem timers_boot {a : Alive} (wf : TableWF m) (inv : Timers m) (boot : Boot m a m') : Timers m' := by
  cases boot with
  | idle => exact inv
  | conflict => exact timers_frame inv rfl rfl rfl rfl (fun _ => ⟨rfl,rfl⟩) rfl
  | apply found =>
    exact timers_settle inv (table_applyAlive wf a found _ _ _ _).2 (by simp [aliveRecord]) rfl rfl rfl rfl
      (List.prefix_append ..)
  | @first vsn offset receipt now absent =>
    have free := clear_calm inv (n := a.node) (by simp [entry_eq_none.mpr absent])
    have added : Timers (addNode m (newRecord a vsn) offset) :=
      timers_settle inv (entry_addNode wf (newRecord a vsn) offset) (by simp [newRecord]) rfl free.symm rfl rfl
        (List.prefix_refl _)
    have applied := table_applyAlive (tableWF_addNode wf absent offset) a (addNode_nodeMap m (newRecord a vsn) offset)
      vsn none receipt now
    exact timers_settle added applied.2 (by simp [aliveRecord]) rfl rfl rfl rfl (List.prefix_append ..)

end

theorem timers_reachable {conf : Config} {m : Memberlist} (reached : Reachable conf m) : Timers m :=
  (reachable_invariant (timers_build conf)
    (fun _ inv => timers_frame inv rfl rfl rfl rfl (fun _ => ⟨rfl,rfl⟩) rfl)
    (fun wf inv _ _ boot => timers_boot wf inv boot) timers_move reached).2

section
variable {m : Memberlist}

/-- Under an increasing clock no two timers were armed at one time. -/
theorem armedAt_injective (inv : Timers m) (increasing : m.stateChanges.Pairwise (· < ·)) {t t' : Nat}
    (first : t < m.armed) (second : t' < m.armed)
    (same : (m.suspicions t).changeTime = (m.suspicions t').changeTime) : t = t' := by
  have ordered := increasing.sublist inv.logged
  have distinct : (armedAt m).Nodup := ordered.imp (fun below => Int.ne_of_lt below)
  exact List.inj_on_of_nodup_map distinct (List.mem_range.mpr first) (List.mem_range.mpr second) same

/-- The callback of the timer of a running suspicion declares its node dead. -/
theorem expire_running (wf : TableWF m) (inv : Timers m) (up : m.shutdown = false) {t : Nat}
    (timer : m.nodeTimers (m.suspicions t).node = some t) (now : Time) :
    ∃ s, entry m (m.suspicions t).node = some s ∧ s.state = .suspect ∧
      s.stateChange = (m.suspicions t).changeTime ∧ entry (expire m t now) = Function.update (entry m) (m.suspicions t).node
        (some { s with state := .dead, stateChange := now }) := by
  obtain ⟨-,-,s,held,suspect,same⟩ := inv.timer _ t timer
  obtain ⟨r,found,rfl⟩ := entry_eq_some.mp held
  have named := wf.named _ r found
  have remote : (m.heap r).name ≠ m.config.name :=
    fun isLocal => inv.self _ (local_eq found (local_of_found wf found isLocal)) suspect
  refine ⟨m.heap r,held,suspect,same,?_⟩
  have result : expire m t now =
      applyDead m r ⟨(m.heap r).incarnation,(m.heap r).name,m.config.name⟩ none none now := by
    simp [expire,up,found,suspect,same,deadNodeLocked,named,NodeState.deadOrLeft,named ▸ remote]
  rw [result,(table_applyDead wf ⟨(m.heap r).incarnation,(m.heap r).name,m.config.name⟩ (named ▸ found) _ _ _).2,named]
  simp [deadRecord,named,named ▸ remote]

/-- The callback of a timer whose suspicion has ended changes nothing. -/
theorem expire_ended (inv : Timers m) (increasing : m.stateChanges.Pairwise (· < ·)) {t : Nat} (armed : t < m.armed)
    (ended : m.nodeTimers (m.suspicions t).node ≠ some t) (now : Time) : expire m t now = m := by
  unfold expire
  by_cases down : m.shutdown = true
  · rw [if_pos down]
  rw [if_neg down]
  cases found : m.nodeMap (m.suspicions t).node with
  | none => rfl
  | some r =>
    simp only
    refine if_neg ?_
    rintro ⟨suspect,same⟩
    -- The suspicion that runs now has another timer, armed at another time.
    obtain ⟨t',timer⟩ := inv.suspect _ _ (entry_eq found) suspect
    obtain ⟨armed',-,s,held,-,same'⟩ := inv.timer _ t' timer
    rw [entry_eq found] at held
    cases held
    have : t = t' := armedAt_injective inv increasing armed armed' (same.symm.trans same')
    exact ended (this ▸ timer)

/-- The timer of a suspicion that has ended is not stored again. -/
theorem ended_move {m' : Memberlist} {op : Op} {t : Nat} {n : Bytes}
    (ended : t < m.armed ∧ (m.suspicions t).node = n ∧ m.nodeTimers n ≠ some t) (move : Move m op m') :
    t < m'.armed ∧ (m'.suspicions t).node = n ∧ m'.nodeTimers n ≠ some t := by
  obtain ⟨below,owner,gone⟩ := ended
  have cleared : ∀ n', Function.update m.nodeTimers n' none n ≠ some t := by
    intro n'
    by_cases here : n = n'
    · rw [here,Function.update_self]; simp
    · rw [Function.update_of_ne here]; exact gone
  cases move with
  | repeatAlive => exact ⟨below,owner,cleared _⟩
  | refuteAlive => exact ⟨below,owner,cleared _⟩
  | applyAlive => exact ⟨below,owner,cleared _⟩
  | @confirm s env r t' =>
    refine ⟨below,?_,gone⟩
    by_cases same : t = t'
    · subst same
      simpa [confirmTimer] using owner
    · simpa [confirmTimer,Function.update_of_ne same] using owner
  | @applySuspect s env r =>
    have fresh : t ≠ m.armed := Nat.ne_of_lt below
    refine ⟨Nat.lt_succ_of_lt below,?_,?_⟩
    · simpa [applySuspect,Function.update_of_ne fresh] using owner
    · show Function.update m.nodeTimers s.node (some m.armed) n ≠ some t
      by_cases here : n = s.node
      · rw [here,Function.update_self]
        exact fun same => fresh (Option.some.inj same).symm
      · rw [Function.update_of_ne here]; exact gone
  | repeatDead => exact ⟨below,owner,cleared _⟩
  | refuteDead => exact ⟨below,owner,cleared _⟩
  | applyDead => exact ⟨below,owner,cleared _⟩
  | update => exact ⟨below,owner,cleared _⟩
  | leave => exact ⟨below,owner,cleared _⟩
  | leaveDead => exact ⟨below,owner,cleared _⟩
  | _ => exact ⟨below,owner,gone⟩

end

theorem reachable_run {conf : Config} {m : Memberlist} (reached : Reachable conf m) (ops : List Op) :
    Reachable conf (run m ops) := by
  induction ops generalizing m with
  | nil => exact reached
  | cons op ops ih => exact ih (.step reached op)

theorem up_reachable {conf : Config} {m : Memberlist} (reached : Reachable conf m) : m.shutdown = false :=
  (reachable_invariant (I := fun m => m.shutdown = false) rfl (fun _ up => up)
    (fun _ up _ _ boot => by cases boot <;> exact up) (fun _ up move => (shutdown_move move).trans up) reached).2

/-- A node that is alive has no timer. -/
theorem idle_of_alive {conf : Config} {m : Memberlist} (reached : Reachable conf m) {n : Bytes} {s : NodeState}
    (held : entry m n = some s) (isAlive : s.state = .alive) : m.nodeTimers n = none := by
  cases timer : m.nodeTimers n with
  | none => rfl
  | some t =>
    obtain ⟨-,-,s',held',suspect,-⟩ := (timers_reachable reached).timer n t timer
    rw [held] at held'
    cases held'
    rw [isAlive] at suspect
    cases suspect

/-- In every reachable state exactly the suspect nodes have a timer. While a timer
    is stored under its node, the suspicion that armed it is running: the record
    under its name has not changed its state since. Its callback then turns that
    record from suspect to dead and does nothing else to the table. Once the timer
    is not stored any more, its callback changes nothing, then and after any
    further steps. -/
theorem suspicion_timers_paired {conf : Config} {m : Memberlist} (reached : Reachable conf m) :
    (∀ n, (∃ t, m.nodeTimers n = some t) ↔ ∃ s, entry m n = some s ∧ s.state = .suspect) ∧
    ∀ t, t < m.armed → ∀ now,
      (m.nodeTimers (m.suspicions t).node = some t →
        ∃ s, entry m (m.suspicions t).node = some s ∧ s.state = .suspect ∧
          s.stateChange = (m.suspicions t).changeTime ∧
          entry (expire m t now) = Function.update (entry m) (m.suspicions t).node
            (some { s with state := .dead, stateChange := now })) ∧
      (m.nodeTimers (m.suspicions t).node ≠ some t →
        ∀ ops, (run m ops).stateChanges.Pairwise (· < ·) → expire (run m ops) t now = run m ops) := by
  obtain ⟨wf,-⟩ := tableWF_reachable reached
  have inv := timers_reachable reached
  refine ⟨fun n => ⟨?_,?_⟩,fun t armed now => ⟨?_,fun ended ops increasing => ?_⟩⟩
  · rintro ⟨t,timer⟩
    obtain ⟨-,-,s,held,suspect,-⟩ := inv.timer n t timer
    exact ⟨s,held,suspect⟩
  · rintro ⟨s,held,suspect⟩
    exact inv.suspect n s held suspect
  · exact fun timer => expire_running wf inv (up_reachable reached) timer now
  · obtain ⟨-,armed',owner,ended'⟩ := run_invariant
      (I := fun m' => t < m'.armed ∧ (m'.suspicions t).node = (m.suspicions t).node ∧
        m'.nodeTimers (m.suspicions t).node ≠ some t)
      (fun _ ended move => ended_move ended move) wf ⟨armed,rfl,ended⟩ ops
    exact expire_ended (timers_reachable (reachable_run reached ops)) increasing armed' (owner ▸ ended') now

/-- The node `a` suspects its peer. -/
def suspecting : Memberlist := run (buildMemberlist restarting) [.alive peerAlive { now := 1 },.suspect ⟨3,[98],[99]⟩ { now := 2 }]

theorem suspicion_timers_paired_suspecting :
    Reachable restarting suspecting ∧ suspecting.nodeTimers [98] = some 0 ∧
      ∃ s, entry suspecting [98] = some s ∧ s.state = .suspect ∧ s.stateChange = 2 ∧
        entry (expire suspecting 0 3) = Function.update (entry suspecting) [98]
          (some { s with state := .dead, stateChange := 3 }) :=
  ⟨reachable_run .build _,rfl,
    ((suspicion_timers_paired (reachable_run .build _)).2 0 (by decide) 3).1 rfl⟩

end Mori.Suspicions
