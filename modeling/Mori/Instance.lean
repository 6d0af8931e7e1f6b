import Mori.Decisions

/-!
One instance of a cluster. Its table and its queue repeat what the nodes have
decided, and its own counter, record and leave flag are what it has decided
itself (`InstTrue`). A critical section that is told true messages keeps this,
for the decisions it makes itself (`inst_apply`).
-/
namespace Mori.Instance
open Mori.Net Mori.Protocol Mori.State Mori.Table Mori.Moves Mori.LocalNode Mori.PeerRecord Mori.Cluster Mori.Decisions
set_option linter.unusedSimpArgs false

/-- The instance `y` repeats what the nodes have decided, and its own state is what
    it has decided itself. -/
structure InstTrue (S : Setup) (w : World) (y : Bytes) (m : Memberlist) : Prop where
  wf : TableWF m
  config : m.config = S.conf y
  up : m.shutdown = false
  counter : m.incarnation.value = w.counter y
  /-- The counter has not wrapped. -/
  exact : m.incarnation.value.toNat = m.incarnation.adds
  left : w.left y ↔ m.leave = true
  born : w.born y ↔ entry m y ≠ none ∨ m.leave = true
  own : ∀ s, entry m y = some s → s.incarnation = w.counter y ∧ s.state = if m.leave then .left else .alive
  records : ∀ n s, entry m n = some s → RecTrue S w s
  queue : ∀ b ∈ m.broadcasts, MsgTrue S w b.msg

/-- What a critical section is told. -/
def OpTrue (S : Setup) (w : World) : Op → Prop
  | .alive a _ => AliveTrue S w a
  | .suspect s _ => Known w s.node s.incarnation
  | .dead d _ => DeadTrue w d
  | _ => True

theorem opTrue_mono {S : Setup} {y : Bytes} {w w' : World} (step : Evolves y w w') {op : Op} (is : OpTrue S w op) :
    OpTrue S w' op := by
  cases op with
  | alive a env => exact aliveTrue_mono step is
  | suspect s env => exact known_mono step is
  | dead d env => exact deadTrue_mono step is
  | _ => trivial

theorem queue_mem {queue : List Broadcast} {name : Bytes} {msg : Message} {notify : Option Nat} {b : Broadcast}
    (member : b ∈ encodeBroadcastNotify queue name msg notify) : b ∈ queue ∨ b.msg = msg := by
  unfold encodeBroadcastNotify at member
  rcases List.mem_append.mp member with old | new
  · split_ifs at old
    · exact .inl old
    · exact .inl (List.mem_of_mem_filter old)
  · rw [List.mem_singleton.mp new]
    exact .inr rfl

section
variable {S : Setup} {w : World} {y : Bytes} {m m' : Memberlist}

theorem inst_name (is : InstTrue S w y m) : m.config.name = y := by
  rw [is.config]; exact S.named y

theorem adds_beat (c : Counter) (accusedInc : UInt32) : c.adds + 1 ≤ (c.beat accusedInc).adds := by
  simp only [Counter.beat]
  split_ifs
  · exact Nat.le_succ _
  · exact Nat.le_refl _

theorem adds_move {op : Op} (move : Move m op m') : m.incarnation.adds ≤ m'.incarnation.adds := by
  cases move with
  | refuteAlive => exact Nat.le_of_succ_le (adds_beat ..)
  | refuteSuspect => exact Nat.le_of_succ_le (adds_beat ..)
  | refuteDead => exact Nat.le_of_succ_le (adds_beat ..)
  | updateStale => exact Nat.le_succ _
  | update => exact Nat.le_succ _
  | _ => exact Nat.le_refl _

/-- The next incarnation is above every one drawn. -/
theorem next_above (is : InstTrue S w y m) (room : m.incarnation.adds + 1 < 2 ^ 32) :
    (m.incarnation.value + 1).toNat = m.incarnation.adds + 1 ∧ w.counter y < m.incarnation.value + 1 := by
  have value : (m.incarnation.value + 1).toNat = m.incarnation.adds + 1 := by
    rw [UInt32.toNat_add,is.exact]
    exact Nat.mod_eq_of_lt room
  refine ⟨value,?_⟩
  rw [UInt32.lt_iff_toNat_lt,value,← is.counter,is.exact]
  exact Nat.lt_succ_self _

/-- No accusation is above the counter, so that a refutation draws the next
    incarnation. -/
theorem beat_eq (is : InstTrue S w y m) {accusedInc : UInt32} (bound : accusedInc ≤ w.counter y)
    (room : m.incarnation.adds + 1 < 2 ^ 32) : m.incarnation.beat accusedInc = m.incarnation.add 1 := by
  have above := (next_above is room).2
  have higher : ¬ (m.incarnation.add 1).value ≤ accusedInc := by
    simp only [Counter.add]
    intro lower
    exact UInt32.lt_irrefl _ (UInt32.lt_of_lt_of_le above (UInt32.le_trans lower bound))
  simp only [Counter.beat,if_neg higher]

/-- A move changes the record of another node as the section was told. -/
theorem records_move {op : Op} (is : InstTrue S w y m) (told : OpTrue S w op) (move : Move m op m') {n : Bytes}
    (remote : n ≠ y) {s : NodeState} (held : entry m' n = some s) : RecTrue S w s := by
  have change := peer_move is.wf (by rw [inst_name is]; exact remote) move
  cases change with
  | same kept => exact is.records n s (kept ▸ held)
  | @add a env vsn here absent accepted allowed after =>
    rw [after] at held
    cases held
    exact newRecord_true told accepted
  | @alive a env vsn p here before accepted fits after =>
    rw [after] at held
    cases held
    exact aliveRecord_true told accepted ((entry_name is.wf before).trans here.symm) env.now
  | @suspect a env p here before isAlive newer after =>
    rw [after] at held
    cases held
    exact suspectRecord_true told (is.records n p before) ((entry_name is.wf before).trans here.symm) env.now
  | @dead d env p here before live newer after =>
    rw [after] at held
    cases held
    exact deadRecord_true told (is.records n p before) ((entry_name is.wf before).trans here.symm) env.now
  | reset after =>
    rw [after] at held
    exact is.records n s (Option.eq_some_of_filter_eq_some held)

/-- A move that decides nothing: it keeps the local record and queues at most what
    the section was told. -/
theorem inst_passive {op : Op} (is : InstTrue S w y m) (told : OpTrue S w op) (move : Move m op m')
    (counter : m'.incarnation = m.incarnation) (leave : m'.leave = m.leave) (kept : entry m' y = entry m y)
    (queue : ∀ b ∈ m'.broadcasts, b ∈ m.broadcasts ∨ MsgTrue S w b.msg) : InstTrue S w y m' where
  wf := tableWF_move is.wf move
  config := (config_move move).trans is.config
  up := (shutdown_move move).trans is.up
  counter := by rw [counter]; exact is.counter
  exact := by rw [counter]; exact is.exact
  left := by rw [leave]; exact is.left
  born := by rw [leave,kept]; exact is.born
  own := by rw [leave,kept]; exact is.own
  records := by
    intro n s held
    by_cases here : n = y
    · subst here
      exact is.records n s (kept ▸ held)
    · exact records_move is told move here held
  queue := by
    intro b member
    rcases queue b member with old | new
    · exact is.queue b old
    · exact new

/-- The node `y` draws its next incarnation, for the given metadata. -/
def reissue (w : World) (y : Bytes) (metadata : Slice) : World :=
  { w with
    counter := Function.update w.counter y (w.counter y + 1)
    said := Function.update w.said y (Function.update (w.said y) (w.counter y + 1) metadata) }

theorem reissue_evolves (metadata : Slice) (staying : ¬ w.left y) (above : w.counter y < w.counter y + 1) :
    Evolves y w (reissue w y metadata) where
  others := by
    intro x other
    simp [reissue,Function.update_of_ne other]
  born := id
  counter := by
    simp only [reissue,Function.update_self]
    exact UInt32.le_of_lt above
  left := fun left => absurd left staying
  said := by
    intro _ i bound
    have below : i ≠ w.counter y + 1 := by
      rintro rfl
      exact UInt32.lt_irrefl _ (UInt32.lt_of_lt_of_le above bound)
    simp [reissue,Function.update_of_ne below]

/-- The node renews its record under the next incarnation. -/
theorem inst_reissue {op : Op} (is : InstTrue S w y m) (told : OpTrue S w op) (move : Move m op m')
    (room : m'.incarnation.adds < 2 ^ 32 - 1) (staying : m.leave = false) {me new : NodeState}
    (before : entry m y = some me) (counter : m'.incarnation = m.incarnation.add 1) (leave : m'.leave = m.leave)
    (after : entry m' y = some new) (name : new.name = y) (addr : new.addr = me.addr) (port : new.port = me.port)
    (vsn : new.vsn = me.vsn) (isAlive : new.state = .alive)
    (drawn : new.incarnation = (m.incarnation.add 1).value)
    (queue : ∀ b ∈ m'.broadcasts, b ∈ m.broadcasts ∨ b.msg =
      .alive ⟨(m.incarnation.add 1).value,y,me.addr,me.port,new.metadata,(S.conf y).buildVsnArray⟩) :
    Evolves y w (reissue w y new.metadata) ∧ InstTrue S (reissue w y new.metadata) y m' := by
  have room' : m.incarnation.adds + 1 < 2 ^ 32 := by
    rw [counter] at room
    simp only [Counter.add] at room
    omega
  obtain ⟨value,above⟩ := next_above is room'
  have next : (m.incarnation.add 1).value = w.counter y + 1 := by rw [← is.counter]; rfl
  have staying' : ¬ w.left y := by rw [is.left,staying]; simp
  have step : Evolves y w (reissue w y new.metadata) :=
    reissue_evolves new.metadata staying' (by rw [is.counter] at above; exact above)
  obtain ⟨-,meAddr,mePort,meVsn,-,-⟩ := is.records y me before
  rw [entry_name is.wf before] at meAddr mePort meVsn
  have born : w.born y := is.born.mpr (.inl (by rw [before]; simp))
  have top : (reissue w y new.metadata).counter y = w.counter y + 1 := Function.update_self ..
  have said : (reissue w y new.metadata).said y (w.counter y + 1) = new.metadata := by
    simp [reissue]
  have known : Known (reissue w y new.metadata) y (w.counter y + 1) := ⟨born,by rw [top]; exact UInt32.le_refl _⟩
  refine ⟨step,?_⟩
  constructor
  · exact tableWF_move is.wf move
  · exact (config_move move).trans is.config
  · exact (shutdown_move move).trans is.up
  · rw [counter,top,next]
  · rw [counter]; exact value
  · rw [leave]; exact is.left
  · rw [leave,after]
    exact iff_of_true born (.inl (by simp))
  · intro s held
    rw [after] at held
    cases held
    rw [top,leave,staying,drawn,next]
    exact ⟨rfl,isAlive⟩
  · intro n s held
    by_cases here : n = y
    · subst here
      rw [after] at held
      cases held
      rw [next] at drawn
      constructor
      · rw [name,drawn]; exact known
      · rw [name,addr]; exact meAddr
      · rw [name,port]; exact mePort
      · rw [name,vsn]; exact meVsn
      · rw [name,drawn]; exact fun _ => said.symm
      · rw [isAlive]; exact fun isLeft => by cases isLeft
    · exact recTrue_mono step (records_move is told move here held)
  · intro b member
    rcases queue b member with old | issued
    · exact msgTrue_mono step (is.queue b old)
    · rw [issued,next]
      exact ⟨known,meAddr,mePort,rfl,said.symm⟩

/-- The node `y` leaves. -/
def depart (w : World) (y : Bytes) : World := { w with left := fun x => x = y ∨ w.left x }

theorem depart_evolves (w : World) (y : Bytes) : Evolves y w (depart w y) where
  others := by
    intro x other
    simp [depart,other]
  born := id
  counter := UInt32.le_refl _
  left := fun _ => ⟨.inl rfl,rfl⟩
  said := fun _ _ _ => rfl

theorem inst_leave {op : Op} (is : InstTrue S w y m) (told : OpTrue S w op) (move : Move m op m') {me new : NodeState}
    (before : entry m y = some me) (counter : m'.incarnation = m.incarnation) (leave : m'.leave = true)
    (after : entry m' y = some new) (said : new = { me with state := .left, stateChange := new.stateChange })
    (queue : ∀ b ∈ m'.broadcasts, b ∈ m.broadcasts ∨ b.msg = .dead ⟨me.incarnation,y,y⟩) :
    InstTrue S (depart w y) y m' := by
  have step := depart_evolves w y
  have meTrue := is.records y me before
  have name : me.name = y := entry_name is.wf before
  have last : me.incarnation = w.counter y := (is.own me before).1
  constructor
  · exact tableWF_move is.wf move
  · exact (config_move move).trans is.config
  · exact (shutdown_move move).trans is.up
  · rw [counter]; exact is.counter
  · rw [counter]; exact is.exact
  · exact iff_of_true (.inl rfl) leave
  · refine iff_of_true (is.born.mpr (.inl ?_)) (.inr leave)
    rw [before]; simp
  · intro s held
    rw [after] at held
    cases held
    rw [said,leave]
    exact ⟨last,rfl⟩
  · intro n s held
    by_cases here : n = y
    · subst here
      rw [after] at held
      cases held
      rw [said]
      exact ⟨known_mono step meTrue.known,meTrue.addr,meTrue.port,meTrue.vsn,fun isAlive => (by cases isAlive),
        fun _ => ⟨.inl name,by rw [name]; exact last⟩⟩
    · exact recTrue_mono step (records_move is told move here held)
  · intro b member
    rcases queue b member with old | issued
    · exact msgTrue_mono step (is.queue b old)
    · rw [issued]
      have known := known_mono step meTrue.known
      rw [name] at known
      exact ⟨known,fun _ => ⟨.inl rfl,last⟩⟩

/-- What the nodes have decided after a move of `y`, and that `y` repeats it. A node
    decides nothing before `setAlive` has stored it. -/
def Follows (S : Setup) (w : World) (y : Bytes) (m' : Memberlist) : Prop :=
  ∃ w', Evolves y w w' ∧ (¬ w.born y → w' = w) ∧ InstTrue S w' y m'

theorem follows_same (is : InstTrue S w y m') : Follows S w y m' := ⟨w,evolves_refl y w,fun _ => rfl,is⟩

theorem follows_refute {op : Op} (is : InstTrue S w y m) (told : OpTrue S w op) (move : Move m op m')
    (room : m'.incarnation.adds < 2 ^ 32 - 1) {r : Ref} (found : m.nodeMap y = some r) (staying : m.leave = false)
    {accusedInc : UInt32} (bound : accusedInc ≤ w.counter y) (counter : m'.incarnation = m.incarnation.beat accusedInc)
    (leave : m'.leave = m.leave) (after : entry m' y = some (refuted m (m.heap r) accusedInc))
    (queue : m'.broadcasts = encodeBroadcastNotify m.broadcasts (ipString (bytes (m.heap r).addr))
      (.alive ⟨(m.incarnation.beat accusedInc).value,(m.heap r).name,(m.heap r).addr,(m.heap r).port,
        (m.heap r).metadata,some (m.heap r).vsn.toList⟩) none) : Follows S w y m' := by
  have before := entry_eq found
  have room' : m.incarnation.adds + 1 < 2 ^ 32 := by
    have := adds_beat m.incarnation accusedInc
    rw [counter] at room
    omega
  have beaten := beat_eq is bound room'
  have name : (m.heap r).name = y := is.wf.named y r found
  have vsn : (m.heap r).vsn = (S.conf y).versions := by
    have := (is.records y _ before).vsn
    rwa [name] at this
  have isAlive : (m.heap r).state = .alive := by
    have := (is.own _ before).2
    rwa [staying] at this
  have born : w.born y := is.born.mpr (.inl (by rw [before]; simp))
  obtain ⟨step,is'⟩ := inst_reissue is told move room staying before (counter.trans beaten) leave after name rfl rfl rfl
    isAlive (by rw [refuted,beaten]) (by
      intro b member
      rw [queue] at member
      rcases queue_mem member with old | new
      · exact .inl old
      · rw [new,beaten,name,vsn]
        exact .inr rfl)
  exact ⟨_,step,fun unborn => absurd born unborn,is'⟩

theorem follows_reset (is : InstTrue S w y m) (now : Time) (draws : Nat → Nat) :
    Follows S w y (resetNodes m now draws) := by
  have records := entry_resetNodes now draws is.wf
  have known : ∀ {n s}, entry (resetNodes m now draws) n = some s → entry m n = some s :=
    fun held => entry_of_reset now draws is.wf held
  refine follows_same ⟨tableWF_resetNodes now draws is.wf,is.config,is.up,is.counter,is.exact,is.left,?_,
    fun s held => is.own s (known held),fun n s held => is.records n s (known held),is.queue⟩
  rw [is.born,records]
  constructor
  · rintro (present | left)
    · -- The local record is reaped only after the node has left.
      obtain ⟨s,held⟩ := Option.ne_none_iff_exists'.mp present
      by_cases left : m.leave = true
      · exact .inr left
      · have isAlive := (is.own s held).2
        rw [if_neg left] at isAlive
        refine .inl ?_
        simp [held,reaps,NodeState.deadOrLeft,isAlive]
    · exact .inr left
  · rintro (present | left)
    · refine .inl (fun absent => present ?_)
      rw [absent]; rfl
    · exact .inr left

theorem inst_move {op : Op} (is : InstTrue S w y m) (told : OpTrue S w op) (move : Move m op m')
    (room : m'.incarnation.adds < 2 ^ 32 - 1) : Follows S w y m' := by
  have made := move
  have name := inst_name is
  have here : ∀ {n r}, m.nodeMap n = some r → (m.heap r).name = m.config.name → n = y :=
    fun found isLocal => (local_of_found is.wf found isLocal).trans name
  have away : ∀ {n r}, m.nodeMap n = some r → (m.heap r).name ≠ m.config.name → n ≠ y :=
    fun found remote same => remote_of_found is.wf found remote (name.trans same.symm)
  have same : ∀ b ∈ m.broadcasts, b ∈ m.broadcasts ∨ MsgTrue S w b.msg := fun _ member => .inl member
  have queued : ∀ (msg : Message) {n notify}, MsgTrue S w msg →
      ∀ b ∈ encodeBroadcastNotify m.broadcasts n msg notify, b ∈ m.broadcasts ∨ MsgTrue S w b.msg := by
    intro msg n notify isTrue b member
    rcases queue_mem member with old | new
    · exact .inl old
    · rw [new]; exact .inr isTrue
  cases move with
  | conflict => exact follows_same (inst_passive is told made rfl rfl rfl same)
  | @add a env vsn absent accepted allowed joining =>
    have other : a.node ≠ y := by
      intro isLocal
      -- Nobody speaks of a node that has not stored itself.
      have known : AliveTrue S w a := told
      rcases is.born.mp (isLocal ▸ known.known.born) with present | left
      · exact present (entry_eq_none.mpr (isLocal ▸ absent))
      · rw [joining (isLocal.trans name.symm)] at left
        cases left
    exact follows_same (inst_passive is told made rfl rfl
      (entry_other (entry_addNode is.wf (newRecord a vsn) env.offset) other) same)
  | repeatAlive => exact follows_same (inst_passive is told made rfl rfl rfl same)
  | @refuteAlive a env r found isLocal staying =>
    have isHere := here found isLocal
    have known : AliveTrue S w a := told
    have bound : a.incarnation ≤ w.counter y := isHere ▸ known.known.bound
    exact follows_refute is told made room (isHere ▸ found) (staying (local_of_found is.wf found isLocal)) bound rfl rfl
      (entry_at (table_refuteAlive is.wf found none).2 isHere) rfl
  | applyAlive found accepted remote =>
    exact follows_same (inst_passive is told made rfl rfl
      (entry_other (table_applyAlive is.wf _ found _ _ _ _).2 (away found remote)) (queued _ told))
  | @confirm s env r t found =>
    refine follows_same (inst_passive is told made rfl rfl rfl ?_)
    intro b member
    simp only [confirmTimer] at member
    split_ifs at member
    · exact queued (.suspect s) told b member
    · exact .inl member
  | @refuteSuspect s env r found isLocal isAlive =>
    have isHere := here found isLocal
    have known : Known w s.node s.incarnation := told
    have bound : s.incarnation ≤ w.counter y := isHere ▸ known.bound
    have staying : m.leave = false := by
      have state := (is.own _ (found_at found isHere)).2
      rw [isAlive] at state
      by_contra left
      simp [left] at state
    exact follows_refute is told made room (isHere ▸ found) staying bound rfl rfl
      (entry_at (table_refute is.wf found _).2 isHere) rfl
  | @applySuspect s env r found remote =>
    exact follows_same (inst_passive is told made rfl rfl
      (entry_other (table_applySuspect is.wf _ found _).2 (away found remote)) (queued (.suspect s) told))
  | repeatDead => exact follows_same (inst_passive is told made rfl rfl rfl same)
  | @refuteDead d env r found isLocal staying =>
    have isHere := here found isLocal
    have known : DeadTrue w d := told
    have bound : d.incarnation ≤ w.counter y := isHere ▸ known.known.bound
    exact follows_refute is told made room (isHere ▸ found) staying bound rfl rfl
      (entry_at (table_refuteDead is.wf found _).2 isHere) rfl
  | @applyDead d env r notify found leaving live =>
    have remote : (m.heap r).name ≠ m.config.name := by
      intro isLocal
      have state := (is.own _ (found_at found (here found isLocal))).2
      rw [leaving isLocal] at state
      simp [NodeState.deadOrLeft,state] at live
    exact follows_same (inst_passive is told made rfl rfl
      (entry_other (table_applyDead is.wf d found _ _ _).2 (away found remote)) (queued (.dead d) told))
  | reset => exact follows_reset is _ _
  | @updateStale _ _ _ _ r found _ stale =>
    have found' : m.nodeMap y = some r := name ▸ found
    have room' : m.incarnation.adds + 1 < 2 ^ 32 := Nat.lt_trans room (by decide)
    rw [(is.own _ (entry_eq found')).1] at stale
    exact absurd (UInt32.lt_trans stale (next_above is room').2) (UInt32.lt_irrefl _)
  | @update answer metadata notify receipt env r given found staying =>
    have found' : m.nodeMap y = some r := name ▸ found
    have before := entry_eq found'
    have named : (m.heap r).name = y := is.wf.named y r found'
    have own : m.config.buildVsnArray = (S.conf y).buildVsnArray := by rw [is.config]
    have vsn : (aliveRecord (m.heap r) (ownAlive m r metadata) m.config.versions env.now).vsn = (m.heap r).vsn := by
      have stored := (is.records y _ before).vsn
      rw [named] at stored
      rw [stored,← is.config]
      simp [aliveRecord,ownAlive,Config.buildVsnArray,Versions.toList]
    obtain ⟨step,is'⟩ := inst_reissue is told made room staying before rfl rfl
      (entry_at (table_update is.wf (ownAlive m r metadata) found _ _ _ _ _).2 name) named rfl rfl vsn rfl rfl (by
        intro b member
        rcases queue_mem member with old | new
        · exact .inl old
        · rw [new]
          refine .inr ?_
          simp only [ownAlive,aliveRecord,name,own])
    have born : w.born y := is.born.mpr (.inl (by rw [before]; simp))
    exact ⟨_,step,fun unborn => absurd born unborn,is'⟩
  | @leave receipt env r found staying live =>
    have found' : m.nodeMap y = some r := name ▸ found
    have before := entry_eq found'
    have born : w.born y := is.born.mpr (.inl (by rw [before]; simp))
    have after := entry_at (table_leave is.wf (ownDead m r) found receipt (some m.leaveBroadcast) receipt env.now).2 name
    refine ⟨depart w y,depart_evolves w y,fun unborn => absurd born unborn,
      inst_leave is told made before rfl rfl after ?_ ?_⟩
    · simp [deadRecord,ownDead]
    · intro b member
      rcases queue_mem member with old | new
      · exact .inl old
      · rw [new]
        refine .inr ?_
        simp only [ownDead,name]
  | @leaveDead receipt env r found staying isDead =>
    have found' : m.nodeMap y = some r := name ▸ found
    have isAlive := (is.own _ (entry_eq found')).2
    rw [staying] at isAlive
    simp [NodeState.deadOrLeft,isAlive] at isDead

end

theorem inst_apply {S : Setup} {w : World} {y : Bytes} {m : Memberlist} (is : InstTrue S w y m) (op : Op)
    (told : ∀ cause, resolve m op = some cause → OpTrue S w cause)
    (room : (apply m op).incarnation.adds < 2 ^ 32 - 1) : Follows S w y (apply m op) := by
  rcases apply_commits is.wf op with idle | ⟨cause,resolved,made⟩
  · rw [idle]; exact follows_same is
  have toldCause := told cause resolved
  generalize apply m op = m' at made room
  cases made with
  | idle => exact follows_same is
  | move move => exact inst_move is toldCause move room
  | @join a env m₁ m' absent added move =>
    obtain ⟨w₁,step,decided,is₁⟩ := inst_move is toldCause added (Nat.lt_of_le_of_lt (adds_move move) room)
    obtain ⟨w₂,step',decided',is₂⟩ := inst_move is₁ (opTrue_mono step toldCause) move room
    refine ⟨w₂,evolves_trans step step',fun unborn => ?_,is₂⟩
    obtain rfl := decided unborn
    exact decided' unborn

/-- Another node's decisions do not concern the instance. -/
theorem inst_mono {S : Setup} {w w' : World} {x y : Bytes} {m : Memberlist} (step : Evolves y w w') (other : x ≠ y)
    (is : InstTrue S w x m) : InstTrue S w' x m := by
  obtain ⟨born,counter,left,-⟩ := step.others x other
  exact { is with
    counter := by rw [counter]; exact is.counter
    left := left.trans is.left
    born := born.trans is.born
    own := by rw [counter]; exact is.own
    records := fun n s held => recTrue_mono step (is.records n s held)
    queue := fun b member => msgTrue_mono step (is.queue b member) }

end Mori.Instance
