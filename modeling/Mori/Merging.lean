import Mori.Traffic

/-!
Concurrent push/pull merges. Each call of `mergeRemoteState` checks the remote
state, asks the merge delegate, checks again under mergeLock and merges entry by
entry; calls interleave at every step. A check that succeeds yields versions that
every live node understands and every live or suspect node speaks, which the merge
keeps entry by entry. Only the holder of mergeLock changes the table, so they still
hold when it releases the lock.
-/
namespace Mori.Merging
open Mori.Net Mori.Protocol Mori.State Mori.Table Mori.Moves Mori.LocalNode Mori.PeerRecord Mori.Traffic

/-- A node with these versions understands all versions of the range. -/
def Understands (u : Understood) (v : Versions) : Prop :=
  v.pMin ≤ u.maxpmin ∧ u.minpmax ≤ v.pMax ∧ v.dMin ≤ u.maxdmin ∧ u.mindmax ≤ v.dMax

/-- A node with these versions speaks versions of the range. -/
def Speaks (u : Understood) (v : Versions) : Prop :=
  (u.maxpmin ≤ v.pCur ∧ v.pCur ≤ u.minpmax) ∧ u.maxdmin ≤ v.dCur ∧ v.dCur ≤ u.mindmax

/-- A range within another. -/
def Narrower (u' u : Understood) : Prop :=
  u.maxpmin ≤ u'.maxpmin ∧ u'.minpmax ≤ u.minpmax ∧ u.maxdmin ≤ u'.maxdmin ∧ u'.mindmax ≤ u.mindmax

section
variable {u u' u'' : Understood} {v : Versions}

theorem narrower_refl (u : Understood) : Narrower u u :=
  ⟨UInt8.le_refl _,UInt8.le_refl _,UInt8.le_refl _,UInt8.le_refl _⟩

theorem narrower_trans (first : Narrower u'' u') (second : Narrower u' u) : Narrower u'' u :=
  ⟨UInt8.le_trans second.1 first.1,UInt8.le_trans first.2.1 second.2.1,UInt8.le_trans second.2.2.1 first.2.2.1,
    UInt8.le_trans first.2.2.2 second.2.2.2⟩

theorem understands_mono (narrower : Narrower u' u) (understands : Understands u v) : Understands u' v :=
  ⟨UInt8.le_trans understands.1 narrower.1,UInt8.le_trans narrower.2.1 understands.2.1,
    UInt8.le_trans understands.2.2.1 narrower.2.2.1,UInt8.le_trans narrower.2.2.2 understands.2.2.2⟩

theorem le_max_both (a b : UInt8) : a ≤ max a b ∧ b ≤ max a b := by
  change a ≤ (if a ≤ b then b else a) ∧ b ≤ (if a ≤ b then b else a)
  split_ifs with below
  · exact ⟨below,UInt8.le_refl b⟩
  · exact ⟨UInt8.le_refl a,UInt8.le_of_lt (UInt8.not_le.mp below)⟩

theorem narrow_spec (u : Understood) (v : Versions) : Narrower (u.narrow v) u ∧ Understands (u.narrow v) v :=
  ⟨⟨(le_max_both _ _).1,Std.min_le_left,(le_max_both _ _).1,Std.min_le_left⟩,
    (le_max_both _ _).2,Std.min_le_right,(le_max_both _ _).2,Std.min_le_right⟩

theorem speaks_of_check {name : Bytes} (checked : u.check name v = .ok ()) : Speaks u v := by
  unfold Understood.check at checked
  split_ifs at checked with protocol delegate
  rw [not_or,UInt8.not_lt,UInt8.not_lt] at protocol delegate
  exact ⟨protocol,delegate⟩

end

theorem bind_ok {ε : Type} {x y : Except ε Unit} (done : (do x; y) = .ok ()) : x = .ok () ∧ y = .ok () := by
  cases x with
  | error err => cases done
  | ok _ => exact ⟨rfl,done⟩

/-- A loop that does not fail does not fail at any element. -/
theorem forM_ok {α ε : Type} {f : α → Except ε Unit} {xs : List α} (done : xs.forM f = .ok ()) : ∀ x ∈ xs, f x = .ok () := by
  induction xs with
  | nil => exact fun x member => (List.not_mem_nil member).elim
  | cons x xs ih =>
    obtain ⟨first,rest⟩ := bind_ok (x := f x) (y := xs.forM f) done
    intro y member
    rcases List.mem_cons.mp member with rfl | later
    · exact first
    · exact ih rest y later

theorem narrowRemote_spec {remote : List PushNodeState} {u u' : Understood} (done : narrowRemote remote u = .ok u') :
    Narrower u' u ∧ ∀ r ∈ remote, ∃ v, parseVsn r.vsn = some v ∧
      (r.state = NodeStateType.alive.toInt → (bytes r.vsn).length ≠ 0 → Understands u' v) := by
  induction remote generalizing u with
  | nil =>
    cases done
    exact ⟨narrower_refl _,fun r member => (List.not_mem_nil member).elim⟩
  | cons rn remote ih =>
    unfold narrowRemote at done
    cases parsed : parseVsn rn.vsn with
    | none => rw [parsed] at done; cases done
    | some vsn =>
      rw [parsed] at done
      obtain ⟨narrower,others⟩ := ih done
      obtain ⟨step,own⟩ := narrow_spec u vsn
      constructor
      · split_ifs at narrower with skipped
        · exact narrower
        · exact narrower_trans narrower step
      · intro r member
        rcases List.mem_cons.mp member with rfl | later
        · refine ⟨vsn,parsed,fun live given => ?_⟩
          rw [if_neg (not_or.mpr ⟨not_not.mpr live,given⟩)] at narrower
          exact understands_mono narrower own
        · exact others r later

theorem foldl_narrow (heap : Ref → NodeState) (rs : List Ref) (u : Understood) :
    Narrower (rs.foldl (fun u r => if (heap r).state ≠ .alive then u else u.narrow (heap r).vsn) u) u ∧
      ∀ r ∈ rs, (heap r).state = .alive →
        Understands (rs.foldl (fun u r => if (heap r).state ≠ .alive then u else u.narrow (heap r).vsn) u) (heap r).vsn := by
  induction rs generalizing u with
  | nil => exact ⟨narrower_refl u,fun r member => (List.not_mem_nil member).elim⟩
  | cons r rs ih =>
    obtain ⟨narrower,others⟩ := ih (if (heap r).state ≠ .alive then u else u.narrow (heap r).vsn)
    obtain ⟨step,own⟩ := narrow_spec u (heap r).vsn
    rw [List.foldl_cons]
    constructor
    · refine narrower_trans narrower ?_
      split_ifs
      · exact narrower_refl u
      · exact step
    · intro r' member live
      rcases List.mem_cons.mp member with rfl | later
      · refine understands_mono narrower ?_
        rw [if_neg (not_not.mpr live)]
        exact own
      · exact others r' later live

section
variable {m m' : Memberlist} {u : Understood}

/-- A live node understands the range, and a live or suspect one speaks it. -/
def Agrees (u : Understood) (s : NodeState) : Prop :=
  (s.state = .alive → Understands u s.vsn) ∧ (s.deadOrLeft = false → Speaks u s.vsn)

def Agreed (u : Understood) (m : Memberlist) : Prop := ∀ n s, entry m n = some s → Agrees u s

/-- The versions of a live remote node: they are given and fit the range. -/
def Fits (u : Understood) (vsn : Slice) : Prop :=
  (bytes vsn).length ≠ 0 ∧ ∃ v, parseVsn vsn = some v ∧ Understands u v ∧ Speaks u v

theorem listed_of_entry (wf : TableWF m) {n : Bytes} {s : NodeState} (held : entry m n = some s) :
    ∃ r ∈ m.nodes, m.heap r = s := by
  obtain ⟨r,found,same⟩ := entry_eq_some.mp held
  exact ⟨r,(wf.listed r).mpr ⟨n,found⟩,same⟩

/-- A remote node without versions counts as one that speaks version 0, which the
    local node does not understand. -/
theorem verifyProtocol_ok (wf : TableWF m) {remote : List PushNodeState} (verified : verifyProtocol m remote = .ok ())
    {me : NodeState} (held : localEntry m = some me) (live : me.state = .alive) (own : me.vsn = m.config.versions) :
    ∃ u, Agreed u m ∧ ∀ r ∈ remote, r.state = NodeStateType.alive.toInt → Fits u r.vsn := by
  unfold verifyProtocol at verified
  cases narrowed : narrowRemote remote {} with
  | error err => rw [narrowed] at verified; cases verified
  | ok u₀ =>
    rw [narrowed] at verified
    obtain ⟨-,remotes⟩ := narrowRemote_spec narrowed
    obtain ⟨narrower,locals⟩ := foldl_narrow m.heap m.nodes u₀
    change (do
      remote.forM (fun n =>
        if n.state = NodeStateType.dead.toInt ∨ n.state = NodeStateType.left.toInt then return ()
        else (narrowLocal m u₀).check n.name ((parseVsn n.vsn).getD {}))
      m.nodes.forM (fun r =>
        if (m.heap r).deadOrLeft then return () else (narrowLocal m u₀).check (m.heap r).name (m.heap r).vsn)) = _ at verified
    change Narrower (narrowLocal m u₀) u₀ at narrower
    change ∀ r ∈ m.nodes, (m.heap r).state = .alive → Understands (narrowLocal m u₀) (m.heap r).vsn at locals
    generalize narrowLocal m u₀ = u at verified narrower locals
    obtain ⟨remoteChecks,localChecks⟩ := bind_ok verified
    have agreed : Agreed u m := by
      intro n s held
      obtain ⟨r,listed,rfl⟩ := listed_of_entry wf held
      refine ⟨locals r listed,fun live => ?_⟩
      have checked := forM_ok localChecks r listed
      rw [if_neg (by rw [live]; decide)] at checked
      exact speaks_of_check checked
    refine ⟨u,agreed,fun r listed alive => ?_⟩
    obtain ⟨v,parsed,narrows⟩ := remotes r listed
    have checked := forM_ok remoteChecks r listed
    rw [if_neg (by rw [alive]; decide),parsed] at checked
    have spoken := speaks_of_check checked
    have given : (bytes r.vsn).length ≠ 0 := by
      intro zero
      have zeros : v = {} := by
        rw [parseVsn,List.eq_nil_of_length_eq_zero zero] at parsed
        exact (Option.some.inj parsed).symm
      have minimum := ((agreed _ me held).1 live).1
      rw [own] at minimum
      have low := UInt8.le_trans minimum spoken.1.1
      rw [zeros] at low
      change protocolVersionMin ≤ 0 at low
      exact absurd low (by decide)
    exact ⟨given,v,parsed,understands_mono narrower (narrows alive given),spoken⟩

/-- The local node is alive with the versions that it announces, and stays. -/
def LocalLive (m : Memberlist) : Prop :=
  m.leave = false ∧ ∃ me, localEntry m = some me ∧ me.state = .alive ∧ me.vsn = m.config.versions

/-- What a merge makes of an entry. -/
def FitsOp (u : Understood) : Op → Prop
  | .alive a _ => Fits u a.vsn
  | .merge r _ => r.state = NodeStateType.alive.toInt → Fits u r.vsn
  | .suspect .. => True
  | .dead .. => True
  | _ => False

theorem fitsOp_resolve {op cause : Op} (fits : FitsOp u op) (resolved : resolve m op = some cause) : FitsOp u cause := by
  cases op with
  | merge r env =>
    rcases resolve_merge resolved with ⟨live,rfl⟩ | rfl | rfl
    · exact fits live
    · trivial
    · trivial
  | expire => exact fits.elim
  | _ => cases resolved; exact fits

theorem localLive_move {op : Op} (fits : FitsOp u op) (wf : TableWF m) (live : LocalLive m) (move : Move m op m') :
    LocalLive m' := by
  obtain ⟨staying,me,held,isAlive,own⟩ := live
  rw [← config_move move] at own
  cases local_move wf move with
  | same kept flag => exact ⟨flag.trans staying,me,kept.trans held,isAlive,own⟩
  | add absent => rw [absent] at held; cases held
  | refute before after flag =>
    rw [held] at before
    cases before
    exact ⟨flag.trans staying,_,after,isAlive,own⟩
  | dead _ _ left => rw [staying] at left; cases left
  | reset => exact fits.elim
  | update => exact fits.elim
  | leave => exact fits.elim
  | leaveDead => exact fits.elim

theorem agrees_dead {s : NodeState} (isDead : s.deadOrLeft = true) : Agrees u s := by
  constructor
  · intro live
    rw [(deadOrLeft_false_iff s).mpr (.inl live)] at isDead
    cases isDead
  · intro live
    rw [isDead] at live
    cases live

theorem agrees_alive {s : NodeState} {a : Alive} {vsn : Versions} (fits : Fits u a.vsn) (accepted : acceptableVsn a = some vsn)
    (now : Time) : Agrees u (aliveRecord s a vsn now) := by
  obtain ⟨given,v,parsed,understands,speaks⟩ := fits
  have same : v = vsn := by
    unfold acceptableVsn at accepted
    rw [parsed] at accepted
    simp only at accepted
    split_ifs at accepted
    exact Option.some.inj accepted
  subst same
  have versions : (aliveRecord s a v now).vsn = v := if_neg given
  rw [Agrees,versions]
  exact ⟨fun _ => understands,fun _ => speaks⟩

theorem agreed_move {op : Op} (fits : FitsOp u op) (wf : TableWF m) (live : LocalLive m) (agreed : Agreed u m)
    (move : Move m op m') : Agreed u m' := by
  intro n s held
  by_cases isLocal : n = m.config.name
  · -- The local record keeps its state and its versions.
    obtain ⟨-,me',mine',isAlive',own'⟩ := localLive_move fits wf live move
    obtain ⟨-,me,mine,isAlive,own⟩ := live
    rw [localEntry,config_move move,← isLocal,held] at mine'
    rw [localEntry,← isLocal] at mine
    cases mine'
    have before := agreed n me mine
    rw [Agrees,isAlive,own] at before
    rw [Agrees,isAlive',own',config_move move]
    exact ⟨before.1,fun _ => before.2 ((deadOrLeft_false_iff me).mpr (.inl isAlive))⟩
  · cases peer_move wf isLocal move with
    | same kept => exact agreed n s (kept.symm.trans held)
    | add _ _ _ _ after =>
      rw [after] at held
      cases held
      exact agrees_dead rfl
    | alive _ before accepted _ after =>
      rw [after] at held
      cases held
      exact agrees_alive fits accepted _
    | @suspect a env old _ before isAlive _ after =>
      rw [after] at held
      cases held
      have spoken := (agreed n old before).2 ((deadOrLeft_false_iff old).mpr (.inl isAlive))
      refine ⟨fun live => ?_,fun _ => spoken⟩
      cases live
    | @dead d env old _ _ _ _ after =>
      rw [after] at held
      cases held
      exact agrees_dead (deadRecord_dead old d env.now)
    | reset => exact fits.elim

/-- What holds of the table when an entry is merged holds afterwards. -/
theorem mergeEntry_agreed {r : PushNodeState} (wf : TableWF m) (live : LocalLive m) (agreed : Agreed u m)
    (fits : r.state = NodeStateType.alive.toInt → Fits u r.vsn) (env : Env) :
    TableWF (mergeEntry m r env) ∧ LocalLive (mergeEntry m r env) ∧ Agreed u (mergeEntry m r env) :=
  apply_keeps (I := fun m => LocalLive m ∧ Agreed u m) (P := FitsOp u) fitsOp_resolve
    (fun fits wf held move => ⟨localLive_move fits wf held.1 move,agreed_move fits wf held.1 held.2 move⟩) wf
    ⟨live,agreed⟩ (show FitsOp u (.merge r env) from fits)

end

/-- The arguments of a call of `mergeRemoteState`, and the error of the merge
    delegate where it is asked and refuses. -/
structure Exchange where
  remoteNodes : List PushNodeState
  notifyMerge : Option String := none

/-- Where a call stands: before the early check, before the merge delegate, before
    mergeLock, before the check under it, within `mergeState` with the entries to go,
    and after its return. -/
inductive Phase where
  | early
  | notify
  | waiting
  | locked
  | merging (rest : List PushNodeState)
  | returned (result : Except MergeError Unit)

/-- An instance with its calls of `mergeRemoteState`. -/
structure Merges where
  m : Memberlist
  mergeLock : Option Nat := none
  phase : Nat → Phase := fun _ => .early

def Merges.goto (s : Merges) (i : Nat) (phase : Phase) : Merges := { s with phase := Function.update s.phase i phase }

def Merges.release (s : Merges) (i : Nat) (result : Except MergeError Unit) : Merges :=
  { s.goto i (.returned result) with mergeLock := none }

/-- The next step of call `i`. Each check and each entry is a nodeLock section. -/
def advance (calls : Nat → Exchange) (s : Merges) (i : Nat) (env : Env) : Merges :=
  match s.phase i with
  | .early =>
    match verifyProtocol s.m (calls i).remoteNodes with
    | .error err => s.goto i (.returned (.error err))
    | .ok _ => s.goto i .notify
  | .notify =>
    match (calls i).notifyMerge with
    | some err => s.goto i (.returned (.error (.delegate err)))
    | none => s.goto i .waiting
  | .waiting => if s.mergeLock = none then { s.goto i .locked with mergeLock := some i } else s
  | .locked =>
    match verifyProtocol s.m (calls i).remoteNodes with
    | .error err => s.release i (.error err)
    | .ok _ => s.goto i (.merging (calls i).remoteNodes)
  | .merging [] => s.release i (.ok ())
  | .merging (r :: rest) => { s.goto i (.merging rest) with m := mergeEntry s.m r env }
  | .returned _ => s

/-- An interleaving: which call makes the next step. -/
def interleave (calls : Nat → Exchange) (s : Merges) (acts : List (Nat × Env)) : Merges :=
  acts.foldl (fun s act => advance calls s act.1 act.2) s

def Holding : Phase → Prop
  | .locked => True
  | .merging _ => True
  | _ => False

/-- A call that has begun to merge will not fail. -/
def Committed : Phase → Prop
  | .merging _ => True
  | .returned (.ok _) => True
  | _ => False

/-- A call neither holds mergeLock nor has merged. -/
def Open (p : Phase) : Prop := ¬ Holding p ∧ ¬ Committed p

/-- What a step of call `i` can do. -/
inductive Step (calls : Nat → Exchange) (s : Merges) (i : Nat) : Merges → Prop
  | stay : Step calls s i s
  | pass {p : Phase} (before : Open (s.phase i)) (after : Open p) : Step calls s i (s.goto i p)
  | acquire (waiting : s.phase i = .waiting) (unlocked : s.mergeLock = none) :
      Step calls s i { s.goto i .locked with mergeLock := some i }
  | refuse {err : MergeError} (locked : s.phase i = .locked) : Step calls s i (s.release i (.error err))
  | verify (locked : s.phase i = .locked) (verified : verifyProtocol s.m (calls i).remoteNodes = .ok ()) :
      Step calls s i (s.goto i (.merging (calls i).remoteNodes))
  | entry {r : PushNodeState} {rest : List PushNodeState} {env : Env} (merging : s.phase i = .merging (r :: rest)) :
      Step calls s i { s.goto i (.merging rest) with m := mergeEntry s.m r env }
  | finish (merging : s.phase i = .merging []) : Step calls s i (s.release i (.ok ()))

theorem advance_step (calls : Nat → Exchange) (s : Merges) (i : Nat) (env : Env) : Step calls s i (advance calls s i env) := by
  unfold advance
  cases phase : s.phase i with
  | early =>
    have before : Open (s.phase i) := by
      rw [phase]
      exact ⟨id,id⟩
    cases verifyProtocol s.m (calls i).remoteNodes with
    | error err => exact .pass before ⟨id,id⟩
    | ok _ => exact .pass before ⟨id,id⟩
  | notify =>
    have before : Open (s.phase i) := by
      rw [phase]
      exact ⟨id,id⟩
    cases (calls i).notifyMerge with
    | some err => exact .pass before ⟨id,id⟩
    | none => exact .pass before ⟨id,id⟩
  | waiting =>
    simp only
    split_ifs with unlocked
    · exact .acquire phase unlocked
    · exact .stay
  | locked =>
    cases verified : verifyProtocol s.m (calls i).remoteNodes with
    | error err => exact .refuse phase
    | ok _ => exact .verify phase verified
  | merging rest =>
    cases rest with
    | nil => exact .finish phase
    | cons r rest => exact .entry phase
  | returned result => exact .stay

/-- The holder of mergeLock is the one that verifies and merges, and what it has
    verified holds of the table and of the entries to go. -/
structure Serial (s : Merges) : Prop where
  wf : TableWF s.m
  live : LocalLive s.m
  held : ∀ i, Holding (s.phase i) → s.mergeLock = some i
  agreed : ∀ i rest, s.phase i = .merging rest →
    ∃ u, Agreed u s.m ∧ ∀ r ∈ rest, r.state = NodeStateType.alive.toInt → Fits u r.vsn

section
variable {calls : Nat → Exchange} {s : Merges} {i j : Nat} {p : Phase}

@[simp] theorem goto_self (s : Merges) (i : Nat) (p : Phase) : (s.goto i p).phase i = p := Function.update_self ..

theorem goto_other (other : j ≠ i) : (s.goto i p).phase j = s.phase j := Function.update_of_ne other ..

/-- The calls other than `i` are where they were. -/
theorem goto_cases (s : Merges) (i j : Nat) (p : Phase) :
    (j = i ∧ (s.goto i p).phase j = p) ∨ (j ≠ i ∧ (s.goto i p).phase j = s.phase j) := by
  by_cases same : j = i
  · subst same
    exact .inl ⟨rfl,goto_self s j p⟩
  · exact .inr ⟨same,goto_other same⟩

theorem serial_goto (serial : Serial s) (free : ¬ Holding p) : Serial (s.goto i p) :=
  { serial with
    held := by
      intro j holding
      rcases goto_cases s i j p with ⟨-,stands⟩ | ⟨-,stands⟩
      · rw [stands] at holding
        exact absurd holding free
      · rw [stands] at holding
        exact serial.held j holding
    agreed := by
      intro j rest stands
      rcases goto_cases s i j p with ⟨-,after⟩ | ⟨-,after⟩
      · rw [after] at stands
        rw [stands] at free
        exact absurd trivial free
      · exact serial.agreed j rest (after.symm.trans stands) }

/-- Where a call holds the lock, no other does. -/
theorem alone (serial : Serial s) (holding : Holding (s.phase i)) (other : j ≠ i) : ¬ Holding (s.phase j) := by
  intro too
  have mine := serial.held i holding
  rw [serial.held j too] at mine
  exact other (Option.some.inj mine)

theorem serial_release (serial : Serial s) (holding : Holding (s.phase i)) (result : Except MergeError Unit) :
    Serial (s.release i result) :=
  { serial with
    held := by
      intro j too
      rcases goto_cases s i j (.returned result) with ⟨-,stands⟩ | ⟨other,stands⟩
      · change Holding ((s.goto i (.returned result)).phase j) at too
        rw [stands] at too
        exact too.elim
      · change Holding ((s.goto i (.returned result)).phase j) at too
        rw [stands] at too
        exact absurd too (alone serial holding other)
    agreed := (serial_goto serial (i := i) (p := .returned result) id).agreed }

theorem serial_acquire (serial : Serial s) (free : s.mergeLock = none) :
    Serial { s.goto i .locked with mergeLock := some i } :=
  { serial with
    held := by
      intro j holding
      rcases goto_cases s i j .locked with ⟨same,-⟩ | ⟨-,stands⟩
      · rw [same]
      · change Holding ((s.goto i .locked).phase j) at holding
        rw [stands] at holding
        have taken := serial.held j holding
        rw [free] at taken
        cases taken
    agreed := by
      intro j rest stands
      rcases goto_cases s i j .locked with ⟨-,after⟩ | ⟨-,after⟩
      · cases after.symm.trans stands
      · exact serial.agreed j rest (after.symm.trans stands) }

/-- The holder goes on to merge what it has verified or what is left of it. -/
theorem serial_merging {m' : Memberlist} {rest : List PushNodeState} (serial : Serial s) (holding : Holding (s.phase i))
    (wf : TableWF m') (live : LocalLive m')
    (agreed : ∃ u, Agreed u m' ∧ ∀ r ∈ rest, r.state = NodeStateType.alive.toInt → Fits u r.vsn) :
    Serial { s.goto i (.merging rest) with m := m' } where
  wf := wf
  live := live
  held := by
    intro j too
    rcases goto_cases s i j (.merging rest) with ⟨same,-⟩ | ⟨other,stands⟩
    · rw [same]
      exact serial.held i holding
    · change Holding ((s.goto i (.merging rest)).phase j) at too
      rw [stands] at too
      exact absurd too (alone serial holding other)
  agreed := by
    intro j rest' stands
    rcases goto_cases s i j (.merging rest) with ⟨-,after⟩ | ⟨other,after⟩
    · cases after.symm.trans stands
      exact agreed
    · have merging := after.symm.trans stands
      have too : Holding (s.phase j) := by
        rw [merging]
        trivial
      exact absurd too (alone serial holding other)

theorem serial_step {s' : Merges} (serial : Serial s) (step : Step calls s i s') : Serial s' := by
  cases step with
  | stay => exact serial
  | pass _ free => exact serial_goto serial free.1
  | acquire _ unlocked => exact serial_acquire serial unlocked
  | refuse locked => exact serial_release serial (locked ▸ trivial) _
  | verify locked verified =>
    obtain ⟨-,me,held,isAlive,own⟩ := serial.live
    exact serial_merging serial (locked ▸ trivial) serial.wf serial.live
      (verifyProtocol_ok serial.wf verified held isAlive own)
  | @entry r rest env merging =>
    obtain ⟨u,agreed,fits⟩ := serial.agreed i _ merging
    obtain ⟨wf,live,agreed'⟩ := mergeEntry_agreed serial.wf serial.live agreed (fits r List.mem_cons_self) env
    exact serial_merging serial (merging ▸ trivial) wf live
      ⟨u,agreed',fun r' later => fits r' (List.mem_cons_of_mem r later)⟩
  | finish merging => exact serial_release serial (merging ▸ trivial) _

theorem serial_interleave (calls : Nat → Exchange) (serial : Serial s) (acts : List (Nat × Env)) : Serial (interleave calls s acts) := by
  induction acts generalizing s with
  | nil => exact serial
  | cons act acts ih => exact ih (serial_step serial (advance_step calls s act.1 act.2))

/-- Only the step that releases the lock after the last entry returns no error. -/
theorem returned_ok {s' : Merges} (step : Step calls s i s') (before : s.phase i ≠ .returned (.ok ()))
    (after : s'.phase i = .returned (.ok ())) : s.phase i = .merging [] ∧ s'.m = s.m := by
  cases step with
  | stay => exact absurd after before
  | pass _ free =>
    rw [goto_self] at after
    rw [after] at free
    exact absurd trivial free.2
  | finish merging => exact ⟨merging,rfl⟩
  | _ =>
    simp only [Merges.release,goto_self] at after
    cases after

theorem committed_step {s' : Merges} (step : Step calls s j s') (committed : Committed (s.phase i)) :
    Committed (s'.phase i) := by
  by_cases same : i = j
  · subst same
    cases step with
    | stay => exact committed
    | pass unmerged => exact absurd committed unmerged.2
    | acquire waiting => rw [waiting] at committed; exact committed.elim
    | refuse locked => rw [locked] at committed; exact committed.elim
    | _ =>
      simp only [Merges.release,goto_self]
      trivial
  · have kept : s'.phase i = s.phase i := by
      cases step with
      | stay => rfl
      | _ => exact goto_other same
    rw [kept]
    exact committed

theorem committed_interleave (calls : Nat → Exchange) (committed : Committed (s.phase i)) (acts : List (Nat × Env)) :
    Committed ((interleave calls s acts).phase i) := by
  induction acts generalizing s with
  | nil => exact committed
  | cons act acts ih => exact ih (committed_step (advance_step calls s act.1 act.2) committed)

/-- A step of a call that has not begun to merge leaves the instance as it is. -/
theorem table_step {s' : Merges} (step : Step calls s i s') (early : ¬ Committed (s.phase i)) : s'.m = s.m := by
  cases step with
  | entry merging =>
    rw [merging] at early
    exact absurd trivial early
  | _ => rfl

end

/-- Every live node understands what every live or suspect node speaks. -/
def Interoperable (m : Memberlist) : Prop :=
  ∀ x n y c, entry m x = some n → (n.state = .alive ∨ n.state = .suspect) → entry m y = some c → c.state = .alive →
    (c.vsn.pMin ≤ n.vsn.pCur ∧ n.vsn.pCur ≤ c.vsn.pMax) ∧ c.vsn.dMin ≤ n.vsn.dCur ∧ n.vsn.dCur ≤ c.vsn.dMax

theorem compatible_of_agreed {u : Understood} {m : Memberlist} (agreed : Agreed u m) : Interoperable m := by
  intro x n y c held participates held' live
  obtain ⟨⟨pLow,pHigh⟩,dLow,dHigh⟩ := (agreed x n held).2 ((deadOrLeft_false_iff n).mpr participates)
  obtain ⟨pMin,pMax,dMin,dMax⟩ := (agreed y c held').1 live
  exact ⟨⟨UInt8.le_trans pMin pLow,UInt8.le_trans pHigh pMax⟩,UInt8.le_trans dMin dLow,UInt8.le_trans dHigh dMax⟩

theorem leave_boot {m m' : Memberlist} {a : Alive} (boot : Boot m a m') : m'.leave = m.leave := by
  cases boot <;> rfl

/-- After `LeaveContext` the local record is dead or left. -/
theorem departed_reachable {conf : Config} {m : Memberlist} (reached : Reachable conf m) : Departed m := by
  induction reached with
  | build => exact fun left => by cases left
  | draw before addr port metadata ih => exact ih
  | @commit m m' before a named receipt env committed ih =>
    obtain ⟨-,config⟩ := tableWF_reachable before
    have here : a.node = m.config.name := named.trans (congrArg Config.name config.symm)
    obtain ⟨rfl,boot⟩ := setAliveLocked_boot here committed
    intro left
    have gone : m.leave = true := (leave_boot boot).symm.trans left
    have same : aliveNodeLocked m a none true receipt env = m := by
      rw [aliveNodeLocked,if_pos ⟨gone,here⟩]
    rw [same]
    exact ih gone
  | @step m before op ih =>
    exact (apply_invariant departed_move (tableWF_reachable before).1 ih op).2

/-- Where a call returns no error, the nodes are compatible at the end of its
    mergeLock section, however the calls interleave. A call that returns an error
    has changed nothing. -/
theorem merge_leaves_compatible {conf : Config} {m : Memberlist} (reached : Reachable conf m) (down : Bool) {me : NodeState}
    (held : localEntry m = some me) (live : me.state = .alive) (own : me.vsn = conf.versions)
    (calls : Nat → Exchange) (acts : List (Nat × Env)) {s : Merges}
    (run : s = interleave calls { m := { m with shutdown := down } } acts) :
    (∀ i env, s.phase i ≠ .returned (.ok ()) → (advance calls s i env).phase i = .returned (.ok ()) →
      Interoperable (advance calls s i env).m) ∧
    ∀ i err, s.phase i = .returned (.error err) → ∀ before env after, acts = before ++ (i,env) :: after →
      (interleave calls { m := { m with shutdown := down } } (before ++ [(i,env)])).m =
        (interleave calls { m := { m with shutdown := down } } before).m := by
  obtain ⟨wf,config⟩ := tableWF_reachable reached
  constructor
  · intro i env before after
    have staying : m.leave = false := by
      cases left : m.leave with
      | false => rfl
      | true =>
        have gone := departed_reachable reached left me held
        rw [(deadOrLeft_false_iff me).mpr (.inl live)] at gone
        cases gone
    have start : Serial { m := { m with shutdown := down } } := by
      refine ⟨tableWF_of_same (m := m) ⟨rfl,rfl,rfl,rfl,rfl⟩ wf,⟨staying,me,held,live,?_⟩,?_,?_⟩
      · rw [own,config]
      · exact fun i holding => holding.elim
      · intro i rest merging
        cases merging
    have serial := serial_interleave calls start acts
    rw [← run] at serial
    obtain ⟨merged,same⟩ := returned_ok (advance_step calls s i env) before after
    obtain ⟨u,agreed,-⟩ := serial.agreed i [] merged
    rw [same]
    exact compatible_of_agreed agreed
  · intro i err failed before env after split
    have early : ¬ Committed ((interleave calls { m := { m with shutdown := down } } before).phase i) := by
      intro committed
      have ended := committed_interleave calls committed ((i,env) :: after)
      rw [interleave,interleave,← List.foldl_append,← split] at ended
      change Committed ((interleave calls { m := { m with shutdown := down } } acts).phase i) at ended
      rw [← run,failed] at ended
      exact ended
    rw [interleave,List.foldl_append]
    exact table_step (advance_step calls _ i env) early

/-- The first call brings the node `b`, the second one a node `c` that understands
    version 1 only. -/
def twoCalls : Nat → Exchange
  | 0 => { remoteNodes := [⟨[98],some [10,0,0,2],7946,none,1,0,some [1,5,2,0,0,0]⟩] }
  | _ => { remoteNodes := [⟨[99],some [10,0,0,3],7946,none,1,0,some [1,1,1,0,0,0]⟩] }

/-- The first call up to its last entry, with the second one in between. -/
def interleaved : List (Nat × Env) := [(0,{}),(1,{}),(0,{}),(0,{}),(0,{}),(0,{})]

theorem merge_leaves_compatible_two :
    ∃ s, s = interleave twoCalls { m := { restarted with shutdown := false } } interleaved ∧
      (entry s.m [98]).isSome = true ∧ Interoperable (advance twoCalls s 0 {}).m ∧
      (interleave twoCalls { m := { restarted with shutdown := false } } [(0,{}),(1,{})]).m =
        (interleave twoCalls { m := { restarted with shutdown := false } } [(0,{})]).m := by
  obtain ⟨succeeds,fails⟩ := merge_leaves_compatible reachable_restarted false
    (show localEntry restarted = some (restarted.heap 1) from rfl) rfl rfl twoCalls interleaved rfl
  have last : Phase.merging [] ≠ .returned (.ok ()) := by
    intro same
    cases same
  refine ⟨_,rfl,rfl,succeeds 0 {} last rfl,?_⟩
  exact fails 1 (.protocol [97] 2 1 1) rfl [(0,{})] {} [(0,{}),(0,{}),(0,{}),(0,{})] rfl

end Mori.Merging
