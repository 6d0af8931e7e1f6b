import Mori.LocalNode
import Mathlib.Data.Prod.Lex

/-!
The records of other nodes. `PeerChange` lists what a move can do to such a
record. From it follows that a record never goes backwards: its incarnation and
state only grow and its address stays, unless its name is reclaimed.
-/
namespace Mori.PeerRecord
open Mori.Net Mori.Protocol Mori.State Mori.Table Mori.Moves Mori.LocalNode
set_option linter.unusedSimpArgs false

/-- What a move can do to the record of another node. -/
inductive PeerChange (m m' : Memberlist) (n : Bytes) : Op → Prop
  | same {op : Op} (kept : entry m' n = entry m n) : PeerChange m m' n op
  | add {a : Alive} {env : Env} {vsn : Versions} (here : a.node = n) (absent : entry m n = none)
      (accepted : acceptableVsn a = some vsn) (allowed : m.config.ipAllowed a.addr = true)
      (after : entry m' n = some (newRecord a vsn)) : PeerChange m m' n (.alive a env)
  | alive {a : Alive} {env : Env} {vsn : Versions} {s : NodeState} (here : a.node = n) (before : entry m n = some s)
      (accepted : acceptableVsn a = some vsn)
      (fits : (¬ conflicts s a ∧ s.incarnation < a.incarnation) ∨
        (conflicts s a ∧ m.config.ipAllowed a.addr = true ∧ reclaimable m.config s env.since))
      (after : entry m' n = some (aliveRecord s a vsn env.now)) : PeerChange m m' n (.alive a env)
  | suspect {a : Suspect} {env : Env} {s : NodeState} (here : a.node = n) (before : entry m n = some s)
      (isAlive : s.state = .alive) (newer : s.incarnation ≤ a.incarnation)
      (after : entry m' n = some (suspectRecord s a env.now)) : PeerChange m m' n (.suspect a env)
  | dead {d : Dead} {env : Env} {s : NodeState} (here : d.node = n) (before : entry m n = some s)
      (live : s.deadOrLeft = false) (newer : s.incarnation ≤ d.incarnation)
      (after : entry m' n = some (deadRecord s d env.now)) : PeerChange m m' n (.dead d env)
  | reset {now : Time} {draws : Nat → Nat} (after : entry m' n = (entry m n).filter (fun s => !reaps m.config now s)) :
      PeerChange m m' n (.reset now draws)

section
variable {m m' : Memberlist} {n : Bytes}

theorem peer_move {op : Op} (wf : TableWF m) (remote : n ≠ m.config.name) (move : Move m op m') :
    PeerChange m m' n op := by
  -- A refutation concerns the local record only.
  have notLocal : ∀ {n' r}, m.nodeMap n' = some r → (m.heap r).name = m.config.name → n' ≠ n :=
    fun found isLocal same => remote (same ▸ local_of_found wf found isLocal)
  cases move with
  | conflict => exact .same rfl
  | @add a env vsn absent accepted allowed =>
    by_cases here : a.node = n
    · exact .add here (here ▸ entry_eq_none.mpr absent) accepted allowed
        (entry_at (entry_addNode wf (newRecord a vsn) env.offset) here)
    · exact .same (entry_other (entry_addNode wf (newRecord a vsn) env.offset) here)
  | repeatAlive => exact .same rfl
  | refuteAlive found isLocal => exact .same (entry_other (table_refuteAlive wf found none).2 (notLocal found isLocal))
  | @applyAlive a env r vsn found accepted isRemote fits =>
    by_cases here : a.node = n
    · exact .alive here (found_at found here) accepted fits (entry_at (table_applyAlive wf a found _ _ _ _).2 here)
    · exact .same (entry_other (table_applyAlive wf a found _ _ _ _).2 here)
  | confirm => exact .same rfl
  | refuteSuspect found isLocal => exact .same (entry_other (table_refute wf found _).2 (notLocal found isLocal))
  | @applySuspect s env r found isRemote isAlive newer =>
    by_cases here : s.node = n
    · exact .suspect here (found_at found here) isAlive newer (entry_at (table_applySuspect wf s found _).2 here)
    · exact .same (entry_other (table_applySuspect wf s found _).2 here)
  | repeatDead => exact .same rfl
  | refuteDead found isLocal => exact .same (entry_other (table_refuteDead wf found _).2 (notLocal found isLocal))
  | @applyDead d env r notify found isRemote live newer =>
    by_cases here : d.node = n
    · exact .dead here (found_at found here) live newer (entry_at (table_applyDead wf d found _ _ _).2 here)
    · exact .same (entry_other (table_applyDead wf d found _ _ _).2 here)
  | reset => exact .reset (entry_resetNodes _ _ wf n)
  | updateStale => exact .same rfl
  | @update _ metadata _ _ _ r _ found =>
    exact .same (entry_other (table_update wf (ownAlive m r metadata) found _ _ _ _ _).2 (Ne.symm remote))
  | @leave _ _ r found => exact .same (entry_other (table_leave wf (ownDead m r) found _ _ _ _).2 (Ne.symm remote))
  | leaveDead => exact .same rfl

/-- An alive message touches the record of its node only. -/
theorem alive_change_other {a : Alive} {env : Env} (change : PeerChange m m' n (.alive a env)) (other : a.node ≠ n) :
    entry m' n = entry m n := by
  cases change with
  | same kept => exact kept
  | add here => exact absurd here other
  | alive here => exact absurd here other

/-- The commit of another node's `setAlive` leaves other records alone. -/
theorem boot_other {a : Alive} (wf : TableWF m) (other : a.node ≠ n) (boot : Boot m a m') : entry m' n = entry m n := by
  cases boot with
  | idle => rfl
  | conflict => rfl
  | apply found => exact entry_other (table_applyAlive wf a found _ _ _ _).2 other
  | @first vsn offset receipt now absent =>
    have added := entry_other (entry_addNode wf (newRecord a vsn) offset) other
    exact (entry_other (table_applyAlive (tableWF_addNode wf absent offset) a (addNode_nodeMap ..) _ _ _ _).2
      other).trans added

end

def rank : NodeStateType → Nat
  | .alive => 0
  | .suspect => 1
  | .dead => 2
  | .left => 2

/-- How far a record has come: its incarnation, then the rank of its state. -/
def progress (s : NodeState) : Lex (Nat × Nat) := toLex (s.incarnation.toNat,rank s.state)

theorem progress_of_lt {s s' : NodeState} (newer : s.incarnation < s'.incarnation) : progress s ≤ progress s' :=
  Prod.Lex.toLex_le_toLex.mpr (.inl (UInt32.lt_iff_toNat_lt.mp newer))

theorem progress_of_le {s s' : NodeState} (newer : s.incarnation ≤ s'.incarnation)
    (further : rank s.state ≤ rank s'.state) : progress s ≤ progress s' := by
  rcases Nat.lt_or_eq_of_le (UInt32.le_iff_toNat_le.mp newer) with above | same
  · exact Prod.Lex.toLex_le_toLex.mpr (.inl above)
  · exact Prod.Lex.toLex_le_toLex.mpr (.inr ⟨same,further⟩)

/-- The same address, as `net.IP`, and the same port. -/
def SameAddress (s s' : NodeState) : Prop := ipEqual (bytes s.addr) (bytes s'.addr) = true ∧ s.port = s'.port

/-- The record went forward, at its address. -/
def Forward (s s' : NodeState) : Prop := progress s ≤ progress s' ∧ SameAddress s s'

theorem forward_refl (s : NodeState) : Forward s s := ⟨le_refl _,ipEqual_refl _,rfl⟩

/-- The message takes a name over: it gives another address, which is allowed, for
    a node that has left or has been dead for longer than the reclaim time. -/
def Reclaims (conf : Config) (s : NodeState) (a : Alive) (env : Env) : Prop :=
  conflicts s a ∧ conf.ipAllowed a.addr = true ∧ reclaimable conf s env.since

theorem peer_change_forward {m m' : Memberlist} {n : Bytes} {op : Op} (change : PeerChange m m' n op)
    {s s' : NodeState} (before : entry m n = some s) (after : entry m' n = some s') :
    Forward s s' ∨ ∃ a env vsn, op = .alive a env ∧ a.node = n ∧ Reclaims m.config s a env ∧
      s' = aliveRecord s a vsn env.now := by
  cases change with
  | same kept =>
    rw [kept,before] at after
    cases after
    exact .inl (forward_refl s)
  | add here absent => rw [absent] at before; cases before
  | @alive a env vsn known here held accepted fits changed =>
    rw [before] at held
    cases held
    rw [changed] at after
    cases after
    rcases fits with ⟨agrees,newer⟩ | reclaims
    · have address : SameAddress s (aliveRecord s a vsn env.now) := by
        simpa [conflicts,SameAddress,aliveRecord] using agrees
      exact .inl ⟨progress_of_lt newer,address⟩
    · exact .inr ⟨a,env,vsn,rfl,here,reclaims,rfl⟩
  | @suspect a env known here held isAlive newer changed =>
    rw [before] at held
    cases held
    rw [changed] at after
    cases after
    refine .inl ⟨progress_of_le newer ?_,ipEqual_refl _,rfl⟩
    rw [isAlive]
    exact Nat.zero_le _
  | @dead d env known here held live newer changed =>
    rw [before] at held
    cases held
    rw [changed] at after
    cases after
    refine .inl ⟨progress_of_le newer ?_,ipEqual_refl _,rfl⟩
    have top : rank (deadRecord s d env.now).state = 2 := by
      simp only [deadRecord]
      split_ifs <;> rfl
    rw [top]
    cases s.state <;> simp [rank]
  | reset changed =>
    rw [changed] at after
    have kept := Option.eq_some_of_filter_eq_some after
    rw [before] at kept
    cases kept
    exact .inl (forward_refl s)

/-- In every reachable state a step moves the record of another node forward and
    keeps its address, unless it applies an alive message that reclaims the name. -/
theorem peer_record_forward {conf : Config} {m : Memberlist} (reached : Reachable conf m) (op : Op) {n : Bytes}
    (remote : n ≠ conf.name) {s s' : NodeState} (before : entry m n = some s)
    (after : entry (apply m op) n = some s') :
    Forward s s' ∨ ∃ a env vsn, resolve m op = some (.alive a env) ∧ a.node = n ∧ Reclaims conf s a env ∧
      s' = aliveRecord s a vsn env.now := by
  obtain ⟨wf,rfl⟩ := tableWF_reachable reached
  rcases apply_commits wf op with idle | ⟨cause,resolved,made⟩
  · rw [idle,before] at after
    cases after
    exact .inl (forward_refl s)
  rw [resolved]
  generalize apply m op = m' at made after
  cases made with
  | idle =>
    rw [before] at after
    cases after
    exact .inl (forward_refl s)
  | move move =>
    rcases peer_change_forward (peer_move wf remote move) before after with forward | ⟨a,env,vsn,rfl,rest⟩
    · exact .inl forward
    · exact .inr ⟨a,env,vsn,rfl,rest⟩
  | @join a env m₁ m' absent added move =>
    -- The node of the message was unknown, and the record in question was not.
    have other : a.node ≠ n := by
      rintro rfl
      rw [entry_eq_none.mpr absent] at before
      cases before
    have first := alive_change_other (peer_move wf remote added) other
    have remote₁ : n ≠ m₁.config.name := by rw [config_move added]; exact remote
    have second := alive_change_other (peer_move (tableWF_move wf added) remote₁ move) other
    rw [second,first,before] at after
    cases after
    exact .inl (forward_refl s)

/-- A peer of the node `a`, and the suspicion that it is down. -/
def peerAlive : Alive := ⟨3,[98],some [10,0,0,3],7946,none,restarting.buildVsnArray⟩

theorem peer_record_forward_suspected :
    ∃ s s', entry (run (buildMemberlist restarting) [.alive peerAlive {}]) [98] = some s ∧
      entry (apply (run (buildMemberlist restarting) [.alive peerAlive {}]) (.suspect ⟨3,[98],[99]⟩ {})) [98] = some s' ∧
      (Forward s s' ∨ ∃ a env vsn, resolve (run (buildMemberlist restarting) [.alive peerAlive {}])
          (.suspect ⟨3,[98],[99]⟩ {}) = some (.alive a env) ∧ a.node = [98] ∧ Reclaims restarting s a env ∧
        s' = aliveRecord s a vsn env.now) :=
  ⟨_,_,rfl,rfl,peer_record_forward (.step .build (.alive peerAlive {})) (.suspect ⟨3,[98],[99]⟩ {}) (by decide) rfl rfl⟩

/-- The networks contain the address of every record of another node. -/
def Enforced (nets : List IPNet) (m : Memberlist) : Prop :=
  ∀ n s, n ≠ m.config.name → entry m n = some s → ∃ net ∈ nets, contains net (bytes s.addr) = true

section
variable {nets : List IPNet} {m m' : Memberlist}

/-- The two forms of an IPv4 address are in the same networks. -/
theorem contains_congr {ip x : Bytes} (same : ipEqual ip x = true) (net : IPNet) : contains net x = contains net ip := by
  rw [contains,contains,(ipEqual_iff ip x).mp same]

/-- What `IPAllowed` lets pass a list that is not empty. -/
theorem allowed_listed (listed : m.config.cidrsAllowed.getD [] = nets) (given : nets ≠ []) {addr : Slice}
    (allowed : m.config.ipAllowed addr = true) : ∃ net ∈ nets, contains net (bytes addr) = true := by
  have checked : m.config.ipMustBeChecked = true := by
    rw [Config.ipMustBeChecked,listed]
    exact decide_eq_true (List.length_pos_iff.mpr given)
  rw [Config.ipAllowed,checked,listed] at allowed
  simpa using allowed

theorem enforced_move {op : Op} (wf : TableWF m) (listed : m.config.cidrsAllowed.getD [] = nets) (given : nets ≠ [])
    (before : Enforced nets m) (move : Move m op m') : Enforced nets m' := by
  intro n s remote held
  rw [config_move move] at remote
  cases peer_move wf remote move with
  | same kept => exact before n s remote (kept ▸ held)
  | add here absent accepted allowed after =>
    rw [after] at held
    cases held
    exact allowed_listed listed given allowed
  | @alive a env vsn known here held' accepted fits after =>
    rw [after] at held
    cases held
    rcases fits with ⟨agrees,-⟩ | ⟨-,allowed,-⟩
    · -- the address is replaced by one that is equal to it
      have equal : ipEqual (bytes known.addr) (bytes a.addr) = true := by
        by_contra differs
        exact agrees (.inl (Bool.eq_false_iff.mpr differs))
      obtain ⟨net,member,inside⟩ := before n known remote held'
      exact ⟨net,member,(contains_congr equal net).trans inside⟩
    · exact allowed_listed listed given allowed
  | @suspect a env known here held' isAlive newer after =>
    rw [after] at held
    cases held
    exact before n known remote held'
  | @dead d env known here held' live newer after =>
    rw [after] at held
    cases held
    exact before n known remote held'
  | reset after =>
    rw [after] at held
    exact before n s remote (Option.eq_some_of_filter_eq_some held)

theorem enforced_reachable {conf : Config} (listed : conf.cidrsAllowed.getD [] = nets) (given : nets ≠ [])
    (reached : Reachable conf m) : Enforced nets m := by
  have kept := reachable_invariant (I := fun m => m.config = conf ∧ Enforced nets m) ⟨rfl,?_⟩ ?_ ?_ ?_ reached
  · exact kept.2.2
  · intro n s _ held
    cases held
  · exact fun _ held => held
  · intro m m' a receipt env wf held named _ boot
    refine ⟨(config_boot boot).trans held.1,fun n s remote after => ?_⟩
    rw [config_boot boot] at remote
    have other : a.node ≠ n := fun same => remote (same.symm.trans named)
    rw [boot_other wf other boot] at after
    exact held.2 n s remote after
  · intro m m' op wf held move
    exact ⟨(config_move move).trans held.1,enforced_move wf (held.1 ▸ listed) given held.2 move⟩

end

/-- An alive message about a node with any other name. -/
def strangerAlive (name : Bytes) : Alive := ⟨1,0 :: name,some [10,0,0,3],7946,none,some [1,5,2,0,0,0]⟩

/-- An empty list lets every address pass. -/
theorem allowed_unlisted {conf : Config} (empty : conf.cidrsAllowed.getD [] = []) (ip : Slice) : conf.ipAllowed ip = true := by
  simp [Config.ipAllowed,Config.ipMustBeChecked,empty]

/-- Under an empty list a node takes in whoever it hears of. -/
theorem stranger_added {conf : Config} (empty : conf.cidrsAllowed.getD [] = []) :
    ∃ s, entry (apply (buildMemberlist conf) (.alive (strangerAlive conf.name) {})) (0 :: conf.name) = some s := by
  have allowed := allowed_unlisted empty (some [10,0,0,3])
  have other : 0 :: conf.name ≠ conf.name := List.cons_ne_self 0 conf.name
  have accepted : acceptableVsn (strangerAlive conf.name) = some ⟨1,5,2,0,0,0⟩ := rfl
  have passed : ¬ filtered conf (strangerAlive conf.name) ⟨1,5,2,0,0,0⟩ false {} := by simp [filtered,strangerAlive]
  simp only [apply,aliveNode,buildMemberlist,aliveNodeLocked,accepted,passed,if_false]
  simp [strangerAlive,allowed,other,aliveKnown,addNode,newRecord,applyAlive,entry]

/-- The networks of the list are enforced in every run, exactly if there are any. An empty list,
    nil or not, allows every address. -/
theorem allowList_enforced_iff (conf : Config) (nets : List IPNet) (listed : conf.cidrsAllowed.getD [] = nets) :
    ((∀ m, Reachable conf m → Enforced nets m) ↔ nets ≠ []) ∧ (nets = [] → ∀ ip, conf.ipAllowed ip = true) := by
  refine ⟨⟨?_,?_⟩,fun empty => allowed_unlisted (listed.trans empty)⟩
  · rintro enforced rfl
    obtain ⟨s,held⟩ := stranger_added listed
    have reached : Reachable conf (apply (buildMemberlist conf) (.alive (strangerAlive conf.name) {})) := .step .build _
    have config := (tableWF_reachable reached).2
    obtain ⟨net,member,-⟩ := enforced _ reached (0 :: conf.name) s (by rw [config]; exact List.cons_ne_self 0 conf.name) held
    cases member
  · exact fun given m reached => enforced_reachable listed given reached

/-- The node `a` with an empty list. -/
def closed : Config := { restarting with cidrsAllowed := some [] }

/-- Its list, which names no network, does not keep a peer out of its table. -/
theorem allowList_ignored :
    closed.cidrsAllowed = some [] ∧ Reachable closed (apply (buildMemberlist closed) (.alive peerAlive {})) ∧
      ¬ Enforced [] (apply (buildMemberlist closed) (.alive peerAlive {})) := by
  refine ⟨rfl,.step .build _,fun enforced => ?_⟩
  obtain ⟨net,member,-⟩ := enforced [98] _ (by decide) rfl
  cases member

theorem allowList_enforced_iff_private :
    Enforced [⟨[10,0,0,0],[255,0,0,0]⟩]
      (apply (buildMemberlist { restarting with cidrsAllowed := some [⟨[10,0,0,0],[255,0,0,0]⟩] }) (.alive peerAlive {})) :=
  (allowList_enforced_iff { restarting with cidrsAllowed := some [⟨[10,0,0,0],[255,0,0,0]⟩] } _ rfl).1.mpr (by simp) _
    (.step .build _)

end Mori.PeerRecord
