import Mori.LocalNode
import Mori.QueueRefinement
import Mori.Compound
import Mori.Wire
import Mori.Machines

/-!
An instance together with its broadcast queue. What a critical section hands to the
queue is said once (`Sent`); the instance and the queue then take steps in any order.
The queue holds at most one message about a node as long as every message is queued
under the name of its node. The refutations of the local node are not: they are queued
under the text of its address.
-/
namespace Mori.Gossip
open Mori.Net Mori.Protocol Mori.State Mori.Table Mori.Moves Mori.LocalNode Mori.Compound Mori.Wire
open Mori.Queue (TransmitLimitedQueue Cause)
open Mori.QueueLinks Mori.PlainQueue Mori.QueueRefinement Mori.Machines

/-- An alive message says of a node what its record says. -/
def Repeats (me : NodeState) (a : Alive) : Prop := ∃ vsn ∈ acceptableVsn a, sameAlive me a vsn

instance (me : NodeState) (a : Alive) : Decidable (Repeats me a) := inferInstanceAs (Decidable (∃ _ ∈ _, _))

/-- A message about the local node that it has to refute. -/
def Accuses (m : Memberlist) : Op → Prop
  | .alive a env => a.node = m.config.name ∧ m.leave = false ∧
      ∀ me ∈ localEntry m, me.incarnation ≤ a.incarnation ∧ ¬ Repeats me a ∧
        (conflicts me a → reclaimable m.config me env.since)
  | .suspect s _ => s.node = m.config.name ∧ ∃ me ∈ localEntry m, me.incarnation ≤ s.incarnation ∧ me.state = .alive
  | .dead d _ => d.node = m.config.name ∧ m.leave = false ∧
      ∃ me ∈ localEntry m, me.incarnation ≤ d.incarnation ∧ me.deadOrLeft = false
  | _ => False

instance (m : Memberlist) : ∀ op, Decidable (Accuses m op)
  | .alive .. => inferInstanceAs (Decidable (_ ∧ _ ∧ ∀ _ ∈ _, _))
  | .suspect .. => inferInstanceAs (Decidable (_ ∧ ∃ _ ∈ _, _))
  | .dead .. => inferInstanceAs (Decidable (_ ∧ _ ∧ ∃ _ ∈ _, _))
  | .merge .. | .expire .. | .reset .. | .update .. | .leave .. => instDecidableFalse

/-- The alive message with which a node refutes. -/
def refutation (me : NodeState) (incarnation : UInt32) : State.Broadcast :=
  ⟨ipString (bytes me.addr),.alive ⟨incarnation,me.name,me.addr,me.port,me.metadata,some me.vsn.toList⟩,none⟩

/-- What a section can hand to the queue. -/
inductive Sent (m : Memberlist) : Op → State.Broadcast → Prop
  | alive {a : Alive} {env : Env} (remote : a.node ≠ m.config.name) : Sent m (.alive a env) ⟨a.node,.alive a,none⟩
  | suspect {s : Suspect} {env : Env} (timed : s.node = m.config.name → m.nodeTimers s.node ≠ none) :
      Sent m (.suspect s env) ⟨s.node,.suspect s,none⟩
  | dead {d : Dead} {env : Env} (remote : d.node ≠ m.config.name) : Sent m (.dead d env) ⟨d.node,.dead d,none⟩
  | deadLocal {d : Dead} {env : Env} {me : NodeState} (isLocal : d.node = m.config.name) (left : m.leave = true)
      (held : localEntry m = some me) (live : me.deadOrLeft = false) :
      Sent m (.dead d env) ⟨d.node,.dead d,some m.leaveBroadcast⟩
  | refute {op : Op} {me : NodeState} {incarnation : UInt32} (accuses : Accuses m op)
      (own : ∀ s ∈ localEntry m, me = s) (named : me.name = m.config.name) : Sent m op (refutation me incarnation)
  | update {answer metadata : Slice} {notify receipt : Option Nat} {env : Env} {r : Ref}
      (given : delegateMeta m.config answer = .ok metadata) (found : m.nodeMap m.config.name = some r) :
      Sent m (.update answer notify receipt env) ⟨m.config.name,.alive (ownAlive m r metadata),notify⟩
  | leave {receipt : Option Nat} {env : Env} {r : Ref} (found : m.nodeMap m.config.name = some r) :
      Sent m (.leave receipt env) ⟨m.config.name,.dead (ownDead m r),some m.leaveBroadcast⟩

/-- A section hands over nothing, or one message. -/
def Sends (m : Memberlist) (op : Op) (m' : Memberlist) : Prop :=
  m'.broadcasts = [] ∨ ∃ b, m'.broadcasts = [b] ∧ Sent m op b

section
variable {m : Memberlist}

theorem own_of_held {me : NodeState} (held : localEntry m = some me) : ∀ s ∈ localEntry m, me = s := by
  intro s own
  rw [held] at own
  cases own
  rfl

theorem broadcasts_refute (idle : m.broadcasts = []) (r : Ref) (accusedInc : UInt32) :
    (refute m r accusedInc).broadcasts = [refutation (m.heap r) (m.incarnation.beat accusedInc).value] := by
  simp only [refute,idle,encodeBroadcastNotify_nil,refutation]

/-- The last part of the alive handler, for a message that is not `setAlive`'s. -/
theorem broadcasts_aliveKnown (idle : m.broadcasts = []) (r : Ref) (a : Alive) (vsn : Versions) (updatesNode : Bool)
    (now : Time) :
    let m' := aliveKnown m r a vsn updatesNode none false none now
    m'.broadcasts = [] ∨
      ((m.heap r).name ≠ m.config.name ∧ m'.broadcasts = [⟨a.node,.alive a,none⟩]) ∨
      ((m.heap r).name = m.config.name ∧ (m.heap r).incarnation ≤ a.incarnation ∧ ¬ sameAlive (m.heap r) a vsn ∧
        ∃ incarnation, m'.broadcasts = [refutation (m.heap r) incarnation]) := by
  unfold aliveKnown
  simp only [true_and]
  split_ifs with stale older isLocal same
  · exact .inl idle
  · exact .inl idle
  · exact .inl idle
  · have newer : (m.heap r).incarnation ≤ a.incarnation := UInt32.not_lt.mp (fun lower => older ⟨lower,isLocal⟩)
    exact .inr (.inr ⟨isLocal,newer,same,_,broadcasts_refute idle r a.incarnation⟩)
  · refine .inr (.inl ⟨isLocal,?_⟩)
    simp only [applyAlive,idle,encodeBroadcastNotify_nil]

theorem sends_alive (wf : TableWF m) (idle : m.broadcasts = []) (a : Alive) (env : Env) :
    Sends m (.alive a env) (aliveNode m a false env) := by
  unfold aliveNode aliveNodeLocked
  by_cases down : m.shutdown = true
  · rw [if_pos down]; exact .inl idle
  rw [if_neg down]
  by_cases left : m.leave = true ∧ a.node = m.config.name
  · rw [if_pos left]; exact .inl idle
  rw [if_neg left]
  have staying : a.node = m.config.name → m.leave = false := by
    intro isLocal
    simpa using fun gone => left ⟨gone,isLocal⟩
  cases accepted : acceptableVsn a with
  | none => exact .inl idle
  | some vsn =>
    simp only
    by_cases refused : filtered m.config a vsn false env
    · rw [if_pos refused]; exact .inl idle
    rw [if_neg refused]
    cases found : m.nodeMap a.node with
    | none =>
      simp only
      by_cases blocked : m.config.ipAllowed a.addr = false
      · rw [if_pos blocked]; exact .inl idle
      rw [if_neg blocked]
      have added := addNode_heap m (newRecord a vsn) env.offset
      rcases broadcasts_aliveKnown (m := addNode m (newRecord a vsn) env.offset) idle m.alloc a vsn false env.now with
        nothing | ⟨remote,sent⟩ | ⟨isLocal,-,-,incarnation,sent⟩
      · exact .inl nothing
      · rw [added] at remote
        exact .inr ⟨_,sent,.alive remote⟩
      · rw [added] at isLocal sent
        have absent : localEntry m = none := entry_eq_none.mpr ((show a.node = m.config.name from isLocal) ▸ found)
        refine .inr ⟨_,sent,.refute ⟨isLocal,staying isLocal,?_⟩ ?_ isLocal⟩
        · rw [absent]
          simp
        · rw [absent]
          simp
    | some r =>
      have name : (m.heap r).name = a.node := wf.named _ _ found
      -- The handler goes on with the stored record where the addresses agree or the name is reclaimed.
      have known : ∀ updatesNode, (conflicts (m.heap r) a → reclaimable m.config (m.heap r) env.since) →
          Sends m (.alive a env) (aliveKnown m r a vsn updatesNode none false none env.now) := by
        intro updatesNode reclaims
        rcases broadcasts_aliveKnown idle r a vsn updatesNode env.now with
          nothing | ⟨remote,sent⟩ | ⟨isLocal,newer,differs,incarnation,sent⟩
        · exact .inl nothing
        · rw [name] at remote
          exact .inr ⟨_,sent,.alive remote⟩
        · have here : a.node = m.config.name := name.symm.trans isLocal
          have held : localEntry m = some (m.heap r) := local_eq found here
          have new : ¬ Repeats (m.heap r) a := by
            rintro ⟨vsn',accepted',same⟩
            rw [accepted] at accepted'
            cases accepted'
            exact differs same
          refine .inr ⟨_,sent,.refute ⟨here,staying here,?_⟩ (own_of_held held) isLocal⟩
          intro me own
          rw [← own_of_held held me own]
          exact ⟨newer,new,reclaims⟩
      simp only
      split_ifs with differs blocked old asked
      · exact .inl idle
      · exact known true (fun _ => old)
      · exact .inl idle
      · exact .inl idle
      · exact known false (fun wrong => absurd wrong differs)

theorem sends_suspect {m' : Memberlist} (wf : TableWF m) (idle : m.broadcasts = []) {s : Suspect} {env : Env}
    (made : Commits m (.suspect s env) m') : Sends m (.suspect s env) m' := by
  cases made with
  | idle => exact .inl idle
  | move move =>
    cases move with
    | @confirm _ _ r t found newer timer =>
      simp only [confirmTimer]
      cases ((m.suspicions t).confirm s.from_).2 with
      | false => exact .inl idle
      | true =>
        refine .inr ⟨⟨s.node,.suspect s,none⟩,?_,.suspect (by simp [timer])⟩
        simp only [idle,encodeBroadcastNotify_nil,if_true]
    | @refuteSuspect _ _ r found isLocal isAlive newer =>
      have here : s.node = m.config.name := (wf.named _ _ found).symm.trans isLocal
      have held : localEntry m = some (m.heap r) := local_eq found here
      exact .inr ⟨_,broadcasts_refute idle r s.incarnation,.refute ⟨here,m.heap r,held,newer,isAlive⟩ (own_of_held held) isLocal⟩
    | @applySuspect _ _ r found remote =>
      have other : s.node ≠ m.config.name := wf.named _ _ found ▸ remote
      refine .inr ⟨⟨s.node,.suspect s,none⟩,?_,.suspect (fun same => absurd same other)⟩
      simp only [applySuspect,idle,encodeBroadcastNotify_nil]

theorem sends_dead (wf : TableWF m) (idle : m.broadcasts = []) (d : Dead) (env : Env) :
    Sends m (.dead d env) (deadNode m d env) := by
  unfold deadNode deadNodeLocked
  by_cases down : m.shutdown = true
  · rw [if_pos down]; exact .inl idle
  rw [if_neg down]
  cases found : m.nodeMap d.node with
  | none => exact .inl idle
  | some r =>
    have name : (m.heap r).name = d.node := wf.named _ _ found
    simp only
    split_ifs with stale isDead isLocal staying
    · exact .inl idle
    · exact .inl idle
    · have here : d.node = m.config.name := name.symm.trans isLocal
      have held : localEntry m = some (m.heap r) := local_eq found here
      refine .inr ⟨_,broadcasts_refute (m := clearTimer m d.node) idle r d.incarnation,
        .refute ⟨here,staying,m.heap r,held,?_⟩ (own_of_held held) isLocal⟩
      exact ⟨UInt32.not_lt.mp stale,by simpa using isDead⟩
    · have here : d.node = m.config.name := name.symm.trans isLocal
      refine .inr ⟨⟨d.node,.dead d,some m.leaveBroadcast⟩,?_,
        .deadLocal here (by simpa using staying) (local_eq found here) (by simpa using isDead)⟩
      simp only [applyDead,idle,encodeBroadcastNotify_nil]
    · have remote : d.node ≠ m.config.name := name ▸ isLocal
      refine .inr ⟨⟨d.node,.dead d,none⟩,?_,.dead remote⟩
      simp only [applyDead,idle,encodeBroadcastNotify_nil]

theorem sends_update {m' : Memberlist} (idle : m.broadcasts = []) {answer : Slice} {notify receipt : Option Nat}
    {env : Env} (made : Commits m (.update answer notify receipt env) m') :
    Sends m (.update answer notify receipt env) m' := by
  cases made with
  | idle => exact .inl idle
  | move move =>
    cases move with
    | updateStale => exact .inl idle
    | @update _ metadata _ _ _ r given found =>
      refine .inr ⟨⟨m.config.name,.alive (ownAlive m r metadata),notify⟩,?_,.update given found⟩
      simp only [applyAlive,idle,encodeBroadcastNotify_nil,ownAlive]

theorem sends_leave {m' : Memberlist} (idle : m.broadcasts = []) {receipt : Option Nat} {env : Env}
    (made : Commits m (.leave receipt env) m') : Sends m (.leave receipt env) m' := by
  cases made with
  | idle => exact .inl idle
  | move move =>
    cases move with
    | @leave _ _ r found =>
      refine .inr ⟨⟨m.config.name,.dead (ownDead m r),some m.leaveBroadcast⟩,?_,.leave found⟩
      simp only [applyDead,idle,encodeBroadcastNotify_nil,ownDead]
    | leaveDead => exact .inl idle

/-- A section hands over what the section that it amounts to hands over. -/
theorem sends_apply (wf : TableWF m) (idle : m.broadcasts = []) (op : Op) :
    (apply m op).broadcasts = [] ∨ ∃ cause, resolve m op = some cause ∧ Sends m cause (apply m op) := by
  rw [apply_resolve]
  cases resolved : resolve m op with
  | none => exact .inl idle
  | some cause =>
    refine .inr ⟨cause,rfl,?_⟩
    simp only [Option.elim_some]
    cases cause with
    | alive a env => exact sends_alive wf idle a env
    | suspect s env => exact sends_suspect wf idle (suspectNode_commits m s env)
    | dead d env => exact sends_dead wf idle d env
    | reset now draws => exact .inl idle
    | update answer notify receipt env => exact sends_update idle (update_commits wf answer notify receipt env)
    | leave receipt env => exact sends_leave idle (leave_commits wf receipt env)
    | merge r env => exact absurd trivial (resolve_direct resolved)
    | expire t env => exact absurd trivial (resolve_direct resolved)

end

/-- A queue whose links are in order, as every operation finds it and leaves it. -/
structure BroadcastQueue where
  q : TransmitLimitedQueue
  wf : WF q []

def BroadcastQueue.empty : BroadcastQueue := ⟨{},wf_empty⟩

section
variable {q : TransmitLimitedQueue} {op : Queue.Op}

theorem step_isSome (wf : WF q []) (draws : Nat → UInt64) (proper : Proper op) : (Queue.step q draws op).isSome := by
  obtain ⟨q',done,-⟩ := step_spec wf draws proper
  rw [done]
  rfl

theorem wf_step (wf : WF q []) (draws : Nat → UInt64) (proper : Proper op) :
    WF ((Queue.step q draws op).get (step_isSome wf draws proper)).1 [] := by
  obtain ⟨q',done,wf',-⟩ := step_spec wf draws proper
  simp only [done,Option.get_some]
  exact wf'

end

/-- An operation of the queue. -/
def BroadcastQueue.step (b : BroadcastQueue) (draws : Nat → UInt64) (op : Queue.Op) (proper : Proper op) :
    BroadcastQueue where
  q := ((Queue.step b.q draws op).get (step_isSome b.wf draws proper)).1
  wf := wf_step b.wf draws proper

theorem like_step (b : BroadcastQueue) (draws : Nat → UInt64) (op : Queue.Op) (proper : Proper op) :
    Like (abs (b.step draws op proper).q) (PlainQueue.step (abs b.q) op).1 := by
  obtain ⟨q',done,-,like,-⟩ := step_spec b.wf draws proper
  simp only [BroadcastQueue.step,done,Option.get_some]
  exact like

/-- An instance and its queue. Between two steps nothing waits to be handed over. No code
    reads `queued`: it logs the messages that were queued, in order, so that the entry of
    a message refers to its place in the log. -/
structure Gossiper where
  m : Memberlist
  handed : m.broadcasts = []
  broadcasts : BroadcastQueue := .empty
  queued : List State.Broadcast := []

namespace Gossiper

def entries (g : Gossiper) : List Entry := QueueRefinement.entries g.broadcasts.q

/-- Every message that `GetBroadcasts` has returned, as its place in the log. -/
def returned (g : Gossiper) : List Nat := g.broadcasts.q.returned

/-- Every call of `Finished`. -/
def finished (g : Gossiper) : List (Nat × Cause) := g.broadcasts.q.finished

/-- The node that a queued message is about. -/
def subject (g : Gossiper) (e : Entry) : Option Bytes := g.queued[e.ref]?.map (fun b => b.msg.node)

end Gossiper

def created (conf : Config) : Gossiper where
  m := buildMemberlist conf
  handed := rfl

def encode : Message → Bytes
  | .alive a => aliveMsg :: appendAlive a
  | .suspect s => suspectMsg :: appendSuspect s
  | .dead d => deadMsg :: appendDead d

/-- A `memberlistBroadcast` is a `NamedBroadcast` also where its name is empty. -/
def memberlistBroadcast (object : Nat) (b : State.Broadcast) : Queue.Broadcast := ⟨object,.named b.name,encode b.msg⟩

/-- `QueueBroadcast`. Only broadcasts without a name could be asked for `Invalidates`, and
    a `memberlistBroadcast` invalidates none of another type. -/
def queueBroadcast (draws : Nat → UInt64) (g : Gossiper) (b : State.Broadcast) : Gossiper :=
  { g with
    broadcasts := g.broadcasts.step draws
      (.queueBroadcast (memberlistBroadcast g.queued.length b) (fun _ => false)) trivial
    queued := g.queued ++ [b] }

theorem handed_nil (m : Memberlist) : ({ m with broadcasts := [] } : Memberlist).broadcasts = [] := rfl

/-- The end of a critical section that has led to `m`: what it hands over is queued. -/
def commit (g : Gossiper) (m : Memberlist) (draws : Nat → UInt64) : Gossiper :=
  m.broadcasts.foldl (queueBroadcast draws) { g with m := { m with broadcasts := [] }, handed := handed_nil m }

def getBroadcasts (g : Gossiper) (overhead limit transmitLimit : Int) (draws : Nat → UInt64) : Gossiper :=
  { g with broadcasts := g.broadcasts.step draws (.getBroadcasts overhead limit transmitLimit) trivial }

/-- What an instance does, with what it reads from outside. `setAlive` draws an
    incarnation first and commits its message later. -/
inductive Act where
  | draw
  | setAlive (incarnation : UInt32) (addr : Slice) (port : UInt16) (metadata : Slice) (receipt : Option Nat) (env : Env)
      (draws : Nat → UInt64)
  | apply (op : Op) (draws : Nat → UInt64)
  | getBroadcasts (overhead limit transmitLimit : Int) (draws : Nat → UInt64)

/-- The message of `setAlive`. -/
def startMessage (m : Memberlist) (incarnation : UInt32) (addr : Slice) (port : UInt16) (metadata : Slice) : Alive :=
  ⟨incarnation,m.config.name,addr,port,metadata,m.config.buildVsnArray⟩

def step (g : Gossiper) : Act → Gossiper
  | .draw => commit g { g.m with incarnation := g.m.incarnation.add 1 } (fun _ => 0)
  | .setAlive incarnation addr port metadata receipt env draws =>
    commit g ((setAliveLocked g.m (startMessage g.m incarnation addr port metadata) receipt env).toOption.getD g.m) draws
  | .apply op draws => commit g (Moves.apply g.m op) draws
  | .getBroadcasts overhead limit transmitLimit draws => getBroadcasts g overhead limit transmitLimit draws

section
variable {g : Gossiper} {b : State.Broadcast} {draws : Nat → UInt64}

theorem replaces_memberlist (object : Nat) (b : State.Broadcast) (e : Entry) :
    replaces (memberlistBroadcast object b) (fun _ => false) e = decide (b.name ≠ [] ∧ e.b.name = b.name) := by
  by_cases named : b.name = []
  · simp [replaces,memberlistBroadcast,Queue.Broadcast.name,named]
  · have name : (memberlistBroadcast object b).name = b.name := rfl
    simp [replaces,name,named]

/-- The entry of a message that is queued next. -/
def newEntry (g : Gossiper) (b : State.Broadcast) : Entry :=
  ⟨g.broadcasts.q.alloc,0,Queue.int64 (g.broadcasts.q.idGen + 1),memberlistBroadcast g.queued.length b⟩

/-- A message replaces those that are queued under its name. -/
theorem mem_queueBroadcast {e : Entry} :
    e ∈ (queueBroadcast draws g b).entries ↔
      e = newEntry g b ∨ e ∈ g.entries ∧ ¬ (b.name ≠ [] ∧ e.b.name = b.name) := by
  have like := like_step g.broadcasts draws
    (.queueBroadcast (memberlistBroadcast g.queued.length b) (fun _ => false)) trivial
  have placed := like.entries.trans (Treaps.perm_insertSorted _ _)
  rw [show (queueBroadcast draws g b).entries = _ from rfl,Gossiper.entries]
  refine placed.mem_iff.trans ?_
  simp only [List.mem_cons,List.mem_filter,replaces_memberlist,Bool.not_eq_true',decide_eq_false_iff_not]
  rfl

theorem alloc_queueBroadcast : (queueBroadcast draws g b).broadcasts.q.alloc = g.broadcasts.q.alloc + 1 :=
  (like_step g.broadcasts draws
    (.queueBroadcast (memberlistBroadcast g.queued.length b) (fun _ => false)) trivial).submitted

theorem returned_queueBroadcast : (queueBroadcast draws g b).returned = g.returned :=
  (like_step g.broadcasts draws
    (.queueBroadcast (memberlistBroadcast g.queued.length b) (fun _ => false)) trivial).returned

theorem finished_queueBroadcast :
    (queueBroadcast draws g b).finished = g.finished ++
      ends .invalidated (g.entries.filter (fun e => b.name ≠ [] ∧ e.b.name = b.name)) := by
  have like := like_step g.broadcasts draws
    (.queueBroadcast (memberlistBroadcast g.queued.length b) (fun _ => false)) trivial
  refine like.finished.trans ?_
  have same : replaces (memberlistBroadcast g.queued.length b) (fun _ => false) =
      fun e => decide (b.name ≠ [] ∧ e.b.name = b.name) := funext (replaces_memberlist g.queued.length b)
  simp only [PlainQueue.step,queue,same]
  rfl

/-- What `GetBroadcasts` leaves in the queue was there, on the same or on the tier before. -/
theorem mem_getBroadcasts {overhead limit transmitLimit : Int} {e : Entry}
    (member : e ∈ (getBroadcasts g overhead limit transmitLimit draws).entries) :
    e ∈ g.entries ∨ ∃ e₀ ∈ g.entries, e = e₀.bump ∧ e₀ ∈ (pick overhead limit g.entries).1 := by
  have like := like_step g.broadcasts draws (.getBroadcasts overhead limit transmitLimit) trivial
  have placed := like.entries.trans (foldl_insert_perm _ _)
  rcases List.mem_append.mp (placed.mem_iff.mp member) with again | kept
  · obtain ⟨e₀,taken,rfl⟩ := List.mem_map.mp again
    have picked := (List.mem_filter.mp taken).1
    exact .inr ⟨e₀,(pick_mem overhead limit).mpr (.inl picked),rfl,picked⟩
  · exact .inl ((pick_mem overhead limit).mpr (.inr kept))

theorem returned_getBroadcasts (overhead limit transmitLimit : Int) :
    (getBroadcasts g overhead limit transmitLimit draws).returned =
      g.returned ++ (pick overhead limit g.entries).1.map (·.ref) :=
  (like_step g.broadcasts draws (.getBroadcasts overhead limit transmitLimit) trivial).returned

theorem finished_getBroadcasts (overhead limit transmitLimit : Int) :
    (getBroadcasts g overhead limit transmitLimit draws).finished =
      g.finished ++ ends .transmitLimit ((pick overhead limit g.entries).1.filter (final transmitLimit)) :=
  (like_step g.broadcasts draws (.getBroadcasts overhead limit transmitLimit) trivial).finished

/-- What holds once the instance has moved on and is kept as messages are queued holds after the section. -/
theorem commit_keeps {P : Gossiper → Prop} {m : Memberlist} (start : P { g with m := { m with broadcasts := [] }, handed := handed_nil m })
    (keeps : ∀ g b, P g → P (queueBroadcast draws g b)) : P (commit g m draws) := by
  unfold commit
  generalize ({ g with m := { m with broadcasts := [] }, handed := handed_nil m } : Gossiper) = g' at start
  induction m.broadcasts generalizing g' with
  | nil => exact start
  | cons b bs ih => exact ih _ (keeps g' b start)

theorem commit_m (g : Gossiper) (m : Memberlist) (draws : Nat → UInt64) : (commit g m draws).m = { m with broadcasts := [] } :=
  commit_keeps (P := fun g => g.m = { m with broadcasts := [] }) rfl (fun _ _ same => same)

theorem commit_returned (m : Memberlist) : (commit g m draws).returned = g.returned :=
  commit_keeps (P := fun g' => g'.returned = g.returned) rfl (fun _ _ same => returned_queueBroadcast.trans same)

theorem commit_finished (m : Memberlist) : g.finished <+: (commit g m draws).finished := by
  refine commit_keeps (P := fun g' => g.finished <+: g'.finished) (List.prefix_refl _) (fun g' b grown => ?_)
  rw [finished_queueBroadcast]
  exact grown.trans (List.prefix_append ..)

theorem commit_queued (m : Memberlist) : (commit g m draws).queued = g.queued ++ m.broadcasts := by
  unfold commit
  generalize start : ({ g with m := { m with broadcasts := [] }, handed := handed_nil m } : Gossiper) = g'
  have here : g.queued = g'.queued := by rw [← start]
  rw [here]
  clear start here
  induction m.broadcasts generalizing g' with
  | nil => exact (List.append_nil _).symm
  | cons b bs ih =>
    refine (ih _).trans ?_
    simp [queueBroadcast]

theorem commit_of_nil {m : Memberlist} (nothing : m.broadcasts = []) :
    commit g m draws = { g with m := { m with broadcasts := [] }, handed := handed_nil m } := by
  rw [commit,nothing]
  rfl

theorem commit_of_one {m : Memberlist} (sent : m.broadcasts = [b]) :
    commit g m draws = queueBroadcast draws { g with m := { m with broadcasts := [] }, handed := handed_nil m } b := by
  rw [commit,sent]
  rfl

end

/-- The entries are those of the log, and each is the last that was queued under its name. -/
structure Inv (g : Gossiper) : Prop where
  table : TableWF g.m
  counted : g.broadcasts.q.alloc = g.queued.length
  logged : ∀ e ∈ g.entries, ∃ b, g.queued[e.ref]? = some b ∧ e.b = memberlistBroadcast e.ref b
  latest : ∀ e ∈ g.entries, ∀ r b, e.ref < r → g.queued[r]? = some b → b.name ≠ [] → e.b.name ≠ b.name

section
variable {g : Gossiper}

theorem inv_created (conf : Config) : Inv (created conf) where
  table := tableWF_build conf
  counted := rfl
  logged e member := by cases member
  latest e member := by cases member

theorem inv_queueBroadcast (inv : Inv g) (b : State.Broadcast) (draws : Nat → UInt64) :
    Inv (queueBroadcast draws g b) where
  table := inv.table
  counted := by
    rw [alloc_queueBroadcast,inv.counted,queueBroadcast,List.length_append]
    rfl
  logged e member := by
    rcases mem_queueBroadcast.mp member with rfl | ⟨old,-⟩
    · refine ⟨b,?_,?_⟩
      · simp [newEntry,queueBroadcast,inv.counted]
      · simp [newEntry,inv.counted]
    · obtain ⟨b',place,same⟩ := inv.logged e old
      exact ⟨b',List.getElem?_append_left (List.getElem?_eq_some_iff.mp place).1 ▸ place,same⟩
  latest e member r b' later place named := by
    have inside : ∀ {r : Nat} {b' : State.Broadcast}, (g.queued ++ [b])[r]? = some b' → r ≤ g.queued.length := by
      intro r b' place
      have bound := (List.getElem?_eq_some_iff.mp place).1
      rw [List.length_append] at bound
      exact Nat.le_of_lt_succ bound
    rcases mem_queueBroadcast.mp member with rfl | ⟨old,kept⟩
    · simp only [newEntry,inv.counted] at later
      exact absurd later (Nat.not_lt.mpr (inside place))
    · rcases Nat.lt_trichotomy r g.queued.length with before | rfl | after
      · exact inv.latest e old r b' later ((List.getElem?_append_left before).symm.trans place) named
      · simp only [queueBroadcast,List.getElem?_concat_length,Option.some.injEq] at place
        subst place
        exact fun same => kept ⟨named,same⟩
      · exact absurd after (Nat.not_lt.mpr (inside place))

/-- A change of the instance alone. -/
theorem inv_of_table (inv : Inv g) {m : Memberlist} (wf : TableWF m) (handed : m.broadcasts = []) :
    Inv { g with m := m, handed := handed } :=
  { inv with
    table := wf }

theorem inv_commit (inv : Inv g) {m : Memberlist} (wf : TableWF m) (draws : Nat → UInt64) :
    Inv (commit g m draws) := by
  have cleared : TableWF { m with broadcasts := [] } := tableWF_of_same (m := m) ⟨rfl,rfl,rfl,rfl,rfl⟩ wf
  exact commit_keeps (inv_of_table inv cleared rfl) (fun g b held => inv_queueBroadcast held b draws)

theorem inv_getBroadcasts (inv : Inv g) (overhead limit transmitLimit : Int) (draws : Nat → UInt64) :
    Inv (getBroadcasts g overhead limit transmitLimit draws) where
  table := inv.table
  counted :=
    (like_step g.broadcasts draws (.getBroadcasts overhead limit transmitLimit) trivial).submitted.trans inv.counted
  logged e member := by
    rcases mem_getBroadcasts member with old | ⟨e₀,old,rfl,-⟩
    · exact inv.logged e old
    · exact inv.logged e₀ old
  latest e member := by
    rcases mem_getBroadcasts member with old | ⟨e₀,old,rfl,-⟩
    · exact inv.latest e old
    · exact inv.latest e₀ old

theorem tableWF_setAlive {m : Memberlist} (wf : TableWF m) (incarnation : UInt32) (addr : Slice) (port : UInt16)
    (metadata : Slice) (receipt : Option Nat) (env : Env) :
    TableWF ((setAliveLocked m (startMessage m incarnation addr port metadata) receipt env).toOption.getD m) := by
  unfold setAliveLocked
  split_ifs
  · exact wf
  · exact tableWF_boot wf (aliveNodeLocked_boot rfl receipt env)

theorem inv_step (g : Gossiper) (act : Act) (inv : Inv g) : Inv (step g act) := by
  cases act with
  | draw =>
    refine inv_commit (m := { g.m with incarnation := g.m.incarnation.add 1 }) inv ?_ _
    exact tableWF_of_same (m := g.m) ⟨rfl,rfl,rfl,rfl,rfl⟩ inv.table
  | setAlive => exact inv_commit inv (tableWF_setAlive inv.table ..) _
  | apply op => exact inv_commit inv (tableWF_apply inv.table op) _
  | getBroadcasts => exact inv_getBroadcasts inv ..

end

/-! ## One message for each node -/

/-- The node that a section is about. -/
def about (m : Memberlist) : Op → Option Bytes
  | .alive a _ => some a.node
  | .suspect s _ => some s.node
  | .dead d _ => some d.node
  | .merge r _ => some r.name
  | .expire t _ => some (m.suspicions t).node
  | .reset .. => none
  | .update .. => some m.config.name
  | .leave .. => some m.config.name

/-- The section is not about a node without a name, and where the local node refutes, its
    name is the text of its address. -/
def Plainly (m : Memberlist) (op : Op) : Prop :=
  (∀ n ∈ about m op, n ≠ []) ∧
    (Accuses m op → ∃ me ∈ localEntry m, ipString (bytes me.addr) = m.config.name)

/-- So is every step of an instance: a merged entry and an expired timer count as the
    message that they amount to. -/
def PlainStep (g : Gossiper) : Act → Prop
  | .draw => True
  | .setAlive .. => g.m.config.name ≠ []
  | .apply op _ => ∀ cause ∈ resolve g.m op, Plainly g.m cause
  | .getBroadcasts .. => True

instance (g : Gossiper) : ∀ act, Decidable (PlainStep g act)
  | .draw | .getBroadcasts .. => instDecidableTrue
  | .setAlive .. => inferInstanceAs (Decidable (_ ≠ _))
  | .apply .. => inferInstanceAs (Decidable (∀ _ ∈ _, (∀ _ ∈ _, _) ∧ (_ → ∃ _ ∈ _, _)))

/-- A message that is queued under the name of its node. -/
def WellNamed (b : State.Broadcast) : Prop := b.name = b.msg.node ∧ b.name ≠ []

/-- The queue holds at most one message about a node, the last one that was queued. -/
structure OneEach (g : Gossiper) : Prop where
  single : (g.entries.map g.subject).Nodup
  latest : ∀ e ∈ g.entries, ∃ b, g.queued[e.ref]? = some b ∧ e.b.message = encode b.msg ∧
    ∀ r b', e.ref < r → g.queued[r]? = some b' → b'.msg.node ≠ b.msg.node

/-- A message that is queued removes none about another node. -/
def Spares (g : Gossiper) : Act → Prop
  | .getBroadcasts .. => True
  | act => ∀ e ∈ g.entries, e ∈ (step g act).entries ∨
      ∃ b, (step g act).queued = g.queued ++ [b] ∧ g.subject e = some b.msg.node

section
variable {m : Memberlist} {g : Gossiper}

theorem sent_about {op : Op} {b : State.Broadcast} (sent : Sent m op b) : about m op = some b.msg.node := by
  cases sent with
  | refute accuses own named =>
    rw [show (refutation _ _).msg.node = _ from named]
    cases op with
    | alive a env => exact congrArg some accuses.1
    | suspect s env => exact congrArg some accuses.1
    | dead d env => exact congrArg some accuses.1
    | _ => exact accuses.elim
  | _ => rfl

theorem sent_wellNamed {op : Op} {b : State.Broadcast} (sent : Sent m op b) (plain : Plainly m op) : WellNamed b := by
  have named : b.msg.node ≠ [] := plain.1 _ (sent_about sent)
  suffices same : b.name = b.msg.node from ⟨same,same ▸ named⟩
  cases sent with
  | @refute _ me incarnation accuses own isLocal =>
    obtain ⟨s,held,text⟩ := plain.2 accuses
    rw [← own s held] at text
    exact text.trans isLocal.symm
  | _ => rfl

theorem apply_wellNamed (wf : TableWF m) (idle : m.broadcasts = []) {op : Op}
    (plain : ∀ cause ∈ resolve m op, Plainly m cause) :
    (apply m op).broadcasts = [] ∨ ∃ b, (apply m op).broadcasts = [b] ∧ WellNamed b := by
  rcases sends_apply wf idle op with nothing | ⟨cause,resolved,nothing | ⟨b,sent,kind⟩⟩
  · exact .inl nothing
  · exact .inl nothing
  · exact .inr ⟨b,sent,sent_wellNamed kind (plain cause resolved)⟩

theorem setAlive_wellNamed (idle : m.broadcasts = []) (named : m.config.name ≠ []) (incarnation : UInt32) (addr : Slice)
    (port : UInt16) (metadata : Slice) (receipt : Option Nat) (env : Env) :
    let m' := (setAliveLocked m (startMessage m incarnation addr port metadata) receipt env).toOption.getD m
    m'.broadcasts = [] ∨ ∃ b, m'.broadcasts = [b] ∧ WellNamed b := by
  unfold setAliveLocked
  split_ifs
  · exact .inl idle
  · simp only [Except.toOption,Option.getD_some]
    have boot := aliveNodeLocked_boot (m := m) (a := startMessage m incarnation addr port metadata) rfl receipt env
    generalize aliveNodeLocked m (startMessage m incarnation addr port metadata) none true receipt env = m' at boot ⊢
    cases boot with
    | idle => exact .inl idle
    | conflict => exact .inl idle
    | apply found =>
      refine .inr ⟨⟨m.config.name,.alive (startMessage m incarnation addr port metadata),none⟩,?_,rfl,named⟩
      simp only [applyAlive,idle,encodeBroadcastNotify_nil,startMessage]
    | first absent =>
      refine .inr ⟨⟨m.config.name,.alive (startMessage m incarnation addr port metadata),none⟩,?_,rfl,named⟩
      simp only [applyAlive,addNode,idle,encodeBroadcastNotify_nil,startMessage]

/-- A step that queues nothing keeps the queue, and one that queues a message does that alone. -/
theorem step_plain (inv : Inv g) {act : Act} (plain : PlainStep g act)
    (other : ∀ overhead limit transmitLimit draws, act ≠ .getBroadcasts overhead limit transmitLimit draws) :
    ((step g act).entries = g.entries ∧ (step g act).queued = g.queued) ∨
      ∃ g' draws b, g'.entries = g.entries ∧ g'.queued = g.queued ∧ step g act = queueBroadcast draws g' b ∧ WellNamed b := by
  have committed : ∀ (m : Memberlist) (draws : Nat → UInt64),
      (m.broadcasts = [] ∨ ∃ b, m.broadcasts = [b] ∧ WellNamed b) →
      ((commit g m draws).entries = g.entries ∧ (commit g m draws).queued = g.queued) ∨
        ∃ g' draws' b, g'.entries = g.entries ∧ g'.queued = g.queued ∧
          commit g m draws = queueBroadcast draws' g' b ∧ WellNamed b := by
    rintro m draws (nothing | ⟨b,sent,named⟩)
    · left
      rw [commit_of_nil nothing]
      exact ⟨rfl,rfl⟩
    · right
      exact ⟨{ g with m := { m with broadcasts := [] }, handed := handed_nil m },draws,b,rfl,rfl,commit_of_one sent,named⟩
  cases act with
  | draw => exact committed _ _ (.inl g.handed)
  | setAlive => exact committed _ _ (setAlive_wellNamed g.handed plain ..)
  | apply op draws => exact committed _ _ (apply_wellNamed inv.table g.handed plain)
  | getBroadcasts => exact absurd rfl (other _ _ _ _)

theorem named_step (inv : Inv g) (named : ∀ b ∈ g.queued, WellNamed b) {act : Act} (plain : PlainStep g act) :
    ∀ b ∈ (step g act).queued, WellNamed b := by
  by_cases gets : ∀ overhead limit transmitLimit draws, act ≠ .getBroadcasts overhead limit transmitLimit draws
  · rcases step_plain inv plain gets with ⟨-,same⟩ | ⟨g',draws,b,-,log,queues,wellNamed⟩
    · rw [same]
      exact named
    · intro b' member
      rw [queues,queueBroadcast,log] at member
      rcases List.mem_append.mp member with old | new
      · exact named b' old
      · rw [List.mem_singleton.mp new]
        exact wellNamed
  · push Not at gets
    obtain ⟨overhead,limit,transmitLimit,draws,rfl⟩ := gets
    exact named

/-- The name under which an entry is queued is that of its node. -/
theorem subject_of_named (inv : Inv g) (named : ∀ b ∈ g.queued, WellNamed b) {e : Entry} (member : e ∈ g.entries) :
    g.subject e = some e.b.name := by
  obtain ⟨b,place,same⟩ := inv.logged e member
  have wellNamed := named b (List.mem_of_getElem? place)
  rw [Gossiper.subject,place,same]
  exact congrArg some wellNamed.1.symm

theorem spares_step (inv : Inv g) (named : ∀ b ∈ g.queued, WellNamed b) {act : Act} (plain : PlainStep g act) :
    Spares g act := by
  have kept : (∀ overhead limit transmitLimit draws, act ≠ .getBroadcasts overhead limit transmitLimit draws) →
      ∀ e ∈ g.entries, e ∈ (step g act).entries ∨
        ∃ b, (step g act).queued = g.queued ++ [b] ∧ g.subject e = some b.msg.node := by
    intro other e member
    rcases step_plain inv plain other with ⟨same,-⟩ | ⟨g',draws,b,entries,log,queues,wellNamed⟩
    · rw [same]
      exact .inl member
    by_cases replaced : b.name ≠ [] ∧ e.b.name = b.name
    · refine .inr ⟨b,?_,?_⟩
      · rw [queues,queueBroadcast,log]
      · rw [subject_of_named inv named member,replaced.2,wellNamed.1]
    · rw [queues]
      exact .inl (mem_queueBroadcast.mpr (.inr ⟨entries ▸ member,replaced⟩))
  cases act with
  | getBroadcasts => trivial
  | _ => exact kept (by simp)

theorem entries_inj {e e' : Entry} (first : e ∈ g.entries) (second : e' ∈ g.entries) (same : e.ref = e'.ref) :
    e = e' := by
  obtain ⟨r,-,rfl⟩ := List.mem_map.mp first
  obtain ⟨r',-,rfl⟩ := List.mem_map.mp second
  rw [show r = r' from same]

theorem oneEach_of_named (inv : Inv g) (named : ∀ b ∈ g.queued, WellNamed b) : OneEach g where
  single := by
    have linkedOnce : g.entries.Nodup :=
      (List.nodup_append.mp g.broadcasts.wf.once).1.map entryOf_inj
    have later : ∀ e ∈ g.entries, ∀ e' ∈ g.entries, g.subject e = g.subject e' → ¬ e.ref < e'.ref := by
      intro e first e' second same before
      obtain ⟨b,place,same'⟩ := inv.logged e' second
      rw [subject_of_named inv named first,subject_of_named inv named second,same'] at same
      exact inv.latest e first e'.ref b before place (named b (List.mem_of_getElem? place)).2 (Option.some.inj same)
    refine linkedOnce.map_on ?_
    intro e first e' second same
    rcases Nat.lt_trichotomy e.ref e'.ref with before | equal | after
    · exact absurd before (later e first e' second same)
    · exact entries_inj first second equal
    · exact absurd after (later e' second e first same.symm)
  latest e member := by
    obtain ⟨b,place,same⟩ := inv.logged e member
    refine ⟨b,place,by rw [same]; rfl,?_⟩
    intro r b' after place' node
    have wellNamed := named b (List.mem_of_getElem? place)
    have wellNamed' := named b' (List.mem_of_getElem? place')
    refine inv.latest e member r b' after place' wellNamed'.2 ?_
    rw [same]
    exact wellNamed.1.trans (node.symm.trans wellNamed'.1.symm)

end

/-- In every run of an instance in which no section is about a node without a name and
    none makes the local node refute, unless its name is the text of its address, the queue
    holds at most one message about any node, the last one that was queued, and no message
    removes one about another node. -/
theorem queue_unambiguous (conf : Config) (acts : List Act) (plain : Along step PlainStep (created conf) acts) :
    OneEach (run step (created conf) acts) ∧ Along step Spares (created conf) acts := by
  have keeps : ∀ g act, Inv g ∧ (∀ b ∈ g.queued, WellNamed b) → PlainStep g act →
      Inv (step g act) ∧ ∀ b ∈ (step g act).queued, WellNamed b :=
    fun g act held ok => ⟨inv_step g act held.1,named_step held.1 held.2 ok⟩
  have start : Inv (created conf) ∧ ∀ b ∈ (created conf).queued, WellNamed b := by
    refine ⟨inv_created conf,?_⟩
    intro b member
    cases member
  have reached := along_keeps (I := fun g => Inv g ∧ ∀ b ∈ g.queued, WellNamed b) keeps start plain
  exact ⟨oneEach_of_named reached.1 reached.2,along_also keeps (fun g act held ok => spares_step held.1 held.2 ok) start plain⟩

section
/-- The node `a` starts at 10.0.0.1. -/
def starting : List Act := [.draw,.setAlive 1 (some [10,0,0,1]) 7946 none none {} (fun _ => 0)]

/-- It hears of a node whose name is the text of that address. -/
def meets : Act :=
  .apply (.alive ⟨1,[49,48,46,48,46,48,46,49],some [10,0,0,2],7946,none,restarting.buildVsnArray⟩ {}) (fun _ => 0)

/-- It is suspected by `b`, and refutes. -/
def accused : Act := .apply (.suspect ⟨1,[97],[98]⟩ {}) (fun _ => 0)

/-- After the refutation two messages about `a` are queued, and the message about the other
    node is gone. -/
theorem refutation_ambiguous :
    ¬ OneEach (run step (created restarting) (starting ++ [accused])) ∧
      ¬ Spares (run step (created restarting) (starting ++ [meets])) accused := by
  constructor
  · intro one
    exact absurd one.single (by decide)
  · intro spares
    let g := run step (created restarting) (starting ++ [meets])
    have other : g.entries.map (fun e => (e.ref,g.subject e)) =
      [(1,some [49,48,46,48,46,48,46,49]),(0,some [97])] := by decide
    have first : (1,some [49,48,46,48,46,48,46,49]) ∈ g.entries.map (fun e => (e.ref,g.subject e)) := by
      rw [other]
      exact List.mem_cons_self
    obtain ⟨e,member,same⟩ := List.mem_map.mp first
    rcases spares e member with kept | ⟨b,log,subject⟩
    · have refs : (step g accused).entries.map (·.ref) = [2,0] := by decide
      have found : e.ref ∈ (step g accused).entries.map (·.ref) := List.mem_map_of_mem kept
      rw [refs,(Prod.mk.inj same).1] at found
      exact absurd found (by decide)
    · have last : (step g accused).queued.getLast?.map (fun b => b.msg.node) = some [97] := by decide
      rw [log,List.getLast?_concat] at last
      have wrong := (Prod.mk.inj same).2.symm.trans (subject.trans last)
      exact absurd wrong (by decide)

/-- The node and a peer start, and some of its messages are sent. -/
theorem queue_unambiguous_starting :
    let acts := starting ++ [meets,.getBroadcasts 2 1400 3 (fun _ => 0),.apply (.leave none {}) (fun _ => 0)]
    Along step PlainStep (created restarting) acts ∧ OneEach (run step (created restarting) acts) :=
  ⟨by decide,(queue_unambiguous restarting _ (by decide)).1⟩

end

end Mori.Gossip
