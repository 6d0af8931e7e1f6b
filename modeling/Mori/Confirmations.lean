import Mori.Suspicions
import Mori.Machines

/-!
One suspicion (`suspicion.go`), operation by operation. A call of `Confirm` is split into what it does
to the state it shares with the timer: the counter, and the timer itself, which may fire in between.
Seen from its callers a call is still `Suspicion.confirm` (`granted_step`), so that senders are
counted once; and the one chance to time out is passed on and never copied (`chances_step`): the timer
has it, a call that stopped the timer, or a run of the callback. The suspect messages that an
instance queues for a suspicion are then counted by its counter.
-/
namespace Mori.Confirmations
open Mori.Net Mori.Protocol Mori.State Mori.Moves
set_option linter.unusedSimpArgs false

/-- How far the call of `Confirm` in progress is: it has recorded the sender, counted it, or
    stopped the timer. -/
inductive Pc where
  | idle
  | recorded (from_ : Bytes)
  | counted (from_ : Bytes)
  | stopped (from_ : Bytes) (remaining : Duration)
deriving DecidableEq,Repr

/-- A suspicion with its timer. `pending` are the runs of `timeoutFn` that were started and have not
    got to its body, `ran` what the others passed on; `returned` is what the calls of `Confirm` returned,
    the latest first. -/
structure Timed where
  suspicion : Suspicion
  armed : Bool := true
  pending : Nat := 0
  ran : List Int := []
  pc : Pc := .idle
  returned : List (Bytes × Bool) := []
deriving DecidableEq,Repr

inductive Act where
  | confirm (from_ : Bytes)
  | add
  | stop (remaining : Duration)
  | rearm
  | fire
  | callback
deriving DecidableEq,Repr

def Timed.returns (s : Timed) (from_ : Bytes) (result : Bool) : Timed :=
  { s with pc := .idle, returned := (from_,result) :: s.returned }

/-- An act that is not possible leaves the state as it is: calls are serialised, and a
    timer fires only while it is armed. -/
def step (s : Timed) : Act → Timed
  | .confirm from_ =>
    match s.pc with
    | .idle =>
      if s.suspicion.k ≤ s.suspicion.n then s.returns from_ false
      else if s.suspicion.confirmations.any (fun sender => sender = from_) = true then s.returns from_ false
      else { s with
        suspicion := { s.suspicion with confirmations := from_ :: s.suspicion.confirmations }
        pc := .recorded from_ }
    | _ => s
  | .add =>
    match s.pc with
    | .recorded from_ => { s with suspicion := { s.suspicion with n := s.suspicion.n + 1 }, pc := .counted from_ }
    | _ => s
  | .stop remaining =>
    match s.pc with
    | .counted from_ =>
      if s.armed then { s with armed := false, pc := .stopped from_ remaining } else s.returns from_ true
    | _ => s
  | .rearm =>
    match s.pc with
    | .stopped from_ remaining =>
      if 0 < remaining then { s with armed := true }.returns from_ true
      else { s with pending := s.pending + 1 }.returns from_ true
    | _ => s
  | .fire => if s.armed then { s with armed := false, pending := s.pending + 1 } else s
  | .callback =>
    if 0 < s.pending then { s with pending := s.pending - 1, ran := s.ran ++ [s.suspicion.n] } else s

/-- A new suspicion, whose timer is armed. -/
def start (node : Bytes) (changeTime : Time) (from_ : Bytes) (k : Int) : Timed :=
  { suspicion := newSuspicion node changeTime from_ k }

inductive Taken (s : Timed) : Timed → Prop
  | nothing : Taken s s
  | refuse {from_ : Bytes} (pc : s.pc = .idle) (refused : s.suspicion.k ≤ s.suspicion.n ∨ from_ ∈ s.suspicion.confirmations) :
      Taken s (s.returns from_ false)
  | record {from_ : Bytes} (pc : s.pc = .idle) (fewer : s.suspicion.n < s.suspicion.k)
      (unknown : from_ ∉ s.suspicion.confirmations) :
      Taken s { s with
        suspicion := { s.suspicion with confirmations := from_ :: s.suspicion.confirmations }
        pc := .recorded from_ }
  | add {from_ : Bytes} (pc : s.pc = .recorded from_) :
      Taken s { s with suspicion := { s.suspicion with n := s.suspicion.n + 1 }, pc := .counted from_ }
  | stop {from_ : Bytes} {remaining : Duration} (pc : s.pc = .counted from_) (armed : s.armed = true) :
      Taken s { s with armed := false, pc := .stopped from_ remaining }
  | late {from_ : Bytes} (pc : s.pc = .counted from_) : Taken s (s.returns from_ true)
  | rearm {from_ : Bytes} {remaining : Duration} (pc : s.pc = .stopped from_ remaining) :
      Taken s ({ s with armed := true }.returns from_ true)
  | call {from_ : Bytes} {remaining : Duration} (pc : s.pc = .stopped from_ remaining) :
      Taken s ({ s with pending := s.pending + 1 }.returns from_ true)
  | fire (armed : s.armed = true) : Taken s { s with armed := false, pending := s.pending + 1 }
  | callback (started : 0 < s.pending) :
      Taken s { s with pending := s.pending - 1, ran := s.ran ++ [s.suspicion.n] }

theorem step_taken (s : Timed) (a : Act) : Taken s (step s a) := by
  cases a with
  | confirm from_ =>
    cases pc : s.pc with
    | idle =>
      simp only [step,pc]
      split_ifs with enough known
      · exact .refuse pc (.inl enough)
      · exact .refuse pc (.inr (by simpa using known))
      · exact .record pc (Int.not_le.mp enough) (by simpa using known)
    | recorded | counted | stopped =>
      simp only [step,pc]
      exact .nothing
  | add =>
    cases pc : s.pc with
    | recorded from_ =>
      simp only [step,pc]
      exact .add pc
    | idle | counted | stopped =>
      simp only [step,pc]
      exact .nothing
  | stop remaining =>
    cases pc : s.pc with
    | counted from_ =>
      simp only [step,pc]
      split_ifs with armed
      · exact .stop pc armed
      · exact .late pc
    | recorded | idle | stopped =>
      simp only [step,pc]
      exact .nothing
  | rearm =>
    cases pc : s.pc with
    | stopped from_ remaining =>
      simp only [step,pc]
      split_ifs
      · exact .rearm pc
      · exact .call pc
    | recorded | idle | counted =>
      simp only [step,pc]
      exact .nothing
  | fire =>
    rw [step]
    split_ifs with armed
    · exact .fire armed
    · exact .nothing
  | callback =>
    rw [step]
    split_ifs with started
    · exact .callback started
    · exact .nothing

/-- The senders whose calls returned true. -/
def accepted (returned : List (Bytes × Bool)) : List Bytes := (returned.filter (fun r => r.2)).map (fun r => r.1)

/-- A whole call of `Confirm`, and what was returned so far. -/
def serve (served : Suspicion × List (Bytes × Bool)) (from_ : Bytes) : Suspicion × List (Bytes × Bool) :=
  ((served.1.confirm from_).1,(from_,(served.1.confirm from_).2) :: served.2)

/-- What the call in progress will leave behind: a sender that was recorded will be counted, and
    told so. -/
def Timed.granted (s : Timed) : Suspicion × List (Bytes × Bool) :=
  match s.pc with
  | .idle => (s.suspicion,s.returned)
  | .recorded from_ => ({ s.suspicion with n := s.suspicion.n + 1 },(from_,true) :: s.returned)
  | .counted from_ => (s.suspicion,(from_,true) :: s.returned)
  | .stopped from_ _ => (s.suspicion,(from_,true) :: s.returned)

/-- Each call takes effect as a whole when it begins, and the timer changes nothing of it. -/
theorem granted_step (s : Timed) (a : Act) :
    (step s a).granted = s.granted ∨ ∃ from_, (step s a).granted = serve s.granted from_ := by
  have taken := step_taken s a
  generalize step s a = s' at taken ⊢
  cases taken with
  | nothing => exact .inl rfl
  | @refuse from_ pc refused =>
    refine .inr ⟨from_,?_⟩
    have same : s.suspicion.confirm from_ = (s.suspicion,false) := by
      rw [Suspicion.confirm]
      split_ifs with enough known
      · rfl
      · rfl
      · exact absurd refused (not_or.mpr ⟨enough,known⟩)
    simp only [Timed.granted,Timed.returns,serve,pc,same]
  | @record from_ pc fewer unknown =>
    refine .inr ⟨from_,?_⟩
    simp only [Timed.granted,serve,pc,Suspicion.confirm,if_neg (Int.not_le.mpr fewer),if_neg unknown]
  | add pc | stop pc | late pc | rearm pc | call pc =>
    refine .inl ?_
    simp only [Timed.granted,Timed.returns,pc]
  | fire | callback => exact .inl rfl

/-- The counter, the set and the bound agree. -/
structure Counted (s : Suspicion) : Prop where
  nodup : s.confirmations.Nodup
  count : s.n + 1 = s.confirmations.length
  bound : s.n ≤ max s.k 0

theorem counted_new (node : Bytes) (changeTime : Time) (from_ : Bytes) (k : Int) :
    Counted (newSuspicion node changeTime from_ k) :=
  ⟨List.nodup_singleton from_,rfl,le_max_right _ _⟩

/-- A call of `Confirm` counts a sender that is not in the set, as long as fewer than `k` are counted. -/
theorem confirm_cases (s : Suspicion) (from_ : Bytes) :
    s.confirm from_ = (s,false) ∨ (s.n < s.k ∧ from_ ∉ s.confirmations ∧
      s.confirm from_ = ({ s with n := s.n + 1, confirmations := from_ :: s.confirmations },true)) := by
  unfold Suspicion.confirm
  split_ifs with enough known
  · exact .inl rfl
  · exact .inl rfl
  · exact .inr ⟨Int.not_le.mp enough,known,rfl⟩

theorem counted_confirm {s : Suspicion} (counted : Counted s) (from_ : Bytes) : Counted (s.confirm from_).1 := by
  rcases confirm_cases s from_ with refused | ⟨fewer,unknown,taken⟩
  · rw [refused]
    exact counted
  · rw [taken]
    refine ⟨List.nodup_cons.mpr ⟨unknown,counted.nodup⟩,?_,?_⟩
    · have count := counted.count
      simp only [List.length_cons]
      omega
    · dsimp only
      omega

/-- The set holds the accuser and the senders that were told so. -/
structure Tallies (accuser : Bytes) (k : Int) (served : Suspicion × List (Bytes × Bool)) : Prop where
  counted : Counted served.1
  k : served.1.k = k
  senders : served.1.confirmations = accepted served.2 ++ [accuser]

section
variable {accuser : Bytes} {k : Int} {served : Suspicion × List (Bytes × Bool)}

theorem tallies_serve (tallies : Tallies accuser k served) (from_ : Bytes) : Tallies accuser k (serve served from_) := by
  have counted := counted_confirm tallies.counted from_
  rw [serve]
  rcases confirm_cases served.1 from_ with refused | ⟨-,-,taken⟩
  · rw [refused] at counted ⊢
    exact ⟨counted,tallies.k,tallies.senders⟩
  · rw [taken] at counted ⊢
    exact ⟨counted,tallies.k,congrArg (from_ :: ·) tallies.senders⟩

theorem tallies_step (s : Timed) (a : Act) (tallies : Tallies accuser k s.granted) :
    Tallies accuser k (step s a).granted := by
  rcases granted_step s a with same | ⟨from_,called⟩
  · rw [same]
    exact tallies
  · rw [called]
    exact tallies_serve tallies from_

/-- The senders that were told so are pairwise distinct, not the accuser, and no more than expected. -/
theorem accepted_spec (tallies : Tallies accuser k served) :
    ((accepted served.2).length : Int) ≤ max k 0 ∧ (accepted served.2).Nodup ∧ accuser ∉ accepted served.2 := by
  have counted := tallies.counted
  have nodup := counted.nodup
  rw [tallies.senders,List.nodup_append] at nodup
  refine ⟨?_,nodup.1,fun wrong => nodup.2.2 accuser wrong accuser (List.mem_singleton_self _) rfl⟩
  have count := counted.count
  have bound := counted.bound
  rw [tallies.senders,List.length_append,List.length_singleton] at count
  rw [tallies.k] at bound
  omega

end

/-- What was returned is a part of what is granted. -/
theorem accepted_granted (s : Timed) : accepted s.returned <:+ accepted s.granted.2 := by
  obtain ⟨suspicion,armed,pending,ran,pc,returned⟩ := s
  cases pc with
  | idle => exact List.suffix_refl _
  | recorded from_ | counted from_ | stopped from_ => exact List.suffix_cons ..

/-- No call is in progress, and as many are counted as are expected. -/
structure Full (senders : List Bytes) (s : Timed) : Prop where
  pc : s.pc = .idle
  enough : s.suspicion.k ≤ s.suspicion.n
  senders : accepted s.returned = senders

theorem full_step {senders : List Bytes} (s : Timed) (a : Act) (full : Full senders s) : Full senders (step s a) := by
  have between := full.pc
  have taken := step_taken s a
  generalize step s a = s' at taken ⊢
  cases taken with
  | nothing => exact full
  | refuse => exact ⟨rfl,full.enough,full.senders⟩
  | record _ fewer => exact absurd full.enough (Int.not_le.mpr fewer)
  | add pc | stop pc | late pc | rearm pc | call pc =>
    rw [between] at pc
    cases pc
  | fire | callback => exact ⟨between,full.enough,full.senders⟩

/-- `Confirm` is between its stop of the timer and what follows from it. -/
def Pc.holdsTimer : Pc → Bool
  | .stopped .. => true
  | _ => false

/-- The chances to time out: that of the timer, that which a call has taken from it, and the
    runs of the callback. -/
def Timed.chances (s : Timed) : Nat := s.armed.toNat + s.pc.holdsTimer.toNat + s.pending + s.ran.length

/-- A chance is passed on: by a stop, by what follows a stop, by a timer that fires. -/
theorem chances_step (s : Timed) (a : Act) (one : s.chances = 1) : (step s a).chances = 1 := by
  have taken := step_taken s a
  generalize step s a = s' at taken ⊢
  rw [Timed.chances] at one
  cases taken with
  | nothing => exact one
  | refuse pc | record pc | add pc | late pc =>
    simp only [pc,Pc.holdsTimer] at one
    exact one
  | stop pc armed =>
    simp only [pc,armed,Pc.holdsTimer] at one
    exact one
  | rearm pc =>
    simp only [pc,Pc.holdsTimer,Bool.toNat_true] at one
    simp only [Timed.chances,Timed.returns,Pc.holdsTimer,Bool.toNat_true,Bool.toNat_false]
    omega
  | call pc =>
    simp only [pc,Pc.holdsTimer,Bool.toNat_true] at one
    simp only [Timed.chances,Timed.returns,Pc.holdsTimer,Bool.toNat_false]
    omega
  | fire armed =>
    simp only [armed,Bool.toNat_true] at one
    simp only [Timed.chances,Bool.toNat_false]
    omega
  | callback started =>
    simp only [Timed.chances,List.length_append,List.length_singleton]
    omega

section
variable {m m' : Memberlist} {s : Suspect} {env : Env} {t : Nat}

/-- What a call of `suspectNode` queues. -/
def queuedBy (m : Memberlist) (s : Suspect) (env : Env) : List Broadcast :=
  (suspectNode { m with broadcasts := [] } s env).broadcasts

/-- The suspect messages among them for the suspicion at `t`, whose timer then stands under the name. -/
def queuedFor (t : Nat) (m : Memberlist) (s : Suspect) (env : Env) : List Broadcast :=
  (queuedBy m s env).filter (fun b => b.msg = .suspect s ∧ (suspectNode m s env).nodeTimers s.node = some t)

/-- What a call of `suspectNode` can queue and do. -/
inductive Suspected (m : Memberlist) (s : Suspect) (env : Env) : List Broadcast → Memberlist → Prop
  | ignored : Suspected m s env [] m
  | counted {t : Nat} (timer : m.nodeTimers s.node = some t) (told : ((m.suspicions t).confirm s.from_).2 = true) :
      Suspected m s env [⟨s.node,.suspect s,none⟩] (confirmTimer m t s)
  | known {t : Nat} (timer : m.nodeTimers s.node = some t) (told : ((m.suspicions t).confirm s.from_).2 = false) :
      Suspected m s env [] (confirmTimer m t s)
  | refuted {r : Ref} {b : Broadcast} (other : b.msg ≠ .suspect s)
      (queued : (refute m r s.incarnation).broadcasts = encodeBroadcastNotify m.broadcasts b.name b.msg b.notify) :
      Suspected m s env [b] (refute m r s.incarnation)
  | armed {r : Ref} : Suspected m s env [⟨s.node,.suspect s,none⟩] (applySuspect m r s env.now)

theorem suspectNode_suspected (m : Memberlist) (s : Suspect) (env : Env) :
    Suspected m s env (queuedBy m s env) (suspectNode m s env) := by
  unfold queuedBy suspectNode
  by_cases down : m.shutdown = true
  · simp only [if_pos down]
    exact .ignored
  simp only [if_neg down]
  cases m.nodeMap s.node with
  | none => exact .ignored
  | some r =>
    dsimp only
    by_cases stale : s.incarnation < (m.heap r).incarnation
    · simp only [if_pos stale]
      exact .ignored
    simp only [if_neg stale]
    cases timer : m.nodeTimers s.node with
    | some t =>
      cases told : ((m.suspicions t).confirm s.from_).2 with
      | false =>
        have queued : (confirmTimer { m with broadcasts := [] } t s).broadcasts = [] := by
          simp only [confirmTimer,told,Bool.false_eq_true,if_false]
        rw [queued]
        exact .known timer told
      | true =>
        have queued : (confirmTimer { m with broadcasts := [] } t s).broadcasts = [⟨s.node,.suspect s,none⟩] := by
          simp only [confirmTimer,told,if_true,encodeBroadcastNotify_nil]
        rw [queued]
        exact .counted timer told
    | none =>
      dsimp only
      by_cases quiet : (m.heap r).state ≠ .alive
      · simp only [if_pos quiet]
        exact .ignored
      simp only [if_neg quiet]
      by_cases isLocal : (m.heap r).name = m.config.name
      · simp only [if_pos isLocal]
        have queued : ∃ b, (refute { m with broadcasts := [] } r s.incarnation).broadcasts = [b] ∧ b.msg ≠ .suspect s ∧
            (refute m r s.incarnation).broadcasts = encodeBroadcastNotify m.broadcasts b.name b.msg b.notify := by
          simp only [refute,encodeBroadcastNotify_nil]
          exact ⟨_,rfl,by simp,rfl⟩
        obtain ⟨b,queued,other,after⟩ := queued
        rw [queued]
        exact .refuted other after
      · simp only [if_neg isLocal,applySuspect,encodeBroadcastNotify_nil]
        exact .armed

/-- The suspicion at `t`, once it is there, has been counted once and once more for each confirmation. -/
def messages (t : Nat) (m : Memberlist) : Int := if t < m.armed then 1 + (m.suspicions t).n else 0

theorem messages_frame (armed : m'.armed = m.armed) (same : m'.suspicions = m.suspicions) (t : Nat) :
    messages t m' = messages t m := by
  rw [messages,messages,armed,same]

theorem suspicions_confirmTimer (m : Memberlist) (t : Nat) (s : Suspect) (t' : Nat) :
    (confirmTimer m t s).suspicions t' = if t' = t then ((m.suspicions t).confirm s.from_).1 else m.suspicions t' :=
  Function.update_apply ..

theorem suspicions_applySuspect (m : Memberlist) (r : Ref) (s : Suspect) (now : Time) (t : Nat) :
    (applySuspect m r s now).suspicions t =
      if t = m.armed then newSuspicion s.node now s.from_ (expectedConfirmations m) else m.suspicions t :=
  Function.update_apply ..

theorem messages_confirm (below : t < m.armed) (t' : Nat) :
    messages t' (confirmTimer m t s) =
      messages t' m + if t' = t ∧ ((m.suspicions t).confirm s.from_).2 = true then 1 else 0 := by
  rw [messages,messages,suspicions_confirmTimer]
  by_cases here : t' = t
  · subst here
    have stays : t' < (confirmTimer m t' s).armed := below
    rw [if_pos rfl,if_pos below,if_pos stays]
    rcases confirm_cases (m.suspicions t') s.from_ with refused | ⟨-,-,taken⟩
    · simp [refused]
    · rw [taken,if_pos ⟨rfl,rfl⟩]
      ring
  · simp only [here,false_and,if_false,add_zero]
    rfl

theorem messages_arm (r : Ref) (s : Suspect) (now : Time) (t : Nat) :
    messages t (applySuspect m r s now) = messages t m + if t = m.armed then 1 else 0 := by
  have armed : (applySuspect m r s now).armed = m.armed + 1 := rfl
  rw [messages,messages,suspicions_applySuspect,armed]
  by_cases here : t = m.armed
  · subst here
    simp [newSuspicion]
  · have older : t < m.armed + 1 ↔ t < m.armed := by omega
    simp only [older,if_neg here,add_zero]

/-- A call of `suspectNode` queues a message for a suspicion as often as the count of it goes up. -/
theorem queuedFor_count (timers : ∀ n t, m.nodeTimers n = some t → t < m.armed) (t : Nat) (s : Suspect) (env : Env) :
    messages t (suspectNode m s env) = messages t m + (queuedFor t m s env).length := by
  have suspected := suspectNode_suspected m s env
  rw [queuedFor]
  generalize queuedBy m s env = queue at suspected ⊢
  generalize suspectNode m s env = m' at suspected ⊢
  cases suspected with
  | ignored => simp
  | @counted t' timer told =>
    have stays : (confirmTimer m t' s).nodeTimers s.node = some t' := timer
    rw [messages_confirm (timers _ _ timer)]
    by_cases here : t = t'
    · subst here
      simp [stays,told]
    · simp [stays,here,Ne.symm here]
  | known timer told =>
    rw [messages_confirm (timers _ _ timer)]
    simp [told]
  | @refuted r b other _ =>
    have same : messages t (refute m r s.incarnation) = messages t m := messages_frame rfl rfl t
    simp [other,same]
  | @armed r =>
    have stands : (applySuspect m r s env.now).nodeTimers s.node = some m.armed := Function.update_self ..
    rw [messages_arm]
    by_cases here : t = m.armed
    · simp [stands,here]
    · simp [stands,here,Ne.symm here]

/-- Only suspect messages change suspicions: they confirm one or add one. -/
theorem suspicions_move {op : Op} (move : Move m op m') :
    (m'.armed = m.armed ∧ m'.suspicions = m.suspicions) ∨ ∃ s env, op = .suspect s env ∧
      ((∃ t, m.nodeTimers s.node = some t ∧ m' = confirmTimer m t s) ∨ ∃ r, m' = applySuspect m r s env.now) := by
  cases move with
  | @confirm s env r t _ _ timer => exact .inr ⟨s,env,rfl,.inl ⟨t,timer,rfl⟩⟩
  | @applySuspect s env r => exact .inr ⟨s,env,rfl,.inr ⟨r,rfl⟩⟩
  | _ => exact .inl ⟨rfl,rfl⟩

end

/-- The suspicions of an instance are counted right. -/
def AllCounted (m : Memberlist) : Prop := ∀ t < m.armed, Counted (m.suspicions t)

section
variable {m m' : Memberlist}

theorem allCounted_frame (armed : m'.armed = m.armed) (same : m'.suspicions = m.suspicions) (all : AllCounted m) :
    AllCounted m' := by
  intro t below
  rw [same]
  exact all t (armed ▸ below)

theorem allCounted_move {op : Op} (all : AllCounted m) (move : Move m op m') : AllCounted m' := by
  rcases suspicions_move move with ⟨armed,same⟩ | ⟨s,env,rfl,⟨t,timer,rfl⟩ | ⟨r,rfl⟩⟩
  · exact allCounted_frame armed same all
  · intro t' below
    rw [suspicions_confirmTimer]
    split_ifs with here
    · subst here
      exact counted_confirm (all t' below) s.from_
    · exact all t' below
  · intro t' below
    rw [suspicions_applySuspect]
    split_ifs with here
    · exact counted_new ..
    · have older : t' < m.armed + 1 := below
      exact all t' (by omega)

theorem suspicions_boot {a : Alive} (boot : Boot m a m') : m'.armed = m.armed ∧ m'.suspicions = m.suspicions := by
  cases boot with
  | idle | conflict | apply | first => exact ⟨rfl,rfl⟩

theorem allCounted_reachable {conf : Config} (reached : Reachable conf m) : AllCounted m :=
  (reachable_invariant (fun t below => absurd below (Nat.not_lt_zero t)) (fun _ all => all)
    (fun _ all _ _ boot => allCounted_frame (suspicions_boot boot).1 (suspicions_boot boot).2 all)
    (fun _ all move => allCounted_move all move) reached).2

end

/-- The suspect messages that a critical section queues for a suspicion. -/
def queuedIn (t : Nat) (m : Memberlist) (op : Op) : Nat :=
  match resolve m op with
  | some (.suspect s env) => (queuedFor t m s env).length
  | _ => 0

/-- The states of an instance, with the number of suspect messages queued so far for the suspicion at `t`. -/
inductive Queued (conf : Config) (t : Nat) : Memberlist → Nat → Prop
  | build : Queued conf t (buildMemberlist conf) 0
  | draw {m : Memberlist} {count : Nat} (before : Queued conf t m count) (addr : Slice) (port : Int) (metadata : Slice) :
      Queued conf t (setAliveMessage m addr port metadata).1 count
  | commit {m m' : Memberlist} {count : Nat} (before : Queued conf t m count) {a : Alive} (named : a.node = conf.name)
      {receipt : Option Nat} {env : Env} (committed : setAliveLocked m a receipt env = .ok m') : Queued conf t m' count
  | step {m : Memberlist} {count : Nat} (before : Queued conf t m count) (op : Op) :
      Queued conf t (apply m op) (count + queuedIn t m op)

theorem queued_reachable {conf : Config} {t count : Nat} {m : Memberlist} (queued : Queued conf t m count) :
    Reachable conf m := by
  induction queued with
  | build => exact .build
  | draw _ addr port metadata ih => exact .draw ih addr port metadata
  | commit _ named committed ih => exact .commit ih named committed
  | step _ op ih => exact .step ih op

theorem suspicions_commits {m m' : Memberlist} {op : Op} (other : ∀ s env, op ≠ .suspect s env) (made : Commits m op m') :
    m'.armed = m.armed ∧ m'.suspicions = m.suspicions := by
  have single : ∀ {m m'}, Move m op m' → m'.armed = m.armed ∧ m'.suspicions = m.suspicions := by
    intro m m' move
    rcases suspicions_move move with same | ⟨s,env,wrong,-⟩
    · exact same
    · exact absurd wrong (other s env)
  cases made with
  | idle => exact ⟨rfl,rfl⟩
  | move move => exact single move
  | join _ added move =>
    have first := single added
    have second := single move
    exact ⟨second.1.trans first.1,second.2.trans first.2⟩

theorem messages_apply {conf : Config} {m : Memberlist} (reached : Reachable conf m) (t : Nat) (op : Op) :
    messages t (apply m op) = messages t m + queuedIn t m op := by
  have timers := Suspicions.timers_reachable reached
  have changed := apply_commits (tableWF_reachable reached).1 op
  have resolves := apply_resolve m op
  rw [queuedIn]
  cases resolved : resolve m op with
  | none =>
    rw [resolved] at resolves
    rw [resolves]
    simp
  | some cause =>
    by_cases accuses : ∃ s env, cause = .suspect s env
    · obtain ⟨s,env,rfl⟩ := accuses
      rw [resolved] at resolves
      rw [resolves]
      exact queuedFor_count (fun n t timer => (timers.timer n t timer).1) t s env
    · have other : ∀ s env, cause ≠ .suspect s env := fun s env same => accuses ⟨s,env,same⟩
      have same : (apply m op).armed = m.armed ∧ (apply m op).suspicions = m.suspicions := by
        rcases changed with idle | ⟨cause',resolved',made⟩
        · rw [idle]
          exact ⟨rfl,rfl⟩
        · rw [resolved] at resolved'
          cases resolved'
          exact suspicions_commits other made
      rw [messages_frame same.1 same.2]
      split
      · next wrong => exact absurd (Option.some.inj wrong) (other _ _)
      · simp

/-- A suspicion is announced when it begins, and once for each confirmation that is counted. -/
theorem queued_messages {conf : Config} {t count : Nat} {m : Memberlist} (queued : Queued conf t m count) :
    (count : Int) = messages t m := by
  induction queued with
  | build => rfl
  | draw _ _ _ _ ih => exact ih
  | commit before named committed ih =>
    have config := (tableWF_reachable (queued_reachable before)).2
    have same := suspicions_boot (setAliveLocked_boot (named.trans (congrArg _ config.symm)) committed).2
    rw [ih,messages_frame same.1 same.2]
  | step before op ih =>
    rw [messages_apply (queued_reachable before),← ih]
    push_cast
    rfl

theorem queued_bound {conf : Config} {t count : Nat} {m : Memberlist} (queued : Queued conf t m count) :
    (count : Int) ≤ 1 + max (m.suspicions t).k 0 := by
  have all := allCounted_reachable (queued_reachable queued)
  rw [queued_messages queued,messages]
  split_ifs with begun
  · have bound := (all t begun).bound
    omega
  · omega

/-- Whatever the interleaving of the calls of `Confirm` with the timer: true is returned to senders that
    are pairwise distinct and not the accuser, to at most `k` of them, and to none when `k` are
    counted; the callback is started at most once, and the timer is armed until then, except while
    a call has stopped it and is about to arm it again or to start the callback. An instance queues at
    most one suspect message more for a suspicion. -/
theorem suspicion_confirmed_once (node : Bytes) (changeTime : Time) (from_ : Bytes) (k : Int)
    (range : -2 ^ 31 ≤ k ∧ k < 2 ^ 31) :
    (∀ acts : List Act,
      let s := Machines.run step (start node changeTime from_ k) acts
      ((accepted s.returned).length : Int) ≤ max k 0 ∧ (accepted s.returned).Nodup ∧ from_ ∉ accepted s.returned ∧
      (s.pc = .idle → k ≤ s.suspicion.n → ∀ more, accepted (Machines.run step s more).returned = accepted s.returned) ∧
      s.pending + s.ran.length ≤ 1 ∧
      (s.pending = 0 → s.ran = [] → s.pc.holdsTimer = false → s.armed = true)) ∧
    ∀ (conf : Config) (t : Nat) (m : Memberlist) (count : Nat), Queued conf t m count →
      (count : Int) ≤ 1 + max (m.suspicions t).k 0 := by
  have whole : int32 k = k := by
    rw [int32]
    exact Int.bmod_eq_of_le_mul_two (by omega) (by omega)
  refine ⟨?_,fun conf t m count => queued_bound⟩
  intro acts s
  have begins : Tallies from_ k (start node changeTime from_ k).granted :=
    ⟨counted_new node changeTime from_ k,whole,rfl⟩
  have tallies : Tallies from_ k s.granted :=
    Machines.run_keeps (I := fun s : Timed => Tallies from_ k s.granted) tallies_step begins acts
  have one : s.chances = 1 := Machines.run_keeps chances_step rfl acts
  obtain ⟨most,distinct,other⟩ := accepted_spec tallies
  have part := accepted_granted s
  rw [Timed.chances] at one
  refine ⟨?_,distinct.sublist part.sublist,fun wrong => other (part.subset wrong),?_,by omega,?_⟩
  · have shorter := part.length_le
    omega
  · intro between enough more
    have expected : s.suspicion.k = k := by
      have known := tallies.k
      rw [Timed.granted,between] at known
      exact known
    have full : Full (accepted s.returned) s := ⟨between,expected ▸ enough,rfl⟩
    exact (Machines.run_keeps full_step full more).senders
  · intro unstarted unrun free
    cases armed : s.armed with
    | true => rfl
    | false =>
      rw [armed,free,unstarted,unrun] at one
      cases one

/-- A sender confirms while the timer fires. -/
def race : List Act := [.confirm [100],.add,.fire,.stop 0,.callback,.confirm [100],.confirm [101]]

theorem suspicion_confirmed_once_race :
    (Machines.run step (start [98] 2 [99] 1) race).returned = [([101],false),([100],false),([100],true)] ∧
      (Machines.run step (start [98] 2 [99] 1) race).ran = [1] ∧
      (Machines.run step (start [98] 2 [99] 1) race).pending + (Machines.run step (start [98] 2 [99] 1) race).ran.length ≤ 1 ∧
      Queued LocalNode.restarting 0 Suspicions.suspecting 1 ∧
      ((1 : Nat) : Int) ≤ 1 + max (Suspicions.suspecting.suspicions 0).k 0 := by
  have once := suspicion_confirmed_once [98] 2 [99] 1 (by decide)
  have queued : Queued LocalNode.restarting 0 Suspicions.suspecting 1 :=
    .step (.step .build (.alive PeerRecord.peerAlive { now := 1 })) (.suspect ⟨3,[98],[99]⟩ { now := 2 })
  exact ⟨by decide,by decide,(once.1 race).2.2.2.2.1,queued,once.2 _ 0 _ 1 queued⟩

end Mori.Confirmations
