import Mori.Suspicions
import Mathlib.Data.List.Perm.Basic
import Mathlib.Data.List.MinMax

/-!
Messages about a node in any order. What alive, suspect and dead messages make of
the state and the incarnation of a record is a small transition system (`hear`). A
message that is ignored leaves no trace, not even its incarnation, so that the
outcome depends on the order in general; `OrderFree` says exactly when it does not.
-/
namespace Mori.Reordering
open Mori.Net Mori.Protocol Mori.State Mori.Table Mori.Moves Mori.LocalNode Mori.PeerRecord Mori.Suspicions

section
variable {α μ : Type} {f : α → μ → α} {s fin : α} {l : List μ}

theorem foldl_fixed (fixed : ∀ x ∈ l, f s x = s) : l.foldl f s = s := by
  induction l with
  | nil => rfl
  | cons x l ih =>
    rw [List.foldl_cons,fixed x List.mem_cons_self]
    exact ih (fun y later => fixed y (List.mem_cons_of_mem x later))

/-- A fold that a decisive element takes to a fixed value, from wherever the others
    have taken it before. -/
theorem foldl_reaches {P : α → Prop} {D : μ → Prop} (start : P s)
    (keeps : ∀ s x, P s → x ∈ l → ¬ D x → P (f s x))
    (reaches : ∀ s x, P s → x ∈ l → D x → f s x = fin) (fixed : ∀ x ∈ l, f fin x = fin)
    (decided : ∃ x ∈ l, D x) : l.foldl f s = fin := by
  induction l generalizing s with
  | nil =>
    obtain ⟨x,member,-⟩ := decided
    cases member
  | cons x l ih =>
    rw [List.foldl_cons]
    by_cases decisive : D x
    · rw [reaches s x start List.mem_cons_self decisive]
      exact foldl_fixed (fun y later => fixed y (List.mem_cons_of_mem x later))
    · refine ih (keeps s x start List.mem_cons_self decisive)
        (fun s y held later => keeps s y held (List.mem_cons_of_mem x later))
        (fun s y held later => reaches s y held (List.mem_cons_of_mem x later))
        (fun y later => fixed y (List.mem_cons_of_mem x later)) ?_
      obtain ⟨y,member,decides⟩ := decided
      rcases List.mem_cons.mp member with rfl | later
      · exact absurd decides decisive
      · exact ⟨y,later,decides⟩

theorem exists_first {x : μ} (member : x ∈ l) : ∃ rest, (x :: rest).Perm l := by
  obtain ⟨before,after,rfl⟩ := List.append_of_mem member
  exact ⟨before ++ after,List.perm_middle.symm⟩

/-- The fold has one value for all orders. -/
def AnyOrder (f : α → μ → α) (s : α) (xs : List μ) : Prop :=
  ∀ l l' : List μ, l.Perm xs → l'.Perm xs → l.foldl f s = l'.foldl f s

/-- The fold has this value in every order. -/
def AlwaysEnds (f : α → μ → α) (s : α) (xs : List μ) (fin : α) : Prop := ∀ l : List μ, l.Perm xs → l.foldl f s = fin

/-- The fold has this value in some order. -/
def MayEnd (f : α → μ → α) (s : α) (xs : List μ) (fin : α) : Prop := ∃ l : List μ, l.Perm xs ∧ l.foldl f s = fin

theorem mayEnd_of_alwaysEnds (always : AlwaysEnds f s l fin) : MayEnd f s l fin :=
  ⟨l,List.Perm.refl l,always l (List.Perm.refl l)⟩

theorem alwaysEnds_unique {fin' : α} (always : AlwaysEnds f s l fin) (may : MayEnd f s l fin') : fin' = fin := by
  obtain ⟨l',perm,ends⟩ := may
  exact ends.symm.trans (always l' perm)

theorem anyOrder_rest {xs rest : List μ} {x : μ} (same : AnyOrder f s xs) (first : (x :: rest).Perm xs) :
    AnyOrder f (f s x) rest := by
  intro l l' perm perm'
  exact same (x :: l) (x :: l') ((perm.cons x).trans first) ((perm'.cons x).trans first)

end

/-- The state that a dead message leads to. -/
def verdict (d : Dead) : NodeStateType := if d.node = d.from_ then .left else .dead

def number (x : Message) : Nat := x.incarnation.toNat

/-- The state and the incarnation of a record after a message, given which alive
    messages pass the checks before those of the incarnation. -/
def hear (heard : Alive → Bool) (v : NodeStateType × Nat) : Message → NodeStateType × Nat
  | .alive a => if heard a = true ∧ v.2 < number (.alive a) then (.alive,number (.alive a)) else v
  | .suspect s => if v.1 = .alive ∧ v.2 ≤ number (.suspect s) then (.suspect,number (.suspect s)) else v
  | .dead d => if (v.1 = .alive ∨ v.1 = .suspect) ∧ v.2 ≤ number (.dead d) then (verdict d,number (.dead d)) else v

def isAlive : Message → Bool
  | .alive _ => true
  | _ => false

def isHeard (heard : Alive → Bool) : Message → Bool
  | .alive a => heard a
  | _ => false

/-- When the outcome does not depend on the order: every suspect and dead message is
    outrun by the record or by an alive message; the record is dead or left, and no
    alive message is newer; it is suspect, no alive message is newer, and the dead
    messages agree; it is alive or suspect, the dead messages agree, and no alive or
    suspect message is newer than they are; or it is alive, there are no dead
    messages, the suspect messages agree, and no alive message is newer than they
    are. Messages older than the record do not count. -/
inductive OrderFree (heard : Alive → Bool) (v : NodeStateType × Nat) (msgs : List Message) : Prop
  | outrun
      (suspects : ∀ s, .suspect s ∈ msgs → number (.suspect s) < v.2 ∨
        ∃ a, .alive a ∈ msgs ∧ heard a = true ∧ number (.suspect s) < number (.alive a))
      (deads : ∀ d, .dead d ∈ msgs → number (.dead d) < v.2 ∨
        ∃ a, .alive a ∈ msgs ∧ heard a = true ∧ number (.dead d) < number (.alive a)) : OrderFree heard v msgs
  | gone (state : v.1 = .dead ∨ v.1 = .left)
      (quiet : ∀ a, .alive a ∈ msgs → heard a = true → number (.alive a) ≤ v.2) : OrderFree heard v msgs
  | suspected (state : v.1 = .suspect) (quiet : ∀ a, .alive a ∈ msgs → heard a = true → number (.alive a) ≤ v.2)
      (agree : ∀ d d', .dead d ∈ msgs → .dead d' ∈ msgs → v.2 ≤ number (.dead d) → v.2 ≤ number (.dead d') →
        verdict d = verdict d' ∧ number (.dead d) = number (.dead d')) : OrderFree heard v msgs
  | died (state : v.1 = .alive ∨ v.1 = .suspect) (d : Dead) (member : .dead d ∈ msgs) (newer : v.2 ≤ number (.dead d))
      (alives : ∀ a, .alive a ∈ msgs → heard a = true → number (.alive a) ≤ number (.dead d))
      (suspects : ∀ s, .suspect s ∈ msgs → number (.suspect s) ≤ number (.dead d))
      (agree : ∀ d', .dead d' ∈ msgs → v.2 ≤ number (.dead d') →
        verdict d' = verdict d ∧ number (.dead d') = number (.dead d)) : OrderFree heard v msgs
  | accused (state : v.1 = .alive) (s : Suspect) (member : .suspect s ∈ msgs) (newer : v.2 ≤ number (.suspect s))
      (alives : ∀ a, .alive a ∈ msgs → heard a = true → number (.alive a) ≤ number (.suspect s))
      (agree : ∀ s', .suspect s' ∈ msgs → v.2 ≤ number (.suspect s') → number (.suspect s') = number (.suspect s))
      (deads : ∀ d, .dead d ∈ msgs → number (.dead d) < v.2) : OrderFree heard v msgs

section
variable {heard : Alive → Bool} {v : NodeStateType × Nat} {msgs : List Message}

theorem hear_alive_old {a : Alive} (old : heard a = true → number (.alive a) ≤ v.2) : hear heard v (.alive a) = v := by
  rw [hear,if_neg]
  rintro ⟨yes,newer⟩
  have := old yes
  omega

theorem hear_suspect_old {s : Suspect} (old : v.1 ≠ .alive ∨ number (.suspect s) < v.2) : hear heard v (.suspect s) = v := by
  rw [hear,if_neg]
  rintro ⟨state,newer⟩
  rcases old with other | older
  · exact other state
  · omega

theorem hear_dead_old {d : Dead} (old : v.1 = .dead ∨ v.1 = .left ∨ number (.dead d) < v.2) :
    hear heard v (.dead d) = v := by
  rw [hear,if_neg]
  rintro ⟨state,newer⟩
  rcases old with dead | left | older
  · rw [dead] at state
    rcases state with no | no <;> cases no
  · rw [left] at state
    rcases state with no | no <;> cases no
  · omega

theorem verdict_cases (d : Dead) : verdict d = .dead ∨ verdict d = .left := by
  unfold verdict
  split_ifs
  · exact .inr rfl
  · exact .inl rfl

theorem verdict_ne (d : Dead) : verdict d ≠ .alive ∧ verdict d ≠ .suspect := by
  rcases verdict_cases d with dead | left
  · rw [dead]
    decide
  · rw [left]
    decide

/-- A dead record hears only newer alive messages. -/
theorem hear_gone (state : v.1 = .dead ∨ v.1 = .left) (quiet : ∀ a, .alive a ∈ msgs → heard a = true → number (.alive a) ≤ v.2) :
    ∀ x ∈ msgs, hear heard v x = v := by
  have notAlive : v.1 ≠ .alive := by
    rintro alive
    rw [alive] at state
    rcases state with no | no <;> cases no
  intro x member
  cases x with
  | alive a => exact hear_alive_old (quiet a member)
  | suspect s => exact hear_suspect_old (.inl notAlive)
  | dead d => exact hear_dead_old (state.elim .inl (fun left => .inr (.inl left)))

/-- The newest of the alive messages that are heard, where one is newer than the record. -/
structure Newest (heard : Alive → Bool) (v : NodeStateType × Nat) (msgs : List Message) (a : Alive) : Prop where
  listed : .alive a ∈ msgs
  yes : heard a = true
  newer : v.2 < number (.alive a)
  newest : ∀ a', .alive a' ∈ msgs → heard a' = true → number (.alive a') ≤ number (.alive a)

theorem exists_newest (exceeded : ∃ a, .alive a ∈ msgs ∧ heard a = true ∧ v.2 < number (.alive a)) :
    ∃ a, Newest heard v msgs a := by
  obtain ⟨a,member,yes,newer⟩ := exceeded
  have listed : .alive a ∈ msgs.filter (isHeard heard) := List.mem_filter.mpr ⟨member,yes⟩
  cases top : (msgs.filter (isHeard heard)).argmax number with
  | none =>
    rw [List.argmax_eq_none] at top
    rw [top] at listed
    cases listed
  | some x =>
    obtain ⟨member',kind⟩ := List.mem_filter.mp (List.argmax_mem top)
    cases x with
    | alive a' =>
      have newest : ∀ a'', .alive a'' ∈ msgs → heard a'' = true → number (.alive a'') ≤ number (.alive a') :=
        fun a'' member'' yes'' => List.le_of_mem_argmax (List.mem_filter.mpr ⟨member'',yes''⟩) top
      exact ⟨a',member',kind,Nat.lt_of_lt_of_le newer (newest a member yes),newest⟩
    | suspect s => cases kind
    | dead d => cases kind

/-- The newest alive message is heard after all else. -/
theorem final_alive {a : Alive} (news : Newest heard v msgs a)
    (others : ∀ x ∈ msgs, isAlive x = false → number x < number (.alive a)) :
    msgs.foldl (hear heard) v = (.alive,number (.alive a)) := by
  refine foldl_reaches (P := fun v => v.2 < number (.alive a))
    (D := fun x => ∃ a', x = .alive a' ∧ heard a' = true ∧ number (.alive a') = number (.alive a)) news.newer ?_ ?_ ?_
    ⟨_,news.listed,a,rfl,news.yes,rfl⟩
  · intro v x below listed quiet
    cases x with
    | alive a' =>
      rw [hear]
      split_ifs with now
      · have least := news.newest a' listed now.1
        have other : number (.alive a') ≠ number (.alive a) := fun same => quiet ⟨a',rfl,now.1,same⟩
        show number (.alive a') < number (.alive a)
        omega
      · exact below
    | suspect s =>
      rw [hear]
      split_ifs
      · exact others _ listed rfl
      · exact below
    | dead d =>
      rw [hear]
      split_ifs
      · exact others _ listed rfl
      · exact below
  · rintro v x below listed ⟨a',rfl,yes',same⟩
    rw [hear,if_pos ⟨yes',by rw [same]; exact below⟩,same]
  · intro x listed
    cases x with
    | alive a' => exact hear_alive_old (news.newest a' listed)
    | suspect s => exact hear_suspect_old (.inr (others _ listed rfl))
    | dead d => exact hear_dead_old (.inr (.inr (others _ listed rfl)))

theorem hear_dead_new (heard : Alive → Bool) {d : Dead} (state : v.1 = .alive ∨ v.1 = .suspect) (newer : v.2 ≤ number (.dead d)) :
    hear heard v (.dead d) = (verdict d,number (.dead d)) := by
  rw [hear,if_pos ⟨state,newer⟩]

theorem hear_suspect_new (heard : Alive → Bool) {s : Suspect} (state : v.1 = .alive) (newer : v.2 ≤ number (.suspect s)) :
    hear heard v (.suspect s) = (.suspect,number (.suspect s)) := by
  rw [hear,if_pos ⟨state,newer⟩]

/-- The record of a dead node keeps what the dead message left. -/
theorem hear_verdict {d : Dead} (alives : ∀ a, .alive a ∈ msgs → heard a = true → number (.alive a) ≤ number (.dead d)) :
    ∀ x ∈ msgs, hear heard (verdict d,number (.dead d)) x = (verdict d,number (.dead d)) :=
  hear_gone (verdict_cases d) alives

/-- The dead message is heard in whatever state the others leave the record. -/
theorem final_died {d : Dead} (state : v.1 = .alive ∨ v.1 = .suspect) (member : .dead d ∈ msgs)
    (newer : v.2 ≤ number (.dead d))
    (alives : ∀ a, .alive a ∈ msgs → heard a = true → number (.alive a) ≤ number (.dead d))
    (suspects : ∀ s, .suspect s ∈ msgs → number (.suspect s) ≤ number (.dead d))
    (agree : ∀ d', .dead d' ∈ msgs → v.2 ≤ number (.dead d') →
      verdict d' = verdict d ∧ number (.dead d') = number (.dead d)) :
    msgs.foldl (hear heard) v = (verdict d,number (.dead d)) := by
  refine foldl_reaches (P := fun w => (w.1 = .alive ∨ w.1 = .suspect) ∧ v.2 ≤ w.2 ∧ w.2 ≤ number (.dead d))
    (D := fun x => ∃ d', x = .dead d' ∧ v.2 ≤ number (.dead d')) ⟨state,Nat.le_refl _,newer⟩ ?_ ?_
    (hear_verdict alives) ⟨_,member,d,rfl,newer⟩
  · rintro w x ⟨live,low,high⟩ listed quiet
    cases x with
    | alive a =>
      rw [hear]
      split_ifs with now
      · exact ⟨.inl rfl,by show v.2 ≤ number (.alive a); omega,alives a listed now.1⟩
      · exact ⟨live,low,high⟩
    | suspect s =>
      rw [hear]
      split_ifs with now
      · exact ⟨.inr rfl,by show v.2 ≤ number (.suspect s); omega,suspects s listed⟩
      · exact ⟨live,low,high⟩
    | dead d' =>
      have older : number (.dead d') < v.2 := Nat.not_le.mp (fun newer' => quiet ⟨d',rfl,newer'⟩)
      rw [hear_dead_old (.inr (.inr (by omega)))]
      exact ⟨live,low,high⟩
  · rintro w x ⟨live,low,high⟩ listed ⟨d',rfl,newer'⟩
    obtain ⟨same,equal⟩ := agree d' listed newer'
    rw [hear_dead_new heard live (by rw [equal]; exact high),same,equal]

/-- Before the first dead message, a suspect record hears nothing. -/
theorem final_suspected {d : Dead} (state : v.1 = .suspect) (member : .dead d ∈ msgs) (newer : v.2 ≤ number (.dead d))
    (quiet : ∀ a, .alive a ∈ msgs → heard a = true → number (.alive a) ≤ v.2)
    (agree : ∀ d', .dead d' ∈ msgs → v.2 ≤ number (.dead d') →
      verdict d' = verdict d ∧ number (.dead d') = number (.dead d)) :
    msgs.foldl (hear heard) v = (verdict d,number (.dead d)) := by
  refine foldl_reaches (P := fun w => w = v) (D := fun x => ∃ d', x = .dead d' ∧ v.2 ≤ number (.dead d')) rfl ?_ ?_
    (hear_verdict (fun a listed yes => Nat.le_trans (quiet a listed yes) newer)) ⟨_,member,d,rfl,newer⟩
  · rintro w x rfl listed silent
    cases x with
    | alive a => exact hear_alive_old (quiet a listed)
    | suspect s => exact hear_suspect_old (.inl (by rw [state]; decide))
    | dead d' =>
      have older : number (.dead d') < w.2 := Nat.not_le.mp (fun newer' => silent ⟨d',rfl,newer'⟩)
      exact hear_dead_old (.inr (.inr older))
  · rintro w x rfl listed ⟨d',rfl,newer'⟩
    obtain ⟨same,equal⟩ := agree d' listed newer'
    rw [hear_dead_new heard (.inr state) newer',same,equal]

/-- The suspect message is heard in whatever state the alive messages leave the record. -/
theorem final_accused {s : Suspect} (state : v.1 = .alive) (member : .suspect s ∈ msgs) (newer : v.2 ≤ number (.suspect s))
    (alives : ∀ a, .alive a ∈ msgs → heard a = true → number (.alive a) ≤ number (.suspect s))
    (agree : ∀ s', .suspect s' ∈ msgs → v.2 ≤ number (.suspect s') → number (.suspect s') = number (.suspect s))
    (deads : ∀ d, .dead d ∈ msgs → number (.dead d) < v.2) :
    msgs.foldl (hear heard) v = (.suspect,number (.suspect s)) := by
  refine foldl_reaches (P := fun w => w.1 = .alive ∧ v.2 ≤ w.2 ∧ w.2 ≤ number (.suspect s))
    (D := fun x => ∃ s', x = .suspect s' ∧ v.2 ≤ number (.suspect s')) ⟨state,Nat.le_refl _,newer⟩ ?_ ?_ ?_
    ⟨_,member,s,rfl,newer⟩
  · rintro w x ⟨live,low,high⟩ listed quiet
    cases x with
    | alive a =>
      rw [hear]
      split_ifs with now
      · exact ⟨rfl,by show v.2 ≤ number (.alive a); omega,alives a listed now.1⟩
      · exact ⟨live,low,high⟩
    | suspect s' =>
      have older : number (.suspect s') < v.2 := Nat.not_le.mp (fun newer' => quiet ⟨s',rfl,newer'⟩)
      rw [hear_suspect_old (.inr (by omega))]
      exact ⟨live,low,high⟩
    | dead d =>
      have older := deads d listed
      rw [hear_dead_old (.inr (.inr (by omega)))]
      exact ⟨live,low,high⟩
  · rintro w x ⟨live,low,high⟩ listed ⟨s',rfl,newer'⟩
    have equal := agree s' listed newer'
    rw [hear_suspect_new heard live (by rw [equal]; exact high),equal]
  · intro x listed
    cases x with
    | alive a => exact hear_alive_old (alives a listed)
    | suspect s' => exact hear_suspect_old (.inl (fun same => by cases same))
    | dead d =>
      have older := deads d listed
      exact hear_dead_old (.inr (.inr (by show number (.dead d) < number (.suspect s); omega)))

/-- The outcome where the order does not matter. -/
theorem exists_final (free : OrderFree heard v msgs) :
    ∃ fin, ∀ l : List Message, (∀ x, x ∈ l ↔ x ∈ msgs) → l.foldl (hear heard) v = fin := by
  cases free with
  | outrun suspects deads =>
    by_cases news : ∃ a, .alive a ∈ msgs ∧ heard a = true ∧ v.2 < number (.alive a)
    · obtain ⟨a,member,yes,newer,newest⟩ := exists_newest news
      have below : ∀ k, (k < v.2 ∨ ∃ a', .alive a' ∈ msgs ∧ heard a' = true ∧ k < number (.alive a')) →
          k < number (.alive a) := by
        rintro k (older | ⟨a',member',yes',older⟩)
        · omega
        · have := newest a' member' yes'
          omega
      refine ⟨(.alive,number (.alive a)),fun l same => ?_⟩
      refine final_alive ⟨(same _).mpr member,yes,newer,fun a' listed => newest a' ((same _).mp listed)⟩ ?_
      intro x listed kind
      cases x with
      | alive a' => cases kind
      | suspect s => exact below _ (suspects s ((same _).mp listed))
      | dead d => exact below _ (deads d ((same _).mp listed))
    · have quiet : ∀ a, .alive a ∈ msgs → heard a = true → number (.alive a) ≤ v.2 :=
        fun a member yes => Nat.not_lt.mp (fun newer => news ⟨a,member,yes,newer⟩)
      have below : ∀ k, (k < v.2 ∨ ∃ a', .alive a' ∈ msgs ∧ heard a' = true ∧ k < number (.alive a')) → k < v.2 := by
        rintro k (older | ⟨a',member',yes',older⟩)
        · exact older
        · have := quiet a' member' yes'
          omega
      refine ⟨v,fun l same => foldl_fixed (fun x listed => ?_)⟩
      have member := (same x).mp listed
      cases x with
      | alive a => exact hear_alive_old (quiet a member)
      | suspect s => exact hear_suspect_old (.inr (below _ (suspects s member)))
      | dead d => exact hear_dead_old (.inr (.inr (below _ (deads d member))))
  | gone state quiet =>
    exact ⟨v,fun l same => foldl_fixed (fun x listed => hear_gone state quiet x ((same x).mp listed))⟩
  | suspected state quiet agree =>
    by_cases news : ∃ d, .dead d ∈ msgs ∧ v.2 ≤ number (.dead d)
    · obtain ⟨d,member,newer⟩ := news
      refine ⟨(verdict d,number (.dead d)),fun l same => ?_⟩
      exact final_suspected state ((same _).mpr member) newer (fun a listed => quiet a ((same _).mp listed))
        (fun d' listed newer' => agree d' d ((same _).mp listed) member newer' newer)
    · refine ⟨v,fun l same => foldl_fixed (fun x listed => ?_)⟩
      have member := (same x).mp listed
      cases x with
      | alive a => exact hear_alive_old (quiet a member)
      | suspect s => exact hear_suspect_old (.inl (by rw [state]; decide))
      | dead d => exact hear_dead_old (.inr (.inr (Nat.not_le.mp (fun newer => news ⟨d,member,newer⟩))))
  | died state d member newer alives suspects agree =>
    exact ⟨_,fun l same => final_died state ((same _).mpr member) newer (fun a listed => alives a ((same _).mp listed))
      (fun s listed => suspects s ((same _).mp listed)) (fun d' listed => agree d' ((same _).mp listed))⟩
  | accused state s member newer alives agree deads =>
    exact ⟨_,fun l same => final_accused state ((same _).mpr member) newer (fun a listed => alives a ((same _).mp listed))
      (fun s' listed => agree s' ((same _).mp listed)) (fun d listed => deads d ((same _).mp listed))⟩

theorem anyOrder_of_orderFree (free : OrderFree heard v msgs) : AnyOrder (hear heard) v msgs := by
  obtain ⟨fin,final⟩ := exists_final free
  intro l l' perm perm'
  rw [final l (fun x => perm.mem_iff),final l' (fun x => perm'.mem_iff)]

/-- A message that is heard first decides the outcome where no other is heard after it. -/
theorem first_decides (same : AnyOrder (hear heard) v msgs) {x : Message} {fin : NodeStateType × Nat} (member : x ∈ msgs)
    (now : hear heard v x = fin) (fixed : ∀ y ∈ msgs, hear heard fin y = fin) : AlwaysEnds (hear heard) v msgs fin := by
  obtain ⟨rest,first⟩ := exists_first member
  intro l perm
  rw [same l (x :: rest) perm first,List.foldl_cons,now]
  exact foldl_fixed (fun y later => fixed y (first.mem_iff.mp (List.mem_cons_of_mem x later)))

section
variable (quiet : ∀ a, .alive a ∈ msgs → heard a = true → number (.alive a) ≤ v.2) (same : AnyOrder (hear heard) v msgs)
include quiet same

theorem dead_decides (state : v.1 = .alive ∨ v.1 = .suspect) {d : Dead} (member : .dead d ∈ msgs)
    (newer : v.2 ≤ number (.dead d)) : AlwaysEnds (hear heard) v msgs (verdict d,number (.dead d)) :=
  first_decides same member (hear_dead_new heard state newer)
    (hear_verdict (fun a listed yes => Nat.le_trans (quiet a listed yes) newer))

theorem deads_agree (state : v.1 = .alive ∨ v.1 = .suspect) {d d' : Dead} (member : .dead d ∈ msgs) (member' : .dead d' ∈ msgs)
    (newer : v.2 ≤ number (.dead d)) (newer' : v.2 ≤ number (.dead d')) :
    verdict d = verdict d' ∧ number (.dead d) = number (.dead d') :=
  Prod.mk.inj (alwaysEnds_unique (dead_decides quiet same state member' newer')
    (mayEnd_of_alwaysEnds (dead_decides quiet same state member newer)))

/-- A suspect message decides where the dead messages are older. -/
theorem suspect_decides (state : v.1 = .alive) {s : Suspect} (member : .suspect s ∈ msgs) (newer : v.2 ≤ number (.suspect s))
    (deads : ∀ d, .dead d ∈ msgs → number (.dead d) < number (.suspect s)) :
    AlwaysEnds (hear heard) v msgs (.suspect,number (.suspect s)) := by
  refine first_decides same member (hear_suspect_new heard state newer) (fun y listed => ?_)
  cases y with
  | alive a => exact hear_alive_old (fun yes => Nat.le_trans (quiet a listed yes) newer)
  | suspect s' => exact hear_suspect_old (.inl (fun same => by cases same))
  | dead d => exact hear_dead_old (.inr (.inr (deads d listed)))

/-- A record that is alive and hears no alive message: the dead messages decide, or
    else the suspect messages, or nothing is heard. -/
theorem alive_cases (state : v.1 = .alive) :
    ((∀ s, .suspect s ∈ msgs → number (.suspect s) < v.2) ∧ ∀ d, .dead d ∈ msgs → number (.dead d) < v.2) ∨
    (∃ d, .dead d ∈ msgs ∧ v.2 ≤ number (.dead d) ∧ (∀ s, .suspect s ∈ msgs → number (.suspect s) ≤ number (.dead d)) ∧
      (∀ d', .dead d' ∈ msgs → v.2 ≤ number (.dead d') → verdict d' = verdict d ∧ number (.dead d') = number (.dead d)) ∧
      AlwaysEnds (hear heard) v msgs (verdict d,number (.dead d))) ∨
    ∃ s, .suspect s ∈ msgs ∧ v.2 ≤ number (.suspect s) ∧
      (∀ s', .suspect s' ∈ msgs → v.2 ≤ number (.suspect s') → number (.suspect s') = number (.suspect s)) ∧
      (∀ d, .dead d ∈ msgs → number (.dead d) < v.2) ∧
      AlwaysEnds (hear heard) v msgs (.suspect,number (.suspect s)) := by
  by_cases dies : ∃ d, .dead d ∈ msgs ∧ v.2 ≤ number (.dead d)
  · obtain ⟨d,member,newer⟩ := dies
    have agree : ∀ d', .dead d' ∈ msgs → v.2 ≤ number (.dead d') →
        verdict d' = verdict d ∧ number (.dead d') = number (.dead d) :=
      fun d' member' newer' => deads_agree quiet same (.inl state) member' member newer' newer
    have ends := dead_decides quiet same (.inl state) member newer
    refine .inr (.inl ⟨d,member,newer,fun s listed => ?_,agree,ends⟩)
    -- A suspect message that is newer than the dead ones would hide them.
    by_contra above
    have hidden : ∀ d', .dead d' ∈ msgs → number (.dead d') < number (.suspect s) := by
      intro d' listed'
      by_cases newer' : v.2 ≤ number (.dead d')
      · have := (agree d' listed' newer').2
        omega
      · omega
    have suspected := suspect_decides quiet same state listed (by omega) hidden
    exact (verdict_ne d).2 (congrArg Prod.fst (alwaysEnds_unique suspected (mayEnd_of_alwaysEnds ends)))
  · have deads : ∀ d, .dead d ∈ msgs → number (.dead d) < v.2 :=
      fun d member => Nat.not_le.mp (fun newer => dies ⟨d,member,newer⟩)
    by_cases accused : ∃ s, .suspect s ∈ msgs ∧ v.2 ≤ number (.suspect s)
    · obtain ⟨s,member,newer⟩ := accused
      have ends : ∀ s', .suspect s' ∈ msgs → v.2 ≤ number (.suspect s') →
          AlwaysEnds (hear heard) v msgs (.suspect,number (.suspect s')) :=
        fun s' member' newer' => suspect_decides quiet same state member' newer'
          (fun d listed => Nat.lt_of_lt_of_le (deads d listed) newer')
      refine .inr (.inr ⟨s,member,newer,fun s' member' newer' => ?_,deads,ends s member newer⟩)
      have equal := alwaysEnds_unique (ends s member newer) (mayEnd_of_alwaysEnds (ends s' member' newer'))
      exact (Prod.mk.inj equal).2
    · exact .inl ⟨fun s member => Nat.not_le.mp (fun newer => accused ⟨s,member,newer⟩),deads⟩

end

/-- Where no suspect or dead message is heard, an order that keeps the alive messages
    for last ends alive. -/
theorem revived {a : Alive} (news : Newest heard v msgs a) (deaf : ∀ x ∈ msgs, isAlive x = false → hear heard v x = v) :
    MayEnd (hear heard) v msgs (.alive,number (.alive a)) := by
  refine ⟨msgs.filter (fun x => !isAlive x) ++ msgs.filter isAlive,
    List.perm_append_comm.trans (List.filter_append_perm isAlive msgs),?_⟩
  have before : (msgs.filter (fun x => !isAlive x)).foldl (hear heard) v = v := by
    refine foldl_fixed (fun x listed => ?_)
    obtain ⟨listed,kind⟩ := List.mem_filter.mp listed
    exact deaf x listed (by simpa using kind)
  rw [List.foldl_append,before]
  refine final_alive ⟨List.mem_filter.mpr ⟨news.listed,rfl⟩,news.yes,news.newer,
    fun a' listed => news.newest a' (List.mem_filter.mp listed).1⟩ (fun x listed kind => ?_)
  rw [(List.mem_filter.mp listed).2] at kind
  cases kind

theorem revived_after {a : Alive} (news : Newest heard v msgs a) {x : Message} {w : NodeStateType × Nat} (first : x ∈ msgs)
    (kind : isAlive x = false) (now : hear heard v x = w) (older : w.2 < number (.alive a))
    (deaf : ∀ y ∈ msgs, isAlive y = false → hear heard w y = w) :
    MayEnd (hear heard) v msgs (.alive,number (.alive a)) := by
  obtain ⟨rest,perm⟩ := exists_first first
  have later : .alive a ∈ rest := by
    rcases List.mem_cons.mp (perm.mem_iff.mpr news.listed) with same | later
    · rw [← same] at kind
      cases kind
    · exact later
  have inside : ∀ y ∈ rest, y ∈ msgs := fun y listed => perm.mem_iff.mp (List.mem_cons_of_mem x listed)
  obtain ⟨l,order,ends⟩ := revived ⟨later,news.yes,older,fun a' listed => news.newest a' (inside _ listed)⟩
    (fun y listed => deaf y (inside y listed))
  rw [← now] at ends
  exact ⟨x :: l,(order.cons x).trans perm,ends⟩

/-- A record that is not alive hears no suspect message, and one that is dead or left
    no dead message. -/
theorem deaf_to {w : NodeStateType × Nat} (state : w.1 ≠ .alive)
    (deads : ∀ d, .dead d ∈ msgs → w.1 = .dead ∨ w.1 = .left ∨ number (.dead d) < w.2) :
    ∀ x ∈ msgs, isAlive x = false → hear heard w x = w := by
  intro x listed kind
  cases x with
  | alive a => cases kind
  | suspect s => exact hear_suspect_old (.inl state)
  | dead d => exact hear_dead_old (deads d listed)

theorem orderFree_quiet (quiet : ∀ a, .alive a ∈ msgs → heard a = true → number (.alive a) ≤ v.2)
    (same : AnyOrder (hear heard) v msgs) : OrderFree heard v msgs := by
  cases state : v.1 with
  | alive =>
    rcases alive_cases quiet same state with ⟨suspects,deads⟩ | ⟨d,member,newer,suspects,agree,-⟩ |
      ⟨s,member,newer,agree,deads,-⟩
    · exact .outrun (fun s listed => .inl (suspects s listed)) (fun d listed => .inl (deads d listed))
    · exact .died (.inl state) d member newer (fun a listed yes => Nat.le_trans (quiet a listed yes) newer) suspects agree
    · exact .accused state s member newer (fun a listed yes => Nat.le_trans (quiet a listed yes) newer) agree deads
  | suspect =>
    exact .suspected state quiet (fun d d' member member' newer newer' =>
      deads_agree quiet same (.inr state) member member' newer newer')
  | dead => exact .gone (.inl state) quiet
  | left => exact .gone (.inr state) quiet

section
variable {a : Alive} (news : Newest heard v msgs a) (never : ¬ MayEnd (hear heard) v msgs (.alive,number (.alive a)))
include news never

/-- Where no order ends with the newest alive message, the record is alive or suspect. -/
theorem live_of_never : v.1 = .alive ∨ v.1 = .suspect := by
  cases state : v.1 with
  | alive => exact .inl rfl
  | suspect => exact .inr rfl
  | dead => exact absurd (revived news (deaf_to (by rw [state]; decide) (fun _ _ => .inl state))) never
  | left => exact absurd (revived news (deaf_to (by rw [state]; decide) (fun _ _ => .inr (.inl state)))) never

/-- The dead messages that it hears are as new as the alive ones. -/
theorem deads_above {d : Dead} (listed : .dead d ∈ msgs) (newer : v.2 ≤ number (.dead d)) :
    number (.alive a) ≤ number (.dead d) := by
  by_contra below
  refine never (revived_after news listed rfl (hear_dead_new heard (live_of_never news never) newer) (Nat.not_le.mp below) ?_)
  exact deaf_to (verdict_ne d).1 (fun _ _ => (verdict_cases d).elim .inl (fun left => .inr (.inl left)))

/-- Where it hears no dead messages, it is alive, and so new are the suspect messages that it hears. -/
theorem suspects_above (deads : ∀ d, .dead d ∈ msgs → number (.dead d) < v.2) :
    v.1 = .alive ∧ ∀ s, .suspect s ∈ msgs → v.2 ≤ number (.suspect s) → number (.alive a) ≤ number (.suspect s) := by
  have state : v.1 = .alive := by
    rcases live_of_never news never with alive | suspect
    · exact alive
    · exact absurd (revived news (deaf_to (by rw [suspect]; decide) (fun d listed => .inr (.inr (deads d listed))))) never
  refine ⟨state,fun s listed newer => ?_⟩
  by_contra below
  refine never (revived_after news listed rfl (hear_suspect_new heard state newer) (Nat.not_le.mp below) ?_)
  exact deaf_to (fun alive => by cases alive) (fun d listed' => .inr (.inr (Nat.lt_of_lt_of_le (deads d listed') newer)))

end

theorem orderFree_news {a : Alive} (news : Newest heard v msgs a) (same : AnyOrder (hear heard) v msgs) :
    OrderFree heard v msgs := by
  obtain ⟨rest,perm⟩ := exists_first news.listed
  have first : hear heard v (.alive a) = (.alive,number (.alive a)) := by rw [hear,if_pos ⟨news.yes,news.newer⟩]
  have same' := anyOrder_rest same perm
  rw [first] at same'
  have inside : ∀ y ∈ rest, y ∈ msgs := fun y listed => perm.mem_iff.mp (List.mem_cons_of_mem _ listed)
  have others : ∀ y ∈ msgs, isAlive y = false → y ∈ rest := by
    intro y listed kind
    rcases List.mem_cons.mp (perm.mem_iff.mpr listed) with here | later
    · rw [here] at kind
      cases kind
    · exact later
  -- The newest alive message first: its outcome is that of every order.
  have never : ∀ {fin : NodeStateType × Nat}, fin.1 ≠ .alive →
      AlwaysEnds (hear heard) (.alive,number (.alive a)) rest fin →
      ¬ MayEnd (hear heard) v msgs (.alive,number (.alive a)) := by
    intro fin notAlive ends may
    have whole : AlwaysEnds (hear heard) v msgs fin := by
      intro l order
      rw [same l _ order perm,List.foldl_cons,first]
      exact ends rest (List.Perm.refl _)
    exact notAlive (congrArg Prod.fst (alwaysEnds_unique whole may)).symm
  rcases alive_cases (fun a' listed => news.newest a' (inside _ listed)) same' rfl with ⟨suspects,deads⟩ |
    ⟨d,listed,newer,suspects,agree,ends⟩ | ⟨s,listed,newer,agree,deads,ends⟩
  · exact .outrun (fun s listed => .inr ⟨a,news.listed,news.yes,suspects s (others _ listed rfl)⟩)
      (fun d listed => .inr ⟨a,news.listed,news.yes,deads d (others _ listed rfl)⟩)
  · have never := never (verdict_ne d).1 ends
    exact .died (live_of_never news never) d (inside _ listed) (Nat.le_trans (Nat.le_of_lt news.newer) newer)
      (fun a' listed' yes' => Nat.le_trans (news.newest a' listed' yes') newer)
      (fun s listed' => suspects s (others _ listed' rfl))
      (fun d' listed' newer' => agree d' (others _ listed' rfl) (deads_above news never listed' newer'))
  · have never := never (fun alive => by cases alive) ends
    have noDeads : ∀ d, .dead d ∈ msgs → number (.dead d) < v.2 := by
      intro d listed'
      by_contra newer'
      have above := deads_above news never listed' (Nat.not_lt.mp newer')
      have below := deads d (others _ listed' rfl)
      exact absurd below (Nat.not_lt.mpr above)
    obtain ⟨state,above⟩ := suspects_above news never noDeads
    exact .accused state s (inside _ listed) (Nat.le_trans (Nat.le_of_lt news.newer) newer)
      (fun a' listed' yes' => Nat.le_trans (news.newest a' listed' yes') newer)
      (fun s' listed' newer' => agree s' (others _ listed' rfl) (above s' listed' newer')) noDeads

theorem anyOrder_iff : AnyOrder (hear heard) v msgs ↔ OrderFree heard v msgs := by
  refine ⟨fun same => ?_,anyOrder_of_orderFree⟩
  by_cases news : ∃ a, .alive a ∈ msgs ∧ heard a = true ∧ v.2 < number (.alive a)
  · obtain ⟨a,newest⟩ := exists_newest news
    exact orderFree_news newest same
  · exact orderFree_quiet (fun a member yes => Nat.not_lt.mp (fun newer => news ⟨a,member,yes,newer⟩)) same

end

/-! ## The handlers -/

/-- The section that processes a message. -/
def handling : Message → Env → Op
  | .alive a,env => .alive a env
  | .suspect s,env => .suspect s env
  | .dead d,env => .dead d env

/-- An alive message passes the checks that do not depend on the record. -/
def heardBy (conf : Config) (notifyAlive : Node → Bool) (a : Alive) : Bool :=
  match acceptableVsn a with
  | none => false
  | some vsn => decide (¬ filtered conf a vsn false { notifyAlive := notifyAlive })

def standing (s : NodeState) : NodeStateType × Nat := (s.state,s.incarnation.toNat)

section
variable {m : Memberlist} {n : Bytes} {s : NodeState} {env : Env}

theorem heardBy_eq {a : Alive} {vsn : Versions} (accepted : acceptableVsn a = some vsn) :
    heardBy m.config env.notifyAlive a = true ↔ ¬ filtered m.config a vsn false env := by
  unfold heardBy
  rw [accepted]
  exact decide_eq_true_iff

theorem alive_step {a : Alive} (remote : n ≠ m.config.name) (wf : TableWF m) (up : m.shutdown = false)
    (held : entry m n = some s) (here : a.node = n) (agrees : ¬ conflicts s a) :
    ∃ s', entry (aliveNode m a false env) n = some s' ∧ SameAddress s s' ∧
      standing s' = hear (heardBy m.config env.notifyAlive) (standing s) (.alive a) := by
  obtain ⟨r,found,same⟩ := entry_eq_some.mp held
  subst same here
  have isRemote : (m.heap r).name ≠ m.config.name := fun isLocal => remote (local_of_found wf found isLocal)
  have staying : ¬ (m.leave = true ∧ a.node = m.config.name) := fun both => remote both.2
  have ignored : ¬ (heardBy m.config env.notifyAlive a = true ∧ (m.heap r).incarnation < a.incarnation) →
      ∃ s', entry m a.node = some s' ∧ SameAddress (m.heap r) s' ∧
        standing s' = hear (heardBy m.config env.notifyAlive) (standing (m.heap r)) (.alive a) := by
    intro old
    refine ⟨_,held,⟨ipEqual_refl _,rfl⟩,(hear_alive_old (fun yes => ?_)).symm⟩
    exact UInt32.le_iff_toNat_le.mp (UInt32.not_lt.mp (fun newer => old ⟨yes,newer⟩))
  unfold aliveNode aliveNodeLocked
  rw [up,if_neg staying]
  simp only [Bool.false_eq_true,if_false]
  cases accepted : acceptableVsn a with
  | none =>
    refine ignored (fun both => ?_)
    rw [heardBy,accepted] at both
    cases both.1
  | some vsn =>
    simp only
    by_cases refused : filtered m.config a vsn false env
    · rw [if_pos refused]
      exact ignored (fun both => (heardBy_eq accepted).mp both.1 refused)
    rw [if_neg refused,found]
    simp only [if_neg agrees]
    unfold aliveKnown
    by_cases stale : a.incarnation ≤ (m.heap r).incarnation
    · rw [if_pos ⟨stale,isRemote,rfl⟩]
      exact ignored (fun both => UInt32.not_lt.mpr stale both.2)
    · rw [if_neg (fun old => stale old.1),if_neg (fun older => isRemote older.2),if_neg (fun own => isRemote own.2)]
      refine ⟨_,entry_at (table_applyAlive wf a found vsn none none env.now).2 rfl,?_,?_⟩
      · simpa [conflicts,SameAddress,aliveRecord] using agrees
      · have newer : (m.heap r).incarnation < a.incarnation := UInt32.not_le.mp stale
        rw [hear,if_pos ⟨(heardBy_eq accepted).mpr refused,UInt32.lt_iff_toNat_lt.mp newer⟩]
        rfl

theorem suspect_step {a : Suspect} (heard : Alive → Bool) (remote : n ≠ m.config.name) (wf : TableWF m) (timers : Timers m)
    (up : m.shutdown = false) (held : entry m n = some s) (here : a.node = n) :
    ∃ s', entry (suspectNode m a env) n = some s' ∧ SameAddress s s' ∧
      standing s' = hear heard (standing s) (.suspect a) := by
  obtain ⟨r,found,same⟩ := entry_eq_some.mp held
  subst same here
  have isRemote : (m.heap r).name ≠ m.config.name := fun isLocal => remote (local_of_found wf found isLocal)
  have ignored : ∀ m', entry m' a.node = some (m.heap r) →
      ((m.heap r).state ≠ .alive ∨ a.incarnation < (m.heap r).incarnation) →
      ∃ s', entry m' a.node = some s' ∧ SameAddress (m.heap r) s' ∧
        standing s' = hear heard (standing (m.heap r)) (.suspect a) := by
    intro m' kept old
    exact ⟨_,kept,⟨ipEqual_refl _,rfl⟩,(hear_suspect_old (old.imp id UInt32.lt_iff_toNat_lt.mp)).symm⟩
  unfold suspectNode
  rw [up,found]
  simp only [Bool.false_eq_true,if_false]
  by_cases stale : a.incarnation < (m.heap r).incarnation
  · rw [if_pos stale]
    exact ignored m held (.inr stale)
  rw [if_neg stale]
  cases armed : m.nodeTimers a.node with
  | some t =>
    -- A timer stands under the name of a suspect record only.
    obtain ⟨-,-,s,held',suspect,-⟩ := timers.timer a.node t armed
    have same := Option.some.inj (held.symm.trans held')
    exact ignored (confirmTimer m t a) held (.inl (by rw [same,suspect]; decide))
  | none =>
    simp only
    by_cases quiet : (m.heap r).state ≠ .alive
    · rw [if_pos quiet]
      exact ignored m held (.inl quiet)
    · rw [if_neg quiet,if_neg isRemote]
      refine ⟨_,entry_at (table_applySuspect wf a found env.now).2 rfl,⟨ipEqual_refl _,rfl⟩,?_⟩
      rw [hear_suspect_new heard (not_not.mp quiet) (UInt32.le_iff_toNat_le.mp (UInt32.not_lt.mp stale))]
      rfl

theorem dead_step {d : Dead} (heard : Alive → Bool) (remote : n ≠ m.config.name) (wf : TableWF m)
    (up : m.shutdown = false) (held : entry m n = some s) (here : d.node = n) :
    ∃ s', entry (deadNode m d env) n = some s' ∧ SameAddress s s' ∧
      standing s' = hear heard (standing s) (.dead d) := by
  obtain ⟨r,found,same⟩ := entry_eq_some.mp held
  subst same here
  have isRemote : (m.heap r).name ≠ m.config.name := fun isLocal => remote (local_of_found wf found isLocal)
  have ignored : ∀ m', entry m' d.node = some (m.heap r) →
      ((m.heap r).state = .dead ∨ (m.heap r).state = .left ∨ d.incarnation < (m.heap r).incarnation) →
      ∃ s', entry m' d.node = some s' ∧ SameAddress (m.heap r) s' ∧
        standing s' = hear heard (standing (m.heap r)) (.dead d) := by
    intro m' kept old
    exact ⟨_,kept,⟨ipEqual_refl _,rfl⟩,
      (hear_dead_old (old.imp id (Or.imp id UInt32.lt_iff_toNat_lt.mp))).symm⟩
  unfold deadNode deadNodeLocked
  rw [up,found]
  simp only [Bool.false_eq_true,if_false]
  split_ifs with stale isDead
  · exact ignored m held (.inr (.inr stale))
  · have state := (deadOrLeft_iff _).mp isDead
    exact ignored (clearTimer m d.node) held (state.elim .inl (fun left => .inr (.inl left)))
  · refine ⟨_,entry_at (table_applyDead wf d found none none env.now).2 rfl,⟨ipEqual_refl _,rfl⟩,?_⟩
    have live := (deadOrLeft_false_iff (m.heap r)).mp (Bool.eq_false_iff.mpr isDead)
    rw [hear_dead_new heard live (UInt32.le_iff_toNat_le.mp (UInt32.not_lt.mp stale))]
    rfl

theorem message_step (x : Message) (env : Env) (remote : n ≠ m.config.name) (wf : TableWF m) (timers : Timers m)
    (up : m.shutdown = false) (held : entry m n = some s) (here : x.node = n) (agrees : ∀ a, x = .alive a → ¬ conflicts s a) :
    ∃ s', entry (apply m (handling x env)) n = some s' ∧ SameAddress s s' ∧
      standing s' = hear (heardBy m.config env.notifyAlive) (standing s) x := by
  cases x with
  | alive a => exact alive_step remote wf up held here (agrees a rfl)
  | suspect a => exact suspect_step _ remote wf timers up held here
  | dead d => exact dead_step _ remote wf up held here

theorem agrees_of_same {s' : NodeState} {a : Alive} (same : SameAddress s s') (agrees : ¬ conflicts s a) :
    ¬ conflicts s' a := by
  simp only [conflicts,not_or,Bool.not_eq_false,not_not] at agrees ⊢
  have back : ipEqual (bytes s'.addr) (bytes s.addr) = true :=
    (ipEqual_iff _ _).mpr ((ipEqual_iff _ _).mp same.1).symm
  exact ⟨ipEqual_trans back agrees.1,same.2.symm.trans agrees.2⟩

theorem run_hears {l : List (Message × Env)} {notifyAlive : Node → Bool} (remote : n ≠ m.config.name) (wf : TableWF m)
    (timers : Timers m) (up : m.shutdown = false) (held : entry m n = some s) (about : ∀ x ∈ l, x.1.node = n)
    (addressed : ∀ x ∈ l, ∀ a, x.1 = .alive a → ¬ conflicts s a) (filter : ∀ x ∈ l, x.2.notifyAlive = notifyAlive) :
    ∃ s', entry (run m (l.map (fun x => handling x.1 x.2))) n = some s' ∧
      standing s' = (l.map Prod.fst).foldl (hear (heardBy m.config notifyAlive)) (standing s) := by
  induction l generalizing m s with
  | nil => exact ⟨s,held,rfl⟩
  | cons x l ih =>
    obtain ⟨s₁,held₁,same,heard⟩ := message_step x.1 x.2 remote wf timers up held (about x List.mem_cons_self)
      (addressed x List.mem_cons_self)
    obtain ⟨wf₁,timers₁,up₁,config⟩ := apply_invariant
      (I := fun m' => Timers m' ∧ m'.shutdown = false ∧ m'.config = m.config)
      (fun wf inv move => ⟨timers_move wf inv.1 move,(shutdown_move move).trans inv.2.1,(config_move move).trans inv.2.2⟩)
      wf ⟨timers,up,rfl⟩ (handling x.1 x.2)
    obtain ⟨s',held',heard'⟩ := ih (m := apply m (handling x.1 x.2)) (by rw [config]; exact remote) wf₁ timers₁ up₁ held₁
      (fun y later => about y (List.mem_cons_of_mem x later))
      (fun y later a kind => agrees_of_same same (addressed y (List.mem_cons_of_mem x later) a kind))
      (fun y later => filter y (List.mem_cons_of_mem x later))
    refine ⟨s',held',?_⟩
    rw [heard',heard,config,filter x List.mem_cons_self]
    rfl

end

/-- The state and the incarnation of a record after messages, in their order. -/
def outcome (m : Memberlist) (n : Bytes) (l : List (Message × Env)) : Option (NodeStateType × UInt32) :=
  (entry (run m (l.map (fun x => handling x.1 x.2))) n).map (fun s => (s.state,s.incarnation))

/-- Every order of the messages has the same outcome, at any clock readings, with one
    filter of the alive delegate. -/
def SameInEveryOrder (m : Memberlist) (n : Bytes) (notifyAlive : Node → Bool) (msgs : List Message) : Prop :=
  ∀ l l' : List (Message × Env), (l.map Prod.fst).Perm msgs → (l'.map Prod.fst).Perm msgs →
    (∀ x ∈ l, x.2.notifyAlive = notifyAlive) → (∀ x ∈ l', x.2.notifyAlive = notifyAlive) →
    outcome m n l = outcome m n l'

/-- The outcome of messages about another node at its stored address is the same in
    every order exactly where `OrderFree` holds of the record and the messages. -/
theorem outcome_order_free_iff {conf : Config} {m : Memberlist} (reached : Reachable conf m) {n : Bytes}
    (remote : n ≠ conf.name) {s : NodeState} (held : entry m n = some s) (notifyAlive : Node → Bool) (msgs : List Message)
    (about : ∀ x ∈ msgs, x.node = n) (addressed : ∀ a, .alive a ∈ msgs → ¬ conflicts s a) :
    SameInEveryOrder m n notifyAlive msgs ↔
      OrderFree (heardBy conf notifyAlive) (s.state,s.incarnation.toNat) msgs := by
  obtain ⟨wf,config⟩ := tableWF_reachable reached
  subst config
  have final : ∀ l : List (Message × Env), (l.map Prod.fst).Perm msgs → (∀ x ∈ l, x.2.notifyAlive = notifyAlive) →
      ∃ s', outcome m n l = some (s'.state,s'.incarnation) ∧
        standing s' = (l.map Prod.fst).foldl (hear (heardBy m.config notifyAlive)) (standing s) := by
    intro l perm filter
    have listed : ∀ x ∈ l, x.1 ∈ msgs := fun x member => perm.mem_iff.mp (List.mem_map.mpr ⟨x,member,rfl⟩)
    obtain ⟨s',held',heard⟩ := run_hears remote wf (timers_reachable reached) (up_reachable reached) held
      (fun x member => about _ (listed x member))
      (fun x member a kind => addressed a (kind ▸ listed x member)) filter
    exact ⟨s',by rw [outcome,held']; rfl,heard⟩
  rw [← anyOrder_iff]
  constructor
  · intro same l l' perm perm'
    -- Any environment with the given filter will do.
    have given : ∀ k : List Message, (k.map (fun x => (x,({ notifyAlive := notifyAlive } : Env)))).map Prod.fst = k := by
      intro k
      rw [List.map_map]
      exact List.map_id k
    have answered : ∀ k : List Message, ∀ x ∈ k.map (fun x => (x,({ notifyAlive := notifyAlive } : Env))),
        x.2.notifyAlive = notifyAlive := by
      intro k x member
      obtain ⟨y,-,rfl⟩ := List.mem_map.mp member
      rfl
    obtain ⟨s₁,ends₁,heard₁⟩ := final _ (by rw [given]; exact perm) (answered l)
    obtain ⟨s₂,ends₂,heard₂⟩ := final _ (by rw [given]; exact perm') (answered l')
    have equal := same _ _ (by rw [given]; exact perm) (by rw [given]; exact perm') (answered l) (answered l')
    rw [ends₁,ends₂] at equal
    obtain ⟨state,incarnation⟩ := Prod.mk.inj (Option.some.inj equal)
    rw [given] at heard₁ heard₂
    change l.foldl _ (standing s) = l'.foldl _ (standing s)
    rw [← heard₁,← heard₂,standing,standing,state,incarnation]
  · intro same l l' perm perm' filter filter'
    obtain ⟨s₁,ends₁,heard₁⟩ := final l perm filter
    obtain ⟨s₂,ends₂,heard₂⟩ := final l' perm' filter'
    have equal : standing s₁ = standing s₂ := heard₁.trans ((same _ _ perm perm').trans heard₂.symm)
    obtain ⟨state,incarnation⟩ := Prod.mk.inj equal
    rw [ends₁,ends₂,state,UInt32.toNat_inj.mp incarnation]

/-- A node that knows `b` to be alive with incarnation 3. -/
def knowing : Memberlist := run (buildMemberlist restarting) [.alive peerAlive {}]

theorem outcome_order_free_iff_died :
    SameInEveryOrder knowing [98] (fun _ => true)
      [.alive { peerAlive with incarnation := 4 },.suspect ⟨4,[98],[99]⟩,.dead ⟨5,[98],[99]⟩] := by
  have reached : Reachable restarting knowing := .step .build (.alive peerAlive {})
  refine (outcome_order_free_iff reached (by decide) (show entry knowing [98] = some (knowing.heap 1) from rfl) (fun _ => true)
    _ (by decide) ?_).mpr ?_
  · intro a listed
    simp only [List.mem_cons,Message.alive.injEq,reduceCtorEq,List.not_mem_nil,or_false] at listed
    rw [listed]
    decide
  · refine .died (.inl rfl) ⟨5,[98],[99]⟩ (by simp) (by decide) ?_ ?_ ?_
    · intro a listed _
      simp only [List.mem_cons,Message.alive.injEq,reduceCtorEq,List.not_mem_nil,or_false] at listed
      rw [listed]
      decide
    · intro s listed
      simp only [List.mem_cons,Message.suspect.injEq,reduceCtorEq,List.not_mem_nil,or_false,false_or] at listed
      rw [listed]
      decide
    · intro d listed _
      simp only [List.mem_cons,Message.dead.injEq,reduceCtorEq,List.not_mem_nil,or_false,false_or] at listed
      rw [listed]
      exact ⟨rfl,rfl⟩

/-- Of two suspect messages with different incarnations, the one that comes first is
    stored and the other one only confirms it. -/
theorem outcome_depends_on_order :
    Reachable restarting knowing ∧
      outcome knowing [98] [(.suspect ⟨3,[98],[99]⟩,{}),(.suspect ⟨5,[98],[100]⟩,{})] = some (.suspect,3) ∧
      outcome knowing [98] [(.suspect ⟨5,[98],[100]⟩,{}),(.suspect ⟨3,[98],[99]⟩,{})] = some (.suspect,5) :=
  ⟨.step .build (.alive peerAlive {}),rfl,rfl⟩

end Mori.Reordering
