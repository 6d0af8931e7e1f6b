import Mathlib.Data.List.Perm.Basic
import Mathlib.Algebra.Order.Ring.Int
import Mathlib.Algebra.Order.BigOperators.Group.List

/-!
Filling a container by first fit: one pass over the items, in order, takes each one
for which there is room. Every item also costs an overhead, and the room is a
function of the bytes used. What is taken fits, and for what stays there is no room
at the end either.
-/
namespace Mori.Packing

variable {α β : Type} {overhead : Int} {size : α → Int} {room room' : Int → Int} {used : Int}

/-- Whether there is room for an item after so many bytes. -/
abbrev Fits (room : Int → Int) (size : α → Int) (used : Int) (a : α) : Prop := 0 < room used ∧ size a ≤ room used

/-- Takes every item for which there is room, from the first on. An item needs its
    size and the overhead. The second list is what stays. -/
def onePass (overhead : Int) (room : Int → Int) (size : α → Int) : Int → List α → List α × List α
  | _,[] => ([],[])
  | used,a :: rest =>
    if Fits room size used a then
      let later := onePass overhead room size (used + (overhead + size a)) rest
      (a :: later.1,later.2)
    else
      let later := onePass overhead room size used rest
      (later.1,a :: later.2)

/-- The bytes that some items need. -/
def bytes (overhead : Int) (size : α → Int) (taken : List α) : Int := (taken.map (fun a => overhead + size a)).sum

/-- The room that is left of a limit. -/
def under (overhead limit used : Int) : Int := limit - used - overhead

theorem bytes_nil : bytes overhead size [] = 0 := rfl

theorem bytes_cons (a : α) (taken : List α) :
    bytes overhead size (a :: taken) = overhead + size a + bytes overhead size taken :=
  List.sum_cons

theorem bytes_nonneg (cost : 0 ≤ overhead) (sizes : ∀ a, 0 ≤ size a) (taken : List α) : 0 ≤ bytes overhead size taken := by
  refine List.sum_nonneg ?_
  intro n member
  obtain ⟨a,-,rfl⟩ := List.mem_map.mp member
  exact Int.add_nonneg cost (sizes a)

theorem onePass_take {a : α} (fits : Fits room size used a) (rest : List α) :
    onePass overhead room size used (a :: rest) =
      (a :: (onePass overhead room size (used + (overhead + size a)) rest).1,
        (onePass overhead room size (used + (overhead + size a)) rest).2) := by
  rw [onePass,if_pos fits]

theorem onePass_skip {a : α} (large : ¬Fits room size used a) (rest : List α) :
    onePass overhead room size used (a :: rest) =
      ((onePass overhead room size used rest).1,a :: (onePass overhead room size used rest).2) := by
  rw [onePass,if_neg large]

theorem onePass_full (full : room used ≤ 0) (items : List α) : onePass overhead room size used items = ([],items) := by
  induction items with
  | nil => rfl
  | cons a rest ih => rw [onePass_skip (fun fits => absurd fits.1 (by omega)),ih]

theorem onePass_perm (used : Int) (items : List α) :
    ((onePass overhead room size used items).1 ++ (onePass overhead room size used items).2).Perm items := by
  induction items generalizing used with
  | nil => exact List.Perm.refl []
  | cons a rest ih =>
    by_cases fits : Fits room size used a
    · rw [onePass_take fits]
      exact (ih _).cons a
    · rw [onePass_skip fits]
      exact List.perm_middle.trans ((ih used).cons a)

theorem onePass_map (f : β → α) (items : List β) :
    onePass overhead room size used (items.map f) =
      Prod.map (List.map f) (List.map f) (onePass overhead room (fun b => size (f b)) used items) := by
  induction items generalizing used with
  | nil => rfl
  | cons b rest ih =>
    by_cases fits : Fits room size used (f b)
    · rw [List.map_cons,onePass_take fits,onePass_take (a := b) fits,ih]
      rfl
    · rw [List.map_cons,onePass_skip fits,onePass_skip (a := b) fits,ih]
      rfl

/-- The room matters only at the numbers of bytes that a pass can come to. -/
theorem onePass_congr {ample : Int → Prop} (same : ∀ used, ample used → room used = room' used)
    (next : ∀ used n, ample used → 0 ≤ n → n ≤ room used → ample (used + (overhead + n))) (sizes : ∀ a, 0 ≤ size a)
    (start : ample used) (items : List α) :
    onePass overhead room size used items = onePass overhead room' size used items := by
  induction items generalizing used with
  | nil => rfl
  | cons a rest ih =>
    have here : Fits room size used a ↔ Fits room' size used a := by
      unfold Fits
      rw [same used start]
    by_cases fits : Fits room size used a
    · rw [onePass_take fits,onePass_take (here.mp fits),ih (next used _ start (sizes a) fits.2)]
    · rw [onePass_skip fits,onePass_skip (fun fits' => fits (here.mpr fits')),ih start]

/-- What the pass takes fits. -/
theorem onePass_fits {limit : Int} (items : List α) (taken : (onePass overhead (under overhead limit) size used items).1 ≠ []) :
    used + bytes overhead size (onePass overhead (under overhead limit) size used items).1 ≤ limit := by
  induction items generalizing used with
  | nil => exact absurd rfl taken
  | cons a rest ih =>
    by_cases fits : Fits (under overhead limit) size used a
    · rw [onePass_take fits,bytes_cons]
      have small : size a ≤ limit - used - overhead := fits.2
      by_cases last : (onePass overhead (under overhead limit) size (used + (overhead + size a)) rest).1 = []
      · rw [last,bytes_nil]
        omega
      · have := ih last
        omega
    · rw [onePass_skip fits] at taken ⊢
      exact ih taken

/-- For what stays there is no room at the end either. -/
theorem onePass_left (shrinks : ∀ used n, 0 ≤ n → room (used + (overhead + n)) ≤ room used) (sizes : ∀ a, 0 ≤ size a)
    (items : List α) :
    room (used + bytes overhead size (onePass overhead room size used items).1) ≤ room used ∧
      ∀ a ∈ (onePass overhead room size used items).2, 0 < size a →
        room (used + bytes overhead size (onePass overhead room size used items).1) < size a := by
  induction items generalizing used with
  | nil =>
    rw [onePass,bytes_nil,Int.add_zero]
    exact ⟨Int.le_refl _,fun a member => by cases member⟩
  | cons a rest ih =>
    by_cases fits : Fits room size used a
    · obtain ⟨less,none⟩ := @ih (used + (overhead + size a))
      rw [onePass_take fits,bytes_cons,← Int.add_assoc]
      exact ⟨Int.le_trans less (shrinks used _ (sizes a)),none⟩
    · obtain ⟨less,none⟩ := @ih used
      rw [onePass_skip fits]
      refine ⟨less,fun b member positive => ?_⟩
      rcases List.mem_cons.mp member with rfl | later
      · refine Int.lt_of_le_of_lt less ?_
        by_contra small
        exact fits ⟨by omega,by omega⟩
      · exact none b later positive

/-- An item for which there was room at the start stays only if one in front of it was taken. -/
theorem onePass_blocked {before : α → α → Prop} {items : List α} {a : α} (order : items.Pairwise before)
    (fits : Fits room size used a) (left : a ∈ (onePass overhead room size used items).2) :
    ∃ b ∈ (onePass overhead room size used items).1, before b a := by
  induction items with
  | nil => cases left
  | cons b rest ih =>
    obtain ⟨first,order⟩ := List.pairwise_cons.mp order
    by_cases here : Fits room size used b
    · rw [onePass_take here] at left ⊢
      have later : a ∈ rest := (onePass_perm (used + (overhead + size b)) rest).mem_iff.mp (List.mem_append_right _ left)
      exact ⟨b,List.mem_cons_self,first a later⟩
    · rw [onePass_skip here] at left ⊢
      rcases List.mem_cons.mp left with rfl | later
      · exact absurd fits here
      · exact ih order later

end Mori.Packing
