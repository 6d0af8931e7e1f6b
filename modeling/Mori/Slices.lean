import Mathlib.Data.List.Basic
import Mathlib.Data.List.Infix
import Mathlib.Data.List.GetD
import Mathlib.Tactic.SplitIfs

/-!
Slices with their backing arrays, as in Go. A slice is a window on an array that other
slices may share. `append` writes behind the end of its slice as long as the capacity
allows, and moves to a new array otherwise. What a computation does to arrays that it
has made itself, no older slice sees: the old arrays are still the first ones of the
memory (`Memory.Keeps`).
-/
namespace Mori.Slices

variable {α : Type}

/-- The arrays made so far. An array lists the elements written to it: nothing reads
    behind them. -/
structure Memory (α : Type) where
  arrays : List (List α) := []

/-- A window on an array, and how far it may grow there. -/
structure Window where
  array : Nat
  start : Nat
  len : Nat
  cap : Nat
deriving DecidableEq,Repr

def Memory.array (mem : Memory α) (a : Nat) : List α := mem.arrays.getD a []

/-- What a slice shows. -/
def Memory.read (mem : Memory α) (s : Window) : List α := ((mem.array s.array).drop s.start).take s.len

/-- The element at an index; `none` is a panic. -/
def Memory.index (mem : Memory α) (s : Window) (i : Nat) : Option α := (mem.read s)[i]?

/-- A new array with the given elements. -/
def Memory.alloc (mem : Memory α) (xs : List α) : Memory α × Window :=
  (⟨mem.arrays ++ [xs]⟩,⟨mem.arrays.length,0,xs.length,xs.length⟩)

/-- Elements written over a list from an index on. -/
def overwrite (l : List α) (i : Nat) (xs : List α) : List α := l.take i ++ xs ++ l.drop (i + xs.length)

/-- Elements written over those of a slice from an index on. -/
def Memory.write (mem : Memory α) (s : Window) (i : Nat) (xs : List α) : Memory α :=
  ⟨mem.arrays.set s.array (overwrite (mem.array s.array) (s.start + i) xs)⟩

/-- `s[i:j]`; `none` is a panic. -/
def Window.sub (s : Window) (i j : Nat) : Option Window :=
  if i ≤ j ∧ j ≤ s.cap then some ⟨s.array,s.start + i,j - i,s.cap - i⟩ else none

/-- `append`, where the capacity of a new array is up to the runtime. -/
def Memory.append (grow : Nat → Nat) (mem : Memory α) (s : Window) (xs : List α) : Memory α × Window :=
  if s.len + xs.length ≤ s.cap then (mem.write s s.len xs,{ s with len := s.len + xs.length })
  else
    (⟨mem.arrays ++ [mem.read s ++ xs]⟩,
      ⟨mem.arrays.length,0,s.len + xs.length,max (s.len + xs.length) (grow (s.len + xs.length))⟩)

/-- The window of a slice is within its array and its capacity. -/
structure Fits (mem : Memory α) (s : Window) : Prop where
  known : s.array < mem.arrays.length
  within : s.start + s.len ≤ (mem.array s.array).length
  room : s.len ≤ s.cap

/-- The arrays of one memory are the first ones of the other. -/
def Memory.Keeps (mem mem' : Memory α) : Prop := mem.arrays <+: mem'.arrays

section
variable {l xs : List α} {i start len : Nat}

theorem getElem?_overwrite (inside : i ≤ l.length) (j : Nat) :
    (overwrite l i xs)[j]? = if j < i then l[j]? else if j < i + xs.length then xs[j - i]? else l[j]? := by
  have front : (l.take i).length = i := List.length_take_of_le inside
  rw [overwrite,List.append_assoc]
  by_cases before : j < i
  · rw [if_pos before,List.getElem?_append_left (front.symm ▸ before),List.getElem?_take_of_lt before]
  rw [if_neg before,List.getElem?_append_right (by omega),front]
  by_cases within : j < i + xs.length
  · rw [if_pos within,List.getElem?_append_left (by omega)]
  · rw [if_neg within,List.getElem?_append_right (by omega),List.getElem?_drop]
    congr 1
    omega

theorem length_overwrite (inside : i ≤ l.length) : (overwrite l i xs).length = max l.length (i + xs.length) := by
  simp only [overwrite,List.length_append,List.length_take,List.length_drop]
  omega

theorem overwrite_nil (l : List α) (i : Nat) : overwrite l i [] = l := by
  rw [overwrite,List.append_nil,List.length_nil,Nat.add_zero,List.take_append_drop]

theorem overwrite_singleton {x : α} (inside : i < l.length) : overwrite l i [x] = l.set i x := by
  rw [overwrite,List.set_eq_take_append_cons_drop,if_pos inside,List.append_assoc]
  rfl

theorem getElem?_window (l : List α) (start len j : Nat) :
    ((l.drop start).take len)[j]? = if j < len then l[start + j]? else none := by
  by_cases within : j < len
  · rw [if_pos within,List.getElem?_take_of_lt within,List.getElem?_drop]
  · rw [if_neg within,List.getElem?_take_eq_none (Nat.not_lt.mp within)]

/-- What ends before the written elements stays as it is. -/
theorem window_before (inside : i ≤ l.length) (before : start + len ≤ i) :
    ((overwrite l i xs).drop start).take len = (l.drop start).take len := by
  refine List.ext_getElem? (fun j => ?_)
  rw [getElem?_window,getElem?_window]
  by_cases within : j < len
  · rw [if_pos within,if_pos within,getElem?_overwrite inside,if_pos (by omega)]
  · rw [if_neg within,if_neg within]

/-- What ends where the written elements begin is continued by them. -/
theorem window_behind (inside : start + len ≤ l.length) :
    ((overwrite l (start + len) xs).drop start).take (len + xs.length) = (l.drop start).take len ++ xs := by
  have size : ((l.drop start).take len).length = len := by
    rw [List.length_take,List.length_drop]
    omega
  refine List.ext_getElem? (fun j => ?_)
  rw [getElem?_window,getElem?_overwrite inside]
  by_cases old : j < len
  · rw [if_pos (by omega),if_pos (by omega),List.getElem?_append_left (size.symm ▸ old),getElem?_window,if_pos old]
  · rw [List.getElem?_append_right (by omega),size]
    by_cases new : j < len + xs.length
    · rw [if_pos new,if_neg (by omega),if_pos (by omega)]
      congr 1
      omega
    · rw [if_neg new,List.getElem?_eq_none (by omega)]

/-- What the written elements are part of shows them. -/
theorem window_within (inside : start + len ≤ l.length) (fits : i + xs.length ≤ len) :
    ((overwrite l (start + i) xs).drop start).take len = overwrite ((l.drop start).take len) i xs := by
  have size : ((l.drop start).take len).length = len := by
    rw [List.length_take,List.length_drop]
    omega
  refine List.ext_getElem? (fun j => ?_)
  rw [getElem?_window,getElem?_overwrite (by omega),getElem?_overwrite (by omega),getElem?_window]
  by_cases within : j < len
  · have shifted : start + j - (start + i) = j - i := by omega
    simp only [if_pos within,Nat.add_lt_add_iff_left,shifted,Nat.add_assoc]
  · rw [if_neg within,if_neg within,if_neg (by omega),if_neg (by omega)]

end

section
variable {mem mem' mem'' : Memory α} {s : Window}

theorem keeps_refl (mem : Memory α) : mem.Keeps mem := List.prefix_refl _

theorem keeps_trans (first : mem.Keeps mem') (second : mem'.Keeps mem'') : mem.Keeps mem'' := first.trans second

theorem keeps_extend (mem : Memory α) (xs : List α) : mem.Keeps ⟨mem.arrays ++ [xs]⟩ := List.prefix_append _ _

theorem array_of_keeps (kept : mem.Keeps mem') {a : Nat} (known : a < mem.arrays.length) : mem'.array a = mem.array a := by
  obtain ⟨more,same⟩ := kept
  rw [Memory.array,← same,List.getD_append _ _ _ _ known]
  rfl

theorem read_of_keeps (kept : mem.Keeps mem') (known : s.array < mem.arrays.length) : mem'.read s = mem.read s := by
  rw [Memory.read,array_of_keeps kept known]
  rfl

theorem fits_of_keeps (kept : mem.Keeps mem') (fits : Fits mem s) : Fits mem' s where
  known := Nat.lt_of_lt_of_le fits.known kept.length_le
  within := by
    rw [array_of_keeps kept fits.known]
    exact fits.within
  room := fits.room

/-- A write to an array that is not among the old ones. -/
theorem keeps_write (kept : mem.Keeps mem') (new : mem.arrays.length ≤ s.array) (i : Nat) (xs : List α) :
    mem.Keeps (mem'.write s i xs) := by
  obtain ⟨more,same⟩ := kept
  have replaced := List.set_append_right s.array (overwrite (mem'.array s.array) (s.start + i) xs) new (s := mem.arrays) (t := more)
  rw [same] at replaced
  exact ⟨_,replaced.symm⟩

theorem length_read (fits : Fits mem s) : (mem.read s).length = s.len := by
  have within := fits.within
  rw [Memory.read,List.length_take,List.length_drop]
  omega

end

section
variable {mem : Memory α} {s t : Window} {i j : Nat}

theorem read_sub (mem : Memory α) (cut : s.sub i j = some t) (inside : j ≤ s.len) :
    mem.read t = ((mem.read s).drop i).take (j - i) := by
  unfold Window.sub at cut
  split_ifs at cut with bounds
  cases cut
  refine List.ext_getElem? (fun n => ?_)
  rw [Memory.read,Memory.read,getElem?_window,getElem?_window,getElem?_window]
  by_cases within : n < j - i
  · rw [if_pos within,if_pos within,if_pos (by omega),Nat.add_assoc]
  · rw [if_neg within,if_neg within]

theorem fits_sub (fits : Fits mem s) (cut : s.sub i j = some t) (inside : j ≤ s.len) : Fits mem t := by
  have within := fits.within
  have room := fits.room
  unfold Window.sub at cut
  split_ifs at cut with bounds
  cases cut
  refine ⟨fits.known,?_,?_⟩
  · show s.start + i + (j - i) ≤ (mem.array s.array).length
    omega
  · show j - i ≤ s.cap - i
    omega

end

section
variable {mem : Memory α} {s o : Window} {xs : List α} {i : Nat}

theorem array_write (known : s.array < mem.arrays.length) (i : Nat) (xs : List α) :
    (mem.write s i xs).array s.array = overwrite (mem.array s.array) (s.start + i) xs := by
  have within : s.array < (mem.arrays.set s.array (overwrite (mem.array s.array) (s.start + i) xs)).length := by
    rwa [List.length_set]
  rw [Memory.array,Memory.write,List.getD_eq_getElem _ _ within,List.getElem_set_self]

theorem write_nil (known : s.array < mem.arrays.length) (i : Nat) : mem.write s i [] = mem := by
  rw [Memory.write,overwrite_nil,Memory.array,List.getD_eq_getElem _ _ known,List.set_getElem_self]

theorem array_write_other {a : Nat} (other : a ≠ s.array) (i : Nat) (xs : List α) :
    (mem.write s i xs).array a = mem.array a := by
  rw [Memory.array,Memory.array,Memory.write,List.getD_eq_getElem?_getD,List.getElem?_set_ne (Ne.symm other),
    ← List.getD_eq_getElem?_getD]

/-- A slice shows what was written within it. -/
theorem read_write (fits : Fits mem s) (inside : i + xs.length ≤ s.len) :
    (mem.write s i xs).read s = overwrite (mem.read s) i xs := by
  rw [Memory.read,array_write fits.known,window_within fits.within inside]
  rfl

/-- A slice that ends before the written elements, or is of another array, does not show them. -/
theorem read_write_other (fits : Fits mem s) (inside : i ≤ s.len)
    (apart : o.array = s.array → o.start + o.len ≤ s.start + i) : (mem.write s i xs).read o = mem.read o := by
  have within := fits.within
  by_cases same : o.array = s.array
  · rw [Memory.read,same,array_write fits.known,window_before (by omega) (apart same),← same]
    rfl
  · rw [Memory.read,array_write_other same]
    rfl

theorem fits_write (fits : Fits mem s) (inside : i ≤ s.len) (other : Fits mem o) (xs : List α) :
    Fits (mem.write s i xs) o where
  known := by
    rw [Memory.write,List.length_set]
    exact other.known
  within := by
    have before := other.within
    have within := fits.within
    by_cases same : o.array = s.array
    · rw [same] at before
      rw [same,array_write fits.known,length_overwrite (by omega)]
      omega
    · rwa [array_write_other same]
  room := other.room

end

section
variable {mem base : Memory α} {s o : Window}

theorem array_extend (mem : Memory α) (xs : List α) : (⟨mem.arrays ++ [xs]⟩ : Memory α).array mem.arrays.length = xs := by
  simp [Memory.array]

theorem read_alloc (mem : Memory α) (xs : List α) : (mem.alloc xs).1.read (mem.alloc xs).2 = xs := by
  simp only [Memory.alloc,Memory.read,array_extend,List.drop_zero,List.take_length]

theorem fits_alloc (mem : Memory α) (xs : List α) : Fits (mem.alloc xs).1 (mem.alloc xs).2 where
  known := by simp [Memory.alloc]
  within := by simp [Memory.alloc,array_extend]
  room := Nat.le_refl _

variable (grow : Nat → Nat) (xs : List α)

/-- What `append` returns shows the slice and the new elements. -/
theorem read_append (fits : Fits mem s) :
    (mem.append grow s xs).1.read (mem.append grow s xs).2 = mem.read s ++ xs := by
  by_cases room : s.len + xs.length ≤ s.cap
  · rw [Memory.append,if_pos room,Memory.read,array_write fits.known,window_behind fits.within]
    rfl
  · have size := length_read fits
    rw [Memory.append,if_neg room,Memory.read,array_extend,List.drop_zero,List.take_of_length_le]
    rw [List.length_append,size]

theorem fits_append (fits : Fits mem s) : Fits (mem.append grow s xs).1 (mem.append grow s xs).2 := by
  by_cases room : s.len + xs.length ≤ s.cap
  · rw [Memory.append,if_pos room]
    have within := fits.within
    refine ⟨?_,?_,room⟩
    · rw [Memory.write,List.length_set]
      exact fits.known
    · rw [array_write fits.known,length_overwrite (by omega)]
      simp only
      omega
  · have size := length_read fits
    rw [Memory.append,if_neg room]
    refine ⟨?_,?_,Nat.le_max_left _ _⟩
    · rw [List.length_append,List.length_singleton]
      exact Nat.lt_succ_self _
    · rw [array_extend,List.length_append,size,Nat.zero_add]

/-- A slice that does not reach behind the appended one shows what it did before. -/
theorem read_append_other (fits : Fits mem s) (other : Fits mem o)
    (apart : o.array = s.array → o.start + o.len ≤ s.start + s.len) : (mem.append grow s xs).1.read o = mem.read o := by
  by_cases room : s.len + xs.length ≤ s.cap
  · rw [Memory.append,if_pos room]
    exact read_write_other fits (Nat.le_refl _) apart
  · rw [Memory.append,if_neg room]
    exact read_of_keeps (keeps_extend mem _) other.known

theorem fits_append_other (fits : Fits mem s) (other : Fits mem o) : Fits (mem.append grow s xs).1 o := by
  by_cases room : s.len + xs.length ≤ s.cap
  · rw [Memory.append,if_pos room]
    exact fits_write fits (Nat.le_refl _) other xs
  · rw [Memory.append,if_neg room]
    exact fits_of_keeps (keeps_extend mem _) other

/-- An append to an array that is not among the old ones leaves these as they are, and
    its result is not on one of them either. -/
theorem keeps_append (kept : base.Keeps mem) (new : base.arrays.length ≤ s.array) :
    base.Keeps (mem.append grow s xs).1 ∧ base.arrays.length ≤ (mem.append grow s xs).2.array := by
  by_cases room : s.len + xs.length ≤ s.cap
  · rw [Memory.append,if_pos room]
    exact ⟨keeps_write kept new _ _,new⟩
  · rw [Memory.append,if_neg room]
    exact ⟨keeps_trans kept (keeps_extend mem _),kept.length_le⟩

end

end Mori.Slices
