import Mori.Rings

/-!
What is seen through the slices that `GetKeys` and `getAEADs` have returned. They are
slices of the ring itself. The calls put new keys and ciphers on new arrays, and `AddKey`
writes behind the end of the old one, but `RemoveKey` shifts the old keys in place: who
holds a slice of them sees the keys behind the removed one move down and the last one
twice. A slice of ciphers stays as it was.
-/
namespace Mori.Snapshots
open Mori.Net Mori.Slices Mori.Machines Mori.Rings

/-- A slice that was returned, and what it showed then. -/
structure Snapshot (α : Type) where
  slice : Window
  seen : List α

/-- A ring, and what was returned of it. -/
structure Observed where
  ring : Ring
  keys : List (Snapshot Bytes) := []
  aeads : List (Snapshot Aead) := []

def observe (grow : Nat → Nat) (o : Observed) : Call → Observed
  | .getKeys => { o with keys := ⟨o.ring.keys,o.ring.keyList⟩ :: o.keys }
  | .getAEADs => { o with aeads := ⟨o.ring.aeads,o.ring.aeadList⟩ :: o.aeads }
  | c => { o with ring := o.ring.after grow c }

def KeysStable (o : Observed) : Prop := ∀ snap ∈ o.keys, o.ring.keyMemory.read snap.slice = snap.seen

def AeadsStable (o : Observed) : Prop := ∀ snap ∈ o.aeads, o.ring.aeadMemory.read snap.slice = snap.seen

/-- The call does not remove a key from between others while a slice of the present keys
    has been returned. -/
def Spares (o : Observed) : Call → Prop
  | .removeKey key => (∃ snap ∈ o.keys, snap.slice = o.ring.keys) → key ∈ o.ring.keyList →
      o.ring.keyList.head? = some key ∨ o.ring.keyList.getLast? = some key
  | _ => True

/-- A returned slice of keys is within its array, and it is the present one or on another
    array. -/
structure Inv (o : Observed) : Prop where
  sound : Sound o.ring
  keys : ∀ snap ∈ o.keys, Fits o.ring.keyMemory snap.slice ∧
    (snap.slice.array = o.ring.keys.array → snap.slice = o.ring.keys)
  aeads : ∀ snap ∈ o.aeads, snap.slice.array < o.ring.aeadMemory.arrays.length

section
variable {grow : Nat → Nat} {o : Observed} {k' : Ring} {mem : Memory Bytes} {keys : List Bytes}

/-- New keys are on an array of which no slice has been returned. -/
theorem inv_installs (inv : Inv o) (installs : Installs mem o.ring.aeadMemory keys k') (sound : Sound k')
    (still : ∀ snap ∈ o.keys, Fits mem snap.slice) : Inv { o with ring := k' } where
  sound := sound
  keys snap member := by
    have fits := still snap member
    refine ⟨fits_of_keeps installs.keyKeeps fits,fun same => ?_⟩
    have below : snap.slice.array < k'.keys.array := Nat.lt_of_lt_of_le fits.known installs.fresh
    exact absurd same (Nat.ne_of_lt below)
  aeads snap member := Nat.lt_of_lt_of_le (inv.aeads snap member) installs.aeadKeeps.length_le

/-- What the slices show after new keys were installed they showed right before. -/
theorem stable_installs (installs : Installs mem o.ring.aeadMemory keys k') (still : ∀ snap ∈ o.keys, Fits mem snap.slice) :
    KeysStable { o with ring := k' } ↔ ∀ snap ∈ o.keys, mem.read snap.slice = snap.seen := by
  refine forall_congr' (fun snap => forall_congr' (fun member => ?_))
  rw [read_of_keeps installs.keyKeeps (still snap member).known]

/-- The shift that `RemoveKey` makes is seen, unless it moves nothing. -/
theorem overwrite_eq_iff {key primaryKey : Bytes} {before after : List Bytes}
    (distinct : (primaryKey :: before ++ key :: after).Nodup) :
    overwrite (primaryKey :: before ++ key :: after) (before.length + 1) after = primaryKey :: before ++ key :: after ↔
      (primaryKey :: before ++ key :: after).getLast? = some key := by
  have behind := (List.nodup_append.mp distinct).2.1
  have last : (primaryKey :: before ++ key :: after).getLast? = (key :: after).getLast? := by
    rw [List.getLast?_append,List.getLast?_eq_some_getLast (List.cons_ne_nil key after),Option.some_or]
  rw [last]
  cases after with
  | nil => exact iff_of_true (overwrite_nil _ _) rfl
  | cons next others =>
    refine iff_of_false (fun same => ?_) (fun same => ?_)
    · have moved : next = key := by
        have shifted := congrArg (fun l => l[before.length + 1]?) same
        simpa [getElem?_overwrite] using shifted
      exact (List.nodup_cons.mp behind).1 (moved ▸ List.mem_cons_self)
    · rw [List.getLast?_cons_cons] at same
      exact (List.nodup_cons.mp behind).1 (List.mem_of_getLast? same)

theorem fits_added (inv : Inv o) (grow : Nat → Nat) (key : Bytes) :
    ∀ snap ∈ o.keys, Fits (o.ring.keyMemory.append grow o.ring.keys [key]).1 snap.slice :=
  fun snap held => fits_append_other grow [key] inv.sound.keyFits (inv.keys snap held).1

theorem length_split (inv : Inv o) {key primaryKey : Bytes} {before after : List Bytes}
    (shown : o.ring.keyList = primaryKey :: before ++ key :: after) :
    before.length + 1 + (after.length + 1) = o.ring.keys.len := by
  rw [← length_keyList inv.sound.keyFits,shown,List.length_append,List.length_cons,List.length_cons]

theorem fits_shifted (inv : Inv o) {key primaryKey : Bytes} {before after : List Bytes}
    (shown : o.ring.keyList = primaryKey :: before ++ key :: after) :
    ∀ snap ∈ o.keys, Fits (o.ring.keyMemory.write o.ring.keys (before.length + 1) after) snap.slice := by
  intro snap held
  have size := length_split inv shown
  exact fits_write inv.sound.keyFits (by omega) (inv.keys snap held).1 after

/-- A call leaves the ring as it is, or installs keys where the returned slices of keys are
    still within their arrays. -/
theorem call_installs (inv : Inv o) (c : Call) : o.ring.after grow c = o.ring ∨
    ∃ mem keys, Installs mem o.ring.aeadMemory keys (o.ring.after grow c) ∧ ∀ snap ∈ o.keys, Fits mem snap.slice := by
  have effect := call_effect grow inv.sound c
  unfold Ring.after
  generalize o.ring.call grow c = result at effect ⊢
  cases effect with
  | @add key k' size new installs => exact .inr ⟨_,_,installs,fits_added inv grow key⟩
  | use member installs => exact .inr ⟨_,_,installs,fun snap held => (inv.keys snap held).1⟩
  | remove shown installs => exact .inr ⟨_,_,installs,fits_shifted inv shown⟩
  | _ => exact .inl rfl

theorem inv_call (inv : Inv o) (c : Call) : Inv { o with ring := o.ring.after grow c } := by
  rcases call_installs inv c with same | ⟨mem,keys,installs,still⟩
  · rw [same]
    exact inv
  · exact inv_installs inv installs (sound_after o.ring c inv.sound) still

theorem aeads_call (inv : Inv o) (c : Call) : o.ring.aeadMemory.Keeps (o.ring.after grow c).aeadMemory := by
  rcases call_installs inv c with same | ⟨mem,keys,installs,-⟩
  · rw [same]
    exact keeps_refl _
  · exact installs.aeadKeeps

/-- Of the slices that were returned, those of the present keys show the shift, and no others. -/
theorem stable_shifted (inv : Inv o) (stable : KeysStable o) {key primaryKey : Bytes} {before after : List Bytes}
    (shown : o.ring.keyList = primaryKey :: before ++ key :: after) :
    (∀ snap ∈ o.keys, (o.ring.keyMemory.write o.ring.keys (before.length + 1) after).read snap.slice = snap.seen) ↔
      Spares o (.removeKey key) := by
  have fits := inv.sound.keyFits
  have distinct := inv.sound.distinct
  have size := length_split inv shown
  rw [shown] at distinct
  have member : key ∈ o.ring.keyList := by
    rw [shown]
    exact List.mem_append_right _ List.mem_cons_self
  have other : o.ring.keyList.head? ≠ some key := by
    rw [shown]
    rintro ⟨⟩
    exact (List.nodup_cons.mp distinct).1 (List.mem_append_right before List.mem_cons_self)
  have present : (o.ring.keyMemory.write o.ring.keys (before.length + 1) after).read o.ring.keys = o.ring.keyList ↔
      o.ring.keyList.getLast? = some key := by
    rw [read_write fits (by omega),show o.ring.keyMemory.read o.ring.keys = _ from shown,shown]
    exact overwrite_eq_iff distinct
  constructor
  · rintro all ⟨snap,held,isPresent⟩ -
    have seen : snap.seen = o.ring.keyList := by
      rw [← stable snap held,isPresent]
      rfl
    have shift := all snap held
    rw [isPresent,seen] at shift
    exact .inr (present.mp shift)
  · intro spares snap held
    by_cases shared : snap.slice.array = o.ring.keys.array
    · have isPresent := (inv.keys snap held).2 shared
      have last := (spares ⟨snap,held,isPresent⟩ member).resolve_left other
      rw [← stable snap held,isPresent]
      exact present.mpr last
    · rw [read_write_other fits (by omega) (fun wrong => absurd wrong shared)]
      exact stable snap held

/-- A call leaves what the returned slices of keys show exactly if it spares them. -/
theorem stable_call (inv : Inv o) (stable : KeysStable o) (c : Call) :
    KeysStable { o with ring := o.ring.after grow c } ↔ Spares o c := by
  have effect := call_effect grow inv.sound c
  unfold Ring.after
  generalize o.ring.call grow c = result at effect ⊢
  cases effect with
  | @add key k' size new installs =>
    refine (stable_installs installs (fits_added inv grow key)).trans (iff_of_true (fun snap held => ?_) trivial)
    rw [read_append_other grow [key] inv.sound.keyFits (inv.keys snap held).1]
    · exact stable snap held
    · intro shared
      rw [(inv.keys snap held).2 shared]
  | use member installs =>
    exact (stable_installs installs (fun snap held => (inv.keys snap held).1)).trans (iff_of_true stable trivial)
  | remove shown installs => exact (stable_installs installs (fits_shifted inv shown)).trans (stable_shifted inv stable shown)
  | crash empty =>
    refine iff_of_true stable (fun _ member => ?_)
    rw [empty] at member
    cases member
  | primary shown =>
    refine iff_of_true stable (fun _ _ => .inl ?_)
    rw [shown]
    rfl
  | absent shown new => exact iff_of_true stable (fun _ member => absurd member new)
  | _ => exact iff_of_true stable trivial

theorem inv_observe (o : Observed) (c : Call) (inv : Inv o) : Inv (observe grow o c) := by
  cases c with
  | getKeys =>
    refine ⟨inv.sound,fun snap member => ?_,inv.aeads⟩
    rcases List.mem_cons.mp member with rfl | held
    · exact ⟨inv.sound.keyFits,fun _ => rfl⟩
    · exact inv.keys snap held
  | getAEADs =>
    refine ⟨inv.sound,inv.keys,fun snap member => ?_⟩
    rcases List.mem_cons.mp member with rfl | held
    · exact inv.sound.aeadFits.known
    · exact inv.aeads snap held
  | _ => exact inv_call inv _

theorem keysStable_observe (o : Observed) (c : Call) (inv : Inv o) (stable : KeysStable o) :
    KeysStable (observe grow o c) ↔ Spares o c := by
  cases c with
  | getKeys =>
    refine iff_of_true (fun snap member => ?_) trivial
    rcases List.mem_cons.mp member with rfl | held
    · rfl
    · exact stable snap held
  | getAEADs => exact iff_of_true stable trivial
  | _ => exact stable_call inv stable _

theorem aeadsStable_observe (o : Observed) (c : Call) (inv : Inv o ∧ AeadsStable o) :
    Inv (observe grow o c) ∧ AeadsStable (observe grow o c) := by
  refine ⟨inv_observe o c inv.1,?_⟩
  have kept : ∀ c, AeadsStable { o with ring := o.ring.after grow c } := by
    intro c snap held
    rw [read_of_keeps (aeads_call inv.1 c) (inv.1.aeads snap held)]
    exact inv.2 snap held
  cases c with
  | getKeys => exact inv.2
  | getAEADs =>
    intro snap member
    rcases List.mem_cons.mp member with rfl | held
    · rfl
    · exact inv.2 snap held
  | _ => exact kept _

/-- On any ring that `NewKeyring` makes and in any run of calls, what `getAEADs` returned
    stays as it was. What `GetKeys` returned does all along exactly if no call removes a
    key from between others while a slice of the present keys has been returned. -/
theorem snapshots_stable_iff (grow : Nat → Nat) {keys : List Bytes} {primaryKey : Bytes} {k : Ring}
    (made : newKeyring grow keys primaryKey = .ok (.ok k)) (calls : List Call) :
    AeadsStable (run (observe grow) { ring := k } calls) ∧
    ((∀ n, KeysStable (run (observe grow) { ring := k } (calls.take n))) ↔ Along (observe grow) Spares { ring := k } calls) := by
  obtain ⟨result,made',good⟩ := newKeyring_sound grow keys primaryKey
  have sound : Sound k := good k (Except.ok.inj (made'.symm.trans made))
  have start : Inv { ring := k } :=
    ⟨sound,fun _ member => absurd member List.not_mem_nil,fun _ member => absurd member List.not_mem_nil⟩
  have noKeys : KeysStable { ring := k } := fun _ member => absurd member List.not_mem_nil
  have noAeads : AeadsStable { ring := k } := fun _ member => absurd member List.not_mem_nil
  exact ⟨(run_keeps aeadsStable_observe ⟨start,noAeads⟩ calls).2,
    along_iff inv_observe keysStable_observe start noKeys calls⟩

end

open Mori.Keyrings (oldKey newKey)

/-- A slice of three keys, of which the second one is removed, and the present keys then. -/
theorem snapshot_shifted :
    ∃ k, newKeyring (fun n => 2 * n) [newKey,spareKey] oldKey = .ok (.ok k) ∧
      let o := run (observe (fun n => 2 * n)) { ring := k } [.getKeys,.removeKey newKey]
      (∃ snap ∈ o.keys, snap.seen = [oldKey,newKey,spareKey] ∧
        o.ring.keyMemory.read snap.slice = [oldKey,spareKey,spareKey]) ∧ o.ring.keyList = [oldKey,spareKey] :=
  ⟨_,rfl,⟨_,List.mem_cons_self,rfl,rfl⟩,rfl⟩

/-- The removal of the last key is not seen. -/
theorem snapshots_stable_iff_last :
    ∃ k, newKeyring (fun n => 2 * n) [newKey,spareKey] oldKey = .ok (.ok k) ∧
      let o := run (observe (fun n => 2 * n)) { ring := k } [.getKeys,.removeKey spareKey]
      o.ring.keyList = [oldKey,newKey] ∧ o.keys.map (·.seen) = [[oldKey,newKey,spareKey]] ∧ KeysStable o := by
  obtain ⟨k,made,shown,left,seen⟩ : ∃ k, newKeyring (fun n => 2 * n) [newKey,spareKey] oldKey = .ok (.ok k) ∧
      k.keyList = [oldKey,newKey,spareKey] ∧
      (run (observe (fun n => 2 * n)) { ring := k } [.getKeys,.removeKey spareKey]).ring.keyList = [oldKey,newKey] ∧
      (run (observe (fun n => 2 * n)) { ring := k } [.getKeys,.removeKey spareKey]).keys.map (·.seen) =
        [[oldKey,newKey,spareKey]] := ⟨_,rfl,rfl,rfl,rfl⟩
  refine ⟨k,made,left,seen,?_⟩
  refine ((snapshots_stable_iff _ made [.getKeys,.removeKey spareKey]).2.mpr ⟨trivial,fun _ _ => .inr ?_,trivial⟩) 2
  show k.keyList.getLast? = _
  rw [shown]
  rfl

end Mori.Snapshots
