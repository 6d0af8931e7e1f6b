import Mori.Keyrings
import Mori.Slices

/-!
The keyring on slices (`keyring.go`). `append` may write into the array that the ring
already has, `RemoveKey` shifts that array while it goes over it, and the keys and their
ciphers are installed on new arrays. What a call does to the ring is what the calls of
`Keyrings` do to the list of its keys (`call_refines`), so that the keys stay distinct
and valid, each with its cipher. The only call that panics is the removal of a key from
an empty ring.
-/
namespace Mori.Rings
open Mori.Net Mori.Security Mori.Keyrings Mori.Slices Mori.Machines

/-- An AES-GCM instance, by the key that it was made of. -/
structure Aead where
  key : Bytes
deriving DecidableEq,Repr

/-- `newAEAD`: AES has keys of 16, 24 or 32 bytes. -/
def newAEAD (key : Bytes) : Option Aead := if Valid key then some ⟨key⟩ else none

inductive Panic where
  | outOfRange
  | invalidKey
deriving DecidableEq,Repr

/-- A keyring: two slices, each in the memory of its arrays. -/
structure Ring where
  keyMemory : Memory Bytes
  aeadMemory : Memory Aead
  keys : Window
  aeads : Window

/-- What the slice of keys shows. -/
def Ring.keyList (k : Ring) : List Bytes := k.keyMemory.read k.keys

def Ring.aeadList (k : Ring) : List Aead := k.aeadMemory.read k.aeads

/-- The loop over the installed keys that looks for one. -/
def Ring.holds (k : Ring) (key : Bytes) : Bool := k.keyList.any (fun installedKey => installedKey = key)

section
variable {α : Type}

/-- `s[i]`. -/
def element (mem : Memory α) (s : Window) (i : Nat) : Except Panic α := (mem.index s i).elim (.error .outOfRange) .ok

/-- `s[i:j]`. -/
def subslice (s : Window) (i j : Nat) : Except Panic Window := (s.sub i j).elim (.error .outOfRange) .ok

end

section
variable (grow : Nat → Nat)

/-- One turn of the first loop of `installKeysLocked`. -/
def addOther (primaryKey : Bytes) (newKeys : Memory Bytes × Window) (key : Bytes) : Memory Bytes × Window :=
  if key ≠ primaryKey then newKeys.1.append grow newKeys.2 [key] else newKeys

def Ring.installKeysLocked (k : Ring) (keys : Window) (primaryKey : Bytes) : Except Panic Ring :=
  let newKeys := (k.keyMemory.read keys).foldl (addOther grow primaryKey) (k.keyMemory.alloc [primaryKey])
  match (newKeys.1.read newKeys.2).mapM newAEAD with
  | none => .error .invalidKey
  | some ciphers =>
    let aeads := k.aeadMemory.alloc ciphers
    .ok ⟨newKeys.1,aeads.1,newKeys.2,aeads.2⟩

def Ring.getPrimaryKeyLocked (k : Ring) : Except Panic (Option Bytes) :=
  if 0 < k.keys.len then do return some (← element k.keyMemory k.keys 0) else return none

def Ring.primaryAEAD (k : Ring) : Except Panic (Option Aead) :=
  if k.aeads.len = 0 then return none else do return some (← element k.aeadMemory k.aeads 0)

def Ring.addKey (k : Ring) (key : Bytes) : Except Panic (Ring × Option KeyringError) :=
  if ¬ Valid key then return (k,some .keySize)
  else if k.holds key then return (k,none)
  else do
    let appended := k.keyMemory.append grow k.keys [key]
    let k := { k with keyMemory := appended.1 }
    let primaryKey := (← k.getPrimaryKeyLocked).getD key
    return (← k.installKeysLocked grow appended.2 primaryKey,none)

def Ring.useKey (k : Ring) (key : Bytes) : Except Panic (Ring × Option KeyringError) :=
  if k.holds key then do return (← k.installKeysLocked grow k.keys key,none)
  else return (k,some .notInstalled)

/-- One turn of the loop of `RemoveKey`, which goes over the slice `ranged` that the ring
    had at its start. -/
def Ring.removeAt (key : Bytes) (ranged : Window) (k : Ring) (i : Nat) : Except Panic Ring := do
  if (← element k.keyMemory ranged i) = key then
    let front ← subslice k.keys 0 i
    let back ← subslice k.keys (i + 1) k.keys.len
    let appended := k.keyMemory.append grow front (k.keyMemory.read back)
    let k := { k with keyMemory := appended.1 }
    k.installKeysLocked grow appended.2 (← element k.keyMemory k.keys 0)
  else return k

def Ring.removeKey (k : Ring) (key : Bytes) : Except Panic (Ring × Option KeyringError) := do
  if (← element k.keyMemory k.keys 0) = key then return (k,some .removePrimary)
  else return (← (List.range k.keys.len).foldlM (Ring.removeAt grow key k.keys) k,none)

/-- The ring that `init` leaves. -/
def Ring.init : Ring :=
  let keys := Memory.alloc ⟨[]⟩ []
  let aeads := Memory.alloc ⟨[]⟩ []
  ⟨keys.1,aeads.1,keys.2,aeads.2⟩

/-- The calls of `AddKey` in `NewKeyring`. -/
def addKeys : List Bytes → Ring → Except Panic (Except KeyringError Ring)
  | [],k => return .ok k
  | key :: keys,k => do
    match ← k.addKey grow key with
    | (k,none) => addKeys keys k
    | (_,some err) => return .error err

def newKeyring (keys : List Bytes) (primaryKey : Bytes) : Except Panic (Except KeyringError Ring) :=
  if 0 < keys.length ∨ 0 < primaryKey.length then
    if primaryKey.length = 0 then return .error .emptyPrimary
    else addKeys grow (primaryKey :: keys) .init
  else return .ok .init

/-- A call of an application. -/
inductive Call where
  | addKey (key : Bytes)
  | useKey (key : Bytes)
  | removeKey (key : Bytes)
  | getKeys
  | getAEADs
  | getPrimaryKey
  | primaryAEAD
deriving DecidableEq,Repr

/-- The ring after a call, and the error it returns. -/
def Ring.call (k : Ring) : Call → Except Panic (Ring × Option KeyringError)
  | .addKey key => k.addKey grow key
  | .useKey key => k.useKey grow key
  | .removeKey key => k.removeKey grow key
  | .getKeys => return (k,none)
  | .getAEADs => return (k,none)
  | .getPrimaryKey => do let _ ← k.getPrimaryKeyLocked; return (k,none)
  | .primaryAEAD => do let _ ← k.primaryAEAD; return (k,none)

/-- The ring after a call; a panic leaves it as it was. -/
def Ring.after (k : Ring) (c : Call) : Ring :=
  match k.call grow c with
  | .ok (k',_) => k'
  | .error _ => k

end

/-- The ring shows the given keys and their ciphers, on arrays that were not in the given
    memories. -/
structure Installs (keyMemory : Memory Bytes) (aeadMemory : Memory Aead) (keys : List Bytes) (k : Ring) : Prop where
  keyFits : Fits k.keyMemory k.keys
  aeadFits : Fits k.aeadMemory k.aeads
  keyList : k.keyList = keys
  aeadList : k.aeadList = keys.map Aead.mk
  keyKeeps : keyMemory.Keeps k.keyMemory
  aeadKeeps : aeadMemory.Keeps k.aeadMemory
  fresh : keyMemory.arrays.length ≤ k.keys.array
  valid : ∀ key ∈ keys, Valid key

section
variable (grow : Nat → Nat) {base mem : Memory Bytes} {s : Window}

theorem addOthers_spec (primaryKey : Bytes) (keys : List Bytes) (fits : Fits mem s) (kept : base.Keeps mem)
    (new : base.arrays.length ≤ s.array) :
    let newKeys := keys.foldl (addOther grow primaryKey) (mem,s)
    Fits newKeys.1 newKeys.2 ∧ newKeys.1.read newKeys.2 = mem.read s ++ keys.filter (fun key => key ≠ primaryKey) ∧
      base.Keeps newKeys.1 ∧ base.arrays.length ≤ newKeys.2.array := by
  induction keys generalizing mem s with
  | nil => exact ⟨fits,(List.append_nil _).symm,kept,new⟩
  | cons key keys ih =>
    rw [List.foldl_cons,addOther]
    by_cases same : key = primaryKey
    · rw [if_neg (not_not.mpr same),List.filter_cons_of_neg (by simpa using same)]
      exact ih fits kept new
    · obtain ⟨kept',new'⟩ := keeps_append grow [key] kept new
      rw [if_pos same,List.filter_cons_of_pos (by simpa using same)]
      obtain ⟨fits',shown,rest⟩ := ih (fits_append grow [key] fits) kept' new'
      refine ⟨fits',?_,rest⟩
      rw [shown,read_append grow [key] fits,List.append_assoc]
      rfl

theorem mapM_newAEAD {keys : List Bytes} (valid : ∀ key ∈ keys, Valid key) : keys.mapM newAEAD = some (keys.map Aead.mk) := by
  induction keys with
  | nil => rfl
  | cons key keys ih =>
    have first : newAEAD key = some ⟨key⟩ := if_pos (valid key List.mem_cons_self)
    rw [List.mapM_cons,first,ih (fun x later => valid x (List.mem_cons_of_mem key later))]
    rfl

/-- With valid keys `installKeysLocked` does not panic. -/
theorem installKeysLocked_spec {k : Ring} {keys : Window} {primaryKey : Bytes}
    (valid : ∀ key ∈ installed (k.keyMemory.read keys) primaryKey, Valid key) :
    ∃ k', k.installKeysLocked grow keys primaryKey = .ok k' ∧
      Installs k.keyMemory k.aeadMemory (installed (k.keyMemory.read keys) primaryKey) k' := by
  obtain ⟨fits,shown,kept,new⟩ := addOthers_spec grow primaryKey (k.keyMemory.read keys)
    (fits_alloc k.keyMemory [primaryKey]) (keeps_extend k.keyMemory [primaryKey]) (Nat.le_refl _)
  rw [read_alloc,List.singleton_append] at shown
  replace shown : _ = installed (k.keyMemory.read keys) primaryKey := shown
  unfold Ring.installKeysLocked
  dsimp only
  rw [shown,mapM_newAEAD valid]
  exact ⟨_,rfl,fits,fits_alloc _ _,shown,read_alloc _ _,kept,keeps_extend _ _,new,valid⟩

end

/-! ## The invariant -/

/-- The keys are valid and distinct, and the ciphers are theirs, one by one. -/
structure Sound (k : Ring) : Prop where
  keyFits : Fits k.keyMemory k.keys
  aeadFits : Fits k.aeadMemory k.aeads
  valid : ∀ key ∈ k.keyList, Valid key
  distinct : k.keyList.Nodup
  ciphers : k.aeadList = k.keyList.map Aead.mk

theorem sound_init : Sound .init where
  keyFits := fits_alloc _ _
  aeadFits := fits_alloc _ _
  valid _ member := absurd member List.not_mem_nil
  distinct := List.nodup_nil
  ciphers := rfl

section
variable {k k' : Ring} {key : Bytes} {keyMemory : Memory Bytes} {aeadMemory : Memory Aead} {keys : List Bytes}

theorem sound_of_installs (installs : Installs keyMemory aeadMemory keys k) (distinct : keys.Nodup) : Sound k :=
  { installs with
    valid := installs.keyList ▸ installs.valid
    distinct := installs.keyList ▸ distinct
    ciphers := by rw [installs.keyList,installs.aeadList] }

theorem holds_iff : k.holds key = true ↔ key ∈ k.keyList := by
  simp [Ring.holds]

theorem length_keyList (fits : Fits k.keyMemory k.keys) : k.keyList.length = k.keys.len := length_read fits

theorem getPrimaryKeyLocked_eq (fits : Fits k.keyMemory k.keys) : k.getPrimaryKeyLocked = .ok k.keyList.head? := by
  have size := length_keyList fits
  unfold Ring.getPrimaryKeyLocked element Memory.index
  cases shown : k.keyList with
  | nil =>
    rw [shown,List.length_nil] at size
    rw [if_neg (by omega)]
    rfl
  | cons primaryKey rest =>
    rw [shown,List.length_cons] at size
    rw [if_pos (by omega),show k.keyMemory.read k.keys = primaryKey :: rest from shown]
    rfl

theorem primaryAEAD_eq_head (fits : Fits k.aeadMemory k.aeads) : k.primaryAEAD = .ok k.aeadList.head? := by
  have size : k.aeadList.length = k.aeads.len := length_read fits
  unfold Ring.primaryAEAD element Memory.index
  cases shown : k.aeadList with
  | nil =>
    rw [shown,List.length_nil] at size
    rw [if_pos size.symm]
    rfl
  | cons first rest =>
    rw [shown,List.length_cons] at size
    rw [if_neg (by omega),show k.aeadMemory.read k.aeads = first :: rest from shown]
    rfl

variable (grow : Nat → Nat)

theorem addKey_new (sound : Sound k) (size : Valid key) (new : ¬ k.holds key = true) :
    ∃ k', k.addKey grow key = .ok (k',none) ∧ Installs (k.keyMemory.append grow k.keys [key]).1 k.aeadMemory
      (installed (k.keyList ++ [key]) (k.keyList.head?.getD key)) k' := by
  have fits := sound.keyFits
  have still : (k.keyMemory.append grow k.keys [key]).1.read k.keys = k.keyList :=
    read_append_other grow [key] fits fits (fun _ => Nat.le_refl _)
  have appended : (k.keyMemory.append grow k.keys [key]).1.read (k.keyMemory.append grow k.keys [key]).2 = k.keyList ++ [key] :=
    read_append grow [key] fits
  have primary : Ring.getPrimaryKeyLocked { k with keyMemory := (k.keyMemory.append grow k.keys [key]).1 } =
      .ok k.keyList.head? := by
    rw [getPrimaryKeyLocked_eq (fits_append_other grow [key] fits fits)]
    exact congrArg (fun l => Except.ok l.head?) still
  have valid : ∀ x ∈ installed (k.keyList ++ [key]) (k.keyList.head?.getD key), Valid x := by
    intro x member
    have listed : x ∈ k.keyList ∨ x = key := by
      rcases mem_installed.mp member with rfl | later
      · cases shown : k.keyList with
        | nil => exact .inr rfl
        | cons first rest => exact .inl List.mem_cons_self
      · rcases List.mem_append.mp later with old | single
        · exact .inl old
        · exact .inr (List.mem_singleton.mp single)
    rcases listed with old | rfl
    · exact sound.valid x old
    · exact size
  obtain ⟨k',made,installs⟩ := installKeysLocked_spec grow
    (k := { k with keyMemory := (k.keyMemory.append grow k.keys [key]).1 }) (appended ▸ valid)
  rw [appended] at installs
  refine ⟨k',?_,installs⟩
  unfold Ring.addKey
  rw [if_neg (not_not.mpr size),if_neg new]
  simp only [primary,bind,Except.bind]
  rw [made]
  rfl

theorem useKey_held (sound : Sound k) (member : k.holds key = true) :
    ∃ k', k.useKey grow key = .ok (k',none) ∧ Installs k.keyMemory k.aeadMemory (installed k.keyList key) k' := by
  have valid : ∀ x ∈ installed k.keyList key, Valid x := by
    intro x listed
    rcases mem_installed.mp listed with rfl | old
    · exact sound.valid x (holds_iff.mp member)
    · exact sound.valid x old
  obtain ⟨k',made,installs⟩ := installKeysLocked_spec grow valid
  refine ⟨k',?_,installs⟩
  unfold Ring.useKey
  rw [if_pos member]
  simp only [bind,Except.bind,made]
  rfl

/-- The turns of the loop of `RemoveKey` that do not come upon the key do nothing. -/
theorem foldlM_removeAt {ranged : Window} {is : List Nat}
    (others : ∀ i ∈ is, ∃ x, (k.keyMemory.read ranged)[i]? = some x ∧ x ≠ key) :
    is.foldlM (Ring.removeAt grow key ranged) k = .ok k := by
  induction is with
  | nil => rfl
  | cons i is ih =>
    obtain ⟨x,here,other⟩ := others i List.mem_cons_self
    have skipped : Ring.removeAt grow key ranged k i = .ok k := by
      simp only [Ring.removeAt,element,Memory.index,here,Option.elim_some,bind,Except.bind,if_neg other]
      rfl
    rw [List.foldlM_cons,skipped]
    exact ih (fun j later => others j (List.mem_cons_of_mem i later))

/-- The turn that comes upon the key shifts the array of the ring down by one and installs
    what is left. -/
theorem removeAt_found (sound : Sound k) {primaryKey : Bytes} {before after : List Bytes}
    (shown : k.keyList = primaryKey :: before ++ key :: after) :
    ∃ k', Ring.removeAt grow key k.keys k (before.length + 1) = .ok k' ∧
      Installs (k.keyMemory.write k.keys (before.length + 1) after) k.aeadMemory (primaryKey :: before ++ after) k' := by
  have fits := sound.keyFits
  have size := length_keyList fits
  have read : k.keyMemory.read k.keys = primaryKey :: before ++ key :: after := shown
  have length : k.keys.len = before.length + 1 + (after.length + 1) := by
    rw [← size,shown,List.length_append,List.length_cons,List.length_cons]
  have room := fits.room
  let front : Window := ⟨k.keys.array,k.keys.start + 0,before.length + 1 - 0,k.keys.cap - 0⟩
  let back : Window := ⟨k.keys.array,k.keys.start + (before.length + 1 + 1),k.keys.len - (before.length + 1 + 1),
    k.keys.cap - (before.length + 1 + 1)⟩
  have found : element k.keyMemory k.keys (before.length + 1) = .ok key := by
    have here : (k.keyMemory.read k.keys)[before.length + 1]? = some key := by
      rw [read]
      simp
    rw [element,Memory.index,here]
    rfl
  have cutFront : k.keys.sub 0 (before.length + 1) = some front := if_pos ⟨Nat.zero_le _,by omega⟩
  have cutBack : k.keys.sub (before.length + 1 + 1) k.keys.len = some back := if_pos ⟨by omega,room⟩
  have readFront : k.keyMemory.read front = primaryKey :: before := by
    rw [read_sub k.keyMemory cutFront (by omega),read,List.drop_zero]
    exact List.take_left' rfl
  have readBack : k.keyMemory.read back = after := by
    have behind : (primaryKey :: before ++ key :: after).drop (before.length + 1 + 1) = after := by simp
    rw [read_sub k.keyMemory cutBack (Nat.le_refl _),read,behind,List.take_of_length_le (by omega)]
  have inPlace : k.keyMemory.append grow front after =
      (k.keyMemory.write k.keys (before.length + 1) after,{ front with len := before.length + 1 - 0 + after.length }) := by
    rw [Memory.append,if_pos (by simp only [front]; omega)]
    rfl
  have joined := read_append grow after (fits_sub fits cutFront (by omega))
  rw [inPlace,readFront] at joined
  have shifted : (k.keyMemory.write k.keys (before.length + 1) after).read k.keys =
      overwrite (primaryKey :: before ++ key :: after) (before.length + 1) after := by
    rw [read_write fits (by omega),read]
  have primary : element (k.keyMemory.write k.keys (before.length + 1) after) k.keys 0 = .ok primaryKey := by
    rw [element,Memory.index,shifted]
    rfl
  have rest : (primaryKey :: (before ++ after)).Nodup := by
    have distinct := sound.distinct
    rw [shown] at distinct
    exact distinct.sublist (List.Sublist.append_left (List.sublist_cons_self key after) (primaryKey :: before))
  have same : installed (primaryKey :: before ++ after) primaryKey = primaryKey :: before ++ after := installed_head rest
  have valid : ∀ x ∈ primaryKey :: before ++ after, Valid x := by
    intro x member
    refine sound.valid x ?_
    rw [shown]
    exact (List.Sublist.append_left (List.sublist_cons_self key after) (primaryKey :: before)).subset member
  let shorter : Ring := { k with keyMemory := k.keyMemory.write k.keys (before.length + 1) after }
  let keys : Window := { front with len := before.length + 1 - 0 + after.length }
  have left : installed (shorter.keyMemory.read keys) primaryKey = primaryKey :: before ++ after := by rw [joined,same]
  obtain ⟨k',made,installs⟩ := installKeysLocked_spec grow (left.symm ▸ valid)
  rw [left] at installs
  refine ⟨k',?_,installs⟩
  unfold Ring.removeAt subslice
  simp only [found,cutFront,cutBack,readBack,inPlace,primary,bind,Except.bind,if_true,Option.elim_some]
  exact made

/-- The shifted array does not show the key behind the index where it was. -/
theorem shifted_other {primaryKey : Bytes} {before after : List Bytes}
    (distinct : (primaryKey :: before ++ key :: after).Nodup) {i : Nat} (behind : before.length + 1 < i)
    (within : i < (primaryKey :: before ++ key :: after).length) :
    ∃ x, (overwrite (primaryKey :: before ++ key :: after) (before.length + 1) after)[i]? = some x ∧ x ≠ key := by
  have later : key ∉ after := (List.nodup_cons.mp (List.nodup_append.mp distinct).2.1).1
  have total : (primaryKey :: before ++ key :: after).length = before.length + 1 + (after.length + 1) := by
    rw [List.length_append,List.length_cons,List.length_cons]
  rw [getElem?_overwrite (by omega),if_neg (by omega)]
  by_cases moved : i < before.length + 1 + after.length
  · rw [if_pos moved,List.getElem?_eq_getElem (show i - (before.length + 1) < after.length by omega)]
    exact ⟨_,rfl,fun wrong => later (wrong ▸ List.getElem_mem _)⟩
  · -- the last key is still where it was
    have front : (primaryKey :: before).length ≤ i := by
      rw [List.length_cons]
      omega
    have index : i - (primaryKey :: before).length = after.length := by
      rw [List.length_cons]
      omega
    rw [if_neg moved,List.getElem?_append_right front,index]
    cases after with
    | nil => simp only [List.length_nil] at *; omega
    | cons next others =>
      rw [List.length_cons,List.getElem?_cons_succ,List.getElem?_eq_getElem (show others.length < (next :: others).length by simp)]
      exact ⟨_,rfl,fun wrong => later (wrong ▸ List.getElem_mem _)⟩

theorem removeKey_inner (sound : Sound k) {primaryKey : Bytes} {before after : List Bytes}
    (shown : k.keyList = primaryKey :: before ++ key :: after) :
    ∃ k', k.removeKey grow key = .ok (k',none) ∧
      Installs (k.keyMemory.write k.keys (before.length + 1) after) k.aeadMemory (primaryKey :: before ++ after) k' := by
  have fits := sound.keyFits
  have distinct := sound.distinct
  have read : k.keyMemory.read k.keys = primaryKey :: before ++ key :: after := shown
  rw [shown] at distinct
  have ahead : key ∉ primaryKey :: before := fun member => (List.nodup_append.mp distinct).2.2 key member key List.mem_cons_self rfl
  have total : k.keys.len = before.length + 1 + (1 + after.length) := by
    rw [← length_keyList fits,shown,List.length_append,List.length_cons,List.length_cons,Nat.add_comm 1]
  obtain ⟨k',found,installs⟩ := removeAt_found grow sound shown
  have first : element k.keyMemory k.keys 0 = .ok primaryKey := by
    rw [element,Memory.index,read]
    rfl
  have passed : (List.range (before.length + 1)).foldlM (Ring.removeAt grow key k.keys) k = .ok k := by
    refine foldlM_removeAt grow (fun i member => ?_)
    have inside : i < (primaryKey :: before).length := List.mem_range.mp member
    rw [read,List.getElem?_append_left inside,List.getElem?_eq_getElem inside]
    exact ⟨_,rfl,fun wrong => ahead (wrong ▸ List.getElem_mem _)⟩
  have finished : ((List.range after.length).map (fun i => before.length + 1 + (1 + i))).foldlM (Ring.removeAt grow key k.keys) k' =
      .ok k' := by
    refine foldlM_removeAt grow (fun i member => ?_)
    obtain ⟨j,below,rfl⟩ := List.mem_map.mp member
    have inside := List.mem_range.mp below
    have known : k.keys.array < (k.keyMemory.write k.keys (before.length + 1) after).arrays.length := by
      rw [Memory.write,List.length_set]
      exact fits.known
    rw [read_of_keeps installs.keyKeeps known,read_write fits (by omega),read]
    exact shifted_other distinct (by omega) (by rw [← read,length_read fits]; omega)
  refine ⟨k',?_,installs⟩
  have other : primaryKey ≠ key := fun wrong => ahead (wrong ▸ List.mem_cons_self)
  have turns : ∀ i n, List.range (i + (1 + n)) = List.range i ++ i :: (List.range n).map (fun j => i + (1 + j)) := by
    intro i n
    rw [List.range_add,List.range_add,List.map_append,List.map_map]
    rfl
  unfold Ring.removeKey
  rw [total,turns,List.foldlM_append,passed]
  simp only [first,bind,Except.bind,if_neg other,List.foldlM_cons,found,finished]
  rfl

end

/-- Every outcome of a call, with what the code has found by then. -/
inductive Effect (grow : Nat → Nat) (k : Ring) : Call → Except Panic (Ring × Option KeyringError) → Prop
  | invalid {key : Bytes} (size : ¬ Valid key) : Effect grow k (.addKey key) (.ok (k,some .keySize))
  | present {key : Bytes} (size : Valid key) (member : key ∈ k.keyList) : Effect grow k (.addKey key) (.ok (k,none))
  | add {key : Bytes} {k' : Ring} (size : Valid key) (new : key ∉ k.keyList)
      (installs : Installs (k.keyMemory.append grow k.keys [key]).1 k.aeadMemory
        (installed (k.keyList ++ [key]) (k.keyList.head?.getD key)) k') :
      Effect grow k (.addKey key) (.ok (k',none))
  | unknown {key : Bytes} (new : key ∉ k.keyList) : Effect grow k (.useKey key) (.ok (k,some .notInstalled))
  | use {key : Bytes} {k' : Ring} (member : key ∈ k.keyList)
      (installs : Installs k.keyMemory k.aeadMemory (installed k.keyList key) k') :
      Effect grow k (.useKey key) (.ok (k',none))
  | crash {key : Bytes} (empty : k.keyList = []) : Effect grow k (.removeKey key) (.error .outOfRange)
  | primary {key : Bytes} {rest : List Bytes} (shown : k.keyList = key :: rest) :
      Effect grow k (.removeKey key) (.ok (k,some .removePrimary))
  | absent {key primaryKey : Bytes} {rest : List Bytes} (shown : k.keyList = primaryKey :: rest) (new : key ∉ k.keyList) :
      Effect grow k (.removeKey key) (.ok (k,none))
  | remove {key primaryKey : Bytes} {before after : List Bytes} {k' : Ring}
      (shown : k.keyList = primaryKey :: before ++ key :: after)
      (installs : Installs (k.keyMemory.write k.keys (before.length + 1) after) k.aeadMemory
        (primaryKey :: before ++ after) k') : Effect grow k (.removeKey key) (.ok (k',none))
  | getKeys : Effect grow k .getKeys (.ok (k,none))
  | getAEADs : Effect grow k .getAEADs (.ok (k,none))
  | getPrimaryKey : Effect grow k .getPrimaryKey (.ok (k,none))
  | primaryAEAD : Effect grow k .primaryAEAD (.ok (k,none))

section
variable (grow : Nat → Nat) {k : Ring}

theorem removeKey_effect (sound : Sound k) (key : Bytes) : Effect grow k (.removeKey key) (k.removeKey grow key) := by
  have size := length_keyList sound.keyFits
  cases shown : k.keyList with
  | nil =>
    have missing : k.removeKey grow key = .error .outOfRange := by
      rw [Ring.removeKey,element,Memory.index,show k.keyMemory.read k.keys = [] from shown]
      rfl
    rw [missing]
    exact .crash shown
  | cons primaryKey rest =>
    have first : element k.keyMemory k.keys 0 = .ok primaryKey := by
      rw [element,Memory.index,show k.keyMemory.read k.keys = primaryKey :: rest from shown]
      rfl
    by_cases same : primaryKey = key
    · subst same
      have refused : k.removeKey grow primaryKey = .ok (k,some .removePrimary) := by
        simp only [Ring.removeKey,first,bind,Except.bind,if_true]
        rfl
      rw [refused]
      exact .primary shown
    by_cases listed : key ∈ rest
    · obtain ⟨before,after,rfl⟩ := List.append_of_mem listed
      obtain ⟨k',removed,installs⟩ := removeKey_inner grow sound shown
      rw [removed]
      exact .remove shown installs
    · have new : key ∉ k.keyList := by
        rw [shown]
        exact List.not_mem_cons_of_ne_of_not_mem (Ne.symm same) listed
      have passed : (List.range k.keys.len).foldlM (Ring.removeAt grow key k.keys) k = .ok k := by
        refine foldlM_removeAt grow (fun i member => ?_)
        have inside : i < k.keyList.length := size ▸ List.mem_range.mp member
        exact ⟨_,List.getElem?_eq_getElem inside,fun wrong => new (wrong ▸ List.getElem_mem _)⟩
      have kept : k.removeKey grow key = .ok (k,none) := by
        simp only [Ring.removeKey,first,bind,Except.bind,if_neg same,passed]
        rfl
      rw [kept]
      exact .absent shown new

theorem call_effect (sound : Sound k) (c : Call) : Effect grow k c (k.call grow c) := by
  cases c with
  | addKey key =>
    by_cases size : Valid key
    · by_cases held : k.holds key = true
      · have kept : k.call grow (.addKey key) = .ok (k,none) := by
          rw [Ring.call,Ring.addKey,if_neg (not_not.mpr size),if_pos held]
          rfl
        rw [kept]
        exact .present size (holds_iff.mp held)
      · obtain ⟨k',added,installs⟩ := addKey_new grow sound size held
        rw [Ring.call,added]
        exact .add size (fun member => held (holds_iff.mpr member)) installs
    · have refused : k.call grow (.addKey key) = .ok (k,some .keySize) := if_pos size
      rw [refused]
      exact .invalid size
  | useKey key =>
    by_cases held : k.holds key = true
    · obtain ⟨k',used,installs⟩ := useKey_held grow sound held
      rw [Ring.call,used]
      exact .use (holds_iff.mp held) installs
    · have refused : k.call grow (.useKey key) = .ok (k,some .notInstalled) := if_neg held
      rw [refused]
      exact .unknown (fun member => held (holds_iff.mpr member))
  | removeKey key => exact removeKey_effect grow sound key
  | getKeys => exact .getKeys
  | getAEADs => exact .getAEADs
  | getPrimaryKey =>
    have read : k.call grow .getPrimaryKey = .ok (k,none) := by
      rw [Ring.call,getPrimaryKeyLocked_eq sound.keyFits]
      rfl
    rw [read]
    exact .getPrimaryKey
  | primaryAEAD =>
    have read : k.call grow .primaryAEAD = .ok (k,none) := by
      rw [Ring.call,primaryAEAD_eq_head sound.aeadFits]
      rfl
    rw [read]
    exact .primaryAEAD

end

/-- What a call makes of the list of keys: a new key comes last, the key to use first, and
    a removed one leaves the others as they are. -/
def Changes (before : List Bytes) : Call → List Bytes → Prop
  | .addKey key,after => Valid key → key ∉ before → after = before ++ [key]
  | .useKey key,after => key ∈ before → after = key :: before.erase key
  | .removeKey key,after => key ∈ before → before.head? ≠ some key → after = before.erase key
  | _,after => after = before

section
variable {key primaryKey : Bytes} {keys before after : List Bytes}

theorem installed_new (distinct : keys.Nodup) (new : key ∉ keys) :
    installed (keys ++ [key]) (keys.head?.getD key) = keys ++ [key] := by
  have apart : (keys ++ [key]).Nodup := List.concat_eq_append ▸ distinct.concat new
  cases keys with
  | nil => exact installed_head apart
  | cons primaryKey rest => exact installed_head apart

theorem installed_held (distinct : keys.Nodup) : installed keys key = key :: keys.erase key := by
  rw [installed,distinct.erase_eq_filter]
  refine congrArg (List.cons key) (List.filter_congr (fun x _ => ?_))
  by_cases same : x = key <;> simp [same]

theorem erase_inner (distinct : (primaryKey :: before ++ key :: after).Nodup) :
    (primaryKey :: before ++ key :: after).erase key = primaryKey :: before ++ after := by
  have ahead : key ∉ primaryKey :: before :=
    fun member => (List.nodup_append.mp distinct).2.2 key member key List.mem_cons_self rfl
  rw [List.erase_append_right _ ahead,List.erase_cons_head]

end

section
variable {grow : Nat → Nat} {k k' : Ring} {c : Call} {err : Option KeyringError}

theorem call_sound (sound : Sound k) (called : k.call grow c = .ok (k',err)) : Sound k' := by
  have effect := call_effect grow sound c
  rw [called] at effect
  cases effect with
  | add size new installs =>
    refine sound_of_installs installs ?_
    rw [installed_new sound.distinct new]
    exact List.concat_eq_append ▸ sound.distinct.concat new
  | use member installs => exact sound_of_installs installs (nodup_installed sound.distinct _)
  | @remove key primaryKey before after k' shown installs =>
    refine sound_of_installs installs (sound.distinct.sublist ?_)
    rw [shown]
    exact List.Sublist.append_left (List.sublist_cons_self key after) (primaryKey :: before)
  | _ => exact sound

theorem call_changes (sound : Sound k) (called : k.call grow c = .ok (k',err)) :
    (err ≠ none → k' = k) ∧ Changes k.keyList c k'.keyList := by
  have effect := call_effect grow sound c
  rw [called] at effect
  cases effect with
  | invalid size => exact ⟨fun _ => rfl,fun valid => absurd valid size⟩
  | present size member => exact ⟨fun _ => rfl,fun _ new => absurd member new⟩
  | add size new installs =>
    refine ⟨fun failed => absurd rfl failed,fun _ _ => ?_⟩
    rw [installs.keyList,installed_new sound.distinct new]
  | unknown new => exact ⟨fun _ => rfl,fun member => absurd member new⟩
  | use member installs =>
    refine ⟨fun failed => absurd rfl failed,fun _ => ?_⟩
    rw [installs.keyList,installed_held sound.distinct]
  | primary shown => exact ⟨fun _ => rfl,fun _ other => absurd (shown ▸ rfl) other⟩
  | absent shown new => exact ⟨fun _ => rfl,fun member => absurd member new⟩
  | remove shown installs =>
    refine ⟨fun failed => absurd rfl failed,fun _ _ => ?_⟩
    rw [installs.keyList,shown,erase_inner (shown ▸ sound.distinct)]
  | _ => exact ⟨fun _ => rfl,rfl⟩

/-- A ring with keys has keys after every call. -/
theorem call_filled (sound : Sound k) (filled : k.keyList ≠ []) (called : k.call grow c = .ok (k',err)) : k'.keyList ≠ [] := by
  have effect := call_effect grow sound c
  rw [called] at effect
  cases effect with
  | add size new installs =>
    rw [installs.keyList]
    exact List.cons_ne_nil _ _
  | use member installs =>
    rw [installs.keyList]
    exact List.cons_ne_nil _ _
  | remove shown installs =>
    rw [installs.keyList]
    exact List.cons_ne_nil _ _
  | _ => exact filled

/-- Only the removal of a key from an empty ring panics. -/
theorem call_panics_iff (sound : Sound k) (p : Panic) :
    k.call grow c = .error p ↔ p = .outOfRange ∧ (∃ key, c = .removeKey key) ∧ k.keyList = [] := by
  have effect := call_effect grow sound c
  constructor
  · intro panics
    rw [panics] at effect
    cases effect with
    | crash empty => exact ⟨rfl,⟨_,rfl⟩,empty⟩
  · rintro ⟨rfl,⟨key,rfl⟩,empty⟩
    generalize k.call grow (.removeKey key) = result at effect
    cases effect with
    | crash => rfl
    | primary shown => rw [empty] at shown; cases shown
    | absent shown => rw [empty] at shown; cases shown
    | remove shown => rw [empty] at shown; cases shown

end

section
variable {grow : Nat → Nat} {k k' : Ring} {keys : List Bytes} {primaryKey : Bytes}

theorem sound_after (k : Ring) (c : Call) (sound : Sound k) : Sound (k.after grow c) := by
  unfold Ring.after
  cases called : k.call grow c with
  | ok result => exact call_sound sound called
  | error p => exact sound

theorem filled_after (k : Ring) (c : Call) (inv : Sound k ∧ k.keyList ≠ []) :
    Sound (k.after grow c) ∧ (k.after grow c).keyList ≠ [] := by
  refine ⟨sound_after k c inv.1,?_⟩
  unfold Ring.after
  cases called : k.call grow c with
  | ok result => exact call_filled inv.1 inv.2 called
  | error p => exact inv.2

/-- `NewKeyring` adds the keys one by one, without a panic. -/
theorem addKeys_sound (keys : List Bytes) (sound : Sound k) :
    ∃ made, addKeys grow keys k = .ok made ∧ ∀ k', made = .ok k' → Sound k' ∧ (k.keyList ≠ [] → k'.keyList ≠ []) := by
  induction keys generalizing k with
  | nil =>
    refine ⟨.ok k,rfl,?_⟩
    rintro k' ⟨⟩
    exact ⟨sound,id⟩
  | cons key keys ih =>
    cases called : k.addKey grow key with
    | error p =>
      obtain ⟨-,⟨_,isRemoval⟩,-⟩ := (call_panics_iff sound p).mp (show k.call grow (.addKey key) = .error p from called)
      cases isRemoval
    | ok result =>
      obtain ⟨next,err⟩ := result
      have added : k.call grow (.addKey key) = .ok (next,err) := called
      cases err with
      | none =>
        obtain ⟨made,rest,good⟩ := ih (call_sound sound added)
        refine ⟨made,?_,fun k' same => ⟨(good k' same).1,fun filled => (good k' same).2 (call_filled sound filled added)⟩⟩
        simp only [addKeys,called,bind,Except.bind]
        exact rest
      | some err =>
        refine ⟨.error err,?_,fun k' wrong => by cases wrong⟩
        simp only [addKeys,called,bind,Except.bind]
        rfl

theorem newKeyring_sound (grow : Nat → Nat) (keys : List Bytes) (primaryKey : Bytes) :
    ∃ made, newKeyring grow keys primaryKey = .ok made ∧ ∀ k, made = .ok k → Sound k := by
  unfold newKeyring
  split_ifs
  · refine ⟨_,rfl,fun k wrong => by cases wrong⟩
  · obtain ⟨made,added,good⟩ := addKeys_sound (primaryKey :: keys) sound_init
    exact ⟨made,added,fun k same => (good k same).1⟩
  · refine ⟨_,rfl,?_⟩
    rintro k ⟨⟩
    exact sound_init

theorem newKeyring_filled (valid : Valid primaryKey) (made : newKeyring grow keys primaryKey = .ok (.ok k)) :
    Sound k ∧ k.keyList ≠ [] := by
  have long : 0 < primaryKey.length := by
    unfold Valid at valid
    omega
  unfold newKeyring at made
  rw [if_pos (.inr long),if_neg (by omega)] at made
  have effect := call_effect grow sound_init (.addKey primaryKey)
  cases called : Ring.init.call grow (.addKey primaryKey) with
  | error p =>
    obtain ⟨-,⟨_,isRemoval⟩,-⟩ := (call_panics_iff sound_init p).mp called
    cases isRemoval
  | ok result =>
    obtain ⟨next,err⟩ := result
    rw [called] at effect
    cases effect with
    | invalid size => exact absurd valid size
    | present size member => exact absurd member List.not_mem_nil
    | add size new installs =>
      have filled : next.keyList ≠ [] := by
        rw [installs.keyList]
        exact List.cons_ne_nil _ _
      obtain ⟨rest,added,good⟩ := addKeys_sound keys (call_sound sound_init called)
      have first : Ring.init.addKey grow primaryKey = .ok (next,none) := called
      simp only [addKeys,first,bind,Except.bind] at made
      rw [added] at made
      obtain ⟨sound,kept⟩ := good k (Except.ok.inj made)
      exact ⟨sound,kept filled⟩

/-- After any calls on a ring made with a valid primary key, the keys are distinct and
    valid and the ciphers are theirs, one by one. No call panics, one that fails changes
    nothing, and the others keep the primary key and the order of the keys as far as they
    are not about them. -/
theorem keyring_invariant (grow : Nat → Nat) {keys : List Bytes} {primaryKey : Bytes} {k : Ring} (valid : Valid primaryKey)
    (made : newKeyring grow keys primaryKey = .ok (.ok k)) (calls : List Call) :
    let k := run (Ring.after grow) k calls
    (k.keyList.Nodup ∧ (∀ key ∈ k.keyList, Valid key) ∧ k.aeadList.length = k.keyList.length ∧
      ∀ i : Nat, k.aeadList[i]? = k.keyList[i]?.bind newAEAD) ∧
    ∀ c, ∃ k' err, k.call grow c = .ok (k',err) ∧ (err ≠ none → k' = k) ∧ Changes k.keyList c k'.keyList := by
  intro k
  obtain ⟨sound,filled⟩ : Sound k ∧ k.keyList ≠ [] := run_keeps filled_after (newKeyring_filled valid made) calls
  refine ⟨⟨sound.distinct,sound.valid,?_,fun i => ?_⟩,fun c => ?_⟩
  · rw [sound.ciphers,List.length_map]
  · rw [sound.ciphers,List.getElem?_map]
    cases here : k.keyList[i]? with
    | none => rfl
    | some key => exact (if_pos (sound.valid key (List.mem_of_getElem? here))).symm
  · cases called : k.call grow c with
    | error p => exact absurd ((call_panics_iff sound p).mp called).2.2 filled
    | ok result => exact ⟨result.1,result.2,rfl,call_changes sound called⟩

/-- A third key. -/
def spareKey : Bytes := List.replicate 24 3

/-- A ring of three keys, of which the second is removed. -/
theorem keyring_invariant_removed :
    ∃ k, newKeyring (fun n => 2 * n) [newKey,spareKey] oldKey = .ok (.ok k) ∧ k.keyList = [oldKey,newKey,spareKey] ∧
      ∃ k' err, k.call (fun n => 2 * n) (.removeKey newKey) = .ok (k',err) ∧ k'.keyList = [oldKey,spareKey] := by
  obtain ⟨k,made,shown⟩ : ∃ k, newKeyring (fun n => 2 * n) [newKey,spareKey] oldKey = .ok (.ok k) ∧
      k.keyList = [oldKey,newKey,spareKey] := ⟨_,rfl,rfl⟩
  obtain ⟨k',err,called,-,changes⟩ := (keyring_invariant _ (by decide) made []).2 (.removeKey newKey)
  refine ⟨k,made,shown,k',err,called,(changes ?_ ?_).trans ?_⟩
  · rw [show (run (Ring.after _) k []).keyList = _ from shown]
    decide
  · rw [show (run (Ring.after _) k []).keyList = _ from shown]
    decide
  · rw [show (run (Ring.after _) k []).keyList = _ from shown]
    decide

/-- On any ring that `NewKeyring` makes and after any calls, a call panics exactly if it
    removes a key from a ring that has none, and then with an index out of range. The
    making of a ring does not panic. -/
theorem keyring_panics_iff (grow : Nat → Nat) (keys : List Bytes) (primaryKey : Bytes) :
    (∀ p, newKeyring grow keys primaryKey ≠ .error p) ∧
    ∀ k, newKeyring grow keys primaryKey = .ok (.ok k) → ∀ (calls : List Call) (c : Call) (p : Panic),
      let k := run (Ring.after grow) k calls
      k.call grow c = .error p ↔ p = .outOfRange ∧ (∃ key, c = .removeKey key) ∧ k.keyList = [] := by
  obtain ⟨result,made,good⟩ := newKeyring_sound grow keys primaryKey
  refine ⟨fun p wrong => (by rw [made] at wrong; cases wrong),?_⟩
  intro k ring calls c p last
  have sound : Sound last := run_keeps sound_after (good k (Except.ok.inj (made.symm.trans ring))) calls
  exact call_panics_iff sound p

/-- The ring that disables encryption, and the removal of a key from it. -/
theorem removeKey_panics :
    newKeyring id [] [] = .ok (.ok .init) ∧ Ring.init.call id (.removeKey oldKey) = .error .outOfRange := ⟨rfl,rfl⟩

/-- A ring that has a key does not panic, whatever is removed. -/
theorem keyring_panics_iff_single :
    ∃ k, newKeyring id [] oldKey = .ok (.ok k) ∧ k.keyList = [oldKey] ∧ ∀ p, k.call id (.removeKey newKey) ≠ .error p := by
  obtain ⟨k,made,shown⟩ : ∃ k, newKeyring id [] oldKey = .ok (.ok k) ∧ k.keyList = [oldKey] := ⟨_,rfl,rfl⟩
  refine ⟨k,made,shown,fun p panics => ?_⟩
  have empty := (((keyring_panics_iff id [] oldKey).2 k made [] (.removeKey newKey) p).mp panics).2.2
  rw [show (run (Ring.after id) k []).keyList = _ from shown] at empty
  cases empty

end

/-- The slices of the ring show the keys of the list model. -/
structure Represents (k : Ring) (ring : Keyring) : Prop where
  sound : Sound k
  keys : k.keyList = ring.keys

/-- The calls on the list model. -/
def callList (ring : Keyring) : Call → Except KeyringError Keyring
  | .addKey key => ring.addKey key
  | .useKey key => ring.useKey key
  | .removeKey key => ring.removeKey key
  | _ => .ok ring

section
variable {grow : Nat → Nat} {k : Ring} {ring : Keyring}

theorem removeKey_nil {key : Bytes} (empty : ring.keys = []) : ring.removeKey key = .error .outOfRange := by
  unfold Keyring.removeKey
  split
  · rfl
  · next keys => rw [empty] at keys; cases keys

theorem removeKey_primary {key : Bytes} {rest : List Bytes} (shown : ring.keys = key :: rest) :
    ring.removeKey key = .error .removePrimary := by
  unfold Keyring.removeKey
  split
  · next keys => rw [shown] at keys; cases keys
  · next primaryKey rest' keys =>
    obtain ⟨rfl,rfl⟩ := List.cons.inj (shown.symm.trans keys)
    exact dif_neg (not_not.mpr rfl)

theorem removeKey_other {key primaryKey : Bytes} {rest : List Bytes} (shown : ring.keys = primaryKey :: rest)
    (other : key ≠ primaryKey) : ∃ ring', ring.removeKey key = .ok ring' ∧ ring'.keys = removed key (primaryKey :: rest) := by
  unfold Keyring.removeKey
  split
  · next keys => rw [shown] at keys; cases keys
  · next primaryKey' rest' keys =>
    obtain ⟨rfl,rfl⟩ := List.cons.inj (shown.symm.trans keys)
    rw [dif_pos other]
    exact ⟨_,rfl,rfl⟩

/-- A call on slices does what the call on the list of keys does. -/
theorem call_refines (rep : Represents k ring) (c : Call) :
    match callList ring c with
    | .ok ring' => ∃ k', k.call grow c = .ok (k',none) ∧ Represents k' ring'
    | .error .outOfRange => k.call grow c = .error .outOfRange
    | .error err => k.call grow c = .ok (k,some err) := by
  have effect := call_effect grow rep.sound c
  have keys := rep.keys
  have again : ∀ {k'}, k.call grow c = .ok (k',none) → Sound k' := fun called => call_sound rep.sound called
  generalize result : k.call grow c = outcome at effect again
  cases effect with
  | invalid size => simp only [callList,Keyring.addKey,dif_neg size]
  | present size member =>
    have held : ring.holds _ = true := Keyring.holds_iff.mpr (keys ▸ member)
    simp only [callList,Keyring.addKey,dif_pos size,dif_pos held]
    exact ⟨k,rfl,rep⟩
  | @add key k' size new installs =>
    have fresh : ¬ ring.holds key = true := fun held => new (keys ▸ Keyring.holds_iff.mp held)
    simp only [callList,Keyring.addKey,dif_pos size,dif_neg fresh]
    exact ⟨k',rfl,again rfl,by rw [installs.keyList,keys]; rfl⟩
  | unknown new =>
    have fresh : ¬ ring.holds _ = true := fun held => new (keys ▸ Keyring.holds_iff.mp held)
    simp only [callList,Keyring.useKey,dif_neg fresh]
  | @use key k' member installs =>
    have held : ring.holds key = true := Keyring.holds_iff.mpr (keys ▸ member)
    simp only [callList,Keyring.useKey,dif_pos held]
    exact ⟨k',rfl,again rfl,by rw [installs.keyList,keys]; rfl⟩
  | crash empty =>
    rw [callList,removeKey_nil (keys ▸ empty)]
  | primary shown =>
    rw [callList,removeKey_primary (keys ▸ shown)]
  | @absent key primaryKey rest shown new =>
    rw [keys] at shown
    rw [keys,shown] at new
    have other : key ≠ primaryKey := fun wrong => new (wrong ▸ List.mem_cons_self)
    obtain ⟨ring',gone,left⟩ := removeKey_other shown other
    rw [callList,gone]
    exact ⟨k,rfl,rep.sound,by rw [keys,left,removed_absent new,shown]⟩
  | @remove key primaryKey before after k' shown installs =>
    rw [keys] at shown
    have distinct : (primaryKey :: before ++ key :: after).Nodup := shown ▸ ring.distinct
    have other : key ≠ primaryKey := by
      rintro rfl
      exact (List.nodup_cons.mp distinct).1 (List.mem_append_right before List.mem_cons_self)
    obtain ⟨ring',gone,left⟩ := removeKey_other shown other
    rw [callList,gone]
    exact ⟨k',rfl,again rfl,installs.keyList.trans ((removed_split distinct).symm.trans left.symm)⟩
  | getKeys => exact ⟨k,rfl,rep⟩
  | getAEADs => exact ⟨k,rfl,rep⟩
  | getPrimaryKey => exact ⟨k,rfl,rep⟩
  | primaryAEAD => exact ⟨k,rfl,rep⟩

theorem addKeys_refines (rep : Represents k ring) (keys : List Bytes) :
    match keys.foldlM Keyring.addKey ring with
    | .ok ring' => ∃ k', addKeys grow keys k = .ok (.ok k') ∧ Represents k' ring'
    | .error err => addKeys grow keys k = .ok (.error err) := by
  induction keys generalizing k ring with
  | nil => exact ⟨k,rfl,rep⟩
  | cons key keys ih =>
    have step : match ring.addKey key with
        | .ok ring' => ∃ k', k.addKey grow key = .ok (k',none) ∧ Represents k' ring'
        | .error err => k.addKey grow key = .ok (k,some err) := by
      have first : match callList ring (.addKey key) with
          | .ok ring' => ∃ k', k.call grow (.addKey key) = .ok (k',none) ∧ Represents k' ring'
          | .error .outOfRange => k.call grow (.addKey key) = .error .outOfRange
          | .error err => k.call grow (.addKey key) = .ok (k,some err) := call_refines rep (.addKey key)
      have sized : ∀ err, ring.addKey key = .error err → err = .keySize := by
        intro err failed
        unfold Keyring.addKey at failed
        split_ifs at failed
        exact (Except.error.inj failed).symm
      cases added : ring.addKey key with
      | ok ring' =>
        rw [callList,added] at first
        exact first
      | error err =>
        obtain rfl := sized err added
        rw [callList,added] at first
        exact first
    rw [List.foldlM_cons]
    cases added : ring.addKey key with
    | error err =>
      rw [added] at step
      simp only [addKeys,step,bind,Except.bind]
      rfl
    | ok ring' =>
      rw [added] at step
      obtain ⟨k',called,rep'⟩ := step
      simp only [addKeys,called,bind,Except.bind]
      exact ih rep'

/-- A ring is made on slices as it is on the list of keys. -/
theorem newKeyring_refines (grow : Nat → Nat) (keys : List Bytes) (primaryKey : Bytes) :
    match Keyrings.newKeyring keys primaryKey with
    | .ok ring => ∃ k, newKeyring grow keys primaryKey = .ok (.ok k) ∧ Represents k ring
    | .error err => newKeyring grow keys primaryKey = .ok (.error err) := by
  have start : Represents .init .empty := ⟨sound_init,rfl⟩
  unfold Keyrings.newKeyring newKeyring
  by_cases blank : keys = [] ∧ primaryKey = []
  · rw [if_pos blank,if_neg (by simp [blank])]
    exact ⟨_,rfl,start⟩
  have given : 0 < keys.length ∨ 0 < primaryKey.length := by
    rw [List.length_pos_iff,List.length_pos_iff]
    exact Decidable.not_and_iff_not_or_not.mp blank
  rw [if_neg blank,if_pos given]
  by_cases empty : primaryKey = []
  · rw [if_pos empty,if_pos (List.length_eq_zero_iff.mpr empty)]
    rfl
  · rw [if_neg empty,if_neg (fun wrong => empty (List.length_eq_zero_iff.mp wrong))]
    exact addKeys_refines start (primaryKey :: keys)

end

end Mori.Rings
