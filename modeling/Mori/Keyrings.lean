import Mori.Security
import Mori.Machines
import Mathlib.Data.List.Nodup

/-!
The keyring (`keyring.go`) and the rotation of the key of a cluster in stages: the new
key is added everywhere before anybody uses it, and used everywhere before anybody
removes the old one. Throughout, every node can open what any node seals.
-/
namespace Mori.Keyrings
open Function Mori.Net Mori.Security Mori.Machines

/-- Why an operation fails; `outOfRange` is the panic of an access to the first key of
    an empty ring. -/
inductive KeyringError where
  | emptyPrimary
  | keySize
  | notInstalled
  | removePrimary
  | outOfRange
deriving DecidableEq,Repr

/-- `ValidateKey`. -/
def Valid (key : Bytes) : Prop := key.length = 16 ∨ key.length = 24 ∨ key.length = 32

instance (key : Bytes) : Decidable (Valid key) := inferInstanceAs (Decidable (_ ∨ _))

/-- The installed keys, the primary first, and the keys of which the ciphers were made. -/
structure Keyring where
  keys : List Bytes
  aeads : List Bytes
  valid : ∀ key ∈ keys, Valid key
  distinct : keys.Nodup
  made : aeads = keys

/-- What `installKeysLocked` installs. -/
def installed (keys : List Bytes) (primaryKey : Bytes) : List Bytes :=
  primaryKey :: keys.filter (fun key => key ≠ primaryKey)

theorem mem_installed {keys : List Bytes} {primaryKey key : Bytes} :
    key ∈ installed keys primaryKey ↔ key = primaryKey ∨ key ∈ keys := by
  rw [installed,List.mem_cons,List.mem_filter,decide_eq_true_iff]
  constructor
  · rintro (same | ⟨member,-⟩)
    · exact .inl same
    · exact .inr member
  · rintro (same | member)
    · exact .inl same
    · by_cases same : key = primaryKey
      · exact .inl same
      · exact .inr ⟨member,same⟩

theorem nodup_installed {keys : List Bytes} (distinct : keys.Nodup) (primaryKey : Bytes) :
    (installed keys primaryKey).Nodup := by
  refine List.nodup_cons.mpr ⟨?_,distinct.filter _⟩
  rw [List.mem_filter,decide_eq_true_iff]
  exact fun member => member.2 rfl

/-- The primary key is in front already. -/
theorem installed_head {primaryKey : Bytes} {keys : List Bytes} (distinct : (primaryKey :: keys).Nodup) :
    installed (primaryKey :: keys) primaryKey = primaryKey :: keys := by
  have kept : keys.filter (fun key => key ≠ primaryKey) = keys := by
    refine List.filter_eq_self.mpr (fun key member => decide_eq_true ?_)
    rintro rfl
    exact (List.nodup_cons.mp distinct).1 member
  rw [installed,List.filter_cons_of_neg (by simp),kept]

def installKeysLocked (keys : List Bytes) (primaryKey : Bytes) (valid : ∀ key ∈ keys, Valid key)
    (primary : Valid primaryKey) (distinct : keys.Nodup) : Keyring where
  keys := installed keys primaryKey
  aeads := installed keys primaryKey
  valid key member := (mem_installed.mp member).elim (fun same => same ▸ primary) (valid key)
  distinct := nodup_installed distinct primaryKey
  made := rfl

def Keyring.getAEADs (k : Keyring) : List Bytes := k.aeads

def Keyring.primaryAEAD (k : Keyring) : Option Bytes := k.aeads.head?

/-- The loop over the installed keys that looks for one. -/
def Keyring.holds (k : Keyring) (key : Bytes) : Bool := k.keys.any (fun installedKey => installedKey = key)

theorem Keyring.holds_iff {k : Keyring} {key : Bytes} : k.holds key = true ↔ key ∈ k.keys := by
  simp [Keyring.holds]

theorem valid_append {k : Keyring} {key : Bytes} (size : Valid key) : ∀ x ∈ k.keys ++ [key], Valid x := by
  intro x member
  rcases List.mem_append.mp member with old | new
  · exact k.valid x old
  · exact List.mem_singleton.mp new ▸ size

theorem nodup_append {k : Keyring} {key : Bytes} (new : ¬ k.holds key = true) : (k.keys ++ [key]).Nodup :=
  List.nodup_append.mpr ⟨k.distinct,List.nodup_singleton key,fun _ old _ single same =>
    new (Keyring.holds_iff.mpr (List.mem_singleton.mp single ▸ same ▸ old))⟩

theorem valid_held {k : Keyring} {key : Bytes} (member : k.holds key = true) : Valid key :=
  k.valid key (Keyring.holds_iff.mp member)

theorem valid_primary {k : Keyring} {key : Bytes} (size : Valid key) : Valid (k.keys.head?.getD key) := by
  cases keys : k.keys with
  | nil => exact size
  | cons primary _ => exact k.valid primary (keys ▸ List.mem_cons_self)

def Keyring.addKey (k : Keyring) (key : Bytes) : Except KeyringError Keyring :=
  if size : Valid key then
    if present : k.holds key = true then .ok k
    else .ok (installKeysLocked (k.keys ++ [key]) (k.keys.head?.getD key) (valid_append size) (valid_primary size)
      (nodup_append present))
  else .error .keySize

def Keyring.useKey (k : Keyring) (key : Bytes) : Except KeyringError Keyring :=
  if member : k.holds key = true then .ok (installKeysLocked k.keys key k.valid (valid_held member) k.distinct)
  else .error .notInstalled

/-- One turn of the loop of `RemoveKey`, on the array that it goes over and the ring. The
    key is removed in place, which moves the rest of the array down by one. -/
def removeAt (key : Bytes) (s : List Bytes × List Bytes) (i : Nat) : List Bytes × List Bytes :=
  if s.1[i]? = some key then
    (s.1.eraseIdx i ++ s.1.getLast?.toList,installed (s.2.eraseIdx i) (s.2.headD []))
  else s

/-- The loop of `RemoveKey`. -/
def removed (key : Bytes) (keys : List Bytes) : List Bytes :=
  ((List.range keys.length).foldl (removeAt key) (keys,keys)).2

theorem foldl_removeAt {key : Bytes} {s : List Bytes × List Bytes} {is : List Nat} (differs : ∀ i ∈ is, s.1[i]? ≠ some key) :
    is.foldl (removeAt key) s = s := by
  induction is with
  | nil => rfl
  | cons i is ih =>
    rw [List.foldl_cons,removeAt,if_neg (differs i List.mem_cons_self)]
    exact ih (fun j later => differs j (List.mem_cons_of_mem i later))

/-- The loop takes out the key, and does not find it again in the array it has changed. -/
theorem removed_split {key primaryKey : Bytes} {before after : List Bytes}
    (distinct : (primaryKey :: before ++ key :: after).Nodup) :
    removed key (primaryKey :: before ++ key :: after) = primaryKey :: before ++ after := by
  obtain ⟨-,behind,apart⟩ := List.nodup_append.mp distinct
  have ahead : key ∉ primaryKey :: before := fun member => apart key member key List.mem_cons_self rfl
  have later : key ∉ after := (List.nodup_cons.mp behind).1
  have rest : (primaryKey :: (before ++ after)).Nodup := by
    refine distinct.sublist ?_
    exact List.Sublist.append_left (List.sublist_cons_self key after) (primaryKey :: before)
  generalize front : primaryKey :: before = first at distinct ahead apart ⊢
  have total : (first ++ key :: after).length = first.length + 1 + after.length := by
    rw [List.length_append,List.length_cons]
    omega
  have found : removeAt key (first ++ key :: after,first ++ key :: after) first.length =
      (first ++ after ++ (key :: after).getLast?.toList,first ++ after) := by
    have here : (first ++ key :: after)[first.length]? = some key := by simp
    have erased : (first ++ key :: after).eraseIdx first.length = first ++ after := by
      rw [List.eraseIdx_append_of_length_le (Nat.le_refl _),Nat.sub_self]
      rfl
    have last : (first ++ key :: after).getLast? = (key :: after).getLast? := by
      rw [List.getLast?_append,List.getLast?_eq_some_getLast (List.cons_ne_nil key after),Option.some_or]
    have head : (first ++ key :: after).headD [] = primaryKey := by rw [← front]; rfl
    rw [removeAt,if_pos here,erased,last,head,← front]
    exact congrArg (Prod.mk _) (installed_head rest)
  have passed : (List.range first.length).foldl (removeAt key) (first ++ key :: after,first ++ key :: after) =
      (first ++ key :: after,first ++ key :: after) := by
    refine foldl_removeAt (fun i member same => ahead ?_)
    rw [List.getElem?_append_left (List.mem_range.mp member)] at same
    exact List.mem_of_getElem? same
  rw [removed,total,List.range_add,List.range_succ,List.foldl_append,List.foldl_append,List.foldl_cons,List.foldl_nil,
    passed,found,foldl_removeAt]
  -- behind the key the array has the later keys, the last of them twice
  intro i member same
  obtain ⟨t,within,rfl⟩ := List.mem_map.mp member
  cases after with
  | nil => exact absurd (List.mem_range.mp within) (Nat.not_lt_zero t)
  | cons next others =>
    rw [List.append_assoc,List.getElem?_append_right (by omega),List.getLast?_cons_cons] at same
    rcases List.mem_append.mp (List.mem_of_getElem? same) with listed | last
    · exact later listed
    · exact later (List.mem_of_getLast? (Option.mem_toList.mp last))

theorem removed_absent {key : Bytes} {keys : List Bytes} (absent : key ∉ keys) : removed key keys = keys := by
  rw [removed,foldl_removeAt (fun i _ same => absent (List.mem_of_getElem? same))]

/-- What `RemoveKey` leaves of a ring. -/
theorem removed_eq {key primaryKey : Bytes} {keys : List Bytes} (distinct : (primaryKey :: keys).Nodup)
    (other : key ≠ primaryKey) : removed key (primaryKey :: keys) = (primaryKey :: keys).erase key := by
  by_cases listed : key ∈ keys
  · obtain ⟨before,after,rfl⟩ := List.append_of_mem listed
    have ahead : key ∉ primaryKey :: before := by
      intro member
      exact (List.nodup_append.mp distinct).2.2 key member key List.mem_cons_self rfl
    rw [← List.cons_append,removed_split distinct,List.erase_append_right _ ahead,List.erase_cons_head]
  · have absent : key ∉ primaryKey :: keys := by
      rw [List.mem_cons]
      exact fun member => member.elim other listed
    rw [removed_absent absent,List.erase_of_not_mem absent]

theorem mem_removed {key primaryKey x : Bytes} {keys : List Bytes} (distinct : (primaryKey :: keys).Nodup)
    (other : key ≠ primaryKey) : x ∈ removed key (primaryKey :: keys) ↔ x ≠ key ∧ x ∈ primaryKey :: keys := by
  rw [removed_eq distinct other,distinct.mem_erase_iff]

theorem head_removed {key primaryKey : Bytes} {keys : List Bytes} (distinct : (primaryKey :: keys).Nodup)
    (other : key ≠ primaryKey) : (removed key (primaryKey :: keys)).head? = some primaryKey := by
  rw [removed_eq distinct other,List.erase_cons_tail (by simpa using Ne.symm other)]
  rfl

/-- The ring without a key that is not its first. -/
def dropKey (key primaryKey : Bytes) (keys : List Bytes) (valid : ∀ x ∈ primaryKey :: keys, Valid x)
    (distinct : (primaryKey :: keys).Nodup) (other : key ≠ primaryKey) : Keyring where
  keys := removed key (primaryKey :: keys)
  aeads := removed key (primaryKey :: keys)
  valid x member := valid x ((mem_removed distinct other).mp member).2
  distinct := removed_eq distinct other ▸ distinct.erase key
  made := rfl

def Keyring.removeKey (k : Keyring) (key : Bytes) : Except KeyringError Keyring :=
  match keys : k.keys with
  | [] => .error .outOfRange
  | primaryKey :: rest =>
    if other : key ≠ primaryKey then
      .ok (dropKey key primaryKey rest (keys ▸ k.valid) (keys ▸ k.distinct) other)
    else .error .removePrimary

def Keyring.empty : Keyring := ⟨[],[],fun _ member => absurd member List.not_mem_nil,List.nodup_nil,rfl⟩

/-- `NewKeyring`: the primary key is added first. -/
def newKeyring (keys : List Bytes) (primaryKey : Bytes) : Except KeyringError Keyring :=
  if keys = [] ∧ primaryKey = [] then .ok .empty
  else if primaryKey = [] then .error .emptyPrimary
  else (primaryKey :: keys).foldlM Keyring.addKey .empty

section
variable {k k' : Keyring} {key x primaryKey : Bytes}

theorem primaryAEAD_eq (k : Keyring) : k.primaryAEAD = k.keys.head? := by
  rw [Keyring.primaryAEAD,k.made]

theorem getAEADs_eq (k : Keyring) : k.getAEADs = k.keys := k.made

theorem mem_of_primary (primary : k.keys.head? = some primaryKey) : primaryKey ∈ k.keys := List.mem_of_head? primary

theorem addKey_ok (primary : k.keys.head? = some primaryKey) (added : k.addKey key = .ok k') :
    k'.keys.head? = some primaryKey ∧ ∀ x, x ∈ k'.keys ↔ x ∈ k.keys ∨ x = key := by
  unfold Keyring.addKey at added
  split_ifs at added with size present
  · cases added
    refine ⟨primary,fun x => (or_iff_left_of_imp ?_).symm⟩
    rintro rfl
    exact Keyring.holds_iff.mp present
  · cases added
    have first : k.keys.head?.getD key = primaryKey := by rw [primary,Option.getD_some]
    simp only [installKeysLocked,first]
    refine ⟨rfl,fun x => ?_⟩
    rw [mem_installed,List.mem_append,List.mem_singleton]
    refine or_iff_right_of_imp ?_
    rintro rfl
    exact .inl (mem_of_primary primary)

theorem addKey_error {err : KeyringError} (failed : k.addKey key = .error err) : ¬ Valid key := by
  unfold Keyring.addKey at failed
  split_ifs at failed with size
  exact size

theorem useKey_ok (used : k.useKey key = .ok k') :
    key ∈ k.keys ∧ k'.keys.head? = some key ∧ ∀ x, x ∈ k'.keys ↔ x ∈ k.keys := by
  unfold Keyring.useKey at used
  split_ifs at used with held
  cases used
  have member := Keyring.holds_iff.mp held
  refine ⟨member,rfl,fun x => ?_⟩
  simp only [installKeysLocked,mem_installed]
  refine or_iff_right_of_imp ?_
  rintro rfl
  exact member

theorem useKey_error {err : KeyringError} (failed : k.useKey key = .error err) : key ∉ k.keys := by
  unfold Keyring.useKey at failed
  split_ifs at failed with held
  exact fun member => held (Keyring.holds_iff.mpr member)

theorem removeKey_ok (primary : k.keys.head? = some primaryKey) (dropped : k.removeKey key = .ok k') :
    key ≠ primaryKey ∧ k'.keys.head? = some primaryKey ∧ ∀ x, x ∈ k'.keys ↔ x ≠ key ∧ x ∈ k.keys := by
  unfold Keyring.removeKey at dropped
  split at dropped
  · cases dropped
  · next first rest keys =>
    have same : first = primaryKey := by
      rw [keys] at primary
      exact Option.some.inj primary
    subst same
    have distinct : (first :: rest).Nodup := keys ▸ k.distinct
    split_ifs at dropped with other
    cases dropped
    refine ⟨other,head_removed distinct other,fun x => ?_⟩
    have members : x ∈ k.keys ↔ x ∈ first :: rest := by rw [keys]
    exact (mem_removed distinct other).trans (and_congr_right (fun _ => members.symm))

end

/-- A call on the ring of a node: the new key is added or used, or the old one removed. -/
inductive Call where
  | add
  | use
  | remove
deriving DecidableEq,Repr

/-- The rings of the nodes, and which of them have completed the first two calls. -/
structure Rollout (ι : Type) where
  ring : ι → Keyring
  added : ι → Bool := fun _ => false
  used : ι → Bool := fun _ => false

/-- A failed operation leaves the ring as it was. -/
def attempt (k : Keyring) : Except KeyringError Keyring → Keyring
  | .ok k' => k'
  | .error _ => k

section
variable {ι : Type} [DecidableEq ι] (old new : Bytes)

def step (s : Rollout ι) : ι × Call → Rollout ι
  | (i,.add) =>
    { s with ring := update s.ring i (attempt (s.ring i) ((s.ring i).addKey new)), added := update s.added i true }
  | (i,.use) =>
    { s with ring := update s.ring i (attempt (s.ring i) ((s.ring i).useKey new)), used := update s.used i true }
  | (i,.remove) => { s with ring := update s.ring i (attempt (s.ring i) ((s.ring i).removeKey old)) }

/-- The order of the stages. -/
def Staged (s : Rollout ι) : ι × Call → Prop
  | (_,.add) => True
  | (_,.use) => ∀ j, s.added j = true
  | (_,.remove) => ∀ j, s.used j = true

/-- What holds of a ring: it has both keys as far as the stages went, and its primary
    key is the new one only once everybody has that. -/
structure RingOk (allAdded allUsed : Prop) (k : Keyring) (added used : Bool) : Prop where
  primary : k.keys.head? = some old ∨ k.keys.head? = some new ∧ allAdded
  kept : old ∈ k.keys ∨ old ≠ new ∧ Valid new ∧ allUsed
  added : added = true → Valid new → new ∈ k.keys
  used : used = true → Valid new → k.keys.head? = some new

def Inv (s : Rollout ι) : Prop :=
  ∀ i, RingOk old new (∀ j, s.added j = true) (∀ j, s.used j = true) (s.ring i) (s.added i) (s.used i)

end

section
variable {ι : Type} {old new : Bytes} {allAdded allUsed allAdded' allUsed' : Prop} {k : Keyring} {added used : Bool}
  {s : Rollout ι}

theorem ringOk_mono (ok : RingOk old new allAdded allUsed k added used) (more : allAdded → allAdded') (further : allUsed → allUsed') :
    RingOk old new allAdded' allUsed' k added used :=
  { ok with
    primary := ok.primary.imp_right (And.imp_right more)
    kept := ok.kept.imp_right (And.imp_right (And.imp_right further)) }

/-- A ring is never empty. -/
theorem primary_some (ok : RingOk old new allAdded allUsed k added used) : ∃ primaryKey, k.keys.head? = some primaryKey := by
  rcases ok.primary with isOld | ⟨isNew,-⟩
  · exact ⟨old,isOld⟩
  · exact ⟨new,isNew⟩

theorem ringOk_add (ok : RingOk old new allAdded allUsed k added used) :
    RingOk old new allAdded allUsed (attempt k (k.addKey new)) true used := by
  obtain ⟨primaryKey,primary⟩ := primary_some ok
  cases result : k.addKey new with
  | error err => exact ⟨ok.primary,ok.kept,fun _ valid => absurd valid (addKey_error result),ok.used⟩
  | ok k' =>
    obtain ⟨first,members⟩ := addKey_ok primary result
    have same : k'.keys.head? = k.keys.head? := first.trans primary.symm
    refine ⟨same.symm ▸ ok.primary,ok.kept.imp_left (fun member => (members old).mpr (.inl member)),?_,same.symm ▸ ok.used⟩
    exact fun _ _ => (members new).mpr (.inr rfl)

theorem ringOk_use (ok : RingOk old new allAdded allUsed k added used) (all : allAdded) (here : added = true) :
    RingOk old new allAdded allUsed (attempt k (k.useKey new)) added true := by
  cases result : k.useKey new with
  | error err =>
    have invalid : ¬ Valid new := fun valid => useKey_error result (ok.added here valid)
    exact ⟨ok.primary,ok.kept,ok.added,fun _ valid => absurd valid invalid⟩
  | ok k' =>
    obtain ⟨-,first,members⟩ := useKey_ok result
    exact ⟨.inr ⟨first,all⟩,ok.kept.imp_left (members old).mpr,
      fun done valid => (members new).mpr (ok.added done valid),fun _ _ => first⟩

theorem ringOk_remove (ok : RingOk old new allAdded allUsed k added used) (all : allUsed) :
    RingOk old new allAdded allUsed (attempt k (k.removeKey old)) added used := by
  obtain ⟨primaryKey,primary⟩ := primary_some ok
  cases result : k.removeKey old with
  | error err => exact ok
  | ok k' =>
    obtain ⟨other,first,members⟩ := removeKey_ok primary result
    have same : k'.keys.head? = k.keys.head? := first.trans primary.symm
    -- the old key is not the primary one, so that the new one is
    have isNew : k.keys.head? = some new := by
      rcases ok.primary with isOld | ⟨isNew,-⟩
      · exact absurd (Option.some.inj (isOld.symm.trans primary)) other
      · exact isNew
    have apart : old ≠ new := fun wrong => other (wrong.trans (Option.some.inj (isNew.symm.trans primary)))
    have valid : Valid new := k.valid new (mem_of_primary isNew)
    exact ⟨same.symm ▸ ok.primary,.inr ⟨apart,valid,all⟩,
      fun done _ => (members new).mpr ⟨apart.symm,ok.added done valid⟩,same.symm ▸ ok.used⟩

/-- Every primary key is in every ring. -/
theorem installed_everywhere (inv : Inv old new s) {i : ι} {key : Bytes} (primary : (s.ring i).keys.head? = some key) (j : ι) :
    key ∈ (s.ring j).keys := by
  have here := inv i
  rcases here.primary with isOld | ⟨isNew,all⟩
  · cases isOld.symm.trans primary
    refine (inv j).kept.resolve_right ?_
    rintro ⟨apart,valid,all⟩
    exact apart (Option.some.inj (isOld.symm.trans (here.used (all i) valid)))
  · cases isNew.symm.trans primary
    exact (inv j).added (all j) ((s.ring i).valid _ (mem_of_primary isNew))

variable [DecidableEq ι]

theorem all_update {f : ι → Bool} (i : ι) (all : ∀ j, f j = true) : ∀ j, update f i true j = true :=
  (forall_update_iff f (fun _ done => done = true)).mpr ⟨rfl,fun j _ => all j⟩

theorem inv_step (s : Rollout ι) (act : ι × Call) (inv : Inv old new s) (staged : Staged s act) :
    Inv old new (step old new s act) := by
  intro j
  obtain ⟨i,call⟩ := act
  have mine := inv j
  cases call with
  | add =>
    refine ringOk_mono ?_ (all_update i) id
    by_cases same : j = i
    · subst same
      simp only [step,update_self]
      exact ringOk_add mine
    · simp only [step,update_of_ne same]
      exact mine
  | use =>
    refine ringOk_mono ?_ id (all_update i)
    by_cases same : j = i
    · subst same
      simp only [step,update_self]
      exact ringOk_use mine staged (staged j)
    · simp only [step,update_of_ne same]
      exact mine
  | remove =>
    by_cases same : j = i
    · subst same
      simp only [step,update_self]
      exact ringOk_remove mine staged
    · simp only [step,update_of_ne same]
      exact mine

/-- The cipher refuses a payload under all keys of a ring but the one it was sealed with. -/
def Refused (gcm : Gcm) (keys : List Bytes) (key payload data : Bytes) : Prop :=
  ∀ other ∈ keys, other ≠ key → gcm.openWith other (payloadNonce payload) (payloadCipher payload) data = none

theorem foreign_of_refused {gcm : Gcm} {keys : List Bytes} {key payload data : Bytes}
    (refused : Refused gcm keys key payload data) : Foreign gcm keys key payload data := by
  intro other earlier
  have passed := List.all_eq_true.mp List.all_takeWhile other earlier
  exact refused other (List.takeWhile_subset _ earlier) (of_decide_eq_true passed)

/-- In a staged rotation every node opens, at any time, what any node seals. -/
theorem staged_rotation_opens (old new : Bytes) (rings : ι → Keyring) (same : ∀ i, (rings i).primaryAEAD = some old)
    (acts : List (ι × Call)) (staged : Along (step old new) Staged { ring := rings } acts) :
    let s := run (step old new) { ring := rings } acts
    ∀ i j, ∃ key, (s.ring i).primaryAEAD = some key ∧ key ∈ (s.ring j).keys ∧
      ∀ (gcm : Gcm) (vsn : UInt8) (nonce : Nonce) (msg data : Bytes), vsn ≤ maxEncryptionVersion →
        Refused gcm (s.ring j).getAEADs key (sealPayload gcm vsn key nonce msg data) data →
        openPayload gcm (s.ring j).getAEADs (sealPayload gcm vsn key nonce msg data) data = .ok msg := by
  intro s i j
  have start : Inv old new { ring := rings } := by
    intro i
    have primary : (rings i).keys.head? = some old := primaryAEAD_eq (rings i) ▸ same i
    exact ⟨.inl primary,.inl (mem_of_primary primary),fun wrong => absurd wrong Bool.false_ne_true,
      fun wrong => absurd wrong Bool.false_ne_true⟩
  have inv : Inv old new s := along_keeps inv_step start staged
  obtain ⟨key,primary⟩ := primary_some (inv i)
  have member := installed_everywhere inv primary j
  refine ⟨key,(primaryAEAD_eq _).trans primary,member,?_⟩
  intro gcm vsn nonce msg data known refused
  exact openPayload_sealPayload known (getAEADs_eq (s.ring j) ▸ member) (foreign_of_refused refused)

end

def oldKey : Bytes := List.replicate 16 1
def newKey : Bytes := List.replicate 16 2

/-- The ring that `NewKeyring` makes of the old key. -/
def oldRing : Keyring := installKeysLocked [oldKey] oldKey (by decide) (by decide) (by decide)

/-- Two nodes, of which one uses the new key already. -/
def halfway : List (Bool × Call) := [(true,.add),(false,.add),(true,.use),(true,.add)]

theorem staged_rotation_opens_halfway :
    newKeyring [] oldKey = .ok oldRing ∧
      let s := run (step oldKey newKey) { ring := fun _ : Bool => oldRing } halfway
      (s.ring true).primaryAEAD = some newKey ∧ (s.ring false).primaryAEAD = some oldKey ∧
        openPayload summing (s.ring false).getAEADs
          (sealPayload summing 1 newKey ⟨List.replicate nonceSize 0,rfl⟩ [8] []) [] = .ok [8] := by
  refine ⟨rfl,rfl,rfl,?_⟩
  have staged : Along (step oldKey newKey) Staged { ring := fun _ : Bool => oldRing } halfway :=
    ⟨trivial,trivial,fun j => by cases j <;> rfl,trivial,trivial⟩
  obtain ⟨key,primary,-,opens⟩ := staged_rotation_opens oldKey newKey (fun _ : Bool => oldRing) (fun _ => rfl) halfway staged
    true false
  cases primary
  refine opens summing 1 ⟨List.replicate nonceSize 0,rfl⟩ [8] [] (by decide) ?_
  unfold Refused
  decide

end Mori.Keyrings
