import Mathlib.Data.List.Pairwise
import Mori.Fields

/-!
A message as the list of its entries. Every input that is decoded is a header with
entries, each a key and a value that a field accepts or that is skipped, and every such
input is decoded to what its entries set. So entries of unknown keys can be added, entries
with different keys can be reordered and entries whose key comes again can be left out,
without a change to what is decoded or to what follows it.
-/
namespace Mori.Entries
open Mori.Net Mori.Readers Mori.Msgpack Mori.Protocol Mori.Wire Mori.Codecs Mori.Modes Mori.Formats Mori.Fields
set_option linter.unusedSimpArgs false

/-- An entry as it is encoded: its key and the bytes of the key and of the value. -/
structure Item where
  keyBytes : Bytes
  key : Option Bytes
  value : Bytes

def encodeItems (es : List Item) : Bytes := es.flatMap (fun e => e.keyBytes ++ e.value)

theorem encodeItems_cons (e : Item) (es : List Item) :
    encodeItems (e :: es) = e.keyBytes ++ e.value ++ encodeItems es := List.flatMap_cons

section
variable {μ : Type}

/-- What an entry does to a message: a field takes its value, or it is skipped. -/
inductive Effect (table : List (Slot μ)) (e : Item) : (μ → μ) → Prop
  | known {s : Slot μ} {a : s.kind.Value} (listed : s ∈ table) (named : e.key = some (ascii s.name))
      (reads : Reads (s.kind.read : Dec _) e.value a) : Effect table e (fun m => s.set m a)
  | unknown (unnamed : ∀ s ∈ table, e.key ≠ some (ascii s.name)) (reads : Reads (skip : Dec _) e.value ()) :
      Effect table e id

/-- Entries turn one message into another. -/
inductive Applies (table : List (Slot μ)) : μ → List Item → μ → Prop
  | nil (m : μ) : Applies table m [] m
  | cons {m m' : μ} {e : Item} {es : List Item} {f : μ → μ} (key : Key e.keyBytes e.key) (effect : Effect table e f)
      (rest : Applies table (f m) es m') : Applies table m (e :: es) m'

/-- Two fields that have nothing to do with each other. -/
structure Apart (s s' : Slot μ) : Prop where
  names : ascii s.name ≠ ascii s'.name
  commute : ∀ m a b, s'.set (s.set m a) b = s.set (s'.set m b) a
  left : ∀ m b, s.get (s'.set m b) = s.get m
  right : ∀ m a, s'.get (s.set m a) = s'.get m

instance : Std.Symm (Apart (μ := μ)) where
  symm _ _ apart := ⟨apart.names.symm,fun m a b => (apart.commute m b a).symm,apart.right,apart.left⟩

/-- A table of fields: each keeps what was set last, and they are apart. -/
structure Tabled (table : List (Slot μ)) : Prop where
  short : ∀ s ∈ table, 0 < (ascii s.name).length ∧ (ascii s.name).length ≤ maxKeyLen
  overwrite : ∀ s ∈ table, ∀ m a b, s.set (s.set m a) b = s.set m b
  kept : ∀ s ∈ table, ∀ m a, s.get (s.set m a) = a
  apart : table.Pairwise Apart

end

theorem slots_named (t : MessageType) :
    (∀ s ∈ slots t, 0 < (ascii s.name).length ∧ (ascii s.name).length ≤ maxKeyLen) ∧
    ((slots t).map (fun s => ascii s.name)).Nodup := by
  cases t <;> simp only [slots,List.map_cons,List.map_nil,List.forall_mem_cons,List.not_mem_nil,false_imp_iff,
    implies_true,and_true] <;> decide

theorem slots_keep (t : MessageType) :
    ∀ s ∈ slots t, (∀ m a b, s.set (s.set m a) b = s.set m b) ∧ ∀ m a, s.get (s.set m a) = a := by
  cases t <;> simp only [slots,List.forall_mem_cons,List.not_mem_nil,false_imp_iff,implies_true,and_true]

theorem slots_apart (t : MessageType) : (slots t).Pairwise (fun s s' =>
    (∀ m a b, s'.set (s.set m a) b = s.set (s'.set m b) a) ∧ (∀ m b, s.get (s'.set m b) = s.get m) ∧
    ∀ m a, s'.get (s.set m a) = s'.get m) := by
  cases t <;> simp only [slots,List.pairwise_cons,List.Pairwise.nil,List.forall_mem_cons,List.not_mem_nil,false_imp_iff,
    implies_true,and_true]

theorem tabled_slots (t : MessageType) : Tabled (slots t) where
  short := (slots_named t).1
  overwrite s listed := (slots_keep t s listed).1
  kept s listed := (slots_keep t s listed).2
  apart := ((List.pairwise_map.mp (slots_named t).2).and (slots_apart t)).imp
    (fun apart => ⟨apart.1,apart.2.1,apart.2.2.1,apart.2.2.2⟩)

section
variable {μ : Type} {table : List (Slot μ)} {message : String} {m m' : μ} {e e' : Item} {es es₁ es₂ : List Item}
  {f f' : μ → μ} {s s' : Slot μ}

theorem Tabled.apart_of_ne (tabled : Tabled table) (listed : s ∈ table) (listed' : s' ∈ table) (differ : s ≠ s') :
    Apart s s' := tabled.apart.forall listed listed' differ

theorem Tabled.eq_of_name (tabled : Tabled table) (listed : s ∈ table) (listed' : s' ∈ table)
    (same : ascii s.name = ascii s'.name) : s = s' := by
  by_contra differ
  exact (tabled.apart_of_ne listed listed' differ).names same

/-- A key is looked up as a name only if it is that name. -/
theorem Tabled.named_iff (tabled : Tabled table) (listed : s ∈ table) (k : Option Bytes) :
    bytes (shortKey k) = ascii s.name ↔ k = some (ascii s.name) := by
  obtain ⟨some,short⟩ := tabled.short s listed
  have absent : bytes none ≠ ascii s.name := by
    intro same
    rw [← same] at some
    exact absurd some (by decide)
  cases k with
  | none => simp only [shortKey,absent,reduceCtorEq]
  | some k =>
    simp only [shortKey,Option.some.injEq]
    split_ifs with long
    · refine ⟨fun same => absurd same absent,fun same => ?_⟩
      rw [same] at long
      omega
    · rfl

theorem fromSlots_none_iff {k : Bytes} {m : μ} :
    fromSlots (σ := Decoder) table m k = none ↔ ∀ s ∈ table, k ≠ ascii s.name := by
  induction table with
  | nil => simp only [fromSlots,List.not_mem_nil,false_imp_iff,implies_true]
  | cons s table ih =>
    simp only [fromSlots,List.forall_mem_cons]
    split_ifs with named
    · simp only [named,ne_eq,not_true_eq_false,false_and,reduceCtorEq]
    · rw [ih]
      exact ⟨fun others => ⟨named,others⟩,And.right⟩

theorem fromSlots_listed (tabled : Tabled table) (listed : s ∈ table) (m : μ) :
    fromSlots (σ := Decoder) table m (ascii s.name) = some (do return s.set m (← s.kind.read)) := by
  cases known : fromSlots (σ := Decoder) table m (ascii s.name) with
  | none => exact absurd rfl (fromSlots_none_iff.mp known s listed)
  | some decode =>
    obtain ⟨s',listed',same,rfl⟩ := fromSlots_some known
    rw [tabled.eq_of_name listed listed' same]

theorem reads_decodeEntry (tabled : Tabled table) (key : Key e.keyBytes e.key) (effect : Effect table e f) (m : μ) :
    Reads (decodeEntry message (fromSlots table) m : Dec _) (e.keyBytes ++ e.value) (f m) := by
  refine reads_bind (reads_wrapError (reads_key key)) (reads_wrapError ?_)
  cases effect with
  | @known s a listed named reads =>
    rw [(tabled.named_iff listed e.key).mpr named,fromSlots_listed tabled listed]
    exact reads_map reads
  | unknown unnamed reads =>
    have missing : ∀ s ∈ table, bytes (shortKey e.key) ≠ ascii s.name :=
      fun s listed same => unnamed s listed ((tabled.named_iff listed e.key).mp same)
    rw [fromSlots_none_iff.mpr missing]
    exact reads_then reads (reads_pure m)

theorem reads_entries (tabled : Tabled table) (applies : Applies table m es m') :
    Reads (iterate (decodeEntry message (fromSlots table)) es.length m : Dec _) (encodeItems es) m' := by
  induction applies with
  | nil m => exact reads_iterate_zero _ m
  | cons key effect rest ih =>
    rw [encodeItems_cons]
    exact reads_iterate_succ (reads_decodeEntry tabled key effect _) ih

/-- A header with the entries it counts is decoded to what the entries set. -/
theorem reads_decodeMap (tabled : Tabled table) {header : Bytes} (count : MapHeader header es.length)
    (applies : Applies table m es m') :
    Reads (decodeMap message (fromSlots table) m : Dec _) (header ++ encodeItems es) m' := by
  intro d
  have reads : (iterate (decodeEntry message (fromSlots table)) es.length m : Dec _).run
      (Input.feed (encodeItems es) d) = .ok (m',d) := reads_entries tabled applies d
  have enough := consumes_entries es.length m _ m' d reads
  rw [Input.feed_append]
  refine bind_ok.mpr ⟨es.length,_,wrapError_ok.mpr (run_mapHeader count ?_),reads⟩
  exact Nat.le_trans (Nat.le_add_left _ _) enough

theorem derives_decodeEntry (tabled : Tabled table) (m : μ) :
    Derives (decodeEntry message (fromSlots table) m : Dec _)
      (fun b m' => ∃ e f, b = e.keyBytes ++ e.value ∧ Key e.keyBytes e.key ∧ Effect table e f ∧ m' = f m) := by
  refine derives_bind (derives_wrapError derives_readKey) ?_
  rintro keyBytes _ ⟨k,key,rfl⟩
  refine derives_wrapError ?_
  cases known : fromSlots (σ := Decoder) table m (bytes (shortKey k)) with
  | none =>
    have unnamed : ∀ s ∈ table, k ≠ some (ascii s.name) :=
      fun s listed named => fromSlots_none_iff.mp known s listed ((tabled.named_iff listed k).mpr named)
    intro d m' d' done
    obtain ⟨_,_,skipped,returned⟩ := bind_ok.mp done
    cases returned
    obtain ⟨value,same,reads⟩ := exact_skip d () _ skipped
    exact ⟨value,same,⟨keyBytes,k,value⟩,id,rfl,key,.unknown unnamed reads,rfl⟩
  | some decode =>
    obtain ⟨s,listed,named,rfl⟩ := fromSlots_some known
    intro d m' d' done
    obtain ⟨a,_,read,returned⟩ := bind_ok.mp done
    cases returned
    obtain ⟨value,same,reads⟩ := exact_read s.kind d a _ read
    exact ⟨value,same,⟨keyBytes,k,value⟩,_,rfl,key,.known listed ((tabled.named_iff listed k).mp named) reads,rfl⟩

theorem derives_entries (tabled : Tabled table) (n : Nat) (m : μ) :
    Derives (iterate (decodeEntry message (fromSlots table)) n m : Dec _)
      (fun b m' => ∃ es, es.length = n ∧ b = encodeItems es ∧ Applies table m es m') := by
  induction n generalizing m with
  | zero => exact derives_pure ⟨[],rfl,rfl,.nil m⟩
  | succ n ih =>
    refine derives_bind (derives_decodeEntry tabled m) ?_
    rintro _ _ ⟨e,f,rfl,key,effect,rfl⟩ d m' d' done
    obtain ⟨_,same,es,length,rfl,applies⟩ := ih (f m) d m' d' done
    refine ⟨encodeItems es,same,e :: es,?_,?_,.cons key effect applies⟩
    · rw [List.length_cons,length]
    · rw [encodeItems_cons]

theorem derives_decodeMap (tabled : Tabled table) (m : μ) :
    Derives (decodeMap message (fromSlots table) m : Dec _)
      (fun b m' => ∃ header es, b = header ++ encodeItems es ∧ MapHeader header es.length ∧ Applies table m es m') := by
  refine derives_bind (derives_wrapError derives_readMapHeader) ?_
  rintro header n count d m' d' done
  obtain ⟨_,same,es,rfl,rfl,applies⟩ := derives_entries tabled n m d m' d' done
  exact ⟨_,same,header,es,rfl,count,applies⟩

theorem applies_append : Applies table m (es₁ ++ es₂) m' ↔ ∃ m₁, Applies table m es₁ m₁ ∧ Applies table m₁ es₂ m' := by
  induction es₁ generalizing m with
  | nil =>
    refine ⟨fun applies => ⟨m,.nil m,applies⟩,?_⟩
    rintro ⟨_,⟨⟩,applies⟩
    exact applies
  | cons e es₁ ih =>
    constructor
    · rintro (_ | ⟨key,effect,rest⟩)
      obtain ⟨m₁,here,there⟩ := ih.mp rest
      exact ⟨m₁,.cons key effect here,there⟩
    · rintro ⟨m₁,_ | ⟨key,effect,rest⟩,there⟩
      exact .cons key effect (ih.mpr ⟨m₁,rest,there⟩)

theorem keys_of_applies (applies : Applies table m es m') : ∀ e ∈ es, Key e.keyBytes e.key := by
  induction applies with
  | nil m => exact fun e none => absurd none List.not_mem_nil
  | cons key _ _ ih => exact List.forall_mem_cons.mpr ⟨key,ih⟩

/-- Entries with different keys do the same in either order. -/
theorem effects_commute (tabled : Tabled table) (effect : Effect table e f) (effect' : Effect table e' f')
    (differ : e.key ≠ e'.key) (m : μ) : f' (f m) = f (f' m) := by
  cases effect with
  | unknown => rfl
  | @known s a listed named reads =>
    cases effect' with
    | unknown => rfl
    | @known s' a' listed' named' reads' =>
      have other : s ≠ s' := by
        rintro rfl
        exact differ (named.trans named'.symm)
      exact (tabled.apart_of_ne listed listed' other).commute m a a'

/-- Entries in another order, in which those that changed places have different keys. -/
inductive Reordered : List Item → List Item → Prop
  | nil : Reordered [] []
  | cons (e : Item) {es es' : List Item} (rest : Reordered es es') : Reordered (e :: es) (e :: es')
  | swap {e e' : Item} (differ : e.key ≠ e'.key) (es : List Item) : Reordered (e :: e' :: es) (e' :: e :: es)
  | trans {es es' es'' : List Item} (start : Reordered es es') (rest : Reordered es' es'') : Reordered es es''

/-- Where all keys differ every order will do. -/
theorem reordered_of_perm {es es' : List Item} (perm : es.Perm es') (distinct : (es.map Item.key).Nodup) :
    Reordered es es' := by
  induction perm with
  | nil => exact .nil
  | cons e _ ih => exact .cons e (ih (List.nodup_cons.mp distinct).2)
  | swap e e' es =>
    have differ : e'.key ≠ e.key := by
      intro same
      exact (List.nodup_cons.mp distinct).1 (same ▸ List.mem_cons_self)
    exact .swap differ es
  | trans start _ ih ih' => exact .trans (ih distinct) (ih' ((start.map _).nodup_iff.mp distinct))

theorem applies_reordered (tabled : Tabled table) {es es' : List Item} (reordered : Reordered es es')
    (applies : Applies table m es m') : Applies table m es' m' := by
  induction reordered generalizing m with
  | nil => exact applies
  | cons e _ ih =>
    cases applies with
    | cons key effect rest => exact .cons key effect (ih rest)
  | swap differ es =>
    obtain _ | ⟨key,effect,_ | ⟨key',effect',rest⟩⟩ := applies
    rw [effects_commute tabled effect effect' differ] at rest
    exact .cons key' effect' (.cons key effect rest)
  | trans _ _ ih ih' => exact ih' (ih applies)

/-- A value that is set again later need not have been set. -/
theorem applies_overwritten (tabled : Tabled table) (listed : s ∈ table) (a : s.kind.Value)
    (again : ∃ e ∈ es, e.key = some (ascii s.name)) (applies : Applies table (s.set m a) es m') :
    Applies table m es m' := by
  induction es generalizing m with
  | nil =>
    obtain ⟨e,none,-⟩ := again
    cases none
  | cons e es ih =>
    obtain _ | ⟨key,effect,rest⟩ := applies
    by_cases here : e.key = some (ascii s.name)
    · cases effect with
      | unknown unnamed => exact absurd here (unnamed s listed)
      | @known s' b listed' named reads =>
        obtain rfl := tabled.eq_of_name listed listed' (Option.some.inj (here.symm.trans named))
        dsimp only at rest
        rw [tabled.overwrite s listed] at rest
        exact .cons key (.known listed named reads) rest
    · have later : ∃ e ∈ es, e.key = some (ascii s.name) := by
        obtain ⟨e',member,named⟩ := again
        rcases List.mem_cons.mp member with rfl | member
        · exact absurd named here
        · exact ⟨e',member,named⟩
      refine .cons key effect (ih later ?_)
      cases effect with
      | unknown => exact rest
      | @known s' b listed' named reads =>
        have other : s' ≠ s := by
          rintro rfl
          exact here named
        rwa [(tabled.apart_of_ne listed' listed other).commute]

/-- A field keeps its value through the entries of other keys. -/
theorem applies_kept (tabled : Tabled table) (listed : s ∈ table) (others : ∀ e ∈ es, e.key ≠ some (ascii s.name))
    (applies : Applies table m es m') : s.get m' = s.get m := by
  induction applies with
  | nil m => rfl
  | @cons m m' e es f key effect rest ih =>
    rw [ih (fun e' member => others e' (List.mem_cons_of_mem e member))]
    cases effect with
    | unknown => rfl
    | @known s' b listed' named reads =>
      have other : s ≠ s' := by
        rintro rfl
        exact others e List.mem_cons_self named
      exact (tabled.apart_of_ne listed listed' other).left m b

/-- A field has the value it had or one that an entry encodes. -/
theorem applies_field (tabled : Tabled table) (listed : s ∈ table) (applies : Applies table m es m') :
    s.get m' = s.get m ∨
      ∃ e ∈ es, Key e.keyBytes (some (ascii s.name)) ∧ Reads (s.kind.read : Dec _) e.value (s.get m') := by
  induction applies with
  | nil m => exact .inl rfl
  | @cons m m' e es f key effect rest ih =>
    rcases ih with same | ⟨e',member,found⟩
    · cases effect with
      | unknown => exact .inl same
      | @known s' a listed' named reads =>
        by_cases other : s = s'
        · subst other
          rw [tabled.kept s listed] at same
          rw [same]
          exact .inr ⟨e,List.mem_cons_self,named ▸ key,reads⟩
        · exact .inl (same.trans ((tabled.apart_of_ne listed listed' other).left m a))
    · exact .inr ⟨e',List.mem_cons_of_mem e member,found⟩

end

/-- Whatever header counts the entries, and whatever follows them, they are decoded. -/
def Decodes (t : MessageType) (es : List Item) (v : t.Value) : Prop :=
  ∀ header, MapHeader header es.length → ∀ streaming rest,
    (decodeMsgpack t : Dec _).run ⟨streaming,header ++ encodeItems es ++ rest⟩ = .ok (v,⟨streaming,rest⟩)

theorem decodes_of_applies {t : MessageType} {es : List Item} {v : t.Value} (applies : Applies (slots t) (zero t) es v) :
    Decodes t es v := by
  intro header count streaming rest
  rw [decodeMsgpack_eq]
  exact reads_decodeMap (tabled_slots t) count applies ⟨streaming,rest⟩

/-- What is decoded does not depend on the entries of unknown keys, on the order of the
    entries with different keys, nor on the entries of a known key but the last. -/
theorem unknown_and_order_ignored (t : MessageType) (streaming : Bool) (input : Bytes) (v : t.Value) (d : Decoder)
    (decoded : (decodeMsgpack t : Dec _).run ⟨streaming,input⟩ = .ok (v,d)) :
    ∃ header es rest, input = header ++ encodeItems es ++ rest ∧ d = ⟨streaming,rest⟩ ∧ MapHeader header es.length ∧
      (∀ e ∈ es, Key e.keyBytes e.key) ∧
      (∀ es₁ es₂ e, es = es₁ ++ es₂ → Key e.keyBytes e.key → (∀ s ∈ slots t, e.key ≠ some (ascii s.name)) →
        Value 32 e.value → Decodes t (es₁ ++ e :: es₂) v) ∧
      (∀ es', Reordered es es' ∨ es.Perm es' ∧ (es.map Item.key).Nodup → Decodes t es' v) ∧
      ∀ es₁ es₂ e, es = es₁ ++ e :: es₂ → ∀ s ∈ slots t, e.key = some (ascii s.name) →
        ((∃ e' ∈ es₂, e'.key = e.key) → Decodes t (es₁ ++ es₂) v) ∧
        ((∀ e' ∈ es₂, e'.key ≠ e.key) → Reads (s.kind.read : Dec _) e.value (s.get v)) := by
  have tabled := tabled_slots t
  rw [decodeMsgpack_eq] at decoded
  obtain ⟨_,same,header,es,rfl,count,applies⟩ := derives_decodeMap tabled (zero t) ⟨streaming,input⟩ v d decoded
  obtain ⟨streaming',rest⟩ := d
  simp only [Input.feed,Decoder.mk.injEq] at same
  obtain ⟨rfl,rfl⟩ := same
  refine ⟨header,es,rest,rfl,rfl,count,keys_of_applies applies,?_,?_,?_⟩
  · rintro es₁ es₂ e rfl key unnamed value
    obtain ⟨m₁,before,after⟩ := applies_append.mp applies
    refine decodes_of_applies (applies_append.mpr ⟨m₁,before,?_⟩)
    exact .cons key (.unknown unnamed (reads_value value)) after
  · rintro es' (reordered | ⟨perm,distinct⟩)
    · exact decodes_of_applies (applies_reordered tabled reordered applies)
    · exact decodes_of_applies (applies_reordered tabled (reordered_of_perm perm distinct) applies)
  · rintro es₁ es₂ e rfl s listed named
    obtain ⟨m₁,before,_ | ⟨key,effect,after⟩⟩ := applies_append.mp applies
    cases effect with
    | unknown unnamed => exact absurd named (unnamed s listed)
    | @known s' a listed' named' reads =>
      obtain rfl := tabled.eq_of_name listed listed' (Option.some.inj (named.symm.trans named'))
      rw [named]
      refine ⟨fun again => ?_,fun others => ?_⟩
      · exact decodes_of_applies (applies_append.mpr ⟨m₁,before,applies_overwritten tabled listed a again after⟩)
      · rw [applies_kept tabled listed others after,tabled.kept s listed]
        exact reads

/-- A nil key with an array of nil, in front of the entry of a nack. -/
theorem unknown_and_order_ignored_nack : ∃ header es rest,
    appendNackResp ⟨300⟩ = header ++ encodeItems es ++ rest ∧ MapHeader header es.length ∧
    Decodes .nackResp (⟨[nilByte],none,[0x91,nilByte]⟩ :: es) ⟨300⟩ := by
  obtain ⟨header,es,rest,same,-,count,-,inserted,-⟩ :=
    unknown_and_order_ignored .nackResp false (appendNackResp ⟨300⟩) ⟨300⟩ ⟨false,[]⟩ rfl
  have array : Value 32 [0x91,nilByte] := by
    have header : ContainerHeader [0x91] [[nilByte]].length := .fixarray (c := 0x91) (by decide)
    exact .container header (List.forall_mem_singleton.mpr (.scalar (.single (by decide))))
  refine ⟨header,es,rest,same,count,inserted [] es _ rfl .absent ?_ array⟩
  exact fun _ _ named => absurd named (by simp)

end Mori.Entries
