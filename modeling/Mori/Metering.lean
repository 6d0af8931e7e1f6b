import Mori.Meters
import Mori.Entries
import Mori.Sources
import Mori.PushPull

/-!
What decoding costs. The decoders are metered: how many keys, fields and values to skip
were read, how deep the skipping was nested, which buffers were asked for and how many
node states were appended. Whatever counts and lengths the input declares, each read is
paid for by a byte that was taken, each buffer by bytes that are there or have arrived,
and each state by eight bytes.
-/
namespace Mori.Metering
open Mori.Net Mori.Readers Mori.Msgpack Mori.Protocol Mori.Wire Mori.Codecs Mori.Modes Mori.Formats Mori.Fields
open Mori.Entries Mori.Sources Mori.Stream Mori.Meters
set_option linter.unusedSimpArgs false

/-- The key, field and skip reads so far, how many skips are running and the most that were
    at once. -/
structure Gauge where
  reads : Nat
  nested : Nat
  deepest : Nat

/-- A key or a field is read. -/
def Gauge.read (w : Gauge) : Gauge := { w with reads := w.reads + 1 }

/-- A skip starts. -/
def Gauge.enter (w : Gauge) : Gauge := ⟨w.reads + 1,w.nested + 1,max w.deepest (w.nested + 1)⟩

/-- A skip that started at the first gauge ends. -/
def Gauge.leave (w w' : Gauge) : Gauge := { w' with nested := w.nested }

section
variable {σ α : Type}

def readMetered (p : Reader σ Error α) : Metered σ Gauge Error α := called Gauge.read (fun _ w => w) (leaf p)

theorem erases_readMetered (p : Reader σ Error α) : Erases (readMetered p) p := erases_called (erases_leaf p)

theorem paid_readMetered [Unread UInt8 σ] {p : Reader σ Error α} (takes : Consumes 1 p) :
    Paid Gauge.reads 1 (readMetered p) :=
  paid_called (ahead_leaf takes) (fun _ => Nat.le_refl _) (fun _ _ => rfl)

theorem ranges_readMetered {k : Nat} (p : Reader σ Error α) : Ranges Gauge.nested Gauge.deepest k (readMetered p) :=
  ranges_called (j := 0) (ranges_leaf p) (fun _ => ⟨rfl,Nat.le_max_left _ _⟩) (fun _ _ same => ⟨same,rfl⟩)

end

section
variable {σ : Type} [Mode σ]

/-- `skipWithin`. -/
def skipMetered : Nat → Metered σ Gauge Error Unit
  | 0 => called Gauge.enter Gauge.leave (throw .nested)
  | depth + 1 => called Gauge.enter Gauge.leave (do
    match ← leaf (skipHeader (← leaf Mode.readByte)) with
    | .payload n => leaf (Mode.discard n)
    | .elements n =>
      match Mode.remaining (← leaf get) with
      | some r => if r < n then throw .truncated else repeated (fun _ => skipMetered depth) n ()
      | none => repeated (fun _ => skipMetered depth) n ())

section
variable {μ : Type} (message : String) (decodeField : FieldDecoder σ μ)

def decodeEntryMetered (m : μ) : Metered σ Gauge Error μ := do
  let k ← rewrap (.field message none) (readMetered readKey)
  rewrap (.field message k) (match decodeField m (bytes k) with
    | some decode => readMetered decode
    | none => do
      skipMetered (maxSkipDepth + 1)
      return m)

def decodeMapMetered (zero : μ) : Metered σ Gauge Error μ := do
  let n ← rewrap (.field message none) (leaf readMapHeader)
  repeated (decodeEntryMetered message decodeField) n zero

end

def decodeMetered (t : MessageType) : Metered σ Gauge Error t.Value :=
  decodeMapMetered (label t) (fromSlots (slots t)) (zero t)

theorem erases_skipMetered (depth : Nat) : Erases (skipMetered depth : Metered σ _ _ _) (skipWithin depth) := by
  induction depth with
  | zero => exact erases_called (erases_throw _)
  | succ depth ih =>
    refine erases_called (erases_bind (erases_leaf _) (fun c => erases_bind (erases_leaf _) ?_))
    rintro (n | n)
    · exact erases_leaf _
    · refine erases_bind (erases_leaf get) (fun s => ?_)
      have loop := erases_repeated (fun _ => ih) n ()
      cases Mode.remaining s with
      | none => exact loop
      | some r => exact erases_ite (erases_throw _) loop

theorem erases_decodeMetered (t : MessageType) : Erases (decodeMetered t : Metered σ _ _ _) (decodeMsgpack t) := by
  rw [decodeMsgpack_eq]
  refine erases_bind (erases_rewrap (erases_leaf _)) (fun n => erases_repeated (fun m => ?_) n _)
  refine erases_bind (erases_rewrap (erases_readMetered _)) (fun k => erases_rewrap ?_)
  cases fromSlots (σ := σ) (slots t) m (bytes k) with
  | some decode => exact erases_readMetered decode
  | none => exact erases_bind (erases_skipMetered _) (fun _ => erases_pure m)

end

section
variable {σ : Type} [Mode σ] [Unread UInt8 σ] [LawfulMode σ]

theorem paid_skipMetered (depth : Nat) : Paid Gauge.reads 1 (skipMetered depth : Metered σ _ _ _) := by
  have any {α : Type} {k : Nat} {p : Reader σ Error α} (twin : Twin k p p) : Paid Gauge.reads 1 (leaf p) :=
    paid_leaf (twin_any twin).left
  have state : Consumes 0 (get : Reader σ Error σ) := by
    intro s a s' done
    cases done
    exact Nat.le_refl _
  induction depth with
  | zero => exact paid_called (ahead_throw _) (fun _ => Nat.le_refl _) (fun _ _ => rfl)
  | succ depth ih =>
    refine paid_called ?_ (fun _ => Nat.le_refl _) (fun _ _ => rfl)
    refine ahead_bind (ahead_leaf (twin_readByte (τ := σ)).left) (fun c => ?_)
    refine paid_bind (any (twin_skipHeader c)) ?_
    rintro (n | n)
    · exact any (twin_discard n)
    · refine paid_bind (paid_leaf state) (fun s => ?_)
      have loop := paid_repeated (fun _ => ih) n ()
      cases Mode.remaining s with
      | none => exact loop
      | some r => exact paid_ite (paid_throw _) loop

theorem paid_decodeMetered (t : MessageType) : Paid Gauge.reads 1 (decodeMetered t : Metered σ _ _ _) := by
  have header : Consumes 0 (readMapHeader : Reader σ Error _) :=
    consumes_mono (counted_readMapHeader (τ := σ)).left (Nat.zero_le _)
  refine paid_bind (paid_rewrap (paid_leaf header)) (fun n => paid_repeated (fun m => ?_) n _)
  refine paid_bind (paid_rewrap (paid_readMetered (twin_readKey (τ := σ)).left)) (fun k => paid_rewrap ?_)
  cases known : fromSlots (σ := σ) (slots t) m (bytes k) with
  | some decode =>
    obtain ⟨s,-,-,rfl⟩ := fromSlots_some known
    exact paid_readMetered (twin_map (twin_read (τ := σ) s.kind)).left
  | none => exact paid_bind (paid_skipMetered _) (fun _ => paid_pure m)

end

section
variable {σ : Type} [Mode σ]

theorem ranges_skipMetered (depth : Nat) :
    Ranges Gauge.nested Gauge.deepest (depth + 1) (skipMetered depth : Metered σ _ _ _) := by
  have inside (k : Nat) (w : Gauge) :
      w.enter.nested = w.nested + 1 ∧ w.enter.deepest ≤ max w.deepest (w.nested + (k + 1)) := by
    refine ⟨rfl,?_⟩
    simp only [Gauge.enter]
    omega
  induction depth with
  | zero => exact ranges_called (ranges_throw _) (inside 0) (fun _ _ _ => ⟨rfl,rfl⟩)
  | succ depth ih =>
    refine ranges_called ?_ (inside (depth + 1)) (fun _ _ _ => ⟨rfl,rfl⟩)
    refine ranges_bind (ranges_leaf _) (fun c => ranges_bind (ranges_leaf _) ?_)
    rintro (n | n)
    · exact ranges_leaf _
    · refine ranges_bind (ranges_leaf _) (fun s => ?_)
      have loop := ranges_repeated (fun _ => ih) n ()
      cases Mode.remaining s with
      | none => exact loop
      | some r => exact ranges_ite (ranges_throw _) loop

/-- The deepest call of a skip is the one that is refused. -/
theorem ranges_decodeMetered (t : MessageType) :
    Ranges Gauge.nested Gauge.deepest (maxSkipDepth + 2) (decodeMetered t : Metered σ _ _ _) := by
  refine ranges_bind (ranges_rewrap (ranges_leaf _)) (fun n => ranges_repeated (fun m => ?_) n _)
  refine ranges_bind (ranges_rewrap (ranges_readMetered _)) (fun k => ranges_rewrap ?_)
  cases fromSlots (σ := σ) (slots t) m (bytes k) with
  | some decode => exact ranges_readMetered decode
  | none => exact ranges_bind (ranges_skipMetered _) (fun _ => ranges_pure m)

end

/-- A buffer that `readInto` asks for, with what it has received of the value. -/
structure Request where
  received : Nat
  asked : Nat

/-- `readInto` of a slice. -/
def readIntoMetered (n : Nat) : Metered Decoder (List Request) Error Bytes := do
  if (← leaf get).input.length < n then throw .truncated
  else
    noted (· ++ [⟨0,n⟩])
    leaf (Msgpack.readInto n)

/-- What `slices.Grow` is asked for, where the capacity is used up. -/
def growth (n len cap : Nat) : List Request := if len = cap then [⟨len,len + min (n - len) (max len streamChunk)⟩] else []

/-- The loop of `readInto` of a stream. -/
def fillMetered (n : Nat) : Nat → Bytes → Nat → Metered StreamDecoder (List Request) Error Bytes
  | 0,out,_ => if out.length < n then throw .truncated else return out
  | fuel + 1,out,cap => do
    if out.length < n then
      noted (· ++ growth n out.length cap)
      let cap' := grow (← leaf get).slack n out.length cap
      let chunk ← leaf (readFull (min cap' n - out.length))
      fillMetered n fuel (out ++ chunk) cap'
    else return out

/-- `readInto` of a stream. -/
def streamIntoMetered (n : Nat) : Metered StreamDecoder (List Request) Error Bytes := do
  noted (· ++ [⟨0,min n streamChunk⟩])
  fillMetered n n [] (min n streamChunk)

theorem erases_readIntoMetered (n : Nat) : Erases (readIntoMetered n) (Msgpack.readInto n) := by
  have checked : Msgpack.readInto n = (do
      if (← (get : Dec Decoder)).input.length < n then throw .truncated else Msgpack.readInto n) := by
    funext d
    change _ = (if d.input.length < n then (throw .truncated : Dec Bytes) else Msgpack.readInto n) d
    by_cases short : d.input.length < n
    · rw [if_pos short]
      exact if_pos short
    · rw [if_neg short]
  rw [checked]
  exact erases_bind (erases_leaf get) (fun d => erases_ite (erases_throw _) (erases_noted (erases_leaf _)))

theorem erases_fillMetered (n fuel : Nat) (out : Bytes) (cap : Nat) :
    Erases (fillMetered n fuel out cap) (fill n fuel out cap) := by
  induction fuel generalizing out cap with
  | zero => exact erases_ite (erases_throw _) (erases_pure _)
  | succ fuel ih =>
    refine erases_ite (erases_noted (erases_bind (erases_leaf get) (fun d => ?_))) (erases_pure _)
    exact erases_bind (erases_leaf _) (fun chunk => ih _ _)

theorem erases_streamIntoMetered (n : Nat) : Erases (streamIntoMetered n) (Sources.readInto n) :=
  erases_noted (erases_fillMetered n n [] _)

/-- The requests of a list are within a bound. -/
def Modest (bound : Request → Nat) (log : List Request) : Prop := ∀ q ∈ log, q.asked ≤ bound q

theorem keeps_modest {σ ε : Type} {bound : Request → Nat} {more : List Request} (modest : Modest bound more) :
    Keeps (Modest bound) (noted (· ++ more) : Metered σ (List Request) ε Unit) := by
  refine keeps_noted (fun log held q listed => ?_)
  rcases List.mem_append.mp listed with before | new
  · exact held q before
  · exact modest q new

theorem modest_nil {bound : Request → Nat} : Modest bound [] := fun _ listed => absurd listed List.not_mem_nil

theorem modest_readIntoMetered (n : Nat) (d : Decoder) :
    Modest (fun _ => d.input.length) (exec (readIntoMetered n) (d,[])).2.2 := by
  have step : exec (readIntoMetered n) (d,[]) = exec (if d.input.length < n then throw .truncated else do
      noted (· ++ [⟨0,n⟩])
      leaf (Msgpack.readInto n)) (d,[]) := rfl
  rw [step]
  split_ifs with short
  · exact modest_nil
  · refine keeps_run (keeps_bind (keeps_modest ?_) (fun _ => keeps_leaf _)) (d,[]) modest_nil
    intro q listed
    obtain rfl := List.mem_singleton.mp listed
    exact Nat.not_lt.mp short

/-- Twice what has arrived and a chunk. -/
def arrived (q : Request) : Nat := 2 * q.received + 64 * 2 ^ 10

theorem modest_growth (n len cap : Nat) : Modest arrived (growth n len cap) := by
  unfold growth
  split_ifs
  · intro q listed
    obtain rfl := List.mem_singleton.mp listed
    have chunk : streamChunk = 64 * 2 ^ 10 := rfl
    simp only [arrived]
    omega
  · exact modest_nil

theorem keeps_fillMetered (n fuel : Nat) (out : Bytes) (cap : Nat) : Keeps (Modest arrived) (fillMetered n fuel out cap) := by
  induction fuel generalizing out cap with
  | zero => exact keeps_ite (keeps_throw _) (keeps_pure _)
  | succ fuel ih =>
    refine keeps_ite (keeps_bind (keeps_modest (modest_growth _ _ _)) (fun _ => ?_)) (keeps_pure _)
    exact keeps_bind (keeps_leaf _) (fun d => keeps_bind (keeps_leaf _) (fun chunk => ih _ _))

theorem keeps_streamIntoMetered (n : Nat) : Keeps (Modest arrived) (streamIntoMetered n) := by
  refine keeps_bind (keeps_modest ?_) (fun _ => keeps_fillMetered n n [] _)
  intro q listed
  obtain rfl := List.mem_singleton.mp listed
  have chunk : streamChunk = 64 * 2 ^ 10 := rfl
  simp only [arrived]
  omega

section
variable {σ : Type} [Mode σ]

/-- The loop over the states, each of which is appended before it is decoded. -/
def readStatesMetered : Nat → Nat → Metered σ Nat StreamError (List PushNodeState)
  | 0,_ => return []
  | n + 1,i => do
    let s ← called (· + 1) (fun _ w => w) (leaf (wrapError .decode decodePushNodeState))
    if s.name = [] then throw (.noName i)
    else return s :: (← readStatesMetered n (i + 1))

def readRemoteStateMetered (conf : Config) : Metered σ Nat StreamError (Bool × List PushNodeState × Slice) := do
  let header ← leaf (wrapError .decode decodePushPullHeader)
  if header.nodes < 0 ∨ maxPushStateNodes < header.nodes then throw (.nodeCount header.nodes)
  else if header.userStateLen < 0 ∨ maxPushStateBytes < header.userStateLen then
    throw (.userStateLen header.userStateLen)
  else do
    let remoteNodes ← readStatesMetered header.nodes.toNat 0
    let userBuf ← leaf (PushPull.readUserState header.userStateLen)
    return (header.join,remoteNodes.map (PushPull.received conf),userBuf)

end

theorem erases_readStatesMetered (n i : Nat) : Erases (readStatesMetered n i) (PushPull.readStates n i) := by
  induction n generalizing i with
  | zero => exact erases_pure []
  | succ n ih =>
    refine erases_bind (erases_called (erases_leaf _)) (fun s => erases_ite (erases_throw _) ?_)
    exact erases_bind (ih (i + 1)) (fun states => erases_pure _)

theorem erases_readRemoteStateMetered (conf : Config) :
    Erases (readRemoteStateMetered conf) (PushPull.readRemoteState conf) := by
  refine erases_bind (erases_leaf _) (fun header => erases_ite (erases_throw _) (erases_ite (erases_throw _) ?_))
  refine erases_bind (erases_readStatesMetered _ _) (fun remoteNodes => ?_)
  exact erases_bind (erases_leaf _) (fun userBuf => erases_pure _)

theorem length_of_rawHeader {b : Bytes} {n : Nat} (header : RawHeader b n) : 1 ≤ b.length := by
  cases header <;> simp only [List.length_cons,List.length_nil] <;> omega

theorem length_of_key {b k : Bytes} (key : Key b (some k)) : k.length + 1 ≤ b.length := by
  cases key with
  | raw header =>
    have first := length_of_rawHeader header
    rw [List.length_append]
    omega

theorem length_of_mapHeader {b : Bytes} {n : Nat} (header : MapHeader b n) : 1 ≤ b.length := by
  cases header <;> simp only [List.length_cons,List.length_nil] <;> omega

/-- A string with a byte takes two. -/
theorem length_of_string {b a : Bytes} (reads : Reads (decString : Dec _) b a) (some : a ≠ []) : 2 ≤ b.length := by
  have derives : Derives (decString : Dec _) (fun b a => a = [] ∨ 2 ≤ b.length) := by
    refine derives_bind (derives_rawLen _) ?_
    rintro header (_ | n) length
    · exact derives_pure (.inl rfl)
    · have first := length_of_rawHeader length
      refine derives_ite (fun _ => derives_pure (.inl rfl)) (fun nonzero => derives_ite (fun _ => derives_throw _) ?_)
      intro _ d a d' done
      obtain ⟨c,same,-,length'⟩ := derives_readInto n d a d' done
      refine ⟨c,same,.inr ?_⟩
      rw [List.length_append]
      omega
  obtain ⟨c,same,holds⟩ := derives _ a _ (reads ⟨false,[]⟩)
  simp only [Input.feed,List.append_nil,Decoder.mk.injEq,true_and] at same
  rw [same]
  exact holds.resolve_left some

theorem length_le_encodeItems {e : Item} {es : List Item} (member : e ∈ es) :
    e.keyBytes.length + e.value.length ≤ (encodeItems es).length := by
  obtain ⟨es₁,es₂,rfl⟩ := List.append_of_mem member
  simp only [encodeItems,List.flatMap_append,List.flatMap_cons,List.length_append]
  omega

/-- The header, the key of the name and a name: a byte, five bytes and two. -/
theorem eight_of_named {d d' : Decoder} {v : PushNodeState} (done : (decodePushNodeState : Dec _).run d = .ok (v,d'))
    (named : v.name ≠ []) : d'.input.length + 8 ≤ d.input.length := by
  have tabled := tabled_slots .pushNodeState
  have listed : ⟨"Name",.string,PushNodeState.name,fun m v => { m with name := v }⟩ ∈ slots .pushNodeState :=
    List.mem_cons_self
  obtain ⟨b,rfl,header,es,rfl,count,applies⟩ := derives_decodeMap tabled (zero .pushNodeState) d v d' done
  obtain none | ⟨e,member,key,reads⟩ := applies_field tabled listed applies
  · exact absurd none named
  · have first := length_of_mapHeader count
    have second := length_of_key key
    have third := length_of_string reads named
    have all := length_le_encodeItems member
    have name : (ascii "Name").length = 4 := by decide
    dsimp only at second
    simp only [Input.feed,List.length_append]
    omega

section
variable {σ : Type} [Mode σ] [Unread UInt8 σ] [LawfulMode σ]

theorem takes_named {s s' : σ} {v : PushNodeState} (done : (decodePushNodeState : Reader σ Error _).run s = .ok (v,s')) :
    left s' ≤ left s ∧ (left s' + 8 ≤ left s ∨ v.name = []) := by
  have twin := twin_decodeMsgpack (σ := σ) (τ := Decoder) .pushNodeState
  refine ⟨Nat.le_of_succ_le (twin.left s v s' done),?_⟩
  by_cases named : v.name = []
  · exact .inr named
  · obtain ⟨d',done',rest⟩ := outcome_eq_some.mp ((twin.same s (newDecoder (Unread.unread s)) rfl).symm.trans (outcome_of_ok done))
    have eight := eight_of_named done' named
    refine .inl ?_
    rw [left,← rest]
    exact eight

theorem paid_readStatesMetered (n i : Nat) : Paid (8 * ·) 8 (readStatesMetered n i : Metered σ Nat StreamError _) := by
  induction n generalizing i with
  | zero => exact paid_pure []
  | succ n ih =>
    refine paid_called_bind (fun w => Nat.le_refl _) (fun _ _ => rfl) ?_ ?_
    · intro s v s' done
      obtain ⟨less,enough | nameless⟩ := takes_named (wrapError_ok.mp done)
      · exact ⟨less,.inl enough⟩
      · exact ⟨less,.inr ⟨_,if_pos nameless⟩⟩
    · exact fun v => paid_ite (paid_throw _) (paid_bind (ih (i + 1)) (fun states => paid_pure _))

theorem paid_readRemoteStateMetered (conf : Config) :
    Paid (8 * ·) 8 (readRemoteStateMetered conf : Metered σ Nat StreamError _) := by
  have header : Consumes 0 (wrapError .decode decodePushPullHeader : Reader σ StreamError _) := by
    intro s a s' done
    exact (twin_any (twin_decodeMsgpack (σ := σ) (τ := σ) .pushPullHeader)).left s a s' (wrapError_ok.mp done)
  have userState (n : Int) : Twin 0 (PushPull.readUserState n : Reader σ StreamError _) (PushPull.readUserState n : Reader σ _ _) :=
    twin_ite (twin_map (twin_wrapError (twin_readRaw n))) (twin_pure _)
  refine paid_bind (paid_leaf header) (fun h => paid_ite (paid_throw _) (paid_ite (paid_throw _) ?_))
  refine paid_bind (paid_readStatesMetered _ _) (fun remoteNodes => ?_)
  exact paid_bind (paid_leaf (userState _).left) (fun userBuf => paid_pure _)

/-- Decoding reads no more keys, fields and skipped values than bytes, except for the read
    that fails, and nests at most 34 skips. -/
def Frugal (t : MessageType) (s : σ) : Prop :=
  (decodeMsgpack t : Reader σ Error _).run s = erase (exec (decodeMetered t) (s,⟨0,0,0⟩)) ∧
  left (exec (decodeMetered t) (s,⟨0,0,0⟩)).2.1 ≤ left s ∧
  (exec (decodeMetered t) (s,⟨0,0,0⟩)).2.2.reads ≤ left s - left (exec (decodeMetered t) (s,⟨0,0,0⟩)).2.1 + 1 ∧
  (exec (decodeMetered t) (s,⟨0,0,0⟩)).2.2.deepest ≤ 34

theorem frugal (t : MessageType) (s : σ) : Frugal t s := by
  obtain ⟨less,within⟩ := paid_run (paid_decodeMetered t) (s,⟨0,0,0⟩)
  have deep := ranges_run (ranges_decodeMetered t) (s,⟨0,0,0⟩)
  refine ⟨erases_decodeMetered t (s,⟨0,0,0⟩),less,?_,?_⟩
  · dsimp only at within
    omega
  · simp only [maxSkipDepth] at deep
    omega

/-- At most a state for every eight bytes is appended, and one more. -/
def FewStates (conf : Config) (s : σ) : Prop :=
  (exec (readRemoteStateMetered conf) (s,0)).2.2 ≤ 1 + (left s - left (exec (readRemoteStateMetered conf) (s,0)).2.1) / 8

theorem fewStates (conf : Config) (s : σ) : FewStates conf s := by
  obtain ⟨less,within⟩ := paid_run (paid_readRemoteStateMetered conf) (s,0)
  unfold FewStates
  dsimp only at within
  omega

end

/-- What an input declares buys neither memory nor work, in a slice or in the chunks of a
    stream. -/
theorem declared_sizes_bounded :
    (∀ t (d : Decoder), Frugal t d) ∧ (∀ t (d : StreamDecoder), Frugal t d) ∧
    (∀ n (d : Decoder), (Msgpack.readInto n).run d = erase (exec (readIntoMetered n) (d,[])) ∧
      ∀ q ∈ (exec (readIntoMetered n) (d,[])).2.2, q.asked ≤ d.input.length) ∧
    (∀ n (d : StreamDecoder), (Sources.readInto n).run d = erase (exec (streamIntoMetered n) (d,[])) ∧
      ∀ q ∈ (exec (streamIntoMetered n) (d,[])).2.2, q.asked ≤ 2 * q.received + 64 * 2 ^ 10) ∧
    (∀ conf (d : Decoder),
      (PushPull.readRemoteState conf).run d = erase (exec (readRemoteStateMetered conf) (d,0)) ∧ FewStates conf d) ∧
    ∀ conf (d : StreamDecoder), FewStates conf d := by
  refine ⟨frugal,frugal,fun n d => ⟨erases_readIntoMetered n (d,[]),?_⟩,
    fun n d => ⟨erases_streamIntoMetered n (d,[]),?_⟩,fun conf d => ⟨erases_readRemoteStateMetered conf (d,0),?_⟩,?_⟩
  · exact modest_readIntoMetered n d
  · exact keeps_run (keeps_streamIntoMetered n) (d,[]) modest_nil
  · exact fewStates conf d
  · exact fewStates

end Mori.Metering
