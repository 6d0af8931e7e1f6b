import Mori.Dispatch

/-!
The work that a packet can cause. Compound and compressed messages may contain each
other, and a payload that was decompressed is dispatched like a packet. The envelope
refuses a second wrapping of a kind, and that bounds the nesting, the calls, the
decompressions and the messages, whatever the bytes are. Here the dispatch is written
out with what it does, and with a depth that it may run out of.
-/
namespace Mori.Envelopes
open Mori.Net Mori.Protocol Mori.Stream Mori.Compound Mori.Dispatch

inductive Event where
  /-- A call of `handleCommandIn`, at a depth of nesting. -/
  | command (depth : Nat)
  | decompression (result : Except StreamError Bytes)
  /-- A message whose type wraps no others is dispatched. -/
  | message (msgType : UInt8) (buf : Bytes)

def Event.isCommand : Event → Bool
  | .command _ => true
  | _ => false

def Event.isDecompression : Event → Bool
  | .decompression _ => true
  | _ => false

def Event.isMessage : Event → Bool
  | .message _ _ => true
  | _ => false

structure Work where
  inbox : Inbox
  events : List Event := []

def Work.note (w : Work) (e : Event) : Work := { w with events := w.events ++ [e] }

def Work.change (w : Work) (f : Inbox → Inbox) : Work := { w with inbox := f w.inbox }

section
variable (recv : Receiver)

def workCompound (work : Bytes → Work → Option Work) (buf : Bytes) (w : Work) : Option Work :=
  match decodeCompoundMessage buf with
  | .error err => some (w.change (·.refuse (.compound err)))
  | .ok (trunc,parts) =>
    parts.foldlM (fun w part => work part w) (w.change (fun s => if 0 < trunc then s.refuse (.truncated trunc) else s))

def workCompressed (work : Bytes → Work → Option Work) (buf : Bytes) (w : Work) : Option Work :=
  let w := w.note (.decompression (decompressPayload recv buf))
  match decompressPayload recv buf with
  | .error err => some (w.change (·.refuse (.decompress err)))
  | .ok payload => work payload w

/-- `handleCommandIn` with its events. The fuel is how deep calls may nest, and `none`
    is where that is not enough. -/
def workAt : Nat → Nat → Envelope → Bytes → Work → Option Work
  | 0,_,_,_,_ => none
  | fuel + 1,depth,env,buf,w =>
    let w := (w.note (.command depth)).change (·.command env buf)
    match buf with
    | [] => some (w.change (·.refuse .missingType))
    | msgType :: buf =>
      if msgType = compoundMsg then
        if env.inCompound then some (w.change (·.refuse .nestedCompound))
        else workCompound (workAt fuel (depth + 1) { env with inCompound := true }) buf w
      else if msgType = compressMsg then
        if env.inCompress then some (w.change (·.refuse .nestedCompressed))
        else workCompressed recv (workAt fuel (depth + 1) { env with inCompress := true }) buf w
      else some ((w.note (.message msgType buf)).change (handleMessage recv msgType buf))

end

/-- Events of limited number and depth, and no payload larger than is allowed. -/
structure Modest (deep commands decompressions messages : Nat) (events : List Event) : Prop where
  commands : events.countP Event.isCommand ≤ commands
  decompressions : events.countP Event.isDecompression ≤ decompressions
  messages : events.countP Event.isMessage ≤ messages
  depth : ∀ d, .command d ∈ events → d ≤ deep
  payload : ∀ payload, .decompression (.ok payload) ∈ events → payload.length ≤ maxPacketDecompressedBytes

section
variable {deep c z m c' z' m' : Nat} {events events' : List Event}

theorem modest_nil (deep : Nat) : Modest deep 0 0 0 [] where
  commands := Nat.le_refl 0
  decompressions := Nat.le_refl 0
  messages := Nat.le_refl 0
  depth d member := by cases member
  payload p member := by cases member

theorem modest_append (before : Modest deep c z m events) (after : Modest deep c' z' m' events') :
    Modest deep (c + c') (z + z') (m + m') (events ++ events') where
  commands := by
    rw [List.countP_append]
    exact Nat.add_le_add before.commands after.commands
  decompressions := by
    rw [List.countP_append]
    exact Nat.add_le_add before.decompressions after.decompressions
  messages := by
    rw [List.countP_append]
    exact Nat.add_le_add before.messages after.messages
  depth d member := (List.mem_append.mp member).elim (before.depth d) (after.depth d)
  payload p member := (List.mem_append.mp member).elim (before.payload p) (after.payload p)

theorem modest_mono (modest : Modest deep c z m events) (hc : c ≤ c') (hz : z ≤ z') (hm : m ≤ m') :
    Modest deep c' z' m' events :=
  { modest with
    commands := Nat.le_trans modest.commands hc
    decompressions := Nat.le_trans modest.decompressions hz
    messages := Nat.le_trans modest.messages hm }

/-- One event counts as what it is. -/
theorem modest_event {e : Event} (depth : ∀ d, e = .command d → d ≤ deep)
    (payload : ∀ p, e = .decompression (.ok p) → p.length ≤ maxPacketDecompressedBytes) :
    Modest deep e.isCommand.toNat e.isDecompression.toNat e.isMessage.toNat [e] where
  commands := by cases e <;> exact Nat.le_refl _
  decompressions := by cases e <;> exact Nat.le_refl _
  messages := by cases e <;> exact Nat.le_refl _
  depth d member := depth d (List.mem_singleton.mp member).symm
  payload p member := payload p (List.mem_singleton.mp member).symm

theorem modest_command {depth : Nat} (shallow : depth ≤ deep) : Modest deep 1 0 0 [.command depth] := by
  refine modest_event (e := .command depth) (fun d same => ?_) (fun p wrong => by cases wrong)
  cases same
  exact shallow

theorem modest_message (deep : Nat) (msgType : UInt8) (buf : Bytes) : Modest deep 0 0 1 [.message msgType buf] :=
  modest_event (e := .message msgType buf) (fun d wrong => by cases wrong) (fun p wrong => by cases wrong)

/-- The limit holds for what is returned. -/
theorem length_decompressPayload {recv : Receiver} {msg payload : Bytes} (done : decompressPayload recv msg = .ok payload) :
    payload.length ≤ maxPacketDecompressedBytes := by
  unfold decompressPayload at done
  split at done
  · cases done
  · unfold decompressBuffer at done
    simp only at done
    split_ifs at done with known large
    split at done
    · cases done
    · cases done
      exact Nat.not_lt.mp large

theorem modest_decompression (deep : Nat) (recv : Receiver) (buf : Bytes) :
    Modest deep 0 1 0 [.decompression (decompressPayload recv buf)] :=
  modest_event (e := .decompression (decompressPayload recv buf)) (fun d wrong => by cases wrong)
    (fun p same => length_decompressPayload (Event.decompression.inj same))

end

/-- The work is done, it does to the inbox what `handle` does, and its events are
    limited. -/
def Does (deep commands decompressions messages : Nat) (work : Work → Option Work) (handle : Inbox → Inbox) : Prop :=
  ∀ w, ∃ events, work w = some ⟨handle w.inbox,w.events ++ events⟩ ∧ Modest deep commands decompressions messages events

section
variable {deep c z m : Nat}

theorem does_change (deep : Nat) (f : Inbox → Inbox) : Does deep 0 0 0 (fun w => some (w.change f)) f :=
  fun w => ⟨[],by rw [List.append_nil]; rfl,modest_nil deep⟩

theorem does_mono {c' z' m' : Nat} {work : Work → Option Work} {handle : Inbox → Inbox} (does : Does deep c z m work handle)
    (hc : c ≤ c') (hz : z ≤ z') (hm : m ≤ m') : Does deep c' z' m' work handle := by
  intro w
  obtain ⟨events,done,modest⟩ := does w
  exact ⟨events,done,modest_mono modest hc hz hm⟩

/-- An event, a change of the inbox, and then some work. -/
theorem does_note {c' z' m' : Nat} {work : Work → Option Work} {handle : Inbox → Inbox} {e : Event}
    (head : Modest deep c' z' m' [e]) (does : Does deep c z m work handle) (f : Inbox → Inbox) :
    Does deep (c' + c) (z' + z) (m' + m) (fun w => work ((w.note e).change f)) (fun s => handle (f s)) := by
  intro w
  obtain ⟨events,done,modest⟩ := does ((w.note e).change f)
  refine ⟨[e] ++ events,?_,modest_append head modest⟩
  rw [← List.append_assoc]
  exact done

theorem does_parts {work : Bytes → Work → Option Work} {handle : Bytes → Inbox → Inbox}
    (does : ∀ part, Does deep c z m (work part) (handle part)) (parts : List Bytes) :
    Does deep (parts.length * c) (parts.length * z) (parts.length * m)
      (fun w => parts.foldlM (fun w part => work part w) w) (fun s => parts.foldl (fun s part => handle part s) s) := by
  induction parts with
  | nil => exact fun w => ⟨[],by rw [List.append_nil]; rfl,by simpa using modest_nil deep⟩
  | cons part parts ih =>
    intro w
    obtain ⟨events,done,modest⟩ := does part w
    obtain ⟨events',done',modest'⟩ := ih ⟨handle part w.inbox,w.events ++ events⟩
    refine ⟨events ++ events',?_,?_⟩
    · simp only [List.foldlM_cons,done,Option.bind_eq_bind,Option.bind_some,done',List.foldl_cons,List.append_assoc]
    · refine modest_mono (modest_append modest modest') ?_ ?_ ?_ <;> rw [List.length_cons,Nat.succ_mul,Nat.add_comm]

/-- At most 255 parts are handled. -/
theorem does_compound {work : Bytes → Work → Option Work} {handle : Bytes → Inbox → Inbox}
    (does : ∀ part, Does deep c z m (work part) (handle part)) (buf : Bytes) :
    Does deep (255 * c) (255 * z) (255 * m) (workCompound work buf) (handleCompound handle buf) := by
  intro w
  unfold workCompound handleCompound
  cases decoded : decodeCompoundMessage buf with
  | error err => exact does_mono (does_change deep _) (Nat.zero_le _) (Nat.zero_le _) (Nat.zero_le _) w
  | ok result =>
    have few := length_decodeCompoundMessage decoded
    exact does_mono (does_parts does result.2) (Nat.mul_le_mul_right c few) (Nat.mul_le_mul_right z few)
      (Nat.mul_le_mul_right m few) _

theorem does_compressed {recv : Receiver} {work : Bytes → Work → Option Work} {handle : Bytes → Inbox → Inbox}
    (does : ∀ payload, Does deep c z m (work payload) (handle payload)) (buf : Bytes) :
    Does deep c (1 + z) m (workCompressed recv work buf) (handleCompressed recv handle buf) := by
  intro w
  have attempt := modest_decompression deep recv buf
  unfold workCompressed handleCompressed
  generalize decompressPayload recv buf = result at attempt ⊢
  cases result with
  | error err =>
    exact does_mono (does_note attempt (does_change deep _) id) (Nat.zero_le _) (Nat.le_add_right 1 z) (Nat.zero_le _) w
  | ok payload =>
    exact does_mono (does_note attempt (does payload) id) (Nat.le_of_eq (Nat.zero_add c)) (Nat.le_refl _)
      (Nat.le_of_eq (Nat.zero_add m)) w

end

section
variable {recv : Receiver} {env : Envelope} {fuel depth deep : Nat} {c z m : Nat}

theorem handleCommandIn_nil (s : Inbox) : handleCommandIn recv env [] s = (s.command env []).refuse .missingType := by
  unfold handleCommandIn
  rw [handleAt]

theorem handleCommandIn_nestedCompound (nested : env.inCompound = true) (buf : Bytes) (s : Inbox) :
    handleCommandIn recv env (compoundMsg :: buf) s = (s.command env (compoundMsg :: buf)).refuse .nestedCompound := by
  unfold handleCommandIn
  cases env.room <;> simp only [handleAt,if_true,nested]

theorem handleCommandIn_nestedCompressed (nested : env.inCompress = true) (buf : Bytes) (s : Inbox) :
    handleCommandIn recv env (compressMsg :: buf) s = (s.command env (compressMsg :: buf)).refuse .nestedCompressed := by
  have other : ¬ compressMsg = compoundMsg := by decide
  unfold handleCommandIn
  cases env.room <;> simp only [handleAt,other,if_false,if_true,nested]

theorem handleCommandIn_message {msgType : UInt8} (single : msgType ≠ compoundMsg) (plain : msgType ≠ compressMsg) (buf : Bytes)
    (s : Inbox) :
    handleCommandIn recv env (msgType :: buf) s = handleMessage recv msgType buf (s.command env (msgType :: buf)) := by
  unfold handleCommandIn
  cases env.room <;> simp only [handleAt,if_neg single,if_neg plain]

/-- One call, where what it may call is limited. -/
theorem does_workAt (shallow : depth ≤ deep)
    (compound : env.inCompound = false → ∃ c' z' m', (∀ part, Does deep c' z' m'
      (workAt recv fuel (depth + 1) { env with inCompound := true } part)
      (handleCommandIn recv { env with inCompound := true } part)) ∧ 1 + 255 * c' ≤ c ∧ 255 * z' ≤ z ∧ 255 * m' ≤ m)
    (compress : env.inCompress = false → ∃ c' z' m', (∀ payload, Does deep c' z' m'
      (workAt recv fuel (depth + 1) { env with inCompress := true } payload)
      (handleCommandIn recv { env with inCompress := true } payload)) ∧ 1 + c' ≤ c ∧ 1 + z' ≤ z ∧ m' ≤ m)
    (one : 1 ≤ c) (single : 1 ≤ m) (buf : Bytes) :
    Does deep c z m (workAt recv (fuel + 1) depth env buf) (handleCommandIn recv env buf) := by
  have call := modest_command shallow
  have refused : ∀ r, Does deep c z m
      (fun w => some (((w.note (.command depth)).change (·.command env buf)).change (·.refuse r)))
      (fun s => (s.command env buf).refuse r) := by
    intro r
    exact does_mono (does_note call (does_change deep _) _) one (Nat.zero_le _) (Nat.zero_le _)
  intro w
  cases buf with
  | nil =>
    rw [handleCommandIn_nil]
    exact refused .missingType w
  | cons msgType buf =>
    by_cases isCompound : msgType = compoundMsg
    · subst isCompound
      cases fresh : env.inCompound with
      | true =>
        rw [handleCommandIn_nestedCompound fresh,workAt,if_pos rfl,if_pos fresh]
        exact refused .nestedCompound w
      | false =>
        obtain ⟨c',z',m',does,hc,hz,hm⟩ := compound fresh
        rw [handleCommandIn_compound fresh,workAt,if_pos rfl,if_neg (by simp [fresh])]
        exact does_mono (does_note call (does_compound does buf) _) hc (by omega) (by omega) w
    · by_cases isCompressed : msgType = compressMsg
      · subst isCompressed
        cases fresh : env.inCompress with
        | true =>
          rw [handleCommandIn_nestedCompressed fresh,workAt,if_neg isCompound,if_pos rfl,if_pos fresh]
          exact refused .nestedCompressed w
        | false =>
          obtain ⟨c',z',m',does,hc,hz,hm⟩ := compress fresh
          rw [handleCommandIn_compress fresh,workAt,if_neg isCompound,if_pos rfl,if_neg (by simp [fresh])]
          exact does_mono (does_note call (does_compressed does buf) _) hc (by omega) (by omega) w
      · rw [handleCommandIn_message isCompound isCompressed,workAt,if_neg isCompound,if_neg isCompressed]
        have dispatched := does_note (modest_message deep msgType buf) (does_change deep id) (handleMessage recv msgType buf)
        exact does_mono (does_note call dispatched (·.command env (msgType :: buf))) one (by omega) (by omega) w

/-- Inside both wrappings nothing is unwrapped. -/
theorem does_innermost (fuel : Nat) {depth : Nat} (shallow : depth ≤ deep) (buf : Bytes) :
    Does deep 1 0 1 (workAt recv (fuel + 1) depth ⟨true,true⟩ buf) (handleCommandIn recv ⟨true,true⟩ buf) :=
  does_workAt shallow (by simp) (by simp) (by simp) (by simp) buf

/-- A part of a compound message is decompressed at most once. -/
theorem does_part (fuel : Nat) {depth : Nat} (shallow : depth + 1 ≤ deep) (buf : Bytes) :
    Does deep 2 1 1 (workAt recv (fuel + 2) depth ⟨true,false⟩ buf) (handleCommandIn recv ⟨true,false⟩ buf) :=
  does_workAt (Nat.le_of_succ_le shallow) (by simp) (fun _ => ⟨1,0,1,does_innermost fuel shallow,by simp⟩) (by simp)
    (by simp) buf

/-- A payload is at most one compound message. -/
theorem does_payload (fuel : Nat) {depth : Nat} (shallow : depth + 1 ≤ deep) (buf : Bytes) :
    Does deep 256 0 255 (workAt recv (fuel + 2) depth ⟨false,true⟩ buf) (handleCommandIn recv ⟨false,true⟩ buf) :=
  does_workAt (Nat.le_of_succ_le shallow) (fun _ => ⟨1,0,1,does_innermost fuel shallow,by simp⟩) (by simp) (by simp)
    (by simp) buf

/-- Whatever the bytes, three levels of calls are enough to handle them, and the calls,
    the decompressions, what they return and the messages are limited. -/
theorem envelopes_bounded (recv : Receiver) (buf : Bytes) (s : Inbox) (fuel : Nat) :
    ∃ events, workAt recv (fuel + 3) 1 {} buf ⟨s,[]⟩ = some ⟨handleCommand recv buf s,events⟩ ∧
      (∀ depth, .command depth ∈ events → depth ≤ 3) ∧ events.countP Event.isCommand ≤ 511 ∧
      events.countP Event.isDecompression ≤ 255 ∧
      (∀ payload, .decompression (.ok payload) ∈ events → payload.length ≤ maxPacketDecompressedBytes) ∧
      events.countP Event.isMessage ≤ 255 := by
  have does : Does 3 511 255 255 (workAt recv (fuel + 3) 1 {} buf) (handleCommandIn recv {} buf) :=
    does_workAt (by simp) (fun _ => ⟨2,1,1,does_part fuel (by simp),by simp⟩)
      (fun _ => ⟨256,0,255,does_payload fuel (by simp),by simp⟩) (by simp) (by simp) buf
  obtain ⟨events,done,modest⟩ := does ⟨s,[]⟩
  exact ⟨events,done,modest.depth,modest.commands,modest.decompressions,modest.payload,modest.messages⟩

end

end Mori.Envelopes
