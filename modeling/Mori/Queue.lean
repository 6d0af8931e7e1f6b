import Mori.Net
import Mori.Treaps
import Mathlib.Logic.Function.Basic

/-!
The broadcast queue (`queue.go`): entries in an arena, linked by pointers into a
treap that is ordered by transmit count, message length and id, and into an index
of names. The entries are mutated where they are, as in the source. Operations
return `none` where the source would dereference nil or write to a nil map.
-/
namespace Mori.Queue
open Mori.Net Mori.Treaps

/-- The optional interface that a broadcast implements: `NamedBroadcast`, which
    takes precedence, `UniqueBroadcast`, or none. -/
inductive Kind where
  | named (name : Bytes)
  | unique
  | plain
deriving DecidableEq,Repr

/-- A `Broadcast`; `object` tells apart those with the same contents. -/
structure Broadcast where
  object : Nat
  kind : Kind
  message : Bytes
deriving DecidableEq,Repr

/-- The name under which a broadcast is indexed; an empty one is none. -/
def Broadcast.name (b : Broadcast) : Bytes :=
  match b.kind with
  | .named name => name
  | _ => []

/-- A pointer to an entry. -/
abbrev Ref := Nat

/-- A queued broadcast. Its links are in the treap. -/
structure LimitedBroadcast where
  transmits : Nat := 0
  msgLen : Int := 0
  id : Int := 0
  b : Broadcast := ⟨0,.plain,[]⟩
  name : Bytes := []
  prio : UInt64 := 0
deriving DecidableEq,Repr

/-- Fewer transmits first, then longer messages, then newer ones. -/
def less (b o : LimitedBroadcast) : Bool :=
  if b.transmits ≠ o.transmits then b.transmits < o.transmits
  else if b.msgLen ≠ o.msgLen then o.msgLen < b.msgLen
  else o.id < b.id

/-- Why an entry was finished. -/
inductive Cause where
  | invalidated
  | transmitLimit
  | pruned
  | reset
deriving DecidableEq,Repr

/-- The queue. `alloc` is the next free pointer. No code reads `finished` and
    `returned`: they log the calls of `Finished` and the entries whose messages were
    returned, in order. -/
structure TransmitLimitedQueue where
  heap : Ref → LimitedBroadcast := fun _ => {}
  alloc : Ref := 0
  root : Treap Ref := .nil
  n : Int := 0
  /-- `none` is a nil map. -/
  tm : Option (Bytes → Option Ref) := none
  idGen : Int := 0
  finished : List (Ref × Cause) := []
  returned : List Ref := []

abbrev lessAt (heap : Ref → LimitedBroadcast) (a b : Ref) : Bool := less (heap a) (heap b)
abbrev prioAt (heap : Ref → LimitedBroadcast) (a : Ref) : Nat := (heap a).prio.toNat

def treapInsert (heap : Ref → LimitedBroadcast) (t : Treap Ref) (x : Ref) : Treap Ref :=
  insert (lessAt heap) (prioAt heap) t x

def treapDelete (heap : Ref → LimitedBroadcast) (t : Treap Ref) (x : Ref) : Option (Treap Ref) :=
  delete (lessAt heap) (prioAt heap) t x

/-- The first entry not ordering before `k`. -/
def treapCeil (heap : Ref → LimitedBroadcast) (t : Treap Ref) (k : LimitedBroadcast) : Option Ref :=
  ceil (fun r => less (heap r) k) t

/-- The entry right after `x`. -/
def treapNext (heap : Ref → LimitedBroadcast) (t : Treap Ref) (x : Ref) : Option Ref :=
  ceil (fun r => !lessAt heap x r) t

def treapMin (t : Treap Ref) : Option Ref := Treaps.min t
def treapMax (t : Treap Ref) : Option Ref := Treaps.max t

/-- The addition of an `int64`. -/
def int64 (x : Int) : Int := Int.bmod x (2 ^ 64)

theorem int64_of_fits {x : Int} (low : -2 ^ 63 ≤ x) (high : x ≤ 2 ^ 63 - 1) : int64 x = x :=
  Int.bmod_eq_of_le_mul_two (by omega) (by omega)

def maxInt64 : Int := 2 ^ 63 - 1

/-- Reading a nil map finds nothing. -/
def lookup (q : TransmitLimitedQueue) (name : Bytes) : Option Ref := q.tm.bind (fun tm => tm name)

def lazyInit (q : TransmitLimitedQueue) : TransmitLimitedQueue :=
  { q with tm := some (q.tm.getD (fun _ => none)) }

/-- Calls `Finished` of an entry. -/
def finish (q : TransmitLimitedQueue) (cur : Ref) (cause : Cause) : TransmitLimitedQueue :=
  { q with finished := q.finished ++ [(cur,cause)] }

def deleteItem (q : TransmitLimitedQueue) (cur : Ref) : Option TransmitLimitedQueue :=
  (treapDelete q.heap q.root cur).map (fun root =>
    { q with
      root := root
      n := q.n - 1
      tm := if (q.heap cur).name ≠ [] then q.tm.map (fun tm => Function.update tm (q.heap cur).name none) else q.tm })

/-- Links an entry, with a new random priority. -/
def addItem (q : TransmitLimitedQueue) (cur : Ref) (draw : UInt64) : Option TransmitLimitedQueue :=
  let heap := Function.update q.heap cur { q.heap cur with prio := draw }
  let q := { q with heap := heap, root := treapInsert heap q.root cur, n := q.n + 1 }
  if (heap cur).name ≠ [] then q.tm.map (fun tm => { q with tm := some (Function.update tm (heap cur).name (some cur)) })
  else some q

/-- The scan for the entries that a broadcast invalidates: those that are neither
    named nor unique are asked about, and finished. -/
def scan (q : TransmitLimitedQueue) (invalidates : Broadcast → Bool) : TransmitLimitedQueue × List Ref :=
  ascendFrom (fun _ => false) q.root (fun (q,remove) cur =>
    if (q.heap cur).b.kind = .plain ∧ invalidates (q.heap cur).b = true then
      ((finish q cur .invalidated,remove ++ [cur]),true)
    else ((q,remove),true)) (q,[])

/-- The part of `queueBroadcast` that removes what the new broadcast invalidates. -/
def invalidate (q : TransmitLimitedQueue) (b : Broadcast) (invalidates : Broadcast → Bool) :
    Option TransmitLimitedQueue :=
  if b.name ≠ [] then
    match lookup q b.name with
    | some old => deleteItem (finish q old .invalidated) old
    | none => some q
  else if b.kind = .unique then some q
  else (scan q invalidates).2.foldlM deleteItem (scan q invalidates).1

/-- The new entry of a broadcast. -/
def submit (q : TransmitLimitedQueue) (b : Broadcast) (initialTransmits : Nat) : TransmitLimitedQueue :=
  { q with
    idGen := int64 (q.idGen + 1)
    alloc := q.alloc + 1
    heap := Function.update q.heap q.alloc
      { transmits := initialTransmits, msgLen := b.message.length, id := int64 (q.idGen + 1), b := b, name := b.name } }

/-- `queueBroadcast`; `invalidates` is the method of `b`. -/
def queueBroadcastAt (q : TransmitLimitedQueue) (b : Broadcast) (initialTransmits : Nat)
    (invalidates : Broadcast → Bool) (draw : UInt64) : Option TransmitLimitedQueue :=
  (invalidate (submit (lazyInit q) b initialTransmits) b invalidates).bind (fun q' => addItem q' q.alloc draw)

def queueBroadcast (q : TransmitLimitedQueue) (b : Broadcast) (invalidates : Broadcast → Bool) (draw : UInt64) :
    Option TransmitLimitedQueue :=
  queueBroadcastAt q b 0 invalidates draw

def getTransmitRange (q : TransmitLimitedQueue) : Option (Nat × Nat) :=
  if q.n = 0 then some (0,0)
  else (treapMin q.root).bind (fun lo => (treapMax q.root).map (fun hi => ((q.heap lo).transmits,(q.heap hi).transmits)))

/-- Skips the entries of a tier whose message does not fit. The fuel is the number
    of entries that may be looked at. -/
def skipLarge (q : TransmitLimitedQueue) (transmits : Nat) (free : Int) : Nat → Option Ref → Option Ref
  | 0,_ => none
  | _ + 1,none => none
  | fuel + 1,some keep =>
    if (q.heap keep).transmits = transmits ∧ free < ((q.heap keep).b.message.length : Int) then
      skipLarge q transmits free fuel (treapNext q.heap q.root keep)
    else some keep

/-- The first entry of a tier whose message fits. -/
def fitting (q : TransmitLimitedQueue) (transmits : Nat) (free : Int) : Option Ref :=
  (skipLarge q transmits free (size q.root + 1)
    (treapCeil q.heap q.root { transmits := transmits, msgLen := free, id := maxInt64 })).filter
      (fun keep => (q.heap keep).transmits = transmits)

/-- The variables of the loop of `GetBroadcasts`. -/
structure Batch where
  q : TransmitLimitedQueue
  bytesUsed : Int := 0
  toSend : List Bytes := []
  reinsert : List Ref := []

/-- Takes an entry off the queue to send it. It is finished when it has reached the
    limit, or else kept for the next tier. -/
def take (overhead transmitLimit : Int) (s : Batch) (keep : Ref) : Option Batch :=
  (deleteItem s.q keep).map (fun q =>
    let msg := (q.heap keep).b.message
    let q := { q with returned := q.returned ++ [keep] }
    let s := { s with bytesUsed := s.bytesUsed + (overhead + msg.length), toSend := s.toSend ++ [msg] }
    if transmitLimit ≤ ((q.heap keep).transmits : Int) + 1 then { s with q := finish q keep .transmitLimit }
    else
      let bumped := { q.heap keep with transmits := (q.heap keep).transmits + 1 }
      { s with q := { q with heap := Function.update q.heap keep bumped }, reinsert := s.reinsert ++ [keep] })

/-- The loop over the tiers. The fuel is the number of rounds left; `none` is also
    where it runs out. -/
def fill (overhead limit transmitLimit : Int) (maxTr : Nat) : Nat → Nat → Batch → Option Batch
  | 0,_,_ => none
  | fuel + 1,transmits,s =>
    if maxTr < transmits then some s
    else if limit - s.bytesUsed - overhead ≤ 0 then some s
    else match fitting s.q transmits (limit - s.bytesUsed - overhead) with
    | none => fill overhead limit transmitLimit maxTr fuel (transmits + 1) s
    | some keep =>
      (take overhead transmitLimit s keep).bind (fill overhead limit transmitLimit maxTr fuel transmits)

/-- Links the entries that go on to the next tier, with one priority each. -/
def relink (draws : Nat → UInt64) : Nat → List Ref → TransmitLimitedQueue → Option TransmitLimitedQueue
  | _,[],q => some q
  | i,cur :: reinsert,q => (addItem q cur (draws i)).bind (relink draws (i + 1) reinsert)

/-- `GetBroadcasts`; `transmitLimit` is what `retransmitLimit` gives. -/
def getBroadcasts (q : TransmitLimitedQueue) (overhead limit transmitLimit : Int) (draws : Nat → UInt64) :
    Option (TransmitLimitedQueue × List Bytes) :=
  if q.n = 0 then some (q,[])
  else
    (getTransmitRange q).bind (fun (minTr,maxTr) =>
      (fill overhead limit transmitLimit maxTr (maxTr - minTr + size q.root + 2) minTr { q := q }).bind (fun s =>
        (relink draws 0 s.reinsert s.q).map (fun q => (q,s.toSend))))

/-- The loop of `Prune`. The fuel is the number of entries. -/
def pruneLoop (maxRetain : Int) : Nat → TransmitLimitedQueue → Option TransmitLimitedQueue
  | 0,q => if maxRetain < q.n then none else some q
  | fuel + 1,q =>
    if maxRetain < q.n then
      (treapMax q.root).bind (fun cur => (deleteItem (finish q cur .pruned) cur).bind (pruneLoop maxRetain fuel))
    else some q

def prune (q : TransmitLimitedQueue) (maxRetain : Int) : Option TransmitLimitedQueue :=
  pruneLoop maxRetain (size q.root) q

def reset (q : TransmitLimitedQueue) : TransmitLimitedQueue :=
  let q := ascendFrom (fun _ => false) q.root (fun q cur => (finish q cur .reset,true)) q
  { q with root := .nil, n := 0, tm := none, idGen := 0 }

/-- The operations of a queue, with what they are given. -/
inductive Op where
  | queueBroadcast (b : Broadcast) (invalidates : Broadcast → Bool)
  | getBroadcasts (overhead limit transmitLimit : Int)
  | prune (maxRetain : Int)
  | reset

/-- An operation, with the priorities it draws, and the messages that it returns. -/
def step (q : TransmitLimitedQueue) (draws : Nat → UInt64) : Op → Option (TransmitLimitedQueue × List Bytes)
  | .queueBroadcast b invalidates => (queueBroadcast q b invalidates (draws 0)).map (fun q => (q,[]))
  | .getBroadcasts overhead limit transmitLimit => getBroadcasts q overhead limit transmitLimit draws
  | .prune maxRetain => (prune q maxRetain).map (fun q => (q,[]))
  | .reset => some (reset q,[])

/-- A sequence of operations, and what each of them returns. -/
def run (q : TransmitLimitedQueue) : List (Op × (Nat → UInt64)) → Option (TransmitLimitedQueue × List (List Bytes))
  | [] => some (q,[])
  | (op,draws) :: ops =>
    (step q draws op).bind (fun (q,out) => (run q ops).map (fun (q,outs) => (q,out :: outs)))

end Mori.Queue
