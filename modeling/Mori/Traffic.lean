import Mori.Codecs
import Mori.PeerRecord
import Mori.PushPull

/-!
Traffic as bytes: packets and push/pull states, through their decoders, to the
handlers. What the decoders let through is bounded. A push/pull state without a
name is refused, but an alive message without one is not: the record that it leaves
makes every peer refuse the push/pull state of the node that holds it.
-/
namespace Mori.Traffic
open Mori.Net Mori.Readers Mori.Msgpack Mori.Protocol Mori.Wire Mori.Security Mori.Stream Mori.State Mori.Table
open Mori.Moves Mori.LocalNode Mori.PeerRecord Mori.PushPull
set_option linter.unusedSimpArgs false
set_option maxRecDepth 2000

/-- Where a packet comes from: a pipe, an address, or a text that gives none. -/
inductive Source where
  | pipe
  | ip (addr : Bytes)
  | other
deriving DecidableEq,Repr

/-- True where `ensureCanConnect` returns no error. -/
def ensureCanConnect (conf : Config) (source : Source) : Bool :=
  !conf.ipMustBeChecked || match source with
    | .pipe => true
    | .ip addr => conf.ipAllowed (some addr)
    | .other => false

def handleAlive (m : Memberlist) (buf : Bytes) (source : Source) (env : Env) : Memberlist :=
  if ensureCanConnect m.config source = false then m
  else match decode decodeAlive buf with
  | .error _ => m
  | .ok live => Cluster.handleAlive m live env

def handleSuspect (m : Memberlist) (buf : Bytes) (env : Env) : Memberlist :=
  match decode decodeSuspect buf with
  | .error _ => m
  | .ok sus => suspectNode m sus env

def handleDead (m : Memberlist) (buf : Bytes) (env : Env) : Memberlist :=
  match decode decodeDead buf with
  | .error _ => m
  | .ok d => deadNode m d env

/-- The versions that everyone understands, of the protocol and of the delegate. -/
structure Understood where
  maxpmin : UInt8 := 0
  minpmax : UInt8 := 255
  maxdmin : UInt8 := 0
  mindmax : UInt8 := 255
deriving DecidableEq,Repr

def Understood.narrow (u : Understood) (v : Versions) : Understood :=
  ⟨max u.maxpmin v.pMin,min u.minpmax v.pMax,max u.maxdmin v.dMin,min u.mindmax v.dMax⟩

/-- Why `mergeRemoteState` refuses a state. -/
inductive MergeError where
  | malformed (name : Bytes) (entries : Nat)
  | protocol (name : Bytes) (cur lo hi : UInt8)
  | delegateProtocol (name : Bytes) (cur lo hi : UInt8)
  | delegate (err : String)
deriving DecidableEq,Repr

/-- The speaking versions of a node are among those understood. -/
def Understood.check (u : Understood) (name : Bytes) (v : Versions) : Except MergeError Unit :=
  if v.pCur < u.maxpmin ∨ u.minpmax < v.pCur then .error (.protocol name v.pCur u.maxpmin u.minpmax)
  else if v.dCur < u.maxdmin ∨ u.mindmax < v.dCur then .error (.delegateProtocol name v.dCur u.maxdmin u.mindmax)
  else .ok ()

/-- The first loop of `verifyProtocol`, which also refuses malformed vectors. -/
def narrowRemote : List PushNodeState → Understood → Except MergeError Understood
  | [],u => .ok u
  | rn :: remote,u =>
    match parseVsn rn.vsn with
    | none => .error (.malformed rn.name (bytes rn.vsn).length)
    | some vsn =>
      narrowRemote remote
        (if rn.state ≠ NodeStateType.alive.toInt ∨ (bytes rn.vsn).length = 0 then u else u.narrow vsn)

/-- The second loop: the live local nodes. -/
def narrowLocal (m : Memberlist) (u : Understood) : Understood :=
  m.nodes.foldl (fun u r => if (m.heap r).state ≠ .alive then u else u.narrow (m.heap r).vsn) u

def verifyProtocol (m : Memberlist) (remote : List PushNodeState) : Except MergeError Unit := do
  let u := narrowLocal m (← narrowRemote remote {})
  remote.forM (fun n =>
    if n.state = NodeStateType.dead.toInt ∨ n.state = NodeStateType.left.toInt then return ()
    else u.check n.name ((parseVsn n.vsn).getD {}))
  m.nodes.forM (fun r =>
    if (m.heap r).deadOrLeft then return () else u.check (m.heap r).name (m.heap r).vsn)

/-- `mergeRemoteState`: `notifyMerge` is the error of the merge delegate, where there
    is one that is asked and refuses. The check is made again under mergeLock. -/
def mergeRemoteState (m : Memberlist) (remoteNodes : List PushNodeState) (notifyMerge : Option String)
    (envs : Nat → Env) : Except MergeError Memberlist := do
  verifyProtocol m remoteNodes
  notifyMerge.forM (fun err => throw (.delegate err))
  verifyProtocol m remoteNodes
  return mergeState m (remoteNodes.zipIdx.map (fun r => (r.1,envs r.2)))

theorem mergeRemoteState_ok {m m' : Memberlist} {remoteNodes : List PushNodeState} {notifyMerge : Option String}
    {envs : Nat → Env} (merged : mergeRemoteState m remoteNodes notifyMerge envs = .ok m') :
    m' = mergeState m (remoteNodes.zipIdx.map (fun r => (r.1,envs r.2))) := by
  unfold mergeRemoteState at merged
  cases verified : verifyProtocol m remoteNodes with
  | error err => rw [verified] at merged; cases merged
  | ok _ =>
    rw [verified] at merged
    cases notifyMerge with
    | some err => cases merged
    | none =>
      cases merged
      rfl

/-- What an instance handles: packets and push/pull messages of any content, and
    its own timers and calls. -/
inductive Event where
  | alive (buf : Bytes) (source : Source) (env : Env)
  | suspect (buf : Bytes) (env : Env)
  | dead (buf : Bytes) (env : Env)
  | pushPull (dec : Decoder) (notifyMerge : Option String) (envs : Nat → Env)
  | expire (t : Nat) (env : Env)
  | reset (now : Time) (draws : Nat → Nat)
  | update (answer : Slice) (notify receipt : Option Nat) (env : Env)
  | leave (receipt : Option Nat) (env : Env)

/-- A push/pull message from its decoder on. -/
def handlePushPull (m : Memberlist) (dec : Decoder) (notifyMerge : Option String) (envs : Nat → Env) : Memberlist :=
  match (readRemoteState m.config).run dec with
  | .error _ => m
  | .ok ((_,remoteNodes,_),_) => (mergeRemoteState m remoteNodes notifyMerge envs).toOption.getD m

def handle (m : Memberlist) : Event → Memberlist
  | .alive buf source env => handleAlive m buf source env
  | .suspect buf env => handleSuspect m buf env
  | .dead buf env => handleDead m buf env
  | .pushPull dec notifyMerge envs => handlePushPull m dec notifyMerge envs
  | .expire t env => apply m (.expire t env)
  | .reset now draws => apply m (.reset now draws)
  | .update answer notify receipt env => apply m (.update answer notify receipt env)
  | .leave receipt env => apply m (.leave receipt env)

def handles (m : Memberlist) (events : List Event) : Memberlist := events.foldl handle m

/-- What a section puts into a record is fit to be sent on. -/
def Fit : Op → Prop
  | .alive a _ => a.node ≠ [] ∧ AliveBounded a
  | .merge r _ => r.name ≠ [] ∧ Wire.Bounded r
  | .update answer _ _ _ => (bytes answer).length ≤ maxFieldBytes
  | _ => True

theorem decode_yields {α : Type} {read : Dec α} {Q : α → Prop} (yields : Yields read Q) {buf : Bytes} {a : α}
    (decoded : decode read buf = .ok a) : Q a := by
  unfold decode at decoded
  cases ran : read.run (newDecoder buf) with
  | error err => rw [ran] at decoded; cases decoded
  | ok pair =>
    rw [ran] at decoded
    cases decoded
    exact yields _ _ _ ran

theorem yields_decodeAlive : Yields (decodeAlive : Dec _) AliveBounded := by
  refine yields_mono Codecs.yields_alive ?_
  rintro m ⟨node,addr,metadata,-⟩
  exact ⟨node,addr,metadata⟩

theorem yields_decodePushNodeState : Yields (decodePushNodeState : Dec _) Wire.Bounded := by
  refine yields_mono Codecs.yields_pushNodeState ?_
  rintro m ⟨name,addr,metadata,-,vsn⟩
  exact ⟨name,addr,metadata,vsn⟩

theorem yields_readStates (n i : Nat) :
    Yields (readStates n i) (fun states => ∀ r ∈ states, r.name ≠ [] ∧ Wire.Bounded r) := by
  induction n generalizing i with
  | zero => exact yields_pure (fun _ listed => by cases listed)
  | succ n ih =>
    refine yields_bind (yields_wrapError yields_decodePushNodeState) (fun r bounded => ?_)
    by_cases nameless : r.name = []
    · rw [if_pos nameless]
      exact yields_throw _
    · rw [if_neg nameless]
      refine yields_bind (ih (i + 1)) (fun states fine => yields_pure ?_)
      intro r' listed
      rcases List.mem_cons.mp listed with rfl | later
      · exact ⟨nameless,bounded⟩
      · exact fine r' later

/-- The states of a push/pull message that is read have a name and bounded fields. -/
theorem yields_readRemoteState (conf : Config) :
    Yields (readRemoteState conf) (fun result => ∀ r ∈ result.2.1, r.name ≠ [] ∧ Wire.Bounded r) := by
  refine yields_after (fun header => ?_)
  split_ifs
  · exact yields_throw _
  · exact yields_throw _
  · refine yields_bind (yields_readStates _ 0) (fun states fine => yields_after (fun user => yields_pure ?_))
    intro r listed
    obtain ⟨r',listed',rfl⟩ := List.mem_map.mp listed
    obtain ⟨named,bounded⟩ := fine r' listed'
    exact ⟨named,{ bounded with }⟩

/-- An alive packet, if it is one, names its node, and metadata that the node takes
    on is within the bounds of the wire. -/
def Proper : Event → Prop
  | .alive buf _ _ => ∀ a, decode decodeAlive buf = .ok a → a.node ≠ []
  | .update answer _ _ _ => (bytes answer).length ≤ maxFieldBytes
  | _ => True

/-- Handling a proper event is a run of sections that put only what is fit into
    records. -/
theorem handle_eq_run (m : Memberlist) {e : Event} (proper : Proper e) :
    ∃ ops, handle m e = run m ops ∧ ∀ op ∈ ops, Fit op := by
  have nothing : ∃ ops, m = run m ops ∧ ∀ op ∈ ops, Fit op := ⟨[],rfl,fun _ listed => by cases listed⟩
  have one : ∀ op, Fit op → ∃ ops, apply m op = run m ops ∧ ∀ op ∈ ops, Fit op := by
    intro op fit
    refine ⟨[op],rfl,fun op' listed => ?_⟩
    rw [List.mem_singleton.mp listed]
    exact fit
  cases e with
  | alive buf source env =>
    simp only [handle,handleAlive,Cluster.handleAlive]
    split_ifs
    · exact nothing
    · cases decoded : decode decodeAlive buf with
      | error err => exact nothing
      | ok a =>
        have bounded := decode_yields yields_decodeAlive decoded
        dsimp only
        split_ifs
        · exact nothing
        · exact one (.alive _ env) ⟨proper a decoded,{ bounded with }⟩
  | suspect buf env =>
    simp only [handle,handleSuspect]
    cases decode decodeSuspect buf with
    | error err => exact nothing
    | ok s => exact one (.suspect s env) trivial
  | dead buf env =>
    simp only [handle,handleDead]
    cases decode decodeDead buf with
    | error err => exact nothing
    | ok d => exact one (.dead d env) trivial
  | pushPull dec notifyMerge envs =>
    simp only [handle,handlePushPull]
    cases ran : (readRemoteState m.config).run dec with
    | error err => exact nothing
    | ok result =>
      obtain ⟨⟨join,states,user⟩,dec'⟩ := result
      have fine := yields_readRemoteState m.config _ _ _ ran
      dsimp only at fine ⊢
      rcases merged : mergeRemoteState m states notifyMerge envs with err | m'
      · exact nothing
      · have result : m' = mergeState m (states.zipIdx.map (fun r => (r.1,envs r.2))) := mergeRemoteState_ok merged
        rw [Except.toOption,Option.getD_some,result,mergeState_eq_run]
        refine ⟨_,rfl,?_⟩
        intro op listed
        simp only [List.map_map,List.mem_map,Function.comp_apply] at listed
        obtain ⟨⟨r,i⟩,member,rfl⟩ := listed
        exact fine r (List.fst_mem_of_mem_zipIdx member)
  | expire t env => exact one (.expire t env) trivial
  | reset now draws => exact one (.reset now draws) trivial
  | update answer notify receipt env => exact one (.update answer notify receipt env) proper
  | leave receipt env => exact one (.leave receipt env) trivial

/-- Every record is fit to be sent. -/
def Fits (m : Memberlist) : Prop := ∀ n s, entry m n = some s → Sendable s

section
variable {m m' : Memberlist}

theorem fits_put {n : Bytes} {s : NodeState} (fits : Fits m) (changed : entry m' = Function.update (entry m) n (some s))
    (fine : Sendable s) : Fits m' := by
  unfold Fits
  rw [changed]
  refine (Function.forall_update_iff (entry m) (p := fun _ held => ∀ s, held = some s → Sendable s)).mpr
    ⟨fun s' same => ?_,fun n' _ => fits n'⟩
  cases same
  exact fine

theorem delegateMeta_length {conf : Config} {answer metadata : Slice} (given : delegateMeta conf answer = .ok metadata) :
    (bytes metadata).length ≤ (bytes answer).length := by
  unfold delegateMeta at given
  split_ifs at given with absent large <;> cases given
  · exact Nat.zero_le _
  · exact Nat.le_refl _

theorem fits_move {op : Op} (fit : Fit op) (wf : TableWF m) (fits : Fits m) (move : Move m op m') : Fits m' := by
  have held : ∀ {n r}, m.nodeMap n = some r → Sendable (m.heap r) := fun found => fits _ _ (entry_eq found)
  cases move with
  | conflict => exact fits
  | @add a env vsn =>
    exact fits_put fits (entry_addNode wf (newRecord a vsn) env.offset)
      ⟨⟨fit.2.node,fit.2.addr,fit.2.metadata⟩,fit.1⟩
  | repeatAlive => exact fits
  | refuteAlive found => exact fits_put fits (table_refuteAlive wf found none).2 { held found with }
  | @applyAlive a env r vsn found =>
    exact fits_put fits (table_applyAlive wf a found _ _ _ _).2
      { held found with addr := fit.2.addr, metadata := fit.2.metadata }
  | confirm => exact fits
  | refuteSuspect found => exact fits_put fits (table_refute wf found _).2 { held found with }
  | applySuspect found => exact fits_put fits (table_applySuspect wf _ found _).2 { held found with }
  | repeatDead => exact fits
  | refuteDead found => exact fits_put fits (table_refuteDead wf found _).2 { held found with }
  | applyDead found => exact fits_put fits (table_applyDead wf _ found _ _ _).2 { held found with }
  | reset => exact fun n s present => fits n s (entry_of_reset _ _ wf present)
  | updateStale => exact fits
  | @update _ metadata _ _ _ r given found =>
    exact fits_put fits (table_update wf (ownAlive m r metadata) found _ _ _ _ _).2
      { held found with metadata := (delegateMeta_length given).trans fit }
  | @leave _ _ r found =>
    exact fits_put fits (table_leave wf (ownDead m r) found _ _ _ _).2 { held found with }
  | leaveDead => exact fits

/-- The section that a merged entry or a timer amounts to is fit where the entry is. -/
theorem fit_resolve {op cause : Op} (fit : Fit op) (resolved : resolve m op = some cause) : Fit cause := by
  cases op with
  | merge r env =>
    rcases resolve_merge resolved with ⟨-,rfl⟩ | rfl | rfl
    · exact ⟨fit.1,fit.2.name,fit.2.addr,fit.2.metadata⟩
    · trivial
    · trivial
  | expire t env =>
    obtain ⟨s,-,-,rfl⟩ := resolve_expire resolved
    trivial
  | _ =>
    cases resolved
    exact fit

theorem fits_run {ops : List Op} (fit : ∀ op ∈ ops, Fit op) (wf : TableWF m) (fits : Fits m) :
    TableWF (run m ops) ∧ Fits (run m ops) :=
  run_keeps fit_resolve fits_move wf fits fit

theorem config_run (wf : TableWF m) (ops : List Op) : (run m ops).config = m.config :=
  (run_invariant (I := fun m' => m'.config = m.config) (fun _ same move => (config_move move).trans same) wf rfl ops).2

/-- Proper traffic keeps a table fit to be sent. -/
theorem fits_handles {events : List Event} (proper : ∀ e ∈ events, Proper e) (wf : TableWF m) (fits : Fits m) :
    TableWF (handles m events) ∧ Fits (handles m events) ∧ (handles m events).config = m.config := by
  induction events generalizing m with
  | nil => exact ⟨wf,fits,rfl⟩
  | cons e events ih =>
    obtain ⟨ops,ran,fit⟩ := handle_eq_run m (proper e List.mem_cons_self)
    obtain ⟨wf',fits'⟩ := fits_run fit wf fits
    have same := config_run wf ops
    rw [← ran] at wf' fits' same
    obtain ⟨wf'',fits'',same'⟩ := ih (fun e' listed => proper e' (List.mem_cons_of_mem e listed)) wf' fits'
    exact ⟨wf'',fits'',same'.trans same⟩

end

theorem fits_build (conf : Config) : Fits (buildMemberlist conf) := fun _ _ held => by cases held

/-- The commit of `setAlive` keeps the table fit where the node's own message is. -/
theorem fits_boot {m m' : Memberlist} {a : Alive} (wf : TableWF m) (fits : Fits m) (named : a.node ≠ [])
    (bounded : AliveBounded a) (boot : Boot m a m') : Fits m' := by
  have fresh : ∀ {vsn}, Sendable (newRecord a vsn) := ⟨⟨bounded.node,bounded.addr,bounded.metadata⟩,named⟩
  cases boot with
  | idle => exact fits
  | conflict => exact fits
  | @apply r vsn receipt now found =>
    exact fits_put fits (table_applyAlive wf a found _ _ _ _).2
      { fits _ _ (entry_eq found) with addr := bounded.addr, metadata := bounded.metadata }
  | @first vsn offset receipt now absent =>
    have added := fits_put fits (entry_addNode wf (newRecord a vsn) offset) fresh
    refine fits_put added (table_applyAlive (tableWF_addNode wf absent offset) a (addNode_nodeMap ..) _ _ _ _).2 ?_
    rw [addNode_heap]
    exact { (fresh : Sendable (newRecord a vsn)) with }

/-- A node that handles proper traffic can always be synchronized with. In every run
    in which each alive packet names its node, before `setAlive` commits and after
    it, what the node sends of its table is too large, or a peer of the same
    configuration accepts it. -/
theorem pushPull_stays_acceptable (coders : Coders) (conf : Config) (title : conf.name ≠ [])
    (short : conf.name.length ≤ maxFieldBytes)
    (consistent : encryptionEnabled conf = true → conf.gossipVerifyIncoming = true → conf.gossipVerifyOutgoing = true)
    (addr : Slice) (near : (bytes addr).length ≤ maxFieldBytes) (port : Int) (given : Slice)
    (small : (bytes given).length ≤ maxFieldBytes) {metadata : Slice} (asked : delegateMeta conf given = .ok metadata)
    (before between after : List Event) (proper : ∀ e ∈ before ++ between ++ after, Proper e) {m : Memberlist}
    {receipt : Option Nat} {env : Env} :
    let drawn := setAliveMessage (handles (buildMemberlist conf) before) addr port metadata
    setAliveLocked (handles drawn.1 between) drawn.2 receipt env = .ok m →
    ∀ (join : Bool) (answer : Slice) (nonce : Nonce) (label rest peerName : Bytes),
      (∃ err, sendLocalState coders (handles m after) join answer nonce label = .error err) ∨
        ∃ sent d result d', sendLocalState coders (handles m after) join answer nonce label = .ok sent ∧
          readStream coders { conf with name := peerName } (sent ++ rest) label = .ok (pushPullMsg,d) ∧
          (readRemoteState { conf with name := peerName }).run d = .ok (result,d') := by
  intro drawn committed join answer nonce label rest peerName
  obtain ⟨wf₁,fits₁,same₁⟩ := fits_handles
    (fun e listed => proper e (List.mem_append_left _ (List.mem_append_left _ listed))) (tableWF_build conf)
    (fits_build conf)
  -- Drawing the incarnation does not touch the table.
  have wfDrawn : TableWF drawn.1 := tableWF_of_same (m := handles (buildMemberlist conf) before) ⟨rfl,rfl,rfl,rfl,rfl⟩ wf₁
  obtain ⟨wf₂,fits₂,same₂⟩ := fits_handles
    (fun e listed => proper e (List.mem_append_left _ (List.mem_append_right _ listed))) wfDrawn
    (show Fits drawn.1 from fits₁)
  have sameDrawn : (handles drawn.1 between).config = conf := same₂.trans same₁
  have own : drawn.2.node = conf.name := congrArg Config.name same₁
  have bounded : AliveBounded drawn.2 := ⟨by rw [own]; exact short,near,(delegateMeta_length asked).trans small⟩
  obtain ⟨rfl,boot⟩ := setAliveLocked_boot (own.trans (congrArg Config.name sameDrawn).symm) committed
  have fits₃ := fits_boot wf₂ fits₂ (by rw [own]; exact title) bounded boot
  obtain ⟨wf,fits,same⟩ := fits_handles (fun e listed => proper e (List.mem_append_right _ listed))
    (tableWF_boot wf₂ boot) fits₃
  have same : _ = conf := same.trans ((config_boot boot).trans sameDrawn)
  generalize handles _ after = m at wf fits same ⊢
  cases written : sendLocalState coders m join answer nonce label with
  | error err => exact .inl ⟨err,rfl⟩
  | ok sent =>
    have sendable : ∀ r ∈ m.nodes, Sendable (m.heap r) := by
      intro r listed
      obtain ⟨n,found⟩ := (wf.listed r).mp listed
      exact fits n _ (entry_eq found)
    have readable : Readable coders m.config { conf with name := peerName } sent label := by
      rw [same]
      exact readable_same rfl consistent
    obtain ⟨d,d',read,accepted⟩ := sendLocalState_accepted sendable written readable rest
    exact .inr ⟨sent,d,_,d',rfl,read,accepted⟩

/-- The node `a` without compression, after a start that no message disturbs. -/
def quiet : Config := { restarting with enableCompression := false }

def quietStart : Memberlist :=
  aliveNodeLocked (firstDraw quiet (some [10,0,0,1]) 7946 none).1 (firstDraw quiet (some [10,0,0,1]) 7946 none).2 none
    true none {}

/-- An alive packet whose node has no name. -/
def nameless : Bytes := appendAlive ⟨1,[],some [10,0,0,2],7946,none,some [1,5,2,0,0,0]⟩

/-- After a packet without a name the node `a` sends a push/pull state that its
    peers refuse. -/
theorem pushPull_refused :
    Started quietStart ∧ quiet.name ≠ [] ∧
      ∃ sent d i,
        sendLocalState ⟨storing,tagging⟩ (handles quietStart [.alive nameless (.ip [10,0,0,2]) {}]) false none zeroNonce
          [] = .ok sent ∧
        readStream ⟨storing,tagging⟩ { quiet with name := [98] } (sent ++ []) [] = .ok (pushPullMsg,d) ∧
        (readRemoteState { quiet with name := [98] }).run d = .error (.noName i) := by
  have nodes : (handles quietStart [.alive nameless (.ip [10,0,0,2]) {}]).nodes = [2,1] := by decide
  have sized : ∀ r ∈ (handles quietStart [.alive nameless (.ip [10,0,0,2]) {}]).nodes,
      Sized ((handles quietStart [.alive nameless (.ip [10,0,0,2]) {}]).heap r) := by
    intro r listed
    rw [nodes] at listed
    simp only [List.mem_cons,List.not_mem_nil,or_false] at listed
    rcases listed with rfl | rfl
    · exact ⟨by decide,by decide,by decide⟩
    · exact ⟨by decide,by decide,by decide⟩
  have empty : ((handles quietStart [.alive nameless (.ip [10,0,0,2]) {}]).heap 2).name = [] := by decide
  have written : ∃ sent, sendLocalState ⟨storing,tagging⟩ (handles quietStart [.alive nameless (.ip [10,0,0,2]) {}])
      false none zeroNonce [] = .ok sent := ⟨_,rfl⟩
  obtain ⟨sent,written⟩ := written
  have readable : Readable ⟨storing,tagging⟩ quiet { quiet with name := [98] } sent [] :=
    readable_same rfl (fun _ _ => rfl)
  obtain ⟨d,i,read,refused⟩ := sendLocalState_refused sized ⟨2,by rw [nodes]; decide,empty⟩ written readable []
  exact ⟨⟨quiet,some [10,0,0,1],7946,none,none,none,{},rfl,rfl,rfl⟩,by decide,sent,d,i,written,read,refused⟩

/-- The same packet with a name. -/
def introduced : Bytes := appendAlive ⟨1,[98],some [10,0,0,2],7946,none,some [1,5,2,0,0,0]⟩

theorem pushPull_stays_acceptable_introduced :
    (∃ err, sendLocalState ⟨storing,tagging⟩ (handles quietStart [.alive introduced (.ip [10,0,0,2]) {}]) false none
        zeroNonce [] = .error err) ∨
      ∃ sent d result d',
        sendLocalState ⟨storing,tagging⟩ (handles quietStart [.alive introduced (.ip [10,0,0,2]) {}]) false none
          zeroNonce [] = .ok sent ∧
        readStream ⟨storing,tagging⟩ { quiet with name := [98] } (sent ++ []) [] = .ok (pushPullMsg,d) ∧
        (readRemoteState { quiet with name := [98] }).run d = .ok (result,d') := by
  have proper : ∀ e ∈ [] ++ [] ++ [Event.alive introduced (.ip [10,0,0,2]) {}], Proper e := by
    intro e listed
    rw [List.mem_singleton.mp listed]
    intro a decoded
    have known : decode decodeAlive introduced = .ok ⟨1,[98],some [10,0,0,2],7946,none,some [1,5,2,0,0,0]⟩ := rfl
    rw [known] at decoded
    cases decoded
    decide
  exact pushPull_stays_acceptable ⟨storing,tagging⟩ quiet (by decide) (by decide) (fun _ _ => rfl)
    (some [10,0,0,1]) (by decide) 7946 none (by decide) rfl [] [] [.alive introduced (.ip [10,0,0,2]) {}] proper rfl
    false none zeroNonce [] [] [98]

end Mori.Traffic
