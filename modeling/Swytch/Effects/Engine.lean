import Swytch.Effects.Context
import Swytch.Effects.Nack
import Swytch.Effects.Reconstruct
import Mathlib.Data.List.AList

open swytch.proto swytch.keytrie

namespace swytch.effects

/-- What a node answers about one key of an effect it was sent. -/
structure NackNotify where
  key : Bytes
  tipDetails : List NackTipDetail := []
  notSubscribed : Bool := false

/-- How far a call of `flushTx` has come, and what it has decided so far. -/
inductive FlushTx where
  | idle
  | preflighted
  | published
  | validated
  | admitted (bind : TransactionalBindEffect)
  | bound (ptxn : PendingTxn) (bind : TransactionalBindEffect)
  | pending (ptxn : PendingTxn)
  | waiting (ptxn : PendingTxn) (subscribers : List NodeID) (responses : List (NodeID × List NackNotify))
  | committed (ptxn : PendingTxn) (subscribers : List NodeID) (responses : List (NodeID × List NackNotify))
  | aborted
  | ambiguous

/-- The transaction, if it is registered for NACKs. -/
def FlushTx.pendingTxn : FlushTx → Option PendingTxn
  | .pending p => some p
  | .waiting p _ _ => some p
  | _ => none

/-- A command's pending effects by key, and its transaction if there is one. -/
structure Context where
  keys : AList (fun _ : Bytes => ContextKey) := ∅
  inTx : Bool := false
  txnID : Bytes := []
  flush : FlushTx := .idle

/-- An `abort_deps` entry of a remote bind ends the transaction that wrote the tip. -/
def Context.abortNamed (aborted : List Tip) (ctx : Context) : Context :=
  if ctx.flush.pendingTxn.any (fun p => p.keys.any (fun pk => pk.newTip ∈ aborted)) then
    { ctx with flush := .aborted }
  else ctx

/-- The state of one engine. `effectCache` holds what `getEffect` resolves; a fetch
from a peer adds to it. -/
structure Node where
  effectCache : Log := ∅
  index : Map Bytes TipSet := ∅
  subscriptions : Finset Bytes := ∅
  peerSubscribers : Map Bytes (List NodeID) := ∅
  pendingTxTips : Map Tip (List Tip) := ∅
  spokenBinds : Map Tip (List Tip) := ∅
  nextOff : Nat := 0
  contexts : List Context := []

variable (rt : Runtime) (nd : Node) (self : NodeID) (t : Tip) (eff : Effect)

def bindOf : Option TransactionalBindEffect :=
  match eff.kind with
  | .txnBind b => some b
  | _ => none

/-- The entries of a bind; any other effect has none. -/
def keyBinds : List KeyBind :=
  (bindOf eff).elim [] TransactionalBindEffect.keys

variable (c : Nat) (ctx : Context) (key : Bytes)

namespace Node

def tips : TipSet :=
  (nd.index.lookup key).getD .empty

def setContext : Node :=
  { nd with contexts := nd.contexts.set c ctx }

def newContext : Node :=
  { nd with contexts := nd.contexts ++ [{}] }

def updateIndex (key : Bytes) (initialTips : TipSet) (lastOffset : Tip) : Node :=
  { nd with index := nd.index.insert key (effects.updateIndex (nd.tips key) initialTips lastOffset) }

def installTips (tips : List Tip) : Node :=
  { nd with index := nd.index.insert key (newTipSet ((nd.tips key).tips ++ tips)) }

def releasePending : Node :=
  { nd with pendingTxTips := nd.pendingTxTips.erase t }

def storePending (deps : List Tip) : Node :=
  { nd with pendingTxTips := nd.pendingTxTips.insert t deps }

def isSubscriptionTip : Bool :=
  (nd.effectCache.lookup t).any isSubscription

def nextTip : Tip := ⟨self, nd.nextOff + 1⟩

/-- Write an effect of this node at the next offset. -/
def mint : Node :=
  { nd with effectCache := nd.effectCache.insert (nd.nextTip self) eff, nextOff := nd.nextOff + 1 }

/-- The tips a first effect on a key starts from: those the caller read, or the current
ones. A transaction adds the subscriptions that arrived since. -/
def firstTips (inTx : Bool) (key : Bytes) (snapshotTips : Option (List Tip)) : TipSet :=
  let base := snapshotTips.elim (nd.tips key) newTipSet
  if inTx then newTipSet (base.tips ++ (nd.tips key).tips.filter nd.isSubscriptionTip) else base

/-- The effect that `Emit` writes: later effects of a context on a key form a chain. -/
def fill (eff : Effect) (snapshotTips : Option (List Tip)) : Effect :=
  { eff with
    nodeId := self
    forkChoiceHash := rt.forkChoiceHash self eff.hlc
    txnId := if ctx.inTx then ctx.txnID else []
    deps := match ctx.keys.lookup eff.key with
      | some ck => [ck.lastOffset]
      | none => resolveTipDeps nd.pendingTxTips (nd.firstTips ctx.inTx eff.key snapshotTips).tips }

end Node

variable (ck : ContextKey)

/-- A read of the transaction turns into a write with the first data or row effect. -/
def ContextKey.track (eff : Effect) : ContextKey :=
  match eff.kind with
  | .data d =>
    { ck with
      readOnly := false
      collection := d.collection
      elementIDs := if d.id = [] then ck.elementIDs else ck.elementIDs ++ [d.id] }
  | .rowWrite _ => { ck with readOnly := false }
  | _ => ck

def ContextKey.append (inTx : Bool) (t : Tip) (eff : Effect) : ContextKey :=
  let tracked := if inTx then ck.track eff else ck
  { tracked with lastOffset := t, notifies := ck.notifies ++ [t] }

namespace Node

/-- The entry of a key before an effect is added to it. -/
def contextKey (snapshotTips : Option (List Tip)) : ContextKey :=
  (ctx.keys.lookup key).getD
    { initialTips := nd.firstTips ctx.inTx key snapshotTips, lastOffset := .zero, readOnly := ctx.inTx }

/-- `Emit`: the effect is written and the context remembers it; the index is left alone. -/
def emit (eff : Effect) (snapshotTips : Option (List Tip)) : Node :=
  let ck := (nd.contextKey ctx eff.key snapshotTips).append ctx.inTx (nd.nextTip self) eff
  (nd.mint self (nd.fill rt self ctx eff snapshotTips)).setContext c { ctx with keys := ctx.keys.insert eff.key ck }

/-- The flush of one key outside a transaction. -/
def flushNonTx : Node :=
  (nd.updateIndex key ck.initialTips ck.lastOffset).setContext c { ctx with keys := ctx.keys.erase key }

/-- The snapshot that `emitSnapshot` writes, chained to the first snapshot among the
current tips. -/
def snapshotEffect (verdicts : Map Bytes Verdict) (hlc : Timestamp) : Effect :=
  { key := key, hlc := hlc,
    kind := .snapshot
      { txnVerdicts := verdicts
        prevSnapshot := (nd.tips key).tips.find? (fun t => (nd.effectCache.lookup t).any isSnapshot) } }

/-- A node has authority over the keys it subscribed to or has tips of. -/
def serves : Bool :=
  key ∈ nd.subscriptions ∨ (nd.index.lookup key).isSome

def authoritative : Bool :=
  nd.serves eff.key || (keyBinds eff).any (fun kb => nd.serves kb.key)

/-- The part of an arrival that is done before the index changes: the effect is cached
and an in-progress transactional tip is tracked. -/
def ingest : Node :=
  let cached := { nd with effectCache := nd.effectCache.insert t eff }
  if eff.txnId ≠ [] ∧ ¬ isBind eff then cached.storePending t eff.deps else cached

/-- The tips an arrival consumes on its own key. -/
def arrivalDeps : List Tip :=
  (keyBindOf eff eff.key).elim eff.deps (fun kb => [kb.newTip])

/-- Index an arrival under its key, and a bind under its other keys too. -/
def indexArrival : Node :=
  let own := if eff.key ∈ nd.subscriptions then nd.updateIndex eff.key (newTipSet (arrivalDeps eff)) t else nd
  (keyBinds eff).foldl (fun nd kb =>
    if kb.key ≠ eff.key ∧ kb.key ∈ nd.subscriptions then nd.updateIndex kb.key .empty t else nd) own

def addSpoken (spoken : Map Tip (List Tip)) (bindOffset : Tip) (consumed : List Tip) : Map Tip (List Tip) :=
  consumed.foldl (fun spoken ct =>
    let binds := (spoken.lookup ct).getD []
    spoken.insert ct (if bindOffset ∈ binds then binds else binds ++ [bindOffset])) spoken

/-- A remote bind frees and aborts the transactions it names, and is kept for every tip
it consumed. -/
def handleRemoteBind (bindOffset : Tip) (bind : TransactionalBindEffect) : Node :=
  let freed := bind.abortDeps.foldl releasePending nd
  { freed with
    contexts := freed.contexts.map (Context.abortNamed bind.abortDeps)
    spokenBinds := addSpoken freed.spokenBinds bindOffset (bind.keys.flatMap KeyBind.consumedTips) }

/-- The keys on which a bind does not know every current tip. -/
def bindNacks (bindOffset : Tip) (bind : TransactionalBindEffect) : List NackNotify :=
  bind.keys.filterMap fun kb =>
    let current := (nd.tips kb.key).tips
    if current.any (fun t => t ≠ kb.newTip ∧ t ≠ bindOffset ∧ t ∉ kb.consumedTips) then
      some { key := kb.key, tipDetails := buildEnrichedNack rt nd.effectCache current }
    else none

/-- The answer to an effect that is not a bind. `before` are the tips it arrived at. -/
def effectNacks (before : Option TipSet) (eff : Effect) : List NackNotify :=
  let nack (tips : List Tip) : NackNotify := ⟨eff.key, buildEnrichedNack rt nd.effectCache tips, false⟩
  (if before.any (fun tips => eff.deps.any (· ∉ tips)) then [nack (nd.tips eff.key).tips] else []) ++
    (if isSubscription eff ∧ eff.nodeId ≠ self then [nack (before.elim [] TipSet.tips)] else [])

/-- A remote subscription changes the subscriber set of its key. -/
def subscribePeer : Node :=
  match eff.kind with
  | .subscription sub =>
    let peers := (nd.peerSubscribers.lookup eff.key).getD []
    if eff.nodeId = self then nd
    else if sub.unsubscribe then
      { nd with peerSubscribers := nd.peerSubscribers.insert eff.key (peers.filter (· ≠ eff.nodeId)) }
    else if eff.nodeId ∈ peers then nd
    else { nd with peerSubscribers := nd.peerSubscribers.insert eff.key (peers ++ [eff.nodeId]) }
  | _ => nd

/-- `HandleRemote`: the state after the arrival of an effect, and the answer. Fails if
the effect does not carry the hash of its origin and timestamp. -/
def handleRemote : Option (Node × List NackNotify) :=
  if ¬ nd.authoritative eff then
    some (nd, if isSubscription eff then [] else [{ key := eff.key, notSubscribed := true }])
  else if eff.forkChoiceHash ≠ rt.forkChoiceHash eff.nodeId eff.hlc then none
  else
    match bindOf eff with
    | some bind =>
      let arrived := ((nd.ingest t eff).handleRemoteBind t bind).indexArrival t eff
      some (arrived, arrived.bindNacks rt t bind)
    | none =>
      let arrived := (nd.ingest t eff).indexArrival t eff
      some (arrived.subscribePeer self eff, arrived.effectNacks rt self (nd.index.lookup eff.key) eff)

/-- `handleBackfill`: an effect learned about indirectly. A bind is past its wait. -/
def handleBackfill : Node :=
  if ¬ nd.authoritative eff ∨ eff.forkChoiceHash ≠ rt.forkChoiceHash eff.nodeId eff.hlc then nd
  else (((keyBinds eff).map KeyBind.newTip).foldl releasePending (nd.ingest t eff)).indexArrival t eff

theorem effectCache_releaseAll (tips : List Tip) (nd : Node) :
    (tips.foldl Node.releasePending nd).effectCache = nd.effectCache := by
  induction tips generalizing nd with
  | nil => rfl
  | cons t tips ih => exact ih (nd.releasePending t)

theorem effectCache_ingest : (nd.ingest t eff).effectCache = nd.effectCache.insert t eff := by
  unfold ingest
  dsimp only
  split <;> rfl

theorem effectCache_indexArrival : (nd.indexArrival t eff).effectCache = nd.effectCache := by
  have hfold (binds : List KeyBind) (nd : Node) : (binds.foldl (fun nd kb =>
      if kb.key ≠ eff.key ∧ kb.key ∈ nd.subscriptions then nd.updateIndex kb.key .empty t else nd) nd).effectCache =
        nd.effectCache := by
    induction binds generalizing nd with
    | nil => rfl
    | cons kb binds ih =>
      rw [List.foldl_cons, ih]
      split <;> rfl
  unfold indexArrival
  dsimp only
  rw [hfold]
  split <;> rfl

/-- Backfilling an effect that is in the cache leaves the cache as it is. -/
theorem effectCache_handleBackfill {rt : Runtime} {nd : Node} {t : Tip} {eff : Effect}
    (hcached : nd.effectCache.lookup t = some eff) : (nd.handleBackfill rt t eff).effectCache = nd.effectCache := by
  unfold handleBackfill
  split
  · rfl
  · rw [effectCache_indexArrival, effectCache_releaseAll, effectCache_ingest]
    refine Finmap.ext_lookup fun x => ?_
    by_cases hx : x = t
    · rw [hx, Finmap.lookup_insert, hcached]
    · rw [Finmap.lookup_insert_of_ne _ hx]

end Node

end swytch.effects
