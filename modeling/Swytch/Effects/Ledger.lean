import Swytch.Lib.FinmapFold
import Swytch.Effects.Horizon
import Swytch.Effects.Cluster.Local

open swytch.proto

namespace swytch.effects

open Node

/-- An engine with what it remembers of transactions in progress: the entries of
`pendingTxTips` are part of the node. -/
structure Ledger where
  node : Node
  broadcaster : Bool
  pendingTxns : Map Tip PendingTxn := ∅
  horizon : Option HorizonSet := none

inductive TxnState where
  | committed
  | aborted
  | ambiguous
deriving DecidableEq, Repr

inductive FlushError where
  | regionPartitioned
  | txnAborted
  | txnAmbiguous
  | emitFailed
  | marshalFailed
deriving DecidableEq, Repr

/-- How the internal steps of a call of `flushTx` turn out. -/
structure FlushOutcome where
  reachable : Bool := true
  subscribed : Bool := true
  preflight : Bool := true
  validated : Bool := true
  hlc : Timestamp := none
  competing : Bool := false
  emits : Bool := true
  voided : Bool := false
  subscribers : List NodeID := []
  marshals : Bool := true
  decision : TxnState := .committed

namespace Node

theorem pendingTxTips_foldl_release (tips : List Tip) (nd : Node) :
    (tips.foldl releasePending nd).pendingTxTips = tips.foldl (fun m t => m.erase t) nd.pendingTxTips := by
  induction tips generalizing nd with
  | nil => rfl
  | cons t tips ih => exact ih (nd.releasePending t)

end Node

namespace Ledger

variable (l : Ledger)

def release (tips : List Tip) : Ledger :=
  { l with node := tips.foldl releasePending l.node }

/-- The end of the horizon wait of the own bind. -/
def settleHorizon (txnID : Bytes) (state : TxnState) : Ledger :=
  match l.horizon with
  | none => l
  | some h =>
    let settled := if state = .committed then HorizonSet.makeVisible (h, l.node.pendingTxTips) txnID
      else HorizonSet.abort (h, l.node.pendingTxTips) txnID
    { l with node := { l.node with pendingTxTips := settled.2 }, horizon := some settled.1 }

/-- The last step of `flushTx`, for a transaction that has been decided. -/
def processResult (ptxn : PendingTxn) (state : TxnState) : Ledger × Option FlushError :=
  let closed := { l with pendingTxns := l.pendingTxns.erase ptxn.bindOffset }
  let released := if closed.horizon.isNone then closed.release (ptxn.keys.map PendingTxnKey.newTip) else closed
  match state with
  | .committed => (released, none)
  | .aborted => (released, some .txnAborted)
  | .ambiguous => (released, some .txnAmbiguous)

/-- From the registration of the transaction for NACKs on. -/
def replicate (ctx : Context) (ptxn : PendingTxn) (bind : TransactionalBindEffect) (o : FlushOutcome) :
    Ledger × Option FlushError :=
  let registered := { l with pendingTxns := l.pendingTxns.insert ptxn.bindOffset ptxn }
  if ¬ l.broadcaster ∨ o.subscribers.isEmpty then registered.processResult ptxn .committed
  else
    let held := { registered with horizon := registered.horizon.map (fun h => h.add ctx.txnID bind) }
    if ¬ o.marshals then (held, some .marshalFailed)
    else (held.settleHorizon ctx.txnID o.decision).processResult ptxn o.decision

/-- `flushTx` as far as its bookkeeping goes, for given outcomes of the internal steps. -/
def flushTx (rt : Runtime) (l : Ledger) (self : NodeID) (c : Nat) (ctx : Context) (o : FlushOutcome) :
    Ledger × Option FlushError :=
  if ctx.keys.entries.isEmpty then (l, none)
  else if ¬ o.reachable ∨ ¬ o.subscribed then (l, some .regionPartitioned)
  else if ¬ o.preflight then (l.release (lastOffsets ctx), some .txnAborted)
  else
    let published := { l with node := l.node.publish ctx }
    if ¬ o.validated then (published.release (lastOffsets ctx), some .txnAborted)
    else
      let bind := published.node.buildBind self ctx o.hlc
      if o.competing then
        (if l.horizon.isNone then published.release (lastOffsets ctx) else published, some .txnAborted)
      else if ¬ o.emits then (published, some .emitFailed)
      else
        let bound := { published with node := published.node.emitBind rt self c ctx bind }
        if o.voided then (bound.release (lastOffsets ctx), some .txnAborted)
        else bound.replicate ctx (pendingTxn rt self ctx (published.node.nextTip self) bind) bind o

/-- The engine remembers nothing of a transaction. -/
structure Clean (l : Ledger) (ctx : Context) (bindOffset : Tip) : Prop where
  tips : ∀ t ∈ lastOffsets ctx, t ∉ l.node.pendingTxTips
  txn : bindOffset ∉ l.pendingTxns
  horizon : ∀ h, l.horizon = some h → h.isInvisible ctx.txnID = false

/-- The call returns without cleaning up after the publication of the data tips. -/
def residue (ctx : Context) (o : FlushOutcome) : Bool :=
  !ctx.keys.entries.isEmpty && o.reachable && o.subscribed && o.preflight && o.validated &&
    if o.competing then l.horizon.isSome
    else !o.emits || (!o.voided &&
      if !l.broadcaster || o.subscribers.isEmpty then l.horizon.isSome else !o.marshals)

end Ledger

end swytch.effects
