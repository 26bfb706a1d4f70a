import Swytch.Effects.FlushTx
import Swytch.Lib.Run
import Mathlib.Logic.Function.Basic

open swytch.proto swytch.keytrie Function

namespace swytch.effects

/-- The nodes and every effect that any of them has written. `born` numbers the
effects in the order they were written in; no node reads it. -/
structure Cluster where
  nodes : NodeID → Node
  log : Log := ∅
  txnIDs : Finset Bytes := ∅
  born : Tip → Nat := fun _ => 0
  now : Nat := 0

/-- What can happen next. A call of `emitSnapshot` is the action of that name and the
flush of its context. Tips are released when the horizon resolves a bind or a
transaction ends; a fetch brings an effect into the cache. -/
inductive Action where
  | newContext (n : NodeID)
  | beginTx (n : NodeID) (c : Nat) (txnID : Bytes)
  | emit (n : NodeID) (c : Nat) (eff : Effect) (snapshotTips : Option (List Tip))
  | emitSnapshot (n : NodeID) (c : Nat) (key : Bytes) (verdicts : Map Bytes Verdict) (hlc : Timestamp)
  | flushNonTx (n : NodeID) (c : Nat) (key : Bytes)
  | flushTx (n : NodeID) (c : Nat) (sub : Node.SubStep)
  | emitBind (n : NodeID) (c : Nat)
  | respond (n : NodeID) (c : Nat) (m : NodeID)
  | deliver (n : NodeID) (t : Tip)
  | backfill (n : NodeID) (t : Tip)
  | fetch (n : NodeID) (t : Tip)
  | installTips (n : NodeID) (key : Bytes) (tips : List Tip)
  | release (n : NodeID) (t : Tip)

namespace Cluster

def setNode (s : Cluster) (n : NodeID) (nd : Node) : Cluster :=
  { s with nodes := update s.nodes n nd }

/-- Node `n` has written an effect at its next offset and is `nd` afterwards. -/
def record (s : Cluster) (n : NodeID) (eff : Effect) (nd : Node) : Cluster :=
  let t := (s.nodes n).nextTip n
  { s with
    nodes := update s.nodes n nd
    log := s.log.insert t eff
    born := update s.born t (s.now + 1)
    now := s.now + 1 }

/-- A context that is not being flushed. -/
def openContext (s : Cluster) (n : NodeID) (c : Nat) : Option Context :=
  (s.nodes n).contexts[c]?.bind fun ctx =>
    match ctx.flush with
    | .idle => some ctx
    | _ => none

/-- `Emit` for a key the node subscribed to. Binds are not emitted this way, and the
caller's tips are ones it has read. -/
def emit (rt : Runtime) (s : Cluster) (n : NodeID) (c : Nat) (ctx : Context) (eff : Effect)
    (snapshotTips : Option (List Tip)) : Option Cluster :=
  let nd := s.nodes n
  if eff.key ∈ nd.subscriptions ∧ ¬ isBind eff ∧ snapshotTips.all (fun tips => tips.all (· ∈ s.log)) then
    some (s.record n (nd.fill rt n ctx eff snapshotTips) (nd.emit rt n c ctx eff snapshotTips))
  else none

/-- A subscriber handles the bind of a waiting transaction; its answer is kept. -/
def respond (rt : Runtime) (s : Cluster) (n : NodeID) (c : Nat) (m : NodeID) (ctx : Context) : Option Cluster :=
  match ctx.flush with
  | .waiting p subscribers responses =>
    if m ≠ n ∧ m ∈ subscribers ∧ m ∉ responses.map Prod.fst then
      (s.log.lookup p.bindOffset).bind fun eff =>
        ((s.nodes m).handleRemote rt m p.bindOffset eff).map fun (nd, nacks) =>
          (s.setNode m nd).setNode n ((s.nodes n).setContext c
            { ctx with flush := .waiting p subscribers (responses ++ [(m, nacks)]) })
    else none
  | _ => none

def step (rt : Runtime) (s : Cluster) : Action → Option Cluster
  | .newContext n => some (s.setNode n (s.nodes n).newContext)
  | .beginTx n c txnID =>
    (s.openContext n c).bind fun ctx =>
      if ¬ ctx.inTx ∧ txnID ≠ [] ∧ txnID ∉ s.txnIDs then
        some { s.setNode n ((s.nodes n).setContext c { ctx with inTx := true, txnID := txnID }) with
          txnIDs := insert txnID s.txnIDs }
      else none
  | .emit n c eff snapshotTips => (s.openContext n c).bind fun ctx => s.emit rt n c ctx eff snapshotTips
  | .emitSnapshot n c key verdicts hlc =>
    (s.openContext n c).bind fun ctx =>
      if ctx.inTx ∨ ctx.keys.entries ≠ [] then none
      else s.emit rt n c ctx ((s.nodes n).snapshotEffect key verdicts hlc) none
  | .flushNonTx n c key =>
    (s.openContext n c).bind fun ctx =>
      if ctx.inTx then none
      else (ctx.keys.lookup key).map fun ck => s.setNode n ((s.nodes n).flushNonTx c ctx key ck)
  | .flushTx n c sub =>
    (s.nodes n).contexts[c]?.bind fun ctx =>
      (Node.flushStep rt (s.nodes n) n ctx sub).map fun flush =>
        s.setNode n (((s.nodes n).applyStep ctx sub).setContext c { ctx with flush := flush })
  | .emitBind n c =>
    (s.nodes n).contexts[c]?.bind fun ctx =>
      match ctx.flush with
      | .admitted b => some (s.record n (Node.bindEffect rt n ctx.txnID b) ((s.nodes n).emitBind rt n c ctx b))
      | _ => none
  | .respond n c m => (s.nodes n).contexts[c]?.bind fun ctx => s.respond rt n c m ctx
  | .deliver n t =>
    (s.log.lookup t).bind fun eff => ((s.nodes n).handleRemote rt n t eff).map fun (nd, _) => s.setNode n nd
  | .backfill n t => (s.log.lookup t).map fun eff => s.setNode n ((s.nodes n).handleBackfill rt t eff)
  | .fetch n t =>
    (s.log.lookup t).map fun eff =>
      s.setNode n { s.nodes n with effectCache := (s.nodes n).effectCache.insert t eff }
  | .installTips n key tips =>
    if tips.all (· ∈ s.log) then some (s.setNode n ((s.nodes n).installTips key tips)) else none
  | .release n t => some (s.setNode n ((s.nodes n).releasePending t))

end Cluster

end swytch.effects
