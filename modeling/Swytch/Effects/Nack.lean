import Swytch.Effects.Losers

open swytch.proto

namespace swytch.effects

/-- What an origin keeps about one key of a transaction that waits for its NACKs. -/
structure PendingTxnKey where
  key : Bytes
  newTip : Tip
  readOnly : Bool := false
  collection : CollectionKind := .scalar
  elementIDs : List Bytes := []

structure PendingTxn where
  txnID : Bytes
  forkChoiceHash : Bytes
  bindOffset : Tip
  keys : List PendingTxnKey

/-- One frontier tip of a peer, as a NACK describes it. -/
structure NackTipDetail where
  ref : Tip
  deps : List Tip
  isTransactional : Bool
  isData : Bool := false
  collection : CollectionKind := .scalar
  elementId : Bytes := []
  isBind : Bool := false
  bindForkChoiceHash : Bytes := []

variable (rt : Runtime)

def nackTipDetail (t : Tip) (eff : Effect) : NackTipDetail :=
  let detail : NackTipDetail := { ref := t, deps := eff.deps, isTransactional := eff.txnId ≠ [] }
  match eff.kind with
  | .data d => { detail with isData := true, collection := d.collection, elementId := d.id }
  | .txnBind b =>
    { detail with isBind := true, bindForkChoiceHash := rt.forkChoiceHash b.originatorNodeId b.txnHlc }
  | _ => detail

variable (log : Log)

/-- The details a peer sends for its tips; a tip it does not hold is left out. -/
def buildEnrichedNack (tips : List Tip) : List NackTipDetail :=
  tips.filterMap (fun t => (log.lookup t).map (nackTipDetail rt t))

variable (p : PendingTxn) (key : Bytes)

/-- Ancestry on one key: a bind is followed through its new tip on the key, and an
effect of another key ends the path. -/
def onKeyDeps (t : Tip) : List Tip :=
  match log.lookup t with
  | none => []
  | some eff => if ¬ isBind eff ∧ eff.key ≠ key then [] else (keyDeps key eff).filter (· ≠ .zero)

def reachesOnKey (start : List Tip) (target : Tip) : Bool :=
  target ≠ .zero ∧ target ∈ lib.walkFrom .lifo (onKeyDeps log key) log.keys (start.filter (· ≠ .zero)) []

namespace PendingTxn

def newTipsOn : List Tip :=
  (p.keys.filter (fun pk => pk.key = key)).map PendingTxnKey.newTip

def reachesFromTxOnKey (target : Tip) : Bool :=
  reachesOnKey log key (p.bindOffset :: p.newTipsOn key) target

end PendingTxn

variable (detail : NackTipDetail)

/-- A tip ordered with the transaction: it depends on it directly, lies below it, or
has a dependency from which the transaction is reached. -/
def nackTipOrdered : Bool :=
  (detail.deps.any fun d => d = p.bindOffset ∨ d ∈ p.newTipsOn key) ||
    p.reachesFromTxOnKey log key detail.ref ||
    reachesOnKey log key detail.deps p.bindOffset ||
    (p.newTipsOn key).any (reachesOnKey log key detail.deps)

def collectOurBindTips : List Tip :=
  p.bindOffset :: ((p.keys.find? (fun pk => pk.key = key)).map PendingTxnKey.newTip).toList

def hasPredicateConflict (ourTxnID theirTxnID key : Bytes) (ourStartTips theirStartTips : List Tip) : Bool × Bool :=
  predicateEvidenceConflict rt (collectTxnEffectsOnKey log ourTxnID key ourStartTips)
    (collectTxnEffectsOnKey log theirTxnID key theirStartTips)

def affectsSameData (pk : PendingTxnKey) (detail : NackTipDetail) : Bool :=
  pk.readOnly || pk.collection = .scalar || detail.collection = .scalar || pk.collection = .ordered ||
    detail.collection = .ordered || detail.elementId.isEmpty || pk.elementIDs.contains detail.elementId

/-- Whether a tip makes the transaction abort, and otherwise the transaction it
defeats, if any. -/
def classifyNackTip : Bool × Bytes :=
  if !detail.isData && !detail.isBind then (false, [])
  else if nackTipOrdered log p key detail then (false, [])
  else if detail.isBind then
    let theirTxnID := (log.lookup detail.ref).elim [] Effect.txnId
    if theirTxnID ≠ [] ∧ theirTxnID = p.txnID then (false, [])
    else if p.txnID ≠ [] ∧ theirTxnID ≠ [] ∧
        hasPredicateConflict rt log p.txnID theirTxnID key (collectOurBindTips p key) [detail.ref] =
          (false, true) then (false, [])
    else if forkChoiceLess detail.bindForkChoiceHash p.forkChoiceHash then (true, [])
    else if forkChoiceLess p.forkChoiceHash detail.bindForkChoiceHash then (false, theirTxnID)
    else (false, [])
  else if detail.isTransactional then (false, [])
  else ((p.keys.find? (fun pk => pk.key = key)).any (affectsSameData · detail), [])

/-- What the node itself knows about a tip. -/
def heldDetail (t : Tip) : Option NackTipDetail :=
  (log.lookup t).map (nackTipDetail rt t)

/-- The tip of the NACK is taken as the peer describes it. -/
def knownDetail (t : Tip) : Option NackTipDetail :=
  if t = detail.ref then some detail else heldDetail rt log t

/-- The tips looked at below a wrapper. Data effects and binds are not looked through,
and neither is history the transaction already has. -/
def nackDeps (known : Tip → Option NackTipDetail) (t : Tip) : List Tip :=
  match known t with
  | none => []
  | some detail =>
    if detail.isData ∨ detail.isBind then []
    else if p.reachesFromTxOnKey log key t then []
    else detail.deps.filter (fun d => ¬ p.reachesFromTxOnKey log key d)

def classifyTip (known : Tip → Option NackTipDetail) (t : Tip) : Bool × Bytes :=
  match known t with
  | none => (true, [])
  | some detail => classifyNackTip rt log p key detail

def examinedTips : List Tip :=
  lib.walkFrom .fifo (nackDeps log p key (knownDetail rt log detail)) (insert detail.ref log.keys) [detail.ref] []

/-- Whether a tip of a NACK makes the transaction abort, and otherwise the binds it
defeats. History that cannot be fetched counts as a conflict; the search ends at
the first conflict. -/
def checkNackConflict : Bool × Map Bytes Tip :=
  let examined := examinedTips rt log p key detail
  let classify := classifyTip rt log p key (knownDetail rt log detail)
  if examined.any (fun t => (classify t).1) then (true, ∅)
  else
    (false, examined.foldl (fun defeated t =>
      if (classify t).2 = [] then defeated else defeated.insert (classify t).2 t) ∅)

end swytch.effects
