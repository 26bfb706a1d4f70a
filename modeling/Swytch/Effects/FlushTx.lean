import Swytch.Effects.Engine

open swytch.proto swytch.keytrie

namespace swytch.effects

/-- The verdict of the first snapshot that has one for the transaction, in the order of
a walk from the tips of the key. -/
def lookupSnapshotVerdict (log : Log) (key : Bytes) (tips : List Tip) (txnID : Bytes) : Option Verdict :=
  let below (t : Tip) : List Tip :=
    (log.lookup t).elim [] fun eff =>
      match eff.kind with
      | .snapshot snap => snap.prevSnapshot.toList ++ eff.deps
      | _ => keyDeps key eff
  let verdict (t : Tip) : Option Verdict :=
    (log.lookup t).bind fun eff =>
      match eff.kind with
      | .snapshot snap => (snap.txnVerdicts.lookup txnID).filter (· ≠ .unspecified)
      | _ => none
  (lib.walkFrom .lifo below log.keys tips []).findSome? verdict

/-- Two binds share a consumed tip on a key. -/
def bindsShareBase (a b : TransactionalBindEffect) : Bool :=
  a.keys.any fun ak => b.keys.any fun bk => ak.key = bk.key ∧ ak.consumedTips.any (· ∈ bk.consumedTips)

/-- Everything below some tips through the dependencies that effects state. -/
def ancestorsOf (log : Log) (tips : List Tip) : List Tip :=
  lib.walkFrom .lifo (statedDeps log) log.keys tips []

variable (rt : Runtime)

/-- A bind on the key that the transaction may commit beside: it is in the past of what
was consumed, or both sides have evidence and it does not conflict. -/
def coexists (log : Log) (txnID : Bytes) (kb : KeyBind) (t : Tip) (eff : Effect) (other : KeyBind) : Bool :=
  other.newTip ∈ ancestorsOf log kb.consumedTips ∨
    (txnID ≠ [] ∧ eff.txnId ≠ [] ∧
      hasPredicateConflict rt log txnID eff.txnId kb.key [kb.newTip] [other.newTip, t] = (false, true))

/-- Below a tip in the search for competing binds. A snapshot also leads to the one
before it; a bind leads on only if the transaction may commit beside it. -/
def competingDeps (log : Log) (txnID : Bytes) (kb : KeyBind) (t : Tip) : List Tip :=
  (log.lookup t).elim [] fun eff =>
    match eff.kind with
    | .txnBind _ =>
      (keyBindOf eff kb.key).elim [] fun other =>
        if coexists rt log txnID kb t eff other then [other.newTip] else []
    | .snapshot snap => snap.prevSnapshot.toList ++ eff.deps
    | _ => eff.deps

/-- The transaction of a bind on the key that is concurrent with ours. -/
def competitor (log : Log) (txnID : Bytes) (kb : KeyBind) (t : Tip) : Option Bytes :=
  (log.lookup t).bind fun eff =>
    (keyBindOf eff kb.key).bind fun other =>
      if coexists rt log txnID kb t eff other then none else some eff.txnId

variable (nd : Node) (bind : TransactionalBindEffect)

/-- The transaction of the first competing bind that is found from the current tips of
the keys, or the empty id. -/
def checkCompetingBinds (txnID : Bytes) : Bytes :=
  let log := nd.effectCache
  (bind.keys.findSome? fun kb =>
    (lib.walkFrom .lifo (competingDeps rt log txnID kb) log.keys (nd.tips kb.key).tips []).findSome?
      (competitor rt log txnID kb)).getD []

variable (self : NodeID) (ctx : Context) (bindOffset : Tip)

/-- A tip of another bind on the same base that wins the fork choice against ours. -/
def losesToBind (bindHash txnID : Bytes)
    (kb : KeyBind) (t : Tip) (eff : Effect) (other : TransactionalBindEffect) : Bool :=
  let log := nd.effectCache
  let theirTip := ((other.keys.filter (fun okb => okb.key = kb.key)).getLast?).elim .zero KeyBind.newTip
  eff.txnId ≠ txnID ∧ lookupSnapshotVerdict log kb.key (nd.tips kb.key).tips eff.txnId ≠ some .lost ∧
    bindsShareBase bind other ∧
    hasPredicateConflict rt log txnID eff.txnId kb.key [kb.newTip, bindOffset] [theirTip, t] ≠ (false, true) ∧
    ¬ forkChoiceLess bindHash eff.forkChoiceHash

/-- A tip of a non-transactional write that is neither consumed nor above the bind. -/
def voidedByWrite (kb : KeyBind) (t : Tip) : Bool :=
  t ∉ kb.consumedTips ∧ ¬ (ancestorsOf nd.effectCache [t]).any (fun u => u = bindOffset ∨ u = kb.newTip)

/-- Whether a bind loses at its origin, to a bind or to a concurrent write. -/
def evaluateBindForkChoice (bindHash txnID : Bytes) : Bool :=
  bind.keys.any fun kb => (nd.tips kb.key).tips.any fun t =>
    t ≠ bindOffset ∧ (nd.effectCache.lookup t).any fun eff =>
      match eff.kind with
      | .txnBind other => losesToBind rt nd bind bindOffset bindHash txnID kb t eff other
      | .data _ => eff.txnId = [] ∧ voidedByWrite nd bindOffset kb t
      | _ => false

namespace Node

/-- Every target is an ancestor of one of the tips, over all keys. -/
def reachesFromTx (tips targets : List Tip) : Bool :=
  let below (t : Tip) : List Tip := ((nd.effectCache.lookup t).elim [] allDeps).filter (· ≠ .zero)
  let reached := lib.walkFrom .lifo below nd.effectCache.keys (tips.filter (· ≠ .zero)) []
  targets.all (fun t => t ≠ .zero ∧ t ∈ reached)

def lastOffsets : List Tip :=
  ctx.keys.entries.map (fun e => e.2.lastOffset)

/-- The remote binds that consumed a tip the transaction started from. -/
def spokenFor : List Tip :=
  ctx.keys.entries.flatMap fun e => e.2.initialTips.tips.flatMap fun t => (nd.spokenBinds.lookup t).getD []

/-- Nothing but subscriptions happened on a key since the transaction read it. -/
def unchanged (key : Bytes) (initial : List Tip) : Bool :=
  initial = [] ∨ (initial.all (· ∈ nd.tips key) ∧
    (nd.tips key).tips.all (fun t => t ∈ initial ∨ nd.isSubscriptionTip t))

def preflight : Bool :=
  ctx.keys.entries.all (fun e => nd.unchanged e.1 e.2.initialTips.tips) ∧
    (nd.spokenFor ctx = [] ∨ nd.reachesFromTx (lastOffsets ctx) (nd.spokenFor ctx))

/-- Index a key's data tip and register it as in progress. -/
def publishKey (key : Bytes) (ck : ContextKey) : Node :=
  (nd.updateIndex key ck.initialTips ck.lastOffset).storePending ck.lastOffset ck.initialTips.tips

def publish : Node :=
  ctx.keys.entries.foldl (fun nd e => nd.publishKey e.1 e.2) nd

/-- No key has a tip besides our own and subscriptions. -/
def validate : Bool :=
  ctx.keys.entries.all fun e => (nd.tips e.1).tips.all fun t => t ∈ lastOffsets ctx ∨ nd.isSubscriptionTip t

def abortDeps : List Tip :=
  ctx.keys.entries.flatMap fun e =>
    (nd.tips e.1).tips.filter fun t => t ∈ nd.pendingTxTips ∧ t ∉ lastOffsets ctx

def buildBind (hlc : Timestamp) : TransactionalBindEffect :=
  let keyBind (e : (_ : Bytes) × ContextKey) : KeyBind :=
    ⟨e.1, resolveTipDeps nd.pendingTxTips e.2.initialTips.tips, e.2.lastOffset⟩
  { keys := (ctx.keys.entries.map keyBind).insertionSort (fun a b => a.key ≤ b.key)
    txnHlc := hlc
    originatorNodeId := self
    abortDeps := nd.abortDeps ctx }

def bindEffect (txnID : Bytes) (bind : TransactionalBindEffect) : Effect :=
  { key := (bind.keys.head?).elim [] KeyBind.key
    hlc := bind.txnHlc
    nodeId := self
    deps := bind.keys.map KeyBind.newTip
    txnId := txnID
    forkChoiceHash := rt.forkChoiceHash self bind.txnHlc
    kind := .txnBind bind }

/-- Index a bind under all its keys in place of the data tips. -/
def indexBind (bind : TransactionalBindEffect) : Node :=
  bind.keys.foldl (fun nd kb => nd.updateIndex kb.key (newTipSet [kb.newTip]) bindOffset) nd

/-- The record by which NACKs are checked. -/
def pendingTxn (bind : TransactionalBindEffect) : PendingTxn :=
  { txnID := ctx.txnID
    forkChoiceHash := rt.forkChoiceHash self bind.txnHlc
    bindOffset := bindOffset
    keys := ctx.keys.entries.map fun e => ⟨e.1, e.2.lastOffset, e.2.readOnly, e.2.collection, e.2.elementIDs⟩ }

/-- Write the bind and index it. -/
def emitBind (c : Nat) (ctx : Context) (bind : TransactionalBindEffect) : Node :=
  let t := nd.nextTip self
  ((nd.mint self (bindEffect rt self ctx.txnID bind)).indexBind t bind).setContext c
    { ctx with flush := .bound (pendingTxn rt self ctx t bind) bind }

def collectSubscribers : List NodeID :=
  (ctx.keys.entries.flatMap (fun e => (nd.peerSubscribers.lookup e.1).getD [])).dedup

/-- Some answer names a tip that conflicts with the transaction. -/
def nackConflict (p : PendingTxn) (responses : List (NodeID × List NackNotify)) : Bool :=
  responses.any fun response => response.2.any fun nack => nack.tipDetails.any fun detail =>
    (checkNackConflict rt nd.effectCache p nack.key detail).1

/-- The sub-steps of `flushTx` that touch their own node only and write no effect. -/
inductive SubStep where
  | preflight
  | publish
  | validate
  | checkCompeting (hlc : Timestamp)
  | forkChoice
  | replicate
  | decide
  | giveUp

/-- Where a sub-step takes the call, if the call has come to it. Giving up stands for
subscribers that do not answer. -/
def flushStep : SubStep → Option FlushTx
  | .preflight =>
    match ctx.flush with
    | .idle =>
      if ctx.inTx ∧ ctx.keys.entries ≠ [] then some (if nd.preflight ctx then .preflighted else .aborted) else none
    | _ => none
  | .publish =>
    match ctx.flush with
    | .preflighted => some .published
    | _ => none
  | .validate =>
    match ctx.flush with
    | .published => some (if nd.validate ctx then .validated else .aborted)
    | _ => none
  | .checkCompeting hlc =>
    match ctx.flush with
    | .validated =>
      let b := nd.buildBind self ctx hlc
      some (if checkCompetingBinds rt nd b ctx.txnID = [] then .admitted b else .aborted)
    | _ => none
  | .forkChoice =>
    match ctx.flush with
    | .bound p b =>
      some (if evaluateBindForkChoice rt nd b p.bindOffset p.forkChoiceHash p.txnID then .aborted else .pending p)
    | _ => none
  | .replicate =>
    match ctx.flush with
    | .pending p =>
      let subscribers := nd.collectSubscribers ctx
      some (if subscribers = [] then .committed p [] [] else .waiting p subscribers [])
    | _ => none
  | .decide =>
    match ctx.flush with
    | .waiting p subscribers responses =>
      if nd.nackConflict rt p responses then some .aborted
      else if subscribers.all (· ∈ responses.map Prod.fst) then some (.committed p subscribers responses)
      else none
    | _ => none
  | .giveUp =>
    match ctx.flush with
    | .waiting _ _ _ => some .ambiguous
    | _ => none

/-- Only the publication of the data tips changes more than the call itself. -/
def applyStep : SubStep → Node
  | .publish => nd.publish ctx
  | _ => nd

/-- The transitions of a call, one for each outcome of a sub-step. -/
inductive FlushMove (rt : Runtime) (nd : Node) (self : NodeID) (ctx : Context) : SubStep → FlushTx → Prop where
  | pass (hidle : ctx.flush = .idle) (htx : ctx.inTx = true) (hkeys : ctx.keys.entries ≠ [])
      (hpass : nd.preflight ctx = true) : FlushMove rt nd self ctx .preflight .preflighted
  | stale (hidle : ctx.flush = .idle) (htx : ctx.inTx = true) (hkeys : ctx.keys.entries ≠ []) :
      FlushMove rt nd self ctx .preflight .aborted
  | publish (hflush : ctx.flush = .preflighted) : FlushMove rt nd self ctx .publish .published
  | valid (hflush : ctx.flush = .published) (hvalid : nd.validate ctx = true) :
      FlushMove rt nd self ctx .validate .validated
  | fork (hflush : ctx.flush = .published) : FlushMove rt nd self ctx .validate .aborted
  | unopposed {hlc : Timestamp} (hflush : ctx.flush = .validated)
      (hnone : checkCompetingBinds rt nd (nd.buildBind self ctx hlc) ctx.txnID = []) :
      FlushMove rt nd self ctx (.checkCompeting hlc) (.admitted (nd.buildBind self ctx hlc))
  | compete {hlc : Timestamp} (hflush : ctx.flush = .validated) :
      FlushMove rt nd self ctx (.checkCompeting hlc) .aborted
  | survive {p : PendingTxn} {bind : TransactionalBindEffect} (hflush : ctx.flush = .bound p bind) :
      FlushMove rt nd self ctx .forkChoice (.pending p)
  | void {p : PendingTxn} {bind : TransactionalBindEffect} (hflush : ctx.flush = .bound p bind) :
      FlushMove rt nd self ctx .forkChoice .aborted
  | solo {p : PendingTxn} (hflush : ctx.flush = .pending p) (hnone : nd.collectSubscribers ctx = []) :
      FlushMove rt nd self ctx .replicate (.committed p [] [])
  | send {p : PendingTxn} (hflush : ctx.flush = .pending p) :
      FlushMove rt nd self ctx .replicate (.waiting p (nd.collectSubscribers ctx) [])
  | conflict {p : PendingTxn} {subscribers : List NodeID} {responses : List (NodeID × List NackNotify)}
      (hflush : ctx.flush = .waiting p subscribers responses) : FlushMove rt nd self ctx .decide .aborted
  | commit {p : PendingTxn} {subscribers : List NodeID} {responses : List (NodeID × List NackNotify)}
      (hflush : ctx.flush = .waiting p subscribers responses) (hquiet : nd.nackConflict rt p responses = false)
      (hall : ∀ m ∈ subscribers, m ∈ responses.map Prod.fst) :
      FlushMove rt nd self ctx .decide (.committed p subscribers responses)
  | giveUp {p : PendingTxn} {subscribers : List NodeID} {responses : List (NodeID × List NackNotify)}
      (hflush : ctx.flush = .waiting p subscribers responses) : FlushMove rt nd self ctx .giveUp .ambiguous

theorem flushMove_of_flushStep {rt : Runtime} {nd : Node} {self : NodeID} {ctx : Context} {sub : SubStep}
    {flush : FlushTx} (h : flushStep rt nd self ctx sub = some flush) : FlushMove rt nd self ctx sub flush := by
  cases sub with
  | preflight =>
    simp only [flushStep] at h
    split at h
    · rename_i hidle
      split at h
      · rename_i hguard
        split at h
        · rename_i hpass
          cases h
          exact .pass hidle hguard.1 hguard.2 hpass
        · cases h
          exact .stale hidle hguard.1 hguard.2
      · cases h
    · cases h
  | publish =>
    simp only [flushStep] at h
    split at h
    · rename_i hflush
      cases h
      exact .publish hflush
    · cases h
  | validate =>
    simp only [flushStep] at h
    split at h
    · rename_i hflush
      split at h
      · rename_i hvalid
        cases h
        exact .valid hflush hvalid
      · cases h
        exact .fork hflush
    · cases h
  | checkCompeting hlc =>
    simp only [flushStep] at h
    split at h
    · rename_i hflush
      split at h
      · rename_i hnone
        cases h
        exact .unopposed hflush hnone
      · cases h
        exact .compete hflush
    · cases h
  | forkChoice =>
    simp only [flushStep] at h
    split at h
    · rename_i p bind hflush
      split at h
      · cases h
        exact .void hflush
      · cases h
        exact .survive hflush
    · cases h
  | replicate =>
    simp only [flushStep] at h
    split at h
    · rename_i p hflush
      split at h
      · rename_i hnone
        cases h
        exact .solo hflush hnone
      · cases h
        exact .send hflush
    · cases h
  | decide =>
    simp only [flushStep] at h
    split at h
    · rename_i p subscribers responses hflush
      split at h
      · cases h
        exact .conflict hflush
      · rename_i hquiet
        split at h
        · rename_i hall
          cases h
          refine .commit hflush (by simpa using hquiet) ?_
          intro m hm
          simpa using List.all_eq_true.mp hall m hm
        · cases h
    · cases h
  | giveUp =>
    simp only [flushStep] at h
    split at h
    · rename_i p subscribers responses hflush
      cases h
      exact .giveUp hflush
    · cases h

end Node

end swytch.effects
