import Swytch.Effects.Closure.Fixpoint
import Swytch.Effects.Context
import Swytch.Effects.Reconstruct
import Swytch.Lib.Run

open swytch.proto swytch.keytrie

namespace swytch.effects

variable (rt : Runtime) (log : Log)

/-- The closure of a batch: the keys linked to any of `startKeys`, which are queued in
order and without repetition. -/
def bindKeyClosureFrom (tipsFor : Bytes → List Tip) (startKeys : List Bytes) : Closure :=
  let keys := startKeys.eraseDups
  closureLoop log tipsFor (keys.length + anchorBound log) { keys := keys, queue := keys.reverse }

/-- A pointer to a tip set. Tip sets are immutable, so a pointer is never reused for
another one. -/
structure TipSetRef where
  id : Nat
  tips : TipSet
deriving DecidableEq

/-- The tips behind a pointer; a nil pointer has none. -/
def refTips (ref : Option TipSetRef) : List Tip :=
  ref.elim [] (fun r => r.tips.tips)

structure SnapshotFrontier where
  index : Option TipSetRef
  resolved : List Tip
deriving DecidableEq

/-- What a batch has read of the engine so far: each key's tips and each transaction's
visibility, both at most once. -/
structure SnapshotReadView where
  frontiers : Map Bytes SnapshotFrontier := ∅
  invisible : Map Bytes Bool := ∅

inductive ReadError where
  | horizonRetryNeeded
  | unresolved
deriving DecidableEq

variable (probes : Bytes → List Tip) (keys : List Bytes)

namespace SnapshotReadView

variable (v : SnapshotReadView)

def tipsFor (key : Bytes) : List Tip :=
  (v.frontiers.lookup key).elim [] SnapshotFrontier.resolved

def isInvisible (txnID : Bytes) : Bool :=
  (v.invisible.lookup txnID).getD false

def closure : Closure :=
  bindKeyClosureFrom log v.tipsFor keys

/-- The transactions left out of every result, decided once for the batch. -/
def lost (txnID : Bytes) : Bool :=
  let c := v.closure log keys
  c.verdicts txnID = some .lost ∨
    c.keys.any fun k =>
      txnID ∈ losersOnKeyAt rt log k (v.tipsFor k) (c.bindsByKey k) c.verdicts v.isInvisible (probes k)

/-- The captured tips of a key and the binds that were found on other keys. -/
def readTips (key : Bytes) : List Tip :=
  v.tipsFor key ++ (v.closure log keys).bindsByKey key

/-- One replayed effect of a batch read, which does not go past an invisible bind. -/
def readStep (key : Bytes) (d : Dag) (te : Tip × Effect) : Except ReadError ReplayStep :=
  if isBind te.2 ∧ v.isInvisible te.2.txnId then .error .horizonRetryNeeded
  else
    (replayStep log key v.isInvisible (dependsOnInvisible log key v.isInvisible d.topoOrder)
      (v.lost rt log probes keys) te.1 te.2).elim (.error .unresolved) .ok

def reconstructWithView (key : Bytes) : Except ReadError Reconstruction :=
  match prepare log key (v.readTips log keys key) with
  | none => .error .unresolved
  | some d => ((iterate log [] d).mapM (v.readStep rt log probes keys key d)).map (Reconstruction.mk d)

/-- The results of a batch, in the order of its keys. The walk of the closure is strict:
an effect that cannot be resolved fails the batch. -/
def read : Except ReadError (List Reconstruction) :=
  if (v.closure log keys).visited.all (fun loc => loc.2 ∈ log) then
    keys.mapM (v.reconstructWithView rt log probes keys)
  else .error .unresolved

def bindTxn (t : Tip) : Option Bytes :=
  (log.lookup t).bind fun eff => if isBind eff then some eff.txnId else none

/-- The transactions whose visibility the batch asks for: those of every bind that fork
choice or a replay comes across. -/
def consulted : List Bytes :=
  ((v.closure log keys).visited.map Prod.snd).filterMap (bindTxn log) ++
    keys.flatMap fun key =>
      (prepare log key (v.readTips log keys key)).elim [] (fun d => d.topoOrder.filterMap (bindTxn log))

/-- Everything that the results depend on has been read. -/
def Complete : Prop :=
  (∀ k ∈ (v.closure log keys).keys, k ∈ v.frontiers) ∧ ∀ txnID ∈ v.consulted log keys, txnID ∈ v.invisible

instance (log : Log) (keys : List Bytes) (v : SnapshotReadView) : Decidable (v.Complete log keys) :=
  inferInstanceAs (Decidable (_ ∧ _))

end SnapshotReadView

/-- How far a call of `GetSnapshots` has come. -/
inductive BatchRead where
  | preliminary
  | discovering (view : SnapshotReadView)
  | materialized (view : SnapshotReadView) (results : Except ReadError (List Reconstruction))
  | returned (results : List Reconstruction)
  | failed

/-- A call of `GetSnapshots` and what it sees of the engine. -/
structure BatchState where
  index : Map Bytes TipSetRef := ∅
  nextRef : Nat := 0
  pendingTxTips : Map Tip (List Tip) := ∅
  horizon : Finset Bytes := ∅
  read : BatchRead := .preliminary

/-- What goes on around a batch: writers, deliveries, pruning, `installBoundSubdags` and
evictions change the index, and transactions come and go in `pendingTxTips` and the
horizon. -/
inductive EngineChange where
  | store (key : Bytes) (tips : TipSet)
  | evict (key : Bytes)
  | setPending (pendingTxTips : Map Tip (List Tip))
  | setHorizon (horizon : Finset Bytes)

inductive ReadAction where
  | newView
  | capture (key : Bytes)
  | askInvisible (txnID : Bytes)
  | discoverFailed
  | materialize
  | validate

inductive BatchAction where
  | change (c : EngineChange)
  | read (a : ReadAction)

/-- As many tips on both sides, and all of `a` in `b`. -/
def tipsEqual (a b : List Tip) : Bool :=
  a.length = b.length ∧ ∀ t ∈ a, t ∈ b

namespace BatchState

variable (s : BatchState)

def capture (key : Bytes) (v : SnapshotReadView) : SnapshotReadView :=
  if key ∈ v.frontiers then v
  else
    let index := s.index.lookup key
    { v with frontiers := v.frontiers.insert key ⟨index, resolveTipDeps s.pendingTxTips (refTips index)⟩ }

def askInvisible (txnID : Bytes) (v : SnapshotReadView) : SnapshotReadView :=
  if txnID ∈ v.invisible then v
  else { v with invisible := v.invisible.insert txnID (txnID ∈ s.horizon) }

/-- A captured frontier is valid while the index holds the same pointer and its tips
resolve to the same ones. -/
def validFrontier (key : Bytes) (f : SnapshotFrontier) : Bool :=
  (s.index.lookup key).map TipSetRef.id = f.index.map TipSetRef.id ∧
    tipsEqual f.resolved (resolveTipDeps s.pendingTxTips (refTips f.index))

def valid (v : SnapshotReadView) : Bool :=
  (∀ key ∈ v.frontiers.keys, (v.frontiers.lookup key).all (s.validFrontier key)) ∧
    ∀ txnID ∈ v.invisible.keys, (v.invisible.lookup txnID).all (· = decide (txnID ∈ s.horizon))

/-- After validation the batch returns, fails or starts again. -/
def validated (v : SnapshotReadView) : Except ReadError (List Reconstruction) → BatchRead
  | .error .horizonRetryNeeded => .preliminary
  | .error .unresolved => if s.valid v then .failed else .preliminary
  | .ok results => if s.valid v then .returned results else .preliminary

/-- A changed tip set gets a new pointer. -/
def change : EngineChange → BatchState
  | .store key tips => { s with index := s.index.insert key ⟨s.nextRef, tips⟩, nextRef := s.nextRef + 1 }
  | .evict key => { s with index := s.index.erase key }
  | .setPending pendingTxTips => { s with pendingTxTips := pendingTxTips }
  | .setHorizon horizon => { s with horizon := horizon }

/-- The next step of the batch. Keys are captured and transactions asked for in any
order; the results are computed from what was read. -/
def advance (a : ReadAction) : Option BatchRead :=
  match s.read, a with
  | .preliminary, .newView => some (.discovering {})
  | .discovering v, .capture key => some (.discovering (s.capture key v))
  | .discovering v, .askInvisible txnID => some (.discovering (s.askInvisible txnID v))
  | .discovering v, .discoverFailed => some (s.validated v (.error .unresolved))
  | .discovering v, .materialize =>
    if v.Complete log keys then some (.materialized v (v.read rt log probes keys)) else none
  | .materialized v results, .validate => some (s.validated v results)
  | _, _ => none

def step : BatchAction → Option BatchState
  | .change c => some (s.change c)
  | .read a => (s.advance rt log probes keys a).map (fun read => { s with read := read })

end BatchState

end swytch.effects
