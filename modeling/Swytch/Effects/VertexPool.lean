import Swytch.Lib.Run
import Swytch.Lib.Search
import Swytch.Lib.Sort
import Swytch.Effects.Engine

open swytch.proto

namespace swytch.effects

def systemKeyPrefix : Bytes := [95, 95, 115, 119, 121, 116, 99, 104, 58]

def isSystemKey (key : Bytes) : Bool :=
  systemKeyPrefix.isPrefixOf key

/-- A resident effect. `refs` counts the keys that own its creation and the pins of
cached read DAGs, in an `int32`. -/
structure Vertex where
  eff : Effect
  refs : Int32
  creationKeys : List Bytes := []

/-- The resident effects and the queue of tips to reclaim. The byte accounting and the
counters of the telemetry are left out, and there is no mirror. -/
structure VertexPool where
  m : Map Tip Vertex := ∅
  reclaimQueue : List Tip := []
  reclaimPending : Nat := 0

/-- How a call of the pool can go wrong: the panic of `decref`, and a consumer that
waits for an entry of an empty queue. -/
inductive PoolFault where
  | underflow
  | blocked
deriving DecidableEq, Repr

/-- The keys an effect is the tip of. -/
def tipKeys (eff : Effect) : List Bytes :=
  if (keyBinds eff).isEmpty then [eff.key] else (keyBinds eff).map KeyBind.key

/-- The owners that a put adds; `owns` is nil for a local emission. -/
def missingCreationKeys (eff : Effect) (existing : List Bytes) (owns : Option (Bytes → Bool)) : List Bytes :=
  lib.sortCompact ((tipKeys eff).filter fun key =>
    owns.all (fun accepts => accepts key) && !(lib.binarySearch existing key).2)

/-- Take ownership for more keys. A claimed vertex is not resurrected. -/
def Vertex.own (v : Vertex) (keys : List Bytes) : Vertex :=
  if keys.isEmpty ∨ v.refs < 0 then v
  else
    { v with
      refs := v.refs + Int32.ofNat keys.length
      creationKeys := (v.creationKeys ++ keys).insertionSort (· ≤ ·) }

namespace VertexPool

variable (p : VertexPool) (tip : Tip)

def get : Option Effect :=
  (p.m.lookup tip).map Vertex.eff

def enqueueReclaim : VertexPool :=
  { p with reclaimQueue := p.reclaimQueue ++ [tip], reclaimPending := p.reclaimPending + 1 }

def store (v : Vertex) : VertexPool :=
  { p with m := p.m.insert tip v }

def put (eff : Effect) (takeOwnership : Bool) (owns : Option (Bytes → Bool)) : VertexPool :=
  match p.m.lookup tip with
  | none =>
    let keys := if takeOwnership then missingCreationKeys eff [] owns else []
    let stored := p.store tip { eff := eff, refs := Int32.ofNat keys.length, creationKeys := keys }
    if keys.isEmpty then stored.enqueueReclaim tip else stored
  | some v => if takeOwnership then p.store tip (v.own (missingCreationKeys eff v.creationKeys owns)) else p

def putSized (eff : Effect) (owns : Option (Bytes → Bool)) : VertexPool :=
  p.put tip eff true owns

def putSizedCache (eff : Effect) : VertexPool :=
  p.put tip eff false none

/-- Take a reference if the tip is resident and not claimed. -/
def incref : VertexPool × Bool :=
  match p.m.lookup tip with
  | none => (p, false)
  | some v => if v.refs < 0 then (p, false) else (p.store tip { v with refs := v.refs + 1 }, true)

def decref : Except PoolFault VertexPool :=
  match p.m.lookup tip with
  | none => .ok p
  | some v =>
    let released := p.store tip { v with refs := v.refs - 1 }
    if v.refs - 1 < 0 then .error .underflow
    else .ok (if v.refs - 1 = 0 then released.enqueueReclaim tip else released)

/-- Release the creation reference of a key, if it holds one. -/
def decrefChainNode (key : Bytes) (tip : Tip) : Except PoolFault (VertexPool × Option Effect) :=
  match p.m.lookup tip with
  | none => .ok (p, none)
  | some v =>
    match lib.binarySearch v.creationKeys key with
    | (i, true) =>
      ((p.store tip { v with creationKeys := v.creationKeys.eraseIdx i }).decref tip).map (·, some v.eff)
    | (_, false) => .ok (p, some v.eff)

/-- Free the vertex at a tip if nothing refers to it. System keys are pinned. -/
def claimAndDelete (v : Vertex) : VertexPool :=
  if isSystemKey v.eff.key then p
  else if v.refs = 0 then { p with m := p.m.erase tip }
  else p

def claimQueued : VertexPool :=
  (p.m.lookup tip).elim p (p.claimAndDelete tip)

def drainLoop : Nat → VertexPool → Except PoolFault VertexPool
  | 0, p => .ok p
  | n + 1, p =>
    match p.reclaimQueue with
    | [] => .error .blocked
    | tip :: rest => drainLoop n (claimQueued { p with reclaimQueue := rest } tip)

/-- Dequeue as many candidates as were counted and free those that are unreferenced. -/
def drainReclaim : Except PoolFault VertexPool :=
  drainLoop p.reclaimPending { p with reclaimPending := 0 }

end VertexPool

end swytch.effects
