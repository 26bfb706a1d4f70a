import Swytch.Lib.FinmapFold
import Swytch.Proto.Replication

open swytch.proto

namespace swytch.effects

open ReducedEffect

variable (rt : Runtime) (seed : Option ReducedEffect) (effects : List Effect) (r : FlatReduced) (e : Effect)
  (d : DataEffect)

def getIntVal : Int64 :=
  match d.value with
  | some (.intVal n) => n
  | _ => 0

def getFloatVal : Float64 :=
  match d.value with
  | some (.floatVal f) => f
  | _ => 0

/-- The byte value of a data effect: the raw arm as it is, the compressed arm
inflated. An unknown codec or corrupt data reads as no bytes. -/
def decompress : Bytes :=
  match d.value with
  | some (.raw bytes) => bytes
  | some (.compressed cv) =>
    match cv.codec with
    | .zstd => (rt.zstdDecode cv.data).getD []
    | .none => []
  | _ => []

def rawToInt (b : Bytes) : Int64 :=
  if b = [] then 0 else rt.parseInt b

def rawToFloat (b : Bytes) : Float64 :=
  if b = [] then 0 else rt.parseFloat b

def scalarIntBase : Int64 :=
  match d.value with
  | some (.intVal n) => n
  | _ => rawToInt rt (decompress rt d)

def scalarFloatBase : Float64 :=
  match d.value with
  | some (.floatVal f) => f
  | _ => rawToFloat rt (decompress rt d)

/-- Bytewise maximum; bytes missing from the shorter side count as zero. -/
def maxBytes : Bytes → Bytes → Bytes
  | a, [] => a
  | [], b => b
  | x :: a, y :: b => max x y :: maxBytes a b

def isCommutative (m : MergeRule) : Bool :=
  match m with
  | .additiveInt | .additiveFloat | .maxInt | .maxBytes => true
  | .lastWriteWins | .firstWriteWins => false
  | .unrecognized _ => false

def elementFromData : ReducedElement :=
  { data := d, hlc := e.hlc, nodeId := e.nodeId, forkChoiceHash := e.forkChoiceHash }

def findOrderedByID (elements : List ReducedElement) (id : Bytes) : Option Nat :=
  elements.findIdx? (fun elem => elem.data.id = id)

def reduceFirst : FlatReduced :=
  let r : FlatReduced :=
    { op := d.op, merge := d.merge, collection := d.collection, hlc := e.hlc, nodeId := e.nodeId,
      commutative := isCommutative d.merge, forkChoiceHash := e.forkChoiceHash }
  match d.collection with
  | .scalar => { r with scalar := some d }
  | .keyed =>
    if d.op = .insertOp then { r with netAdds := (∅ : Map Bytes ReducedElement).insert d.id (elementFromData e d) }
    else { r with netRemoves := {d.id} }
  | .ordered =>
    if d.op = .insertOp then { r with orderedElements := [elementFromData e d] } else r

def reduceScalar : FlatReduced :=
  match r.scalar with
  | none => { r with scalar := some d, merge := d.merge }
  | some s =>
    match d.merge with
    | .additiveInt =>
      match r.merge with
      | .additiveInt =>
        { r with scalar := some { s with value := some (.intVal (getIntVal s + getIntVal d)) } }
      | .lastWriteWins =>
        { r with
          scalar := some { s with
            value := some (.intVal (scalarIntBase rt s + getIntVal d)), merge := .lastWriteWins }
          merge := .lastWriteWins
          commutative := false }
      | _ => r
    | .additiveFloat =>
      match r.merge with
      | .additiveFloat =>
        { r with scalar := some { s with
            value := some (.floatVal (rt.addFloat (getFloatVal s) (getFloatVal d))) } }
      | .lastWriteWins =>
        { r with
          scalar := some { s with
            value := some (.floatVal (rt.addFloat (scalarFloatBase rt s) (getFloatVal d)))
            merge := .lastWriteWins }
          merge := .lastWriteWins
          commutative := false }
      | _ => r
    | .lastWriteWins =>
      -- A last-write-wins write replaces the whole value, its TTL included.
      { r with scalar := some d, merge := .lastWriteWins, commutative := false, expiresAt := none }
    | .firstWriteWins => r
    | .maxInt =>
      if getIntVal d > getIntVal s then
        { r with scalar := some { s with value := some (.intVal (getIntVal d)) } }
      else r
    | .maxBytes =>
      { r with scalar := some { s with
          value := some (.raw (maxBytes (decompress rt s) (decompress rt d))) } }
    | .unrecognized _ => r

/-- The element that replaces `existing` when `d` is inserted under the same id.
The accumulating rules keep the stamps of the first write but not its
fork-choice hash. -/
def mergeElement (existing : ReducedElement) (e : Effect) (d : DataEffect) : ReducedElement :=
  let kept (v : Value) : ReducedElement :=
    { data := { existing.data with value := some v }, hlc := existing.hlc, nodeId := existing.nodeId,
      expiresAt := existing.expiresAt }
  match d.merge with
  | .additiveInt => kept (.intVal (scalarIntBase rt existing.data + getIntVal d))
  | .additiveFloat => kept (.floatVal (rt.addFloat (scalarFloatBase rt existing.data) (getFloatVal d)))
  | .maxInt =>
    if getIntVal d > getIntVal existing.data then kept (.intVal (getIntVal d)) else existing
  | .lastWriteWins | .firstWriteWins | .maxBytes => elementFromData e d
  | .unrecognized _ => elementFromData e d

def reduceKeyed : FlatReduced :=
  if d.op = .removeOp then
    match r.netAdds.lookup d.id with
    | some _ => { r with netAdds := r.netAdds.erase d.id }
    | none => { r with netRemoves := insert d.id r.netRemoves }
  else
    match r.netAdds.lookup d.id with
    | none =>
      { r with netAdds := r.netAdds.insert d.id (elementFromData e d), netRemoves := r.netRemoves.erase d.id }
    | some existing => { r with netAdds := r.netAdds.insert d.id (mergeElement rt existing e d) }

def reduceOrdered : FlatReduced :=
  let elements := r.orderedElements
  if d.op = .removeOp then
    match findOrderedByID elements d.id with
    | some i => { r with orderedElements := elements.eraseIdx i }
    | none => { r with netRemoves := insert d.id r.netRemoves }
  else
    let elem := elementFromData e d
    match d.placement with
    | .head => { r with orderedElements := elem :: elements }
    | .tail | .none => { r with orderedElements := elements ++ [elem] }
    | .before =>
      match findOrderedByID elements d.reference with
      | some i => { r with orderedElements := elements.insertIdx i elem }
      | none => { r with orderedElements := elem :: elements }
    | .after =>
      match findOrderedByID elements d.reference with
      | some i => { r with orderedElements := elements.insertIdx (i + 1) elem }
      | none => { r with orderedElements := elements ++ [elem] }
    | .self =>
      match findOrderedByID elements d.id with
      | some i => { r with orderedElements := elements.set i elem }
      | none => r

/-- Move a state to the collection kind of the next data effect. A scalar write
replaces the whole value, so the overlays of the other kinds are dropped. -/
def switchCollection (k : CollectionKind) : FlatReduced :=
  if k = .scalar ∧ r.collection ≠ .scalar then
    { r with netAdds := ∅, netRemoves := ∅, orderedElements := [], collection := k }
  else { r with collection := k }

def reduceAccumulate : FlatReduced :=
  match d.collection with
  | .scalar => reduceScalar rt (switchCollection r d.collection) d
  | .keyed => reduceKeyed rt (switchCollection r d.collection) e d
  | .ordered => reduceOrdered (switchCollection r d.collection) e d

def setTypeTag (tag : ValueType) : FlatReduced :=
  if tag ≠ .unspecified then { r with typeTag := tag } else r

/-- A metadata effect sets the type tag and the TTL of the key or of one element.
A type tag without an expiry leaves the key's TTL alone. -/
def reduceMeta (m : MetaEffect) : FlatReduced :=
  let r := setTypeTag r m.typeTag
  if m.elementId ≠ [] then
    match r.netAdds.lookup m.elementId with
    | some elem => { r with netAdds := r.netAdds.insert m.elementId { elem with expiresAt := m.expiresAt } }
    | none => r
  else if m.expiresAt ≠ none ∨ m.typeTag = .unspecified then { r with expiresAt := m.expiresAt }
  else r

def reduceSerialization (s : SerializationEffect) : FlatReduced :=
  { r with serializationLeader := if s.release then none else some s.leaderNodeId }

/-- The two variables of the reduction loop: the state folded so far and whether
a key-level DEL was seen. -/
structure Accum where
  live : Option FlatReduced
  hadDel : Bool
deriving DecidableEq

/-- One iteration of the loop in `reduceFlatOwned`. -/
def reduceStep (acc : Accum) (e : Effect) : Accum :=
  match e.kind with
  | .data d =>
    if d.op = .removeOp ∧ d.collection = .scalar then ⟨none, true⟩
    else
      match acc.live with
      | none => ⟨some (reduceFirst e d), acc.hadDel⟩
      | some r => ⟨some (reduceAccumulate rt r e d), acc.hadDel⟩
  | .metadata m => ⟨some (reduceMeta (acc.live.getD {}) m), acc.hadDel⟩
  | .serialization s => ⟨some (reduceSerialization (acc.live.getD { commutative := true }) s), acc.hadDel⟩
  | _ => acc

/-- Where the loop starts: a seed that carries REMOVE is read as a DEL marker. -/
def startAccum (seed : Option FlatReduced) (effects : List Effect) : Accum :=
  match seed with
  | some r => if r.op = .removeOp ∧ effects ≠ [] then ⟨none, true⟩ else ⟨some r, false⟩
  | none => ⟨none, false⟩

def delMarker (last : Effect) : FlatReduced :=
  { op := .removeOp, hlc := last.hlc, nodeId := last.nodeId }

def reduceFlatOwned (seed : Option FlatReduced) (effects : List Effect) : Option FlatReduced :=
  let acc := effects.foldl (reduceStep rt) (startAccum seed effects)
  match effects.head?, effects.getLast? with
  | some first, some last =>
    match acc.live with
    | none => if acc.hadDel then some (delMarker last) else none
    | some r =>
      some { r with hlc := last.hlc, nodeId := last.nodeId, forkChoiceHash := first.forkChoiceHash }
  | _, _ => acc.live

def reduceFlat (seed : Option FlatReduced) (effects : List Effect) : Option FlatReduced :=
  if seed = none ∧ effects = [] then none else reduceFlatOwned rt seed effects

def isRootKeyDel : Bool :=
  match e.kind with
  | .data d => e.virtualKey = [] ∧ d.op = .removeOp ∧ d.collection = .scalar ∧ d.id = []
  | _ => false

/-- The part of a chain from its last root key-level DEL on, if it has one. -/
def lastRootDel : List Effect → Option (List Effect)
  | [] => none
  | e :: es =>
    match lastRootDel es with
    | some tail => some tail
    | none => if isRootKeyDel e then some (e :: es) else none

/-- A root key-level DEL drops the seed and everything before it. -/
def liveTail : Option ReducedEffect × List Effect :=
  match lastRootDel effects with
  | some tail => (none, tail)
  | none => (seed, effects)

def chainOf (v : Bytes) (effects : List Effect) : List Effect :=
  effects.filter (fun e => e.virtualKey = v)

/-- The non-root partitions that a chain addresses. -/
def virtualsOf : List Bytes :=
  ((effects.map Effect.virtualKey).filter (· ≠ [])).dedup

/-- The state a seed holds for a partition; the empty name is the root. -/
def stateOf (v : Bytes) : Option FlatReduced :=
  if v = [] then seed.map toFlatReduced
  else seed.bind (fun r => r.partitions.lookup v)

def reduceParts (live : List Effect) : Map Bytes FlatReduced :=
  let carried := (virtualsOf live).foldl (fun m v => m.erase v) ((seed.map partitions).getD ∅)
  (virtualsOf live).foldl
    (fun m v => lib.insertSome m v (reduceFlat rt (stateOf seed v) (chainOf v live))) carried

def reducePartitioned : Option ReducedEffect :=
  let (liveSeed, live) := liveTail seed effects
  let root := reduceFlat rt (stateOf liveSeed []) (chainOf [] live)
  let parts := reduceParts rt liveSeed live
  if parts = ∅ then root.map (fun r => { r with partitions := ∅ })
  else some { root.getD {} with partitions := parts }

def hasVirtualEffects : Bool :=
  effects.any (fun e => e.virtualKey ≠ [])

def reduceChain : Option ReducedEffect :=
  if (seed.map partitions).getD ∅ = ∅ ∧ !hasVirtualEffects effects then
    (reduceFlat rt (stateOf seed []) effects).map (fun r => { r with partitions := ∅ })
  else reducePartitioned rt seed effects

def reduceBranch : Option ReducedEffect :=
  reduceChain rt none effects

end swytch.effects
