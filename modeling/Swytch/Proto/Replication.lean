import Mathlib.Data.Finmap
import Mathlib.Data.List.Lex
import Mathlib.Order.Fin.Basic

namespace swytch.proto

/-- Go's `[]byte` and `string`. The order on lists is the lexicographic order
that `bytes.Compare` and string comparison use. -/
abbrev Bytes := List (Fin 256)

/-- What the numerals of `Fin 256` rest on. -/
instance instNeZeroByteRange : @NeZero Nat Zero.ofOfNat0 256 := ⟨Nat.succ_ne_zero 255⟩

/-- A Go map. A nil map and an empty one have the same entries, and no function
modelled here tells them apart. -/
abbrev Map (K V : Type) := Finmap (fun _ : K => V)

abbrev NodeID := Nat

/-- A protobuf timestamp in nanoseconds; `none` is the unset message. -/
abbrev Timestamp := Option Int

/-- IEEE-754 bits. Arithmetic on them is supplied by `Runtime`. -/
abbrev Float64 := UInt64

/-- The library functions that the engine calls. Nothing is assumed about them:
float arithmetic, number parsing, the codec and the digest of an origin and a
timestamp stay uninterpreted. The parsers return what the call leaves in its
value result when the error is dropped. -/
structure Runtime where
  parseInt : Bytes → Int64
  parseFloat : Bytes → Float64
  zstdDecode : Bytes → Option Bytes
  addFloat : Float64 → Float64 → Float64
  ltFloat : Float64 → Float64 → Bool
  floatOfInt : Int64 → Float64
  forkChoiceHash : NodeID → Timestamp → Bytes

/-- Library functions for evaluating the model on inputs that do not call them. -/
def idleRuntime : Runtime where
  parseInt _ := 0
  parseFloat _ := 0
  zstdDecode _ := none
  addFloat a _ := a
  ltFloat _ _ := false
  floatOfInt _ := 0
  forkChoiceHash n _ := [Fin.ofNat 256 n]

/-- The position of an effect in the log: originating node and offset. The zero
reference stands for an unset `EffectRef` message. -/
structure EffectRef where
  nodeId : NodeID
  offset : Nat
deriving DecidableEq, Repr

namespace EffectRef

def zero : EffectRef := ⟨0, 0⟩

end EffectRef

inductive EffectOp where
  | unknownOp
  | insertOp
  | removeOp
deriving DecidableEq, Repr

/-- `unrecognized` carries the number of a rule that this build does not know:
proto3 enums are open and the reducer has a fallback for them. -/
inductive MergeRule where
  | lastWriteWins
  | additiveInt
  | additiveFloat
  | maxInt
  | firstWriteWins
  | maxBytes
  | unrecognized (code : Nat)
deriving DecidableEq, Repr

inductive CollectionKind where
  | scalar
  | keyed
  | ordered
deriving DecidableEq, Repr

inductive Placement where
  | none
  | head
  | tail
  | after
  | before
  | self
deriving DecidableEq, Repr

inductive Compression where
  | none
  | zstd
deriving DecidableEq, Repr

structure CompressedValue where
  codec : Compression
  rawLen : Nat
  data : Bytes
deriving DecidableEq, Repr

inductive Value where
  | raw (bytes : Bytes)
  | intVal (n : Int64)
  | floatVal (bits : Float64)
  | compressed (value : CompressedValue)
  | child (partition : Bytes)
deriving DecidableEq, Repr

/-- A mutation of a key's value. `id` is empty for scalar operations, and
`reference` is the pivot of a BEFORE or AFTER placement. -/
structure DataEffect where
  op : EffectOp := .unknownOp
  merge : MergeRule := .lastWriteWins
  collection : CollectionKind := .scalar
  placement : Placement := .none
  reference : Bytes := []
  id : Bytes := []
  value : Option Value := none
deriving DecidableEq, Repr

inductive ValueType where
  | unspecified
  | string
  | list
  | hash
  | set
  | zset
  | stream
  | hll
  | bitmap
  | geo
  | json
  | jsonObject
  | jsonArray
deriving DecidableEq, Repr

structure MetaEffect where
  expiresAt : Timestamp := none
  typeTag : ValueType := .unspecified
  elementId : Bytes := []
deriving DecidableEq, Repr

structure ReducedElement where
  data : DataEffect
  hlc : Timestamp := none
  nodeId : NodeID := 0
  expiresAt : Timestamp := none
  forkChoiceHash : Bytes := []
deriving DecidableEq, Repr

/-- The materialized state of one partition of a key. The defaults are those of
an empty `ReducedEffect` message. -/
structure FlatReduced where
  op : EffectOp := .unknownOp
  merge : MergeRule := .lastWriteWins
  collection : CollectionKind := .scalar
  hlc : Timestamp := none
  nodeId : NodeID := 0
  commutative : Bool := false
  scalar : Option DataEffect := none
  netAdds : Map Bytes ReducedElement := ∅
  netRemoves : Finset Bytes := ∅
  orderedElements : List ReducedElement := []
  typeTag : ValueType := .unspecified
  expiresAt : Timestamp := none
  serializationLeader : Option NodeID := none
  forkChoiceHash : Bytes := []
deriving DecidableEq

/-- The materialized state of a key: its root partition and the flat map of its
virtual partitions, each of which has no partitions of its own. -/
structure ReducedEffect extends FlatReduced where
  partitions : Map Bytes FlatReduced := ∅
deriving DecidableEq

/-- One key of a transactional bind: the tips the transaction started from and
the last effect it wrote on that key. -/
structure KeyBind where
  key : Bytes
  consumedTips : List EffectRef
  newTip : EffectRef
deriving DecidableEq, Repr

structure TransactionalBindEffect where
  keys : List KeyBind
  txnHlc : Timestamp
  originatorNodeId : NodeID
  abortDeps : List EffectRef := []
deriving DecidableEq, Repr

inductive Verdict where
  | unspecified
  | won
  | lost
deriving DecidableEq, Repr

/-- `state` is unset on a snapshot that only records verdicts, and `prevSnapshot`
on the first snapshot of a key. -/
structure SnapshotEffect where
  state : Option ReducedEffect := none
  txnVerdicts : Map Bytes Verdict := ∅
  prevSnapshot : Option EffectRef := none
deriving DecidableEq

inductive TypedValue where
  | null
  | int (n : Int64)
  | float (bits : Float64)
  | text (s : Bytes)
  | blob (b : Bytes)
deriving DecidableEq, Repr

inductive PredicateCmpOp where
  | eq
  | lt
  | le
  | gt
  | ge
deriving DecidableEq, Repr

/-- The predicate tree of an observation. An absent child of NOT reads as the
zero message, which is the predicate `bool false`. -/
inductive Predicate where
  | bool (b : Bool)
  | and (children : List Predicate)
  | or (children : List Predicate)
  | not (child : Predicate)
  | cmp (col : Nat) (op : PredicateCmpOp) (literal : Option TypedValue)
  | colCmp (col : Nat) (op : PredicateCmpOp) (col2 : Nat)
  | isNull (col : Nat)

structure ObservationEffect where
  predicate : Option Predicate

structure RowWriteEffect where
  columns : List TypedValue
deriving DecidableEq, Repr

structure SubscriptionEffect where
  subscriberNodeId : NodeID
  unsubscribe : Bool := false
deriving DecidableEq, Repr

structure SerializationEffect where
  leaderNodeId : NodeID
  release : Bool := false
deriving DecidableEq, Repr

inductive EffectKind where
  | data (d : DataEffect)
  | metadata (m : MetaEffect)
  | txnBind (b : TransactionalBindEffect)
  | snapshot (s : SnapshotEffect)
  | subscription (s : SubscriptionEffect)
  | serialization (s : SerializationEffect)
  | noop
  | observation (o : ObservationEffect)
  | rowWrite (w : RowWriteEffect)

/-- The envelope stored in the log. An empty `txnId` marks a non-transactional
effect, an empty `virtualKey` the root partition. -/
structure Effect where
  key : Bytes
  hlc : Timestamp := none
  nodeId : NodeID := 0
  deps : List EffectRef := []
  txnId : Bytes := []
  forkChoiceHash : Bytes := []
  virtualKey : Bytes := []
  kind : EffectKind

end swytch.proto
