import Swytch.Lib.ByteText
import Swytch.Lib.FinmapFold
import Swytch.Proto.Replication

open swytch.lib swytch.proto Option Finmap

namespace swytch.effects

/-- The fields of a `ReducedEffect` message other than its maps with string keys. -/
structure ReducedFields where
  op : EffectOp := .unknownOp
  merge : MergeRule := .lastWriteWins
  collection : CollectionKind := .scalar
  hlc : Timestamp := none
  nodeId : NodeID := 0
  commutative : Bool := false
  scalar : Option DataEffect := none
  orderedElements : List ReducedElement := []
  typeTag : ValueType := .unspecified
  expiresAt : Timestamp := none
  subscribers : Map Nat Bool := ∅
  serializationLeader : Option NodeID := none
  forkChoiceHash : Bytes := []

mutual

/-- A `ReducedEffect` message as the wire format has it: its partitions are messages of
the same type. -/
inductive ReducedMessage where
  | mk (fields : ReducedFields) (netAdds : Map Bytes ReducedElement) (netRemoves : Map Bytes Bool)
    (partitions : PartitionMap)

/-- The entries of a map of partitions. -/
inductive PartitionMap where
  | nil
  | cons (path : Bytes) (state : ReducedMessage) (rest : PartitionMap)

end

structure SnapshotMessage where
  collection : CollectionKind := .scalar
  state : Option ReducedMessage := none
  txnVerdicts : Map Bytes Verdict := ∅
  prevSnapshot : Option EffectRef := none

inductive MessageKind where
  | data (d : DataEffect)
  | metadata (m : MetaEffect)
  | txnBind (b : TransactionalBindEffect)
  | snapshot (s : SnapshotMessage)
  | subscription (s : SubscriptionEffect)
  | serialization (s : SerializationEffect)
  | noop
  | observation (o : ObservationEffect)
  | rowWrite (w : RowWriteEffect)
  | pubsubMessage (channel payload : Bytes)

/-- The `Effect` message. -/
structure EffectMessage where
  key : Bytes
  hlc : Timestamp := none
  nodeId : NodeID := 0
  deps : List EffectRef := []
  txnId : Bytes := []
  forkChoiceHash : Bytes := []
  virtualKey : Bytes := []
  kind : MessageKind

def validKeys (keys : Finset Bytes) : Bool :=
  decide (∀ k ∈ keys, validUtf8 k = true)

mutual

/-- The keys of all maps of a state, at every depth. -/
def ReducedMessage.validStrings : ReducedMessage → Bool
  | .mk _ netAdds netRemoves partitions =>
    validKeys netAdds.keys && validKeys netRemoves.keys && partitions.validStrings

def PartitionMap.validStrings : PartitionMap → Bool
  | .nil => true
  | .cons path state rest => validUtf8 path && state.validStrings && rest.validStrings

end

def validText : TypedValue → Bool
  | .text s => validUtf8 s
  | _ => true

mutual

def validPredicate : Predicate → Bool
  | .bool _ => true
  | .and children => validPredicates children
  | .or children => validPredicates children
  | .not child => validPredicate child
  | .cmp _ _ literal => literal.all validText
  | .colCmp _ _ _ => true
  | .isNull _ => true

def validPredicates : List Predicate → Bool
  | [] => true
  | p :: ps => validPredicate p && validPredicates ps

end

variable (eff : EffectMessage)

namespace EffectMessage

/-- The state of a snapshot. -/
def state (eff : EffectMessage) : Option ReducedMessage :=
  match eff.kind with
  | .snapshot s => s.state
  | _ => none

/-- Rewrite the state of a snapshot in place. -/
def mapState (f : ReducedMessage → ReducedMessage) : EffectMessage :=
  match eff.kind with
  | .snapshot s => { eff with kind := .snapshot { s with state := s.state.map f } }
  | _ => eff

/-- The strings and the map keys of a message outside of the state of a snapshot. -/
def validOther : Bool :=
  validUtf8 eff.txnId &&
    match eff.kind with
    | .snapshot s => validKeys s.txnVerdicts.keys
    | .observation o => o.predicate.all validPredicate
    | .rowWrite w => w.columns.all validText
    | _ => true

def validStrings (eff : EffectMessage) : Bool :=
  eff.validOther && eff.state.all ReducedMessage.validStrings

end EffectMessage

/-- What is assumed of `proto.Marshal` and `proto.Unmarshal`: a message is encoded if and
only if its strings and map keys are valid UTF-8, and decoding inverts encoding. -/
structure ProtoCodec (W : Type) where
  marshal : EffectMessage → Option W
  unmarshal : W → Option EffectMessage
  marshal_isSome_iff : ∀ eff, (marshal eff).isSome = true ↔ eff.validStrings = true
  unmarshal_marshal : ∀ {eff wire}, marshal eff = some wire → unmarshal wire = some eff

variable (range : RangeOrder Bytes) {state : ReducedMessage}

def sanitizeReducedKeys : ReducedMessage → ReducedMessage
  | .mk fields netAdds netRemoves partitions =>
    .mk fields
      (if netAdds.keys.Nonempty then rekey range hexEncode netAdds else netAdds)
      (if netRemoves.keys.Nonempty then rekey range hexEncode netRemoves else netRemoves)
      partitions

/-- A key that is not hexadecimal is kept as it is. -/
def desanitizeKey (k : Bytes) : Bytes :=
  (hexDecode k).getD k

def desanitizeReducedKeys : ReducedMessage → ReducedMessage
  | .mk fields netAdds netRemoves partitions =>
    .mk fields
      (if netAdds.keys.Nonempty then rekey range desanitizeKey netAdds else netAdds)
      (if netRemoves.keys.Nonempty then rekey range desanitizeKey netRemoves else netRemoves)
      partitions

/-- Whether the root of a state has elements. -/
def hasElements : ReducedMessage → Bool
  | .mk _ netAdds netRemoves _ => decide netAdds.keys.Nonempty || decide netRemoves.keys.Nonempty

/-- The messages that a call works on: its argument, and the clone it makes. -/
structure MarshalCells where
  argument : EffectMessage
  clone : Option EffectMessage := none

/-- The rewrite of the keys writes to the message it is given, which is the clone. -/
def marshalEffect {W : Type} (codec : ProtoCodec W) (range : RangeOrder Bytes) (cells : MarshalCells) :
    MarshalCells × Option W :=
  if cells.argument.state.any hasElements then
    let cloned := { cells with clone := some cells.argument }
    let sanitized := { cloned with clone := cloned.clone.map (·.mapState (sanitizeReducedKeys range)) }
    (sanitized, sanitized.clone.bind codec.marshal)
  else (cells, codec.marshal cells.argument)

def unmarshalEffect {W : Type} (codec : ProtoCodec W) (range : RangeOrder Bytes) (data : W) : Option EffectMessage :=
  (codec.unmarshal data).map (·.mapState (desanitizeReducedKeys range))

def ReducedMessage.partitions : ReducedMessage → PartitionMap
  | .mk _ _ _ partitions => partitions

/-- The keys that are not rewritten: the paths of partitions, and all keys within one. -/
def EffectMessage.validPartitions : Bool :=
  eff.state.all fun state => state.partitions.validStrings

theorem validKeys_iff {keys : Finset Bytes} : validKeys keys = true ↔ ∀ k ∈ keys, validUtf8 k = true :=
  decide_eq_true_iff

/-- Renamed keys are hexadecimal, and so valid. -/
theorem validKeys_rekey {V : Type} (m : Map Bytes V) :
    validKeys (if m.keys.Nonempty then rekey range hexEncode m else m).keys = true := by
  rw [validKeys_iff]
  intro k hk
  split at hk
  · rw [mem_keys] at hk
    obtain ⟨k', -, rfl⟩ := exists_of_mem_rekey hk
    exact validUtf8_of_ascii (hexEncode_ascii k')
  · rename_i hempty
    exact absurd ⟨k, hk⟩ hempty

theorem validStrings_sanitize (state : ReducedMessage) :
    (sanitizeReducedKeys range state).validStrings = state.partitions.validStrings := by
  cases state with
  | mk fields netAdds netRemoves partitions =>
    rw [sanitizeReducedKeys, ReducedMessage.validStrings, validKeys_rekey, validKeys_rekey]
    rfl

/-- A state without elements at the root has only the keys of its partitions. -/
theorem validStrings_of_no_elements (hnone : hasElements state = false) :
    state.validStrings = state.partitions.validStrings := by
  cases state with
  | mk fields netAdds netRemoves partitions =>
    rw [hasElements, Bool.or_eq_false_iff, decide_eq_false_iff_not, decide_eq_false_iff_not,
      Finset.not_nonempty_iff_eq_empty, Finset.not_nonempty_iff_eq_empty] at hnone
    rw [ReducedMessage.validStrings, hnone.1, hnone.2]
    rfl

theorem desanitizeKey_hexEncode (k : Bytes) : desanitizeKey (hexEncode k) = k := by
  rw [desanitizeKey, hexDecode_hexEncode, getD_some]

/-- The keys of one map are named back. -/
theorem desanitize_map {V : Type} (range range' : RangeOrder Bytes) (m : Map Bytes V) :
    (if (if m.keys.Nonempty then rekey range hexEncode m else m).keys.Nonempty then
      rekey range' desanitizeKey (if m.keys.Nonempty then rekey range hexEncode m else m)
      else if m.keys.Nonempty then rekey range hexEncode m else m) = m := by
  by_cases hm : m.keys.Nonempty
  · rw [if_pos hm]
    have hback := rekey_rekey range range' desanitizeKey_hexEncode m
    split
    · exact hback
    · rename_i hempty
      obtain ⟨k, hk⟩ := hm
      rw [← hback, mem_keys] at hk
      obtain ⟨l, hl, -⟩ := exists_of_mem_rekey hk
      exact absurd ⟨l, mem_keys.mpr hl⟩ hempty
  · rw [if_neg hm, if_neg hm]

theorem desanitize_sanitize (range range' : RangeOrder Bytes) (state : ReducedMessage) :
    desanitizeReducedKeys range' (sanitizeReducedKeys range state) = state := by
  cases state with
  | mk fields netAdds netRemoves partitions =>
    rw [sanitizeReducedKeys, desanitizeReducedKeys, desanitize_map, desanitize_map]

theorem desanitize_of_no_elements
    (hnone : hasElements state = false) : desanitizeReducedKeys range state = state := by
  cases state with
  | mk fields netAdds netRemoves partitions =>
    rw [hasElements, Bool.or_eq_false_iff, decide_eq_false_iff_not, decide_eq_false_iff_not] at hnone
    rw [desanitizeReducedKeys, if_neg hnone.1, if_neg hnone.2]

variable {eff : EffectMessage}

namespace EffectMessage

theorem state_mapState (eff : EffectMessage) (f : ReducedMessage → ReducedMessage) :
    (eff.mapState f).state = eff.state.map f := by
  obtain ⟨key, hlc, nodeId, deps, txnId, forkChoiceHash, virtualKey, kind⟩ := eff
  cases kind <;> rfl

theorem validOther_mapState (eff : EffectMessage) (f : ReducedMessage → ReducedMessage) :
    (eff.mapState f).validOther = eff.validOther := by
  obtain ⟨key, hlc, nodeId, deps, txnId, forkChoiceHash, virtualKey, kind⟩ := eff
  cases kind <;> rfl

theorem mapState_mapState {f g : ReducedMessage → ReducedMessage}
    (hback : ∀ state, eff.state = some state → g (f state) = state) : (eff.mapState f).mapState g = eff := by
  unfold mapState
  cases hkind : eff.kind with
  | snapshot s =>
    have hstate : (s.state.map f).map g = s.state := by
      cases hs : s.state with
      | none => rfl
      | some state =>
        rw [map_some, map_some, hback state (by rw [EffectMessage.state, hkind]; exact hs)]
    dsimp only
    rw [hstate, ← hkind]
  | _ =>
    dsimp only
    rw [hkind]

end EffectMessage

/-- What a call sends is valid exactly when the keys are that it does not rewrite. -/
theorem validStrings_sent (hother : eff.validOther = true) (f : ReducedMessage → ReducedMessage)
    (hf : ∀ state, eff.state = some state → (f state).validStrings = state.partitions.validStrings) :
    (eff.mapState f).validStrings = eff.validPartitions := by
  rw [EffectMessage.validStrings, EffectMessage.validOther_mapState, hother, EffectMessage.state_mapState,
    Bool.true_and, EffectMessage.validPartitions]
  cases hstate : eff.state with
  | none => rfl
  | some state => exact hf state hstate

/-- The sent message, and that reading it back gives the argument. -/
theorem marshalEffect_eq {W : Type} (codec : ProtoCodec W) (range range' : RangeOrder Bytes)
    (hother : eff.validOther = true) :
    ∃ sent : EffectMessage, (marshalEffect codec range ⟨eff, none⟩).2 = codec.marshal sent ∧
      sent.validStrings = eff.validPartitions ∧ sent.mapState (desanitizeReducedKeys range') = eff := by
  unfold marshalEffect
  cases helements : eff.state.any hasElements with
  | true =>
    refine ⟨eff.mapState (sanitizeReducedKeys range), rfl, ?_, ?_⟩
    · exact validStrings_sent hother _ fun state _ => validStrings_sanitize range state
    · exact EffectMessage.mapState_mapState fun state _ => desanitize_sanitize range range' state
  | false =>
    have hnone : ∀ state, eff.state = some state → hasElements state = false := by
      intro state hstate
      rw [hstate] at helements
      exact helements
    have hself : eff.mapState id = eff := by
      obtain ⟨key, hlc, nodeId, deps, txnId, forkChoiceHash, virtualKey, kind⟩ := eff
      cases kind <;> simp [EffectMessage.mapState]
    refine ⟨eff, rfl, ?_, ?_⟩
    · rw [← validStrings_sent hother id fun state hstate => validStrings_of_no_elements (hnone state hstate), hself]
    · have hback := EffectMessage.mapState_mapState (f := id) (g := desanitizeReducedKeys range')
        fun state hstate => desanitize_of_no_elements range' (hnone state hstate)
      rwa [hself] at hback

/-- An effect whose other strings are valid keeps its value, and comes back equal from its
wire format exactly when all map keys in the partitions of its state are valid UTF-8. -/
theorem marshalEffect_lossless_iff {W : Type} (codec : ProtoCodec W) (range range' : RangeOrder Bytes)
    (eff : EffectMessage) (hother : eff.validOther = true) : (marshalEffect codec range ⟨eff, none⟩).1.argument = eff ∧
      ((∃ wire, (marshalEffect codec range ⟨eff, none⟩).2 = some wire ∧
        unmarshalEffect codec range' wire = some eff) ↔ eff.validPartitions = true) := by
  constructor
  · unfold marshalEffect
    split <;> rfl
  · obtain ⟨sent, hsent, hvalid, hback⟩ := marshalEffect_eq codec range range' hother
    rw [hsent, ← hvalid, ← codec.marshal_isSome_iff]
    constructor
    · rintro ⟨wire, hwire, -⟩
      rw [hwire]
      rfl
    · intro hsome
      obtain ⟨wire, hwire⟩ := isSome_iff_exists.mp hsome
      refine ⟨wire, hwire, ?_⟩
      rw [unmarshalEffect, codec.unmarshal_marshal hwire, map_some, hback]

/-- A codec that sends a valid message as it is. -/
def plainCodec : ProtoCodec EffectMessage where
  marshal eff := if eff.validStrings then some eff else none
  unmarshal eff := some eff
  marshal_isSome_iff eff := by split <;> simp_all
  unmarshal_marshal {eff wire} h := by
    split at h
    · exact h.symm
    · cases h

/-- A set whose member is not valid UTF-8, and a partition with a readable path. -/
theorem marshalEffect_lossless_binary_member : ∃ wire, (marshalEffect plainCodec (sortedOrder Bytes)
        ⟨{ key := [1], kind := .snapshot { state := some (.mk {} (singleton [255] ⟨{}, none, 0, none, []⟩) ∅
          (.cons [97] (.mk {} ∅ ∅ .nil) .nil)) } }, none⟩).2 = some wire ∧
      unmarshalEffect plainCodec (sortedOrder Bytes) wire =
        some { key := [1], kind := .snapshot { state := some (.mk {} (singleton [255] ⟨{}, none, 0, none, []⟩) ∅
          (.cons [97] (.mk {} ∅ ∅ .nil) .nil)) } } :=
  (marshalEffect_lossless_iff plainCodec (sortedOrder Bytes) (sortedOrder Bytes) _ (by decide)).2.mpr (by decide)

/-- The same member in a partition: the snapshot is not sent. -/
theorem marshalEffect_fails_on_partition_member : (marshalEffect plainCodec (sortedOrder Bytes)
      ⟨{ key := [1], kind := .snapshot { state := some (.mk {} ∅ ∅
        (.cons [97] (.mk {} (singleton [255] ⟨{}, none, 0, none, []⟩) ∅ .nil) .nil)) } }, none⟩).2.isSome = false := by
  decide

end swytch.effects
