import Swytch.Lib.LittleEndian
import Swytch.Cluster.Replicator

open swytch.lib swytch.proto swytch.effects List Nat

namespace swytch.cluster

/-- The encoding of a message, which may fail. -/
structure NackCodec where
  marshal : NackNotify → Option Bytes
  unmarshal : Bytes → Option NackNotify

def packetTypeNotifyACK : Fin 256 := 4

def notifyACKHeader (nodeID : NodeID) (requestID : Nat) (status : Fin 256) (credits : Nat) : Bytes :=
  packetTypeNotifyACK :: littleEndian 8 nodeID ++ littleEndian 8 requestID ++ status :: littleEndian 4 credits

def notifyACKHeaderSize : Nat := 22

def putUint32 (buf : Bytes) (at_ n : Nat) : Bytes :=
  buf.take at_ ++ littleEndian 4 n ++ buf.drop (at_ + 4)

variable (codec : NackCodec)

/-- One message of the loop: what was written of it is taken back if it cannot be marshalled. -/
def appendNack (s : Bytes × Nat) (nack : NackNotify) : Bytes × Nat :=
  let buf := s.1 ++ littleEndian 4 0
  match codec.marshal nack with
  | none => (buf.take s.1.length, s.2)
  | some encoded => (putUint32 (buf ++ encoded) s.1.length ((buf ++ encoded).length - s.1.length - 4), s.2 + 1)

def marshalNotifyNACKPacket (nodeID : NodeID) (requestID : Nat) (nacks : List NackNotify) (credits : Nat) : Bytes :=
  let s := nacks.foldl (appendNack codec) (notifyACKHeader nodeID requestID 1 credits ++ littleEndian 4 0, 0)
  putUint32 s.1 notifyACKHeaderSize s.2

inductive NackParseError where
  | tooShort (length : Nat)
  | truncatedAt (entry : Nat)
  | entryTruncated (entry : Nat)
  | unmarshal (entry : Nat)
  /-- A slice expression is out of range, which is a panic. -/
  | outOfRange
deriving DecidableEq, Repr

/-- What a parse returns, and the capacity it has reserved for the result. -/
structure NackParse where
  nacks : List NackNotify := []
  err : Option NackParseError := none
  capacity : Nat := 0

def slice (b : Bytes) (lo hi : Nat) : Option Bytes :=
  if lo ≤ hi ∧ hi ≤ b.length then some ((b.take hi).drop lo) else none

/-- The loop over the entries that are still expected, from entry `i` on. -/
def parseEntries (codec : NackCodec) (data : Bytes) :
    Nat → Nat → Nat → List NackNotify → List NackNotify × Option NackParseError
  | 0, _, _, nacks => (nacks, none)
  | n + 1, i, offset, nacks =>
    if offset + 4 > data.length then (nacks, some (.truncatedAt i))
    else
      match slice data offset (offset + 4) with
      | none => (nacks, some .outOfRange)
      | some field =>
        let nLen := ofLittleEndian field
        if offset + 4 + nLen > data.length then (nacks, some (.entryTruncated i))
        else
          match slice data (offset + 4) (offset + 4 + nLen) with
          | none => (nacks, some .outOfRange)
          | some encoded =>
            match codec.unmarshal encoded with
            | none => (nacks, some (.unmarshal i))
            | some nack => parseEntries codec data n (i + 1) (offset + 4 + nLen) (nacks ++ [nack])

/-- Parse what follows the header. The number of entries is read from the first four bytes. -/
def parseNotifyNACKPayload (data : Bytes) : NackParse :=
  if data.length < 4 then { err := some (.tooShort data.length) }
  else
    let count := ofLittleEndian (data.take 4)
    let r := parseEntries codec data count 0 4 []
    { nacks := r.1, err := r.2, capacity := count }

variable {codec : NackCodec} {data buf : Bytes} {offset : Nat}

theorem slice_eq {lo hi : Nat} (hlo : lo ≤ hi) (hhi : hi ≤ data.length) :
    slice data lo hi = some ((data.take hi).drop lo) := if_pos ⟨hlo, hhi⟩

theorem slice_append {lo hi : Nat} (before part rest : Bytes) (hlo : lo = before.length)
    (hhi : hi = before.length + part.length) : slice (before ++ part ++ rest) lo hi = some part := by
  rw [slice_eq (by omega) (by rw [length_append, length_append]; omega),
    take_left' (by rw [length_append, hhi]), drop_left' hlo.symm]

/-- An entry takes four bytes at least, and every slice is checked before it is taken. -/
theorem parseEntries_bounded (hoffset : offset ≤ data.length) (n i : Nat) (nacks : List NackNotify) :
    4 * (parseEntries codec data n i offset nacks).1.length ≤ 4 * nacks.length + (data.length - offset) ∧
      (parseEntries codec data n i offset nacks).2 ≠ some .outOfRange := by
  induction n generalizing i offset nacks with
  | zero => exact ⟨le_add_right _ _, by simp [parseEntries]⟩
  | succ n ih =>
    unfold parseEntries
    by_cases hfield : offset + 4 > data.length
    · rw [if_pos hfield]
      exact ⟨le_add_right _ _, by simp⟩
    rw [if_neg hfield, slice_eq (by omega) (by omega)]
    dsimp only
    split
    · exact ⟨le_add_right _ _, by simp⟩
    · rename_i hentry
      rw [slice_eq (by omega) (by omega)]
      dsimp only
      split
      · exact ⟨le_add_right _ _, by simp⟩
      · rename_i nack _
        obtain ⟨hlength, herr⟩ := ih (Nat.le_of_not_lt hentry) (i + 1) (nacks ++ [nack])
        rw [length_append, length_singleton] at hlength
        exact ⟨by omega, herr⟩

/-- An entry of the payload. -/
def frame (encoded : Bytes) : Bytes := littleEndian 4 encoded.length ++ encoded

theorem putUint32_append (rest : Bytes) (n m : Nat) :
    putUint32 (buf ++ littleEndian 4 m ++ rest) buf.length n = buf ++ littleEndian 4 n ++ rest := by
  have hdrop : (buf ++ littleEndian 4 m ++ rest).drop (buf.length + 4) = rest :=
    drop_left' (by rw [length_append, length_littleEndian])
  rw [putUint32, hdrop, append_assoc buf, take_left' rfl]

theorem foldl_appendNack (nacks : List NackNotify) (buf : Bytes) (count : Nat) :
    nacks.foldl (appendNack codec) (buf, count) =
      (buf ++ (nacks.filterMap codec.marshal).flatMap frame, count + (nacks.filterMap codec.marshal).length) := by
  induction nacks generalizing buf count with
  | nil => simp
  | cons nack nacks ih =>
    rw [foldl_cons]
    cases hmarshal : codec.marshal nack with
    | none =>
      have hstep : appendNack codec (buf, count) nack = (buf, count) := by
        simp only [appendNack, hmarshal, take_left' rfl]
      rw [hstep, ih, filterMap_cons_none hmarshal]
    | some encoded =>
      have hstep : appendNack codec (buf, count) nack = (buf ++ frame encoded, count + 1) := by
        have hlength : (buf ++ littleEndian 4 0 ++ encoded).length - buf.length - 4 = encoded.length := by
          rw [length_append, length_append, length_littleEndian]
          omega
        simp only [appendNack, hmarshal, hlength, putUint32_append]
        rw [frame, append_assoc]
      rw [hstep, ih, filterMap_cons_some hmarshal, flatMap_cons, append_assoc, length_cons]
      simp only [add_assoc, add_comm 1]

/-- The loop over an entry: its length field keeps 32 bits of the length. -/
theorem parseEntries_frame (before encoded rest : Bytes) (n i : Nat) (read : List NackNotify) :
    parseEntries codec (before ++ (frame encoded ++ rest)) (n + 1) i before.length read =
      match codec.unmarshal (encoded.take (encoded.length % 2 ^ 32)) with
      | none => (read, some (.unmarshal i))
      | some nack => parseEntries codec (before ++ (frame encoded ++ rest)) n (i + 1)
          (before.length + 4 + encoded.length % 2 ^ 32) (read ++ [nack]) := by
  have hdata : before ++ (frame encoded ++ rest) = before ++ littleEndian 4 encoded.length ++ encoded ++ rest := by
    simp only [frame, append_assoc]
  have hsize : (before ++ littleEndian 4 encoded.length ++ encoded ++ rest).length =
      before.length + 4 + encoded.length + rest.length := by
    simp only [length_append, length_littleEndian]
  have hfield := slice_append before (littleEndian 4 encoded.length) (encoded ++ rest) rfl
    (by rw [length_littleEndian] : before.length + 4 = _)
  have hmod := Nat.mod_le encoded.length (2 ^ 32)
  have hentry := slice_append (before ++ littleEndian 4 encoded.length) (encoded.take (encoded.length % 2 ^ 32))
    (encoded.drop (encoded.length % 2 ^ 32) ++ rest)
    (by rw [length_append, length_littleEndian] : before.length + 4 = _)
    (by rw [length_append, length_littleEndian, length_take, Nat.min_eq_left hmod] :
      before.length + 4 + encoded.length % 2 ^ 32 = _)
  rw [← append_assoc] at hfield
  rw [append_assoc _ (encoded.take _), ← append_assoc (encoded.take _), take_append_drop, ← append_assoc] at hentry
  rw [hdata, parseEntries, if_neg (by omega), hfield]
  dsimp only
  rw [ofLittleEndian_littleEndian, show 256 ^ 4 = 2 ^ 32 from rfl, if_neg (by omega), hentry]

theorem parseEntries_small_frame {nack : NackNotify} {encoded : Bytes} (hnack : codec.unmarshal encoded = some nack)
    (hsmall : encoded.length < 2 ^ 32) (before rest : Bytes) (n i : Nat) (read : List NackNotify) :
    parseEntries codec (before ++ (frame encoded ++ rest)) (n + 1) i before.length read =
      parseEntries codec (before ++ frame encoded ++ rest) n (i + 1) (before ++ frame encoded).length
        (read ++ [nack]) := by
  rw [parseEntries_frame, Nat.mod_eq_of_lt hsmall, take_length, hnack, append_assoc before, length_append, frame,
    length_append, length_littleEndian, add_assoc]

/-- The loop reads back the entries that stand in the payload from some place on. -/
theorem parseEntries_frames (hcodec : ∀ nack encoded, codec.marshal nack = some encoded →
      codec.unmarshal encoded = some nack) {nacks : List NackNotify}
    (hsmall : ∀ nack ∈ nacks, ∀ encoded, codec.marshal nack = some encoded → encoded.length < 2 ^ 32) (before : Bytes)
    (i : Nat) (read : List NackNotify) :
    parseEntries codec (before ++ (nacks.filterMap codec.marshal).flatMap frame)
      (nacks.filterMap codec.marshal).length i
      before.length read = (read ++ nacks.filter (fun nack => (codec.marshal nack).isSome), none) := by
  induction nacks generalizing before i read with
  | nil => simp [parseEntries]
  | cons nack nacks ih =>
    obtain ⟨hnack, hsmall⟩ := forall_mem_cons.mp hsmall
    cases hmarshal : codec.marshal nack with
    | none =>
      rw [filterMap_cons_none hmarshal, filter_cons_of_neg (by simp [hmarshal])]
      exact ih hsmall before i read
    | some encoded =>
      rw [filterMap_cons_some hmarshal, filter_cons_of_pos (by simp [hmarshal]), flatMap_cons, length_cons,
        parseEntries_small_frame (hcodec nack encoded hmarshal) (hnack encoded hmarshal), ih hsmall, append_assoc read]
      rfl

theorem parseEntries_extends (n i offset : Nat) (read : List NackNotify) :
    read <+: (parseEntries codec data n i offset read).1 := by
  fun_induction parseEntries codec data n i offset read with
  | case7 n i offset read _ _ _ _ _ _ _ nack _ ih => exact (prefix_append read [nack]).trans ih
  | _ => exact prefix_rfl

/-- A message whose encoding is longer than its length field can say is cut off, so that
the entries are read back only if there is none, and all of them are expected. -/
theorem small_of_parseEntries_frames
    (hcodec : ∀ nack encoded, codec.marshal nack = some encoded → codec.unmarshal encoded = some nack)
    (hcut : ∀ nack encoded k, codec.marshal nack = some encoded → k < encoded.length →
      codec.unmarshal (encoded.take k) ≠ some nack) {nacks : List NackNotify} {before : Bytes} {n i : Nat}
    {read : List NackNotify} (hread : parseEntries codec (before ++ (nacks.filterMap codec.marshal).flatMap frame) n i
      before.length read = (read ++ nacks.filter (fun nack => (codec.marshal nack).isSome), none)) :
    n = (nacks.filterMap codec.marshal).length ∧
      ∀ encoded ∈ nacks.filterMap codec.marshal, encoded.length < 2 ^ 32 := by
  induction nacks generalizing before n i read with
  | nil =>
    cases n with
    | zero => simp
    | succ n => simp [parseEntries] at hread
  | cons nack nacks ih =>
    cases hmarshal : codec.marshal nack with
    | none =>
      rw [filterMap_cons_none hmarshal] at hread ⊢
      rw [filter_cons_of_neg (by simp [hmarshal])] at hread
      exact ih hread
    | some encoded =>
      rw [filterMap_cons_some hmarshal] at hread ⊢
      rw [filter_cons_of_pos (by simp [hmarshal]), flatMap_cons] at hread
      cases n with
      | zero => simp [parseEntries] at hread
      | succ n =>
        by_cases hsmall : encoded.length < 2 ^ 32
        · rw [parseEntries_small_frame (hcodec nack encoded hmarshal) hsmall,
            append_cons read nack (nacks.filter _)] at hread
          obtain ⟨hcount, hall⟩ := ih hread
          exact ⟨by rw [length_cons, hcount], forall_mem_cons.mpr ⟨hsmall, hall⟩⟩
        · have hlost := hcut nack encoded (encoded.length % 2 ^ 32) hmarshal (by omega)
          rw [parseEntries_frame] at hread
          split at hread
          · cases (Prod.mk.inj hread).2
          · rename_i other hother
            obtain ⟨more, hmore⟩ := hread ▸ parseEntries_extends n (i + 1) _ (read ++ [other])
            rw [append_assoc] at hmore
            exact absurd (hother.trans (congrArg some (cons.inj (append_cancel_left hmore)).1)) hlost

/-- The payload of a packet: the number of the messages that could be marshalled, and these. -/
theorem drop_marshalNotifyNACKPacket (nodeID : NodeID) (requestID : Nat) (nacks : List NackNotify) (credits : Nat) :
    (marshalNotifyNACKPacket codec nodeID requestID nacks credits).drop notifyACKHeaderSize =
      littleEndian 4 (nacks.filterMap codec.marshal).length ++ (nacks.filterMap codec.marshal).flatMap frame := by
  have hheader : (notifyACKHeader nodeID requestID 1 credits).length = notifyACKHeaderSize := by
    simp [notifyACKHeader, notifyACKHeaderSize]
  have hpacket : marshalNotifyNACKPacket codec nodeID requestID nacks credits =
      notifyACKHeader nodeID requestID 1 credits ++ littleEndian 4 (nacks.filterMap codec.marshal).length ++
        (nacks.filterMap codec.marshal).flatMap frame := by
    rw [marshalNotifyNACKPacket, foldl_appendNack, ← hheader, zero_add]
    exact putUint32_append _ _ _
  rw [hpacket, append_assoc, drop_left' hheader]

theorem parseNotifyNACKPayload_marshal (nodeID : NodeID) (requestID : Nat) (nacks : List NackNotify) (credits : Nat) :
    let count := (nacks.filterMap codec.marshal).length
    let r := parseEntries codec (littleEndian 4 count ++ (nacks.filterMap codec.marshal).flatMap frame)
      (count % 2 ^ 32) 0 4 []
    parseNotifyNACKPayload codec ((marshalNotifyNACKPacket codec nodeID requestID nacks credits).drop
      notifyACKHeaderSize) = ⟨r.1, r.2, count % 2 ^ 32⟩ := by
  dsimp only
  rw [drop_marshalNotifyNACKPacket]
  unfold parseNotifyNACKPayload
  rw [if_neg (by rw [length_append, length_littleEndian]; omega), take_left' (length_littleEndian 4 _),
    ofLittleEndian_littleEndian]
  rfl

/-- The NACKs of an answer come out of its packet as they were put in. -/
theorem ACKPacket.nacks_parsed
    (hcodec : ∀ nack encoded, codec.marshal nack = some encoded → codec.unmarshal encoded = some nack)
    (p : ACKPacket) (credits : Nat) (hcount : p.nacks.length < 2 ^ 32)
    (hsmall : ∀ nack ∈ p.nacks, ∃ encoded, codec.marshal nack = some encoded ∧ encoded.length < 2 ^ 32) :
    (parseNotifyNACKPayload codec ((marshalNotifyNACKPacket codec p.peer p.requestID p.nacks credits).drop
      notifyACKHeaderSize)).nacks = p.nacks := by
  have hall : p.nacks.filter (fun nack => (codec.marshal nack).isSome) = p.nacks := by
    refine filter_eq_self.mpr fun nack hnack => ?_
    obtain ⟨encoded, hencoded, -⟩ := hsmall nack hnack
    rw [hencoded, Option.isSome_some]
  have hread := @parseEntries_frames codec hcodec p.nacks (fun nack hnack encoded hencoded => by
    obtain ⟨encoded', hencoded', hlt⟩ := hsmall nack hnack
    cases hencoded.symm.trans hencoded'
    exact hlt) (littleEndian 4 (p.nacks.filterMap codec.marshal).length) 0 []
  have hle := length_filterMap_le codec.marshal p.nacks
  rw [length_littleEndian, hall] at hread
  rw [parseNotifyNACKPayload_marshal, Nat.mod_eq_of_lt (by omega), hread, nil_append]

/-- A parse ends, returns no more entries than the payload has room for and never slices out
of range. The capacity it reserves is the number that the payload states, so it is bounded
likewise just if that number is. Messages come back as they were sent just if their number
and the length of each encoding are numbers of 32 bits. -/
theorem parseNotifyNACKPayload_bounded_iff {codec : NackCodec}
    (hcodec : ∀ nack encoded, codec.marshal nack = some encoded → codec.unmarshal encoded = some nack)
    (hcut : ∀ nack encoded k, codec.marshal nack = some encoded → k < encoded.length →
      codec.unmarshal (encoded.take k) ≠ some nack) :
    (∀ data, (parseNotifyNACKPayload codec data).nacks.length ≤ data.length / 4 ∧
      (parseNotifyNACKPayload codec data).err ≠ some .outOfRange ∧
      ((parseNotifyNACKPayload codec data).capacity ≤ data.length / 4 ↔
        data.length < 4 ∨ ofLittleEndian (data.take 4) ≤ data.length / 4)) ∧
    ∀ nodeID requestID nacks credits, (∃ capacity, parseNotifyNACKPayload codec
        ((marshalNotifyNACKPacket codec nodeID requestID nacks credits).drop notifyACKHeaderSize) =
          ⟨nacks.filter (fun nack => (codec.marshal nack).isSome), none, capacity⟩) ↔
      (nacks.filterMap codec.marshal).length < 2 ^ 32 ∧
        ∀ encoded ∈ nacks.filterMap codec.marshal, encoded.length < 2 ^ 32 := by
  refine ⟨fun data => ?_, fun nodeID requestID nacks credits => ?_⟩
  · unfold parseNotifyNACKPayload
    split
    · rename_i hshort
      simp [hshort]
    · rename_i hlong
      obtain ⟨hlength, herr⟩ :=
        @parseEntries_bounded codec data 4 (Nat.le_of_not_lt hlong) (ofLittleEndian (data.take 4)) 0 []
      rw [length_nil] at hlength
      refine ⟨?_, herr, (or_iff_right hlong).symm⟩
      dsimp only
      omega
  · have hfield := length_littleEndian 4 (nacks.filterMap codec.marshal).length
    rw [parseNotifyNACKPayload_marshal]
    constructor
    · rintro ⟨capacity, hparse⟩
      obtain ⟨hnacks, herr, -⟩ := NackParse.mk.inj hparse
      obtain ⟨hcount, hsmall⟩ := @small_of_parseEntries_frames codec hcodec hcut nacks
        (littleEndian 4 (nacks.filterMap codec.marshal).length) _ 0 [] (by
          rw [hfield, nil_append]
          exact Prod.ext hnacks herr)
      exact ⟨by omega, hsmall⟩
    · rintro ⟨hcount, hsmall⟩
      have hread := @parseEntries_frames codec hcodec nacks (fun nack hnack encoded hencoded =>
        hsmall encoded (mem_filterMap.mpr ⟨nack, hnack, hencoded⟩))
        (littleEndian 4 (nacks.filterMap codec.marshal).length) 0 []
      rw [hfield] at hread
      exact ⟨_, by rw [Nat.mod_eq_of_lt hcount, hread, nil_append]⟩

/-- The wire format of the messages with a key of less than 128 bytes and no details: field 1
is the key, with its length in front, and field 5 the flag, which is left out unless set. -/
def keyCodec : NackCodec where
  marshal nack :=
    if nack.key ≠ [] ∧ nack.key.length < 128 ∧ nack.tipDetails.isEmpty then
      some (10 :: Fin.ofNat 256 nack.key.length :: nack.key ++ if nack.notSubscribed then [40, 1] else [])
    else none
  unmarshal
    | 10 :: n :: rest =>
      if rest.length < n.val then none
      else match rest.drop n.val with
        | [] => some { key := rest.take n.val }
        | [40, 1] => some { key := rest.take n.val, notSubscribed := true }
        | _ => none
    | _ => none

theorem keyCodec_marshal {nack : NackNotify} {encoded : Bytes} (h : keyCodec.marshal nack = some encoded) :
    ∃ key flag, key.length < 128 ∧ nack = { key := key, notSubscribed := flag } ∧
      encoded = 10 :: Fin.ofNat 256 key.length :: (key ++ if flag then [40, 1] else []) := by
  obtain ⟨⟨-, hlength, hdetails⟩, hencoded⟩ := Option.ite_none_right_eq_some.mp h
  obtain ⟨key, details, flag⟩ := nack
  obtain rfl := isEmpty_iff.mp hdetails
  exact ⟨key, flag, hlength, rfl, (Option.some.inj hencoded).symm⟩

theorem parseNotifyNACKPayload_bounded_of_two : ∃ capacity, parseNotifyNACKPayload keyCodec
    ((marshalNotifyNACKPacket keyCodec 1 2 [{ key := [7] }, { key := [8, 9], notSubscribed := true }] 0).drop
      notifyACKHeaderSize) = ⟨[{ key := [7] }, { key := [8, 9], notSubscribed := true }], none, capacity⟩ := by
  have hcodec : ∀ nack encoded, keyCodec.marshal nack = some encoded → keyCodec.unmarshal encoded = some nack := by
    intro nack encoded hmarshal
    obtain ⟨key, flag, hlength, rfl, rfl⟩ := keyCodec_marshal hmarshal
    have hmod : key.length % 256 = key.length := Nat.mod_eq_of_lt (by omega)
    cases flag <;> simp [keyCodec, hmod]
  have hcut : ∀ nack encoded k, keyCodec.marshal nack = some encoded → k < encoded.length →
      keyCodec.unmarshal (encoded.take k) ≠ some nack := by
    intro nack encoded k hmarshal hk
    obtain ⟨key, flag, hlength, rfl, rfl⟩ := keyCodec_marshal hmarshal
    have hmod : key.length % 256 = key.length := Nat.mod_eq_of_lt (by omega)
    obtain rfl | rfl | ⟨j, rfl⟩ : k = 0 ∨ k = 1 ∨ ∃ j, k = j + 2 := by
      rcases k with _ | _ | j <;> simp
    · simp [keyCodec]
    · simp [keyCodec]
    · by_cases hkey : j < key.length
      · simp [keyCodec, hmod, hkey]
      · -- Only the flag has been cut off, which is the last field.
        obtain ⟨rfl, hj⟩ : flag = true ∧ (j = key.length ∨ j = key.length + 1) := by
          cases flag <;> simp at hk ⊢ <;> omega
        obtain rfl | rfl := hj <;> simp [keyCodec, hmod, take_append]
  exact ((parseNotifyNACKPayload_bounded_iff hcodec hcut).2 1 2 _ 0).mpr ⟨by decide, by decide⟩

/-- Four bytes make the parse reserve room for more than four thousand million entries. -/
theorem parseNotifyNACKPayload_reserves_count :
    (parseNotifyNACKPayload keyCodec [255, 255, 255, 255]).capacity = 4294967295 ∧
      ¬ (parseNotifyNACKPayload keyCodec [255, 255, 255, 255]).capacity ≤ [255, 255, 255, 255].length / 4 :=
  ⟨rfl, by decide +kernel⟩

end swytch.cluster
