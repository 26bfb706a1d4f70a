import Swytch.Lib.LittleEndian
import Swytch.Proto.Replication

open swytch.lib swytch.proto List

namespace swytch.effects

/-- What is broadcast after a local write. The trace context is left out. -/
structure OffsetNotify where
  origin : EffectRef
  hlc : Timestamp
  key : Bytes
  deps : List EffectRef
  effectData : Bytes

/-- The frame of an effect: its key behind a length of 32 bits, then its proto data. -/
def buildOffsetNotify (offset : EffectRef) (eff : Effect) (data : Bytes) : OffsetNotify where
  origin := offset
  hlc := eff.hlc
  key := eff.key
  deps := eff.deps
  effectData := littleEndian 4 eff.key.length ++ eff.key ++ data

/-- Why a parser hands no proto data on: the input is too short for it, it skips empty
input, or its slice expression is out of range, which is a panic. -/
inductive FrameFault where
  | tooShort (length : Nat)
  | skipped
  | outOfRange
deriving DecidableEq, Repr

variable (b : Bytes)

def sliceFrom (i : Nat) : Except FrameFault Bytes :=
  if i ≤ b.length then .ok (b.drop i) else .error .outOfRange

/-- The end of the key in a frame, an unsigned sum of 32 bits. -/
def keyEnd : Nat :=
  (4 + ofLittleEndian (b.take 4)) % 2 ^ 32

/-- The length at the front is that of a key that fits. -/
def looksFramed : Bool :=
  0 < ofLittleEndian (b.take 4) && keyEnd b ≤ b.length % 2 ^ 32

/-- Drop the key of what looks like a frame. -/
def stripKey : Except FrameFault Bytes :=
  if looksFramed b then sliceFrom b (keyEnd b) else .ok b

/-- The common parser: what is no longer than a length field is proto data. -/
def protoDataOf : Except FrameFault Bytes :=
  if 4 < b.length then stripKey b else .ok b

/-- The places where effects come in from the wire. -/
inductive FrameParser where
  | handleRemote
  | handleBackfill
  | prefetchEffects
  | parseWireEffect
deriving DecidableEq, Repr

/-- The proto data that each of them goes on to unmarshal. -/
def FrameParser.protoData : FrameParser → Bytes → Except FrameFault Bytes
  | .handleRemote, effectData => protoDataOf effectData
  | .handleBackfill, effectData => protoDataOf effectData
  | .prefetchEffects, data => if data.isEmpty then .error .skipped else protoDataOf data
  | .parseWireEffect, wireData =>
    if wireData.length ≤ 4 then .error (.tooShort wireData.length) else stripKey wireData

/-- A frame that is read back: the key is not empty, its end is a number of 32 bits and
the length of the frame, cut to 32 bits, is not below it. -/
def Framed (key data : Bytes) : Prop :=
  key ≠ [] ∧ 4 + key.length < 2 ^ 32 ∧ 4 + key.length ≤ (4 + key.length + data.length) % 2 ^ 32

/-- Proto data that no parser takes for a frame. -/
def Unframed (data : Bytes) : Prop :=
  4 < data.length ∧ (looksFramed data = false ∨ keyEnd data = 0)

theorem sliceFrom_inRange {b : Bytes} {i : Nat} (hi : i ≤ b.length) : sliceFrom b i = .ok (b.drop i) :=
  if_pos hi

/-- The comparison in 32 bits keeps the slice within the input, whatever it holds. -/
theorem stripKey_eq : stripKey b = .ok (if looksFramed b then b.drop (keyEnd b) else b) := by
  unfold stripKey
  by_cases hframed : looksFramed b = true
  · rw [if_pos hframed, if_pos hframed]
    apply sliceFrom_inRange
    have hend : keyEnd b ≤ b.length % 2 ^ 32 := by
      rw [looksFramed, Bool.and_eq_true, decide_eq_true_eq, decide_eq_true_eq] at hframed
      exact hframed.2
    have hmod := Nat.mod_le b.length (2 ^ 32)
    omega
  · rw [if_neg hframed, if_neg hframed]

theorem protoData_eq_ok (p : FrameParser) {b : Bytes} (hlen : 4 < b.length) :
    p.protoData b = .ok (if looksFramed b then b.drop (keyEnd b) else b) := by
  have hcommon : protoDataOf b = .ok (if looksFramed b then b.drop (keyEnd b) else b) := by
    rw [protoDataOf, if_pos hlen, stripKey_eq]
  have hne : b.isEmpty = false := by
    cases b with
    | nil => simp at hlen
    | cons x b => rfl
  cases p with
  | handleRemote => exact hcommon
  | handleBackfill => exact hcommon
  | prefetchEffects =>
    rw [FrameParser.protoData, hne]
    exact hcommon
  | parseWireEffect =>
    rw [FrameParser.protoData, if_neg (by omega), stripKey_eq]

theorem protoData_inRange (p : FrameParser) (b : Bytes) : p.protoData b ≠ .error .outOfRange := by
  by_cases hlen : 4 < b.length
  · rw [protoData_eq_ok p hlen]
    exact nofun
  · have hcommon : protoDataOf b = .ok b := if_neg hlen
    cases p with
    | handleRemote =>
      rw [FrameParser.protoData, hcommon]
      exact nofun
    | handleBackfill =>
      rw [FrameParser.protoData, hcommon]
      exact nofun
    | prefetchEffects =>
      rw [FrameParser.protoData, hcommon]
      split <;> exact nofun
    | parseWireEffect =>
      rw [FrameParser.protoData, if_pos (by omega)]
      exact nofun

/-- Raw proto data comes through every parser exactly when none takes it for a frame. -/
theorem protoData_raw_iff (data : Bytes) : (∀ p : FrameParser, p.protoData data = .ok data) ↔ Unframed data := by
  constructor
  · intro hall
    have hlen : 4 < data.length := by
      by_contra hshort
      have hparse := hall .parseWireEffect
      rw [FrameParser.protoData, if_pos (by omega)] at hparse
      cases hparse
    refine ⟨hlen, ?_⟩
    have hremote := hall .handleRemote
    rw [protoData_eq_ok _ hlen, Except.ok.injEq] at hremote
    cases hframed : looksFramed data with
    | false => exact .inl rfl
    | true =>
      rw [hframed, if_pos rfl] at hremote
      have hdrop := congrArg length hremote
      rw [length_drop] at hdrop
      right
      omega
  · rintro ⟨hlen, hplain⟩ p
    rw [protoData_eq_ok p hlen]
    rcases hplain with hplain | hzero
    · rw [hplain]
      rfl
    · rw [hzero, drop_zero, ite_self]

theorem uint32_putUint32 (n : Nat) : ofLittleEndian (littleEndian 4 n) = n % 2 ^ 32 :=
  ofLittleEndian_littleEndian 4 n

theorem take_frame (key data : Bytes) :
    (littleEndian 4 key.length ++ key ++ data).take 4 = littleEndian 4 key.length := by
  rw [append_assoc, take_left' (length_littleEndian 4 _)]

theorem drop_frame (key data : Bytes) : (littleEndian 4 key.length ++ key ++ data).drop (4 + key.length) = data := by
  rw [drop_left']
  rw [length_append, length_littleEndian]

theorem length_frame (key data : Bytes) :
    (littleEndian 4 key.length ++ key ++ data).length = 4 + key.length + data.length := by
  rw [length_append, length_append, length_littleEndian]

theorem keyEnd_frame (key data : Bytes) :
    keyEnd (littleEndian 4 key.length ++ key ++ data) = (4 + key.length) % 2 ^ 32 := by
  rw [keyEnd, take_frame, uint32_putUint32, Nat.add_mod_mod]

/-- A frame comes through every parser exactly when its lengths fit 32 bits and its key
is not empty. -/
theorem protoData_frame_iff (offset : EffectRef) (eff : Effect) (data : Bytes) :
    (∀ p : FrameParser, p.protoData (buildOffsetNotify offset eff data).effectData = .ok data) ↔
      Framed eff.key data := by
  show (∀ p : FrameParser, p.protoData (littleEndian 4 eff.key.length ++ eff.key ++ data) = .ok data) ↔ _
  have hlooks : looksFramed (littleEndian 4 eff.key.length ++ eff.key ++ data) = true ↔
      0 < eff.key.length % 2 ^ 32 ∧
        (4 + eff.key.length) % 2 ^ 32 ≤ (4 + eff.key.length + data.length) % 2 ^ 32 := by
    rw [looksFramed, keyEnd_frame, take_frame, length_frame, uint32_putUint32, Bool.and_eq_true, decide_eq_true_eq,
      decide_eq_true_eq]
  have hlen := length_frame eff.key data
  have hdrop := drop_frame eff.key data
  have hend := keyEnd_frame eff.key data
  generalize littleEndian 4 eff.key.length ++ eff.key ++ data = frame at hlooks hlen hdrop hend ⊢
  constructor
  · intro hall
    have hlong : 4 < frame.length := by
      by_contra hshort
      have hparse := hall .parseWireEffect
      rw [FrameParser.protoData, if_pos (by omega)] at hparse
      cases hparse
    have hremote := hall .handleRemote
    rw [protoData_eq_ok _ hlong, Except.ok.injEq] at hremote
    cases hframed : looksFramed frame with
    | false =>
      -- the whole frame is longer than the data it holds
      rw [hframed] at hremote
      have hwhole := congrArg length hremote
      simp only [Bool.false_eq_true, if_false] at hwhole
      omega
    | true =>
      rw [hframed, if_pos rfl] at hremote
      have hcut := congrArg length hremote
      rw [length_drop, hend] at hcut
      obtain ⟨hpos, hfits⟩ := hlooks.mp hframed
      have hkey : eff.key ≠ [] := by
        intro hnil
        rw [hnil] at hpos
        exact absurd hpos (by decide)
      have hmod := Nat.mod_lt (4 + eff.key.length) (Nat.two_pow_pos 32)
      refine ⟨hkey, ?_, ?_⟩ <;> omega
  · rintro ⟨hkey, hfits, hroom⟩ p
    have hpos : 0 < eff.key.length := length_pos_iff.mpr hkey
    have hframed : looksFramed frame = true := by
      rw [hlooks]
      constructor <;> omega
    rw [protoData_eq_ok p (by omega), hframed, if_pos rfl, hend, Nat.mod_eq_of_lt hfits, hdrop]

/-- No parser slices out of range, and all of them read back both a frame and raw proto
data exactly when the frame is well formed and the data do not look like one. -/
theorem frame_and_raw_decoded_iff (offset : EffectRef) (eff : Effect) (data : Bytes) :
    (∀ (p : FrameParser) (wire : Bytes), p.protoData wire ≠ .error .outOfRange) ∧
      ((∀ p : FrameParser, p.protoData (buildOffsetNotify offset eff data).effectData = .ok data ∧
        p.protoData data = .ok data) ↔ Framed eff.key data ∧ Unframed data) := by
  refine ⟨protoData_inRange, ?_⟩
  rw [forall_and, protoData_frame_iff, protoData_raw_iff]

/-- The proto data of a no-op on the empty key: every parser takes the length of the key
for a part of the data. The proto data of a write of 600 bytes to a key of two zero
bytes: every parser takes the start for the length 522 and drops what follows. -/
theorem frame_of_empty_key_misread : (∀ p : FrameParser, p.protoData
      (buildOffsetNotify ⟨7, 1⟩ { key := [], nodeId := 7, kind := .noop } [24, 7, 138, 1, 0]).effectData =
        .ok [0, 0, 0, 0, 24, 7, 138, 1, 0]) ∧ ∀ p : FrameParser, p.protoData
        ([10, 2, 0, 0, 82, 219, 4, 82, 216, 4] ++ replicate 600 120) = .ok (replicate 84 120) := by
  constructor
  · intro p
    cases p <;> decide
  · intro p
    cases p <;> decide +kernel

end swytch.effects
