import Swytch.Effects.Cuckoo
import Swytch.Lib.Bitmap

open swytch.lib swytch.proto List Nat

namespace swytch.effects

def bloomK : Nat := 7

def bloomMinBytes : Nat := 4096

def bloomFrameVersion : Fin 256 := 1

/-- A bitmap whose length is a power of two, and the number of bits that were set in it. -/
structure Bloom where
  bits : Bytes
  setBits : Nat
  min_length : bloomMinBytes ≤ bits.length
  pow_length : bits.length.isPowerOfTwo

inductive BloomFault where
  | badVersion
  | notPowerOfTwo
deriving DecidableEq, Repr

theorem le_roundBuckets (want fuel nb : Nat) : nb ≤ roundBuckets want fuel nb := by
  induction fuel generalizing nb with
  | zero => exact le_refl nb
  | succ fuel ih =>
    have hdouble := ih (nb * 2)
    unfold roundBuckets
    split <;> omega

theorem isPowerOfTwo_bloomMinBytes : bloomMinBytes.isPowerOfTwo := ⟨12, rfl⟩

/-- An empty filter. The size is below `2 ^ 63`, so 64 doublings are enough. -/
def newBloom (sizeBytes : Nat) : Bloom where
  bits := replicate (roundBuckets sizeBytes 64 bloomMinBytes) 0
  setBits := 0
  min_length := length_replicate ▸ le_roundBuckets sizeBytes 64 bloomMinBytes
  pow_length := length_replicate ▸ isPowerOfTwo_roundBuckets sizeBytes 64 isPowerOfTwo_bloomMinBytes

namespace Bloom

variable (b : Bloom)

def mask : Nat := b.bits.length * 8 - 1

/-- The bit of a hash for the `i`-th probe, by double hashing with an odd stride. -/
def position (h : Fin (2 ^ 64)) (i : Nat) : Nat :=
  (h.val + i * ((h.val >>> 32) ||| 1)) % 2 ^ 64 &&& b.mask

/-- Set one bit, unless it is set. -/
def setPosition (g : Nat) : Bloom :=
  if hasBit b.bits g then b
  else { b with
    bits := putBit b.bits g
    setBits := b.setBits + 1
    min_length := length_putBit b.bits g ▸ b.min_length
    pow_length := length_putBit b.bits g ▸ b.pow_length }

/-- Set the bits of a hash, and tell whether one of them was not set. -/
def setHash (h : Fin (2 ^ 64)) : Bloom × Bool :=
  (range bloomK).foldl
    (fun r i => (r.1.setPosition (r.1.position h i), r.2 || !hasBit r.1.bits (r.1.position h i))) (b, false)

def hasHash (h : Fin (2 ^ 64)) : Bool :=
  (range bloomK).all (fun i => hasBit b.bits (b.position h i))

/-- Whether more than half of the bits are set: the quotient of the two counts is exact in
floating point, since the number of bits is a power of two. -/
def overHalfFull : Bool := b.bits.length * 8 < 2 * b.setBits

def sizeBytes : Nat := b.bits.length

/-- One version byte, then the bitmap. -/
def frame : Bytes := bloomFrameVersion :: b.bits

end Bloom

theorem pow_of_body {n : Nat} (h : bloomMinBytes ≤ n ∧ n &&& (n - 1) = 0) : n.isPowerOfTwo :=
  ne_zero_and_sub_one_eq_zero_iff_isPowerOfTwo.mp ⟨ne_of_gt (lt_of_lt_of_le (by decide) h.1), h.2⟩

/-- Decode a frame; the bits are counted anew. -/
def parseBloomFrame (data : Bytes) : Except BloomFault Bloom :=
  match data with
  | [] => .error .badVersion
  | version :: body =>
    if version ≠ bloomFrameVersion then .error .badVersion
    else if h : bloomMinBytes ≤ body.length ∧ body.length &&& (body.length - 1) = 0 then
      .ok ⟨body, onesCount body, h.1, pow_of_body h⟩
    else .error .notPowerOfTwo

variable {b c : Bloom}

namespace Bloom

/-- The filters that come out of the constructors, the decoder and the setter. -/
inductive Built : Bloom → Prop where
  | new (sizeBytes : Nat) : Built (newBloom sizeBytes)
  | parsed {data : Bytes} {b : Bloom} (hparse : parseBloomFrame data = .ok b) : Built b
  | set {b : Bloom} (hbuilt : Built b) (h : Fin (2 ^ 64)) : Built (b.setHash h).1

theorem position_lt (b : Bloom) (h : Fin (2 ^ 64)) (i : Nat) : b.position h i < b.bits.length * 8 := by
  obtain ⟨k, hk⟩ := b.pow_length
  have hsize : b.bits.length * 8 = 2 ^ (k + 3) := by rw [hk, Nat.pow_add]
  unfold position mask
  rw [hsize, and_two_pow_sub_one_eq_mod]
  exact Nat.mod_lt _ (Nat.two_pow_pos _)

/-- The positions of a hash depend on the size of the bitmap only. -/
theorem position_eq_of_length (hlength : c.bits.length = b.bits.length) (h : Fin (2 ^ 64)) (i : Nat) :
    c.position h i = b.position h i := by
  unfold position mask
  rw [hlength]

@[simp] theorem length_setPosition (b : Bloom) (g : Nat) : (b.setPosition g).bits.length = b.bits.length := by
  unfold setPosition
  split <;> simp

theorem hasBit_setPosition {g : Nat} (hg : g < b.bits.length * 8) (j : Nat) :
    hasBit (b.setPosition g).bits j = (decide (j = g) || hasBit b.bits j) := by
  unfold setPosition
  split
  · rename_i hset
    by_cases hj : j = g
    · rw [hj, hset, Bool.or_true]
    · rw [decide_eq_false hj, Bool.false_or]
  · exact hasBit_putBit hg j

theorem setBits_setPosition {g : Nat} (hg : g < b.bits.length * 8) (hcount : b.setBits = onesCount b.bits) :
    (b.setPosition g).setBits = onesCount (b.setPosition g).bits := by
  unfold setPosition
  split
  · exact hcount
  · rename_i hclear
    dsimp only
    rw [onesCount_putBit hg, if_neg hclear, hcount]

/-- What the first probes of a hash leave of a filter: the bits they name are set, no other
bit changes, and the count stays exact. -/
structure Probed (b : Bloom) (h : Fin (2 ^ 64)) (probes : List Nat) (c : Bloom) : Prop where
  length_eq : c.bits.length = b.bits.length
  hasBit_iff : ∀ j, hasBit c.bits j = true ↔ hasBit b.bits j = true ∨ ∃ i ∈ probes, j = b.position h i
  count_eq : b.setBits = onesCount b.bits → c.setBits = onesCount c.bits

theorem Probed.snoc {h : Fin (2 ^ 64)} {probes : List Nat} (hprobed : b.Probed h probes c) (i : Nat) :
    b.Probed h (probes ++ [i]) (c.setPosition (c.position h i)) := by
  have hlt := c.position_lt h i
  have hsame := position_eq_of_length hprobed.length_eq h i
  refine ⟨(c.length_setPosition _).trans hprobed.length_eq, fun j => ?_, fun hcount => ?_⟩
  · rw [hasBit_setPosition hlt, Bool.or_eq_true, decide_eq_true_eq, hprobed.hasBit_iff, hsame]
    simp only [mem_append, mem_singleton, or_and_right, exists_or, exists_eq_left]
    rw [or_comm, or_assoc]
  · exact setBits_setPosition hlt (hprobed.count_eq hcount)

theorem setHash_probed (b : Bloom) (h : Fin (2 ^ 64)) : b.Probed h (range bloomK) (b.setHash h).1 := by
  unfold setHash
  generalize range bloomK = probes
  -- from the end, since the probes set so far are those of an initial segment
  induction probes using reverseRecOn with
  | nil => exact ⟨rfl, by simp, id⟩
  | append_singleton probes i ih =>
    rw [foldl_append]
    exact ih.snoc i

theorem hasHash_iff (b : Bloom) (h : Fin (2 ^ 64)) :
    b.hasHash h = true ↔ ∀ i ∈ range bloomK, hasBit b.bits (b.position h i) = true :=
  all_eq_true

/-- A filter has the hash that was set last, and every hash it had before. -/
theorem hasHash_setHash {h h' : Fin (2 ^ 64)} (hhas : h' = h ∨ b.hasHash h' = true) :
    (b.setHash h).1.hasHash h' = true := by
  have hprobed := b.setHash_probed h
  rw [hasHash_iff]
  intro i hi
  rw [position_eq_of_length hprobed.length_eq, hprobed.hasBit_iff]
  obtain rfl | hbefore := hhas
  · exact .inr ⟨i, hi, rfl⟩
  · exact .inl ((b.hasHash_iff h').mp hbefore i hi)

theorem Built.setBits_eq (hbuilt : b.Built) : b.setBits = onesCount b.bits := by
  induction hbuilt with
  | new sizeBytes => exact (onesCount_replicate_zero _).symm
  | @parsed data b hparse =>
    unfold parseBloomFrame at hparse
    split at hparse
    · cases hparse
    · split at hparse
      · cases hparse
      · split at hparse
        · cases hparse
          rfl
        · cases hparse
  | set _ h ih => exact (setHash_probed _ h).count_eq ih

/-- A frame is decoded to the bitmap it was made from. -/
theorem parse_frame (b : Bloom) : ∃ c, parseBloomFrame b.frame = .ok c ∧ c.bits = b.bits := by
  have hbody : bloomMinBytes ≤ b.bits.length ∧ b.bits.length &&& (b.bits.length - 1) = 0 :=
    ⟨b.min_length, (ne_zero_and_sub_one_eq_zero_iff_isPowerOfTwo.mpr b.pow_length).2⟩
  refine ⟨⟨b.bits, onesCount b.bits, b.min_length, b.pow_length⟩, ?_, rfl⟩
  unfold parseBloomFrame frame
  dsimp only
  rw [if_neg (not_not.mpr rfl), dif_pos hbody]

theorem hasHash_eq_of_bits (hbits : c.bits = b.bits) (h : Fin (2 ^ 64)) : c.hasHash h = b.hasHash h := by
  unfold hasHash position mask
  rw [hbits]

end Bloom

end swytch.effects
