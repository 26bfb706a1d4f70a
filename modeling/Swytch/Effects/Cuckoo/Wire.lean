import Swytch.Effects.Cuckoo.Chain

open swytch.lib swytch.proto List Nat

namespace swytch.effects

theorem readSlots_flatMap (slots : List Fingerprint) :
    readSlots slots.length (slots.flatMap (fun v => bigEndian 2 v.val)) = slots := by
  induction slots with
  | nil => rfl
  | cons v slots ih =>
    have hv : ofBigEndian (bigEndian 2 v.val) = v.val := ofBigEndian_bigEndian_of_lt v.isLt
    rw [length_cons, readSlots, flatMap_cons, take_left' (length_bigEndian 2 v.val),
      drop_left' (length_bigEndian 2 v.val), hv, ih]
    congr 1
    exact Fin.ext (mod_eq_of_lt v.isLt)

theorem length_flatMap_slots (slots : List Fingerprint) :
    (slots.flatMap (fun v => bigEndian 2 v.val)).length = slots.length * 2 := by
  induction slots with
  | nil => rfl
  | cons v slots ih =>
    rw [flatMap_cons, length_append, length_bigEndian, ih, length_cons]
    omega

namespace CuckooFilter

/-- A filter as it is decoded again: the live slots are counted anew. -/
def reread (c : CuckooFilter) : CuckooFilter :=
  { c with count := c.buckets.countP (· ≠ emptySlot), kickSeed := 0 }

theorem length_marshalBinary (c : CuckooFilter) : c.marshalBinary.length = 8 + c.numBuckets * cuckooBucketSize * 2 := by
  rw [marshalBinary, length_append, length_bigEndian, length_flatMap_slots, c.length_buckets]

theorem unmarshalBinary_marshalBinary {c : CuckooFilter} (hnum : c.numBuckets < 2 ^ 61) :
    unmarshalBinary c.marshalBinary = .ok c.reread := by
  have hlen := c.length_marshalBinary
  have hnb : ofBigEndian (c.marshalBinary.take 8) = c.numBuckets := by
    rw [marshalBinary, take_left' (length_bigEndian 8 _)]
    exact ofBigEndian_bigEndian_of_lt (by omega)
  have hbody : c.marshalBinary.drop 8 = c.buckets.flatMap (fun v => bigEndian 2 v.val) := by
    rw [marshalBinary, drop_left' (length_bigEndian 8 _)]
  have hslots : readSlots (c.numBuckets * cuckooBucketSize) (c.marshalBinary.drop 8) = c.buckets := by
    rw [hbody, ← c.length_buckets, readSlots_flatMap]
  have hpow := ne_zero_and_sub_one_eq_zero_iff_isPowerOfTwo.mpr c.pow_numBuckets
  have hshort : ¬ c.marshalBinary.length < 8 := by omega
  have hmatch : ¬ (c.marshalBinary.drop 8).length ≠ c.numBuckets * cuckooBucketSize * 2 % 2 ^ 64 := by
    rw [length_drop, hlen, Nat.add_sub_cancel_left, not_not, Nat.mod_eq_of_lt]
    simp only [cuckooBucketSize]
    omega
  unfold unmarshalBinary
  rw [if_neg hshort]
  dsimp only
  simp only [hnb, hslots]
  rw [dif_pos hpow, if_neg hmatch, if_neg (Nat.not_le_of_lt hnum)]
  rfl

end CuckooFilter

variable {cc : CuckooChain}

namespace CuckooChain

/-- The wire form of a segment: its length, then its bytes. -/
theorem readSegments_flatMap {filters : List CuckooFilter} (hsmall : ∀ f ∈ filters, f.marshalBinary.length < 2 ^ 32) :
    readSegments filters.length (filters.flatMap (fun f => bigEndian 4 f.marshalBinary.length ++ f.marshalBinary)) =
      .ok (filters.map CuckooFilter.reread) := by
  induction filters with
  | nil => rfl
  | cons f filters ih =>
    have hlen : f.marshalBinary.length < 256 ^ 4 := hsmall f (mem_cons_self ..)
    have hrest := ih (fun g hg => hsmall g (mem_cons_of_mem _ hg))
    have hnum : f.numBuckets < 2 ^ 61 := by
      rw [f.length_marshalBinary, cuckooBucketSize] at hlen
      omega
    have hdecode := f.unmarshalBinary_marshalBinary hnum
    rw [length_cons, flatMap_cons, append_assoc]
    generalize filters.flatMap (fun f => bigEndian 4 f.marshalBinary.length ++ f.marshalBinary) = rest at hrest
    unfold readSegments
    rw [if_neg (by rw [length_append, length_bigEndian]; omega)]
    dsimp only
    rw [take_left' (length_bigEndian 4 _), drop_left' (length_bigEndian 4 _),
      ofBigEndian_bigEndian_of_lt hlen, if_neg (by rw [length_append]; omega), take_left, drop_left,
      hdecode, hrest]
    rfl

/-- A chain as it is decoded again. -/
def decoded (cc : CuckooChain) : CuckooChain :=
  { sealed := cc.segments.map CuckooFilter.reread, active := none }

/-- A chain of fewer than `2 ^ 32` segments of fewer than `2 ^ 32` bytes is decoded with the
same slots. -/
theorem unmarshalBinary_marshalBinary_of_small (hcount : cc.segments.length < 2 ^ 32)
    (hsmall : ∀ f ∈ cc.segments, f.marshalBinary.length < 2 ^ 32) :
    unmarshalBinary cc.marshalBinary = .ok cc.decoded := by
  have hlen : cc.segments.length * 4 ≤
      (cc.segments.flatMap (fun f => bigEndian 4 f.marshalBinary.length ++ f.marshalBinary)).length := by
    induction cc.segments with
    | nil => exact zero_le _
    | cons f filters ih =>
      rw [flatMap_cons, length_append, length_append, length_bigEndian, length_cons]
      omega
  have hread := readSegments_flatMap hsmall
  unfold unmarshalBinary marshalBinary
  generalize cc.segments.flatMap (fun f => bigEndian 4 f.marshalBinary.length ++ f.marshalBinary) = body at hlen hread
  rw [if_neg (by rw [length_append, length_bigEndian]; omega)]
  dsimp only
  rw [take_left' (length_bigEndian 4 _), drop_left' (length_bigEndian 4 _),
    ofBigEndian_bigEndian_of_lt hcount, if_neg, hread]
  · rfl
  · rw [length_append, length_bigEndian]
    omega

theorem unmarshalBinary_marshalBinary (huniform : cc.Uniform) (hcount : cc.segments.length < 2 ^ 32) :
    unmarshalBinary cc.marshalBinary = .ok cc.decoded := by
  refine unmarshalBinary_marshalBinary_of_small hcount (fun f hf => ?_)
  rw [f.length_marshalBinary, huniform f hf]
  decide

/-- A chain whose number of segments is a multiple of `2 ^ 32` is decoded as an empty one. -/
theorem unmarshalBinary_of_count_wraps (hcount : cc.segments.length % 256 ^ 4 = 0) :
    unmarshalBinary cc.marshalBinary = .ok { sealed := [], active := none } := by
  unfold unmarshalBinary marshalBinary
  rw [if_neg (by rw [length_append, length_bigEndian]; omega)]
  dsimp only
  rw [take_left' (length_bigEndian 4 _), ofBigEndian_bigEndian, hcount, if_neg (not_lt_zero _)]
  rfl

theorem maybeContains_decoded (hash : Hash) (cc : CuckooChain) (key : Bytes) :
    cc.decoded.maybeContains hash key = cc.maybeContains hash key := by
  rw [maybeContains_eq_any, maybeContains_eq_any, decoded, segments, Option.toList_none, append_nil, any_map]
  rfl

end CuckooChain

end swytch.effects
