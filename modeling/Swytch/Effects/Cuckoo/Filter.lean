import Swytch.Effects.Cuckoo
import Mathlib.Data.List.OfFn
import Mathlib.Data.Nat.Bitwise

open swytch.lib swytch.proto Option List Nat

namespace swytch.effects

open CuckooFilter

variable {nb i : Nat} {p : Print Nat Fingerprint} {hash : Hash} {c : CuckooFilter} {fp : Fingerprint}
  {result : CuckooFilter × Option (Print Nat Fingerprint)}

theorem altIndex_eq_mod (hash : Hash) {k : Nat} (hnb : nb = 2 ^ k) (i : Nat) (fp : Fingerprint) :
    altIndex hash nb i fp = (i ^^^ (hash (littleEndian 2 fp)).val) % nb := by
  rw [altIndex, hnb, and_two_pow_sub_one_eq_mod]

/-- A kicked fingerprint finds its way back. -/
theorem isPairing_altIndex (hash : Hash) (hnb : nb.isPowerOfTwo) : IsPairing (· < nb) (altIndex hash nb) := by
  obtain ⟨k, hk⟩ := hnb
  have hpos : 0 < nb := by rw [hk]; exact Nat.two_pow_pos k
  constructor
  · intro i fp _
    rw [altIndex_eq_mod hash hk]
    exact mod_lt _ hpos
  · intro i fp hi
    rw [altIndex_eq_mod hash hk, altIndex_eq_mod hash hk]
    generalize (hash (littleEndian 2 fp)).val = h
    subst hk
    rw [Nat.xor_mod_two_pow, Nat.mod_mod, ← Nat.xor_mod_two_pow, Nat.xor_assoc, Nat.xor_self, Nat.xor_zero,
      mod_eq_of_lt hi]

theorem fingerprintAndIndex_valid (hash : Hash) (hnb : nb.isPowerOfTwo) (key : Bytes) :
    (fingerprintAndIndex hash nb key).bucket < nb := by
  obtain ⟨k, rfl⟩ := hnb
  rw [fingerprintAndIndex, and_two_pow_sub_one_eq_mod]
  exact Nat.mod_lt _ (Nat.two_pow_pos k)

theorem fingerprintAndIndex_ne_zero (hash : Hash) (nb : Nat) (key : Bytes) :
    (fingerprintAndIndex hash nb key).fp ≠ 0 := by
  unfold fingerprintAndIndex fingerprintOf
  dsimp only
  split
  · decide
  · assumption

namespace CuckooFilter

theorem slot_lt (c : CuckooFilter) (hi : i < c.numBuckets) (s : Fin cuckooBucketSize) :
    i * cuckooBucketSize + s < c.buckets.length := by
  have hs := s.isLt
  have hnext : (i + 1) * cuckooBucketSize ≤ c.numBuckets * cuckooBucketSize := mul_le_mul_right _ hi
  rw [c.length_buckets]
  rw [add_mul] at hnext
  omega

theorem bucket_eq_ofFn (c : CuckooFilter) (hi : i < c.numBuckets) : c.bucket i = ofFn (c.slot i) := by
  have hlen : (c.bucket i).length = cuckooBucketSize := by
    have hlast := c.slot_lt hi ⟨3, by decide⟩
    rw [bucket, length_take, length_drop]
    simp only [cuckooBucketSize] at hlast ⊢
    omega
  apply ext_getElem
  · rw [hlen, length_ofFn]
  · intro s hs _
    have hslot := c.slot_lt hi ⟨s, hlen ▸ hs⟩
    simp only [bucket, List.getElem_take, List.getElem_drop, List.getElem_ofFn, slot]
    rw [List.getD_eq_getElem _ _ hslot]

theorem bucketContains_iff (c : CuckooFilter) (hi : i < c.numBuckets) (fp : Fingerprint) :
    c.bucketContains i fp = true ↔ ∃ s, c.slot i s = fp := by
  rw [bucketContains, contains_iff_mem, c.bucket_eq_ofFn hi, mem_ofFn]

/-- A lookup asks whether the print is lodged in the table of slots. -/
theorem finds_iff (hash : Hash) (c : CuckooFilter) (hp : p.bucket < c.numBuckets) :
    c.finds hash p = true ↔ Lodged (altIndex hash c.numBuckets) c.slot p := by
  have halt := (isPairing_altIndex hash c.pow_numBuckets).alt_valid p.fp hp
  rw [finds, Bool.or_eq_true, c.bucketContains_iff hp, c.bucketContains_iff halt, Lodged, exists_or]

theorem slot_setSlot (c : CuckooFilter) (hi : i < c.numBuckets) (s : Fin cuckooBucketSize) (fp : Fingerprint) :
    (c.setSlot i s fp).slot = putSlot c.slot i s fp := by
  funext j t
  have hslot := c.slot_lt hi s
  have hs := s.isLt
  have ht := t.isLt
  simp only [slot, setSlot, putSlot, getD_eq_getElem?_getD, getElem?_set]
  by_cases hjt : j = i ∧ t = s
  · obtain ⟨rfl, rfl⟩ := hjt
    rw [if_pos rfl, if_pos hslot, if_pos ⟨rfl, rfl⟩, getD_some]
  · have hne : i * cuckooBucketSize + s.val ≠ j * cuckooBucketSize + t.val := by
      intro heq
      apply hjt
      simp only [cuckooBucketSize] at heq hs ht
      exact ⟨by omega, Fin.ext (by omega)⟩
    rw [if_neg hne, if_neg hjt]

/-- A bucket without an empty slot. -/
def Full (c : CuckooFilter) (i : Nat) : Prop := ∀ s, c.slot i s ≠ emptySlot

/-- An insertion writes to the first empty slot, and fails only in a full bucket. -/
theorem insertIntoBucket_spec (c : CuckooFilter) (hi : i < c.numBuckets) (fp : Fingerprint) :
    (∃ s : Fin cuckooBucketSize, c.slot i s = 0 ∧ (∀ t, c.slot i t = 0 → s ≤ t) ∧
      c.insertIntoBucket i fp = some { c.setSlot i s fp with count := c.count + 1 }) ∨
    (c.Full i ∧ c.insertIntoBucket i fp = none) := by
  unfold insertIntoBucket
  rw [c.bucket_eq_ofFn hi]
  cases hidx : (ofFn (c.slot i)).idxOf? 0 with
  | none =>
    refine .inr ⟨fun s hs => ?_, rfl⟩
    exact idxOf?_eq_none_iff.mp hidx (mem_ofFn.mpr ⟨s, hs⟩)
  | some s =>
    obtain ⟨hlt, hzero, hfirst⟩ := findIdx?_eq_some_iff_getElem.mp hidx
    rw [length_ofFn] at hlt
    refine .inl ⟨⟨s, hlt⟩, ?_, fun t ht => ?_, rfl⟩
    · simpa using hzero
    · by_contra hbefore
      have hnot := hfirst t (Fin.not_le.mp hbefore)
      rw [List.getElem_ofFn] at hnot
      exact hnot (beq_iff_eq.mpr ht)

/-- What became of a filter and a print that was to be placed in it: together with the print
that found no place, the filter has what it had before and the new print. -/
structure Placed (hash : Hash) (c : CuckooFilter) (new : Print Nat Fingerprint)
    (result : CuckooFilter × Option (Print Nat Fingerprint)) : Prop where
  numBuckets_eq : result.1.numBuckets = c.numBuckets
  count_eq : result.2 = none → result.1.count = c.count + 1
  homeless_valid : ∀ q ∈ result.2, q.bucket < c.numBuckets ∧ q.fp ≠ 0
  copies_eq : ∀ p : Print Nat Fingerprint, p.bucket < c.numBuckets → p.fp ≠ 0 →
    copies (altIndex hash c.numBuckets) result.1.slot p +
        (if ∃ q ∈ result.2, SameHome (altIndex hash c.numBuckets) p q then 1 else 0) =
      copies (altIndex hash c.numBuckets) c.slot p + if SameHome (altIndex hash c.numBuckets) p new then 1 else 0

theorem Placed.lodged_iff {new : Print Nat Fingerprint} (hplaced : c.Placed hash new result)
    (hp : p.bucket < c.numBuckets) (hfp : p.fp ≠ 0) :
    (Lodged (altIndex hash c.numBuckets) result.1.slot p ∨
        ∃ q ∈ result.2, SameHome (altIndex hash c.numBuckets) p q) ↔
      (Lodged (altIndex hash c.numBuckets) c.slot p ∨ SameHome (altIndex hash c.numBuckets) p new) := by
  have hcopies := hplaced.copies_eq p hp hfp
  rw [← copies_pos_iff, ← copies_pos_iff]
  split_ifs at hcopies with hleft hnew hnew
  · exact iff_of_true (.inr hleft) (.inr hnew)
  · exact iff_of_true (.inr hleft) (.inl (by omega))
  · exact iff_of_true (.inl (by omega)) (.inr hnew)
  · simp only [hleft, hnew, or_false]
    omega

theorem placed_of_insert {filled : CuckooFilter} (hi : i < c.numBuckets)
    (hinsert : c.insertIntoBucket i fp = some filled) : c.Placed hash ⟨fp, i⟩ (filled, none) := by
  obtain ⟨s, hempty, _, hsome⟩ | ⟨_, hnone⟩ := c.insertIntoBucket_spec hi fp
  · cases hsome.symm.trans hinsert
    refine ⟨rfl, fun _ => rfl, fun q hq => (by cases hq), fun p _ hp => ?_⟩
    have hslot : ({ c.setSlot i s fp with count := c.count + 1 } : CuckooFilter).slot = putSlot c.slot i s fp :=
      c.slot_setSlot hi s fp
    rw [hslot, copies_fill (hempty ▸ hp)]
    simp
  · rw [hnone] at hinsert
    cases hinsert

theorem full_of_insert (hi : i < c.numBuckets) (hinsert : c.insertIntoBucket i fp = none) : c.Full i := by
  obtain ⟨s, _, _, hsome⟩ | ⟨hfull, _⟩ := c.insertIntoBucket_spec hi fp
  · rw [hsome] at hinsert
    cases hinsert
  · exact hfull

theorem evict_spec (c : CuckooFilter) (hi : i < c.numBuckets) (fp : Fingerprint) :
    (c.evict i fp).1.numBuckets = c.numBuckets ∧ (c.evict i fp).1.count = c.count ∧
      ∃ s, (c.evict i fp).2 = c.slot i s ∧ (c.evict i fp).1.slot = putSlot c.slot i s fp :=
  ⟨rfl, rfl, _, rfl, c.slot_setSlot hi _ fp⟩

/-- What is placed after an eviction is placed together with the evicting fingerprint. -/
theorem Placed.evict (hi : i < c.numBuckets) (hrest : (c.evict i fp).1.Placed hash
      ⟨(c.evict i fp).2, altIndex hash (c.evict i fp).1.numBuckets i (c.evict i fp).2⟩ result) :
    c.Placed hash ⟨fp, i⟩ result := by
  obtain ⟨hnum, hcount, s, hevicted, hslot⟩ := c.evict_spec hi fp
  obtain ⟨hrestNum, hrestCount, hrestValid, hrestCopies⟩ := hrest
  rw [hnum] at hrestNum hrestValid hrestCopies
  refine ⟨hrestNum, fun h => hcount ▸ hrestCount h, hrestValid, fun p hp hfp => ?_⟩
  rw [hrestCopies p hp hfp, hslot, hevicted]
  exact copies_kick (isPairing_altIndex hash c.pow_numBuckets) hp hi

/-- The loop of evictions places the print, or ends with another one in hand. -/
theorem kick_placed (hash : Hash) (n : Nat) (c : CuckooFilter) (hi : i < c.numBuckets) (hfp : fp ≠ 0)
    (hfull : c.Full i) : c.Placed hash ⟨fp, i⟩ (c.kick hash n fp i) := by
  induction n generalizing c fp i with
  | zero =>
    refine ⟨rfl, fun h => (by cases h), ?_, fun p _ _ => ?_⟩
    · intro q hq
      cases hq
      exact ⟨hi, hfp⟩
    · simp [kick]
  | succ n ih =>
    apply Placed.evict hi
    obtain ⟨hnum, _, s, hevicted, _⟩ := c.evict_spec hi fp
    unfold kick
    dsimp only
    have halt := (isPairing_altIndex hash (c.evict i fp).1.pow_numBuckets).alt_valid (c.evict i fp).2 (hnum ▸ hi)
    generalize c.evict i fp = e at *
    cases hinsert : e.1.insertIntoBucket (altIndex hash e.1.numBuckets i e.2) e.2 with
    | some filled => exact placed_of_insert halt hinsert
    | none => exact ih e.1 halt (hevicted ▸ hfull s) (full_of_insert halt hinsert)

theorem Placed.of_partner (hp : p.bucket < c.numBuckets)
    (hplaced : c.Placed hash (p.partner (altIndex hash c.numBuckets)) result) : c.Placed hash p result := by
  refine ⟨hplaced.numBuckets_eq, hplaced.count_eq, hplaced.homeless_valid, fun q hq hfp => ?_⟩
  have hpartner := sameHome_partner_iff (isPairing_altIndex hash c.pow_numBuckets) hq hp
  rw [hplaced.copies_eq q hq hfp]
  simp only [hpartner]

/-- A key that is found already changes nothing, and any other key is placed. -/
theorem add_spec (hash : Hash) (c : CuckooFilter) (key : Bytes) :
    (c.maybeContains hash key = true ∧ c.add hash key = (c, none)) ∨ (c.maybeContains hash key = false ∧
        c.Placed hash (fingerprintAndIndex hash c.numBuckets key) (c.add hash key)) := by
  have hvalid := fingerprintAndIndex_valid hash c.pow_numBuckets key
  have hfp := fingerprintAndIndex_ne_zero hash c.numBuckets key
  unfold add maybeContains
  generalize fingerprintAndIndex hash c.numBuckets key = p at hvalid hfp
  have halt := (isPairing_altIndex hash c.pow_numBuckets).alt_valid p.fp hvalid
  dsimp only
  cases hfinds : c.finds hash p with
  | true => exact .inl ⟨rfl, if_pos rfl⟩
  | false =>
    refine .inr ⟨rfl, ?_⟩
    rw [if_neg Bool.false_ne_true]
    cases hfirst : c.insertIntoBucket p.bucket p.fp with
    | some filled => exact placed_of_insert hvalid hfirst
    | none =>
      dsimp only
      cases hsecond : c.insertIntoBucket (altIndex hash c.numBuckets p.bucket p.fp) p.fp with
      | some filled => exact Placed.of_partner hvalid (placed_of_insert halt hsecond)
      | none =>
        dsimp only
        split
        · exact Placed.of_partner hvalid (kick_placed hash _ c halt hfp (full_of_insert halt hsecond))
        · exact kick_placed hash _ c hvalid hfp (full_of_insert hvalid hfirst)

theorem slot_newCuckooFilter (capacity i : Nat) (s : Fin cuckooBucketSize) :
    (newCuckooFilter capacity).slot i s = 0 := by
  simp only [slot, newCuckooFilter, getD_eq_getElem?_getD, getElem?_replicate]
  split <;> rfl

theorem not_lodged_newCuckooFilter {capacity : Nat} {alt : Nat → Fingerprint → Nat} (hp : p.fp ≠ 0) :
    ¬ Lodged alt (newCuckooFilter capacity).slot p := by
  rintro ⟨s, hs | hs⟩
  · exact hp (hs.symm.trans (slot_newCuckooFilter _ _ _))
  · exact hp (hs.symm.trans (slot_newCuckooFilter _ _ _))

theorem maybeContains_newCuckooFilter (hash : Hash) (capacity : Nat) (key : Bytes) :
    (newCuckooFilter capacity).maybeContains hash key = false := by
  apply Bool.eq_false_iff.mpr
  intro hfound
  rw [maybeContains, finds_iff hash _ (fingerprintAndIndex_valid hash (newCuckooFilter capacity).pow_numBuckets key)]
    at hfound
  exact not_lodged_newCuckooFilter (fingerprintAndIndex_ne_zero _ _ _) hfound

/-- A key whose first bucket has an empty slot goes to the first such slot. -/
theorem add_of_empty_slot {key : Bytes} {t : Fin cuckooBucketSize} (hnotFound : c.maybeContains hash key = false)
    (hempty : c.slot (fingerprintAndIndex hash c.numBuckets key).bucket t = 0) : ∃ s ≤ t, c.add hash key =
      ({ c.setSlot (fingerprintAndIndex hash c.numBuckets key).bucket s (fingerprintAndIndex hash c.numBuckets key).fp
          with count := c.count + 1 }, none) := by
  have hvalid := fingerprintAndIndex_valid hash c.pow_numBuckets key
  unfold add
  unfold maybeContains at hnotFound
  generalize fingerprintAndIndex hash c.numBuckets key = p at hnotFound hvalid hempty
  dsimp only
  rw [hnotFound, if_neg Bool.false_ne_true]
  obtain ⟨s, _, hfirst, hinsert⟩ | ⟨hfull, _⟩ := c.insertIntoBucket_spec hvalid p.fp
  · refine ⟨s, hfirst t hempty, ?_⟩
    rw [hinsert]
  · exact absurd hempty (hfull t)

/-- An empty filter has room for any key. -/
theorem add_newCuckooFilter (hash : Hash) (capacity : Nat) (key : Bytes) :
    ((newCuckooFilter capacity).add hash key).2 = none := by
  obtain ⟨s, _, hadd⟩ := add_of_empty_slot (maybeContains_newCuckooFilter hash capacity key)
    (slot_newCuckooFilter capacity _ ⟨0, by decide⟩)
  rw [hadd]

end CuckooFilter

end swytch.effects
