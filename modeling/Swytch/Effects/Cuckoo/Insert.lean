import Swytch.Effects.Cuckoo.Filter

open swytch.lib swytch.proto

namespace swytch.effects.CuckooFilter

/-- The number of slots that hold a fingerprint. -/
def live (c : CuckooFilter) : Nat :=
  c.buckets.countP (· ≠ emptySlot)

/-- Every stored fingerprint is that of one of the keys, in one of the two buckets of that key,
and all of them are counted. That the number of buckets is a power of two is part of the
filter. -/
structure WellFormed (hash : Hash) (keys : List Bytes) (c : CuckooFilter) : Prop where
  stored : ∀ i < c.numBuckets, ∀ s, c.slot i s ≠ emptySlot → ∃ key ∈ keys,
    SameHome (altIndex hash c.numBuckets) (fingerprintAndIndex hash c.numBuckets key) ⟨c.slot i s, i⟩
  count_eq : c.count = c.live

variable {i : Nat} {fp : Fingerprint} {c : CuckooFilter}

theorem live_setSlot (c : CuckooFilter) (hi : i < c.numBuckets) (s : Fin cuckooBucketSize) (hfp : fp ≠ emptySlot) :
    (c.setSlot i s fp).live = if c.slot i s = emptySlot then c.live + 1 else c.live := by
  have hslot := c.slot_lt hi s
  have hget : c.buckets[i * cuckooBucketSize + s.val] = c.slot i s := by
    rw [slot, List.getD_eq_getElem _ _ hslot]
  rw [live, live, setSlot, List.countP_set hslot, hget]
  by_cases hempty : c.slot i s = emptySlot
  · simp [hempty, hfp]
  · have hpos : 0 < c.buckets.countP (· ≠ emptySlot) :=
      List.countP_pos_iff.mpr ⟨c.slot i s, hget ▸ List.getElem_mem hslot, by simpa using hempty⟩
    simp only [hempty, hfp, ne_eq, not_false_eq_true, decide_true, if_true, if_false]
    exact Nat.sub_add_cancel hpos

/-- A fingerprint put in an empty slot is counted. -/
theorem count_eq_of_insert {filled : CuckooFilter} (hi : i < c.numBuckets) (hfp : fp ≠ emptySlot)
    (hcount : c.count = c.live) (hinsert : c.insertIntoBucket i fp = some filled) : filled.count = filled.live := by
  obtain ⟨s, hempty, _, hsome⟩ | ⟨_, hnone⟩ := c.insertIntoBucket_spec hi fp
  · cases hsome.symm.trans hinsert
    have hlive : ({ c.setSlot i s fp with count := c.count + 1 } : CuckooFilter).live = (c.setSlot i s fp).live := rfl
    rw [hlive, c.live_setSlot hi s hfp, if_pos hempty, hcount]
  · rw [hnone] at hinsert
    cases hinsert

/-- Along the evictions the number of stored fingerprints stays the same until the one in
hand finds an empty slot. -/
theorem count_eq_of_kick (hash : Hash) (n : Nat) (hi : i < c.numBuckets) (hfp : fp ≠ emptySlot) (hfull : c.Full i)
    (hcount : c.count = c.live) : (c.kick hash n fp i).1.count = (c.kick hash n fp i).1.live := by
  induction n generalizing c fp i with
  | zero => exact hcount
  | succ n ih =>
    obtain ⟨hnum, _, s, hevicted, _⟩ := c.evict_spec hi fp
    have hkept : (c.evict i fp).1.count = (c.evict i fp).1.live := by
      have hlive := c.live_setSlot hi ⟨(c.kickSeed + 1) % 2 ^ 64 % cuckooBucketSize, Nat.mod_lt _ (by decide)⟩ hfp
      rw [if_neg (hfull _)] at hlive
      exact hcount.trans hlive.symm
    have halt := (isPairing_altIndex hash (c.evict i fp).1.pow_numBuckets).alt_valid (c.evict i fp).2 (hnum ▸ hi)
    have hnonempty : (c.evict i fp).2 ≠ emptySlot := hevicted ▸ hfull s
    unfold CuckooFilter.kick
    dsimp only
    generalize c.evict i fp = e at *
    cases hinsert : e.1.insertIntoBucket (altIndex hash e.1.numBuckets i e.2) e.2 with
    | some filled => exact count_eq_of_insert halt hnonempty hkept hinsert
    | none => exact ih halt hnonempty (full_of_insert halt hinsert) hkept

/-- The count of a filter stays exact whether or not a key finds a place. -/
theorem count_eq_of_add (hash : Hash) (hcount : c.count = c.live) (key : Bytes) :
    (c.add hash key).1.count = (c.add hash key).1.live := by
  have hvalid := fingerprintAndIndex_valid hash c.pow_numBuckets key
  have hfp := fingerprintAndIndex_ne_zero hash c.numBuckets key
  unfold CuckooFilter.add
  generalize fingerprintAndIndex hash c.numBuckets key = p at hvalid hfp
  have halt := (isPairing_altIndex hash c.pow_numBuckets).alt_valid p.fp hvalid
  dsimp only
  cases hfinds : c.finds hash p with
  | true => exact hcount
  | false =>
    rw [if_neg Bool.false_ne_true]
    cases hfirst : c.insertIntoBucket p.bucket p.fp with
    | some filled => exact count_eq_of_insert hvalid hfp hcount hfirst
    | none =>
      dsimp only
      cases hsecond : c.insertIntoBucket (altIndex hash c.numBuckets p.bucket p.fp) p.fp with
      | some filled => exact count_eq_of_insert halt hfp hcount hsecond
      | none =>
        dsimp only
        split
        · exact count_eq_of_kick hash _ halt hfp (full_of_insert halt hsecond) hcount
        · exact count_eq_of_kick hash _ hvalid hfp (full_of_insert hvalid hfirst) hcount

/-- Whether or not the key finds a place, what is stored then is the fingerprint of that key or
was stored before. -/
theorem stored_of_add {hash : Hash} {keys : List Bytes} (hwf : c.WellFormed hash keys) (key : Bytes) :
    ∀ i < (c.add hash key).1.numBuckets, ∀ s, (c.add hash key).1.slot i s ≠ emptySlot → ∃ key' ∈ key :: keys,
      SameHome (altIndex hash (c.add hash key).1.numBuckets)
        (fingerprintAndIndex hash (c.add hash key).1.numBuckets key') ⟨(c.add hash key).1.slot i s, i⟩ := by
  intro i hi s hfull
  obtain ⟨_, heq⟩ | ⟨_, hplaced⟩ := c.add_spec hash key
  · rw [heq] at hi hfull ⊢
    obtain ⟨key', hmem, hsame⟩ := hwf.stored i hi s hfull
    exact ⟨key', List.mem_cons_of_mem _ hmem, hsame⟩
  · have halt := isPairing_altIndex hash c.pow_numBuckets
    have hprint (key' : Bytes) := fingerprintAndIndex_valid hash c.pow_numBuckets key'
    rw [hplaced.numBuckets_eq] at hi ⊢
    generalize hslot : (c.add hash key).1.slot i s = fp at hfull
    have hnow : Lodged (altIndex hash c.numBuckets) (c.add hash key).1.slot ⟨fp, i⟩ := ⟨s, .inl hslot⟩
    obtain hbefore | hnew := (hplaced.lodged_iff hi hfull).mp (.inl hnow)
    · obtain ⟨j, t, hsame⟩ := lodged_iff.mp hbefore
      have hfp : fp = c.slot j t := hsame.1
      have hj : j < c.numBuckets := by
        obtain rfl | rfl : i = j ∨ altIndex hash c.numBuckets i fp = j := hsame.2
        · exact hi
        · exact halt.alt_valid fp hi
      obtain ⟨key', hmem, hstored⟩ := hwf.stored j hj t (hfp ▸ hfull)
      exact ⟨key', List.mem_cons_of_mem _ hmem, hstored.trans halt (hprint key') (hsame.symm halt hi)⟩
    · exact ⟨key, List.mem_cons_self, hnew.symm halt hi⟩

/-- After a successful insertion the filter finds the new key and whatever it found before. -/
theorem maybeContains_of_add {hash : Hash} {key : Bytes} (hadd : (c.add hash key).2 = none) {other : Bytes}
    (hother : other = key ∨ c.maybeContains hash other = true) :
    (c.add hash key).1.maybeContains hash other = true := by
  obtain ⟨hfound, heq⟩ | ⟨_, hplaced⟩ := c.add_spec hash key
  · rw [heq]
    obtain rfl | hother := hother
    · exact hfound
    · exact hother
  · have hvalid := fingerprintAndIndex_valid hash c.pow_numBuckets other
    have hlodged := hplaced.lodged_iff hvalid (fingerprintAndIndex_ne_zero hash c.numBuckets other)
    rw [hadd] at hlodged
    have hnow : Lodged (altIndex hash c.numBuckets) (c.add hash key).1.slot
        (fingerprintAndIndex hash c.numBuckets other) := by
      refine (hlodged.mpr ?_).resolve_right (by simp)
      obtain rfl | hother := hother
      · exact .inr (SameHome.refl _)
      · exact .inl ((c.finds_iff hash hvalid).mp hother)
    have hnum := hplaced.numBuckets_eq
    unfold maybeContains
    rw [hnum, finds_iff hash _ (hnum ▸ hvalid), hnum]
    exact hnow

/-- The two buckets of a fingerprint are partners of each other, and a successful insertion
into a well-formed filter keeps it well formed and forgets nothing. -/
theorem add_forgets_nothing {hash : Hash} {keys : List Bytes} {c : CuckooFilter} (hwf : c.WellFormed hash keys)
    (key : Bytes) :
    (∀ (fp : Fingerprint), ∀ i < c.numBuckets, altIndex hash c.numBuckets i fp < c.numBuckets ∧
      altIndex hash c.numBuckets (altIndex hash c.numBuckets i fp) fp = i) ∧ ((c.add hash key).2 = none →
      (c.add hash key).1.WellFormed hash (key :: keys) ∧ (c.add hash key).1.maybeContains hash key = true ∧
      (∀ other, c.maybeContains hash other = true → (c.add hash key).1.maybeContains hash other = true) ∧
      (c.add hash key).1.count = (c.add hash key).1.live) := by
  have hpairing := isPairing_altIndex hash c.pow_numBuckets
  have hcount := count_eq_of_add hash hwf.count_eq key
  refine ⟨fun fp i hi => ⟨hpairing.alt_valid fp hi, hpairing.alt_alt fp hi⟩, fun hadd => ?_⟩
  exact ⟨⟨stored_of_add hwf key, hcount⟩, maybeContains_of_add hadd (.inl rfl),
    fun other hother => maybeContains_of_add hadd (.inr hother), hcount⟩

/-- Keys of the first bucket. The fingerprint of the last one has no other bucket, those of the
rest have the second one. -/
def packedHash : Hash
  | [key] => hashValue key.val
  | [low, _] => hashValue (if low.val = 5 then 0 else 1)
  | _ => hashValue 0

/-- Four buckets, of which four keys fill the first one. -/
def packed : CuckooFilter :=
  [[1], [2], [3], [4]].foldl (fun c key => (c.add packedHash key).1) (newCuckooFilter 8)

/-- A fifth key evicts the second one to its other bucket, and all five are found. -/
theorem add_forgets_nothing_after_kick : (packed.bucket 0 = [1, 2, 3, 4] ∧
      (packed.add packedHash [5]).1.bucket 0 = [1, 5, 3, 4] ∧ (packed.add packedHash [5]).1.bucket 1 = [2, 0, 0, 0]) ∧
    (packed.add packedHash [5]).1.WellFormed packedHash [[5], [1], [2], [3], [4]] ∧
      (∀ key ∈ [[1], [2], [3], [4], [5]], (packed.add packedHash [5]).1.maybeContains packedHash key = true) ∧
      (packed.add packedHash [5]).1.count = 5 := by
  have hwf : packed.WellFormed packedHash [[1], [2], [3], [4]] := ⟨by decide +kernel, by decide +kernel⟩
  obtain ⟨hwell, hkey, hothers, hcount⟩ := (add_forgets_nothing hwf [5]).2 (by decide +kernel)
  have hlive : (packed.add packedHash [5]).1.live = 5 := by decide +kernel
  have hbefore : ∀ key ∈ [[1], [2], [3], [4]], packed.maybeContains packedHash key = true := by decide +kernel
  refine ⟨by decide +kernel, hwell, fun key hmem => ?_, hcount.trans hlive⟩
  obtain hmem | rfl : key ∈ [[1], [2], [3], [4]] ∨ key = [5] := by
    simpa only [List.mem_cons, List.not_mem_nil, or_false, or_assoc] using hmem
  · exact hothers key (hbefore key hmem)
  · exact hkey

end swytch.effects.CuckooFilter
