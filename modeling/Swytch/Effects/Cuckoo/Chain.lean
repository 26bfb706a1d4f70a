import Swytch.Effects.Cuckoo.Filter

open swytch.lib swytch.proto List

namespace swytch.effects

open CuckooFilter

/-- The number of buckets of every segment a chain creates. -/
def chunkBuckets : Nat := (newCuckooFilter cuckooChainChunk).numBuckets

theorem isPowerOfTwo_chunkBuckets : chunkBuckets.isPowerOfTwo := (newCuckooFilter cuckooChainChunk).pow_numBuckets

/-- Two prints that no segment of a chain can tell apart. -/
def SamePrint (hash : Hash) (p q : Print Nat Fingerprint) : Prop :=
  SameHome (altIndex hash chunkBuckets) p q

def chunkPrint (hash : Hash) (key : Bytes) : Print Nat Fingerprint := fingerprintAndIndex hash chunkBuckets key

/-- The prints of keys, and what evictions make of them. -/
structure Genuine (p : Print Nat Fingerprint) : Prop where
  valid : p.bucket < chunkBuckets
  ne_zero : p.fp ≠ 0

theorem genuine_chunkPrint (hash : Hash) (key : Bytes) : Genuine (chunkPrint hash key) :=
  ⟨fingerprintAndIndex_valid hash isPowerOfTwo_chunkBuckets key, fingerprintAndIndex_ne_zero hash chunkBuckets key⟩

variable {hash : Hash} {cc : CuckooChain} {p left : Print Nat Fingerprint} {key : Bytes}

namespace CuckooChain

def finds (hash : Hash) (cc : CuckooChain) (p : Print Nat Fingerprint) : Bool :=
  cc.segments.any (fun f => f.finds hash p)

/-- All segments were created by the chain. -/
def Uniform (cc : CuckooChain) : Prop := ∀ f ∈ cc.segments, f.numBuckets = chunkBuckets

theorem maybeContains_eq_any (hash : Hash) (cc : CuckooChain) (key : Bytes) :
    cc.maybeContains hash key = cc.segments.any (fun f => f.maybeContains hash key) := by
  rw [maybeContains, segments, any_append, Bool.or_comm]
  cases cc.active with
  | none => rfl
  | some active => rw [Option.toList_some, any_cons, any_nil, Bool.or_false, Option.any_some]

theorem maybeContains_eq_finds (huniform : cc.Uniform) (key : Bytes) :
    cc.maybeContains hash key = cc.finds hash (chunkPrint hash key) := by
  rw [maybeContains_eq_any, finds, Bool.eq_iff_iff, any_eq_true, any_eq_true]
  refine exists_congr fun f => and_congr_right fun hf => ?_
  rw [CuckooFilter.maybeContains, huniform f hf]
  rfl

theorem finds_iff (huniform : cc.Uniform) (hp : Genuine p) :
    cc.finds hash p = true ↔ ∃ f ∈ cc.segments, Lodged (altIndex hash chunkBuckets) f.slot p := by
  rw [finds, any_eq_true]
  constructor
  · rintro ⟨f, hf, hfinds⟩
    rw [f.finds_iff hash ((huniform f hf).symm ▸ hp.valid), huniform f hf] at hfinds
    exact ⟨f, hf, hfinds⟩
  · rintro ⟨f, hf, hlodged⟩
    refine ⟨f, hf, ?_⟩
    rw [f.finds_iff hash ((huniform f hf).symm ▸ hp.valid), huniform f hf]
    exact hlodged

theorem finds_of_samePrint {q : Print Nat Fingerprint} (huniform : cc.Uniform) (hp : Genuine p) (hq : Genuine q)
    (hsame : SamePrint hash p q) (hfinds : cc.finds hash q = true) : cc.finds hash p = true := by
  obtain ⟨f, hf, hlodged⟩ := (finds_iff huniform hq).mp hfinds
  refine (finds_iff huniform hp).mpr ⟨f, hf, ?_⟩
  exact lodged_of_sameHome (isPairing_altIndex hash isPowerOfTwo_chunkBuckets) hp.valid hsame hlodged

/-- Either a new segment comes after all the others, or the active one is still in use. -/
theorem rotate_spec (cc : CuckooChain) :
    cc.rotate = (cc.segments, newCuckooFilter cuckooChainChunk) ∨
      ∃ active, cc.active = some active ∧ active.count < cuckooChainChunk ∧ cc.rotate = (cc.sealed, active) := by
  unfold rotate segments
  cases cc.active with
  | none => exact .inl (by rw [Option.toList_none, append_nil])
  | some active =>
    dsimp only
    split
    · exact .inl rfl
    · rename_i hroom
      exact .inr ⟨active, rfl, Nat.lt_of_not_le hroom, rfl⟩

/-- An addition finds the key in the active segment, stores it there, or leaves that segment
without one of its prints and stores the key in a new one. -/
theorem add_cases (hash : Hash) (cc : CuckooChain) (key : Bytes) :
    (∃ active, cc.active = some active ∧ active.maybeContains hash key = true ∧
        cc.add hash key = { chain := cc, stored := false, homeless := none }) ∨
      (∃ active', cc.rotate.2.Placed hash (fingerprintAndIndex hash cc.rotate.2.numBuckets key) (active', none) ∧
        cc.add hash key =
          { chain := { sealed := cc.rotate.1, active := some active' }, stored := true, homeless := none }) ∨
      ∃ active' left,
        cc.rotate.2.Placed hash (fingerprintAndIndex hash cc.rotate.2.numBuckets key) (active', some left) ∧
        cc.add hash key =
          { chain :=
              { sealed := cc.rotate.1 ++ [active']
                active := some ((newCuckooFilter cuckooChainChunk).add hash key).1 }
            stored := true
            homeless := some left } := by
  obtain ⟨hfound, hadd⟩ | ⟨_, hplaced⟩ := cc.rotate.2.add_spec hash key
  · refine .inl ?_
    obtain hnew | ⟨active, hactive, _, hkeep⟩ := cc.rotate_spec
    · rw [hnew, maybeContains_newCuckooFilter] at hfound
      cases hfound
    · rw [hkeep] at hfound hadd
      refine ⟨active, hactive, hfound, ?_⟩
      simp only [add, hkeep, hadd, bne_self_eq_false, ← hactive]
  · refine .inr ?_
    cases hadd : cc.rotate.2.add hash key with
    | mk active' homeless =>
      rw [hadd] at hplaced
      cases homeless with
      | none =>
        refine .inl ⟨active', hplaced, ?_⟩
        have hcount : active'.count = cc.rotate.2.count + 1 := hplaced.count_eq rfl
        have hstored : (active'.count != cc.rotate.2.count) = true := bne_iff_ne.mpr (by omega)
        simp only [add, hadd, hstored]
      | some left =>
        refine .inr ⟨active', left, hplaced, ?_⟩
        simp only [add, hadd]

theorem segments_mk (sealed : List CuckooFilter) (active : CuckooFilter) :
    segments { sealed, active := some active } = sealed ++ [active] := rfl

/-- The segments that are looked up are the old ones, and perhaps an empty one. -/
theorem rotate_segments (cc : CuckooChain) :
    cc.rotate.1 ++ [cc.rotate.2] = cc.segments ∨
      cc.rotate.1 ++ [cc.rotate.2] = cc.segments ++ [newCuckooFilter cuckooChainChunk] := by
  obtain hnew | ⟨active, hactive, _, hkeep⟩ := cc.rotate_spec
  · rw [hnew]
    exact .inr rfl
  · rw [hkeep, segments, hactive]
    exact .inl rfl

theorem Uniform.rotate (huniform : cc.Uniform) :
    ∀ f ∈ cc.rotate.1 ++ [cc.rotate.2], f.numBuckets = chunkBuckets := by
  obtain heq | heq := cc.rotate_segments
  · rw [heq]
    exact huniform
  · rw [heq]
    intro f hf
    obtain hf | hf := mem_append.mp hf
    · exact huniform f hf
    · rw [mem_singleton.mp hf]
      rfl

theorem lodged_rotate (huniform : cc.Uniform) (hp : Genuine p) :
    (∃ f ∈ cc.rotate.1 ++ [cc.rotate.2], Lodged (altIndex hash chunkBuckets) f.slot p) ↔
      cc.finds hash p = true := by
  rw [finds_iff huniform hp]
  obtain heq | heq := cc.rotate_segments
  · rw [heq]
  · rw [heq]
    simp only [mem_append, mem_singleton, or_and_right, exists_or, exists_eq_left,
      not_lodged_newCuckooFilter hp.ne_zero, or_false]

theorem numBuckets_rotate (huniform : cc.Uniform) : cc.rotate.2.numBuckets = chunkBuckets :=
  huniform.rotate _ (mem_append_right _ (mem_singleton_self _))

theorem placed_fresh (hash : Hash) (key : Bytes) :
    (newCuckooFilter cuckooChainChunk).Placed hash (chunkPrint hash key)
      ((newCuckooFilter cuckooChainChunk).add hash key) := by
  obtain ⟨hfound, _⟩ | ⟨_, hplaced⟩ := (newCuckooFilter cuckooChainChunk).add_spec hash key
  · rw [maybeContains_newCuckooFilter] at hfound
    cases hfound
  · exact hplaced

/-- The new segment after an overflow has the added key alone. -/
theorem lodged_fresh (hp : Genuine p) (key : Bytes) :
    Lodged (altIndex hash chunkBuckets) ((newCuckooFilter cuckooChainChunk).add hash key).1.slot p ↔
      SamePrint hash p (chunkPrint hash key) := by
  have hiff := (placed_fresh hash key).lodged_iff hp.valid hp.ne_zero
  simp only [add_newCuckooFilter, not_lodged_newCuckooFilter hp.ne_zero, Option.mem_def,
    reduceCtorEq, false_and, exists_false, or_false, false_or] at hiff
  exact hiff

/-- A print placed in the segment in use, in the terms of the chain. -/
theorem lodged_iff_of_placed {active' : CuckooFilter} {homeless : Option (Print Nat Fingerprint)}
    (huniform : cc.Uniform) (hp : Genuine p)
    (hplaced : cc.rotate.2.Placed hash (fingerprintAndIndex hash cc.rotate.2.numBuckets key) (active', homeless)) :
    (Lodged (altIndex hash chunkBuckets) active'.slot p ∨ ∃ q ∈ homeless, SamePrint hash p q) ↔
      (Lodged (altIndex hash chunkBuckets) cc.rotate.2.slot p ∨ SamePrint hash p (chunkPrint hash key)) := by
  have hnum := numBuckets_rotate huniform
  have hiff := hplaced.lodged_iff (hnum.symm ▸ hp.valid) hp.ne_zero
  rw [hnum] at hiff
  exact hiff

theorem Uniform.concat {sealed : List CuckooFilter} {active : CuckooFilter}
    (hsealed : ∀ f ∈ sealed, f.numBuckets = chunkBuckets) (hactive : active.numBuckets = chunkBuckets) :
    Uniform { sealed, active := some active } := by
  intro f hf
  obtain hf | hf := mem_append.mp hf
  · exact hsealed f hf
  · rw [mem_singleton.mp hf, hactive]

theorem Uniform.add (huniform : cc.Uniform) (hash : Hash) (key : Bytes) : (cc.add hash key).chain.Uniform := by
  have hnum := numBuckets_rotate huniform
  have hsealed : ∀ f ∈ cc.rotate.1, f.numBuckets = chunkBuckets := by
    intro f hf
    exact huniform.rotate f (mem_append_left _ hf)
  obtain ⟨active, _, _, hadd⟩ | ⟨active', hplaced, hadd⟩ | ⟨active', left, hplaced, hadd⟩ := add_cases hash cc key
  · rw [hadd]
    exact huniform
  · rw [hadd]
    exact Uniform.concat hsealed (hplaced.numBuckets_eq.trans hnum)
  · have hsealed' : ∀ f ∈ cc.rotate.1 ++ [active'], f.numBuckets = chunkBuckets :=
      Uniform.concat hsealed (hplaced.numBuckets_eq.trans hnum)
    rw [hadd]
    exact Uniform.concat hsealed' (placed_fresh hash key).numBuckets_eq

/-- Together with the print that found no place, a chain finds what it found before and the
added key. -/
theorem add_finds_iff (huniform : cc.Uniform) (hp : Genuine p) (key : Bytes) :
    ((cc.add hash key).chain.finds hash p = true ∨ ∃ q ∈ (cc.add hash key).homeless, SamePrint hash p q) ↔
      (cc.finds hash p = true ∨ SamePrint hash p (chunkPrint hash key)) := by
  have huniform' := huniform.add hash key
  obtain ⟨active, hactive, hfound, hadd⟩ | ⟨active', hplaced, hadd⟩ | ⟨active', left, hplaced, hadd⟩ :=
    add_cases hash cc key
  · have hkey : cc.finds hash (chunkPrint hash key) = true := by
      rw [← maybeContains_eq_finds huniform, maybeContains, hactive, Option.any_some, hfound, Bool.true_or]
    rw [hadd]
    simp only [Option.mem_def, reduceCtorEq, false_and, exists_false, or_false]
    refine ⟨.inl, fun h => h.elim id fun hsame => ?_⟩
    exact finds_of_samePrint huniform hp (genuine_chunkPrint hash key) hsame hkey
  · have hiff := lodged_iff_of_placed huniform hp hplaced
    rw [finds_iff huniform' hp, ← lodged_rotate huniform hp, hadd, segments_mk]
    simp only [mem_append, mem_singleton, or_and_right, exists_or, exists_eq_left, or_assoc, hiff]
  · have hiff := lodged_iff_of_placed huniform hp hplaced
    rw [finds_iff huniform' hp, ← lodged_rotate huniform hp, hadd, segments_mk]
    simp only [mem_append, mem_singleton, or_and_right, exists_or, exists_eq_left, lodged_fresh hp key]
    -- the key is found in the new segment whether or not it is the print without a place
    rw [or_right_comm, or_assoc (a := ∃ f ∈ cc.rotate.1, _), hiff]
    simp only [or_assoc, or_self]

theorem homeless_genuine (huniform : cc.Uniform) (hleft : (cc.add hash key).homeless = some left) :
    Genuine left := by
  obtain ⟨active, _, _, hadd⟩ | ⟨active', _, hadd⟩ | ⟨active', left', hplaced, hadd⟩ := add_cases hash cc key
  · rw [hadd] at hleft
    cases hleft
  · rw [hadd] at hleft
    cases hleft
  · rw [hadd] at hleft
    obtain rfl := Option.some.inj hleft
    obtain ⟨hvalid, hzero⟩ := hplaced.homeless_valid left' rfl
    exact ⟨numBuckets_rotate huniform ▸ hvalid, hzero⟩

/-- The print without a place is that of the added key, or one that the chain had. -/
theorem homeless_found (huniform : cc.Uniform) (hleft : (cc.add hash key).homeless = some left) :
    cc.finds hash left = true ∨ SamePrint hash left (chunkPrint hash key) :=
  (add_finds_iff huniform (homeless_genuine huniform hleft) key).mp (.inr ⟨left, hleft, SameHome.refl left⟩)

/-- The chain after the additions, from an empty one. -/
def addAll (hash : Hash) (keys : List Bytes) : CuckooChain :=
  keys.foldl (fun cc key => (cc.add hash key).chain) { sealed := [], active := none }

theorem addAll_append (hash : Hash) (keys : List Bytes) (key : Bytes) :
    addAll hash (keys ++ [key]) = ((addAll hash keys).add hash key).chain := by
  rw [addAll, foldl_append]
  rfl

theorem uniform_addAll (hash : Hash) (keys : List Bytes) : (addAll hash keys).Uniform := by
  induction keys using reverseRecOn with
  | nil => exact fun f hf => (by cases hf)
  | append_singleton keys key ih =>
    rw [addAll_append]
    exact ih.add hash key

/-- A chain finds nothing but what looks like one of the added keys. -/
theorem owned_addAll {keys : List Bytes} (hp : Genuine p) (hfinds : (addAll hash keys).finds hash p = true) :
    ∃ key ∈ keys, SamePrint hash p (chunkPrint hash key) := by
  induction keys using reverseRecOn with
  | nil => cases hfinds
  | append_singleton keys key ih =>
    rw [addAll_append] at hfinds
    obtain hold | hnew := (add_finds_iff (uniform_addAll hash keys) hp key).mp (.inl hfinds)
    · obtain ⟨key', hmem, hsame⟩ := ih hold
      exact ⟨key', mem_append_left _ hmem, hsame⟩
    · exact ⟨key, mem_append_right _ (mem_singleton_self _), hnew⟩

end CuckooChain

end swytch.effects
