import Swytch.Effects.Cuckoo.Complete

open swytch.lib swytch.proto List Nat
open Option hiding or_self

namespace swytch.effects.CuckooChain

open CuckooFilter

/-- The number of fingerprints a chain has stored, if none of its segments overflowed. -/
def total (cc : CuckooChain) : Nat :=
  cc.sealed.length * cuckooChainChunk + (cc.active.map (·.count)).getD 0

/-- A chain that rotated in time. -/
structure Regular (cc : CuckooChain) : Prop where
  uniform : cc.Uniform
  count_le : ∀ active, cc.active = some active → active.count ≤ cuckooChainChunk

/-- A chain and a later state of it. -/
structure Grows (hash : Hash) (cc cc' : CuckooChain) : Prop where
  total_le : cc.total ≤ cc'.total
  finds_mono : ∀ p, Genuine p → cc.finds hash p = true → cc'.finds hash p = true
  eq_of_total_eq : cc.total = cc'.total → cc = cc'

theorem Grows.refl (hash : Hash) (cc : CuckooChain) : Grows hash cc cc :=
  ⟨le_refl _, fun _ _ => id, fun _ => rfl⟩

variable {cc : CuckooChain} {j : Nat} {hash : Hash} {key : Bytes}

theorem Grows.trans {cc' cc'' : CuckooChain} (hfirst : Grows hash cc cc')
    (hnext : Grows hash cc' cc'') : Grows hash cc cc'' := by
  have hle := hfirst.total_le
  have hle' := hnext.total_le
  refine ⟨hle.trans hle', fun p hp h => hnext.finds_mono p hp (hfirst.finds_mono p hp h), fun heq => ?_⟩
  rw [hfirst.eq_of_total_eq (by omega), hnext.eq_of_total_eq (by omega)]

theorem regular_empty : Regular { sealed := [], active := none } :=
  ⟨fun f hf => (by cases hf), fun active hactive => (by cases hactive)⟩

theorem Regular.total_lt (hregular : cc.Regular) (hcount : cc.segments.length < 2 ^ 32) : cc.total < 2 ^ 64 := by
  have hle : cc.total ≤ cc.segments.length * cuckooChainChunk := by
    unfold total segments
    cases hactive : cc.active with
    | none => simp
    | some active =>
      have hactiveLe := hregular.count_le active hactive
      rw [toList_some, length_append, length_singleton, map_some, getD_some, add_mul]
      omega
  simp only [cuckooChainChunk] at hle
  omega

theorem total_mk (sealed : List CuckooFilter) (active : CuckooFilter) :
    total { sealed, active := some active } = sealed.length * cuckooChainChunk + active.count := rfl

theorem count_newCuckooFilter (capacity : Nat) : (newCuckooFilter capacity).count = 0 := rfl

/-- The segment in use after a rotation, and what the chain stored before. -/
theorem Regular.rotate (hregular : cc.Regular) :
    cc.rotate.1.length * cuckooChainChunk + cc.rotate.2.count = cc.total ∧ cc.rotate.2.count < cuckooChainChunk := by
  have hpos : 0 < cuckooChainChunk := by decide
  unfold CuckooChain.rotate total
  cases hactive : cc.active with
  | none =>
    dsimp only
    rw [count_newCuckooFilter, map_none, getD_none]
    exact ⟨rfl, hpos⟩
  | some active =>
    have hle := hregular.count_le active hactive
    dsimp only
    rw [map_some, getD_some]
    by_cases hfull : cuckooChainChunk ≤ active.count
    · rw [if_pos hfull, count_newCuckooFilter, length_append, length_singleton, add_mul]
      exact ⟨by omega, hpos⟩
    · rw [if_neg hfull]
      exact ⟨rfl, Nat.lt_of_not_le hfull⟩

/-- An addition that does not overflow stores a fingerprint exactly if it changes the chain. -/
theorem Regular.add (hregular : cc.Regular) (hfits : (cc.add hash key).homeless = none) :
    (cc.add hash key).chain.Regular ∧ Grows hash cc (cc.add hash key).chain ∧
      (cc.add hash key).chain.total = cc.total + (if (cc.add hash key).stored then 1 else 0) := by
  obtain ⟨active, _, _, hadd⟩ | ⟨active', hplaced, hadd⟩ | ⟨active', left, _, hadd⟩ := add_cases hash cc key
  · rw [hadd]
    exact ⟨hregular, .refl hash cc, by simp⟩
  · have huniform := hregular.uniform.add hash key
    have hfinds : ∀ p, Genuine p → cc.finds hash p = true → (cc.add hash key).chain.finds hash p = true := by
      intro p hp hfound
      obtain hafter | ⟨q, hq, _⟩ := (add_finds_iff hregular.uniform hp key).mpr (.inl hfound)
      · exact hafter
      · rw [hfits] at hq
        cases hq
    have hcount : active'.count = cc.rotate.2.count + 1 := hplaced.count_eq rfl
    obtain ⟨hbefore, hroom⟩ := hregular.rotate
    have htotal : (cc.add hash key).chain.total = cc.total + 1 := by
      rw [hadd, total_mk, hcount]
      omega
    refine ⟨⟨huniform, ?_⟩, ⟨by omega, hfinds, fun heq => (by omega)⟩, ?_⟩
    · intro active hactive
      rw [hadd] at hactive
      cases hactive
      omega
    · rw [htotal, hadd]
      rfl
  · rw [hadd] at hfits
    cases hfits

theorem Answers.cons {keys : List Bytes} (huniform : cc.Uniform)
    (hanswers : Answers hash keys cc) (hfits : (cc.add hash key).homeless = none) :
    Answers hash (key :: keys) (cc.add hash key).chain := by
  have hafter := hanswers.add huniform (fun left hleft => by rw [hfits] at hleft; cases hleft)
  intro key' hkey'
  apply hafter key'
  obtain rfl | hkey' := mem_cons.mp hkey'
  · exact mem_append_right _ (mem_singleton_self _)
  · exact mem_append_left _ hkey'

/-- Keys of three bytes that are spread evenly: two in every bucket of a segment, of which
none has a second bucket. -/
def spreadHash : Hash := fun bytes =>
  if bytes.length = 3 then
    hashValue (1 + ofLittleEndian bytes / 2048 + 2 ^ 32 * (ofLittleEndian bytes % 2048))
  else hashValue 0

def spreadKey (j : Nat) : Bytes := littleEndian 3 j

theorem val_spreadHash (hj : j < cuckooChainChunk) :
    (spreadHash (spreadKey j)).val = 1 + j / 2048 + 2 ^ 32 * (j % 2048) := by
  simp only [cuckooChainChunk] at hj
  have hkey : j % 256 ^ 3 = j := mod_eq_of_lt (by omega)
  rw [spreadHash, spreadKey, if_pos (length_littleEndian 3 j), ofLittleEndian_littleEndian, hkey, hashValue,
    Fin.val_ofNat, mod_eq_of_lt (by omega)]

theorem chunkPrint_spread (hj : j < cuckooChainChunk) : (chunkPrint spreadHash (spreadKey j)).fp.val = 1 + j / 2048 ∧
      (chunkPrint spreadHash (spreadKey j)).bucket = j % 2048 := by
  have hval := val_spreadHash hj
  have hbuckets : chunkBuckets - 1 = 2 ^ 11 - 1 := rfl
  simp only [cuckooChainChunk] at hj
  constructor
  · have hfp : Fin.ofNat 65536 ((spreadHash (spreadKey j)).val &&& 0xFFFF) = ⟨1 + j / 2048, by omega⟩ := by
      apply Fin.ext
      rw [Fin.val_ofNat, show 0xFFFF = 2 ^ 16 - 1 from rfl, and_two_pow_sub_one_eq_mod, hval]
      dsimp only
      omega
    have hne : (⟨1 + j / 2048, by omega⟩ : Fin 65536) ≠ 0 := by
      intro hzero
      have := congrArg Fin.val hzero
      simp at this
    rw [chunkPrint, fingerprintAndIndex, fingerprintOf]
    dsimp only
    rw [hfp, if_neg hne]
  · rw [chunkPrint, fingerprintAndIndex, hval, hbuckets, and_two_pow_sub_one_eq_mod, shiftRight_eq_div_pow]
    dsimp only
    rw [Nat.add_mul_div_left _ _ (Nat.two_pow_pos 32), Nat.div_eq_of_lt (by omega)]
    omega

theorem altIndex_spread {i : Nat} (hi : i < 2048) (fp : Fingerprint) : altIndex spreadHash chunkBuckets i fp = i := by
  have hbuckets : chunkBuckets - 1 = 2 ^ 11 - 1 := rfl
  have hzero : spreadHash (littleEndian 2 fp) = 0 := by
    rw [spreadHash, if_neg]
    · rfl
    · rw [length_littleEndian]
      decide
  rw [altIndex, hzero, hbuckets, and_two_pow_sub_one_eq_mod, Fin.val_zero, xor_zero]
  omega

theorem eq_of_samePrint_spread {j' : Nat} (hj : j < cuckooChainChunk) (hj' : j' < cuckooChainChunk)
    (hsame : SamePrint spreadHash (chunkPrint spreadHash (spreadKey j)) (chunkPrint spreadHash (spreadKey j'))) :
    j = j' := by
  obtain ⟨hfp, hbucket⟩ := chunkPrint_spread hj
  obtain ⟨hfp', hbucket'⟩ := chunkPrint_spread hj'
  obtain ⟨hfpEq, hbuckets⟩ := hsame
  rw [altIndex_spread (by omega), or_self] at hbuckets
  have hval := congrArg Fin.val hfpEq
  omega

/-- A segment with the first `j` keys, of which every bucket took the first in its first
slot and the second in one of the first two. -/
structure SpreadTo (j : Nat) (c : CuckooFilter) : Prop where
  numBuckets_eq : c.numBuckets = chunkBuckets
  count_eq : c.count = j
  lodged : ∀ p, Genuine p → Lodged (altIndex spreadHash chunkBuckets) c.slot p →
    ∃ i < j, SamePrint spreadHash p (chunkPrint spreadHash (spreadKey i))
  empty : ∀ b (s : Fin cuckooBucketSize), j ≤ b + 2048 * s.val → c.slot b s = 0

theorem spreadTo_new : SpreadTo 0 (newCuckooFilter cuckooChainChunk) where
  numBuckets_eq := rfl
  count_eq := rfl
  lodged := fun _ hp hlodged => absurd hlodged (not_lodged_newCuckooFilter hp.ne_zero)
  empty := fun b s _ => slot_newCuckooFilter cuckooChainChunk b s

theorem SpreadTo.add {c : CuckooFilter} (hspread : SpreadTo j c) (hj : j < cuckooChainChunk) :
    ∃ c', c.add spreadHash (spreadKey j) = (c', none) ∧ SpreadTo (j + 1) c' := by
  have hprint : fingerprintAndIndex spreadHash c.numBuckets (spreadKey j) = chunkPrint spreadHash (spreadKey j) := by
    rw [hspread.numBuckets_eq]
    rfl
  obtain ⟨_, hbucket⟩ := chunkPrint_spread hj
  have hgenuine := genuine_chunkPrint spreadHash (spreadKey j)
  have hchunk : cuckooChainChunk = 4096 := rfl
  have hnotFound : c.maybeContains spreadHash (spreadKey j) = false := by
    apply Bool.eq_false_iff.mpr
    intro hfound
    rw [CuckooFilter.maybeContains, hprint, c.finds_iff spreadHash (hspread.numBuckets_eq ▸ hgenuine.valid),
      hspread.numBuckets_eq] at hfound
    obtain ⟨i, hi, hsame⟩ := hspread.lodged _ hgenuine hfound
    have heq := eq_of_samePrint_spread hj (by omega) hsame
    omega
  have hroom : c.slot (fingerprintAndIndex spreadHash c.numBuckets (spreadKey j)).bucket
      ⟨j / 2048, by simp only [cuckooBucketSize]; omega⟩ = 0 := by
    rw [hprint, hbucket]
    exact hspread.empty _ _ (mod_add_div j 2048).ge
  obtain ⟨s, hle, hadd⟩ := add_of_empty_slot hnotFound hroom
  have hles : s.val ≤ j / 2048 := hle
  rw [hprint] at hadd
  obtain ⟨hfound, _⟩ | ⟨_, hplaced⟩ := c.add_spec spreadHash (spreadKey j)
  · rw [hnotFound] at hfound
    cases hfound
  rw [hprint, hadd] at hplaced
  refine ⟨_, hadd, hspread.numBuckets_eq, ?_, fun p hp hlodged => ?_, fun b s' hb => ?_⟩
  · rw [← hspread.count_eq]
  · have hiff := hplaced.lodged_iff (hspread.numBuckets_eq ▸ hp.valid) hp.ne_zero
    rw [hspread.numBuckets_eq] at hiff
    obtain hold | hnew := hiff.mp (.inl hlodged)
    · obtain ⟨i, hi, hsame⟩ := hspread.lodged p hp hold
      exact ⟨i, by omega, hsame⟩
    · exact ⟨j, by omega, hnew⟩
  · have hslot := congrFun (congrFun
      (c.slot_setSlot (hspread.numBuckets_eq ▸ hgenuine.valid) s (chunkPrint spreadHash (spreadKey j)).fp) b) s'
    refine hslot.trans ?_
    rw [putSlot, if_neg]
    · exact hspread.empty b s' (by omega)
    · rintro ⟨rfl, rfl⟩
      rw [hbucket] at hb
      omega

variable (m : Nat)

/-- The keys in turn, again and again. -/
def spreadKeys : List Bytes := (range m).map (fun i => spreadKey (i % cuckooChainChunk))

theorem addAll_spreadKeys_succ : addAll spreadHash (spreadKeys (m + 1)) =
      ((addAll spreadHash (spreadKeys m)).add spreadHash (spreadKey (m % cuckooChainChunk))).chain := by
  rw [← addAll_append, spreadKeys, range_succ, map_append]
  rfl

theorem SpreadTo.addChain (hspread : SpreadTo j cc.rotate.2) (hj : j < cuckooChainChunk) :
    (cc.add spreadHash (spreadKey j)).homeless = none ∧
      ∃ active, (cc.add spreadHash (spreadKey j)).chain = { sealed := cc.rotate.1, active := some active } ∧
        SpreadTo (j + 1) active := by
  obtain ⟨active, hadd, hnext⟩ := hspread.add hj
  have heq : cc.add spreadHash (spreadKey j) =
      { chain := { sealed := cc.rotate.1, active := some active }
        stored := active.count != cc.rotate.2.count
        homeless := none } := by
    simp only [CuckooChain.add, hadd]
  rw [heq]
  exact ⟨rfl, active, rfl, hnext⟩

/-- Every segment takes all the keys, and is then rotated away. -/
theorem rotate_spreadKeys : SpreadTo (m % cuckooChainChunk) (addAll spreadHash (spreadKeys m)).rotate.2 ∧
      (addAll spreadHash (spreadKeys m)).rotate.1.length = m / cuckooChainChunk := by
  induction m with
  | zero => exact ⟨spreadTo_new, rfl⟩
  | succ m ih =>
    obtain ⟨hspread, hsealed⟩ := ih
    obtain ⟨_, active, hchain, hnext⟩ := hspread.addChain (mod_lt _ (by decide))
    rw [addAll_spreadKeys_succ, hchain, CuckooChain.rotate]
    dsimp only
    rw [hnext.count_eq]
    by_cases hfull : cuckooChainChunk ≤ m % cuckooChainChunk + 1
    · obtain ⟨hmod, hdiv⟩ : (m + 1) % cuckooChainChunk = 0 ∧
          (m + 1) / cuckooChainChunk = m / cuckooChainChunk + 1 := by
        simp only [cuckooChainChunk] at hfull ⊢
        omega
      rw [if_pos hfull, hmod, hdiv, length_append, length_singleton, hsealed]
      exact ⟨spreadTo_new, rfl⟩
    · obtain ⟨hmod, hdiv⟩ : (m + 1) % cuckooChainChunk = m % cuckooChainChunk + 1 ∧
          (m + 1) / cuckooChainChunk = m / cuckooChainChunk := by
        simp only [cuckooChainChunk] at hfull ⊢
        omega
      rw [if_neg hfull, hmod, hdiv]
      exact ⟨hnext, hsealed⟩

theorem homeless_spreadKeys :
    ((addAll spreadHash (spreadKeys m)).add spreadHash (spreadKey (m % cuckooChainChunk))).homeless = none :=
  ((rotate_spreadKeys m).1.addChain (mod_lt _ (by decide))).1

/-- A chain grows to any number of segments without an overflow. -/
theorem length_segments_spreadKeys :
    (addAll spreadHash (spreadKeys (m + 1))).segments.length = m / cuckooChainChunk + 1 := by
  obtain ⟨hspread, hsealed⟩ := rotate_spreadKeys m
  obtain ⟨_, active, hchain, _⟩ := hspread.addChain (mod_lt _ (by decide))
  rw [addAll_spreadKeys_succ, hchain, segments_mk, length_append, length_singleton, hsealed]

end swytch.effects.CuckooChain
