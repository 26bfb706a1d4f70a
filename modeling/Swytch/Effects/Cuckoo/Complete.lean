import Swytch.Effects.Cuckoo.Wire

open swytch.lib swytch.proto List

namespace swytch.effects

namespace CuckooFilter

/-- The slots that a seed picks for `n` evictions. -/
def pickedSlots : Nat → Nat → List (Fin cuckooBucketSize)
  | 0, _ => []
  | n + 1, seed =>
    let next := (seed + 1) % 2 ^ 64
    ⟨next % cuckooBucketSize, Nat.mod_lt _ (by decide)⟩ :: pickedSlots n next

/-- The print that has no place in the table together with a key: none if the table has the key
or an empty slot for it, or if a walk of evictions comes to an empty slot. -/
def strandedBy (hash : Hash) (c : CuckooFilter) (key : Bytes) : Option (Print Nat Fingerprint) :=
  let alt := altIndex hash c.numBuckets
  let p := fingerprintAndIndex hash c.numBuckets key
  let q := p.partner alt
  if Lodged alt c.slot p ∨ (∃ s, c.slot p.bucket s = emptySlot) ∨ ∃ s, c.slot q.bucket s = emptySlot then none
  else
    stranded alt emptySlot (pickedSlots cuckooMaxKicks c.kickSeed) c.slot (if c.kickSeed &&& 1 = 1 then q else p)

variable {hash : Hash} {c : CuckooFilter} {i : Nat} {fp : Fingerprint}

/-- The loop of evictions ends with the print that the walk over the table strands. -/
theorem kick_snd (hash : Hash) (n : Nat) (c : CuckooFilter) (hi : i < c.numBuckets) (fp : Fingerprint) :
    (c.kick hash n fp i).2 =
      stranded (altIndex hash c.numBuckets) emptySlot (pickedSlots n c.kickSeed) c.slot ⟨fp, i⟩ := by
  induction n generalizing c fp i with
  | zero => rfl
  | succ n ih =>
    have halt := (isPairing_altIndex hash (c.evict i fp).1.pow_numBuckets).alt_valid (c.evict i fp).2 hi
    have hslot : (c.evict i fp).1.slot = _ := c.slot_setSlot hi _ fp
    rw [kick]
    obtain ⟨s, hroom, -, hinsert⟩ | ⟨hfull, hinsert⟩ := (c.evict i fp).1.insertIntoBucket_spec halt (c.evict i fp).2
    · dsimp only
      rw [hinsert]
      exact (stranded_of_room (hslot ▸ hroom)).symm
    · dsimp only
      rw [hinsert]
      refine (ih (c.evict i fp).1 halt (c.evict i fp).2).trans ?_
      rw [Full, hslot] at hfull
      rw [hslot]
      exact (stranded_of_full hfull).symm

/-- A key is not added exactly if it strands a print. -/
theorem add_snd (hash : Hash) (c : CuckooFilter) (key : Bytes) : (c.add hash key).2 = c.strandedBy hash key := by
  have hvalid := fingerprintAndIndex_valid hash c.pow_numBuckets key
  unfold add strandedBy
  generalize fingerprintAndIndex hash c.numBuckets key = p at hvalid
  have halt := (isPairing_altIndex hash c.pow_numBuckets).alt_valid p.fp hvalid
  simp only [Print.partner, ← finds_iff hash c hvalid]
  by_cases hfound : c.finds hash p = true
  · rw [if_pos hfound, if_pos (Or.inl hfound)]
  rw [if_neg hfound]
  obtain ⟨s, hempty, -, hfirst⟩ | ⟨hfull, hfirst⟩ := c.insertIntoBucket_spec hvalid p.fp
  · rw [hfirst, if_pos (Or.inr (Or.inl ⟨s, hempty⟩))]
  obtain ⟨s, hempty, -, hsecond⟩ | ⟨hfull', hsecond⟩ := c.insertIntoBucket_spec halt p.fp
  · rw [hfirst, hsecond, if_pos (Or.inr (Or.inr ⟨s, hempty⟩))]
  · rw [hfirst, hsecond, if_neg (not_or.mpr ⟨hfound, not_or.mpr ⟨not_exists.mpr hfull, not_exists.mpr hfull'⟩⟩)]
    dsimp only
    split
    · exact kick_snd hash _ c halt p.fp
    · exact kick_snd hash _ c hvalid p.fp

end CuckooFilter

namespace CuckooChain

/-- A print that the key strands in the segment in use is that of the key, or a sealed segment
has it as well, or it lies in two slots. -/
def Keeps (hash : Hash) (cc : CuckooChain) (key : Bytes) : Prop :=
  ∀ p ∈ cc.rotate.2.strandedBy hash key, SamePrint hash p (chunkPrint hash key) ∨
    (∃ f ∈ cc.rotate.1, f.finds hash p = true) ∨ 2 ≤ copies (altIndex hash chunkBuckets) cc.rotate.2.slot p

instance (hash : Hash) (cc : CuckooChain) (key : Bytes) : Decidable (Keeps hash cc key) :=
  have (p q : Print Nat Fingerprint) : Decidable (SamePrint hash p q) := inferInstanceAs (Decidable (SameHome _ p q))
  inferInstanceAs (Decidable (∀ p ∈ _, _))

theorem homeless_eq (hash : Hash) (cc : CuckooChain) (key : Bytes) :
    (cc.add hash key).homeless = cc.rotate.2.strandedBy hash key := by
  rw [← CuckooFilter.add_snd, add]
  dsimp only
  split
  · rename_i hadd
    rw [hadd]
  · rename_i hadd
    rw [hadd]

/-- A lookup of a key that was added is never answered with a miss. -/
def Answers (hash : Hash) (keys : List Bytes) (cc : CuckooChain) : Prop :=
  ∀ key ∈ keys, cc.maybeContains hash key = true

theorem length_segments_add (hash : Hash) (cc : CuckooChain) (key : Bytes) :
    cc.segments.length ≤ (cc.add hash key).chain.segments.length := by
  have hrotate : cc.segments.length ≤ cc.rotate.1.length + 1 := by
    obtain heq | heq := cc.rotate_segments
    · have hlen := congrArg length heq
      rw [length_append, length_singleton] at hlen
      omega
    · have hlen := congrArg length heq
      rw [length_append, length_append, length_singleton, length_singleton] at hlen
      omega
  obtain ⟨active, _, _, hadd⟩ | ⟨active', _, hadd⟩ | ⟨active', left, _, hadd⟩ := add_cases hash cc key
  · rw [hadd]
  · rw [hadd, segments_mk, length_append, length_singleton]
    exact hrotate
  · rw [hadd, segments_mk, length_append, length_append, length_singleton, length_singleton]
    omega

theorem length_segments_addAll (hash : Hash) (called rest : List Bytes) :
    (addAll hash called).segments.length ≤ (addAll hash (called ++ rest)).segments.length := by
  induction rest using reverseRecOn with
  | nil => rw [append_nil]
  | append_singleton rest key ih =>
    rw [← append_assoc, addAll_append]
    exact ih.trans (length_segments_add hash _ key)

variable {hash : Hash} {keys : List Bytes} {cc : CuckooChain} {key : Bytes}

/-- One addition loses no key if the print without a place is still found somewhere. -/
theorem Answers.add (huniform : cc.Uniform) (hanswers : Answers hash keys cc)
    (hfinds : ∀ left, (cc.add hash key).homeless = some left → (cc.add hash key).chain.finds hash left = true) :
    Answers hash (keys ++ [key]) (cc.add hash key).chain := by
  have huniform' := huniform.add hash key
  intro key' hmem
  have hgenuine := genuine_chunkPrint hash key'
  have hbefore : cc.finds hash (chunkPrint hash key') = true ∨
      SamePrint hash (chunkPrint hash key') (chunkPrint hash key) := by
    obtain hmem | hmem := mem_append.mp hmem
    · exact .inl (maybeContains_eq_finds huniform key' ▸ hanswers key' hmem)
    · rw [mem_singleton.mp hmem]
      exact .inr (SameHome.refl _)
  rw [maybeContains_eq_finds huniform']
  obtain hfound | ⟨left, hleft, hsame⟩ := (add_finds_iff huniform hgenuine key).mpr hbefore
  · exact hfound
  · exact finds_of_samePrint huniform' hgenuine (homeless_genuine huniform hleft) hsame (hfinds left hleft)

/-- If no key is lost, then the print without a place is found: it looks like one of them. -/
theorem finds_homeless_of_answers {left : Print Nat Fingerprint}
    (hleft : ((addAll hash keys).add hash key).homeless = some left)
    (hanswers : Answers hash (keys ++ [key]) (addAll hash (keys ++ [key]))) :
    (addAll hash (keys ++ [key])).finds hash left = true := by
  have huniform := uniform_addAll hash keys
  have hgenuine := homeless_genuine huniform hleft
  have hlike : ∃ key' ∈ keys ++ [key], SamePrint hash left (chunkPrint hash key') := by
    obtain hfinds | hsame := homeless_found huniform hleft
    · obtain ⟨key', hmem, hsame⟩ := owned_addAll hgenuine hfinds
      exact ⟨key', mem_append_left _ hmem, hsame⟩
    · exact ⟨key, mem_append_right _ (mem_singleton_self _), hsame⟩
  obtain ⟨key', hmem, hsame⟩ := hlike
  have huniform' := uniform_addAll hash (keys ++ [key])
  apply finds_of_samePrint huniform' hgenuine (genuine_chunkPrint hash key') hsame
  rw [← maybeContains_eq_finds huniform']
  exact hanswers key' hmem

/-- The chain finds the print without a place after the addition exactly if it is the print of
the key, or lay in a sealed segment or in a second slot before. -/
theorem keeps_iff (huniform : cc.Uniform) : Keeps hash cc key ↔
    ∀ left, (cc.add hash key).homeless = some left → (cc.add hash key).chain.finds hash left = true := by
  rw [Keeps, ← homeless_eq]
  refine forall₂_congr fun left hleft => ?_
  have hgenuine := homeless_genuine huniform hleft
  have hnum := numBuckets_rotate huniform
  obtain ⟨active, _, _, hadd⟩ | ⟨active', _, hadd⟩ | ⟨active', left', hplaced, hadd⟩ := add_cases hash cc key
  · rw [hadd] at hleft
    cases hleft
  · rw [hadd] at hleft
    cases hleft
  · have hcopies := hplaced.copies_eq left (hnum ▸ hgenuine.valid) hgenuine.ne_zero
    have hsealed : (∃ f ∈ cc.rotate.1, f.finds hash left = true) ↔
        ∃ f ∈ cc.rotate.1, Lodged (altIndex hash chunkBuckets) f.slot left := by
      refine exists_congr fun f => and_congr_right fun hf => ?_
      have hnumf := huniform.rotate f (mem_append_left _ hf)
      rw [f.finds_iff hash (hnumf ▸ hgenuine.valid), hnumf]
    rw [hadd] at hleft
    obtain rfl := Option.some.inj hleft
    simp only [hnum, Option.mem_def, Option.some.injEq, exists_eq_left', SameHome.refl, if_true] at hcopies
    rw [finds_iff (huniform.add hash key) hgenuine, hadd, segments_mk]
    simp only [mem_append, mem_singleton, or_and_right, exists_or, exists_eq_left, lodged_fresh hgenuine key,
      ← copies_pos_iff (T := active'.slot), hsealed]
    by_cases hsame : SamePrint hash left' (chunkPrint hash key)
    · exact iff_of_true (.inl hsame) (.inr hsame)
    · have hkey : ¬ SameHome (altIndex hash chunkBuckets) left' (fingerprintAndIndex hash chunkBuckets key) := hsame
      simp only [hkey, if_false] at hcopies
      simp only [hsame, false_or, or_false]
      exact or_congr_right (by omega)

theorem Answers.decoded (huniform : cc.Uniform) (hcount : cc.segments.length < 2 ^ 32)
    (hanswers : Answers hash keys cc) :
    ∃ decoded, unmarshalBinary cc.marshalBinary = .ok decoded ∧ Answers hash keys decoded := by
  refine ⟨_, unmarshalBinary_marshalBinary huniform hcount, fun key hmem => ?_⟩
  rw [maybeContains_decoded]
  exact hanswers key hmem

/-- A chain of fewer than `2 ^ 32` segments has no false negatives after any of the calls,
before and after it is marshalled, exactly if at each call the chain keeps the print that the
key strands in the segment in use. -/
theorem no_false_negatives_iff (hash : Hash) (keys : List Bytes)
    (hcount : (addAll hash keys).segments.length < 2 ^ 32) :
    (∀ called, called <+: keys → Answers hash called (addAll hash called) ∧
        ∃ decoded, unmarshalBinary (addAll hash called).marshalBinary = .ok decoded ∧ Answers hash called decoded) ↔
      ∀ called key, called ++ [key] <+: keys → Keeps hash (addAll hash called) key := by
  constructor
  · intro hanswers called key hcalled
    refine (keeps_iff (uniform_addAll hash called)).mpr fun left hleft => ?_
    rw [← addAll_append]
    exact finds_homeless_of_answers hleft (hanswers _ hcalled).1
  · intro hkeeps called hcalled
    have hlive : Answers hash called (addAll hash called) := by
      induction called using reverseRecOn with
      | nil => exact fun key hmem => (by cases hmem)
      | append_singleton called key ih =>
        have hbefore := ih ((prefix_append called [key]).trans hcalled)
        have huniform := uniform_addAll hash called
        rw [addAll_append]
        exact hbefore.add huniform ((keeps_iff huniform).mp (hkeeps called key hcalled))
    obtain ⟨rest, rfl⟩ := hcalled
    refine ⟨hlive, hlive.decoded (uniform_addAll hash called) ?_⟩
    exact Nat.lt_of_le_of_lt (length_segments_addAll hash called rest) hcount

/-- Nine keys that all go to the first two buckets. The fingerprints of some have the other
bucket as their partner, those of the rest have none. -/
def crowdedHash : Hash
  | [key] => hashValue (key.val + 2 ^ 32 * [0, 0, 0, 1, 0, 0, 1, 0, 1, 1].getD key.val 0)
  | [low, _] => hashValue ([0, 0, 0, 1, 0, 1, 0, 1, 0, 1].getD low.val 0)
  | _ => hashValue 0

def crowdedKeys : List Bytes := [[1], [2], [3], [4], [5], [6], [7], [8], [9]]

/-- The last of the keys overflows the segment, and the fourth one is lost. -/
theorem key_lost_on_overflow : (addAll crowdedHash crowdedKeys).segments.length < 2 ^ 32 ∧ [4] ∈ crowdedKeys ∧
      (addAll crowdedHash crowdedKeys).maybeContains crowdedHash [4] = false := by
  decide +kernel

/-- Keys that all go to the first bucket, whose fingerprints have no other one. -/
def stackedHash : Hash
  | [key] => hashValue key.val
  | _ => hashValue 0

def stackedKeys : List Bytes := [[1], [2], [3], [4], [5]]

/-- The last of the keys overflows the segment. It is in hand again after the last eviction,
and nothing is lost. -/
theorem no_false_negatives_of_stacked_keys : (addAll stackedHash stackedKeys).segments.length = 2 ∧
      ∀ called, called <+: stackedKeys → Answers stackedHash called (addAll stackedHash called) ∧
        ∃ decoded, unmarshalBinary (addAll stackedHash called).marshalBinary = .ok decoded ∧
          Answers stackedHash called decoded := by
  have hcount : (addAll stackedHash stackedKeys).segments.length = 2 := by decide +kernel
  refine ⟨hcount, (no_false_negatives_iff stackedHash stackedKeys (by rw [hcount]; decide)).mpr ?_⟩
  have hkeeps : ∀ n < 5, ∀ key ∈ stackedKeys[n]?, Keeps stackedHash (addAll stackedHash (stackedKeys.take n)) key := by
    decide +kernel
  rintro called key ⟨rest, hrest⟩
  have hlen : called.length + 1 + rest.length = 5 := by
    have hlen := congrArg length hrest
    rwa [length_append, length_append] at hlen
  have hkeep := hkeeps called.length (by omega) key (by rw [← hrest]; simp)
  rwa [← hrest, append_assoc, take_left] at hkeep

end CuckooChain

end swytch.effects
