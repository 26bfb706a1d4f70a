import Swytch.Effects.Cuckoo.Wire

open swytch.lib swytch.proto List Option Nat Except

namespace swytch.effects

open CuckooFilter

/-- A filter as its decoder fills it in, with nothing known of the slots. -/
structure RawFilter where
  buckets : List Fingerprint
  numBuckets : Nat
  count : Nat
  kickSeed : Nat
deriving DecidableEq

structure RawChain where
  sealed : List RawFilter
  active : Option RawFilter
deriving DecidableEq

/-- How a call of a decoder ends. -/
inductive Ending where
  | returned
  | failed (fault : CuckooFault)
  | panicked
deriving DecidableEq

/-- The receiver after the call, how the call ended, and the bytes it allocated. -/
structure Unmarshalled (α : Type) where
  receiver : α
  ending : Ending
  allocated : Nat
deriving DecidableEq

/-- The size of a filter without its slots. -/
def filterBytes : Nat := 48

variable (cc : RawChain) (c : RawFilter) (data : Bytes)

namespace RawFilter

def empty : RawFilter := ⟨[], 0, 0, 0⟩

/-- The products are those of 64-bit words. A slice of `2 ^ 63` slots or more cannot be made. -/
def unmarshalBinary : Unmarshalled RawFilter :=
  if data.length < 8 then ⟨c, .failed .shortBuffer, 0⟩
  else
    let nb := ofBigEndian (data.take 8)
    if nb = 0 ∨ nb &&& (nb - 1) ≠ 0 then ⟨c, .failed .notPowerOfTwo, 0⟩
    else
      let body := data.drop 8
      if body.length ≠ nb * cuckooBucketSize * 2 % 2 ^ 64 then ⟨c, .failed .bodyLengthMismatch, 0⟩
      else
        let slots := nb * cuckooBucketSize % 2 ^ 64
        if 2 ^ 63 ≤ slots then ⟨c, .panicked, 0⟩
        else
          let buckets := readSlots slots body
          ⟨⟨buckets, nb, buckets.countP (· ≠ emptySlot), 0⟩, .returned, 2 * slots⟩

/-- The slots of a bucket, unless they are out of range. -/
def bucket (i : Nat) : Option (List Fingerprint) :=
  let start := i * cuckooBucketSize % 2 ^ 64
  let stop := (start + cuckooBucketSize) % 2 ^ 64
  if start ≤ stop ∧ stop ≤ c.buckets.length then some ((c.buckets.drop start).take (stop - start)) else none

/-- The second bucket is looked at only if the first one does not have the fingerprint. -/
def maybeContains (hash : Hash) (c : RawFilter) (key : Bytes) : Option Bool :=
  let p := fingerprintAndIndex hash c.numBuckets key
  (c.bucket p.bucket).bind fun first =>
    if first.contains p.fp then some true
    else (c.bucket (altIndex hash c.numBuckets p.bucket p.fp)).map (·.contains p.fp)

end RawFilter

namespace RawChain

/-- The loop over the segments: what was decoded, the end it came to and the bytes allocated. -/
def readSegments : Nat → Bytes → Unmarshalled (List RawFilter)
  | 0, _ => ⟨[], .returned, 0⟩
  | n + 1, data =>
    if data.length < 4 then ⟨[], .failed .truncatedLength, 0⟩
    else
      let l := ofBigEndian (data.take 4)
      let rest := data.drop 4
      if rest.length < l then ⟨[], .failed .truncatedBody, 0⟩
      else
        let f := RawFilter.empty.unmarshalBinary (rest.take l)
        if f.ending = .returned then
          let filters := readSegments n (rest.drop l)
          ⟨f.receiver :: filters.receiver, filters.ending, filterBytes + f.allocated + filters.allocated⟩
        else ⟨[], f.ending, filterBytes + f.allocated⟩

def unmarshalBinary : Unmarshalled RawChain :=
  if data.length < 4 then ⟨cc, .failed .chainShortBuffer, 0⟩
  else
    let count := ofBigEndian (data.take 4)
    if (data.length - 4) / 4 < count then ⟨cc, .failed .segmentCountExceedsBuffer, 0⟩
    else
      let filters := readSegments count (data.drop 4)
      if filters.ending = .returned then
        ⟨⟨filters.receiver, none⟩, .returned, 8 * count + filters.allocated⟩
      else ⟨cc, filters.ending, 8 * count + filters.allocated⟩

def maybeContains (hash : Hash) (cc : RawChain) (key : Bytes) : Option Bool :=
  (cc.active.toList ++ cc.sealed).foldr
    (fun f later => (f.maybeContains hash key).bind fun found => if found then some true else later) (some false)

/-- The segments that the length prefixes cut off, up to the first one that does not fit. -/
def frames : Nat → Bytes → List Bytes
  | 0, _ => []
  | n + 1, data =>
    let l := ofBigEndian (data.take 4)
    let rest := data.drop 4
    if data.length < 4 ∨ rest.length < l then [] else rest.take l :: frames n (rest.drop l)

end RawChain

/-- A header of a filter with `2 ^ 61` buckets or more and nothing behind it: the length of its
body is 0 modulo `2 ^ 64`. -/
def Oversized : Prop :=
  data.length = 8 ∧ 2 ^ 61 ≤ ofBigEndian data ∧ (ofBigEndian data).isPowerOfTwo

/-- The header of a filter with `nb` buckets and nothing behind it. -/
def BareHeader (nb : Nat) : Prop := data.length = 8 ∧ ofBigEndian data = nb

/-- A header and the body of eight bytes a bucket that it announces. -/
def WellSized : Prop :=
  (ofBigEndian (data.take 8)).isPowerOfTwo ∧ ofBigEndian (data.take 8) < 2 ^ 61 ∧
    data.length = 8 + 8 * ofBigEndian (data.take 8)

/-- The bytes of a filter, or of a header whose number of slots is 0 modulo `2 ^ 64`. -/
def Admitted : Prop := WellSized data ∨ BareHeader data (2 ^ 62) ∨ BareHeader data (2 ^ 63)

/-- A header of `2 ^ 61` buckets stands behind admitted segments only. -/
def RawChain.Panics (segments : List Bytes) : Prop :=
  ∃ before seg after, segments = before ++ seg :: after ∧ BareHeader seg (2 ^ 61) ∧ ∀ s ∈ before, Admitted s

/-- The count and the length prefixes of a chain lead to a header of `2 ^ 61` buckets with only
admitted segments before it, or all its segments are admitted and one has no slots. -/
def RawChain.Overflows : Prop :=
  let count := ofBigEndian (data.take 4)
  let segments := frames count (data.drop 4)
  4 ≤ data.length ∧ count ≤ (data.length - 4) / 4 ∧
    (Panics segments ∨ segments.length = count ∧ (∀ s ∈ segments, Admitted s) ∧ ∃ s ∈ segments, Oversized s)

def CuckooFilter.toRaw (c : CuckooFilter) : RawFilter :=
  ⟨c.buckets, c.numBuckets, c.count, c.kickSeed⟩

theorem eq_pow_of_oversized {nb : Nat} (hpow : nb.isPowerOfTwo) (hlarge : 2 ^ 61 ≤ nb) (hword : nb < 2 ^ 64) :
    nb = 2 ^ 61 ∨ nb = 2 ^ 62 ∨ nb = 2 ^ 63 := by
  obtain ⟨k, rfl⟩ := hpow
  have hlo : 61 ≤ k := (Nat.pow_le_pow_iff_right (by decide)).mp hlarge
  have hhi : k < 64 := (Nat.pow_lt_pow_iff_right (by decide)).mp hword
  obtain rfl | rfl | rfl : k = 61 ∨ k = 62 ∨ k = 63 := by omega
  · exact .inl rfl
  · exact .inr (.inl rfl)
  · exact .inr (.inr rfl)

theorem take_of_bare {data : Bytes} (hlen : data.length = 8) : data.take 8 = data :=
  take_of_length_le (le_of_eq hlen)

theorem oversized_iff_bareHeader :
    Oversized data ↔ BareHeader data (2 ^ 61) ∨ BareHeader data (2 ^ 62) ∨ BareHeader data (2 ^ 63) := by
  constructor
  · rintro ⟨hlen, hlarge, hpow⟩
    have hword : ofBigEndian data < 2 ^ 64 := (ofBigEndian_lt data).trans_le (by rw [hlen]; decide)
    obtain h | h | h := eq_pow_of_oversized hpow hlarge hword
    · exact .inl ⟨hlen, h⟩
    · exact .inr (.inl ⟨hlen, h⟩)
    · exact .inr (.inr ⟨hlen, h⟩)
  · rintro (⟨hlen, h⟩ | ⟨hlen, h⟩ | ⟨hlen, h⟩)
    · exact ⟨hlen, h ▸ le_refl _, h ▸ ⟨61, rfl⟩⟩
    · exact ⟨hlen, h ▸ by decide, h ▸ ⟨62, rfl⟩⟩
    · exact ⟨hlen, h ▸ by decide, h ▸ ⟨63, rfl⟩⟩

theorem WellSized.not_oversized {data : Bytes} (hwell : WellSized data) : ¬ Oversized data := by
  rintro ⟨hlen, hlarge, -⟩
  have hsmall := hwell.2.1
  rw [take_of_bare hlen] at hsmall
  exact absurd hlarge (Nat.not_le.mpr hsmall)

/-- The decoder does what the model of well-formed filters says, except on an oversized header:
there it panics or returns a filter without slots. -/
theorem RawFilter.unmarshalBinary_cases :
    (∃ f : CuckooFilter, f.numBuckets < 2 ^ 61 ∧ CuckooFilter.unmarshalBinary data = .ok f ∧ WellSized data ∧
      c.unmarshalBinary data = ⟨f.toRaw, .returned, data.length - 8⟩) ∨
    (∃ fault, CuckooFilter.unmarshalBinary data = .error fault ∧ ¬ WellSized data ∧ ¬ Oversized data ∧
      c.unmarshalBinary data = ⟨c, .failed fault, 0⟩) ∨
    (Oversized data ∧ CuckooFilter.unmarshalBinary data = .error .outOfRange ∧
      (BareHeader data (2 ^ 61) ∧ c.unmarshalBinary data = ⟨c, .panicked, 0⟩ ∨
      ∃ nb, (nb = 2 ^ 62 ∨ nb = 2 ^ 63) ∧ BareHeader data nb ∧
        c.unmarshalBinary data = ⟨⟨[], nb, 0, 0⟩, .returned, 0⟩)) := by
  have hword : ofBigEndian (data.take 8) < 2 ^ 64 :=
    lt_of_lt_of_le (ofBigEndian_lt _) (Nat.pow_le_pow_right (by decide) (length_take_le 8 data))
  unfold RawFilter.unmarshalBinary CuckooFilter.unmarshalBinary
  by_cases hshort : data.length < 8
  · refine .inr (.inl ⟨.shortBuffer, if_pos hshort, fun hwell => ?_, fun hover => ?_, if_pos hshort⟩)
    · have hlen := hwell.2.2
      omega
    · exact absurd hover.1 (Nat.ne_of_lt hshort)
  rw [if_neg hshort, if_neg hshort]
  obtain ⟨nb, hnb⟩ : ∃ nb, ofBigEndian (data.take 8) = nb := ⟨_, rfl⟩
  rw [hnb] at hword
  have hwellSized (hwell : WellSized data) : nb.isPowerOfTwo ∧ nb < 2 ^ 61 ∧ data.length = 8 + 8 * nb := hnb ▸ hwell
  have hheader (hover : Oversized data) : nb.isPowerOfTwo ∧ 2 ^ 61 ≤ nb := by
    obtain ⟨hlen, hlarge, hpow⟩ := hover
    rw [take_of_bare hlen] at hnb
    exact hnb ▸ ⟨hpow, hlarge⟩
  simp only [hnb]
  by_cases hpow : nb ≠ 0 ∧ nb &&& (nb - 1) = 0
  · have htwo := ne_zero_and_sub_one_eq_zero_iff_isPowerOfTwo.mp hpow
    have hnot : ¬ (nb = 0 ∨ nb &&& (nb - 1) ≠ 0) := by tauto
    rw [dif_pos hpow, if_neg hnot]
    by_cases hbody : (data.drop 8).length ≠ nb * cuckooBucketSize * 2 % 2 ^ 64
    · refine .inr (.inl ⟨.bodyLengthMismatch, if_pos hbody, fun hwell => hbody ?_, fun hover => hbody ?_, if_pos hbody⟩)
      · obtain ⟨-, hsmall, hlen⟩ := hwellSized hwell
        rw [length_drop, cuckooBucketSize]
        omega
      · obtain rfl | rfl | rfl := eq_pow_of_oversized htwo (hheader hover).2 hword
        all_goals rw [length_drop, hover.1]; rfl
    · rw [if_neg hbody, if_neg hbody]
      rw [not_not, length_drop, cuckooBucketSize] at hbody
      by_cases hlarge : 2 ^ 61 ≤ nb
      · have hlen : data.length = 8 := by
          obtain rfl | rfl | rfl := eq_pow_of_oversized htwo hlarge hword
          all_goals omega
        rw [take_of_bare hlen] at hnb
        refine .inr (.inr ⟨⟨hlen, hnb ▸ hlarge, hnb ▸ htwo⟩, if_pos hlarge, ?_⟩)
        obtain rfl | rfl | rfl := eq_pow_of_oversized htwo hlarge hword
        · exact .inl ⟨⟨hlen, hnb⟩, rfl⟩
        · exact .inr ⟨2 ^ 62, .inl rfl, ⟨hlen, hnb⟩, rfl⟩
        · exact .inr ⟨2 ^ 63, .inr rfl, ⟨hlen, hnb⟩, rfl⟩
      · have hslots : nb * cuckooBucketSize % 2 ^ 64 = nb * cuckooBucketSize := by
          rw [cuckooBucketSize]
          omega
        have hmake : ¬ 2 ^ 63 ≤ nb * cuckooBucketSize := by
          rw [cuckooBucketSize]
          omega
        have hlen : 2 * (nb * cuckooBucketSize) = data.length - 8 := by
          rw [cuckooBucketSize]
          omega
        have hwell : WellSized data := by
          refine ⟨hnb ▸ htwo, hnb ▸ Nat.lt_of_not_le hlarge, ?_⟩
          rw [cuckooBucketSize] at hlen
          omega
        rw [if_neg hlarge, hslots, if_neg hmake, hlen]
        exact .inl ⟨_, Nat.lt_of_not_le hlarge, rfl, hwell, rfl⟩
  · have hnot : nb = 0 ∨ nb &&& (nb - 1) ≠ 0 := by tauto
    rw [dif_neg hpow, if_pos hnot]
    refine .inr (.inl ⟨.notPowerOfTwo, rfl, fun hwell => hpow ?_, fun hover => hpow ?_, rfl⟩)
    · exact ne_zero_and_sub_one_eq_zero_iff_isPowerOfTwo.mpr (hwellSized hwell).1
    · exact ne_zero_and_sub_one_eq_zero_iff_isPowerOfTwo.mpr (hheader hover).1

/-- Whether the decoder returns or panics is decided by the length of its input and the header. -/
theorem RawFilter.ending_iff : ((c.unmarshalBinary data).ending = .returned ↔ Admitted data) ∧
    ((c.unmarshalBinary data).ending = .panicked ↔ BareHeader data (2 ^ 61)) := by
  have hover := oversized_iff_bareHeader data
  have hwell := @WellSized.not_oversized data
  obtain ⟨f, -, -, hsized, heq⟩ | ⟨fault, -, hsized, hfit, heq⟩ | ⟨-, -, ⟨hbare, heq⟩ | ⟨nb, hnb, hbare, heq⟩⟩ :=
    c.unmarshalBinary_cases data
  · rw [heq, Admitted]
    simp only [reduceCtorEq, false_iff, true_iff]
    tauto
  · rw [heq, Admitted]
    simp only [reduceCtorEq, false_iff]
    tauto
  · rw [heq, Admitted]
    simp only [reduceCtorEq, false_iff, true_iff]
    refine ⟨?_, hbare⟩
    rintro (h | ⟨-, h⟩ | ⟨-, h⟩)
    · tauto
    · exact absurd (hbare.2.symm.trans h) (by decide)
    · exact absurd (hbare.2.symm.trans h) (by decide)
  · rw [heq, Admitted]
    simp only [reduceCtorEq, false_iff, true_iff]
    obtain rfl | rfl := hnb
    · exact ⟨.inr (.inl hbare), fun h => absurd (hbare.2.symm.trans h.2) (by decide)⟩
    · exact ⟨.inr (.inr hbare), fun h => absurd (hbare.2.symm.trans h.2) (by decide)⟩

/-- The slots of a well-formed filter are in range. -/
theorem RawFilter.bucket_toRaw {c : CuckooFilter} (hnum : c.numBuckets < 2 ^ 61) {i : Nat} (hi : i < c.numBuckets) :
    c.toRaw.bucket i = some (c.bucket i) := by
  have hlast := c.slot_lt hi ⟨3, by decide⟩
  have hlength := c.length_buckets
  simp only [cuckooBucketSize] at hlast hlength
  have hstart : i * cuckooBucketSize % 2 ^ 64 = i * cuckooBucketSize := by
    rw [cuckooBucketSize]
    omega
  have hstop : (i * cuckooBucketSize + cuckooBucketSize) % 2 ^ 64 = i * cuckooBucketSize + cuckooBucketSize := by
    rw [cuckooBucketSize]
    omega
  have hrange : i * cuckooBucketSize + cuckooBucketSize ≤ c.buckets.length := by
    rw [cuckooBucketSize]
    omega
  simp only [RawFilter.bucket, toRaw, hstart, hstop]
  rw [if_pos ⟨Nat.le_add_right _ _, hrange⟩, Nat.add_sub_cancel_left]
  rfl

/-- A lookup in a well-formed filter answers as its model does. -/
theorem RawFilter.maybeContains_toRaw {c : CuckooFilter} (hnum : c.numBuckets < 2 ^ 61) (hash : Hash) (key : Bytes) :
    c.toRaw.maybeContains hash key = some (c.maybeContains hash key) := by
  have hvalid := fingerprintAndIndex_valid hash c.pow_numBuckets key
  have halt := (isPairing_altIndex hash c.pow_numBuckets).alt_valid
    (fingerprintAndIndex hash c.numBuckets key).fp hvalid
  have hbuckets : c.toRaw.numBuckets = c.numBuckets := rfl
  rw [RawFilter.maybeContains, CuckooFilter.maybeContains, CuckooFilter.finds, hbuckets]
  rw [bucket_toRaw hnum hvalid, bucket_toRaw hnum halt]
  simp only [bind_some, map_some, bucketContains]
  cases (c.bucket (fingerprintAndIndex hash c.numBuckets key).bucket).contains _ <;> rfl

/-- The call does not panic, an error leaves the receiver as it was, and a filter that is
returned has its slots and answers every lookup. -/
structure RawFilter.Safe (c : RawFilter) (u : Unmarshalled RawFilter) : Prop where
  no_panic : u.ending ≠ .panicked
  unchanged : ∀ fault, u.ending = .failed fault → u.receiver = c
  slots : u.ending = .returned → u.receiver.buckets.length = 4 * u.receiver.numBuckets ∧
    ∀ hash key, u.receiver.maybeContains hash key ≠ none

theorem CuckooFilter.toRaw_slots {f : CuckooFilter} (hnum : f.numBuckets < 2 ^ 61) :
    f.toRaw.buckets.length = 4 * f.toRaw.numBuckets ∧ ∀ hash key, f.toRaw.maybeContains hash key ≠ none := by
  refine ⟨f.length_buckets.trans (mul_comm _ _), fun hash key => ?_⟩
  rw [RawFilter.maybeContains_toRaw hnum]
  exact some_ne_none _

theorem RawFilter.safe_iff : c.Safe (c.unmarshalBinary data) ↔ ¬ Oversized data := by
  obtain ⟨f, hnum, -, hwell, heq⟩ | ⟨fault, -, -, hfit, heq⟩ | ⟨hover, -, ⟨-, heq⟩ | ⟨nb, hlarge, -, heq⟩⟩ :=
    c.unmarshalBinary_cases data
  · refine iff_of_true ?_ hwell.not_oversized
    rw [heq]
    exact ⟨by simp, by simp, fun _ => toRaw_slots hnum⟩
  · refine iff_of_true ?_ hfit
    rw [heq]
    exact ⟨by simp, fun _ _ => rfl, by simp⟩
  · refine iff_of_false (fun hsafe => hsafe.no_panic (by rw [heq])) (not_not.mpr hover)
  · refine iff_of_false (fun hsafe => ?_) (not_not.mpr hover)
    have hslots := (hsafe.slots (by rw [heq])).1
    rw [heq] at hslots
    simp only [length_nil] at hslots
    omega

theorem RawFilter.allocated_le : (c.unmarshalBinary data).allocated ≤ data.length := by
  obtain ⟨f, -, -, -, heq⟩ | ⟨fault, -, -, -, heq⟩ | ⟨-, -, ⟨-, heq⟩ | ⟨nb, -, -, heq⟩⟩ :=
    c.unmarshalBinary_cases data
  · rw [heq]
    exact sub_le _ _
  all_goals
    rw [heq]
    exact zero_le _

/-- A filter that is returned has its slots unless its header was oversized. -/
theorem RawFilter.length_iff {c : RawFilter} {data : Bytes} (hend : (c.unmarshalBinary data).ending = .returned) :
    (c.unmarshalBinary data).receiver.buckets.length = 4 * (c.unmarshalBinary data).receiver.numBuckets ↔
      ¬ Oversized data := by
  refine ⟨fun hlength hover => ?_, fun hfit => (((c.safe_iff data).mpr hfit).slots hend).1⟩
  obtain ⟨f, -, -, hwell, -⟩ | ⟨fault, -, -, hfit, -⟩ | ⟨-, -, ⟨-, heq⟩ | ⟨nb, hlarge, -, heq⟩⟩ :=
    c.unmarshalBinary_cases data
  · exact hwell.not_oversized hover
  · exact hfit hover
  · rw [heq] at hend
    cases hend
  · rw [heq] at hlength
    simp only [length_nil] at hlength
    omega

variable {filters : List CuckooFilter}

namespace RawChain

theorem panics_cons {seg : Bytes} {segments : List Bytes} :
    Panics (seg :: segments) ↔ BareHeader seg (2 ^ 61) ∨ Admitted seg ∧ Panics segments := by
  constructor
  · rintro ⟨_ | ⟨first, before⟩, bad, after, heq, hbad, hbefore⟩
    · obtain ⟨rfl, rfl⟩ := cons.inj heq
      exact .inl hbad
    · obtain ⟨rfl, rfl⟩ := cons.inj heq
      obtain ⟨hfirst, hrest⟩ := forall_mem_cons.mp hbefore
      exact .inr ⟨hfirst, before, bad, after, rfl, hbad, hrest⟩
  · rintro (hbad | ⟨hseg, before, bad, after, rfl, hbad, hbefore⟩)
    · exact ⟨[], seg, segments, rfl, hbad, by simp⟩
    · exact ⟨seg :: before, bad, after, rfl, hbad, forall_mem_cons.mpr ⟨hseg, hbefore⟩⟩

/-- What the length prefixes and the headers say of the loop over the segments: when it panics,
when it returns, and when what it returns has all its slots. It allocates in proportion to
what it reads. -/
theorem readSegments_spec (n : Nat) (data : Bytes) : (readSegments n data).allocated ≤ 13 * data.length ∧
      ((readSegments n data).ending = .panicked ↔ Panics (frames n data)) ∧
      ((readSegments n data).ending = .returned ↔
        (frames n data).length = n ∧ ∀ seg ∈ frames n data, Admitted seg) ∧
      ((readSegments n data).ending = .returned →
        ((∀ f ∈ (readSegments n data).receiver, f.buckets.length = 4 * f.numBuckets) ↔
          ∀ seg ∈ frames n data, ¬ Oversized seg) ∧ ((∀ seg ∈ frames n data, ¬ Oversized seg) →
          ∀ f ∈ (readSegments n data).receiver, ∀ hash key, f.maybeContains hash key ≠ none)) := by
  have hnone : ¬ Panics [] := fun ⟨_, _, _, heq, _⟩ => by simp at heq
  induction n generalizing data with
  | zero => simp [readSegments, frames, hnone]
  | succ n ih =>
    rw [readSegments, frames]
    by_cases hshort : data.length < 4
    · simp [hshort, hnone]
    · rw [if_neg hshort]
      dsimp only
      by_cases htrunc : (data.drop 4).length < ofBigEndian (data.take 4)
      · rw [if_pos htrunc, if_pos (.inr htrunc)]
        simp [hnone]
      · rw [if_neg htrunc, if_neg (not_or.mpr ⟨hshort, htrunc⟩), panics_cons]
        generalize ofBigEndian (data.take 4) = l at htrunc
        obtain ⟨hrestAlloc, hrestPanic, hrestEnd, hrestSound⟩ := ih ((data.drop 4).drop l)
        have halloc := RawFilter.allocated_le .empty ((data.drop 4).take l)
        have hsafe := RawFilter.safe_iff .empty ((data.drop 4).take l)
        obtain ⟨hreturns, hpanics⟩ := RawFilter.ending_iff .empty ((data.drop 4).take l)
        rw [length_drop] at htrunc
        simp only [length_drop, length_take] at hrestAlloc halloc
        rw [length_cons, forall_mem_cons, ← hreturns, ← hpanics]
        by_cases hend : (RawFilter.empty.unmarshalBinary ((data.drop 4).take l)).ending = .returned
        · rw [if_pos hend]
          refine ⟨?_, ?_, ?_, fun hreturned => ⟨?_, fun hfit => ?_⟩⟩
          · dsimp only [filterBytes]
            omega
          · simp only [hrestPanic, hend, reduceCtorEq, false_or, true_and]
          · simp only [hrestEnd, hend, true_and, Nat.add_right_cancel_iff]
          · rw [forall_mem_cons, forall_mem_cons, (hrestSound hreturned).1, RawFilter.length_iff hend]
          · rw [forall_mem_cons] at hfit ⊢
            exact ⟨((hsafe.mpr hfit.1).slots hend).2, (hrestSound hreturned).2 hfit.2⟩
        · rw [if_neg hend]
          refine ⟨?_, ?_, ?_, fun hreturned => absurd hreturned hend⟩
          · dsimp only [filterBytes]
            omega
          · simp only [hend, false_and, or_false]
          · simp only [hend, false_and, and_false]

/-- The call does not panic, an error leaves the receiver as it was, and a chain that is
returned has the slots of all its segments and answers every lookup. -/
structure Safe (cc : RawChain) (u : Unmarshalled RawChain) : Prop where
  no_panic : u.ending ≠ .panicked
  unchanged : ∀ fault, u.ending = .failed fault → u.receiver = cc
  slots : u.ending = .returned → (∀ f ∈ u.receiver.sealed, f.buckets.length = 4 * f.numBuckets) ∧
    ∀ hash key, u.receiver.maybeContains hash key ≠ none

theorem maybeContains_ne_none {hash : Hash} {key : Bytes} {cc : RawChain}
    (hlookups : ∀ f ∈ cc.active.toList ++ cc.sealed, f.maybeContains hash key ≠ none) :
    cc.maybeContains hash key ≠ none := by
  unfold RawChain.maybeContains
  generalize cc.active.toList ++ cc.sealed = filters at hlookups
  induction filters with
  | nil => exact some_ne_none _
  | cons f filters ih =>
    obtain ⟨hf, hrest⟩ := forall_mem_cons.mp hlookups
    obtain ⟨found, hfound⟩ := ne_none_iff_exists'.mp hf
    rw [foldr_cons, hfound, bind_some]
    split
    · exact some_ne_none _
    · exact ih hrest

/-- Decoding a chain is safe unless its prefixes lead to a header of `2 ^ 61` buckets, or all its
segments are admitted and one of them has no slots. -/
theorem safe_iff : cc.Safe (cc.unmarshalBinary data) ↔ ¬ Overflows data := by
  have hfailed {fault : CuckooFault} {allocated : Nat} : cc.Safe ⟨cc, .failed fault, allocated⟩ :=
    ⟨by simp, fun _ _ => rfl, by simp⟩
  unfold RawChain.unmarshalBinary Overflows
  by_cases hshort : data.length < 4
  · rw [if_pos hshort]
    exact iff_of_true hfailed (fun hover => absurd hshort (Nat.not_lt.mpr hover.1))
  rw [if_neg hshort]
  dsimp only
  by_cases hcount : (data.length - 4) / 4 < ofBigEndian (data.take 4)
  · rw [if_pos hcount]
    exact iff_of_true hfailed (fun hover => absurd hcount (Nat.not_lt.mpr hover.2.1))
  rw [if_neg hcount]
  obtain ⟨-, hpanics, hreturns, hslots⟩ := readSegments_spec (ofBigEndian (data.take 4)) (data.drop 4)
  have hread : 4 ≤ data.length ∧ ofBigEndian (data.take 4) ≤ (data.length - 4) / 4 :=
    ⟨Nat.not_lt.mp hshort, Nat.not_lt.mp hcount⟩
  rw [← and_assoc, and_iff_right hread, ← and_assoc, ← hreturns, ← hpanics]
  generalize readSegments (ofBigEndian (data.take 4)) (data.drop 4) = u at hslots
  generalize frames (ofBigEndian (data.take 4)) (data.drop 4) = segments at hslots
  cases hend : u.ending with
  | returned =>
    obtain ⟨hiff, hlookups⟩ := hslots hend
    rw [if_pos rfl]
    simp only [reduceCtorEq, false_or, true_and, not_exists, not_and]
    rw [← hiff] at hlookups ⊢
    refine ⟨fun hsafe => (hsafe.slots rfl).1, fun hfit => ?_⟩
    refine ⟨by simp, by simp, fun _ => ⟨hfit, fun hash key => maybeContains_ne_none (fun f hf => ?_)⟩⟩
    exact hlookups hfit f (by simpa using hf) hash key
  | failed fault =>
    rw [if_neg (by simp)]
    exact iff_of_true hfailed (by simp)
  | panicked =>
    rw [if_neg (by simp)]
    exact iff_of_false (fun hsafe => hsafe.no_panic rfl) (by simp)

theorem allocated_le : (cc.unmarshalBinary data).allocated ≤ 15 * data.length := by
  unfold RawChain.unmarshalBinary
  have hloop := (readSegments_spec (ofBigEndian (data.take 4)) (data.drop 4)).1
  rw [length_drop] at hloop
  split
  · exact zero_le _
  · dsimp only
    split
    · exact zero_le _
    · split <;> dsimp only <;> omega

end RawChain

end swytch.effects
