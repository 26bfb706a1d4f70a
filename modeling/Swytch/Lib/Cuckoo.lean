import Mathlib.Algebra.Order.BigOperators.Group.Finset
import Mathlib.Tactic.Common

namespace swytch.lib

/-- A fingerprint and one of the two buckets it may lie in. -/
structure Print (ι φ : Type) where
  fp : φ
  bucket : ι
deriving DecidableEq, Repr

/-- The other bucket is computed from a bucket and the fingerprint alone, and back again, so
that a fingerprint can be moved without the key it was taken from. -/
structure IsPairing {ι φ : Type} (valid : ι → Prop) (alt : ι → φ → ι) : Prop where
  alt_valid : ∀ {i} (f), valid i → valid (alt i f)
  alt_alt : ∀ {i} (f), valid i → alt (alt i f) f = i

/-- Two prints that are looked up in the same buckets. -/
def SameHome {ι φ : Type} (alt : ι → φ → ι) (p q : Print ι φ) : Prop :=
  p.fp = q.fp ∧ (p.bucket = q.bucket ∨ alt p.bucket p.fp = q.bucket)

def Print.partner {ι φ : Type} (alt : ι → φ → ι) (p : Print ι φ) : Print ι φ :=
  ⟨p.fp, alt p.bucket p.fp⟩

/-- One of the two buckets of a print has its fingerprint in a slot. -/
def Lodged {ι σ φ : Type} (alt : ι → φ → ι) (T : ι → σ → φ) (p : Print ι φ) : Prop :=
  ∃ s, T p.bucket s = p.fp ∨ T (alt p.bucket p.fp) s = p.fp

/-- A table after one slot was written. -/
def putSlot {ι σ φ : Type} [DecidableEq ι] [DecidableEq σ] (T : ι → σ → φ) (i : ι) (s : σ) (f : φ) : ι → σ → φ :=
  fun j t => if j = i ∧ t = s then f else T j t

/-- In how many slots of its buckets a print lies. -/
def copies {ι σ φ : Type} [DecidableEq ι] [DecidableEq φ] [Fintype σ] (alt : ι → φ → ι) (T : ι → σ → φ)
    (p : Print ι φ) : Nat :=
  ∑ x ∈ {p.bucket, alt p.bucket p.fp} ×ˢ Finset.univ, if T x.1 x.2 = p.fp then 1 else 0

/-- The print in hand after evictions from the given slots, each from the other bucket of the
print evicted before it, unless one of them comes to a bucket with an empty slot. -/
def stranded {ι σ φ : Type} [DecidableEq ι] [DecidableEq σ] [DecidableEq φ] [Fintype σ] (alt : ι → φ → ι)
    (empty : φ) : List σ → (ι → σ → φ) → Print ι φ → Option (Print ι φ)
  | [], _, p => some p
  | s :: slots, T, p =>
    let evicted : Print ι φ := ⟨T p.bucket s, alt p.bucket (T p.bucket s)⟩
    let T' := putSlot T p.bucket s p.fp
    if ∃ t, T' evicted.bucket t = empty then none else stranded alt empty slots T' evicted

variable {ι φ σ : Type} {alt : ι → φ → ι} {valid : ι → Prop} {p q : Print ι φ} {T : ι → σ → φ}

theorem SameHome.refl (p : Print ι φ) : SameHome alt p p :=
  ⟨rfl, .inl rfl⟩

theorem SameHome.symm (halt : IsPairing valid alt) (hp : valid p.bucket) (hsame : SameHome alt p q) :
    SameHome alt q p := by
  obtain ⟨hfp, hbucket | hbucket⟩ := hsame
  · exact ⟨hfp.symm, .inl hbucket.symm⟩
  · refine ⟨hfp.symm, .inr ?_⟩
    rw [← hbucket, ← hfp, halt.alt_alt p.fp hp]

theorem SameHome.trans {r : Print ι φ} (halt : IsPairing valid alt) (hp : valid p.bucket)
    (hpq : SameHome alt p q) (hqr : SameHome alt q r) : SameHome alt p r := by
  obtain ⟨hfp, hbucket⟩ := hpq
  obtain ⟨hfp', hbucket'⟩ := hqr
  refine ⟨hfp.trans hfp', ?_⟩
  rw [← hfp] at hbucket'
  obtain hbucket | hbucket := hbucket
  · rwa [hbucket]
  · rw [← hbucket, halt.alt_alt p.fp hp] at hbucket'
    exact hbucket'.symm

/-- It does not matter which of its buckets a print names. -/
theorem sameHome_partner_iff (halt : IsPairing valid alt) (hp : valid p.bucket)
    (hq : valid q.bucket) : SameHome alt p (q.partner alt) ↔ SameHome alt p q := by
  constructor
  · rintro ⟨hfp, hbucket | hbucket⟩
    · refine ⟨hfp, .inr ?_⟩
      rw [hbucket, hfp]
      exact halt.alt_alt q.fp hq
    · refine ⟨hfp, .inl ?_⟩
      rw [← halt.alt_alt p.fp hp, hbucket, hfp]
      exact halt.alt_alt q.fp hq
  · rintro ⟨hfp, hbucket | hbucket⟩
    · refine ⟨hfp, .inr ?_⟩
      rw [hbucket, hfp]
      rfl
    · refine ⟨hfp, .inl ?_⟩
      rw [← halt.alt_alt p.fp hp, hbucket, hfp]
      rfl

theorem lodged_iff : Lodged alt T p ↔ ∃ i s, SameHome alt p ⟨T i s, i⟩ := by
  constructor
  · rintro ⟨s, h | h⟩
    · exact ⟨p.bucket, s, h.symm, .inl rfl⟩
    · exact ⟨alt p.bucket p.fp, s, h.symm, .inr rfl⟩
  · rintro ⟨i, s, hfp, hbucket⟩
    dsimp only at hfp hbucket
    obtain rfl | rfl := hbucket
    · exact ⟨s, .inl hfp.symm⟩
    · exact ⟨s, .inr hfp.symm⟩

theorem lodged_of_sameHome (halt : IsPairing valid alt) (hp : valid p.bucket)
    (hsame : SameHome alt p q) (hq : Lodged alt T q) : Lodged alt T p := by
  obtain ⟨hfp, hbucket | hbucket⟩ := hsame
  · unfold Lodged at hq ⊢
    rwa [hfp, hbucket]
  · obtain ⟨s, hs⟩ := hq
    rw [← hfp, ← hbucket, halt.alt_alt p.fp hp] at hs
    exact ⟨s, hs.symm⟩

instance [DecidableEq ι] [DecidableEq φ] : Decidable (SameHome alt p q) := inferInstanceAs (Decidable (_ ∧ _))

instance [DecidableEq φ] [Fintype σ] : Decidable (Lodged alt T p) := inferInstanceAs (Decidable (∃ _, _))

section Copies

variable [DecidableEq ι] [DecidableEq φ] [Fintype σ] {i : ι} {s : σ} {f : φ}

theorem copies_pos_iff : 0 < copies alt T p ↔ Lodged alt T p := by
  rw [copies, Finset.sum_pos_iff]
  constructor
  · rintro ⟨⟨i, s⟩, hmem, hpos⟩
    have hlodged : T i s = p.fp := by
      by_contra hne
      simp [hne] at hpos
    obtain rfl | rfl : i = p.bucket ∨ i = alt p.bucket p.fp := by simpa using hmem
    · exact ⟨s, .inl hlodged⟩
    · exact ⟨s, .inr hlodged⟩
  · rintro ⟨s, h | h⟩
    · exact ⟨(p.bucket, s), by simp, by simp [h]⟩
    · exact ⟨(alt p.bucket p.fp, s), by simp, by simp [h]⟩

variable [DecidableEq σ]

/-- Nothing but the overwritten print is lost, and nothing but the written one is gained. -/
theorem copies_putSlot (T : ι → σ → φ) (i : ι) (s : σ) (f : φ) (p : Print ι φ) :
    copies alt (putSlot T i s f) p + (if SameHome alt p ⟨T i s, i⟩ then 1 else 0) =
      copies alt T p + (if SameHome alt p ⟨f, i⟩ then 1 else 0) := by
  have helsewhere (x : ι × σ) (hx : x ≠ (i, s)) : putSlot T i s f x.1 x.2 = T x.1 x.2 :=
    if_neg (fun hhere => hx (Prod.ext hhere.1 hhere.2))
  have hhere : putSlot T i s f i s = f := if_pos ⟨rfl, rfl⟩
  have hmem : (i, s) ∈ ({p.bucket, alt p.bucket p.fp} ×ˢ Finset.univ : Finset (ι × σ)) ↔
      p.bucket = i ∨ alt p.bucket p.fp = i := by simp [eq_comm]
  unfold copies
  generalize ({p.bucket, alt p.bucket p.fp} ×ˢ Finset.univ : Finset (ι × σ)) = home at hmem
  have hcongr (slots : Finset (ι × σ)) (hslots : (i, s) ∉ slots) :
      (∑ x ∈ slots, if putSlot T i s f x.1 x.2 = p.fp then 1 else 0) =
        ∑ x ∈ slots, if T x.1 x.2 = p.fp then 1 else 0 :=
    Finset.sum_congr rfl fun x hx => by rw [helsewhere x (fun heq => hslots (heq ▸ hx))]
  by_cases hhome : (i, s) ∈ home
  · rw [← Finset.add_sum_erase _ _ hhome, ← Finset.add_sum_erase _ _ hhome,
      hcongr _ (Finset.notMem_erase _ _)]
    simp only [hhere, SameHome, hmem.mp hhome, and_true, eq_comm (a := p.fp)]
    omega
  · rw [hcongr home hhome]
    simp only [SameHome, mt hmem.mpr hhome, and_false, if_false]

/-- A fingerprint put in an empty slot. -/
theorem copies_fill (hempty : p.fp ≠ T i s) :
    copies alt (putSlot T i s f) p = copies alt T p + (if SameHome alt p ⟨f, i⟩ then 1 else 0) := by
  rw [← copies_putSlot T i s f p, if_neg (fun hsame => hempty hsame.1), Nat.add_zero]

/-- A fingerprint put in the place of another one, which is then on its way to its other
bucket: together with the one on its way, the table holds what it held before. -/
theorem copies_kick (halt : IsPairing valid alt) (hp : valid p.bucket) (hi : valid i) :
    copies alt (putSlot T i s f) p + (if SameHome alt p ⟨T i s, alt i (T i s)⟩ then 1 else 0) =
      copies alt T p + (if SameHome alt p ⟨f, i⟩ then 1 else 0) := by
  have hpartner := sameHome_partner_iff (q := ⟨T i s, i⟩) halt hp hi
  rw [← copies_putSlot T i s f p]
  simp only [← hpartner, Print.partner]

variable {empty : φ} {slots : List σ}

theorem stranded_of_room {t : σ} (hroom : putSlot T i s f (alt i (T i s)) t = empty) :
    stranded alt empty (s :: slots) T ⟨f, i⟩ = none :=
  if_pos ⟨t, hroom⟩

theorem stranded_of_full (hfull : ∀ t, putSlot T i s f (alt i (T i s)) t ≠ empty) :
    stranded alt empty (s :: slots) T ⟨f, i⟩ = stranded alt empty slots (putSlot T i s f) ⟨T i s, alt i (T i s)⟩ :=
  if_neg (not_exists.mpr hfull)

end Copies

end swytch.lib
