import Mathlib.Data.Real.Basic
import Mathlib.Tactic.Ring
import Mathlib.Tactic.FieldSimp
import Swytch.Stn.Bounds
import Swytch.Stn.Clocks

namespace swytch.stn

open Option Int Except

/-- Real times of the samples agree with the clocks: in one domain, an elapsed time has the
sign of the elapsed ticks and differs from them by the rate error at most. -/
def RateBounded (ppm : Int) (T : Sample → ℝ) : Prop :=
  ∀ x y : Sample, x.domain = y.domain →
    |((y.tick.toInt - x.tick.toInt : Int) : ℝ)| * 10 ^ 6 / (10 ^ 6 + ppm) ≤ |T y - T x| ∧
      |T y - T x| ≤ |((y.tick.toInt - x.tick.toInt : Int) : ℝ)| * 10 ^ 6 / (10 ^ 6 - ppm) ∧
      0 ≤ ((y.tick.toInt - x.tick.toInt : Int) : ℝ) * (T y - T x)

theorem wrap_eq {x : Int} (hlow : -2 ^ 63 ≤ x) (hhigh : x ≤ infinity) : wrap x = x := by
  unfold wrap
  simp only [infinity] at hhigh
  omega

variable {a b d ppm : Int} {e : Err} {T : Sample → ℝ} {ceil : Bool}

theorem checkedSubtract_ok (ha : -2 ^ 63 ≤ a) (ha' : a ≤ infinity) (hb : -2 ^ 63 ≤ b) (hb' : b ≤ infinity)
    (h : checkedSubtract a b = .ok d) : d = a - b ∧ -2 ^ 63 ≤ d ∧ d ≤ infinity := by
  have hinf : infinity = 2 ^ 63 - 1 := rfl
  unfold checkedSubtract at h
  split at h
  · cases h
  · rename_i hrange
    cases h
    rw [wrap_eq (by omega) (by omega)]
    omega

theorem checkedSubtract_error (h : checkedSubtract a b = .error e) : e = .weight := by
  unfold checkedSubtract at h
  split at h
  · exact (error.inj h).symm
  · cases h

/-- Scaling a duration rounds the exact quotient down or up. -/
theorem scale_ok {denominator x : Int} (hd : 0 ≤ d) (hpos : 0 < denominator)
    (hsmall : denominator ≤ 2000000) (h : scale d denominator ceil = .ok x) : 0 ≤ x ∧ x ≤ infinity ∧
      (if ceil then d * 1000000 ≤ x * denominator else x * denominator ≤ d * 1000000) := by
  have hinf : infinity = 2 ^ 63 - 1 := rfl
  have hr := emod_nonneg d (by omega : denominator ≠ 0)
  have hr' := emod_lt_of_pos d hpos
  have hq : 0 ≤ d / denominator := ediv_nonneg hd (by omega)
  have hsplit := mul_ediv_add_emod d denominator
  have hproduct : wrap (d.tmod denominator * 1000000) = d % denominator * 1000000 := by
    rw [tmod_eq_emod_of_nonneg hd]
    exact wrap_eq (by omega) (by omega)
  have hfraction : scaleFraction d denominator ceil = d % denominator * 1000000 / denominator +
      if ceil ∧ d % denominator * 1000000 % denominator ≠ 0 then 1 else 0 := by
    unfold scaleFraction
    rw [hproduct, tdiv_eq_ediv_of_nonneg (by omega), tmod_eq_emod_of_nonneg (by omega)]
  have hg := emod_nonneg (d % denominator * 1000000) (by omega : denominator ≠ 0)
  have hg' := emod_lt_of_pos (d % denominator * 1000000) hpos
  have hf : 0 ≤ d % denominator * 1000000 / denominator := ediv_nonneg (by omega) (by omega)
  have hfle : d % denominator * 1000000 / denominator ≤ d % denominator * 1000000 := ediv_le_self _ (by omega)
  have hfsplit := mul_ediv_add_emod (d % denominator * 1000000) denominator
  have hfbound : 0 ≤ scaleFraction d denominator ceil ∧ scaleFraction d denominator ceil ≤ 2000000000001 := by
    rw [hfraction]
    split <;> omega
  unfold scale at h
  split at h
  · cases h
  · rename_i hcheck
    cases h
    rw [tdiv_eq_ediv_of_nonneg hd] at hcheck ⊢
    rw [tdiv_eq_ediv_of_nonneg (by omega)] at hcheck
    have hle : d / denominator * 1000000 + scaleFraction d denominator ceil ≤ infinity := by omega
    rw [wrap_eq (by omega) hle]
    refine ⟨by omega, hle, ?_⟩
    have hexpand : (d / denominator * 1000000 + scaleFraction d denominator ceil) * denominator =
        denominator * (d / denominator) * 1000000 + denominator * scaleFraction d denominator ceil := by ring
    rw [hexpand, hfraction]
    cases ceil with
    | false =>
      simp only [Bool.false_eq_true, false_and, if_false, add_zero]
      omega
    | true =>
      simp only [true_and, if_true]
      by_cases hzero : d % denominator * 1000000 % denominator = 0
      · rw [if_neg (not_not.mpr hzero), add_zero]
        omega
      · rw [if_pos hzero, mul_add, mul_one]
        omega

theorem scale_error {denominator : Int} (h : scale d denominator ceil = .error e) : e = .weight := by
  unfold scale at h
  split at h
  · exact (error.inj h).symm
  · cases h

/-- The bounds on a duration of `d` ticks contain every elapsed time that it can stand for. -/
theorem scaleBounds_ok {lower upper : Int} (hppm : 0 ≤ ppm) (hppm' : ppm < 1000000) (hd : 0 ≤ d)
    (h : scaleBounds ppm d = .ok (lower, upper)) : 0 ≤ lower ∧ lower ≤ infinity ∧ 0 ≤ upper ∧ upper ≤ infinity ∧
      ∀ t : ℝ, (d : ℝ) * 10 ^ 6 / (10 ^ 6 + ppm) ≤ t → t ≤ (d : ℝ) * 10 ^ 6 / (10 ^ 6 - ppm) →
        (lower : ℝ) ≤ t ∧ t ≤ (upper : ℝ) := by
  unfold scaleBounds at h
  cases hlower : scale d (1000000 + ppm) false with
  | error e => simp [hlower] at h
  | ok l =>
    cases hupper : scale d (1000000 - ppm) true with
    | error e => simp [hlower, hupper] at h
    | ok u =>
      simp only [hlower, hupper, ok.injEq, Prod.mk.injEq] at h
      obtain ⟨rfl, rfl⟩ := h
      obtain ⟨hl, hl', hdown⟩ := scale_ok hd (by omega) (by omega) hlower
      obtain ⟨hu, hu', hup⟩ := scale_ok hd (by omega) (by omega) hupper
      refine ⟨hl, hl', hu, hu', fun t ht ht' => ?_⟩
      simp only [Bool.false_eq_true, if_false] at hdown
      simp only [if_true] at hup
      have hslow : (0 : ℝ) < 10 ^ 6 + ppm := by
        have hcast : (0 : ℝ) ≤ ppm := cast_nonneg hppm
        linarith
      have hfast : (0 : ℝ) < 10 ^ 6 - ppm := by
        have hcast : (ppm : ℝ) < 1000000 := by exact_mod_cast hppm'
        linarith
      constructor
      · refine le_trans ?_ ht
        rw [le_div_iff₀ hslow]
        have hcast : ((l * (1000000 + ppm) : Int) : ℝ) ≤ ((d * 1000000 : Int) : ℝ) := cast_le.mpr hdown
        push_cast at hcast
        linarith
      · refine ht'.trans ?_
        rw [div_le_iff₀ hfast]
        have hcast : ((d * 1000000 : Int) : ℝ) ≤ ((u * (1000000 - ppm) : Int) : ℝ) := cast_le.mpr hup
        push_cast at hcast
        linarith

theorem scaleBounds_error (h : scaleBounds ppm d = .error e) : e = .weight := by
  unfold scaleBounds at h
  cases hlower : scale d (1000000 + ppm) false with
  | error e' =>
    rw [hlower] at h
    exact (error.inj h) ▸ scale_error hlower
  | ok l =>
    cases hupper : scale d (1000000 - ppm) true with
    | error e' =>
      simp only [hlower, hupper, error.injEq] at h
      exact h ▸ scale_error hupper
    | ok u => simp [hlower, hupper] at h

/-- The bounds on the time since the anchor are rounded outwards, also for a sample that is
older than the anchor. -/
theorem elapsed_sound (hppm : 0 ≤ ppm) (hppm' : ppm < 1000000) (hT : RateBounded ppm T)
    {x y : Sample} (hxy : x.domain = y.domain) {lower upper : Int}
    (h : elapsed ppm y.tick.toInt x.tick.toInt = .ok (lower, upper)) :
    (lower : ℝ) ≤ T y - T x ∧ T y - T x ≤ (upper : ℝ) ∧ -infinity ≤ lower ∧ lower ≤ infinity ∧
      -infinity ≤ upper ∧ upper ≤ infinity := by
  have hinf : infinity = 2 ^ 63 - 1 := rfl
  have hx := x.tick.le_toInt
  have hx' := x.tick.toInt_lt
  have hy := y.tick.le_toInt
  have hy' := y.tick.toInt_lt
  obtain ⟨hslow, hfast, hsign⟩ := hT x y hxy
  unfold elapsed at h
  cases hd : checkedSubtract y.tick.toInt x.tick.toInt with
  | error e => simp [hd] at h
  | ok d =>
    obtain ⟨rfl, hlow, hhigh⟩ := checkedSubtract_ok (by omega) (by omega) (by omega) (by omega) hd
    simp only [hd] at h
    split at h
    · cases h
    · rename_i hmin
      by_cases hneg : y.tick.toInt - x.tick.toInt < 0
      · rw [if_pos hneg, wrap_eq (by omega) (by omega)] at h
        cases hbounds : scaleBounds ppm (-(y.tick.toInt - x.tick.toInt)) with
        | error e =>
          rw [hbounds] at h
          cases h
        | ok b =>
          obtain ⟨hl, hl', hu, hu', hcontain⟩ := scaleBounds_ok hppm hppm' (by omega) hbounds
          simp only [hbounds, Except.map, Except.ok.injEq, Prod.mk.injEq] at h
          rw [wrap_eq (by omega) (by omega), wrap_eq (by omega) (by omega)] at h
          obtain ⟨rfl, rfl⟩ := h
          have hcast : ((y.tick.toInt - x.tick.toInt : Int) : ℝ) < 0 := cast_lt_zero.mpr hneg
          have ht : T y - T x ≤ 0 := by
            by_contra hpos
            push Not at hpos
            exact absurd hsign (not_le.mpr (mul_neg_of_neg_of_pos hcast hpos))
          rw [abs_of_neg hcast, abs_of_nonpos ht] at hslow hfast
          rw [← cast_neg] at hslow hfast
          obtain ⟨hge, hle⟩ := hcontain (-(T y - T x)) hslow hfast
          push_cast
          exact ⟨by linarith, by linarith, by omega, by omega, by omega, by omega⟩
      · rw [if_neg hneg] at h
        obtain ⟨hl, hl', hu, hu', hcontain⟩ := scaleBounds_ok hppm hppm' (by omega) h
        have hcast : (0 : ℝ) ≤ ((y.tick.toInt - x.tick.toInt : Int) : ℝ) := cast_nonneg (by omega)
        have ht : 0 ≤ T y - T x := by
          by_contra hpos
          push Not at hpos
          rcases hcast.lt_or_eq with hlt | heq
          · exact absurd hsign (not_le.mpr (mul_neg_of_pos_of_neg hlt hpos))
          · rw [← heq, abs_zero, zero_mul, zero_div] at hfast
            exact absurd (abs_nonpos_iff.mp hfast) hpos.ne
        rw [abs_of_nonneg hcast, abs_of_nonneg ht] at hslow hfast
        obtain ⟨hge, hle⟩ := hcontain (T y - T x) hslow hfast
        exact ⟨hge, hle, by omega, hl', by omega, hu'⟩

theorem elapsed_error {tick anchor : Int} (h : elapsed ppm tick anchor = .error e) : e = .weight := by
  unfold elapsed at h
  cases hd : checkedSubtract tick anchor with
  | error e' =>
    rw [hd] at h
    exact (error.inj h).symm
  | ok d =>
    simp only [hd] at h
    split at h
    · exact (error.inj h).symm
    · split at h
      · cases hbounds : scaleBounds ppm (wrap (-d)) with
        | error e' =>
          simp only [hbounds, Except.map, Except.error.injEq] at h
          exact h ▸ scaleBounds_error hbounds
        | ok b => simp [hbounds, Except.map] at h
      · exact scaleBounds_error h

/-- A sample that is older by its clock is older. -/
theorem RateBounded.lt_of_tick_lt (hppm : 0 ≤ ppm) (hT : RateBounded ppm T) {x y : Sample}
    (hxy : x.domain = y.domain) (hlt : x.tick.toInt < y.tick.toInt) : T x < T y := by
  obtain ⟨hslow, _, hsign⟩ := hT x y hxy
  have hcast : (0 : ℝ) < ((y.tick.toInt - x.tick.toInt : Int) : ℝ) := cast_pos.mpr (by omega)
  have hrate : (0 : ℝ) < 10 ^ 6 + ppm := by
    have hnonneg : (0 : ℝ) ≤ ppm := cast_nonneg hppm
    linarith
  have hpos : 0 < |T y - T x| := by
    refine lt_of_lt_of_le ?_ hslow
    rw [abs_of_pos hcast]
    positivity
  have hnonneg : 0 ≤ T y - T x := by
    by_contra hneg
    push Not at hneg
    exact absurd hsign (not_le.mpr (mul_neg_of_pos_of_neg hcast hneg))
  rw [abs_of_nonneg hnonneg] at hpos
  linarith

/-- A sum of three bounds that is not representable stands for no bound. -/
theorem le_outwardSum {c : Int} (ha : -2 ^ 63 ≤ a) (ha' : a ≤ infinity) (hb : -2 ^ 63 ≤ b) (hb' : b ≤ infinity)
    (hc : -2 ^ 63 ≤ c) (hc' : c ≤ infinity) :
    (outwardSum a b c = infinity ∨ outwardSum a b c = a + b + c) ∧ -2 ^ 63 ≤ outwardSum a b c ∧
      outwardSum a b c ≤ infinity := by
  have hinf : infinity = 2 ^ 63 - 1 := rfl
  unfold outwardSum outwardAdd
  by_cases hfirst : 0 < b ∧ infinity - b < a ∨ b < 0 ∧ a < -2 ^ 63 - b
  · rw [if_pos hfirst]
    exact ⟨.inl rfl, by simp only [bind_none, getD_none]; omega, le_refl _⟩
  · rw [if_neg hfirst, wrap_eq (by omega) (by omega)]
    simp only [bind_some]
    by_cases hsecond : 0 < c ∧ infinity - c < a + b ∨ c < 0 ∧ a + b < -2 ^ 63 - c
    · rw [if_pos hsecond]
      exact ⟨.inl rfl, by simp only [getD_none]; omega, le_refl _⟩
    · rw [if_neg hsecond, wrap_eq (by omega) (by omega)]
      simp only [getD_some]
      exact ⟨.inr trivial, by omega, by omega⟩

end swytch.stn
