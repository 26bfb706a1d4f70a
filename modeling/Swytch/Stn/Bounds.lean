import Swytch.Lib.Elimination
import Swytch.Stn.Network

namespace swytch.stn

open WithTop Function

/-- The bound that a weight stands for. -/
def bound (w : Int) : WithTop Int := if w = infinity then ⊤ else w

/-- The call of `pathSum` computes the sum of its arguments; a sum that is infinite or too
large for an `int64` becomes infinite, and none is too small for one. -/
structure SumExact (a b : Int) : Prop where
  no_underflow : -2 ^ 63 ≤ a + b
  value : pathSum a b = if a = infinity ∨ b = infinity ∨ infinity < a + b then infinity else a + b

theorem bound_infinity : bound infinity = ⊤ := if_pos rfl

variable {w a b : Int} {u v source : Nat} {C : Set (lib.Constraint Nat)} {E : Nat → Nat → WithTop Int}
  {R R' : Nat → Nat → Prop}

theorem bound_of_lt (hw : w < infinity) : bound w = w := by
  rw [bound, if_neg (by omega)]

theorem bound_zero : bound 0 = 0 := bound_of_lt (by decide)

theorem bound_le_coe {l : Int} (hl : l < infinity) : bound w ≤ l ↔ w ≤ l := by
  unfold bound
  split
  · rename_i hinf
    simp only [top_le_iff, coe_ne_top, false_iff]
    omega
  · rw [coe_le_coe]

theorem bound_mono {w' : Int} (hle : w ≤ w') (hw' : w' ≤ infinity) : bound w ≤ bound w' := by
  by_cases hinf : w' = infinity
  · rw [hinf, bound_infinity]
    exact le_top
  · rw [bound_of_lt (show w' < infinity by omega), bound_le_coe (by omega)]
    exact hle

theorem bound_min {w' : Int} (hw : w ≤ infinity) (hw' : w' ≤ infinity) :
    bound (min w w') = min (bound w) (bound w') := by
  rcases le_total w w' with hle | hle
  · rw [min_eq_left hle, min_eq_left (bound_mono hle hw')]
  · rw [min_eq_right hle, min_eq_right (bound_mono hle hw)]

theorem pathSum_le_infinity (a b : Int) : pathSum a b ≤ infinity := by
  unfold pathSum wrap
  split
  · exact le_refl _
  · simp only [infinity]
    omega

/-- Arguments far from the smallest `int64` are summed up exactly. -/
theorem sumExact_of_le (ha : -2 ^ 62 ≤ a) (ha' : a ≤ infinity) (hb : -2 ^ 62 ≤ b) (hb' : b ≤ infinity) :
    SumExact a b := by
  have hinf : infinity = 2 ^ 63 - 1 := rfl
  refine ⟨by omega, ?_⟩
  unfold pathSum
  by_cases hlarge : a = infinity ∨ b = infinity ∨ infinity < a + b
  · rw [if_pos hlarge, if_pos (by omega)]
  · rw [if_neg hlarge, if_neg (by omega)]
    unfold wrap
    omega

theorem SumExact.add_le (h : SumExact a b) : bound a + bound b ≤ bound (pathSum a b) := by
  rw [h.value]
  split
  · rw [bound_infinity]
    exact le_top
  · rename_i hfin
    rw [bound, bound, bound, if_neg (by tauto), if_neg (by tauto)]
    split
    · exact le_top
    · rw [coe_add]

theorem SumExact.eq_coe {l : Int} (h : SumExact a b) (hsum : bound a + bound b = l) (hl : l < infinity) :
    pathSum a b = l := by
  have ha : a ≠ infinity := by
    rintro rfl
    rw [bound_infinity, WithTop.top_add] at hsum
    exact coe_ne_top hsum.symm
  have hb : b ≠ infinity := by
    rintro rfl
    rw [bound_infinity, WithTop.add_top] at hsum
    exact coe_ne_top hsum.symm
  rw [bound, bound, if_neg ha, if_neg hb, ← coe_add, coe_inj] at hsum
  rw [h.value, if_neg (by omega), hsum]

/-- All distances are infinite or small against an `int64`. -/
def Small (D : Nat → Nat → WithTop Int) : Prop := ∀ u v (l : Int), D u v = l → |l| < 2 ^ 60

theorem Small.lt_of_le_bound {D : Nat → Nat → WithTop Int} (hsmall : Small D) (hle : D u v ≤ bound w) :
    -2 ^ 60 < w := by
  by_cases hinf : w = infinity
  · simp only [hinf, infinity]
    omega
  · rw [bound, if_neg hinf] at hle
    cases hd : D u v with
    | top =>
      rw [hd, top_le_iff] at hle
      exact absurd hle coe_ne_top
    | coe l =>
      rw [hd, coe_le_coe] at hle
      have habs := abs_lt.mp (hsmall u v l hd)
      omega

/-- The values found by relaxing edges, starting from `source`: none is below the distance
`E`, and a distance that is met along a relaxed edge is found. -/
structure Relaxed (E : Nat → Nat → WithTop Int) (source : Nat) (f : Nat → Int) (R : Nat → Nat → Prop) : Prop where
  le_infinity : ∀ x, f x ≤ infinity
  sound : ∀ x, E source x ≤ bound (f x)
  start : f source ≤ 0
  along : ∀ {v u}, R v u → ∀ {l : Int}, E source u = l → bound (f v) + E v u = l → bound (f u) ≤ l

variable {f : Nat → Int}

namespace Relaxed

theorem init (h : lib.IsDistance C E) (source : Nat) :
    Relaxed E source (update (fun _ => infinity) source 0) (fun _ _ => False) := by
  refine ⟨fun x => ?_, fun x => ?_, ?_, fun hR => hR.elim⟩
  · rw [update_apply]
    split <;> decide
  · rw [update_apply]
    split
    · rename_i hx
      rw [hx, h.self, bound_zero]
    · rw [bound_infinity]
      exact le_top
  · rw [update_self]

theorem mono (h : Relaxed E source f R) (hsub : ∀ v u, R' v u → R v u) : Relaxed E source f R' :=
  ⟨h.le_infinity, h.sound, h.start, fun hR => h.along (hsub _ _ hR)⟩

/-- An edge whose start was not reached needs no relaxation. -/
theorem of_infinity (h : Relaxed E source f R) (hnew : ∀ v u, R' v u → R v u ∨ f v = infinity) :
    Relaxed E source f R' := by
  refine ⟨h.le_infinity, h.sound, h.start, fun {v u} hR l hl hsum => ?_⟩
  cases hnew v u hR with
  | inl hold => exact h.along hold hl hsum
  | inr hinf =>
    rw [hinf, bound_infinity, WithTop.top_add] at hsum
    exact absurd hsum.symm coe_ne_top

/-- Relax the edge from `v` to `u`, which no relaxed edge starts from. -/
theorem relax (h : Relaxed E source f R) (hvu : v ≠ u) (hfresh : ∀ y, ¬ R u y) {x : Int} (hx : x ≤ infinity)
    (hsound : E source u ≤ bound x) (hfound : ∀ l : Int, E source u = l → bound (f v) + E v u = l → bound x ≤ l) :
    Relaxed E source (update f u (min (f u) x)) (fun v' u' => R v' u' ∨ v' = v ∧ u' = u) := by
  have hle : ∀ y, update f u (min (f u) x) y ≤ f y := by
    intro y
    rw [update_apply]
    split
    · rename_i hy
      exact hy ▸ min_le_left _ _
    · exact le_refl _
  refine ⟨fun y => (hle y).trans (h.le_infinity y), fun y => ?_, (hle source).trans h.start, ?_⟩
  · rw [update_apply]
    split
    · rename_i hy
      rw [hy, bound_min (h.le_infinity u) hx]
      exact le_min (h.sound u) hsound
    · exact h.sound y
  · intro v' u' hR l hl hsum
    cases hR with
    | inl hold =>
      have hv' : v' ≠ u := fun heq => hfresh u' (heq ▸ hold)
      rw [update_of_ne hv'] at hsum
      exact (bound_mono (hle u') (h.le_infinity u')).trans (h.along hold hl hsum)
    | inr hnew =>
      obtain ⟨rfl, rfl⟩ := hnew
      rw [update_of_ne hvu] at hsum
      rw [update_self]
      exact (bound_mono (min_le_right _ _) hx).trans (hfound l hl hsum)

/-- The distance to the source is found. -/
theorem at_source (hE : lib.IsDistance C E) (h : Relaxed E source f R) : bound (f source) = E source source := by
  apply le_antisymm _ (h.sound source)
  rw [hE.self, ← bound_zero]
  exact bound_mono h.start (by decide)

end Relaxed

/-- A sum along an edge is a value for its end that misses no distance. -/
theorem sum_along_edge (hE : lib.IsDistance C E) (hsmall : Small E) (ha : a ≤ infinity)
    (hsound : E source v ≤ bound a) (hw : w ≤ infinity) (htight : bound w = E v u) :
    SumExact a w ∧ SumExact w a ∧ E source u ≤ bound (pathSum a w) ∧ pathSum w a = pathSum a w ∧
      ∀ l : Int, E source u = l → bound a + E v u = l → bound (pathSum a w) ≤ l := by
  have halow := hsmall.lt_of_le_bound hsound
  have hwlow := hsmall.lt_of_le_bound (u := v) (v := u) htight.ge
  have hexact : SumExact a w := sumExact_of_le (by omega) ha (by omega) hw
  have hexact' : SumExact w a := sumExact_of_le (by omega) hw (by omega) ha
  refine ⟨hexact, hexact', ?_, ?_, fun l hl hsum => ?_⟩
  · calc E source u ≤ E source v + E v u := hE.triangle _ _ _
      _ ≤ bound a + bound w := by
        rw [htight]
        gcongr
      _ ≤ bound (pathSum a w) := hexact.add_le
  · rw [hexact.value, hexact'.value, add_comm w a]
    congr 1
    apply propext
    tauto
  · have habs := abs_lt.mp (hsmall source u l hl)
    have hlt : l < infinity := by
      simp only [infinity]
      omega
    rw [hexact.eq_coe (htight ▸ hsum) hlt, bound_of_lt hlt]

end swytch.stn
