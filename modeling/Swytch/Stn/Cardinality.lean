import Mathlib.Data.List.Nodup
import Mathlib.Logic.Function.Basic

namespace swytch.stn

open Option Function List

/-- The vertices by the number of already visited neighbours. A bucket is the linked list
of the vertices with one number, its head first; a removed vertex has no number. `max`
is the bucket the search for a vertex starts from, `none` for a negative one. -/
structure Cardinality where
  first : Nat → List Nat
  count : Nat → Option Nat
  max : Option Nat

def newCardinality (n : Nat) : Cardinality where
  first := update (fun _ => []) 0 (range n).reverse
  count v := if v < n then some 0 else none
  max := some 0

variable {q : Cardinality} {v : Nat}

namespace Cardinality

def contains (q : Cardinality) (v : Nat) : Bool := (q.count v).isSome

def remove (q : Cardinality) (v : Nat) : Cardinality :=
  match q.count v with
  | none => q
  | some count =>
    { q with
      first := update q.first count ((q.first count).erase v)
      count := update q.count v none }

def increment (q : Cardinality) (v : Nat) : Cardinality :=
  match q.count v with
  | none => q
  | some count =>
    { first := update (q.remove v).first (count + 1) (v :: (q.remove v).first (count + 1))
      count := update q.count v (some (count + 1))
      max := some (q.max.elim (count + 1) fun m => Nat.max m (count + 1)) }

/-- The first bucket that is not empty, downwards from one of them. -/
def lower (first : Nat → List Nat) : Nat → Option Nat
  | 0 => if first 0 = [] then none else some 0
  | m + 1 => if first (m + 1) = [] then lower first m else some (m + 1)

/-- A vertex with the largest number, `none` if all are removed. -/
def maximum (q : Cardinality) : Cardinality × Option Nat :=
  let max := q.max.bind (lower q.first)
  ({ q with max := max }, max.bind fun m => (q.first m).head?)

/-- The buckets hold the vertices under their numbers, and none above `max`. -/
structure Valid (q : Cardinality) : Prop where
  mem : ∀ v k, v ∈ q.first k ↔ q.count v = some k
  nodup : ∀ k, (q.first k).Nodup
  above : ∀ k, q.first k ≠ [] → ∃ m, q.max = some m ∧ k ≤ m

theorem contains_iff : q.contains v = true ↔ ∃ k, q.count v = some k :=
  isSome_iff_exists

theorem valid_new (n : Nat) : (newCardinality n).Valid := by
  refine ⟨fun v k => ?_, fun k => ?_, fun k hk => ?_⟩
  · by_cases hk : k = 0
    · subst hk
      simp [newCardinality]
    · have hne : ¬ 0 = k := fun h => hk h.symm
      simp [newCardinality, hk, hne]
  · by_cases hk : k = 0
    · subst hk
      simp [newCardinality, nodup_range]
    · simp [newCardinality, hk]
  · by_cases hzero : k = 0
    · exact ⟨0, rfl, by omega⟩
    · simp [newCardinality, hzero] at hk

theorem count_remove (q : Cardinality) (v : Nat) : (q.remove v).count = update q.count v none := by
  unfold remove
  split
  · rename_i hnone
    rw [← hnone, update_eq_self]
  · rfl

theorem Valid.remove (h : q.Valid) (v : Nat) : (q.remove v).Valid := by
  unfold Cardinality.remove
  split
  · exact h
  · rename_i count hcount
    refine ⟨fun u k => ?_, fun k => ?_, fun k hk => ?_⟩
    · by_cases huv : u = v
      · subst huv
        by_cases hk : k = count
        · subst hk
          simp [(h.nodup k).mem_erase_iff]
        · simp [hk, h.mem, hcount, Ne.symm hk]
      · by_cases hk : k = count
        · subst hk
          simp [huv, (h.nodup k).mem_erase_iff, h.mem]
        · simp [huv, hk, h.mem]
    · by_cases hk : k = count
      · subst hk
        simp [(h.nodup k).erase v]
      · simp [hk, h.nodup k]
    · apply h.above k
      intro hempty
      by_cases heq : k = count
      · subst heq
        simp [hempty] at hk
      · simp [heq, hempty] at hk

theorem count_increment {k : Nat} (hcount : q.count v = some k) :
    (q.increment v).count = update q.count v (some (k + 1)) := by
  unfold increment
  rw [hcount]

theorem Valid.increment (h : q.Valid) (v : Nat) : (q.increment v).Valid := by
  unfold Cardinality.increment
  split
  · exact h
  · rename_i count hcount
    have hremove := h.remove v
    have hgone : ∀ k, v ∉ (q.remove v).first k := by
      intro k hmem
      rw [hremove.mem, count_remove, update_self] at hmem
      cases hmem
    refine ⟨fun u k => ?_, fun k => ?_, fun k hk => ?_⟩
    · by_cases huv : u = v
      · subst huv
        by_cases hk : k = count + 1
        · subst hk
          simp
        · simp [hk, hgone, Ne.symm hk]
      · have hold : u ∈ (q.remove v).first k ↔ q.count u = some k := by
          rw [hremove.mem, count_remove, update_of_ne huv]
        by_cases hk : k = count + 1
        · subst hk
          simp [huv, hold]
        · simp [huv, hk, hold]
    · by_cases hk : k = count + 1
      · subst hk
        simp [hgone, hremove.nodup]
      · simp [hk, hremove.nodup]
    · refine ⟨_, rfl, ?_⟩
      by_cases heq : k = count + 1
      · cases q.max with
        | none => simp [heq]
        | some m =>
          subst heq
          exact Nat.le_max_right _ _
      · simp only [update_of_ne heq] at hk
        obtain ⟨m, hm, hle⟩ := hremove.above k hk
        have hmax : (q.remove v).max = q.max := by
          simp [Cardinality.remove, hcount]
        rw [hmax] at hm
        rw [hm]
        exact Nat.le_trans hle (Nat.le_max_left _ _)

theorem lower_spec (first : Nat → List Nat) (m : Nat) : (lower first m = none ∧ ∀ k ≤ m, first k = []) ∨
      ∃ k, lower first m = some k ∧ k ≤ m ∧ first k ≠ [] ∧ ∀ j ≤ m, k < j → first j = [] := by
  induction m with
  | zero =>
    unfold lower
    split
    · rename_i hempty
      refine .inl ⟨rfl, fun k hk => ?_⟩
      obtain rfl : k = 0 := by omega
      exact hempty
    · rename_i hne
      exact .inr ⟨0, rfl, Nat.le_refl 0, hne, fun j hj hlt => by omega⟩
  | succ m ih =>
    unfold lower
    split
    · rename_i hempty
      have htop : ∀ j ≤ m + 1, ¬ j ≤ m → first j = [] := by
        intro j hj hnot
        obtain rfl : j = m + 1 := by omega
        exact hempty
      cases ih with
      | inl hnone =>
        refine .inl ⟨hnone.1, fun k hk => ?_⟩
        by_cases hkm : k ≤ m
        · exact hnone.2 k hkm
        · exact htop k hk hkm
      | inr hsome =>
        obtain ⟨k, hk, hle, hne, hrest⟩ := hsome
        refine .inr ⟨k, hk, by omega, hne, fun j hj hlt => ?_⟩
        by_cases hjm : j ≤ m
        · exact hrest j hjm hlt
        · exact htop j hj hjm
    · rename_i hne
      exact .inr ⟨m + 1, rfl, Nat.le_refl _, hne, fun j hj hlt => by omega⟩

@[simp]
theorem count_maximum (q : Cardinality) : q.maximum.1.count = q.count := rfl

theorem Valid.maximum (h : q.Valid) : q.maximum.1.Valid := by
  refine ⟨h.mem, h.nodup, fun k hk => ?_⟩
  obtain ⟨m, hm, hle⟩ := h.above k hk
  cases lower_spec q.first m with
  | inl hnone => exact absurd (hnone.2 k hle) hk
  | inr hsome =>
    obtain ⟨j, hj, _, _, hrest⟩ := hsome
    refine ⟨j, ?_, Nat.le_of_not_lt fun hlt => hk (hrest k hle hlt)⟩
    simp [Cardinality.maximum, hm, hj]

/-- The chosen vertex is there, and none that is there has a larger number. -/
theorem Valid.maximum_some (h : q.Valid) (hv : q.maximum.2 = some v) :
    ∃ k, q.count v = some k ∧ ∀ u j, q.count u = some j → j ≤ k := by
  unfold Cardinality.maximum at hv
  cases hm : q.max with
  | none => simp [hm] at hv
  | some m =>
    cases lower_spec q.first m with
    | inl hnone => simp [hm, hnone.1] at hv
    | inr hsome =>
      obtain ⟨k, hk, _, _, hrest⟩ := hsome
      simp only [hm, bind_some, hk] at hv
      refine ⟨k, (h.mem v k).mp (mem_of_mem_head? hv), fun u j hu => ?_⟩
      have hmem := (h.mem u j).mpr hu
      obtain ⟨m', hm', hle⟩ := h.above j (ne_nil_of_mem hmem)
      obtain rfl : m = m' := some.inj (hm.symm.trans hm')
      apply Nat.le_of_not_lt
      intro hlt
      rw [hrest j hle hlt] at hmem
      cases hmem

theorem Valid.maximum_none (h : q.Valid) (hnone : q.maximum.2 = none) (v : Nat) : q.count v = none := by
  by_contra hv
  obtain ⟨k, hk⟩ := ne_none_iff_exists'.mp hv
  have hmem := (h.mem v k).mpr hk
  obtain ⟨m, hm, hle⟩ := h.above k (ne_nil_of_mem hmem)
  unfold Cardinality.maximum at hnone
  cases lower_spec q.first m with
  | inl hempty =>
    rw [hempty.2 k hle] at hmem
    cases hmem
  | inr hsome =>
    obtain ⟨j, hj, _, hne, _⟩ := hsome
    simp only [hm, bind_some, hj, head?_eq_none_iff] at hnone
    exact hne hnone

end Cardinality

end swytch.stn
