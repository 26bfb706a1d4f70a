import Mathlib.Algebra.Order.Monoid.WithTop
import Mathlib.Algebra.Order.Group.Int
import Mathlib.Data.Int.ConditionallyCompleteOrder
import Mathlib.Data.Finset.Lattice.Fold
import Mathlib.Tactic.Abel
import Mathlib.Tactic.Linarith

namespace swytch.lib

open List WithTop Set

/-- A bound on a difference of two variables: `target - source ≤ bound`. -/
structure Constraint (V : Type) where
  source : V
  target : V
  bound : Int

/-- The sums of bounds along walks. -/
inductive Walk {V : Type} (C : Set (Constraint V)) : V → V → Int → Prop where
  | nil (v : V) : Walk C v v 0
  | cons {c : Constraint V} {v : V} {l : Int} (hc : c ∈ C) (hwalk : Walk C c.target v l) :
    Walk C c.source v (c.bound + l)

/-- The least sum along walks from one variable to another; `⊤` if there is none. -/
def IsShortest {V : Type} (C : Set (Constraint V)) (u v : V) (d : WithTop Int) : Prop :=
  (∀ l, Walk C u v l → d ≤ l) ∧ ∀ l : Int, d = l → Walk C u v l

/-- A matrix of all least sums. -/
structure IsDistance {V : Type} (C : Set (Constraint V)) (D : V → V → WithTop Int) : Prop where
  self : ∀ v, D v v = 0
  triangle : ∀ u v w, D u w ≤ D u v + D v w
  edge : ∀ {c}, c ∈ C → D c.source c.target ≤ c.bound
  attained : ∀ {u v} {l : Int}, D u v = l → Walk C u v l

/-- Values of the variables that meet all bounds. -/
def Satisfies {V R : Type} [Ring R] [LinearOrder R] (C : Set (Constraint V)) (time : V → R) : Prop :=
  ∀ c ∈ C, time c.target - time c.source ≤ (c.bound : R)

variable {V : Type} {C : Set (Constraint V)} {u v a b : V} {w l : Int} {D : V → V → WithTop Int} {vs : List V}
  {c : Constraint V} {F : Finset V}

theorem Walk.append {w : V} {l' : Int} (h : Walk C u v l) (h' : Walk C v w l') : Walk C u w (l + l') := by
  induction h with
  | nil v => rwa [zero_add]
  | cons hc _ ih =>
    rw [add_assoc]
    exact .cons hc (ih h')

theorem Walk.mono {C' : Set (Constraint V)} (hsub : C ⊆ C') (h : Walk C u v l) : Walk C' u v l := by
  induction h with
  | nil v => exact .nil v
  | cons hc _ ih => exact .cons (hsub hc) ih

theorem Walk.single (hc : c ∈ C) : Walk C c.source c.target c.bound := by
  have hwalk := Walk.cons hc (.nil c.target)
  rwa [add_zero] at hwalk

/-- The bounds turned around. -/
def reversed {V : Type} (C : Set (Constraint V)) : Set (Constraint V) :=
  {c | (⟨c.target, c.source, c.bound⟩ : Constraint V) ∈ C}

theorem Walk.reverse (h : Walk C u v l) : Walk (reversed C) v u l := by
  induction h with
  | nil v => exact .nil v
  | @cons c v l hc _ ih =>
    have hback : (⟨c.target, c.source, c.bound⟩ : Constraint V) ∈ reversed C := hc
    rw [add_comm]
    exact ih.append (.single hback)

/-- The ends of a walk are as far apart as the bounds allow. -/
theorem Walk.le_of_satisfies {R : Type} [Ring R] [LinearOrder R] [IsStrictOrderedRing R] {time : V → R}
    (hsat : Satisfies C time) (h : Walk C u v l) : time v - time u ≤ (l : R) := by
  induction h with
  | nil v => simp
  | @cons c v l hc _ ih =>
    have hbound := hsat _ hc
    calc time v - time c.source = (time c.target - time c.source) + (time v - time c.target) := by abel
      _ ≤ (c.bound : R) + (l : R) := add_le_add hbound ih
      _ = ((c.bound + l : Int) : R) := (Int.cast_add _ _).symm

namespace IsDistance

theorem le_walk (h : IsDistance C D) (hwalk : Walk C u v l) : D u v ≤ l := by
  induction hwalk with
  | nil v => exact (h.self v).le
  | cons hc _ ih =>
    rw [coe_add]
    exact (h.triangle _ _ _).trans (add_le_add (h.edge hc) ih)

theorem isShortest (h : IsDistance C D) (u v : V) : IsShortest C u v (D u v) :=
  ⟨fun _ hwalk => h.le_walk hwalk, fun _ hl => h.attained hl⟩

/-- The rows and columns change places when all bounds are turned around. -/
theorem transpose (h : IsDistance C D) :
    IsDistance (reversed C) (fun u v => D v u) where
  self := h.self
  triangle u v w := by
    rw [add_comm]
    exact h.triangle w v u
  edge hc := h.edge hc
  attained hl := (h.attained hl).reverse

/-- No constraints. -/
theorem empty [DecidableEq V] : IsDistance (∅ : Set (Constraint V)) (fun u v => if u = v then 0 else ⊤) := by
  refine ⟨fun v => if_pos rfl, fun u v w => ?_, fun hc => absurd hc (notMem_empty _), fun {u v l} hl => ?_⟩
  · by_cases huv : u = v
    · subst huv
      simp
    · simp [huv]
  · by_cases huv : u = v
    · subst huv
      rw [if_pos rfl] at hl
      have hzero : l = 0 := (coe_eq_zero.mp hl.symm)
      subst hzero
      exact .nil u
    · rw [if_neg huv] at hl
      exact absurd hl.symm (coe_ne_top)

/-- A bound that is implied changes nothing. -/
theorem addImplied (h : IsDistance C D) (hc : D c.source c.target ≤ c.bound) :
    IsDistance (insert c C) D := by
  refine ⟨h.self, h.triangle, fun {c'} hc' => ?_, fun hl => (h.attained hl).mono (subset_insert c C)⟩
  rcases mem_insert_iff.mp hc' with rfl | hold
  · exact hc
  · exact h.edge hold

/-- The least sums after a bound on `b - a` is added: the new walks use it once. -/
def withBound {V : Type} (D : V → V → WithTop Int) (a b : V) (w : Int) (u v : V) : WithTop Int :=
  min (D u v) (D u a + (w + D b v))

theorem withBound_detour (h : IsDistance C D) (hw : 0 ≤ (w : WithTop Int) + D b a) (u v x : V) :
    D u a + (w + D b x) ≤ (D u a + (w + D b v)) + (D v a + (w + D b x)) := by
  have hloop : 0 ≤ (w : WithTop Int) + (D b v + D v a) := hw.trans (by gcongr; exact h.triangle b v a)
  calc D u a + (w + D b x) = 0 + (D u a + (w + D b x)) := (zero_add _).symm
    _ ≤ ((w : WithTop Int) + (D b v + D v a)) + (D u a + (w + D b x)) := by gcongr
    _ = (D u a + (w + D b v)) + (D v a + (w + D b x)) := by abel

theorem add (h : IsDistance C D) (hw : 0 ≤ (w : WithTop Int) + D b a) :
    IsDistance (insert ⟨a, b, w⟩ C) (withBound D a b w) := by
  have hmono : C ⊆ insert ⟨a, b, w⟩ C := subset_insert _ _
  refine ⟨fun v => ?_, fun u v x => ?_, fun {c} hc => ?_, fun {u v l} hl => ?_⟩
  · rw [withBound, h.self, min_eq_left]
    have hloop : 0 ≤ (w : WithTop Int) + (D b v + D v a) := hw.trans (by gcongr; exact h.triangle b v a)
    calc (0 : WithTop Int) ≤ (w : WithTop Int) + (D b v + D v a) := hloop
      _ = D v a + (w + D b v) := by abel
  · unfold withBound
    rcases min_choice (D u v) (D u a + (w + D b v)) with huv | huv
    · rcases min_choice (D v x) (D v a + (w + D b x)) with hvx | hvx
      · rw [huv, hvx]
        exact min_le_of_left_le (h.triangle u v x)
      · rw [huv, hvx]
        apply min_le_of_right_le
        calc D u a + (w + D b x) ≤ (D u v + D v a) + (w + D b x) := by gcongr; exact h.triangle u v a
          _ = D u v + (D v a + (w + D b x)) := add_assoc _ _ _
    · rcases min_choice (D v x) (D v a + (w + D b x)) with hvx | hvx
      · rw [huv, hvx]
        apply min_le_of_right_le
        calc D u a + (w + D b x) ≤ D u a + (w + (D b v + D v x)) := by gcongr; exact h.triangle b v x
          _ = (D u a + (w + D b v)) + D v x := by abel
      · rw [huv, hvx]
        exact min_le_of_right_le (h.withBound_detour hw u v x)
  · rcases mem_insert_iff.mp hc with rfl | hold
    · apply min_le_of_right_le
      dsimp only
      rw [h.self, h.self, add_zero, zero_add]
    · exact min_le_of_left_le (h.edge hold)
  · unfold withBound at hl
    rcases min_choice (D u v) (D u a + (w + D b v)) with hmin | hmin
    · rw [hmin] at hl
      exact (h.attained hl).mono hmono
    · rw [hmin] at hl
      cases hua : D u a with
      | top => simp [hua] at hl
      | coe la =>
        cases hbv : D b v with
        | top => simp [hbv] at hl
        | coe lb =>
          rw [hua, hbv, ← coe_add, ← coe_add, coe_inj] at hl
          have hedge : Walk (insert ⟨a, b, w⟩ C) a b w := Walk.single (mem_insert ⟨a, b, w⟩ C)
          have hwalk := ((h.attained hua).mono hmono).append (hedge.append ((h.attained hbv).mono hmono))
          rwa [hl] at hwalk

/-- A negative cycle through a bound leaves no solution. -/
theorem not_satisfies_of_neg {R : Type} [Ring R] [LinearOrder R] [IsStrictOrderedRing R] (h : IsDistance C D)
    (hw : (w : WithTop Int) + D b a < 0) (time : V → R) : ¬ Satisfies (insert ⟨a, b, w⟩ C) time := by
  intro hsat
  cases hba : D b a with
  | top =>
    rw [hba, WithTop.add_top] at hw
    exact absurd hw not_top_lt
  | coe l =>
    have hback := (h.attained hba).le_of_satisfies fun c hc => hsat c (mem_insert_of_mem _ hc)
    have hforth := hsat ⟨a, b, w⟩ (mem_insert _ _)
    rw [hba, ← coe_add, ← coe_zero, coe_lt_coe] at hw
    dsimp only at hforth
    have hcycle : (0 : R) ≤ ((w + l : Int) : R) :=
      calc (0 : R) = (time b - time a) + (time a - time b) := by abel
        _ ≤ (w : R) + (l : R) := add_le_add hforth hback
        _ = ((w + l : Int) : R) := (Int.cast_add _ _).symm
    have hnonneg : 0 ≤ w + l := Int.cast_nonneg_iff.mp hcycle
    omega

/-- Bounds on finitely many variables that have least sums have a solution: each variable
is as large as all of them allow it. -/
theorem exists_satisfies (h : IsDistance C D) (F : Finset V) (hF : ∀ c ∈ C, c.source ∈ F ∧ c.target ∈ F) :
    ∃ time : V → Int, Satisfies C time := by
  have hfinite : ∀ v ∈ F, F.inf (fun u => D u v) ≠ ⊤ := by
    intro v hv htop
    have hle : F.inf (fun u => D u v) ≤ D v v := Finset.inf_le hv
    rw [htop, h.self, top_le_iff] at hle
    exact zero_ne_top hle
  refine ⟨fun v => (F.inf (fun u => D u v)).untopD 0, fun c hc => ?_⟩
  obtain ⟨hsource, htarget⟩ := hF c hc
  have hstep : F.inf (fun u => D u c.target) ≤ F.inf (fun u => D u c.source) + c.bound := by
    obtain ⟨x, hx, hmin⟩ := Finset.exists_mem_eq_inf F ⟨c.source, hsource⟩ (fun u => D u c.source)
    rw [hmin]
    calc F.inf (fun u => D u c.target) ≤ D x c.target := Finset.inf_le hx
      _ ≤ D x c.source + D c.source c.target := h.triangle _ _ _
      _ ≤ D x c.source + c.bound := by gcongr; exact h.edge hc
  obtain ⟨s, hs⟩ := ne_top_iff_exists.mp (hfinite c.source hsource)
  obtain ⟨t, ht⟩ := ne_top_iff_exists.mp (hfinite c.target htarget)
  rw [← hs, ← ht, ← coe_add, coe_le_coe] at hstep
  dsimp only
  rw [← hs, ← ht, untopD_coe, untopD_coe, Int.cast_id]
  omega

end IsDistance

/-- A walk with the list of the vertices it passes. -/
inductive WalkAlong {V : Type} (C : Set (Constraint V)) : List V → V → V → Int → Prop where
  | nil (v : V) : WalkAlong C [v] v v 0
  | cons {c : Constraint V} {v : V} {l : Int} {vs : List V} (hc : c ∈ C) (hwalk : WalkAlong C vs c.target v l) :
    WalkAlong C (c.source :: vs) c.source v (c.bound + l)

theorem WalkAlong.walk (h : WalkAlong C vs u v l) : Walk C u v l := by
  induction h with
  | nil v => exact .nil v
  | cons hc _ ih => exact .cons hc ih

/-- A walk can be cut at a vertex it passes. -/
theorem WalkAlong.cut {x : V} (h : WalkAlong C vs u v l) (hx : x ∈ vs) :
    ∃ vs' l₁ l₂, Walk C u x l₁ ∧ WalkAlong C vs' x v l₂ ∧ vs'.Sublist vs ∧ l₁ + l₂ = l := by
  induction h with
  | nil v =>
    obtain rfl := mem_singleton.mp hx
    exact ⟨[x], 0, 0, .nil x, .nil x, List.Sublist.refl _, zero_add 0⟩
  | @cons c v l vs hc hwalk ih =>
    by_cases hsource : x = c.source
    · subst hsource
      exact ⟨c.source :: vs, 0, c.bound + l, .nil _, .cons hc hwalk, List.Sublist.refl _, zero_add _⟩
    · obtain ⟨vs', l₁, l₂, hfirst, hrest, hsub, hsum⟩ := ih ((mem_cons.mp hx).resolve_left hsource)
      exact ⟨vs', c.bound + l₁, l₂, .cons hc hfirst, hrest, hsub.cons _, by omega⟩

/-- Without negative cycles a walk can be replaced by one that passes no vertex twice. -/
theorem IsDistance.exists_path (h : IsDistance C D) (hwalk : Walk C u v l) :
    ∃ vs l', WalkAlong C vs u v l' ∧ vs.Nodup ∧ l' ≤ l := by
  induction hwalk with
  | nil v => exact ⟨[v], 0, .nil v, nodup_singleton v, le_refl 0⟩
  | @cons c v l hc _ ih =>
    obtain ⟨vs, l', hpath, hnodup, hle⟩ := ih
    by_cases hsource : c.source ∈ vs
    · obtain ⟨vs', l₁, l₂, hfirst, hrest, hsub, hsum⟩ := hpath.cut hsource
      have hcycle := h.le_walk (Walk.cons hc hfirst)
      rw [h.self, ← coe_zero, coe_le_coe] at hcycle
      exact ⟨vs', l₂, hrest, hnodup.sublist hsub, by omega⟩
    · exact ⟨c.source :: vs, c.bound + l', .cons hc hpath, nodup_cons.mpr ⟨hsource, hnodup⟩, by omega⟩

theorem WalkAlong.start_mem (h : WalkAlong C vs u v l) : u ∈ vs := by
  cases h with
  | nil _ => exact mem_singleton_self u
  | cons _ _ => exact mem_cons_self

theorem WalkAlong.mem_or_stays (hF : ∀ c ∈ C, c.source ∈ F ∧ c.target ∈ F)
    (h : WalkAlong C vs u v l) : (∀ x ∈ vs, x ∈ F) ∨ vs = [v] := by
  induction h with
  | nil v => exact .inr rfl
  | @cons c v l vs hc hwalk ih =>
    refine .inl fun x hx => ?_
    by_cases hsource : x = c.source
    · exact hsource ▸ (hF c hc).1
    · have hrest := (mem_cons.mp hx).resolve_left hsource
      cases ih with
      | inl hall => exact hall x hrest
      | inr hstays =>
        subst hstays
        have htarget := mem_singleton.mp hwalk.start_mem
        rw [mem_singleton.mp hrest, ← htarget]
        exact (hF c hc).2

theorem WalkAlong.abs_le {M : Int} (hM : ∀ c ∈ C, |c.bound| ≤ M) (h : WalkAlong C vs u v l) :
    |l| + M ≤ vs.length * M := by
  induction h with
  | nil v => simp
  | @cons c v l vs hc _ ih =>
    have hbound := hM c hc
    have habs := abs_add_le c.bound l
    rw [length_cons]
    push_cast
    linarith

/-- Least sums of bounds up to `M` between `n` variables are at most `(n - 1) * M`. -/
theorem IsDistance.abs_le [DecidableEq V] (h : IsDistance C D)
    (hF : ∀ c ∈ C, c.source ∈ F ∧ c.target ∈ F) {M : Int} (hnonneg : 0 ≤ M) (hM : ∀ c ∈ C, |c.bound| ≤ M)
    (hl : D u v = l) : |l| ≤ F.card * M := by
  obtain ⟨vs, l', hpath, hnodup, hle⟩ := h.exists_path (h.attained hl)
  have hge := h.le_walk hpath.walk
  rw [hl, coe_le_coe] at hge
  obtain rfl : l = l' := by omega
  have habs := hpath.abs_le hM
  cases hpath.mem_or_stays hF with
  | inl hall =>
    have hcard : vs.length ≤ F.card := by
      rw [← toFinset_card_of_nodup hnodup]
      exact Finset.card_le_card fun x hx => hall x (mem_toFinset.mp hx)
    have hmul : (vs.length : Int) * M ≤ F.card * M := by gcongr
    linarith
  | inr hstays =>
    rw [hstays, length_singleton, Nat.cast_one, one_mul] at habs
    have hpos : (0 : Int) ≤ F.card * M := by positivity
    linarith

end swytch.lib
