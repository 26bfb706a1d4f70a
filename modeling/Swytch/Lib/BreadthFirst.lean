import Mathlib.Data.List.Lex
import Mathlib.Data.Prod.Lex
import Mathlib.Tactic.Common
import Swytch.Lib.Reach

namespace swytch.lib

/-- A list behind its length: shorter lists come first, and lists of one length in the order of
their first difference. -/
def shortlex {α : Type} (w : List α) : Lex (Nat × List α) := toLex (w.length, w)

section Shortlex

variable {α : Type} [LinearOrder α] {w w' : List α} {x y : α}

theorem shortlex_lt_iff : shortlex w < shortlex w' ↔ w.length < w'.length ∨ w.length = w'.length ∧ w < w' :=
  Prod.Lex.toLex_lt_toLex

theorem shortlex_lt_of_length (h : w.length < w'.length) : shortlex w < shortlex w' :=
  shortlex_lt_iff.mpr (.inl h)

theorem append_lt_append {v v' : List α} (hlen : w.length = w'.length) (h : w < w') : w ++ v < w' ++ v' := by
  induction w generalizing w' with
  | nil =>
    obtain rfl : w' = [] := List.length_eq_zero_iff.mp hlen.symm
    exact absurd h (lt_irrefl _)
  | cons a w ih =>
    cases w' with
    | nil => cases hlen
    | cons b w' =>
      rw [List.cons_append, List.cons_append]
      rw [List.cons_lt_cons_iff] at h ⊢
      obtain hab | ⟨hab, hrest⟩ := h
      · exact .inl hab
      · exact .inr ⟨hab, ih (Nat.succ.inj hlen) hrest⟩

theorem shortlex_append_lt (x y : α) (h : shortlex w < shortlex w') :
    shortlex (w ++ [x]) < shortlex (w' ++ [y]) := by
  obtain hlen | ⟨hlen, hlt⟩ := shortlex_lt_iff.mp h
  · exact shortlex_lt_of_length (by simpa using hlen)
  · exact shortlex_lt_iff.mpr (.inr ⟨by simp [hlen], append_lt_append hlen hlt⟩)

theorem shortlex_append_lt_append (w : List α) (h : x < y) : shortlex (w ++ [x]) < shortlex (w ++ [y]) := by
  refine shortlex_lt_iff.mpr (.inr ⟨by simp, List.append_left_lt ?_⟩)
  exact List.cons_lt_cons_iff.mpr (.inl h)

end Shortlex

/-- The way to a node: positions in a list of starts and then in lists of successors, cut into
legs behind every gate. The last leg is still open. -/
structure Route where
  legs : List (List Nat)
  leg : List Nat
deriving DecidableEq

abbrev LegRank := Lex (Nat × List Nat)

abbrev LegsRank := Lex (Nat × List LegRank)

/-- The legs of a route, by their number and then one after the other. -/
def legsRank (legs : List (List Nat)) : LegsRank := shortlex (legs.map shortlex)

theorem shortlex_injective {α : Type} : Function.Injective (shortlex (α := α)) := fun _ _ h =>
  congrArg Prod.snd (toLex.injective h)

theorem legsRank_injective : Function.Injective legsRank := fun _ _ h =>
  List.map_injective_iff.mpr shortlex_injective (shortlex_injective h)

namespace Route

def rank (r : Route) : Lex (LegsRank × LegRank) := toLex (legsRank r.legs, shortlex r.leg)

theorem rank_injective : Function.Injective rank := by
  rintro ⟨legs, leg⟩ ⟨legs', leg'⟩ h
  obtain ⟨hlegs, hleg⟩ := Prod.mk.inj (toLex.injective h)
  obtain rfl : legs = legs' := legsRank_injective hlegs
  obtain rfl : leg = leg' := shortlex_injective hleg
  rfl

/-- Routes are compared by the number of their legs, then leg by leg, and legs by their length
and then position by position. -/
instance : LinearOrder Route := LinearOrder.lift' rank rank_injective

/-- The route to a successor: behind a gate a new leg begins. -/
def next (r : Route) (gate : Bool) (j : Nat) : Route :=
  if gate then ⟨r.legs ++ [r.leg], [j]⟩ else ⟨r.legs, r.leg ++ [j]⟩

/-- The rank of the legs behind a gate at the end of a route. -/
def closed (r : Route) : LegsRank := legsRank (r.legs ++ [r.leg])

variable {r r' : Route} {gate gate' : Bool} {i j : Nat}

theorem lt_iff : r < r' ↔ legsRank r.legs < legsRank r'.legs ∨ r.legs = r'.legs ∧ shortlex r.leg < shortlex r'.leg := by
  refine Iff.trans Prod.Lex.toLex_lt_toLex (or_congr_right (and_congr_left fun _ => ?_))
  exact legsRank_injective.eq_iff

theorem legsRank_lt_concat (legs : List (List Nat)) (leg : List Nat) : legsRank legs < legsRank (legs ++ [leg]) :=
  shortlex_lt_of_length (by simp)

theorem closed_lt_closed (h : r < r') : r.closed < r'.closed := by
  unfold closed legsRank
  rw [List.map_append, List.map_append]
  obtain hlegs | ⟨hlegs, hleg⟩ := lt_iff.mp h
  · exact shortlex_append_lt _ _ hlegs
  · rw [hlegs]
    exact shortlex_append_lt_append _ hleg

theorem next_lt_next (h : i < j) : r.next gate i < r.next gate j := by
  cases gate
  · exact lt_iff.mpr (.inr ⟨rfl, shortlex_append_lt_append _ h⟩)
  · exact lt_iff.mpr (.inr ⟨rfl, @shortlex_append_lt_append _ _ _ _ [] h⟩)

theorem lt_next (r : Route) (gate : Bool) (j : Nat) : r < r.next gate j := by
  cases gate
  · refine lt_iff.mpr (.inr ⟨rfl, shortlex_lt_of_length ?_⟩)
    simp [next]
  · exact lt_iff.mpr (.inl (legsRank_lt_concat _ _))

theorem next_lt_next_next (r : Route) (gate gate' : Bool) (i j k : Nat) :
    r.next gate i < (r.next gate j).next gate' k := by
  cases gate'
  · cases gate
    · refine lt_iff.mpr (.inr ⟨rfl, shortlex_lt_of_length ?_⟩)
      simp [next]
    · exact lt_iff.mpr (.inr ⟨rfl, shortlex_lt_of_length (Nat.lt_succ_self 1)⟩)
  · cases gate
    · exact lt_iff.mpr (.inl (legsRank_lt_concat _ _))
    · exact lt_iff.mpr (.inl (legsRank_lt_concat _ _))

/-- Two open routes of the same legs stay in their order. -/
theorem next_open_lt (hlegs : r.legs = r'.legs) (h : r < r') (i j : Nat) : r.next false i < r'.next false j := by
  obtain hlt | ⟨-, hleg⟩ := lt_iff.mp h
  · rw [hlegs] at hlt
    exact absurd hlt (lt_irrefl _)
  · exact lt_iff.mpr (.inr ⟨hlegs, shortlex_append_lt _ _ hleg⟩)

theorem next_open_lt_closed (h : legsRank r.legs < r'.closed) (i j : Nat) : r.next false i < r'.next true j :=
  lt_iff.mpr (.inl h)

theorem next_closed_lt (h : r < r') (i j : Nat) : r.next true i < r'.next true j :=
  lt_iff.mpr (.inl (closed_lt_closed h))

theorem next_le_next (h : r ≤ r') (gate : Bool) (j : Nat) : r.next gate j ≤ r'.next gate j := by
  obtain rfl | h := h.eq_or_lt
  · exact le_refl _
  · cases gate
    · obtain hlt | ⟨hlegs, -⟩ := lt_iff.mp h
      · exact le_of_lt (lt_iff.mpr (.inl hlt))
      · exact (next_open_lt hlegs h j j).le
    · exact (next_closed_lt h j j).le

/-- Count the first position from another place. -/
def shiftLeg (k : Nat) : List Nat → List Nat
  | [] => []
  | i :: rest => (k + i) :: rest

def shift (k : Nat) : Route → Route
  | ⟨[], leg⟩ => ⟨[], shiftLeg k leg⟩
  | ⟨first :: legs, leg⟩ => ⟨shiftLeg k first :: legs, leg⟩

theorem shortlex_shiftLeg_lt_iff {k : Nat} {w w' : List Nat} :
    shortlex (shiftLeg k w) < shortlex (shiftLeg k w') ↔ shortlex w < shortlex w' := by
  rw [shortlex_lt_iff, shortlex_lt_iff]
  cases w <;> cases w' <;> simp [shiftLeg, List.cons_lt_cons_iff]

theorem shiftLeg_injective (k : Nat) : Function.Injective (shiftLeg k) := by
  intro w w' h
  cases w <;> cases w' <;> simp_all [shiftLeg]

theorem legsRank_cons_lt_iff {first first' : List Nat} {legs legs' : List (List Nat)} :
    legsRank (first :: legs) < legsRank (first' :: legs') ↔ legs.length < legs'.length ∨
      legs.length = legs'.length ∧ (shortlex first < shortlex first' ∨
        first = first' ∧ legs.map shortlex < legs'.map shortlex) := by
  simp [legsRank, shortlex_lt_iff, List.cons_lt_cons_iff, shortlex_injective.eq_iff]

theorem shift_lt_shift_iff {k : Nat} : shift k r < shift k r' ↔ r < r' := by
  obtain ⟨_ | ⟨first, legs⟩, leg⟩ := r <;> obtain ⟨_ | ⟨first', legs'⟩, leg'⟩ := r'
  · simp [lt_iff, shift, shortlex_shiftLeg_lt_iff]
  · simp [lt_iff, shift, legsRank, shortlex_lt_iff]
  · simp [lt_iff, shift, legsRank, shortlex_lt_iff]
  · simp only [lt_iff, shift, legsRank_cons_lt_iff, shortlex_shiftLeg_lt_iff, List.cons.injEq,
      (shiftLeg_injective k).eq_iff]

theorem shift_next {k : Nat} (h : r.leg ≠ []) : shift k (r.next gate j) = (shift k r).next gate j := by
  obtain ⟨_ | ⟨first, legs⟩, leg⟩ := r
  · obtain ⟨i, rest, rfl⟩ := List.exists_cons_of_ne_nil h
    cases gate <;> rfl
  · cases gate <;> rfl

end Route

/-- The routes from a list of starts to a node. -/
inductive RouteTo {α : Type} (deps : α → List α) (gate : α → Bool) (starts : List α) : α → Route → Prop where
  | start {i : Nat} {t : α} (ht : starts[i]? = some t) : RouteTo deps gate starts t ⟨[], [i]⟩
  | dep {j : Nat} {u t : α} {r : Route} (hu : RouteTo deps gate starts u r) (ht : (deps u)[j]? = some t) :
      RouteTo deps gate starts t (r.next (gate u) j)

/-- A route to the first node comes before every route to the second one. -/
def Precedes {α : Type} (deps : α → List α) (gate : α → Bool) (starts : List α) (a b : α) : Prop :=
  ∃ r, RouteTo deps gate starts a r ∧ ∀ r', RouteTo deps gate starts b r' → r < r'

section

variable {α : Type} {deps : α → List α} {gate : α → Bool} {pre starts : List α} {t a b : α} {r : Route}

theorem RouteTo.leg_ne_nil (hr : RouteTo deps gate starts t r) : r.leg ≠ [] := by
  cases hr with
  | start _ => simp
  | @dep j u t r hu _ => cases hgate : gate u <;> simp [Route.next]

theorem RouteTo.shift (hr : RouteTo deps gate starts t r) :
    RouteTo deps gate (pre ++ starts) t (r.shift pre.length) := by
  induction hr with
  | start ht =>
    refine .start ?_
    rw [List.getElem?_append_right (by omega)]
    simpa using ht
  | dep hu ht ih =>
    rw [Route.shift_next hu.leg_ne_nil]
    exact .dep ih ht

/-- A route from more starts begins at one of those, or is a route from the others. -/
theorem RouteTo.of_append (hr : RouteTo deps gate (pre ++ starts) t r) :
    (∃ u ∈ pre, Reach deps u t) ∨ ∃ r', RouteTo deps gate starts t r' ∧ r = r'.shift pre.length := by
  induction hr with
  | @start i t ht =>
    by_cases hi : i < pre.length
    · rw [List.getElem?_append_left hi] at ht
      exact .inl ⟨t, List.mem_of_getElem? ht, .refl t⟩
    · rw [List.getElem?_append_right (by omega)] at ht
      exact .inr ⟨_, .start ht, by simp [Route.shift, Route.shiftLeg]; omega⟩
  | dep hu ht ih =>
    obtain ⟨u, hu, hreach⟩ | ⟨r', hr', rfl⟩ := ih
    · exact .inl ⟨u, hu, hreach.trans (.single (List.mem_of_getElem? ht))⟩
    · exact .inr ⟨_, .dep hr' ht, (Route.shift_next hr'.leg_ne_nil).symm⟩

/-- Starts that lead to neither node do not count. -/
theorem precedes_append_iff (ha : ∀ u ∈ pre, ¬ Reach deps u a) (hb : ∀ u ∈ pre, ¬ Reach deps u b) :
    Precedes deps gate (pre ++ starts) a b ↔ Precedes deps gate starts a b := by
  constructor
  · rintro ⟨r, hr, hfirst⟩
    obtain ⟨u, hu, hreach⟩ | ⟨r', hr', rfl⟩ := hr.of_append
    · exact absurd hreach (ha u hu)
    · exact ⟨r', hr', fun r₁ hr₁ => Route.shift_lt_shift_iff.mp (hfirst _ hr₁.shift)⟩
  · rintro ⟨r, hr, hfirst⟩
    refine ⟨_, hr.shift, fun r₁ hr₁ => ?_⟩
    obtain ⟨u, hu, hreach⟩ | ⟨r', hr', rfl⟩ := hr₁.of_append
    · exact absurd hreach (hb u hu)
    · exact Route.shift_lt_shift_iff.mpr (hfirst r' hr')

end

end swytch.lib
