import Mathlib.Data.List.Sort
import Mathlib.Data.List.Destutter

namespace swytch.lib

open List

variable {α : Type} {l : List α}

/-- Sort a list and drop its repetitions. -/
def sortCompact {α : Type} [LinearOrder α] (l : List α) : List α :=
  (l.insertionSort (· ≤ ·)).destutter (· ≠ ·)

theorem pairwise_sortCompact [LinearOrder α] (l : List α) : (sortCompact l).Pairwise (· < ·) := by
  have hsorted : (sortCompact l).Pairwise (· ≤ ·) :=
    (pairwise_insertionSort (· ≤ ·) l).sublist (destutter_sublist _ _)
  have hdistinct : (sortCompact l).IsChain (· ≠ ·) := isChain_destutter _ _
  rw [← isChain_iff_pairwise, isChain_iff_getElem] at *
  intro i hi
  exact lt_of_le_of_ne (hsorted i hi) (hdistinct i hi)

theorem mem_destutter'_ne_iff [DecidableEq α] {a b : α} : a ∈ l.destutter' (· ≠ ·) b ↔ a = b ∨ a ∈ l := by
  induction l generalizing b with
  | nil => simp
  | cons c l ih =>
    by_cases hbc : b = c
    · subst hbc
      rw [destutter'_cons_neg _ (by simp), ih]
      simp
    · rw [destutter'_cons_pos _ hbc, mem_cons, ih, mem_cons]

theorem mem_sortCompact_iff [LinearOrder α] {a : α} : a ∈ sortCompact l ↔ a ∈ l := by
  rw [sortCompact, ← mem_insertionSort (r := (· ≤ ·)) (l := l)]
  cases l.insertionSort (· ≤ ·) with
  | nil => rfl
  | cons b l => rw [destutter_cons', mem_destutter'_ne_iff, mem_cons]

end swytch.lib
