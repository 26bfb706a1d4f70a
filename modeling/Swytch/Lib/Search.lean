import Mathlib.Data.List.Sort
import Mathlib.Data.List.Destutter

namespace swytch.lib

open List Nat

def searchLoop (f : Nat → Bool) : Nat → Nat → Nat → Nat
  | 0, i, _ => i
  | k + 1, i, j =>
    if i < j then
      if f ((i + j) / 2) then searchLoop f k i ((i + j) / 2) else searchLoop f k ((i + j) / 2 + 1) j
    else i

/-- Binary search for the first index below `n` at which `f` holds, or `n`. -/
def search (n : Nat) (f : Nat → Bool) : Nat :=
  searchLoop f n 0 n

variable {n i p : Nat} {α : Type} {l : List α}

variable {f : Nat → Bool}

theorem le_iff_of_split (hlow : ∀ p, p < i → f p = false) (hhigh : ∀ p, i ≤ p → p < n → f p = true)
    (hp : p < n) : i ≤ p ↔ f p = true := by
  constructor
  · intro hle
    exact hhigh p hle hp
  · intro hfp
    by_contra hlt
    rw [hlow p (by omega)] at hfp
    exact Bool.noConfusion hfp

/-- Everything before `i` fails and everything from `j` on holds. -/
theorem searchLoop_le_iff (hmono : ∀ p q, p ≤ q → q < n → f p = true → f q = true) {k j : Nat} (hij : i ≤ j)
    (hjn : j ≤ n) (hk : j - i ≤ k) (hlow : ∀ p, p < i → f p = false) (hhigh : ∀ p, j ≤ p → p < n → f p = true)
    (hp : p < n) : searchLoop f k i j ≤ p ↔ f p = true := by
  induction k generalizing i j with
  | zero =>
    obtain rfl : i = j := by omega
    exact le_iff_of_split hlow hhigh hp
  | succ k ih =>
    unfold searchLoop
    by_cases hlt : i < j
    · rw [if_pos hlt]
      cases hmid : f ((i + j) / 2) with
      | true =>
        have hhigh' : ∀ p, (i + j) / 2 ≤ p → p < n → f p = true := fun p hle hpn => hmono _ p hle hpn hmid
        exact ih (by omega) (by omega) (by omega) hlow hhigh'
      | false =>
        have hlow' : ∀ p, p < (i + j) / 2 + 1 → f p = false := by
          intro p hlt'
          by_contra hne
          have hholds := hmono p ((i + j) / 2) (by omega) (by omega) (Bool.not_eq_false _ ▸ hne)
          rw [hmid] at hholds
          exact Bool.noConfusion hholds
        exact ih (by omega) hjn (by omega) hlow' hhigh
    · rw [if_neg hlt]
      obtain rfl : i = j := by omega
      exact le_iff_of_split hlow hhigh hp

/-- On a monotone predicate the search splits the range into failures and successes. -/
theorem search_le_iff (hmono : ∀ p q, p ≤ q → q < n → f p = true → f q = true) (hp : p < n) :
    search n f ≤ p ↔ f p = true :=
  searchLoop_le_iff hmono (zero_le n) le_rfl (sub_le n 0) (fun _ h => absurd h (not_lt_zero _))
    (fun _ hle hlt => absurd hlt (Nat.not_lt_of_le hle)) hp

theorem searchLoop_le {k j : Nat} (hij : i ≤ j) : searchLoop f k i j ≤ j := by
  induction k generalizing i j with
  | zero => exact hij
  | succ k ih =>
    unfold searchLoop
    by_cases hlt : i < j
    · rw [if_pos hlt]
      cases f ((i + j) / 2) with
      | true => exact (ih (by omega)).trans (by omega)
      | false => exact ih (by omega)
    · rw [if_neg hlt]
      exact hij

theorem search_le (n : Nat) (f : Nat → Bool) : search n f ≤ n := searchLoop_le (zero_le n)

/-- Where a sorted list holds a value or would hold it, and whether it does. -/
def binarySearch {α : Type} [LinearOrder α] (l : List α) (a : α) : Nat × Bool :=
  let i := search l.length (fun i => l[i]?.any (fun b => ¬ b < a))
  (i, l[i]? = some a)

theorem getElem?_of_binarySearch [LinearOrder α] {a : α} (hfound : binarySearch l a = (i, true)) : l[i]? = some a := by
  simp only [binarySearch, Prod.mk.injEq, decide_eq_true_eq] at hfound
  obtain ⟨rfl, hget⟩ := hfound
  exact hget

theorem getElem_le_of_sorted [LinearOrder α] (hsorted : l.Pairwise (· < ·)) {q : Nat} (hpq : p ≤ q)
    (hq : q < l.length) : l[p] ≤ l[q] := by
  obtain hlt | rfl := lt_or_eq_of_le hpq
  · exact (pairwise_iff_getElem.mp hsorted p q (by omega) hq hlt).le
  · exact le_rfl

theorem binarySearch_le_iff [LinearOrder α] (hsorted : l.Pairwise (· < ·)) (a : α) (hp : p < l.length) :
    (binarySearch l a).1 ≤ p ↔ a ≤ l[p] := by
  unfold binarySearch
  rw [search_le_iff _ hp]
  · simp [hp]
  · intro p q hpq hq hfp
    have hp : p < l.length := by omega
    simp only [getElem?_eq_getElem hp, getElem?_eq_getElem hq, Option.any_some, decide_eq_true_eq,
      not_lt] at hfp ⊢
    exact hfp.trans (getElem_le_of_sorted hsorted hpq hq)

/-- On a sorted list the search finds exactly the members. -/
theorem binarySearch_snd_iff [LinearOrder α] (hsorted : l.Pairwise (· < ·)) {a : α} :
    (binarySearch l a).2 = true ↔ a ∈ l := by
  constructor
  · intro hfound
    exact mem_of_getElem? (getElem?_of_binarySearch (i := (binarySearch l a).1) (by rw [← hfound]))
  · intro hmem
    obtain ⟨j, hj, rfl⟩ := mem_iff_getElem.mp hmem
    have hbefore := (binarySearch_le_iff hsorted l[j] hj).mpr le_rfl
    have hafter := (binarySearch_le_iff hsorted l[j] (lt_of_le_of_lt hbefore hj)).mp le_rfl
    have heq := le_antisymm (getElem_le_of_sorted hsorted hbefore hj) hafter
    simp only [binarySearch, decide_eq_true_eq]
    exact (getElem?_eq_getElem (lt_of_le_of_lt hbefore hj)).trans (congrArg some heq)

/-- The search cuts a sorted list at the place of the value. -/
theorem binarySearch_split [LinearOrder α] (hsorted : l.Pairwise (· < ·)) (a : α) :
    ∃ before after, (binarySearch l a).1 = before.length ∧ (∀ b ∈ before, b < a) ∧ (∀ b ∈ after, a < b) ∧
      ((binarySearch l a).2 = true ∧ l = before ++ a :: after ∨
        (binarySearch l a).2 = false ∧ l = before ++ after) := by
  have hle : (binarySearch l a).1 ≤ l.length := search_le _ _
  have hbefore : ∀ b ∈ l.take (binarySearch l a).1, b < a := by
    intro b hb
    obtain ⟨p, hp, rfl⟩ := mem_take_iff_getElem.mp hb
    have hlt := mt (binarySearch_le_iff hsorted a (by omega)).mpr (by omega : ¬ (binarySearch l a).1 ≤ p)
    exact not_le.mp hlt
  have hsplit := take_append_drop (binarySearch l a).1 l
  have hlen : (l.take (binarySearch l a).1).length = (binarySearch l a).1 := length_take_of_le hle
  cases hfound : (binarySearch l a).2 with
  | true =>
    obtain ⟨hi, hget⟩ := List.getElem?_eq_some_iff.mp
      (getElem?_of_binarySearch (i := (binarySearch l a).1) (by rw [← hfound]))
    have hdrop := drop_eq_getElem_cons hi
    rw [hget] at hdrop
    have hrest : (a :: l.drop ((binarySearch l a).1 + 1)).Pairwise (· < ·) := hdrop ▸ hsorted.drop
    refine ⟨_, _, hlen.symm, hbefore, (pairwise_cons.mp hrest).1, .inl ⟨rfl, ?_⟩⟩
    rw [← hdrop, hsplit]
  | false =>
    refine ⟨_, _, hlen.symm, hbefore, ?_, .inr ⟨rfl, hsplit.symm⟩⟩
    intro b hb
    have hne : a ≠ b := by
      rintro rfl
      rw [(binarySearch_snd_iff hsorted).mpr (mem_of_mem_drop hb)] at hfound
      cases hfound
    obtain ⟨p, hp, rfl⟩ := mem_drop_iff_getElem.mp hb
    refine lt_of_le_of_ne ((binarySearch_le_iff hsorted a (by omega)).mp (le_add_right _ p)) hne

section Cut

variable {before after : List α} {x : α}

theorem modify_middle (before after : List α) (x : α) (f : α → α) :
    (before ++ x :: after).modify before.length f = before ++ f x :: after := by
  induction before with
  | nil => rfl
  | cons b before ih => rw [cons_append, length_cons, modify_succ_cons, ih, cons_append]

theorem insertIdx_middle (before after : List α) (x : α) :
    (before ++ after).insertIdx before.length x = before ++ x :: after := by
  induction before with
  | nil => rfl
  | cons b before ih => rw [cons_append, length_cons, insertIdx_succ_cons, ih, cons_append]

theorem eraseIdx_middle (before after : List α) (x : α) :
    (before ++ x :: after).eraseIdx before.length = before ++ after := by
  rw [eraseIdx_append_of_length_le (Nat.le_refl _), Nat.sub_self, eraseIdx_cons_zero]

variable {β : Type} [LinearOrder β] {f : α → β}

/-- The search cuts a list that is sorted by a key. -/
theorem binarySearch_cut (hsorted : (l.map f).Pairwise (· < ·)) (b : β) :
    ∃ before after, (∀ y ∈ before, f y < b) ∧ (∀ y ∈ after, b < f y) ∧
      (binarySearch (l.map f) b = (before.length, true) ∧ (∃ x, f x = b ∧ l = before ++ x :: after) ∨
        binarySearch (l.map f) b = (before.length, false) ∧ l = before ++ after) := by
  obtain ⟨ids, ids', hlen, hbefore, hafter, ⟨hfound, heq⟩ | ⟨hfound, heq⟩⟩ := binarySearch_split hsorted b
  · obtain ⟨before, rest, hl, rfl, hrest⟩ := map_eq_append_iff.mp heq
    obtain ⟨x, after, rfl, hx, rfl⟩ := map_eq_cons_iff.mp hrest
    rw [length_map] at hlen
    exact ⟨before, after, fun y hy => hbefore _ (mem_map_of_mem hy), fun y hy => hafter _ (mem_map_of_mem hy),
      .inl ⟨Prod.ext hlen hfound, x, hx, hl⟩⟩
  · obtain ⟨before, after, hl, rfl, rfl⟩ := map_eq_append_iff.mp heq
    rw [length_map] at hlen
    exact ⟨before, after, fun y hy => hbefore _ (mem_map_of_mem hy), fun y hy => hafter _ (mem_map_of_mem hy),
      .inr ⟨Prod.ext hlen hfound, hl⟩⟩

theorem pairwise_middle (hsorted : ((before ++ after).map f).Pairwise (· < ·)) (hbefore : ∀ y ∈ before, f y < f x)
    (hafter : ∀ y ∈ after, f x < f y) : ((before ++ x :: after).map f).Pairwise (· < ·) := by
  simp only [pairwise_map, pairwise_append, pairwise_cons, mem_cons] at hsorted ⊢
  obtain ⟨hfirst, hlast, hcross⟩ := hsorted
  refine ⟨hfirst, ⟨hafter, hlast⟩, ?_⟩
  rintro y hy z (rfl | hz)
  · exact hbefore y hy
  · exact hcross y hy z hz

theorem pairwise_without (hsorted : ((before ++ x :: after).map f).Pairwise (· < ·)) :
    ((before ++ after).map f).Pairwise (· < ·) :=
  hsorted.sublist ((sublist_cons_self x after).append_left before |>.map _)

end Cut

end swytch.lib
