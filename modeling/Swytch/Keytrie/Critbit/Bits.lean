import Swytch.Keytrie.Critbit
import Mathlib.Data.Nat.Bitwise

open swytch.proto List Nat

namespace swytch.keytrie

/-- The mask that asks for a bit of a byte, from the highest to the lowest, and then for
the byte itself. -/
def mask (j : Fin 9) : Nat := if j.val < 8 then 255 - 2 ^ (7 - j.val) else 255

/-- The answer of a byte of a key, which may be missing. -/
def byteBit (j : Fin 9) : Option (Fin 256) → Bool
  | none => false
  | some c => decide (j.val = 8) || c.val.testBit (7 - j.val)

/-- Keys as strings of bits. -/
def keyBits : lib.Bits Bytes CritPos where
  bit := goesRight
  valid p := ∃ j, p.otherbits = mask j

theorem mask_direction : ∀ (j : Fin 9) (c : Fin 256), ((1 + (mask j ||| c.val)) >>> 8 == 1) = byteBit j (some c) := by
  decide +kernel

theorem mask_lt_mask : ∀ j j' : Fin 9, mask j < mask j' ↔ j < j' := by
  decide +kernel

/-- The highest bit of a byte other than zero. -/
theorem highestBit_eq_mask : ∀ d : Fin 256, d ≠ 0 → ∃ j : Fin 9, j.val < 8 ∧
    highestBit d.val ^^^ 0xFF = mask j ∧ d.val.testBit (7 - j.val) = true ∧
    ∀ j' < j, d.val.testBit (7 - j'.val) = false := by
  decide +kernel

theorem goesRight_mask (key : Bytes) (i : Nat) (j : Fin 9) : goesRight key ⟨i, mask j⟩ = byteBit j key[i]? := by
  unfold goesRight getDirection
  dsimp only
  cases key[i]? with
  | none => rfl
  | some c => exact mask_direction j c

variable {p q : CritPos} {a b : Bytes} {j : Fin 9}

theorem critPos_lt_iff : p < q ↔ p.bytePos < q.bytePos ∨ p.bytePos = q.bytePos ∧ p.otherbits < q.otherbits :=
  Prod.Lex.toLex_lt_toLex

theorem shouldInsertBefore_iff : shouldInsertBefore p q = true ↔ p < q := by
  simp [shouldInsertBefore, critPos_lt_iff]

/-- Keys differ first where their bytes do, at the first bit that tells these apart. -/
theorem crit_of_bytes {i : Nat} (hsame : ∀ i' < i, a[i']? = b[i']?)
    (hdiffer : byteBit j a[i]? ≠ byteBit j b[i]?) (hbefore : ∀ j' < j, byteBit j' a[i]? = byteBit j' b[i]?) :
    keyBits.Crit a b ⟨i, mask j⟩ := by
  refine ⟨⟨j, rfl⟩, ?_, ?_⟩
  · intro heq
    change goesRight a _ = goesRight b _ at heq
    rw [goesRight_mask, goesRight_mask] at heq
    exact hdiffer heq
  · rintro ⟨i', o⟩ ⟨j', hj'⟩ hlt
    change o = mask j' at hj'
    subst hj'
    change goesRight a _ = goesRight b _
    rw [goesRight_mask, goesRight_mask]
    rcases critPos_lt_iff.mp hlt with hi | ⟨hi, hj⟩
    · rw [hsame i' hi]
    · obtain rfl : i' = i := hi
      exact hbefore j' ((mask_lt_mask j' j).mp hj)

theorem byteBit_some_of_lt (hj : j.val < 8) (c : Fin 256) : byteBit j (some c) = c.val.testBit (7 - j.val) := by
  simp [byteBit, Nat.ne_of_lt hj]

/-- The first bit that tells two different bytes apart. -/
theorem critMask_of_ne {x y : Fin 256} (hne : x ≠ y) : ∃ j : Fin 9, j.val < 8 ∧
    highestBit (x.val ^^^ y.val) ^^^ 0xFF = mask j ∧ x.val.testBit (7 - j.val) ≠ y.val.testBit (7 - j.val) ∧
    ∀ j' < j, x.val.testBit (7 - j'.val) = y.val.testBit (7 - j'.val) := by
  have hlt : x.val ^^^ y.val < 2 ^ 8 := xor_lt_two_pow x.isLt y.isLt
  have hxor : (⟨x.val ^^^ y.val, hlt⟩ : Fin 256) ≠ 0 := by
    intro hzero
    have hval : x.val ^^^ y.val = 0 := congrArg Fin.val hzero
    apply hne
    apply Fin.ext
    apply eq_of_testBit_eq
    intro i
    simpa [testBit_xor] using congrArg (fun n => n.testBit i) hval
  obtain ⟨j, hj, hmask, hset, hclear⟩ := highestBit_eq_mask _ hxor
  refine ⟨j, hj, hmask, ?_, ?_⟩
  · simpa [testBit_xor] using hset
  · intro j' hj'
    simpa [testBit_xor] using hclear j' hj'

/-- The first bit that tells a byte from a missing one. -/
theorem critMask_of_some (y : Fin 256) : ∃ j : Fin 9,
    highestBit y.val ^^^ 0xFF = mask j ∧ byteBit j (some y) = true ∧ ∀ j' < j, byteBit j' (some y) = false := by
  by_cases hzero : y = 0
  · subst hzero
    exact ⟨8, by decide⟩
  · obtain ⟨j, hj, hmask, hset, hclear⟩ := highestBit_eq_mask y hzero
    refine ⟨j, hmask, ?_, ?_⟩
    · rw [byteBit_some_of_lt hj, hset]
    · intro j' hj'
      rw [byteBit_some_of_lt (lt_trans hj' hj), hclear j' hj']

theorem getElem?_common (w a b : Bytes) : ∀ i < w.length, (w ++ a)[i]? = (w ++ b)[i]? := by
  intro i hi
  rw [getElem?_append_left hi, getElem?_append_left hi]

theorem getElem?_beyond (w a : Bytes) : (w ++ a)[w.length]? = a[0]? := by
  rw [getElem?_append_right le_rfl, Nat.sub_self]

/-- `findCritBit` finds the first difference of two keys with a common start. -/
theorem crit_findCritBitFrom (w : Bytes) (hne : a ≠ b) (ha : (w ++ a).length ≤ 2 ^ 32)
    (hb : (w ++ b).length ≤ 2 ^ 32) : keyBits.Crit (w ++ a) (w ++ b) (findCritBitFrom w.length a b) := by
  induction a generalizing w b with
  | nil =>
    cases b with
    | nil => exact absurd rfl hne
    | cons y b =>
      have hpos : w.length % 2 ^ 32 = w.length := by
        apply mod_eq_of_lt
        simp only [length_append, length_cons] at hb
        omega
      obtain ⟨j, hmask, hset, hclear⟩ := critMask_of_some y
      rw [findCritBitFrom, hpos, hmask]
      refine crit_of_bytes (getElem?_common w [] (y :: b)) ?_ ?_
      · rw [getElem?_beyond, getElem?_beyond, getElem?_cons_zero, hset]
        exact Bool.false_ne_true
      · intro j' hj'
        rw [getElem?_beyond, getElem?_beyond, getElem?_cons_zero, hclear j' hj']
        rfl
  | cons x a ih =>
    have hpos : w.length % 2 ^ 32 = w.length := by
      apply mod_eq_of_lt
      simp only [length_append, length_cons] at ha
      omega
    cases b with
    | nil =>
      obtain ⟨j, hmask, hset, hclear⟩ := critMask_of_some x
      rw [findCritBitFrom, hpos, hmask]
      refine crit_of_bytes (getElem?_common w (x :: a) []) ?_ ?_
      · rw [getElem?_beyond, getElem?_beyond, getElem?_cons_zero, hset]
        exact Bool.false_ne_true.symm
      · intro j' hj'
        rw [getElem?_beyond, getElem?_beyond, getElem?_cons_zero, hclear j' hj']
        rfl
    | cons y b =>
      unfold findCritBitFrom
      split
      · rename_i heq
        subst heq
        have hnext := ih (w ++ [x]) (fun h => hne (h ▸ rfl)) (by simpa using ha) (by simpa using hb)
        simpa using hnext
      · rename_i hxy
        obtain ⟨j, hj, hmask, hdiffer, hbefore⟩ := critMask_of_ne hxy
        rw [hpos, hmask]
        refine crit_of_bytes (getElem?_common w (x :: a) (y :: b)) ?_ ?_
        · rw [getElem?_beyond, getElem?_beyond, getElem?_cons_zero, getElem?_cons_zero, byteBit_some_of_lt hj,
            byteBit_some_of_lt hj]
          exact hdiffer
        · intro j' hj'
          rw [getElem?_beyond, getElem?_beyond, getElem?_cons_zero, getElem?_cons_zero,
            byteBit_some_of_lt (lt_trans hj' hj), byteBit_some_of_lt (lt_trans hj' hj)]
          exact hbefore j' hj'

theorem crit_findCritBit (hne : a ≠ b) (ha : a.length ≤ 2 ^ 32) (hb : b.length ≤ 2 ^ 32) :
    keyBits.Crit a b (findCritBit a b) :=
  crit_findCritBitFrom [] hne ha hb

/-- Keys have one first difference. -/
theorem crit_unique (hp : keyBits.Crit a b p) (hq : keyBits.Crit a b q) : p = q := by
  rcases lt_trichotomy p q with hlt | heq | hlt
  · exact absurd (hq.agree p hp.valid hlt) hp.differ
  · exact heq
  · exact absurd (hp.agree q hq.valid hlt) hq.differ

theorem lt_of_critMask {x y : Fin 256} (hj : j.val < 8) (hx : x.val.testBit (7 - j.val) = false)
    (hy : y.val.testBit (7 - j.val) = true)
    (hbefore : ∀ j' < j, x.val.testBit (7 - j'.val) = y.val.testBit (7 - j'.val)) : x < y := by
  apply lt_of_testBit (7 - j.val) hx hy
  intro i hi
  by_cases hhigh : i < 8
  · have hi' := hbefore ⟨7 - i, by omega⟩ (by rw [Fin.lt_def]; dsimp only; omega)
    have heq : 7 - (7 - i) = i := by omega
    rwa [heq] at hi'
  · have hbyte : ∀ z : Fin 256, z.val.testBit i = false := by
      intro z
      apply testBit_lt_two_pow
      exact lt_of_lt_of_le z.isLt (Nat.pow_le_pow_right (by omega) (not_lt.mp hhigh) : 2 ^ 8 ≤ 2 ^ i)
    rw [hbyte, hbyte]

/-- The key that goes left at the first difference is the smaller one. -/
theorem lt_of_goesLeft_from (w : Bytes) (hne : a ≠ b) (ha : (w ++ a).length ≤ 2 ^ 32)
    (hleft : goesRight (w ++ a) (findCritBitFrom w.length a b) = false) : a < b := by
  induction a generalizing w b with
  | nil =>
    cases b with
    | nil => exact absurd rfl hne
    | cons y b => exact nil_lt_cons y b
  | cons x a ih =>
    have hpos : w.length % 2 ^ 32 = w.length := by
      apply mod_eq_of_lt
      simp only [length_append, length_cons] at ha
      omega
    cases b with
    | nil =>
      obtain ⟨j, hmask, hset, -⟩ := critMask_of_some x
      rw [findCritBitFrom, hpos, hmask, goesRight_mask, getElem?_beyond, getElem?_cons_zero, hset] at hleft
      cases hleft
    | cons y b =>
      rw [cons_lt_cons_iff]
      unfold findCritBitFrom at hleft
      split at hleft
      · rename_i heq
        subst heq
        refine .inr ⟨rfl, ih (w ++ [x]) (fun h => hne (h ▸ rfl)) (by simpa using ha) ?_⟩
        simpa using hleft
      · rename_i hxy
        obtain ⟨j, hj, hmask, hdiffer, hbefore⟩ := critMask_of_ne hxy
        rw [hpos, hmask, goesRight_mask, getElem?_beyond, getElem?_cons_zero, byteBit_some_of_lt hj] at hleft
        refine .inl (lt_of_critMask hj hleft ?_ hbefore)
        rw [hleft] at hdiffer
        exact Bool.eq_true_of_not_eq_false hdiffer.symm

theorem lt_of_goesLeft (ha : a.length ≤ 2 ^ 32) (hb : b.length ≤ 2 ^ 32) (hcrit : keyBits.Crit a b p)
    (hleft : goesRight a p = false) : a < b := by
  have hne : a ≠ b := by
    rintro rfl
    exact hcrit.differ rfl
  rw [crit_unique hcrit (crit_findCritBit hne ha hb)] at hleft
  exact lt_of_goesLeft_from [] hne ha hleft

end swytch.keytrie
