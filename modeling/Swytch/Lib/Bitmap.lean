import Mathlib.Data.Nat.Bitwise
import Mathlib.Data.Fin.Basic
import Mathlib.Tactic.Common

namespace swytch.lib

open List Nat

variable (v : Fin 256) (bits : List (Fin 256)) (g : Nat)

/-- Whether bit `g` of a string of bytes is set, the lowest bit of a byte first. -/
def hasBit : Bool :=
  (bits.getD (g >>> 3) 0).val &&& (1 <<< (g &&& 7)) != 0

/-- A byte with a bit set. -/
def orBit (k : Nat) : Fin 256 :=
  ⟨(v.val ||| (1 <<< k)) % 256, mod_lt _ (by decide)⟩

def putBit : List (Fin 256) :=
  bits.modify (g >>> 3) (orBit · (g &&& 7))

def onesOfByte : Nat :=
  (range 8).countP (fun k => v.val &&& (1 <<< k) != 0)

/-- The number of bits that are set. -/
def onesCount : Nat :=
  bits.foldl (fun n v => n + onesOfByte v) 0

@[simp] theorem length_putBit : (putBit bits g).length = bits.length :=
  length_modify ..

theorem bit_orBit : ∀ (v : Fin 256) (k j : Fin 8),
    ((orBit v k).val &&& (1 <<< j.val) != 0) = (decide (j = k) || v.val &&& (1 <<< j.val) != 0) := by
  decide +kernel

theorem onesOfByte_orBit : ∀ (v : Fin 256) (k : Fin 8),
    onesOfByte (orBit v k) = onesOfByte v + if (v.val &&& (1 <<< k.val) != 0) = true then 0 else 1 := by
  decide +kernel

theorem mod_eight : g &&& 7 = g % 8 :=
  and_two_pow_sub_one_eq_mod g 3

variable {bits : List (Fin 256)}

/-- Setting a bit sets that bit and no other. -/
theorem hasBit_putBit {g : Nat} (hg : g < bits.length * 8) (j : Nat) :
    hasBit (putBit bits g) j = (decide (j = g) || hasBit bits j) := by
  have hdiv (n : Nat) : n >>> 3 = n / 8 := shiftRight_eq_div_pow n 3
  unfold hasBit putBit
  simp only [hdiv, mod_eight, getD_eq_getElem?_getD, getElem?_modify]
  by_cases hbyte : g / 8 = j / 8
  · have hlt : j / 8 < bits.length := by omega
    have hsame : j = g ↔ (⟨j % 8, mod_lt _ (by decide)⟩ : Fin 8) = ⟨g % 8, mod_lt _ (by decide)⟩ := by
      rw [Fin.mk.injEq]
      omega
    rw [getElem?_eq_getElem hlt, decide_eq_decide.mpr hsame]
    simp only [hbyte, if_true, Option.map_eq_map, Option.map_some, Option.getD_some]
    exact bit_orBit bits[j / 8] ⟨g % 8, mod_lt _ (by decide)⟩ ⟨j % 8, mod_lt _ (by decide)⟩
  · have hne : j ≠ g := fun heq => hbyte (by rw [heq])
    rw [decide_eq_false hne, Bool.false_or]
    simp only [hbyte, if_false, id_map']

theorem foldl_onesOfByte (bits : List (Fin 256)) (n : Nat) :
    bits.foldl (fun n v => n + onesOfByte v) n = n + onesCount bits := by
  induction bits generalizing n with
  | nil => rfl
  | cons v bits ih => rw [onesCount, foldl_cons, foldl_cons, ih, ih, zero_add, add_assoc]

theorem onesCount_cons (bits : List (Fin 256)) : onesCount (v :: bits) = onesOfByte v + onesCount bits := by
  rw [onesCount, foldl_cons, foldl_onesOfByte, zero_add]

theorem onesCount_replicate_zero (n : Nat) : onesCount (replicate n 0) = 0 := by
  induction n with
  | zero => rfl
  | succ n ih =>
    rw [replicate_succ, onesCount_cons, ih]
    rfl

theorem onesCount_modify {i : Nat} (hi : i < bits.length) (k : Fin 8) : onesCount (bits.modify i (orBit · k)) =
      onesCount bits + if (bits[i].val &&& (1 <<< k.val) != 0) = true then 0 else 1 := by
  induction bits generalizing i with
  | nil => cases hi
  | cons v bits ih =>
    cases i with
    | zero =>
      rw [modify_zero_cons, onesCount_cons, onesCount_cons, onesOfByte_orBit, getElem_cons_zero]
      omega
    | succ i =>
      have hi : i < bits.length := lt_of_succ_lt_succ hi
      rw [modify_succ_cons, onesCount_cons, onesCount_cons, ih hi, getElem_cons_succ, add_assoc]

/-- Setting a bit adds one to the number of set bits unless it was set already. -/
theorem onesCount_putBit {g : Nat} (hg : g < bits.length * 8) :
    onesCount (putBit bits g) = onesCount bits + if hasBit bits g = true then 0 else 1 := by
  have hdiv : g >>> 3 = g / 8 := shiftRight_eq_div_pow g 3
  have hlt : g / 8 < bits.length := by omega
  have hmodify := onesCount_modify hlt ⟨g % 8, mod_lt _ (by decide)⟩
  unfold putBit hasBit
  rw [hdiv, mod_eight, getD_eq_getElem _ _ hlt]
  exact hmodify

end swytch.lib
