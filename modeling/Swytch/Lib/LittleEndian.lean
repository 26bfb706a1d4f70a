import Mathlib.Data.List.Lex
import Mathlib.Order.Fin.Basic
import Mathlib.Tactic.Ring

namespace swytch.lib

open Nat List

/-- The low `w` bytes of a number, least significant byte first. -/
def littleEndian : Nat → Nat → List (Fin 256)
  | 0, _ => []
  | w + 1, n => ⟨n % 256, mod_lt _ (by decide)⟩ :: littleEndian w (n / 256)

def ofLittleEndian : List (Fin 256) → Nat
  | [] => 0
  | b :: bs => b.val + 256 * ofLittleEndian bs

@[simp] theorem length_littleEndian (w n : Nat) : (littleEndian w n).length = w := by
  induction w generalizing n with
  | zero => rfl
  | succ w ih => rw [littleEndian, length_cons, ih]

theorem ofLittleEndian_littleEndian (w n : Nat) : ofLittleEndian (littleEndian w n) = n % 256 ^ w := by
  induction w generalizing n with
  | zero => rw [littleEndian, ofLittleEndian, pow_zero, mod_one]
  | succ w ih => rw [littleEndian, ofLittleEndian, ih, pow_succ', mod_mul]

variable (bs : List (Fin 256))

theorem ofLittleEndian_lt : ofLittleEndian bs < 256 ^ bs.length := by
  induction bs with
  | nil => exact one_pos
  | cons b bs ih =>
    have hb := b.isLt
    rw [ofLittleEndian, length_cons, pow_succ']
    omega

/-- The low `w` bytes of a number, most significant byte first. -/
def bigEndian (w n : Nat) : List (Fin 256) :=
  (littleEndian w n).reverse

def ofBigEndian : Nat :=
  ofLittleEndian bs.reverse

@[simp] theorem length_bigEndian (w n : Nat) : (bigEndian w n).length = w := by
  rw [bigEndian, length_reverse, length_littleEndian]

theorem ofBigEndian_bigEndian (w n : Nat) : ofBigEndian (bigEndian w n) = n % 256 ^ w := by
  rw [ofBigEndian, bigEndian, reverse_reverse, ofLittleEndian_littleEndian]

theorem ofBigEndian_bigEndian_of_lt {w n : Nat} (hn : n < 256 ^ w) : ofBigEndian (bigEndian w n) = n := by
  rw [ofBigEndian_bigEndian, mod_eq_of_lt hn]

theorem ofBigEndian_lt : ofBigEndian bs < 256 ^ bs.length := by
  have hlt := ofLittleEndian_lt bs.reverse
  rwa [length_reverse] at hlt

end swytch.lib
