import Mathlib.Data.List.Lex
import Mathlib.Order.Fin.Basic

namespace swytch.lib

/-- A continuation byte of UTF-8. -/
def isContinuation (b : Fin 256) : Bool :=
  128 ≤ b.val && b.val ≤ 191

/-- The first two bytes of a three-byte sequence: no overlong form and no surrogate. -/
def startsThree (b0 b1 : Fin 256) : Bool :=
  (b0.val == 224 && 160 ≤ b1.val && b1.val ≤ 191) || (b0.val == 237 && 128 ≤ b1.val && b1.val ≤ 159) ||
    (225 ≤ b0.val && b0.val ≤ 239 && b0.val != 237 && isContinuation b1)

/-- The first two bytes of a four-byte sequence: no overlong form, none beyond the last
code point. -/
def startsFour (b0 b1 : Fin 256) : Bool :=
  (b0.val == 240 && 144 ≤ b1.val && b1.val ≤ 191) || (b0.val == 244 && 128 ≤ b1.val && b1.val ≤ 143) ||
    (241 ≤ b0.val && b0.val ≤ 243 && isContinuation b1)

/-- Whether a byte string is valid UTF-8. -/
def validUtf8 : List (Fin 256) → Bool
  | [] => true
  | b0 :: rest =>
    if b0.val < 128 then validUtf8 rest
    else
      match rest with
      | [] => false
      | b1 :: rest =>
        if 194 ≤ b0.val && b0.val ≤ 223 then isContinuation b1 && validUtf8 rest
        else
          match rest with
          | [] => false
          | b2 :: rest =>
            if startsThree b0 b1 then isContinuation b2 && validUtf8 rest
            else
              match rest with
              | [] => false
              | b3 :: rest => startsFour b0 b1 && isContinuation b2 && isContinuation b3 && validUtf8 rest

theorem validUtf8_of_ascii {s : List (Fin 256)} (hascii : ∀ b ∈ s, b.val < 128) : validUtf8 s = true := by
  induction s with
  | nil => rfl
  | cons b s ih =>
    rw [validUtf8.eq_def]
    dsimp only
    rw [if_pos (hascii b List.mem_cons_self)]
    exact ih fun c hc => hascii c (List.mem_cons_of_mem b hc)

/-- A hexadecimal digit in lower case. -/
def hexDigit (n : Fin 16) : Fin 256 :=
  ⟨if n.val < 10 then 48 + n.val else 87 + n.val, by split <;> omega⟩

/-- The value of a hexadecimal digit in either case. -/
def hexValue (c : Fin 256) : Option (Fin 16) :=
  if h : 48 ≤ c.val ∧ c.val ≤ 57 then some ⟨c.val - 48, by omega⟩
  else if h : 97 ≤ c.val ∧ c.val ≤ 102 then some ⟨c.val - 87, by omega⟩
  else if h : 65 ≤ c.val ∧ c.val ≤ 70 then some ⟨c.val - 55, by omega⟩
  else none

def hexEncode : List (Fin 256) → List (Fin 256)
  | [] => []
  | b :: bs => hexDigit ⟨b.val / 16, by omega⟩ :: hexDigit ⟨b.val % 16, by omega⟩ :: hexEncode bs

def hexDecode : List (Fin 256) → Option (List (Fin 256))
  | [] => some []
  | [_] => none
  | hi :: lo :: rest =>
    (hexValue hi).bind fun h => (hexValue lo).bind fun l => (hexDecode rest).map
      fun bs => ⟨16 * h.val + l.val, by omega⟩ :: bs

theorem hexDigit_ascii (n : Fin 16) : (hexDigit n).val < 128 := by
  unfold hexDigit
  dsimp only
  split <;> omega

theorem hexValue_hexDigit (n : Fin 16) : hexValue (hexDigit n) = some n := by
  revert n
  decide

theorem hexDecode_hexEncode (s : List (Fin 256)) : hexDecode (hexEncode s) = some s := by
  induction s with
  | nil => rfl
  | cons b s ih =>
    have hb : 16 * (b.val / 16) + b.val % 16 = b.val := Nat.div_add_mod b.val 16
    rw [hexEncode, hexDecode, hexValue_hexDigit, hexValue_hexDigit, ih]
    simp [hb]

theorem hexEncode_ascii (s : List (Fin 256)) : ∀ b ∈ hexEncode s, b.val < 128 := by
  induction s with
  | nil => exact nofun
  | cons c s ih =>
    intro b hb
    rw [hexEncode, List.mem_cons, List.mem_cons] at hb
    rcases hb with rfl | rfl | hb
    · exact hexDigit_ascii _
    · exact hexDigit_ascii _
    · exact ih b hb

end swytch.lib
