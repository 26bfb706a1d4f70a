import Mathlib.Algebra.Group.Int.Defs
import Mathlib.Algebra.Group.Nat.Defs
import Mathlib.Data.Int.Init
import Mathlib.Data.List.TakeWhile
import Mathlib.Order.Basic

namespace swytch.beacon

open List Char

/-- What `ToLower` and `TrimSpace` take from the Unicode tables. -/
structure Unicode where
  toLower : Char → Char
  isSpace : Char → Bool

inductive SizeError where
  | emptySize
  | invalidSize (s : List Char)
  | invalidNumber (s : List Char)
  | unknownSuffix (suffix : List Char)
  | invalidPercent (s : List Char)
  | percentOutOfRange (n : Int)
deriving DecidableEq, Repr

variable (u : Unicode) (s : List Char)

def trimSpace : List Char :=
  ((s.dropWhile u.isSpace).reverse.dropWhile u.isSpace).reverse

/-- `TrimSpace(ToLower(s))`. -/
def normalize : List Char := trimSpace u (s.map u.toLower)

def digitsValue (digits : List Char) : Nat := digits.foldl (fun n c => 10 * n + (c.toNat - 48)) 0

/-- `Sscanf` with `%d`: the longest leading integer, if it is one of 64 bits. What follows
it is left unread. -/
def sscanfInt : Option Int :=
  let unsigned := if s.head? = some '-' ∨ s.head? = some '+' then s.tail else s
  let digits := unsigned.takeWhile isDigit
  let n : Int := if s.head? = some '-' then -digitsValue digits else digitsValue digits
  if digits ≠ [] ∧ -2 ^ 63 ≤ n ∧ n < 2 ^ 63 then some n else none

def multiplier (suffix : List Char) : Option Nat :=
  if suffix ∈ [[], ['b']] then some 1
  else if suffix ∈ [['k'], ['k', 'b']] then some 1024
  else if suffix ∈ [['m'], ['m', 'b']] then some (1024 * 1024)
  else if suffix ∈ [['g'], ['g', 'b']] then some (1024 * 1024 * 1024)
  else if suffix ∈ [['t'], ['t', 'b']] then some (1024 * 1024 * 1024 * 1024)
  else none

/-- The product is one of 64 bits. -/
def parseSize : Except SizeError Int :=
  let s := normalize u s
  let digits := s.takeWhile isDigit
  let suffix := trimSpace u (s.dropWhile isDigit)
  if s = [] then .error .emptySize
  else if digits = [] then .error (.invalidSize s)
  else
    match sscanfInt digits with
    | none => .error (.invalidNumber s)
    | some val =>
      match multiplier suffix with
      | none => .error (.unknownSuffix suffix)
      | some m => .ok ((val * m).bmod (2 ^ 64))

/-- The bytes, and the percent in hundredths. -/
def parseMemoryLimit : Except SizeError (Int × Int) :=
  let s := normalize u s
  if s.getLast? = some '%' then
    match sscanfInt s.dropLast with
    | none => .error (.invalidPercent s)
    | some n => if n ≤ 0 ∨ n > 100 then .error (.percentOutOfRange n) else .ok (0, n)
  else (parseSize u s).map fun b => (b, 0)

/-- A decimal number in front of other text. -/
structure Leading (digits rest : List Char) : Prop where
  ne_nil : digits ≠ []
  digit : ∀ c ∈ digits, c.isDigit = true
  ends : ∀ c ∈ rest.head?, c.isDigit = false

variable {u : Unicode} {s digits rest : List Char} {bytes percent n : Int}

theorem Leading.takeWhile (h : Leading digits rest) :
    (digits ++ rest).takeWhile isDigit = digits ∧ (digits ++ rest).dropWhile isDigit = rest := by
  rw [takeWhile_append_of_pos h.digit, dropWhile_append_of_pos h.digit]
  cases rest with
  | nil => simp
  | cons c rest => simp [h.ends c (by simp)]

theorem leading_takeWhile (hs : s.takeWhile isDigit ≠ []) :
    Leading (s.takeWhile isDigit) (s.dropWhile isDigit) := by
  refine ⟨hs, fun c hc => mem_takeWhile_imp hc, fun c hc => ?_⟩
  have hhead := head?_dropWhile_not isDigit s
  rw [Option.mem_def.mp hc] at hhead
  exact Bool.eq_false_iff.mpr (by simpa using hhead)

/-- The scan of digits is their value, if that is a number of 64 bits. -/
theorem sscanfInt_digits (hne : digits ≠ []) (hdigit : ∀ c ∈ digits, c.isDigit = true) :
    sscanfInt digits = if digitsValue digits < 2 ^ 63 then some (digitsValue digits : Int) else none := by
  obtain ⟨c, tail, rfl⟩ := exists_cons_of_ne_nil hne
  have hc := hdigit c mem_cons_self
  have hminus : c ≠ '-' := by
    rintro rfl
    cases hc
  have hplus : c ≠ '+' := by
    rintro rfl
    cases hc
  unfold sscanfInt
  simp only [head?_cons, Option.some.injEq, hminus, hplus, or_self, if_false]
  rw [takeWhile_eq_self_iff.mpr hdigit]
  have hbound : -2 ^ 63 ≤ (digitsValue (c :: tail) : Int) := by omega
  simp only [ne_eq, reduceCtorEq, not_false_eq_true, hbound, true_and]
  norm_cast

theorem parseSize_iff {b : Int} : parseSize u s = .ok b ↔
    ∃ digits rest m, normalize u s = digits ++ rest ∧ Leading digits rest ∧ digitsValue digits < 2 ^ 63 ∧
      multiplier (trimSpace u rest) = some m ∧ b = ((digitsValue digits : Int) * m).bmod (2 ^ 64) := by
  unfold parseSize
  dsimp only
  generalize normalize u s = t
  constructor
  · intro hok
    split_ifs at hok with hempty hdigits
    have hlead := leading_takeWhile hdigits
    rw [sscanfInt_digits hdigits hlead.digit] at hok
    by_cases hvalue : digitsValue (t.takeWhile isDigit) < 2 ^ 63
    · rw [if_pos hvalue] at hok
      dsimp only at hok
      split at hok
      · cases hok
      · rename_i m hunit
        exact ⟨_, _, m, takeWhile_append_dropWhile.symm, hlead, hvalue, hunit, (Except.ok.inj hok).symm⟩
    · rw [if_neg hvalue] at hok
      cases hok
  · rintro ⟨digits, rest, m, rfl, hdigits, hvalue, hunit, hb⟩
    have hscan := (sscanfInt_digits hdigits.ne_nil hdigits.digit).trans (if_pos hvalue)
    simp only [append_ne_nil_of_left_ne_nil hdigits.ne_nil, hdigits.takeWhile, hdigits.ne_nil,
      hscan, hunit, if_false, hb]

/-- The text has the form of a size, up to spaces and case: a number with an optional unit. -/
def SizeText (u : Unicode) (s digits rest : List Char) (m : Nat) : Prop :=
  (normalize u s).getLast? ≠ some '%' ∧ normalize u (normalize u s) = digits ++ rest ∧ Leading digits rest ∧
    multiplier (trimSpace u rest) = some m

/-- The text has the form of a percentage: digits, and a percent sign directly after them. -/
def PercentText (u : Unicode) (s digits : List Char) : Prop :=
  normalize u s = digits ++ ['%'] ∧ digits ≠ [] ∧ ∀ c ∈ digits, c.isDigit = true

/-- If a number from 1 to 100 starts a text with a percent sign, only its digits stand
there; and a size whose number is one of 64 bits is neither zero nor 2⁶³ or more. -/
structure Regular (u : Unicode) (s : List Char) : Prop where
  percent : ∀ t n, normalize u s = t ++ ['%'] → sscanfInt t = some n → 1 ≤ n → n ≤ 100 → ∀ c ∈ t, c.isDigit = true
  size : ∀ digits rest m, SizeText u s digits rest m → digitsValue digits < 2 ^ 63 →
    0 < digitsValue digits * m ∧ digitsValue digits * m < 2 ^ 63

/-- What is accepted gives either bytes or a percentage, and it is a size that gives the
product of its number and its unit, or a percentage from 1 to 100 that gives its number. -/
def Exact (u : Unicode) (s : List Char) : Prop :=
  ∀ bytes percent, parseMemoryLimit u s = .ok (bytes, percent) →
    (bytes ≠ 0 ∧ percent = 0 ∧ ∃ digits rest m, SizeText u s digits rest m ∧ bytes = digitsValue digits * m) ∨
      (bytes = 0 ∧ percent ≠ 0 ∧ percent ≤ 100 ∧ ∃ digits, PercentText u s digits ∧ percent = digitsValue digits)

theorem parseMemoryLimit_percent {t : List Char} (htext : normalize u s = t ++ ['%']) :
    parseMemoryLimit u s = .ok (bytes, percent) ↔
      bytes = 0 ∧ sscanfInt t = some percent ∧ 1 ≤ percent ∧ percent ≤ 100 := by
  unfold parseMemoryLimit
  rw [htext, if_pos getLast?_concat, dropLast_concat]
  constructor
  · intro hok
    split at hok
    · cases hok
    · rename_i n hscan
      split_ifs at hok with hrange
      obtain ⟨rfl, rfl⟩ := Prod.mk.inj (Except.ok.inj hok)
      exact ⟨rfl, hscan, by omega, by omega⟩
  · rintro ⟨rfl, hscan, hlow, hhigh⟩
    rw [hscan]
    dsimp only
    rw [if_neg (by omega)]

theorem parseMemoryLimit_size (hplain : (normalize u s).getLast? ≠ some '%') :
    parseMemoryLimit u s = .ok (bytes, percent) ↔ percent = 0 ∧ ∃ digits rest m, SizeText u s digits rest m ∧
      digitsValue digits < 2 ^ 63 ∧ bytes = ((digitsValue digits : Int) * m).bmod (2 ^ 64) := by
  have hsize : parseMemoryLimit u s = .ok (bytes, percent) ↔ percent = 0 ∧ parseSize u (normalize u s) = .ok bytes := by
    unfold parseMemoryLimit
    rw [if_neg hplain]
    cases parseSize u (normalize u s) <;> simp [Except.map, eq_comm, and_comm]
  rw [hsize, parseSize_iff]
  refine and_congr_right fun _ => ?_
  constructor
  · rintro ⟨digits, rest, m, htext, hlead, hvalue, hunit, hbytes⟩
    exact ⟨digits, rest, m, ⟨hplain, htext, hlead, hunit⟩, hvalue, hbytes⟩
  · rintro ⟨digits, rest, m, ⟨-, htext, hlead, hunit⟩, hvalue, hbytes⟩
    exact ⟨digits, rest, m, htext, hlead, hvalue, hunit, hbytes⟩

/-- A text has the form of a size in one way. -/
theorem SizeText.unique {digits' rest' : List Char} {m m' : Nat} (h : SizeText u s digits rest m)
    (h' : SizeText u s digits' rest' m') : digits' = digits ∧ m' = m := by
  obtain ⟨-, htext, hlead, hunit⟩ := h
  obtain ⟨-, htext', hlead', hunit'⟩ := h'
  have hsame : digits ++ rest = digits' ++ rest' := htext.symm.trans htext'
  have hdigits : digits' = digits := hlead'.takeWhile.1.symm.trans (hsame ▸ hlead.takeWhile.1)
  have hrest : rest' = rest := hlead'.takeWhile.2.symm.trans (hsame ▸ hlead.takeWhile.2)
  rw [hrest, hunit] at hunit'
  exact ⟨hdigits, (Option.some.inj hunit').symm⟩

theorem Regular.exact (hregular : Regular u s) : Exact u s := by
  intro bytes percent hok
  by_cases hplain : (normalize u s).getLast? = some '%'
  · obtain ⟨t, ht⟩ := getLast?_eq_some_iff.mp hplain
    obtain ⟨rfl, hscan, hlow, hhigh⟩ := (parseMemoryLimit_percent ht).mp hok
    have hdigit := hregular.percent t percent ht hscan hlow hhigh
    have hne : t ≠ [] := by
      rintro rfl
      cases hscan
    rw [sscanfInt_digits hne hdigit] at hscan
    obtain ⟨-, hvalue⟩ := Option.ite_none_right_eq_some.mp hscan
    exact .inr ⟨rfl, by omega, hhigh, t, ⟨ht, hne, hdigit⟩, (Option.some.inj hvalue).symm⟩
  · obtain ⟨rfl, digits, rest, m, htext, hvalue, hbytes⟩ := (parseMemoryLimit_size hplain).mp hok
    obtain ⟨hpos, hlt⟩ := hregular.size digits rest m htext hvalue
    have hproduct : ((digitsValue digits : Int) * m).bmod (2 ^ 64) = digitsValue digits * m := by
      rw [← Int.natCast_mul]
      exact Int.bmod_eq_of_le (by omega) (by omega)
    rw [hproduct, ← Int.natCast_mul] at hbytes
    exact .inl ⟨by omega, rfl, digits, rest, m, htext, hbytes.trans (Int.natCast_mul _ _)⟩

theorem regular_of_exact (hexact : Exact u s) : Regular u s := by
  constructor
  · intro t n ht hscan hlow hhigh
    obtain ⟨hne, -⟩ | ⟨-, -, -, digits, ⟨htext, -, hdigit⟩, -⟩ :=
      hexact 0 n ((parseMemoryLimit_percent ht).mpr ⟨rfl, hscan, hlow, hhigh⟩)
    · exact absurd rfl hne
    · obtain ⟨rfl, -⟩ := append_inj' (ht.symm.trans htext) rfl
      exact hdigit
  · intro digits rest m htext hvalue
    obtain ⟨hne, -, digits', rest', m', htext', hbytes⟩ | ⟨-, hne, -⟩ :=
      hexact _ 0 ((parseMemoryLimit_size htext.1).mpr ⟨rfl, digits, rest, m, htext, hvalue, rfl⟩)
    · obtain ⟨rfl, rfl⟩ := htext.unique htext'
      rw [← Int.natCast_mul] at hne hbytes
      have hbelow := @Int.bmod_lt (digitsValue digits' * m' : Nat) (2 ^ 64) (by decide)
      omega
    · exact absurd rfl hne

/-- A string is parsed exactly or rejected if and only if it is regular; and every percentage
from 1 to 100 and every size from 1 to 2⁶³ - 1 is accepted. -/
theorem parseMemoryLimit_exact_iff (u : Unicode) (s : List Char) :
    (Exact u s ↔ Regular u s) ∧
    (∀ digits, PercentText u s digits → 1 ≤ digitsValue digits → digitsValue digits ≤ 100 →
      parseMemoryLimit u s = .ok (0, digitsValue digits)) ∧
    ∀ digits rest m, SizeText u s digits rest m → 0 < digitsValue digits * m → digitsValue digits * m < 2 ^ 63 →
      parseMemoryLimit u s = .ok ((digitsValue digits * m : Nat), 0) := by
  refine ⟨⟨regular_of_exact, Regular.exact⟩, fun digits ⟨htext, hne, hdigit⟩ hlow hhigh => ?_,
    fun digits rest m htext hpos hlt => ?_⟩
  · refine (parseMemoryLimit_percent htext).mpr ⟨rfl, ?_, by omega, by omega⟩
    rw [sscanfInt_digits hne hdigit, if_pos (by omega)]
  · have hm : 0 < m := Nat.pos_of_mul_pos_left hpos
    have hvalue : digitsValue digits < 2 ^ 63 := lt_of_le_of_lt (Nat.le_mul_of_pos_right _ hm) hlt
    refine (parseMemoryLimit_size htext.1).mpr ⟨rfl, digits, rest, m, htext, hvalue, ?_⟩
    rw [← Int.natCast_mul]
    exact (Int.bmod_eq_of_le (by omega) (by omega)).symm

/-- The ASCII part of the tables. -/
def ascii : Unicode := ⟨toLower, isWhitespace⟩

/-- A product that does not fit, a zero, and text before a percent sign are accepted. -/
theorem parseMemoryLimit_wraps : parseMemoryLimit ascii "8388608t".toList = .ok (-9223372036854775808, 0) ∧
      parseMemoryLimit ascii "0".toList = .ok (0, 0) ∧ parseMemoryLimit ascii "50 apples%".toList = .ok (0, 50) := by
  refine ⟨?_, ?_, ?_⟩ <;> decide +kernel

end swytch.beacon
