import Swytch.Proto.Replication

open swytch.proto List Option Nat

namespace swytch.keytrie

/-- A byte against the text between the brackets of a class. -/
def matchCharClass (b : Fin 256) : Bytes → Bool
  | lo :: dash :: hi :: rest =>
    if dash = 45 then decide (lo ≤ b ∧ b ≤ hi) || matchCharClass b rest
    else decide (b = lo) || matchCharClass b (dash :: hi :: rest)
  | c :: rest => decide (b = c) || matchCharClass b rest
  | [] => false

/-- What is left of the string and of the pattern, and what follows the last star in the
pattern with the rest of the string from which it is tried. -/
structure GlobState where
  rest : Bytes
  pat : Bytes
  star : Option (Bytes × Bytes) := none

/-- Try what follows the last star one byte later. -/
def GlobState.backtrack (st : GlobState) : Option GlobState :=
  st.star.map fun p => ⟨p.2.tail, p.1, some (p.1, p.2.tail)⟩

/-- One round of the loop of `MatchGlob`, with `b` the next byte of the string and `rest`
those after it. -/
def matchGlobStep (b : Fin 256) (rest : Bytes) (st : GlobState) : Option GlobState :=
  match st.pat with
  | [] => st.backtrack
  | c :: pat =>
    if c = 42 then some ⟨b :: rest, pat, some (pat, b :: rest)⟩
    else if c = 63 then some ⟨rest, pat, st.star⟩
    else if c = 91 then
      let negate := pat.head? == some 94
      let body := if negate then pat.tail else pat
      match body.dropWhile (· ≠ 93) with
      | [] => st.backtrack
      | _ :: after =>
        if matchCharClass b (body.takeWhile (· ≠ 93)) != negate then some ⟨rest, after, st.star⟩ else st.backtrack
    else if c = 92 then
      match pat with
      | [] => st.backtrack
      | c' :: after => if b = c' then some ⟨rest, after, st.star⟩ else st.backtrack
    else if b = c then some ⟨rest, pat, st.star⟩
    else st.backtrack

/-- The loop, for at most the given number of rounds. -/
def globLoop (step : Fin 256 → Bytes → GlobState → Option GlobState) (rounds : Nat) (st : GlobState) : Option Bool :=
  match st.rest, rounds with
  | [], _ => some (st.pat.all (· = 42))
  | _ :: _, 0 => none
  | b :: rest, n + 1 =>
    match step b rest st with
    | none => some false
    | some st' => globLoop step n st'

def matchGlob (rounds : Nat) (s pattern : Bytes) : Option Bool := globLoop matchGlobStep rounds ⟨s, pattern, none⟩

/-- What stands for one byte or for any string in a pattern. -/
inductive Token
  | star
  | any
  | cls (negate : Bool) (ranges : List (Fin 256 × Fin 256))
  | literal (b : Fin 256)
  | never

def Token.accepts (b : Fin 256) : Token → Bool
  | .star | .never => false
  | .any => true
  | .cls negate ranges => ranges.any (fun r => decide (r.1 ≤ b ∧ b ≤ r.2)) != negate
  | .literal c => decide (b = c)

def classRanges : Bytes → List (Fin 256 × Fin 256)
  | lo :: dash :: hi :: rest =>
    if dash = 45 then (lo, hi) :: classRanges rest else (lo, lo) :: classRanges (dash :: hi :: rest)
  | c :: rest => (c, c) :: classRanges rest
  | [] => []

/-- The first token of a pattern and the rest of the pattern. -/
def headToken (c : Fin 256) (pat : Bytes) : Token × Bytes :=
  if c = 42 then (.star, pat)
  else if c = 63 then (.any, pat)
  else if c = 91 then
    let negate := pat.head? == some 94
    let body := if negate then pat.tail else pat
    match body.dropWhile (· ≠ 93) with
    | [] => (.never, [])
    | _ :: after => (.cls negate (classRanges (body.takeWhile (· ≠ 93))), after)
  else if c = 92 then
    match pat with
    | [] => (.never, [])
    | c' :: after => (.literal c', after)
  else (.literal c, pat)

theorem length_headToken (c : Fin 256) (pat : Bytes) : (headToken c pat).2.length ≤ pat.length := by
  unfold headToken
  split
  · exact le_refl _
  · split
    · exact le_refl _
    · split
      · dsimp only
        split
        · exact zero_le _
        · rename_i heq
          have hdrop := (dropWhile_sublist (fun x : Fin 256 => decide (x ≠ 93))
            (l := if (pat.head? == some 94) = true then pat.tail else pat)).length_le
          rw [heq, length_cons] at hdrop
          have hbody : (if (pat.head? == some 94) = true then pat.tail else pat).length ≤ pat.length := by
            split
            · simp
            · exact le_refl _
          dsimp only
          omega
      · split
        · split <;> simp
        · exact le_refl _

def tokens : Bytes → List Token
  | [] => []
  | c :: pat => (headToken c pat).1 :: tokens (headToken c pat).2
termination_by pat => pat.length
decreasing_by exact lt_succ_of_le (length_headToken c pat)

/-- The strings that a sequence of tokens stands for. -/
def Matches : List Token → Bytes → Prop
  | [], s => s = []
  | .star :: ts, s => ∃ k, Matches ts (s.drop k)
  | t :: ts, s => ∃ b s', s = b :: s' ∧ t.accepts b = true ∧ Matches ts s'

variable {b c : Fin 256} {rest pat s pattern : Bytes} {t : Token} {ts between : List Token} {st st' : GlobState}

theorem matches_cons (ht : t ≠ .star) :
    Matches (t :: ts) s ↔ ∃ b s', s = b :: s' ∧ t.accepts b = true ∧ Matches ts s' := by
  cases t with
  | star => exact absurd rfl ht
  | _ => rfl

theorem matchCharClass_eq (b : Fin 256) (cls : Bytes) :
    matchCharClass b cls = (classRanges cls).any (fun r => decide (r.1 ≤ b ∧ b ≤ r.2)) := by
  have hsingle (c : Fin 256) : decide (b = c) = decide (c ≤ b ∧ b ≤ c) :=
    decide_eq_decide.mpr ⟨fun h => h ▸ ⟨le_refl _, le_refl _⟩, fun h => le_antisymm h.2 h.1⟩
  fun_induction matchCharClass b cls with
  | case1 lo hi rest ih => rw [classRanges, if_pos rfl, any_cons, ih]
  | case2 lo dash hi rest hdash ih => rw [classRanges, if_neg hdash, any_cons, ih, hsingle]
  | case3 c rest hrest ih =>
    rw [classRanges, any_cons, ih, hsingle]
    exact hrest
  | case4 => rfl

theorem headToken_eq_star_iff : (headToken c pat).1 = .star ↔ c = 42 := by
  unfold headToken
  split
  · simpa using ‹c = 42›
  · refine iff_of_false ?_ ‹_›
    split
    · simp
    · split
      · dsimp only
        split <;> simp
      · split
        · split <;> simp
        · simp

/-- A round at a token other than a star: the byte is taken, or the last star is tried again. -/
theorem matchGlobStep_eq (hpat : st.pat = c :: pat) (hstar : c ≠ 42) : matchGlobStep b rest st =
      if (headToken c pat).1.accepts b then some ⟨rest, (headToken c pat).2, st.star⟩ else st.backtrack := by
  unfold matchGlobStep headToken
  rw [hpat]
  dsimp only
  rw [if_neg hstar, if_neg hstar]
  split
  · rfl
  · split
    · cases hdrop : (if (pat.head? == some 94) = true then pat.tail else pat).dropWhile (· ≠ 93) with
      | nil => rfl
      | cons x after =>
        dsimp only
        rw [matchCharClass_eq]
        rfl
    · split
      · cases pat with
        | nil => rfl
        | cons c' after => simp [Token.accepts]
      · simp [Token.accepts]

/-- Tokens that take one byte each stand before the rest of a string. -/
theorem Matches.drop (hone : .star ∉ between) (h : Matches (between ++ ts) s) : Matches ts (s.drop between.length) := by
  induction between generalizing s with
  | nil => exact h
  | cons t between ih =>
    rw [mem_cons, not_or] at hone
    obtain ⟨b, s', rfl, -, hrest⟩ := (matches_cons (Ne.symm hone.1)).mp h
    exact ih hone.2 hrest

theorem matches_nil_iff : Matches (tokens pat) [] ↔ pat.all (· = 42) = true := by
  induction pat with
  | nil => simp [tokens, Matches]
  | cons c pat ih =>
    rw [tokens]
    by_cases hstar : c = 42
    · have hhead : headToken c pat = (.star, pat) := if_pos hstar
      rw [hhead]
      simp [Matches, ih, hstar]
    · rw [matches_cons (fun h => hstar (headToken_eq_star_iff.mp h))]
      simp [hstar]

namespace GlobState

/-- The string is matched if the rest is, now or after the last star. Since that star, only
tokens that take one byte each were passed. -/
structure Inv (s pattern : Bytes) (st : GlobState) : Prop where
  answer : Matches (tokens pattern) s ↔
    Matches (tokens st.pat) st.rest ∨ ∃ p ∈ st.star, ∃ k, Matches (tokens p.1) (p.2.drop (k + 1))
  passed : ∀ p ∈ st.star, ∃ between, tokens p.1 = between ++ tokens st.pat ∧ .star ∉ between ∧
    st.rest = p.2.drop between.length
  pat_le : st.pat.length ≤ pattern.length
  star_le : ∀ p ∈ st.star, p.1.length ≤ pattern.length
  rest_le : st.rest.length ≤ (st.star.elim s Prod.snd).length

/-- The rounds that are left. -/
def left (s pattern : Bytes) (st : GlobState) : Nat :=
  (st.star.elim s Prod.snd).length * (pattern.length + 1) + st.pat.length

theorem Inv.start (s pattern : Bytes) : Inv s pattern ⟨s, pattern, none⟩ :=
  ⟨by simp, by simp, le_refl _, by simp, le_refl _⟩

/-- Where the rest is not matched, the last star decides. -/
theorem Inv.backtrack (h : st.Inv s pattern) (hrest : st.rest = b :: rest) (hnot : ¬ Matches (tokens st.pat) st.rest) :
    match st.backtrack with
    | none => ¬ Matches (tokens pattern) s
    | some st' => st'.Inv s pattern ∧ st'.left s pattern < st.left s pattern := by
  have hanswer := h.answer
  rw [or_iff_right hnot] at hanswer
  unfold GlobState.backtrack
  cases hstar : st.star with
  | none => simp [hanswer, hstar]
  | some p =>
    have hlen := h.rest_le
    have hpat := h.star_le p hstar
    rw [hrest, hstar, length_cons, elim_some] at hlen
    refine ⟨⟨?_, ?_, hpat, ?_, le_refl _⟩, ?_⟩
    · rw [hanswer]
      simp only [hstar, mem_def, some.injEq, exists_eq_left', drop_tail]
      constructor
      · rintro ⟨k, hk⟩
        cases k with
        | zero => exact .inl (by simpa using hk)
        | succ k => exact .inr ⟨k, hk⟩
      · rintro (hnow | ⟨k, hk⟩)
        · exact ⟨0, by simpa using hnow⟩
        · exact ⟨k + 1, hk⟩
    · rintro _ ⟨⟩
      exact ⟨[], rfl, by simp, rfl⟩
    · rintro _ ⟨⟩
      exact hpat
    · have hmul : p.2.length * (pattern.length + 1) =
          (p.2.length - 1) * (pattern.length + 1) + (pattern.length + 1) := by
        rw [← succ_mul]
        congr 1
        omega
      simp only [left, hstar, elim_some, length_tail]
      omega

/-- A star is tried from where the loop is: a match after an earlier star is one after this. -/
theorem Inv.star (h : st.Inv s pattern) (hpat : st.pat = 42 :: pat) :
    Inv s pattern ⟨st.rest, pat, some (pat, st.rest)⟩ ∧
      left s pattern ⟨st.rest, pat, some (pat, st.rest)⟩ < st.left s pattern := by
  have hhead : tokens st.pat = .star :: tokens pat := by rw [hpat, tokens]; rfl
  have hlen := h.pat_le
  rw [hpat, length_cons] at hlen
  have hrest := mul_le_mul_right (pattern.length + 1) h.rest_le
  refine ⟨⟨?_, ?_, le_of_succ_le hlen, ?_, le_refl _⟩, ?_⟩
  · rw [h.answer, hhead]
    simp only [mem_def, some.injEq, exists_eq_left']
    constructor
    · intro hmatch
      have hlater : ∃ k, Matches (tokens pat) (st.rest.drop k) := by
        obtain hnow | ⟨p, hp, k, hk⟩ := hmatch
        · exact hnow
        · obtain ⟨between, hbetween, hone, hdrop⟩ := h.passed p hp
          rw [hbetween, hhead] at hk
          obtain ⟨j, hj⟩ := hk.drop hone
          rw [drop_drop, drop_drop] at hj
          refine ⟨k + 1 + j, ?_⟩
          rw [hdrop, drop_drop]
          convert hj using 2
          omega
      obtain ⟨k, hk⟩ := hlater
      cases k with
      | zero => exact .inl (by simpa using hk)
      | succ k => exact .inr ⟨k, hk⟩
    · rintro (hnow | ⟨k, hk⟩)
      · exact .inl ⟨0, hnow⟩
      · exact .inl ⟨k + 1, hk⟩
  · rintro _ ⟨⟩
    exact ⟨[], rfl, by simp, rfl⟩
  · rintro _ ⟨⟩
    exact le_of_succ_le hlen
  · simp only [left, elim_some, hpat, length_cons]
    omega

/-- A token other than a star takes the byte. -/
theorem Inv.advance (h : st.Inv s pattern) (hrest : st.rest = b :: rest) (hpat : st.pat = c :: pat) (hstar : c ≠ 42)
    (hone : (headToken c pat).1.accepts b = true) : Inv s pattern ⟨rest, (headToken c pat).2, st.star⟩ ∧
      left s pattern ⟨rest, (headToken c pat).2, st.star⟩ < st.left s pattern := by
  have hhead : tokens st.pat = (headToken c pat).1 :: tokens (headToken c pat).2 := by rw [hpat, tokens]
  have hne : (headToken c pat).1 ≠ .star := fun heq => hstar (headToken_eq_star_iff.mp heq)
  have hpatLen := h.pat_le
  have hrestLen := h.rest_le
  have hafter := length_headToken c pat
  rw [hpat, length_cons] at hpatLen
  rw [hrest, length_cons] at hrestLen
  refine ⟨⟨?_, ?_, by dsimp only; omega, h.star_le, by dsimp only; omega⟩, ?_⟩
  · rw [h.answer, hhead, matches_cons hne, hrest]
    simp [hone]
  · intro p hp
    obtain ⟨between, hbetween, hnone, hdrop⟩ := h.passed p hp
    refine ⟨between ++ [(headToken c pat).1], ?_, ?_, ?_⟩
    · rw [hbetween, hhead, append_assoc, singleton_append]
    · simpa [hnone] using Ne.symm hne
    · rw [length_append, length_singleton, ← drop_drop, ← hdrop, hrest, drop_one, tail_cons]
  · simp only [left, hpat, length_cons]
    omega

theorem Inv.step (h : st.Inv s pattern) (hrest : st.rest = b :: rest) :
    match matchGlobStep b rest st with
    | none => ¬ Matches (tokens pattern) s
    | some st' => st'.Inv s pattern ∧ st'.left s pattern < st.left s pattern := by
  cases hpat : st.pat with
  | nil =>
    unfold matchGlobStep
    rw [hpat]
    exact h.backtrack hrest (by simp [hpat, hrest, tokens, Matches])
  | cons c pat =>
    by_cases hstar : c = 42
    · subst hstar
      unfold matchGlobStep
      rw [hpat, ← hrest]
      exact h.star hpat
    · rw [matchGlobStep_eq hpat hstar]
      by_cases hone : (headToken c pat).1.accepts b = true
      · rw [if_pos hone]
        exact h.advance hrest hpat hstar hone
      · rw [if_neg hone]
        refine h.backtrack hrest ?_
        rw [hpat, tokens, matches_cons (fun heq => hstar (headToken_eq_star_iff.mp heq)), hrest]
        simp [hone]

/-- The loop ends in time, and its answer is that of the tokens. -/
theorem Inv.globLoop (h : st.Inv s pattern) {n : Nat} (hn : st.left s pattern < n) :
    ∃ result, globLoop matchGlobStep n st = some result ∧ (result = true ↔ Matches (tokens pattern) s) := by
  induction n generalizing st with
  | zero => omega
  | succ n ih =>
    unfold keytrie.globLoop
    cases hrest : st.rest with
    | nil =>
      refine ⟨_, rfl, ?_⟩
      rw [h.answer, hrest, ← matches_nil_iff, iff_self_or]
      rintro ⟨p, hp, k, hk⟩
      obtain ⟨between, hbetween, hone, hdrop⟩ := h.passed p hp
      rw [hbetween] at hk
      have hend := hk.drop hone
      rwa [drop_drop, add_comm, ← drop_drop, ← hdrop, hrest, drop_nil] at hend
    | cons b rest =>
      have hstep := h.step hrest
      dsimp only
      cases hnext : matchGlobStep b rest st with
      | none =>
        rw [hnext] at hstep
        exact ⟨false, rfl, by simpa using hstep⟩
      | some st' =>
        rw [hnext] at hstep
        exact ih hstep.1 (by omega)

end GlobState

end swytch.keytrie

namespace swytch.crdt

open keytrie

/-- One round of the loop of `MatchGlobPattern`, which tries the last star again in place
when a class is not closed. -/
def matchGlobPatternStep (b : Fin 256) (rest : Bytes) (st : GlobState) : Option GlobState :=
  match st.pat with
  | [] => st.backtrack
  | c :: pat =>
    if c = 42 then some ⟨b :: rest, pat, some (pat, b :: rest)⟩
    else if c = 63 then some ⟨rest, pat, st.star⟩
    else if c = 91 then
      let negate := pat.head? == some 94
      let body := if negate then pat.tail else pat
      match body.dropWhile (· ≠ 93), st.star with
      | [], some (after, tried) => some ⟨tried.tail, after, some (after, tried.tail)⟩
      | [], none => none
      | _ :: after, _ =>
        if matchCharClass b (body.takeWhile (· ≠ 93)) != negate then some ⟨rest, after, st.star⟩ else st.backtrack
    else if c = 92 then
      match pat with
      | [] => st.backtrack
      | c' :: after => if b = c' then some ⟨rest, after, st.star⟩ else st.backtrack
    else if b = c then some ⟨rest, pat, st.star⟩
    else st.backtrack

def matchGlobPattern (rounds : Nat) (s pattern : Bytes) : Option Bool :=
  globLoop matchGlobPatternStep rounds ⟨s, pattern, none⟩

theorem matchGlobPatternStep_eq (b : Fin 256) (rest : Bytes) (st : GlobState) :
    matchGlobPatternStep b rest st = matchGlobStep b rest st := by
  obtain ⟨_, pat, star⟩ := st
  unfold matchGlobPatternStep matchGlobStep
  cases pat with
  | nil => rfl
  | cons c pat =>
    dsimp only
    cases (if (pat.head? == some 94) = true then pat.tail else pat).dropWhile (· ≠ 93) with
    | nil => cases star <;> rfl
    | cons => rfl

/-- Both matchers end within a number of rounds bounded by the product of the lengths, and
say whether the string is one of those that the tokens of the pattern stand for. -/
theorem matchGlob_iff_matches (s pattern : Bytes) :
    ∃ result, matchGlob ((s.length + 1) * (pattern.length + 1)) s pattern = some result ∧
      (result = true ↔ Matches (tokens pattern) s) ∧
      matchGlobPattern ((s.length + 1) * (pattern.length + 1)) s pattern = some result := by
  have hsame : matchGlobPatternStep = matchGlobStep := by
    funext b rest st
    exact matchGlobPatternStep_eq b rest st
  have hleft : GlobState.left s pattern ⟨s, pattern, none⟩ < (s.length + 1) * (pattern.length + 1) := by
    rw [succ_mul, GlobState.left]
    exact Nat.add_lt_add_left (Nat.lt_succ_self _) _
  obtain ⟨result, hresult, hiff⟩ := (GlobState.Inv.start s pattern).globLoop hleft
  refine ⟨result, hresult, hiff, ?_⟩
  rw [matchGlobPattern, hsame]
  exact hresult

end swytch.crdt
