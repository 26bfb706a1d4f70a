import Swytch.Keytrie.Arena
import Mathlib.Data.Int.ModEq

namespace swytch.keytrie

open List Nat

def sweepSegments : Nat := 8

/-- What the sweep reads of a leaf. -/
structure LeafNode where
  deleted : Bool
  freq : Int

/-- The leaf arena of a trie with the node in every slot, and the number of live leaves, each
of which has a slot. -/
structure LeafArena extends Arena where
  node : Nat → LeafNode
  size : Int
  pos : 0 < chunkSize
  fits : length * chunkSize ≤ 2 ^ 63
  size_le : size ≤ (length * chunkSize : Nat)

namespace LeafArena

variable (c : LeafArena)

def total : Nat := c.length * c.chunkSize

def slotAt (origin j : Nat) : Nat := (origin + j) % 2 ^ 64 % c.total

/-- The loop over one segment: the slots it forwards, and the index at which it ends. From a
slot of a nil chunk it jumps to the next chunk. -/
def sweepSegment (want segGap origin j occupied : Nat) : List Nat × Nat :=
  if occupied < want ∧ j < segGap then
    let idx := c.slotAt origin j
    match c.chunk (idx / c.chunkSize) with
    | none => sweepSegment want segGap origin (j + (c.chunkSize - 1 - idx % c.chunkSize) + 1) occupied
    | some _ =>
      if (c.node idx).deleted ∧ 0 ≤ (c.node idx).freq then sweepSegment want segGap origin (j + 1) occupied
      else
        let (forwarded, j') := sweepSegment want segGap origin (j + 1) (occupied + 1)
        (idx :: forwarded, j')
  else ([], j)
termination_by segGap - j

variable (base : Nat)

def nSeg : Nat := if c.size ≤ base ∨ base < sweepSegments then 1 else sweepSegments

def segGap : Nat := if c.total / c.nSeg base = 0 then c.total else c.total / c.nSeg base

/-- The remainder of the budget rides the last segment. -/
def want (s : Nat) : Nat :=
  if s + 1 = c.nSeg base then base - base / c.nSeg base * (c.nSeg base - 1) else base / c.nSeg base

def segment (hand s : Nat) : List Nat × Nat :=
  c.sweepSegment (c.want base s) (c.segGap base) ((hand + s * c.segGap base) % 2 ^ 64) 0 0

/-- The slots that are forwarded, and the hand after the sweep. -/
def sweepLeaves (base : Int) (hand : Nat) : List Nat × Nat :=
  if c.total = 0 then ([], hand)
  else
    let base := (max base 1).toNat
    ((range (c.nSeg base)).flatMap fun s => (c.segment base hand s).1,
      (hand + max (c.segment base hand 0).2 1) % 2 ^ 64)

/-- A slot of a chunk that is there, neither uninitialized nor about to be unlinked. -/
def occupied (idx : Nat) : Bool :=
  (c.chunk (idx / c.chunkSize)).isSome && !decide ((c.node idx).deleted ∧ 0 ≤ (c.node idx).freq)

variable {c} {want origin j taken base hand s d : Nat}

/-- What a loop has done that started at an index with some slots forwarded before. -/
structure Swept (c : LeafArena) (want segGap origin j taken : Nat) (r : List Nat × Nat) : Prop where
  le : j ≤ r.2
  lt : taken < want → j < segGap → j < r.2
  forwarded : ∀ idx ∈ r.1, c.occupied idx = true ∧ ∃ i, j ≤ i ∧ i < segGap ∧ idx = c.slotAt origin i
  budget : taken ≤ want → taken + r.1.length ≤ want
  covers : ∀ i, j ≤ i → i < r.2 → origin + i < 2 ^ 64 → c.occupied (c.slotAt origin i) = true → c.slotAt origin i ∈ r.1
  nodup : Set.InjOn (c.slotAt origin) { i | i < segGap } → r.1.Nodup

theorem slotAt_eq (hfit : origin + j < 2 ^ 64) : c.slotAt origin j = (origin + j) % c.total := by
  rw [slotAt, mod_eq_of_lt hfit]

/-- The rest of a chunk. -/
theorem slotAt_div (htotal : 0 < c.total) (hd : c.slotAt origin j % c.chunkSize + d < c.chunkSize)
    (hfit : origin + (j + d) < 2 ^ 64) : c.slotAt origin (j + d) / c.chunkSize = c.slotAt origin j / c.chunkSize := by
  have hlt : c.slotAt origin j < c.total := mod_lt _ htotal
  rw [total, mul_comm] at hlt
  have hnext := Nat.mul_le_mul_left c.chunkSize (Nat.succ_le_of_lt (Nat.div_lt_of_lt_mul hlt))
  have hsplit := div_add_mod (c.slotAt origin j) c.chunkSize
  have hroom : c.slotAt origin j + d < c.total := by
    rw [total, mul_comm]
    rw [mul_succ] at hnext
    omega
  rw [slotAt_eq hfit, ← add_assoc, ← mod_add_mod, ← slotAt_eq (show origin + j < 2 ^ 64 by omega),
    mod_eq_of_lt hroom, ← hsplit, add_assoc, mul_add_div c.pos, div_eq_of_lt hd, mul_add_div c.pos,
    div_eq_of_lt (mod_lt _ c.pos)]

/-- A loop that starts later has passed no occupied slot. -/
theorem Swept.skip {segGap next : Nat} {r : List Nat × Nat} (h : Swept c want segGap origin next taken r)
    (hj : j < next) (hfree : ∀ i, j ≤ i → i < next → origin + i < 2 ^ 64 → c.occupied (c.slotAt origin i) = false) :
    Swept c want segGap origin j taken r := by
  have hle := h.le
  refine ⟨by omega, fun _ _ => (by omega), fun x hx => ?_, h.budget, fun i hi hlt hfit hocc => ?_, h.nodup⟩
  · obtain ⟨hocc, i, hi, hrest⟩ := h.forwarded x hx
    exact ⟨hocc, i, by omega, hrest⟩
  · by_cases hnear : next ≤ i
    · exact h.covers i hnear hlt hfit hocc
    · rw [hfree i hi (by omega) hfit] at hocc
      cases hocc

theorem swept_sweepSegment (htotal : 0 < c.total) (want segGap origin j taken : Nat) :
    Swept c want segGap origin j taken (c.sweepSegment want segGap origin j taken) := by
  fun_induction sweepSegment with
  | case1 j taken hgo idx hnil ih =>
    have hpos := mod_lt idx c.pos
    refine ih.skip (by omega) fun i hi hnear hfit => ?_
    obtain ⟨d, rfl⟩ := Nat.exists_eq_add_of_le hi
    rw [occupied, @slotAt_div c origin j d htotal (show idx % _ + d < _ by omega) hfit, hnil]
    rfl
  | case2 j taken hgo idx chunk hchunk hskip ih =>
    refine ih.skip (lt_succ_self j) fun i hi hnear _ => ?_
    obtain rfl : i = j := by omega
    simp [occupied, hskip, idx]
  | case3 j taken hgo idx chunk hchunk hkeep forwarded j' hrec ih =>
    rw [hrec] at ih
    refine ⟨le_of_succ_le ih.le, fun _ _ => ih.le, ?_, fun _ => ?_, fun i hi hlt hfit hocc => ?_, fun hinj => ?_⟩
    · rintro x (_ | ⟨_, hx⟩)
      · exact ⟨by simp [occupied, hchunk, hkeep], j, le_refl j, hgo.2, rfl⟩
      · obtain ⟨hocc, i, hi, hrest⟩ := ih.forwarded x hx
        exact ⟨hocc, i, by omega, hrest⟩
    · have hbudget : taken + 1 + forwarded.length ≤ want := ih.budget hgo.1
      rw [length_cons]
      omega
    · obtain hlt' | rfl := lt_or_eq_of_le hi
      · exact mem_cons_of_mem _ (ih.covers i hlt' hlt hfit hocc)
      · exact mem_cons_self
    · refine nodup_cons.mpr ⟨fun hin => ?_, ih.nodup hinj⟩
      obtain ⟨-, i, hi, hgap, heq⟩ := ih.forwarded idx hin
      have := hinj hgo.2 hgap heq
      omega
  | case4 j taken hstop =>
    exact ⟨le_refl j, fun htaken hj => absurd ⟨htaken, hj⟩ hstop, fun x hx => (by cases hx), id,
      fun i hi hlt => absurd hlt (Nat.not_lt_of_le hi), fun _ => nodup_nil⟩

/-- The segments are parts of the arena. -/
theorem segGap_spec (htotal : 0 < c.total) (base : Nat) :
    0 < c.segGap base ∧ 0 < c.nSeg base ∧ c.nSeg base * c.segGap base ≤ c.total := by
  have hsize : c.size ≤ c.total := c.size_le
  unfold segGap nSeg
  split
  · simpa
  · have hgap : 0 < c.total / sweepSegments := div_pos (by omega) (by decide)
    rw [if_neg hgap.ne']
    exact ⟨hgap, by decide, mul_div_le ..⟩

theorem slotAt_injOn (hhand : hand < 2 ^ 63) : Set.InjOn (c.slotAt hand) { p | p < c.total } := by
  intro p (hp : p < c.total) q (hq : q < c.total) heq
  have hfits : c.total ≤ 2 ^ 63 := c.fits
  rw [slotAt_eq (by omega), slotAt_eq (by omega)] at heq
  exact (Nat.ModEq.add_left_cancel' hand heq).eq_of_lt_of_lt hp hq

theorem swept_segment (htotal : 0 < c.total) (base hand s : Nat) : Swept c (c.want base s) (c.segGap base)
    ((hand + s * c.segGap base) % 2 ^ 64) 0 0 (c.segment base hand s) :=
  swept_sweepSegment htotal _ _ _ 0 0

theorem segment_spec (hhand : hand < 2 ^ 63) (htotal : 0 < c.total) (hs : s < c.nSeg base) :
    (c.segment base hand s).1.Nodup ∧ ∀ idx ∈ (c.segment base hand s).1, c.occupied idx = true ∧
      ∃ p < c.total, p / c.segGap base = s ∧ idx = c.slotAt hand p := by
  obtain ⟨hgap, -, hroom⟩ := segGap_spec htotal base
  have hend := (mul_le_mul_right (c.segGap base) (succ_le_of_lt hs)).trans hroom
  rw [succ_mul] at hend
  have hat : ∀ i, c.slotAt ((hand + s * c.segGap base) % 2 ^ 64) i = c.slotAt hand (s * c.segGap base + i) := by
    intro i
    rw [slotAt, slotAt, mod_add_mod, add_assoc]
  have hswept := swept_segment htotal base hand s
  constructor
  · apply hswept.nodup
    intro i (hi : i < _) i' (hi' : i' < _) heq
    rw [hat, hat] at heq
    exact add_left_cancel (slotAt_injOn hhand (show _ < c.total by omega) (show _ < c.total by omega) heq)
  · intro idx hidx
    obtain ⟨hocc, i, -, hi, heq⟩ := hswept.forwarded idx hidx
    refine ⟨hocc, s * c.segGap base + i, by omega, ?_, heq.trans (hat i)⟩
    rw [mul_comm, mul_add_div hgap, div_eq_of_lt hi, add_zero]

theorem length_segments (htotal : 0 < c.total) (base hand : Nat) :
    ((range (c.nSeg base)).flatMap fun s => (c.segment base hand s).1).length ≤ base := by
  -- the segments before the last have the same budget
  have hbound : ∀ m ≤ c.nSeg base, ((range m).flatMap fun s => (c.segment base hand s).1).length ≤
      if m = c.nSeg base then base else base / c.nSeg base * m := by
    intro m hm
    induction m with
    | zero => exact zero_le _
    | succ m ih =>
      have hfirst := ih (by omega)
      have hlast := (swept_segment htotal base hand m).budget (zero_le _)
      have hle := (mul_le_mul_left (base / c.nSeg base) (le_of_succ_le hm)).trans (div_mul_le_self base _)
      rw [if_neg (by omega)] at hfirst
      rw [range_succ, flatMap_append, flatMap_singleton, length_append]
      unfold LeafArena.want at hlast
      split at hlast
      · rename_i hend
        rw [if_pos hend]
        rw [← hend, Nat.add_sub_cancel, hend] at hlast
        omega
      · rename_i hend
        rw [if_neg hend, mul_succ]
        omega
  simpa using hbound _ (le_refl _)

theorem sweepLeaves_once (hhand : hand < 2 ^ 63) (base : Int) :
    (c.sweepLeaves base hand).1.Nodup ∧ ((c.sweepLeaves base hand).1.length : Int) ≤ max base 1 ∧
      ∀ idx ∈ (c.sweepLeaves base hand).1, idx < c.total ∧ c.occupied idx = true := by
  unfold sweepLeaves
  split
  · exact ⟨nodup_nil, by simp, fun idx hidx => (by cases hidx)⟩
  · rename_i hsome
    have htotal := Nat.pos_of_ne_zero hsome
    have hspec := fun s hs => @segment_spec c (max base 1).toNat hand s hhand htotal (mem_range.mp hs)
    have hlength := length_segments htotal (max base 1).toNat hand
    dsimp only
    refine ⟨nodup_flatMap.mpr ⟨fun s hs => (hspec s hs).1, ?_⟩, by omega, fun idx hidx => ?_⟩
    · refine nodup_range.imp_of_mem fun {s s'} hs hs' hne idx hidx hidx' => hne ?_
      obtain ⟨-, p, hp, rfl, rfl⟩ := (hspec s hs).2 idx hidx
      obtain ⟨-, p', hp', rfl, heq⟩ := (hspec s' hs').2 _ hidx'
      rw [slotAt_injOn hhand hp hp' heq]
    · obtain ⟨s, hs, hin⟩ := mem_flatMap.mp hidx
      obtain ⟨hocc, p, -, -, rfl⟩ := (hspec s hs).2 idx hin
      exact ⟨mod_lt _ htotal, hocc⟩

theorem want_pos (hbase : 0 < base) : 0 < c.want base 0 := by
  unfold LeafArena.want nSeg
  split
  · simpa
  · have hroom : sweepSegments ≤ base := by omega
    exact div_pos hroom (by decide)

/-- A sweep moves the hand, and forwards every occupied slot that the hand passes. -/
theorem sweepLeaves_advance (htotal : 0 < c.total) (base : Int) (hand : Nat) :
    ∃ j, 0 < j ∧ (c.sweepLeaves base hand).2 = (hand + j) % 2 ^ 64 ∧ ∀ i < j, hand + i < 2 ^ 64 →
      c.occupied (c.slotAt hand i) = true → c.slotAt hand i ∈ (c.sweepLeaves base hand).1 := by
  obtain ⟨hgap, hcount, -⟩ := segGap_spec htotal (max base 1).toNat
  have hswept := swept_segment htotal (max base 1).toNat hand 0
  have hmoved := hswept.lt (want_pos (by omega)) hgap
  rw [sweepLeaves, if_neg htotal.ne']
  refine ⟨_, lt_max_of_lt_left hmoved, rfl, fun i hi hfit hocc => ?_⟩
  rw [max_eq_left hmoved] at hi
  rw [zero_mul, add_zero, mod_eq_of_lt (lt_of_le_of_lt (le_add_right hand i) hfit)] at hswept
  exact mem_flatMap.mpr ⟨0, mem_range.mpr hcount, hswept.covers i (zero_le i) hi hfit hocc⟩

theorem exists_slotAt (hhand : hand < 2 ^ 63) {idx : Nat} (hidx : idx < c.total) :
    ∃ d < c.total, idx = c.slotAt hand d := by
  have hfits : c.total ≤ 2 ^ 63 := c.fits
  have htotal := zero_lt_of_lt hidx
  have hlt := mod_lt hand htotal
  have hd := mod_lt (idx + (c.total - hand % c.total)) htotal
  refine ⟨_, hd, ?_⟩
  have hsplit := div_add_mod hand c.total
  have hturns : hand + (idx + (c.total - hand % c.total)) = idx + c.total * (hand / c.total + 1) := by
    rw [mul_succ]
    omega
  rw [slotAt_eq (by omega), add_mod_mod, hturns, add_mul_mod_self_left, mod_eq_of_lt hidx]

/-- The hand of a trie before every call of a sequence of sweeps. -/
def handAt (c : Nat → LeafArena) (base : Nat → Int) (hand : Nat) : Nat → Nat
  | 0 => hand
  | k + 1 => ((c k).sweepLeaves (base k) (handAt c base hand k)).2

/-- A sweep forwards occupied slots only, each once and not more than its budget; and while
the occupancy stays the same every occupied slot is forwarded by one of the next sweeps, of
which there are as many as slots. -/
theorem sweepLeaves_fair (c : Nat → LeafArena) (base : Nat → Int) {hand : Nat} (hhand : hand < 2 ^ 63)
    (hdir : ∀ k, (c k).toArena = (c 0).toArena) (hsame : ∀ k idx, (c k).occupied idx = (c 0).occupied idx) :
    ((c 0).sweepLeaves (base 0) hand).1.Nodup ∧ (((c 0).sweepLeaves (base 0) hand).1.length : Int) ≤ max (base 0) 1 ∧
      (∀ idx ∈ ((c 0).sweepLeaves (base 0) hand).1, idx < (c 0).total ∧ (c 0).occupied idx = true) ∧
      ∀ idx < (c 0).total, (c 0).occupied idx = true →
        ∃ k < (c 0).total, idx ∈ ((c k).sweepLeaves (base k) (handAt c base hand k)).1 := by
  obtain ⟨hnodup, hbudget, honly⟩ := @sweepLeaves_once (c 0) hand hhand (base 0)
  refine ⟨hnodup, hbudget, honly, fun idx hidx hocc => ?_⟩
  obtain ⟨d, hd, rfl⟩ := exists_slotAt hhand hidx
  have hfits : (c 0).total ≤ 2 ^ 63 := (c 0).fits
  have htotal : ∀ k, (c k).total = (c 0).total := fun k => by rw [total, total, hdir k]
  by_contra hmiss
  push Not at hmiss
  -- the hand gets closer to the slot with every call, and cannot pass it
  have hcloser : ∀ k ≤ (c 0).total, ∃ a, k ≤ a ∧ a ≤ d ∧ handAt c base hand k = hand + a := by
    intro k hk
    induction k with
    | zero => exact ⟨0, le_refl 0, zero_le d, rfl⟩
    | succ k ih =>
      obtain ⟨a, hka, had, hat⟩ := ih (by omega)
      obtain ⟨j, hj, hnext, hcovers⟩ := @sweepLeaves_advance (c k) (htotal k ▸ (by omega)) (base k) (hand + a)
      have hslot : (c k).slotAt (hand + a) (d - a) = (c 0).slotAt hand d := by
        rw [slotAt, slotAt, htotal k, Nat.add_assoc, Nat.add_sub_cancel' had]
      by_cases hpast : d - a < j
      · have hin := hcovers (d - a) hpast (by omega) (by rw [hslot, hsame]; exact hocc)
        rw [hslot, ← hat] at hin
        exact absurd hin (hmiss k (by omega))
      · refine ⟨a + j, by omega, by omega, ?_⟩
        rw [handAt, hat, hnext, mod_eq_of_lt (by omega), add_assoc]
  obtain ⟨a, hka, had, -⟩ := hcloser _ (le_refl _)
  omega

/-- Three chunks of which the second was dropped and the third has a free slot before its live leaf. -/
def holedLeaves : LeafArena where
  chunkSize := 2
  length := 3
  chunk := fun k => if k = 1 then none else some {}
  node := fun idx => ⟨idx = 4, 0⟩
  size := 3
  pos := by decide
  fits := by decide
  size_le := by decide

theorem sweepLeaves_fair_holed :
    holedLeaves.occupied 5 = true ∧ holedLeaves.occupied 3 = false ∧ holedLeaves.occupied 4 = false ∧
      ∃ k < 6, 5 ∈ (holedLeaves.sweepLeaves 1 (handAt (fun _ => holedLeaves) (fun _ => 1) 0 k)).1 :=
  ⟨by decide, by decide, by decide, (sweepLeaves_fair (fun _ => holedLeaves) (fun _ => 1) (by decide) (fun _ => rfl)
    fun _ _ => rfl).2.2.2 5 (by decide) (by decide)⟩

end LeafArena

end swytch.keytrie
