import Swytch.Lib.LittleEndian

namespace swytch.lib

open List Nat

/-- The bytes of a file by their position. -/
abbrev Image := Nat → Fin 256

variable {m m' : Image} {lo hi pos : Nat} {bytes : List (Fin 256)} {A : Nat → Prop}

namespace Image

/-- Store bytes at a position. -/
def write (m : Image) (pos : Nat) (bytes : List (Fin 256)) : Image :=
  fun i => if pos ≤ i then (bytes[i - pos]?).getD (m i) else m i

/-- The `n` bytes at a position. -/
def read (m : Image) (pos n : Nat) : List (Fin 256) := (range n).map fun i => m (pos + i)

/-- A word of 64 bits, least significant byte first. -/
def load (m : Image) (pos : Nat) : Nat := ofLittleEndian (m.read pos 8)

/-- Two images have the same bytes from `lo` up to `hi`. -/
def SameOn (m m' : Image) (lo hi : Nat) : Prop := ∀ i, lo ≤ i → i < hi → m' i = m i

theorem SameOn.mono {lo' hi' : Nat} (h : SameOn m m' lo hi) (hlo : lo ≤ lo') (hhi : hi' ≤ hi) : SameOn m m' lo' hi' :=
  fun i hi₁ hi₂ => h i (by omega) (by omega)

/-- A write changes nothing outside of its range. -/
theorem write_sameOn (h : hi ≤ pos ∨ pos + bytes.length ≤ lo) : SameOn m (m.write pos bytes) lo hi := by
  intro i hlo hhi
  unfold write
  by_cases hpos : pos ≤ i
  · rw [if_pos hpos, getElem?_eq_none (by omega), Option.getD_none]
  · rw [if_neg hpos]

@[simp] theorem length_read (m : Image) (pos n : Nat) : (m.read pos n).length = n := by
  simp [read]

theorem SameOn.read_eq {n : Nat} (h : SameOn m m' pos (pos + n)) : m'.read pos n = m.read pos n := by
  apply map_congr_left
  intro i hi
  exact h (pos + i) (by omega) (by have := mem_range.mp hi; omega)

theorem SameOn.load_eq (h : SameOn m m' pos (pos + 8)) : m'.load pos = m.load pos := by
  unfold load
  rw [h.read_eq]

theorem read_write (m : Image) (pos : Nat) (bytes : List (Fin 256)) :
    (m.write pos bytes).read pos bytes.length = bytes := by
  apply ext_getElem
  · exact length_read _ _ _
  · intro i hi hi'
    simp [read, write, hi']

theorem load_write (m : Image) (pos : Nat) {v : Nat} (hv : v < 2 ^ 64) :
    (m.write pos (littleEndian 8 v)).load pos = v := by
  unfold load
  have hread := read_write m pos (littleEndian 8 v)
  rw [length_littleEndian] at hread
  rw [hread, ofLittleEndian_littleEndian]
  exact mod_eq_of_lt hv

theorem load_lt (m : Image) (pos : Nat) : m.load pos < 2 ^ 64 := by
  have hbound : ∀ bytes : List (Fin 256), ofLittleEndian bytes < 256 ^ bytes.length := by
    intro bytes
    induction bytes with
    | nil => exact one_pos
    | cons b bytes ih =>
      rw [ofLittleEndian, length_cons, pow_succ']
      have hb := b.isLt
      omega
  have h := hbound (m.read pos 8)
  rw [length_read] at h
  exact h

theorem load_write_of_disjoint {p : Nat} (h : p + 8 ≤ pos ∨ pos + bytes.length ≤ p) :
    (m.write pos bytes).load p = m.load p :=
  (write_sameOn h).load_eq

theorem load_eq_zero (h : ∀ i, pos ≤ i → m i = 0) : m.load pos = 0 := by
  have hread : m.read pos 8 = replicate 8 0 := by
    rw [eq_replicate_iff]
    refine ⟨length_read _ _ _, fun b hb => ?_⟩
    obtain ⟨i, -, rfl⟩ := mem_map.mp hb
    exact h _ (le_add_right _ _)
  rw [load, hread]
  decide

/-- The writes of one byte each by which a copy is made. -/
def copyWrites (pos : Nat) (bytes : List (Fin 256)) : List (Nat × List (Fin 256)) :=
  bytes.mapIdx fun i b => (pos + i, [b])

theorem exists_of_mem_copyWrites {w : Nat × List (Fin 256)} (hw : w ∈ copyWrites pos bytes) :
    ∃ i < bytes.length, w.1 = pos + i ∧ w.2.length = 1 := by
  obtain ⟨i, hi, rfl⟩ := mem_mapIdx.mp hw
  exact ⟨i, hi, rfl, rfl⟩

/-- Perform writes one after the other. -/
def writeAll (m : Image) (writes : List (Nat × List (Fin 256))) : Image :=
  writes.foldl (fun m w => m.write w.1 w.2) m

theorem writeAll_append (m : Image) (ws ws' : List (Nat × List (Fin 256))) :
    m.writeAll (ws ++ ws') = (m.writeAll ws).writeAll ws' := foldl_append

/-- The images writes go through, without the first one. -/
def trace (m : Image) : List (Nat × List (Fin 256)) → List Image
  | [] => []
  | w :: ws => m.write w.1 w.2 :: trace (m.write w.1 w.2) ws

theorem trace_append (m : Image) (ws ws' : List (Nat × List (Fin 256))) :
    m.trace (ws ++ ws') = m.trace ws ++ (m.writeAll ws).trace ws' := by
  induction ws generalizing m with
  | nil => rfl
  | cons w ws ih => rw [cons_append, trace, trace, ih, cons_append]; rfl

/-- What every write keeps holds after all of them and on the way. -/
theorem forall_trace {P : Image → Prop} (ws : List (Nat × List (Fin 256))) (hm : P m)
    (hkeep : ∀ w ∈ ws, ∀ m, P m → P (m.write w.1 w.2)) : P (m.writeAll ws) ∧ ∀ m' ∈ m.trace ws, P m' := by
  induction ws generalizing m with
  | nil => exact ⟨hm, fun m' hm' => by cases hm'⟩
  | cons w ws ih =>
    have hfirst := hkeep w mem_cons_self m hm
    obtain ⟨hend, hway⟩ := ih hfirst fun w' hw' => hkeep w' (mem_cons_of_mem w hw')
    refine ⟨hend, fun m' hm' => ?_⟩
    obtain rfl | hmem := mem_cons.mp hm'
    · exact hfirst
    · exact hway m' hmem

/-- The images agree at every position outside of a set. -/
def EqOutside (A : Nat → Prop) (m m' : Image) : Prop := ∀ i, ¬A i → m' i = m i

theorem EqOutside.refl (A : Nat → Prop) (m : Image) : EqOutside A m m := fun _ _ => rfl

theorem EqOutside.sameOn (h : EqOutside A m m') (hout : ∀ i, lo ≤ i → i < hi → ¬A i) :
    SameOn m m' lo hi :=
  fun i hlo hhi => h i (hout i hlo hhi)

theorem EqOutside.write (h : EqOutside A m m') (hin : ∀ i, pos ≤ i → i < pos + bytes.length → A i) :
    EqOutside A m (m'.write pos bytes) := by
  intro i hi
  have hout : i + 1 ≤ pos ∨ pos + bytes.length ≤ i := by
    by_contra hcon
    exact hi (hin i (by omega) (by omega))
  rw [write_sameOn hout i le_rfl (lt_succ_self i)]
  exact h i hi

theorem write_write (m : Image) (pos : Nat) (b : Fin 256) (bytes : List (Fin 256)) :
    (m.write pos [b]).write (pos + 1) bytes = m.write pos (b :: bytes) := by
  funext i
  unfold write
  by_cases hi : pos + 1 ≤ i
  · obtain ⟨k, rfl⟩ : ∃ k, i = pos + 1 + k := ⟨i - (pos + 1), by omega⟩
    have hfirst : pos + 1 + k - (pos + 1) = k := by omega
    have hsecond : pos + 1 + k - pos = k + 1 := by omega
    rw [if_pos hi, if_pos (by omega), if_pos (by omega), hfirst, hsecond, getElem?_cons_succ,
      getElem?_cons_succ, getElem?_nil, Option.getD_none]
  · by_cases hpos : pos ≤ i
    · obtain rfl : i = pos := by omega
      rw [if_neg hi, if_pos hpos, if_pos hpos, Nat.sub_self, getElem?_cons_zero, getElem?_cons_zero]
    · rw [if_neg hi, if_neg hpos, if_neg hpos]

theorem writeAll_copyWrites (m : Image) (pos : Nat) (bytes : List (Fin 256)) :
    m.writeAll (copyWrites pos bytes) = m.write pos bytes := by
  induction bytes generalizing m pos with
  | nil =>
    funext i
    simp [copyWrites, writeAll, write]
  | cons b bytes ih =>
    have hrest : copyWrites pos (b :: bytes) = (pos, [b]) :: copyWrites (pos + 1) bytes := by
      unfold copyWrites
      rw [mapIdx_cons]
      simp only [add_zero, cons.injEq, true_and]
      apply ext_getElem
      · simp
      · intro i hi hi'
        simp [add_assoc, add_comm 1 i]
    rw [hrest]
    show (m.write pos [b]).writeAll (copyWrites (pos + 1) bytes) = _
    rw [ih, write_write]

end Image

end swytch.lib
