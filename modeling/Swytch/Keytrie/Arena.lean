import Swytch.Lib.Run
import Mathlib.Algebra.Group.Nat.Defs
import Mathlib.Data.Finset.Card
import Mathlib.Data.Int.Order.Basic
import Mathlib.Data.List.Nodup
import Mathlib.Logic.Function.Basic

namespace swytch.keytrie

open swytch.lib Function List Nat

def freeSlotCapacity : Nat := 65536

/-- The accounts of one generation of slots. -/
structure ArenaChunk where
  reaped : Nat := 0
  outstanding : Int := 0

/-- The directory has `length` chunks, nil for one that was dropped; beyond them stands what
`grow` puts there. -/
structure Arena where
  chunkSize : Nat
  next : Nat := 0
  length : Nat := 0
  chunk : Nat → Option ArenaChunk := fun _ => some {}
  freeList : List Nat := []
  freeCount : Int := 0
  freeCap : Nat := freeSlotCapacity

def tryEnqueue (queue : List Nat) (idx : Nat) : List Nat :=
  if queue.length < freeSlotCapacity then queue ++ [idx] else queue

variable (a : Arena) (live : Finset Nat) (k : Nat)

namespace Arena

def init (chunkSize : Int) : Arena := { chunkSize := (max chunkSize 1).toNat }

/-- The slots of a chunk. -/
def slotsOf : List Nat := (range a.chunkSize).map (k * a.chunkSize + ·)

def grow (needed : Nat) : Arena := { a with length := max a.length (needed + 1) }

/-- The slot and the number of its chunk, in 32 bits. None where the source takes a slot of
a chunk that is nil. -/
def alloc : Option (Arena × Nat × Nat) :=
  match a.freeList with
  | idx :: rest =>
    (a.chunk (idx / a.chunkSize)).map fun chunk =>
      ({ a with
        freeList := rest
        freeCount := a.freeCount - 1
        chunk := update a.chunk (idx / a.chunkSize) (some { chunk with outstanding := chunk.outstanding - 1 }) },
        idx, idx / a.chunkSize % 2 ^ 32)
  | [] =>
    (a.chunk (a.next / a.chunkSize)).map fun _ =>
      ({ a with next := (a.next + 1) % 2 ^ 64 }.grow (a.next / a.chunkSize), a.next, a.next / a.chunkSize % 2 ^ 32)

/-- A chunk is recycled if the free list has room for all its slots. -/
def dropChunk : Arena :=
  if a.freeCount + a.chunkSize ≤ a.freeCap then
    { a with
      chunk := update a.chunk k (some { outstanding := a.chunkSize })
      freeCount := a.freeCount + a.chunkSize
      freeList := (a.slotsOf k).foldl tryEnqueue a.freeList }
  else { a with chunk := update a.chunk k none }

def recordReaped : Arena :=
  if k < a.length then
    match a.chunk k with
    | some chunk =>
      let counted := { a with chunk := update a.chunk k (some { chunk with reaped := chunk.reaped + 1 }) }
      if chunk.reaped + 1 = a.chunkSize then counted.dropChunk k else counted
    | none => a
  else a

end Arena

inductive ArenaOp where
  | alloc
  | reaped (slot : Nat)

/-- An arena with the slots that are allocated and not reaped. A slot is reported with the
chunk number that came with it. -/
def arenaStep (s : Arena × Finset Nat) : ArenaOp → Option (Arena × Finset Nat)
  | .alloc => s.1.alloc.map fun r => (r.1, insert r.2.1 s.2)
  | .reaped slot =>
    if slot ∈ s.2 then some (s.1.recordReaped (slot / s.1.chunkSize % 2 ^ 32), s.2.erase slot) else none

/-- The directory stays within the chunk numbers, and the slots within 64 bits. -/
def Arena.Bounded : Prop := a.next / a.chunkSize < 2 ^ 32 ∧ a.next + 1 < 2 ^ 64

instance (a : Arena) : Decidable a.Bounded := inferInstanceAs (Decidable (_ ∧ _))

namespace Arena

/-- All slots of a chunk were allocated and reaped. -/
def Finished : Prop :=
  ∀ slot ∈ a.slotsOf k, slot < a.next ∧ slot ∉ a.freeList ∧ slot ∉ live

/-- The slots of a chunk that are still to be reaped. -/
def waiting : List Nat :=
  (a.slotsOf k).filter fun slot => slot ∈ live ∨ slot ∈ a.freeList ∨ a.next ≤ slot

/-- The free list holds slots that were claimed and are not in use, each once. -/
structure FreeOk (a : Arena) (live : Finset Nat) : Prop where
  claimed : ∀ i, i ∈ live ∨ i ∈ a.freeList → i < a.next
  nodup : a.freeList.Nodup
  apart : ∀ i ∈ a.freeList, i ∉ live
  count : a.freeCount = a.freeList.length
  room : a.freeList.length ≤ a.freeCap

/-- The counters of a chunk say how many of its slots are in the free list and were reaped. -/
def Entry : Option ArenaChunk → Prop
  | none => a.waiting live k = []
  | some chunk => chunk.outstanding = ((a.freeList.filter (· ∈ a.slotsOf k)).length : Int) ∧
      chunk.reaped + (a.waiting live k).length = a.chunkSize ∧ chunk.reaped < a.chunkSize

structure Inv (a : Arena) (live : Finset Nat) : Prop where
  pos : 0 < a.chunkSize
  cap : a.freeCap ≤ freeSlotCapacity
  covered : a.next ≤ a.length * a.chunkSize
  few : a.length ≤ 2 ^ 32
  free : a.FreeOk live
  entry : ∀ k, a.Entry live k (a.chunk k)

variable {a a' : Arena} {live live' : Finset Nat} {slot k k' : Nat} {e : Option ArenaChunk}

theorem mem_slotsOf_iff (hpos : 0 < a.chunkSize) : slot ∈ a.slotsOf k ↔ slot / a.chunkSize = k := by
  simp only [slotsOf, mem_map, mem_range]
  constructor
  · rintro ⟨i, hi, rfl⟩
    rw [mul_comm, mul_add_div hpos, div_eq_of_lt hi, add_zero]
  · rintro rfl
    exact ⟨slot % a.chunkSize, mod_lt _ hpos, div_add_mod' ..⟩

theorem nodup_slotsOf (a : Arena) (k : Nat) : (a.slotsOf k).Nodup :=
  nodup_range.map fun _ _ h => add_left_cancel h

theorem inv_init (chunkSize : Int) : Inv (init chunkSize) ∅ := by
  have hpos : 0 < (max chunkSize 1).toNat := by omega
  refine ⟨hpos, le_refl _, zero_le _, zero_le _, ⟨?_, nodup_nil, ?_, rfl, zero_le _⟩, fun k => ?_⟩
  · simp [init]
  · simp [init]
  · exact ⟨rfl, by simp [waiting, init, slotsOf], hpos⟩

theorem mem_waiting : slot ∈ a.waiting live k ↔
    slot ∈ a.slotsOf k ∧ (slot ∈ live ∨ slot ∈ a.freeList ∨ a.next ≤ slot) := by
  simp [waiting]

theorem finished_iff : a.Finished live k ↔ a.waiting live k = [] := by
  simp only [Finished, eq_nil_iff_forall_not_mem, mem_waiting, not_and, not_or, not_le]
  exact forall₂_congr fun _ _ => by tauto

/-- A slot that is in use or to be used has its chunk. -/
theorem Inv.exists_chunk (h : a.Inv live) (hslot : slot ∈ live ∨ slot ∈ a.freeList ∨ a.next ≤ slot) :
    ∃ chunk, a.chunk (slot / a.chunkSize) = some chunk := by
  have hentry := h.entry (slot / a.chunkSize)
  cases hchunk : a.chunk (slot / a.chunkSize) with
  | some chunk => exact ⟨chunk, rfl⟩
  | none =>
    rw [hchunk] at hentry
    have hmem : slot ∈ a.waiting live (slot / a.chunkSize) := mem_waiting.mpr ⟨(mem_slotsOf_iff h.pos).mpr rfl, hslot⟩
    rw [show a.waiting live _ = [] from hentry] at hmem
    cases hmem

/-- One chunk changes, and only its slots come and go. -/
theorem Inv.update (h : a.Inv live) (hsize : a'.chunkSize = a.chunkSize) (hnext : a'.next = a.next)
    (hlength : a'.length = a.length) (hcap : a'.freeCap = a.freeCap) (hchunk : a'.chunk = update a.chunk k e)
    (hlive : ∀ i, i ∉ a.slotsOf k → (i ∈ live' ↔ i ∈ live))
    (hfree : ∀ k' ≠ k, a'.freeList.filter (· ∈ a.slotsOf k') = a.freeList.filter (· ∈ a.slotsOf k'))
    (hok : a'.FreeOk live') (hself : a'.Entry live' k e) : a'.Inv live' := by
  have hslots : ∀ k', a'.slotsOf k' = a.slotsOf k' := fun k' => by rw [slotsOf, slotsOf, hsize]
  refine ⟨hsize ▸ h.pos, hcap ▸ h.cap, ?_, hlength ▸ h.few, hok, fun k' => ?_⟩
  · rw [hsize, hnext, hlength]
    exact h.covered
  · rw [hchunk]
    by_cases hne : k' = k
    · rw [hne, update_self]
      exact hself
    · rw [update_of_ne hne]
      have hwaiting : a'.waiting live' k' = a.waiting live k' := by
        rw [waiting, waiting, hslots, hnext]
        refine filter_congr fun i hi => ?_
        have hother : i ∉ a.slotsOf k := by
          rw [mem_slotsOf_iff h.pos] at hi ⊢
          omega
        have hmem := congrArg (i ∈ ·) (hfree k' hne)
        simp only [mem_filter, hi, decide_true, and_true, eq_iff_iff] at hmem
        simp only [hlive i hother, hmem]
      have hentry := h.entry k'
      unfold Entry at hentry ⊢
      rw [hwaiting, hsize, hslots, hfree k' hne]
      exact hentry

/-- A slot that was recycled or never used is not in use. -/
theorem Inv.alloc (h : a.Inv live) (hbounded : a.Bounded) :
    ∃ a' slot, a.alloc = some (a', slot, slot / a.chunkSize % 2 ^ 32) ∧ slot ∉ live ∧ a'.Inv (insert slot live) ∧
      ∀ k, (a'.chunk k).map ArenaChunk.reaped = (a.chunk k).map ArenaChunk.reaped := by
  unfold Arena.alloc
  cases hfree : a.freeList with
  | nil =>
    have hnew : a.next ∉ live := fun hmem => lt_irrefl _ (h.free.claimed _ (.inl hmem))
    obtain ⟨chunk, hchunk⟩ := h.exists_chunk (.inr (.inr (le_refl a.next)))
    dsimp only
    rw [hchunk]
    refine ⟨_, a.next, rfl, hnew, ?_, fun k => rfl⟩
    rw [mod_eq_of_lt hbounded.2]
    refine ⟨h.pos, h.cap, ?_, max_le h.few hbounded.1, ⟨?_, nodup_nil, by simp [grow], ?_, zero_le _⟩, fun k => ?_⟩
    · have hlt : a.next < (a.next / a.chunkSize + 1) * a.chunkSize := lt_mul_of_div_lt (lt_succ_self _) h.pos
      exact le_trans hlt (mul_le_mul_right _ (le_max_right _ _))
    · intro i hi
      have hclaimed := h.free.claimed i
      simp only [grow, Finset.mem_insert, hfree, not_mem_nil, or_false] at hi hclaimed ⊢
      obtain rfl | hi := hi
      · omega
      · exact lt_succ_of_lt (hclaimed hi)
    · rw [← hfree]
      exact h.free.count
    · have hwaiting : waiting ({ a with next := a.next + 1, freeList := [] }.grow (a.next / a.chunkSize))
          (insert a.next live) k = a.waiting live k := by
        refine filter_congr fun i _ => ?_
        have hnext : a.next ≤ i ↔ i = a.next ∨ a.next + 1 ≤ i := by omega
        simp only [grow, Finset.mem_insert, hfree, not_mem_nil, false_or, decide_eq_decide, hnext]
        tauto
      have hentry := h.entry k
      unfold Entry at hentry ⊢
      rw [hwaiting]
      rw [hfree] at hentry
      exact hentry
  | cons slot rest =>
    obtain ⟨hclaimed, hnodup, hapart, hcount, hroom⟩ := h.free
    rw [hfree] at hclaimed hnodup hapart hcount hroom
    rw [nodup_cons] at hnodup
    rw [length_cons] at hcount hroom
    obtain ⟨chunk, hchunk⟩ := h.exists_chunk (.inr (.inl (hfree ▸ mem_cons_self)))
    have hentry := h.entry (slot / a.chunkSize)
    rw [hchunk] at hentry
    obtain ⟨hout, hreaped, hlt⟩ := hentry
    have hslot : slot ∈ a.slotsOf (slot / a.chunkSize) := (mem_slotsOf_iff h.pos).mpr rfl
    rw [hfree, filter_cons_of_pos (by simpa using hslot), length_cons] at hout
    dsimp only
    rw [hchunk]
    refine ⟨_, slot, rfl, hapart slot mem_cons_self, ?_, fun k => ?_⟩
    · refine h.update rfl rfl rfl rfl rfl ?_ ?_ ⟨?_, hnodup.2, ?_, by dsimp only; omega, by dsimp only; omega⟩
        ⟨?_, ?_, hlt⟩
      · intro i hi
        rw [Finset.mem_insert, or_iff_right]
        rintro rfl
        exact hi hslot
      · intro k' hk'
        rw [hfree, filter_cons_of_neg]
        simpa [mem_slotsOf_iff h.pos] using Ne.symm hk'
      · intro i hi
        rw [Finset.mem_insert] at hi
        exact hclaimed i (by rw [mem_cons]; tauto)
      · intro i hi
        rw [Finset.mem_insert, not_or]
        exact ⟨fun heq => hnodup.1 (heq ▸ hi), hapart i (mem_cons_of_mem _ hi)⟩
      · change chunk.outstanding - 1 = ((rest.filter (· ∈ a.slotsOf (slot / a.chunkSize))).length : Int)
        omega
      · refine (congrArg (chunk.reaped + List.length ·) (filter_congr fun i _ => ?_)).trans hreaped
        simp only [hfree, mem_cons, Finset.mem_insert, decide_eq_decide]
        tauto
    · by_cases hk : k = slot / a.chunkSize
      · simp [hk, hchunk]
      · simp [update_of_ne hk]

theorem foldl_tryEnqueue {queue slots : List Nat} (hroom : queue.length + slots.length ≤ freeSlotCapacity) :
    slots.foldl tryEnqueue queue = queue ++ slots := by
  induction slots generalizing queue with
  | nil => simp
  | cons slot slots ih =>
    rw [length_cons] at hroom
    rw [foldl_cons, tryEnqueue, if_pos (by omega), ih, append_assoc, singleton_append]
    rw [length_append, length_singleton]
    omega

/-- The three ends of a report: the chunk counts it, is recycled or is dropped. -/
inductive Reaped (a : Arena) (live : Finset Nat) (k : Nat) (a' : Arena) : Prop where
  | counted {chunk : ArenaChunk} (hchunk : a.chunk k = some chunk) (hopen : ¬ a.Finished live k)
    (heq : a' = { a with chunk := update a.chunk k (some { chunk with reaped := chunk.reaped + 1 }) })
  | recycled (hfinished : a.Finished live k)
    (heq : a' = { a with
      chunk := update a.chunk k (some { outstanding := a.chunkSize })
      freeCount := a.freeCount + a.chunkSize
      freeList := a.freeList ++ a.slotsOf k })
  | dropped (hfinished : a.Finished live k) (heq : a' = { a with chunk := update a.chunk k none })

theorem Inv.recordReaped (h : a.Inv live) (hslot : slot ∈ live) :
    (a.recordReaped (slot / a.chunkSize % 2 ^ 32)).Inv (live.erase slot) ∧
      Reaped a (live.erase slot) (slot / a.chunkSize) (a.recordReaped (slot / a.chunkSize % 2 ^ 32)) := by
  have hlength : slot / a.chunkSize < a.length :=
    (div_lt_iff_lt_mul h.pos).mpr (lt_of_lt_of_le (h.free.claimed slot (.inl hslot)) h.covered)
  obtain ⟨chunk, hchunk⟩ := h.exists_chunk (.inl hslot)
  have hentry := h.entry (slot / a.chunkSize)
  rw [hchunk] at hentry
  obtain ⟨hout, hreaped, hlt⟩ := hentry
  have hmem : slot ∈ a.slotsOf (slot / a.chunkSize) := (mem_slotsOf_iff h.pos).mpr rfl
  have hfree : slot ∉ a.freeList := fun hfree => h.free.apart slot hfree hslot
  have hclaimed := h.free.claimed slot (.inl hslot)
  have hok : ∀ c, FreeOk { a with chunk := c } (live.erase slot) := by
    intro c
    obtain ⟨hclaimed, hnodup, hapart, hcount, hroom⟩ := h.free
    exact ⟨fun i hi => hclaimed i (hi.imp_left Finset.mem_of_mem_erase), hnodup,
      fun i hi hlive => hapart i hi (Finset.mem_of_mem_erase hlive), hcount, hroom⟩
  have hother : ∀ i, i ∉ a.slotsOf (slot / a.chunkSize) → (i ∈ live.erase slot ↔ i ∈ live) := by
    intro i hi
    rw [Finset.mem_erase, and_iff_right]
    rintro rfl
    exact hi hmem
  have hwaiting : (a.waiting (live.erase slot) (slot / a.chunkSize)).length + 1 =
      (a.waiting live (slot / a.chunkSize)).length := by
    have herase : a.waiting (live.erase slot) (slot / a.chunkSize) =
        (a.waiting live (slot / a.chunkSize)).erase slot := by
      rw [waiting, waiting, ((nodup_slotsOf a _).filter _).erase_eq_filter, filter_filter]
      refine filter_congr fun i _ => ?_
      by_cases hi : i = slot
      · simp [hi, hfree, hclaimed]
      · simp [hi]
    rw [herase, length_erase_of_mem (mem_waiting.mpr ⟨hmem, .inl hslot⟩)]
    exact Nat.sub_add_cancel (length_pos_of_mem (mem_waiting.mpr ⟨hmem, .inl hslot⟩))
  unfold Arena.recordReaped
  rw [mod_eq_of_lt (lt_of_lt_of_le hlength h.few), if_pos hlength, hchunk]
  dsimp only
  by_cases hlast : chunk.reaped + 1 = a.chunkSize
  · have hempty : a.waiting (live.erase slot) (slot / a.chunkSize) = [] := length_eq_zero_iff.mp (by omega)
    have hnone : ∀ i ∈ a.slotsOf (slot / a.chunkSize), i ∉ a.freeList := fun i hi =>
      (finished_iff.mpr hempty i hi).2.1
    rw [if_pos hlast]
    unfold dropChunk
    dsimp only
    split
    · rename_i hroom
      have hcount := h.free.count
      have hlen : a.freeList.length + (a.slotsOf (slot / a.chunkSize)).length ≤ a.freeCap := by
        rw [slotsOf, length_map, length_range]
        omega
      have hsame : ∀ c, slotsOf { a with chunk := c } (slot / a.chunkSize) = a.slotsOf (slot / a.chunkSize) :=
        fun _ => rfl
      rw [update_idem, hsame, foldl_tryEnqueue (hlen.trans h.cap)]
      refine ⟨h.update rfl rfl rfl rfl rfl hother ?_ ⟨?_, ?_, ?_, ?_, ?_⟩ ⟨?_, ?_, h.pos⟩,
        .recycled (finished_iff.mpr hempty) rfl⟩
      · intro k' hk'
        rw [filter_append, append_right_eq_self.mpr]
        rw [filter_eq_nil_iff]
        intro i hi
        rw [mem_slotsOf_iff h.pos] at hi
        simpa [mem_slotsOf_iff h.pos, hi] using Ne.symm hk'
      · intro i hi
        rw [mem_append, ← or_assoc] at hi
        exact hi.elim ((hok a.chunk).claimed i) fun hi => (finished_iff.mpr hempty i hi).1
      · exact nodup_append'.mpr ⟨(hok a.chunk).nodup, nodup_slotsOf a _, fun i hi hk => hnone i hk hi⟩
      · intro i hi
        exact (mem_append.mp hi).elim ((hok a.chunk).apart i) fun hi => (finished_iff.mpr hempty i hi).2.2
      · simp only [length_append, slotsOf, length_map, length_range]
        omega
      · rw [length_append]
        exact hlen
      · change (a.chunkSize : Int) = ((a.freeList ++ a.slotsOf _).filter (· ∈ a.slotsOf (slot / a.chunkSize))).length
        rw [filter_append, filter_eq_nil_iff.mpr (fun i hi => by simpa using fun hk => hnone i hk hi),
          nil_append, filter_eq_self.mpr (fun i hi => by simpa using hi)]
        simp [slotsOf]
      · rw [waiting, filter_eq_self.mpr]
        · simp [slotsOf]
        · intro i hi
          simp [show i ∈ a.slotsOf (slot / a.chunkSize) from hi]
    · rw [update_idem]
      exact ⟨h.update rfl rfl rfl rfl rfl hother (fun _ _ => rfl) (hok _) hempty,
        .dropped (finished_iff.mpr hempty) rfl⟩
  · rw [if_neg hlast]
    refine ⟨h.update rfl rfl rfl rfl rfl hother (fun _ _ => rfl) (hok _) ⟨hout, ?_, ?_⟩, .counted hchunk ?_ rfl⟩
    · change chunk.reaped + 1 + (a.waiting (live.erase slot) _).length = a.chunkSize
      omega
    · change chunk.reaped + 1 < a.chunkSize
      omega
    · rw [finished_iff]
      intro hempty
      rw [hempty, length_nil] at hwaiting
      omega

end Arena

/-- While the directory stays within the chunk numbers, a slot that is allocated is not given
out again before it is reaped; a chunk is recycled or dropped exactly when all its slots
were allocated and reaped, with no slot lost; and the counters are those of the free
list. -/
theorem arena_slots_not_shared (chunkSize : Int) {s : Arena × Finset Nat}
    (hrun : Run arenaStep (fun s _ => s.1.Bounded) (Arena.init chunkSize, ∅) s) :
    s.1.freeList.Nodup ∧ s.1.freeCount = s.1.freeList.length ∧ (∀ k chunk, s.1.chunk k = some chunk →
        chunk.outstanding = ((s.1.freeList.filter (· ∈ s.1.slotsOf k)).length : Int)) ∧
      (s.1.Bounded → ∃ a slot, s.1.alloc = some (a, slot, slot / s.1.chunkSize % 2 ^ 32) ∧ slot ∉ s.2 ∧
        ∀ k, (a.chunk k).map ArenaChunk.reaped = (s.1.chunk k).map ArenaChunk.reaped) ∧
      ∀ slot ∈ s.2, Arena.Reaped s.1 (s.2.erase slot) (slot / s.1.chunkSize)
        (s.1.recordReaped (slot / s.1.chunkSize % 2 ^ 32)) := by
  have hinv : s.1.Inv s.2 := by
    refine hrun.invariant (P := fun s => s.1.Inv s.2) (Arena.inv_init chunkSize) fun {s op t} h hbounded hstep => ?_
    cases op with
    | alloc =>
      obtain ⟨a, slot, halloc, -, hinv, -⟩ := h.alloc hbounded
      rw [arenaStep, halloc] at hstep
      cases hstep
      exact hinv
    | reaped slot =>
      rw [arenaStep] at hstep
      split at hstep
      · rename_i hslot
        cases hstep
        exact (h.recordReaped hslot).1
      · cases hstep
  refine ⟨hinv.free.nodup, hinv.free.count, fun k chunk hchunk => ?_, fun hbounded => ?_, fun slot hslot => ?_⟩
  · have hentry := hinv.entry k
    rw [hchunk] at hentry
    exact hentry.1
  · obtain ⟨a, slot, halloc, hnew, -, hreaped⟩ := hinv.alloc hbounded
    exact ⟨a, slot, halloc, hnew, hreaped⟩
  · exact (hinv.recordReaped hslot).2

theorem arena_slots_not_shared_two : ∃ s : Arena × Finset Nat, s.1.freeList = [0, 1] ∧ s.1.Bounded ∧
    (s.1.Bounded → ∃ a slot, s.1.alloc = some (a, slot, slot / s.1.chunkSize % 2 ^ 32) ∧ slot ∉ s.2 ∧
      ∀ k, (a.chunk k).map ArenaChunk.reaped = (s.1.chunk k).map ArenaChunk.reaped) := by
  obtain ⟨s, hrun, hfree, hbounded⟩ : ∃ s, Run arenaStep (fun s _ => s.1.Bounded) (Arena.init 2, ∅) s ∧
      s.1.freeList = [0, 1] ∧ s.1.Bounded :=
    exists_run_of_perform (show (perform _ _ [.alloc, .alloc, .reaped 1, .reaped 0] _).any _ = true by decide)
  exact ⟨s, hfree, hbounded, (arena_slots_not_shared 2 hrun).2.2.2.1⟩

/-- Arena with one slot to a chunk, of which `n` were taken. -/
def Arena.taken (n : Nat) : Arena := { chunkSize := 1, next := n, length := n }

theorem run_taken {n : Nat} (hn : n < 2 ^ 64) :
    Run arenaStep (fun _ _ => True) (Arena.init 1, ∅) (Arena.taken n, Finset.range n) := by
  induction n with
  | zero => exact .start
  | succ n ih =>
    refine (ih (lt_of_succ_lt hn)).next (a := .alloc) trivial ?_
    have halloc : (Arena.taken n).alloc = some (Arena.taken (n + 1), n, n % 2 ^ 32) := by
      simp only [Arena.taken, Arena.alloc, Arena.grow, Nat.mod_eq_of_lt hn, Nat.div_one, Option.map_some,
        max_eq_right (le_succ n)]
    rw [arenaStep, halloc, Finset.range_add_one, Option.map_some]

/-- The chunk number of slot 2^32 is that of slot 0. Its report recycles the slot, which is
in use. -/
theorem arena_slot_shared : ∃ s : Arena × Finset Nat,
    Run arenaStep (fun _ _ => True) (Arena.init 1, ∅) s ∧ 0 ∈ s.2 ∧ s.1.alloc.map (·.2.1) = some 0 := by
  refine ⟨((Arena.taken (2 ^ 32 + 1)).dropChunk 0, (Finset.range (2 ^ 32 + 1)).erase (2 ^ 32)),
    (run_taken (n := 2 ^ 32 + 1) (by decide)).next (a := .reaped (2 ^ 32)) trivial ?_, ?_, ?_⟩
  · rw [arenaStep, if_pos (Finset.self_mem_range_succ _)]
    simp [Arena.taken, Arena.recordReaped, Arena.dropChunk, Arena.slotsOf, freeSlotCapacity]
  · simp
  · simp [Arena.taken, Arena.alloc, Arena.dropChunk, Arena.slotsOf, tryEnqueue, freeSlotCapacity]

end swytch.keytrie
