import Swytch.Lib.ChainSearch
import Swytch.Lib.Search
import Mathlib.Data.List.Sort

namespace swytch.lib

open Option

open List

/-- The part of a chain that may be unrelated to `v`: past the vertices `v` reaches
and before those that reach `v`. -/
def concurrentRange {α β : Type} (reaches : α → α → Bool) (tip : β → α) (v : α) (chain : List β) : Nat × Nat :=
  let first := search chain.length (fun i => chain[i]?.any (fun b => !reaches v (tip b)))
  let last := search chain.length (fun i => chain[i]?.any (fun b => reaches (tip b) v))
  (first, max first last)

def slice {β : Type} (chain : List β) (range : Nat × Nat) : List β :=
  (chain.take range.2).drop range.1

variable {β α : Type} {chain items : List β} {b : β} {deps : α → List α} {tip : β → α} {c : ChainIndex α}
  {reaches : α → α → Bool}

theorem mem_slice_iff {range : Nat × Nat} :
    b ∈ slice chain range ↔ ∃ p, range.1 ≤ p ∧ p < range.2 ∧ chain[p]? = some b := by
  simp only [slice, mem_iff_getElem?, getElem?_drop]
  constructor
  · rintro ⟨i, hi⟩
    have hlt : range.1 + i < range.2 := by
      by_contra hnot
      rw [getElem?_take_eq_none (by omega)] at hi
      cases hi
    rw [getElem?_take_of_lt hlt] at hi
    exact ⟨range.1 + i, by omega, hlt, hi⟩
  · rintro ⟨p, hfirst, hlast, hp⟩
    refine ⟨p - range.1, ?_⟩
    rw [show range.1 + (p - range.1) = p by omega, getElem?_take_of_lt hlast, hp]

/-- On a chain whose later vertices reach the earlier ones, the two searches cut
out exactly the vertices unrelated to `v`. -/
theorem mem_concurrentRange_iff {v : α}
    (hdown : ∀ b ∈ chain, (reaches v (tip b) = true ↔ Reach deps v (tip b)))
    (hup : ∀ b ∈ chain, (reaches (tip b) v = true ↔ Reach deps (tip b) v))
    (hchain : chain.Pairwise (fun a b => Reach deps (tip b) (tip a))) :
    b ∈ slice chain (concurrentRange reaches tip v chain) ↔
      b ∈ chain ∧ ¬ Reach deps v (tip b) ∧ ¬ Reach deps (tip b) v := by
  have hlater : ∀ p q (hpq : p ≤ q) (hq : q < chain.length), Reach deps (tip chain[q]) (tip chain[p]) := by
    intro p q hpq hq
    rcases Nat.lt_or_eq_of_le hpq with hlt | rfl
    · exact pairwise_iff_getElem.mp hchain p q (by omega) hq hlt
    · exact Reach.refl _
  have hfirst : ∀ p (hp : p < chain.length), search chain.length
      (fun i => chain[i]?.any (fun b => !reaches v (tip b))) ≤ p ↔ ¬ Reach deps v (tip chain[p]) := by
    intro p hp
    rw [search_le_iff _ hp]
    · simp [hp, ← hdown chain[p] (getElem_mem hp)]
    · intro p q hpq hq hfp
      have hp : p < chain.length := by omega
      simp only [getElem?_eq_getElem hp, getElem?_eq_getElem hq, any_some, Bool.not_eq_true',
        ← Bool.not_eq_true, hdown _ (getElem_mem _)] at hfp ⊢
      intro hreach
      exact hfp (hreach.trans (hlater p q hpq hq))
  have hlast : ∀ p (hp : p < chain.length), search chain.length
      (fun i => chain[i]?.any (fun b => reaches (tip b) v)) ≤ p ↔ Reach deps (tip chain[p]) v := by
    intro p hp
    rw [search_le_iff _ hp]
    · simp [hp, ← hup chain[p] (getElem_mem hp)]
    · intro p q hpq hq hfp
      have hp : p < chain.length := by omega
      simp only [getElem?_eq_getElem hp, getElem?_eq_getElem hq, any_some,
        hup _ (getElem_mem _)] at hfp ⊢
      exact (hlater p q hpq hq).trans hfp
  rw [mem_slice_iff, mem_iff_getElem?]
  constructor
  · rintro ⟨p, hle, hlt, hp⟩
    obtain ⟨hplen, rfl⟩ := List.getElem?_eq_some_iff.mp hp
    refine ⟨⟨p, hp⟩, (hfirst p hplen).mp hle, ?_⟩
    intro hreach
    have := (hlast p hplen).mpr hreach
    simp only [concurrentRange] at hle hlt
    omega
  · rintro ⟨⟨p, hp⟩, hnot, hnot'⟩
    obtain ⟨hplen, rfl⟩ := List.getElem?_eq_some_iff.mp hp
    have hle := (hfirst p hplen).mpr hnot
    have hlt := mt (hlast p hplen).mp hnot'
    refine ⟨p, hle, ?_, hp⟩
    simp only [concurrentRange]
    omega

namespace ChainIndex

def seqOf {α : Type} [DecidableEq α] (c : ChainIndex α) (v : α) : Nat :=
  (c.node v).elim 0 ChainNode.seq

/-- The items on each chain, from the first to the last. -/
def chains {α β : Type} [DecidableEq α] (c : ChainIndex α) (tip : β → α) (items : List β) : List (List β) :=
  (range c.heads.length).map (fun i =>
    (items.filter (fun b => (c.node (tip b)).any (fun nd => nd.chain = i))).insertionSort
      (fun a b => c.seqOf (tip a) ≤ c.seqOf (tip b)))

theorem Exact.pairwise_of_mem_chains [DecidableEq α] (hexact : Exact deps c) (hchain : chain ∈ c.chains tip items) :
    chain.Pairwise (fun a b => Reach deps (tip b) (tip a)) := by
  obtain ⟨i, -, rfl⟩ := mem_map.mp hchain
  have : Std.Total (fun a b : β => c.seqOf (tip a) ≤ c.seqOf (tip b)) := ⟨fun a b => le_total _ _⟩
  have : IsTrans β (fun a b => c.seqOf (tip a) ≤ c.seqOf (tip b)) := ⟨fun _ _ _ h h' => h.trans h'⟩
  have hplaced : ∀ b ∈ (items.filter (fun b => (c.node (tip b)).any (fun nd => nd.chain = i))).insertionSort
      (fun a b => c.seqOf (tip a) ≤ c.seqOf (tip b)), ∃ nb, c.node (tip b) = some nb ∧ nb.chain = i := by
    intro b hb
    have hon := (mem_filter.mp ((mem_insertionSort _).mp hb)).2
    cases hnb : c.node (tip b) with
    | none => simp [hnb] at hon
    | some nb => exact ⟨nb, rfl, by simpa [hnb] using hon⟩
  refine (pairwise_insertionSort _ _).imp_of_mem ?_
  intro a b ha hb hle
  obtain ⟨na, hna, hia⟩ := hplaced a ha
  obtain ⟨nb, hnb, hib⟩ := hplaced b hb
  simp only [seqOf, hna, hnb, elim_some] at hle
  exact hexact.reach_of_seq_le hnb hna (hib.trans hia.symm) hle

theorem Exact.mem_chains_iff [DecidableEq α] (hexact : Exact deps c)
    (hitems : ∀ b ∈ items, (c.node (tip b)).isSome) : (∃ chain ∈ c.chains tip items, b ∈ chain) ↔ b ∈ items := by
  constructor
  · rintro ⟨chain, hchain, hb⟩
    obtain ⟨i, -, rfl⟩ := mem_map.mp hchain
    exact (mem_filter.mp ((mem_insertionSort _).mp hb)).1
  · intro hb
    obtain ⟨nb, hnb⟩ := isSome_iff_exists.mp (hitems b hb)
    have hlt := lt_length_of_getD_pos (le_trans (hexact.seq_pos hnb) (hexact.seq_le hnb))
    refine ⟨_, mem_map.mpr ⟨nb.chain, mem_range.mpr hlt, rfl⟩, ?_⟩
    exact (mem_insertionSort _).mpr (mem_filter.mpr ⟨hb, by simp [hnb]⟩)

/-- Scanning the concurrent range of every chain finds exactly the items unrelated
to `v`. -/
theorem Exact.exists_concurrent_iff [DecidableEq α] (hexact : Exact deps c) {v : α}
    (hitems : ∀ b ∈ items, (c.node (tip b)).isSome)
    (hdown : ∀ b ∈ items, (reaches v (tip b) = true ↔ Reach deps v (tip b)))
    (hup : ∀ b ∈ items, (reaches (tip b) v = true ↔ Reach deps (tip b) v)) (P : β → Prop) :
    (∃ chain ∈ c.chains tip items, ∃ b ∈ slice chain (concurrentRange reaches tip v chain), P b) ↔
      ∃ b ∈ items, ¬ Reach deps v (tip b) ∧ ¬ Reach deps (tip b) v ∧ P b := by
  have hmem : ∀ {chain b}, chain ∈ c.chains tip items → b ∈ chain → b ∈ items := fun hchain hb =>
    (hexact.mem_chains_iff hitems).mp ⟨_, hchain, hb⟩
  have hrange : ∀ {chain b}, chain ∈ c.chains tip items →
      (b ∈ slice chain (concurrentRange reaches tip v chain) ↔
        b ∈ chain ∧ ¬ Reach deps v (tip b) ∧ ¬ Reach deps (tip b) v) := fun hchain =>
    mem_concurrentRange_iff (fun b hb => hdown b (hmem hchain hb)) (fun b hb => hup b (hmem hchain hb))
      (hexact.pairwise_of_mem_chains hchain)
  constructor
  · rintro ⟨chain, hchain, b, hb, hP⟩
    obtain ⟨hb, hnot, hnot'⟩ := (hrange hchain).mp hb
    exact ⟨b, hmem hchain hb, hnot, hnot', hP⟩
  · rintro ⟨b, hb, hnot, hnot', hP⟩
    obtain ⟨chain, hchain, hbc⟩ := (hexact.mem_chains_iff hitems).mpr hb
    exact ⟨chain, hchain, b, (hrange hchain).mpr ⟨hbc, hnot, hnot'⟩, hP⟩

end ChainIndex

end swytch.lib
