import Swytch.Keytrie.Critbit.Bits
import Swytch.Lib.FinmapFold

open swytch.proto Function Option

namespace swytch.keytrie

open Leaf

open lib.CritTree

/-- What the index remembers of a key. -/
structure Entry (D : Type) where
  tips : Option TipSetPtr
  data : Option D

/-- The map that a trie stands for. -/
abbrev OrderedMap (D : Type) := Map Bytes (Entry D)

def Leaf.entry {D : Type} (leaf : Leaf D) : Option (Entry D) :=
  if leaf.deleted then none else some ⟨leaf.tips, leaf.data⟩

variable {D : Type} {c : Critbit D} {m : OrderedMap D} {s : Nat} {leaf : Leaf D}

namespace Critbit

/-- The linked leaves from left to right. -/
def slots {D : Type} (c : Critbit D) : List Nat := rootLeaves c.root

/-- A trie stands for a map: it branches on the bits of its keys, its live leaves are the
entries of the map, and a leaf that is not live or not linked is empty. -/
structure Models {D : Type} (c : Critbit D) (m : OrderedMap D) : Prop where
  wf : ∀ t, c.root = some t → t.WF keyBits (fun s => (c.leaf s).key)
  fresh : ∀ s ∈ c.slots, s < c.nextLeaf
  short : ∀ s ∈ c.slots, (c.leaf s).key.length ≤ 2 ^ 32
  empty : ∀ s ∈ c.slots, (c.leaf s).deleted = true → (c.leaf s).tips = none ∧ (c.leaf s).data = none
  unlinked : ∀ s, s ∉ c.slots → (c.leaf s).deleted = true
  present : ∀ s ∈ c.slots, m.lookup (c.leaf s).key = (c.leaf s).entry
  absent : ∀ key, (∀ s ∈ c.slots, (c.leaf s).key ≠ key) → m.lookup key = none

/-- Counters and queues do not matter. -/
theorem Models.frame {c' : Critbit D} (h : Models c m) (hroot : c'.root = c.root) (hleaf : c'.leaf = c.leaf)
    (hnext : c'.nextLeaf = c.nextLeaf) : Models c' m := by
  have hslots : c'.slots = c.slots := by
    rw [slots, hroot, slots]
  constructor
  · rw [hroot, hleaf]
    exact h.wf
  · rw [hslots, hnext]
    exact h.fresh
  · rw [hslots, hleaf]
    exact h.short
  · rw [hslots, hleaf]
    exact h.empty
  · rw [hslots, hleaf]
    exact h.unlinked
  · rw [hslots, hleaf]
    exact h.present
  · rw [hslots, hleaf]
    exact h.absent

theorem Models.inj (h : Models c m) {s' : Nat} (hs : s ∈ c.slots) (hs' : s' ∈ c.slots)
    (hkey : (c.leaf s).key = (c.leaf s').key) : s = s' := by
  unfold slots at hs hs'
  cases hroot : c.root with
  | none =>
    rw [hroot] at hs
    cases hs
  | some t =>
    rw [hroot] at hs hs'
    exact (h.wf t hroot).inj hs hs' hkey

/-- The contents of a linked leaf change. -/
theorem Models.setLeaf {m' : OrderedMap D} (h : Models c m) (hs : s ∈ c.slots) (hkey : leaf.key = (c.leaf s).key)
    (hempty : leaf.deleted = true → leaf.tips = none ∧ leaf.data = none) (hentry : m'.lookup leaf.key = leaf.entry)
    (hother : ∀ key, key ≠ leaf.key → m'.lookup key = m.lookup key) : Models (c.setLeaf s leaf) m' := by
  have hkeys : ∀ s', ((c.setLeaf s leaf).leaf s').key = (c.leaf s').key := by
    intro s'
    simp only [Critbit.setLeaf, update_apply]
    split
    · rename_i heq
      rw [heq, hkey]
    · rfl
  have hself : (c.setLeaf s leaf).leaf s = leaf := update_self _ _ _
  have hne : ∀ s', s' ≠ s → (c.setLeaf s leaf).leaf s' = c.leaf s' := fun s' hs' => update_of_ne hs' _ _
  refine ⟨?_, h.fresh, ?_, ?_, ?_, ?_, ?_⟩
  · intro t ht
    exact (h.wf t ht).congr fun s' _ => hkeys s'
  · intro s' hs'
    rw [hkeys]
    exact h.short s' hs'
  · intro s' hs'
    by_cases heq : s' = s
    · rw [heq, hself]
      exact hempty
    · rw [hne s' heq]
      exact h.empty s' hs'
  · intro s' hs'
    have heq : s' ≠ s := fun heq => hs' (heq ▸ hs)
    rw [hne s' heq]
    exact h.unlinked s' hs'
  · intro s' hs'
    by_cases heq : s' = s
    · rw [heq, hself]
      exact hentry
    · rw [hne s' heq, hother, h.present s' hs']
      intro hsame
      exact heq (h.inj hs' hs (hsame.trans hkey))
  · intro key habsent
    have habsent' : ∀ s' ∈ c.slots, (c.leaf s').key ≠ key := fun s' hs' => hkeys s' ▸ habsent s' hs'
    rw [hother key fun heq => habsent' s hs (hkey.symm.trans heq.symm)]
    exact h.absent key habsent'

/-- A slot that is not linked may hold anything that is deleted. -/
theorem Models.setUnlinked (h : Models c m) (hs : s ∉ c.slots) (hdeleted : leaf.deleted = true) :
    Models (c.setLeaf s leaf) m := by
  have hlinked : ∀ s' ∈ c.slots, (c.setLeaf s leaf).leaf s' = c.leaf s' := by
    intro s' hs'
    have hne : s' ≠ s := fun heq => hs (heq ▸ hs')
    exact update_of_ne hne _ _
  refine ⟨?_, h.fresh, ?_, ?_, ?_, ?_, ?_⟩
  · intro t ht
    refine (h.wf t ht).congr fun s' hs' => ?_
    have hroot : c.root = some t := ht
    have hmem : s' ∈ c.slots := by
      rw [slots, hroot]
      exact hs'
    rw [hlinked s' hmem]
  · intro s' hs'
    rw [hlinked s' hs']
    exact h.short s' hs'
  · intro s' hs'
    rw [hlinked s' hs']
    exact h.empty s' hs'
  · intro s' hs'
    by_cases heq : s' = s
    · rw [heq]
      exact (congrArg deleted (update_self s leaf c.leaf)).trans hdeleted
    · exact (congrArg deleted (update_of_ne heq leaf c.leaf)).trans (h.unlinked s' hs')
  · intro s' hs'
    rw [hlinked s' hs']
    exact h.present s' hs'
  · intro key habsent
    exact h.absent key fun s' hs' => hlinked s' hs' ▸ habsent s' hs'

/-- A leaf is changed in a way that the map does not show. -/
theorem Models.setSame (h : Models c m) (hkey : leaf.key = (c.leaf s).key) (htips : leaf.tips = (c.leaf s).tips)
    (hdata : leaf.data = (c.leaf s).data) (hdeleted : leaf.deleted = (c.leaf s).deleted) :
    Models (c.setLeaf s leaf) m := by
  by_cases hs : s ∈ c.slots
  · refine h.setLeaf hs hkey ?_ ?_ fun _ _ => rfl
    · rw [hdeleted, htips, hdata]
      exact h.empty s hs
    · rw [hkey, h.present s hs, entry, entry, hdeleted, htips, hdata]
  · exact h.setUnlinked hs (hdeleted.trans (h.unlinked s hs))

/-- Leaves that are not live may be taken out of the tree. -/
theorem Models.shrink (h : Models c m) {root : Option Trie}
    (hwf : ∀ t, root = some t → t.WF keyBits (fun s => (c.leaf s).key))
    (hsub : ∀ s ∈ rootLeaves root, s ∈ c.slots)
    (hdeleted : ∀ s ∈ c.slots, s ∉ rootLeaves root → (c.leaf s).deleted = true) :
    Models { c with root := root } m := by
  refine ⟨hwf, fun s hs => h.fresh s (hsub s hs), fun s hs => h.short s (hsub s hs), fun s hs => h.empty s (hsub s hs),
    ?_, fun s hs => h.present s (hsub s hs), ?_⟩
  · intro s hs
    by_cases hold : s ∈ c.slots
    · exact hdeleted s hold hs
    · exact h.unlinked s hold
  · intro key habsent
    by_cases hold : ∃ s ∈ c.slots, (c.leaf s).key = key
    · obtain ⟨s, hs, rfl⟩ := hold
      have hgone := hdeleted s hs fun hs' => habsent s hs' rfl
      rw [h.present s hs, entry, if_pos hgone]
    · exact h.absent key fun s hs heq => hold ⟨s, hs, heq⟩

theorem findBestMatch_of_mem (h : Models c m) (hs : s ∈ c.slots) : findBestMatch c.root (c.leaf s).key = some s := by
  unfold slots at hs
  cases hroot : c.root with
  | none =>
    rw [hroot] at hs
    cases hs
  | some t =>
    rw [hroot] at hs
    exact congrArg some ((h.wf t hroot).best_eq hs)

theorem mem_slots_of_findBestMatch {key : Bytes} (hbest : findBestMatch c.root key = some s) : s ∈ c.slots := by
  obtain ⟨t, ht, rfl⟩ := map_eq_some_iff.mp hbest
  rw [slots, ht]
  exact best_mem _ t

/-- What a search for a key finds. -/
theorem Models.findBestMatch_cases (h : Models c m) (key : Bytes) : (∃ s ∈ c.slots, (c.leaf s).key = key ∧
        (findBestMatch c.root key).filter (fun s => (c.leaf s).key == key) = some s) ∨
      (∀ s ∈ c.slots, (c.leaf s).key ≠ key) ∧
        (findBestMatch c.root key).filter (fun s => (c.leaf s).key == key) = none := by
  by_cases hkey : ∃ s ∈ c.slots, (c.leaf s).key = key
  · obtain ⟨s, hs, rfl⟩ := hkey
    refine .inl ⟨s, hs, rfl, ?_⟩
    rw [findBestMatch_of_mem h hs]
    simp
  · have hnot : ∀ s ∈ c.slots, (c.leaf s).key ≠ key := fun s hs heq => hkey ⟨s, hs, heq⟩
    refine .inr ⟨hnot, ?_⟩
    rw [filter_eq_none_iff]
    intro s hs
    simpa using hnot s (mem_slots_of_findBestMatch hs)

/-- What a search for a live leaf finds. -/
theorem Models.liveLeaf_cases (h : Models c m) (key : Bytes) :
    (∃ s ∈ c.slots, (c.leaf s).key = key ∧ (c.leaf s).deleted = false ∧ c.liveLeaf key = some s ∧
        m.lookup key = some ⟨(c.leaf s).tips, (c.leaf s).data⟩) ∨ c.liveLeaf key = none ∧ m.lookup key = none := by
  by_cases hkey : ∃ s ∈ c.slots, (c.leaf s).key = key
  · obtain ⟨s, hs, rfl⟩ := hkey
    have hbest := findBestMatch_of_mem h hs
    cases hdeleted : (c.leaf s).deleted with
    | false =>
      refine .inl ⟨s, hs, rfl, hdeleted, ?_, ?_⟩
      · rw [liveLeaf, hbest, filter_some_pos]
        simp [hdeleted]
      · rw [h.present s hs, entry, hdeleted, if_neg Bool.false_ne_true]
    | true =>
      refine .inr ⟨?_, ?_⟩
      · rw [liveLeaf, hbest]
        simp [hdeleted]
      · rw [h.present s hs, entry, hdeleted, if_pos rfl]
  · have hnot : ∀ s ∈ c.slots, (c.leaf s).key ≠ key := fun s hs heq => hkey ⟨s, hs, heq⟩
    refine .inr ⟨?_, h.absent key hnot⟩
    rw [liveLeaf, filter_eq_none_iff]
    intro s hs
    simpa using fun heq => absurd heq (hnot s (mem_slots_of_findBestMatch hs))

theorem Models.contains_eq (h : Models c m) (key : Bytes) : c.contains key = (m.lookup key).bind Entry.tips := by
  rcases h.liveLeaf_cases key with ⟨s, -, -, -, hlive, hlookup⟩ | ⟨hlive, hlookup⟩
  · rw [contains, hlive, hlookup]
    rfl
  · rw [contains, hlive, hlookup]
    rfl

theorem Models.loadData_eq (h : Models c m) (key : Bytes) (now : Nat) :
    (c.loadData key now).2 = (m.lookup key).bind Entry.data := by
  rcases h.liveLeaf_cases key with ⟨s, -, -, -, hlive, hlookup⟩ | ⟨hlive, hlookup⟩
  · rw [loadData, hlive, hlookup]
    rfl
  · rw [loadData, hlive, hlookup]
    rfl

end Critbit

end swytch.keytrie
