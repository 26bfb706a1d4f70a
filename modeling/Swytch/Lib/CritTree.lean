import Mathlib.Order.Lattice
import Mathlib.Data.List.Basic

namespace swytch.lib

open Option hiding or_assoc

open List

/-- Keys seen as strings of bits: the bit of a key at a position, and the positions at
which two keys can differ first. -/
structure Bits (K P : Type) where
  bit : K → P → Bool
  valid : P → Prop

variable {K P S : Type} {b : Bits K P} {k k' : K} {p c : P} {key key' : S → K} {n s inner new : S}
  {dir : P → Bool}

namespace Bits

/-- Two keys have the same bits before a position. -/
def Agree {K P : Type} [LinearOrder P] (b : Bits K P) (k k' : K) (p : P) : Prop :=
  ∀ q, b.valid q → q < p → b.bit k q = b.bit k' q

/-- The first position at which two keys differ. -/
structure Crit {K P : Type} [LinearOrder P] (b : Bits K P) (k k' : K) (p : P) : Prop where
  valid : b.valid p
  differ : b.bit k p ≠ b.bit k' p
  agree : b.Agree k k' p

theorem Agree.symm [LinearOrder P] (h : b.Agree k k' p) : b.Agree k' k p :=
  fun q hq hlt => (h q hq hlt).symm

theorem Agree.trans [LinearOrder P] {k'' : K} (h : b.Agree k k' p) (h' : b.Agree k' k'' p) : b.Agree k k'' p :=
  fun q hq hlt => (h q hq hlt).trans (h' q hq hlt)

theorem Agree.mono [LinearOrder P] {q : P} (h : b.Agree k k' p) (hle : q ≤ p) : b.Agree k k' q :=
  fun r hr hlt => h r hr (lt_of_lt_of_le hlt hle)

end Bits

/-- A binary tree whose inner nodes branch on a bit. Leaves and inner nodes are known by
the slot they are stored in. -/
inductive CritTree (S P : Type) where
  | leaf (s : S)
  | node (n : S) (p : P) (l r : CritTree S P)

variable {t : CritTree S P}

variable {l r : CritTree S P}

variable {t' : Option (CritTree S P)}

namespace CritTree

def leaves {S P : Type} : CritTree S P → List S
  | leaf s => [s]
  | node _ _ l r => l.leaves ++ r.leaves

/-- The leaf at the end of a path. -/
def best {S P : Type} (dir : P → Bool) : CritTree S P → S
  | leaf s => s
  | node _ p l r => if dir p then r.best dir else l.best dir

/-- A new leaf branches off from a tree. -/
def branch {S P : Type} (inner new : S) (c : P) (right : Bool) (t : CritTree S P) : CritTree S P :=
  if right then node inner c t (leaf new) else node inner c (leaf new) t

/-- Let a new leaf branch off at a position of its path. -/
def graft {S P : Type} [LinearOrder P] (dir : P → Bool) (inner new : S) (c : P) : CritTree S P → CritTree S P
  | leaf s => branch inner new c (dir c) (leaf s)
  | node n p l r =>
    if p < c then
      if dir p then node n p l (r.graft dir inner new c) else node n p (l.graft dir inner new c) r
    else branch inner new c (dir c) (node n p l r)

/-- Remove a leaf at the end of a path, with the inner node above it. -/
def prune {S P : Type} [DecidableEq S] (dir : P → Bool) (s : S) : CritTree S P → Option (Option (CritTree S P))
  | leaf s' => if s' = s then some none else none
  | node n p l r =>
    if dir p then (r.prune dir s).map fun r' => some (r'.elim l (node n p l))
    else (l.prune dir s).map fun l' => some (l'.elim r (fun l' => node n p l' r))

/-- Put another leaf in the place of the one at the end of a path. -/
def replaceLeaf {S P : Type} [DecidableEq S] (dir : P → Bool) (s s' : S) : CritTree S P → Option (CritTree S P)
  | leaf t => if t = s then some (leaf s') else none
  | node n p l r =>
    if dir p then (r.replaceLeaf dir s s').map (node n p l)
    else (l.replaceLeaf dir s s').map (fun l' => node n p l' r)

/-- Put another inner node in the place of one that is on a path. -/
def replaceNode {S P : Type} [DecidableEq S] (dir : P → Bool) (n n' : S) : CritTree S P → Option (CritTree S P)
  | leaf _ => none
  | node m p l r =>
    if m = n then some (node n' p l r)
    else if dir p then (r.replaceNode dir n n').map (node m p l)
    else (l.replaceNode dir n n').map (fun l' => node m p l' r)

/-- The subtree of an inner node. -/
def subtree? {S P : Type} [DecidableEq S] (n : S) : CritTree S P → Option (CritTree S P)
  | leaf _ => none
  | node m p l r => if m = n then some (node m p l r) else (l.subtree? n).or (r.subtree? n)

/-- Whether a tree is a single leaf that is to be removed. -/
def deadLeaf? {S P : Type} (dead : S → Bool) : CritTree S P → Option S
  | leaf s => if dead s then some s else none
  | node _ _ _ _ => none

/-- Remove the dead leaves below inner nodes, children before their parent. An inner node
gives up one child at most, and what is left of it takes its place. -/
def collapse {S P : Type} (dead : S → Bool) : CritTree S P → CritTree S P × List S
  | leaf s => (leaf s, [])
  | node n p l r =>
    let right := r.collapse dead
    let left := l.collapse dead
    let pruned := right.2 ++ left.2
    match left.1.deadLeaf? dead, right.1.deadLeaf? dead with
    | some s, _ => (right.1, pruned ++ [s])
    | none, some s => (left.1, pruned ++ [s])
    | none, none => (node n p left.1 right.1, pruned)

/-- The branching of a tree is that of its keys. -/
inductive WF {K S P : Type} [LinearOrder P] (b : Bits K P) (key : S → K) : CritTree S P → Prop where
  | leaf (s : S) : WF b key (leaf s)
  | node {n : S} {p : P} {l r : CritTree S P} (hvalid : b.valid p)
      (hleft : ∀ s ∈ l.leaves, b.bit (key s) p = false) (hright : ∀ s ∈ r.leaves, b.bit (key s) p = true)
      (hagree : ∀ s ∈ l.leaves ++ r.leaves, ∀ s' ∈ l.leaves ++ r.leaves, b.Agree (key s) (key s') p)
      (hl : WF b key l) (hr : WF b key r) : WF b key (node n p l r)

theorem best_mem (dir : P → Bool) (t : CritTree S P) : t.best dir ∈ t.leaves := by
  induction t with
  | leaf s => exact mem_singleton_self s
  | node n p l r ihl ihr =>
    unfold best leaves
    split
    · exact mem_append_right _ ihr
    · exact mem_append_left _ ihl

/-- A node whose keys agree with some key before its position. -/
theorem WF.join [LinearOrder P] (hvalid : b.valid p) (hleft : ∀ s ∈ l.leaves, b.bit (key s) p = false)
    (hright : ∀ s ∈ r.leaves, b.bit (key s) p = true)
    (hagree : ∀ s, s ∈ l.leaves ∨ s ∈ r.leaves → b.Agree k (key s) p) (hl : WF b key l) (hr : WF b key r) :
    WF b key (.node n p l r) := by
  refine .node hvalid hleft hright (fun s hs s' hs' => ?_) hl hr
  exact (hagree s (mem_append.mp hs)).symm.trans (hagree s' (mem_append.mp hs'))

/-- Subtrees may be replaced by ones with keys of the same side. -/
theorem WF.rebuild [LinearOrder P] {l' r' : CritTree S P} (h : WF b key (.node n p l r)) (hl' : WF b key' l')
    (hr' : WF b key' r') (hsubl : ∀ s' ∈ l'.leaves, ∃ s ∈ l.leaves, key' s' = key s)
    (hsubr : ∀ s' ∈ r'.leaves, ∃ s ∈ r.leaves, key' s' = key s) (n' : S) : WF b key' (.node n' p l' r') := by
  cases h with
  | node hvalid hleft hright hagree _ _ =>
    have hbest := mem_append_left r.leaves (best_mem (fun _ => true) l)
    refine .join (k := key (l.best fun _ => true)) hvalid (fun s' hs' => ?_) (fun s' hs' => ?_) (fun s' hs' => ?_)
      hl' hr'
    · obtain ⟨s, hs, heq⟩ := hsubl s' hs'
      exact heq ▸ hleft s hs
    · obtain ⟨s, hs, heq⟩ := hsubr s' hs'
      exact heq ▸ hright s hs
    · obtain ⟨s, hs, heq⟩ : ∃ s ∈ l.leaves ++ r.leaves, key' s' = key s := by
        simp only [mem_append, or_and_right, exists_or]
        exact hs'.imp (hsubl s') (hsubr s')
      exact heq ▸ hagree _ hbest s hs

theorem WF.congr [LinearOrder P] (h : WF b key t) (hkey : ∀ s ∈ t.leaves, key' s = key s) : WF b key' t := by
  induction h with
  | leaf s => exact .leaf s
  | @node n p l r hvalid hleft hright hagree hl hr ihl ihr =>
    have hkl : ∀ s ∈ l.leaves, key' s = key s := fun s hs => hkey s (mem_append_left _ hs)
    have hkr : ∀ s ∈ r.leaves, key' s = key s := fun s hs => hkey s (mem_append_right _ hs)
    exact (WF.node (n := n) hvalid hleft hright hagree hl hr).rebuild (ihl hkl) (ihr hkr)
      (fun s hs => ⟨s, hs, hkl s hs⟩) (fun s hs => ⟨s, hs, hkr s hs⟩) n

/-- Subtrees may be replaced by ones with fewer leaves. -/
theorem WF.shrink [LinearOrder P] {l' r' : CritTree S P} (h : WF b key (.node n p l r)) (hl' : WF b key l')
    (hr' : WF b key r') (hsubl : l'.leaves ⊆ l.leaves) (hsubr : r'.leaves ⊆ r.leaves) (n' : S) :
    WF b key (.node n' p l' r') :=
  h.rebuild hl' hr' (fun s hs => ⟨s, hsubl hs, rfl⟩) (fun s hs => ⟨s, hsubr hs, rfl⟩) n'

theorem WF.left [LinearOrder P] (h : WF b key (.node n p l r)) : WF b key l := by
  cases h with
  | node _ _ _ _ hl _ => exact hl

theorem WF.right [LinearOrder P] (h : WF b key (.node n p l r)) : WF b key r := by
  cases h with
  | node _ _ _ _ _ hr => exact hr

/-- Positions increase along a path. -/
theorem WF.lt_of_subtree [LinearOrder P] {n' : S} {q : P} {l' r' : CritTree S P} (h : WF b key (.node n p l r))
    (hsub : l = .node n' q l' r' ∨ r = .node n' q l' r') : p < q := by
  cases h with
  | node _ hleft hright hagree hl hr =>
    have hl' := best_mem (fun _ => true) l'
    have hr' := best_mem (fun _ => true) r'
    have hboth : WF b key (.node n' q l' r') ∧ ∃ side, ∀ s ∈ l'.leaves ++ r'.leaves,
        s ∈ l.leaves ++ r.leaves ∧ b.bit (key s) p = side := by
      obtain rfl | rfl := hsub
      · exact ⟨hl, false, fun s hs => ⟨mem_append_left _ hs, hleft s hs⟩⟩
      · exact ⟨hr, true, fun s hs => ⟨mem_append_right _ hs, hright s hs⟩⟩
    obtain ⟨hwf, side, hside⟩ := hboth
    cases hwf with
    | node hvalid hleft' hright' _ _ _ =>
      obtain ⟨hmem, hbit⟩ := hside _ (mem_append_left _ hl')
      obtain ⟨hmem', hbit'⟩ := hside _ (mem_append_right _ hr')
      have hdiffer := hleft' _ hl'
      by_contra hle
      obtain hlt | rfl := lt_or_eq_of_le (not_lt.mp hle)
      · rw [hagree _ hmem _ hmem' q hvalid hlt, hright' _ hr'] at hdiffer
        cases hdiffer
      · rw [hbit, ← hbit', hright' _ hr'] at hdiffer
        cases hdiffer

/-- The path of a key leads to its leaf. -/
theorem WF.best_eq [LinearOrder P] (h : WF b key t) (hs : s ∈ t.leaves) : t.best (b.bit (key s)) = s := by
  induction h with
  | leaf s' => exact (mem_singleton.mp hs).symm
  | node _ hleft hright _ _ _ ihl ihr =>
    unfold best
    rcases mem_append.mp hs with hs | hs
    · rw [hleft s hs, if_neg Bool.false_ne_true]
      exact ihl hs
    · rw [hright s hs, if_pos rfl]
      exact ihr hs

/-- A key has one leaf. -/
theorem WF.inj [LinearOrder P] (h : WF b key t) {s' : S} (hs : s ∈ t.leaves) (hs' : s' ∈ t.leaves)
    (hkey : key s = key s') : s = s' := by
  rw [← h.best_eq hs, ← h.best_eq hs', hkey]

/-- From left to right the keys increase, in any order that is decided by first
differences. -/
theorem WF.pairwise [LinearOrder P] (h : WF b key t) {lt : K → K → Prop}
    (hlt : ∀ s ∈ t.leaves, ∀ s' ∈ t.leaves, ∀ p, b.Crit (key s) (key s') p → b.bit (key s) p = false →
      lt (key s) (key s')) : (t.leaves.map key).Pairwise lt := by
  induction h with
  | leaf s => exact pairwise_singleton _ _
  | @node n p l r hvalid hleft hright hagree _ _ ihl ihr =>
    have hl : ∀ s ∈ l.leaves, s ∈ (CritTree.node n p l r).leaves := fun s hs => mem_append_left _ hs
    have hr : ∀ s ∈ r.leaves, s ∈ (CritTree.node n p l r).leaves := fun s hs => mem_append_right _ hs
    rw [leaves, map_append, pairwise_append]
    refine ⟨ihl fun s hs s' hs' => hlt s (hl s hs) s' (hl s' hs'),
      ihr fun s hs s' hs' => hlt s (hr s hs) s' (hr s' hs'), ?_⟩
    intro k hk k' hk'
    obtain ⟨s, hs, rfl⟩ := mem_map.mp hk
    obtain ⟨s', hs', rfl⟩ := mem_map.mp hk'
    refine hlt s (hl s hs) s' (hr s' hs') p ⟨hvalid, ?_, ?_⟩ (hleft s hs)
    · rw [hleft s hs, hright s' hs']
      exact Bool.false_ne_true
    · exact hagree s (mem_append_left _ hs) s' (mem_append_right _ hs')

theorem mem_leaves_branch {right : Bool} : s ∈ (t.branch inner new c right).leaves ↔ s ∈ t.leaves ∨ s = new := by
  unfold branch
  split
  · simp [leaves]
  · simp [leaves, or_comm]

theorem mem_leaves_graft [LinearOrder P] : s ∈ (t.graft dir inner new c).leaves ↔ s ∈ t.leaves ∨ s = new := by
  induction t with
  | leaf s' => exact mem_leaves_branch
  | node n p l r ihl ihr =>
    unfold graft
    split
    · split
      · simp only [leaves, mem_append, ihr, or_assoc]
      · simp only [leaves, mem_append, ihl]
        exact or_right_comm
    · exact mem_leaves_branch

/-- A key branches off from a tree whose keys agree with each other beyond the position. -/
theorem WF.branch [LinearOrder P] (h : WF b key t) (hcrit : b.Crit (key new) (key s) c)
    (hagree : ∀ s' ∈ t.leaves, b.Agree (key s') (key s) c ∧ b.bit (key s') c = b.bit (key s) c) :
    WF b key (t.branch inner new c (b.bit (key new) c)) := by
  have hall : ∀ s', s' ∈ t.leaves ∨ s' = new → b.Agree (key new) (key s') c := by
    rintro s' (hs' | rfl)
    · exact hcrit.agree.trans (hagree s' hs').1.symm
    · exact fun _ _ _ => rfl
  have hdiffer : ∀ s' ∈ t.leaves, b.bit (key s') c = !b.bit (key new) c := by
    intro s' hs'
    rw [(hagree s' hs').2, Bool.eq_not]
    exact hcrit.differ.symm
  have hnew : ∀ s' ∈ (CritTree.leaf new : CritTree S P).leaves, s' = new := fun s' hs' => mem_singleton.mp hs'
  unfold CritTree.branch
  cases hbit : b.bit (key new) c with
  | true =>
    rw [if_pos rfl]
    refine .join hcrit.valid ?_ ?_ (fun s' hs' => hall s' (hs'.imp id (hnew s'))) h (.leaf new)
    · intro s' hs'
      rw [hdiffer s' hs', hbit]
      rfl
    · intro s' hs'
      rw [hnew s' hs', hbit]
  | false =>
    rw [if_neg Bool.false_ne_true]
    refine .join hcrit.valid ?_ ?_ (fun s' hs' => hall s' (hs'.symm.imp id (hnew s'))) (.leaf new) h
    · intro s' hs'
      rw [hnew s' hs', hbit]
    · intro s' hs'
      rw [hdiffer s' hs', hbit]
      rfl

/-- A position on the path of a key is not the first difference to the leaf of the path. -/
theorem crit_ne_of_best [LinearOrder P] (h : WF b key (.node n p l r))
    (hcrit : b.Crit k (key (best (b.bit k) (.node n p l r))) c) : p ≠ c := by
  rintro rfl
  cases h with
  | node _ hleft hright _ _ _ =>
    apply hcrit.differ
    unfold best
    split
    · rename_i hbit
      rw [hbit, hright _ (best_mem _ r)]
    · rename_i hbit
      rw [hleft _ (best_mem _ l), Bool.eq_false_iff.mpr hbit]

/-- A new key branches off at its first difference to the leaf at the end of its path. -/
theorem WF.graft [LinearOrder P] (h : WF b key t) (hcrit : b.Crit (key new) (key (t.best (b.bit (key new)))) c) :
    WF b key (t.graft (b.bit (key new)) inner new c) := by
  induction h with
  | leaf s => exact (WF.leaf s).branch hcrit fun s' hs' =>
      mem_singleton.mp hs' ▸ ⟨fun _ _ _ => rfl, rfl⟩
  | @node n p l r hvalid hleft hright hagree hl hr ihl ihr =>
    have hnode : WF b key (.node n p l r) := .node hvalid hleft hright hagree hl hr
    have hmem := best_mem (b.bit (key new)) (.node n p l r)
    unfold CritTree.graft
    split
    · rename_i hlt
      -- above the difference the new key agrees with the leaf of its path, and so with all
      have hnew : ∀ s ∈ l.leaves ++ r.leaves, b.Agree (key new) (key s) p :=
        fun s hs => (hcrit.agree.mono (le_of_lt hlt)).trans (hagree _ hmem s hs)
      have hall : ∀ s, (s ∈ l.leaves ++ r.leaves ∨ s = new) → b.Agree (key new) (key s) p := by
        rintro s (hs | rfl)
        · exact hnew s hs
        · exact fun _ _ _ => rfl
      split
      · rename_i hbit
        rw [best, if_pos hbit] at hcrit
        refine .join (k := key new) hvalid hleft ?_ ?_ hl (ihr hcrit)
        · intro s hs
          rcases mem_leaves_graft.mp hs with hs | rfl
          · exact hright s hs
          · exact hbit
        · intro s hs
          rw [mem_leaves_graft, ← or_assoc, ← mem_append] at hs
          exact hall s hs
      · rename_i hbit
        rw [best, if_neg hbit] at hcrit
        refine .join (k := key new) hvalid ?_ hright ?_ (ihl hcrit) hr
        · intro s hs
          rcases mem_leaves_graft.mp hs with hs | rfl
          · exact hleft s hs
          · exact Bool.eq_false_iff.mpr hbit
        · intro s hs
          rw [mem_leaves_graft, or_right_comm, ← mem_append] at hs
          exact hall s hs
    · rename_i hle
      have hlt : c < p := lt_of_le_of_ne (not_lt.mp hle) (crit_ne_of_best hnode hcrit).symm
      refine hnode.branch hcrit ?_
      intro s hs
      exact ⟨(hagree s hs _ hmem).mono (le_of_lt hlt), hagree s hs _ hmem c hcrit.valid hlt⟩

/-- The same for a leaf that has just got its key. -/
theorem WF.graftNew [LinearOrder P] (h : WF b key t) (hold : ∀ s ∈ t.leaves, key' s = key s) (hnew : key' new = k)
    (hcrit : b.Crit k (key (t.best (b.bit k))) c) : WF b key' (t.graft (b.bit k) inner new c) := by
  subst hnew
  apply (h.congr hold).graft
  rw [hold _ (best_mem _ t)]
  exact hcrit

/-- The leaves under a root. -/
def rootLeaves {S P : Type} (root : Option (CritTree S P)) : List S :=
  root.elim [] leaves

/-- A leaf stands on one side of a node only. -/
theorem WF.not_mem_both [LinearOrder P] (h : WF b key (.node n p l r)) {s' : S} (hs : s ∈ l.leaves)
    (hs' : s' ∈ r.leaves) : s ≠ s' := by
  rintro rfl
  cases h with
  | node _ hleft hright _ _ _ =>
    have hbit := hleft s hs
    rw [hright s hs'] at hbit
    cases hbit

theorem mem_of_prune [DecidableEq S] (h : t.prune dir s = some t') : s ∈ t.leaves := by
  induction t generalizing t' with
  | leaf s' =>
    unfold prune at h
    split at h
    · rename_i heq
      exact mem_singleton.mpr heq.symm
    · cases h
  | node n p l r ihl ihr =>
    unfold prune at h
    split at h
    · obtain ⟨r', hr', -⟩ := map_eq_some_iff.mp h
      exact mem_append_right _ (ihr hr')
    · obtain ⟨l', hl', -⟩ := map_eq_some_iff.mp h
      exact mem_append_left _ (ihl hl')

/-- Pruning removes one leaf and keeps the branching. -/
theorem WF.prune [LinearOrder P] [DecidableEq S] (h : WF b key t) (hprune : t.prune dir s = some t') :
    (∀ u, t' = some u → WF b key u) ∧ ∀ s', s' ∈ rootLeaves t' ↔ s' ∈ t.leaves ∧ s' ≠ s := by
  induction t generalizing t' with
  | leaf s' =>
    unfold CritTree.prune at hprune
    split at hprune
    · rename_i heq
      cases hprune
      simp [rootLeaves, leaves, heq]
    · cases hprune
  | node n p l r ihl ihr =>
    unfold CritTree.prune at hprune
    split at hprune
    · obtain ⟨r', hr', rfl⟩ := map_eq_some_iff.mp hprune
      have hs := mem_of_prune hr'
      have hleft : ∀ s' ∈ l.leaves, s' ≠ s := fun s' hs' => h.not_mem_both hs' hs
      obtain ⟨hwf, hleaves⟩ := ihr h.right hr'
      constructor
      · rintro u hu
        cases hu
        cases r' with
        | none => exact h.left
        | some r' =>
          refine h.shrink h.left (hwf r' rfl) (fun _ hs => hs) (fun s' hs' => ?_) n
          exact ((hleaves s').mp hs').1
      · intro s'
        have hside : s' ∈ rootLeaves (some (r'.elim l (CritTree.node n p l))) ↔ s' ∈ l.leaves ∨ s' ∈ rootLeaves r' := by
          cases r' with
          | none => simp [rootLeaves]
          | some r' => exact mem_append
        rw [hside, hleaves, leaves, mem_append, or_and_right]
        exact or_congr_left (iff_self_and.mpr (hleft s'))
    · obtain ⟨l', hl', rfl⟩ := map_eq_some_iff.mp hprune
      have hs := mem_of_prune hl'
      have hright : ∀ s' ∈ r.leaves, s' ≠ s := fun s' hs' => (h.not_mem_both hs hs').symm
      obtain ⟨hwf, hleaves⟩ := ihl h.left hl'
      constructor
      · rintro u hu
        cases hu
        cases l' with
        | none => exact h.right
        | some l' =>
          refine h.shrink (hwf l' rfl) h.right (fun s' hs' => ?_) (fun _ hs => hs) n
          exact ((hleaves s').mp hs').1
      · intro s'
        have hside : s' ∈ rootLeaves (some (l'.elim r (fun l' => CritTree.node n p l' r))) ↔
            s' ∈ rootLeaves l' ∨ s' ∈ r.leaves := by
          cases l' with
          | none => simp [rootLeaves]
          | some l' => exact mem_append
        rw [hside, hleaves, leaves, mem_append, or_and_right]
        exact or_congr_right (iff_self_and.mpr (hright s'))

/-- A leaf is replaced by one with its key. -/
theorem WF.replaceLeaf [LinearOrder P] [DecidableEq S] {t' : CritTree S P} (h : WF b key t)
    (hreplace : t.replaceLeaf dir s new = some t') (hkey : ∀ s' ∈ t.leaves, s' ≠ s → key' s' = key s')
    (hnew : key' new = key s) :
    s ∈ t.leaves ∧ WF b key' t' ∧ ∀ s', s' ∈ t'.leaves ↔ (s' ∈ t.leaves ∧ s' ≠ s) ∨ s' = new := by
  induction t generalizing t' with
  | leaf s' =>
    unfold CritTree.replaceLeaf at hreplace
    split at hreplace
    · rename_i heq
      cases hreplace
      refine ⟨mem_singleton.mpr heq.symm, .leaf new, ?_⟩
      simp [leaves, heq]
    · cases hreplace
  | node n p l r ihl ihr =>
    unfold CritTree.replaceLeaf at hreplace
    have hkl := fun s' hs' => hkey s' (mem_append_left r.leaves hs')
    have hkr := fun s' hs' => hkey s' (mem_append_right l.leaves hs')
    -- the keys of the new leaves are those of the old ones
    have hfrom : ∀ {u : CritTree S P}, s ∈ u.leaves → (∀ s' ∈ u.leaves, s' ≠ s → key' s' = key s') →
        ∀ s', (s' ∈ u.leaves ∧ s' ≠ s) ∨ s' = new → ∃ v ∈ u.leaves, key' s' = key v := by
      rintro u hs hku s' (⟨hs', hne⟩ | rfl)
      · exact ⟨s', hs', hku s' hs' hne⟩
      · exact ⟨s, hs, hnew⟩
    split at hreplace
    · obtain ⟨r', hr', rfl⟩ := map_eq_some_iff.mp hreplace
      obtain ⟨hs, hwf, hleaves⟩ := ihr h.right hr' hkr
      have hold : ∀ s' ∈ l.leaves, s' ≠ s := fun s' hs' => h.not_mem_both hs' hs
      have hsame := fun s' hs' => hkl s' hs' (hold s' hs')
      refine ⟨mem_append_right _ hs, h.rebuild (h.left.congr hsame) hwf (fun s' hs' => ⟨s', hs', hsame s' hs'⟩)
        (fun s' hs' => hfrom hs hkr s' ((hleaves s').mp hs')) n, fun s' => ?_⟩
      rw [leaves, mem_append, hleaves, leaves, mem_append, or_and_right, or_assoc]
      exact or_congr_left (iff_self_and.mpr (hold s'))
    · obtain ⟨l', hl', rfl⟩ := map_eq_some_iff.mp hreplace
      obtain ⟨hs, hwf, hleaves⟩ := ihl h.left hl' hkl
      have hold : ∀ s' ∈ r.leaves, s' ≠ s := fun s' hs' => (h.not_mem_both hs hs').symm
      have hsame := fun s' hs' => hkr s' hs' (hold s' hs')
      refine ⟨mem_append_left _ hs, h.rebuild hwf (h.right.congr hsame)
        (fun s' hs' => hfrom hs hkl s' ((hleaves s').mp hs')) (fun s' hs' => ⟨s', hs', hsame s' hs'⟩) n, fun s' => ?_⟩
      rw [leaves, mem_append, hleaves, leaves, mem_append, or_and_right, or_right_comm]
      exact or_congr_left (or_congr_right (iff_self_and.mpr (hold s')))

/-- An inner node is replaced by one in another slot. -/
theorem WF.replaceNode [LinearOrder P] [DecidableEq S] {t' : CritTree S P} (h : WF b key t) {n' : S}
    (hreplace : t.replaceNode dir n n' = some t') : WF b key t' ∧ t'.leaves = t.leaves := by
  induction t generalizing t' with
  | leaf s => cases hreplace
  | node m p l r ihl ihr =>
    unfold CritTree.replaceNode at hreplace
    split at hreplace
    · cases hreplace
      exact ⟨h.shrink h.left h.right (fun _ hs => hs) (fun _ hs => hs) n', rfl⟩
    · split at hreplace
      · obtain ⟨r', hr', rfl⟩ := map_eq_some_iff.mp hreplace
        obtain ⟨hwf, hleaves⟩ := ihr h.right hr'
        refine ⟨h.shrink h.left hwf (fun _ hs => hs) (fun s' hs' => hleaves ▸ hs') m, ?_⟩
        rw [leaves, hleaves, leaves]
      · obtain ⟨l', hl', rfl⟩ := map_eq_some_iff.mp hreplace
        obtain ⟨hwf, hleaves⟩ := ihl h.left hl'
        refine ⟨h.shrink hwf h.right (fun s' hs' => hleaves ▸ hs') (fun _ hs => hs) m, ?_⟩
        rw [leaves, hleaves, leaves]

theorem deadLeaf?_eq_some {dead : S → Bool} (h : t.deadLeaf? dead = some s) : t.leaves = [s] ∧ dead s = true := by
  cases t with
  | leaf s' =>
    obtain ⟨hdead, heq⟩ := ite_none_right_eq_some.mp h
    cases heq
    exact ⟨rfl, hdead⟩
  | node n p l r => cases h

/-- Collapsing removes dead leaves and keeps the branching. -/
theorem WF.collapse [LinearOrder P] (h : WF b key t) (dead : S → Bool) :
    WF b key (t.collapse dead).1 ∧ (∀ s ∈ (t.collapse dead).2, s ∈ t.leaves ∧ dead s = true) ∧
      ∀ s, s ∈ (t.collapse dead).1.leaves ↔ s ∈ t.leaves ∧ s ∉ (t.collapse dead).2 := by
  induction t with
  | leaf s => exact ⟨.leaf s, nofun, fun s' => by simp [CritTree.collapse]⟩
  | node n p l r ihl ihr =>
    obtain ⟨hwl, hdeadl, hleavesl⟩ := ihl h.left
    obtain ⟨hwr, hdeadr, hleavesr⟩ := ihr h.right
    have hpruned : ∀ s ∈ (r.collapse dead).2 ++ (l.collapse dead).2,
        s ∈ (CritTree.node n p l r).leaves ∧ dead s = true := by
      intro s hs
      rcases mem_append.mp hs with hs | hs
      · exact ⟨mem_append_right _ (hdeadr s hs).1, (hdeadr s hs).2⟩
      · exact ⟨mem_append_left _ (hdeadl s hs).1, (hdeadl s hs).2⟩
    -- a leaf of one side is not removed from the other
    have hleaves : ∀ s, s ∈ (l.collapse dead).1.leaves ∨ s ∈ (r.collapse dead).1.leaves ↔
        s ∈ (CritTree.node n p l r).leaves ∧ s ∉ (r.collapse dead).2 ++ (l.collapse dead).2 := by
      intro s
      rw [hleavesl, hleavesr, leaves, mem_append, mem_append, not_or]
      constructor
      · rintro (⟨hs, hnot⟩ | ⟨hs, hnot⟩)
        · exact ⟨.inl hs, fun hs' => h.not_mem_both hs (hdeadr s hs').1 rfl, hnot⟩
        · exact ⟨.inr hs, hnot, fun hs' => h.not_mem_both (hdeadl s hs').1 hs rfl⟩
      · rintro ⟨hs | hs, hnotr, hnotl⟩
        · exact .inl ⟨hs, hnotl⟩
        · exact .inr ⟨hs, hnotr⟩
    have hone : ∀ (s : S) (t' : CritTree S P), dead s = true → s ∈ (CritTree.node n p l r).leaves →
        (∀ s', s' ∈ t'.leaves ↔ (s' ∈ (l.collapse dead).1.leaves ∨ s' ∈ (r.collapse dead).1.leaves) ∧ s' ≠ s) →
        (∀ s' ∈ (r.collapse dead).2 ++ (l.collapse dead).2 ++ [s],
          s' ∈ (CritTree.node n p l r).leaves ∧ dead s' = true) ∧
          ∀ s', s' ∈ t'.leaves ↔
            s' ∈ (CritTree.node n p l r).leaves ∧ s' ∉ (r.collapse dead).2 ++ (l.collapse dead).2 ++ [s] := by
      intro s t' hdead hs ht'
      constructor
      · intro s' hs'
        rcases mem_append.mp hs' with hs' | hs'
        · exact hpruned s' hs'
        · exact mem_singleton.mp hs' ▸ ⟨hs, hdead⟩
      · intro s'
        rw [ht', hleaves, mem_append (s := (r.collapse dead).2 ++ (l.collapse dead).2), not_or,
          mem_singleton, and_assoc]
    unfold CritTree.collapse
    dsimp only
    cases hdl : (l.collapse dead).1.deadLeaf? dead with
    | some s =>
      obtain ⟨honly, hdead⟩ := deadLeaf?_eq_some hdl
      have hs : s ∈ l.leaves := ((hleavesl s).mp (honly ▸ mem_singleton_self s)).1
      refine ⟨hwr, hone s _ hdead (mem_append_left _ hs) fun s' => ?_⟩
      rw [honly, mem_singleton, or_and_right]
      constructor
      · exact fun hs' => .inr ⟨hs', (h.not_mem_both hs ((hleavesr s').mp hs').1).symm⟩
      · exact fun hs' => hs'.elim (fun heq => absurd heq.1 heq.2) And.left
    | none =>
      cases hdr : (r.collapse dead).1.deadLeaf? dead with
      | some s =>
        obtain ⟨honly, hdead⟩ := deadLeaf?_eq_some hdr
        have hs : s ∈ r.leaves := ((hleavesr s).mp (honly ▸ mem_singleton_self s)).1
        refine ⟨hwl, hone s _ hdead (mem_append_right _ hs) fun s' => ?_⟩
        rw [honly, mem_singleton, or_and_right]
        constructor
        · exact fun hs' => .inl ⟨hs', h.not_mem_both ((hleavesl s').mp hs').1 hs⟩
        · exact fun hs' => hs'.elim And.left (fun heq => absurd heq.1 heq.2)
      | none =>
        refine ⟨?_, hpruned, ?_⟩
        · exact h.shrink hwl hwr (fun s hs => ((hleavesl s).mp hs).1) (fun s hs => ((hleavesr s).mp hs).1) n
        · intro s
          rw [← hleaves]
          exact mem_append

end CritTree

end swytch.lib
