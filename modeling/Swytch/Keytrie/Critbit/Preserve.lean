import Swytch.Keytrie.Critbit.Refine
import Mathlib.Logic.Relation

open swytch.lib swytch.proto Function Option

namespace swytch.keytrie.Critbit

open Leaf

open CritTree

open Critbit

/-- One slot is written; counters and queues may change. -/
structure Writes {D : Type} (c : Critbit D) (s : Nat) (leaf : Leaf D) (c' : Critbit D) : Prop where
  root : c'.root = c.root
  leaf : c'.leaf = update c.leaf s leaf
  nextLeaf : c'.nextLeaf = c.nextLeaf

/-- A new leaf is linked for a key that has none. -/
structure Links {D : Type} (c : Critbit D) (new : Leaf D) (c' : Critbit D) : Prop where
  leaf : c'.leaf = update c.leaf c.nextLeaf new
  nextLeaf : c'.nextLeaf = c.nextLeaf + 1
  wf : ∀ t, c'.root = some t → t.WF keyBits (fun s => (c'.leaf s).key)
  slots : ∀ s, s ∈ c'.slots ↔ s ∈ c.slots ∨ s = c.nextLeaf
  absent : ∀ s ∈ c.slots, (c.leaf s).key ≠ new.key
  short : new.key.length ≤ 2 ^ 32
  live : new.deleted = false
  pins : new.pins = 0

/-- The same leaves with one of them in a fresh slot. -/
structure Moves {D : Type} (c : Critbit D) (s : Nat) (c' : Critbit D) : Prop where
  linked : s ∈ c.slots
  nextLeaf : c'.nextLeaf = c.nextLeaf + 1
  wf : ∀ t, c'.root = some t → t.WF keyBits (fun s => (c'.leaf s).key)
  slots : ∀ s', s' ∈ c'.slots ↔ (s' ∈ c.slots ∧ s' ≠ s) ∨ s' = c.nextLeaf
  new : c'.leaf c.nextLeaf = c.leaf s
  old : (c'.leaf s).deleted = true
  other : ∀ s', s' ≠ c.nextLeaf → s' ≠ s → c'.leaf s' = c.leaf s'

/-- The steps that the calls on a trie are made of, with the map that it stands for. A live
leaf dies only if `P` holds of it. -/
inductive Step {D : Type} (P : Leaf D → Prop) : Critbit D × OrderedMap D → Critbit D × OrderedMap D → Prop where
  | frame {c c' m} (hroot : c'.root = c.root) (hleaf : c'.leaf = c.leaf) (hnext : c'.nextLeaf = c.nextLeaf) :
    Step P (c, m) (c', m)
  | touch {c c' m s leaf} (hwrites : c.Writes s leaf c') (hkey : leaf.key = (c.leaf s).key)
    (htips : leaf.tips = (c.leaf s).tips) (hdata : leaf.data = (c.leaf s).data)
    (hdeleted : leaf.deleted = (c.leaf s).deleted) (hpins : leaf.pins = (c.leaf s).pins) : Step P (c, m) (c', m)
  | store {c c' m s} (leaf : Leaf D) (hwrites : c.Writes s leaf c') (hs : s ∈ c.slots)
    (hkey : leaf.key = (c.leaf s).key) (hlive : leaf.deleted = false) (hpins : leaf.pins = (c.leaf s).pins) :
    Step P (c, m) (c', m.insert leaf.key ⟨leaf.tips, leaf.data⟩)
  | clear {c c' m s} (hwrites : c.Writes s { c.leaf s with tips := none, data := none, deleted := true } c')
    (hs : s ∈ c.slots) (hlive : (c.leaf s).deleted = false) (hP : P (c.leaf s)) :
    Step P (c, m) (c', m.erase (c.leaf s).key)
  | shrink {c m root} (hwf : ∀ t, root = some t → t.WF keyBits (fun s => (c.leaf s).key))
    (hsub : ∀ s ∈ rootLeaves root, s ∈ c.slots)
    (hdeleted : ∀ s ∈ c.slots, s ∉ rootLeaves root → (c.leaf s).deleted = true) :
    Step P (c, m) ({ c with root := root }, m)
  | retire {c c' m s leaf} (hwrites : c.Writes s leaf c') (hs : s ∉ c.slots) (hdeleted : leaf.deleted = true) :
    Step P (c, m) (c', m)
  | link {c c' m leaf} (hlinks : c.Links leaf c') : Step P (c, m) (c', m.insert leaf.key ⟨leaf.tips, leaf.data⟩)
  | move {c c' m s} (hmoves : c.Moves s c') : Step P (c, m) (c', m)

variable {D : Type} {P : Leaf D → Prop} {x y : Critbit D × OrderedMap D} {c c' : Critbit D} {m m' : OrderedMap D}
  {s : Nat} {leaf : Leaf D} {key : Bytes}

theorem setLeaf_setLeaf (c : Critbit D) (s : Nat) (leaf leaf' : Leaf D) :
    (c.setLeaf s leaf).setLeaf s leaf' = c.setLeaf s leaf' := by
  simp [setLeaf]

theorem setLeaf_leaf (c : Critbit D) (s : Nat) (leaf : Leaf D) : (c.setLeaf s leaf).leaf s = leaf :=
  update_self _ _ _

theorem setLeaf_leaf_of_ne (c : Critbit D) {s' : Nat} (hne : s' ≠ s) (leaf : Leaf D) :
    (c.setLeaf s leaf).leaf s' = c.leaf s' :=
  update_of_ne hne _ _

/-- The contents of a live leaf are replaced. -/
theorem Models.setLive (h : Models c m) (hs : s ∈ c.slots) (hkey : leaf.key = (c.leaf s).key)
    (hlive : leaf.deleted = false) : Models (c.setLeaf s leaf) (m.insert leaf.key ⟨leaf.tips, leaf.data⟩) := by
  refine h.setLeaf hs hkey ?_ ?_ ?_
  · intro hdeleted
    rw [hlive] at hdeleted
    cases hdeleted
  · rw [Finmap.lookup_insert, entry, hlive, if_neg Bool.false_ne_true]
  · exact fun key hne => Finmap.lookup_insert_of_ne m hne

theorem Models.link (h : Models c m) (hlinks : c.Links leaf c') :
    Models c' (m.insert leaf.key ⟨leaf.tips, leaf.data⟩) := by
  obtain ⟨hleaf, hnext, hwf, hslots, hkey, hshort, hlive, -⟩ := hlinks
  have hne : ∀ s, s ≠ c.nextLeaf → c'.leaf s = c.leaf s := by
    intro s hs
    rw [hleaf, update_of_ne hs]
  have hnew : c'.leaf c.nextLeaf = leaf := by
    rw [hleaf, update_self]
  have hold : ∀ s ∈ c.slots, s ≠ c.nextLeaf := fun s hs => Nat.ne_of_lt (h.fresh s hs)
  refine ⟨hwf, ?_, ?_, ?_, ?_, ?_, ?_⟩
  · intro s hs
    rw [hnext]
    rcases (hslots s).mp hs with hs | rfl
    · exact Nat.lt_succ_of_lt (h.fresh s hs)
    · exact Nat.lt_succ_self _
  · intro s hs
    rcases (hslots s).mp hs with hs | rfl
    · rw [hne s (hold s hs)]
      exact h.short s hs
    · rw [hnew]
      exact hshort
  · intro s hs
    rcases (hslots s).mp hs with hs | rfl
    · rw [hne s (hold s hs)]
      exact h.empty s hs
    · rw [hnew, hlive]
      exact fun hdeleted => nomatch hdeleted
  · intro s hs
    rw [hslots, not_or] at hs
    rw [hne s hs.2]
    exact h.unlinked s hs.1
  · intro s hs
    rcases (hslots s).mp hs with hs | rfl
    · rw [hne s (hold s hs), Finmap.lookup_insert_of_ne _ (hkey s hs)]
      exact h.present s hs
    · rw [hnew, Finmap.lookup_insert, entry, hlive, if_neg Bool.false_ne_true]
  · intro key habsent
    have hfirst : key ≠ leaf.key := by
      intro heq
      exact habsent c.nextLeaf ((hslots _).mpr (.inr rfl)) (by rw [hnew, heq])
    rw [Finmap.lookup_insert_of_ne _ hfirst]
    apply h.absent
    intro s hs
    have hkey' := habsent s ((hslots s).mpr (.inl hs))
    rwa [hne s (hold s hs)] at hkey'

theorem isDead_iff : c.isDead s = true ↔ (c.leaf s).deleted = true ∧ 0 ≤ (c.leaf s).freq := by
  simp [isDead]

variable {t : Trie}

theorem mem_slots_iff (ht : c.root = some t) : s ∈ c.slots ↔ s ∈ t.leaves := by
  rw [slots, ht]
  rfl

theorem Models.linked (h : Models c m) (hlive : (c.leaf s).deleted = false) : s ∈ c.slots := by
  by_contra hnot
  rw [h.unlinked s hnot] at hlive
  cases hlive

theorem Models.move (h : Models c m) (hmoves : c.Moves s c') : Models c' m := by
  obtain ⟨hs, hnext, hwf, hslots, hnew, hold, hother⟩ := hmoves
  have hfresh : ∀ s' ∈ c.slots, s' ≠ c.nextLeaf := fun s' hs' => Nat.ne_of_lt (h.fresh s' hs')
  have hback : ∀ s' ∈ c'.slots, ∃ u ∈ c.slots, c'.leaf s' = c.leaf u := by
    intro s' hs'
    obtain ⟨hs', hne⟩ | rfl := (hslots s').mp hs'
    · exact ⟨s', hs', hother s' (hfresh s' hs') hne⟩
    · exact ⟨s, hs, hnew⟩
  refine ⟨hwf, ?_, ?_, ?_, ?_, ?_, ?_⟩
  · intro s' hs'
    rw [hnext]
    obtain ⟨hs', -⟩ | rfl := (hslots s').mp hs'
    · exact Nat.lt_succ_of_lt (h.fresh s' hs')
    · exact Nat.lt_succ_self _
  · intro s' hs'
    obtain ⟨u, hu, heq⟩ := hback s' hs'
    rw [heq]
    exact h.short u hu
  · intro s' hs'
    obtain ⟨u, hu, heq⟩ := hback s' hs'
    rw [heq]
    exact h.empty u hu
  · intro s' hs'
    rw [hslots, not_or, not_and_not_right] at hs'
    by_cases heq : s' = s
    · rw [heq]
      exact hold
    · rw [hother s' hs'.2 heq]
      exact h.unlinked s' fun hlinked => heq (hs'.1 hlinked)
  · intro s' hs'
    obtain ⟨u, hu, heq⟩ := hback s' hs'
    rw [heq]
    exact h.present u hu
  · intro key habsent
    apply h.absent
    intro u hu
    by_cases heq : u = s
    · rw [heq, ← hnew]
      exact habsent _ ((hslots _).mpr (.inr rfl))
    · rw [← hother u (hfresh u hu) heq]
      exact habsent u ((hslots u).mpr (.inl ⟨hu, heq⟩))

theorem Step.models (hstep : Step P x y) (h : Models x.1 x.2) : Models y.1 y.2 := by
  cases hstep with
  | frame hroot hleaf hnext => exact h.frame hroot hleaf hnext
  | touch hwrites hkey htips hdata hdeleted hpins =>
    exact (h.setSame hkey htips hdata hdeleted).frame hwrites.root hwrites.leaf hwrites.nextLeaf
  | store leaf hwrites hs hkey hlive hpins =>
    exact (h.setLive hs hkey hlive).frame hwrites.root hwrites.leaf hwrites.nextLeaf
  | @clear c c' m s hwrites hs hlive hP =>
    have hset : Models (c.setLeaf s { c.leaf s with tips := none, data := none, deleted := true })
        (m.erase (c.leaf s).key) :=
      h.setLeaf hs rfl (fun _ => ⟨rfl, rfl⟩) (Finmap.lookup_erase _ _) fun key hne => Finmap.lookup_erase_ne hne
    exact hset.frame hwrites.root hwrites.leaf hwrites.nextLeaf
  | shrink hwf hsub hdeleted => exact h.shrink hwf hsub hdeleted
  | retire hwrites hs hdeleted => exact (h.setUnlinked hs hdeleted).frame hwrites.root hwrites.leaf hwrites.nextLeaf
  | link hlinks => exact h.link hlinks
  | move hmoves => exact h.move hmoves

/-- A state reached by steps that stands for a map. -/
structure Reached {D : Type} (P : Leaf D → Prop) (x : Critbit D × OrderedMap D) (c : Critbit D) (m : OrderedMap D) :
    Prop where
  steps : Relation.ReflTransGen (Step P) x (c, m)
  models : Models c m

theorem Models.reached (h : Models c m) (P : Leaf D → Prop) : Reached P (c, m) c m := ⟨.refl, h⟩

namespace Reached

theorem next (h : Reached P x c m) (hstep : Step P (c, m) (c', m')) : Reached P x c' m' :=
  ⟨h.steps.tail hstep, hstep.models h.models⟩

theorem frame (h : Reached P x c m) (hroot : c'.root = c.root) (hleaf : c'.leaf = c.leaf)
    (hnext : c'.nextLeaf = c.nextLeaf) : Reached P x c' m :=
  h.next (.frame hroot hleaf hnext)

theorem foldl {f : Critbit D → Nat → Critbit D} (hf : ∀ {c}, Reached P x c m → ∀ s, Reached P x (f c s) m)
    (h : Reached P x c m) (batch : List Nat) : Reached P x (batch.foldl f c) m := by
  induction batch generalizing c with
  | nil => exact h
  | cons s batch ih => exact ih (hf h s)

section

variable (h : Reached P x c m)
include h

theorem bumpAccess (s now : Nat) : Reached P x (c.bumpAccess s now) m := by
  unfold Critbit.bumpAccess
  split
  · exact h.next (.touch ⟨rfl, rfl, rfl⟩ rfl rfl rfl rfl rfl)
  · exact h

theorem loadData (key : Bytes) (now : Nat) : Reached P x (c.loadData key now).1 m := by
  unfold Critbit.loadData
  split
  · exact h
  · exact h.bumpAccess _ now

theorem loadOrStoreData (key : Bytes) (value : D) (now : Nat) : Reached P x (c.loadOrStoreData key value now).1
      ((m.lookup key).elim m fun e => m.insert key { e with data := some (e.data.getD value) }) := by
  unfold Critbit.loadOrStoreData
  obtain ⟨s, hs, rfl, hlive, hleaf, hlookup⟩ | ⟨hleaf, hlookup⟩ := h.models.liveLeaf_cases key
  · rw [hleaf, hlookup]
    have hbumped := h.bumpAccess s now
    dsimp only [elim_some]
    cases hdata : (c.leaf s).data with
    | some data =>
      have hsame : m.insert (c.leaf s).key ⟨(c.leaf s).tips, some data⟩ = m := by
        rw [insert_eq_self_iff, hlookup, hdata]
      rw [getD_some, hsame]
      exact hbumped
    | none =>
      have hmem : s ∈ (c.bumpAccess s now).slots := by
        unfold Critbit.bumpAccess
        split <;> exact hs
      have hsame : ((c.bumpAccess s now).leaf s).key = (c.leaf s).key ∧
          ((c.bumpAccess s now).leaf s).tips = (c.leaf s).tips ∧
          ((c.bumpAccess s now).leaf s).deleted = (c.leaf s).deleted := by
        unfold Critbit.bumpAccess
        split
        · rw [setLeaf_leaf]
          exact ⟨rfl, rfl, rfl⟩
        · exact ⟨rfl, rfl, rfl⟩
      rw [getD_none, ← hsame.1, ← hsame.2.1]
      exact hbumped.next (.store { (c.bumpAccess s now).leaf s with data := some value }
        ⟨rfl, rfl, rfl⟩ hmem rfl (hsame.2.2.trans hlive) rfl)
  · rw [hleaf, hlookup]
    exact h

theorem removeTips (key : Bytes) (refs : List EffectRef) (addr : Nat) : Reached P x (c.removeTips key refs addr)
      ((m.lookup key).elim m fun e => e.tips.elim m fun current =>
        if (current.set.removeTips refs).tips.length = current.set.tips.length then m
        else m.insert key { e with tips := some ⟨addr, current.set.removeTips refs⟩ }) := by
  unfold Critbit.removeTips
  obtain ⟨s, hs, rfl, hlive, hleaf, hlookup⟩ | ⟨hleaf, hlookup⟩ := h.models.liveLeaf_cases key
  · rw [hleaf, hlookup]
    dsimp only [elim_some]
    cases htips : (c.leaf s).tips with
    | none => exact h
    | some current =>
      dsimp only [elim_some]
      split
      · exact h
      · exact h.next (.store { c.leaf s with tips := some ⟨addr, current.set.removeTips refs⟩ }
          ⟨rfl, rfl, rfl⟩ hs rfl hlive rfl)
  · rw [hleaf, hlookup]
    exact h

/-- A live leaf is emptied. -/
theorem clearLeaf (hlive : (c.leaf s).deleted = false) (hP : P (c.leaf s)) :
    Reached P x (c.clearLeaf s) (m.erase (c.leaf s).key) :=
  h.next (.clear ⟨rfl, rfl, rfl⟩ (h.models.linked hlive) hlive hP)

theorem enqueueReap (s : Nat) : Reached P x (c.enqueueReap s) m := by
  unfold Critbit.enqueueReap
  split <;> exact h.frame rfl rfl rfl

/-- A live leaf dies and is to be reaped. -/
theorem dropLeaf (hlive : (c.leaf s).deleted = false) (hP : P (c.leaf s)) :
    Reached P x ({ c.clearLeaf s with deletedCount := c.deletedCount + 1 }.enqueueReap s) (m.erase (c.leaf s).key) := by
  apply enqueueReap
  exact (h.clearLeaf hlive hP).frame rfl rfl rfl

theorem deleteAndSnapshot (hP : ∀ leaf : Leaf D, leaf.key = key → P leaf) (old : Option TipSetPtr) :
    Reached P x (c.deleteAndSnapshot key old).1
      ((m.lookup key).elim m fun e => if e.tips = old then m.erase key else m) := by
  unfold Critbit.deleteAndSnapshot
  obtain ⟨s, hs, rfl, hlive, hleaf, hlookup⟩ | ⟨hleaf, hlookup⟩ := h.models.liveLeaf_cases key
  · rw [hleaf, hlookup]
    dsimp only [elim_some]
    split
    · exact h.dropLeaf hlive (hP _ rfl)
    · exact h
  · rw [hleaf, hlookup]
    exact h

/-- A slot that has been unlinked is retired. -/
theorem pruned (hs : s ∉ c.slots) : Reached P x (c.pruned s) m :=
  h.next (.retire ⟨rfl, rfl, rfl⟩ hs rfl)

theorem unlinkLeaf (s : Nat) : Reached P x (c.unlinkLeaf s).1 m := by
  unfold Critbit.unlinkLeaf
  split
  · rename_i hdead
    split
    · exact h
    · rename_i root hroot
      obtain ⟨t, ht, hprune⟩ := bind_eq_some_iff.mp hroot
      obtain ⟨hwf, hleaves⟩ := (h.models.wf t ht).prune hprune
      have hshrunk : Reached P x { c with root := root } m := by
        refine h.next (.shrink hwf ?_ ?_)
        · intro s' hs'
          exact (mem_slots_iff ht).mpr ((hleaves s').mp hs').1
        · intro s' hs' hnot
          have heq : s' = s := by
            by_contra hne
            exact hnot ((hleaves s').mpr ⟨(mem_slots_iff ht).mp hs', hne⟩)
          rw [heq]
          exact (isDead_iff.mp hdead).1
      apply hshrunk.pruned
      intro hs
      exact ((hleaves s).mp hs).2 rfl
  · exact h

theorem drainReap : Reached P x c.drainReap m := by
  unfold Critbit.drainReap
  apply foldl (fun h s => h.unlinkLeaf s)
  exact h.frame rfl rfl rfl

theorem foldl_pruned {gone : List Nat} (hgone : ∀ s ∈ gone, s ∉ c.slots) :
    Reached P x (gone.foldl Critbit.pruned c) m := by
  induction gone generalizing c with
  | nil => exact h
  | cons s gone ih =>
    apply ih (h.pruned (hgone s List.mem_cons_self))
    exact fun s' hs' => hgone s' (List.mem_cons_of_mem _ hs')

/-- The pass over the whole tree, without its last step at the root. -/
theorem collapsed (ht : c.root = some t) :
    Reached P x ((t.collapse c.isDead).2.foldl Critbit.pruned { c with root := some (t.collapse c.isDead).1 }) m := by
  obtain ⟨hwf, hdead, hleaves⟩ := (h.models.wf t ht).collapse c.isDead
  have hshrunk : Reached P x { c with root := some (t.collapse c.isDead).1 } m := by
    refine h.next (.shrink ?_ ?_ ?_)
    · intro t' ht'
      exact some.inj ht' ▸ hwf
    · intro s hs
      exact (mem_slots_iff ht).mpr ((hleaves s).mp hs).1
    · intro s hs hnot
      have hpruned : s ∈ (t.collapse c.isDead).2 := by
        by_contra hkept
        exact hnot ((hleaves s).mpr ⟨(mem_slots_iff ht).mp hs, hkept⟩)
      exact (isDead_iff.mp (hdead s hpruned).2).1
  exact hshrunk.foldl_pruned fun s hs hlinked => ((hleaves s).mp hlinked).2 hs

theorem reap : Reached P x c.reap m := by
  unfold Critbit.reap
  split
  · exact h
  · rename_i t ht
    dsimp only
    split
    · exact (h.collapsed ht).unlinkLeaf _
    · exact h.collapsed ht

end

/-- A linked leaf takes new tips, and is live afterwards. -/
theorem store (h : Reached P x c m) (hs : s ∈ c.slots) (new : Option TipSetPtr) :
    Reached P x (if (c.leaf s).deleted then (c.setLeaf s { c.leaf s with tips := new }).revive s
        else c.setLeaf s { c.leaf s with tips := new })
      (m.insert (c.leaf s).key ⟨new, (m.lookup (c.leaf s).key).bind Entry.data⟩) := by
  rw [h.models.present s hs, entry]
  cases hdeleted : (c.leaf s).deleted with
  | false =>
    rw [if_neg Bool.false_ne_true, if_neg Bool.false_ne_true]
    exact h.next (.store { c.leaf s with tips := new } ⟨rfl, rfl, rfl⟩ hs rfl hdeleted rfl)
  | true =>
    rw [if_pos rfl, if_pos rfl, bind_none, ← (h.models.empty s hs hdeleted).2]
    unfold revive
    dsimp only
    rw [setLeaf_leaf, setLeaf_setLeaf]
    have hwrites : c.Writes s { c.leaf s with tips := new, deleted := false }
        (c.setLeaf s { c.leaf s with tips := new, deleted := false }) := ⟨rfl, rfl, rfl⟩
    have hset := h.next (.store _ hwrites hs rfl rfl rfl)
    split
    · unfold promoteIfGhost
      dsimp only
      split
      · exact (hset.frame rfl rfl rfl).next (.touch ⟨rfl, rfl, rfl⟩ rfl rfl rfl rfl rfl)
      · exact hset.frame rfl rfl rfl
    · exact hset.frame rfl rfl rfl

end Reached

/-- Where a key is not in the tree, the place of its leaf is found at once. -/
theorem insertAt_eq_graft {crit : CritPos} (hwf : t.WF keyBits (fun s => (c.leaf s).key))
    (hkey : key.length ≤ 2 ^ 32) (hshort : ∀ s ∈ t.leaves, (c.leaf s).key.length ≤ 2 ^ 32)
    (hcrit : keyBits.Crit key (c.leaf (t.best (goesRight key))).key crit) :
    c.insertAt key crit t = some (t.graft (goesRight key) c.nextInternal c.nextLeaf crit) := by
  induction t with
  | leaf s =>
    have hne : key ≠ (c.leaf s).key := by
      rintro rfl
      exact hcrit.differ rfl
    have hfound := crit_unique (crit_findCritBit hne hkey (hshort s (List.mem_singleton_self s))) hcrit
    rw [insertAt, if_pos hfound]
    rfl
  | node n p l r ihl ihr =>
    have hl : ∀ s ∈ l.leaves, (c.leaf s).key.length ≤ 2 ^ 32 := fun s hs => hshort s (List.mem_append_left _ hs)
    have hr : ∀ s ∈ r.leaves, (c.leaf s).key.length ≤ 2 ^ 32 := fun s hs => hshort s (List.mem_append_right _ hs)
    unfold insertAt graft
    by_cases hlt : p < crit
    · rw [if_pos (shouldInsertBefore_iff.mpr hlt), if_pos hlt]
      unfold best at hcrit
      split
      · rename_i hright
        rw [if_pos hright] at hcrit
        rw [ihr hwf.right hr hcrit]
        rfl
      · rename_i hright
        rw [if_neg hright] at hcrit
        rw [ihl hwf.left hl hcrit]
        rfl
    · have hgt : crit < p := lt_of_le_of_ne (not_lt.mp hlt) (crit_ne_of_best hwf hcrit).symm
      rw [if_neg (fun h => hlt (shouldInsertBefore_iff.mp h)), if_neg hlt,
        if_pos (shouldInsertBefore_iff.mpr hgt)]

theorem leaf_linkLeaf (c : Critbit D) (key : Bytes) (tips : Option TipSetPtr) (now : Nat) (root : Trie)
    (nextInternal : Nat) : (c.linkLeaf key tips now root nextInternal).leaf =
      update c.leaf c.nextLeaf { c.newLeaf key tips now with deleted := false } := by
  simp [linkLeaf, allocLeafNode, setLeaf]

namespace Reached

/-- A new key always finds its place. -/
theorem insertNew (h : Reached P x c m) (hkey : key.length ≤ 2 ^ 32)
    (habsent : ∀ s ∈ c.slots, (c.leaf s).key ≠ key) (tips : Option TipSetPtr) (now : Nat) :
    ∃ c', c.insertNew key tips now = some c' ∧ Reached P x c' (m.insert key ⟨tips, none⟩) := by
  unfold Critbit.insertNew
  cases hroot : c.root with
  | none =>
    refine ⟨_, rfl, h.next (.link ⟨leaf_linkLeaf .., rfl, ?_, ?_, habsent, hkey, rfl, rfl⟩)⟩
    · intro t ht
      exact some.inj ht ▸ .leaf _
    · intro s
      simp [slots, linkLeaf, hroot, rootLeaves, leaves]
  | some t =>
    have hbest := (mem_slots_iff hroot).mpr (best_mem (goesRight key) t)
    have hcrit := crit_findCritBit (habsent _ hbest).symm hkey (h.models.short _ hbest)
    have hplace := insertAt_eq_graft (h.models.wf t hroot) hkey
      (fun s hs => h.models.short s ((mem_slots_iff hroot).mpr hs)) hcrit
    dsimp only
    rw [hplace]
    refine ⟨_, rfl, h.next (.link ⟨leaf_linkLeaf .., rfl, ?_, ?_, habsent, hkey, rfl, rfl⟩)⟩
    · intro t' ht'
      cases ht'
      rw [leaf_linkLeaf]
      refine (h.models.wf t hroot).graftNew ?_ ?_ hcrit
      · intro s hs
        rw [update_of_ne (Nat.ne_of_lt (h.models.fresh s ((mem_slots_iff hroot).mpr hs)))]
      · rw [update_self]
        rfl
    · intro s
      rw [mem_slots_iff hroot]
      exact mem_leaves_graft

/-- `Insert` returns, and what it stores is what it says. -/
theorem insert (h : Reached P x c m) (hkey : key.length ≤ 2 ^ 32) (old new : Option TipSetPtr) (now : Nat) :
    ∃ c' conflict accepted, c.insert key old new now = some (c', conflict, accepted) ∧
      Reached P x c' (if accepted then m.insert key ⟨new, (m.lookup key).bind Entry.data⟩ else m) := by
  unfold Critbit.insert
  obtain ⟨s, hs, rfl, hfound⟩ | ⟨habsent, hfound⟩ := h.models.findBestMatch_cases key
  · rw [hfound]
    dsimp only
    by_cases hcas : (c.leaf s).tips = if old.isNone ∧ (c.leaf s).deleted then (c.leaf s).tips else old
    · rw [if_pos hcas]
      exact ⟨_, none, true, rfl, h.store hs new⟩
    · rw [if_neg hcas]
      exact ⟨c, _, false, rfl, h⟩
  · rw [hfound]
    obtain ⟨c', hnew, hreached⟩ := h.insertNew hkey habsent new now
    refine ⟨c', none, true, by rw [hnew]; rfl, ?_⟩
    rw [if_pos rfl, h.models.absent key habsent]
    exact hreached

/-- A live leaf moves to a fresh slot. -/
theorem relocateLeaf (h : Reached P x c m) (hlive : (c.leaf s).deleted = false) :
    Reached P x (c.relocateLeaf s) m := by
  have hcopy : { c.leaf s with deleted := false } = c.leaf s := by
    rw [← hlive]
  unfold Critbit.relocateLeaf
  rw [hcopy]
  split
  · exact h
  · rename_i root hroot
    obtain ⟨t, ht, hreplace⟩ := bind_eq_some_iff.mp hroot
    have hs := h.models.linked hlive
    have hfresh : ∀ s' ∈ c.slots, s' ≠ c.nextLeaf := fun s' hs' => Nat.ne_of_lt (h.models.fresh s' hs')
    let c' : Critbit D := { c.setLeaf c.nextLeaf (c.leaf s) with
      root := some root, nextLeaf := c.nextLeaf + 1, readRevision := c.readRevision + 1 }.retireLeaf s
    have hnew : c'.leaf c.nextLeaf = c.leaf s := by
      refine (update_of_ne (hfresh s hs).symm _ _).trans ?_
      exact update_self _ _ _
    have hother : ∀ s', s' ≠ c.nextLeaf → s' ≠ s → c'.leaf s' = c.leaf s' := by
      intro s' hnext hne
      refine (update_of_ne hne _ _).trans ?_
      exact update_of_ne hnext _ _
    have hkey : ∀ s' ∈ t.leaves, s' ≠ s → (fun s' => (c'.leaf s').key) s' = (c.leaf s').key :=
      fun s' hs' hne => congrArg key (hother s' (hfresh s' ((mem_slots_iff ht).mpr hs')) hne)
    obtain ⟨-, hwf, hleaves⟩ := (h.models.wf t ht).replaceLeaf hreplace hkey (congrArg key hnew)
    refine h.next (.move ⟨hs, rfl, ?_, ?_, hnew, ?_, hother⟩)
    · intro t' ht'
      exact some.inj ht' ▸ hwf
    · intro s'
      rw [mem_slots_iff ht]
      exact hleaves s'
    · exact congrArg deleted (setLeaf_leaf _ s _)

theorem evacuateLeaf (h : Reached P x c m) (s : Nat) : Reached P x (c.evacuateLeaf s) m := by
  unfold Critbit.evacuateLeaf
  cases hdeleted : (c.leaf s).deleted with
  | false =>
    rw [if_neg Bool.false_ne_true]
    exact h.relocateLeaf hdeleted
  | true =>
    rw [if_pos rfl]
    split
    · have hshed : Reached P x { c.setLeaf s { c.leaf s with freq := 0 } with
          deletedCount := c.deletedCount + 1 } m := h.next (.touch ⟨rfl, rfl, rfl⟩ rfl rfl rfl rfl rfl)
      have hunlinked := hshed.unlinkLeaf s
      dsimp only
      split
      · rename_i unlinked heq
        rw [heq] at hunlinked
        exact hunlinked.frame rfl rfl rfl
      · rename_i kept heq
        rw [heq] at hunlinked
        exact hunlinked.frame rfl rfl rfl
    · exact h.unlinkLeaf s

theorem relocateInternal (h : Reached P x c m) (n : Nat) : Reached P x (c.relocateInternal n) m := by
  unfold Critbit.relocateInternal
  split
  · exact h
  · dsimp only
    split
    · exact h
    · rename_i root hroot
      obtain ⟨t, ht, hreplace⟩ := bind_eq_some_iff.mp hroot
      obtain ⟨hwf, hleaves⟩ := (h.models.wf t ht).replaceNode hreplace
      have hslots : rootLeaves (some root) = c.slots := by
        rw [slots, ht]
        exact hleaves
      have hmoved : Reached P x { c with root := some root } m := by
        refine h.next (.shrink ?_ ?_ ?_)
        · intro t' ht'
          exact some.inj ht' ▸ hwf
        · rw [hslots]
          exact fun s hs => hs
        · rw [hslots]
          exact fun s hs hnot => absurd hs hnot
      exact hmoved.frame rfl rfl rfl

theorem consider {acc : Critbit D × EvictionSample} (h : Reached P x acc.1 m) (threshold : Int)
    (epoch s : Nat) : Reached P x (consider threshold epoch acc s).1 m := by
  unfold Critbit.consider
  dsimp only
  split
  · exact h
  · have hdecayed : Reached P x (acc.1.setLeaf s
        (if 0 < epoch then decayLeaf (acc.1.leaf s) epoch else acc.1.leaf s)) m := by
      unfold decayLeaf
      split
      · split <;> exact h.next (.touch ⟨rfl, rfl, rfl⟩ rfl rfl rfl rfl rfl)
      · exact h.next (.touch ⟨rfl, rfl, rfl⟩ rfl rfl rfl rfl rfl)
    split <;> exact hdecayed

theorem advanceDecay (h : Reached P x c m) : Reached P x c.advanceDecay m := by
  unfold Critbit.advanceDecay
  dsimp only
  split
  · exact h.frame rfl rfl rfl
  · split
    · split <;> exact h.frame rfl rfl rfl
    · split <;> exact h.frame rfl rfl rfl

theorem reclaimOldestGhost (h : Reached P x c m) (ghosts : List Nat) :
    Reached P x (c.reclaimOldestGhost ghosts).1 m := by
  induction ghosts with
  | nil => exact h
  | cons g ghosts ih =>
    unfold Critbit.reclaimOldestGhost
    split
    · apply enqueueReap
      exact h.next (.touch ⟨rfl, rfl, rfl⟩ rfl rfl rfl rfl rfl)
    · exact ih

theorem buryLeaf (h : Reached P x c m) (s : Nat) : Reached P x (c.buryLeaf s) m := by
  unfold Critbit.buryLeaf
  split
  · exact h.next (.touch ⟨rfl, rfl, rfl⟩ rfl rfl rfl rfl rfl)
  · apply enqueueReap
    exact h.frame rfl rfl rfl

end Reached

theorem of_claimable (hclaim : c.claimable s = true) : (c.leaf s).deleted = false ∧ (c.leaf s).pins = 0 := by
  simpa [claimable] using hclaim

/-- The keys of the victims are taken out of a map. -/
def withoutVictims {D : Type} (m : OrderedMap D) (victims : List (EvictedLeaf D)) : OrderedMap D :=
  (victims.map EvictedLeaf.key).foldl (fun m key => m.erase key) m

theorem withoutVictims_concat (m : OrderedMap D) (victims : List (EvictedLeaf D)) (victim : EvictedLeaf D) :
    withoutVictims m (victims ++ [victim]) = (withoutVictims m victims).erase victim.key := by
  simp [withoutVictims, List.foldl_append]

theorem lookup_of_withoutVictims {victims : List (EvictedLeaf D)} {key : Bytes} {e : Entry D}
    (hentry : (withoutVictims m victims).lookup key = some e) :
    key ∉ victims.map EvictedLeaf.key ∧ m.lookup key = some e := by
  induction victims using List.reverseRecOn with
  | nil => exact ⟨List.not_mem_nil, hentry⟩
  | append_singleton victims victim ih =>
    rw [withoutVictims_concat] at hentry
    by_cases hkey : key = victim.key
    · rw [hkey, Finmap.lookup_erase] at hentry
      cases hentry
    · rw [Finmap.lookup_erase_ne hkey] at hentry
      obtain ⟨hnot, hbefore⟩ := ih hentry
      exact ⟨by simpa [hkey] using hnot, hbefore⟩

/-- The victims are different keys of a map, each with what the map has for it. -/
structure Taken {D : Type} (m : OrderedMap D) (victims : List (EvictedLeaf D)) : Prop where
  nodup : (victims.map EvictedLeaf.key).Nodup
  entry : ∀ victim ∈ victims, m.lookup victim.key = some ⟨victim.tips, victim.data⟩

theorem Taken.concat {victims : List (EvictedLeaf D)} {victim : EvictedLeaf D} (h : Taken m victims)
    (hentry : (withoutVictims m victims).lookup victim.key = some ⟨victim.tips, victim.data⟩) :
    Taken m (victims ++ [victim]) := by
  obtain ⟨hnew, hbefore⟩ := lookup_of_withoutVictims hentry
  constructor
  · rw [List.map_append, List.map_singleton, List.nodup_append]
    refine ⟨h.nodup, List.nodup_singleton _, fun key hkey key' hkey' heq => hnew ?_⟩
    rw [← List.mem_singleton.mp hkey', ← heq]
    exact hkey
  · intro v hv
    obtain hv | hv := List.mem_append.mp hv
    · exact h.entry v hv
    · rw [List.mem_singleton.mp hv]
      exact hbefore

theorem Models.lookup_evicted (h : Models c m) (hlive : (c.leaf s).deleted = false) :
    m.lookup (c.evicted s).key = some ⟨(c.evicted s).tips, (c.evicted s).data⟩ := by
  have hpresent := h.present s (h.linked hlive)
  rw [Leaf.entry, hlive] at hpresent
  exact hpresent

namespace Reached

theorem evictCold {acc : Critbit D × List Nat × List (EvictedLeaf D)}
    (h : Reached P x acc.1 (withoutVictims m acc.2.2)) (htaken : Taken m acc.2.2)
    (hP : ∀ leaf : Leaf D, leaf.pins = 0 → P leaf) (s : Nat) :
    Reached P x (evictCold acc s).1 (withoutVictims m (evictCold acc s).2.2) ∧ Taken m (evictCold acc s).2.2 ∧
      (evictCold acc s).2.2.length ≤ acc.2.2.length + 1 := by
  unfold Critbit.evictCold
  split
  · rename_i hclaim
    obtain ⟨hlive, hpins⟩ := of_claimable hclaim
    have hcleared := h.clearLeaf hlive (hP _ hpins)
    dsimp only
    rw [withoutVictims_concat]
    refine ⟨?_, htaken.concat (h.models.lookup_evicted hlive), by simp⟩
    apply advanceDecay
    apply buryLeaf
    split
    · exact hcleared.reclaimOldestGhost acc.2.1
    · exact hcleared
  · exact ⟨h, htaken, Nat.le_succ _⟩

theorem evictColds (hP : ∀ leaf : Leaf D, leaf.pins = 0 → P leaf) (cold : List Nat)
    (acc : Critbit D × List Nat × List (EvictedLeaf D)) (h : Reached P x acc.1 (withoutVictims m acc.2.2))
    (htaken : Taken m acc.2.2) : Reached P x (cold.foldl Critbit.evictCold acc).1
        (withoutVictims m (cold.foldl Critbit.evictCold acc).2.2) ∧ Taken m (cold.foldl Critbit.evictCold acc).2.2 ∧
      (cold.foldl Critbit.evictCold acc).2.2.length ≤ acc.2.2.length + cold.length := by
  induction cold generalizing acc with
  | nil => exact ⟨h, htaken, Nat.le_refl _⟩
  | cons s cold ih =>
    obtain ⟨hstep, hmore, hlength⟩ := h.evictCold htaken hP s
    obtain ⟨hrest, hall, hlength'⟩ := ih _ hstep hmore
    refine ⟨hrest, hall, hlength'.trans ?_⟩
    rw [List.length_cons]
    omega

/-- An eviction removes the keys it reports, of leaves that nobody holds: no more than wanted,
each once and with what the map had for it. -/
theorem evictBatch (h : Reached P x c m) (hP : ∀ leaf : Leaf D, leaf.pins = 0 → P leaf) (want : Nat)
    (threshold : Int) (swept : List Nat) :
    Reached P x (c.evictBatch want threshold swept).1 (withoutVictims m (c.evictBatch want threshold swept).2.1) ∧
      Taken m (c.evictBatch want threshold swept).2.1 ∧ (c.evictBatch want threshold swept).2.1.length ≤ want := by
  have hsample : ∀ (swept : List Nat) (acc : Critbit D × EvictionSample), Reached P x acc.1 m →
      Reached P x (swept.foldl (Critbit.consider threshold c.decayEpoch) acc).1 m := by
    intro swept
    induction swept with
    | nil => exact fun _ h => h
    | cons s swept ih => exact fun acc h => ih _ (h.consider threshold c.decayEpoch s)
  have hnone : Taken m [] := ⟨List.nodup_nil, by simp⟩
  unfold Critbit.evictBatch
  split
  · exact ⟨h, hnone, Nat.zero_le _⟩
  · rename_i hwant
    dsimp only
    generalize hsampled : List.foldl (Critbit.consider threshold c.decayEpoch) (c, {}) _ = sampled
    have hs : Reached P x sampled.1 m := hsampled ▸ hsample _ (c, {}) h
    generalize hcold : (if want < sampled.2.cold.length then _ else sampled.2.cold : List (Nat × Nat)) = cold
    have hfew : cold.length ≤ want := by
      rw [← hcold]
      split
      · exact List.length_take_le _ _
      · omega
    obtain ⟨hb, htaken, hlength⟩ := evictColds hP (cold.map Prod.fst)
      (sampled.1, (oldestFirst sampled.2.ghosts).map Prod.fst, []) hs hnone
    rw [List.length_map, List.length_nil, Nat.zero_add] at hlength
    generalize List.foldl Critbit.evictCold (sampled.1, _, []) _ = batch at hb htaken hlength ⊢
    split
    · rename_i hempty
      rw [List.isEmpty_iff.mp hempty] at hb
      have hreclaimed := hb.reclaimOldestGhost batch.2.1
      split
      · rename_i reclaimed _ heq
        rw [heq] at hreclaimed
        exact ⟨hreclaimed.advanceDecay, hnone, Nat.zero_le _⟩
      · rename_i kept _ heq
        rw [heq] at hreclaimed
        split
        · exact ⟨hreclaimed, hnone, Nat.zero_le _⟩
        · rename_i s holdest
          obtain ⟨hlive, hpins⟩ := of_claimable (filter_eq_some_iff.mp holdest).2
          refine ⟨(hreclaimed.dropLeaf hlive (hP _ hpins)).advanceDecay, ?_, Nat.one_le_iff_ne_zero.mpr hwant⟩
          exact hnone.concat (hreclaimed.models.lookup_evicted hlive)
    · exact ⟨hb, htaken, hlength.trans hfew⟩

end Reached

end swytch.keytrie.Critbit
