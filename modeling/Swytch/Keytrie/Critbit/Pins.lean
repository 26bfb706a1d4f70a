import Swytch.Keytrie.Critbit.OrderedMap

open swytch.proto Function Finmap

namespace swytch.keytrie

/-- The panic of an `Unpin` without a matching `Pin`. -/
inductive PinFault where
  | underflow
deriving DecidableEq, Repr

variable {D : Type} {P : Leaf D → Prop} {x y : Critbit D × OrderedMap D} {c c' : Critbit D} {holds : Bytes → Int}
  {s : Nat} {key : Bytes} {m : OrderedMap D}

namespace Critbit

/-- Hold the live leaf of a key, if it has one. -/
def pin {D : Type} (c : Critbit D) (key : Bytes) : Critbit D × Bool :=
  match c.liveLeaf key with
  | none => (c, false)
  | some s => (c.setLeaf s { c.leaf s with pins := (c.leaf s).pins + 1 }, true)

/-- Release one hold of the live leaf of a key. -/
def unpin {D : Type} (c : Critbit D) (key : Bytes) : Except PinFault (Critbit D × Bool) :=
  match c.liveLeaf key with
  | none => .ok (c, false)
  | some s =>
    if (c.leaf s).pins - 1 < 0 then .error .underflow
    else .ok (c.setLeaf s { c.leaf s with pins := (c.leaf s).pins - 1 }, true)

/-- The holds on every live leaf are those counted for its key, and a dead leaf that could
come back to life has none. -/
structure PinCounts {D : Type} (c : Critbit D) (holds : Bytes → Int) : Prop where
  live : ∀ s, (c.leaf s).deleted = false → (c.leaf s).pins = holds (c.leaf s).key
  dead : ∀ s ∈ c.slots, (c.leaf s).deleted = true → (c.leaf s).pins = 0

theorem PinCounts.write (h : PinCounts c holds) {leaf : Leaf D} (hwrites : c.Writes s leaf c')
    (hlive : leaf.deleted = false → leaf.pins = holds leaf.key)
    (hdead : s ∈ c.slots → leaf.deleted = true → leaf.pins = 0) : PinCounts c' holds := by
  obtain ⟨hroot, hleaf, -⟩ := hwrites
  refine ⟨fun s' => ?_, fun s' hs' => ?_⟩
  · rw [hleaf]
    by_cases heq : s' = s
    · rw [heq, update_self]
      exact hlive
    · rw [update_of_ne heq]
      exact h.live s'
  · rw [slots, hroot] at hs'
    rw [hleaf]
    by_cases heq : s' = s
    · rw [heq, update_self]
      exact hdead (heq ▸ hs')
    · rw [update_of_ne heq]
      exact h.dead s' hs'

/-- A step that lets only leaves without holds die keeps the holds, and the held keys
live. -/
theorem PinCounts.step (h : PinCounts x.1 holds) (hmodels : Models x.1 x.2)
    (hheld : ∀ k, holds k ≠ 0 → k ∈ x.2) (hP : ∀ leaf : Leaf D, leaf.pins = holds leaf.key → P leaf → leaf.pins = 0)
    (hstep : Step P x y) : PinCounts y.1 holds ∧ ∀ k, holds k ≠ 0 → k ∈ y.2 := by
  have hfree : ∀ k, k ∉ x.2 → holds k = 0 := by
    intro k hk
    by_contra hne
    exact hk (hheld k hne)
  cases hstep with
  | frame hroot hleaf hnext =>
    refine ⟨⟨?_, ?_⟩, hheld⟩
    · rw [hleaf]
      exact h.live
    · rw [hleaf, slots, hroot]
      exact h.dead
  | touch hwrites hkey htips hdata hdeleted hpins =>
    refine ⟨h.write hwrites ?_ ?_, hheld⟩
    · rw [hdeleted, hpins, hkey]
      exact h.live _
    · rw [hdeleted, hpins]
      exact h.dead _
  | @store c c' m s leaf hwrites hs hkey hlive hpins =>
    refine ⟨h.write hwrites (fun _ => ?_) fun _ hdeleted => ?_, fun k hk => mem_insert.mpr (.inr (hheld k hk))⟩
    · rw [hpins, hkey]
      cases hdeleted : (c.leaf s).deleted with
      | false => exact h.live s hdeleted
      | true =>
        -- the key of a dead leaf is not in the map
        have hgone : (c.leaf s).key ∉ m := by
          rw [← lookup_eq_none, hmodels.present s hs, Leaf.entry, if_pos hdeleted]
        rw [h.dead s hs hdeleted, hfree _ hgone]
    · rw [hlive] at hdeleted
      cases hdeleted
  | @clear c c' m s hwrites hs hlive hP' =>
    have hpins := h.live s hlive
    have hzero := hP _ hpins hP'
    refine ⟨h.write hwrites (fun hdead => ?_) fun _ _ => hzero, fun k hk => mem_erase.mpr ⟨?_, hheld k hk⟩⟩
    · cases hdead
    · rintro rfl
      exact hk (hpins.symm.trans hzero)
  | shrink hwf hsub hdeleted => exact ⟨⟨h.live, fun s hs => h.dead s (hsub s hs)⟩, hheld⟩
  | retire hwrites hs hdeleted =>
    refine ⟨h.write hwrites (fun hlive => ?_) fun hlinked => absurd hlinked hs, hheld⟩
    rw [hdeleted] at hlive
    cases hlive
  | @link c c' m leaf hlinks =>
    have hgone : leaf.key ∉ m := lookup_eq_none.mp (hmodels.absent _ hlinks.absent)
    refine ⟨⟨fun s => ?_, fun s hs => ?_⟩, fun k hk => mem_insert.mpr (.inr (hheld k hk))⟩
    · rw [hlinks.leaf]
      by_cases heq : s = c.nextLeaf
      · rw [heq, update_self, hlinks.pins, hfree _ hgone]
        exact fun _ => rfl
      · rw [update_of_ne heq]
        exact h.live s
    · rw [hlinks.leaf]
      by_cases heq : s = c.nextLeaf
      · rw [heq, update_self]
        exact fun _ => hlinks.pins
      · rw [update_of_ne heq]
        exact h.dead s (((hlinks.slots s).mp hs).resolve_right heq)
  | @move c c' m s hmoves =>
    obtain ⟨hs, -, -, hslots, hnew, hold, hother⟩ := hmoves
    refine ⟨⟨fun s' hs' => ?_, fun s' hs' => ?_⟩, hheld⟩
    · by_cases hfresh : s' = c.nextLeaf
      · rw [hfresh, hnew] at hs' ⊢
        exact h.live s hs'
      · have hne : s' ≠ s := by
          rintro rfl
          rw [hold] at hs'
          cases hs'
        rw [hother s' hfresh hne] at hs' ⊢
        exact h.live s' hs'
    · obtain ⟨hs', hne⟩ | rfl := (hslots s').mp hs'
      · rw [hother s' (Nat.ne_of_lt (hmodels.fresh s' hs')) hne]
        exact h.dead s' hs'
      · rw [hnew]
        exact h.dead s hs

/-- A call on the trie that deletes no key which is held keeps the holds, and the held keys
live. -/
theorem PinCounts.apply (h : PinCounts c holds) (hmodels : Models c m) (hheld : ∀ k, holds k ≠ 0 → k ∈ m)
    {op : Op D} (hshort : op.Short) (hdelete : ∀ key old, op = .deleteAndSnapshot key old → holds key = 0) :
    ∃ c' outcome, c.apply op = some (c', outcome) ∧ Models c' (applyMap m op outcome) ∧ PinCounts c' holds ∧
      ∀ k, holds k ≠ 0 → k ∈ applyMap m op outcome := by
  obtain ⟨c', outcome, happly, -, hreached⟩ := (hmodels.reached (Dies op)).apply hshort fun _ hdies => hdies
  have hdies : ∀ leaf : Leaf D, leaf.pins = holds leaf.key → Dies op leaf → leaf.pins = 0 := by
    intro leaf hpins hdies
    cases op with
    | deleteAndSnapshot key old => rw [hpins, show leaf.key = key from hdies, hdelete key old rfl]
    | _ => exact hdies
  have hrun : ∀ {y}, Relation.ReflTransGen (Step (Dies op)) (c, m) y →
      Models y.1 y.2 ∧ PinCounts y.1 holds ∧ ∀ k, holds k ≠ 0 → k ∈ y.2 := by
    intro y hsteps
    induction hsteps with
    | refl => exact ⟨hmodels, h, hheld⟩
    | tail _ hstep ih => exact ⟨hstep.models ih.1, ih.2.1.step ih.1 ih.2.2 hdies hstep⟩
  exact ⟨c', outcome, happly, hrun hreached.steps⟩

theorem liveLeaf_spec (hlive : c.liveLeaf key = some s) : (c.leaf s).key = key ∧ (c.leaf s).deleted = false := by
  have hfilter := (Option.filter_eq_some_iff.mp hlive).2
  simpa using hfilter

/-- The holds on the live leaf of a key change. -/
theorem PinCounts.setPins (h : PinCounts c holds) (hmodels : Models c m) (hlive : c.liveLeaf key = some s)
    (n : Int) : PinCounts (c.setLeaf s { c.leaf s with pins := n }) (update holds key n) := by
  obtain ⟨hkey, hdeleted⟩ := liveLeaf_spec hlive
  constructor
  · intro s'
    by_cases heq : s' = s
    · rw [heq, setLeaf_leaf, hkey, update_self]
      exact fun _ => rfl
    · rw [setLeaf_leaf_of_ne c heq]
      intro hs'
      have hne : (c.leaf s').key ≠ key := fun hsame =>
        heq (hmodels.inj (hmodels.linked hs') (hmodels.linked hdeleted) (hsame.trans hkey.symm))
      rw [update_of_ne hne]
      exact h.live s' hs'
  · intro s' hs'
    by_cases heq : s' = s
    · rw [heq, setLeaf_leaf, hdeleted]
      exact nofun
    · rw [setLeaf_leaf_of_ne c heq]
      exact h.dead s' hs'

theorem PinCounts.pins_eq (h : PinCounts c holds) (hlive : c.liveLeaf key = some s) : (c.leaf s).pins = holds key := by
  obtain ⟨hkey, hdeleted⟩ := liveLeaf_spec hlive
  rw [h.live s hdeleted, hkey]

/-- A live key takes a hold. -/
theorem PinCounts.pin (h : PinCounts c holds) (hmodels : Models c m) (hlive : c.liveLeaf key = some s) :
    (c.pin key).2 = true ∧ Models (c.pin key).1 m ∧ PinCounts (c.pin key).1 (update holds key (holds key + 1)) := by
  unfold Critbit.pin
  rw [hlive]
  refine ⟨rfl, hmodels.setSame rfl rfl rfl rfl, ?_⟩
  rw [← h.pins_eq hlive]
  exact h.setPins hmodels hlive _

/-- A live key gives back a hold that it has. -/
theorem PinCounts.unpin (h : PinCounts c holds) (hmodels : Models c m) (hlive : c.liveLeaf key = some s)
    (hpos : 0 < holds key) :
    ∃ c', c.unpin key = .ok (c', true) ∧ Models c' m ∧ PinCounts c' (update holds key (holds key - 1)) := by
  have hpins := h.pins_eq hlive
  unfold Critbit.unpin
  rw [hlive]
  dsimp only
  rw [if_neg (by omega)]
  refine ⟨_, rfl, hmodels.setSame rfl rfl rfl rfl, ?_⟩
  rw [← hpins]
  exact h.setPins hmodels hlive _

theorem pinCounts_new (evictDecider : Option (Bytes → Bool)) (evictActive : Bool) (decayEvery : Option Nat) :
    PinCounts (new evictDecider evictActive decayEvery : Critbit D) (fun _ => 0) :=
  ⟨nofun, nofun⟩

end Critbit

end swytch.keytrie
