import Swytch.Keytrie.Critbit.Pins
import Swytch.Lib.Run

open swytch.proto swytch.keytrie Function Finmap Option Finset

namespace swytch.cluster

open Critbit

/-- The un-acked tips of one key, and whether the outbox took a hold on the key. -/
structure PendingKeyEntry where
  tips : Finset EffectRef
  pinned : Bool

structure PendingUpload where
  effect : Effect
  expand : Bool

/-- The outbox of a node next to its index. The pool reference of an upload is not part of
it, and the filter of keys and the counters are left out. -/
structure CloudOutbox (D : Type) where
  index : Critbit D
  pending : Map EffectRef PendingUpload := ∅
  pendingKeys : Map Bytes PendingKeyEntry := ∅
  sendQ : List EffectRef := []

/-- How a call can go wrong: an unpin panics, or an insert into the index never returns. -/
inductive OutboxFault where
  | pinUnderflow
  | noReturn
deriving DecidableEq, Repr

variable {D : Type} {s : CloudOutbox D} {key : Bytes} {pending : Map EffectRef PendingUpload}
  {sendQ : List EffectRef} {tip : EffectRef} {index c : Critbit D} {m : OrderedMap D}

namespace CloudOutbox

/-- The entry of a key; the first upload of a key tries to hold it in the index. -/
def keyEntry {D : Type} (s : CloudOutbox D) (key : Bytes) : Critbit D × PendingKeyEntry :=
  match s.pendingKeys.lookup key with
  | some entry => (s.index, entry)
  | none =>
    let pinned := s.index.pin key
    (pinned.1, { tips := ∅, pinned := pinned.2 })

/-- Queue an upload, if the pool granted a reference and the tip is not queued. `frontier`
marks a write of this node. -/
def enqueueUpload {D : Type} (s : CloudOutbox D) (tip : EffectRef) (eff : Effect) (frontier expand referenced : Bool) :
    CloudOutbox D × Bool :=
  if !referenced ∨ tip ∈ s.pending then (s, false)
  else
    let queued := { s with pending := s.pending.insert tip ⟨eff, expand⟩, sendQ := s.sendQ ++ [tip] }
    if frontier then
      let (index, entry) := s.keyEntry eff.key
      ({ queued with
          index := index
          pendingKeys := s.pendingKeys.insert eff.key { entry with tips := insert tip entry.tips } }, true)
    else (queued, true)

/-- Take an acked tip out of the entry of its key; with the last one the hold is given back. -/
def ackKey {D : Type} (s : CloudOutbox D) (tip : EffectRef) (key : Bytes) : Except OutboxFault (CloudOutbox D) :=
  match s.pendingKeys.lookup key with
  | none => .ok s
  | some entry =>
    if entry.tips.erase tip = ∅ then
      let dropped := { s with pendingKeys := s.pendingKeys.erase key }
      if entry.pinned then
        match s.index.unpin key with
        | .ok (index, _) => .ok { dropped with index := index }
        | .error .underflow => .error .pinUnderflow
      else .ok dropped
    else .ok { s with pendingKeys := s.pendingKeys.insert key { entry with tips := entry.tips.erase tip } }

/-- Release the storage of an outbox that has drained. -/
def releaseDrained {D : Type} (s : CloudOutbox D) : CloudOutbox D :=
  if s.pending.keys = ∅ then { s with pending := ∅, pendingKeys := ∅, sendQ := [] } else s

def retire {D : Type} (s : CloudOutbox D) (tip : EffectRef) : Except OutboxFault (CloudOutbox D) :=
  let removed := { s with pending := s.pending.erase tip }
  match s.pending.lookup tip with
  | none => .ok removed.releaseDrained
  | some upload => (removed.ackKey tip upload.effect.key).map releaseDrained

/-- The un-acked uploads of a key that are writes of this node. -/
def pendingTipsFor {D : Type} (s : CloudOutbox D) (key : Bytes) : Finset EffectRef :=
  (s.pendingKeys.lookup key).elim ∅ PendingKeyEntry.tips

/-- What happens on a node: uploads, acks, and all work on the index. -/
inductive Action (D : Type) where
  | enqueueUpload (tip : EffectRef) (eff : Effect) (frontier expand referenced : Bool)
  | retire (tip : EffectRef)
  | index (op : Op D)

def step {D : Type} (s : CloudOutbox D) : Action D → Except OutboxFault (CloudOutbox D)
  | .enqueueUpload tip eff frontier expand referenced => .ok (s.enqueueUpload tip eff frontier expand referenced).1
  | .retire tip => s.retire tip
  | .index op =>
    match s.index.apply op with
    | none => .error .noReturn
    | some (index, _) => .ok { s with index := index }

/-- A key is indexed when its first write is queued, and it is not deleted while a write
of it is un-acked; inserted keys have positions of 32 bits. -/
def Orderly {D : Type} (s : CloudOutbox D) : Action D → Prop
  | .enqueueUpload _ eff frontier _ _ => frontier = true → (s.index.liveLeaf eff.key).isSome = true
  | .retire _ => True
  | .index op => op.Short ∧ ∀ key old, op = .deleteAndSnapshot key old → s.pendingTipsFor key = ∅

def Run {D : Type} (ok : CloudOutbox D → Action D → Prop) (s t : CloudOutbox D) : Prop :=
  lib.Run (fun s a => (s.step a).toOption) ok s t

/-- The pins of a live leaf: positive while an upload of its key is un-acked, and none
otherwise. -/
structure PinsExact {D : Type} (s : CloudOutbox D) : Prop where
  held : ∀ {key slot}, s.index.liveLeaf key = some slot → s.pendingTipsFor key ≠ ∅ → 0 < (s.index.leaf slot).pins
  released : ∀ {key slot}, s.index.liveLeaf key = some slot → s.pendingTipsFor key = ∅ →
    (s.index.leaf slot).pins = 0

/-- The holds that the outbox has to account for. -/
def holds {D : Type} (s : CloudOutbox D) (key : Bytes) : Int :=
  if key ∈ s.pendingKeys then 1 else 0

/-- The entries of the outbox name queued uploads of their key, hold it, and never come
without tips; the index counts just these holds, on live keys. -/
structure Inv {D : Type} (s : CloudOutbox D) : Prop where
  entries : ∀ {key entry}, s.pendingKeys.lookup key = some entry → entry.pinned = true ∧ entry.tips ≠ ∅ ∧
    ∀ tip ∈ entry.tips, ∃ upload, s.pending.lookup tip = some upload ∧ upload.effect.key = key
  index : ∃ m, s.index.Models m ∧ s.index.PinCounts s.holds ∧ ∀ key, s.holds key ≠ 0 → key ∈ m

theorem holds_ne_zero_iff : s.holds key ≠ 0 ↔ key ∈ s.pendingKeys := by
  unfold holds
  split <;> simp_all

theorem Inv.pinsExact (h : Inv s) : PinsExact s := by
  obtain ⟨m, -, hcounts, -⟩ := h.index
  constructor
  · intro key slot hlive hpending
    have hkey : key ∈ s.pendingKeys := by
      by_contra hnot
      rw [pendingTipsFor, lookup_eq_none.mpr hnot] at hpending
      exact hpending rfl
    rw [hcounts.pins_eq hlive, holds, if_pos hkey]
    exact Int.one_pos
  · intro key slot hlive hpending
    have hkey : key ∉ s.pendingKeys := by
      intro hmem
      obtain ⟨entry, hentry⟩ := mem_iff.mp hmem
      rw [pendingTipsFor, hentry] at hpending
      exact (h.entries hentry).2.1 hpending
    rw [hcounts.pins_eq hlive, holds, if_neg hkey]

/-- A live leaf belongs to a key of the map. -/
theorem exists_live (h : c.Models m) (hkey : key ∈ m) :
    ∃ slot, c.liveLeaf key = some slot := by
  rcases h.liveLeaf_cases key with ⟨slot, -, -, -, hlive, -⟩ | ⟨-, hnone⟩
  · exact ⟨slot, hlive⟩
  · exact absurd hkey (lookup_eq_none.mp hnone)

theorem mem_of_live (h : c.Models m) {slot : Nat}
    (hlive : c.liveLeaf key = some slot) : key ∈ m := by
  rcases h.liveLeaf_cases key with ⟨slot', -, -, -, -, hlookup⟩ | ⟨hnone, -⟩
  · exact mem_iff.mpr ⟨_, hlookup⟩
  · rw [hnone] at hlive
    cases hlive

theorem holds_insert {entry : PendingKeyEntry} :
    holds { index := index, pending := pending, pendingKeys := s.pendingKeys.insert key entry, sendQ := sendQ } =
      update s.holds key 1 := by
  funext k
  by_cases hk : k = key
  · subst hk
    simp [holds]
  · simp [holds, hk]

theorem holds_erase :
    holds { index := index, pending := pending, pendingKeys := s.pendingKeys.erase key, sendQ := sendQ } =
      update s.holds key 0 := by
  funext k
  by_cases hk : k = key
  · subst hk
    simp [holds]
  · simp [holds, hk]

/-- The first write of a live key takes a hold, a later one finds it. -/
theorem Inv.keyEntry (h : Inv s) (hlive : (s.index.liveLeaf key).isSome = true) : (s.keyEntry key).2.pinned = true ∧
      (∀ tip ∈ (s.keyEntry key).2.tips, ∃ upload, s.pending.lookup tip = some upload ∧ upload.effect.key = key) ∧
      ∃ m, (s.keyEntry key).1.Models m ∧ (s.keyEntry key).1.PinCounts (update s.holds key 1) ∧
        ∀ k, update s.holds key 1 k ≠ 0 → k ∈ m := by
  obtain ⟨slot, hslot⟩ := isSome_iff_exists.mp hlive
  obtain ⟨m, hmodels, hcounts, hheld⟩ := h.index
  have hkey : key ∈ m := mem_of_live hmodels hslot
  have hheld' : ∀ k, update s.holds key 1 k ≠ 0 → k ∈ m := by
    intro k hk
    by_cases heq : k = key
    · exact heq ▸ hkey
    · rw [update_of_ne heq] at hk
      exact hheld k hk
  unfold CloudOutbox.keyEntry
  cases hentry : s.pendingKeys.lookup key with
  | some entry =>
    obtain ⟨hpinned, -, htips⟩ := h.entries hentry
    have hsame : update s.holds key 1 = s.holds := by
      rw [update_eq_self_iff, holds, if_pos (mem_iff.mpr ⟨entry, hentry⟩)]
    rw [hsame] at hheld' ⊢
    exact ⟨hpinned, htips, m, hmodels, hcounts, hheld'⟩
  | none =>
    have hzero : s.holds key = 0 := if_neg (lookup_eq_none.mp hentry)
    obtain ⟨hpinned, hmodels', hcounts'⟩ := hcounts.pin hmodels hslot
    rw [hzero, Int.zero_add] at hcounts'
    exact ⟨hpinned, nofun, m, hmodels', hcounts', hheld'⟩

theorem Inv.enqueueUpload (h : Inv s) {eff : Effect} {frontier expand referenced : Bool}
    (hlive : frontier = true → (s.index.liveLeaf eff.key).isSome = true) :
    Inv (s.enqueueUpload tip eff frontier expand referenced).1 := by
  unfold CloudOutbox.enqueueUpload
  split
  · exact h
  · rename_i hnew
    have hfresh : ∀ {tip' upload}, s.pending.lookup tip' = some upload →
        (s.pending.insert tip ⟨eff, expand⟩).lookup tip' = some upload := by
      intro tip' upload hupload
      have hne : tip' ≠ tip := by
        rintro rfl
        exact hnew (.inr (mem_iff.mpr ⟨upload, hupload⟩))
      rw [lookup_insert_of_ne _ hne, hupload]
    cases frontier with
    | false =>
      rw [if_neg Bool.false_ne_true]
      refine ⟨fun {key entry} hentry => ?_, h.index⟩
      obtain ⟨hpinned, hne, htips⟩ := h.entries hentry
      refine ⟨hpinned, hne, fun tip' htip' => ?_⟩
      obtain ⟨upload, hupload, hkey⟩ := htips tip' htip'
      exact ⟨upload, hfresh hupload, hkey⟩
    | true =>
      rw [if_pos rfl]
      obtain ⟨hpinned, htips, m, hmodels, hcounts, hheld⟩ := h.keyEntry (hlive rfl)
      dsimp only
      constructor
      · intro key entry hentry
        dsimp only at hentry ⊢
        by_cases hk : key = eff.key
        · subst hk
          rw [lookup_insert, some.injEq] at hentry
          subst hentry
          refine ⟨hpinned, insert_ne_empty _ _, fun tip' htip' => ?_⟩
          rcases mem_insert.mp htip' with rfl | hold
          · exact ⟨⟨eff, expand⟩, lookup_insert _, rfl⟩
          · obtain ⟨upload, hupload, hkey⟩ := htips tip' hold
            exact ⟨upload, hfresh hupload, hkey⟩
        · rw [lookup_insert_of_ne _ hk] at hentry
          obtain ⟨hpinned', hne, htips'⟩ := h.entries hentry
          refine ⟨hpinned', hne, fun tip' htip' => ?_⟩
          obtain ⟨upload, hupload, hkey⟩ := htips' tip' htip'
          exact ⟨upload, hfresh hupload, hkey⟩
      · rw [holds_insert]
        exact ⟨m, hmodels, hcounts, hheld⟩

/-- An entry other than that of the acked tip still names queued uploads. -/
theorem pending_erase {s : Map EffectRef PendingUpload} {tip' : EffectRef} {upload upload' : PendingUpload}
    (hupload : s.lookup tip = some upload) (hupload' : s.lookup tip' = some upload')
    (hkey : upload'.effect.key ≠ upload.effect.key) : (s.erase tip).lookup tip' = some upload' := by
  have hne : tip' ≠ tip := by
    rintro rfl
    rw [hupload, some.injEq] at hupload'
    exact hkey (hupload' ▸ rfl)
  rw [lookup_erase_ne hne, hupload']

theorem Inv.ackKey (h : Inv s) {upload : PendingUpload} (hupload : s.pending.lookup tip = some upload) :
    ∃ s', ackKey { s with pending := s.pending.erase tip } tip upload.effect.key = .ok s' ∧ Inv s' ∧
      s'.pending = s.pending.erase tip := by
  obtain ⟨m, hmodels, hcounts, hheld⟩ := h.index
  have hother : ∀ {key entry}, s.pendingKeys.lookup key = some entry → key ≠ upload.effect.key →
      entry.pinned = true ∧ entry.tips ≠ ∅ ∧
        ∀ tip' ∈ entry.tips, ∃ upload', (s.pending.erase tip).lookup tip' = some upload' ∧
          upload'.effect.key = key := by
    intro key entry hentry hk
    obtain ⟨hpinned, hne, htips⟩ := h.entries hentry
    refine ⟨hpinned, hne, fun tip' htip' => ?_⟩
    obtain ⟨upload', hupload', hkey⟩ := htips tip' htip'
    exact ⟨upload', pending_erase hupload hupload' (fun heq => hk (hkey.symm.trans heq)), hkey⟩
  unfold CloudOutbox.ackKey
  dsimp only
  cases hentry : s.pendingKeys.lookup upload.effect.key with
  | none =>
    refine ⟨_, rfl, ⟨fun {key entry} hlookup => hother hlookup ?_, h.index⟩, rfl⟩
    rintro rfl
    rw [hentry] at hlookup
    cases hlookup
  | some entry =>
    obtain ⟨hpinned, -, htips⟩ := h.entries hentry
    have hone : s.holds upload.effect.key = 1 := if_pos (mem_iff.mpr ⟨entry, hentry⟩)
    dsimp only
    by_cases hlast : entry.tips.erase tip = ∅
    · -- the last un-acked write of the key: its hold is given back
      have hlive := exists_live hmodels (hheld upload.effect.key (by rw [hone]; decide))
      obtain ⟨slot, hslot⟩ := hlive
      obtain ⟨index, hunpin, hmodels', hcounts'⟩ := hcounts.unpin hmodels hslot (by rw [hone]; decide)
      rw [hone, Int.sub_self] at hcounts'
      rw [if_pos hlast, if_pos hpinned, hunpin]
      refine ⟨_, rfl, ⟨fun {key entry'} hlookup => ?_, ?_⟩, rfl⟩
      · dsimp only at hlookup ⊢
        have hk : key ≠ upload.effect.key := by
          rintro rfl
          rw [lookup_erase] at hlookup
          cases hlookup
        rw [lookup_erase_ne hk] at hlookup
        exact hother hlookup hk
      · rw [holds_erase]
        refine ⟨m, hmodels', hcounts', fun k hk => ?_⟩
        by_cases heq : k = upload.effect.key
        · rw [heq, update_self] at hk
          exact absurd rfl hk
        · rw [update_of_ne heq] at hk
          exact hheld k hk
    · rw [if_neg hlast]
      refine ⟨_, rfl, ⟨fun {key entry'} hlookup => ?_, ?_⟩, rfl⟩
      · dsimp only at hlookup ⊢
        by_cases hk : key = upload.effect.key
        · subst hk
          rw [lookup_insert, some.injEq] at hlookup
          subst hlookup
          refine ⟨hpinned, hlast, fun tip' htip' => ?_⟩
          obtain ⟨hne, hin⟩ := mem_erase.mp htip'
          obtain ⟨upload', hupload', hkey⟩ := htips tip' hin
          exact ⟨upload', by rw [lookup_erase_ne hne, hupload'], hkey⟩
        · rw [lookup_insert_of_ne _ hk] at hlookup
          exact hother hlookup hk
      · rw [holds_insert]
        have hsame : update s.holds upload.effect.key 1 = s.holds := by
          rw [update_eq_self_iff, hone]
        rw [hsame]
        exact ⟨m, hmodels, hcounts, hheld⟩

/-- Nothing is dropped from an outbox that has drained. -/
theorem Inv.releaseDrained (h : Inv s) : Inv s.releaseDrained := by
  unfold CloudOutbox.releaseDrained
  split
  · rename_i hempty
    have hnone : s.pendingKeys = ∅ := by
      rw [lib.eq_empty_iff_lookup]
      intro key
      cases hentry : s.pendingKeys.lookup key with
      | none => rfl
      | some entry =>
        obtain ⟨-, hne, htips⟩ := h.entries hentry
        obtain ⟨tip, htip⟩ := nonempty_iff_ne_empty.mpr hne
        obtain ⟨upload, hupload, -⟩ := htips tip htip
        have hmem : tip ∈ s.pending.keys := mem_keys.mpr (mem_iff.mpr ⟨upload, hupload⟩)
        rw [hempty] at hmem
        cases hmem
    refine ⟨fun {key entry} hentry => ?_, ?_⟩
    · dsimp only at hentry
      rw [lookup_empty] at hentry
      cases hentry
    · have hholds : holds ({ s with pending := ∅, pendingKeys := ∅, sendQ := [] } : CloudOutbox D) = s.holds := by
        funext key
        rw [holds, holds, hnone]
      rw [hholds]
      exact h.index
  · exact h

theorem Inv.retire (h : Inv s) (tip : EffectRef) : ∃ s', s.retire tip = .ok s' ∧ Inv s' := by
  unfold CloudOutbox.retire
  dsimp only
  cases hupload : s.pending.lookup tip with
  | none =>
    have hsame : s.pending.erase tip = s.pending := by
      apply ext_lookup
      intro t
      by_cases ht : t = tip
      · rw [ht, lookup_erase, hupload]
      · rw [lookup_erase_ne ht]
    refine ⟨_, rfl, Inv.releaseDrained ?_⟩
    rw [hsame]
    exact h
  | some upload =>
    obtain ⟨s', hack, hinv, -⟩ := h.ackKey hupload
    refine ⟨s'.releaseDrained, ?_, hinv.releaseDrained⟩
    dsimp only
    rw [hack]
    rfl

/-- Every orderly action goes through, and keeps the holds exact. -/
theorem Inv.step (h : Inv s) {a : Action D} (hok : s.Orderly a) :
    ∃ s', s.step a = .ok s' ∧ Inv s' := by
  cases a with
  | enqueueUpload tip eff frontier expand referenced => exact ⟨_, rfl, h.enqueueUpload hok⟩
  | retire tip => exact h.retire tip
  | index op =>
    obtain ⟨hshort, hdelete⟩ := hok
    obtain ⟨m, hmodels, hcounts, hheld⟩ := h.index
    have hfree : ∀ key old, op = .deleteAndSnapshot key old → s.holds key = 0 := by
      intro key old hop
      by_contra hne
      obtain ⟨entry, hentry⟩ := mem_iff.mp (holds_ne_zero_iff.mp hne)
      have hnone := hdelete key old hop
      rw [pendingTipsFor, hentry] at hnone
      exact (h.entries hentry).2.1 hnone
    obtain ⟨c', outcome, happly, hindex⟩ := hcounts.apply hmodels hheld hshort hfree
    refine ⟨{ s with index := c' }, ?_, h.entries, _, hindex⟩
    rw [CloudOutbox.step, happly]

theorem inv_new (evictDecider : Option (Bytes → Bool)) (evictActive : Bool) (decayEvery : Option Nat) :
    Inv ({ index := new evictDecider evictActive decayEvery } : CloudOutbox D) := by
  refine ⟨fun {key entry} hentry => ?_, ∅, models_new _ _ _, pinCounts_new _ _ _, ?_⟩
  · dsimp only at hentry
    rw [lookup_empty] at hentry
    cases hentry
  · intro key hkey
    exact absurd (holds_ne_zero_iff.mp hkey) notMem_empty

/-- In every orderly run the pins of the outbox are exact, and the next orderly action
neither panics nor hangs. -/
theorem pins_exact_of_orderly {D : Type} (evictDecider : Option (Bytes → Bool)) (evictActive : Bool)
    (decayEvery : Option Nat) {s : CloudOutbox D}
    (hrun : Run Orderly { index := new evictDecider evictActive decayEvery } s) :
    PinsExact s ∧ ∀ a, s.Orderly a → ∃ s', s.step a = .ok s' := by
  have hinv : Inv s := by
    refine lib.Run.invariant hrun (inv_new _ _ _) ?_
    intro s a t h hok hstep
    obtain ⟨s', hs', hinv⟩ := h.step hok
    rw [hs'] at hstep
    exact some.inj hstep ▸ hinv
  refine ⟨hinv.pinsExact, fun a hok => ?_⟩
  obtain ⟨s', hs', -⟩ := hinv.step hok
  exact ⟨s', hs'⟩

instance {D : Type} (op : Op D) : Decidable op.Short :=
  match op with
  | .insert key _ _ _ => inferInstanceAs (Decidable (key.length ≤ 2 ^ 32))
  | .removeTips _ _ _ | .loadData _ _ | .loadOrStoreData _ _ _ | .deleteAndSnapshot _ _ | .evictBatch _ _ _
  | .drainReap | .reap | .evacuateLeafBatch _ | .evacuateInternalBatch _ => isTrue trivial

instance {D : Type} (s : CloudOutbox D) (a : Action D) : Decidable (s.Orderly a) :=
  match a with
  | .enqueueUpload _ eff frontier _ _ =>
    inferInstanceAs (Decidable (frontier = true → (s.index.liveLeaf eff.key).isSome = true))
  | .retire _ => isTrue trivial
  | .index op =>
    match op with
    | .deleteAndSnapshot key _ => decidable_of_iff (s.pendingTipsFor key = ∅) <| by
        simp only [Orderly, Op.Short, true_and, Op.deleteAndSnapshot.injEq, and_imp]
        exact ⟨fun h _ _ hkey _ => hkey ▸ h, fun h => h _ _ rfl rfl⟩
    | .insert key old new now => decidable_of_iff (key.length ≤ 2 ^ 32) <| by simp [Orderly, Op.Short]
    | .removeTips _ _ _ | .loadData _ _ | .loadOrStoreData _ _ _ | .evictBatch _ _ _
    | .drainReap | .reap | .evacuateLeafBatch _ | .evacuateInternalBatch _ => isTrue ⟨trivial, nofun⟩

/-- A write of a key that is indexed, an eviction that has to pass it over, and its ack. -/
theorem pins_exact_of_acked_write :
    ∃ s : CloudOutbox Nat, Run Orderly { index := new none true none } s ∧ PinsExact s ∧
      ∀ a, s.Orderly a → ∃ s', s.step a = .ok s' := by
  obtain ⟨s, hrun, -⟩ := @lib.exists_run_of_perform _ _ (fun (s : CloudOutbox Nat) a => (s.step a).toOption) Orderly _
    (fun _ => True) _
    [.index (.insert [1] none (some ⟨0, .empty⟩) 0),
      .enqueueUpload ⟨1, 1⟩ { key := [1], kind := .noop } true true true,
      .index (.evictBatch 1 5 [0]), .retire ⟨1, 1⟩]
    { index := new none true none } (by decide +kernel)
  exact ⟨s, hrun, pins_exact_of_orderly none true none hrun⟩

/-- The pins of a live key after some actions and its un-acked tips, or the fault. -/
def pinsAfter (actions : List (Action Nat)) (key : Bytes) : Except OutboxFault (Option Int × Finset EffectRef) :=
  (actions.foldlM CloudOutbox.step { index := new none true none }).map fun s =>
    ((s.index.liveLeaf key).map fun slot => (s.index.leaf slot).pins, s.pendingTipsFor key)

/-- A key that is indexed after its first write was queued is not held. A key that is deleted
while it is held and stored again: if the dead leaf was reaped before, the ack panics,
and if the ack came before, the hold stays for good. -/
theorem pins_not_exact : pinsAfter [.enqueueUpload ⟨1, 1⟩ { key := [1], kind := .noop } true true true,
        .index (.insert [1] none (some ⟨0, .empty⟩) 0)] [1] = .ok (some 0, {⟨1, 1⟩}) ∧
      pinsAfter [.index (.insert [1] none (some ⟨0, .empty⟩) 0),
        .enqueueUpload ⟨1, 1⟩ { key := [1], kind := .noop } true true true,
        .index (.deleteAndSnapshot [1] (some ⟨0, .empty⟩)), .index .reap,
        .index (.insert [1] none (some ⟨1, .empty⟩) 1), .retire ⟨1, 1⟩] [1] = .error .pinUnderflow ∧
      pinsAfter [.index (.insert [1] none (some ⟨0, .empty⟩) 0),
        .enqueueUpload ⟨1, 1⟩ { key := [1], kind := .noop } true true true,
        .index (.deleteAndSnapshot [1] (some ⟨0, .empty⟩)), .retire ⟨1, 1⟩,
        .index (.insert [1] none (some ⟨1, .empty⟩) 1)] [1] = .ok (some 1, ∅) := by
  refine ⟨?_, ?_, ?_⟩ <;> rfl

end CloudOutbox

end swytch.cluster
