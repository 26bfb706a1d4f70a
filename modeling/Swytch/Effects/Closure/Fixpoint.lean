import Swytch.Effects.Closure

open swytch.lib swytch.proto List

namespace swytch.effects

open Visits

variable {start : List Bytes} {log : Log} {tipsFor : Bytes → List Tip} {c : Closure}

namespace Closure

/-- Between two keys of the queue, everything visited is complete: only the tips and
anchors of queued keys are still to be followed. -/
structure Inv (log : Log) (tipsFor : Bytes → List Tip) (start : List Bytes) (c : Closure) : Prop where
  ledger : Ledger start c
  sound : ∀ {k t}, (k, t) ∈ c.visited → ∃ s ∈ start, Visits log tipsFor s k t
  anchor_iff : ∀ {o t}, (o, t) ∈ c.anchors ↔ ∃ k, (k, t) ∈ c.visited ∧ o ∈ bindKeys log t ∧ o ≠ k
  closed : ∀ {k t u}, (k, t) ∈ c.visited → u ∈ historyDeps log k t → (k, u) ∈ c.visited
  done : ∀ {k t}, k ∈ c.keys → k ∉ c.queue → t ∈ tipsFor k ∨ (k, t) ∈ c.anchors → (k, t) ∈ c.visited
  verdicts : c.verdicts = (c.visited.map Prod.snd).foldl (harvest log) (fun _ => none)

theorem inv_start (log : Log) (tipsFor : Bytes → List Tip) {keys queue : List Bytes}
    (hkeys : ∀ {k}, k ∈ keys ↔ k ∈ start) (hqueue : ∀ {k}, k ∈ queue ↔ k ∈ keys) :
    Inv log tipsFor start { keys := keys, queue := queue } := by
  refine ⟨⟨by simp [hkeys], hqueue.mp, by simp⟩, by simp, by simp, by simp, ?_, rfl⟩
  intro k t hk hq
  exact absurd (hqueue.mpr hk) hq

/-- Every key that enters the closure has its tips in it. -/
theorem visits_tip (hinv : Inv log tipsFor start c) {k : Bytes} {t : Tip} (hk : k ∈ c.keys)
    (ht : t ∈ tipsFor k ∨ (k, t) ∈ c.anchors) : ∃ s ∈ start, Visits log tipsFor s k t := by
  rcases ht with htip | hanchor
  · rcases hinv.ledger.mem_keys.mp hk with hstart | ⟨u, hu⟩
    · exact ⟨k, hstart, tip htip⟩
    · obtain ⟨k', hvisited, hbind, -⟩ := hinv.anchor_iff.mp hu
      obtain ⟨s, hs, hvisits⟩ := hinv.sound hvisited
      exact ⟨s, hs, linked hvisits hbind htip⟩
  · obtain ⟨k', hvisited, hbind, -⟩ := hinv.anchor_iff.mp hanchor
    obtain ⟨s, hs, hvisits⟩ := hinv.sound hvisited
    exact ⟨s, hs, anchor hvisits hbind⟩

theorem visits_of_reach {start k : Bytes} {s t : Tip} (hs : Visits log tipsFor start k s)
    (hst : Reach (historyDeps log k) s t) : Visits log tipsFor start k t := by
  induction hst with
  | refl => exact hs
  | tail _ hstep ih => exact dep ih hstep

/-- The locations visited on a key after exploring it. -/
theorem mem_explore_key
    (hclosed : ∀ {k t u}, (k, t) ∈ c.visited → u ∈ historyDeps log k t → (k, u) ∈ c.visited) {key : Bytes} {t : Tip} :
    (key, t) ∈ c.visited ∨ t ∈ c.newTips log tipsFor key ↔ (key, t) ∈ c.visited ∨
        ∃ s, (s ∈ tipsFor key ∨ (key, s) ∈ c.anchors) ∧ Reach (historyDeps log key) s t := by
  have hwalk := @mem_walkHistory_iff log key (tipsFor key ++ c.bindsByKey key) (onKey key c.visited) (by
    intro x hx y hy
    exact mem_onKey_iff.mpr (hclosed (mem_onKey_iff.mp hx) hy)) t
  have hprefix : onKey key c.visited ++ c.newTips log tipsFor key =
      walkHistory log key (tipsFor key ++ c.bindsByKey key) (onKey key c.visited) :=
    (prefix_append_drop (prefix_walk _ _ _ _ _)).symm
  rw [← hprefix, mem_append, mem_onKey_iff] at hwalk
  rw [hwalk]
  simp only [mem_append, bindsByKey, mem_onKey_iff]

/-- Exploring the next key of the queue keeps the invariant. -/
theorem Inv.explore {queue : List Bytes} {key : Bytes} (hinv : Inv log tipsFor start c)
    (hqueue : c.queue = key :: queue) :
    Inv log tipsFor start (Closure.explore log tipsFor { c with queue := queue } key) := by
  have hkey : key ∈ c.keys := hinv.ledger.queue (by simp [hqueue])
  have hex := explored_foldl_visit log start key (newTips log tipsFor { c with queue := queue } key)
    { c with queue := queue }
  have hreach : ∀ {t}, _ := @mem_explore_key log tipsFor { c with queue := queue } hinv.closed key
  rw [Closure.explore]
  generalize newTips log tipsFor { c with queue := queue } key = new at hex hreach ⊢
  have hledger : Ledger start (new.foldl (visit log key) { c with queue := queue }) :=
    hex.ledger ⟨hinv.ledger.mem_keys, fun hk => hinv.ledger.queue (hqueue ▸ mem_cons_of_mem key hk),
      hinv.ledger.nodup⟩
  generalize new.foldl (visit log key) { c with queue := queue } = c' at hex hledger ⊢
  have hvisited : ∀ {k t}, (k, t) ∈ c'.visited ↔ (k, t) ∈ c.visited ∨ (k = key ∧ t ∈ new) := by
    intro k t
    rw [hex.visited]
    simp only [mem_append, mem_map, Prod.mk.injEq]
    refine or_congr_right ⟨?_, ?_⟩
    · rintro ⟨u, hu, rfl, rfl⟩
      exact ⟨rfl, hu⟩
    · rintro ⟨rfl, ht⟩
      exact ⟨t, ht, rfl, rfl⟩
  refine ⟨hledger, ?_, ?_, ?_, ?_, ?_⟩
  · intro k t ht
    rcases hvisited.mp ht with hold | ⟨rfl, hnew⟩
    · exact hinv.sound hold
    · rcases hreach.mp (.inr hnew) with hold | ⟨s, hs, hst⟩
      · exact hinv.sound hold
      · obtain ⟨r, hr, hvisits⟩ := visits_tip hinv hkey hs
        exact ⟨r, hr, visits_of_reach hvisits hst⟩
  · intro o t
    rw [hex.mem_anchors, hinv.anchor_iff]
    constructor
    · rintro (⟨k, hk, ho⟩ | ⟨ht, ho⟩)
      · exact ⟨k, hvisited.mpr (.inl hk), ho⟩
      · exact ⟨key, hvisited.mpr (.inr ⟨rfl, ht⟩), ho⟩
    · rintro ⟨k, hk, ho⟩
      rcases hvisited.mp hk with hold | ⟨rfl, ht⟩
      · exact .inl ⟨k, hold, ho⟩
      · exact .inr ⟨ht, ho⟩
  · intro k t u ht hu
    rcases hvisited.mp ht with hold | ⟨rfl, hnew⟩
    · exact hvisited.mpr (.inl (hinv.closed hold hu))
    · rw [hvisited, and_iff_right rfl, hreach]
      rcases hreach.mp (.inr hnew) with hold | ⟨s, hs, hst⟩
      · exact .inl (hinv.closed hold hu)
      · exact .inr ⟨s, hs, hst.trans (Reach.single hu)⟩
  · intro k t hk hq ht
    -- a key that is not queued has no new anchors
    have hold : ∀ {u}, (k, u) ∈ c'.anchors → (k, u) ∈ c.anchors := fun hu => (hex.grows.fresh hu).resolve_right hq
    have hstart : t ∈ tipsFor k ∨ (k, t) ∈ c.anchors := ht.imp id hold
    by_cases heq : k = key
    · subst heq
      rw [hvisited, and_iff_right rfl, hreach]
      exact .inr ⟨t, hstart, Reach.refl t⟩
    · have hk' : k ∈ c.keys := by
        rw [hinv.ledger.mem_keys]
        exact (hledger.mem_keys.mp hk).imp id (fun ⟨u, hu⟩ => ⟨u, hold hu⟩)
      have hq' : k ∉ c.queue := by
        rw [hqueue, mem_cons]
        rintro (hkey | hrest)
        · exact heq hkey
        · exact hq (hex.grows.queue hrest)
      exact hvisited.mpr (.inl (hinv.done hk' hq' hstart))
  · have hsnd : ∀ l : List Tip, (l.map (fun t => (key, t))).map Prod.snd = l := by
      intro l
      simp [Function.comp_def]
    rw [hex.verdicts, hex.visited, map_append, hsnd, foldl_append]
    exact congrArg (new.foldl (harvest log)) hinv.verdicts

theorem length_anchors_le (hinv : Inv log tipsFor start c) : c.anchors.length ≤ anchorBound log := by
  rw [← toFinset_card_of_nodup hinv.ledger.nodup]
  have hsub : c.anchors.toFinset ⊆
      log.keys.biUnion (fun t => (bindKeys log t).toFinset.image (fun o => (o, t))) := by
    rintro ⟨o, t⟩ ha
    obtain ⟨k, -, ho, -⟩ := hinv.anchor_iff.mp (mem_toFinset.mp ha)
    have ht : t ∈ log.keys := by
      rw [Finmap.mem_keys, Finmap.mem_iff]
      cases hlookup : log.lookup t with
      | none => simp [bindKeys, hlookup] at ho
      | some eff => exact ⟨eff, rfl⟩
    exact Finset.mem_biUnion.mpr ⟨t, ht, Finset.mem_image.mpr ⟨o, mem_toFinset.mpr ho, rfl⟩⟩
  calc c.anchors.toFinset.card
      ≤ (log.keys.biUnion (fun t => (bindKeys log t).toFinset.image (fun o => (o, t)))).card :=
        Finset.card_le_card hsub
    _ ≤ log.keys.sum (fun t => ((bindKeys log t).toFinset.image (fun o => (o, t))).card) :=
        Finset.card_biUnion_le
    _ ≤ anchorBound log :=
        Finset.sum_le_sum fun t _ => Finset.card_image_le.trans (toFinset_card_le _)

/-- The loop ends with an empty queue: each turn but the first ones is paid for by a new anchor. -/
theorem Inv.closureLoop {n : Nat} (hinv : Inv log tipsFor start c)
    (hn : c.queue.length + anchorBound log ≤ n + c.anchors.length) :
    Inv log tipsFor start (closureLoop log tipsFor n c) ∧ (closureLoop log tipsFor n c).queue = [] := by
  induction n generalizing c with
  | zero =>
    have hle := length_anchors_le hinv
    exact ⟨hinv, length_eq_zero_iff.mp (show c.queue.length = 0 by omega)⟩
  | succ n ih =>
    unfold effects.closureLoop
    cases hqueue : c.queue with
    | nil => exact ⟨hinv, hqueue⟩
    | cons key queue =>
      have hroom := (explored_foldl_visit log start key (newTips log tipsFor { c with queue := queue } key)
        { c with queue := queue }).grows.room
      refine ih (hinv.explore hqueue) ?_
      rw [hqueue, length_cons] at hn
      change (Closure.explore log tipsFor { c with queue := queue } key).queue.length + c.anchors.length ≤
        queue.length + (Closure.explore log tipsFor { c with queue := queue } key).anchors.length at hroom
      omega

/-- A closure with nothing queued has visited all the locations of its definition. -/
theorem Inv.visited_of_visits {first k : Bytes} {t : Tip} (hinv : Inv log tipsFor start c) (hqueue : c.queue = [])
    (hfirst : first ∈ start) (h : Visits log tipsFor first k t) : k ∈ c.keys ∧ (k, t) ∈ c.visited := by
  have hdone : ∀ {k t}, k ∈ c.keys → t ∈ tipsFor k ∨ (k, t) ∈ c.anchors → (k, t) ∈ c.visited :=
    fun hk ht => hinv.done hk (by simp [hqueue]) ht
  have hlink : ∀ {key other t}, key ∈ c.keys → (key, t) ∈ c.visited → other ∈ bindKeys log t →
      other ∈ c.keys ∧ (other, t) ∈ c.visited := by
    intro key other t hkey hvisited hbind
    by_cases heq : other = key
    · exact heq ▸ ⟨hkey, hvisited⟩
    · have hanchor := hinv.anchor_iff.mpr ⟨key, hvisited, hbind, heq⟩
      have hother := hinv.ledger.mem_keys.mpr (.inr ⟨t, hanchor⟩)
      exact ⟨hother, hdone hother (.inr hanchor)⟩
  induction h with
  | tip ht =>
    have hkey := hinv.ledger.mem_keys.mpr (.inl hfirst)
    exact ⟨hkey, hdone hkey (.inl ht)⟩
  | dep _ hu ih => exact ⟨ih.1, hinv.closed ih.2 hu⟩
  | anchor _ hbind ih => exact hlink ih.1 ih.2 hbind
  | linked _ hbind hu ih =>
    have hother := (hlink ih.1 ih.2 hbind).1
    exact ⟨hother, hdone hother (.inl hu)⟩

end Closure

end swytch.effects
