import Swytch.Effects.VertexPool

open swytch.proto Function List Finmap Option Except
open Int32 hiding not_not

namespace swytch.effects

open List.Subset

open VertexPool

inductive PoolOp where
  | put (tip : Tip) (eff : Effect)
  | putSized (tip : Tip) (eff : Effect) (owns : Option (Bytes → Bool))
  | putSizedCache (tip : Tip) (eff : Effect)
  | incref (tip : Tip)
  | decref (tip : Tip)
  | decrefChainNode (key : Bytes) (tip : Tip)
  | drainReclaim

/-- A pool, and how many references its callers hold on each tip. -/
structure PoolState where
  pool : VertexPool := {}
  outstanding : Tip → Nat := fun _ => 0

namespace PoolState

variable (s : PoolState)

def step : PoolOp → Except PoolFault PoolState
  | .put tip eff => .ok { s with pool := s.pool.putSized tip eff none }
  | .putSized tip eff owns => .ok { s with pool := s.pool.putSized tip eff owns }
  | .putSizedCache tip eff => .ok { s with pool := s.pool.putSizedCache tip eff }
  | .incref tip =>
    .ok
      { pool := (s.pool.incref tip).1
        outstanding :=
          if (s.pool.incref tip).2 then update s.outstanding tip (s.outstanding tip + 1)
          else s.outstanding }
  | .decref tip =>
    (s.pool.decref tip).map (⟨·, update s.outstanding tip (s.outstanding tip - 1)⟩)
  | .decrefChainNode key tip => (s.pool.decrefChainNode key tip).map (fun r => { s with pool := r.1 })
  | .drainReclaim => s.pool.drainReclaim.map (fun p => { s with pool := p })

/-- A caller gives back only references it holds. -/
def matched : PoolOp → Prop
  | .decref tip => 0 < s.outstanding tip
  | _ => True

/-- The references on every resident vertex can be counted in an `int32`. -/
def Fits : Prop :=
  ∀ tip v, s.pool.m.lookup tip = some v → v.creationKeys.length + s.outstanding tip < 2 ^ 31

/-- The sequences of calls whose steps all meet a condition. -/
def Run (ok : PoolState → PoolOp → Prop) (s t : PoolState) : Prop :=
  lib.Run (fun s op => (s.step op).toOption) ok s t

def countsFit (op : PoolOp) : Prop :=
  s.matched op ∧ ∀ t, s.step op = .ok t → t.Fits

instance (s : PoolState) (op : PoolOp) : Decidable (s.matched op) :=
  match op with
  | .decref tip => inferInstanceAs (Decidable (0 < s.outstanding tip))
  | .put _ _ | .putSized _ _ _ | .putSizedCache _ _ | .incref _ | .decrefChainNode _ _ | .drainReclaim =>
    isTrue trivial

instance (s : PoolState) : Decidable s.Fits :=
  decidable_of_iff (∀ tip ∈ s.pool.m.keys,
    (s.pool.m.lookup tip).all (fun v => v.creationKeys.length + s.outstanding tip < 2 ^ 31) = true) <| by
    constructor
    · intro hall tip v hv
      have hfit := hall tip (mem_keys.mpr (mem_iff.mpr ⟨v, hv⟩))
      simpa [hv] using hfit
    · intro hfits tip htip
      obtain ⟨v, hv⟩ := mem_iff.mp (mem_keys.mp htip)
      simpa [hv] using hfits tip v hv

instance (s : PoolState) (op : PoolOp) : Decidable (s.countsFit op) :=
  decidable_of_iff (s.matched op ∧ (s.step op).toOption.all (fun t => t.Fits) = true) <| by
    rw [countsFit]
    cases s.step op <;> simp [Except.toOption]

end PoolState

/-- What the count of a vertex, its owners and the reclaim queue say of each other,
when the callers hold `n` references. -/
structure Vertex.Exact (v : Vertex) (n : Nat) (queued : Prop) : Prop where
  counted : v.refs = ofNat (v.creationKeys.length + n)
  sorted : v.creationKeys.Pairwise (· < ·)
  queued : v.refs = 0 → isSystemKey v.eff.key = false → queued

variable {s : PoolState} {p : VertexPool} {tip : Tip} {v : Vertex} {n : Nat} {owns : Option (Bytes → Bool)}
  {eff : Effect} {op : PoolOp}

namespace PoolState

structure Exact (s : PoolState) : Prop where
  resident : ∀ tip v, s.pool.m.lookup tip = some v → v.Exact (s.outstanding tip) (tip ∈ s.pool.reclaimQueue)
  absent : ∀ tip, s.pool.m.lookup tip = none → s.outstanding tip = 0
  pending : s.pool.reclaimPending = s.pool.reclaimQueue.length

theorem exact_empty : Exact {} :=
  ⟨fun _ _ hv => (by cases hv), fun _ _ => rfl, rfl⟩

/-- A vertex is replaced, and at most its tip is queued. -/
theorem Exact.replace (h : Exact s) (hm : p.m = s.pool.m.insert tip v)
    (hqueue : s.pool.reclaimQueue ⊆ p.reclaimQueue) (hpending : p.reclaimPending = p.reclaimQueue.length)
    (hv : v.Exact n (tip ∈ p.reclaimQueue)) : Exact ⟨p, update s.outstanding tip n⟩ := by
  refine ⟨?_, ?_, hpending⟩
  · intro t w hw
    dsimp only at hw ⊢
    rw [hm] at hw
    by_cases ht : t = tip
    · subst ht
      rw [lookup_insert] at hw
      cases hw
      rw [update_self]
      exact hv
    · rw [lookup_insert_of_ne _ ht] at hw
      rw [update_of_ne ht]
      obtain ⟨hcounted, hsorted, hqueued⟩ := h.resident t w hw
      exact ⟨hcounted, hsorted, fun hzero hsystem => hqueue (hqueued hzero hsystem)⟩
  · intro t ht
    dsimp only at ht ⊢
    rw [hm] at ht
    have hne : t ≠ tip := by
      rintro rfl
      rw [lookup_insert] at ht
      cases ht
    rw [lookup_insert_of_ne _ hne] at ht
    rw [update_of_ne hne]
    exact h.absent t ht

theorem toInt_count (hfit : n < 2 ^ 31) : (ofNat n).toInt = n :=
  toInt_ofNat_of_lt hfit

theorem count_eq_zero_iff (hfit : n < 2 ^ 31) : ofNat n = 0 ↔ n = 0 := by
  rw [← toInt_inj, toInt_count hfit, toInt_zero]
  omega

theorem count_not_neg (hfit : n < 2 ^ 31) : ¬ ofNat n < 0 := by
  rw [lt_iff_toInt_lt, toInt_count hfit, toInt_zero]
  omega

theorem count_succ (n : Nat) : ofNat (n + 1) = ofNat n + 1 :=
  ofNat_add n 1

theorem count_succ_sub (n : Nat) : ofNat (n + 1) - 1 = ofNat n := by
  rw [count_succ, Int32.add_sub_cancel]

end PoolState

theorem missingCreationKeys_disjoint {existing : List Bytes}
    (hsorted : existing.Pairwise (· < ·)) {key : Bytes} (hkey : key ∈ missingCreationKeys eff existing owns) :
    key ∉ existing := by
  rw [missingCreationKeys, lib.mem_sortCompact_iff, mem_filter, Bool.and_eq_true, Bool.not_eq_true'] at hkey
  intro hmem
  rw [(lib.binarySearch_snd_iff hsorted).mpr hmem] at hkey
  exact Bool.noConfusion hkey.2.2

/-- Owners are added in order and without repetition. -/
theorem pairwise_own {existing keys : List Bytes} (hexisting : existing.Pairwise (· < ·))
    (hkeys : keys.Pairwise (· < ·)) (hdisjoint : ∀ key ∈ keys, key ∉ existing) :
    ((existing ++ keys).insertionSort (· ≤ ·)).Pairwise (· < ·) := by
  have hnodup : (existing ++ keys).Nodup := by
    rw [nodup_append']
    exact ⟨hexisting.imp ne_of_lt, hkeys.imp ne_of_lt, fun key hold hnew => hdisjoint key hnew hold⟩
  have hsorted := pairwise_insertionSort (· ≤ ·) (existing ++ keys)
  have hnodup' := (perm_insertionSort (· ≤ ·) (existing ++ keys)).nodup_iff.mpr hnodup
  exact (hsorted.and hnodup').imp (fun hab => lt_of_le_of_ne hab.1 hab.2)

namespace PoolState

theorem Exact.put (h : Exact s) {take : Bool}
    (hfits : Fits ⟨s.pool.put tip eff take owns, s.outstanding⟩) :
    Exact ⟨s.pool.put tip eff take owns, s.outstanding⟩ := by
  have hself : update s.outstanding tip (s.outstanding tip) = s.outstanding := update_eq_self ..
  rw [← hself]
  unfold VertexPool.put at hfits ⊢
  cases hlookup : s.pool.m.lookup tip with
  | none =>
    simp only [hlookup] at hfits ⊢
    set keys := if take then missingCreationKeys eff [] owns else [] with hkeys
    have hsorted : keys.Pairwise (· < ·) := by
      rw [hkeys]
      split
      · exact lib.pairwise_sortCompact _
      · exact List.Pairwise.nil
    have hnone := h.absent tip hlookup
    by_cases hempty : keys.isEmpty
    · rw [if_pos hempty]
      refine h.replace rfl (subset_append_left _ _) ?_ ⟨?_, hsorted, ?_⟩
      · simp [enqueueReclaim, store, h.pending]
      · rw [hnone, Nat.add_zero]
      · exact fun _ _ => mem_append_right _ (mem_singleton_self tip)
    · rw [if_neg hempty] at hfits ⊢
      have hfit := hfits tip _ (lookup_insert _)
      refine h.replace rfl (refl _) h.pending ⟨?_, hsorted, ?_⟩
      · rw [hnone, Nat.add_zero]
      · intro hzero
        rw [count_eq_zero_iff (by simp only at hfit; omega)] at hzero
        exact absurd (List.isEmpty_iff.mpr (length_eq_zero_iff.mp hzero)) hempty
  | some v =>
    simp only [hlookup] at hfits ⊢
    have hv := h.resident tip v hlookup
    cases take with
    | false =>
      rw [hself]
      exact h
    | true =>
      simp only [if_true] at hfits ⊢
      have hfit := hfits tip _ (lookup_insert _)
      set keys := missingCreationKeys eff v.creationKeys owns with hkeys
      by_cases hkeep : keys.isEmpty ∨ v.refs < 0
      · rw [Vertex.own, if_pos hkeep] at hfit ⊢
        exact h.replace rfl (refl _) h.pending hv
      · rw [Vertex.own, if_neg hkeep] at hfit ⊢
        have hpos : 0 < keys.length := by
          rw [length_pos_iff, ne_eq, ← List.isEmpty_iff]
          exact fun hempty => hkeep (.inl hempty)
        have hlength : ((v.creationKeys ++ keys).insertionSort (· ≤ ·)).length =
            v.creationKeys.length + keys.length := by
          rw [length_insertionSort, length_append]
        have hcounted : v.refs + ofNat keys.length =
            ofNat (v.creationKeys.length + keys.length + s.outstanding tip) := by
          rw [hv.counted, ← ofNat_add]
          congr 1
          omega
        dsimp only at hfit
        refine h.replace rfl (refl _) h.pending ⟨?_, ?_, ?_⟩
        · rw [hlength]
          exact hcounted
        · exact pairwise_own hv.sorted (lib.pairwise_sortCompact _) (fun key => missingCreationKeys_disjoint hv.sorted)
        · intro hzero
          dsimp only at hzero
          rw [hcounted, count_eq_zero_iff (by omega)] at hzero
          omega

/-- A reference is given back, and the vertex is queued when it was the last one. -/
theorem Exact.release (h : Exact s) (hlookup : p.m.lookup tip = some v)
    (hm : ∀ w, p.m.insert tip w = s.pool.m.insert tip w) (hqueue : p.reclaimQueue = s.pool.reclaimQueue)
    (hpending : p.reclaimPending = s.pool.reclaimPending)
    (hcount : v.refs = ofNat (v.creationKeys.length + n + 1)) (hfit : v.creationKeys.length + n + 1 < 2 ^ 31)
    (hsorted : v.creationKeys.Pairwise (· < ·)) :
    ∃ q, p.decref tip = .ok q ∧ Exact ⟨q, update s.outstanding tip n⟩ := by
  have hfit' : v.creationKeys.length + n < 2 ^ 31 := by omega
  unfold decref
  simp only [hlookup, hcount, count_succ_sub, if_neg (count_not_neg hfit'), count_eq_zero_iff hfit']
  refine ⟨_, rfl, ?_⟩
  split
  · refine h.replace (hm _) ?_ ?_ ⟨rfl, hsorted, ?_⟩
    · rw [← hqueue]
      exact subset_append_left _ _
    · simp [enqueueReclaim, store, hpending, hqueue, h.pending]
    · exact fun _ _ => mem_append_right _ (mem_singleton_self tip)
  · rename_i hpositive
    refine h.replace (hm _) ?_ ?_ ⟨rfl, hsorted, ?_⟩
    · rw [← hqueue]
      exact refl _
    · simp [store, hpending, hqueue, h.pending]
    · intro hzero
      exact absurd ((count_eq_zero_iff hfit').mp hzero) hpositive

theorem Exact.incref (h : Exact s) (hlookup : s.pool.m.lookup tip = some v)
    (hfits : Fits ⟨s.pool.store tip { v with refs := v.refs + 1 },
      update s.outstanding tip (s.outstanding tip + 1)⟩) :
    Exact ⟨s.pool.store tip { v with refs := v.refs + 1 },
      update s.outstanding tip (s.outstanding tip + 1)⟩ := by
  have hv := h.resident tip v hlookup
  have hfit := hfits tip _ (lookup_insert _)
  simp only [update_self] at hfit
  have hcounted : v.refs + 1 = ofNat (v.creationKeys.length + (s.outstanding tip + 1)) := by
    rw [hv.counted, ← Nat.add_assoc, count_succ]
  refine h.replace rfl (refl _) h.pending ⟨hcounted, hv.sorted, ?_⟩
  intro hzero
  dsimp only at hzero
  rw [hcounted, count_eq_zero_iff hfit] at hzero
  omega

/-- A reference that a caller holds can be given back. -/
theorem Exact.decref (h : Exact s) (hfits : s.Fits) (hmatched : 0 < s.outstanding tip) :
    ∃ p, s.pool.decref tip = .ok p ∧ Exact ⟨p, update s.outstanding tip (s.outstanding tip - 1)⟩ := by
  cases hlookup : s.pool.m.lookup tip with
  | none =>
    rw [h.absent tip hlookup] at hmatched
    omega
  | some v =>
    have hv := h.resident tip v hlookup
    have hfit := hfits tip v hlookup
    have hcount : v.refs = ofNat (v.creationKeys.length + (s.outstanding tip - 1) + 1) := by
      rw [hv.counted]
      congr 1
      omega
    exact h.release hlookup (fun _ => rfl) rfl rfl hcount (by omega) hv.sorted

/-- The creation reference of a key is released at most once. -/
theorem Exact.decrefChainNode (h : Exact s) (hfits : s.Fits) (key : Bytes) (tip : Tip) :
    ∃ r, s.pool.decrefChainNode key tip = .ok r ∧ Exact ⟨r.1, s.outstanding⟩ := by
  unfold VertexPool.decrefChainNode
  cases hlookup : s.pool.m.lookup tip with
  | none => exact ⟨_, rfl, h⟩
  | some v =>
    have hv := h.resident tip v hlookup
    have hfit := hfits tip v hlookup
    dsimp only
    cases hsearch : lib.binarySearch v.creationKeys key with
    | mk i found =>
      cases found with
      | false => exact ⟨_, rfl, h⟩
      | true =>
        obtain ⟨hi, -⟩ := List.getElem?_eq_some_iff.mp (lib.getElem?_of_binarySearch hsearch)
        have hlength := length_eraseIdx_of_lt hi
        have hcount : v.refs =
            ofNat ((v.creationKeys.eraseIdx i).length + s.outstanding tip + 1) := by
          rw [hv.counted]
          congr 1
          omega
        obtain ⟨q, hq, hexact⟩ := h.release (lookup_insert _) (fun _ => insert_insert _)
          (p := s.pool.store tip { v with creationKeys := v.creationKeys.eraseIdx i }) rfl rfl hcount
          (by dsimp only; omega) (hv.sorted.sublist (eraseIdx_sublist _ _))
        rw [update_eq_self] at hexact
        exact ⟨(q, some v.eff), by simp only [hq, Except.map], hexact⟩

/-- What survives a drain if its tip is queued. -/
def live (v : Vertex) : Bool :=
  isSystemKey v.eff.key || v.refs ≠ 0

theorem lookup_claimQueued (p : VertexPool) (tip t : Tip) :
    (p.claimQueued tip).m.lookup t =
      if t = tip then (p.m.lookup t).filter live else p.m.lookup t := by
  unfold claimQueued
  by_cases ht : t = tip
  · subst ht
    rw [if_pos rfl]
    cases hlookup : p.m.lookup t with
    | none => exact hlookup
    | some v =>
      simp only [elim_some, claimAndDelete, filter_some, live]
      by_cases hsystem : isSystemKey v.eff.key
      · simp [hsystem, hlookup]
      · by_cases hzero : v.refs = 0
        · simp [hsystem, hzero]
        · simp [hsystem, hzero, hlookup]
  · rw [if_neg ht]
    cases p.m.lookup tip with
    | none => rfl
    | some v =>
      simp only [elim_some, claimAndDelete]
      split
      · rfl
      · split
        · exact lookup_erase_ne ht
        · rfl

theorem claimQueued_queue (p : VertexPool) (tip : Tip) :
    (p.claimQueued tip).reclaimQueue = p.reclaimQueue ∧
      (p.claimQueued tip).reclaimPending = p.reclaimPending := by
  unfold claimQueued
  cases p.m.lookup tip with
  | none => exact ⟨rfl, rfl⟩
  | some v =>
    simp only [elim_some, claimAndDelete]
    split
    · exact ⟨rfl, rfl⟩
    · split <;> exact ⟨rfl, rfl⟩

theorem filter_live_filter (o : Option Vertex) : (o.filter live).filter live = o.filter live := by
  rw [Option.filter_filter]
  simp

/-- The loop takes the candidates one by one; none of them is looked at twice in vain. -/
theorem drainLoop_spec (queue : List Tip) (hqueue : p.reclaimQueue = queue) :
    ∃ q, drainLoop queue.length p = .ok q ∧ q.reclaimQueue = [] ∧
      q.reclaimPending = p.reclaimPending ∧
      ∀ t, q.m.lookup t = if t ∈ queue then (p.m.lookup t).filter live else p.m.lookup t := by
  induction queue generalizing p with
  | nil => exact ⟨p, rfl, hqueue, rfl, fun t => by simp⟩
  | cons tip rest ih =>
    obtain ⟨hrest, hpending⟩ := claimQueued_queue { p with reclaimQueue := rest } tip
    obtain ⟨q, hq, hempty, hcount, hlookup⟩ := ih hrest
    refine ⟨q, ?_, hempty, hcount.trans hpending, ?_⟩
    · simp only [length_cons, drainLoop, hqueue]
      exact hq
    · intro t
      rw [hlookup, lookup_claimQueued]
      by_cases ht : t = tip
      · subst ht
        simp only [if_pos, mem_cons_self, filter_live_filter, ite_self]
      · simp only [mem_cons, ht, false_or, if_false]

/-- A drain frees every unreferenced vertex that is not pinned, and nothing else. -/
theorem Exact.lookup_drainReclaim (h : Exact s) :
    ∃ p, s.pool.drainReclaim = .ok p ∧ p.reclaimQueue = [] ∧ p.reclaimPending = 0 ∧
      ∀ t, p.m.lookup t = (s.pool.m.lookup t).filter live := by
  have hspec := drainLoop_spec (p := { s.pool with reclaimPending := 0 }) s.pool.reclaimQueue rfl
  rw [← h.pending] at hspec
  obtain ⟨q, hq, hempty, hcount, hlookup⟩ := hspec
  refine ⟨q, hq, hempty, hcount, ?_⟩
  intro t
  rw [hlookup]
  split
  · rfl
  · rename_i hnot
    cases ht : s.pool.m.lookup t with
    | none => rfl
    | some v =>
      rw [filter_some_pos]
      simp only [live, Bool.or_eq_true, decide_eq_true_eq]
      by_contra hdead
      rw [not_or, Bool.not_eq_true, not_not] at hdead
      exact hnot ((h.resident t v ht).queued hdead.2 hdead.1)

theorem Exact.drainReclaim (h : Exact s) (hfits : s.Fits) (hempty : p.reclaimQueue = [])
    (hcount : p.reclaimPending = 0) (hlookup : ∀ t, p.m.lookup t = (s.pool.m.lookup t).filter live) :
    Exact ⟨p, s.outstanding⟩ := by
  refine ⟨?_, ?_, ?_⟩
  · intro t v hv
    dsimp only at hv
    rw [hlookup, filter_eq_some_iff] at hv
    obtain ⟨hcounted, hsorted, -⟩ := h.resident t v hv.1
    refine ⟨hcounted, hsorted, fun hzero hsystem => ?_⟩
    have hlive := hv.2
    simp [live, hzero, hsystem] at hlive
  · intro t ht
    dsimp only at ht ⊢
    rw [hlookup] at ht
    cases hold : s.pool.m.lookup t with
    | none => exact h.absent t hold
    | some v =>
      have hfit := hfits t v hold
      rw [hold] at ht
      have hdead : live v = false := by
        rw [← Bool.not_eq_true]
        intro hlive
        rw [filter_some_pos hlive] at ht
        cases ht
      simp only [live, Bool.or_eq_false_iff, decide_eq_false_iff_not, not_not] at hdead
      have hzero := hdead.2
      rw [(h.resident t v hold).counted, count_eq_zero_iff hfit] at hzero
      omega
  · rw [hempty, hcount]
    rfl

/-- No call that gives back only what is held panics or blocks. -/
theorem Exact.step_ok (h : Exact s) (hfits : s.Fits) (hmatched : s.matched op) :
    ∃ t, s.step op = .ok t := by
  cases op with
  | put tip eff => exact ⟨_, rfl⟩
  | putSized tip eff owns => exact ⟨_, rfl⟩
  | putSizedCache tip eff => exact ⟨_, rfl⟩
  | incref tip => exact ⟨_, rfl⟩
  | decref tip =>
    obtain ⟨p, hp, -⟩ := h.decref hfits hmatched
    exact ⟨⟨p, _⟩, by rw [step, hp]; rfl⟩
  | decrefChainNode key tip =>
    obtain ⟨r, hr, -⟩ := h.decrefChainNode hfits key tip
    exact ⟨⟨r.1, _⟩, by rw [step, hr]; rfl⟩
  | drainReclaim =>
    obtain ⟨p, hp, -⟩ := h.lookup_drainReclaim
    exact ⟨⟨p, _⟩, by rw [step, hp]; rfl⟩

theorem Exact.step {t : PoolState} (h : Exact s) (hfits : s.Fits) (hmatched : s.matched op)
    (hstep : s.step op = .ok t) (hfits' : t.Fits) : Exact t := by
  cases op with
  | put tip eff =>
    cases hstep
    exact h.put hfits'
  | putSized tip eff owns =>
    cases hstep
    exact h.put hfits'
  | putSizedCache tip eff =>
    cases hstep
    exact h.put hfits'
  | incref tip =>
    cases hstep
    unfold VertexPool.incref at hfits' ⊢
    cases hlookup : s.pool.m.lookup tip with
    | none =>
      simp only [Bool.false_eq_true, if_false]
      exact h
    | some v =>
      simp only [hlookup] at hfits' ⊢
      by_cases hclaimed : v.refs < 0
      · simp only [if_pos hclaimed, Bool.false_eq_true, if_false]
        exact h
      · simp only [if_neg hclaimed, if_true] at hfits' ⊢
        exact h.incref hlookup hfits'
  | decref tip =>
    obtain ⟨p, hp, hexact⟩ := h.decref hfits hmatched
    simp only [PoolState.step, hp, Except.map] at hstep
    cases hstep
    exact hexact
  | decrefChainNode key tip =>
    obtain ⟨r, hr, hexact⟩ := h.decrefChainNode hfits key tip
    simp only [PoolState.step, hr] at hstep
    cases hstep
    exact hexact
  | drainReclaim =>
    obtain ⟨p, hp, hempty, hcount, hlookup⟩ := h.lookup_drainReclaim
    simp only [PoolState.step, hp, Except.map] at hstep
    cases hstep
    exact h.drainReclaim hfits hempty hcount hlookup

theorem fits_empty : Fits {} :=
  fun _ _ hv => (by cases hv)

theorem Exact.run (hrun : Run countsFit {} s) : Exact s ∧ s.Fits := by
  refine hrun.invariant (P := fun s => Exact s ∧ s.Fits) ⟨exact_empty, fits_empty⟩ ?_
  rintro s op t ⟨hexact, hfits⟩ ⟨hmatched, hfits'⟩ hstep
  have hstep : s.step op = .ok t := by
    cases hresult : s.step op with
    | error e => simp [hresult, Except.toOption] at hstep
    | ok u =>
      simp only [hresult, Except.toOption, some.injEq] at hstep
      rw [hstep]
  exact ⟨hexact.step hfits hmatched hstep (hfits' t hstep), hfits' t hstep⟩

/-- As long as the references on a vertex fit an `int32`, every count is the number of
owners and pins, no release panics, the queue holds every reclaimable vertex and a
drain frees exactly those. -/
theorem refcounts_exact {s : PoolState} (hrun : Run countsFit {} s) :
    (∀ tip v, s.pool.m.lookup tip = some v →
      v.refs.toInt = v.creationKeys.length + s.outstanding tip ∧
      v.creationKeys.Pairwise (· < ·) ∧
      (v.refs = 0 → isSystemKey v.eff.key = false → tip ∈ s.pool.reclaimQueue)) ∧
    (∀ op, s.matched op → ∃ t, s.step op = .ok t) ∧
    ∃ p, s.pool.drainReclaim = .ok p ∧ ∀ tip, p.m.lookup tip = (s.pool.m.lookup tip).filter live := by
  obtain ⟨hexact, hfits⟩ := Exact.run hrun
  refine ⟨?_, fun op => hexact.step_ok hfits, ?_⟩
  · intro tip v hv
    obtain ⟨hcounted, hsorted, hqueued⟩ := hexact.resident tip v hv
    refine ⟨?_, hsorted, hqueued⟩
    rw [hcounted, toInt_count (hfits tip v hv)]
    exact Int.natCast_add _ _
  · obtain ⟨p, hp, -, -, hlookup⟩ := hexact.lookup_drainReclaim
    exact ⟨p, hp, hlookup⟩

/-- A vertex that its key and a reader give up is queued, and the next drain frees it. -/
theorem refcounts_exact_after_release :
    ∃ s : PoolState, s.pool.reclaimQueue = [⟨1, 1⟩] ∧
      ∃ p, s.pool.drainReclaim = .ok p ∧ ∀ tip, p.m.lookup tip = (s.pool.m.lookup tip).filter live := by
  obtain ⟨s, hrun, hqueue⟩ := @lib.exists_run_of_perform _ _ (fun s op => (step s op).toOption) countsFit _
    (fun s => s.pool.reclaimQueue = [⟨1, 1⟩]) _
    [.put ⟨1, 1⟩ { key := [107], kind := .noop }, .incref ⟨1, 1⟩, .decrefChainNode [107] ⟨1, 1⟩, .decref ⟨1, 1⟩] {}
    (by decide)
  exact ⟨s, hqueue, (refcounts_exact hrun).2.2⟩

theorem exists_run_incref {e : Effect} (hkeys : keyBinds e = []) (hn : n < 2 ^ 31) :
    ∃ s, Run matched {} s ∧ s.outstanding ⟨1, 1⟩ = n ∧
      s.pool.m.lookup ⟨1, 1⟩ = some { eff := e, refs := ofNat (n + 1), creationKeys := [e.key] } := by
  induction n with
  | zero =>
    have hmissing : missingCreationKeys e [] none = [e.key] := by
      simp [missingCreationKeys, tipKeys, hkeys, lib.binarySearch, lib.sortCompact]
    refine ⟨_, .next (a := .put ⟨1, 1⟩ e) .start trivial rfl, rfl, ?_⟩
    simp [putSized, put, lookup_empty, hmissing, store]
  | succ n ih =>
    obtain ⟨s, hrun, hout, hlookup⟩ := ih (by omega)
    have hincref : s.pool.incref ⟨1, 1⟩ =
        (s.pool.store ⟨1, 1⟩ { eff := e, refs := ofNat (n + 1 + 1), creationKeys := [e.key] }, true) := by
      rw [incref, hlookup]
      dsimp only
      rw [if_neg (count_not_neg hn), ← count_succ]
    refine ⟨_, .next (a := .incref ⟨1, 1⟩) hrun trivial rfl, ?_, ?_⟩
    · rw [hincref]
      simp [hout]
    · rw [hincref]
      exact lookup_insert _

/-- With `2 ^ 31 - 1` references besides the owner the count of a vertex is negative. -/
theorem refcount_wraps :
    ∃ s, Run matched {} s ∧ ∃ tip v, s.pool.m.lookup tip = some v ∧
      v.refs.toInt ≠ v.creationKeys.length + s.outstanding tip := by
  obtain ⟨s, hrun, hout, hlookup⟩ := exists_run_incref (e := { key := [107], kind := .noop }) rfl
    (show 2 ^ 31 - 1 < 2 ^ 31 by omega)
  refine ⟨s, hrun, _, _, hlookup, ?_⟩
  rw [hout]
  decide

end PoolState

end swytch.effects
