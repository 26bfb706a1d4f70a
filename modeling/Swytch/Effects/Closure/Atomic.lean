import Swytch.Effects.Closure.Fixpoint

open swytch.lib swytch.proto Option

namespace swytch.effects

open Visits

open Closure

theorem bindKeyClosure_inv (log : Log) (tipsFor : Bytes → List Tip) (key : Bytes) :
    (bindKeyClosure log tipsFor key).Inv log tipsFor [key] ∧ (bindKeyClosure log tipsFor key).queue = [] := by
  refine (inv_start log tipsFor Iff.rfl Iff.rfl).closureLoop ?_
  simp

variable {log : Log} {tipsFor : Bytes → List Tip} {start k : Bytes} {t : Tip}

/-- The closure visits exactly the locations of its definition, on keys it holds. -/
theorem visited_of_visits (h : Visits log tipsFor start k t) :
    k ∈ (bindKeyClosure log tipsFor start).keys ∧ (k, t) ∈ (bindKeyClosure log tipsFor start).visited :=
  (bindKeyClosure_inv log tipsFor start).1.visited_of_visits (bindKeyClosure_inv log tipsFor start).2
    (List.mem_singleton_self start) h

theorem mem_visited_iff : (k, t) ∈ (bindKeyClosure log tipsFor start).visited ↔ Visits log tipsFor start k t := by
  refine ⟨fun h => ?_, fun h => (visited_of_visits h).2⟩
  obtain ⟨s, hs, hvisits⟩ := (bindKeyClosure_inv log tipsFor start).1.sound h
  exact List.mem_singleton.mp hs ▸ hvisits

theorem mem_bindsByKey_iff : t ∈ (bindKeyClosure log tipsFor start).bindsByKey k ↔ Anchored log tipsFor start k t := by
  rw [bindsByKey, mem_onKey_iff, (bindKeyClosure_inv log tipsFor start).1.anchor_iff]
  simp only [mem_visited_iff, Anchored]

theorem mem_closure_keys_iff :
    k ∈ (bindKeyClosure log tipsFor start).keys ↔ k = start ∨ ∃ t, Anchored log tipsFor start k t := by
  rw [(bindKeyClosure_inv log tipsFor start).1.ledger.mem_keys, List.mem_singleton]
  simp only [← mem_bindsByKey_iff, bindsByKey, mem_onKey_iff]

/-- No transaction is named won by one snapshot of the log and lost by another. -/
def VerdictsAgree (log : Log) : Prop :=
  ∀ u u' txnID o o', verdictAt log u txnID = some o → verdictAt log u' txnID = some o' → o = o'

theorem verdictsAgree_of_no_snapshot (h : ∀ t ∈ log.keys, (log.lookup t).any isSnapshot = false) :
    VerdictsAgree log := by
  intro u u' txnID o o' hu
  cases hlookup : log.lookup u with
  | none => simp [verdictAt, hlookup] at hu
  | some eff =>
    have hkind := h u (Finmap.mem_keys.mpr (Finmap.mem_of_lookup_eq_some hlookup))
    simp only [hlookup, any_some, isSnapshot] at hkind
    simp only [verdictAt, hlookup] at hu
    split at hu
    · simp_all
    · cases hu

theorem closure_verdicts_eq_some_iff (hagree : VerdictsAgree log) {txnID : Bytes} {o : Outcome} :
    (bindKeyClosure log tipsFor start).verdicts txnID = some o ↔
      ∃ k t, Visits log tipsFor start k t ∧ verdictAt log t txnID = some o := by
  rw [(bindKeyClosure_inv log tipsFor start).1.verdicts, harvest_eq_some_iff]
  · simp only [reduceCtorEq, false_or, List.mem_map, Prod.exists, exists_eq_right, ← mem_visited_iff]
    constructor
    · rintro ⟨t, ⟨k, hk⟩, hverdict⟩
      exact ⟨k, t, hk, hverdict⟩
    · rintro ⟨k, t, hk, hverdict⟩
      exact ⟨t, ⟨k, hk⟩, hverdict⟩
  · rintro txnID o o' (hnone | ⟨t, -, ht⟩) (hnone' | ⟨t', -, ht'⟩)
    · cases hnone
    · cases hnone
    · cases hnone'
    · exact hagree t t' txnID o o' ht ht'

/-- The verdicts of a closure and those of any history of the log agree. -/
theorem undisputed_closure (hagree : VerdictsAgree log) {visited : Set Tip} :
    Undisputed log (bindKeyClosure log tipsFor start).verdicts visited := by
  have hsource : ∀ {txnID o}, ((bindKeyClosure log tipsFor start).verdicts txnID = some o ∨
      ∃ t ∈ visited, verdictAt log t txnID = some o) → ∃ t, verdictAt log t txnID = some o := by
    rintro txnID o (hseed | ⟨t, -, ht⟩)
    · obtain ⟨-, t, -, ht⟩ := (closure_verdicts_eq_some_iff hagree).mp hseed
      exact ⟨t, ht⟩
    · exact ⟨t, ht⟩
  intro txnID o o' h h'
  obtain ⟨t, ht⟩ := hsource h
  obtain ⟨t', ht'⟩ := hsource h'
  exact hagree t t' txnID o o' ht ht'

/-- The dependencies of an effect on a key, with nothing below a state snapshot. -/
def openDeps (log : Log) (key : Bytes) (t : Tip) : List Tip :=
  if (log.lookup t).any isStateSnapshot then [] else depsOf log key t

theorem openDeps_subset (log : Log) (key : Bytes) (t : Tip) : openDeps log key t ⊆ historyDeps log key t := by
  intro u hu
  unfold openDeps at hu
  split at hu
  · cases hu
  · rename_i hopen
    unfold historyDeps
    cases hlookup : log.lookup t with
    | none => simp [depsOf, hlookup] at hu
    | some eff =>
      simp only [hlookup, any_some, isStateSnapshot, depsOf, elim_some] at hopen hu ⊢
      split
      · rename_i snap hkind
        simp only [hkind, Bool.not_eq_true, isSome_eq_false_iff] at hopen
        simp only [keyDeps, hkind] at hu
        simp [hopen, hu]
      · exact hu

theorem visits_of_open (h : ∃ s ∈ tipsFor k, Reach (openDeps log k) s t) : Visits log tipsFor k k t := by
  obtain ⟨s, hs, hst⟩ := h
  exact visits_of_reach (tip hs) (hst.mono (openDeps_subset log k))

/-- A key linked by a bind of the closure brings its whole closure with it. -/
theorem visits_of_linked {k₁ k₂ : Bytes} (ht : Visits log tipsFor k₂ k₂ t) (hbind : k₁ ∈ bindKeys log t)
    {u : Tip} (hu : Visits log tipsFor k₁ k u) : Visits log tipsFor k₂ k u := by
  induction hu with
  | tip h => exact linked ht hbind h
  | dep _ h ih => exact dep ih h
  | anchor _ h ih => exact anchor ih h
  | linked _ h h' ih => exact linked ih h h'

/-- Losses are atomic over the keys of a bind: if a bind can be reached from the
tips of two of its keys without crossing a state snapshot, reads of the two keys
leave out the same transactions. -/
theorem atomicallyLost_eq_of_shared_bind {rt : Runtime} {log : Log} {tipsFor : Bytes → List Tip}
    {isInvisible : Bytes → Bool} {probes probes' : Bytes → List Tip} {k₁ k₂ : Bytes} {t : Tip}
    (hk₁ : k₁ ∈ bindKeys log t) (hk₂ : k₂ ∈ bindKeys log t) (ht₁ : ∃ s ∈ tipsFor k₁, Reach (openDeps log k₁) s t)
    (ht₂ : ∃ s ∈ tipsFor k₂, Reach (openDeps log k₂) s t) (hagree : VerdictsAgree log) :
    atomicallyLost rt log tipsFor isInvisible probes k₁ = atomicallyLost rt log tipsFor isInvisible probes' k₂ := by
  have hv₁ := visits_of_open ht₁
  have hv₂ := visits_of_open ht₂
  have hvisits : ∀ {k u}, Visits log tipsFor k₁ k u ↔ Visits log tipsFor k₂ k u := fun {k u} =>
    ⟨visits_of_linked hv₂ hk₁, visits_of_linked hv₁ hk₂⟩
  have hanchored : ∀ {k u}, Anchored log tipsFor k₁ k u ↔ Anchored log tipsFor k₂ k u := by
    intro k u
    simp only [Anchored, hvisits]
  have hkeys : ∀ {k}, k ∈ (bindKeyClosure log tipsFor k₁).keys ↔ k ∈ (bindKeyClosure log tipsFor k₂).keys := by
    intro k
    simp only [mem_closure_keys_iff, ← hanchored]
    constructor
    · rintro (rfl | hanchor)
      · by_cases heq : k = k₂
        · exact .inl heq
        · exact .inr ⟨t, k₂, hvisits.mpr hv₂, hk₁, heq⟩
      · exact .inr hanchor
    · rintro (rfl | hanchor)
      · by_cases heq : k = k₁
        · exact .inl heq
        · exact .inr ⟨t, k₁, hv₁, hk₂, heq⟩
      · exact .inr hanchor
  have hverdicts : (bindKeyClosure log tipsFor k₁).verdicts = (bindKeyClosure log tipsFor k₂).verdicts := by
    funext txnID
    apply ext
    intro o
    simp only [closure_verdicts_eq_some_iff hagree, hvisits]
  have hlosers : ∀ k, losersOnKeyAt rt log k (tipsFor k) ((bindKeyClosure log tipsFor k₁).bindsByKey k)
        (bindKeyClosure log tipsFor k₁).verdicts isInvisible (probes k) =
      losersOnKeyAt rt log k (tipsFor k) ((bindKeyClosure log tipsFor k₂).bindsByKey k)
        (bindKeyClosure log tipsFor k₂).verdicts isInvisible (probes' k) := by
    intro k
    rw [← hverdicts]
    refine losersOnKeyAt_congr ?_ (undisputed_closure hagree)
    ext u
    simp only [Set.mem_ofPred_eq, mem_startTips_iff, mem_bindsByKey_iff, hanchored]
  funext txnID
  simp only [atomicallyLost, hlosers, List.any_eq_true, decide_eq_decide, hkeys]
  rw [hverdicts]

/-- Two transactions from different origins on two keys. The first one, at offsets 1
to 3 of node 1, wrote both keys; the second one wrote the second key only and has
the smaller hash. -/
def twoKeyLog : Log :=
  (((((∅ : Log).insert ⟨1, 1⟩ { key := [1], txnId := [11], kind := .noop }).insert
    ⟨1, 2⟩ { key := [2], txnId := [11], kind := .noop }).insert
    ⟨1, 3⟩ { key := [1], deps := [⟨1, 1⟩, ⟨1, 2⟩], txnId := [11], forkChoiceHash := [9],
             kind := .txnBind ⟨[⟨[1], [], ⟨1, 1⟩⟩, ⟨[2], [], ⟨1, 2⟩⟩], none, 1, []⟩ }).insert
    ⟨2, 1⟩ { key := [2], txnId := [22], kind := .noop }).insert
    ⟨2, 2⟩ { key := [2], deps := [⟨2, 1⟩], txnId := [22], forkChoiceHash := [4],
             kind := .txnBind ⟨[⟨[2], [], ⟨2, 1⟩⟩], none, 2, []⟩ }

def twoKeyTips (key : Bytes) : List Tip :=
  if key = [1] then [⟨1, 3⟩] else if key = [2] then [⟨1, 3⟩, ⟨2, 2⟩] else []

/-- The loss on the second key is seen from the first one. -/
theorem atomicallyLost_two_keys :
    atomicallyLost idleRuntime twoKeyLog twoKeyTips (fun _ => false) (fun _ => []) [1] [11] = true ∧
      atomicallyLost idleRuntime twoKeyLog twoKeyTips (fun _ => false) (fun _ => []) [1] =
        atomicallyLost idleRuntime twoKeyLog twoKeyTips (fun _ => false) (fun _ => []) [2] := by
  refine ⟨by decide, ?_⟩
  exact @atomicallyLost_eq_of_shared_bind _ _ _ _ _ _ _ _ ⟨1, 3⟩ (by decide) (by decide)
    ⟨⟨1, 3⟩, by decide, Reach.refl _⟩ ⟨⟨1, 3⟩, by decide, Reach.refl _⟩
    (verdictsAgree_of_no_snapshot (by decide))

end swytch.effects
