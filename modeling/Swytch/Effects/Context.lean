import Swytch.Effects.Dag
import Swytch.Keytrie.TipSet
import Swytch.Lib.Worklist

open swytch.lib swytch.proto swytch.keytrie List

namespace swytch.effects

/-- Replace the tips a writer consumed by its last effect; tips that arrived in the
meantime stay. -/
def updateIndex (current initialTips : TipSet) (lastOffset : Tip) : TipSet :=
  newTipSet (current.tips.filter (· ∉ initialTips.tips) ++ [lastOffset])

theorem mem_updateIndex {current initialTips : TipSet} {lastOffset t : Tip} :
    t ∈ updateIndex current initialTips lastOffset ↔ (t ∈ current ∧ t ∉ initialTips) ∨ t = lastOffset := by
  rw [updateIndex, mem_newTipSet]
  simp [TipSet.mem_def]

/-- The unflushed effects of a context on a key: the tips they started from, the
last of them, all of them in order, and what a bind has to know about them. -/
structure ContextKey where
  initialTips : TipSet
  lastOffset : Tip
  notifies : List Tip := []
  readOnly : Bool := false
  collection : CollectionKind := .scalar
  elementIDs : List Bytes := []

/-- The pre-transaction tips that stand in for an in-progress tip. -/
def pendingDeps (pendingTxTips : Map Tip (List Tip)) (t : Tip) : List Tip :=
  (pendingTxTips.lookup t).getD []

/-- Replace every in-progress tip by the committed tips below it. A first write on a
key has none and stays. -/
def resolveTipDeps (pendingTxTips : Map Tip (List Tip)) (tips : List Tip) : List Tip :=
  if tips.all (· ∉ pendingTxTips) then tips
  else
    let walked := walkFrom .lifo (fun t => (pendingDeps pendingTxTips t).reverse) pendingTxTips.keys
      tips.reverse []
    walked.filter (fun t => pendingDeps pendingTxTips t = [])

variable {pendingTxTips : Map Tip (List Tip)} {tips : List Tip} {r : Tip}

theorem lookup_of_pendingDeps_ne_nil {p : Tip} (hp : pendingDeps pendingTxTips p ≠ []) :
    pendingTxTips.lookup p = some (pendingDeps pendingTxTips p) := by
  unfold pendingDeps at hp ⊢
  cases hlookup : pendingTxTips.lookup p with
  | none => simp [hlookup] at hp
  | some base => rfl

theorem reach_reverse_iff {f : Tip → List Tip} {t u : Tip} : Reach (fun t => (f t).reverse) t u ↔ Reach f t u := by
  constructor
  · exact Reach.mono (fun t d hd => mem_reverse.mp hd)
  · exact Reach.mono (fun t d hd => mem_reverse.mpr hd)

theorem mem_resolveTipDeps_iff : r ∈ resolveTipDeps pendingTxTips tips ↔
      (∃ t ∈ tips, Reach (pendingDeps pendingTxTips) t r) ∧ pendingDeps pendingTxTips r = [] := by
  unfold resolveTipDeps
  split
  · rename_i hnone
    have hleaf : ∀ t ∈ tips, pendingDeps pendingTxTips t = [] := by
      intro t ht
      have habsent : t ∉ pendingTxTips := by simpa using all_eq_true.mp hnone t ht
      rw [pendingDeps, Finmap.lookup_eq_none.mpr habsent, Option.getD_none]
    constructor
    · intro hr
      exact ⟨⟨r, hr, Reach.refl r⟩, hleaf r hr⟩
    · rintro ⟨⟨t, ht, hreach⟩, -⟩
      rcases hreach.cases_head with rfl | ⟨d, hd, -⟩
      · exact ht
      · rw [hleaf t ht] at hd
        cases hd
  · have hinner : ∀ t, (pendingDeps pendingTxTips t).reverse ≠ [] → t ∈ pendingTxTips.keys := by
      intro t ht
      rw [Finmap.mem_keys, Finmap.mem_iff]
      exact ⟨_, lookup_of_pendingDeps_ne_nil fun hnil => ht (by rw [hnil, reverse_nil])⟩
    rw [mem_filter, mem_walkFrom_iff hinner (by simp)]
    simp [reach_reverse_iff]

end swytch.effects
