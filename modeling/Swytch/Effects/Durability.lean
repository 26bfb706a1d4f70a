import Swytch.Effects.Dag
import Swytch.Keytrie.TipSet
import Swytch.Lib.FinmapFold

open swytch.lib swytch.proto swytch.keytrie Function List Finmap

namespace swytch.effects

/-- One call of `add`: a recovered effect with a key that it belongs to, and the tips that it
names there. -/
structure RecoveryAdd where
  key : Bytes
  id : Tip
  deps : List Tip
  extra : Option Tip

def RecoveryAdd.names (a : RecoveryAdd) : List Tip := a.deps ++ a.extra.toList

/-- The calls of `add` that the callback of `Recover` makes for an effect. A new tip that is not
set, the zero reference here, is not handed on. -/
def recoveryAdds (id : Tip) (eff : Effect) : List RecoveryAdd :=
  match eff.kind with
  | .txnBind bind =>
    if bind.keys = [] then [⟨eff.key, id, eff.deps, none⟩]
    else bind.keys.map fun kb => ⟨kb.key, id, kb.consumedTips, if kb.newTip = .zero then none else some kb.newTip⟩
  | _ => [⟨eff.key, id, eff.deps, none⟩]

/-- The tips of one key: `true` for a present frontier candidate, `false` for a consumed tip. -/
def addCandidate (tips : Map Tip Bool) (a : RecoveryAdd) : Map Tip Bool :=
  let tips := if a.id ∈ tips then tips else tips.insert a.id true
  let tips := a.deps.foldl (fun tips dep => tips.insert dep false) tips
  a.extra.elim tips (fun extra => tips.insert extra false)

/-- The shard of a key: its FNV-1a hash modulo 256. -/
def recoveryShard (key : Bytes) : Fin 256 :=
  ⟨key.foldl (fun h v => (h ^^^ v.val) * 16777619 % 2 ^ 32) 2166136261 % 256, Nat.mod_lt _ (by decide)⟩

/-- A call of `add`, which holds the lock of the key's shard. -/
def recoveryAdd (shards : Fin 256 → Map Bytes (Map Tip Bool)) (a : RecoveryAdd) : Fin 256 → Map Bytes (Map Tip Bool) :=
  let keys := shards (recoveryShard a.key)
  update shards (recoveryShard a.key) (keys.insert a.key (addCandidate ((keys.lookup a.key).getD ∅) a))

/-- What is installed for a key after the given calls, with the order in which the candidates
are ranged over. -/
def restoreEffects (range : RangeOrder Tip) (calls : List RecoveryAdd) (key : Bytes) : Option TipSet :=
  let candidates := ((calls.foldl recoveryAdd (fun _ => ∅) (recoveryShard key)).lookup key).getD ∅
  let tips := (range.order candidates.keys).filter fun id => candidates.lookup id = some true
  if tips = [] then none else some (newTipSet tips)

variable {key : Bytes} {calls : List RecoveryAdd} {t : Tip}

theorem lookup_addCandidate (tips : Map Tip Bool) (a : RecoveryAdd) (t : Tip) :
    (addCandidate tips a).lookup t = if t ∈ a.names then some false
      else if t = a.id then some ((tips.lookup t).getD true) else tips.lookup t := by
  have hpresent : (if a.id ∈ tips then tips else tips.insert a.id true).lookup t =
      if t = a.id then some ((tips.lookup t).getD true) else tips.lookup t := by
    by_cases hid : t = a.id
    · subst hid
      by_cases hmem : a.id ∈ tips
      · obtain ⟨v, hv⟩ := mem_iff.mp hmem
        simp [hmem, hv]
      · simp [hmem, lookup_eq_none.mpr hmem]
    · by_cases hmem : a.id ∈ tips
      · simp [hmem, hid]
      · simp [hmem, hid, lookup_insert_of_ne _ hid]
  have hdeps := lookup_foldl_insert (fun _ => some false) a.deps
    (if a.id ∈ tips then tips else tips.insert a.id true) t
  simp only [insertSome, hpresent, Option.some_or] at hdeps
  obtain ⟨key, id, deps, extra⟩ := a
  cases extra with
  | none => simpa [addCandidate, RecoveryAdd.names] using hdeps
  | some extra =>
    by_cases hextra : t = extra
    · subst hextra
      simp [addCandidate, RecoveryAdd.names]
    · simpa [addCandidate, RecoveryAdd.names, hextra, lookup_insert_of_ne _ hextra] using hdeps

/-- A tip stays a candidate if it arrives and is not named, in whatever order. -/
theorem lookup_candidates (calls : List RecoveryAdd) (tips : Map Tip Bool) :
    (calls.foldl addCandidate tips).lookup t = some true ↔ (∀ a ∈ calls, t ∉ a.names) ∧
      (tips.lookup t = some true ∨ tips.lookup t = none ∧ ∃ a ∈ calls, a.id = t) := by
  induction calls generalizing tips with
  | nil => simp
  | cons a calls ih =>
    rw [foldl_cons, ih, lookup_addCandidate]
    by_cases hnamed : t ∈ a.names
    · simp [hnamed]
    · by_cases hid : t = a.id
      · subst hid
        cases tips.lookup a.id <;> simp [hnamed]
      · simp [hnamed, hid, Ne.symm hid]

/-- The shards keep the candidates of the keys apart. -/
theorem lookup_shards (key : Bytes) (calls : List RecoveryAdd) (shards : Fin 256 → Map Bytes (Map Tip Bool)) :
    ((calls.foldl recoveryAdd shards (recoveryShard key)).lookup key).getD ∅ =
      (calls.filter (·.key = key)).foldl addCandidate (((shards (recoveryShard key)).lookup key).getD ∅) := by
  induction calls generalizing shards with
  | nil => rfl
  | cons a calls ih =>
    rw [foldl_cons, ih]
    by_cases hkey : a.key = key
    · subst hkey
      simp [recoveryAdd]
    · rw [filter_cons_of_neg (by simpa using hkey), recoveryAdd]
      by_cases hshard : recoveryShard key = recoveryShard a.key
      · rw [← hshard, update_self, lookup_insert_of_ne _ (Ne.symm hkey)]
      · rw [update_of_ne hshard]

theorem mem_restoreEffects_iff (range : RangeOrder Tip) : t ∈ (restoreEffects range calls key).getD .empty ↔
      (∃ a ∈ calls, a.key = key ∧ a.id = t) ∧ ∀ a ∈ calls, a.key = key → t ∉ a.names := by
  have hcandidate := lookup_candidates (t := t) (calls.filter (·.key = key)) ∅
  have hshards := lookup_shards key calls (fun _ => ∅)
  rw [lookup_empty, Option.getD_none] at hshards
  unfold restoreEffects
  rw [hshards]
  generalize (calls.filter (·.key = key)).foldl addCandidate ∅ = candidates at hcandidate
  dsimp only
  have htips : t ∈ (range.order candidates.keys).filter (fun id => candidates.lookup id = some true) ↔
      candidates.lookup t = some true := by
    rw [mem_filter, range.mem_order, decide_eq_true_eq, Finmap.mem_keys, and_iff_right_iff_imp]
    exact fun h => mem_of_lookup_eq_some h
  have hmem : t ∈ (if (range.order candidates.keys).filter (fun id => candidates.lookup id = some true) = [] then none
      else some (newTipSet ((range.order candidates.keys).filter (fun id => candidates.lookup id = some true)))
        ).getD .empty ↔ candidates.lookup t = some true := by
    rw [← htips]
    split
    · rename_i hnil
      simp [hnil, TipSet.mem_def, TipSet.empty]
    · exact mem_newTipSet
  rw [hmem, hcandidate]
  simp only [mem_filter, decide_eq_true_eq, lookup_empty, reduceCtorEq, false_or, true_and, and_imp, and_assoc]
  exact and_comm

/-- All calls of `add` for the persisted effects. -/
def allAdds (recovered : List (Tip × Effect)) : List RecoveryAdd := recovered.flatMap fun p => recoveryAdds p.1 p.2

/-- What the recovered effects of a key name as dependencies, consumed or new tips. -/
def recoveredEdges (recovered : List (Tip × Effect)) (key : Bytes) (t : Tip) : List Tip :=
  ((allAdds recovered).filter fun a => a.key = key ∧ a.id = t).flatMap RecoveryAdd.names

/-- Whatever the order of the callbacks and of the calls that they make, a key gets the same
tips: recovered effects that no recovered effect of the key names, from which all its
recovered effects are reached. -/
theorem restoreEffects_frontier (recovered : List (Tip × Effect)) (key : Bytes)
    (hacyclic : Acyclic (recoveredEdges recovered key)) (range range' : RangeOrder Tip)
    {calls calls' : List RecoveryAdd} (hcalls : calls.Perm (allAdds recovered))
    (hcalls' : calls'.Perm (allAdds recovered)) :
    (∀ t, t ∈ (restoreEffects range calls key).getD .empty ↔ t ∈ (restoreEffects range' calls' key).getD .empty) ∧
      (∀ t ∈ (restoreEffects range calls key).getD .empty, (∃ a ∈ allAdds recovered, a.key = key ∧ a.id = t) ∧
        ∀ id, t ∉ recoveredEdges recovered key id) ∧ ∀ a ∈ allAdds recovered, a.key = key →
        ∃ t ∈ (restoreEffects range calls key).getD .empty, Reach (recoveredEdges recovered key) t a.id := by
  have hedge : ∀ {t id}, t ∈ recoveredEdges recovered key id ↔
      ∃ a ∈ allAdds recovered, (a.key = key ∧ a.id = id) ∧ t ∈ a.names := by
    intro t id
    simp only [recoveredEdges, mem_flatMap, mem_filter, decide_eq_true_eq, and_assoc]
  have hmem : ∀ {t}, t ∈ (restoreEffects range calls key).getD .empty ↔
      (∃ a ∈ allAdds recovered, a.key = key ∧ a.id = t) ∧ ∀ a ∈ allAdds recovered, a.key = key → t ∉ a.names := by
    intro t
    rw [mem_restoreEffects_iff]
    simp only [hcalls.mem_iff]
  refine ⟨fun t => ?_, fun t ht => ⟨(hmem.mp ht).1, fun id hnamed => ?_⟩, fun a ha hkey => ?_⟩
  · rw [hmem, mem_restoreEffects_iff]
    simp only [hcalls'.mem_iff]
  · obtain ⟨a, ha, ⟨hkey, -⟩, hname⟩ := hedge.mp hnamed
    exact (hmem.mp ht).2 a ha hkey hname
  · have habove : ∀ t ∈ (((allAdds recovered).filter (·.key = key)).map (·.id)).toFinset,
        ¬ t ∈ (restoreEffects range calls key).getD .empty →
          ∃ r ∈ (((allAdds recovered).filter (·.key = key)).map (·.id)).toFinset,
            r ≠ t ∧ Reach (recoveredEdges recovered key) r t := by
      intro t ht hnot
      simp only [mem_toFinset, mem_map, mem_filter, decide_eq_true_eq, and_assoc] at ht ⊢
      obtain ⟨c, hc, hckey, hname⟩ : ∃ c ∈ allAdds recovered, c.key = key ∧ t ∈ c.names := by
        by_contra hnone
        exact hnot (hmem.mpr ⟨ht, fun c hc hckey hname => hnone ⟨c, hc, hckey, hname⟩⟩)
      have hstep := hedge.mpr ⟨c, hc, ⟨hckey, rfl⟩, hname⟩
      refine ⟨c.id, ⟨c, hc, hckey, rfl⟩, ?_, .single hstep⟩
      rintro rfl
      exact hacyclic.not_reach_of_mem hstep (.refl _)
    obtain ⟨t, -, ht, hreach⟩ := hacyclic.exists_good_above habove (t := a.id) (by simpa using ⟨a, ⟨ha, hkey⟩, rfl⟩)
    exact ⟨t, ht, hreach⟩

/-- An effect whose dependency is missing from the disk, and a bind on it over two keys. -/
def missingDep : List (Tip × Effect) :=
  [(⟨1, 2⟩, { key := [107], deps := [⟨1, 1⟩], kind := .noop }),
    (⟨1, 5⟩, { key := [107], kind := .txnBind ⟨[⟨[107], [], ⟨1, 2⟩⟩, ⟨[108], [⟨1, 3⟩], ⟨1, 4⟩⟩], none, 1, []⟩ })]

/-- The bind is the tip of the key, whether it is recovered before the effect or after it. -/
theorem restoreEffects_frontier_missingDep : Acyclic (recoveredEdges missingDep [107]) ∧
    ∀ range range' : RangeOrder Tip, ∀ t, (t ∈ (restoreEffects range (allAdds missingDep) [107]).getD .empty ↔
        t ∈ (restoreEffects range' (allAdds missingDep).reverse [107]).getD .empty) ∧
      (t ∈ (restoreEffects range (allAdds missingDep) [107]).getD .empty ↔ t = ⟨1, 5⟩) := by
  have hranked : ∀ a ∈ allAdds missingDep, ∀ t ∈ a.names, t.offset < a.id.offset := by decide
  have hacyclic : Acyclic (recoveredEdges missingDep [107]) := by
    refine acyclic_of_rank EffectRef.offset fun id t ht => ?_
    obtain ⟨a, ha, ht⟩ := mem_flatMap.mp ht
    obtain ⟨ha, hid⟩ := mem_filter.mp ha
    rw [← (of_decide_eq_true hid).2]
    exact hranked a ha t ht
  refine ⟨hacyclic, fun range range' t => ?_⟩
  obtain ⟨hsame, htips, hreach⟩ := restoreEffects_frontier missingDep [107] hacyclic range range' (.refl _)
    (reverse_perm (allAdds missingDep))
  have hids : ∀ a ∈ allAdds missingDep, a.id = ⟨1, 2⟩ ∨ a.id = ⟨1, 5⟩ := by decide
  have honly : ∀ t ∈ (restoreEffects range (allAdds missingDep) [107]).getD .empty, t = ⟨1, 5⟩ := by
    intro t ht
    obtain ⟨⟨a, ha, -, rfl⟩, hfree⟩ := htips t ht
    exact (hids a ha).resolve_left fun heq => hfree ⟨1, 5⟩ (by rw [heq]; decide)
  obtain ⟨u, hu, -⟩ := hreach _ mem_cons_self rfl
  exact ⟨hsame t, honly t, fun heq => heq ▸ honly u hu ▸ hu⟩

end swytch.effects
