import Swytch.Effects.Reduce.Flat

open swytch.lib swytch.proto List Prod

namespace swytch.effects

variable (r : Option ReducedEffect)

def partitionsOf : Map Bytes FlatReduced :=
  (r.map ReducedEffect.partitions).getD ∅

/-- A reduced state with the fork-choice hash of the root and of every partition
erased. -/
def eraseHash : Option FlatReduced × (Bytes → Option FlatReduced) :=
  ((stateOf r []).map forgetHash, fun v => ((partitionsOf r).lookup v).map forgetHash)

/-- Equal in every field except the fork-choice hash. -/
def SameExceptHash (a b : Option ReducedEffect) : Prop :=
  eraseHash a = eraseHash b

variable {v : Bytes} {effects : List Effect}

theorem stateOf_of_ne_nil (hv : v ≠ []) : stateOf r v = (partitionsOf r).lookup v := by
  cases r <;> simp [stateOf, partitionsOf, hv]

theorem mem_virtualsOf : v ∈ virtualsOf effects ↔ v ≠ [] ∧ chainOf v effects ≠ [] := by
  simp [virtualsOf, chainOf, and_comm]

section

variable (rt : Runtime) (seed : Option ReducedEffect)

/-- A named partition reduces on its own, untouched partitions included. -/
theorem lookup_reduceParts (live : List Effect) (hv : v ≠ []) :
    (reduceParts rt seed live).lookup v = reduceFlat rt (stateOf seed v) (chainOf v live) := by
  rw [reduceParts, lookup_foldl_insert (fun v => reduceFlat rt (stateOf seed v) (chainOf v live)),
    lookup_foldl_erase]
  by_cases htouched : v ∈ virtualsOf live
  · simp [htouched]
  · have hchain : chainOf v live = [] := by
      by_contra hne
      exact htouched (mem_virtualsOf.mpr ⟨hv, hne⟩)
    rw [if_neg htouched, if_neg htouched, hchain, reduceFlat_nil, stateOf_of_ne_nil seed hv, partitionsOf]

theorem lookup_reduceParts_nil (live : List Effect) :
    (reduceParts rt seed live).lookup [] = (partitionsOf seed).lookup [] := by
  have huntouched : ([] : Bytes) ∉ virtualsOf live := by simp [mem_virtualsOf]
  rw [reduceParts, lookup_foldl_insert (fun v => reduceFlat rt (stateOf seed v) (chainOf v live)),
    lookup_foldl_erase, if_neg huntouched, if_neg huntouched, partitionsOf]

theorem partitionsOf_reducePartitioned (effects : List Effect) : partitionsOf (reducePartitioned rt seed effects) =
      reduceParts rt (liveTail seed effects).1 (liveTail seed effects).2 := by
  rw [reducePartitioned]
  by_cases hparts : reduceParts rt (liveTail seed effects).1 (liveTail seed effects).2 = ∅
  · simp only [hparts, if_true]
    cases reduceFlat rt (stateOf (liveTail seed effects).1 []) (chainOf [] (liveTail seed effects).2) <;> rfl
  · simp only [hparts, if_false]
    rfl

theorem root_reducePartitioned (effects : List Effect) :
    stateOf (reducePartitioned rt seed effects) [] =
      let root := reduceFlat rt (stateOf (liveTail seed effects).1 []) (chainOf [] (liveTail seed effects).2)
      if reduceParts rt (liveTail seed effects).1 (liveTail seed effects).2 = ∅ then root
      else some (root.getD {}) := by
  rw [reducePartitioned]
  by_cases hparts : reduceParts rt (liveTail seed effects).1 (liveTail seed effects).2 = ∅
  · simp only [hparts, if_true]
    cases reduceFlat rt (stateOf (liveTail seed effects).1 []) (chainOf [] (liveTail seed effects).2) <;> rfl
  · simp only [hparts, if_false]
    rfl

end

theorem lookup_none_iff_of_map_eq {a b : Option FlatReduced}
    (hab : a.map forgetHash = b.map forgetHash) : a = none ↔ b = none := by
  cases a <;> cases b <;> simp_all

/-- The partitioned reductions of two chains agree when they agree partition by
partition: the placeholder root depends only on whether partitions exist. -/
theorem reducePartitioned_same_of_parts (rt : Runtime) {s t : Option ReducedEffect} {xs ys : List Effect}
    (hroot : (reduceFlat rt (stateOf (liveTail s xs).1 []) (chainOf [] (liveTail s xs).2)).map forgetHash =
      (reduceFlat rt (stateOf (liveTail t ys).1 []) (chainOf [] (liveTail t ys).2)).map forgetHash)
    (hnil : ((partitionsOf (liveTail s xs).1).lookup []).map forgetHash =
      ((partitionsOf (liveTail t ys).1).lookup []).map forgetHash) (hparts : ∀ v, v ≠ [] →
      (reduceFlat rt (stateOf (liveTail s xs).1 v) (chainOf v (liveTail s xs).2)).map forgetHash =
        (reduceFlat rt (stateOf (liveTail t ys).1 v) (chainOf v (liveTail t ys).2)).map forgetHash) :
    SameExceptHash (reducePartitioned rt s xs) (reducePartitioned rt t ys) := by
  have hlookup (v : Bytes) :
      ((reduceParts rt (liveTail s xs).1 (liveTail s xs).2).lookup v).map forgetHash =
        ((reduceParts rt (liveTail t ys).1 (liveTail t ys).2).lookup v).map forgetHash := by
    by_cases hv : v = []
    · rw [hv, lookup_reduceParts_nil, lookup_reduceParts_nil, hnil]
    · rw [lookup_reduceParts rt _ _ hv, lookup_reduceParts rt _ _ hv, hparts v hv]
  have hempty : reduceParts rt (liveTail s xs).1 (liveTail s xs).2 = ∅ ↔
      reduceParts rt (liveTail t ys).1 (liveTail t ys).2 = ∅ := by
    rw [eq_empty_iff_lookup, eq_empty_iff_lookup]
    exact forall_congr' (fun v => lookup_none_iff_of_map_eq (hlookup v))
  refine Prod.ext ?_ (funext fun v => ?_)
  · simp only [eraseHash, root_reducePartitioned, hempty]
    split
    · exact hroot
    · generalize reduceFlat rt (stateOf (liveTail s xs).1 []) (chainOf [] (liveTail s xs).2) = a at hroot
      generalize reduceFlat rt (stateOf (liveTail t ys).1 []) (chainOf [] (liveTail t ys).2) = b at hroot
      cases a <;> cases b <;> simp_all
  · simp only [eraseHash, partitionsOf_reducePartitioned]
    exact hlookup v

theorem reduceStep_isRootKeyDel (rt : Runtime) (acc : Accum) {e : Effect} (hdel : isRootKeyDel e = true) :
    reduceStep rt acc e = ⟨none, true⟩ := by
  obtain ⟨key, hlc, node, deps, txn, hash, virt, kind⟩ := e
  cases kind with
  | data d =>
    simp only [isRootKeyDel, decide_eq_true_eq] at hdel
    simp [reduceStep, hdel.2.1, hdel.2.2.1]
  | _ => simp [isRootKeyDel] at hdel

theorem lastRootDel_eq_some {tail : List Effect} (htail : lastRootDel effects = some tail) :
    ∃ before del rest, effects = before ++ del :: rest ∧ tail = del :: rest ∧ isRootKeyDel del = true := by
  induction effects with
  | nil => cases htail
  | cons e es ih =>
    cases hes : lastRootDel es with
    | some t =>
      simp only [lastRootDel, hes, Option.some.injEq] at htail
      obtain ⟨before, del, rest, hes', ht, hdel⟩ := ih (hes.trans (congrArg some htail))
      exact ⟨e :: before, del, rest, by rw [hes', cons_append], ht, hdel⟩
    | none =>
      simp only [lastRootDel, hes] at htail
      split at htail
      · rename_i hdel
        exact ⟨[], e, es, rfl, by simpa using htail.symm, hdel⟩
      · cases htail

theorem lastRootDel_append (xs ys : List Effect) :
    lastRootDel (xs ++ ys) =
      match lastRootDel ys with
      | some tail => some tail
      | none => (lastRootDel xs).map (· ++ ys) := by
  induction xs with
  | nil => cases hys : lastRootDel ys <;> simp [lastRootDel, hys]
  | cons e es ih =>
    rw [cons_append, lastRootDel, ih]
    cases hys : lastRootDel ys with
    | some tail => rfl
    | none =>
      cases hes : lastRootDel es with
      | some tail => simp [lastRootDel, hes]
      | none =>
        simp only [lastRootDel, hes, Option.map_none]
        split <;> rfl

/-- After a root key-level DEL the loop has forgotten its seed. -/
theorem reduceFlat_append_rootDel (rt : Runtime) (s t : Option FlatReduced) (before rest : List Effect)
    {del : Effect} (hdel : isRootKeyDel del = true) : (reduceFlat rt s (before ++ del :: rest)).map forgetHash =
      (reduceFlat rt t (del :: rest)).map forgetHash := by
  rw [reduceFlat_eq_close rt s (before ++ del :: rest) (by simp),
    reduceFlat_eq_close rt t (del :: rest) (by simp), foldl_append]
  simp only [foldl_cons, reduceStep_isRootKeyDel rt _ hdel]
  congr 1
  exact getLast_append_of_ne_nil _ (by simp)

/-- The reduction of one partition over the live part of a chain. -/
def livePartition (rt : Runtime) (seed : Option ReducedEffect) (effects : List Effect) (v : Bytes) :
    Option FlatReduced :=
  reduceFlat rt (stateOf (liveTail seed effects).1 v) (chainOf v (liveTail seed effects).2)

theorem chainOf_of_not_hasVirtual (hflat : hasVirtualEffects effects = false) (v : Bytes) :
    chainOf v effects = if v = [] then effects else [] := by
  have hroot : ∀ e ∈ effects, e.virtualKey = [] := by simpa [hasVirtualEffects] using hflat
  split
  · rename_i hv
    exact filter_eq_self.mpr (fun e he => by simp [hroot e he, hv])
  · rename_i hv
    exact filter_eq_nil_iff.mpr (fun e he => by simpa [hroot e he] using Ne.symm hv)

theorem hasVirtual_of_append_right {before rest : List Effect}
    (hflat : hasVirtualEffects (before ++ rest) = false) : hasVirtualEffects rest = false := by
  simp only [hasVirtualEffects, any_append, Bool.or_eq_false_iff] at hflat ⊢
  exact hflat.2

/-- The fast path for flat keys is a special case of the partitioned reduction. -/
theorem reduceChain_same_reducePartitioned (rt : Runtime) (seed : Option ReducedEffect) (effects : List Effect) :
    SameExceptHash (reduceChain rt seed effects) (reducePartitioned rt seed effects) := by
  rw [reduceChain]
  split
  · rename_i hfast
    obtain ⟨hnoparts, hvirtual⟩ := hfast
    have hflat : hasVirtualEffects effects = false := by simpa using hvirtual
    have hseed : partitionsOf (liveTail seed effects).1 = ∅ := by
      rw [liveTail]
      split
      · rfl
      · exact hnoparts
    have hlive : hasVirtualEffects (liveTail seed effects).2 = false := by
      rw [liveTail]
      split
      · rename_i tail htail
        obtain ⟨before, del, rest, heffects, htail', -⟩ := lastRootDel_eq_some htail
        rw [heffects] at hflat
        rw [htail']
        exact hasVirtual_of_append_right hflat
      · exact hflat
    have hparts : reduceParts rt (liveTail seed effects).1 (liveTail seed effects).2 = ∅ := by
      rw [eq_empty_iff_lookup]
      intro v
      by_cases hv : v = []
      · rw [hv, lookup_reduceParts_nil, hseed, Finmap.lookup_empty]
      · rw [lookup_reduceParts rt _ _ hv, chainOf_of_not_hasVirtual hlive, if_neg hv, reduceFlat_nil,
          stateOf_of_ne_nil _ hv, hseed, Finmap.lookup_empty]
    have hroot : (reduceFlat rt (stateOf seed []) effects).map forgetHash =
        (livePartition rt seed effects []).map forgetHash := by
      rw [livePartition, chainOf_of_not_hasVirtual hlive, if_pos rfl, liveTail]
      split
      · rename_i tail htail
        obtain ⟨before, del, rest, heffects, htail', hdel⟩ := lastRootDel_eq_some htail
        rw [heffects, htail']
        exact reduceFlat_append_rootDel rt _ _ before rest hdel
      · rfl
    refine Prod.ext ?_ (funext fun v => ?_)
    · simp only [eraseHash, root_reducePartitioned, hparts, if_true]
      rw [← livePartition, ← hroot]
      cases reduceFlat rt (stateOf seed []) effects <;> rfl
    · simp only [eraseHash, partitionsOf_reducePartitioned, hparts, Finmap.lookup_empty]
      cases reduceFlat rt (stateOf seed []) effects <;> simp [partitionsOf]
  · rfl

theorem liveTail_append (seed : Option ReducedEffect) (xs ys : List Effect) (hys : lastRootDel ys = none) :
    liveTail seed (xs ++ ys) = ((liveTail seed xs).1, (liveTail seed xs).2 ++ ys) := by
  simp only [liveTail, lastRootDel_append, hys]
  cases lastRootDel xs <;> rfl

theorem SameExceptHash.stateOf {a b : Option ReducedEffect} (hsame : SameExceptHash a b) (v : Bytes) :
    (stateOf a v).map forgetHash = (stateOf b v).map forgetHash := by
  by_cases hv : v = []
  · rw [hv]
    exact congrArg fst hsame
  · rw [stateOf_of_ne_nil a hv, stateOf_of_ne_nil b hv]
    exact congrFun (congrArg snd hsame) v

section

variable (rt : Runtime) (seed : Option ReducedEffect) (effects : List Effect)

theorem stateOf_reduceChain_of_ne_nil (hv : v ≠ []) : (stateOf (reduceChain rt seed effects) v).map forgetHash =
      (livePartition rt seed effects v).map forgetHash := by
  rw [(reduceChain_same_reducePartitioned rt seed effects).stateOf v, stateOf_of_ne_nil _ hv,
    partitionsOf_reducePartitioned, lookup_reduceParts rt _ _ hv, livePartition]

theorem partitionsOf_reduceChain_eq_empty : partitionsOf (reduceChain rt seed effects) = ∅ ↔
      reduceParts rt (liveTail seed effects).1 (liveTail seed effects).2 = ∅ := by
  rw [← partitionsOf_reducePartitioned, eq_empty_iff_lookup, eq_empty_iff_lookup]
  refine forall_congr' (fun v => lookup_none_iff_of_map_eq ?_)
  exact congrFun (congrArg snd (reduceChain_same_reducePartitioned rt seed effects)) v

theorem lookup_partitionsOf_reduceChain_nil : ((partitionsOf (reduceChain rt seed effects)).lookup []).map forgetHash =
      ((partitionsOf (liveTail seed effects).1).lookup []).map forgetHash := by
  rw [← lookup_reduceParts_nil rt (liveTail seed effects).1 (liveTail seed effects).2,
    ← partitionsOf_reducePartitioned]
  exact congrFun (congrArg snd (reduceChain_same_reducePartitioned rt seed effects)) []

/-- The root of a reduced key is its own reduction, or an empty placeholder when
only partitions exist. -/
theorem root_reduceChain : (stateOf (reduceChain rt seed effects) []).map forgetHash =
      if partitionsOf (reduceChain rt seed effects) = ∅ then (livePartition rt seed effects []).map forgetHash
      else some (forgetHash ((livePartition rt seed effects []).getD {})) := by
  simp only [partitionsOf_reduceChain_eq_empty]
  rw [(reduceChain_same_reducePartitioned rt seed effects).stateOf [], root_reducePartitioned]
  simp only [livePartition]
  split <;> rfl

end

end swytch.effects
