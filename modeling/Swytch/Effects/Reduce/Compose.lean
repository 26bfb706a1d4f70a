import Swytch.Effects.Reduce.Partitions

open swytch.proto List Option

namespace swytch.effects

/-- A chain may be cut after `xs` when the stored state can be read back as the
state the loop was in. Every partition that `xs` touched since the last root
DEL carries REMOVE only as a bare DEL marker, and the root is not a mere
placeholder for the partitions below it. -/
structure Resumable (rt : Runtime) (seed : Option ReducedEffect) (xs : List Effect) : Prop where
  remove_is_marker : ∀ e ∈ (liveTail seed xs).2, ∀ s,
    stateOf (reduceChain rt seed xs) e.virtualKey = some s → s.op = .removeOp → IsDelMarker s
  root_present : livePartition rt seed xs [] = none → partitionsOf (reduceChain rt seed xs) = ∅

variable {rt : Runtime} {seed : Option ReducedEffect} {xs : List Effect} {s : FlatReduced}

theorem isDelMarker_forgetHash (r : FlatReduced) : IsDelMarker (forgetHash r) ↔ IsDelMarker r :=
  Iff.rfl

/-- What a partition holds after `xs`, up to its hash, when `xs` is resumable. -/
theorem Resumable.stateOf_eq (hres : Resumable rt seed xs) (v : Bytes) :
    (stateOf (reduceChain rt seed xs) v).map forgetHash = (livePartition rt seed xs v).map forgetHash := by
  by_cases hv : v = []
  · rw [hv, root_reduceChain]
    split
    · rfl
    · rename_i hparts
      cases hroot : livePartition rt seed xs [] with
      | none => exact absurd (hres.root_present hroot) hparts
      | some r => rfl
  · exact stateOf_reduceChain_of_ne_nil rt seed xs hv

theorem chainOf_append (v : Bytes) (xs ys : List Effect) : chainOf v (xs ++ ys) = chainOf v xs ++ chainOf v ys := by
  simp [chainOf]

theorem Resumable.partition_append (hres : Resumable rt seed xs) (ys : List Effect) (v : Bytes) :
    (reduceFlat rt (stateOf (reduceChain rt seed xs) v) (chainOf v ys)).map forgetHash =
      (reduceFlat rt (stateOf (liveTail seed xs).1 v) (chainOf v ((liveTail seed xs).2 ++ ys))).map forgetHash := by
  rw [reduceFlat_congr rt (hres.stateOf_eq v), chainOf_append]
  apply reduceFlat_append
  intro htouched s hs hop
  obtain ⟨e, he⟩ := exists_mem_of_ne_nil _ htouched
  obtain ⟨helive, hev⟩ : e ∈ (liveTail seed xs).2 ∧ e.virtualKey = v := by simpa [chainOf] using he
  have hstored := hres.stateOf_eq v
  rw [livePartition, hs] at hstored
  obtain ⟨s', hs', hforget⟩ : ∃ s', stateOf (reduceChain rt seed xs) v = some s' ∧
      forgetHash s' = forgetHash s := by
    simpa using hstored
  rw [← isDelMarker_forgetHash, ← hforget, isDelMarker_forgetHash]
  refine hres.remove_is_marker e helive s' (hev ▸ hs') ?_
  exact (op_eq_of_forgetHash_eq hforget).trans hop

theorem reduceChain_append (hres : Resumable rt seed xs) (ys : List Effect) :
    SameExceptHash (reduceChain rt (reduceChain rt seed xs) ys) (reduceChain rt seed (xs ++ ys)) := by
  have hpartitioned : SameExceptHash (reducePartitioned rt (reduceChain rt seed xs) ys)
      (reducePartitioned rt seed (xs ++ ys)) := by
    cases hys : lastRootDel ys with
    | some tail =>
      have hleft : liveTail (reduceChain rt seed xs) ys = (none, tail) := by simp [liveTail, hys]
      have hright : liveTail seed (xs ++ ys) = (none, tail) := by simp [liveTail, lastRootDel_append, hys]
      apply reducePartitioned_same_of_parts <;> simp [hleft, hright]
    | none =>
      have hleft : liveTail (reduceChain rt seed xs) ys = (reduceChain rt seed xs, ys) := by
        simp [liveTail, hys]
      have hright := liveTail_append seed xs ys hys
      apply reducePartitioned_same_of_parts
      · rw [hleft, hright]
        exact hres.partition_append ys []
      · rw [hleft, hright, lookup_partitionsOf_reduceChain_nil]
      · intro v hv
        rw [hleft, hright]
        exact hres.partition_append ys v
  exact (reduceChain_same_reducePartitioned rt _ ys).trans
    (hpartitioned.trans (reduceChain_same_reducePartitioned rt seed (xs ++ ys)).symm)

/-- An effect that writes nothing, on a given partition. -/
def noopAt (key v : Bytes) : Effect :=
  { key := key, hlc := some 0, virtualKey := v, kind := .noop }

theorem stateOf_reduceChain_of_some {effects : List Effect} {v : Bytes} {r : FlatReduced}
    (hr : livePartition rt seed effects v = some r) :
    (stateOf (reduceChain rt seed effects) v).map forgetHash = some (forgetHash r) := by
  by_cases hv : v = []
  · rw [hv] at hr ⊢
    rw [root_reduceChain, hr]
    split <;> rfl
  · rw [stateOf_reduceChain_of_ne_nil rt seed effects hv, hr, map_some]

theorem livePartition_noopAt (rt : Runtime) (seed : Option ReducedEffect) (key v : Bytes) :
    livePartition rt seed [noopAt key v] v = reduceFlat rt (stateOf seed v) [noopAt key v] := by
  simp [livePartition, liveTail, lastRootDel, isRootKeyDel, chainOf, noopAt]

theorem livePartition_append_noopAt (rt : Runtime) (seed : Option ReducedEffect) (xs : List Effect) (key v : Bytes) :
    livePartition rt seed (xs ++ [noopAt key v]) v =
      reduceFlat rt (stateOf (liveTail seed xs).1 v) (chainOf v (liveTail seed xs).2 ++ [noopAt key v]) := by
  have hnodel : lastRootDel [noopAt key v] = none := rfl
  rw [livePartition, liveTail_append seed xs _ hnodel, chainOf_append]
  simp [chainOf, noopAt]

theorem reduceFlat_singleton_noop (rt : Runtime) (seed : FlatReduced) (key v : Bytes) :
    ∃ r, reduceFlat rt (some seed) [noopAt key v] = some r ∧ r.hlc = some 0 := by
  by_cases hop : seed.op = .removeOp
  · simp [reduceFlat, reduceFlatOwned, startAccum, reduceStep, noopAt, delMarker, hop]
  · simp [reduceFlat, reduceFlatOwned, startAccum, reduceStep, noopAt, hop]

theorem isSome_reduceFlat {seed : Option FlatReduced} (hne : xs ≠ []) : (reduceFlat rt seed xs).isSome =
      ((xs.foldl (reduceStep rt) (resume seed)).live.isSome || (xs.foldl (reduceStep rt) (resume seed)).hadDel) := by
  rw [← isSome_map (f := forgetHash), reduceFlat_eq_close rt seed xs hne]
  obtain ⟨live, hadDel⟩ := xs.foldl (reduceStep rt) (resume seed)
  cases live <;> cases hadDel <;> rfl

theorem isSome_reduceFlat_append_noop (seed : Option FlatReduced) (xs : List Effect) (key v : Bytes) :
    (reduceFlat rt seed (xs ++ [noopAt key v])).isSome = (reduceFlat rt seed xs).isSome := by
  rw [isSome_reduceFlat (by simp), foldl_append]
  by_cases hne : xs = []
  · subst hne
    rw [reduceFlat_nil]
    cases seed with
    | none => rfl
    | some s => by_cases hop : s.op = .removeOp <;> simp [resume, reduceStep, noopAt, hop]
  · rw [isSome_reduceFlat hne]
    rfl

/-- A partition that carries REMOVE without being a DEL marker is lost at the cut. -/
theorem remove_is_marker_of_append {key v : Bytes}
    (hsame : SameExceptHash (reduceChain rt (reduceChain rt seed xs) [noopAt key v])
      (reduceChain rt seed (xs ++ [noopAt key v]))) (htouched : chainOf v (liveTail seed xs).2 ≠ [])
    (hs : stateOf (reduceChain rt seed xs) v = some s) (hop : s.op = .removeOp) : IsDelMarker s := by
  by_contra hmarker
  cases hlive : livePartition rt seed xs v with
  | none =>
    -- Only the placeholder root can be stored without a reduction of its own.
    have hstored := congrArg (Option.map forgetHash) hs
    by_cases hv : v = []
    · rw [hv] at hstored hlive
      rw [root_reduceChain, hlive] at hstored
      split at hstored
      · simp at hstored
      · have hplain : s.op = .unknownOp := (op_eq_of_forgetHash_eq (by simpa using hstored)).symm
        simp [hplain] at hop
    · rw [stateOf_reduceChain_of_ne_nil rt seed xs hv, hlive] at hstored
      simp at hstored
  | some r =>
    have hforget : forgetHash r = forgetHash s := by
      have hstored := stateOf_reduceChain_of_some hlive
      rw [hs] at hstored
      simpa using hstored.symm
    have hrop : r.op = .removeOp := (op_eq_of_forgetHash_eq hforget).trans hop
    have hrmarker : ¬ IsDelMarker r := by
      rwa [← isDelMarker_forgetHash, hforget, isDelMarker_forgetHash]
    have hlost := reduceFlat_append_noop_ne rt htouched hlive hrop hrmarker
      (rfl : (noopAt key v).kind = .noop)
    obtain ⟨a, ha, -⟩ := reduceFlat_singleton_noop rt s key v
    obtain ⟨b, hb⟩ := isSome_iff_exists.mp ((@isSome_reduceFlat_append_noop rt _ _ key v).trans
      (isSome_of_eq_some hlive))
    have hleft := stateOf_reduceChain_of_some
      ((livePartition_noopAt rt (reduceChain rt seed xs) key v).trans (hs ▸ ha))
    have hright := stateOf_reduceChain_of_some
      ((livePartition_append_noopAt rt seed xs key v).trans hb)
    have hseed : (some r).map forgetHash = (some s).map forgetHash := congrArg some hforget
    have hcongr := reduceFlat_congr rt hseed [noopAt key v]
    apply hlost
    rw [hcongr, ha, hb, map_some, map_some, ← hleft, ← hright]
    exact hsame.stateOf v

/-- A placeholder root turns into a stamped state of its own at the cut. -/
theorem root_present_of_append {key : Bytes}
    (hsame : SameExceptHash (reduceChain rt (reduceChain rt seed xs) [noopAt key []])
      (reduceChain rt seed (xs ++ [noopAt key []]))) (habsent : livePartition rt seed xs [] = none) :
    partitionsOf (reduceChain rt seed xs) = ∅ := by
  by_contra hparts
  obtain ⟨s, hs⟩ : ∃ s, stateOf (reduceChain rt seed xs) [] = some s := by
    have hroot := root_reduceChain rt seed xs
    rw [if_neg hparts] at hroot
    cases hs : stateOf (reduceChain rt seed xs) [] with
    | none => simp [hs] at hroot
    | some s => exact ⟨s, rfl⟩
  obtain ⟨a, ha, hstamp⟩ := reduceFlat_singleton_noop rt s key []
  have hleft := stateOf_reduceChain_of_some
    ((livePartition_noopAt rt (reduceChain rt seed xs) key []).trans (hs ▸ ha))
  have hnone : livePartition rt seed (xs ++ [noopAt key []]) [] = none := by
    rw [livePartition_append_noopAt, ← not_isSome_iff_eq_none, isSome_reduceFlat_append_noop]
    exact not_isSome_iff_eq_none.mpr habsent
  have hright := root_reduceChain rt seed (xs ++ [noopAt key []])
  rw [hnone, ← hsame.stateOf [], hleft] at hright
  split at hright
  · cases hright
  · simp only [some.injEq] at hright
    have hhlc : (forgetHash a).hlc = none := by rw [hright]; rfl
    rw [show (forgetHash a).hlc = a.hlc from rfl, hstamp] at hhlc
    cases hhlc

/-- Cutting a chain after `xs` is invisible to every continuation on the key
exactly when `xs` is resumable. -/
theorem reduceChain_append_iff_resumable (rt : Runtime) (seed : Option ReducedEffect) (xs : List Effect)
    (key : Bytes) : (∀ ys : List Effect, (∀ e ∈ ys, e.key = key) →
      SameExceptHash (reduceChain rt (reduceChain rt seed xs) ys) (reduceChain rt seed (xs ++ ys))) ↔
    Resumable rt seed xs := by
  constructor
  · intro hall
    have hnoop (v : Bytes) := hall [noopAt key v] (by simp [noopAt])
    refine ⟨?_, root_present_of_append (hnoop [])⟩
    intro e he s hs hop
    have htouched : chainOf e.virtualKey (liveTail seed xs).2 ≠ [] :=
      ne_nil_of_mem (mem_filter.mpr ⟨he, by simp⟩)
    exact remove_is_marker_of_append (hnoop e.virtualKey) htouched hs hop
  · intro hres ys _
    exact reduceChain_append hres ys

def keyedEffect (op : EffectOp) (id : Bytes) : Effect :=
  { key := [107], hlc := some 1, nodeId := 1, kind := .data { op := op, collection := .keyed, id := id } }

/-- A set that starts with the removal of `x` and then gains `y`: the stored state
still carries REMOVE, so the next chunk starts from nothing and drops `y`. -/
theorem reduceChain_chunk_drops_insert : ¬ SameExceptHash (reduceChain idleRuntime
        (reduceChain idleRuntime (reduceBranch idleRuntime [])
          [keyedEffect .removeOp [120], keyedEffect .insertOp [121]]) [keyedEffect .insertOp [122]])
      (reduceChain idleRuntime (reduceBranch idleRuntime [])
        ([keyedEffect .removeOp [120], keyedEffect .insertOp [121]] ++ [keyedEffect .insertOp [122]])) := by
  intro hsame
  have hadds := congrArg (Option.map (fun r => r.netAdds.lookup [121])) (hsame.stateOf [])
  revert hadds
  decide

/-- Effects on different virtual keys are independent: without a DEL of the whole key only the
order within each virtual key matters, and with one nothing that came before it does. -/
theorem reduceChain_interleaved (rt : Runtime) (seed : Option ReducedEffect) {xs ys : List Effect}
    (hxs : lastRootDel xs = none) (hys : lastRootDel ys = none) (hsame : ∀ v, chainOf v xs = chainOf v ys) :
    SameExceptHash (reduceChain rt seed xs) (reduceChain rt seed ys) ∧ ∀ del, isRootKeyDel del = true →
      ∀ seed' before before', SameExceptHash (reduceChain rt seed (before ++ del :: xs))
        (reduceChain rt seed' (before' ++ del :: ys)) := by
  have hplain : ∀ {s s' as bs}, SameExceptHash (reducePartitioned rt s as) (reducePartitioned rt s' bs) →
      SameExceptHash (reduceChain rt s as) (reduceChain rt s' bs) := fun hparts =>
    (reduceChain_same_reducePartitioned rt _ _).trans (hparts.trans (reduceChain_same_reducePartitioned rt _ _).symm)
  refine ⟨hplain ?_, fun del hdel seed' before before' => hplain ?_⟩
  · apply reducePartitioned_same_of_parts <;> simp only [liveTail, hxs, hys, hsame, implies_true]
  · have htail : ∀ s as bs, lastRootDel bs = none → liveTail s (as ++ del :: bs) = (none, [del] ++ bs) :=
      fun s as bs hbs => by simp [liveTail, lastRootDel_append, lastRootDel, hbs, hdel]
    apply reducePartitioned_same_of_parts <;>
      simp only [htail _ _ _ hxs, htail _ _ _ hys, chainOf_append, hsame, implies_true]

/-- A DEL of the whole key. -/
def delEffect : Effect :=
  { key := [107], hlc := some 2, nodeId := 1, kind := .data { op := .removeOp } }

/-- A set with the member `x`. -/
def markedSet : Option ReducedEffect := reduceChain idleRuntime none [keyedEffect .insertOp [120]]

def memberAt (v : Bytes) (op : EffectOp) (id : Bytes) : Effect :=
  { keyedEffect op id with virtualKey := v }

/-- Two virtual keys that gain and lose members, one after the other. -/
def byVirtualKey : List Effect :=
  [memberAt [1] .insertOp [97], memberAt [1] .removeOp [98], memberAt [2] .insertOp [99], memberAt [2] .removeOp [99]]

def byTurns : List Effect :=
  [memberAt [2] .insertOp [99], memberAt [1] .insertOp [97], memberAt [2] .removeOp [99], memberAt [1] .removeOp [98]]

/-- The two orders agree over the set and, behind a DEL, over anything: before it the set has
its member, behind it only what the virtual keys gained is left. -/
theorem reduceChain_interleaved_by_turns :
    (SameExceptHash (reduceChain idleRuntime markedSet byVirtualKey) (reduceChain idleRuntime markedSet byTurns) ∧
      SameExceptHash (reduceChain idleRuntime markedSet (delEffect :: byVirtualKey))
        (reduceChain idleRuntime none ([keyedEffect .insertOp [121]] ++ delEffect :: byTurns))) ∧
    (stateOf (reduceChain idleRuntime markedSet byTurns) []).any (fun r => [120] ∈ r.netAdds) = true ∧
      (stateOf (reduceChain idleRuntime markedSet byTurns) [1]).any (fun r => [97] ∈ r.netAdds) = true ∧
      (stateOf (reduceChain idleRuntime markedSet (delEffect :: byVirtualKey)) []).any
        (fun r => [120] ∉ r.netAdds) = true := by
  have hsame (v : Bytes) : chainOf v byVirtualKey = chainOf v byTurns := by
    by_cases hone : [1] = v
    · rw [← hone]
      rfl
    by_cases htwo : [2] = v
    · rw [← htwo]
      rfl
    · simp [chainOf, byVirtualKey, byTurns, memberAt, hone, htwo]
  obtain ⟨hplain, hdel⟩ := reduceChain_interleaved idleRuntime markedSet rfl rfl hsame
  exact ⟨⟨hplain, hdel delEffect rfl none [] [keyedEffect .insertOp [121]]⟩, by decide, by decide, by decide⟩

end swytch.effects
