import Swytch.Effects.Dag.Retained
import Swytch.Effects.SnapshotBatch

open swytch.lib swytch.proto swytch.keytrie List Option Finmap

namespace swytch.effects

open BatchState

open SnapshotReadView

open EffectRef

def BatchRead.view : BatchRead → Option SnapshotReadView
  | .discovering v => some v
  | .materialized v _ => some v
  | _ => none

variable {rt : Runtime} {log : Log} {probes : Bytes → List Tip} {keys : List Bytes} {s : BatchState}
  {a : ReadAction} {v : SnapshotReadView} {k key : Bytes} {results : List Reconstruction} {t : Tip}
  {rec : Reconstruction} {eff : Effect}

variable {f : SnapshotFrontier} {read : BatchRead}

namespace BatchState

/-- What `capture` stores for a key now. -/
def frontier (s : BatchState) (key : Bytes) : SnapshotFrontier :=
  ⟨s.index.lookup key, resolveTipDeps s.pendingTxTips (refTips (s.index.lookup key))⟩

/-- A pointer that the index or the view of the batch holds. -/
def Holds (s : BatchState) (ref : TipSetRef) : Prop :=
  (∃ k, s.index.lookup k = some ref) ∨
    ∃ v k f, s.read.view = some v ∧ v.frontiers.lookup k = some f ∧ f.index = some ref

/-- What a run of a batch keeps. -/
structure Sound (rt : Runtime) (log : Log) (probes : Bytes → List Tip) (keys : List Bytes) (s : BatchState) :
    Prop where
  fresh : ∀ {ref}, s.Holds ref → ref.id < s.nextRef
  unique : ∀ {ref ref'}, s.Holds ref → s.Holds ref' → ref.id = ref'.id → ref = ref'
  nodup : ∀ {v k f}, s.read.view = some v → v.frontiers.lookup k = some f → f.resolved.Nodup
  materialized : ∀ {v results}, s.read = .materialized v results →
    v.Complete log keys ∧ results = v.read rt log probes keys

@[simp] theorem change_read (s : BatchState) (c : EngineChange) : (s.change c).read = s.read := by
  cases c <;> rfl

/-- Every pointer in the index was there before, or is a new one. -/
theorem index_change (s : BatchState) (c : EngineChange) :
    s.nextRef ≤ (s.change c).nextRef ∧ ∃ tips, ∀ {k ref}, (s.change c).index.lookup k = some ref →
      s.index.lookup k = some ref ∨ (ref = ⟨s.nextRef, tips⟩ ∧ s.nextRef < (s.change c).nextRef) := by
  cases c with
  | store key tips =>
    refine ⟨Nat.le_succ _, tips, fun {k ref} h => ?_⟩
    by_cases hk : k = key
    · subst hk
      rw [change, lookup_insert] at h
      exact .inr ⟨(some.inj h).symm, Nat.lt_succ_self _⟩
    · rw [change, lookup_insert_of_ne _ hk] at h
      exact .inl h
  | evict key =>
    refine ⟨le_rfl, .empty, fun {k ref} h => .inl ?_⟩
    by_cases hk : k = key
    · subst hk
      rw [change, lookup_erase] at h
      cases h
    · rwa [change, lookup_erase_ne hk] at h
  | setPending pendingTxTips => exact ⟨le_rfl, .empty, .inl⟩
  | setHorizon horizon => exact ⟨le_rfl, .empty, .inl⟩

theorem Sound.change (hsound : s.Sound rt log probes keys) (c : EngineChange) :
    (s.change c).Sound rt log probes keys := by
  obtain ⟨hnext, tips, hindex⟩ := index_change s c
  have hholds : ∀ {ref}, (s.change c).Holds ref →
      s.Holds ref ∨ (ref = ⟨s.nextRef, tips⟩ ∧ s.nextRef < (s.change c).nextRef) := by
    rintro ref (⟨k, hk⟩ | hview)
    · exact (hindex hk).imp (fun h => .inl ⟨k, h⟩) id
    · rw [change_read] at hview
      exact .inl (.inr hview)
  refine ⟨fun {ref} href => ?_, fun {ref ref'} href href' heq => ?_, ?_, ?_⟩
  · rcases hholds href with hold | ⟨rfl, hlt⟩
    · exact (hsound.fresh hold).trans_le hnext
    · exact hlt
  · rcases hholds href with hold | ⟨rfl, -⟩
    · rcases hholds href' with hold' | ⟨rfl, -⟩
      · exact hsound.unique hold hold' heq
      · exact absurd heq (hsound.fresh hold).ne
    · rcases hholds href' with hold' | ⟨rfl, -⟩
      · exact absurd heq.symm (hsound.fresh hold').ne
      · rfl
  · rw [change_read]
    exact hsound.nodup
  · rw [change_read]
    exact hsound.materialized

theorem nodup_resolveTipDeps {pendingTxTips : Map Tip (List Tip)} {tips : List Tip} (h : tips.Nodup) :
    (resolveTipDeps pendingTxTips tips).Nodup := by
  unfold resolveTipDeps
  split
  · exact h
  · exact (nodup_walk _ _ _ nodup_nil).filter _

theorem nodup_refTips (ref : Option TipSetRef) : (refTips ref).Nodup := by
  cases ref with
  | none => exact nodup_nil
  | some r => exact r.tips.nodup

theorem validated_view (s : BatchState) (v : SnapshotReadView)
    (results : Except ReadError (List Reconstruction)) : (s.validated v results).view = none := by
  unfold validated
  split
  · rfl
  · split <;> rfl
  · split <;> rfl

/-- A frontier in the view was captured before or is what the engine holds now. -/
theorem frontiers_advance (hstep : s.advance rt log probes keys a = some read)
    (hview : read.view = some v) (hf : v.frontiers.lookup k = some f) :
    f = s.frontier k ∨ ∃ v', s.read.view = some v' ∧ v'.frontiers.lookup k = some f := by
  unfold advance at hstep
  split at hstep
  · cases hstep
    cases hview
    simp at hf
  · rename_i v' key hread
    cases hstep
    cases hview
    unfold capture at hf
    split at hf
    · exact .inr ⟨v', by rw [hread]; rfl, hf⟩
    · by_cases hk : k = key
      · subst hk
        dsimp only at hf
        rw [lookup_insert] at hf
        exact .inl (some.inj hf).symm
      · dsimp only at hf
        rw [lookup_insert_of_ne _ hk] at hf
        exact .inr ⟨v', by rw [hread]; rfl, hf⟩
  · rename_i v' txnID hread
    cases hstep
    cases hview
    unfold askInvisible at hf
    refine .inr ⟨v', by rw [hread]; rfl, ?_⟩
    split at hf <;> exact hf
  · cases hstep
    rw [validated_view] at hview
    cases hview
  · rename_i v' hread
    split at hstep
    · cases hstep
      obtain rfl := some.inj hview
      exact .inr ⟨v', by rw [hread]; rfl, hf⟩
    · cases hstep
  · cases hstep
    rw [validated_view] at hview
    cases hview
  · cases hstep

theorem materialized_advance {results : Except ReadError (List Reconstruction)}
    (hstep : s.advance rt log probes keys a = some (.materialized v results)) :
    v.Complete log keys ∧ results = v.read rt log probes keys := by
  have hnot : ∀ {v' results'}, s.validated v' results' ≠ .materialized v results := by
    intro v' results' heq
    have hnone := validated_view s v' results'
    rw [heq] at hnone
    cases hnone
  unfold advance at hstep
  split at hstep
  · cases hstep
  · cases hstep
  · cases hstep
  · exact absurd (some.inj hstep) hnot
  · split at hstep
    · rename_i hcomplete
      cases hstep
      exact ⟨hcomplete, rfl⟩
    · cases hstep
  · exact absurd (some.inj hstep) hnot
  · cases hstep

theorem Sound.advance (hsound : s.Sound rt log probes keys)
    (hstep : s.advance rt log probes keys a = some read) : Sound rt log probes keys { s with read := read } := by
  have hholds : ∀ {ref}, Holds { s with read := read } ref → s.Holds ref := by
    rintro ref (hindex | ⟨v, k, f, hview, hf, href⟩)
    · exact .inl hindex
    · rcases frontiers_advance hstep hview hf with rfl | ⟨v', hview', hf'⟩
      · exact .inl ⟨k, href⟩
      · exact .inr ⟨v', k, f, hview', hf', href⟩
  refine ⟨fun href => hsound.fresh (hholds href), fun href href' => hsound.unique (hholds href) (hholds href'),
    fun {v k f} hview hf => ?_, fun {v results} hread => ?_⟩
  · rcases frontiers_advance hstep hview hf with rfl | ⟨v', hview', hf'⟩
    · exact nodup_resolveTipDeps (nodup_refTips _)
    · exact hsound.nodup hview' hf'
  · exact materialized_advance (hstep.trans (congrArg some hread))

end BatchState

/-- The view holds what the engine holds: the tip set of every key of the closure, its
tips resolved, and the visibility of every transaction the batch came across. -/
structure SnapshotReadView.Current (log : Log) (keys : List Bytes) (s : BatchState) (v : SnapshotReadView) :
    Prop where
  index : ∀ k ∈ (v.closure log keys).keys, ∃ f, v.frontiers.lookup k = some f ∧ f.index = s.index.lookup k
  resolved : ∀ k ∈ (v.closure log keys).keys, (v.tipsFor k).Perm (s.frontier k).resolved
  invisible : ∀ txnID ∈ v.consulted log keys, v.isInvisible txnID = decide (txnID ∈ s.horizon)

namespace BatchState

theorem perm_of_tipsEqual {a b : List Tip} (hnodup : a.Nodup) (h : tipsEqual a b = true) : a.Perm b := by
  simp only [tipsEqual, decide_eq_true_eq] at h
  exact (hnodup.subperm h.2).perm_of_length_le h.1.ge

/-- The same pointer is the same tip set. -/
theorem Sound.index_eq (hsound : s.Sound rt log probes keys) (hview : s.read.view = some v)
    (hf : v.frontiers.lookup k = some f) (hid : (s.index.lookup k).map TipSetRef.id = f.index.map TipSetRef.id) :
    f.index = s.index.lookup k := by
  cases hindex : s.index.lookup k with
  | none =>
    rw [hindex, map_none] at hid
    exact map_eq_none_iff.mp hid.symm
  | some ref =>
    rw [hindex, map_some] at hid
    obtain ⟨ref', href', hid'⟩ := map_eq_some_iff.mp hid.symm
    rw [href', hsound.unique (.inr ⟨v, k, f, hview, hf, href'⟩) (.inl ⟨k, hindex⟩) hid']

/-- Validation succeeds only if everything the results depend on is as it was read. -/
theorem Sound.current (hsound : s.Sound rt log probes keys) (hview : s.read.view = some v)
    (hcomplete : v.Complete log keys) (hvalid : s.valid v = true) : v.Current log keys s := by
  simp only [valid, decide_eq_true_eq] at hvalid
  have hfrontier : ∀ k ∈ (v.closure log keys).keys, ∃ f, v.frontiers.lookup k = some f ∧
      f.index = s.index.lookup k ∧ f.resolved.Perm (s.frontier k).resolved := by
    intro k hk
    obtain ⟨f, hf⟩ := mem_iff.mp (hcomplete.1 k hk)
    have hkey := hvalid.1 k (mem_keys.mpr (hcomplete.1 k hk))
    simp only [hf, all_some, validFrontier, decide_eq_true_eq] at hkey
    have hindex := hsound.index_eq hview hf hkey.1
    refine ⟨f, hf, hindex, ?_⟩
    rw [frontier, ← hindex]
    exact perm_of_tipsEqual (hsound.nodup hview hf) hkey.2
  refine ⟨fun k hk => ?_, fun k hk => ?_, fun txnID htxn => ?_⟩
  · obtain ⟨f, hf, hindex, -⟩ := hfrontier k hk
    exact ⟨f, hf, hindex⟩
  · obtain ⟨f, hf, -, hresolved⟩ := hfrontier k hk
    rwa [tipsFor, hf]
  · obtain ⟨b, hb⟩ := mem_iff.mp (hcomplete.2 txnID htxn)
    have hkey := hvalid.2 txnID (mem_keys.mpr (hcomplete.2 txnID htxn))
    simp only [hb, all_some, decide_eq_true_eq] at hkey
    rw [isInvisible, hb, getD_some, hkey]

end BatchState

section

variable (hacyclic : Acyclic (depsOf log key)) (hzero : zero ∉ log)
  (hread : v.reconstructWithView rt log probes keys key = .ok rec)
include hread

include hacyclic hzero

end

end swytch.effects
