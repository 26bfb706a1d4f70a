import Swytch.Effects.Dag
import Swytch.Keytrie.TipSet
import Swytch.Lib.Worklist

open swytch.lib swytch.proto swytch.keytrie List

namespace swytch.effects

/-- How the load of an effect can fail: its blob is not in the cloud, or the cloud did not
answer. -/
inductive LoadError where
  | blobMissing
  | unavailable
deriving DecidableEq, Repr

abbrev Load := Tip → Except LoadError Effect

/-- The tips below a position on a key, as far as the effect can be read. -/
def readableDeps (load : Load) (key : Bytes) (t : Tip) : List Tip :=
  match load t with
  | .ok eff => keyDeps key eff
  | .error _ => []

/-- One iteration of `normalizeCloudTipCandidates`: the candidates that the effect depends on
are superseded, and the walk goes on with all it depends on. A missing blob ends a path. -/
def normalizeVisit (load : Load) (key : Bytes) (candidates : TipSet) (superseded : List Tip) (cur : Tip) :
    Except LoadError (List Tip × List Tip) :=
  match load cur with
  | .error .blobMissing => .ok (superseded, [])
  | .error .unavailable => .error .unavailable
  | .ok eff =>
    let deps := keyDeps key eff
    .ok (superseded ++ deps.filter (fun dep => dep ∈ candidates ∧ dep ≠ cur), deps)

/-- Split the candidates in the tips that are real and those that were superseded. The first
number bounds the tips visited. -/
def normalizeCloudTipCandidates (load : Load) (fuel : Nat) (key : Bytes) (candidates localRoots : List Tip) :
    Option (Except LoadError (List Tip × List Tip)) :=
  let unique := newTipSet candidates
  (walkWith .fifo (normalizeVisit load key unique) fuel (unique.tips ++ localRoots) [] []).map fun result =>
    result.map fun superseded =>
      (unique.tips.filter (· ∉ superseded), unique.tips.filter (· ∈ superseded))

theorem pairwise_idxOf_newTipSet (refs : List Tip) :
    (newTipSet refs).tips.Pairwise (fun a b => refs.idxOf a < refs.idxOf b) := by
  -- from the end: a tip that is appended comes after all that are there
  induction refs using reverseRecOn with
  | nil => exact List.Pairwise.nil
  | append_singleton refs t ih =>
    have hidx {a : Tip} (ha : a ∈ (newTipSet refs).tips) : (refs ++ [t]).idxOf a = refs.idxOf a :=
      idxOf_append_of_mem (mem_newTipSet.mp ha)
    have hkept : (newTipSet refs).tips.Pairwise (fun a b => (refs ++ [t]).idxOf a < (refs ++ [t]).idxOf b) := by
      refine ih.imp_of_mem (fun ha hb hlt => ?_)
      rw [hidx ha, hidx hb]
      exact hlt
    have hsnoc : newTipSet (refs ++ [t]) = (newTipSet refs).insert t := foldl_append
    rw [hsnoc]
    unfold TipSet.insert
    split
    · exact hkept
    · rename_i hnew
      refine pairwise_append.mpr ⟨hkept, pairwise_singleton _ t, fun a ha b hb => ?_⟩
      have hlast : t ∉ refs := fun ht => hnew (mem_newTipSet.mpr ht)
      rw [mem_singleton.mp hb, hidx ha, idxOf_append_of_notMem hlast]
      exact Nat.lt_of_lt_of_le (idxOf_lt_length_of_mem (mem_newTipSet.mp ha)) (Nat.le_add_right _ _)

variable {load : Load} {key : Bytes}

theorem normalizeVisit_eq {candidates : TipSet} {cur : Tip} (hload : load cur ≠ .error .unavailable)
    (superseded : List Tip) : normalizeVisit load key candidates superseded cur = .ok (superseded ++
      (readableDeps load key cur).filter (fun dep => dep ∈ candidates ∧ dep ≠ cur), readableDeps load key cur) := by
  unfold normalizeVisit readableDeps
  cases hcur : load cur with
  | ok eff => rfl
  | error e =>
    cases e with
    | blobMissing => simp
    | unavailable => exact absurd hcur hload

/-- A position is reached from another by one or more readable effects. -/
def ReadablyBelow (load : Load) (key : Bytes) (s c : Tip) : Prop :=
  ∃ m, Reach (readableDeps load key) s m ∧ c ∈ readableDeps load key m

theorem not_readablyBelow_self (hacyclic : Acyclic (readableDeps load key)) (c : Tip) :
    ¬ ReadablyBelow load key c c := by
  rintro ⟨m, hreach, hdep⟩
  exact hacyclic.not_reach_of_mem hdep hreach

/-- With enough fuel the walk ends, and marks the candidates below its start. -/
theorem normalize_marks (hload : ∀ t, load t ≠ .error .unavailable) (hacyclic : Acyclic (readableDeps load key))
    (candidates : TipSet) (start : List Tip) : ∃ enough marked, (∀ fuel, enough ≤ fuel →
      walkWith .fifo (normalizeVisit load key candidates) fuel start [] [] = some (.ok marked)) ∧
        ∀ c, c ∈ marked ↔ c ∈ candidates ∧ ∃ s ∈ start, ReadablyBelow load key s c := by
  obtain ⟨enough, order, -, hmem, hrun⟩ := hacyclic.walkWith_eq .fifo (normalizeVisit load key candidates) start
    (fun t _ => normalizeVisit_eq (hload t))
  refine ⟨enough, _, fun fuel hfuel => hrun fuel hfuel [], fun c => ?_⟩
  rw [← flatMap_eq_foldl, mem_flatMap]
  simp only [mem_filter, decide_eq_true_eq]
  constructor
  · rintro ⟨m, hm, hdep, hc, -⟩
    obtain ⟨s, hs, hsm⟩ := (hmem m).mp hm
    exact ⟨hc, s, hs, m, hsm, hdep⟩
  · rintro ⟨hc, s, hs, m, hsm, hdep⟩
    refine ⟨m, (hmem m).mpr ⟨s, hs, hsm⟩, hdep, hc, ?_⟩
    rintro rfl
    exact hacyclic.not_reach_of_mem hdep (.refl c)

/-- Dropping candidates that lie below others does not change what is reached. -/
theorem reach_of_maximal (hacyclic : Acyclic (readableDeps load key)) {candidates localRoots real : List Tip}
    (hdropped : ∀ c ∈ candidates, c ∉ real → ∃ s ∈ candidates ++ localRoots, ReadablyBelow load key s c) {s x : Tip}
    (hs : s ∈ candidates ++ localRoots) (hsx : Reach (readableDeps load key) s x) :
    ∃ r ∈ real ++ localRoots, Reach (readableDeps load key) r x := by
  have habove : ∀ t ∈ (candidates ++ localRoots).toFinset, t ∉ real ++ localRoots →
      ∃ r ∈ (candidates ++ localRoots).toFinset, r ≠ t ∧ Reach (readableDeps load key) r t := by
    intro t ht hbad
    rw [mem_append, not_or] at hbad
    have hcand := (mem_append.mp (mem_toFinset.mp ht)).resolve_right hbad.2
    obtain ⟨r, hr, m, hrm, hdep⟩ := hdropped t hcand hbad.1
    refine ⟨r, mem_toFinset.mpr hr, ?_, hrm.trans (.single hdep)⟩
    rintro rfl
    exact hacyclic.not_reach_of_mem hdep hrm
  obtain ⟨r, -, hgood, hrs⟩ := hacyclic.exists_good_above habove (mem_toFinset.mpr hs)
  exact ⟨r, hgood, hrs.trans hsx⟩

/-- What the two lists of a normalization owe to the candidates: they split them and keep
the order of first occurrence, the dropped ones are those that another candidate or a
local root leads to, and together with the local roots the others reach as much. -/
structure Normalized (load : Load) (key : Bytes) (candidates localRoots realTips superseded : List Tip) : Prop where
  disjoint : realTips.Disjoint superseded
  nodup_realTips : realTips.Nodup
  nodup_superseded : superseded.Nodup
  mem_iff : ∀ c, c ∈ candidates ↔ c ∈ realTips ∨ c ∈ superseded
  ordered_realTips : realTips.Pairwise (fun a b => candidates.idxOf a < candidates.idxOf b)
  ordered_superseded : superseded.Pairwise (fun a b => candidates.idxOf a < candidates.idxOf b)
  mem_superseded_iff : ∀ c, c ∈ superseded ↔ c ∈ candidates ∧
    ∃ s, ((s ∈ candidates ∧ s ≠ c) ∨ s ∈ localRoots) ∧ ReadablyBelow load key s c
  closure_eq : ∀ x, (∃ s ∈ realTips ++ localRoots, Reach (readableDeps load key) s x) ↔
    ∃ s ∈ candidates ++ localRoots, Reach (readableDeps load key) s x

theorem normalized_of_marks (hacyclic : Acyclic (readableDeps load key)) {candidates localRoots marked : List Tip}
    (hmarked : ∀ c, c ∈ marked ↔ c ∈ newTipSet candidates ∧
      ∃ s ∈ (newTipSet candidates).tips ++ localRoots, ReadablyBelow load key s c) :
    Normalized load key candidates localRoots ((newTipSet candidates).tips.filter (· ∉ marked))
      ((newTipSet candidates).tips.filter (· ∈ marked)) := by
  have hunique (c : Tip) : c ∈ (newTipSet candidates).tips ↔ c ∈ candidates := mem_newTipSet
  have hnodup := (newTipSet candidates).nodup
  have hordered := pairwise_idxOf_newTipSet candidates
  have hsuperseded (c : Tip) : c ∈ (newTipSet candidates).tips.filter (· ∈ marked) ↔
      c ∈ candidates ∧ ∃ s ∈ candidates ++ localRoots, ReadablyBelow load key s c := by
    simp only [mem_filter, decide_eq_true_eq, hmarked, TipSet.mem_def, mem_append, hunique, and_self_left]
  refine ⟨?_, hnodup.filter _, hnodup.filter _, fun c => ?_, hordered.filter _, hordered.filter _, fun c => ?_,
    fun x => ?_⟩
  · intro c hreal hsup
    simp only [mem_filter, decide_eq_true_eq] at hreal hsup
    exact hreal.2 hsup.2
  · simp only [mem_filter, decide_eq_true_eq, hunique]
    tauto
  · rw [hsuperseded]
    refine and_congr_right fun _ => ⟨?_, ?_⟩
    · rintro ⟨s, hs, hbelow⟩
      refine ⟨s, ?_, hbelow⟩
      obtain hcand | hroot := mem_append.mp hs
      · refine .inl ⟨hcand, ?_⟩
        rintro rfl
        exact not_readablyBelow_self hacyclic s hbelow
      · exact .inr hroot
    · rintro ⟨s, hs, hbelow⟩
      exact ⟨s, mem_append.mpr (hs.imp_left And.left), hbelow⟩
  · constructor
    · rintro ⟨s, hs, hsx⟩
      refine ⟨s, ?_, hsx⟩
      obtain hreal | hroot := mem_append.mp hs
      · exact mem_append_left _ ((hunique s).mp (mem_of_mem_filter hreal))
      · exact mem_append_right _ hroot
    · rintro ⟨s, hs, hsx⟩
      refine reach_of_maximal hacyclic (fun c hc hnot => ?_) hs hsx
      have hstale : c ∈ (newTipSet candidates).tips.filter (· ∈ marked) := by
        simp only [mem_filter, decide_eq_true_eq, hunique] at hnot ⊢
        tauto
      exact ((hsuperseded c).mp hstale).2

/-- Normalization ends and keeps exactly the maximal candidates, whichever blobs are missing. -/
theorem normalize_keeps_maximal {load : Load} {key : Bytes} (hload : ∀ t, load t ≠ .error .unavailable)
    (hacyclic : Acyclic (readableDeps load key)) (candidates localRoots : List Tip) :
    ∃ enough realTips superseded, Normalized load key candidates localRoots realTips superseded ∧
      ∀ fuel, enough ≤ fuel → normalizeCloudTipCandidates load fuel key candidates localRoots =
        some (.ok (realTips, superseded)) := by
  obtain ⟨enough, marked, hrun, hmarked⟩ := normalize_marks hload hacyclic (newTipSet candidates)
    ((newTipSet candidates).tips ++ localRoots)
  refine ⟨enough, _, _, normalized_of_marks hacyclic hmarked, fun fuel hfuel => ?_⟩
  unfold normalizeCloudTipCandidates
  dsimp only
  rw [hrun fuel hfuel]
  rfl

/-- A newer effect whose marker stands next to the marker of its dependency, which is gone. -/
def staleMarker : Load := fun t =>
  if t = ⟨1, 2⟩ then .ok { key := [], deps := [⟨1, 1⟩], kind := .noop } else .error .blobMissing

theorem normalize_keeps_newer_marker : ∃ enough realTips superseded, (∀ fuel, enough ≤ fuel →
      normalizeCloudTipCandidates staleMarker fuel [] [⟨1, 1⟩, ⟨1, 2⟩] [] = some (.ok (realTips, superseded))) ∧
      ⟨1, 1⟩ ∈ superseded ∧ ⟨1, 2⟩ ∈ realTips := by
  have hdeps : ∀ t, ∀ d ∈ readableDeps staleMarker [] t, t = ⟨1, 2⟩ ∧ d = ⟨1, 1⟩ := by
    intro t d hd
    by_cases ht : t = ⟨1, 2⟩
    · simpa [readableDeps, staleMarker, ht, keyDeps] using hd
    · simp [readableDeps, staleMarker, ht] at hd
  have hacyclic : Acyclic (readableDeps staleMarker []) := by
    apply acyclic_of_rank EffectRef.offset
    intro t d hd
    obtain ⟨rfl, rfl⟩ := hdeps t d hd
    exact Nat.lt_succ_self 1
  have hload : ∀ t, staleMarker t ≠ .error .unavailable := by
    intro t
    unfold staleMarker
    split <;> simp
  obtain ⟨enough, realTips, superseded, hnormalized, hrun⟩ :=
    normalize_keeps_maximal hload hacyclic [⟨1, 1⟩, ⟨1, 2⟩] []
  refine ⟨enough, realTips, superseded, hrun, ?_, ?_⟩
  · refine (hnormalized.mem_superseded_iff _).mpr ⟨by simp, ⟨1, 2⟩, .inl ⟨by simp, by decide⟩, ⟨1, 2⟩, .refl _, ?_⟩
    simp [readableDeps, staleMarker, keyDeps]
  · refine ((hnormalized.mem_iff _).mp (by simp)).resolve_right fun hsup => ?_
    obtain ⟨-, s, -, m, -, hdep⟩ := (hnormalized.mem_superseded_iff _).mp hsup
    cases (hdeps m _ hdep).2

end swytch.effects
