import Swytch.Effects.CloudTips
import Swytch.Effects.Dag.Cutoff

open swytch.proto swytch.keytrie List

namespace swytch.effects

/-- Put the effects that came along with the tips into the cache, unless they are there. -/
def warmCache (effectCache : Log) (sidecar : List (Tip × Effect)) : Log :=
  sidecar.foldl (fun cache ce => if ce.1 ∈ cache then cache else cache.insert ce.1 ce.2) effectCache

/-- What a node reads from: its cache and, for what is not there, the blobs of the cloud. -/
structure CloudSource where
  effectCache : Log
  cloud : Log

/-- The effects that `getEffect` resolves. Any other blob is missing. -/
def CloudSource.log (source : CloudSource) (sidecar : List (Tip × Effect)) : Log :=
  warmCache source.effectCache sidecar ∪ source.cloud

variable (log : Log)

/-- The load of `classifyCloudTips`: the blobs that were declared missing are not asked for. -/
def loadUnlessMissing (missing : List Tip) : Load := fun t =>
  if t ∈ missing then .error .blobMissing
  else
    match log.lookup t with
    | some eff => .ok eff
    | none => .error .blobMissing

structure CloudTipClassification where
  install : List Tip := []
  pending : List Tip := []
  dropped : List Tip := []

/-- Put a real tip into its class. State tips are left for the walks. -/
def sortTip (load : Load) (acc : CloudTipClassification × List Tip) (tip : Tip) :
    Except LoadError (CloudTipClassification × List Tip) :=
  match load tip with
  | .ok eff =>
    if isStandaloneSubscription eff then .ok ({ acc.1 with install := acc.1.install ++ [tip] }, acc.2)
    else .ok (acc.1, acc.2 ++ [tip])
  | .error .blobMissing => .ok ({ acc.1 with pending := acc.1.pending ++ [tip] }, acc.2)
  | .error .unavailable => .error .unavailable

variable (key : Bytes)

/-- A state tip that the walk from it alone reads is installed, any other is pending. -/
def validateTip (c : CloudTipClassification) (tip : Tip) : CloudTipClassification :=
  if (prepare log key [tip]).isSome then { c with install := c.install ++ [tip] }
  else { c with pending := c.pending ++ [tip] }

/-- Split the candidate tips of the cloud in those to install, those that wait on a hole and
those that are superseded. The state tips are walked together, and one by one if that
fails. -/
def classifyCloudTips (source : CloudSource) (fuel : Nat) (key : Bytes) (tips : List Tip)
    (sidecar : List (Tip × Effect)) (missing localRoots : List Tip) :
    Option (Except LoadError CloudTipClassification) :=
  let log := source.log sidecar
  let load := loadUnlessMissing log missing
  (normalizeCloudTipCandidates load fuel key tips localRoots).map fun result => do
    let (realTips, superseded) ← result
    let (classification, stateTips) ← realTips.foldlM (sortTip load) ({ dropped := superseded }, [])
    if stateTips = [] then pure classification
    else if (prepare log key stateTips).isSome then
      pure { classification with install := classification.install ++ stateTips }
    else pure (stateTips.foldl (validateTip log key) classification)

/-- The class of a tip before any walk. -/
inductive TipClass where
  | standalone
  | state
  | missing
deriving DecidableEq

def tipClass (load : Load) (t : Tip) : TipClass :=
  match load t with
  | .ok eff => if isStandaloneSubscription eff then .standalone else .state
  | .error _ => .missing

theorem loadUnlessMissing_ne_unavailable (missing : List Tip) (t : Tip) :
    loadUnlessMissing log missing t ≠ .error .unavailable := by
  unfold loadUnlessMissing
  split
  · simp
  · split <;> simp

theorem readableDeps_subset (missing : List Tip) (key : Bytes) (t : Tip) :
    readableDeps (loadUnlessMissing log missing) key t ⊆ depsOf log key t := by
  unfold readableDeps loadUnlessMissing depsOf
  by_cases hmissing : t ∈ missing
  · simp [hmissing]
  · cases heff : log.lookup t <;> simp [hmissing]

theorem foldlM_sortTip {load : Load} (hload : ∀ t, load t ≠ .error .unavailable) (tips : List Tip)
    (c : CloudTipClassification) (states : List Tip) : tips.foldlM (sortTip load) (c, states) = .ok
      ({ c with install := c.install ++ tips.filter (fun t => tipClass load t = .standalone),
                pending := c.pending ++ tips.filter (fun t => tipClass load t = .missing) },
        states ++ tips.filter (fun t => tipClass load t = .state)) := by
  induction tips generalizing c states with
  | nil => simp [pure, Except.pure]
  | cons t tips ih =>
    have hfirst : sortTip load (c, states) t = .ok
        ({ c with install := c.install ++ [t].filter (fun t => tipClass load t = .standalone),
                  pending := c.pending ++ [t].filter (fun t => tipClass load t = .missing) },
          states ++ [t].filter (fun t => tipClass load t = .state)) := by
      unfold sortTip tipClass
      cases ht : load t with
      | ok eff => cases halone : isStandaloneSubscription eff <;> simp [ht, halone]
      | error e =>
        cases e with
        | blobMissing => simp [ht]
        | unavailable => exact absurd ht (hload t)
    have hcons : t :: tips = [t] ++ tips := rfl
    rw [foldlM_cons, hfirst]
    refine (ih _ _).trans ?_
    rw [hcons]
    simp only [filter_append, append_assoc]

theorem foldl_validateTip (tips : List Tip) (c : CloudTipClassification) : tips.foldl (validateTip log key) c =
      { c with install := c.install ++ tips.filter (fun t => (prepare log key [t]).isSome),
               pending := c.pending ++ tips.filter (fun t => (prepare log key [t]).isNone) } := by
  induction tips generalizing c with
  | nil => simp
  | cons t tips ih =>
    rw [foldl_cons, ih]
    unfold validateTip
    cases hread : prepare log key [t] <;> simp [hread]

theorem prepare_isSome (tips : List Tip) : (prepare log key tips).isSome = (bfs log key tips).isSome := by
  unfold prepare
  cases bfs log key tips <;> rfl

/-- Those of some tips that a walk of their own reads. -/
def readableAlone (tips : List Tip) : List Tip :=
  tips.filter (fun t => (prepare log key [t]).isSome)

/-- The state tips that are installed. -/
def installedStates (states : List Tip) : List Tip :=
  if (prepare log key states).isSome then states else readableAlone log key states

/-- The classes of the real tips, given those that are superseded. -/
def classesOf (load : Load) (key : Bytes) (realTips superseded : List Tip) : CloudTipClassification :=
  let states := realTips.filter (fun t => tipClass load t = .state)
  { install := realTips.filter (fun t => tipClass load t = .standalone) ++ installedStates log key states,
    pending := realTips.filter (fun t => tipClass load t = .missing) ++
      states.filter (fun t => t ∉ installedStates log key states),
    dropped := superseded }

theorem classifyCloudTips_of_normalized {source : CloudSource} {fuel : Nat} {key : Bytes} {tips : List Tip}
    {sidecar : List (Tip × Effect)} {missing localRoots realTips superseded : List Tip}
    (hnormalize : normalizeCloudTipCandidates (loadUnlessMissing (source.log sidecar) missing) fuel
      key tips localRoots = some (.ok (realTips, superseded))) :
    classifyCloudTips source fuel key tips sidecar missing localRoots = some (.ok
      (classesOf (source.log sidecar) (loadUnlessMissing (source.log sidecar) missing) key realTips superseded)) := by
  unfold classifyCloudTips classesOf installedStates readableAlone
  have hsort := foldlM_sortTip (loadUnlessMissing_ne_unavailable (source.log sidecar) missing) realTips
    { dropped := superseded } []
  dsimp only
  rw [hnormalize]
  simp only [Option.map_some, bind, Except.bind, hsort, nil_append]
  generalize realTips.filter (fun t => tipClass (loadUnlessMissing (source.log sidecar) missing) t = .state) = states
  by_cases hempty : states = []
  · simp [hempty, pure, Except.pure]
  · rw [if_neg hempty]
    by_cases hjoint : (prepare (source.log sidecar) key states).isSome = true
    · have hnone : states.filter (fun t => t ∉ states) = [] := by simp
      simp only [if_pos hjoint, hnone, append_nil, pure, Except.pure]
    · simp only [if_neg hjoint, foldl_validateTip, pure, Except.pure]
      have hrest : states.filter (fun t => (prepare (source.log sidecar) key [t]).isNone) =
          states.filter (fun t => t ∉ states.filter (fun t => (prepare (source.log sidecar) key [t]).isSome)) := by
        refine filter_congr fun t ht => ?_
        cases hread : prepare (source.log sidecar) key [t] <;> simp [ht, hread]
      rw [hrest]

theorem installedStates_sublist (states : List Tip) : (installedStates log key states).Sublist states := by
  unfold installedStates readableAlone
  split
  · exact List.Sublist.refl states
  · exact filter_sublist

/-- Every candidate is in one class, once. -/
structure CloudTipClassification.Splits (c : CloudTipClassification) (tips : List Tip) : Prop where
  nodup : (c.install ++ c.pending ++ c.dropped).Nodup
  mem_iff : ∀ t, t ∈ tips ↔ t ∈ c.install ++ c.pending ++ c.dropped

theorem splits_classesOf {log : Log} {load load' : Load} {key : Bytes} {tips localRoots realTips superseded : List Tip}
    (hnormalized : Normalized load' key tips localRoots realTips superseded) :
    (classesOf log load key realTips superseded).Splits tips := by
  unfold classesOf
  dsimp only
  generalize hstates : realTips.filter (fun t => tipClass load t = .state) = states
  have hclass (t : Tip) : t ∈ states ↔ t ∈ realTips ∧ tipClass load t = .state := by simp [← hstates]
  have hinstalled := installedStates_sublist log key states
  generalize installedStates log key states = installed at hinstalled
  have hsub (t : Tip) (ht : t ∈ installed) : t ∈ realTips ∧ tipClass load t = .state :=
    (hclass t).mp (hinstalled.subset ht)
  have hreal := hnormalized.nodup_realTips
  have hnodupStates : states.Nodup := hstates ▸ hreal.filter _
  constructor
  · have hapart := hnormalized.disjoint
    simp only [nodup_append', disjoint_left, mem_append, mem_filter, decide_eq_true_eq] at hapart ⊢
    refine ⟨⟨⟨hreal.filter _, hnodupStates.sublist hinstalled, ?_⟩, ⟨hreal.filter _, hnodupStates.filter _, ?_⟩, ?_⟩,
      hnormalized.nodup_superseded, ?_⟩
    all_goals grind
  · intro t
    rw [hnormalized.mem_iff]
    simp only [mem_append, mem_filter, decide_eq_true_eq]
    cases hkind : tipClass load t <;> grind

open Classical in
/-- The candidates that hold state and that nothing readable leads to, in their order. -/
noncomputable def uppermostStates (load : Load) (key : Bytes) (tips localRoots : List Tip) : List Tip :=
  (newTipSet tips).tips.filter fun t =>
    tipClass load t = .state ∧ ∀ s ∈ tips ++ localRoots, ¬ ReadablyBelow load key s t

open Classical in
/-- Some tips are walkable together, or those of them that are walkable one by one. -/
def SplitWalkable (states : List Tip) : Prop :=
  Walkable log key states ∨ Walkable log key (states.filter fun t => Walkable log key [t])

theorem standalone_of_tipClass {log : Log} {missing : List Tip} {t : Tip}
    (hclass : tipClass (loadUnlessMissing log missing) t = .standalone) : Standalone log t := by
  unfold tipClass loadUnlessMissing at hclass
  unfold Standalone
  by_cases hmissing : t ∈ missing
  · simp [hmissing] at hclass
  · cases heff : log.lookup t with
    | none => simp [hmissing, heff] at hclass
    | some eff => simpa [hmissing, heff] using hclass

theorem walkable_installedStates_iff {log : Log} {key : Bytes} (hacyclic : lib.Acyclic (depsOf log key))
    (hzero : .zero ∉ log) (states : List Tip) :
    Walkable log key (installedStates log key states) ↔ SplitWalkable log key states := by
  have hwalk (tips : List Tip) : (prepare log key tips).isSome = true ↔ Walkable log key tips := by
    rw [prepare_isSome, bfs_isSome_iff_walkable hacyclic hzero]
  classical
  have halone : readableAlone log key states = states.filter fun t => Walkable log key [t] :=
    filter_congr fun t _ => by simp [← hwalk]
  unfold installedStates SplitWalkable
  split
  · rename_i hjoint
    simp [(hwalk states).mp hjoint]
  · rename_i hjoint
    rw [halone, or_iff_right fun h => hjoint ((hwalk states).mpr h)]

/-- The classification ends and splits the candidates. The tips it installs can be walked
together exactly if its uppermost state candidates are walkable, together or with those that
wait on a hole of their own left out. -/
theorem installed_jointly_readable_iff {source : CloudSource} {key : Bytes} {sidecar : List (Tip × Effect)}
    (hacyclic : lib.Acyclic (depsOf (source.log sidecar) key)) (hzero : .zero ∉ source.log sidecar)
    (tips missing localRoots : List Tip) : ∃ enough c, (∀ fuel, enough ≤ fuel →
        classifyCloudTips source fuel key tips sidecar missing localRoots = some (.ok c)) ∧ c.Splits tips ∧
      ((prepare (source.log sidecar) key c.install).isSome = true ↔ SplitWalkable (source.log sidecar) key
        (uppermostStates (loadUnlessMissing (source.log sidecar) missing) key tips localRoots)) := by
  have hreadable : lib.Acyclic (readableDeps (loadUnlessMissing (source.log sidecar) missing) key) :=
    Subrelation.wf (fun {_ a} hd => readableDeps_subset _ _ _ a hd) hacyclic
  obtain ⟨enough, marked, hrun, hmarked⟩ := normalize_marks (loadUnlessMissing_ne_unavailable _ missing) hreadable
    (newTipSet tips) ((newTipSet tips).tips ++ localRoots)
  refine ⟨enough, _, fun fuel hfuel => classifyCloudTips_of_normalized ?_,
    splits_classesOf (normalized_of_marks hreadable hmarked), ?_⟩
  · unfold normalizeCloudTipCandidates
    dsimp only
    rw [hrun fuel hfuel]
    rfl
  · have hstates : uppermostStates (loadUnlessMissing (source.log sidecar) missing) key tips localRoots =
        ((newTipSet tips).tips.filter (· ∉ marked)).filter
          (fun t => tipClass (loadUnlessMissing (source.log sidecar) missing) t = .state) := by
      unfold uppermostStates
      rw [filter_filter]
      refine filter_congr fun t ht => ?_
      have hcandidate : t ∈ newTipSet tips := ht
      have hroots (s : Tip) : s ∈ (newTipSet tips).tips ++ localRoots ↔ s ∈ tips ++ localRoots := by
        rw [mem_append, mem_append]
        exact or_congr_left mem_newTipSet
      have hfree : t ∉ marked ↔ ∀ s ∈ tips ++ localRoots,
          ¬ ReadablyBelow (loadUnlessMissing (source.log sidecar) missing) key s t := by
        simp only [hmarked, hcandidate, true_and, hroots, not_exists, not_and]
      rw [Bool.eq_iff_iff, Bool.and_eq_true]
      simp only [decide_eq_true_eq, hfree]
    unfold classesOf
    dsimp only
    rw [hstates, ← walkable_installedStates_iff hacyclic hzero, prepare_isSome,
      bfs_isSome_iff_walkable hacyclic hzero]
    refine walkable_append_iff fun t ht => ?_
    exact standalone_of_tipClass (of_decide_eq_true (mem_filter.mp ht).2)

/-- Two writes over a snapshot whose history is gone, a write over another hole, and a
subscription. -/
def holedCloud : CloudSource :=
  let write (deps : List Tip) : Effect := { key := [], deps := deps, kind := .noop }
  ⟨∅, (((((∅ : Log).insert ⟨1, 2⟩ { key := [], deps := [⟨1, 1⟩], kind := .snapshot { state := some {} } }).insert
    ⟨1, 3⟩ (write [⟨1, 2⟩])).insert ⟨2, 3⟩ (write [⟨1, 2⟩])).insert ⟨3, 3⟩ (write [⟨3, 2⟩])).insert
    ⟨4, 1⟩ { key := [], deps := [], kind := .subscription { subscriberNodeId := 4 } }⟩

/-- The write over the hole is left out, and the two over the snapshot are walked together. -/
theorem installed_jointly_readable_holed : ∃ enough c, (∀ fuel, enough ≤ fuel →
      classifyCloudTips holedCloud fuel [] [⟨4, 1⟩, ⟨1, 3⟩, ⟨3, 3⟩, ⟨2, 3⟩] [] [] [] = some (.ok c)) ∧
    c.Splits [⟨4, 1⟩, ⟨1, 3⟩, ⟨3, 3⟩, ⟨2, 3⟩] ∧ (prepare (holedCloud.log []) [] c.install).isSome = true := by
  have hacyclic : lib.Acyclic (depsOf (holedCloud.log []) []) := acyclic_of_offsets (by decide +kernel)
  have hzero : .zero ∉ holedCloud.log [] := by decide +kernel
  obtain ⟨enough, c, hrun, hsplits, hread⟩ :=
    installed_jointly_readable_iff hacyclic hzero [⟨4, 1⟩, ⟨1, 3⟩, ⟨3, 3⟩, ⟨2, 3⟩] [] []
  refine ⟨enough, c, hrun, hsplits, hread.mpr ?_⟩
  have hupper (t : Tip) (ht : t ∈ [⟨1, 3⟩, ⟨3, 3⟩, ⟨2, 3⟩]) (s : Tip) :
      ¬ ReadablyBelow (loadUnlessMissing (holedCloud.log []) []) [] s t := by
    rintro ⟨m, -, hdep⟩
    have hdep := readableDeps_subset _ _ _ _ hdep
    have hnone : ∀ t ∈ [⟨1, 3⟩, ⟨3, 3⟩, ⟨2, 3⟩], ∀ m ∈ (holedCloud.log []).keys,
        t ∉ depsOf (holedCloud.log []) [] m := by
      decide +kernel
    by_cases hm : m ∈ holedCloud.log []
    · exact hnone t ht m (Finmap.mem_keys.mpr hm) hdep
    · rw [depsOf_eq_nil_of_not_mem [] hm] at hdep
      cases hdep
  have hstates : uppermostStates (loadUnlessMissing (holedCloud.log []) []) [] [⟨4, 1⟩, ⟨1, 3⟩, ⟨3, 3⟩, ⟨2, 3⟩] [] =
      [⟨1, 3⟩, ⟨3, 3⟩, ⟨2, 3⟩] := by
    have hclass : ∀ t ∈ [⟨1, 3⟩, ⟨3, 3⟩, ⟨2, 3⟩], tipClass (loadUnlessMissing (holedCloud.log []) []) t = .state := by
      decide +kernel
    have hsub : tipClass (loadUnlessMissing (holedCloud.log []) []) ⟨4, 1⟩ ≠ .state := by decide +kernel
    unfold uppermostStates
    rw [show (newTipSet [⟨4, 1⟩, ⟨1, 3⟩, ⟨3, 3⟩, ⟨2, 3⟩]).tips = [⟨4, 1⟩, ⟨1, 3⟩, ⟨3, 3⟩, ⟨2, 3⟩] by decide,
      filter_cons_of_neg (by simp [hsub]), filter_eq_self]
    exact fun t ht => by simp [hclass t ht, hupper t ht]
  have hwalk {ts : List Tip} := @bfs_isSome_iff_walkable (holedCloud.log []) [] ts hacyclic hzero
  have hfirst : Walkable (holedCloud.log []) [] [⟨1, 3⟩] := hwalk.mp (by decide +kernel)
  have hsecond : Walkable (holedCloud.log []) [] [⟨2, 3⟩] := hwalk.mp (by decide +kernel)
  have hholed : ¬ Walkable (holedCloud.log []) [] [⟨3, 3⟩] := mt hwalk.mpr (by decide +kernel)
  refine .inr ?_
  rw [hstates]
  simpa [hfirst, hsecond, hholed] using hwalk.mp (by decide +kernel)

/-- Two branches with a snapshot each. What is below both snapshots is gone. -/
def splitCloud : CloudSource :=
  ⟨∅, ((((∅ : Log).insert ⟨1, 2⟩ { key := [], deps := [⟨1, 0⟩], kind := .snapshot { state := some {} } }).insert
    ⟨2, 2⟩ { key := [], deps := [⟨1, 0⟩], kind := .snapshot { state := some {} } }).insert
    ⟨1, 3⟩ { key := [], deps := [⟨1, 2⟩], kind := .noop }).insert
    ⟨2, 3⟩ { key := [], deps := [⟨2, 2⟩], kind := .noop }⟩

/-- The two tips can be read one by one and are installed, but not read together. -/
theorem split_tips_installed_unreadable : lib.Acyclic (depsOf (splitCloud.log []) []) ∧
      ∃ c, classifyCloudTips splitCloud 10 [] [⟨1, 3⟩, ⟨2, 3⟩] [] [] [] = some (.ok c) ∧
        c.install = [⟨1, 3⟩, ⟨2, 3⟩] ∧ prepare (splitCloud.log []) [] c.install = none := by
  refine ⟨acyclic_of_offsets (by decide +kernel), ⟨[⟨1, 3⟩, ⟨2, 3⟩], [], []⟩, ?_, rfl, by decide +kernel⟩
  rfl

end swytch.effects
