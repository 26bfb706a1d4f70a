import Swytch.Effects.Dag.Order

open swytch.lib swytch.proto List Finmap

namespace swytch.effects

open Reach

/-- `t` is a tip of the list or an ancestor of one. -/
def InClosure (log : Log) (key : Bytes) (tips : List Tip) (t : Tip) : Prop :=
  ∃ u ∈ tips, Reach (depsOf log key) u t

/-- All dependencies of a position, in fork-choice order. -/
def orderedDeps (log : Log) (key : Bytes) (t : Tip) : List Tip :=
  sortByHash log (depsOf log key t)

/-- The whole effect graph of a key. -/
def keyGraph (log : Log) (key : Bytes) (hacyclic : Acyclic (depsOf log key)) : FinDag Tip where
  children := orderedDeps log key
  inner := log.keys
  mem_inner {a b} hb := by
    cases heff : log.lookup a with
    | none => simp [orderedDeps, depsOf, heff, sortByHash] at hb
    | some eff => exact mem_keys.mpr (mem_of_lookup_eq_some heff)
  acyclic := Subrelation.wf (fun hd => mem_sortByHash.mp hd) hacyclic

variable {log : Log} {key : Bytes} {t : Tip} {tips : List Tip}

theorem keyGraph_reach_iff {hacyclic : Acyclic (depsOf log key)} {u : Tip} :
    Reach (keyGraph log key hacyclic).children u t ↔ Reach (depsOf log key) u t :=
  ⟨mono (fun _ _ hd => mem_sortByHash.mp hd), mono (fun _ _ hd => mem_sortByHash.mpr hd)⟩

/-- Without state snapshots a walk collects the whole closure and replays it in
the post-order of the key's graph. -/
theorem prepare_of_no_state_snapshot (hacyclic : Acyclic (depsOf log key)) (hzero : EffectRef.zero ∉ log)
    (hresident : Resident log key tips)
    (hplain : ∀ t, InClosure log key tips t → (log.lookup t).any isStateSnapshot = false) :
    ∃ d, prepare log key tips = some d ∧ d.lcaTip = .zero ∧
      d.topoOrder = (keyGraph log key hacyclic).visitAll (sortByHash log tips) [] := by
  obtain ⟨⟨nodes, lcaTip⟩, hbfs⟩ := bfs_isSome hresident
  have hcollected := bfs_collected hzero hbfs
  have hlca : lcaTip = .zero := by
    by_contra hne
    obtain ⟨hmem, hsnap⟩ := hcollected.snapshot hne
    rw [hplain lcaTip (hcollected.reach lcaTip hmem)] at hsnap
    cases hsnap
  subst hlca
  have hcomplete := hcollected.complete rfl
  have htips : tips.filter (· ∈ nodes) = tips :=
    filter_eq_self.mpr (fun t ht => by simpa using hcollected.tips_mem t ht)
  have hprepare : prepare log key tips =
      some ⟨nodes, .zero, topoOrder log key nodes .zero tips⟩ := by
    simp [prepare, hbfs, trimAncestorsOfLCA]
  have hagree : ∀ t ∈ nodes, (replayGraph log key nodes .zero hacyclic).children t =
      (keyGraph log key hacyclic).children t := by
    intro t ht
    have hne : t ≠ .zero := fun heq => hzero (heq ▸ hcollected.resident t ht)
    have hall : (depsOf log key t).filter (· ∈ nodes) = depsOf log key t :=
      filter_eq_self.mpr (fun d hd => by simpa using hcomplete t ht d hd)
    simp only [replayGraph, keyGraph, replayDeps, orderedDeps, hall]
    rw [if_pos ⟨ht, fun hcond => hne hcond.2⟩]
  refine ⟨_, hprepare, rfl, ?_⟩
  simp only
  rw [topoOrder_eq_visitAll hacyclic hcollected.resident hcollected.nodup, htips]
  refine FinDag.visitAll_congr_on {t | t ∈ nodes} ?_ hagree ?_ []
  · intro t _ d hd
    exact (mem_nodes_of_mem_replayDeps hd).2.1
  · intro t ht
    exact hcollected.tips_mem t (mem_sortByHash.mp ht)

/-- A log that holds the dependencies of its effects holds the closure of its tips. -/
theorem mem_log_of_inClosure (hclosed : ∀ t ∈ log.keys, ∀ d ∈ depsOf log key t, d ∈ log.keys)
    (htips : ∀ t ∈ tips, t ∈ log.keys) (ht : InClosure log key tips t) : t ∈ log.keys := by
  obtain ⟨u, hu, hreach⟩ := ht
  exact mem_of_closed (s := fun x => x ∈ log.keys) hclosed (htips u hu) hreach

/-- `u` follows `t` in the fork-choice order of the tips. -/
def IsNextTip (log : Log) (tips : List Tip) (t u : Tip) : Prop :=
  u ∈ tips ∧ hashOf log t < hashOf log u ∧
    ∀ w ∈ tips, hashOf log t < hashOf log w → hashOf log u ≤ hashOf log w

/-- `t` is reached from `u` through the dependency of least hash at every step. -/
def LeadsTo (log : Log) (key : Bytes) : Tip → Tip → Prop :=
  Relation.ReflTransGen (fun a b => (orderedDeps log key a).head? = some b)

/-- Every redundant tip of the list is replayed when its turn comes: it lies below
a tip of smaller hash, or the next tip replays it first. -/
def Settled (log : Log) (key : Bytes) (tips : List Tip) : Prop :=
  ∀ t ∈ tips, (∃ u ∈ tips, u ≠ t ∧ Reach (depsOf log key) u t) →
    (∃ u ∈ tips, hashOf log u < hashOf log t ∧ Reach (depsOf log key) u t) ∨
    ∃ u, IsNextTip log tips t u ∧ LeadsTo log key u t

def DistinctHashes (log : Log) (key : Bytes) (tips : List Tip) : Prop :=
  ∀ a b, InClosure log key tips a → InClosure log key tips b → hashOf log a = hashOf log b → a = b

theorem inClosure_of_mem (ht : t ∈ tips) : InClosure log key tips t :=
  ⟨t, ht, refl t⟩

/-- The tips without repetition, in fork-choice order. -/
def sortedRoots (log : Log) (tips : List Tip) : List Tip :=
  (sortByHash log tips).dedup

theorem mem_sortedRoots : t ∈ sortedRoots log tips ↔ t ∈ tips := by
  rw [sortedRoots, mem_dedup, mem_sortByHash]

theorem nodup_sortedRoots (log : Log) (tips : List Tip) : (sortedRoots log tips).Nodup :=
  nodup_dedup _

theorem sortedRoots_pairwise (hdistinct : DistinctHashes log key tips) :
    (sortedRoots log tips).Pairwise (fun a b => hashOf log a < hashOf log b) := by
  have hle := (sortByHash_pairwise log tips).sublist (dedup_sublist _)
  have hne : (sortedRoots log tips).Pairwise (· ≠ ·) := nodup_sortedRoots log tips
  refine (hle.and hne).imp_of_mem ?_
  intro a b ha hb ⟨hab, hne⟩
  refine lt_of_le_of_ne hab (fun heq => hne ?_)
  exact hdistinct a b (inClosure_of_mem (mem_sortedRoots.mp ha)) (inClosure_of_mem (mem_sortedRoots.mp hb)) heq

/-- A tip that no other member of the closure depends on. -/
def Maximal (log : Log) (key : Bytes) (tips : List Tip) (t : Tip) : Prop :=
  ∀ u, InClosure log key tips u → Reach (depsOf log key) u t → u = t

open Classical in
/-- A settled list replays like its maximal tips alone. -/
theorem visitAll_maximal_of_settled (hacyclic : Acyclic (depsOf log key))
    (hdistinct : DistinctHashes log key tips) (hsettled : Settled log key tips) :
    (keyGraph log key hacyclic).visitAll (sortByHash log tips) [] = (keyGraph log key hacyclic).visitAll
        ((sortedRoots log tips).filter (fun t => Maximal log key tips t)) [] := by
  have hstrict := sortedRoots_pairwise hdistinct
  have hdedup := (keyGraph log key hacyclic).visitAll_dedup_of_pairwise (sortByHash_pairwise log tips)
    (fun a ha b hb hab hba => hdistinct a b (inClosure_of_mem (mem_sortByHash.mp ha))
      (inClosure_of_mem (mem_sortByHash.mp hb)) (le_antisymm hab hba)) []
  rw [hdedup]
  apply FinDag.visitAll_filter_of_covered _ _ (nodup_dedup _) (FinDag.Closed.nil _)
  intro before t after hsplit hredundant
  rw [show (sortByHash log tips).dedup = sortedRoots log tips from rfl] at hsplit
  have htips (x : Tip) : x ∈ tips ↔ x ∈ before ∨ x = t ∨ x ∈ after := by
    rw [← mem_sortedRoots, hsplit]
    simp
  rw [hsplit, pairwise_append, pairwise_cons] at hstrict
  obtain ⟨-, ⟨hafter, hsortedAfter⟩, hbefore⟩ := hstrict
  have habove : ∃ u ∈ tips, u ≠ t ∧ Reach (depsOf log key) u t := by
    have hnot : ¬ Maximal log key tips t := by simpa using hredundant
    simp only [Maximal, not_forall] at hnot
    obtain ⟨u, ⟨v, hv, hvu⟩, hut, hne⟩ := hnot
    refine ⟨v, hv, fun heq => hne ?_, hvu.trans hut⟩
    exact hacyclic.antisymm hut (heq ▸ hvu)
  right
  rcases hsettled t ((htips t).mpr (by simp)) habove with ⟨u, hu, hlt, hreach⟩ | ⟨u, hnext, hlead⟩
  · left
    refine ⟨u, ?_, keyGraph_reach_iff.mpr hreach⟩
    rcases (htips u).mp hu with hmem | heq | hmem
    · exact hmem
    · exact absurd (heq ▸ hlt) (lt_irrefl _)
    · exact absurd hlt (lt_asymm (hafter u hmem))
  · right
    obtain ⟨hu, hlt, hleast⟩ := hnext
    have humem : u ∈ after := by
      rcases (htips u).mp hu with hmem | heq | hmem
      · exact absurd hlt (lt_asymm (hbefore u hmem t (by simp)))
      · exact absurd (heq ▸ hlt) (lt_irrefl _)
      · exact hmem
    cases after with
    | nil => cases humem
    | cons w rest =>
      have hw : w ∈ tips := (htips w).mpr (by simp)
      have hle := hleast w hw (hafter w (by simp))
      have hwu : w = u := by
        rcases mem_cons.mp humem with heq | hmem
        · exact heq.symm
        · exact absurd (rel_of_pairwise_cons hsortedAfter hmem) (not_lt_of_ge hle)
      exact ⟨w, rest, rfl, hwu ▸ hlead⟩

/-- Replay depends only on the causal history: two tip lists with the same closure
emit the same effects in the same order, provided each replays its redundant
tips when their turn comes. -/
theorem iterate_eq_of_same_closure {log : Log} {key activeTxnID : Bytes} {tips tips' : List Tip}
    (hacyclic : Acyclic (depsOf log key)) (hzero : EffectRef.zero ∉ log)
    (hresident : Resident log key tips) (hdistinct : DistinctHashes log key tips)
    (hplain : ∀ t, InClosure log key tips t → (log.lookup t).any isStateSnapshot = false)
    (hclosure : ∀ t, InClosure log key tips t ↔ InClosure log key tips' t)
    (hsettled : Settled log key tips) (hsettled' : Settled log key tips') :
    ∃ d d', prepare log key tips = some d ∧ prepare log key tips' = some d' ∧
      iterate log activeTxnID d = iterate log activeTxnID d' := by
  classical
  have hresident' : Resident log key tips' := by
    intro u hu t hreach
    obtain ⟨v, hv, hvt⟩ := (hclosure t).mpr ⟨u, hu, hreach⟩
    exact hresident v hv t hvt
  have hdistinct' : DistinctHashes log key tips' := fun a b ha hb heq =>
    hdistinct a b ((hclosure a).mpr ha) ((hclosure b).mpr hb) heq
  have hmaximal (t : Tip) : Maximal log key tips t ↔ Maximal log key tips' t := by
    simp only [Maximal, hclosure]
  obtain ⟨d, hd, hlca, horder⟩ := prepare_of_no_state_snapshot hacyclic hzero hresident hplain
  obtain ⟨d', hd', hlca', horder'⟩ := prepare_of_no_state_snapshot hacyclic hzero hresident'
    (fun t ht => hplain t ((hclosure t).mpr ht))
  refine ⟨d, d', hd, hd', ?_⟩
  have hmem (t : Tip) (hmax : Maximal log key tips t) : t ∈ tips ↔ t ∈ tips' := by
    constructor
    · intro ht
      obtain ⟨u, hu, hut⟩ := (hclosure t).mp (inClosure_of_mem ht)
      exact hmax u ((hclosure u).mpr (inClosure_of_mem hu)) hut ▸ hu
    · intro ht
      obtain ⟨u, hu, hut⟩ := (hclosure t).mpr (inClosure_of_mem ht)
      exact hmax u (inClosure_of_mem hu) hut ▸ hu
  have hroots : (sortedRoots log tips).filter (fun t => Maximal log key tips t) =
      (sortedRoots log tips').filter (fun t => Maximal log key tips' t) := by
    refine List.Perm.eq_of_pairwise ?_ ((sortedRoots_pairwise hdistinct).filter _)
      ((sortedRoots_pairwise hdistinct').filter _) ?_
    · exact fun a b _ _ hab hba => absurd hab (lt_asymm hba)
    · refine (perm_ext_iff_of_nodup ((nodup_sortedRoots log tips).filter _)
        ((nodup_sortedRoots log tips').filter _)).mpr ?_
      intro t
      simp only [mem_filter, mem_sortedRoots, decide_eq_true_eq, ← hmaximal]
      exact and_congr_left (fun hmax => hmem t hmax)
  have hsame : d.topoOrder = d'.topoOrder := by
    rw [horder, horder', visitAll_maximal_of_settled hacyclic hdistinct hsettled,
      visitAll_maximal_of_settled hacyclic hdistinct' hsettled', hroots]
  rw [iterate, iterate, hsame, hlca, hlca']

def plainEffect (hash : Fin 256) (deps : List Tip) : Effect :=
  { key := [107], deps := deps, forkChoiceHash := [hash], kind := .noop }

/-- An effect and one that depends on it and has the smaller hash. -/
def chainLog : Log :=
  ((∅ : Log).insert ⟨1, 1⟩ (plainEffect 2 [])).insert ⟨1, 2⟩ (plainEffect 1 [⟨1, 1⟩])

theorem iterate_eq_chain :
    ∃ d d', prepare chainLog [107] [⟨1, 2⟩] = some d ∧ prepare chainLog [107] [⟨1, 2⟩, ⟨1, 1⟩] = some d' ∧
      iterate chainLog [] d = iterate chainLog [] d' := by
  have hclosed : ∀ t ∈ chainLog.keys, ∀ d ∈ depsOf chainLog [107] t, d ∈ chainLog.keys := by decide
  have hmem {t : Tip} (ht : InClosure chainLog [107] [⟨1, 2⟩] t) : t ∈ chainLog.keys :=
    mem_log_of_inClosure hclosed (by decide) ht
  have hreach : Reach (depsOf chainLog [107]) ⟨1, 2⟩ ⟨1, 1⟩ := single (by decide)
  refine iterate_eq_of_same_closure (acyclic_of_offsets (by decide)) (by decide) ?_ ?_ ?_ ?_ ?_ ?_
  · exact fun u hu t hut => mem_keys.mp (hmem ⟨u, hu, hut⟩)
  · have hhashes : ∀ a ∈ chainLog.keys, ∀ b ∈ chainLog.keys,
        hashOf chainLog a = hashOf chainLog b → a = b := by decide
    exact fun a b ha hb => hhashes a (hmem ha) b (hmem hb)
  · have hplain : ∀ t ∈ chainLog.keys, (chainLog.lookup t).any isStateSnapshot = false := by decide
    exact fun t ht => hplain t (hmem ht)
  · intro t
    simp only [InClosure, mem_cons, not_mem_nil, or_false, exists_eq_or_imp, exists_eq_left]
    exact ⟨.inl, fun h => h.elim id hreach.trans⟩
  · rintro t ht ⟨u, hu, hne, -⟩
    simp_all
  · intro t ht ⟨u, hu, hne, hut⟩
    left
    rcases (by simpa using ht : t = ⟨1, 2⟩ ∨ t = ⟨1, 1⟩) with rfl | rfl
    · have hu : u = ⟨1, 1⟩ := by simpa [hne] using hu
      subst hu
      rcases hut.cases_head with heq | ⟨c, hc, -⟩
      · exact absurd heq hne
      · exact absurd hc (by simp [show depsOf chainLog [107] ⟨1, 1⟩ = [] by decide])
    · exact ⟨⟨1, 2⟩, by simp, by decide, hreach⟩

def boundTip : Effect :=
  { key := [107], deps := [⟨1, 2⟩], txnId := [1], forkChoiceHash := [2], kind := .noop }

def boundEnvelope : Effect :=
  { key := [106], deps := [⟨1, 3⟩], txnId := [1], forkChoiceHash := [5],
    kind := .txnBind ⟨[⟨[106], [], .zero⟩, ⟨[107], [⟨1, 2⟩], ⟨1, 3⟩⟩], none, 1, []⟩ }

/-- Two writes above a common root, and a transaction above the first of them:
its data effect at offset 3 and its bind at offset 4. -/
def forkedLog : Log :=
  (((((∅ : Log).insert ⟨1, 1⟩ (plainEffect 1 [])).insert ⟨1, 2⟩ (plainEffect 4 [⟨1, 1⟩])).insert
    ⟨2, 2⟩ (plainEffect 3 [⟨1, 1⟩])).insert ⟨1, 3⟩ boundTip).insert ⟨1, 4⟩ boundEnvelope

/-- A bind indexed on a key that is not its own leaves the data tip below it in the
index. Here that redundant tip makes the two writes change places. -/
theorem iterate_depends_on_redundant_tip :
    Acyclic (depsOf forkedLog [107]) ∧ Resident forkedLog [107] [⟨1, 4⟩, ⟨2, 2⟩] ∧
      DistinctHashes forkedLog [107] [⟨1, 4⟩, ⟨2, 2⟩] ∧
      (∀ t, InClosure forkedLog [107] [⟨1, 4⟩, ⟨2, 2⟩] t → (forkedLog.lookup t).any isStateSnapshot = false) ∧
      (∀ t, InClosure forkedLog [107] [⟨1, 4⟩, ⟨2, 2⟩] t ↔ InClosure forkedLog [107] [⟨1, 3⟩, ⟨1, 4⟩, ⟨2, 2⟩] t) ∧
      (prepare forkedLog [107] [⟨1, 4⟩, ⟨2, 2⟩]).map (fun d => (iterate forkedLog [] d).map Prod.fst) =
        some [⟨1, 1⟩, ⟨2, 2⟩, ⟨1, 2⟩, ⟨1, 4⟩] ∧ (prepare forkedLog [107] [⟨1, 3⟩, ⟨1, 4⟩, ⟨2, 2⟩]).map
          (fun d => (iterate forkedLog [] d).map Prod.fst) = some [⟨1, 1⟩, ⟨1, 2⟩, ⟨2, 2⟩, ⟨1, 4⟩] := by
  have hclosed : ∀ t ∈ forkedLog.keys, ∀ d ∈ depsOf forkedLog [107] t, d ∈ forkedLog.keys := by decide
  have hmem {t : Tip} (ht : InClosure forkedLog [107] [⟨1, 4⟩, ⟨2, 2⟩] t) : t ∈ forkedLog.keys :=
    mem_log_of_inClosure hclosed (by decide) ht
  have hreach : Reach (depsOf forkedLog [107]) ⟨1, 4⟩ ⟨1, 3⟩ := single (by decide)
  refine ⟨acyclic_of_offsets (by decide), ?_, ?_, ?_, ?_, by decide, by decide⟩
  · exact fun u hu t hut => mem_keys.mp (hmem ⟨u, hu, hut⟩)
  · have hhashes : ∀ a ∈ forkedLog.keys, ∀ b ∈ forkedLog.keys,
        hashOf forkedLog a = hashOf forkedLog b → a = b := by decide
    exact fun a b ha hb => hhashes a (hmem ha) b (hmem hb)
  · have hplain : ∀ t ∈ forkedLog.keys, (forkedLog.lookup t).any isStateSnapshot = false := by decide
    exact fun t ht => hplain t (hmem ht)
  · intro t
    simp only [InClosure, mem_cons, not_mem_nil, or_false, exists_eq_or_imp, exists_eq_left]
    exact ⟨.inr, fun h => h.elim (fun h => .inl (hreach.trans h)) id⟩

end swytch.effects
