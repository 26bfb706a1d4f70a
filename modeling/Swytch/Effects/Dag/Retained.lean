import Mathlib.Data.List.TakeWhile
import Swytch.Effects.Dag.Snapshot
import Swytch.Effects.Dag.Walk

open swytch.lib swytch.proto List

namespace swytch.effects

open EffectRef

open Reach

/-- Trimming removes whatever the stack holds. -/
theorem not_mem_trimLoop {log : Log} {key : Bytes} {n : Nat} {stack nodes : List Tip}
    (hnodup : nodes.Nodup) (hfuel : nodes.length ≤ n) : ∀ t ∈ stack, t ∉ trimLoop log key n stack nodes := by
  induction n generalizing stack nodes with
  | zero =>
    have hnil : nodes = [] := length_eq_zero_iff.mp (by omega)
    simp [trimLoop, hnil]
  | succ n ih =>
    rw [trimLoop]
    cases hdrop : stack.dropWhile (· ∉ nodes) with
    | nil =>
      intro t ht
      simpa using dropWhile_eq_nil_iff.mp hdrop t ht
    | cons cur rest =>
      obtain ⟨-, hcur, -⟩ := mem_of_dropWhile hdrop
      have hlength : (nodes.erase cur).length ≤ n := by
        rw [length_erase_of_mem hcur]
        omega
      have hstack := @ih ((depsOf log key cur).reverse ++ rest) _ (hnodup.erase cur) hlength
      have hsub := (@trimLoop_spec log key n ((depsOf log key cur).reverse ++ rest) (nodes.erase cur)).1
      intro t ht
      obtain hskipped | hrest := mem_dropWhile_or (p := fun t => decide (t ∉ nodes)) ht
      · exact fun hmem => (of_decide_eq_true hskipped) (erase_subset (hsub.subset hmem))
      · obtain rfl | hrest := mem_cons.mp (hdrop ▸ hrest)
        · exact fun hmem => hnodup.not_mem_erase (hsub.subset hmem)
        · exact hstack t (by simp [hrest])

variable {log : Log} {key : Bytes} {tips nodes : List Tip} {lcaTip t x : Tip} {d : Dag}

theorem Collected.trim_eq (hcollected : Collected log key tips nodes lcaTip) (hne : lcaTip ≠ .zero) :
    trimAncestorsOfLCA log key lcaTip nodes = trimLoop log key nodes.length (depsOf log key lcaTip).reverse nodes := by
  obtain ⟨hmem, hstate⟩ := hcollected.snapshot hne
  have hsnap := isSnapshot_of_isStateSnapshot hstate
  obtain ⟨eff, heff, hsnap⟩ : ∃ eff, log.lookup lcaTip = some eff ∧ isSnapshot eff = true := by
    simpa [Option.any_eq_true] using hsnap
  simp [trimAncestorsOfLCA, hne, hmem, heff, hsnap, depsOf_of_isSnapshot heff hsnap]

/-- What lies strictly below an effect of a key. -/
def StrictlyBelow (log : Log) (key : Bytes) (S t : Tip) : Prop :=
  ∃ d ∈ depsOf log key S, Reach (depsOf log key) d t

/-- A collected standalone subscription is a tip when the walk ends at a snapshot. -/
theorem mem_tips_of_standalone (hzero : zero ∉ log)
    (hbfs : bfs log key tips = some (nodes, lcaTip)) (hne : lcaTip ≠ .zero) (ht : t ∈ nodes)
    (halone : Standalone log t) : t ∈ tips := by
  obtain htip | ⟨y, hy, hylca, hdep⟩ := bfs_discovered hzero hbfs t ht
  · exact htip
  · have hinner : ¬ Standalone log y := not_standalone_of_mem_depsOf hdep
    exact absurd halone (((bfs_collected hzero hbfs).dominated hne y hy hylca hinner).2 t hdep).2

theorem resident_of_prepare (hzero : zero ∉ log) (hprepare : prepare log key tips = some d) :
    (∀ t ∈ d.nodes, t ∈ log) ∧ d.nodes.Nodup := by
  obtain ⟨nodes, hbfs, hnodes, -⟩ := prepare_eq_some hprepare
  have hcollected := bfs_collected hzero hbfs
  have hsub : d.nodes.Sublist nodes := hnodes ▸ trimAncestorsOfLCA_spec.1
  exact ⟨fun t ht => hcollected.resident t (hsub.subset ht), hcollected.nodup.sublist hsub⟩

/-- The replay order is the post-order of the retained graph. -/
theorem topoOrder_of_prepare (hacyclic : Acyclic (depsOf log key)) (hzero : zero ∉ log)
    (hprepare : prepare log key tips = some d) : d.topoOrder = (replayGraph log key d.nodes d.lcaTip hacyclic).visitAll
      (sortByHash log (tips.filter (· ∈ d.nodes))) [] := by
  obtain ⟨nodes, -, -, horder⟩ := prepare_eq_some hprepare
  obtain ⟨hresident, hnodup⟩ := resident_of_prepare hzero hprepare
  rw [horder, topoOrder_eq_visitAll hacyclic hresident hnodup]

/-- The snapshot of a walk is replayed without its dependencies. -/
theorem not_mem_nodes_of_mem_depsOf_lca (hzero : zero ∉ log) (hprepare : prepare log key tips = some d)
    (hne : d.lcaTip ≠ .zero) (ht : t ∈ depsOf log key d.lcaTip) : t ∉ d.nodes := by
  obtain ⟨nodes, hbfs, hnodes, -⟩ := prepare_eq_some hprepare
  have hcollected := bfs_collected hzero hbfs
  rw [hnodes, hcollected.trim_eq hne]
  exact not_mem_trimLoop hcollected.nodup le_rfl t (mem_reverse.mpr ht)

theorem mem_replayDeps (ht : t ∈ nodes) (hne : t ≠ lcaTip) (hdep : x ∈ depsOf log key t) (hx : x ∈ nodes) :
    x ∈ replayDeps log key nodes lcaTip t := by
  rw [replayDeps, if_pos ⟨ht, fun hstop => hne hstop.2⟩]
  exact mem_sortByHash.mpr (mem_filter.mpr ⟨hdep, by simpa using hx⟩)

/-- From a collected effect the walk replays its way down to every retained one
that is not a standalone subscription. -/
theorem reach_replayDeps (hcollected : Collected log key tips nodes lcaTip)
    (hacyclic : Acyclic (depsOf log key)) (hne : lcaTip ≠ .zero) (ht : t ∈ nodes) (halone : ¬ Standalone log t)
    (hx : x ∈ nodes) (hreach : Reach (depsOf log key) x t) :
    Reach (replayDeps log key (trimAncestorsOfLCA log key lcaTip nodes) lcaTip) x t := by
  induction hreach using Relation.ReflTransGen.head_induction_on with
  | refl => exact refl t
  | @head x d hdep hrest ih =>
    have hinner : ¬ Standalone log x := not_standalone_of_mem_depsOf hdep
    have hxlca : x ≠ lcaTip := by
      rintro rfl
      have htlca : t ≠ x := fun heq => hacyclic.not_reach_of_mem hdep (heq ▸ hrest)
      exact halone (hcollected.standalone_of_below hacyclic hne ht htlca (head hdep hrest))
    obtain ⟨-, hbelow⟩ := hcollected.dominated hne x hx hxlca hinner
    obtain ⟨hd, hdinner⟩ := hbelow d hdep
    have hkept := hcollected.mem_trim hacyclic hne hx hinner
    exact head (mem_replayDeps hkept hxlca hdep (hcollected.mem_trim hacyclic hne hd hdinner)) (ih hd)

section

variable (hacyclic : Acyclic (depsOf log key)) (hzero : zero ∉ log)
  (hprepare : prepare log key tips = some d)
include hacyclic hzero hprepare

/-- The replay order lists exactly the retained effects. -/
theorem mem_topoOrder_iff : t ∈ d.topoOrder ↔ t ∈ d.nodes := by
  obtain ⟨nodes, hbfs, hnodes, -⟩ := prepare_eq_some hprepare
  have hcollected := bfs_collected hzero hbfs
  have hsub : d.nodes.Sublist nodes := hnodes ▸ trimAncestorsOfLCA_spec.1
  rw [topoOrder_of_prepare hacyclic hzero hprepare, FinDag.mem_visitAll_iff _ (FinDag.Closed.nil _)]
  simp only [not_mem_nil, false_or, mem_sortByHash, mem_filter, decide_eq_true_eq]
  constructor
  · rintro ⟨u, ⟨-, hu⟩, hreach⟩
    exact mem_of_closed (s := fun x => x ∈ d.nodes)
      (fun x _ y hy => (mem_nodes_of_mem_replayDeps hy).2.1) hu hreach
  · intro ht
    by_cases hlca : d.lcaTip = .zero
    · have hall : d.nodes = nodes := by rw [hnodes, trimAncestorsOfLCA, if_pos (.inl hlca)]
      obtain ⟨u, hu, hreach⟩ := hcollected.reach t (hsub.subset ht)
      refine ⟨u, ⟨hu, hall ▸ hcollected.tips_mem u hu⟩, ?_⟩
      refine mono_on (s := fun x => x ∈ nodes) (hcollected.complete hlca) (fun x hx y hy => ?_)
        (hcollected.tips_mem u hu) hreach
      have hxlca : x ≠ d.lcaTip := fun heq => hzero (hlca ▸ heq ▸ hcollected.resident x hx)
      rw [hall]
      exact mem_replayDeps hx hxlca hy (hcollected.complete hlca x hx y hy)
    · by_cases halone : Standalone log t
      · exact ⟨t, ⟨mem_tips_of_standalone hzero hbfs hlca (hsub.subset ht) halone, ht⟩, refl t⟩
      · obtain ⟨u, hu, hreach⟩ := hcollected.reach t (hsub.subset ht)
        have hreplay := reach_replayDeps hcollected hacyclic hlca (hsub.subset ht) halone
          (hcollected.tips_mem u hu) hreach
        have hinner := not_standalone_of_reach hreach halone
        refine ⟨u, ⟨hu, hnodes ▸ hcollected.mem_trim hacyclic hlca (hcollected.tips_mem u hu) hinner⟩, ?_⟩
        rw [← hnodes] at hreplay
        exact hreplay

/-- What lies below the tips is replayed or lies below the snapshot that the walk starts from. -/
theorem mem_topoOrder_or_below (ht : InClosure log key tips t) :
    t ∈ d.topoOrder ∨ d.lcaTip ≠ .zero ∧ StrictlyBelow log key d.lcaTip t := by
  obtain ⟨nodes, hbfs, hnodes, -⟩ := prepare_eq_some hprepare
  have hcollected := bfs_collected hzero hbfs
  obtain ⟨u, hu, hut⟩ := ht
  replace hu := hcollected.tips_mem u hu
  rw [mem_topoOrder_iff hacyclic hzero hprepare, hnodes]
  by_cases hlca : d.lcaTip = .zero
  · rw [trimAncestorsOfLCA, if_pos (.inl hlca)]
    exact .inl (mem_of_closed (s := fun x => x ∈ nodes) (hcollected.complete hlca) hu hut)
  · induction hut using Relation.ReflTransGen.head_induction_on with
    | refl =>
      refine or_iff_not_imp_left.mpr fun hgone => ?_
      obtain ⟨y, hy, -, hreach⟩ := trimAncestorsOfLCA_spec.2 t hu hgone
      exact ⟨hlca, y, hy, hreach⟩
    | @head x y hdep hrest ih =>
      by_cases hx : x = d.lcaTip
      · exact .inr ⟨hlca, y, hx ▸ hdep, hrest⟩
      · exact ih ((hcollected.dominated hlca x hu hx (not_standalone_of_mem_depsOf hdep)).2 y hdep).1

theorem nodup_topoOrder : d.topoOrder.Nodup := by
  rw [topoOrder_of_prepare hacyclic hzero hprepare]
  exact FinDag.nodup_visitAll _ _ nodup_nil

/-- Retained dependencies are replayed before the effects that refer to them. -/
theorem mem_before_of_mem_depsOf {before rest : List Tip} (horder : d.topoOrder = before ++ t :: rest)
    (hdep : x ∈ depsOf log key t) (hx : x ∈ d.nodes) : x ∈ before := by
  have ht : t ∈ d.nodes := (mem_topoOrder_iff hacyclic hzero hprepare).mp (by simp [horder])
  have hchild : x ∈ replayDeps log key d.nodes d.lcaTip t := by
    refine mem_replayDeps ht ?_ hdep hx
    rintro rfl
    have hne : d.lcaTip ≠ .zero := fun heq => hzero (heq ▸ (resident_of_prepare hzero hprepare).1 _ ht)
    exact not_mem_nodes_of_mem_depsOf_lca hzero hprepare hne hdep hx
  have hpairwise := (replayGraph log key d.nodes d.lcaTip hacyclic).pairwise_visitAll
    (sortByHash log (tips.filter (· ∈ d.nodes)))
  rw [← topoOrder_of_prepare hacyclic hzero hprepare, horder, pairwise_append] at hpairwise
  have hmem : x ∈ before ++ t :: rest := horder ▸ (mem_topoOrder_iff hacyclic hzero hprepare).mpr hx
  obtain hbefore | hlater := mem_append.mp hmem
  · exact hbefore
  · obtain rfl | hlater := mem_cons.mp hlater
    · exact absurd (refl x) (hacyclic.not_reach_of_mem hdep)
    · exact absurd hchild ((pairwise_cons.mp hpairwise.2.1).1 x hlater)

/-- Of the effects below the tips, a walk retains those that do not lie below its
snapshot, provided that no tip does. -/
theorem mem_nodes_iff (htips : ∀ u ∈ tips, ¬ StrictlyBelow log key d.lcaTip u) (ht : InClosure log key tips t) :
    t ∈ d.nodes ↔ d.lcaTip = .zero ∨ ¬ StrictlyBelow log key d.lcaTip t := by
  obtain ⟨nodes, hbfs, hnodes, -⟩ := prepare_eq_some hprepare
  have hcollected := bfs_collected hzero hbfs
  have hsub : d.nodes.Sublist nodes := hnodes ▸ trimAncestorsOfLCA_spec.1
  constructor
  · intro hkept
    by_contra hnot
    obtain ⟨hne, hbelow⟩ := not_or.mp hnot
    obtain ⟨x, hx, hreach⟩ := not_not.mp hbelow
    have htlca : t ≠ d.lcaTip := fun heq => hacyclic.not_reach_of_mem hx (heq ▸ hreach)
    have halone := hcollected.standalone_of_below hacyclic hne (hsub.subset hkept) htlca (head hx hreach)
    exact htips t (mem_tips_of_standalone hzero hbfs hne (hsub.subset hkept) halone) ⟨x, hx, hreach⟩
  · intro hfree
    rw [← mem_topoOrder_iff hacyclic hzero hprepare]
    exact (mem_topoOrder_or_below hacyclic hzero hprepare ht).resolve_right fun hbelow =>
      hfree.elim hbelow.1 fun hfree => hfree hbelow.2

end

end swytch.effects
