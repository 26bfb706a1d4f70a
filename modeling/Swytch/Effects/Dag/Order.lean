import Swytch.Lib.PostOrder
import Swytch.Lib.Sort
import Swytch.Effects.Dag.Walk

open swytch.lib swytch.proto List

namespace swytch.effects

open FinDag

/-- The tips replayed right below `t`: none below the snapshot the walk starts
from, elsewhere the collected dependencies in fork-choice order. -/
def replayDeps (log : Log) (key : Bytes) (nodes : List Tip) (lcaTip t : Tip) : List Tip :=
  if t ∈ nodes ∧ ¬ ((log.lookup t).any isSnapshot ∧ t = lcaTip) then
    sortByHash log ((depsOf log key t).filter (· ∈ nodes))
  else []

instance (log : Log) : Std.Total (fun a b : Tip => hashOf log a ≤ hashOf log b) := ⟨fun _ _ => le_total _ _⟩

instance (log : Log) : IsTrans Tip (fun a b => hashOf log a ≤ hashOf log b) := ⟨fun _ _ _ => le_trans⟩

theorem sortByHash_pairwise (log : Log) (tips : List Tip) :
    (sortByHash log tips).Pairwise (fun a b => hashOf log a ≤ hashOf log b) := by
  exact pairwise_insertionSort _ _

variable {log : Log} {t lcaTip : Tip} {key : Bytes} {nodes path : List Tip} {st : Topo}

theorem mem_sortByHash {tips : List Tip} : t ∈ sortByHash log tips ↔ t ∈ tips :=
  mem_insertionSort _

theorem mem_nodes_of_mem_replayDeps {d : Tip} (hd : d ∈ replayDeps log key nodes lcaTip t) :
    t ∈ nodes ∧ d ∈ nodes ∧ d ∈ depsOf log key t := by
  rw [replayDeps] at hd
  split at hd
  · rename_i hcond
    have hd' := mem_filter.mp (mem_sortByHash.mp hd)
    exact ⟨hcond.1, by simpa using hd'.2, hd'.1⟩
  · cases hd

/-- The graph that `topoCollect` replays. -/
def replayGraph (log : Log) (key : Bytes) (nodes : List Tip) (lcaTip : Tip)
    (hacyclic : Acyclic (depsOf log key)) : FinDag Tip where
  children := replayDeps log key nodes lcaTip
  inner := nodes.toFinset
  mem_inner hb := mem_toFinset.mpr (mem_nodes_of_mem_replayDeps hb).1
  acyclic := Subrelation.wf (fun hd => (mem_nodes_of_mem_replayDeps hd).2.2) hacyclic

/-- The visited set of `topoCollect` holds, of the collected tips, those already
in the order and those on the path of the recursion. -/
def Topo.Tracks (nodes path : List Tip) (st : Topo) : Prop :=
  ∀ x ∈ nodes, x ∈ st.visited ↔ x ∈ st.order ∨ x ∈ path

theorem topoCollect_of_not_mem (log : Log) (key : Bytes) (nodes : List Tip) (lcaTip : Tip) (n : Nat)
    (st : Topo) (ht : t ∉ nodes) : (topoCollect log key nodes lcaTip n t st).order = st.order ∧
      ∀ x ∈ nodes, x ∈ (topoCollect log key nodes lcaTip n t st).visited ↔ x ∈ st.visited := by
  cases n with
  | zero => exact ⟨rfl, fun _ _ => Iff.rfl⟩
  | succ n =>
    rw [topoCollect]
    by_cases hseen : t ∈ st.visited
    · simp [hseen]
    · simp only [hseen, ht, if_false, not_false_eq_true, if_true, Finset.mem_insert, true_and]
      intro x hx
      have hne : x ≠ t := fun heq => ht (heq ▸ hx)
      simp [hne]

/-- The recursion has come to an order. -/
def Topo.At (nodes path order : List Tip) (st : Topo) : Prop :=
  st.order = order ∧ st.Tracks nodes path

theorem foldl_topo_eq_visitAll {G : FinDag Tip} {f : Topo → Tip → Topo} {ds : List Tip}
    (hstep : ∀ d ∈ ds, ∀ st : Topo, st.Tracks nodes path → (f st d).At nodes path (G.visit d st.order))
    (hst : st.Tracks nodes path) : (ds.foldl f st).At nodes path (G.visitAll ds st.order) := by
  induction ds generalizing st with
  | nil => exact ⟨rfl, hst⟩
  | cons d ds ih =>
    obtain ⟨horder, htracks⟩ := hstep d (by simp) st hst
    rw [foldl_cons, visitAll_cons, ← horder]
    exact ih (fun x hx => hstep x (by simp [hx])) htracks

/-- The dependencies the recursion follows are the graph's children, up to one
single dependency outside the collected nodes, which it does not record. -/
theorem foldl_topoDeps_eq_visitAll {eff : Effect} {n : Nat} (hacyclic : Acyclic (depsOf log key))
    (ht : t ∈ nodes) (heff : log.lookup t = some eff) (hinner : ¬ (isSnapshot eff = true ∧ t = lcaTip))
    (hstep : ∀ d ∈ replayDeps log key nodes lcaTip t, ∀ st : Topo, st.Tracks nodes path →
      (topoCollect log key nodes lcaTip n d st).At nodes path
        ((replayGraph log key nodes lcaTip hacyclic).visit d st.order)) (hst : st.Tracks nodes path) :
    ((if !isBind eff ∧ eff.deps.length = 1 then eff.deps
        else sortByHash log ((keyDeps key eff).filter (· ∈ nodes))).foldl
      (fun st d => topoCollect log key nodes lcaTip n d st) st).At nodes path
        ((replayGraph log key nodes lcaTip hacyclic).visitAll (replayDeps log key nodes lcaTip t) st.order) := by
  have hchildren : replayDeps log key nodes lcaTip t =
      sortByHash log ((keyDeps key eff).filter (· ∈ nodes)) := by
    rw [replayDeps, if_pos ⟨ht, by simpa [heff] using hinner⟩, depsOf, heff]
    rfl
  split
  · rename_i hsingle
    obtain ⟨d, hd⟩ := length_eq_one_iff.mp hsingle.2
    have hkey : keyDeps key eff = [d] := by
      obtain ⟨ekey, hlc, node, deps, txn, hash, virt, kind⟩ := eff
      cases kind <;> simp_all [isBind, keyDeps]
    by_cases hmem : d ∈ nodes
    · have hone : replayDeps log key nodes lcaTip t = [d] := by
        simp [hchildren, hkey, hmem, sortByHash]
      rw [hd, ← hone]
      exact foldl_topo_eq_visitAll hstep hst
    · have hnone : replayDeps log key nodes lcaTip t = [] := by
        simp [hchildren, hkey, hmem, sortByHash]
      obtain ⟨horder, hvisited⟩ := topoCollect_of_not_mem log key nodes lcaTip n st hmem
      rw [hd, hnone]
      refine ⟨horder, fun x hx => ?_⟩
      simp only [foldl_cons, foldl_nil]
      rw [hvisited x hx, horder]
      exact hst x hx
  · rw [← hchildren]
    exact foldl_topo_eq_visitAll hstep hst

/-- The recursion with its visited set is the post-order visit of the replay graph. -/
theorem topoCollect_eq_visit (hacyclic : Acyclic (depsOf log key)) (hresident : ∀ t ∈ nodes, t ∈ log) {n : Nat}
    (hfuel : (replayGraph log key nodes lcaTip hacyclic).depth t < n) (ht : t ∈ nodes)
    (htracks : st.Tracks nodes path) (hpath : ∀ p ∈ path, ¬ Reach (replayDeps log key nodes lcaTip) t p) :
    (topoCollect log key nodes lcaTip n t st).At nodes path
      ((replayGraph log key nodes lcaTip hacyclic).visit t st.order) := by
  induction n generalizing t path st with
  | zero => omega
  | succ n ih =>
    rw [topoCollect]
    by_cases hseen : t ∈ st.visited
    · have horder : t ∈ st.order :=
        ((htracks t ht).mp hseen).resolve_right (fun hmem => hpath t hmem (Reach.refl t))
      rw [if_pos hseen, visit_of_mem _ horder]
      exact ⟨rfl, htracks⟩
    · have hnew : t ∉ st.order := fun hmem => hseen ((htracks t ht).mpr (.inl hmem))
      obtain ⟨eff, heff⟩ := Finmap.mem_iff.mp (hresident t ht)
      have hopen : Topo.Tracks nodes (t :: path) { st with visited := insert t st.visited } := by
        intro x hx
        simp only [Finset.mem_insert, mem_cons, htracks x hx]
        tauto
      simp only [hseen, ht, heff, if_false, not_true_eq_false]
      rw [visit_eq, if_neg hnew]
      by_cases hlca : isSnapshot eff = true ∧ t = lcaTip
      · have hleaf : (replayGraph log key nodes lcaTip hacyclic).children t = [] :=
          if_neg (fun hcond => hcond.2 ⟨by simp [heff, hlca.1], hlca.2⟩)
        rw [if_pos hlca, hleaf]
        refine ⟨rfl, fun x hx => ?_⟩
        have hx := hopen x hx
        simp only [mem_cons] at hx
        simp only [hx, mem_append, mem_singleton]
        tauto
      · rw [if_neg hlca]
        obtain ⟨horder, htracks'⟩ := foldl_topoDeps_eq_visitAll (n := n) hacyclic ht heff hlca (fun d hd st' hst' => by
          have hdepth : (replayGraph log key nodes lcaTip hacyclic).depth d <
              (replayGraph log key nodes lcaTip hacyclic).depth t := depth_lt _ hd
          refine ih (by omega) (mem_nodes_of_mem_replayDeps hd).2.1 hst' ?_
          intro p hp hreach
          rcases mem_cons.mp hp with rfl | hp
          · exact (replayGraph log key nodes lcaTip hacyclic).acyclic.not_reach_of_mem hd hreach
          · exact hpath p hp (Reach.head hd hreach)) hopen
        refine ⟨by simp only [horder]; rfl, fun x hx => ?_⟩
        have hx := htracks' x hx
        simp only [mem_cons] at hx
        simp only [hx, mem_append, mem_singleton]
        tauto

/-- The replay order is the post-order of the replay graph from the collected
tips, in fork-choice order. -/
theorem topoOrder_eq_visitAll (hacyclic : Acyclic (depsOf log key)) (hresident : ∀ t ∈ nodes, t ∈ log)
    (hnodup : nodes.Nodup) (tips : List Tip) : topoOrder log key nodes lcaTip tips =
      (replayGraph log key nodes lcaTip hacyclic).visitAll (sortByHash log (tips.filter (· ∈ nodes))) [] := by
  refine (@foldl_topo_eq_visitAll nodes [] {} _ _ _ (fun t ht st hst => ?_) (fun x _ => by simp)).1
  have hmem : t ∈ nodes := by simpa using (mem_filter.mp (mem_sortByHash.mp ht)).2
  refine topoCollect_eq_visit hacyclic hresident ?_ hmem hst (by simp)
  have hbound := depth_le_card (replayDeps log key nodes lcaTip) nodes.toFinset t
  rw [toFinset_card_of_nodup hnodup] at hbound
  exact Nat.lt_succ_of_le hbound

end swytch.effects
