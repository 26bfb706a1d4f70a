import Swytch.Lib.Linear
import Swytch.Effects.Dag.Retained

open swytch.lib swytch.proto
open List hiding after

namespace swytch.effects

open Reach

open EffectRef

/-- A chain of effects, oldest first, up to its head. -/
structure Chain where
  below : List Tip
  head : Tip

def Chain.members (c : Chain) : List Tip :=
  c.below ++ [c.head]

/-- Disjoint linear chains above a common linear base, in increasing order of the
hashes of their heads. -/
structure Forked (log : Log) (key : Bytes) (base : List Tip) (chains : List Chain) : Prop where
  base_linear : Linear (depsOf log key) [] base
  chain_linear : ∀ c ∈ chains, Linear (depsOf log key) (after [] base) c.members
  nodup : (base ++ chains.flatMap Chain.members).Nodup
  sorted : chains.Pairwise (fun c c' => hashOf log c.head < hashOf log c'.head)

variable {log : Log} {key : Bytes} {base tips : List Tip} {chains : List Chain} {c : Chain} {t : Tip} {d : Dag}

section

variable (hforked : Forked log key base chains) {c' : Chain}
include hforked

theorem Forked.path (hc : c ∈ chains) : Linear (depsOf log key) [] ((base ++ c.below) ++ [c.head]) := by
  rw [append_assoc]
  exact linear_append.mpr ⟨hforked.base_linear, hforked.chain_linear c hc⟩

theorem Forked.eq_of_mem (hc : c ∈ chains) (hc' : c' ∈ chains) (ht : t ∈ c.members)
    (ht' : t ∈ c'.members) : c = c' := by
  by_contra hne
  have hdisjoint := (nodup_flatMap.mp (nodup_append.mp hforked.nodup).2.1).2
  have hsymm : Std.Symm (Function.onFun List.Disjoint Chain.members) := ⟨fun a b hab => hab.symm⟩
  exact hdisjoint.forall hc hc' hne ht ht'

/-- No chain runs through the head of another one. -/
theorem Forked.head_eq_of_reach (hc : c ∈ chains) (hc' : c' ∈ chains)
    (hreach : Reach (depsOf log key) c'.head c.head) : c.head = c'.head := by
  have hself : c.head ∈ c.members := by simp [Chain.members]
  obtain ⟨-, hchains, hapart⟩ := nodup_append.mp hforked.nodup
  obtain hbelow | heq := (hforked.path hc').mem_of_reach hreach
  · obtain hbase | hbelow := mem_append.mp hbelow
    · exact absurd rfl (hapart _ hbase _ (mem_flatMap.mpr ⟨c, hc, hself⟩))
    · have hsame : c = c' := hforked.eq_of_mem hc hc' hself (by simp [Chain.members, hbelow])
      have hnodup := (nodup_flatMap.mp hchains).1 c hc
      subst hsame
      exact absurd rfl ((nodup_append.mp hnodup).2.2 _ hbelow _ (by simp))
  · exact heq

/-- The effects below the heads are those of the base and of the chains. -/
theorem Forked.inClosure_iff (hne : chains ≠ []) (htips : tips.Perm (chains.map Chain.head)) :
    InClosure log key tips t ↔ t ∈ base ++ chains.flatMap Chain.members := by
  have hhead {c : Chain} (hc : c ∈ chains) : c.head ∈ tips :=
    htips.mem_iff.mpr (mem_map.mpr ⟨c, hc, rfl⟩)
  constructor
  · rintro ⟨u, hu, hreach⟩
    obtain ⟨c, hc, rfl⟩ := mem_map.mp (htips.mem_iff.mp hu)
    have hmembers : t ∈ base ∨ t ∈ c.members := by
      obtain hbelow | rfl := (hforked.path hc).mem_of_reach hreach
      · simp only [mem_append] at hbelow
        simp only [Chain.members, mem_append]
        tauto
      · simp [Chain.members]
    obtain hbase | hchain := hmembers
    · exact mem_append_left _ hbase
    · exact mem_append_right _ (mem_flatMap.mpr ⟨c, hc, hchain⟩)
  · have hcovered {c : Chain} (hc : c ∈ chains) (ht : t ∈ base ∨ t ∈ c.members) : InClosure log key tips t := by
      refine ⟨c.head, hhead hc, ?_⟩
      by_cases heq : t = c.head
      · exact heq ▸ refl t
      · have hbelow : t ∈ base ++ c.below := by
          simp only [Chain.members, mem_append, mem_singleton] at ht ⊢
          tauto
        obtain ⟨z, hz, hreach⟩ := (hforked.path hc).reach hbelow
        exact head hz hreach
    intro ht
    obtain hbase | hchain := mem_append.mp ht
    · obtain ⟨c, hc⟩ := exists_mem_of_ne_nil _ hne
      exact hcovered hc (.inl hbase)
    · obtain ⟨c, hc, ht⟩ := mem_flatMap.mp hchain
      exact hcovered hc (.inr ht)

theorem Forked.not_below_head (hacyclic : Acyclic (depsOf log key)) (htips : tips.Perm (chains.map Chain.head))
    {u : Tip} (ht : InClosure log key tips t) (hu : u ∈ tips) : ¬ StrictlyBelow log key t u := by
  rintro ⟨z, hz, hreach⟩
  obtain ⟨w, hw, hwt⟩ := ht
  obtain ⟨c, hc, rfl⟩ := mem_map.mp (htips.mem_iff.mp hu)
  obtain ⟨c', hc', rfl⟩ := mem_map.mp (htips.mem_iff.mp hw)
  have heq := hforked.head_eq_of_reach hc hc' (hwt.trans (head hz hreach))
  exact hacyclic.not_reach_of_mem hz (hreach.trans (heq ▸ hwt))

/-- No head lies below the snapshot that the walk starts from. -/
theorem Forked.not_below_lca (hacyclic : Acyclic (depsOf log key)) (hzero : zero ∉ log)
    (hprepare : prepare log key tips = some d) (htips : tips.Perm (chains.map Chain.head)) :
    ∀ u ∈ tips, ¬ StrictlyBelow log key d.lcaTip u := by
  intro u hu
  by_cases hlca : d.lcaTip = .zero
  · rintro ⟨z, hz, -⟩
    have hnone : log.lookup d.lcaTip = none := Finmap.lookup_eq_none.mpr (hlca ▸ hzero)
    simp [depsOf, hnone] at hz
  · obtain ⟨nodes, hbfs, -, -⟩ := prepare_eq_some hprepare
    have hcollected := bfs_collected hzero hbfs
    exact hforked.not_below_head hacyclic htips (hcollected.reach _ (hcollected.snapshot hlca).1) hu

/-- Within the base and the chains, dependencies are followed as far as they are
retained. -/
theorem Forked.replayDeps_eq (hzero : zero ∉ log) (hprepare : prepare log key tips = some d)
    (ht : t ∈ base ++ chains.flatMap Chain.members) (hkept : t ∈ d.nodes) :
    replayDeps log key d.nodes d.lcaTip t = (depsOf log key t).filter (· ∈ d.nodes) := by
  have hsingle : (depsOf log key t).length ≤ 1 := by
    obtain hbase | hchain := mem_append.mp ht
    · exact hforked.base_linear.length_children_le (by simp) hbase
    · obtain ⟨c, hc, hmem⟩ := mem_flatMap.mp hchain
      refine (hforked.chain_linear c hc).length_children_le ?_ hmem
      rw [after]
      cases base.getLast? <;> simp
  rw [replayDeps]
  split
  · have hshort : ((depsOf log key t).filter (· ∈ d.nodes)).length ≤ 1 :=
      (length_filter_le _ _).trans hsingle
    cases hfiltered : (depsOf log key t).filter (· ∈ d.nodes) with
    | nil => rfl
    | cons x rest =>
      rw [hfiltered, length_cons] at hshort
      rw [length_eq_zero_iff.mp (show rest.length = 0 by omega)]
      rfl
  · rename_i hstop
    have hlca : t = d.lcaTip := by
      by_contra hne
      exact hstop ⟨hkept, fun hcond => hne hcond.2⟩
    have hne : d.lcaTip ≠ .zero := fun heq => hzero (heq ▸ hlca ▸ (resident_of_prepare hzero hprepare).1 t hkept)
    symm
    rw [filter_eq_nil_iff]
    intro x hx
    simpa using not_mem_nodes_of_mem_depsOf_lca hzero hprepare hne (hlca ▸ hx)

end

/-- Visiting the heads of the chains one after another, once the base is listed. -/
theorem visitAll_heads {G : FinDag Tip} {keep : Tip → Bool} {listed : List Tip}
    (hlinear : ∀ c ∈ chains, Linear G.children ((after [] base).filter keep) (c.members.filter keep))
    (hhead : ∀ c ∈ chains, keep c.head = true) (hbase : ∀ t ∈ base, keep t = true → t ∈ listed)
    (hnodup : (listed ++ chains.flatMap Chain.members).Nodup) :
    G.visitAll (chains.map Chain.head) listed = listed ++ (chains.flatMap Chain.members).filter keep := by
  induction chains generalizing listed with
  | nil => simp
  | cons c chains ih =>
    rw [flatMap_cons, ← append_assoc] at hnodup
    have hmembers : c.members.filter keep = c.below.filter keep ++ [c.head] := by
      simp [Chain.members, hhead c (by simp)]
    have hvisit : G.visit c.head listed = listed ++ c.members.filter keep := by
      rw [hmembers]
      refine G.visit_linear (hmembers ▸ hlinear c (by simp)) (fun t ht => ?_) (fun t ht hlisted => ?_)
      · obtain ⟨hlast, hkeep⟩ := mem_filter.mp ht
        refine hbase t ?_ hkeep
        rw [after] at hlast
        cases hgetLast : base.getLast? with
        | none => simp [hgetLast] at hlast
        | some x => exact (by simpa [hgetLast] using hlast : t = x) ▸ mem_of_getLast? hgetLast
      · rw [← hmembers] at ht
        have hapart := (nodup_append.mp (nodup_append.mp hnodup).1).2.2
        exact hapart t hlisted t (mem_filter.mp ht).1 rfl
    have hsub : (listed ++ c.members.filter keep).Sublist (listed ++ c.members) :=
      (List.Sublist.refl _).append filter_sublist
    rw [map_cons, FinDag.visitAll_cons, hvisit, ih (fun c' hc' => hlinear c' (by simp [hc']))
      (fun c' hc' => hhead c' (by simp [hc'])) (fun t ht hkeep => by simp [hbase t ht hkeep])
      (hnodup.sublist (hsub.append (List.Sublist.refl _)))]
    simp [append_assoc]

theorem sortByHash_heads (hsorted : chains.Pairwise (fun c c' => hashOf log c.head < hashOf log c'.head))
    (htips : tips.Perm (chains.map Chain.head)) : sortByHash log tips = chains.map Chain.head := by
  have hheads : (chains.map Chain.head).Pairwise (fun a b => hashOf log a < hashOf log b) :=
    pairwise_map.mpr hsorted
  have hinjective : ∀ a ∈ chains.map Chain.head, ∀ b ∈ chains.map Chain.head,
      hashOf log a = hashOf log b → a = b := by
    intro a ha b hb heq
    by_contra hne
    have hsymm : Std.Symm (fun a b : Tip => hashOf log a ≠ hashOf log b) := ⟨fun a b hab => hab.symm⟩
    exact (hheads.imp (fun hlt => ne_of_lt hlt)).forall ha hb hne heq
  have hperm : (sortByHash log tips).Perm (chains.map Chain.head) := (perm_insertionSort _ _).trans htips
  refine hperm.eq_of_pairwise (fun a b ha hb hab hba => ?_) (sortByHash_pairwise log tips)
    (hheads.imp (fun hlt => le_of_lt hlt))
  exact hinjective a (hperm.mem_iff.mp ha) b hb (le_antisymm hab hba)

/-- What is left of a linear list of the chains or the base is linear in the
retained graph. -/
theorem Forked.linear_retained {p xs : List Tip} (hforked : Forked log key base chains) (hne : chains ≠ [])
    (hacyclic : Acyclic (depsOf log key)) (hzero : zero ∉ log)
    (hprepare : prepare log key tips = some d) (htips : tips.Perm (chains.map Chain.head))
    (hxs : ∀ t ∈ xs, t ∈ base ++ chains.flatMap Chain.members) (hlinear : Linear (depsOf log key) p xs) :
    Linear (replayDeps log key d.nodes d.lcaTip) (p.filter (· ∈ d.nodes)) (xs.filter (· ∈ d.nodes)) := by
  have hkept {t : Tip} (ht : InClosure log key tips t) :=
    mem_nodes_iff hacyclic hzero hprepare (hforked.not_below_lca hacyclic hzero hprepare htips) ht
  refine hlinear.filter (fun t ht hgone x hx => ?_)
    (fun t ht hin => hforked.replayDeps_eq hzero hprepare (hxs t ht) (by simpa using hin))
  have hclosure := (hforked.inClosure_iff hne htips).mpr (hxs t ht)
  simp only [decide_eq_false_iff_not, hkept hclosure, not_or, not_not] at hgone
  obtain ⟨hlca, z, hz, hreach⟩ := hgone
  obtain ⟨u, hu, hut⟩ := hclosure
  have hxclosure : InClosure log key tips x := ⟨u, hu, hut.trans (single hx)⟩
  simp only [decide_eq_false_iff_not, hkept hxclosure, not_or, not_not]
  exact ⟨hlca, z, hz, hreach.trans (single hx)⟩

/-- The replay of forked chains: the retained part of the base, then that of the
chains one after another. -/
theorem Forked.topoOrder_eq (hforked : Forked log key base chains) (hne : chains ≠ [])
    (hacyclic : Acyclic (depsOf log key)) (hzero : zero ∉ log)
    (hprepare : prepare log key tips = some d) (htips : tips.Perm (chains.map Chain.head)) :
    d.topoOrder = (base ++ chains.flatMap Chain.members).filter (· ∈ d.nodes) := by
  have hfree := hforked.not_below_lca hacyclic hzero hprepare htips
  have hhead : ∀ u ∈ tips, u ∈ d.nodes := fun u hu =>
    (mem_nodes_iff hacyclic hzero hprepare hfree ⟨u, hu, refl u⟩).mpr (.inr (hfree u hu))
  have hroots : sortByHash log (tips.filter (· ∈ d.nodes)) = chains.map Chain.head := by
    rw [filter_eq_self.mpr (fun u hu => by simpa using hhead u hu)]
    exact sortByHash_heads hforked.sorted htips
  rw [topoOrder_of_prepare hacyclic hzero hprepare, hroots]
  obtain ⟨c, rest, rfl⟩ := exists_cons_of_ne_nil hne
  have hc : c.head ∈ d.nodes := hhead _ (htips.mem_iff.mpr (by simp))
  have hfirst : (base ++ c.members).filter (· ∈ d.nodes) = (base ++ c.below).filter (· ∈ d.nodes) ++ [c.head] := by
    simp [Chain.members, hc]
  -- The first head brings the base along, every other one only its own chain.
  have hvisit : (replayGraph log key d.nodes d.lcaTip hacyclic).visit c.head [] =
      (base ++ c.members).filter (· ∈ d.nodes) := by
    have hpath : Linear (replayDeps log key d.nodes d.lcaTip) []
        ((base ++ c.below).filter (· ∈ d.nodes) ++ [c.head]) := by
      rw [← hfirst, Chain.members, ← append_assoc]
      refine hforked.linear_retained hne hacyclic hzero hprepare htips (fun t ht => ?_)
        (hforked.path mem_cons_self)
      simp only [flatMap_cons, Chain.members, mem_append] at ht ⊢
      tauto
    rw [hfirst]
    exact (FinDag.visit_linear _ hpath (by simp) (by simp)).trans (nil_append _)
  have hlinear : ∀ c' ∈ rest, Linear (replayDeps log key d.nodes d.lcaTip)
      ((after [] base).filter (· ∈ d.nodes)) (c'.members.filter (· ∈ d.nodes)) := by
    intro c' hc'
    have hin : c' ∈ c :: rest := mem_cons_of_mem _ hc'
    exact hforked.linear_retained hne hacyclic hzero hprepare htips
      (fun t ht => mem_append_right _ (mem_flatMap.mpr ⟨c', hin, ht⟩)) (hforked.chain_linear c' hin)
  have hnodup := hforked.nodup
  rw [flatMap_cons, ← append_assoc] at hnodup
  rw [map_cons, FinDag.visitAll_cons, hvisit,
    @visitAll_heads base rest _ (fun t => decide (t ∈ d.nodes)) _ hlinear]
  · simp [append_assoc]
  · intro c' hc'
    have hu : c'.head ∈ (c :: rest).map Chain.head := mem_map.mpr ⟨c', mem_cons_of_mem _ hc', rfl⟩
    simpa using hhead c'.head (htips.mem_iff.mpr hu)
  · intro t ht hin
    exact mem_filter.mpr ⟨mem_append_left _ ht, hin⟩
  · exact hnodup.sublist (filter_sublist.append (List.Sublist.refl _))

/-- Replay is causal, and concurrent chains are replayed contiguously: every
retained effect comes exactly once and after its retained dependencies, and
chains above a common base follow it whole, by increasing hash of their
heads, less what lies below the snapshot that the walk starts from. -/
theorem prepare_replays_chains {log : Log} {key : Bytes} {tips : List Tip}
    (hacyclic : Acyclic (depsOf log key)) (hzero : zero ∉ log) (hresident : Resident log key tips) :
    ∃ d, prepare log key tips = some d ∧ d.topoOrder.Nodup ∧ (∀ t, t ∈ d.topoOrder ↔ t ∈ d.nodes) ∧
      (∀ before t rest, d.topoOrder = before ++ t :: rest → ∀ x ∈ depsOf log key t, x ∈ d.nodes → x ∈ before) ∧
      ∀ base chains, Forked log key base chains → chains ≠ [] → tips.Perm (chains.map Chain.head) →
        d.topoOrder = (base ++ chains.flatMap Chain.members).filter (· ∈ d.nodes) ∧
        ∀ t ∈ base ++ chains.flatMap Chain.members,
          t ∈ d.nodes ↔ d.lcaTip = .zero ∨ ¬ StrictlyBelow log key d.lcaTip t := by
  obtain ⟨⟨nodes, lcaTip⟩, hbfs⟩ := bfs_isSome hresident
  obtain ⟨d, hprepare⟩ : ∃ d, prepare log key tips = some d := by simp [prepare, hbfs]
  refine ⟨d, hprepare, nodup_topoOrder hacyclic hzero hprepare,
    fun t => mem_topoOrder_iff hacyclic hzero hprepare,
    fun before t rest horder x hdep hx => mem_before_of_mem_depsOf hacyclic hzero hprepare horder hdep hx, ?_⟩
  intro base chains hforked hne htips
  refine ⟨hforked.topoOrder_eq hne hacyclic hzero hprepare htips, fun t ht => ?_⟩
  exact mem_nodes_iff hacyclic hzero hprepare (hforked.not_below_lca hacyclic hzero hprepare htips)
    ((hforked.inClosure_iff hne htips).mpr ht)

def stateSnapshotEffect (hash : Fin 256) (deps : List Tip) : Effect :=
  { key := [107], deps := deps, forkChoiceHash := [hash], kind := .snapshot { state := some {} } }

/-- A base of a plain effect and a state snapshot, and two chains above it. -/
def baseWithSnapshot : Log :=
  ((((∅ : Log).insert ⟨1, 1⟩ (plainEffect 9 [])).insert ⟨1, 2⟩ (stateSnapshotEffect 8 [⟨1, 1⟩])).insert
    ⟨1, 3⟩ (plainEffect 2 [⟨1, 2⟩])).insert ⟨2, 3⟩ (plainEffect 1 [⟨1, 2⟩])

theorem resident_baseWithSnapshot : Resident baseWithSnapshot [107] [⟨1, 3⟩, ⟨2, 3⟩] := by
  have hclosed : ∀ t ∈ baseWithSnapshot.keys, ∀ d ∈ depsOf baseWithSnapshot [107] t, d ∈ baseWithSnapshot.keys := by
    decide
  intro u hu t hut
  exact Finmap.mem_keys.mp (mem_log_of_inClosure hclosed (by decide) ⟨u, hu, hut⟩)

theorem forked_baseWithSnapshot :
    Forked baseWithSnapshot [107] [⟨1, 1⟩, ⟨1, 2⟩] [⟨[], ⟨2, 3⟩⟩, ⟨[], ⟨1, 3⟩⟩] where
  base_linear := ⟨by decide, by decide, trivial⟩
  chain_linear c hc := by
    obtain rfl | rfl := by simpa using hc
    all_goals exact ⟨by decide, trivial⟩
  nodup := by decide
  sorted := by decide

theorem prepare_replays_two_chains : ∃ d, prepare baseWithSnapshot [107] [⟨1, 3⟩, ⟨2, 3⟩] = some d ∧
      d.topoOrder = ([⟨1, 1⟩, ⟨1, 2⟩, ⟨2, 3⟩, ⟨1, 3⟩] : List Tip).filter (· ∈ d.nodes) := by
  obtain ⟨d, hprepare, -, -, -, hchains⟩ :=
    prepare_replays_chains (acyclic_of_offsets (by decide)) (by decide) resident_baseWithSnapshot
  exact ⟨d, hprepare, (hchains _ _ forked_baseWithSnapshot (by simp) (by decide)).1⟩

/-- A state snapshot in the base that every chain runs through ends the walk: the
base below it is not replayed. -/
theorem base_below_snapshot_not_replayed :
    Acyclic (depsOf baseWithSnapshot [107]) ∧ Resident baseWithSnapshot [107] [⟨1, 3⟩, ⟨2, 3⟩] ∧
      Forked baseWithSnapshot [107] [⟨1, 1⟩, ⟨1, 2⟩] [⟨[], ⟨2, 3⟩⟩, ⟨[], ⟨1, 3⟩⟩] ∧
      (prepare baseWithSnapshot [107] [⟨1, 3⟩, ⟨2, 3⟩]).map Dag.topoOrder = some [⟨1, 2⟩, ⟨2, 3⟩, ⟨1, 3⟩] :=
  ⟨acyclic_of_offsets (by decide), resident_baseWithSnapshot, forked_baseWithSnapshot, by decide⟩

end swytch.effects
