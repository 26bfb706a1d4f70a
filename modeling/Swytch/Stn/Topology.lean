import Swytch.Stn.Query
import Mathlib.Data.List.Perm.Subperm

namespace swytch.stn

open swytch.lib Function List Cardinality Network

variable {n u w : Nat} {s : Network} {us order : List Nat} {P : Traced → Prop} {add : Traced → Nat → Nat → Traced}
  {rank : Nat → Nat} {ranges : Ranges} {t : Traced}

namespace Network

/-- The order is a perfect elimination order of the graph. -/
structure Eliminates (s : Network) (order : List Nat) : Prop where
  perm : order.Perm (range s.size)
  clique : ∀ {v x y}, x ∈ s.adj v → y ∈ s.adj v → order.idxOf v < order.idxOf x → order.idxOf v < order.idxOf y →
    x ≠ y → y ∈ s.adj x

theorem idxOf_injOn (hperm : order.Perm (range n)) :
    Set.InjOn (fun v => order.idxOf v) (Finset.range n) := by
  intro u hu v hv heq
  have hmem : ∀ {x}, x ∈ Finset.range n → x ∈ order := fun hx =>
    hperm.mem_iff.mpr (mem_range.mpr (Finset.mem_range.mp hx))
  exact (idxOf_inj (hmem (Finset.mem_coe.mp hu))).mp heq

theorem Eliminates.peo (hshape : s.Shape) {order : List Nat} (h : s.Eliminates order) :
    PerfectElimination s.graph (Finset.range s.size) (fun v => order.idxOf v) where
  mem hadj := Finset.mem_range.mpr (hshape.lt (hshape.adj_iff.mp hadj))
  inj := idxOf_injOn h.perm
  clique hx hy hvx hvy hxy := by
    rw [hshape.adj_iff] at *
    exact h.clique hx hy hvx hvy hxy

/-- The state of the maximum cardinality search after some vertices were selected. -/
structure Searched (n : Nat) (state : Cardinality × List Nat) : Prop where
  queue : state.1.Valid
  contains : ∀ v, (state.1.count v).isSome = true ↔ v < n ∧ v ∉ state.2
  nodup : state.2.Nodup
  lt : ∀ v ∈ state.2, v < n

theorem increments (us : List Nat) (q : Cardinality) (h : q.Valid) :
    (us.foldl (fun q u => if q.contains u then q.increment u else q) q).Valid ∧
      ∀ v, ((us.foldl (fun q u => if q.contains u then q.increment u else q) q).count v).isSome =
        (q.count v).isSome := by
  induction us generalizing q with
  | nil => exact ⟨h, fun v => rfl⟩
  | cons u us ih =>
    rw [foldl_cons]
    by_cases hin : q.contains u = true
    · rw [if_pos hin]
      obtain ⟨k, hk⟩ := contains_iff.mp hin
      obtain ⟨hvalid, hcount⟩ := ih _ (h.increment u)
      refine ⟨hvalid, fun v => ?_⟩
      rw [hcount, count_increment hk, update_apply]
      split
      · rename_i hv
        rw [hv, hk]
        rfl
      · rfl
    · rw [if_neg hin]
      exact ih q h

theorem Searched.step (ranges : Ranges) {state : Cardinality × List Nat} (h : Searched s.size state)
    (hlength : state.2.length < s.size) : Searched s.size (s.searchStep ranges state) ∧
      (s.searchStep ranges state).2.length = state.2.length + 1 := by
  unfold searchStep
  cases hmax : state.1.maximum.2 with
  | none =>
    -- there is a vertex that was not selected
    have hall : range s.size ⊆ state.2 := by
      intro v hv
      by_contra hout
      have hsome := (h.contains v).mpr ⟨mem_range.mp hv, hout⟩
      rw [h.queue.maximum_none hmax v] at hsome
      cases hsome
    have hle := (subperm_of_subset nodup_range hall).length_le
    rw [length_range] at hle
    omega
  | some v =>
    obtain ⟨k, hk, _⟩ := h.queue.maximum_some hmax
    obtain ⟨hv, hnot⟩ := (h.contains v).mp (by rw [hk]; rfl)
    obtain ⟨hvalid, hcount⟩ := increments (s.neighbors (ranges.search v) v) _ (h.queue.maximum.remove v)
    refine ⟨⟨hvalid, fun u => ?_, nodup_cons.mpr ⟨hnot, h.nodup⟩, fun u hu => ?_⟩, rfl⟩
    · dsimp only
      rw [hcount, count_remove, count_maximum, update_apply, mem_cons]
      split
      · rename_i huv
        simp [huv]
      · rename_i huv
        rw [h.contains]
        simp [huv]
    · rcases mem_cons.mp hu with rfl | hold
      · exact hv
      · exact h.lt u hold

theorem searchOrder_perm (s : Network) (ranges : Ranges) : (s.searchOrder ranges).Perm (range s.size) := by
  have hloop : ∀ k ≤ s.size, Searched s.size ((s.searchStep ranges)^[k] (newCardinality s.size, [])) ∧
      ((s.searchStep ranges)^[k] (newCardinality s.size, [])).2.length = k := by
    intro k
    induction k with
    | zero =>
      intro _
      refine ⟨⟨valid_new s.size, fun v => ?_, nodup_nil, fun v hv => absurd hv not_mem_nil⟩, rfl⟩
      by_cases hv : v < s.size <;> simp [newCardinality, hv]
    | succ k ih =>
      intro hk
      obtain ⟨hsearched, hlength⟩ := ih (by omega)
      rw [iterate_succ_apply']
      obtain ⟨hnext, hnextLength⟩ := hsearched.step ranges (by omega)
      exact ⟨hnext, by omega⟩
  obtain ⟨h, hlength⟩ := hloop s.size (le_refl _)
  apply (subperm_of_subset h.nodup fun v hv => mem_range.mpr (h.lt v hv)).perm_of_length_le
  rw [length_range]
  exact hlength.ge

theorem foldl_parent (rank : Nat → Nat) (v : Nat) (us : List Nat) (p : Option Nat) :
    (us.foldl (fun parent u => if rank v < rank u ∧ parent.all (fun p => rank u < rank p) then some u else parent) p =
        none → p = none ∧ ∀ u ∈ us, ¬ rank v < rank u) ∧
      ∀ q, us.foldl (fun parent u => if rank v < rank u ∧ parent.all (fun p => rank u < rank p) then some u else parent)
        p = some q → (p = some q ∨ q ∈ us ∧ rank v < rank q) ∧ (∀ r, p = some r → rank q ≤ rank r) ∧
          ∀ u ∈ us, rank v < rank u → rank q ≤ rank u := by
  induction us generalizing p with
  | nil =>
    refine ⟨fun h => ⟨h, fun u hu => absurd hu not_mem_nil⟩, fun q hq => ⟨.inl hq, fun r hr => ?_, ?_⟩⟩
    · cases hq.symm.trans hr
      exact Nat.le_refl _
    · exact fun u hu => absurd hu not_mem_nil
  | cons u us ih =>
    rw [foldl_cons]
    by_cases htake : rank v < rank u ∧ p.all (fun p => rank u < rank p) = true
    · rw [if_pos htake]
      obtain ⟨hnone, hsome⟩ := ih (some u)
      refine ⟨fun h => absurd (hnone h).1 (by simp), fun q hq => ?_⟩
      obtain ⟨hfrom, hle, hleast⟩ := hsome q hq
      have hqu := hle u rfl
      refine ⟨?_, fun r hr => ?_, fun x hx hrank => ?_⟩
      · cases hfrom with
        | inl heq =>
          cases heq
          exact .inr ⟨mem_cons_self, htake.1⟩
        | inr hin => exact .inr ⟨mem_cons_of_mem u hin.1, hin.2⟩
      · have hur : rank u < rank r := by simpa [hr] using htake.2
        omega
      · rcases mem_cons.mp hx with rfl | hold
        · exact hqu
        · exact hleast x hold hrank
    · rw [if_neg htake]
      obtain ⟨hnone, hsome⟩ := ih p
      refine ⟨fun h => ?_, fun q hq => ?_⟩
      · obtain ⟨hp, hlater⟩ := hnone h
        refine ⟨hp, fun x hx => ?_⟩
        rcases mem_cons.mp hx with rfl | hold
        · exact fun hrank => htake ⟨hrank, by rw [hp]; rfl⟩
        · exact hlater x hold
      · obtain ⟨hfrom, hle, hleast⟩ := hsome q hq
        refine ⟨hfrom.imp_right fun hin => ⟨mem_cons_of_mem u hin.1, hin.2⟩, hle, fun x hx hrank => ?_⟩
        rcases mem_cons.mp hx with rfl | hold
        · cases hp : p with
          | none => exact absurd ⟨hrank, by rw [hp]; rfl⟩ htake
          | some r =>
            have hqr := hle r hp
            have hxr : ¬ rank x < rank r := fun hlt => htake ⟨hrank, by rw [hp]; simpa using hlt⟩
            omega
        · exact hleast x hold hrank

theorem mem_neighbors {range : RangeOrder Nat} {v : Nat} : u ∈ s.neighbors range v ↔ u ∈ s.adj v := by
  unfold neighbors
  rw [RangeOrder.mem_order, Finmap.mem_keys]

/-- The check of one vertex compares its later neighbours with the first of them. -/
theorem adj_of_siblingsAdjacent {v p : Nat}
    (h : s.siblingsAdjacent ranges rank v = true) (hinj : ∀ x ∈ s.adj v, ∀ y ∈ s.adj v, rank x = rank y → x = y)
    (hp : p ∈ s.adj v) (hvp : rank v < rank p) (hfirst : ∀ y ∈ s.adj v, rank v < rank y → rank p ≤ rank y)
    (hu : u ∈ s.adj v) (hvu : rank v < rank u) (hup : u ≠ p) : u ∈ s.adj p := by
  obtain ⟨hnone, hsome⟩ := foldl_parent rank v (s.neighbors (ranges.parent v) v) none
  unfold siblingsAdjacent at h
  cases hparent : s.findParent ranges rank v with
  | none => exact absurd hvp ((hnone hparent).2 p (mem_neighbors.mpr hp))
  | some q =>
    obtain ⟨hfrom, _, hleast⟩ := hsome q hparent
    obtain ⟨hq, hvq⟩ := hfrom.resolve_left fun heq => by cases heq
    have hqp : q = p := by
      apply hinj q (mem_neighbors.mp hq) p hp
      exact Nat.le_antisymm (hleast p (mem_neighbors.mpr hp) hvp) (hfirst q (mem_neighbors.mp hq) hvq)
    subst hqp
    simp only [hparent, all_eq_true] at h
    have hcheck := h u (mem_neighbors.mpr hu)
    simpa [hup, hvu] using hcheck

/-- A recognized order is a perfect elimination order. -/
theorem eliminates_chordalOrder (hshape : s.Shape)
    (h : (s.chordalOrder ranges).2 = some rank) :
    s.Eliminates (s.chordalOrder ranges).1 ∧ rank = fun v => (s.chordalOrder ranges).1.idxOf v := by
  have hperm : (s.chordalOrder ranges).1.Perm (range s.size) := searchOrder_perm s ranges
  unfold chordalOrder at h
  dsimp only at h
  split at h
  · rename_i hall
    cases h
    refine ⟨⟨hperm, fun {v x y} hx hy hvx hvy hxy => ?_⟩, rfl⟩
    have hinj := idxOf_injOn hperm
    have hpeo : PerfectElimination s.graph (Finset.range s.size) fun v => (s.chordalOrder ranges).1.idxOf v := by
      apply PerfectElimination.of_parents s.size _ hinj
      · intro x hx
        have hlt := idxOf_lt_length_iff.mpr (hperm.mem_iff.mpr (mem_range.mpr (Finset.mem_range.mp hx)))
        rwa [hperm.length_eq, length_range] at hlt
      · intro v p u hvp hrank hfirst hvu hu hup
        simp only [hshape.adj_iff] at *
        have hcheck := all_eq_true.mp hall v (mem_range.mpr (hshape.lt hvp))
        apply adj_of_siblingsAdjacent hcheck _ hvp hrank hfirst hvu hu hup
        intro x hx y hy heq
        exact hinj (Finset.mem_coe.mpr (Finset.mem_range.mpr (hshape.lt (hshape.symm hx))))
          (Finset.mem_coe.mpr (Finset.mem_range.mpr (hshape.lt (hshape.symm hy)))) heq
      · exact fun hadj => Finset.mem_range.mpr (hshape.lt (hshape.adj_iff.mp hadj))
    exact hshape.adj_iff.mp (hpeo.clique (hshape.adj_iff.mpr hx) (hshape.adj_iff.mpr hy) hvx hvy hxy)
  · cases h

end Network

/-- An edge is added between two vertices that are not adjacent; `P` is kept. -/
def AddsEdges (P : Traced → Prop) (n : Nat) (add : Traced → Nat → Nat → Traced) : Prop :=
  ∀ t u w, P t → u < n → w < n → u ≠ w → w ∉ t.network.adj u →
    P (add t u w) ∧ ∀ x y, y ∈ (add t u w).network.adj x ↔ x = u ∧ y = w ∨ x = w ∧ y = u ∨ y ∈ t.network.adj x

namespace Elimination

theorem exists_pop (degree : Nat → Int) {remaining : List Nat} (hne : remaining ≠ []) :
    ∃ v ∈ remaining, pop degree remaining = some v := by
  induction remaining with
  | nil => exact absurd rfl hne
  | cons v rest ih =>
    unfold pop
    cases hpop : pop degree rest with
    | none => exact ⟨v, mem_cons_self, rfl⟩
    | some w =>
      have hw : w ∈ rest := by
        by_cases hrest : rest = []
        · rw [hrest] at hpop
          cases hpop
        · obtain ⟨x, hx, hpopx⟩ := ih hrest
          cases hpop.symm.trans hpopx
          exact hx
      dsimp only
      split
      · exact ⟨v, mem_cons_self, rfl⟩
      · exact ⟨w, mem_cons_of_mem v hw, rfl⟩

theorem mem_pairs (h : (u, w) ∈ pairs us) : u ∈ us ∧ w ∈ us := by
  induction us with
  | nil => cases h
  | cons x rest ih =>
    simp only [pairs, mem_append, mem_map, Prod.mk.injEq] at h
    rcases h with ⟨y, hy, rfl, rfl⟩ | hrest
    · exact ⟨mem_cons_self, mem_cons_of_mem _ hy⟩
    · exact ⟨mem_cons_of_mem _ (ih hrest).1, mem_cons_of_mem _ (ih hrest).2⟩

theorem ne_of_mem_pairs (hnodup : us.Nodup) (h : (u, w) ∈ pairs us) : u ≠ w := by
  induction us with
  | nil => cases h
  | cons x rest ih =>
    obtain ⟨hx, hrest⟩ := nodup_cons.mp hnodup
    simp only [pairs, mem_append, mem_map, Prod.mk.injEq] at h
    rcases h with ⟨y, hy, rfl, rfl⟩ | htail
    · exact fun heq => hx (heq ▸ hy)
    · exact ih hrest htail

theorem pairs_of_mem (hu : u ∈ us) (hw : w ∈ us) (huw : u ≠ w) : (u, w) ∈ pairs us ∨ (w, u) ∈ pairs us := by
  induction us with
  | nil => cases hu
  | cons x rest ih =>
    simp only [pairs, mem_append, mem_map, Prod.mk.injEq]
    rcases mem_cons.mp hu with rfl | hu'
    · have hw' := (mem_cons.mp hw).resolve_left (Ne.symm huw)
      exact .inl (.inl ⟨w, hw', rfl, rfl⟩)
    · rcases mem_cons.mp hw with rfl | hw'
      · exact .inr (.inl ⟨u, hu', rfl, rfl⟩)
      · exact (ih hu' hw').imp .inr .inr

/-- All pairs get adjacent, and vertices outside of them keep their neighbours. -/
theorem fillPairs (hadd : AddsEdges P n add) {L : List Nat} (hL : ∀ x ∈ L, x < n) {ps : List (Nat × Nat)}
    (hps : ∀ p ∈ ps, p.1 ∈ L ∧ p.2 ∈ L ∧ p.1 ≠ p.2) (state : Traced × (Nat → Int)) (h : P state.1) :
    P (ps.foldl (fillPair add) state).1 ∧
      (∀ x y, y ∈ state.1.network.adj x → y ∈ (ps.foldl (fillPair add) state).1.network.adj x) ∧
      (∀ p ∈ ps, p.2 ∈ (ps.foldl (fillPair add) state).1.network.adj p.1) ∧
      ∀ x y, x ∉ L → y ∈ (ps.foldl (fillPair add) state).1.network.adj x → y ∈ state.1.network.adj x := by
  induction ps generalizing state with
  | nil => exact ⟨h, fun _ _ hy => hy, fun p hp => absurd hp not_mem_nil, fun _ _ _ hy => hy⟩
  | cons p ps ih =>
    obtain ⟨hp1, hp2, hpne⟩ := hps p mem_cons_self
    have hrest : ∀ q ∈ ps, q.1 ∈ L ∧ q.2 ∈ L ∧ q.1 ≠ q.2 := fun q hq => hps q (mem_cons_of_mem p hq)
    rw [foldl_cons]
    by_cases hin : p.2 ∈ state.1.network.adj p.1
    · have hskip : fillPair add state p = state := if_pos hin
      rw [hskip]
      obtain ⟨hP, hmono, hfilled, hframe⟩ := ih hrest state h
      refine ⟨hP, hmono, fun q hq => ?_, hframe⟩
      rcases mem_cons.mp hq with rfl | hold
      · exact hmono _ _ hin
      · exact hfilled q hold
    · obtain ⟨hPadd, hedges⟩ := hadd state.1 p.1 p.2 h (hL _ hp1) (hL _ hp2) hpne hin
      have hfill : (fillPair add state p).1 = add state.1 p.1 p.2 := by
        rw [fillPair, if_neg hin]
      obtain ⟨hP, hmono, hfilled, hframe⟩ := ih hrest (fillPair add state p) (by rw [hfill]; exact hPadd)
      rw [hfill] at hmono hframe
      refine ⟨hP, fun x y hy => hmono x y ((hedges x y).mpr (.inr (.inr hy))), fun q hq => ?_,
        fun x y hx hy => ?_⟩
      · rcases mem_cons.mp hq with rfl | hold
        · exact hmono _ _ ((hedges _ _).mpr (.inl ⟨rfl, rfl⟩))
        · exact hfilled q hold
      · rcases (hedges x y).mp (hframe x y hx hy) with ⟨rfl, _⟩ | ⟨rfl, _⟩ | hold
        · exact absurd hp1 hx
        · exact absurd hp2 hx
        · exact hold

/-- The vertices eliminated so far have cliques of later neighbours. -/
structure Eliminated (P : Traced → Prop) (n : Nat) (e : Elimination) : Prop where
  holds : P e.traced
  perm : (e.order ++ e.remaining).Perm (range n)
  clique : ∀ {v x y}, v ∈ e.order → x ∈ e.traced.network.adj v → y ∈ e.traced.network.adj v →
    e.order.idxOf v < e.order.idxOf x → e.order.idxOf v < e.order.idxOf y → x ≠ y → y ∈ e.traced.network.adj x

theorem Eliminated.step (hadd : AddsEdges P n add)
    (hshape : ∀ t, P t → t.network.Shape ∧ t.network.size = n) (ranges : Ranges) {e : Elimination}
    (h : Eliminated P n e) (hne : e.remaining ≠ []) :
    Eliminated P n (e.step ranges add) ∧ (e.step ranges add).order.length = e.order.length + 1 := by
  obtain ⟨v, hv, hpop⟩ := exists_pop e.degree hne
  obtain ⟨hsh, hsize⟩ := hshape _ h.holds
  have hnodup : (e.order ++ e.remaining).Nodup := h.perm.nodup_iff.mpr nodup_range
  obtain ⟨hnodupOrder, hnodupRest, hdisjoint⟩ := nodup_append.mp hnodup
  have hvorder : v ∉ e.order := fun hin => hdisjoint v hin v hv rfl
  have hlater : ∀ {u}, u ∈ e.later ranges v ↔ u ∈ e.traced.network.adj v ∧ u ∈ e.remaining.erase v := by
    intro u
    unfold later
    rw [mem_filter, mem_neighbors, decide_eq_true_iff]
  have hlaterNodup : (e.later ranges v).Nodup := ((ranges.eliminate v).nodup_order _).filter _
  have hlaterLt : ∀ u ∈ e.later ranges v, u < n := by
    intro u hu
    rw [← hsize]
    exact hsh.lt (hsh.symm (hlater.mp hu).1)
  obtain ⟨hP, hmono, hfilled, hframe⟩ := fillPairs hadd hlaterLt
    (fun p hp => ⟨(mem_pairs hp).1, (mem_pairs hp).2, ne_of_mem_pairs hlaterNodup hp⟩)
    (e.traced, fun u => if u ∈ e.later ranges v then e.degree u - 1 else e.degree u) h.holds
  unfold Elimination.step
  rw [hpop]
  dsimp only
  refine ⟨⟨hP, ?_, fun {x y z} hx hy hz hxy hxz hyz => ?_⟩, by rw [length_append, length_singleton]⟩
  · have hmoved : (v :: e.remaining.erase v).Perm e.remaining := (perm_cons_erase hv).symm
    rw [append_assoc]
    exact (List.Perm.append_left e.order hmoved).trans h.perm
  · have hidx : ∀ u, (e.order ++ [v]).idxOf u = if u ∈ e.order then e.order.idxOf u
        else if u = v then e.order.length else e.order.length + 1 := by
      intro u
      by_cases hu : u ∈ e.order
      · rw [if_pos hu, idxOf_append_of_mem hu]
      · rw [if_neg hu, idxOf_append_of_notMem hu]
        by_cases huv : u = v
        · rw [if_pos huv, huv, idxOf_cons_self]
          rfl
        · rw [if_neg huv, idxOf_cons_ne _ (Ne.symm huv), idxOf_nil]
    have hxL : x ∉ e.later ranges v := by
      intro hin
      have hrest := (hlater.mp hin).2
      rcases mem_append.mp hx with hold | hnew
      · exact hdisjoint x hold x (mem_of_mem_erase hrest) rfl
      · rw [mem_singleton.mp hnew] at hrest
        exact hnodupRest.not_mem_erase hrest
    have hyadj := hframe x y hxL hy
    have hzadj := hframe x z hxL hz
    have hrange : ∀ {u}, u ∈ e.traced.network.adj x → u ∈ e.order ∨ u ∈ e.remaining := by
      intro u hu
      have hlt := hsh.lt (hsh.symm hu)
      rw [hsize, ← mem_range, ← h.perm.mem_iff] at hlt
      exact mem_append.mp hlt
    rcases mem_append.mp hx with hold | hnew
    · -- an earlier vertex: the positions of all others in the order are as before
      have hback : ∀ u, (e.order ++ [v]).idxOf x < (e.order ++ [v]).idxOf u → e.order.idxOf x < e.order.idxOf u := by
        intro u hlt
        have hxlt := idxOf_lt_length_iff.mpr hold
        by_cases hu : u ∈ e.order
        · rwa [hidx, hidx, if_pos hold, if_pos hu] at hlt
        · rw [idxOf_eq_length hu]
          exact hxlt
      exact hmono _ _ (h.clique hold hyadj hzadj (hback y hxy) (hback z hxz) hyz)
    · obtain rfl := mem_singleton.mp hnew
      have hin : ∀ u, u ∈ e.traced.network.adj x → (e.order ++ [x]).idxOf x < (e.order ++ [x]).idxOf u →
          u ∈ e.later ranges x := by
        intro u hu hlt
        have hux : u ≠ x := (hsh.ne hu).symm
        have hnot : u ∉ e.order := by
          intro hin
          have hulen := idxOf_lt_length_iff.mpr hin
          rw [hidx, hidx, if_neg hvorder, if_pos rfl, if_pos hin] at hlt
          omega
        exact hlater.mpr ⟨hu, (mem_erase_of_ne hux).mpr ((hrange hu).resolve_left hnot)⟩
      rcases pairs_of_mem (hin y hyadj hxy) (hin z hzadj hxz) hyz with hpair | hpair
      · exact hfilled (y, z) hpair
      · exact (hshape _ hP).1.symm (hfilled (z, y) hpair)

theorem eliminates_iterate (hadd : AddsEdges P n add) (hshape : ∀ t, P t → t.network.Shape ∧ t.network.size = n)
    (ranges : Ranges) (h : P t) : P ((step ranges add)^[n] (start t)).traced ∧
      ((step ranges add)^[n] (start t)).traced.network.Eliminates ((step ranges add)^[n] (start t)).order := by
  have hloop : ∀ k ≤ n, Eliminated P n ((step ranges add)^[k] (start t)) ∧
      ((step ranges add)^[k] (start t)).order.length = k := by
    intro k
    induction k with
    | zero =>
      intro _
      refine ⟨⟨h, ?_, fun hv => absurd hv not_mem_nil⟩, rfl⟩
      simp [start, (hshape t h).2]
    | succ k ih =>
      intro hk
      obtain ⟨helim, hlength⟩ := ih (by omega)
      have hne : ((step ranges add)^[k] (start t)).remaining ≠ [] := by
        intro hempty
        have htotal := helim.perm.length_eq
        rw [hempty, append_nil, length_range] at htotal
        omega
      rw [iterate_succ_apply']
      obtain ⟨hnext, hnextLength⟩ := helim.step hadd hshape ranges hne
      exact ⟨hnext, by omega⟩
  obtain ⟨helim, hlength⟩ := hloop n (le_refl n)
  obtain ⟨hsh, hsize⟩ := hshape _ helim.holds
  have hnil : ((step ranges add)^[n] (start t)).remaining = [] := by
    have htotal := helim.perm.length_eq
    rw [length_append, length_range] at htotal
    exact eq_nil_of_length_eq_zero (by omega)
  have hperm := helim.perm
  rw [hnil, append_nil] at hperm
  refine ⟨helim.holds, ⟨hsize.symm ▸ hperm, fun {v x y} hx hy hvx hvy hxy => ?_⟩⟩
  have hv : v ∈ ((step ranges add)^[n] (start t)).order := by
    rw [hperm.mem_iff, mem_range, ← hsize]
    exact hsh.lt hx
  exact helim.clique hv hx hy hvx hvy hxy

end Elimination

/-- Triangulation installs a perfect elimination order of a graph that has all the edges. -/
theorem triangulate_spec (hadd : AddsEdges P n add) (hshape : ∀ t, P t → t.network.Shape ∧ t.network.size = n)
    (ranges : Ranges) (h : P t) : ∃ t' order, P t' ∧ t'.network.Eliminates order ∧
      triangulate ranges add t = install t' order fun v => order.idxOf v := by
  unfold triangulate
  cases hrank : (t.network.chordalOrder ranges).2 with
  | some rank =>
    obtain ⟨helim, hinverse⟩ := eliminates_chordalOrder (hshape t h).1 hrank
    exact ⟨t, _, h, helim, by rw [hinverse]⟩
  | none =>
    obtain ⟨hP, helim⟩ := Elimination.eliminates_iterate hadd hshape ranges h
    rw [(hshape t h).2]
    exact ⟨_, _, hP, helim, rfl⟩

end swytch.stn
