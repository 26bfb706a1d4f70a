import Swytch.Stn.Tag
import Swytch.Stn.Topology

namespace swytch.stn

open WithTop hiding some

open swytch.lib Function List Finmap Option Finset Set IsDistance Tag

variable {T C : Set (Constraint Nat)} {D : Nat → Nat → WithTop Int} {n u v a b : Nat} {s : Network}
  {t : Traced} {topology : List (Int × Int)}

namespace Network

/-- A network in which the accepted constraints `C` have the distances `D`. `T` are those
of them that were stricter than the weights they met; only they count for the budget. -/
structure Inv (s : Network) (C T : Set (Constraint Nat)) (D : Nat → Nat → WithTop Int) : Prop where
  searchable : s.Searchable s.graph T D
  accepted : IsDistance C D
  inside : ∀ c ∈ C, c.source < s.size ∧ c.target < s.size
  tightening : T ⊆ C
  inputs : ∀ c ∈ T, |c.bound| ≤ s.maxInput
  nonneg : 0 ≤ s.maxInput
  budget : s.maxInput ≤ s.limit
  limit_eq : s.limit = 2 ^ 60 / ((s.size : Int) + 1)

/-- Inputs within the budget add up to distances that are small against an `int64`. -/
theorem small_of_budget (h : IsDistance T D) (hT : ∀ c ∈ T, c.source < n ∧ c.target < n) {M : Int}
    (hM : ∀ c ∈ T, |c.bound| ≤ M) (hnonneg : 0 ≤ M) (hbudget : M ≤ 2 ^ 60 / ((n : Int) + 1)) : Small D := by
  intro u v l hl
  have hle := h.abs_le (F := range n) (fun c hc => by simpa using hT c hc) hnonneg hM hl
  rw [card_range] at hle
  have hmul : M * ((n : Int) + 1) ≤ 2 ^ 60 := (Int.le_ediv_iff_mul_le (by omega)).mp hbudget
  by_cases hzero : M = 0
  · rw [hzero, mul_zero] at hle
    omega
  · have hexpand : M * ((n : Int) + 1) = n * M + M := by rw [mul_add, mul_one, mul_comm]
    omega

theorem Inv.small (h : s.Inv C T D) :
    Small D := h.searchable.small

theorem Inv.limit_nonneg (h : s.Inv C T D) : 0 ≤ s.limit ∧ s.limit ≤ 2 ^ 60 := by
  rw [h.limit_eq]
  exact ⟨Int.ediv_nonneg (by omega) (by omega), Int.ediv_le_self _ (by omega)⟩

theorem Shape.setWeights (h : s.Shape) (huv : u ≠ v) (hu : u < s.size) (hv : v < s.size) (x y : Int) :
    (s.setWeights u v x y).Shape where
  symm {p q} hq := by
    rw [mem_setWeights huv] at *
    rcases hq with ⟨rfl, rfl⟩ | ⟨rfl, rfl⟩ | hold
    · exact .inr (.inl ⟨rfl, rfl⟩)
    · exact .inl ⟨rfl, rfl⟩
    · exact .inr (.inr (h.symm hold))
  ne {p q} hq := by
    rcases (mem_setWeights huv x y p q).mp hq with ⟨rfl, rfl⟩ | ⟨rfl, rfl⟩ | hold
    · exact huv
    · exact huv.symm
    · exact h.ne hold
  lt {p q} hq := by
    rcases (mem_setWeights huv x y p q).mp hq with ⟨rfl, rfl⟩ | ⟨rfl, rfl⟩ | hold
    · exact hu
    · exact hv
    · exact h.lt hold

theorem Tight.setWeights (h : s.Tight D) (huv : u ≠ v) {x y : Int} (hx : x ≤ infinity ∧ bound x = D u v)
    (hy : y ≤ infinity ∧ bound y = D v u) : (s.setWeights u v x y).Tight D := by
  intro p q w hw
  rw [lookup_setWeights huv] at hw
  split at hw
  · rename_i hpq
    obtain ⟨rfl, rfl⟩ := hpq
    exact some.inj hw ▸ hx
  · split at hw
    · rename_i hqp
      obtain ⟨rfl, rfl⟩ := hqp
      exact some.inj hw ▸ hy
    · exact h p q w hw

/-- A network that has the constraints and their distances on its edges is searchable once
a perfect elimination order is installed. -/
theorem searchable_install (hshape : t.network.Shape) (hdistance : IsDistance T D) (hsmall : Small D)
    (htight : t.network.Tight D) (hedges : ∀ c ∈ T, c.source ≠ c.target → c.target ∈ t.network.adj c.source)
    {order : List Nat} (helim : t.network.Eliminates order) :
    (install t order fun v => order.idxOf v).network.Searchable
      (install t order fun v => order.idxOf v).network.graph T D := by
  have hshape' : (install t order fun v => order.idxOf v).network.Shape := ⟨hshape.symm, hshape.ne, hshape.lt⟩
  exact {
    shape := hshape'
    listed := ⟨helim.perm, fun _ _ => rfl⟩
    peo := helim.peo hshape
    sub := fun hadj => hshape'.adj_iff.mp hadj
    distance := hdistance
    onEdges := fun c hc hne => hshape'.adj_iff.mpr (hedges c hc hne)
    small := hsmall
    tight := htight }

/-- A network that was never constrained. -/
structure Unconstrained (n : Nat) (t : Traced) : Prop where
  shape : t.network.Shape
  size : t.network.size = n
  infinite : ∀ u v w, (t.network.adj u).lookup v = some w → w = infinity
  maxInput : t.network.maxInput = 0
  limit : t.network.limit = 2 ^ 60 / ((n : Int) + 1)

theorem Unconstrained.link (h : Unconstrained n t) (hu : u < n) (hv : v < n) (huv : u ≠ v) :
    Unconstrained n (linkTraced t u v) := by
  unfold linkTraced Network.link
  split
  · exact h
  · refine ⟨h.shape.setWeights huv (h.size.symm ▸ hu) (h.size.symm ▸ hv) _ _, h.size, fun p q w hw => ?_, h.maxInput,
      h.limit⟩
    rw [lookup_setWeights huv] at hw
    split at hw
    · exact (some.inj hw).symm
    · split at hw
      · exact (some.inj hw).symm
      · exact h.infinite p q w hw

theorem addsEdges_link (n : Nat) : AddsEdges (Unconstrained n) n linkTraced := by
  intro t u w ht hu hw huw hnot
  refine ⟨ht.link hu hw huw, fun x y => ?_⟩
  unfold linkTraced Network.link
  rw [if_neg hnot]
  exact mem_setWeights huw _ _ x y

theorem vertex_iff {v : Int} : s.vertex v = true ↔ 0 ≤ v ∧ v.toNat < s.size := by
  unfold vertex
  rw [Bool.and_eq_true, decide_eq_true_iff, decide_eq_true_iff]
  omega

theorem unconstrained_linkAll {s' : Network} (h : Unconstrained n ⟨s, []⟩) (hlink : linkAll topology s = .ok s') :
    Unconstrained n ⟨s', []⟩ := by
  induction topology generalizing s with
  | nil =>
    cases hlink
    exact h
  | cons p rest ih =>
    unfold linkAll at hlink
    split at hlink
    · cases hlink
    · rename_i hvalid
      push Not at hvalid
      have hfst := vertex_iff.mp hvalid.1
      have hsnd := vertex_iff.mp hvalid.2
      apply ih _ hlink
      split
      · rename_i hne
        exact h.link (h.size ▸ hfst.2) (h.size ▸ hsnd.2) (by omega)
      · exact h

theorem inv_new {ranges : Ranges} {n : Int} (hnew : new ranges n topology = .ok s) :
    s.Inv ∅ ∅ (fun u v => if u = v then 0 else ⊤) := by
  unfold new at hnew
  split at hnew
  · cases hnew
  · rename_i hn
    split at hnew
    · cases hnew
    · rename_i s₁ hlink
      have hstart : Unconstrained n.toNat ⟨{ size := n.toNat, limit := 2 ^ 60 / (n + 1) }, []⟩ := by
        refine ⟨⟨fun h => ?_, fun h => ?_, fun h => ?_⟩, rfl, fun u v w hw => ?_, rfl, ?_⟩
        · exact absurd h notMem_empty
        · exact absurd h notMem_empty
        · exact absurd h notMem_empty
        · rw [lookup_empty] at hw
          cases hw
        · rw [Int.toNat_of_nonneg (by omega)]
      obtain ⟨t, order, ht, helim, htri⟩ := triangulate_spec (addsEdges_link n.toNat)
        (fun t ht => ⟨ht.shape, ht.size⟩) ranges (unconstrained_linkAll hstart hlink)
      cases hnew
      rw [htri]
      have hdistance : IsDistance (∅ : Set (Constraint Nat)) (fun u v => if u = v then 0 else ⊤) :=
        empty
      have hlimit : (0 : Int) ≤ 2 ^ 60 / ((n.toNat : Int) + 1) := Int.ediv_nonneg (by omega) (by omega)
      have hsmall := small_of_budget hdistance (n := n.toNat) (fun c hc => absurd hc (notMem_empty c)) (M := 0)
        (fun c hc => absurd hc (notMem_empty c)) (le_refl 0) hlimit
      have htight : t.network.Tight (fun u v => if u = v then 0 else ⊤) := by
        intro u v w hw
        have hne := ht.shape.ne (mem_of_lookup_eq_some hw)
        rw [ht.infinite u v w hw]
        exact ⟨le_refl _, bound_infinity.trans (if_neg hne).symm⟩
      refine ⟨searchable_install ht.shape hdistance hsmall htight (fun c hc => absurd hc (notMem_empty c)) helim,
        hdistance, fun c hc => absurd hc (notMem_empty c), Set.Subset.refl _,
        fun c hc => absurd hc (notMem_empty c), ht.maxInput.ge, ?_, ?_⟩
      · change t.network.maxInput ≤ t.network.limit
        rw [ht.maxInput, ht.limit]
        exact hlimit
      · change t.network.limit = 2 ^ 60 / ((t.network.size : Int) + 1)
        rw [ht.limit, ht.size]

/-- The state of `connect` while the graph is rebuilt: the old order still answers queries,
and all other fields are those of the old network. -/
structure Rebuilt (s : Network) (T : Set (Constraint Nat)) (D : Nat → Nat → WithTop Int) (t : Traced) : Prop where
  searchable : t.network.Searchable s.graph T D
  frame : t.network = { s with adj := t.network.adj }
  sums : ∀ p ∈ t.sums, SumExact p.1 p.2

theorem Rebuilt.size (h : Rebuilt s T D t) : t.network.size = s.size := by
  rw [h.frame]

theorem addsEdges_addImplied (ranges : Ranges) : AddsEdges (Rebuilt s T D) s.size (addImplied ranges) := by
  intro t u w ht hu hw huw hnot
  have hu' : u < t.network.size := ht.size.symm ▸ hu
  have hw' : w < t.network.size := ht.size.symm ▸ hw
  have hbounds : t.network.bounds ranges u w =
      (t.network.searchUpper ranges u w, t.network.searchUpper ranges w u) := by
    unfold bounds
    rw [lookup_eq_none.mpr hnot]
  have hs := ht.searchable
  refine ⟨⟨?_, ?_, fun p hp => ?_⟩, fun x y => mem_setWeights huw _ _ x y⟩
  · unfold addImplied
    rw [hbounds]
    exact {
      shape := hs.shape.setWeights huw hu' hw' _ _
      listed := ⟨hs.listed.perm, hs.listed.rank⟩
      peo := hs.peo
      sub := fun hadj => (mem_setWeights huw _ _ _ _).mpr (.inr (.inr (hs.sub hadj)))
      distance := hs.distance
      onEdges := hs.onEdges
      small := hs.small
      tight := hs.tight.setWeights huw (searchUpper_exact hs ranges hu') (searchUpper_exact hs ranges hw') }
  · simp only [addImplied, setWeights, setWeight]
    rw [ht.frame]
  · unfold addImplied boundsSums at hp
    rw [if_neg hnot] at hp
    rcases mem_append.mp hp with hnew | hold
    · rcases mem_append.mp hnew with hback | hforth
      · exact (climbed_climb hs ranges w u).sums p hback
      · exact (climbed_climb hs ranges u w).sums p hforth
    · exact ht.sums p hold

theorem Inv.connectTraced (h : s.Inv C T D) (ranges : Ranges) (ha : a < s.size) (hb : b < s.size) (hab : a ≠ b)
    (hnot : b ∉ s.adj a) :
    (connectTraced ranges s a b).network.Inv C T D ∧ (connectTraced ranges s a b).network.size = s.size ∧
      ∀ p ∈ (connectTraced ranges s a b).sums, SumExact p.1 p.2 := by
  have hstart : Rebuilt s T D ⟨s, []⟩ := ⟨h.searchable, rfl, fun p hp => absurd hp not_mem_nil⟩
  obtain ⟨hadded, _⟩ := addsEdges_addImplied ranges ⟨s, []⟩ a b hstart ha hb hab hnot
  obtain ⟨t, order, ht, helim, htri⟩ := triangulate_spec (addsEdges_addImplied ranges)
    (fun t ht => ⟨ht.searchable.shape, ht.size⟩) ranges hadded
  have hs := ht.searchable
  unfold Network.connectTraced
  rw [htri]
  refine ⟨⟨searchable_install hs.shape hs.distance hs.small hs.tight
    (fun c hc hne => hs.sub (hs.onEdges c hc hne)) helim, h.accepted, ?_, h.tightening, ?_, ?_, ?_, ?_⟩, ht.size,
    ht.sums⟩
  · change ∀ c ∈ C, c.source < t.network.size ∧ c.target < t.network.size
    rw [ht.size]
    exact h.inside
  · change ∀ c ∈ T, |c.bound| ≤ t.network.maxInput
    rw [ht.frame]
    exact h.inputs
  · change 0 ≤ t.network.maxInput
    rw [ht.frame]
    exact h.nonneg
  · change t.network.maxInput ≤ t.network.limit
    rw [ht.frame]
    exact h.budget
  · change t.network.limit = 2 ^ 60 / ((t.network.size : Int) + 1)
    rw [ht.frame]
    exact h.limit_eq

theorem Inv.connect (h : s.Inv C T D) (ranges : Ranges) (a b : Int) :
    (s.connect ranges a b).1.Inv C T D ∧ (s.connect ranges a b).1.size = s.size ∧
      ∀ p ∈ s.connectSums ranges a b, SumExact p.1 p.2 := by
  unfold Network.connect connectSums
  by_cases hvertex : ¬ s.vertex a ∨ ¬ s.vertex b
  · rw [if_pos hvertex, if_pos (by tauto)]
    exact ⟨h, rfl, fun p hp => absurd hp not_mem_nil⟩
  · by_cases hedge : a = b ∨ b.toNat ∈ s.adj a.toNat
    · rw [if_neg hvertex, if_pos hedge, if_pos (by tauto)]
      exact ⟨h, rfl, fun p hp => absurd hp not_mem_nil⟩
    · rw [if_neg hvertex, if_neg hedge, if_neg (by tauto)]
      push Not at hvertex hedge
      have ha := vertex_iff.mp hvertex.1
      have hb := vertex_iff.mp hvertex.2
      exact h.connectTraced ranges ha.2 hb.2 (by omega) hedge.2

theorem Searchable.eliminates (h : s.Searchable s.graph T D) : s.Eliminates s.order where
  perm := h.listed.perm
  clique {v x y} hx hy hvx hvy hxy := by
    have hlt : ∀ {u}, u ∈ s.adj v → s.rank u = s.order.idxOf u := fun hu =>
      h.listed.rank _ (h.shape.lt (h.shape.symm hu))
    rw [← h.listed.rank v (h.shape.lt hx), ← hlt hx] at hvx
    rw [← h.listed.rank v (h.shape.lt hy), ← hlt hy] at hvy
    rw [← h.shape.adj_iff] at *
    exact h.peo.clique hx hy hvx hvy hxy

theorem Inv.addPoint (h : s.Inv C T D) : s.addPoint.1.Inv C T D := by
  unfold Network.addPoint
  split
  · exact h
  · split
    · exact h
    · rename_i hlimit
      have hs := h.searchable
      have hadj : update s.adj s.size ∅ = s.adj := by
        rw [update_eq_self_iff]
        -- the vertex after the last one has no neighbours
        apply ext_lookup
        intro u
        rw [lookup_empty, eq_comm, lookup_eq_none]
        intro hu
        have hlt := hs.shape.lt hu
        omega
      rw [hadj]
      have hlength : s.order.length = s.size := by
        rw [hs.listed.perm.length_eq, length_range]
      have hidx : ∀ v < s.size, (s.order ++ [s.size]).idxOf v = s.order.idxOf v := fun v hv =>
        idxOf_append_of_mem (hs.listed.mem_order.mpr hv)
      have hlast : (s.order ++ [s.size]).idxOf s.size = s.size := by
        rw [idxOf_append_of_notMem fun hin => Nat.lt_irrefl _ (hs.listed.mem_order.mp hin), idxOf_cons_self,
          hlength]
        rfl
      have hrank : ∀ v < s.size + 1, update s.rank s.size s.size v = (s.order ++ [s.size]).idxOf v := by
        intro v hv
        rw [update_apply]
        split
        · rename_i heq
          rw [heq, hlast]
        · rw [hs.listed.rank v (by omega), hidx v (by omega)]
      have hlt : ∀ {u v}, v ∈ s.adj u → u < s.size + 1 := fun huv => Nat.lt_succ_of_lt (hs.shape.lt huv)
      have hperm : (s.order ++ [s.size]).Perm (range (s.size + 1)) := by
        rw [range_succ]
        exact hs.listed.perm.append_right _
      have hpeo : PerfectElimination s.graph (range (s.size + 1))
          (fun v => (s.order ++ [s.size]).idxOf v) := by
        refine ⟨fun hxy => Finset.mem_range.mpr (hlt (hs.sub hxy)), idxOf_injOn hperm,
          fun {v x y} hx hy hvx hvy hxy => ?_⟩
        rw [hs.shape.adj_iff] at *
        rw [hidx v (hs.shape.lt hx), hidx x (hs.shape.lt (hs.shape.symm hx))] at hvx
        rw [hidx v (hs.shape.lt hy), hidx y (hs.shape.lt (hs.shape.symm hy))] at hvy
        exact hs.eliminates.clique hx hy hvx hvy hxy
      refine ⟨⟨⟨hs.shape.symm, hs.shape.ne, hlt⟩, ⟨hperm, hrank⟩,
        hpeo.congr fun v hv => hrank v (Finset.mem_range.mp hv), hs.sub, hs.distance, hs.onEdges, hs.small, hs.tight⟩,
        h.accepted, fun c hc => ?_, h.tightening, h.inputs, h.nonneg, not_lt.mp hlimit, ?_⟩
      · have hin := h.inside c hc
        dsimp only
        omega
      · dsimp only
        push_cast
        rw [add_assoc]
        rfl

/-- The sign that `constrain` looks at is that of the shortest cycle through the new bound. -/
theorem Inv.pathSum_neg_iff (h : s.Inv C T D) (hab : a ∈ s.adj b) {w : Int} (hw : |w| ≤ s.limit) :
    SumExact w (s.weight b a) ∧ (pathSum w (s.weight b a) < 0 ↔ (w : WithTop Int) + D b a < 0) := by
  have hinf : infinity = 2 ^ 63 - 1 := rfl
  obtain ⟨hle, htight⟩ := h.searchable.tight.weight hab
  have hlow := h.small.lt_of_le_bound htight.ge
  have hlimit := h.limit_nonneg
  have hwabs := abs_le.mp hw
  have hexact : SumExact w (s.weight b a) := sumExact_of_le (by omega) (by omega) (by omega) hle
  refine ⟨hexact, ?_⟩
  cases hd : D b a with
  | top =>
    have hweight : s.weight b a = infinity := by
      by_contra hne
      rw [hd, bound, if_neg hne] at htight
      exact coe_ne_top htight
    rw [hexact.value, if_pos (.inr (.inl hweight)), WithTop.add_top]
    exact iff_of_false (by decide) not_top_lt
  | coe l =>
    have hl := abs_lt.mp (h.small b a l hd)
    have hsum : pathSum w (s.weight b a) = w + l := by
      apply hexact.eq_coe _ (by omega)
      rw [htight, hd, bound_of_lt (by omega), WithTop.coe_add]
    rw [hsum, ← WithTop.coe_add, ← WithTop.coe_zero, coe_lt_coe]

/-- A constraint that closes no negative cycle and is stricter than the weight it meets. -/
theorem Inv.tag (h : s.Inv C T D) (ranges : Ranges) (hab : b ∈ s.adj a) {w : Int} (hw : |w| ≤ s.limit)
    (hpos : 0 ≤ (w : WithTop Int) + D b a) :
    (run ranges s a b w).network.Inv (insert ⟨a, b, w⟩ C) (insert ⟨a, b, w⟩ T) (withBound D a b w) ∧
      (run ranges s a b w).network.size = s.size ∧ ∀ p ∈ (run ranges s a b w).sums, SumExact p.1 p.2 := by
  have hs := h.searchable
  have hlimit := h.limit_nonneg
  have hvisited := visited_run hs (hw.trans hlimit.2) hab hpos ranges
  have hframe := hvisited.frame
  have hsize : (run ranges s a b w).network.size = s.size := by
    rw [hframe]
    rfl
  have hmax : (run ranges s a b w).network.maxInput = max s.maxInput |w| := by
    rw [hframe]
    rfl
  have hlimitEq : (run ranges s a b w).network.limit = s.limit := by
    rw [hframe]
    rfl
  have hdistance := hs.distance.add hpos
  have hinside : ∀ c ∈ insert (⟨a, b, w⟩ : Constraint Nat) C, c.source < s.size ∧ c.target < s.size := by
    intro c hc
    rcases mem_insert_iff.mp hc with rfl | hold
    · exact ⟨hs.shape.lt hab, hs.shape.lt (hs.shape.symm hab)⟩
    · exact h.inside c hold
  have htightening : insert (⟨a, b, w⟩ : Constraint Nat) T ⊆ insert ⟨a, b, w⟩ C :=
    insert_subset_insert h.tightening
  have hinputs : ∀ c ∈ insert (⟨a, b, w⟩ : Constraint Nat) T, |c.bound| ≤ max s.maxInput |w| := by
    intro c hc
    rcases mem_insert_iff.mp hc with rfl | hold
    · exact le_max_right _ _
    · exact (h.inputs c hold).trans (le_max_left _ _)
  have hnonneg : 0 ≤ max s.maxInput |w| := h.nonneg.trans (le_max_left _ _)
  have hbudget : max s.maxInput |w| ≤ s.limit := max_le h.budget hw
  have hshape : (run ranges s a b w).network.Shape := by
    refine ⟨fun huv => ?_, fun huv => ?_, fun huv => ?_⟩
    · rw [hvisited.keys] at *
      exact hs.shape.symm huv
    · exact hs.shape.ne ((hvisited.keys _ _).mp huv)
    · rw [hsize]
      exact hs.shape.lt ((hvisited.keys _ _).mp huv)
  have hgraph : (run ranges s a b w).network.graph = s.graph := by
    ext u v
    rw [hshape.adj_iff, hs.shape.adj_iff, hvisited.keys]
  have htight : (run ranges s a b w).network.Tight (withBound D a b w) := by
    intro u v x hx
    have huv := (hvisited.keys u v).mp (mem_of_lookup_eq_some hx)
    exact hvisited.new ⟨Finset.mem_range.mpr (hs.shape.lt huv),
      Finset.mem_range.mpr (hs.shape.lt (hs.shape.symm huv))⟩ hx
  have hedges : OnEdges s.graph (insert ⟨a, b, w⟩ T) := by
    intro c hc hne
    rcases mem_insert_iff.mp hc with rfl | hold
    · exact hs.shape.adj_iff.mpr hab
    · exact hs.onEdges c hold hne
  have hsmall : Small (withBound D a b w) :=
    small_of_budget hdistance (fun c hc => hinside c (htightening hc)) hinputs hnonneg (h.limit_eq ▸ hbudget)
  refine ⟨⟨⟨hshape, ?_, ?_, ?_, hdistance, ?_, hsmall, htight⟩, h.accepted.add hpos, ?_, htightening, ?_, ?_, ?_, ?_⟩,
    hsize, hvisited.sums⟩
  · rw [hframe]
    exact ⟨hs.listed.perm, hs.listed.rank⟩
  · rw [hgraph, hframe]
    exact hs.peo
  · exact fun hadj => hshape.adj_iff.mp hadj
  · rw [hgraph]
    exact hedges
  · rw [hsize]
    exact hinside
  · rw [hmax]
    exact hinputs
  · rw [hmax]
    exact hnonneg
  · rw [hmax, hlimitEq]
    exact hbudget
  · rw [hlimitEq, hsize]
    exact h.limit_eq

end Network

end swytch.stn
