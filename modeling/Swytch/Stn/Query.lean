import Swytch.Stn.Bounds

namespace swytch.stn

open WithTop hiding some

open swytch.lib List Network

variable {s : Network} {u v source target : Nat} {D : Nat → Nat → WithTop Int} {T : Set (Constraint Nat)}
  {R : Nat → Nat → Prop} {P : Nat → Prop} {c : Climb} {G : SimpleGraph Nat}

namespace Network

/-- The graph of the edges that have weights. -/
def graph (s : Network) : SimpleGraph Nat := SimpleGraph.fromRel fun u v => v ∈ s.adj u

/-- Edges have weights in both directions and join different vertices. -/
structure Shape (s : Network) : Prop where
  symm : ∀ {u v}, v ∈ s.adj u → u ∈ s.adj v
  ne : ∀ {u v}, v ∈ s.adj u → u ≠ v
  lt : ∀ {u v}, v ∈ s.adj u → u < s.size

theorem Shape.adj_iff (h : s.Shape) : s.graph.Adj u v ↔ v ∈ s.adj u := by
  unfold graph
  rw [SimpleGraph.fromRel_adj]
  constructor
  · rintro ⟨-, huv | hvu⟩
    · exact huv
    · exact h.symm hvu
  · intro huv
    exact ⟨h.ne huv, .inl huv⟩

/-- The weights are the distances between the ends of the edges. -/
def Tight (s : Network) (D : Nat → Nat → WithTop Int) : Prop :=
  ∀ u v w, (s.adj u).lookup v = some w → w ≤ infinity ∧ bound w = D u v

theorem Tight.weight (h : s.Tight D) (hv : v ∈ s.adj u) : s.weight u v ≤ infinity ∧ bound (s.weight u v) = D u v := by
  obtain ⟨w, hw⟩ := Finmap.mem_iff.mp hv
  unfold Network.weight
  rw [hw]
  exact h u v w hw

/-- The order lists the vertices, and `rank` is its inverse. -/
structure Listed (s : Network) : Prop where
  perm : s.order.Perm (range s.size)
  rank : ∀ v < s.size, s.rank v = s.order.idxOf v

/-- What a query needs: a perfect elimination order of a part `G` of the graph that has all
the constraints, and weights that are distances. -/
structure Searchable (s : Network) (G : SimpleGraph Nat) (T : Set (Constraint Nat))
    (D : Nat → Nat → WithTop Int) : Prop where
  shape : s.Shape
  listed : s.Listed
  peo : PerfectElimination G (Finset.range s.size) s.rank
  sub : ∀ {u v}, G.Adj u v → v ∈ s.adj u
  distance : IsDistance T D
  onEdges : OnEdges G T
  small : Small D
  tight : s.Tight D

theorem Listed.mem_order (h : s.Listed) : v ∈ s.order ↔ v < s.size := by
  rw [h.perm.mem_iff, mem_range]

/-- What stands earlier in the order has a lower rank. -/
theorem Listed.rank_lt (h : s.Listed) {done rest : List Nat} {x : Nat} (horder : s.order = done ++ v :: rest)
    (hx : x ∈ done) : s.rank x < s.rank v := by
  have hnodup : s.order.Nodup := h.perm.nodup_iff.mpr nodup_range
  rw [horder] at hnodup
  have hv : v ∉ done := fun hmem => (nodup_append.mp hnodup).2.2 v hmem v mem_cons_self rfl
  have hxs : x < s.size := h.mem_order.mp (by rw [horder]; exact mem_append_left _ hx)
  have hvs : v < s.size := h.mem_order.mp (by rw [horder]; exact mem_append_right _ mem_cons_self)
  rw [h.rank x hxs, h.rank v hvs, horder, idxOf_append_of_mem hx, idxOf_append_of_notMem hv,
    idxOf_cons_self]
  have hlt := idxOf_lt_length_iff.mpr hx
  omega

end Network

/-- The state of the search: the edges of `R` are relaxed and the vertices of `P` were tried
as peaks. -/
structure Climbed (D : Nat → Nat → WithTop Int) (source target : Nat) (R : Nat → Nat → Prop) (P : Nat → Prop)
    (c : Climb) : Prop where
  forward : Relaxed D source c.forward R
  backward : Relaxed (fun u v => D v u) target c.backward R
  le_infinity : c.bound ≤ infinity
  sound : D source target ≤ bound c.bound
  peak : ∀ {v}, P v → ∀ {l : Int}, D source target = l → bound (c.forward v) + bound (c.backward v) = l →
    bound c.bound ≤ l
  sums : ∀ p ∈ c.sums, SumExact p.1 p.2

theorem climbed_start (h : IsDistance T D) (source target : Nat) :
    Climbed D source target (fun _ _ => False) (fun _ => False) (climbStart source target) where
  forward := .init h source
  backward := .init h.transpose target
  le_infinity := le_refl _
  sound := by
    rw [climbStart, bound_infinity]
    exact le_top
  peak hP := hP.elim
  sums p hp := absurd hp not_mem_nil

theorem Small.transpose (h : Small D) : Small fun u v => D v u :=
  fun u v l hl => h v u l hl

/-- Try a vertex as the peak. -/
theorem Climbed.climbPeak (hD : IsDistance T D) (hsmall : Small D) (h : Climbed D source target R P c) (v : Nat) :
    Climbed D source target R (fun x => P x ∨ x = v) (climbPeak v c) := by
  have hexact : SumExact (c.forward v) (c.backward v) := by
    have hf := hsmall.lt_of_le_bound (h.forward.sound v)
    have hb := hsmall.transpose.lt_of_le_bound (h.backward.sound v)
    exact sumExact_of_le (by omega) (h.forward.le_infinity v) (by omega) (h.backward.le_infinity v)
  have hthrough : D source target ≤ bound (pathSum (c.forward v) (c.backward v)) :=
    calc D source target ≤ D source v + D v target := hD.triangle _ _ _
      _ ≤ bound (c.forward v) + bound (c.backward v) := add_le_add (h.forward.sound v) (h.backward.sound v)
      _ ≤ bound (pathSum (c.forward v) (c.backward v)) := hexact.add_le
  have hmin : bound (min c.bound (pathSum (c.forward v) (c.backward v))) =
      min (bound c.bound) (bound (pathSum (c.forward v) (c.backward v))) :=
    bound_min h.le_infinity (pathSum_le_infinity _ _)
  refine ⟨h.forward, h.backward, (min_le_left _ _).trans h.le_infinity, ?_, fun {x} hx l hl hsum => ?_, ?_⟩
  · unfold Network.climbPeak
    rw [hmin]
    exact le_min h.sound hthrough
  · unfold Network.climbPeak
    rw [hmin]
    cases hx with
    | inl hold => exact min_le_of_left_le (h.peak hold hl hsum)
    | inr hnew =>
      subst hnew
      have hlt : l < infinity := by
        have habs := abs_lt.mp (hsmall source target l hl)
        simp only [infinity]
        omega
      apply min_le_of_right_le
      rw [hexact.eq_coe hsum hlt, bound_of_lt hlt]
  · intro p hp
    rcases mem_cons.mp hp with rfl | hold
    · exact hexact
    · exact h.sums p hold

/-- Relax the edge to one neighbour. -/
theorem Climbed.climbNeighbor (hs : s.Searchable G T D) (h : Climbed D source target R P c) (hu : u ∈ s.adj v)
    (hfresh : s.rank v < s.rank u → (∀ y, ¬ R u y) ∧ ¬ P u) :
    Climbed D source target (fun x y => R x y ∨ (x = v ∧ y = u) ∧ s.rank v < s.rank u) P (s.climbNeighbor v c u) := by
  unfold Network.climbNeighbor
  split
  · rename_i hrank
    have hsub : ∀ x y, (R x y ∨ (x = v ∧ y = u) ∧ s.rank v < s.rank u) → R x y := by
      intro x y hxy
      cases hxy with
      | inl hold => exact hold
      | inr hnew => exact absurd hnew.2 (Nat.not_lt.mpr hrank)
    exact ⟨h.forward.mono hsub, h.backward.mono hsub, h.le_infinity, h.sound, h.peak, h.sums⟩
  · rename_i hrank
    obtain ⟨hR, hP⟩ := hfresh (Nat.lt_of_not_le hrank)
    have hne : v ≠ u := hs.shape.ne hu
    obtain ⟨hvu, hvu'⟩ := hs.tight.weight hu
    obtain ⟨huv, huv'⟩ := hs.tight.weight (hs.shape.symm hu)
    obtain ⟨hfexact, _, hfsound, _, hffound⟩ := sum_along_edge hs.distance hs.small (h.forward.le_infinity v)
      (h.forward.sound v) hvu hvu'
    obtain ⟨hbexact, _, hbsound, _, hbfound⟩ := sum_along_edge hs.distance.transpose hs.small.transpose
      (h.backward.le_infinity v) (h.backward.sound v) huv huv'
    have hsub : ∀ x y, (R x y ∨ (x = v ∧ y = u) ∧ s.rank v < s.rank u) → R x y ∨ x = v ∧ y = u :=
      fun x y hxy => hxy.imp_right And.left
    refine ⟨(h.forward.relax hne hR (pathSum_le_infinity _ _) hfsound hffound).mono hsub,
      (h.backward.relax hne hR (pathSum_le_infinity _ _) hbsound hbfound).mono hsub, h.le_infinity, h.sound,
      fun {x} hx l hl hsum => ?_, fun p hp => ?_⟩
    · have hxu : x ≠ u := fun heq => hP (heq ▸ hx)
      simp only [Function.update_of_ne hxu] at hsum
      exact h.peak hx hl hsum
    · simp only [mem_cons] at hp
      rcases hp with rfl | rfl | hold
      · exact hbexact
      · exact hfexact
      · exact h.sums p hold

/-- Relax the edges to a list of neighbours. -/
theorem Climbed.climbNeighbors (hs : s.Searchable G T D) {us : List Nat} (hus : ∀ u ∈ us, u ∈ s.adj v)
    (h : Climbed D source target R P c) (hfresh : ∀ u ∈ us, s.rank v < s.rank u → (∀ y, ¬ R u y) ∧ ¬ P u) :
    Climbed D source target (fun x y => R x y ∨ x = v ∧ y ∈ us ∧ s.rank v < s.rank y) P
      (us.foldl (s.climbNeighbor v) c) := by
  induction us generalizing R c with
  | nil =>
    have hsub : ∀ x y, (R x y ∨ x = v ∧ y ∈ ([] : List Nat) ∧ s.rank v < s.rank y) → R x y := by
      intro x y hxy
      exact hxy.resolve_right fun hnew => absurd hnew.2.1 not_mem_nil
    exact ⟨h.forward.mono hsub, h.backward.mono hsub, h.le_infinity, h.sound, h.peak, h.sums⟩
  | cons u us ih =>
    have hstep := h.climbNeighbor hs (hus u mem_cons_self) (hfresh u mem_cons_self)
    have hrest := ih (fun x hx => hus x (mem_cons_of_mem u hx)) hstep fun x hx hrank => by
      obtain ⟨hR, hP⟩ := hfresh x (mem_cons_of_mem u hx) hrank
      refine ⟨fun y hy => ?_, hP⟩
      cases hy with
      | inl hold => exact hR y hold
      | inr hnew =>
        rw [hnew.1.1] at hrank
        exact absurd hrank (Nat.lt_irrefl _)
    have hsub : ∀ x y, (R x y ∨ x = v ∧ y ∈ u :: us ∧ s.rank v < s.rank y) →
        (R x y ∨ (x = v ∧ y = u) ∧ s.rank v < s.rank u) ∨ x = v ∧ y ∈ us ∧ s.rank v < s.rank y := by
      intro x y hxy
      cases hxy with
      | inl hold => exact .inl (.inl hold)
      | inr hnew =>
        obtain ⟨hx, hy, hrank⟩ := hnew
        rcases mem_cons.mp hy with rfl | hin
        · exact .inl (.inr ⟨⟨hx, rfl⟩, hrank⟩)
        · exact .inr ⟨hx, hin, hrank⟩
    rw [foldl_cons]
    exact ⟨hrest.forward.mono hsub, hrest.backward.mono hsub, hrest.le_infinity, hrest.sound, hrest.peak, hrest.sums⟩

/-- The upward edges from a list of vertices. -/
def upward (s : Network) (done : List Nat) (x y : Nat) : Prop := x ∈ done ∧ y ∈ s.adj x ∧ s.rank x < s.rank y

theorem Climbed.climbVertex (hs : s.Searchable G T D) (range : Nat → RangeOrder Nat) {done rest : List Nat}
    (horder : s.order = done ++ v :: rest) (h : Climbed D source target (upward s done) (· ∈ done) c) :
    Climbed D source target (upward s (done ++ [v])) (· ∈ done ++ [v]) (s.climbVertex range c v) := by
  have hpeak := h.climbPeak hs.distance hs.small v
  have hmem : ∀ {x}, x ∈ done ++ [v] ↔ x ∈ done ∨ x = v := by
    intro x
    rw [mem_append, mem_singleton]
  unfold Network.climbVertex
  split
  · rename_i hinf
    have hsub : ∀ f : Nat → Int, f v = infinity →
        ∀ x y, upward s (done ++ [v]) x y → upward s done x y ∨ f x = infinity := by
      rintro f hf x y ⟨hx, hy⟩
      cases hmem.mp hx with
      | inl hold => exact .inl ⟨hold, hy⟩
      | inr hnew => exact .inr (hnew ▸ hf)
    exact ⟨hpeak.forward.of_infinity (hsub _ hinf.1), hpeak.backward.of_infinity (hsub _ hinf.2), hpeak.le_infinity,
      hpeak.sound, fun hx => hpeak.peak (hmem.mp hx), hpeak.sums⟩
  · have hneighbors : ∀ u, u ∈ s.neighbors (range v) v ↔ u ∈ s.adj v := by
      intro u
      unfold neighbors
      rw [RangeOrder.mem_order, Finmap.mem_keys]
    have hfresh : ∀ u ∈ s.neighbors (range v) v, s.rank v < s.rank u →
        (∀ y, ¬ upward s done u y) ∧ ¬ (u ∈ done ∨ u = v) := by
      intro u _ hrank
      have hdone : u ∉ done := by
        intro hu
        have hlt := hs.listed.rank_lt horder hu
        omega
      refine ⟨fun y hy => hdone hy.1, fun hu => ?_⟩
      rcases hu with hu | rfl
      · exact hdone hu
      · exact Nat.lt_irrefl _ hrank
    have hall := hpeak.climbNeighbors hs (fun u hu => (hneighbors u).mp hu) hfresh
    have hsub : ∀ x y, upward s (done ++ [v]) x y →
        upward s done x y ∨ x = v ∧ y ∈ s.neighbors (range v) v ∧ s.rank v < s.rank y := by
      rintro x y ⟨hx, hy, hrank⟩
      cases hmem.mp hx with
      | inl hold => exact .inl ⟨hold, hy, hrank⟩
      | inr hnew =>
        subst hnew
        exact .inr ⟨rfl, (hneighbors y).mpr hy, hrank⟩
    exact ⟨hall.forward.mono hsub, hall.backward.mono hsub, hall.le_infinity, hall.sound,
      fun hx => hall.peak (hmem.mp hx), hall.sums⟩

/-- The whole search. -/
theorem climbed_climb (hs : s.Searchable G T D) (ranges : Ranges) (source target : Nat) :
    Climbed D source target (upward s s.order) (· ∈ s.order) (s.climb ranges source target) := by
  have hloop : ∀ rest done c, s.order = done ++ rest → Climbed D source target (upward s done) (· ∈ done) c →
      Climbed D source target (upward s s.order) (· ∈ s.order)
        (rest.foldl (s.climbVertex (ranges.climb source target)) c) := by
    intro rest
    induction rest with
    | nil =>
      intro done c horder h
      rw [append_nil] at horder
      rw [horder]
      exact h
    | cons v rest ih =>
      intro done c horder h
      rw [foldl_cons]
      apply ih (done ++ [v]) _ (by rw [horder, append_assoc]; rfl)
      exact h.climbVertex hs _ horder
  apply hloop s.order [] _ rfl
  have hstart := climbed_start hs.distance source target
  have hsub : ∀ x y, upward s [] x y → False := fun x y hxy => absurd hxy.1 not_mem_nil
  exact ⟨hstart.forward.mono hsub, hstart.backward.mono hsub, hstart.le_infinity, hstart.sound,
    fun hx => absurd hx not_mem_nil, hstart.sums⟩

/-- A distance that is met along a rising path is found. -/
theorem Relaxed.found {rank : Nat → Nat} {C : Set (Constraint Nat)} {E : Nat → Nat → WithTop Int}
    (hE : IsDistance C E) {f : Nat → Int} (h : Relaxed E source f R)
    (hR : ∀ {v u}, G.Adj v u → rank v < rank u → R v u) {p : Nat} {α : WithTop Int}
    (hrise : Rises G rank E source p α) {l : Int} (hl : E source p = l) (hα : α ≤ l) : bound (f p) = l := by
  apply le_antisymm _ (hl ▸ h.sound p)
  induction hrise generalizing l with
  | start => rw [h.at_source hE, hl]
  | @step v x α' hprev hadj hrank ih =>
    have hsv := hE.le_rises hprev
    have htri := hE.triangle source v x
    obtain ⟨k, hk, hkl⟩ := le_coe_iff.mp hα
    obtain ⟨a, w, rfl, hvx, haw⟩ := add_eq_coe.mp hk
    obtain ⟨m, hv, hma⟩ := le_coe_iff.mp hsv
    rw [hl, hv, ← hvx, ← coe_add, coe_le_coe] at htri
    have htightv : bound (f v) = (m : WithTop Int) := by
      apply le_antisymm _ (hv ▸ h.sound v)
      exact ih hv (coe_le_coe.mpr (by omega))
    apply h.along (hR hadj hrank) hl
    rw [htightv, ← hvx, ← coe_add, coe_inj]
    omega

/-- A query finds the distance, whether or not its ends are adjacent. -/
theorem searchUpper_exact (hs : s.Searchable G T D) (ranges : Ranges) (hsource : source < s.size) :
    s.searchUpper ranges source target ≤ infinity ∧ bound (s.searchUpper ranges source target) = D source target := by
  have hclimbed := climbed_climb hs ranges source target
  refine ⟨hclimbed.le_infinity, le_antisymm ?_ hclimbed.sound⟩
  cases hd : D source target with
  | top => exact le_top
  | coe l =>
    have hup : ∀ {v u}, G.Adj v u → s.rank v < s.rank u → upward s s.order v u := fun hadj hrank =>
      ⟨hs.listed.mem_order.mpr (hs.shape.lt (hs.sub hadj)), hs.sub hadj, hrank⟩
    obtain ⟨p, α, β, hrise, hfall, hle⟩ := hs.peo.exists_peak hs.distance hs.onEdges (hs.distance.attained hd)
    have hα := hs.distance.le_rises hrise
    have hβ := hs.distance.transpose.le_rises hfall
    have htri := hs.distance.triangle source p target
    have hp : p < s.size := by
      cases hrise with
      | start => exact hsource
      | step _ hadj _ => exact hs.shape.lt (hs.shape.symm (hs.sub hadj))
    rw [hd] at htri
    -- all four values are finite, and the inequalities around the peak are equalities
    obtain ⟨k, hk, hkl⟩ := le_coe_iff.mp hle
    obtain ⟨a, b, rfl, rfl, hab⟩ := add_eq_coe.mp hk
    obtain ⟨x, hx, hxa⟩ := le_coe_iff.mp hα
    obtain ⟨y, hy, hyb⟩ := le_coe_iff.mp hβ
    rw [hx, hy, ← coe_add, coe_le_coe] at htri
    have hforward := hclimbed.forward.found hs.distance hup hrise hx (coe_le_coe.mpr (by omega))
    have hbackward := hclimbed.backward.found hs.distance.transpose hup hfall hy (coe_le_coe.mpr (by omega))
    apply hclimbed.peak (hs.listed.mem_order.mpr hp) hd
    rw [hforward, hbackward, ← coe_add, coe_inj]
    omega

end swytch.stn
