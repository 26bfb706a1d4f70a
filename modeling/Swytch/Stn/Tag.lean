import Swytch.Stn.Query

namespace swytch.stn

open WithTop hiding some

open Finmap hiding mem_insert

open swytch.lib Function Finset Tag Network Cardinality IsDistance

instance (s : Network) : DecidableRel s.graph.Adj := fun u v =>
  inferInstanceAs (Decidable (u ≠ v ∧ (v ∈ s.adj u ∨ u ∈ s.adj v)))

variable {s : Network} {u v a b : Nat} {D : Nat → Nat → WithTop Int} {w : Int} {V S : Finset Nat}
  {R N : Nat → Nat → Prop} {count : Nat → Nat} {t : Tag} {T : Set (Constraint Nat)}

theorem Network.lookup_setWeights (huv : u ≠ v) (x y : Int) (p q : Nat) : ((s.setWeights u v x y).adj p).lookup q =
      if p = u ∧ q = v then some x else if p = v ∧ q = u then some y else (s.adj p).lookup q := by
  simp only [setWeights, setWeight, update_apply]
  by_cases hpv : p = v
  · subst hpv
    by_cases hqu : q = u
    · subst hqu
      simp [huv, Ne.symm huv]
    · simp [hqu, Ne.symm huv, lookup_insert_of_ne _ hqu]
  · by_cases hpu : p = u
    · subst hpu
      by_cases hqv : q = v
      · subst hqv
        simp [huv]
      · simp [huv, hqv, lookup_insert_of_ne _ hqv]
    · simp [hpv, hpu]

theorem Network.mem_setWeights (huv : u ≠ v) (x y : Int) (p q : Nat) :
    q ∈ (s.setWeights u v x y).adj p ↔ p = u ∧ q = v ∨ p = v ∧ q = u ∨ q ∈ s.adj p := by
  rw [← lookup_isSome, lookup_setWeights huv, ← lookup_isSome]
  split
  · rename_i hpq
    simp [hpq]
  · rename_i hpq
    split
    · rename_i hqp
      simp [hqp]
    · rename_i hqp
      simp [hpq, hqp]

/-- The state of the propagation of a bound `w` on `b - a` into a network with distances
`D`: the vertices of `V` are visited, the edges of `R` relaxed, and the edges of `N`
have their new weights. -/
structure Tagged (s : Network) (D : Nat → Nat → WithTop Int) (a b : Nat) (w : Int) (V : Finset Nat)
    (R N : Nat → Nat → Prop) (count : Nat → Nat) (t : Tag) : Prop where
  frame : t.network = { (start s a b w).network with adj := t.network.adj }
  keys : ∀ u v, v ∈ t.network.adj u ↔ v ∈ s.adj u
  old : ∀ {u v x}, ¬ N u v → (t.network.adj u).lookup v = some x → x ≤ infinity ∧ bound x = D u v
  new : ∀ {u v x}, N u v → (t.network.adj u).lookup v = some x →
    x ≤ infinity ∧ bound x = withBound D a b w u v
  forward : Relaxed (fun u v => D v u) a t.forward R
  backward : Relaxed D b t.backward R
  toSource : ∀ u ∈ V, bound (t.forward u) ≤ D u a
  -- a path from `b` over `a` is of no use after the new edge from `a` to `b`
  fromTarget : ∀ u ∈ V, bound (t.backward u) ≤ D b u ∨ D a u ≤ w + D b u
  queue : t.queue.Valid
  counts : ∀ u, t.queue.count u = if u < s.size ∧ u ∉ V then some (count u) else none
  sums : ∀ p ∈ t.sums, SumExact p.1 p.2

namespace Tagged

theorem congr {R' N' : Nat → Nat → Prop} {count' : Nat → Nat} (h : Tagged s D a b w V R N count t)
    (hR : ∀ x y, R' x y → R x y) (hN : ∀ x y, y ∈ s.adj x → (N' x y ↔ N x y))
    (hcount : ∀ u, u < s.size → u ∉ V → count' u = count u) : Tagged s D a b w V R' N' count' t where
  frame := h.frame
  keys := h.keys
  old {u v _} hnot hlookup :=
    h.old (fun hold => hnot ((hN u v ((h.keys u v).mp (mem_of_lookup_eq_some hlookup))).mpr hold)) hlookup
  new {u v _} hnew hlookup :=
    h.new ((hN u v ((h.keys u v).mp (mem_of_lookup_eq_some hlookup))).mp hnew) hlookup
  forward := h.forward.mono hR
  backward := h.backward.mono hR
  toSource := h.toSource
  fromTarget := h.fromTarget
  queue := h.queue
  counts u := by
    rw [h.counts]
    split
    · rename_i hu
      rw [hcount u hu.1 hu.2]
    · rfl
  sums := h.sums

theorem contains_iff (h : Tagged s D a b w V R N count t) (hu : u < s.size) : t.queue.contains u = true ↔ u ∉ V := by
  rw [contains, h.counts]
  split
  · rename_i hin
    exact iff_of_true rfl hin.2
  · rename_i hout
    refine iff_of_false (fun hsome => Bool.noConfusion hsome) fun hV => hout ⟨hu, hV⟩

theorem weight_old (h : Tagged s D a b w V R N count t) (hv : v ∈ s.adj u) (hnot : ¬ N u v) :
    t.network.weight u v ≤ infinity ∧ bound (t.network.weight u v) = D u v := by
  obtain ⟨x, hx⟩ := mem_iff.mp ((h.keys u v).mpr hv)
  unfold weight
  rw [hx]
  exact h.old hnot hx

/-- A neighbour that is not visited yet. -/
theorem reach (hs : s.Searchable s.graph T D) (h : Tagged s D a b w V R N count t) (hu : u ∈ s.adj v) (huV : u ∉ V)
    (hR : ∀ x y, R x y → x ∈ V) (huv : ¬ N u v) (hvu : ¬ N v u) :
    Tagged s D a b w V (fun x y => R x y ∨ x = v ∧ y = u) N (update count u (count u + 1)) (reach v t u) := by
  have hne : v ≠ u := hs.shape.ne hu
  have hfresh : ∀ y, ¬ R u y := fun y hy => huV (hR u y hy)
  have husize : u < s.size := hs.shape.lt (hs.shape.symm hu)
  obtain ⟨huvle, huvtight⟩ := h.weight_old (hs.shape.symm hu) huv
  obtain ⟨hvule, hvutight⟩ := h.weight_old hu hvu
  obtain ⟨_, hfexact, hfsound, hfcomm, hffound⟩ := sum_along_edge hs.distance.transpose hs.small.transpose
    (h.forward.le_infinity v) (h.forward.sound v) huvle huvtight
  obtain ⟨hbexact, _, hbsound, _, hbfound⟩ := sum_along_edge hs.distance hs.small
    (h.backward.le_infinity v) (h.backward.sound v) hvule hvutight
  have hcount : t.queue.count u = some (count u) := by
    rw [h.counts, if_pos ⟨husize, huV⟩]
  have hforward := h.forward.relax hne hfresh (pathSum_le_infinity _ _) hfsound hffound
  rw [← hfcomm] at hforward
  refine ⟨h.frame, h.keys, h.old, h.new, hforward,
    h.backward.relax hne hfresh (pathSum_le_infinity _ _) hbsound hbfound, fun x hx => ?_, fun x hx => ?_,
    h.queue.increment u, fun x => ?_, fun p hp => ?_⟩
  · have hxu : x ≠ u := fun heq => huV (heq ▸ hx)
    simp only [Tag.reach, update_of_ne hxu]
    exact h.toSource x hx
  · have hxu : x ≠ u := fun heq => huV (heq ▸ hx)
    simp only [Tag.reach, update_of_ne hxu]
    exact h.fromTarget x hx
  · simp only [Tag.reach]
    rw [count_increment hcount, update_apply, update_apply]
    split
    · rename_i hx
      rw [if_pos (by rw [hx]; exact ⟨husize, huV⟩)]
    · exact h.counts x
  · simp only [Tag.reach, List.mem_cons] at hp
    rcases hp with rfl | rfl | hold
    · exact hbexact
    · exact hfexact
    · exact h.sums p hold

section

variable (hs : s.Searchable s.graph T D) (hw : |w| ≤ 2 ^ 60)
include hs hw

/-- The weight that an edge between visited vertices gets. -/
theorem newWeight (h : Tagged s D a b w V R N count t) (hu : u ∈ V) (hv : v ∈ V) {x : Int} (hx : x ≤ infinity)
    (htight : bound x = D u v) : SumExact (t.forward u) w ∧ SumExact (pathSum (t.forward u) w) (t.backward v) ∧
      bound (min x (pathSum (pathSum (t.forward u) w) (t.backward v))) = withBound D a b w u v := by
  have hinf : infinity = 2 ^ 63 - 1 := rfl
  have hwabs := abs_le.mp hw
  have hflow := hs.small.transpose.lt_of_le_bound (h.forward.sound u)
  have hblow := hs.small.lt_of_le_bound (h.backward.sound v)
  have hexact : SumExact (t.forward u) w :=
    sumExact_of_le (by omega) (h.forward.le_infinity u) (by omega) (by omega)
  have hmid : -2 ^ 62 ≤ pathSum (t.forward u) w := by
    rw [hexact.value]
    split <;> omega
  have hexact' : SumExact (pathSum (t.forward u) w) (t.backward v) :=
    sumExact_of_le hmid (pathSum_le_infinity _ _) (by omega) (h.backward.le_infinity v)
  have hboundw : bound w = w := bound_of_lt (by omega)
  have hsound : D u a + (w + D b v) ≤ bound (pathSum (pathSum (t.forward u) w) (t.backward v)) :=
    calc D u a + (w + D b v) = (D u a + w) + D b v := (add_assoc _ _ _).symm
      _ ≤ (bound (t.forward u) + bound w) + bound (t.backward v) := by
        rw [hboundw]
        exact add_le_add (add_le_add (h.forward.sound u) (le_refl _)) (h.backward.sound v)
      _ ≤ bound (pathSum (t.forward u) w) + bound (t.backward v) := add_le_add hexact.add_le (le_refl _)
      _ ≤ bound (pathSum (pathSum (t.forward u) w) (t.backward v)) := hexact'.add_le
  refine ⟨hexact, hexact', ?_⟩
  rw [bound_min hx (pathSum_le_infinity _ _), htight, withBound]
  cases h.fromTarget v hv with
  | inl hback =>
    congr 1
    apply le_antisymm _ hsound
    have hfeq : bound (t.forward u) = D u a := le_antisymm (h.toSource u hu) (h.forward.sound u)
    have hbeq : bound (t.backward v) = D b v := le_antisymm hback (h.backward.sound v)
    cases hua : D u a with
    | top => simp
    | coe l =>
      cases hbv : D b v with
      | top => simp
      | coe m =>
        have hl := abs_lt.mp (hs.small u a l hua)
        have hm := abs_lt.mp (hs.small b v m hbv)
        have hfirst : pathSum (t.forward u) w = l + w := by
          apply hexact.eq_coe _ (by omega)
          rw [hfeq, hua, hboundw, WithTop.coe_add]
        have hsecond : pathSum (l + w) (t.backward v) = (l + w) + m := by
          rw [hfirst] at hexact'
          apply hexact'.eq_coe _ (by omega)
          rw [hbeq, hbv, bound_of_lt (by omega), ← WithTop.coe_add]
        rw [hfirst, hsecond, bound_of_lt (by omega), ← WithTop.coe_add, ← WithTop.coe_add, coe_le_coe]
        omega
  | inr hover =>
    have huse : D u v ≤ D u a + (w + D b v) :=
      (hs.distance.triangle u a v).trans (add_le_add (le_refl _) hover)
    rw [min_eq_left huse, min_eq_left (huse.trans hsound)]

/-- A neighbour that is visited. -/
theorem tighten (h : Tagged s D a b w V R N count t) (hu : u ∈ s.adj v) (huV : u ∈ V) (hvV : v ∈ V) (huv : ¬ N u v)
    (hvu : ¬ N v u) :
    Tagged s D a b w V R (fun x y => N x y ∨ x = u ∧ y = v ∨ x = v ∧ y = u) count (Tag.tighten w v t u) := by
  have hne : u ≠ v := (hs.shape.ne hu).symm
  obtain ⟨huvle, huvtight⟩ := h.weight_old (hs.shape.symm hu) huv
  obtain ⟨hvule, hvutight⟩ := h.weight_old hu hvu
  obtain ⟨huexact, huexact', hunew⟩ := h.newWeight hs hw huV hvV huvle huvtight
  obtain ⟨hvexact, hvexact', hvnew⟩ := h.newWeight hs hw hvV huV hvule hvutight
  refine ⟨?_, fun x y => ?_, fun {x y z} hnot hlookup => ?_, fun {x y z} hnew hlookup => ?_, h.forward, h.backward,
    h.toSource, h.fromTarget, h.queue, h.counts, fun p hp => ?_⟩
  · simp only [Tag.tighten, setWeights, setWeight]
    rw [h.frame]
  · simp only [Tag.tighten]
    rw [mem_setWeights hne, h.keys]
    constructor
    · rintro (⟨rfl, rfl⟩ | ⟨rfl, rfl⟩ | hold)
      · exact hs.shape.symm hu
      · exact hu
      · exact hold
    · exact fun hold => .inr (.inr hold)
  · push Not at hnot
    obtain ⟨hN, hxu, hxv⟩ := hnot
    simp only [Tag.tighten] at hlookup
    rw [lookup_setWeights hne, if_neg (fun heq => hxu heq.1 heq.2),
      if_neg (fun heq => hxv heq.1 heq.2)] at hlookup
    exact h.old hN hlookup
  · simp only [Tag.tighten] at hlookup
    rw [lookup_setWeights hne] at hlookup
    split at hlookup
    · rename_i hxy
      obtain ⟨rfl, rfl⟩ := hxy
      cases hlookup
      exact ⟨(min_le_left _ _).trans huvle, hunew⟩
    · rename_i hxy
      split at hlookup
      · rename_i hyx
        obtain ⟨rfl, rfl⟩ := hyx
        cases hlookup
        exact ⟨(min_le_left _ _).trans hvule, hvnew⟩
      · rename_i hyx
        exact h.new ((hnew.resolve_right (not_or.mpr ⟨hxy, hyx⟩))) hlookup
  · simp only [Tag.tighten, List.mem_cons] at hp
    rcases hp with rfl | rfl | rfl | rfl | hold
    · exact hvexact'
    · exact hvexact
    · exact huexact'
    · exact huexact
    · exact h.sums p hold

/-- The loop over the neighbours of a visited vertex. -/
theorem neighbors (hvV : v ∈ V) {us : List Nat} (hnodup : us.Nodup) (hus : ∀ u ∈ us, u ∈ s.adj v)
    (h : Tagged s D a b w V R N count t) (hR : ∀ x y, R x y → x ∈ V) (hN : ∀ u ∈ us, ¬ N u v ∧ ¬ N v u) :
    Tagged s D a b w V (fun x y => R x y ∨ x = v ∧ y ∈ us ∧ y ∉ V)
      (fun x y => N x y ∨ (x ∈ us ∧ x ∈ V ∧ y = v) ∨ (x = v ∧ y ∈ us ∧ y ∈ V))
      (fun u => count u + if u ∈ us then 1 else 0) (us.foldl (neighbor w v) t) := by
  induction us generalizing R N count t with
  | nil =>
    refine h.congr (fun x y hxy => ?_) (fun x y _ => ?_) fun u _ _ => ?_
    · exact hxy.resolve_right fun hnew => absurd hnew.2.1 List.not_mem_nil
    · simp
    · simp
  | cons u us ih =>
    obtain ⟨hnotin, hrest⟩ := List.nodup_cons.mp hnodup
    have hu : u ∈ s.adj v := hus u List.mem_cons_self
    have hne : v ≠ u := hs.shape.ne hu
    have hus' : ∀ x ∈ us, x ∈ s.adj v := fun x hx => hus x (List.mem_cons_of_mem u hx)
    obtain ⟨huv, hvu⟩ := hN u List.mem_cons_self
    have husize : u < s.size := hs.shape.lt (hs.shape.symm hu)
    rw [List.foldl_cons]
    unfold neighbor
    by_cases huV : u ∈ V
    · rw [if_neg (fun hin => (h.contains_iff husize).mp hin huV)]
      have hstep := h.tighten hs hw hu huV hvV huv hvu
      refine (ih hrest hus' hstep hR fun x hx => ?_).congr (fun x y hxy => ?_) (fun x y hxy => ?_) fun x _ hxV => ?_
      · obtain ⟨hxv, hvx⟩ := hN x (List.mem_cons_of_mem u hx)
        have hxu : x ≠ u := fun heq => hnotin (heq ▸ hx)
        have hxne : x ≠ v := (hs.shape.ne (hus' x hx)).symm
        simp [hxv, hvx, hxu, hxne]
      · refine hxy.imp_right fun hnew => ⟨hnew.1, ?_, hnew.2.2⟩
        refine (List.mem_cons.mp hnew.2.1).resolve_left fun heq => hnew.2.2 (heq ▸ huV)
      · simp only [List.mem_cons]
        grind
      · have hxu : x ≠ u := fun heq => hxV (heq ▸ huV)
        simp [hxu]
    · rw [if_pos ((h.contains_iff husize).mpr huV)]
      have hstep := h.reach hs hu huV hR huv hvu
      refine (ih hrest hus' hstep (fun x y hxy => ?_) fun x hx => hN x (List.mem_cons_of_mem u hx)).congr
        (fun x y hxy => ?_) (fun x y hxy => ?_) fun x _ hxV => ?_
      · exact hxy.elim (hR x y) fun hnew => hnew.1 ▸ hvV
      · simp only [List.mem_cons] at hxy
        grind
      · simp only [List.mem_cons]
        grind
      · by_cases hxu : x = u
        · subst hxu
          simp [hnotin]
        · simp [hxu]

end

/-- A vertex is taken out of the queue. -/
theorem remove (h : Tagged s D a b w V R N count t) (htoSource : bound (t.forward v) ≤ D v a)
    (hfromTarget : bound (t.backward v) ≤ D b v ∨ D a v ≤ w + D b v) :
    Tagged s D a b w (insert v V) R N count { t with queue := t.queue.remove v } where
  frame := h.frame
  keys := h.keys
  old := h.old
  new := h.new
  forward := h.forward
  backward := h.backward
  toSource u hu := by
    rcases mem_insert.mp hu with rfl | hold
    · exact htoSource
    · exact h.toSource u hold
  fromTarget u hu := by
    rcases mem_insert.mp hu with rfl | hold
    · exact hfromTarget
    · exact h.fromTarget u hold
  queue := h.queue.remove v
  counts u := by
    dsimp only
    rw [count_remove, update_apply, h.counts]
    by_cases huv : u = v
    · simp [huv]
    · simp [huv]
  sums := h.sums

end Tagged

/-- The state between two visits: the edges out of the visited set are relaxed, the edges
within it have their new weights. -/
def Visited (s : Network) (D : Nat → Nat → WithTop Int) (a b : Nat) (w : Int) (S : Finset Nat) (t : Tag) : Prop :=
  Tagged s D a b w S (fun x y => x ∈ S ∧ y ∈ s.adj x ∧ y ∉ S) (fun x y => x ∈ S ∧ y ∈ S)
    (fun u => {x ∈ S | s.graph.Adj u x}.card) t

theorem visited_start (hs : s.Searchable s.graph T D) (a b : Nat) (w : Int) :
    Visited s D a b w ∅ (start s a b w) where
  frame := rfl
  keys _ _ := Iff.rfl
  old _ hlookup := hs.tight _ _ _ hlookup
  new hin := absurd hin.1 (notMem_empty _)
  forward := (Relaxed.init hs.distance.transpose a).mono fun _ _ hxy => absurd hxy.1 (notMem_empty _)
  backward := (Relaxed.init hs.distance b).mono fun _ _ hxy => absurd hxy.1 (notMem_empty _)
  toSource _ hu := absurd hu (notMem_empty _)
  fromTarget _ hu := absurd hu (notMem_empty _)
  queue := valid_new s.size
  counts u := by simp [start, newCardinality]
  sums _ hp := absurd hp List.not_mem_nil

theorem Visited.visit (hs : s.Searchable s.graph T D) (hw : |w| ≤ 2 ^ 60) (h : Visited s D a b w S t)
    (range : Nat → RangeOrder Nat) (hv : v ∉ S) (htoSource : bound (t.forward v) ≤ D v a)
    (hfromTarget : bound (t.backward v) ≤ D b v ∨ D a v ≤ w + D b v) :
    Visited s D a b w (insert v S) (visit range w t v) := by
  have hmem : ∀ u, u ∈ t.network.neighbors (range v) v ↔ u ∈ s.adj v := by
    intro u
    unfold neighbors
    rw [RangeOrder.mem_order, mem_keys, h.keys]
  have hnodup : (t.network.neighbors (range v) v).Nodup := (range v).nodup_order _
  have hremoved := h.remove htoSource hfromTarget
  refine (hremoved.neighbors hs hw (mem_insert_self v S) hnodup
    (fun u hu => (hmem u).mp hu) (fun x y hxy => mem_insert_of_mem hxy.1)
    fun u _ => ⟨fun hN => hv hN.2, fun hN => hv hN.1⟩).congr (fun x y hxy => ?_) (fun x y hxy => ?_)
    fun u _ hu => ?_
  · obtain ⟨hx, hy, hyS⟩ := hxy
    rcases mem_insert.mp hx with rfl | hold
    · exact .inr ⟨rfl, (hmem y).mpr hy, hyS⟩
    · exact .inl ⟨hold, hy, fun hin => hyS (mem_insert_of_mem hin)⟩
  · have hyx := hs.shape.symm hxy
    have hne := hs.shape.ne hxy
    simp only [mem_insert, hmem]
    grind
  · have hadj : s.graph.Adj u v ↔ u ∈ t.network.neighbors (range v) v := by
      rw [hmem, SimpleGraph.adj_comm, hs.shape.adj_iff]
    rw [filter_insert]
    by_cases huv : s.graph.Adj u v
    · rw [if_pos huv, if_pos (hadj.mp huv), card_insert_of_notMem fun hin => hv (mem_filter.mp hin).1]
    · rw [if_neg huv, if_neg fun hin => huv (hadj.mpr hin), add_zero]

/-- The choice of the next vertex: it has the most visited neighbours. -/
structure Choice (s : Network) (a b : Nat) (S : Finset Nat) (v : Nat) : Prop where
  lt : v < s.size
  notMem : v ∉ S
  most : ∀ c ∈ Finset.range s.size, c ∉ S → {x ∈ S | s.graph.Adj c x}.card ≤ {x ∈ S | s.graph.Adj v x}.card
  ends : (S = ∅ ∧ v = a) ∨ (S = {a} ∧ v = b) ∨ (a ∈ S ∧ b ∈ S)

section

variable (hs : s.Searchable s.graph T D)
include hs

/-- When a vertex is chosen, its distance to the source of the bound is known. -/
theorem Visited.toSource_of_choice (h : Visited s D a b w S t) (hfill : Filled s.graph S)
    (hchoice : Choice s a b S v) : bound (t.forward v) ≤ D v a := by
  by_cases hva : v = a
  · subst hva
    exact (h.forward.at_source hs.distance.transpose).le
  · have haS : a ∈ S := by
      rcases hchoice.ends with ⟨_, heq⟩ | ⟨hS, _⟩ | ⟨ha, _⟩
      · exact absurd heq hva
      · exact hS ▸ mem_singleton_self a
      · exact ha
    cases hd : D v a with
    | top => exact le_top
    | coe l =>
      obtain ⟨d, x, hjoined, hx, hdx, hle⟩ := hs.distance.exists_entry hs.onEdges S (hs.distance.attained hd)
        hchoice.notMem haS
      have hvx := hs.peo.adj_of_joined hfill (mem_range.mpr hchoice.lt) hchoice.notMem hchoice.most hjoined hx hdx
      have hge := hs.distance.triangle v x a
      have hxeq : bound (t.forward x) = D x a := le_antisymm (h.toSource x hx) (h.forward.sound x)
      apply h.forward.along ⟨hx, hs.shape.adj_iff.mp hvx.symm, hchoice.notMem⟩ hd
      rw [hxeq, add_comm]
      exact le_antisymm hle (hd ▸ hge)

/-- When a vertex is chosen, its distance from the target of the bound is known, or a path
over the new bound is of no use. -/
theorem Visited.fromTarget_of_choice (hpos : 0 ≤ (w : WithTop Int) + D b a) (h : Visited s D a b w S t)
    (hfill : Filled s.graph S) (hchoice : Choice s a b S v) : bound (t.backward v) ≤ D b v ∨ D a v ≤ w + D b v := by
  by_cases hva : v = a
  · subst hva
    refine .inr ?_
    rw [hs.distance.self]
    exact hpos
  by_cases hvb : v = b
  · subst hvb
    exact .inl (h.backward.at_source hs.distance).le
  have hbS : b ∈ S := by
    rcases hchoice.ends with ⟨_, heq⟩ | ⟨_, heq⟩ | ⟨_, hb⟩
    · exact absurd heq hva
    · exact absurd heq hvb
    · exact hb
  cases hd : D b v with
  | top => exact .inl le_top
  | coe l =>
    have hedges : OnEdges s.graph (reversed T) := fun c hc hne => (hs.onEdges _ hc (Ne.symm hne)).symm
    obtain ⟨d, x, hjoined, hx, hdx, hle⟩ := hs.distance.transpose.exists_entry hedges S
      (hs.distance.transpose.attained hd) hchoice.notMem hbS
    have hvx := hs.peo.adj_of_joined hfill (mem_range.mpr hchoice.lt) hchoice.notMem hchoice.most hjoined hx hdx
    have hsum : D b x + D x v = l := by
      rw [add_comm]
      exact le_antisymm hle (hd ▸ add_comm (D b x) (D x v) ▸ hs.distance.triangle b x v)
    cases h.fromTarget x hx with
    | inl hback =>
      refine .inl (h.backward.along ⟨hx, hs.shape.adj_iff.mp hvx.symm, hchoice.notMem⟩ hd ?_)
      rw [le_antisymm hback (h.backward.sound x)]
      exact hsum
    | inr hover =>
      refine .inr ?_
      calc D a v ≤ D a x + D x v := hs.distance.triangle _ _ _
        _ ≤ (w + D b x) + D x v := add_le_add hover (le_refl _)
        _ = w + l := by rw [add_assoc, hsum]

theorem Visited.next (hab : b ∈ s.adj a) (hchoice : Choice s a b S v) (h : Visited s D a b w (insert v S) t) :
    Visited s D a b w (insert v S) (next a b t v).1 ∧
      match (next a b t v).2 with
      | none => ∀ u < s.size, u ∈ insert v S
      | some u => Choice s a b (insert v S) u := by
  unfold Tag.next
  by_cases hva : v = a
  · have hS : S = ∅ := by
      rcases hchoice.ends with ⟨hS, _⟩ | ⟨hS, _⟩ | ⟨ha, _⟩
      · exact hS
      · exact absurd (hva ▸ hS ▸ mem_singleton_self a) hchoice.notMem
      · exact absurd (hva ▸ ha) hchoice.notMem
    subst hva hS
    rw [if_pos rfl]
    refine ⟨h, hs.shape.lt (hs.shape.symm hab), ?_, fun c _ _ => ?_, .inr (.inl ⟨rfl, rfl⟩)⟩
    · simpa using (hs.shape.ne hab).symm
    · have hadj : s.graph.Adj b v := (hs.shape.adj_iff.mpr hab).symm
      calc _ ≤ (insert v ∅ : Finset Nat).card := card_filter_le _ _
        _ = 1 := rfl
        _ ≤ _ := by
          rw [one_le_card]
          exact ⟨v, mem_filter.mpr ⟨mem_insert_self v ∅, hadj⟩⟩
  · rw [if_neg hva]
    have hsame : Visited s D a b w (insert v S) { t with queue := t.queue.maximum.1 } :=
      ⟨h.frame, h.keys, h.old, h.new, h.forward, h.backward, h.toSource, h.fromTarget, h.queue.maximum,
        h.counts, h.sums⟩
    refine ⟨hsame, ?_⟩
    have hends : a ∈ insert v S ∧ b ∈ insert v S := by
      rcases hchoice.ends with ⟨_, heq⟩ | ⟨hS, heq⟩ | ⟨ha, hb⟩
      · exact absurd heq hva
      · subst hS heq
        simp
      · exact ⟨mem_insert_of_mem ha, mem_insert_of_mem hb⟩
    dsimp only
    split
    · rename_i hnone
      intro u hu
      by_contra hout
      have hcount := h.queue.maximum_none hnone u
      rw [h.counts, if_pos ⟨hu, hout⟩] at hcount
      cases hcount
    · rename_i u hsome
      obtain ⟨k, hk, hmost⟩ := h.queue.maximum_some hsome
      rw [h.counts] at hk
      split at hk
      · rename_i hu
        cases hk
        refine ⟨hu.1, hu.2, fun c hc hcS => ?_, .inr (.inr hends)⟩
        apply hmost c
        rw [h.counts, if_pos ⟨mem_range.mp hc, hcS⟩]
      · cases hk

/-- The loop visits all vertices. -/
theorem visited_loop (hw : |w| ≤ 2 ^ 60) (hab : b ∈ s.adj a) (hpos : 0 ≤ (w : WithTop Int) + D b a)
    (range : Nat → RangeOrder Nat) (rounds : Nat) :
    ∀ (S : Finset Nat) (t : Tag) (v : Option Nat), rounds + S.card = s.size → S ⊆ Finset.range s.size →
      Filled s.graph S → Visited s D a b w S t →
      (match v with
        | none => ∀ u < s.size, u ∈ S
        | some u => Choice s a b S u) →
      Visited s D a b w (Finset.range s.size) (loop range w a b rounds (t, v)) := by
  induction rounds with
  | zero =>
    intro S t v hcard hsub _ h _
    have hall : S = Finset.range s.size :=
      eq_of_subset_of_card_le hsub (by rw [card_range]; omega)
    exact hall ▸ h
  | succ rounds ih =>
    intro S t v hcard hsub hfill h hnext
    unfold loop
    cases v with
    | none =>
      have hall : S = Finset.range s.size :=
        Finset.Subset.antisymm hsub fun u hu => hnext u (mem_range.mp hu)
      exact hall ▸ h
    | some v =>
      have hvF := mem_range.mpr hnext.lt
      have hvisited := h.visit hs hw range hnext.notMem (h.toSource_of_choice hs hfill hnext)
        (h.fromTarget_of_choice hs hpos hfill hnext)
      obtain ⟨hkeep, hchosen⟩ := hvisited.next hs hab hnext
      apply ih (insert v S) _ _ _ (insert_subset hvF hsub)
        (hs.peo.filled_insert hfill hvF hnext.notMem hnext.most) hkeep hchosen
      rw [card_insert_of_notMem hnext.notMem]
      omega

/-- The propagation of a bound gives every edge its new distance. -/
theorem visited_run (hw : |w| ≤ 2 ^ 60) (hab : b ∈ s.adj a) (hpos : 0 ≤ (w : WithTop Int) + D b a) (ranges : Ranges) :
    Visited s D a b w (Finset.range s.size) (run ranges s a b w) := by
  have hfill : Filled s.graph ((∅ : Finset Nat) : Set Nat) := by
    rw [coe_empty]
    exact filled_empty s.graph
  refine visited_loop hs hw hab hpos ranges.tag s.size ∅ _ (some a) (by simp) (empty_subset _) hfill
    (visited_start hs a b w) ⟨hs.shape.lt hab, notMem_empty a, fun _ _ _ => by simp, .inl ⟨rfl, rfl⟩⟩

end

end swytch.stn
