import Mathlib.Combinatorics.SimpleGraph.Basic
import Mathlib.Data.Finset.Card
import Mathlib.Logic.Relation
import Swytch.Lib.Distance

namespace swytch.lib

open Finset Relation.ReflTransGen

/-- A numbering of the vertices in which the later neighbours of every vertex are
neighbours of each other. -/
structure PerfectElimination {V : Type} (G : SimpleGraph V) (F : Finset V) (rank : V → Nat) : Prop where
  mem : ∀ {x y}, G.Adj x y → x ∈ F
  inj : Set.InjOn rank F
  clique : ∀ {v x y}, G.Adj v x → G.Adj v y → rank v < rank x → rank v < rank y → x ≠ y → G.Adj x y

variable {V : Type} {G : SimpleGraph V} {F S : Finset V} {rank : V → Nat} {K : Set V} {x v u p : V}
  {C : Set (Constraint V)} {D : V → V → WithTop Int} {l : WithTop Int}

theorem PerfectElimination.congr {rank' : V → Nat} (h : PerfectElimination G F rank)
    (heq : ∀ x ∈ F, rank' x = rank x) : PerfectElimination G F rank' where
  mem := h.mem
  inj x hx y hy hxy := by
    rw [heq x hx, heq y hy] at hxy
    exact h.inj hx hy hxy
  clique hx hy hvx hvy hxy := by
    rw [heq _ (h.mem hx), heq _ (h.mem hx.symm)] at hvx
    rw [heq _ (h.mem hy), heq _ (h.mem hy.symm)] at hvy
    exact h.clique hx hy hvx hvy hxy

/-- One neighbour stands for all: it is enough to compare the later neighbours of a vertex
with the first of them. -/
theorem PerfectElimination.of_parents (N : Nat) (hmem : ∀ {x y}, G.Adj x y → x ∈ F) (hinj : Set.InjOn rank F)
    (hrank : ∀ x ∈ F, rank x < N) (hparent : ∀ {v p u}, G.Adj v p → rank v < rank p →
      (∀ y, G.Adj v y → rank v < rank y → rank p ≤ rank y) →
      G.Adj v u → rank v < rank u → u ≠ p → G.Adj p u) : PerfectElimination G F rank := by
  have hclique : ∀ k v x y, N - rank v = k → G.Adj v x → G.Adj v y → rank v < rank x → rank v < rank y → x ≠ y →
      G.Adj x y := by
    intro k
    -- from the last vertex down: the first later neighbour settles the others
    induction k using Nat.strong_induction_on with
    | _ k ih =>
      intro v x y hk hvx hvy hx hy hxy
      obtain ⟨p, ⟨hvp, hp⟩, hleast⟩ := WellFounded.has_min (measure rank).wf
        {z | G.Adj v z ∧ rank v < rank z} ⟨x, hvx, hx⟩
      have hfirst : ∀ z, G.Adj v z → rank v < rank z → rank p ≤ rank z :=
        fun z hvz hz => Nat.le_of_not_lt (hleast z ⟨hvz, hz⟩)
      have hlater : ∀ z, G.Adj v z → rank v < rank z → z ≠ p → rank p < rank z := by
        intro z hvz hz hzp
        have hne : rank p ≠ rank z := fun heq => hzp (hinj (hmem hvp.symm) (hmem hvz.symm) heq).symm
        have hle := hfirst z hvz hz
        omega
      by_cases hxp : x = p
      · subst hxp
        exact hparent hvx hx hfirst hvy hy (Ne.symm hxy)
      · by_cases hyp : y = p
        · subst hyp
          exact (hparent hvy hy hfirst hvx hx hxy).symm
        · have hbound := hrank p (hmem hvp.symm)
          exact ih (N - rank p) (by omega) p x y rfl (hparent hvp hp hfirst hvx hx hxp)
            (hparent hvp hp hfirst hvy hy hyp) (hlater x hvx hx hxp) (hlater y hvy hy hyp) hxy
  exact ⟨hmem, hinj, fun hvx hvy hx hy hxy => hclique _ _ _ _ rfl hvx hvy hx hy hxy⟩

/-- Paths whose vertices all lie in a set. -/
def JoinedIn {V : Type} (G : SimpleGraph V) (K : Set V) : V → V → Prop :=
  Relation.ReflTransGen fun x y => G.Adj x y ∧ x ∈ K ∧ y ∈ K

theorem JoinedIn.symm {y : V} (h : JoinedIn G K x y) : JoinedIn G K y x := by
  induction h with
  | refl => exact .refl
  | tail _ hstep ih => exact ih.head ⟨hstep.1.symm, hstep.2.2, hstep.2.1⟩

theorem JoinedIn.mem {y : V} (h : JoinedIn G K x y) (hx : x ∈ K) : y ∈ K := by
  cases h with
  | refl => exact hx
  | tail _ hstep => exact hstep.2.2

/-- Taking the first vertex out of a set keeps paths between the others: its two
neighbours on a path are adjacent. -/
theorem JoinedIn.avoid_first {s z : V}
    (hchord : ∀ a ∈ K, ∀ b ∈ K, a ≠ s → b ≠ s → G.Adj s a → G.Adj s b → a ≠ b → G.Adj a b) (hxs : x ≠ s)
    (h : JoinedIn G K x z) : (z ≠ s → JoinedIn G (K \ {s}) x z) ∧
      (z = s → ∃ a ∈ K \ {s}, JoinedIn G (K \ {s}) x a ∧ G.Adj a s) := by
  induction h with
  | refl => exact ⟨fun _ => .refl, fun heq => absurd heq hxs⟩
  | @tail y z hprev hstep ih =>
    obtain ⟨hadj, hy, hz⟩ := hstep
    by_cases hys : y = s
    · subst hys
      refine ⟨fun hzs => ?_, fun heq => absurd (heq ▸ hadj) (G.irrefl)⟩
      obtain ⟨a, ha, hjoined, has⟩ := ih.2 rfl
      by_cases haz : a = z
      · exact haz ▸ hjoined
      · exact hjoined.tail ⟨hchord a ha.1 z hz ha.2 hzs has.symm hadj haz, ha, hz, hzs⟩
    · have hjoined := ih.1 hys
      exact ⟨fun hzs => hjoined.tail ⟨hadj, ⟨hy, hys⟩, ⟨hz, hzs⟩⟩,
        fun heq => ⟨y, ⟨hy, hys⟩, hjoined, heq ▸ hadj⟩⟩

/-- A connected set with a clique around it has a vertex adjacent to the whole clique. -/
theorem PerfectElimination.exists_dominating (h : PerfectElimination G F rank) (k : Nat) :
    ∀ K : Finset V, K.card = k → K.Nonempty → K ⊆ F → (∀ x ∈ K, ∀ y ∈ K, JoinedIn G K x y) →
    ∀ C : Set V, (∀ x ∈ C, x ∉ K) → (∀ x ∈ C, ∀ y ∈ C, x ≠ y → G.Adj x y) →
    (∀ x ∈ C, ∃ d ∈ K, G.Adj d x) → ∃ c ∈ K, ∀ x ∈ C, G.Adj c x := by
  classical
  induction k with
  | zero =>
    intro K hcard hne
    exact absurd (card_eq_zero.mp hcard) hne.ne_empty
  | succ k ih =>
    intro K hcard hne hKF hconn C hdisj hclique htouch
    obtain ⟨s, hs, hmin⟩ := WellFounded.has_min (measure rank).wf {x | x ∈ K ∨ x ∈ C}
      ⟨hne.choose, .inl hne.choose_spec⟩
    have hF : ∀ x, x ∈ K ∨ x ∈ C → x ∈ F := by
      intro x hx
      cases hx with
      | inl hK => exact hKF hK
      | inr hC =>
        obtain ⟨d, _, hdx⟩ := htouch x hC
        exact h.mem hdx.symm
    have hlater : ∀ x, x ∈ K ∨ x ∈ C → x ≠ s → rank s < rank x := by
      intro x hx hxs
      have hle : rank s ≤ rank x := Nat.le_of_not_lt (hmin x hx)
      have hne : rank s ≠ rank x := fun heq => hxs (h.inj (hF s hs) (hF x hx) heq).symm
      omega
    cases hs with
    | inr hsC =>
      obtain ⟨d, hdK, hds⟩ := htouch s hsC
      refine ⟨d, hdK, fun x hxC => ?_⟩
      by_cases hxs : x = s
      · exact hxs ▸ hds
      · have hds' : d ≠ s := fun heq => hdisj s hsC (heq ▸ hdK)
        have hdx : d ≠ x := fun heq => hdisj x hxC (heq ▸ hdK)
        exact h.clique hds.symm (hclique s hsC x hxC (Ne.symm hxs)) (hlater d (.inl hdK) hds')
          (hlater x (.inr hxC) hxs) hdx
    | inl hsK =>
      by_cases hone : K = {s}
      · refine ⟨s, hsK, fun x hxC => ?_⟩
        obtain ⟨d, hdK, hdx⟩ := htouch x hxC
        rw [hone, mem_singleton] at hdK
        exact hdK ▸ hdx
      · obtain ⟨y, hyK, hys⟩ : ∃ y ∈ K, y ≠ s := by
          by_contra hall
          push Not at hall
          exact hone (eq_singleton_iff_unique_mem.mpr ⟨hsK, hall⟩)
        have hcoe : ((K.erase s : Finset V) : Set V) = (K : Set V) \ {s} := coe_erase s K
        have hchord : ∀ a ∈ (K : Set V), ∀ b ∈ (K : Set V), a ≠ s → b ≠ s → G.Adj s a → G.Adj s b → a ≠ b →
            G.Adj a b := fun a ha b hb has hbs hsa hsb hab =>
          h.clique hsa hsb (hlater a (.inl ha) has) (hlater b (.inl hb) hbs) hab
        have hconn' : ∀ x ∈ K.erase s, ∀ z ∈ K.erase s, JoinedIn G (K.erase s) x z := by
          intro x hx z hz
          rw [hcoe]
          obtain ⟨hxs, hxK⟩ := mem_erase.mp hx
          obtain ⟨hzs, hzK⟩ := mem_erase.mp hz
          exact (JoinedIn.avoid_first hchord hxs (hconn x hxK z hzK)).1 hzs
        obtain ⟨a, haK, _, has⟩ := (JoinedIn.avoid_first hchord hys (hconn y hyK s hsK)).2 rfl
        have haK' : a ∈ K.erase s := mem_erase.mpr ⟨haK.2, haK.1⟩
        have htouch' : ∀ x ∈ C, ∃ d ∈ K.erase s, G.Adj d x := by
          intro x hxC
          obtain ⟨d, hdK, hdx⟩ := htouch x hxC
          by_cases hds : d = s
          · subst hds
            have hax : a ≠ x := fun heq => hdisj x hxC (heq ▸ haK.1)
            have hxd : x ≠ d := fun heq => hdisj x hxC (heq ▸ hsK)
            exact ⟨a, haK', h.clique has.symm hdx (hlater a (.inl haK.1) haK.2) (hlater x (.inr hxC) hxd) hax⟩
          · exact ⟨d, mem_erase.mpr ⟨hds, hdK⟩, hdx⟩
        have hcard' : (K.erase s).card = k := by
          rw [card_erase_of_mem hsK]
          omega
        obtain ⟨c, hc, hall⟩ := ih (K.erase s) hcard' ⟨a, haK'⟩ ((erase_subset s K).trans hKF) hconn' C
          (fun x hxC hx => hdisj x hxC (mem_of_mem_erase hx)) hclique htouch'
        exact ⟨c, mem_of_mem_erase hc, hall⟩

/-- Two vertices of the set that are joined by a path outside of it are adjacent. -/
def Filled {V : Type} (G : SimpleGraph V) (S : Set V) : Prop :=
  ∀ x ∈ S, ∀ y ∈ S, x ≠ y → ∀ d e, G.Adj x d → JoinedIn G Sᶜ d e → d ∉ S → G.Adj e y → G.Adj x y

theorem filled_empty (G : SimpleGraph V) : Filled G ∅ :=
  fun x hx => absurd hx (Set.notMem_empty x)

/-- A vertex with the most neighbours in a filled set is adjacent to every vertex of the set
that it is joined to. -/
theorem PerfectElimination.adj_of_joined [DecidableEq V] [DecidableRel G.Adj] (h : PerfectElimination G F rank)
    (hfill : Filled G S) (hvF : v ∈ F) (hv : v ∉ S)
    (hmax : ∀ c ∈ F, c ∉ S → {x ∈ S | G.Adj c x}.card ≤ {x ∈ S | G.Adj v x}.card) {d : V}
    (hjoined : JoinedIn G (S : Set V)ᶜ v d) (hx : x ∈ S) (hdx : G.Adj d x) : G.Adj v x := by
  classical
  let K : Finset V := {y ∈ F | JoinedIn G (S : Set V)ᶜ v y}
  have hmemK : ∀ y, JoinedIn G (S : Set V)ᶜ v y → y ∈ K := by
    intro y hy
    refine mem_filter.mpr ⟨?_, hy⟩
    cases hy with
    | refl => exact hvF
    | tail _ hstep => exact h.mem hstep.1.symm
  have houtside : ∀ y ∈ K, y ∉ S := fun y hy => (mem_filter.mp hy).2.mem hv
  have hfromv : ∀ y, JoinedIn G (S : Set V)ᶜ v y → JoinedIn G K v y := by
    intro y hy
    induction hy with
    | refl => exact .refl
    | tail hprev hstep ih => exact ih.tail ⟨hstep.1, hmemK _ hprev, hmemK _ (hprev.tail hstep)⟩
  have hconn : ∀ y ∈ K, ∀ z ∈ K, JoinedIn G K y z := fun y hy z hz =>
    (hfromv y (mem_filter.mp hy).2).symm.trans (hfromv z (mem_filter.mp hz).2)
  let C : Finset V := {y ∈ S | ∃ e ∈ K, G.Adj e y}
  have hclique : ∀ y ∈ (C : Set V), ∀ z ∈ (C : Set V), y ≠ z → G.Adj y z := by
    intro y hy z hz hyz
    obtain ⟨hyS, e, heK, hey⟩ := mem_filter.mp hy
    obtain ⟨hzS, f, hfK, hfz⟩ := mem_filter.mp hz
    have hef := (mem_filter.mp heK).2.symm.trans (mem_filter.mp hfK).2
    exact hfill y hyS z hzS hyz e f hey.symm hef (houtside e heK) hfz
  obtain ⟨c, hcK, hall⟩ := h.exists_dominating K.card K rfl ⟨v, hmemK v .refl⟩ (filter_subset _ _) hconn C
    (fun y hy hyK => houtside y hyK (mem_filter.mp hy).1) hclique
    (fun y hy => (mem_filter.mp hy).2)
  -- the vertex that is adjacent to all of `C` has no more neighbours in `S` than `v`
  have hvC : {y ∈ S | G.Adj v y} ⊆ C := by
    intro y hy
    obtain ⟨hyS, hvy⟩ := mem_filter.mp hy
    exact mem_filter.mpr ⟨hyS, v, hmemK v .refl, hvy⟩
  have hCc : C ⊆ {y ∈ S | G.Adj c y} := by
    intro y hy
    exact mem_filter.mpr ⟨(mem_filter.mp hy).1, hall y hy⟩
  have hcF : c ∈ F := (mem_filter.mp hcK).1
  have heq : {y ∈ S | G.Adj v y} = C :=
    eq_of_subset_of_card_le hvC ((card_le_card hCc).trans (hmax c hcF (houtside c hcK)))
  have hxC : x ∈ C := mem_filter.mpr ⟨hx, d, hmemK d hjoined, hdx⟩
  rw [← heq] at hxC
  exact (mem_filter.mp hxC).2

/-- Visiting a vertex with the most visited neighbours keeps the visited set filled. -/
theorem PerfectElimination.filled_insert [DecidableEq V] [DecidableRel G.Adj] (h : PerfectElimination G F rank)
    (hfill : Filled G S) (hvF : v ∈ F) (hv : v ∉ S)
    (hmax : ∀ c ∈ F, c ∉ S → {x ∈ S | G.Adj c x}.card ≤ {x ∈ S | G.Adj v x}.card) :
    Filled G (insert v S : Finset V) := by
  have hout : ∀ {d e}, JoinedIn G ((insert v S : Finset V) : Set V)ᶜ d e → JoinedIn G (S : Set V)ᶜ d e := by
    intro d e hjoined
    refine mono (fun a b hstep => ⟨hstep.1, ?_, ?_⟩) _ _ hjoined
    · exact fun ha => hstep.2.1 (mem_insert_of_mem ha)
    · exact fun hb => hstep.2.2 (mem_insert_of_mem hb)
  have htoV : ∀ {x d e}, x ∈ S → d ∉ S → JoinedIn G (S : Set V)ᶜ d e → G.Adj x d → G.Adj e v → G.Adj v x := by
    intro x d e hx hd hjoined hxd hev
    have he : e ∉ S := hjoined.mem hd
    have hve : JoinedIn G (S : Set V)ᶜ v d := head ⟨hev.symm, hv, he⟩ hjoined.symm
    exact h.adj_of_joined hfill hvF hv hmax hve hx hxd.symm
  intro x hx y hy hxy d e hxd hjoined hd hey
  have hdS : d ∉ S := fun hmem => hd (mem_insert_of_mem hmem)
  have heS : e ∉ S := (hout hjoined).mem hdS
  rcases mem_insert.mp hx with rfl | hxS
  · have hyS := (mem_insert.mp hy).resolve_left (Ne.symm hxy)
    exact htoV hyS heS (hout hjoined).symm hey.symm hxd.symm
  · rcases mem_insert.mp hy with rfl | hyS
    · exact (htoV hxS hdS (hout hjoined) hxd hey).symm
    · exact hfill x hxS y hyS hxy d e hxd (hout hjoined) hdS hey

/-- Every bound between different variables is between neighbours. -/
def OnEdges {V : Type} (G : SimpleGraph V) (C : Set (Constraint V)) : Prop :=
  ∀ c ∈ C, c.source ≠ c.target → G.Adj c.source c.target

/-- A walk into a set enters it at a vertex that is joined to its start outside the set. -/
theorem IsDistance.exists_entry (h : IsDistance C D) (hedges : OnEdges G C) (S : Set V) {a : V} {l : Int}
    (hwalk : Walk C u a l) (hu : u ∉ S) (ha : a ∈ S) :
    ∃ d x, JoinedIn G Sᶜ u d ∧ x ∈ S ∧ G.Adj d x ∧ D u x + D x a ≤ l := by
  induction hwalk with
  | nil v => exact absurd ha hu
  | @cons c a l hc hwalk ih =>
    by_cases htarget : c.target ∈ S
    · have hne : c.source ≠ c.target := fun heq => hu (heq ▸ htarget)
      refine ⟨c.source, c.target, .refl, htarget, hedges c hc hne, ?_⟩
      rw [WithTop.coe_add]
      exact add_le_add (h.edge hc) (h.le_walk hwalk)
    · obtain ⟨d, x, hjoined, hx, hdx, hle⟩ := ih htarget ha
      refine ⟨d, x, ?_, hx, hdx, ?_⟩
      · by_cases hne : c.source = c.target
        · exact hne ▸ hjoined
        · exact hjoined.head ⟨hedges c hc hne, hu, htarget⟩
      · calc D c.source x + D x a ≤ (D c.source c.target + D c.target x) + D x a := by
              gcongr
              exact h.triangle _ _ _
          _ = D c.source c.target + (D c.target x + D x a) := add_assoc _ _ _
          _ ≤ c.bound + l := add_le_add (h.edge hc) hle
          _ = ((c.bound + l : Int) : WithTop Int) := (WithTop.coe_add _ _).symm

/-- The distances summed up along paths that rise in the numbering. -/
inductive Rises {V : Type} (G : SimpleGraph V) (rank : V → Nat) (D : V → V → WithTop Int) (u : V) :
    V → WithTop Int → Prop where
  | start : Rises G rank D u u 0
  | step {v x : V} {l : WithTop Int} (hprev : Rises G rank D u v l) (hadj : G.Adj v x) (hrank : rank v < rank x) :
    Rises G rank D u x (l + D v x)

theorem IsDistance.le_rises (h : IsDistance C D) (hrise : Rises G rank D u p l) :
    D u p ≤ l := by
  induction hrise with
  | start => exact (h.self u).le
  | step _ _ _ ih => exact (h.triangle _ _ _).trans (by gcongr)

theorem Rises.head (hrise : Rises G rank D x p l) (hux : G.Adj u x) (hup : rank u < rank x) :
    Rises G rank D u p (D u x + l) := by
  induction hrise with
  | start =>
    have hstep : Rises G rank D u x (0 + D u x) := .step .start hux hup
    rwa [add_comm] at hstep
  | step _ hadj hrank ih =>
    rw [← add_assoc]
    exact .step ih hadj hrank

/-- A step down in front of a rising path is removed, or ends at its peak. -/
theorem Rises.absorb (hpeo : PerfectElimination G F rank) (h : IsDistance C D)
    (hux : G.Adj u x) (hdown : rank x < rank u) (hrise : Rises G rank D x p l) :
    (∃ l', Rises G rank D u p l' ∧ l' ≤ D u x + l) ∨ (G.Adj u p ∧ rank p < rank u ∧ D u p ≤ D u x + l) := by
  induction hrise with
  | start => exact .inr ⟨hux, hdown, by rw [add_zero]⟩
  | @step v y l hprev hadj hrank ih =>
    cases ih with
    | inl hrising =>
      obtain ⟨l', hrise', hle⟩ := hrising
      refine .inl ⟨l' + D v y, .step hrise' hadj hrank, ?_⟩
      rw [← add_assoc]
      gcongr
    | inr hfalling =>
      obtain ⟨huv, hvu, hle⟩ := hfalling
      have hsum : D u v + D v y ≤ D u x + (l + D v y) := by
        rw [← add_assoc]
        gcongr
      by_cases huy : u = y
      · subst huy
        refine .inl ⟨0, .start, ?_⟩
        calc (0 : WithTop Int) = D u u := (h.self u).symm
          _ ≤ D u v + D v u := h.triangle _ _ _
          _ ≤ D u x + (l + D v u) := hsum
      · have hadj' : G.Adj u y := hpeo.clique huv.symm hadj hvu hrank huy
        have hshort : D u y ≤ D u x + (l + D v y) := (h.triangle u v y).trans hsum
        by_cases hup : rank u < rank y
        · exact .inl ⟨0 + D u y, .step .start hadj' hup, by rwa [zero_add]⟩
        · have hne : rank u ≠ rank y := fun heq => huy (hpeo.inj (hpeo.mem hadj') (hpeo.mem hadj'.symm) heq)
          exact .inr ⟨hadj', by omega, hshort⟩

/-- Every walk can be replaced by one that rises to a peak and then falls. -/
theorem PerfectElimination.exists_peak (hpeo : PerfectElimination G F rank) (h : IsDistance C D)
    (hedges : OnEdges G C) {l : Int} (hwalk : Walk C u v l) :
    ∃ p α β, Rises G rank D u p α ∧ Rises G rank (fun x y => D y x) v p β ∧ α + β ≤ l := by
  induction hwalk with
  | nil v => exact ⟨v, 0, 0, .start, .start, by simp⟩
  | @cons c v l hc _ ih =>
    obtain ⟨p, α, β, hup, hdown, hle⟩ := ih
    have hedge := h.edge hc
    rw [WithTop.coe_add]
    by_cases hloop : c.source = c.target
    · have hnonneg : (0 : WithTop Int) ≤ c.bound := by
        rw [hloop, h.self] at hedge
        exact hedge
      refine ⟨p, α, β, hloop ▸ hup, hdown, ?_⟩
      calc α + β = 0 + (α + β) := (zero_add _).symm
        _ ≤ c.bound + l := add_le_add hnonneg hle
    · have hadj := hedges c hc hloop
      have htotal : D c.source c.target + α + β ≤ c.bound + l := by
        rw [add_assoc]
        exact add_le_add hedge hle
      by_cases hrank : rank c.target < rank c.source
      · cases Rises.absorb hpeo h hadj hrank hup with
        | inl hrising =>
          obtain ⟨α', hup', hα⟩ := hrising
          exact ⟨p, α', β, hup', hdown, (by gcongr : α' + β ≤ D c.source c.target + α + β).trans htotal⟩
        | inr hfalling =>
          obtain ⟨hadj', hrank', hα⟩ := hfalling
          refine ⟨c.source, 0, β + D c.source p, .start, .step hdown hadj'.symm hrank', ?_⟩
          calc 0 + (β + D c.source p) = D c.source p + β := by abel
            _ ≤ D c.source c.target + α + β := by gcongr
            _ ≤ c.bound + l := htotal
      · have hne : rank c.source ≠ rank c.target := fun heq =>
          hloop (hpeo.inj (hpeo.mem hadj) (hpeo.mem hadj.symm) heq)
        refine ⟨p, D c.source c.target + α, β, hup.head hadj (by omega), hdown, htotal⟩

end swytch.lib
