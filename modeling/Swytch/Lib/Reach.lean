import Mathlib.Data.Finset.Card
import Mathlib.Logic.Relation
import Mathlib.Order.WellFounded

namespace swytch.lib

open Finset

/-- `b` is reached from `a` by following children any number of times. -/
def Reach {α : Type} (children : α → List α) : α → α → Prop :=
  Relation.ReflTransGen (fun a b => b ∈ children a)

variable {α : Type} {children : α → List α} {a b c : α} {s : Set α}

theorem Reach.refl (a : α) : Reach children a a :=
  Relation.ReflTransGen.refl

theorem Reach.trans (hab : Reach children a b) (hbc : Reach children b c) : Reach children a c :=
  Relation.ReflTransGen.trans hab hbc

theorem Reach.head
    (hab : b ∈ children a) (hbc : Reach children b c) : Reach children a c :=
  Relation.ReflTransGen.head hab hbc

theorem Reach.single (hab : b ∈ children a) : Reach children a b :=
  Relation.ReflTransGen.single hab

theorem Reach.cases_head (hac : Reach children a c) : a = c ∨ ∃ b ∈ children a, Reach children b c := by
  rcases Relation.ReflTransGen.cases_head hac with heq | ⟨b, hb, hbc⟩
  · exact .inl heq
  · exact .inr ⟨b, hb, hbc⟩

/-- A set that contains the children of its members contains all they reach. -/
theorem Reach.mem_of_closed (hclosed : ∀ x ∈ s, ∀ y ∈ children x, y ∈ s) (ha : a ∈ s)
    (hab : Reach children a b) : b ∈ s := by
  induction hab with
  | refl => exact ha
  | tail _ hstep ih => exact hclosed _ ih _ hstep

variable {f g : α → List α}

theorem Reach.mono (hsub : ∀ a, f a ⊆ g a) (hab : Reach f a b) : Reach g a b := by
  induction hab with
  | refl => exact Reach.refl a
  | tail _ hstep ih => exact ih.trans (Reach.single (hsub _ hstep))

/-- Within a set that contains the children of its members, it is enough to keep
their children. -/
theorem Reach.mono_on (hclosed : ∀ x ∈ s, ∀ y ∈ f x, y ∈ s) (hkept : ∀ x ∈ s, ∀ y ∈ f x, y ∈ g x)
    (ha : a ∈ s) (hab : Reach f a b) : Reach g a b := by
  induction hab using Relation.ReflTransGen.head_induction_on with
  | refl => exact Reach.refl b
  | @head x y hstep _ ih => exact Reach.head (hkept x ha y hstep) (ih (hclosed x ha y hstep))

/-- No infinite path follows children. On a finite graph this says that no vertex
reaches itself through a child. -/
def Acyclic {α : Type} (children : α → List α) : Prop :=
  WellFounded (fun b a => b ∈ children a)

theorem Acyclic.not_reach_of_mem (hacyclic : Acyclic children) (hb : b ∈ children a) : ¬ Reach children b a := by
  induction a using hacyclic.induction generalizing b with
  | _ a ih =>
    intro hba
    rcases hba.cases_head with heq | ⟨c, hc, hca⟩
    · subst heq
      exact ih b hb hb (Reach.refl b)
    · exact ih b hb hc (hca.trans (Reach.single hb))

/-- Reachability on an acyclic graph is a partial order. -/
theorem Acyclic.antisymm (hacyclic : Acyclic children) (hab : Reach children a b) (hba : Reach children b a) :
    a = b := by
  rcases hab.cases_head with heq | ⟨c, hc, hcb⟩
  · exact heq
  · exact absurd (hcb.trans hba) (hacyclic.not_reach_of_mem hc)

theorem acyclic_of_rank (rank : α → Nat) (hrank : ∀ a, ∀ b ∈ children a, rank b < rank a) : Acyclic children :=
  Subrelation.wf (fun {b a} hb => hrank a b hb) (InvImage.wf rank Nat.lt_wfRel.wf)

/-- Going down one or more edges at a time comes to an end as well. -/
theorem Acyclic.of_reach (hacyclic : Acyclic f) (hsub : ∀ a, ∀ b ∈ g a, ∃ c ∈ f a, Reach f c b) : Acyclic g := by
  refine Subrelation.wf (fun {b a} hb => ?_) hacyclic.transGen
  obtain ⟨c, hc, hcb⟩ := hsub a b hb
  exact Relation.TransGen.tail' (Relation.reflTransGen_swap.mpr hcb) hc

open Classical in
/-- The number of inner vertices a vertex reaches, where `inner` holds every vertex
that has children. -/
noncomputable def depth {α : Type} (children : α → List α) (inner : Finset α) (a : α) : Nat :=
  (inner.filter (Reach children a)).card

theorem depth_le_card (children : α → List α) (inner : Finset α) (a : α) : depth children inner a ≤ inner.card := by
  classical
  exact card_filter_le _ _

theorem depth_lt_of_mem {inner : Finset α} (hacyclic : Acyclic children) (ha : a ∈ inner) (hb : b ∈ children a) :
    depth children inner b < depth children inner a := by
  classical
  apply card_lt_card
  refine ssubset_iff_of_subset ?_ |>.mpr ⟨a, ?_, ?_⟩
  · intro x hx
    obtain ⟨hxi, hbx⟩ := mem_filter.mp hx
    exact mem_filter.mpr ⟨hxi, Reach.head hb hbx⟩
  · exact mem_filter.mpr ⟨ha, Reach.refl a⟩
  · intro hmem
    exact hacyclic.not_reach_of_mem hb (mem_filter.mp hmem).2

/-- If every member of a finite set that is not good has another member above it,
every member is reached from a good one. -/
theorem Acyclic.exists_good_above (hacyclic : Acyclic children)
    {s : Finset α} {good : α → Prop}
    (habove : ∀ t ∈ s, ¬ good t → ∃ r ∈ s, r ≠ t ∧ Reach children r t) {t : α} (ht : t ∈ s) :
    ∃ r ∈ s, good r ∧ Reach children r t := by
  classical
  -- the members above a member are fewer than those above what it reaches
  induction hn : (s.filter (fun r => Reach children r t)).card using Nat.strong_induction_on generalizing t with
  | _ n ih =>
    by_cases hgood : good t
    · exact ⟨t, ht, hgood, Reach.refl t⟩
    · obtain ⟨r, hr, hne, hrt⟩ := habove t ht hgood
      have hfewer : (s.filter (fun x => Reach children x r)).card < n := by
        rw [← hn]
        apply card_lt_card
        refine ssubset_iff_of_subset ?_ |>.mpr ⟨t, ?_, ?_⟩
        · intro x hx
          obtain ⟨hxs, hxr⟩ := mem_filter.mp hx
          exact mem_filter.mpr ⟨hxs, hxr.trans hrt⟩
        · exact mem_filter.mpr ⟨ht, Reach.refl t⟩
        · intro hmem
          exact hne (hacyclic.antisymm hrt (mem_filter.mp hmem).2)
      obtain ⟨x, hx, hgood', hxr⟩ := ih _ hfewer hr rfl
      exact ⟨x, hx, hgood', hxr.trans hrt⟩

/-- Replacing vertices by others that reach the same, until nothing is left to replace,
does not change what is reached. -/
theorem Acyclic.reach_iff_leaf {sub : α → List α} (hacyclic : Acyclic sub) {e : α}
    (hsub : ∀ t, sub t ≠ [] → (Reach children t e ↔ ∃ d ∈ sub t, Reach children d e)) (t : α) :
    Reach children t e ↔ ∃ r, Reach sub t r ∧ sub r = [] ∧ Reach children r e := by
  induction t using hacyclic.induction with
  | _ t ih =>
    by_cases hleaf : sub t = []
    · constructor
      · intro hte
        exact ⟨t, Reach.refl t, hleaf, hte⟩
      · rintro ⟨r, htr, -, hre⟩
        rcases htr.cases_head with rfl | ⟨d, hd, -⟩
        · exact hre
        · rw [hleaf] at hd
          cases hd
    · rw [hsub t hleaf]
      constructor
      · rintro ⟨d, hd, hde⟩
        obtain ⟨r, hdr, hr, hre⟩ := (ih d hd).mp hde
        exact ⟨r, Reach.head hd hdr, hr, hre⟩
      · rintro ⟨r, htr, hr, hre⟩
        rcases htr.cases_head with rfl | ⟨d, hd, hdr⟩
        · exact absurd hr hleaf
        · exact ⟨d, hd, (ih d hd).mpr ⟨r, hdr, hr, hre⟩⟩

end swytch.lib
