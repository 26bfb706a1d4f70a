import Swytch.Lib.Reach

namespace swytch.lib

open List Reach

/-- Depth-first post-order: append to `order` the vertices below `t` that it does
not list yet, each after its children. The first argument bounds the depth. -/
def visitFuel {α : Type} [DecidableEq α] (children : α → List α) : Nat → α → List α → List α
  | 0, _, order => order
  | n + 1, t, order =>
    if t ∈ order then order
    else (children t).foldl (fun acc c => visitFuel children n c acc) order ++ [t]

/-- An acyclic graph in which finitely many vertices have children. -/
structure FinDag (α : Type) where
  children : α → List α
  inner : Finset α
  mem_inner : ∀ {a b}, b ∈ children a → a ∈ inner
  acyclic : Acyclic children

variable {α : Type} {t x : α} {order ts : List α} {G : FinDag α}

namespace FinDag

noncomputable def depth {α : Type} (G : FinDag α) (a : α) : Nat :=
  lib.depth G.children G.inner a

theorem depth_lt (G : FinDag α) {a b : α} (hb : b ∈ G.children a) : G.depth b < G.depth a :=
  depth_lt_of_mem G.acyclic (G.mem_inner hb) hb

noncomputable def visit {α : Type} [DecidableEq α] (G : FinDag α) (t : α) (order : List α) : List α :=
  visitFuel G.children (G.depth t + 1) t order

noncomputable def visitAll {α : Type} [DecidableEq α] (G : FinDag α) (ts order : List α) : List α :=
  ts.foldl (fun acc t => G.visit t acc) order

theorem foldl_congr_mem {β : Type} {f g : β → α → β} {l : List α} (b : β)
    (hfg : ∀ x ∈ l, ∀ acc, f acc x = g acc x) : l.foldl f b = l.foldl g b := by
  induction l generalizing b with
  | nil => rfl
  | cons x rest ih =>
    rw [foldl_cons, foldl_cons, hfg x (by simp)]
    exact ih _ (fun y hy => hfg y (by simp [hy]))

section

variable (G : FinDag α)

/-- Fuel beyond the depth of the root changes nothing. -/
theorem visitFuel_eq [DecidableEq α] {n : Nat} (hfuel : G.depth t < n) (order : List α) :
    visitFuel G.children n t order = G.visit t order := by
  have hagree : ∀ n m t order, G.depth t < n → G.depth t < m →
      visitFuel G.children n t order = visitFuel G.children m t order := by
    intro n
    induction n with
    | zero => intro m t order hn; omega
    | succ n ih =>
      intro m t order hn hm
      cases m with
      | zero => omega
      | succ m =>
        simp only [visitFuel]
        split
        · rfl
        · congr 1
          apply foldl_congr_mem
          intro c hc acc
          have hdepth := G.depth_lt hc
          exact ih m c acc (by omega) (by omega)
  exact hagree n (G.depth t + 1) t order hfuel (by omega)

theorem visit_eq [DecidableEq α] (t : α) (order : List α) : G.visit t order =
      if t ∈ order then order else G.visitAll (G.children t) order ++ [t] := by
  simp only [visit, visitFuel]
  split
  · rfl
  · congr 1
    apply foldl_congr_mem
    intro c hc acc
    exact G.visitFuel_eq (G.depth_lt hc) acc

theorem visit_of_mem [DecidableEq α] (ht : t ∈ order) : G.visit t order = order := by
  rw [visit_eq, if_pos ht]

@[simp] theorem visitAll_nil [DecidableEq α] (order : List α) : G.visitAll [] order = order :=
  rfl

@[simp] theorem visitAll_cons [DecidableEq α] (t : α) (ts order : List α) :
    G.visitAll (t :: ts) order = G.visitAll ts (G.visit t order) :=
  rfl

/-- What every visit of a listed vertex preserves, visiting the list preserves. -/
theorem visitAll_induction [DecidableEq α] {P : List α → Prop} (horder : P order)
    (hvisit : ∀ t ∈ ts, ∀ acc, P acc → P (G.visit t acc)) : P (G.visitAll ts order) :=
  foldlRecOn ts _ horder (fun acc hacc t ht => hvisit t ht acc hacc)

theorem prefix_visit [DecidableEq α] (t : α) (order : List α) : order <+: G.visit t order := by
  induction t using G.acyclic.induction generalizing order with
  | _ t ih =>
    rw [visit_eq]
    split
    · exact prefix_rfl
    · have hchildren : order <+: G.visitAll (G.children t) order :=
        G.visitAll_induction (P := fun acc => order <+: acc) prefix_rfl
          (fun c hc acc hacc => hacc.trans (ih c hc acc))
      exact hchildren.trans (prefix_append _ _)

theorem prefix_visitAll [DecidableEq α] (ts order : List α) : order <+: G.visitAll ts order :=
  G.visitAll_induction (P := fun acc => order <+: acc) prefix_rfl
    (fun t _ acc hacc => hacc.trans (G.prefix_visit t acc))

theorem mem_visit_self [DecidableEq α] (t : α) (order : List α) : t ∈ G.visit t order := by
  rw [visit_eq]
  split
  · assumption
  · simp

end

/-- A list of vertices that holds the children of each of its members. -/
def Closed {α : Type} (G : FinDag α) (order : List α) : Prop :=
  ∀ x ∈ order, ∀ c ∈ G.children x, c ∈ order

theorem Closed.nil (G : FinDag α) : G.Closed [] := by
  intro x hx
  cases hx

theorem Closed.mem_of_reach (hclosed : G.Closed order) {y : α} (hx : x ∈ order) (hxy : Reach G.children x y) :
    y ∈ order :=
  mem_of_closed (s := fun z => z ∈ order) hclosed hx hxy

theorem closed_concat (hclosed : G.Closed order) (hchildren : ∀ c ∈ G.children t, c ∈ order) :
    G.Closed (order ++ [t]) := by
  intro x hx c hc
  rcases mem_append.mp hx with hx | hx
  · exact mem_append_left _ (hclosed x hx c hc)
  · rw [mem_singleton.mp hx] at hc
    exact mem_append_left _ (hchildren c hc)

section

variable (G : FinDag α)

theorem mem_visitAll_of_mem [DecidableEq α] (ht : t ∈ ts) : t ∈ G.visitAll ts order := by
  induction ts generalizing order with
  | nil => cases ht
  | cons u us ih =>
    rcases mem_cons.mp ht with rfl | ht
    · exact (G.prefix_visitAll us _).subset (G.mem_visit_self t order)
    · exact ih ht

theorem closed_visit [DecidableEq α] (t : α) (hclosed : G.Closed order) : G.Closed (G.visit t order) := by
  induction t using G.acyclic.induction generalizing order with
  | _ t ih =>
    rw [visit_eq]
    split
    · exact hclosed
    · apply closed_concat
      · exact G.visitAll_induction hclosed (fun c hc acc hacc => ih c hc hacc)
      · exact fun c hc => G.mem_visitAll_of_mem hc

theorem mem_or_reach_of_mem_visit [DecidableEq α] (hx : x ∈ G.visit t order) : x ∈ order ∨ Reach G.children t x := by
  induction t using G.acyclic.induction generalizing order with
  | _ t ih =>
    rw [visit_eq] at hx
    split at hx
    · exact .inl hx
    · rcases mem_append.mp hx with hx | hx
      · refine G.visitAll_induction (P := fun acc => x ∈ acc → x ∈ order ∨ Reach G.children t x) .inl ?_ hx
        intro c hc acc hacc hxc
        rcases ih c hc hxc with hxacc | hreach
        · exact hacc hxacc
        · exact .inr (head hc hreach)
      · rw [mem_singleton.mp hx]
        exact .inr (refl t)

/-- A visit adds exactly what its root reaches. -/
theorem mem_visit_iff [DecidableEq α] (hclosed : G.Closed order) :
    x ∈ G.visit t order ↔ x ∈ order ∨ Reach G.children t x := by
  constructor
  · exact G.mem_or_reach_of_mem_visit
  · rintro (hx | hreach)
    · exact (G.prefix_visit t order).subset hx
    · exact (G.closed_visit t hclosed).mem_of_reach (G.mem_visit_self t order) hreach

theorem mem_visitAll_iff [DecidableEq α] (hclosed : G.Closed order) :
    x ∈ G.visitAll ts order ↔ x ∈ order ∨ ∃ t ∈ ts, Reach G.children t x := by
  induction ts generalizing order with
  | nil => simp
  | cons t ts ih =>
    rw [visitAll_cons, ih (G.closed_visit t hclosed), G.mem_visit_iff hclosed]
    simp [or_assoc]

theorem nodup_visit [DecidableEq α] (t : α) (hnodup : order.Nodup) : (G.visit t order).Nodup := by
  induction t using G.acyclic.induction generalizing order with
  | _ t ih =>
    rw [visit_eq]
    split
    · exact hnodup
    · rename_i ht
      have hchildren : (G.visitAll (G.children t) order).Nodup ∧ t ∉ G.visitAll (G.children t) order := by
        refine G.visitAll_induction (P := fun acc => acc.Nodup ∧ t ∉ acc) ⟨hnodup, ht⟩ ?_
        intro c hc acc ⟨hacc, htacc⟩
        refine ⟨ih c hc hacc, fun hmem => ?_⟩
        rcases G.mem_or_reach_of_mem_visit hmem with hmem | hreach
        · exact htacc hmem
        · exact G.acyclic.not_reach_of_mem hc hreach
      exact nodup_append.mpr ⟨hchildren.1, by simp, fun x hx y hy => by
        rw [mem_singleton.mp hy]
        exact fun heq => hchildren.2 (heq ▸ hx)⟩

theorem nodup_visitAll [DecidableEq α] (ts : List α) (hnodup : order.Nodup) : (G.visitAll ts order).Nodup :=
  G.visitAll_induction hnodup (fun t _ _ hacc => G.nodup_visit t hacc)

/-- No vertex comes after one that it is a child of. -/
theorem pairwise_visit [DecidableEq α] (t : α) (hclosed : G.Closed order)
    (hpairwise : order.Pairwise (fun a b => b ∉ G.children a)) :
    (G.visit t order).Pairwise (fun a b => b ∉ G.children a) := by
  induction t using G.acyclic.induction generalizing order with
  | _ t ih =>
    rw [visit_eq]
    split
    · exact hpairwise
    · rename_i hnot
      have hbelow : G.Closed (G.visitAll (G.children t) order) ∧
          (G.visitAll (G.children t) order).Pairwise (fun a b => b ∉ G.children a) :=
        G.visitAll_induction (P := fun acc => G.Closed acc ∧ acc.Pairwise (fun a b => b ∉ G.children a))
          ⟨hclosed, hpairwise⟩ fun c hc _ hacc => ⟨G.closed_visit c hacc.1, ih c hc hacc.1 hacc.2⟩
      refine pairwise_append.mpr ⟨hbelow.2, pairwise_singleton _ _, fun a ha b hb => ?_⟩
      rw [mem_singleton.mp hb]
      intro hchild
      rcases (G.mem_visitAll_iff hclosed).mp (hbelow.1 a ha t hchild) with hin | ⟨c, hc, hreach⟩
      · exact hnot hin
      · exact G.acyclic.not_reach_of_mem hc hreach

theorem pairwise_visitAll [DecidableEq α] (ts : List α) : (G.visitAll ts []).Pairwise (fun a b => b ∉ G.children a) :=
  (G.visitAll_induction (P := fun order => G.Closed order ∧ order.Pairwise (fun a b => b ∉ G.children a))
    ⟨Closed.nil G, List.Pairwise.nil⟩ fun t _ _ hacc => ⟨G.closed_visit t hacc.1, G.pairwise_visit t hacc.1 hacc.2⟩).2

theorem visitAll_of_subset [DecidableEq α] (hsub : ∀ t ∈ ts, t ∈ order) : G.visitAll ts order = order := by
  induction ts with
  | nil => rfl
  | cons t ts ih =>
    rw [visitAll_cons, G.visit_of_mem (hsub t (by simp))]
    exact ih (fun u hu => hsub u (by simp [hu]))

end

/-- `t` lies on the path that follows the first child from `u` on. -/
def Leads {α : Type} (G : FinDag α) : α → α → Prop :=
  Relation.ReflTransGen (fun a b => (G.children a).head? = some b)

theorem Leads.reach {u : α} (hlead : G.Leads u t) : Reach G.children u t := by
  induction hlead with
  | refl => exact refl u
  | tail _ hhead ih => exact ih.trans (single (mem_of_mem_head? hhead))

/-- Visiting first what a root would emit first anyway changes nothing. -/
theorem visit_visit_of_leads [DecidableEq α] (G : FinDag α) {u : α} (hlead : G.Leads u t) (hclosed : G.Closed order) :
    G.visit u (G.visit t order) = G.visit u order := by
  induction hlead using Relation.ReflTransGen.head_induction_on with
  | refl => exact G.visit_of_mem (G.mem_visit_self t order)
  | @head u c hhead hlead ih =>
    have hchild : c ∈ G.children u := mem_of_mem_head? hhead
    have hreach : Reach G.children c t := Leads.reach hlead
    by_cases hu : u ∈ order
    · have ht : t ∈ order := hclosed.mem_of_reach hu (head hchild hreach)
      rw [G.visit_of_mem ht]
    · have hu' : u ∉ G.visit t order := by
        intro hmem
        rcases G.mem_or_reach_of_mem_visit hmem with hmem | hback
        · exact hu hmem
        · exact G.acyclic.not_reach_of_mem hchild (hreach.trans hback)
      obtain ⟨rest, hrest⟩ : ∃ rest, G.children u = c :: rest :=
        head?_eq_some_iff.mp hhead
      rw [G.visit_eq u (G.visit t order), G.visit_eq u order, if_neg hu, if_neg hu', hrest, visitAll_cons,
        visitAll_cons, ih]

/-- Two graphs that agree on a set closed under children give the same order to
roots taken from it. -/
theorem visitAll_congr_on [DecidableEq α] {H : FinDag α} (s : Set α) (hclosed : ∀ x ∈ s, ∀ c ∈ G.children x, c ∈ s)
    (hagree : ∀ x ∈ s, G.children x = H.children x) (hts : ∀ t ∈ ts, t ∈ s) (order : List α) :
    G.visitAll ts order = H.visitAll ts order := by
  have hvisit : ∀ t ∈ s, ∀ order, G.visit t order = H.visit t order := by
    intro t
    induction t using G.acyclic.induction with
    | _ t ih =>
      intro ht order
      have hbelow : G.visitAll (G.children t) order = H.visitAll (G.children t) order :=
        foldl_congr_mem order (fun c hc acc => ih c hc (hclosed t ht c hc) acc)
      rw [G.visit_eq, H.visit_eq, ← hagree t ht, hbelow]
  exact foldl_congr_mem order (fun t ht acc => hvisit t (hts t ht) acc)

/-- A repeated root right after itself changes nothing. -/
theorem visitAll_dedup_of_pairwise [DecidableEq α] (G : FinDag α) {le : α → α → Prop} (hsorted : ts.Pairwise le)
    (hantisymm : ∀ a ∈ ts, ∀ b ∈ ts, le a b → le b a → a = b) (order : List α) :
    G.visitAll ts order = G.visitAll ts.dedup order := by
  induction ts generalizing order with
  | nil => rfl
  | cons t rest ih =>
    obtain ⟨hle, hsorted⟩ := pairwise_cons.mp hsorted
    have ih := ih hsorted (fun a ha b hb => hantisymm a (by simp [ha]) b (by simp [hb]))
    by_cases hmem : t ∈ rest
    · rw [dedup_cons_of_mem hmem, ← ih]
      cases rest with
      | nil => cases hmem
      | cons u rest =>
        have hut : u = t := by
          rcases mem_cons.mp hmem with heq | hmem'
          · exact heq.symm
          · have hule := rel_of_pairwise_cons hsorted hmem'
            exact hantisymm u (by simp) t (by simp) hule (hle u (by simp))
        subst hut
        rw [visitAll_cons, visitAll_cons, visitAll_cons, G.visit_of_mem (G.mem_visit_self u order)]
    · rw [dedup_cons_of_notMem hmem, visitAll_cons, visitAll_cons, ih]

/-- Roots that the other roots cover can be left out: those below an earlier root,
and those that the next root would emit first. -/
theorem visitAll_filter_of_covered [DecidableEq α] (G : FinDag α) (keep : α → Bool) {roots : List α}
    (hnodup : roots.Nodup) (hclosed : G.Closed order)
    (hcovered : ∀ before t after, roots = before ++ t :: after → keep t = false →
      t ∈ order ∨ (∃ u ∈ before, Reach G.children u t) ∨ ∃ u rest, after = u :: rest ∧ G.Leads u t) :
    G.visitAll roots order = G.visitAll (roots.filter keep) order := by
  induction roots generalizing order with
  | nil => rfl
  | cons t rest ih =>
    obtain ⟨htrest, hnodup⟩ := nodup_cons.mp hnodup
    by_cases hkeep : keep t = true
    · rw [filter_cons_of_pos hkeep, visitAll_cons, visitAll_cons]
      apply ih hnodup (G.closed_visit t hclosed)
      intro before x after hsplit hx
      rcases hcovered (t :: before) x after (by rw [hsplit, cons_append]) hx with
        hmem | ⟨u, hu, hreach⟩ | hnext
      · exact .inl ((G.prefix_visit t order).subset hmem)
      · rcases mem_cons.mp hu with rfl | hu
        · exact .inl ((G.mem_visit_iff hclosed).mpr (.inr hreach))
        · exact .inr (.inl ⟨u, hu, hreach⟩)
      · exact .inr (.inr hnext)
    · have hdrop : keep t = false := by simpa using hkeep
      rw [filter_cons_of_neg hkeep]
      rcases hcovered [] t rest rfl hdrop with hmem | ⟨u, hu, -⟩ | ⟨u, after, hafter, hlead⟩
      · rw [visitAll_cons, G.visit_of_mem hmem]
        apply ih hnodup hclosed
        intro before x after hsplit hx
        rcases hcovered (t :: before) x after (by rw [hsplit, cons_append]) hx with
          hmem' | ⟨u, hu, hreach⟩ | hnext
        · exact .inl hmem'
        · rcases mem_cons.mp hu with rfl | hu
          · exact .inl (hclosed.mem_of_reach hmem hreach)
          · exact .inr (.inl ⟨u, hu, hreach⟩)
        · exact .inr (.inr hnext)
      · cases hu
      · subst hafter
        have hskip : G.visitAll (t :: u :: after) order = G.visitAll (u :: after) order := by
          rw [visitAll_cons, visitAll_cons, visitAll_cons, G.visit_visit_of_leads hlead hclosed]
        rw [hskip]
        apply ih hnodup hclosed
        intro before x after' hsplit hx
        rcases hcovered (t :: before) x after' (by rw [hsplit, cons_append]) hx with
          hmem' | ⟨v, hv, hreach⟩ | hnext
        · exact .inl hmem'
        · rcases mem_cons.mp hv with rfl | hv
          · -- `u` covers what `v` covered, and `v` cannot cover `u` itself.
            cases before with
            | nil =>
              have hxu : u = x := by simpa using (cons.inj hsplit).1
              subst hxu
              exact absurd (G.acyclic.antisymm hlead.reach hreach) (fun heq => htrest (by simp [← heq]))
            | cons w before =>
              have hwu : u = w := (cons.inj hsplit).1
              subst hwu
              exact .inr (.inl ⟨u, by simp, hlead.reach.trans hreach⟩)
          · exact .inr (.inl ⟨v, hv, hreach⟩)
        · exact .inr (.inr hnext)

end FinDag

end swytch.lib
