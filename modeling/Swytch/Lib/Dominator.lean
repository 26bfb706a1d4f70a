import Swytch.Lib.PostOrder

namespace swytch.lib

open List

variable {α : Type} {leaf : α → Bool} {order order' cut : List α} {t S : α} {G H : FinDag α} {vertices : Set α}

namespace FinDag

/-- The vertices of an order that are not leaves set aside by `leaf`. -/
def body {α : Type} (leaf : α → Bool) (order : List α) : List α :=
  order.filter (fun t => !leaf t)

theorem mem_body (ht : leaf t = false) : t ∈ body leaf order ↔ t ∈ order := by
  simp [body, ht]

/-- Leaves set aside have no children. -/
def Leaves {α : Type} (G : FinDag α) (leaf : α → Bool) : Prop :=
  ∀ t, leaf t = true → G.children t = []

/-- `H` is `G` cut off below `S`. All paths of `H` from its vertices, leaves aside,
end in `S`, and `G` has nothing of `H` below `S` but leaves. -/
structure CutAt {α : Type} (G H : FinDag α) (vertices : Set α) (leaf : α → Bool) (S : α) : Prop where
  not_leaf : leaf S = false
  leaves : G.Leaves leaf
  end_children : H.children S = []
  children_eq : ∀ t ∈ vertices, t ≠ S → leaf t = false → H.children t = G.children t
  children_ne : ∀ t ∈ vertices, t ≠ S → leaf t = false → G.children t ≠ []
  children_mem : ∀ t ∈ vertices, t ≠ S → leaf t = false →
    ∀ c ∈ G.children t, c ∈ vertices ∧ leaf c = false
  below : ∀ t ∈ vertices, t ≠ S → Reach G.children S t → leaf t = true

/-- How far the two orders have come: before `S` neither holds anything but
leaves; from `S` on, `G` is ahead by what lies below `S`. -/
inductive Synced {α : Type} (leaf : α → Bool) (S : α) (below order cut : List α) : Prop
  | before (horder : body leaf order = []) (hcut : body leaf cut = [])
  | after (rest : List α) (horder : body leaf order = below ++ S :: rest) (hcut : body leaf cut = S :: rest)

theorem CutAt.mem_iff [DecidableEq α] (hcut : CutAt G H vertices leaf S)
    (hsync : Synced leaf S (body leaf (G.visitAll (G.children S) [])) order cut) (ht : t ∈ vertices)
    (hleaf : leaf t = false) : t ∈ order ↔ t ∈ cut := by
  have hbody : t ∈ body leaf order ↔ t ∈ order := mem_body hleaf
  have hbody' : t ∈ body leaf cut ↔ t ∈ cut := mem_body hleaf
  rw [← hbody, ← hbody']
  cases hsync with
  | before horder hcut' => rw [horder, hcut']
  | after rest horder hcut' =>
    have hnotBelow : t ∉ body leaf (G.visitAll (G.children S) []) := by
      intro hmem
      rw [mem_body hleaf, G.mem_visitAll_iff (Closed.nil G)] at hmem
      obtain ⟨c, hc, hreach⟩ : ∃ c ∈ G.children S, Reach G.children c t := by simpa using hmem
      have hne : t ≠ S := fun heq => G.acyclic.not_reach_of_mem hc (heq ▸ hreach)
      have := hcut.below t ht hne (Reach.head hc hreach)
      simp [this] at hleaf
    rw [horder, hcut', mem_append]
    exact ⟨fun h => h.resolve_left hnotBelow, .inr⟩

end FinDag

end swytch.lib
