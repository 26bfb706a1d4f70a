import Swytch.Lib.ChainClock

namespace swytch.lib

open Finmap

variable {α : Type} {deps : α → List α} {c c' : ChainIndex α} {inner : Finset α} {tips : List α}

namespace ChainIndex

theorem Exact.of_node_eq [DecidableEq α] (hexact : Exact deps c)
    (hnode : ∀ u, c'.node u = c.node u) (hheads : c'.heads = c.heads) : Exact deps c' := by
  refine ⟨?_, ?_, ?_, ?_, ?_⟩ <;> simp only [hnode, hheads]
  · exact hexact.closed
  · exact hexact.seq_pos
  · exact hexact.seq_le
  · exact hexact.clock_le
  · exact hexact.reach_iff

/-- A search keeps what the index holds and leaves no vertex of its own on the stack. -/
structure Extends {α : Type} [DecidableEq α] (c c' : ChainIndex α) : Prop where
  keep : ∀ {u e}, c.nodes.lookup u = some e → c'.nodes.lookup u = some e
  stack : ∀ {u}, c'.nodes.lookup u = some none → c.nodes.lookup u = some none

theorem Extends.trans [DecidableEq α] {c₁ c₂ c₃ : ChainIndex α} (h₁₂ : Extends c₁ c₂) (h₂₃ : Extends c₂ c₃) :
    Extends c₁ c₃ :=
  ⟨fun hu => h₂₃.keep (h₁₂.keep hu), fun hu => h₁₂.stack (h₂₃.stack hu)⟩

theorem Extends.node_isSome [DecidableEq α] (h : Extends c c') {u : α} (hu : (c.node u).isSome) :
    (c'.node u).isSome := by
  obtain ⟨nu, hnu⟩ := Option.isSome_iff_exists.mp hu
  have hkeep := h.keep (Option.join_eq_some_iff.mp hnu)
  simp [node, hkeep]

theorem visit_of_cyclic [DecidableEq α] (deps : α → List α) (n : Nat) (v : α) (hcyclic : c.cyclic = true) :
    (visit deps n c v).cyclic = true := by
  cases n with
  | zero => rfl
  | succ n => simp [visit, hcyclic]

theorem foldl_visit_of_cyclic [DecidableEq α] (deps : α → List α) (n : Nat) (vs : List α)
    (hcyclic : c.cyclic = true) : (vs.foldl (visit deps n) c).cyclic = true := by
  induction vs generalizing c with
  | nil => exact hcyclic
  | cons v vs ih => exact ih (visit_of_cyclic deps n v hcyclic)

theorem cyclic_of_add [DecidableEq α] (h : (add deps inner c tips).cyclic = false) :
    c.cyclic = false := by
  by_contra hnot
  have hstuck := foldl_visit_of_cyclic deps (inner.card + 1) tips (Bool.not_eq_false _ ▸ hnot)
  rw [add, hstuck] at h
  exact Bool.noConfusion h

/-- The effect of a search that met no cycle. -/
private structure Searched {α : Type} [DecidableEq α] (deps : α → List α) (c c' : ChainIndex α) (vs : List α) :
    Prop where
  exact : Exact deps c'
  ext : Extends c c'
  done : ∀ v ∈ vs, (c'.node v).isSome

theorem searched_foldl [DecidableEq α] {n : Nat}
    (hvisit : ∀ (c : ChainIndex α) (v : α), Exact deps c → (visit deps n c v).cyclic = false →
      Searched deps c (visit deps n c v) [v]) (vs : List α) (hexact : Exact deps c)
    (hcyclic : (vs.foldl (visit deps n) c).cyclic = false) : Searched deps c (vs.foldl (visit deps n) c) vs := by
  induction vs generalizing c with
  | nil => exact ⟨hexact, ⟨id, id⟩, by simp⟩
  | cons v vs ih =>
    have hfirst : (visit deps n c v).cyclic = false := by
      by_contra hnot
      have hstuck := foldl_visit_of_cyclic deps n vs (Bool.not_eq_false _ ▸ hnot)
      rw [List.foldl_cons, hstuck] at hcyclic
      exact Bool.noConfusion hcyclic
    have hv := hvisit c v hexact hfirst
    have hvs := ih hv.exact hcyclic
    refine ⟨hvs.exact, hv.ext.trans hvs.ext, ?_⟩
    intro u hu
    rcases List.mem_cons.mp hu with heq | hu
    · exact hvs.ext.node_isSome (hv.done u (by simp [heq]))
    · exact hvs.done u hu

theorem lookup_push [DecidableEq α] (c : ChainIndex α) (v u : α) :
    (c.push v).nodes.lookup u = if u = v then some none else c.nodes.lookup u := by
  by_cases hu : u = v
  · subst hu
    simp [push, lookup_insert]
  · simp [push, hu, lookup_insert_of_ne]

theorem lookup_finish [DecidableEq α] (deps : α → List α) (c : ChainIndex α) (v u : α) :
    (finish deps c v).nodes.lookup u = if u = v then some (some (c.place (deps v))) else c.nodes.lookup u := by
  by_cases hu : u = v
  · subst hu
    simp [finish, lookup_insert]
  · simp [finish, hu, lookup_insert_of_ne]

theorem exact_push [DecidableEq α] {v : α} (hexact : Exact deps c) (hv : c.nodes.lookup v = none) :
    Exact deps (c.push v) := by
  refine hexact.of_node_eq (fun u => ?_) rfl
  rw [node, node, lookup_push]
  by_cases hu : u = v
  · rw [if_pos hu, hu, hv]
    rfl
  · rw [if_neg hu]

theorem extends_finish [DecidableEq α] {below : ChainIndex α} {v : α} (hv : c.nodes.lookup v = none)
    (hbelow : Extends (c.push v) below) : Extends c (finish deps below v) := by
  constructor
  · intro u e hu
    have hne : u ≠ v := by
      rintro rfl
      rw [hv] at hu
      cases hu
    rw [lookup_finish, if_neg hne]
    exact hbelow.keep (by rw [lookup_push, if_neg hne, hu])
  · intro u hu
    rw [lookup_finish] at hu
    split at hu
    · cases hu
    · rename_i hne
      have hpush := hbelow.stack hu
      rwa [lookup_push, if_neg hne] at hpush

theorem searched_visit [DecidableEq α] (n : Nat) :
    ∀ (c : ChainIndex α) (v : α), Exact deps c → (visit deps n c v).cyclic = false →
      Searched deps c (visit deps n c v) [v] := by
  induction n with
  | zero =>
    intro c v _ hcyclic
    cases hcyclic
  | succ n ih =>
    intro c v hexact hcyclic
    unfold visit at hcyclic ⊢
    split
    · rename_i hc
      simp [hc] at hcyclic
    · rename_i hc
      rw [if_neg hc] at hcyclic
      cases hv : c.nodes.lookup v with
      | none =>
        simp only [hv] at hcyclic ⊢
        split
        · rename_i hbelow
          simp [hbelow] at hcyclic
        · rename_i hbelow
          have hpush := searched_foldl ih (deps v) (exact_push hexact hv) (Bool.not_eq_true _ ▸ hbelow)
          have hstack := hpush.ext.keep (u := v) (by rw [lookup_push, if_pos rfl])
          refine ⟨hpush.exact.finish hpush.done (by simp [node, hstack]), extends_finish hv hpush.ext, ?_⟩
          simp [node_finish]
      | some e =>
        cases e with
        | none => simp [hv] at hcyclic
        | some nv => exact ⟨hexact, ⟨id, id⟩, by simp [node, hv]⟩

/-- Unless a cycle turns up, adding vertices gives an index that knows them all
and answers reachability exactly. -/
theorem exact_add [DecidableEq α] (hexact : Exact deps c)
    (hcyclic : (add deps inner c tips).cyclic = false) :
    Exact deps (add deps inner c tips) ∧ Extends c (add deps inner c tips) ∧
      ∀ t ∈ tips, ((add deps inner c tips).node t).isSome := by
  have hsearch := searched_foldl (searched_visit _) tips hexact hcyclic
  exact ⟨hsearch.exact, hsearch.ext, hsearch.done⟩

end ChainIndex

end swytch.lib
