import Swytch.Lib.Reach
import Mathlib.Data.Finset.Union
import Mathlib.Data.List.DropRight

namespace swytch.lib

open Finset hiding mem_singleton

open List Nat Reach

/-- Where a walk adds new vertices to its pending ones, of which it takes the first. -/
inductive Discipline where
  | lifo
  | fifo

def Discipline.push {α : Type} : Discipline → List α → List α → List α
  | .lifo, new, pending => new.reverse ++ pending
  | .fifo, new, pending => pending ++ new

variable {α σ ε : Type} {pending visited : List α} {x t : α} {U : Finset α} {d : Discipline} {succ : α → List α}
  {n : Nat} {visit : σ → α → Except ε (σ × List α)} {update : σ → α → σ} {p : α → Bool}

theorem Discipline.mem_push (d : Discipline) {new : List α} : x ∈ d.push new pending ↔ x ∈ new ∨ x ∈ pending := by
  cases d <;> simp [push, or_comm]

/-- A walk with explicit pending vertices: take one, skip it if it was visited before,
add its successors. The first argument bounds the number of vertices visited. -/
def walk {α : Type} [DecidableEq α] (d : Discipline) (succ : α → List α) : Nat → List α → List α → List α
  | 0, _, visited => visited
  | n + 1, pending, visited =>
    match pending.dropWhile (· ∈ visited) with
    | [] => visited
    | t :: rest => walk d succ n (d.push (succ t) rest) (visited ++ [t])

/-- What a walk from `start` can visit, where `inner` holds every vertex that has
successors. -/
def walkBound {α : Type} [DecidableEq α] (succ : α → List α) (inner : Finset α) (start : List α) : Finset α :=
  start.toFinset ∪ inner.biUnion (fun t => (succ t).toFinset)

/-- The walk that starts with `start` pushed in order, on top of earlier visits. -/
def walkFrom {α : Type} [DecidableEq α] (d : Discipline) (succ : α → List α) (inner : Finset α)
    (start visited : List α) : List α :=
  walk d succ (walkBound succ inner start).card (d.push start []) visited

theorem mem_dropWhile_or {l : List α} (hx : x ∈ l) : p x = true ∨ x ∈ l.dropWhile p := by
  rw [← takeWhile_append_dropWhile (p := p) (l := l)] at hx
  rcases mem_append.mp hx with htake | hdrop
  · exact .inl (mem_takeWhile_imp htake)
  · exact .inr hdrop

theorem not_of_dropWhile_eq_cons {l rest : List α} (h : l.dropWhile p = t :: rest) : p t = false := by
  have hne : l.dropWhile p ≠ [] := by simp [h]
  have hhead := head_dropWhile_not p hne
  simpa [h] using hhead

theorem not_mem_of_dropWhile_eq_cons [DecidableEq α] {rest : List α}
    (h : pending.dropWhile (· ∈ visited) = t :: rest) : t ∉ visited := by
  simpa using not_of_dropWhile_eq_cons h

/-- A vertex of a finite set that is visited leaves fewer that are not. -/
theorem card_filter_not_mem_lt [DecidableEq α] (ht : t ∈ U) (hnew : t ∉ visited) :
    (U.filter (· ∉ visited ++ [t])).card < (U.filter (· ∉ visited)).card := by
  apply Finset.card_lt_card
  refine Finset.ssubset_iff_of_subset ?_ |>.mpr ⟨t, ?_, ?_⟩
  · intro x hx
    simp only [Finset.mem_filter, mem_append, not_or] at hx ⊢
    exact ⟨hx.1, hx.2.1⟩
  · exact Finset.mem_filter.mpr ⟨ht, hnew⟩
  · simp

theorem prefix_walk [DecidableEq α] (d : Discipline) (succ : α → List α) (n : Nat) (pending visited : List α) :
    visited <+: walk d succ n pending visited := by
  induction n generalizing pending visited with
  | zero => exact prefix_refl visited
  | succ n ih =>
    unfold walk
    split
    · exact prefix_refl visited
    · exact (prefix_append visited _).trans (ih _ _)

theorem nodup_walk [DecidableEq α] (d : Discipline) (succ : α → List α) (n : Nat) (hnodup : visited.Nodup) :
    (walk d succ n pending visited).Nodup := by
  induction n generalizing pending visited with
  | zero => exact hnodup
  | succ n ih =>
    unfold walk
    split
    · exact hnodup
    · rename_i t rest hdrop
      have ht := not_mem_of_dropWhile_eq_cons hdrop
      exact ih (nodup_append'.mpr ⟨hnodup, nodup_singleton t, by simpa using ht⟩)

/-- Everything visited was there before or is reached from the pending. -/
theorem reach_of_mem_walk [DecidableEq α] (hx : x ∈ walk d succ n pending visited) :
    x ∈ visited ∨ ∃ s ∈ pending, Reach succ s x := by
  induction n generalizing pending visited with
  | zero => exact .inl hx
  | succ n ih =>
    unfold walk at hx
    split at hx
    · exact .inl hx
    · rename_i t rest hdrop
      have hsub : ∀ s ∈ t :: rest, s ∈ pending := by
        intro s hs
        exact (dropWhile_sublist _).subset (hdrop ▸ hs)
      rcases ih hx with hvis | ⟨s, hs, hsx⟩
      · rcases mem_append.mp hvis with hold | hnew
        · exact .inl hold
        · rw [mem_singleton.mp hnew]
          exact .inr ⟨t, hsub t mem_cons_self, refl t⟩
      · rcases d.mem_push.mp hs with hsucc | hrest
        · exact .inr ⟨t, hsub t mem_cons_self, head hsucc hsx⟩
        · exact .inr ⟨s, hsub s (mem_cons_of_mem t hrest), hsx⟩

/-- A walk with enough fuel visits its pending and the successors of all it visits. -/
theorem walk_complete [DecidableEq α] (hU : ∀ t ∈ U, ∀ y ∈ succ t, y ∈ U) (hpending : ∀ t ∈ pending, t ∈ U)
    (hclosed : ∀ x ∈ visited, ∀ y ∈ succ x, y ∈ visited ∨ y ∈ pending) (hfuel : (U.filter (· ∉ visited)).card ≤ n) :
    (∀ t ∈ pending, t ∈ walk d succ n pending visited) ∧
      ∀ x ∈ walk d succ n pending visited, ∀ y ∈ succ x, y ∈ walk d succ n pending visited := by
  induction n generalizing pending visited with
  | zero =>
    have hall : ∀ t ∈ U, t ∈ visited := by
      intro t ht
      have hempty := card_eq_zero.mp (le_zero.mp hfuel)
      by_contra hnot
      exact notMem_empty t (hempty ▸ mem_filter.mpr ⟨ht, hnot⟩)
    refine ⟨fun t ht => hall t (hpending t ht), fun x hx y hy => ?_⟩
    rcases hclosed x hx y hy with hvis | hst
    · exact hvis
    · exact hall y (hpending y hst)
  | succ n ih =>
    have hseen : ∀ t ∈ pending, t ∈ visited ∨ t ∈ pending.dropWhile (· ∈ visited) := by
      intro t ht
      simpa using mem_dropWhile_or (p := fun t => decide (t ∈ visited)) ht
    unfold walk
    split
    · rename_i hdrop
      simp only [hdrop, not_mem_nil, or_false] at hseen
      exact ⟨hseen, fun x hx y hy => (hclosed x hx y hy).elim id (hseen y)⟩
    · rename_i t rest hdrop
      rw [hdrop] at hseen
      have ht := not_mem_of_dropWhile_eq_cons hdrop
      have hsub : ∀ s ∈ t :: rest, s ∈ U := by
        intro s hs
        exact hpending s ((dropWhile_sublist _).subset (hdrop ▸ hs))
      have htU := hsub t mem_cons_self
      have hless := card_filter_not_mem_lt htU ht
      obtain ⟨hin, hcl⟩ := @ih (d.push (succ t) rest) (visited ++ [t]) (by
          intro s hs
          rcases d.mem_push.mp hs with hsucc | hrest
          · exact hU t htU s hsucc
          · exact hsub s (mem_cons_of_mem t hrest)) (by
          intro x hx y hy
          rcases mem_append.mp hx with hold | hnew
          · rcases hclosed x hold y hy with hvis | hst
            · exact .inl (mem_append_left _ hvis)
            · rcases hseen y hst with hvis | hcons
              · exact .inl (mem_append_left _ hvis)
              · rcases mem_cons.mp hcons with heq | hrest
                · exact .inl (by simp [heq])
                · exact .inr (d.mem_push.mpr (.inr hrest))
          · rw [mem_singleton.mp hnew] at hy
            exact .inr (d.mem_push.mpr (.inl hy))) (by omega)
      have hvis := (prefix_walk d succ n (d.push (succ t) rest) (visited ++ [t])).subset
      refine ⟨fun s hs => ?_, hcl⟩
      rcases hseen s hs with hold | hcons
      · exact hvis (mem_append_left _ hold)
      · rcases mem_cons.mp hcons with heq | hrest
        · exact hvis (by simp [heq])
        · exact hin s (d.mem_push.mpr (.inr hrest))

/-- A walk with fuel for a finite set that contains its pending and is closed under
successors adds exactly what is reached from the pending. -/
theorem mem_walk_iff [DecidableEq α] (hU : ∀ t ∈ U, ∀ y ∈ succ t, y ∈ U) (hpending : ∀ t ∈ pending, t ∈ U)
    (hclosed : ∀ x ∈ visited, ∀ y ∈ succ x, y ∈ visited) (hfuel : U.card ≤ n) :
    x ∈ walk d succ n pending visited ↔ x ∈ visited ∨ ∃ s ∈ pending, Reach succ s x := by
  obtain ⟨hin, hcl⟩ := walk_complete (d := d) hU hpending (fun x hx y hy => .inl (hclosed x hx y hy))
    ((card_filter_le U (· ∉ visited)).trans hfuel)
  constructor
  · exact reach_of_mem_walk
  · rintro (hvis | ⟨s, hs, hsx⟩)
    · exact (prefix_walk d succ _ _ _).subset hvis
    · exact mem_of_closed (s := { y | y ∈ walk d succ n pending visited }) hcl (hin s hs) hsx

/-- A walk adds exactly what is reached from its start, if what was visited before
is closed under successors. -/
theorem mem_walkFrom_iff [DecidableEq α] {inner : Finset α} (hinner : ∀ t, succ t ≠ [] → t ∈ inner) {start : List α}
    (hclosed : ∀ x ∈ visited, ∀ y ∈ succ x, y ∈ visited) :
    x ∈ walkFrom d succ inner start visited ↔ x ∈ visited ∨ ∃ s ∈ start, Reach succ s x := by
  have hU : ∀ t ∈ walkBound succ inner start, ∀ y ∈ succ t, y ∈ walkBound succ inner start := by
    intro t _ y hy
    have ht := hinner t (ne_nil_of_mem hy)
    exact mem_union_right _ (mem_biUnion.mpr ⟨t, ht, mem_toFinset.mpr hy⟩)
  have hstart : ∀ t ∈ d.push start [], t ∈ walkBound succ inner start := by
    intro t ht
    exact mem_union_left _ (mem_toFinset.mpr (by simpa [d.mem_push] using ht))
  unfold walkFrom
  rw [mem_walk_iff hU hstart hclosed (le_refl _)]
  simp [d.mem_push]

/-- A walk that carries a state and can fail. `visit` is called once for every vertex, and
gives the next state and the successors; the first number bounds the calls. -/
def walkWith {α σ ε : Type} [DecidableEq α] (d : Discipline) (visit : σ → α → Except ε (σ × List α)) :
    Nat → List α → List α → σ → Option (Except ε σ)
  | n, pending, visited, s =>
    match pending.dropWhile (· ∈ visited) with
    | [] => some (.ok s)
    | t :: rest =>
      match n with
      | 0 => none
      | n + 1 =>
        match visit s t with
        | .error e => some (.error e)
        | .ok (s, succ) => walkWith d visit n (d.push succ rest) (visited ++ [t]) s

/-- Where no call fails, the walk ends with the state updated along the order of visits. -/
theorem walkWith_eq [DecidableEq α] (hU : ∀ t ∈ U, ∀ y ∈ succ t, y ∈ U)
    (hvisit : ∀ t ∈ U, ∀ s, visit s t = .ok (update s t, succ t)) {s : σ} (hpending : ∀ t ∈ pending, t ∈ U)
    (hfuel : (U.filter (· ∉ visited)).card ≤ n) : ∃ order, walk d succ n pending visited = visited ++ order ∧
      walkWith d visit n pending visited s = some (.ok (order.foldl update s)) := by
  induction n generalizing pending visited s with
  | zero =>
    have hseen : pending.dropWhile (· ∈ visited) = [] := by
      rw [dropWhile_eq_nil_iff]
      intro t ht
      by_contra hnot
      have hmem : t ∈ U.filter (· ∉ visited) := mem_filter.mpr ⟨hpending t ht, by simpa using hnot⟩
      rw [card_eq_zero.mp (le_zero.mp hfuel)] at hmem
      exact notMem_empty t hmem
    refine ⟨[], (append_nil visited).symm, ?_⟩
    unfold walkWith
    rw [hseen]
    rfl
  | succ n ih =>
    unfold walk walkWith
    cases hnext : pending.dropWhile (· ∈ visited) with
    | nil => exact ⟨[], (append_nil visited).symm, rfl⟩
    | cons t rest =>
      have hsub : ∀ u ∈ t :: rest, u ∈ U := fun u hu =>
        hpending u ((dropWhile_sublist _).subset (hnext ▸ hu))
      have ht := hsub t mem_cons_self
      have hless := card_filter_not_mem_lt ht (not_mem_of_dropWhile_eq_cons hnext)
      have hpush : ∀ u ∈ d.push (succ t) rest, u ∈ U := by
        intro u hu
        obtain hsucc | hrest := d.mem_push.mp hu
        · exact hU t ht u hsucc
        · exact hsub u (mem_cons_of_mem t hrest)
      obtain ⟨order, hwalk, hrun⟩ := ih (s := update s t) hpush (le_of_lt_succ (lt_of_lt_of_le hless hfuel))
      refine ⟨t :: order, ?_, ?_⟩
      · dsimp only
        rw [hwalk, append_assoc, singleton_append]
      · simp only [hvisit t ht s]
        exact hrun

/-- What is reached from a list of vertices of an acyclic graph is finite. -/
theorem Acyclic.exists_finset_reach [DecidableEq α] (hacyclic : Acyclic succ) (start : List α) :
    ∃ U : Finset α, ∀ x, x ∈ U ↔ ∃ s ∈ start, Reach succ s x := by
  have hone (a : α) : ∃ U : Finset α, ∀ x, x ∈ U ↔ Reach succ a x := by
    induction a using hacyclic.induction with
    | _ a ih =>
      choose! below hbelow using ih
      refine ⟨insert a ((succ a).toFinset.biUnion below), fun x => ?_⟩
      simp only [mem_insert, mem_biUnion, mem_toFinset]
      constructor
      · rintro (rfl | ⟨b, hb, hx⟩)
        · exact refl x
        · exact head hb ((hbelow b hb x).mp hx)
      · intro hax
        obtain rfl | ⟨b, hb, hbx⟩ := hax.cases_head
        · exact .inl rfl
        · exact .inr ⟨b, hb, (hbelow b hb x).mpr hbx⟩
  choose reached hreached using hone
  refine ⟨start.toFinset.biUnion reached, fun x => ?_⟩
  simp only [mem_biUnion, mem_toFinset, hreached]

/-- A walk that has ended does not change with more fuel. -/
theorem walkWith_mono [DecidableEq α] {m : Nat} (hle : n ≤ m) {s : σ} {result : Except ε σ}
    (hrun : walkWith d visit n pending visited s = some result) :
    walkWith d visit m pending visited s = some result := by
  induction n generalizing m pending visited s with
  | zero =>
    unfold walkWith at hrun ⊢
    cases hnext : pending.dropWhile (· ∈ visited) with
    | nil => simpa only [hnext] using hrun
    | cons t rest => simp only [hnext, reduceCtorEq] at hrun
  | succ n ih =>
    obtain ⟨m, rfl⟩ : ∃ k, m = k + 1 := ⟨m - 1, by omega⟩
    unfold walkWith at hrun ⊢
    cases hnext : pending.dropWhile (· ∈ visited) with
    | nil => simpa only [hnext] using hrun
    | cons t rest =>
      simp only [hnext] at hrun ⊢
      cases hvisit : visit s t with
      | error e => simpa only [hvisit] using hrun
      | ok next =>
        simp only [hvisit] at hrun ⊢
        exact ih (le_of_succ_le_succ hle) hrun

/-- On an acyclic graph a walk that never fails ends, and visits what is reached from its
start, each vertex once. -/
theorem Acyclic.walkWith_eq [DecidableEq α] (hacyclic : Acyclic succ) (d : Discipline)
    (visit : σ → α → Except ε (σ × List α)) (start : List α)
    (hvisit : ∀ t, (∃ u ∈ start, Reach succ u t) → ∀ s, visit s t = .ok (update s t, succ t)) :
    ∃ (enough : Nat) (order : List α), order.Nodup ∧ (∀ x, x ∈ order ↔ ∃ u ∈ start, Reach succ u x) ∧
      ∀ n, enough ≤ n → ∀ s, walkWith d visit n start [] s = some (.ok (order.foldl update s)) := by
  obtain ⟨U, hmem⟩ := hacyclic.exists_finset_reach start
  have hU : ∀ t ∈ U, ∀ y ∈ succ t, y ∈ U := by
    intro t ht y hy
    obtain ⟨u, hu, hut⟩ := (hmem t).mp ht
    exact (hmem y).mpr ⟨u, hu, hut.trans (.single hy)⟩
  have hstart : ∀ t ∈ start, t ∈ U := fun t ht => (hmem t).mpr ⟨t, ht, .refl t⟩
  refine ⟨U.card, walk d succ U.card start [], nodup_walk d succ _ nodup_nil, fun x => ?_, fun n hfuel s => ?_⟩
  · rw [mem_walk_iff hU hstart (by simp) (le_refl _)]
    simp
  · obtain ⟨order, hwalk, hrun⟩ := lib.walkWith_eq (d := d) (s := s) hU
      (fun t ht => hvisit t ((hmem t).mp ht)) hstart
      (show (U.filter (· ∉ ([] : List α))).card ≤ U.card from card_filter_le U _)
    rw [hwalk, nil_append]
    exact walkWith_mono hfuel hrun

end swytch.lib
