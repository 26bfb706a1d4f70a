import Swytch.Lib.PostOrder
import Swytch.Lib.Worklist

namespace swytch.lib

open List

/-- A list in which every vertex has its predecessor as its only child, and the
first vertex has the children `p`. -/
def Linear {α : Type} (children : α → List α) (p : List α) : List α → Prop
  | [] => True
  | x :: xs => children x = p ∧ Linear children [x] xs

/-- What a vertex after `xs` has as its children in a linear list. -/
def after {α : Type} (p xs : List α) : List α :=
  xs.getLast?.elim p (fun x => [x])

variable {α : Type} {children succ : α → List α} {p xs ys : List α} {x : α}

@[simp] theorem after_cons (p : List α) (x : α) (xs : List α) : after p (x :: xs) = after [x] xs := by
  cases xs with
  | nil => rfl
  | cons y ys => simp [after, getLast?_cons]

theorem linear_append : Linear children p (xs ++ ys) ↔ Linear children p xs ∧ Linear children (after p xs) ys := by
  induction xs generalizing p with
  | nil => simp [Linear, after]
  | cons x xs ih => simp [Linear, ih, and_assoc]

theorem Linear.congr {f g : α → List α} (hlinear : Linear f p xs) (hsame : ∀ x ∈ xs, g x = f x) : Linear g p xs := by
  induction xs generalizing p with
  | nil => trivial
  | cons x xs ih =>
    exact ⟨(hsame x mem_cons_self).trans hlinear.1,
      ih hlinear.2 (fun y hy => hsame y (mem_cons_of_mem x hy))⟩

/-- Every vertex of a linear list reaches those before it. -/
theorem Linear.reach {y : α} (hlinear : Linear children p (xs ++ [x])) (hy : y ∈ xs) :
    ∃ z ∈ children x, Reach children z y := by
  induction xs using reverseRecOn generalizing x with
  | nil => cases hy
  | append_singleton xs w ih =>
    obtain ⟨hbefore, hlast⟩ := linear_append.mp hlinear
    have hchild : w ∈ children x := by simp [hlast.1, after]
    obtain hy | rfl := by simpa using hy
    · obtain ⟨z, hz, hreach⟩ := ih hbefore hy
      exact ⟨w, hchild, Reach.head hz hreach⟩
    · exact ⟨_, hchild, Reach.refl _⟩

/-- A vertex of a linear list has as children those of the first vertex or one
that stands before it. -/
theorem Linear.children_eq (hlinear : Linear children p (xs ++ x :: ys)) : children x = after p xs :=
  (linear_append.mp hlinear).2.1

theorem Linear.length_children_le (hlinear : Linear children p xs) (hp : p.length ≤ 1) (hx : x ∈ xs) :
    (children x).length ≤ 1 := by
  obtain ⟨before, rest, rfl⟩ := append_of_mem hx
  rw [hlinear.children_eq, after]
  cases before.getLast? with
  | none => exact hp
  | some y => simp

theorem Linear.mem_of_reach {y : α} (hlinear : Linear children [] (xs ++ x :: ys)) (hreach : Reach children x y) :
    y ∈ xs ∨ y = x := by
  have hself : x ∈ xs ++ [x] := by simp
  have hclosed : ∀ v ∈ xs ++ [x], ∀ w ∈ children v, w ∈ xs ++ [x] := by
    intro v hv w hw
    obtain ⟨before, rest, hsplit⟩ := append_of_mem hv
    have hlinear' : Linear children [] (before ++ v :: (rest ++ ys)) := by
      have heq : before ++ v :: (rest ++ ys) = xs ++ x :: ys := by
        rw [← cons_append, ← append_assoc, ← hsplit]
        simp
      rw [heq]
      exact hlinear
    rw [hlinear'.children_eq, after] at hw
    cases hlast : before.getLast? with
    | none => simp [hlast] at hw
    | some z =>
      have hwz : w = z := by simpa [hlast] using hw
      rw [hsplit, hwz]
      exact mem_append_left _ (mem_of_getLast? hlast)
  have hmem := Reach.mem_of_closed (s := fun v => v ∈ xs ++ [x]) hclosed hself hreach
  simpa using mem_append.mp hmem

/-- Vertices left out of a linear list together with all below them leave a linear
list of the graph that links only kept vertices. -/
theorem Linear.filter {kept : α → List α} {keep : α → Bool} (hlinear : Linear children p xs)
    (hdown : ∀ x ∈ xs, keep x = false → ∀ c ∈ children x, keep c = false)
    (hkept : ∀ x ∈ xs, keep x = true → kept x = (children x).filter keep) :
    Linear kept (p.filter keep) (xs.filter keep) := by
  induction xs generalizing p with
  | nil => trivial
  | cons x xs ih =>
    obtain ⟨hchildren, hrest⟩ := hlinear
    have htail := ih hrest (fun y hy => hdown y (by simp [hy])) (fun y hy => hkept y (by simp [hy]))
    cases hkeep : keep x with
    | true =>
      rw [filter_cons_of_pos hkeep]
      refine ⟨by rw [hkept x (by simp) hkeep, hchildren], ?_⟩
      simpa [hkeep] using htail
    | false =>
      have hnone : p.filter keep = [] := by
        rw [filter_eq_nil_iff]
        intro c hc
        simp [hdown x (by simp) hkeep c (hchildren ▸ hc)]
      rw [filter_cons_of_neg (by simp [hkeep]), hnone]
      simpa [hkeep] using htail

/-- Visiting the last vertex of a linear list that is not listed yet emits the
list as it stands. -/
theorem FinDag.visit_linear [DecidableEq α] (G : FinDag α) {order : List α}
    (hlinear : Linear G.children p (xs ++ [x])) (hp : ∀ c ∈ p, c ∈ order) (hnew : ∀ y ∈ xs ++ [x], y ∉ order) :
    G.visit x order = order ++ (xs ++ [x]) := by
  induction xs using reverseRecOn generalizing x with
  | nil =>
    rw [G.visit_eq, if_neg (hnew x (by simp)), hlinear.1, G.visitAll_of_subset hp, nil_append]
  | append_singleton xs w ih =>
    obtain ⟨hbefore, hlast⟩ := linear_append.mp hlinear
    have hchild : G.children x = [w] := by simp [hlast.1, after]
    rw [G.visit_eq, if_neg (hnew x (by simp)), hchild, G.visitAll_cons, G.visitAll_nil,
      ih hbefore (fun y hy => hnew y (by simp at hy ⊢; tauto)), append_assoc]

/-- A walk goes down a linear list before anything else. -/
theorem Linear.walk_eq [DecidableEq α] (d : Discipline) {visited : List α}
    (hlinear : Linear succ p xs) (hnodup : xs.Nodup) (hnew : ∀ x ∈ xs, x ∉ visited) (n : Nat) :
    walk d succ (n + xs.length) (d.push (after p xs) []) visited =
      walk d succ n (d.push p []) (visited ++ xs.reverse) := by
  induction xs using reverseRecOn generalizing visited with
  | nil => simp [after]
  | append_singleton xs x ih =>
    obtain ⟨hbefore, hlast, -⟩ := linear_append.mp hlinear
    obtain ⟨hnodup, -, hapart⟩ := nodup_append'.mp hnodup
    have hx : x ∉ visited := hnew x (by simp)
    have hpending : (d.push (after p (xs ++ [x])) []).dropWhile (· ∈ visited) = [x] := by
      cases d <;> simp [Discipline.push, after, hx]
    rw [length_append, length_singleton, ← Nat.add_assoc]
    conv_lhs => unfold walk
    rw [hpending]
    dsimp only
    rw [hlast, ih hbefore hnodup]
    · simp
    · intro y hy hmem
      obtain hold | rfl := by simpa using hmem
      · exact hnew y (by simp [hy]) hold
      · exact hapart hy (by simp)

theorem length_walk_le [DecidableEq α] (d : Discipline) (succ : α → List α) (n : Nat) (pending visited : List α) :
    (walk d succ n pending visited).length ≤ visited.length + n := by
  induction n generalizing pending visited with
  | zero => exact Nat.le_refl _
  | succ n ih =>
    unfold walk
    split
    · omega
    · refine (ih _ _).trans ?_
      rw [length_append, length_singleton]
      omega

/-- The walk from the last vertex of a linear list comes to the others in reverse, and then
to what is below the first. -/
theorem Linear.walkFrom_eq [DecidableEq α] {d : Discipline} {inner : Finset α}
    (hinner : ∀ t, succ t ≠ [] → t ∈ inner) (hlinear : Linear succ p (xs ++ [x])) (hnodup : (xs ++ [x]).Nodup) :
    ∃ rest, walkFrom d succ inner [x] [] = (xs ++ [x]).reverse ++ rest ∧ ((xs ++ [x]).reverse ++ rest).Nodup ∧
      (∀ r ∈ rest, ∃ s ∈ p, Reach succ s r) ∧ ∀ s ∈ p, s ∈ (xs ++ [x]).reverse ++ rest := by
  have hreach : ∀ y ∈ xs ++ [x], Reach succ x y := by
    intro y hy
    obtain hy | hy := mem_append.mp hy
    · obtain ⟨z, hz, hzy⟩ := hlinear.reach hy
      exact .head hz hzy
    · rw [mem_singleton.mp hy]
      exact .refl x
  have hvisits {y : α} (hy : Reach succ x y) : y ∈ walkFrom d succ inner [x] [] :=
    (mem_walkFrom_iff hinner (by simp)).mpr (.inr ⟨x, mem_singleton_self x, hy⟩)
  have hfuel : (xs ++ [x]).length ≤ (walkBound succ inner [x]).card := by
    have hlength := (hnodup.subperm fun y hy => hvisits (hreach y hy)).length_le
    have hbound := length_walk_le d succ (walkBound succ inner [x]).card (d.push [x] []) []
    rw [length_nil, Nat.zero_add] at hbound
    exact hlength.trans hbound
  obtain ⟨n, hn⟩ := Nat.exists_eq_add_of_le' hfuel
  have hwalk : walkFrom d succ inner [x] [] = walk d succ n (d.push p []) (xs ++ [x]).reverse := by
    have hdown := hlinear.walk_eq d hnodup (fun y _ => not_mem_nil) n
    rw [show after p (xs ++ [x]) = [x] by simp [after], nil_append] at hdown
    unfold walkFrom
    rw [hn, hdown]
  have hnodupWalk : (walk d succ n (d.push p []) (xs ++ [x]).reverse).Nodup :=
    nodup_walk d succ n (nodup_reverse.mpr hnodup)
  obtain ⟨rest, hrest⟩ := prefix_walk d succ n (d.push p []) (xs ++ [x]).reverse
  rw [← hrest] at hnodupWalk
  refine ⟨rest, hwalk.trans hrest.symm, hnodupWalk, fun r hr => ?_, fun s hs => ?_⟩
  · have hmem : r ∈ walk d succ n (d.push p []) (xs ++ [x]).reverse := hrest ▸ mem_append_right _ hr
    obtain hold | ⟨s, hs, hsr⟩ := reach_of_mem_walk hmem
    · exact absurd hr ((nodup_append'.mp hnodupWalk).2.2 hold)
    · exact ⟨s, by simpa [d.mem_push] using hs, hsr⟩
  · rw [hrest, ← hwalk]
    obtain ⟨first, later, hsplit⟩ := exists_cons_of_ne_nil (show xs ++ [x] ≠ [] by simp)
    rw [hsplit] at hlinear hreach
    exact hvisits ((hreach first mem_cons_self).trans (.single (hlinear.1 ▸ hs)))

end swytch.lib
