import Swytch.Lib.Dominator
import Swytch.Effects.Dag.Replay
import Swytch.Effects.Reconstruct
import Swytch.Effects.Reduce.Compose

open swytch.lib swytch.proto List

namespace swytch.effects

open List.Sublist

open EffectRef

open Reach

open FinDag

variable {nodes tips : List Tip} {log : Log} {key activeTxnID : Bytes} {t lcaTip : Tip} {d : Dag} {eff : Effect}

theorem mem_of_dropWhile {stack rest : List Tip} {cur : Tip} (hdrop : stack.dropWhile (· ∉ nodes) = cur :: rest) :
    cur ∈ stack ∧ cur ∈ nodes ∧ ∀ x ∈ rest, x ∈ stack := by
  have hsuffix := dropWhile_suffix (l := stack) (fun t => decide (t ∉ nodes))
  rw [hdrop] at hsuffix
  refine ⟨hsuffix.subset (by simp), ?_, fun x hx => hsuffix.subset (by simp [hx])⟩
  simpa using not_of_dropWhile_eq_cons hdrop

/-- Trimming only removes nodes, and only what lies below a node on the stack. -/
theorem trimLoop_spec {log : Log} {key : Bytes} {n : Nat} {stack nodes : List Tip} :
    (trimLoop log key n stack nodes).Sublist nodes ∧
      ∀ t ∈ nodes, t ∉ trimLoop log key n stack nodes → ∃ u ∈ stack, u ∈ nodes ∧ Reach (depsOf log key) u t := by
  induction n generalizing stack nodes with
  | zero => exact ⟨refl _, fun t ht hnot => absurd ht hnot⟩
  | succ n ih =>
    rw [trimLoop]
    cases hdrop : stack.dropWhile (· ∉ nodes) with
    | nil => exact ⟨refl _, fun t ht hnot => absurd ht hnot⟩
    | cons cur rest =>
      obtain ⟨hcur, hnode, hrest⟩ := mem_of_dropWhile hdrop
      obtain ⟨hsub, hgone⟩ := @ih ((depsOf log key cur).reverse ++ rest) (nodes.erase cur)
      refine ⟨hsub.trans erase_sublist, fun t ht hnot => ?_⟩
      by_cases htcur : t = cur
      · subst htcur
        exact ⟨t, hcur, ht, refl t⟩
      · obtain ⟨u, hu, humem, hreach⟩ := hgone t ((mem_erase_of_ne htcur).mpr ht) hnot
        rcases mem_append.mp hu with hu | hu
        · exact ⟨cur, hcur, hnode, head (mem_reverse.mp hu) hreach⟩
        · exact ⟨u, hrest u hu, erase_subset humem, hreach⟩

theorem depsOf_of_isSnapshot (heff : log.lookup t = some eff) (hsnap : isSnapshot eff = true) :
    depsOf log key t = eff.deps := by
  obtain ⟨ekey, hlc, node, deps, txn, hash, virt, kind⟩ := eff
  cases kind <;> simp_all [isSnapshot, depsOf, keyDeps]

/-- Trimming removes only strict ancestors of the snapshot. -/
theorem trimAncestorsOfLCA_spec {log : Log} {key : Bytes} {nodes : List Tip} {lcaTip : Tip} :
    (trimAncestorsOfLCA log key lcaTip nodes).Sublist nodes ∧
      ∀ t ∈ nodes, t ∉ trimAncestorsOfLCA log key lcaTip nodes →
        ∃ u ∈ depsOf log key lcaTip, u ∈ nodes ∧ Reach (depsOf log key) u t := by
  have hkept : nodes.Sublist nodes ∧ ∀ t ∈ nodes, t ∉ nodes →
      ∃ u ∈ depsOf log key lcaTip, u ∈ nodes ∧ Reach (depsOf log key) u t :=
    ⟨refl _, fun t ht hnot => absurd ht hnot⟩
  rw [trimAncestorsOfLCA]
  split
  · exact hkept
  · cases heff : log.lookup lcaTip with
    | none => exact hkept
    | some eff =>
      by_cases hsnap : isSnapshot eff = true
      · simp only [hsnap, if_true]
        obtain ⟨hsub, hgone⟩ := @trimLoop_spec log key nodes.length eff.deps.reverse nodes
        refine ⟨hsub, fun t ht hnot => ?_⟩
        obtain ⟨u, hu, hbelow⟩ := hgone t ht hnot
        exact ⟨u, by rw [depsOf_of_isSnapshot heff hsnap]; exact mem_reverse.mp hu, hbelow⟩
      · simp only [hsnap]
        exact hkept

section

variable (hcollected : Collected log key tips nodes lcaTip) (hacyclic : Acyclic (depsOf log key))
  (hne : lcaTip ≠ .zero) (ht : t ∈ nodes)
include hcollected hacyclic hne ht

/-- Every collected tip, standalone subscriptions aside, depends on the snapshot
the walk stopped at. -/
theorem Collected.reach_lca (halone : ¬ Standalone log t) : Reach (depsOf log key) t lcaTip := by
  induction t using hacyclic.induction with
  | _ t ih =>
    by_cases htS : t = lcaTip
    · exact htS ▸ refl t
    · obtain ⟨hdeps, hbelow⟩ := hcollected.dominated hne t ht htS halone
      obtain ⟨d, hd⟩ := exists_mem_of_ne_nil _ hdeps
      exact head hd (ih d hd (hbelow d hd).1 (hbelow d hd).2)

/-- Only standalone subscriptions are collected from below the snapshot. -/
theorem Collected.standalone_of_below (htS : t ≠ lcaTip) (hreach : Reach (depsOf log key) lcaTip t) :
    Standalone log t := by
  by_contra hnot
  exact htS (hacyclic.antisymm (hcollected.reach_lca hacyclic hne ht hnot) hreach)

theorem Collected.mem_trim (halone : ¬ Standalone log t) : t ∈ trimAncestorsOfLCA log key lcaTip nodes := by
  by_contra hgone
  obtain ⟨u, hu, -, hreach⟩ := trimAncestorsOfLCA_spec.2 t ht hgone
  by_cases htS : t = lcaTip
  · exact hacyclic.not_reach_of_mem hu (htS ▸ hreach)
  · exact halone (hcollected.standalone_of_below hacyclic hne ht htS (head hu hreach))

end

theorem isSnapshot_of_isStateSnapshot (hsnap : (log.lookup t).any isStateSnapshot = true) :
    (log.lookup t).any isSnapshot = true := by
  cases heff : log.lookup t with
  | none => simp [heff] at hsnap
  | some eff =>
    obtain ⟨ekey, hlc, node, deps, txn, hash, virt, kind⟩ := eff
    cases kind <;> simp_all [isSnapshot, isStateSnapshot]

section

variable (rt : Runtime) (log : Log) (key : Bytes) (isInvisible : Bytes → Bool) (hidden : Finset Tip)
  (lost : Bytes → Bool)

variable {rt log key isInvisible hidden lost}

end

end swytch.effects
