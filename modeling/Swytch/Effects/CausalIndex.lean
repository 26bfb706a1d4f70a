import Swytch.Effects.Dag
import Swytch.Lib.ChainScan
import Swytch.Lib.Worklist

open swytch.lib swytch.proto

namespace swytch.effects

open ChainIndex

/-- The dependencies an effect states, whatever its kind. Nothing is inferred past a
position that cannot be resolved. -/
def statedDeps (log : Log) (t : Tip) : List Tip :=
  (log.lookup t).elim [] Effect.deps

abbrev CausalIndex := ChainIndex Tip

variable {log : Log} {c : CausalIndex} {t target : Tip}

namespace CausalIndex

def add (log : Log) (c : CausalIndex) (tips : List Tip) : CausalIndex :=
  ChainIndex.add (statedDeps log) log.keys c tips

/-- The visited set of a walk, for histories with a cycle. -/
def reachesCyclic (log : Log) (t target : Tip) : Bool :=
  target ∈ walkFrom .lifo (statedDeps log) log.keys [t] []

/-- What adding `t` leaves in the index for later queries is not kept here. -/
def reaches (log : Log) (c : CausalIndex) (t target : Tip) : Bool :=
  if t = target then true
  else if (add log c [t]).cyclic then reachesCyclic log t target
  else (add log c [t]).covers t target

/-- Candidates in dependency order on every chain. A cyclic history keeps them
together. -/
def candidateChains {β : Type} (c : CausalIndex) (tip : β → Tip) (candidates : List β) : List (List β) :=
  if c.cyclic then [candidates] else c.chains tip candidates

def concurrentRange {β : Type} (log : Log) (c : CausalIndex) (tip : β → Tip) (t : Tip) (chain : List β) : Nat × Nat :=
  if c.cyclic then (0, chain.length) else lib.concurrentRange (reaches log c) tip t chain

/-- An index that met no cycle is exact. -/
def Sound (log : Log) (c : CausalIndex) : Prop :=
  c.cyclic = false → ChainIndex.Exact (statedDeps log) c

theorem mem_keys_of_statedDeps (t : Tip) (ht : statedDeps log t ≠ []) : t ∈ log.keys := by
  rw [Finmap.mem_keys, Finmap.mem_iff]
  cases hlookup : log.lookup t with
  | none => simp [statedDeps, hlookup] at ht
  | some eff => exact ⟨eff, rfl⟩

theorem sound_empty (log : Log) : Sound log {} := fun _ => exact_empty _

theorem sound_add (hsound : Sound log c) (tips : List Tip) : Sound log (add log c tips) := by
  intro hcyclic
  have hc := ChainIndex.cyclic_of_add hcyclic
  exact (exact_add (hsound hc) hcyclic).1

theorem reachesCyclic_iff : reachesCyclic log t target = true ↔ Reach (statedDeps log) t target := by
  rw [reachesCyclic, decide_eq_true_iff, mem_walkFrom_iff mem_keys_of_statedDeps (by simp)]
  simp

/-- The index answers reachability exactly, on cyclic histories as well. -/
theorem Sound.reaches_iff (hsound : Sound log c) :
    reaches log c t target = true ↔ Reach (statedDeps log) t target := by
  unfold reaches
  split
  · rename_i heq
    subst heq
    exact iff_of_true rfl (Reach.refl t)
  split
  · exact reachesCyclic_iff
  · rename_i hcyclic
    have hacyclic := Bool.not_eq_true _ ▸ hcyclic
    obtain ⟨hexact, -, hdone⟩ := ChainIndex.exact_add (hsound (ChainIndex.cyclic_of_add hacyclic)) hacyclic
    have ht := hdone t (List.mem_singleton_self t)
    by_cases htarget : ((add log c [t]).node target).isSome
    · exact hexact.covers_iff ht htarget
    · have hcovers : (add log c [t]).covers t target = false := by
        simp [covers, Option.not_isSome_iff_eq_none.mp htarget]
      rw [hcovers]
      exact iff_of_false Bool.false_ne_true (fun hreach => htarget (hexact.isSome_of_reach ht hreach))

/-- Whichever way the index went, scanning the ranges it gives finds exactly the
candidates that neither reach `t` nor are reached from it. -/
theorem Sound.exists_concurrent_iff (hsound : Sound log c) {β : Type} {tip : β → Tip} {candidates : List β}
    (hdone : c.cyclic = false → ∀ b ∈ candidates, (c.node (tip b)).isSome) (P : β → Prop) :
    (∃ chain ∈ candidateChains c tip candidates, ∃ b ∈ slice chain (concurrentRange log c tip t chain),
        ¬ (c.cyclic = true ∧ (reaches log c t (tip b) = true ∨ reaches log c (tip b) t = true)) ∧ P b) ↔
      ∃ b ∈ candidates, ¬ Reach (statedDeps log) t (tip b) ∧ ¬ Reach (statedDeps log) (tip b) t ∧ P b := by
  cases hcyclic : c.cyclic with
  | true => simp [candidateChains, concurrentRange, hcyclic, slice, hsound.reaches_iff, and_assoc]
  | false =>
    simp only [candidateChains, concurrentRange, hcyclic, Bool.false_eq_true, if_false, false_and,
      not_false_eq_true, true_and]
    exact (hsound hcyclic).exists_concurrent_iff (hdone hcyclic) (fun _ _ => hsound.reaches_iff)
      (fun _ _ => hsound.reaches_iff) P

end CausalIndex

end swytch.effects
