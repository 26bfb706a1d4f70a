import Swytch.Lib.Reach
import Swytch.Effects.Dag

open swytch.proto List

namespace swytch.effects

/-- A tip whose effect is a subscription without dependencies. -/
def Standalone (log : Log) (t : Tip) : Prop :=
  (log.lookup t).any isStandaloneSubscription = true

variable {log : Log} {t : Tip} {s s' : Bfs} {key : Bytes} {refs : Set Tip} {done : Nat} {ts : List Tip}

theorem Standalone.depsOf_eq_nil (halone : Standalone log t) (key : Bytes) : depsOf log key t = [] := by
  cases heff : log.lookup t with
  | none => simp [depsOf, heff]
  | some eff =>
    obtain ⟨ekey, hlc, node, deps, txn, hash, virt, kind⟩ := eff
    cases kind <;> simp_all [Standalone, isStandaloneSubscription, isSubscription, depsOf, keyDeps]

theorem not_standalone_of_mem_depsOf {d : Tip} (hd : d ∈ depsOf log key t) : ¬ Standalone log t := by
  intro halone
  rw [halone.depsOf_eq_nil key] at hd
  cases hd

theorem not_standalone_of_reach {u : Tip} (hreach : lib.Reach (depsOf log key) u t) (halone : ¬ Standalone log t) :
    ¬ Standalone log u := by
  obtain rfl | ⟨c, hc, -⟩ := hreach.cases_head
  · exact halone
  · exact not_standalone_of_mem_depsOf hc

theorem not_standalone_of_isStateSnapshot (hsnap : (log.lookup t).any isStateSnapshot = true) :
    ¬ Standalone log t := by
  intro halone
  cases heff : log.lookup t with
  | none => simp [heff] at hsnap
  | some eff =>
    obtain ⟨ekey, hlc, node, deps, txn, hash, virt, kind⟩ := eff
    cases kind <;> simp_all [Standalone, isStandaloneSubscription, isSubscription, isStateSnapshot]

namespace Bfs

/-- Tips that were collected but not expanded yet. -/
def pending (s : Bfs) : List Tip :=
  s.queue ++ s.snapshots

/-- What holds of a walk that has followed the references `refs` and dequeued
`done` effects. The frontier holds the open ends of the paths walked so far:
unexpanded tips and roots, a standalone subscription only once a path refers
to it. -/
structure Inv (log : Log) (key : Bytes) (refs : Set Tip) (done : Nat) (s : Bfs) : Prop where
  resident : ∀ t ∈ s.nodes, t ∈ log
  nodes_nodup : s.nodes.Nodup
  pending_nodup : s.pending.Nodup
  pending_sub : ∀ t ∈ s.pending, t ∈ s.nodes
  refs_sub : ∀ t ∈ refs, t ∈ s.nodes
  mem_frontier : ∀ t, t ∈ s.frontier ↔
    t ∈ s.nodes ∧ (t ∈ s.pending ∨ depsOf log key t = []) ∧ (¬ Standalone log t ∨ t ∈ refs)
  balance : s.nodes.length = s.pending.length + done

/-- How a walk grows when the tips `ts` are added to it. Only what is new is pending then. -/
structure Extends (s s' : Bfs) (ts : List Tip) : Prop where
  nodes_sub : ∀ t ∈ s.nodes, t ∈ s'.nodes
  added : ∀ t ∈ ts, t ∈ s'.nodes
  only : ∀ t ∈ s'.nodes, t ∈ s.nodes ∨ t ∈ ts
  pending_new : ∀ t ∈ s'.pending, t ∈ s.pending ∨ t ∉ s.nodes
  settled : ∀ t ∈ s'.nodes, t ∉ s'.pending → t ∈ s.nodes ∧ t ∉ s.pending

theorem Extends.cons {s'' : Bfs} (hfirst : Extends s s' [t]) (hrest : Extends s' s'' ts) : Extends s s'' (t :: ts) where
  nodes_sub x hx := hrest.nodes_sub x (hfirst.nodes_sub x hx)
  added x hx := by
    obtain rfl | hx := mem_cons.mp hx
    · exact hrest.nodes_sub x (hfirst.added x (by simp))
    · exact hrest.added x hx
  only x hx := by
    obtain hx | hx := hrest.only x hx
    · exact (hfirst.only x hx).imp_right fun ht => by simp_all
    · exact .inr (by simp [hx])
  pending_new x hx := by
    obtain hx | hx := hrest.pending_new x hx
    · exact hfirst.pending_new x hx
    · exact .inr fun hold => hx (hfirst.nodes_sub x hold)
  settled x hx hp := by
    obtain ⟨hx', hp'⟩ := hrest.settled x hx hp
    exact hfirst.settled x hx' hp'

section

variable (s : Bfs) (t : Tip) (eff : Effect)

theorem mem_pending_enqueue (x : Tip) : x ∈ (s.enqueue t eff).pending ↔ x ∈ s.pending ∨ x = t := by
  simp only [enqueue, pending]
  split <;> simp [or_comm, or_left_comm]

theorem pending_enqueue_perm : (s.enqueue t eff).pending.Perm (t :: s.pending) := by
  simp only [enqueue, pending]
  split
  · rw [← append_assoc]
    exact perm_append_singleton _ _
  · rw [append_assoc]
    exact perm_middle

@[simp] theorem enqueue_nodes : (s.enqueue t eff).nodes = s.nodes := by
  simp only [enqueue]
  split <;> rfl

@[simp] theorem enqueue_frontier : (s.enqueue t eff).frontier = s.frontier := by
  simp only [enqueue]
  split <;> rfl

end

/-- What adding a tip does: one that is known can only change the frontier. -/
def Adds (log : Log) (s : Bfs) (t : Tip) (s' : Bfs) : Prop :=
  (t ∈ s.nodes ∧ ∃ frontier, s' = { s with frontier := frontier }) ∨
    t ∉ s.nodes ∧ ∃ eff frontier, log.lookup t = some eff ∧
      s' = { s with nodes := s.nodes ++ [t], frontier := frontier }.enqueue t eff

theorem Adds.extends (hadds : Adds log s t s') : Extends s s' [t] := by
  obtain ⟨hseen, frontier, rfl⟩ | ⟨hnew, eff, frontier, -, rfl⟩ := hadds
  · exact ⟨fun _ hx => hx, by simpa using hseen, fun _ hx => .inl hx, fun _ hx => .inl hx, fun _ hx hp => ⟨hx, hp⟩⟩
  · have hpending (x : Tip) := mem_pending_enqueue { s with nodes := s.nodes ++ [t], frontier := frontier } t eff x
    refine ⟨fun x hx => by simp [hx], by simp, fun x hx => by simpa using hx, fun x hx => ?_, fun x hx hp => ?_⟩
    · obtain hx | rfl := (hpending x).mp hx
      · exact .inl hx
      · exact .inr hnew
    · rw [hpending, not_or] at hp
      rw [enqueue_nodes, mem_append, mem_singleton] at hx
      exact ⟨hx.resolve_right hp.2, hp.1⟩

theorem addTip_cases (hstep : s.addTip log t = some s') :
    (t ∈ s.nodes ∧ s' = s) ∨ t ∉ s.nodes ∧ ∃ eff, log.lookup t = some eff ∧
      s' = { s with
        nodes := s.nodes ++ [t],
        frontier := if isStandaloneSubscription eff then s.frontier else insert t s.frontier }.enqueue t eff := by
  unfold addTip at hstep
  split at hstep
  · rename_i hseen
    exact .inl ⟨hseen, (Option.some.inj hstep).symm⟩
  · rename_i hnew
    split at hstep
    · cases hstep
    · rename_i eff heff
      exact .inr ⟨hnew, eff, heff, (Option.some.inj hstep).symm⟩

theorem addDep_cases (hstep : s.addDep log t = some s') :
    ∃ eff, log.lookup t = some eff ∧
      ((t ∈ s.nodes ∧
          s' = { s with frontier := if isStandaloneSubscription eff then insert t s.frontier else s.frontier }) ∨
        t ∉ s.nodes ∧
          s' = { s with nodes := s.nodes ++ [t], frontier := insert t s.frontier }.enqueue t eff) := by
  unfold addDep at hstep
  split at hstep
  · cases hstep
  · rename_i eff heff
    refine ⟨eff, heff, ?_⟩
    split at hstep
    · rename_i hseen
      refine .inl ⟨hseen, ?_⟩
      split at hstep <;> simp_all
    · rename_i hnew
      exact .inr ⟨hnew, (Option.some.inj hstep).symm⟩

theorem adds_of_addTip (hstep : s.addTip log t = some s') : Adds log s t s' :=
  (addTip_cases hstep).imp (fun h => ⟨h.1, s.frontier, h.2⟩) fun ⟨hnew, eff, heff, hs'⟩ => ⟨hnew, eff, _, heff, hs'⟩

theorem adds_of_addDep (hstep : s.addDep log t = some s') : Adds log s t s' := by
  obtain ⟨eff, heff, h⟩ := addDep_cases hstep
  exact h.imp (fun h => ⟨h.1, _, h.2⟩) fun h => ⟨h.1, eff, _, heff, h.2⟩

theorem foldlM_some {σ : Type} {f : σ → Tip → Option σ} {s s' : σ} (hfold : (t :: ts).foldlM f s = some s') :
    ∃ m, f s t = some m ∧ ts.foldlM f m = some s' := by
  rw [foldlM_cons] at hfold
  exact Option.bind_eq_some_iff.mp hfold

/-- What every added tip preserves, adding a list of them preserves. -/
theorem foldlM_preserves {σ : Type} {P : σ → Prop} {f : σ → Tip → Option σ} {s s' : σ}
    (hstep : ∀ s s' t, P s → f s t = some s' → P s') (hs : P s) (hfold : ts.foldlM f s = some s') : P s' := by
  induction ts generalizing s with
  | nil =>
    cases hfold
    exact hs
  | cons t ts ih =>
    obtain ⟨m, hm, hrest⟩ := foldlM_some hfold
    exact ih (hstep s m t hs hm) hrest

theorem extends_of_foldlM {f : Bfs → Tip → Option Bfs} (hf : ∀ {s t s'}, f s t = some s' → Adds log s t s')
    (hfold : ts.foldlM f s = some s') : Extends s s' ts := by
  induction ts generalizing s with
  | nil =>
    cases hfold
    exact ⟨fun _ ht => ht, by simp, fun _ ht => .inl ht, fun _ ht => .inl ht, fun _ ht hp => ⟨ht, hp⟩⟩
  | cons t ts ih =>
    obtain ⟨m, hm, hrest⟩ := foldlM_some hfold
    exact (hf hm).extends.cons (ih hrest)

/-- Collecting a new tip. It enters the frontier unless it is a standalone
subscription that no path refers to. -/
theorem Inv.collect {refs' : Set Tip} {eff : Effect} {frontier : Finset Tip}
    (hinv : Inv log key refs done s) (hnew : t ∉ s.nodes) (heff : log.lookup t = some eff)
    (hrefs : ∀ x, x ∈ refs' → x ∈ refs ∨ x = t) (hrefs' : ∀ x ∈ refs, x ∈ refs')
    (hfrontier : ∀ x, x ∈ frontier ↔ x ∈ s.frontier ∨ x = t ∧ (¬ Standalone log t ∨ t ∈ refs')) :
    Inv log key refs' done ({ s with nodes := s.nodes ++ [t], frontier := frontier }.enqueue t eff) := by
  have hpending (x : Tip) :
      x ∈ ({ s with nodes := s.nodes ++ [t], frontier := frontier }.enqueue t eff).pending ↔
        x ∈ s.pending ∨ x = t :=
    mem_pending_enqueue _ t eff x
  have hperm : ({ s with nodes := s.nodes ++ [t], frontier := frontier }.enqueue t eff).pending.Perm (t :: s.pending) :=
    pending_enqueue_perm _ t eff
  have hnotPending : t ∉ s.pending := fun hmem => hnew (hinv.pending_sub t hmem)
  refine ⟨fun x hx => ?_, ?_, ?_, fun x hx => ?_, fun x hx => ?_, fun x => ?_, ?_⟩
  · rw [enqueue_nodes, mem_append, mem_singleton] at hx
    obtain hx | rfl := hx
    · exact hinv.resident x hx
    · exact Finmap.mem_of_lookup_eq_some heff
  · rw [enqueue_nodes]
    exact nodup_append'.mpr ⟨hinv.nodes_nodup, nodup_singleton t, disjoint_singleton.mpr hnew⟩
  · exact hperm.nodup_iff.mpr (nodup_cons.mpr ⟨hnotPending, hinv.pending_nodup⟩)
  · rw [enqueue_nodes, mem_append, mem_singleton]
    exact ((hpending x).mp hx).imp_left (hinv.pending_sub x)
  · rw [enqueue_nodes, mem_append, mem_singleton]
    exact (hrefs x hx).imp_left (hinv.refs_sub x)
  · rw [enqueue_frontier, enqueue_nodes, hpending]
    simp only [mem_append, mem_singleton]
    rw [hfrontier, hinv.mem_frontier]
    by_cases hx : x = t
    · subst hx
      simp [hnew]
    · have hrefsx : x ∈ refs' ↔ x ∈ refs :=
        ⟨fun h => (hrefs x h).resolve_right hx, hrefs' x⟩
      simp [hx, hrefsx]
  · have hlength := hperm.length_eq
    have hbalance := hinv.balance
    simp only [enqueue_nodes, length_append, length_cons, length_nil] at hlength ⊢
    omega

theorem Inv.addTip (hinv : Inv log key refs done s) (hstep : s.addTip log t = some s') :
    Inv log key refs done s' := by
  obtain ⟨-, rfl⟩ | ⟨hnew, eff, heff, rfl⟩ := addTip_cases hstep
  · exact hinv
  · refine hinv.collect hnew heff (fun x hx => .inl hx) (fun x hx => hx) fun x => ?_
    have halone : Standalone log t ↔ isStandaloneSubscription eff = true := by simp [Standalone, heff]
    have hunreferenced : t ∉ refs := fun hmem => hnew (hinv.refs_sub t hmem)
    by_cases hsub : isStandaloneSubscription eff = true
    · simp [hsub, halone, hunreferenced]
    · simp [hsub, halone, or_comm]

theorem Inv.addDep (hinv : Inv log key refs done s) (hstep : s.addDep log t = some s') :
    Inv log key (insert t refs) done s' := by
  obtain ⟨eff, heff, ⟨hseen, rfl⟩ | ⟨hnew, rfl⟩⟩ := addDep_cases hstep
  · -- only a standalone subscription can be missing from the frontier
    refine ⟨hinv.resident, hinv.nodes_nodup, hinv.pending_nodup, hinv.pending_sub, fun x hx => ?_, fun x => ?_,
      hinv.balance⟩
    · obtain rfl | hx := Set.mem_insert_iff.mp hx
      · exact hseen
      · exact hinv.refs_sub x hx
    · have halone : isStandaloneSubscription eff = true ↔ Standalone log t := by simp [Standalone, heff]
      have hfrontier := hinv.mem_frontier x
      change _ ↔ x ∈ s.nodes ∧ (x ∈ s.pending ∨ _) ∧ _
      by_cases hx : x = t
      · subst hx
        by_cases hsub : Standalone log x
        · simp [halone, hsub, hseen, hsub.depsOf_eq_nil key]
        · simpa [halone, hsub] using hfrontier
      · by_cases hsub : Standalone log t <;> simpa [halone, hsub, hx] using hfrontier
  · exact hinv.collect hnew heff (fun x hx => (Set.mem_insert_iff.mp hx).symm) (fun x hx => Set.mem_insert_of_mem t hx)
      fun x => by simp [or_comm]

theorem Inv.addDeps (hinv : Inv log key refs done s) (hfold : ts.foldlM (Bfs.addDep log) s = some s') :
    Inv log key (refs ∪ {t | t ∈ ts}) done s' := by
  induction ts generalizing s refs with
  | nil =>
    cases hfold
    simpa using hinv
  | cons t ts ih =>
    obtain ⟨m, hstep, hrest⟩ := foldlM_some hfold
    have hrefs : insert t refs ∪ {x | x ∈ ts} = refs ∪ {x | x ∈ t :: ts} := by
      ext x
      simp [or_assoc, or_comm, or_left_comm]
    exact hrefs ▸ ih (hinv.addDep hstep) hrest

end Bfs

end swytch.effects
