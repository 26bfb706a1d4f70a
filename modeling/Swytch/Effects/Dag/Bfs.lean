import Swytch.Effects.Dag.Frontier

open swytch.lib swytch.proto List Finmap

namespace swytch.effects

open Bfs

variable {s s' : Bfs} {log : Log} {key : Bytes} {tips : List Tip} {refs : Set Tip} {done : Nat} {cur : Tip}
  {eff : Effect}

namespace Bfs

/-- The walk from `tips`: everything collected is below a tip, and the references
of every expanded effect have been followed. -/
structure WalkInv (log : Log) (key : Bytes) (tips : List Tip) (refs : Set Tip) (done : Nat) (s : Bfs) : Prop
    extends Inv log key refs done s where
  tips_mem : ∀ t ∈ tips, t ∈ s.nodes
  reach : ∀ t ∈ s.nodes, ∃ u ∈ tips, Reach (depsOf log key) u t
  expanded : ∀ t ∈ s.nodes, t ∉ s.pending → ∀ d ∈ depsOf log key t, d ∈ refs
  named : ∀ d ∈ refs, ∃ t ∈ s.nodes, t ∉ s.pending ∧ d ∈ depsOf log key t

/-- What is dequeued is the first of the queue, or the first of the snapshots if there is no queue. -/
theorem dequeue_cases (hdequeue : s.dequeue = some (cur, s')) :
    (∃ rest, s.queue = cur :: rest ∧ s' = { s with queue := rest }) ∨
      s.queue = [] ∧ ∃ rest, s.snapshots = cur :: rest ∧ s' = { s with snapshots := rest } := by
  unfold dequeue at hdequeue
  split at hdequeue
  · rename_i rest hqueue
    obtain ⟨rfl, rfl⟩ := Prod.mk.inj (Option.some.inj hdequeue)
    exact .inl ⟨rest, hqueue, rfl⟩
  · rename_i hqueue
    split at hdequeue
    · rename_i rest hsnapshots
      obtain ⟨rfl, rfl⟩ := Prod.mk.inj (Option.some.inj hdequeue)
      exact .inr ⟨hqueue, rest, hsnapshots, rfl⟩
    · cases hdequeue

theorem dequeue_eq_some (hdequeue : s.dequeue = some (cur, s')) :
    s.pending = cur :: s'.pending ∧ s'.nodes = s.nodes ∧ s'.frontier = s.frontier := by
  obtain ⟨rest, hqueue, rfl⟩ | ⟨hqueue, rest, hsnapshots, rfl⟩ := dequeue_cases hdequeue
  · exact ⟨by rw [pending, hqueue]; rfl, rfl, rfl⟩
  · exact ⟨by simp [pending, hqueue, hsnapshots], rfl, rfl⟩

theorem dequeue_eq_none (hdequeue : s.dequeue = none) : s.pending = [] := by
  unfold dequeue at hdequeue
  split at hdequeue
  · cases hdequeue
  · rename_i hqueue
    split at hdequeue
    · cases hdequeue
    · rename_i hsnapshots
      rw [pending, hqueue, hsnapshots, append_nil]

theorem Inv.empty (log : Log) (key : Bytes) : Inv log key ∅ 0 {} :=
  ⟨by simp, by simp, by simp [pending], by simp [pending], by simp, by simp, by simp [pending]⟩

theorem extends_start (hstart : tips.foldlM (addTip log) {} = some s) : Extends {} s tips :=
  extends_of_foldlM adds_of_addTip hstart

theorem WalkInv.start (hstart : tips.foldlM (addTip log) {} = some s) : WalkInv log key tips ∅ 0 s := by
  have hext := extends_start hstart
  refine ⟨foldlM_preserves (fun _ _ _ h hadd => h.addTip hadd) (Inv.empty log key) hstart, hext.added, fun t ht => ?_,
    fun t ht hsettled => ?_, by simp⟩
  · exact ⟨t, (hext.only t ht).resolve_left not_mem_nil, Reach.refl t⟩
  · cases (hext.settled t ht hsettled).1

/-- Dequeuing an effect closes its path unless it is a root. -/
theorem Inv.close (hinv : Inv log key refs done s)
    (hdequeue : s.dequeue = some (cur, s')) (heff : log.lookup cur = some eff) {frontier : Finset Tip}
    (hfrontier : frontier = if keyDeps key eff = [] then s'.frontier else s'.frontier.erase cur) :
    Inv log key refs (done + 1) { s' with frontier := frontier } := by
  obtain ⟨hpending, hnodes, hsame⟩ := dequeue_eq_some hdequeue
  have hdeps : depsOf log key cur = keyDeps key eff := by simp [depsOf, heff]
  have hnodup := hinv.pending_nodup
  rw [hpending, nodup_cons] at hnodup
  refine ⟨hnodes ▸ hinv.resident, hnodes ▸ hinv.nodes_nodup, hnodup.2, fun t ht => ?_, hnodes ▸ hinv.refs_sub,
    fun t => ?_, ?_⟩
  · exact hnodes ▸ hinv.pending_sub t (hpending ▸ mem_cons_of_mem cur ht)
  · have ht := hinv.mem_frontier t
    rw [hpending, ← hnodes, ← hsame] at ht
    change t ∈ frontier ↔ t ∈ s'.nodes ∧ (t ∈ s'.pending ∨ _) ∧ _
    rw [hfrontier]
    by_cases htcur : t = cur
    · subst htcur
      rw [hdeps] at ht ⊢
      by_cases hroot : keyDeps key eff = [] <;> simp [hroot, hnodup.1] at ht ⊢
      exact ht
    · by_cases hroot : keyDeps key eff = [] <;> simpa [hroot, htcur] using ht
  · have hbalance := hinv.balance
    rw [hpending, length_cons, ← hnodes] at hbalance
    change s'.nodes.length = s'.pending.length + _
    omega

/-- The state in which the dependencies of a dequeued effect are added. -/
theorem expand_eq_some (hexpand : s.expand log key cur eff = some s') :
    (keyDeps key eff).foldlM (addDep log)
      { s with frontier := if keyDeps key eff = [] then s.frontier else s.frontier.erase cur } = some s' := by
  rw [← hexpand, expand]
  split <;> rfl

/-- One iteration of the loop. -/
theorem WalkInv.step {s'' : Bfs} (hinv : WalkInv log key tips refs done s)
    (hdequeue : s.dequeue = some (cur, s')) (heff : log.lookup cur = some eff)
    (hexpand : s'.expand log key cur eff = some s'') :
    WalkInv log key tips (refs ∪ {d | d ∈ depsOf log key cur}) (done + 1) s'' := by
  have hdeps : depsOf log key cur = keyDeps key eff := by simp [depsOf, heff]
  obtain ⟨hpending, hnodes, -⟩ := dequeue_eq_some hdequeue
  have hnext := (hinv.toInv.close hdequeue heff rfl).addDeps (expand_eq_some hexpand)
  have hext := extends_of_foldlM adds_of_addDep (expand_eq_some hexpand)
  rw [← hdeps] at hnext hext
  have hcur : cur ∈ s.nodes := hinv.pending_sub cur (by simp [hpending])
  refine ⟨hnext, fun t ht => hext.nodes_sub t (hnodes.symm ▸ hinv.tips_mem t ht), fun t ht => ?_,
    fun t ht hsettled d hd => ?_, fun d hd => ?_⟩
  · obtain ht | ht := hext.only t ht
    · exact hinv.reach t (hnodes ▸ ht)
    · obtain ⟨u, hu, hreach⟩ := hinv.reach cur hcur
      exact ⟨u, hu, hreach.trans (Reach.single ht)⟩
  · obtain ⟨htold, hnotPending⟩ := hext.settled t ht hsettled
    by_cases htcur : t = cur
    · subst htcur
      exact .inr hd
    · refine .inl (hinv.expanded t (hnodes ▸ htold) ?_ d hd)
      rw [hpending]
      exact not_mem_cons_of_ne_of_not_mem htcur hnotPending
  · have hstays {t : Tip} (ht : t ∈ s.nodes) (hrest : t ∉ s'.pending) : t ∈ s''.nodes ∧ t ∉ s''.pending := by
      rw [← hnodes] at ht
      exact ⟨hext.nodes_sub t ht, fun hmem => (hext.pending_new t hmem).elim hrest (fun hfresh => hfresh ht)⟩
    obtain hd | hd := hd
    · obtain ⟨t, ht, hsettled, hdep⟩ := hinv.named d hd
      rw [hpending, mem_cons, not_or] at hsettled
      obtain ⟨ht, hsettled⟩ := hstays ht hsettled.2
      exact ⟨t, ht, hsettled, hdep⟩
    · have hnodup := hinv.pending_nodup
      rw [hpending] at hnodup
      obtain ⟨hmem, hsettled⟩ := hstays hcur (nodup_cons.mp hnodup).1
      exact ⟨cur, hmem, hsettled, hd⟩

end Bfs

/-- What the breadth-first phase hands on: the collected tips and the snapshot
`lcaTip` it stopped at, or the zero tip. Below every collected tip other than
standalone subscriptions, all paths lead to that snapshot. -/
structure Collected (log : Log) (key : Bytes) (tips nodes : List Tip) (lcaTip : Tip) : Prop where
  resident : ∀ t ∈ nodes, t ∈ log
  nodup : nodes.Nodup
  tips_mem : ∀ t ∈ tips, t ∈ nodes
  reach : ∀ t ∈ nodes, ∃ u ∈ tips, Reach (depsOf log key) u t
  complete : lcaTip = .zero → ∀ t ∈ nodes, ∀ d ∈ depsOf log key t, d ∈ nodes
  snapshot : lcaTip ≠ .zero → lcaTip ∈ nodes ∧ (log.lookup lcaTip).any isStateSnapshot = true
  dominated : lcaTip ≠ .zero → ∀ t ∈ nodes, t ≠ lcaTip → ¬ Standalone log t →
    depsOf log key t ≠ [] ∧ ∀ d ∈ depsOf log key t, d ∈ nodes ∧ ¬ Standalone log d

/-- When a state snapshot is the only frontier entry, all other paths have been
followed down to it. -/
theorem Bfs.WalkInv.dominated {S : Tip} (hinv : WalkInv log key tips refs done s)
    (hfrontier : s.frontier = {S}) (hsnap : (log.lookup S).any isStateSnapshot = true) :
    ∀ t ∈ s.nodes, t ≠ S → ¬ Standalone log t →
      depsOf log key t ≠ [] ∧ ∀ d ∈ depsOf log key t, d ∈ s.nodes ∧ ¬ Standalone log d := by
  intro t ht htS halone
  have hclosed : ¬ (t ∈ s.pending ∨ depsOf log key t = []) := by
    intro hopen
    have hmem : t ∈ s.frontier := (hinv.mem_frontier t).mpr ⟨ht, hopen, .inl halone⟩
    rw [hfrontier, Finset.mem_singleton] at hmem
    exact htS hmem
  rw [not_or] at hclosed
  refine ⟨hclosed.2, fun d hd => ?_⟩
  have hd : d ∈ refs := hinv.expanded t ht hclosed.1 d hd
  refine ⟨hinv.refs_sub d hd, fun hsub => ?_⟩
  have hmem : d ∈ s.frontier :=
    (hinv.mem_frontier d).mpr ⟨hinv.refs_sub d hd, .inr (hsub.depsOf_eq_nil key), .inr hd⟩
  rw [hfrontier, Finset.mem_singleton] at hmem
  exact not_standalone_of_isStateSnapshot hsnap (hmem ▸ hsub)

/-- When nothing is pending, a frontier of one state snapshot is what the walk
starts from. -/
theorem Bfs.finalLca_cases (log : Log) (s : Bfs) :
    s.finalLca log = .zero ∨ s.frontier = {s.finalLca log} ∧ s.finalLca log ∈ s.nodes ∧
      (log.lookup (s.finalLca log)).any isStateSnapshot = true := by
  rw [finalLca]
  cases hfind : s.nodes.find? (fun t => s.frontier = {t} ∧ (log.lookup t).any isStateSnapshot) with
  | none => exact .inl rfl
  | some t =>
    have hprop := find?_some hfind
    simp only [decide_eq_true_eq] at hprop
    exact .inr ⟨hprop.1, mem_of_find?_eq_some hfind, hprop.2⟩

theorem Bfs.WalkInv.finished (hinv : WalkInv log key tips refs done s) (hpending : s.pending = []) :
    Collected log key tips s.nodes (s.finalLca log) := by
  have hcomplete : ∀ t ∈ s.nodes, ∀ d ∈ depsOf log key t, d ∈ s.nodes := fun t ht d hd =>
    hinv.refs_sub d (hinv.expanded t ht (by simp [hpending]) d hd)
  refine ⟨hinv.resident, hinv.nodes_nodup, hinv.tips_mem, hinv.reach, fun _ => hcomplete, fun hne => ?_, fun hne => ?_⟩
  · exact ((s.finalLca_cases log).resolve_left hne).2
  · obtain ⟨hfrontier, -, hsnap⟩ := (s.finalLca_cases log).resolve_left hne
    exact hinv.dominated hfrontier hsnap

/-- A loop that ends did so at once, at a snapshot, or after an expansion. -/
theorem bfsLoop_cases {nodes : List Tip} {lcaTip : Tip} {n : Nat}
    (hloop : bfsLoop log key n s = some (nodes, lcaTip)) :
    (s.dequeue = none ∧ nodes = s.nodes ∧ lcaTip = s.finalLca log) ∨
    ∃ k cur s' eff, n = k + 1 ∧ s.dequeue = some (cur, s') ∧ log.lookup cur = some eff ∧
      ((isStateSnapshot eff = true ∧ s'.frontier.card = 1 ∧ nodes = s'.nodes ∧ lcaTip = cur) ∨
        (¬ (isStateSnapshot eff = true ∧ s'.frontier.card = 1) ∧
          ∃ s'', s'.expand log key cur eff = some s'' ∧ bfsLoop log key k s'' = some (nodes, lcaTip))) := by
  cases n with
  | zero =>
    unfold bfsLoop at hloop
    split at hloop
    · rename_i hdone
      cases hloop
      exact .inl ⟨by simpa using hdone, rfl, rfl⟩
    · cases hloop
  | succ k =>
    rw [bfsLoop] at hloop
    cases hdequeue : s.dequeue with
    | none =>
      simp only [hdequeue] at hloop
      cases hloop
      exact .inl ⟨rfl, rfl, rfl⟩
    | some next =>
      obtain ⟨cur, s'⟩ := next
      cases heff : log.lookup cur with
      | none => simp [hdequeue, heff] at hloop
      | some eff =>
        simp only [hdequeue, heff] at hloop
        refine .inr ⟨k, cur, s', eff, rfl, rfl, heff, ?_⟩
        by_cases hstop : isStateSnapshot eff = true ∧ s'.frontier.card = 1
        · rw [if_pos hstop] at hloop
          cases hloop
          exact .inl ⟨hstop.1, hstop.2, rfl, rfl⟩
        · rw [if_neg hstop] at hloop
          cases hexpand : s'.expand log key cur eff with
          | none => simp [hexpand] at hloop
          | some s'' =>
            simp only [hexpand] at hloop
            exact .inr ⟨hstop, s'', rfl, hloop⟩

/-- Everything below the tips can be fetched. -/
def Resident (log : Log) (key : Bytes) (tips : List Tip) : Prop :=
  ∀ u ∈ tips, ∀ t, Reach (depsOf log key) u t → t ∈ log

theorem foldlM_isSome {σ : Type} {f : σ → Tip → Option σ} {ts : List Tip}
    (hstep : ∀ t ∈ ts, ∀ s, ∃ s', f s t = some s') (s : σ) : ∃ s', ts.foldlM f s = some s' := by
  induction ts generalizing s with
  | nil => exact ⟨s, rfl⟩
  | cons t ts ih =>
    obtain ⟨m, hm⟩ := hstep t (by simp) s
    obtain ⟨s', hs'⟩ := ih (fun u hu => hstep u (by simp [hu])) m
    exact ⟨s', by rw [foldlM_cons, hm]; exact hs'⟩

theorem Bfs.addTip_isSome {t : Tip} (ht : t ∈ log) (s : Bfs) : ∃ s', s.addTip log t = some s' := by
  obtain ⟨eff, heff⟩ := mem_iff.mp ht
  by_cases hseen : t ∈ s.nodes <;> simp [addTip, hseen, heff]

theorem Bfs.addDep_isSome {t : Tip} (ht : t ∈ log) (s : Bfs) : ∃ s', s.addDep log t = some s' := by
  obtain ⟨eff, heff⟩ := mem_iff.mp ht
  rw [addDep, heff]
  by_cases hseen : t ∈ s.nodes
  · by_cases hsub : isStandaloneSubscription eff <;> simp [hseen, hsub]
  · simp [hseen]

theorem Bfs.Inv.nodes_length_le (hinv : Inv log key refs done s) : s.nodes.length ≤ log.keys.card := by
  rw [← toFinset_card_of_nodup hinv.nodes_nodup]
  apply Finset.card_le_card
  intro t ht
  exact mem_keys.mpr (hinv.resident t (mem_toFinset.mp ht))

theorem Bfs.Inv.pending_eq_nil_of_le (hinv : Inv log key refs done s) (hdone : log.keys.card ≤ done) :
    s.pending = [] := by
  have hbalance := hinv.balance
  have hbound := hinv.nodes_length_le
  exact length_eq_zero_iff.mp (by omega)

end swytch.effects
