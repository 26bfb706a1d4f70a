import Swytch.Effects.Dag.Bfs

open swytch.proto

namespace swytch.effects

open Bfs

variable {log : Log} {key : Bytes} {s s' : Bfs} {nodes tips : List Tip} {lcaTip : Tip}

namespace Bfs

/-- One iteration of the loop that does not end the walk. -/
def Step (log : Log) (key : Bytes) (s s'' : Bfs) : Prop :=
  ∃ cur s' eff, s.dequeue = some (cur, s') ∧ log.lookup cur = some eff ∧
    ¬ (isStateSnapshot eff = true ∧ s'.frontier.card = 1) ∧ s'.expand log key cur eff = some s''

/-- The loop states of the walk from `tips`. -/
def Walked (log : Log) (key : Bytes) (tips : List Tip) (s : Bfs) : Prop :=
  ∃ start, tips.foldlM (addTip log) {} = some start ∧ Relation.ReflTransGen (Step log key) start s

/-- The walk ends in `s`: nothing is pending, or it dequeues a state snapshot that
is the only open end. -/
def Ends (log : Log) (s : Bfs) (nodes : List Tip) (lcaTip : Tip) : Prop :=
  nodes = s.nodes ∧ (s.dequeue = none ∧ lcaTip = s.finalLca log ∨
    ∃ s', s.dequeue = some (lcaTip, s') ∧ (log.lookup lcaTip).any isStateSnapshot = true ∧ s.frontier.card = 1)

theorem bfsLoop_ends {n : Nat} (hloop : bfsLoop log key n s = some (nodes, lcaTip)) :
    ∃ s', Relation.ReflTransGen (Step log key) s s' ∧ s'.Ends log nodes lcaTip := by
  induction n generalizing s with
  | zero =>
    obtain ⟨hdone, hnodes, hlca⟩ | ⟨k, cur, s', eff, hk, -⟩ := bfsLoop_cases hloop
    · exact ⟨s, .refl, hnodes, .inl ⟨hdone, hlca⟩⟩
    · cases hk
  | succ n ih =>
    obtain ⟨hdone, hnodes, hlca⟩ | ⟨k, cur, s', eff, hk, hdequeue, heff, hlast⟩ := bfsLoop_cases hloop
    · exact ⟨s, .refl, hnodes, .inl ⟨hdone, hlca⟩⟩
    · obtain rfl := Nat.succ.inj hk
      obtain ⟨-, hnodes, hfrontier⟩ := dequeue_eq_some hdequeue
      obtain ⟨hstate, hcard, rfl, rfl⟩ | ⟨hgo, s'', hexpand, hrest⟩ := hlast
      · exact ⟨s, .refl, hnodes, .inr ⟨s', hdequeue, by simp [heff, hstate], hfrontier ▸ hcard⟩⟩
      · obtain ⟨last, hsteps, hends⟩ := ih hrest
        exact ⟨last, .head ⟨cur, s', eff, hdequeue, heff, hgo, hexpand⟩ hsteps, hends⟩

/-- The loop follows the steps to their end. It has the fuel for it: each dequeued effect is
a different one. -/
theorem bfsLoop_of_ends {n done : Nat} {refs : Set Tip} (hinv : WalkInv log key tips refs done s)
    (hfuel : log.keys.card ≤ n + done) (hsteps : Relation.ReflTransGen (Step log key) s s')
    (hends : s'.Ends log nodes lcaTip) : bfsLoop log key n s = some (nodes, lcaTip) := by
  induction hsteps using Relation.ReflTransGen.head_induction_on generalizing n refs done with
  | refl =>
    obtain ⟨rfl, ⟨hnone, rfl⟩ | ⟨rest, hdequeue, hsnap, hcard⟩⟩ := hends
    · cases n <;> simp [bfsLoop, hnone]
    · obtain ⟨hpending, hnodes, hfrontier⟩ := dequeue_eq_some hdequeue
      obtain ⟨eff, heff, hstate⟩ := (Option.any_eq_true _ _).mp hsnap
      cases n with
      | zero => exact absurd (hinv.pending_eq_nil_of_le (by omega)) (by simp [hpending])
      | succ n => simp [bfsLoop, hdequeue, heff, hstate, hfrontier, hcard, hnodes]
  | head hstep _ ih =>
    obtain ⟨cur, rest, eff, hdequeue, heff, hgo, hexpand⟩ := hstep
    cases n with
    | zero => exact absurd (hinv.pending_eq_nil_of_le (by omega)) (by simp [(dequeue_eq_some hdequeue).1])
    | succ n =>
      simp only [bfsLoop, hdequeue, heff, if_neg hgo, hexpand]
      exact ih (hinv.step hdequeue heff hexpand) (by omega)

theorem Walked.walkInv (hwalked : Walked log key tips s) : ∃ refs done, WalkInv log key tips refs done s := by
  obtain ⟨start, hstart, hsteps⟩ := hwalked
  induction hsteps with
  | refl => exact ⟨∅, 0, WalkInv.start hstart⟩
  | tail _ hstep ih =>
    obtain ⟨refs, done, hinv⟩ := ih
    obtain ⟨cur, rest, eff, hdequeue, heff, -, hexpand⟩ := hstep
    exact ⟨_, _, hinv.step hdequeue heff hexpand⟩

/-- What a step adds and what it leaves pending. -/
theorem Step.spec {s'' : Bfs} (hstep : Step log key s s'') :
    ∃ cur rest, s.pending = cur :: rest ∧ (∀ x ∈ s.nodes, x ∈ s''.nodes) ∧
      (∀ x ∈ s''.nodes, x ∈ s.nodes ∨ x ∈ depsOf log key cur) ∧ (∀ x ∈ s''.pending, x ∈ rest ∨ x ∉ s.nodes) ∧
      ∀ x ∈ s''.nodes, x ∉ s''.pending → x ∈ s.nodes ∧ x ∉ rest := by
  obtain ⟨cur, s', eff, hdequeue, heff, -, hexpand⟩ := hstep
  have hdeps : depsOf log key cur = keyDeps key eff := by simp [depsOf, heff]
  obtain ⟨hpending, hnodes, -⟩ := dequeue_eq_some hdequeue
  have hext := extends_of_foldlM adds_of_addDep (expand_eq_some hexpand)
  exact ⟨cur, s'.pending, hpending, hnodes ▸ hext.nodes_sub, hdeps ▸ hnodes ▸ hext.only, hnodes ▸ hext.pending_new,
    hnodes ▸ hext.settled⟩

/-- Every collected effect is a tip or was found through an expanded one. -/
theorem Walked.discovered (hwalked : Walked log key tips s) :
    ∀ t ∈ s.nodes, t ∈ tips ∨ ∃ y ∈ s.nodes, y ∉ s.pending ∧ t ∈ depsOf log key y := by
  obtain ⟨start, hstart, hsteps⟩ := hwalked
  induction hsteps with
  | refl =>
    exact fun t ht => .inl (((extends_start hstart).only t ht).resolve_left List.not_mem_nil)
  | @tail s s'' hsteps hstep ih =>
    obtain ⟨refs, done, hinv⟩ := Walked.walkInv ⟨start, hstart, hsteps⟩
    obtain ⟨cur, rest, hpending, hkept, honly, hnew, -⟩ := hstep.spec
    have hcur : cur ∈ s.nodes := hinv.pending_sub cur (by simp [hpending])
    have hnodup : cur ∉ rest := by
      have hnodup := hinv.pending_nodup
      rw [hpending] at hnodup
      exact (List.nodup_cons.mp hnodup).1
    intro t ht
    obtain hold | hdep := honly t ht
    · obtain htip | ⟨y, hy, hsettled, hdep⟩ := ih t hold
      · exact .inl htip
      · refine .inr ⟨y, hkept y hy, fun hmem => ?_, hdep⟩
        obtain hrest | hfresh := hnew y hmem
        · exact hsettled (by simp [hpending, hrest])
        · exact hfresh hy
    · refine .inr ⟨cur, hkept cur hcur, fun hmem => ?_, hdep⟩
      obtain hrest | hfresh := hnew cur hmem
      · exact hnodup hrest
      · exact hfresh hcur

end Bfs

theorem bfs_eq_some_iff :
    bfs log key tips = some (nodes, lcaTip) ↔ ∃ s, Bfs.Walked log key tips s ∧ s.Ends log nodes lcaTip := by
  constructor
  · intro hbfs
    obtain ⟨start, hstart, hloop⟩ := Option.bind_eq_some_iff.mp hbfs
    obtain ⟨s, hsteps, hends⟩ := bfsLoop_ends hloop
    exact ⟨s, ⟨start, hstart, hsteps⟩, hends⟩
  · rintro ⟨s, ⟨start, hstart, hsteps⟩, hends⟩
    rw [bfs, hstart, Option.bind_some]
    exact bfsLoop_of_ends (.start hstart) (Nat.le_add_right _ 0) hsteps hends

/-- The loop ends with fuel to spare: each dequeued effect is a different one. -/
theorem bfsLoop_isSome (hopen : ∀ s cur s', Bfs.Walked log key tips s → s.dequeue = some (cur, s') →
      ∀ d ∈ depsOf log key cur, d ∈ log) {n done : Nat} {refs : Set Tip} (hwalked : Bfs.Walked log key tips s)
    (hinv : Bfs.WalkInv log key tips refs done s) (hfuel : log.keys.card ≤ n + done) :
    ∃ result, bfsLoop log key n s = some result := by
  induction n generalizing s refs done with
  | zero =>
    have hpending : s.pending = [] := hinv.pending_eq_nil_of_le (by omega)
    cases hdequeue : s.dequeue with
    | none => simp [bfsLoop, hdequeue]
    | some next => simp [(dequeue_eq_some hdequeue).1] at hpending
  | succ n ih =>
    cases hdequeue : s.dequeue with
    | none => simp [bfsLoop, hdequeue]
    | some next =>
      obtain ⟨cur, s'⟩ := next
      have hcur : cur ∈ s.nodes :=
        hinv.pending_sub cur (by rw [(dequeue_eq_some hdequeue).1]; simp)
      obtain ⟨eff, heff⟩ := Finmap.mem_iff.mp (hinv.resident cur hcur)
      have hdeps : ∀ d ∈ keyDeps key eff, d ∈ log := fun d hd =>
        hopen s cur s' hwalked hdequeue d (by simpa [depsOf, heff] using hd)
      obtain ⟨s'', hexpand⟩ : ∃ s'', s'.expand log key cur eff = some s'' :=
        foldlM_isSome (fun d hd m => addDep_isSome (hdeps d hd) m) _
      simp only [bfsLoop, hdequeue, heff, hexpand]
      split
      · exact ⟨_, rfl⟩
      · rename_i hgo
        obtain ⟨start, hstart, hsteps⟩ := hwalked
        exact ih ⟨start, hstart, hsteps.tail ⟨cur, s', eff, hdequeue, heff, hgo, hexpand⟩⟩
          (hinv.step hdequeue heff hexpand) (by omega)

/-- A walk that meets no hole ends. -/
theorem bfs_isSome_of_walked (htips : ∀ t ∈ tips, t ∈ log)
    (hopen : ∀ s cur s', Bfs.Walked log key tips s → s.dequeue = some (cur, s') → ∀ d ∈ depsOf log key cur, d ∈ log) :
    ∃ result, bfs log key tips = some result := by
  obtain ⟨s, hstart⟩ : ∃ s, tips.foldlM (addTip log) {} = some s :=
    foldlM_isSome (fun t ht m => addTip_isSome (htips t ht) m) _
  obtain ⟨result, hresult⟩ := bfsLoop_isSome hopen ⟨s, hstart, .refl⟩ (WalkInv.start hstart) (Nat.le_add_right _ 0)
  exact ⟨result, by rw [bfs, hstart]; exact hresult⟩

theorem bfs_isSome (hresident : Resident log key tips) : ∃ result, bfs log key tips = some result := by
  refine bfs_isSome_of_walked (fun t ht => hresident t ht t (lib.Reach.refl t)) fun s cur s' hwalked hdequeue d hd => ?_
  obtain ⟨refs, done, hinv⟩ := hwalked.walkInv
  obtain ⟨u, hu, hreach⟩ := hinv.reach cur (hinv.pending_sub cur (by simp [(dequeue_eq_some hdequeue).1]))
  exact hresident u hu d (hreach.trans (lib.Reach.single hd))

theorem bfs_collected (hzero : EffectRef.zero ∉ log) (hbfs : bfs log key tips = some (nodes, lcaTip)) :
    Collected log key tips nodes lcaTip := by
  obtain ⟨s, hwalked, rfl, ⟨hnone, rfl⟩ | ⟨s', hdequeue, hsnap, hcard⟩⟩ := bfs_eq_some_iff.mp hbfs
  all_goals obtain ⟨refs, done, hinv⟩ := hwalked.walkInv
  · exact hinv.finished (dequeue_eq_none hnone)
  · have hcur : lcaTip ∈ s.pending := by simp [(dequeue_eq_some hdequeue).1]
    have hmem := hinv.pending_sub lcaTip hcur
    have honly : s.frontier = {lcaTip} := by
      obtain ⟨t, ht⟩ := Finset.card_eq_one.mp hcard
      have hopen := (hinv.mem_frontier lcaTip).mpr
        ⟨hmem, .inl hcur, .inl (not_standalone_of_isStateSnapshot hsnap)⟩
      rw [ht, Finset.mem_singleton] at hopen
      rw [ht, hopen]
    have hne : lcaTip ≠ .zero := fun heq => hzero (heq ▸ hinv.resident lcaTip hmem)
    exact ⟨hinv.resident, hinv.nodes_nodup, hinv.tips_mem, hinv.reach, fun heq => absurd heq hne,
      fun _ => ⟨hmem, hsnap⟩, fun _ => hinv.dominated honly hsnap⟩

/-- Every collected effect is a tip or was found through an effect above the
snapshot that the walk ends at. -/
theorem bfs_discovered (hzero : EffectRef.zero ∉ log) (hbfs : bfs log key tips = some (nodes, lcaTip)) :
    ∀ t ∈ nodes, t ∈ tips ∨ ∃ y ∈ nodes, y ≠ lcaTip ∧ t ∈ depsOf log key y := by
  obtain ⟨s, hwalked, rfl, hlast⟩ := bfs_eq_some_iff.mp hbfs
  obtain ⟨refs, done, hinv⟩ := hwalked.walkInv
  intro t ht
  obtain htip | ⟨y, hy, hsettled, hdep⟩ := hwalked.discovered t ht
  · exact .inl htip
  · refine .inr ⟨y, hy, ?_, hdep⟩
    rintro rfl
    obtain ⟨hnone, hlca⟩ | ⟨s', hdequeue, -, -⟩ := hlast
    · obtain hlost | ⟨hfrontier, -, -⟩ := s.finalLca_cases log
      · exact hzero (hlost ▸ hlca ▸ hinv.resident y hy)
      · have hopen := ((hinv.mem_frontier y).mp (by rw [hfrontier, hlca]; simp)).2.1
        rw [hopen.resolve_left hsettled] at hdep
        cases hdep
    · exact hsettled (by simp [(dequeue_eq_some hdequeue).1])

end swytch.effects
