import Swytch.Effects.Dag.Chains
import Swytch.Effects.Dag.Routes

open swytch.lib swytch.proto List

namespace swytch.effects

open EffectRef

open Bfs

/-- A path from `t` down to an effect without dependencies on the key. -/
structure RootPath (log : Log) (key : Bytes) (t : Tip) (path : List Tip) : Prop where
  starts : path.head? = some t
  follows : path.IsChain (fun a b => b ∈ depsOf log key a)
  ends : ∀ r ∈ path.getLast?, depsOf log key r = []

/-- Every path from `t` to a root leads through `S`. -/
def Covers (log : Log) (key : Bytes) (S t : Tip) : Prop :=
  ∀ path, RootPath log key t path → S ∈ path

/-- A state snapshot on every path from a tip to a root. A standalone subscription carries no
data ancestry and is not a path. -/
structure Dominates (log : Log) (key : Bytes) (tips : List Tip) (S : Tip) : Prop where
  snapshot : (log.lookup S).any isStateSnapshot = true
  below : InClosure log key tips S
  covers : ∀ u ∈ tips, ¬ Standalone log u → Covers log key S u

theorem RootPath.cons {log : Log} {key : Bytes} {t d : Tip} {path : List Tip} (hdep : d ∈ depsOf log key t)
    (hpath : RootPath log key d path) : RootPath log key t (t :: path) := by
  obtain ⟨hstarts, hfollows, hends⟩ := hpath
  cases path with
  | nil => simp at hstarts
  | cons x rest =>
    obtain rfl : x = d := by simpa using hstarts
    exact ⟨rfl, isChain_cons_cons.mpr ⟨hdep, hfollows⟩, by simpa [getLast?_cons_cons] using hends⟩

variable {log : Log} {key : Bytes} {S t : Tip} {nodes tips : List Tip} {s s' : Bfs}

theorem Covers.of_dep {d : Tip} (hcovers : Covers log key S t) (hne : t ≠ S) (hdep : d ∈ depsOf log key t) :
    Covers log key S d := by
  intro path hpath
  obtain heq | hmem := mem_cons.mp (hcovers _ (hpath.cons hdep))
  · exact absurd heq.symm hne
  · exact hmem

theorem Covers.eq_of_root (hcovers : Covers log key S t) (hroot : depsOf log key t = []) : t = S := by
  have hmem : S ∈ [t] := hcovers [t] ⟨rfl, isChain_singleton t, by simpa using hroot⟩
  exact (mem_singleton.mp hmem).symm

theorem Covers.reach (hacyclic : Acyclic (depsOf log key)) (hcovers : Covers log key S t) :
    Reach (depsOf log key) t S := by
  induction t using hacyclic.induction with
  | _ t ih =>
    by_cases heq : t = S
    · exact heq ▸ Reach.refl t
    · have hdeps : depsOf log key t ≠ [] := fun hroot => heq (hcovers.eq_of_root hroot)
      obtain ⟨d, hd⟩ := exists_mem_of_ne_nil _ hdeps
      exact Reach.head hd (ih d hd (hcovers.of_dep heq hd))

/-- A root on every path is the only root. -/
theorem Covers.eq_of_reach {r : Tip} (hcovers : Covers log key S t) (hS : depsOf log key S = [])
    (hreach : Reach (depsOf log key) t r) (hr : depsOf log key r = []) : r = S := by
  induction hreach using Relation.ReflTransGen.head_induction_on with
  | refl => exact hcovers.eq_of_root hr
  | @head x y hdep _ ih =>
    have hdep : y ∈ depsOf log key x := hdep
    refine ih (hcovers.of_dep ?_ hdep)
    rintro rfl
    rw [hS] at hdep
    cases hdep

/-- A snapshot that every effect above it leads to lies on every path. -/
theorem covers_of_dominated (hclosed : ∀ x ∈ nodes, x ≠ S → ¬ Standalone log x →
      depsOf log key x ≠ [] ∧ ∀ d ∈ depsOf log key x, d ∈ nodes ∧ ¬ Standalone log d) (ht : t ∈ nodes)
    (hinner : ¬ Standalone log t) : Covers log key S t := by
  intro path
  induction path generalizing t with
  | nil => exact fun hpath => absurd hpath.starts (by simp)
  | cons x rest ih =>
    rintro ⟨hstarts, hfollows, hends⟩
    obtain rfl : x = t := by simpa using hstarts
    by_cases hx : x = S
    · simp [hx]
    · obtain ⟨hdeps, hbelow⟩ := hclosed x ht hx hinner
      cases rest with
      | nil => exact absurd (hends x (by simp)) hdeps
      | cons y rest =>
        obtain ⟨hdep, hfollows⟩ := isChain_cons_cons.mp hfollows
        obtain ⟨hy, hyinner⟩ := hbelow y hdep
        exact mem_cons_of_mem _
          (ih hy hyinner ⟨rfl, hfollows, by simpa [getLast?_cons_cons] using hends⟩)

/-- The snapshot a walk ends at lies on every path. -/
theorem dominates_of_bfs {log : Log} {key : Bytes} {tips nodes : List Tip} {lcaTip : Tip}
    (hzero : zero ∉ log) (hbfs : bfs log key tips = some (nodes, lcaTip)) (hne : lcaTip ≠ .zero) :
    Dominates log key tips lcaTip := by
  have hcollected := bfs_collected hzero hbfs
  obtain ⟨hmem, hsnap⟩ := hcollected.snapshot hne
  exact ⟨hsnap, hcollected.reach _ hmem,
    fun u hu hinner => covers_of_dominated (hcollected.dominated hne) (hcollected.tips_mem u hu) hinner⟩

theorem mem_log_of_isGate (hsnap : isGate log S = true) : S ∈ log := by
  by_contra hhole
  simp [isGate, Finmap.lookup_eq_none.mpr hhole] at hsnap

theorem ne_zero_of_isGate (hzero : zero ∉ log) (hsnap : isGate log S = true) : S ≠ .zero :=
  fun heq => hzero (heq ▸ mem_log_of_isGate hsnap)

/-- A dominating root is the only root below the tips that carry data. -/
theorem Dominates.eq_of_root {r : Tip} (hdominates : Dominates log key tips S) (hS : depsOf log key S = [])
    (hr : depsOf log key r = []) (hbelow : InClosure log key tips r) (hinner : ¬ Standalone log r) : r = S := by
  obtain ⟨u, hu, hreach⟩ := hbelow
  exact (hdominates.covers u hu (not_standalone_of_reach hreach hinner)).eq_of_reach hS hreach hr

namespace Bfs

/-- Until a snapshot that lies on every path is expanded, it lies on every path
from whatever the walk has collected. -/
theorem Walked.covers (hwalked : Walked log key tips s) (hdominates : Dominates log key tips S) :
    (S ∈ s.nodes ∧ S ∉ s.pending) ∨ ∀ t ∈ s.nodes, ¬ Standalone log t → Covers log key S t := by
  obtain ⟨start, hstart, hsteps⟩ := hwalked
  induction hsteps with
  | refl =>
    exact .inr fun t ht => hdominates.covers t (((extends_start hstart).only t ht).resolve_left not_mem_nil)
  | @tail s s'' hsteps hstep ih =>
    obtain ⟨refs, done, hinv⟩ := Walked.walkInv ⟨start, hstart, hsteps⟩
    obtain ⟨cur, rest, hpending, hkept, honly, hnew, -⟩ := hstep.spec
    have hcur : cur ∈ s.nodes := hinv.pending_sub cur (by simp [hpending])
    have hsettled {x : Tip} (hx : x ∈ s.nodes) (hrest : x ∉ rest) : x ∉ s''.pending :=
      fun hmem => (hnew x hmem).elim hrest (fun hfresh => hfresh hx)
    obtain ⟨hS, hdone⟩ | hall := ih
    · exact .inl ⟨hkept S hS, hsettled hS (fun hmem => hdone (by simp [hpending, hmem]))⟩
    · by_cases hcurS : cur = S
      · have hnodup := hinv.pending_nodup
        rw [hpending] at hnodup
        subst hcurS
        exact .inl ⟨hkept cur hcur, hsettled hcur (nodup_cons.mp hnodup).1⟩
      · refine .inr (fun t ht hinner => ?_)
        obtain hold | hdep := honly t ht
        · exact hall t hold hinner
        · exact (hall cur hcur (not_standalone_of_mem_depsOf hdep)).of_dep hcurS hdep

/-- A walk with nothing pending has collected all that lies below its tips. -/
theorem Walked.mem_of_inClosure (hwalked : Walked log key tips s) (hpending : s.pending = [])
    (ht : InClosure log key tips t) : t ∈ s.nodes := by
  obtain ⟨refs, done, hinv⟩ := hwalked.walkInv
  obtain ⟨u, hu, hreach⟩ := ht
  refine Reach.mem_of_closed (s := fun x => x ∈ s.nodes) (fun x hx y hy => ?_) (hinv.tips_mem u hu) hreach
  exact hinv.refs_sub y (hinv.expanded x hx (by simp [hpending]) y hy)

/-- An effect that has been collected and is not pending has been dequeued. -/
theorem Walked.dequeued (hwalked : Walked log key tips s) (hS : S ∈ s.nodes) (hdone : S ∉ s.pending) :
    ∃ s₀ s₁, Walked log key tips s₀ ∧ s₀.dequeue = some (S, s₁) := by
  obtain ⟨start, hstart, hsteps⟩ := hwalked
  induction hsteps with
  | refl =>
    exact absurd ((extends_start hstart).settled S hS hdone).1 not_mem_nil
  | @tail s s'' hsteps hstep ih =>
    obtain ⟨cur, rest, hpending, -, -, -, hsettled⟩ := hstep.spec
    obtain ⟨hold, hrest⟩ := hsettled S hS hdone
    by_cases hcur : S = cur
    · obtain ⟨cur', s', eff, hdequeue, -, -, -⟩ := hstep
      have hhead := (dequeue_eq_some hdequeue).1
      rw [hpending, cons.injEq] at hhead
      exact ⟨s, s', ⟨start, hstart, hsteps⟩, by rw [hcur, hhead.1, hdequeue]⟩
    · exact ih hold (by simp [hpending, hcur, hrest])

end Bfs

/-- The walk dequeues `S` while nothing else is pending. -/
def DequeuedAlone (log : Log) (key : Bytes) (tips : List Tip) (S : Tip) : Prop :=
  ∃ s s', Bfs.Walked log key tips s ∧ s.dequeue = some (S, s') ∧ s'.pending = []

/-- A dominating snapshot dequeued alone is the only open end. -/
theorem bfs_of_dequeuedAlone (hdominates : Dominates log key tips S) (halone : DequeuedAlone log key tips S) :
    ∃ nodes, bfs log key tips = some (nodes, S) := by
  obtain ⟨s, s', hwalked, hdequeue, hrest⟩ := halone
  obtain ⟨refs, done, hinv⟩ := hwalked.walkInv
  obtain ⟨hpending, hnodes, -⟩ := dequeue_eq_some hdequeue
  rw [hrest] at hpending
  have hall : ∀ t ∈ s.nodes, ¬ Standalone log t → Covers log key S t :=
    (hwalked.covers hdominates).resolve_left (fun hsettled => hsettled.2 (by simp [hpending]))
  have hfrontier : s.frontier = {S} := by
    ext t
    rw [hinv.mem_frontier, Finset.mem_singleton, hpending]
    constructor
    · rintro ⟨ht, hopen | hroot, hinner | hnamed⟩
      · simpa using hopen
      · simpa using hopen
      · exact (hall t ht hinner).eq_of_root hroot
      · obtain ⟨y, hy, hsettled, hdep⟩ := hinv.named t hnamed
        have hyS : y ≠ S := fun heq => hsettled (by simp [hpending, heq])
        exact ((hall y hy (not_standalone_of_mem_depsOf hdep)).of_dep hyS hdep).eq_of_root hroot
    · rintro rfl
      exact ⟨hinv.pending_sub t (by simp [hpending]), .inl (by simp),
        .inl (not_standalone_of_isStateSnapshot hdominates.snapshot)⟩
  exact ⟨s.nodes, bfs_eq_some_iff.mpr
    ⟨s, hwalked, rfl, .inr ⟨s', hdequeue, hdominates.snapshot, by simp [hfrontier]⟩⟩⟩

/-- A dominating snapshot without dependencies survives in the frontier to the end. -/
theorem bfs_of_root {lcaTip : Tip} (hzero : zero ∉ log) (hbfs : bfs log key tips = some (nodes, lcaTip))
    (hdominates : Dominates log key tips S) (hroot : depsOf log key S = []) : lcaTip ≠ .zero := by
  obtain ⟨s, hwalked, rfl, ⟨hnone, rfl⟩ | ⟨s', hdequeue, hsnap, -⟩⟩ := bfs_eq_some_iff.mp hbfs
  · obtain ⟨refs, done, hinv⟩ := hwalked.walkInv
    have hpending := dequeue_eq_none hnone
    have hS : S ∈ s.nodes := hwalked.mem_of_inClosure hpending hdominates.below
    have hfrontier : s.frontier = {S} := by
      ext t
      rw [hinv.mem_frontier, Finset.mem_singleton, hpending]
      constructor
      · rintro ⟨ht, hopen, hdata⟩
        have htroot := hopen.resolve_left (by simp)
        obtain hinner | hnamed := hdata
        · exact hdominates.eq_of_root hroot htroot (hinv.reach t ht) hinner
        · obtain ⟨y, hy, -, hdep⟩ := hinv.named t hnamed
          obtain ⟨u, hu, hreach⟩ := hinv.reach y hy
          have hinner := not_standalone_of_reach hreach (not_standalone_of_mem_depsOf hdep)
          exact (hdominates.covers u hu hinner).eq_of_reach hroot (hreach.trans (Reach.single hdep)) htroot
      · rintro rfl
        exact ⟨hS, .inr hroot, .inl (not_standalone_of_isStateSnapshot hdominates.snapshot)⟩
    rw [finalLca]
    cases hfind : s.nodes.find? (fun t => s.frontier = {t} ∧ (log.lookup t).any isStateSnapshot) with
    | none =>
      have hmissed := find?_eq_none.mp hfind S hS
      simp [hfrontier, hdominates.snapshot] at hmissed
    | some t => exact fun heq => hzero (heq ▸ hinv.resident t (mem_of_find?_eq_some hfind))
  · exact ne_zero_of_isGate hzero hsnap

/-- Every state snapshot that leads to `S` is found before it: a walk takes state snapshots in
the order in which their least routes from the tips stand. -/
def FoundLast (log : Log) (key : Bytes) (tips : List Tip) (S : Tip) : Prop :=
  ∀ T, InClosure log key tips T → isGate log T = true → Reach (depsOf log key) T S → T = S ∨
    Precedes (depsOf log key) (isGate log) tips T S

/-- A dominating snapshot that is found after those above it is dequeued alone. -/
theorem FoundLast.dequeuedAlone (hacyclic : Acyclic (depsOf log key)) (hlast : FoundLast log key tips S)
    (hdominates : Dominates log key tips S) (hwalked : Bfs.Walked log key tips s)
    (hdequeue : s.dequeue = some (S, s')) : DequeuedAlone log key tips S := by
  obtain ⟨refs, done, hinv⟩ := hwalked.walkInv
  obtain ⟨hpending, -, -⟩ := dequeue_eq_some hdequeue
  have hall : ∀ t ∈ s.nodes, ¬ Standalone log t → Covers log key S t :=
    (hwalked.covers hdominates).resolve_left (fun hsettled => hsettled.2 (by simp [hpending]))
  have hnodup := hinv.pending_nodup
  rw [hpending] at hnodup
  refine ⟨s, s', hwalked, hdequeue, eq_nil_iff_forall_not_mem.mpr (fun t ht => ?_)⟩
  have htnodes : t ∈ s.nodes := hinv.pending_sub t (by simp [hpending, ht])
  obtain ⟨hgate, hlater⟩ := hwalked.not_precedes hdequeue hdominates.snapshot ht
  have habove := (hall t htnodes (not_standalone_of_isStateSnapshot hgate)).reach hacyclic
  obtain rfl | hearlier := hlast t (hinv.reach t htnodes) hgate habove
  · exact (nodup_cons.mp hnodup).1 ht
  · exact hlater hearlier

/-- A walk does not pass such a snapshot by. -/
theorem FoundLast.bfs_eq (hacyclic : Acyclic (depsOf log key)) (hlast : FoundLast log key tips S)
    (hdominates : Dominates log key tips S) (hwalked : Bfs.Walked log key tips s) (hS : S ∈ s.nodes)
    (hdone : S ∉ s.pending) : ∃ nodes, bfs log key tips = some (nodes, S) := by
  obtain ⟨s₀, s₁, hwalked₀, hdequeue⟩ := hwalked.dequeued hS hdone
  exact bfs_of_dequeuedAlone hdominates (hlast.dequeuedAlone hacyclic hdominates hwalked₀ hdequeue)

/-- A walk with one effect pending has collected all that does not lie below it. -/
theorem Bfs.Walked.mem_or_reach (hwalked : Bfs.Walked log key tips s) (hpending : s.pending = [S])
    (ht : InClosure log key tips t) : t ∈ s.nodes ∨ Reach (depsOf log key) S t := by
  obtain ⟨refs, done, hinv⟩ := hwalked.walkInv
  obtain ⟨u, hu, hreach⟩ := ht
  induction hreach with
  | refl => exact .inl (hinv.tips_mem u hu)
  | @tail x y _ hdep ih =>
    obtain hx | hbelow := ih
    · by_cases hxS : x = S
      · exact .inr (Reach.single (hxS ▸ hdep))
      · exact .inl (hinv.refs_sub y (hinv.expanded x hx (by simp [hpending, hxS]) y hdep))
    · exact .inr (hbelow.trans (Reach.single hdep))

theorem DequeuedAlone.foundLast (hacyclic : Acyclic (depsOf log key)) (hsnap : isGate log S = true)
    (halone : DequeuedAlone log key tips S) : FoundLast log key tips S := by
  obtain ⟨s, s', hwalked, hdequeue, hrest⟩ := halone
  obtain ⟨hpending, -, -⟩ := dequeue_eq_some hdequeue
  rw [hrest] at hpending
  intro T hT hgate habove
  by_cases heq : T = S
  · exact .inl heq
  · refine .inr (hwalked.precedes ?_ hgate (by simp [hpending, heq]) (by simp [hpending]) hsnap)
    exact (hwalked.mem_or_reach hpending hT).resolve_right fun hbelow => heq (hacyclic.antisymm habove hbelow)

theorem bfs_of_foundLast {lcaTip : Tip} (hacyclic : Acyclic (depsOf log key)) (hzero : zero ∉ log)
    (hbfs : bfs log key tips = some (nodes, lcaTip)) (hdominates : Dominates log key tips S)
    (hlast : FoundLast log key tips S) : lcaTip ≠ .zero := by
  obtain ⟨s, hwalked, rfl, ⟨hnone, -⟩ | ⟨s', -, hsnap, -⟩⟩ := bfs_eq_some_iff.mp hbfs
  · have hpending := dequeue_eq_none hnone
    obtain ⟨nodes, hends⟩ := hlast.bfs_eq hacyclic hdominates hwalked
      (hwalked.mem_of_inClosure hpending hdominates.below) (by simp [hpending])
    cases hbfs.symm.trans hends
    exact ne_zero_of_isGate hzero hdominates.snapshot
  · exact ne_zero_of_isGate hzero hsnap

/-- A walk that ends at a dominating snapshot followed all paths down to it, which is a root
then, or dequeued it alone. -/
theorem root_or_dequeuedAlone_of_bfs {lcaTip : Tip} (hbfs : bfs log key tips = some (nodes, lcaTip))
    (hne : lcaTip ≠ .zero) : (depsOf log key lcaTip = [] ∧ ∃ s, Bfs.Walked log key tips s ∧ s.pending = []) ∨
      DequeuedAlone log key tips lcaTip := by
  obtain ⟨s, hwalked, rfl, ⟨hnone, rfl⟩ | ⟨s', hdequeue, hsnap, hcard⟩⟩ := bfs_eq_some_iff.mp hbfs
  · obtain ⟨refs, done, hinv⟩ := hwalked.walkInv
    obtain ⟨hfrontier, -, -⟩ := (s.finalLca_cases log).resolve_left hne
    have hopen := ((hinv.mem_frontier (s.finalLca log)).mp (by rw [hfrontier]; simp)).2.1
    have hpending := dequeue_eq_none hnone
    exact .inl ⟨hopen.resolve_left (by simp [hpending]), s, hwalked, hpending⟩
  · obtain ⟨refs, done, hinv⟩ := hwalked.walkInv
    obtain ⟨hpending, -, -⟩ := dequeue_eq_some hdequeue
    have hnodup := hinv.pending_nodup
    rw [hpending] at hnodup
    -- Whatever is pending behind a state snapshot is one itself, and an open end.
    have hopen : ∀ t ∈ s.pending, isGate log t = true → t ∈ s.frontier := fun t ht hgate =>
      (hinv.mem_frontier t).mpr ⟨hinv.pending_sub t ht, .inl ht, .inl (not_standalone_of_isStateSnapshot hgate)⟩
    refine .inr ⟨s, s', hwalked, hdequeue, eq_nil_iff_forall_not_mem.mpr (fun t ht => ?_)⟩
    obtain ⟨hgate, -⟩ := hwalked.not_precedes hdequeue hsnap ht
    have heq : t = lcaTip := Finset.card_le_one.mp (le_of_eq hcard) t (hopen t (by simp [hpending, ht]) hgate) lcaTip
      (hopen lcaTip (by simp [hpending]) hsnap)
    exact (nodup_cons.mp hnodup).1 (heq ▸ ht)

/-- A snapshot that a walk can start from: it dominates the tips, and it is a root or is found
after every other state snapshot that leads to it. -/
def Cutoff (log : Log) (key : Bytes) (tips : List Tip) (S : Tip) : Prop :=
  Dominates log key tips S ∧ (depsOf log key S = [] ∨ FoundLast log key tips S)

theorem cutoff_of_bfs {lcaTip : Tip} (hacyclic : Acyclic (depsOf log key)) (hzero : zero ∉ log)
    (hbfs : bfs log key tips = some (nodes, lcaTip)) (hne : lcaTip ≠ .zero) : Cutoff log key tips lcaTip := by
  have hdominates := dominates_of_bfs hzero hbfs hne
  exact ⟨hdominates, (root_or_dequeuedAlone_of_bfs hbfs hne).imp And.left
    (DequeuedAlone.foundLast hacyclic hdominates.snapshot)⟩

theorem Cutoff.bfs_ne_zero {lcaTip : Tip} (hcutoff : Cutoff log key tips S) (hacyclic : Acyclic (depsOf log key))
    (hzero : zero ∉ log) (hbfs : bfs log key tips = some (nodes, lcaTip)) : lcaTip ≠ .zero := by
  obtain ⟨hdominates, hroot | hlast⟩ := hcutoff
  · exact bfs_of_root hzero hbfs hdominates hroot
  · exact bfs_of_foundLast hacyclic hzero hbfs hdominates hlast

/-- What some tips need to be walked: their own effects, and everything below them unless a
snapshot cuts the walk off. -/
def Walkable (log : Log) (key : Bytes) (tips : List Tip) : Prop :=
  (∀ t ∈ tips, t ∈ log) ∧ (Resident log key tips ∨ ∃ S, Cutoff log key tips S)

theorem not_standalone_of_not_mem (ht : t ∉ log) : ¬ Standalone log t := by
  simp [Standalone, Finmap.lookup_eq_none.mpr ht]

/-- No hole lies above a snapshot that dominates. -/
theorem Covers.mem_log (hcovers : Covers log key S t) (hS : S ∈ log) : t ∈ log := by
  by_contra hhole
  exact hhole (hcovers.eq_of_root (depsOf_eq_nil_of_not_mem key hhole) ▸ hS)

theorem Cutoff.bfs_isSome (hcutoff : Cutoff log key tips S) (hacyclic : Acyclic (depsOf log key))
    (htips : ∀ t ∈ tips, t ∈ log) : ∃ result, bfs log key tips = some result := by
  obtain ⟨hdominates, hroot | hlast⟩ := hcutoff
  · refine effects.bfs_isSome fun u hu t hut => ?_
    by_contra hhole
    have heq := hdominates.eq_of_root hroot (depsOf_eq_nil_of_not_mem key hhole) ⟨u, hu, hut⟩
      (not_standalone_of_not_mem hhole)
    exact hhole (heq ▸ mem_log_of_isGate hdominates.snapshot)
  · by_cases hfound : ∃ nodes, bfs log key tips = some (nodes, S)
    · obtain ⟨nodes, hbfs⟩ := hfound
      exact ⟨_, hbfs⟩
    · -- the walk stays above `S`
      refine bfs_isSome_of_walked htips fun s cur s' hwalked hdequeue d hd => ?_
      obtain ⟨refs, done, hinv⟩ := hwalked.walkInv
      have hcur : cur ∈ s.nodes := hinv.pending_sub cur (by simp [(dequeue_eq_some hdequeue).1])
      have hall := (hwalked.covers hdominates).resolve_left fun hsettled =>
        hfound (hlast.bfs_eq hacyclic hdominates hwalked hsettled.1 hsettled.2)
      have hne : cur ≠ S := fun heq => hfound
        (bfs_of_dequeuedAlone hdominates (hlast.dequeuedAlone hacyclic hdominates hwalked (heq ▸ hdequeue)))
      exact ((hall cur hcur (not_standalone_of_mem_depsOf hd)).of_dep hne hd).mem_log
        (mem_log_of_isGate hdominates.snapshot)

/-- A walk ends without meeting a hole exactly if its tips are walkable. -/
theorem bfs_isSome_iff_walkable (hacyclic : Acyclic (depsOf log key)) (hzero : zero ∉ log) :
    (bfs log key tips).isSome = true ↔ Walkable log key tips := by
  constructor
  · intro hsome
    obtain ⟨⟨nodes, lcaTip⟩, hbfs⟩ := Option.isSome_iff_exists.mp hsome
    have hcollected := bfs_collected hzero hbfs
    refine ⟨fun t ht => hcollected.resident t (hcollected.tips_mem t ht), ?_⟩
    by_cases hlca : lcaTip = .zero
    · refine .inl fun u hu t hut => hcollected.resident t ?_
      exact Reach.mem_of_closed (s := fun x => x ∈ nodes) (hcollected.complete hlca) (hcollected.tips_mem u hu) hut
    · exact .inr ⟨lcaTip, cutoff_of_bfs hacyclic hzero hbfs hlca⟩
  · rintro ⟨htips, hcut⟩
    have hends : ∃ result, bfs log key tips = some result := by
      obtain hresident | ⟨S, hcutoff⟩ := hcut
      · exact bfs_isSome hresident
      · exact hcutoff.bfs_isSome hacyclic htips
    exact Option.isSome_iff_exists.mpr hends

section Alone

variable {alone : List Tip} (halone : ∀ u ∈ alone, Standalone log u)
include halone

theorem not_reach_of_alone (hinner : ¬ Standalone log t) : ∀ u ∈ alone, ¬ Reach (depsOf log key) u t := by
  intro u hu hreach
  obtain rfl | ⟨d, hd, -⟩ := hreach.cases_head
  · exact hinner (halone u hu)
  · exact not_standalone_of_mem_depsOf hd (halone u hu)

theorem inClosure_append_iff (hinner : ¬ Standalone log t) :
    InClosure log key (alone ++ tips) t ↔ InClosure log key tips t := by
  constructor
  · rintro ⟨u, hu, hreach⟩
    obtain hu | hu := mem_append.mp hu
    · exact absurd hreach (not_reach_of_alone halone hinner u hu)
    · exact ⟨u, hu, hreach⟩
  · rintro ⟨u, hu, hreach⟩
    exact ⟨u, mem_append_right _ hu, hreach⟩

theorem cutoff_append_iff : Cutoff log key (alone ++ tips) S ↔ Cutoff log key tips S := by
  by_cases hsnap : isGate log S = true
  · have hinner := not_standalone_of_isStateSnapshot hsnap
    have hdominates : Dominates log key (alone ++ tips) S ↔ Dominates log key tips S := by
      refine ⟨fun h => ⟨h.snapshot, (inClosure_append_iff halone hinner).mp h.below, fun u hu => ?_⟩,
        fun h => ⟨h.snapshot, (inClosure_append_iff halone hinner).mpr h.below, fun u hu hdata => ?_⟩⟩
      · exact h.covers u (mem_append_right _ hu)
      · exact h.covers u ((mem_append.mp hu).resolve_left fun hu => hdata (halone u hu)) hdata
    refine and_congr hdominates (or_congr_right (forall_congr' fun T => ?_))
    by_cases hgate : isGate log T = true
    · have hT := not_standalone_of_isStateSnapshot hgate
      rw [inClosure_append_iff halone hT, precedes_append_iff (not_reach_of_alone halone hT)
        (not_reach_of_alone halone hinner)]
    · simp [hgate]
  · exact iff_of_false (fun h => hsnap h.1.snapshot) (fun h => hsnap h.1.snapshot)

/-- Standalone subscriptions in front of the tips do not decide whether a walk meets a hole. -/
theorem walkable_append_iff : Walkable log key (alone ++ tips) ↔ Walkable log key tips := by
  have hmem {u : Tip} (hu : u ∈ alone) : u ∈ log := by
    by_contra hhole
    exact not_standalone_of_not_mem hhole (halone u hu)
  have hresident : Resident log key (alone ++ tips) ↔ Resident log key tips := by
    refine ⟨fun h u hu => h u (mem_append_right _ hu), fun h u hu t hut => ?_⟩
    obtain hu | hu := mem_append.mp hu
    · obtain rfl | ⟨d, hd, -⟩ := hut.cases_head
      · exact hmem hu
      · exact absurd (halone u hu) (not_standalone_of_mem_depsOf hd)
    · exact h u hu t hut
  refine and_congr ⟨fun h t ht => h t (mem_append_right _ ht), fun h t ht => ?_⟩
    (or_congr hresident (exists_congr fun S => cutoff_append_iff halone))
  exact (mem_append.mp ht).elim hmem (h t)

end Alone

/-- A walk over resident effects ends at a snapshot that lies on every path exactly when one such
snapshot is a root, or is found after every other state snapshot that leads to it. -/
theorem bfs_finds_cutoff_iff {log : Log} {key : Bytes} {tips : List Tip} (hacyclic : Acyclic (depsOf log key))
    (hzero : zero ∉ log) (hresident : Resident log key tips) :
    (∃ nodes lcaTip, bfs log key tips = some (nodes, lcaTip) ∧ Dominates log key tips lcaTip) ↔
      ∃ S, Cutoff log key tips S := by
  constructor
  · rintro ⟨nodes, lcaTip, hbfs, hdominates⟩
    exact ⟨lcaTip, cutoff_of_bfs hacyclic hzero hbfs (ne_zero_of_isGate hzero hdominates.snapshot)⟩
  · rintro ⟨S, hcutoff⟩
    obtain ⟨⟨nodes, lcaTip⟩, hbfs⟩ := bfs_isSome hresident
    exact ⟨nodes, lcaTip, hbfs, dominates_of_bfs hzero hbfs (hcutoff.bfs_ne_zero hacyclic hzero hbfs)⟩

/-- A snapshot at offset 2, an effect on it, and a second chain that reaches it
through a snapshot of its own. -/
def overtakenLog : Log :=
  (((((∅ : Log).insert ⟨1, 1⟩ (plainEffect 1 [])).insert ⟨1, 2⟩ (stateSnapshotEffect 2 [⟨1, 1⟩])).insert
    ⟨1, 3⟩ (plainEffect 3 [⟨1, 2⟩])).insert ⟨2, 3⟩ (stateSnapshotEffect 4 [⟨1, 2⟩])).insert
    ⟨2, 4⟩ (plainEffect 5 [⟨2, 3⟩])

theorem resident_overtakenLog (htips : ∀ t ∈ tips, t ∈ overtakenLog.keys) : Resident overtakenLog [107] tips := by
  have hclosed : ∀ t ∈ overtakenLog.keys, ∀ d ∈ depsOf overtakenLog [107] t, d ∈ overtakenLog.keys := by decide
  exact fun u hu t hut => Finmap.mem_keys.mp (mem_log_of_inClosure hclosed htips ⟨u, hu, hut⟩)

theorem not_standalone_overtakenLog (ht : t ∈ overtakenLog.keys) : ¬ Standalone overtakenLog t := by
  have hdata : ∀ t ∈ overtakenLog.keys, (overtakenLog.lookup t).any isStandaloneSubscription = false := by decide
  simp [Standalone, hdata t ht]

theorem dominates_overtakenLog : Dominates overtakenLog [107] [⟨2, 4⟩, ⟨1, 3⟩] ⟨1, 2⟩ :=
  @dominates_of_bfs overtakenLog [107] _ [⟨2, 4⟩, ⟨1, 3⟩, ⟨2, 3⟩, ⟨1, 2⟩] _ (by decide) (by decide) (by decide)

theorem bfs_finds_cutoff_overtaken : (∃ nodes lcaTip, bfs overtakenLog [107] [⟨2, 4⟩, ⟨1, 3⟩] = some (nodes, lcaTip) ∧
        Dominates overtakenLog [107] [⟨2, 4⟩, ⟨1, 3⟩] lcaTip) ∧ ∃ S, Cutoff overtakenLog [107] [⟨2, 4⟩, ⟨1, 3⟩] S := by
  have htips : ∀ t ∈ [⟨2, 4⟩, ⟨1, 3⟩], t ∈ overtakenLog.keys := by decide
  have hfound : ∃ nodes lcaTip, bfs overtakenLog [107] [⟨2, 4⟩, ⟨1, 3⟩] = some (nodes, lcaTip) ∧
      Dominates overtakenLog [107] [⟨2, 4⟩, ⟨1, 3⟩] lcaTip :=
    ⟨[⟨2, 4⟩, ⟨1, 3⟩, ⟨2, 3⟩, ⟨1, 2⟩], ⟨1, 2⟩, by decide, dominates_overtakenLog⟩
  have hiff := bfs_finds_cutoff_iff (acyclic_of_offsets (by decide)) (by decide) (resident_overtakenLog htips)
  exact ⟨hfound, hiff.mp hfound⟩

/-- With the tips in the other order the short chain reaches the common snapshot
first. It is expanded while the other chain's snapshot is pending, and the
walk runs to the root without a snapshot to start from. -/
theorem bfs_expands_dominating_snapshot :
    Acyclic (depsOf overtakenLog [107]) ∧ Resident overtakenLog [107] [⟨1, 3⟩, ⟨2, 4⟩] ∧
      (∀ u ∈ [⟨1, 3⟩, ⟨2, 4⟩], ¬ Standalone overtakenLog u) ∧ Dominates overtakenLog [107] [⟨1, 3⟩, ⟨2, 4⟩] ⟨1, 2⟩ ∧
      bfs overtakenLog [107] [⟨1, 3⟩, ⟨2, 4⟩] = some ([⟨1, 3⟩, ⟨2, 4⟩, ⟨1, 2⟩, ⟨2, 3⟩, ⟨1, 1⟩], .zero) ∧
      bfs overtakenLog [107] [⟨2, 4⟩, ⟨1, 3⟩] = some ([⟨2, 4⟩, ⟨1, 3⟩, ⟨2, 3⟩, ⟨1, 2⟩], ⟨1, 2⟩) := by
  have htips : ∀ t ∈ [⟨1, 3⟩, ⟨2, 4⟩], t ∈ overtakenLog.keys := by decide
  refine ⟨acyclic_of_offsets (by decide), resident_overtakenLog htips,
    fun u hu => not_standalone_overtakenLog (htips u hu), ?_, by decide, by decide⟩
  obtain ⟨hsnap, ⟨u, hu, hreach⟩, hcovers⟩ := dominates_overtakenLog
  exact ⟨hsnap, ⟨u, by simpa [or_comm] using hu, hreach⟩, fun w hw => hcovers w (by simpa [or_comm] using hw)⟩

end swytch.effects
