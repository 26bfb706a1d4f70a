import Swytch.Effects.Cluster.Step

open swytch.lib swytch.proto swytch.keytrie

namespace swytch.effects

namespace Cluster

/-- A run of the cluster whose steps all meet a condition. -/
abbrev Run (rt : Runtime) (ok : Cluster → Action → Prop) : Cluster → Cluster → Prop :=
  lib.Run (step rt) ok

theorem Sound.run {rt : Runtime} {s s' : Cluster} (h : s.Sound)
    (hrun : Run rt (fun s a => s.publishesUnmixed a = true) s s') : s.Advances s' := by
  apply lib.Run.invariant hrun (Advances.refl h)
  intro t a t' ht hok hstep
  exact ht.trans (ht.sound.step hok hstep)

/-- No update is lost from the index: in every run in which transactions publish only
what they wrote, a non-transactional effect or a bind that is indexed on a key stays
reachable from the tips of the key. -/
theorem indexed_stays_reachable {rt : Runtime} {subscriptions : NodeID → Finset Bytes}
    {peerSubscribers : NodeID → Map Bytes (List NodeID)} {s s' : Cluster}
    (hrun : Run rt (fun s a => s.publishesUnmixed a = true) (initial subscriptions peerSubscribers) s)
    (hlater : Run rt (fun s a => s.publishesUnmixed a = true) s s') {n : NodeID} {key : Bytes} {t : Tip} {eff : Effect}
    (ht : t ∈ (s.nodes n).tips key) (heff : s.log.lookup t = some eff) (hcommitted : isCommitted eff = true) :
    ∃ u ∈ (s'.nodes n).tips key, Reach (depsOf (s'.nodes n).effectCache key) u t := by
  have hsound := ((sound_initial subscriptions peerSubscribers).run hrun).sound
  have hadvance := hsound.run hlater
  have hflight : ∀ log, Within log s'.log → ¬ InFlight log t := by
    intro log hsub hflight
    obtain ⟨other, hother, hbind, htxn⟩ := inFlight_iff.mp hflight
    cases (hadvance.log t eff heff).symm.trans (hsub t other hother)
    simp [isCommitted, hbind, htxn] at hcommitted
  have hnow : Below (s.nodes n).effectCache (keyDeps key) ((s.nodes n).tips key).tips t :=
    ⟨hflight _ ((hsound.nodes n).cached.trans hadvance.log), t, ht, Reach.refl t⟩
  obtain ⟨-, u, hu, hreach⟩ := (hadvance.keeps n).history key t (hflight _ (hadvance.sound.nodes n).cached) hnow
  exact ⟨u, hu, hreach⟩

/-- The effects below the tips of a key, by a walk. -/
def covered (s : Cluster) (n : NodeID) (key : Bytes) : List Tip :=
  let log := (s.nodes n).effectCache
  walkFrom .lifo (depsOf log key) log.keys ((s.nodes n).tips key).tips []

theorem mem_covered_iff {s : Cluster} {n : NodeID} {key : Bytes} {t : Tip} :
    t ∈ s.covered n key ↔ ∃ u ∈ (s.nodes n).tips key, Reach (depsOf (s.nodes n).effectCache key) u t := by
  have hinner : ∀ u, depsOf (s.nodes n).effectCache key u ≠ [] → u ∈ (s.nodes n).effectCache.keys := by
    intro u hu
    by_contra hnot
    exact hu (depsOf_eq_nil_of_not_mem key (fun hmem => hnot (Finmap.mem_keys.mpr hmem)))
  rw [covered, mem_walkFrom_iff hinner (by simp)]
  simp [TipSet.mem_def]

def scalarWrite (hlc : Int) : Effect :=
  { key := [107], hlc := some hlc, kind := .data { op := .insertOp } }

/-- Node 1 alone, with one key. -/
def oneNode : Cluster :=
  initial (fun _ => {[107]}) (fun _ => ∅)

/-- Three contexts, the first of which has flushed a write. -/
def firstWrite : List Action :=
  [.newContext 1, .newContext 1, .newContext 1, .emit 1 0 (scalarWrite 1) none, .flushNonTx 1 0 [107]]

/-- A write over a transaction in progress takes the base of the transaction with it. -/
theorem indexed_stays_reachable_over_transaction :
    ∃ s s' : Cluster, ⟨1, 1⟩ ∈ (s.nodes 1).tips [107] ∧ ((s'.nodes 1).tips [107]).tips = [⟨1, 3⟩] ∧
      ∃ u ∈ (s'.nodes 1).tips [107], Reach (depsOf (s'.nodes 1).effectCache [107]) u ⟨1, 1⟩ := by
  let ok : Cluster → Action → Prop := fun s a => s.publishesUnmixed a = true
  let overTransaction : List Action :=
    [.beginTx 1 1 [11], .emit 1 1 (scalarWrite 2) none, .flushTx 1 1 .preflight, .flushTx 1 1 .publish,
      .emit 1 2 (scalarWrite 3) none, .flushNonTx 1 2 [107]]
  obtain ⟨s, hrun, ht, hlog, hperform⟩ := @exists_run_of_perform _ _ (step idleRuntime) ok _
    (fun s => ⟨1, 1⟩ ∈ (s.nodes 1).tips [107] ∧ (s.log.lookup ⟨1, 1⟩).any isCommitted = true ∧
      (perform (step idleRuntime) ok overTransaction s).any
        (fun s' => ((s'.nodes 1).tips [107]).tips = [⟨1, 3⟩]) = true)
    _ firstWrite oneNode (by decide)
  obtain ⟨s', hlater, htips⟩ := exists_run_of_perform hperform
  obtain ⟨eff, heff, hcommitted⟩ := (Option.any_eq_true _ _).mp hlog
  exact ⟨s, s', ht, htips, indexed_stays_reachable hrun hlater ht heff hcommitted⟩

/-- A context writes, begins a transaction and writes again. The stand-in of the second
write skips the first one, so that a write of another context on top of the second
does not lead to the first one, which was indexed on its own in between. -/
theorem indexed_write_is_lost :
    ∃ s s' : Cluster, Run idleRuntime (fun _ _ => True) oneNode s ∧ Run idleRuntime (fun _ _ => True) s s' ∧
      ⟨1, 2⟩ ∈ (s.nodes 1).tips [107] ∧ (s.log.lookup ⟨1, 2⟩).any (fun eff => eff.txnId = []) = true ∧
      ¬ ∃ u ∈ (s'.nodes 1).tips [107], Reach (depsOf (s'.nodes 1).effectCache [107]) u ⟨1, 2⟩ := by
  let mixed : List Action :=
    [.emit 1 1 (scalarWrite 2) none, .beginTx 1 1 [11], .emit 1 1 (scalarWrite 3) none, .flushTx 1 1 .preflight,
      .flushTx 1 1 .publish, .emit 1 2 (scalarWrite 4) none, .backfill 1 ⟨1, 2⟩]
  let rest : List Action := [.backfill 1 ⟨1, 3⟩, .flushNonTx 1 2 [107]]
  obtain ⟨s, hrun, ht, hplain, hperform⟩ := @exists_run_of_perform _ _ (step idleRuntime) (fun _ _ => True) _
    (fun s => ⟨1, 2⟩ ∈ (s.nodes 1).tips [107] ∧ (s.log.lookup ⟨1, 2⟩).any (fun eff => eff.txnId = []) = true ∧
      (perform (step idleRuntime) (fun _ _ => True) rest s).any (fun s' => ⟨1, 2⟩ ∉ s'.covered 1 [107]) = true)
    _ (firstWrite ++ mixed) oneNode (by decide)
  obtain ⟨s', hlater, hlost⟩ := exists_run_of_perform hperform
  exact ⟨s, s', hrun, hlater, ht, hplain, fun hreach => hlost (mem_covered_iff.mpr hreach)⟩

def dependsOn (s : Cluster) (t d : Tip) : Prop := ∃ eff, s.log.lookup t = some eff ∧ d ∈ eff.deps

/-- Effects are shared: in every run in which transactions publish only what they wrote, no two
nodes ever hold different effects at one position, every tip in an index and every dependency
was written, and no effect depends on itself. -/
theorem effects_agree {rt : Runtime} {subscriptions : NodeID → Finset Bytes}
    {peerSubscribers : NodeID → Map Bytes (List NodeID)} {s s' : Cluster}
    (hrun : Run rt (fun s a => s.publishesUnmixed a = true) (initial subscriptions peerSubscribers) s)
    (hlater : Run rt (fun s a => s.publishesUnmixed a = true) s s') :
    (∀ n t eff, (s.nodes n).effectCache.lookup t = some eff →
      ∀ m eff', (s'.nodes m).effectCache.lookup t = some eff' → eff' = eff) ∧
    (∀ n key, ∀ t ∈ (s.nodes n).tips key, t ∈ s.log) ∧ (∀ t d, s.dependsOn t d → d ∈ s.log) ∧
      ∀ t, ¬ Relation.TransGen s.dependsOn t t := by
  have hsound := ((sound_initial subscriptions peerSubscribers).run hrun).sound
  have hadvance := hsound.run hlater
  have hborn : ∀ {t d}, s.dependsOn t d → d ∈ s.log ∧ s.born d < s.born t := by
    rintro t d ⟨eff, heff, hd⟩
    exact hsound.written.deps t eff heff d hd
  have hearlier : ∀ {t d}, Relation.TransGen s.dependsOn t d → s.born d < s.born t := by
    intro t d hpath
    induction hpath with
    | single hd => exact (hborn hd).2
    | tail _ hd ih => exact (hborn hd).2.trans ih
  refine ⟨fun n t eff heff m eff' heff' => ?_, fun n => (hsound.nodes n).indexed, fun t d hd => (hborn hd).1,
    fun t hcycle => lt_irrefl _ (hearlier hcycle)⟩
  have hwritten := hadvance.log t eff ((hsound.nodes n).cached t eff heff)
  exact Option.some.inj (((hadvance.sound.nodes m).cached t eff' heff').symm.trans hwritten)

/-- Node 2 receives the write of node 1 and writes over it: it holds what node 1 wrote, and its
own write depends on that one and on nothing that leads back. -/
theorem effects_agree_after_delivery : ∃ s s' : Cluster,
    ((s.nodes 1).effectCache.lookup ⟨1, 1⟩).isSome ∧ ((s'.nodes 2).tips [107]).tips = [⟨2, 1⟩] ∧
      s'.dependsOn ⟨2, 1⟩ ⟨1, 1⟩ ∧ (s'.nodes 2).effectCache.lookup ⟨1, 1⟩ = (s.nodes 1).effectCache.lookup ⟨1, 1⟩ ∧
      ∀ t, ¬ Relation.TransGen s'.dependsOn t t := by
  let ok : Cluster → Action → Prop := fun s a => s.publishesUnmixed a = true
  let delivered : List Action :=
    [.deliver 2 ⟨1, 1⟩, .newContext 2, .emit 2 0 (scalarWrite 2) none, .flushNonTx 2 0 [107]]
  obtain ⟨s, hrun, hheld, hperform⟩ := @exists_run_of_perform _ _ (step idleRuntime) ok _
    (fun s => ((s.nodes 1).effectCache.lookup ⟨1, 1⟩).isSome = true ∧
      (perform (step idleRuntime) ok delivered s).any (fun s' => ((s'.nodes 2).tips [107]).tips = [⟨2, 1⟩] ∧
        ((s'.nodes 2).effectCache.lookup ⟨1, 1⟩).isSome ∧
        (s'.log.lookup ⟨2, 1⟩).any (fun eff => ⟨1, 1⟩ ∈ eff.deps)) = true)
    _ firstWrite oneNode (by decide)
  obtain ⟨s', hlater, htips, hheld', hdeps⟩ := exists_run_of_perform hperform
  obtain ⟨eff, heff⟩ := Option.isSome_iff_exists.mp hheld
  obtain ⟨eff', heff'⟩ := Option.isSome_iff_exists.mp hheld'
  obtain ⟨write, hwrite, hdep⟩ := (Option.any_eq_true _ _).mp hdeps
  have hagree := (effects_agree hrun hlater).1 1 ⟨1, 1⟩ eff heff 2 eff' heff'
  have hwhole : Run idleRuntime ok oneNode s' := lib.Run.invariant hlater hrun (fun h hok hstep => .next h hok hstep)
  refine ⟨s, s', hheld, htips, ⟨write, hwrite, by simpa using hdep⟩, ?_, (effects_agree hwhole .start).2.2.2⟩
  rw [heff, heff', hagree]

end Cluster

end swytch.effects
