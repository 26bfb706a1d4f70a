import Swytch.Effects.Cluster.Local

open swytch.proto swytch.keytrie Function Option List
open Finmap hiding mem_singleton

namespace swytch.effects

open Node

/-- What a transaction has pending was all written by transactions. -/
def Node.unmixed (nd : Node) (ctx : Context) : Bool :=
  ctx.keys.entries.all fun e => e.2.notifies.all fun t => (nd.effectCache.lookup t).any (fun eff => ¬ isCommitted eff)

variable {rt : Runtime} {nd : Node} {ctx : Context} {s s' : Cluster} {n : NodeID} {c : Nat}
  {bind : TransactionalBindEffect} {sub : Node.SubStep} {flush : FlushTx} {eff : Effect}

/-- A call that has begun has keys, and a bind is admitted only as it was built. -/
theorem Context.Sound.flushMove {all log : Log} {born : Tip → Nat} {self : NodeID}
    (h : ctx.Sound all log born) (hmove : Node.FlushMove rt nd self ctx sub flush) :
    { ctx with flush := flush }.Sound all log born := by
  have hkeys : ctx.keys.entries ≠ [] := by
    by_cases hidle : ctx.flush = .idle
    · cases hmove <;> simp_all
    · exact h.nonempty hidle
  refine ⟨h.chained, fun _ => hkeys, ?_⟩
  intro bind hbind
  cases hmove with
  | unopposed =>
    cases hbind
    obtain ⟨hnonempty, hnodup, hentries⟩ := @bindReady_buildBind nd self ctx _ hkeys
    exact ⟨hnonempty, hnodup, hentries⟩
  | _ => cases hbind

namespace Cluster

def initial (subscriptions : NodeID → Finset Bytes) (peerSubscribers : NodeID → Map Bytes (List NodeID)) : Cluster :=
  { nodes := fun n => { subscriptions := subscriptions n, peerSubscribers := peerSubscribers n } }

/-- A transaction publishes no effect that its context wrote before it began. -/
def publishesUnmixed (s : Cluster) : Action → Bool
  | .flushTx n c .publish => (s.nodes n).contexts[c]?.all (s.nodes n).unmixed
  | _ => true

structure Sound (s : Cluster) : Prop where
  written : Written s.log s.born
  offsets : ∀ t ∈ s.log, t.offset ≤ (s.nodes t.nodeId).nextOff
  dated : ∀ t ∈ s.log, s.born t ≤ s.now
  nodes : ∀ n, (s.nodes n).Sound s.log s.born

structure Advances (s s' : Cluster) : Prop where
  sound : s'.Sound
  log : Within s.log s'.log
  keeps : ∀ n, (s.nodes n).Keeps (s'.nodes n)

theorem sound_initial (subscriptions : NodeID → Finset Bytes) (peerSubscribers : NodeID → Map Bytes (List NodeID)) :
    (initial subscriptions peerSubscribers).Sound := by
  have hnone : ∀ t, t ∉ (∅ : Log) := fun t => notMem_empty
  refine ⟨⟨?_, ?_⟩, ?_, ?_, ?_⟩
  · intro t eff ht
    exact absurd (mem_of_lookup ht) (hnone t)
  · intro t eff ht
    exact absurd (mem_of_lookup ht) (hnone t)
  · exact fun t ht => absurd ht (hnone t)
  · exact fun t ht => absurd ht (hnone t)
  · intro n
    refine ⟨Within.refl _, ?_, ?_, ?_, by simp [initial]⟩
    · intro key t ht
      simp [initial, tips, TipSet.mem_def, TipSet.empty] at ht
    · intro t deps ht
      simp [initial] at ht
    · intro t deps ht
      simp [initial] at ht

theorem Advances.refl (h : s.Sound) : s.Advances s :=
  ⟨h, Within.refl _, fun n => Node.Keeps.refl (s.nodes n)⟩

theorem Advances.trans {s'' : Cluster} (h : s.Advances s') (h' : s'.Advances s'') : s.Advances s'' :=
  ⟨h'.sound, h.log.trans h'.log, fun n => (h.keeps n).trans (h'.keeps n)⟩

theorem keeps_setNode (h : (s.nodes n).Keeps nd) (m : NodeID) : (s.nodes m).Keeps ((s.setNode n nd).nodes m) := by
  by_cases heq : m = n
  · subst heq
    simpa [setNode] using h
  · simpa [setNode, heq] using Node.Keeps.refl (s.nodes m)

/-- A step of one node that writes nothing. -/
theorem Sound.setNode (h : s.Sound) (hnd : (s.nodes n).Advances s.log s.born nd) : s.Advances (s.setNode n nd) := by
  have hkeeps := keeps_setNode hnd.keeps
  refine ⟨⟨h.written, ?_, h.dated, ?_⟩, Within.refl _, hkeeps⟩
  · intro t ht
    exact (h.offsets t ht).trans (hkeeps t.nodeId).nextOff
  · intro m
    by_cases heq : m = n
    · subst heq
      simpa [Cluster.setNode] using hnd.sound
    · simpa [Cluster.setNode, heq] using h.nodes m

theorem Sound.nextTip_fresh (h : s.Sound) (n : NodeID) : (s.nodes n).nextTip n ∉ s.log := by
  intro hmem
  have hle := h.offsets _ hmem
  simp only [nextTip] at hle
  omega

/-- An effect that is written now is younger than all others. -/
theorem Sound.extends_record (h : s.Sound) (n : NodeID) (eff : Effect) (nd : Node) :
    Extends s.log (s.record n eff nd).log s.born (s.record n eff nd).born := by
  have hfresh := h.nextTip_fresh n
  refine ⟨within_insert ?_, ?_⟩
  · intro old hold
    exact absurd (mem_of_lookup hold) hfresh
  · intro t ht
    apply update_of_ne
    rintro rfl
    exact hfresh ht

theorem Sound.born_record_lt (h : s.Sound) (n : NodeID) (eff : Effect) (nd : Node) {t : Tip} (ht : t ∈ s.log) :
    (s.record n eff nd).born t < (s.record n eff nd).born ((s.nodes n).nextTip n) := by
  rw [(h.extends_record n eff nd).born t ht]
  have hdate := h.dated t ht
  simp only [record, update_self]
  omega

/-- A step of one node that writes an effect over existing ones. -/
theorem Sound.record (h : s.Sound) (hdeps : ∀ d ∈ eff.deps, d ∈ s.log)
    (hkey : isBind eff = true → (keyBindOf eff eff.key).isSome = true) (hoff : (s.nodes n).nextOff < nd.nextOff)
    (hnd : (s.nodes n).Advances (s.record n eff nd).log (s.record n eff nd).born nd) :
    s.Advances (s.record n eff nd) := by
  have hext := h.extends_record n eff nd
  have hcases : ∀ t eff', (s.record n eff nd).log.lookup t = some eff' →
      (t = (s.nodes n).nextTip n ∧ eff' = eff) ∨ s.log.lookup t = some eff' := by
    intro t eff' ht
    by_cases heq : t = (s.nodes n).nextTip n
    · subst heq
      exact .inl ⟨rfl, (some.inj ((lookup_insert _).symm.trans ht)).symm⟩
    · exact .inr ((lookup_insert_of_ne _ heq).symm.trans ht)
  have hkeeps : ∀ m, (s.nodes m).Keeps ((s.record n eff nd).nodes m) := by
    intro m
    by_cases heq : m = n
    · subst heq
      simpa [Cluster.record] using hnd.keeps
    · simpa [Cluster.record, heq] using Node.Keeps.refl (s.nodes m)
  refine ⟨⟨⟨?_, ?_⟩, ?_, ?_, ?_⟩, hext.within, hkeeps⟩
  · intro t eff' ht d hd
    rcases hcases t eff' ht with ⟨rfl, rfl⟩ | hold
    · exact ⟨hext.mem (hdeps d hd), h.born_record_lt n eff' nd (hdeps d hd)⟩
    · obtain ⟨hmem, hborn⟩ := h.written.deps t eff' hold d hd
      rw [hext.born d hmem, hext.born t (mem_of_lookup hold)]
      exact ⟨hext.mem hmem, hborn⟩
  · intro t eff' ht
    rcases hcases t eff' ht with ⟨rfl, rfl⟩ | hold
    · exact hkey
    · exact h.written.bindKey t eff' hold
  · intro t ht
    obtain ⟨eff', heff⟩ := mem_iff.mp ht
    rcases hcases t eff' heff with ⟨rfl, -⟩ | hold
    · simp only [Cluster.record, nextTip, update_self]
      omega
    · exact (h.offsets t (mem_of_lookup hold)).trans (hkeeps t.nodeId).nextOff
  · intro t ht
    obtain ⟨eff', heff⟩ := mem_iff.mp ht
    rcases hcases t eff' heff with ⟨rfl, -⟩ | hold
    · simp [Cluster.record]
    · rw [hext.born t (mem_of_lookup hold)]
      exact (h.dated t (mem_of_lookup hold)).trans (Nat.le_succ _)
  · intro m
    by_cases heq : m = n
    · subst heq
      simpa [Cluster.record] using hnd.sound
    · have hother := (h.nodes m).mono hext
      simpa [Cluster.record, heq] using hother

theorem openContext_eq_some (h : s.openContext n c = some ctx) :
    (s.nodes n).contexts[c]? = some ctx ∧ ctx.flush = .idle := by
  obtain ⟨old, hold, hidle⟩ := bind_eq_some_iff.mp h
  split at hidle
  · rename_i hflush
    cases hidle
    exact ⟨hold, hflush⟩
  · cases hidle

theorem Sound.context (h : s.Sound) (hctx : (s.nodes n).contexts[c]? = some ctx) :
    ctx.Sound s.log (s.nodes n).effectCache s.born :=
  (h.nodes n).contexts ctx (mem_of_getElem? hctx)

theorem Sound.emit {snapshotTips : Option (List Tip)} (h : s.Sound)
    (hopen : s.openContext n c = some ctx) (hemit : s.emit rt n c ctx eff snapshotTips = some s') : s.Advances s' := by
  obtain ⟨hctx, hidle⟩ := openContext_eq_some hopen
  have hsound := h.context hctx
  unfold Cluster.emit at hemit
  dsimp only at hemit
  split at hemit
  · rename_i hguard
    obtain ⟨-, hkind, hsupplied⟩ := hguard
    have hbind : isBind eff = false := by simpa using hkind
    cases hemit
    apply h.record
    · intro d hd
      cases hck : ctx.keys.lookup eff.key with
      | some ck =>
        rw [deps_fill_of_some rt _ n hck, mem_singleton] at hd
        exact hd ▸ (hsound.chained eff.key ck hck).minted
      | none =>
        rw [deps_fill_of_none rt _ n hck] at hd
        obtain ⟨⟨t, ht, hreach⟩, -⟩ := mem_resolveTipDeps_iff.mp hd
        -- a stand-in names tips that were written before
        refine lib.Reach.mem_of_closed (s := { t | t ∈ s.log }) ?_ ((h.nodes n).firstTips_mem hsupplied t ht) hreach
        exact fun u _ v hv => ((h.nodes n).minted u _ (lookup_of_pendingDeps_ne_nil (ne_nil_of_mem hv))).2 v hv
    · intro hbound
      exact absurd (show isBind eff = true from hbound) (by simp [hbind])
    · exact Nat.lt_succ_self _
    · apply (h.nodes n).emit (h.extends_record n _ _)
      · exact lookup_insert _
      · exact fun t ht => h.born_record_lt n _ _ ht
      · exact hsound
      · exact hidle
      · exact hbind
      · exact hsupplied
  · cases hemit

theorem bindKey_bindEffect {txnID : Bytes} (hkeys : bind.keys ≠ []) :
    (keyBindOf (bindEffect rt n txnID bind) (bindEffect rt n txnID bind).key).isSome = true := by
  obtain ⟨kb, rest, heq⟩ := exists_cons_of_ne_nil hkeys
  simp [keyBindOf, bindEffect, heq]

theorem nextOff_emitBind (rt : Runtime) (nd : Node) (self : NodeID) (c : Nat) (ctx : Context)
    (bind : TransactionalBindEffect) : (nd.emitBind rt self c ctx bind).nextOff = nd.nextOff + 1 := by
  have hindex : ∀ (keys : List KeyBind) (t : Tip) (nd : Node),
      (keys.foldl (fun nd kb => nd.updateIndex kb.key (newTipSet [kb.newTip]) t) nd).nextOff = nd.nextOff := by
    intro keys t
    induction keys with
    | nil => exact fun _ => rfl
    | cons kb keys ih => exact fun nd => ih _
  exact hindex bind.keys _ _

section

variable (h : s.Sound) (hctx : (s.nodes n).contexts[c]? = some ctx)
include h hctx

theorem Sound.emitBind (hadmitted : ctx.flush = .admitted bind) :
    s.Advances (s.record n (bindEffect rt n ctx.txnID bind) ((s.nodes n).emitBind rt n c ctx bind)) := by
  have hsound := h.context hctx
  have hready := hsound.ready bind hadmitted
  apply h.record
  · intro d hd
    obtain ⟨kb, hkb, rfl⟩ := mem_map.mp hd
    obtain ⟨ck, hck, hnew⟩ := hready.entries kb hkb
    exact hnew ▸ (hsound.chained kb.key ck hck).minted
  · exact fun _ => bindKey_bindEffect hready.nonempty
  · rw [nextOff_emitBind]
    exact Nat.lt_succ_self _
  · exact (h.nodes n).emitBind (h.extends_record n _ _) (lookup_insert _) hsound hadmitted

theorem Sound.flushTx (hunmixed : s.publishesUnmixed (.flushTx n c sub) = true)
    (hmove : Node.FlushMove rt (s.nodes n) n ctx sub flush) :
    s.Advances (s.setNode n (((s.nodes n).applyStep ctx sub).setContext c { ctx with flush := flush })) := by
  have hsound := h.context hctx
  have happlied : (s.nodes n).Advances s.log s.born ((s.nodes n).applyStep ctx sub) := by
    cases sub with
    | publish =>
      apply (h.nodes n).publish hsound
      intro key ck hck t ht
      simp only [publishesUnmixed, hctx, all_some, unmixed] at hunmixed
      have hkey := all_eq_true.mp hunmixed ⟨key, ck⟩ (AList.mem_lookup_iff.mp hck)
      exact all_eq_true.mp hkey t ht
    | _ => exact Node.Advances.refl (h.nodes n)
  apply h.setNode
  refine happlied.trans (happlied.sound.setContext ?_)
  exact (hsound.flushMove hmove).mono ⟨Within.refl _, fun _ _ => rfl⟩ happlied.keeps.cache

theorem Sound.respond {m : NodeID} (hrespond : s.respond rt n c m ctx = some s') : s.Advances s' := by
  unfold Cluster.respond at hrespond
  split at hrespond
  · rename_i p subscribers responses hflush
    split at hrespond
    · rename_i hguard
      obtain ⟨eff, heff, hremote⟩ := bind_eq_some_iff.mp hrespond
      obtain ⟨⟨nd, nacks⟩, hhandled, rfl⟩ := map_eq_some_iff.mp hremote
      have hpeer := h.setNode ((h.nodes m).handleRemote h.written heff hhandled)
      have hsame : (s.setNode m nd).nodes n = s.nodes n := update_of_ne hguard.1.symm _ _
      refine hpeer.trans (hpeer.sound.setNode ?_)
      rw [hsame]
      refine (h.nodes n).setContext ⟨(h.context hctx).chained, fun _ => ?_, by simp⟩
      exact (h.context hctx).nonempty (by simp [hflush])
    · cases hrespond
  · cases hrespond

end

/-- Every step keeps the cluster sound and what lies below the tips of every key, if
transactions publish only what they wrote. -/
theorem Sound.step {a : Action} (h : s.Sound) (hunmixed : s.publishesUnmixed a = true)
    (hstep : s.step rt a = some s') : s.Advances s' := by
  cases a with
  | newContext n =>
    cases hstep
    apply h.setNode
    apply (h.nodes n).withContexts
    intro ctx hctx
    rcases mem_append.mp hctx with hctx | hctx
    · exact (h.nodes n).contexts ctx hctx
    · rw [mem_singleton.mp hctx]
      exact ⟨by simp, by simp, by simp⟩
  | beginTx n c txnID =>
    obtain ⟨ctx, hopen, hbegin⟩ := bind_eq_some_iff.mp hstep
    obtain ⟨hctx, hidle⟩ := openContext_eq_some hopen
    split at hbegin
    · cases hbegin
      have hbegun : { ctx with inTx := true, txnID := txnID }.Sound s.log (s.nodes n).effectCache s.born :=
        ⟨(h.context hctx).chained, by simp [hidle], by simp [hidle]⟩
      have hset := h.setNode ((h.nodes n).setContext (c := c) hbegun)
      exact ⟨⟨hset.sound.written, hset.sound.offsets, hset.sound.dated, hset.sound.nodes⟩, hset.log, hset.keeps⟩
    · cases hbegin
  | emit n c eff snapshotTips =>
    obtain ⟨ctx, hopen, hemit⟩ := bind_eq_some_iff.mp hstep
    exact h.emit hopen hemit
  | emitSnapshot n c key verdicts hlc =>
    obtain ⟨ctx, hopen, hemit⟩ := bind_eq_some_iff.mp hstep
    split at hemit
    · cases hemit
    · exact h.emit hopen hemit
  | flushNonTx n c key =>
    obtain ⟨ctx, hopen, hflush⟩ := bind_eq_some_iff.mp hstep
    obtain ⟨hctx, hidle⟩ := openContext_eq_some hopen
    split at hflush
    · cases hflush
    · obtain ⟨ck, hck, rfl⟩ := map_eq_some_iff.mp hflush
      exact h.setNode ((h.nodes n).flushNonTx (h.context hctx) hidle hck)
  | flushTx n c sub =>
    obtain ⟨ctx, hctx, hflush⟩ := bind_eq_some_iff.mp hstep
    obtain ⟨flush, hmove, rfl⟩ := map_eq_some_iff.mp hflush
    exact h.flushTx hctx hunmixed (flushMove_of_flushStep hmove)
  | emitBind n c =>
    obtain ⟨ctx, hctx, hbind⟩ := bind_eq_some_iff.mp hstep
    split at hbind
    · rename_i bind hadmitted
      cases hbind
      exact h.emitBind hctx hadmitted
    · cases hbind
  | respond n c m =>
    obtain ⟨ctx, hctx, hrespond⟩ := bind_eq_some_iff.mp hstep
    exact h.respond hctx hrespond
  | deliver n t =>
    obtain ⟨eff, heff, hremote⟩ := bind_eq_some_iff.mp hstep
    obtain ⟨⟨nd, nacks⟩, hhandled, rfl⟩ := map_eq_some_iff.mp hremote
    exact h.setNode ((h.nodes n).handleRemote h.written heff hhandled)
  | backfill n t =>
    obtain ⟨eff, heff, rfl⟩ := map_eq_some_iff.mp hstep
    exact h.setNode ((h.nodes n).handleBackfill rt h.written heff)
  | fetch n t =>
    obtain ⟨eff, heff, rfl⟩ := map_eq_some_iff.mp hstep
    exact h.setNode ((h.nodes n).cacheInsert heff)
  | installTips n key tips =>
    simp only [Cluster.step] at hstep
    split at hstep
    · rename_i htips
      cases hstep
      apply h.setNode
      apply (h.nodes n).installTips
      intro t ht
      simpa using all_eq_true.mp htips t ht
    · cases hstep
  | release n t =>
    cases hstep
    exact h.setNode ((h.nodes n).releasePending t)

end Cluster

end swytch.effects
