import Swytch.Effects.Cluster.Arrival

open swytch.proto swytch.keytrie List AList

namespace swytch.effects

open ContextKey

variable {all all' : Log} {born born' : Tip → Nat} {ck : ContextKey} {eff : Effect} {nd : Node} {self : NodeID}
  {key : Bytes} {snapshotTips : Option (List Tip)} {ctx : Context} {rt : Runtime} {c : Nat} {kb : KeyBind}
  {bind : TransactionalBindEffect} {hlc : Timestamp}

/-- A context entry after an effect was added: the effect leads to what it was based on,
which has the history of the initial tips as far as earlier effects allow. -/
theorem chained_of_base {log : Log} {earlier : List Tip} (ht : log.lookup ck.lastOffset = some eff)
    (hbind : isBind eff = false) (hminted : ck.lastOffset ∈ all)
    (hinitial : ∀ t ∈ ck.initialTips.tips, t ∈ all ∧ born t < born ck.lastOffset)
    (hnotifies : ck.notifies = earlier ++ [ck.lastOffset]) (hbase : HistoryWithin log ck.initialTips.tips eff.deps)
    (hpure : ∀ other, Within log other → (∀ t ∈ earlier, InFlight other t) →
      SameHistory other eff.deps ck.initialTips.tips) : Chained all log born ck := by
  refine ⟨hminted, hinitial, hbase.trans (historyWithin_deps ht hbind), ?_⟩
  intro other hsub hflight
  rw [hnotifies] at hflight
  obtain ⟨eff', heff, -, htxn⟩ := inFlight_iff.mp (hflight ck.lastOffset (by simp))
  cases (hsub _ eff ht).symm.trans heff
  exact (sameHistory_deps heff hbind htxn).trans
    (hpure other hsub (fun t ht => hflight t (mem_append_left _ ht)))

@[simp] theorem ContextKey.track_initialTips (ck : ContextKey) (eff : Effect) :
    (ck.track eff).initialTips = ck.initialTips := by
  unfold track
  split <;> rfl

@[simp] theorem ContextKey.append_initialTips (ck : ContextKey) (inTx : Bool) (t : Tip) (eff : Effect) :
    (ck.append inTx t eff).initialTips = ck.initialTips := by
  unfold append
  dsimp only
  split
  · exact ck.track_initialTips eff
  · rfl

namespace Node

theorem Sound.mint (h : nd.Sound all born) (ht : all.lookup (nd.nextTip self) = some eff) :
    nd.Advances all born (nd.mint self eff) := by
  have hcached := h.cacheInsert ht
  exact ⟨⟨hcached.sound.cached, hcached.sound.indexed, hcached.sound.minted, hcached.sound.pending,
    hcached.sound.contexts⟩, hcached.keeps.cache, Nat.le_succ _, rfl, hcached.keeps.history⟩

/-- The tips of a first effect were written before. -/
theorem Sound.firstTips_mem (h : nd.Sound all born) {inTx : Bool}
    (hsupplied : snapshotTips.all (fun tips => tips.all (· ∈ all)) = true) :
    ∀ t ∈ (nd.firstTips inTx key snapshotTips).tips, t ∈ all := by
  have hbase : ∀ t ∈ (snapshotTips.elim (nd.tips key) newTipSet).tips, t ∈ all := by
    cases snapshotTips with
    | none => exact h.indexed key
    | some tips =>
      intro t ht
      have hmem := mem_newTipSet.mp ht
      simpa using all_eq_true.mp hsupplied t hmem
  intro t ht
  unfold Node.firstTips at ht
  dsimp only at ht
  split at ht
  · rcases mem_append.mp (mem_newTipSet.mp ht) with ht | ht
    · exact hbase t ht
    · exact h.indexed key t (mem_filter.mp ht).1
  · exact hbase t ht

theorem contextKey_of_some (nd : Node) (hck : ctx.keys.lookup key = some ck) :
    nd.contextKey ctx key snapshotTips = ck := by
  rw [contextKey, hck, Option.getD_some]

theorem contextKey_of_none (nd : Node) (hck : ctx.keys.lookup key = none) : nd.contextKey ctx key snapshotTips =
      { initialTips := nd.firstTips ctx.inTx key snapshotTips, lastOffset := .zero, readOnly := ctx.inTx } := by
  rw [contextKey, hck, Option.getD_none]

theorem deps_fill_of_some (rt : Runtime) (nd : Node) (self : NodeID) (hck : ctx.keys.lookup eff.key = some ck) :
    (nd.fill rt self ctx eff snapshotTips).deps = [ck.lastOffset] := by
  simp only [fill, hck]

theorem deps_fill_of_none (rt : Runtime) (nd : Node) (self : NodeID) (hck : ctx.keys.lookup eff.key = none) :
    (nd.fill rt self ctx eff snapshotTips).deps =
      resolveTipDeps nd.pendingTxTips (nd.firstTips ctx.inTx eff.key snapshotTips).tips := by
  simp only [fill, hck]

/-- The entry that `Emit` leaves for its key. -/
theorem Sound.chained_emit (h : nd.Sound all born) (hext : Extends all all' born born')
    (ht : all'.lookup (nd.nextTip self) = some (nd.fill rt self ctx eff snapshotTips))
    (hnew : ∀ t ∈ all, born' t < born' (nd.nextTip self)) (hctx : ctx.Sound all nd.effectCache born)
    (hbind : isBind eff = false) (hsupplied : snapshotTips.all (fun tips => tips.all (· ∈ all)) = true) :
    Chained all' (nd.mint self (nd.fill rt self ctx eff snapshotTips)).effectCache born'
      ((nd.contextKey ctx eff.key snapshotTips).append ctx.inTx (nd.nextTip self) eff) := by
  have hsub := ((h.mono hext).mint ht).keeps.cache
  have hlookup : (nd.mint self (nd.fill rt self ctx eff snapshotTips)).effectCache.lookup (nd.nextTip self) =
      some (nd.fill rt self ctx eff snapshotTips) := Finmap.lookup_insert _
  have hkind : isBind (nd.fill rt self ctx eff snapshotTips) = false := hbind
  apply chained_of_base hlookup hkind (mem_of_lookup ht)
  · intro t htip
    rw [append_initialTips] at htip
    have hall : t ∈ all := by
      cases hck : ctx.keys.lookup eff.key with
      | some ck =>
        rw [contextKey_of_some nd hck] at htip
        exact ((hctx.chained eff.key ck hck).initial t htip).1
      | none =>
        rw [contextKey_of_none nd hck] at htip
        exact h.firstTips_mem hsupplied t htip
    exact ⟨hext.mem hall, hnew t hall⟩
  · rfl
  · rw [append_initialTips]
    cases hck : ctx.keys.lookup eff.key with
    | some ck =>
      rw [contextKey_of_some nd hck, deps_fill_of_some rt nd self hck]
      exact (hctx.chained eff.key ck hck).covers.mono hsub
    | none =>
      rw [contextKey_of_none nd hck, deps_fill_of_none rt nd self hck]
      exact ((sameHistory_resolveTipDeps h.pending _).mono hsub).within
  · intro other hother hflight
    rw [append_initialTips]
    cases hck : ctx.keys.lookup eff.key with
    | some ck =>
      rw [contextKey_of_some nd hck] at hflight ⊢
      rw [deps_fill_of_some rt nd self hck]
      exact (hctx.chained eff.key ck hck).pure other (hsub.trans hother) hflight
    | none =>
      rw [contextKey_of_none nd hck, deps_fill_of_none rt nd self hck]
      exact ((sameHistory_resolveTipDeps h.pending _).mono (hsub.trans hother)).symm

theorem Sound.emit (h : nd.Sound all born) (hext : Extends all all' born born')
    (ht : all'.lookup (nd.nextTip self) = some (nd.fill rt self ctx eff snapshotTips))
    (hnew : ∀ t ∈ all, born' t < born' (nd.nextTip self)) (hctx : ctx.Sound all nd.effectCache born)
    (hidle : ctx.flush = .idle) (hbind : isBind eff = false)
    (hsupplied : snapshotTips.all (fun tips => tips.all (· ∈ all)) = true) :
    nd.Advances all' born' (nd.emit rt self c ctx eff snapshotTips) := by
  have hmint := (h.mono hext).mint ht
  refine hmint.trans (hmint.sound.setContext ⟨?_, by simp [hidle], by simp [hidle]⟩)
  intro key ck hck
  by_cases heq : key = eff.key
  · subst heq
    cases (lookup_insert _).symm.trans hck
    exact h.chained_emit hext ht hnew hctx hbind hsupplied
  · dsimp only at hck
    rw [lookup_insert_ne heq] at hck
    exact (hctx.chained key ck hck).mono hext hmint.keeps.cache

theorem Sound.flushNonTx (h : nd.Sound all born) (hctx : ctx.Sound all nd.effectCache born)
    (hidle : ctx.flush = .idle) (hck : ctx.keys.lookup key = some ck) :
    nd.Advances all born (nd.flushNonTx c ctx key ck) := by
  have hchained := hctx.chained key ck hck
  have hindex := h.updateIndex hchained.minted
    (hchained.covers nd.effectCache (Within.refl _) (keyDeps key) (plain_keyDeps key))
  refine hindex.trans (hindex.sound.setContext ⟨?_, by simp [hidle], by simp [hidle]⟩)
  intro k old hold
  by_cases heq : k = key
  · subst heq
    simp at hold
  · dsimp only at hold
    rw [lookup_erase_ne heq] at hold
    exact hctx.chained k old hold

/-- Publishing the data tips of a transaction: their stand-ins are the initial tips, and
that is right if the transaction has written all that lies between. -/
theorem Sound.publish (h : nd.Sound all born) (hctx : ctx.Sound all nd.effectCache born)
    (hpure : ∀ key ck, ctx.keys.lookup key = some ck → ∀ t ∈ ck.notifies, InFlight nd.effectCache t) :
    nd.Advances all born (nd.publish ctx) := by
  unfold Node.publish
  apply h.foldl (P := fun nd' => nd'.effectCache = nd.effectCache) rfl
  rintro nd' ⟨key, ck⟩ he hsound hcache
  have hck : ctx.keys.lookup key = some ck := mem_lookup_iff.mpr he
  have hchained := hctx.chained key ck hck
  refine ⟨?_, hcache⟩
  have hcovers : ∀ e, Below nd'.effectCache (keyDeps key) ck.initialTips.tips e →
      Below nd'.effectCache (keyDeps key) [ck.lastOffset] e := by
    rw [hcache]
    exact hchained.covers nd.effectCache (Within.refl _) (keyDeps key) (plain_keyDeps key)
  have hindex := hsound.updateIndex hchained.minted hcovers
  refine hindex.trans (hindex.sound.storePending hchained.minted (fun d hd => (hchained.initial d hd).1) ?_)
  intro _
  refine ⟨?_, fun d hd => (hchained.initial d hd).2⟩
  rw [show (nd'.updateIndex key ck.initialTips ck.lastOffset).effectCache = nd.effectCache from hcache]
  exact hchained.pure nd.effectCache (Within.refl _) (hpure key ck hck)

theorem mem_buildBind_iff :
    kb ∈ (nd.buildBind self ctx hlc).keys ↔ ∃ ck, ctx.keys.lookup kb.key = some ck ∧ kb.newTip = ck.lastOffset ∧
      kb.consumedTips = resolveTipDeps nd.pendingTxTips ck.initialTips.tips := by
  simp only [buildBind, mem_insertionSort, mem_map]
  constructor
  · rintro ⟨⟨key, ck⟩, he, rfl⟩
    exact ⟨ck, mem_lookup_iff.mpr he, rfl, rfl⟩
  · rintro ⟨ck, hck, hnew, hconsumed⟩
    refine ⟨⟨kb.key, ck⟩, mem_lookup_iff.mp hck, ?_⟩
    rw [← hnew, ← hconsumed]

theorem bindReady_buildBind
    (hkeys : ctx.keys.entries ≠ []) : BindReady ctx (nd.buildBind self ctx hlc) := by
  refine ⟨?_, ?_, ?_⟩
  · obtain ⟨⟨key, ck⟩, he⟩ := exists_mem_of_ne_nil _ hkeys
    have hmem : ⟨key, resolveTipDeps nd.pendingTxTips ck.initialTips.tips, ck.lastOffset⟩ ∈
        (nd.buildBind self ctx hlc).keys :=
      mem_buildBind_iff.mpr ⟨ck, mem_lookup_iff.mpr he, rfl, rfl⟩
    exact ne_nil_of_mem hmem
  · have hperm := (perm_insertionSort (fun a b : KeyBind => a.key ≤ b.key) (ctx.keys.entries.map fun e =>
      (⟨e.1, resolveTipDeps nd.pendingTxTips e.2.initialTips.tips, e.2.lastOffset⟩ : KeyBind))).map KeyBind.key
    refine hperm.nodup_iff.mpr ?_
    rw [map_map]
    exact ctx.keys.nodupKeys
  · intro kb hkb
    obtain ⟨ck, hck, hnew, -⟩ := mem_buildBind_iff.mp hkb
    exact ⟨ck, hck, hnew⟩

theorem find_key_of_nodup {keys : List KeyBind} (hnodup : (keys.map KeyBind.key).Nodup) (hkb : kb ∈ keys) :
    keys.find? (fun other => other.key = kb.key) = some kb := by
  induction keys with
  | nil => cases hkb
  | cons head keys ih =>
    obtain ⟨hhead, hnodup⟩ := nodup_cons.mp hnodup
    rcases mem_cons.mp hkb with rfl | hkb
    · simp
    · have hne : head.key ≠ kb.key := by
        intro heq
        exact hhead (heq ▸ mem_map_of_mem hkb)
      rw [find?_cons_of_neg (by simpa using hne)]
      exact ih hnodup hkb

theorem keyDeps_bindEffect {txnID : Bytes} (hready : BindReady ctx bind) (hkb : kb ∈ bind.keys) :
    keyDeps kb.key (bindEffect rt self txnID bind) = [kb.newTip] := by
  simp only [keyDeps, bindEffect, find_key_of_nodup hready.nodup hkb]
  rfl

theorem Sound.emitBind (h : nd.Sound all born) (hext : Extends all all' born born')
    (ht : all'.lookup (nd.nextTip self) = some (bindEffect rt self ctx.txnID bind))
    (hctx : ctx.Sound all nd.effectCache born) (hadmitted : ctx.flush = .admitted bind) :
    nd.Advances all' born' (nd.emitBind rt self c ctx bind) := by
  have hready := hctx.ready bind hadmitted
  have hmint := (h.mono hext).mint ht
  have hindex : (nd.mint self (bindEffect rt self ctx.txnID bind)).Advances all' born'
      ((nd.mint self (bindEffect rt self ctx.txnID bind)).indexBind (nd.nextTip self) bind) := by
    apply hmint.sound.foldl
      (P := fun nd' => nd'.effectCache.lookup (nd.nextTip self) = some (bindEffect rt self ctx.txnID bind))
    · exact Finmap.lookup_insert _
    · intro nd' kb hkb hsound hlookup
      refine ⟨hsound.updateIndex (mem_of_lookup ht) ?_, hlookup⟩
      rintro e ⟨hflight, u, hu, hreach⟩
      apply Below.head hlookup
      rw [keyDeps_bindEffect hready hkb]
      exact ⟨hflight, u, mem_newTipSet.mp hu, hreach⟩
  have hadvance := hmint.trans hindex
  refine hadvance.trans (hadvance.sound.setContext ⟨?_, fun _ => hctx.nonempty (by simp [hadmitted]), by simp⟩)
  intro key ck hck
  exact (hctx.chained key ck hck).mono hext hadvance.keeps.cache

end Node

end swytch.effects
