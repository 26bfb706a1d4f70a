import Swytch.Effects.Cluster.Node

open swytch.proto swytch.keytrie Finmap

namespace swytch.effects

/-- Every effect was written after its dependencies, and a bind is filed under one of
its own keys. -/
structure Written (all : Log) (born : Tip → Nat) : Prop where
  deps : ∀ t eff, all.lookup t = some eff → ∀ d ∈ eff.deps, d ∈ all ∧ born d < born t
  bindKey : ∀ t eff, all.lookup t = some eff → isBind eff = true → (keyBindOf eff eff.key).isSome = true

/-- The history of an effect includes what it leads to. -/
theorem Below.head {log : Log} {f : Effect → List Tip} {t e : Tip} {eff : Effect} (ht : log.lookup t = some eff)
    (h : Below log f (f eff) e) : Below log f [t] e := by
  obtain ⟨hflight, d, hd, hreach⟩ := h
  exact ⟨hflight, t, List.mem_singleton_self t, lib.Reach.head ((mem_below ht).mpr hd) hreach⟩

variable {all : Log} {born : Tip → Nat} {nd nd' : Node} {t : Tip} {eff : Effect} {nacks : List NackNotify}
  {self : NodeID} {rt : Runtime}

theorem Context.Sound.abortNamed {log : Log} {ctx : Context} (h : ctx.Sound all log born) (aborted : List Tip) :
    (ctx.abortNamed aborted).Sound all log born := by
  unfold Context.abortNamed
  split
  · rename_i hnamed
    refine ⟨h.chained, fun _ => h.nonempty ?_, by simp⟩
    intro hidle
    simp [hidle, FlushTx.pendingTxn] at hnamed
  · exact h

namespace Node

/-- A loop over steps that keep a node sound keeps it sound, given what they keep too. -/
theorem Sound.foldl {β : Type} {f : Node → β → Node} {P : Node → Prop} {l : List β} (h : nd.Sound all born)
    (hP : P nd) (hf : ∀ nd, ∀ b ∈ l, nd.Sound all born → P nd → nd.Advances all born (f nd b) ∧ P (f nd b)) :
    nd.Advances all born (l.foldl f nd) := by
  induction l generalizing nd with
  | nil => exact Advances.refl h
  | cons b l ih =>
    obtain ⟨hstep, hkept⟩ := hf nd b List.mem_cons_self h hP
    exact hstep.trans (ih hstep.sound hkept (fun nd b hb => hf nd b (List.mem_cons_of_mem _ hb)))

theorem Sound.releaseAll (h : nd.Sound all born) (tips : List Tip) :
    nd.Advances all born (tips.foldl Node.releasePending nd) :=
  h.foldl (P := fun _ => True) trivial fun _ t _ hnd _ => ⟨hnd.releasePending t, trivial⟩

theorem Sound.ingest (hwritten : Written all born) (h : nd.Sound all born) (ht : all.lookup t = some eff) :
    nd.Advances all born (nd.ingest t eff) := by
  have hcached := h.cacheInsert ht
  unfold Node.ingest
  dsimp only
  split
  · rename_i hkind
    have hbind : isBind eff = false := by simpa using hkind.2
    refine hcached.trans (hcached.sound.storePending (mem_of_lookup ht) ?_ ?_)
    · exact fun d hd => (hwritten.deps t eff ht d hd).1
    · intro _
      refine ⟨sameHistory_deps (lookup_insert _) hbind hkind.1, ?_⟩
      exact fun d hd => (hwritten.deps t eff ht d hd).2
  · exact hcached

theorem arrivalDeps_eq_keyDeps (hkey : isBind eff = true → (keyBindOf eff eff.key).isSome = true) :
    arrivalDeps eff = keyDeps eff.key eff := by
  unfold arrivalDeps keyDeps isBind keyBindOf at *
  cases hkind : eff.kind with
  | txnBind b =>
    obtain ⟨kb, hkb⟩ := Option.isSome_iff_exists.mp (hkey (by rw [hkind]))
    simp only [hkind] at hkb ⊢
    rw [hkb]
    rfl
  | _ => rfl

theorem Sound.indexArrival (hwritten : Written all born) (h : nd.Sound all born)
    (ht : nd.effectCache.lookup t = some eff) : nd.Advances all born (nd.indexArrival t eff) := by
  have hall := h.cached t eff ht
  have hown : nd.Advances all born
      (if eff.key ∈ nd.subscriptions then nd.updateIndex eff.key (newTipSet (arrivalDeps eff)) t else nd) := by
    split
    · apply h.updateIndex (mem_of_lookup hall)
      rintro e ⟨hflight, d, hd, hreach⟩
      apply Below.head ht
      rw [← arrivalDeps_eq_keyDeps (hwritten.bindKey t eff hall)]
      exact ⟨hflight, d, mem_newTipSet.mp hd, hreach⟩
    · exact Advances.refl h
  unfold Node.indexArrival
  dsimp only
  refine hown.trans (hown.sound.foldl (P := fun _ => True) trivial ?_)
  intro nd' kb _ hnd _
  split
  · refine ⟨hnd.updateIndex (mem_of_lookup hall) ?_, trivial⟩
    rintro e ⟨-, d, hd, -⟩
    cases hd
  · exact ⟨Advances.refl hnd, trivial⟩

theorem effectCache_handleRemoteBind (nd : Node) (t : Tip) (bind : TransactionalBindEffect) :
    (nd.handleRemoteBind t bind).effectCache = nd.effectCache :=
  effectCache_releaseAll bind.abortDeps nd

theorem Sound.handleRemoteBind (h : nd.Sound all born) (t : Tip) (bind : TransactionalBindEffect) :
    nd.Advances all born (nd.handleRemoteBind t bind) := by
  have hfreed := h.releaseAll bind.abortDeps
  have hcontexts : ∀ ctx ∈ (bind.abortDeps.foldl Node.releasePending nd).contexts.map
      (Context.abortNamed bind.abortDeps),
      ctx.Sound all (bind.abortDeps.foldl Node.releasePending nd).effectCache born := by
    intro ctx hctx
    obtain ⟨old, hold, rfl⟩ := List.mem_map.mp hctx
    exact (hfreed.sound.contexts old hold).abortNamed _
  have haborted := hfreed.trans (hfreed.sound.withContexts hcontexts)
  exact ⟨⟨haborted.sound.cached, haborted.sound.indexed, haborted.sound.minted, haborted.sound.pending,
    haborted.sound.contexts⟩, haborted.keeps.cache, haborted.keeps.nextOff, haborted.keeps.subscriptions,
    haborted.keeps.history⟩

/-- What `HandleRemote` leaves: the effect is refused, or it is cached and indexed. -/
theorem handleRemote_cases (h : nd.handleRemote rt self t eff = some (nd', nacks)) :
    (nd.authoritative eff = false ∧ nd' = nd) ∨ (∃ bind, bindOf eff = some bind ∧
        nd' = ((nd.ingest t eff).handleRemoteBind t bind).indexArrival t eff ∧ nacks = nd'.bindNacks rt t bind) ∨
      (bindOf eff = none ∧ nd' = ((nd.ingest t eff).indexArrival t eff).subscribePeer self eff) := by
  unfold handleRemote at h
  split at h
  · rename_i hrefused
    cases h
    exact .inl ⟨by simpa using hrefused, rfl⟩
  · split at h
    · cases h
    · split at h
      · rename_i bind hbind
        cases h
        exact .inr (.inl ⟨bind, hbind, rfl, rfl⟩)
      · rename_i hbind
        cases h
        exact .inr (.inr ⟨hbind, rfl⟩)

theorem Advances.subscribePeer (h : nd.Advances all born nd') (self : NodeID) (eff : Effect) :
    nd.Advances all born (nd'.subscribePeer self eff) := by
  have hwith : ∀ peers, nd.Advances all born { nd' with peerSubscribers := peers } := by
    intro peers
    exact ⟨⟨h.sound.cached, h.sound.indexed, h.sound.minted, h.sound.pending, h.sound.contexts⟩,
      h.keeps.cache, h.keeps.nextOff, h.keeps.subscriptions, h.keeps.history⟩
  unfold Node.subscribePeer
  split
  · dsimp only
    split
    · exact h
    · split
      · exact hwith _
      · split
        · exact h
        · exact hwith _
  · exact h

theorem Sound.handleRemote (hwritten : Written all born) (h : nd.Sound all born)
    (ht : all.lookup t = some eff) (hremote : nd.handleRemote rt self t eff = some (nd', nacks)) :
    nd.Advances all born nd' := by
  have hingest := h.ingest hwritten ht
  rcases handleRemote_cases hremote with ⟨-, rfl⟩ | ⟨bind, -, rfl, -⟩ | ⟨-, rfl⟩
  · exact Advances.refl h
  · have hbind := hingest.trans (hingest.sound.handleRemoteBind t bind)
    refine hbind.trans (hbind.sound.indexArrival hwritten ?_)
    rw [effectCache_handleRemoteBind, effectCache_ingest, lookup_insert]
  · refine (hingest.trans (hingest.sound.indexArrival hwritten ?_)).subscribePeer self eff
    rw [effectCache_ingest, lookup_insert]

theorem Sound.handleBackfill (rt : Runtime) (hwritten : Written all born) (h : nd.Sound all born)
    (ht : all.lookup t = some eff) : nd.Advances all born (nd.handleBackfill rt t eff) := by
  unfold Node.handleBackfill
  split
  · exact Advances.refl h
  · have hingest := h.ingest hwritten ht
    have hfreed := hingest.trans (hingest.sound.releaseAll ((keyBinds eff).map KeyBind.newTip))
    refine hfreed.trans (hfreed.sound.indexArrival hwritten ?_)
    rw [effectCache_releaseAll, effectCache_ingest, lookup_insert]

end Node

end swytch.effects
