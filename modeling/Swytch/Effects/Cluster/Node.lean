import Swytch.Effects.Cluster
import Swytch.Effects.Cluster.Substitute

open swytch.proto swytch.keytrie Finmap

namespace swytch.effects

open Within

/-- The pending effects of a context on a key, above the tips they started from. `all`
is the log of the cluster and `log` what the node holds of it. -/
structure Chained (all log : Log) (born : Tip → Nat) (ck : ContextKey) : Prop where
  minted : ck.lastOffset ∈ all
  initial : ∀ t ∈ ck.initialTips.tips, t ∈ all ∧ born t < born ck.lastOffset
  covers : HistoryWithin log ck.initialTips.tips [ck.lastOffset]
  pure : ∀ other, Within log other → (∀ t ∈ ck.notifies, InFlight other t) →
    SameHistory other [ck.lastOffset] ck.initialTips.tips

/-- A bind that is about to be written has one entry for each key of its context. -/
structure BindReady (ctx : Context) (bind : TransactionalBindEffect) : Prop where
  nonempty : bind.keys ≠ []
  nodup : (bind.keys.map KeyBind.key).Nodup
  entries : ∀ kb ∈ bind.keys, ∃ ck, ctx.keys.lookup kb.key = some ck ∧ kb.newTip = ck.lastOffset

structure Context.Sound (all log : Log) (born : Tip → Nat) (ctx : Context) : Prop where
  chained : ∀ key ck, ctx.keys.lookup key = some ck → Chained all log born ck
  nonempty : ctx.flush ≠ .idle → ctx.keys.entries ≠ []
  ready : ∀ bind, ctx.flush = .admitted bind → BindReady ctx bind

/-- What holds of a node between two steps: it holds effects of the cluster, and every
entry of `pendingTxTips` has the history of the tip it stands in for. -/
structure Node.Sound (all : Log) (born : Tip → Nat) (nd : Node) : Prop where
  cached : Within nd.effectCache all
  indexed : ∀ key, ∀ t ∈ nd.tips key, t ∈ all
  minted : ∀ t deps, nd.pendingTxTips.lookup t = some deps → t ∈ all ∧ ∀ d ∈ deps, d ∈ all
  pending : ∀ t deps, nd.pendingTxTips.lookup t = some deps → deps ≠ [] → StandIn nd.effectCache born t deps
  contexts : ∀ ctx ∈ nd.contexts, ctx.Sound all nd.effectCache born

/-- What a node never loses: its effects, its subscriptions, and what lies below the
tips of a key. -/
structure Node.Keeps (nd nd' : Node) : Prop where
  cache : Within nd.effectCache nd'.effectCache
  nextOff : nd.nextOff ≤ nd'.nextOff
  subscriptions : nd'.subscriptions = nd.subscriptions
  history : ∀ key e, ¬ InFlight nd'.effectCache e → Below nd.effectCache (keyDeps key) (nd.tips key).tips e →
    Below nd'.effectCache (keyDeps key) (nd'.tips key).tips e

/-- A step of a node that keeps both. -/
structure Node.Advances (all : Log) (born : Tip → Nat) (nd nd' : Node) : Prop where
  sound : nd'.Sound all born
  keeps : nd.Keeps nd'

variable {all all' log log' : Log} {t : Tip} {born born' : Tip → Nat} {deps : List Tip} {nd : Node} {ctx : Context}
  {eff : Effect} {key : Bytes}

theorem mem_of_lookup (h : all.lookup t = some eff) : t ∈ all :=
  mem_iff.mpr ⟨eff, h⟩

/-- Effects that are written later change nothing about the older ones. -/
structure Extends (all all' : Log) (born born' : Tip → Nat) : Prop where
  within : Within all all'
  born : ∀ t ∈ all, born' t = born t

theorem Extends.mem (h : Extends all all' born born') (ht : t ∈ all) : t ∈ all' := by
  obtain ⟨eff, heff⟩ := mem_iff.mp ht
  exact mem_of_lookup (h.within t eff heff)

section

variable (hext : Extends all all' born born') (hsub : Within log log')
include hext hsub

theorem Chained.mono {ck : ContextKey} (h : Chained all log born ck) : Chained all' log' born' ck := by
  refine ⟨hext.mem h.minted, ?_, h.covers.mono hsub, fun other hother => h.pure other (hsub.trans hother)⟩
  intro t ht
  obtain ⟨hmem, hborn⟩ := h.initial t ht
  rw [hext.born t hmem, hext.born _ h.minted]
  exact ⟨hext.mem hmem, hborn⟩

theorem StandIn.mono (ht : t ∈ all) (hdeps : ∀ d ∈ deps, d ∈ all) (h : StandIn log born t deps) :
    StandIn log' born' t deps := by
  refine ⟨h.same.mono hsub, ?_⟩
  intro d hd
  rw [hext.born d (hdeps d hd), hext.born t ht]
  exact h.older d hd

theorem Context.Sound.mono (h : ctx.Sound all log born) : ctx.Sound all' log' born' :=
  ⟨fun key ck hck => (h.chained key ck hck).mono hext hsub, h.nonempty, h.ready⟩

end

namespace Node

theorem Sound.mono (hext : Extends all all' born born') (h : nd.Sound all born) : nd.Sound all' born' := by
  refine ⟨h.cached.trans hext.within, fun key t ht => hext.mem (h.indexed key t ht), ?_, ?_, ?_⟩
  · intro t deps ht
    obtain ⟨hmem, hdeps⟩ := h.minted t deps ht
    exact ⟨hext.mem hmem, fun d hd => hext.mem (hdeps d hd)⟩
  · intro t deps ht hne
    obtain ⟨hmem, hdeps⟩ := h.minted t deps ht
    exact (h.pending t deps ht hne).mono hext (refl _) hmem hdeps
  · intro ctx hctx
    exact (h.contexts ctx hctx).mono hext (refl _)

theorem Keeps.refl (nd : Node) : nd.Keeps nd :=
  ⟨Within.refl _, le_rfl, rfl, fun _ _ _ h => h⟩

theorem Keeps.trans {nd' nd'' : Node} (h : nd.Keeps nd') (h' : nd'.Keeps nd'') : nd.Keeps nd'' := by
  refine ⟨h.cache.trans h'.cache, h.nextOff.trans h'.nextOff, h'.subscriptions.trans h.subscriptions, ?_⟩
  intro key e hflight he
  exact h'.history key e hflight (h.history key e (fun hold => hflight (hold.mono h'.cache)) he)

theorem Advances.refl (h : nd.Sound all born) : nd.Advances all born nd :=
  ⟨h, Keeps.refl nd⟩

theorem Advances.trans {nd' nd'' : Node} (h : nd.Advances all born nd') (h' : nd'.Advances all born nd'') :
    nd.Advances all born nd'' :=
  ⟨h'.sound, h.keeps.trans h'.keeps⟩

theorem tips_updateIndex (nd : Node) (key k : Bytes) (initialTips : TipSet) (lastOffset : Tip) :
    (nd.updateIndex key initialTips lastOffset).tips k =
      if k = key then effects.updateIndex (nd.tips key) initialTips lastOffset else nd.tips k := by
  unfold tips updateIndex
  split
  · rename_i heq
    rw [heq, lookup_insert]
    rfl
  · rename_i hne
    rw [lookup_insert_of_ne _ hne]

/-- Replacing tips by one that has their history keeps the history of the key. -/
theorem Sound.updateIndex {initialTips : TipSet} (h : nd.Sound all born) (ht : t ∈ all)
    (hcovers : ∀ e, Below nd.effectCache (keyDeps key) initialTips.tips e → Below nd.effectCache (keyDeps key) [t] e) :
    nd.Advances all born (nd.updateIndex key initialTips t) := by
  refine ⟨⟨h.cached, ?_, h.minted, h.pending, h.contexts⟩, refl _, le_rfl, rfl, ?_⟩
  · intro k u hu
    rw [tips_updateIndex] at hu
    split at hu
    · rcases mem_updateIndex.mp hu with ⟨hu, -⟩ | rfl
      · exact h.indexed key u hu
      · exact ht
    · exact h.indexed k u hu
  · intro k e _ he
    rw [tips_updateIndex]
    split
    · rename_i heq
      subst heq
      obtain ⟨hflight, u, hu, hreach⟩ := he
      by_cases hinit : u ∈ initialTips
      · obtain ⟨-, v, hv, hve⟩ := hcovers e ⟨hflight, u, hinit, hreach⟩
        rw [List.mem_singleton.mp hv] at hve
        exact ⟨hflight, t, mem_updateIndex.mpr (.inr rfl), hve⟩
      · exact ⟨hflight, u, mem_updateIndex.mpr (.inl ⟨hu, hinit⟩), hreach⟩
    · exact he

theorem Sound.installTips {tips : List Tip} (h : nd.Sound all born) (htips : ∀ t ∈ tips, t ∈ all) :
    nd.Advances all born (nd.installTips key tips) := by
  have hnew : ∀ k, (nd.installTips key tips).tips k = if k = key then newTipSet ((nd.tips key).tips ++ tips)
      else nd.tips k := by
    intro k
    unfold Node.tips Node.installTips
    split
    · rename_i heq
      rw [heq, lookup_insert]
      rfl
    · rename_i hne
      rw [lookup_insert_of_ne _ hne]
  refine ⟨⟨h.cached, ?_, h.minted, h.pending, h.contexts⟩, refl _, le_rfl, rfl, ?_⟩
  · intro k u hu
    rw [hnew] at hu
    split at hu
    · rcases List.mem_append.mp (mem_newTipSet.mp hu) with hu | hu
      · exact h.indexed key u hu
      · exact htips u hu
    · exact h.indexed k u hu
  · rintro k e - ⟨hflight, u, hu, hreach⟩
    refine ⟨hflight, u, ?_, hreach⟩
    rw [hnew]
    split
    · rename_i heq
      subst heq
      exact mem_newTipSet.mpr (List.mem_append_left tips hu)
    · exact hu

/-- The cache may take in any effect of the cluster. -/
theorem Sound.cacheInsert (h : nd.Sound all born) (ht : all.lookup t = some eff) :
    nd.Advances all born { nd with effectCache := nd.effectCache.insert t eff } := by
  have hsub : Within nd.effectCache (nd.effectCache.insert t eff) := by
    apply within_insert
    intro old hold
    rw [h.cached t old hold] at ht
    exact Option.some.inj ht
  have hext : Extends all all born born := ⟨refl _, fun _ _ => rfl⟩
  refine ⟨⟨h.cached.insert ht, h.indexed, h.minted, ?_, ?_⟩, hsub, le_rfl, rfl, ?_⟩
  · intro u deps hu hne
    obtain ⟨hmem, hdeps⟩ := h.minted u deps hu
    exact (h.pending u deps hu hne).mono hext hsub hmem hdeps
  · intro ctx hctx
    exact (h.contexts ctx hctx).mono hext hsub
  · rintro key e hflight ⟨-, u, hu, hreach⟩
    exact ⟨hflight, u, hu, reach_of_within hsub hreach⟩

theorem Sound.storePending (h : nd.Sound all born) (ht : t ∈ all) (hdeps : ∀ d ∈ deps, d ∈ all)
    (hstand : deps ≠ [] → StandIn nd.effectCache born t deps) : nd.Advances all born (nd.storePending t deps) := by
  refine ⟨⟨h.cached, h.indexed, ?_, ?_, h.contexts⟩, refl _, le_rfl, rfl, fun _ _ _ he => he⟩
  · intro u old hu
    by_cases heq : u = t
    · subst heq
      cases (lookup_insert _).symm.trans hu
      exact ⟨ht, hdeps⟩
    · exact h.minted u old ((lookup_insert_of_ne _ heq).symm.trans hu)
  · intro u old hu hne
    by_cases heq : u = t
    · subst heq
      cases (lookup_insert _).symm.trans hu
      exact hstand hne
    · exact h.pending u old ((lookup_insert_of_ne _ heq).symm.trans hu) hne

theorem lookup_of_erase {pendingTxTips : Map Tip (List Tip)} {u : Tip}
    (h : (pendingTxTips.erase t).lookup u = some deps) : pendingTxTips.lookup u = some deps := by
  by_cases heq : u = t
  · subst heq
    rw [lookup_erase] at h
    cases h
  · rwa [lookup_erase_ne heq] at h

theorem Sound.releasePending (h : nd.Sound all born) (t : Tip) : nd.Advances all born (nd.releasePending t) := by
  refine ⟨⟨h.cached, h.indexed, ?_, ?_, h.contexts⟩, refl _, le_rfl, rfl, fun _ _ _ he => he⟩
  · exact fun u deps hu => h.minted u deps (lookup_of_erase hu)
  · exact fun u deps hu => h.pending u deps (lookup_of_erase hu)

/-- Changes of the contexts alone keep a node sound if the new contexts are. -/
theorem Sound.withContexts {contexts : List Context} (h : nd.Sound all born)
    (hctx : ∀ ctx ∈ contexts, ctx.Sound all nd.effectCache born) :
    nd.Advances all born { nd with contexts := contexts } :=
  ⟨⟨h.cached, h.indexed, h.minted, h.pending, hctx⟩, refl _, le_rfl, rfl, fun _ _ _ he => he⟩

theorem Sound.setContext {c : Nat} (h : nd.Sound all born)
    (hctx : ctx.Sound all nd.effectCache born) : nd.Advances all born (nd.setContext c ctx) := by
  apply h.withContexts
  intro old hold
  rcases List.mem_or_eq_of_mem_set hold with hold | rfl
  · exact h.contexts old hold
  · exact hctx

end Node

end swytch.effects
