import Swytch.Effects.Dag.Replay
import Swytch.Effects.Engine
import Mathlib.Data.List.Find

open swytch.lib swytch.proto List Option Finmap

namespace swytch.effects

open Bfs

open EffectRef

namespace Bfs

/-- Meet a position in a walk that goes on past unresolved effects: `standalone` says that
it is a tip of the walk. What cannot be resolved is an open end for good. -/
def meet (s : Bfs) (standalone : Bool) (t : Tip) (eff : Option Effect) : Bfs :=
  if t ∈ s.nodes then
    if !standalone ∧ eff.any isStandaloneSubscription then { s with frontier := insert t s.frontier } else s
  else
    let met := { s with nodes := s.nodes ++ [t], frontier := insert t s.frontier }
    match eff with
    | none => met
    | some eff =>
      let opened :=
        if standalone ∧ isStandaloneSubscription eff then { met with frontier := met.frontier.erase t } else met
      opened.enqueue t eff

theorem mem_nodes_meet (s : Bfs) (standalone : Bool) (t : Tip) (eff : Option Effect) (x : Tip) :
    x ∈ (s.meet standalone t eff).nodes ↔ x ∈ s.nodes ∨ x = t := by
  unfold meet
  by_cases hseen : t ∈ s.nodes
  · have hsame : x ∈ s.nodes ↔ x ∈ s.nodes ∨ x = t := ⟨.inl, fun hx => hx.elim id (fun heq => heq ▸ hseen)⟩
    rw [if_pos hseen]
    split <;> exact hsame
  · rw [if_neg hseen]
    cases eff with
    | none => simp
    | some eff =>
      dsimp only
      rw [enqueue_nodes]
      split <;> simp

end Bfs

/-- The `enqueue` of `collectCausalChain`. -/
def chainEnqueue (cache : Log) (standalone : Bool) (s : Bfs) (t : Tip) : Bfs :=
  if t = .zero then s else s.meet standalone t (cache.lookup t)

/-- The loop of `collectCausalChain`. The first argument bounds the number of dequeued
effects. -/
def chainLoop (cache : Log) (key : Bytes) : Nat → Bfs → Option (List Tip)
  | 0, s => if s.dequeue.isNone then some s.nodes else none
  | n + 1, s =>
    match s.dequeue with
    | none => some s.nodes
    | some (cur, s) =>
      match cache.lookup cur with
      | none => chainLoop cache key n s
      | some eff =>
        if isStateSnapshot eff ∧ s.frontier.card = 1 then some s.nodes
        else
          let deps := keyDeps key eff
          let s := if deps = [] then s else { s with frontier := s.frontier.erase cur }
          chainLoop cache key n (deps.foldl (chainEnqueue cache false) s)

/-- The refs that a NACK names for bulk fetching: everything that the walk from the tips
comes to, resolved or not. -/
def collectCausalChain (cache : Log) (key : Bytes) (tips : List Tip) : Option (List Tip) :=
  chainLoop cache key cache.keys.card (tips.foldl (chainEnqueue cache true) {})

/-- Backfill a ref from the cache or, failing that, from the peers. -/
def Node.backfillRef (rt : Runtime) (peers : Log) (nd : Node) (t : Tip) : Option Node :=
  match (nd.effectCache.lookup t).or (peers.lookup t) with
  | none => none
  | some eff =>
    if nd.authoritative eff ∧ eff.forkChoiceHash ≠ rt.forkChoiceHash eff.nodeId eff.hlc then none
    else some (nd.handleBackfill rt t eff)

/-- The walk of `ingestNackTips`, the effects it resolved and the node it backfills. -/
structure NackIngest where
  walk : Bfs := {}
  nodes : Log := ∅
  node : Node

namespace NackIngest

def enqueue (rt : Runtime) (peers : Log) (standalone : Bool) (st : NackIngest) (t : Tip) : NackIngest :=
  if t = .zero then st
  else if t ∈ st.walk.nodes then { st with walk := st.walk.meet standalone t (st.nodes.lookup t) }
  else
    match st.node.backfillRef rt peers t with
    | none => { st with walk := st.walk.meet standalone t none }
    | some node =>
      match node.effectCache.lookup t with
      | none => { st with node, walk := st.walk.meet standalone t none }
      | some eff => { node, nodes := st.nodes.insert t eff, walk := st.walk.meet standalone t (some eff) }

/-- The loop of `ingestNackTips`. The first argument bounds the number of dequeued effects. -/
def loop (rt : Runtime) (peers : Log) (key : Bytes) : Nat → NackIngest → Option NackIngest
  | 0, st => if st.walk.dequeue.isNone then some st else none
  | n + 1, st =>
    match st.walk.dequeue with
    | none => some st
    | some (cur, s) =>
      match st.nodes.lookup cur with
      | none => loop rt peers key n { st with walk := s }
      | some eff =>
        if isStateSnapshot eff ∧ s.frontier.card = 1 then some { st with walk := s }
        else
          let deps := keyDeps key eff
          let s := if deps = [] then s else { s with frontier := s.frontier.erase cur }
          loop rt peers key n (deps.foldl (enqueue rt peers false) { st with walk := s })

end NackIngest

/-- Catch up with the tips that a NACK for a key names. The chain it carries only warms the
cache and is left out. -/
def Node.ingestNackTips (rt : Runtime) (peers : Log) (nd : Node) (nack : NackNotify) : Option NackIngest :=
  NackIngest.loop rt peers nack.key (nd.effectCache.keys ∪ peers.keys).card
    ((nack.tipDetails.map NackTipDetail.ref).foldl (NackIngest.enqueue rt peers true) { node := nd })

variable {log peers mine : Log} {key : Bytes} {refs : Set Tip} {done n : Nat} {s s' : Bfs} {t lcaTip : Tip}
  {ts nodes tips : List Tip} {rt : Runtime} {st : NackIngest} {eff : Effect}

theorem ne_zero_of_lookup (hzero : zero ∉ log) (heff : log.lookup t = some eff) :
    t ≠ .zero := by
  rintro rfl
  exact hzero (mem_iff.mpr ⟨eff, heff⟩)

theorem chainEnqueue_of_addTip (hzero : zero ∉ log) (hinv : s.Inv log key refs done)
    (hadd : s.addTip log t = some s') : chainEnqueue log true s t = s' := by
  unfold chainEnqueue meet
  obtain ⟨hseen, rfl⟩ | ⟨hnew, eff, heff, rfl⟩ := addTip_cases hadd
  · have hne : t ≠ .zero := fun heq => hzero (heq ▸ hinv.resident t hseen)
    simp [hne, hseen]
  · have hclosed : t ∉ s.frontier := fun hmem => hnew ((hinv.mem_frontier t).mp hmem).1
    rw [if_neg (ne_zero_of_lookup hzero heff), if_neg hnew, heff]
    by_cases halone : isStandaloneSubscription eff = true
    · simp [halone, Finset.erase_insert hclosed]
    · simp [halone]

theorem chainEnqueue_of_addDep (hzero : zero ∉ log) (hadd : s.addDep log t = some s') :
    chainEnqueue log false s t = s' := by
  unfold chainEnqueue meet
  obtain ⟨eff, heff, ⟨hseen, rfl⟩ | ⟨hnew, rfl⟩⟩ := addDep_cases hadd
  all_goals rw [if_neg (ne_zero_of_lookup hzero heff), heff]
  · by_cases halone : isStandaloneSubscription eff = true <;> simp [hseen, halone]
  · simp [hnew]

theorem foldl_chainEnqueue_of_addTips (hzero : zero ∉ log) (hinv : s.Inv log key refs done)
    (hadd : ts.foldlM (addTip log) s = some s') : ts.foldl (chainEnqueue log true) s = s' := by
  induction ts generalizing s with
  | nil => exact some.inj hadd
  | cons t ts ih =>
    obtain ⟨m, hfirst, hrest⟩ := foldlM_some hadd
    rw [foldl_cons, chainEnqueue_of_addTip hzero hinv hfirst]
    exact ih (hinv.addTip hfirst) hrest

theorem foldl_chainEnqueue_of_addDeps (hzero : zero ∉ log) (hadd : ts.foldlM (addDep log) s = some s') :
    ts.foldl (chainEnqueue log false) s = s' := by
  induction ts generalizing s with
  | nil => exact some.inj hadd
  | cons t ts ih =>
    obtain ⟨m, hfirst, hrest⟩ := foldlM_some hadd
    rw [foldl_cons, chainEnqueue_of_addDep hzero hfirst]
    exact ih hrest

theorem chainLoop_of_bfsLoop (hzero : zero ∉ log) (hloop : bfsLoop log key n s = some (nodes, lcaTip)) :
    chainLoop log key n s = some nodes := by
  induction n generalizing s with
  | zero =>
    obtain ⟨hdone, rfl, -⟩ | ⟨k, cur, s', eff, hk, -⟩ := bfsLoop_cases hloop
    · simp [chainLoop, hdone]
    · cases hk
  | succ n ih =>
    obtain ⟨hdone, rfl, -⟩ | ⟨k, cur, s', eff, hk, hdequeue, heff, hlast⟩ := bfsLoop_cases hloop
    · simp [chainLoop, hdone]
    · obtain rfl := Nat.succ.inj hk
      simp only [chainLoop, hdequeue, heff]
      obtain ⟨hstate, hcard, rfl, -⟩ | ⟨hgo, s'', hexpand, hrest⟩ := hlast
      · rw [if_pos ⟨hstate, hcard⟩]
      · rw [if_neg hgo, foldl_chainEnqueue_of_addDeps hzero hexpand]
        exact ih hrest

/-- An effect carries the hash of its origin and timestamp. -/
def Signed (rt : Runtime) (eff : Effect) : Prop :=
  eff.forkChoiceHash = rt.forkChoiceHash eff.nodeId eff.hlc

instance (rt : Runtime) (eff : Effect) : Decidable (Signed rt eff) :=
  inferInstanceAs (Decidable (eff.forkChoiceHash = rt.forkChoiceHash eff.nodeId eff.hlc))

theorem Node.backfillRef_of_signed {nd : Node} (hcached : nd.effectCache.lookup t = some eff)
    (hsigned : Signed rt eff) : nd.backfillRef rt peers t = some (nd.handleBackfill rt t eff) := by
  unfold backfillRef
  rw [hcached, some_or]
  exact if_neg (fun hbad => hbad.2 hsigned)

namespace NackIngest

/-- The ingest walk is where a walk over `log` is, and has resolved what that one met. -/
structure Follows (log : Log) (st : NackIngest) (s : Bfs) : Prop where
  walk_eq : st.walk = s
  cache_eq : st.node.effectCache = log
  resolved : ∀ t ∈ s.nodes, st.nodes.lookup t = log.lookup t

theorem Follows.enqueue (hfollows : st.Follows log s) (hsigned : ∀ eff, log.lookup t = some eff → Signed rt eff)
    (ht : t ∈ log) (standalone : Bool) :
    (st.enqueue rt peers standalone t).Follows log (chainEnqueue log standalone s t) := by
  obtain ⟨hwalk, hcache, hresolved⟩ := hfollows
  obtain ⟨eff, heff⟩ := mem_iff.mp ht
  unfold NackIngest.enqueue chainEnqueue
  by_cases hnone : t = .zero
  · rw [if_pos hnone, if_pos hnone]
    exact ⟨hwalk, hcache, hresolved⟩
  rw [if_neg hnone, if_neg hnone]
  by_cases hseen : t ∈ st.walk.nodes
  · rw [if_pos hseen, hresolved t (hwalk ▸ hseen)]
    refine ⟨by rw [hwalk], hcache, fun x hx => hresolved x ?_⟩
    obtain hx | rfl := (s.mem_nodes_meet ..).mp hx
    · exact hx
    · exact hwalk ▸ hseen
  · rw [if_neg hseen, Node.backfillRef_of_signed (hcache ▸ heff) (hsigned eff heff)]
    have hkept : (st.node.handleBackfill rt t eff).effectCache = log :=
      (Node.effectCache_handleBackfill (hcache ▸ heff)).trans hcache
    simp only [hkept, heff]
    refine ⟨by rw [hwalk], hkept, fun x hx => ?_⟩
    by_cases hx' : x = t
    · rw [hx', lookup_insert, heff]
    · rw [lookup_insert_of_ne _ hx']
      exact hresolved x (((s.mem_nodes_meet ..).mp hx).resolve_right hx')

theorem Follows.foldl (hfollows : st.Follows log s)
    (hsigned : ∀ t ∈ ts, ∀ eff, log.lookup t = some eff → Signed rt eff) (hts : ∀ t ∈ ts, t ∈ log)
    (standalone : Bool) :
    (ts.foldl (NackIngest.enqueue rt peers standalone) st).Follows log (ts.foldl (chainEnqueue log standalone) s) := by
  induction ts generalizing st s with
  | nil => exact hfollows
  | cons t ts ih =>
    obtain ⟨hsignedt, hsigned⟩ := forall_mem_cons.mp hsigned
    obtain ⟨ht, hts⟩ := forall_mem_cons.mp hts
    exact ih (hfollows.enqueue hsignedt ht standalone) hsigned hts

/-- The ingest loop goes on as long as the walk does and meets the same tips. -/
theorem loop_of_bfsLoop (hzero : zero ∉ log) (hresident : Resident log key tips)
    (hsigned : ∀ t, ∀ u ∈ tips, Reach (depsOf log key) u t → ∀ eff, log.lookup t = some eff → Signed rt eff)
    {m : Nat} (hinv : s.WalkInv log key tips refs done) (hfollows : st.Follows log s)
    (hloop : bfsLoop log key n s = some (nodes, lcaTip)) (hfuel : n ≤ m) :
    ∃ last, loop rt peers key m st = some last ∧ last.walk.nodes = nodes := by
  induction n generalizing s st m refs done with
  | zero =>
    obtain ⟨hdone, rfl, -⟩ | ⟨k, cur, s', eff, hk, -⟩ := bfsLoop_cases hloop
    · refine ⟨st, ?_, by rw [hfollows.walk_eq]⟩
      cases m <;> simp [loop, hfollows.walk_eq, hdone]
    · cases hk
  | succ n ih =>
    obtain ⟨m, rfl⟩ : ∃ k, m = k + 1 := ⟨m - 1, by omega⟩
    obtain ⟨hdone, rfl, -⟩ | ⟨k, cur, s', eff, hk, hdequeue, heff, hlast⟩ := bfsLoop_cases hloop
    · exact ⟨st, by simp [loop, hfollows.walk_eq, hdone], by rw [hfollows.walk_eq]⟩
    · obtain rfl := Nat.succ.inj hk
      obtain ⟨hpending, hnodes, -⟩ := dequeue_eq_some hdequeue
      have hcur : cur ∈ s.nodes := hinv.pending_sub cur (by simp [hpending])
      have hdeps : depsOf log key cur = keyDeps key eff := by simp [depsOf, heff]
      obtain ⟨u, hu, hreach⟩ := hinv.reach cur hcur
      have hbelow : ∀ d ∈ keyDeps key eff, Reach (depsOf log key) u d := fun d hd =>
        hreach.trans (.single (hdeps.symm ▸ hd))
      simp only [loop, hfollows.walk_eq, hdequeue, hfollows.resolved cur hcur, heff]
      obtain ⟨hstate, hcard, rfl, -⟩ | ⟨hgo, s'', hexpand, hrest⟩ := hlast
      · rw [if_pos ⟨hstate, hcard⟩]
        exact ⟨_, rfl, rfl⟩
      · rw [if_neg hgo]
        refine ih (hinv.step hdequeue heff hexpand) ?_ hrest (by omega)
        rw [← foldl_chainEnqueue_of_addDeps hzero hexpand]
        refine Follows.foldl ?_ (fun d hd => hsigned d u hu (hbelow d hd))
          (fun d hd => hresident u hu d (hbelow d hd)) false
        refine ⟨rfl, hfollows.cache_eq, fun x hx => hfollows.resolved x ?_⟩
        rw [← hnodes]
        split at hx <;> exact hx

end NackIngest

theorem foldlM_congr_mem {σ : Type} {f g : σ → Tip → Option σ} (hsame : ∀ t ∈ ts, ∀ s, f s t = g s t) (s : σ) :
    ts.foldlM f s = ts.foldlM g s := by
  induction ts generalizing s with
  | nil => rfl
  | cons t ts ih =>
    obtain ⟨ht, hts⟩ := forall_mem_cons.mp hsame
    rw [foldlM_cons, foldlM_cons, ht]
    exact congrArg _ (funext (ih hts))

theorem nodes_sub_of_steps (hsteps : Relation.ReflTransGen (Bfs.Step log key) s s') : ∀ t ∈ s.nodes, t ∈ s'.nodes := by
  induction hsteps with
  | refl => exact fun t ht => ht
  | tail _ hstep ih =>
    obtain ⟨cur, rest, -, hkept, -⟩ := hstep.spec
    exact fun t ht => hkept t (ih t ht)

/-- The walk reads nothing but the effects it collects. -/
theorem steps_congr (hsame : ∀ t ∈ s'.nodes, mine.lookup t = log.lookup t) (hinv : s.WalkInv log key tips refs done)
    (hsteps : Relation.ReflTransGen (Bfs.Step log key) s s') : Relation.ReflTransGen (Bfs.Step mine key) s s' := by
  induction hsteps using Relation.ReflTransGen.head_induction_on generalizing refs done with
  | refl => exact .refl
  | @head s s₁ hstep hrest ih =>
    obtain ⟨cur, s₀, eff, hdequeue, heff, hgo, hexpand⟩ := hstep
    have hnext := hinv.step hdequeue heff hexpand
    have hsub := nodes_sub_of_steps hrest
    have hcur : cur ∈ s₁.nodes := nodes_sub_of_steps (.single ⟨cur, s₀, eff, hdequeue, heff, hgo, hexpand⟩) cur
      (hinv.pending_sub cur (by simp [(dequeue_eq_some hdequeue).1]))
    have hdep : ∀ d ∈ keyDeps key eff, mine.lookup d = log.lookup d := fun d hd =>
      hsame d (hsub d (hnext.refs_sub d (.inr (by simpa [depsOf, heff] using hd))))
    have hmine : s₀.expand mine key cur eff = some s₁ := by
      rw [← hexpand]
      exact foldlM_congr_mem (fun d hd s => by rw [addDep, addDep, hdep d hd]) _
    exact .head ⟨cur, s₀, eff, hdequeue, (hsame cur (hsub cur hcur)).trans heff, hgo, hmine⟩ (ih hnext)

/-- A walk over a log gives the same over every log that has the collected effects. -/
theorem bfs_of_collected (hbfs : bfs log key tips = some (nodes, lcaTip))
    (hsame : ∀ t ∈ nodes, mine.lookup t = log.lookup t) : bfs mine key tips = some (nodes, lcaTip) := by
  obtain ⟨s, ⟨start, hstart, hsteps⟩, rfl, hlast⟩ := bfs_eq_some_iff.mp hbfs
  have hinv : Bfs.WalkInv log key tips ∅ 0 start := .start hstart
  have hmine : tips.foldlM (addTip mine) {} = some start := by
    rw [← hstart]
    exact foldlM_congr_mem (fun t ht s => by
      rw [addTip, addTip, hsame t (nodes_sub_of_steps hsteps t (hinv.tips_mem t ht))]) _
  refine bfs_eq_some_iff.mpr ⟨s, ⟨start, hmine, steps_congr hsame hinv hsteps⟩, rfl, ?_⟩
  obtain ⟨hnone, rfl⟩ | ⟨s', hdequeue, hsnap, hcard⟩ := hlast
  · refine .inl ⟨hnone, ?_⟩
    rw [finalLca, finalLca, find?_congr (fun t ht => by rw [← hsame t ht])]
  · obtain ⟨refs, done, hend⟩ := Bfs.Walked.walkInv ⟨start, hstart, hsteps⟩
    have hlca : lcaTip ∈ s.nodes := hend.pending_sub lcaTip (by simp [(dequeue_eq_some hdequeue).1])
    exact .inr ⟨s', hdequeue, by rwa [hsame lcaTip hlca], hcard⟩

/-- The three walks over resident effects come to the same refs, in the same order, if the
effects carry their hashes; a receiver that has those refs can run the walk. -/
theorem frontier_walks_agree {rt : Runtime} {nd : Node} {key : Bytes} {tips : List Tip}
    (hzero : zero ∉ nd.effectCache) (hresident : Resident nd.effectCache key tips)
    (hsigned : ∀ t, ∀ u ∈ tips, Reach (depsOf nd.effectCache key) u t →
      ∀ eff, nd.effectCache.lookup t = some eff → Signed rt eff) :
    ∃ nodes lcaTip, bfs nd.effectCache key tips = some (nodes, lcaTip) ∧
      collectCausalChain nd.effectCache key tips = some nodes ∧
      (∀ peers (nack : NackNotify), nack.key = key → nack.tipDetails.map NackTipDetail.ref = tips →
        ∃ st, nd.ingestNackTips rt peers nack = some st ∧ st.walk.nodes = nodes) ∧
      ∀ receiver : Log, (∀ t ∈ nodes, receiver.lookup t = nd.effectCache.lookup t) →
        bfs receiver key tips = some (nodes, lcaTip) := by
  obtain ⟨⟨nodes, lcaTip⟩, hbfs⟩ := bfs_isSome hresident
  obtain ⟨start, hstart, hloop⟩ := bind_eq_some_iff.mp hbfs
  have hfold := foldl_chainEnqueue_of_addTips hzero (Bfs.Inv.empty nd.effectCache key) hstart
  refine ⟨nodes, lcaTip, hbfs, ?_, fun peers nack hkey hdetails => ?_,
    fun receiver hsame => bfs_of_collected hbfs hsame⟩
  · unfold collectCausalChain
    rw [hfold]
    exact chainLoop_of_bfsLoop hzero hloop
  · subst hkey hdetails
    unfold Node.ingestNackTips
    refine NackIngest.loop_of_bfsLoop hzero hresident hsigned (Bfs.WalkInv.start hstart) ?_ hloop
      (Finset.card_le_card Finset.subset_union_left)
    rw [← hfold]
    refine NackIngest.Follows.foldl ?_ (fun t ht => hsigned t t ht (.refl t))
      (fun t ht => hresident t ht t (.refl t)) true
    exact ⟨rfl, rfl, fun x hx => (by cases hx)⟩

/-- A node that subscribed to a key and has two effects on it, the newer one with a given hash. -/
def twoEffects (hash : Bytes) : Node :=
  { effectCache := ((∅ : Log).insert ⟨1, 1⟩ { key := [107], forkChoiceHash := [0], kind := .noop }).insert ⟨1, 2⟩
      { key := [107], deps := [⟨1, 1⟩], forkChoiceHash := hash, kind := .noop }
    subscriptions := singleton [107] }

theorem frontier_walks_agree_on_two_effects :
    ∃ nodes lcaTip, bfs (twoEffects [0]).effectCache [107] [⟨1, 2⟩] = some (nodes, lcaTip) ∧
      collectCausalChain (twoEffects [0]).effectCache [107] [⟨1, 2⟩] = some nodes ∧
      ∃ st, (twoEffects [0]).ingestNackTips idleRuntime ∅
        ⟨[107], [⟨⟨1, 2⟩, [], false, false, .scalar, [], false, []⟩], false⟩ = some st ∧ st.walk.nodes = nodes := by
  have hclosed : ∀ t ∈ (twoEffects [0]).effectCache.keys, ∀ d ∈ depsOf (twoEffects [0]).effectCache [107] t,
      d ∈ (twoEffects [0]).effectCache.keys := by decide
  have hhash : ∀ t ∈ (twoEffects [0]).effectCache.keys, ((twoEffects [0]).effectCache.lookup t).all
      (fun eff => Signed idleRuntime eff) = true := by decide
  have htips : ∀ u ∈ [(⟨1, 2⟩ : Tip)], u ∈ (twoEffects [0]).effectCache.keys := by decide
  obtain ⟨nodes, lcaTip, hbfs, hchain, hingest, -⟩ := frontier_walks_agree (by decide)
    (fun u hu t hreach => mem_keys.mp (mem_log_of_inClosure hclosed htips ⟨u, hu, hreach⟩))
    fun t u hu hreach eff heff => by
      have hall := hhash t (mem_log_of_inClosure hclosed htips ⟨u, hu, hreach⟩)
      rw [heff] at hall
      exact of_decide_eq_true hall
  exact ⟨nodes, lcaTip, hbfs, hchain, hingest ∅ _ rfl rfl⟩

/-- An effect whose hash does not match is walked through by the other two, but its
backfill fails and its dependencies are not asked for. -/
theorem unsigned_effect_not_expanded :
    bfs (twoEffects []).effectCache [107] [⟨1, 2⟩] = some ([⟨1, 2⟩, ⟨1, 1⟩], .zero) ∧
      collectCausalChain (twoEffects []).effectCache [107] [⟨1, 2⟩] = some [⟨1, 2⟩, ⟨1, 1⟩] ∧
      ((twoEffects []).ingestNackTips idleRuntime ∅
        ⟨[107], [⟨⟨1, 2⟩, [], false, false, .scalar, [], false, []⟩], false⟩).map (fun st => st.walk.nodes) =
        some [⟨1, 2⟩] := by
  decide +kernel

end swytch.effects
