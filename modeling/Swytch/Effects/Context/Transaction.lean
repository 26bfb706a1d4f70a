import Swytch.Effects.CausalIndex
import Swytch.Effects.Cluster.Local
import Swytch.Lib.Linear

open swytch.lib swytch.proto swytch.keytrie Finmap Option Nat
open List hiding after

namespace swytch.effects

open Node

/-- A context in which a transaction is built, on a node that others work on too. `noops`
remembers the positions that WATCH wrote to. -/
structure TxnBuild where
  nd : Node
  ctx : Context := {}
  noops : List Tip := []

variable {key : Bytes} {snapshotTips : Option (List Tip)}

namespace TxnBuild

variable {rt : Runtime} {node : NodeID} {txnID : Bytes} {s s' : TxnBuild} {t : Tip} {ck : ContextKey}

/-- `Watch`: a noop that is marked for the coming transaction, flushed at once. -/
def watch (rt : Runtime) (node : NodeID) (txnID : Bytes) (s : TxnBuild) (key : Bytes) (hlc : Timestamp) : TxnBuild :=
  let noop : Effect := { s.nd.fill rt node s.ctx { key := key, hlc := hlc, kind := .noop } none with txnId := txnID }
  { s with
    nd := (s.nd.mint node noop).updateIndex key (s.nd.tips key) (s.nd.nextTip node)
    noops := s.noops ++ [s.nd.nextTip node] }

def beginTx (txnID : Bytes) (s : TxnBuild) : TxnBuild :=
  { s with ctx := { s.ctx with inTx := true, txnID := txnID } }

/-- `Emit`. -/
def emit (rt : Runtime) (node : NodeID) (s : TxnBuild) (eff : Effect) (snapshotTips : Option (List Tip)) : TxnBuild :=
  let ck := (s.nd.contextKey s.ctx eff.key snapshotTips).append s.ctx.inTx (s.nd.nextTip node) eff
  { s with
    nd := s.nd.mint node (s.nd.fill rt node s.ctx eff snapshotTips)
    ctx := { s.ctx with keys := s.ctx.keys.insert eff.key ck } }

/-- The bind that `flushTx` writes after it has published the keys. -/
def bind (rt : Runtime) (node : NodeID) (s : TxnBuild) (hlc : Timestamp) : Effect :=
  bindEffect rt node s.ctx.txnID ((s.nd.publish s.ctx).buildBind node s.ctx hlc)

/-- An effect that the transaction has emitted. -/
def Own (s : TxnBuild) (t : Tip) : Prop :=
  ∃ key ck, s.ctx.keys.lookup key = some ck ∧ t ∈ ck.notifies

/-- A position that others can name: it has been given out, and the transaction, which is
neither indexed nor broadcast before its flush, has not emitted at it. -/
def Public (node : NodeID) (s : TxnBuild) (t : Tip) : Prop :=
  (t.nodeId = node → t.offset ≤ s.nd.nextOff) ∧ ¬ s.Own t

/-- What the node holds for everybody names public positions only. -/
structure Discreet (node : NodeID) (s : TxnBuild) : Prop where
  cached : ∀ t ∈ s.nd.effectCache, t.nodeId = node → t.offset ≤ s.nd.nextOff
  tips : ∀ key, ∀ t ∈ s.nd.tips key, s.Public node t
  bases : ∀ p base, s.nd.pendingTxTips.lookup p = some base → ∀ b ∈ base, s.Public node b

/-- What others can do to the node: index and pending tips change freely, effects that are
not of the transaction arrive or are written. -/
structure Outside (node : NodeID) (txnID : Bytes) (s : TxnBuild) (nd : Node) : Prop where
  kept : ∀ t eff, s.nd.effectCache.lookup t = some eff → nd.effectCache.lookup t = some eff
  foreign : ∀ t eff, nd.effectCache.lookup t = some eff →
    s.nd.effectCache.lookup t = some eff ∨ eff.txnId ≠ txnID
  nextOff : s.nd.nextOff ≤ nd.nextOff
  discreet : Discreet node { s with nd := nd }

inductive Step (rt : Runtime) (node : NodeID) (txnID : Bytes) : TxnBuild → TxnBuild → Prop
  | watch (s : TxnBuild) (key : Bytes) (hlc : Timestamp) (hidle : s.ctx.inTx = false) :
    Step rt node txnID s (s.watch rt node txnID key hlc)
  | beginTx (s : TxnBuild) : Step rt node txnID s (s.beginTx txnID)
  | emit (s : TxnBuild) (eff : Effect) (snapshotTips : Option (List Tip)) (htx : s.ctx.inTx = true)
    (hread : ∀ tips, snapshotTips = some tips → ∀ t ∈ tips, s.Public node t) :
    Step rt node txnID s (s.emit rt node eff snapshotTips)
  | outside (s : TxnBuild) (nd : Node) (houtside : Outside node txnID s nd) : Step rt node txnID s { s with nd := nd }

/-- A new context on a node where the transaction id is not in use. -/
structure Start (node : NodeID) (txnID : Bytes) (s : TxnBuild) : Prop where
  ctx : s.ctx = {}
  noops : s.noops = []
  unused : ∀ t eff, s.nd.effectCache.lookup t = some eff → eff.txnId ≠ txnID
  discreet : Discreet node s

/-- The effects of the transaction on one key: a chain from what the initial tips were
resolved to when the first was emitted. -/
structure Chained (node : NodeID) (txnID : Bytes) (s : TxnBuild) (ck : ContextKey) : Prop where
  initial : ∀ t ∈ ck.initialTips, s.Public node t
  linear : ∃ base, (∀ d ∈ base, s.Public node d) ∧ Linear (statedDeps s.nd.effectCache) base ck.notifies
  last : ck.notifies.getLast? = some ck.lastOffset
  nodup : ck.notifies.Nodup
  marked : ∀ t ∈ ck.notifies, t ≠ .zero ∧ ∃ eff, s.nd.effectCache.lookup t = some eff ∧ eff.txnId = txnID

/-- A noop that WATCH wrote for the transaction. -/
structure Watched (node : NodeID) (txnID : Bytes) (s : TxnBuild) (t : Tip) : Prop where
  isPublic : s.Public node t
  ne_zero : t ≠ .zero
  effect : ∃ eff, s.nd.effectCache.lookup t = some eff ∧ eff.kind = .noop ∧ eff.txnId = txnID ∧
    ∀ d ∈ eff.deps, s.Public node d

structure Inv (node : NodeID) (txnID : Bytes) (s : TxnBuild) : Prop where
  discreet : Discreet node s
  idle : s.ctx.inTx = false → s.ctx.keys = ∅
  txn : s.ctx.inTx = true → s.ctx.txnID = txnID
  only : ∀ t eff, s.nd.effectCache.lookup t = some eff → eff.txnId = txnID → t ∈ s.noops ∨ s.Own t
  noops : ∀ t ∈ s.noops, s.Watched node txnID t
  keys : ∀ key ck, s.ctx.keys.lookup key = some ck → s.Chained node txnID ck

/-- How every step changes the build: positions are given out in order, and effects stay. -/
structure Grows (node : NodeID) (s s' : TxnBuild) : Prop where
  nextOff : s.nd.nextOff ≤ s'.nd.nextOff
  own : ∀ t, s'.Own t → s.Own t ∨ t.nodeId = node ∧ s.nd.nextOff < t.offset
  kept : ∀ t eff, s.nd.effectCache.lookup t = some eff → s'.nd.effectCache.lookup t = some eff

theorem Grows.public (hgrows : Grows node s s') (ht : s.Public node t) : s'.Public node t := by
  refine ⟨fun hnode => (ht.1 hnode).trans hgrows.nextOff, fun hown => ?_⟩
  obtain hold | ⟨hnode, hlt⟩ := hgrows.own t hown
  · exact ht.2 hold
  · exact absurd (ht.1 hnode) (not_le.mpr hlt)

theorem Grows.chained (hgrows : Grows node s s') (hck : s.Chained node txnID ck) : s'.Chained node txnID ck := by
  obtain ⟨hinitial, ⟨base, hbase, hlinear⟩, hlast, hnodup, hmarked⟩ := hck
  refine ⟨fun t ht => hgrows.public (hinitial t ht), ⟨base, fun d hd => hgrows.public (hbase d hd), ?_⟩, hlast, hnodup,
    fun t ht => ?_⟩
  · refine hlinear.congr fun t ht => ?_
    obtain ⟨-, eff, heff, -⟩ := hmarked t ht
    rw [statedDeps, statedDeps, heff, hgrows.kept t eff heff]
  · obtain ⟨hzero, eff, heff, htxn⟩ := hmarked t ht
    exact ⟨hzero, eff, hgrows.kept t eff heff, htxn⟩

theorem Grows.watched (hgrows : Grows node s s') (ht : s.Watched node txnID t) : s'.Watched node txnID t := by
  obtain ⟨hpublic, hzero, eff, heff, hkind, htxn, hdeps⟩ := ht
  exact ⟨hgrows.public hpublic, hzero, eff, hgrows.kept t eff heff, hkind, htxn, fun d hd => hgrows.public (hdeps d hd)⟩

theorem not_mem_nextTip (hdiscreet : Discreet node s) : s.nd.nextTip node ∉ s.nd.effectCache := fun hmem =>
  not_succ_le_self _ (hdiscreet.cached _ hmem rfl)

theorem lookup_mint_of_some (hdiscreet : Discreet node s) {eff e : Effect}
    (heff : s.nd.effectCache.lookup t = some eff) : (s.nd.mint node e).effectCache.lookup t = some eff := by
  have hne : t ≠ s.nd.nextTip node := by
    rintro rfl
    exact not_mem_nextTip hdiscreet (mem_iff.mpr ⟨eff, heff⟩)
  exact (lookup_insert_of_ne _ hne).trans heff

theorem cases_lookup_mint {eff e : Effect} (heff : (s.nd.mint node e).effectCache.lookup t = some eff) :
    (t = s.nd.nextTip node ∧ eff = e) ∨ s.nd.effectCache.lookup t = some eff := by
  by_cases ht : t = s.nd.nextTip node
  · subst ht
    exact .inl ⟨rfl, (some.inj ((lookup_insert _).symm.trans heff)).symm⟩
  · exact .inr ((lookup_insert_of_ne _ ht).symm.trans heff)

theorem cached_mint (hdiscreet : Discreet node s) (e : Effect) :
    ∀ t ∈ (s.nd.mint node e).effectCache, t.nodeId = node → t.offset ≤ s.nd.nextOff + 1 := by
  intro t ht hnode
  obtain ⟨eff, heff⟩ := mem_iff.mp ht
  obtain ⟨rfl, -⟩ | hold := cases_lookup_mint heff
  · exact le_refl _
  · exact le_succ_of_le (hdiscreet.cached t (mem_iff.mpr ⟨eff, hold⟩) hnode)

/-- What public tips are resolved to is public. -/
theorem public_resolveTipDeps (hdiscreet : Discreet node s) {tips : List Tip} (htips : ∀ t ∈ tips, s.Public node t) :
    ∀ d ∈ resolveTipDeps s.nd.pendingTxTips tips, s.Public node d := by
  intro d hd
  obtain ⟨⟨t, ht, hreach⟩, -⟩ := mem_resolveTipDeps_iff.mp hd
  exact hreach.mem_of_closed (s := {t | s.Public node t}) (fun p _ b hb =>
    hdiscreet.bases p _ (lookup_of_pendingDeps_ne_nil (ne_nil_of_mem hb)) b hb) (htips t ht)

theorem public_firstTips (hdiscreet : Discreet node s) {inTx : Bool}
    (hread : ∀ tips, snapshotTips = some tips → ∀ t ∈ tips, s.Public node t) :
    ∀ t ∈ s.nd.firstTips inTx key snapshotTips, s.Public node t := by
  have hbase : ∀ t ∈ snapshotTips.elim (s.nd.tips key) newTipSet, s.Public node t := by
    cases snapshotTips with
    | none => exact hdiscreet.tips key
    | some tips => exact fun t ht => hread tips rfl t (mem_newTipSet.mp ht)
  intro t ht
  unfold firstTips at ht
  dsimp only at ht
  split at ht
  · obtain ht | ht := mem_append.mp (mem_newTipSet.mp ht)
    · exact hbase t ht
    · exact hdiscreet.tips key t (mem_of_mem_filter ht)
  · exact hbase t ht

theorem Inv.start (hstart : Start node txnID s) : Inv node txnID s := by
  obtain ⟨hctx, hnoops, hunused, hdiscreet⟩ := hstart
  have hkeys : s.ctx.keys = ∅ := by rw [hctx]
  refine ⟨hdiscreet, fun _ => hkeys, fun htx => ?_, fun t eff heff htxn => absurd htxn (hunused t eff heff),
    fun t ht => ?_, fun key ck hck => ?_⟩
  · rw [hctx] at htx
    cases htx
  · rw [hnoops] at ht
    cases ht
  · rw [hkeys] at hck
    cases hck

theorem Inv.outside (hinv : Inv node txnID s) {nd : Node} (houtside : Outside node txnID s nd) :
    Inv node txnID { s with nd := nd } := by
  have hgrows : Grows node s { s with nd := nd } := ⟨houtside.nextOff, fun _ hown => .inl hown, houtside.kept⟩
  refine ⟨houtside.discreet, hinv.idle, hinv.txn, fun t eff heff htxn => ?_,
    fun t ht => hgrows.watched (hinv.noops t ht), fun key ck hck => hgrows.chained (hinv.keys key ck hck)⟩
  exact hinv.only t eff ((houtside.foreign t eff heff).resolve_right (fun hne => hne htxn)) htxn

theorem Inv.watch (hinv : Inv node txnID s) (key : Bytes) (hlc : Timestamp) (hidle : s.ctx.inTx = false) :
    Inv node txnID (s.watch rt node txnID key hlc) := by
  have hkeys := hinv.idle hidle
  have hnone (t : Tip) : ¬ s.Own t := by
    rintro ⟨key, ck, hck, -⟩
    rw [hkeys] at hck
    cases hck
  have hgrows : Grows node s (s.watch rt node txnID key hlc) :=
    ⟨le_succ _, fun _ hown => .inl hown, fun _ _ heff => lookup_mint_of_some hinv.discreet heff⟩
  have hfresh : (s.watch rt node txnID key hlc).Public node (s.nd.nextTip node) :=
    ⟨fun _ => le_refl _, hnone _⟩
  refine ⟨⟨cached_mint hinv.discreet _, fun k t ht => ?_, fun p base hp b hb => ?_⟩, fun _ => hkeys, hinv.txn,
    fun t eff heff htxn => ?_, fun t ht => ?_, fun k ck hck => hgrows.chained (hinv.keys k ck hck)⟩
  · have htips : t ∈ ((s.nd.mint node _).updateIndex key (s.nd.tips key) (s.nd.nextTip node)).tips k := ht
    rw [tips_updateIndex] at htips
    split at htips
    · obtain ⟨hold, -⟩ | rfl := mem_updateIndex.mp htips
      · exact hgrows.public (hinv.discreet.tips key t hold)
      · exact hfresh
    · exact hgrows.public (hinv.discreet.tips k t htips)
  · exact hgrows.public (hinv.discreet.bases p base hp b hb)
  · obtain ⟨rfl, -⟩ | hold := cases_lookup_mint heff
    · exact .inl (mem_append_right _ (mem_singleton_self _))
    · exact (hinv.only t eff hold htxn).imp_left (mem_append_left _)
  · obtain hold | hnew := mem_append.mp ht
    · exact hgrows.watched (hinv.noops t hold)
    · rw [mem_singleton.mp hnew]
      refine ⟨hfresh, fun hzero => ?_, _, lookup_insert _, rfl, rfl, fun d hd => ?_⟩
      · cases congrArg EffectRef.offset hzero
      · have hd : d ∈ resolveTipDeps s.nd.pendingTxTips (s.nd.firstTips false key none).tips := by
          simpa [fill, hkeys, hidle] using hd
        exact hgrows.public (public_resolveTipDeps hinv.discreet
          (public_firstTips hinv.discreet (fun _ htips => (by cases htips))) d hd)

theorem lookup_emit (eff : Effect) (snapshotTips : Option (List Tip)) (key : Bytes) :
    (s.emit rt node eff snapshotTips).ctx.keys.lookup key =
      if key = eff.key then some ((s.nd.contextKey s.ctx eff.key snapshotTips).append s.ctx.inTx
        (s.nd.nextTip node) eff)
      else s.ctx.keys.lookup key := by
  split
  · rename_i hkey
    rw [hkey]
    exact AList.lookup_insert _
  · rename_i hkey
    exact AList.lookup_insert_ne hkey

theorem own_emit_iff (eff : Effect) (snapshotTips : Option (List Tip)) :
    (s.emit rt node eff snapshotTips).Own t ↔ s.Own t ∨ t = s.nd.nextTip node := by
  have hnotifies : t ∈ (s.nd.contextKey s.ctx eff.key snapshotTips).notifies ↔
      ∃ ck, s.ctx.keys.lookup eff.key = some ck ∧ t ∈ ck.notifies := by
    unfold contextKey
    cases s.ctx.keys.lookup eff.key <;> simp
  constructor
  · rintro ⟨key, ck, hck, ht⟩
    rw [lookup_emit] at hck
    split at hck
    · cases hck
      obtain ht | ht := mem_append.mp ht
      · exact .inl ⟨eff.key, hnotifies.mp ht⟩
      · exact .inr (mem_singleton.mp ht)
    · exact .inl ⟨key, ck, hck, ht⟩
  · rintro (⟨key, ck, hck, ht⟩ | rfl)
    · by_cases hkey : key = eff.key
      · subst hkey
        exact ⟨eff.key, _, (lookup_emit eff snapshotTips eff.key).trans (if_pos rfl),
          mem_append_left _ (hnotifies.mpr ⟨ck, hck, ht⟩)⟩
      · exact ⟨key, ck, (lookup_emit eff snapshotTips key).trans ((if_neg hkey).trans hck), ht⟩
    · exact ⟨eff.key, _, (lookup_emit eff snapshotTips eff.key).trans (if_pos rfl),
        mem_append_right _ (mem_singleton_self _)⟩

theorem Inv.grows_emit (hinv : Inv node txnID s) (eff : Effect) (snapshotTips : Option (List Tip)) :
    Grows node s (s.emit rt node eff snapshotTips) := by
  refine ⟨le_succ _, fun t hown => ?_, fun _ _ heff => lookup_mint_of_some hinv.discreet heff⟩
  refine ((own_emit_iff eff snapshotTips).mp hown).imp_right ?_
  rintro rfl
  exact ⟨rfl, lt_succ_self _⟩

/-- The entry of a key is still a chain after an effect was added to it. -/
theorem Inv.chained_emit (hinv : Inv node txnID s) (eff : Effect) (htx : s.ctx.inTx = true)
    (hread : ∀ tips, snapshotTips = some tips → ∀ t ∈ tips, s.Public node t) :
    (s.emit rt node eff snapshotTips).Chained node txnID
      ((s.nd.contextKey s.ctx eff.key snapshotTips).append s.ctx.inTx (s.nd.nextTip node) eff) := by
  have hgrows : Grows node s (s.emit rt node eff snapshotTips) := hinv.grows_emit eff snapshotTips
  have hfresh : s.nd.nextTip node ≠ .zero ∧ ∃ e, (s.emit rt node eff snapshotTips).nd.effectCache.lookup
      (s.nd.nextTip node) = some e ∧ e.txnId = txnID := by
    refine ⟨fun hzero => (by cases congrArg EffectRef.offset hzero), _, lookup_insert _, ?_⟩
    simp [fill, htx, hinv.txn htx]
  have hdeps : statedDeps (s.emit rt node eff snapshotTips).nd.effectCache (s.nd.nextTip node) =
      (s.nd.fill rt node s.ctx eff snapshotTips).deps := by
    rw [statedDeps, show (s.emit rt node eff snapshotTips).nd.effectCache.lookup (s.nd.nextTip node) = _ from
      lookup_insert _, elim_some]
  have hinitial : ∀ t ∈ s.nd.firstTips s.ctx.inTx eff.key snapshotTips, s.Public node t :=
    public_firstTips hinv.discreet hread
  cases hold : s.ctx.keys.lookup eff.key with
  | none =>
    have hentry : s.nd.contextKey s.ctx eff.key snapshotTips =
        { initialTips := s.nd.firstTips s.ctx.inTx eff.key snapshotTips, lastOffset := .zero,
          readOnly := s.ctx.inTx } := by simp [contextKey, hold]
    rw [hentry]
    refine ⟨fun t ht => hgrows.public (hinitial t (by simpa using ht)), ⟨_, fun d hd => hgrows.public
      (public_resolveTipDeps hinv.discreet hinitial d hd), ⟨?_, trivial⟩⟩, rfl, nodup_singleton _, ?_⟩
    · simp [hdeps, fill, hold]
    · intro t ht
      rw [mem_singleton.mp ht]
      exact hfresh
  | some ck =>
    have hentry : s.nd.contextKey s.ctx eff.key snapshotTips = ck := by simp [contextKey, hold]
    obtain ⟨hfirst, ⟨base, hbase, hlinear⟩, hlast, hnodup, hmarked⟩ := hgrows.chained (hinv.keys eff.key ck hold)
    rw [hentry]
    refine ⟨fun t ht => hfirst t (by simpa using ht), ⟨base, hbase, linear_append.mpr ⟨hlinear, ?_, trivial⟩⟩,
      getLast?_concat, nodup_append'.mpr ⟨hnodup, nodup_singleton _, ?_⟩, fun t ht => ?_⟩
    · simp [hdeps, fill, hold, after, hlast]
    · simp only [disjoint_singleton]
      intro hmem
      obtain ⟨-, e, he, -⟩ := (hinv.keys eff.key ck hold).marked _ hmem
      exact not_mem_nextTip hinv.discreet (mem_iff.mpr ⟨e, he⟩)
    · obtain ht | ht := mem_append.mp ht
      · exact hmarked t ht
      · rw [mem_singleton.mp ht]
        exact hfresh

theorem Inv.emit (hinv : Inv node txnID s) (eff : Effect) (htx : s.ctx.inTx = true)
    (hread : ∀ tips, snapshotTips = some tips → ∀ t ∈ tips, s.Public node t) :
    Inv node txnID (s.emit rt node eff snapshotTips) := by
  have hgrows : Grows node s (s.emit rt node eff snapshotTips) := hinv.grows_emit eff snapshotTips
  refine ⟨⟨cached_mint hinv.discreet _, fun k t ht => hgrows.public (hinv.discreet.tips k t ht),
    fun p base hp b hb => hgrows.public (hinv.discreet.bases p base hp b hb)⟩, fun hidle => ?_, hinv.txn,
    fun t e he htxn => ?_, fun t ht => hgrows.watched (hinv.noops t ht), fun key ck hck => ?_⟩
  · exact absurd (htx.symm.trans hidle) (by decide)
  · rw [own_emit_iff]
    obtain ⟨rfl, -⟩ | hold := cases_lookup_mint he
    · exact .inr (.inr rfl)
    · exact (hinv.only t e hold htxn).imp_right .inl
  · rw [lookup_emit] at hck
    split at hck
    · exact some.inj hck ▸ hinv.chained_emit eff htx hread
    · exact hgrows.chained (hinv.keys key ck hck)

theorem Inv.step (hinv : Inv node txnID s) (hstep : Step rt node txnID s s') : Inv node txnID s' := by
  cases hstep with
  | watch key hlc hidle => exact hinv.watch key hlc hidle
  | beginTx =>
    have hgrows : Grows node s (s.beginTx txnID) := ⟨le_refl _, fun _ hown => .inl hown, fun _ _ heff => heff⟩
    exact ⟨⟨hinv.discreet.cached, hinv.discreet.tips, hinv.discreet.bases⟩, fun hidle => (by cases hidle),
      fun _ => rfl, hinv.only, fun t ht => hgrows.watched (hinv.noops t ht),
      fun key ck hck => hgrows.chained (hinv.keys key ck hck)⟩
  | emit eff snapshotTips htx hread => exact hinv.emit eff htx hread
  | outside nd houtside => exact hinv.outside houtside

theorem Inv.run {start : TxnBuild} (hstart : Start node txnID start)
    (hrun : Relation.ReflTransGen (Step rt node txnID) start s) : Inv node txnID s := by
  induction hrun with
  | refl => exact .start hstart
  | tail _ hstep ih => exact ih.step hstep

theorem lookup_publish {nd : Node} {ctx : Context} {p : Tip} (hp : p ∉ lastOffsets ctx) :
    (nd.publish ctx).pendingTxTips.lookup p = nd.pendingTxTips.lookup p := by
  unfold lastOffsets at hp
  unfold publish
  revert hp
  induction ctx.keys.entries generalizing nd with
  | nil => exact fun _ => rfl
  | cons e entries ih =>
    intro hp
    rw [map_cons, mem_cons, not_or] at hp
    rw [foldl_cons, ih hp.2]
    exact lookup_insert_of_ne _ hp.1

/-- The consumed tips of the bind are none of the transaction's effects. -/
theorem Inv.not_own_of_consumed (hinv : Inv node txnID s) (hck : s.ctx.keys.lookup key = some ck) :
    ∀ c ∈ resolveTipDeps (s.nd.publish s.ctx).pendingTxTips ck.initialTips.tips, ¬ s.Own c := by
  intro c hc
  obtain ⟨⟨t, ht, hreach⟩, -⟩ := mem_resolveTipDeps_iff.mp hc
  refine hreach.mem_of_closed (s := {t | ¬ s.Own t}) (fun p hp b hb => ?_) ((hinv.keys key ck hck).initial t ht).2
  have hlast : p ∉ lastOffsets s.ctx := by
    intro hmem
    obtain ⟨⟨k, other⟩, he, rfl⟩ := mem_map.mp hmem
    have hother := AList.mem_lookup_iff.mpr he
    exact hp ⟨k, other, hother, mem_of_getLast? (hinv.keys k other hother).last⟩
  have hbase := lookup_of_pendingDeps_ne_nil (ne_nil_of_mem hb)
  rw [lookup_publish hlast] at hbase
  exact (hinv.discreet.bases p _ hbase b hb).2

theorem keyBindOf_bind (hck : s.ctx.keys.lookup key = some ck) (hlc : Timestamp) : keyBindOf (s.bind rt node hlc) key =
      some ⟨key, resolveTipDeps (s.nd.publish s.ctx).pendingTxTips ck.initialTips.tips, ck.lastOffset⟩ := by
  have hkeys : s.ctx.keys.entries ≠ [] := ne_nil_of_mem (AList.mem_lookup_iff.mp hck)
  have hentry : ⟨key, resolveTipDeps (s.nd.publish s.ctx).pendingTxTips ck.initialTips.tips, ck.lastOffset⟩ ∈
      ((s.nd.publish s.ctx).buildBind node s.ctx hlc).keys := mem_buildBind_iff.mpr ⟨ck, hck, rfl, rfl⟩
  exact find_key_of_nodup (bindReady_buildBind hkeys).nodup hentry

/-- The effects that a reader of the bind resolves: all that the origin had and all that the
transaction depends on. Of the transaction it may also have what came later, as the bind. -/
structure ReadBy (node : NodeID) (txnID : Bytes) (s : TxnBuild) (log : Log) : Prop where
  kept : ∀ t eff, s.nd.effectCache.lookup t = some eff → log.lookup t = some eff
  resident : ∀ t, t ∈ s.noops ∨ s.Own t → ∀ d ∈ statedDeps log t, d ≠ .zero → d ∈ log
  foreign : ∀ t eff, log.lookup t = some eff → s.nd.effectCache.lookup t = some eff ∨ eff.txnId ≠ txnID ∨
    (t.nodeId = node ∧ s.nd.nextOff < t.offset)

end TxnBuild

theorem mapM_lookup_eq {log : Log} {ts : List Tip} (hts : ∀ t ∈ ts, t ∈ log) :
    ts.mapM log.lookup = some (ts.filterMap log.lookup) := by
  induction ts with
  | nil => rfl
  | cons t ts ih =>
    obtain ⟨eff, heff⟩ := mem_iff.mp (hts t mem_cons_self)
    rw [mapM_cons, heff, ih (fun u hu => hts u (mem_cons_of_mem t hu))]
    simp [heff]

/-- Whether a position holds an effect of a transaction. -/
def ofTxn (log : Log) (txnID : Bytes) (t : Tip) : Bool := (log.lookup t).any (fun eff => eff.txnId = txnID)

theorem filterMap_ofTxn (log : Log) (txnID : Bytes) (ts : List Tip) :
    (ts.filterMap log.lookup).filter (fun eff => eff.txnId = txnID) =
      (ts.filter (ofTxn log txnID)).filterMap log.lookup := by
  rw [filter_filterMap, filterMap_filter]
  refine filterMap_congr fun t _ => ?_
  unfold ofTxn
  cases log.lookup t with
  | none => rfl
  | some eff => by_cases htxn : eff.txnId = txnID <;> simp [htxn]

namespace TxnBuild

variable {rt : Runtime} {node : NodeID} {txnID : Bytes} {s : TxnBuild} {log : Log} {consumed : List Tip}

theorem mem_bindWalkDeps_iff {d t : Tip} : d ∈ bindWalkDeps log txnID consumed t ↔
    ofTxn log txnID t = true ∧ d ∈ statedDeps log t ∧ d ∉ consumed ∧ d ≠ .zero := by
  unfold bindWalkDeps ofTxn statedDeps
  cases log.lookup t with
  | none => simp
  | some eff => by_cases htxn : eff.txnId = txnID <;> simp [htxn]

theorem mem_of_ofTxn {t : Tip} (ht : ofTxn log txnID t = true) : t ∈ log := by
  obtain ⟨eff, heff, -⟩ := (any_eq_true _ _).mp ht
  exact mem_iff.mpr ⟨eff, heff⟩

/-- The walk that starts at public positions stays there, and comes to no effects of the
transaction but noops. -/
theorem Inv.mem_noops_of_reach (hinv : Inv node txnID s) (hread : s.ReadBy node txnID log) {d r : Tip}
    (hd : s.Public node d) (hreach : Reach (bindWalkDeps log txnID consumed) d r) :
    s.Public node r ∧ (ofTxn log txnID r = true → r ∈ s.noops) := by
  have hnoop {t : Tip} (ht : s.Public node t) (hof : ofTxn log txnID t = true) : t ∈ s.noops := by
    obtain ⟨eff, heff, htxn⟩ := (any_eq_true _ _).mp hof
    have htxn := of_decide_eq_true htxn
    obtain hcached | hne | ⟨hnode, hlt⟩ := hread.foreign t eff heff
    · exact (hinv.only t eff hcached htxn).resolve_right ht.2
    · exact absurd htxn hne
    · exact absurd (ht.1 hnode) (not_le.mpr hlt)
  have hpublic : s.Public node r := by
    refine hreach.mem_of_closed (s := {t | s.Public node t}) (fun t ht d hd => ?_) hd
    obtain ⟨hof, hd, -, -⟩ := mem_bindWalkDeps_iff.mp hd
    obtain ⟨-, -, e, he, -, -, hdeps⟩ := hinv.noops t (hnoop ht hof)
    rw [statedDeps, hread.kept t e he] at hd
    exact hdeps d hd
  exact ⟨hpublic, hnoop hpublic⟩

/-- What the walk of `collectBindEffects` comes to: the effects of the transaction on the key
from the last to the first, and then the effects below the first. -/
theorem Inv.walk_bind (hinv : Inv node txnID s) (hread : s.ReadBy node txnID log) {ck : ContextKey}
    (hck : s.ctx.keys.lookup key = some ck) (hconsumed : ∀ c ∈ consumed, ¬ s.Own c) :
    ∃ first later rest, ck.notifies = first :: later ∧ walkFrom .lifo (bindWalkDeps log txnID consumed) log.keys
        ([ck.lastOffset].filter (fun t => t ∉ consumed ∧ t ≠ .zero)) [] = ck.notifies.reverse ++ rest ∧
      (ck.notifies.reverse ++ rest).Nodup ∧ (∀ r ∈ rest, ∃ d ∈ bindWalkDeps log txnID consumed first, s.Public node d ∧
        Reach (bindWalkDeps log txnID consumed) d r) ∧
      ∀ d ∈ bindWalkDeps log txnID consumed first, d ∈ ck.notifies.reverse ++ rest := by
  obtain ⟨-, ⟨base, hbase, hlinear⟩, hlast, hnodup, hmarked⟩ := hinv.keys key ck hck
  obtain ⟨before, hsplit⟩ := getLast?_eq_some_iff.mp hlast
  have hkeep : ∀ t ∈ ck.notifies, decide (t ∉ consumed ∧ t ≠ .zero) = true := fun t ht =>
    decide_eq_true ⟨fun hmem => hconsumed t hmem ⟨key, ck, hck, ht⟩, (hmarked t ht).1⟩
  have hfollowed : Linear (bindWalkDeps log txnID consumed) (base.filter (fun t => t ∉ consumed ∧ t ≠ .zero))
      (ck.notifies.filter (fun t => t ∉ consumed ∧ t ≠ .zero)) := by
    refine hlinear.filter (fun t ht hdrop => ?_) (fun t ht _ => ?_)
    · rw [hkeep t ht] at hdrop
      cases hdrop
    · obtain ⟨-, eff, heff, htxn⟩ := hmarked t ht
      simp [bindWalkDeps, statedDeps, heff, hread.kept t eff heff, htxn]
  rw [filter_eq_self.mpr hkeep, hsplit] at hfollowed
  rw [hsplit] at hnodup
  obtain ⟨rest, hwalk, hall, hbelow, habove⟩ := hfollowed.walkFrom_eq (d := .lifo)
    (fun t ht => mem_keys.mpr (mem_of_ofTxn (mem_bindWalkDeps_iff.mp (head_mem ht)).1)) hnodup
  obtain ⟨first, later, hfirst⟩ := exists_cons_of_ne_nil (show before ++ [ck.lastOffset] ≠ [] by simp)
  have hdeps : bindWalkDeps log txnID consumed first = base.filter (fun t => t ∉ consumed ∧ t ≠ .zero) := by
    rw [hfirst] at hfollowed
    exact hfollowed.1
  have hstart : [ck.lastOffset].filter (fun t => t ∉ consumed ∧ t ≠ .zero) = [ck.lastOffset] :=
    filter_eq_self.mpr fun t ht => hkeep t (by rw [mem_singleton.mp ht, hsplit]; simp)
  rw [hstart, hsplit]
  refine ⟨first, later, rest, hfirst, hwalk, hall, fun r hr => ?_, hdeps ▸ habove⟩
  obtain ⟨d, hd, hdr⟩ := hbelow r hr
  exact ⟨d, hdeps ▸ hd, hbase d (mem_of_mem_filter hd), hdr⟩

end TxnBuild

/-- A bind stands for the effects of its transaction on a key, each once and in the order of
their emission, whatever the consumed tips were resolved to. Only noops of WATCH can come
before them: those that the first effect depends on and that were not consumed. -/
theorem bind_contributes_own_effects {rt : Runtime} {node : NodeID} {txnID : Bytes} {start s : TxnBuild}
    (hstart : TxnBuild.Start node txnID start)
    (hrun : Relation.ReflTransGen (TxnBuild.Step rt node txnID) start s) {log : Log}
    (hread : s.ReadBy node txnID log) {key : Bytes} {ck : ContextKey} (hck : s.ctx.keys.lookup key = some ck)
    (hlc : Timestamp) : ∃ noops first later, ck.notifies = first :: later ∧ (noops ++ ck.notifies).Nodup ∧
      (∀ t ∈ noops, t ∈ s.noops) ∧ (∀ t ∈ noops ++ ck.notifies, t ∈ log) ∧
      collectBindEffects log (s.bind rt node hlc) key = some ((noops ++ ck.notifies).filterMap log.lookup) ∧
      (noops = [] ↔ ∀ d ∈ statedDeps log first, d ∈ s.noops →
        d ∈ resolveTipDeps (s.nd.publish s.ctx).pendingTxTips ck.initialTips.tips) := by
  have hinv := TxnBuild.Inv.run hstart hrun
  have hconsumed := hinv.not_own_of_consumed hck
  have htxn : (s.bind rt node hlc).txnId = txnID := by
    refine hinv.txn (Bool.eq_true_of_not_eq_false fun hidle => ?_)
    rw [hinv.idle hidle] at hck
    cases hck
  unfold collectBindEffects
  rw [TxnBuild.keyBindOf_bind hck]
  dsimp only
  rw [htxn]
  generalize resolveTipDeps (s.nd.publish s.ctx).pendingTxTips ck.initialTips.tips = consumed at hconsumed ⊢
  obtain ⟨first, later, rest, hfirst, hwalk, hnodup, hbelow, habove⟩ := hinv.walk_bind hread hck hconsumed
  have hown : ∀ t ∈ ck.notifies, ofTxn log txnID t = true := by
    intro t ht
    obtain ⟨-, eff, heff, htxn⟩ := (hinv.keys key ck hck).marked t ht
    simp [ofTxn, hread.kept t eff heff, htxn]
  have hnoop {d r : Tip} (hd : s.Public node d) (hdr : Reach (bindWalkDeps log txnID consumed) d r) :=
    hinv.mem_noops_of_reach hread hd hdr
  have hresident : ∀ t ∈ ck.notifies.reverse ++ rest, t ∈ log := by
    intro t ht
    obtain ht | ht := mem_append.mp ht
    · exact TxnBuild.mem_of_ofTxn (hown t (mem_reverse.mp ht))
    · obtain ⟨d, hd, hpublic, hdt⟩ := hbelow t ht
      obtain rfl | ⟨u, hdu, hut⟩ := Relation.ReflTransGen.cases_tail hdt
      · obtain ⟨-, hstated, -, hzero⟩ := TxnBuild.mem_bindWalkDeps_iff.mp hd
        exact hread.resident first (.inr ⟨key, ck, hck, by simp [hfirst]⟩) t hstated hzero
      · obtain ⟨hof, hstated, -, hzero⟩ := TxnBuild.mem_bindWalkDeps_iff.mp hut
        exact hread.resident u (.inl ((hnoop hpublic hdu).2 hof)) t hstated hzero
  have hselected : ((ck.notifies.reverse ++ rest).filter (ofTxn log txnID)).reverse =
      (rest.filter (ofTxn log txnID)).reverse ++ ck.notifies := by
    rw [filter_append, filter_eq_self.mpr (fun t ht => hown t (mem_reverse.mp ht)), reverse_append,
      reverse_reverse]
  refine ⟨(rest.filter (ofTxn log txnID)).reverse, first, later, hfirst, ?_, fun t ht => ?_, fun t ht => ?_, ?_, ?_⟩
  · rw [← hselected, nodup_reverse]
    exact hnodup.filter _
  · obtain ⟨ht, hof⟩ := mem_filter.mp (mem_reverse.mp ht)
    obtain ⟨d, -, hpublic, hdt⟩ := hbelow t ht
    exact (hnoop hpublic hdt).2 hof
  · rw [← hselected] at ht
    exact hresident t (mem_of_mem_filter (mem_reverse.mp ht))
  · rw [hwalk, mapM_lookup_eq hresident, map_some, filterMap_ofTxn, ← filterMap_reverse, hselected]
  · rw [reverse_eq_nil_iff, filter_eq_nil_iff]
    constructor
    · intro hnone d hstated hd
      by_contra hnot
      obtain ⟨hpublic, hzero, eff, heff, -, htxn, -⟩ := hinv.noops d hd
      have hof : ofTxn log txnID d = true := by simp [ofTxn, hread.kept d eff heff, htxn]
      obtain hmem | hmem := mem_append.mp (habove d (TxnBuild.mem_bindWalkDeps_iff.mpr
        ⟨hown first (by simp [hfirst]), hstated, hnot, hzero⟩))
      · exact hpublic.2 ⟨key, ck, hck, mem_reverse.mp hmem⟩
      · exact hnone d hmem hof
    · intro hall t ht hof
      obtain ⟨d, hd, hpublic, hdt⟩ := hbelow t ht
      obtain ⟨-, hstated, hnot, -⟩ := TxnBuild.mem_bindWalkDeps_iff.mp hd
      have hforeign : ¬ ofTxn log txnID d = true := fun hof =>
        hnot (hall d hstated ((hnoop hpublic (.refl d)).2 hof))
      obtain rfl | ⟨u, hu, -⟩ := hdt.cases_head
      · exact hforeign hof
      · exact hforeign (TxnBuild.mem_bindWalkDeps_iff.mp hu).1

/-- A key with one effect of another node. -/
def oneTip : TxnBuild where
  nd :=
    { effectCache := (∅ : Log).insert ⟨2, 1⟩ { key := [], kind := .noop }
      index := (∅ : Map Bytes TipSet).insert [] (newTipSet [⟨2, 1⟩]) }

/-- A transaction that was watching the key has written to it. -/
def watchedWrite : TxnBuild :=
  ((oneTip.watch idleRuntime 1 [7] [] none).beginTx [7]).emit idleRuntime 1 { key := [], kind := .noop }
    (some [⟨1, 1⟩])

/-- The noop of WATCH came back from a peer, and counts as in progress. -/
def backfilledNoop : TxnBuild :=
  { watchedWrite with
    nd := { watchedWrite.nd with pendingTxTips := (∅ : Map Tip (List Tip)).insert ⟨1, 1⟩ [⟨2, 1⟩] } }

theorem start_oneTip : TxnBuild.Start 1 [7] oneTip := by
  have hcached {t : Tip} (ht : t ∈ oneTip.nd.effectCache) : t = ⟨2, 1⟩ :=
    (mem_insert.mp ht).resolve_right notMem_empty
  have hpublic {t : Tip} (ht : t = ⟨2, 1⟩) : oneTip.Public 1 t := by
    subst ht
    refine ⟨fun hnode => (by cases hnode), ?_⟩
    rintro ⟨key, ck, hck, -⟩
    cases hck
  refine ⟨rfl, rfl, fun t eff heff htxn => ?_, fun t ht hnode => ?_, fun key t ht => ?_, fun p base hp => ?_⟩
  · obtain rfl := hcached (mem_iff.mpr ⟨eff, heff⟩)
    cases (lookup_insert _).symm.trans heff
    cases htxn
  · cases hcached ht
    cases hnode
  · refine hpublic ?_
    by_cases hkey : key = []
    · subst hkey
      exact mem_singleton.mp (mem_newTipSet.mp ht)
    · have hnone : oneTip.nd.tips key = .empty := by
        rw [tips, show oneTip.nd.index.lookup key = none from
          (lookup_insert_of_ne _ hkey).trans (lookup_empty key), getD_none]
      rw [hnone] at ht
      cases ht
  · cases hp

theorem run_watchedWrite : Relation.ReflTransGen (TxnBuild.Step idleRuntime 1 [7]) oneTip watchedWrite := by
  refine .tail (.tail (.tail .refl (.watch oneTip [] none rfl)) (.beginTx _))
    (.emit _ _ _ rfl fun tips htips t ht => ?_)
  cases htips
  rw [mem_singleton.mp ht]
  refine ⟨fun _ => le_refl 1, ?_⟩
  rintro ⟨key, ck, hck, -⟩
  cases hck

theorem own_watchedWrite_iff {t : Tip} : watchedWrite.Own t ↔ t = ⟨1, 2⟩ := by
  refine (TxnBuild.own_emit_iff _ _).trans (or_iff_right ?_)
  rintro ⟨key, ck, hck, -⟩
  cases hck

/-- The entry of the key in the two builds. -/
def watchedKey : ContextKey :=
  { initialTips := newTipSet [⟨1, 1⟩], lastOffset := ⟨1, 2⟩, notifies := [⟨1, 2⟩], readOnly := true }

theorem bind_contributes_own_effects_watched :
    collectBindEffects watchedWrite.nd.effectCache (watchedWrite.bind idleRuntime 1 none) [] =
      some (watchedKey.notifies.filterMap watchedWrite.nd.effectCache.lookup) := by
  have hread : watchedWrite.ReadBy 1 [7] watchedWrite.nd.effectCache := by
    refine ⟨fun _ _ heff => heff, fun t ht => ?_, fun _ _ heff => .inl heff⟩
    obtain ht | ht := ht
    · rw [mem_singleton.mp ht]
      decide +kernel
    · rw [own_watchedWrite_iff.mp ht]
      decide +kernel
  have hentry : watchedWrite.ctx.keys.lookup [] = some watchedKey := rfl
  obtain ⟨noops, first, later, hfirst, -, -, -, hcollect, hnone⟩ :=
    bind_contributes_own_effects start_oneTip run_watchedWrite hread hentry none
  obtain ⟨rfl, -⟩ := cons.inj hfirst
  rw [hcollect, hnone.mpr (by decide +kernel), nil_append]

/-- The noop is no longer consumed at the flush, and the bind stands for it as well. -/
theorem bind_contributes_backfilled_noop :
    Relation.ReflTransGen (TxnBuild.Step idleRuntime 1 [7]) oneTip backfilledNoop ∧
      backfilledNoop.ctx.keys.lookup [] = some watchedKey ∧
      collectBindEffects backfilledNoop.nd.effectCache (backfilledNoop.bind idleRuntime 1 none) [] ≠
        some (watchedKey.notifies.filterMap backfilledNoop.nd.effectCache.lookup) := by
  have hinv := TxnBuild.Inv.run start_oneTip run_watchedWrite
  refine ⟨.tail run_watchedWrite (.outside _ _ ⟨fun _ _ heff => heff, fun _ _ heff => .inl heff, le_refl _,
    hinv.discreet.cached, hinv.discreet.tips, fun p base hp b hb => ?_⟩), rfl, fun heq => ?_⟩
  · by_cases hnoop : p = ⟨1, 1⟩
    · subst hnoop
      cases (lookup_insert _).symm.trans hp
      rw [mem_singleton.mp hb]
      refine ⟨fun hnode => (by cases hnode), fun hown => ?_⟩
      cases own_watchedWrite_iff.mp hown
    · cases (lookup_insert_of_ne _ hnoop).symm.trans hp
  · have hlength := congrArg (Option.map length) heq
    revert hlength
    decide +kernel

end swytch.effects
