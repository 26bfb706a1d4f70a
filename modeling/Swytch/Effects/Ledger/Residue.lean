import Swytch.Effects.Horizon.Linked
import Swytch.Effects.Ledger

open swytch.proto List Finmap Option
open Bool hiding not_or not_not

namespace swytch.effects

open KeyBind

open Node

variable {bind : TransactionalBindEffect} {t : Tip} {ctx : Context} {l : Ledger} {ptxn : PendingTxn}

namespace HorizonSet

/-- An added bind is in the set and in the group its entry names. -/
theorem exists_join_of_add {h : HorizonSet} {txnID : Bytes} {bind : TransactionalBindEffect}
    (hvisible : h.isInvisible txnID = false) :
    ∃ (h' : HorizonSet) (g : Nat), h.add txnID bind = h'.join txnID bind g := by
  unfold add
  rw [if_neg (by rw [hvisible]; exact false_ne_true)]
  split
  · exact ⟨_, _, rfl⟩
  · exact ⟨_, _, rfl⟩

theorem lookup_join (h : HorizonSet) (txnID : Bytes) (bind : TransactionalBindEffect) (g : Nat) :
    (h.join txnID bind g).entries.lookup txnID = some ⟨bind, g⟩ :=
  lookup_insert _

theorem mem_join (h : HorizonSet) (txnID : Bytes) (bind : TransactionalBindEffect) (g : Nat) :
    (txnID, bind) ∈ ((h.join txnID bind g).heap g).entries := by
  simp [join, setGroup]

theorem lookup_releaseBind (pending : PendingTxTips) (bind : TransactionalBindEffect) (t : Tip) :
    (releaseBind pending bind).lookup t = if t ∈ bind.keys.map newTip then none else pending.lookup t :=
  lib.lookup_foldl_erase _ _ _

theorem lookup_foldl_releaseBind {binds : List TransactionalBindEffect} {pending : PendingTxTips}
    (hbind : bind ∈ binds) (ht : t ∈ bind.keys.map newTip) :
    (binds.foldl releaseBind pending).lookup t = none := by
  have hkeep : ∀ (binds : List TransactionalBindEffect) (pending : PendingTxTips), pending.lookup t = none →
      (binds.foldl releaseBind pending).lookup t = none := by
    intro binds
    induction binds with
    | nil => exact fun _ hnone => hnone
    | cons b binds ih =>
      intro pending hnone
      apply ih
      rw [lookup_releaseBind, hnone, ite_self]
  induction binds generalizing pending with
  | nil => cases hbind
  | cons b binds ih =>
    rcases mem_cons.mp hbind with rfl | hbind
    · exact hkeep binds (releaseBind pending bind) (by rw [lookup_releaseBind, if_pos ht])
    · exact ih hbind

theorem pruneGroups_entries (h : HorizonSet) : h.pruneGroups.entries = h.entries := rfl

/-- Making a group visible releases each of its members. -/
theorem makeGroupVisible_of_mem {s : HorizonSet × PendingTxTips} {g : Nat} {txnID : Bytes}
    (hmem : (txnID, bind) ∈ (s.1.heap g).entries) : (makeGroupVisible s g).1.isInvisible txnID = false ∧
      ∀ t ∈ bind.keys.map newTip, (makeGroupVisible s g).2.lookup t = none := by
  constructor
  · rw [isInvisible, lookup_makeGroupVisible, if_pos (show txnID ∈ s.1.members g from mem_map.mpr ⟨_, hmem, rfl⟩)]
    rfl
  · intro t ht
    simp only [makeGroupVisible, foldl_resolve]
    exact lookup_foldl_releaseBind (mem_map.mpr ⟨_, hmem, rfl⟩) ht

/-- Both ends of the wait of an added bind release it. -/
theorem settled_of_add {h : HorizonSet} {txnID : Bytes} {bind : TransactionalBindEffect} {pending : PendingTxTips}
    (hvisible : h.isInvisible txnID = false) :
    ((makeVisible (h.add txnID bind, pending) txnID).1.isInvisible txnID = false ∧
      ∀ t ∈ bind.keys.map newTip, (makeVisible (h.add txnID bind, pending) txnID).2.lookup t = none) ∧
    ((abort (h.add txnID bind, pending) txnID).1.isInvisible txnID = false ∧
      ∀ t ∈ bind.keys.map newTip, (abort (h.add txnID bind, pending) txnID).2.lookup t = none) := by
  obtain ⟨h', g, hadd⟩ := @exists_join_of_add h txnID bind hvisible
  rw [hadd]
  constructor
  · simp only [makeVisible, lookup_join, elim_some]
    exact makeGroupVisible_of_mem (mem_join h' txnID bind g)
  · simp only [abort, lookup_join, elim_some, resolve]
    constructor
    · simp only [isInvisible, pruneGroups_entries, lookup_erase, isSome_none]
    · intro t ht
      rw [lookup_releaseBind, if_pos ht]

end HorizonSet

namespace Node

theorem pendingTxTips_indexBind (nd : Node) (bindOffset : Tip) (bind : TransactionalBindEffect) :
    (nd.indexBind bindOffset bind).pendingTxTips = nd.pendingTxTips := by
  unfold indexBind
  induction bind.keys generalizing nd with
  | nil => rfl
  | cons kb keys ih =>
    rw [foldl_cons, ih]
    rfl

theorem pendingTxTips_emitBind (rt : Runtime) (nd : Node) (self : NodeID) (c : Nat) (ctx : Context)
    (bind : TransactionalBindEffect) : (nd.emitBind rt self c ctx bind).pendingTxTips = nd.pendingTxTips :=
  pendingTxTips_indexBind (nd.mint self (bindEffect rt self ctx.txnID bind)) _ _

/-- Published data tips are registered as in progress. -/
theorem mem_pendingTxTips_publish {nd : Node} (ht : t ∈ lastOffsets ctx) : t ∈ (nd.publish ctx).pendingTxTips := by
  have hkeep : ∀ (entries : List ((_ : Bytes) × ContextKey)) (nd : Node), t ∈ nd.pendingTxTips →
      t ∈ (entries.foldl (fun nd e => nd.publishKey e.1 e.2) nd).pendingTxTips := by
    intro entries
    induction entries with
    | nil => exact fun _ hmem => hmem
    | cons e entries ih =>
      intro nd hmem
      apply ih
      exact mem_insert.mpr (.inr hmem)
  unfold lastOffsets at ht
  unfold publish
  revert ht
  induction ctx.keys.entries generalizing nd with
  | nil => exact fun ht => nomatch ht
  | cons e entries ih =>
    intro ht
    rw [map_cons, mem_cons] at ht
    rcases ht with rfl | ht
    · exact hkeep entries (nd.publishKey e.1 e.2) (mem_insert.mpr (.inl rfl))
    · exact ih ht

theorem newTips_buildBind (nd : Node) (self : NodeID) (ctx : Context) (hlc : Timestamp) :
    t ∈ (nd.buildBind self ctx hlc).keys.map newTip ↔ t ∈ lastOffsets ctx := by
  simp [buildBind, lastOffsets]

theorem nextTip_publish (nd : Node) (self : NodeID) (ctx : Context) :
    (nd.publish ctx).nextTip self = nd.nextTip self := by
  unfold publish
  induction ctx.keys.entries generalizing nd with
  | nil => rfl
  | cons e entries ih =>
    rw [foldl_cons, ih]
    rfl

theorem newTips_pendingTxn (rt : Runtime) (self : NodeID) (ctx : Context) (bindOffset : Tip)
    (bind : TransactionalBindEffect) :
    (pendingTxn rt self ctx bindOffset bind).keys.map PendingTxnKey.newTip = lastOffsets ctx := by
  simp [pendingTxn, lastOffsets]

end Node

namespace Ledger

theorem Clean.release {bindOffset : Tip} (htxn : bindOffset ∉ l.pendingTxns)
    (hhorizon : ∀ h, l.horizon = some h → h.isInvisible ctx.txnID = false) :
    Clean (l.release (lastOffsets ctx)) ctx bindOffset := by
  refine ⟨?_, htxn, hhorizon⟩
  intro t ht
  simp only [Ledger.release, pendingTxTips_foldl_release]
  rw [← lookup_eq_none, lib.lookup_foldl_erase, if_pos ht]

/-- A data tip that is still in progress is a residue. -/
theorem not_clean_of_pending {l : Ledger} {nd : Node} {ctx : Context} {bindOffset : Tip}
    (hkeys : ctx.keys.entries.isEmpty = false) (hpending : l.node.pendingTxTips = (nd.publish ctx).pendingTxTips) :
    ¬ Clean l ctx bindOffset := by
  intro hclean
  obtain ⟨e, entries, hentries⟩ := exists_cons_of_ne_nil (isEmpty_eq_false_iff.mp hkeys)
  have hmem : e.2.lastOffset ∈ lastOffsets ctx := by
    rw [lastOffsets, hentries]
    exact mem_cons_self
  have htip := hclean.tips e.2.lastOffset hmem
  rw [hpending] at htip
  exact htip (mem_pendingTxTips_publish hmem)

theorem notMem_erase_self {m : Map Tip PendingTxn} : t ∉ m.erase t := by
  rw [← lookup_eq_none]
  exact lookup_erase _ _

/-- Once the transaction is decided, what is left of it is what the horizon should have
cleaned up. -/
theorem clean_processResult_iff {state : TxnState}
    (hnewTips : ptxn.keys.map PendingTxnKey.newTip = lastOffsets ctx)
    (hhorizon : ∀ h, l.horizon = some h → h.isInvisible ctx.txnID = false) :
    Clean (l.processResult ptxn state).1 ctx ptxn.bindOffset ↔
      l.horizon.isNone ∨ ∀ t ∈ lastOffsets ctx, t ∉ l.node.pendingTxTips := by
  have hresult : (l.processResult ptxn state).1 =
      if l.horizon.isNone then
        { l with pendingTxns := l.pendingTxns.erase ptxn.bindOffset }.release (lastOffsets ctx)
      else { l with pendingTxns := l.pendingTxns.erase ptxn.bindOffset } := by
    cases state <;> simp only [processResult, hnewTips]
  rw [hresult]
  by_cases hnone : l.horizon.isNone
  · rw [if_pos hnone]
    exact ⟨fun _ => .inl hnone, fun _ => Clean.release notMem_erase_self hhorizon⟩
  · rw [if_neg hnone]
    constructor
    · exact fun hclean => .inr hclean.tips
    · exact fun htips => ⟨htips.resolve_left hnone, notMem_erase_self, hhorizon⟩

/-- The end of the wait takes the bind out of the horizon and its tips with it. -/
theorem settled_of_held {l : Ledger} {h : HorizonSet} {txnID : Bytes} {bind : TransactionalBindEffect}
    {state : TxnState} (hvisible : h.isInvisible txnID = false) (hheld : l.horizon = some (h.add txnID bind)) :
    (∀ h', (l.settleHorizon txnID state).horizon = some h' → h'.isInvisible txnID = false) ∧
      ∀ t ∈ bind.keys.map newTip, t ∉ (l.settleHorizon txnID state).node.pendingTxTips := by
  obtain ⟨⟨hmade, hmadeTips⟩, haborted, habortedTips⟩ :=
    @HorizonSet.settled_of_add h txnID bind l.node.pendingTxTips hvisible
  unfold settleHorizon
  simp only [hheld, ← lookup_eq_none]
  by_cases hstate : state = .committed
  · simp only [if_pos hstate, some.injEq]
    exact ⟨fun h' heq => heq ▸ hmade, hmadeTips⟩
  · simp only [if_neg hstate, some.injEq]
    exact ⟨fun h' heq => heq ▸ haborted, habortedTips⟩

theorem clean_replicate_iff {nd : Node} {o : FlushOutcome}
    (hkeys : ctx.keys.entries.isEmpty = false) (hpending : l.node.pendingTxTips = (nd.publish ctx).pendingTxTips)
    (hptxn : ptxn.keys.map PendingTxnKey.newTip = lastOffsets ctx)
    (hbind : ∀ t, t ∈ bind.keys.map newTip ↔ t ∈ lastOffsets ctx)
    (hhorizon : ∀ h, l.horizon = some h → h.isInvisible ctx.txnID = false) :
    Clean (l.replicate ctx ptxn bind o).1 ctx ptxn.bindOffset ↔
      (if !l.broadcaster || o.subscribers.isEmpty then l.horizon.isSome else !o.marshals) = false := by
  unfold replicate
  dsimp only
  by_cases hfast : ¬ l.broadcaster ∨ o.subscribers.isEmpty
  · have hfast' : (!l.broadcaster || o.subscribers.isEmpty) = true := by simpa using hfast
    rw [if_pos hfast, if_pos hfast']
    refine Iff.trans (clean_processResult_iff hptxn ?_) ?_
    · exact hhorizon
    constructor
    · rintro (hnone | htips)
      · simpa using hnone
      · exact absurd ⟨htips, notMem_empty, nofun⟩
          (@not_clean_of_pending { node := l.node, broadcaster := true } nd ctx ptxn.bindOffset hkeys hpending)
    · exact fun hnone => .inl (by simpa using hnone)
  · have hfast' : ¬ (!l.broadcaster || o.subscribers.isEmpty) = true := by simpa using hfast
    rw [if_neg hfast, if_neg hfast']
    by_cases hmarshals : o.marshals
    · rw [if_neg (by simpa using hmarshals)]
      simp only [hmarshals, Bool.not_true, iff_true]
      cases hl : l.horizon with
      | none =>
        refine (clean_processResult_iff hptxn ?_).mpr (.inl ?_)
        · simp [settleHorizon]
        · simp [settleHorizon]
      | some h =>
        obtain ⟨hvisible, htips⟩ := @settled_of_held
          { l with pendingTxns := l.pendingTxns.insert ptxn.bindOffset ptxn, horizon := some (h.add ctx.txnID bind) }
          h ctx.txnID bind o.decision (hhorizon h hl) rfl
        refine (clean_processResult_iff hptxn hvisible).mpr (.inr ?_)
        intro t ht
        exact htips t ((hbind t).mpr ht)
    · rw [if_pos (by simpa using hmarshals)]
      simp only [not_eq_true] at hmarshals
      simp only [hmarshals, Bool.not_false, Bool.true_eq_false, iff_false]
      exact not_clean_of_pending hkeys hpending

/-- A call of `flushTx` leaves something behind exactly if it returns between the
publication of the data tips and the point that cleans up. -/
theorem flushTx_clean_iff (rt : Runtime) {l : Ledger} (self : NodeID) (c : Nat) {ctx : Context} (o : FlushOutcome)
    (hclean : Clean l ctx (l.node.nextTip self)) :
    Clean (l.flushTx rt self c ctx o).1 ctx (l.node.nextTip self) ↔ l.residue ctx o = false := by
  unfold flushTx residue
  dsimp only
  by_cases hkeys : ctx.keys.entries.isEmpty
  · simp only [hkeys, if_true, Bool.not_true, Bool.false_and, iff_true]
    exact hclean
  rw [if_neg hkeys]
  rw [not_eq_true] at hkeys
  by_cases hreach : ¬ o.reachable ∨ ¬ o.subscribed
  · rw [if_pos hreach]
    refine ⟨fun _ => ?_, fun _ => hclean⟩
    obtain hreach | hreach := hreach
    · simp [not_eq_true _ ▸ hreach]
    · simp [not_eq_true _ ▸ hreach]
  rw [if_neg hreach]
  rw [not_or, not_not, not_not] at hreach
  simp only [hkeys, hreach.1, hreach.2, Bool.not_false, Bool.true_and]
  by_cases hpreflight : o.preflight
  swap
  · rw [if_pos hpreflight]
    rw [not_eq_true] at hpreflight
    simp only [hpreflight, Bool.false_and, iff_true]
    exact Clean.release hclean.txn hclean.horizon
  rw [if_neg (not_not.mpr hpreflight)]
  simp only [hpreflight, Bool.true_and]
  by_cases hvalidated : o.validated
  swap
  · rw [if_pos hvalidated]
    rw [not_eq_true] at hvalidated
    simp only [hvalidated, Bool.false_and, iff_true]
    exact Clean.release hclean.txn hclean.horizon
  rw [if_neg (not_not.mpr hvalidated)]
  simp only [hvalidated, Bool.true_and]
  by_cases hcompeting : o.competing
  · rw [if_pos hcompeting, if_pos hcompeting]
    cases hhorizon : l.horizon with
    | none =>
      simp only [isNone_none, if_true, isSome_none, iff_true]
      exact Clean.release hclean.txn (fun h hh => hclean.horizon h (hhorizon.trans hh))
    | some h =>
      simp only [isNone_some, false_eq_true, if_false, isSome_some, true_eq_false, iff_false]
      exact not_clean_of_pending hkeys rfl
  rw [if_neg hcompeting, if_neg hcompeting]
  by_cases hemits : o.emits
  swap
  · rw [if_pos hemits]
    rw [not_eq_true] at hemits
    simp only [hemits, Bool.not_false, Bool.true_or, Bool.true_eq_false, iff_false]
    exact not_clean_of_pending hkeys rfl
  rw [if_neg (not_not.mpr hemits)]
  simp only [hemits, Bool.not_true, Bool.false_or]
  by_cases hvoided : o.voided
  · rw [if_pos hvoided]
    simp only [hvoided, Bool.not_true, Bool.false_and, iff_true]
    exact Clean.release hclean.txn hclean.horizon
  rw [if_neg hvoided]
  rw [not_eq_true] at hvoided
  simp only [hvoided, Bool.not_false, Bool.true_and]
  have hnext := nextTip_publish l.node self ctx
  rw [← hnext]
  exact clean_replicate_iff hkeys (pendingTxTips_emitBind ..) (newTips_pendingTxn ..)
    (fun _ => newTips_buildBind ..) hclean.horizon

/-- A transaction that wrote one key. -/
def oneKeyContext : Context :=
  { keys := AList.insert [107] { initialTips := .empty, lastOffset := ⟨1, 1⟩, notifies := [⟨1, 1⟩] } ∅
    inTx := true, txnID := [11] }

/-- An engine of a cluster at whose key nobody else has subscribed. -/
def aloneInCluster : Ledger :=
  { node := { nextOff := 1 }, broadcaster := true, horizon := some {} }

theorem flushTx_clean_standalone :
    Clean ({ aloneInCluster with broadcaster := false, horizon := none }.flushTx idleRuntime 1 0 oneKeyContext {}).1
      oneKeyContext ⟨1, 2⟩ :=
  (@flushTx_clean_iff idleRuntime { aloneInCluster with broadcaster := false, horizon := none } 1 0 oneKeyContext {}
    ⟨by decide, by decide, nofun⟩).mpr (by decide)

/-- A commit without subscribers leaves its data tip in progress. -/
theorem flushTx_commit_leaves_pending : (aloneInCluster.flushTx idleRuntime 1 0 oneKeyContext {}).2 = none ∧
      (⟨1, 1⟩ : Tip) ∈ lastOffsets oneKeyContext ∧
      (⟨1, 1⟩ : Tip) ∈ (aloneInCluster.flushTx idleRuntime 1 0 oneKeyContext {}).1.node.pendingTxTips := by
  refine ⟨by decide, by decide, by decide⟩

end Ledger

end swytch.effects
