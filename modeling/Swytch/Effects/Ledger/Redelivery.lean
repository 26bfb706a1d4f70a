import Swytch.Effects.Horizon.Linked
import Swytch.Effects.Ledger
import Mathlib.Data.Finset.Sort
import Mathlib.Data.List.Lex

open swytch.lib swytch.proto swytch.keytrie Option List

namespace swytch.effects

open Node

open HorizonSet

variable {l l' : Ledger} {rt : Runtime} {s : HorizonSet × PendingTxTips} {self : NodeID} {nd nd' : Node} {t : Tip}
  {eff : Effect} {nacks : List NackNotify} {txnIDs : List Bytes}

namespace Ledger

/-- A verdict snapshot ends the wait of every transaction it decides. -/
def applySnapshotVerdicts (l : Ledger) (eff : Effect) : Ledger :=
  match l.horizon, eff.kind with
  | some h, .snapshot snap =>
    let s := (snap.txnVerdicts.keys.sort (· ≤ ·)).foldl makeVisible (h, l.node.pendingTxTips)
    { l with node := { l.node with pendingTxTips := s.2 }, horizon := some s.1 }
  | _, _ => l

/-- The start of `handleRemoteBind`: the bind is held invisible, or its tips are released
where there is no horizon. -/
def holdBind (l : Ledger) (eff : Effect) : Ledger :=
  match bindOf eff, l.horizon with
  | some bind, some h => { l with horizon := some ((h.add eff.txnId bind).scheduleMakeVisible eff.txnId) }
  | some bind, none => { l with node := { l.node with pendingTxTips := releaseBind l.node.pendingTxTips bind } }
  | none, _ => l

/-- `HandleRemote` with the horizon. -/
def handleRemote (rt : Runtime) (l : Ledger) (self : NodeID) (t : Tip) (eff : Effect) :
    Option (Ledger × List NackNotify) :=
  let ready := if l.node.authoritative eff then (l.applySnapshotVerdicts eff).holdBind eff else l
  (ready.node.handleRemote rt self t eff).map fun r => ({ ready with node := r.1 }, r.2)

/-- What happens at an engine: commands, deliveries and timers. -/
inductive Action where
  | subscribe (key : Bytes) (tips : List Tip)
  | newContext
  | beginTx (c : Nat) (txnID : Bytes)
  | emit (c : Nat) (eff : Effect) (snapshotTips : Option (List Tip))
  | flushNonTx (c : Nat) (key : Bytes)
  | flushTx (c : Nat) (o : FlushOutcome)
  | handleRemote (t : Tip) (eff : Effect)
  | fire (timer : Nat)

def setNode (l : Ledger) (nd : Node) : Ledger := { l with node := nd }

def fire (l : Ledger) (timer : Nat) : Ledger :=
  match l.horizon with
  | none => l
  | some h =>
    let s := HorizonSet.fire (h, l.node.pendingTxTips) timer
    { l with node := { l.node with pendingTxTips := s.2 }, horizon := some s.1 }

def step (rt : Runtime) (self : NodeID) (l : Ledger) : Action → Option Ledger
  | .subscribe key tips =>
    some (l.setNode { l.node.installTips key tips with subscriptions := insert key l.node.subscriptions })
  | .newContext => some (l.setNode l.node.newContext)
  | .beginTx c txnID =>
    l.node.contexts[c]?.map fun ctx => l.setNode (l.node.setContext c { ctx with inTx := true, txnID := txnID })
  | .emit c eff snapshotTips => l.node.contexts[c]?.map fun ctx =>
    l.setNode (l.node.emit rt self c ctx eff snapshotTips)
  | .flushNonTx c key =>
    l.node.contexts[c]?.bind fun ctx =>
      (ctx.keys.lookup key).map fun ck => l.setNode (l.node.flushNonTx c ctx key ck)
  | .flushTx c o => l.node.contexts[c]?.map fun ctx => (l.flushTx rt self c ctx o).1
  | .handleRemote t eff => (l.handleRemote rt self t eff).map Prod.fst
  | .fire timer => some (l.fire timer)

/-- A new engine. -/
def start (broadcaster : Bool) : Ledger :=
  { node := {}, broadcaster := broadcaster, horizon := if broadcaster then some {} else none }

/-- The horizon of an engine is well formed. -/
def Linked (l : Ledger) : Prop := ∀ h, l.horizon = some h → h.Linked

theorem linked_settleHorizon (hlinked : l.Linked) (txnID : Bytes) (state : TxnState) :
    (l.settleHorizon txnID state).Linked := by
  intro h'
  unfold settleHorizon
  cases hl : l.horizon with
  | none => simp [hl]
  | some h =>
    have hh : (h, l.node.pendingTxTips).1.Linked := hlinked h hl
    intro hsettled
    simp only [some.injEq] at hsettled
    rw [← hsettled]
    split
    · exact hh.makeVisible txnID
    · exact hh.abort txnID

theorem linked_processResult (hlinked : l.Linked) (ptxn : PendingTxn) (state : TxnState) :
    (l.processResult ptxn state).1.Linked := by
  have hreleased : ∀ (closed : Ledger) (tips : List Tip), closed.Linked →
      (if closed.horizon.isNone then closed.release tips else closed).Linked := by
    intro closed tips hclosed
    split <;> exact hclosed
  cases state <;> exact hreleased _ _ hlinked

theorem linked_flushTx (hlinked : l.Linked) (self : NodeID) (c : Nat) (ctx : Context) (o : FlushOutcome) :
    (l.flushTx rt self c ctx o).1.Linked := by
  unfold flushTx
  dsimp only
  split
  · exact hlinked
  split
  · exact hlinked
  split
  · exact hlinked
  split
  · exact hlinked
  split
  · split <;> exact hlinked
  split
  · exact hlinked
  split
  · exact hlinked
  unfold replicate
  dsimp only
  split
  · apply linked_processResult
    exact hlinked
  have hheld : ∀ h', (l.horizon.map (fun h => h.add ctx.txnID ((l.node.publish ctx).buildBind self ctx o.hlc))) =
      some h' → h'.Linked := by
    intro h' hh'
    obtain ⟨h, hh, rfl⟩ := map_eq_some_iff.mp hh'
    exact (hlinked h hh).add _ _
  split
  · exact hheld
  · apply linked_processResult
    apply linked_settleHorizon
    exact hheld

theorem linked_foldl_makeVisible (hlinked : s.1.Linked) (txnIDs : List Bytes) :
    (txnIDs.foldl makeVisible s).1.Linked := by
  induction txnIDs generalizing s with
  | nil => exact hlinked
  | cons txnID txnIDs ih => exact ih (hlinked.makeVisible txnID)

theorem linked_applySnapshotVerdicts (hlinked : l.Linked) (eff : Effect) : (l.applySnapshotVerdicts eff).Linked := by
  unfold applySnapshotVerdicts
  split
  · rename_i h snap hl hkind
    intro h' hh'
    have hh : (h, l.node.pendingTxTips).1.Linked := hlinked h hl
    rw [← some.inj hh']
    exact linked_foldl_makeVisible hh _
  · exact hlinked

theorem linked_holdBind (hlinked : l.Linked) (eff : Effect) : (l.holdBind eff).Linked := by
  unfold holdBind
  split
  · rename_i bind h hbind hl
    intro h' hh'
    rw [← some.inj hh']
    exact ((hlinked h hl).add _ _).scheduleMakeVisible _
  · exact hlinked
  · exact hlinked

theorem Linked.step {a : Action} (hlinked : l.Linked)
    (hstep : l.step rt self a = some l') : l'.Linked := by
  cases a with
  | subscribe key tips =>
    cases hstep
    exact hlinked
  | newContext =>
    cases hstep
    exact hlinked
  | beginTx c txnID =>
    obtain ⟨ctx, -, rfl⟩ := map_eq_some_iff.mp hstep
    exact hlinked
  | emit c eff snapshotTips =>
    obtain ⟨ctx, -, rfl⟩ := map_eq_some_iff.mp hstep
    exact hlinked
  | flushNonTx c key =>
    obtain ⟨ctx, -, hflush⟩ := bind_eq_some_iff.mp hstep
    obtain ⟨ck, -, rfl⟩ := map_eq_some_iff.mp hflush
    exact hlinked
  | flushTx c o =>
    obtain ⟨ctx, -, rfl⟩ := map_eq_some_iff.mp hstep
    exact linked_flushTx hlinked self c ctx o
  | handleRemote t eff =>
    obtain ⟨r, hr, rfl⟩ := map_eq_some_iff.mp hstep
    obtain ⟨r', -, rfl⟩ := map_eq_some_iff.mp hr
    show Linked (if _ then _ else _)
    split
    · exact linked_holdBind (linked_applySnapshotVerdicts hlinked eff) eff
    · exact hlinked
  | fire timer =>
    cases hstep
    unfold Ledger.fire
    split
    · exact hlinked
    · rename_i h hl
      intro h' hh'
      have hh : (h, l.node.pendingTxTips).1.Linked := hlinked h hl
      rw [← some.inj hh']
      exact hh.fire timer

/-- The horizon is well formed in every state that an engine reaches. -/
theorem linked_of_run {broadcaster : Bool} (hrun : Run (step rt self) (fun _ _ => True) (start broadcaster) l) :
    l.Linked := by
  apply hrun.invariant (P := Ledger.Linked)
  · intro h hh
    unfold start at hh
    split at hh
    · exact some.inj hh ▸ linked_empty
    · cases hh
  · exact fun hlinked _ hstep => hlinked.step hstep

end Ledger

namespace Node

/-- The index after an arrival. -/
theorem mem_tips_indexArrival {key : Bytes} {u : Tip} : u ∈ (nd.indexArrival t eff).tips key ↔
      (u ∈ nd.tips key ∧ ¬ (key = eff.key ∧ key ∈ nd.subscriptions ∧ u ∈ arrivalDeps eff)) ∨
        (u = t ∧ key ∈ nd.subscriptions ∧ (key = eff.key ∨ key ∈ (keyBinds eff).map KeyBind.key)) := by
  have hfold : ∀ (kbs : List KeyBind) (nd : Node),
      u ∈ (kbs.foldl (fun nd kb =>
        if kb.key ≠ eff.key ∧ kb.key ∈ nd.subscriptions then nd.updateIndex kb.key .empty t else nd) nd).tips key ↔
      u ∈ nd.tips key ∨ (u = t ∧ key ∈ nd.subscriptions ∧ key ≠ eff.key ∧ key ∈ kbs.map KeyBind.key) := by
    intro kbs
    induction kbs with
    | nil => simp
    | cons kb kbs ih =>
      intro nd
      rw [foldl_cons, ih, map_cons, mem_cons]
      split
      · rename_i hkb
        have hsubs : (nd.updateIndex kb.key .empty t).subscriptions = nd.subscriptions := rfl
        rw [hsubs, tips_updateIndex]
        split
        · rename_i hkey
          subst hkey
          rw [mem_updateIndex]
          simp only [TipSet.mem_def, TipSet.empty, not_mem_nil, not_false_eq_true, and_true, true_or]
          tauto
        · rename_i hkey
          simp [hkey]
      · rename_i hkb
        by_cases hkey : key = kb.key
        · subst hkey
          tauto
        · simp [hkey]
  unfold indexArrival
  dsimp only
  rw [hfold]
  split
  · rename_i hsub
    have hsubs : (nd.updateIndex eff.key (newTipSet (arrivalDeps eff)) t).subscriptions = nd.subscriptions := rfl
    rw [hsubs, tips_updateIndex]
    split
    · rename_i hkey
      subst hkey
      rw [mem_updateIndex, mem_newTipSet]
      tauto
    · rename_i hkey
      tauto
  · rename_i hsub
    by_cases hkey : key = eff.key
    · subst hkey
      tauto
    · tauto

theorem index_foldl_release (tips : List Tip) (nd : Node) : (tips.foldl releasePending nd).index = nd.index ∧
      (tips.foldl releasePending nd).subscriptions = nd.subscriptions := by
  induction tips generalizing nd with
  | nil => exact ⟨rfl, rfl⟩
  | cons t tips ih => exact ih (nd.releasePending t)

theorem pendingTxTips_indexArrival (nd : Node) (t : Tip) (eff : Effect) :
    (nd.indexArrival t eff).pendingTxTips = nd.pendingTxTips := by
  have hfold : ∀ (kbs : List KeyBind) (nd : Node),
      (kbs.foldl (fun nd kb =>
        if kb.key ≠ eff.key ∧ kb.key ∈ nd.subscriptions then nd.updateIndex kb.key .empty t else nd)
        nd).pendingTxTips = nd.pendingTxTips := by
    intro kbs
    induction kbs with
    | nil => exact fun _ => rfl
    | cons kb kbs ih =>
      intro nd
      rw [foldl_cons, ih]
      split <;> rfl
  unfold indexArrival
  dsimp only
  rw [hfold]
  split <;> rfl

theorem mem_tips_indexArrival_congr (hindex : nd'.index = nd.index)
    (hsubs : nd'.subscriptions = nd.subscriptions) (t : Tip) (eff : Effect) (key : Bytes) (u : Tip) :
    u ∈ (nd'.indexArrival t eff).tips key ↔ u ∈ (nd.indexArrival t eff).tips key := by
  have htips : nd'.tips key = nd.tips key := by
    rw [tips, tips, hindex]
  rw [mem_tips_indexArrival, mem_tips_indexArrival, htips, hsubs]

theorem index_ingest (nd : Node) (t : Tip) (eff : Effect) :
    (nd.ingest t eff).index = nd.index ∧ (nd.ingest t eff).subscriptions = nd.subscriptions := by
  unfold ingest
  dsimp only
  split <;> exact ⟨rfl, rfl⟩

theorem subscribePeer_eq (nd : Node) (self : NodeID) (eff : Effect) :
    (nd.subscribePeer self eff).index = nd.index ∧ (nd.subscribePeer self eff).pendingTxTips = nd.pendingTxTips := by
  unfold subscribePeer
  dsimp only
  split
  · split
    · exact ⟨rfl, rfl⟩
    · split
      · exact ⟨rfl, rfl⟩
      · split <;> exact ⟨rfl, rfl⟩
  · exact ⟨rfl, rfl⟩

/-- The tips in progress after an arrival, without the tips the horizon decides about. -/
def arrivedPending (pending : PendingTxTips) (t : Tip) (eff : Effect) : PendingTxTips :=
  match bindOf eff with
  | some bind => bind.abortDeps.foldl (fun m t => m.erase t) pending
  | none => if eff.txnId ≠ [] then pending.insert t eff.deps else pending

theorem isBind_eq (eff : Effect) : isBind eff = (bindOf eff).isSome := by
  unfold isBind bindOf
  cases eff.kind <;> rfl

/-- What an accepted arrival does to the index and to the tips in progress. -/
theorem handleRemote_arrived (hauth : nd.authoritative eff = true)
    (hremote : nd.handleRemote rt self t eff = some (nd', nacks)) :
    (∀ key u, u ∈ nd'.tips key ↔ u ∈ (nd.indexArrival t eff).tips key) ∧
      nd'.pendingTxTips = arrivedPending nd.pendingTxTips t eff := by
  obtain ⟨hindex, hsubs⟩ := index_ingest nd t eff
  obtain ⟨hrefused, -⟩ | ⟨bind, hbind, rfl, -⟩ | ⟨hbind, rfl⟩ := handleRemote_cases hremote
  · rw [hauth] at hrefused
    cases hrefused
  · have hpending : (nd.ingest t eff).pendingTxTips = nd.pendingTxTips := by
      simp [ingest, isBind_eq, hbind]
    obtain ⟨hfreed, hfreedSubs⟩ := index_foldl_release bind.abortDeps (nd.ingest t eff)
    constructor
    · intro key u
      exact @mem_tips_indexArrival_congr nd ((nd.ingest t eff).handleRemoteBind t bind) (hfreed.trans hindex)
        (hfreedSubs.trans hsubs) t eff key u
    · rw [pendingTxTips_indexArrival]
      simp only [handleRemoteBind, pendingTxTips_foldl_release, hpending, arrivedPending, hbind]
  · obtain ⟨hpeer, hpeerPending⟩ := subscribePeer_eq ((nd.ingest t eff).indexArrival t eff) self eff
    constructor
    · intro key u
      rw [tips, hpeer]
      exact mem_tips_indexArrival_congr hindex hsubs t eff key u
    · rw [hpeerPending, pendingTxTips_indexArrival]
      simp only [ingest, isBind_eq, hbind, arrivedPending, isSome_none, Bool.false_eq_true, not_false_eq_true,
        and_true]
      split <;> rfl

end Node

namespace Ledger

def isInvisible (l : Ledger) (txnID : Bytes) : Bool := l.horizon.any (fun h => h.isInvisible txnID)

/-- Two engines look the same: the tips of every key, the invisible transactions and the
tips in progress agree. -/
structure Same (l l' : Ledger) : Prop where
  tips : ∀ key u, u ∈ l'.node.tips key ↔ u ∈ l.node.tips key
  invisible : ∀ txnID, l'.isInvisible txnID = l.isInvisible txnID
  pending : l'.node.pendingTxTips = l.node.pendingTxTips

/-- No verdict of an effect is about an invisible transaction. -/
def Decided (l : Ledger) (eff : Effect) : Prop :=
  ∀ snap h, eff.kind = .snapshot snap → l.horizon = some h → ∀ txnID ∈ snap.txnVerdicts, h.isInvisible txnID = false

/-- Nothing has superseded an effect since it arrived: it is still a tip of its keys and
has consumed its dependencies, and what it tracks, frees, hides and decides is so. -/
structure Settled (l : Ledger) (t : Tip) (eff : Effect) : Prop where
  tip : ∀ key ∈ l.node.subscriptions, key = eff.key ∨ key ∈ (keyBinds eff).map KeyBind.key → t ∈ l.node.tips key
  consumed : eff.key ∈ l.node.subscriptions → ∀ d ∈ arrivalDeps eff, d ∈ l.node.tips eff.key → d = t
  tracked : bindOf eff = none → eff.txnId ≠ [] → l.node.pendingTxTips.lookup t = some eff.deps
  freed : ∀ bind, bindOf eff = some bind → ∀ a ∈ bind.abortDeps, a ∉ l.node.pendingTxTips
  released : ∀ bind, bindOf eff = some bind → l.horizon = none →
    ∀ a ∈ bind.keys.map KeyBind.newTip, a ∉ l.node.pendingTxTips
  held : ∀ bind h, bindOf eff = some bind → l.horizon = some h → h.isInvisible eff.txnId = true
  decided : l.Decided eff

theorem same_tips_iff : (∀ key u, u ∈ (nd.indexArrival t eff).tips key ↔ u ∈ nd.tips key) ↔
      (∀ key ∈ nd.subscriptions, key = eff.key ∨ key ∈ (keyBinds eff).map KeyBind.key → t ∈ nd.tips key) ∧
        (eff.key ∈ nd.subscriptions → ∀ d ∈ arrivalDeps eff, d ∈ nd.tips eff.key → d = t) := by
  simp only [mem_tips_indexArrival]
  constructor
  · intro hsame
    constructor
    · intro key hsub hkey
      exact (hsame key t).mp (.inr ⟨rfl, hsub, hkey⟩)
    · intro hsub d hd hmem
      rcases (hsame eff.key d).mpr hmem with ⟨-, hkept⟩ | ⟨heq, -⟩
      · exact absurd ⟨rfl, hsub, hd⟩ hkept
      · exact heq
  · rintro ⟨htip, hconsumed⟩ key u
    constructor
    · rintro (⟨hmem, -⟩ | ⟨rfl, hsub, hkey⟩)
      · exact hmem
      · exact htip key hsub hkey
    · intro hmem
      by_cases hgone : key = eff.key ∧ key ∈ nd.subscriptions ∧ u ∈ arrivalDeps eff
      · obtain ⟨rfl, hsub, hd⟩ := hgone
        exact .inr ⟨hconsumed hsub u hd hmem, hsub, .inl rfl⟩
      · exact .inl ⟨hmem, hgone⟩

theorem isInvisible_foldl_makeVisible (hlinked : s.1.Linked) {txnID : Bytes}
    (hmem : txnID ∈ txnIDs) : (txnIDs.foldl makeVisible s).1.isInvisible txnID = false := by
  have hkeep : ∀ (txnIDs : List Bytes) (s : HorizonSet × PendingTxTips), s.1.Linked → s.1.isInvisible txnID = false →
      (txnIDs.foldl makeVisible s).1.isInvisible txnID = false := by
    intro txnIDs
    induction txnIDs with
    | nil => exact fun _ _ hvisible => hvisible
    | cons txnID' txnIDs ih =>
      intro s hlinked hvisible
      apply ih _ (hlinked.makeVisible txnID')
      rw [← Bool.not_eq_true] at hvisible ⊢
      exact fun hinvisible => hvisible ((hlinked.isInvisible_makeVisible txnID').2 txnID hinvisible)
  induction txnIDs generalizing s with
  | nil => cases hmem
  | cons txnID' txnIDs ih =>
    rcases mem_cons.mp hmem with rfl | hmem
    · exact hkeep txnIDs _ (hlinked.makeVisible txnID) (hlinked.isInvisible_makeVisible txnID).1
    · exact ih (hlinked.makeVisible txnID') hmem

theorem foldl_makeVisible_of_visible
    (hvisible : ∀ txnID ∈ txnIDs, s.1.isInvisible txnID = false) : txnIDs.foldl makeVisible s = s := by
  induction txnIDs with
  | nil => rfl
  | cons txnID txnIDs ih =>
    have hnone : s.1.entries.lookup txnID = none := by
      simpa [HorizonSet.isInvisible] using hvisible txnID mem_cons_self
    rw [foldl_cons, makeVisible, hnone]
    exact ih fun txnID' hmem => hvisible txnID' (mem_cons_of_mem _ hmem)

theorem applySnapshotVerdicts_of_decided (hdecided : l.Decided eff) : l.applySnapshotVerdicts eff = l := by
  unfold applySnapshotVerdicts
  split
  · rename_i h snap hl hkind
    rw [foldl_makeVisible_of_visible]
    · dsimp only
      rw [← hl]
    · exact fun txnID hmem => hdecided snap h hkind hl txnID (Finmap.mem_keys.mp ((Finset.mem_sort _).mp hmem))
  · rfl

theorem decided_of_isInvisible (hlinked : l.Linked)
    (hsame : ∀ txnID, (l.applySnapshotVerdicts eff).isInvisible txnID = l.isInvisible txnID) : l.Decided eff := by
  intro snap h hkind hl txnID hmem
  have htxn := hsame txnID
  simp only [isInvisible, applySnapshotVerdicts, hl, hkind, any_some] at htxn
  rw [← htxn]
  have hh : (h, l.node.pendingTxTips).1.Linked := hlinked h hl
  exact isInvisible_foldl_makeVisible hh ((Finset.mem_sort _).mpr (Finmap.mem_keys.mpr hmem))

/-- Holding a bind again changes nothing exactly if it is still held. -/
theorem isInvisible_holdBind_iff (hlinked : l.Linked) (eff : Effect) :
    (∀ txnID, (l.holdBind eff).isInvisible txnID = l.isInvisible txnID) ↔
      ∀ bind h, bindOf eff = some bind → l.horizon = some h → h.isInvisible eff.txnId = true := by
  unfold holdBind
  split
  · rename_i bind h hbind hl
    simp only [isInvisible, hl, any_some, isInvisible_scheduleMakeVisible,
      (hlinked h hl).isInvisible_add]
    constructor
    · rintro hsame bind' h' - hh'
      cases hh'
      exact (hsame eff.txnId).symm.trans (by simp)
    · intro hheld txnID
      by_cases htxn : txnID = eff.txnId
      · rw [htxn, hheld bind h hbind rfl, Bool.or_true]
      · simp [htxn]
  · rename_i bind hbind hl
    simp [isInvisible, hl]
  · rename_i hbind
    simp [hbind]

theorem pending_holdBind_iff (t : Tip) (eff : Effect) :
    arrivedPending (l.holdBind eff).node.pendingTxTips t eff = l.node.pendingTxTips ↔
      (bindOf eff = none → eff.txnId ≠ [] → l.node.pendingTxTips.lookup t = some eff.deps) ∧
        (∀ bind, bindOf eff = some bind → ∀ a ∈ bind.abortDeps, a ∉ l.node.pendingTxTips) ∧
        ∀ bind, bindOf eff = some bind → l.horizon = none →
          ∀ a ∈ bind.keys.map KeyBind.newTip, a ∉ l.node.pendingTxTips := by
  unfold holdBind arrivedPending
  cases hbind : bindOf eff with
  | some bind =>
    cases hl : l.horizon with
    | some h => simp [foldl_erase_eq_self_iff]
    | none =>
      simp only [releaseBind, ← foldl_append, foldl_erase_eq_self_iff, reduceCtorEq, false_imp_iff,
        true_and, some.injEq, forall_eq', forall_const, mem_append]
      constructor
      · exact fun hnone => ⟨fun a ha => hnone a (.inr ha), fun a ha => hnone a (.inl ha)⟩
      · exact fun hnone a ha => ha.elim (hnone.2 a) (hnone.1 a)
  | none =>
    simp only [reduceCtorEq, false_imp_iff, implies_true, and_true, forall_const]
    split
    · rename_i htxn
      rw [insert_eq_self_iff]
      exact ⟨fun h _ => h, fun h => h htxn⟩
    · rename_i htxn
      exact ⟨fun _ htxn' => absurd htxn' htxn, fun _ => rfl⟩

/-- The node an accepted effect arrives at: only the tips in progress have changed. -/
theorem node_holdBind (l : Ledger) (eff : Effect) :
    (l.holdBind eff).node.index = l.node.index ∧ (l.holdBind eff).node.subscriptions = l.node.subscriptions := by
  unfold holdBind
  split <;> exact ⟨rfl, rfl⟩

theorem node_applySnapshotVerdicts (l : Ledger) (eff : Effect) :
    (l.applySnapshotVerdicts eff).node.index = l.node.index ∧
      (l.applySnapshotVerdicts eff).node.subscriptions = l.node.subscriptions := by
  unfold applySnapshotVerdicts
  split <;> exact ⟨rfl, rfl⟩

/-- The state after an accepted delivery. -/
theorem handleRemote_accepted (hauth : l.node.authoritative eff = true)
    (hremote : l.handleRemote rt self t eff = some (l', nacks)) :
    (∀ key u, u ∈ l'.node.tips key ↔ u ∈ (l.node.indexArrival t eff).tips key) ∧
      l'.horizon = ((l.applySnapshotVerdicts eff).holdBind eff).horizon ∧ l'.node.pendingTxTips =
        arrivedPending ((l.applySnapshotVerdicts eff).holdBind eff).node.pendingTxTips t eff := by
  obtain ⟨r, hr, heq⟩ := map_eq_some_iff.mp hremote
  cases heq
  simp only [hauth, if_true] at hr ⊢
  obtain ⟨hindex, hsubs⟩ := node_holdBind (l.applySnapshotVerdicts eff) eff
  obtain ⟨hindex', hsubs'⟩ := node_applySnapshotVerdicts l eff
  have hready : ((l.applySnapshotVerdicts eff).holdBind eff).node.authoritative eff = true := by
    simpa only [authoritative, serves, hindex, hsubs, hindex', hsubs'] using hauth
  obtain ⟨htips, hpending⟩ := handleRemote_arrived hready hr
  refine ⟨?_, trivial, hpending⟩
  intro key u
  exact (htips key u).trans
    (mem_tips_indexArrival_congr (hindex.trans hindex') (hsubs.trans hsubs') t eff key u)

/-- In every state that an engine reaches, handling an effect again changes nothing exactly
if nothing has superseded the effect since. -/
theorem same_of_redelivered_iff {rt : Runtime} {self : NodeID} {broadcaster : Bool} {l l' : Ledger} {t : Tip}
    {eff : Effect} {nacks : List NackNotify} (hrun : Run (step rt self) (fun _ _ => True) (start broadcaster) l)
    (hauth : l.node.authoritative eff = true) (hremote : l.handleRemote rt self t eff = some (l', nacks)) :
    Same l l' ↔ Settled l t eff := by
  have hlinked := linked_of_run hrun
  obtain ⟨htips, hhorizon, hpending⟩ := handleRemote_accepted hauth hremote
  have hinvisible : ∀ txnID, l'.isInvisible txnID =
      ((l.applySnapshotVerdicts eff).holdBind eff).isInvisible txnID := by
    intro txnID
    rw [isInvisible, hhorizon, isInvisible]
  constructor
  · intro hsame
    -- a bind carries no verdicts, so only one of the two can have changed the horizon
    have hdecided : l.Decided eff := by
      cases hbind : bindOf eff with
      | some bind =>
        intro snap h hkind
        simp [bindOf, hkind] at hbind
      | none =>
        apply decided_of_isInvisible hlinked
        intro txnID
        have hheld := hinvisible txnID
        rw [hsame.invisible txnID] at hheld
        simpa only [holdBind, hbind] using hheld.symm
    rw [applySnapshotVerdicts_of_decided hdecided] at hinvisible hpending
    obtain ⟨htip, hconsumed⟩ := same_tips_iff.mp fun key u => (htips key u).symm.trans (hsame.tips key u)
    obtain ⟨htracked, hfreed, hreleased⟩ := (pending_holdBind_iff t eff).mp (hpending.symm.trans hsame.pending)
    have hheld := (isInvisible_holdBind_iff hlinked eff).mp
      fun txnID => (hinvisible txnID).symm.trans (hsame.invisible txnID)
    exact ⟨htip, hconsumed, htracked, hfreed, hreleased, hheld, hdecided⟩
  · intro hsettled
    rw [applySnapshotVerdicts_of_decided hsettled.decided] at hinvisible hpending
    refine ⟨?_, ?_, ?_⟩
    · exact fun key u => (htips key u).trans (same_tips_iff.mpr ⟨hsettled.tip, hsettled.consumed⟩ key u)
    · exact fun txnID => (hinvisible txnID).trans ((isInvisible_holdBind_iff hlinked eff).mpr hsettled.held txnID)
    · exact hpending.trans
        ((pending_holdBind_iff t eff).mpr ⟨hsettled.tracked, hsettled.freed, hsettled.released⟩)

/-- A write of another node. -/
def remoteWrite (deps : List Tip) : Effect :=
  { key := [107], nodeId := 2, forkChoiceHash := idleRuntime.forkChoiceHash 2 none, deps := deps, kind := .noop }

/-- An engine after the first write of another node, and what follows it. -/
def afterWrite (rest : List Action) : Option Ledger :=
  perform (step idleRuntime 1) (fun _ _ => True)
    (.subscribe [107] [] :: .handleRemote ⟨2, 1⟩ (remoteWrite []) :: rest) (start true)

/-- Handled twice in a row, a write changes nothing the second time. -/
theorem same_of_redelivered_at_once : ∃ l l' nacks, afterWrite [] = some l ∧
      l.handleRemote idleRuntime 1 ⟨2, 1⟩ (remoteWrite []) = some (l', nacks) ∧ Same l l' := by
  have hview : (afterWrite []).bind (fun l => (l.handleRemote idleRuntime 1 ⟨2, 1⟩ (remoteWrite [])).map
      (fun _ => (l.node.authoritative (remoteWrite []), (l.node.tips [107]).tips))) = some (true, [⟨2, 1⟩]) := by decide
  obtain ⟨l, hl, hrest⟩ := bind_eq_some_iff.mp hview
  obtain ⟨⟨l', nacks⟩, hr, heq⟩ := map_eq_some_iff.mp hrest
  obtain ⟨hauth, htips⟩ := Prod.mk.inj heq
  have hrun : Run (step idleRuntime 1) (fun _ _ => True) (start true) l := by
    unfold afterWrite at hl
    exact run_of_perform .start hl
  have hsettled : Settled l ⟨2, 1⟩ (remoteWrite []) := by
    refine ⟨?_, fun _ _ hd => (nomatch hd), fun _ htxn => absurd rfl htxn, fun _ hbind => (nomatch hbind),
      fun _ hbind => (nomatch hbind), fun _ _ hbind => (nomatch hbind), fun _ _ hkind => (nomatch hkind)⟩
    intro key _ hown
    obtain rfl : key = [107] := hown.elim id nofun
    rw [TipSet.mem_def, htips]
    exact mem_singleton_self _
  exact ⟨l, l', nacks, hl, hr, (same_of_redelivered_iff hrun hauth hr).mpr hsettled⟩

/-- A write that was consumed by a later one becomes a tip again when it is redelivered. -/
theorem redelivered_write_is_tip_again :
    ∃ l l' nacks, afterWrite [.handleRemote ⟨2, 2⟩ (remoteWrite [⟨2, 1⟩])] = some l ∧
      l.handleRemote idleRuntime 1 ⟨2, 1⟩ (remoteWrite []) = some (l', nacks) ∧
      (l.node.tips [107]).tips = [⟨2, 2⟩] ∧ (l'.node.tips [107]).tips = [⟨2, 2⟩, ⟨2, 1⟩] ∧ ¬ Same l l' := by
  have hview : (afterWrite [.handleRemote ⟨2, 2⟩ (remoteWrite [⟨2, 1⟩])]).bind (fun l =>
      (l.handleRemote idleRuntime 1 ⟨2, 1⟩ (remoteWrite [])).map
        (fun r => ((l.node.tips [107]).tips, (r.1.node.tips [107]).tips))) =
      some ([⟨2, 2⟩], [⟨2, 2⟩, ⟨2, 1⟩]) := by decide
  obtain ⟨l, hl, hrest⟩ := bind_eq_some_iff.mp hview
  obtain ⟨r, hr, heq⟩ := map_eq_some_iff.mp hrest
  obtain ⟨hbefore, hafter⟩ := Prod.mk.inj heq
  refine ⟨l, r.1, r.2, hl, hr, hbefore, hafter, ?_⟩
  intro hsame
  have htip := hsame.tips [107] ⟨2, 1⟩
  rw [TipSet.mem_def, TipSet.mem_def, hbefore, hafter] at htip
  exact absurd (htip.mp (by decide)) (by decide)

end Ledger

end swytch.effects
