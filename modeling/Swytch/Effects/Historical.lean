import Swytch.Effects.Cluster.Substitute
import Swytch.Effects.Reconstruct

open swytch.lib swytch.proto Option Finmap List

namespace swytch.effects

/-- Why no historical frontier could be found: an effect could not be fetched, or its
membership could not be decided. -/
inductive HistoryError where
  | unresolved
  | undecided
deriving DecidableEq, Repr

variable (log : Log) (key : Bytes)

/-- Where to look below an excluded effect. An excluded bind restores what it consumed on the
key and not its new tip; a snapshot is left through what it compacted. -/
def excludedDeps (eff : Effect) : List Tip :=
  match eff.kind with
  | .txnBind _ => (keyBindOf eff key).elim [] KeyBind.consumedTips
  | _ => eff.deps

/-- One iteration of `historicalFrontier`. -/
def historicalVisit (member : Tip → Effect → Except HistoryError Bool)
    (frontier : List Tip) (t : Tip) : Except HistoryError (List Tip × List Tip) :=
  match log.lookup t with
  | none => .error .unresolved
  | some eff =>
    match member t eff with
    | .error e => .error e
    | .ok true => .ok (frontier ++ [t], [])
    | .ok false => .ok (frontier, excludedDeps key eff)

/-- The newest effects of a key that a cut includes. The first number bounds the effects
visited; cancellation is left out. -/
def historicalFrontier (fuel : Nat) (key : Bytes) (tips : List Tip)
    (member : Tip → Effect → Except HistoryError Bool) : Option (Except HistoryError (List Tip)) :=
  walkWith .lifo (historicalVisit log key member) fuel tips.reverse [] []

variable (cut : Tip → Effect → Bool)

/-- A cut of the history includes the effect at a position. -/
def Included (t : Tip) : Prop :=
  (log.lookup t).any (cut t) = true

/-- The frontier that the walk ends with, given enough fuel. -/
def HistoricalFrontier (tips frontier : List Tip) : Prop :=
  ∃ enough, ∀ fuel, enough ≤ fuel →
    historicalFrontier log fuel key tips (fun t eff => .ok (cut t eff)) = some (.ok frontier)

/-- A cut on a key of a log: it contains what its effects depend on, and what a bind consumed
lies below its new tip. -/
structure CausalCut (log : Log) (key : Bytes) (cut : Tip → Effect → Bool) : Prop where
  resident : ∀ t ∈ log, ∀ d ∈ depsOf log key t, d ∈ log
  closed : ∀ t, Included log cut t → ∀ d ∈ depsOf log key t, Included log cut d
  consumed : ∀ t eff kb, log.lookup t = some eff → keyBindOf eff key = some kb →
    ∀ c ∈ kb.consumedTips, Reach (depsOf log key) kb.newTip c

instance (log : Log) (cut : Tip → Effect → Bool) (t : Tip) : Decidable (Included log cut t) :=
  inferInstanceAs (Decidable ((log.lookup t).any (cut t) = true))

/-- Where the walk goes from an effect. -/
def historicalDeps (t : Tip) : List Tip :=
  if Included log cut t then [] else (log.lookup t).elim [] (excludedDeps key)

variable {key : Bytes} {eff : Effect} {log : Log} {cut : Tip → Effect → Bool} {t x : Tip} {tips : List Tip}
  {kb : KeyBind}

theorem keyDeps_of_bind (hbind : isBind eff = true) :
    keyDeps key eff = (keyBindOf eff key).elim [] (fun kb => [kb.newTip]) := by
  obtain ⟨ekey, hlc, node, deps, txn, hash, virt, kind⟩ := eff
  cases kind with
  | txnBind b =>
    unfold keyDeps keyBindOf
    dsimp only
    cases b.keys.find? (fun kb => kb.key = key) <;> rfl
  | _ => cases hbind

theorem isBind_of_keyBindOf (hkb : keyBindOf eff key = some kb) : isBind eff = true := by
  obtain ⟨ekey, hlc, node, deps, txn, hash, virt, kind⟩ := eff
  cases kind with
  | txnBind b => rfl
  | _ => cases hkb

theorem keyDeps_of_keyBindOf (hkb : keyBindOf eff key = some kb) : keyDeps key eff = [kb.newTip] := by
  rw [keyDeps_of_bind (isBind_of_keyBindOf hkb), hkb, elim_some]

theorem excludedDeps_of_not_bind (hbind : isBind eff = false) : excludedDeps key eff = keyDeps key eff := by
  obtain ⟨ekey, hlc, node, deps, txn, hash, virt, kind⟩ := eff
  cases kind with
  | txnBind b => cases hbind
  | _ => rfl

theorem excludedDeps_of_bind (hbind : isBind eff = true) :
    excludedDeps key eff = (keyBindOf eff key).elim [] KeyBind.consumedTips := by
  obtain ⟨ekey, hlc, node, deps, txn, hash, virt, kind⟩ := eff
  cases kind with
  | txnBind b => rfl
  | _ => cases hbind

theorem historicalDeps_of_excluded (heff : log.lookup t = some eff) (hexcluded : ¬ Included log cut t) :
    historicalDeps log key cut t = excludedDeps key eff := by
  rw [historicalDeps, if_neg hexcluded, heff, elim_some]

/-- A step of the walk goes down in the graph, if only past the effects of a transaction. -/
theorem CausalCut.below (hcut : CausalCut log key cut) (t : Tip) :
    ∀ x ∈ historicalDeps log key cut t, ∃ d ∈ depsOf log key t, Reach (depsOf log key) d x := by
  intro x hx
  by_cases hexcluded : Included log cut t
  · rw [historicalDeps, if_pos hexcluded] at hx
    cases hx
  cases heff : log.lookup t with
  | none =>
    rw [historicalDeps, if_neg hexcluded, heff] at hx
    cases hx
  | some eff =>
    have hdeps : depsOf log key t = keyDeps key eff := by rw [depsOf, heff, elim_some]
    rw [historicalDeps_of_excluded heff hexcluded] at hx
    rw [hdeps]
    cases hbind : isBind eff with
    | false => exact ⟨x, excludedDeps_of_not_bind hbind ▸ hx, .refl x⟩
    | true =>
      rw [excludedDeps_of_bind hbind] at hx
      cases hkb : keyBindOf eff key with
      | none =>
        rw [hkb] at hx
        cases hx
      | some kb =>
        rw [hkb, elim_some] at hx
        exact ⟨kb.newTip, by simp [keyDeps_of_keyBindOf hkb], hcut.consumed t eff kb heff hkb x hx⟩

theorem CausalCut.reach_of_walk (hcut : CausalCut log key cut) (hwalk : Reach (historicalDeps log key cut) t x) :
    Reach (depsOf log key) t x := by
  induction hwalk with
  | refl => exact .refl t
  | tail _ hstep ih =>
    obtain ⟨d, hd, hdx⟩ := hcut.below _ _ hstep
    exact ih.trans (.head hd hdx)

theorem CausalCut.mem_log (hcut : CausalCut log key cut) (ht : t ∈ log) (hreach : Reach (depsOf log key) t x) :
    x ∈ log :=
  Reach.mem_of_closed (s := fun y => y ∈ log) hcut.resident ht hreach

theorem CausalCut.included_of_reach (hcut : CausalCut log key cut) (ht : Included log cut t)
    (hreach : Reach (depsOf log key) t x) : Included log cut x :=
  Reach.mem_of_closed (s := fun y => Included log cut y) hcut.closed ht hreach

theorem historicalVisit_eq (ht : t ∈ log) (frontier : List Tip) :
    historicalVisit log key (fun t eff => .ok (cut t eff)) frontier t =
      .ok (frontier ++ [t].filter (Included log cut ·), historicalDeps log key cut t) := by
  obtain ⟨eff, heff⟩ := mem_iff.mp ht
  have hcut : Included log cut t ↔ cut t eff = true := by rw [Included, heff, any_some]
  unfold historicalVisit historicalDeps
  rw [heff]
  dsimp only
  cases hmember : cut t eff with
  | true => simp [hcut, hmember]
  | false => simp [hcut, hmember]

/-- The walk ends, and returns the included effects it comes to. -/
theorem CausalCut.frontier (hacyclic : Acyclic (depsOf log key)) (hcut : CausalCut log key cut)
    (htips : ∀ t ∈ tips, t ∈ log) : ∃ frontier, HistoricalFrontier log key cut tips frontier ∧
      ∀ f, f ∈ frontier ↔ Included log cut f ∧ ∃ t ∈ tips, Reach (historicalDeps log key cut) t f := by
  have hwalk := hacyclic.of_reach hcut.below
  obtain ⟨enough, order, -, hmem, hrun⟩ := hwalk.walkWith_eq .lifo
    (historicalVisit log key (fun t eff => .ok (cut t eff))) tips.reverse (fun t ht => by
      obtain ⟨u, hu, hut⟩ := ht
      exact historicalVisit_eq (hcut.mem_log (htips u (mem_reverse.mp hu)) (hcut.reach_of_walk hut)))
  refine ⟨_, ⟨enough, fun fuel hfuel => hrun fuel hfuel []⟩, fun f => ?_⟩
  rw [← flatMap_eq_foldl, mem_flatMap]
  simp only [List.mem_filter, List.mem_singleton, decide_eq_true_eq, hmem, List.mem_reverse]
  constructor
  · rintro ⟨t, htt, rfl, hincluded⟩
    exact ⟨hincluded, htt⟩
  · rintro ⟨hincluded, hreach⟩
    exact ⟨f, hreach, rfl, hincluded⟩

theorem HistoricalFrontier.unique {frontier other : List Tip} (h : HistoricalFrontier log key cut tips frontier)
    (hother : HistoricalFrontier log key cut tips other) : frontier = other := by
  obtain ⟨n, hn⟩ := h
  obtain ⟨m, hm⟩ := hother
  have heq := (hn (n + m) (Nat.le_add_right n m)).symm.trans (hm (n + m) (Nat.le_add_left m n))
  exact Except.ok.inj (some.inj heq)

/-- The binds and the non-transactional effects that a cut includes. -/
def Visible (log : Log) (cut : Tip → Effect → Bool) (e : Tip) : Prop :=
  Included log cut e ∧ (log.lookup e).any isCommitted = true

/-- The walk loses nothing that is visible below the tips. -/
def KeepsVisible (log : Log) (key : Bytes) (cut : Tip → Effect → Bool) (tips : List Tip) : Prop :=
  ∀ frontier, HistoricalFrontier log key cut tips frontier → ∀ e, Visible log cut e →
    (∃ t ∈ tips, Reach (depsOf log key) t e) → ∃ f ∈ frontier, Reach (depsOf log key) f e

/-- What an excluded bind consumed leads to all that is visible below its new tip. -/
def ConsumedRestores (log : Log) (key : Bytes) (cut : Tip → Effect → Bool) : Prop :=
  ∀ t eff kb, log.lookup t = some eff → keyBindOf eff key = some kb → ¬ Included log cut t →
    ∀ e, Visible log cut e → Reach (depsOf log key) kb.newTip e →
      ∃ c ∈ kb.consumedTips, Reach (depsOf log key) c e

section

variable (hacyclic : Acyclic (depsOf log key)) (hcut : CausalCut log key cut)
include hacyclic hcut

/-- Every visible effect is below an included one that the walk comes to. -/
theorem CausalCut.included_above (hrestores : ConsumedRestores log key cut) {e : Tip} (he : Visible log cut e)
    (ht : t ∈ log) (hte : Reach (depsOf log key) t e) :
    ∃ f, Included log cut f ∧ Reach (historicalDeps log key cut) t f ∧ Reach (depsOf log key) f e := by
  -- along the walk, since an excluded bind skips the effects of its transaction
  induction t using (hacyclic.of_reach hcut.below).induction with
  | _ t ih =>
    by_cases hincluded : Included log cut t
    · exact ⟨t, hincluded, .refl t, hte⟩
    obtain ⟨eff, heff⟩ := mem_iff.mp ht
    have hnext {x : Tip} (hx : x ∈ excludedDeps key eff) (hxe : Reach (depsOf log key) x e) :
        ∃ f, Included log cut f ∧ Reach (historicalDeps log key cut) t f ∧ Reach (depsOf log key) f e := by
      have hstep : x ∈ historicalDeps log key cut t := historicalDeps_of_excluded heff hincluded ▸ hx
      obtain ⟨d, hd, hdx⟩ := hcut.below t x hstep
      obtain ⟨f, hf, hxf, hfe⟩ := ih x hstep (hcut.mem_log ht (.head hd hdx)) hxe
      exact ⟨f, hf, .head hstep hxf, hfe⟩
    obtain rfl | ⟨d, hd, hde⟩ := hte.cases_head
    · exact absurd he.1 hincluded
    rw [depsOf, heff, elim_some] at hd
    cases hbind : isBind eff with
    | false => exact hnext (excludedDeps_of_not_bind hbind ▸ hd) hde
    | true =>
      cases hkb : keyBindOf eff key with
      | none =>
        rw [keyDeps_of_bind hbind, hkb] at hd
        cases hd
      | some kb =>
        rw [keyDeps_of_keyBindOf hkb, List.mem_singleton] at hd
        obtain ⟨c, hc, hce⟩ := hrestores t eff kb heff hkb hincluded e he (hd ▸ hde)
        refine hnext ?_ hce
        rw [excludedDeps_of_bind hbind, hkb, elim_some]
        exact hc

theorem CausalCut.keepsVisible (hrestores : ConsumedRestores log key cut) (htips : ∀ t ∈ tips, t ∈ log) :
    KeepsVisible log key cut tips := by
  rintro frontier hfrontier e he ⟨t, ht, hte⟩
  obtain ⟨found, hfound, hmem⟩ := hcut.frontier hacyclic htips
  obtain rfl := hfound.unique hfrontier
  obtain ⟨f, hf, htf, hfe⟩ := hcut.included_above hacyclic hrestores he (htips t ht) hte
  exact ⟨f, (hmem f).mpr ⟨hf, t, ht, htf⟩, hfe⟩

/-- What the walk keeps below an excluded bind is kept by what the bind consumed. -/
theorem CausalCut.consumedRestores (hkeeps : ∀ t ∈ log, KeepsVisible log key cut [t]) :
    ConsumedRestores log key cut := by
  intro t eff kb heff hkb hexcluded e he hreach
  have ht : t ∈ log := mem_iff.mpr ⟨eff, heff⟩
  have hnew : kb.newTip ∈ depsOf log key t := by simp [depsOf, heff, keyDeps_of_keyBindOf hkb]
  have htips : ∀ u ∈ [t], u ∈ log := by simpa using ht
  obtain ⟨frontier, hfrontier, hmem⟩ := hcut.frontier hacyclic htips
  obtain ⟨f, hf, hfe⟩ := hkeeps t ht frontier hfrontier e he ⟨t, mem_singleton_self t, .head hnew hreach⟩
  obtain ⟨hincluded, u, hu, huf⟩ := (hmem f).mp hf
  rw [mem_singleton.mp hu] at huf
  obtain rfl | ⟨c, hc, hcf⟩ := huf.cases_head
  · exact absurd hincluded hexcluded
  · rw [historicalDeps_of_excluded heff hexcluded, excludedDeps_of_bind (isBind_of_keyBindOf hkb), hkb,
      elim_some] at hc
    exact ⟨c, hc, (hcut.reach_of_walk hcf).trans hfe⟩

end

/-- The walk ends for all tips, at included effects that no excluded effect lies below, and it
keeps all that is visible just if the tips consumed by excluded binds do. -/
theorem historicalFrontier_keeps_visible_iff {log : Log} {key : Bytes} {cut : Tip → Effect → Bool}
    (hacyclic : Acyclic (depsOf log key)) (hcut : CausalCut log key cut) :
    (∀ tips : List Tip, (∀ t ∈ tips, t ∈ log) → ∃ frontier, HistoricalFrontier log key cut tips frontier ∧
      (∀ f ∈ frontier, Included log cut f) ∧
      ∀ f ∈ frontier, ∀ b, Reach (depsOf log key) f b → (log.lookup b).any isBind = true → Included log cut b) ∧
    ((∀ tips : List Tip, (∀ t ∈ tips, t ∈ log) → KeepsVisible log key cut tips) ↔ ConsumedRestores log key cut) := by
  refine ⟨fun tips htips => ?_,
    fun hkeeps => hcut.consumedRestores hacyclic fun t ht => hkeeps [t] (by simpa using ht),
    fun hrestores tips htips => hcut.keepsVisible hacyclic hrestores htips⟩
  obtain ⟨frontier, hfrontier, hmem⟩ := hcut.frontier hacyclic htips
  have hincluded : ∀ f ∈ frontier, Included log cut f := fun f hf => ((hmem f).mp hf).1
  exact ⟨frontier, hfrontier, hincluded, fun f hf b hfb _ => hcut.included_of_reach (hincluded f hf) hfb⟩

/-- A transaction that wrote on top of two effects and bound only one of them as consumed. -/
def partlyConsumed (consumed : List Tip) : Log :=
  ((((∅ : Log).insert ⟨1, 1⟩ { key := [107], kind := .noop }).insert ⟨2, 1⟩ { key := [107], kind := .noop }).insert
    ⟨3, 2⟩ { key := [107], deps := [⟨1, 1⟩, ⟨2, 1⟩], txnId := [7], kind := .noop }).insert
    ⟨3, 3⟩ { key := [107], txnId := [7], kind := .txnBind ⟨[⟨[107], consumed, ⟨3, 2⟩⟩], none, 3, []⟩ }

/-- A cut that leaves the transaction out. -/
def withoutTxn : Tip → Effect → Bool := fun _ eff => eff.txnId = []

/-- What has to be known of a finite log for a cut to be causal. -/
theorem causalCut_of_keys (hresident : ∀ t ∈ log.keys, ∀ d ∈ depsOf log key t, d ∈ log.keys)
    (hclosed : ∀ t ∈ log.keys, Included log cut t → ∀ d ∈ depsOf log key t, Included log cut d)
    (hconsumed : ∀ t ∈ log.keys, ∀ d ∈ depsOf log key t,
      ∀ c ∈ ((log.lookup t).bind (keyBindOf · key)).elim [] KeyBind.consumedTips, c ∈ depsOf log key d) :
    CausalCut log key cut where
  resident t ht d hd := mem_keys.mp (hresident t (mem_keys.mpr ht) d hd)
  closed t ht := by
    refine hclosed t (mem_keys.mpr ?_) ht
    cases heff : log.lookup t with
    | none => simp [Included, heff] at ht
    | some eff => exact mem_iff.mpr ⟨eff, heff⟩
  consumed t eff kb heff hkb c hc := by
    refine .single (hconsumed t (mem_keys.mpr (mem_iff.mpr ⟨eff, heff⟩)) kb.newTip ?_ c ?_)
    · simp [depsOf, heff, keyDeps_of_keyBindOf hkb]
    · simpa [heff, hkb] using hc

theorem historicalFrontier_keeps_both : KeepsVisible (partlyConsumed [⟨1, 1⟩, ⟨2, 1⟩]) [107] withoutTxn [⟨3, 3⟩] := by
  have hbinds : ∀ t ∈ (partlyConsumed [⟨1, 1⟩, ⟨2, 1⟩]).keys,
      (((partlyConsumed [⟨1, 1⟩, ⟨2, 1⟩]).lookup t).bind (keyBindOf · [107])).all
        (fun kb => kb.newTip = ⟨3, 2⟩ ∧ kb.consumedTips = [⟨1, 1⟩, ⟨2, 1⟩]) = true := by decide
  have hdeps : depsOf (partlyConsumed [⟨1, 1⟩, ⟨2, 1⟩]) [107] ⟨3, 2⟩ = [⟨1, 1⟩, ⟨2, 1⟩] := by decide
  have hacyclic : Acyclic (depsOf (partlyConsumed [⟨1, 1⟩, ⟨2, 1⟩]) [107]) := acyclic_of_offsets (by decide)
  have hcut : CausalCut (partlyConsumed [⟨1, 1⟩, ⟨2, 1⟩]) [107] withoutTxn :=
    causalCut_of_keys (by decide) (by decide) (by decide)
  obtain ⟨-, hiff⟩ := historicalFrontier_keeps_visible_iff hacyclic hcut
  refine hiff.mpr ?_ [⟨3, 3⟩] (by simp [partlyConsumed])
  intro t eff kb heff hkb _ e he hreach
  have hbind := hbinds t (mem_keys.mpr (mem_iff.mpr ⟨eff, heff⟩))
  rw [heff, bind_some, hkb, all_some, decide_eq_true_eq] at hbind
  rw [hbind.1] at hreach
  obtain rfl | ⟨d, hd, hde⟩ := hreach.cases_head
  · exact absurd he.1 (by decide)
  · exact ⟨d, by rw [hbind.2, ← hdeps]; exact hd, hde⟩

/-- The bind restores one of the two effects below its transaction; the other one is lost. -/
theorem historicalFrontier_loses_second : CausalCut (partlyConsumed [⟨1, 1⟩]) [107] withoutTxn ∧
      HistoricalFrontier (partlyConsumed [⟨1, 1⟩]) [107] withoutTxn [⟨3, 3⟩] [⟨1, 1⟩] ∧
      Visible (partlyConsumed [⟨1, 1⟩]) withoutTxn ⟨2, 1⟩ ∧
      Reach (depsOf (partlyConsumed [⟨1, 1⟩]) [107]) ⟨3, 3⟩ ⟨2, 1⟩ ∧
      ¬ Reach (depsOf (partlyConsumed [⟨1, 1⟩]) [107]) ⟨1, 1⟩ ⟨2, 1⟩ := by
  refine ⟨causalCut_of_keys (by decide) (by decide) (by decide), ⟨4, fun fuel hfuel => ?_⟩,
    ⟨by decide, by decide⟩, ?_, ?_⟩
  · exact walkWith_mono hfuel rfl
  · exact .head (b := ⟨3, 2⟩) (by decide) (.single (by decide))
  · intro hreach
    have hroot : depsOf (partlyConsumed [⟨1, 1⟩]) [107] ⟨1, 1⟩ = [] := by decide
    obtain heq | ⟨d, hd, -⟩ := hreach.cases_head
    · cases heq
    · rw [hroot] at hd
      cases hd

end swytch.effects
