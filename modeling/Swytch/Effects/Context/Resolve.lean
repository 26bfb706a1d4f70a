import Swytch.Effects.Context

open swytch.lib swytch.proto Finmap List

namespace swytch.effects

variable (log : Log)

/-- An effect of a transaction that has a tip in progress. -/
def OfPendingTxn (pendingTxTips : Map Tip (List Tip)) (e : Tip) : Prop :=
  ∃ p ∈ pendingTxTips, ∃ eff peff, log.lookup e = some eff ∧ log.lookup p = some peff ∧
    eff.txnId ≠ [] ∧ eff.txnId = peff.txnId

/-- An effect that resolving must not lose: it is no tip in progress, and its transaction,
if it has one, has none either. -/
def NotInProgress (pendingTxTips : Map Tip (List Tip)) (e : Tip) : Prop :=
  e ∉ pendingTxTips ∧ ¬ OfPendingTxn log pendingTxTips e

/-- The bases of the tips in progress lie below their tips. -/
def Based (key : Bytes) (pendingTxTips : Map Tip (List Tip)) : Prop :=
  ∀ p base, pendingTxTips.lookup p = some base → ∀ b ∈ base,
    ∃ d ∈ depsOf log key p, Reach (depsOf log key) d b

/-- A base that is not empty leads to all below its tip that is not in progress. -/
def Covering (key : Bytes) (pendingTxTips : Map Tip (List Tip)) : Prop :=
  ∀ p base, pendingTxTips.lookup p = some base → base ≠ [] → ∀ d ∈ depsOf log key p, ∀ e,
    Reach (depsOf log key) d e → NotInProgress log pendingTxTips e → ∃ b ∈ base, Reach (depsOf log key) b e

variable {pendingTxTips : Map Tip (List Tip)} {log : Log} {key : Bytes}

theorem Based.below (hbased : Based log key pendingTxTips) (p : Tip) :
    ∀ b ∈ pendingDeps pendingTxTips p, ∃ d ∈ depsOf log key p, Reach (depsOf log key) d b := fun b hb =>
  hbased p _ (lookup_of_pendingDeps_ne_nil (ne_nil_of_mem hb)) b hb

theorem Based.reach (hbased : Based log key pendingTxTips) {t r : Tip}
    (htr : Reach (pendingDeps pendingTxTips) t r) : Reach (depsOf log key) t r := by
  induction htr with
  | refl => exact .refl t
  | tail _ hstep ih =>
    obtain ⟨d, hd, hdb⟩ := hbased.below _ _ hstep
    exact ih.trans (.head hd hdb)

/-- An effect that is not in progress is below a tip in progress just if it is below the
base of it. -/
theorem Covering.reach_iff (hbased : Based log key pendingTxTips) (hcovering : Covering log key pendingTxTips)
    {e : Tip} (hkept : NotInProgress log pendingTxTips e) {p : Tip} (hp : pendingDeps pendingTxTips p ≠ []) :
    Reach (depsOf log key) p e ↔ ∃ b ∈ pendingDeps pendingTxTips p, Reach (depsOf log key) b e := by
  have hlookup := lookup_of_pendingDeps_ne_nil hp
  constructor
  · intro hpe
    obtain rfl | ⟨d, hd, hde⟩ := hpe.cases_head
    · exact absurd (mem_iff.mpr ⟨_, hlookup⟩) hkept.1
    · exact hcovering p _ hlookup hp d hd e hde hkept
  · rintro ⟨b, hb, hbe⟩
    obtain ⟨d, hd, hdb⟩ := hbased.below p b hb
    exact Reach.head hd (hdb.trans hbe)

/-- Resolving tips keeps what is below them and not in progress. -/
def KeepsPast (log : Log) (key : Bytes) (pendingTxTips : Map Tip (List Tip)) (tips : List Tip) : Prop :=
  ∀ e, NotInProgress log pendingTxTips e → (∃ t ∈ tips, Reach (depsOf log key) t e) →
    ∃ r ∈ resolveTipDeps pendingTxTips tips, Reach (depsOf log key) r e

theorem keepsPast_of_covering (hacyclic : Acyclic (depsOf log key)) (hbased : Based log key pendingTxTips)
    (hcovering : Covering log key pendingTxTips) (tips : List Tip) : KeepsPast log key pendingTxTips tips := by
  rintro e hkept ⟨t, ht, hte⟩
  obtain ⟨r, htr, hr, hre⟩ := ((hacyclic.of_reach hbased.below).reach_iff_leaf
    (fun p hp => hcovering.reach_iff hbased hkept hp) t).mp hte
  exact ⟨r, mem_resolveTipDeps_iff.mpr ⟨⟨t, ht, htr⟩, hr⟩, hre⟩

/-- What resolving a single tip keeps is kept by its base. -/
theorem covering_of_keepsPast (hbased : Based log key pendingTxTips)
    (hkeeps : ∀ p, KeepsPast log key pendingTxTips [p]) : Covering log key pendingTxTips := by
  intro p base hlookup hbase d hd e hde hkept
  obtain ⟨r, hr, hre⟩ := hkeeps p e hkept ⟨p, mem_singleton_self p, .head hd hde⟩
  obtain ⟨⟨t, ht, htr⟩, hleaf⟩ := mem_resolveTipDeps_iff.mp hr
  rw [mem_singleton.mp ht] at htr
  have hdeps : pendingDeps pendingTxTips p = base := by rw [pendingDeps, hlookup, Option.getD_some]
  obtain rfl | ⟨b, hb, hbr⟩ := htr.cases_head
  · exact absurd (hdeps.symm.trans hleaf) hbase
  · exact ⟨b, hdeps ▸ hb, (hbased.reach hbr).trans hre⟩

/-- Resolving ends at the tips that nothing stands in for, without repetitions if there was
something to resolve. It keeps the history of all tips just if the bases cover what is
below their tips. -/
theorem resolveTipDeps_keeps_history_iff {log : Log} {key : Bytes} {pendingTxTips : Map Tip (List Tip)}
    (hacyclic : Acyclic (depsOf log key)) (hbased : Based log key pendingTxTips) :
    (∀ tips r, r ∈ resolveTipDeps pendingTxTips tips ↔
      (∃ t ∈ tips, Reach (pendingDeps pendingTxTips) t r) ∧ pendingDeps pendingTxTips r = []) ∧
    (∀ tips, ∀ r ∈ resolveTipDeps pendingTxTips tips, ∀ base, pendingTxTips.lookup r = some base → base = []) ∧
    (∀ tips, (∃ t ∈ tips, t ∈ pendingTxTips) → (resolveTipDeps pendingTxTips tips).Nodup) ∧
    ((∀ tips, KeepsPast log key pendingTxTips tips) ↔ Covering log key pendingTxTips) := by
  refine ⟨fun tips r => mem_resolveTipDeps_iff, fun tips r hr base hbase => ?_, fun tips hsome => ?_,
    fun hkeeps => covering_of_keepsPast hbased (fun p => hkeeps [p]),
    fun hcovering => keepsPast_of_covering hacyclic hbased hcovering⟩
  · have hleaf := (mem_resolveTipDeps_iff.mp hr).2
    rwa [pendingDeps, hbase, Option.getD_some] at hleaf
  · obtain ⟨t, ht, hpending⟩ := hsome
    have hresolves : ¬ tips.all (· ∉ pendingTxTips) = true := fun hall =>
      of_decide_eq_true (all_eq_true.mp hall t ht) hpending
    unfold resolveTipDeps
    rw [if_neg hresolves]
    exact (nodup_walk _ _ _ nodup_nil).filter _

/-- A tip in progress on two effects. -/
def twoBelow : Log :=
  (((∅ : Log).insert ⟨1, 1⟩ { key := [107], kind := .noop }).insert ⟨2, 1⟩ { key := [107], kind := .noop }).insert
    ⟨3, 2⟩ { key := [107], deps := [⟨1, 1⟩, ⟨2, 1⟩], txnId := [7], kind := .noop }

/-- The tip in progress with a base of its own. -/
def baseOfTip (base : List Tip) : Map Tip (List Tip) :=
  (∅ : Map Tip (List Tip)).insert ⟨3, 2⟩ base

theorem acyclic_twoBelow : Acyclic (depsOf twoBelow [107]) :=
  acyclic_of_offsets (by decide)

theorem notInProgress_twoBelow (base : List Tip) : NotInProgress twoBelow (baseOfTip base) ⟨2, 1⟩ := by
  have htxn : (twoBelow.lookup ⟨2, 1⟩).all (fun eff => eff.txnId = []) = true := by decide
  refine ⟨by simp [baseOfTip, notMem_empty], ?_⟩
  rintro ⟨p, -, eff, -, heff, -, hsome, -⟩
  rw [heff] at htxn
  exact hsome (of_decide_eq_true htxn)

theorem resolveTipDeps_keeps_two_below : ∃ r ∈ resolveTipDeps (baseOfTip [⟨1, 1⟩, ⟨2, 1⟩]) [⟨3, 2⟩],
      Reach (depsOf twoBelow [107]) r ⟨2, 1⟩ := by
  have hdeps : depsOf twoBelow [107] ⟨3, 2⟩ = [⟨1, 1⟩, ⟨2, 1⟩] := by decide
  have honly {p : Tip} {base : List Tip}
      (hp : (baseOfTip [⟨1, 1⟩, ⟨2, 1⟩]).lookup p = some base) :
      base = depsOf twoBelow [107] p := by
    by_cases heq : p = ⟨3, 2⟩
    · subst heq
      rw [baseOfTip, lookup_insert, Option.some.injEq] at hp
      rw [hdeps, hp]
    · rw [baseOfTip, lookup_insert_of_ne _ heq, lookup_empty] at hp
      cases hp
  have hbased : Based twoBelow [107] (baseOfTip [⟨1, 1⟩, ⟨2, 1⟩]) :=
    fun p base hp b hb => ⟨b, honly hp ▸ hb, .refl b⟩
  have hcovering : Covering twoBelow [107] (baseOfTip [⟨1, 1⟩, ⟨2, 1⟩]) :=
    fun p base hp _ d hd e hde _ => ⟨d, honly hp ▸ hd, hde⟩
  obtain ⟨-, -, -, hiff⟩ := resolveTipDeps_keeps_history_iff acyclic_twoBelow hbased
  exact hiff.mpr hcovering [⟨3, 2⟩] ⟨2, 1⟩ (notInProgress_twoBelow _)
    ⟨⟨3, 2⟩, mem_singleton_self _, .single (by rw [hdeps]; simp)⟩

/-- A base that lies below its tip need not lead to all that is below it: the second
effect is lost. -/
theorem resolveTipDeps_loses_second : depsOf twoBelow [107] ⟨3, 2⟩ = [⟨1, 1⟩, ⟨2, 1⟩] ∧
      resolveTipDeps (baseOfTip [⟨1, 1⟩]) [⟨3, 2⟩] = [⟨1, 1⟩] ∧ NotInProgress twoBelow (baseOfTip [⟨1, 1⟩]) ⟨2, 1⟩ ∧
      ¬ Reach (depsOf twoBelow [107]) ⟨1, 1⟩ ⟨2, 1⟩ := by
  refine ⟨by decide, by decide +kernel, notInProgress_twoBelow _, fun hreach => ?_⟩
  have hroot : depsOf twoBelow [107] ⟨1, 1⟩ = [] := by decide
  obtain heq | ⟨d, hd, -⟩ := hreach.cases_head
  · cases heq
  · rw [hroot] at hd
    cases hd

end swytch.effects
