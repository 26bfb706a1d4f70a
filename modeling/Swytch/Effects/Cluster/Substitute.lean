import Swytch.Effects.Context
import Swytch.Effects.CausalIndex

open swytch.lib swytch.proto Finmap

namespace swytch.effects

/-- Every effect that one log resolves is resolved to the same by the other. -/
def Within (log other : Log) : Prop :=
  ∀ t eff, log.lookup t = some eff → other.lookup t = some eff

theorem Within.refl (log : Log) : Within log log :=
  fun _ _ h => h

variable {log other : Log} {t : Tip} {eff : Effect} {ts us : List Tip}

theorem Within.trans {third : Log} (h : Within log other) (h' : Within other third) : Within log third :=
  fun t eff ht => h' t eff (h t eff ht)

theorem within_insert (hsame : ∀ old, log.lookup t = some old → old = eff) : Within log (log.insert t eff) := by
  intro u old hu
  by_cases heq : u = t
  · subst heq
    rw [lookup_insert, hsame old hu]
  · rw [lookup_insert_of_ne log heq, hu]

theorem Within.insert (h : Within log other) (ht : other.lookup t = some eff) : Within (log.insert t eff) other := by
  intro u old hu
  by_cases heq : u = t
  · subst heq
    rw [lookup_insert] at hu
    rw [ht, hu]
  · rw [lookup_insert_of_ne log heq] at hu
    exact h u old hu

/-- A bind or a non-transactional effect. -/
def isCommitted (eff : Effect) : Bool :=
  isBind eff ∨ eff.txnId = []

/-- The position of a transactional effect that is not a bind. -/
def InFlight (log : Log) (t : Tip) : Prop :=
  (log.lookup t).any (fun eff => ¬ isCommitted eff) = true

theorem inFlight_iff : InFlight log t ↔ ∃ eff, log.lookup t = some eff ∧ isBind eff = false ∧ eff.txnId ≠ [] := by
  unfold InFlight
  cases log.lookup t with
  | none => simp
  | some eff => simp [isCommitted]

theorem InFlight.mono (hsub : Within log other) (h : InFlight log t) : InFlight other t := by
  obtain ⟨eff, ht, hkind⟩ := inFlight_iff.mp h
  exact inFlight_iff.mpr ⟨eff, hsub t eff ht, hkind⟩

/-- A way to follow effects that leaves only binds open. -/
def Plain (f : Effect → List Tip) : Prop :=
  ∀ eff, isBind eff = false → f eff = eff.deps

def below (log : Log) (f : Effect → List Tip) (t : Tip) : List Tip :=
  (log.lookup t).elim [] f

theorem plain_keyDeps (key : Bytes) : Plain (keyDeps key) := by
  intro eff hbind
  unfold isBind at hbind
  unfold keyDeps
  split
  · rename_i b hkind
    simp [hkind] at hbind
  · rfl

variable {f : Effect → List Tip} {vs : List Tip} {log' : Log}

theorem mem_below (ht : log.lookup t = some eff) {d : Tip} : d ∈ below log f t ↔ d ∈ f eff := by
  rw [below, ht, Option.elim_some]

theorem reach_of_within (hsub : Within log other) {e : Tip} (h : Reach (below log f) t e) :
    Reach (below other f) t e := by
  refine Reach.mono ?_ h
  intro u d hd
  cases hu : log.lookup u with
  | none => simp [below, hu] at hd
  | some eff =>
    rw [mem_below hu] at hd
    exact (mem_below (hsub u eff hu)).mpr hd

/-- What lies below some tips: the effects that are not in flight. -/
def Below (log : Log) (f : Effect → List Tip) (tips : List Tip) (e : Tip) : Prop :=
  ¬ InFlight log e ∧ ∃ t ∈ tips, Reach (below log f) t e

/-- Two lists of tips have the same history, now and whatever the node learns later. -/
def SameHistory (log : Log) (ts us : List Tip) : Prop :=
  ∀ other, Within log other → ∀ f, Plain f → ∀ e, Below other f ts e ↔ Below other f us e

/-- The history of the first tips is part of that of the others. -/
def HistoryWithin (log : Log) (ts us : List Tip) : Prop :=
  ∀ other, Within log other → ∀ f, Plain f → ∀ e, Below other f ts e → Below other f us e

namespace SameHistory

theorem symm (h : SameHistory log ts us) : SameHistory log us ts :=
  fun other hsub f hf e => (h other hsub f hf e).symm

theorem trans (h : SameHistory log ts us) (h' : SameHistory log us vs) : SameHistory log ts vs :=
  fun other hsub f hf e => (h other hsub f hf e).trans (h' other hsub f hf e)

theorem mono (hsub : Within log log') (h : SameHistory log ts us) : SameHistory log' ts us :=
  fun other hother => h other (hsub.trans hother)

theorem within (h : SameHistory log ts us) : HistoryWithin log ts us :=
  fun other hsub f hf e => (h other hsub f hf e).mp

end SameHistory

namespace HistoryWithin

theorem trans (h : HistoryWithin log ts us) (h' : HistoryWithin log us vs) : HistoryWithin log ts vs :=
  fun other hsub f hf e he => h' other hsub f hf e (h other hsub f hf e he)

theorem mono (hsub : Within log log') (h : HistoryWithin log ts us) : HistoryWithin log' ts us :=
  fun other hother => h other (hsub.trans hother)

end HistoryWithin

/-- The history of an effect includes that of its dependencies. -/
theorem historyWithin_deps (ht : log.lookup t = some eff) (hbind : isBind eff = false) :
    HistoryWithin log eff.deps [t] := by
  rintro other hsub f hf e ⟨hflight, d, hd, hreach⟩
  refine ⟨hflight, t, List.mem_singleton_self t, Reach.head ?_ hreach⟩
  rw [mem_below (hsub t eff ht), hf eff hbind]
  exact hd

/-- An effect in flight adds nothing to the history of its dependencies. -/
theorem sameHistory_deps (ht : log.lookup t = some eff) (hbind : isBind eff = false) (htxn : eff.txnId ≠ []) :
    SameHistory log [t] eff.deps := by
  intro other hsub f hf e
  refine ⟨?_, historyWithin_deps ht hbind other hsub f hf e⟩
  rintro ⟨hflight, u, hu, hreach⟩
  rw [List.mem_singleton] at hu
  subst hu
  rcases hreach.cases_head with rfl | ⟨d, hd, hde⟩
  · exact absurd (inFlight_iff.mpr ⟨eff, hsub u eff ht, hbind, htxn⟩) hflight
  · rw [mem_below (hsub u eff ht), hf eff hbind] at hd
    exact ⟨hflight, d, hd, hde⟩

/-- A stand-in for a tip in progress: older tips with the same history. -/
structure StandIn (log : Log) (born : Tip → Nat) (t : Tip) (deps : List Tip) : Prop where
  same : SameHistory log [t] deps
  older : ∀ d ∈ deps, born d < born t

/-- If all stand-ins are right, resolving tips does not change their history. -/
theorem sameHistory_resolveTipDeps {pendingTxTips : Map Tip (List Tip)} {born : Tip → Nat}
    (hpending : ∀ t deps, pendingTxTips.lookup t = some deps → deps ≠ [] → StandIn log born t deps)
    (tips : List Tip) : SameHistory log tips (resolveTipDeps pendingTxTips tips) := by
  have hlookup : ∀ t, pendingDeps pendingTxTips t ≠ [] → StandIn log born t (pendingDeps pendingTxTips t) :=
    fun t ht => hpending t _ (lookup_of_pendingDeps_ne_nil ht) ht
  have hacyclic : Acyclic (pendingDeps pendingTxTips) := by
    apply acyclic_of_rank born
    intro t d hd
    exact (hlookup t (List.ne_nil_of_mem hd)).older d hd
  intro other hsub f hf e
  have hleaf : ¬ InFlight other e → ∀ t, Reach (below other f) t e ↔
      ∃ r, Reach (pendingDeps pendingTxTips) t r ∧ pendingDeps pendingTxTips r = [] ∧
        Reach (below other f) r e := by
    intro hflight
    apply hacyclic.reach_iff_leaf
    intro t ht
    have hsame := (hlookup t ht).same other hsub f hf e
    simpa [Below, hflight] using hsame
  constructor
  · rintro ⟨hflight, t, ht, hreach⟩
    obtain ⟨r, htr, hr, hre⟩ := (hleaf hflight t).mp hreach
    exact ⟨hflight, r, mem_resolveTipDeps_iff.mpr ⟨⟨t, ht, htr⟩, hr⟩, hre⟩
  · rintro ⟨hflight, r, hr, hre⟩
    obtain ⟨⟨t, ht, htr⟩, hr⟩ := mem_resolveTipDeps_iff.mp hr
    exact ⟨hflight, t, ht, (hleaf hflight t).mpr ⟨r, htr, hr, hre⟩⟩

end swytch.effects
