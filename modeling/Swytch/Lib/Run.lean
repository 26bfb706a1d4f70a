import Mathlib.Data.List.Basic

namespace swytch.lib

/-- The runs of a partial step function whose steps all meet a condition. -/
inductive Run {S A : Type} (step : S → A → Option S) (ok : S → A → Prop) (s : S) : S → Prop where
  | start : Run step ok s s
  | next {t u : S} {a : A} (hrun : Run step ok s t) (hok : ok t a) (hstep : step t a = some u) : Run step ok s u

/-- What holds at the start and is kept by every step holds along the run. -/
theorem Run.invariant {S A : Type} {step : S → A → Option S} {ok : S → A → Prop} {P : S → Prop} {s t : S}
    (hrun : Run step ok s t) (hstart : P s) (hkeep : ∀ {s a t}, P s → ok s a → step s a = some t → P t) : P t := by
  induction hrun with
  | start => exact hstart
  | next _ hok hstep ih => exact hkeep ih hok hstep

/-- Perform actions one after the other, each of which has to meet the condition. -/
def perform {S A : Type} (step : S → A → Option S) (ok : S → A → Prop) [∀ s a, Decidable (ok s a)] :
    List A → S → Option S
  | [], s => some s
  | a :: as, s => if ok s a then (step s a).bind (perform step ok as) else none

theorem run_of_perform {S A : Type} {step : S → A → Option S} {ok : S → A → Prop} [∀ s a, Decidable (ok s a)]
    {as : List A} {r s t : S} (hrun : Run step ok r s) (hperform : perform step ok as s = some t) :
    Run step ok r t := by
  induction as generalizing s with
  | nil =>
    cases hperform
    exact hrun
  | cons a as ih =>
    unfold perform at hperform
    split at hperform
    · rename_i hok
      obtain ⟨u, hstep, hrest⟩ := Option.bind_eq_some_iff.mp hperform
      exact ih (.next hrun hok hstep) hrest
    · cases hperform

/-- A run that can be performed ends in a state with what was computed of it. -/
theorem exists_run_of_perform {S A : Type} {step : S → A → Option S} {ok : S → A → Prop}
    [∀ s a, Decidable (ok s a)] {P : S → Prop} [DecidablePred P] {as : List A} {s : S}
    (hperform : (perform step ok as s).any (fun t => P t) = true) : ∃ t, Run step ok s t ∧ P t := by
  cases ht : perform step ok as s with
  | none => simp [ht] at hperform
  | some t => exact ⟨t, run_of_perform .start ht, by simpa [ht] using hperform⟩

end swytch.lib
