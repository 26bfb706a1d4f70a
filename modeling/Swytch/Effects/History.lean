import Swytch.Effects.Dag
import Swytch.Lib.Worklist

open swytch.proto

namespace swytch.effects

/-- What fork choice follows below an effect on a key: a bind through its new tip
on that key, a snapshot to the one before it and, if it holds no state, to its
dependencies. -/
def historyDeps (log : Log) (key : Bytes) (t : Tip) : List Tip :=
  match log.lookup t with
  | none => []
  | some eff =>
    match eff.kind with
    | .snapshot snap => snap.prevSnapshot.toList ++ if snap.state.isNone then eff.deps else []
    | _ => keyDeps key eff

/-- The tips visited from `start` on top of earlier visits, in order. Positions that
cannot be resolved are visited and have nothing below them. -/
def walkHistory (log : Log) (key : Bytes) (start visited : List Tip) : List Tip :=
  lib.walkFrom .lifo (historyDeps log key) log.keys start visited

variable {log : Log} {visited : List Tip} {txnID : Bytes}

theorem mem_keys_of_historyDeps {key : Bytes} (t : Tip) (ht : historyDeps log key t ≠ []) : t ∈ log.keys := by
  rw [Finmap.mem_keys, Finmap.mem_iff]
  cases hlookup : log.lookup t with
  | none => simp [historyDeps, hlookup] at ht
  | some eff => exact ⟨eff, rfl⟩

theorem mem_walkHistory_iff {log : Log} {key : Bytes} {start visited : List Tip}
    (hclosed : ∀ x ∈ visited, ∀ y ∈ historyDeps log key x, y ∈ visited) {t : Tip} :
    t ∈ walkHistory log key start visited ↔ t ∈ visited ∨ ∃ s ∈ start, lib.Reach (historyDeps log key) s t :=
  lib.mem_walkFrom_iff mem_keys_of_historyDeps hclosed

/-- A verdict that decides; UNSPECIFIED entries are never recorded. -/
inductive Outcome where
  | won
  | lost
deriving DecidableEq, Repr

def outcomeOf : Verdict → Option Outcome
  | .unspecified => none
  | .won => some .won
  | .lost => some .lost

/-- The verdicts gathered during a walk, by transaction. -/
abbrev VerdictMap := Bytes → Option Outcome

/-- What the effect at a position decides about a transaction. -/
def verdictAt (log : Log) (t : Tip) (txnID : Bytes) : Option Outcome :=
  match log.lookup t with
  | none => none
  | some eff =>
    match eff.kind with
    | .snapshot snap => (snap.txnVerdicts.lookup txnID).bind outcomeOf
    | _ => none

/-- The first verdict seen stays; a later one that disagrees is only logged. -/
def harvest (log : Log) (verdicts : VerdictMap) (t : Tip) : VerdictMap :=
  fun txnID => (verdicts txnID).or (verdictAt log t txnID)

/-- No transaction is named both won and lost, by the verdicts given or by a
snapshot among `visited`. -/
def Undisputed (log : Log) (seed : VerdictMap) (visited : Set Tip) : Prop :=
  ∀ txnID o o', (seed txnID = some o ∨ ∃ t ∈ visited, verdictAt log t txnID = some o) →
    (seed txnID = some o' ∨ ∃ t ∈ visited, verdictAt log t txnID = some o') → o = o'

variable {seed : VerdictMap}

theorem harvest_some {o : Outcome} (h : visited.foldl (harvest log) seed txnID = some o) :
    seed txnID = some o ∨ ∃ t ∈ visited, verdictAt log t txnID = some o := by
  induction visited generalizing seed with
  | nil => exact .inl h
  | cons t visited ih =>
    rcases ih h with hseed | ⟨u, hu, hverdict⟩
    · rcases Option.or_eq_some_iff.mp hseed with hold | ⟨-, hnew⟩
      · exact .inl hold
      · exact .inr ⟨t, List.mem_cons_self, hnew⟩
    · exact .inr ⟨u, List.mem_cons_of_mem t hu, hverdict⟩

theorem harvest_isSome (h : (seed txnID).isSome ∨ ∃ t ∈ visited, (verdictAt log t txnID).isSome) :
    (visited.foldl (harvest log) seed txnID).isSome := by
  induction visited generalizing seed with
  | nil => simpa using h
  | cons t visited ih =>
    refine ih ?_
    simp only [harvest, Option.isSome_or, Bool.or_eq_true]
    rcases h with hseed | ⟨u, hu, hverdict⟩
    · exact .inl (.inl hseed)
    · rcases List.mem_cons.mp hu with rfl | hu
      · exact .inl (.inr hverdict)
      · exact .inr ⟨u, hu, hverdict⟩

/-- Without disagreement, a verdict is found exactly if one was given or visited. -/
theorem harvest_eq_some_iff (hundisputed : Undisputed log seed { t | t ∈ visited }) {o : Outcome} :
    visited.foldl (harvest log) seed txnID = some o ↔
      seed txnID = some o ∨ ∃ t ∈ visited, verdictAt log t txnID = some o := by
  refine ⟨harvest_some, fun h => ?_⟩
  have hsome : (visited.foldl (harvest log) seed txnID).isSome := by
    refine harvest_isSome (h.imp (fun hseed => by simp [hseed]) ?_)
    rintro ⟨t, ht, hverdict⟩
    exact ⟨t, ht, by simp [hverdict]⟩
  obtain ⟨o', ho'⟩ := Option.isSome_iff_exists.mp hsome
  rw [ho', hundisputed txnID o' o (harvest_some ho') h]

end swytch.effects
