import Swytch.Effects.Closure
import Swytch.Effects.Reduce

open swytch.proto

namespace swytch.effects

/-- The first entry of a bind for a key. -/
def keyBindOf (eff : Effect) (key : Bytes) : Option KeyBind :=
  match eff.kind with
  | .txnBind b => b.keys.find? (fun kb => kb.key = key)
  | _ => none

variable (rt : Runtime) (log : Log)

/-- Below an effect of the transaction; the tips it consumed are not entered. -/
def bindWalkDeps (txnID : Bytes) (consumed : List Tip) (t : Tip) : List Tip :=
  match log.lookup t with
  | none => []
  | some eff => if eff.txnId = txnID then eff.deps.filter (fun d => d ∉ consumed ∧ d ≠ .zero) else []

/-- The effects of a bind's transaction on a key, oldest first. Fails if one of them
cannot be resolved. -/
def collectBindEffects (bindEff : Effect) (key : Bytes) : Option (List Effect) :=
  match keyBindOf bindEff key with
  | none => some []
  | some kb =>
    let start := [kb.newTip].filter (fun t => t ∉ kb.consumedTips ∧ t ≠ .zero)
    let visited := lib.walkFrom .lifo (bindWalkDeps log bindEff.txnId kb.consumedTips) log.keys start []
    (visited.mapM log.lookup).map fun effects =>
      (effects.filter (fun eff => eff.txnId = bindEff.txnId)).reverse

/-- The tips of a replay order that descend from a bind that is not visible yet. -/
def dependsOnInvisible (key : Bytes) (isInvisible : Bytes → Bool) (order : List Tip) : Finset Tip :=
  order.foldl (fun marked t =>
    match log.lookup t with
    | none => marked
    | some eff =>
      if (isBind eff ∧ isInvisible eff.txnId) ∨ ∃ d ∈ keyDeps key eff, d ∈ marked then insert t marked
      else marked) ∅

/-- What a replayed effect does to the result: a snapshot replaces it, a standalone
subscription is set aside to the end, a bind that does not count is skipped, and
anything else is folded in. -/
inductive ReplayStep where
  | skip
  | adopt (state : ReducedEffect)
  | fold (effects : List Effect)
  | subscribe (eff : Effect)

/-- A bind stands for the effects of its transaction, unless it is not visible, comes
after one that is not, or was lost. -/
def replayStep (key : Bytes) (isInvisible : Bytes → Bool) (hidden : Finset Tip)
    (lost : Bytes → Bool) (t : Tip) (eff : Effect) : Option ReplayStep :=
  match eff.kind with
  | .snapshot ⟨some state, _, _⟩ => some (.adopt state)
  | .txnBind _ =>
    if isInvisible eff.txnId ∨ t ∈ hidden ∨ lost eff.txnId then some .skip
    else (collectBindEffects log eff key).map .fold
  | _ => some (if isStandaloneSubscription eff then .subscribe eff else .fold [eff])

def applyStep (result : Option ReducedEffect) : ReplayStep → Option ReducedEffect
  | .skip => result
  | .adopt state => some state
  | .fold effects => reduceChain rt result effects
  | .subscribe _ => result

def subscriptionsOf (steps : List ReplayStep) : List Effect :=
  steps.filterMap fun
    | .subscribe eff => some eff
    | _ => none

/-- A finished replay: the walk and what each replayed effect did. -/
structure Reconstruction where
  dag : Dag
  steps : List ReplayStep

/-- The value that the read returns. -/
def Reconstruction.result (rt : Runtime) (rec : Reconstruction) : Option ReducedEffect :=
  let result := rec.steps.foldl (applyStep rt) none
  if (subscriptionsOf rec.steps).isEmpty then result
  else reduceChain rt result (subscriptionsOf rec.steps)

end swytch.effects
