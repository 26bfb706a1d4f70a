import Swytch.Effects.FlushTx

open swytch.proto Function

namespace swytch.effects

/-- A bind that is held invisible, and the group it waits in. -/
structure HorizonEntry where
  bind : TransactionalBindEffect
  group : Nat

/-- Binds that compete for a consumed tip. `bases` keeps those that were aborted, so that
a later arrival still joins the group. -/
structure HorizonGroup where
  entries : List (Bytes × TransactionalBindEffect) := []
  bases : List TransactionalBindEffect := []
  timer : Option Nat := none

/-- The invisible transactions. Groups and timers are known by their number, as the
source knows them by their address: `heap` has every group, `groups` the listed ones
and `timers` the group that a timer follows. -/
structure HorizonSet where
  entries : Map Bytes HorizonEntry := ∅
  heap : Nat → HorizonGroup := fun _ => {}
  groups : List Nat := []
  timers : Nat → Nat := fun _ => 0
  nextGroup : Nat := 0
  nextTimer : Nat := 0

abbrev PendingTxTips := Map Tip (List Tip)

/-- The data tips of a bind are no longer in progress. -/
def releaseBind (pending : PendingTxTips) (bind : TransactionalBindEffect) : PendingTxTips :=
  (bind.keys.map KeyBind.newTip).foldl (fun pending t => pending.erase t) pending

namespace HorizonSet

def isInvisible (h : HorizonSet) (txnID : Bytes) : Bool :=
  (h.entries.lookup txnID).isSome

def setGroup (h : HorizonSet) (g : Nat) (group : HorizonGroup) : HorizonSet :=
  { h with heap := update h.heap g group }

/-- Drop the groups that have resolved or were merged, with their timers. -/
def pruneGroups (h : HorizonSet) : HorizonSet :=
  let empty (g : Nat) : Bool := (h.heap g).entries.isEmpty
  { h with
    heap := fun g => if g ∈ h.groups ∧ empty g then { h.heap g with timer := none, bases := [] } else h.heap g
    groups := h.groups.filter (fun g => !empty g) }

/-- Move the entries, bases and timer of a group to another one. -/
def merge (h : HorizonSet) (target g : Nat) : HorizonSet :=
  let group := h.heap g
  let into := h.heap target
  let moved := if into.timer.isNone then group.timer else none
  let entries := group.entries.foldl (fun entries e =>
    (entries.lookup e.1).elim entries (fun entry => entries.insert e.1 { entry with group := target })) h.entries
  { (h.setGroup target
      { entries := into.entries ++ group.entries
        bases := into.bases ++ group.bases
        timer := into.timer.or moved }).setGroup g
      { group with entries := [], timer := if moved.isSome then none else group.timer } with
    entries := entries
    timers := moved.elim h.timers (fun t => update h.timers t target) }

/-- The groups that a bind overlaps with are merged into the first of them. -/
def mergeOverlapping (h : HorizonSet) (bind : TransactionalBindEffect) : HorizonSet × Option Nat :=
  h.groups.foldl (fun (acc : HorizonSet × Option Nat) g =>
    if (acc.1.heap g).bases.any (fun base => bindsShareBase base bind) then
      match acc.2 with
      | none => (acc.1, some g)
      | some target => (acc.1.merge target g, some target)
    else acc) (h, none)

/-- Put a bind into a group. -/
def join (h : HorizonSet) (txnID : Bytes) (bind : TransactionalBindEffect) (g : Nat) : HorizonSet :=
  let group := h.heap g
  { h.setGroup g { group with entries := group.entries ++ [(txnID, bind)], bases := group.bases ++ [bind] } with
    entries := h.entries.insert txnID ⟨bind, g⟩ }

def add (h : HorizonSet) (txnID : Bytes) (bind : TransactionalBindEffect) : HorizonSet :=
  if h.isInvisible txnID then h
  else
    match h.mergeOverlapping bind with
    | (merged, some target) => merged.pruneGroups.join txnID bind target
    | (merged, none) =>
      { merged.setGroup merged.nextGroup {} with
        groups := merged.groups ++ [merged.nextGroup], nextGroup := merged.nextGroup + 1 }.join txnID bind
        merged.nextGroup

/-- Start the fallback timer of a bind's group in place of the one that runs. -/
def scheduleMakeVisible (h : HorizonSet) (txnID : Bytes) : HorizonSet :=
  (h.entries.lookup txnID).elim h fun entry =>
    { h.setGroup entry.group { h.heap entry.group with timer := some h.nextTimer } with
      timers := update h.timers h.nextTimer entry.group
      nextTimer := h.nextTimer + 1 }

variable (s : HorizonSet × PendingTxTips)

/-- Release the bookkeeping of a bind. -/
def resolve (e : Bytes × TransactionalBindEffect) : HorizonSet × PendingTxTips :=
  ({ s.1 with entries := s.1.entries.erase e.1 }, releaseBind s.2 e.2)

def makeGroupVisible (g : Nat) : HorizonSet × PendingTxTips :=
  let resolved := (s.1.heap g).entries.foldl resolve s
  ((resolved.1.setGroup g { resolved.1.heap g with entries := [] }).pruneGroups, resolved.2)

def makeVisible (txnID : Bytes) : HorizonSet × PendingTxTips :=
  (s.1.entries.lookup txnID).elim s (fun entry => makeGroupVisible s entry.group)

/-- The callback of a timer, which may have been stopped or moved in the meantime. -/
def fire (timer : Nat) : HorizonSet × PendingTxTips :=
  if (s.1.heap (s.1.timers timer)).timer = some timer then makeGroupVisible s (s.1.timers timer) else s

/-- Remove a single entry; the rest of its group goes on waiting. -/
def abort (txnID : Bytes) : HorizonSet × PendingTxTips :=
  (s.1.entries.lookup txnID).elim s fun entry =>
    let group := s.1.heap entry.group
    let removed := s.1.setGroup entry.group
      { group with entries := group.entries.eraseIdx (group.entries.findIdx (fun e => e.1 = txnID)) }
    let resolved := resolve (removed, s.2) (txnID, entry.bind)
    (resolved.1.pruneGroups, resolved.2)

end HorizonSet

end swytch.effects
