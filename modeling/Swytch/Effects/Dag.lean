import Swytch.Lib.Reach
import Swytch.Proto.Replication
import Mathlib.Data.List.Sort

open swytch.proto

namespace swytch.effects

abbrev Tip := EffectRef

/-- The effects a node can resolve, by position. -/
abbrev Log := Map Tip Effect

variable (eff : Effect)

/-- Ordinary dependencies followed by a bind's new tips. -/
def allDeps : List Tip :=
  match eff.kind with
  | .txnBind b => eff.deps ++ b.keys.map KeyBind.newTip
  | _ => eff.deps

/-- A bind is followed through the first entry for this key only; every other
effect keeps all its dependencies. -/
def keyDeps (key : Bytes) (eff : Effect) : List Tip :=
  match eff.kind with
  | .txnBind b => ((b.keys.find? (fun kb => kb.key = key)).map KeyBind.newTip).toList
  | _ => eff.deps

/-- The tips below a position on a key; a position that cannot be resolved has none. -/
def depsOf (log : Log) (key : Bytes) (t : Tip) : List Tip :=
  (log.lookup t).elim [] (keyDeps key)

variable {log : Log} {key : Bytes}

theorem depsOf_eq_nil_of_not_mem {t : Tip} (key : Bytes) (ht : t ∉ log) : depsOf log key t = [] := by
  rw [depsOf, Finmap.lookup_eq_none.mpr ht]
  rfl

/-- A log in which every dependency has a smaller offset is acyclic. -/
theorem acyclic_of_offsets (hoffsets : ∀ t ∈ log.keys, ∀ d ∈ depsOf log key t, d.offset < t.offset) :
    lib.Acyclic (depsOf log key) := by
  apply lib.acyclic_of_rank EffectRef.offset
  intro t d hd
  by_cases ht : t ∈ log
  · exact hoffsets t (Finmap.mem_keys.mpr ht) d hd
  · rw [depsOf_eq_nil_of_not_mem key ht] at hd
    cases hd

def isBind : Bool :=
  match eff.kind with
  | .txnBind _ => true
  | _ => false

def isSnapshot : Bool :=
  match eff.kind with
  | .snapshot _ => true
  | _ => false

def isStateSnapshot : Bool :=
  match eff.kind with
  | .snapshot s => s.state.isSome
  | _ => false

def isSubscription : Bool :=
  match eff.kind with
  | .subscription _ => true
  | _ => false

/-- A subscription without dependencies carries no data ancestry. -/
def isStandaloneSubscription : Bool :=
  isSubscription eff ∧ eff.deps = []

/-- The loop state of `bfs`. `nodes` lists the collected tips in the order of
discovery; the effect of each is its entry in the log. -/
structure Bfs where
  nodes : List Tip := []
  queue : List Tip := []
  snapshots : List Tip := []
  frontier : Finset Tip := ∅

namespace Bfs

def enqueue (s : Bfs) (t : Tip) (eff : Effect) : Bfs :=
  if isStateSnapshot eff then { s with snapshots := s.snapshots ++ [t] }
  else { s with queue := s.queue ++ [t] }

def addTip (log : Log) (s : Bfs) (t : Tip) : Option Bfs :=
  if t ∈ s.nodes then some s
  else
    match log.lookup t with
    | none => none
    | some eff =>
      let frontier := if isStandaloneSubscription eff then s.frontier else insert t s.frontier
      some ({ s with nodes := s.nodes ++ [t], frontier := frontier }.enqueue t eff)

def addDep (log : Log) (s : Bfs) (t : Tip) : Option Bfs :=
  match log.lookup t with
  | none => none
  | some eff =>
    if t ∈ s.nodes then
      if isStandaloneSubscription eff then some { s with frontier := insert t s.frontier } else some s
    else some ({ s with nodes := s.nodes ++ [t], frontier := insert t s.frontier }.enqueue t eff)

/-- Follow the dependencies of a dequeued effect. A root keeps its frontier entry. -/
def expand (log : Log) (key : Bytes) (s : Bfs) (cur : Tip) (eff : Effect) : Option Bfs :=
  let deps := keyDeps key eff
  let s := if deps = [] then s else { s with frontier := s.frontier.erase cur }
  deps.foldlM (addDep log) s

/-- Ordinary effects are dequeued before pending state snapshots. -/
def dequeue (s : Bfs) : Option (Tip × Bfs) :=
  match s.queue with
  | cur :: rest => some (cur, { s with queue := rest })
  | [] =>
    match s.snapshots with
    | cur :: rest => some (cur, { s with snapshots := rest })
    | [] => none

/-- A root snapshot may have been expanded before a longer path reached it. -/
def finalLca (log : Log) (s : Bfs) : Tip :=
  (s.nodes.find? (fun t => s.frontier = {t} ∧ (log.lookup t).any isStateSnapshot)).getD .zero

end Bfs

/-- The loop of `bfs`: the collected tips and the snapshot the walk stops at, or
the zero tip. The first argument bounds the number of dequeued effects. -/
def bfsLoop (log : Log) (key : Bytes) : Nat → Bfs → Option (List Tip × Tip)
  | 0, s => if s.dequeue.isNone then some (s.nodes, s.finalLca log) else none
  | n + 1, s =>
    match s.dequeue with
    | none => some (s.nodes, s.finalLca log)
    | some (cur, s) =>
      match log.lookup cur with
      | none => none
      | some eff =>
        if isStateSnapshot eff ∧ s.frontier.card = 1 then some (s.nodes, cur)
        else
          match s.expand log key cur eff with
          | none => none
          | some s => bfsLoop log key n s

def bfs (log : Log) (key : Bytes) (tips : List Tip) : Option (List Tip × Tip) :=
  (tips.foldlM (Bfs.addTip log) {}).bind (bfsLoop log key log.keys.card)

/-- The loop of `trimAncestorsOfLCA`, with the top of the stack in front. Removing
a node also marks it visited. -/
def trimLoop (log : Log) (key : Bytes) : Nat → List Tip → List Tip → List Tip
  | 0, _, nodes => nodes
  | n + 1, stack, nodes =>
    match stack.dropWhile (· ∉ nodes) with
    | [] => nodes
    | cur :: rest =>
      trimLoop log key n ((depsOf log key cur).reverse ++ rest) (nodes.erase cur)

def trimAncestorsOfLCA (log : Log) (key : Bytes) (lcaTip : Tip) (nodes : List Tip) : List Tip :=
  if lcaTip = .zero ∨ lcaTip ∉ nodes then nodes
  else
    match log.lookup lcaTip with
    | none => nodes
    | some eff => if isSnapshot eff then trimLoop log key nodes.length eff.deps.reverse nodes else nodes

def hashOf (log : Log) (t : Tip) : Bytes :=
  (log.lookup t).elim [] Effect.forkChoiceHash

def sortByHash (log : Log) (tips : List Tip) : List Tip :=
  tips.insertionSort (fun a b => hashOf log a ≤ hashOf log b)

/-- The visited set and the order of `topoCollect`. -/
structure Topo where
  visited : Finset Tip := ∅
  order : List Tip := []

/-- Post-order replay within the collected nodes. The first argument bounds the
depth of the recursion. -/
def topoCollect (log : Log) (key : Bytes) (nodes : List Tip) (lcaTip : Tip) : Nat → Tip → Topo → Topo
  | 0, _, st => st
  | n + 1, t, st =>
    if t ∈ st.visited then st
    else
      let st : Topo := { st with visited := insert t st.visited }
      if t ∉ nodes then st
      else
        match log.lookup t with
        | none => st
        | some eff =>
          if isSnapshot eff ∧ t = lcaTip then { st with order := st.order ++ [t] }
          else
            -- An effect with a single dependency is followed without a node check.
            let deps :=
              if !isBind eff ∧ eff.deps.length = 1 then eff.deps
              else sortByHash log ((keyDeps key eff).filter (· ∈ nodes))
            let st := deps.foldl (fun st d => topoCollect log key nodes lcaTip n d st) st
            { st with order := st.order ++ [t] }

/-- A prepared walk: the nodes left after trimming, the snapshot it starts from
and the order in which the nodes are replayed. -/
structure Dag where
  nodes : List Tip
  lcaTip : Tip
  topoOrder : List Tip
deriving DecidableEq

def topoOrder (log : Log) (key : Bytes) (nodes : List Tip) (lcaTip : Tip) (tips : List Tip) : List Tip :=
  ((sortByHash log (tips.filter (· ∈ nodes))).foldl
    (fun st t => topoCollect log key nodes lcaTip (nodes.length + 1) t st) {}).order

def prepare (log : Log) (key : Bytes) (tips : List Tip) : Option Dag :=
  match bfs log key tips with
  | none => none
  | some (nodes, lcaTip) =>
    let nodes := trimAncestorsOfLCA log key lcaTip nodes
    some ⟨nodes, lcaTip, topoOrder log key nodes lcaTip tips⟩

/-- Snapshots other than the one the walk starts from and data of transactions
other than the active one take part in the walk but are not replayed. -/
def shouldEmit (lcaTip : Tip) (activeTxnID : Bytes) (t : Tip) (eff : Effect) : Bool :=
  if isSnapshot eff then t = lcaTip
  else eff.txnId = [] ∨ isBind eff ∨ eff.txnId = activeTxnID

/-- The effects of a replay order that are handed to the processor. -/
def emit (log : Log) (lcaTip : Tip) (activeTxnID : Bytes) (order : List Tip) : List (Tip × Effect) :=
  order.filterMap (fun t =>
    (log.lookup t).bind (fun eff => if shouldEmit lcaTip activeTxnID t eff then some (t, eff) else none))

def iterate (log : Log) (activeTxnID : Bytes) (d : Dag) : List (Tip × Effect) :=
  emit log d.lcaTip activeTxnID d.topoOrder

theorem prepare_eq_some {tips : List Tip} {d : Dag} (hprepare : prepare log key tips = some d) :
    ∃ nodes, bfs log key tips = some (nodes, d.lcaTip) ∧ d.nodes = trimAncestorsOfLCA log key d.lcaTip nodes ∧
      d.topoOrder = topoOrder log key d.nodes d.lcaTip tips := by
  rw [prepare] at hprepare
  cases hbfs : bfs log key tips with
  | none => simp [hbfs] at hprepare
  | some result =>
    obtain ⟨nodes, lcaTip⟩ := result
    simp only [hbfs, Option.some.injEq] at hprepare
    subst hprepare
    exact ⟨nodes, rfl, rfl, rfl⟩

end swytch.effects
