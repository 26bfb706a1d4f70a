import Swytch.Lib.Reach
import Mathlib.Data.Finmap
import Mathlib.Data.List.GetD

namespace swytch.lib

open Option hiding mem_map

open List Nat

/-- A vertex of a chain decomposition: its chain, its place on it, and for every
chain the place of the furthest vertex it reaches. -/
structure ChainNode where
  clock : List Nat
  chain : Nat
  seq : Nat
deriving DecidableEq

/-- A reachability index over a graph that is discovered as vertices are added.
`heads` gives the length of each chain; a vertex without a node is still on
the search stack. -/
structure ChainIndex (α : Type) where
  nodes : Finmap (fun _ : α => Option ChainNode) := ∅
  heads : List Nat := []
  cyclic : Bool := false

variable {α : Type} {deps : α → List α} {c : ChainIndex α} {v u : α} {nu : ChainNode} {heads : List Nat} {chain : Nat}

namespace ChainIndex

def node {α : Type} [DecidableEq α] (c : ChainIndex α) (v : α) : Option ChainNode :=
  (c.nodes.lookup v).join

/-- The furthest place on chain `i` that one of `deps` reaches. -/
def furthest {α : Type} [DecidableEq α] (c : ChainIndex α) (deps : List α) (i : Nat) : Nat :=
  (deps.map (fun d => ((c.node d).elim [] ChainNode.clock).getD i 0)).foldl max 0

/-- The first chain whose head is reached, or a new one. -/
def freeChain (heads clock : List Nat) : Nat :=
  ((range heads.length).find? (fun i => clock.getD i 0 = heads.getD i 0)).getD heads.length

def extendHeads (heads : List Nat) (chain : Nat) : List Nat :=
  if chain = heads.length then heads ++ [1] else heads.set chain (heads.getD chain 0 + 1)

def mergedClock {α : Type} [DecidableEq α] (c : ChainIndex α) (deps : List α) : List Nat :=
  (range (c.heads.length + 1)).map (c.furthest deps)

/-- The place of a vertex whose dependencies all have theirs. -/
def place {α : Type} [DecidableEq α] (c : ChainIndex α) (deps : List α) : ChainNode :=
  let clock := c.mergedClock deps
  let chain := freeChain c.heads clock
  let heads := extendHeads c.heads chain
  ⟨(clock.set chain (heads.getD chain 0)).take heads.length, chain, heads.getD chain 0⟩

def finish {α : Type} [DecidableEq α] (deps : α → List α) (c : ChainIndex α) (v : α) : ChainIndex α :=
  { c with
    nodes := c.nodes.insert v (some (c.place (deps v)))
    heads := extendHeads c.heads (c.place (deps v)).chain }

/-- A vertex enters the index when it is put on the search stack. -/
def push {α : Type} [DecidableEq α] (c : ChainIndex α) (v : α) : ChainIndex α :=
  { c with nodes := c.nodes.insert v none }

/-- Depth-first search below `v`. A dependency that is still on the stack closes a
cycle, after which the index is no longer extended. The first argument bounds
the height of the stack. -/
def visit {α : Type} [DecidableEq α] (deps : α → List α) : Nat → ChainIndex α → α → ChainIndex α
  | 0, c, _ => { c with cyclic := true }
  | n + 1, c, v =>
    if c.cyclic then c
    else
      match c.nodes.lookup v with
      | some (some _) => c
      | some none => { c with cyclic := true }
      | none =>
        let below := (deps v).foldl (visit deps n) (c.push v)
        if below.cyclic then below else finish deps below v

/-- `inner` holds every vertex with dependencies, so that a stack of distinct
vertices is no higher than the bound. -/
def add {α : Type} [DecidableEq α] (deps : α → List α) (inner : Finset α) (c : ChainIndex α) (tips : List α) :
    ChainIndex α :=
  tips.foldl (visit deps (inner.card + 1)) c

/-- Whether `v` reaches `u`, read off their places; both have to be in the index. -/
def covers {α : Type} [DecidableEq α] (c : ChainIndex α) (v u : α) : Bool :=
  match c.node v, c.node u with
  | some nv, some nu => nu.chain < nv.clock.length ∧ nu.seq ≤ nv.clock.getD nu.chain 0
  | _, _ => false

/-- Every finished vertex has finished dependencies, and its clock tells exactly
which finished vertices it reaches. -/
structure Exact {α : Type} [DecidableEq α] (deps : α → List α) (c : ChainIndex α) : Prop where
  closed : ∀ {v nv}, c.node v = some nv → ∀ d ∈ deps v, (c.node d).isSome
  seq_pos : ∀ {v nv}, c.node v = some nv → 1 ≤ nv.seq
  seq_le : ∀ {v nv}, c.node v = some nv → nv.seq ≤ c.heads.getD nv.chain 0
  clock_le : ∀ {v nv}, c.node v = some nv → ∀ i, nv.clock.getD i 0 ≤ c.heads.getD i 0
  reach_iff : ∀ {v u nv nu}, c.node v = some nv → c.node u = some nu →
    (Reach deps v u ↔ nu.seq ≤ nv.clock.getD nu.chain 0)

theorem exact_empty [DecidableEq α] (deps : α → List α) : Exact deps ({} : ChainIndex α) := by
  constructor <;> intros <;> simp_all [node]

theorem lt_length_of_getD_pos {l : List Nat} {i : Nat} (h : 1 ≤ l.getD i 0) : i < l.length := by
  by_contra hnot
  rw [getD_eq_default l 0 (by omega)] at h
  omega

theorem Exact.covers_iff [DecidableEq α] (hexact : Exact deps c) (hv : (c.node v).isSome) (hu : (c.node u).isSome) :
    c.covers v u = true ↔ Reach deps v u := by
  obtain ⟨nv, hnv⟩ := isSome_iff_exists.mp hv
  obtain ⟨nu, hnu⟩ := isSome_iff_exists.mp hu
  rw [hexact.reach_iff hnv hnu]
  simp only [covers, hnv, hnu, decide_eq_true_eq, and_iff_right_iff_imp]
  intro hle
  exact lt_length_of_getD_pos (le_trans (hexact.seq_pos hnu) hle)

/-- On one chain, a later vertex reaches every earlier one. -/
theorem Exact.reach_of_seq_le [DecidableEq α] (hexact : Exact deps c) {nv : ChainNode} (hv : c.node v = some nv)
    (hu : c.node u = some nu) (hchain : nv.chain = nu.chain) (hseq : nu.seq ≤ nv.seq) : Reach deps v u := by
  have hself := (hexact.reach_iff hv hv).mp (Reach.refl v)
  rw [hchain] at hself
  exact (hexact.reach_iff hv hu).mpr (hseq.trans hself)

/-- What a finished vertex reaches is finished. -/
theorem Exact.isSome_of_reach [DecidableEq α] (hexact : Exact deps c) (hv : (c.node v).isSome)
    (hreach : Reach deps v u) : (c.node u).isSome := by
  refine Reach.mem_of_closed (s := { x | (c.node x).isSome }) (fun x hx d hd => ?_) hv hreach
  obtain ⟨nx, hnx⟩ := isSome_iff_exists.mp hx
  exact hexact.closed hnx d hd

theorem le_foldl_max_iff (l : List Nat) (a s : Nat) : s ≤ l.foldl max a ↔ s ≤ a ∨ ∃ x ∈ l, s ≤ x := by
  induction l generalizing a with
  | nil => simp
  | cons b l ih =>
    rw [foldl_cons, ih, le_max_iff]
    simp only [mem_cons, exists_eq_or_imp]
    tauto

/-- A finished vertex lies below one of `deps` when the furthest place on its
chain is not before it. -/
theorem Exact.seq_le_furthest_iff [DecidableEq α] (hexact : Exact deps c) {ds : List α}
    (hds : ∀ d ∈ ds, (c.node d).isSome) (hu : c.node u = some nu) :
    nu.seq ≤ c.furthest ds nu.chain ↔ ∃ d ∈ ds, Reach deps d u := by
  have hpos := hexact.seq_pos hu
  rw [furthest, le_foldl_max_iff, or_iff_right (by omega)]
  simp only [mem_map, exists_exists_and_eq_and]
  refine exists_congr fun d => and_congr_right fun hd => ?_
  obtain ⟨nd, hnd⟩ := isSome_iff_exists.mp (hds d hd)
  rw [hexact.reach_iff hnd hu, hnd]
  rfl

theorem Exact.furthest_le [DecidableEq α] (hexact : Exact deps c) (ds : List α) (i : Nat) :
    c.furthest ds i ≤ c.heads.getD i 0 := by
  by_contra hnot
  rw [furthest, not_le, ← succ_le_iff, le_foldl_max_iff] at hnot
  rcases hnot with hzero | ⟨x, hx, hlt⟩
  · omega
  · obtain ⟨d, -, rfl⟩ := mem_map.mp hx
    cases hnd : c.node d with
    | none => simp [hnd] at hlt
    | some nd =>
      have := hexact.clock_le hnd i
      simp only [hnd, elim_some] at hlt
      omega

theorem freeChain_cases (heads clock : List Nat) : (freeChain heads clock < heads.length ∧
        clock.getD (freeChain heads clock) 0 = heads.getD (freeChain heads clock) 0) ∨
      freeChain heads clock = heads.length := by
  unfold freeChain
  cases hfind : (range heads.length).find? (fun i => clock.getD i 0 = heads.getD i 0) with
  | none => exact .inr rfl
  | some i =>
    have hmem := mem_range.mp (mem_of_find?_eq_some hfind)
    exact .inl ⟨hmem, by simpa using find?_some hfind⟩

/-- Only the chosen chain grows, by one. -/
theorem getD_extendHeads (hchain : chain ≤ heads.length) (i : Nat) :
    (extendHeads heads chain).getD i 0 = heads.getD i 0 + if i = chain then 1 else 0 := by
  unfold extendHeads
  by_cases hnew : chain = heads.length
  · rw [if_pos hnew]
    by_cases hi : i < heads.length
    · rw [getD_append _ _ _ _ hi, if_neg (by omega), add_zero]
    · rw [getD_append_right _ _ _ _ (by omega), getD_eq_default heads 0 (by omega)]
      by_cases heq : i = chain
      · simp [heq, hnew]
      · rw [if_neg heq, getD_eq_default [1] 0 (by simp; omega)]
  · rw [if_neg hnew]
    simp only [getD_eq_getElem?_getD, getElem?_set]
    by_cases heq : chain = i
    · subst heq
      simp [show chain < heads.length by omega]
    · simp [heq, Ne.symm heq]

theorem lt_length_extendHeads (hchain : chain ≤ heads.length) :
    chain < (extendHeads heads chain).length ∧ heads.length ≤ (extendHeads heads chain).length := by
  unfold extendHeads
  split
  · simp; omega
  · simp; omega

theorem node_finish [DecidableEq α] (deps : α → List α) (c : ChainIndex α) (v u : α) :
    (finish deps c v).node u = if u = v then some (c.place (deps v)) else c.node u := by
  by_cases hu : u = v
  · subst hu
    simp [node, finish, Finmap.lookup_insert]
  · simp [node, finish, hu, Finmap.lookup_insert_of_ne]

theorem place_chain_le [DecidableEq α] (c : ChainIndex α) (ds : List α) : (c.place ds).chain ≤ c.heads.length := by
  rcases freeChain_cases c.heads (c.mergedClock ds) with ⟨hlt, -⟩ | heq
  · exact le_of_lt hlt
  · exact le_of_eq heq

theorem place_seq [DecidableEq α] (c : ChainIndex α) (ds : List α) :
    (c.place ds).seq = c.heads.getD (c.place ds).chain 0 + 1 := by
  have hseq := getD_extendHeads (c.place_chain_le ds) (c.place ds).chain
  rw [if_pos rfl] at hseq
  exact hseq

theorem getD_mergedClock [DecidableEq α] (hexact : Exact deps c) (ds : List α) (i : Nat) :
    (c.mergedClock ds).getD i 0 = c.furthest ds i := by
  by_cases hi : i < c.heads.length + 1
  · simp [mergedClock, getD_eq_getElem?_getD, hi]
  · rw [getD_eq_default _ 0 (by simp [mergedClock]; omega)]
    have hle := hexact.furthest_le ds i
    rw [getD_eq_default c.heads 0 (by omega)] at hle
    omega

theorem place_clock [DecidableEq α] (hexact : Exact deps c) (ds : List α) (i : Nat) :
    (c.place ds).clock.getD i 0 = if i = (c.place ds).chain then (c.place ds).seq else c.furthest ds i := by
  have hlen := lt_length_extendHeads (c.place_chain_le ds)
  have hchain := c.place_chain_le ds
  have hbeyond : ¬ i < (extendHeads c.heads (c.place ds).chain).length → c.furthest ds i = 0 := by
    intro hi
    have hle := hexact.furthest_le ds i
    rw [getD_eq_default c.heads 0 (by omega)] at hle
    omega
  have hget := getD_mergedClock hexact ds i
  change (((c.mergedClock ds).set (c.place ds).chain (c.place ds).seq).take
    (extendHeads c.heads (c.place ds).chain).length).getD i 0 = _
  simp only [getD_eq_getElem?_getD] at hget ⊢
  by_cases hi : i < (extendHeads c.heads (c.place ds).chain).length
  · rw [getElem?_take_of_lt hi, getElem?_set]
    by_cases heq : (c.place ds).chain = i
    · have hin : i < (c.mergedClock ds).length := by simp [mergedClock]; omega
      simp [heq, hin]
    · rw [if_neg heq, if_neg (Ne.symm heq), hget]
  · rw [getElem?_eq_none (by simp; omega), if_neg (by omega), hbeyond hi, getD_none]

/-- A vertex is put on an old chain only above the head of that chain. -/
theorem furthest_place_chain [DecidableEq α] (hexact : Exact deps c) (ds : List α)
    (hold : (c.place ds).chain < c.heads.length) :
    c.furthest ds (c.place ds).chain = c.heads.getD (c.place ds).chain 0 := by
  rcases freeChain_cases c.heads (c.mergedClock ds) with ⟨-, heq⟩ | heq
  · rw [← getD_mergedClock hexact]
    exact heq
  · exact absurd heq (Nat.ne_of_lt hold)

/-- The new vertex reaches a finished one exactly if one of its dependencies does. -/
theorem Exact.reach_place_iff [DecidableEq α] (hexact : Exact deps c)
    (hdeps : ∀ d ∈ deps v, (c.node d).isSome) (hne : u ≠ v) (hu : c.node u = some nu) :
    Reach deps v u ↔ nu.seq ≤ (c.place (deps v)).clock.getD nu.chain 0 := by
  have hbelow : Reach deps v u ↔ nu.seq ≤ c.furthest (deps v) nu.chain := by
    rw [hexact.seq_le_furthest_iff hdeps hu]
    constructor
    · intro hreach
      exact hreach.cases_head.resolve_left (Ne.symm hne)
    · rintro ⟨d, hd, hdu⟩
      exact Reach.head hd hdu
  rw [hbelow, place_clock hexact]
  by_cases hchain : nu.chain = (c.place (deps v)).chain
  · have hseq := hexact.seq_le hu
    have hlt := lt_length_of_getD_pos (le_trans (hexact.seq_pos hu) hseq)
    have hfull := furthest_place_chain hexact (deps v) (hchain ▸ hlt)
    rw [if_pos hchain, place_seq, ← hchain]
    rw [← hchain] at hfull
    exact iff_of_true (hfull ▸ hseq) (by omega)
  · rw [if_neg hchain]

theorem Exact.finish [DecidableEq α] (hexact : Exact deps c) (hdeps : ∀ d ∈ deps v, (c.node d).isSome)
    (hv : c.node v = none) : Exact deps (finish deps c v) := by
  have hheads : ∀ i, c.heads.getD i 0 ≤ (ChainIndex.finish deps c v).heads.getD i 0 := by
    intro i
    exact (getD_extendHeads (c.place_chain_le (deps v)) i).symm ▸ le_add_right _ _
  have hseq : (c.place (deps v)).seq = (ChainIndex.finish deps c v).heads.getD (c.place (deps v)).chain 0 := rfl
  -- a finished vertex only reaches finished ones
  have hnew : ∀ {u nu}, c.node u = some nu → ¬ Reach deps u v := by
    intro u nu hu hreach
    have hdone := hexact.isSome_of_reach (by simp [hu]) hreach
    simp [hv] at hdone
  have hnode := node_finish deps c v
  refine ⟨?_, ?_, ?_, ?_, ?_⟩
  · intro u nu hu d hd
    rw [hnode] at hu ⊢
    split
    · rfl
    · split at hu
      · rename_i hdv huv
        exact hdeps d (huv ▸ hd)
      · exact hexact.closed hu d hd
  · intro u nu hu
    rw [hnode] at hu
    split at hu
    · rw [← some.inj hu, place_seq]
      omega
    · exact hexact.seq_pos hu
  · intro u nu hu
    rw [hnode] at hu
    split at hu
    · rw [← some.inj hu]
      exact le_of_eq hseq
    · exact (hexact.seq_le hu).trans (hheads _)
  · intro u nu hu i
    rw [hnode] at hu
    split at hu
    · rw [← some.inj hu, place_clock hexact]
      split
      · rename_i hi
        rw [hi, hseq]
      · exact (hexact.furthest_le _ i).trans (hheads i)
    · exact (hexact.clock_le hu i).trans (hheads i)
  · intro w u nw nu hw hu
    rw [hnode] at hw hu
    split at hw <;> split at hu
    · rename_i hwv huv
      subst hwv huv
      rw [← some.inj hw, ← some.inj hu, place_clock hexact, if_pos rfl]
      exact iff_of_true (Reach.refl _) le_rfl
    · rename_i hwv huv
      subst hwv
      rw [← some.inj hw]
      exact hexact.reach_place_iff hdeps huv hu
    · rename_i hwv huv
      subst huv
      rw [← some.inj hu, place_seq]
      have hle := hexact.clock_le hw (c.place (deps u)).chain
      exact iff_of_false (hnew hw) (by omega)
    · exact hexact.reach_iff hw hu

end ChainIndex

end swytch.lib
