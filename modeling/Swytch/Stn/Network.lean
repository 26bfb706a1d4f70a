import Mathlib.Data.Finset.Lattice.Fold
import Mathlib.Order.Lattice.Nat
import Swytch.Lib.FinmapFold
import Swytch.Stn.Cardinality

namespace swytch.stn

open swytch.lib Function List

def infinity : Int := 2 ^ 63 - 1

/-- The value of an `int64` expression: what remains of an integer in 64 bits. -/
def wrap (x : Int) : Int := (x + 2 ^ 63) % 2 ^ 64 - 2 ^ 63

def pathSum (a b : Int) : Int :=
  if a = infinity ∨ b = infinity ∨ 0 < b ∧ infinity - b < a then infinity else wrap (a + b)

inductive Err where
  | inconsistent
  | vertex
  | edge
  | weight
deriving DecidableEq

/-- The bounds on the edges of a chordal graph. `adj v` maps the neighbours of `v` to the
weights of the edges from `v`; `order` is an elimination order and `rank` its inverse. -/
structure Network where
  size : Nat
  adj : Nat → Finmap (fun _ : Nat => Int) := fun _ => ∅
  limit : Int
  maxInput : Int := 0
  order : List Nat := []
  rank : Nat → Nat := fun _ => 0

/-- The orders in which the loops range over the maps of neighbours. -/
structure Ranges where
  tag : Nat → RangeOrder Nat
  climb : Nat → Nat → Nat → RangeOrder Nat
  search : Nat → RangeOrder Nat
  parent : Nat → RangeOrder Nat
  siblings : Nat → RangeOrder Nat
  eliminate : Nat → RangeOrder Nat

/-- The keys in increasing order. -/
def ascending : RangeOrder Nat where
  order keys := (range (keys.sup id + 1)).filter fun k => decide (k ∈ keys)
  mem_order keys k := by
    rw [mem_filter, mem_range, decide_eq_true_iff, Nat.lt_succ_iff]
    exact and_iff_right_of_imp fun hk => Finset.le_sup (f := id) hk
  nodup_order keys := nodup_range.filter _

/-- Every loop in increasing order. -/
def Ranges.ascending : Ranges where
  tag _ := stn.ascending
  climb _ _ _ := stn.ascending
  search _ := stn.ascending
  parent _ := stn.ascending
  siblings _ := stn.ascending
  eliminate _ := stn.ascending

variable (s : Network)

namespace Network

def vertex (v : Int) : Bool := 0 ≤ v && v < s.size

/-- The weight stored for an edge, zero if there is none. -/
def weight (u v : Nat) : Int := ((s.adj u).lookup v).getD 0

def setWeight (u v : Nat) (w : Int) : Network :=
  { s with adj := update s.adj u ((s.adj u).insert v w) }

/-- Store both weights between two vertices. -/
def setWeights (u v : Nat) (uv vu : Int) : Network := (s.setWeight u v uv).setWeight v u vu

/-- The neighbours of a vertex in the order of a loop over them. -/
def neighbors (range : RangeOrder Nat) (v : Nat) : List Nat := range.order (s.adj v).keys

def link (a b : Nat) : Network :=
  if b ∈ s.adj a then s else s.setWeights a b infinity infinity

end Network

/-- A network with the arguments of the calls of `pathSum` that led to it, the last call first. -/
structure Traced where
  network : Network
  sums : List (Int × Int) := []

/-- The search for a shortest path over the upward edges. -/
structure Climb where
  bound : Int
  forward : Nat → Int
  backward : Nat → Int
  sums : List (Int × Int)

variable (ranges : Ranges)

namespace Network

def climbNeighbor (v : Nat) (c : Climb) (u : Nat) : Climb :=
  if s.rank u ≤ s.rank v then c
  else
    { c with
      forward := update c.forward u (min (c.forward u) (pathSum (c.forward v) (s.weight v u)))
      backward := update c.backward u (min (c.backward u) (pathSum (c.backward v) (s.weight u v)))
      sums := (c.backward v, s.weight u v) :: (c.forward v, s.weight v u) :: c.sums }

/-- The vertex as the peak of a path. -/
def climbPeak (v : Nat) (c : Climb) : Climb :=
  { c with
    bound := min c.bound (pathSum (c.forward v) (c.backward v))
    sums := (c.forward v, c.backward v) :: c.sums }

def climbVertex (range : Nat → RangeOrder Nat) (c : Climb) (v : Nat) : Climb :=
  if c.forward v = infinity ∧ c.backward v = infinity then climbPeak v c
  else (s.neighbors (range v) v).foldl (s.climbNeighbor v) (climbPeak v c)

def climbStart (source target : Nat) : Climb where
  bound := infinity
  forward := update (fun _ => infinity) source 0
  backward := update (fun _ => infinity) target 0
  sums := []

def climb (source target : Nat) : Climb :=
  s.order.foldl (s.climbVertex (ranges.climb source target)) (climbStart source target)

/-- The bound between two vertices that are not adjacent, `upper` in the source. -/
def searchUpper (source target : Nat) : Int := (s.climb ranges source target).bound

def upper (source target : Int) : Except Err Int :=
  if ¬ s.vertex source ∨ ¬ s.vertex target then .error .vertex
  else if source = target then .ok 0
  else
    match (s.adj source.toNat).lookup target.toNat with
    | some w => .ok w
    | none => .ok (s.searchUpper ranges source.toNat target.toNat)

/-- The calls of `pathSum` of a query. -/
def upperSums (source target : Int) : List (Int × Int) :=
  if ¬ s.vertex source ∨ ¬ s.vertex target ∨ source = target ∨ target.toNat ∈ s.adj source.toNat then []
  else (s.climb ranges source.toNat target.toNat).sums

def bounds (source target : Nat) : Int × Int :=
  match (s.adj source).lookup target with
  | some w => (w, s.weight target source)
  | none => (s.searchUpper ranges source target, s.searchUpper ranges target source)

def boundsSums (source target : Nat) : List (Int × Int) :=
  if target ∈ s.adj source then [] else (s.climb ranges target source).sums ++ (s.climb ranges source target).sums

/-- One step of the maximum cardinality search: the vertices selected so far, the last first. -/
def searchStep (state : Cardinality × List Nat) : Cardinality × List Nat :=
  match state.1.maximum.2 with
  | none => state
  | some v =>
    ((s.neighbors (ranges.search v) v).foldl (fun q u => if q.contains u then q.increment u else q)
        (state.1.maximum.1.remove v),
      v :: state.2)

def searchOrder : List Nat :=
  ((s.searchStep ranges)^[s.size] (newCardinality s.size, [])).2

/-- The first of the later neighbours of a vertex. -/
def findParent (rank : Nat → Nat) (v : Nat) : Option Nat :=
  (s.neighbors (ranges.parent v) v).foldl
    (fun parent u => if rank v < rank u ∧ parent.all (fun p => rank u < rank p) then some u else parent) none

def siblingsAdjacent (rank : Nat → Nat) (v : Nat) : Bool :=
  match s.findParent ranges rank v with
  | none => true
  | some parent =>
    (s.neighbors (ranges.siblings v) v).all fun u =>
      !(u != parent && decide (rank v < rank u)) || decide (u ∈ s.adj parent)

/-- The order of a maximum cardinality search, with its inverse if it is a perfect elimination order. -/
def chordalOrder : List Nat × Option (Nat → Nat) :=
  let order := s.searchOrder ranges
  let rank := fun v => order.idxOf v
  (order, if (range s.size).all (s.siblingsAdjacent ranges rank) then some rank else none)

end Network

/-- The elimination of the vertices by minimum degree. -/
structure Elimination where
  traced : Traced
  remaining : List Nat
  degree : Nat → Int
  order : List Nat

variable (add : Traced → Nat → Nat → Traced)

variable (t : Traced)

namespace Elimination

/-- The vertex with the smallest degree, by number among those. -/
def pop (degree : Nat → Int) : List Nat → Option Nat
  | [] => none
  | v :: rest =>
    match pop degree rest with
    | none => some v
    | some w => if degree v < degree w ∨ degree v = degree w ∧ v < w then some v else some w

/-- The pairs of different positions of a list. -/
def pairs : List Nat → List (Nat × Nat)
  | [] => []
  | u :: rest => rest.map (fun w => (u, w)) ++ pairs rest

def fillPair (state : Traced × (Nat → Int)) (pair : Nat × Nat) : Traced × (Nat → Int) :=
  if pair.2 ∈ state.1.network.adj pair.1 then state
  else
    (add state.1 pair.1 pair.2,
      fun x => if x = pair.1 ∨ x = pair.2 then state.2 x + 1 else state.2 x)

/-- The neighbours of a vertex that are not eliminated yet. -/
def later (e : Elimination) (ranges : Ranges) (v : Nat) : List Nat :=
  (e.traced.network.neighbors (ranges.eliminate v) v).filter fun u => decide (u ∈ e.remaining.erase v)

def step (e : Elimination) : Elimination :=
  match pop e.degree e.remaining with
  | none => e
  | some v =>
    let filled := (pairs (e.later ranges v)).foldl (fillPair add)
      (e.traced, fun u => if u ∈ e.later ranges v then e.degree u - 1 else e.degree u)
    { traced := filled.1, remaining := e.remaining.erase v, degree := filled.2, order := e.order ++ [v] }

def start : Elimination where
  traced := t
  remaining := range t.network.size
  degree v := (t.network.adj v).keys.card
  order := []

end Elimination

namespace Network

def install (order : List Nat) (rank : Nat → Nat) : Traced :=
  { t with network := { t.network with order := order, rank := rank } }

def triangulate : Traced :=
  match (t.network.chordalOrder ranges).2 with
  | some rank => install t (t.network.chordalOrder ranges).1 rank
  | none =>
    let e := (Elimination.step ranges add)^[t.network.size] (Elimination.start t)
    install e.traced e.order fun v => e.order.idxOf v

def linkTraced (a b : Nat) : Traced := { t with network := t.network.link a b }

def linkAll : List (Int × Int) → Network → Except Err Network
  | [], s => .ok s
  | p :: rest, s =>
    if ¬ s.vertex p.1 ∨ ¬ s.vertex p.2 then .error .vertex
    else linkAll rest (if p.1 ≠ p.2 then s.link p.1.toNat p.2.toNat else s)

def new (n : Int) (topology : List (Int × Int)) : Except Err Network :=
  if n < 0 ∨ 2 ^ 20 < n then .error .vertex
  else
    match linkAll topology { size := n.toNat, limit := 2 ^ 60 / (n + 1) } with
    | .error e => .error e
    | .ok s => .ok (triangulate ranges linkTraced ⟨s, []⟩).network

def addPoint : Network × Except Err Nat :=
  if 2 ^ 20 ≤ s.size then (s, .error .vertex)
  else if 2 ^ 60 / ((s.size : Int) + 2) < s.maxInput then (s, .error .weight)
  else
    ({ s with
        size := s.size + 1
        adj := update s.adj s.size ∅
        order := s.order ++ [s.size]
        rank := update s.rank s.size s.size
        limit := 2 ^ 60 / ((s.size : Int) + 2) },
      .ok s.size)

/-- Store the bounds that the other edges imply. -/
def addImplied (u v : Nat) : Traced where
  network := t.network.setWeights u v (t.network.bounds ranges u v).1 (t.network.bounds ranges u v).2
  sums := t.network.boundsSums ranges u v ++ t.sums

/-- The part of `connect` after its checks. -/
def connectTraced (s : Network) (a b : Nat) : Traced :=
  triangulate ranges (addImplied ranges) (addImplied ranges ⟨s, []⟩ a b)

def connect (a b : Int) : Network × Option Err :=
  if ¬ s.vertex a ∨ ¬ s.vertex b then (s, some .vertex)
  else if a = b ∨ b.toNat ∈ s.adj a.toNat then (s, none)
  else ((connectTraced ranges s a.toNat b.toNat).network, none)

def connectSums (a b : Int) : List (Int × Int) :=
  if ¬ s.vertex a ∨ ¬ s.vertex b ∨ a = b ∨ b.toNat ∈ s.adj a.toNat then []
  else (connectTraced ranges s a.toNat b.toNat).sums

end Network

/-- The visit of all vertices by which a new bound is propagated: `forward` is the distance
to the source of the bound, `backward` the one from its target. -/
structure Tag where
  network : Network
  forward : Nat → Int
  backward : Nat → Int
  queue : Cardinality
  sums : List (Int × Int)

namespace Tag

/-- A neighbour that is not visited yet. -/
def reach (v : Nat) (t : Tag) (u : Nat) : Tag :=
  { t with
    forward := update t.forward u (min (t.forward u) (pathSum (t.network.weight u v) (t.forward v)))
    backward := update t.backward u (min (t.backward u) (pathSum (t.backward v) (t.network.weight v u)))
    queue := t.queue.increment u
    sums := (t.backward v, t.network.weight v u) :: (t.network.weight u v, t.forward v) :: t.sums }

/-- A neighbour that is visited: the edge gets its new weights. -/
def tighten (upper : Int) (v : Nat) (t : Tag) (u : Nat) : Tag :=
  { t with
    network := t.network.setWeights u v
      (min (t.network.weight u v) (pathSum (pathSum (t.forward u) upper) (t.backward v)))
      (min (t.network.weight v u) (pathSum (pathSum (t.forward v) upper) (t.backward u)))
    sums := (pathSum (t.forward v) upper, t.backward u) :: (t.forward v, upper) ::
      (pathSum (t.forward u) upper, t.backward v) :: (t.forward u, upper) :: t.sums }

def neighbor (upper : Int) (v : Nat) (t : Tag) (u : Nat) : Tag :=
  if t.queue.contains u then reach v t u else tighten upper v t u

def visit (range : Nat → RangeOrder Nat) (upper : Int) (t : Tag) (v : Nat) : Tag :=
  (t.network.neighbors (range v) v).foldl (neighbor upper v) { t with queue := t.queue.remove v }

/-- The vertex that is visited after `v`. -/
def next (source target : Nat) (t : Tag) (v : Nat) : Tag × Option Nat :=
  if v = source then (t, some target) else ({ t with queue := t.queue.maximum.1 }, t.queue.maximum.2)

/-- The loop over the vertices; every vertex is visited once, so as many rounds as there
are vertices are enough. -/
def loop (range : Nat → RangeOrder Nat) (upper : Int) (source target : Nat) : Nat → Tag × Option Nat → Tag
  | 0, state => state.1
  | rounds + 1, state =>
    match state.2 with
    | none => state.1
    | some v => loop range upper source target rounds (next source target (visit range upper state.1 v) v)

def start (source target : Nat) (upper : Int) : Tag where
  network := { s with maxInput := max s.maxInput (max upper (-upper)) }
  forward := update (fun _ => infinity) source 0
  backward := update (fun _ => infinity) target 0
  queue := newCardinality s.size
  sums := []

def run (s : Network) (source target : Nat) (upper : Int) : Tag :=
  loop ranges.tag upper source target s.size (start s source target upper, some source)

end Tag

namespace Network

/-- The part of `constrain` for an edge of the graph. -/
def constrainEdge (source target : Nat) (upper : Int) : Network × Option Err :=
  match (s.adj source).lookup target with
  | none => (s, some .edge)
  | some old =>
    if pathSum upper (s.weight target source) < 0 then (s, some .inconsistent)
    else if old ≤ upper then (s, none)
    else ((Tag.run ranges s source target upper).network, none)

def constrain (source target upper : Int) : Network × Option Err :=
  if ¬ s.vertex source ∨ ¬ s.vertex target then (s, some .vertex)
  else if upper < -s.limit ∨ s.limit < upper then (s, some .weight)
  else if source = target then (s, if upper < 0 then some .inconsistent else none)
  else s.constrainEdge ranges source.toNat target.toNat upper

def constrainEdgeSums (source target : Nat) (upper : Int) : List (Int × Int) :=
  match (s.adj source).lookup target with
  | none => []
  | some old =>
    if pathSum upper (s.weight target source) < 0 ∨ old ≤ upper then [(upper, s.weight target source)]
    else (Tag.run ranges s source target upper).sums ++ [(upper, s.weight target source)]

def constrainSums (source target upper : Int) : List (Int × Int) :=
  if ¬ s.vertex source ∨ ¬ s.vertex target ∨ upper < -s.limit ∨ s.limit < upper ∨ source = target then []
  else s.constrainEdgeSums ranges source.toNat target.toNat upper

end Network

end swytch.stn
