import Swytch.Stn.Network

namespace swytch.stn

/-- A reading of the elapsed clock of one incarnation of a node, in nanoseconds. -/
structure Sample where
  domain : UInt64
  tick : Int64
deriving DecidableEq

structure ClockAnchor where
  vertex : Nat
  tick : Int64

/-- The networks and anchor maps that versions of the evidence refer to. -/
structure Memory where
  networks : Nat → Network
  anchors : Nat → Finmap (fun _ : UInt64 => ClockAnchor)
  nextNetwork : Nat
  nextAnchors : Nat

namespace Memory

variable (m : Memory)

def setNetwork (r : Nat) (s : Network) : Memory :=
  { m with networks := Function.update m.networks r s }

def setAnchors (r : Nat) (anchors : Finmap (fun _ : UInt64 => ClockAnchor)) : Memory :=
  { m with anchors := Function.update m.anchors r anchors }

/-- A new network, referred to by `nextNetwork`. -/
def allocNetwork (s : Network) : Memory :=
  { m.setNetwork m.nextNetwork s with nextNetwork := m.nextNetwork + 1 }

/-- A new map, referred to by `nextAnchors`. -/
def allocAnchors (anchors : Finmap (fun _ : UInt64 => ClockAnchor)) : Memory :=
  { m.setAnchors m.nextAnchors anchors with nextAnchors := m.nextAnchors + 1 }

end Memory

/-- A version of the evidence: references to a network and to a map of anchors. -/
structure Clocks where
  network : Nat
  anchors : Nat
  ppm : Int

def checkedSubtract (a b : Int) : Except Err Int :=
  if 0 < b ∧ a < -2 ^ 63 + b ∨ b < 0 ∧ infinity + b < a then .error .weight else .ok (wrap (a - b))

/-- The part of a scaled duration below a whole multiple of the denominator. -/
def scaleFraction (d denominator : Int) (ceil : Bool) : Int :=
  (wrap (d.tmod denominator * 1000000)).tdiv denominator +
    if ceil ∧ (wrap (d.tmod denominator * 1000000)).tmod denominator ≠ 0 then 1 else 0

def scale (d denominator : Int) (ceil : Bool) : Except Err Int :=
  if (infinity - scaleFraction d denominator ceil).tdiv 1000000 < d.tdiv denominator then .error .weight
  else .ok (wrap (d.tdiv denominator * 1000000 + scaleFraction d denominator ceil))

/-- The bounds on a duration of `d` ticks, for one that is not negative. -/
def scaleBounds (ppm d : Int) : Except Err (Int × Int) :=
  match scale d (1000000 + ppm) false with
  | .error e => .error e
  | .ok lower =>
    match scale d (1000000 - ppm) true with
    | .error e => .error e
    | .ok upper => .ok (lower, upper)

def elapsed (ppm tick anchor : Int) : Except Err (Int × Int) :=
  match checkedSubtract tick anchor with
  | .error _ => .error .weight
  | .ok d =>
    if d = -2 ^ 63 then .error .weight
    else if d < 0 then (scaleBounds ppm (wrap (-d))).map fun b => (wrap (-b.2), wrap (-b.1))
    else scaleBounds ppm d

def outwardAdd (a v : Int) : Option Int :=
  if 0 < v ∧ infinity - v < a ∨ v < 0 ∧ a < -2 ^ 63 - v then none else some (wrap (a + v))

def outwardSum (a b c : Int) : Int := (((outwardAdd a b).bind fun s => outwardAdd s c)).getD infinity

namespace Clocks

variable (c : Clocks) (m : Memory) (ranges : Ranges)

def newClocks (rateErrorPPM : Int) : Option (Memory × Clocks) :=
  if rateErrorPPM < 0 ∨ 1000000 ≤ rateErrorPPM then none
  else
    match Network.new ranges 0 [] with
    | .error _ => none
    | .ok s =>
      some ((m.allocNetwork s).allocAnchors ∅,
        { network := m.nextNetwork, anchors := m.nextAnchors, ppm := rateErrorPPM })

def anchor (s : Sample) : Memory × Except Err ClockAnchor :=
  match (m.anchors c.anchors).lookup s.domain with
  | some a => (m, .ok a)
  | none =>
    match (m.networks c.network).addPoint with
    | (network, .error e) => (m.setNetwork c.network network, .error e)
    | (network, .ok v) =>
      ((m.setNetwork c.network network).setAnchors c.anchors
          ((m.anchors c.anchors).insert s.domain ⟨v, s.tick⟩),
        .ok ⟨v, s.tick⟩)

/-- The copy of a version that `before` changes; the map of anchors is copied only when a
domain is added. -/
def next (known : Bool) : Memory × Clocks :=
  if known then
    (m.allocNetwork (m.networks c.network), { c with network := m.nextNetwork })
  else
    ((m.allocNetwork (m.networks c.network)).allocAnchors (m.anchors c.anchors),
      { c with network := m.nextNetwork, anchors := m.nextAnchors })

/-- `connect` and `constrain` the edge between two anchors. -/
def constrainAnchors (e p : Nat) (upper : Int) : Memory × Option Err :=
  match (m.networks c.network).connect ranges e p with
  | (network, some err) => (m.setNetwork c.network network, some err)
  | (network, none) =>
    (m.setNetwork c.network (network.constrain ranges e p upper).1, (network.constrain ranges e p upper).2)

/-- The changes that `before` makes in its copy. -/
def incorporate (p e : Sample) (upper : Int) : Memory × Option Err :=
  match c.anchor m p with
  | (m₁, .error err) => (m₁, some err)
  | (m₁, .ok pa) =>
    match c.anchor m₁ e with
    | (m₂, .error err) => (m₂, some err)
    | (m₂, .ok ea) => c.constrainAnchors m₂ ranges ea.vertex pa.vertex upper

/-- A version with a new bound between the anchors of two samples, or the old one if that fails. -/
def extend (p e : Sample) (upper : Int) (known : Bool) : Memory × Clocks × Option Err :=
  let copy := c.next m known
  match copy.2.incorporate copy.1 ranges p e upper with
  | (m', some err) => (m', c, some err)
  | (m', none) => (m', copy.2, none)

/-- The part of `before` with the bound between the two anchors. -/
def beforeUpper (p e : Sample) (upper : Int) : Memory × Clocks × Option Err :=
  match (m.anchors c.anchors).lookup p.domain, (m.anchors c.anchors).lookup e.domain with
  | some pa, some ea =>
    match (m.networks c.network).upper ranges ea.vertex pa.vertex with
    | .error err => (m, c, some err)
    | .ok old => if old ≤ upper then (m, c, none) else c.extend m ranges p e upper true
  | _, _ => c.extend m ranges p e upper false

/-- The tick of the anchor of a sample's domain, the sample's own if it has none. -/
def anchorTick (s : Sample) : Int64 :=
  ((m.anchors c.anchors).lookup s.domain).elim s.tick fun a => a.tick

/-- The bound on the difference of the anchors of two samples. -/
def anchorUpper (p e : Sample) : Except Err Int :=
  match elapsed c.ppm p.tick.toInt (c.anchorTick m p).toInt with
  | .error err => .error err
  | .ok (pl, _) =>
    match elapsed c.ppm e.tick.toInt (c.anchorTick m e).toInt with
    | .error err => .error err
    | .ok (_, eu) => checkedSubtract eu pl

def before (p e : Sample) : Memory × Clocks × Option Err :=
  if p.domain = e.domain then (m, c, if e.tick.toInt < p.tick.toInt then some .inconsistent else none)
  else
    match c.anchorUpper m p e with
    | .error err => (m, c, some err)
    | .ok upper => c.beforeUpper m ranges p e upper

/-- The interval of a difference of samples of two domains with anchors. -/
def anchoredDifference (a b : Sample) (aa ba : ClockAnchor) : Except Err (Int × Int) :=
  match elapsed c.ppm a.tick.toInt aa.tick.toInt with
  | .error err => .error err
  | .ok (al, au) =>
    match elapsed c.ppm b.tick.toInt ba.tick.toInt with
    | .error err => .error err
    | .ok (bl, bu) =>
      let bounds := (m.networks c.network).bounds ranges aa.vertex ba.vertex
      .ok (if bounds.2 ≠ infinity then wrap (-outwardSum bounds.2 au (wrap (-bl))) else -infinity,
        if bounds.1 ≠ infinity then outwardSum bounds.1 bu (wrap (-al)) else infinity)

def difference (a b : Sample) : Except Err (Int × Int) :=
  if a.domain = b.domain then elapsed c.ppm b.tick.toInt a.tick.toInt
  else
    match (m.anchors c.anchors).lookup a.domain, (m.anchors c.anchors).lookup b.domain with
    | some aa, some ba => c.anchoredDifference m ranges a b aa ba
    | _, _ => .ok (-infinity, infinity)

end Clocks

end swytch.stn
