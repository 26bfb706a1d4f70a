import Swytch.Lib.Run
import Swytch.Effects.Engine

open swytch.proto swytch.effects

namespace swytch.cluster

structure OffsetNotify where
  origin : EffectRef
  key : Bytes
  effectData : Bytes
deriving DecidableEq, Repr

inductive ReplicationError where
  | noPeers
  | allPeersNotSubscribed
  | replicationTimeout
  | marshalNotify
deriving DecidableEq, Repr

/-- `expected` counts the requests attached to the future and `dropped` those that can
no longer be acknowledged. -/
structure ReplicationFuture where
  done : Bool := false
  err : Option ReplicationError := none
  nacks : List NackNotify := []
  expected : Nat := 0
  dropped : Nat := 0
  setupDone : Bool := false

namespace ReplicationFuture

variable (f : ReplicationFuture)

/-- The first call of `resolve` or `reject` wins. -/
def resolve : ReplicationFuture :=
  if f.done then f else { f with done := true }

def reject (err : ReplicationError) : ReplicationFuture :=
  if f.done then f else { f with done := true, err := some err }

def drop (err : ReplicationError) : ReplicationFuture :=
  let dropped := { f with dropped := f.dropped + 1 }
  if dropped.setupDone ∧ dropped.dropped = dropped.expected then dropped.reject err else dropped

/-- The end of the setup: every peer may have dropped out already. -/
def finish : ReplicationFuture :=
  let ready := { f with setupDone := true }
  if ready.dropped = ready.expected then ready.reject .allPeersNotSubscribed else ready

end ReplicationFuture

inductive CallKind where
  | replicate
  | crossRegion
  | replicateTo
deriving DecidableEq, Repr

/-- A call that waits on a future. `regions` is the membership it took a snapshot of,
`targets` are the peers it sends to and `waiting` those not yet registered. -/
structure ReplicationCall where
  kind : CallKind
  notify : OffsetNotify
  regions : Map NodeID Bytes := ∅
  targets : Finset NodeID := ∅
  waiting : Finset NodeID := ∅
  future : ReplicationFuture := {}

structure TrackedRequest where
  call : Nat
  peerID : NodeID
  notify : OffsetNotify
  retransmit : Bool

/-- What a peer's `HandleOffsetNotify` returned. -/
structure Reply where
  nacks : List NackNotify := []
  err : Bool := false

structure Handled where
  peer : NodeID
  notify : OffsetNotify
  reply : Reply

structure NotifyPacket where
  peer : NodeID
  requestID : Nat
  notify : OffsetNotify

/-- `HandleNotify` answers with status `0x01` and the NACKs if there are any, else with
status `0x00`. The NACK list is taken to survive its encoding. -/
structure ACKPacket where
  peer : NodeID
  requestID : Nat
  status : Nat
  nacks : List NackNotify

/-- The sender, the packets under way and what the peers did. The request with ID `i + 1`
stands at position `i` of `requests`. A packet that was sent may arrive late, more than
once or never, so `notifications` and `responses` only grow. -/
structure Replicator where
  localRegion : Bytes
  peerRegions : Map NodeID Bytes := ∅
  calls : List ReplicationCall := []
  requests : List TrackedRequest := []
  pending : Finset Nat := ∅
  stopped : Bool := false
  notifications : List NotifyPacket := []
  responses : List ACKPacket := []
  handled : List Handled := []

inductive Action where
  | addPeer (peer : NodeID) (region : Bytes)
  | removePeer (peer : NodeID)
  | replicate (notify : OffsetNotify) (alive : Finset NodeID) (marshals : Bool)
  | register (call : Nat) (peer : NodeID)
  | finish (call : Nat)
  | sendCrossRegion (call : Nat) (peer : NodeID)
  | replicateTo (notify : OffsetNotify) (peer : NodeID)
  | sendOneWay (notify : OffsetNotify) (peer : NodeID)
  | send (requestID : Nat)
  | sendFailed (requestID : Nat)
  | handleNotify (packet : Nat) (reply : Reply)
  | handleResponse (packet : Nat)
  | giveUp (requestID : Nat)
  | expire (requestID : Nat)
  | stop

namespace Replicator

variable (r : Replicator)

/-- The registered peers of the own region that are alive and symmetric. -/
def aliveSymmetricPeers (alive : Finset NodeID) : Finset NodeID :=
  r.peerRegions.keys.filter (fun peer => r.peerRegions.lookup peer = some r.localRegion ∧ peer ∈ alive)

def crossRegionPeers : Finset NodeID :=
  r.peerRegions.keys.filter (fun peer => r.peerRegions.lookup peer ≠ some r.localRegion)

def addCall (call : ReplicationCall) : Replicator :=
  { r with calls := r.calls ++ [call] }

def updateFuture (call : Nat) (f : ReplicationFuture → ReplicationFuture) : Replicator :=
  { r with calls := r.calls.modify call (fun c => { c with future := f c.future }) }

/-- Publish a request to the ACK handlers and the sweep. -/
def track (tr : TrackedRequest) : Replicator :=
  { r.updateFuture tr.call (fun f => { f with expected := f.expected + 1 }) with
    requests := r.requests ++ [tr], pending := insert (r.requests.length + 1) r.pending }

variable (requestID : Nat)

/-- The request under an ID, if it is still pending. -/
def loadPending : Option TrackedRequest :=
  if requestID ∈ r.pending then r.requests[requestID - 1]? else none

def delete : Replicator :=
  { r with pending := r.pending.erase requestID }

/-- Cross-region peers are sent to without waiting for them. -/
def startCrossRegion (notify : OffsetNotify) : Replicator :=
  if r.crossRegionPeers = ∅ then r
  else
    r.addCall
      { kind := .crossRegion, notify := notify, regions := r.peerRegions, targets := r.crossRegionPeers,
        waiting := r.crossRegionPeers, future := ReplicationFuture.resolve {} }

/-- The start of `Replicate`, up to the goroutines that send to one peer each. -/
def replicate (notify : OffsetNotify) (alive : Finset NodeID) (marshals : Bool) : Replicator :=
  let targets := r.aliveSymmetricPeers alive
  let call : ReplicationCall := { kind := .replicate, notify := notify, regions := r.peerRegions }
  if targets = ∅ ∧ r.crossRegionPeers = ∅ then r.addCall { call with future := call.future.reject .noPeers }
  else if ¬ marshals then r.addCall { call with future := call.future.reject .marshalNotify }
  else
    let sent := r.startCrossRegion notify
    if targets = ∅ then sent.addCall { call with future := call.future.reject .noPeers }
    else sent.addCall { call with targets := targets, waiting := targets }

/-- One peer of a fan-out registers its request. -/
def register (call : Nat) (peer : NodeID) (kind : CallKind) : Option Replicator :=
  r.calls[call]?.bind fun c =>
    if c.kind = kind ∧ peer ∈ c.waiting then
      some ({ r with calls := r.calls.set call { c with waiting := c.waiting.erase peer } }.track
        ⟨call, peer, c.notify, decide (kind = CallKind.replicate)⟩)
    else none

def handleNotifyACK : Replicator :=
  match r.loadPending requestID with
  | none => r
  | some tr => (r.delete requestID).updateFuture tr.call ReplicationFuture.resolve

/-- A NotSubscribed NACK means that the peer discarded the write. -/
def handleNotifyACKWithData (nacks : List NackNotify) : Replicator :=
  match r.loadPending requestID with
  | none => r
  | some tr =>
    let stored (f : ReplicationFuture) : ReplicationFuture := if nacks.isEmpty then f else { f with nacks := nacks }
    (r.delete requestID).updateFuture tr.call (fun f =>
      if ¬ nacks.isEmpty ∧ nacks.all NackNotify.notSubscribed then (stored f).drop .allPeersNotSubscribed
      else (stored f).resolve)

/-- `HandleNotify` on the peer: an error of the handler is logged and not answered. -/
def handleNotify (p : NotifyPacket) (reply : Reply) : Replicator :=
  { r with
    handled := r.handled ++ [⟨p.peer, p.notify, reply⟩]
    responses := r.responses ++ [⟨p.peer, p.requestID, if reply.nacks.isEmpty then 0 else 1, reply.nacks⟩] }

def step : Action → Option Replicator
  | .addPeer peer region => some { r with peerRegions := r.peerRegions.insert peer region }
  | .removePeer peer => some { r with peerRegions := r.peerRegions.erase peer }
  | .replicate notify alive marshals => some (r.replicate notify alive marshals)
  | .register call peer => r.register call peer .replicate
  | .finish call =>
    r.calls[call]?.bind fun c =>
      if c.kind = .replicate ∧ c.targets ≠ ∅ ∧ c.waiting = ∅ ∧ ¬ c.future.setupDone then
        some (r.updateFuture call ReplicationFuture.finish)
      else none
  | .sendCrossRegion call peer => r.register call peer .crossRegion
  | .replicateTo notify peer =>
    some ((r.addCall { kind := .replicateTo, notify := notify, targets := {peer},
                       future := { setupDone := true } }).track ⟨r.calls.length, peer, notify, false⟩)
  | .sendOneWay notify peer => some { r with notifications := r.notifications ++ [⟨peer, 0, notify⟩] }
  | .send requestID =>
    if requestID = 0 then none
    else r.requests[requestID - 1]?.map fun tr =>
      { r with notifications := r.notifications ++ [⟨tr.peerID, requestID, tr.notify⟩] }
  | .sendFailed requestID =>
    (r.loadPending requestID).bind fun tr => if tr.retransmit then none else some (r.delete requestID)
  | .handleNotify packet reply => r.notifications[packet]?.map (r.handleNotify · reply)
  | .handleResponse packet =>
    r.responses[packet]?.map fun p =>
      if p.status = 1 then r.handleNotifyACKWithData p.requestID p.nacks else r.handleNotifyACK p.requestID
  | .giveUp requestID =>
    (r.loadPending requestID).bind fun tr =>
      if tr.retransmit then some ((r.delete requestID).updateFuture tr.call (·.drop .noPeers)) else none
  | .expire requestID =>
    (r.loadPending requestID).bind fun tr =>
      if tr.retransmit ∧ ¬ r.stopped then none
      else some ((r.delete requestID).updateFuture tr.call (·.reject .replicationTimeout))
  | .stop => some { r with stopped := true }

end Replicator

end swytch.cluster
