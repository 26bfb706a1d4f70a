import Swytch.Lib.Run
import Swytch.Lib.Search
import Swytch.Effects.Cuckoo

open swytch.proto

namespace swytch.effects

def emptyChain : CuckooChain := { sealed := [], active := none }

/-- What a node knows about the keys of one peer: the filter the peer sent, and the keys it
announced in real time. -/
structure PeerKeyFilter where
  nodeID : NodeID
  bulk : CuckooChain := emptyChain
  bulkVer : Nat := 0
  hasBulk : Bool := false
  realtime : CuckooChain := emptyChain
  counted : Bool := false

/-- The filter of the keys that a node holds, with its marshalled form. -/
structure OwnFilter where
  ownKeyFilter : CuckooChain := emptyChain
  ownFilterVer : Nat := 0
  ownFilterBytes : Option Bytes := none
  ownFilterBytesVer : Nat := 0

/-- The key filters of an engine. The peers are in the order of their identifiers. -/
structure KeyFilters where
  nodeID : NodeID
  own : OwnFilter := {}
  peerKeyFilters : List PeerKeyFilter := []
  unfilteredPeers : Int := 0

def PeerKeyFilter.maybeContains (hash : Hash) (pf : PeerKeyFilter) (key : Bytes) : Bool :=
  pf.bulk.maybeContains hash key || pf.realtime.maybeContains hash key

/-- A connected peer that is presumed to hold every key. -/
def PeerKeyFilter.unfiltered (pf : PeerKeyFilter) : Bool := pf.counted && !pf.hasBulk

namespace OwnFilter

def ownFilterAdd (hash : Hash) (own : OwnFilter) (key : Bytes) : OwnFilter :=
  let added := own.ownKeyFilter.add hash key
  { own with
    ownKeyFilter := added.chain
    ownFilterVer := if added.stored then (own.ownFilterVer + 1) % 2 ^ 64 else own.ownFilterVer }

/-- Marshal the filter, unless it has not changed since the last time. -/
def refresh (own : OwnFilter) : OwnFilter :=
  if own.ownFilterBytes.isNone || own.ownFilterBytesVer != own.ownFilterVer then
    { own with ownFilterBytes := some own.ownKeyFilter.marshalBinary, ownFilterBytesVer := own.ownFilterVer }
  else own

def ownKeyFilterSnapshot (own : OwnFilter) : OwnFilter × Bytes × Nat :=
  (own.refresh, own.refresh.ownFilterBytes.getD [], own.refresh.ownFilterVer)

end OwnFilter

namespace KeyFilters

variable (e : KeyFilters) (peer : NodeID)

def peerFilterIndex : Nat × Bool :=
  lib.binarySearch (e.peerKeyFilters.map (·.nodeID)) peer

/-- Change the entry of a peer, which is created if it is absent. -/
def modifyPeer (change : PeerKeyFilter → PeerKeyFilter) : List PeerKeyFilter :=
  let (i, found) := e.peerFilterIndex peer
  let peers := if found then e.peerKeyFilters else e.peerKeyFilters.insertIdx i { nodeID := peer }
  peers.modify i change

/-- The entry of a peer, or the one that is created for it. -/
def peerFilter : PeerKeyFilter :=
  let (i, found) := e.peerFilterIndex peer
  if found then e.peerKeyFilters.getD i { nodeID := peer } else { nodeID := peer }

def peerFilterAdd (hash : Hash) (e : KeyFilters) (peer : NodeID) (key : Bytes) : KeyFilters :=
  if peer = e.nodeID then e
  else
    { e with
      peerKeyFilters := e.modifyPeer peer (fun pf => { pf with realtime := (pf.realtime.add hash key).chain }) }

def notePeerConnected : KeyFilters :=
  if peer = e.nodeID then e
  else
    let pf := e.peerFilter peer
    { e with
      peerKeyFilters := e.modifyPeer peer (fun pf => { pf with counted := true })
      unfilteredPeers := if !pf.counted && !pf.hasBulk then e.unfilteredPeers + 1 else e.unfilteredPeers }

/-- Take the filter that a peer sent, if it is newer than the one it sent before. -/
def cachePeerFilter (data : Bytes) (version : Nat) : KeyFilters :=
  if peer = e.nodeID then e
  else
    match CuckooChain.unmarshalBinary data with
    | .error _ => e
    | .ok decoded =>
      let pf := e.peerFilter peer
      if !pf.hasBulk || pf.bulkVer < version then
        { e with
          peerKeyFilters :=
            e.modifyPeer peer (fun pf => { pf with bulk := decoded, bulkVer := version, hasBulk := true })
          unfilteredPeers := if pf.unfiltered then e.unfilteredPeers - 1 else e.unfilteredPeers }
      else { e with peerKeyFilters := e.modifyPeer peer id }

def removePeerKeyFilter : KeyFilters :=
  let (i, found) := e.peerFilterIndex peer
  if found then
    let pf := e.peerFilter peer
    { e with
      peerKeyFilters := e.peerKeyFilters.eraseIdx i
      unfilteredPeers := if pf.unfiltered then e.unfilteredPeers - 1 else e.unfilteredPeers }
  else e

def clusterMaybeHasKey (hash : Hash) (e : KeyFilters) (key : Bytes) : Bool :=
  decide (0 < e.unfilteredPeers) || e.peerKeyFilters.any (fun pf => pf.maybeContains hash key)

end KeyFilters

end swytch.effects
