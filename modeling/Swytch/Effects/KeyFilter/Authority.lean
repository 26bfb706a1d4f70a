import Swytch.Effects.Cuckoo.Growth
import Swytch.Effects.KeyFilter.Peers
import Mathlib.Logic.Function.Basic

open swytch.lib swytch.proto Function List Option Nat

namespace swytch.effects

open PeerKeyFilter

open CuckooChain KeyFilters

/-- A filter as a node sent it, with the keys the node had added by then and the chain it
was marshalled from. -/
structure FilterSnapshot where
  data : Bytes
  version : Nat
  held : List Bytes
  chain : CuckooChain

/-- What happened at a node about a peer since the peer was last removed. -/
structure PeerHistory where
  announced : Bool := false
  received : List FilterSnapshot := []
  noted : List Bytes := []

/-- The nodes with their key filters, the keys they hold, the filters they sent, and what
happened at each of them about each peer. -/
structure FilterCluster where
  nodes : NodeID → KeyFilters
  held : NodeID → List Bytes
  sent : NodeID → List FilterSnapshot
  history : NodeID → NodeID → PeerHistory

inductive FilterEvent where
  | ownFilterAdd (node : NodeID) (key : Bytes)
  | sendFilter (node : NodeID)
  | notePeerConnected (node peer : NodeID)
  | cachePeerFilter (node peer : NodeID) (i : Nat)
  | peerFilterAdd (node peer : NodeID) (key : Bytes)
  | removePeerKeyFilter (node peer : NodeID)

namespace FilterCluster

def start : FilterCluster where
  nodes := fun node => { nodeID := node }
  held := fun _ => []
  sent := fun _ => []
  history := fun _ _ => {}

/-- An event at a node about one of its peers. A node is not a peer of its own. -/
def observe (s : FilterCluster) (node peer : NodeID) (e : KeyFilters) (change : PeerHistory → PeerHistory) :
    FilterCluster :=
  { s with
    nodes := update s.nodes node e
    history := fun n p => if n = node ∧ p = peer ∧ p ≠ n then change (s.history n p) else s.history n p }

/-- One event. A filter that arrives is any of those that the peer sent so far. -/
def step (hash : Hash) (s : FilterCluster) : FilterEvent → Option FilterCluster
  | .ownFilterAdd node key =>
    some
      { s with
        nodes := update s.nodes node { s.nodes node with own := (s.nodes node).own.ownFilterAdd hash key }
        held := update s.held node (key :: s.held node) }
  | .sendFilter node =>
    let (own, data, version) := (s.nodes node).own.ownKeyFilterSnapshot
    let snapshot := { data, version, held := s.held node, chain := own.ownKeyFilter }
    some
      { s with
        nodes := update s.nodes node { s.nodes node with own }
        sent := update s.sent node (s.sent node ++ [snapshot]) }
  | .notePeerConnected node peer =>
    some (s.observe node peer ((s.nodes node).notePeerConnected peer) (fun h => { h with announced := true }))
  | .cachePeerFilter node peer i =>
    (s.sent peer)[i]?.map fun snapshot =>
      s.observe node peer ((s.nodes node).cachePeerFilter peer snapshot.data snapshot.version)
        (fun h => { h with received := snapshot :: h.received })
  | .peerFilterAdd node peer key =>
    some (s.observe node peer ((s.nodes node).peerFilterAdd hash peer key)
      (fun h => { h with noted := key :: h.noted }))
  | .removePeerKeyFilter node peer =>
    some (s.observe node peer ((s.nodes node).removePeerKeyFilter peer) (fun _ => {}))

/-- No insertion into a segment returns `ErrCuckooFull`. -/
def Fits (hash : Hash) (s : FilterCluster) : FilterEvent → Prop
  | .ownFilterAdd node key => ((s.nodes node).own.ownKeyFilter.add hash key).homeless = none
  | .peerFilterAdd node peer key =>
    peer ≠ node → (((s.nodes node).peerFilter peer).realtime.add hash key).homeless = none
  | _ => True

/-- The number of segments of a filter that is sent fits the 32 bits it is written in. -/
def Countable (s : FilterCluster) : FilterEvent → Prop
  | .sendFilter node => (s.nodes node).own.ownKeyFilter.segments.length < 2 ^ 32
  | _ => True

instance (hash : Hash) (s : FilterCluster) : (event : FilterEvent) → Decidable (s.Fits hash event)
  | .ownFilterAdd node key =>
    inferInstanceAs (Decidable (((s.nodes node).own.ownKeyFilter.add hash key).homeless = none))
  | .peerFilterAdd node peer key =>
    inferInstanceAs
      (Decidable (peer ≠ node → (((s.nodes node).peerFilter peer).realtime.add hash key).homeless = none))
  | .sendFilter _ => isTrue trivial
  | .notePeerConnected _ _ => isTrue trivial
  | .cachePeerFilter _ _ _ => isTrue trivial
  | .removePeerKeyFilter _ _ => isTrue trivial

instance (s : FilterCluster) : (event : FilterEvent) → Decidable (s.Countable event)
  | .sendFilter node => inferInstanceAs (Decidable ((s.nodes node).own.ownKeyFilter.segments.length < 2 ^ 32))
  | .ownFilterAdd _ _ => isTrue trivial
  | .notePeerConnected _ _ => isTrue trivial
  | .cachePeerFilter _ _ _ => isTrue trivial
  | .peerFilterAdd _ _ _ => isTrue trivial
  | .removePeerKeyFilter _ _ => isTrue trivial

end FilterCluster

/-- A sent filter is that of the chain it was taken from, which has the keys held then. -/
structure FilterSnapshot.Ok (hash : Hash) (snapshot : FilterSnapshot) : Prop where
  uniform : snapshot.chain.Uniform
  decodes : unmarshalBinary snapshot.data = .ok snapshot.chain.decoded
  version_eq : snapshot.version = snapshot.chain.total
  answers : snapshot.chain.Answers hash snapshot.held

/-- A node's own filter has the keys it holds, and grew out of every filter that was sent. -/
structure OwnFilter.Ok (hash : Hash) (own : OwnFilter) (held : List Bytes) (sent : List FilterSnapshot) : Prop where
  regular : own.ownKeyFilter.Regular
  version_eq : own.ownFilterVer = own.ownKeyFilter.total % 2 ^ 64
  answers : own.ownKeyFilter.Answers hash held
  cached : ∀ data, own.ownFilterBytes = some data → ∃ cc : CuckooChain, data = cc.marshalBinary ∧
    own.ownFilterBytesVer = cc.total ∧ CuckooChain.Grows hash cc own.ownKeyFilter
  sent_ok : ∀ snapshot ∈ sent, snapshot.Ok hash
  sent_grows : ∀ snapshot ∈ sent, CuckooChain.Grows hash snapshot.chain own.ownKeyFilter
  sent_ordered : sent.Pairwise (fun a b => CuckooChain.Grows hash a.chain b.chain)

variable {hash : Hash} {own : OwnFilter} {held : List Bytes} {sent : List FilterSnapshot} {key : Bytes}
  {pf : PeerKeyFilter} {history : PeerHistory} {s : FilterCluster} {change : PeerHistory → PeerHistory}
  {e : KeyFilters}

namespace OwnFilter

theorem ok_new (hash : Hash) : Ok hash {} [] [] where
  regular := regular_empty
  version_eq := rfl
  answers := fun key hkey => (by cases hkey)
  cached := fun data hdata => (by cases hdata)
  sent_ok := fun snapshot hsnapshot => (by cases hsnapshot)
  sent_grows := fun snapshot hsnapshot => (by cases hsnapshot)
  sent_ordered := List.Pairwise.nil

theorem Ok.add (hown : own.Ok hash held sent) (hfits : (own.ownKeyFilter.add hash key).homeless = none) :
    (own.ownFilterAdd hash key).Ok hash (key :: held) sent := by
  obtain ⟨hregular, hgrows, htotal⟩ := hown.regular.add hfits
  refine ⟨hregular, ?_, hown.answers.cons hown.regular.uniform hfits, ?_, hown.sent_ok, ?_, hown.sent_ordered⟩
  · unfold ownFilterAdd
    dsimp only
    rw [htotal]
    split
    · rw [hown.version_eq]
      omega
    · rw [add_zero]
      exact hown.version_eq
  · intro data hdata
    obtain ⟨cc, hmarshal, hver, hbefore⟩ := hown.cached data hdata
    exact ⟨cc, hmarshal, hver, hbefore.trans hgrows⟩
  · intro snapshot hsnapshot
    exact (hown.sent_grows snapshot hsnapshot).trans hgrows

/-- What is kept in marshalled form is the filter at its version. -/
theorem refresh_spec (hown : own.Ok hash held sent) (htotal : own.ownKeyFilter.total < 2 ^ 64) :
    own.refresh.ownKeyFilter = own.ownKeyFilter ∧ own.refresh.ownFilterVer = own.ownKeyFilter.total ∧
      own.refresh.ownFilterBytes = some own.ownKeyFilter.marshalBinary ∧
      own.refresh.ownFilterBytesVer = own.ownKeyFilter.total := by
  have hver := hown.version_eq
  rw [mod_eq_of_lt htotal] at hver
  unfold refresh
  by_cases hstale : (own.ownFilterBytes.isNone || own.ownFilterBytesVer != own.ownFilterVer) = true
  · rw [if_pos hstale]
    exact ⟨rfl, hver, rfl, hver⟩
  · rw [if_neg hstale]
    simp only [Bool.or_eq_true, isNone_iff_eq_none, bne_iff_ne, not_or, not_not] at hstale
    obtain ⟨hbytes, hsame⟩ := hstale
    obtain ⟨data, hdata⟩ := ne_none_iff_exists'.mp hbytes
    obtain ⟨cc, rfl, hbytesVer, hgrows⟩ := hown.cached data hdata
    -- the version has not moved since, so neither has the chain
    obtain rfl := hgrows.eq_of_total_eq (by omega)
    exact ⟨rfl, hver, hdata, hbytesVer⟩

theorem Ok.send (hown : own.Ok hash held sent) (hcount : own.ownKeyFilter.segments.length < 2 ^ 32) :
    own.refresh.Ok hash held (sent ++
      [{ data := own.refresh.ownFilterBytes.getD [], version := own.refresh.ownFilterVer, held,
         chain := own.refresh.ownKeyFilter }]) := by
  have htotal := hown.regular.total_lt hcount
  obtain ⟨hchain, hver, hbytes, hbytesVer⟩ := refresh_spec hown htotal
  rw [hchain, hver, hbytes, getD_some]
  have huniform := hown.regular.uniform
  refine ⟨hchain ▸ hown.regular, ?_, hchain ▸ hown.answers, ?_, ?_, ?_, ?_⟩
  · rw [hver, hchain, mod_eq_of_lt htotal]
  · intro data hdata
    rw [hchain]
    exact ⟨_, some.inj (hdata.symm.trans hbytes), hbytesVer, .refl hash _⟩
  · intro snapshot hsnapshot
    obtain hsnapshot | hsnapshot := mem_append.mp hsnapshot
    · exact hown.sent_ok snapshot hsnapshot
    · rw [mem_singleton.mp hsnapshot]
      exact ⟨huniform, unmarshalBinary_marshalBinary huniform hcount, rfl, hown.answers⟩
  · intro snapshot hsnapshot
    rw [hchain]
    obtain hsnapshot | hsnapshot := mem_append.mp hsnapshot
    · exact hown.sent_grows snapshot hsnapshot
    · rw [mem_singleton.mp hsnapshot]
      exact .refl hash _
  · refine pairwise_append.mpr ⟨hown.sent_ordered, pairwise_singleton _ _, fun a ha b hb => ?_⟩
    rw [mem_singleton.mp hb]
    exact hown.sent_grows a ha

/-- Of two filters that were sent, the one with the higher version has all that the other has. -/
theorem Ok.finds_of_version_le {a b : FilterSnapshot} {p : Print Nat Fingerprint} (hown : own.Ok hash held sent)
    (ha : a ∈ sent) (hb : b ∈ sent) (hle : a.version ≤ b.version) (hp : Genuine p)
    (hfinds : a.chain.finds hash p = true) : b.chain.finds hash p = true := by
  rw [(hown.sent_ok a ha).version_eq, (hown.sent_ok b hb).version_eq] at hle
  obtain ⟨i, hi, rfl⟩ := mem_iff_getElem.mp ha
  obtain ⟨j, hj, rfl⟩ := mem_iff_getElem.mp hb
  have hordered := pairwise_iff_getElem.mp hown.sent_ordered
  obtain hlt | rfl | hlt := lt_trichotomy i j
  · exact (hordered i j hi hj hlt).finds_mono p hp hfinds
  · exact hfinds
  · have hback := hordered j i hj hi hlt
    rw [hback.eq_of_total_eq (le_antisymm hback.total_le hle)]
    exact hfinds

end OwnFilter

/-- The entry of a peer reflects what happened about the peer since it was last removed: it
has the newest of the filters that arrived, and the keys that were announced. -/
structure PeerKeyFilter.Reflects (hash : Hash) (pf : PeerKeyFilter) (history : PeerHistory)
    (sent : List FilterSnapshot) : Prop where
  counted_eq : pf.counted = history.announced
  hasBulk_iff : pf.hasBulk = true ↔ history.received ≠ []
  received_sent : ∀ snapshot ∈ history.received, snapshot ∈ sent
  bulk : pf.hasBulk = true → ∃ snapshot ∈ history.received, pf.bulk = snapshot.chain.decoded ∧
    pf.bulkVer = snapshot.version ∧ ∀ other ∈ history.received, other.version ≤ snapshot.version
  realtime_uniform : pf.realtime.Uniform
  realtime_answers : pf.realtime.Answers hash history.noted

namespace PeerKeyFilter

theorem reflects_new (hash : Hash) (peer : NodeID) (sent : List FilterSnapshot) :
    Reflects hash { nodeID := peer } {} sent where
  counted_eq := rfl
  hasBulk_iff := ⟨fun h => (by cases h), fun h => absurd rfl h⟩
  received_sent := fun snapshot hsnapshot => (by cases hsnapshot)
  bulk := fun h => (by cases h)
  realtime_uniform := regular_empty.uniform
  realtime_answers := fun key hkey => (by cases hkey)

section

variable (hreflects : pf.Reflects hash history sent)
include hreflects

theorem Reflects.mono {sent' : List FilterSnapshot} (hsub : ∀ snapshot ∈ sent, snapshot ∈ sent') :
    pf.Reflects hash history sent' :=
  { hreflects with received_sent := fun snapshot h => hsub snapshot (hreflects.received_sent snapshot h) }

theorem Reflects.note : Reflects hash { pf with counted := true } { history with announced := true } sent :=
  { hreflects with counted_eq := rfl }

theorem Reflects.add (hfits : (pf.realtime.add hash key).homeless = none) :
    Reflects hash { pf with realtime := (pf.realtime.add hash key).chain }
      { history with noted := key :: history.noted } sent :=
  { hreflects with
    realtime_uniform := hreflects.realtime_uniform.add hash key
    realtime_answers := hreflects.realtime_answers.cons hreflects.realtime_uniform hfits }

/-- A filter that arrives replaces an older one, and is dropped after a newer one. -/
theorem Reflects.cache {snapshot : FilterSnapshot} (hsent : snapshot ∈ sent) :
    Reflects hash (cachedEntry pf snapshot.chain.decoded snapshot.version)
      { history with received := snapshot :: history.received } sent := by
  have hreceived : ∀ other ∈ snapshot :: history.received, other ∈ sent := by
    intro other hother
    obtain rfl | hother := mem_cons.mp hother
    · exact hsent
    · exact hreflects.received_sent other hother
  unfold cachedEntry
  by_cases hnewer : (!pf.hasBulk || pf.bulkVer < snapshot.version) = true
  · rw [if_pos hnewer]
    refine ⟨hreflects.counted_eq, ⟨fun _ => cons_ne_nil _ _, fun _ => rfl⟩, hreceived, fun _ => ?_,
      hreflects.realtime_uniform, hreflects.realtime_answers⟩
    refine ⟨snapshot, mem_cons_self .., rfl, rfl, fun other hother => ?_⟩
    obtain rfl | hother := mem_cons.mp hother
    · exact le_refl _
    · have hbulk := hreflects.hasBulk_iff.mpr (ne_nil_of_mem hother)
      obtain ⟨newest, _, _, hver, hmax⟩ := hreflects.bulk hbulk
      have hlt : pf.bulkVer < snapshot.version := by simpa [hbulk] using hnewer
      have hle := hmax other hother
      omega
  · rw [if_neg hnewer]
    simp only [Bool.or_eq_true, Bool.not_eq_true', decide_eq_true_eq, not_or, Bool.not_eq_false, not_lt] at hnewer
    obtain ⟨hbulk, hold⟩ := hnewer
    refine ⟨hreflects.counted_eq, ⟨fun _ => cons_ne_nil _ _, fun _ => hbulk⟩, hreceived, fun _ => ?_,
      hreflects.realtime_uniform, hreflects.realtime_answers⟩
    obtain ⟨newest, hnewest, hchain, hver, hmax⟩ := hreflects.bulk hbulk
    refine ⟨newest, mem_cons_of_mem _ hnewest, hchain, hver, fun other hother => ?_⟩
    obtain rfl | hother := mem_cons.mp hother
    · exact hver ▸ hold
    · exact hmax other hother

end

end PeerKeyFilter

namespace FilterCluster

/-- What holds in every state of a run without overflow. -/
structure Inv (hash : Hash) (s : FilterCluster) : Prop where
  nodeID_eq : ∀ node, (s.nodes node).nodeID = node
  own_ok : ∀ node, (s.nodes node).own.Ok hash (s.held node) (s.sent node)
  peersOk : ∀ node, (s.nodes node).PeersOk
  self_history : ∀ node, s.history node node = {}
  reflects : ∀ node peer,
    (entry (s.nodes node).peerKeyFilters peer).Reflects hash (s.history node peer) (s.sent peer)

theorem inv_start (hash : Hash) : Inv hash start where
  nodeID_eq := fun _ => rfl
  own_ok := fun _ => OwnFilter.ok_new hash
  peersOk := fun _ => ⟨List.Pairwise.nil, rfl⟩
  self_history := fun _ => rfl
  reflects := fun _ peer => reflects_new hash peer []

/-- A node whose own filter changed, and with it what it sent. -/
theorem Inv.setOwn (hinv : Inv hash s) (node : NodeID) (hown : own.Ok hash held sent)
    (hsub : ∀ snapshot ∈ s.sent node, snapshot ∈ sent) :
    Inv hash
      { s with
        nodes := update s.nodes node { s.nodes node with own }
        held := update s.held node held
        sent := update s.sent node sent } := by
  refine ⟨?_, fun n => ?_, ?_, hinv.self_history, fun n p => ?_⟩
  · exact (forall_update_iff s.nodes fun n e => e.nodeID = n).mpr
      ⟨hinv.nodeID_eq node, fun n _ => hinv.nodeID_eq n⟩
  · by_cases hn : n = node
    · subst hn
      simp only [update_self, hown]
    · simp only [update_of_ne hn, hinv.own_ok]
  · exact (forall_update_iff s.nodes fun _ e => e.PeersOk).mpr
      ⟨⟨(hinv.peersOk node).ascending, (hinv.peersOk node).unfilteredPeers_eq⟩, fun n _ => hinv.peersOk n⟩
  · have hpeers := (forall_update_iff s.nodes fun n e => e.peerKeyFilters = (s.nodes n).peerKeyFilters).mpr
      ⟨(rfl : { s.nodes node with own }.peerKeyFilters = _), fun _ _ => rfl⟩ n
    dsimp only
    rw [hpeers]
    exact (hinv.reflects n p).mono
      ((forall_update_iff s.sent fun p l => ∀ snapshot ∈ s.sent p, snapshot ∈ l).mpr ⟨hsub, fun _ _ _ => id⟩ p)

/-- A node that observed something about one peer. -/
theorem Inv.observe {node peer : NodeID} (hinv : Inv hash s)
    (hchanged : (s.nodes node).Changed e peer pf)
    (hreflects : pf.Reflects hash (if peer = node then {} else change (s.history node peer)) (s.sent peer)) :
    Inv hash (s.observe node peer e change) := by
  refine ⟨?_, ?_, ?_, fun n => ?_, fun n p => ?_⟩
  · exact (forall_update_iff s.nodes fun n e => e.nodeID = n).mpr
      ⟨hchanged.nodeID_eq.trans (hinv.nodeID_eq node), fun n _ => hinv.nodeID_eq n⟩
  · exact (forall_update_iff s.nodes fun n e => e.own.Ok hash (s.held n) (s.sent n)).mpr
      ⟨hchanged.own_eq ▸ hinv.own_ok node, fun n _ => hinv.own_ok n⟩
  · exact (forall_update_iff s.nodes fun _ e => e.PeersOk).mpr
      ⟨hchanged.peersOk, fun n _ => hinv.peersOk n⟩
  · simp only [FilterCluster.observe, ne_eq, not_true_eq_false, and_false, if_false, hinv.self_history]
  · by_cases hn : n = node
    · subst hn
      simp only [FilterCluster.observe, update_self, hchanged.entry_eq, true_and]
      by_cases hp : p = peer
      · subst hp
        rw [if_pos rfl]
        by_cases hself : p = n
        · subst hself
          rw [if_neg (fun h => h.2 rfl), hinv.self_history]
          rwa [if_pos rfl] at hreflects
        · rw [if_pos ⟨rfl, hself⟩]
          rwa [if_neg hself] at hreflects
      · rw [if_neg hp, if_neg (fun h => hp h.1)]
        exact hinv.reflects n p
    · simp only [FilterCluster.observe, update_of_ne hn, hn, false_and, if_false]
      exact hinv.reflects n p

theorem observe_self (node : NodeID) (change : PeerHistory → PeerHistory) :
    s.observe node node (s.nodes node) change = s := by
  have hhistory : (fun n p => if n = node ∧ p = node ∧ p ≠ n then change (s.history n p) else s.history n p) =
      s.history := by
    funext n p
    rw [if_neg]
    rintro ⟨rfl, rfl, hne⟩
    exact hne rfl
  rw [FilterCluster.observe, update_eq_self, hhistory]

/-- A node takes no notice of itself as a peer. -/
theorem Inv.observePeer {node peer : NodeID} (hinv : Inv hash s)
    (hself : peer = (s.nodes node).nodeID → e = s.nodes node)
    (hother : peer ≠ (s.nodes node).nodeID → (s.nodes node).Changed e peer pf)
    (hreflects : peer ≠ node → pf.Reflects hash (change (s.history node peer)) (s.sent peer)) :
    Inv hash (s.observe node peer e change) := by
  rw [hinv.nodeID_eq] at hself hother
  by_cases hpeer : peer = node
  · subst hpeer
    rw [hself rfl, observe_self]
    exact hinv
  · apply hinv.observe (hother hpeer)
    rw [if_neg hpeer]
    exact hreflects hpeer

theorem Inv.step {t : FilterCluster} {event : FilterEvent} (hinv : Inv hash s)
    (hok : s.Fits hash event ∧ s.Countable event) (hstep : s.step hash event = some t) : Inv hash t := by
  obtain ⟨hfits, hcount⟩ := hok
  cases event with
  | ownFilterAdd node key =>
    cases hstep
    have hnext := hinv.setOwn node ((hinv.own_ok node).add hfits) (fun _ => id)
    rwa [update_eq_self] at hnext
  | sendFilter node =>
    cases hstep
    have hnext := hinv.setOwn node ((hinv.own_ok node).send hcount) (fun _ h => mem_append_left _ h)
    rwa [update_eq_self] at hnext
  | notePeerConnected node peer =>
    cases hstep
    refine hinv.observePeer (fun hself => ?_) (notePeerConnected_changed (hinv.peersOk node))
      fun _ => (hinv.reflects node peer).note
    rw [notePeerConnected, if_pos hself]
  | cachePeerFilter node peer i =>
    obtain ⟨snapshot, hget, rfl⟩ := map_eq_some_iff.mp hstep
    have hsent := mem_of_getElem? hget
    have hdecodes := ((hinv.own_ok peer).sent_ok snapshot hsent).decodes
    refine hinv.observePeer (fun hself => ?_)
      (fun hother => cachePeerFilter_changed (hinv.peersOk node) hother hdecodes snapshot.version)
      fun _ => (hinv.reflects node peer).cache hsent
    rw [cachePeerFilter, if_pos hself]
  | peerFilterAdd node peer key =>
    cases hstep
    obtain ⟨_, _, _, _, hfilter, _⟩ := exists_place (hinv.peersOk node).ascending peer
    refine hinv.observePeer (fun hself => ?_)
      (fun hother => peerFilterAdd_changed hash (hinv.peersOk node) hother key)
      fun hpeer => (hinv.reflects node peer).add (hfilter ▸ hfits hpeer)
    rw [peerFilterAdd, if_pos hself]
  | removePeerKeyFilter node peer =>
    cases hstep
    apply hinv.observe (removePeerKeyFilter_changed (hinv.peersOk node) peer)
    rw [ite_self]
    exact reflects_new hash peer _

/-- What a miss says about one peer. -/
theorem Inv.of_miss {node peer : NodeID} (hinv : Inv hash s)
    (hmiss : (s.nodes node).clusterMaybeHasKey hash key = false)
    (hannounced : (s.history node peer).announced = true) :
    (s.history node peer).received ≠ [] ∧ (∀ snapshot ∈ (s.history node peer).received, key ∉ snapshot.held) ∧
      key ∉ (s.history node peer).noted := by
  obtain ⟨hfiltered, habsent⟩ := entry_of_miss (hinv.peersOk node) hmiss peer
  have hreflects := hinv.reflects node peer
  rw [PeerKeyFilter.maybeContains, Bool.or_eq_false_iff] at habsent
  obtain ⟨hbulkMiss, hrealtimeMiss⟩ := habsent
  have hbulk : (entry (s.nodes node).peerKeyFilters peer).hasBulk = true := by
    simpa [unfiltered, hreflects.counted_eq, hannounced] using hfiltered
  refine ⟨hreflects.hasBulk_iff.mp hbulk, fun snapshot hsnapshot hheld => ?_, fun hnoted => ?_⟩
  · obtain ⟨newest, hnewest, hchain, _, hmax⟩ := hreflects.bulk hbulk
    have hown := hinv.own_ok peer
    have hsent := hreflects.received_sent snapshot hsnapshot
    have hsent' := hreflects.received_sent newest hnewest
    have hfound := (hown.sent_ok snapshot hsent).answers key hheld
    rw [maybeContains_eq_finds (hown.sent_ok snapshot hsent).uniform] at hfound
    rw [hchain, maybeContains_decoded,
      maybeContains_eq_finds (hown.sent_ok newest hsent').uniform,
      hown.finds_of_version_le hsent hsent' (hmax snapshot hsnapshot) (genuine_chunkPrint hash key) hfound] at hbulkMiss
    cases hbulkMiss
  · rw [hreflects.realtime_answers key hnoted] at hrealtimeMiss
    cases hrealtimeMiss

/-- In every run without an overflow, at every node: the counter is the number of announced
peers whose filter has not arrived, and if the filters miss a key, then the filter of
every announced peer has arrived, none that arrived was taken after the peer added the
key, and the peer has not announced the key. -/
theorem filter_miss_authoritative {hash : Hash} {s : FilterCluster}
    (hrun : Run (step hash) (fun s event => s.Fits hash event ∧ s.Countable event) start s) (node : NodeID) :
    (∃ unfiltered : Finset NodeID,
        (∀ peer, peer ∈ unfiltered ↔
          (s.history node peer).announced = true ∧ (s.history node peer).received = []) ∧
        (s.nodes node).unfilteredPeers = unfiltered.card) ∧
      ∀ key, (s.nodes node).clusterMaybeHasKey hash key = false → ∀ peer, (s.history node peer).announced = true →
        (s.history node peer).received ≠ [] ∧ (∀ snapshot ∈ (s.history node peer).received, key ∉ snapshot.held) ∧
          key ∉ (s.history node peer).noted := by
  have hinv : Inv hash s := hrun.invariant (inv_start hash) (fun hinv hok hstep => hinv.step hok hstep)
  refine ⟨?_, fun key hmiss peer hannounced => hinv.of_miss hmiss hannounced⟩
  obtain ⟨unfiltered, hmem, hcard⟩ := exists_unfiltered (hinv.peersOk node)
  refine ⟨unfiltered, fun peer => ?_, hcard⟩
  have hreflects := hinv.reflects node peer
  rw [hmem, PeerKeyFilter.unfiltered, Bool.and_eq_true, Bool.not_eq_true', hreflects.counted_eq,
    ← Bool.not_eq_true, hreflects.hasBulk_iff, not_not]

/-- A peer sends its filter before it adds a key, and the key is missed. -/
theorem filter_miss_of_early_filter :
    ∃ s, Run (step spreadHash)
        (fun s event => s.Fits spreadHash event ∧ s.Countable event) start s ∧
      (s.nodes 0).clusterMaybeHasKey spreadHash (spreadKey 0) = false ∧
      (s.history 0 1).received ≠ [] ∧
      ∀ snapshot ∈ (s.history 0 1).received, spreadKey 0 ∉ snapshot.held := by
  obtain ⟨s, hrun, hmiss, hannounced⟩ :=
    @exists_run_of_perform _ _ (step spreadHash)
      (fun s event => s.Fits spreadHash event ∧ s.Countable event) _
      (fun s => (s.nodes 0).clusterMaybeHasKey spreadHash (spreadKey 0) = false ∧
        (s.history 0 1).announced = true) _
      [.notePeerConnected 0 1, .sendFilter 1, .ownFilterAdd 1 (spreadKey 0), .cachePeerFilter 0 1 0] start
      (by decide +kernel)
  obtain ⟨hreceived, hheld, _⟩ := (filter_miss_authoritative hrun 0).2 _ hmiss 1 hannounced
  exact ⟨s, hrun, hmiss, hreceived, hheld⟩

/-- A node that adds keys, of which nothing else happens. -/
structure Alone (s : FilterCluster) (m : Nat) : Prop where
  nodes_zero : s.nodes 0 = { nodeID := 0 }
  own_eq : (s.nodes 1).own.ownKeyFilter = addAll spreadHash (spreadKeys m)
  bytes_eq : (s.nodes 1).own.ownFilterBytes = none
  sent_eq : s.sent 1 = []
  held : 0 < m → spreadKey 0 ∈ s.held 1

theorem exists_run_alone (m : Nat) :
    ∃ s, Run (step spreadHash) (Fits spreadHash) start s ∧ Alone s m := by
  induction m with
  | zero => exact ⟨start, .start, rfl, rfl, rfl, rfl, fun h => absurd h (lt_irrefl 0)⟩
  | succ m ih =>
    obtain ⟨s, hrun, halone⟩ := ih
    have hfits : Fits spreadHash s (.ownFilterAdd 1 (spreadKey (m % cuckooChainChunk))) := by
      rw [Fits, halone.own_eq]
      exact homeless_spreadKeys m
    refine ⟨_, hrun.next hfits rfl, halone.nodes_zero, ?_, halone.bytes_eq, halone.sent_eq, fun _ => ?_⟩
    · dsimp only
      rw [update_self, addAll_spreadKeys_succ, ← halone.own_eq]
      rfl
    · dsimp only
      rw [update_self]
      cases m with
      | zero => exact mem_cons_self ..
      | succ m => exact mem_cons_of_mem _ (halone.held (succ_pos m))

/-- The empty filter of a peer, once it is decoded, makes every lookup a miss. -/
theorem miss_of_empty_filter (hash : Hash) {data : Bytes} (version : Nat) (key : Bytes)
    (hdecodes : unmarshalBinary data = .ok { sealed := [], active := none }) :
    (((({ nodeID := 0 } : KeyFilters).notePeerConnected 1).cachePeerFilter 1 data version).clusterMaybeHasKey
        hash key) = false := by
  unfold cachePeerFilter
  rw [hdecodes]
  rfl

/-- A filter of `2 ^ 32` segments, none of which overflowed, is sent as an empty one: the key
its node holds is missed. -/
theorem filter_miss_of_wrapped_count :
    ∃ s, Run (step spreadHash) (Fits spreadHash) start s ∧
      (s.nodes 0).clusterMaybeHasKey spreadHash (spreadKey 0) = false ∧
      (s.history 0 1).announced = true ∧
      ∃ snapshot ∈ (s.history 0 1).received, spreadKey 0 ∈ snapshot.held := by
  have hcount := length_segments_spreadKeys ((2 ^ 32 - 1) * cuckooChainChunk)
  rw [Nat.mul_div_cancel _ (by decide)] at hcount
  obtain ⟨s, hrun, halone⟩ := exists_run_alone ((2 ^ 32 - 1) * cuckooChainChunk + 1)
  have hheld := halone.held (succ_pos _)
  rw [← halone.own_eq] at hcount
  have hwraps : (s.nodes 1).own.ownKeyFilter.segments.length % 256 ^ 4 = 0 := by
    rw [hcount]
    decide
  have hdecodes := unmarshalBinary_of_count_wraps hwraps
  have hdata : (s.nodes 1).own.refresh.ownFilterBytes.getD [] = (s.nodes 1).own.ownKeyFilter.marshalBinary := by
    rw [OwnFilter.refresh, halone.bytes_eq]
    rfl
  rw [← hdata] at hdecodes
  have hsend := hrun.next (show Fits _ s (.sendFilter 1) from trivial) rfl
  have hnote := hsend.next (show Fits _ _ (.notePeerConnected 0 1) from trivial) rfl
  have hcache := hnote.next (show Fits _ _ (.cachePeerFilter 0 1 0) from trivial)
    (by simp only [step, observe, update_self, halone.sent_eq]; rfl)
  refine ⟨_, hcache, ?_, rfl, _, mem_cons_self .., hheld⟩
  have hmiss := miss_of_empty_filter spreadHash (s.nodes 1).own.refresh.ownFilterVer (spreadKey 0)
    hdecodes
  rw [← halone.nodes_zero] at hmiss
  exact hmiss

end FilterCluster

end swytch.effects
