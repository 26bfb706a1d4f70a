import Swytch.Effects.KeyFilter
import Mathlib.Data.Finset.Card

open swytch.lib swytch.proto List Int

namespace swytch.effects.KeyFilters

variable (peers : List PeerKeyFilter)

/-- What the peers' entries say about a peer; an absent entry says as much as a new one. -/
def entry (peer : NodeID) : PeerKeyFilter :=
  (peers.find? (fun pf => pf.nodeID = peer)).getD { nodeID := peer }

def Ascending : Prop := (peers.map (·.nodeID)).Pairwise (· < ·)

/-- The number of entries presumed to hold every key, as the counter has it. -/
def unfilteredCount : Int := peers.countP (·.unfiltered)

/-- What the engine keeps of its peers: the order that the search needs, and the counter. -/
structure PeersOk (e : KeyFilters) : Prop where
  ascending : Ascending e.peerKeyFilters
  unfilteredPeers_eq : e.unfilteredPeers = unfilteredCount e.peerKeyFilters

variable {before after : List PeerKeyFilter} {pf : PeerKeyFilter} {peer : NodeID} {e : KeyFilters}

theorem entry_middle (hbefore : ∀ other ∈ before, other.nodeID < pf.nodeID) :
    entry (before ++ pf :: after) pf.nodeID = pf := by
  have hnone : before.find? (fun other => other.nodeID = pf.nodeID) = none := by
    rw [find?_eq_none]
    intro other hother
    simpa using (hbefore other hother).ne
  rw [entry, find?_append, hnone, Option.none_or, find?_cons_of_pos (by simp), Option.getD_some]

theorem entry_middle_of_ne (hne : peer ≠ pf.nodeID) :
    entry (before ++ pf :: after) peer = entry (before ++ after) peer := by
  rw [entry, entry, find?_append, find?_append, find?_cons_of_neg (by simpa using hne.symm)]

theorem entry_absent (hbefore : ∀ other ∈ before, other.nodeID < peer)
    (hafter : ∀ other ∈ after, peer < other.nodeID) : entry (before ++ after) peer = { nodeID := peer } := by
  have hnone : (before ++ after).find? (fun other => other.nodeID = peer) = none := by
    rw [find?_eq_none]
    intro other hother
    obtain hother | hother := mem_append.mp hother
    · simpa using (hbefore other hother).ne
    · simpa using (hafter other hother).ne'
  rw [entry, hnone, Option.getD_none]

theorem unfilteredCount_middle (before after : List PeerKeyFilter) (pf : PeerKeyFilter) :
    unfilteredCount (before ++ pf :: after) = unfilteredCount (before ++ after) + (if pf.unfiltered then 1 else 0) := by
  unfold unfilteredCount
  rw [countP_append, countP_append, countP_cons]
  split <;> omega

/-- The place of a peer in the entries: what changing or removing its entry leaves. -/
theorem exists_place (hascending : Ascending e.peerKeyFilters) (peer : NodeID) :
    ∃ before after, (∀ other ∈ before, other.nodeID < peer) ∧ (∀ other ∈ after, peer < other.nodeID) ∧
      e.peerFilter peer = entry e.peerKeyFilters peer ∧ (entry e.peerKeyFilters peer).nodeID = peer ∧
      (∀ change, e.modifyPeer peer change = before ++ change (entry e.peerKeyFilters peer) :: after) ∧
      (e.peerFilterIndex peer = (before.length, true) ∧
          e.peerKeyFilters = before ++ entry e.peerKeyFilters peer :: after ∨
        e.peerFilterIndex peer = (before.length, false) ∧ e.peerKeyFilters = before ++ after ∧
          entry e.peerKeyFilters peer = { nodeID := peer }) := by
  obtain ⟨before, after, hbefore, hafter, ⟨hindex, pf, rfl, hpeers⟩ | ⟨hindex, hpeers⟩⟩ :=
    binarySearch_cut hascending peer
  · have hentry : entry e.peerKeyFilters pf.nodeID = pf := by
      rw [hpeers]
      exact entry_middle hbefore
    refine ⟨before, after, hbefore, hafter, ?_, ?_, fun change => ?_, .inl ⟨hindex, ?_⟩⟩
    · rw [hentry, peerFilter, peerFilterIndex, hindex]
      simp [hpeers]
    · rw [hentry]
    · rw [hentry, modifyPeer, peerFilterIndex, hindex]
      dsimp only
      rw [if_pos rfl, hpeers, modify_middle]
    · rw [hentry, hpeers]
  · have hentry : entry e.peerKeyFilters peer = { nodeID := peer } := by
      rw [hpeers]
      exact entry_absent hbefore hafter
    refine ⟨before, after, hbefore, hafter, ?_, ?_, fun change => ?_, .inr ⟨hindex, hpeers, hentry⟩⟩
    · rw [hentry, peerFilter, peerFilterIndex, hindex]
      rfl
    · rw [hentry]
    · rw [hentry, modifyPeer, peerFilterIndex, hindex]
      dsimp only
      rw [if_neg Bool.false_ne_true, hpeers, insertIdx_middle, modify_middle]

/-- An engine after the entry of one peer was changed, created or removed. -/
structure Changed (e e' : KeyFilters) (peer : NodeID) (pf : PeerKeyFilter) : Prop where
  nodeID_eq : e'.nodeID = e.nodeID
  own_eq : e'.own = e.own
  peersOk : PeersOk e'
  entry_eq : ∀ q, entry e'.peerKeyFilters q = if q = peer then pf else entry e.peerKeyFilters q

theorem changed_of_modify {e' : KeyFilters} (change : PeerKeyFilter → PeerKeyFilter) (hok : PeersOk e)
    (hnode : e'.nodeID = e.nodeID) (hown : e'.own = e.own)
    (hid : (change (entry e.peerKeyFilters peer)).nodeID = (entry e.peerKeyFilters peer).nodeID)
    (hpeers : e'.peerKeyFilters = e.modifyPeer peer change)
    (hcount : e'.unfilteredPeers = e.unfilteredPeers - (if (entry e.peerKeyFilters peer).unfiltered then 1 else 0) +
      (if (change (entry e.peerKeyFilters peer)).unfiltered then 1 else 0)) :
    Changed e e' peer (change (entry e.peerKeyFilters peer)) := by
  obtain ⟨before, after, hbefore, hafter, _, hentry, hmodify, hplace⟩ := exists_place hok.ascending peer
  rw [hmodify] at hpeers
  generalize entry e.peerKeyFilters peer = pf at *
  rw [hentry] at hid
  obtain ⟨hwithout, hold, hothers⟩ : Ascending (before ++ after) ∧
      unfilteredCount e.peerKeyFilters = unfilteredCount (before ++ after) + (if pf.unfiltered then 1 else 0) ∧
      ∀ q, q ≠ peer → entry e.peerKeyFilters q = entry (before ++ after) q := by
    obtain ⟨_, heq⟩ | ⟨_, heq, hnew⟩ := hplace
    · refine ⟨pairwise_without (heq ▸ hok.ascending), ?_, fun q hq => ?_⟩
      · rw [heq, unfilteredCount_middle]
      · rw [heq, entry_middle_of_ne (hentry.symm ▸ hq)]
    · refine ⟨heq ▸ hok.ascending, ?_, fun q _ => by rw [heq]⟩
      rw [heq, hnew]
      exact (add_zero _).symm
  refine ⟨hnode, hown, ⟨?_, ?_⟩, fun q => ?_⟩
  · rw [hpeers]
    exact pairwise_middle hwithout (hid.symm ▸ hbefore) (hid.symm ▸ hafter)
  · rw [hcount, hok.unfilteredPeers_eq, hold, hpeers, unfilteredCount_middle, Int.add_sub_cancel]
  · rw [hpeers]
    by_cases hq : q = peer
    · rw [if_pos hq, hq, ← hid]
      exact entry_middle (hid.symm ▸ hbefore)
    · rw [if_neg hq, hothers q hq]
      exact entry_middle_of_ne (hid.symm ▸ hq)

theorem notePeerConnected_changed (hok : PeersOk e) (hpeer : peer ≠ e.nodeID) :
    Changed e (e.notePeerConnected peer) peer { entry e.peerKeyFilters peer with counted := true } := by
  obtain ⟨_, _, _, _, hfilter, _⟩ := exists_place hok.ascending peer
  rw [notePeerConnected, if_neg hpeer]
  refine changed_of_modify (fun pf => { pf with counted := true }) hok rfl rfl rfl rfl ?_
  dsimp only
  rw [hfilter]
  unfold PeerKeyFilter.unfiltered
  cases (entry e.peerKeyFilters peer).counted <;> cases (entry e.peerKeyFilters peer).hasBulk <;> simp

theorem peerFilterAdd_changed (hash : Hash) (hok : PeersOk e) (hpeer : peer ≠ e.nodeID) (key : Bytes) :
    Changed e (e.peerFilterAdd hash peer key) peer { entry e.peerKeyFilters peer with
        realtime := ((entry e.peerKeyFilters peer).realtime.add hash key).chain } := by
  rw [peerFilterAdd, if_neg hpeer]
  exact changed_of_modify (fun pf => { pf with realtime := (pf.realtime.add hash key).chain }) hok rfl rfl rfl rfl
    (sub_add_cancel _ _).symm

/-- The entry of a peer after a filter that it sent was decoded. -/
def cachedEntry (pf : PeerKeyFilter) (decoded : CuckooChain) (version : Nat) : PeerKeyFilter :=
  if !pf.hasBulk || pf.bulkVer < version then { pf with bulk := decoded, bulkVer := version, hasBulk := true } else pf

theorem cachePeerFilter_changed {data : Bytes} {decoded : CuckooChain} (hok : PeersOk e) (hpeer : peer ≠ e.nodeID)
    (hdecoded : CuckooChain.unmarshalBinary data = .ok decoded) (version : Nat) :
    Changed e (e.cachePeerFilter peer data version) peer
      (cachedEntry (entry e.peerKeyFilters peer) decoded version) := by
  obtain ⟨_, _, _, _, hfilter, _⟩ := exists_place hok.ascending peer
  simp only [cachePeerFilter, if_neg hpeer, hdecoded, hfilter, cachedEntry]
  by_cases hnewer : (!(entry e.peerKeyFilters peer).hasBulk || (entry e.peerKeyFilters peer).bulkVer < version) = true
  · rw [if_pos hnewer, if_pos hnewer]
    refine changed_of_modify (fun pf => { pf with bulk := decoded, bulkVer := version, hasBulk := true })
      hok rfl rfl rfl rfl ?_
    dsimp only
    unfold PeerKeyFilter.unfiltered
    split <;> simp
  · rw [if_neg hnewer, if_neg hnewer]
    exact changed_of_modify id hok rfl rfl rfl rfl (sub_add_cancel _ _).symm

theorem removePeerKeyFilter_changed (hok : PeersOk e) (peer : NodeID) :
    Changed e (e.removePeerKeyFilter peer) peer { nodeID := peer } := by
  obtain ⟨before, after, hbefore, hafter, hfilter, hentry, _, ⟨hindex, heq⟩ | ⟨hindex, _, hnew⟩⟩ :=
    exists_place hok.ascending peer
  · have hremove : e.removePeerKeyFilter peer =
        { e with
          peerKeyFilters := before ++ after
          unfilteredPeers := e.unfilteredPeers - (if (entry e.peerKeyFilters peer).unfiltered then 1 else 0) } := by
      have herase : e.peerKeyFilters.eraseIdx before.length = before ++ after := by
        rw [heq, eraseIdx_middle]
      rw [removePeerKeyFilter, hindex]
      dsimp only
      rw [if_pos rfl, hfilter, herase]
      split <;> simp
    have hold := congrArg unfilteredCount heq
    rw [unfilteredCount_middle] at hold
    have hascending := hok.ascending
    rw [heq] at hascending
    rw [hremove]
    refine ⟨rfl, rfl, ⟨pairwise_without hascending, ?_⟩, fun q => ?_⟩
    · dsimp only
      rw [hok.unfilteredPeers_eq, hold, Int.add_sub_cancel]
    · by_cases hq : q = peer
      · rw [if_pos hq, hq]
        exact entry_absent hbefore hafter
      · have hkeep : entry (before ++ entry e.peerKeyFilters peer :: after) q = entry (before ++ after) q :=
          entry_middle_of_ne (by rwa [hentry])
        rw [if_neg hq]
        exact (hkeep.symm.trans (congrArg (entry · q) heq.symm))
  · have hsame : e.removePeerKeyFilter peer = e := by
      rw [removePeerKeyFilter, hindex]
      rfl
    rw [hsame]
    refine ⟨rfl, rfl, hok, fun q => ?_⟩
    by_cases hq : q = peer
    · rw [if_pos hq, hq, hnew]
    · rw [if_neg hq]

theorem entry_mem_or_new (peer : NodeID) :
    entry peers peer ∈ peers ∧ (entry peers peer).nodeID = peer ∨ entry peers peer = { nodeID := peer } := by
  unfold entry
  cases hfind : peers.find? (fun pf => pf.nodeID = peer) with
  | none => exact .inr rfl
  | some pf =>
    refine .inl ⟨mem_of_find?_eq_some hfind, ?_⟩
    simpa using find?_some hfind

/-- The counter is the number of peers whose entry is presumed to hold every key. -/
theorem exists_unfiltered (hok : PeersOk e) :
    ∃ unfiltered : Finset NodeID, (∀ p, p ∈ unfiltered ↔ (entry e.peerKeyFilters p).unfiltered = true) ∧
      e.unfilteredPeers = unfiltered.card := by
  refine ⟨((e.peerKeyFilters.filter (·.unfiltered)).map (·.nodeID)).toFinset, fun p => ?_, ?_⟩
  · rw [mem_toFinset, mem_map]
    constructor
    · rintro ⟨pf, hpf, rfl⟩
      obtain ⟨hmem, hunfiltered⟩ := mem_filter.mp hpf
      obtain ⟨before, after, heq⟩ := append_of_mem hmem
      have hascending := hok.ascending
      rw [heq, Ascending, map_append, pairwise_append] at hascending
      rw [heq, entry_middle]
      · exact hunfiltered
      · intro other hother
        exact hascending.2.2 _ (mem_map_of_mem hother) _ (mem_cons_self ..)
    · intro hunfiltered
      obtain ⟨hmem, hid⟩ | hnew := entry_mem_or_new e.peerKeyFilters p
      · exact ⟨_, mem_filter.mpr ⟨hmem, hunfiltered⟩, hid⟩
      · rw [hnew] at hunfiltered
        cases hunfiltered
  · have hnodup : ((e.peerKeyFilters.filter (·.unfiltered)).map (·.nodeID)).Nodup := by
      have hsub : ((e.peerKeyFilters.filter (·.unfiltered)).map (·.nodeID)).Pairwise (· < ·) :=
        hok.ascending.sublist (filter_sublist.map _)
      exact hsub.imp (fun hlt => hlt.ne)
    rw [hok.unfilteredPeers_eq, toFinset_card_of_nodup hnodup, length_map, unfilteredCount,
      countP_eq_length_filter]

/-- A miss: no peer is presumed to hold every key, and no filter has this one. -/
theorem entry_of_miss {hash : Hash} {key : Bytes} (hok : PeersOk e) (hmiss : e.clusterMaybeHasKey hash key = false)
    (p : NodeID) :
    (entry e.peerKeyFilters p).unfiltered = false ∧ (entry e.peerKeyFilters p).maybeContains hash key = false := by
  simp only [clusterMaybeHasKey, Bool.or_eq_false_iff, decide_eq_false_iff_not, any_eq_false,
    Bool.not_eq_true] at hmiss
  obtain ⟨hcounter, hfilters⟩ := hmiss
  rw [hok.unfilteredPeers_eq, unfilteredCount, natCast_pos, countP_pos_iff] at hcounter
  obtain ⟨hmem, _⟩ | hnew := entry_mem_or_new e.peerKeyFilters p
  · exact ⟨Bool.eq_false_iff.mpr fun h => hcounter ⟨_, hmem, h⟩, hfilters _ hmem⟩
  · rw [hnew]
    exact ⟨rfl, rfl⟩

end swytch.effects.KeyFilters
