import Swytch.Cluster.Replicator

open swytch.proto swytch.effects List Option

namespace swytch.cluster

open NackNotify

open ReplicationFuture

/-- The handler took the effect. -/
def Reply.accepted (reply : Reply) : Bool :=
  !reply.err && !reply.nacks.any notSubscribed

/-- The answer says that the peer discarded the effect. -/
def Reply.refused (reply : Reply) : Bool :=
  !reply.nacks.isEmpty && reply.nacks.all notSubscribed

def ReplicationFuture.Succeeded (f : ReplicationFuture) : Prop :=
  f.done = true ∧ f.err = none

variable {allowed : Reply → Prop} {r : Replicator} {c : ReplicationCall} {tr : TrackedRequest}
  {err : ReplicationError}

variable {f : ReplicationFuture}

namespace Replicator

variable (localRegion : Bytes) {s : Replicator} {p : ACKPacket}

def initial : Replicator :=
  { localRegion := localRegion }

/-- The runs in which every handler call answers with an allowed reply. -/
def Run (allowed : Reply → Prop) (r s : Replicator) : Prop :=
  lib.Run step (fun _ a => ∀ packet reply, a = .handleNotify packet reply → allowed reply) r s

/-- A `Replicate` whose future completed without an error. -/
def succeeded (c : ReplicationCall) : Prop :=
  c.kind = .replicate ∧ c.future.Succeeded

/-- A same-region peer of the call took its effect. -/
def Applied (r : Replicator) (c : ReplicationCall) : Prop :=
  ∃ h ∈ r.handled, c.regions.lookup h.peer = some r.localRegion ∧ h.notify = c.notify ∧ h.reply.accepted = true

/-- Every packet and every request leads back to the call that caused it. -/
structure Traced (allowed : Reply → Prop) (r : Replicator) : Prop where
  pending : 0 ∉ r.pending
  requests : ∀ tr ∈ r.requests, ∃ c, r.calls[tr.call]? = some c ∧ c.notify = tr.notify ∧ tr.peerID ∈ c.targets
  notifications : ∀ p ∈ r.notifications, p.requestID = 0 ∨
    ∃ tr, r.requests[p.requestID - 1]? = some tr ∧ tr.peerID = p.peer ∧ tr.notify = p.notify
  responses : ∀ p ∈ r.responses, p.requestID = 0 ∨
    ∃ tr reply, r.requests[p.requestID - 1]? = some tr ∧ ⟨tr.peerID, tr.notify, reply⟩ ∈ r.handled ∧
      p.nacks = reply.nacks ∧ p.status = if reply.nacks.isEmpty then 0 else 1
  handled : ∀ h ∈ r.handled, allowed h.reply
  targets : ∀ (i : Nat) (c : ReplicationCall), r.calls[i]? = some c →
    c.waiting ⊆ c.targets ∧ (c.kind = .replicate → ∀ peer ∈ c.targets, c.regions.lookup peer = some r.localRegion)
  applied : ∀ (i : Nat) (c : ReplicationCall), r.calls[i]? = some c → succeeded c → r.Applied c

theorem traced_initial (allowed : Reply → Prop) (localRegion : Bytes) : Traced allowed (initial localRegion) := by
  constructor <;> simp [initial]

theorem getElem?_append_of_some {α : Type} {l l' : List α} {i : Nat} {a : α} (ha : l[i]? = some a) :
    (l ++ l')[i]? = some a := by
  obtain ⟨hi, -⟩ := List.getElem?_eq_some_iff.mp ha
  rw [getElem?_append_left hi, ha]

/-- A call changes in its future and its open peers only, and succeeds only if it was applied. -/
theorem Traced.modify (h : Traced allowed r) {call : Nat} {g : ReplicationCall → ReplicationCall}
    (hsame : ∀ c, g c = { c with future := (g c).future, waiting := (g c).waiting } ∧ (g c).waiting ⊆ c.waiting)
    (hg : ∀ c, r.calls[call]? = some c → succeeded (g c) → r.Applied c) :
    Traced allowed { r with calls := r.calls.modify call g } := by
  have hcalls : ∀ i c, (r.calls.modify call g)[i]? = some c →
      ∃ c', r.calls[i]? = some c' ∧ c = if call = i then g c' else c' := by
    intro i c hc
    simp only [getElem?_modify, Option.map_eq_map, Option.map_eq_some_iff] at hc
    obtain ⟨c', hc', rfl⟩ := hc
    exact ⟨c', hc', rfl⟩
  refine ⟨h.pending, ?_, h.notifications, h.responses, h.handled, ?_, ?_⟩
  · intro tr htr
    obtain ⟨c, hc, hnotify, hpeer⟩ := h.requests tr htr
    by_cases hi : call = tr.call
    · refine ⟨g c, by simp [hc, hi], ?_⟩
      rw [(hsame c).1]
      exact ⟨hnotify, hpeer⟩
    · exact ⟨c, by simp [hc, hi], hnotify, hpeer⟩
  · intro i c hc
    obtain ⟨c', hc', rfl⟩ := hcalls i c hc
    obtain ⟨hwaiting, hregions⟩ := h.targets i c' hc'
    split
    · rw [(hsame c').1]
      exact ⟨(hsame c').2.trans hwaiting, hregions⟩
    · exact ⟨hwaiting, hregions⟩
  · intro i c hc
    obtain ⟨c', hc', rfl⟩ := hcalls i c hc
    split
    · rename_i hi
      subst hi
      intro hsucceeded
      have happlied := hg c' hc' hsucceeded
      rw [(hsame c').1]
      exact happlied
    · exact h.applied i c' hc'

/-- A future is replaced by one that has succeeded only if the call was applied. -/
theorem Traced.updateFuture (h : Traced allowed r) {call : Nat} {f : ReplicationFuture → ReplicationFuture}
    (hf : ∀ c, r.calls[call]? = some c → c.kind = .replicate → (f c.future).Succeeded → r.Applied c) :
    Traced allowed (r.updateFuture call f) :=
  h.modify (fun _ => ⟨rfl, Finset.Subset.refl _⟩) fun c hc hsucceeded => hf c hc hsucceeded.1 hsucceeded.2

theorem Traced.delete (h : Traced allowed r) (requestID : Nat) : Traced allowed (r.delete requestID) :=
  ⟨fun hzero => h.pending (Finset.mem_of_mem_erase hzero), h.requests, h.notifications, h.responses, h.handled,
    h.targets, h.applied⟩

theorem Traced.addCall (h : Traced allowed r) (hwaiting : c.waiting ⊆ c.targets)
    (htargets : c.kind = .replicate → ∀ peer ∈ c.targets, c.regions.lookup peer = some r.localRegion)
    (hopen : ¬ succeeded c) : Traced allowed (r.addCall c) := by
  have hcalls : ∀ (i : Nat) d, (r.addCall c).calls[i]? = some d → r.calls[i]? = some d ∨ d = c := by
    intro i d hd
    rw [Replicator.addCall, getElem?_append] at hd
    split at hd
    · exact .inl hd
    · exact .inr (mem_singleton.mp (mem_of_getElem? hd))
  refine ⟨h.pending, ?_, h.notifications, h.responses, h.handled, ?_, ?_⟩
  · intro tr htr
    obtain ⟨d, hd, hrest⟩ := h.requests tr htr
    exact ⟨d, getElem?_append_of_some hd, hrest⟩
  · intro i d hd
    obtain hd | rfl := hcalls i d hd
    · exact h.targets i d hd
    · exact ⟨hwaiting, htargets⟩
  · intro i d hd hsucceeded
    obtain hd | rfl := hcalls i d hd
    · exact h.applied i d hd hsucceeded
    · exact absurd hsucceeded hopen

/-- A request is published for a call that has the peer as a target. -/
theorem Traced.track (h : Traced allowed r) (hc : r.calls[tr.call]? = some c)
    (hnotify : c.notify = tr.notify) (hpeer : tr.peerID ∈ c.targets) : Traced allowed (r.track tr) := by
  have hupdated : Traced allowed (r.updateFuture tr.call (fun f => { f with expected := f.expected + 1 })) :=
    h.updateFuture (fun d hd hkind hsucceeded => h.applied tr.call d hd ⟨hkind, hsucceeded⟩)
  refine ⟨?_, ?_, ?_, ?_, hupdated.handled, hupdated.targets, hupdated.applied⟩
  · intro hzero
    rcases Finset.mem_insert.mp hzero with hzero | hzero
    · omega
    · exact h.pending hzero
  · intro tr' htr'
    rcases mem_append.mp htr' with htr' | htr'
    · exact hupdated.requests tr' htr'
    · obtain rfl := mem_singleton.mp htr'
      refine ⟨{ c with future := { c.future with expected := c.future.expected + 1 } }, ?_, hnotify, hpeer⟩
      simp [Replicator.track, Replicator.updateFuture, hc]
  · intro p hp
    refine (h.notifications p hp).imp_right ?_
    rintro ⟨tr', htr', hrest⟩
    exact ⟨tr', getElem?_append_of_some htr', hrest⟩
  · intro p hp
    refine (h.responses p hp).imp_right ?_
    rintro ⟨tr', reply, htr', hrest⟩
    exact ⟨tr', reply, getElem?_append_of_some htr', hrest⟩

theorem succeeded_of_reject (hsucceeded : (f.reject err).Succeeded) : f.Succeeded := by
  unfold reject at hsucceeded
  split at hsucceeded
  · exact hsucceeded
  · exact nomatch hsucceeded.2

theorem succeeded_of_drop (hsucceeded : (f.drop err).Succeeded) : f.Succeeded := by
  unfold ReplicationFuture.drop at hsucceeded
  dsimp only at hsucceeded
  split at hsucceeded
  · have hopen := succeeded_of_reject hsucceeded
    exact hopen
  · exact hsucceeded

theorem succeeded_of_finish (hsucceeded : f.finish.Succeeded) : f.Succeeded := by
  unfold finish at hsucceeded
  dsimp only at hsucceeded
  split at hsucceeded
  · have hopen := succeeded_of_reject hsucceeded
    exact hopen
  · exact hsucceeded

theorem loadPending_eq_some {requestID : Nat} (hload : r.loadPending requestID = some tr) :
    requestID ∈ r.pending ∧ r.requests[requestID - 1]? = some tr := by
  unfold loadPending at hload
  split at hload
  · exact ⟨‹_›, hload⟩
  · cases hload

/-- A response that resolves a pending request comes from a peer that took its effect. -/
theorem Traced.applied_of_response (h : Traced allowed r)
    (hallowed : ∀ reply, allowed reply → reply.accepted = true ∨ reply.refused = true)
    (hp : p ∈ r.responses) (hload : r.loadPending p.requestID = some tr)
    (hresolves : p.status ≠ 1 ∨ ¬ (¬ p.nacks.isEmpty ∧ p.nacks.all notSubscribed))
    (hc : r.calls[tr.call]? = some c) (hkind : c.kind = .replicate) : r.Applied c := by
  obtain ⟨hpending, hrequest⟩ := loadPending_eq_some hload
  have hzero : p.requestID ≠ 0 := fun hzero => h.pending (hzero ▸ hpending)
  obtain ⟨tr', reply, htr', hhandled, hnacks, hstatus⟩ := (h.responses p hp).resolve_left hzero
  cases hrequest.symm.trans htr'
  obtain ⟨c', hc', hnotify, hpeer⟩ := h.requests tr (mem_of_getElem? hrequest)
  cases hc.symm.trans hc'
  have hnot : reply.refused ≠ true := by
    intro hrefused
    simp only [Reply.refused, Bool.and_eq_true, Bool.not_eq_true'] at hrefused
    simp only [hrefused.1, Bool.false_eq_true, if_false] at hstatus
    rw [hnacks, hrefused.1] at hresolves
    simp [hstatus, hrefused.2] at hresolves
  refine ⟨_, hhandled, (h.targets _ c hc).2 hkind _ hpeer, hnotify.symm, ?_⟩
  exact (hallowed reply (h.handled _ hhandled)).resolve_right hnot

theorem Traced.handleResponse (h : Traced allowed r)
    (hallowed : ∀ reply, allowed reply → reply.accepted = true ∨ reply.refused = true)
    (hp : p ∈ r.responses) : Traced allowed (if p.status = 1 then r.handleNotifyACKWithData p.requestID p.nacks
      else r.handleNotifyACK p.requestID) := by
  split
  · unfold handleNotifyACKWithData
    cases hload : r.loadPending p.requestID with
    | none => exact h
    | some tr =>
      refine (h.delete p.requestID).updateFuture ?_
      intro c hc hkind hsucceeded
      dsimp only at hsucceeded
      split at hsucceeded
      · have hdropped := succeeded_of_drop hsucceeded
        refine h.applied tr.call c hc ⟨hkind, ?_⟩
        split at hdropped <;> exact hdropped
      · rename_i hresolves
        exact h.applied_of_response hallowed hp hload (.inr hresolves) hc hkind
  · rename_i hstatus
    unfold handleNotifyACK
    cases hload : r.loadPending p.requestID with
    | none => exact h
    | some tr =>
      refine (h.delete p.requestID).updateFuture ?_
      intro c hc hkind _
      exact h.applied_of_response hallowed hp hload (.inl hstatus) hc hkind

theorem Traced.replicate (h : Traced allowed r) (notify : OffsetNotify) (alive : Finset NodeID)
    (marshals : Bool) : Traced allowed (r.replicate notify alive marshals) := by
  have hcross : Traced allowed (r.startCrossRegion notify) := by
    unfold startCrossRegion
    split
    · exact h
    · exact h.addCall (Finset.Subset.refl _) (fun hkind => nomatch hkind) (fun hsucceeded => nomatch hsucceeded.1)
  have hregion : (r.startCrossRegion notify).localRegion = r.localRegion := by
    unfold startCrossRegion
    split <;> rfl
  have hrejected : ∀ err, ¬ succeeded
      { kind := .replicate, notify := notify, regions := r.peerRegions, future := reject {} err } :=
    fun err hsucceeded => nomatch hsucceeded.2.2
  unfold Replicator.replicate
  dsimp only
  split
  · exact h.addCall (Finset.Subset.refl _) (fun _ _ hpeer => absurd hpeer (Finset.notMem_empty _)) (hrejected _)
  · split
    · exact h.addCall (Finset.Subset.refl _) (fun _ _ hpeer => absurd hpeer (Finset.notMem_empty _)) (hrejected _)
    · split
      · exact hcross.addCall (Finset.Subset.refl _) (fun _ _ hpeer => absurd hpeer (Finset.notMem_empty _))
          (hrejected _)
      · refine hcross.addCall (Finset.Subset.refl _) ?_ (fun hsucceeded => nomatch hsucceeded.2.1)
        intro _ peer hpeer
        rw [hregion]
        exact (Finset.mem_filter.mp hpeer).2.1

theorem Traced.register (h : Traced allowed r) {call : Nat} {peer : NodeID}
    {kind : CallKind} (hregister : r.register call peer kind = some s) : Traced allowed s := by
  obtain ⟨c, hc, hregister⟩ := bind_eq_some_iff.mp hregister
  split at hregister
  · rename_i hwaiting
    cases hregister
    have hcalls : r.calls.modify call (fun c => { c with waiting := c.waiting.erase peer }) =
        r.calls.set call { c with waiting := c.waiting.erase peer } := by
      rw [modify_eq_set_getElem?, hc]
      rfl
    have hset := @Traced.modify _ _ h call (fun c => { c with waiting := c.waiting.erase peer })
      (fun _ => ⟨rfl, Finset.erase_subset _ _⟩) (h.applied call)
    rw [hcalls] at hset
    exact hset.track (getElem?_set_self (List.getElem?_eq_some_iff.mp hc).1) rfl
      ((h.targets call c hc).1 hwaiting.2)
  · cases hregister

theorem Traced.notify (h : Traced allowed r) {p : NotifyPacket} (hp : p.requestID = 0 ∨
    ∃ tr, r.requests[p.requestID - 1]? = some tr ∧ tr.peerID = p.peer ∧ tr.notify = p.notify) :
    Traced allowed { r with notifications := r.notifications ++ [p] } := by
  refine ⟨h.pending, h.requests, fun q hq => ?_, h.responses, h.handled, h.targets, h.applied⟩
  obtain hq | hq := mem_append.mp hq
  · exact h.notifications q hq
  · exact mem_singleton.mp hq ▸ hp

theorem Traced.handleNotify (h : Traced allowed r) {p : NotifyPacket} (hp : p ∈ r.notifications) {reply : Reply}
    (hreply : allowed reply) : Traced allowed (r.handleNotify p reply) := by
  refine ⟨h.pending, h.requests, h.notifications, ?_, ?_, h.targets, ?_⟩
  · intro q hq
    obtain hq | hq := mem_append.mp hq
    · refine (h.responses q hq).imp_right ?_
      rintro ⟨tr, reply', htr, hhandled, hrest⟩
      exact ⟨tr, reply', htr, mem_append_left _ hhandled, hrest⟩
    · obtain rfl := mem_singleton.mp hq
      refine (h.notifications p hp).imp_right ?_
      rintro ⟨tr, htr, hpeer, hnotify⟩
      refine ⟨tr, reply, htr, ?_, rfl, rfl⟩
      rw [hpeer, hnotify]
      exact mem_append_right _ (mem_singleton_self _)
  · intro handled hhandled
    obtain hhandled | hhandled := mem_append.mp hhandled
    · exact h.handled handled hhandled
    · obtain rfl := mem_singleton.mp hhandled
      exact hreply
  · intro i c hc hsucceeded
    obtain ⟨handled, hhandled, hrest⟩ := h.applied i c hc hsucceeded
    exact ⟨handled, mem_append_left _ hhandled, hrest⟩

theorem Traced.step
    (hallowed : ∀ reply, allowed reply → reply.accepted = true ∨ reply.refused = true)
    (h : Traced allowed r) {a : Action} (ha : ∀ packet reply, a = .handleNotify packet reply → allowed reply)
    (hstep : r.step a = some s) : Traced allowed s := by
  cases a with
  | addPeer peer region =>
    cases hstep
    exact ⟨h.pending, h.requests, h.notifications, h.responses, h.handled, h.targets, h.applied⟩
  | removePeer peer =>
    cases hstep
    exact ⟨h.pending, h.requests, h.notifications, h.responses, h.handled, h.targets, h.applied⟩
  | replicate notify alive marshals =>
    cases hstep
    exact h.replicate notify alive marshals
  | register call peer => exact h.register hstep
  | finish call =>
    obtain ⟨c, hc, hstep⟩ := bind_eq_some_iff.mp hstep
    split at hstep
    · cases hstep
      exact h.updateFuture (fun d hd hkind hsucceeded => h.applied call d hd ⟨hkind, succeeded_of_finish hsucceeded⟩)
    · cases hstep
  | sendCrossRegion call peer => exact h.register hstep
  | replicateTo notify peer =>
    cases hstep
    have hadded := h.addCall
      (c := { kind := .replicateTo, notify := notify, targets := {peer}, future := { setupDone := true } })
      (Finset.empty_subset _) (fun hkind => nomatch hkind) (fun hsucceeded => nomatch hsucceeded.1)
    exact hadded.track getElem?_concat_length rfl (Finset.mem_singleton_self peer)
  | sendOneWay notify peer =>
    cases hstep
    exact h.notify (.inl rfl)
  | send requestID =>
    simp only [Replicator.step] at hstep
    split at hstep
    · cases hstep
    · obtain ⟨tr, htr, rfl⟩ := map_eq_some_iff.mp hstep
      exact h.notify (.inr ⟨tr, htr, rfl, rfl⟩)
  | sendFailed requestID =>
    obtain ⟨tr, htr, hstep⟩ := bind_eq_some_iff.mp hstep
    split at hstep
    · cases hstep
    · cases hstep
      exact h.delete requestID
  | handleNotify packet reply =>
    obtain ⟨p, hp, rfl⟩ := map_eq_some_iff.mp hstep
    exact h.handleNotify (mem_of_getElem? hp) (ha packet reply rfl)
  | handleResponse packet =>
    obtain ⟨p, hp, rfl⟩ := map_eq_some_iff.mp hstep
    exact h.handleResponse hallowed (mem_of_getElem? hp)
  | giveUp requestID =>
    obtain ⟨tr, htr, hstep⟩ := bind_eq_some_iff.mp hstep
    split at hstep
    · cases hstep
      exact (h.delete requestID).updateFuture
        (fun c hc hkind hsucceeded => h.applied tr.call c hc ⟨hkind, succeeded_of_drop hsucceeded⟩)
    · cases hstep
  | expire requestID =>
    obtain ⟨tr, htr, hstep⟩ := bind_eq_some_iff.mp hstep
    split at hstep
    · cases hstep
    · cases hstep
      exact (h.delete requestID).updateFuture
        (fun c hc hkind hsucceeded => h.applied tr.call c hc ⟨hkind, succeeded_of_reject hsucceeded⟩)
  | stop =>
    cases hstep
    exact ⟨h.pending, h.requests, h.notifications, h.responses, h.handled, h.targets, h.applied⟩

theorem Traced.run {localRegion : Bytes}
    (hallowed : ∀ reply, allowed reply → reply.accepted = true ∨ reply.refused = true)
    (hrun : Run allowed (initial localRegion) s) : Traced allowed s :=
  hrun.invariant (traced_initial allowed localRegion) (fun h ha hstep => h.step hallowed ha hstep)

/-- A sender with one peer, in its own region. -/
private def onePeer : Replicator :=
  { localRegion := localRegion, peerRegions := Finmap.insert 2 localRegion ∅ }

theorem replicate_onePeer (notify : OffsetNotify) : (onePeer localRegion).replicate notify {2} true =
      { onePeer localRegion with
        calls := [{ kind := .replicate, notify := notify, regions := Finmap.insert 2 localRegion ∅, targets := {2},
                    waiting := {2} }] } := by
  have halive : (onePeer localRegion).aliveSymmetricPeers {2} = {2} := by
    ext peer
    simp only [aliveSymmetricPeers, onePeer, Finset.mem_filter, Finmap.mem_keys, Finmap.mem_insert,
      Finset.mem_singleton]
    constructor
    · exact fun hpeer => hpeer.2.2
    · rintro rfl
      exact ⟨.inl rfl, Finmap.lookup_insert _, rfl⟩
  have hcross : (onePeer localRegion).crossRegionPeers = ∅ := by
    rw [crossRegionPeers, Finset.filter_eq_empty_iff]
    intro peer hpeer
    obtain rfl | hpeer := Finmap.mem_insert.mp (Finmap.mem_keys.mp hpeer)
    · exact not_not.mpr (Finmap.lookup_insert _)
    · exact absurd hpeer Finmap.notMem_empty
  unfold replicate
  simp only [halive, startCrossRegion, hcross, if_true, Finset.singleton_ne_empty, false_and, if_false,
    not_true_eq_false]
  rfl

/-- The run in which one peer answers a `Replicate` with the given reply. -/
theorem exists_run_of_reply (notify : OffsetNotify)
    (reply : Reply) (hreply : allowed reply) (hresolves : reply.refused = false) :
    ∃ s, Run allowed (initial localRegion) s ∧ s.handled = [⟨2, notify, reply⟩] ∧ ∃ c ∈ s.calls, succeeded c := by
  have hstart : Run allowed (initial localRegion) (onePeer localRegion) :=
    .next (a := .addPeer 2 localRegion) .start nofun rfl
  have hreplicate := hstart.next (a := .replicate notify {2} true) nofun
    (congrArg some (replicate_onePeer localRegion notify))
  have hregister := hreplicate.next (a := .register 0 2) nofun rfl
  have hsend := hregister.next (a := .send 1) nofun rfl
  have hhandle := hsend.next (a := .handleNotify 0 reply) (by rintro packet reply' ⟨⟩; exact hreply) rfl
  obtain ⟨nacks, err⟩ := reply
  cases nacks with
  | nil => exact ⟨_, hhandle.next (a := .handleResponse 0) nofun rfl, rfl, _, mem_singleton_self _, rfl, rfl, rfl⟩
  | cons nack nacks =>
    have hresolve : ∀ f : ReplicationFuture,
        (if ¬ (nack :: nacks).isEmpty ∧ (nack :: nacks).all notSubscribed then
          f.drop .allPeersNotSubscribed else f.resolve) = f.resolve := by
      intro f
      rw [if_neg]
      simpa [Reply.refused] using hresolves
    refine ⟨_, hhandle.next (a := .handleResponse 0) nofun rfl, rfl, _, mem_singleton_self _, rfl, ?_⟩
    change ReplicationFuture.Succeeded (if _ then _ else _)
    rw [hresolve]
    exact ⟨rfl, rfl⟩

/-- A completed `Replicate` was applied by a same-region peer in every run exactly if every
handler that does not take the effect answers with NotSubscribed NACKs only. -/
theorem first_ack_applied_iff (allowed : Reply → Prop) (localRegion : Bytes) :
    (∀ s, Run allowed (initial localRegion) s → ∀ c ∈ s.calls, succeeded c → s.Applied c) ↔
      ∀ reply, allowed reply → reply.accepted = true ∨ reply.refused = true := by
  constructor
  · intro hsafe reply hreply
    by_contra hneither
    rw [not_or, Bool.not_eq_true, Bool.not_eq_true] at hneither
    obtain ⟨s, hrun, hhandled, c, hc, hsucceeded⟩ :=
      exists_run_of_reply localRegion ⟨.zero, [], []⟩ reply hreply hneither.2
    obtain ⟨handled, hmem, -, -, haccepted⟩ := hsafe s hrun c hc hsucceeded
    rw [hhandled, mem_singleton] at hmem
    rw [hmem, hneither.1] at haccepted
    exact Bool.noConfusion haccepted
  · intro hallowed s hrun c hc
    obtain ⟨i, hi⟩ := mem_iff_getElem?.mp hc
    exact (Traced.run hallowed hrun).applied i c hi

/-- The only peer fails on the effect, and `Replicate` succeeds. -/
theorem first_ack_of_failed_handler : ∃ s, Run (fun _ => True) (initial []) s ∧ (∀ h ∈ s.handled, h.reply.err = true) ∧
      ∃ c ∈ s.calls, succeeded c ∧ ¬ s.Applied c := by
  obtain ⟨s, hrun, hhandled, c, hc, hsucceeded⟩ :=
    @exists_run_of_reply (fun _ => True) [] ⟨.zero, [107], [1]⟩ { err := true } trivial rfl
  refine ⟨s, hrun, ?_, c, hc, hsucceeded, ?_⟩
  · intro h hh
    rw [hhandled, mem_singleton] at hh
    rw [hh]
  · rintro ⟨h, hh, -, -, haccepted⟩
    rw [hhandled, mem_singleton] at hh
    rw [hh] at haccepted
    exact Bool.noConfusion haccepted

end Replicator

end swytch.cluster
