import Swytch.Proto.Replication

open swytch.proto List

namespace swytch.cluster

/-- What the cloud answers for one key, which it knows by a name. -/
structure KeyTips where
  key : Bytes
  tips : List EffectRef

def cloudReconcileBatch : Nat := 256

/-- Where `reconcileLoop` stands: the keys still to ask for, a request in flight, answers
that are left, or an answer that was complete and whose key is to be cleared. -/
inductive ReconcileLoop where
  | batches (keys : List Bytes)
  | asked (batch keys : List Bytes)
  | answered (batch : List Bytes) (answers : List KeyTips) (keys : List Bytes)
  | clearing (key : Bytes) (batch : List Bytes) (answers : List KeyTips) (keys : List Bytes)

/-- The keys that reads have marked, and the loop that asks the cloud for them again. -/
structure CloudSync where
  reconcile : Finset Bytes := ∅
  loop : ReconcileLoop := .batches []

/-- The steps of reads and of the loop. `reconcileKeys` ranges over the marked keys in any
order, a request can fail, and so can `InstallCloudTips`, which returns the pending tips. -/
inductive ReconcileEvent where
  | markPending (key : Bytes)
  | reconcileKeys (keys : List Bytes)
  | getTips
  | response (answers : Option (List KeyTips))
  | install (pending : Option (List EffectRef))
  | clearReconcile
  | endBatch

variable (name : Bytes → Bytes)

/-- The key of a batch that has a name; the last one if two have it. -/
def byName (batch : List Bytes) (n : Bytes) : Option Bytes :=
  batch.reverse.find? (fun key => name key = n)

namespace CloudSync

variable (s : CloudSync)

def step : ReconcileEvent → Option CloudSync
  | .markPending key => some { s with reconcile := insert key s.reconcile }
  | .reconcileKeys keys =>
    match s.loop with
    | .batches [] => if keys.Nodup ∧ keys.toFinset = s.reconcile then some { s with loop := .batches keys } else none
    | _ => none
  | .getTips =>
    match s.loop with
    | .batches (key :: keys) =>
      some { s with
        loop := .asked ((key :: keys).take cloudReconcileBatch) ((key :: keys).drop cloudReconcileBatch) }
    | _ => none
  | .response answers =>
    match s.loop with
    | .asked batch keys => some { s with loop := answers.elim (.batches keys) (.answered batch · keys) }
    | _ => none
  | .install pending =>
    match s.loop with
    | .answered batch (kt :: answers) keys =>
      match byName name batch kt.key with
      | some key =>
        if kt.tips = [] ∨ pending = some [] then some { s with loop := .clearing key batch answers keys }
        else some { s with loop := .answered batch answers keys }
      | none => some { s with loop := .answered batch answers keys }
    | _ => none
  | .clearReconcile =>
    match s.loop with
    | .clearing key batch answers keys =>
      some { reconcile := s.reconcile.erase key, loop := .answered batch answers keys }
    | _ => none
  | .endBatch =>
    match s.loop with
    | .answered _ [] keys => some { s with loop := .batches keys }
    | _ => none

def run (events : List ReconcileEvent) : Option CloudSync :=
  events.foldlM (step name) s

/-- The keys of the request that the loop works on. -/
def inFlight : List Bytes :=
  match s.loop with
  | .batches _ => []
  | .asked batch _ => batch
  | .answered batch _ _ => batch
  | .clearing key batch _ _ => key :: batch

/-- The loop comes to an answer for a key: the cloud has nothing, or all was installed. -/
def Settles (key : Bytes) (pending : Option (List EffectRef)) : Prop :=
  ∃ batch kt answers keys, s.loop = .answered batch (kt :: answers) keys ∧ byName name batch kt.key = some key ∧
    (kt.tips = [] ∨ pending = some [])

variable {name : Bytes → Bytes} {s t t' : CloudSync} {key : Bytes} {e : ReconcileEvent} {es : List ReconcileEvent}

/-- A request was sent, and it is the last one. -/
def Asked (es : List ReconcileEvent) : Prop :=
  ∃ before after, es = before ++ .getTips :: after ∧ .getTips ∉ after

/-- A request was sent, and its answer settled a key. -/
def Settled (name : Bytes → Bytes) (s : CloudSync) (key : Bytes) (es : List ReconcileEvent) : Prop :=
  ∃ before after pending rest u, es = before ++ .getTips :: after ++ .install pending :: rest ∧ .getTips ∉ after ∧
    s.run name (before ++ .getTips :: after) = some u ∧ u.Settles name key pending

theorem Asked.append (h : Asked es) (he : e ≠ .getTips) : Asked (es ++ [e]) := by
  obtain ⟨before, after, rfl, hlast⟩ := h
  refine ⟨before, after ++ [e], by simp, ?_⟩
  rw [mem_append, mem_singleton, not_or]
  exact ⟨hlast, he.symm⟩

/-- The mark of a key stands, and a request for it that is in flight was sent after it. -/
structure Kept (key : Bytes) (es : List ReconcileEvent) (t : CloudSync) : Prop where
  marked : key ∈ t.reconcile
  asked : key ∈ t.inFlight → Asked es
  stays : ∀ batch answers keys, t.loop ≠ .clearing key batch answers keys

theorem Kept.step (h : Kept key es t) (hrun : s.run name es = some t) (hstep : t.step name e = some t') :
    s.Settled name key (es ++ [e]) ∨ Kept key (es ++ [e]) t' := by
  obtain ⟨hmarked, hasked, hstays⟩ := h
  obtain ⟨reconcile, loop⟩ := t
  cases e with
  | markPending key' =>
    cases hstep
    exact .inr ⟨Finset.mem_insert_of_mem hmarked, fun hflight => (hasked hflight).append (by simp), hstays⟩
  | reconcileKeys keys =>
    simp only [CloudSync.step] at hstep
    split at hstep
    · split at hstep <;> cases hstep
      exact .inr ⟨hmarked, by simp [inFlight], by simp⟩
    · cases hstep
  | getTips =>
    simp only [CloudSync.step] at hstep
    split at hstep <;> cases hstep
    exact .inr ⟨hmarked, fun _ => ⟨es, [], rfl, not_mem_nil⟩, by simp⟩
  | response answers =>
    simp only [CloudSync.step] at hstep
    split at hstep <;> cases hstep
    cases answers with
    | none => exact .inr ⟨hmarked, by simp [inFlight], by simp⟩
    | some answers => exact .inr ⟨hmarked, fun hflight => (hasked hflight).append (by simp), by simp⟩
  | install pending =>
    simp only [CloudSync.step] at hstep
    split at hstep
    · rename_i batch kt answers keys
      have hkept : Kept key (es ++ [.install pending]) ⟨reconcile, .answered batch answers keys⟩ :=
        ⟨hmarked, fun hflight => (hasked hflight).append (by simp), by simp⟩
      split at hstep
      · rename_i key' hname
        split at hstep <;> cases hstep
        · rename_i hcomplete
          by_cases hkey : key' = key
          · subst hkey
            obtain ⟨before, after, rfl, hlast⟩ := hasked (mem_reverse.mp (mem_of_find?_eq_some hname))
            exact .inl ⟨before, after, pending, [], _, rfl, hlast, hrun, batch, kt, answers, keys,
              rfl, hname, hcomplete⟩
          · refine .inr ⟨hmarked, fun hflight => hkept.asked ?_, by simp [hkey]⟩
            exact (mem_cons.mp hflight).resolve_left (Ne.symm hkey)
        · exact .inr hkept
      · cases hstep
        exact .inr hkept
    · cases hstep
  | clearReconcile =>
    simp only [CloudSync.step] at hstep
    split at hstep <;> cases hstep
    rename_i key' batch answers keys
    have hne : key ≠ key' := fun heq => hstays batch answers keys (by rw [heq])
    exact .inr ⟨Finset.mem_erase.mpr ⟨hne, hmarked⟩,
      fun hflight => (hasked (mem_cons_of_mem _ hflight)).append (by simp), by simp⟩
  | endBatch =>
    simp only [CloudSync.step] at hstep
    split at hstep <;> cases hstep
    exact .inr ⟨hmarked, by simp [inFlight], by simp⟩

/-- A key that is marked while no request for it is in flight stays marked until a request
that is sent afterwards is answered for it, with no tips or with tips that are installed
completely. -/
theorem markPending_kept (hidle : key ∉ s.inFlight) (hrun : s.run name (.markPending key :: es) = some t) :
    key ∈ t.reconcile ∨ s.Settled name key (.markPending key :: es) := by
  suffices s.Settled name key (.markPending key :: es) ∨ Kept key (.markPending key :: es) t from
    this.symm.imp_left Kept.marked
  induction es using reverseRecOn generalizing t with
  | nil =>
    obtain rfl := Option.some.inj hrun
    refine .inr ⟨Finset.mem_insert_self .., fun hflight => absurd hflight hidle, fun batch answers keys heq => hidle ?_⟩
    rw [inFlight, show s.loop = _ from heq]
    exact mem_cons_self
  | append_singleton es e ih =>
    obtain ⟨u, hu, hstep⟩ : ∃ u, s.run name (.markPending key :: es) = some u ∧ u.step name e = some t := by
      rw [← cons_append, CloudSync.run, foldlM_append, Option.bind_eq_bind, Option.bind_eq_some_iff] at hrun
      simpa [CloudSync.run] using hrun
    obtain ⟨before, after, pending, rest, v, hes, hlast, hv, hsettles⟩ | hkept := ih hu
    · exact .inl ⟨before, after, pending, rest ++ [e], v, by rw [← cons_append, hes]; simp, hlast, hv,
        hsettles⟩
    · exact hkept.step hu hstep

theorem markPending_kept_tick :
    ∃ t, run id {} [.markPending [107], .reconcileKeys [[107]], .getTips, .response none] = some t ∧
      [107] ∈ t.reconcile := by
  refine ⟨⟨{[107]}, .batches []⟩, rfl, ?_⟩
  obtain hmem | ⟨before, after, pending, rest, u, hes, -⟩ := @markPending_kept id {} ⟨{[107]}, .batches []⟩ [107]
    [.reconcileKeys [[107]], .getTips, .response none] not_mem_nil rfl
  · exact hmem
  · have hinstall : ReconcileEvent.install pending ∈ before ++ .getTips :: after ++ .install pending :: rest := by simp
    simp [← hes] at hinstall

/-- A mark between a request and its answer is lost with the older one: the answer clears the
key, and no request is sent after the mark. -/
theorem markPending_lost_in_flight : ∃ s t, run id {} [.markPending [107], .reconcileKeys [[107]], .getTips] = some s ∧
      s.run id [.markPending [107], .response (some [⟨[107], []⟩]), .install none, .clearReconcile] = some t ∧
      [107] ∉ t.reconcile :=
  ⟨⟨{[107]}, .asked [[107]] []⟩, ⟨∅, .answered [[107]] [] []⟩, rfl, rfl, Finset.notMem_empty _⟩

end CloudSync

end swytch.cluster
