import Swytch.Durability.Recover

namespace swytch.durability

open swytch.lib swytch.proto Function List Store System

/-- What the store is for: the payloads that were put and not deleted since, and those of
them a sync has reached. -/
structure Spec where
  contents : ID → Option Bytes
  durable : ID → Option Bytes

/-- Repeated IDs are idempotent. -/
def Spec.put (m : Spec) (id : ID) (data : Bytes) : Spec :=
  if (m.contents id).isSome then m else { m with contents := update m.contents id (some data) }

def Spec.delete (m : Spec) (id : ID) : Spec :=
  ⟨update m.contents id none, update m.durable id none⟩

def Spec.sync (m : Spec) (b : BucketID) : Spec :=
  { m with durable := fun id => if id.bucketID = b then m.contents id else m.durable id }

/-- A call on the store. The two halves of a sync may have other calls between them; a
restart is `Close` and `Open`, each with its order of the buckets. -/
inductive Action where
  | put (id : ID) (data : Bytes)
  | delete (id : ID)
  | sync (b : BucketID)
  | punch (b : BucketID)
  | restart (closing opening : RangeOrder BucketID)

/-- The store beside what it has to have. -/
structure System where
  store : Store
  spec : Spec

def System.start : System := ⟨∅, ⟨fun _ => none, fun _ => none⟩⟩

/-- One call; the error is that of a start that fails. A `Put` that returns an error has not
put its payload. -/
def System.step (env : Env) (s : System) : Action → Except String System
  | .put id data =>
    .ok ⟨(s.store.put env id data).1, if (s.store.put env id data).2 = none then s.spec.put id data else s.spec⟩
  | .delete id => .ok ⟨s.store.delete id, s.spec.delete id⟩
  | .sync b => .ok ⟨s.store.sync b, s.spec.sync b⟩
  | .punch b => .ok ⟨s.store.punch b, s.spec⟩
  | .restart closing opening =>
    ((s.store.close closing).openFiles env opening).map fun store => ⟨store, { s.spec with durable := s.spec.contents }⟩

def System.run (env : Env) (actions : List Action) : Except String System :=
  actions.foldlM (step env) start

variable (m : ID → Option Bytes)

/-- The part of a map that belongs to a bucket. -/
def restrict (b : BucketID) (o : UInt64) : Option Bytes :=
  if (⟨b.node, o⟩ : ID).bucketID = b then m ⟨b.node, o⟩ else none

theorem restrict_update (id : ID) (v : Option Bytes) :
    restrict (update m id v) id.bucketID = update (restrict m id.bucketID) id.offset v := by
  funext o
  unfold restrict
  by_cases ho : o = id.offset
  · subst ho
    rw [update_self]
    exact (if_pos rfl).trans (update_self _ _ _)
  · have hne : (⟨id.bucketID.node, o⟩ : ID) ≠ id := fun heq => ho (congrArg ID.offset heq)
    rw [update_of_ne ho, update_of_ne hne]

theorem restrict_update_of_ne {id : ID} {b : BucketID} (hne : b ≠ id.bucketID)
    (v : Option Bytes) : restrict (update m id v) b = restrict m b := by
  funext o
  unfold restrict
  split
  · rename_i hb
    have hid : (⟨b.node, o⟩ : ID) ≠ id := fun heq => hne (by rw [← hb, heq])
    rw [update_of_ne hid]
  · rfl

theorem restrict_bucketID (id : ID) : restrict m id.bucketID id.offset = m id := if_pos rfl

/-- A bucket whose file is not closed: it is open or has no file. -/
def Bucket.Ready (b : Bucket) : Prop := ∀ f, b.medium ≠ .closed f

/-- Every bucket stands with its part of what the store has to have. -/
def System.Inv (env : Env) (s : System) : Prop :=
  ∀ b, (s.store.get b).Inv env b (restrict s.spec.contents b) (restrict s.spec.durable b) ∧
    (s.store.get b).Ready

theorem Store.get_insert_self (s : Store) (b : BucketID) (bucket : Bucket) : get (s.insert b bucket) b = bucket := by
  rw [get, Finmap.lookup_insert]
  rfl

theorem Store.get_insert_of_ne (s : Store) {b b' : BucketID} (hne : b' ≠ b) (bucket : Bucket) :
    get (s.insert b bucket) b' = s.get b' := by
  rw [get, Finmap.lookup_insert_of_ne _ hne]
  rfl

variable {b : Bucket} {env : Env} {s : System} {contents durable : UInt64 → Option Bytes}

/-- A call on one bucket keeps the others. -/
theorem System.Inv.on_bucket {b : BucketID} {bucket : Bucket} {spec : Spec} (h : s.Inv env)
    (hbucket : bucket.Inv env b (restrict spec.contents b) (restrict spec.durable b) ∧ bucket.Ready)
    (hother : ∀ b', b' ≠ b → restrict spec.contents b' = restrict s.spec.contents b' ∧
      restrict spec.durable b' = restrict s.spec.durable b') : System.Inv env ⟨s.store.insert b bucket, spec⟩ := by
  intro b'
  dsimp only
  by_cases hb : b' = b
  · subst hb
    rw [get_insert_self]
    exact hbucket
  · rw [get_insert_of_ne _ hb, (hother b' hb).1, (hother b' hb).2]
    exact h b'

theorem Bucket.Ready.reserve {b' : Bucket} {offset : UInt64} {data : Bytes}
    (hreserve : b.reserve offset data = some b') : b'.Ready := by
  intro f hclosed
  unfold Bucket.reserve at hreserve
  cases hmedium : b.medium with
  | missing =>
    rw [hmedium] at hreserve
    cases hreserve
  | closed f =>
    rw [hmedium] at hreserve
    cases hreserve
  | mapped f x =>
    rw [hmedium] at hreserve
    dsimp only at hreserve
    split at hreserve
    · cases hreserve
      rw [hmedium] at hclosed
      cases hclosed
    · split at hreserve
      · split at hreserve
        · cases hreserve
          cases hclosed
        · cases hreserve
      · cases hreserve

variable {id : BucketID} {bs : List BucketID}

theorem Bucket.Ready.prepare (h : b.Inv env id contents durable) (hblock : BlockSize env env.block) (data : Bytes) :
    (b.prepare env id data).1.Ready := by
  obtain ⟨b₁, f, x, hopen, hmedium, -⟩ := h.openOrCreate hblock
  intro g hclosed
  unfold Bucket.prepare at hclosed
  rw [hopen] at hclosed
  dsimp only at hclosed
  rw [hmedium] at hclosed
  dsimp only at hclosed
  split at hclosed
  · rw [hmedium] at hclosed
    cases hclosed
  · cases hclosed

theorem Bucket.Ready.put (h : b.Inv env id contents durable) (hblock : BlockSize env env.block) (offset : UInt64)
    (data : Bytes) : (b.put env id offset data).1.Ready := by
  obtain ⟨b', hreserve, hput⟩ | ⟨b₁, failure, hprepare, ⟨-, -, hput⟩ | ⟨b₂, hreserve, hput⟩⟩ :=
    h.put_cases hblock offset data
  · rw [hput]
    exact Bucket.Ready.reserve hreserve
  · have hready := Bucket.Ready.prepare h hblock data
    rwa [hput, ← hprepare]
  · rw [hput]
    exact Bucket.Ready.reserve hreserve

theorem Bucket.Ready.delete (h : b.Ready) (offset : UInt64) : (b.delete offset).Ready := by
  intro f hclosed
  unfold Bucket.delete at hclosed
  split at hclosed
  · split at hclosed
    · exact h f hclosed
    · split at hclosed <;> cases hclosed
  · exact h f hclosed

theorem Bucket.Ready.punch (h : b.Ready) : b.punch.Ready := by
  intro f hclosed
  unfold Bucket.punch at hclosed
  split at hclosed
  · exact h f hclosed
  · split at hclosed
    · split at hclosed
      · cases hclosed
      · exact h f hclosed
    · exact h f hclosed

theorem Bucket.Ready.sync (h : b.Ready) : b.sync.Ready := by
  intro f hclosed
  unfold Bucket.sync at hclosed
  dsimp only at hclosed
  split at hclosed
  · split at hclosed
    · exact h.punch f hclosed
    · cases hclosed
  · exact h.punch f hclosed

theorem System.inv_start (env : Env) : start.Inv env := by
  intro b
  have hget : start.store.get b = {} := by
    rw [start, Store.get, Finmap.lookup_empty]
    rfl
  have hnone : ∀ o, restrict start.spec.contents b o = none := fun o => ite_self _
  rw [hget]
  exact ⟨⟨⟨hnone, hnone⟩, fun c hc => (by cases hc), fun h hh => absurd hh not_mem_nil⟩, fun f hf => (by cases hf)⟩

theorem restrict_put (m : Spec) (id : ID) (data : Bytes) :
    restrict (m.put id data).contents id.bucketID = putContents (restrict m.contents id.bucketID) id.offset data := by
  unfold Spec.put putContents
  rw [restrict_bucketID]
  split
  · rfl
  · exact restrict_update m.contents id (some data)

theorem restrict_put_of_ne (m : Spec) {id : ID} {b : BucketID} (hne : b ≠ id.bucketID) (data : Bytes) :
    restrict (m.put id data).contents b = restrict m.contents b := by
  unfold Spec.put
  split
  · rfl
  · exact restrict_update_of_ne m.contents hne (some data)

theorem Spec.put_durable (m : Spec) (id : ID) (data : Bytes) : (m.put id data).durable = m.durable := by
  unfold Spec.put
  split <;> rfl

theorem System.Inv.put (h : s.Inv env) (hblock : BlockSize env env.block) (id : ID) (data : Bytes) :
    System.Inv env ⟨(s.store.put env id data).1,
      if (s.store.put env id data).2 = none then s.spec.put id data else s.spec⟩ := by
  obtain ⟨hinv, hready⟩ := h id.bucketID
  have hput := hinv.put hblock id.offset data rfl
  have hfailure : (s.store.put env id data).2 =
      ((s.store.get id.bucketID).put env id.bucketID id.offset data).2 := rfl
  refine h.on_bucket ⟨?_, Bucket.Ready.put hinv hblock id.offset data⟩ fun b hb => ?_
  · by_cases hnone : (s.store.put env id data).2 = none
    · rw [if_pos hnone, restrict_put, Spec.put_durable]
      rwa [if_pos (hfailure ▸ hnone)] at hput
    · rw [if_neg hnone]
      rwa [if_neg (hfailure ▸ hnone)] at hput
  · split
    · exact ⟨restrict_put_of_ne _ hb data, by rw [Spec.put_durable]⟩
    · exact ⟨rfl, rfl⟩

theorem System.Inv.delete (h : s.Inv env) (id : ID) : System.Inv env ⟨s.store.delete id, s.spec.delete id⟩ := by
  obtain ⟨hinv, hready⟩ := h id.bucketID
  refine h.on_bucket ⟨?_, Bucket.Ready.delete hready id.offset⟩ fun b hb => ?_
  · show Bucket.Inv env id.bucketID (restrict (update s.spec.contents id none) id.bucketID)
      (restrict (update s.spec.durable id none) id.bucketID) _
    rw [restrict_update, restrict_update]
    exact hinv.delete hready
  · exact ⟨restrict_update_of_ne _ hb none, restrict_update_of_ne _ hb none⟩

theorem System.Inv.sync (h : s.Inv env) (b : BucketID) : System.Inv env ⟨s.store.sync b, s.spec.sync b⟩ := by
  obtain ⟨hinv, hready⟩ := h b
  have hrestrict : ∀ b', restrict (s.spec.sync b).durable b' =
      if b' = b then restrict s.spec.contents b' else restrict s.spec.durable b' := by
    intro b'
    funext o
    unfold restrict Spec.sync
    by_cases hid : (⟨b'.node, o⟩ : ID).bucketID = b'
    · rw [if_pos hid]
      dsimp only
      rw [hid]
      split
      · exact (if_pos hid).symm
      · exact (if_pos hid).symm
    · rw [if_neg hid]
      split
      · exact (if_neg hid).symm
      · exact (if_neg hid).symm
  refine h.on_bucket ⟨?_, Bucket.Ready.sync hready⟩ fun b' hb => ⟨rfl, ?_⟩
  · rw [hrestrict, if_pos rfl]
    exact hinv.sync
  · rw [hrestrict, if_neg hb]

theorem System.Inv.punch (h : s.Inv env) (b : BucketID) : System.Inv env ⟨s.store.punch b, s.spec⟩ := by
  obtain ⟨hinv, hready⟩ := h b
  exact h.on_bucket ⟨hinv.punch.1, Bucket.Ready.punch hready⟩ fun b' hb => ⟨rfl, rfl⟩

/-- Closing goes over the buckets once, in any order. -/
theorem Store.get_closeAll (bs : List BucketID) (s : Store) (hnodup : bs.Nodup) (b : BucketID) :
    get (bs.foldl (fun s id => s.insert id (s.get id).close) s) b =
      if b ∈ bs then (s.get b).close else s.get b := by
  induction bs generalizing s with
  | nil => rfl
  | cons b₀ bs ih =>
    obtain ⟨hnotMem, hrest⟩ := nodup_cons.mp hnodup
    rw [foldl_cons, ih _ hrest]
    by_cases hb : b = b₀
    · subst hb
      rw [if_neg hnotMem, if_pos mem_cons_self, get_insert_self]
    · rw [get_insert_of_ne _ hb]
      simp only [mem_cons, hb, false_or]

theorem Store.close_spec (h : s.Inv env) (closing : RangeOrder BucketID) (b : BucketID) :
    (get (s.store.close closing) b).Inv env b (restrict s.spec.contents b) (restrict s.spec.contents b) ∧
      ∀ f x, (get (s.store.close closing) b).medium ≠ .mapped f x := by
  rw [close, get_closeAll _ _ (closing.nodup_order _)]
  by_cases hb : b ∈ closing.order s.store.keys
  · rw [if_pos hb]
    exact (h b).1.close
  · have hget := get_of_notMem (mt (closing.mem_order _ b).mpr hb)
    have hinv := (h b).1
    rw [if_neg hb]
    rw [hget] at hinv ⊢
    exact ⟨⟨⟨hinv.stands.1, hinv.stands.1⟩, hinv.capture, hinv.holes⟩, fun f x heq => by cases heq⟩

/-- A bucket that is opened at a start. -/
theorem Bucket.Inv.openFile_ready (h : b.Inv env id contents durable) :
    ∃ b', b.openFile env id = .ok b' ∧ b'.Inv env id contents durable ∧ b'.Ready := by
  by_cases hmissing : b.medium = .missing
  · refine ⟨b, by rw [Bucket.openFile, hmissing], h, fun f hf => ?_⟩
    rw [hmissing] at hf
    cases hf
  · obtain ⟨b', f, x, hopen, hmedium, hinv⟩ := h.openFile hmissing
    refine ⟨b', hopen, hinv, fun g hg => ?_⟩
    rw [hmedium] at hg
    cases hg

/-- Opening goes over the buckets once, in any order, and ends with the first error. -/
theorem Store.openAll_spec {s s' : Store} (hnodup : bs.Nodup)
    (h : bs.foldlM (openBucket env) s = .ok s') (b : BucketID) :
    if b ∈ bs then (s.get b).openFile env b = .ok (s'.get b) else s'.get b = s.get b := by
  induction bs generalizing s with
  | nil =>
    cases h
    rfl
  | cons b₀ bs ih =>
    obtain ⟨hnotMem, hrest⟩ := nodup_cons.mp hnodup
    rw [foldlM_cons, openBucket] at h
    cases hopen : (s.get b₀).openFile env b₀ with
    | error e =>
      rw [hopen] at h
      cases h
    | ok b' =>
      rw [hopen] at h
      have hb := ih hrest h
      by_cases heq : b = b₀
      · subst heq
        rw [if_neg hnotMem, get_insert_self] at hb
        rw [if_pos mem_cons_self, hb]
        exact hopen
      · rw [get_insert_of_ne _ heq] at hb
        simpa only [mem_cons, heq, false_or] using hb

theorem Store.exists_openAll {s : Store} (hnodup : bs.Nodup)
    (h : ∀ b ∈ bs, ∃ b', (s.get b).openFile env b = .ok b') : ∃ s', bs.foldlM (openBucket env) s = .ok s' := by
  induction bs generalizing s with
  | nil => exact ⟨s, rfl⟩
  | cons b₀ bs ih =>
    obtain ⟨hnotMem, hrest⟩ := nodup_cons.mp hnodup
    obtain ⟨b', hopen⟩ := h b₀ mem_cons_self
    obtain ⟨s', hs'⟩ := ih (s := s.insert b₀ b') hrest fun b hb => by
      have hne : b ≠ b₀ := by
        rintro rfl
        exact hnotMem hb
      rw [get_insert_of_ne _ hne]
      exact h b (mem_cons_of_mem b₀ hb)
    refine ⟨s', ?_⟩
    rw [foldlM_cons, openBucket, hopen]
    exact hs'

/-- A start that succeeds has opened every bucket. -/
theorem Store.openFiles_spec {opening : RangeOrder BucketID} {s s' : Store} (h : s.openFiles env opening = .ok s')
    (b : BucketID) : (s.get b).openFile env b = .ok (s'.get b) := by
  have hb := openAll_spec (opening.nodup_order _) h b
  by_cases hkey : b ∈ s.keys
  · rwa [if_pos ((opening.mem_order _ b).mpr hkey)] at hb
  · rw [if_neg (mt (opening.mem_order _ b).mp hkey)] at hb
    rw [hb, get_of_notMem hkey]
    rfl

theorem Store.exists_openFiles (opening : RangeOrder BucketID) {s : Store}
    (h : ∀ b, ∃ b', (s.get b).openFile env b = .ok b') : ∃ s', s.openFiles env opening = .ok s' :=
  exists_openAll (opening.nodup_order _) fun b _ => h b

theorem System.Inv.restart (h : s.Inv env) (closing opening : RangeOrder BucketID) :
    ∃ store, (s.store.close closing).openFiles env opening = .ok store ∧
      System.Inv env ⟨store, { s.spec with durable := s.spec.contents }⟩ := by
  have hclosed := close_spec h closing
  obtain ⟨store, hstore⟩ : ∃ store, (s.store.close closing).openFiles env opening = .ok store := by
    refine exists_openFiles opening fun b => ?_
    obtain ⟨b', hopen, -⟩ := (hclosed b).1.openFile_ready
    exact ⟨b', hopen⟩
  refine ⟨store, hstore, fun b => ?_⟩
  obtain ⟨b', hopen, hinv, hready⟩ := (hclosed b).1.openFile_ready
  have heq := openFiles_spec hstore b
  rw [hopen] at heq
  cases heq
  exact ⟨hinv, hready⟩

/-- Every call succeeds as a step and keeps the invariant. -/
theorem System.Inv.step (h : s.Inv env) (hblock : BlockSize env env.block) (a : Action) :
    ∃ s', s.step env a = .ok s' ∧ s'.Inv env := by
  cases a with
  | put id data => exact ⟨_, rfl, h.put hblock id data⟩
  | delete id => exact ⟨_, rfl, h.delete id⟩
  | sync b => exact ⟨_, rfl, h.sync b⟩
  | punch b => exact ⟨_, rfl, h.punch b⟩
  | restart closing opening =>
    obtain ⟨store, hstore, hinv⟩ := h.restart closing opening
    refine ⟨_, ?_, hinv⟩
    rw [System.step, hstore]
    rfl

theorem System.exists_run (hblock : BlockSize env env.block) (actions : List Action) :
    ∃ s, run env actions = .ok s ∧ s.Inv env := by
  have key : ∀ (actions : List Action) (s : System), s.Inv env →
      ∃ s', actions.foldlM (step env) s = .ok s' ∧ s'.Inv env := by
    intro actions
    induction actions with
    | nil => exact fun s h => ⟨s, rfl, h⟩
    | cons a actions ih =>
      intro s h
      obtain ⟨s₁, hstep, hinv⟩ := h.step hblock a
      obtain ⟨s', hrun, hinv'⟩ := ih s₁ hinv
      refine ⟨s', ?_, hinv'⟩
      rw [foldlM_cons, hstep]
      exact hrun
  exact key actions start (inv_start env)

end swytch.durability
