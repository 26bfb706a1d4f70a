import Swytch.Durability.History

namespace swytch.durability

open swytch.lib swytch.proto List Bucket durability.System

/-- The store has exactly what it has to have, each record in room of its own, and no hole
was ever punched in a published record. -/
structure System.Exact (env : Env) (s : System) : Prop where
  recovered : ∀ ranges, ∃ reports, s.store.recover env ranges = .ok reports ∧ (reports.map Report.id).Nodup ∧
    ∀ id d, s.spec.contents id = some d ↔ ∃ report ∈ reports, report.id = id ∧ report.data = d
  apart : ∀ b f x, (s.store.get b).medium = .mapped f x → (publishedExtents f x).Pairwise Extent.Disjoint
  placed : ∀ b f x, (s.store.get b).medium = .mapped f x → ∀ e ∈ publishedExtents f x,
    (⟨0, x.block⟩ : Extent).Disjoint e ∧ (∀ q ∈ x.pages, e.Disjoint ⟨q, x.block⟩) ∧ e.pos + e.size ≤ f.size
  unpunched : ∀ b, ∀ hole ∈ (s.store.get b).holes, ∀ e ∈ hole.live, hole.extent.Disjoint e

variable {env : Env} {x : Index} {data : Bytes} {s : System}

theorem System.Inv.recovered (h : s.Inv env) (ranges : RangeOrder BucketID) :
    ∃ reports, s.store.recover env ranges = .ok reports ∧ (reports.map Report.id).Nodup ∧
      ∀ id d, s.spec.contents id = some d ↔ ∃ report ∈ reports, report.id = id ∧ report.data = d := by
  have hspec : ∀ b, _ := fun b => (h b).1.reports_spec (h b).2
  refine ⟨_, Store.recover_iff.mpr ⟨fun b => (h b).1.checks, rfl⟩, ?_, fun id d => ?_⟩
  · rw [map_flatMap, nodup_flatMap]
    refine ⟨fun b _ => (hspec b).1, (ranges.nodup_order _).imp ?_⟩
    intro b b' hne id hid hid'
    obtain ⟨report, hreport, rfl⟩ := mem_map.mp hid
    obtain ⟨report', hreport', heq⟩ := mem_map.mp hid'
    apply hne
    rw [← (hspec b).2.1 report hreport, ← (hspec b').2.1 report' hreport', heq]
  · rw [← restrict_bucketID s.spec.contents id, (hspec id.bucketID).2.2 id.offset d]
    constructor
    · rintro ⟨report, hreport, hid, hdata⟩
      have hkey : id.bucketID ∈ ranges.order s.store.keys := by
        rw [ranges.mem_order]
        by_contra hnot
        rw [Store.get_of_notMem hnot] at hreport
        exact absurd hreport not_mem_nil
      exact ⟨report, mem_flatMap.mpr ⟨_, hkey, hreport⟩, hid, hdata⟩
    · rintro ⟨report, hreport, rfl, hdata⟩
      obtain ⟨b, -, hmem⟩ := mem_flatMap.mp hreport
      obtain rfl := (hspec b).2.1 report hmem
      exact ⟨report, hmem, rfl, hdata⟩

variable {id b : BucketID} {f : File} {captured : List Extent}

theorem Layout.pairwise_publishedExtents (h : Layout env id f x captured) :
    (publishedExtents f x).Pairwise Extent.Disjoint := by
  have hnodup : x.positions.Nodup := h.placed.nodup_slots
  refine List.Pairwise.filterMap _ ?_ ((List.Pairwise.and_mem.mp hnodup) : x.positions.Pairwise _)
  rintro pos pos' ⟨hpos, hpos', hne⟩ e he e' he'
  obtain ⟨r, hr, rfl⟩ := Option.map_eq_some_iff.mp he
  obtain ⟨r', hr', rfl⟩ := Option.map_eq_some_iff.mp he'
  exact h.apart pos hpos pos' hpos' hne r r' hr hr'

theorem Layout.publishedExtents_placed (h : Layout env id f x captured) {e : Extent}
    (he : e ∈ publishedExtents f x) :
    (⟨0, x.block⟩ : Extent).Disjoint e ∧ (∀ q ∈ x.pages, e.Disjoint ⟨q, x.block⟩) ∧ e.pos + e.size ≤ f.size := by
  obtain ⟨pos, hpos, r, hr, rfl⟩ := mem_publishedExtents.mp he
  have hsound := (h.readable _ h.present).records pos hpos r hr
  have hlow := hsound.low
  refine ⟨.inl ?_, hsound.pages, hsound.valid.within.trans h.fits⟩
  show 0 + x.block ≤ r.pos
  omega

theorem System.Inv.exact (h : s.Inv env) : s.Exact env := by
  have hlayout : ∀ b f x, (s.store.get b).medium = .mapped f x →
      ∃ captured, Layout env b f x captured := by
    intro b f x hmedium
    have hstands := (h b).1.stands
    rw [hmedium] at hstands
    exact ⟨_, hstands.2.layout⟩
  refine ⟨h.recovered, fun b f x hmedium => ?_, fun b f x hmedium e he => ?_, fun b => (h b).1.holes⟩
  · obtain ⟨captured, hl⟩ := hlayout b f x hmedium
    exact hl.pairwise_publishedExtents
  · obtain ⟨captured, hl⟩ := hlayout b f x hmedium
    exact hl.publishedExtents_placed he

/-- `Put` returns nil unless the file of the bucket would have to grow to `2 ^ 63` bytes. -/
theorem System.Inv.put_eq_none (h : s.Inv env) (hblock : BlockSize env env.block) (id : ID) (data : Bytes)
    (hroom : ¬ ((s.store.put env id data).1.get id.bucketID).Full data) : (s.store.put env id data).2 = none := by
  unfold Store.put at hroom ⊢
  rw [Store.get_insert_self] at hroom
  obtain ⟨b', -, hput⟩ | ⟨b₁, failure, -, ⟨-, hfull, hput⟩ | ⟨b₂, -, hput⟩⟩ :=
    (h id.bucketID).1.put_cases hblock id.offset data
  · rw [hput]
  · rw [hput] at hroom
    exact absurd hfull hroom
  · rw [hput]

/-- On a file system whose blocks the format works with, every sequence of calls leaves the
store with exactly what was put and not deleted since: every start succeeds and `Recover`
reports each record once with its bytes, records lie in disjoint room of their own within
the file, and no hole was punched in one. -/
theorem mirror_exact (env : Env) (hblock : BlockSize env env.block) (actions : List Action) :
    ∃ s, run env actions = .ok s ∧ s.Exact env := by
  obtain ⟨s, hrun, hinv⟩ := exists_run hblock actions
  exact ⟨s, hrun, hinv.exact⟩

theorem mirror_exact_of_small_blocks : BlockSize ⟨"/data", 4096, 4096⟩ 4096 ∧ ∃ s, run ⟨"/data", 4096, 4096⟩
        [.put ⟨1, 0⟩ [7], .put ⟨1, 64⟩ [], .sync (ID.bucketID ⟨1, 0⟩), .delete ⟨1, 0⟩, .sync (ID.bucketID ⟨1, 0⟩),
          .punch (ID.bucketID ⟨1, 0⟩), .put ⟨1, 0⟩ [8]] = .ok s ∧ s.Exact ⟨"/data", 4096, 4096⟩ := by
  have hblock : BlockSize ⟨"/data", 4096, 4096⟩ 4096 := ⟨le_rfl, rfl, ⟨256, rfl⟩⟩
  exact ⟨hblock, mirror_exact ⟨"/data", 4096, 4096⟩ hblock _⟩

/-- A new file is opened whatever the block size. -/
theorem exists_scan_createFile (id : BucketID) (handle : Nat) (hblock : 64 < env.block) :
    ∃ x, Index.scan id (createFile env id) env.block handle = .ok x ∧
      OpenedAs (createFile env id) env.block handle [env.block] x := by
  have hnone : ∀ pos ∈ [env.block].flatMap (slots env.block), entryAt (createFile env id).data pos = none := by
    intro pos hpos
    rw [flatMap_singleton] at hpos
    obtain ⟨i, rfl, -⟩ := mem_slots.mp hpos
    exact createFile_entryAt id (by omega)
  refine Index.exists_scan (by omega) le_rfl ⟨isChain_singleton _, ?_⟩ ⟨pairwise_singleton _ _, ?_, ?_, ?_⟩
    (fun pos hpos r hr => ?_) fun pos hpos pos' hpos' o ho => ?_
  · intro q hq
    obtain rfl : env.block = q := Option.some.inj hq
    exact Image.load_eq_zero fun i hi => createFile_outside env id i (by omega)
  · intro q hq
    obtain rfl := mem_singleton.mp hq
    exact Nat.dvd_refl _
  · intro q hq
    obtain rfl := mem_singleton.mp hq
    omega
  · intro q hq
    obtain rfl := mem_singleton.mp hq
    show env.block + env.block ≤ 2 * env.block
    omega
  · rw [hnone pos hpos] at hr
    cases hr
  · obtain ⟨r, hr, -⟩ := ho
    rw [hnone pos hpos] at hr
    cases hr

/-- Room for the first payload of a new file. -/
theorem prepare_createFile (hblock : 64 < env.block) (hsmall : env.block < 2 ^ 60) (hdata : data.length < 2 ^ 60)
    (hopened : OpenedAs (createFile env id) env.block 0 [env.block] x) :
    ∃ size, prepareMapped (createFile env id) x data = .ok ({ createFile env id with size := size }, x) ∧
      x.cursor + x.room data ≤ size ∧ size < 2 ^ 63 ∧ x.free ≠ [] := by
  have hxblock := hopened.block
  have hlt : x.room data < max data.length 1 + x.block := align_lt (by omega)
  have hpositive : max data.length 1 ≤ x.room data := le_align (by omega)
  have hcursor : x.cursor = 2 * env.block := hopened.cursor
  have hsize : (createFile env id).size = 2 * env.block := rfl
  have hfree : x.free ≠ [] := by
    refine ne_nil_of_mem (a := env.block + 64) ((hopened.mirrors.free _).mpr ⟨?_, createFile_entryAt id (by omega)⟩)
    rw [hopened.pages, hopened.block, flatMap_singleton]
    exact mem_slots.mpr ⟨0, rfl, by omega⟩
  have hextra : x.extra = 0 := if_neg hfree
  have hle : x.cursor + x.extra + x.room data ≤ align (x.cursor + x.extra + x.room data) (2 ^ 20) :=
    le_align (by decide)
  have hup : align (x.cursor + x.extra + x.room data) (2 ^ 20) < x.cursor + x.extra + x.room data + 2 ^ 20 :=
    align_lt (by decide)
  refine ⟨align (x.cursor + x.extra + x.room data) (2 ^ 20), ?_, by omega, by omega, hfree⟩
  rw [prepareMapped, File.grow, if_neg (by omega), if_neg (by omega), if_neg (by omega)]
  show Except.ok (if x.extra = 0 then _ else _) = _
  rw [if_pos hextra]

/-- The first `Put` of a bucket succeeds whatever the block size, and leaves the header of
its file with that block size. -/
theorem put_first (id : ID) (hblock : 64 < env.block) (hdvd : 64 ∣ env.block) (hsmall : env.block < 2 ^ 60)
    (hdata : data.length < 2 ^ 60) : ∃ f x, put env id.bucketID id.offset data {} =
        ({ medium := .mapped f x, capture := none, opened := 1, holes := [] }, none) ∧
      Header id.bucketID env.block f.data ∧ 2 * env.block ≤ f.size ∧ x.generation ≠ x.synced ∧ x.punches = [] := by
  obtain ⟨x, hscan, hopened⟩ := exists_scan_createFile id.bucketID 0 hblock
  obtain ⟨size, hprepare, hroom, hbound, hfree⟩ := prepare_createFile hblock hsmall hdata hopened
  let f : File := { createFile env id.bucketID with size := size }
  let pos := x.free.getLast hfree
  have hpos : pos ∈ slots env.block env.block := by
    have hmem := ((hopened.mirrors.free pos).mp (getLast_mem hfree)).1
    rwa [hopened.pages, hopened.block, flatMap_singleton] at hmem
  have hwithin := slot_within hdvd hpos
  have hcursor : x.cursor = 2 * env.block := hopened.cursor
  have hopen : openOrCreate env id.bucketID {} =
      .ok { medium := .mapped (createFile env id.bucketID) x, opened := 1 } := by
    rw [openOrCreate]
    dsimp only
    rw [show Index.scan id.bucketID (createFile env id.bucketID) env.block 0 = _ from hscan]
    rfl
  have hmake : prepare env id.bucketID data {} = ({ medium := .mapped f x, opened := 1 }, none) := by
    rw [prepare, hopen]
    dsimp only
    rw [hprepare]
  have hnew : id.offset ∉ x.entries := by
    intro hmem
    obtain ⟨p, hp⟩ := Finmap.mem_iff.mp hmem
    obtain ⟨hp', r, hr, -⟩ := (hopened.mirrors.entries _ p).mp hp
    rw [hopened.pages, hopened.block, flatMap_singleton] at hp'
    obtain ⟨i, rfl, -⟩ := mem_slots.mp hp'
    rw [createFile_entryAt id.bucketID (by omega)] at hr
    cases hr
  have hreserve : reserve id.offset data { medium := .mapped f x, opened := 1 } =
      some { medium := .mapped (f.publish pos (x.recordFor id.offset data) data) (x.publish pos id.offset data),
             opened := 1 } := by
    rw [reserve]
    dsimp only
    rw [if_neg hnew, getLast?_eq_some_getLast hfree]
    exact if_pos hroom
  have hpublished : Published f pos (x.recordFor id.offset data) data
      (f.publish pos (x.recordFor id.offset data) data) := by
    refine File.publish_spec mem_cons_self (Index.recordFor_small (f := f) hroom hbound ?_) rfl (.inl ?_)
    · rw [hopened.block]
      omega
    · show pos + 64 ≤ x.cursor
      omega
  refine ⟨f.publish pos (x.recordFor id.offset data) data, x.publish pos id.offset data,
    ?_, ?_, ?_, ?_, hopened.punches⟩
  · have hfirst : reserve id.offset data {} = none := rfl
    unfold put
    simp only [putLoop, hfirst, hmake, hreserve, Option.getD_some]
  · refine (createFile_header id.bucketID (by omega)).of_sameOn (hpublished.outside.sameOn fun i _ hi hregion => ?_)
    have hrecord : (x.recordFor id.offset data).pos = x.cursor := rfl
    unfold PublishRegion at hregion
    omega
  · rw [hpublished.size]
    show 2 * env.block ≤ size
    omega
  · show x.generation + 1 ≠ x.synced
    rw [hopened.generation, hopened.synced]
    decide

theorem close_dirty {b : Bucket} (hmedium : b.medium = .mapped f x) (hcapture : b.capture = none)
    (hdirty : x.generation ≠ x.synced) (hpunches : x.punches = []) : b.close.medium = .closed f.syncMapped := by
  have hpunch : b.punch = b := by rw [punch, hcapture]
  have hsync : b.sync = { b with
      medium := .mapped f.syncMapped { x with punches := [], synced := x.generation }, capture := none } := by
    unfold sync
    dsimp only
    rw [hpunch, hmedium]
    dsimp only
    rw [if_neg hdirty, if_pos hpunches]
  rw [close, hsync]
  rfl

/-- `open` rejects a header whose block is larger than 2^20 bytes. -/
theorem checkHeader_large {block : Nat} (h : Header id block f.data) (hlarge : 2 ^ 20 < block)
    (hsize : 2 * block ≤ f.size) : f.checkHeader env id = .error "invalid allocation boundary" := by
  unfold File.checkHeader
  rw [if_neg (by omega), if_neg (by omega), if_neg (by simp [h.magic, h.version, h.native]), h.block,
    if_pos (.inr (.inl hlarge))]

/-- The order of the buckets of a store that has one. -/
theorem order_singleton (ranges : RangeOrder BucketID) {s : Store} (hkeys : s.keys = {b}) :
    ranges.order s.keys = [b] := by
  refine perm_singleton.mp ((perm_ext_iff_of_nodup (ranges.nodup_order _) (nodup_singleton _)).mpr ?_)
  intro b'
  rw [ranges.mem_order, hkeys, Finset.mem_singleton, mem_singleton]

theorem keys_insert {s : Store} (bucket : Bucket) (hkeys : s.keys = {b}) :
    (s.insert b bucket : Store).keys = {b} := by
  ext b'
  rw [Finmap.mem_keys, Finmap.mem_insert, ← Finmap.mem_keys, hkeys, Finset.mem_singleton, or_self]

/-- A file system with blocks of more than 2^20 bytes: the store takes the payload, and can
not be opened again after it is closed. -/
theorem restart_fails (id : ID) (hlarge : 2 ^ 20 < env.block) (hdvd : 64 ∣ env.block) (hsmall : env.block < 2 ^ 60)
    (hdata : data.length < 2 ^ 60) : ∃ s, run env [.put id data] = .ok s ∧ s.spec.contents id = some data ∧
      ∀ closing opening, s.step env (.restart closing opening) =
        .error ("open " ++ id.bucketID.path env ++ ": " ++ "invalid allocation boundary") := by
  obtain ⟨f, x, hput, hheader, hsize, hdirty, hpunches⟩ := put_first id (by omega) hdvd hsmall hdata
  let b : Bucket := { medium := .mapped f x, capture := none, opened := 1, holes := [] }
  let store : Store := Finmap.insert id.bucketID b ∅
  have hstore : start.store.put env id data = (store, none) := by
    have hget : start.store.get id.bucketID = {} := by
      rw [start, Store.get, Finmap.lookup_empty]
      rfl
    rw [Store.put, hget, hput]
    rfl
  have hkeys : store.keys = {id.bucketID} := by
    ext b'
    rw [Finmap.mem_keys, Finmap.mem_insert, or_iff_left Finmap.notMem_empty, Finset.mem_singleton]
  refine ⟨⟨store, start.spec.put id data⟩, ?_, Function.update_self _ _ _, fun closing opening => ?_⟩
  · show (start.step env (.put id data)).bind _ = _
    rw [step, hstore]
    rfl
  · have hclose : store.close closing = store.insert id.bucketID b.close := by
      rw [Store.close, order_singleton closing hkeys]
      show store.insert id.bucketID (store.get id.bucketID).close = _
      rw [Store.get_insert_self]
    have hfile : b.close.openFile env id.bucketID = .error "invalid allocation boundary" := by
      rw [openFile, close_dirty rfl rfl hdirty hpunches]
      dsimp only
      rw [checkHeader_large (show Header id.bucketID env.block f.syncMapped.data from hheader) hlarge hsize]
      rfl
    rw [step, hclose, Store.openFiles, order_singleton opening (keys_insert b.close hkeys), foldlM_cons,
      Store.openBucket, Store.get_insert_self, hfile]
    rfl

/-- On a file system that reports blocks of 4 MiB a record that was put without an error is
not recovered: the directory does not open. -/
theorem mirror_lost_on_large_blocks :
    ∃ s, run ⟨"/data", 4096, 4194304⟩ [.put ⟨1, 0⟩ [7]] = .ok s ∧ s.spec.contents ⟨1, 0⟩ = some [7] ∧
      ∀ closing opening, s.step ⟨"/data", 4096, 4194304⟩ (.restart closing opening) =
        .error "open /data/1/0.swytch: invalid allocation boundary" :=
  restart_fails ⟨1, 0⟩ (by decide) ⟨65536, rfl⟩ (by decide) (by decide)

end swytch.durability
