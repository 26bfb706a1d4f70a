import Swytch.Durability.Mirror

namespace swytch.durability

open swytch.lib swytch.proto List Except Nat Bucket

/-- The report of a published entry. -/
def Record.report (id : BucketID) (m : Image) (r : Record) : Report :=
  ⟨⟨id.node, UInt64.ofNat r.offset⟩, r.pos, m.read r.pos r.size⟩

/-- The reports of the published entries at some positions. -/
def reportsAt (id : BucketID) (m : Image) (ps : List Nat) : List Report :=
  ps.filterMap fun pos => (entryAt m pos).map (Record.report id m)

/-- What is stored of the entry has the checksum of the entry. -/
def Checked (m : Image) (ps : List Nat) : Prop :=
  ∀ pos ∈ ps, ∀ r, entryAt m pos = some r → r.checksum (m.read r.pos r.size) = r.sum

variable {env : Env} {ps : List Nat} {b : Bucket} {contents durable : UInt64 → Option Bytes}

variable {id : BucketID} {f : File}

theorem recoverEntries_eq (h : Checked f.data ps) (reports : List Report) :
    ps.foldlM (recoverEntry env id f) reports = .ok (reports ++ reportsAt id f.data ps) := by
  induction ps generalizing reports with
  | nil => simp [reportsAt, pure, Except.pure]
  | cons pos ps ih =>
    have hrest : Checked f.data ps := fun p hp => h p (mem_cons_of_mem pos hp)
    rw [foldlM_cons]
    cases hentry : entryAt f.data pos with
    | none =>
      have hfirst : recoverEntry env id f reports pos = .ok reports := by simp only [recoverEntry, hentry]
      rw [hfirst, reportsAt, filterMap_cons_none (by rw [hentry]; rfl)]
      exact ih hrest reports
    | some r =>
      have hfirst : recoverEntry env id f reports pos = .ok (reports ++ [r.report id f.data]) := by
        simp only [recoverEntry, hentry]
        rw [if_neg (not_not.mpr (h pos mem_cons_self r hentry))]
        rfl
      rw [hfirst, reportsAt, filterMap_cons_some (b := r.report id f.data) (by rw [hentry]; rfl)]
      refine (ih hrest _).trans ?_
      rw [append_assoc, singleton_append, reportsAt]

/-- A recovery that ends has found every checksum right. -/
theorem checked_of_recoverEntries {reports result : List Report}
    (h : ps.foldlM (recoverEntry env id f) reports = .ok result) : Checked f.data ps := by
  induction ps generalizing reports with
  | nil => exact fun pos hpos => absurd hpos not_mem_nil
  | cons p ps ih =>
    rw [foldlM_cons] at h
    cases hfirst : recoverEntry env id f reports p with
    | error e =>
      rw [hfirst] at h
      cases h
    | ok next =>
      rw [hfirst] at h
      have hrest := ih h
      intro pos hpos r hr
      obtain rfl | hmem := mem_cons.mp hpos
      · simp only [recoverEntry, hr] at hfirst
        by_contra hwrong
        rw [if_pos hwrong] at hfirst
        cases hfirst
      · exact hrest pos hmem r hr

/-- What `Recover` reports of a bucket. -/
def Bucket.reports (id : BucketID) (b : Bucket) : List Report :=
  match b.medium with
  | .mapped f x => reportsAt id f.data x.positions
  | _ => []

/-- Every published entry of the bucket has its checksum. -/
def Bucket.Checks (b : Bucket) : Prop := ∀ f x, b.medium = .mapped f x → Checked f.data x.positions

theorem Bucket.recover_iff {reports result : List Report} :
    b.recover env id reports = .ok result ↔ b.Checks ∧ result = reports ++ b.reports id := by
  unfold Bucket.recover Bucket.reports Bucket.Checks
  cases hmedium : b.medium with
  | missing =>
    rw [append_nil, ok.injEq, eq_comm]
    exact ⟨fun h => ⟨fun f x hf => (by cases hf), h⟩, And.right⟩
  | closed f =>
    rw [append_nil, ok.injEq, eq_comm]
    exact ⟨fun h => ⟨fun f x hf => (by cases hf), h⟩, And.right⟩
  | mapped f x =>
    constructor
    · intro h
      have hchecked := checked_of_recoverEntries h
      refine ⟨fun g y heq => ?_, ?_⟩
      · obtain ⟨rfl, rfl⟩ := Medium.mapped.inj heq
        exact hchecked
      · exact ok.inj (h.symm.trans (recoverEntries_eq hchecked reports))
    · rintro ⟨hchecks, rfl⟩
      exact recoverEntries_eq (hchecks f x rfl) reports

theorem Store.get_of_notMem {s : Store} {b : BucketID} (hb : b ∉ s.keys) : s.get b = {} := by
  rw [Store.get, Finmap.lookup_eq_none.mpr (mt Finmap.mem_keys.mpr hb)]
  rfl

/-- `Recover` completes exactly if every checksum is right, and reports the buckets one
after the other. -/
theorem Store.recover_iff {ranges : RangeOrder BucketID} {s : Store} {reports : List Report} :
    s.recover env ranges = .ok reports ↔
      (∀ b, (s.get b).Checks) ∧ reports = (ranges.order s.keys).flatMap fun b => (s.get b).reports b := by
  have key : ∀ (bs : List BucketID) (acc result : List Report),
      bs.foldlM (fun reports id => (s.get id).recover env id reports) acc = .ok result ↔
        (∀ b ∈ bs, (s.get b).Checks) ∧ result = acc ++ bs.flatMap fun b => (s.get b).reports b := by
    intro bs
    induction bs with
    | nil =>
      intro acc result
      rw [flatMap_nil, append_nil]
      exact ⟨fun h => ⟨fun b hb => absurd hb not_mem_nil, (ok.inj h).symm⟩, fun h => by rw [h.2]; rfl⟩
    | cons b bs ih =>
      intro acc result
      rw [foldlM_cons, flatMap_cons, ← append_assoc, forall_mem_cons]
      cases hfirst : (s.get b).recover env b acc with
      | error e =>
        refine ⟨fun h => (by cases h), fun h => ?_⟩
        rw [Bucket.recover_iff.mpr ⟨h.1.1, rfl⟩] at hfirst
        cases hfirst
      | ok next =>
        obtain ⟨hchecks, rfl⟩ := Bucket.recover_iff.mp hfirst
        refine (ih _ result).trans ?_
        rw [and_iff_right hchecks]
  rw [Store.recover, key, nil_append]
  refine and_congr_left fun _ => ⟨fun h b => ?_, fun h b _ => h b⟩
  by_cases hb : b ∈ s.keys
  · exact h b ((ranges.mem_order _ b).mpr hb)
  · rw [Store.get_of_notMem hb]
    exact fun f x hf => (by cases hf)

theorem Layout.checked {x : Index} {captured : List Extent} (h : Layout env id f x captured) :
    Checked f.data x.positions := by
  intro pos hpos r hr
  obtain ⟨s, hs, rfl, hread⟩ := h.intact pos hpos r hr
  rw [hread, (h.log s hs).2]

theorem Bucket.Inv.checks (h : b.Inv env id contents durable) : b.Checks := by
  intro f x hmedium
  have hstands := h.stands
  rw [hmedium] at hstands
  exact hstands.2.layout.checked

theorem mem_reportsAt {m : Image} {report : Report} :
    report ∈ reportsAt id m ps ↔ ∃ pos ∈ ps, ∃ r, entryAt m pos = some r ∧ r.report id m = report := by
  simp only [reportsAt, mem_filterMap, Option.map_eq_some_iff]

/-- No effect is reported twice. -/
theorem nodup_reportsAt {m : Image} (hnodup : ps.Nodup) (hsingle : Single m ps) :
    ((reportsAt id m ps).map Report.id).Nodup := by
  induction ps with
  | nil => exact nodup_nil
  | cons pos ps ih =>
    have hrest := ih (nodup_cons.mp hnodup).2 fun p hp p' hp' =>
      hsingle p (mem_cons_of_mem pos hp) p' (mem_cons_of_mem pos hp')
    cases hentry : entryAt m pos with
    | none =>
      rw [reportsAt, filterMap_cons_none (by rw [hentry]; rfl)]
      exact hrest
    | some r =>
      rw [reportsAt, filterMap_cons_some (b := r.report id m) (by rw [hentry]; rfl), map_cons, nodup_cons]
      refine ⟨fun hmem => ?_, hrest⟩
      obtain ⟨report, hreport, hid⟩ := mem_map.mp hmem
      obtain ⟨p, hp, r', hr', rfl⟩ := mem_reportsAt.mp hreport
      have hoffset : UInt64.ofNat r'.offset = UInt64.ofNat r.offset := congrArg ID.offset hid
      obtain rfl := hsingle p (mem_cons_of_mem pos hp) pos mem_cons_self _ ⟨r', hr', hoffset⟩ ⟨r, hentry, rfl⟩
      exact (nodup_cons.mp hnodup).1 hp

theorem Record.Valid.bucketID {block size : Nat} {r : Record} (h : r.Valid id block size) (hlt : r.offset < 2 ^ 64) :
    (⟨id.node, UInt64.ofNat r.offset⟩ : ID).bucketID = id := by
  have hbucket := h.bucket
  have hoffset : (UInt64.ofNat r.offset).toNat = r.offset := UInt64.toNat_ofNat_of_lt' hlt
  have hfin : (⟨(UInt64.ofNat r.offset).toNat % fileCount, mod_lt _ (by decide)⟩ : Fin fileCount) = id.bucket :=
    Fin.ext (by rw [← hbucket, hoffset])
  show (⟨id.node, _⟩ : BucketID) = id
  rw [hfin]

/-- The reports of a bucket are its contents. -/
theorem Bucket.Inv.reports_spec (h : b.Inv env id contents durable) (hopen : ∀ f, b.medium ≠ .closed f) :
    ((b.reports id).map Report.id).Nodup ∧ (∀ report ∈ b.reports id, report.id.bucketID = id) ∧
      ∀ o d, contents o = some d ↔ ∃ report ∈ b.reports id, report.id = ⟨id.node, o⟩ ∧ report.data = d := by
  have hstands := h.stands
  unfold reports
  cases hmedium : b.medium with
  | missing =>
    rw [hmedium] at hstands
    refine ⟨nodup_nil, fun report hreport => absurd hreport not_mem_nil, fun o d => ?_⟩
    simp [hstands.1 o]
  | closed f => exact absurd hmedium (hopen f)
  | mapped f x =>
    rw [hmedium] at hstands
    obtain ⟨-, hmapped⟩ := hstands
    have hl := hmapped.layout
    refine ⟨nodup_reportsAt hl.placed.nodup_slots hl.mirrors.single, fun report hreport => ?_, fun o d => ?_⟩
    · obtain ⟨pos, hpos, r, hr, rfl⟩ := mem_reportsAt.mp hreport
      exact ((hl.readable _ hl.present).records pos hpos r hr).valid.bucketID (entryAt_offset_lt hr)
    · rw [hmapped.holds o d]
      constructor
      · rintro ⟨pos, hpos, r, hr, rfl, hread⟩
        exact ⟨_, mem_reportsAt.mpr ⟨pos, hpos, r, hr, rfl⟩, rfl, hread⟩
      · rintro ⟨report, hreport, hid, hdata⟩
        obtain ⟨pos, hpos, r, hr, rfl⟩ := mem_reportsAt.mp hreport
        exact ⟨pos, hpos, r, hr, congrArg ID.offset hid, hdata⟩

theorem File.checkHeader_error {e : String} (hcheck : f.checkHeader env id = .error e) :
    e ≠ "TOC scan out of fuel" := by
  unfold checkHeader at hcheck
  repeat' split at hcheck
  all_goals cases hcheck
  all_goals decide

theorem File.checkHeader_ok {block : Nat} (hcheck : f.checkHeader env id = .ok block) :
    4096 ≤ block ∧ env.pageSize ∣ block ∧ 2 * block ≤ f.size := by
  unfold checkHeader at hcheck
  repeat' split at hcheck
  all_goals simp only [reduceCtorEq, ok.injEq] at hcheck
  rename_i hblock _
  subst hcheck
  simp only [not_or, not_lt, ne_eq, not_not] at hblock
  exact ⟨hblock.1, dvd_of_mod_eq_zero hblock.2.2.1, hblock.2.2.2⟩

/-- The slice `data[pos:pos+size]` of a mapped file, where the end is a sum of two words.
None is a slice out of range. -/
def File.slice (f : File) (pos size : Nat) : Option Bytes :=
  let stop := (pos + size) % 2 ^ 64
  if pos ≤ stop ∧ stop ≤ f.size then some (f.data.read pos (stop - pos)) else none

theorem File.slice_eq {pos size : Nat} (hmax : f.size < 2 ^ 63) (hwithin : pos + size ≤ f.size) :
    f.slice pos size = some (f.data.read pos size) := by
  have hstop : (pos + size) % 2 ^ 64 = pos + size := mod_eq_of_lt (by omega)
  simp only [File.slice, hstop]
  rw [if_pos ⟨Nat.le_add_right _ _, hwithin⟩, Nat.add_sub_cancel_left]

/-- Whatever a file contains, `open` ends. If it succeeds, no page and no published entry
leaves the file, so that no sum of two of their words exceeds its size, and every word and
every slice that `Recover` reads is in range. -/
theorem Bucket.openFile_safe (env : Env) (id : BucketID) (b : Bucket) (f : File) (hmax : f.size < 2 ^ 63)
    (hpageSize : entrySize ∣ env.pageSize) :
    (∃ e, ({ b with medium := .closed f } : Bucket).openFile env id = .error e ∧ e ≠ "TOC scan out of fuel") ∨
      ∃ x, ({ b with medium := .closed f } : Bucket).openFile env id =
          .ok { b with medium := .mapped f x, opened := b.opened + 1 } ∧
        x.pages.Nodup ∧ Mirrors f.data x ∧ Single f.data x.positions ∧
        (∀ page ∈ x.pages, x.block ∣ page ∧ page + x.block ≤ f.size ∧ page + x.block ≤ x.cursor) ∧
        ∀ pos ∈ x.positions, pos + entrySize ≤ f.size ∧ ∀ r, entryAt f.data pos = some r →
          (⟨id.node, UInt64.ofNat r.offset⟩ : ID).bucketID = id ∧ r.size ≤ r.allocated ∧
          r.pos + r.allocated ≤ f.size ∧ r.pos + r.allocated ≤ x.cursor ∧
          f.slice r.pos r.size = some (f.data.read r.pos r.size) := by
  cases hcheck : f.checkHeader env id with
  | error e =>
    refine .inl ⟨e, ?_, File.checkHeader_error hcheck⟩
    simp only [openFile, hcheck]
    rfl
  | ok block =>
    obtain ⟨hleast, hpage, hsize⟩ := File.checkHeader_ok hcheck
    rw [openFile_eq (b := { b with medium := .closed f }) rfl hcheck]
    cases hscan : Index.scan id f block b.opened with
    | error e => exact .inl ⟨e, rfl, Index.scan_error (by omega) hscan⟩
    | ok x =>
      obtain ⟨hopened, hplaced, hvalid, hsingle⟩ := Index.scan_spec hscan (by omega) hsize
      obtain rfl := hopened.block
      rw [← hopened.pages] at hplaced hvalid hsingle
      have hcursor := hopened.cursor
      refine .inr ⟨x, rfl, ?_, hopened.mirrors, hsingle, fun page hpage => ?_, fun pos hpos => ⟨?_, fun r hr => ?_⟩⟩
      · exact hplaced.sorted.imp ne_of_lt
      · have hbelow := hplaced.below page hpage
        exact ⟨hplaced.aligned page hpage, hbelow, hcursor ▸ hbelow⟩
      · obtain ⟨page, hmem, hslot⟩ := mem_flatMap.mp hpos
        obtain ⟨i, rfl, hi⟩ := mem_slots.mp hslot
        have hbelow := hplaced.below page hmem
        obtain ⟨k, hk⟩ := hpageSize.trans hpage
        rw [entrySize] at hk ⊢
        omega
      · have hvalid := hvalid pos hpos r hr
        have hwithin := hvalid.within
        have hfits := hvalid.fits
        exact ⟨hvalid.bucketID (entryAt_offset_lt hr), hfits, hwithin, hcursor ▸ hwithin,
          File.slice_eq hmax (by omega)⟩

/-- Junk but for a header, the links of two pages and an entry of the second page, whose extent
covers both pages. -/
def hostileData : Image := fun i =>
  if i < 4096 then Image.writeAll (fun _ => 255) (headerWrites (ID.bucketID ⟨1, 64⟩) 4096) i
  else if i < 8192 then (littleEndian 8 8192).getD (i - 4096) 255
  else if i < 8256 then (littleEndian 8 0).getD (i - 8192) 255
  else if i < 8304 then Image.writeAll (fun _ => 255)
    ((8256, littleEndian 8 published) :: entryWrites 8256 ⟨64, 4096, 5000, 8192, 0⟩) i
  else 255

def hostileFile : File := ⟨3 * 4096, hostileData, [], [], []⟩

/-- The file is accepted with its two pages, and the slice of the entry is in range. -/
theorem Bucket.openFile_safe_hostile : ∃ x, ({ medium := .closed hostileFile } : Bucket).openFile ⟨"/data", 4096, 4096⟩
      (ID.bucketID ⟨1, 64⟩) = .ok { medium := .mapped hostileFile x, opened := 1 } ∧
    x.pages = [4096, 8192] ∧ x.entries.lookup 64 = some 8256 ∧
    entryAt hostileFile.data 8256 = some ⟨64, 4096, 5000, 8192, 0⟩ ∧ 4096 + 8192 ≤ x.cursor ∧
    hostileFile.slice 4096 5000 = some (hostileFile.data.read 4096 5000) := by
  have hopened : (({ medium := .closed hostileFile } : Bucket).openFile ⟨"/data", 4096, 4096⟩
      (ID.bucketID ⟨1, 64⟩)).toOption.any (fun b => match b.medium with
        | .mapped _ x => x.pages = [4096, 8192] ∧ x.entries.lookup 64 = some 8256 ∧ 8256 ∈ x.positions
        | _ => false) = true := by decide +kernel
  have hentry : entryAt hostileFile.data 8256 = some ⟨64, 4096, 5000, 8192, 0⟩ := by decide +kernel
  obtain ⟨e, herror, -⟩ | ⟨x, hok, -, -, -, -, hpositions⟩ := openFile_safe ⟨"/data", 4096, 4096⟩
    (ID.bucketID ⟨1, 64⟩) {} hostileFile (by decide) (by decide)
  · rw [herror] at hopened
    exact absurd hopened Bool.false_ne_true
  · rw [hok] at hopened
    obtain ⟨hpages, hlookup, hpos⟩ := of_decide_eq_true hopened
    obtain ⟨-, -, -, hcursor, hslice⟩ := (hpositions 8256 hpos).2 _ hentry
    exact ⟨x, hok, hpages, hlookup, hentry, hcursor, hslice⟩

end swytch.durability
