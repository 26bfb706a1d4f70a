import Swytch.Durability.Preserve

namespace swytch.durability

open swytch.lib swytch.proto Function List Option Nat Image

/-- An open file that keeps its invariant, has these contents, and has these payloads in
every image since its last sync. -/
structure Mapped (env : Env) (id : BucketID) (f : File) (x : Index) (captured : List Extent)
    (contents durable : UInt64 → Option Bytes) : Prop where
  layout : Layout env id f x captured
  holds : Holds f x contents
  durable : Durable f x durable contents

variable {env : Env} {f f' : File} {x : Index} {captured : List Extent} {contents durable : UInt64 → Option Bytes}
  {pos : Nat} {m : Image} {offset : UInt64} {data : Bytes} {r : Record}

theorem Index.recordFor_small (hroom : x.cursor + x.room data ≤ f.size) (hbound : f.size < 2 ^ 63)
    (hblock : 0 < x.block) : (x.recordFor offset data).Small := by
  have hle : max data.length 1 ≤ x.room data := le_align hblock
  refine ⟨offset.toNat_lt, ?_, ?_, ?_, ?_⟩
  · show x.cursor < 2 ^ 64
    omega
  · show data.length < 2 ^ 64
    omega
  · show x.room data < 2 ^ 64
    omega
  · exact lt_trans (UInt32.toNat_lt _) (by decide)

/-- A publication of a new offset in the last free entry. -/
structure Fresh (id : BucketID) (f : File) (x : Index) (pos : Nat) (offset : UInt64) (data : Bytes) : Prop where
  free : x.free.getLast? = some pos
  new : offset ∉ x.entries
  room : x.cursor + x.room data ≤ f.size
  bucket : offset.toNat % fileCount = id.bucket.val

variable {id : BucketID} {x' : Index} {e : Extent}

theorem Fresh.entry (hf : Fresh id f x pos offset data) (h : Layout env id f x captured) :
    pos ∈ x.positions ∧ entryAt f.data pos = none :=
  (h.mirrors.free pos).mp (mem_of_mem_getLast? hf.free)

theorem Layout.length_le_room (h : Layout env id f x captured) (data : Bytes) :
    data.length ≤ x.room data ∧ 0 < x.room data := by
  have hblock := h.block.least
  have hle : max data.length 1 ≤ x.room data := le_align (by omega)
  omega

section

variable (hf : Fresh id f x pos offset data) (h : Layout env id f x captured)
include hf h

theorem Fresh.published :
    Published f pos (x.recordFor offset data) data (f.publish pos (x.recordFor offset data) data) := by
  have hblock := h.block.least
  have hbounds := h.ordered.position_bounds (hf.entry h).1
  exact File.publish_spec h.present (Index.recordFor_small hf.room h.bound (by omega)) rfl
    (.inl (by show pos + 64 ≤ x.cursor; omega))

theorem Fresh.sound :
    (x.recordFor offset data).Sound id (f.publish pos (x.recordFor offset data) data) (x.publish pos offset data)
      captured := by
  have hroom := h.length_le_room data
  have hpublished := hf.published h
  refine ⟨⟨hf.bucket, h.aligned, hroom.2, dvd_align _ _, hroom.1, le_rfl⟩, h.two_blocks, ?_, ?_, ?_⟩
  · intro q hq
    exact .inr (h.placed.below q hq)
  · intro e he
    rw [hpublished.punched] at he
    obtain hold | hcaptured := mem_append.mp he
    · exact .inr (h.old e hold)
    · exact .inr (h.holes e (mem_append_right _ hcaptured)).2.1
  · exact ⟨⟨x.recordFor offset data, data⟩, by rw [hpublished.written]; exact mem_cons_self, rfl⟩

/-- A publication changes the free entry and writes its payload behind the cursor. -/
theorem Fresh.revises (hm : Image.EqOutside (PublishRegion pos (x.recordFor offset data) data) f.data m) :
    Revises f.data m x 0 pos := by
  refine h.revises fun i hi => hm i fun hregion => hi ?_
  obtain ⟨hlo, hhi⟩ | ⟨hlo, -⟩ := hregion
  · exact .inl ⟨(hf.entry h).1, hlo, hhi⟩
  · exact .inr (.inr (.inr hlo))

theorem Fresh.change :
    Change f (f.publish pos (x.recordFor offset data) data) x (x.publish pos offset data) 0 pos
      (some (x.recordFor offset data)) where
  block := rfl
  pages := prefix_rfl
  added _ hq := .inl hq
  cursor := le_add_right _ _
  written s hs := by
    rw [(hf.published h).written]
    exact mem_cons_of_mem _ hs
  since m hm := ((hf.published h).since m hm).imp_right fun hout => hf.revises h hout.1
  data := hf.revises h (hf.published h).outside
  entry _ := (hf.published h).entry
  new _ hp hnew := absurd hp hnew

theorem Fresh.readable (hm : m ∈ (f.publish pos (x.recordFor offset data) data).since) :
    Readable id (f.publish pos (x.recordFor offset data) data) (x.publish pos offset data) captured m := by
  have hpublished := hf.published h
  have hc := hf.change h
  have hsound : ∀ r : Record, r.Sound id f x captured →
      r.Sound id (f.publish pos (x.recordFor offset data) data) (x.publish pos offset data) captured :=
    fun r hr => hr.mono rfl rfl hc.cursor (fun e he => by rwa [hpublished.punched] at he) hc.written
  obtain hold | ⟨hout, hentry⟩ := hpublished.since m hm
  · exact (h.readable m hold).mono rfl rfl hc.cursor hsound
  · refine (h.readable _ h.present).revise (hf.revises h hout) h.zero_notMem.1 rfl rfl hsound (fun _ r hr => ?_) ?_
    · obtain hnone | hsome := hentry
      · rw [hnone] at hr
        cases hr
      · rw [hsome] at hr
        cases hr
        exact hf.sound h
    · intro i hi
      have hbounds := h.ordered.position_bounds (hf.entry h).1
      have hroom := h.length_le_room data
      have hcur : (x.publish pos offset data).cursor = x.cursor + x.room data := rfl
      rw [hout i, (h.readable _ h.present).blank i (by omega)]
      have hpos : (x.recordFor offset data).pos = x.cursor := rfl
      unfold PublishRegion
      omega

theorem Fresh.mirrors : Mirrors (f.publish pos (x.recordFor offset data) data).data (x.publish pos offset data) := by
  have hoffset : UInt64.ofNat (x.recordFor offset data).offset = offset := UInt64.ofNat_toNat
  have hlast : x.free = x.free.dropLast ++ [pos] := (dropLast_append_getLast? pos hf.free).symm
  have hnodup := h.mirrors.nodup
  rw [hlast, nodup_append] at hnodup
  refine (hf.change h).mirrors h.mirrors (fun o p => ?_) (fun p => ?_) hnodup.1
  · show (x.entries.insert offset pos).lookup o = some p ↔ _
    by_cases ho : o = offset
    · subst ho
      simp only [Finmap.lookup_insert, Finmap.lookup_eq_none.mpr hf.new, some.injEq, reduceCtorEq, and_false,
        false_or, exists_eq_left', hoffset, and_true]
      exact ⟨fun heq => heq ▸ ⟨rfl, (hf.entry h).1⟩, fun hp => hp.1.symm⟩
    · have hne : x.entries.lookup o = some p → p ≠ pos := by
        rintro hp rfl
        obtain ⟨-, r, hr, -⟩ := (h.mirrors.entries o p).mp hp
        rw [(hf.entry h).2] at hr
        cases hr
      rw [Finmap.lookup_insert_of_ne _ ho]
      simp only [some.injEq, exists_eq_left', hoffset, Ne.symm ho, and_false, or_false]
      exact ⟨fun hp => ⟨hne hp, hp⟩, And.right⟩
  · show p ∈ x.free.dropLast ↔ _
    have hnew : p ∈ x.free.dropLast → p ≠ pos := fun hp => hnodup.2.2 p hp pos mem_cons_self
    have hfree : p ∈ x.free ↔ p ∈ x.free.dropLast ∨ p = pos := by
      conv_lhs => rw [hlast, mem_append, mem_singleton]
    rw [hfree]
    simp only [reduceCtorEq, and_false, false_or]
    constructor
    · exact fun hp => .inl ⟨hnew hp, .inl hp⟩
    · rintro (⟨hne, hp⟩ | ⟨hp, hnot⟩)
      · exact hp.resolve_right hne
      · exact absurd hp hnot

end

/-- A publication keeps the invariant of the file. -/
theorem Layout.publish (h : Layout env id f x captured) (hf : Fresh id f x pos offset data) :
    Layout env id (f.publish pos (x.recordFor offset data) data) (x.publish pos offset data) captured := by
  have hpublished := hf.published h
  have hc := hf.change h
  refine h.change hc (h.placed.mono hc.cursor) h.last (Nat.dvd_add h.aligned (dvd_align _ _)) hpublished.size hf.room
    hpublished.present (fun m hm => hf.readable h hm) (fun s hs => ?_)
    (h.path.of_load fun q hq => hc.data.links q hq fun heq => h.zero_notMem.1 (heq ▸ hq)) (hf.mirrors h)
    (fun r hr => ?_) (fun e he => ?_) fun e he => .inl he
  · rw [hpublished.written] at hs
    obtain rfl | hs := mem_cons.mp hs
    · exact ⟨rfl, rfl⟩
    · exact h.log s hs
  · cases hr
    exact ⟨le_rfl, _, by rw [hpublished.written]; exact mem_cons_self, rfl, hpublished.payload⟩
  · rw [hpublished.punched] at he
    exact h.old e he

theorem Mapped.publish (h : Mapped env id f x captured contents durable) (hf : Fresh id f x pos offset data) :
    Mapped env id (f.publish pos (x.recordFor offset data) data) (x.publish pos offset data) captured
      (update contents offset (some data)) durable := by
  have hc := hf.change h.layout
  have hpublished := hf.published h.layout
  have hoffset : UInt64.ofNat (x.recordFor offset data).offset = offset := UInt64.ofNat_toNat
  have hfree : ∀ o, ¬Publishes f.data pos o := by
    rintro o ⟨r, hr, -⟩
    rw [(hf.entry h.layout).2] at hr
    cases hr
  refine ⟨h.layout.publish hf, hc.holds h.layout.mirrors h.holds fun o d => ?_,
    hc.endures h.layout h.durable (fun hzero => absurd hzero h.layout.zero_notMem.1)
      (fun o d hd => ⟨hd, fun hpos => hfree o hpos.2⟩) (h.durable.ahead.trans (le_succ _)) fun hclean => ?_⟩
  · simp only [hfree, and_false, not_false_eq_true, and_true, (hf.entry h.layout).1, true_and, some.injEq,
      exists_eq_left', hoffset, hpublished.payload]
    by_cases ho : o = offset
    · subst ho
      have hnone : contents o ≠ some d := by
        intro hd
        obtain ⟨p, hp, r, hr, hro, -⟩ := (h.holds o d).mp hd
        exact hf.new (Finmap.mem_of_lookup_eq_some ((h.layout.mirrors.entries o p).mpr ⟨hp, r, hr, hro⟩))
      simp [hnone]
    · simp [ho, Ne.symm ho]
  · have hahead := h.durable.ahead
    have hgeneration : x.generation + 1 = x.synced := hclean
    omega

/-- The entry that is freed, with the record it has. -/
structure Freed (f : File) (x : Index) (pos : Nat) (offset : UInt64) (r : Record) : Prop where
  position : pos ∈ x.positions
  entry : entryAt f.data pos = some r
  offset : UInt64.ofNat r.offset = offset

theorem Layout.freed (h : Layout env id f x captured) (hlookup : x.entries.lookup offset = some pos) :
    ∃ r, Freed f x pos offset r := by
  obtain ⟨hpos, r, hr, hoffset⟩ := (h.mirrors.entries offset pos).mp hlookup
  exact ⟨r, hpos, hr, hoffset⟩

theorem extent_of_entryAt (hr : entryAt m pos = some r) :
    (⟨m.load (pos + 16), m.load (pos + 32)⟩ : Extent) = r.extent := by
  unfold entryAt at hr
  split at hr
  · cases hr
    rfl
  · cases hr

theorem File.save_sameOn {value lo hi : Nat} (h : hi ≤ pos ∨ pos + 8 ≤ lo) :
    Image.SameOn f.data (f.save pos value).data lo hi :=
  write_sameOn (by rw [length_littleEndian]; exact h)

theorem entryAt_save_deleted (f : File) (pos : Nat) : entryAt (f.save pos deleted).data pos = none := by
  apply entryAt_eq_none
  show (f.data.write pos (littleEndian 8 deleted)).load pos ≠ published
  rw [load_write _ _ (by decide)]
  decide

theorem Freed.change (hf : Freed f x pos offset r) (h : Layout env id f x captured) :
    Change f (f.save pos deleted) x (x.unpublish f pos offset) 0 pos none := by
  have hrevises : Revises f.data (f.save pos deleted).data x 0 pos := by
    refine h.revises ((Image.EqOutside.refl _ _).write fun i hlo hhi => .inl ⟨hf.position, hlo, ?_⟩)
    rw [length_littleEndian] at hhi
    omega
  refine ⟨rfl, prefix_rfl, fun _ hq => .inl hq, le_rfl, fun _ hs => hs, fun m hm => ?_, hrevises,
    fun _ => entryAt_save_deleted f pos, fun _ hp hnew => absurd hp hnew⟩
  obtain rfl | hold := mem_cons.mp hm
  · exact .inr hrevises
  · exact .inl hold

theorem Freed.mirrors (hf : Freed f x pos offset r) (h : Layout env id f x captured) :
    Mirrors (f.save pos deleted).data (x.unpublish f pos offset) := by
  have hpos : pos ∉ x.free := by
    intro hfree
    have hnone := ((h.mirrors.free pos).mp hfree).2
    rw [hf.entry] at hnone
    cases hnone
  have hlookup := (h.mirrors.entries offset pos).mpr ⟨hf.position, r, hf.entry, hf.offset⟩
  refine (hf.change h).mirrors h.mirrors (fun o p => ?_) (fun p => ?_) ?_
  · show (x.entries.erase offset).lookup o = some p ↔ _
    by_cases ho : o = offset
    · subst ho
      simp [hlookup, eq_comm]
    · have hne : x.entries.lookup o = some p → p ≠ pos := by
        rintro hp rfl
        obtain ⟨-, r', hr', ho'⟩ := (h.mirrors.entries o p).mp hp
        rw [hf.entry] at hr'
        cases hr'
        exact ho (ho'.symm.trans hf.offset)
      rw [Finmap.lookup_erase_ne ho]
      simp only [reduceCtorEq, false_and, exists_false, and_false, or_false]
      exact ⟨fun hp => ⟨hne hp, hp⟩, And.right⟩
  · show p ∈ x.free ++ [pos] ↔ _
    rw [mem_append, mem_singleton]
    constructor
    · rintro (hp | rfl)
      · exact .inl ⟨fun heq => hpos (heq ▸ hp), hp⟩
      · exact .inr (.inl ⟨rfl, hf.position, rfl⟩)
    · rintro (⟨-, hp⟩ | ⟨hp, -⟩ | ⟨hp, hnot⟩)
      · exact .inl hp
      · exact .inr hp
      · exact absurd hp hnot
  · show (x.free ++ [pos]).Nodup
    exact nodup_append.mpr ⟨h.mirrors.nodup, nodup_singleton pos, fun p hp p' hp' heq => by
      obtain rfl := mem_singleton.mp hp'
      exact hpos (heq ▸ hp)⟩

/-- Freeing an entry keeps the invariant of the file. -/
theorem Layout.unpublish (h : Layout env id f x captured) (hf : Freed f x pos offset r) :
    Layout env id (f.save pos deleted) (x.unpublish f pos offset) captured := by
  have hc := hf.change h
  have hsound : ∀ r : Record, r.Sound id f x captured →
      r.Sound id (f.save pos deleted) (x.unpublish f pos offset) captured :=
    fun r hr => hr.mono rfl rfl le_rfl (fun e he => he) fun s hs => hs
  refine h.change hc h.placed h.last h.aligned rfl h.fits mem_cons_self (fun m hm => ?_) h.log
    (h.path.of_load fun q hq => hc.data.links q hq fun heq => h.zero_notMem.1 (heq ▸ hq)) (hf.mirrors h)
    (fun r hr => (by cases hr)) h.old fun e he => ?_
  · obtain rfl | hold := mem_cons.mp hm
    · have hcurrent := h.readable _ h.present
      refine hcurrent.revise hc.data h.zero_notMem.1 rfl rfl hsound (fun _ r' hr' => ?_) fun i hi => ?_
      · cases hr'.symm.trans (entryAt_save_deleted f pos)
      · have hbounds := h.ordered.position_bounds hf.position
        have hcur : (x.unpublish f pos offset).cursor = x.cursor := rfl
        have hsame : Image.SameOn f.data (f.save pos deleted).data i (i + 1) := File.save_sameOn (by omega)
        exact (hsame i le_rfl (lt_succ_self i)).trans (hcurrent.blank i hi)
    · exact (h.readable m hold).mono rfl rfl le_rfl hsound
  · have he' : e ∈ (x.punches ++ [(⟨f.data.load (pos + 16), f.data.load (pos + 32)⟩ : Extent)]) ++ captured := he
    rw [extent_of_entryAt hf.entry] at he'
    have hcases : e ∈ x.punches ++ captured ∨ e = r.extent := by
      simp only [mem_append, mem_singleton] at he' ⊢
      tauto
    exact hcases.imp_right fun heq => ⟨rfl, hf.position, r, hf.entry, heq.symm⟩

section

variable (h : Mapped env id f x captured contents durable) {size : Nat}
include h

theorem Mapped.unpublish (hlookup : x.entries.lookup offset = some pos) :
    Mapped env id (f.save pos deleted) (x.unpublish f pos offset) captured (update contents offset none)
      (update durable offset none) := by
  obtain ⟨r, hf⟩ := h.layout.freed hlookup
  have hc := hf.change h.layout
  have hpublishes : ∀ o, Publishes f.data pos o ↔ o = offset := by
    intro o
    rw [Publishes, hf.entry]
    simp [hf.offset, eq_comm]
  have hupdate : ∀ (c : UInt64 → Option Bytes) (o d), update c offset none o = some d ↔
      c o = some d ∧ ¬(pos ∈ x.positions ∧ Publishes f.data pos o) := by
    intro c o d
    rw [hpublishes]
    by_cases ho : o = offset
    · subst ho
      simp [hf.position]
    · simp [ho]
  refine ⟨h.layout.unpublish hf, hc.holds h.layout.mirrors h.holds fun o d => ?_,
    hc.endures h.layout h.durable (fun hzero => absurd hzero h.layout.zero_notMem.1)
      (fun o d hd => (hupdate durable o d).mp hd) (h.durable.ahead.trans (le_succ _)) fun hclean => ?_⟩
  · rw [hupdate]
    simp
  · have hahead := h.durable.ahead
    have hgeneration : x.generation + 1 = x.synced := hclean
    omega

/-- A step that changes no entry keeps what the file has and what of it is durable. -/
theorem Mapped.change {captured' : List Extent} {link : Nat} (hc : Change f f' x x' link 0 none)
    (hlink : link ∈ x.pages → f.data.load link = 0) (hlayout : Layout env id f' x' captured')
    (hgeneration : x'.generation = x.generation) (hsynced : x'.synced = x.synced) :
    Mapped env id f' x' captured' contents durable := by
  have hzero := h.layout.zero_notMem.2
  refine ⟨hlayout, hc.holds h.layout.mirrors h.holds fun o d => ?_,
    hc.endures h.layout h.durable hlink (fun o d hd => ⟨hd, fun hpos => hzero hpos.1⟩) ?_ ?_⟩
  · simp [hzero]
  · rw [hgeneration, hsynced]
    exact h.durable.ahead
  · rw [hgeneration, hsynced]
    exact h.durable.clean

/-- A file that is made larger by whole blocks. -/
theorem Mapped.resize (hfits : x.cursor ≤ size) (hrounded : x.block ∣ size) (hbound : size < 2 ^ 63) :
    Mapped env id { f with size := size } x captured contents durable := by
  have hl := h.layout
  refine ⟨⟨hl.block, hl.first, hl.last, hl.placed, hl.aligned, hrounded, hfits, hbound, hl.present, fun m hm => ?_,
    hl.log, hl.path, hl.mirrors, hl.apart, hl.intact, hl.old, hl.holes⟩, h.holds,
    ⟨h.durable.kept, h.durable.ahead, h.durable.clean⟩⟩
  exact (hl.readable m hm).mono rfl rfl le_rfl fun r hr => hr.mono rfl rfl le_rfl (fun e he => he) fun s hs => hs

theorem Mapped.grow (hgrow : f.grow size = .ok f') :
    Mapped env id f' x captured contents durable ∧ size ≤ f'.size := by
  have hle : size ≤ align size (2 ^ 20) := le_align (by decide)
  have hrounded : x.block ∣ align size (2 ^ 20) := h.layout.block.divides.trans (dvd_align _ _)
  have hfits := h.layout.fits
  unfold File.grow at hgrow
  generalize align size (2 ^ 20) = n at hgrow hle hrounded
  by_cases hsmall : size ≤ f.size
  · rw [if_pos hsmall] at hgrow
    cases hgrow
    exact ⟨h, hsmall⟩
  · rw [if_neg hsmall] at hgrow
    by_cases hlarge : 2 ^ 63 - 1 < size
    · rw [if_pos hlarge] at hgrow
      cases hgrow
    · rw [if_neg hlarge] at hgrow
      by_cases hbound : 2 ^ 63 - 1 < n
      · rw [if_pos hbound] at hgrow
        cases hgrow
      · rw [if_neg hbound] at hgrow
        cases hgrow
        exact ⟨h.resize (by omega) hrounded (by omega), hle⟩

end

theorem mem_positions_addPage : pos ∈ x.addPage.positions ↔ pos ∈ x.positions ∨ pos ∈ slots x.block x.cursor := by
  show pos ∈ (x.pages ++ [x.cursor]).flatMap (slots x.block) ↔ _
  rw [flatMap_append, flatMap_singleton, mem_append]
  rfl

theorem Record.Sound.addPage (h : r.Sound id f x captured) (hpunched : f'.punched = f.punched)
    (hwritten : f'.written = f.written) :
    r.Sound id f' x.addPage captured where
  valid := h.valid.mono (le_add_right _ _)
  low := h.low
  pages q hq := by
    obtain hold | hnew := mem_append.mp hq
    · exact h.pages q hold
    · obtain rfl := mem_singleton.mp hnew
      exact .inl h.valid.within
  dead := by rw [hpunched]; exact h.dead
  logged := by rw [hwritten]; exact h.logged

section

variable (h : Layout env id f x captured)
include h

theorem Layout.last_mem : x.lastPage ∈ x.pages :=
  mem_of_mem_getLast? h.last

theorem Layout.clear_eq : f.data.write x.cursor (replicate x.block 0) = f.data := by
  funext i
  unfold write
  split
  · rename_i hi
    rw [(h.readable _ h.present).blank i hi]
    cases hget : (replicate x.block (0 : Fin 256))[i - x.cursor]? with
    | none => rfl
    | some b =>
      rw [getD_some]
      exact (mem_replicate.mp (mem_of_getElem? hget)).2
  · rfl

theorem Layout.addPage_data : (f.addPage x).data = f.data.write x.lastPage (littleEndian 8 x.cursor) := by
  show (f.data.write x.cursor (replicate x.block 0)).write x.lastPage (littleEndian 8 x.cursor) = _
  rw [h.clear_eq]

theorem Layout.addPage_link : (f.addPage x).data.load x.lastPage = x.cursor := by
  rw [h.addPage_data]
  refine load_write _ _ ?_
  have := h.fits
  have := h.bound
  omega

theorem Layout.mem_since_addPage (hm : m ∈ (f.addPage x).since) : m = (f.addPage x).data ∨ m ∈ f.since := by
  have hm' : m ∈ (f.addPage x).data :: f.data.write x.cursor (replicate x.block 0) :: f.since := hm
  rw [h.clear_eq] at hm'
  obtain rfl | hm' := mem_cons.mp hm'
  · exact .inl rfl
  · obtain rfl | hm' := mem_cons.mp hm'
    · exact .inr h.present
    · exact .inr hm'

theorem Layout.addPage_revises : Revises f.data (f.addPage x).data x x.lastPage 0 := by
  refine h.revises ?_
  rw [h.addPage_data]
  exact (Image.EqOutside.refl _ _).write fun i hlo hhi =>
    .inr (.inl ⟨h.last_mem, hlo, by rwa [length_littleEndian] at hhi⟩)

/-- Behind the cursor a new page is empty. -/
theorem Layout.addPage_blank : ∀ i, x.cursor ≤ i → (f.addPage x).data i = 0 := by
  intro i hi
  have hbelow := h.placed.below _ h.last_mem
  have hleast := h.block.least
  have hsame : Image.SameOn f.data (f.addPage x).data i (i + 1) := by
    rw [h.addPage_data]
    exact write_sameOn (.inr (by rw [length_littleEndian]; omega))
  rw [hsame i le_rfl (lt_succ_self i)]
  exact (h.readable _ h.present).blank i hi

end

theorem entryAt_new (hblank : ∀ i, x.cursor ≤ i → m i = 0) (hpos : pos ∈ slots x.block x.cursor) :
    entryAt m pos = none := by
  apply entryAt_eq_none
  obtain ⟨i, rfl, -⟩ := mem_slots.mp hpos
  rw [load_eq_zero fun i hi => hblank i (by omega)]
  decide

theorem Layout.addPage_change (h : Layout env id f x captured) :
    Change f (f.addPage x) x x.addPage x.lastPage 0 none where
  block := rfl
  pages := prefix_append _ _
  added q hq := by
    obtain hold | hnew := mem_append.mp hq
    · exact .inl hold
    · exact .inr (mem_singleton.mp hnew)
  cursor := le_add_right _ _
  written _ hs := hs
  since m hm := by
    obtain rfl | hold := h.mem_since_addPage hm
    · exact .inr h.addPage_revises
    · exact .inl hold
  data := h.addPage_revises
  entry hzero := absurd hzero h.zero_notMem.2
  new p hp hnew := entryAt_new h.addPage_blank ((mem_positions_addPage.mp hp).resolve_left hnew)

/-- An image in which the link of the last page is empty or leads to the new one. -/
theorem Readable.addPage {m' : Image} (h : Readable id f x captured m) (hl : Layout env id f x captured)
    (hrevises : Revises m m' x x.lastPage 0) (hlink : m'.load x.lastPage = 0 ∨ m'.load x.lastPage = x.cursor)
    (hblank : ∀ i, x.cursor ≤ i → m' i = 0) : Readable id (f.addPage x) x.addPage captured m' := by
  refine ⟨h.header.of_sameOn hrevises.header, ?_, ?_, ?_, fun i hi => hblank i (le_trans (le_add_right _ _) hi)⟩
  · show (x.pages ++ [x.cursor]).IsChain _
    refine List.IsChain.append (isChain_iff_getElem.mpr fun i hi => ?_) (isChain_singleton _) ?_
    · rw [hrevises.links _ (getElem_mem _) (hl.placed.ne_last hl.last i hi)]
      exact h.links.getElem i hi
    · intro q hq q' hq'
      cases hq.symm.trans hl.last
      cases hq'
      exact hlink
  · intro q hq
    have hq' : (x.pages ++ [x.cursor]).getLast? = some q := hq
    rw [getLast?_append] at hq'
    obtain rfl : x.cursor = q := by simpa using hq'
    exact load_eq_zero hblank
  · intro pos hpos r hr
    obtain hold | hnew := mem_positions_addPage.mp hpos
    · rw [hrevises.entries pos hold fun heq => hl.zero_notMem.2 (heq ▸ hold)] at hr
      exact (h.records pos hold r hr).addPage rfl rfl
    · rw [entryAt_new hblank hnew] at hr
      cases hr

theorem Layout.mirrors_addPage (h : Layout env id f x captured) : Mirrors (f.addPage x).data x.addPage := by
  have hzero := h.zero_notMem.2
  have hnew : ∀ pos ∈ slots x.block x.cursor, pos ∉ x.positions := by
    intro pos hslot hpos
    have hwithin := slot_within h.block.dvd hslot
    have hbounds := h.ordered.position_bounds hpos
    omega
  refine h.addPage_change.mirrors h.mirrors (fun o p => ?_) (fun p => ?_) ?_
  · show x.entries.lookup o = some p ↔ _
    simp only [reduceCtorEq, false_and, exists_false, and_false, or_false]
    exact ⟨fun hp => ⟨fun heq => hzero (heq ▸ ((h.mirrors.entries o p).mp hp).1), hp⟩, And.right⟩
  · show p ∈ x.free ++ slots x.block x.cursor ↔ _
    rw [mem_append, mem_positions_addPage]
    constructor
    · rintro (hp | hp)
      · exact .inl ⟨fun heq => hzero (heq ▸ ((h.mirrors.free p).mp hp).1), hp⟩
      · exact .inr (.inr ⟨.inr hp, hnew p hp⟩)
    · rintro (⟨-, hp⟩ | ⟨rfl, hp, -⟩ | ⟨hp, hnot⟩)
      · exact .inl hp
      · exact absurd hp hzero
      · exact .inr (hp.resolve_left hnot)
  · show (x.free ++ slots x.block x.cursor).Nodup
    refine nodup_append.mpr ⟨h.mirrors.nodup, slots_nodup _ _, fun p hp p' hp' heq => ?_⟩
    subst heq
    exact hnew p hp' ((h.mirrors.free p).mp hp).1

theorem Layout.placed_addPage (h : Layout env id f x captured) :
    Placed x.block (x.cursor + x.block) (x.pages ++ [x.cursor]) := by
  have htwo := h.two_blocks
  have hleast := h.block.least
  have hmem : ∀ q ∈ x.pages ++ [x.cursor], q ∈ x.pages ∨ q = x.cursor := by simp
  refine ⟨?_, fun q hq => ?_, fun q hq => ?_, fun q hq => ?_⟩
  · refine pairwise_append.mpr ⟨h.placed.sorted, pairwise_singleton _ _, fun q hq q' hq' => ?_⟩
    obtain rfl := mem_singleton.mp hq'
    have hbelow := h.placed.below q hq
    omega
  all_goals obtain hold | rfl := hmem q hq
  · exact h.placed.aligned q hold
  · exact h.aligned
  · exact h.placed.positive q hold
  · omega
  · exact (h.placed.below q hold).trans (le_add_right _ _)
  · exact le_rfl

/-- A new page of the table of contents keeps the invariant. -/
theorem Layout.addPage (h : Layout env id f x captured) (hroom : x.cursor + x.block ≤ f.size) :
    Layout env id (f.addPage x) x.addPage captured := by
  have hcurrent := h.readable _ h.present
  have hreadable : ∀ m ∈ (f.addPage x).since, Readable id (f.addPage x) x.addPage captured m := by
    intro m hm
    obtain rfl | hold := h.mem_since_addPage hm
    · exact hcurrent.addPage h h.addPage_revises (.inr h.addPage_link) h.addPage_blank
    · have hm := h.readable m hold
      exact hm.addPage h ⟨fun _ _ _ => rfl, fun _ _ _ => rfl, fun _ _ _ => rfl, fun _ _ _ _ _ => rfl⟩
        (.inl (hm.ends _ h.last)) hm.blank
  have hpresent : (f.addPage x).data ∈ (f.addPage x).since := mem_cons_self
  refine h.change h.addPage_change h.placed_addPage ?_ (Nat.dvd_add h.aligned (Nat.dvd_refl _)) rfl hroom hpresent
    hreadable h.log ⟨?_, (hreadable _ hpresent).ends⟩ h.mirrors_addPage (fun r hr => (by cases hr)) h.old
    fun e he => .inl he
  · show x.cursor ∈ (x.pages ++ [x.cursor]).getLast?
    rw [getLast?_append]
    rfl
  · show (x.pages ++ [x.cursor]).IsChain _
    refine List.IsChain.append (isChain_iff_getElem.mpr fun i hi => ?_) (isChain_singleton _) ?_
    · rw [h.addPage_revises.links _ (getElem_mem _) (h.placed.ne_last h.last i hi)]
      exact h.path.links.getElem i hi
    · intro q hq q' hq'
      cases hq.symm.trans h.last
      cases hq'
      exact h.addPage_link

theorem Mapped.addPage (h : Mapped env id f x captured contents durable) (hroom : x.cursor + x.block ≤ f.size) :
    Mapped env id (f.addPage x) x.addPage captured contents durable :=
  h.change h.layout.addPage_change (fun _ => h.layout.path.ends _ h.layout.last) (h.layout.addPage hroom) rfl rfl

theorem slots_ne_nil {block : Nat} (hblock : 4096 ≤ block) (page : Nat) : slots block page ≠ [] :=
  ne_nil_of_mem (mem_slots.mpr ⟨0, rfl, by omega⟩)

/-- Making room keeps everything and leaves room for the payload. -/
theorem Mapped.prepare (h : Mapped env id f x captured contents durable)
    (hprepare : prepareMapped f x data = .ok (f', x')) :
    Mapped env id f' x' captured contents durable ∧ x'.handle = x.handle ∧ x'.entries = x.entries ∧
      x'.free ≠ [] ∧ x'.cursor + x'.room data ≤ f'.size := by
  unfold prepareMapped at hprepare
  cases hgrow : f.grow (x.cursor + x.extra + x.room data) with
  | error e =>
    rw [hgrow] at hprepare
    cases hprepare
  | ok g =>
    rw [hgrow] at hprepare
    obtain ⟨hg, hsize⟩ := h.grow hgrow
    have hleast := h.layout.block.least
    have hpair := Except.ok.inj hprepare
    dsimp only at hpair
    by_cases hextra : x.extra = 0
    · rw [if_pos hextra] at hpair
      obtain ⟨rfl, rfl⟩ := Prod.mk.inj hpair
      refine ⟨hg, rfl, rfl, fun hfree => ?_, by omega⟩
      rw [Index.extra, if_pos hfree] at hextra
      omega
    · rw [if_neg hextra] at hpair
      obtain ⟨rfl, rfl⟩ := Prod.mk.inj hpair
      have hblock : x.extra = x.block := by
        unfold Index.extra at hextra ⊢
        split
        · rfl
        · rename_i hfree
          rw [if_neg hfree] at hextra
          exact absurd rfl hextra
      refine ⟨hg.addPage (by omega), rfl, rfl, fun hfree => ?_, ?_⟩
      · exact slots_ne_nil hleast x.cursor (append_eq_nil_iff.mp hfree).2
      · show x.cursor + x.block + x.room data ≤ g.size
        omega

/-- After a sync of a file that has no holes to punch, everything is durable, and the holes
of the entries that were freed may be punched. -/
theorem Mapped.sync (h : Mapped env id f x [] contents durable) :
    Mapped env id f.syncMapped { x with punches := [], synced := x.generation } x.punches contents contents := by
  have hl := h.layout
  have hcurrent := hl.readable _ hl.present
  have hholes : ∀ e ∈ [] ++ x.punches, 2 * x.block ≤ e.pos ∧ e.pos + e.size ≤ x.cursor ∧
      (∀ q ∈ x.pages, e.Disjoint ⟨q, x.block⟩) ∧
      ∀ pos ∈ x.positions, ∀ r, entryAt f.data pos = some r → r.extent.Disjoint e :=
    fun e he => hl.holes e (mem_append_left _ he)
  have hpresent : f.data ∈ f.syncMapped.since := mem_cons_self
  have hreadable : ∀ m ∈ f.syncMapped.since,
      Readable id f.syncMapped { x with punches := [], synced := x.generation } x.punches m := by
    intro m hm
    obtain rfl := mem_singleton.mp hm
    refine ⟨hcurrent.header, hcurrent.links, hcurrent.ends, fun pos hpos r hr => ?_, hcurrent.blank⟩
    have hr' := hcurrent.records pos hpos r hr
    refine ⟨hr'.valid, hr'.low, hr'.pages, fun e he => ?_, hr'.logged⟩
    obtain hold | hnew := mem_append.mp he
    · exact hr'.dead e (mem_append_left _ hold)
    · exact (hholes e hnew).2.2.2 pos hpos r hr
  refine ⟨⟨hl.block, hl.first, hl.last, hl.placed, hl.aligned, hl.rounded, hl.fits, hl.bound, hpresent, hreadable,
    hl.log, hl.path, ⟨hl.mirrors.entries, hl.mirrors.free, hl.mirrors.nodup⟩, hl.apart, hl.intact, hl.old, hholes⟩,
    h.holds, ?_, le_rfl, fun _ => rfl⟩
  intro o d hd
  obtain ⟨pos, hpos, r, hr, hoffset, hread⟩ := (h.holds o d).mp hd
  refine ⟨x.pages, pos, r, prefix_rfl, hpos, hoffset, fun m hm => ?_⟩
  obtain rfl := mem_singleton.mp hm
  exact ⟨hr, hread, hl.path.links⟩

theorem Layout.punch_change (h : Layout env id f x (e :: captured)) :
    Change f (f.punch e) x x 0 0 none := by
  have hrevises : Revises f.data (f.punch e).data x 0 0 :=
    h.revises ((Image.EqOutside.refl _ _).write fun i hlo hhi => .inr (.inr (.inl
      ⟨e, mem_append_right _ mem_cons_self, hlo, by rwa [length_replicate] at hhi⟩)))
  refine ⟨rfl, prefix_rfl, fun _ hq => .inl hq, le_rfl, fun _ hs => hs, fun m hm => ?_, hrevises,
    fun hzero => absurd hzero h.zero_notMem.2, fun _ hp hnew => absurd hp hnew⟩
  obtain rfl | hold := mem_cons.mp hm
  · exact .inr hrevises
  · exact .inl hold

/-- Punching a hole that a sync has captured keeps everything. -/
theorem Mapped.punch (h : Mapped env id f x (e :: captured) contents durable) :
    Mapped env id (f.punch e) x captured contents durable := by
  have hl := h.layout
  have hc := hl.punch_change
  obtain ⟨hpages, hpositions⟩ := hl.zero_notMem
  have hhigh := (hl.holes e (mem_append_right _ mem_cons_self)).2.1
  have hsound : ∀ r : Record, r.Sound id f x (e :: captured) → r.Sound id (f.punch e) x captured := by
    intro r hr
    refine hr.mono rfl rfl le_rfl (fun e' he' => ?_) fun s hs => hs
    have he'' : e' ∈ e :: f.punched ++ captured := he'
    simp only [cons_append, mem_cons, mem_append] at he'' ⊢
    tauto
  have hmirrors : Mirrors (f.punch e).data x := by
    refine hc.mirrors hl.mirrors (fun o p => ?_) (fun p => ?_) hl.mirrors.nodup
    · simp only [reduceCtorEq, false_and, exists_false, and_false, or_false]
      exact ⟨fun hp => ⟨fun heq => hpositions (heq ▸ ((hl.mirrors.entries o p).mp hp).1), hp⟩, And.right⟩
    · simp only [and_not_self, or_false]
      constructor
      · exact fun hp => .inl ⟨fun heq => hpositions (heq ▸ ((hl.mirrors.free p).mp hp).1), hp⟩
      · rintro (⟨-, hp⟩ | ⟨rfl, hp, -⟩)
        · exact hp
        · exact absurd hp hpositions
  refine h.change hc (fun hzero => absurd hzero hpages) (hl.change hc hl.placed hl.last hl.aligned rfl hl.fits
    mem_cons_self (fun m hm => ?_) hl.log (hl.path.of_load fun q hq => hc.data.links q hq fun heq => hpages (heq ▸ hq))
    hmirrors (fun r hr => (by cases hr)) (fun e' he' => ?_) fun e' he' => .inl ?_) rfl rfl
  · obtain rfl | hold := mem_cons.mp hm
    · refine (hl.readable _ hl.present).revise hc.data hpages rfl rfl hsound (fun hzero => absurd hzero hpositions)
        fun i hi => ?_
      have hsame : Image.SameOn f.data (f.punch e).data i (i + 1) :=
        write_sameOn (.inr (by rw [length_replicate]; omega))
      exact (hsame i le_rfl (lt_succ_self i)).trans ((hl.readable _ hl.present).blank i hi)
    · exact (hl.readable m hold).mono rfl rfl le_rfl hsound
  · obtain rfl | he' := mem_cons.mp he'
    · exact hhigh
    · exact hl.old e' he'
  · simp only [mem_append, mem_cons] at he' ⊢
    tauto

theorem Mapped.punchAll (h : Mapped env id f x captured contents durable) :
    Mapped env id (captured.foldl File.punch f) x [] contents durable := by
  induction captured generalizing f with
  | nil => exact h
  | cons e captured ih => exact ih h.punch

end swytch.durability
