import Swytch.Durability.Exact

namespace swytch.durability

open swytch.lib swytch.proto List Option Nat UInt64 Store durability.System Index ID

/-- An image a crash may leave of a file: every block has what it had in some image since the
last sync. -/
def File.CrashImage (f : File) (block : Nat) (m : Image) : Prop :=
  ∀ k, ∃ m₀ ∈ f.since, Image.SameOn m₀ m (k * block) ((k + 1) * block)

/-- The file after a crash. -/
def File.crashed (f : File) (m : Image) : File := { f with data := m, since := [m] }

/-- What a crash makes of the file of a bucket. -/
inductive Medium.Crashed : Medium → Medium → Prop
  | missing : Medium.Crashed .missing .missing
  | closed {f : File} {m : Image} (hm : f.CrashImage (f.data.load 16) m) :
    Medium.Crashed (.closed f) (.closed (f.crashed m))
  | mapped {f : File} {x : Index} {m : Image} (hm : f.CrashImage (f.data.load 16) m) :
    Medium.Crashed (.mapped f x) (.closed (f.crashed m))

/-- What a crash makes of a store: each file has an image of its own, and no sync is in
progress. -/
def Store.Crashed (s s' : Store) : Prop :=
  ∀ b, (s.get b).medium.Crashed (s'.get b).medium ∧ (s'.get b).capture = none

variable {m : Image} {env : Env} {x : Index} {captured : List Extent} {rest : List Nat}
  {durable contents : UInt64 → Option Bytes} {b b' : Bucket}

variable {f : File} {id : BucketID}

theorem File.CrashImage.byte {block : Nat} (h : f.CrashImage block m) (hblock : 0 < block) (i : Nat) :
    ∃ m₀ ∈ f.since, m i = m₀ i := by
  obtain ⟨m₀, hm₀, hsame⟩ := h (i / block)
  refine ⟨m₀, hm₀, hsame i (div_mul_le_self i block) ?_⟩
  have := lt_div_mul_add hblock (a := i)
  rw [succ_mul]
  exact this

theorem File.CrashImage.page {block q : Nat} (h : f.CrashImage block m) (hq : block ∣ q) :
    ∃ m₀ ∈ f.since, Image.SameOn m₀ m q (q + block) := by
  obtain ⟨k, rfl⟩ := hq
  obtain ⟨m₀, hm₀, hsame⟩ := h k
  rw [succ_mul, mul_comm k block] at hsame
  exact ⟨m₀, hm₀, hsame⟩

/-- A crash leaves a readable image. -/
theorem Layout.readable_crash (h : Layout env id f x captured) (hm : f.CrashImage x.block m) :
    Readable id f x captured m := by
  have hleast := h.block.least
  refine Readable.of_blocks h.ordered ?_ (fun q hq => ?_) fun i hi => ?_
  · obtain ⟨m₀, hm₀, hsame⟩ := hm.page (dvd_zero _)
    exact ⟨m₀, h.readable m₀ hm₀, hsame.mono le_rfl (by omega)⟩
  · obtain ⟨m₀, hm₀, hsame⟩ := hm.page (h.placed.aligned q hq)
    exact ⟨m₀, h.readable m₀ hm₀, hsame⟩
  · obtain ⟨m₀, hm₀, heq⟩ := hm.byte (by omega) i
    rw [heq]
    exact (h.readable m₀ hm₀).blank i hi

/-- The chain of pages an image leads along when its links are empty or right: it ends early
or not, but never before a page that every link before it leads to. -/
theorem exists_path {pages : List Nat} (hpages : pages ≠ []) (hpositive : ∀ q ∈ pages, 0 < q)
    (hlinks : pages.IsChain (fun q q' => m.load q = 0 ∨ m.load q = q')) (hends : ∀ q ∈ pages.getLast?, m.load q = 0) :
    ∃ toc, toc ≠ [] ∧ toc <+: pages ∧ Path m toc ∧
      ∀ toc', toc' <+: pages → toc'.IsChain (fun q q' => m.load q = q') → toc' <+: toc := by
  induction pages with
  | nil => exact absurd rfl hpages
  | cons q rest ih =>
    cases rest with
    | nil =>
      exact ⟨[q], cons_ne_nil _ _, prefix_rfl, ⟨isChain_singleton _, hends⟩, fun toc' htoc' _ => htoc'⟩
    | cons q' rest =>
      obtain ⟨hlink, hrest⟩ := isChain_cons_cons.mp hlinks
      have hq' := hpositive q' (by simp)
      by_cases hzero : m.load q = 0
      · refine ⟨[q], cons_ne_nil _ _, by simp, ⟨isChain_singleton _, ?_⟩, fun toc' htoc' hchain => ?_⟩
        · intro p hp
          obtain rfl : q = p := some.inj hp
          exact hzero
        · cases toc' with
          | nil => exact nil_prefix
          | cons p toc' =>
            obtain ⟨rfl, htail⟩ := cons_prefix_cons.mp htoc'
            cases toc' with
            | nil => exact prefix_rfl
            | cons p' toc' =>
              obtain ⟨rfl, -⟩ := cons_prefix_cons.mp htail
              have := (isChain_cons_cons.mp hchain).1
              omega
      · have hnext := hlink.resolve_left hzero
        obtain ⟨toc, hne, htoc, hpath, hmax⟩ := ih (cons_ne_nil _ _)
          (fun p hp => hpositive p (mem_cons_of_mem q hp)) hrest (by simpa [getLast?_cons_cons] using hends)
        obtain ⟨t, ht⟩ := htoc
        obtain ⟨p, toc₁, rfl⟩ := exists_cons_of_ne_nil hne
        obtain ⟨rfl, ht⟩ := cons.inj ht
        refine ⟨q :: p :: toc₁, cons_ne_nil _ _, ⟨t, by rw [← ht]; rfl⟩,
          ⟨isChain_cons_cons.mpr ⟨hnext, hpath.links⟩, by simpa [getLast?_cons_cons] using hpath.ends⟩,
          fun toc' htoc' hchain => ?_⟩
        cases toc' with
        | nil => exact nil_prefix
        | cons p₀ toc' =>
          obtain ⟨rfl, htail⟩ := cons_prefix_cons.mp htoc'
          exact cons_prefix_cons.mpr ⟨rfl, hmax toc' htail hchain.tail⟩

/-- The positions of the entries `open` reads. -/
def File.positions (f : File) : List Nat := (f.toc (f.data.load 16)).flatMap (slots (f.data.load 16))

/-- No published entry came to storage without its payload. -/
def File.Untorn (f : File) : Prop :=
  ∀ pos ∈ f.positions, ∀ r, entryAt f.data pos = some r →
    ∃ s ∈ f.written, s.record = r ∧ f.data.read r.pos r.size = s.data

/-- The checksum tells what is in the room of each record from its payload. -/
def File.CollisionFree (f : File) : Prop :=
  ∀ s ∈ f.written, s.record.checksum (f.data.read s.record.pos s.record.size) = s.record.sum →
    f.data.read s.record.pos s.record.size = s.data

/-- What a crash leaves of the pages of an open file. -/
structure CrashedAs (env : Env) (id : BucketID) (f : File) (x : Index) (captured : List Extent) (m : Image)
    (rest : List Nat) : Prop where
  readable : Readable id f x captured m
  initial : x.block :: rest <+: x.pages
  path : Path m (x.block :: rest)
  reaches : ∀ toc, toc <+: x.pages → toc.IsChain (fun q q' => m.load q = q') → toc <+: x.block :: rest

theorem Layout.exists_crashedAs (h : Layout env id f x captured) (hm : f.CrashImage x.block m) :
    ∃ rest, CrashedAs env id f x captured m rest := by
  have hreadable := h.readable_crash hm
  have hpages : x.pages ≠ [] := ne_nil_of_mem h.last_mem
  obtain ⟨toc, hne, htoc, hpath, hmax⟩ := exists_path hpages h.placed.positive hreadable.links hreadable.ends
  obtain ⟨q, rest, rfl⟩ := exists_cons_of_ne_nil hne
  obtain ⟨t, ht⟩ := htoc
  have hfirst := h.first
  rw [← ht] at hfirst
  obtain rfl : q = x.block := some.inj hfirst
  exact ⟨rest, hreadable, ⟨t, ht⟩, hpath, hmax⟩

theorem CrashedAs.mem_positions (h : CrashedAs env id f x captured m rest) {pos : Nat}
    (hpos : pos ∈ (x.block :: rest).flatMap (slots x.block)) : pos ∈ x.positions :=
  mem_positions_of_initial h.initial hpos

section

variable (h : CrashedAs env id f x captured m rest) (hl : Layout env id f x captured)
include h hl

theorem CrashedAs.placed : Placed x.block f.size (x.block :: rest) :=
  (hl.placed.mono hl.fits).of_sublist h.initial.sublist

theorem CrashedAs.toc_eq : (f.crashed m).toc x.block = x.block :: rest := by
  have hleast := hl.block.least
  exact Path.toc_eq (f := f.crashed m) (by omega) h.path (h.placed hl)

theorem CrashedAs.positions_eq : (f.crashed m).positions = (x.block :: rest).flatMap (slots x.block) := by
  rw [File.positions, show (f.crashed m).data.load 16 = x.block from h.readable.header.block, h.toc_eq hl]

theorem CrashedAs.checkHeader : (f.crashed m).checkHeader env id = .ok x.block := by
  have hfits := hl.fits
  have htwo := hl.two_blocks
  exact Header.checkHeader (f := f.crashed m) h.readable.header hl.block (by show 2 * x.block ≤ f.size; omega)

/-- After a crash the file opens exactly if no effect is published twice in it. -/
theorem CrashedAs.scan_iff (handle : Nat) : (∃ x', scan id (f.crashed m) x.block handle = .ok x' ∧
      OpenedAs (f.crashed m) x.block handle (x.block :: rest) x') ↔ Single m (f.crashed m).positions := by
  have hleast := hl.block.least
  have htwo := hl.two_blocks
  have hfits := hl.fits
  have hsize : 2 * x.block ≤ (f.crashed m).size := by
    show 2 * x.block ≤ f.size
    omega
  rw [h.positions_eq hl]
  constructor
  · rintro ⟨x', hscan, -⟩
    have hsane := (scan_spec hscan (by omega) hsize).2
    exact h.toc_eq hl ▸ hsane.single
  · intro hsingle
    refine exists_scan (by omega) hsize h.path (h.placed hl) (fun pos hpos r hr => ?_) hsingle
    exact (h.readable.records pos (h.mem_positions hpos) r hr).valid.mono hfits

theorem CrashedAs.checked_iff (hfree : (f.crashed m).CollisionFree) :
    Checked m (f.crashed m).positions ↔ (f.crashed m).Untorn := by
  constructor
  · intro hchecked pos hpos r hr
    have hpos' := hpos
    rw [h.positions_eq hl] at hpos'
    obtain ⟨s, hs, rfl⟩ := (h.readable.records pos (h.mem_positions hpos') r hr).logged
    exact ⟨s, hs, rfl, hfree s hs (hchecked pos hpos _ hr)⟩
  · intro huntorn pos hpos r hr
    obtain ⟨s, hs, rfl, hread⟩ := huntorn pos hpos r hr
    rw [(hl.log s hs).2]
    exact congrArg _ hread

end

theorem sameOn_of_read_eq {m' : Image} {pos n : Nat} (h : m'.read pos n = m.read pos n) :
    Image.SameOn m m' pos (pos + n) := by
  intro i hlo hhi
  have hget := congrArg (fun l => l[i - pos]?) h
  have hi : pos + (i - pos) = i := by omega
  simp only [Image.read, getElem?_map, getElem?_range (show i - pos < n by omega), map_some, hi] at hget
  exact some.inj hget

/-- What is durable is on the pages a crash leaves, with its bytes. -/
theorem CrashedAs.kept (h : CrashedAs env id f x captured m rest) (hl : Layout env id f x captured)
    (hm : f.CrashImage x.block m) (hdurable : Durable f x durable contents) {o : UInt64} {d : Bytes}
    (hd : durable o = some d) :
    ∃ pos ∈ (f.crashed m).positions, ∃ r, entryAt m pos = some r ∧ ofNat r.offset = o ∧
      m.read r.pos r.size = d := by
  have hleast := hl.block.least
  obtain ⟨toc, pos, r, htoc, hpos, hoffset, hkept⟩ := hdurable.kept o d hd
  have hchain : toc.IsChain (fun q q' => m.load q = q') := by
    rw [isChain_iff_getElem]
    intro i hi
    have hmem : toc[i] ∈ x.pages := htoc.subset (getElem_mem (lt_of_succ_lt hi))
    obtain ⟨m₀, hm₀, hsame⟩ := hm.page (hl.placed.aligned _ hmem)
    rw [(hsame.mono le_rfl (by omega)).load_eq]
    exact (hkept m₀ hm₀).2.2.getElem i hi
  have hposition : pos ∈ (x.block :: rest).flatMap (slots x.block) := by
    obtain ⟨q, hq, hslot⟩ := mem_flatMap.mp hpos
    exact mem_flatMap.mpr ⟨q, (h.reaches toc htoc hchain).subset hq, hslot⟩
  refine ⟨pos, by rw [h.positions_eq hl]; exact hposition, r, ?_, hoffset, ?_⟩
  · obtain ⟨q, hq, hlo, hhi⟩ := hl.ordered.position_within (h.mem_positions hposition)
    obtain ⟨m₀, hm₀, hsame⟩ := hm.page (hl.placed.aligned q hq)
    rw [entryAt_of_sameOn (hsame.mono (by omega) (by omega))]
    exact (hkept m₀ hm₀).1
  · -- every byte comes from an image that has the payload
    have hpresent := (hkept _ hl.present).2.1
    have hsame : Image.SameOn f.data m r.pos (r.pos + r.size) := by
      intro i hlo hhi
      obtain ⟨m₀, hm₀, heq⟩ := hm.byte (by omega) i
      rw [heq]
      exact sameOn_of_read_eq ((hkept m₀ hm₀).2.1.trans hpresent.symm) i hlo hhi
    rw [hsame.read_eq, hpresent]

/-- A file after a crash that an open file has left, and what it says of the bucket. -/
structure Bucket.Survives (env : Env) (id : BucketID) (durable : UInt64 → Option Bytes) (b : Bucket) (f : File) :
    Prop where
  medium : b.medium = .closed f
  opens : ∀ {b'}, b.openFile env id = .ok b' → ∃ x, b'.medium = .mapped f x ∧ x.positions = f.positions
  opens_iff : (∃ b', b.openFile env id = .ok b') ↔ Single f.data f.positions
  checked_iff : f.CollisionFree → (Checked f.data f.positions ↔ f.Untorn)
  kept : ∀ o d, durable o = some d → ∃ pos ∈ f.positions, ∃ r, entryAt f.data pos = some r ∧
    ofNat r.offset = o ∧ f.data.read r.pos r.size = d
  unpunched : ∀ pos ∈ f.positions, ∀ r, entryAt f.data pos = some r → r.size ≤ r.allocated ∧
    (∀ e ∈ f.punched, r.extent.Disjoint e) ∧ (⟨id.node, ofNat r.offset⟩ : ID).bucketID = id

theorem Mapped.survives (h : Mapped env id f x captured contents durable) (hm : f.CrashImage x.block m)
    (hmedium : b.medium = .closed (f.crashed m)) : b.Survives env id durable (f.crashed m) := by
  have hl := h.layout
  obtain ⟨rest, hcrash⟩ := hl.exists_crashedAs hm
  have hscan := hcrash.scan_iff hl b.opened
  have hopen := Bucket.openFile_eq hmedium (hcrash.checkHeader hl)
  have hspec : ∀ {x'}, scan id (f.crashed m) x.block b.opened = .ok x' →
      OpenedAs (f.crashed m) x.block b.opened (x.block :: rest) x' := by
    intro x' hx'
    have hfits := hl.fits
    have htwo := hl.two_blocks
    have hleast := hl.block.least
    have hopened := (scan_spec hx' (by omega) (by show 2 * x.block ≤ f.size; omega)).1
    rwa [hcrash.toc_eq hl] at hopened
  refine ⟨hmedium, fun {b'} hb' => ?_, ⟨?_, ?_⟩, hcrash.checked_iff hl, fun o d => hcrash.kept hl hm h.durable,
    fun pos hpos r hr => ?_⟩
  · rw [hopen] at hb'
    cases hx' : scan id (f.crashed m) x.block b.opened with
    | error e =>
      rw [hx'] at hb'
      cases hb'
    | ok x' =>
      rw [hx'] at hb'
      cases hb'
      have hopened := hspec hx'
      refine ⟨x', rfl, ?_⟩
      rw [hcrash.positions_eq hl, positions, hopened.pages, hopened.block]
  · rintro ⟨b', hb'⟩
    rw [hopen] at hb'
    cases hx' : scan id (f.crashed m) x.block b.opened with
    | error e =>
      rw [hx'] at hb'
      cases hb'
    | ok x' => exact hscan.mp ⟨x', hx', hspec hx'⟩
  · intro hsingle
    obtain ⟨x', hx', -⟩ := hscan.mpr hsingle
    exact ⟨_, by rw [hopen, hx']; rfl⟩
  · rw [hcrash.positions_eq hl] at hpos
    have hsound := hcrash.readable.records pos (hcrash.mem_positions hpos) r hr
    exact ⟨hsound.valid.fits, fun e he => hsound.dead e (mem_append_left _ he),
      hsound.valid.bucketID (entryAt_offset_lt hr)⟩

/-- After a crash a bucket has no file, or one that an open file has left. -/
theorem Bucket.Inv.survives (h : b.Inv env id contents durable) (hready : b.Ready)
    (hcrash : b.medium.Crashed b'.medium) :
    (b'.medium = .missing ∧ ∀ o, durable o = none) ∨ ∃ f, b'.Survives env id durable f := by
  have hstands := h.stands
  cases hmedium : b.medium with
  | missing =>
    rw [hmedium] at hstands hcrash
    cases hb' : b'.medium with
    | missing => exact .inl ⟨rfl, hstands.2⟩
    | closed f =>
      rw [hb'] at hcrash
      cases hcrash
    | mapped f x =>
      rw [hb'] at hcrash
      cases hcrash
  | closed f => exact absurd hmedium (hready f)
  | mapped f x =>
    rw [hmedium] at hstands hcrash
    obtain ⟨-, hmapped⟩ := hstands
    cases hb' : b'.medium with
    | missing =>
      rw [hb'] at hcrash
      cases hcrash
    | closed g =>
      rw [hb'] at hcrash
      cases hcrash with
      | mapped hm =>
        rw [((hmapped.layout.readable _ hmapped.layout.present).header.block)] at hm
        exact .inr ⟨_, hmapped.survives hm hb'⟩
    | mapped g y =>
      rw [hb'] at hcrash
      cases hcrash

theorem Bucket.Survives.reports_eq (h : b.Survives env id durable f) (hopen : b.openFile env id = .ok b') :
    b'.reports id = reportsAt id f.data f.positions := by
  obtain ⟨x, hmedium, hpositions⟩ := h.opens hopen
  rw [Bucket.reports, hmedium, ← hpositions]

theorem Bucket.Survives.checks_iff (h : b.Survives env id durable f) (hopen : b.openFile env id = .ok b')
    (hfree : f.CollisionFree) : b'.Checks ↔ f.Untorn := by
  obtain ⟨x, hmedium, hpositions⟩ := h.opens hopen
  rw [← h.checked_iff hfree, ← hpositions]
  refine ⟨fun hchecks => hchecks f x hmedium, fun hchecked g y hg => ?_⟩
  rw [hmedium] at hg
  obtain ⟨rfl, rfl⟩ := Medium.mapped.inj hg
  exact hchecked

/-- The directory opens and `Recover` completes, with every record that is to be durable, and
with no byte of a punched hole. -/
def Store.Recovers (env : Env) (durable : ID → Option Bytes) (opening ranges : RangeOrder BucketID)
    (s : Store) : Prop :=
  ∃ opened reports, s.openFiles env opening = .ok opened ∧ opened.recover env ranges = .ok reports ∧
    (∀ id d, durable id = some d → ∃ report ∈ reports, report.id = id ∧ report.data = d) ∧
    ∀ report ∈ reports, ∀ f, (s.get report.id.bucketID).medium = .closed f →
      ∀ e ∈ f.punched, (⟨report.pos, report.data.length⟩ : Extent).Disjoint e

/-- After a crash that a run ends in, the records that a sync had reached and that were not
deleted since are recovered exactly if no entry came to storage without its payload and no
effect is published twice. -/
theorem crash_recovery_iff (env : Env) (hblock : BlockSize env env.block) (actions : List Action) (s : System)
    (hrun : run env actions = .ok s) (crashed : Store) (hcrash : s.store.Crashed crashed)
    (hfree : ∀ b f, (crashed.get b).medium = .closed f → f.CollisionFree) (opening ranges : RangeOrder BucketID) :
    crashed.Recovers env s.spec.durable opening ranges ↔
      ∀ b f, (crashed.get b).medium = .closed f → f.Untorn ∧ Single f.data f.positions := by
  obtain ⟨s₀, hrun₀, hinv⟩ := exists_run hblock actions
  rw [hrun] at hrun₀
  cases hrun₀
  have hsurvives : ∀ b, ((crashed.get b).medium = .missing ∧ ∀ o, restrict s.spec.durable b o = none) ∨
      ∃ f, (crashed.get b).Survives env b (restrict s.spec.durable b) f :=
    fun b => (hinv b).1.survives (hinv b).2 (hcrash b).1
  have hfile : ∀ b f, (crashed.get b).medium = .closed f →
      (crashed.get b).Survives env b (restrict s.spec.durable b) f := by
    intro b f hf
    obtain ⟨hmissing, -⟩ | ⟨g, hg⟩ := hsurvives b
    · rw [hf] at hmissing
      cases hmissing
    · rw [hg.medium] at hf
      cases hf
      exact hg
  have hmissing : ∀ b, (crashed.get b).medium = .missing → (crashed.get b).openFile env b = .ok (crashed.get b) := by
    intro b hb
    rw [Bucket.openFile, hb]
  constructor
  · rintro ⟨opened, reports, hopen, hrecover, -, -⟩ b f hf
    have hb := hfile b f hf
    have hopened := openFiles_spec hopen b
    exact ⟨(hb.checks_iff hopened (hfree b f hf)).mp ((recover_iff.mp hrecover).1 b),
      hb.opens_iff.mp ⟨_, hopened⟩⟩
  · intro hgood
    obtain ⟨opened, hopen⟩ : ∃ opened, crashed.openFiles env opening = .ok opened := by
      refine exists_openFiles opening fun b => ?_
      obtain ⟨hnone, -⟩ | ⟨f, hf⟩ := hsurvives b
      · exact ⟨_, hmissing b hnone⟩
      · exact hf.opens_iff.mpr (hgood b f hf.medium).2
    have hopened := openFiles_spec hopen
    have hchecks : ∀ b, (opened.get b).Checks := by
      intro b
      obtain ⟨hnone, -⟩ | ⟨f, hf⟩ := hsurvives b
      · have heq := Except.ok.inj ((hmissing b hnone).symm.trans (hopened b))
        rw [← heq]
        intro g x hg
        rw [hnone] at hg
        cases hg
      · exact (hf.checks_iff (hopened b) (hfree b f hf.medium)).mpr (hgood b f hf.medium).1
    refine ⟨opened, _, hopen, recover_iff.mpr ⟨hchecks, rfl⟩, fun id d hd => ?_, fun report hreport f hf e he => ?_⟩
    · rw [← restrict_bucketID s.spec.durable id] at hd
      obtain ⟨-, hnone⟩ | ⟨f, hf⟩ := hsurvives id.bucketID
      · rw [hnone] at hd
        cases hd
      · obtain ⟨pos, hpos, r, hr, hoffset, hread⟩ := hf.kept _ _ hd
        have hmem : r.report id.bucketID f.data ∈ (opened.get id.bucketID).reports id.bucketID := by
          rw [hf.reports_eq (hopened _)]
          exact mem_reportsAt.mpr ⟨pos, hpos, r, hr, rfl⟩
        have hkey : id.bucketID ∈ opened.keys := by
          by_contra hnot
          rw [get_of_notMem hnot] at hmem
          exact absurd hmem not_mem_nil
        refine ⟨_, mem_flatMap.mpr ⟨_, (ranges.mem_order _ _).mpr hkey, hmem⟩, ?_, hread⟩
        show (⟨id.node, ofNat r.offset⟩ : ID) = id
        rw [hoffset]
    · obtain ⟨b, -, hmem⟩ := mem_flatMap.mp hreport
      obtain ⟨hnone, -⟩ | ⟨g, hg⟩ := hsurvives b
      · have heq := Except.ok.inj ((hmissing b hnone).symm.trans (hopened b))
        rw [← heq, Bucket.reports, hnone] at hmem
        exact absurd hmem not_mem_nil
      · rw [hg.reports_eq (hopened b)] at hmem
        obtain ⟨pos, hpos, r, hr, rfl⟩ := mem_reportsAt.mp hmem
        obtain ⟨hfits, hpunched, hbucket⟩ := hg.unpunched pos hpos r hr
        rw [show (r.report b g.data).id.bucketID = b from hbucket, hg.medium] at hf
        obtain rfl := Medium.closed.inj hf
        have hdisjoint := hpunched e he
        have hlength : (r.report b g.data).data.length = r.size := Image.length_read _ _ _
        simp only [Extent.Disjoint, Record.extent] at hdisjoint ⊢
        rw [hlength]
        show r.pos + r.size ≤ e.pos ∨ e.pos + e.size ≤ r.pos
        omega

instance (f : File) : Decidable f.CollisionFree :=
  inferInstanceAs (Decidable (∀ s ∈ f.written, _ → _))

/-- A crash of a store with one file. -/
theorem crashed_insert {s : System} {b : BucketID} (hkeys : s.store.keys = {b})
    (hmedium : (s.store.get b).medium = .mapped f x) (hm : f.CrashImage (f.data.load 16) m) :
    s.store.Crashed (s.store.insert b { medium := .closed (f.crashed m) }) := by
  intro b'
  by_cases hb : b' = b
  · subst hb
    rw [get_insert_self, hmedium]
    exact ⟨.mapped hm, rfl⟩
  · have hnot : b' ∉ s.store.keys := by
      rw [hkeys]
      exact fun hmem => hb (Finset.mem_singleton.mp hmem)
    rw [get_insert_of_ne _ hb, get_of_notMem hnot]
    exact ⟨.missing, rfl⟩

/-- The image after a crash that brought the first page of the table of contents to storage,
and no other block written since the last sync. -/
def File.tornImage (f : File) : Image :=
  fun i => if 4096 ≤ i ∧ i < 8192 then f.data i else (f.since.getLast?.getD f.data) i

theorem File.tornImage_crash (hpresent : f.data ∈ f.since) : f.CrashImage 4096 f.tornImage := by
  intro k
  by_cases hk : k = 1
  · subst hk
    exact ⟨f.data, hpresent, fun i hlo hhi => if_pos (by omega)⟩
  · obtain ⟨m₀, hm₀⟩ : ∃ m₀, f.since.getLast? = some m₀ := by
      rw [getLast?_eq_some_getLast (ne_nil_of_mem hpresent)]
      exact ⟨_, rfl⟩
    refine ⟨m₀, mem_of_mem_getLast? hm₀, fun i hlo hhi => ?_⟩
    rw [File.tornImage, if_neg (by omega), hm₀]
    rfl

theorem File.crashImage_data (hpresent : f.data ∈ f.since) (block : Nat) : f.CrashImage block f.data :=
  fun _ => ⟨f.data, hpresent, fun _ _ _ => rfl⟩

/-- Where all that was written reached storage, no entry is torn and none stands twice. -/
theorem Layout.whole (h : Layout env id f x captured) :
    (f.crashed f.data).Untorn ∧ Single f.data (f.crashed f.data).positions := by
  obtain ⟨rest, hcrash⟩ := h.exists_crashedAs (File.crashImage_data h.present _)
  have hsub : ∀ pos ∈ (f.crashed f.data).positions, pos ∈ x.positions := by
    rw [hcrash.positions_eq h]
    exact fun pos => hcrash.mem_positions
  exact ⟨fun pos hpos => h.intact pos (hsub pos hpos),
    fun pos hpos pos' hpos' => h.mirrors.single pos (hsub pos hpos) pos' (hsub pos' hpos')⟩

/-- The error of `Recover` on a bucket that was opened. -/
def recoverFailure (env : Env) (id : BucketID) (b : Bucket) : Option String :=
  match b.openFile env id with
  | .error _ => none
  | .ok b =>
    match b.recover env id [] with
    | .error e => some e
    | .ok _ => none

/-- What is known of a store with one file after a crash that leaves the image of `tornImage`,
or everything that was written. -/
structure TornFacts where
  keys : Finset BucketID
  block : Nat
  durable : Option Bytes
  collisionFree : Bool
  failure : Option String
deriving DecidableEq

def System.tornFacts (env : Env) (id : ID) (s : System) : Option TornFacts :=
  match (s.store.get id.bucketID).medium with
  | .mapped f _ => some
    { keys := s.store.keys, block := f.data.load 16, durable := s.spec.durable id,
      collisionFree := decide ((f.crashed f.tornImage).CollisionFree ∧ (f.crashed f.data).CollisionFree),
      failure := recoverFailure env id.bucketID { medium := .closed (f.crashed f.tornImage) } }
  | _ => none

/-- A file system with the smallest blocks. -/
def smallBlocks : Env := ⟨"/data", 4096, 4096⟩

theorem smallBlocks_block : BlockSize smallBlocks smallBlocks.block := ⟨le_rfl, rfl, ⟨256, rfl⟩⟩

/-- A record is put and synced, and another one is put. -/
def tornActions : List Action := [.put ⟨1, 0⟩ [7], .sync (bucketID ⟨1, 0⟩), .put ⟨1, 64⟩ [9]]

/-- A record is put and synced, and another one is put; then a crash brings the entry of the
second one to storage without its payload, or all of it. -/
theorem exists_torn_run : ∃ s f x, run smallBlocks tornActions = .ok s ∧
      (s.store.get (bucketID ⟨1, 0⟩)).medium = .mapped f x ∧ s.store.keys = {bucketID ⟨1, 0⟩} ∧
      s.spec.durable ⟨1, 0⟩ = some [7] ∧
      (∀ m ∈ [f.tornImage, f.data],
        s.store.Crashed (s.store.insert (bucketID ⟨1, 0⟩) { medium := .closed (f.crashed m) })) ∧
      ((f.crashed f.tornImage).CollisionFree ∧ (f.crashed f.data).CollisionFree) ∧
      ((f.crashed f.data).Untorn ∧ Single f.data (f.crashed f.data).positions) ∧
      recoverFailure smallBlocks (bucketID ⟨1, 0⟩) { medium := .closed (f.crashed f.tornImage) } =
        some "corrupt effect [1 64] in /data/1/0.swytch" := by
  obtain ⟨s, hrun, hinv⟩ := exists_run smallBlocks_block tornActions
  have hfacts : (run smallBlocks tornActions).toOption.bind (tornFacts smallBlocks ⟨1, 0⟩) =
      some ⟨{bucketID ⟨1, 0⟩}, 4096, some [7], true, some "corrupt effect [1 64] in /data/1/0.swytch"⟩ := by
    decide +kernel
  rw [hrun] at hfacts
  have hs : s.tornFacts smallBlocks ⟨1, 0⟩ = some _ := hfacts
  unfold tornFacts at hs
  cases hmedium : (s.store.get (bucketID ⟨1, 0⟩)).medium with
  | missing =>
    rw [hmedium] at hs
    cases hs
  | closed f =>
    rw [hmedium] at hs
    cases hs
  | mapped f x =>
    rw [hmedium] at hs
    obtain ⟨hkeys, hblock', hdurable, hfree, hfailure⟩ := TornFacts.mk.inj (some.inj hs)
    have hstands := (hinv (bucketID ⟨1, 0⟩)).1.stands
    rw [hmedium] at hstands
    have hlayout := hstands.2.layout
    refine ⟨s, f, x, hrun, hmedium, hkeys, hdurable, fun m hm => crashed_insert hkeys hmedium ?_,
      of_decide_eq_true hfree, hlayout.whole, hfailure⟩
    rw [hblock']
    obtain rfl | hdata := mem_cons.mp hm
    · exact File.tornImage_crash hlayout.present
    · exact mem_singleton.mp hdata ▸ File.crashImage_data hlayout.present 4096

/-- What holds of the only file of a store. -/
theorem forall_closed_insert {P : File → Prop} {s : Store} {b : BucketID} (hkeys : s.keys = {b}) (hf : P f) :
    ∀ b' g, (get (s.insert b { medium := .closed f }) b').medium = .closed g → P g := by
  intro b' g hg
  by_cases hb : b' = b
  · subst hb
    rw [get_insert_self] at hg
    cases hg
    exact hf
  · have hnot : b' ∉ s.keys := by
      rw [hkeys]
      exact fun hmem => hb (Finset.mem_singleton.mp hmem)
    rw [get_insert_of_ne _ hb, get_of_notMem hnot] at hg
    cases hg

theorem crash_recovery_of_torn_run : ∃ s torn whole, run smallBlocks tornActions = .ok s ∧
      s.store.Crashed torn ∧ (∀ b f, (torn.get b).medium = .closed f → f.CollisionFree) ∧
      (∀ opening ranges, torn.Recovers smallBlocks s.spec.durable opening ranges ↔
        ∀ b f, (torn.get b).medium = .closed f → f.Untorn ∧ Single f.data f.positions) ∧
      s.store.Crashed whole ∧ ∀ opening ranges, whole.Recovers smallBlocks s.spec.durable opening ranges := by
  obtain ⟨s, f, x, hrun, -, hkeys, -, hcrash, ⟨htorn, hfree⟩, hwhole, -⟩ := exists_torn_run
  have hexact {m : Image} (hm : m ∈ [f.tornImage, f.data]) (hm' : (f.crashed m).CollisionFree) :=
    crash_recovery_iff smallBlocks smallBlocks_block _ s hrun _ (hcrash m hm) (forall_closed_insert hkeys hm')
  refine ⟨s, _, _, hrun, hcrash f.tornImage (by simp), forall_closed_insert hkeys htorn, hexact (by simp) htorn,
    hcrash f.data (by simp), fun opening ranges => ?_⟩
  exact (hexact (by simp) hfree opening ranges).mpr (forall_closed_insert hkeys hwhole)

/-- A record that was synced is not recovered after a crash that tears a later one: the
directory opens, and `Recover` ends with an error. -/
theorem crash_fails_recovery : ∃ s crashed, run smallBlocks tornActions = .ok s ∧
      s.spec.durable ⟨1, 0⟩ = some [7] ∧ s.store.Crashed crashed ∧
      (∀ b f, (crashed.get b).medium = .closed f → f.CollisionFree) ∧
      ∀ opening ranges, ∃ opened, crashed.openFiles smallBlocks opening = .ok opened ∧
        opened.recover smallBlocks ranges = .error "corrupt effect [1 64] in /data/1/0.swytch" := by
  obtain ⟨s, f, x, hrun, hmedium, hkeys, hdurable, hcrash, hfree, -, hfailure⟩ := exists_torn_run
  refine ⟨s, _, hrun, hdurable, hcrash f.tornImage (by simp), forall_closed_insert hkeys hfree.1,
    fun opening ranges => ?_⟩
  unfold recoverFailure at hfailure
  split at hfailure
  · cases hfailure
  · rename_i b hopen
    split at hfailure
    · rename_i e hrecover
      have hkeys' := keys_insert { medium := .closed (f.crashed f.tornImage) } hkeys
      refine ⟨(s.store.insert (bucketID ⟨1, 0⟩) { medium := .closed (f.crashed f.tornImage) }).insert
        (bucketID ⟨1, 0⟩) b, ?_, ?_⟩
      · rw [openFiles, order_singleton opening hkeys', foldlM_cons, openBucket, get_insert_self,
          hopen]
        rfl
      · rw [recover, order_singleton ranges (keys_insert b hkeys'), foldlM_cons, get_insert_self,
          hrecover, some.inj hfailure]
        rfl
    · cases hfailure

end swytch.durability
