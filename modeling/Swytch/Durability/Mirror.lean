import Swytch.Durability.Maintain

namespace swytch.durability

open swytch.lib swytch.proto Function List Option Finmap Bucket Index Image

variable {env : Env} {x : Index} {contents durable : UInt64 → Option Bytes} {b : Bucket} {offset : UInt64}

variable {id : BucketID} {f : File} {data : Bytes} {block : Nat} {b' : Bucket}

theorem Header.checkHeader (h : Header id block f.data) (hblock : BlockSize env block)
    (hsize : 2 * block ≤ f.size) : f.checkHeader env id = .ok block := by
  have hleast := hblock.least
  have hle := hblock.le
  have hpages := hblock.pages
  unfold File.checkHeader
  rw [if_neg (by omega), if_neg (by omega), if_neg (by simp [h.magic, h.version, h.native]), h.block,
    if_neg (by omega), if_neg (by simp [h.node, h.bucket, h.count])]

/-- The invariant for the index that `open` builds. -/
theorem Layout.openedAs {x' : Index} {handle : Nat} (h : Layout env id f x [])
    (hopened : OpenedAs f x.block handle x.pages x') : Layout env id f x' [] := by
  have hblock := hopened.block
  have hpages := hopened.pages
  have hcursor : x.cursor ≤ x'.cursor := by rw [hopened.cursor]; exact h.fits
  have hpositions : x'.positions = x.positions := by rw [positions, positions, hblock, hpages]
  have hsound : ∀ r : Record, r.Sound id f x [] → r.Sound id f x' [] :=
    fun r hr => hr.mono hblock hpages hcursor (fun e he => he) fun s hs => hs
  refine ⟨hblock ▸ h.block, ?_, ?_, ?_, ?_, hblock ▸ h.rounded, hopened.cursor.le, h.bound, h.present,
    fun m hm => (h.readable m hm).mono hblock hpages hcursor hsound, h.log, hpages ▸ h.path, hopened.mirrors,
    hpositions ▸ h.apart, hpositions ▸ h.intact, fun e he => (h.old e he).trans hcursor, ?_⟩
  · rw [hpages, hblock]
    exact h.first
  · rw [hpages]
    exact hopened.last
  · rw [hpages, hblock]
    exact h.placed.mono hcursor
  · rw [hopened.cursor, hblock]
    exact h.rounded
  · intro e he
    rw [hopened.punches] at he
    cases he

/-- A synced file is opened again with what it has. -/
theorem Mapped.reopen (h : Mapped env id f x [] contents contents) (handle : Nat) :
    ∃ x', scan id f x.block handle = .ok x' ∧ x'.handle = handle ∧ Mapped env id f x' [] contents contents := by
  have hl := h.layout
  have htwo := hl.two_blocks
  have hfits := hl.fits
  have hleast := hl.block.least
  obtain ⟨pages, hpages⟩ : ∃ pages, x.pages = x.block :: pages := by
    have hfirst := hl.first
    cases hlist : x.pages with
    | nil =>
      rw [hlist] at hfirst
      cases hfirst
    | cons q pages =>
      rw [hlist] at hfirst
      cases hfirst
      exact ⟨pages, rfl⟩
  have hpositions : (x.block :: pages).flatMap (slots x.block) = x.positions := by rw [← hpages, positions]
  obtain ⟨x', hscan, hopened⟩ : ∃ x', scan id f x.block handle = .ok x' ∧
      OpenedAs f x.block handle (x.block :: pages) x' := by
    refine exists_scan (by omega) (by omega) (hpages ▸ hl.path) (hpages ▸ hl.placed.mono hfits) ?_ ?_
    · rw [hpositions]
      exact fun pos hpos r hr => ((hl.readable _ hl.present).records pos hpos r hr).valid.mono hfits
    · rw [hpositions]
      exact hl.mirrors.single
  rw [← hpages] at hopened
  have hx' : x'.positions = x.positions := by
    rw [positions, positions, hopened.block, hopened.pages]
  refine ⟨x', hscan, hopened.handle, hl.openedAs hopened, ?_, ?_, ?_, fun _ => rfl⟩
  · intro o d
    rw [hx']
    exact h.holds o d
  · intro o d hd
    rw [hopened.pages, hopened.block]
    exact h.durable.kept o d hd
  · rw [hopened.generation, hopened.synced]

theorem mem_headerWrites {w : Nat × Bytes} (hw : w ∈ headerWrites id block) : w.1 + w.2.length ≤ 56 := by
  simp only [headerWrites, mem_cons, not_mem_nil, or_false] at hw
  obtain rfl | rfl | rfl | rfl | rfl | rfl | rfl := hw <;> simp only [length_littleEndian] <;> decide

theorem createFile_outside (env : Env) (id : BucketID) : ∀ i, 56 ≤ i → (createFile env id).data i = 0 := by
  have hout : Image.EqOutside (fun i => i < 56) (fun _ => 0) (createFile env id).data :=
    (forall_trace (P := Image.EqOutside (fun i => i < 56) fun _ => 0) (headerWrites id env.block)
      (Image.EqOutside.refl _ _) fun w hw m hm => hm.write fun i _ hi => by
        have := mem_headerWrites hw
        omega).1
  intro i hi
  exact hout i (by omega)

theorem createFile_header (id : BucketID) (hblock : env.block < 2 ^ 64) :
    Header id env.block (createFile env id).data := by
  have hread : ∀ (m : Image) (p v : Nat), 8 ≤ p → (m.write p (littleEndian 8 v)).read 0 8 = m.read 0 8 :=
    fun m p v h => (write_sameOn (by omega)).read_eq
  have hnode := id.node.toNat_lt
  have hbucket : id.bucket.val < 2 ^ 64 := id.bucket.isLt.trans (by decide)
  constructor <;>
    simp only [createFile, headerWrites, writeAll, foldl_cons, foldl_nil]
  · simp (disch := omega) only [hread]
    exact read_write _ 0 magic
  all_goals simp (disch := first | omega | decide) only [load_write_word_of_disjoint, load_write]

/-- The index of a new file: one page with free entries. -/
def Index.created (block : Nat) : Index :=
  { start block 0 with lastPage := block, pages := [block], free := slots block block }

theorem createFile_entryAt (id : BucketID) {pos : Nat} (hpos : 56 ≤ pos) :
    entryAt (createFile env id).data pos = none := by
  apply entryAt_eq_none
  rw [load_eq_zero fun i hi => createFile_outside env id i (by omega)]
  decide

theorem createFile_mapped (id : BucketID) (hblock : BlockSize env env.block) :
    Mapped env id (createFile env id) (created env.block) [] (fun _ => none) (fun _ => none) := by
  have hleast := hblock.least
  have hle := hblock.le
  have hpositions : ∀ pos ∈ (created env.block).positions, pos ∈ slots env.block env.block := by
    intro pos hpos
    obtain ⟨q, hq, hslot⟩ := mem_positions.mp hpos
    obtain rfl := mem_singleton.mp hq
    exact hslot
  have hnone : ∀ pos ∈ (created env.block).positions, entryAt (createFile env id).data pos = none := by
    intro pos hpos
    have hwithin := slot_within hblock.dvd (hpositions pos hpos)
    exact createFile_entryAt id (by omega)
  have hlink : (createFile env id).data.load env.block = 0 :=
    load_eq_zero fun i hi => createFile_outside env id i (by omega)
  have hpublishes : ∀ pos ∈ (created env.block).positions, ∀ r, entryAt (createFile env id).data pos ≠ some r := by
    intro pos hpos r hr
    rw [hnone pos hpos] at hr
    cases hr
  have hends : ∀ q ∈ (created env.block).pages.getLast?, (createFile env id).data.load q = 0 := by
    intro q hq
    cases hq
    exact hlink
  have hreadable : ∀ m ∈ (createFile env id).since,
      Readable id (createFile env id) (created env.block) [] m := by
    intro m hm
    obtain rfl := mem_singleton.mp hm
    refine ⟨createFile_header id (by omega), isChain_singleton _, hends,
      fun pos hpos r hr => absurd hr (hpublishes pos hpos r), fun i hi => createFile_outside env id i ?_⟩
    have hcursor : (created env.block).cursor = 2 * env.block := rfl
    omega
  have hmirrors : Mirrors (createFile env id).data (created env.block) := by
    refine ⟨fun o pos => ?_, fun pos => ?_, slots_nodup _ _⟩
    · rw [show (created env.block).entries = ∅ from rfl, lookup_empty]
      simp only [reduceCtorEq, false_iff, not_and]
      rintro hpos ⟨r, hr, -⟩
      exact hpublishes pos hpos r hr
    · constructor
      · intro hpos
        have hmem : pos ∈ (created env.block).positions :=
          mem_positions.mpr ⟨env.block, mem_cons_self, hpos⟩
        exact ⟨hmem, hnone pos hmem⟩
      · rintro ⟨hpos, -⟩
        exact hpositions pos hpos
  have hplaced : Placed env.block (2 * env.block) [env.block] := by
    refine ⟨pairwise_singleton _ _, ?_, ?_, ?_⟩ <;> intro q hq <;> obtain rfl := mem_singleton.mp hq
    · exact Nat.dvd_refl _
    · omega
    · omega
  refine ⟨⟨hblock, rfl, rfl, hplaced, Nat.dvd_mul_left _ _, Nat.dvd_mul_left _ _, le_rfl, ?_, mem_cons_self,
    hreadable, fun s hs => absurd hs not_mem_nil, ⟨isChain_singleton _, hends⟩, hmirrors, ?_, ?_,
    fun e he => absurd he not_mem_nil, fun e he => absurd he not_mem_nil⟩, ?_, ?_⟩
  · show 2 * env.block < 2 ^ 63
    omega
  · exact fun pos hpos _ _ _ r _ hr => absurd hr (hpublishes pos hpos r)
  · exact fun pos hpos r hr => absurd hr (hpublishes pos hpos r)
  · intro o d
    simp only [reduceCtorEq, false_iff]
    rintro ⟨pos, hpos, r, hr, -⟩
    exact hpublishes pos hpos r hr
  · exact ⟨fun o d hd => (by cases hd), le_rfl, fun _ => rfl⟩

/-- The holes that the sync in progress punches in the open file. -/
def Bucket.captured (b : Bucket) (x : Index) : List Extent :=
  match b.capture with
  | some c => if x.handle = c.handle then c.punches else []
  | none => []

/-- The file of a bucket has these contents, and these of them survive a crash. -/
def Medium.Stands (env : Env) (id : BucketID) (captured : Index → List Extent) (opened : Nat)
    (contents durable : UInt64 → Option Bytes) : Medium → Prop
  | .missing => (∀ o, contents o = none) ∧ ∀ o, durable o = none
  | .closed f => durable = contents ∧ ∃ x, Mapped env id f x [] contents contents
  | .mapped f x => x.handle < opened ∧ Mapped env id f x (captured x) contents durable

/-- The invariant of a bucket. -/
structure Bucket.Inv (env : Env) (id : BucketID) (contents durable : UInt64 → Option Bytes) (b : Bucket) : Prop where
  stands : b.medium.Stands env id b.captured b.opened contents durable
  capture : ∀ c ∈ b.capture, c.handle < b.opened
  holes : ∀ h ∈ b.holes, ∀ e ∈ h.live, h.extent.Disjoint e

section

variable (h : b.Inv env id contents durable)
include h

theorem Bucket.captured_of_fresh (hx : x.handle = b.opened) : b.captured x = [] := by
  unfold captured
  cases hcapture : b.capture with
  | none => rfl
  | some c =>
    have hlt := h.capture c hcapture
    dsimp only
    rw [if_neg (by omega)]

/-- A handle that was never used has no holes waiting for it. -/
theorem Bucket.Inv.opens (hhandle : x.handle = b.opened) (hmapped : Mapped env id f x [] contents durable) :
    ({ b with medium := .mapped f x, opened := b.opened + 1 } : Bucket).Inv env id contents durable := by
  refine ⟨⟨by dsimp only; omega, ?_⟩, fun c hc => (h.capture c hc).trans (Nat.lt_succ_self _), h.holes⟩
  show Mapped env id f x (b.captured x) contents durable
  rw [captured_of_fresh h hhandle]
  exact hmapped

/-- A file that was closed is opened with what it has. -/
theorem Bucket.Inv.openFile (hmissing : b.medium ≠ .missing) :
    ∃ b' f x, b.openFile env id = .ok b' ∧ b'.medium = .mapped f x ∧ b'.Inv env id contents durable := by
  have hstands := h.stands
  unfold Bucket.openFile
  cases hmedium : b.medium with
  | missing => exact absurd hmedium hmissing
  | closed f =>
    rw [hmedium] at hstands
    obtain ⟨rfl, x₀, hmapped₀⟩ := hstands
    have hl := hmapped₀.layout
    have hfits := hl.fits
    have htwo := hl.two_blocks
    obtain ⟨x, hscan, hhandle, hmapped⟩ := hmapped₀.reopen b.opened
    refine ⟨_, f, x, ?_, rfl, h.opens hhandle hmapped⟩
    dsimp only
    rw [(hl.readable _ hl.present).header.checkHeader hl.block (by omega)]
    show (scan id f x₀.block b.opened).bind _ = _
    rw [hscan]
    rfl
  | mapped f x => exact ⟨b, f, x, rfl, hmedium, h⟩

/-- A file that is opened, new or not, stands with what the bucket has. -/
theorem Bucket.Inv.openOrCreate (hblock : BlockSize env env.block) :
    ∃ b' f x, b.openOrCreate env id = .ok b' ∧ b'.medium = .mapped f x ∧ b'.Inv env id contents durable := by
  have hstands := h.stands
  unfold Bucket.openOrCreate
  cases hmedium : b.medium with
  | missing =>
    rw [hmedium] at hstands
    obtain ⟨hcontents, hdurable⟩ := hstands
    obtain ⟨x, hscan, hhandle, hmapped⟩ := (createFile_mapped id hblock).reopen b.opened
    have hcontents' : contents = fun _ => none := funext hcontents
    have hdurable' : durable = fun _ => none := funext hdurable
    refine ⟨_, createFile env id, x, ?_, rfl, h.opens hhandle (by rw [hcontents', hdurable']; exact hmapped)⟩
    dsimp only
    rw [show scan id (createFile env id) env.block b.opened = _ from hscan]
    rfl
  | closed f => exact h.openFile (by rw [hmedium]; exact fun heq => by cases heq)
  | mapped f x => exact h.openFile (by rw [hmedium]; exact fun heq => by cases heq)

end

/-- The contents after a `Put`: the first payload of an effect stays. -/
def putContents (contents : UInt64 → Option Bytes) (offset : UInt64) (data : Bytes) : UInt64 → Option Bytes :=
  if (contents offset).isSome then contents else update contents offset (some data)

theorem Mapped.mem_entries {captured : List Extent} (h : Mapped env id f x captured contents durable) :
    offset ∈ x.entries ↔ (contents offset).isSome := by
  rw [mem_iff, isSome_iff_exists]
  constructor
  · rintro ⟨pos, hpos⟩
    obtain ⟨hposition, r, hr, hoffset⟩ := (h.layout.mirrors.entries offset pos).mp hpos
    exact ⟨_, (h.holds offset _).mpr ⟨pos, hposition, r, hr, hoffset, rfl⟩⟩
  · rintro ⟨d, hd⟩
    obtain ⟨pos, hposition, r, hr, hoffset, -⟩ := (h.holds offset d).mp hd
    exact ⟨pos, (h.layout.mirrors.entries offset pos).mpr ⟨hposition, r, hr, hoffset⟩⟩

/-- The first part of `Put` publishes the payload, or finds the effect published. -/
theorem Bucket.Inv.reserve (h : b.Inv env id contents durable)
    (hbucket : offset.toNat % fileCount = id.bucket.val) (hreserve : b.reserve offset data = some b') :
    b'.Inv env id (putContents contents offset data) durable := by
  have hstands := h.stands
  unfold Bucket.reserve at hreserve
  cases hmedium : b.medium with
  | missing =>
    rw [hmedium] at hreserve
    cases hreserve
  | closed f =>
    rw [hmedium] at hreserve
    cases hreserve
  | mapped f x =>
    rw [hmedium] at hreserve hstands
    obtain ⟨hhandle, hmapped⟩ := hstands
    dsimp only at hreserve
    by_cases hmem : offset ∈ x.entries
    · rw [if_pos hmem] at hreserve
      cases hreserve
      rw [putContents, if_pos (hmapped.mem_entries.mp hmem)]
      exact h
    · rw [if_neg hmem] at hreserve
      cases hfree : x.free.getLast? with
      | none =>
        rw [hfree] at hreserve
        cases hreserve
      | some pos =>
        rw [hfree] at hreserve
        dsimp only at hreserve
        by_cases hroom : x.cursor + x.room data ≤ f.size
        · rw [if_pos hroom] at hreserve
          cases hreserve
          rw [putContents, if_neg (mt hmapped.mem_entries.mpr hmem)]
          exact ⟨⟨hhandle, hmapped.publish ⟨hfree, hmem, hroom, hbucket⟩⟩, h.capture, h.holes⟩
        · rw [if_neg hroom] at hreserve
          cases hreserve

/-- The file would have to grow beyond what a file can have. -/
def Bucket.Full (b : Bucket) (data : Bytes) : Prop :=
  ∃ f x, b.medium = .mapped f x ∧ 2 ^ 63 ≤ align (x.cursor + x.extra + x.room data) (2 ^ 20)

/-- The second part of `Put` keeps what the bucket has, and after it the first part succeeds
unless the file is full. -/
theorem Bucket.Inv.prepare {failure : Option String}
    (h : b.Inv env id contents durable) (hblock : BlockSize env env.block) (offset : UInt64)
    (hprepare : b.prepare env id data = (b', failure)) : b'.Inv env id contents durable ∧
      (failure = none → ∃ b'', b'.reserve offset data = some b'') ∧ (failure ≠ none → b'.Full data) := by
  obtain ⟨b₁, f, x, hopen, hmedium, hinv⟩ := h.openOrCreate hblock
  have hstands := hinv.stands
  rw [hmedium] at hstands
  obtain ⟨hhandle, hmapped⟩ := hstands
  unfold Bucket.prepare at hprepare
  rw [hopen] at hprepare
  dsimp only at hprepare
  rw [hmedium] at hprepare
  dsimp only at hprepare
  cases hmapping : prepareMapped f x data with
  | error e =>
    rw [hmapping] at hprepare
    obtain ⟨rfl, rfl⟩ := Prod.mk.inj hprepare
    refine ⟨hinv, nofun, fun _ => ⟨f, x, hmedium, ?_⟩⟩
    have hle := @le_align (x.cursor + x.extra + x.room data) (2 ^ 20) (by decide)
    by_contra hsmall
    obtain ⟨f', hgrow⟩ : ∃ f', f.grow (x.cursor + x.extra + x.room data) = .ok f' := by
      unfold File.grow
      split_ifs <;> first | omega | exact ⟨_, rfl⟩
    rw [prepareMapped, hgrow] at hmapping
    cases hmapping
  | ok pair =>
    obtain ⟨f', x'⟩ := pair
    rw [hmapping] at hprepare
    obtain ⟨rfl, rfl⟩ := Prod.mk.inj hprepare
    obtain ⟨hmapped', hhandle', hentries, hfree, hroom⟩ := hmapped.prepare hmapping
    have hcaptured : b₁.captured x' = b₁.captured x := by rw [captured, captured, hhandle']
    refine ⟨⟨⟨by rw [hhandle']; exact hhandle, ?_⟩, hinv.capture, hinv.holes⟩, fun _ => ?_,
      fun hsome => absurd rfl hsome⟩
    · show Mapped env id f' x' (b₁.captured x') contents durable
      rw [hcaptured]
      exact hmapped'
    · unfold Bucket.reserve
      dsimp only
      by_cases hmem : offset ∈ x'.entries
      · exact ⟨_, if_pos hmem⟩
      · rw [if_neg hmem, getLast?_eq_some_getLast hfree]
        exact ⟨_, if_pos hroom⟩

/-- `Put` ends in its second round at the latest: either part of a round does its work, or the
file is full. -/
theorem Bucket.Inv.put_cases (h : b.Inv env id contents durable) (hblock : BlockSize env env.block) (offset : UInt64)
    (data : Bytes) : (∃ b', b.reserve offset data = some b' ∧ b.put env id offset data = (b', none)) ∨
      ∃ b₁ failure, b.prepare env id data = (b₁, failure) ∧
        ((failure ≠ none ∧ b₁.Full data ∧ b.put env id offset data = (b₁, failure)) ∨
          ∃ b₂, b₁.reserve offset data = some b₂ ∧ b.put env id offset data = (b₂, none)) := by
  unfold Bucket.put
  rw [putLoop]
  cases hfirst : b.reserve offset data with
  | some b' => exact .inl ⟨b', rfl, rfl⟩
  | none =>
    cases hprepare : b.prepare env id data with
    | mk b₁ failure =>
      obtain ⟨-, hagain, hfull⟩ := h.prepare hblock offset hprepare
      refine .inr ⟨b₁, failure, rfl, ?_⟩
      cases failure with
      | some e => exact .inl ⟨by simp, hfull (by simp), rfl⟩
      | none =>
        obtain ⟨b₂, hsecond⟩ := hagain rfl
        exact .inr ⟨b₂, hsecond, by simp only [putLoop, hsecond, getD_some]⟩

/-- `Put` publishes the payload unless it reports an error. -/
theorem Bucket.Inv.put (h : b.Inv env id contents durable) (hblock : BlockSize env env.block) (offset : UInt64)
    (data : Bytes) (hbucket : offset.toNat % fileCount = id.bucket.val) : (b.put env id offset data).1.Inv env id
      (if (b.put env id offset data).2 = none then putContents contents offset data else contents) durable := by
  obtain ⟨b', hreserve, hput⟩ | ⟨b₁, failure, hprepare, ⟨hfailure, -, hput⟩ | ⟨b₂, hreserve, hput⟩⟩ :=
    h.put_cases hblock offset data
  · rw [hput, if_pos rfl]
    exact h.reserve hbucket hreserve
  · rw [hput, if_neg hfailure]
    exact (h.prepare hblock offset hprepare).1
  · rw [hput, if_pos rfl]
    exact (h.prepare hblock offset hprepare).1.reserve hbucket hreserve

theorem Mapped.contents_of_durable {captured : List Extent} (h : Mapped env id f x captured contents durable)
    {d : Bytes} (hd : durable offset = some d) : contents offset = some d := by
  obtain ⟨toc, pos, r, htoc, hpos, hoffset, hkept⟩ := h.durable.kept offset d hd
  obtain ⟨hentry, hread, -⟩ := hkept _ h.layout.present
  exact (h.holds offset d).mpr ⟨pos, mem_positions_of_initial htoc hpos, r, hentry, hoffset, hread⟩

theorem Bucket.Inv.delete (h : b.Inv env id contents durable) (hopen : ∀ f, b.medium ≠ .closed f) :
    (b.delete offset).Inv env id (update contents offset none) (update durable offset none) := by
  have hstands := h.stands
  cases hmedium : b.medium with
  | missing =>
    rw [hmedium] at hstands
    obtain ⟨hcontents, hdurable⟩ := hstands
    rw [update_eq_self_iff.mpr (hcontents offset).symm, update_eq_self_iff.mpr (hdurable offset).symm,
      Bucket.delete, hmedium]
    exact h
  | closed f => exact absurd hmedium (hopen f)
  | mapped f x =>
    rw [hmedium] at hstands
    obtain ⟨hhandle, hmapped⟩ := hstands
    unfold Bucket.delete
    rw [hmedium]
    dsimp only
    cases hlookup : x.entries.lookup offset with
    | none =>
      have hcontents : contents offset = none := by
        rw [← not_isSome_iff_eq_none, ← hmapped.mem_entries]
        exact lookup_eq_none.mp hlookup
      have hdurable : durable offset = none := by
        cases hd : durable offset with
        | none => rfl
        | some d =>
          rw [hmapped.contents_of_durable hd] at hcontents
          cases hcontents
      dsimp only
      rw [update_eq_self_iff.mpr hcontents.symm, update_eq_self_iff.mpr hdurable.symm]
      exact h
    | some pos =>
      have hunpublished := hmapped.unpublish hlookup
      dsimp only
      by_cases hempty : x.entries.erase offset = ∅
      · rw [if_pos hempty]
        -- a bucket without an entry has no contents
        have hcontents : ∀ o, update contents offset none o = none := by
          intro o
          rw [← not_isSome_iff_eq_none, ← hunpublished.mem_entries]
          rw [show (x.unpublish f pos offset).entries = x.entries.erase offset from rfl, hempty]
          exact notMem_empty
        refine ⟨⟨hcontents, fun o => ?_⟩, h.capture, h.holes⟩
        cases hd : update durable offset none o with
        | none => rfl
        | some d =>
          have hsome := hunpublished.contents_of_durable hd
          rw [hcontents o] at hsome
          cases hsome
      · rw [if_neg hempty]
        exact ⟨⟨hhandle, hunpublished⟩, h.capture, h.holes⟩

theorem mem_publishedExtents {e : Extent} :
    e ∈ publishedExtents f x ↔ ∃ pos ∈ x.positions, ∃ r, entryAt f.data pos = some r ∧ r.extent = e := by
  simp only [publishedExtents, mem_filterMap, map_eq_some_iff]
  rfl

/-- The holes of a sync lie beside what is published, and punching them keeps everything. -/
theorem Bucket.Inv.punch (h : b.Inv env id contents durable) :
    b.punch.Inv env id contents durable ∧ b.punch.capture = none := by
  have hstands := h.stands
  cases hcapture : b.capture with
  | none =>
    have hpunch : b.punch = b := by rw [Bucket.punch, hcapture]
    rw [hpunch]
    exact ⟨h, hcapture⟩
  | some c =>
    unfold Bucket.punch
    rw [hcapture]
    dsimp only
    cases hmedium : b.medium with
    | missing =>
      rw [hmedium] at hstands
      exact ⟨⟨hstands, fun c hc => (by cases hc), h.holes⟩, rfl⟩
    | closed f =>
      rw [hmedium] at hstands
      exact ⟨⟨hstands, fun c hc => (by cases hc), h.holes⟩, rfl⟩
    | mapped f x =>
      rw [hmedium] at hstands
      obtain ⟨hhandle, hmapped⟩ := hstands
      dsimp only
      by_cases hsame : x.handle = c.handle
      · have hcaptured : b.captured x = c.punches := by rw [captured, hcapture]; exact if_pos hsame
        rw [hcaptured] at hmapped
        rw [if_pos hsame]
        refine ⟨⟨⟨hhandle, hmapped.punchAll⟩, fun c hc => (by cases hc), ?_⟩, rfl⟩
        intro hole hhole e he
        obtain hnew | hold := mem_append.mp hhole
        · obtain ⟨e', he', rfl⟩ := mem_map.mp hnew
          obtain ⟨pos, hpos, r, hr, rfl⟩ := mem_publishedExtents.mp he
          exact ((hmapped.layout.holes e' (mem_append_right _ he')).2.2.2 pos hpos r hr).symm
        · exact h.holes hole hold e he
      · have hcaptured : b.captured x = [] := by rw [captured, hcapture]; exact if_neg hsame
        rw [hcaptured] at hmapped
        rw [if_neg hsame]
        exact ⟨⟨⟨hhandle, hmapped⟩, fun c hc => (by cases hc), h.holes⟩, rfl⟩

/-- After a sync everything the bucket has is durable. -/
theorem Bucket.Inv.sync (h : b.Inv env id contents durable) : b.sync.Inv env id contents contents := by
  obtain ⟨hpunched, hcapture⟩ := h.punch
  have hstands := hpunched.stands
  unfold Bucket.sync
  dsimp only
  cases hmedium : b.punch.medium with
  | missing =>
    rw [hmedium] at hstands
    obtain ⟨hcontents, -⟩ := hstands
    refine ⟨?_, hpunched.capture, hpunched.holes⟩
    dsimp only
    rw [hmedium]
    exact ⟨hcontents, hcontents⟩
  | closed f =>
    rw [hmedium] at hstands
    obtain ⟨rfl, -⟩ := hstands
    exact hpunched
  | mapped f x =>
    rw [hmedium] at hstands
    obtain ⟨hhandle, hmapped⟩ := hstands
    dsimp only
    by_cases hclean : x.generation = x.synced
    · rw [if_pos hclean]
      obtain rfl := hmapped.durable.clean hclean
      exact hpunched
    · rw [if_neg hclean]
      have hcaptured : b.punch.captured x = [] := by rw [captured, hcapture]
      rw [hcaptured] at hmapped
      refine ⟨⟨hhandle, ?_⟩, fun c hc => ?_, hpunched.holes⟩
      · have hsynced := hmapped.sync
        show Mapped env id f.syncMapped { x with punches := [], synced := x.generation } _ contents contents
        by_cases hnone : x.punches = []
        · rw [hnone] at hsynced
          rw [captured, if_pos hnone]
          exact hsynced
        · rw [captured, if_neg hnone]
          dsimp only
          rw [if_pos rfl]
          exact hsynced
      · dsimp only at hc
        by_cases hnone : x.punches = []
        · rw [if_pos hnone] at hc
          cases hc
        · rw [if_neg hnone] at hc
          cases hc
          exact hhandle

theorem Bucket.Inv.close (h : b.Inv env id contents durable) :
    b.close.Inv env id contents contents ∧ ∀ f x, b.close.medium ≠ .mapped f x := by
  obtain ⟨hpunched, hcapture⟩ := h.sync.punch
  have hstands := hpunched.stands
  unfold Bucket.close
  dsimp only
  cases hmedium : b.sync.punch.medium with
  | missing => exact ⟨hpunched, fun f x => by rw [hmedium]; exact fun heq => by cases heq⟩
  | closed f => exact ⟨hpunched, fun f x => by rw [hmedium]; exact fun heq => by cases heq⟩
  | mapped f x =>
    rw [hmedium] at hstands
    obtain ⟨-, hmapped⟩ := hstands
    have hcaptured : b.sync.punch.captured x = [] := by rw [captured, hcapture]
    rw [hcaptured] at hmapped
    exact ⟨⟨⟨rfl, x, hmapped⟩, hpunched.capture, hpunched.holes⟩, fun f x heq => by cases heq⟩

end swytch.durability
