import Swytch.Durability.Layout

namespace swytch.durability

open swytch.lib swytch.proto

theorem le_align {n block : Nat} (hblock : 0 < block) : n ≤ align n block := by
  unfold align
  have hdiv := Nat.div_add_mod (n + block - 1) block
  have hmod := Nat.mod_lt (n + block - 1) hblock
  rw [Nat.mul_comm] at hdiv
  omega

theorem align_lt {n block : Nat} (hblock : 0 < block) : align n block < n + block := by
  unfold align
  have hle := Nat.div_mul_le_self (n + block - 1) block
  omega

theorem dvd_align (n block : Nat) : block ∣ align n block := Nat.dvd_mul_left _ _

variable {m m' : Image} {f f' : File} {x x' : Index} {captured captured' : List Extent} {r : Record}
  {env : Env} {link pos : Nat} {entry : Option Record} {contents contents' durable durable' : UInt64 → Option Bytes}

variable {id : BucketID}

theorem Record.Sound.mono (h : r.Sound id f x captured) (hblock : x'.block = x.block) (hpages : x'.pages = x.pages)
    (hcursor : x.cursor ≤ x'.cursor) (hdead : ∀ e ∈ f'.punched ++ captured', e ∈ f.punched ++ captured)
    (hlog : ∀ s ∈ f.written, s ∈ f'.written) : r.Sound id f' x' captured' where
  valid := by rw [hblock]; exact h.valid.mono hcursor
  low := by rw [hblock]; exact h.low
  pages := by rw [hblock, hpages]; exact h.pages
  dead e he := h.dead e (hdead e he)
  logged := by
    obtain ⟨s, hs, hr⟩ := h.logged
    exact ⟨s, hlog s hs, hr⟩

theorem mem_positions_of_initial {toc : List Nat} (htoc : toc <+: x.pages)
    (hpos : pos ∈ toc.flatMap (slots x.block)) : pos ∈ x.positions := by
  obtain ⟨q, hq, hslot⟩ := List.mem_flatMap.mp hpos
  exact Index.mem_positions.mpr ⟨q, htoc.subset hq, hslot⟩

theorem Mirrors.single (h : Mirrors m x) : Single m x.positions := by
  intro pos hpos pos' hpos' o ho ho'
  have hfirst := (h.entries o pos).mpr ⟨hpos, ho⟩
  have hsecond := (h.entries o pos').mpr ⟨hpos', ho'⟩
  rw [hfirst] at hsecond
  exact Option.some.inj hsecond

/-- The bytes a step may change: those of one entry, of the link of one page, of a hole that
is to be punched, and those behind the cursor. -/
def Index.Loose (x : Index) (captured : List Extent) (link pos i : Nat) : Prop :=
  (pos ∈ x.positions ∧ pos ≤ i ∧ i < pos + 64) ∨ (link ∈ x.pages ∧ link ≤ i ∧ i < link + 8) ∨
    (∃ e ∈ x.punches ++ captured, e.pos ≤ i ∧ i < e.pos + e.size) ∨ x.cursor ≤ i

/-- An image that has the links but one, the entries but one and their payloads of another. -/
structure Revises (m m' : Image) (x : Index) (link pos : Nat) : Prop where
  header : Image.SameOn m m' 0 56
  links : ∀ q ∈ x.pages, q ≠ link → m'.load q = m.load q
  entries : ∀ p ∈ x.positions, p ≠ pos → entryAt m' p = entryAt m p
  payloads : ∀ p ∈ x.positions, p ≠ pos → ∀ r, entryAt m p = some r → m'.read r.pos r.size = m.read r.pos r.size

/-- Loose bytes lie beside everything the index leads to. -/
theorem Layout.revises (h : Layout env id f x captured) (hm : Image.EqOutside (x.Loose captured link pos) f.data m) :
    Revises f.data m x link pos := by
  have hx := h.ordered
  have hleast := h.block.least
  have htwo := h.two_blocks
  have hrecords := (h.readable _ h.present).records
  refine ⟨hm.sameOn ?_, fun q hq hne => (hm.sameOn ?_).load_eq, fun p hp hne => entryAt_of_sameOn (hm.sameOn ?_),
    fun p hp hne r hr => (hm.sameOn ?_).read_eq⟩
  · rintro i hlo hhi (⟨hpos, hle, -⟩ | ⟨hlink, hle, -⟩ | ⟨e, he, hle, -⟩ | hle)
    · have hbounds := hx.position_bounds hpos
      omega
    · have hblock := h.placed.block_le hlink
      omega
    · have hlow := (h.holes e he).1
      omega
    · omega
  · rintro i hlo hhi (⟨hpos, hle, hlt⟩ | ⟨hlink, hle, hlt⟩ | ⟨e, he, hle, hlt⟩ | hle)
    · have hapart := hx.position_link hpos hq
      omega
    · have hapart := h.placed.apart hq hlink hne
      omega
    · have hapart := (h.holes e he).2.2.1 q hq
      simp only [Extent.Disjoint] at hapart
      omega
    · have hbelow := h.placed.below q hq
      omega
  · rintro i hlo hhi (⟨hpos, hle, hlt⟩ | ⟨hlink, hle, hlt⟩ | ⟨e, he, hle, hlt⟩ | hle)
    · have hapart := hx.position_apart hp hpos hne
      omega
    · have hapart := hx.position_link hp hlink
      omega
    · have hapart := hx.position_extent hp (h.holes e he).2.2.1
      omega
    · have hbounds := hx.position_bounds hp
      omega
  · have hr := hrecords p hp r hr
    have hfits := hr.valid.fits
    have hwithin := hr.valid.within
    rintro i hlo hhi (⟨hpos, hle, hlt⟩ | ⟨hlink, hle, hlt⟩ | ⟨e, he, hle, hlt⟩ | hle)
    · have hapart := hx.position_extent hpos hr.pages
      simp only [Record.extent] at hapart
      omega
    · have hapart := hr.pages link hlink
      simp only [Extent.Disjoint, Record.extent] at hapart
      omega
    · have hapart := (h.holes e he).2.2.2 p hp r ‹_›
      simp only [Extent.Disjoint, Record.extent] at hapart
      omega
    · omega

theorem Layout.zero_notMem (h : Layout env id f x captured) : 0 ∉ x.pages ∧ 0 ∉ x.positions := by
  refine ⟨fun hmem => absurd (h.placed.positive 0 hmem) (lt_irrefl 0), fun hmem => ?_⟩
  have hbounds := h.ordered.position_bounds hmem
  omega

theorem Path.of_load {pages : List Nat} (h : Path m pages) (hload : ∀ q ∈ pages, m'.load q = m.load q) :
    Path m' pages where
  links := h.links.imp_of_mem_imp fun q q' hq _ hlink => by rw [hload q hq]; exact hlink
  ends q hq := by
    rw [hload q (List.mem_of_mem_getLast? hq)]
    exact h.ends q hq

/-- A revised image is readable if its entry that differs is sound. -/
theorem Readable.revise (h : Readable id f x captured m) (hrevises : Revises m m' x link pos)
    (hlink : link ∉ x.pages) (hblock : x'.block = x.block) (hpages : x'.pages = x.pages)
    (hsound : ∀ r : Record, r.Sound id f x captured → r.Sound id f' x' captured')
    (hentry : pos ∈ x.positions → ∀ r, entryAt m' pos = some r → r.Sound id f' x' captured')
    (hblank : ∀ i, x'.cursor ≤ i → m' i = 0) : Readable id f' x' captured' m' := by
  have hload : ∀ q ∈ x.pages, m'.load q = m.load q :=
    fun q hq => hrevises.links q hq fun heq => hlink (heq ▸ hq)
  refine ⟨hblock ▸ h.header.of_sameOn hrevises.header, ?_, ?_, fun p hp r hr => ?_, hblank⟩
  · rw [hpages]
    refine h.links.imp_of_mem_imp fun q q' hq _ hlink => ?_
    rw [hload q hq]
    exact hlink
  · rw [hpages]
    intro q hq
    rw [hload q (List.mem_of_mem_getLast? hq)]
    exact h.ends q hq
  · rw [Index.positions, hblock, hpages] at hp
    by_cases heq : p = pos
    · subst heq
      exact hentry hp r hr
    · rw [hrevises.entries p hp heq] at hr
      exact hsound r (h.records p hp r hr)

/-- What a step does to a file and its index: it may add a page at the cursor, whose entries
are free, the entry at `pos` becomes `entry`, and everything else the index leads to stays,
in every image on the way. A step without such a link or entry has zero in its place. -/
structure Change (f f' : File) (x x' : Index) (link pos : Nat) (entry : Option Record) : Prop where
  block : x'.block = x.block
  pages : x.pages <+: x'.pages
  added : ∀ q ∈ x'.pages, q ∈ x.pages ∨ q = x.cursor
  cursor : x.cursor ≤ x'.cursor
  written : ∀ s ∈ f.written, s ∈ f'.written
  since : ∀ m ∈ f'.since, m ∈ f.since ∨ Revises f.data m x link pos
  data : Revises f.data f'.data x link pos
  entry : pos ∈ x.positions → entryAt f'.data pos = entry
  new : ∀ p ∈ x'.positions, p ∉ x.positions → entryAt f'.data p = none

theorem Change.kept {p : Nat} (hc : Change f f' x x' link pos entry) (hp : p ∈ x.positions) : p ∈ x'.positions := by
  rw [Index.positions, ← hc.block] at hp
  exact mem_positions_of_initial hc.pages hp

/-- Every entry after the step is the changed one or an old one. -/
theorem Change.cases {p : Nat} (hc : Change f f' x x' link pos entry) (hp : p ∈ x'.positions)
    (hr : entryAt f'.data p = some r) :
    p ∈ x.positions ∧ (p = pos ∧ entry = some r ∨ p ≠ pos ∧ entryAt f.data p = some r) := by
  by_cases hold : p ∈ x.positions
  · refine ⟨hold, ?_⟩
    by_cases heq : p = pos
    · subst heq
      exact .inl ⟨rfl, (hc.entry hold).symm.trans hr⟩
    · exact .inr ⟨heq, (hc.data.entries p hold heq).symm.trans hr⟩
  · rw [hc.new p hp hold] at hr
    cases hr

theorem Change.mirrors (hc : Change f f' x x' link pos entry) (h : Mirrors f.data x)
    (hentries : ∀ o p, x'.entries.lookup o = some p ↔ p ≠ pos ∧ x.entries.lookup o = some p ∨
      p = pos ∧ p ∈ x.positions ∧ ∃ r, entry = some r ∧ UInt64.ofNat r.offset = o)
    (hfree : ∀ p, p ∈ x'.free ↔ p ≠ pos ∧ p ∈ x.free ∨ p = pos ∧ p ∈ x.positions ∧ entry = none ∨
      p ∈ x'.positions ∧ p ∉ x.positions) (hnodup : x'.free.Nodup) : Mirrors f'.data x' := by
  refine ⟨fun o p => ?_, fun p => ?_, hnodup⟩
  · rw [hentries]
    constructor
    · rintro (⟨hne, hold⟩ | ⟨rfl, hp, r, hr, ho⟩)
      · obtain ⟨hp, hpub⟩ := (h.entries o p).mp hold
        exact ⟨hc.kept hp, by rwa [Publishes, hc.data.entries p hp hne]⟩
      · exact ⟨hc.kept hp, r, (hc.entry hp).trans hr, ho⟩
    · rintro ⟨hp, r, hr, ho⟩
      obtain ⟨hp, ⟨rfl, he⟩ | ⟨hne, hold⟩⟩ := hc.cases hp hr
      · exact .inr ⟨rfl, hp, r, he, ho⟩
      · exact .inl ⟨hne, (h.entries o p).mpr ⟨hp, r, hold, ho⟩⟩
  · rw [hfree]
    constructor
    · rintro (⟨hne, hold⟩ | ⟨rfl, hp, he⟩ | ⟨hp, hnew⟩)
      · obtain ⟨hp, hnone⟩ := (h.free p).mp hold
        exact ⟨hc.kept hp, (hc.data.entries p hp hne).trans hnone⟩
      · exact ⟨hc.kept hp, (hc.entry hp).trans he⟩
      · exact ⟨hp, hc.new p hp hnew⟩
    · rintro ⟨hp, hnone⟩
      by_cases hold : p ∈ x.positions
      · by_cases heq : p = pos
        · subst heq
          exact .inr (.inl ⟨rfl, hold, (hc.entry hold).symm.trans hnone⟩)
        · exact .inl ⟨heq, (h.free p).mpr ⟨hold, (hc.data.entries p hold heq).symm.trans hnone⟩⟩
      · exact .inr (.inr ⟨hp, hold⟩)

/-- A step keeps the invariant if its images are readable, its new entry lies behind the
cursor and it frees no more than the entry that it changes. -/
theorem Layout.change (h : Layout env id f x captured) (hc : Change f f' x x' link pos entry)
    (hplaced : Placed x.block x'.cursor x'.pages) (hlast : x'.lastPage ∈ x'.pages.getLast?)
    (haligned : x.block ∣ x'.cursor) (hsize : f'.size = f.size) (hfits : x'.cursor ≤ f.size)
    (hpresent : f'.data ∈ f'.since) (hreadable : ∀ m ∈ f'.since, Readable id f' x' captured' m)
    (hlog : ∀ s ∈ f'.written, s.record.size = s.data.length ∧ s.record.sum = s.record.checksum s.data)
    (hpath : Path f'.data x'.pages) (hmirrors : Mirrors f'.data x')
    (hnew : ∀ r, entry = some r → x.cursor ≤ r.pos ∧
      ∃ s ∈ f'.written, s.record = r ∧ f'.data.read r.pos r.size = s.data)
    (hold : ∀ e ∈ f'.punched, e.pos + e.size ≤ x.cursor)
    (hholes : ∀ e ∈ x'.punches ++ captured', e ∈ x.punches ++ captured ∨
      entry = none ∧ pos ∈ x.positions ∧ ∃ r, entryAt f.data pos = some r ∧ r.extent = e) :
    Layout env id f' x' captured' := by
  have hrecords := (h.readable _ h.present).records
  have hfirst : x'.pages.head? = some x.block := by
    obtain ⟨rest, hrest⟩ := hc.pages
    rw [← hrest, List.head?_append, h.first]
    rfl
  -- holes lie below the cursor, where no new page and no new entry is
  have hkeep : ∀ e : Extent, 2 * x.block ≤ e.pos → e.pos + e.size ≤ x.cursor →
      (∀ q ∈ x.pages, e.Disjoint ⟨q, x.block⟩) →
      (∀ p ∈ x.positions, p ≠ pos → ∀ r, entryAt f.data p = some r → r.extent.Disjoint e) →
      2 * x.block ≤ e.pos ∧ e.pos + e.size ≤ x'.cursor ∧ (∀ q ∈ x'.pages, e.Disjoint ⟨q, x.block⟩) ∧
        ∀ p ∈ x'.positions, ∀ r, entryAt f'.data p = some r → r.extent.Disjoint e := by
    intro e hlow hhigh hpages hlive
    refine ⟨hlow, hhigh.trans hc.cursor, fun q hq => ?_, fun p hp r hr => ?_⟩
    · obtain hq | rfl := hc.added q hq
      · exact hpages q hq
      · exact .inl hhigh
    · obtain ⟨hp, ⟨-, he⟩ | ⟨hne, hr⟩⟩ := hc.cases hp hr
      · exact .inr (hhigh.trans (hnew r he).1)
      · exact hlive p hp hne r hr
  refine ⟨hc.block ▸ h.block, hc.block ▸ hfirst, hlast, hc.block ▸ hplaced, hc.block ▸ haligned, ?_, by omega, ?_,
    hpresent, hreadable, hlog, hpath, hmirrors, ?_, ?_, fun e he => (hold e he).trans hc.cursor, fun e he => ?_⟩
  · rw [hsize, hc.block]
    exact h.rounded
  · rw [hsize]
    exact h.bound
  · intro p hp p' hp' hne r r' hr hr'
    obtain ⟨hp, ⟨rfl, he⟩ | ⟨-, hr⟩⟩ := hc.cases hp hr <;> obtain ⟨hp', ⟨rfl, he'⟩ | ⟨-, hr'⟩⟩ := hc.cases hp' hr'
    · exact absurd rfl hne
    · exact .inr ((hrecords p' hp' r' hr').valid.within.trans (hnew r he).1)
    · exact .inl ((hrecords p hp r hr).valid.within.trans (hnew r' he').1)
    · exact h.apart p hp p' hp' hne r r' hr hr'
  · intro p hp r hr
    obtain ⟨hp, ⟨-, he⟩ | ⟨hne, hr⟩⟩ := hc.cases hp hr
    · exact (hnew r he).2
    · obtain ⟨s, hs, hrecord, hread⟩ := h.intact p hp r hr
      exact ⟨s, hc.written s hs, hrecord, (hc.data.payloads p hp hne r hr).trans hread⟩
  · rw [hc.block]
    obtain hmem | ⟨-, hpos, r, hr, rfl⟩ := hholes e he
    · obtain ⟨hlow, hhigh, hpages, hlive⟩ := h.holes e hmem
      exact hkeep e hlow hhigh hpages fun p hp _ => hlive p hp
    · have hsound := hrecords pos hpos r hr
      exact hkeep r.extent hsound.low hsound.valid.within hsound.pages
        fun p hp hne r' hr' => h.apart p hp pos hpos hne r' r hr' hr

theorem Change.holds (hc : Change f f' x x' link pos entry) (h : Mirrors f.data x) (hholds : Holds f x contents)
    (hcontents : ∀ o d, contents' o = some d ↔ contents o = some d ∧ ¬(pos ∈ x.positions ∧ Publishes f.data pos o) ∨
      pos ∈ x.positions ∧ ∃ r, entry = some r ∧ UInt64.ofNat r.offset = o ∧ f'.data.read r.pos r.size = d) :
    Holds f' x' contents' := by
  intro o d
  rw [hcontents, hholds]
  constructor
  · rintro (⟨⟨p, hp, r, hr, ho, hd⟩, hnot⟩ | ⟨hp, r, hr, ho, hd⟩)
    · have hne : p ≠ pos := by
        rintro rfl
        exact hnot ⟨hp, r, hr, ho⟩
      exact ⟨p, hc.kept hp, r, (hc.data.entries p hp hne).trans hr, ho, (hc.data.payloads p hp hne r hr).trans hd⟩
    · exact ⟨pos, hc.kept hp, r, (hc.entry hp).trans hr, ho, hd⟩
  · rintro ⟨p, hp, r, hr, ho, hd⟩
    obtain ⟨hp, ⟨rfl, he⟩ | ⟨hne, hr⟩⟩ := hc.cases hp hr
    · exact .inr ⟨hp, r, he, ho, hd⟩
    · refine .inl ⟨⟨p, hp, r, hr, ho, (hc.data.payloads p hp hne r hr).symm.trans hd⟩, ?_⟩
      rintro ⟨hpos, hpub⟩
      exact hne (h.single p hp pos hpos o ⟨r, hr, ho⟩ hpub)

/-- What is durable stays so, apart from the entry that the step changes. -/
theorem Change.endures (hc : Change f f' x x' link pos entry) (h : Layout env id f x captured)
    (hdurable : Durable f x durable contents) (hlink : link ∈ x.pages → f.data.load link = 0)
    (hsub : ∀ o d, durable' o = some d → durable o = some d ∧ ¬(pos ∈ x.positions ∧ Publishes f.data pos o))
    (hahead : x'.synced ≤ x'.generation) (hclean : x'.generation = x'.synced → durable' = contents') :
    Durable f' x' durable' contents' := by
  refine ⟨fun o d hd => ?_, hahead, hclean⟩
  obtain ⟨hd, hnot⟩ := hsub o d hd
  obtain ⟨toc, p, r, htoc, hp, hro, hkept⟩ := hdurable.kept o d hd
  refine ⟨toc, p, r, htoc.trans hc.pages, by rwa [hc.block], hro, fun m hm => ?_⟩
  obtain hold | hrevises := hc.since m hm
  · exact hkept m hold
  · obtain ⟨hentry, hread, hchain⟩ := hkept _ h.present
    have hp := mem_positions_of_initial htoc hp
    have hne : p ≠ pos := by
      rintro rfl
      exact hnot ⟨hp, r, hentry, hro⟩
    refine ⟨(hrevises.entries p hp hne).trans hentry, (hrevises.payloads p hp hne r hentry).trans hread,
      hchain.imp_of_mem_imp fun q q' hq hq' hnext => ?_⟩
    have hpositive := h.placed.positive q' (htoc.subset hq')
    rw [hrevises.links q (htoc.subset hq), hnext]
    rintro rfl
    have hzero := hlink (htoc.subset hq)
    omega

end swytch.durability
