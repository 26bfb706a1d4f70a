import Mathlib.Algebra.IsPrimePow
import Mathlib.Data.Nat.Prime.Pow
import Swytch.Durability.Scan

namespace swytch.durability

open File hiding writeAll

open swytch.lib swytch.proto List Nat Image

variable {m m' : Image} {pos block q : Nat} {r : Record} {env : Env} {x : Index} {captured : List Extent}
  {data : Bytes}

theorem entryAt_of_sameOn (h : Image.SameOn m m' pos (pos + 64)) : entryAt m' pos = entryAt m pos := by
  unfold entryAt
  rw [(h.mono (by omega) (by omega) : Image.SameOn m m' pos (pos + 8)).load_eq,
    (h.mono (by omega) (by omega) : Image.SameOn m m' (pos + 8) (pos + 8 + 8)).load_eq,
    (h.mono (by omega) (by omega) : Image.SameOn m m' (pos + 16) (pos + 16 + 8)).load_eq,
    (h.mono (by omega) (by omega) : Image.SameOn m m' (pos + 24) (pos + 24 + 8)).load_eq,
    (h.mono (by omega) (by omega) : Image.SameOn m m' (pos + 32) (pos + 32 + 8)).load_eq,
    (h.mono (by omega) (by omega) : Image.SameOn m m' (pos + 40) (pos + 40 + 8)).load_eq]

theorem entryAt_eq_none (h : m.load pos ≠ published) : entryAt m pos = none := by
  rw [entryAt, if_neg h]

theorem entryAt_offset_lt (h : entryAt m pos = some r) : r.offset < 2 ^ 64 := by
  unfold entryAt at h
  split at h
  · cases h
    exact load_lt _ _
  · cases h

/-- The header of the bucket's file with the given block. -/
structure Header (id : BucketID) (block : Nat) (m : Image) : Prop where
  magic : m.read 0 8 = magic
  version : m.load 8 = formatVersion
  block : m.load 16 = block
  node : m.load 24 = id.node.toNat
  bucket : m.load 32 = id.bucket.val
  count : m.load 40 = fileCount
  native : m.load 48 = nativeOrder

variable {id : BucketID} {f : File}

theorem Header.of_sameOn (h : Header id block m) (hsame : Image.SameOn m m' 0 56) :
    Header id block m' where
  magic := by rw [(hsame.mono (by omega) (by omega) : Image.SameOn m m' 0 (0 + 8)).read_eq, h.magic]
  version := by rw [(hsame.mono (by omega) (by omega) : Image.SameOn m m' 8 (8 + 8)).load_eq, h.version]
  block := by rw [(hsame.mono (by omega) (by omega) : Image.SameOn m m' 16 (16 + 8)).load_eq, h.block]
  node := by rw [(hsame.mono (by omega) (by omega) : Image.SameOn m m' 24 (24 + 8)).load_eq, h.node]
  bucket := by rw [(hsame.mono (by omega) (by omega) : Image.SameOn m m' 32 (32 + 8)).load_eq, h.bucket]
  count := by rw [(hsame.mono (by omega) (by omega) : Image.SameOn m m' 40 (40 + 8)).load_eq, h.count]
  native := by rw [(hsame.mono (by omega) (by omega) : Image.SameOn m m' 48 (48 + 8)).load_eq, h.native]

/-- The block sizes the format works with: what `open` accepts, and a divisor of the step by
which files grow. -/
structure BlockSize (env : Env) (block : Nat) : Prop where
  least : 4096 ≤ block
  pages : block % env.pageSize = 0
  divides : block ∣ 2 ^ 20

theorem BlockSize.le (h : BlockSize env block) : block ≤ 2 ^ 20 :=
  le_of_dvd (by norm_num) h.divides

theorem BlockSize.dvd (h : BlockSize env block) : 64 ∣ block := by
  obtain ⟨k, -, rfl⟩ := (dvd_prime_pow prime_two).mp h.divides
  have hk : 6 ≤ k := by
    by_contra hlt
    have := Nat.pow_le_pow_right (show 0 < 2 by norm_num) (show k ≤ 5 by omega)
    have := h.least
    omega
  exact pow_dvd_pow 2 hk

/-- All positions of entries an index has. -/
def Index.positions (x : Index) : List Nat := x.pages.flatMap (slots x.block)

theorem Index.mem_positions :
    pos ∈ x.positions ↔ ∃ q ∈ x.pages, pos ∈ slots x.block q := mem_flatMap

theorem slot_within (hblock : 64 ∣ block) (hpos : pos ∈ slots block q) : q + 64 ≤ pos ∧ pos + 64 ≤ q + block := by
  obtain ⟨i, rfl, hi⟩ := mem_slots.mp hpos
  obtain ⟨k, rfl⟩ := hblock
  omega

/-- Where the pages and their entries lie. -/
structure Index.Ordered (x : Index) : Prop where
  least : 64 ≤ x.block
  dvd : 64 ∣ x.block
  placed : Placed x.block x.cursor x.pages

theorem Index.Ordered.position_within (h : x.Ordered) (hpos : pos ∈ x.positions) :
    ∃ q ∈ x.pages, q + 64 ≤ pos ∧ pos + 64 ≤ q + x.block := by
  obtain ⟨q, hq, hslot⟩ := Index.mem_positions.mp hpos
  exact ⟨q, hq, slot_within h.dvd hslot⟩

theorem Placed.block_le {limit : Nat} {pages : List Nat} (h : Placed block limit pages) (hq : q ∈ pages) : block ≤ q :=
  le_of_dvd (h.positive q hq) (h.aligned q hq)

section

variable (h : x.Ordered) (hpos : pos ∈ x.positions)
include h hpos

/-- Entries lie behind the header and below the cursor. -/
theorem Index.Ordered.position_bounds : x.block + 64 ≤ pos ∧ pos + 64 ≤ x.cursor := by
  obtain ⟨q, hq, hlo, hhi⟩ := h.position_within hpos
  have hle := h.placed.block_le hq
  have hbelow := h.placed.below q hq
  omega

/-- An entry never covers the link of a page. -/
theorem Index.Ordered.position_link (hq : q ∈ x.pages) : q + 64 ≤ pos ∨ pos + 64 ≤ q := by
  obtain ⟨q', hq', hlo, hhi⟩ := h.position_within hpos
  by_cases heq : q = q'
  · subst heq
    exact .inl hlo
  · have := h.placed.apart hq hq' heq
    omega

theorem Index.Ordered.position_apart {pos' : Nat} (hpos' : pos' ∈ x.positions) (hne : pos ≠ pos') :
    pos + 64 ≤ pos' ∨ pos' + 64 ≤ pos := by
  have hdvd : ∀ p ∈ x.positions, 64 ∣ p := by
    intro p hp
    obtain ⟨q, hq, hslot⟩ := Index.mem_positions.mp hp
    obtain ⟨i, rfl, -⟩ := mem_slots.mp hslot
    exact (Nat.dvd_add_iff_right (h.dvd.trans (h.placed.aligned q hq))).mp (Nat.dvd_mul_right 64 (i + 1))
  rcases lt_or_gt_of_ne hne with hlt | hlt
  · exact .inl (add_le_of_dvd_of_lt (hdvd pos hpos) (hdvd pos' hpos') hlt)
  · exact .inr (add_le_of_dvd_of_lt (hdvd pos' hpos') (hdvd pos hpos) hlt)

/-- A payload that is apart from the pages is apart from their entries. -/
theorem Index.Ordered.position_extent {e : Extent} (he : ∀ q ∈ x.pages, e.Disjoint ⟨q, x.block⟩) :
    e.pos + e.size ≤ pos ∨ pos + 64 ≤ e.pos := by
  obtain ⟨q, hq, hlo, hhi⟩ := h.position_within hpos
  have hdisjoint := he q hq
  simp only [Extent.Disjoint] at hdisjoint
  omega

end

/-- A published entry as it may stand in a file: in room of its own that was never punched,
with a payload that was put. -/
structure Record.Sound (id : BucketID) (f : File) (x : Index) (captured : List Extent) (r : Record) : Prop where
  valid : r.Valid id x.block x.cursor
  low : 2 * x.block ≤ r.pos
  pages : ∀ q ∈ x.pages, r.extent.Disjoint ⟨q, x.block⟩
  dead : ∀ e ∈ f.punched ++ captured, r.extent.Disjoint e
  logged : ∃ s ∈ f.written, s.record = r

/-- An image the file of the bucket may have after a crash: it says nothing about a chain of
pages beyond that a link is empty or right. -/
structure Readable (id : BucketID) (f : File) (x : Index) (captured : List Extent) (m : Image) : Prop where
  header : Header id x.block m
  links : x.pages.IsChain (fun q q' => m.load q = 0 ∨ m.load q = q')
  ends : ∀ q ∈ x.pages.getLast?, m.load q = 0
  records : ∀ pos ∈ x.positions, ∀ r, entryAt m pos = some r → r.Sound id f x captured
  blank : ∀ i, x.cursor ≤ i → m i = 0

/-- The invariant of an open file. -/
structure Layout (env : Env) (id : BucketID) (f : File) (x : Index) (captured : List Extent) : Prop where
  block : BlockSize env x.block
  first : x.pages.head? = some x.block
  last : x.lastPage ∈ x.pages.getLast?
  placed : Placed x.block x.cursor x.pages
  aligned : x.block ∣ x.cursor
  rounded : x.block ∣ f.size
  fits : x.cursor ≤ f.size
  bound : f.size < 2 ^ 63
  present : f.data ∈ f.since
  readable : ∀ m ∈ f.since, Readable id f x captured m
  log : ∀ s ∈ f.written, s.record.size = s.data.length ∧ s.record.sum = s.record.checksum s.data
  path : Path f.data x.pages
  mirrors : Mirrors f.data x
  apart : ∀ pos ∈ x.positions, ∀ pos' ∈ x.positions, pos ≠ pos' → ∀ r r', entryAt f.data pos = some r →
    entryAt f.data pos' = some r' → r.extent.Disjoint r'.extent
  intact : ∀ pos ∈ x.positions, ∀ r, entryAt f.data pos = some r →
    ∃ s ∈ f.written, s.record = r ∧ f.data.read r.pos r.size = s.data
  old : ∀ e ∈ f.punched, e.pos + e.size ≤ x.cursor
  holes : ∀ e ∈ x.punches ++ captured, 2 * x.block ≤ e.pos ∧ e.pos + e.size ≤ x.cursor ∧
    (∀ q ∈ x.pages, e.Disjoint ⟨q, x.block⟩) ∧
    ∀ pos ∈ x.positions, ∀ r, entryAt f.data pos = some r → r.extent.Disjoint e

theorem Layout.ordered (h : Layout env id f x captured) : x.Ordered :=
  ⟨by have := h.block.least; omega, h.block.dvd, h.placed⟩

theorem Layout.two_blocks (h : Layout env id f x captured) : 2 * x.block ≤ x.cursor := by
  have hbelow := h.placed.below x.block (mem_of_mem_head? (by rw [h.first]; rfl))
  omega

/-- The open file has exactly these payloads. -/
def Holds (f : File) (x : Index) (contents : UInt64 → Option Bytes) : Prop :=
  ∀ o d, contents o = some d ↔ ∃ pos ∈ x.positions, ∃ r, entryAt f.data pos = some r ∧
    UInt64.ofNat r.offset = o ∧ f.data.read r.pos r.size = d

/-- These payloads are in every image the file had since its last sync, on pages the links of
every such image lead to. -/
structure Durable (f : File) (x : Index) (durable contents : UInt64 → Option Bytes) : Prop where
  kept : ∀ o d, durable o = some d → ∃ toc pos r, toc <+: x.pages ∧ pos ∈ toc.flatMap (slots x.block) ∧
    UInt64.ofNat r.offset = o ∧ ∀ m ∈ f.since, entryAt m pos = some r ∧ m.read r.pos r.size = d ∧
      toc.IsChain (fun q q' => m.load q = q')
  ahead : x.synced ≤ x.generation
  clean : x.generation = x.synced → durable = contents

/-- The image is readable if its header and each of its pages come from a readable one. -/
theorem Readable.of_blocks (hx : x.Ordered) (hheader : ∃ m₀, Readable id f x captured m₀ ∧ Image.SameOn m₀ m 0 56)
    (hpages : ∀ q ∈ x.pages, ∃ m₀, Readable id f x captured m₀ ∧ Image.SameOn m₀ m q (q + x.block))
    (hblank : ∀ i, x.cursor ≤ i → m i = 0) : Readable id f x captured m := by
  have hroom := hx.least
  have hload : ∀ q ∈ x.pages, ∃ m₀, Readable id f x captured m₀ ∧ m.load q = m₀.load q := by
    intro q hq
    obtain ⟨m₀, hm₀, hsame⟩ := hpages q hq
    exact ⟨m₀, hm₀, (hsame.mono le_rfl (by omega)).load_eq⟩
  refine ⟨?_, ?_, ?_, ?_, hblank⟩
  · obtain ⟨m₀, hm₀, hsame⟩ := hheader
    exact hm₀.header.of_sameOn hsame
  · rw [isChain_iff_getElem]
    intro i hi
    obtain ⟨m₀, hm₀, heq⟩ := hload _ (getElem_mem (lt_of_succ_lt hi))
    rw [heq]
    exact hm₀.links.getElem i hi
  · intro q hq
    obtain ⟨m₀, hm₀, heq⟩ := hload q (mem_of_mem_getLast? hq)
    rw [heq]
    exact hm₀.ends q hq
  · intro pos hpos r hr
    obtain ⟨q, hq, hslot⟩ := Index.mem_positions.mp hpos
    obtain ⟨m₀, hm₀, hsame⟩ := hpages q hq
    have hwithin := slot_within hx.dvd hslot
    rw [entryAt_of_sameOn (hsame.mono (by omega) (by omega))] at hr
    exact hm₀.records pos hpos r hr

theorem File.writeAll_eq (f : File) (ws : List (Nat × Bytes)) :
    f.writeAll ws = { f with data := f.data.writeAll ws, since := (f.data.trace ws).reverse ++ f.since } := by
  induction ws generalizing f with
  | nil => rfl
  | cons w ws ih =>
    show (f.write w.1 w.2).writeAll ws = _
    rw [ih, trace, reverse_cons, append_assoc]
    rfl

theorem mem_since_writeAll {ws : List (Nat × Bytes)} :
    m ∈ (f.writeAll ws).since ↔ m ∈ f.data.trace ws ∨ m ∈ f.since := by
  rw [writeAll_eq, mem_append, mem_reverse]

theorem File.data_mem_since_writeAll (h : f.data ∈ f.since) (ws : List (Nat × Bytes)) :
    (f.writeAll ws).data ∈ (f.writeAll ws).since := by
  induction ws generalizing f with
  | nil => exact h
  | cons w ws ih => exact ih (f := f.write w.1 w.2) mem_cons_self

/-- The positions a publication writes to. -/
def PublishRegion (pos : Nat) (r : Record) (data : Bytes) (i : Nat) : Prop :=
  pos ≤ i ∧ i < pos + 64 ∨ r.pos ≤ i ∧ i < r.pos + data.length

/-- What a publication does to a file. -/
structure Published (f : File) (pos : Nat) (r : Record) (data : Bytes) (f' : File) : Prop where
  size : f'.size = f.size
  punched : f'.punched = f.punched
  written : f'.written = ⟨r, data⟩ :: f.written
  present : f'.data ∈ f'.since
  since : ∀ m ∈ f'.since, m ∈ f.since ∨
    Image.EqOutside (PublishRegion pos r data) f.data m ∧ (entryAt m pos = none ∨ entryAt m pos = some r)
  outside : Image.EqOutside (PublishRegion pos r data) f.data f'.data
  entry : entryAt f'.data pos = some r
  payload : f'.data.read r.pos r.size = data

/-- The words of a record fit in words of the file. -/
structure Record.Small (r : Record) : Prop where
  offset : r.offset < 2 ^ 64
  pos : r.pos < 2 ^ 64
  size : r.size < 2 ^ 64
  allocated : r.allocated < 2 ^ 64
  sum : r.sum < 2 ^ 64

theorem load_write_word_of_disjoint (m : Image) (p v q : Nat) (hapart : q + 8 ≤ p ∨ p + 8 ≤ q) :
    (m.write p (littleEndian 8 v)).load q = m.load q :=
  load_write_of_disjoint (by rw [length_littleEndian]; exact hapart)

theorem entryAt_publish (hsmall : r.Small) :
    entryAt ((m.writeAll (entryWrites pos r)).write pos (littleEndian 8 published)) pos = some r := by
  obtain ⟨hoffset, hpos, hsize, hallocated, hsum⟩ := hsmall
  unfold entryAt
  rw [if_pos (load_write _ _ (by decide))]
  simp only [entryWrites, writeAll, foldl_cons, foldl_nil]
  simp (disch := omega) only [load_write_word_of_disjoint, load_write]

theorem mem_entryWrites {w : Nat × Bytes} (hw : w ∈ entryWrites pos r) :
    pos + 8 ≤ w.1 ∧ w.1 + w.2.length ≤ pos + 48 := by
  simp only [entryWrites, mem_cons, not_mem_nil, or_false] at hw
  obtain rfl | rfl | rfl | rfl | rfl := hw <;> simp only [length_littleEndian] <;> omega

/-- From the first store of a publication to the one before its last, the entry is free. -/
theorem forall_trace_publish (m : Image) (hapart : pos + 64 ≤ r.pos ∨ r.pos + data.length ≤ pos) :
    let ws := (pos, littleEndian 8 0) :: copyWrites r.pos data ++ entryWrites pos r
    let P := fun m' : Image => Image.EqOutside (PublishRegion pos r data) m m' ∧ m'.load pos = 0
    P (m.writeAll ws) ∧ ∀ m' ∈ m.trace ws, P m' := by
  intro ws P
  have hfirst : P (m.write pos (littleEndian 8 0)) := by
    refine ⟨(Image.EqOutside.refl _ m).write fun i hlo hhi => .inl ⟨hlo, ?_⟩, load_write m pos (by decide)⟩
    rw [length_littleEndian] at hhi
    omega
  obtain ⟨hend, hway⟩ := forall_trace (copyWrites r.pos data ++ entryWrites pos r) hfirst (by
    rintro w hw m' ⟨hout, hfree⟩
    obtain hcopy | hentry := mem_append.mp hw
    · obtain ⟨k, hk, hpos, hlength⟩ := exists_of_mem_copyWrites hcopy
      refine ⟨hout.write fun i hlo hhi => .inr ⟨by omega, by omega⟩, ?_⟩
      rw [load_write_of_disjoint (by omega), hfree]
    · have hrange := mem_entryWrites hentry
      refine ⟨hout.write fun i hlo hhi => .inl ⟨by omega, by omega⟩, ?_⟩
      rw [load_write_of_disjoint (by omega), hfree])
  refine ⟨hend, fun m' hm' => ?_⟩
  obtain rfl | hmem := mem_cons.mp hm'
  · exact hfirst
  · exact hway m' hmem

theorem read_publish (hapart : pos + 64 ≤ r.pos ∨ r.pos + data.length ≤ pos) :
    (m.writeAll (publishWrites pos r data)).read r.pos data.length = data := by
  have hcopy := read_write (m.write pos (littleEndian 8 0)) r.pos data
  rw [← writeAll_copyWrites] at hcopy
  -- the words of the entry are written beside the payload
  let P := fun m' : Image => m'.read r.pos data.length = data
  have hlast : ∀ w ∈ entryWrites pos r ++ [(pos, littleEndian 8 published)], ∀ m' : Image, P m' →
      P (m'.write w.1 w.2) := by
    intro w hw m' hm'
    have hrange : pos ≤ w.1 ∧ w.1 + w.2.length ≤ pos + 48 := by
      obtain hentry | hstate := mem_append.mp hw
      · have := mem_entryWrites hentry
        omega
      · obtain rfl := mem_singleton.mp hstate
        rw [length_littleEndian]
        omega
    exact (write_sameOn (by omega)).read_eq.trans hm'
  have hend := (forall_trace (P := P) _ hcopy hlast).1
  rw [publishWrites, append_assoc, writeAll_append]
  exact hend

theorem File.publish_spec (hpresent : f.data ∈ f.since) (hsmall : r.Small) (hsize : r.size = data.length)
    (hapart : pos + 64 ≤ r.pos ∨ r.pos + data.length ≤ pos) : Published f pos r data (f.publish pos r data) := by
  obtain ⟨⟨hout, -⟩, hway⟩ := forall_trace_publish f.data hapart
  have hdata : (f.publish pos r data).data = f.data.writeAll (publishWrites pos r data) := by
    rw [publish, writeAll_eq]
  have hentry : entryAt (f.publish pos r data).data pos = some r := by
    rw [hdata, publishWrites, writeAll_append, writeAll_append]
    exact entryAt_publish hsmall
  have hend : Image.EqOutside (PublishRegion pos r data) f.data (f.publish pos r data).data := by
    rw [hdata, publishWrites, writeAll_append]
    refine hout.write fun i hlo hhi => .inl ⟨hlo, ?_⟩
    rw [length_littleEndian] at hhi
    omega
  refine ⟨by rw [publish, writeAll_eq], by rw [publish, writeAll_eq],
    by rw [publish, writeAll_eq], data_mem_since_writeAll hpresent _, ?_, hend, hentry, ?_⟩
  · intro m hm
    obtain htrace | hold := mem_since_writeAll.mp hm
    · right
      rw [publishWrites, trace_append, mem_append] at htrace
      obtain hbefore | hlast := htrace
      · obtain ⟨hm', hfree⟩ := hway m hbefore
        exact ⟨hm', .inl (entryAt_eq_none (by rw [hfree]; decide))⟩
      · obtain rfl : m = (f.publish pos r data).data := by
          rw [hdata, publishWrites, writeAll_append]
          exact mem_singleton.mp hlast
        exact ⟨hend, .inr hentry⟩
    · exact .inl hold
  · rw [hdata, hsize]
    exact read_publish hapart

theorem Readable.mono {f' : File} {x' : Index} {captured' : List Extent} (h : Readable id f x captured m)
    (hblock : x'.block = x.block) (hpages : x'.pages = x.pages) (hcursor : x.cursor ≤ x'.cursor)
    (hsound : ∀ r : Record, r.Sound id f x captured → r.Sound id f' x' captured') :
    Readable id f' x' captured' m where
  header := hblock ▸ h.header
  links := hpages ▸ h.links
  ends := hpages ▸ h.ends
  records pos hpos r hr := by
    have hpos' : pos ∈ x.positions := by
      rw [Index.positions, hblock, hpages] at hpos
      exact hpos
    exact hsound r (h.records pos hpos' r hr)
  blank i hi := h.blank i (hcursor.trans hi)

end swytch.durability
