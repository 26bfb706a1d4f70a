import Swytch.Durability.Store

namespace swytch.durability

open Finmap hiding mem_singleton

open Index Nat Except

open swytch.lib swytch.proto List

variable {block page pos fuel limit handle : Nat} {r : Record} {x x' : Index} {ps pages : List Nat}

theorem mem_slots : pos ∈ slots block page ↔ ∃ i, pos = page + 64 * (i + 1) ∧ 64 * (i + 1) < block := by
  simp only [slots, entrySize, mem_map, mem_range]
  constructor
  · rintro ⟨i, hi, rfl⟩
    exact ⟨i, rfl, by omega⟩
  · rintro ⟨i, rfl, hi⟩
    exact ⟨i, by omega, rfl⟩

theorem slots_nodup (block page : Nat) : (slots block page).Nodup := by
  refine List.Nodup.map ?_ nodup_range
  intro i j hij
  simp only [entrySize] at hij
  omega

/-- What `open` checks of a published entry in a file of the given size. -/
structure Record.Valid (id : BucketID) (block size : Nat) (r : Record) : Prop where
  bucket : r.offset % fileCount = id.bucket.val
  aligned : block ∣ r.pos
  positive : 0 < r.allocated
  rounded : block ∣ r.allocated
  fits : r.size ≤ r.allocated
  within : r.pos + r.allocated ≤ size

variable {id : BucketID} {f : File} {pages' : List Nat} {e : String}

theorem Record.Valid.mono {size size' : Nat} (h : r.Valid id block size) (hsize : size ≤ size') :
    r.Valid id block size' :=
  { h with within := h.within.trans hsize }

theorem Record.valid_iff {size : Nat} :
    r.Valid id block size ↔ ¬(r.offset % fileCount ≠ id.bucket.val ∨ r.pos % block ≠ 0 ∨ r.allocated = 0 ∨
      r.allocated % block ≠ 0 ∨ r.allocated < r.size ∨ size < r.pos ∨ size - r.pos < r.allocated) := by
  constructor
  · rintro ⟨hbucket, haligned, hpositive, hrounded, hfits, hwithin⟩
    have haligned := mod_eq_zero_of_dvd haligned
    have hrounded := mod_eq_zero_of_dvd hrounded
    omega
  · intro h
    simp only [not_or, ne_eq, not_not, not_lt] at h
    obtain ⟨hbucket, haligned, hpositive, hrounded, hfits, hpos, hwithin⟩ := h
    exact ⟨hbucket, dvd_of_mod_eq_zero haligned, pos_of_ne_zero hpositive,
      dvd_of_mod_eq_zero hrounded, hfits, by omega⟩

theorem Index.scanEntry_free (hentry : entryAt f.data pos = none) :
    x.scanEntry id f pos = .ok { x with free := x.free ++ [pos] } := by
  simp only [scanEntry, hentry]

theorem Index.scanEntry_valid (hentry : entryAt f.data pos = some r) (hvalid : r.Valid id x.block f.size)
    (hnew : UInt64.ofNat r.offset ∉ x.entries) : x.scanEntry id f pos = .ok { x with
      entries := x.entries.insert (UInt64.ofNat r.offset) pos, cursor := max x.cursor (r.pos + r.allocated) } := by
  simp only [scanEntry, hentry]
  rw [if_neg (Record.valid_iff.mp hvalid), if_neg hnew]

/-- Everything reading an entry can do. -/
theorem Index.scanEntry_cases (hscan : x.scanEntry id f pos = .ok x') :
    (entryAt f.data pos = none ∧ x' = { x with free := x.free ++ [pos] }) ∨
      ∃ r, entryAt f.data pos = some r ∧ r.Valid id x.block f.size ∧ UInt64.ofNat r.offset ∉ x.entries ∧ x' = { x with
          entries := x.entries.insert (UInt64.ofNat r.offset) pos, cursor := max x.cursor (r.pos + r.allocated) } := by
  cases hentry : entryAt f.data pos with
  | none =>
    rw [scanEntry_free hentry] at hscan
    exact .inl ⟨rfl, (ok.inj hscan).symm⟩
  | some r =>
    by_cases hvalid : r.Valid id x.block f.size
    · by_cases hnew : UInt64.ofNat r.offset ∈ x.entries
      · simp only [scanEntry, hentry] at hscan
        rw [if_neg (Record.valid_iff.mp hvalid), if_pos hnew] at hscan
        cases hscan
      · rw [scanEntry_valid hentry hvalid hnew] at hscan
        exact .inr ⟨r, rfl, hvalid, hnew, (ok.inj hscan).symm⟩
    · simp only [scanEntry, hentry] at hscan
      rw [if_pos (not_not.mp (mt Record.valid_iff.mpr hvalid))] at hscan
      cases hscan

/-- The entry at a position is published for the offset. -/
def Publishes (m : Image) (pos : Nat) (offset : UInt64) : Prop :=
  ∃ r, entryAt m pos = some r ∧ UInt64.ofNat r.offset = offset

/-- No offset is published at two of the positions. -/
def Single (m : Image) (ps : List Nat) : Prop :=
  ∀ pos ∈ ps, ∀ pos' ∈ ps, ∀ o, Publishes m pos o → Publishes m pos' o → pos = pos'

/-- Where the pages of a table of contents lie: in increasing order, on blocks, and below
a limit. -/
structure Placed (block limit : Nat) (pages : List Nat) : Prop where
  sorted : pages.Pairwise (· < ·)
  aligned : ∀ q ∈ pages, block ∣ q
  positive : ∀ q ∈ pages, 0 < q
  below : ∀ q ∈ pages, q + block ≤ limit

theorem Placed.nil (block limit : Nat) : Placed block limit [] :=
  ⟨List.Pairwise.nil, nofun, nofun, nofun⟩

theorem add_le_of_dvd_of_lt {q q' : Nat} (hq : block ∣ q) (hq' : block ∣ q') (hlt : q < q') : q + block ≤ q' := by
  obtain ⟨k, hk⟩ := (dvd_sub hq' hq)
  cases k with
  | zero =>
    rw [mul_zero] at hk
    omega
  | succ k =>
    rw [mul_succ] at hk
    omega

section

variable (h : Placed block limit pages)
include h

theorem Placed.mono {limit' : Nat} (hlimit : limit ≤ limit') : Placed block limit' pages :=
  { h with below := fun q hq => (h.below q hq).trans hlimit }

theorem Placed.of_sublist (hsub : pages'.Sublist pages) : Placed block limit pages' :=
  ⟨h.sorted.sublist hsub, fun q hq => h.aligned q (hsub.subset hq), fun q hq => h.positive q (hsub.subset hq),
    fun q hq => h.below q (hsub.subset hq)⟩

theorem Placed.zero_notMem : 0 ∉ pages :=
  fun hmem => lt_irrefl 0 (h.positive 0 hmem)

theorem Placed.append (h' : Placed block limit pages')
    (hlt : ∀ q ∈ pages, ∀ q' ∈ pages', q < q') : Placed block limit (pages ++ pages') :=
  ⟨pairwise_append.mpr ⟨h.sorted, h'.sorted, hlt⟩,
    fun q hq => (mem_append.mp hq).elim (h.aligned q) (h'.aligned q),
    fun q hq => (mem_append.mp hq).elim (h.positive q) (h'.positive q),
    fun q hq => (mem_append.mp hq).elim (h.below q) (h'.below q)⟩

theorem Placed.le_last {q : Nat} (hq : q ∈ pages) {d : Nat} : q ≤ pages.getLast?.getD d := by
  obtain ⟨init, last, rfl⟩ := eq_nil_or_concat' pages |>.resolve_left (ne_nil_of_mem hq)
  rw [getLast?_concat, Option.getD_some]
  obtain hinit | hlast := mem_append.mp hq
  · exact ((pairwise_append.mp h.sorted).2.2 q hinit last (mem_singleton_self last)).le
  · exact (mem_singleton.mp hlast).le

/-- Two pages of the table do not overlap. -/
theorem Placed.apart {q q' : Nat} (hq : q ∈ pages) (hq' : q' ∈ pages) (hne : q ≠ q') :
    q + block ≤ q' ∨ q' + block ≤ q := by
  rcases lt_or_gt_of_ne hne with hlt | hlt
  · exact .inl (add_le_of_dvd_of_lt (h.aligned q hq) (h.aligned q' hq') hlt)
  · exact .inr (add_le_of_dvd_of_lt (h.aligned q' hq') (h.aligned q hq) hlt)

/-- A page that another one follows is not the last one. -/
theorem Placed.ne_last {last : Nat} (hlast : last ∈ pages.getLast?) (i : Nat) (hi : i + 1 < pages.length) :
    pages[i] ≠ last := by
  rw [getLast?_eq_getElem?] at hlast
  obtain ⟨hend, rfl⟩ := List.getElem?_eq_some_iff.mp hlast
  exact (pairwise_iff_getElem.mp h.sorted i _ (by omega) hend (by omega)).ne

theorem Placed.nodup_slots : (pages.flatMap (slots block)).Nodup := by
  rw [nodup_flatMap]
  refine ⟨fun q _ => slots_nodup block q, h.sorted.imp_of_mem ?_⟩
  intro q q' hq hq' hlt pos hpos hpos'
  obtain ⟨i, rfl, hi⟩ := mem_slots.mp hpos
  obtain ⟨j, hj, -⟩ := mem_slots.mp hpos'
  have hle := add_le_of_dvd_of_lt (h.aligned q hq) (h.aligned q' hq') hlt
  omega

theorem Placed.length_mul_le (hpages : pages ≠ []) : (pages.length + 1) * block ≤ limit := by
  have key : ∀ (pages : List Nat) (page : Nat), Placed block limit (page :: pages) →
      page + (pages.length + 1) * block ≤ limit := by
    intro pages
    induction pages with
    | nil =>
      intro page h
      have hbelow := h.below page mem_cons_self
      simpa using hbelow
    | cons next rest ih =>
      intro page h
      have hrest := ih next (h.of_sublist (sublist_cons_self page _))
      have hlt : page < next := (pairwise_cons.mp h.sorted).1 next mem_cons_self
      have hle := add_le_of_dvd_of_lt (h.aligned page mem_cons_self) (h.aligned next (by simp)) hlt
      rw [length_cons, succ_mul]
      omega
  cases pages with
  | nil => exact absurd rfl hpages
  | cons page rest =>
    have hle := key rest page h
    have hpage : block ≤ page :=
      le_of_dvd (h.positive page mem_cons_self) (h.aligned page mem_cons_self)
    rw [length_cons, succ_mul]
    omega

end

/-- What an index has after the pages `toc` and the entries at `ps` were read: the pages
come after those before, the free entries are listed in their order, the published ones
are valid and found by their offset, and nothing else changed. -/
structure Scanned (id : BucketID) (f : File) (toc ps : List Nat) (x x' : Index) : Prop where
  same : x' = { x with
    pages := x.pages ++ toc, lastPage := toc.getLast?.getD x.lastPage,
    entries := x'.entries, free := x'.free, cursor := x'.cursor }
  placed : Placed x.block f.size toc
  later : x.pages = [] ∨ ∀ q ∈ toc, x.lastPage < q
  free : x'.free = x.free ++ ps.filter (fun pos => (entryAt f.data pos).isNone)
  entries : ∀ o pos, x'.entries.lookup o = some pos ↔
    x.entries.lookup o = some pos ∨ pos ∈ ps ∧ Publishes f.data pos o
  valid : ∀ pos ∈ ps, ∀ r, entryAt f.data pos = some r → r.Valid id x.block f.size
  cursor_le : x.cursor ≤ x'.cursor
  cursor_max : x'.cursor ≤ max x.cursor f.size

theorem Scanned.block_eq (h : Scanned id f pages ps x x') : x'.block = x.block := by
  rw [h.same]

theorem Scanned.pages_eq (h : Scanned id f pages ps x x') : x'.pages = x.pages ++ pages := by
  rw [h.same]

theorem Scanned.last_eq (h : Scanned id f pages ps x x') : x'.lastPage = pages.getLast?.getD x.lastPage := by
  rw [h.same]

theorem Scanned.single (h : Scanned id f pages ps x x') : Single f.data ps := by
  intro pos hpos pos' hpos' o ho ho'
  have hfirst := (h.entries o pos).mpr (.inr ⟨hpos, ho⟩)
  have hsecond := (h.entries o pos').mpr (.inr ⟨hpos', ho'⟩)
  rw [hfirst] at hsecond
  exact Option.some.inj hsecond

theorem Scanned.refl (id : BucketID) (f : File) (x : Index) : Scanned id f [] [] x x where
  same := by simp
  placed := .nil _ _
  later := .inr (by simp)
  free := by simp
  entries := by simp
  valid := by simp
  cursor_le := le_rfl
  cursor_max := le_max_left _ _

theorem Scanned.trans {ps' : List Nat} {x'' : Index} (h : Scanned id f pages ps x x')
    (h' : Scanned id f pages' ps' x' x'') : Scanned id f (pages ++ pages') (ps ++ ps') x x'' where
  same := by
    rw [h'.same, h.pages_eq, h.last_eq, append_assoc, getLast?_append]
    rw [h.same]
    cases pages'.getLast? <;> rfl
  placed := by
    refine h.placed.append (h.block_eq ▸ h'.placed) fun q hq q' hq' => ?_
    have hlast := h'.later.resolve_left (by rw [h.pages_eq]; exact append_ne_nil_of_right_ne_nil _ (ne_nil_of_mem hq))
    exact (h.last_eq ▸ h.placed.le_last hq).trans_lt (hlast q' hq')
  later := by
    by_cases hpages : x.pages = []
    · exact .inl hpages
    · have hfirst := h.later.resolve_left hpages
      have hsecond := h'.later.resolve_left (by rw [h.pages_eq]; exact append_ne_nil_of_left_ne_nil hpages _)
      refine .inr fun q hq => (mem_append.mp hq).elim (hfirst q) fun hq => ?_
      refine lt_of_le_of_lt ?_ (hsecond q hq)
      rw [h.last_eq]
      cases hlast : pages.getLast? with
      | none => exact le_rfl
      | some l => exact (hfirst l (mem_of_getLast? hlast)).le
  free := by rw [h'.free, h.free, filter_append, append_assoc]
  entries o pos := by
    rw [h'.entries, h.entries, mem_append]
    tauto
  valid pos hpos := (mem_append.mp hpos).elim (h.valid pos) (h.block_eq ▸ h'.valid pos)
  cursor_le := h.cursor_le.trans h'.cursor_le
  cursor_max := by
    have h₁ := h.cursor_max
    have h₂ := h'.cursor_max
    omega

theorem Index.scanEntry_scanned (hscan : x.scanEntry id f pos = .ok x') : Scanned id f [] [pos] x x' := by
  obtain ⟨hentry, rfl⟩ | ⟨r, hentry, hvalid, hnew, rfl⟩ := scanEntry_cases hscan
  · refine ⟨by simp, .nil _ _, .inr (by simp), by simp [hentry], fun o pos' => ?_, by simp [hentry], le_rfl,
      le_max_left _ _⟩
    refine ⟨.inl, fun h => h.resolve_right ?_⟩
    simp only [mem_singleton]
    rintro ⟨rfl, r, hr, -⟩
    rw [hentry] at hr
    cases hr
  · have hwithin := hvalid.within
    refine ⟨by simp, .nil _ _, .inr (by simp), by simp [hentry], fun o pos' => ?_, by simpa [hentry] using hvalid,
      le_max_left _ _, by dsimp only; omega⟩
    simp only [mem_singleton]
    by_cases ho : o = UInt64.ofNat r.offset
    · subst ho
      rw [lookup_insert, lookup_eq_none.mpr hnew]
      simp only [Option.some.injEq, reduceCtorEq, false_or]
      constructor
      · rintro rfl
        exact ⟨rfl, r, hentry, rfl⟩
      · rintro ⟨rfl, -⟩
        rfl
    · rw [lookup_insert_of_ne _ ho]
      refine ⟨.inl, fun h => h.resolve_right ?_⟩
      rintro ⟨rfl, r', hr', hoffset⟩
      rw [hentry] at hr'
      cases hr'
      exact ho hoffset.symm

/-- Reading entries one after the other. -/
theorem Index.scanEntries_scanned (hscan : ps.foldlM (scanEntry id f) x = .ok x') : Scanned id f [] ps x x' := by
  induction ps generalizing x with
  | nil =>
    obtain rfl := ok.inj hscan
    exact Scanned.refl id f x
  | cons pos ps ih =>
    rw [foldlM_cons] at hscan
    cases hfirst : x.scanEntry id f pos with
    | error e =>
      rw [hfirst] at hscan
      cases hscan
    | ok y =>
      rw [hfirst] at hscan
      exact (scanEntry_scanned hfirst).trans (ih hscan)

/-- Entries that are valid and whose offsets are new are read without an error. -/
theorem Index.exists_scanEntries (hnodup : ps.Nodup)
    (hvalid : ∀ pos ∈ ps, ∀ r, entryAt f.data pos = some r → r.Valid id x.block f.size) (hsingle : Single f.data ps)
    (hnew : ∀ pos ∈ ps, ∀ o, Publishes f.data pos o → o ∉ x.entries) :
    ∃ x', ps.foldlM (scanEntry id f) x = .ok x' := by
  induction ps generalizing x with
  | nil => exact ⟨x, rfl⟩
  | cons pos ps ih =>
    obtain ⟨y, hfirst⟩ : ∃ y, x.scanEntry id f pos = .ok y := by
      cases hentry : entryAt f.data pos with
      | none => exact ⟨_, scanEntry_free hentry⟩
      | some r =>
        exact ⟨_, scanEntry_valid hentry (hvalid pos mem_cons_self r hentry)
          (hnew pos mem_cons_self _ ⟨r, hentry, rfl⟩)⟩
    have hy := scanEntry_scanned hfirst
    have hrest : ∀ p ∈ ps, ∀ o, Publishes f.data p o → o ∉ y.entries := by
      intro p hp o ho hmem
      obtain ⟨q, hq⟩ := mem_iff.mp hmem
      obtain hold | ⟨hq', hpub⟩ := (hy.entries o q).mp hq
      · exact hnew p (mem_cons_of_mem pos hp) o ho (mem_of_lookup_eq_some hold)
      · obtain rfl := mem_singleton.mp hq'
        obtain rfl := hsingle q mem_cons_self p (mem_cons_of_mem q hp) o hpub ho
        exact (nodup_cons.mp hnodup).1 hp
    obtain ⟨x', hx'⟩ := ih (nodup_cons.mp hnodup).2
      (fun p hp r hr => by rw [hy.block_eq]; exact hvalid p (mem_cons_of_mem pos hp) r hr)
      (fun p hp p' hp' => hsingle p (mem_cons_of_mem pos hp) p' (mem_cons_of_mem pos hp')) hrest
    exact ⟨x', by rw [foldlM_cons, hfirst]; exact hx'⟩

/-- The pages a chain of links leads through. -/
def follow (m : Image) : Nat → Nat → List Nat
  | 0, _ => []
  | fuel + 1, page => if page = 0 then [] else page :: follow m fuel (m.load page)

theorem Index.scanPage_scanned (hpage : page ≠ 0) (hscan : x.scanPage id f page = .ok x') :
    Scanned id f [page] (slots x.block page) x x' := by
  unfold scanPage at hscan
  split at hscan
  · cases hscan
  · rename_i hcheck
    have h := scanEntries_scanned hscan
    have hle := h.cursor_le
    have hmax := h.cursor_max
    dsimp only at hle hmax
    simp only [not_or, not_and, not_not, not_lt, not_le] at hcheck
    refine ⟨by rw [h.same]; simp, ⟨pairwise_singleton _ _, ?_, ?_, ?_⟩, ?_, h.free, h.entries, h.valid,
      by omega, by omega⟩
    · simpa using dvd_of_mod_eq_zero hcheck.1
    · simpa using pos_of_ne_zero hpage
    · simp only [mem_singleton, forall_eq]
      omega
    · simpa [or_iff_not_imp_left] using hcheck.2.2

/-- A scan that ends has read the pages of the chain. -/
theorem Index.scanPages_scanned (hscan : scanPages id f fuel page x = .ok x') :
    Scanned id f (follow f.data fuel page) ((follow f.data fuel page).flatMap (slots x.block)) x x' := by
  induction fuel generalizing page x with
  | zero => cases hscan
  | succ fuel ih =>
    unfold scanPages at hscan
    unfold follow
    split at hscan
    · rename_i hzero
      obtain rfl := ok.inj hscan
      rw [if_pos hzero]
      exact Scanned.refl id f x
    · rename_i hzero
      rw [if_neg hzero]
      cases hfirst : x.scanPage id f page with
      | error e =>
        rw [hfirst] at hscan
        cases hscan
      | ok y =>
        rw [hfirst] at hscan
        have h := scanPage_scanned hzero hfirst
        exact h.trans (h.block_eq ▸ ih hscan)

theorem Index.scanEntries_error (hscan : ps.foldlM (scanEntry id f) x = .error e) :
    e ≠ "TOC scan out of fuel" := by
  induction ps generalizing x with
  | nil => cases hscan
  | cons pos ps ih =>
    rw [foldlM_cons] at hscan
    cases hfirst : x.scanEntry id f pos with
    | ok y =>
      rw [hfirst] at hscan
      exact ih hscan
    | error e' =>
      rw [hfirst] at hscan
      cases hscan
      unfold scanEntry at hfirst
      split at hfirst
      · cases hfirst
      · split at hfirst
        · cases hfirst
          decide
        · split at hfirst
          · cases hfirst
            decide
          · cases hfirst

/-- Every page lies at least one block after the one before, so the pages end within the
file. -/
theorem Index.scanPages_ends (haligned : x.block ∣ x.lastPage) (hlast : x.lastPage ≤ f.size)
    (hfirst : x.pages = [] → x.lastPage = 0) (hfuel : f.size < x.lastPage + fuel * x.block)
    (hscan : scanPages id f fuel page x = .error e) : e ≠ "TOC scan out of fuel" := by
  induction fuel generalizing page x with
  | zero => omega
  | succ fuel ih =>
    unfold scanPages at hscan
    split at hscan
    · cases hscan
    · rename_i hpage
      cases hread : x.scanPage id f page with
      | error e' =>
        rw [hread] at hscan
        cases hscan
        unfold scanPage at hread
        split at hread
        · cases hread
          decide
        · exact scanEntries_error hread
      | ok y =>
        rw [hread] at hscan
        have h := scanPage_scanned hpage hread
        have hyLast : y.lastPage = page := h.last_eq
        have hlt : x.lastPage < page := h.later.elim (fun hnil => by have := hfirst hnil; omega) (· page (by simp))
        have hnext := add_le_of_dvd_of_lt haligned (h.placed.aligned page (by simp)) hlt
        have hbelow := h.placed.below page (by simp)
        refine ih ?_ (by omega) (fun hnil => ?_) ?_ hscan
        · rw [hyLast, h.block_eq]
          exact h.placed.aligned page (by simp)
        · simp [h.pages_eq] at hnil
        · rw [hyLast, h.block_eq]
          rw [succ_mul] at hfuel
          omega

/-- The links of the image lead along the pages and end after the last one. -/
structure Path (m : Image) (pages : List Nat) : Prop where
  links : pages.IsChain (fun q q' => m.load q = q')
  ends : ∀ q ∈ pages.getLast?, m.load q = 0

theorem Path.tail {m : Image} {q q' : Nat} (h : Path m (q :: q' :: pages)) : Path m (q' :: pages) :=
  ⟨(isChain_cons_cons.mp h.links).2, by simpa [getLast?_cons_cons] using h.ends⟩

theorem Path.follow_eq {m : Image} (h : Path m (page :: pages)) (hzero : 0 ∉ page :: pages)
    (hfuel : pages.length + 1 < fuel) : follow m fuel page = page :: pages := by
  induction pages generalizing page fuel with
  | nil =>
    obtain ⟨k, rfl⟩ : ∃ k, fuel = k + 2 := ⟨fuel - 2, by simp at hfuel; omega⟩
    have hend : m.load page = 0 := h.ends page rfl
    have hpage : page ≠ 0 := by
      rintro rfl
      exact hzero mem_cons_self
    simp [follow, hpage, hend]
  | cons next rest ih =>
    obtain ⟨k, rfl⟩ : ∃ k, fuel = k + 1 := ⟨fuel - 1, by omega⟩
    have hpage : page ≠ 0 := by
      rintro rfl
      exact hzero mem_cons_self
    have hnext : m.load page = next := (isChain_cons_cons.mp h.links).1
    rw [follow, if_neg hpage, hnext,
      ih h.tail (fun hmem => hzero (mem_cons_of_mem page hmem)) (by simpa using hfuel)]

theorem Index.exists_scanPage (hplaced : Placed x.block f.size [page]) (hlast : x.pages = [] ∨ x.lastPage < page)
    (hvalid : ∀ pos ∈ slots x.block page, ∀ r, entryAt f.data pos = some r → r.Valid id x.block f.size)
    (hsingle : Single f.data (slots x.block page))
    (hnew : ∀ pos ∈ slots x.block page, ∀ o, Publishes f.data pos o → o ∉ x.entries) :
    ∃ x', x.scanPage id f page = .ok x' := by
  have haligned := mod_eq_zero_of_dvd (hplaced.aligned page mem_cons_self)
  have hbelow := hplaced.below page mem_cons_self
  have hcheck : ¬(page % x.block ≠ 0 ∨ f.size - x.block < page ∨ (x.pages ≠ [] ∧ page ≤ x.lastPage)) := by
    rintro (h | h | ⟨hpages, h⟩)
    · exact h haligned
    · omega
    · have := hlast.resolve_left hpages
      omega
  rw [scanPage, if_neg hcheck]
  exact exists_scanEntries (slots_nodup _ _) hvalid hsingle hnew

/-- Pages that lie well, with valid entries of new offsets, are read without an error. -/
theorem Index.exists_scanPages (hpath : Path f.data (page :: pages))
    (hplaced : Placed x.block f.size (page :: pages)) (hlast : x.pages = [] ∨ x.lastPage < page)
    (hfuel : pages.length + 1 < fuel)
    (hvalid : ∀ pos ∈ (page :: pages).flatMap (slots x.block), ∀ r, entryAt f.data pos = some r →
      r.Valid id x.block f.size) (hsingle : Single f.data ((page :: pages).flatMap (slots x.block)))
    (hnew : ∀ pos ∈ (page :: pages).flatMap (slots x.block), ∀ o, Publishes f.data pos o → o ∉ x.entries) :
    ∃ x', scanPages id f fuel page x = .ok x' := by
  induction pages generalizing page x fuel with
  | nil =>
    obtain ⟨k, rfl⟩ : ∃ k, fuel = k + 2 := ⟨fuel - 2, by simp at hfuel; omega⟩
    rw [flatMap_singleton] at hvalid hsingle hnew
    obtain ⟨y, hy⟩ := exists_scanPage hplaced hlast hvalid hsingle hnew
    have hpage := (hplaced.positive page mem_cons_self).ne'
    refine ⟨y, ?_⟩
    rw [scanPages, if_neg hpage, hy, hpath.ends page rfl]
    rfl
  | cons next rest ih =>
    obtain ⟨k, rfl⟩ : ∃ k, fuel = k + 1 := ⟨fuel - 1, by omega⟩
    have hpage := (hplaced.positive page mem_cons_self).ne'
    rw [flatMap_cons] at hvalid hsingle hnew
    have hhead : ∀ pos ∈ slots x.block page, pos ∈ slots x.block page ++ (next :: rest).flatMap (slots x.block) :=
      fun pos hpos => mem_append_left _ hpos
    have htail : ∀ pos ∈ (next :: rest).flatMap (slots x.block),
        pos ∈ slots x.block page ++ (next :: rest).flatMap (slots x.block) :=
      fun pos hpos => mem_append_right _ hpos
    obtain ⟨y, hy⟩ := exists_scanPage (hplaced.of_sublist (by simp)) hlast (fun pos hpos => hvalid pos (hhead pos hpos))
      (fun pos hpos pos' hpos' => hsingle pos (hhead pos hpos) pos' (hhead pos' hpos'))
      (fun pos hpos => hnew pos (hhead pos hpos))
    have hscanned := scanPage_scanned hpage hy
    have hlt : page < next := (pairwise_cons.mp hplaced.sorted).1 next mem_cons_self
    -- an offset found on this page is not published on a later one
    have hrest : ∀ pos ∈ (next :: rest).flatMap (slots x.block), ∀ o, Publishes f.data pos o → o ∉ y.entries := by
      intro pos hpos o ho hmem
      obtain ⟨p, hp⟩ := mem_iff.mp hmem
      obtain hold | ⟨hp', hpub⟩ := (hscanned.entries o p).mp hp
      · exact hnew pos (htail pos hpos) o ho (mem_of_lookup_eq_some hold)
      · obtain rfl := hsingle p (hhead p hp') pos (htail pos hpos) o hpub ho
        have hnodup := hplaced.nodup_slots
        rw [flatMap_cons, nodup_append] at hnodup
        exact hnodup.2.2 p hp' p hpos rfl
    obtain ⟨x', hx'⟩ : ∃ x', scanPages id f k next y = .ok x' := ih hpath.tail
      (by rw [hscanned.block_eq]; exact hplaced.of_sublist (sublist_cons_self page _))
      (.inr (by rw [hscanned.last_eq]; exact hlt)) (by simpa using hfuel)
      (by rw [hscanned.block_eq]; exact fun pos hpos => hvalid pos (htail pos hpos))
      (by
        rw [hscanned.block_eq]
        exact fun pos hpos pos' hpos' => hsingle pos (htail pos hpos) pos' (htail pos' hpos'))
      (by rw [hscanned.block_eq]; exact hrest)
    refine ⟨x', ?_⟩
    rw [scanPages, if_neg hpage, hy, (isChain_cons_cons.mp hpath.links).1]
    exact hx'

/-- The index has exactly what the pages of the image have. -/
structure Mirrors (m : Image) (x : Index) : Prop where
  entries : ∀ o pos, x.entries.lookup o = some pos ↔ pos ∈ x.pages.flatMap (slots x.block) ∧ Publishes m pos o
  free : ∀ pos, pos ∈ x.free ↔ pos ∈ x.pages.flatMap (slots x.block) ∧ entryAt m pos = none
  nodup : x.free.Nodup

/-- What `open` leaves for a file with the given pages. -/
structure OpenedAs (f : File) (block handle : Nat) (toc : List Nat) (x : Index) : Prop where
  handle : x.handle = handle
  block : x.block = block
  pages : x.pages = toc
  last : x.lastPage ∈ toc.getLast?
  cursor : x.cursor = f.size
  generation : x.generation = 0
  synced : x.synced = 0
  punches : x.punches = []
  mirrors : Mirrors f.data x

/-- The pages `open` reads. -/
def File.toc (f : File) (block : Nat) : List Nat := follow f.data (f.size / block + 1) block

theorem Scanned.openedAs (h : Scanned id f pages (pages.flatMap (slots block)) (start block handle) x)
    (hsize : 2 * block ≤ f.size) (hne : pages ≠ []) :
    OpenedAs f block handle pages { x with cursor := max x.cursor f.size } := by
  have hmax := h.cursor_max
  dsimp only [start] at hmax
  have hread : x.pages = pages := h.pages_eq
  have hblock : x.block = block := h.block_eq
  have hfree : x.free = (pages.flatMap (slots block)).filter (fun pos => (entryAt f.data pos).isNone) := by
    rw [h.free, start, nil_append]
  refine ⟨by rw [h.same]; rfl, hblock, hread, ?_, by dsimp only; omega, by rw [h.same]; rfl, by rw [h.same]; rfl,
    by rw [h.same]; rfl, ?_, ?_, ?_⟩
  · dsimp only
    rw [h.last_eq, getLast?_eq_some_getLast hne]
    rfl
  · intro o pos
    dsimp only
    rw [h.entries, hread, hblock, start, lookup_empty]
    simp only [reduceCtorEq, false_or]
  · intro pos
    dsimp only
    rw [hfree, hread, hblock, mem_filter, Option.isNone_iff_eq_none]
  · dsimp only
    rw [hfree]
    exact h.placed.nodup_slots.filter _

/-- What a file has that `open` accepts: its pages lie well, its entries are valid and have
different offsets. -/
structure File.Sane (id : BucketID) (f : File) (block : Nat) : Prop where
  placed : Placed block f.size (f.toc block)
  valid : ∀ pos ∈ (f.toc block).flatMap (slots block), ∀ r, entryAt f.data pos = some r → r.Valid id block f.size
  single : Single f.data ((f.toc block).flatMap (slots block))

/-- A scan that ends has read the pages of the chain. -/
theorem Index.scan_spec (hscan : scan id f block handle = .ok x) (hblock : 0 < block)
    (hsize : 2 * block ≤ f.size) : OpenedAs f block handle (f.toc block) x ∧ f.Sane id block := by
  unfold scan at hscan
  cases hread : scanPages id f (f.size / block + 1) block (start block handle) with
  | error e =>
    rw [hread] at hscan
    cases hscan
  | ok y =>
    rw [hread] at hscan
    cases hscan
    have h := scanPages_scanned hread
    refine ⟨h.openedAs hsize ?_, h.placed, h.valid, h.single⟩
    rw [follow, if_neg hblock.ne']
    exact cons_ne_nil _ _

theorem Index.scan_error (hblock : 0 < block) (hscan : scan id f block handle = .error e) :
    e ≠ "TOC scan out of fuel" := by
  unfold scan at hscan
  cases hread : scanPages id f (f.size / block + 1) block (start block handle) with
  | ok y =>
    rw [hread] at hscan
    cases hscan
  | error e' =>
    rw [hread] at hscan
    cases hscan
    refine scanPages_ends (dvd_zero _) (zero_le _) (fun _ => rfl) ?_ hread
    rw [start, zero_add, mul_comm]
    exact lt_mul_div_succ f.size hblock

/-- A file whose chain of pages lies well and whose entries are valid and have different
offsets is opened. -/
theorem Index.exists_scan (hblock : 0 < block) (hsize : 2 * block ≤ f.size) (hpath : Path f.data (block :: pages))
    (hplaced : Placed block f.size (block :: pages))
    (hvalid : ∀ pos ∈ (block :: pages).flatMap (slots block), ∀ r, entryAt f.data pos = some r →
      r.Valid id block f.size) (hsingle : Single f.data ((block :: pages).flatMap (slots block))) :
    ∃ x, scan id f block handle = .ok x ∧ OpenedAs f block handle (block :: pages) x := by
  have hlength := hplaced.length_mul_le (cons_ne_nil _ _)
  rw [length_cons] at hlength
  have hfuel : pages.length + 1 < f.size / block + 1 := by
    have := (le_div_iff_mul_le hblock).mpr hlength
    omega
  obtain ⟨y, hy⟩ : ∃ y, scanPages id f (f.size / block + 1) block (start block handle) = .ok y :=
    exists_scanPages hpath hplaced (.inl rfl) hfuel hvalid hsingle (fun _ _ _ _ => notMem_empty)
  have hfollow := hpath.follow_eq hplaced.zero_notMem hfuel
  have hscanned := scanPages_scanned hy
  rw [hfollow] at hscanned
  refine ⟨_, ?_, hscanned.openedAs hsize (cons_ne_nil _ _)⟩
  rw [scan, hy]
  rfl

theorem Path.toc_eq (hblock : 0 < block) (hpath : Path f.data (block :: pages))
    (hplaced : Placed block f.size (block :: pages)) : f.toc block = block :: pages := by
  have hlength := hplaced.length_mul_le (cons_ne_nil _ _)
  rw [length_cons] at hlength
  have := (le_div_iff_mul_le hblock).mpr hlength
  exact hpath.follow_eq hplaced.zero_notMem (by omega)

theorem Bucket.openFile_eq {env : Env} {b : Bucket} (hmedium : b.medium = .closed f)
    (hcheck : f.checkHeader env id = .ok block) : b.openFile env id =
      (scan id f block b.opened).map fun x => { b with medium := .mapped f x, opened := b.opened + 1 } := by
  simp only [Bucket.openFile, hmedium, hcheck]
  show (scan id f block b.opened).bind _ = _
  cases scan id f block b.opened <;> rfl

end swytch.durability
