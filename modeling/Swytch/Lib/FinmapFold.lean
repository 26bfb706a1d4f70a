import Mathlib.Data.Finmap
import Mathlib.Data.Finset.Sort

namespace swytch.lib

open Finmap List

variable {K V L : Type} {keys : List K} {m : Finmap (fun _ : K => V)} {k : K}

/-- Erasing a list of keys removes exactly those keys. -/
theorem lookup_foldl_erase [DecidableEq K] (keys : List K) (m : Finmap (fun _ : K => V)) (k : K) :
    (keys.foldl (fun m k => m.erase k) m).lookup k = if k ∈ keys then none else m.lookup k := by
  induction keys generalizing m with
  | nil => simp
  | cons key rest ih =>
    rw [foldl_cons, ih]
    by_cases hrest : k ∈ rest
    · simp [hrest]
    · by_cases hkey : k = key
      · subst hkey
        simp [lookup_erase]
      · simp [hrest, hkey, lookup_erase_ne hkey]

theorem foldl_erase_eq_self_iff [DecidableEq K] : keys.foldl (fun m k => m.erase k) m = m ↔ ∀ k ∈ keys, k ∉ m := by
  constructor
  · intro hself k hk
    rw [← lookup_eq_none, ← hself, lookup_foldl_erase, if_pos hk]
  · intro hnone
    apply ext_lookup
    intro k
    rw [lookup_foldl_erase]
    split
    · rename_i hk
      exact (lookup_eq_none.mpr (hnone k hk)).symm
    · rfl

theorem insert_eq_self_iff [DecidableEq K] {v : V} : m.insert k v = m ↔ m.lookup k = some v := by
  constructor
  · intro hself
    rw [← hself, lookup_insert]
  · intro hlookup
    apply ext_lookup
    intro k'
    by_cases hk : k' = k
    · rw [hk, lookup_insert, hlookup]
    · rw [lookup_insert_of_ne _ hk]

/-- Insert a value if there is one. -/
def insertSome {K V : Type} [DecidableEq K] (m : Finmap (fun _ : K => V)) (k : K) (v : Option V) :
    Finmap (fun _ : K => V) :=
  match v with
  | some v => m.insert k v
  | none => m

/-- Inserting, for each key of a list, a value that depends on the key alone. A
key without a value keeps its old entry. -/
theorem lookup_foldl_insert [DecidableEq K] (f : K → Option V) (keys : List K) (m : Finmap (fun _ : K => V)) (k : K) :
    (keys.foldl (fun m k => insertSome m k (f k)) m).lookup k =
      if k ∈ keys then (f k).or (m.lookup k) else m.lookup k := by
  induction keys generalizing m with
  | nil => simp
  | cons key rest ih =>
    rw [foldl_cons, ih]
    by_cases hkey : k = key
    · subst hkey
      cases hf : f k with
      | none => simp [insertSome]
      | some v => simp [insertSome]
    · cases hf : f key with
      | none => simp [insertSome, hkey]
      | some v => simp [insertSome, hkey, lookup_insert_of_ne _ hkey]

/-- The order in which a map is ranged over: any list of its keys, each of them once. -/
structure RangeOrder (K : Type) where
  order : Finset K → List K
  mem_order : ∀ keys k, k ∈ order keys ↔ k ∈ keys
  nodup_order : ∀ keys, (order keys).Nodup

/-- The keys in increasing order. -/
def sortedOrder (K : Type) [LinearOrder K] : RangeOrder K where
  order keys := keys.sort (· ≤ ·)
  mem_order _ _ := Finset.mem_sort _
  nodup_order keys := Finset.sort_nodup keys _

/-- Range over a map and store every value under another key. -/
def rekey {K L V : Type} [DecidableEq K] [DecidableEq L] (range : RangeOrder K) (f : K → L)
    (m : Finmap (fun _ : K => V)) : Finmap (fun _ : L => V) :=
  (range.order m.keys).foldl (fun out k => insertSome out (f k) (m.lookup k)) ∅

variable {f : K → L}

/-- A key of the map, or the key that comes under another name, is found by the last
insert for it. -/
theorem lookup_foldl_rekey [DecidableEq K] [DecidableEq L] (hf : ∀ k ∈ m, ∀ k' ∈ m, f k = f k' → k = k')
    (hkeys : ∀ k ∈ keys, k ∈ m) (out : Finmap (fun _ : L => V)) (hk : k ∈ m) :
    (keys.foldl (fun out k => insertSome out (f k) (m.lookup k)) out).lookup (f k) =
      if k ∈ keys then m.lookup k else out.lookup (f k) := by
  induction keys generalizing out with
  | nil => simp
  | cons key rest ih =>
    rw [foldl_cons, ih fun k' hk' => hkeys k' (mem_cons_of_mem key hk')]
    by_cases hrest : k ∈ rest
    · simp [hrest]
    · obtain ⟨v, hv⟩ := mem_iff.mp (hkeys key mem_cons_self)
      by_cases hkey : k = key
      · subst hkey
        simp [hrest, hv, insertSome]
      · have hne : f k ≠ f key := fun heq => hkey (hf k hk key (hkeys key mem_cons_self) heq)
        simp [hrest, hkey, hv, insertSome, lookup_insert_of_ne _ hne]

theorem lookup_rekey [DecidableEq K] [DecidableEq L] (range : RangeOrder K)
    (hf : ∀ k ∈ m, ∀ k' ∈ m, f k = f k' → k = k') (hk : k ∈ m) : (rekey range f m).lookup (f k) = m.lookup k := by
  have hkeys : ∀ k ∈ range.order m.keys, k ∈ m := fun k hk => mem_keys.mp ((range.mem_order _ k).mp hk)
  rw [rekey, lookup_foldl_rekey hf hkeys _ hk, if_pos ((range.mem_order _ k).mpr (mem_keys.mpr hk))]

theorem mem_foldl_rekey [DecidableEq K] [DecidableEq L] {out : Finmap (fun _ : L => V)} {l : L}
    (hl : l ∈ keys.foldl (fun out k => insertSome out (f k) (m.lookup k)) out) : l ∈ out ∨ ∃ k ∈ m, f k = l := by
  induction keys generalizing out with
  | nil => exact .inl hl
  | cons key rest ih =>
    rw [foldl_cons] at hl
    rcases ih hl with hout | hfound
    · cases hv : m.lookup key with
      | none =>
        rw [hv] at hout
        exact .inl hout
      | some v =>
        rw [hv, insertSome, mem_insert] at hout
        exact hout.elim (fun heq => .inr ⟨key, mem_iff.mpr ⟨v, hv⟩, heq.symm⟩) .inl
    · exact .inr hfound

theorem exists_of_mem_rekey [DecidableEq K] [DecidableEq L] {range : RangeOrder K} {l : L}
    (hl : l ∈ rekey range f m) : ∃ k ∈ m, f k = l :=
  (mem_foldl_rekey hl).resolve_left notMem_empty

/-- Keys that are renamed and named back give the same map. -/
theorem rekey_rekey [DecidableEq K] [DecidableEq L] (range : RangeOrder K) (range' : RangeOrder L) {g : L → K}
    (hgf : ∀ k, g (f k) = k) (m : Finmap (fun _ : K => V)) : rekey range' g (rekey range f m) = m := by
  have hf : ∀ k ∈ m, ∀ k' ∈ m, f k = f k' → k = k' := by
    intro k _ k' _ heq
    rw [← hgf k, heq, hgf]
  have hg : ∀ l ∈ rekey range f m, ∀ l' ∈ rekey range f m, g l = g l' → l = l' := by
    intro l hl l' hl' heq
    obtain ⟨k, -, rfl⟩ := exists_of_mem_rekey hl
    obtain ⟨k', -, rfl⟩ := exists_of_mem_rekey hl'
    rw [hgf, hgf] at heq
    rw [heq]
  apply ext_lookup
  intro k
  by_cases hk : k ∈ m
  · have hlookup := lookup_rekey range hf hk
    have hmem : f k ∈ rekey range f m := by
      obtain ⟨v, hv⟩ := mem_iff.mp hk
      exact mem_iff.mpr ⟨v, hlookup.trans hv⟩
    have hback := lookup_rekey range' hg hmem
    rw [hgf] at hback
    rw [hback, hlookup]
  · rw [lookup_eq_none.mpr hk, lookup_eq_none]
    intro hmem
    obtain ⟨l, hl, rfl⟩ := exists_of_mem_rekey hmem
    obtain ⟨k, hin, rfl⟩ := exists_of_mem_rekey hl
    rw [hgf] at hk
    exact hk hin

theorem eq_empty_iff_lookup [DecidableEq K] (m : Finmap (fun _ : K => V)) : m = ∅ ↔ ∀ k, m.lookup k = none := by
  constructor
  · rintro rfl k
    exact lookup_empty k
  · intro hnone
    apply ext_lookup
    intro k
    rw [hnone k, lookup_empty]

end swytch.lib
