import Swytch.Proto.Replication

open swytch.proto List

namespace swytch.keytrie

/-- The frontier of a key, each tip once and in the order of arrival. A key without
a leaf has the empty frontier. -/
structure TipSet where
  tips : List EffectRef
  nodup : tips.Nodup
deriving DecidableEq

variable {ts : TipSet} {t : EffectRef} {refs : List EffectRef}

namespace TipSet

def empty : TipSet := ⟨[], nodup_nil⟩

instance : Membership EffectRef TipSet := ⟨fun ts t => t ∈ ts.tips⟩

instance (ts : TipSet) (t : EffectRef) : Decidable (t ∈ ts) :=
  inferInstanceAs (Decidable (t ∈ ts.tips))

theorem mem_def : t ∈ ts ↔ t ∈ ts.tips := Iff.rfl

/-- Add a tip at the end unless it is there. -/
def insert (ts : TipSet) (t : EffectRef) : TipSet :=
  if h : t ∈ ts.tips then ts
  else ⟨ts.tips ++ [t], nodup_append'.mpr ⟨ts.nodup, nodup_singleton t, by simpa using h⟩⟩

theorem mem_insert {u : EffectRef} : u ∈ ts.insert t ↔ u ∈ ts ∨ u = t := by
  unfold insert
  split
  · rename_i h
    exact ⟨.inl, fun hu => hu.elim id (fun heq => heq ▸ h)⟩
  · simp [mem_def]

end TipSet

/-- The tips of a list without repetitions. -/
def newTipSet (refs : List EffectRef) : TipSet :=
  refs.foldl TipSet.insert .empty

theorem mem_newTipSet : t ∈ newTipSet refs ↔ t ∈ refs := by
  have hfold : ∀ ts : TipSet, t ∈ refs.foldl TipSet.insert ts ↔ t ∈ ts ∨ t ∈ refs := by
    induction refs with
    | nil => simp
    | cons r refs ih =>
      intro ts
      rw [foldl_cons, ih, TipSet.mem_insert, mem_cons, or_assoc]
  rw [newTipSet, hfold]
  simp [TipSet.mem_def, TipSet.empty]

namespace TipSet

def removeTips (ts : TipSet) (refs : List EffectRef) : TipSet :=
  ⟨ts.tips.filter (· ∉ refs), ts.nodup.filter _⟩

end TipSet

end swytch.keytrie
