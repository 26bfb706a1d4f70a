import Mathlib.Data.Int.ModEq
import Swytch.Effects.Reduce

open swytch.proto List Finmap

namespace swytch.effects

mutual

/-- The whole state message of a key: the fields that reads work with, the subscriber set
that is kept for peers, and the partitions, which are states themselves. -/
inductive ReducedState where
  | mk (flat : FlatReduced) (subscribers : Map NodeID Bool) (partitions : Partitions)

/-- The partitions of a state by name, in the order in which the map is ranged over. -/
inductive Partitions where
  | nil
  | cons (name : Bytes) (state : ReducedState) (rest : Partitions)

end

def ReducedState.flat : ReducedState → FlatReduced
  | .mk flat _ _ => flat

def ReducedState.setFlat : ReducedState → FlatReduced → ReducedState
  | .mk _ subscribers partitions, flat => .mk flat subscribers partitions

/-- An order in which Go ranges over a map: every entry comes once. -/
structure MapOrder where
  entries : Map Bytes ReducedElement → List (Bytes × ReducedElement)
  nodup : ∀ m, ((entries m).map Prod.fst).Nodup
  mem_iff : ∀ m id elem, (id, elem) ∈ entries m ↔ m.lookup id = some elem

variable {flat : FlatReduced} (d : DataEffect) (order : MapOrder)

theorem MapOrder.entries_empty : order.entries ∅ = [] := by
  refine eq_nil_iff_forall_not_mem.mpr fun ⟨id, elem⟩ hentry => ?_
  rw [order.mem_iff, lookup_empty] at hentry
  cases hentry

def compressMinBytes : Nat := 64

variable (ds : List DataEffect) (compress : Bytes → Bytes)

/-- Swap the raw arm for a compressed one when it is large enough and that is smaller. -/
def compressDataValue (d : DataEffect) : DataEffect :=
  match d.value with
  | some (.raw raw) =>
    if raw.length < compressMinBytes then d
    else
      let z := compress raw
      if raw.length ≤ z.length then d
      else { d with value := some (.compressed ⟨.zstd, raw.length, z⟩) }
  | _ => d

/-- Whether compression is tried. The codec is not run. -/
def compressibleData : Bool :=
  match d.value with
  | some (.raw raw) => compressMinBytes ≤ raw.length
  | _ => false

def cloneData : DataEffect :=
  { op := d.op, merge := d.merge, collection := d.collection, placement := d.placement, reference := d.reference,
    id := d.id, value := d.value }

def compressedElement (elem : ReducedElement) : ReducedElement :=
  { data := compressDataValue compress (cloneData elem.data), hlc := elem.hlc, nodeId := elem.nodeId,
    forkChoiceHash := elem.forkChoiceHash, expiresAt := elem.expiresAt }

/-- The fields of a state that reads work with. -/
def cloneReducedFlat (r : FlatReduced) : FlatReduced :=
  { op := r.op, merge := r.merge, collection := r.collection, hlc := r.hlc, nodeId := r.nodeId,
    commutative := r.commutative, typeTag := r.typeTag, expiresAt := r.expiresAt,
    serializationLeader := r.serializationLeader, forkChoiceHash := r.forkChoiceHash,
    scalar := r.scalar.map cloneData, netAdds := r.netAdds, netRemoves := r.netRemoves,
    orderedElements := r.orderedElements }

mutual

/-- A copy with maps and slices of its own. The subscribers are not copied. -/
def cloneReduced : ReducedState → ReducedState
  | .mk flat _ partitions => .mk (cloneReducedFlat flat) ∅ (clonePartitions partitions)

def clonePartitions : Partitions → Partitions
  | .nil => .nil
  | .cons name state rest => .cons name (cloneReduced state) (clonePartitions rest)

end

/-- The state that is compressed and, once it was detached, the copy that is written to. -/
structure CopyOnWrite where
  original : ReducedState
  copy : Option ReducedState := none

namespace CopyOnWrite

variable (s : CopyOnWrite)

def out : ReducedState := s.copy.getD s.original

def ensureOwned : CopyOnWrite :=
  match s.copy with
  | some _ => s
  | none => { s with copy := some (cloneReduced s.original) }

/-- Write to the result. As long as there is no copy that is the original itself. -/
def write (f : FlatReduced → FlatReduced) : CopyOnWrite :=
  match s.copy with
  | some copy => { s with copy := some (copy.setFlat (f copy.flat)) }
  | none => { s with original := s.original.setFlat (f s.original.flat) }

def scalarStep : CopyOnWrite :=
  if s.original.flat.scalar.any compressibleData then
    s.ensureOwned.write (fun flat => { flat with scalar := flat.scalar.map (compressDataValue compress) })
  else s

def netAddStep (entry : Bytes × ReducedElement) : CopyOnWrite :=
  if compressibleData entry.2.data then
    s.ensureOwned.write
      (fun flat => { flat with netAdds := flat.netAdds.insert entry.1 (compressedElement compress entry.2) })
  else s

def orderedStep (i : Nat) : CopyOnWrite :=
  match s.original.flat.orderedElements[i]? with
  | none => s
  | some elem =>
    if compressibleData elem.data then
      s.ensureOwned.write
        (fun flat => { flat with orderedElements := flat.orderedElements.set i (compressedElement compress elem) })
    else s

end CopyOnWrite

/-- Compress the values of a state in a copy, if there are any to compress. -/
def compressReducedState (order : MapOrder) (r : ReducedState) : CopyOnWrite :=
  let scalar := CopyOnWrite.scalarStep compress ⟨r, none⟩
  let keyed := (order.entries r.flat.netAdds).foldl (CopyOnWrite.netAddStep compress) scalar
  (range r.flat.orderedElements.length).foldl (CopyOnWrite.orderedStep compress) keyed

/-- The values that an effect stores: its own, or those of the state of a snapshot. -/
inductive StoredValues where
  | data (d : DataEffect)
  | snapshot (state : Option ReducedState)
  | other

def compressedOf : Option CompressedValue :=
  match d.value with
  | some (.compressed cv) => some cv
  | _ => none

/-- Count what the compression of a value saved, as 64-bit arithmetic does. -/
def addInflated (delta : Nat) (d : DataEffect) : Nat :=
  match compressedOf d with
  | some cv => if cv.data.length < cv.rawLen then (delta + (cv.rawLen - cv.data.length)) % 2 ^ 64 else delta
  | none => delta

/-- The values of a state apart from its partitions. -/
def ownValues (flat : FlatReduced) : List DataEffect :=
  flat.scalar.toList ++ (order.entries flat.netAdds).map (fun entry => entry.2.data) ++
    flat.orderedElements.map ReducedElement.data

def inflatedSizeDelta : StoredValues → Nat
  | .data d => addInflated 0 d
  | .snapshot (some state) => (ownValues order state.flat).foldl addInflated 0
  | .snapshot none => 0
  | .other => 0

/-- A data effect as a reader sees it: with the bytes of its value. -/
def readData (rt : Runtime) (d : DataEffect) : DataEffect :=
  match d.value with
  | some (.compressed _) => { d with value := some (.raw (decompress rt d)) }
  | _ => d

def readElement (rt : Runtime) (elem : ReducedElement) : ReducedElement :=
  { elem with data := readData rt elem.data }

/-- Two partitions agree in every field, where values are compared as they are read. -/
structure SameFlat (rt : Runtime) (a b : FlatReduced) : Prop where
  fields : { a with scalar := none, netAdds := ∅, orderedElements := [] } =
    { b with scalar := none, netAdds := ∅, orderedElements := [] }
  scalar : a.scalar.map (readData rt) = b.scalar.map (readData rt)
  netAdds : ∀ id, (a.netAdds.lookup id).map (readElement rt) = (b.netAdds.lookup id).map (readElement rt)
  orderedElements : a.orderedElements.map (readElement rt) = b.orderedElements.map (readElement rt)

mutual

/-- Two states agree in every field, down to the partitions. -/
def ReducedState.SameRead (rt : Runtime) : ReducedState → ReducedState → Prop
  | .mk flat subscribers partitions, .mk flat' subscribers' partitions' =>
    SameFlat rt flat flat' ∧ subscribers = subscribers' ∧ partitions.SameRead rt partitions'

def Partitions.SameRead (rt : Runtime) : Partitions → Partitions → Prop
  | .nil, .nil => True
  | .cons name state rest, .cons name' state' rest' => name = name' ∧ state.SameRead rt state' ∧ rest.SameRead rt rest'
  | .nil, .cons .. => False
  | .cons .., .nil => False

end

mutual

/-- No subscriber set is stored in a state or its partitions. -/
def ReducedState.NoSubscribers : ReducedState → Prop
  | .mk _ subscribers partitions => subscribers = ∅ ∧ partitions.NoSubscribers

def Partitions.NoSubscribers : Partitions → Prop
  | .nil => True
  | .cons _ state rest => state.NoSubscribers ∧ rest.NoSubscribers

end

theorem SameFlat.refl (rt : Runtime) (flat : FlatReduced) : SameFlat rt flat flat :=
  ⟨rfl, rfl, fun _ => rfl, rfl⟩

mutual

theorem ReducedState.SameRead.refl (rt : Runtime) : ∀ r : ReducedState, r.SameRead rt r
  | .mk flat _ partitions => ⟨SameFlat.refl rt flat, rfl, Partitions.SameRead.refl rt partitions⟩

theorem Partitions.SameRead.refl (rt : Runtime) : ∀ p : Partitions, p.SameRead rt p
  | .nil => trivial
  | .cons _ state rest => ⟨rfl, ReducedState.SameRead.refl rt state, Partitions.SameRead.refl rt rest⟩

end

theorem cloneReducedFlat_eq (flat : FlatReduced) : cloneReducedFlat flat = flat := by
  obtain ⟨op, merge, collection, hlc, nodeId, commutative, scalar, netAdds, netRemoves, ordered, typeTag, expiresAt,
    leader, hash⟩ := flat
  cases scalar <;> rfl

mutual

/-- A copy agrees with a state if there are no subscribers to lose. -/
theorem sameRead_cloneReduced_iff (rt : Runtime) :
    ∀ r : ReducedState, (cloneReduced r).SameRead rt r ↔ r.NoSubscribers
  | .mk flat subscribers partitions => by
    have hparts := sameRead_clonePartitions_iff rt partitions
    unfold cloneReduced ReducedState.SameRead ReducedState.NoSubscribers
    rw [cloneReducedFlat_eq, hparts, eq_comm]
    exact and_iff_right (SameFlat.refl rt flat)

theorem sameRead_clonePartitions_iff (rt : Runtime) :
    ∀ p : Partitions, (clonePartitions p).SameRead rt p ↔ p.NoSubscribers
  | .nil => Iff.rfl
  | .cons name state rest => by
    have hstate := sameRead_cloneReduced_iff rt state
    have hrest := sameRead_clonePartitions_iff rt rest
    unfold clonePartitions Partitions.SameRead Partitions.NoSubscribers
    rw [hstate, hrest]
    exact and_iff_right rfl

end

variable {rt : Runtime} {compress : Bytes → Bytes} {subscribers : Map NodeID Bool} {partitions : Partitions}
  {s : CopyOnWrite}

/-- Reading undoes the compression of a value. -/
theorem readData_compressDataValue (hinverse : ∀ b, rt.zstdDecode (compress b) = some b) (d : DataEffect) :
    readData rt (compressDataValue compress d) = readData rt d := by
  unfold compressDataValue
  split
  · rename_i raw hraw
    dsimp only
    split
    · rfl
    · split
      · rfl
      · simp only [readData, decompress, hinverse, hraw, Option.getD_some]
        rw [← hraw]
  · rfl

theorem readElement_compressedElement (hinverse : ∀ b, rt.zstdDecode (compress b) = some b) (elem : ReducedElement) :
    readElement rt (compressedElement compress elem) = readElement rt elem := by
  unfold readElement compressedElement
  dsimp only
  rw [readData_compressDataValue hinverse]
  rfl

variable {f : FlatReduced → FlatReduced} {delta : Nat}

namespace CopyOnWrite

/-- The original is as it was, and a copy reads the same up to the subscribers. -/
structure Intact (rt : Runtime) (flat : FlatReduced) (subscribers : Map NodeID Bool) (partitions : Partitions)
    (s : CopyOnWrite) : Prop where
  original_eq : s.original = .mk flat subscribers partitions
  copy_same : ∀ copy, s.copy = some copy →
    ∃ copied, copy = .mk copied ∅ (clonePartitions partitions) ∧ SameFlat rt copied flat

/-- A write to the copy that is not seen by readers. -/
theorem Intact.write (hintact : s.Intact rt flat subscribers partitions)
    (hf : ∀ copied, SameFlat rt copied flat → SameFlat rt (f copied) flat) :
    (s.ensureOwned.write f).Intact rt flat subscribers partitions ∧ (s.ensureOwned.write f).copy.isSome = true := by
  obtain ⟨original, copy⟩ := s
  obtain ⟨rfl, hcopy⟩ := hintact
  cases copy with
  | none =>
    refine ⟨⟨rfl, fun copy hcopy => ?_⟩, rfl⟩
    cases hcopy
    refine ⟨f (cloneReducedFlat flat), rfl, hf _ ?_⟩
    rw [cloneReducedFlat_eq]
    exact SameFlat.refl rt flat
  | some copy =>
    obtain ⟨copied, rfl, hsame⟩ := hcopy copy rfl
    refine ⟨⟨rfl, fun copy hcopy => ?_⟩, rfl⟩
    cases hcopy
    exact ⟨f copied, rfl, hf copied hsame⟩

/-- One round of the loops: a value that can be compressed is replaced in the copy. -/
structure Advances (rt : Runtime) (flat : FlatReduced) (subscribers : Map NodeID Bool) (partitions : Partitions)
    (s s' : CopyOnWrite) (touched : Bool) : Prop where
  intact : s'.Intact rt flat subscribers partitions
  isSome_eq : s'.copy.isSome = (s.copy.isSome || touched)

theorem Advances.of_write (hintact : s.Intact rt flat subscribers partitions) {touched : Bool}
    (hf : ∀ copied, SameFlat rt copied flat → SameFlat rt (f copied) flat) :
    Advances rt flat subscribers partitions s (if touched then s.ensureOwned.write f else s) touched := by
  cases touched with
  | false => exact ⟨hintact, (Bool.or_false _).symm⟩
  | true =>
    obtain ⟨hwritten, hsome⟩ := hintact.write hf
    exact ⟨hwritten, hsome.trans (Bool.or_true _).symm⟩

theorem Advances.foldl {α : Type} {flat : FlatReduced} {step : CopyOnWrite → α → CopyOnWrite} {touches : α → Bool}
    {l : List α} (hstep : ∀ x ∈ l, ∀ s, s.Intact rt flat subscribers partitions →
      Advances rt flat subscribers partitions s (step s x) (touches x))
    {s : CopyOnWrite} (hintact : s.Intact rt flat subscribers partitions) :
    Advances rt flat subscribers partitions s (l.foldl step s) (l.any touches) := by
  induction l generalizing s with
  | nil => exact ⟨hintact, (Bool.or_false _).symm⟩
  | cons x l ih =>
    have hfirst := hstep x mem_cons_self s hintact
    have hrest := ih (fun y hy => hstep y (mem_cons_of_mem x hy)) hfirst.intact
    refine ⟨hrest.intact, ?_⟩
    rw [foldl_cons, hrest.isSome_eq, hfirst.isSome_eq, any_cons, Bool.or_assoc]

section

variable (hinverse : ∀ b, rt.zstdDecode (compress b) = some b)
include hinverse

theorem advances_scalarStep (hintact : s.Intact rt flat subscribers partitions) :
    Advances rt flat subscribers partitions s (s.scalarStep compress) (flat.scalar.any compressibleData) := by
  unfold scalarStep
  rw [hintact.original_eq]
  refine .of_write hintact fun copied hsame => ⟨hsame.fields, ?_, hsame.netAdds, hsame.orderedElements⟩
  rw [← hsame.scalar, Option.map_map]
  exact congrArg (fun g => copied.scalar.map g) (funext (readData_compressDataValue hinverse))

theorem advances_netAddStep {entry : Bytes × ReducedElement}
    (hentry : flat.netAdds.lookup entry.1 = some entry.2) {s : CopyOnWrite}
    (hintact : s.Intact rt flat subscribers partitions) :
    Advances rt flat subscribers partitions s (s.netAddStep compress entry) (compressibleData entry.2.data) := by
  unfold netAddStep
  refine .of_write hintact fun copied hsame => ⟨hsame.fields, hsame.scalar, fun id => ?_, hsame.orderedElements⟩
  dsimp only
  by_cases hid : id = entry.1
  · rw [hid, lookup_insert, hentry, Option.map_some, Option.map_some, readElement_compressedElement hinverse]
  · rw [lookup_insert_of_ne _ hid, hsame.netAdds]

theorem advances_orderedStep (i : Nat) (hintact : s.Intact rt flat subscribers partitions) :
    Advances rt flat subscribers partitions s (s.orderedStep compress i)
      ((flat.orderedElements[i]?).any (fun elem => compressibleData elem.data)) := by
  unfold orderedStep
  rw [hintact.original_eq]
  change Advances rt flat subscribers partitions s (match flat.orderedElements[i]? with | none => s | some elem => _) _
  cases helem : flat.orderedElements[i]? with
  | none => exact ⟨hintact, (Bool.or_false _).symm⟩
  | some elem =>
    refine .of_write hintact fun copied hsame => ⟨hsame.fields, hsame.scalar, hsame.netAdds, ?_⟩
    dsimp only
    rw [map_set, hsame.orderedElements, readElement_compressedElement hinverse]
    obtain ⟨hi, rfl⟩ := List.getElem?_eq_some_iff.mp helem
    rw [← getElem_map (readElement rt) (h := by rwa [length_map]), set_getElem_self]

end

end CopyOnWrite

theorem any_range_getElem? {α : Type} (l : List α) (p : α → Bool) :
    (range l.length).any (fun i => (l[i]?).any p) = l.any p := by
  rw [Bool.eq_iff_iff, any_eq_true, any_eq_true]
  constructor
  · rintro ⟨i, hi, hp⟩
    rw [getElem?_eq_getElem (mem_range.mp hi), Option.any_some] at hp
    exact ⟨_, getElem_mem _, hp⟩
  · rintro ⟨x, hx, hp⟩
    obtain ⟨i, hi, rfl⟩ := getElem_of_mem hx
    exact ⟨i, mem_range.mpr hi, by rwa [getElem?_eq_getElem hi, Option.any_some]⟩

/-- The original is never written to, and it is copied if a value of its own is large enough. -/
theorem compressReducedState_spec (hinverse : ∀ b, rt.zstdDecode (compress b) = some b) (order : MapOrder)
    (flat : FlatReduced) (subscribers : Map NodeID Bool) (partitions : Partitions) :
    (compressReducedState compress order (.mk flat subscribers partitions)).Intact rt flat subscribers partitions ∧
      (compressReducedState compress order (.mk flat subscribers partitions)).copy.isSome =
        (ownValues order flat).any compressibleData := by
  have hstart : CopyOnWrite.Intact rt flat subscribers partitions ⟨.mk flat subscribers partitions, none⟩ :=
    ⟨rfl, fun _ hcopy => (by cases hcopy)⟩
  have hscalar := CopyOnWrite.advances_scalarStep hinverse hstart
  have hkeyed := CopyOnWrite.Advances.foldl (l := order.entries flat.netAdds)
    (fun entry hentry s hs => CopyOnWrite.advances_netAddStep hinverse ((order.mem_iff _ _ _).mp hentry) hs)
    hscalar.intact
  have hordered := CopyOnWrite.Advances.foldl (l := range flat.orderedElements.length)
    (fun i _ s hs => CopyOnWrite.advances_orderedStep hinverse i hs) hkeyed.intact
  refine ⟨hordered.intact, hordered.isSome_eq.trans ?_⟩
  rw [hkeyed.isSome_eq, hscalar.isSome_eq, any_range_getElem?]
  unfold ownValues
  rw [any_append, any_append, any_map, any_map]
  cases flat.scalar <;> simp [Function.comp_def]

/-- What the sum over compressed values adds for one of them. -/
def savedBytes : Int :=
  match compressedOf d with
  | some cv => (cv.rawLen : Int) - cv.data.length
  | none => 0

def sumSaved : List DataEffect → Int
  | [] => 0
  | d :: ds => savedBytes d + sumSaved ds

mutual

/-- All values of a state, those of its partitions too. -/
def ReducedState.values (order : MapOrder) : ReducedState → List DataEffect
  | .mk flat _ partitions => ownValues order flat ++ partitions.values order

def Partitions.values (order : MapOrder) : Partitions → List DataEffect
  | .nil => []
  | .cons _ state rest => state.values order ++ rest.values order

end

def storedValues : StoredValues → List DataEffect
  | .data d => [d]
  | .snapshot (some state) => state.values order
  | .snapshot none => []
  | .other => []

/-- Values that are not longer raw than stored. -/
def notSmaller : List DataEffect := ds.filter (fun d => savedBytes d ≤ 0)

/-- The values that the size delta leaves out: those that compression did not make smaller,
and all those in the partitions of a snapshot. -/
def overlooked : StoredValues → List DataEffect
  | .data d => notSmaller [d]
  | .snapshot (some (.mk flat _ partitions)) => notSmaller (ownValues order flat) ++ partitions.values order
  | .snapshot none => []
  | .other => []

theorem sumSaved_append (ds es : List DataEffect) : sumSaved (ds ++ es) = sumSaved ds + sumSaved es := by
  induction ds with
  | nil => simp [sumSaved]
  | cons d ds ih => rw [cons_append, sumSaved, sumSaved, ih, Int.add_assoc]

theorem sumSaved_notSmaller_cons :
    sumSaved (notSmaller (d :: ds)) = min 0 (savedBytes d) + sumSaved (notSmaller ds) := by
  unfold notSmaller
  by_cases hd : savedBytes d ≤ 0
  · rw [filter_cons_of_pos (by simpa using hd), sumSaved, min_eq_right hd]
  · rw [filter_cons_of_neg (by simpa using hd), min_eq_left (by omega), Int.zero_add]

theorem addInflated_lt (hdelta : delta < 2 ^ 64) (d : DataEffect) : addInflated delta d < 2 ^ 64 := by
  unfold addInflated
  split
  · split
    · exact Nat.mod_lt _ (by decide)
    · exact hdelta
  · exact hdelta

theorem addInflated_modEq (delta : Nat) (d : DataEffect) :
    (addInflated delta d : Int) + min 0 (savedBytes d) ≡ delta + savedBytes d [ZMOD 2 ^ 64] := by
  unfold addInflated savedBytes
  split
  · rename_i cv _
    split
    · rename_i hshorter
      rw [min_eq_left (by omega), Int.add_zero, Int.natCast_mod]
      push_cast [Nat.cast_sub hshorter.le]
      exact Int.mod_modEq _ _
    · rename_i hlonger
      rw [min_eq_right (by omega)]
  · rfl

theorem foldl_addInflated_lt (hdelta : delta < 2 ^ 64) (ds : List DataEffect) :
    ds.foldl addInflated delta < 2 ^ 64 := by
  induction ds generalizing delta with
  | nil => exact hdelta
  | cons d ds ih => exact ih (addInflated_lt hdelta d)

theorem foldl_addInflated_modEq (delta : Nat) :
    ((ds.foldl addInflated delta : Nat) : Int) + sumSaved (notSmaller ds) ≡ delta + sumSaved ds [ZMOD 2 ^ 64] := by
  induction ds generalizing delta with
  | nil => rfl
  | cons d ds ih =>
    rw [foldl_cons, sumSaved_notSmaller_cons, sumSaved]
    have hrest := (ih (addInflated delta d)).add_right (min 0 (savedBytes d))
    have hfirst := (addInflated_modEq delta d).add_right (sumSaved ds)
    calc ((ds.foldl addInflated (addInflated delta d) : Nat) : Int) +
          (min 0 (savedBytes d) + sumSaved (notSmaller ds))
        = ((ds.foldl addInflated (addInflated delta d) : Nat) : Int) + sumSaved (notSmaller ds) +
            min 0 (savedBytes d) := by omega
      _ ≡ addInflated delta d + sumSaved ds + min 0 (savedBytes d) [ZMOD 2 ^ 64] := hrest
      _ = addInflated delta d + min 0 (savedBytes d) + sumSaved ds := by omega
      _ ≡ delta + savedBytes d + sumSaved ds [ZMOD 2 ^ 64] := hfirst
      _ = delta + (savedBytes d + sumSaved ds) := by omega

/-- The size delta and what it overlooks make up the sum over all values. -/
theorem inflatedSizeDelta_modEq (v : StoredValues) : inflatedSizeDelta order v < 2 ^ 64 ∧
      (inflatedSizeDelta order v : Int) + sumSaved (overlooked order v) ≡
        sumSaved (storedValues order v) [ZMOD 2 ^ 64] := by
  cases v with
  | data d =>
    have hsum := foldl_addInflated_modEq [d] 0
    rw [Nat.cast_zero, Int.zero_add] at hsum
    exact ⟨addInflated_lt (by decide) d, hsum⟩
  | snapshot state =>
    cases state with
    | none => exact ⟨Nat.two_pow_pos 64, Int.ModEq.refl _⟩
    | some state =>
      obtain ⟨flat, subscribers, partitions⟩ := state
      have hsum := (foldl_addInflated_modEq (ownValues order flat) 0).add_right (sumSaved (partitions.values order))
      rw [Nat.cast_zero, Int.zero_add, Int.add_assoc, ← sumSaved_append, ← sumSaved_append] at hsum
      exact ⟨foldl_addInflated_lt (by decide) _, hsum⟩
  | other => exact ⟨Nat.two_pow_pos 64, Int.ModEq.refl _⟩

theorem inflatedSizeDelta_eq_iff (v : StoredValues) :
    (inflatedSizeDelta order v : Int) = sumSaved (storedValues order v) % 2 ^ 64 ↔
      sumSaved (overlooked order v) % 2 ^ 64 = 0 := by
  obtain ⟨hlt, hsum⟩ := inflatedSizeDelta_modEq order v
  unfold Int.ModEq at hsum
  omega

theorem out_sameRead_iff (hinverse : ∀ b, rt.zstdDecode (compress b) = some b) (order : MapOrder) (r : ReducedState) :
    (compressReducedState compress order r).out.SameRead rt r ↔
      (∀ d ∈ ownValues order r.flat, compressibleData d = false) ∨ r.NoSubscribers := by
  obtain ⟨flat, subscribers, partitions⟩ := r
  obtain ⟨hintact, hcopied⟩ := compressReducedState_spec hinverse order flat subscribers partitions
  unfold CopyOnWrite.out
  cases hcopy : (compressReducedState compress order (.mk flat subscribers partitions)).copy with
  | none =>
    rw [hcopy, Option.isSome_none, eq_comm, any_eq_false] at hcopied
    rw [Option.getD_none, hintact.original_eq]
    exact iff_of_true (.refl rt _) (.inl fun d hd => Bool.eq_false_iff.mpr (hcopied d hd))
  | some copy =>
    obtain ⟨copied, rfl, hsame⟩ := hintact.copy_same copy hcopy
    rw [hcopy, Option.isSome_some, eq_comm, any_eq_true] at hcopied
    obtain ⟨d, hd, hlarge⟩ := hcopied
    have hnotAll : ¬ ∀ d ∈ ownValues order flat, compressibleData d = false :=
      fun hall => by simp [hall d hd] at hlarge
    have hparts := sameRead_clonePartitions_iff rt partitions
    rw [Option.getD_some]
    unfold ReducedState.SameRead ReducedState.NoSubscribers
    rw [hparts, and_iff_right hsame, eq_comm]
    exact (or_iff_right hnotAll).symm

/-- Compression never writes to the state it is given. What it returns reads the same, in
every field, if nothing was large enough to be compressed or no subscribers are stored:
the copy does not take them along. The size delta is the sum over all compressed values
if those it overlooks add nothing. -/
theorem compression_invisible_iff {rt : Runtime} {compress : Bytes → Bytes}
    (hinverse : ∀ b, rt.zstdDecode (compress b) = some b) (order : MapOrder) (r : ReducedState) (v : StoredValues) :
    (compressReducedState compress order r).original = r ∧ ((compressReducedState compress order r).out.SameRead rt r ↔
        (∀ d ∈ ownValues order r.flat, compressibleData d = false) ∨ r.NoSubscribers) ∧
      ((inflatedSizeDelta order v : Int) = sumSaved (storedValues order v) % 2 ^ 64 ↔
        sumSaved (overlooked order v) % 2 ^ 64 = 0) := by
  refine ⟨?_, out_sameRead_iff hinverse order r, inflatedSizeDelta_eq_iff order v⟩
  obtain ⟨flat, subscribers, partitions⟩ := r
  exact (compressReducedState_spec hinverse order flat subscribers partitions).1.original_eq

/-- Some order for every map. -/
noncomputable def anyOrder : MapOrder where
  entries m := m.entries.toList.map (fun entry => (entry.1, entry.2))
  nodup m := by
    rw [map_map]
    have hkeys : (↑m.entries.toList : Multiset (Σ _ : Bytes, ReducedElement)).NodupKeys := by
      rw [Multiset.coe_toList]
      exact m.nodupKeys
    exact hkeys
  mem_iff m id elem := by
    rw [Finmap.lookup_eq_some_iff, mem_map, ← Multiset.mem_toList]
    constructor
    · rintro ⟨⟨id', elem'⟩, hentry, heq⟩
      obtain ⟨rfl, rfl⟩ := Prod.mk.inj heq
      exact hentry
    · intro hentry
      exact ⟨_, hentry, rfl⟩

def zeroBlock : Bytes := replicate compressMinBytes 0

/-- A codec that packs one block only. -/
def packZeros (b : Bytes) : Bytes := if b = zeroBlock then [1] else 0 :: b

def packRuntime : Runtime :=
  { idleRuntime with
    zstdDecode := fun
      | 0 :: b => some b
      | [1] => some zeroBlock
      | _ => none }

theorem packRuntime_zstdDecode (b : Bytes) : packRuntime.zstdDecode (packZeros b) = some b := by
  unfold packZeros
  split
  · rename_i hzero
    rw [hzero]
    rfl
  · rfl

def rawBlock : DataEffect := { value := some (.raw zeroBlock) }

def packedBlock : DataEffect := { value := some (.compressed ⟨.zstd, compressMinBytes, [1]⟩) }

theorem compression_invisible_without_subscribers :
    (compressReducedState packZeros anyOrder (.mk { scalar := some rawBlock } ∅ .nil)).out.SameRead packRuntime
        (.mk { scalar := some rawBlock } ∅ .nil) ∧ (inflatedSizeDelta anyOrder (.data packedBlock) : Int) =
        sumSaved (storedValues anyOrder (.data packedBlock)) % 2 ^ 64 := by
  obtain ⟨-, hread, hdelta⟩ := compression_invisible_iff packRuntime_zstdDecode anyOrder
    (.mk { scalar := some rawBlock } ∅ .nil) (.data packedBlock)
  exact ⟨hread.mpr (.inr ⟨rfl, trivial⟩), hdelta.mpr (by decide)⟩

def subscribedState : ReducedState := .mk { scalar := some rawBlock } ((∅ : Map NodeID Bool).insert 1 true) .nil

def partitionedState : ReducedState := .mk {} ∅ (.cons [0] (.mk { scalar := some packedBlock } ∅ .nil) .nil)

/-- A block in the scalar costs a state its subscribers, and a packed block in a partition
is not part of the size delta. -/
theorem compression_loses_subscribers :
    ¬ (compressReducedState packZeros anyOrder subscribedState).out.SameRead packRuntime subscribedState ∧
      (inflatedSizeDelta anyOrder (.snapshot (some partitionedState)) : Int) ≠
        sumSaved (storedValues anyOrder (.snapshot (some partitionedState))) % 2 ^ 64 := by
  constructor
  · rw [out_sameRead_iff packRuntime_zstdDecode]
    rintro (hsmall | ⟨hnone, -⟩)
    · have hblock := hsmall rawBlock (by simp [ownValues, subscribedState, ReducedState.flat])
      exact absurd hblock (by decide)
    · have hlookup := congrArg (Finmap.lookup 1) hnone
      rw [lookup_insert, lookup_empty] at hlookup
      cases hlookup
  · rw [Ne, inflatedSizeDelta_eq_iff]
    have hvalues : overlooked anyOrder (.snapshot (some partitionedState)) = [packedBlock] := by
      simp [overlooked, partitionedState, Partitions.values, ReducedState.values, ownValues, notSmaller,
        MapOrder.entries_empty]
    rw [hvalues]
    decide

end swytch.effects
