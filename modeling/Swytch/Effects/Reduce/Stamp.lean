import Swytch.Effects.Reduce

open swytch.proto

namespace swytch.effects

/-- Overwrite the causality stamps of a state. -/
def restamp (h : Timestamp) (n : NodeID) (f : Bytes) (r : FlatReduced) : FlatReduced :=
  { r with hlc := h, nodeId := n, forkChoiceHash := f }

variable (rt : Runtime) (r : FlatReduced)

theorem reduceScalar_restamp (d : DataEffect) (h : Timestamp) (n : NodeID) (f : Bytes) :
    reduceScalar rt (restamp h n f r) d = restamp h n f (reduceScalar rt r d) := by
  obtain ⟨op, merge, coll, hlc, node, comm, scalar, adds, removes, ordered, tag, exp, leader, hash⟩ := r
  obtain ⟨dop, dmerge, dcoll, place, ref, id, value⟩ := d
  cases scalar with
  | none => rfl
  | some s =>
    cases dmerge <;> simp only [reduceScalar, restamp]
    case additiveInt => cases merge <;> rfl
    case additiveFloat => cases merge <;> rfl
    case maxInt => split <;> rfl

theorem reduceKeyed_restamp (e : Effect) (d : DataEffect) (h : Timestamp) (n : NodeID) (f : Bytes) :
    reduceKeyed rt (restamp h n f r) e d = restamp h n f (reduceKeyed rt r e d) := by
  simp only [reduceKeyed, restamp]
  cases r.netAdds.lookup d.id <;> split <;> rfl

theorem reduceOrdered_restamp (e : Effect) (d : DataEffect) (h : Timestamp) (n : NodeID) (f : Bytes) :
    reduceOrdered (restamp h n f r) e d = restamp h n f (reduceOrdered r e d) := by
  obtain ⟨dop, dmerge, dcoll, place, ref, id, value⟩ := d
  simp only [reduceOrdered, restamp]
  split
  · cases findOrderedByID r.orderedElements id <;> rfl
  · cases place <;> simp only
    case after => cases findOrderedByID r.orderedElements ref <;> rfl
    case before => cases findOrderedByID r.orderedElements ref <;> rfl
    case self => cases findOrderedByID r.orderedElements id <;> rfl

theorem switchCollection_restamp (k : CollectionKind) (h : Timestamp) (n : NodeID) (f : Bytes) :
    switchCollection (restamp h n f r) k = restamp h n f (switchCollection r k) := by
  by_cases hswitch : k = .scalar ∧ r.collection ≠ .scalar
  · simp [switchCollection, restamp, hswitch]
  · simp [switchCollection, restamp, hswitch]

theorem reduceAccumulate_restamp (e : Effect) (d : DataEffect) (h : Timestamp) (n : NodeID) (f : Bytes) :
    reduceAccumulate rt (restamp h n f r) e d = restamp h n f (reduceAccumulate rt r e d) := by
  simp only [reduceAccumulate, switchCollection_restamp]
  cases d.collection with
  | scalar => exact reduceScalar_restamp rt _ d h n f
  | keyed => exact reduceKeyed_restamp rt _ e d h n f
  | ordered => exact reduceOrdered_restamp _ e d h n f

theorem reduceMeta_restamp (m : MetaEffect) (h : Timestamp) (n : NodeID) (f : Bytes) :
    reduceMeta (restamp h n f r) m = restamp h n f (reduceMeta r m) := by
  have htag : setTypeTag (restamp h n f r) m.typeTag = restamp h n f (setTypeTag r m.typeTag) := by
    simp only [setTypeTag]
    split <;> rfl
  simp only [reduceMeta, htag]
  generalize setTypeTag r m.typeTag = t
  split
  · simp only [restamp]
    cases t.netAdds.lookup m.elementId <;> rfl
  · split <;> rfl

/-- Everything of a state but its causality stamps. -/
def core : FlatReduced :=
  restamp none 0 [] r

theorem core_restamp (h : Timestamp) (n : NodeID) (f : Bytes) (r : FlatReduced) : core (restamp h n f r) = core r :=
  rfl

theorem eq_restamp_of_core_eq {r s : FlatReduced} (hcore : core r = core s) :
    s = restamp s.hlc s.nodeId s.forkChoiceHash r := by
  obtain ⟨_, _, _, _, _, _, _, _, _, _, _, _, _, _⟩ := r
  obtain ⟨_, _, _, _, _, _, _, _, _, _, _, _, _, _⟩ := s
  simp only [core, restamp, FlatReduced.mk.injEq] at hcore ⊢
  simp [hcore]

/-- Two loop states that the rest of the loop cannot tell apart. The DEL flag is
read only when there is no live state. -/
def Accum.Agree (a b : Accum) : Prop :=
  a.live.map core = b.live.map core ∧ (a.live = none → a.hadDel = b.hadDel)

theorem Accum.Agree.refl (a : Accum) : a.Agree a :=
  ⟨rfl, fun _ => rfl⟩

theorem Accum.Agree.step {a b : Accum} (hagree : a.Agree b) (e : Effect) :
    (reduceStep rt a e).Agree (reduceStep rt b e) := by
  obtain ⟨alive, adel⟩ := a
  obtain ⟨blive, bdel⟩ := b
  obtain ⟨hlive, hdel⟩ := hagree
  cases alive with
  | none =>
    have hb : blive = none := by simpa using hlive.symm
    subst hb
    have hflag : adel = bdel := hdel rfl
    subst hflag
    exact Agree.refl _
  | some r =>
    obtain ⟨s, rfl, hcore⟩ : ∃ s, blive = some s ∧ core s = core r := by
      simpa [eq_comm] using hlive
    have hs : s = restamp s.hlc s.nodeId s.forkChoiceHash r := eq_restamp_of_core_eq hcore.symm
    generalize s.hlc = h, s.nodeId = n, s.forkChoiceHash = f at hs
    subst hs
    obtain ⟨key, hlc, node, deps, txn, hash, virt, kind⟩ := e
    cases kind with
    | data d =>
      by_cases hdelete : d.op = .removeOp ∧ d.collection = .scalar
      · simp [reduceStep, hdelete, Agree]
      · simp [reduceStep, hdelete, Agree, reduceAccumulate_restamp, core_restamp]
    | metadata m => simp [reduceStep, Agree, reduceMeta_restamp, core_restamp]
    | serialization s => simp [reduceStep, Agree, reduceSerialization, core, restamp]
    | _ => simp [reduceStep, Agree, core_restamp]

theorem Accum.Agree.foldl {a b : Accum} (hagree : a.Agree b) (effects : List Effect) :
    (effects.foldl (reduceStep rt) a).Agree (effects.foldl (reduceStep rt) b) :=
  List.foldl_rel hagree (fun e _ _ _ h => h.step rt e)

end swytch.effects
