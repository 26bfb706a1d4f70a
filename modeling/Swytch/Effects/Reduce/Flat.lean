import Swytch.Effects.Reduce.Stamp

open swytch.proto List Option

namespace swytch.effects

open Accum.Agree

variable (rt : Runtime) (r : FlatReduced)

/-- A state with its fork-choice hash erased. -/
def forgetHash : FlatReduced :=
  { r with forkChoiceHash := [] }

theorem op_eq_of_forgetHash_eq {r s : FlatReduced} (hforget : forgetHash r = forgetHash s) : r.op = s.op := by
  have hop : (forgetHash r).op = (forgetHash s).op := by rw [hforget]
  exact hop

/-- What a nonempty chain leaves behind, the fork-choice hash aside. -/
def closeAccum (last : Effect) (acc : Accum) : Option FlatReduced :=
  match acc.live with
  | none => if acc.hadDel then some (delMarker last) else none
  | some r => some (restamp last.hlc last.nodeId [] r)

variable (seed : Option FlatReduced)

/-- Where the loop starts on a nonempty chain. -/
def resume : Accum :=
  match seed with
  | some r => if r.op = .removeOp then ⟨none, true⟩ else ⟨some r, false⟩
  | none => ⟨none, false⟩

theorem reduceFlat_nil : reduceFlat rt seed [] = seed := by
  cases seed with
  | none => rfl
  | some r => simp [reduceFlat, reduceFlatOwned, startAccum]

variable (e : Effect) (d : DataEffect) (effects : List Effect) {xs : List Effect}

theorem reduceFlat_of_ne_nil (hne : effects ≠ []) : reduceFlat rt seed effects =
      match (effects.foldl (reduceStep rt) (resume seed)).live with
      | none =>
        if (effects.foldl (reduceStep rt) (resume seed)).hadDel then some (delMarker (effects.getLast hne))
        else none
      | some r =>
        some (restamp (effects.getLast hne).hlc (effects.getLast hne).nodeId
          (effects.head hne).forkChoiceHash r) := by
  have hstart : startAccum seed effects = resume seed := by
    cases seed <;> simp [startAccum, resume, hne]
  simp only [reduceFlat, reduceFlatOwned, hne, and_false, if_false, hstart,
    head?_eq_some_head hne, getLast?_eq_some_getLast hne]
  cases (effects.foldl (reduceStep rt) (resume seed)).live <;> rfl

theorem reduceFlat_eq_close (hne : effects ≠ []) : (reduceFlat rt seed effects).map forgetHash =
      closeAccum (effects.getLast hne) (effects.foldl (reduceStep rt) (resume seed)) := by
  rw [reduceFlat_of_ne_nil rt seed effects hne, closeAccum]
  cases (effects.foldl (reduceStep rt) (resume seed)).live with
  | none => cases (effects.foldl (reduceStep rt) (resume seed)).hadDel <;> rfl
  | some r => rfl

theorem closeAccum_congr {a b : Accum} (hagree : a.Agree b) (last : Effect) :
    closeAccum last a = closeAccum last b := by
  obtain ⟨alive, adel⟩ := a
  obtain ⟨blive, bdel⟩ := b
  obtain ⟨hlive, hdel⟩ := hagree
  cases alive with
  | none =>
    have hb : blive = none := by simpa using hlive.symm
    have hflag : adel = bdel := hdel rfl
    rw [hb, hflag]
  | some r =>
    obtain ⟨s, rfl, hcore⟩ : ∃ s, blive = some s ∧ core s = core r := by
      simpa [eq_comm] using hlive
    rw [eq_restamp_of_core_eq hcore.symm]
    rfl

/-- The hash of a seed never reaches anything but a hash. -/
theorem reduceFlat_congr {a b : Option FlatReduced}
    (hab : a.map forgetHash = b.map forgetHash) (effects : List Effect) :
    (reduceFlat rt a effects).map forgetHash = (reduceFlat rt b effects).map forgetHash := by
  by_cases hne : effects = []
  · rw [hne, reduceFlat_nil, reduceFlat_nil, hab]
  · have hresume : (resume a).Agree (resume b) := by
      cases a with
      | none =>
        have hb : b = none := by simpa using hab.symm
        rw [hb]
        exact refl _
      | some r =>
        obtain ⟨s, rfl, hs⟩ : ∃ s, b = some s ∧ forgetHash s = forgetHash r := by
          simpa [eq_comm] using hab
        have hop : s.op = r.op := op_eq_of_forgetHash_eq hs
        have hcore : core s = core r := show core (forgetHash s) = core (forgetHash r) by rw [hs]
        by_cases hremove : r.op = .removeOp
        · simp [resume, hop, hremove, Accum.Agree]
        · simp [resume, hop, hremove, Accum.Agree, hcore]
    rw [reduceFlat_eq_close rt a effects hne, reduceFlat_eq_close rt b effects hne]
    exact closeAccum_congr (hresume.foldl rt effects) _

/-- A bare DEL marker: REMOVE with no collection and no scalar. -/
def IsDelMarker : Prop :=
  r.op = .removeOp ∧ r.collection = .scalar ∧ r.scalar = none

theorem reduceScalar_scalar_isSome : (reduceScalar rt r d).scalar.isSome := by
  obtain ⟨op, merge, coll, hlc, node, comm, scalar, adds, removes, ordered, tag, exp, leader, hash⟩ := r
  obtain ⟨dop, dmerge, dcoll, place, ref, id, value⟩ := d
  cases scalar with
  | none => rfl
  | some s =>
    cases dmerge <;> simp only [reduceScalar]
    case additiveInt => cases merge <;> rfl
    case additiveFloat => cases merge <;> rfl
    case maxInt => split <;> rfl
    all_goals rfl

theorem reduceKeyed_collection : (reduceKeyed rt r e d).collection = r.collection := by
  simp only [reduceKeyed]
  cases r.netAdds.lookup d.id <;> split <;> rfl

theorem reduceOrdered_collection : (reduceOrdered r e d).collection = r.collection := by
  simp only [reduceOrdered]
  repeat' split
  all_goals rfl

theorem switchCollection_collection (k : CollectionKind) : (switchCollection r k).collection = k := by
  simp only [switchCollection]
  split <;> rfl

/-- A data effect on a live state never leaves a bare DEL marker. -/
theorem reduceAccumulate_not_isDelMarker : ¬ IsDelMarker (reduceAccumulate rt r e d) := by
  rintro ⟨-, hcollection, hscalar⟩
  obtain ⟨dop, dmerge, dcoll, place, ref, id, value⟩ := d
  cases dcoll with
  | scalar =>
    have hsome := reduceScalar_scalar_isSome rt (switchCollection r .scalar)
      ⟨dop, dmerge, .scalar, place, ref, id, value⟩
    simp only [reduceAccumulate] at hscalar
    simp [hscalar] at hsome
  | keyed => simp [reduceAccumulate, reduceKeyed_collection, switchCollection_collection] at hcollection
  | ordered => simp [reduceAccumulate, reduceOrdered_collection, switchCollection_collection] at hcollection

theorem reduceMeta_isDelMarker (m : MetaEffect) : IsDelMarker (reduceMeta r m) ↔ IsDelMarker r := by
  have hfields : (reduceMeta r m).op = r.op ∧ (reduceMeta r m).collection = r.collection ∧
      (reduceMeta r m).scalar = r.scalar := by
    simp only [reduceMeta, setTypeTag]
    repeat' split
    all_goals simp
  obtain ⟨hop, hcollection, hscalar⟩ := hfields
  rw [IsDelMarker, IsDelMarker, hop, hcollection, hscalar]

/-- No live state of the loop looks like a bare DEL marker. -/
def NoHollowRemove (acc : Accum) : Prop :=
  ∀ r, acc.live = some r → ¬ IsDelMarker r

theorem reduceStep_noHollowRemove {acc : Accum} (hacc : NoHollowRemove acc)
    (e : Effect) : NoHollowRemove (reduceStep rt acc e) := by
  obtain ⟨live, hadDel⟩ := acc
  obtain ⟨key, hlc, node, deps, txn, hash, virt, kind⟩ := e
  intro r hr
  cases kind with
  | data d =>
    by_cases hdelete : d.op = .removeOp ∧ d.collection = .scalar
    · simp [reduceStep, hdelete] at hr
    · cases live with
      | none =>
        simp only [reduceStep, hdelete, if_false, some.injEq] at hr
        subst hr
        rintro ⟨hop, hcollection, -⟩
        obtain ⟨dop, dmerge, dcoll, place, ref, id, value⟩ := d
        cases dcoll with
        | scalar => exact hdelete ⟨hop, rfl⟩
        | keyed =>
          simp only [reduceFirst] at hcollection
          split at hcollection <;> cases hcollection
        | ordered =>
          simp only [reduceFirst] at hcollection
          split at hcollection <;> cases hcollection
      | some s =>
        simp only [reduceStep, hdelete, if_false, some.injEq] at hr
        subst hr
        exact reduceAccumulate_not_isDelMarker rt s _ d
  | metadata m =>
    simp only [reduceStep, some.injEq] at hr
    subst hr
    rw [reduceMeta_isDelMarker]
    cases live with
    | none => simp [IsDelMarker]
    | some s => exact hacc s rfl
  | serialization s =>
    simp only [reduceStep, some.injEq] at hr
    subst hr
    cases live with
    | none => simp [IsDelMarker, reduceSerialization]
    | some t => exact hacc t rfl
  | _ => exact hacc r hr

theorem foldl_resume_noHollowRemove : NoHollowRemove (effects.foldl (reduceStep rt) (resume seed)) := by
  have hstart : NoHollowRemove (resume seed) := by
    intro r hr
    cases seed with
    | none => simp [resume] at hr
    | some s =>
      by_cases hop : s.op = .removeOp
      · simp [resume, hop] at hr
      · simp only [resume, hop, if_false, some.injEq] at hr
        exact fun hmarker => hop (hr ▸ hmarker.1)
  exact foldlRecOn effects _ hstart (fun acc hacc e _ => reduceStep_noHollowRemove rt hacc e)

/-- Storing the reduction of a nonempty chain and starting again from it resumes
the loop where it stopped, unless the stored state carries REMOVE without
being a bare DEL marker. -/
theorem resume_reduceFlat_agree (hne : xs ≠ [])
    (hsafe : ∀ s, reduceFlat rt seed xs = some s → s.op = .removeOp → IsDelMarker s) :
    (resume (reduceFlat rt seed xs)).Agree (xs.foldl (reduceStep rt) (resume seed)) := by
  have hhollow := foldl_resume_noHollowRemove rt seed xs
  rw [reduceFlat_of_ne_nil rt seed xs hne] at hsafe ⊢
  generalize hacc : xs.foldl (reduceStep rt) (resume seed) = acc at hsafe hhollow ⊢
  obtain ⟨live, hadDel⟩ := acc
  cases live with
  | none =>
    cases hadDel with
    | false => exact refl _
    | true => exact refl _
  | some r =>
    by_cases hop : r.op = .removeOp
    · simp only [some.injEq, forall_eq'] at hsafe
      obtain ⟨-, hcollection, hscalar⟩ := hsafe hop
      exact absurd ⟨hop, hcollection, hscalar⟩ (hhollow r rfl)
    · have hstart (h : Timestamp) (n : NodeID) (f : Bytes) :
          resume (some (restamp h n f r)) = ⟨some (restamp h n f r), false⟩ := by
        simp only [resume]
        exact if_neg hop
      simp only [hstart]
      simp [Accum.Agree, core_restamp]

theorem reduceFlat_append (xs ys : List Effect)
    (hsafe : xs ≠ [] → ∀ s, reduceFlat rt seed xs = some s → s.op = .removeOp → IsDelMarker s) :
    (reduceFlat rt (reduceFlat rt seed xs) ys).map forgetHash = (reduceFlat rt seed (xs ++ ys)).map forgetHash := by
  by_cases hxs : xs = []
  · rw [hxs, reduceFlat_nil, nil_append]
  by_cases hys : ys = []
  · rw [hys, reduceFlat_nil, append_nil]
  have hagree := (resume_reduceFlat_agree rt seed hxs (hsafe hxs)).foldl rt ys
  have hne : xs ++ ys ≠ [] := by simp [hxs]
  rw [reduceFlat_eq_close rt _ ys hys, reduceFlat_eq_close rt seed (xs ++ ys) hne, foldl_append,
    getLast_append_of_ne_nil hne hys]
  exact closeAccum_congr hagree _

/-- The converse: an effect without data after such a split turns the stored
state into a DEL marker, while the undivided chain keeps it. -/
theorem reduceFlat_append_noop_ne {seed : Option FlatReduced}
    {s : FlatReduced} {e : Effect} (hne : xs ≠ []) (hs : reduceFlat rt seed xs = some s)
    (hop : s.op = .removeOp) (hmarker : ¬ IsDelMarker s) (hnoop : e.kind = .noop) :
    (reduceFlat rt (some s) [e]).map forgetHash ≠ (reduceFlat rt seed (xs ++ [e])).map forgetHash := by
  have hstep (acc : Accum) : reduceStep rt acc e = acc := by
    obtain ⟨key, hlc, node, deps, txn, hash, virt, kind⟩ := e
    cases hnoop
    rfl
  rw [reduceFlat_eq_close rt (some s) [e] (by simp), reduceFlat_eq_close rt seed (xs ++ [e]) (by simp),
    foldl_append]
  simp only [foldl_cons, foldl_nil, hstep, getLast_singleton, getLast_append_singleton]
  have hleft : closeAccum e (resume (some s)) = some (delMarker e) := by
    simp [resume, hop, closeAccum]
  rw [hleft]
  rw [reduceFlat_of_ne_nil rt seed xs hne] at hs
  generalize xs.foldl (reduceStep rt) (resume seed) = acc at hs
  obtain ⟨live, hadDel⟩ := acc
  cases live with
  | none =>
    cases hadDel with
    | false => simp at hs
    | true =>
      simp only [if_true, some.injEq] at hs
      exact absurd ⟨hop, by rw [← hs]; rfl, by rw [← hs]; rfl⟩ hmarker
  | some r =>
    simp only [some.injEq] at hs
    subst hs
    intro heq
    simp only [closeAccum, some.injEq] at heq
    have hcollection : r.collection = .scalar := (congrArg FlatReduced.collection heq).symm
    have hscalar : r.scalar = none := (congrArg FlatReduced.scalar heq).symm
    exact hmarker ⟨hop, hcollection, hscalar⟩

end swytch.effects
