import Swytch.Effects.Reduce.Partitions

open swytch.proto List
open Option hiding any_eq_true

namespace swytch.effects

variable (rt : Runtime) (c : CollectionKind) (m : MergeRule)

/-- Writes to one scalar or to one element of a keyed collection, all with one merge rule. -/
def RuleWrites (v id : Bytes) (effects : List Effect) : Prop :=
  ∀ e ∈ effects, ∃ d, e.kind = .data d ∧ d.op = .insertOp ∧ d.collection = c ∧ d.merge = m ∧
    (c = .keyed → d.id = id) ∧ e.virtualKey = v

def dataOf (e : Effect) : Option DataEffect :=
  match e.kind with
  | .data d => some d
  | _ => none

/-- The scalar of a state, or one of its elements. -/
def valueAt (id : Bytes) (r : FlatReduced) : Option DataEffect :=
  match c with
  | .scalar => r.scalar
  | .keyed => (r.netAdds.lookup id).map (·.data)
  | .ordered => none

/-- A value as its rule reads it: the counters as numbers, the byte maps as bytes. -/
def readAs (d : DataEffect) : Option Value :=
  match m with
  | .additiveInt | .maxInt => some (.intVal (getIntVal d))
  | .maxBytes => some (.raw (decompress rt d))
  | _ => d.value

/-- What writes with one rule have to come to: the sum in 64 bits, the maximum, the bytewise
maximum, or the value of the first one. -/
def ruleValue (ds : List DataEffect) : Option Value :=
  match m with
  | .additiveInt => some (.intVal (ds.foldl (fun n d => n + getIntVal d) 0))
  | .maxInt => ((ds.map getIntVal).max?).map .intVal
  | .maxBytes => some (.raw (ds.foldl (fun b d => maxBytes b (decompress rt d)) []))
  | _ => ds.head?.bind (·.value)

/-- What the reduction of a chain from nothing leaves in the element, read by its rule. -/
def reducedValue (v id : Bytes) (effects : List Effect) : Option Value :=
  ((stateOf (reduceChain rt none effects) v).bind (valueAt c id)).bind (readAs rt m)

/-- What a write makes of the value before it. -/
def combine (s d : DataEffect) : DataEffect :=
  match c, m with
  | .keyed, .additiveInt => { s with value := some (.intVal (scalarIntBase rt s + getIntVal d)) }
  | _, .additiveInt => { s with value := some (.intVal (getIntVal s + getIntVal d)) }
  | _, .maxInt => if getIntVal d > getIntVal s then { s with value := some (.intVal (getIntVal d)) } else s
  | .keyed, _ => d
  | _, .maxBytes => { s with value := some (.raw (maxBytes (decompress rt s) (decompress rt d))) }
  | _, _ => s

/-- The rules that are declared to commute exactly, and the one that keeps the first write. -/
inductive Checked : MergeRule → Prop where
  | additiveInt : Checked .additiveInt
  | maxInt : Checked .maxInt
  | maxBytes : Checked .maxBytes
  | firstWriteWins : Checked .firstWriteWins

variable {m : MergeRule} {r : FlatReduced} {s d : DataEffect} {c : CollectionKind} {v : Bytes}
  {effects : List Effect} {ds : List DataEffect}

theorem reduceScalar_combine (hm : Checked m) (hscalar : r.scalar = some s) (hmerge : r.merge = m) (hd : d.merge = m) :
    (reduceScalar rt r d).scalar = some (combine rt .scalar m s d) ∧ (reduceScalar rt r d).merge = m ∧
      (reduceScalar rt r d).collection = r.collection := by
  unfold reduceScalar
  rw [hscalar, hd]
  cases hm with
  | additiveInt =>
    rw [hmerge]
    exact ⟨rfl, rfl, rfl⟩
  | maxInt =>
    simp only [combine]
    split
    · exact ⟨rfl, hmerge, rfl⟩
    · exact ⟨hscalar, hmerge, rfl⟩
  | maxBytes => exact ⟨rfl, hmerge, rfl⟩
  | firstWriteWins => exact ⟨hscalar, hmerge, rfl⟩

theorem mergeElement_combine (hm : Checked m) (existing : ReducedElement) (e : Effect)
    (hd : d.merge = m) : (mergeElement rt existing e d).data = combine rt .keyed m existing.data d := by
  unfold mergeElement
  rw [hd]
  cases hm with
  | additiveInt => rfl
  | maxInt =>
    simp only [combine]
    split <;> rfl
  | maxBytes => rfl
  | firstWriteWins => rfl

variable {id : Bytes} {e : Effect}

/-- A write in a state that has a value for it. -/
theorem reduceAccumulate_combine (hm : Checked m) (hc : c ≠ .ordered)
    (hkind : r.collection = c) (hmerge : c = .scalar → r.merge = m) (hvalue : valueAt c id r = some s)
    (hop : d.op = .insertOp) (hcollection : d.collection = c) (hrule : d.merge = m) (hid : c = .keyed → d.id = id) :
    (reduceAccumulate rt r e d).collection = c ∧ (c = .scalar → (reduceAccumulate rt r e d).merge = m) ∧
      valueAt c id (reduceAccumulate rt r e d) = some (combine rt c m s d) := by
  have hswitch : switchCollection r c = r := by
    rw [switchCollection, if_neg (fun h => h.2 (hkind.trans h.1)), ← hkind]
  unfold reduceAccumulate
  rw [hcollection, hswitch]
  cases c with
  | scalar =>
    obtain ⟨hscalar, hmerge', hcoll⟩ := reduceScalar_combine rt hm hvalue (hmerge rfl) hrule
    exact ⟨hcoll.trans hkind, fun _ => hmerge', hscalar⟩
  | keyed =>
    obtain ⟨existing, hlookup, hdata⟩ := map_eq_some_iff.mp hvalue
    have hinsert : d.op ≠ .removeOp := by
      rw [hop]
      decide
    dsimp only
    rw [reduceKeyed, if_neg hinsert, hid rfl, hlookup]
    refine ⟨hkind, fun h => (by cases h), ?_⟩
    simp only [valueAt, Finmap.lookup_insert, map_some, mergeElement_combine rt hm existing e hrule, hdata]
  | ordered => exact absurd rfl hc

theorem reduceFirst_value (hc : c ≠ .ordered) (hop : d.op = .insertOp) (hcollection : d.collection = c)
    (hid : c = .keyed → d.id = id) :
    (reduceFirst e d).collection = c ∧ (reduceFirst e d).merge = d.merge ∧ valueAt c id (reduceFirst e d) = some d := by
  unfold reduceFirst
  rw [hcollection]
  cases c with
  | scalar => exact ⟨rfl, rfl, rfl⟩
  | keyed =>
    simp only [hop, if_true]
    refine ⟨trivial, trivial, ?_⟩
    simp only [valueAt, hid rfl, Finmap.lookup_insert, map_some, elementFromData]
  | ordered => exact absurd rfl hc

/-- The writes after the first one are combined with its value in turn. -/
theorem foldl_reduceStep_value (hm : Checked m) (hc : c ≠ .ordered)
    (hwrites : RuleWrites c m v id effects) (hadDel : Bool) (hkind : r.collection = c)
    (hmerge : c = .scalar → r.merge = m) (hvalue : valueAt c id r = some s) :
    ∃ r', (effects.foldl (reduceStep rt) ⟨some r, hadDel⟩).live = some r' ∧
      valueAt c id r' = some ((effects.filterMap dataOf).foldl (combine rt c m) s) := by
  induction effects generalizing r s with
  | nil => exact ⟨r, rfl, hvalue⟩
  | cons e es ih =>
    obtain ⟨d, hdata, hop, hcollection, hrule, hid, _⟩ := hwrites e (mem_cons_self ..)
    obtain ⟨hkind', hmerge', hvalue'⟩ :=
      reduceAccumulate_combine (e := e) rt hm hc hkind hmerge hvalue hop hcollection hrule hid
    have hstep : reduceStep rt ⟨some r, hadDel⟩ e = ⟨some (reduceAccumulate rt r e d), hadDel⟩ := by
      have hinsert : ¬ (d.op = .removeOp ∧ d.collection = .scalar) := by
        rw [hop]
        exact fun h => (by cases h.1)
      simp only [reduceStep, hdata, if_neg hinsert]
    have hget : dataOf e = some d := by simp only [dataOf, hdata]
    rw [foldl_cons, hstep, filterMap_cons_some hget, foldl_cons]
    exact ih (fun e' he' => hwrites e' (mem_cons_of_mem _ he')) hkind' hmerge' hvalue'

/-- A chain that writes to one partition reduces to the state of that partition. -/
theorem stateOf_reduceChain_of_writes (hwrites : RuleWrites c m v id effects) (hne : effects ≠ []) :
    stateOf (reduceChain rt none effects) v = reduceFlat rt none effects := by
  have hvirtual : ∀ e ∈ effects, e.virtualKey = v := by
    intro e he
    obtain ⟨_, _, _, _, _, _, hv⟩ := hwrites e he
    exact hv
  by_cases hroot : v = []
  · subst hroot
    have hflat : hasVirtualEffects effects = false := by simpa [hasVirtualEffects] using hvirtual
    rw [reduceChain, if_pos ⟨rfl, by rw [hflat]; rfl⟩, stateOf, if_pos rfl, stateOf, if_pos rfl, map_none]
    cases reduceFlat rt none effects <;> rfl
  · have hdel : liveTail none effects = (none, effects) := by
      cases htail : lastRootDel effects with
      | none => rw [liveTail, htail]
      | some tail =>
        obtain ⟨before, del, rest, rfl, _, hdel⟩ := lastRootDel_eq_some htail
        obtain ⟨d, hdata, hop, _⟩ := hwrites del (by simp)
        simp [isRootKeyDel, hdata, hop] at hdel
    have hchain : chainOf v effects = effects := by
      rw [chainOf, filter_eq_self]
      simpa using hvirtual
    have hvirtualEffects : hasVirtualEffects effects = true := by
      obtain ⟨e, he⟩ := exists_mem_of_ne_nil effects hne
      simp only [hasVirtualEffects, any_eq_true, decide_eq_true_eq]
      exact ⟨e, he, by rw [hvirtual e he]; exact hroot⟩
    rw [reduceChain, if_neg (by simp [hvirtualEffects]), stateOf_of_ne_nil _ hroot, partitionsOf_reducePartitioned,
      hdel, lookup_reduceParts rt none effects hroot, hchain]
    simp [stateOf]

/-- The reduced value is that of the first write, combined with the others in turn. -/
theorem reducedValue_eq (hm : Checked m) (hc : c ≠ .ordered) (hwrites : RuleWrites c m v id effects)
    (hdata : effects.filterMap dataOf = d :: ds) :
    reducedValue rt c m v id effects = readAs rt m (ds.foldl (combine rt c m) d) := by
  cases effects with
  | nil => cases hdata
  | cons e es =>
    obtain ⟨d', hkind, hop, hcollection, hrule, hid, _⟩ := hwrites e (mem_cons_self ..)
    have hget : dataOf e = some d' := by simp only [dataOf, hkind]
    rw [filterMap_cons_some hget, cons.injEq] at hdata
    obtain ⟨rfl, rfl⟩ := hdata
    have hinsert : ¬ (d'.op = .removeOp ∧ d'.collection = .scalar) := by
      rw [hop]
      exact fun h => (by cases h.1)
    obtain ⟨hfirst, hmerge, hvalue⟩ := reduceFirst_value (e := e) hc hop hcollection hid
    obtain ⟨r, hlive, hresult⟩ := foldl_reduceStep_value rt hm hc
      (fun e' he' => hwrites e' (mem_cons_of_mem _ he')) false hfirst (fun _ => hmerge.trans hrule) hvalue
    have hstart : (e :: es).foldl (reduceStep rt) (startAccum none (e :: es)) =
        es.foldl (reduceStep rt) ⟨some (reduceFirst e d'), false⟩ := by
      simp only [foldl_cons, startAccum, reduceStep, hkind, if_neg hinsert]
    have hflat : ((reduceFlat rt none (e :: es)).bind (valueAt c id)) = valueAt c id r := by
      simp only [reduceFlat, reduceFlatOwned, hstart, hlive, head?_cons, reduceCtorEq, and_false, if_false,
        getLast?_cons]
      cases c <;> rfl
    rw [reducedValue, stateOf_reduceChain_of_writes rt hwrites (cons_ne_nil _ _), hflat, hresult, bind_some]

theorem maxBytes_nil_right (a : Bytes) : maxBytes a [] = a := by
  cases a <;> rfl

theorem maxBytes_comm (a b : Bytes) : maxBytes a b = maxBytes b a := by
  induction a generalizing b with
  | nil => rw [maxBytes_nil_right]; cases b <;> rfl
  | cons x a ih =>
    cases b with
    | nil => rfl
    | cons y b => rw [maxBytes, maxBytes, ih, max_comm]

theorem maxBytes_assoc (a b c : Bytes) : maxBytes (maxBytes a b) c = maxBytes a (maxBytes b c) := by
  induction a generalizing b c with
  | nil => rw [maxBytes_comm [] b, maxBytes_nil_right, maxBytes_comm [], maxBytes_nil_right]
  | cons x a ih =>
    cases b with
    | nil => rw [maxBytes_nil_right, maxBytes_comm [] c, maxBytes_nil_right]
    | cons y b =>
      cases c with
      | nil => rw [maxBytes_nil_right, maxBytes_nil_right]
      | cons z c => rw [maxBytes, maxBytes, maxBytes, maxBytes, ih, max_assoc]

theorem maxBytes_self (a : Bytes) : maxBytes a a = a := by
  induction a with
  | nil => rfl
  | cons x a ih => rw [maxBytes, ih, max_self]

theorem lawfulOrderMax_int64 : Std.LawfulOrderMax Int64 where
  max_eq_or a b := by
    have hmax : max a b = if a ≤ b then b else a := rfl
    rw [hmax]
    split
    · exact .inr rfl
    · exact .inl rfl
  max_le_iff a b c := by
    have hmax : max a b = if a ≤ b then b else a := rfl
    rw [hmax]
    split
    · rename_i hle
      exact ⟨fun h => ⟨Int64.le_trans hle h, h⟩, And.right⟩
    · rename_i hle
      have hge := (Int64.le_total a b).resolve_left hle
      exact ⟨fun h => ⟨h, Int64.le_trans hge h⟩, And.left⟩

theorem getIntVal_combine_max (c : CollectionKind) (s d : DataEffect) :
    getIntVal (combine rt c .maxInt s d) = max (getIntVal s) (getIntVal d) := by
  have hcombine : combine rt c .maxInt s d =
      if getIntVal d > getIntVal s then { s with value := some (.intVal (getIntVal d)) } else s := by
    cases c <;> rfl
  have hmax : max (getIntVal s) (getIntVal d) = if getIntVal s ≤ getIntVal d then getIntVal d else getIntVal s := rfl
  rw [hcombine, hmax]
  by_cases hlt : getIntVal d > getIntVal s
  · rw [if_pos hlt, if_pos (Int64.le_of_lt hlt)]
    rfl
  · rw [if_neg hlt]
    split
    · rename_i hle
      exact Int64.le_antisymm hle (Int64.not_lt.mp hlt)
    · rfl

theorem getIntVal_foldl_max (c : CollectionKind) (d : DataEffect) (ds : List DataEffect) :
    getIntVal (ds.foldl (combine rt c .maxInt) d) = (ds.map getIntVal).foldl max (getIntVal d) := by
  rw [foldl_map]
  exact (foldl_hom getIntVal fun s d => (getIntVal_combine_max rt c s d).symm).symm

theorem getIntVal_foldl_add (d : DataEffect) (ds : List DataEffect) :
    getIntVal (ds.foldl (combine rt .scalar .additiveInt) d) = ds.foldl (fun n d => n + getIntVal d) (getIntVal d) :=
  (foldl_hom getIntVal fun _ _ => rfl).symm

/-- In a keyed collection the first value is read as a base, and the others as increments. -/
theorem getIntVal_foldl_keyed (d d' : DataEffect) (ds : List DataEffect) :
    getIntVal ((d' :: ds).foldl (combine rt .keyed .additiveInt) d) =
      (d' :: ds).foldl (fun n d => n + getIntVal d) (scalarIntBase rt d) := by
  induction ds generalizing d d' with
  | nil => rfl
  | cons d'' ds ih =>
    rw [foldl_cons, ih, foldl_cons]
    rfl

theorem decompress_foldl_max (d : DataEffect) (ds : List DataEffect) :
    decompress rt (ds.foldl (combine rt .scalar .maxBytes) d) =
      ds.foldl (fun b d => maxBytes b (decompress rt d)) (decompress rt d) :=
  (foldl_hom (decompress rt) fun _ _ => rfl).symm

/-- The byte maps and the first writes of a keyed collection are replaced. -/
theorem foldl_combine_last (hm : m = .maxBytes ∨ m = .firstWriteWins) (d : DataEffect) (ds : List DataEffect) :
    ds.foldl (combine rt .keyed m) d = (d :: ds).getLast (cons_ne_nil d ds) := by
  induction ds generalizing d with
  | nil => rfl
  | cons d' ds ih =>
    have hcombine : combine rt .keyed m d d' = d' := by
      obtain rfl | rfl := hm <;> rfl
    rw [foldl_cons, hcombine, ih, getLast_cons_cons]

theorem foldl_combine_first (d : DataEffect) (ds : List DataEffect) :
    ds.foldl (combine rt .scalar .firstWriteWins) d = d := by
  induction ds with
  | nil => rfl
  | cons d' ds ih => exact ih

/-- The order does not matter for what the commuting rules have to come to. -/
theorem ruleValue_perm (hm : Checked m) (hcomm : isCommutative m = true) {ds' : List DataEffect}
    (hperm : ds.Perm ds') : ruleValue rt m ds = ruleValue rt m ds' := by
  cases hm with
  | additiveInt =>
    have hsum : ds.foldl (fun n d => n + getIntVal d) 0 = ds'.foldl (fun n d => n + getIntVal d) 0 :=
      hperm.foldl_eq' (fun x _ y _ n => by rw [Int64.add_assoc, Int64.add_comm (getIntVal x), ← Int64.add_assoc]) 0
    rw [ruleValue, ruleValue, hsum]
  | maxInt =>
    have hmax : (ds.map getIntVal).max? = (ds'.map getIntVal).max? := by
      have := lawfulOrderMax_int64
      apply ext
      intro n
      rw [max?_eq_some_iff, max?_eq_some_iff]
      simp only [(hperm.map getIntVal).mem_iff]
    rw [ruleValue, ruleValue, hmax]
  | maxBytes =>
    have hmax : ds.foldl (fun b d => maxBytes b (decompress rt d)) [] =
        ds'.foldl (fun b d => maxBytes b (decompress rt d)) [] :=
      hperm.foldl_eq' (fun x _ y _ b => by
        rw [maxBytes_assoc, maxBytes_comm (decompress rt x), ← maxBytes_assoc]) []
    rw [ruleValue, ruleValue, hmax]
  | firstWriteWins => cases hcomm

/-- The commuting rules give what they have to in every order, and the rule that keeps the
first write gives that one. -/
def RuleHolds (rt : Runtime) (c : CollectionKind) (m : MergeRule) (v id : Bytes) (effects : List Effect) : Prop :=
  match m with
  | .firstWriteWins => reducedValue rt c m v id effects = ruleValue rt m (effects.filterMap dataOf)
  | _ => ∀ effects', effects'.Perm effects →
    reducedValue rt c m v id effects' = ruleValue rt m (effects.filterMap dataOf)

/-- The writes to a keyed element on which its own treatment of a rule makes no difference:
increments of a base that is read as a number, byte maps and first writes that are all
replaced by their like. -/
def Undisturbed (rt : Runtime) (c : CollectionKind) (m : MergeRule) (ds : List DataEffect) : Prop :=
  match c, m with
  | .keyed, .additiveInt => ds.length ≤ 1 ∨ ∀ d ∈ ds, scalarIntBase rt d = getIntVal d
  | .keyed, .maxBytes => ∀ d ∈ ds, ∀ d' ∈ ds, decompress rt d = decompress rt d'
  | .keyed, .firstWriteWins => ds.getLast?.bind (·.value) = ds.head?.bind (·.value)
  | _, _ => True

theorem RuleWrites.perm {effects' : List Effect} (hwrites : RuleWrites c m v id effects)
    (hperm : effects'.Perm effects) : RuleWrites c m v id effects' :=
  fun e he => hwrites e (hperm.mem_iff.mp he)

theorem RuleWrites.exists_cons (hwrites : RuleWrites c m v id effects) (hne : effects ≠ []) :
    ∃ d ds, effects.filterMap dataOf = d :: ds := by
  cases effects with
  | nil => exact absurd rfl hne
  | cons e es =>
    obtain ⟨d, hkind, _⟩ := hwrites e (mem_cons_self ..)
    exact ⟨d, es.filterMap dataOf, filterMap_cons_some (by simp only [dataOf, hkind])⟩

/-- Any of the writes can come first, or last. -/
theorem exists_perm_of_mem (hd : d ∈ effects.filterMap dataOf) :
    ∃ e rest, dataOf e = some d ∧ (e :: rest).Perm effects ∧ (rest ++ [e]).Perm effects := by
  obtain ⟨e, he, hdata⟩ := mem_filterMap.mp hd
  obtain ⟨before, after, rfl⟩ := append_of_mem he
  have hfront : (e :: (before ++ after)).Perm (before ++ e :: after) := perm_middle.symm
  exact ⟨e, before ++ after, hdata, hfront, (perm_append_singleton e _).trans hfront⟩

/-- Scalars follow every rule, and keyed elements the maximum. -/
theorem reducedValue_eq_ruleValue (hm : Checked m) (hc : c ≠ .ordered)
    (hplain : c = .scalar ∨ m = .maxInt) (hwrites : RuleWrites c m v id effects) (hne : effects ≠ []) :
    reducedValue rt c m v id effects = ruleValue rt m (effects.filterMap dataOf) := by
  obtain ⟨d, ds, hdata⟩ := hwrites.exists_cons hne
  rw [reducedValue_eq rt hm hc hwrites hdata, hdata]
  cases hm with
  | additiveInt =>
    obtain rfl := hplain.resolve_right (by decide)
    rw [readAs, getIntVal_foldl_add, ruleValue, foldl_cons, Int64.zero_add]
  | maxInt => rw [readAs, getIntVal_foldl_max, ruleValue, map_cons, max?_cons', map_some]
  | maxBytes =>
    obtain rfl := hplain.resolve_right (by decide)
    rw [readAs, decompress_foldl_max, ruleValue, foldl_cons, maxBytes_comm [], maxBytes_nil_right]
  | firstWriteWins =>
    obtain rfl := hplain.resolve_right (by decide)
    rw [foldl_combine_first]
    rfl

theorem ruleHolds_of_plain (hm : Checked m) (hc : c ≠ .ordered) (hplain : c = .scalar ∨ m = .maxInt)
    (hwrites : RuleWrites c m v id effects) (hne : effects ≠ []) : RuleHolds rt c m v id effects := by
  have hperms : isCommutative m = true → ∀ effects', effects'.Perm effects →
      reducedValue rt c m v id effects' = ruleValue rt m (effects.filterMap dataOf) := by
    intro hcomm effects' hperm
    have hne' : effects' ≠ [] := fun h => hne (nil_perm.mp (h ▸ hperm))
    rw [reducedValue_eq_ruleValue rt hm hc hplain (hwrites.perm hperm) hne',
      ruleValue_perm rt hm hcomm (hperm.filterMap dataOf)]
  cases hm with
  | additiveInt => exact hperms rfl
  | maxInt => exact hperms rfl
  | maxBytes => exact hperms rfl
  | firstWriteWins => exact reducedValue_eq_ruleValue rt .firstWriteWins hc hplain hwrites hne

theorem foldl_add_eq (n : Int64) (ds : List DataEffect) :
    ds.foldl (fun n d => n + getIntVal d) n = n + ds.foldl (fun n d => n + getIntVal d) 0 := by
  have hadd := @foldl_hom _ _ _ (n + ·) (fun n d => n + getIntVal d) (fun n d => n + getIntVal d) ds 0
    fun _ _ => Int64.add_assoc ..
  rwa [Int64.add_zero] at hadd

theorem ruleValue_additive_cons (d : DataEffect) (ds : List DataEffect) :
    ruleValue rt .additiveInt (d :: ds) = some (.intVal (ds.foldl (fun n d => n + getIntVal d) (getIntVal d))) := by
  rw [ruleValue, foldl_cons, Int64.zero_add]

theorem keyed_additive_iff (hwrites : RuleWrites .keyed .additiveInt v id effects)
    (hne : effects ≠ []) : RuleHolds rt .keyed .additiveInt v id effects ↔
      Undisturbed rt .keyed .additiveInt (effects.filterMap dataOf) := by
  constructor
  · intro hholds
    by_cases hlen : (effects.filterMap dataOf).length ≤ 1
    · exact .inl hlen
    · refine .inr fun d hd => ?_
      obtain ⟨e, rest, hdata, hperm, _⟩ := exists_perm_of_mem hd
      have hds : (e :: rest).filterMap dataOf = d :: rest.filterMap dataOf := filterMap_cons_some hdata
      have hpermData := hperm.filterMap dataOf
      have hvalue := hholds _ hperm
      rw [← ruleValue_perm rt .additiveInt rfl hpermData, reducedValue_eq rt .additiveInt (by decide)
        (hwrites.perm hperm) hds, hds] at hvalue
      have hlenData := hpermData.length_eq
      rw [hds, length_cons] at hlenData
      cases hrest : rest.filterMap dataOf with
      | nil =>
        rw [hrest, length_nil] at hlenData
        omega
      | cons d' ds =>
        rw [hrest, readAs, getIntVal_foldl_keyed, ruleValue_additive_cons, some.injEq, Value.intVal.injEq,
          foldl_add_eq, foldl_add_eq (getIntVal d)] at hvalue
        exact (Int64.add_left_inj _).mp hvalue
  · intro hundisturbed effects' hperm
    have hne' : effects' ≠ [] := fun h => hne (nil_perm.mp (h ▸ hperm))
    obtain ⟨d, ds, hds⟩ := (hwrites.perm hperm).exists_cons hne'
    have hpermData := hperm.filterMap dataOf
    rw [← ruleValue_perm rt .additiveInt rfl hpermData,
      reducedValue_eq rt .additiveInt (by decide) (hwrites.perm hperm) hds, hds]
    cases ds with
    | nil =>
      rw [ruleValue_additive_cons]
      rfl
    | cons d' ds =>
      have hlen := hpermData.length_eq
      rw [hds, length_cons, length_cons] at hlen
      have hbase : scalarIntBase rt d = getIntVal d := by
        apply hundisturbed.resolve_left (by omega)
        rw [← hpermData.mem_iff, hds]
        exact mem_cons_self ..
      rw [readAs, getIntVal_foldl_keyed, hbase, ruleValue_additive_cons]

theorem foldl_maxBytes_same {b : Bytes} (hsame : ∀ d ∈ ds, decompress rt d = b) :
    ds.foldl (fun b d => maxBytes b (decompress rt d)) b = b := by
  induction ds with
  | nil => rfl
  | cons d ds ih =>
    rw [foldl_cons, hsame d (mem_cons_self ..), maxBytes_self]
    exact ih (fun d' hd' => hsame d' (mem_cons_of_mem _ hd'))

theorem keyed_maxBytes_iff (hwrites : RuleWrites .keyed .maxBytes v id effects) (hne : effects ≠ []) :
    RuleHolds rt .keyed .maxBytes v id effects ↔ Undisturbed rt .keyed .maxBytes (effects.filterMap dataOf) := by
  constructor
  · intro hholds
    have hmax : ∀ d ∈ effects.filterMap dataOf,
        some (.raw (decompress rt d)) = ruleValue rt .maxBytes (effects.filterMap dataOf) := by
      intro d hd
      obtain ⟨e, rest, hdata, _, hperm⟩ := exists_perm_of_mem hd
      rw [← hholds _ hperm]
      have hds : (rest ++ [e]).filterMap dataOf = rest.filterMap dataOf ++ [d] := by
        rw [filterMap_append, filterMap_cons_some hdata, filterMap_nil]
      obtain ⟨first, ds, hcons⟩ := (hwrites.perm hperm).exists_cons (by simp)
      rw [reducedValue_eq rt .maxBytes (by decide) (hwrites.perm hperm) hcons, foldl_combine_last rt (.inl rfl)]
      simp only [← hcons, hds, getLast_append_singleton, readAs]
    intro d hd d' hd'
    exact Value.raw.inj (some.inj ((hmax d hd).trans (hmax d' hd').symm))
  · intro hsame effects' hperm
    have hne' : effects' ≠ [] := fun h => hne (nil_perm.mp (h ▸ hperm))
    obtain ⟨d, ds, hds⟩ := (hwrites.perm hperm).exists_cons hne'
    have hpermData := hperm.filterMap dataOf
    have hmem : ∀ x ∈ d :: ds, decompress rt x = decompress rt d := by
      intro x hx
      rw [← hds] at hx
      refine hsame x (hpermData.mem_iff.mp hx) d (hpermData.mem_iff.mp ?_)
      rw [hds]
      exact mem_cons_self ..
    rw [← ruleValue_perm rt .maxBytes rfl hpermData,
      reducedValue_eq rt .maxBytes (by decide) (hwrites.perm hperm) hds, foldl_combine_last rt (.inl rfl), hds, readAs,
      hmem _ (getLast_mem _), ruleValue, foldl_cons, maxBytes_comm [], maxBytes_nil_right,
      foldl_maxBytes_same rt (fun x hx => hmem x (mem_cons_of_mem _ hx))]

theorem keyed_firstWriteWins_iff (hwrites : RuleWrites .keyed .firstWriteWins v id effects)
    (hne : effects ≠ []) : RuleHolds rt .keyed .firstWriteWins v id effects ↔
      Undisturbed rt .keyed .firstWriteWins (effects.filterMap dataOf) := by
  obtain ⟨d, ds, hds⟩ := hwrites.exists_cons hne
  rw [RuleHolds, reducedValue_eq rt .firstWriteWins (by decide) hwrites hds, foldl_combine_last rt (.inr rfl),
    Undisturbed, hds, getLast?_eq_some_getLast (cons_ne_nil d ds)]
  rfl

/-- Writes with one of the rules come to what the rule says, in both collections, exactly if
the treatment of keyed elements makes no difference on them. -/
theorem merge_rule_iff (rt : Runtime) {c : CollectionKind} {m : MergeRule} {v id : Bytes} {effects : List Effect}
    (hm : Checked m) (hc : c ≠ .ordered) (hwrites : RuleWrites c m v id effects) (hne : effects ≠ []) :
    RuleHolds rt c m v id effects ↔ Undisturbed rt c m (effects.filterMap dataOf) := by
  cases c with
  | scalar =>
    refine iff_of_true (ruleHolds_of_plain rt hm hc (.inl rfl) hwrites hne) ?_
    cases hm <;> exact trivial
  | keyed =>
    cases hm with
    | additiveInt => exact keyed_additive_iff rt hwrites hne
    | maxInt => exact iff_of_true (ruleHolds_of_plain rt .maxInt hc (.inr rfl) hwrites hne) trivial
    | maxBytes => exact keyed_maxBytes_iff rt hwrites hne
    | firstWriteWins => exact keyed_firstWriteWins_iff rt hwrites hne
  | ordered => exact absurd rfl hc

/-- Writes of the values, in order, under one rule. -/
def ruleWrites (c : CollectionKind) (m : MergeRule) (id : Bytes) (values : List Value) : List Effect :=
  values.map fun value =>
    { key := [0], kind := .data { op := .insertOp, merge := m, collection := c, id, value := some value } }

theorem ruleWrites_spec (c : CollectionKind) (m : MergeRule) (id : Bytes) (values : List Value) :
    RuleWrites c m [] id (ruleWrites c m id values) := by
  intro e he
  obtain ⟨value, _, rfl⟩ := mem_map.mp he
  exact ⟨_, rfl, rfl, rfl, rfl, fun _ => rfl, rfl⟩

/-- Increments of a keyed element, which overflow. -/
theorem merge_rule_of_increments : RuleHolds idleRuntime .keyed .additiveInt [] [7]
      (ruleWrites .keyed .additiveInt [7] [.intVal Int64.maxValue, .intVal 1, .intVal (-5)]) := by
  refine (merge_rule_iff idleRuntime .additiveInt (by decide) (ruleWrites_spec _ _ _ _) (by simp [ruleWrites])).mpr ?_
  refine .inr fun d hd => ?_
  simp only [ruleWrites, map_cons, map_nil, filterMap_cons, filterMap_nil, dataOf, mem_cons,
    not_mem_nil, or_false] at hd
  obtain rfl | rfl | rfl := hd <;> rfl

/-- Two byte maps, and two first writes: a scalar follows the rule, and a keyed element keeps
the last of the two. -/
theorem keyed_element_replaced :
    reducedValue idleRuntime .scalar .maxBytes [] [7] (ruleWrites .scalar .maxBytes [7] [.raw [2], .raw [1]]) =
        some (.raw [2]) ∧
      reducedValue idleRuntime .keyed .maxBytes [] [7] (ruleWrites .keyed .maxBytes [7] [.raw [2], .raw [1]]) =
        some (.raw [1]) ∧
      reducedValue idleRuntime .keyed .maxBytes [] [7] (ruleWrites .keyed .maxBytes [7] [.raw [1], .raw [2]]) =
        some (.raw [2]) ∧ reducedValue idleRuntime .scalar .firstWriteWins [] [7]
        (ruleWrites .scalar .firstWriteWins [7] [.intVal 1, .intVal 2]) = some (.intVal 1) ∧
      reducedValue idleRuntime .keyed .firstWriteWins [] [7]
        (ruleWrites .keyed .firstWriteWins [7] [.intVal 1, .intVal 2]) = some (.intVal 2) := by
  decide +kernel

end swytch.effects
