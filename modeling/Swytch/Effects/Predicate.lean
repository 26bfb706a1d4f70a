import Swytch.Effects.Dag
import Swytch.Lib.Worklist

open swytch.proto List

namespace swytch.effects

/-- Three-valued logic: a comparison with NULL is unknown. -/
inductive PredTri where
  | predFalse
  | predTrue
  | predUnknown
deriving DecidableEq, Repr

def cmp3 {α : Type} (lt : α → α → Bool) (a b : α) : Ordering :=
  if lt a b then .lt else if lt b a then .gt else .eq

def predCmpFromInt (c : Ordering) (op : PredicateCmpOp) : PredTri :=
  let yes : Bool :=
    match op with
    | .eq => c = .eq
    | .lt => c = .lt
    | .le => c ≠ .gt
    | .gt => c = .gt
    | .ge => c ≠ .lt
  if yes then .predTrue else .predFalse

variable (rt : Runtime)

/-- Values of different kinds compare only if both are numeric, and then as floats. -/
def compareTypedValues (a : TypedValue) (op : PredicateCmpOp) (b : TypedValue) : PredTri :=
  match a, b with
  | .int m, .int n => predCmpFromInt (cmp3 (fun x y => x < y) m n) op
  | .float m, .float n => predCmpFromInt (cmp3 rt.ltFloat m n) op
  | .text s, .text t => predCmpFromInt (cmp3 (fun x y => x < y) s t) op
  | .blob s, .blob t => predCmpFromInt (cmp3 (fun x y => x < y) s t) op
  | .int m, .float n => predCmpFromInt (cmp3 rt.ltFloat (rt.floatOfInt m) n) op
  | .float m, .int n => predCmpFromInt (cmp3 rt.ltFloat m (rt.floatOfInt n)) op
  | _, _ => .predUnknown

def predCmp (col : Nat) (op : PredicateCmpOp) (lit : Option TypedValue) (row : RowWriteEffect) : PredTri :=
  match row.columns[col]?, lit with
  | some left, some lit =>
    if left = .null ∨ lit = .null then .predUnknown else compareTypedValues rt left op lit
  | _, _ => .predUnknown

def predColCmp (leftCol : Nat) (op : PredicateCmpOp) (rightCol : Nat) (row : RowWriteEffect) : PredTri :=
  match row.columns[leftCol]?, row.columns[rightCol]? with
  | some l, some r => if l = .null ∨ r = .null then .predUnknown else compareTypedValues rt l op r
  | _, _ => .predUnknown

mutual

def predEval (rt : Runtime) : Predicate → RowWriteEffect → PredTri
  | .bool b, _ => if b then .predTrue else .predFalse
  | .and children, row => predEvalAnd rt children row .predTrue
  | .or children, row => predEvalOr rt children row .predFalse
  | .not child, row =>
    match predEval rt child row with
    | .predTrue => .predFalse
    | .predFalse => .predTrue
    | .predUnknown => .predUnknown
  | .cmp col op literal, row => predCmp rt col op literal row
  | .colCmp col op col2, row => predColCmp rt col op col2 row
  | .isNull col, row =>
    match row.columns[col]? with
    | none => .predUnknown
    | some v => if v = .null then .predTrue else .predFalse

def predEvalAnd (rt : Runtime) : List Predicate → RowWriteEffect → PredTri → PredTri
  | [], _, acc => acc
  | child :: children, row, acc =>
    match predEval rt child row with
    | .predFalse => .predFalse
    | .predUnknown => predEvalAnd rt children row .predUnknown
    | .predTrue => predEvalAnd rt children row acc

def predEvalOr (rt : Runtime) : List Predicate → RowWriteEffect → PredTri → PredTri
  | [], _, acc => acc
  | child :: children, row, acc =>
    match predEval rt child row with
    | .predTrue => .predTrue
    | .predUnknown => predEvalOr rt children row .predUnknown
    | .predFalse => predEvalOr rt children row acc

end

/-- An absent predicate, like an unknown result, is not a match. -/
def predicateMatches (p : Option Predicate) (row : RowWriteEffect) : Bool :=
  p.any (fun p => predEval rt p row = .predTrue)

/-- What a transaction observed and wrote on one key. -/
structure Evidence where
  obs : List ObservationEffect := []
  rowWrites : List RowWriteEffect := []

def hasPredicateEvidence (e : Evidence) : Bool :=
  e.obs.length > 0 ∨ e.rowWrites.length > 0

/-- One side observed a row that the other side wrote. -/
def observes (e e' : Evidence) : Bool :=
  e.obs.any (fun o => e'.rowWrites.any (predicateMatches rt o.predicate))

/-- Whether the two sides conflict, and whether both had evidence to decide it. -/
def predicateEvidenceConflict (ours theirs : Evidence) : Bool × Bool :=
  if !hasPredicateEvidence ours || !hasPredicateEvidence theirs then (false, false)
  else (observes rt ours theirs || observes rt theirs ours, true)

theorem predicateEvidenceConflict_comm (ours theirs : Evidence) :
    predicateEvidenceConflict rt ours theirs = predicateEvidenceConflict rt theirs ours := by
  rw [predicateEvidenceConflict, predicateEvidenceConflict, Bool.or_comm, Bool.or_comm (observes rt ours theirs)]

/-- AND and OR of the results of their children: the value that decides, or unknown if
that is among them, or the value of no children. -/
def kleene (stop acc : PredTri) (results : List PredTri) : PredTri :=
  if stop ∈ results then stop else if .predUnknown ∈ results then .predUnknown else acc

theorem predEvalAnd_eq (children : List Predicate) (row : RowWriteEffect) (acc : PredTri) :
    predEvalAnd rt children row acc = kleene .predFalse acc (children.map fun c => predEval rt c row) := by
  induction children generalizing acc with
  | nil => simp [predEvalAnd, kleene]
  | cons c children ih =>
    rw [predEvalAnd]
    cases hc : predEval rt c row <;> simp [kleene, hc, ih]

theorem predEvalOr_eq (children : List Predicate) (row : RowWriteEffect) (acc : PredTri) :
    predEvalOr rt children row acc = kleene .predTrue acc (children.map fun c => predEval rt c row) := by
  induction children generalizing acc with
  | nil => simp [predEvalOr, kleene]
  | cons c children ih =>
    rw [predEvalOr]
    cases hc : predEval rt c row <;> simp [kleene, hc, ih]

theorem kleene_perm {stop acc : PredTri} {results results' : List PredTri} (hperm : results.Perm results') :
    kleene stop acc results = kleene stop acc results' := by
  simp only [kleene, hperm.mem_iff]

theorem kleene_mono {stop acc : PredTri} {f g : Predicate → PredTri} {children : List Predicate}
    (hstop : stop ≠ .predUnknown) (hmono : ∀ c ∈ children, f c ≠ .predUnknown → g c = f c)
    (hknown : kleene stop acc (children.map f) ≠ .predUnknown) :
    kleene stop acc (children.map g) = kleene stop acc (children.map f) := by
  by_cases hmem : stop ∈ children.map f
  · obtain ⟨c, hc, hfc⟩ := mem_map.mp hmem
    have hmem' : stop ∈ children.map g := mem_map.mpr ⟨c, hc, (hmono c hc (hfc ▸ hstop)).trans hfc⟩
    rw [kleene, kleene, if_pos hmem, if_pos hmem']
  · have hall : .predUnknown ∉ children.map f := fun hunknown => hknown (by rw [kleene, if_neg hmem, if_pos hunknown])
    rw [map_congr_left fun c hc => hmono c hc fun hfc => hall (mem_map.mpr ⟨c, hc, hfc⟩)]

/-- The second row has the columns of the first, and values for some that are NULL. -/
structure Completes (row row' : RowWriteEffect) : Prop where
  length : row.columns.length = row'.columns.length
  kept : ∀ (i : Nat) v, row.columns[i]? = some v → v ≠ TypedValue.null → row'.columns[i]? = some v

/-- A tree without IS_NULL. -/
inductive NullFree : Predicate → Prop
  | bool (b : Bool) : NullFree (.bool b)
  | and {children : List Predicate} (hchildren : ∀ c ∈ children, NullFree c) : NullFree (.and children)
  | or {children : List Predicate} (hchildren : ∀ c ∈ children, NullFree c) : NullFree (.or children)
  | not {child : Predicate} (hchild : NullFree child) : NullFree (.not child)
  | cmp (col : Nat) (op : PredicateCmpOp) (literal : Option TypedValue) : NullFree (.cmp col op literal)
  | colCmp (col : Nat) (op : PredicateCmpOp) (col2 : Nat) : NullFree (.colCmp col op col2)

/-- The children of one AND or OR node, anywhere in the tree, are put in another order. -/
inductive Reordered : Predicate → Predicate → Prop
  | and {children children' : List Predicate} (hperm : children.Perm children') :
    Reordered (.and children) (.and children')
  | or {children children' : List Predicate} (hperm : children.Perm children') :
    Reordered (.or children) (.or children')
  | andChild {child child' : Predicate} (before after : List Predicate) (hchild : Reordered child child') :
    Reordered (.and (before ++ child :: after)) (.and (before ++ child' :: after))
  | orChild {child child' : Predicate} (before after : List Predicate) (hchild : Reordered child child') :
    Reordered (.or (before ++ child :: after)) (.or (before ++ child' :: after))
  | notChild {child child' : Predicate} (hchild : Reordered child child') : Reordered (.not child) (.not child')

theorem predEval_of_completes {rt : Runtime} {p : Predicate} {row row' : RowWriteEffect} (hp : NullFree p)
    (hrow : Completes row row') (hknown : predEval rt p row ≠ .predUnknown) :
    predEval rt p row' = predEval rt p row := by
  induction hp with
  | bool b => rw [predEval, predEval]
  | and _ ih =>
    rw [predEval, predEvalAnd_eq] at hknown ⊢
    rw [predEval, predEvalAnd_eq]
    exact kleene_mono (by decide) ih hknown
  | or _ ih =>
    rw [predEval, predEvalOr_eq] at hknown ⊢
    rw [predEval, predEvalOr_eq]
    exact kleene_mono (by decide) ih hknown
  | not _ ih =>
    rw [predEval] at hknown ⊢
    rw [predEval, ih fun hunknown => hknown (by rw [hunknown])]
  | cmp col op literal =>
    rw [predEval] at hknown ⊢
    rw [predEval]
    unfold predCmp at hknown ⊢
    split at hknown
    · rename_i left lit hleft
      have hvalues : ¬ (left = .null ∨ lit = .null) := fun hnull => hknown (if_pos hnull)
      rw [hrow.kept col left hleft fun hnull => hvalues (.inl hnull)]
    · exact absurd rfl hknown
  | colCmp col op col2 =>
    rw [predEval] at hknown ⊢
    rw [predEval]
    unfold predColCmp at hknown ⊢
    split at hknown
    · rename_i l r hl hr
      have hvalues : ¬ (l = .null ∨ r = .null) := fun hnull => hknown (if_pos hnull)
      rw [hrow.kept col l hl fun hnull => hvalues (.inl hnull), hrow.kept col2 r hr fun hnull => hvalues (.inr hnull)]
    · exact absurd rfl hknown

theorem predEval_of_reordered {rt : Runtime} {p p' : Predicate} (hp : Reordered p p') (row : RowWriteEffect) :
    predEval rt p row = predEval rt p' row := by
  induction hp with
  | and hperm => rw [predEval, predEval, predEvalAnd_eq, predEvalAnd_eq, kleene_perm (hperm.map _)]
  | or hperm => rw [predEval, predEval, predEvalOr_eq, predEvalOr_eq, kleene_perm (hperm.map _)]
  | andChild before after _ ih => simp only [predEval, predEvalAnd_eq, map_append, map_cons, ih]
  | orChild before after _ ih => simp only [predEval, predEvalOr_eq, map_append, map_cons, ih]
  | notChild _ ih => rw [predEval, predEval, ih]

/-- Predicates are evaluated in Kleene's logic: a result that is known stays when NULL columns
get values, and does not depend on the order of children. Conflicts are symmetric. -/
theorem predEval_kleene (rt : Runtime) :
    (∀ p, NullFree p → ∀ row row', Completes row row' → predEval rt p row ≠ .predUnknown →
      predEval rt p row' = predEval rt p row) ∧
    (∀ p p', Relation.ReflTransGen Reordered p p' → ∀ row, predEval rt p row = predEval rt p' row) ∧
    ∀ ours theirs, predicateEvidenceConflict rt ours theirs = predicateEvidenceConflict rt theirs ours := by
  refine ⟨fun p hp row row' hrow hknown => predEval_of_completes hp hrow hknown, fun p p' hp row => ?_,
    predicateEvidenceConflict_comm rt⟩
  induction hp with
  | refl => rfl
  | tail _ hstep ih => rw [ih, predEval_of_reordered hstep row]

/-- A walk leaves a branch at the first effect of another transaction. -/
def txnDeps (log : Log) (txnID : Bytes) (t : Tip) : List Tip :=
  match log.lookup t with
  | none => []
  | some eff => if eff.txnId = txnID then allDeps eff else []

/-- The effect at a position if it belongs to the transaction on this key. -/
def txnEffectOnKey (log : Log) (txnID key : Bytes) (t : Tip) : Option Effect :=
  (log.lookup t).filter (fun eff => eff.txnId = txnID ∧ eff.key = key)

def observationOf (eff : Effect) : Option ObservationEffect :=
  match eff.kind with
  | .observation o => some o
  | _ => none

def rowWriteOf (eff : Effect) : Option RowWriteEffect :=
  match eff.kind with
  | .rowWrite w => some w
  | _ => none

def collectTxnEffectsOnKey (log : Log) (txnID key : Bytes) (startTips : List Tip) : Evidence :=
  let start := startTips.filter (· ≠ .zero)
  let effects := (lib.walkFrom .lifo (txnDeps log txnID) log.keys start []).filterMap (txnEffectOnKey log txnID key)
  ⟨effects.filterMap observationOf, effects.filterMap rowWriteOf⟩

end swytch.effects
