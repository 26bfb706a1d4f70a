import Swytch.Keytrie.Critbit.OrderedMap
import Mathlib.Order.Bounds.Basic

open swytch.lib swytch.proto List Option
open Bool hiding and_assoc or_false

namespace swytch.keytrie

open CritTree

/-- An inner node on the path of a key, and the way that the path takes there. -/
structure PathEntry where
  n : Nat
  p : CritPos
  l : Trie
  r : Trie
  dir : Bool

def PathEntry.node (e : PathEntry) : Trie := .node e.n e.p e.l e.r

def child (dir : Bool) (l r : Trie) : Trie := if dir then r else l

/-- The path of a key down a tree, its end first, and the leaf there. -/
def boundaryPath (boundary : Bytes) : Trie → List PathEntry → Nat × List PathEntry
  | .leaf s, path => (s, path)
  | .node n p l r, path =>
    if goesRight boundary p then boundaryPath boundary r (⟨n, p, l, r, true⟩ :: path)
    else boundaryPath boundary l (⟨n, p, l, r, false⟩ :: path)

/-- Go up a path to where a key with the given first difference would be inserted. -/
def insertionPoint (crit : CritPos) : Trie → List PathEntry → Trie × List PathEntry
  | insertion, [] => (insertion, [])
  | insertion, e :: path =>
    if shouldInsertBefore e.p crit then (insertion, e :: path) else insertionPoint crit e.node path

namespace Critbit

variable {D : Type} (c : Critbit D)

variable (pfx : Bytes)

/-- A live leaf whose key has the given start. -/
def matchesPrefix (s : Nat) : Bool :=
  !(c.leaf s).deleted && pfx.isPrefixOf (c.leaf s).key

/-- The first live leaf in a direction, which is false for ascending. -/
def extremeLeaf {D : Type} (c : Critbit D) (pfx : Bytes) (direction : Bool) : Trie → Option Nat
  | .leaf s => if c.matchesPrefix pfx s then some s else none
  | .node _ _ l r =>
    if direction then (c.extremeLeaf pfx direction r).or (c.extremeLeaf pfx direction l)
    else (c.extremeLeaf pfx direction l).or (c.extremeLeaf pfx direction r)

/-- The first live leaf beside a path. -/
def climb {D : Type} (c : Critbit D) (pfx : Bytes) (direction : Bool) : List PathEntry → Option Nat
  | [] => none
  | e :: path =>
    (if e.dir = direction then c.extremeLeaf pfx direction (child (!direction) e.l e.r) else none).or
      (c.climb pfx direction path)

/-- The first live leaf beyond a boundary. -/
def seekBeyond (pfx boundary : Bytes) (direction : Bool) (subtree : Trie) : Option Nat :=
  let found := boundaryPath boundary subtree []
  let key := (c.leaf found.1).key
  if key = boundary then c.climb pfx direction found.2
  else
    let crit := findCritBit boundary key
    let insertion := insertionPoint crit (.leaf found.1) found.2
    (if goesRight key crit = !direction then c.extremeLeaf pfx direction insertion.1 else none).or
      (c.climb pfx direction insertion.2)

def seekPrefix (pfx boundary : Bytes) (bounded direction : Bool) : Option Bytes :=
  ((c.root.map (findPrefixSubtree pfx)).bind fun subtree =>
    if bounded then c.seekBeyond pfx boundary direction subtree
    else c.extremeLeaf pfx direction subtree).map fun s => (c.leaf s).key

def firstWithPrefix : Option Bytes := c.seekPrefix pfx [] false false

def lastWithPrefix : Option Bytes := c.seekPrefix pfx [] false true

def nextWithPrefix (pfx after : Bytes) : Option Bytes :=
  c.seekPrefix pfx after (pfx.isPrefixOf after) false

def prevWithPrefix (pfx before : Bytes) : Option Bytes :=
  c.seekPrefix pfx before (pfx.isPrefixOf before) true

end Critbit

variable (direction : Bool)

/-- The leaves of a tree in a direction. -/
def ordered (t : Trie) : List Nat := if direction then t.leaves.reverse else t.leaves

/-- The leaves beside a path that lie in a direction. -/
def siblings (path : List PathEntry) : List Nat :=
  path.flatMap fun e => if e.dir = direction then ordered direction (child (!direction) e.l e.r) else []

/-- A key lies beyond a boundary. -/
def Beyond (boundary key : Bytes) : Prop := if direction then key < boundary else boundary < key

instance (direction : Bool) (boundary key : Bytes) : Decidable (Beyond direction boundary key) :=
  inferInstanceAs (Decidable (if direction then key < boundary else boundary < key))

variable {D : Type} {c : Critbit D} {m : OrderedMap D} {pfx boundary k : Bytes} {d side : Bool} {n s : Nat}
  {p crit : CritPos} {t l r : Trie} {path : List PathEntry}

theorem mem_ordered : s ∈ ordered d t ↔ s ∈ t.leaves := by
  cases d <;> simp [ordered]

theorem ordered_node : ordered d (.node n p l r) = ordered d (child d l r) ++ ordered d (child (!d) l r) := by
  cases d <;> simp [ordered, child, leaves]

theorem siblings_cons (e : PathEntry) (path : List PathEntry) : siblings d (e :: path) =
    (if e.dir = d then ordered d (child (!d) e.l e.r) else []) ++ siblings d path :=
  flatMap_cons

/-- Induction along the paths of a tree. -/
theorem path_induction {motive : Trie → Prop} (leaf : ∀ s, motive (.leaf s))
    (node : ∀ n p l r, (∀ side, motive (child side l r)) → motive (.node n p l r)) (t : Trie) : motive t := by
  induction t with
  | leaf s => exact leaf s
  | node n p l r ihl ihr =>
    apply node
    rintro (_ | _)
    · exact ihl
    · exact ihr

theorem mem_child (hs : s ∈ (child side l r).leaves) : s ∈ (node n p l r).leaves := by
  cases side
  · exact mem_append_left _ hs
  · exact mem_append_right _ hs

theorem boundaryPath_node : boundaryPath boundary (.node n p l r) path =
    boundaryPath boundary (child (goesRight boundary p) l r) (⟨n, p, l, r, goesRight boundary p⟩ :: path) := by
  rw [boundaryPath]
  cases goesRight boundary p <;> rfl

theorem best_node : best (goesRight boundary) (.node n p l r) =
    best (goesRight boundary) (child (goesRight boundary p) l r) := by
  rw [best]
  cases goesRight boundary p <;> rfl

theorem boundaryPath_fst (t : Trie) (path : List PathEntry) :
    (boundaryPath boundary t path).1 = t.best (goesRight boundary) := by
  induction t using path_induction generalizing path with
  | leaf s => rfl
  | node n p l r ih =>
    rw [boundaryPath_node, best_node]
    exact ih _ _

/-- Two keys are in the order of their first difference. -/
theorem beyond_iff_of_crit (hb : boundary.length ≤ 2 ^ 32) (hk : k.length ≤ 2 ^ 32)
    (hcrit : keyBits.Crit boundary k p) : Beyond d boundary k ↔ goesRight k p = !d := by
  have hdiffer : goesRight boundary p = !goesRight k p := eq_not.mpr hcrit.differ
  have horder : if goesRight k p then boundary < k else k < boundary := by
    cases hbit : goesRight k p
    · exact lt_of_goesLeft hk hb ⟨hcrit.valid, hcrit.differ.symm, hcrit.agree.symm⟩ hbit
    · exact lt_of_goesLeft hb hk hcrit (by rw [hdiffer, hbit]; rfl)
  cases d <;> cases hbit : goesRight k p <;> rw [hbit] at horder <;> simp_all [Beyond, lt_asymm]

namespace Critbit

/-- The trees of a search: branching on the bits of keys that have positions of 32 bits. -/
structure Searchable {D : Type} (c : Critbit D) (t : Trie) : Prop where
  wf : t.WF keyBits (fun s => (c.leaf s).key)
  short : ∀ s ∈ t.leaves, (c.leaf s).key.length ≤ 2 ^ 32

theorem Searchable.of_node (h : Searchable c (.node n p l r)) (side : Bool) : Searchable c (child side l r) := by
  refine ⟨?_, fun s hs => h.short s (mem_child hs)⟩
  cases side
  · exact h.wf.left
  · exact h.wf.right

theorem Searchable.goesRight_eq (h : Searchable c (.node n p l r)) (hs : s ∈ (child side l r).leaves) :
    goesRight (c.leaf s).key p = side := by
  cases h.wf with
  | node _ hleft hright _ _ _ =>
    cases side
    · exact hleft s hs
    · exact hright s hs

theorem extremeLeaf_eq (t : Trie) : c.extremeLeaf pfx d t = (ordered d t).find? (c.matchesPrefix pfx) := by
  induction t with
  | leaf s => cases d <;> simp [extremeLeaf, ordered, leaves, find?_singleton]
  | node n p l r ihl ihr =>
    rw [extremeLeaf, ordered_node, find?_append, ihl, ihr]
    cases d <;> rfl

theorem climb_eq (path : List PathEntry) : c.climb pfx d path = (siblings d path).find? (c.matchesPrefix pfx) := by
  induction path with
  | nil => rfl
  | cons e path ih =>
    rw [climb, ih, siblings_cons, find?_append]
    split
    · rw [extremeLeaf_eq]
    · rfl

/-- The leaves beyond a boundary that agrees with the keys of a tree up to its root. -/
theorem Searchable.filter_node (h : Searchable c (.node n p l r)) (hb : boundary.length ≤ 2 ^ 32)
    (hagree : ∀ s ∈ l.leaves ++ r.leaves, keyBits.Agree boundary (c.leaf s).key p) :
    (ordered d (.node n p l r)).filter (fun s => Beyond d boundary (c.leaf s).key) =
      (ordered d (child (goesRight boundary p) l r)).filter (fun s => Beyond d boundary (c.leaf s).key) ++
        if goesRight boundary p = d then ordered d (child (!d) l r) else [] := by
  have hvalid : keyBits.valid p := by
    cases h.wf with
    | node hvalid _ _ _ _ _ => exact hvalid
  have hbeyond : ∀ s ∈ (child (!goesRight boundary p) l r).leaves,
      Beyond d boundary (c.leaf s).key ↔ goesRight boundary p = d := by
    intro s hs
    have hne : goesRight boundary p ≠ goesRight (c.leaf s).key p := by
      rw [h.goesRight_eq hs]
      exact (not_ne_self _).symm
    rw [beyond_iff_of_crit hb (h.short s (mem_child hs)) ⟨hvalid, hne, hagree s (mem_child (n := n) (p := p) hs)⟩,
      h.goesRight_eq hs, not_inj_iff]
  rw [ordered_node, filter_append]
  by_cases hdir : goesRight boundary p = d
  · rw [if_pos hdir, hdir]
    rw [hdir] at hbeyond
    congr 1
    rw [filter_eq_self]
    intro s hs
    simpa using (hbeyond s (mem_ordered.mp hs)).mpr rfl
  · have hdir' : goesRight boundary p = !d := eq_not.mpr hdir
    rw [if_neg hdir, append_nil, hdir']
    rw [hdir', Bool.not_not] at hbeyond
    rw [filter_eq_nil_iff.mpr, nil_append]
    intro s hs
    simpa using (hbeyond s (mem_ordered.mp hs)).not.mpr (not_ne_self d)

/-- Where the boundary is a key of the tree, the leaves beyond it are those beside its
path. -/
theorem Searchable.siblings_eq (h : Searchable c t) (hb : boundary.length ≤ 2 ^ 32)
    (hkey : (c.leaf (t.best (goesRight boundary))).key = boundary) (path : List PathEntry) :
    siblings d (boundaryPath boundary t path).2 =
      (ordered d t).filter (fun s => Beyond d boundary (c.leaf s).key) ++ siblings d path := by
  induction t using path_induction generalizing path with
  | leaf s =>
    have hself : ¬ Beyond d boundary (c.leaf s).key := by
      rw [show (c.leaf s).key = boundary from hkey]
      cases d <;> simp [Beyond]
    cases d <;> simp [boundaryPath, ordered, leaves, hself]
  | node n p l r ih =>
    have hbest := best_mem (goesRight boundary) (.node n p l r)
    have hagree : ∀ s ∈ l.leaves ++ r.leaves, keyBits.Agree boundary (c.leaf s).key p := by
      cases h.wf with
      | node _ _ _ hagree _ _ => exact fun s hs => hkey ▸ hagree _ hbest s hs
    rw [best_node] at hkey
    rw [boundaryPath_node, h.filter_node hb hagree, ih _ (h.of_node _) hkey, siblings_cons, append_assoc]

/-- From below the insertion point the way up goes to it. -/
theorem Searchable.insertionPoint_eq (h : Searchable c t)
    (hbelow : ∀ n p l r, t = .node n p l r → ¬ p < crit) (path : List PathEntry) :
    insertionPoint crit (.leaf (t.best (goesRight boundary))) (boundaryPath boundary t path).2 =
      insertionPoint crit t path := by
  induction t using path_induction generalizing path with
  | leaf s => rfl
  | node n p l r ih =>
    have hstay := hbelow n p l r rfl
    rw [boundaryPath_node, best_node, ih _ (h.of_node _), insertionPoint, if_neg]
    · rfl
    · exact fun hbefore => hstay (shouldInsertBefore_iff.mp hbefore)
    · intro n' q l' r' hsub hlt
      have hchild : l = .node n' q l' r' ∨ r = .node n' q l' r' := by
        cases hside : goesRight boundary p <;> rw [hside] at hsub
        · exact .inl hsub
        · exact .inr hsub
      exact hstay (lt_trans (h.wf.lt_of_subtree hchild) hlt)

theorem insertionPoint_of_stop (hstop : ∀ e ∈ path.head?, e.p < crit) : insertionPoint crit t path = (t, path) := by
  cases path with
  | nil => rfl
  | cons e path => rw [insertionPoint, if_pos (shouldInsertBefore_iff.mpr (hstop e rfl))]

/-- What a search goes through once it has the insertion point of the boundary, which is on
the given side of the keys there. -/
def afterInsertion (direction side : Bool) (insertion : Trie × List PathEntry) : List Nat :=
  (if side = !direction then ordered direction insertion.1 else []) ++ siblings direction insertion.2

section

variable (h : Searchable c t) (hb : boundary.length ≤ 2 ^ 32)
include h hb

/-- The boundary branches off above a tree. -/
theorem Searchable.afterInsertion_above (hcrit : keyBits.Crit boundary (c.leaf (t.best (goesRight boundary))).key crit)
    (hstop : ∀ e ∈ path.head?, e.p < crit) (hbelow : ∀ n p l r, t = .node n p l r → ¬ p < crit)
    (hsame : ∀ s ∈ t.leaves, ∀ q, keyBits.valid q → q ≤ crit →
      goesRight (c.leaf (t.best (goesRight boundary))).key q = goesRight (c.leaf s).key q) :
    afterInsertion d (goesRight (c.leaf (t.best (goesRight boundary))).key crit)
        (insertionPoint crit (.leaf (t.best (goesRight boundary))) (boundaryPath boundary t path).2) =
      (ordered d t).filter (fun s => Beyond d boundary (c.leaf s).key) ++ siblings d path := by
  have hbeyond : ∀ s ∈ ordered d t, Beyond d boundary (c.leaf s).key ↔
      goesRight (c.leaf (t.best (goesRight boundary))).key crit = !d := by
    intro s hs
    have hs := mem_ordered.mp hs
    have hbit := hsame s hs crit hcrit.valid le_rfl
    rw [hbit]
    refine beyond_iff_of_crit hb (h.short s hs) ⟨hcrit.valid, ?_, ?_⟩
    · exact fun heq => hcrit.differ (heq.trans hbit.symm)
    · exact fun q hq hlt => (hcrit.agree q hq hlt).trans (hsame s hs q hq hlt.le)
  rw [h.insertionPoint_eq hbelow, insertionPoint_of_stop hstop, afterInsertion]
  congr 1
  split
  · rename_i hside
    rw [eq_comm, filter_eq_self]
    exact fun s hs => by simpa using (hbeyond s hs).mpr hside
  · rename_i hside
    rw [eq_comm, filter_eq_nil_iff]
    exact fun s hs => by simpa using (hbeyond s hs).not.mpr hside

/-- Where the boundary is not a key of the tree, the leaves beyond it are found from its
insertion point. -/
theorem Searchable.afterInsertion_eq (path : List PathEntry)
    (hcrit : keyBits.Crit boundary (c.leaf (t.best (goesRight boundary))).key crit)
    (hstop : ∀ e ∈ path.head?, e.p < crit) :
    afterInsertion d (goesRight (c.leaf (t.best (goesRight boundary))).key crit)
        (insertionPoint crit (.leaf (t.best (goesRight boundary))) (boundaryPath boundary t path).2) =
      (ordered d t).filter (fun s => Beyond d boundary (c.leaf s).key) ++ siblings d path := by
  induction t using path_induction generalizing path with
  | leaf s =>
    apply h.afterInsertion_above hb hcrit hstop
    · exact nofun
    · intro s' hs' q _ _
      rw [mem_singleton.mp hs']
      rfl
  | node n p l r ih =>
    have hbest := best_mem (goesRight boundary) (.node n p l r)
    have hall : ∀ s ∈ l.leaves ++ r.leaves,
        keyBits.Agree (c.leaf (best (goesRight boundary) (.node n p l r))).key (c.leaf s).key p := by
      cases h.wf with
      | node _ _ _ hagree _ _ => exact fun s hs => hagree _ hbest s hs
    by_cases hlt : p < crit
    · have hagree : ∀ s ∈ l.leaves ++ r.leaves, keyBits.Agree boundary (c.leaf s).key p :=
        fun s hs => (hcrit.agree.mono hlt.le).trans (hall s hs)
      rw [boundaryPath_node, h.filter_node hb hagree]
      rw [best_node] at hcrit ⊢
      rw [ih _ (h.of_node _) _ hcrit (by simpa using hlt), siblings_cons, append_assoc]
    · have hgt : crit < p := lt_of_le_of_ne (not_lt.mp hlt) (crit_ne_of_best h.wf hcrit).symm
      apply h.afterInsertion_above hb hcrit hstop
      · intro n' p' l' r' heq
        cases heq
        exact hlt
      · exact fun s hs q hq hle => hall s hs q hq (lt_of_le_of_lt hle hgt)

/-- The leaves beyond a boundary are searched in their order. -/
theorem Searchable.seekBeyond_eq : c.seekBeyond pfx boundary d t =
      ((ordered d t).filter fun s => Beyond d boundary (c.leaf s).key).find? (c.matchesPrefix pfx) := by
  unfold seekBeyond
  dsimp only
  rw [boundaryPath_fst]
  split
  · rename_i hkey
    rw [climb_eq, h.siblings_eq hb hkey]
    exact congrArg _ (append_nil _)
  · rename_i hkey
    have hcrit := crit_findCritBit (Ne.symm hkey) hb (h.short _ (best_mem _ t))
    have hlist := h.afterInsertion_eq (d := d) hb [] hcrit nofun
    rw [show siblings d [] = [] from rfl, append_nil] at hlist
    rw [← hlist, afterInsertion, find?_append, climb_eq]
    split
    · rw [extremeLeaf_eq]
    · rfl

end

/-- The leaves that are not under the subtree of a start do not have it. -/
theorem Searchable.find?_findPrefixSubtree (h : Searchable c t) (pfx : Bytes) {Q : Nat → Bool}
    (hQ : ∀ s, Q s = true → c.matchesPrefix pfx s = true) :
    Searchable c (findPrefixSubtree pfx t) ∧ (ordered d (findPrefixSubtree pfx t)).find? Q = (ordered d t).find? Q := by
  induction t using path_induction with
  | leaf s => exact ⟨h, rfl⟩
  | node n p l r ih =>
    have hnode : findPrefixSubtree pfx (.node n p l r) = if pfx.length ≤ p.bytePos then .node n p l r
        else findPrefixSubtree pfx (child (goesRight pfx p) l r) := by
      rw [findPrefixSubtree]
      cases goesRight pfx p <;> rfl
    rw [hnode]
    split
    · exact ⟨h, rfl⟩
    · rename_i hlen
      have hother : (ordered d (child (!goesRight pfx p) l r)).find? Q = none := by
        rw [find?_eq_none]
        intro s hs hQs
        have hmatch := hQ s hQs
        rw [matchesPrefix, and_eq_true, isPrefixOf_iff_prefix] at hmatch
        have hbit : goesRight (c.leaf s).key p = goesRight pfx p := by
          obtain ⟨rest, hrest⟩ := hmatch.2
          rw [goesRight, goesRight, getDirection, getDirection, ← hrest, getElem?_append_left (not_le.mp hlen)]
        rw [h.goesRight_eq (mem_ordered.mp hs)] at hbit
        exact not_ne_self _ hbit
      obtain ⟨hsub, hfind⟩ := ih _ (h.of_node _)
      refine ⟨hsub, hfind.trans ?_⟩
      rw [ordered_node, find?_append]
      by_cases hdir : goesRight pfx p = d
      · rw [hdir] at hother ⊢
        rw [hother, or_none]
      · have hdir' : goesRight pfx p = !d := eq_not.mpr hdir
        rw [hdir', Bool.not_not] at hother
        rw [hother, none_or, hdir']

end Critbit

/-- The answer to a search is the least or the greatest of some keys, or none if there are
none. -/
def Extreme (keys : Set Bytes) : Option Bytes → Prop
  | none => keys = ∅
  | some k => if direction then IsGreatest keys k else IsLeast keys k

namespace Critbit

theorem Models.extreme_find? (h : Models c m) (Q : Nat → Bool) :
    Extreme d {k | ∃ s ∈ c.slots, Q s = true ∧ (c.leaf s).key = k}
      (((if d then c.slots.reverse else c.slots).find? Q).map fun s => (c.leaf s).key) := by
  have hsorted : (if d then c.slots.reverse else c.slots).Pairwise fun s s' =>
      Beyond d (c.leaf s).key (c.leaf s').key := by
    have hslots := pairwise_map.mp h.sorted
    cases d
    · exact hslots
    · exact pairwise_reverse.mpr hslots
  have hmem : ∀ s, s ∈ c.slots ↔ s ∈ (if d then c.slots.reverse else c.slots) := by
    cases d <;> simp
  simp only [hmem]
  generalize (if d then c.slots.reverse else c.slots) = slots at hsorted
  cases hfind : slots.find? Q with
  | none =>
    rw [find?_eq_none] at hfind
    refine Set.eq_empty_of_forall_notMem ?_
    rintro k ⟨s, hs, hQ, -⟩
    exact hfind s hs hQ
  | some s =>
    obtain ⟨hQ, before, after, rfl, hbefore⟩ := find?_eq_some_iff_append.mp hfind
    have hself : (c.leaf s).key ∈ {k | ∃ s' ∈ before ++ s :: after, Q s' = true ∧ (c.leaf s').key = k} :=
      ⟨s, by simp, hQ, rfl⟩
    have hrest : ∀ k ∈ {k | ∃ s' ∈ before ++ s :: after, Q s' = true ∧ (c.leaf s').key = k},
        k = (c.leaf s).key ∨ Beyond d (c.leaf s).key k := by
      rintro k ⟨s', hs', hQ', rfl⟩
      obtain hs' | hs' := mem_append.mp hs'
      · have hnot := hbefore s' hs'
        rw [hQ'] at hnot
        cases hnot
      · refine (mem_cons.mp hs').imp (congrArg fun s => (c.leaf s).key) fun hs' => ?_
        exact (pairwise_cons.mp (pairwise_append.mp hsorted).2.1).1 s' hs'
    cases d
    · exact ⟨hself, fun k hk => (hrest k hk).elim Eq.ge le_of_lt⟩
    · exact ⟨hself, fun k hk => (hrest k hk).elim Eq.le le_of_lt⟩

/-- Every search finds the extreme of the live keys that meet its condition. -/
theorem Models.extreme_seekPrefix (h : Models c m) (pfx boundary : Bytes) (bounded d : Bool)
    (hb : bounded = true → boundary.length ≤ 2 ^ 32) :
    Extreme d {k | k ∈ m ∧ pfx <+: k ∧ (bounded = true → Beyond d boundary k)}
      (c.seekPrefix pfx boundary bounded d) := by
  obtain ⟨Q, hQ, hseek⟩ : ∃ Q : Nat → Bool, (∀ s, Q s = true ↔ (bounded = true → Beyond d boundary (c.leaf s).key) ∧
        c.matchesPrefix pfx s = true) ∧
      c.seekPrefix pfx boundary bounded d =
        ((if d then c.slots.reverse else c.slots).find? Q).map fun s => (c.leaf s).key := by
    unfold seekPrefix slots
    cases hroot : c.root with
    | none => exact ⟨fun s => decide (_ ∧ _), fun s => decide_eq_true_iff, by cases d <;> rfl⟩
    | some t =>
      have hsearch : Searchable c t :=
        ⟨h.wf t hroot, fun s hs => h.short s ((mem_slots_iff hroot).mpr hs)⟩
      cases bounded with
      | false =>
        obtain ⟨-, hfind⟩ := hsearch.find?_findPrefixSubtree pfx (d := d) (Q := c.matchesPrefix pfx) fun _ hs => hs
        refine ⟨c.matchesPrefix pfx, fun s => by simp, congrArg (Option.map _) ?_⟩
        exact (extremeLeaf_eq _).trans hfind
      | true =>
        obtain ⟨hsub, hfind⟩ := hsearch.find?_findPrefixSubtree pfx (d := d)
          (Q := fun s => decide (decide (Beyond d boundary (c.leaf s).key) = true ∧ c.matchesPrefix pfx s = true))
          fun s hs => (of_decide_eq_true hs).2
        refine ⟨fun s => decide (decide (Beyond d boundary (c.leaf s).key) = true ∧ c.matchesPrefix pfx s = true),
          fun s => by simp, congrArg (Option.map _) ?_⟩
        exact (hsub.seekBeyond_eq (hb rfl)).trans (find?_filter.trans hfind)
  have hkeys : {k | k ∈ m ∧ pfx <+: k ∧ (bounded = true → Beyond d boundary k)} =
      {k | ∃ s ∈ c.slots, Q s = true ∧ (c.leaf s).key = k} := by
    ext k
    have hlive : k ∈ m ↔ ∃ s ∈ c.slots, (c.leaf s).deleted = false ∧ (c.leaf s).key = k := by
      rw [← h.refines.keys, h.keys_eq]
      simp [and_assoc]
    simp only [matchesPrefix, and_eq_true, not_eq_true', isPrefixOf_iff_prefix] at hQ
    constructor
    · rintro ⟨hk, hprefix, hbeyond⟩
      obtain ⟨s, hs, hdeleted, rfl⟩ := hlive.mp hk
      exact ⟨s, hs, (hQ s).mpr ⟨hbeyond, hdeleted, hprefix⟩, rfl⟩
    · rintro ⟨s, hs, hQs, rfl⟩
      obtain ⟨hbeyond, hdeleted, hprefix⟩ := (hQ s).mp hQs
      exact ⟨hlive.mpr ⟨s, hs, hdeleted, rfl⟩, hprefix, hbeyond⟩
  rw [hseek, hkeys]
  exact h.extreme_find? Q

/-- After every sequence of calls with keys of at most 2³² bytes the ordered lookups find
the extreme live keys with a start, and those next to a boundary of at most 2³² bytes. -/
theorem navigation_exact {D : Type} (evictDecider : Option (Bytes → Bool)) (evictActive : Bool)
    (decayEvery : Option Nat) {ops : List (Op D)} (hshort : ∀ op ∈ ops, op.Short) :
    ∃ c m, keytrie.runBoth ops (new evictDecider evictActive decayEvery, ∅) = some (c, m) ∧ ∀ pfx,
      Extreme false {k | k ∈ m ∧ pfx <+: k} (c.firstWithPrefix pfx) ∧
      Extreme true {k | k ∈ m ∧ pfx <+: k} (c.lastWithPrefix pfx) ∧
      ∀ boundary, pfx <+: boundary → boundary.length ≤ 2 ^ 32 →
        Extreme false {k | k ∈ m ∧ pfx <+: k ∧ boundary < k} (c.nextWithPrefix pfx boundary) ∧
        Extreme true {k | k ∈ m ∧ pfx <+: k ∧ k < boundary} (c.prevWithPrefix pfx boundary) := by
  obtain ⟨c, m, hrun, hmodels⟩ := (models_new evictDecider evictActive decayEvery).runBoth hshort
  refine ⟨c, m, hrun, fun pfx => ⟨?_, ?_, fun boundary hpfx hb => ?_⟩⟩
  · simpa [firstWithPrefix] using hmodels.extreme_seekPrefix pfx [] false false nofun
  · simpa [lastWithPrefix] using hmodels.extreme_seekPrefix pfx [] false true nofun
  · rw [nextWithPrefix, prevWithPrefix, isPrefixOf_iff_prefix.mpr hpfx]
    have hnext := hmodels.extreme_seekPrefix pfx boundary true false fun _ => hb
    have hprev := hmodels.extreme_seekPrefix pfx boundary true true fun _ => hb
    simp only [Beyond, forall_const, false_eq_true, if_false, if_true] at hnext hprev
    exact ⟨hnext, hprev⟩

/-- Before a boundary that is not a key, past a deleted one. -/
theorem navigation_exact_of_deleted : ∃ c m, keytrie.runBoth
      [.insert [1] none none 0, .insert [1, 2] none none 1, .deleteAndSnapshot [1, 2] none]
      ((new none true none : Critbit Nat), ∅) = some (c, m) ∧
      Extreme true {k | k ∈ m ∧ [1] <+: k ∧ k < [1, 3]} (c.prevWithPrefix [1] [1, 3]) := by
  have hshort : ∀ op ∈ ([.insert [1] none none 0, .insert [1, 2] none none 1, .deleteAndSnapshot [1, 2] none] :
      List (Op Nat)), op.Short := by
    intro op hop
    simp only [mem_cons, not_mem_nil, or_false] at hop
    obtain rfl | rfl | rfl := hop <;> simp [Op.Short]
  obtain ⟨c, m, hrun, hall⟩ := navigation_exact none true none hshort
  exact ⟨c, m, hrun, ((hall [1]).2.2 [1, 3] (by decide) (by decide)).2⟩

/-- The position at which the boundary goes on is zero in 32 bits. -/
theorem prevWithPrefix_wrapped (hn : 0 < n) (hwrap : n % 2 ^ 32 = 0) {c : Critbit Nat}
    {m : OrderedMap Nat} (hrun : keytrie.runBoth [.insert (replicate n 1) none none 0]
      (new none false none, ∅) = some (c, m)) :
    replicate n 1 ∈ m ∧ c.prevWithPrefix [] (replicate n 1 ++ [1]) = none := by
  have hcrit : findCritBit (replicate n 1 ++ [1]) (replicate n 1) = ⟨0, 254⟩ := by
    have hmoved := findCritBitFrom_replicate 0 n 1 [1] []
    rw [append_nil, Nat.zero_add] at hmoved
    rw [findCritBit, hmoved, findCritBitFrom, hwrap]
    rfl
  have hright : goesRight (replicate n 1) ⟨0, 254⟩ = true := by
    obtain ⟨n, rfl⟩ := Nat.exists_eq_succ_of_ne_zero hn.ne'
    simp [goesRight, getDirection, replicate_succ]
  have hne : (replicate n 1 : Bytes) ≠ replicate n 1 ++ [1] := by simp
  generalize (replicate n 1 ++ [1] : Bytes) = b at *
  generalize (replicate n 1 : Bytes) = a at *
  simp only [keytrie.runBoth, Critbit.apply, insert, insertNew, new, findBestMatch, linkLeaf, allocLeafNode, setLeaf,
    newLeaf, applyMap, map_none, filter_none, map_some, bind_some,
    some.injEq, Prod.mk.injEq] at hrun
  obtain ⟨rfl, rfl⟩ := hrun
  constructor
  · exact Finmap.mem_insert.mpr (.inl rfl)
  · simp [prevWithPrefix, seekPrefix, findPrefixSubtree, seekBeyond, boundaryPath, insertionPoint, climb, hne, hcrit,
      hright]

/-- The key of 2³² ones is not found before the one with another one at its end. -/
theorem navigation_misses_before_long_boundary : ¬ ∀ ops : List (Op Nat), (∀ op ∈ ops, op.Short) →
      ∃ c m, keytrie.runBoth ops (new none false none, ∅) = some (c, m) ∧ ∀ pfx boundary, pfx <+: boundary →
        Extreme true {k | k ∈ m ∧ pfx <+: k ∧ k < boundary} (c.prevWithPrefix pfx boundary) := by
  have hlt : ∀ a : Bytes, a < a ++ [1] := by
    intro a
    simpa using (append_left_lt (nil_lt_cons (1 : Fin 256) []) : a ++ [] < a ++ [1])
  intro hall
  obtain ⟨c, m, hrun, hprev⟩ := hall [.insert (replicate (2 ^ 32) 1) none none 0] (by
    intro op hop
    rw [mem_singleton.mp hop, Op.Short, length_replicate])
  obtain ⟨hkey, hnone⟩ := prevWithPrefix_wrapped (Nat.two_pow_pos 32) (Nat.mod_self _) hrun
  have hextreme := hprev [] (replicate (2 ^ 32) 1 ++ [1]) nil_prefix
  rw [hnone] at hextreme
  exact Set.eq_empty_iff_forall_notMem.mp hextreme _ ⟨hkey, nil_prefix, hlt _⟩

/-- A scan starts below a node whose leaves are in order, all those with the start among them. -/
theorem Models.scanned (h : Models c m) (pfx : Bytes) :
    ∃ found, (c.root.map (findPrefixSubtree pfx)).toList.flatMap leaves = found ∧
      (found.map fun s => (c.leaf s).key).Pairwise (· < ·) ∧
      ∀ Q : Nat → Bool, (∀ s, Q s = true → c.matchesPrefix pfx s = true) →
        ((∃ s ∈ found, Q s = true) ↔ ∃ s ∈ c.slots, Q s = true) := by
  refine ⟨_, rfl, ?_⟩
  cases hroot : c.root with
  | none => simp [slots, hroot, rootLeaves]
  | some t =>
    have hsearch : Searchable c t := ⟨h.wf t hroot, fun s hs => h.short s ((mem_slots_iff hroot).mpr hs)⟩
    have hfind := fun Q hQ => hsearch.find?_findPrefixSubtree pfx (d := false) (Q := Q) hQ
    obtain ⟨hsub, -⟩ := hfind (fun _ => false) (by simp)
    simp only [map_some, toList_some, flatMap_singleton, slots, hroot]
    refine ⟨hsub.wf.pairwise fun s hs s' hs' p => lt_of_goesLeft (hsub.short s hs) (hsub.short s' hs'), fun Q hQ => ?_⟩
    have hsome := congrArg isSome (hfind Q hQ).2
    rwa [Bool.eq_iff_iff, find?_isSome, find?_isSome] at hsome

/-- After every sequence of calls with keys of at most 2³² bytes, a scan that nothing interferes with
delivers the live keys with the start beyond the given key, each once and in order. -/
theorem rangeKeys_exact {D : Type} (evictDecider : Option (Bytes → Bool)) (evictActive : Bool)
    (decayEvery : Option Nat) {ops : List (Op D)} (hshort : ∀ op ∈ ops, op.Short) :
    ∃ c m, keytrie.runBoth ops (new evictDecider evictActive decayEvery, ∅) = some (c, m) ∧ ∀ pfx after,
      (c.rangeKeys pfx after).Pairwise (· < ·) ∧
      ∀ key, key ∈ c.rangeKeys pfx after ↔ key ∈ m ∧ pfx <+: key ∧ ∀ a, after = some a → a < key := by
  obtain ⟨c, m, hrun, h⟩ := (models_new evictDecider evictActive decayEvery).runBoth hshort
  refine ⟨c, m, hrun, fun pfx after => ?_⟩
  obtain ⟨found, hfound, hsorted, hmem⟩ := h.scanned pfx
  rw [rangeKeys, scanLoop_eq _ _ _ _ (hfound ▸ hsorted), hfound]
  refine ⟨hsorted.sublist (filter_sublist.map _), fun key => ?_⟩
  have hlive : key ∈ m ↔ ∃ s ∈ c.slots, (c.leaf s).deleted = false ∧ (c.leaf s).key = key := by
    rw [← h.refines.keys, h.keys_eq]
    simp [and_assoc]
  have hscan := hmem (fun s => c.matchesScan pfx after s && (c.leaf s).key == key) fun s hs => by
    simp only [matchesScan, matchesPrefix, and_eq_true] at hs ⊢
    exact ⟨hs.1.1.1, hs.1.2⟩
  simp only [List.mem_map, mem_filter, and_assoc, matchesScan, and_eq_true, beq_iff_eq, not_eq_true',
    Option.all_eq_true, decide_eq_true_eq, isPrefixOf_iff_prefix] at hscan ⊢
  rw [hscan, hlive]
  grind

/-- Seventy keys with a start in common and one without it; one of the seventy is deleted. -/
def manyKeys : List (Op Nat) :=
  (range 70).map (fun i => .insert [1, Fin.ofNat 256 i] none none i) ++
    [.insert [2] none none 70, .deleteAndSnapshot [1, 5] none]

/-- A scan from the fourth key on goes through two batches and delivers 66 keys. -/
theorem rangeKeys_exact_of_many_keys : ∃ c m, keytrie.runBoth manyKeys (new none true none, ∅) = some (c, m) ∧
    c.rangeKeys [1] (some [1, 2]) =
      ((range 70).filter (fun i => 2 < i ∧ i ≠ 5)).map (fun i => [1, Fin.ofNat 256 i]) := by
  let live : List Bytes := ((range 70).filter (· ≠ 5)).map (fun i => [1, Fin.ofNat 256 i]) ++ [[2]]
  have hlive : (keytrie.runBoth manyKeys (new none true none, ∅)).all (fun s => s.2.keys = live.toFinset) = true := by
    decide +kernel
  have hfilter : live.filter (fun key => [1].isPrefixOf key ∧ [1, 2] < key) =
      ((range 70).filter (fun i => 2 < i ∧ i ≠ 5)).map (fun i => [1, Fin.ofNat 256 i]) := by decide +kernel
  have hshort : ∀ op ∈ manyKeys, op.Short := by
    simp only [manyKeys, mem_append, List.mem_map, mem_cons, not_mem_nil, or_false]
    rintro op (⟨i, -, rfl⟩ | rfl | rfl) <;> simp [Op.Short]
  obtain ⟨c, m, hrun, hscan⟩ := rangeKeys_exact none true none hshort
  obtain ⟨hsorted, hmem⟩ := hscan [1] (some [1, 2])
  have hkeys : m.keys = live.toFinset := by simpa [hrun] using hlive
  refine ⟨c, m, hrun, hsorted.eq_of_mem_iff (by decide +kernel) fun key => ?_⟩
  rw [hmem, ← hfilter, mem_filter, ← Finmap.mem_keys, hkeys, List.mem_toFinset]
  simp

end Critbit

end swytch.keytrie
