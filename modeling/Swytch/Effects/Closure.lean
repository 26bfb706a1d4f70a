import Swytch.Effects.Losers
import Mathlib.Algebra.Order.BigOperators.Group.Finset

open swytch.proto List

namespace swytch.effects

variable (log : Log)

/-- The keys of the bind at a position. -/
def bindKeys (t : Tip) : List Bytes :=
  match log.lookup t with
  | none => []
  | some eff =>
    match eff.kind with
    | .txnBind bind => bind.keys.map KeyBind.key
    | _ => []

/-- The loop state of `bindKeyClosureFrom`. A pair of `anchors` is a bind envelope
found on another key; the last key queued comes first. -/
structure Closure where
  keys : List Bytes
  queue : List Bytes
  anchors : List (Bytes × Tip) := []
  visited : List (Bytes × Tip) := []
  verdicts : VerdictMap := fun _ => none

variable (tipsFor : Bytes → List Tip) (c : Closure) (key : Bytes)

namespace Closure

def onKey (locations : List (Bytes × Tip)) : List Tip :=
  (locations.filter (fun loc => loc.1 = key)).map Prod.snd

def bindsByKey : List Tip :=
  onKey key c.anchors

/-- A new anchor also queues a key that was explored before. -/
def addAnchor (t : Tip) (c : Closure) (other : Bytes) : Closure :=
  if other = key ∨ (other, t) ∈ c.anchors then c
  else
    { c with
      keys := if other ∈ c.keys then c.keys else c.keys ++ [other]
      queue := if other ∈ c.queue then c.queue else other :: c.queue
      anchors := c.anchors ++ [(other, t)] }

def visit (c : Closure) (t : Tip) : Closure :=
  (bindKeys log t).foldl (addAnchor key t)
    { c with visited := c.visited ++ [(key, t)], verdicts := harvest log c.verdicts t }

/-- The tips of a key that were not visited before, in the order of the walk. -/
def newTips : List Tip :=
  let visited := onKey key c.visited
  (walkHistory log key (tipsFor key ++ c.bindsByKey key) visited).drop visited.length

def explore : Closure :=
  (c.newTips log tipsFor key).foldl (visit log key) c

end Closure

def closureLoop (log : Log) (tipsFor : Bytes → List Tip) : Nat → Closure → Closure
  | 0, c => c
  | n + 1, c =>
    match c.queue with
    | [] => c
    | key :: queue => closureLoop log tipsFor n (Closure.explore log tipsFor { c with queue := queue } key)

/-- The number of anchors there can be. -/
def anchorBound : Nat :=
  log.keys.sum (fun t => (bindKeys log t).length)

/-- The keys linked to `key` by binds, with the binds and verdicts found on the way.
Every queued key is `key` or has a new anchor, which bounds the loop. -/
def bindKeyClosure : Closure :=
  closureLoop log tipsFor (1 + anchorBound log) { keys := [key], queue := [key] }

/-- The transactions whose writes a read of `key` leaves out. -/
def atomicallyLost (rt : Runtime) (log : Log) (tipsFor : Bytes → List Tip) (isInvisible : Bytes → Bool)
    (probes : Bytes → List Tip) (key txnID : Bytes) : Bool :=
  let c := bindKeyClosure log tipsFor key
  c.verdicts txnID = some .lost ∨
    c.keys.any fun k =>
      txnID ∈ losersOnKeyAt rt log k (tipsFor k) (c.bindsByKey k) c.verdicts isInvisible (probes k)

/-- The locations of the closure: the tips of every key in it, what lies below them,
and the binds found there on each of their keys. -/
inductive Visits (log : Log) (tipsFor : Bytes → List Tip) (start : Bytes) : Bytes → Tip → Prop
  | tip {t : Tip} : t ∈ tipsFor start → Visits log tipsFor start start t
  | dep {key : Bytes} {t u : Tip} : Visits log tipsFor start key t → u ∈ historyDeps log key t →
      Visits log tipsFor start key u
  | anchor {key other : Bytes} {t : Tip} : Visits log tipsFor start key t → other ∈ bindKeys log t →
      Visits log tipsFor start other t
  | linked {key other : Bytes} {t u : Tip} : Visits log tipsFor start key t → other ∈ bindKeys log t →
      u ∈ tipsFor other → Visits log tipsFor start other u

/-- The binds a key is entered through. -/
def Anchored (start other : Bytes) (t : Tip) : Prop :=
  ∃ key, Visits log tipsFor start key t ∧ other ∈ bindKeys log t ∧ other ≠ key

namespace Closure

theorem mem_onKey_iff {key : Bytes} {locations : List (Bytes × Tip)} {t : Tip} :
    t ∈ onKey key locations ↔ (key, t) ∈ locations := by
  simp [onKey]

/-- What exploring a key adds: anchors, each of which queues its key. -/
structure Grows (c c' : Closure) : Prop where
  queue : ∀ {k}, k ∈ c.queue → k ∈ c'.queue
  anchors : ∀ {a}, a ∈ c.anchors → a ∈ c'.anchors
  fresh : ∀ {k t}, (k, t) ∈ c'.anchors → (k, t) ∈ c.anchors ∨ k ∈ c'.queue
  room : c'.queue.length + c.anchors.length ≤ c.queue.length + c'.anchors.length

/-- The keys are the first ones and those with an anchor, and no anchor is kept twice. -/
structure Ledger (start : List Bytes) (c : Closure) : Prop where
  mem_keys : ∀ {k}, k ∈ c.keys ↔ k ∈ start ∨ ∃ t, (k, t) ∈ c.anchors
  queue : ∀ {k}, k ∈ c.queue → k ∈ c.keys
  nodup : c.anchors.Nodup

theorem Grows.refl : Grows c c :=
  ⟨id, id, .inl, le_rfl⟩

theorem Grows.trans {c₁ c₂ c₃ : Closure} (h₁₂ : Grows c₁ c₂) (h₂₃ : Grows c₂ c₃) : Grows c₁ c₃ := by
  refine ⟨fun hk => h₂₃.queue (h₁₂.queue hk), fun ha => h₂₃.anchors (h₁₂.anchors ha), fun ha => ?_, ?_⟩
  · rcases h₂₃.fresh ha with ha | hk
    · exact (h₁₂.fresh ha).imp id h₂₃.queue
    · exact .inr hk
  · have h := h₁₂.room
    have h' := h₂₃.room
    omega

theorem grows_addAnchor (t : Tip) (c : Closure) (other : Bytes) : Grows c (addAnchor key t c other) := by
  unfold addAnchor
  split
  · exact Grows.refl c
  · refine ⟨fun hk => ?_, fun ha => mem_append_left _ ha, fun ha => ?_, ?_⟩
    · dsimp only
      split
      · exact hk
      · exact mem_cons_of_mem _ hk
    · rcases mem_append.mp ha with hold | hnew
      · exact .inl hold
      · obtain ⟨rfl, rfl⟩ := Prod.mk.inj (mem_singleton.mp hnew)
        refine .inr ?_
        dsimp only
        split
        · assumption
        · exact mem_cons_self
    · dsimp only
      split
      · simp
      · simp
        omega

theorem mem_anchors_addAnchor {key : Bytes} {t : Tip} {c : Closure} {other : Bytes} {a : Bytes × Tip} :
    a ∈ (addAnchor key t c other).anchors ↔ a ∈ c.anchors ∨ (a = (other, t) ∧ other ≠ key) := by
  unfold addAnchor
  split
  · rename_i hskip
    constructor
    · exact .inl
    · rintro (hold | ⟨rfl, hne⟩)
      · exact hold
      · exact hskip.resolve_left hne
  · rename_i hadd
    obtain ⟨hne, -⟩ := not_or.mp hadd
    simp [hne]

theorem ledger_addAnchor {start : List Bytes} {c : Closure} (hledger : Ledger start c) (key : Bytes) (t : Tip)
    (other : Bytes) : Ledger start (addAnchor key t c other) := by
  unfold addAnchor
  split
  · exact hledger
  · rename_i hadd
    obtain ⟨-, hfresh⟩ := not_or.mp hadd
    have hkeys : ∀ k, k ∈ (if other ∈ c.keys then c.keys else c.keys ++ [other]) ↔ k ∈ c.keys ∨ k = other := by
      intro k
      split
      · rename_i hother
        exact ⟨.inl, fun h => h.elim id (fun heq => heq ▸ hother)⟩
      · simp
    refine ⟨fun {k} => ?_, fun {k} hk => ?_, ?_⟩
    · rw [hkeys, hledger.mem_keys]
      simp only [mem_append, mem_singleton, Prod.mk.injEq, exists_or]
      rw [or_assoc]
      refine or_congr_right (or_congr_right ?_)
      exact ⟨fun h => ⟨t, h, rfl⟩, fun ⟨_, h, _⟩ => h⟩
    · rw [hkeys]
      dsimp only at hk
      split at hk
      · exact .inl (hledger.queue hk)
      · rcases mem_cons.mp hk with rfl | hk
        · exact .inr rfl
        · exact .inl (hledger.queue hk)
    · exact nodup_append'.mpr ⟨hledger.nodup, nodup_singleton _, by simpa using hfresh⟩

/-- What exploring a key with the tips `new` leaves behind. -/
structure Explored (log : Log) (start : List Bytes) (key : Bytes) (c c' : Closure) (new : List Tip) : Prop where
  grows : Grows c c'
  ledger : Ledger start c → Ledger start c'
  mem_anchors : ∀ {o t}, (o, t) ∈ c'.anchors ↔
    (o, t) ∈ c.anchors ∨ (t ∈ new ∧ o ∈ bindKeys log t ∧ o ≠ key)
  visited : c'.visited = c.visited ++ new.map (fun t => (key, t))
  verdicts : c'.verdicts = new.foldl (harvest log) c.verdicts

theorem foldl_addAnchor (t : Tip) (others : List Bytes) (c : Closure) : Grows c (others.foldl (addAnchor key t) c) ∧
      (∀ start, Ledger start c → Ledger start (others.foldl (addAnchor key t) c)) ∧
      (∀ {a}, a ∈ (others.foldl (addAnchor key t) c).anchors ↔ a ∈ c.anchors ∨ (a.2 = t ∧ a.1 ∈ others ∧ a.1 ≠ key)) ∧
      (others.foldl (addAnchor key t) c).visited = c.visited ∧
      (others.foldl (addAnchor key t) c).verdicts = c.verdicts := by
  induction others generalizing c with
  | nil => exact ⟨Grows.refl c, fun _ h => h, by simp, rfl, rfl⟩
  | cons other others ih =>
    obtain ⟨hgrows, hledger, hmem, hvisited, hverdicts⟩ := ih (addAnchor key t c other)
    have hsame : (addAnchor key t c other).visited = c.visited ∧
        (addAnchor key t c other).verdicts = c.verdicts := by
      unfold addAnchor
      split <;> exact ⟨rfl, rfl⟩
    refine ⟨(grows_addAnchor key t c other).trans hgrows,
      fun start h => hledger start (ledger_addAnchor h key t other), fun {a} => ?_,
      hvisited.trans hsame.1, hverdicts.trans hsame.2⟩
    rw [foldl_cons, hmem, mem_anchors_addAnchor, or_assoc]
    refine or_congr_right ?_
    obtain ⟨o, u⟩ := a
    simp only [Prod.mk.injEq, mem_cons]
    constructor
    · rintro (⟨⟨rfl, rfl⟩, hne⟩ | ⟨rfl, ho, hne⟩)
      · exact ⟨rfl, .inl rfl, hne⟩
      · exact ⟨rfl, .inr ho, hne⟩
    · rintro ⟨rfl, rfl | ho, hne⟩
      · exact .inl ⟨⟨rfl, rfl⟩, hne⟩
      · exact .inr ⟨rfl, ho, hne⟩

theorem explored_foldl_visit (start : List Bytes) (key : Bytes) (new : List Tip) (c : Closure) :
    Explored log start key c (new.foldl (visit log key) c) new := by
  induction new generalizing c with
  | nil => exact ⟨Grows.refl c, id, by simp, by simp, rfl⟩
  | cons t new ih =>
    obtain ⟨hgrows, hledger, hmem, hvisited, hverdicts⟩ := foldl_addAnchor key t (bindKeys log t)
      { c with visited := c.visited ++ [(key, t)], verdicts := harvest log c.verdicts t }
    have hrest := ih (visit log key c t)
    refine ⟨?_, fun h => hrest.ledger (hledger start ⟨h.mem_keys, h.queue, h.nodup⟩), fun {o u} => ?_, ?_, ?_⟩
    · exact Grows.trans ⟨hgrows.queue, hgrows.anchors, hgrows.fresh, hgrows.room⟩ hrest.grows
    · have hfirst : (o, u) ∈ (visit log key c t).anchors ↔
          (o, u) ∈ c.anchors ∨ (u = t ∧ o ∈ bindKeys log t ∧ o ≠ key) := hmem
      rw [foldl_cons, hrest.mem_anchors, hfirst, or_assoc]
      refine or_congr_right ?_
      simp only [mem_cons]
      constructor
      · rintro (⟨rfl, ho⟩ | ⟨hu, ho⟩)
        · exact ⟨.inl rfl, ho⟩
        · exact ⟨.inr hu, ho⟩
      · rintro ⟨rfl | hu, ho⟩
        · exact .inl ⟨rfl, ho⟩
        · exact .inr ⟨hu, ho⟩
    · have hfirst : (visit log key c t).visited = c.visited ++ [(key, t)] := hvisited
      rw [foldl_cons, hrest.visited, hfirst, map_cons, append_assoc]
      rfl
    · have hfirst : (visit log key c t).verdicts = harvest log c.verdicts t := hverdicts
      rw [foldl_cons, hrest.verdicts, hfirst, foldl_cons]

end Closure

end swytch.effects
