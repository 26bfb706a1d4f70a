import Swytch.Keytrie.Critbit.Preserve

open swytch.lib swytch.proto List Finmap
open Option hiding mem_map

namespace swytch.keytrie

open Critbit

open CritTree

variable {D : Type} {c : Critbit D} {m : OrderedMap D}

namespace Critbit

/-- A batch consists of the matching leaves in front of what is left. -/
theorem scanBatch_spec (c : Critbit D) (pfx : Bytes) (after : Option Bytes) (room : Nat) (stack : List Trie) :
    ∃ consumed : List Nat,
      stack.flatMap leaves = consumed ++ (c.scanBatch pfx after room stack).2.flatMap leaves ∧
      (c.scanBatch pfx after room stack).1 =
        (consumed.filter (c.matchesScan pfx after)).map (fun s => (c.leaf s).key) := by
  fun_induction scanBatch c pfx after room stack with
  | case1 stack => exact ⟨[], rfl, rfl⟩
  | case2 room => exact ⟨[], rfl, rfl⟩
  | case3 room s stack hmatch rest ih =>
    obtain ⟨consumed, hleaves, hkeys⟩ := ih
    refine ⟨s :: consumed, ?_, ?_⟩
    · rw [flatMap_cons, hleaves]
      rfl
    · rw [filter_cons_of_pos hmatch, map_cons, ← hkeys]
  | case4 room s stack hmatch ih =>
    obtain ⟨consumed, hleaves, hkeys⟩ := ih
    refine ⟨s :: consumed, ?_, ?_⟩
    · rw [flatMap_cons, hleaves]
      rfl
    · rw [filter_cons_of_neg hmatch, hkeys]
  | case5 room n p l r stack ih =>
    obtain ⟨consumed, hleaves, hkeys⟩ := ih
    refine ⟨consumed, ?_, hkeys⟩
    rw [← hleaves]
    simp [leaves]

/-- Over keys in order, the batches make up the whole scan. -/
theorem scanLoop_eq (c : Critbit D) (pfx : Bytes) (after : Option Bytes) (stack : List Trie)
    (hsorted : ((stack.flatMap leaves).map (fun s => (c.leaf s).key)).Pairwise (· < ·)) :
    c.scanLoop pfx after stack =
      ((stack.flatMap leaves).filter (c.matchesScan pfx after)).map (fun s => (c.leaf s).key) := by
  fun_induction scanLoop c pfx after stack with
  | case1 after => rfl
  | case2 after t stack batch ih =>
    obtain ⟨consumed, hleaves, hkeys⟩ := scanBatch_spec c pfx after 64 (t :: stack)
    change (t :: stack).flatMap _ = consumed ++ batch.2.flatMap _ at hleaves
    change batch.1 = _ at hkeys
    rw [hleaves, map_append, pairwise_append] at hsorted
    rw [ih hsorted.2.1, hleaves, filter_append, map_append, ← hkeys]
    congr 2
    apply filter_congr
    intro s hs
    cases hlast : batch.1.getLast? with
    | none => rfl
    | some k =>
      -- the last key of the batch lies between the old bound and what is left
      have hk : k ∈ batch.1 := mem_of_getLast? hlast
      have hbeyond : k < (c.leaf s).key := by
        apply hsorted.2.2 k
        · rw [hkeys] at hk
          exact (filter_sublist.map _).subset hk
        · exact mem_map.mpr ⟨s, hs, rfl⟩
      have hafter : ∀ a, after = some a → a < (c.leaf s).key := by
        intro a ha
        rw [hkeys] at hk
        obtain ⟨s', hs', rfl⟩ := mem_map.mp hk
        have hmatch := (mem_filter.mp hs').2
        simp only [matchesScan, ha, all_some, Bool.and_eq_true, decide_eq_true_eq] at hmatch
        exact lt_trans hmatch.1.2 hbeyond
      cases after with
      | none => simp [matchesScan, hbeyond]
      | some a => simp [matchesScan, hbeyond, hafter a rfl]

theorem findPrefixSubtree_nil (t : Trie) : findPrefixSubtree [] t = t := by
  cases t with
  | leaf s => rfl
  | node n p l r => simp [findPrefixSubtree]

theorem Models.sorted (h : Models c m) : (c.slots.map (fun s => (c.leaf s).key)).Pairwise (· < ·) := by
  have hshort := h.short
  unfold slots at hshort ⊢
  cases hroot : c.root with
  | none => exact List.Pairwise.nil
  | some t =>
    rw [hroot] at hshort
    apply (h.wf t hroot).pairwise
    intro s hs s' hs' p hcrit hleft
    exact lt_of_goesLeft (hshort s hs) (hshort s' hs') hcrit hleft

theorem Models.keys_eq (h : Models c m) :
    c.keys = (c.slots.filter (fun s => !(c.leaf s).deleted)).map (fun s => (c.leaf s).key) := by
  have hstack : ((c.root.map (findPrefixSubtree [])).toList).flatMap leaves = c.slots := by
    unfold slots
    cases c.root with
    | none => rfl
    | some t => simp [findPrefixSubtree_nil, rootLeaves]
  unfold keys rangeKeys
  rw [scanLoop_eq, hstack]
  · congr 2
    funext s
    simp [matchesScan]
  · rw [hstack]
    exact h.sorted

end Critbit

/-- The calls on a trie, and the work that goes on in the background. `now` is the time of
a call, and `swept` are the slots that a sweep passes. -/
inductive Op (D : Type) where
  | insert (key : Bytes) (old new : Option TipSetPtr) (now : Nat)
  | removeTips (key : Bytes) (refs : List EffectRef) (addr : Nat)
  | loadData (key : Bytes) (now : Nat)
  | loadOrStoreData (key : Bytes) (value : D) (now : Nat)
  | deleteAndSnapshot (key : Bytes) (old : Option TipSetPtr)
  | evictBatch (want : Nat) (threshold : Int) (swept : List Nat)
  | drainReap
  | reap
  | evacuateLeafBatch (batch : List Nat)
  | evacuateInternalBatch (batch : List Nat)

/-- The keys that are inserted have positions of 32 bits. -/
def Op.Short {D : Type} : Op D → Prop
  | .insert key _ _ _ => key.length ≤ 2 ^ 32
  | _ => True

/-- What a call reports of its effect: whether an insert was accepted, and the victims of
an eviction. -/
structure Outcome (D : Type) where
  accepted : Bool := true
  victims : List (EvictedLeaf D) := []

def Critbit.apply {D : Type} (c : Critbit D) : Op D → Option (Critbit D × Outcome D)
  | .insert key old new now => (c.insert key old new now).map fun r => (r.1, { accepted := r.2.2 })
  | .removeTips key refs addr => some (c.removeTips key refs addr, {})
  | .loadData key now => some ((c.loadData key now).1, {})
  | .loadOrStoreData key value now => some ((c.loadOrStoreData key value now).1, {})
  | .deleteAndSnapshot key old => some ((c.deleteAndSnapshot key old).1, {})
  | .evictBatch want threshold swept =>
    let r := c.evictBatch want threshold swept
    some (r.1, { victims := r.2.1 })
  | .drainReap => some (c.drainReap, {})
  | .reap => some (c.reap, {})
  | .evacuateLeafBatch batch => some (c.evacuateLeafBatch batch, {})
  | .evacuateInternalBatch batch => some (c.evacuateInternalBatch batch, {})

/-- The effect on the map: reaping, evacuation and inserts that are rejected have none. An insert
swaps the tips of a live key if they are the expected ones, and stores an absent key that is
expected to be absent. Where an absent key is expected to have tips, what the trie did counts. -/
def applyMap {D : Type} (m : OrderedMap D) (op : Op D) (outcome : Outcome D) : OrderedMap D :=
  match op with
  | .insert key old new _ =>
    match m.lookup key with
    | some e => if e.tips = old then m.insert key ⟨new, e.data⟩ else m
    | none => if old = none ∨ outcome.accepted then m.insert key ⟨new, none⟩ else m
  | .removeTips key refs addr =>
    (m.lookup key).elim m fun e => e.tips.elim m fun current =>
      if (current.set.removeTips refs).tips.length = current.set.tips.length then m
      else m.insert key { e with tips := some ⟨addr, current.set.removeTips refs⟩ }
  | .loadOrStoreData key value _ =>
    (m.lookup key).elim m fun e => m.insert key { e with data := some (e.data.getD value) }
  | .deleteAndSnapshot key old => (m.lookup key).elim m fun e => if e.tips = old then m.erase key else m
  | .evictBatch _ _ _ => withoutVictims m outcome.victims
  | .loadData _ _ => m
  | .drainReap => m
  | .reap => m
  | .evacuateLeafBatch _ => m
  | .evacuateInternalBatch _ => m

/-- What a call may report where the map is `m`: an insert is accepted if the key has the expected
tips and rejected if it is live with others, and an eviction takes no more than the wanted
number of keys, each once and with what the map has for it. -/
def Permits {D : Type} (m : OrderedMap D) (op : Op D) (outcome : Outcome D) : Prop :=
  match op with
  | .insert key old _ _ =>
    match m.lookup key with
    | some e => outcome.accepted = true ↔ e.tips = old
    | none => old = none → outcome.accepted = true
  | .evictBatch want _ _ => Taken m outcome.victims ∧ outcome.victims.length ≤ want
  | _ => True

/-- A trie and a map go through the same calls; fails if a call does not return. -/
def runBoth {D : Type} : List (Op D) → Critbit D × OrderedMap D → Option (Critbit D × OrderedMap D)
  | [], s => some s
  | op :: ops, s => (s.1.apply op).bind fun r => runBoth ops (r.1, applyMap s.2 op r.2)

/-- Every call of a run reports what the map permits. -/
def Permitted {D : Type} : List (Op D) → Critbit D × OrderedMap D → Prop
  | [], _ => True
  | op :: ops, s => ∃ c outcome, s.1.apply op = some (c, outcome) ∧ Permits s.2 op outcome ∧
      Permitted ops (c, applyMap s.2 op outcome)

/-- A trie answers like a map, and lists its keys in order. -/
structure Refines {D : Type} (c : Critbit D) (m : OrderedMap D) : Prop where
  contains : ∀ key, c.contains key = (m.lookup key).bind Entry.tips
  loadData : ∀ key now, (c.loadData key now).2 = (m.lookup key).bind Entry.data
  sorted : c.keys.Pairwise (· < ·)
  keys : ∀ key, key ∈ c.keys ↔ key ∈ m

namespace Critbit

theorem Models.refines (h : Models c m) : Refines c m := by
  refine ⟨h.contains_eq, h.loadData_eq, ?_, ?_⟩
  · rw [h.keys_eq]
    exact h.sorted.sublist (filter_sublist.map _)
  · intro key
    rw [h.keys_eq, mem_map, mem_iff]
    constructor
    · rintro ⟨s, hs, rfl⟩
      obtain ⟨hs, hlive⟩ := mem_filter.mp hs
      refine ⟨⟨(c.leaf s).tips, (c.leaf s).data⟩, ?_⟩
      rw [h.present s hs, Leaf.entry, if_neg (by simpa using hlive)]
    · rintro ⟨e, he⟩
      by_contra hnot
      by_cases hkey : ∃ s ∈ c.slots, (c.leaf s).key = key
      · obtain ⟨s, hs, rfl⟩ := hkey
        have hdeleted : (c.leaf s).deleted = true := by
          by_contra hlive
          exact hnot ⟨s, mem_filter.mpr ⟨hs, by simpa using hlive⟩, rfl⟩
        rw [h.present s hs, Leaf.entry, if_pos hdeleted] at he
        cases he
      · rw [h.absent key fun s hs heq => hkey ⟨s, hs, heq⟩] at he
        cases he

/-- The outcome of an insert where the key has a leaf: the tips were stored exactly if the
caller passed the current ones. -/
theorem Models.insert_linked (h : Models c m) {s : Nat} (hs : s ∈ c.slots)
    (hfound : (findBestMatch c.root (c.leaf s).key).filter (fun s' => (c.leaf s').key == (c.leaf s).key) = some s)
    (old new : Option TipSetPtr) (now : Nat) :
    ∃ c' conflict stored, c.insert (c.leaf s).key old new now = some (c', conflict, stored) ∧
      (stored = true ↔ old = c.contains (c.leaf s).key) ∧
      (stored = false → c' = c ∧ conflict = c.contains (c.leaf s).key) := by
  have hcontains : c.contains (c.leaf s).key = (c.leaf s).tips := by
    rw [h.contains_eq, h.present s hs, Leaf.entry]
    cases hdeleted : (c.leaf s).deleted with
    | false => rfl
    | true => exact (h.empty s hs hdeleted).1.symm
  unfold insert
  rw [hfound, hcontains]
  dsimp only
  by_cases hcas : (c.leaf s).tips = if old.isNone ∧ (c.leaf s).deleted then (c.leaf s).tips else old
  · rw [if_pos hcas]
    refine ⟨_, none, true, rfl, ⟨fun _ => ?_, fun _ => rfl⟩, fun hfail => Bool.noConfusion hfail⟩
    split at hcas
    · rename_i hdead
      rw [(h.empty s hs hdead.2).1]
      exact isNone_iff_eq_none.mp hdead.1
    · exact hcas.symm
  · rw [if_neg hcas]
    refine ⟨c, _, false, rfl, ⟨fun hstored => Bool.noConfusion hstored, fun hold => ?_⟩, fun _ => ⟨rfl, rfl⟩⟩
    rw [hold] at hcas
    exact absurd (ite_self _).symm hcas

/-- Without a leaf the caller's tips are not looked at. -/
theorem insert_unlinked {key : Bytes} {old new conflict : Option TipSetPtr} {now : Nat} {c' : Critbit D}
    {accepted : Bool} (hfound : (findBestMatch c.root key).filter (fun s => (c.leaf s).key == key) = none)
    (hinsert : c.insert key old new now = some (c', conflict, accepted)) : accepted = true := by
  unfold insert at hinsert
  rw [hfound] at hinsert
  obtain ⟨c₁, -, hc₁⟩ := map_eq_some_iff.mp hinsert
  rw [Prod.mk.injEq, Prod.mk.injEq] at hc₁
  exact hc₁.2.2.symm

/-- The map tells whether an insert is accepted, but for an absent key with tips expected of it. -/
theorem Models.insert_permits (h : Models c m) {key : Bytes} {old new conflict : Option TipSetPtr} {now : Nat}
    {c' : Critbit D} {accepted : Bool} (hinsert : c.insert key old new now = some (c', conflict, accepted)) :
    Permits m (.insert key old new now) { accepted := accepted } := by
  rcases h.findBestMatch_cases key with ⟨s, hs, rfl, hfound⟩ | ⟨habsent, hfound⟩
  · obtain ⟨c₁, conflict₁, stored₁, hinsert₁, hiff, -⟩ := h.insert_linked hs hfound old new now
    obtain ⟨-, -, rfl⟩ : c' = c₁ ∧ conflict = conflict₁ ∧ accepted = stored₁ := by
      rw [hinsert, some.injEq, Prod.mk.injEq, Prod.mk.injEq] at hinsert₁
      exact hinsert₁
    rw [h.contains_eq] at hiff
    unfold Permits
    dsimp only
    cases hlookup : m.lookup (c.leaf s).key with
    | none =>
      rw [hlookup] at hiff
      exact hiff.mpr
    | some e =>
      rw [hlookup, bind_some, eq_comm (a := old)] at hiff
      exact hiff
  · unfold Permits
    dsimp only
    rw [h.absent key habsent]
    exact fun _ => insert_unlinked hfound hinsert

theorem applyMap_insert {key : Bytes} {old new : Option TipSetPtr} {now : Nat} {outcome : Outcome D}
    (hpermits : Permits m (.insert key old new now) outcome) : applyMap m (.insert key old new now) outcome =
      if outcome.accepted then m.insert key ⟨new, (m.lookup key).bind Entry.data⟩ else m := by
  unfold Permits at hpermits
  unfold applyMap
  dsimp only at hpermits ⊢
  cases hlookup : m.lookup key with
  | none =>
    rw [hlookup] at hpermits
    simp only [bind_none]
    by_cases hold : old = none
    · rw [if_pos (.inl hold), if_pos (hpermits hold)]
    · simp only [hold, false_or]
  | some e =>
    rw [hlookup] at hpermits
    simp only [bind_some, ← hpermits]

/-- The leaves that a call lets die. -/
def Dies {D : Type} : Op D → Leaf D → Prop
  | .deleteAndSnapshot key _, leaf => leaf.key = key
  | _, leaf => leaf.pins = 0

/-- Every call returns, reports what the map permits and has its effect on the map. -/
theorem Reached.apply {P : Leaf D → Prop} {x : Critbit D × OrderedMap D} (h : Reached P x c m) {op : Op D}
    (hshort : op.Short) (hP : ∀ leaf : Leaf D, Dies op leaf → P leaf) :
    ∃ c' outcome, c.apply op = some (c', outcome) ∧ Permits m op outcome ∧
      Reached P x c' (applyMap m op outcome) := by
  cases op with
  | insert key old new now =>
    obtain ⟨c', conflict, accepted, hinsert, hreached⟩ := h.insert hshort old new now
    have hpermits := h.models.insert_permits hinsert
    refine ⟨c', { accepted := accepted }, ?_, hpermits, ?_⟩
    · rw [Critbit.apply, hinsert]
      rfl
    · rw [applyMap_insert hpermits]
      exact hreached
  | removeTips key refs addr => exact ⟨_, _, rfl, trivial, h.removeTips key refs addr⟩
  | loadData key now => exact ⟨_, _, rfl, trivial, h.loadData key now⟩
  | loadOrStoreData key value now => exact ⟨_, _, rfl, trivial, h.loadOrStoreData key value now⟩
  | deleteAndSnapshot key old => exact ⟨_, _, rfl, trivial, h.deleteAndSnapshot hP old⟩
  | evictBatch want threshold swept =>
    obtain ⟨hreached, hpermits⟩ := h.evictBatch hP want threshold swept
    exact ⟨_, _, rfl, hpermits, hreached⟩
  | drainReap => exact ⟨_, _, rfl, trivial, h.drainReap⟩
  | reap => exact ⟨_, _, rfl, trivial, h.reap⟩
  | evacuateLeafBatch batch => exact ⟨_, _, rfl, trivial, foldl (fun h s => h.evacuateLeaf s) h batch⟩
  | evacuateInternalBatch batch => exact ⟨_, _, rfl, trivial, foldl (fun h n => h.relocateInternal n) h batch⟩

theorem Models.apply (h : Models c m) {op : Op D} (hshort : op.Short) :
    ∃ c' outcome, c.apply op = some (c', outcome) ∧ Permits m op outcome ∧ Models c' (applyMap m op outcome) := by
  obtain ⟨c', outcome, happly, hpermits, hreached⟩ := (h.reached (Dies op)).apply hshort fun _ hdies => hdies
  exact ⟨c', outcome, happly, hpermits, hreached.models⟩

theorem Models.permitted (h : Models c m) {ops : List (Op D)} (hshort : ∀ op ∈ ops, op.Short) :
    Permitted ops (c, m) := by
  induction ops generalizing c m with
  | nil => trivial
  | cons op ops ih =>
    obtain ⟨c', outcome, happly, hpermits, hmodels⟩ := h.apply (hshort op mem_cons_self)
    exact ⟨c', outcome, happly, hpermits, ih hmodels fun op' hop' => hshort op' (mem_cons_of_mem _ hop')⟩

theorem Models.runBoth (h : Models c m) {ops : List (Op D)} (hshort : ∀ op ∈ ops, op.Short) :
    ∃ c' m', runBoth ops (c, m) = some (c', m') ∧ Models c' m' := by
  induction ops generalizing c m with
  | nil => exact ⟨c, m, rfl, h⟩
  | cons op ops ih =>
    obtain ⟨c', outcome, happly, -, hmodels⟩ := h.apply (hshort op mem_cons_self)
    obtain ⟨c'', m'', hrun, hmodels'⟩ := ih hmodels fun op' hop' => hshort op' (mem_cons_of_mem _ hop')
    refine ⟨c'', m'', ?_, hmodels'⟩
    rw [keytrie.runBoth, happly]
    exact hrun

/-- A new trie. -/
def new {D : Type} (evictDecider : Option (Bytes → Bool)) (evictActive : Bool) (decayEvery : Option Nat) : Critbit D :=
  { evictDecider := evictDecider, evictActive := evictActive, decayEvery := decayEvery }

theorem models_new (evictDecider : Option (Bytes → Bool)) (evictActive : Bool) (decayEvery : Option Nat) :
    Models (new evictDecider evictActive decayEvery : Critbit D) ∅ := by
  constructor
  · exact nofun
  · exact nofun
  · exact nofun
  · exact nofun
  · exact fun _ _ => rfl
  · exact nofun
  · exact fun key _ => lookup_empty key

/-- Through every sequence of calls with keys of at most 2³² bytes a trie reports what the map
permits and answers like the map. -/
theorem refines_ordered_map {D : Type} (evictDecider : Option (Bytes → Bool)) (evictActive : Bool)
    (decayEvery : Option Nat) {ops : List (Op D)} (hshort : ∀ op ∈ ops, op.Short) :
    Permitted ops (new evictDecider evictActive decayEvery, ∅) ∧
      ∃ c m, keytrie.runBoth ops (new evictDecider evictActive decayEvery, ∅) = some (c, m) ∧ Refines c m := by
  have hnew : Models (new evictDecider evictActive decayEvery : Critbit D) ∅ := models_new _ _ _
  obtain ⟨c, m, hrun, hmodels⟩ := hnew.runBoth hshort
  exact ⟨hnew.permitted hshort, c, m, hrun, hmodels.refines⟩

/-- An eviction, an insert that conflicts, and the reaping of a deleted key. -/
def shortRun : List (Op Nat) :=
  [.insert [1] none (some ⟨0, .empty⟩) 0, .insert [1, 0] none none 1, .insert [2] none none 1,
    .insert [1] none none 2, .evictBatch 1 5 [1], .deleteAndSnapshot [1] (some ⟨0, .empty⟩), .reap]

theorem refines_ordered_map_of_short_run : Permitted shortRun (new none true none, ∅) ∧ ∃ c m,
    keytrie.runBoth shortRun (new none true none, ∅) = some (c, m) ∧ Refines c m ∧ c.keys = [[2]] := by
  obtain ⟨hpermitted, c, m, hrun, hrefines⟩ := @refines_ordered_map Nat none true none shortRun
    (by simp [shortRun, Op.Short])
  have hkeys : (keytrie.runBoth shortRun (new none true none, ∅)).all (fun s => s.1.keys = [[2]]) = true := by
    decide +kernel
  refine ⟨hpermitted, c, m, hrun, hrefines, ?_⟩
  rw [hrun] at hkeys
  simpa using hkeys

theorem findCritBitFrom_replicate (i n : Nat) (x : Fin 256) (a b : Bytes) :
    findCritBitFrom i (replicate n x ++ a) (replicate n x ++ b) = findCritBitFrom (i + n) a b := by
  induction n generalizing i with
  | zero => rfl
  | succ n ih =>
    rw [replicate_succ, cons_append, cons_append, findCritBitFrom, if_pos rfl, ih]
    congr 1
    omega

theorem goesRight_zero_byte {n : Nat} (hn : 0 < n) (a : Bytes) : goesRight (replicate n 0 ++ a) ⟨0, 254⟩ = false := by
  obtain ⟨n, rfl⟩ := Nat.exists_eq_succ_of_ne_zero hn.ne'
  simp [goesRight, getDirection, replicate_succ]

/-- Two keys that first differ at a position which is zero in 32 bits: the second takes the
place of the first. -/
theorem runBoth_wrapped {n : Nat} (hn : 0 < n) (hwrap : n % 2 ^ 32 = 0) {tips : TipSetPtr}
    {c : Critbit Nat} {m : OrderedMap Nat} (hrun : keytrie.runBoth
      [.insert (replicate n 0 ++ [0]) none (some tips) 0, .insert (replicate n 0 ++ [1]) none (some tips) 0]
      (new none false none, ∅) = some (c, m)) : c.contains (replicate n 0 ++ [0]) = none ∧
      (m.lookup (replicate n 0 ++ [0])).bind Entry.tips = some tips := by
  have hne : (replicate n 0 ++ [0] : Bytes) ≠ replicate n 0 ++ [1] := by simp
  have hcrit : findCritBit (replicate n 0 ++ [1]) (replicate n 0 ++ [0]) = ⟨0, 254⟩ := by
    rw [findCritBit, findCritBitFrom_replicate, Nat.zero_add]
    rw [findCritBitFrom, if_neg (by decide), hwrap]
    rfl
  have hleft := goesRight_zero_byte hn [0]
  have hleft' := goesRight_zero_byte hn [1]
  generalize (replicate n 0 ++ [0] : Bytes) = a at *
  generalize (replicate n 0 ++ [1] : Bytes) = b at *
  simp only [keytrie.runBoth, apply, insert, insertNew, new, findBestMatch, linkLeaf, allocLeafNode, setLeaf,
    newLeaf, applyMap, map_none, filter_none, map_some, bind_some, best,
    Function.update_self, filter_some, beq_iff_eq, hne, if_false, insertAt, hcrit, if_true, hleft',
    branch, Bool.false_eq_true, some.injEq, Prod.mk.injEq] at hrun
  obtain ⟨rfl, rfl⟩ := hrun
  constructor
  · simp [contains, liveLeaf, findBestMatch, best, hleft, hne.symm]
  · simp only [lookup_empty, true_or, if_true, lookup_insert_of_ne _ hne.symm, lookup_insert_of_ne _ hne, lookup_insert,
      bind_some]

/-- The key of 2³² zero bytes and a zero is lost when the one that ends in a one is
inserted. -/
theorem not_refines_of_long_keys :
    ¬ ∀ ops : List (Op Nat), ∃ c m, keytrie.runBoth ops (new none false none, ∅) = some (c, m) ∧ Refines c m := by
  intro hall
  obtain ⟨c, m, hrun, hrefines⟩ := hall
    [.insert (replicate (2 ^ 32) 0 ++ [0]) none (some ⟨0, .empty⟩) 0,
      .insert (replicate (2 ^ 32) 0 ++ [1]) none (some ⟨0, .empty⟩) 0]
  obtain ⟨hlost, hstored⟩ := runBoth_wrapped (Nat.two_pow_pos 32) (Nat.mod_self _) hrun
  have hcontains := hrefines.contains (replicate (2 ^ 32) 0 ++ [0])
  rw [hlost, hstored] at hcontains
  cases hcontains

/-- The key has a leaf in the tree, live or not. -/
def isLinked {D : Type} (c : Critbit D) (key : Bytes) : Bool :=
  ((findBestMatch c.root key).filter (fun s => (c.leaf s).key == key)).isSome

/-- After every sequence of calls with keys of at most 2³² bytes an insert returns; it
changes nothing and returns the current tips if it fails; and it succeeds exactly for
the current tips if and only if the key has a leaf or the caller passed none. -/
theorem insert_swaps_iff_linked {D : Type} (evictDecider : Option (Bytes → Bool)) (evictActive : Bool)
    (decayEvery : Option Nat) {ops : List (Op D)} (hshort : ∀ op ∈ ops, op.Short) {key : Bytes}
    (hkey : key.length ≤ 2 ^ 32) (old tips : Option TipSetPtr) (now : Nat) :
    ∃ c m c' conflict stored, keytrie.runBoth ops (new evictDecider evictActive decayEvery, ∅) = some (c, m) ∧
      c.insert key old tips now = some (c', conflict, stored) ∧ (stored = true → c'.contains key = tips) ∧
      (stored = false → c' = c ∧ conflict = c.contains key) ∧
      ((stored = true ↔ old = c.contains key) ↔ c.isLinked key = true ∨ old = none) := by
  obtain ⟨c, m, hrun, hmodels⟩ := (models_new evictDecider evictActive decayEvery).runBoth hshort
  obtain ⟨c', conflict, stored, hinsert, hafter⟩ := (hmodels.reached (fun _ => False)).insert hkey old tips now
  have hstored : stored = true → c'.contains key = tips := by
    rintro rfl
    rw [hafter.models.contains_eq, if_pos rfl, lookup_insert]
    rfl
  refine ⟨c, m, c', conflict, stored, hrun, hinsert, hstored, ?_⟩
  rcases hmodels.findBestMatch_cases key with ⟨s, hs, rfl, hfound⟩ | ⟨habsent, hfound⟩
  · obtain ⟨c₁, conflict₁, stored₁, hinsert₁, hiff, hfail⟩ := hmodels.insert_linked hs hfound old tips now
    obtain ⟨rfl, rfl, rfl⟩ : c' = c₁ ∧ conflict = conflict₁ ∧ stored = stored₁ := by
      rw [hinsert, some.injEq, Prod.mk.injEq, Prod.mk.injEq] at hinsert₁
      exact hinsert₁
    refine ⟨hfail, fun _ => .inl ?_, fun _ => hiff⟩
    rw [isLinked, hfound]
    rfl
  · have hnew := insert_unlinked hfound hinsert
    have hcontains : c.contains key = none := by
      rw [hmodels.contains_eq, hmodels.absent key habsent]
      rfl
    have hunlinked : c.isLinked key = false := by
      rw [isLinked, hfound]
      rfl
    subst hnew
    rw [hcontains, hunlinked]
    refine ⟨fun hfail => Bool.noConfusion hfail, fun hiff => .inr (hiff.mp rfl), ?_⟩
    rintro (hlinked | hold)
    · cases hlinked
    · exact ⟨fun _ => hold, fun _ => rfl⟩

/-- A key that was deleted and is still linked. -/
theorem insert_swaps_after_delete : ∃ c m c' conflict stored, keytrie.runBoth
        [.insert [1] none (some ⟨0, .empty⟩) 0, .deleteAndSnapshot [1] (some ⟨0, .empty⟩)]
        ((new none true none : Critbit Nat), ∅) = some (c, m) ∧
      c.insert [1] none (some ⟨1, .empty⟩) 1 = some (c', conflict, stored) ∧
      (stored = true → c'.contains [1] = some ⟨1, .empty⟩) ∧ (stored = false → c' = c ∧ conflict = c.contains [1]) ∧
      ((stored = true ↔ none = c.contains [1]) ↔ c.isLinked [1] = true ∨ (none : Option TipSetPtr) = none) := by
  apply insert_swaps_iff_linked
  · intro op hop
    simp only [mem_cons, not_mem_nil, or_false] at hop
    rcases hop with rfl | rfl <;> simp [Op.Short]
  · decide

/-- What `Contains` returns for a key after some calls, and whether an insert that passes
these tips is accepted then. -/
def containsThenInsert (ops : List (Op Nat)) (key : Bytes) (old tips : Option TipSetPtr) :
    Option (Option TipSetPtr × Bool) :=
  (keytrie.runBoth ops (new none true none, ∅)).bind fun s =>
    (s.1.insert key old tips 1).map fun r => (s.1.contains key, r.2.2)

/-- Tips of a key that was deleted meanwhile: an insert that expects them is rejected while
the dead leaf is linked, and accepted once it was reaped. -/
theorem insert_accepts_stale_tips :
    containsThenInsert [.insert [1] none (some ⟨0, .empty⟩) 0, .deleteAndSnapshot [1] (some ⟨0, .empty⟩)] [1]
        (some ⟨0, .empty⟩) (some ⟨1, .empty⟩) = some (none, false) ∧
      containsThenInsert [.insert [1] none (some ⟨0, .empty⟩) 0, .deleteAndSnapshot [1] (some ⟨0, .empty⟩), .reap] [1]
        (some ⟨0, .empty⟩) (some ⟨1, .empty⟩) = some (none, true) := by
  decide +kernel

end Critbit

end swytch.keytrie
