import Swytch.Lib.FinmapFold
import Swytch.Effects.Horizon

open swytch.proto Function List Finmap Option Prod

namespace swytch.effects.HorizonSet

open HorizonSet

/-- The transactions that wait in a group. -/
def members (h : HorizonSet) (g : Nat) : List Bytes :=
  (h.heap g).entries.map fst

/-- Every entry waits in the group it points at. -/
structure Linked (h : HorizonSet) : Prop where
  linked : ∀ txnID entry, h.entries.lookup txnID = some entry → txnID ∈ h.members entry.group
  groups : h.groups.Nodup
  listed : ∀ g ∈ h.groups, g < h.nextGroup
  fresh : ∀ g, h.nextGroup ≤ g → h.members g = []

theorem linked_empty : Linked {} := by
  constructor <;> simp [lookup_empty, members]

variable {h h' : HorizonSet} {s : HorizonSet × PendingTxTips}

theorem Linked.congr (hlinked : Linked h) (hentries : h'.entries = h.entries)
    (hmembers : ∀ g, h'.members g = h.members g) (hgroups : h'.groups.Nodup)
    (hlisted : ∀ g ∈ h'.groups, g < h'.nextGroup) (hnext : h.nextGroup ≤ h'.nextGroup) : Linked h' := by
  refine ⟨fun txnID entry hentry => ?_, hgroups, hlisted, fun g hg => ?_⟩
  · rw [hmembers]
    exact hlinked.linked txnID entry (hentries ▸ hentry)
  · rw [hmembers]
    exact hlinked.fresh g (hnext.trans hg)

theorem Linked.pruneGroups (hlinked : Linked h) : Linked h.pruneGroups := by
  refine hlinked.congr rfl (fun g => ?_) (hlinked.groups.filter _)
    (fun g hg => hlinked.listed g (mem_of_mem_filter hg)) le_rfl
  simp only [members, HorizonSet.pruneGroups]
  split <;> rfl

/-- Moving the listed entries of a map to another group. -/
theorem lookup_retarget (moved : List (Bytes × TransactionalBindEffect)) (target : Nat)
    (entries : Map Bytes HorizonEntry) (txnID : Bytes) :
    (moved.foldl (fun entries e => (entries.lookup e.1).elim entries
        (fun entry => entries.insert e.1 { entry with group := target })) entries).lookup txnID =
      (entries.lookup txnID).map (fun entry =>
        if txnID ∈ moved.map fst then { entry with group := target } else entry) := by
  induction moved generalizing entries with
  | nil => simp
  | cons e moved ih =>
    rw [foldl_cons, ih]
    by_cases htxn : txnID = e.1
    · subst htxn
      cases hlookup : entries.lookup e.1 with
      | none => simp [hlookup]
      | some entry =>
        simp only [elim_some, lookup_insert, map_some, map_cons, mem_cons, true_or,
          if_true, some.injEq]
        split <;> rfl
    · have hkeep : ((entries.lookup e.1).elim entries
          (fun entry => entries.insert e.1 { entry with group := target })).lookup txnID = entries.lookup txnID := by
        cases entries.lookup e.1 with
        | none => rfl
        | some entry => exact lookup_insert_of_ne _ htxn
      rw [hkeep]
      simp only [map_cons, mem_cons, htxn, false_or]

/-- Merging moves the entries of one group to the other. -/
theorem Linked.merge (hlinked : Linked h) {target g : Nat} (hne : target ≠ g)
    (htarget : target < h.nextGroup) : Linked (h.merge target g) := by
  have hmembers : ∀ g', (h.merge target g).members g' =
      if g' = g then [] else if g' = target then h.members target ++ h.members g else h.members g' := by
    intro g'
    simp only [members, HorizonSet.merge, setGroup, update_apply]
    split
    · rfl
    · split
      · exact map_append
      · rfl
  refine ⟨fun txnID entry hentry => ?_, hlinked.groups, hlinked.listed, fun g' hg' => ?_⟩
  · obtain ⟨old, hold, rfl⟩ := map_eq_some_iff.mp ((lookup_retarget _ _ _ _).symm.trans hentry)
    have hmem := hlinked.linked txnID old hold
    rw [hmembers]
    by_cases hmoved : txnID ∈ (h.heap g).entries.map fst
    · rw [if_pos hmoved, if_neg hne, if_pos rfl]
      exact mem_append_right _ hmoved
    · have hother : old.group ≠ g := fun heq => hmoved (heq ▸ hmem)
      rw [if_neg hmoved, if_neg hother]
      split
      · rename_i htarget
        exact mem_append_left _ (htarget ▸ hmem)
      · exact hmem
  · have hg'' : h.nextGroup ≤ g' := hg'
    rw [hmembers, if_neg (show ¬ g' = target by omega)]
    split
    · rfl
    · exact hlinked.fresh g' hg''

theorem isInvisible_merge (h : HorizonSet) (target g : Nat) (txnID : Bytes) :
    (h.merge target g).isInvisible txnID = h.isInvisible txnID := by
  have hlookup : (h.merge target g).entries.lookup txnID = _ :=
    lookup_retarget (h.heap g).entries target h.entries txnID
  rw [isInvisible, hlookup, isSome_map, isInvisible]

/-- The groups that overlap with a bind are merged one after the other into the first. -/
theorem Linked.mergeOverlapping (hlinked : Linked h) (bind : TransactionalBindEffect) :
    Linked (h.mergeOverlapping bind).1 ∧
      (∀ txnID, (h.mergeOverlapping bind).1.isInvisible txnID = h.isInvisible txnID) ∧
      ∀ target, (h.mergeOverlapping bind).2 = some target → target < (h.mergeOverlapping bind).1.nextGroup := by
  have hfold : ∀ f : HorizonSet × Option Nat → Nat → HorizonSet × Option Nat,
      (∀ acc g, f acc g = if (acc.1.heap g).bases.any (fun base => bindsShareBase base bind) then
        acc.2.elim (acc.1, some g) (fun target => (acc.1.merge target g, some target)) else acc) →
      ∀ (groups : List Nat) (acc : HorizonSet × Option Nat), groups.Nodup → Linked acc.1 →
      (∀ txnID, acc.1.isInvisible txnID = h.isInvisible txnID) →
      (∀ target, acc.2 = some target → target ∉ groups ∧ target < acc.1.nextGroup) →
      (∀ g ∈ groups, g < acc.1.nextGroup) →
      let r := groups.foldl f acc
      Linked r.1 ∧ (∀ txnID, r.1.isInvisible txnID = h.isInvisible txnID) ∧
        ∀ target, r.2 = some target → target < r.1.nextGroup := by
    intro f hf groups
    induction groups with
    | nil => exact fun acc _ hacc hinvisible htarget _ => ⟨hacc, hinvisible, fun target ht => (htarget target ht).2⟩
    | cons g groups ih =>
      intro acc hnodup hacc hinvisible htarget hgroups
      obtain ⟨hg, hnodup⟩ := nodup_cons.mp hnodup
      have hrest : ∀ g' ∈ groups, g' < acc.1.nextGroup := fun g' hg' => hgroups g' (mem_cons_of_mem _ hg')
      have hbelow := hgroups g mem_cons_self
      dsimp only
      rw [foldl_cons, hf]
      split
      · cases htwo : acc.2 with
        | none =>
          refine ih (acc.1, some g) hnodup hacc hinvisible ?_ hrest
          intro target ht
          cases ht
          exact ⟨hg, hbelow⟩
        | some target =>
          obtain ⟨hnot, hlt⟩ := htarget target htwo
          rw [mem_cons, not_or] at hnot
          refine ih (acc.1.merge target g, some target) hnodup (hacc.merge hnot.1 hlt) ?_ ?_ hrest
          · exact fun txnID => (isInvisible_merge _ _ _ _).trans (hinvisible txnID)
          · intro target' ht
            cases ht
            exact ⟨hnot.2, hlt⟩
      · refine ih _ hnodup hacc hinvisible ?_ hrest
        intro target ht
        obtain ⟨hnot, hlt⟩ := htarget target ht
        exact ⟨fun hmem => hnot (mem_cons_of_mem _ hmem), hlt⟩
  refine hfold _ ?_ h.groups (h, none) hlinked.groups hlinked (fun _ => rfl) nofun hlinked.listed
  intro acc g
  cases acc.2 <;> rfl

/-- A bind joins a group. -/
theorem Linked.join (hlinked : Linked h) (txnID : Bytes) (bind : TransactionalBindEffect) {g : Nat}
    (hg : g < h.nextGroup) : Linked (h.join txnID bind g) := by
  have hmembers : ∀ g', (h.join txnID bind g).members g' =
      if g' = g then h.members g ++ [txnID] else h.members g' := by
    intro g'
    simp only [members, HorizonSet.join, setGroup, update_apply]
    split
    · exact map_append
    · rfl
  refine ⟨fun txnID' entry hentry => ?_, hlinked.groups, hlinked.listed, fun g' hg' => ?_⟩
  · rw [hmembers]
    by_cases htxn : txnID' = txnID
    · subst htxn
      cases (lookup_insert _).symm.trans hentry
      rw [if_pos rfl]
      exact mem_append_right _ (mem_singleton_self _)
    · have hmem := hlinked.linked txnID' entry ((lookup_insert_of_ne _ htxn).symm.trans hentry)
      split
      · rename_i heq
        exact mem_append_left _ (heq ▸ hmem)
      · exact hmem
  · have hg'' : h.nextGroup ≤ g' := hg'
    rw [hmembers, if_neg (by omega)]
    exact hlinked.fresh g' hg''

theorem isInvisible_join (h : HorizonSet) (txnID txnID' : Bytes) (bind : TransactionalBindEffect) (g : Nat) :
    (h.join txnID bind g).isInvisible txnID' = (decide (txnID' = txnID) || h.isInvisible txnID') := by
  by_cases htxn : txnID' = txnID
  · subst htxn
    simp [isInvisible, join, lookup_insert]
  · simp [isInvisible, join, lookup_insert_of_ne _ htxn, htxn]

theorem Linked.add (hlinked : Linked h) (txnID : Bytes) (bind : TransactionalBindEffect) :
    Linked (h.add txnID bind) := by
  unfold HorizonSet.add
  split
  · exact hlinked
  · obtain ⟨hmerged, -, htarget⟩ := hlinked.mergeOverlapping bind
    split
    · rename_i merged target hmerge
      rw [hmerge] at hmerged htarget
      exact hmerged.pruneGroups.join txnID bind (htarget target rfl)
    · rename_i merged hmerge
      rw [hmerge] at hmerged
      refine Linked.join ?_ txnID bind (Nat.lt_succ_self _)
      refine hmerged.congr rfl (fun g => ?_) ?_ (fun g hg => ?_) (Nat.le_succ _)
      · simp only [members, setGroup, update_apply]
        split
        · rename_i hg
          exact (hg ▸ hmerged.fresh _ le_rfl).symm
        · rfl
      · refine nodup_append'.mpr ⟨hmerged.groups, nodup_singleton _, fun g hg hg' => ?_⟩
        have hlt := hmerged.listed g hg
        rw [mem_singleton.mp hg'] at hlt
        exact Nat.lt_irrefl _ hlt
      · obtain hg | hg := mem_append.mp hg
        · exact Nat.lt_succ_of_lt (hmerged.listed g hg)
        · rw [mem_singleton.mp hg]
          exact Nat.lt_succ_self _

/-- Adding makes one transaction invisible. -/
theorem Linked.isInvisible_add (hlinked : Linked h) (txnID txnID' : Bytes) (bind : TransactionalBindEffect) :
    (h.add txnID bind).isInvisible txnID' = (decide (txnID' = txnID) || h.isInvisible txnID') := by
  unfold HorizonSet.add
  split
  · rename_i hinvisible
    by_cases htxn : txnID' = txnID
    · subst htxn
      simp [hinvisible]
    · simp [htxn]
  · obtain ⟨-, hinvisible, -⟩ := hlinked.mergeOverlapping bind
    split
    · rename_i merged target hmerge
      rw [hmerge] at hinvisible
      rw [isInvisible_join, ← hinvisible txnID']
      rfl
    · rename_i merged hmerge
      rw [hmerge] at hinvisible
      rw [isInvisible_join, ← hinvisible txnID']
      rfl

theorem Linked.scheduleMakeVisible (hlinked : Linked h) (txnID : Bytes) : Linked (h.scheduleMakeVisible txnID) := by
  unfold HorizonSet.scheduleMakeVisible
  cases h.entries.lookup txnID with
  | none => exact hlinked
  | some entry =>
    refine hlinked.congr rfl (fun g => ?_) hlinked.groups hlinked.listed le_rfl
    simp only [elim_some, members, setGroup, update_apply]
    split
    · rename_i hg
      rw [hg]
    · rfl

theorem isInvisible_scheduleMakeVisible (h : HorizonSet) (txnID txnID' : Bytes) :
    (h.scheduleMakeVisible txnID).isInvisible txnID' = h.isInvisible txnID' := by
  unfold scheduleMakeVisible
  cases h.entries.lookup txnID <;> rfl

/-- Resolving entries one after the other resolves them all. -/
theorem foldl_resolve (entries : List (Bytes × TransactionalBindEffect)) (s : HorizonSet × PendingTxTips) :
    entries.foldl resolve s = ({ s.1 with entries := (entries.map fst).foldl (fun m k => m.erase k) s.1.entries },
        (entries.map snd).foldl releaseBind s.2) := by
  induction entries generalizing s with
  | nil => rfl
  | cons e entries ih => exact ih (resolve s e)

theorem lookup_makeGroupVisible (s : HorizonSet × PendingTxTips) (g : Nat) (txnID : Bytes) :
    (makeGroupVisible s g).1.entries.lookup txnID =
      if txnID ∈ s.1.members g then none else s.1.entries.lookup txnID := by
  simp only [makeGroupVisible, foldl_resolve]
  exact (lib.lookup_foldl_erase (s.1.members g) s.1.entries txnID).trans (by congr)

theorem Linked.makeGroupVisible (hlinked : Linked s.1) (g : Nat) : Linked (makeGroupVisible s g).1 := by
  have hlookup := lookup_makeGroupVisible s g
  simp only [HorizonSet.makeGroupVisible, foldl_resolve] at hlookup ⊢
  have hmembers : ∀ g', (s.1.setGroup g { s.1.heap g with entries := [] }).members g' =
      if g' = g then [] else s.1.members g' := by
    intro g'
    simp only [members, setGroup, update_apply]
    split <;> rfl
  apply Linked.pruneGroups
  refine ⟨fun txnID entry hentry => ?_, hlinked.groups, hlinked.listed, fun g' hg' => ?_⟩
  · have hold := (hlookup txnID).symm.trans hentry
    split at hold
    · cases hold
    · rename_i hnot
      have hmem := hlinked.linked txnID entry hold
      refine (hmembers entry.group).symm ▸ ?_
      rwa [if_neg (show entry.group ≠ g from fun heq => hnot (heq ▸ hmem))]
  · refine (hmembers g').trans ?_
    split
    · rfl
    · exact hlinked.fresh g' hg'

theorem Linked.makeVisible (hlinked : Linked s.1) (txnID : Bytes) : Linked (makeVisible s txnID).1 := by
  unfold HorizonSet.makeVisible
  cases s.1.entries.lookup txnID with
  | none => exact hlinked
  | some entry => exact hlinked.makeGroupVisible entry.group

theorem Linked.fire (hlinked : Linked s.1) (timer : Nat) : Linked (fire s timer).1 := by
  unfold HorizonSet.fire
  split
  · exact hlinked.makeGroupVisible _
  · exact hlinked

/-- The transaction of a bind that is made visible is visible, and nobody's is hidden. -/
theorem Linked.isInvisible_makeVisible (hlinked : Linked s.1) (txnID : Bytes) :
    (HorizonSet.makeVisible s txnID).1.isInvisible txnID = false ∧
      ∀ txnID', (HorizonSet.makeVisible s txnID).1.isInvisible txnID' = true → s.1.isInvisible txnID' = true := by
  unfold HorizonSet.makeVisible
  cases hentry : s.1.entries.lookup txnID with
  | none => exact ⟨by simp [isInvisible, hentry], fun _ h => h⟩
  | some entry =>
    constructor
    · rw [isInvisible, elim_some, lookup_makeGroupVisible, if_pos (hlinked.linked txnID entry hentry)]
      rfl
    · intro txnID' hinvisible
      rw [isInvisible, elim_some, lookup_makeGroupVisible] at hinvisible
      split at hinvisible
      · cases hinvisible
      · exact hinvisible

theorem mem_eraseIdx_findIdx {txnID txnID' : Bytes} {entries : List (Bytes × TransactionalBindEffect)}
    (hmem : txnID' ∈ entries.map fst) (hne : txnID' ≠ txnID) :
    txnID' ∈ (entries.eraseIdx (entries.findIdx (fun e => e.1 = txnID))).map fst := by
  induction entries with
  | nil => exact hmem
  | cons a entries ih =>
    obtain rfl | hmem := mem_cons.mp hmem
    · simp [findIdx_cons, hne]
    · by_cases htxn : a.1 = txnID
      · simpa [findIdx_cons, htxn] using hmem
      · simpa [findIdx_cons, htxn] using Or.inr (ih hmem)

theorem Linked.abort (hlinked : Linked s.1) (txnID : Bytes) : Linked (abort s txnID).1 := by
  unfold HorizonSet.abort
  cases hentry : s.1.entries.lookup txnID with
  | none => exact hlinked
  | some entry =>
    simp only [elim_some, resolve]
    apply Linked.pruneGroups
    refine ⟨fun txnID' entry' hentry' => ?_, hlinked.groups, hlinked.listed, fun g hg => ?_⟩
    · have htxn : txnID' ≠ txnID := by
        rintro rfl
        cases (lookup_erase _ _).symm.trans hentry'
      have hmem := hlinked.linked txnID' entry' ((lookup_erase_ne htxn).symm.trans hentry')
      simp only [members, setGroup, update_apply]
      split
      · rename_i heq
        exact mem_eraseIdx_findIdx (heq ▸ hmem) htxn
      · exact hmem
    · have hnone := hlinked.fresh g hg
      simp only [members, setGroup, update_apply] at hnone ⊢
      split
      · rename_i heq
        rw [← heq, map_eq_nil_iff.mp hnone]
        rfl
      · exact hnone

/-- What the engine does with its invisible transactions. -/
inductive Operation where
  | add (txnID : Bytes) (bind : TransactionalBindEffect)
  | scheduleMakeVisible (txnID : Bytes)
  | makeVisible (txnID : Bytes)
  | fire (timer : Nat)
  | abort (txnID : Bytes)

def operate (s : HorizonSet × PendingTxTips) : Operation → HorizonSet × PendingTxTips
  | .add txnID bind => (s.1.add txnID bind, s.2)
  | .scheduleMakeVisible txnID => (s.1.scheduleMakeVisible txnID, s.2)
  | .makeVisible txnID => makeVisible s txnID
  | .fire timer => fire s timer
  | .abort txnID => abort s txnID

def hidden (h : HorizonSet) : Set Bytes := {txnID | h.isInvisible txnID = true}

/-- What is hidden once a group is shown. -/
def without (h : HorizonSet) (g : Nat) : Set Bytes := h.hidden \ {txnID | txnID ∈ h.members g}

/-- What readers rely on: a bind is hidden when it is added, a verdict or a timer shows one group as
a whole, and an abort shows no other transaction. -/
def Allowed (h : HorizonSet) (hidden' : Set Bytes) : Operation → Prop
  | .add txnID _ => hidden' = insert txnID h.hidden
  | .scheduleMakeVisible _ => hidden' = h.hidden
  | .makeVisible txnID => txnID ∉ hidden' ∧ (hidden' = h.hidden ∨ ∃ g, hidden' = h.without g)
  | .fire timer => hidden' = h.hidden ∨ ∃ g, (h.heap g).timer = some timer ∧ hidden' = h.without g
  | .abort txnID => hidden' = h.hidden \ {txnID}

theorem Linked.operate (h : Linked s.1) (a : Operation) : Linked (operate s a).1 := by
  cases a
  exacts [h.add _ _, h.scheduleMakeVisible _, h.makeVisible _, h.fire _, h.abort _]

theorem hidden_makeGroupVisible (g : Nat) : (makeGroupVisible s g).1.hidden = s.1.without g := by
  ext txnID
  by_cases hmember : txnID ∈ s.1.members g <;>
    simp [hidden, without, isInvisible, lookup_makeGroupVisible, hmember]

theorem lookup_abort (txnID txnID' : Bytes) : (abort s txnID).1.entries.lookup txnID' =
    if txnID' = txnID then none else s.1.entries.lookup txnID' := by
  unfold HorizonSet.abort
  cases hentry : s.1.entries.lookup txnID with
  | none =>
    split_ifs with hsame
    · exact hsame ▸ hentry
    · rfl
  | some entry =>
    split_ifs with hsame
    · exact hsame ▸ lookup_erase _ _
    · exact lookup_erase_ne hsame

/-- Whatever groups were merged, pruned and scheduled before, every operation has the effect on
the invisible transactions that readers rely on. -/
theorem hidden_allowed (pending : PendingTxTips) (before : List Operation) (a : Operation) :
    let s := before.foldl operate ({}, pending)
    Allowed s.1 (operate s a).1.hidden a := by
  intro s
  have hlinked : Linked s.1 :=
    foldlRecOn (motive := fun s => Linked s.1) before operate linked_empty fun s h a _ => h.operate a
  clear_value s
  cases a with
  | add txnID bind =>
    ext txnID'
    simp [hidden, operate, hlinked.isInvisible_add]
  | scheduleMakeVisible txnID =>
    ext txnID'
    simp [hidden, operate, isInvisible_scheduleMakeVisible]
  | makeVisible txnID =>
    refine ⟨by simp [hidden, operate, (hlinked.isInvisible_makeVisible txnID).1], ?_⟩
    simp only [operate, HorizonSet.makeVisible]
    cases s.1.entries.lookup txnID with
    | none => exact .inl rfl
    | some entry => exact .inr ⟨entry.group, hidden_makeGroupVisible _⟩
  | fire timer =>
    simp only [Allowed, operate, HorizonSet.fire]
    split
    · exact .inr ⟨_, ‹_›, hidden_makeGroupVisible _⟩
    · exact .inl rfl
  | abort txnID =>
    ext txnID'
    by_cases hsame : txnID' = txnID <;> simp [hidden, operate, isInvisible, lookup_abort, hsame]

end swytch.effects.HorizonSet
