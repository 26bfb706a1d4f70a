import Swytch.Cluster.CloudOutbox
import Swytch.Effects.Bloom
import Swytch.Effects.Dag

open swytch.proto swytch.effects List

namespace swytch.cluster

/-- The names of the uploads of a node: filters of growing size, the newest last. -/
structure OwnFilter where
  blooms : List Bloom := []

namespace OwnFilter

/-- Start a filter of twice the size once more than half of the newest one is set. -/
def grow (f : OwnFilter) : OwnFilter :=
  match f.blooms.getLast? with
  | none => ⟨f.blooms ++ [newBloom bloomMinBytes]⟩
  | some newest => if newest.overHalfFull then ⟨f.blooms ++ [newBloom (newest.sizeBytes * 2)]⟩ else f

def add (f : OwnFilter) (h : Fin (2 ^ 64)) : OwnFilter :=
  ⟨f.grow.blooms.modify (f.grow.blooms.length - 1) (fun b => (b.setHash h).1)⟩

def has (f : OwnFilter) (h : Fin (2 ^ 64)) : Bool :=
  f.blooms.any (fun b => b.hasHash h)

end OwnFilter

/-- The outbox of a node, and the two filters that a read miss asks before the cloud. -/
structure CloudGate (D : Type) where
  outbox : CloudOutbox D
  filterBulk : Option Bloom := none
  filterOwn : OwnFilter := {}

namespace CloudGate

/-- What the gate sees: work of the outbox, and key filters pushed by the cloud. -/
inductive Event (D : Type) where
  | outbox (a : CloudOutbox.Action D)
  | handleFilter (frame : Bytes)

/-- A name is added before the outbox decides whether to queue the effect. -/
def noteUpload {D : Type} (hash : Hash) (keyName : Bytes → Bytes) (g : CloudGate D) : CloudOutbox.Action D → OwnFilter
  | .enqueueUpload _ eff _ _ _ =>
    if isSubscription eff then g.filterOwn else g.filterOwn.add (hash (keyName eff.key))
  | .retire _ => g.filterOwn
  | .index _ => g.filterOwn

/-- A pushed filter replaces the previous one, unless it cannot be decoded. -/
def handleFilter {D : Type} (g : CloudGate D) (frame : Bytes) : CloudGate D :=
  match parseBloomFrame frame with
  | .ok decoded => { g with filterBulk := some decoded }
  | .error _ => g

def step {D : Type} (hash : Hash) (keyName : Bytes → Bytes) (g : CloudGate D) :
    Event D → Except OutboxFault (CloudGate D)
  | .outbox a => (g.outbox.step a).map (fun outbox => { g with outbox, filterOwn := g.noteUpload hash keyName a })
  | .handleFilter frame => .ok (g.handleFilter frame)

def run {D : Type} (hash : Hash) (keyName : Bytes → Bytes) : CloudGate D → List (Event D) →
    Except OutboxFault (CloudGate D)
  | g, [] => .ok g
  | g, e :: events =>
    match g.step hash keyName e with
    | .ok next => next.run hash keyName events
    | .error fault => .error fault

/-- Whether the cloud may hold a name. Without a pushed filter the gate is open. -/
def cloudMayHold {D : Type} (hash : Hash) (g : CloudGate D) (name : Bytes) : Bool :=
  match g.filterBulk with
  | none => true
  | some bulk => bulk.hasHash (hash name) || g.filterOwn.has (hash name)

/-- The filters of a gate were built by their own operations. -/
structure Built {D : Type} (g : CloudGate D) : Prop where
  bulk : ∀ b, g.filterBulk = some b → b.Built
  own : ∀ b ∈ g.filterOwn.blooms, b.Built

/-- An event that enqueues an effect other than a subscription. -/
def Enqueues {D : Type} (e : Event D) (eff : Effect) : Prop :=
  isSubscription eff = false ∧ ∃ tip frontier expand referenced,
    e = .outbox (.enqueueUpload tip eff frontier expand referenced)

end CloudGate

variable {h : Fin (2 ^ 64)} {D : Type} {hash : Hash} {keyName : Bytes → Bytes} {t : CloudGate D}

variable {f : OwnFilter} {g : CloudGate D}

namespace OwnFilter

theorem grow_spec (f : OwnFilter) :
    f.grow.blooms ≠ [] ∧
      (f.grow.blooms = f.blooms ∨ ∃ sizeBytes, f.grow.blooms = f.blooms ++ [newBloom sizeBytes]) := by
  unfold grow
  split
  · exact ⟨by simp, .inr ⟨bloomMinBytes, rfl⟩⟩
  · rename_i newest hnewest
    split
    · exact ⟨by simp, .inr ⟨newest.sizeBytes * 2, rfl⟩⟩
    · refine ⟨?_, .inl rfl⟩
      intro hnil
      rw [hnil] at hnewest
      cases hnewest

theorem mem_grow {b : Bloom} (hb : b ∈ f.blooms) : b ∈ f.grow.blooms := by
  obtain heq | ⟨sizeBytes, heq⟩ := f.grow_spec.2
  · exact heq ▸ hb
  · exact heq ▸ mem_append_left _ hb

theorem has_iff (f : OwnFilter) (h : Fin (2 ^ 64)) : f.has h = true ↔ ∃ b ∈ f.blooms, b.hasHash h = true :=
  any_eq_true

/-- A name that was added is found, and so is every name that was found before. -/
theorem has_add {h' : Fin (2 ^ 64)} (hhas : h' = h ∨ f.has h' = true) : (f.add h).has h' = true := by
  have hnonempty := length_pos_iff.mpr f.grow_spec.1
  have hget (i : Nat) (hi : i < f.grow.blooms.length)
      (hkept : (f.grow.blooms.length - 1 = i ∧ h' = h) ∨ f.grow.blooms[i].hasHash h' = true) :
      (f.add h).has h' = true := by
    have hlength : i < (f.add h).blooms.length := by
      unfold add
      rw [length_modify]
      exact hi
    refine (has_iff _ _).mpr ⟨(f.add h).blooms[i], getElem_mem hlength, ?_⟩
    simp only [add, getElem_modify]
    split
    · exact Bloom.hasHash_setHash (hkept.imp_left And.right)
    · rename_i hne
      exact hkept.resolve_left (fun hlast => hne hlast.1)
  obtain rfl | hbefore := hhas
  · exact hget _ (Nat.sub_one_lt_of_lt hnonempty) (.inl ⟨rfl, rfl⟩)
  · obtain ⟨b, hb, hhash⟩ := (f.has_iff h').mp hbefore
    obtain ⟨i, hi, rfl⟩ := getElem_of_mem (mem_grow hb)
    exact hget i hi (.inr hhash)

theorem built_add (hbuilt : ∀ b ∈ f.blooms, b.Built) (h : Fin (2 ^ 64)) : ∀ b ∈ (f.add h).blooms, b.Built := by
  have hgrown : ∀ b ∈ f.grow.blooms, b.Built := by
    intro b hb
    obtain heq | ⟨sizeBytes, heq⟩ := f.grow_spec.2
    · exact hbuilt b (heq ▸ hb)
    · rw [heq, mem_append, mem_singleton] at hb
      obtain hold | rfl := hb
      · exact hbuilt b hold
      · exact .new sizeBytes
  intro b hb
  obtain ⟨i, hi, rfl⟩ := getElem_of_mem hb
  simp only [add, getElem_modify]
  split
  · exact .set (hgrown _ (getElem_mem _)) h
  · exact hgrown _ (getElem_mem _)

end OwnFilter

namespace CloudGate

theorem filters_of_outbox {a : CloudOutbox.Action D} (hstep : g.step hash keyName (.outbox a) = .ok t) :
    t.filterBulk = g.filterBulk ∧ t.filterOwn = g.noteUpload hash keyName a := by
  change (g.outbox.step a).map _ = .ok t at hstep
  cases hout : g.outbox.step a with
  | error fault =>
    rw [hout] at hstep
    cases hstep
  | ok outbox =>
    rw [hout] at hstep
    cases hstep
    exact ⟨rfl, rfl⟩

variable {e : Event D} {events : List (Event D)}

/-- Every event either leaves the own filter alone or adds the name of an upload to it. -/
theorem filterOwn_of_step (hstep : g.step hash keyName e = .ok t) :
    (t.filterOwn = g.filterOwn ∧ ∀ eff, ¬ Enqueues e eff) ∨
      ∃ eff, (∀ other, Enqueues e other ↔ other = eff) ∧ t.filterOwn = g.filterOwn.add (hash (keyName eff.key)) := by
  cases e with
  | handleFilter frame =>
    refine .inl ⟨?_, fun eff ⟨_, _, _, _, _, heq⟩ => by cases heq⟩
    cases hstep
    unfold handleFilter
    split <;> rfl
  | outbox a =>
    rw [(filters_of_outbox hstep).2]
    cases a with
    | retire tip => exact .inl ⟨rfl, fun eff ⟨_, _, _, _, _, heq⟩ => by cases heq⟩
    | index op => exact .inl ⟨rfl, fun eff ⟨_, _, _, _, _, heq⟩ => by cases heq⟩
    | enqueueUpload tip eff frontier expand referenced =>
      by_cases hsub : isSubscription eff = true
      · refine .inl ⟨if_pos hsub, ?_⟩
        rintro other ⟨hnot, _, _, _, _, heq⟩
        cases heq
        rw [hsub] at hnot
        cases hnot
      · refine .inr ⟨eff, fun other => ⟨?_, ?_⟩, if_neg hsub⟩
        · rintro ⟨_, _, _, _, _, heq⟩
          cases heq
          rfl
        · rintro rfl
          exact ⟨Bool.eq_false_iff.mpr hsub, tip, frontier, expand, referenced, rfl⟩

/-- No event takes a name out of the own filter. -/
theorem has_of_step (hstep : g.step hash keyName e = .ok t) (hhas : g.filterOwn.has h = true) :
    t.filterOwn.has h = true := by
  obtain ⟨heq, -⟩ | ⟨eff, -, heq⟩ := filterOwn_of_step hstep
  · exact heq ▸ hhas
  · exact heq ▸ OwnFilter.has_add (.inr hhas)

theorem has_of_enqueues (hstep : g.step hash keyName e = .ok t) {eff : Effect} (henqueues : Enqueues e eff) :
    t.filterOwn.has (hash (keyName eff.key)) = true := by
  obtain ⟨-, hnone⟩ | ⟨other, honly, heq⟩ := filterOwn_of_step hstep
  · exact absurd henqueues (hnone eff)
  · obtain rfl := (honly eff).mp henqueues
    exact heq ▸ OwnFilter.has_add (.inl rfl)

theorem run_cons (hrun : g.run hash keyName (e :: events) = .ok t) :
    ∃ next, g.step hash keyName e = .ok next ∧ next.run hash keyName events = .ok t := by
  unfold run at hrun
  split at hrun
  · rename_i next hnext
    exact ⟨next, hnext, hrun⟩
  · cases hrun

theorem has_of_run (hrun : g.run hash keyName events = .ok t)
    (hhas : g.filterOwn.has h = true ∨ ∃ e ∈ events, ∃ eff, Enqueues e eff ∧ hash (keyName eff.key) = h) :
    t.filterOwn.has h = true := by
  induction events generalizing g with
  | nil =>
    cases hrun
    simpa using hhas
  | cons e events ih =>
    obtain ⟨next, hnext, hrest⟩ := run_cons hrun
    refine ih hrest ?_
    obtain hbefore | ⟨e', hmem, eff, henqueues, rfl⟩ := hhas
    · exact .inl (has_of_step hnext hbefore)
    · obtain rfl | hlater := mem_cons.mp hmem
      · exact .inl (has_of_enqueues hnext henqueues)
      · exact .inr ⟨e', hlater, eff, henqueues, rfl⟩

theorem Built.step (hbuilt : g.Built) (hstep : g.step hash keyName e = .ok t) : t.Built := by
  constructor
  · intro b hb
    cases e with
    | outbox a =>
      rw [(filters_of_outbox hstep).1] at hb
      exact hbuilt.bulk b hb
    | handleFilter frame =>
      cases hstep
      unfold handleFilter at hb
      split at hb
      · rename_i decoded hparse
        cases hb
        exact .parsed hparse
      · exact hbuilt.bulk b hb
  · obtain ⟨heq, -⟩ | ⟨eff, -, heq⟩ := filterOwn_of_step hstep
    · exact heq ▸ hbuilt.own
    · exact heq ▸ OwnFilter.built_add hbuilt.own _

theorem Built.run (hbuilt : g.Built) (hrun : g.run hash keyName events = .ok t) : t.Built := by
  induction events generalizing g with
  | nil =>
    cases hrun
    exact hbuilt
  | cons e events ih =>
    obtain ⟨next, hnext, hrest⟩ := run_cons hrun
    exact ih (hbuilt.step hnext) hrest

/-- The gate is open for every key of which an effect other than a subscription was enqueued,
whatever the cloud pushes. The counters of all filters are exact, and a frame is read
back to a filter with the same answers. -/
theorem own_uploads_pass {D : Type} {hash : Hash} {keyName : Bytes → Bytes} {g t : CloudGate D} (hbuilt : g.Built)
    {events : List (Event D)} (hrun : g.run hash keyName events = .ok t) :
    (∀ e ∈ events, ∀ eff, Enqueues e eff → t.cloudMayHold hash (keyName eff.key) = true) ∧
    (∀ b, b ∈ t.filterBulk ∨ b ∈ t.filterOwn.blooms → b.setBits = lib.onesCount b.bits) ∧
    (∀ b : Bloom, b.Built → b.setBits = lib.onesCount b.bits) ∧
    (∀ b : Bloom, ∃ c, parseBloomFrame b.frame = .ok c ∧ ∀ h, c.hasHash h = b.hasHash h) := by
  refine ⟨fun e he eff henqueues => ?_, fun b hb => ?_, fun b => Bloom.Built.setBits_eq, fun b => ?_⟩
  · unfold cloudMayHold
    split
    · rfl
    · rw [has_of_run hrun (.inr ⟨e, he, eff, henqueues, rfl⟩), Bool.or_true]
  · obtain hbulk | hown := hb
    · exact ((hbuilt.run hrun).bulk b hbulk).setBits_eq
    · exact ((hbuilt.run hrun).own b hown).setBits_eq
  · obtain ⟨c, hparse, hbits⟩ := b.parse_frame
    exact ⟨c, hparse, Bloom.hasHash_eq_of_bits hbits⟩

/-- A node that has not done anything yet. -/
def fresh (D : Type) : CloudGate D := { outbox := { index := .new none false none } }

theorem built_fresh (D : Type) : (fresh D).Built :=
  ⟨fun _ hb => (by cases hb), fun _ hb => (by cases hb)⟩

/-- An upload that the pool gave no reference for, after which the cloud pushes an empty filter. -/
def refusedUpload : List (Event Unit) :=
  [.outbox (.enqueueUpload ⟨1, 1⟩ { key := [7], kind := .noop } true true false), .handleFilter (newBloom 0).frame]

theorem own_uploads_pass_empty_filter :
    ∃ t bulk, (fresh Unit).run (fun _ => hashValue 5) id refusedUpload = .ok t ∧ t.filterBulk = some bulk ∧
      bulk.hasHash (hashValue 5) = false ∧ t.cloudMayHold (fun _ => hashValue 5) [7] = true := by
  obtain ⟨bulk, hparse, hbits⟩ := (newBloom 0).parse_frame
  have hrun : (fresh Unit).run (fun _ => hashValue 5) id refusedUpload =
      .ok { (fresh Unit) with filterBulk := some bulk, filterOwn := OwnFilter.add {} (hashValue 5) } := by
    simp only [refusedUpload, run, step, handleFilter, hparse]
    rfl
  refine ⟨_, bulk, hrun, rfl, ?_, ?_⟩
  · rw [Bloom.hasHash_eq_of_bits hbits]
    decide +kernel
  · exact (own_uploads_pass (built_fresh Unit) hrun).1 _ (mem_cons_self ..) _ ⟨rfl, _, _, _, _, rfl⟩

end CloudGate

end swytch.cluster
