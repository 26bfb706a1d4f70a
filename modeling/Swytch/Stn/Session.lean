import Swytch.Lib.Run
import Swytch.Stn.Exact

namespace swytch.stn

open WithTop hiding some

open swytch.lib List Set Network

variable {s : Network} {C T : Set (Constraint Nat)} {D : Nat → Nat → WithTop Int} {e : Err}
  {ranges : Ranges}

namespace Network

section

variable (h : s.Inv C T D) (ranges : Ranges)
include h

/-- `constrain` fails and changes nothing, or the constraint is taken into account. -/
theorem Inv.constrainEdge (a b : Nat) {w : Int} (hw : |w| ≤ s.limit) :
    ((∃ e, s.constrainEdge ranges a b w = (s, some e)) ∨
        (s.constrainEdge ranges a b w).2 = none ∧ (s.constrainEdge ranges a b w).1.size = s.size ∧
          ∃ T' D', (s.constrainEdge ranges a b w).1.Inv (insert ⟨a, b, w⟩ C) T' D') ∧
      ∀ p ∈ s.constrainEdgeSums ranges a b w, SumExact p.1 p.2 := by
  unfold Network.constrainEdge constrainEdgeSums
  cases hlookup : (s.adj a).lookup b with
  | none => exact ⟨.inl ⟨_, rfl⟩, fun p hp => absurd hp not_mem_nil⟩
  | some old =>
    have hab : b ∈ s.adj a := Finmap.mem_of_lookup_eq_some hlookup
    obtain ⟨hexact, hneg⟩ := h.pathSum_neg_iff (h.searchable.shape.symm hab) hw
    have hcheck : ∀ p ∈ [(w, s.weight b a)], SumExact p.1 p.2 := by
      intro p hp
      rw [mem_singleton.mp hp]
      exact hexact
    dsimp only
    by_cases hcycle : pathSum w (s.weight b a) < 0
    · rw [if_pos hcycle, if_pos (.inl hcycle)]
      exact ⟨.inl ⟨_, rfl⟩, hcheck⟩
    · have hpos : 0 ≤ (w : WithTop Int) + D b a := not_lt.mp fun hlt => hcycle (hneg.mpr hlt)
      rw [if_neg hcycle]
      by_cases hold : old ≤ w
      · rw [if_pos hold, if_pos (.inr hold)]
        refine ⟨.inr ⟨rfl, rfl, T, D, ?_⟩, hcheck⟩
        obtain ⟨_, htight⟩ := h.searchable.tight a b old hlookup
        have himplied : D a b ≤ w := by
          have hlimit := h.limit_nonneg
          have hwabs := abs_le.mp hw
          rw [← htight, bound_le_coe (by simp only [infinity]; omega)]
          exact hold
        refine ⟨h.searchable, h.accepted.addImplied himplied, fun c hc => ?_,
          h.tightening.trans (subset_insert _ _), h.inputs, h.nonneg, h.budget, h.limit_eq⟩
        rcases mem_insert_iff.mp hc with rfl | hin
        · exact ⟨h.searchable.shape.lt hab, h.searchable.shape.lt (h.searchable.shape.symm hab)⟩
        · exact h.inside c hin
      · rw [if_neg hold, if_neg (not_or.mpr ⟨hcycle, hold⟩)]
        obtain ⟨hinv, hsize, hsums⟩ := h.tag ranges hab hw hpos
        refine ⟨.inr ⟨rfl, hsize, _, _, hinv⟩, fun p hp => ?_⟩
        rcases mem_append.mp hp with hnew | hfirst
        · exact hsums p hnew
        · exact hcheck p hfirst

theorem Inv.constrain (source target upper : Int) : ((∃ e, s.constrain ranges source target upper = (s, some e)) ∨
        (s.constrain ranges source target upper).2 = none ∧ (s.constrain ranges source target upper).1.size = s.size ∧
          ∃ T' D', (s.constrain ranges source target upper).1.Inv
            (insert ⟨source.toNat, target.toNat, upper⟩ C) T' D') ∧
      ∀ p ∈ s.constrainSums ranges source target upper, SumExact p.1 p.2 := by
  unfold Network.constrain constrainSums
  by_cases hvertex : ¬ s.vertex source ∨ ¬ s.vertex target
  · rw [if_pos hvertex, if_pos (by tauto)]
    exact ⟨.inl ⟨_, rfl⟩, fun p hp => absurd hp not_mem_nil⟩
  by_cases hweight : upper < -s.limit ∨ s.limit < upper
  · rw [if_neg hvertex, if_pos hweight, if_pos (by tauto)]
    exact ⟨.inl ⟨_, rfl⟩, fun p hp => absurd hp not_mem_nil⟩
  by_cases hsame : source = target
  · have hno : ¬ s.vertex source ∨ ¬ s.vertex target ∨ upper < -s.limit ∨ s.limit < upper ∨ source = target := by
      tauto
    rw [if_neg hvertex, if_neg hweight, if_pos hsame, if_pos hno]
    refine ⟨?_, fun p hp => absurd hp not_mem_nil⟩
    by_cases hneg : upper < 0
    · exact .inl ⟨.inconsistent, by rw [if_pos hneg]⟩
    · refine .inr ⟨if_neg hneg, rfl, T, D, ?_⟩
      have hself : D source.toNat target.toNat ≤ (upper : Int) := by
        rw [hsame, h.accepted.self, ← coe_zero, coe_le_coe]
        omega
      push Not at hvertex
      refine ⟨h.searchable, h.accepted.addImplied hself, fun c hc => ?_,
        h.tightening.trans (subset_insert _ _), h.inputs, h.nonneg, h.budget, h.limit_eq⟩
      rcases mem_insert_iff.mp hc with rfl | hin
      · exact ⟨(vertex_iff.mp hvertex.1).2, (vertex_iff.mp hvertex.2).2⟩
      · exact h.inside c hin
  · rw [if_neg hvertex, if_neg hweight, if_neg hsame, if_neg (by tauto)]
    push Not at hweight
    exact h.constrainEdge ranges _ _ (abs_le.mpr hweight)

/-- A constraint that is met by some numbers together with the accepted ones is not refused. -/
theorem Inv.constrain_ne_inconsistent {R : Type} [Ring R] [LinearOrder R] [IsStrictOrderedRing R]
    {source target upper : Int} {time : Nat → R}
    (hsat : Satisfies (insert ⟨source.toNat, target.toNat, upper⟩ C) time) :
    (s.constrain ranges source target upper).2 ≠ some .inconsistent := by
  unfold Network.constrain
  by_cases hvertex : ¬ s.vertex source ∨ ¬ s.vertex target
  · rw [if_pos hvertex]
    exact fun heq => by cases heq
  by_cases hweight : upper < -s.limit ∨ s.limit < upper
  · rw [if_neg hvertex, if_pos hweight]
    exact fun heq => by cases heq
  by_cases hsame : source = target
  · have hself := hsat ⟨source.toNat, target.toNat, upper⟩ (mem_insert _ _)
    dsimp only at hself
    rw [hsame, sub_self] at hself
    have hnonneg : 0 ≤ upper := Int.cast_nonneg_iff.mp hself
    rw [if_neg hvertex, if_neg hweight, if_pos hsame, if_neg (by omega)]
    exact fun heq => by cases heq
  rw [if_neg hvertex, if_neg hweight, if_neg hsame]
  unfold Network.constrainEdge
  split
  · exact fun heq => by cases heq
  · rename_i old hold
    have hedge : target.toNat ∈ s.adj source.toNat := Finmap.mem_of_lookup_eq_some hold
    push Not at hweight
    obtain ⟨_, hneg⟩ := h.pathSum_neg_iff (h.searchable.shape.symm hedge) (abs_le.mpr hweight)
    have hcycle : ¬ pathSum upper (s.weight target.toNat source.toNat) < 0 := fun hlt =>
      h.accepted.not_satisfies_of_neg (hneg.mp hlt) time hsat
    rw [if_neg hcycle]
    split <;> exact fun heq => by cases heq

/-- A constraint on an edge is refused exactly if no integers meet it together with the
accepted ones. -/
theorem Inv.inconsistent_iff {source target upper : Int} (hsource : s.vertex source = true)
    (htarget : s.vertex target = true) (hedge : target.toNat ∈ s.adj source.toNat) (hupper : |upper| ≤ s.limit) :
    (s.constrain ranges source target upper).2 = some .inconsistent ↔
      ¬ ∃ time : Nat → Int, Satisfies (insert ⟨source.toNat, target.toNat, upper⟩ C) time := by
  have hshape := h.searchable.shape
  have hne : source ≠ target := by
    rintro rfl
    exact hshape.ne hedge rfl
  obtain ⟨old, hold⟩ := Finmap.mem_iff.mp hedge
  obtain ⟨_, hneg⟩ := h.pathSum_neg_iff (hshape.symm hedge) hupper
  have hrange := abs_le.mp hupper
  unfold Network.constrain Network.constrainEdge
  rw [if_neg (not_or.mpr ⟨not_not.mpr hsource, not_not.mpr htarget⟩), if_neg (by omega), if_neg hne, hold]
  dsimp only
  by_cases hcycle : pathSum upper (s.weight target.toNat source.toNat) < 0
  · rw [if_pos hcycle]
    refine iff_of_true rfl ?_
    rintro ⟨time, hsat⟩
    exact h.accepted.not_satisfies_of_neg (hneg.mp hcycle) time hsat
  · rw [if_neg hcycle]
    refine iff_of_false (fun heq => ?_) (not_not.mpr ?_)
    · split at heq <;> cases heq
    · have hadd := h.accepted.add (not_lt.mp fun hlt => hcycle (hneg.mpr hlt))
      apply hadd.exists_satisfies (Finset.range s.size)
      intro c hc
      rw [Finset.mem_range, Finset.mem_range]
      rcases mem_insert_iff.mp hc with rfl | hin
      · exact ⟨hshape.lt hedge, hshape.lt (hshape.symm hedge)⟩
      · exact h.inside c hin

theorem Inv.upper {u v : Int} (hu : s.vertex u = true) (hv : s.vertex v = true) :
    ∃ w, s.upper ranges u v = .ok w ∧ bound w = D u.toNat v.toNat := by
  unfold Network.upper
  rw [if_neg (not_or.mpr ⟨not_not.mpr hu, not_not.mpr hv⟩)]
  by_cases huv : u = v
  · rw [if_pos huv, huv]
    exact ⟨0, rfl, bound_zero.trans (h.accepted.self _).symm⟩
  · rw [if_neg huv]
    cases hlookup : (s.adj u.toNat).lookup v.toNat with
    | some w => exact ⟨w, rfl, (h.searchable.tight _ _ w hlookup).2⟩
    | none => exact ⟨_, rfl, (searchUpper_exact h.searchable ranges (vertex_iff.mp hu).2).2⟩

theorem Inv.upperSums (u v : Int) : ∀ p ∈ s.upperSums ranges u v, SumExact p.1 p.2 := by
  unfold Network.upperSums
  split
  · exact fun p hp => absurd hp not_mem_nil
  · exact (climbed_climb h.searchable ranges _ _).sums

end

theorem addPoint_error (h : s.addPoint.2 = .error e) : s.addPoint.1 = s := by
  unfold addPoint at *
  by_cases hlarge : 2 ^ 20 ≤ s.size
  · rw [if_pos hlarge]
  · by_cases hweight : 2 ^ 60 / ((s.size : Int) + 2) < s.maxInput
    · rw [if_neg hlarge, if_pos hweight]
    · rw [if_neg hlarge, if_neg hweight] at h
      cases h

theorem connect_error {a b : Int} (h : (s.connect ranges a b).2 = some e) : (s.connect ranges a b).1 = s := by
  unfold connect at *
  by_cases hvertex : ¬ s.vertex a ∨ ¬ s.vertex b
  · rw [if_pos hvertex]
  · rw [if_neg hvertex] at h
    split at h <;> cases h

end Network

/-- A call of one of the methods that change a network. -/
inductive Call where
  | addPoint
  | connect (a b : Int)
  | constrain (source target upper : Int)

/-- A network with the constraints that it accepted. -/
structure Session where
  network : Network
  accepted : List (Constraint Nat) := []

namespace Session

/-- Make a call; the result has the error that it returns. -/
def call (s : Session) (ranges : Ranges) : Call → Session × Option Err
  | .addPoint => ({ s with network := s.network.addPoint.1 },
      match s.network.addPoint.2 with
      | .ok _ => none
      | .error e => some e)
  | .connect a b => ({ s with network := (s.network.connect ranges a b).1 }, (s.network.connect ranges a b).2)
  | .constrain source target upper =>
    ({ network := (s.network.constrain ranges source target upper).1
       accepted := if (s.network.constrain ranges source target upper).2 = none
         then ⟨source.toNat, target.toNat, upper⟩ :: s.accepted else s.accepted },
      (s.network.constrain ranges source target upper).2)

/-- The calls of `pathSum` that a call makes. -/
def callSums (s : Session) (ranges : Ranges) : Call → List (Int × Int)
  | .addPoint => []
  | .connect a b => s.network.connectSums ranges a b
  | .constrain source target upper => s.network.constrainSums ranges source target upper

def run (s : Session) (calls : List (Ranges × Call)) : Session :=
  calls.foldl (fun s c => (s.call c.1 c.2).1) s

/-- The graph of all constraints accepted so far. -/
def constraints (s : Session) : Set (Constraint Nat) := {c | c ∈ s.accepted}

def Inv (s : Session) : Prop := ∃ T D, s.network.Inv s.constraints T D

theorem Inv.call {s : Session} (h : s.Inv) (ranges : Ranges) (c : Call) : (s.call ranges c).1.Inv := by
  obtain ⟨T, D, h⟩ := h
  cases c with
  | addPoint => exact ⟨T, D, h.addPoint⟩
  | connect a b => exact ⟨T, D, (h.connect ranges a b).1⟩
  | constrain source target upper =>
    unfold Session.call Session.Inv constraints
    dsimp only
    rcases (h.constrain ranges source target upper).1 with ⟨e, heq⟩ | ⟨hnone, -, T', D', hinv⟩
    · rw [heq]
      exact ⟨T, D, h⟩
    · rw [if_pos hnone]
      have hset : {c | c ∈ (⟨source.toNat, target.toNat, upper⟩ : Constraint Nat) :: s.accepted} =
          insert ⟨source.toNat, target.toNat, upper⟩ s.constraints := by
        ext c
        rw [mem_insert_iff]
        exact mem_cons
      rw [hset]
      exact ⟨T', D', hinv⟩

theorem inv_run {n : Int} {topology : List (Int × Int)} (hnew : new ranges n topology = .ok s)
    (calls : List (Ranges × Call)) : (Session.run ⟨s, []⟩ calls).Inv := by
  have hstart : Session.Inv ⟨s, []⟩ := by
    refine ⟨∅, fun u v => if u = v then 0 else ⊤, ?_⟩
    have hset : constraints ⟨s, []⟩ = ∅ := by
      ext c
      exact iff_of_false not_mem_nil (notMem_empty c)
    rw [hset]
    exact inv_new hnew
  have hloop : ∀ calls (s : Session), s.Inv → (s.run calls).Inv := by
    intro calls
    induction calls with
    | nil => exact fun s h => h
    | cons c calls ih => exact fun s h => ih _ (h.call c.1 c.2)
  exact hloop calls _ hstart

/-- The bounds of a network are the shortest-path bounds of the accepted constraints. -/
structure BoundsExact (s : Session) : Prop where
  order : s.network.Eliminates s.network.order
  edge : ∀ u v w, (s.network.adj u).lookup v = some w → IsShortest s.constraints u v (bound w)
  upper : ∀ ranges u v, s.network.vertex u = true → s.network.vertex v = true →
    ∃ w, s.network.upper ranges u v = .ok w ∧ IsShortest s.constraints u.toNat v.toNat (bound w) ∧
      (w = infinity ↔ ¬ ∃ l, Walk s.constraints u.toNat v.toNat l)

theorem infinity_iff {s : Session} {u v : Nat} {w : Int} (h : IsShortest s.constraints u v (bound w)) :
    w = infinity ↔ ¬ ∃ l, Walk s.constraints u v l := by
  constructor
  · rintro rfl ⟨l, hwalk⟩
    have hle := h.1 l hwalk
    rw [bound_infinity, top_le_iff] at hle
    exact coe_ne_top hle
  · intro hnone
    by_contra hne
    exact hnone ⟨w, h.2 w (if_neg hne)⟩

/-- After any calls the order is a perfect elimination order, the weight of every edge is
the shortest-path bound between its ends, and so is the answer to every query. -/
theorem bounds_exact {ranges : Ranges} {n : Int} {topology : List (Int × Int)} {s : Network}
    (hnew : new ranges n topology = .ok s) (calls : List (Ranges × Call)) :
    (Session.run ⟨s, []⟩ calls).BoundsExact := by
  obtain ⟨T, D, h⟩ := inv_run hnew calls
  refine ⟨h.searchable.eliminates, fun u v w hw => ?_, fun ranges' u v hu hv => ?_⟩
  · rw [(h.searchable.tight u v w hw).2]
    exact h.accepted.isShortest u v
  · obtain ⟨w, hw, hbound⟩ := h.upper ranges' hu hv
    have hshort := h.accepted.isShortest u.toNat v.toNat
    rw [← hbound] at hshort
    exact ⟨w, hw, hshort, infinity_iff hshort⟩

/-- Calls on a cycle of four vertices, which needs a chord: bounds along it, an edge to one
point more, and a bound that is refused. -/
def cycleCalls : List (Ranges × Call) :=
  [(.ascending, .constrain 0 1 5), (.ascending, .constrain 1 2 (-2)), (.ascending, .addPoint),
    (.ascending, .connect 4 2), (.ascending, .constrain 2 4 7), (.ascending, .constrain 2 1 1)]

theorem cycleCalls_accepted : ∃ s, new .ascending 4 [(0, 1), (1, 2), (2, 3), (3, 0)] = .ok s ∧
    (Session.run ⟨s, []⟩ cycleCalls).accepted.length = 3 := by
  have hlength : ((new .ascending 4 [(0, 1), (1, 2), (2, 3), (3, 0)]).toOption.map
      fun s => (Session.run ⟨s, []⟩ cycleCalls).accepted.length) = some 3 := by decide +kernel
  obtain ⟨s, hs⟩ : ∃ s, new .ascending 4 [(0, 1), (1, 2), (2, 3), (3, 0)] = .ok s := ⟨_, rfl⟩
  rw [hs] at hlength
  exact ⟨s, hs, Option.some.inj hlength⟩

theorem bounds_exact_of_cycle : ∃ s, new .ascending 4 [(0, 1), (1, 2), (2, 3), (3, 0)] = .ok s ∧
    (Session.run ⟨s, []⟩ cycleCalls).accepted.length = 3 ∧ (Session.run ⟨s, []⟩ cycleCalls).BoundsExact := by
  obtain ⟨s, hs, hlength⟩ := cycleCalls_accepted
  exact ⟨s, hs, hlength, bounds_exact hs cycleCalls⟩

theorem call_error {s : Session} (h : s.Inv) {c : Call} (herror : (s.call ranges c).2 = some e) :
    (s.call ranges c).1 = s := by
  obtain ⟨T, D, h⟩ := h
  cases c with
  | addPoint =>
    unfold call at *
    dsimp only at *
    cases hpoint : s.network.addPoint.2 with
    | ok v =>
      rw [hpoint] at herror
      cases herror
    | error e' => rw [addPoint_error hpoint]
  | connect a b =>
    unfold call at *
    dsimp only at *
    rw [connect_error herror]
  | constrain source target upper =>
    unfold call at *
    dsimp only at *
    rcases (h.constrain ranges source target upper).1 with ⟨e', heq⟩ | ⟨hnone, _⟩
    · rw [heq]
      rfl
    · rw [hnone] at herror
      cases herror

/-- What a caller observes of a network: the weights, the order and the answers to all queries. -/
def SameAnswers (s s' : Network) : Prop :=
  s'.adj = s.adj ∧ s'.order = s.order ∧ ∀ ranges u v, s'.upper ranges u v = s.upper ranges u v

/-- After any calls, a constraint on an edge is refused as inconsistent exactly if no
integers meet it together with the accepted ones, and a call that returns an error
changes nothing. -/
theorem contradictions_detected {ranges : Ranges} {n : Int} {topology : List (Int × Int)} {s : Network}
    (hnew : new ranges n topology = .ok s) (calls : List (Ranges × Call)) :
    (∀ ranges source target upper, (Session.run ⟨s, []⟩ calls).network.vertex source = true →
      (Session.run ⟨s, []⟩ calls).network.vertex target = true →
      target.toNat ∈ (Session.run ⟨s, []⟩ calls).network.adj source.toNat →
      |upper| ≤ (Session.run ⟨s, []⟩ calls).network.limit →
      (((Session.run ⟨s, []⟩ calls).network.constrain ranges source target upper).2 = some .inconsistent ↔
        ¬ ∃ time : Nat → Int, Satisfies
          (insert ⟨source.toNat, target.toNat, upper⟩ (Session.run ⟨s, []⟩ calls).constraints) time)) ∧
    ∀ ranges call e, ((Session.run ⟨s, []⟩ calls).call ranges call).2 = some e →
      SameAnswers (Session.run ⟨s, []⟩ calls).network ((Session.run ⟨s, []⟩ calls).call ranges call).1.network := by
  have hinv := inv_run hnew calls
  refine ⟨fun ranges source target upper hsource htarget hedge hupper => ?_, fun ranges call e herror => ?_⟩
  · obtain ⟨T, D, h⟩ := hinv
    exact h.inconsistent_iff ranges hsource htarget hedge hupper
  · rw [call_error hinv herror]
    exact ⟨rfl, rfl, fun _ _ _ => rfl⟩

/-- The last bound of the calls contradicts the one before. -/
theorem contradictions_detected_of_cycle : ∃ s, new .ascending 4 [(0, 1), (1, 2), (2, 3), (3, 0)] = .ok s ∧
      ¬ ∃ time : Nat → Int,
        Satisfies (insert ⟨Int.toNat 2, Int.toNat 1, 1⟩ (Session.run ⟨s, []⟩ cycleCalls).constraints) time := by
  have hrefused : ((new .ascending 4 [(0, 1), (1, 2), (2, 3), (3, 0)]).toOption.map fun s =>
      decide ((Session.run ⟨s, []⟩ cycleCalls).network.vertex 2 = true ∧
        (Session.run ⟨s, []⟩ cycleCalls).network.vertex 1 = true ∧
        Int.toNat 1 ∈ (Session.run ⟨s, []⟩ cycleCalls).network.adj (Int.toNat 2) ∧
        |1| ≤ (Session.run ⟨s, []⟩ cycleCalls).network.limit ∧
        ((Session.run ⟨s, []⟩ cycleCalls).network.constrain .ascending 2 1 1).2 = some .inconsistent)) =
      some true := by decide +kernel
  obtain ⟨s, hs, -⟩ := cycleCalls_accepted
  rw [hs] at hrefused
  obtain ⟨hsource, htarget, hedge, hupper, herror⟩ := of_decide_eq_true (Option.some.inj hrefused)
  exact ⟨s, hs, ((contradictions_detected hs cycleCalls).1 .ascending 2 1 1 hsource htarget hedge hupper).mp herror⟩

/-- The arithmetic is that of unbounded integers: every call of `pathSum` is exact or stands
for an infinite bound, finite bounds are small, and no finite bound is lost. -/
structure ArithmeticExact (s : Session) : Prop where
  callSums : ∀ ranges call, ∀ p ∈ s.callSums ranges call, SumExact p.1 p.2
  upperSums : ∀ ranges u v, ∀ p ∈ s.network.upperSums ranges u v, SumExact p.1 p.2
  small : ∀ u v (l : Int), IsShortest s.constraints u v l → |l| < 2 ^ 60
  stored : ∀ u v, (s.network.adj u).lookup v = some infinity → ¬ ∃ l, Walk s.constraints u v l
  returned : ∀ ranges u v, s.network.upper ranges u v = .ok infinity →
    ¬ ∃ l, Walk s.constraints u.toNat v.toNat l

/-- After any calls, the next call or query computes without overflow. -/
theorem arithmetic_exact {ranges : Ranges} {n : Int} {topology : List (Int × Int)} {s : Network}
    (hnew : new ranges n topology = .ok s) (calls : List (Ranges × Call)) :
    (Session.run ⟨s, []⟩ calls).ArithmeticExact := by
  obtain ⟨T, D, h⟩ := inv_run hnew calls
  have hinfinite : ∀ {u v}, D u v = ⊤ → ¬ ∃ l, Walk (Session.run ⟨s, []⟩ calls).constraints u v l := by
    rintro u v htop ⟨l, hwalk⟩
    have hle := h.accepted.le_walk hwalk
    rw [htop, top_le_iff] at hle
    exact coe_ne_top hle
  refine ⟨fun ranges' call => ?_, fun ranges' u v => h.upperSums ranges' u v, fun u v l hl => ?_,
    fun u v hw => ?_, fun ranges' u v hw => ?_⟩
  · cases call with
    | addPoint => exact fun p hp => absurd hp not_mem_nil
    | connect a b => exact (h.connect ranges' a b).2.2
    | constrain source target upper => exact (h.constrain ranges' source target upper).2
  · -- the shortest-path bound is the distance
    have hle := h.accepted.le_walk (hl.2 l rfl)
    obtain ⟨k, hk, _⟩ := le_coe_iff.mp hle
    have hge := hl.1 k (h.accepted.attained hk)
    rw [hk, coe_le_coe] at hle
    rw [coe_le_coe] at hge
    obtain rfl : l = k := by omega
    exact h.small u v l hk
  · exact hinfinite (((h.searchable.tight u v _ hw).2).symm.trans bound_infinity)
  · by_cases hvertex : (Session.run ⟨s, []⟩ calls).network.vertex u = true ∧
        (Session.run ⟨s, []⟩ calls).network.vertex v = true
    · obtain ⟨w, hok, hbound⟩ := h.upper ranges' hvertex.1 hvertex.2
      cases hok.symm.trans hw
      exact hinfinite (hbound.symm.trans bound_infinity)
    · unfold upper at hw
      rw [if_pos (by tauto)] at hw
      cases hw

theorem arithmetic_exact_of_cycle : ∃ s, new .ascending 4 [(0, 1), (1, 2), (2, 3), (3, 0)] = .ok s ∧
    (Session.run ⟨s, []⟩ cycleCalls).accepted.length = 3 ∧ (Session.run ⟨s, []⟩ cycleCalls).ArithmeticExact := by
  obtain ⟨s, hs, hlength⟩ := cycleCalls_accepted
  exact ⟨s, hs, hlength, arithmetic_exact hs cycleCalls⟩

/-- The differences of two vertices in the schedules that meet the accepted constraints. -/
def differences (s : Session) (u v : Int) : Set Int :=
  {d | ∃ time : Nat → Int, Satisfies s.constraints time ∧ d = time v.toNat - time u.toNat}

/-- Any difference up to the distance is forced by a constraint that closes no negative cycle. -/
theorem exists_difference (h : s.Inv C T D) {u v k : Int} (hu : s.vertex u = true) (hv : s.vertex v = true)
    (hk : (k : WithTop Int) ≤ D u.toNat v.toNat) :
    ∃ time : Nat → Int, Satisfies C time ∧ k ≤ time v.toNat - time u.toNat := by
  have hcycle := add_le_add_right hk ((-k : Int) : WithTop Int)
  rw [← WithTop.coe_add, neg_add_cancel] at hcycle
  obtain ⟨time, hsat⟩ := (h.accepted.add hcycle).exists_satisfies (Finset.range s.size) fun c hc => by
    rw [Finset.mem_range, Finset.mem_range]
    rcases mem_insert_iff.mp hc with rfl | hin
    · exact ⟨(vertex_iff.mp hv).2, (vertex_iff.mp hu).2⟩
    · exact h.inside c hin
  have hback := hsat _ (mem_insert _ _)
  rw [Int.cast_id] at hback
  exact ⟨time, fun c hc => hsat c (mem_insert_of_mem _ hc), by dsimp only at hback; omega⟩

/-- After any calls a query answers with the largest difference of two vertices that the accepted
constraints leave, and with infinity exactly if they leave arbitrarily large ones. -/
theorem upper_greatest {ranges : Ranges} {n : Int} {topology : List (Int × Int)} {net : Network}
    (hnew : new ranges n topology = .ok net) {calls : List (Ranges × Call)} {s : Session}
    (hrun : Session.run ⟨net, []⟩ calls = s) (ranges' : Ranges) {u v : Int}
    (hu : s.network.vertex u = true) (hv : s.network.vertex v = true) :
    ∃ w, s.network.upper ranges' u v = .ok w ∧
      if w = infinity then ¬ BddAbove (s.differences u v) else IsGreatest (s.differences u v) w := by
  obtain ⟨T, D, h⟩ := inv_run hnew calls
  rw [hrun] at h
  obtain ⟨w, hw, hbound⟩ := h.upper ranges' hu hv
  refine ⟨w, hw, ?_⟩
  rw [bound] at hbound
  split_ifs at hbound ⊢ with hinf
  · rintro ⟨k, hk⟩
    obtain ⟨time, hsat, hle⟩ := exists_difference h hu hv (k := k + 1) (hbound ▸ le_top)
    have := hk ⟨time, hsat, rfl⟩
    omega
  · have hupper : w ∈ upperBounds (s.differences u v) := by
      rintro _ ⟨time, hsat, rfl⟩
      simpa using (h.accepted.attained hbound.symm).le_of_satisfies hsat
    obtain ⟨time, hsat, hle⟩ := exists_difference h hu hv hbound.le
    exact ⟨⟨time, hsat, le_antisymm hle (hupper ⟨time, hsat, rfl⟩)⟩, hupper⟩

/-- Two bounds in a row leave a largest difference one way and none the other way. -/
theorem upper_greatest_of_path : ∃ s, new .ascending 3 [(0, 1), (1, 2)] = .ok s ∧
    IsGreatest (differences (Session.run ⟨s, []⟩
      [(.ascending, .constrain 0 1 5), (.ascending, .constrain 1 2 (-7))]) 0 2) (-2) ∧
    ¬ BddAbove (differences (Session.run ⟨s, []⟩
      [(.ascending, .constrain 0 1 5), (.ascending, .constrain 1 2 (-7))]) 2 0) := by
  have hpath := @upper_greatest .ascending 3 [(0, 1), (1, 2)] _ rfl
    [(.ascending, .constrain 0 1 5), (.ascending, .constrain 1 2 (-7))] _ rfl .ascending
  refine ⟨_, rfl, ?_, ?_⟩
  · obtain ⟨w, hw, hgreatest⟩ := @hpath 0 2 rfl rfl
    have hsum : Except.ok (-2) = Except.ok w := hw
    cases hsum
    rwa [if_neg (by decide)] at hgreatest
  · obtain ⟨w, hw, hopen⟩ := @hpath 2 0 rfl rfl
    have hinf : Except.ok infinity = Except.ok w := hw
    cases hinf
    rwa [if_pos rfl] at hopen

end Session

end swytch.stn
