import Swytch.Lib.BreadthFirst
import Swytch.Effects.Dag.Walk

open swytch.lib swytch.proto List

namespace swytch.effects

/-- A route begins a new leg behind a state snapshot. -/
def isGate (log : Log) (t : Tip) : Bool := (log.lookup t).any isStateSnapshot

/-- The tips of a walk are the dependencies of a place above all effects. -/
def rootDeps (log : Log) (key : Bytes) (tips : List Tip) (u : Option Tip) : List Tip := u.elim tips (depsOf log key)

def rootRoute (route : Tip → Route) (u : Option Tip) : Route := u.elim ⟨[], []⟩ route

def rootGate (log : Log) (u : Option Tip) : Bool := u.elim false (isGate log)

namespace Bfs

/-- The routes by which a walk has found its effects. It finds them in the order of their routes,
and they wait in that order. `legs` are the legs behind which the queued ones lie. -/
structure Routed (log : Log) (key : Bytes) (tips : List Tip) (route : Tip → Route) (legs : List (List Nat))
    (s : Bfs) : Prop where
  routes : ∀ t ∈ s.nodes, RouteTo (depsOf log key) (isGate log) tips t (route t)
  sorted : s.nodes.Pairwise (fun a b => route a < route b)
  queue_sub : s.queue.Sublist s.nodes
  snapshots_sub : s.snapshots.Sublist s.nodes
  queue_legs : ∀ t ∈ s.queue, isGate log t = false ∧ (route t).legs = legs
  snapshots_legs : ∀ t ∈ s.snapshots, isGate log t = true ∧ legsRank legs < (route t).closed
  fifo : ∀ t ∈ s.nodes, isGate log t = true → t ∉ s.snapshots → ∀ u ∈ s.snapshots, route t < route u

/-- Collected and expanded; the place above all effects always is. -/
def Settled (s : Bfs) (u : Option Tip) : Prop := ∀ t ∈ u, t ∈ s.nodes ∧ t ∉ s.pending

/-- A walk that has followed the first `j` dependencies of `cur`: whatever it has found comes
before the rest of them, and they come before what is found behind them. -/
structure Following (log : Log) (key : Bytes) (tips : List Tip) (route : Tip → Route) (legs : List (List Nat))
    (cur : Option Tip) (j : Nat) (s : Bfs) : Prop extends Routed log key tips route legs s where
  settled : s.Settled cur
  legs_eq : ((rootRoute route cur).next (rootGate log cur) j).legs = legs
  behind : ∀ t ∈ s.nodes, ∀ i, j ≤ i → route t < (rootRoute route cur).next (rootGate log cur) i
  ahead : ∀ u ∈ s.pending, ∀ i k,
    (rootRoute route cur).next (rootGate log cur) i < (route u).next (isGate log u) k
  followed : ∀ u, s.Settled u → ∀ i t, i < j ∨ u ≠ cur → (rootDeps log key tips u)[i]? = some t →
    t ∈ s.nodes ∧ route t ≤ (rootRoute route u).next (rootGate log u) i

variable {log : Log} {key : Bytes} {tips : List Tip} {route : Tip → Route} {legs : List (List Nat)}
  {cur : Option Tip} {j : Nat} {s s' : Bfs} {t : Tip}

theorem next_legs (r : Route) (gate : Bool) (i j : Nat) : (r.next gate i).legs = (r.next gate j).legs := by
  cases gate <;> rfl

theorem routeTo_next (hroutes : ∀ t ∈ s.nodes, RouteTo (depsOf log key) (isGate log) tips t (route t))
    (hcur : s.Settled cur) (ht : (rootDeps log key tips cur)[j]? = some t) :
    RouteTo (depsOf log key) (isGate log) tips t ((rootRoute route cur).next (rootGate log cur) j) := by
  cases cur with
  | none => exact .start ht
  | some u => exact .dep (hroutes u (hcur u rfl).1) ht

theorem last_or_before {u : Option Tip} {i : Nat} (hi : i < j + 1 ∨ u ≠ cur) : i = j ∧ u = cur ∨ i < j ∨ u ≠ cur := by
  by_cases hcur : u = cur
  · obtain heq | hlt := (Nat.le_of_lt_succ (hi.resolve_right (not_not.mpr hcur))).eq_or_lt
    · exact .inl ⟨heq, hcur⟩
    · exact .inr (.inl hlt)
  · exact .inr (.inr hcur)

/-- A dependency that was found before. -/
theorem Following.seen (h : Following log key tips route legs cur j s) (ht : (rootDeps log key tips cur)[j]? = some t)
    (hseen : t ∈ s.nodes) (frontier : Finset Tip) :
    Following log key tips route legs cur (j + 1) { s with frontier := frontier } := by
  refine ⟨⟨h.routes, h.sorted, h.queue_sub, h.snapshots_sub, h.queue_legs, h.snapshots_legs, h.fifo⟩, h.settled,
    (next_legs _ _ _ j).trans h.legs_eq, fun x hx i hi => h.behind x hx i (by omega), h.ahead, ?_⟩
  intro u hu i x hi hx
  obtain ⟨rfl, rfl⟩ | hbefore := last_or_before hi
  · obtain rfl := Option.some.inj (ht.symm.trans hx)
    exact ⟨hseen, (h.behind t hseen i le_rfl).le⟩
  · exact h.followed u hu i x hbefore hx

theorem rootRoute_congr {route' : Tip → Route} (hsame : ∀ x ∈ s.nodes, route' x = route x) {u : Option Tip}
    (hu : s.Settled u) : rootRoute route' u = rootRoute route u := by
  cases u with
  | none => rfl
  | some x => exact hsame x (hu x rfl).1

theorem Routed.add_new {route' : Tip → Route} {eff : Effect} {frontier : Finset Tip}
    (h : Routed log key tips route legs s) (hsame : ∀ x ∈ s.nodes, route' x = route x)
    (hroute : RouteTo (depsOf log key) (isGate log) tips t (route' t)) (hlegs : (route' t).legs = legs)
    (hlast : ∀ x ∈ s.nodes, route x < route' t) (heff : log.lookup t = some eff) :
    Routed log key tips route' legs
      ({ s with nodes := s.nodes ++ [t], frontier := frontier }.enqueue t eff) := by
  have hgate : isGate log t = isStateSnapshot eff := by simp [isGate, heff]
  have hqueue : ∀ x ∈ s.queue, x ∈ s.nodes := h.queue_sub.subset
  have hsnapshots : ∀ x ∈ s.snapshots, x ∈ s.nodes := h.snapshots_sub.subset
  have hroutes : ∀ x ∈ s.nodes ++ [t], RouteTo (depsOf log key) (isGate log) tips x (route' x) := by
    intro x hx
    obtain hx | hx := mem_append.mp hx
    · exact hsame x hx ▸ h.routes x hx
    · exact mem_singleton.mp hx ▸ hroute
  have hsorted : (s.nodes ++ [t]).Pairwise (fun a b => route' a < route' b) := by
    refine pairwise_append.mpr ⟨?_, pairwise_singleton _ _, fun a ha b hb => ?_⟩
    · exact h.sorted.imp_of_mem fun ha hb hab => by rwa [hsame _ ha, hsame _ hb]
    · rw [mem_singleton.mp hb, hsame a ha]
      exact hlast a ha
  have hplain : ∀ x ∈ s.queue, isGate log x = false ∧ (route' x).legs = legs := fun x hx =>
    hsame x (hqueue x hx) ▸ h.queue_legs x hx
  have hstates : ∀ x ∈ s.snapshots, isGate log x = true ∧ legsRank legs < (route' x).closed := fun x hx =>
    hsame x (hsnapshots x hx) ▸ h.snapshots_legs x hx
  have hfifo : ∀ x ∈ s.nodes, isGate log x = true → x ∉ s.snapshots → ∀ u ∈ s.snapshots, route' x < route' u := by
    intro x hx hg hnot u hu
    rw [hsame x hx, hsame u (hsnapshots u hu)]
    exact h.fifo x hx hg hnot u hu
  unfold enqueue
  by_cases hstate : isStateSnapshot eff = true
  · rw [if_pos hstate]
    refine ⟨hroutes, hsorted, h.queue_sub.trans (sublist_append_left _ _), h.snapshots_sub.append (.refl [t]), hplain,
      fun x hx => ?_, fun x hx hg hnot u hu => ?_⟩
    · obtain hx | hx := mem_append.mp hx
      · exact hstates x hx
      · rw [mem_singleton.mp hx]
        refine ⟨hgate.trans hstate, ?_⟩
        rw [Route.closed, hlegs]
        exact Route.legsRank_lt_concat _ _
    · simp only [mem_append, mem_singleton, not_or] at hx hnot hu
      have hold := hx.resolve_right hnot.2
      obtain hu | rfl := hu
      · exact hfifo x hold hg hnot.1 u hu
      · rw [hsame x hold]
        exact hlast x hold
  · rw [if_neg hstate]
    refine ⟨hroutes, hsorted, h.queue_sub.append (.refl [t]), h.snapshots_sub.trans (sublist_append_left _ _),
      fun x hx => ?_, hstates, fun x hx hg hnot u hu => ?_⟩
    · obtain hx | hx := mem_append.mp hx
      · exact hplain x hx
      · rw [mem_singleton.mp hx]
        exact ⟨hgate.trans (Bool.eq_false_iff.mpr hstate), hlegs⟩
    · obtain hx | hx := mem_append.mp hx
      · exact hfifo x hx hg hnot u hu
      · rw [mem_singleton.mp hx, hgate] at hg
        exact absurd hg hstate

/-- Follow one more dependency. -/
theorem Following.adds (h : Following log key tips route legs cur j s) (hadds : Adds log s t s')
    (ht : (rootDeps log key tips cur)[j]? = some t) :
    ∃ route', (∀ x ∈ s.nodes, route' x = route x) ∧ Following log key tips route' legs cur (j + 1) s' := by
  obtain ⟨hseen, frontier, rfl⟩ | ⟨hnew, eff, frontier, heff, rfl⟩ := hadds
  · exact ⟨route, fun _ _ => rfl, h.seen ht hseen frontier⟩
  · obtain ⟨r, hr⟩ : ∃ r, r = (rootRoute route cur).next (rootGate log cur) j := ⟨_, rfl⟩
    have hsame : ∀ x ∈ s.nodes, Function.update route t r x = route x := fun x hx =>
      Function.update_of_ne (fun heq : x = t => hnew (heq ▸ hx)) r route
    have hnow : Function.update route t r t = r := Function.update_self t r route
    have hcur := rootRoute_congr hsame h.settled
    have hpending (x : Tip) := mem_pending_enqueue { s with nodes := s.nodes ++ [t], frontier := frontier } t eff x
    have hpend_nodes : ∀ x ∈ s.pending, x ∈ s.nodes := fun x hx =>
      (mem_append.mp hx).elim (fun hx => h.queue_sub.subset hx) (fun hx => h.snapshots_sub.subset hx)
    have hsettled {u : Option Tip}
        (hu : Settled ({ s with nodes := s.nodes ++ [t], frontier := frontier }.enqueue t eff) u) :
        s.Settled u := by
      intro x hx
      obtain ⟨hmem, hnot⟩ := hu x hx
      rw [hpending, not_or] at hnot
      rw [enqueue_nodes, mem_append, mem_singleton] at hmem
      exact ⟨hmem.resolve_right hnot.2, hnot.1⟩
    refine ⟨Function.update route t r, hsame, ⟨h.toRouted.add_new hsame ?_ ?_ ?_ heff, ?_, ?_, ?_, ?_, ?_⟩⟩
    · rw [hnow, hr]
      exact routeTo_next h.routes h.settled ht
    · rw [hnow, hr]
      exact h.legs_eq
    · intro x hx
      rw [hnow, hr]
      exact h.behind x hx j le_rfl
    · intro x hx
      obtain ⟨hmem, hnot⟩ := h.settled x hx
      refine ⟨by simp [hmem], fun hp => ?_⟩
      obtain hp | rfl := (hpending x).mp hp
      · exact hnot hp
      · exact hnew hmem
    · rw [hcur, next_legs _ _ _ j]
      exact h.legs_eq
    · intro x hx i hi
      rw [hcur]
      rw [enqueue_nodes, mem_append, mem_singleton] at hx
      obtain hx | rfl := hx
      · rw [hsame x hx]
        exact h.behind x hx i (by omega)
      · rw [hnow, hr]
        exact Route.next_lt_next (by omega)
    · intro u hu i k
      rw [hcur]
      obtain hu | rfl := (hpending u).mp hu
      · rw [hsame u (hpend_nodes u hu)]
        exact h.ahead u hu i k
      · rw [hnow, hr]
        exact Route.next_lt_next_next _ _ _ _ _ _
    · intro u hu i x hi hx
      have hu := hsettled hu
      rw [rootRoute_congr hsame hu, enqueue_nodes]
      obtain ⟨rfl, rfl⟩ | hbefore := last_or_before hi
      · obtain rfl := Option.some.inj (ht.symm.trans hx)
        exact ⟨by simp, by rw [hnow, hr]⟩
      · obtain ⟨hmem, hle⟩ := h.followed u hu i x hbefore hx
        exact ⟨mem_append_left _ hmem, by rwa [hsame x hmem]⟩

/-- Follow the dependencies that are left. -/
theorem Following.foldlM {add : Bfs → Tip → Option Bfs} (hadd : ∀ {s t s'}, add s t = some s' → Adds log s t s')
    {ts : List Tip} (h : Following log key tips route legs cur j s) (hts : (rootDeps log key tips cur).drop j = ts)
    (hfold : ts.foldlM add s = some s') :
    ∃ route' j', (rootDeps log key tips cur).length ≤ j' ∧ Following log key tips route' legs cur j' s' := by
  induction ts generalizing s j route with
  | nil =>
    cases hfold
    exact ⟨route, j, drop_eq_nil_iff.mp hts, h⟩
  | cons t ts ih =>
    rw [foldlM_cons] at hfold
    obtain ⟨s₁, hfirst, hrest⟩ := Option.bind_eq_some_iff.mp hfold
    have ht : (rootDeps log key tips cur)[j]? = some t := by
      rw [← head?_drop, hts]
      rfl
    obtain ⟨route', -, h'⟩ := h.adds (hadd hfirst) ht
    refine ih h' ?_ hrest
    rw [← tail_drop, hts]
    rfl

/-- Between two iterations whatever was found comes before what is found next. -/
structure Ordered (log : Log) (key : Bytes) (tips : List Tip) (route : Tip → Route) (legs : List (List Nat))
    (s : Bfs) : Prop extends Routed log key tips route legs s where
  ahead : ∀ t ∈ s.nodes, ∀ u ∈ s.pending, ∀ k, route t < (route u).next (isGate log u) k
  followed : ∀ u, s.Settled u → ∀ i t, (rootDeps log key tips u)[i]? = some t →
    t ∈ s.nodes ∧ route t ≤ (rootRoute route u).next (rootGate log u) i

theorem Following.finish (h : Following log key tips route legs cur j s)
    (hj : (rootDeps log key tips cur).length ≤ j) : Ordered log key tips route legs s := by
  refine ⟨h.toRouted, fun t ht u hu k => (h.behind t ht j le_rfl).trans (h.ahead u hu j k), fun u hu i t ht => ?_⟩
  refine h.followed u hu i t ?_ ht
  by_cases hcur : u = cur
  · obtain ⟨hlt, -⟩ := List.getElem?_eq_some_iff.mp ht
    rw [hcur] at hlt
    exact .inl (by omega)
  · exact .inr hcur

theorem Following.start (log : Log) (key : Bytes) (tips : List Tip) (route : Tip → Route) :
    Following log key tips route [] none 0 {} := by
  refine ⟨⟨by simp, .nil, .slnil, .slnil, by simp, by simp, by simp⟩, nofun, rfl, by simp, by simp [pending], ?_⟩
  intro u hu i t hi
  cases u with
  | none => simp at hi
  | some x => exact absurd (hu x rfl).1 not_mem_nil

/-- An effect that is dequeued is followed next. -/
theorem Ordered.dequeue {c : Tip} (h : Ordered log key tips route legs s) (hdequeue : s.dequeue = some (c, s'))
    (frontier : Finset Tip) :
    ∃ legs', Following log key tips route legs' (some c) 0 { s' with frontier := frontier } := by
  have hqueue := h.sorted.sublist h.queue_sub
  have hsnapshots := h.sorted.sublist h.snapshots_sub
  have hpending : s.pending = c :: s'.pending := (dequeue_eq_some hdequeue).1
  have hnodes : s'.nodes = s.nodes := (dequeue_eq_some hdequeue).2.1
  have hc : c ∈ s.pending := by simp [hpending]
  have hfollowed : ∀ u, s'.Settled u → u ≠ some c → s.Settled u := by
    intro u hu hne x hx
    obtain ⟨hmem, hnot⟩ := hu x hx
    rw [hpending, mem_cons, not_or]
    exact ⟨hnodes ▸ hmem, fun heq => hne (heq ▸ hx), hnot⟩
  have hbehind : ∀ t ∈ s'.nodes, ∀ i, 0 ≤ i → route t < (route c).next (isGate log c) i := fun t ht i _ =>
    h.ahead t (hnodes ▸ ht) c hc i
  have hrest : ∀ u, s'.Settled u → ∀ i t, i < 0 ∨ u ≠ some c → (rootDeps log key tips u)[i]? = some t →
      t ∈ s'.nodes ∧ route t ≤ (rootRoute route u).next (rootGate log u) i := by
    intro u hu i t hi ht
    rw [hnodes]
    exact h.followed u (hfollowed u hu (hi.resolve_left (by omega))) i t ht
  obtain ⟨rest, hq, rfl⟩ | ⟨hq, rest, hsn, rfl⟩ := dequeue_cases hdequeue
  · rw [hq] at hqueue
    obtain ⟨hfirst, hqueue⟩ := pairwise_cons.mp hqueue
    obtain ⟨hplain, hlegs⟩ := h.queue_legs c (by simp [hq])
    have hmem : c ∈ s.nodes := h.queue_sub.subset (by simp [hq])
    refine ⟨legs, ⟨⟨h.routes, h.sorted, ?_, h.snapshots_sub, ?_, h.snapshots_legs, h.fifo⟩, ?_, ?_, hbehind, ?_, hrest⟩⟩
    · exact (sublist_cons_self c rest).trans (hq ▸ h.queue_sub)
    · exact fun t ht => h.queue_legs t (by simp [hq, ht])
    · rintro x ⟨⟩
      refine ⟨hmem, fun hin => ?_⟩
      obtain hin | hin := mem_append.mp hin
      · exact lt_irrefl _ (hfirst c hin)
      · rw [(h.snapshots_legs c hin).1] at hplain
        cases hplain
    · simp [rootRoute, rootGate, hplain, Route.next, hlegs]
    · intro u hu i k
      simp only [rootRoute, rootGate, Option.elim_some, hplain]
      obtain hu | hu := mem_append.mp hu
      · obtain ⟨hplain', hlegs'⟩ := h.queue_legs u (by simp [hq, show u ∈ rest from hu])
        rw [hplain']
        exact Route.next_open_lt (hlegs.trans hlegs'.symm) (hfirst u hu) i k
      · obtain ⟨hgate, hlater⟩ := h.snapshots_legs u hu
        rw [hgate]
        exact Route.next_open_lt_closed (hlegs ▸ hlater) i k
  · rw [hsn] at hsnapshots
    obtain ⟨hfirst, hsnapshots⟩ := pairwise_cons.mp hsnapshots
    obtain ⟨hgate, -⟩ := h.snapshots_legs c (by simp [hsn])
    have hmem : c ∈ s.nodes := h.snapshots_sub.subset (by simp [hsn])
    refine ⟨(route c).legs ++ [(route c).leg],
      ⟨⟨h.routes, h.sorted, h.queue_sub, ?_, ?_, ?_, ?_⟩, ?_, ?_, hbehind, ?_, hrest⟩⟩
    · exact (sublist_cons_self c rest).trans (hsn ▸ h.snapshots_sub)
    · exact fun t ht => absurd ht (by simp [hq])
    · exact fun t ht => ⟨(h.snapshots_legs t (by simp [hsn, show t ∈ rest from ht])).1,
        Route.closed_lt_closed (hfirst t ht)⟩
    · intro t ht hg hnot u hu
      by_cases heq : t = c
      · exact heq ▸ hfirst u hu
      · exact h.fifo t ht hg (by simpa [hsn, heq] using hnot) u (by simp [hsn, show u ∈ rest from hu])
    · rintro x ⟨⟩
      refine ⟨hmem, fun hin => ?_⟩
      rw [pending, hq, nil_append] at hin
      exact lt_irrefl _ (hfirst c hin)
    · simp [rootRoute, rootGate, hgate, Route.next]
    · intro u hu i k
      rw [pending, hq, nil_append] at hu
      simp only [rootRoute, rootGate, Option.elim_some, hgate]
      rw [(h.snapshots_legs u (by simp [hsn, show u ∈ rest from hu])).1]
      exact Route.next_closed_lt (hfirst u hu) i k

/-- A walk finds effects in the order of their routes. -/
theorem Walked.ordered (hwalked : Walked log key tips s) : ∃ route legs, Ordered log key tips route legs s := by
  obtain ⟨start, hstart, hsteps⟩ := hwalked
  induction hsteps with
  | refl =>
    obtain ⟨route, j, hj, h⟩ := (Following.start log key tips (fun _ => ⟨[], []⟩)).foldlM adds_of_addTip rfl hstart
    exact ⟨route, [], h.finish hj⟩
  | tail _ hstep ih =>
    obtain ⟨route, legs, h⟩ := ih
    obtain ⟨c, s', eff, hdequeue, heff, -, hexpand⟩ := hstep
    have hdeps : rootDeps log key tips (some c) = keyDeps key eff := by simp [rootDeps, depsOf, heff]
    obtain ⟨legs', hfollowing⟩ := h.dequeue hdequeue _
    obtain ⟨route', j, hj, h'⟩ := hfollowing.foldlM adds_of_addDep hdeps (expand_eq_some hexpand)
    exact ⟨route', legs', h'.finish hj⟩

/-- An effect that was found has no route before the one it was found by, and one that was not has
no route before any of these. -/
theorem Ordered.least (h : Ordered log key tips route legs s) {r : Route}
    (hr : RouteTo (depsOf log key) (isGate log) tips t r) :
    (t ∈ s.nodes ∧ route t ≤ r) ∨ ∀ x ∈ s.nodes, route x < r := by
  induction hr with
  | start ht => exact .inl (h.followed none nofun _ _ ht)
  | @dep j u t r hu ht ih =>
    obtain ⟨hmem, hle⟩ | hlater := ih
    · by_cases hpending : u ∈ s.pending
      · exact .inr fun x hx => (h.ahead x hx u hpending j).trans_le (Route.next_le_next hle _ j)
      · obtain ⟨hfound, hroute⟩ := h.followed (some u) (by rintro _ ⟨⟩; exact ⟨hmem, hpending⟩) j t ht
        exact .inl ⟨hfound, hroute.trans (Route.next_le_next hle _ j)⟩
    · exact .inr fun x hx => (hlater x hx).trans (Route.lt_next r _ j)

theorem Ordered.route_le (h : Ordered log key tips route legs s) (ht : t ∈ s.nodes) {r : Route}
    (hr : RouteTo (depsOf log key) (isGate log) tips t r) : route t ≤ r :=
  (h.least hr).elim And.right fun hlater => (hlater t ht).le

/-- A state snapshot that was expanded comes before those that are pending. -/
theorem Walked.precedes {S : Tip} (hwalked : Walked log key tips s) (ht : t ∈ s.nodes)
    (hgate : isGate log t = true) (hdone : t ∉ s.pending) (hS : S ∈ s.pending) (hsnap : isGate log S = true) :
    Precedes (depsOf log key) (isGate log) tips t S := by
  obtain ⟨route, legs, h⟩ := hwalked.ordered
  refine ⟨route t, h.routes t ht, fun r hr => ?_⟩
  have hnot : t ∉ s.snapshots := fun hin => hdone (mem_append_right _ hin)
  obtain hS | hS := mem_append.mp hS
  · rw [(h.queue_legs S hS).1] at hsnap
    cases hsnap
  · exact (h.fifo t ht hgate hnot S hS).trans_le (h.route_le (h.snapshots_sub.subset hS) hr)

/-- What is pending behind a state snapshot does not come before it. -/
theorem Walked.not_precedes {S : Tip} (hwalked : Walked log key tips s) (hdequeue : s.dequeue = some (S, s'))
    (hgate : isGate log S = true) (ht : t ∈ s'.pending) :
    isGate log t = true ∧ ¬ Precedes (depsOf log key) (isGate log) tips t S := by
  obtain ⟨route, legs, h⟩ := hwalked.ordered
  obtain ⟨rest, hq, rfl⟩ | ⟨hq, rest, hsn, rfl⟩ := dequeue_cases hdequeue
  · rw [(h.queue_legs S (by simp [hq])).1] at hgate
    cases hgate
  · rw [pending, hq, nil_append] at ht
    have hin : t ∈ s.snapshots := by simp [hsn, show t ∈ rest from ht]
    have hsnapshots := h.sorted.sublist h.snapshots_sub
    rw [hsn] at hsnapshots
    have hlt := (pairwise_cons.mp hsnapshots).1 t ht
    refine ⟨(h.snapshots_legs t hin).1, ?_⟩
    rintro ⟨r, hr, hfirst⟩
    have hle := h.route_le (h.snapshots_sub.subset hin) hr
    have hS : S ∈ s.nodes := h.snapshots_sub.subset (by simp [hsn])
    exact absurd (hfirst _ (h.routes S hS)) (not_lt.mpr (hlt.le.trans hle))

end Bfs

end swytch.effects
