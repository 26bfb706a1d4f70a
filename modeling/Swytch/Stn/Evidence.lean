import Swytch.Stn.Elapsed
import Swytch.Stn.Session

namespace swytch.stn

open swytch.lib Function List Option Nat Finmap Network Clocks Memory

/-- The real times of the anchors meet the constraints of the network. -/
def Evidence (T : Sample → ℝ) (s : Network) (anchors : Finmap (fun _ : UInt64 => ClockAnchor)) : Prop :=
  ∃ C T' D, ∃ time : Nat → ℝ, s.Inv C T' D ∧ Satisfies C time ∧
    ∀ domain a, anchors.lookup domain = some a → a.vertex < s.size ∧ time a.vertex = T ⟨domain, a.tick⟩

variable {T : Sample → ℝ} {s : Network} {anchors : Finmap (fun _ : UInt64 => ClockAnchor)} {v : Nat}
  {p e : Sample} {upper ppm : Int} {c : Clocks} {m m' : Memory} {C : Set (Constraint Nat)}
  {D : Nat → Nat → WithTop Int} {known : Bool}

namespace Evidence

/-- A point for a domain that has no anchor yet. -/
theorem addPoint (h : Evidence T s anchors) (sample : Sample) (hv : s.addPoint.2 = .ok v) :
    Evidence T s.addPoint.1 (anchors.insert sample.domain ⟨v, sample.tick⟩) := by
  obtain ⟨C, T', D, time, hinv, hsat, hanchors⟩ := h
  obtain ⟨rfl, hsize⟩ : v = s.size ∧ s.addPoint.1.size = s.size + 1 := by
    unfold Network.addPoint at *
    split at hv
    · cases hv
    · rename_i hlarge
      split at hv
      · cases hv
      · rename_i hweight
        rw [if_neg hlarge, if_neg hweight]
        exact ⟨(Except.ok.inj hv).symm, rfl⟩
  refine ⟨C, T', D, update time s.size (T sample), hinv.addPoint, fun c hc => ?_, fun domain a ha => ?_⟩
  · obtain ⟨hsource, htarget⟩ := hinv.inside c hc
    rw [update_of_ne (by omega), update_of_ne (by omega)]
    exact hsat c hc
  · rw [hsize]
    by_cases hdomain : domain = sample.domain
    · subst hdomain
      rw [lookup_insert] at ha
      cases ha
      exact ⟨lt_succ_self _, update_self _ _ _⟩
    · rw [lookup_insert_of_ne _ hdomain] at ha
      obtain ⟨hlt, htime⟩ := hanchors domain a ha
      exact ⟨lt_succ_of_lt hlt, by rw [update_of_ne (by omega), htime]⟩

theorem connect (h : Evidence T s anchors) (ranges : Ranges) (a b : Int) :
    Evidence T (s.connect ranges a b).1 anchors := by
  obtain ⟨C, T', D, time, hinv, hsat, hanchors⟩ := h
  obtain ⟨hinv', hsize, -⟩ := hinv.connect ranges a b
  exact ⟨C, T', D, time, hinv', hsat, hsize.symm ▸ hanchors⟩

/-- A bound that holds for the anchors is not refused. -/
theorem constrain (h : Evidence T s anchors) (ranges : Ranges) {p e : UInt64} {pa ea : ClockAnchor}
    (hp : anchors.lookup p = some pa) (he : anchors.lookup e = some ea)
    (hupper : T ⟨p, pa.tick⟩ - T ⟨e, ea.tick⟩ ≤ (upper : ℝ)) :
    Evidence T (s.constrain ranges ea.vertex pa.vertex upper).1 anchors ∧
      (s.constrain ranges ea.vertex pa.vertex upper).2 ≠ some .inconsistent := by
  obtain ⟨C, T', D, time, hinv, hsat, hanchors⟩ := h
  have hsat' : Satisfies (insert ⟨(ea.vertex : Int).toNat, (pa.vertex : Int).toNat, upper⟩ C) time := by
    intro c hc
    rcases Set.mem_insert_iff.mp hc with rfl | hold
    · dsimp only
      rw [Int.toNat_natCast, Int.toNat_natCast, (hanchors p pa hp).2, (hanchors e ea he).2]
      exact hupper
    · exact hsat c hold
  refine ⟨?_, hinv.constrain_ne_inconsistent ranges hsat'⟩
  rcases (hinv.constrain ranges ea.vertex pa.vertex upper).1 with ⟨err, heq⟩ | ⟨-, hsize, T₁, D₁, hinv'⟩
  · rw [heq]
    exact ⟨C, T', D, time, hinv, hsat, hanchors⟩
  · exact ⟨_, T₁, D₁, time, hinv', hsat', hsize.symm ▸ hanchors⟩

end Evidence

/-- Only the network and the anchors that a version refers to are changed. -/
structure OnlyAt (c : Clocks) (m m' : Memory) : Prop where
  networks : ∀ r, r ≠ c.network → m'.networks r = m.networks r
  anchors : ∀ r, r ≠ c.anchors → m'.anchors r = m.anchors r
  nextNetwork : m'.nextNetwork = m.nextNetwork
  nextAnchors : m'.nextAnchors = m.nextAnchors

theorem OnlyAt.refl (c : Clocks) (m : Memory) : OnlyAt c m m := ⟨fun _ _ => rfl, fun _ _ => rfl, rfl, rfl⟩

theorem OnlyAt.trans {m₁ m₂ m₃ : Memory} (h : OnlyAt c m₁ m₂) (h' : OnlyAt c m₂ m₃) : OnlyAt c m₁ m₃ where
  networks r hr := (h'.networks r hr).trans (h.networks r hr)
  anchors r hr := (h'.anchors r hr).trans (h.anchors r hr)
  nextNetwork := h'.nextNetwork.trans h.nextNetwork
  nextAnchors := h'.nextAnchors.trans h.nextAnchors

theorem onlyAt_setNetwork (c : Clocks) (m : Memory) (s : Network) : OnlyAt c m (m.setNetwork c.network s) :=
  ⟨fun _ hr => update_of_ne hr _ _, fun _ _ => rfl, rfl, rfl⟩

theorem onlyAt_setAnchors (c : Clocks) (m : Memory) (anchors : Finmap (fun _ : UInt64 => ClockAnchor)) :
    OnlyAt c m (m.setAnchors c.anchors anchors) :=
  ⟨fun _ _ => rfl, fun _ hr => update_of_ne hr _ _, rfl, rfl⟩

namespace Clocks

theorem anchor_of_known {s : Sample} {a : ClockAnchor} (h : (m.anchors c.anchors).lookup s.domain = some a) :
    c.anchor m s = (m, .ok a) := by
  unfold anchor
  rw [h]

/-- The two ways in which a domain without an anchor gets one, or does not. -/
theorem anchor_of_unknown {s : Sample} (h : (m.anchors c.anchors).lookup s.domain = none) :
    (∃ e, (m.networks c.network).addPoint.2 = .error e ∧
        c.anchor m s = (m.setNetwork c.network (m.networks c.network).addPoint.1, .error e)) ∨
      ∃ v, (m.networks c.network).addPoint.2 = .ok v ∧
        c.anchor m s = ((m.setNetwork c.network (m.networks c.network).addPoint.1).setAnchors c.anchors
          ((m.anchors c.anchors).insert s.domain ⟨v, s.tick⟩), .ok ⟨v, s.tick⟩) := by
  unfold anchor
  rw [h]
  dsimp only
  split
  · rename_i network e heq
    exact .inl ⟨e, by rw [heq], by rw [heq]⟩
  · rename_i network v heq
    exact .inr ⟨v, by rw [heq], by rw [heq]⟩

theorem onlyAt_anchor (c : Clocks) (m : Memory) (s : Sample) : OnlyAt c m (c.anchor m s).1 := by
  cases h : (m.anchors c.anchors).lookup s.domain with
  | some a =>
    rw [anchor_of_known h]
    exact .refl c m
  | none =>
    rcases anchor_of_unknown h with ⟨e, -, heq⟩ | ⟨v, -, heq⟩
    · rw [heq]
      exact onlyAt_setNetwork c m _
    · rw [heq]
      exact (onlyAt_setNetwork c m _).trans (onlyAt_setAnchors c _ _)

/-- The anchors that a version has stay, and other domains get none. -/
theorem lookup_anchor {s : Sample} {domain : UInt64}
    (h : domain ≠ s.domain ∨ (m.anchors c.anchors).lookup domain ≠ none) :
    ((c.anchor m s).1.anchors c.anchors).lookup domain = (m.anchors c.anchors).lookup domain := by
  cases hs : (m.anchors c.anchors).lookup s.domain with
  | some a => rw [anchor_of_known hs]
  | none =>
    have hne : domain ≠ s.domain := by
      rcases h with hne | hsome
      · exact hne
      · exact fun heq => hsome (heq ▸ hs)
    rcases anchor_of_unknown hs with ⟨e, -, heq⟩ | ⟨v, -, heq⟩
    · rw [heq]
      rfl
    · rw [heq]
      simp only [setAnchors, setNetwork, update_self]
      exact lookup_insert_of_ne _ hne

theorem evidence_anchor (h : Evidence T (m.networks c.network) (m.anchors c.anchors)) (s : Sample) :
    Evidence T ((c.anchor m s).1.networks c.network) ((c.anchor m s).1.anchors c.anchors) ∧
      (∀ e, (c.anchor m s).2 = .error e → e ≠ .inconsistent) ∧ ∀ a, (c.anchor m s).2 = .ok a →
        ((c.anchor m s).1.anchors c.anchors).lookup s.domain = some a ∧ a.tick = c.anchorTick m s := by
  unfold anchorTick
  cases hs : (m.anchors c.anchors).lookup s.domain with
  | some a =>
    rw [anchor_of_known hs]
    refine ⟨h, fun e he => (by cases he), fun a' ha' => ?_⟩
    cases ha'
    exact ⟨hs, rfl⟩
  | none =>
    rcases anchor_of_unknown hs with ⟨e, herror, heq⟩ | ⟨v, hok, heq⟩
    · have hsame := addPoint_error herror
      rw [heq, hsame]
      simp only [setNetwork, update_self]
      refine ⟨h, fun e' he' => ?_, fun a ha => by cases ha⟩
      cases he'
      unfold addPoint at herror
      rintro rfl
      split at herror
      · cases herror
      · split at herror <;> cases herror
    · rw [heq]
      simp only [setAnchors, setNetwork, update_self]
      refine ⟨h.addPoint s hok, fun e he => (by cases he), fun a ha => ?_⟩
      cases ha
      exact ⟨lookup_insert _, rfl⟩

theorem onlyAt_constrainAnchors (c : Clocks) (m : Memory) (ranges : Ranges) (e p : Nat) (upper : Int) :
    OnlyAt c m (c.constrainAnchors m ranges e p upper).1 ∧
      (c.constrainAnchors m ranges e p upper).1.anchors = m.anchors := by
  unfold constrainAnchors
  split
  · exact ⟨onlyAt_setNetwork c m _, rfl⟩
  · exact ⟨onlyAt_setNetwork c m _, rfl⟩

theorem evidence_constrainAnchors (h : Evidence T (m.networks c.network) (m.anchors c.anchors)) (ranges : Ranges)
    {p e : UInt64} {pa ea : ClockAnchor} (hp : (m.anchors c.anchors).lookup p = some pa)
    (he : (m.anchors c.anchors).lookup e = some ea) (hupper : T ⟨p, pa.tick⟩ - T ⟨e, ea.tick⟩ ≤ (upper : ℝ)) :
    Evidence T ((c.constrainAnchors m ranges ea.vertex pa.vertex upper).1.networks c.network)
        ((c.constrainAnchors m ranges ea.vertex pa.vertex upper).1.anchors c.anchors) ∧
      (c.constrainAnchors m ranges ea.vertex pa.vertex upper).2 ≠ some .inconsistent := by
  have hconnect := h.connect ranges ea.vertex pa.vertex
  unfold constrainAnchors
  split
  · rename_i network err heq
    rw [heq] at hconnect
    simp only [setNetwork, update_self]
    refine ⟨hconnect, fun hinconsistent => ?_⟩
    cases hinconsistent
    unfold connect at heq
    split at heq
    · cases heq
    · split at heq <;> cases heq
  · rename_i network heq
    rw [heq] at hconnect
    simp only [setNetwork, update_self]
    exact hconnect.constrain ranges hp he hupper

/-- The changes stay in the network and the anchors of the version; with both domains known,
in the network alone. -/
theorem onlyAt_incorporate (c : Clocks) (m : Memory) (ranges : Ranges) (p e : Sample) (upper : Int) :
    OnlyAt c m (c.incorporate m ranges p e upper).1 ∧
      ((m.anchors c.anchors).lookup p.domain ≠ none → (m.anchors c.anchors).lookup e.domain ≠ none →
        (c.incorporate m ranges p e upper).1.anchors = m.anchors) := by
  have hp := c.onlyAt_anchor m p
  unfold incorporate
  constructor
  · split
    · rename_i m₁ err heq
      rw [heq] at hp
      exact hp
    · rename_i m₁ pa heq
      rw [heq] at hp
      have he := c.onlyAt_anchor m₁ e
      split
      · rename_i m₂ err heq₂
        rw [heq₂] at he
        exact hp.trans he
      · rename_i m₂ ea heq₂
        rw [heq₂] at he
        exact (hp.trans he).trans (c.onlyAt_constrainAnchors m₂ ranges _ _ upper).1
  · intro hpknown heknown
    obtain ⟨pa, hpa⟩ := ne_none_iff_exists'.mp hpknown
    obtain ⟨ea, hea⟩ := ne_none_iff_exists'.mp heknown
    rw [anchor_of_known hpa]
    dsimp only
    rw [anchor_of_known hea]
    exact (c.onlyAt_constrainAnchors m ranges _ _ upper).2

theorem evidence_incorporate (h : Evidence T (m.networks c.network) (m.anchors c.anchors)) (ranges : Ranges)
    (hne : p.domain ≠ e.domain)
    (hupper : T ⟨p.domain, c.anchorTick m p⟩ - T ⟨e.domain, c.anchorTick m e⟩ ≤ (upper : ℝ)) :
    Evidence T ((c.incorporate m ranges p e upper).1.networks c.network)
        ((c.incorporate m ranges p e upper).1.anchors c.anchors) ∧
      (c.incorporate m ranges p e upper).2 ≠ some .inconsistent := by
  obtain ⟨hp, hperror, hpok⟩ := evidence_anchor h p
  have hetick : c.anchorTick (c.anchor m p).1 e = c.anchorTick m e := by
    unfold anchorTick
    rw [lookup_anchor (.inl hne.symm)]
  unfold incorporate
  split
  · rename_i m₁ err heq
    rw [heq] at hp hperror
    exact ⟨hp, fun heq => hperror err rfl (some.inj heq)⟩
  · rename_i m₁ pa heq
    rw [heq] at hp hpok hetick
    obtain ⟨hplookup, hptick⟩ := hpok pa rfl
    obtain ⟨he, heerror, heok⟩ := evidence_anchor hp e
    have hkeep := lookup_anchor (c := c) (m := m₁) (s := e) (.inl hne)
    split
    · rename_i m₂ err heq₂
      rw [heq₂] at he heerror
      exact ⟨he, fun heq => heerror err rfl (some.inj heq)⟩
    · rename_i m₂ ea heq₂
      rw [heq₂] at he heok hkeep
      obtain ⟨helookup, hetick₂⟩ := heok ea rfl
      apply evidence_constrainAnchors he ranges (hkeep.trans hplookup) helookup
      rw [hptick, hetick₂, hetick]
      exact hupper

end Clocks

/-- The cells that were allocated before are unchanged. -/
structure Extends (m m' : Memory) : Prop where
  networks : ∀ r < m.nextNetwork, m'.networks r = m.networks r
  anchors : ∀ r < m.nextAnchors, m'.anchors r = m.anchors r
  nextNetwork : m.nextNetwork ≤ m'.nextNetwork
  nextAnchors : m.nextAnchors ≤ m'.nextAnchors

theorem Extends.refl (m : Memory) : Extends m m := ⟨fun _ _ => rfl, fun _ _ => rfl, le_refl _, le_refl _⟩

namespace Clocks

/-- A version refers to allocated cells. -/
structure Allocated (m : Memory) (c : Clocks) : Prop where
  network : c.network < m.nextNetwork
  anchors : c.anchors < m.nextAnchors

theorem Allocated.mono (hext : Extends m m') (h : Allocated m c) : Allocated m' c :=
  ⟨lt_of_lt_of_le h.network hext.nextNetwork, lt_of_lt_of_le h.anchors hext.nextAnchors⟩

/-- What `next` copies: the copy has the network and the anchors of the version. -/
theorem next_spec (h : Allocated m c) (known : Bool) :
    Extends m (c.next m known).1 ∧ Allocated (c.next m known).1 (c.next m known).2 ∧
      (c.next m known).2.network = m.nextNetwork ∧ (c.next m known).2.ppm = c.ppm ∧
      (c.next m known).1.networks (c.next m known).2.network = m.networks c.network ∧
      (c.next m known).1.anchors (c.next m known).2.anchors = m.anchors c.anchors ∧
      (known = false → (c.next m known).2.anchors = m.nextAnchors) := by
  have hnet : ∀ r < m.nextNetwork, r ≠ m.nextNetwork := fun r hr => by omega
  have hanc : ∀ r < m.nextAnchors, r ≠ m.nextAnchors := fun r hr => by omega
  unfold next
  cases known with
  | true =>
    refine ⟨⟨fun r hr => update_of_ne (hnet r hr) _ _, fun r hr => rfl, le_succ _, le_refl _⟩,
      ⟨lt_succ_self _, h.anchors⟩, rfl, rfl, update_self _ _ _, rfl, fun hfalse => by cases hfalse⟩
  | false =>
    refine ⟨⟨fun r hr => update_of_ne (hnet r hr) _ _, fun r hr => update_of_ne (hanc r hr) _ _,
      le_succ _, le_succ _⟩, ⟨lt_succ_self _, lt_succ_self _⟩, rfl, rfl, update_self _ _ _,
      update_self _ _ _, fun _ => rfl⟩

/-- A new version is made in new cells. -/
theorem extends_extend (h : Allocated m c) (ranges : Ranges) (p e : Sample) (upper : Int)
    (hknown : known = true →
      (m.anchors c.anchors).lookup p.domain ≠ none ∧ (m.anchors c.anchors).lookup e.domain ≠ none) :
    Extends m (c.extend m ranges p e upper known).1 ∧
      Allocated (c.extend m ranges p e upper known).1 (c.extend m ranges p e upper known).2.1 := by
  obtain ⟨hext, halloc, hnetwork, -, hsame, hanchors, hfresh⟩ := next_spec h known
  obtain ⟨honly, hkept⟩ := (c.next m known).2.onlyAt_incorporate (c.next m known).1 ranges p e upper
  have hall : Extends m ((c.next m known).2.incorporate (c.next m known).1 ranges p e upper).1 := by
    refine ⟨fun r hr => ?_, fun r hr => ?_, by rw [honly.nextNetwork]; exact hext.nextNetwork,
      by rw [honly.nextAnchors]; exact hext.nextAnchors⟩
    · rw [honly.networks r (by omega), hext.networks r hr]
    · cases hk : known with
      | false =>
        subst hk
        rw [honly.anchors r (by rw [hfresh rfl]; omega), hext.anchors r hr]
      | true =>
        subst hk
        rw [hkept (by rw [hanchors]; exact (hknown rfl).1) (by rw [hanchors]; exact (hknown rfl).2), hext.anchors r hr]
  unfold extend
  dsimp only
  split
  · rename_i m' err heq
    rw [heq] at hall
    exact ⟨hall, h.mono hall⟩
  · rename_i m' heq
    rw [heq] at hall honly
    exact ⟨hall, by rw [honly.nextNetwork]; exact halloc.network, by rw [honly.nextAnchors]; exact halloc.anchors⟩

/-- `before` leaves all versions as they are, whatever is observed. -/
theorem extends_before (h : Allocated m c) (ranges : Ranges) (p e : Sample) :
    Extends m (c.before m ranges p e).1 ∧ Allocated (c.before m ranges p e).1 (c.before m ranges p e).2.1 := by
  unfold before
  split
  · exact ⟨.refl m, h⟩
  · split
    · exact ⟨.refl m, h⟩
    · rename_i upper _
      unfold beforeUpper
      split
      · rename_i pa ea hpa hea
        split
        · exact ⟨.refl m, h⟩
        · split
          · exact ⟨.refl m, h⟩
          · exact extends_extend h ranges p e upper fun _ => ⟨by rw [hpa]; simp, by rw [hea]; simp⟩
      · exact extends_extend h ranges p e upper fun hfalse => by cases hfalse

/-- What a version knows is true of the real times. -/
structure Sound (ppm : Int) (T : Sample → ℝ) (m : Memory) (c : Clocks) : Prop where
  allocated : Allocated m c
  ppm_eq : c.ppm = ppm
  evidence : Evidence T (m.networks c.network) (m.anchors c.anchors)

theorem Sound.mono (hext : Extends m m') (h : Sound ppm T m c) : Sound ppm T m' c := by
  refine ⟨h.allocated.mono hext, h.ppm_eq, ?_⟩
  rw [hext.networks _ h.allocated.network, hext.anchors _ h.allocated.anchors]
  exact h.evidence

/-- The bound that an observation puts on the difference of the anchors. -/
theorem anchorUpper_sound (hppm : 0 ≤ ppm) (hppm' : ppm < 1000000) (hT : RateBounded ppm T) (hc : c.ppm = ppm)
    (hpe : T p ≤ T e) : (∀ err, c.anchorUpper m p e = .error err → err ≠ .inconsistent) ∧
      ∀ upper, c.anchorUpper m p e = .ok upper →
        T ⟨p.domain, c.anchorTick m p⟩ - T ⟨e.domain, c.anchorTick m e⟩ ≤ (upper : ℝ) := by
  have hinf : infinity = 2 ^ 63 - 1 := rfl
  unfold anchorUpper
  rw [hc]
  cases hp : elapsed ppm p.tick.toInt (c.anchorTick m p).toInt with
  | error err =>
    obtain rfl := elapsed_error hp
    refine ⟨fun err herr heq => ?_, fun upper hupper => ?_⟩
    · rw [← Except.error.inj herr] at heq
      cases heq
    · cases hupper
  | ok pb =>
    obtain ⟨pl, pu⟩ := pb
    have hplow := elapsed_sound hppm hppm' hT (x := ⟨p.domain, c.anchorTick m p⟩) (y := p) rfl hp
    cases he : elapsed ppm e.tick.toInt (c.anchorTick m e).toInt with
    | error err =>
      obtain rfl := elapsed_error he
      refine ⟨fun err herr heq => ?_, fun upper hupper => ?_⟩
      · rw [← Except.error.inj herr] at heq
        cases heq
      · cases hupper
    | ok eb =>
      obtain ⟨el, eu⟩ := eb
      have hehigh := elapsed_sound hppm hppm' hT (x := ⟨e.domain, c.anchorTick m e⟩) (y := e) rfl he
      dsimp only
      refine ⟨fun err herr heq => ?_, fun upper hupper => ?_⟩
      · rw [checkedSubtract_error herr] at heq
        cases heq
      · obtain ⟨rfl, -, -⟩ := checkedSubtract_ok (by omega) (by omega) (by omega) (by omega) hupper
        push_cast
        linarith

/-- An observation that is true of the real times is not refused, and what it adds is true. -/
theorem sound_extend (h : Sound ppm T m c) (ranges : Ranges) (hne : p.domain ≠ e.domain)
    (hupper : T ⟨p.domain, c.anchorTick m p⟩ - T ⟨e.domain, c.anchorTick m e⟩ ≤ (upper : ℝ))
    (hknown : known = true →
      (m.anchors c.anchors).lookup p.domain ≠ none ∧ (m.anchors c.anchors).lookup e.domain ≠ none) :
    Sound ppm T (c.extend m ranges p e upper known).1 (c.extend m ranges p e upper known).2.1 ∧
      (c.extend m ranges p e upper known).2.2 ≠ some .inconsistent := by
  obtain ⟨hext, halloc⟩ := extends_extend h.allocated ranges p e upper hknown
  obtain ⟨-, -, -, hppm, hnetwork, hanchors, -⟩ := next_spec h.allocated known
  have hevidence : Evidence T ((c.next m known).1.networks (c.next m known).2.network)
      ((c.next m known).1.anchors (c.next m known).2.anchors) := by
    rw [hnetwork, hanchors]
    exact h.evidence
  have htick : ∀ s, (c.next m known).2.anchorTick (c.next m known).1 s = c.anchorTick m s := by
    intro s
    unfold anchorTick
    rw [hanchors]
  obtain ⟨hafter, hnot⟩ := evidence_incorporate hevidence ranges hne (by rw [htick, htick]; exact hupper)
  have hold := h.mono hext
  unfold extend at *
  dsimp only at *
  split
  · rename_i m' err heq
    simp only [heq] at hold hnot
    exact ⟨hold, hnot⟩
  · rename_i m' heq
    simp only [heq] at hafter halloc
    exact ⟨⟨halloc, hppm.trans h.ppm_eq, hafter⟩, fun hnone => by cases hnone⟩

theorem sound_before (hppm : 0 ≤ ppm) (hppm' : ppm < 1000000) (hT : RateBounded ppm T) (h : Sound ppm T m c)
    (ranges : Ranges) (hpe : T p ≤ T e) : Sound ppm T (c.before m ranges p e).1 (c.before m ranges p e).2.1 ∧
      (c.before m ranges p e).2.2 ≠ some .inconsistent := by
  obtain ⟨herror, hok⟩ := anchorUpper_sound hppm hppm' hT (m := m) h.ppm_eq hpe
  unfold before
  by_cases hdomain : p.domain = e.domain
  · have htick : ¬ e.tick.toInt < p.tick.toInt := fun hlt =>
      absurd (hT.lt_of_tick_lt hppm hdomain.symm hlt) (not_lt.mpr hpe)
    rw [if_pos hdomain, if_neg htick]
    exact ⟨h, fun hnone => by cases hnone⟩
  rw [if_neg hdomain]
  split
  · rename_i err heq
    exact ⟨h, fun hsome => herror err heq (some.inj hsome)⟩
  · rename_i upper heq
    have hupper := hok upper heq
    unfold beforeUpper
    split
    · rename_i pa ea hpa hea
      split
      · rename_i err hquery
        refine ⟨h, fun hsome => ?_⟩
        cases hsome
        unfold Network.upper at hquery
        split at hquery
        · cases hquery
        · split at hquery
          · cases hquery
          · split at hquery <;> cases hquery
      · split
        · exact ⟨h, fun hnone => by cases hnone⟩
        · exact sound_extend h ranges hdomain hupper fun _ => ⟨by rw [hpa]; simp, by rw [hea]; simp⟩
    · exact sound_extend h ranges hdomain hupper fun hfalse => by cases hfalse

/-- Both directions of a query between anchors. -/
theorem bounds_of_inv {T : Set (Constraint Nat)} (h : s.Inv C T D) (ranges : Ranges) {u : Nat} (hu : u < s.size)
    (hv : v < s.size) : ((s.bounds ranges u v).1 ≤ infinity ∧ bound (s.bounds ranges u v).1 = D u v) ∧
      (s.bounds ranges u v).2 ≤ infinity ∧ bound (s.bounds ranges u v).2 = D v u := by
  unfold bounds
  cases hlookup : (s.adj u).lookup v with
  | some w =>
    have hmem := mem_of_lookup_eq_some hlookup
    exact ⟨h.searchable.tight u v w hlookup, h.searchable.tight.weight (h.searchable.shape.symm hmem)⟩
  | none => exact ⟨searchUpper_exact h.searchable ranges hu, searchUpper_exact h.searchable ranges hv⟩

theorem bound_injective {x y : Int} (hxy : bound x = bound y) : x = y := by
  unfold bound at hxy
  split at hxy
  · rename_i hx
    split at hxy
    · rename_i hy
      rw [hx, hy]
    · exact absurd hxy.symm WithTop.coe_ne_top
  · split at hxy
    · exact absurd hxy WithTop.coe_ne_top
    · exact WithTop.coe_inj.mp hxy

/-- The answer does not depend on the order of the loops of the query. -/
theorem difference_congr (h : Sound ppm T m c) (hext : Extends m m') (ranges ranges' : Ranges) (a b : Sample) :
    c.difference m' ranges' a b = c.difference m ranges a b := by
  unfold difference
  rw [hext.anchors _ h.allocated.anchors]
  obtain ⟨C, T', D, time, hinv, -, hanchors⟩ := h.evidence
  by_cases hdomain : a.domain = b.domain
  · rw [if_pos hdomain, if_pos hdomain]
  rw [if_neg hdomain, if_neg hdomain]
  split
  · rename_i aa ba haa hba
    have hbounds := bounds_of_inv hinv ranges (hanchors _ _ haa).1 (hanchors _ _ hba).1
    have hbounds' := bounds_of_inv hinv ranges' (hanchors _ _ haa).1 (hanchors _ _ hba).1
    have hsame : (m.networks c.network).bounds ranges' aa.vertex ba.vertex =
        (m.networks c.network).bounds ranges aa.vertex ba.vertex :=
      Prod.ext (bound_injective (hbounds'.1.2.trans hbounds.1.2.symm))
        (bound_injective (hbounds'.2.2.trans hbounds.2.2.symm))
    unfold anchoredDifference
    rw [hext.networks _ h.allocated.network, hsame]
  · rfl

/-- The interval contains the real difference; an infinite end is no bound. -/
def Contains (interval : Int × Int) (t : ℝ) : Prop :=
  (interval.1 = -infinity ∨ (interval.1 : ℝ) ≤ t) ∧ (interval.2 = infinity ∨ t ≤ (interval.2 : ℝ))

theorem outward_upper {d x y : Int} {s t u : ℝ} (hd : -infinity ≤ d) (hd' : d ≤ infinity) (hx : -infinity ≤ x)
    (hx' : x ≤ infinity) (hy : -infinity ≤ y) (hy' : y ≤ infinity) (hs : s ≤ (d : ℝ)) (ht : t ≤ (x : ℝ))
    (hu : (y : ℝ) ≤ u) : (outwardSum d x (wrap (-y)) = infinity ∨ s + t - u ≤ (outwardSum d x (wrap (-y)) : ℝ)) ∧
      -2 ^ 63 ≤ outwardSum d x (wrap (-y)) ∧ outwardSum d x (wrap (-y)) ≤ infinity := by
  have hinf : infinity = 2 ^ 63 - 1 := rfl
  rw [wrap_eq (by omega) (by omega)]
  obtain ⟨hsum, hlow, hhigh⟩ := le_outwardSum (a := d) (b := x) (c := -y) (by omega) hd' (by omega) hx' (by omega)
    (by omega)
  refine ⟨?_, hlow, hhigh⟩
  cases hsum with
  | inl hinfinite => exact .inl hinfinite
  | inr hexact =>
    refine .inr ?_
    rw [hexact]
    push_cast
    linarith

theorem le_of_finite_bound (hC : IsDistance C D) {time : Nat → ℝ} (hsat : Satisfies C time) {u : Nat}
    {w : Int} (hw : bound w = D u v) (hfinite : w ≠ infinity) : time v - time u ≤ (w : ℝ) := by
  apply Walk.le_of_satisfies hsat (hC.attained _)
  rw [← hw, bound, if_neg hfinite]

theorem difference_sound (hppm : 0 ≤ ppm) (hppm' : ppm < 1000000) (hT : RateBounded ppm T) (h : Sound ppm T m c)
    (ranges : Ranges) {a b : Sample} {interval : Int × Int} (hdiff : c.difference m ranges a b = .ok interval) :
    Contains interval (T b - T a) := by
  have hinf : infinity = 2 ^ 63 - 1 := rfl
  unfold difference at hdiff
  rw [h.ppm_eq] at hdiff
  by_cases hdomain : a.domain = b.domain
  · rw [if_pos hdomain] at hdiff
    obtain ⟨lower, upper⟩ := interval
    obtain ⟨hlow, hhigh, -⟩ := elapsed_sound hppm hppm' hT hdomain hdiff
    exact ⟨.inr hlow, .inr hhigh⟩
  rw [if_neg hdomain] at hdiff
  split at hdiff
  · rename_i aa ba haa hba
    obtain ⟨C, T', D, time, hinv, hsat, hanchors⟩ := h.evidence
    obtain ⟨haa_lt, haa_time⟩ := hanchors _ _ haa
    obtain ⟨hba_lt, hba_time⟩ := hanchors _ _ hba
    obtain ⟨⟨habLe, habEq⟩, hbaLe, hbaEq⟩ := bounds_of_inv hinv ranges haa_lt hba_lt
    have habLow := hinv.small.lt_of_le_bound habEq.ge
    have hbaLow := hinv.small.lt_of_le_bound hbaEq.ge
    unfold anchoredDifference at hdiff
    rw [h.ppm_eq] at hdiff
    cases hea : elapsed ppm a.tick.toInt aa.tick.toInt with
    | error err => simp [hea] at hdiff
    | ok abounds =>
      obtain ⟨al, au⟩ := abounds
      obtain ⟨hal, hau, hal₁, hal₂, hau₁, hau₂⟩ :=
        elapsed_sound hppm hppm' hT (x := ⟨a.domain, aa.tick⟩) (y := a) rfl hea
      cases heb : elapsed ppm b.tick.toInt ba.tick.toInt with
      | error err => simp [hea, heb] at hdiff
      | ok bbounds =>
        obtain ⟨bl, bu⟩ := bbounds
        obtain ⟨hbl, hbu, hbl₁, hbl₂, hbu₁, hbu₂⟩ :=
          elapsed_sound hppm hppm' hT (x := ⟨b.domain, ba.tick⟩) (y := b) rfl heb
        simp only [hea, heb] at hdiff
        cases hdiff
        constructor
        · dsimp only
          split
          · rename_i hfinite
            have hreal := le_of_finite_bound hinv.accepted hsat hbaEq hfinite
            rw [haa_time, hba_time] at hreal
            obtain ⟨hsum, hlow, hhigh⟩ := outward_upper (by omega) hbaLe hau₁ hau₂ hbl₁ hbl₂ hreal hau hbl
            -- the smallest integer is its own negation
            by_cases hmin : outwardSum ((m.networks c.network).bounds ranges aa.vertex ba.vertex).2 au (wrap (-bl)) =
                -2 ^ 63
            · rw [hmin] at hsum ⊢
              have hwrap : wrap (-(-2 ^ 63)) = -2 ^ 63 := by decide
              rw [hwrap]
              refine .inr ?_
              cases hsum with
              | inl hinfinite => exact absurd hinfinite (by decide)
              | inr hle =>
                push_cast at hle ⊢
                linarith
            · rw [wrap_eq (by omega) (by omega)]
              cases hsum with
              | inl hinfinite => exact .inl (by rw [hinfinite])
              | inr hle =>
                refine .inr ?_
                push_cast
                linarith
          · exact .inl rfl
        · dsimp only
          split
          · rename_i hfinite
            have hreal := le_of_finite_bound hinv.accepted hsat habEq hfinite
            rw [haa_time, hba_time] at hreal
            obtain ⟨hsum, -, -⟩ := outward_upper (by omega) habLe hbu₁ hbu₂ hal₁ hal₂ hreal hbu hal
            refine hsum.imp_right fun hle => ?_
            linarith
          · exact .inl rfl
  · cases hdiff
    exact ⟨.inl rfl, .inl rfl⟩

end Clocks

/-- An observation passed to one of the versions, the last made one at index zero. -/
structure Observation where
  ranges : Ranges
  version : Nat
  p : Sample
  e : Sample

/-- All versions made so far, the last one first. -/
structure Versions where
  memory : Memory
  clocks : List Clocks

namespace Versions

def observe (v : Versions) (o : Observation) : Versions × Option Err :=
  match v.clocks[o.version]? with
  | none => (v, none)
  | some c =>
    let result := c.before v.memory o.ranges o.p o.e
    (⟨result.1, result.2.1 :: v.clocks⟩, result.2.2)

/-- Pass observations one after the other; the result has the errors returned. -/
def run (v : Versions) : List Observation → Versions × List (Option Err)
  | [] => (v, [])
  | o :: rest => (((v.observe o).1.run rest).1, (v.observe o).2 :: ((v.observe o).1.run rest).2)

theorem extends_observe {v : Versions} (h : ∀ c ∈ v.clocks, c.Allocated v.memory) (o : Observation) :
    Extends v.memory (v.observe o).1.memory := by
  unfold observe
  split
  · exact .refl _
  · rename_i c hc
    exact (extends_before (h c (mem_of_getElem? hc)) o.ranges o.p o.e).1

theorem sound_observe (hppm : 0 ≤ ppm) (hppm' : ppm < 1000000) (hT : RateBounded ppm T) {v : Versions}
    (h : ∀ c ∈ v.clocks, c.Sound ppm T v.memory) {o : Observation} (ho : T o.p ≤ T o.e) :
    (∀ c ∈ (v.observe o).1.clocks, c.Sound ppm T (v.observe o).1.memory) ∧ (v.observe o).2 ≠ some .inconsistent := by
  unfold observe
  split
  · exact ⟨h, fun hnone => by cases hnone⟩
  · rename_i c hc
    have hcsound := h c (mem_of_getElem? hc)
    obtain ⟨hnew, hnot⟩ := sound_before hppm hppm' hT hcsound o.ranges ho
    have hext := (extends_before hcsound.allocated o.ranges o.p o.e).1
    refine ⟨fun c' hc' => ?_, hnot⟩
    rcases mem_cons.mp hc' with rfl | hold
    · exact hnew
    · exact (h c' hold).mono hext

theorem sound_run (hppm : 0 ≤ ppm) (hppm' : ppm < 1000000) (hT : RateBounded ppm T)
    {observations : List Observation} (hobs : ∀ o ∈ observations, T o.p ≤ T o.e) {v : Versions}
    (h : ∀ c ∈ v.clocks, c.Sound ppm T v.memory) :
    (∀ c ∈ (v.run observations).1.clocks, c.Sound ppm T (v.run observations).1.memory) ∧
      ∀ err ∈ (v.run observations).2, err ≠ some .inconsistent := by
  induction observations generalizing v with
  | nil => exact ⟨h, fun err herr => absurd herr not_mem_nil⟩
  | cons o rest ih =>
    obtain ⟨hnext, hnot⟩ := sound_observe hppm hppm' hT h (hobs o mem_cons_self)
    obtain ⟨hlast, herrors⟩ := ih (fun o' ho' => hobs o' (mem_cons_of_mem o ho')) hnext
    refine ⟨hlast, fun err herr => ?_⟩
    rcases mem_cons.mp herr with rfl | hold
    · exact hnot
    · exact herrors err hold

theorem sound_newClocks {ranges : Ranges} {start : Memory × Clocks}
    (hnew : newClocks m ranges ppm = some start) (T : Sample → ℝ) :
    0 ≤ ppm ∧ ppm < 1000000 ∧ start.2.Sound ppm T start.1 := by
  unfold newClocks at hnew
  split at hnew
  · cases hnew
  · rename_i hrange
    split at hnew
    · cases hnew
    · rename_i s hs
      cases hnew
      have hnetwork : ((m.allocNetwork s).allocAnchors ∅).networks m.nextNetwork = s := update_self _ _ _
      have hanchors : ((m.allocNetwork s).allocAnchors ∅).anchors m.nextAnchors = ∅ := update_self _ _ _
      refine ⟨by omega, by omega, ⟨lt_succ_self _, lt_succ_self _⟩, rfl, ?_⟩
      dsimp only
      rw [hnetwork, hanchors]
      refine ⟨∅, ∅, _, fun _ => 0, inv_new hs, fun c hc => absurd hc (Set.notMem_empty c), fun domain a ha => ?_⟩
      rw [lookup_empty] at ha
      cases ha

/-- For all observations that are true of real times which agree with the clocks: none is
refused as inconsistent, every interval contains the real difference, and the answers
of a version never change. -/
theorem clock_evidence_sound {m : Memory} {ranges : Ranges} {ppm : Int} {start : Memory × Clocks}
    (hnew : newClocks m ranges ppm = some start) {T : Sample → ℝ} (hT : RateBounded ppm T)
    {observations : List Observation} (hobs : ∀ o ∈ observations, T o.p ≤ T o.e) :
    (∀ err ∈ (Versions.run ⟨start.1, [start.2]⟩ observations).2, err ≠ some .inconsistent) ∧
    (∀ c ∈ (Versions.run ⟨start.1, [start.2]⟩ observations).1.clocks, ∀ ranges a b interval,
      c.difference (Versions.run ⟨start.1, [start.2]⟩ observations).1.memory ranges a b = .ok interval →
      Clocks.Contains interval (T b - T a)) ∧
    ∀ o, ∀ c ∈ (Versions.run ⟨start.1, [start.2]⟩ observations).1.clocks, ∀ ranges ranges' a b,
      c.difference ((Versions.run ⟨start.1, [start.2]⟩ observations).1.observe o).1.memory ranges' a b =
        c.difference (Versions.run ⟨start.1, [start.2]⟩ observations).1.memory ranges a b := by
  obtain ⟨hppm, hppm', hstart⟩ := sound_newClocks hnew T
  have hfirst : ∀ c ∈ [start.2], c.Sound ppm T start.1 := by
    intro c hc
    rw [mem_singleton.mp hc]
    exact hstart
  obtain ⟨hsound, herrors⟩ := sound_run hppm hppm' hT hobs (v := ⟨start.1, [start.2]⟩) hfirst
  refine ⟨herrors, fun c hc ranges' a b interval hdiff => ?_, fun o c hc ranges₁ ranges₂ a b => ?_⟩
  · exact difference_sound hppm hppm' hT (hsound c hc) ranges' hdiff
  · exact difference_congr (hsound c hc) (extends_observe (fun c' hc' => (hsound c' hc').allocated) o) _ _ a b

/-- Of two clocks, the second shows five ticks for four units of real time. -/
noncomputable def fastSecond (s : Sample) : ℝ :=
  s.tick.toInt * if s.domain = 2 then 4 / 5 else 1

theorem rateBounded_fastSecond : RateBounded 250000 fastSecond := by
  intro x y hdomain
  obtain ⟨rate, hrate, hlow, hhigh⟩ : ∃ rate : ℝ, (if x.domain = 2 then (4 / 5 : ℝ) else 1) = rate ∧
      4 / 5 ≤ rate ∧ rate ≤ 1 := ⟨_, rfl, by split <;> norm_num, by split <;> norm_num⟩
  have hnonneg : 0 ≤ rate := by linarith
  rw [fastSecond, fastSecond, ← hdomain, hrate, ← sub_mul, abs_mul, abs_of_nonneg hnonneg, Int.cast_sub]
  generalize (y.tick.toInt : ℝ) - (x.tick.toInt : ℝ) = elapsed
  have hpos := abs_nonneg elapsed
  refine ⟨?_, ?_, ?_⟩
  · rw [div_le_iff₀ (by norm_num)]
    norm_num
    nlinarith
  · rw [le_div_iff₀ (by norm_num)]
    norm_num
    nlinarith
  · nlinarith [mul_self_nonneg elapsed]

/-- A tick of the first clock before one of the second, and a later one the other way round. -/
def bothWays : List Observation :=
  [⟨.ascending, 0, ⟨1, 5⟩, ⟨2, 9⟩⟩, ⟨.ascending, 0, ⟨2, 10⟩, ⟨1, 9⟩⟩]

theorem clock_evidence_sound_of_observation :
    ∃ start, newClocks ⟨fun _ => { size := 0, limit := 0 }, fun _ => ∅, 0, 0⟩ .ascending 250000 = some start ∧
      (∀ err ∈ (Versions.run ⟨start.1, [start.2]⟩ bothWays).2, err ≠ some .inconsistent) ∧
      ∀ c ∈ (Versions.run ⟨start.1, [start.2]⟩ bothWays).1.clocks, ∀ ranges a b interval,
        c.difference (Versions.run ⟨start.1, [start.2]⟩ bothWays).1.memory ranges a b = .ok interval →
          Clocks.Contains interval (fastSecond b - fastSecond a) := by
  obtain ⟨start, hstart⟩ : ∃ start, newClocks
      ⟨fun _ => { size := 0, limit := 0 }, fun _ => ∅, 0, 0⟩ .ascending 250000 = some start := ⟨_, rfl⟩
  have hobs : ∀ o ∈ bothWays, fastSecond o.p ≤ fastSecond o.e := by
    intro o ho
    simp only [bothWays, mem_cons, not_mem_nil, or_false] at ho
    obtain rfl | rfl := ho <;> simp [fastSecond] <;> norm_num
  obtain ⟨herrors, hsound, -⟩ := clock_evidence_sound hstart rateBounded_fastSecond hobs
  exact ⟨start, hstart, herrors, hsound⟩

end Versions

end swytch.stn
