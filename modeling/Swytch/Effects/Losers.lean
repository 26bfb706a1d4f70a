import Swytch.Effects.CausalIndex
import Swytch.Effects.History
import Swytch.Effects.Predicate

open swytch.lib swytch.proto List

namespace swytch.effects

open CausalIndex

structure SeenBind where
  txnID : Bytes
  bindOffset : Tip
  newTip : Tip
  hash : Bytes
deriving DecidableEq, Repr

variable (rt : Runtime) (log : Log) (key : Bytes) (isInvisible : Bytes → Bool)

/-- The bind at a position, if it is visible and wrote to this key. -/
def seenBind (t : Tip) : Option SeenBind :=
  match log.lookup t with
  | none => none
  | some eff =>
    match eff.kind with
    | .txnBind bind =>
      let newTip := (bind.keys.find? (fun kb => kb.key = key)).elim .zero KeyBind.newTip
      if isInvisible eff.txnId ∨ newTip = .zero then none else some ⟨eff.txnId, t, newTip, eff.forkChoiceHash⟩
    | _ => none

def startTips (tips extraTips : List Tip) : List Tip :=
  extraTips.foldl (fun acc t => if t ∈ acc then acc else acc ++ [t]) tips

def forkChoiceLess (a b : Bytes) : Bool :=
  a < b

/-- What a candidate observed and wrote on the key. -/
def proof (b : SeenBind) : Evidence :=
  collectTxnEffectsOnKey log b.txnID key [b.newTip]

/-- Both sides have evidence and it shows no conflict. A bind without a transaction
id has no evidence. -/
def predicateDisjoint (other b : SeenBind) : Bool :=
  other.txnID ≠ [] ∧ b.txnID ≠ [] ∧
    predicateEvidenceConflict rt (proof log key other) (proof log key b) = (false, true)

/-- The index a scan uses. `probes` are the tips whose ancestry conflict reporting
asks for before the scan. -/
def scanIndex (probes : List Tip) (candidates : List SeenBind) : CausalIndex :=
  let tips := candidates.map SeenBind.newTip
  ((add log {} tips).add log probes).add log tips

/-- The scan for one candidate: a smaller hash in a concurrent range defeats it. -/
def defeated (ancestry : CausalIndex) (candidates : List SeenBind) (b : SeenBind) : Bool :=
  (ancestry.candidateChains SeenBind.newTip candidates).any fun chain =>
    (slice chain (ancestry.concurrentRange log SeenBind.newTip b.newTip chain)).any fun other =>
      !(ancestry.cyclic && (ancestry.reaches log b.newTip other.newTip || ancestry.reaches log other.newTip b.newTip))
        && forkChoiceLess other.hash b.hash && !predicateDisjoint rt log key other b

def sortCandidates (candidates : List SeenBind) : List SeenBind :=
  candidates.insertionSort (fun a b => a.hash ≤ b.hash)

/-- The candidates that lose to another one. -/
def defeatedCandidates (probes : List Tip) (candidates : List SeenBind) : List SeenBind :=
  let candidates := sortCandidates candidates
  candidates.filter (defeated rt log key (scanIndex log probes candidates) candidates)

def keyVerdicts (start : List Tip) (seed : VerdictMap) : VerdictMap :=
  (walkHistory log key start []).foldl (harvest log) seed

def walkedBinds (start : List Tip) : List SeenBind :=
  (walkHistory log key start []).filterMap (seenBind log key isInvisible)

/-- The transactions that lose on a key. A recorded loss is final; a recorded win
only held against the competitors its snapshot knew, so it is tried again. -/
def losersOnKeyAt (tips extraTips : List Tip) (seed : VerdictMap)
    (isInvisible : Bytes → Bool) (probes : List Tip) : Finset Bytes :=
  let start := startTips tips extraTips
  let verdicts := keyVerdicts log key start seed
  let binds := walkedBinds log key isInvisible start
  let lost := binds.filter (fun b => verdicts b.txnID = some .lost)
  let candidates := binds.filter (fun b => verdicts b.txnID ≠ some .lost)
  let defeated := if candidates.length < 2 then [] else defeatedCandidates rt log key probes candidates
  ((lost ++ defeated).map SeenBind.txnID).toFinset

/-- A visible bind in the history below `start`. -/
def Walked (start : Set Tip) (b : SeenBind) : Prop :=
  ∃ t, (∃ s ∈ start, Reach (historyDeps log key) s t) ∧ seenBind log key isInvisible t = some b

/-- Neither new tip is an ancestor of the other. -/
def Concurrent (b other : SeenBind) : Prop :=
  ¬ Reach (statedDeps log) b.newTip other.newTip ∧ ¬ Reach (statedDeps log) other.newTip b.newTip

/-- The loser set by definition, pair by pair, for given verdicts. -/
def PairwiseLoser (start : Set Tip) (verdicts : VerdictMap) (txnID : Bytes) : Prop :=
  (∃ b, Walked log key isInvisible start b ∧ verdicts b.txnID = some .lost ∧ b.txnID = txnID) ∨
    ∃ b other, Walked log key isInvisible start b ∧ verdicts b.txnID ≠ some .lost ∧
      Walked log key isInvisible start other ∧ verdicts other.txnID ≠ some .lost ∧
      other.hash < b.hash ∧ Concurrent log b other ∧ predicateDisjoint rt log key other b = false ∧
      b.txnID = txnID

variable {tips extraTips start probes : List Tip} {log : Log} {key txnID : Bytes} {isInvisible : Bytes → Bool}
  {b : SeenBind} {candidates : List SeenBind} {rt : Runtime} {seed : VerdictMap}

theorem mem_startTips_iff {t : Tip} : t ∈ startTips tips extraTips ↔ t ∈ tips ∨ t ∈ extraTips := by
  unfold startTips
  induction extraTips generalizing tips with
  | nil => simp
  | cons e extraTips ih =>
    rw [foldl_cons, ih]
    by_cases he : e ∈ tips
    · rw [if_pos he, mem_cons]
      constructor
      · rintro (htips | hextra)
        · exact .inl htips
        · exact .inr (.inr hextra)
      · rintro (htips | rfl | hextra)
        · exact .inl htips
        · exact .inl he
        · exact .inr hextra
    · simp [if_neg he, or_assoc]

theorem mem_walkedBinds_iff :
    b ∈ walkedBinds log key isInvisible start ↔ Walked log key isInvisible { t | t ∈ start } b := by
  have hwalk : ∀ t, t ∈ walkHistory log key start [] ↔ ∃ s ∈ start, Reach (historyDeps log key) s t := by
    intro t
    rw [mem_walkHistory_iff (by simp)]
    simp
  simp only [walkedBinds, mem_filterMap, hwalk]
  rfl

theorem sound_scanIndex (log : Log) (probes : List Tip) (candidates : List SeenBind) :
    (scanIndex log probes candidates).Sound log :=
  sound_add (sound_add (sound_add (sound_empty log) _) _) _

theorem scanIndex_done (hcyclic : (scanIndex log probes candidates).cyclic = false) :
    ∀ b ∈ candidates, ((scanIndex log probes candidates).node b.newTip).isSome := by
  have hbefore := sound_add (sound_add (sound_empty log)
    (candidates.map SeenBind.newTip)) probes (ChainIndex.cyclic_of_add hcyclic)
  obtain ⟨-, -, hdone⟩ := ChainIndex.exact_add hbefore hcyclic
  exact fun b hb => hdone b.newTip (mem_map_of_mem hb)

/-- The scan is exact: the chains, the binary searches and the fallback lose nothing. -/
theorem defeated_iff : defeated rt log key (scanIndex log probes candidates) candidates b = true ↔
      ∃ other ∈ candidates, other.hash < b.hash ∧ Concurrent log b other ∧
        predicateDisjoint rt log key other b = false := by
  have hscan := (sound_scanIndex log probes candidates).exists_concurrent_iff (t := b.newTip) scanIndex_done
    (fun other => other.hash < b.hash ∧ predicateDisjoint rt log key other b = false)
  simp only [defeated, any_eq_true, Bool.and_eq_true, Bool.not_eq_true', Bool.and_eq_false_iff,
    Bool.or_eq_false_iff, forkChoiceLess, decide_eq_true_eq]
  simp only [not_and_or, not_or, Bool.not_eq_true] at hscan
  simp only [and_assoc]
  rw [hscan]
  refine exists_congr fun other => and_congr_right fun _ => ?_
  simp only [Concurrent]
  tauto

theorem mem_defeatedCandidates_iff : b ∈ defeatedCandidates rt log key probes candidates ↔
      b ∈ candidates ∧ ∃ other ∈ candidates, other.hash < b.hash ∧ Concurrent log b other ∧
        predicateDisjoint rt log key other b = false := by
  simp only [defeatedCandidates, mem_filter, defeated_iff, sortCandidates, mem_insertionSort]

/-- Two candidates with different hashes are two entries of the list. -/
theorem two_le_length {other : SeenBind} (hb : b ∈ candidates) (hother : other ∈ candidates)
    (hless : other.hash < b.hash) : ¬ candidates.length < 2 := by
  intro hlen
  have hone : candidates.length ≤ 1 := by omega
  match candidates, hone with
  | [], _ => cases hb
  | [c], _ =>
    rw [mem_singleton.mp hb, mem_singleton.mp hother] at hless
    exact lt_irrefl _ hless

/-- The loser set is the pairwise one, for the verdicts found on the walk. -/
theorem mem_losersOnKeyAt_iff :
    txnID ∈ losersOnKeyAt rt log key tips extraTips seed isInvisible probes ↔
      PairwiseLoser rt log key isInvisible { t | t ∈ startTips tips extraTips }
        (keyVerdicts log key (startTips tips extraTips) seed) txnID := by
  simp only [losersOnKeyAt, mem_toFinset, mem_map, mem_append, mem_filter,
    mem_walkedBinds_iff, decide_eq_true_eq, PairwiseLoser]
  constructor
  · rintro ⟨b, (⟨hb, hlost⟩ | hdefeated), rfl⟩
    · exact .inl ⟨b, hb, hlost, rfl⟩
    · split at hdefeated
      · cases hdefeated
      · obtain ⟨hb, other, hother, hless, hconc, hdisj⟩ := mem_defeatedCandidates_iff.mp hdefeated
        simp only [mem_filter, mem_walkedBinds_iff, decide_eq_true_eq] at hb hother
        exact .inr ⟨b, other, hb.1, hb.2, hother.1, hother.2, hless, hconc, hdisj, rfl⟩
  · rintro (⟨b, hb, hlost, rfl⟩ | ⟨b, other, hb, hbv, hother, hotherv, hless, hconc, hdisj, rfl⟩)
    · exact ⟨b, .inl ⟨hb, hlost⟩, rfl⟩
    · have hmem : ∀ {c}, Walked log key isInvisible { t | t ∈ startTips tips extraTips } c →
          keyVerdicts log key (startTips tips extraTips) seed c.txnID ≠ some .lost →
          c ∈ (walkedBinds log key isInvisible (startTips tips extraTips)).filter
            (fun c => keyVerdicts log key (startTips tips extraTips) seed c.txnID ≠ some .lost) := by
        intro c hc hcv
        exact mem_filter.mpr ⟨mem_walkedBinds_iff.mpr hc, decide_eq_true hcv⟩
      refine ⟨b, .inr ?_, rfl⟩
      rw [if_neg (two_le_length (hmem hb hbv) (hmem hother hotherv) hless)]
      exact mem_defeatedCandidates_iff.mpr
        ⟨hmem hb hbv, other, hmem hother hotherv, hless, hconc, hdisj⟩

/-- The history of a key below some tips. -/
def historyBelow (log : Log) (key : Bytes) (start : Set Tip) : Set Tip :=
  { t | ∃ s ∈ start, Reach (historyDeps log key) s t }

/-- Undisputed verdicts do not depend on the order of the walk. -/
theorem keyVerdicts_eq_some_iff (hundisputed : Undisputed log seed (historyBelow log key { t | t ∈ start }))
    {o : Outcome} : keyVerdicts log key start seed txnID = some o ↔
      seed txnID = some o ∨ ∃ t ∈ historyBelow log key { t | t ∈ start }, verdictAt log t txnID = some o := by
  have hvisited : { t | t ∈ walkHistory log key start [] } = historyBelow log key { t | t ∈ start } := by
    ext t
    simp only [Set.mem_ofPred_eq, historyBelow]
    rw [mem_walkHistory_iff (by simp)]
    simp
  rw [← hvisited] at hundisputed ⊢
  exact harvest_eq_some_iff hundisputed

theorem keyVerdicts_congr {start' : List Tip} (hstart : { t | t ∈ start } = { t | t ∈ start' })
    (hundisputed : Undisputed log seed (historyBelow log key { t | t ∈ start })) :
    keyVerdicts log key start seed = keyVerdicts log key start' seed := by
  funext txnID
  apply Option.ext
  intro o
  rw [keyVerdicts_eq_some_iff hundisputed, hstart, keyVerdicts_eq_some_iff (hstart ▸ hundisputed)]

/-- Frontiers with the same tips have the same losers. -/
theorem losersOnKeyAt_congr {tips' extraTips' : List Tip} {probes' : List Tip}
    (hstart : { t | t ∈ startTips tips extraTips } = { t | t ∈ startTips tips' extraTips' })
    (hundisputed : Undisputed log seed (historyBelow log key { t | t ∈ startTips tips extraTips })) :
    losersOnKeyAt rt log key tips extraTips seed isInvisible probes =
      losersOnKeyAt rt log key tips' extraTips' seed isInvisible probes' := by
  ext txnID
  rw [mem_losersOnKeyAt_iff, mem_losersOnKeyAt_iff, keyVerdicts_congr hstart hundisputed, hstart]

theorem predicateDisjoint_comm (rt : Runtime) (log : Log) (key : Bytes) (b other : SeenBind) :
    predicateDisjoint rt log key b other = predicateDisjoint rt log key other b := by
  rw [predicateDisjoint, predicateDisjoint, predicateEvidenceConflict_comm, decide_eq_decide]
  tauto

/-- Fork choice through the causal index is the pairwise definition, on cyclic
histories as well. Of two concurrent candidates that conflict and have different
hashes one loses, and without disputed verdicts only the set of the tips counts. -/
theorem losersOnKeyAt_pairwise (rt : Runtime) (log : Log) (key : Bytes) (tips extraTips : List Tip)
    (seed : VerdictMap) (isInvisible : Bytes → Bool) (probes : List Tip) :
    (∀ txnID, txnID ∈ losersOnKeyAt rt log key tips extraTips seed isInvisible probes ↔
        PairwiseLoser rt log key isInvisible { t | t ∈ tips ∨ t ∈ extraTips }
          (keyVerdicts log key (startTips tips extraTips) seed) txnID) ∧
      (∀ b other, Walked log key isInvisible { t | t ∈ tips ∨ t ∈ extraTips } b →
        keyVerdicts log key (startTips tips extraTips) seed b.txnID ≠ some .lost →
        Walked log key isInvisible { t | t ∈ tips ∨ t ∈ extraTips } other →
        keyVerdicts log key (startTips tips extraTips) seed other.txnID ≠ some .lost →
        b.hash ≠ other.hash → Concurrent log b other → predicateDisjoint rt log key other b = false →
        b.txnID ∈ losersOnKeyAt rt log key tips extraTips seed isInvisible probes ∨
          other.txnID ∈ losersOnKeyAt rt log key tips extraTips seed isInvisible probes) ∧
      (Undisputed log seed (historyBelow log key { t | t ∈ tips ∨ t ∈ extraTips }) →
        ∀ tips' extraTips' probes', (∀ t, t ∈ tips' ∨ t ∈ extraTips' ↔ t ∈ tips ∨ t ∈ extraTips) →
          losersOnKeyAt rt log key tips' extraTips' seed isInvisible probes' =
            losersOnKeyAt rt log key tips extraTips seed isInvisible probes) := by
  have hstart : { t | t ∈ startTips tips extraTips } = { t | t ∈ tips ∨ t ∈ extraTips } := by
    ext t
    exact mem_startTips_iff
  have hpair : ∀ txnID, txnID ∈ losersOnKeyAt rt log key tips extraTips seed isInvisible probes ↔
      PairwiseLoser rt log key isInvisible { t | t ∈ tips ∨ t ∈ extraTips }
        (keyVerdicts log key (startTips tips extraTips) seed) txnID := by
    intro txnID
    rw [mem_losersOnKeyAt_iff, hstart]
  refine ⟨hpair, ?_, ?_⟩
  · intro b other hb hbv hother hotherv hne hconc hdisj
    rcases lt_or_gt_of_ne hne with hless | hless
    · refine .inr ((hpair _).mpr (.inr ⟨other, b, hother, hotherv, hb, hbv, hless, hconc.symm, ?_, rfl⟩))
      rw [predicateDisjoint_comm, hdisj]
    · exact .inl ((hpair _).mpr (.inr ⟨b, other, hb, hbv, hother, hotherv, hless, hconc, hdisj, rfl⟩))
  · intro hundisputed tips' extraTips' probes' hsame
    refine (losersOnKeyAt_congr ?_ (hstart ▸ hundisputed)).symm
    ext t
    exact mem_startTips_iff.trans ((hsame t).symm.trans mem_startTips_iff.symm)

/-- A transaction, its bind, and two snapshots that record opposite verdicts on it. -/
def disputedLog : Log :=
  let verdict (v : Verdict) : Effect :=
    { key := [107], deps := [⟨1, 2⟩], kind := .snapshot { txnVerdicts := (∅ : Map Bytes Verdict).insert [1] v } }
  ((((∅ : Log).insert ⟨1, 1⟩ { key := [107], txnId := [1], kind := .noop }).insert ⟨1, 2⟩
      { key := [107], deps := [⟨1, 1⟩], txnId := [1], forkChoiceHash := [5],
        kind := .txnBind ⟨[⟨[107], [], ⟨1, 1⟩⟩], none, 1, []⟩ }).insert
    ⟨1, 3⟩ (verdict .won)).insert ⟨1, 4⟩ (verdict .lost)

/-- The verdict of the tip that is listed last counts. -/
theorem losersOnKeyAt_depends_on_tip_order :
    [1] ∈ losersOnKeyAt idleRuntime disputedLog [107] [⟨1, 3⟩, ⟨1, 4⟩] [] (fun _ => none) (fun _ => false) [] ∧
      [1] ∉ losersOnKeyAt idleRuntime disputedLog [107] [⟨1, 4⟩, ⟨1, 3⟩] [] (fun _ => none) (fun _ => false) [] := by
  decide

end swytch.effects
