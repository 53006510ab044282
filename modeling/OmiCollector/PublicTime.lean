import Mathlib.Data.Rat.Floor
import OmiCollector.ClockHistory
import OmiCollector.KeyText

/-! Freezing one record's public time from durable clock evidence, as `public_time_facts` does.
Offsets are rationals; `hex` stands for the text of an offset in a raw-mapping key, and nothing
about it is used. -/
namespace PublicTime

open SpanCover ClockModel KeyText

def uint32Max : ℕ := 2 ^ 32 - 1
def uint64Max : ℕ := 2 ^ 64 - 1

inductive Quality where
  | known
  | approximate
  | unknown
  deriving DecidableEq, Repr

structure FrozenPublicTime where
  quality : Quality
  seconds : ℤ
  utcUncertaintySeconds : Option ℚ
  causalMembership : String
  comparableToPrevious : Bool
  deriving DecidableEq, Repr

/-- The immediately preceding physical record and its already-frozen time. -/
structure FrozenTimePredecessor where
  sequence : ℕ
  time : FrozenPublicTime
  bounded : sequence ≤ uint64Max
  deriving DecidableEq, Repr

/-- Prepared lookup for one immutable clock evidence snapshot. -/
structure PublicTimeProjection where
  state : ClockState
  rangeStarts : List ℕ
  components : List Span
  componentStarts : List ℕ

/-- The boundary of an empty pending interval. -/
def causalBoundaries (s : ClockState) : List ℕ :=
  match s.intent with
  | none => []
  | some intent =>
    if intent.phase = .uncertain ∧ intent.writeSequenceAfter = some intent.writeSequenceBefore then
      [intent.writeSequenceBefore]
    else []

/-- The parts of a mapped range outside the uncertain interval. -/
def outsideIntent (intent : ClockIntent) (item : ClockRange) : List Span :=
  if item.nextSequence ≤ intent.writeSequenceBefore then [item.span]
  else if intent.writeSequenceAfter.any (fun a => decide (a ≤ item.startSequence)) then [item.span]
  else
    (if item.startSequence < intent.writeSequenceBefore then
      [⟨item.startSequence, intent.writeSequenceBefore⟩] else []) ++
    match intent.writeSequenceAfter with
    | none => []
    | some a => if a < item.nextSequence then [⟨a, item.nextSequence⟩] else []

def mappedParts (s : ClockState) (item : ClockRange) : List Span :=
  if item.offsetSeconds = none then []
  else match s.intent with
    | none => [item.span]
    | some intent => if intent.phase = .uncertain then outsideIntent intent item else [item.span]

def mappedIntervals (s : ClockState) : List Span := s.ranges.flatMap (mappedParts s)

/-- Join an interval to the last component unless a boundary lies between them. -/
def joinComponent (boundaries : List ℕ) (components : List Span) (item : Span) : List Span :=
  match components.getLast? with
  | none => [item]
  | some last =>
    if last.stop = item.start ∧ item.start ∉ boundaries then
      components.dropLast ++ [⟨last.start, item.stop⟩]
    else components ++ [item]

def fromState (s : ClockState) : PublicTimeProjection :=
  let components := (mappedIntervals s).foldl (joinComponent (causalBoundaries s)) []
  ⟨s, s.ranges.map (·.startSequence), components, components.map (·.start)⟩

def mappedComponent (p : PublicTimeProjection) (sequence : ℕ) : Except String Span :=
  match bisected p.componentStarts p.components sequence with
  | none => .error "mapped clock range has no effective causal interval"
  | some component =>
    if sequence < component.stop then .ok component
    else .error "mapped clock range has no effective causal interval"

def intentKey (intent : ClockIntent) (sequence : ℕ) : String :=
  let stop := match intent.writeSequenceAfter with
    | none => "open"
    | some a => toString a
  colon "unknown-intent" (colon (toString intent.writeSequenceBefore) (colon stop
    (colon intent.operationId (toString sequence))))

def uncoveredKey (sequence : ℕ) : String := colon "unknown-uncovered" (toString sequence)

def rangeKey (r : ClockRange) : String :=
  colon "unknown-range" (colon (toString r.startSequence) (colon (toString r.nextSequence)
    r.sourceId))

def mappedKey (component : Span) : String :=
  colon "mapped" (colon (toString component.start) (toString component.stop))

def mappedRawKey (hex : ℚ → String) (r : ClockRange) (offset : ℚ) : String :=
  colon "mapped-raw" (colon (toString r.startSequence) (colon (toString r.nextSequence)
    (hex offset)))

/-- The label of a record, before comparability with its predecessor is known. -/
structure Label where
  quality : Quality
  seconds : ℤ
  utcUncertaintySeconds : Option ℚ
  membership : String
  deriving DecidableEq, Repr

def unknownLabel (rawTimestamp : ℕ) (membership : String) : Label :=
  ⟨.unknown, rawTimestamp, none, membership⟩

def normalized (rawTimestamp : ℕ) (offset : ℚ) : ℤ := ⌊(rawTimestamp : ℚ) + offset + 1 / 2⌋

/-- The mapped label does not fit the public field. -/
def Overflows (rawTimestamp : ℕ) (offset : ℚ) : Prop :=
  ¬ (0 ≤ normalized rawTimestamp offset ∧ normalized rawTimestamp offset ≤ uint32Max)

instance (rawTimestamp : ℕ) (offset : ℚ) : Decidable (Overflows rawTimestamp offset) :=
  inferInstanceAs (Decidable (¬ _))

/-- The intent whose uncertain interval holds the sequence. -/
def windowIntent (s : ClockState) (sequence : ℕ) : Option ClockIntent :=
  s.intent.filter fun intent => decide (intent.phase = .uncertain ∧
    intent.writeSequenceBefore ≤ sequence) &&
    intent.writeSequenceAfter.all (fun a => decide (sequence < a))

/-- The range that holds the sequence, found by its start. -/
def rangeAt (p : PublicTimeProjection) (sequence : ℕ) : Option ClockRange :=
  (bisected p.rangeStarts p.state.ranges sequence).filter
    fun r => decide (sequence < r.nextSequence)

def publicLabel (hex : ℚ → String) (p : PublicTimeProjection) (sequence rawTimestamp : ℕ) :
    Except String Label :=
  match windowIntent p.state sequence with
  | some intent => .ok (unknownLabel rawTimestamp (intentKey intent sequence))
  | none =>
    match rangeAt p sequence with
    | none => .ok (unknownLabel rawTimestamp (uncoveredKey sequence))
    | some r =>
      match r.offsetSeconds with
      | none => .ok (unknownLabel rawTimestamp (rangeKey r))
      | some offset => do
        let component ← mappedComponent p sequence
        if Overflows rawTimestamp offset then
          pure (unknownLabel rawTimestamp (mappedRawKey hex r offset))
        else
          pure ⟨if r.confidence = .approximate then .approximate else .known,
            normalized rawTimestamp offset, r.uncertaintySeconds, mappedKey component⟩

/-- A recorded uncertain interval touches the sequence. -/
def Recorded (s : ClockState) (sequence : ℕ) : Prop :=
  ∃ i ∈ s.causalUncertainty, i.1 ≤ sequence ∧ sequence ≤ i.2

instance (s : ClockState) (sequence : ℕ) : Decidable (Recorded s sequence) :=
  inferInstanceAs (Decidable (∃ i ∈ s.causalUncertainty, _))

def sameCausalComponent (p : PublicTimeProjection) (sequence : ℕ) (membership : String)
    (predecessor : FrozenTimePredecessor) : Except String Bool :=
  if Recorded p.state sequence then .ok false
  else if predecessor.time.causalMembership = membership then .ok true
  else if partition membership ≠ "mapped" ∨
      partition predecessor.time.causalMembership ≠ partition membership then .ok false
  else do
    let component ← mappedComponent p sequence
    pure (decide (component.start ≤ predecessor.sequence ∧ predecessor.sequence < component.stop))

/-- Comparability with the predecessor, if the caller gave one and it comes right before. -/
def comparableTo (p : PublicTimeProjection) (sequence : ℕ) (membership : String) :
    Option FrozenTimePredecessor → Except String Bool
  | none => .ok false
  | some predecessor =>
    if predecessor.sequence + 1 = sequence then
      sameCausalComponent p sequence membership predecessor
    else .ok false

/-- Freeze one label and its causal comparability. -/
def freeze (hex : ℚ → String) (p : PublicTimeProjection) (sequence rawTimestamp : ℕ)
    (predecessor : Option FrozenTimePredecessor) : Except String FrozenPublicTime :=
  if sequence > uint64Max then .error "sequence must be an unsigned integer"
  else if rawTimestamp > uint32Max then .error "raw_timestamp must be an unsigned integer"
  else do
    let label ← publicLabel hex p sequence rawTimestamp
    let comparable ← comparableTo p sequence label.membership predecessor
    pure ⟨label.quality, label.seconds, label.utcUncertaintySeconds, label.membership, comparable⟩

theorem windowIntent_eq_some {s : ClockState} {x : ℕ} {intent : ClockIntent} :
    windowIntent s x = some intent ↔ s.intent = some intent ∧ intent.phase = .uncertain ∧
      intent.writeSequenceBefore ≤ x ∧ ∀ a ∈ intent.writeSequenceAfter, x < a := by
  unfold windowIntent
  rw [Option.filter_eq_some_iff]
  apply and_congr_right
  intro _
  cases intent.writeSequenceAfter <;> simp [and_assoc]

theorem rangeAt_eq_some {s : ClockState} {x : ℕ} {r : ClockRange} :
    rangeAt (fromState s) x = some r ↔ r ∈ s.ranges ∧ r.span.Contains x := by
  unfold rangeAt
  rw [Option.filter_eq_some_iff, decide_eq_true_eq]
  have hstarts : (fromState s).rangeStarts = s.ranges.map (fun q => q.span.start) := rfl
  have hstate : (fromState s).state = s := rfl
  rw [hstarts, hstate]
  constructor
  · intro h
    exact ⟨mem_of_bisected h.1, start_le_of_bisected h.1, h.2⟩
  · intro h
    refine ⟨bisected_of_contains ?_ (fun q _ => q.nonempty.le) h.1 h.2, h.2.2⟩
    exact ClockEvidence.ordered_iff_pairwise.mp s.ordered

/-- Ordered proper spans none of which has a boundary strictly inside. -/
structure Split (boundaries : List ℕ) (spans : List Span) : Prop where
  sequential : SpanCover.Sequential spans
  proper : ∀ p ∈ spans, p.start < p.stop
  clear : ∀ p ∈ spans, ∀ k ∈ boundaries, ¬ (p.start < k ∧ k < p.stop)

theorem joinComponent_cases (boundaries : List ℕ) (components : List Span) (item : Span) :
    (components = [] ∧ joinComponent boundaries components item = [item]) ∨
    ∃ init last, components = init ++ [last] ∧
      ((last.stop = item.start ∧ item.start ∉ boundaries ∧
          joinComponent boundaries components item = init ++ [⟨last.start, item.stop⟩]) ∨
        joinComponent boundaries components item = init ++ [last, item]) := by
  rcases List.eq_nil_or_concat components with rfl | ⟨init, last, rfl⟩
  · exact .inl ⟨rfl, rfl⟩
  · refine .inr ⟨init, last, List.concat_eq_append, ?_⟩
    rw [List.concat_eq_append]
    by_cases hjoin : last.stop = item.start ∧ item.start ∉ boundaries
    · exact .inl ⟨hjoin.1, hjoin.2, by simp [joinComponent, hjoin]⟩
    · exact .inr (by simp [joinComponent, hjoin])

theorem joinComponent_split {boundaries : List ℕ} {components rest : List Span} {item : Span}
    (h : Split boundaries (components ++ item :: rest)) :
    Split boundaries (joinComponent boundaries components item ++ rest) := by
  obtain ⟨rfl, hstep⟩ | ⟨init, last, rfl, ⟨hmeet, hfree, hstep⟩ | hstep⟩ :=
    joinComponent_cases boundaries components item
  · rw [hstep]
    exact h
  · rw [hstep]
    have hlast := h.proper last (by simp)
    have hitem := h.proper item (by simp)
    refine ⟨?_, ?_, ?_⟩
    · have hseq := h.sequential
      unfold SpanCover.Sequential at hseq ⊢
      simp only [List.append_assoc, List.cons_append, List.nil_append, List.pairwise_append,
        List.pairwise_cons, List.mem_cons, forall_eq_or_imp] at hseq ⊢
      exact ⟨hseq.1, ⟨hseq.2.1.2.1, hseq.2.1.2.2⟩,
        fun q hq => ⟨(hseq.2.2 q hq).1, (hseq.2.2 q hq).2.2⟩⟩
    · intro p hp
      simp only [List.mem_append, List.mem_singleton] at hp
      rcases hp with (hp | rfl) | hp
      · exact h.proper p (by simp [hp])
      · simp only
        omega
      · exact h.proper p (by simp [hp])
    · intro p hp k hk
      simp only [List.mem_append, List.mem_singleton] at hp
      rcases hp with (hp | rfl) | hp
      · exact h.clear p (by simp [hp]) k hk
      · -- A boundary inside the joined span would be inside a part or at the joint.
        have hleft := h.clear last (by simp) k hk
        have hright := h.clear item (by simp) k hk
        have hjoint : k ≠ item.start := fun heq => hfree (heq ▸ hk)
        simp only
        omega
      · exact h.clear p (by simp [hp]) k hk
  · rw [hstep]
    simpa using h

theorem joinComponent_covers {boundaries : List ℕ} {components rest : List Span} {item : Span}
    (h : Split boundaries (components ++ item :: rest)) (x : ℕ) :
    Covers (joinComponent boundaries components item) x ↔ Covers (components ++ [item]) x := by
  obtain ⟨rfl, hstep⟩ | ⟨init, last, rfl, ⟨hmeet, -, hstep⟩ | hstep⟩ :=
    joinComponent_cases boundaries components item
  · rw [hstep]
    rfl
  · rw [hstep]
    have hlast := h.proper last (by simp)
    have hitem := h.proper item (by simp)
    simp only [covers_append, or_assoc]
    apply or_congr_right
    simp only [Covers, List.mem_singleton, exists_eq_left, Span.Contains]
    omega
  · rw [hstep]
    simp [Covers]

/-- Joining keeps the components split and covering the same sequences. -/
theorem foldl_joinComponent {boundaries : List ℕ} {components items : List Span}
    (h : Split boundaries (components ++ items)) :
    Split boundaries (items.foldl (joinComponent boundaries) components) ∧
      ∀ x, Covers (items.foldl (joinComponent boundaries) components) x ↔
        Covers (components ++ items) x := by
  induction items generalizing components with
  | nil =>
    rw [List.append_nil] at h ⊢
    exact ⟨h, fun _ => Iff.rfl⟩
  | cons item items ih =>
    obtain ⟨hsplit, hcovers⟩ := ih (joinComponent_split h)
    refine ⟨hsplit, fun x => ?_⟩
    rw [List.foldl_cons, hcovers, covers_append, joinComponent_covers h x, ← covers_append,
      List.append_assoc]
    rfl

theorem outsideIntent_inside {intent : ClockIntent} {r : ClockRange} {p : Span}
    (h : p ∈ outsideIntent intent r) : p.Inside r.span ∧ p.start < p.stop := by
  have hr := r.nonempty
  unfold outsideIntent at h
  split at h
  · obtain rfl := List.mem_singleton.mp h
    exact ⟨⟨le_rfl, le_rfl⟩, hr⟩
  · rename_i hpast
    split at h
    · obtain rfl := List.mem_singleton.mp h
      exact ⟨⟨le_rfl, le_rfl⟩, hr⟩
    · rename_i hafter
      rcases List.mem_append.mp h with h | h
      · by_cases hstart : r.startSequence < intent.writeSequenceBefore
        · rw [if_pos hstart] at h
          obtain rfl := List.mem_singleton.mp h
          exact ⟨⟨le_rfl, by simp only [ClockRange.span]; omega⟩, hstart⟩
        · simp [hstart] at h
      · cases ha : intent.writeSequenceAfter with
        | none => simp [ha] at h
        | some a =>
          simp only [ha, Option.any_some, decide_eq_true_eq] at h hafter
          by_cases hstop : a < r.nextSequence
          · rw [if_pos hstop] at h
            obtain rfl := List.mem_singleton.mp h
            exact ⟨⟨by simp only [ClockRange.span]; omega, le_rfl⟩, hstop⟩
          · simp [hstop] at h

theorem outsideIntent_sequential (intent : ClockIntent) (r : ClockRange) :
    SpanCover.Sequential (outsideIntent intent r) := by
  unfold outsideIntent SpanCover.Sequential
  split
  · exact List.pairwise_singleton _ _
  · split
    · exact List.pairwise_singleton _ _
    · cases ha : intent.writeSequenceAfter with
      | none => by_cases hstart : r.startSequence < intent.writeSequenceBefore <;> simp [hstart]
      | some a =>
        have hle := intent.bounded a ha
        by_cases hstart : r.startSequence < intent.writeSequenceBefore <;>
          by_cases hstop : a < r.nextSequence <;> simp [hstart, hstop, hle]

theorem outsideIntent_covers {intent : ClockIntent} {r : ClockRange} {x : ℕ}
    (hx : r.span.Contains x)
    (hout : ¬ (intent.writeSequenceBefore ≤ x ∧ ∀ a ∈ intent.writeSequenceAfter, x < a)) :
    Covers (outsideIntent intent r) x := by
  obtain ⟨hlow, hhigh⟩ := hx
  simp only [ClockRange.span] at hlow hhigh
  unfold outsideIntent
  split
  · exact ⟨r.span, by simp, hlow, hhigh⟩
  · split
    · exact ⟨r.span, by simp, hlow, hhigh⟩
    · rw [covers_append]
      by_cases hbefore : x < intent.writeSequenceBefore
      · left
        rw [if_pos (by omega)]
        exact ⟨_, List.mem_singleton_self _, hlow, hbefore⟩
      · right
        cases ha : intent.writeSequenceAfter with
        | none => exact absurd ⟨by omega, by simp [ha]⟩ hout
        | some a =>
          have hpast : a ≤ x := by
            by_contra hlt
            exact hout ⟨by omega, by simp [ha]; omega⟩
          simp only
          rw [if_pos (by omega)]
          exact ⟨_, List.mem_singleton_self _, hpast, hhigh⟩

/-- The boundary of an empty interval is inside no part. -/
theorem outsideIntent_clear {intent : ClockIntent} {r : ClockRange} {p : Span}
    (hempty : intent.writeSequenceAfter = some intent.writeSequenceBefore)
    (h : p ∈ outsideIntent intent r) :
    ¬ (p.start < intent.writeSequenceBefore ∧ intent.writeSequenceBefore < p.stop) := by
  unfold outsideIntent at h
  rw [hempty] at h
  split at h
  · obtain rfl := List.mem_singleton.mp h
    simp only [ClockRange.span]
    omega
  · split at h
    · rename_i hafter
      obtain rfl := List.mem_singleton.mp h
      simp only [Option.any_some, decide_eq_true_eq] at hafter
      simp only [ClockRange.span]
      omega
    · simp only [List.mem_append] at h
      rcases h with h | h
      · split at h
        · obtain rfl := List.mem_singleton.mp h
          simp
        · simp at h
      · split at h
        · obtain rfl := List.mem_singleton.mp h
          simp
        · simp at h

theorem mappedParts_inside {s : ClockState} {r : ClockRange} {p : Span}
    (h : p ∈ mappedParts s r) : p.Inside r.span ∧ p.start < p.stop := by
  have hwhole : p ∈ [r.span] → p.Inside r.span ∧ p.start < p.stop := by
    intro hp
    obtain rfl := List.mem_singleton.mp hp
    exact ⟨⟨le_rfl, le_rfl⟩, r.nonempty⟩
  unfold mappedParts at h
  split at h
  · simp at h
  · split at h
    · exact hwhole h
    · split at h
      · exact outsideIntent_inside h
      · exact hwhole h

theorem mappedParts_sequential (s : ClockState) (r : ClockRange) :
    SpanCover.Sequential (mappedParts s r) := by
  unfold mappedParts
  split
  · exact List.Pairwise.nil
  · split
    · exact List.pairwise_singleton _ _
    · split
      · exact outsideIntent_sequential _ r
      · exact List.pairwise_singleton _ _

theorem mappedIntervals_split (s : ClockState) :
    Split (causalBoundaries s) (mappedIntervals s) := by
  refine ⟨?_, ?_, ?_⟩
  · apply List.pairwise_flatMap.mpr
    refine ⟨fun r _ => mappedParts_sequential s r, ?_⟩
    refine (ClockEvidence.ordered_iff_pairwise.mp s.ordered).imp ?_
    intro a b hab p hp q hq
    exact (mappedParts_inside hp).1.2.trans (Nat.le_trans hab (mappedParts_inside hq).1.1)
  · intro p hp
    obtain ⟨r, -, hr⟩ := List.mem_flatMap.mp hp
    exact (mappedParts_inside hr).2
  · intro p hp k hk
    obtain ⟨r, -, hr⟩ := List.mem_flatMap.mp hp
    unfold causalBoundaries at hk
    unfold mappedParts at hr
    cases hintent : s.intent with
    | none => simp [hintent] at hk
    | some intent =>
      simp only [hintent] at hk hr
      split at hk
      · rename_i hempty
        obtain rfl := List.mem_singleton.mp hk
        split at hr
        · simp at hr
        · rw [if_pos hempty.1] at hr
          exact outsideIntent_clear hempty.2 hr
      · simp at hk

/-- A mapped sequence outside the pending interval lies in some interval. -/
theorem mappedIntervals_covers {s : ClockState} {r : ClockRange} {x : ℕ} (hr : r ∈ s.ranges)
    (hx : r.span.Contains x) (hmapped : r.offsetSeconds ≠ none) (hout : windowIntent s x = none) :
    Covers (mappedIntervals s) x := by
  have hpart : Covers (mappedParts s r) x := by
    unfold mappedParts
    rw [if_neg hmapped]
    cases hintent : s.intent with
    | none => exact ⟨r.span, by simp, hx⟩
    | some intent =>
      simp only
      by_cases hphase : intent.phase = .uncertain
      · rw [if_pos hphase]
        apply outsideIntent_covers hx
        intro hin
        rw [windowIntent_eq_some.mpr ⟨hintent, hphase, hin⟩] at hout
        simp at hout
      · rw [if_neg hphase]
        exact ⟨r.span, by simp, hx⟩
  obtain ⟨p, hp, hpx⟩ := hpart
  exact ⟨p, List.mem_flatMap.mpr ⟨r, hr, hp⟩, hpx⟩

theorem components_spec (s : ClockState) :
    Split (causalBoundaries s) (fromState s).components ∧
      ∀ x, Covers (fromState s).components x ↔ Covers (mappedIntervals s) x := by
  have hsplit : Split (causalBoundaries s) ([] ++ mappedIntervals s) := mappedIntervals_split s
  exact foldl_joinComponent hsplit

theorem mappedComponent_ok {s : ClockState} {x : ℕ} (h : Covers (mappedIntervals s) x) :
    ∃ c, mappedComponent (fromState s) x = .ok c := by
  obtain ⟨hsplit, hcovers⟩ := components_spec s
  obtain ⟨c, hc, hx⟩ := (hcovers x).mpr h
  have hfound : bisected (fromState s).componentStarts (fromState s).components x = some c :=
    @bisected_of_contains Span id _ _ _ hsplit.sequential
      (fun q hq => (hsplit.proper q hq).le) hc hx
  refine ⟨c, ?_⟩
  unfold mappedComponent
  rw [hfound]
  simp only
  rw [if_pos hx.2]

/-- The five ways a record is labelled, with the membership key of each. -/
inductive Labelled (hex : ℚ → String) (s : ClockState) (x rawTimestamp : ℕ) : String → Prop
  | intent {intent : ClockIntent} (pending : windowIntent s x = some intent) :
      Labelled hex s x rawTimestamp (intentKey intent x)
  | uncovered (outside : windowIntent s x = none)
      (free : ∀ r ∈ s.ranges, ¬ r.span.Contains x) :
      Labelled hex s x rawTimestamp (uncoveredKey x)
  | range {r : ClockRange} (outside : windowIntent s x = none) (held : r ∈ s.ranges)
      (inside : r.span.Contains x) (unknown : r.offsetSeconds = none) :
      Labelled hex s x rawTimestamp (rangeKey r)
  | raw {r : ClockRange} {offset : ℚ} (outside : windowIntent s x = none) (held : r ∈ s.ranges)
      (inside : r.span.Contains x) (mapped : r.offsetSeconds = some offset)
      (overflows : Overflows rawTimestamp offset) :
      Labelled hex s x rawTimestamp (mappedRawKey hex r offset)
  | mapped {r : ClockRange} {offset : ℚ} {c : Span} (outside : windowIntent s x = none)
      (held : r ∈ s.ranges) (inside : r.span.Contains x) (mapped : r.offsetSeconds = some offset)
      (fits : ¬ Overflows rawTimestamp offset)
      (component : mappedComponent (fromState s) x = .ok c) :
      Labelled hex s x rawTimestamp (mappedKey c)

/-- Every record gets a label. -/
theorem publicLabel_spec (hex : ℚ → String) (s : ClockState) (x rawTimestamp : ℕ) :
    ∃ label, publicLabel hex (fromState s) x rawTimestamp = .ok label ∧
      Labelled hex s x rawTimestamp label.membership := by
  have hstate : (fromState s).state = s := rfl
  unfold publicLabel
  rw [hstate]
  cases hwindow : windowIntent s x with
  | some intent => exact ⟨_, rfl, .intent hwindow⟩
  | none =>
    simp only
    cases hrange : rangeAt (fromState s) x with
    | none =>
      refine ⟨_, rfl, .uncovered hwindow ?_⟩
      intro r hr hx
      rw [rangeAt_eq_some.mpr ⟨hr, hx⟩] at hrange
      simp at hrange
    | some r =>
      obtain ⟨hr, hx⟩ := rangeAt_eq_some.mp hrange
      simp only
      cases hoffset : r.offsetSeconds with
      | none => exact ⟨_, rfl, .range hwindow hr hx hoffset⟩
      | some offset =>
        have hcovers := mappedIntervals_covers hr hx (by simp [hoffset]) hwindow
        obtain ⟨c, hc⟩ := mappedComponent_ok hcovers
        simp only [hc, bind, Except.bind]
        by_cases hover : Overflows rawTimestamp offset
        · rw [if_pos hover]
          exact ⟨_, rfl, .raw hwindow hr hx hoffset hover⟩
        · rw [if_neg hover]
          exact ⟨_, rfl, .mapped hwindow hr hx hoffset hover hc⟩

@[simp] theorem partition_intentKey (intent : ClockIntent) (x : ℕ) :
    partition (intentKey intent x) = "unknown-intent" := partition_colon _ (by decide)

@[simp] theorem partition_uncoveredKey (x : ℕ) :
    partition (uncoveredKey x) = "unknown-uncovered" := partition_colon _ (by decide)

@[simp] theorem partition_rangeKey (r : ClockRange) :
    partition (rangeKey r) = "unknown-range" := partition_colon _ (by decide)

@[simp] theorem partition_mappedKey (c : Span) :
    partition (mappedKey c) = "mapped" := partition_colon _ (by decide)

@[simp] theorem partition_mappedRawKey (hex : ℚ → String) (r : ClockRange) (offset : ℚ) :
    partition (mappedRawKey hex r offset) = "mapped-raw" := partition_colon _ (by decide)

end PublicTime
