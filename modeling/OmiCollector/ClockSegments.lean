import OmiCollector.Checks
import OmiCollector.PublicTime
import Mathlib.Data.List.Sort

/-! The private UTC projection of clock ranges. The segment map cuts every range around the
uncertain interval and scans the pieces one by one; on a valid state none of its checks refuses. -/
namespace ClockSegments

open Checks SpanCover ClockModel
open PublicTime (uint32Max uint64Max FrozenPublicTime FrozenTimePredecessor mappedParts
  mappedIntervals windowIntent freeze)

structure ClockSegment where
  observationId : String
  startSequence : ℕ
  nextSequence : ℕ
  utcOffsetSeconds : ℚ
  uncertaintySeconds : ℚ
  confidence : Confidence
  deriving DecidableEq, Repr

def ClockSegment.span (s : ClockSegment) : Span := ⟨s.startSequence, s.nextSequence⟩

def ClockSegment.make (s : ClockSegment) : Except String ClockSegment := do
  refuse (s.observationId = "" ∨ s.nextSequence ≤ s.startSequence ∨ s.uncertaintySeconds < 0 ∨
    s.confidence = .unknown) "clock segment is invalid"
  pure s

def ClockSegment.utcFor (s : ClockSegment) (sequence rawTimestamp : ℕ) : Option ℚ :=
  if s.startSequence ≤ sequence ∧ sequence < s.nextSequence then
    some (rawTimestamp + s.utcOffsetSeconds)
  else none

def ClockSegment.slice (s : ClockSegment) (start stop : ℕ) : Except String ClockSegment :=
  ClockSegment.make { s with startSequence := start, nextSequence := stop }

def segment (item : ClockRange) : Except String ClockSegment :=
  match item.offsetSeconds, item.uncertaintySeconds with
  | some offset, some uncertainty =>
    ClockSegment.make ⟨item.sourceId, item.startSequence, item.nextSequence, offset, uncertainty,
      if item.confidence = .approximate then .approximate else .confirmed⟩
  | _, _ => .error "unknown range cannot be projected"

/-- The slice of a segment, if it is not empty. -/
def sliceNonempty (s : ClockSegment) (start stop : ℕ) : Except String (List ClockSegment) :=
  if start < stop then do
    let piece ← s.slice start stop
    pure [piece]
  else pure []

/-- The pieces of a range outside the interval `[start, stop)`, which may be open. -/
def sliceAround (item : ClockRange) (s : ClockSegment) (start : ℕ) (stop : Option ℕ) :
    Except String (List ClockSegment) :=
  if item.nextSequence ≤ start ∨ stop.any (fun a => decide (a ≤ item.startSequence)) then pure [s]
  else do
    let before ← sliceNonempty s item.startSequence start
    let after ← match stop with
      | none => pure []
      | some a => sliceNonempty s a item.nextSequence
    pure (before ++ after)

def projectRange (item : ClockRange) (state : ClockState) : Except String (List ClockSegment) := do
  let s ← segment item
  match state.intent with
  | none => pure [s]
  | some intent =>
    if intent.phase = .uncertain then
      sliceAround item s intent.writeSequenceBefore intent.writeSequenceAfter
    else pure [s]

def byStart (a b : ClockSegment) : Prop := a.startSequence ≤ b.startSequence

instance : DecidableRel byStart := fun _ _ => inferInstanceAs (Decidable (_ ≤ _))

/-- Adjacent segments are apart. -/
def Disjoint (segments : List ClockSegment) : Prop :=
  segments.IsChain fun left right => left.nextSequence ≤ right.startSequence

instance (segments : List ClockSegment) : Decidable (Disjoint segments) :=
  inferInstanceAs (Decidable (List.IsChain _ segments))

structure ClockSegmentMap where
  segments : List ClockSegment
  deriving DecidableEq, Repr

def ClockSegmentMap.make (segments : List ClockSegment) : Except String ClockSegmentMap := do
  refuse (segments.insertionSort byStart ≠ segments ∨ ¬ Disjoint (segments.insertionSort byStart))
    "clock segments overlap or are unordered"
  pure ⟨segments⟩

/-- The segments of the mapped ranges, range by range. -/
def projectRanges (state : ClockState) : List ClockRange → Except String (List ClockSegment)
  | [] => pure []
  | item :: ranges =>
    if item.offsetSeconds = none then projectRanges state ranges
    else do
      let first ← projectRange item state
      let rest ← projectRanges state ranges
      pure (first ++ rest)

def fromState (state : ClockState) : Except String ClockSegmentMap := do
  let segments ← projectRanges state state.ranges
  ClockSegmentMap.make segments

/-- The first segment that owns the record decides. -/
def ClockSegmentMap.utcFor (m : ClockSegmentMap) (sequence rawTimestamp : ℕ) : Option ℚ :=
  m.segments.findSome? fun s => s.utcFor sequence rawTimestamp

def projectUtcTimestamp (m : ClockSegmentMap) (sequence deviceTimestamp : ℕ) : Option ℤ :=
  match m.utcFor sequence deviceTimestamp with
  | none => none
  | some projected =>
    if 0 ≤ ⌊projected + 1 / 2⌋ ∧ ⌊projected + 1 / 2⌋ ≤ uint32Max then some ⌊projected + 1 / 2⌋
    else none

/-- The segment of a mapped range with valid evidence, over any part of it. -/
def segmentOf (item : ClockRange) (offset uncertainty : ℚ) (p : Span) : ClockSegment :=
  ⟨item.sourceId, p.start, p.stop, offset, uncertainty,
    if item.confidence = .approximate then .approximate else .confirmed⟩

theorem make_segmentOf {item : ClockRange} {offset uncertainty : ℚ} (hsource : item.sourceId ≠ "")
    (huncertainty : 0 ≤ uncertainty) {p : Span} (hp : p.start < p.stop) :
    ClockSegment.make (segmentOf item offset uncertainty p) =
      .ok (segmentOf item offset uncertainty p) := by
  have hconfidence : (segmentOf item offset uncertainty p).confidence ≠ .unknown := by
    simp only [segmentOf]
    split <;> simp
  simp only [ClockSegment.make, bind_ok, refuse_ok, exists_const, pure_ok]
  refine ⟨?_, trivial⟩
  rintro (h | h | h | h)
  · exact hsource h
  · exact absurd hp (not_lt.mpr h)
  · exact absurd huncertainty (not_le.mpr h)
  · exact hconfidence h

theorem sliceNonempty_ok {item : ClockRange} {offset uncertainty : ℚ} (hsource : item.sourceId ≠ "")
    (huncertainty : 0 ≤ uncertainty) (p : Span) (start stop : ℕ) :
    sliceNonempty (segmentOf item offset uncertainty p) start stop =
      .ok ((if start < stop then [(⟨start, stop⟩ : Span)] else []).map
        (segmentOf item offset uncertainty)) := by
  unfold sliceNonempty
  by_cases h : start < stop
  · have hslice : (segmentOf item offset uncertainty p).slice start stop =
        .ok (segmentOf item offset uncertainty ⟨start, stop⟩) :=
      @make_segmentOf item offset uncertainty hsource huncertainty ⟨start, stop⟩ h
    rw [if_pos h, if_pos h, bind_ok]
    exact ⟨_, hslice, rfl⟩
  · rw [if_neg h, if_neg h]
    rfl

/-- Cutting the segment of a range cuts the range. -/
theorem sliceAround_ok {item : ClockRange} {offset uncertainty : ℚ} (hsource : item.sourceId ≠ "")
    (huncertainty : 0 ≤ uncertainty) (intent : ClockIntent) :
    sliceAround item (segmentOf item offset uncertainty item.span) intent.writeSequenceBefore
      intent.writeSequenceAfter =
      .ok ((PublicTime.outsideIntent intent item).map (segmentOf item offset uncertainty)) := by
  unfold sliceAround PublicTime.outsideIntent
  by_cases hbefore : item.nextSequence ≤ intent.writeSequenceBefore
  · rw [if_pos (.inl hbefore), if_pos hbefore]
    rfl
  · by_cases hafter : intent.writeSequenceAfter.any fun a => decide (a ≤ item.startSequence)
    · rw [if_pos (.inr hafter), if_neg hbefore, if_pos hafter]
      rfl
    · rw [if_neg (by tauto), if_neg hbefore, if_neg hafter, List.map_append]
      have hpiece := @sliceNonempty_ok item offset uncertainty hsource huncertainty item.span
      cases intent.writeSequenceAfter with
      | none =>
        simp only [bind_ok, pure_ok]
        exact ⟨_, hpiece _ _, [], rfl, rfl⟩
      | some a =>
        simp only [bind_ok, pure_ok]
        exact ⟨_, hpiece _ _, _, hpiece _ _, rfl⟩

/-- A mapped range with valid evidence is projected to its segment over each of its mapped parts. -/
theorem projectRange_ok {state : ClockState} {item : ClockRange} {offset uncertainty : ℚ}
    (hoffset : item.offsetSeconds = some offset)
    (hknown : item.uncertaintySeconds = some uncertainty) (hsource : item.sourceId ≠ "")
    (huncertainty : 0 ≤ uncertainty) : projectRange item state =
      .ok ((mappedParts state item).map (segmentOf item offset uncertainty)) := by
  have hsegment : segment item = .ok (segmentOf item offset uncertainty item.span) := by
    rw [segment, hoffset, hknown]
    exact @make_segmentOf item offset uncertainty hsource huncertainty item.span item.nonempty
  unfold projectRange mappedParts
  rw [bind_ok]
  refine ⟨_, hsegment, ?_⟩
  rw [if_neg (by simp [hoffset])]
  cases state.intent with
  | none => rfl
  | some intent =>
    by_cases hphase : intent.phase = .uncertain
    · simp only [if_pos hphase]
      exact sliceAround_ok hsource huncertainty intent
    · simp only [if_neg hphase]
      rfl

/-- The segments of a range, if it is mapped. -/
def rangeSegments (state : ClockState) (item : ClockRange) : List ClockSegment :=
  match item.offsetSeconds, item.uncertaintySeconds with
  | some offset, some uncertainty => (mappedParts state item).map (segmentOf item offset uncertainty)
  | _, _ => []

theorem rangeSegments_unmapped {state : ClockState} {item : ClockRange}
    (h : item.offsetSeconds = none) : rangeSegments state item = [] := by
  rw [rangeSegments, h]

theorem projectRanges_ok {state : ClockState} {ranges : List ClockRange}
    (hvalid : ∀ r ∈ ranges, ClockHistory.ValidEvidence (ClockEvidence.evidence r)) :
    projectRanges state ranges = .ok (ranges.flatMap (rangeSegments state)) := by
  induction ranges with
  | nil => rfl
  | cons item ranges ih =>
    have hrest := ih fun r hr => hvalid r (List.mem_cons_of_mem item hr)
    obtain ⟨hsource, huncertainty, -, hknown⟩ := hvalid item List.mem_cons_self
    rw [projectRanges, List.flatMap_cons]
    cases hoffset : item.offsetSeconds with
    | none =>
      rw [if_pos rfl, rangeSegments_unmapped hoffset]
      exact hrest
    | some offset =>
      obtain ⟨uncertainty, hu⟩ : ∃ u, item.uncertaintySeconds = some u := by
        apply Option.ne_none_iff_exists'.mp
        intro hnone
        have hunmapped : item.offsetSeconds = none := hknown.mpr hnone
        simp [hoffset] at hunmapped
      have hnonneg : 0 ≤ uncertainty := by
        simpa [ClockEvidence.evidence, hu] using huncertainty
      have hsegments : rangeSegments state item =
          (mappedParts state item).map (segmentOf item offset uncertainty) := by
        rw [rangeSegments, hoffset, hu]
      rw [if_neg (by simp), hsegments]
      simp only [bind_ok, pure_ok]
      exact ⟨_, projectRange_ok hoffset hu hsource hnonneg, _, hrest, rfl⟩

theorem rangeSegments_spans {state : ClockState} {item : ClockRange}
    (hvalid : ClockHistory.ValidEvidence (ClockEvidence.evidence item)) :
    (rangeSegments state item).map ClockSegment.span = mappedParts state item := by
  obtain ⟨-, -, -, hknown⟩ := hvalid
  cases hoffset : item.offsetSeconds with
  | none =>
    rw [rangeSegments_unmapped hoffset, mappedParts, if_pos hoffset]
    rfl
  | some offset =>
    cases hu : item.uncertaintySeconds with
    | none =>
      have hunmapped : item.offsetSeconds = none := hknown.mpr hu
      simp [hoffset] at hunmapped
    | some uncertainty =>
      rw [rangeSegments, hoffset, hu, List.map_map]
      exact List.map_id' _

/-- The segments lie over the mapped intervals of the public projection, before it joins them. -/
theorem segments_spans {state : ClockState} (hvalid : ClockHistory.Valid state) :
    (state.ranges.flatMap (rangeSegments state)).map ClockSegment.span =
      mappedIntervals state := by
  rw [List.map_flatMap]
  exact List.flatMap_congr fun item hitem => rangeSegments_spans (hvalid.ranges item hitem)

/-- Segments over sequential nonempty spans are accepted. -/
theorem make_ok {segments : List ClockSegment} (h : SpanCover.Sequential (segments.map ClockSegment.span))
    (hproper : ∀ p ∈ segments.map ClockSegment.span, p.start < p.stop) :
    ClockSegmentMap.make segments = .ok ⟨segments⟩ := by
  have hapart : segments.Pairwise fun left right => left.nextSequence ≤ right.startSequence :=
    List.pairwise_map.mp h
  have hsorted : segments.Pairwise byStart := by
    refine List.Pairwise.imp_of_mem ?_ hapart
    intro a b ha _ hab
    have hlt : a.startSequence < a.nextSequence := hproper _ (List.mem_map_of_mem ha)
    exact hlt.le.trans hab
  have hsame : segments.insertionSort byStart = segments := List.Pairwise.insertionSort_eq hsorted
  have hdisjoint : Disjoint segments := List.Pairwise.isChain hapart
  simp only [ClockSegmentMap.make, bind_ok, refuse_ok, exists_const, pure_ok]
  rw [hsame]
  exact ⟨by simp [hdisjoint], trivial⟩

/-- The segment map of a valid state. -/
theorem fromState_ok {state : ClockState} (hvalid : ClockHistory.Valid state) :
    fromState state = .ok ⟨state.ranges.flatMap (rangeSegments state)⟩ := by
  have hspans := segments_spans hvalid
  have hsplit := PublicTime.mappedIntervals_split state
  unfold fromState
  simp only [bind_ok]
  refine ⟨_, projectRanges_ok hvalid.ranges, ?_⟩
  apply make_ok
  · rw [hspans]
    exact hsplit.sequential
  · rw [hspans]
    exact hsplit.proper

end ClockSegments
