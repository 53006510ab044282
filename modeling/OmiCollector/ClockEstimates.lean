import OmiCollector.ClockSegments
import OmiCollector.LayeredSpans
import OmiCollector.PublicTimeline

/-! UTC estimates for ranges without confirmed evidence. Each native reading is laid over the
earlier ones and the confirmed segments over all of them, so that at every sequence the confirmed
segment decides, or else the latest applicable reading. -/
namespace ClockEstimates

open Checks SpanCover ClockModel ClockSegments
open LayeredSpans (Cell Last Latest byOrder)

inductive EvidenceKind where
  | nativeTrusted
  | anchoredMonotonic
  deriving DecidableEq, Repr

inductive ObservationRole where
  | standalone
  | initial
  | later
  deriving DecidableEq, Repr

structure ClockObservation where
  version : ℕ
  observationId : String
  causalOrder : ℕ
  evidenceKind : EvidenceKind
  sessionId : String
  hostBootId : String
  hostRealtimeStart : ℚ
  hostRealtimeEnd : ℚ
  hostMonotonicStart : ℚ
  hostMonotonicEnd : ℚ
  deviceEpoch : ℕ
  infoSequenceMin : ℕ
  infoSequenceMax : ℕ
  operationId : Option String := none
  effectiveBoundarySequence : Option ℕ := none
  observationRole : ObservationRole := .standalone
  parentObservationId : Option String := none
  rawTimestamp : Option ℕ := none
  rawTimestampHash : Option String := none
  deriving DecidableEq, Repr

def observationVersion : ℕ := 1
def maxText : ℕ := 256

/-- The read-back error of the whole-second device clock. -/
def rtcQuantizationUncertaintySeconds : ℚ := 1

def validateIdentity (row : ClockObservation) : Except String Unit := do
  refuse (row.version ≠ observationVersion) "clock observation schema is invalid"
  refuse (∃ item ∈ [row.observationId, row.sessionId, row.hostBootId],
    item = "" ∨ maxText < item.length) "clock observation identity is invalid"

def validateIntervals (row : ClockObservation) : Except String Unit :=
  refuse (row.hostRealtimeEnd < row.hostRealtimeStart ∨
    row.hostMonotonicEnd < row.hostMonotonicStart) "clock observation interval is reversed"

def validateSequences (row : ClockObservation) : Except String Unit := do
  refuse (∃ value ∈ [row.deviceEpoch, row.infoSequenceMin, row.infoSequenceMax],
    PublicTime.uint64Max < value) "clock observation sequence is invalid"
  refuse (row.infoSequenceMax < row.infoSequenceMin) "clock observation sequence bounds are invalid"

def validateReferences (row : ClockObservation) : Except String Unit := do
  refuse (row.operationId = some "") "clock observation operation reference is invalid"
  refuse (row.parentObservationId = some "") "clock observation parent reference is invalid"

def validateRawEvidence (row : ClockObservation) : Except String Unit := do
  refuse (row.rawTimestamp.any fun value => decide (PublicTime.uint32Max < value))
    "clock observation raw timestamp is invalid"
  refuse (row.rawTimestampHash.any fun value => decide (¬ PublicTimeline.IsDigest value))
    "clock observation raw timestamp hash is invalid"
  refuse (¬ (row.rawTimestamp = none ↔ row.rawTimestampHash = none))
    "clock observation raw timestamp evidence is incomplete"

def validateEffectiveBoundary (row : ClockObservation) : Except String Unit :=
  refuse (row.effectiveBoundarySequence.any fun boundary => decide (row.infoSequenceMax < boundary))
    "clock observation effective boundary is invalid"

def validateObservation (row : ClockObservation) : Except String Unit := do
  validateIdentity row
  validateIntervals row
  validateSequences row
  validateReferences row
  validateRawEvidence row
  validateEffectiveBoundary row

def fromApproximateObservation (o : ClockObservation) (startSequence nextSequence : ℕ) :
    Except String ClockSegment := do
  refuse (o.evidenceKind ≠ .nativeTrusted) "approximate clock range has no native RTC anchor"
  ClockSegment.make ⟨o.observationId, startSequence, nextSequence,
    (o.hostRealtimeStart + o.hostRealtimeEnd) / 2 - o.deviceEpoch,
    (o.hostRealtimeEnd - o.hostRealtimeStart) / 2 + rtcQuantizationUncertaintySeconds, .approximate⟩

/-- The observation with that id, the last one where several have it. -/
def byId (observations : List ClockObservation) (id : String) : Option ClockObservation :=
  observations.reverse.find? fun item => item.observationId = id

/-- The later reading of the operation that the initial reading started. -/
def laterReading (o : ClockObservation) (observations : List ClockObservation) :
    Option ClockObservation :=
  observations.find? fun item => item.operationId = o.operationId ∧ item.observationRole = .later ∧
    item.parentObservationId = some o.observationId ∧ item.effectiveBoundarySequence ≠ none

/-- The bounds of an estimate after its role and before the verified boundaries. -/
def roleBounds (o : ClockObservation) (observations : List ClockObservation) : ℕ × ℕ :=
  match o.observationRole with
  | .standalone => (o.infoSequenceMin, o.infoSequenceMax)
  | .initial =>
    match (laterReading o observations).bind (·.effectiveBoundarySequence) with
    | none => (o.infoSequenceMin, o.infoSequenceMax)
    | some boundary => (o.infoSequenceMin, min o.infoSequenceMax boundary)
  | .later =>
    match (o.parentObservationId.filter (· ≠ "")).bind (byId observations) with
    | none => (o.infoSequenceMin, o.infoSequenceMax)
    | some parent => (o.effectiveBoundarySequence.getD (max o.infoSequenceMin parent.infoSequenceMax),
        o.infoSequenceMax)

/-- The start raised by the boundaries of smaller order, one by one. -/
def raiseStart (order stop : ℕ) : List (ℕ × ℕ) → ℕ → Option ℕ
  | [], start => some start
  | (boundaryOrder, boundary) :: boundaries, start =>
    if boundaryOrder < order ∧ start < boundary then
      if stop ≤ boundary then none else raiseStart order stop boundaries (max start boundary)
    else raiseStart order stop boundaries start

def approximateBounds (o : ClockObservation) (observations : List ClockObservation)
    (boundaries : List (ℕ × ℕ)) : Option (ℕ × ℕ) :=
  let (start, stop) := roleBounds o observations
  match raiseStart o.causalOrder stop boundaries start with
  | none => none
  | some start => if start < stop then some (start, stop) else none

def verifiedBoundary (observations : List ClockObservation) (verifiedOperations : Finset String)
    (item : ClockObservation) : Option (ℕ × ℕ) :=
  if (item.operationId.any fun id => decide (id ∈ verifiedOperations)) ∧
      item.observationRole = .later ∧
      ((item.parentObservationId.bind (byId observations)).any fun parent =>
        decide (parent.observationRole = .initial)) then
    item.effectiveBoundarySequence.map fun boundary => (item.causalOrder, boundary)
  else none

def verifiedBoundaries (observations : List ClockObservation) (verifiedOperations : Finset String) :
    List (ℕ × ℕ) :=
  observations.filterMap (verifiedBoundary observations verifiedOperations)

def approximateSegment (observations : List ClockObservation) (boundaries : List (ℕ × ℕ))
    (o : ClockObservation) : Except String (Option (ℕ × ClockSegment)) :=
  if o.evidenceKind ≠ .nativeTrusted then pure none
  else
    match approximateBounds o observations boundaries with
    | none => pure none
    | some (start, stop) => do
      let estimate ← fromApproximateObservation o start stop
      pure (some (o.causalOrder, estimate))

def approximateSegments (observations : List ClockObservation) (boundaries : List (ℕ × ℕ)) :
    Except String (List (ℕ × ClockSegment)) := do
  let estimates ← observations.mapM (approximateSegment observations boundaries)
  pure (estimates.filterMap id)

def overlayItem (incoming item : ClockSegment) : Except String (List ClockSegment) :=
  if item.nextSequence ≤ incoming.startSequence ∨ incoming.nextSequence ≤ item.startSequence then
    pure [item]
  else do
    let before ← sliceNonempty item item.startSequence incoming.startSequence
    let after ← sliceNonempty item incoming.nextSequence item.nextSequence
    pure (before ++ after)

def overlay (segments : List ClockSegment) (incoming : ClockSegment) :
    Except String (List ClockSegment) := do
  let output ← segments.mapM (overlayItem incoming)
  pure (output.flatten ++ [incoming])

def segmentsWithEstimates (observations : List ClockObservation) (confirmed : ClockSegmentMap)
    (verifiedOperations : Finset String) : Except String ClockSegmentMap := do
  let boundaries := verifiedBoundaries observations verifiedOperations
  let estimates ← approximateSegments observations boundaries
  if estimates = [] then pure confirmed
  else do
    let segments ← ((estimates.insertionSort (byOrder Prod.fst)).map Prod.snd).foldlM overlay []
    let segments ← confirmed.segments.foldlM overlay segments
    ClockSegmentMap.make (segments.insertionSort byStart)

/-- What a segment says about the sequences it covers. -/
structure SegmentFacts where
  observationId : String
  utcOffsetSeconds : ℚ
  uncertaintySeconds : ℚ
  confidence : Confidence
  deriving DecidableEq, Repr

def facts (s : ClockSegment) : SegmentFacts :=
  ⟨s.observationId, s.utcOffsetSeconds, s.uncertaintySeconds, s.confidence⟩

def estimateFacts (o : ClockObservation) : SegmentFacts :=
  ⟨o.observationId, (o.hostRealtimeStart + o.hostRealtimeEnd) / 2 - o.deviceEpoch,
    (o.hostRealtimeEnd - o.hostRealtimeStart) / 2 + rtcQuantizationUncertaintySeconds, .approximate⟩

/-- A segment over the sequence has these facts. -/
def FactsAt (segments : List ClockSegment) (sequence : ℕ) (f : SegmentFacts) : Prop :=
  ∃ s ∈ segments, s.span.Contains sequence ∧ facts s = f

def ValidSegment (s : ClockSegment) : Prop := ClockSegment.make s = .ok s

def ValidMap (m : ClockSegmentMap) : Prop :=
  (∀ s ∈ m.segments, ValidSegment s) ∧ ClockSegmentMap.make m.segments = .ok m

/-- The bounds of the estimate that the observation gives, if it gives one. -/
def estimateBounds (observations : List ClockObservation) (verifiedOperations : Finset String)
    (o : ClockObservation) : Option (ℕ × ℕ) :=
  if o.evidenceKind = .nativeTrusted then
    approximateBounds o observations (verifiedBoundaries observations verifiedOperations)
  else none

/-- The observation gives an estimate for the sequence. -/
def Applies (observations : List ClockObservation) (verifiedOperations : Finset String)
    (sequence : ℕ) (o : ClockObservation) : Prop :=
  ∃ start stop, estimateBounds observations verifiedOperations o = some (start, stop) ∧
    start ≤ sequence ∧ sequence < stop

section Bounds

/-- The start of an estimate: the largest of the role's start and the boundaries of smaller
order. -/
def Raised (boundaries : List (ℕ × ℕ)) (order start raised : ℕ) : Prop :=
  IsGreatest {b | b = start ∨ ∃ boundaryOrder < order, (boundaryOrder, b) ∈ boundaries} raised

theorem raised_nil {order start : ℕ} : Raised [] order start start := by
  refine ⟨.inl rfl, ?_⟩
  rintro b (rfl | ⟨_, _, hb⟩)
  · exact le_rfl
  · cases hb

theorem raised_skip {boundaries : List (ℕ × ℕ)} {order start raised boundaryOrder boundary : ℕ}
    (h : ¬ (boundaryOrder < order ∧ start < boundary)) (hr : Raised boundaries order start raised) :
    Raised ((boundaryOrder, boundary) :: boundaries) order start raised := by
  obtain ⟨hmem, hmax⟩ := hr
  constructor
  · rcases hmem with rfl | ⟨x, hx, hb⟩
    · exact .inl rfl
    · exact .inr ⟨x, hx, List.mem_cons_of_mem _ hb⟩
  · rintro b (rfl | ⟨x, hx, hb⟩)
    · exact hmax (.inl rfl)
    · rcases List.mem_cons.mp hb with heq | hb
      · obtain ⟨rfl, rfl⟩ := Prod.mk.inj heq
        have hle : b ≤ start := not_lt.mp fun hlt => h ⟨hx, hlt⟩
        exact hle.trans (hmax (.inl rfl))
      · exact hmax (.inr ⟨x, hx, hb⟩)

theorem raised_step {boundaries : List (ℕ × ℕ)} {order start raised boundaryOrder boundary : ℕ}
    (horder : boundaryOrder < order) (hlt : start < boundary)
    (hr : Raised boundaries order boundary raised) :
    Raised ((boundaryOrder, boundary) :: boundaries) order start raised := by
  obtain ⟨hmem, hmax⟩ := hr
  constructor
  · rcases hmem with rfl | ⟨x, hx, hb⟩
    · exact .inr ⟨boundaryOrder, horder, List.mem_cons_self⟩
    · exact .inr ⟨x, hx, List.mem_cons_of_mem _ hb⟩
  · rintro b (rfl | ⟨x, hx, hb⟩)
    · exact hlt.le.trans (hmax (.inl rfl))
    · rcases List.mem_cons.mp hb with heq | hb
      · obtain ⟨rfl, rfl⟩ := Prod.mk.inj heq
        exact hmax (.inl rfl)
      · exact hmax (.inr ⟨x, hx, hb⟩)

/-- The early exit refuses exactly when the raised start leaves nothing before the stop. -/
theorem raiseStart_spec {order stop : ℕ} (boundaries : List (ℕ × ℕ)) (start : ℕ) :
    ∃ raised, Raised boundaries order start raised ∧
      ((raiseStart order stop boundaries start = none ∧ stop ≤ raised) ∨
        raiseStart order stop boundaries start = some raised) := by
  induction boundaries generalizing start with
  | nil => exact ⟨start, raised_nil, .inr rfl⟩
  | cons b boundaries ih =>
    obtain ⟨boundaryOrder, boundary⟩ := b
    rw [raiseStart]
    by_cases h : boundaryOrder < order ∧ start < boundary
    · rw [if_pos h, max_eq_right h.2.le]
      obtain ⟨raised, hraised, hresult⟩ := ih boundary
      refine ⟨raised, raised_step h.1 h.2 hraised, ?_⟩
      by_cases hstop : stop ≤ boundary
      · rw [if_pos hstop]
        exact .inl ⟨rfl, hstop.trans (hraised.2 (.inl rfl))⟩
      · rw [if_neg hstop]
        exact hresult
    · rw [if_neg h]
      obtain ⟨raised, hraised, hresult⟩ := ih start
      exact ⟨raised, raised_skip h hraised, hresult⟩

/-- An estimate reaches from the raised start to the role's stop, if that is not empty. -/
theorem approximateBounds_iff {o : ClockObservation} {observations : List ClockObservation}
    {boundaries : List (ℕ × ℕ)} {start stop : ℕ} :
    approximateBounds o observations boundaries = some (start, stop) ↔
      Raised boundaries o.causalOrder (roleBounds o observations).1 start ∧
        stop = (roleBounds o observations).2 ∧ start < stop := by
  unfold approximateBounds
  generalize roleBounds o observations = bounds
  obtain ⟨first, last⟩ := bounds
  obtain ⟨raised, hraised, hresult⟩ :=
    @raiseStart_spec o.causalOrder last boundaries first
  have hunique : ∀ start, Raised boundaries o.causalOrder first start → start = raised :=
    fun start h => h.unique hraised
  rcases hresult with ⟨hnone, hstop⟩ | hsome
  · simp only [hnone, reduceCtorEq, false_iff]
    rintro ⟨hstart, rfl, hlt⟩
    rw [hunique start hstart] at hlt
    exact absurd hlt (not_lt.mpr hstop)
  · simp only [hsome]
    constructor
    · intro h
      split at h
      · obtain ⟨rfl, rfl⟩ := Prod.mk.inj (Option.some.inj h)
        exact ⟨hraised, rfl, ‹_›⟩
      · cases h
    · rintro ⟨hstart, rfl, hlt⟩
      obtain rfl := hunique start hstart
      rw [if_pos hlt]

theorem raised_perm {boundaries boundaries' : List (ℕ × ℕ)} (h : boundaries.Perm boundaries')
    {order start raised : ℕ} :
    Raised boundaries order start raised ↔ Raised boundaries' order start raised := by
  unfold Raised
  simp only [h.mem_iff]

theorem approximateBounds_perm {boundaries boundaries' : List (ℕ × ℕ)}
    (h : boundaries.Perm boundaries') (o : ClockObservation) (observations : List ClockObservation) :
    approximateBounds o observations boundaries = approximateBounds o observations boundaries' := by
  apply Option.ext
  rintro ⟨start, stop⟩
  rw [approximateBounds_iff, approximateBounds_iff, raised_perm h]

end Bounds

def cell (s : ClockSegment) : Cell SegmentFacts := ⟨s.span, facts s⟩

/-- The segment over another span. -/
def spanning (s : ClockSegment) (p : Span) : ClockSegment :=
  { s with startSequence := p.start, nextSequence := p.stop }

theorem factsAt_cells {segments : List ClockSegment} {x : ℕ} {f : SegmentFacts} :
    LayeredSpans.FactsAt (segments.map cell) x f ↔ FactsAt segments x f := by
  unfold LayeredSpans.FactsAt FactsAt
  simp only [List.mem_map, exists_exists_and_eq_and]
  rfl

theorem validSegment_iff {s : ClockSegment} : ValidSegment s ↔ s.observationId ≠ "" ∧
    s.startSequence < s.nextSequence ∧ 0 ≤ s.uncertaintySeconds ∧ s.confidence ≠ .unknown := by
  simp only [ValidSegment, ClockSegment.make, bind_ok, refuse_ok, pure_ok, exists_const, and_true,
    not_or, not_le, not_lt, ne_eq]

theorem ValidSegment.proper {s : ClockSegment} (h : ValidSegment s) :
    s.startSequence < s.nextSequence :=
  (validSegment_iff.mp h).2.1

theorem ValidSegment.spanning {s : ClockSegment} (h : ValidSegment s) {p : Span} (hp : p.start < p.stop) :
    ValidSegment (spanning s p) := by
  obtain ⟨hid, -, huncertainty, hconfidence⟩ := validSegment_iff.mp h
  exact validSegment_iff.mpr ⟨hid, hp, huncertainty, hconfidence⟩

theorem sliceNonempty_spanning {s : ClockSegment} (h : ValidSegment s) (start stop : ℕ) :
    sliceNonempty s start stop =
      .ok ((if start < stop then [(⟨start, stop⟩ : Span)] else []).map (spanning s)) := by
  unfold sliceNonempty
  by_cases hlt : start < stop
  · have hslice : s.slice start stop = .ok (spanning s ⟨start, stop⟩) :=
      @ValidSegment.spanning s h ⟨start, stop⟩ hlt
    rw [if_pos hlt, if_pos hlt, bind_ok]
    exact ⟨_, hslice, rfl⟩
  · rw [if_neg hlt, if_neg hlt]
    rfl

theorem overlayItem_ok {incoming item : ClockSegment} (h : ValidSegment item) :
    overlayItem incoming item = .ok ((item.span.cut incoming.span).map (spanning item)) := by
  have hcut : item.nextSequence ≤ incoming.startSequence ∨
      incoming.nextSequence ≤ item.startSequence ↔
      incoming.span.stop ≤ item.span.start ∨ item.span.stop ≤ incoming.span.start := Or.comm
  unfold overlayItem Span.cut
  by_cases hout : incoming.span.stop ≤ item.span.start ∨ item.span.stop ≤ incoming.span.start
  · rw [if_pos (hcut.mpr hout), if_pos hout]
    rfl
  · rw [if_neg (mt hcut.mp hout), if_neg hout, List.map_append]
    simp only [bind_ok, pure_ok]
    exact ⟨_, sliceNonempty_spanning h _ _, _, sliceNonempty_spanning h _ _, rfl⟩

/-- The segments around the incoming one, and it. -/
def overlaid (segments : List ClockSegment) (incoming : ClockSegment) : List ClockSegment :=
  segments.flatMap (fun s => (s.span.cut incoming.span).map (spanning s)) ++ [incoming]

theorem overlay_ok {segments : List ClockSegment} (incoming : ClockSegment)
    (h : ∀ s ∈ segments, ValidSegment s) :
    overlay segments incoming = .ok (overlaid segments incoming) := by
  have hmap : segments.mapM (overlayItem incoming) =
      .ok (segments.map fun s => (s.span.cut incoming.span).map (spanning s)) := by
    rw [mapM_eq_ok, List.forall₂_map_right_iff, List.forall₂_same]
    exact fun s hs => overlayItem_ok (h s hs)
  simp only [overlay, bind_ok, pure_ok]
  refine ⟨_, hmap, ?_⟩
  rw [overlaid, List.flatMap_def]

theorem valid_overlaid {segments : List ClockSegment} {incoming : ClockSegment}
    (h : ∀ s ∈ segments, ValidSegment s) (hincoming : ValidSegment incoming) :
    ∀ s ∈ overlaid segments incoming, ValidSegment s := by
  intro s hs
  rcases List.mem_append.mp hs with hs | hs
  · obtain ⟨item, hitem, hpiece⟩ := List.mem_flatMap.mp hs
    obtain ⟨p, hp, rfl⟩ := List.mem_map.mp hpiece
    exact (h item hitem).spanning (Span.proper_of_mem_cut (h item hitem).proper hp)
  · rw [List.mem_singleton.mp hs]
    exact hincoming

/-- Overlaying segments overlays their cells. -/
theorem overlaid_cells (segments : List ClockSegment) (incoming : ClockSegment) :
    (overlaid segments incoming).map cell =
      LayeredSpans.overlay (segments.map cell) (cell incoming) := by
  unfold overlaid LayeredSpans.overlay
  rw [List.map_append, List.map_flatMap, List.flatMap_map]
  congr 1
  apply List.flatMap_congr
  intro s _
  rw [List.map_map]
  rfl

/-- Laying valid segments over valid segments succeeds, and lays their cells. -/
theorem foldlM_overlay {layers base : List ClockSegment} (hlayers : ∀ s ∈ layers, ValidSegment s)
    (hbase : ∀ s ∈ base, ValidSegment s) :
    ∃ out, layers.foldlM overlay base = .ok out ∧ (∀ s ∈ out, ValidSegment s) ∧
      out.map cell = (layers.map cell).foldl LayeredSpans.overlay (base.map cell) := by
  induction layers generalizing base with
  | nil => exact ⟨base, rfl, hbase, rfl⟩
  | cons incoming layers ih =>
    obtain ⟨hincoming, hrest⟩ := List.forall_mem_cons.mp hlayers
    obtain ⟨out, hout, hvalid, hcells⟩ := ih hrest (valid_overlaid hbase hincoming)
    refine ⟨out, ?_, hvalid, ?_⟩
    · rw [List.foldlM_cons, overlay_ok incoming hbase]
      exact hout
    · rw [hcells, overlaid_cells]
      rfl

theorem proper_cells {segments : List ClockSegment} (h : ∀ s ∈ segments, ValidSegment s) :
    LayeredSpans.Proper (segments.map cell) := by
  simpa [LayeredSpans.Proper, cell, ClockSegment.span] using fun s hs => (h s hs).proper

instance : Std.Total byStart := ⟨fun _ _ => Nat.le_total _ _⟩

instance : IsTrans ClockSegment byStart := ⟨fun _ _ _ => Nat.le_trans⟩

/-- Valid segments that keep apart can be sorted into a map. -/
theorem make_sorted {segments : List ClockSegment} (hvalid : ∀ s ∈ segments, ValidSegment s)
    (hapart : (segments.map cell).Pairwise LayeredSpans.Apart) :
    ClockSegmentMap.make (segments.insertionSort byStart) =
      .ok ⟨segments.insertionSort byStart⟩ := by
  have hperm : (segments.insertionSort byStart).Perm segments := List.perm_insertionSort _ _
  have hsorted : ∀ s ∈ segments.insertionSort byStart, ValidSegment s :=
    fun s hs => hvalid s (hperm.mem_iff.mp hs)
  have hseq : Sequential (((segments.insertionSort byStart).map cell).map Cell.span) := by
    apply LayeredSpans.sequential_of_sorted
    · exact proper_cells hsorted
    · exact ((hperm.map cell).pairwise_iff fun h => h.symm).mpr hapart
    · exact List.pairwise_map.mpr (List.pairwise_insertionSort byStart segments)
  rw [List.map_map] at hseq
  apply make_ok hseq
  simpa [ClockSegment.span] using fun s hs => (hvalid s hs).proper

theorem validMap_sequential {m : ClockSegmentMap} (h : ValidMap m) :
    Sequential (m.segments.map ClockSegment.span) := by
  obtain ⟨hvalid, hmake⟩ := h
  simp only [ClockSegmentMap.make, bind_ok, refuse_ok, not_or, not_not] at hmake
  obtain ⟨-, ⟨hsorted, hdisjoint⟩, -⟩ := hmake
  rw [hsorted] at hdisjoint
  apply sequential_of_isChain
  · simpa [ClockSegment.span] using fun s hs => (hvalid s hs).proper
  · exact List.isChain_map _ |>.mpr hdisjoint

theorem validMap_apart {m : ClockSegmentMap} (h : ValidMap m) :
    (m.segments.map cell).Pairwise LayeredSpans.Apart := by
  have hseq := validMap_sequential h
  rw [SpanCover.Sequential, List.pairwise_map] at hseq
  exact List.pairwise_map.mpr (hseq.imp .inl)

def estimateSegment (o : ClockObservation) (bounds : ℕ × ℕ) : ClockSegment :=
  ⟨o.observationId, bounds.1, bounds.2,
    (o.hostRealtimeStart + o.hostRealtimeEnd) / 2 - o.deviceEpoch,
    (o.hostRealtimeEnd - o.hostRealtimeStart) / 2 + rtcQuantizationUncertaintySeconds, .approximate⟩

section Estimates

variable {observations : List ClockObservation} {verifiedOperations : Finset String}

def estimateOf (observations : List ClockObservation) (verifiedOperations : Finset String)
    (o : ClockObservation) : Option (ℕ × ClockSegment) :=
  (estimateBounds observations verifiedOperations o).map fun bounds =>
    (o.causalOrder, estimateSegment o bounds)

theorem estimateBounds_proper {o : ClockObservation} {start stop : ℕ}
    (h : estimateBounds observations verifiedOperations o = some (start, stop)) : start < stop := by
  unfold estimateBounds at h
  split at h
  · exact (approximateBounds_iff.mp h).2.2
  · cases h

theorem validObservation {o : ClockObservation} (h : validateObservation o = .ok ()) :
    o.observationId ≠ "" ∧ o.hostRealtimeStart ≤ o.hostRealtimeEnd := by
  simp only [validateObservation, bind_ok] at h
  obtain ⟨_, hidentity, _, hintervals, -⟩ := h
  simp only [validateIdentity, bind_ok, refuse_ok, not_exists, not_and, not_or] at hidentity
  simp only [validateIntervals, refuse_ok, not_or, not_lt] at hintervals
  obtain ⟨-, -, hnames⟩ := hidentity
  exact ⟨(hnames o.observationId (by simp)).1, hintervals.1⟩

theorem valid_estimateSegment {o : ClockObservation} (h : validateObservation o = .ok ())
    {bounds : ℕ × ℕ} (hbounds : bounds.1 < bounds.2) : ValidSegment (estimateSegment o bounds) := by
  obtain ⟨hid, htimes⟩ := validObservation h
  refine validSegment_iff.mpr ⟨hid, hbounds, ?_, by simp [estimateSegment]⟩
  have hhalf : 0 ≤ (o.hostRealtimeEnd - o.hostRealtimeStart) / 2 := by linarith
  exact add_nonneg hhalf (by decide)

theorem approximateSegment_ok {o : ClockObservation} (h : validateObservation o = .ok ()) :
    approximateSegment observations (verifiedBoundaries observations verifiedOperations) o =
      .ok (estimateOf observations verifiedOperations o) := by
  unfold approximateSegment estimateOf
  by_cases hkind : o.evidenceKind = .nativeTrusted
  · have hsame : estimateBounds observations verifiedOperations o =
        approximateBounds o observations (verifiedBoundaries observations verifiedOperations) :=
      if_pos hkind
    rw [if_neg (not_not.mpr hkind), hsame]
    cases hbounds : approximateBounds o observations
        (verifiedBoundaries observations verifiedOperations) with
    | none => rfl
    | some bounds =>
      have hproper : bounds.1 < bounds.2 := estimateBounds_proper (hsame.trans hbounds)
      have hfrom : fromApproximateObservation o bounds.1 bounds.2 = .ok (estimateSegment o bounds) := by
        simp only [fromApproximateObservation, bind_ok, refuse_ok]
        exact ⟨(), not_not.mpr hkind, valid_estimateSegment h hproper⟩
      simp only [hfrom]
      rfl
  · rw [if_pos hkind, estimateBounds, if_neg hkind]
    rfl

theorem approximateSegments_ok (h : ∀ o ∈ observations, validateObservation o = .ok ()) :
    approximateSegments observations (verifiedBoundaries observations verifiedOperations) =
      .ok (observations.filterMap (estimateOf observations verifiedOperations)) := by
  have hmap : observations.mapM (approximateSegment observations
      (verifiedBoundaries observations verifiedOperations)) =
      .ok (observations.map (estimateOf observations verifiedOperations)) := by
    rw [mapM_eq_ok, List.forall₂_map_right_iff, List.forall₂_same]
    exact fun o ho => approximateSegment_ok (h o ho)
  simp only [approximateSegments, bind_ok, pure_ok]
  refine ⟨_, hmap, ?_⟩
  rw [List.filterMap_map]
  rfl

theorem valid_estimates (h : ∀ o ∈ observations, validateObservation o = .ok ()) :
    ∀ e ∈ observations.filterMap (estimateOf observations verifiedOperations),
      ValidSegment e.2 := by
  intro e he
  obtain ⟨o, ho, hestimate⟩ := List.mem_filterMap.mp he
  obtain ⟨bounds, hbounds, rfl⟩ := Option.map_eq_some_iff.mp hestimate
  exact valid_estimateSegment (h o ho) (estimateBounds_proper hbounds)

/-- The latest estimate over a sequence comes from the latest observation that applies there. -/
theorem latest_estimate {x : ℕ} {f : SegmentFacts} :
    (∃ e, Latest Prod.fst (fun e => (cell e.2).span.Contains x)
        (observations.filterMap (estimateOf observations verifiedOperations)) e ∧
      facts e.2 = f) ↔
    ∃ o, Latest ClockObservation.causalOrder (Applies observations verifiedOperations x)
      observations o ∧ estimateFacts o = f := by
  have horder : ∀ o e, estimateOf observations verifiedOperations o = some e →
      e.1 = o.causalOrder := by
    intro o e h
    obtain ⟨bounds, -, rfl⟩ := Option.map_eq_some_iff.mp h
    rfl
  have happlies : (fun o => ∃ e, estimateOf observations verifiedOperations o = some e ∧
      (cell e.2).span.Contains x) = Applies observations verifiedOperations x := by
    funext o
    apply propext
    constructor
    · rintro ⟨e, he, hx⟩
      obtain ⟨⟨start, stop⟩, hbounds, rfl⟩ := Option.map_eq_some_iff.mp he
      exact ⟨start, stop, hbounds, hx⟩
    · rintro ⟨start, stop, hbounds, hx⟩
      exact ⟨_, Option.map_eq_some_iff.mpr ⟨_, hbounds, rfl⟩, hx⟩
  simp only [LayeredSpans.latest_filterMap horder, happlies]
  constructor
  · rintro ⟨e, ⟨o, ho, he⟩, rfl⟩
    obtain ⟨bounds, -, rfl⟩ := Option.map_eq_some_iff.mp he
    exact ⟨o, ho, rfl⟩
  · rintro ⟨o, ho, rfl⟩
    obtain ⟨start, stop, hbounds, -⟩ := ho.holds.2
    refine ⟨(o.causalOrder, estimateSegment o (start, stop)), ⟨o, ho, ?_⟩, rfl⟩
    rw [estimateOf, hbounds]
    rfl

end Estimates

/-- Sorted estimates under the confirmed segments: what the layers say at a sequence. -/
theorem layered_facts {confirmed : ClockSegmentMap} (hconfirmed : ValidMap confirmed)
    (estimates : List (ℕ × ClockSegment)) {x : ℕ} {f : SegmentFacts} :
    LayeredSpans.FactsAt ((confirmed.segments.map cell).foldl LayeredSpans.overlay
      ((((estimates.insertionSort (byOrder Prod.fst)).map Prod.snd).map cell).foldl
        LayeredSpans.overlay [])) x f ↔
      FactsAt confirmed.segments x f ∨
        ((∀ s ∈ confirmed.segments, ¬ s.span.Contains x) ∧
          ∃ e, Latest Prod.fst (fun e => (cell e.2).span.Contains x) estimates e ∧
            facts e.2 = f) := by
  rw [LayeredSpans.factsAt_foldl_overlay, LayeredSpans.last_of_apart (validMap_apart hconfirmed),
    factsAt_cells, LayeredSpans.factsAt_foldl_overlay, List.map_map, List.forall_mem_map]
  apply or_congr Iff.rfl
  apply and_congr Iff.rfl
  have hnone : ¬ LayeredSpans.FactsAt ([] : List (Cell SegmentFacts)) x f := by
    simp [LayeredSpans.FactsAt]
  simp only [hnone, and_false, or_false, LayeredSpans.last_map, LayeredSpans.last_insertionSort]
  constructor
  · rintro ⟨c, ⟨e, he, rfl⟩, hf⟩
    exact ⟨e, he, hf⟩
  · rintro ⟨e, he, hf⟩
    exact ⟨_, ⟨e, he, rfl⟩, hf⟩

/-- The result of the layers is a valid map, and says what they say. -/
theorem segmentsWithEstimates_ok {observations : List ClockObservation}
    {confirmed : ClockSegmentMap} (verifiedOperations : Finset String)
    (hvalid : ∀ o ∈ observations, validateObservation o = .ok ()) (hconfirmed : ValidMap confirmed) :
    ∃ m, segmentsWithEstimates observations confirmed verifiedOperations = .ok m ∧ ValidMap m ∧
      ∀ x f, FactsAt m.segments x f ↔ FactsAt confirmed.segments x f ∨
        ((∀ s ∈ confirmed.segments, ¬ s.span.Contains x) ∧
          ∃ o, Latest ClockObservation.causalOrder (Applies observations verifiedOperations x)
            observations o ∧ estimateFacts o = f) := by
  have hestimates := @approximateSegments_ok observations verifiedOperations hvalid
  have hsegments := @valid_estimates observations verifiedOperations hvalid
  simp only [← latest_estimate]
  unfold segmentsWithEstimates
  simp only [bind_ok]
  revert hestimates hsegments
  generalize observations.filterMap (estimateOf observations verifiedOperations) = estimates
  intro hestimates hsegments
  by_cases hnil : estimates = []
  · refine ⟨confirmed, ⟨estimates, hestimates, if_pos hnil⟩, hconfirmed, fun x f => ?_⟩
    simp only [hnil, LayeredSpans.latest_nil, false_and, exists_false, and_false, or_false]
  · have hsorted : ∀ s ∈ (estimates.insertionSort (byOrder Prod.fst)).map Prod.snd,
        ValidSegment s := by
      simpa only [List.forall_mem_map, List.mem_insertionSort] using hsegments
    obtain ⟨under, hunder, hunderValid, hunderCells⟩ := @foldlM_overlay _ [] hsorted (by simp)
    obtain ⟨out, hout, houtValid, houtCells⟩ := foldlM_overlay hconfirmed.1 hunderValid
    have hapart : (out.map cell).Pairwise LayeredSpans.Apart := by
      rw [houtCells, hunderCells]
      apply LayeredSpans.apart_foldl_overlay _ (proper_cells hconfirmed.1)
      exact LayeredSpans.apart_foldl_overlay List.Pairwise.nil (proper_cells hsorted)
    have hmake := make_sorted houtValid hapart
    refine ⟨⟨out.insertionSort byStart⟩, ⟨estimates, hestimates, ?_⟩, ⟨?_, hmake⟩, fun x f => ?_⟩
    · rw [if_neg hnil]
      simp only [bind_ok]
      exact ⟨under, hunder, out, hout, hmake⟩
    · simpa only [List.mem_insertionSort] using houtValid
    · rw [List.map_nil] at hunderCells
      rw [← layered_facts hconfirmed, ← hunderCells, ← houtCells, factsAt_cells]
      simp only [FactsAt, List.mem_insertionSort]

theorem estimateBounds_iff {observations : List ClockObservation}
    {verifiedOperations : Finset String} {boundaries : List (ℕ × ℕ)}
    (h : boundaries.Perm (verifiedBoundaries observations verifiedOperations))
    {o : ClockObservation} {start stop : ℕ} :
    estimateBounds observations verifiedOperations o = some (start, stop) ↔
      o.evidenceKind = .nativeTrusted ∧
        Raised boundaries o.causalOrder (roleBounds o observations).1 start ∧
        stop = (roleBounds o observations).2 ∧ start < stop := by
  unfold estimateBounds
  by_cases hkind : o.evidenceKind = .nativeTrusted
  · rw [if_pos hkind, approximateBounds_iff, raised_perm h]
    exact (and_iff_right hkind).symm
  · rw [if_neg hkind]
    simp [hkind]

/-- Estimates never fail on valid input, and their segments are in sequence. At every sequence the
confirmed segment decides, or else the native reading of greatest order whose bounds contain it.
Its bounds are those of its role with the start raised to the largest verified boundary of smaller
order, however the boundaries are listed. -/
theorem segmentsWithEstimates_pointwise (observations : List ClockObservation)
    (confirmed : ClockSegmentMap) (verifiedOperations : Finset String)
    (hvalid : ∀ o ∈ observations, validateObservation o = .ok ()) (hconfirmed : ValidMap confirmed) :
    (∃ m, segmentsWithEstimates observations confirmed verifiedOperations = .ok m ∧ ValidMap m ∧
      Sequential (m.segments.map ClockSegment.span) ∧
      (∀ x f, FactsAt m.segments x f ↔ FactsAt confirmed.segments x f ∨
        ((∀ s ∈ confirmed.segments, ¬ s.span.Contains x) ∧
          ∃ o, Latest ClockObservation.causalOrder (Applies observations verifiedOperations x)
            observations o ∧ estimateFacts o = f)) ∧
      ∀ x, (∃ s ∈ m.segments, s.span.Contains x) ↔
        (∃ s ∈ confirmed.segments, s.span.Contains x) ∨
          ∃ o ∈ observations, Applies observations verifiedOperations x o) ∧
    ∀ o, ∀ boundaries, boundaries.Perm (verifiedBoundaries observations verifiedOperations) →
      approximateBounds o observations boundaries =
        approximateBounds o observations (verifiedBoundaries observations verifiedOperations) ∧
      ∀ start stop, estimateBounds observations verifiedOperations o = some (start, stop) ↔
        o.evidenceKind = .nativeTrusted ∧
          Raised boundaries o.causalOrder (roleBounds o observations).1 start ∧
          stop = (roleBounds o observations).2 ∧ start < stop := by
  obtain ⟨m, hm, hmap, hfacts⟩ := segmentsWithEstimates_ok verifiedOperations hvalid hconfirmed
  refine ⟨⟨m, hm, hmap, validMap_sequential hmap, hfacts, fun x => ?_⟩, ?_⟩
  · have hcovers : ∀ segments : List ClockSegment,
        (∃ s ∈ segments, s.span.Contains x) ↔ ∃ f, FactsAt segments x f := by
      intro segments
      constructor
      · rintro ⟨s, hs, hx⟩
        exact ⟨facts s, s, hs, hx, rfl⟩
      · rintro ⟨f, s, hs, hx, -⟩
        exact ⟨s, hs, hx⟩
    rw [hcovers, hcovers]
    simp only [hfacts]
    constructor
    · rintro ⟨f, hf | ⟨-, o, ho, -⟩⟩
      · exact .inl ⟨f, hf⟩
      · exact .inr ⟨o, ho.holds⟩
    · intro h
      by_cases hconf : ∃ f, FactsAt confirmed.segments x f
      · obtain ⟨f, hf⟩ := hconf
        exact ⟨f, .inl hf⟩
      · obtain ⟨o, ho⟩ := LayeredSpans.exists_latest (h.resolve_left hconf)
        rw [← hcovers] at hconf
        push Not at hconf
        exact ⟨_, .inr ⟨hconf, o, ho, rfl⟩⟩
  · intro o boundaries hperm
    exact ⟨approximateBounds_perm hperm o observations, fun _ _ => estimateBounds_iff hperm⟩

/-- A reading before and one after a clock write, and one of a later visit. -/
def initialReading : ClockObservation where
  version := 1
  observationId := "observation"
  causalOrder := 0
  evidenceKind := .nativeTrusted
  sessionId := "session"
  hostBootId := "boot"
  hostRealtimeStart := 1000
  hostRealtimeEnd := 1000
  hostMonotonicStart := 1
  hostMonotonicEnd := 1
  deviceEpoch := 1600
  infoSequenceMin := 10
  infoSequenceMax := 20
  operationId := some "operation"
  observationRole := .initial

def readback : ClockObservation := { initialReading with
  observationId := "readback"
  causalOrder := 1
  infoSequenceMin := 20
  observationRole := .later
  parentObservationId := some "observation"
  effectiveBoundarySequence := some 20 }

def nextVisit : ClockObservation := { initialReading with
  observationId := "next-visit"
  causalOrder := 2
  infoSequenceMax := 30
  operationId := none
  observationRole := .standalone }

/-- A second reading of the later visit, of the same order. -/
def repeatedVisit : ClockObservation := { nextVisit with
  observationId := "repeated-visit"
  infoSequenceMin := 24
  infoSequenceMax := 28 }

def visits : List ClockObservation := [initialReading, readback, nextVisit, repeatedVisit]

def confirmedMap : ClockSegmentMap := ⟨[⟨"observation", 5, 12, 0, 1, .confirmed⟩]⟩

/-- The confirmed segment decides, then a single estimate, then the later of two equal ones. -/
theorem segmentsWithEstimates_pointwise_visits :
    ∃ m, segmentsWithEstimates visits confirmedMap {"operation"} = .ok m ∧ ValidMap m ∧
      FactsAt m.segments 11 ⟨"observation", 0, 1, .confirmed⟩ ∧
      FactsAt m.segments 15 ⟨"observation", -600, 1, .approximate⟩ ∧
      FactsAt m.segments 25 ⟨"repeated-visit", -600, 1, .approximate⟩ := by
  have hvalid : ∀ o ∈ visits, validateObservation o = .ok () := by decide +kernel
  have hconfirmed : ValidMap confirmedMap := by
    unfold ValidMap ValidSegment
    decide +kernel
  obtain ⟨⟨m, hm, hmap, -, hfacts, -⟩, -⟩ :=
    segmentsWithEstimates_pointwise visits confirmedMap {"operation"} hvalid hconfirmed
  have hinitial : estimateBounds visits {"operation"} initialReading = some (10, 20) := by
    decide +kernel
  have hreadback : estimateBounds visits {"operation"} readback = none := by decide +kernel
  have hnext : estimateBounds visits {"operation"} nextVisit = some (20, 30) := by decide +kernel
  have hrepeated : estimateBounds visits {"operation"} repeatedVisit = some (24, 28) := by
    decide +kernel
  refine ⟨m, hm, hmap, (hfacts 11 _).mpr (.inl ⟨_, List.mem_singleton.mpr rfl, by decide, rfl⟩),
    (hfacts 15 _).mpr (.inr ⟨by decide, initialReading, ?_, by decide +kernel⟩),
    (hfacts 25 _).mpr (.inr ⟨by decide, repeatedVisit, ?_, by decide +kernel⟩)⟩
  · refine ⟨[], [readback, nextVisit, repeatedVisit], rfl, ⟨10, 20, hinitial, by decide⟩, by simp, ?_⟩
    simp [Applies, hreadback, hnext, hrepeated]
  · refine ⟨[initialReading, readback, nextVisit], [], rfl, ⟨24, 28, hrepeated, by decide⟩, ?_,
      by simp⟩
    simp [Applies, hinitial, hreadback, nextVisit, repeatedVisit]

end ClockEstimates
