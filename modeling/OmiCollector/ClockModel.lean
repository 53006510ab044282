import Mathlib.Algebra.Order.Group.Unbundled.Abs
import Mathlib.Algebra.Order.Ring.Rat
import Mathlib.Data.List.Dedup
import OmiCollector.SpanCover

/-! The durable clock snapshot of `clock_state`: sequence ranges with a known or unknown
offset, one outstanding SET_TIME intent, the last trusted anchor and the intervals that a
clock write left causally uncertain.

Finite numbers are rationals. What a Python constructor checks and later code relies on is a
field of the value; the other constructor checks are the conditions of `make`. -/
namespace ClockModel

open SpanCover

inductive Confidence where
  | confirmed
  | approximate
  | unknown
  deriving DecidableEq, Repr

/-- Timing evidence for the sequences `[startSequence, nextSequence)`. -/
structure ClockRange where
  startSequence : ℕ
  nextSequence : ℕ
  offsetSeconds : Option ℚ
  uncertaintySeconds : Option ℚ
  confidence : Confidence
  sourceId : String
  nonempty : startSequence < nextSequence
  deriving DecidableEq, Repr

inductive IntentPhase where
  | prepared
  | uncertain
  deriving DecidableEq, Repr

structure ClockIntent where
  operationId : String
  phase : IntentPhase
  observedEpoch : ℕ
  targetEpoch : ℕ
  hostMidpoint : ℚ
  writeSequenceBefore : ℕ
  writeSequenceAfter : Option ℕ
  bounded : ∀ a, writeSequenceAfter = some a → writeSequenceBefore ≤ a
  deriving DecidableEq, Repr

structure ClockAnchor where
  sequenceFrontier : ℕ
  offsetSeconds : ℚ
  uncertaintySeconds : ℚ
  confidence : Confidence
  sourceId : String
  deriving DecidableEq, Repr

/-- Ranges in order and without overlap. -/
def Ordered (ranges : List ClockRange) : Prop :=
  ranges.IsChain (fun left right => left.nextSequence ≤ right.startSequence)

instance (ranges : List ClockRange) : Decidable (Ordered ranges) :=
  inferInstanceAs (Decidable (List.IsChain _ ranges))

structure ClockState where
  ranges : List ClockRange
  intent : Option ClockIntent
  anchor : Option ClockAnchor
  causalUncertainty : List (ℕ × ℕ)
  ordered : Ordered ranges
  deriving DecidableEq, Repr

structure RingInfo where
  readSequence : ℕ
  writeSequence : ℕ
  deriving DecidableEq, Repr

def maxUint32 : ℕ := 2 ^ 32 - 1

def empty : ClockState := ⟨[], none, none, [], List.isChain_nil⟩

def ClockRange.make (startSequence nextSequence : ℕ) (offsetSeconds uncertaintySeconds : Option ℚ)
    (confidence : Confidence) (sourceId : String) : Except String ClockRange :=
  if h : startSequence < nextSequence ∧ sourceId ≠ "" ∧
      (uncertaintySeconds.all fun u => decide (0 ≤ u)) = true ∧
      (offsetSeconds = none ↔ confidence = .unknown) ∧
      (offsetSeconds = none ↔ uncertaintySeconds = none) then
    .ok ⟨startSequence, nextSequence, offsetSeconds, uncertaintySeconds, confidence, sourceId, h.1⟩
  else .error "clock range is invalid"

def ClockIntent.make (operationId : String) (phase : IntentPhase)
    (observedEpoch targetEpoch : ℕ) (hostMidpoint : ℚ) (writeSequenceBefore : ℕ)
    (writeSequenceAfter : Option ℕ) : Except String ClockIntent :=
  if h : operationId ≠ "" ∧ observedEpoch ≤ maxUint32 ∧ targetEpoch ≤ maxUint32 ∧
      ∀ a, writeSequenceAfter = some a → writeSequenceBefore ≤ a then
    .ok ⟨operationId, phase, observedEpoch, targetEpoch, hostMidpoint, writeSequenceBefore,
      writeSequenceAfter, h.2.2.2⟩
  else .error "clock intent is invalid"

def ClockAnchor.make (sequenceFrontier : ℕ) (offsetSeconds uncertaintySeconds : ℚ)
    (confidence : Confidence) (sourceId : String) : Except String ClockAnchor :=
  if 0 ≤ uncertaintySeconds ∧ confidence ≠ .unknown ∧ sourceId ≠ "" then
    .ok ⟨sequenceFrontier, offsetSeconds, uncertaintySeconds, confidence, sourceId⟩
  else .error "clock anchor is invalid"

/-- Rebuild a state over new ranges, or fail the order check. -/
def ClockState.withRanges (s : ClockState) (ranges : List ClockRange) :
    Except String ClockState :=
  if h : Ordered ranges then .ok { s with ranges := ranges, ordered := h }
  else .error "clock ranges overlap or are unordered"

def ClockRange.span (r : ClockRange) : Span := ⟨r.startSequence, r.nextSequence⟩

/-- The same evidence over another span, if that span is not empty. -/
def ClockRange.over (r : ClockRange) (s : Span) : Option ClockRange :=
  if h : s.start < s.stop then
    some { r with startSequence := s.start, nextSequence := s.stop, nonempty := h }
  else none

/-- Join a range to the last merged one when it continues it with the same evidence. -/
def mergeStep (merged : List ClockRange) (item : ClockRange) : List ClockRange :=
  match merged.getLast? with
  | none => [item]
  | some last =>
    if h : last.nextSequence = item.startSequence ∧ last.over item.span = some item then
      merged.dropLast ++ [{ last with
        nextSequence := item.nextSequence
        nonempty := last.nonempty.trans (h.1 ▸ item.nonempty) }]
    else merged ++ [item]

/-- Add evidence only to uncovered sequences, keeping prior audio timing fixed. -/
def ClockState.addRange (s : ClockState) (incoming : ClockRange) : Except String ClockState :=
  let uncovered := cutAll [incoming.span] (s.ranges.map ClockRange.span)
  let ranges := (s.ranges ++ uncovered.filterMap incoming.over).insertionSort
    (fun a b => a.startSequence ≤ b.startSequence)
  s.withRanges (ranges.foldl mergeStep [])

/-- The range part of `observe`: the sequences since the last anchor, or all of a first INFO. -/
def ClockState.observeRange (s : ClockState) (info : RingInfo) (offsetSeconds : ℚ)
    (sourceId : String) (toleranceSeconds : ℚ) : Except String ClockState :=
  match s.anchor with
  | none =>
    if info.readSequence < info.writeSequence then do
      let range ← ClockRange.make info.readSequence info.writeSequence none none .unknown sourceId
      s.addRange range
    else pure s
  | some anchor =>
    if info.writeSequence > anchor.sequenceFrontier then do
      let difference := |offsetSeconds - anchor.offsetSeconds|
      let continuous := decide (s.intent = none ∧ difference ≤ toleranceSeconds)
      let range ← ClockRange.make anchor.sequenceFrontier info.writeSequence
        (if continuous then some anchor.offsetSeconds else none)
        (if continuous then some (anchor.uncertaintySeconds + difference) else none)
        (if continuous then .approximate else .unknown) anchor.sourceId
      s.addRange range
    else pure s

/-- Whether an observation replaces the anchor: a first one, a new frontier or a new offset. -/
def anchorMoved (anchor : Option ClockAnchor) (info : RingInfo)
    (offsetSeconds toleranceSeconds : ℚ) : Bool :=
  match anchor with
  | none => true
  | some anchor => decide (info.writeSequence ≠ anchor.sequenceFrontier ∨
      |offsetSeconds - anchor.offsetSeconds| > toleranceSeconds)

/-- The next clock state from one trusted observation. -/
def ClockState.observe (s : ClockState) (info : RingInfo) (offsetSeconds uncertaintySeconds : ℚ)
    (sourceId : String) (toleranceSeconds : ℚ) : Except String ClockState := do
  let state ← s.observeRange info offsetSeconds sourceId toleranceSeconds
  let nextAnchor ← ClockAnchor.make info.writeSequence offsetSeconds uncertaintySeconds
    .approximate sourceId
  if s.anchor ≠ some nextAnchor ∧ anchorMoved s.anchor info offsetSeconds toleranceSeconds then
    pure { state with anchor := some nextAnchor }
  else pure state

def ClockState.beginIntent (s : ClockState) (intent : ClockIntent) : Except String ClockState :=
  if s.intent.isSome then .error "clock write is already pending"
  else .ok { s with intent := some intent }

def ClockState.withAnchor (s : ClockState) (anchor : ClockAnchor) : ClockState :=
  { s with anchor := some anchor }

def ClockState.markUncertain (s : ClockState) (operationId : String)
    (writeSequenceAfter : Option ℕ) : Except String ClockState :=
  match s.intent with
  | none => .error "clock intent transition is invalid"
  | some intent =>
    if intent.operationId ≠ operationId then .error "clock intent transition is invalid"
    else if intent.phase = .uncertain ∧ intent.writeSequenceAfter.isSome then
      if intent.writeSequenceAfter = writeSequenceAfter then .ok s
      else .error "clock intent transition is invalid"
    else do
      let marked ← ClockIntent.make intent.operationId .uncertain intent.observedEpoch
        intent.targetEpoch intent.hostMidpoint intent.writeSequenceBefore writeSequenceAfter
      pure { s with intent := some marked }

def ClockState.cancelPreparedIntent (s : ClockState) (operationId : String) :
    Except String ClockState :=
  match s.intent with
  | none => .error "clock intent transition is invalid"
  | some intent =>
    if intent.operationId ≠ operationId ∨ intent.phase ≠ .prepared then
      .error "clock intent transition is invalid"
    else .ok { s with intent := none }

/-- The cursor loop of `_require_unknown_coverage`. -/
def unknownCoverage (stop : ℕ) : List ClockRange → ℕ → Except String Unit
  | [], _ => .error "clock write boundary coverage is incomplete"
  | item :: rest, cursor =>
    if item.nextSequence ≤ cursor then unknownCoverage stop rest cursor
    else if item.startSequence > cursor then
      .error "clock write boundary coverage is incomplete"
    else if item.offsetSeconds.isSome then .error "clock write boundary must remain unknown"
    else if min stop item.nextSequence = stop then .ok ()
    else unknownCoverage stop rest (min stop item.nextSequence)

def requireUnknownCoverage (start stop : ℕ) (ranges : List ClockRange) : Except String Unit :=
  unknownCoverage stop (ranges.insertionSort (fun a b => a.startSequence ≤ b.startSequence)) start

/-- The sorted set of uncertain intervals with one more. -/
def insertInterval (i : ℕ × ℕ) (intervals : List (ℕ × ℕ)) : List (ℕ × ℕ) :=
  ((i :: intervals).dedup).insertionSort (fun a b => a.1 < b.1 ∨ (a.1 = b.1 ∧ a.2 ≤ b.2))

/-- The boundary check of `finish_intent`, made only for a boundary past the intent. -/
def checkBoundary (before boundary : ℕ) (ranges : List ClockRange) : Except String Unit :=
  if boundary > before then requireUnknownCoverage before boundary ranges else .ok ()

def ClockState.finishIntent (s : ClockState) (operationId : String) (ranges : List ClockRange) :
    Except String ClockState :=
  match s.intent with
  | none => .error "clock intent transition is invalid"
  | some intent =>
    if intent.operationId ≠ operationId ∨ intent.phase ≠ .uncertain then
      .error "clock intent transition is invalid"
    else match intent.writeSequenceAfter with
      | none => .error "clock write boundary is unresolved"
      | some boundary => do
        checkBoundary intent.writeSequenceBefore boundary ranges
        let completed ← ranges.foldlM ClockState.addRange s
        checkBoundary intent.writeSequenceBefore boundary completed.ranges
        pure { completed with
          intent := none
          causalUncertainty :=
            insertInterval (intent.writeSequenceBefore, boundary) completed.causalUncertainty }

end ClockModel
