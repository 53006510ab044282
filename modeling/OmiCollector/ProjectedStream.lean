import OmiCollector.CaptureModel
import OmiCollector.ClockProjections
import OmiCollector.RecordFraming
import OmiCollector.StoredFrontier

/-! The public projection of a record stream that is published in groups. Every record is projected
from the frontier of the record before it; a group starts at the frontier that the group before it
left in the store. -/
namespace ProjectedStream

open Checks PyValue PublicTimeline TimelineProjection StoredFrontier
open ByteCodec (Bytes)
open CaptureModel (CaptureRecord)
open ClockModel (ClockState)
open PublicTime (FrozenPublicTime FrozenTimePredecessor PublicTimeProjection Quality)
open TypedSlices (RecordAudioLayout)

/-- A physical record with its ring sequence. -/
abbrev Entry := ℕ × CaptureRecord

/-- What one record of the stream is projected to. -/
structure ProjectedRecord where
  sequence : ℕ
  layout : RecordAudioLayout
  projected : FrozenRecordProjection
  frontier : V2Frontier
  deriving DecidableEq

def inspected (raw : Bytes) : Outcome RecordAudioLayout :=
  match RecordFraming.inspectMono20msRecord raw with
  | .ok layout => .ok layout
  | .error (.valueError _) =>
    .error (.own (.readyBundleError "v2 source contains invalid mono 20 ms Opus"))
  | .error .indexError => .error (.own .indexError)

/-- A check of `public_time_facts`, whose errors nothing here catches. -/
def frozen {α : Type} (x : Except String α) : Outcome α := x.mapError .valueError

def FrozenTimePredecessor.make (f : V2Frontier) : Except String FrozenTimePredecessor :=
  if h : f.sequence ≤ PublicTime.uint64Max then .ok ⟨f.sequence, f.time, h⟩
  else .error "predecessor sequence must be an unsigned integer"

/-- The frontier, if the record comes right behind it. -/
def adjacentTo (previous : Option V2Frontier) (sequence : ℕ) : Option V2Frontier :=
  previous.filter fun p => decide (p.sequence + 1 = sequence)

/-- A gap before the record, or a first packet that does not complete the open one. -/
def gapFacts (previous : Option V2Frontier) (sequence : ℕ) (layout : RecordAudioLayout) :
    Finset BoundaryFact :=
  if previous.isSome ∧ (adjacentTo previous sequence).isNone then {.sourceLoss}
  else if ((adjacentTo previous sequence).bind (·.pendingOverflowSize)).any
      (fun size => decide (size ≠ layout.firstSize)) then {.timeIncomparable}
  else ∅

def boundaryFacts (previous : Option V2Frontier) (sequence : ℕ) (layout : RecordAudioLayout)
    (time : FrozenPublicTime) : Finset BoundaryFact :=
  if time.comparableToPrevious then gapFacts previous sequence layout
  else insert .timeIncomparable (gapFacts previous sequence layout)

/-- The body of the loop of `_v2_projected_records`. -/
def projectedRecord (hex : ℚ → String) (clock : PublicTimeProjection) (previous : Option V2Frontier)
    (entry : Entry) : Outcome ProjectedRecord := do
  let layout ← inspected entry.2.rawBytes
  let predecessor ← frozen ((adjacentTo previous entry.1).mapM FrozenTimePredecessor.make)
  let time ← frozen (PublicTime.freeze hex clock entry.1 entry.2.deviceTimestamp predecessor)
  pure
    { sequence := entry.1
      layout := layout
      projected := ⟨layout.packetCount, time, boundaryFacts previous entry.1 layout time⟩
      frontier := ⟨entry.1, time, layout.overflowSize⟩ }

/-- `_v2_projected_records`. -/
def v2ProjectedRecords (hex : ℚ → String) (clock : PublicTimeProjection) :
    Option V2Frontier → List Entry → Outcome (List ProjectedRecord)
  | _, [] => .ok []
  | previous, entry :: rest => do
    let first ← projectedRecord hex clock previous entry
    let later ← v2ProjectedRecords hex clock (some first.frontier) rest
    pure (first :: later)

/-- The accumulators of `_freeze_v2_public_projection`: the timeline so far, the last frontier, and
the projections that the digest covers. -/
structure Freezing where
  projecting : Projecting
  finalFrontier : Option V2Frontier
  digested : List FrozenRecordProjection

/-- One record goes through both loops, which are generators. -/
def freezeRecord (hex : ℚ → String) (clock : PublicTimeProjection) (s : Freezing) (entry : Entry) :
    Outcome Freezing := do
  let r ← projectedRecord hex clock s.finalFrontier entry
  let projecting ← frozen (PublicTimeline.projectRecord s.projecting r.projected)
  pure ⟨projecting, some r.frontier, s.digested ++ [r.projected]⟩

/-- `_freeze_v2_public_projection`; `digest` hashes the canonical texts of the projections. -/
def freezeV2PublicProjection {D : Type} (digest : List FrozenRecordProjection → D)
    (hex : ℚ → String) (state : ClockState) (initialFrontier : Option V2Frontier)
    (entries : List Entry) : Outcome (PublicProjection × V2Frontier × D) := do
  let s ← entries.foldlM (freezeRecord hex (PublicTime.fromState state))
    ⟨PublicTimeline.initial, initialFrontier, []⟩
  refuse (s.projecting.packet = 0) (.valueError "public projection must contain packets")
  match s.finalFrontier.filter fun _ => decide (s.digested ≠ []) with
  | none => .error (.own (.readyBundleError "v2 group has no physical records"))
  | some frontier =>
    pure (⟨s.projecting.packet, s.projecting.spans,
      (s.projecting.boundaryFacts.insertionSort byPosition).map fun e => ⟨e.1, sortedFacts e.2⟩⟩,
      frontier, digest s.digested)

/-- The groups of a stream are published in turn. Each reads the frontier from the store and leaves
its own there. -/
def publishGroups {D : Type} (digest : List FrozenRecordProjection → D) (hex : ℚ → String)
    (state : ClockState) : Option Fields → List (List Entry) →
      Outcome (List (PublicProjection × D) × Option Fields)
  | stored, [] => .ok ([], stored)
  | stored, group :: rest => do
    let initialFrontier ← stored.mapM v2FrontierFromPayload
    let (projection, frontier, sha256) ←
      freezeV2PublicProjection digest hex state initialFrontier group
    let (later, last) ← publishGroups digest hex state (some (v2FrontierPayload frontier)) rest
    pure ((projection, sha256) :: later, last)

end ProjectedStream
