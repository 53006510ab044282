import OmiCollector.Checks
import OmiCollector.PublicTime
import OmiCollector.Tiling
import Mathlib.Algebra.BigOperators.Group.List.Basic
import Mathlib.Data.Finset.Basic
import Mathlib.Data.Finset.Lattice.Basic
import Mathlib.Data.List.Sort

/-! The public packet timeline of frozen records and the manifest built from it. Records become
maximal spans of packets, boundary facts become entries at packet positions, and the manifest
checks both once more by itself. -/
namespace PublicTimeline

open Checks Tiling
open PublicTime (FrozenPublicTime Quality)

def uint32Max : ℤ := 2 ^ 32 - 1
def uint64Max : ℤ := 2 ^ 64 - 1

inductive BoundaryFact where
  | sourceLoss
  | timeIncomparable
  deriving DecidableEq, Repr

structure FrozenRecordProjection where
  packetCount : ℤ
  time : FrozenPublicTime
  boundaryBefore : Finset BoundaryFact
  deriving DecidableEq

structure TimelineSpan where
  packetStart : ℤ
  packetNext : ℤ
  quality : Quality
  seconds : ℤ
  utcUncertaintySeconds : Option ℚ
  deriving DecidableEq, Repr

structure PublicBoundary where
  atPacket : ℤ
  facts : List BoundaryFact
  deriving DecidableEq, Repr

structure PublicProjection where
  packetCount : ℤ
  timeline : List TimelineSpan
  boundaries : List PublicBoundary
  deriving DecidableEq, Repr

def TimelineSpan.range (s : TimelineSpan) : ℤ × ℤ := (s.packetStart, s.packetNext)

/-- The public label of a span. -/
def TimelineSpan.label (s : TimelineSpan) : Quality × ℤ × Option ℚ :=
  (s.quality, s.seconds, s.utcUncertaintySeconds)

/-- The public label of a record. -/
def timeLabel (t : FrozenPublicTime) : Quality × ℤ × Option ℚ :=
  (t.quality, t.seconds, t.utcUncertaintySeconds)

def requireUint (value maximum : ℤ) (name : String) (positive : Bool) : Except String Unit :=
  refuse (value < (if positive then 1 else 0) ∨ maximum < value)
    (name ++ " must be a " ++ (if positive then "positive " else "") ++ "unsigned integer")

/-- Unknown labels have no UTC uncertainty, and the others a nonnegative one. -/
def requireUncertainty (quality : Quality) (uncertainty : Option ℚ) (ofUnknown ofKnown : String) :
    Except String Unit :=
  if quality = .unknown then refuse (uncertainty ≠ none) ofUnknown
  else refuse (∀ u ∈ uncertainty, u < 0) ofKnown

def validatedRecordProjection (r : FrozenRecordProjection) :
    Except String (FrozenPublicTime × Finset BoundaryFact) := do
  requireUint r.packetCount uint64Max "record packet_count" false
  requireUint r.time.seconds uint32Max "record seconds" false
  refuse (r.time.causalMembership = "") "causal_membership must be nonempty"
  requireUncertainty r.time.quality r.time.utcUncertaintySeconds
    "unknown public times cannot have UTC uncertainty"
    "public time uncertainty must be finite and nonnegative"
  pure (r.time, if r.time.comparableToPrevious then r.boundaryBefore
    else insert .timeIncomparable r.boundaryBefore)

/-- The accumulators of the projection loop. The five-part key of a record is its frozen time. -/
structure Projecting where
  spans : List TimelineSpan
  boundaryFacts : List (ℤ × Finset BoundaryFact)
  packet : ℤ
  previousKey : Option FrozenPublicTime
  pendingBoundary : Bool

/-- `boundary_facts.setdefault(packet, set()).update(facts)`. -/
def addFacts (packet : ℤ) (facts : Finset BoundaryFact) :
    List (ℤ × Finset BoundaryFact) → List (ℤ × Finset BoundaryFact)
  | [] => [(packet, facts)]
  | (p, known) :: entries =>
    if p = packet then (p, known ∪ facts) :: entries else (p, known) :: addFacts packet facts entries

/-- Prolong the last span to `next`. -/
def prolongLast (spans : List TimelineSpan) (next : ℤ) : List TimelineSpan :=
  match spans.getLast? with
  | none => spans
  | some prior => spans.dropLast ++ [{ prior with packetNext := next }]

def markBoundary (s : Projecting) (facts : Finset BoundaryFact) : Projecting :=
  if facts = ∅ then s
  else { s with boundaryFacts := addFacts s.packet facts s.boundaryFacts, pendingBoundary := true }

/-- Count the packets of a record in, as part of the last span or as a new one. -/
def addPackets (s : Projecting) (time : FrozenPublicTime) (packetCount : ℤ) : Projecting :=
  let next := s.packet + packetCount
  { s with
    spans :=
      if s.spans ≠ [] ∧ s.previousKey = some time ∧ s.pendingBoundary = false then
        prolongLast s.spans next
      else s.spans ++ [⟨s.packet, next, time.quality, time.seconds, time.utcUncertaintySeconds⟩]
    packet := next
    previousKey := some time
    pendingBoundary := false }

def projectRecord (s : Projecting) (r : FrozenRecordProjection) : Except String Projecting := do
  let (time, facts) ← validatedRecordProjection r
  let s := markBoundary s facts
  if r.packetCount = 0 then pure s
  else do
    refuse (uint64Max - s.packet < r.packetCount)
      "projected packet_count exceeds unsigned 64-bit range"
    pure (addPackets s time r.packetCount)

def initial : Projecting := ⟨[], [], 0, none, false⟩

/-- The facts in the order of their names. -/
def sortedFacts (facts : Finset BoundaryFact) : List BoundaryFact :=
  [.sourceLoss, .timeIncomparable].filter (· ∈ facts)

def byPosition (a b : ℤ × Finset BoundaryFact) : Prop := a.1 ≤ b.1

instance : DecidableRel byPosition := fun _ _ => inferInstanceAs (Decidable (_ ≤ _))

def projectPublicTimeline (records : List FrozenRecordProjection) :
    Except String PublicProjection := do
  let s ← records.foldlM projectRecord initial
  refuse (s.packet = 0) "public projection must contain packets"
  pure ⟨s.packet, s.spans,
    (s.boundaryFacts.insertionSort byPosition).map fun e => ⟨e.1, sortedFacts e.2⟩⟩

/-- One entry of the manifest's timeline. -/
inductive ManifestSpan where
  | unknown (packets : ℤ × ℤ) (sourceSeconds : ℤ)
  | mapped (packets : ℤ × ℤ) (quality : Quality) (unixSeconds : ℤ) (utcUncertaintySeconds : Option ℚ)
  deriving DecidableEq, Repr

structure Manifest where
  id : String
  order : ℤ
  audioSha256 : String
  packetCount : ℤ
  timeline : List ManifestSpan
  boundaries : List PublicBoundary
  deriving DecidableEq, Repr

/-- Sixty-four lowercase hexadecimal digits. -/
def IsDigest (value : String) : Prop :=
  value.toList.length = 64 ∧ ∀ c ∈ value.toList, c ∈ "0123456789abcdef".toList

instance (value : String) : Decidable (IsDigest value) :=
  @instDecidableAnd _ _ _ (List.decidableBAll (· ∈ "0123456789abcdef".toList) _)

def requireDigest (value name : String) : Except String Unit :=
  refuse (¬ IsDigest value) (name ++ " must be lowercase SHA-256 hex")

def manifestSpan (s : TimelineSpan) : ManifestSpan :=
  if s.quality = .unknown then .unknown s.range s.seconds
  else .mapped s.range s.quality s.seconds s.utcUncertaintySeconds

/-- The timeline check from packet `expectedStart` on. -/
def manifestTimeline (packetCount : ℤ) : ℤ → List TimelineSpan → Except String (List ManifestSpan)
  | expectedStart, [] => do
    refuse (expectedStart ≠ packetCount) "timeline must exhaustively cover packet_count"
    pure []
  | expectedStart, s :: spans => do
    requireUint s.packetStart uint64Max "packet_start" false
    requireUint s.packetNext uint64Max "packet_next" true
    refuse (s.packetStart ≠ expectedStart ∨ s.packetNext ≤ s.packetStart)
      "timeline must cover positive contiguous packet ranges"
    requireUint s.seconds uint32Max "seconds" false
    requireUncertainty s.quality s.utcUncertaintySeconds
      "unknown timeline spans cannot have UTC uncertainty"
      "known timeline uncertainty must be finite and nonnegative"
    let timeline ← manifestTimeline packetCount s.packetNext spans
    pure (manifestSpan s :: timeline)

/-- The boundary check after position `prior`. -/
def manifestBoundaries (packetCount : ℤ) : ℤ → List PublicBoundary →
    Except String (List PublicBoundary)
  | _, [] => pure []
  | prior, b :: boundaries => do
    requireUint b.atPacket packetCount "at_packet" false
    refuse (b.atPacket ≤ prior) "boundary positions must be unique and sorted"
    refuse (b.facts = [] ∨ ¬ b.facts.Nodup) "boundary facts must be nonempty and unique"
    refuse (sortedFacts b.facts.toFinset ≠ b.facts) "boundary facts must be known and sorted"
    let rest ← manifestBoundaries packetCount b.atPacket boundaries
    pure (b :: rest)

def canonicalManifest (artifactId : String) (order : ℤ) (audioSha256 : String)
    (p : PublicProjection) : Except String Manifest := do
  requireDigest artifactId "artifact_id"
  requireDigest audioSha256 "audio_sha256"
  requireUint order uint64Max "order" false
  requireUint p.packetCount uint64Max "packet_count" true
  let timeline ← manifestTimeline p.packetCount 0 p.timeline
  let boundaries ← manifestBoundaries p.packetCount (-1) p.boundaries
  pure ⟨artifactId, order, audioSha256, p.packetCount, timeline, boundaries⟩

end PublicTimeline
