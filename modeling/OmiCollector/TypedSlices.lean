import OmiCollector.ClockModel
import OmiCollector.PublicationLedger
import OmiCollector.SpanWalk

/-! Typed admissions and the slices of their records that are published.

An admission is the frozen prefix of one capture source. Normalization reads the unpublished rest
of every admission, takes out what ready artifacts hold, and leaves each other sequence with one
owner. A slice keeps the records it was read with, so that its digest, its packet count and its
framing are functions of them. -/
namespace TypedSlices

open ByteCodec AudioMachine CaptureModel KeyedTable SpanCover SpanWalk PublicationLedger

structure RecordAudioLayout where
  packetCount : ℕ
  firstSize : ℕ
  overflowSize : Option ℕ
  packets : List Bytes
  deriving DecidableEq

/-- One record as the public timeline sees it: its packets, its time and the boundary facts
before it. -/
structure RecordProjection where
  packetCount : ℕ
  time : FrozenPublicTime
  sourceLoss : Bool
  timeIncomparable : Bool
  deriving DecidableEq

/-- Hashing, audio framing and public time. `inspectRecord` is the packet scanner with its mono
flag, `hashV2Audio` the audio writer, and `freeze` the time of one sequence under a clock
snapshot, given its timestamp and the record right before it. -/
structure Codec (D : Type) where
  sha256 : Bytes → D
  inspectRecord : Bool → Bytes → Option RecordAudioLayout
  hashV2Audio : List Bytes → Option D
  manifestSha256 : D → ℕ → D → List RecordProjection → D
  freeze : ClockModel.ClockState → ℕ → ℕ → Option (ℕ × FrozenPublicTime) → FrozenPublicTime

/-- How a publication call can fail: `ReadyBundleError`, `_TypedAdmissionConflictError`, the
latched fail-stop, or a stopped process. -/
inductive Failure where
  | refused (message : String)
  | admissionConflict (sourceId : ℕ) (message : String)
  | failStop (message : String)
  | crashed
  deriving DecidableEq, Repr

/-- A `capture_source` row with its `capture_record` rows, and whether tail, conflict or
evidence rows remain beside them. -/
structure SourceRow (D : Type) where
  source : CaptureSource D
  records : List CaptureRecord
  residue : Bool
  deriving DecidableEq

structure Admission (D : Type) where
  sourceId : ℕ
  snapshot : CaptureSource D
  admittedLifecycle : AudioPhase
  admittedCount : ℕ
  admittedSha256 : D
  cursor : ℕ
  deriving DecidableEq

def Admission.sequenceStart {D : Type} (a : Admission D) : ℕ := a.snapshot.sequenceStart

/-- The admitted sequences that no cursor has passed yet. -/
def Admission.remaining {D : Type} (a : Admission D) : Span :=
  ⟨a.sequenceStart + a.cursor, a.sequenceStart + a.admittedCount⟩

structure Slice (D : Type) where
  admission : Admission D
  startOrdinal : ℕ
  records : List Bytes
  deriving DecidableEq

namespace Slice

variable {D : Type}

def recordCount (s : Slice D) : ℕ := s.records.length

def startSequence (s : Slice D) : ℕ := s.admission.sequenceStart + s.startOrdinal

def nextSequence (s : Slice D) : ℕ := s.startSequence + s.recordCount

def span (s : Slice D) : Span := ⟨s.startSequence, s.nextSequence⟩

/-- The records of a slice inside a span of sequences. -/
def recordsIn (s : Slice D) (span : Span) : List Bytes :=
  (s.records.drop (span.start - s.startSequence)).take (span.stop - span.start)

/-- `_crop_typed_slice`; its callers pass non-empty spans inside the slice. -/
def crop (s : Slice D) (span : Span) : Slice D :=
  ⟨s.admission, s.startOrdinal + (span.start - s.startSequence), s.recordsIn span⟩

def rawAt (s : Slice D) (x : ℕ) : Option Bytes :=
  if s.startSequence ≤ x then s.records[x - s.startSequence]? else none

/-- The records of a slice with their sequence numbers. -/
def entries (s : Slice D) : List (ℕ × Bytes) :=
  (List.range' s.startSequence s.recordCount).zip s.records

def rawSha256 (codec : Codec D) (s : Slice D) : D := codec.sha256 s.records.flatten

end Slice

structure ActiveArtifact (D : Type) where
  id : D
  entry : Entry D
  proof : ReplayProof D

structure RetiredArtifact (D : Type) where
  id : D
  facts : BundleFacts D
  sources : List (SourceLineage D)

/-- The authenticated view of the ledger that publication compares sources with. -/
structure Custody (D : Type) where
  active : List (ActiveArtifact D)
  retired : List (RetiredArtifact D)

variable {D : Type} [DecidableEq D]

/-- Ready entries with their proofs in order of their start, and every retired entry. -/
def custody (l : Ledger D) : Custody D where
  active := ((l.entries.rows.filter fun r => r.2.state = .ready).filterMap fun r =>
      (l.proofs.get r.1).map fun proof => (⟨r.1, r.2, proof⟩ : ActiveArtifact D)).insertionSort
    fun a b => a.entry.startSequence ≤ b.entry.startSequence
  retired := (l.legacy.map fun r => ⟨r.1, r.2.facts, r.2.sources⟩) ++
    (l.entries.rows.filter fun r => r.2.state = .retired).map fun r =>
      ⟨r.1, r.2.facts, r.2.sources⟩

/-- Where a run of a ready artifact lies among the records of its proof. -/
structure ReadyKey (D : Type) where
  proof : ReplayProof D
  runStart : ℕ
  readyOffset : ℕ

def segmentsFrom (proof : ReplayProof D) : ℕ → List Span → List (Span × ReadyKey D)
  | _, [] => []
  | offset, run :: rest =>
    (run, ⟨proof, run.start, offset⟩) :: segmentsFrom proof (offset + (run.stop - run.start)) rest

def typedActiveSegments (a : ActiveArtifact D) : List (Span × ReadyKey D) :=
  segmentsFrom a.proof 0 (physicalRuns a.entry.facts)

/-- The run that holds one record index. -/
def runAt (runs : List NormalizationRun) (index : ℕ) : Option NormalizationRun :=
  runs.find? fun run => index < run.nextRecordIndex

/-- Compare records with the hashes of a proof from one record index on. -/
def readyHashes (codec : Codec D) (proof : ReplayProof D) : ℕ → List Bytes → Except String Unit
  | _, [] => .ok ()
  | index, record :: rest =>
    match runAt proof.normalizationRuns index with
    | none => .error "private replay proof request is outside its root"
    | some run =>
      match normalizeRecord record run with
      | .error _ => .error "typed ready overlap cannot be normalized"
      | .ok normalized =>
        if proof.hashes[index]? = some (codec.sha256 normalized) then
          readyHashes codec proof (index + 1) rest
        else .error "typed ready overlap conflicts with its source record"

def typedReadyOverlap (codec : Codec D) (s : Slice D) (key : ReadyKey D) (span : Span) :
    Except String Unit :=
  readyHashes codec key.proof (key.readyOffset + (span.start - key.runStart)) (s.recordsIn span)

def typedRetiredFullProof (a : Admission D) (c : Custody D) : Option (RetiredArtifact D) :=
  c.retired.find? fun r =>
    (a.sequenceStart, a.sequenceStart + a.admittedCount, a.admittedSha256) ∈ r.sources

def typedRejectPartialRetiredOverlap (a : Admission D) (c : Custody D) : Except String Unit :=
  if (typedRetiredFullProof a c).isSome then .ok ()
  else if ∃ r ∈ c.retired, ∃ run ∈ physicalRuns r.facts,
      a.remaining.start < run.stop ∧ run.start < a.remaining.stop then
    .error "typed source overlaps retired custody without exact full-source lineage"
  else .ok ()

def snapshotCurrent (current : CaptureSource D) (a : Admission D) : Prop :=
  current.sourceType = a.snapshot.sourceType ∧
    current.sequenceStart = a.snapshot.sequenceStart ∧
    current.sequenceLimit = a.snapshot.sequenceLimit ∧
    current.committedCount = a.snapshot.committedCount ∧
    current.committedSha256 = a.snapshot.committedSha256 ∧
    (current.lifecycle = a.admittedLifecycle ∨ current.lifecycle = .covered ∨
      current.lifecycle = .retiring)

instance (current : CaptureSource D) (a : Admission D) : Decidable (snapshotCurrent current a) :=
  inferInstanceAs (Decidable (_ ∧ _ ∧ _ ∧ _ ∧ _ ∧ _))

/-- The rows of one ordinal range of an admission, by primary key. -/
def typedRecords (sources : Table ℕ (SourceRow D)) (a : Admission D) (start count : ℕ) :
    Except Failure (List Bytes) :=
  if a.admittedCount < start + count then
    .error (.refused "typed source slice is outside its admitted prefix")
  else match sources.get a.sourceId with
    | none => .error (.refused "typed publication source disappeared")
    | some row =>
      if ¬ snapshotCurrent row.source a then
        .error (.refused "typed publication source identity changed")
      else
        let page := row.records.filter fun r => start ≤ r.ordinal ∧ r.ordinal < start + count
        if page.map (·.ordinal) = List.range' start count then .ok (page.map (·.rawBytes))
        else .error (.refused "typed source page ended before its frozen slice")

def typedSlice (codec : Codec D) (sources : Table ℕ (SourceRow D)) (a : Admission D)
    (start count : ℕ) : Except Failure (Slice D) := do
  let records ← typedRecords sources a start count
  if ∀ r ∈ records, (codec.inspectRecord false r).isSome then .ok ⟨a, start, records⟩
  else .error (.refused "typed source contains an invalid 20 ms Opus packet")

def uniqueAgainstTypedReady (codec : Codec D) (s : Slice D) (c : Custody D) :
    Except String (List (Slice D)) := do
  typedRejectPartialRetiredOverlap s.admission c
  let spans ← subtractAll s.startSequence s.nextSequence (typedReadyOverlap codec s)
    (c.active.map typedActiveSegments)
  return spans.map s.crop

def compareTypedOverlap (left right : Slice D) (span : Span) : Except String Unit :=
  if left.recordsIn span = right.recordsIn span then .ok ()
  else .error "authenticated typed source overlap has conflicting record bytes"

def uniqueAgainstTyped (s : Slice D) (normalized : List (Slice D)) (index : ℕ) :
    Except String (List (Slice D)) := do
  let spans ← subtractAll s.startSequence s.nextSequence (compareTypedOverlap s)
    [(normalized.drop index).map fun retained => (retained.span, retained)]
  return spans.map s.crop

def insertSlice (normalized : List (Slice D)) (unique : Slice D) : List (Slice D) :=
  let position := bisectRight (normalized.map (·.nextSequence)) unique.startSequence
  normalized.take position ++ unique :: normalized.drop position

/-- Give every sequence of one slice that has no owner yet to it. -/
def addReadySlice (normalized : List (Slice D)) (s : Slice D) : Except Failure (List (Slice D)) := do
  let index := bisectRight (normalized.map (·.nextSequence)) s.startSequence
  let unique ← (uniqueAgainstTyped s normalized index).mapError .refused
  return unique.foldl insertSlice normalized

def normalizeAdmission (codec : Codec D) (sources : Table ℕ (SourceRow D)) (c : Custody D)
    (normalized : List (Slice D)) (a : Admission D) : Except Failure (List (Slice D)) :=
  if a.admittedCount ≤ a.cursor then .ok normalized
  else do
    let candidate ← typedSlice codec sources a a.cursor (a.admittedCount - a.cursor)
    if a.cursor = 0 ∧ candidate.rawSha256 codec ≠ a.admittedSha256 then
      .error (.refused "typed source rows do not match its admitted checkpoint")
    else
      let ready ← (uniqueAgainstTypedReady codec candidate c).mapError
        (Failure.admissionConflict a.sourceId)
      ready.foldlM addReadySlice normalized

def normalizeTypedAdmissions (codec : Codec D) (sources : Table ℕ (SourceRow D)) (c : Custody D)
    (admissions : List (Admission D)) : Except Failure (List (Slice D)) :=
  admissions.foldlM (normalizeAdmission codec sources c) []

end TypedSlices
