import OmiCollector.Checks
import OmiCollector.PublicationGroups

/-! A prepared group and the stage intent that reserves it.

The public times of a group, its replay proof and its ledger entry are functions of its records,
the clock snapshot and the frontier it starts from. A stage intent stores ranges and expected
results, and loading it reads the ranges again and computes everything anew. -/
namespace PublicationStage

open ByteCodec CaptureModel ClockModel KeyedTable SpanCover PublicationLedger TypedSlices
open SlicePartition PublicationGroups
open Checks (exists_of_mem_mapM)

variable {D : Type}

/-- One record of the public projection, with the frontier behind it and its packets. -/
structure ProjectedRecord where
  projection : RecordProjection
  frontier : V2Frontier
  packets : List Bytes
  deriving DecidableEq

def deviceTimestamp (raw : Bytes) : ℕ := fromBytesBig (raw.take 4)

def projectRecord (codec : Codec D) (clock : ClockState) (previous : Option V2Frontier)
    (entry : ℕ × Bytes) : Except Failure ProjectedRecord :=
  match codec.inspectRecord true entry.2 with
  | none => .error (.refused "v2 source contains invalid mono 20 ms Opus")
  | some layout =>
    let adjacent := previous.filter fun p => p.sequence + 1 = entry.1
    let time := codec.freeze clock entry.1 (deviceTimestamp entry.2)
      (adjacent.map fun p => (p.sequence, p.time))
    let brokenPacket := (adjacent.bind (·.pendingOverflowSize)).any fun size =>
      size ≠ layout.firstSize
    .ok
      { projection :=
          { packetCount := layout.packetCount
            time := time
            sourceLoss := previous.isSome && adjacent.isNone
            timeIncomparable := brokenPacket || !time.comparableToPrevious }
        frontier := ⟨entry.1, time, layout.overflowSize⟩
        packets := layout.packets }

/-- `_v2_projected_records`: each record is projected from the frontier of the one before. -/
def projectRecords (codec : Codec D) (clock : ClockState) :
    Option V2Frontier → List (ℕ × Bytes) → Except Failure (List ProjectedRecord)
  | _, [] => .ok []
  | previous, entry :: rest => do
    let first ← projectRecord codec clock previous entry
    let later ← projectRecords codec clock (some first.frontier) rest
    return first :: later

structure PreparedGroup (D : Type) where
  slices : List (Slice D)
  facts : BundleFacts D
  projection : List RecordProjection
  audioSha256 : D
  packetCount : ℕ
  clock : ClockState
  initialFrontier : Option V2Frontier
  finalFrontier : V2Frontier
  deriving DecidableEq

def prepareV2Group (codec : Codec D) (slices : List (Slice D)) (clock : ClockState)
    (initial : Option V2Frontier) : Except Failure (PreparedGroup D) :=
  if slices = [] then .error (.refused "cannot publish an empty v2 group")
  else do
    let projected ← projectRecords codec clock initial (entriesOf slices)
    let packets := projected.flatMap (·.packets)
    let count := (projected.map (·.projection.packetCount)).sum
    match codec.hashV2Audio packets, projected.getLast? with
    | none, _ => .error (.refused "v2 audio stream is invalid")
    | _, none => .error (.refused "v2 group has no physical records")
    | some audio, some last =>
      if count = 0 then .error (.refused "public projection must contain packets")
      else return {
        slices := slices
        facts := groupFacts codec slices
        projection := projected.map (·.projection)
        audioSha256 := audio
        packetCount := packets.length
        clock := clock
        initialFrontier := initial
        finalFrontier := last.frontier }

def boundaryBits (p : RecordProjection) : ℕ :=
  (if p.sourceLoss then 1 else 0) +
    2 * (if p.timeIncomparable || !p.time.comparableToPrevious then 1 else 0)

def extendRuns (runs : List NormalizationRun) (index : ℕ) (raw : Bytes) (p : RecordProjection) :
    List NormalizationRun :=
  let mode := if p.time.quality = .unknown then NormalizationMode.raw else .mapped
  let offset : ℤ :=
    if p.time.quality = .unknown then 0 else (p.time.seconds : ℤ) - deviceTimestamp raw
  let fresh : NormalizationRun := ⟨index, index + 1, offset, mode, boundaryBits p⟩
  match runs.getLast? with
  | none => [fresh]
  | some last =>
    if boundaryBits p = 0 ∧ last.mode = mode ∧ last.offsetSeconds = offset then
      runs.dropLast ++ [{ last with nextRecordIndex := index + 1 }]
    else runs ++ [fresh]

def runsOf (runs : List NormalizationRun) (index : ℕ) :
    List (Bytes × RecordProjection) → List NormalizationRun
  | [] => runs
  | (raw, p) :: rest => runsOf (extendRuns runs index raw p) (index + 1) rest

def PreparedGroup.records (g : PreparedGroup D) : List Bytes := (entriesOf g.slices).map Prod.snd

def v2NormalizationRuns (g : PreparedGroup D) : List NormalizationRun :=
  runsOf [] 0 (g.records.zip g.projection)

def normalizedRecords (runs : List NormalizationRun) :
    ℕ → List Bytes → Except Failure (List Bytes)
  | _, [] => .ok []
  | index, raw :: rest =>
    match runAt runs index with
    | none => .error (.refused "v2 normalization runs do not cover the group")
    | some run =>
      match normalizeRecord raw run with
      | .error message => .error (.refused message)
      | .ok normalized => do
        let later ← normalizedRecords runs (index + 1) rest
        return normalized :: later

/-- The staging replay proof of a group under its reserved order. -/
def stageProof (codec : Codec D) (g : PreparedGroup D) (order : ℕ) (manifest : D) :
    Except Failure (ReplayProof D) := do
  let runs := v2NormalizationRuns g
  let normalized ← normalizedRecords runs 0 g.records
  return ⟨.staging, codec.sha256 normalized.flatten, manifest, runs, order, g.audioSha256,
    g.packetCount, normalized.map codec.sha256⟩

/-- A row of `ready_v2_stage_range`. -/
structure StageRange (D : Type) where
  sourceId : ℕ
  startOrdinal : ℕ
  recordCount : ℕ
  sequenceStart : ℕ
  nextSequence : ℕ
  rawSha256 : D
  deriving DecidableEq

def stageRange (codec : Codec D) (s : Slice D) : StageRange D :=
  ⟨s.admission.sourceId, s.startOrdinal, s.recordCount, s.startSequence, s.nextSequence,
    s.rawSha256 codec⟩

/-- The private descriptor of a group; its ranges are the rows of the stage. -/
structure Descriptor (D : Type) where
  clock : ClockState
  facts : BundleFacts D
  sources : List (StageRange D)
  projection : List RecordProjection
  initialFrontier : Option V2Frontier
  finalFrontier : V2Frontier
  deriving DecidableEq

def v2Descriptor (codec : Codec D) (g : PreparedGroup D) : Descriptor D :=
  ⟨g.clock, g.facts, g.slices.map (stageRange codec), g.projection, g.initialFrontier,
    g.finalFrontier⟩

/-- A row of `ready_v2_output_stage`; `failed` is the recorded durability failure. -/
structure Stage (D : Type) where
  artifactId : D
  order : ℕ
  cohortCursor : ℕ
  descriptor : Descriptor D
  audioSha256 : D
  manifestSha256 : D
  packetCount : ℕ
  failed : Bool
  deriving DecidableEq

def stageOf (codec : Codec D) (g : PreparedGroup D) (artifactId : D) (order cohortCursor : ℕ) :
    Stage D where
  artifactId := artifactId
  order := order
  cohortCursor := cohortCursor
  descriptor := v2Descriptor codec g
  audioSha256 := g.audioSha256
  manifestSha256 := codec.manifestSha256 artifactId order g.audioSha256 g.projection
  packetCount := g.packetCount
  failed := false

/-- The ready entry that a committed stage leaves. -/
def v2LedgerEntry (codec : Codec D) (g : PreparedGroup D) (stage : Stage D) (recordsSha256 : D) :
    Entry D where
  recordsSha256 := recordsSha256
  state := .ready
  startSequence := g.facts.startSequence
  nextSequence := g.facts.nextSequence
  draftRawSha256 := g.facts.rawSha256
  gaps := g.facts.gaps
  sources := g.slices.map fun s => (s.startSequence, s.nextSequence, s.rawSha256 codec)
  order := stage.order
  audioSha256 := g.audioSha256
  manifestSha256 := stage.manifestSha256
  packetCount := g.packetCount

theorem projectRecord_ok {codec : Codec D} {clock : ClockState} {previous : Option V2Frontier}
    {entry : ℕ × Bytes} {p : ProjectedRecord}
    (h : projectRecord codec clock previous entry = .ok p) : p.frontier.sequence = entry.1 := by
  unfold projectRecord at h
  split at h
  · cases h
  · obtain rfl := Except.ok.inj h
    rfl

theorem projectRecords_ok {codec : Codec D} {clock : ClockState} {previous : Option V2Frontier}
    {entries : List (ℕ × Bytes)} {projected : List ProjectedRecord}
    (h : projectRecords codec clock previous entries = .ok projected) :
    projected.map (·.frontier.sequence) = entries.map Prod.fst := by
  induction entries generalizing previous projected with
  | nil =>
    obtain rfl := Except.ok.inj h
    rfl
  | cons entry rest ih =>
    unfold projectRecords at h
    cases hfirst : projectRecord codec clock previous entry with
    | error e =>
      rw [hfirst] at h
      cases h
    | ok first =>
      rw [hfirst] at h
      cases hlater : projectRecords codec clock (some first.frontier) rest with
      | error e =>
        simp only [bind, Except.bind, hlater] at h
        cases h
      | ok later =>
        simp only [bind, Except.bind, hlater] at h
        obtain rfl := Except.ok.inj h
        rw [List.map_cons, List.map_cons, projectRecord_ok hfirst, ih hlater]

/-- What a successful preparation says about the group. -/
theorem prepareV2Group_ok {codec : Codec D} {slices : List (Slice D)} {clock : ClockState}
    {initial : Option V2Frontier} {g : PreparedGroup D}
    (h : prepareV2Group codec slices clock initial = .ok g) :
    slices ≠ [] ∧ g.slices = slices ∧ g.facts = groupFacts codec slices ∧ g.clock = clock ∧
      g.initialFrontier = initial ∧
      ((entriesOf slices).map Prod.fst).getLast? = some g.finalFrontier.sequence := by
  unfold prepareV2Group at h
  split at h
  · cases h
  · rename_i hne
    cases hproj : projectRecords codec clock initial (entriesOf slices) with
    | error e =>
      rw [hproj] at h
      cases h
    | ok projected =>
      rw [hproj] at h
      simp only [bind, Except.bind] at h
      split at h
      · cases h
      · cases h
      · rename_i audio last haudio hlast
        split at h
        · cases h
        · obtain rfl := Except.ok.inj h
          refine ⟨hne, rfl, rfl, rfl, rfl, ?_⟩
          rw [← projectRecords_ok hproj, List.getLast?_map, hlast]
          rfl

theorem normalizedRecords_ok {runs : List NormalizationRun} {index : ℕ}
    {records normalized : List Bytes} (h : normalizedRecords runs index records = .ok normalized) :
    normalized.length = records.length ∧ ∀ i raw, records[i]? = some raw →
      ∃ run n, runAt runs (index + i) = some run ∧ normalizeRecord raw run = .ok n ∧
        normalized[i]? = some n := by
  induction records generalizing index normalized with
  | nil =>
    obtain rfl := Except.ok.inj h
    exact ⟨rfl, by simp⟩
  | cons record rest ih =>
    unfold normalizedRecords at h
    split at h
    · cases h
    · rename_i run hrun
      split at h
      · cases h
      · rename_i first hfirst
        cases hlater : normalizedRecords runs (index + 1) rest with
        | error e =>
          rw [hlater] at h
          cases h
        | ok later =>
          rw [hlater] at h
          obtain rfl : first :: later = normalized := Except.ok.inj h
          obtain ⟨hlen, hget⟩ := ih hlater
          refine ⟨by simp [hlen], ?_⟩
          intro i raw hi
          cases i with
          | zero =>
            obtain rfl : record = raw := by simpa using hi
            exact ⟨run, first, hrun, hfirst, rfl⟩
          | succ i =>
            obtain ⟨run', n, h1, h2, h3⟩ := hget i raw (by simpa using hi)
            refine ⟨run', n, ?_, h2, by simpa using h3⟩
            rwa [add_right_comm, add_assoc] at h1

/-- A staging proof holds the digest of every record of its group, in order. -/
theorem stageProof_ok {codec : Codec D} {g : PreparedGroup D} {order : ℕ} {manifest : D}
    {proof : ReplayProof D} (h : stageProof codec g order manifest = .ok proof) :
    proof.lifecycle = .staging ∧ proof.manifestSha256 = manifest ∧ proof.publicOrder = order ∧
      proof.audioSha256 = g.audioSha256 ∧ proof.packetCount = g.packetCount ∧
      proof.hashes.length = g.records.length ∧
      ∀ i raw, g.records[i]? = some raw → HashMatch codec proof i raw := by
  unfold stageProof at h
  cases hnorm : normalizedRecords (v2NormalizationRuns g) 0 g.records with
  | error e =>
    simp only [hnorm] at h
    cases h
  | ok normalized =>
    simp only [hnorm] at h
    obtain rfl := Except.ok.inj h
    obtain ⟨hlen, hget⟩ := normalizedRecords_ok hnorm
    refine ⟨rfl, rfl, rfl, rfl, rfl, by simp [hlen], ?_⟩
    intro i raw hi
    obtain ⟨run, n, h1, h2, h3⟩ := hget i raw hi
    rw [zero_add] at h1
    exact ⟨run, n, h1, h2, by simp [h3]⟩

variable [DecidableEq D]

def loadStageSlice (codec : Codec D) (sources : Table ℕ (SourceRow D))
    (admissions : List (Admission D)) (range : StageRange D) : Except Failure (Slice D) :=
  match admissions.find? fun a => a.sourceId = range.sourceId with
  | none => .error (.refused "v2 stage source ranges are invalid")
  | some a => do
    let s ← typedSlice codec sources a range.startOrdinal range.recordCount
    if stageRange codec s = range then .ok s
    else .error (.refused "v2 stage source range changed")

/-- `_load_v2_stage`: read the ranges again and require the stored results. -/
def loadV2Stage (codec : Codec D) (sources : Table ℕ (SourceRow D))
    (admissions : List (Admission D)) (cohortCursor : ℕ) (stage : Stage D) :
    Except Failure (PreparedGroup D) :=
  if stage.failed then
    .error (.refused "v2 stage is blocked by a recorded durability I/O failure")
  else if stage.cohortCursor ≠ cohortCursor then
    .error (.refused "v2 stage immutable identity changed")
  else do
    let slices ← stage.descriptor.sources.mapM (loadStageSlice codec sources admissions)
    if slices = [] then .error (.refused "v2 stage has no source ranges")
    else
      let g ← prepareV2Group codec slices stage.descriptor.clock stage.descriptor.initialFrontier
      if stageOf codec g stage.artifactId stage.order cohortCursor = stage then .ok g
      else .error (.refused "v2 stage frozen output changed")

theorem loadStageSlice_ok {codec : Codec D} {sources : Table ℕ (SourceRow D)}
    {admissions : List (Admission D)} {range : StageRange D} {s : Slice D}
    (h : loadStageSlice codec sources admissions range = .ok s) :
    stageRange codec s = range ∧ s.admission ∈ admissions ∧ ReadsFrom codec sources s := by
  unfold loadStageSlice at h
  split at h
  · cases h
  · rename_i a hfind
    cases hslice : typedSlice codec sources a range.startOrdinal range.recordCount with
    | error e =>
      rw [hslice] at h
      cases h
    | ok t =>
      rw [hslice] at h
      simp only [bind, Except.bind] at h
      split at h
      · rename_i hrange
        obtain rfl := Except.ok.inj h
        obtain ⟨hadm, -, -, -, -, hreads⟩ := typedSlice_ok hslice
        exact ⟨hrange, hadm ▸ List.mem_of_find?_eq_some hfind, hreads⟩
      · cases h

/-- What a group loaded from a stage intent is. -/
structure Loaded (codec : Codec D) (sources : Table ℕ (SourceRow D))
    (admissions : List (Admission D)) (cohortCursor : ℕ) (stage : Stage D) (g : PreparedGroup D) :
    Prop where
  prepared : prepareV2Group codec g.slices g.clock g.initialFrontier = .ok g
  stage : stageOf codec g stage.artifactId stage.order cohortCursor = stage
  reads : ∀ s ∈ g.slices, s.admission ∈ admissions ∧ ReadsFrom codec sources s

theorem loadV2Stage_ok {codec : Codec D} {sources : Table ℕ (SourceRow D)}
    {admissions : List (Admission D)} {cohortCursor : ℕ} {stage : Stage D} {g : PreparedGroup D}
    (h : loadV2Stage codec sources admissions cohortCursor stage = .ok g) :
    Loaded codec sources admissions cohortCursor stage g := by
  unfold loadV2Stage at h
  split at h
  · cases h
  · split at h
    · cases h
    · cases hslices : stage.descriptor.sources.mapM (loadStageSlice codec sources admissions) with
      | error e =>
        rw [hslices] at h
        cases h
      | ok slices =>
        rw [hslices] at h
        simp only [bind, Except.bind] at h
        split at h
        · cases h
        · cases hg : prepareV2Group codec slices stage.descriptor.clock
              stage.descriptor.initialFrontier with
          | error e =>
            rw [hg] at h
            cases h
          | ok g' =>
            rw [hg] at h
            simp only at h
            split at h
            · rename_i hstage
              obtain rfl := Except.ok.inj h
              obtain ⟨-, hs, -, hclock, hinitial, -⟩ := prepareV2Group_ok hg
              refine ⟨?_, hstage, ?_⟩
              · rw [hs, hclock, hinitial]
                exact hg
              · intro s hs'
                rw [hs] at hs'
                obtain ⟨range, -, hrange⟩ := exists_of_mem_mapM hslices hs'
                exact (loadStageSlice_ok hrange).2
            · cases h

end PublicationStage
