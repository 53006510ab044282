import OmiCollector.PublicationStage

/-! The database that publication works on, and the decisions it takes from one snapshot of it:
which sources are admissible, how far ready artifacts prove a source, what covers a source and
when a cohort may wait. -/
namespace PublicationStore

open AudioMachine (AudioPhase AudioAction CohortPhase QuarantineDisposition transition)
open CaptureModel KeyedTable SpanCover SpanWalk PublicationLedger TypedSlices SlicePartition
open PublicationGroups PublicationStage

/-- A row of `publication_cohort_member`. -/
structure Member (D : Type) where
  sourceId : ℕ
  admittedLifecycle : AudioPhase
  admittedCount : ℕ
  admittedSha256 : D
  cursor : ℕ
  deriving DecidableEq

/-- The one row of `publication_cohort` with its members. -/
structure Cohort (D : Type) where
  lifecycle : CohortPhase
  threshold : ℕ
  frontier : Option ℕ
  cursor : ℕ
  members : List (Member D)
  deriving DecidableEq

structure ReadyClosure where
  nextSequence : ℕ
  reason : String
  deriving DecidableEq, Repr

/-- What `_typed_packet_fingerprint` digests. -/
structure Fingerprint (D : Type) where
  sourceId : ℕ
  sourceType : SourceType
  lifecycle : AudioPhase
  sequenceStart : ℕ
  sequenceLimit : ℕ
  committedCount : ℕ
  committedSha256 : D
  admittedCount : ℕ
  admittedSha256 : D
  certifiedPrefixCount : Option ℕ
  coverageDigest : Option D
  deriving DecidableEq

/-- What `_normalized_wait_key` digests. -/
structure WaitKey (D : Type) where
  admissions : List (Fingerprint D × ℕ)
  legacy : List (D × LegacyEntry D)
  entries : List (D × Entry D)
  proofs : List (D × ReplayProof D)
  threshold : ℕ
  frontier : Option V2Frontier
  deriving DecidableEq

structure NormalizedWait (D : Type) where
  key : WaitKey D
  remaining : Bool
  audioPackets : ℕ
  thresholdPackets : ℕ
  deriving DecidableEq

structure Db (D : Type) where
  sources : Table ℕ (SourceRow D)
  cohort : Option (Cohort D)
  stage : Option (Stage D)
  ledger : Ledger D
  closures : List ReadyClosure
  summaries : Table ℕ (Fingerprint D × ℕ)
  normalizedWait : Option (NormalizedWait D)

variable {D : Type}

def custodyHoldReasons : List String := ["ready_overlap_conflict", "source_authentication_mismatch"]

/-- The certified prefix of a blocked source, if it may be published. -/
def blockedTypedCertification (s : CaptureSource D) : Except Failure (Option (ℕ × D)) :=
  if ∃ reason ∈ s.blockReason, reason ∈ custodyHoldReasons then .ok none
  else if s.sourceType ≠ .quarantine then
    .error (.refused "blocked typed publication source lacks quarantine custody")
  else match s.quarantineDisposition with
    | none | some .unclassified | some .unprocessable => .ok none
    | some .publishedPrefix =>
      match s.terminalTime, s.retentionDeadline with
      | some terminal, some deadline =>
        if deadline < terminal then
          .error (.refused "blocked typed publication source retention evidence is incomplete")
        else match s.certifiedPrefixCount, s.coverageDigest with
          | some count, some digest =>
            if count = 0 then .ok none
            else if s.committedCount < count then
              .error (.refused "typed certified prefix exceeds its source")
            else .ok (some (count, digest))
          | _, _ => .ok none
      | _, _ => .error (.refused "blocked typed publication source retention evidence is incomplete")

def typedAdmissionOf (id : ℕ) (s : CaptureSource D) (count : ℕ) (digest : D) :
    Except Failure (Option (Admission D)) :=
  if count = 0 ∨ s.sequenceLimit < s.sequenceStart + count then
    .error (.refused "typed publication source checkpoint is invalid")
  else .ok (some ⟨id, s, s.lifecycle, count, digest, 0⟩)

def typedAdmission (id : ℕ) (s : CaptureSource D) : Except Failure (Option (Admission D)) :=
  match s.lifecycle with
  | .sealedWaiting => typedAdmissionOf id s s.committedCount s.committedSha256
  | .blocked => do
    match ← blockedTypedCertification s with
    | none => return none
    | some (count, digest) => typedAdmissionOf id s count digest
  | _ => .ok none

/-- The admission ends at or below the frontier, if there is one. -/
def Admission.Within (frontier : Option ℕ) (a : Admission D) : Prop :=
  ∀ f ∈ frontier, a.sequenceStart + a.admittedCount ≤ f

instance (frontier : Option ℕ) (a : Admission D) : Decidable (Admission.Within frontier a) := by
  unfold Admission.Within
  infer_instance

def Admission.before (a b : Admission D) : Prop :=
  a.sequenceStart < b.sequenceStart ∨ (a.sequenceStart = b.sequenceStart ∧ a.sourceId ≤ b.sourceId)

instance (a b : Admission D) : Decidable (Admission.before a b) :=
  inferInstanceAs (Decidable (_ ∨ _))

/-- Every admissible source up to the frontier, by sequence and identity. -/
def typedSourceAdmissions (sources : Table ℕ (SourceRow D)) (frontier : Option ℕ) :
    Except Failure (List (Admission D)) := do
  let found ← sources.rows.mapM fun r => typedAdmission r.1 r.2.source
  return ((found.filterMap id).filter (Admission.Within frontier ·)).insertionSort Admission.before

variable [DecidableEq D]

/-- The source still has the admitted count and digest, as its admitted lifecycle defines them. -/
def stillAdmitted (s : CaptureSource D) (lifecycle : AudioPhase) (count : ℕ) (digest : D) :
    Except Failure Bool :=
  if lifecycle = .sealedWaiting then
    .ok (decide (count = s.committedCount ∧ digest = s.committedSha256))
  else (blockedTypedCertification s).map fun certified => decide (certified = some (count, digest))

/-- The admission of a cohort member, rebuilt from its row and its source. -/
def persistedAdmission (sources : Table ℕ (SourceRow D)) (m : Member D) :
    Except Failure (Admission D) :=
  if m.admittedCount < m.cursor then
    .error (.refused "typed publication cohort membership is invalid")
  else match sources.get m.sourceId with
    | none => .error (.refused "typed publication cohort source evidence disappeared")
    | some row => do
      let valid ← stillAdmitted row.source m.admittedLifecycle m.admittedCount m.admittedSha256
      if valid = true ∧ (row.source.lifecycle = m.admittedLifecycle ∨
          row.source.lifecycle = .covered ∨ row.source.lifecycle = .retiring) then
        .ok ⟨m.sourceId, row.source, m.admittedLifecycle, m.admittedCount, m.admittedSha256, m.cursor⟩
      else .error (.refused "typed publication cohort source identity changed")

def memberOf (a : Admission D) : Member D :=
  ⟨a.sourceId, a.admittedLifecycle, a.admittedCount, a.admittedSha256, a.cursor⟩

def admissionCurrent (sources : Table ℕ (SourceRow D)) (a : Admission D) : Bool :=
  match sources.get a.sourceId with
  | none => false
  | some row => snapshotCurrent row.source a

/-- Compare the rows of one overlap with the hashes of a ready artifact. -/
def typedReadyRows (codec : Codec D) (sources : Table ℕ (SourceRow D)) (a : Admission D)
    (key : ReadyKey D) (span : Span) : Except Failure Unit := do
  let records ← typedRecords sources a (span.start - a.sequenceStart) (span.stop - span.start)
  (readyHashes codec key.proof (key.readyOffset + (span.start - key.runStart)) records).mapError
    (Failure.admissionConflict a.sourceId)

/-- How far ready artifacts hold the source without a break, from an absolute sequence on. -/
def typedReadyTraversal (codec : Codec D) (sources : Table ℕ (SourceRow D)) (a : Admission D)
    (c : Custody D) (start : ℕ) : Except Failure ℕ :=
  advance (a.sequenceStart + a.admittedCount) (typedReadyRows codec sources a) (readyRuns c) start

def rejectPartial (a : Admission D) (c : Custody D) : Except Failure Unit :=
  (typedRejectPartialRetiredOverlap a c).mapError (Failure.admissionConflict a.sourceId)

/-- Whether published artifacts hold the whole admission. -/
def typedFullReadyProofs (codec : Codec D) (sources : Table ℕ (SourceRow D)) (a : Admission D)
    (c : Custody D) : Except Failure Bool :=
  if (typedRetiredFullProof a c).isSome then .ok true
  else do
    rejectPartial a c
    let reached ← typedReadyTraversal codec sources a c a.sequenceStart
    return decide (reached = a.sequenceStart + a.admittedCount)

/-- The cursor after the prefix of the rest that published artifacts hold. -/
def typedReadyPrefix (codec : Codec D) (sources : Table ℕ (SourceRow D)) (c : Custody D)
    (a : Admission D) : Except Failure ℕ :=
  if a.cursor = a.admittedCount then .ok a.cursor
  else if (typedRetiredFullProof a c).isSome then .ok a.admittedCount
  else do
    rejectPartial a c
    let reached ← typedReadyTraversal codec sources a c (a.sequenceStart + a.cursor)
    return reached - a.sequenceStart

/-- The cursor of a member after a group with these facts is committed. -/
def typedMemberProgress (facts : BundleFacts D) (a : Admission D) : ℕ :=
  match advance (a.sequenceStart + a.admittedCount) (fun (_ : Unit) _ => (.ok () : Except Empty Unit))
      ((physicalRuns facts).map fun run => (run, ())) (a.sequenceStart + a.cursor) with
  | .ok reached => reached - a.sequenceStart

def decideCoverage (lifecycle : AudioPhase) (admittedCount committedCount : ℕ) :
    Except Failure (AudioPhase × Option ℕ) :=
  if admittedCount ≠ committedCount ∧ lifecycle ≠ .blocked then
    .error (.refused "only a certified blocked prefix may retain uncovered source rows")
  else
    let decision := transition (some lifecycle) (.readyCustody true (lifecycle = .blocked))
    if decision.action ≠ .retire ∨ decision.nextPhase ≠ some .covered then
      .error (.refused "capture source FSM refused ReadyCustody")
    else if admittedCount ≠ committedCount then .ok (.covered, none)
    else
      let begun := transition (some .covered) .beginRetirement
      if begun.action ≠ .retire ∨ begun.nextPhase ≠ some .retiring then
        .error (.refused "capture source FSM refused BeginRetirement")
      else .ok (.retiring, some 0)

/-- The source row as admitted, before anything covers it. -/
def coverageSource (s : CaptureSource D) (a : Admission D) : Except Failure Bool := do
  let certified ← if a.admittedLifecycle = .blocked then
      stillAdmitted s .blocked a.admittedCount a.admittedSha256
    else .ok true
  return certified && decide (s.lifecycle = a.admittedLifecycle ∧
    s.sourceType = a.snapshot.sourceType ∧ s.committedCount = a.snapshot.committedCount ∧
    s.committedSha256 = a.snapshot.committedSha256 ∧
    s.closureFrontier = a.snapshot.closureFrontier ∧ s.retirementCursor = none)

/-- The covered or retiring row that replaces an admitted one. -/
def typedCoverageProposal (sources : Table ℕ (SourceRow D)) (a : Admission D) :
    Except Failure (ℕ × CaptureSource D) :=
  match sources.get a.sourceId with
  | none => .error (.refused "typed source disappeared before coverage commit")
  | some row => do
    let valid ← coverageSource row.source a
    if valid = false then .error (.refused "typed source changed before coverage commit")
    else
      let (phase, retirementCursor) ← decideCoverage row.source.lifecycle a.admittedCount
        a.snapshot.committedCount
      return (a.sourceId, { row.source with
        lifecycle := phase
        closureFrontier := some (a.sequenceStart + a.admittedCount)
        coverageDigest := some a.admittedSha256
        retirementCursor := retirementCursor })

/-- Coverage of the members that a progress completes. -/
def typedCoverageProposals (sources : Table ℕ (SourceRow D)) (progress : List (Admission D × ℕ)) :
    Except Failure (List (ℕ × CaptureSource D)) :=
  (progress.filter fun p => p.1.cursor ≠ p.1.admittedCount ∧ p.2 = p.1.admittedCount).mapM
    fun p => typedCoverageProposal sources p.1

def applyTypedCoverage (sources : Table ℕ (SourceRow D)) (coverage : List (ℕ × CaptureSource D)) :
    Table ℕ (SourceRow D) :=
  coverage.foldl (fun sources item =>
    sources.adjust item.1 fun row => { row with source := item.2 }) sources

/-- The disposition of a source that conflicts with published audio. -/
def conflictDisposition (s : CaptureSource D) : CaptureSource D :=
  { s with
    sourceType := .quarantine
    lifecycle := .blocked
    blockReason := some "ready_overlap_conflict"
    quarantineDisposition := some .unclassified
    quarantineOpaque := some false
    terminalReason := none
    terminalTime := none
    retentionDeadline := none
    certifiedPrefixCount := none
    coverageDigest := none
    retirementCursor := none }

def typedPacketFingerprint (a : Admission D) : Fingerprint D :=
  ⟨a.sourceId, a.snapshot.sourceType, a.snapshot.lifecycle, a.snapshot.sequenceStart,
    a.snapshot.sequenceLimit, a.snapshot.committedCount, a.snapshot.committedSha256,
    a.admittedCount, a.admittedSha256, a.snapshot.certifiedPrefixCount, a.snapshot.coverageDigest⟩

def normalizedWaitKey (l : Ledger D) (admissions : List (Admission D)) (threshold : ℕ) : WaitKey D :=
  ⟨admissions.map fun a => (typedPacketFingerprint a, a.cursor), l.legacy, l.entries.rows,
    l.proofs.rows.filter fun r => r.2.lifecycle = .active, threshold, l.v2Frontier⟩

/-- The waiting outcome stored for exactly these admissions, if there is one. -/
def cachedNormalizedWait (db : Db D) (key : WaitKey D) (threshold : ℕ) : Option Bool :=
  db.normalizedWait.bind fun cached =>
    if cached.key = key ∧ cached.audioPackets < threshold ∧ cached.thresholdPackets = threshold then
      some cached.remaining
    else none

/-- No two admissions and no admission and artifact share a sequence. -/
def disjointAdmissions (l : Ledger D) (admissions : List (Admission D)) : Prop :=
  (admissions.IsChain fun a b => a.sequenceStart + a.admittedCount ≤ b.sequenceStart) ∧
    ∀ a ∈ admissions, ∀ facts ∈ (l.legacy.map fun r => r.2.facts) ++
        (l.entries.rows.map fun r => r.2.facts), ∀ run ∈ physicalRuns facts,
      ¬ (a.sequenceStart < run.stop ∧ run.start < a.sequenceStart + a.admittedCount)

instance (l : Ledger D) (admissions : List (Admission D)) :
    Decidable (disjointAdmissions l admissions) :=
  inferInstanceAs (Decidable (_ ∧ _))

/-- The packets of one whole admission, stored or counted anew. -/
def packetSummary (codec : Codec D) (db : Db D) (a : Admission D) :
    Except Failure (ℕ × Option (ℕ × Fingerprint D × ℕ)) :=
  match db.summaries.get a.sourceId with
  | some (fingerprint, packets) =>
    if fingerprint = typedPacketFingerprint a then .ok (packets, none) else count
  | none => count
where
  count := do
    let s ← typedSlice codec db.sources a 0 a.admittedCount
    if s.rawSha256 codec ≠ a.admittedSha256 then
      .error (.refused "typed packet summary source hash changed")
    else return (audioPackets codec s, some (a.sourceId, typedPacketFingerprint a, audioPackets codec s))

def AfterFrontier (frontier : Option V2Frontier) (sequence : ℕ) : Prop :=
  ∀ f ∈ frontier, f.sequence < sequence

instance (frontier : Option V2Frontier) (sequence : ℕ) :
    Decidable (AfterFrontier frontier sequence) := by
  unfold AfterFrontier
  infer_instance

/-- The packets of disjoint admissions, with the summaries to store; `none` when they overlap. -/
def disjointPacketSummary (codec : Codec D) (db : Db D) (admissions : List (Admission D)) :
    Except Failure (Option (ℕ × List (ℕ × Fingerprint D × ℕ))) :=
  if disjointAdmissions db.ledger admissions ∧
      ∀ a ∈ admissions, AfterFrontier db.ledger.v2Frontier a.sequenceStart then do
    let counted ← admissions.mapM (packetSummary codec db)
    return some ((counted.map Prod.fst).sum, counted.filterMap Prod.snd)
  else .ok none

def requireSlicesAfterV2Frontier (slices : List (Slice D)) (frontier : Option V2Frontier) :
    Except Failure Unit :=
  if ∀ s ∈ slices, AfterFrontier frontier s.startSequence then .ok ()
  else .error (.refused "unique source records precede the committed v2 frontier")

/-- Slices of an accepted cohort under the current admissions of its members. -/
def rebindTypedSlices (slices : List (Slice D)) (admissions : List (Admission D)) :
    Except Failure (List (Slice D)) :=
  slices.mapM fun s =>
    match admissions.find? fun a => a.sourceId = s.admission.sourceId with
    | none => .error (.refused "typed publication slice lost its cohort member")
    | some a => .ok { s with admission := a }

end PublicationStore
