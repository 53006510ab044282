import OmiCollector.AckRetirement
import OmiCollector.PublicationStore

/-! The publication machine: `_recover_and_publish_unlocked` with cohort acceptance, custody
advance, stage reservation, materialization and commit; acknowledgement; and the retirement of
covered raw rows.

Every transaction, and every write to the ready directory, is one step, and a process may stop
before any of them. A storage fault or a lack of space stops a call in the same places. What a
call keeps in memory is lost with it. The log is history: the model writes it and never reads it. -/
namespace PublicationMachine

open AudioMachine (AudioPhase AudioAction CohortPhase transition)
open ByteCodec CaptureModel ClockModel KeyedTable SpanCover PublicationLedger RefusalLogic
open TypedSlices SlicePartition PublicationGroups PublicationStage PublicationStore

/-- What ended a cohort. -/
inductive Ending where
  | stageCommit
  | readyCustody
  deriving DecidableEq, Repr

/-- The history of one accepted cohort: its members and unique records at acceptance, the groups
committed so far, the sources proposed for coverage, and its end. -/
structure CohortLog (D : Type) where
  members : List (Member D)
  plan : List (ℕ × Bytes)
  groups : List (List (ℕ × Bytes))
  covered : List ℕ
  ended : Option Ending

structure Log (D : Type) where
  /-- The raw records of every committed artifact. -/
  committed : List (D × List (ℕ × Bytes))
  /-- The rows deleted by retirement, with their sequence numbers. -/
  deleted : List (ℕ × Bytes)
  /-- The cohorts accepted so far, latest first. -/
  cohorts : List (CohortLog D)
  failStops : List String
  /-- Every source identity ever captured. -/
  captured : List ℕ

structure World (D : Type) where
  db : Db D
  log : Log D
  artifactIds : List D
  durabilityFailures : List Bool
  manifestFirst : Bool
  retiredRecoveryDone : Bool
  steps : Option ℕ

abbrev PubM (D : Type) (α : Type) := Refusable (World D) Failure α

variable {D : Type}

def fromExcept {α : Type} : Except Failure α → PubM D α
  | .ok a => pure a
  | .error e => throw e

def readDb : PubM D (Db D) := do
  return (← get).db

/-- One durable step with its history; the process may stop right before it. -/
def transact (f : Db D → Db D) (g : Log D → Log D) : PubM D Unit := do
  let w ← get
  match w.steps with
  | none => set { w with db := f w.db, log := g w.log }
  | some 0 => throw .crashed
  | some (n + 1) => set { w with db := f w.db, log := g w.log, steps := some n }

def failStop {α : Type} (message : String) : PubM D α := do
  modify fun w => { w with log := { w.log with failStops := message :: w.log.failStops } }
  throw (.failStop message)

/-- The identity of the next stage, derived from a random nonce. -/
def nextArtifactId : PubM D D := do
  let w ← get
  match w.artifactIds with
  | [] => throw .crashed
  | id :: rest =>
    set { w with artifactIds := rest }
    return id

def durabilityFailure : PubM D Bool := do
  let w ← get
  match w.durabilityFailures with
  | [] => return false
  | failure :: rest =>
    set { w with durabilityFailures := rest }
    return failure

/-- Change the history of the cohort that is active. -/
def Log.updateCohort (log : Log D) (f : CohortLog D → CohortLog D) : Log D :=
  match log.cohorts with
  | [] => log
  | current :: earlier => { log with cohorts := f current :: earlier }

variable [DecidableEq D] (codec : Codec D)

def authenticate (pending : Option D) : PubM D Unit := do
  let db ← readDb
  fromExcept ((AckRetirement.v2ReadyCustody db.ledger pending).mapError .refused)

def requireTypedAdmissionsCurrent (admissions : List (Admission D)) : PubM D Unit := do
  let db ← readDb
  refuseIf (¬ admissions.all (admissionCurrent db.sources))
    (Failure.refused "typed publication source identity changed")

def loadActiveTypedCohort : PubM D (Option (Cohort D × List (Admission D))) := do
  let db ← readDb
  match db.cohort with
  | none => return none
  | some cohort =>
    let admissions ← fromExcept (cohort.members.mapM (persistedAdmission db.sources))
    refuseIf (admissions = []) (Failure.refused "typed publication cohort identity is invalid")
    return some (cohort, admissions)

def withCursors (members : List (Member D)) (cursors : List ℕ) : List (Member D) :=
  List.zipWith (fun m cursor => { m with cursor := cursor }) members cursors

def allComplete (progress : List (Admission D × ℕ)) : Bool :=
  progress.all fun p => p.2 = p.1.admittedCount

/-- The transaction of a custody advance. -/
def custodyCommit (cohort : Cohort D) (progress : List (Admission D × ℕ))
    (coverage : List (ℕ × CaptureSource D)) (db : Db D) : Db D :=
  { db with
    sources := applyTypedCoverage db.sources coverage
    cohort := if allComplete progress then none
      else some { cohort with members := withCursors cohort.members (progress.map Prod.snd) } }

def custodyLog (progress : List (Admission D × ℕ)) (coverage : List (ℕ × CaptureSource D))
    (log : Log D) : Log D :=
  log.updateCohort fun c => { c with
    covered := c.covered ++ coverage.map Prod.fst
    ended := if allComplete progress then some .readyCustody else c.ended }

/-- Move member cursors over what ready artifacts hold; `none` when that completes the cohort. -/
def advanceTypedReadyCustody (cohort : Cohort D) (admissions : List (Admission D)) :
    PubM D (Option (Cohort D × List (Admission D))) := do
  let db ← readDb
  match admissions.mapM (typedReadyPrefix codec db.sources (custody db.ledger)) with
  | .error (.admissionConflict id _) =>
    failStop ("accepted v2 cohort custody conflicts for source " ++ toString id)
  | .error e => throw e
  | .ok cursors => do
    requireTypedAdmissionsCurrent admissions
    let progress := admissions.zip cursors
    if progress.all fun p => p.2 = p.1.cursor then return some (cohort, admissions)
    else
      let coverage ← fromExcept (typedCoverageProposals db.sources progress)
      refuseIf (db.cohort.map (fun c => (c.lifecycle, c.cursor)) ≠ some (.accepted, cohort.cursor))
        (Failure.refused "typed cohort changed before custody commit")
      transact (custodyCommit cohort progress coverage) (custodyLog progress coverage)
      if allComplete progress then return none
      else return some ({ cohort with members := withCursors cohort.members cursors },
        progress.map fun p => { p.1 with cursor := p.2 })

/-- The transaction that reserves an order and stores a stage intent with its proof. -/
def reservation (cohort : Cohort D) (stage : Stage D) (proof : ReplayProof D) (db : Db D) : Db D :=
  { db with
    cohort := some { cohort with lifecycle := .staging }
    stage := some stage
    ledger := { db.ledger with
      proofs := db.ledger.proofs.put stage.artifactId proof
      nextPublicOrder := db.ledger.nextPublicOrder + 1 } }

def reserveV2Stage (cohort : Cohort D) (g : PreparedGroup D) : PubM D (Stage D) := do
  let db ← readDb
  let order := db.ledger.nextPublicOrder
  refuseIf (order = uint64Max) (Failure.refused "v2 publication order is exhausted")
  refuseIf (db.stage.isSome = true) (Failure.refused "another publication stage is active")
  refuseIf (db.cohort.map (fun c => (c.lifecycle, c.cursor)) ≠ some (.accepted, cohort.cursor))
    (Failure.refused "v2 cohort changed before stage intent")
  let artifactId ← nextArtifactId
  let stage := stageOf codec g artifactId order cohort.cursor
  let proof ← fromExcept (stageProof codec g order stage.manifestSha256)
  refuseIf ((db.ledger.proofs.get artifactId).isSome = true)
    (Failure.refused "v2 stage intent was rolled back")
  transact (reservation cohort stage proof) id
  return stage

def stageDirectory (stage : Stage D) : Directory D :=
  ⟨some stage.audioSha256, some stage.manifestSha256, false⟩

/-- `_latch_v2_durability_failure`: the stage is blocked from now on. -/
def latchV2DurabilityFailure : PubM D Unit := do
  transact (fun db => { db with stage := db.stage.map fun s => { s with failed := true } }) id
  throw (.refused "v2 stage is blocked by a recorded durability I/O failure")

/-- Writes and syncs of the ready directory; a durability failure of one is recorded. -/
def syncOrLatch : PubM D Unit := do
  if ← durabilityFailure then latchV2DurabilityFailure

/-- Write the artifact under its hidden name and rename it; an existing one must be the same. -/
def materializeV2Stage (stage : Stage D) : PubM D Unit := do
  let db ← readDb
  match db.ledger.directories.get stage.artifactId with
  | some existing =>
    refuseIf (existing ≠ stageDirectory stage) (Failure.refused "v2 ready artifact changed")
  | none => do
    syncOrLatch
    transact (fun db => { db with ledger := { db.ledger with
      directories := db.ledger.directories.put stage.artifactId (stageDirectory stage) } }) id
  -- the artifact is in place, and syncing its directory or reading it back may still fail
  syncOrLatch

def requireV2StagingProof (stage : Stage D) (g : PreparedGroup D) : PubM D (ReplayProof D) := do
  let db ← readDb
  let proof ← fromExcept (stageProof codec g stage.order stage.manifestSha256)
  refuseIf (db.ledger.proofs.get stage.artifactId ≠ some proof)
    (Failure.failStop "v2 staging replay proof root is corrupt")
  return proof

/-- The transaction that commits a stage. -/
def stageCommit (cohort : Cohort D) (stage : Stage D) (g : PreparedGroup D)
    (proof : ReplayProof D) (progress : List (Admission D × ℕ))
    (coverage : List (ℕ × CaptureSource D)) (db : Db D) : Db D :=
  { db with
    sources := applyTypedCoverage db.sources coverage
    cohort := if allComplete progress then none
      else some { cohort with
        lifecycle := .accepted
        cursor := cohort.cursor + 1
        members := withCursors cohort.members (progress.map Prod.snd) }
    stage := none
    ledger := { db.ledger with
      entries := db.ledger.entries.put stage.artifactId (v2LedgerEntry codec g stage proof.recordsSha256)
      proofs := db.ledger.proofs.put stage.artifactId { proof with lifecycle := .active }
      readyFrontier := max db.ledger.readyFrontier g.facts.nextSequence
      v2Frontier := some g.finalFrontier } }

def stageCommitLog (stage : Stage D) (g : PreparedGroup D) (progress : List (Admission D × ℕ))
    (coverage : List (ℕ × CaptureSource D)) (log : Log D) : Log D :=
  { log.updateCohort fun c => { c with
      groups := c.groups ++ [entriesOf g.slices]
      covered := c.covered ++ coverage.map Prod.fst
      ended := if allComplete progress then some .stageCommit else c.ended } with
    committed := log.committed ++ [(stage.artifactId, entriesOf g.slices)] }

/-- `_publish_v2_stage`: materialize, authenticate what is published, and commit. -/
def publishV2Stage (cohort : Cohort D) (admissions : List (Admission D)) (stage : Stage D)
    (g : PreparedGroup D) : PubM D D := do
  materializeV2Stage stage
  let proof ← requireV2StagingProof codec stage g
  authenticate (some stage.artifactId)
  let db ← readDb
  let progress := admissions.map fun a => (a, typedMemberProgress g.facts a)
  let coverage ← fromExcept (typedCoverageProposals db.sources progress)
  refuseIf (db.cohort.map (fun c => (c.lifecycle, c.cursor)) ≠ some (.staging, cohort.cursor))
    (Failure.refused "v2 cohort changed before final commit")
  refuseIf (db.stage ≠ some stage) (Failure.refused "v2 stage ownership changed before final commit")
  refuseIf ((db.ledger.entries.get stage.artifactId).isSome = true)
    (Failure.refused "v2 artifact identity already exists in the publication ledger")
  transact (stageCommit codec cohort stage g proof progress coverage)
    (stageCommitLog stage g progress coverage)
  return stage.artifactId

/-- The rounds of `_resume_v2_cohort` on groups that are in memory. -/
def publishGroups (clock : ClockState) : List (List (Slice D)) → PubM D (List D)
  | [] => do
    match ← nextRound with
    | none => return []
    | some _ => failStop "accepted v2 cohort has no unique source slices"
  | group :: rest => do
    match ← nextRound with
    | none => return []
    | some (cohort, admissions) =>
      let slices ← fromExcept (rebindTypedSlices group admissions)
      let g ← fromExcept (prepareV2Group codec slices clock (← readDb).ledger.v2Frontier)
      let stage ← reserveV2Stage codec cohort g
      let id ← publishV2Stage codec cohort admissions stage g
      let more ← publishGroups clock rest
      return id :: more
where
  nextRound : PubM D (Option (Cohort D × List (Admission D))) := do
    match ← loadActiveTypedCohort with
    | none => return none
    | some (cohort, admissions) =>
      refuseIf (cohort.lifecycle ≠ .accepted)
        (Failure.refused "v2 publication cohort lifecycle is invalid")
      requireTypedAdmissionsCurrent admissions
      authenticate none
      advanceTypedReadyCustody codec cohort admissions

/-- Publish an accepted cohort: its unique slices, their groups, and one round for each. -/
def publishAccepted (clock : ClockState) (prepared : Option (List (Slice D))) : PubM D (List D) := do
  match ← loadActiveTypedCohort with
  | none => return []
  | some (_, admissions) =>
    requireTypedAdmissionsCurrent admissions
    authenticate none
    let slices ← acceptedTypedSlices admissions
    let db ← readDb
    fromExcept (requireSlicesAfterV2Frontier slices db.ledger.v2Frontier)
    publishGroups codec clock (v2PhysicalGroups codec slices)
where
  acceptedTypedSlices (admissions : List (Admission D)) : PubM D (List (Slice D)) := do
    match prepared with
    | some slices => return slices
    | none =>
      let db ← readDb
      match normalizeTypedAdmissions codec db.sources (custody db.ledger) admissions with
      | .error (.admissionConflict id _) =>
        failStop ("accepted v2 cohort normalization conflicts for source " ++ toString id)
      | .error e => throw e
      | .ok slices => return slices

/-- `_resume_v2_cohort`: a reserved stage is published first, then the rest of the cohort. -/
def resumeV2Cohort (clock : ClockState) (prepared : Option (List (Slice D))) : PubM D (List D) := do
  match ← loadActiveTypedCohort with
  | none => return []
  | some (cohort, admissions) =>
    requireTypedAdmissionsCurrent admissions
    if cohort.lifecycle = .staging then
      let db ← readDb
      let stage ← requireSome db.stage
        (Failure.refused "STAGING cohort does not own exactly one v2 stage intent")
      let g ← fromExcept (loadV2Stage codec db.sources admissions cohort.cursor stage)
      let _ ← requireV2StagingProof codec stage g
      if g.initialFrontier ≠ db.ledger.v2Frontier then
        failStop "v2 stage frontier differs from committed frontier"
      fromExcept (requireSlicesAfterV2Frontier g.slices g.initialFrontier)
      authenticate (some stage.artifactId)
      let id ← publishV2Stage codec cohort admissions stage g
      let more ← publishAccepted codec clock none
      return id :: more
    else publishAccepted codec clock prepared

/-- Quarantine a source that contradicts published audio. -/
def blockTypedCustodyConflict (a : Admission D) : PubM D Unit := do
  let db ← readDb
  let row ← requireSome (db.sources.get a.sourceId) (Failure.refused "typed conflict source disappeared")
  refuseIf (row.source.sourceType ≠ a.snapshot.sourceType ∨
      row.source.lifecycle ≠ a.admittedLifecycle ∨
      row.source.committedCount ≠ a.snapshot.committedCount ∨
      row.source.committedSha256 ≠ a.snapshot.committedSha256 ∨
      row.source.closureFrontier ≠ a.snapshot.closureFrontier)
    (Failure.refused "typed conflict source changed before disposition")
  let decision := transition (some row.source.lifecycle) (.authenticatedConflict true)
  refuseIf (decision.action ≠ .block ∨ decision.nextPhase ≠ some .blocked)
    (Failure.refused "capture source FSM refused AuthenticatedConflict")
  transact (fun db => { db with sources := db.sources.adjust a.sourceId fun row =>
    { row with source := conflictDisposition row.source } }) id

/-- Cover every admission that published artifacts hold whole, and keep the others. -/
def coverTypedFullReplays : List (Admission D) → PubM D (List (Admission D))
  | [] => return []
  | a :: rest => do
    let db ← readDb
    match typedFullReadyProofs codec db.sources a (custody db.ledger) with
    | .error (.admissionConflict id message) =>
      blockTypedCustodyConflict a
      throw (.admissionConflict id message)
    | .error e => throw e
    | .ok true =>
      let proposal ← fromExcept (typedCoverageProposal db.sources a)
      transact (fun db => { db with sources := applyTypedCoverage db.sources [proposal] }) id
      coverTypedFullReplays rest
    | .ok false =>
      let remaining ← coverTypedFullReplays rest
      return a :: remaining

/-- What a publication call reports: the artifacts it published and whether anything admissible
may be left at its frontier. -/
structure Outcome (D : Type) where
  published : List D
  remainingAtFrontier : Bool

structure Options where
  threshold : ℕ
  clock : ClockState
  frontier : Option ℕ
  drained : Bool

/-- The transaction that accepts a cohort. -/
def acceptance (o : Options) (admissions : List (Admission D)) (db : Db D) : Db D :=
  { db with cohort := some ⟨.accepted, o.threshold, o.frontier, 0, admissions.map memberOf⟩ }

def acceptanceLog (admissions : List (Admission D)) (slices : List (Slice D)) (log : Log D) : Log D :=
  { log with cohorts := ⟨admissions.map memberOf, entriesOf slices, [], [], none⟩ :: log.cohorts }

/-- Normalize the admissions; a source in conflict is quarantined before the call fails. -/
def normalizeOrBlock (admissions : List (Admission D)) : PubM D (List (Slice D)) := do
  let db ← readDb
  match normalizeTypedAdmissions codec db.sources (custody db.ledger) admissions with
  | .error (.admissionConflict id message) =>
    match admissions.find? fun a => a.sourceId = id with
    | none => throw .crashed
    | some a =>
      blockTypedCustodyConflict a
      throw (.admissionConflict id message)
  | .error e => throw e
  | .ok slices => return slices

def storeWait (wait : NormalizedWait D) (db : Db D) : Db D := { db with normalizedWait := some wait }

def storeSummaries (fresh : List (ℕ × Fingerprint D × ℕ)) (db : Db D) : Db D :=
  { db with summaries := fresh.foldl (fun t item => t.put item.1 item.2) db.summaries }

/-- Look for a cohort among the admissions: `none` when one was accepted, with its unique slices,
and otherwise whether admissions are left waiting. -/
def qualifyCohort (o : Options) (key : WaitKey D) (admissions : List (Admission D)) :
    PubM D (Bool ⊕ List (Slice D)) := do
  let db ← readDb
  let summary ← fromExcept (disjointPacketSummary codec db admissions)
  match summary with
  | some (packets, fresh) =>
    if packets < o.threshold then
      if fresh ≠ [] then
        transact (storeSummaries fresh) id
      return .inl (decide (admissions ≠ []))
    else accept
  | none => accept
where
  accept : PubM D (Bool ⊕ List (Slice D)) := do
    let slices ← normalizeOrBlock codec admissions
    let db ← readDb
    fromExcept (requireSlicesAfterV2Frontier slices db.ledger.v2Frontier)
    let packets := groupPackets codec slices
    if slices = [] ∨ packets < o.threshold then
      transact (storeWait ⟨key, decide (admissions ≠ []), packets, o.threshold⟩) id
      return .inl (decide (admissions ≠ []))
    else
      refuseIf (db.cohort.isSome = true) (Failure.refused "another typed publication cohort is active")
      transact (acceptance o admissions) (acceptanceLog admissions slices)
      return .inr slices

/-- `_finalize_public_audio_v2`. -/
def finalizePublicAudioV2 (o : Options) : PubM D (Outcome D) := do
  refuseIf (o.drained = true ∧ o.frontier = none)
    (Failure.refused "a drained typed publication requires its durable frontier")
  match ← loadActiveTypedCohort with
  | some _ =>
    let published ← resumeV2Cohort codec o.clock none
    return ⟨published, decide (published = [])⟩
  | none =>
    authenticate none
    let db ← readDb
    let admissions ← fromExcept (typedSourceAdmissions db.sources o.frontier)
    if o.drained = false then return ⟨[], decide (admissions ≠ [])⟩
    else
      let key := normalizedWaitKey db.ledger admissions o.threshold
      match cachedNormalizedWait db key o.threshold with
      | some remaining => return ⟨[], remaining⟩
      | none =>
        let admissions ← coverTypedFullReplays codec admissions
        requireTypedAdmissionsCurrent admissions
        match ← qualifyCohort codec o key admissions with
        | .inl remaining => return ⟨[], remaining⟩
        | .inr slices =>
          let published ← resumeV2Cohort codec o.clock (some slices)
          return ⟨published, decide (published = [])⟩

/-- Run a computation of the acknowledgement model on the ledger. -/
def liftAck {α : Type} (x : AckRetirement.AckM D α) : PubM D α := do
  let w ← get
  let ack : AckRetirement.World D := ⟨w.db.ledger, false, [], w.manifestFirst, w.steps⟩
  match exec x ack with
  | (result, ack') =>
    set { w with db := { w.db with ledger := ack'.ledger }, steps := ack'.steps }
    match result with
    | .ok a => return a
    | .error .crashed => throw .crashed
    | .error (.raised message) => throw (.refused message)

/-- What one call of `_recover_and_publish_unlocked` meets. -/
structure Call (D : Type) where
  threshold : ℕ
  clock : ClockState
  checkpoint : AckRetirement.Checkpoint D
  artifactIds : List D
  durabilityFailures : List Bool
  manifestFirst : Bool
  steps : Option ℕ

/-- `except ReadyBundleError`: a refused publication is a blocked outcome. -/
def blockedOnRefusal (x : PubM D (Outcome D)) : PubM D (Outcome D) :=
  tryCatch x fun e =>
    match e with
    | .refused _ | .admissionConflict _ _ => return ⟨[], true⟩
    | e => throw e

def coalesceClosures : PubM D (Option ReadyClosure) := do
  let db ← readDb
  if 1 < db.closures.length then
    transact (fun db => { db with closures := db.closures.getLast?.toList }) id
  return db.closures.getLast?

def ensureRecovery : PubM D Unit := do
  if (← get).retiredRecoveryDone = false then
    liftAck AckRetirement.resumeRetiredPublicAudioV2
    modify fun w => { w with retiredRecoveryDone := true }

/-- `_recover_and_publish_unlocked`. -/
def recoverAndPublish (c : Call D) : PubM D (Outcome D) := do
  ensureRecovery
  let acknowledged ← fromExcept
    ((AckRetirement.acknowledgedPublicAudioV2 c.checkpoint).mapError .refused)
  let _ ← fromExcept ((AckRetirement.requireV2AcknowledgementMetadata (← readDb).ledger []
    acknowledged).mapError .refused)
  let closure ← coalesceClosures
  let outcome ← blockedOnRefusal (finalizePublicAudioV2 codec
    ⟨c.threshold, c.clock, closure.map (·.nextSequence),
      closure.any fun closure => closure.reason = "drained"⟩)
  if closure.isSome = true ∧ outcome.remainingAtFrontier = false then
    transact (fun db => { db with closures := db.closures.tail }) id
  return outcome

/-- `ORDER BY retirement_cursor = committed_count, source_id`. -/
def retiresBefore (a b : ℕ × SourceRow D) : Prop :=
  let done := fun r : ℕ × SourceRow D => r.2.source.retirementCursor = some r.2.source.committedCount
  (¬ done a ∧ done b) ∨ ((done a ↔ done b) ∧ a.1 ≤ b.1)

instance (a b : ℕ × SourceRow D) : Decidable (retiresBefore a b) :=
  inferInstanceAs (Decidable (_ ∨ _))

def cohortSources (db : Db D) : List ℕ :=
  (db.cohort.toList.flatMap (·.members)).map (·.sourceId)

/-- A retiring source that no cohort holds, with rows left or nothing else beside it. -/
def canRetire (db : Db D) (r : ℕ × SourceRow D) : Prop :=
  r.2.source.lifecycle = .retiring ∧ r.1 ∉ cohortSources db ∧
    ∃ cursor ∈ r.2.source.retirementCursor, cursor < r.2.source.committedCount ∨
      (cursor = r.2.source.committedCount ∧ r.2.residue = false)

instance (db : Db D) (r : ℕ × SourceRow D) : Decidable (canRetire db r) :=
  inferInstanceAs (Decidable (_ ∧ _ ∧ _))

def retirementCandidate (db : Db D) : Option (ℕ × SourceRow D) :=
  ((db.sources.rows.filter (canRetire db ·)).insertionSort retiresBefore).head?

/-- The transaction that deletes one page of covered rows. -/
def retirePage (id cursor stop : ℕ) (db : Db D) : Db D :=
  { db with sources := db.sources.adjust id fun row => { row with
      records := row.records.filter fun r => ¬ (cursor ≤ r.ordinal ∧ r.ordinal < stop)
      source := { row.source with retirementCursor := some stop } } }

def retirePageLog (row : SourceRow D) (cursor stop : ℕ) (log : Log D) : Log D :=
  { log with deleted := log.deleted ++
      (row.records.filter fun r => cursor ≤ r.ordinal ∧ r.ordinal < stop).map fun r =>
        (row.source.sequenceStart + r.ordinal, r.rawBytes) }

def finishRetirement (id : ℕ) (db : Db D) : Db D :=
  { db with sources := db.sources.delete id, summaries := db.summaries.delete id }

/-- `retire_one_covered_typed_source`. -/
def retireOneCoveredTypedSource (pageLimit : ℕ) : PubM D Bool := do
  refuseIf (pageLimit = 0 ∨ maxChunkLimit < pageLimit)
    (Failure.refused "typed retirement page limit is invalid")
  let db ← readDb
  match retirementCandidate db with
  | none => return false
  | some (id, row) =>
    let cursor := row.source.retirementCursor.getD 0
    if row.source.coverageDigest ≠ some row.source.committedSha256 ∨
        row.source.committedCount < cursor then
      failStop "typed retirement coverage proof is invalid"
    let ordinals := (((row.records.filter fun r => cursor ≤ r.ordinal).map
      (·.ordinal)).insertionSort (· ≤ ·)).take pageLimit
    refuseIf (∃ r ∈ row.records, r.ordinal < cursor)
      (Failure.refused "typed retirement cursor does not match retained rows")
    if ordinals = [] then
      refuseIf (cursor ≠ row.source.committedCount)
        (Failure.refused "typed retirement rows ended before coverage")
      if row.residue = true ∨ id ∈ cohortSources db then return false
      else
        transact (finishRetirement id) (fun log => log)
        return true
    else
      refuseIf (ordinals ≠ List.range' cursor ordinals.length)
        (Failure.refused "typed retirement rows are not contiguous")
      let stop := cursor + ordinals.length
      refuseIf (stop ≠ min row.source.committedCount (cursor + pageLimit))
        (Failure.refused "typed retirement page does not match its bounded prefix")
      transact (retirePage id cursor stop) (retirePageLog row cursor stop)
      return true

/-- A source as the capture store leaves it: complete rows with their digest, and no coverage. -/
structure CapturedRow (codec : Codec D) (row : SourceRow D) : Prop where
  ordinals : row.records.map (·.ordinal) = List.range row.source.committedCount
  records : ∀ r ∈ row.records, r.Valid
  digest : row.source.committedSha256 = codec.sha256 (rawLog row.records)
  uncovered : row.source.lifecycle ≠ .covered ∧ row.source.lifecycle ≠ .retiring
  cursor : row.source.retirementCursor = none

instance (row : SourceRow D) : Decidable (CapturedRow codec row) :=
  decidable_of_iff (row.records.map (·.ordinal) = List.range row.source.committedCount ∧
      (∀ r ∈ row.records, r.Valid) ∧
      row.source.committedSha256 = codec.sha256 (rawLog row.records) ∧
      (row.source.lifecycle ≠ .covered ∧ row.source.lifecycle ≠ .retiring) ∧
      row.source.retirementCursor = none)
    ⟨fun h => ⟨h.1, h.2.1, h.2.2.1, h.2.2.2.1, h.2.2.2.2⟩,
      fun h => ⟨h.ordinals, h.records, h.digest, h.uncovered, h.cursor⟩⟩

/-- What lasts between calls. -/
structure Process (D : Type) where
  db : Db D
  log : Log D
  retiredRecoveryDone : Bool

inductive Action (D : Type) where
  | publish (c : Call D)
  | acknowledge (c : AckRetirement.Call D)
  | retireRaw (pageLimit : ℕ) (steps : Option ℕ)
  | capture (id : ℕ) (row : SourceRow D)
  | closeVisit (closure : ReadyClosure)

/-- `append` of the closure queue: only the newest watermark is kept. -/
def appendClosure (closures : List ReadyClosure) (closure : ReadyClosure) : List ReadyClosure :=
  match closures.getLast? with
  | none => [closure]
  | some last =>
    if closure.nextSequence < last.nextSequence then closures
    else if closure.nextSequence = last.nextSequence ∧
        (last.reason = "drained" ∨ closure.reason ≠ "drained") then [last]
    else [closure]

def Process.world (p : Process D) (c : Call D) : World D :=
  ⟨p.db, p.log, c.artifactIds, c.durabilityFailures, c.manifestFirst, p.retiredRecoveryDone, c.steps⟩

/-- A stopped process is replaced by one that has yet to finish its removals. -/
def afterCall {α : Type} : Except Failure α × World D → Process D
  | (.error .crashed, w) => ⟨w.db, w.log, false⟩
  | (_, w) => ⟨w.db, w.log, w.retiredRecoveryDone⟩

def step (p : Process D) : Action D → Process D
  | .publish c => afterCall (exec (recoverAndPublish codec c) (p.world c))
  | .acknowledge c =>
    let ack := AckRetirement.callStep ⟨p.db.ledger, p.retiredRecoveryDone⟩ c
    ⟨{ p.db with ledger := ack.ledger }, p.log, ack.retiredRecoveryDone⟩
  | .retireRaw pageLimit steps => afterCall (exec (retireOneCoveredTypedSource pageLimit)
      ⟨p.db, p.log, [], [], false, p.retiredRecoveryDone, steps⟩)
  | .capture id row =>
    if id ∈ p.log.captured ∨ ¬ CapturedRow codec row then p
    else ⟨{ p.db with sources := p.db.sources.put id row },
      { p.log with captured := id :: p.log.captured }, p.retiredRecoveryDone⟩
  | .closeVisit closure =>
    ⟨{ p.db with closures := appendClosure p.db.closures closure }, p.log, p.retiredRecoveryDone⟩

end PublicationMachine
