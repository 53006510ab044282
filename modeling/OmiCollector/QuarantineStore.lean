import OmiCollector.AudioMachine
import OmiCollector.CaptureStore
import OmiCollector.DecimalText
import OmiCollector.KeyedTable
import OmiCollector.RefusalLogic
import Mathlib.Data.Prod.Lex
import Mathlib.Order.Lattice

/-! Quarantined capture sources in the collector database and the transactions of the
quarantine adapter over them: admission of active attempts into quarantine, certification of a
prefix, terminal classification, custody holds and the bounded retention sweep. A transaction
either commits or leaves the tables as they were. Wall-clock readings, the retention and the
answers of the deferral callback are arguments of the calls that take them. -/
namespace QuarantineStore

open AudioMachine ByteCodec CaptureModel DecimalText KeyedTable RefusalLogic

/-- One `capture_source` row: the checkpoint columns and the quarantine columns. -/
structure SourceRow (D : Type) where
  sourceType : SourceType
  lifecycle : AudioPhase
  sequenceStart : ℕ
  sequenceLimit : ℕ
  committedCount : ℕ
  committedSha256 : D
  closureFrontier : Option ℕ
  blockReason : Option String
  quarantineDisposition : Option QuarantineDisposition
  quarantineOpaque : Option Bool
  terminalReason : Option String
  terminalTime : Option Text
  retentionDeadline : Option Text
  certifiedPrefixCount : Option ℕ
  coverageDigest : Option D
  retirementCursor : Option ℕ
  deriving DecidableEq

/-- The payload columns of one `capture_record` row; source and ordinal are its key. -/
structure RecordRow where
  deviceTimestamp : ℕ
  payload : Bytes
  deriving DecidableEq

/-- One `capture_evidence` row. A row without a source has a retention clock of its own. -/
structure EvidenceRow (ι : Type) where
  sourceId : Option ι
  disposition : Option QuarantineDisposition
  terminalReason : Option String
  terminalTime : Option Text
  retentionDeadline : Option Text
  deriving DecidableEq

/-- One `publication_cohort_member` row of the active cohort. -/
structure MemberRow (ι D : Type) where
  memberOrdinal : ℕ
  sourceId : ι
  sliceStart : ℕ
  sliceCount : ℕ
  admittedLifecycle : AudioPhase
  admittedCount : ℕ
  admittedSha256 : D
  cursor : ℕ
  deriving DecidableEq

structure Database (ι ε D : Type) where
  sources : Table ι (SourceRow D)
  records : Table (ι × ℕ) RecordRow
  tails : Table ι CaptureTail
  conflicts : Table (ι × ℕ) CaptureConflict
  evidence : Table ε (EvidenceRow ι)
  evidenceChunks : Table (ε × ℕ) Bytes
  cohortMembers : List (MemberRow ι D)
  stageRanges : List ι
  v2StageRanges : List ι
  packetSummaries : List ι

inductive ErrorKind where
  | attemptState
  | quarantinePublish
  | quarantineCustodyHold
  | quarantineSalvageDeferred
  | staging
  | readyBundle
  | value
  | overflow
  | assertion
  deriving DecidableEq, Repr

structure Failure where
  kind : ErrorKind
  message : String
  deriving DecidableEq, Repr

def custodyHeld (blockReason : Option String) : Bool :=
  decide (blockReason ∈ [some "ready_overlap_conflict", some "source_authentication_mismatch"])

section Tables

variable {ι ε D : Type} [LinearOrder ι] [LinearOrder ε] [DecidableEq D]

abbrev Transaction (ι ε D α : Type) := Refusable (Database ι ε D) Failure α

/-- Run one transaction: a refusal rolls every change back. -/
def commit {α : Type} (x : Transaction ι ε D α) (db : Database ι ε D) :
    Except Failure α × Database ι ε D :=
  match exec x db with
  | (.ok a, next) => (.ok a, next)
  | (.error e, _) => (.error e, db)

namespace Database

variable (db : Database ι ε D)

def hasRecords (id : ι) : Bool := db.records.rows.any (fun r => r.1.1 = id)

def hasTail (id : ι) : Bool := db.tails.rows.any (fun r => r.1 = id)

def hasConflict (id : ι) : Bool := db.conflicts.rows.any (fun r => r.1.1 = id)

def hasEvidence (id : ι) : Bool := db.evidence.rows.any (fun r => r.2.sourceId = some id)

/-- The source an evidence row is linked to. -/
def evidenceSource (eid : ε) : Option ι := (db.evidence.get eid).bind (·.sourceId)

def hasChunks (eid : ε) : Bool := db.evidenceChunks.rows.any (fun r => r.1.1 = eid)

def cohortReferenced (id : ι) : Bool := db.cohortMembers.any (fun m => m.sourceId = id)

def stageReferenced (id : ι) : Bool :=
  db.stageRanges.any (fun r => r = id) || db.v2StageRanges.any (fun r => r = id)

/-- Rows of the tables that a sweep deletes from. -/
def rowCount : ℕ :=
  db.sources.rows.length + db.records.rows.length + db.tails.rows.length +
    db.conflicts.rows.length + db.evidence.rows.length + db.evidenceChunks.rows.length

/-- The records of one source in ordinal order. -/
def recordsOf (id : ι) : List CaptureRecord :=
  ((db.records.rows.filter (fun r => r.1.1 = id)).map
    (fun r => ⟨r.1.2, r.2.deviceTimestamp, r.2.payload⟩)).insertionSort
      (fun a b => a.ordinal ≤ b.ordinal)

end Database

/-- An `UPDATE` of one source row that must change exactly one row. -/
def updateSource (id : ι) (matching : SourceRow D → Bool) (change : SourceRow D → SourceRow D)
    (error : Failure) : Transaction ι ε D PUnit := do
  let row ← requireSome ((← get).sources.get id) error
  refuseIf (matching row = false) error
  modify (fun db => { db with sources := db.sources.adjust id change })

/-- Block one exact active attempt snapshot without rewriting terminal rows. -/
def typedQuarantineRow (id : ι) (lifecycle : AudioPhase) (reason : String) (now retention : ℤ) :
    Transaction ι ε D PUnit := do
  let decision := transition (some lifecycle) (.authenticatedConflict true)
  refuseIf (decision.action ≠ .block ∨ decision.nextPhase ≠ some .blocked)
    ⟨.attemptState, decision.reason⟩
  let db ← get
  let changed : Failure :=
    ⟨.attemptState, "typed attempt changed before quarantine classification"⟩
  let row ← requireSome (db.sources.get id) changed
  refuseIf (row.sourceType ≠ .attempt ∨ row.lifecycle ≠ lifecycle) changed
  let conflict := classifyConflict row.committedCount (db.hasRecords id) reason
  let classification := conflict.classification
  refuseIf (classification.action ∉ [QuarantineAction.keep, .markUnprocessable])
    ⟨.attemptState, classification.reason⟩
  let disposition ← requireSome classification.nextDisposition ⟨.assertion, ""⟩
  let terminal : Bool := classification.action = .markUnprocessable
  updateSource id (fun row => row.sourceType = .attempt && row.lifecycle = lifecycle)
    (fun row =>
      { row with
        sourceType := .quarantine
        lifecycle := .blocked
        blockReason := some conflict.blockReason
        quarantineDisposition := some disposition
        quarantineOpaque := some false
        terminalReason :=
          if terminal then some "quarantine contains no canonical records" else none
        terminalTime := if terminal then some (ofInt now) else none
        retentionDeadline := if terminal then some (ofInt (now + retention)) else none
        certifiedPrefixCount := none
        coverageDigest := none })
    ⟨.attemptState, "typed attempt changed during quarantine admission"⟩

def activeLifecycle (lifecycle : AudioPhase) : Bool :=
  decide (lifecycle ∈ [AudioPhase.prepared, .legPrepared, .receiving, .interrupted])

/-- The active attempts in source order, with the lifecycle each was selected with. -/
def activeAttempts (db : Database ι ε D) : List (ι × AudioPhase) :=
  (db.sources.first (fun r => r.2.sourceType = .attempt && activeLifecycle r.2.lifecycle) id
    db.sources.rows.length).filterMap
      (fun id => (db.sources.get id).map (fun row => (id, row.lifecycle)))

def quarantineRows (reason : String) (clock : ι → ℤ) (retention : ℤ) :
    List (ι × AudioPhase) → Transaction ι ε D PUnit
  | [] => pure ⟨⟩
  | (id, lifecycle) :: rest => do
    typedQuarantineRow id lifecycle reason (clock id) retention
    quarantineRows reason clock retention rest

/-- Move active typed attempts into durable quarantine custody. The clock is read for each
terminal row. -/
def quarantinePending (reason : String) (clock : ι → ℤ) (retention : ℤ) :
    Transaction ι ε D (List ι) := do
  refuseIf (reason.toList.all isSpace = true)
    ⟨.attemptState, "quarantine reason must be a non-empty string"⟩
  let rows := activeAttempts (← get)
  quarantineRows reason clock retention rows
  return rows.map Prod.fst

/-- Move one preserved typed attempt into quarantine custody. -/
def quarantineAttemptSource (id : ι) (now retention : ℤ) : Transaction ι ε D ι := do
  let row ← requireSome ((← get).sources.get id)
    ⟨.attemptState, "typed quarantine source does not exist"⟩
  if row.sourceType = .quarantine ∧ row.lifecycle = .blocked then return id
  else
    refuseIf (row.sourceType ≠ .attempt)
      ⟨.attemptState, "typed quarantine source is not an attempt"⟩
    refuseIf (activeLifecycle row.lifecycle = false)
      ⟨.attemptState, "attempt source is not an active partial"⟩
    typedQuarantineRow id row.lifecycle "attempt source preserved" now retention
    return id

/-- Seal one closed prefix publication, or quarantine it when it is empty or leaves residual
evidence behind. -/
def terminalizePrefixAttempt (id : ι) (now retention : ℤ) : Transaction ι ε D PUnit := do
  let db ← get
  let missing : Failure := ⟨.attemptState, "typed prefix source does not exist"⟩
  let row ← requireSome (db.sources.get id) missing
  refuseIf (row.sourceType ≠ .attempt) missing
  let decision := transition (some row.lifecycle) (.terminalPrefix true)
  if decision.action = .idempotent then return ⟨⟩
  else
    refuseIf (decision.action ≠ .persist ∨ decision.nextPhase ≠ some .sealedWaiting)
      ⟨.attemptState, decision.reason⟩
    if row.committedCount = 0 ∨
        (db.hasTail id || db.hasConflict id || db.hasEvidence id) = true then
      typedQuarantineRow id row.lifecycle "terminal prefix residual" now retention
    else
      updateSource id
        (fun current => current.sourceType = .attempt && current.lifecycle = row.lifecycle)
        (fun current =>
          { current with lifecycle := .sealedWaiting, terminalTime := some (ofInt now) })
        ⟨.attemptState, "typed prefix source changed during terminalization"⟩

/-- Terminally classify evidence that cannot authenticate a publishable prefix. -/
def markQuarantineUnprocessable (id : ι) (reason : String) (now retention : ℤ) :
    Transaction ι ε D PUnit := do
  refuseIf (reason = "") ⟨.attemptState, "unprocessable reason must be non-empty"⟩
  let missing : Failure := ⟨.attemptState, "typed quarantine source does not exist"⟩
  let current ← requireSome ((← get).sources.get id) missing
  refuseIf (current.sourceType ≠ .quarantine) missing
  refuseIf (custodyHeld current.blockReason = true)
    ⟨.quarantineCustodyHold, "unresolved custody cannot be terminally classified"⟩
  if current.quarantineDisposition = some .unprocessable then return ⟨⟩
  else
    refuseIf (current.quarantineDisposition ∉ [none, some .unclassified] ∨
        current.lifecycle ∉ [AudioPhase.blocked, .covered, .retiring])
      ⟨.attemptState, "typed quarantine source is not ready for terminal classification"⟩
    let decision := quarantineTransition .unclassified (.markUnprocessable reason false)
    refuseIf (decision.action ≠ .markUnprocessable) ⟨.attemptState, decision.reason⟩
    updateSource id
      (fun row => row.sourceType = .quarantine && row.lifecycle = current.lifecycle &&
        row.quarantineDisposition = some .unclassified && !custodyHeld row.blockReason)
      (fun row =>
        { row with
          quarantineDisposition := some .unprocessable
          terminalReason := some reason
          terminalTime := some (ofInt now)
          retentionDeadline := some (ofInt (now + retention))
          certifiedPrefixCount := none
          coverageDigest := none })
      ⟨.attemptState, "typed quarantine source changed during terminal classification"⟩

/-- A certified SQL prefix admitted to the normal publication scheduler. -/
structure PrefixAdmission (ι D : Type) where
  sourceId : ι
  startSequence : ℕ
  nextSequence : ℕ
  recordCount : ℕ
  rawSha256 : D
  lifecycle : AudioPhase
  deriving DecidableEq

structure AdmissionSnapshot (D : Type) where
  lifecycle : AudioPhase
  startSequence : ℕ
  recordCount : ℕ
  rawSha256 : D
  disposition : Option QuarantineDisposition
  terminalTime : Option Text
  retentionDeadline : Option Text
  certificationConsistent : Bool
  deriving DecidableEq

def typedAdmissionSnapshot (row : SourceRow D) : Except Failure (AdmissionSnapshot D) :=
  if custodyHeld row.blockReason then
    .error ⟨.quarantineCustodyHold,
      "unresolved custody cannot be admitted as a quarantine prefix"⟩
  else if row.quarantineOpaque = some true then
    .error ⟨.quarantinePublish, "opaque typed quarantine evidence cannot be admitted"⟩
  else if row.lifecycle ∉ [AudioPhase.blocked, .covered, .retiring] then
    .error ⟨.quarantinePublish,
      "typed quarantine source is not eligible for prefix admission"⟩
  else if row.quarantineDisposition ∉ [none, some .unclassified, some .publishedPrefix] then
    .error ⟨.quarantinePublish, "typed quarantine source is already terminally unprocessable"⟩
  else
    .ok
      { lifecycle := row.lifecycle
        startSequence := row.sequenceStart
        recordCount := row.committedCount
        rawSha256 := row.committedSha256
        disposition := row.quarantineDisposition
        terminalTime := row.terminalTime
        retentionDeadline := row.retentionDeadline
        certificationConsistent :=
          decide (row.certifiedPrefixCount ∈ [none, some row.committedCount] ∧
            row.coverageDigest ∈ [none, some row.committedSha256]) }

def readTypedAdmissionSnapshot (db : Database ι ε D) (id : ι) :
    Except Failure (AdmissionSnapshot D) :=
  match db.sources.get id with
  | none => .error ⟨.quarantinePublish, "typed quarantine source does not exist"⟩
  | some row =>
    if row.sourceType = .quarantine then typedAdmissionSnapshot row
    else .error ⟨.quarantinePublish, "typed quarantine source does not exist"⟩

def quarantineAdmission (id : ι) (snapshot : AdmissionSnapshot D) : PrefixAdmission ι D :=
  ⟨id, snapshot.startSequence, snapshot.startSequence + snapshot.recordCount,
    snapshot.recordCount, snapshot.rawSha256, snapshot.lifecycle⟩

/-- A stored retention clock in order is kept; anything else is replaced. -/
def retentionClockOrDefault (terminalTime retentionDeadline : Option Text)
    (defaultTerminalTime defaultDeadline : Text) : Text × Text :=
  match terminalTime, retentionDeadline with
  | some time, some deadline =>
    match literal time, literal deadline with
    | some t, some d => if 0 ≤ t ∧ t ≤ d then (time, deadline)
        else (defaultTerminalTime, defaultDeadline)
    | _, _ => (defaultTerminalTime, defaultDeadline)
  | _, _ => (defaultTerminalTime, defaultDeadline)

def persistTypedAdmission (id : ι) (snapshot : AdmissionSnapshot D) (now retention : ℤ) :
    Transaction ι ε D PUnit := do
  if snapshot.disposition = some .publishedPrefix then
    refuseIf (snapshot.terminalTime = none ∨ snapshot.retentionDeadline = none)
      ⟨.quarantinePublish, "typed quarantine retention evidence is incomplete"⟩
  else
    let clock := retentionClockOrDefault snapshot.terminalTime snapshot.retentionDeadline
      (ofInt now) (ofInt (now + retention))
    let decision := quarantineTransition .unclassified (.certifiedPrefix true true)
    refuseIf (decision.action ≠ .publishPrefix) ⟨.quarantinePublish, decision.reason⟩
    updateSource id
      (fun row => row.sourceType = .quarantine && row.lifecycle = snapshot.lifecycle &&
        row.quarantineDisposition = some .unclassified && !custodyHeld row.blockReason)
      (fun row =>
        { row with
          certifiedPrefixCount := some snapshot.recordCount
          coverageDigest := some snapshot.rawSha256
          quarantineDisposition := some .publishedPrefix
          terminalReason := none
          terminalTime := some clock.1
          retentionDeadline := some clock.2 })
      ⟨.attemptState, "typed quarantine source changed during prefix admission"⟩

/-- The closing transaction of an admission: the snapshot is read again and must not have
changed, unless another admission already published the prefix. -/
def admitInspected (id : ι) (inspected : AdmissionSnapshot D) (now retention : ℤ) :
    Transaction ι ε D (PrefixAdmission ι D) := do
  let snapshot ← requireOk (readTypedAdmissionSnapshot (← get) id)
  refuseIf (snapshot.disposition ≠ some .publishedPrefix ∧ snapshot ≠ inspected)
    ⟨.attemptState, "typed quarantine source changed during prefix admission"⟩
  persistTypedAdmission id snapshot now retention
  return quarantineAdmission id snapshot

/-- `_SOURCE_HOLD_CHANGES` applied to a row. -/
def sourceHold (row : SourceRow D) : SourceRow D :=
  { row with
    sourceType := .quarantine
    lifecycle := .blocked
    blockReason := some "source_authentication_mismatch"
    quarantineDisposition := some .unclassified
    quarantineOpaque := some false
    terminalReason := none
    terminalTime := none
    retentionDeadline := none
    certifiedPrefixCount := none
    coverageDigest := none
    retirementCursor := none }

def holdSourceAuthenticationMismatch (id : ι) (inspected : AdmissionSnapshot D) :
    Transaction ι ε D PUnit := do
  let current ← requireOk (readTypedAdmissionSnapshot (← get) id)
  refuseIf (current ≠ inspected)
    ⟨.staging, "typed quarantine source changed before integrity hold"⟩
  let before ← requireSome ((← get).sources.get id)
    ⟨.staging, "typed quarantine source vanished before integrity hold"⟩
  let decision := transition (some before.lifecycle) .sourceIntegrityHold
  refuseIf (decision.action ≠ .block ∨ decision.nextPhase ≠ some .blocked)
    ⟨.staging, decision.reason⟩
  updateSource id (fun row => row = before) sourceHold
    ⟨.staging, "typed quarantine source changed during integrity hold"⟩

inductive AuthenticationError where
  | integrity (reason : String)
  | unavailable

/-- Authenticate canonical records against one stable source checkpoint. -/
def authenticateCaptureSource (sha256 : Bytes → D) (db : Database ι ε D) (id : ι)
    (pageLimit : ℕ) : Except AuthenticationError (SourceRow D) :=
  match db.sources.get id with
  | none => .error .unavailable
  | some source =>
    if pageLimit < 1 ∨ maxChunkLimit < pageLimit then .error .unavailable
    else
      let rows := db.recordsOf id
      match CaptureStore.hashPages CaptureStore.authenticatedRecordCheck rows pageLimit
        (rows.length + 1) 0 [] with
      | .error reason => .error (.integrity reason)
      | .ok (count, state) =>
        if count ≠ source.committedCount then
          .error (.integrity "source record count does not match checkpoint")
        else if sha256 state ≠ source.committedSha256 then
          .error (.integrity "source record digest does not match checkpoint")
        else .ok source

/-- What an admission that has read its source still has to do, one transaction at a time. -/
inductive Call (ι D : Type) where
  | authenticate (id : ι) (inspected : AdmissionSnapshot D) (pageLimit : ℕ)
  | hold (id : ι) (inspected : AdmissionSnapshot D)
  | persist (id : ι) (inspected : AdmissionSnapshot D)

/-- The opening read of `admit_quarantined_prefix`: an admitted prefix is returned as it is. -/
def admitQuarantinedPrefix (db : Database ι ε D) (id : ι) (pageLimit : ℕ) (defer : Bool) :
    Except Failure (PrefixAdmission ι D ⊕ Call ι D) :=
  if defer then .error ⟨.quarantineSalvageDeferred, "quarantine admission deferred"⟩
  else
    match readTypedAdmissionSnapshot db id with
    | .error e => .error e
    | .ok inspected =>
      if !inspected.certificationConsistent then .ok (.inr (.hold id inspected))
      else if inspected.disposition = some .publishedPrefix then
        if inspected.terminalTime = none ∨ inspected.retentionDeadline = none then
          .error ⟨.quarantinePublish, "typed quarantine retention evidence is incomplete"⟩
        else .ok (.inl (quarantineAdmission id inspected))
      else .ok (.inr (.authenticate id inspected pageLimit))

/-- The authentication of an inspected source. -/
def requireAuthenticatedAdmission (sha256 : Bytes → D) (db : Database ι ε D) (id : ι)
    (inspected : AdmissionSnapshot D) (pageLimit : ℕ) (defer : Bool) :
    Except Failure (Call ι D) :=
  match authenticateCaptureSource sha256 db id pageLimit with
  | .error (.integrity _) => .ok (.hold id inspected)
  | .error .unavailable =>
    .error ⟨.staging, "typed quarantine prefix authentication is unavailable"⟩
  | .ok source =>
    if source.sourceType ≠ .quarantine ∨ source.lifecycle ≠ inspected.lifecycle ∨
        source.sequenceStart ≠ inspected.startSequence ∨
        source.committedCount ≠ inspected.recordCount ∨
        source.committedSha256 ≠ inspected.rawSha256 then
      .error ⟨.staging, "typed quarantine source changed during prefix authentication"⟩
    else if inspected.recordCount = 0 then
      .error ⟨.quarantinePublish, "typed quarantine source has no canonical prefix"⟩
    else if defer then
      .error ⟨.quarantineSalvageDeferred, "quarantine admission deferred"⟩
    else .ok (.persist id inspected)

/-- A source admitted to publication, with the checkpoint it was admitted at. -/
structure TypedAdmission (ι D : Type) where
  sourceId : ι
  snapshot : SourceRow D
  admittedLifecycle : AudioPhase
  admittedCount : ℕ
  admittedSha256 : D

def validQuarantineRetention (terminalTime retentionDeadline : Option Text) : Bool :=
  match terminalTime.bind literal, retentionDeadline.bind literal with
  | some terminal, some deadline => decide (0 ≤ terminal ∧ terminal ≤ deadline)
  | _, _ => false

def blockedTypedCertification (row : SourceRow D) : Except Failure (Option (ℕ × D)) :=
  if custodyHeld row.blockReason then .ok none
  else if row.sourceType ≠ .quarantine then
    .error ⟨.readyBundle, "blocked typed publication source lacks quarantine custody"⟩
  else if row.quarantineDisposition ∈ [none, some .unclassified, some .unprocessable] then .ok none
  else if !validQuarantineRetention row.terminalTime row.retentionDeadline then
    .error ⟨.readyBundle, "blocked typed publication source retention evidence is incomplete"⟩
  else
    match row.certifiedPrefixCount, row.coverageDigest with
    | some count, some digest =>
      if count = 0 then .ok none
      else if row.committedCount < count then
        .error ⟨.readyBundle, "typed certified prefix exceeds its source"⟩
      else .ok (some (count, digest))
    | _, _ => .ok none

def typedAdmission (id : ι) (row : SourceRow D) : Except Failure (Option (TypedAdmission ι D)) :=
  let admitted : Except Failure (Option (ℕ × D)) :=
    if row.lifecycle = .sealedWaiting then .ok (some (row.committedCount, row.committedSha256))
    else if row.lifecycle = .blocked then blockedTypedCertification row
    else .ok none
  match admitted with
  | .error e => .error e
  | .ok none => .ok none
  | .ok (some (count, digest)) =>
    if count = 0 ∨ row.sequenceLimit < row.sequenceStart + count then
      .error ⟨.readyBundle, "typed publication source checkpoint is invalid"⟩
    else .ok (some ⟨id, row, row.lifecycle, count, digest⟩)

/-- Load the admission of a member of the active cohort. -/
def persistedAdmission (db : Database ι ε D) (expectedOrdinal : ℕ) (member : MemberRow ι D) :
    Except Failure (TypedAdmission ι D) :=
  if member.memberOrdinal ≠ expectedOrdinal ∨ member.sliceStart ≠ 0 ∨
      member.sliceCount ≠ member.admittedCount ∨ member.sliceCount < member.cursor ∨
      member.admittedLifecycle ∉ [AudioPhase.sealedWaiting, .blocked] then
    .error ⟨.readyBundle, "typed publication cohort membership is invalid"⟩
  else
    match db.sources.get member.sourceId with
    | none => .error ⟨.readyBundle, "typed publication cohort source evidence disappeared"⟩
    | some row =>
      let certified : Except Failure (Option (ℕ × D)) :=
        if member.admittedLifecycle = .sealedWaiting then
          .ok (some (row.committedCount, row.committedSha256))
        else blockedTypedCertification row
      match certified with
      | .error e => .error e
      | .ok pair =>
        if pair ≠ some (member.admittedCount, member.admittedSha256) ∨
            row.lifecycle ∉ [member.admittedLifecycle, .covered, .retiring] then
          .error ⟨.readyBundle, "typed publication cohort source identity changed"⟩
        else .ok ⟨member.sourceId, row, member.admittedLifecycle, member.admittedCount,
          member.admittedSha256⟩

/-- The row an unresolved overlap conflict proposes. -/
def overlapHold (row : SourceRow D) : SourceRow D :=
  { row with
    sourceType := .quarantine
    lifecycle := .blocked
    blockReason := some "ready_overlap_conflict"
    quarantineDisposition := some .unclassified
    quarantineOpaque := some false
    terminalReason := none
    terminalTime := none
    retentionDeadline := none
    certifiedPrefixCount := none
    coverageDigest := none
    retirementCursor := none }

/-- The read of `_block_typed_custody_conflict`: the row must still be the admitted one. -/
def typedConflictDisposition (db : Database ι ε D) (admission : TypedAdmission ι D) :
    Except Failure (SourceRow D) :=
  match db.sources.get admission.sourceId with
  | none => .error ⟨.readyBundle, "typed conflict source disappeared"⟩
  | some old =>
    if old.sourceType ≠ admission.snapshot.sourceType ∨
        old.lifecycle ≠ admission.admittedLifecycle ∨
        old.committedCount ≠ admission.snapshot.committedCount ∨
        old.committedSha256 ≠ admission.snapshot.committedSha256 ∨
        old.closureFrontier ≠ admission.snapshot.closureFrontier then
      .error ⟨.readyBundle, "typed conflict source changed before disposition"⟩
    else .ok old

/-- The transaction of `_block_typed_custody_conflict`: compare the row read before and hold it. -/
def blockTypedCustodyConflictOnce (id : ι) (old : SourceRow D) : Transaction ι ε D PUnit := do
  let changed : Failure := ⟨.readyBundle, "typed conflict source changed before disposition"⟩
  refuseIf ((← get).sources.get id ≠ some old) changed
  let decision := transition (some old.lifecycle) (.authenticatedConflict true)
  refuseIf (decision.action ≠ .block ∨ decision.nextPhase ≠ some .blocked)
    ⟨.readyBundle, "capture source FSM refused AuthenticatedConflict"⟩
  updateSource id (fun row => row = old) overlapHold changed

/-- Give unlinked evidence its own terminal lifecycle and retention clock, one row a sweep. -/
def classifyStandaloneTypedEvidence (now retention : ℤ) (db : Database ι ε D) :
    Database ι ε D :=
  let decision := quarantineTransition .unclassified
    (.markUnprocessable "standalone typed quarantine evidence" false)
  if decision.action ≠ .markUnprocessable then db
  else
    match (db.evidence.first
      (fun r => r.2.sourceId = none && r.2.disposition = some .unclassified) id 1).head? with
    | none => db
    | some eid =>
      { db with
        evidence := db.evidence.adjust eid (fun row =>
          { row with
            disposition := some .unprocessable
            terminalReason := some "standalone typed quarantine evidence"
            terminalTime := some (ofInt now)
            retentionDeadline := some (ofInt (now + retention)) }) }

/-- The `WHERE` clause that selects an opaque source for classification. -/
def opaqueCandidate (row : SourceRow D) : Bool :=
  row.sourceType = .quarantine && row.quarantineOpaque = some true &&
    row.quarantineDisposition = some .unclassified && !custodyHeld row.blockReason

def opaqueTerminal (now retention : ℤ) (row : SourceRow D) : SourceRow D :=
  { row with
    quarantineDisposition := some .unprocessable
    terminalReason := some "opaque typed quarantine evidence"
    terminalTime := some (ofInt now)
    retentionDeadline := some (ofInt (now + retention))
    certifiedPrefixCount := none
    coverageDigest := none }

def classifyOneTypedOpaque (now retention : ℤ) (db : Database ι ε D) : Database ι ε D :=
  match (db.sources.first (fun r => opaqueCandidate r.2) id 1).head? with
  | none => db
  | some id =>
    let decision := quarantineTransition .unclassified
      (.markUnprocessable "opaque typed quarantine evidence" false)
    if decision.action ≠ .markUnprocessable then db
    else { db with sources := db.sources.adjust id (opaqueTerminal now retention) }

/-- Deadline text that SQL reads as reached. -/
def deadlineReached (deadline : Option Text) (now : ℤ) : Bool :=
  match deadline with
  | none => false
  | some text => digitsOnly text && decide (castInteger text ≤ now)

def expiredTypedSource (row : SourceRow D) (now : ℤ) : Bool :=
  row.sourceType = .quarantine && decide (row.lifecycle ∈ [AudioPhase.blocked, .covered, .retiring])
    && decide (row.quarantineDisposition ∈ [some .unprocessable, some .publishedPrefix])
    && !custodyHeld row.blockReason && deadlineReached row.retentionDeadline now

def canonicalDeleteEligible (db : Database ι ε D) (id : ι) (row : SourceRow D) (now : ℤ) : Bool :=
  expiredTypedSource row now && row.lifecycle = .blocked &&
    row.quarantineDisposition = some .unprocessable && !db.cohortReferenced id &&
    !db.stageReferenced id

/-- Some row of the source satisfies the clause, as `EXISTS (SELECT 1 FROM capture_source …)`. -/
def sourceSatisfies (db : Database ι ε D) (id : ι) (clause : SourceRow D → Bool) : Bool :=
  match db.sources.get id with
  | none => false
  | some row => clause row

def sweepCandidate (db : Database ι ε D) (now : ℤ) (r : ι × SourceRow D) : Bool :=
  expiredTypedSource r.2 now &&
    (db.hasTail r.1 || db.hasConflict r.1 || db.hasEvidence r.1 ||
      canonicalDeleteEligible db r.1 r.2 now)

def nextExpiredTypedSource (db : Database ι ε D) (now : ℤ) : Option ι :=
  (db.sources.first (sweepCandidate db now) id 1).head?

def typedRetentionExpired (row : SourceRow D) (now : ℤ) : Bool :=
  match row.retentionDeadline with
  | none => false
  | some text =>
    if row.lifecycle ∉ [AudioPhase.blocked, .covered, .retiring] ∨
        row.quarantineDisposition ∉ [some .publishedPrefix, some .unprocessable] ∨
        custodyHeld row.blockReason = true then false
    else
      match literal text with
      | none => false
      | some deadline => decide (deadline ≤ now)

/-- One bounded `DELETE` on a child table, guarded by a clause on the source row. -/
def deleteRows {κ ν ω : Type} [LinearOrder ω] (t : Table κ ν) (eligible : Bool)
    (matching : κ × ν → Bool) (order : κ → ω) (limit : ℕ) : Table κ ν :=
  if eligible then t.deleteFirst matching order limit else t

def deleteTypedRecords (id : ι) (now : ℤ) (db : Database ι ε D) (limit : ℕ) : Database ι ε D :=
  { db with
    records := deleteRows db.records
      (sourceSatisfies db id (fun row => canonicalDeleteEligible db id row now))
      (fun r => r.1.1 = id) Prod.snd limit }

def deleteTypedEvidenceChunks (id : ι) (now : ℤ) (db : Database ι ε D) (limit : ℕ) :
    Database ι ε D :=
  { db with
    evidenceChunks := deleteRows db.evidenceChunks
      (sourceSatisfies db id (fun row => expiredTypedSource row now))
      (fun r => db.evidenceSource r.1.1 = some id) toLex limit }

def deleteTypedTails (id : ι) (now : ℤ) (db : Database ι ε D) (limit : ℕ) : Database ι ε D :=
  { db with
    tails := deleteRows db.tails (sourceSatisfies db id (fun row => expiredTypedSource row now))
      (fun r => r.1 = id) (fun key => key) limit }

def deleteTypedConflicts (id : ι) (now : ℤ) (db : Database ι ε D) (limit : ℕ) :
    Database ι ε D :=
  { db with
    conflicts := deleteRows db.conflicts
      (sourceSatisfies db id (fun row => expiredTypedSource row now))
      (fun r => r.1.1 = id) Prod.snd limit }

/-- Evidence rows go last: only those whose chunks are gone. -/
def deleteTypedEvidenceParent (id : ι) (now : ℤ) (db : Database ι ε D) (limit : ℕ) :
    Database ι ε D :=
  { db with
    evidence := deleteRows db.evidence
      (sourceSatisfies db id (fun row => expiredTypedSource row now))
      (fun r => r.2.sourceId = some id && !db.hasChunks r.1) (fun key => key) limit }

/-- Spend what is left of a chunk limit on one more bounded delete. -/
def spend (delete : Database ι ε D → ℕ → Database ι ε D) (state : Database ι ε D × ℕ) :
    Database ι ε D × ℕ :=
  if state.2 = 0 then state
  else
    let next := delete state.1 state.2
    (next, state.2 - (state.1.rowCount - next.rowCount))

/-- Remove a source whose children are all gone, with its packet summary. -/
def deleteExpiredTypedSource (id : ι) (now : ℤ) (db : Database ι ε D) :
    Database ι ε D × Bool :=
  if sourceSatisfies db id (fun row => canonicalDeleteEligible db id row now) &&
      !db.hasRecords id && !db.hasTail id && !db.hasConflict id && !db.hasEvidence id then
    ({ db with
        sources := db.sources.delete id
        packetSummaries := db.packetSummaries.filter (fun key => key ≠ id) }, true)
  else (db, false)

/-- Residual evidence of an expired source within the limit, after its canonical records. -/
def deleteResidual (id : ι) (now : ℤ) (state : Database ι ε D × ℕ) : Database ι ε D × ℕ :=
  spend (deleteTypedEvidenceParent id now) (spend (deleteTypedConflicts id now)
    (spend (deleteTypedTails id now) (spend (deleteTypedEvidenceChunks id now) state)))

/-- Returns the tables, whether the source row was removed, and the rows spent. -/
def sweepOneTypedSource (id : ι) (now : ℤ) (chunkLimit : ℕ) (db : Database ι ε D) :
    Database ι ε D × Bool × ℕ :=
  match db.sources.get id with
  | none => (db, false, 0)
  | some row =>
    if !typedRetentionExpired row now then (db, false, 0)
    else
      match row.quarantineDisposition with
      | none => (db, false, 0)
      | some disposition =>
        let residual := quarantineTransition disposition (.residualExpiry true true)
        let canonical := quarantineTransition disposition
          (.canonicalExpiry row.lifecycle true (db.cohortReferenced id) (db.stageReferenced id))
        if residual.action ≠ .retire then (db, false, 0)
        else if canonical.action = .retire then
          let state := deleteResidual id now (spend (deleteTypedRecords id now) (db, chunkLimit))
          let removed := deleteExpiredTypedSource id now state.1
          (removed.1, removed.2, chunkLimit - state.2)
        else
          let state := deleteResidual id now (db, chunkLimit)
          (state.1, false, chunkLimit - state.2)

def expiredStandalone (row : EvidenceRow ι) (now : ℤ) : Bool :=
  row.sourceId = none && decide (row.disposition ∈ [some .publishedPrefix, some .unprocessable])
    && deadlineReached row.retentionDeadline now

def deleteStandaloneChunks (eid : ε) (now : ℤ) (db : Database ι ε D) (limit : ℕ) :
    Database ι ε D :=
  { db with
    evidenceChunks := deleteRows db.evidenceChunks
      (db.evidence.rows.any (fun r => r.1 = eid && expiredStandalone r.2 now))
      (fun r => r.1.1 = eid) Prod.snd limit }

def deleteStandaloneParent (eid : ε) (now : ℤ) (db : Database ι ε D) : Database ι ε D :=
  if db.hasChunks eid then db
  else { db with
    evidence := db.evidence.filter (fun r => !(r.1 = eid && expiredStandalone r.2 now)) }

def sweepOneExpiredStandalone (now : ℤ) (limit : ℕ) (db : Database ι ε D) : Database ι ε D :=
  match (db.evidence.first (fun r => expiredStandalone r.2 now) id 1).head? with
  | none => db
  | some eid =>
    match (db.evidence.get eid).bind (·.disposition) with
    | none => db
    | some disposition =>
      if (quarantineTransition disposition (.residualExpiry true true)).action ≠ .retire then db
      else
        let state := spend (deleteStandaloneChunks eid now) (db, limit)
        if 0 < state.2 then deleteStandaloneParent eid now state.1 else state.1

structure SweepResult (ι : Type) where
  removedSourceIds : List ι
  progressed : Bool

/-- The classification half of a sweep. -/
def classifyTerminal (now retention : ℤ) (db : Database ι ε D) : Database ι ε D :=
  classifyOneTypedOpaque now retention (classifyStandaloneTypedEvidence now retention db)

/-- Both classification updates report a changed row when they select one. -/
def classificationChanged (db : Database ι ε D) : Bool :=
  db.evidence.rows.any (fun r => r.2.sourceId = none && r.2.disposition = some .unclassified) ||
    db.sources.rows.any (fun r => opaqueCandidate r.2)

/-- SQLite binds 64-bit integers only. -/
def bindInteger (n : ℤ) : Transaction ι ε D PUnit :=
  refuseIf (n < -2 ^ 63 ∨ maxInteger < n)
    ⟨.overflow, "Python int too large to convert to SQLite INTEGER"⟩

/-- Expire at most one source; returns what is left of the limit and the removed sources. -/
def expireSource (now : ℤ) (chunkLimit : ℕ) : Transaction ι ε D (ℕ × List ι) := do
  bindInteger now
  let db ← get
  match nextExpiredTypedSource db now with
  | none => return (chunkLimit, [])
  | some source =>
    let swept := sweepOneTypedSource source now chunkLimit db
    set swept.1
    return (chunkLimit - swept.2.2, if swept.2.1 then [source] else [])

/-- Expire at most one source, then at most one standalone row, within the chunk limit. The
deferral callback is asked before each. -/
def expireTerminal (now : ℤ) (chunkLimit : ℕ) (deferSource deferStandalone : Bool) :
    Transaction ι ε D (List ι) := do
  let swept ← if deferSource then pure (chunkLimit, []) else expireSource now chunkLimit
  if 0 < swept.1 ∧ deferStandalone = false then
    bindInteger now
    modify (sweepOneExpiredStandalone now swept.1)
    return swept.2
  else return swept.2

/-- Classify and expire terminal typed quarantine evidence in one transaction. -/
def sweepTerminalQuarantine (now retention chunkLimit : ℤ)
    (defer deferSource deferStandalone : Bool) : Transaction ι ε D (SweepResult ι) := do
  refuseIf (chunkLimit ≤ 0 ∨ (maxChunkLimit : ℤ) < chunkLimit)
    ⟨.value, "chunk_limit must be between 1 and MAX_CHUNK_LIMIT"⟩
  if defer then return ⟨[], false⟩
  else
    let db ← get
    set (classifyTerminal now retention db)
    let removed ← expireTerminal now chunkLimit.toNat deferSource deferStandalone
    return ⟨removed, classificationChanged db || decide ((← get).rowCount < db.rowCount)⟩

/-- The database with the calls that are between two of their transactions: prefix admissions,
admissions loaded by the publisher, and overlap conflicts about to be recorded. -/
structure World (ι ε D : Type) where
  db : Database ι ε D
  calls : List (Call ι D)
  admissions : List (TypedAdmission ι D)
  conflicts : List (TypedAdmission ι D × SourceRow D)

inductive Event (ι ε D : Type) where
  | quarantinePending (reason : String) (clock : ι → ℤ) (retention : ℤ)
  | quarantineAttemptSource (id : ι) (now retention : ℤ)
  | terminalizePrefix (id : ι) (now retention : ℤ)
  | admitPrefix (id : ι) (pageLimit : ℕ) (defer : Bool)
  | resume (index : ℕ) (defer : Bool) (now retention : ℤ)
  | markUnprocessable (id : ι) (reason : String) (now retention : ℤ)
  | sweep (now retention chunkLimit : ℤ) (defer deferSource deferStandalone : Bool)
  | loadAdmission (id : ι)
  | loadMember (index : ℕ)
  | readConflict (index : ℕ)
  | blockConflict (index : ℕ)
  -- what capture and publication do beside the quarantine calls
  | capture (id : ι) (row : SourceRow D)
  | captureRecord (id : ι) (ordinal : ℕ) (record : RecordRow)
  | captureTail (id : ι) (tail : Option CaptureTail)
  | captureConflict (id : ι) (ordinal : ℕ) (conflict : CaptureConflict)
  | references (members : List (MemberRow ι D)) (stageRanges v2StageRanges : List ι)

/-- Capture writes only the rows of sources that are not quarantined. -/
def openToCapture (db : Database ι ε D) (id : ι) : Bool :=
  match db.sources.get id with
  | none => true
  | some row => row.sourceType ≠ .quarantine

/-- The next transaction of a prefix admission in flight. -/
def resumeCall (sha256 : Bytes → D) (w : World ι ε D) (rest : List (Call ι D)) (call : Call ι D)
    (defer : Bool) (now retention : ℤ) : World ι ε D :=
  match call with
  | .authenticate id inspected pageLimit =>
    match requireAuthenticatedAdmission sha256 w.db id inspected pageLimit defer with
    | .ok next => { w with calls := rest ++ [next] }
    | .error _ => { w with calls := rest }
  | .hold id inspected =>
    { w with db := (commit (holdSourceAuthenticationMismatch id inspected) w.db).2, calls := rest }
  | .persist id inspected =>
    { w with db := (commit (admitInspected id inspected now retention) w.db).2, calls := rest }

def step (sha256 : Bytes → D) (w : World ι ε D) : Event ι ε D → World ι ε D
  | .quarantinePending reason clock retention =>
    { w with db := (commit (quarantinePending reason clock retention) w.db).2 }
  | .quarantineAttemptSource id now retention =>
    { w with db := (commit (quarantineAttemptSource id now retention) w.db).2 }
  | .terminalizePrefix id now retention =>
    { w with db := (commit (terminalizePrefixAttempt id now retention) w.db).2 }
  | .admitPrefix id pageLimit defer =>
    match admitQuarantinedPrefix w.db id pageLimit defer with
    | .ok (.inr call) => { w with calls := w.calls ++ [call] }
    | .ok (.inl _) | .error _ => w
  | .resume index defer now retention =>
    match w.calls[index]? with
    | none => w
    | some call => resumeCall sha256 w (w.calls.eraseIdx index) call defer now retention
  | .markUnprocessable id reason now retention =>
    { w with db := (commit (markQuarantineUnprocessable id reason now retention) w.db).2 }
  | .sweep now retention chunkLimit defer deferSource deferStandalone =>
    { w with
      db := (commit
        (sweepTerminalQuarantine now retention chunkLimit defer deferSource deferStandalone) w.db).2 }
  | .loadAdmission id =>
    match (w.db.sources.get id).map (typedAdmission id) with
    | some (.ok (some admission)) => { w with admissions := w.admissions ++ [admission] }
    | _ => w
  | .loadMember index =>
    match w.db.cohortMembers[index]?.map (persistedAdmission w.db index) with
    | some (.ok admission) => { w with admissions := w.admissions ++ [admission] }
    | _ => w
  | .readConflict index =>
    match w.admissions[index]? with
    | none => w
    | some admission =>
      match typedConflictDisposition w.db admission with
      | .ok old => { w with conflicts := w.conflicts ++ [(admission, old)] }
      | .error _ => w
  | .blockConflict index =>
    match w.conflicts[index]? with
    | none => w
    | some (admission, old) =>
      { w with db := (commit (blockTypedCustodyConflictOnce admission.sourceId old) w.db).2 }
  | .capture id row =>
    if openToCapture w.db id && row.sourceType ≠ .quarantine && row.blockReason = none then
      { w with db := { w.db with sources := w.db.sources.put id row } }
    else w
  | .captureRecord id ordinal record =>
    if openToCapture w.db id then
      { w with db := { w.db with records := w.db.records.put (id, ordinal) record } }
    else w
  | .captureTail id tail =>
    if openToCapture w.db id then
      match tail with
      | none => { w with db := { w.db with tails := w.db.tails.delete id } }
      | some tail => { w with db := { w.db with tails := w.db.tails.put id tail } }
    else w
  | .captureConflict id ordinal conflict =>
    if openToCapture w.db id then
      { w with db := { w.db with conflicts := w.db.conflicts.put (id, ordinal) conflict } }
    else w
  | .references members stageRanges v2StageRanges =>
    { w with
      db := { w.db with
        cohortMembers := members, stageRanges := stageRanges, v2StageRanges := v2StageRanges } }

end Tables

end QuarantineStore
