import Mathlib.Data.List.Basic

/-! The pure lifecycle reducers of `internal_audio_machine` and the conflict classifier
of `quarantine_disposition`. Reducers return the next phase, the one adapter operation
authorized for it, and the refusal or acceptance text. -/
namespace AudioMachine

/-- Durable lifecycle phases of one internal capture source. -/
inductive AudioPhase where
  | prepared
  | legPrepared
  | receiving
  | interrupted
  | sealedWaiting
  | blocked
  | covered
  | retiring
  deriving DecidableEq, Repr

inductive AudioAction where
  | persist
  | idempotent
  | commitBarrier
  | inspectOnly
  | retire
  | refuse
  | block
  deriving DecidableEq, Repr

inductive AudioEvent where
  | create
  | prepareLeg (bounded exactIdentity barrierCommitted : Bool)
  | readBegin (matching duplicate : Bool)
  | data (matching replay evidenceRetained : Bool)
  | barrier
  | done (validated authenticatedPrefix exactIdentity : Bool)
  | terminalPrefix (authenticated : Bool)
  | interruption
  | authenticatedConflict (authenticated : Bool)
  | sourceIntegrityHold
  | readyCustody (proved certifiedQuarantinePrefix : Bool)
  | beginRetirement
  | retirementStep (custodyProved final : Bool)
  | ack
  deriving DecidableEq, Repr

structure AudioDecision where
  nextPhase : Option AudioPhase
  action : AudioAction
  reason : String
  deriving DecidableEq, Repr

def refuse (phase : Option AudioPhase) (reason : String) : AudioDecision :=
  ⟨phase, .refuse, reason⟩

def prepareLeg (phase : Option AudioPhase) (bounded exactIdentity barrierCommitted : Bool) :
    AudioDecision :=
  if !bounded then refuse phase "leg is outside the immutable source bounds"
  else if phase = some .prepared then
    ⟨some .legPrepared, .persist, "bounded leg prepared"⟩
  else if phase = some .interrupted then
    ⟨some .legPrepared, .persist, "recovery leg prepared"⟩
  else if phase = some .legPrepared ∧ exactIdentity then
    ⟨some .legPrepared, .idempotent, "same leg already prepared"⟩
  else if phase = some .receiving ∧ barrierCommitted then
    ⟨some .legPrepared, .commitBarrier, "barrier then prepare leg"⟩
  else refuse phase "PREPARE_LEG is not valid for this source phase"

def barrier (phase : Option AudioPhase) : AudioDecision :=
  match phase with
  | some .prepared => ⟨some .prepared, .persist, "durable zero prefix"⟩
  | some .legPrepared | some .receiving | some .interrupted =>
    ⟨phase, .commitBarrier, "frontier barrier committed"⟩
  | some .sealedWaiting | some .blocked => ⟨phase, .inspectOnly, "barrier is inspection only"⟩
  | _ => refuse phase "barrier is not valid after source coverage"

def done (phase : Option AudioPhase) (validated authenticatedPrefix exactIdentity : Bool) :
    AudioDecision :=
  if (phase = some .receiving ∨ phase = some .interrupted) ∧ validated ∧ authenticatedPrefix then
    ⟨some .sealedWaiting, .persist, "authenticated source sealed"⟩
  else if phase = some .sealedWaiting ∧ validated ∧ authenticatedPrefix ∧ exactIdentity then
    ⟨some .sealedWaiting, .idempotent, "seal already recorded"⟩
  else refuse phase "DONE lacks a validated authenticated prefix"

def terminalPrefix (phase : Option AudioPhase) (authenticated : Bool) : AudioDecision :=
  if authenticated ∧ phase ∈ [some .prepared, some .legPrepared, some .receiving,
      some .interrupted] then
    ⟨some .sealedWaiting, .persist, "authenticated terminal prefix sealed"⟩
  else if authenticated ∧ phase = some .sealedWaiting then
    ⟨some .sealedWaiting, .idempotent, "terminal prefix already sealed"⟩
  else refuse phase "terminal prefix is unauthenticated or source phase is invalid"

def create (phase : Option AudioPhase) : AudioDecision :=
  if phase = none then ⟨some .prepared, .persist, "source created"⟩
  else refuse phase "source already exists"

def readBegin (phase : Option AudioPhase) (matching duplicate : Bool) : AudioDecision :=
  if phase = some .legPrepared ∧ matching then
    ⟨some .receiving, .persist, "READ_BEGIN bound"⟩
  else if phase = some .receiving ∧ matching ∧ duplicate then
    ⟨some .receiving, .idempotent, "READ_BEGIN replay"⟩
  else refuse phase "READ_BEGIN is not a matching permitted leg binding"

def data (phase : Option AudioPhase) (matching replay evidenceRetained : Bool) : AudioDecision :=
  if phase = some .receiving ∧ matching then
    ⟨some .receiving, if replay then .idempotent else .persist, "record data accepted"⟩
  else if phase ∈ [some .prepared, some .legPrepared, some .receiving, some .interrupted] ∧
      !matching ∧ evidenceRetained then
    ⟨some .blocked, .block, "record conflict retained"⟩
  else refuse phase "record data requires a matching active READ_BEGIN"

def interruption (phase : Option AudioPhase) : AudioDecision :=
  match phase with
  | some .prepared | some .legPrepared | some .receiving =>
    ⟨some .interrupted, .persist, "transfer interrupted"⟩
  | some .interrupted => ⟨some .interrupted, .idempotent, "interruption already recorded"⟩
  | some .sealedWaiting | some .blocked => ⟨phase, .inspectOnly, "terminal phase is unchanged"⟩
  | _ => refuse phase "interruption requires receiving audio"

def conflict (phase : Option AudioPhase) (authenticated : Bool) : AudioDecision :=
  if !authenticated then refuse phase "conflict lacks authenticated rejected evidence"
  else if phase ∈ [some .prepared, some .legPrepared, some .receiving, some .interrupted,
      some .sealedWaiting, some .blocked] then
    ⟨some .blocked, .block, "authenticated conflict retained"⟩
  else refuse phase "covered source cannot accept conflict evidence"

def sourceIntegrityHold (phase : Option AudioPhase) : AudioDecision :=
  if phase ∈ [some .blocked, some .covered, some .retiring] then
    ⟨some .blocked, .block, "source integrity mismatch retained"⟩
  else refuse phase "integrity hold requires quarantine custody"

def readyCustody (phase : Option AudioPhase) (proved certifiedQuarantinePrefix : Bool) :
    AudioDecision :=
  if proved ∧ (phase = some .sealedWaiting ∨
      (phase = some .blocked ∧ certifiedQuarantinePrefix)) then
    ⟨some .covered, .retire, "ready custody covers source"⟩
  else if phase = some .covered ∧ proved then
    ⟨some .covered, .idempotent, "ready custody already recorded"⟩
  else refuse phase "full ready custody is not valid for this source"

def beginRetirement (phase : Option AudioPhase) : AudioDecision :=
  if phase = some .covered then ⟨some .retiring, .retire, "retirement cursor started"⟩
  else refuse phase "retirement requires covered source"

def retirementStep (phase : Option AudioPhase) (custodyProved final : Bool) : AudioDecision :=
  if phase = some .retiring ∧ custodyProved then
    ⟨if final then none else some .retiring, .retire, "retirement cursor advanced"⟩
  else refuse phase "retirement requires current custody proof"

def ack (phase : Option AudioPhase) : AudioDecision :=
  refuse phase "ACK cannot change internal source lifecycle"

/-- Apply one audio lifecycle event without mutating state or doing I/O. -/
def transition (phase : Option AudioPhase) : AudioEvent → AudioDecision
  | .create => create phase
  | .prepareLeg bounded exactIdentity barrierCommitted =>
    prepareLeg phase bounded exactIdentity barrierCommitted
  | .readBegin matching duplicate => readBegin phase matching duplicate
  | .data matching replay evidenceRetained => data phase matching replay evidenceRetained
  | .barrier => barrier phase
  | .done validated authenticatedPrefix exactIdentity =>
    done phase validated authenticatedPrefix exactIdentity
  | .terminalPrefix authenticated => terminalPrefix phase authenticated
  | .interruption => interruption phase
  | .authenticatedConflict authenticated => conflict phase authenticated
  | .sourceIntegrityHold => sourceIntegrityHold phase
  | .readyCustody proved certified => readyCustody phase proved certified
  | .beginRetirement => beginRetirement phase
  | .retirementStep custodyProved final => retirementStep phase custodyProved final
  | .ack => ack phase

/-- Matching record data is authorized in exactly one phase. -/
theorem data_persist_iff (phase : AudioPhase) :
    (transition (some phase) (.data true false true)).action = .persist ↔ phase = .receiving := by
  cases phase <;> decide

/-- A leg is prepared only from an unblocked, unsealed phase. -/
theorem prepareLeg_phase (phase : AudioPhase) (exact : Bool) (next : AudioPhase)
    (hn : (transition (some phase) (.prepareLeg true exact false)).nextPhase = some next)
    (ha : (transition (some phase) (.prepareLeg true exact false)).action ∈
      [AudioAction.persist, .commitBarrier, .idempotent]) :
    next = .legPrepared ∧ phase ≠ .blocked := by
  cases phase <;> cases exact <;>
    first | exact absurd ha (by decide) | exact ⟨(Option.some.inj hn).symm, by decide⟩

theorem readBegin_phase (phase : AudioPhase) (matching : Bool) (next : AudioPhase)
    (hn : (transition (some phase) (.readBegin matching false)).nextPhase = some next)
    (ha : (transition (some phase) (.readBegin matching false)).action ∈
      [AudioAction.persist, .commitBarrier, .idempotent]) :
    next = .receiving ∧ phase ≠ .blocked := by
  cases phase <;> cases matching <;>
    first | exact absurd ha (by decide) | exact ⟨(Option.some.inj hn).symm, by decide⟩

theorem interruption_phase (phase next : AudioPhase)
    (hn : (transition (some phase) .interruption).nextPhase = some next)
    (ha : (transition (some phase) .interruption).action = .persist) :
    next = .interrupted ∧ phase ≠ .blocked := by
  cases phase <;>
    first | exact absurd ha (by decide) | exact ⟨(Option.some.inj hn).symm, by decide⟩

theorem done_phase (phase next : AudioPhase)
    (hn : (transition (some phase) (.done true true false)).nextPhase = some next)
    (ha : (transition (some phase) (.done true true false)).action ∈
      [AudioAction.persist, .commitBarrier, .idempotent]) :
    next = .sealedWaiting ∧ phase ≠ .blocked := by
  cases phase <;>
    first | exact absurd ha (by decide) | exact ⟨(Option.some.inj hn).symm, by decide⟩

/-- Publication-cohort phases, including the persisted accepted permit. -/
inductive CohortPhase where
  | unqualified
  | accepted
  | staging
  | complete
  deriving DecidableEq, Repr

/-- Disposition of residual quarantine evidence and its certified prefix. -/
inductive QuarantineDisposition where
  | unclassified
  | publishedPrefix
  | unprocessable
  deriving DecidableEq, Repr

inductive QuarantineAction where
  | publishPrefix
  | markUnprocessable
  | keep
  | retire
  | refuse
  deriving DecidableEq, Repr

structure QuarantineDecision where
  nextDisposition : Option QuarantineDisposition
  action : QuarantineAction
  reason : String
  deriving DecidableEq, Repr

/-- The `QuarantineOpened` handler: classify a conflict at the original SQL barrier. -/
def quarantineOpened (disposition : QuarantineDisposition) (committedCount : ℕ)
    (hasCanonicalRecords : Bool) : QuarantineDecision :=
  if disposition ≠ .unclassified then
    ⟨some disposition, .refuse, "quarantine event is invalid for this disposition"⟩
  else if committedCount ≠ 0 ∨ hasCanonicalRecords then
    ⟨some .unclassified, .keep, "authenticated conflict retained"⟩
  else ⟨some .unprocessable, .markUnprocessable, "authenticated conflict retained"⟩

inductive QuarantineEvent where
  | certifiedPrefix (checkpointCertified salvageEligible : Bool)
  | markUnprocessable (reason : String) (custodyConflict : Bool)
  | opened (committedCount : ℕ) (hasCanonicalRecords : Bool)
  | residualExpiry (terminal ageExpired : Bool)
  | canonicalExpiry (sourcePhase : AudioPhase) (ageExpired cohortReferences stageReferences : Bool)
  deriving DecidableEq, Repr

def quarantineRefuse (disposition : QuarantineDisposition) : QuarantineDecision :=
  ⟨some disposition, .refuse, "quarantine event is invalid for this disposition"⟩

def certifiedPrefix (disposition : QuarantineDisposition)
    (checkpointCertified salvageEligible : Bool) : QuarantineDecision :=
  if disposition ≠ .unclassified ∨ !(checkpointCertified && salvageEligible) then
    quarantineRefuse disposition
  else ⟨some .publishedPrefix, .publishPrefix, "certified salvage prefix"⟩

def markUnprocessable (disposition : QuarantineDisposition) (reason : String)
    (custodyConflict : Bool) : QuarantineDecision :=
  if disposition ≠ .unclassified ∨ reason = "" ∨ custodyConflict then
    quarantineRefuse disposition
  else ⟨some .unprocessable, .markUnprocessable, "terminal reason recorded"⟩

def residualExpiry (disposition : QuarantineDisposition) (terminal ageExpired : Bool) :
    QuarantineDecision :=
  if disposition = .unclassified ∨ !terminal then quarantineRefuse disposition
  else if !ageExpired then ⟨some disposition, .keep, "residual evidence has not expired"⟩
  else ⟨some disposition, .retire, "expired residual evidence retired"⟩

def canonicalExpiry (disposition : QuarantineDisposition) (sourcePhase : AudioPhase)
    (ageExpired cohortReferences stageReferences : Bool) : QuarantineDecision :=
  if disposition ≠ .unprocessable ∨ sourcePhase ≠ .blocked then quarantineRefuse disposition
  else if !ageExpired || cohortReferences || stageReferences then
    ⟨some disposition, .keep, "canonical source remains pinned"⟩
  else ⟨some disposition, .retire, "expired unreferenced canonical source retired"⟩

/-- Reduce quarantine classification and guarded residual retention. -/
def quarantineTransition (disposition : QuarantineDisposition) :
    QuarantineEvent → QuarantineDecision
  | .certifiedPrefix certified eligible => certifiedPrefix disposition certified eligible
  | .markUnprocessable reason conflict => markUnprocessable disposition reason conflict
  | .opened count records => quarantineOpened disposition count records
  | .residualExpiry terminal expired => residualExpiry disposition terminal expired
  | .canonicalExpiry phase expired cohort stage =>
    canonicalExpiry disposition phase expired cohort stage

structure ConflictDisposition where
  classification : QuarantineDecision
  blockReason : String
  deriving DecidableEq, Repr

/-- Classify retained conflict evidence and its custody reason. -/
def classifyConflict (committedCount : ℕ) (hasCanonicalRecords : Bool) (reason : String) :
    ConflictDisposition :=
  ⟨quarantineOpened .unclassified committedCount hasCanonicalRecords,
    if committedCount = 0 ∧ hasCanonicalRecords then "source_authentication_mismatch" else reason⟩

/-- A conflict is always classified: the barrier keeps or terminates it, never refuses. -/
theorem classifyConflict_disposition (n : ℕ) (has : Bool) (reason : String) :
    ∃ d, (classifyConflict n has reason).classification.nextDisposition = some d ∧
      ((classifyConflict n has reason).classification.action = .keep ∨
        (classifyConflict n has reason).classification.action = .markUnprocessable) := by
  simp only [classifyConflict, quarantineOpened]
  by_cases h : n ≠ 0 ∨ has = true
  · exact ⟨.unclassified, by simp [h], by simp [h]⟩
  · exact ⟨.unprocessable, by simp [h], by simp [h]⟩

end AudioMachine
