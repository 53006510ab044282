import Mathlib.Algebra.Order.Ring.Rat
import Mathlib.Data.List.Induction
import OmiCollector.TransitionRuns

/-! The publication reducer of `ready_machine`: when to publish, to compact, to retry and to wait.

A revision is any value of the input probe. A wake without a revision has not been probed; to all
other events `None` is a revision like any other. Outcomes are opaque, except that a compaction
stores its own result as one. -/
namespace ReadyMachine

inductive PublicationMode where
  | available
  | capture
  | closed
  deriving DecidableEq, Repr

inductive PublicationResult where
  | settled
  | transient
  deriving DecidableEq, Repr

inductive Outcome (O : Type) where
  | reported (outcome : O)
  | compacted (result : PublicationResult)
  deriving DecidableEq

structure Running (R : Type) where
  token : ℤ
  revision : Option R
  generation : ℤ
  failureCount : ℕ
  deriving DecidableEq

structure RetryWait (R O : Type) where
  revision : Option R
  outcome : Outcome O
  deadline : ℚ
  failureCount : ℕ
  deriving DecidableEq

structure Compacting (R O : Type) where
  token : ℤ
  revision : Option R
  generation : ℤ
  debtGeneration : ℤ
  failureCount : ℕ
  publicationRetry : Option (RetryWait R O)
  deriving DecidableEq

structure Quiescing (R : Type) where
  token : ℤ
  revision : Option R
  generation : ℤ
  debtGeneration : ℤ
  failureCount : ℕ
  deriving DecidableEq

inductive Work (R O : Type) where
  | idle
  | running (work : Running R)
  | settled (revision : Option R) (outcome : Outcome O)
  | retryWait (work : RetryWait R O)
  | compacting (work : Compacting R O)
  | quiescing (work : Quiescing R)
  deriving DecidableEq

structure PublicationState (R O : Type) where
  mode : PublicationMode
  work : Work R O
  generation : ℤ
  nextToken : ℤ
  needsCheck : Bool
  deriving DecidableEq

def PublicationState.initial {R O : Type} : PublicationState R O := ⟨.available, .idle, 0, 0, false⟩

inductive PublicationAction where
  | none
  | run
  | arm
  | checkInput
  | cancelAndJoin
  | compact
  deriving DecidableEq, Repr

structure PublicationCommand where
  action : PublicationAction
  token : Option ℤ
  deadline : Option ℚ
  debtGeneration : Option ℤ
  deriving DecidableEq

def PublicationCommand.of (action : PublicationAction) : PublicationCommand :=
  ⟨action, none, none, none⟩

inductive PublicationEvent (R O : Type) where
  | wake (revision : Option R) (now : ℚ)
  | inputChanged
  | finished (token : ℤ) (revision : Option R) (outcome : O) (result : PublicationResult) (now : ℚ)
      (backoff : List ℚ) (reprobe : Bool)
  | compactionDue (revision : Option R) (debtGeneration : ℤ)
  | compactionFinished (token debtGeneration : ℤ) (revision : Option R) (result : PublicationResult)
      (now : ℚ) (backoff : List ℚ)
  | compactionProbeFailed (revision : Option R) (now : ℚ) (backoff : List ℚ)
  | timerFired (generation : ℤ) (deadline now : ℚ)
  | captureBegin
  | captureEnd
  | shutdown
  | quiesced
  deriving DecidableEq

variable {R O : Type}

/-- The delay after some failures: the last one of the backoff repeats, one second without any. -/
def backoffDelay (backoff : List ℚ) (failures : ℕ) : ℚ :=
  backoff.getD (min failures (backoff.length - 1)) 1

def armed (deadline : ℚ) : PublicationCommand := ⟨.arm, none, some deadline, none⟩

/-- `_quiescing`. -/
def Work.quiesce : Work R O → Work R O
  | .compacting w => .quiescing ⟨w.token, w.revision, w.generation, w.debtGeneration, w.failureCount⟩
  | w => w

/-- `_lifecycle_boundary`. -/
def lifecycleBoundary (s : PublicationState R O) : PublicationEvent R O →
    Except String (PublicationState R O × PublicationCommand)
  | .shutdown =>
    .ok (⟨.closed, s.work.quiesce, s.generation + (if s.mode = .closed then 0 else 1), s.nextToken,
      false⟩, .of .cancelAndJoin)
  | .captureBegin =>
    if s.mode ≠ .available then .error "capture cannot begin twice or after shutdown"
    else .ok (⟨.capture, s.work.quiesce, s.generation + 1, s.nextToken, false⟩, .of .cancelAndJoin)
  | _ => .ok (⟨s.mode, .idle, s.generation, s.nextToken, false⟩, .of .none)

def captureEnd (s : PublicationState R O) : PublicationState R O × PublicationCommand :=
  match s.work with
  | .compacting _ | .quiescing _ => (s, .of .none)
  | _ =>
    if s.mode ≠ .capture then (s, .of .none)
    else (⟨.available, .idle, s.generation + 1, s.nextToken, true⟩, .of .checkInput)

def inputChanged (s : PublicationState R O) : PublicationState R O × PublicationCommand :=
  match s.work with
  | .compacting _ | .quiescing _ =>
    (⟨s.mode, s.work, s.generation + 1, s.nextToken, true⟩, .of .none)
  | .running _ => (⟨s.mode, s.work, s.generation + 1, s.nextToken, true⟩, .of .none)
  | _ => (⟨s.mode, .idle, s.generation + 1, s.nextToken, true⟩,
      .of (if s.mode = .available then .checkInput else .none))

variable [DecidableEq R]

/-- `_finished`. -/
def finished (s : PublicationState R O) (token : ℤ) (revision : Option R) (outcome : O)
    (result : PublicationResult) (now : ℚ) (backoff : List ℚ) (reprobe : Bool) :
    PublicationState R O × PublicationCommand :=
  match s.work with
  | .running w =>
    if w.token ≠ token then (s, .of .none)
    else if s.mode ≠ .available then (⟨s.mode, .idle, s.generation, s.nextToken, false⟩, .of .none)
    else if w.generation ≠ s.generation ∨ reprobe = true ∨
        (result ≠ .transient ∧ revision ≠ w.revision) then
      (⟨s.mode, .idle, s.generation, s.nextToken, true⟩, .of .checkInput)
    else match result with
      | .transient =>
        let deadline := now + backoffDelay backoff w.failureCount
        (⟨s.mode, .retryWait ⟨revision, .reported outcome, deadline, w.failureCount + 1⟩,
          s.generation, s.nextToken, false⟩, armed deadline)
      | .settled =>
        (⟨s.mode, .settled revision (.reported outcome), s.generation, s.nextToken, false⟩, .of .none)
  | _ => (s, .of .none)

/-- `_compaction_due`. -/
def compactionDue (s : PublicationState R O) (revision : Option R) (debtGeneration : ℤ) :
    PublicationState R O × PublicationCommand :=
  let start (retry : Option (RetryWait R O)) :=
    (⟨s.mode, .compacting ⟨s.nextToken + 1, revision, s.generation, debtGeneration, 0, retry⟩,
        s.generation, s.nextToken + 1, s.needsCheck⟩,
      ⟨.compact, some (s.nextToken + 1), none, some debtGeneration⟩)
  if s.mode ≠ .available then (s, .of .none)
  else match s.work with
    | .idle | .settled _ _ => start none
    | .retryWait retry => start (some retry)
    | _ => (s, .of .none)

/-- `_compaction_finished`. -/
def compactionFinished (s : PublicationState R O) (token debtGeneration : ℤ) (revision : Option R)
    (result : PublicationResult) (now : ℚ) (backoff : List ℚ) :
    PublicationState R O × PublicationCommand :=
  match s.work with
  | .compacting w =>
    if w.token ≠ token then (s, .of .none)
    else if s.mode ≠ .available then (s, .of .none)
    else if w.debtGeneration ≠ debtGeneration ∨ w.revision ≠ revision then
      (⟨s.mode, .idle, s.generation, s.nextToken, true⟩, .of .checkInput)
    else match (if s.needsCheck = true then none else w.publicationRetry), result with
      | some retry, _ =>
        (⟨s.mode, .retryWait retry, s.generation, s.nextToken, false⟩, armed retry.deadline)
      | none, .transient =>
        let deadline := now + backoffDelay backoff w.failureCount
        (⟨s.mode, .retryWait ⟨revision, .compacted result, deadline, w.failureCount + 1⟩,
          s.generation, s.nextToken, false⟩, armed deadline)
      | none, .settled =>
        if w.generation ≠ s.generation ∨ s.needsCheck = true then
          (⟨s.mode, .settled revision (.compacted result), s.generation, s.nextToken, true⟩,
            .of .checkInput)
        else (⟨s.mode, .settled revision (.compacted result), s.generation, s.nextToken, false⟩,
          .of .none)
  | _ => (s, .of .none)

/-- `_compaction_probe_failed`. -/
def compactionProbeFailed (s : PublicationState R O) (revision : Option R) (now : ℚ)
    (backoff : List ℚ) : PublicationState R O × PublicationCommand :=
  let wait :=
    (⟨s.mode, .retryWait ⟨revision, .compacted .transient, now + backoffDelay backoff 0, 1⟩,
      s.generation, s.nextToken, false⟩, armed (now + backoffDelay backoff 0))
  if s.mode ≠ .available then (s, .of .none)
  else match s.work with
    | .idle | .settled _ _ => wait
    | _ => (s, .of .none)

/-- `_timer`. -/
def timer (s : PublicationState R O) (generation : ℤ) (deadline now : ℚ) :
    PublicationState R O × PublicationCommand :=
  match s.work with
  | .retryWait w =>
    if s.mode ≠ .available then (s, .of .none)
    else if generation ≠ s.generation ∨ deadline ≠ w.deadline then (s, .of .none)
    else if now < w.deadline then (s, armed w.deadline)
    else ({ s with needsCheck := true }, .of .checkInput)
  | _ => (s, .of .none)

/-- `_wake_unprobed`. -/
def wakeUnprobed (s : PublicationState R O) (now : ℚ) : PublicationState R O × PublicationCommand :=
  match s.work with
  | .retryWait w => if now < w.deadline then (s, armed w.deadline) else (s, .of .checkInput)
  | _ => (s, .of .checkInput)

/-- `_wake_probed`. -/
def wakeProbed (s : PublicationState R O) (revision : Option R) (now : ℚ) :
    PublicationState R O × PublicationCommand :=
  let start (failures : ℕ) :=
    (⟨s.mode, .running ⟨s.nextToken + 1, revision, s.generation, failures⟩, s.generation,
      s.nextToken + 1, false⟩, ⟨.run, some (s.nextToken + 1), none, none⟩)
  match s.work with
  | .running w =>
    if revision ≠ w.revision ∧ w.generation = s.generation then
      (⟨s.mode, s.work, s.generation + 1, s.nextToken, true⟩, .of .none)
    else (s, .of .none)
  | .settled settledRevision _ =>
    if revision = settledRevision then ({ s with needsCheck := false }, .of .none) else start 0
  | .retryWait w =>
    if revision = w.revision then
      if now < w.deadline then (s, armed w.deadline) else start w.failureCount
    else start 0
  | _ => start 0

/-- `_wake`. -/
def wake (s : PublicationState R O) (revision : Option R) (now : ℚ) :
    PublicationState R O × PublicationCommand :=
  if s.mode ≠ .available then (s, .of .none)
  else match s.work with
    | .compacting _ | .quiescing _ => (s, .of .none)
    | _ => if revision = none then wakeUnprobed s now else wakeProbed s revision now

def publicationTransition (s : PublicationState R O) : PublicationEvent R O →
    Except String (PublicationState R O × PublicationCommand)
  | .wake revision now => .ok (wake s revision now)
  | .finished token revision outcome result now backoff reprobe =>
    .ok (finished s token revision outcome result now backoff reprobe)
  | .compactionDue revision debtGeneration => .ok (compactionDue s revision debtGeneration)
  | .compactionFinished token debtGeneration revision result now backoff =>
    .ok (compactionFinished s token debtGeneration revision result now backoff)
  | .compactionProbeFailed revision now backoff => .ok (compactionProbeFailed s revision now backoff)
  | .timerFired generation deadline now => .ok (timer s generation deadline now)
  | .inputChanged => .ok (inputChanged s)
  | .captureEnd => .ok (captureEnd s)
  | .captureBegin => lifecycleBoundary s .captureBegin
  | .shutdown => lifecycleBoundary s .shutdown
  | .quiesced => lifecycleBoundary s .quiesced

end ReadyMachine
