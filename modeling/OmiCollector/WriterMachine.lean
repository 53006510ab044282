import Mathlib.Order.Basic

/-! The lifecycle of an attempt writer, as `attempt_writer_machine` decides it. -/
namespace WriterMachine

variable {ε : Type*}

inductive State (ε : Type*) where
  | constructed
  | preparing
  | prepared
  | reading
  | finalizing
  | finalized
  | failed (error : ε)
  | closing (failure : Option ε) (drain startAdmitted : Bool)
  | closed (failure : Option ε) (startAdmitted : Bool)
  deriving DecidableEq, Repr

inductive Event (ε : Type*) where
  | startRequested
  | legRequested
  | readBeginRequested
  | checkpointRequested
  | finalizeRequested
  | closeRequested
  | publishRequested
  | prepareSucceeded
  | legSucceeded
  | readBeginSucceeded
  | checkpointSucceeded
  | finalizeSucceeded
  | commandFailed (error : ε)
  | closeSucceeded
  | closeFailed (error : ε)
  deriving DecidableEq, Repr

inductive RejectionKind where
  | notStarted
  | preparePending
  | readPending
  | finalizing
  | finalized
  | finalizePending
  | closed
  | failed
  deriving DecidableEq, Repr

inductive Directive where
  | admitRequest
  | reuseClose
  | ignore
  | reject (kind : RejectionKind)
  deriving DecidableEq, Repr

structure TransitionResult (ε : Type*) where
  state : State ε
  directive : Directive
  deriving DecidableEq, Repr

/-- The retained failure, if the state carries one. -/
def failureOf : State ε → Option ε
  | .failed error => some error
  | .closing failure _ _ => failure
  | .closed failure _ => failure
  | _ => none

def isResult : Event ε → Bool
  | .prepareSucceeded | .legSucceeded | .readBeginSucceeded | .checkpointSucceeded
  | .finalizeSucceeded | .commandFailed _ | .closeSucceeded | .closeFailed _ => true
  | _ => false

def requestRejection (state : State ε) (event : Event ε) (kind : RejectionKind) :
    TransitionResult ε :=
  if isResult event then ⟨state, .ignore⟩ else ⟨state, .reject kind⟩

def handleStartRequest (state : State ε) : TransitionResult ε :=
  match state with
  | .constructed => ⟨.preparing, .admitRequest⟩
  | .closing _ _ false => ⟨state, .reject .closed⟩
  | .closed _ false => ⟨state, .reject .closed⟩
  | _ => if (failureOf state).isSome then ⟨state, .reject .failed⟩ else ⟨state, .ignore⟩

def handleCloseRequest (state : State ε) : TransitionResult ε :=
  match state with
  | .closed _ _ => ⟨state, .reuseClose⟩
  | .closing _ _ _ => ⟨state, .reuseClose⟩
  | .failed error => ⟨.closing (some error) false true, .admitRequest⟩
  | .constructed => ⟨.closing none false false, .admitRequest⟩
  | .preparing => ⟨.closing none false true, .admitRequest⟩
  | .prepared => ⟨.closing none false true, .admitRequest⟩
  | .reading => ⟨.closing none true true, .admitRequest⟩
  | .finalizing => ⟨.closing none true true, .admitRequest⟩
  | .finalized => ⟨.closing none true true, .admitRequest⟩

def handleCommandFailure (state : State ε) (error : ε) : TransitionResult ε :=
  let failure := (failureOf state).getD error
  match state with
  | .closing _ _ startAdmitted => ⟨.closing (some failure) false startAdmitted, .ignore⟩
  | .closed _ startAdmitted => ⟨.closed (some failure) startAdmitted, .ignore⟩
  | _ => ⟨.failed failure, .ignore⟩

def handleCloseFailure (state : State ε) (error : ε) : TransitionResult ε :=
  let failure := (failureOf state).getD error
  match state with
  | .closing _ _ startAdmitted => ⟨.closed (some failure) startAdmitted, .ignore⟩
  | .closed _ startAdmitted => ⟨.closed (some failure) startAdmitted, .ignore⟩
  | .constructed => ⟨.closed (some failure) false, .ignore⟩
  | _ => ⟨.closed (some failure) true, .ignore⟩

def handleClosing (failure : Option ε) (drain startAdmitted : Bool) (event : Event ε) :
    TransitionResult ε :=
  match event with
  | .closeSucceeded => ⟨.closed failure startAdmitted, .ignore⟩
  | .readBeginSucceeded => ⟨.closing failure failure.isNone startAdmitted, .ignore⟩
  | _ => requestRejection (.closing failure drain startAdmitted) event .closed

def handleConstructed : Event ε → TransitionResult ε
  | .publishRequested => ⟨.constructed, .admitRequest⟩
  | event => requestRejection .constructed event .notStarted

def handlePreparing : Event ε → TransitionResult ε
  | .prepareSucceeded => ⟨.prepared, .ignore⟩
  | .publishRequested => ⟨.preparing, .admitRequest⟩
  | event => requestRejection .preparing event .preparePending

def handlePrepared : Event ε → TransitionResult ε
  | .legRequested | .readBeginRequested | .publishRequested => ⟨.prepared, .admitRequest⟩
  | .finalizeRequested => ⟨.finalizing, .admitRequest⟩
  | .readBeginSucceeded => ⟨.reading, .ignore⟩
  | .legSucceeded => ⟨.prepared, .ignore⟩
  | event => requestRejection .prepared event .readPending

def handleReading : Event ε → TransitionResult ε
  | .finalizeRequested => ⟨.finalizing, .admitRequest⟩
  | .legRequested | .readBeginRequested | .checkpointRequested | .publishRequested =>
    ⟨.reading, .admitRequest⟩
  | .legSucceeded => ⟨.prepared, .ignore⟩
  | .readBeginSucceeded => ⟨.reading, .ignore⟩
  | event => requestRejection .reading event .readPending

def handleFinalizing : Event ε → TransitionResult ε
  | .finalizeSucceeded => ⟨.finalized, .ignore⟩
  | .finalizeRequested => ⟨.finalizing, .reject .finalizePending⟩
  | event => requestRejection .finalizing event .finalizing

/-- Apply one pure lifecycle transition. -/
def transition (state : State ε) (event : Event ε) : TransitionResult ε :=
  match event with
  | .startRequested => handleStartRequest state
  | .closeRequested => handleCloseRequest state
  | .commandFailed error => handleCommandFailure state error
  | .closeFailed error => handleCloseFailure state error
  | _ =>
    match state with
    | .closed failure startAdmitted => requestRejection (.closed failure startAdmitted) event .closed
    | .closing failure drain startAdmitted => handleClosing failure drain startAdmitted event
    | .failed error => requestRejection (.failed error) event .failed
    | .constructed => handleConstructed event
    | .preparing => handlePreparing event
    | .prepared => handlePrepared event
    | .reading => handleReading event
    | .finalizing => handleFinalizing event
    | .finalized => requestRejection .finalized event .finalized

/-- Close was asked for, or is over. -/
def isClosing : State ε → Bool
  | .closing _ _ _ | .closed _ _ => true
  | _ => false

def isFailureEvent : Event ε → Option ε
  | .commandFailed error | .closeFailed error => some error
  | _ => none

@[simp] theorem requestRejection_state (state : State ε) (event : Event ε) (kind : RejectionKind) :
    (requestRejection state event kind).state = state := by
  unfold requestRejection
  split <;> rfl

theorem handleStartRequest_failureOf (state : State ε) :
    failureOf (handleStartRequest state).state = failureOf state := by
  unfold handleStartRequest
  split <;> try rfl
  split <;> rfl

/-- Only a failure event changes the retained failure, and it never replaces one. -/
theorem transition_failureOf (state : State ε) (event : Event ε) :
    failureOf (transition state event).state = (failureOf state).or (isFailureEvent event) := by
  cases event with
  | startRequested => simp [transition, isFailureEvent, handleStartRequest_failureOf]
  | closeRequested => cases state <;> simp [transition, handleCloseRequest, failureOf, isFailureEvent]
  | commandFailed error =>
    cases state with
    | closing failure => cases failure <;> rfl
    | closed failure => cases failure <;> rfl
    | _ => rfl
  | closeFailed error =>
    cases state with
    | closing failure => cases failure <;> rfl
    | closed failure => cases failure <;> rfl
    | _ => rfl
  | _ =>
    cases state <;>
      simp [transition, isFailureEvent, handleClosing, handleConstructed, handlePreparing,
        handlePrepared, handleReading, handleFinalizing, failureOf]

theorem transition_isClosing {state : State ε} (event : Event ε) (h : isClosing state = true) :
    isClosing (transition state event).state = true := by
  cases state with
  | closing failure drain startAdmitted =>
    cases event <;> cases startAdmitted <;> cases failure <;> rfl
  | closed failure startAdmitted =>
    cases event <;> cases startAdmitted <;> cases failure <;> rfl
  | _ => simp [isClosing] at h

/-- A writer that closes or failed admits nothing more, a first close apart. -/
theorem transition_admits {state : State ε} {event : Event ε}
    (h : (transition state event).directive = .admitRequest) :
    isClosing state = false ∧ (failureOf state = none ∨ event = .closeRequested) := by
  cases state with
  | closing failure drain startAdmitted =>
    cases event <;> cases startAdmitted <;> cases failure <;> cases h
  | closed failure startAdmitted =>
    cases event <;> cases startAdmitted <;> cases failure <;> cases h
  | failed error =>
    refine ⟨rfl, .inr ?_⟩
    cases event <;> first | rfl | cases h
  | _ => exact ⟨rfl, .inl rfl⟩

theorem transition_closeRequested_isClosing (state : State ε) :
    isClosing (transition state .closeRequested).state = true := by
  cases state <;> rfl

end WriterMachine
