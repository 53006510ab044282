import OmiCollector.RecordedRuns
import Mathlib.Data.Rat.Defs
import Mathlib.Algebra.Order.Ring.Rat

/-! The presence scheduling policy: which advertisements of a pendant release an attempt, and how
an interrupted visit is retried or ended. Times are exact. -/
namespace PresenceMachine

open RecordedRuns

variable {κ : Type}

structure Policy where
  absenceSeconds : ℚ
  scanRecheckSeconds : ℚ
  drainCooldownSeconds : ℚ
  rapidBackoff : List ℚ
  arrivalStabilitySeconds : ℚ
  arrivalMaxGapSeconds : ℚ
  deriving DecidableEq, Repr

/-- A scanner observation; `κ` is the candidate it names. -/
structure Advertisement (κ : Type) where
  candidate : κ
  observedAt : ℚ
  rssiDbm : Option ℤ
  deriving DecidableEq, Repr

/-- Observing for a return. -/
structure Searching (κ : Type) where
  timerEpoch : ℤ
  scanRecheckAt : ℚ
  advertisement : Option (Advertisement κ)
  arrivalStartedAt : Option ℚ
  deriving DecidableEq, Repr

/-- A clean drain suppresses wakeups until the cooldown has passed. -/
structure CoolingDown (κ : Type) where
  timerEpoch : ℤ
  cooldownAt : ℚ
  recheckAt : ℚ
  advertisement : Option (Advertisement κ)
  arrivalStartedAt : Option ℚ
  deriving DecidableEq, Repr

/-- An interrupted attempt waits for a bounded retry. -/
structure RetryWaiting (κ : Type) where
  timerEpoch : ℤ
  retryAt : Option ℚ
  scanRecheckAt : ℚ
  retryIndex : ℕ
  advertisement : Option (Advertisement κ)
  arrivalStartedAt : Option ℚ
  absenceAt : Option ℚ
  deriving DecidableEq, Repr

inductive AttemptTrigger (κ : Type) where
  | advertisement (a : Advertisement κ)
  | rapidRetry (a : Advertisement κ)
  deriving DecidableEq, Repr

def AttemptTrigger.candidate : AttemptTrigger κ → Advertisement κ
  | advertisement a => a
  | rapidRetry a => a

inductive VisitEndReason where
  | absence
  | recoveryExhausted
  deriving DecidableEq, Repr

inductive WaitingState (κ : Type) where
  | searching (s : Searching κ)
  | coolingDown (s : CoolingDown κ)
  | retryWaiting (s : RetryWaiting κ)
  deriving DecidableEq, Repr

inductive PresenceState (κ : Type) where
  | waiting (w : WaitingState κ)
  | attempting (trigger : AttemptTrigger κ) (w : WaitingState κ)
  | closed
  deriving DecidableEq, Repr

inductive AttemptOutcome where
  | cleanDrain
  | notConnected (durableProgress : Bool)
  | connectedInterruption (durableProgress : Bool)
  | candidateUnavailable
  deriving DecidableEq, Repr

inductive PresenceEvent (κ : Type) where
  | advertisementObserved (a : Advertisement κ) (processedAt : Option ℚ)
  | scannerInterrupted (at_ : ℚ)
  | resumeInterruptedVisit (at_ : ℚ)
  | timerFired (at_ deadline : ℚ) (timerEpoch : ℤ)
  | attemptFinished (at_ : ℚ) (outcome : AttemptOutcome)
  | shutdown (at_ : ℚ)
  deriving DecidableEq, Repr

inductive PresenceDirective (κ : Type) where
  | observe
  | stopAndBeginAttempt (trigger : AttemptTrigger κ)
  | stop
  | noOperation
  | endVisit (reason : VisitEndReason)
  deriving DecidableEq, Repr

inductive PresenceError where
  | unexpectedAttemptOutcome
  | indexError
  deriving DecidableEq, Repr

abbrev TransitionResult (κ : Type) := PresenceState κ × PresenceDirective κ

namespace WaitingState

def timerEpoch : WaitingState κ → ℤ
  | searching s => s.timerEpoch
  | coolingDown s => s.timerEpoch
  | retryWaiting s => s.timerEpoch

def advertisement : WaitingState κ → Option (Advertisement κ)
  | searching s => s.advertisement
  | coolingDown s => s.advertisement
  | retryWaiting s => s.advertisement

def arrivalStartedAt : WaitingState κ → Option ℚ
  | searching s => s.arrivalStartedAt
  | coolingDown s => s.arrivalStartedAt
  | retryWaiting s => s.arrivalStartedAt

/-- The retry count; states outside a retry have none. -/
def retryIndex : WaitingState κ → ℕ
  | retryWaiting s => s.retryIndex
  | _ => 0

end WaitingState

def initialState (startedAt : ℚ) (policy : Policy) : WaitingState κ :=
  .searching ⟨0, startedAt + policy.scanRecheckSeconds, none, none⟩

/-- The one deadline armed in a waiting state. -/
def armedDeadline : WaitingState κ → ℚ
  | .searching s => s.scanRecheckAt
  | .coolingDown s => max s.cooldownAt s.recheckAt
  | .retryWaiting s =>
    let deadline := match s.retryAt with
      | none => s.scanRecheckAt
      | some retryAt => min s.scanRecheckAt retryAt
    match s.absenceAt with
    | none => deadline
    | some absenceAt => min deadline absenceAt

def observe (w : WaitingState κ) : TransitionResult κ := (.waiting w, .observe)

def begin_ (w : WaitingState κ) (trigger : AttemptTrigger κ) : TransitionResult κ :=
  (.attempting trigger w, .stopAndBeginAttempt trigger)

def endVisit (w : WaitingState κ) (at_ : ℚ) (reason : VisitEndReason) (policy : Policy) :
    TransitionResult κ :=
  (.waiting (.searching ⟨w.timerEpoch + 1, at_ + policy.scanRecheckSeconds, none, none⟩),
    .endVisit reason)

def clearArrival : WaitingState κ → WaitingState κ
  | .searching s => .searching ⟨s.timerEpoch, s.scanRecheckAt, none, none⟩
  | .coolingDown s => .coolingDown ⟨s.timerEpoch, s.cooldownAt, s.recheckAt, none, none⟩
  | .retryWaiting s =>
    .retryWaiting ⟨s.timerEpoch, s.retryAt, s.scanRecheckAt, s.retryIndex, none, none, s.absenceAt⟩

def replaceAdvertisement (a : Advertisement κ) (firstAt : ℚ) : WaitingState κ → WaitingState κ
  | .searching s => .searching ⟨s.timerEpoch, s.scanRecheckAt, some a, some firstAt⟩
  | .coolingDown s =>
    .coolingDown ⟨s.timerEpoch, s.cooldownAt, s.recheckAt, some a, some firstAt⟩
  | .retryWaiting s =>
    .retryWaiting ⟨s.timerEpoch, s.retryAt, s.scanRecheckAt, s.retryIndex, some a, some firstAt,
      s.absenceAt⟩

def refreshRetryAbsence (observedAt : ℚ) (policy : Policy) : WaitingState κ → WaitingState κ
  | .retryWaiting s =>
    let absenceAt := match s.absenceAt with
      | none => observedAt + policy.absenceSeconds
      | some absenceAt => max (observedAt + policy.absenceSeconds) absenceAt
    .retryWaiting ⟨s.timerEpoch, s.retryAt, s.scanRecheckAt, s.retryIndex, s.advertisement,
      s.arrivalStartedAt, some absenceAt⟩
  | w => w

/-- The start of the encounter that `a` continues; an encounter starts anew when there is none,
when time does not move on or when the gap is too long. -/
def firstAt (w : WaitingState κ) (a : Advertisement κ) (policy : Policy) : ℚ :=
  match w.advertisement with
  | none => a.observedAt
  | some previous =>
    if a.observedAt ≤ previous.observedAt ∨
        policy.arrivalMaxGapSeconds ≤ a.observedAt - previous.observedAt then a.observedAt
    else w.arrivalStartedAt.getD a.observedAt

def attemptTrigger (a : Advertisement κ) : WaitingState κ → AttemptTrigger κ
  | .retryWaiting _ => .rapidRetry a
  | _ => .advertisement a

/-- Accumulate one stable encounter; only a stable one releases an attempt. -/
def acceptAdvertisement (w : WaitingState κ) (a : Advertisement κ) (policy : Policy) :
    TransitionResult κ :=
  let first := firstAt w a policy
  if policy.arrivalStabilitySeconds ≤ a.observedAt - first then
    begin_ w (attemptTrigger a w)
  else observe (replaceAdvertisement a first w)

/-- The advertisement was neither processed before it was observed nor too late. -/
def Fresh (a : Advertisement κ) (processedAt : Option ℚ) (policy : Policy) : Prop :=
  ¬ (processedAt.getD a.observedAt < a.observedAt ∨
    a.observedAt + policy.arrivalMaxGapSeconds ≤ processedAt.getD a.observedAt)

instance (a : Advertisement κ) (processedAt : Option ℚ) (policy : Policy) :
    Decidable (Fresh a processedAt policy) := inferInstanceAs (Decidable (¬ _))

/-- A permit for a retry is always a rapid one. -/
def rapidPermit : TransitionResult κ → TransitionResult κ
  | (.attempting (.advertisement a) w, _) =>
    (.attempting (.advertisement a) w, .stopAndBeginAttempt (.rapidRetry a))
  | result => result

def handleAdvertisement (w : WaitingState κ) (a : Advertisement κ) (processedAt : Option ℚ)
    (policy : Policy) : TransitionResult κ :=
  if ¬ Fresh a processedAt policy then observe (clearArrival w)
  else match refreshRetryAbsence a.observedAt policy w with
    | .searching s => acceptAdvertisement (.searching s) a policy
    | .coolingDown s =>
      if a.observedAt < s.cooldownAt then observe (.coolingDown s)
      else acceptAdvertisement (.coolingDown s) a policy
    | .retryWaiting s =>
      if ∃ retryAt ∈ s.retryAt, a.observedAt < retryAt then observe (.retryWaiting s)
      else rapidPermit (acceptAdvertisement (.retryWaiting s) a policy)

def handleCooldownTimer (s : CoolingDown κ) (at_ : ℚ) (policy : Policy) : TransitionResult κ :=
  if at_ < s.cooldownAt then observe (.coolingDown s)
  else observe (.searching ⟨s.timerEpoch + 1, at_ + policy.scanRecheckSeconds, none, none⟩)

def handleRetryTimer (s : RetryWaiting κ) (at_ : ℚ) (policy : Policy) : TransitionResult κ :=
  let recheck := if at_ < s.scanRecheckAt then s.scanRecheckAt else at_ + policy.scanRecheckSeconds
  if at_ < armedDeadline (.retryWaiting s) then observe (.retryWaiting s)
  else if ∃ absenceAt ∈ s.absenceAt, absenceAt ≤ at_ then
    endVisit (.retryWaiting s) at_ .absence policy
  else match s.retryAt with
    | some retryAt =>
      if at_ < retryAt then
        observe (.retryWaiting ⟨s.timerEpoch + 1, some retryAt, at_ + policy.scanRecheckSeconds,
          s.retryIndex, s.advertisement, s.arrivalStartedAt, s.absenceAt⟩)
      else
        observe (.retryWaiting ⟨s.timerEpoch + 1, none, recheck, s.retryIndex, s.advertisement,
          s.arrivalStartedAt, s.absenceAt⟩)
    | none =>
      observe (.retryWaiting ⟨s.timerEpoch + 1, none, recheck, s.retryIndex, s.advertisement,
        s.arrivalStartedAt, s.absenceAt⟩)

def handleTimer (w : WaitingState κ) (at_ deadline : ℚ) (timerEpoch : ℤ) (policy : Policy) :
    TransitionResult κ :=
  if timerEpoch ≠ w.timerEpoch ∨ deadline ≠ armedDeadline w then (.waiting w, .noOperation)
  else match w with
    | .searching s =>
      if at_ < s.scanRecheckAt then observe (.searching s)
      else observe (.searching ⟨s.timerEpoch + 1, at_ + policy.scanRecheckSeconds, s.advertisement,
        s.arrivalStartedAt⟩)
    | .coolingDown s => handleCooldownTimer s at_ policy
    | .retryWaiting s => handleRetryTimer s at_ policy

/-- Schedule the next retry of an interrupted visit, or end it when the backoff is used up. -/
def retryAfter (w : WaitingState κ) (at_ : ℚ) (durableProgress : Bool) (policy : Policy) :
    Except PresenceError (TransitionResult κ) :=
  let previousCount := w.retryIndex
  let retryIndex := if durableProgress then 0 else previousCount + 1
  if durableProgress = false ∧ policy.rapidBackoff.length ≤ previousCount then
    .ok (endVisit w at_ .recoveryExhausted policy)
  else
    let delayIndex := if durableProgress then 0 else retryIndex - 1
    -- an empty backoff has no last element to fall back to
    match policy.rapidBackoff[min delayIndex (policy.rapidBackoff.length - 1)]? with
    | none => .error .indexError
    | some delay =>
      .ok (observe (.retryWaiting ⟨w.timerEpoch + 1, some (at_ + delay),
        at_ + policy.scanRecheckSeconds, retryIndex, none, none,
        some (at_ + policy.absenceSeconds)⟩))

def handleAttempting (w : WaitingState κ) (at_ : ℚ) (outcome : AttemptOutcome) (policy : Policy) :
    Except PresenceError (TransitionResult κ) :=
  match outcome with
  | .cleanDrain =>
    .ok (observe (.coolingDown ⟨w.timerEpoch + 1, at_ + policy.drainCooldownSeconds,
      at_ + policy.drainCooldownSeconds, none, none⟩))
  | .candidateUnavailable =>
    match w with
    | .retryWaiting s => .ok (observe (clearArrival (.retryWaiting s)))
    | w => .ok (observe (.searching ⟨w.timerEpoch + 1, at_ + policy.scanRecheckSeconds, none, none⟩))
  | .connectedInterruption durableProgress => retryAfter w at_ durableProgress policy
  | .notConnected durableProgress => retryAfter w at_ durableProgress policy

def resumeWaiting (at_ : ℚ) (policy : Policy) : WaitingState κ → WaitingState κ
  | .searching s =>
    .retryWaiting ⟨s.timerEpoch, none, s.scanRecheckAt, 0, s.advertisement, s.arrivalStartedAt,
      some (at_ + policy.absenceSeconds)⟩
  | .coolingDown s =>
    .retryWaiting ⟨s.timerEpoch, none, s.recheckAt, 0, s.advertisement, s.arrivalStartedAt,
      some (at_ + policy.absenceSeconds)⟩
  | .retryWaiting s =>
    .retryWaiting ⟨s.timerEpoch, s.retryAt, s.scanRecheckAt, s.retryIndex, s.advertisement,
      s.arrivalStartedAt, some (at_ + policy.absenceSeconds)⟩

def handleResumeInterruptedVisit (w : WaitingState κ) (at_ : ℚ) (policy : Policy) :
    TransitionResult κ :=
  match w with
  | .coolingDown s => (.waiting (.coolingDown s), .noOperation)
  | w => observe (resumeWaiting at_ policy w)

def transition (s : PresenceState κ) (e : PresenceEvent κ) (policy : Policy) :
    Except PresenceError (TransitionResult κ) :=
  match s, e with
  | .closed, _ => .ok (.closed, .noOperation)
  | _, .shutdown _ => .ok (.closed, .stop)
  | .attempting _ w, .attemptFinished at_ outcome => handleAttempting w at_ outcome policy
  | .waiting _, .attemptFinished _ _ => .error .unexpectedAttemptOutcome
  | .attempting trigger w, .resumeInterruptedVisit at_ =>
    .ok (.attempting trigger (resumeWaiting at_ policy w), .noOperation)
  | .attempting trigger w, _ => .ok (.attempting trigger w, .noOperation)
  | .waiting w, .resumeInterruptedVisit at_ => .ok (handleResumeInterruptedVisit w at_ policy)
  | .waiting w, .scannerInterrupted _ => .ok (observe (clearArrival w))
  | .waiting w, .advertisementObserved a processedAt =>
    .ok (handleAdvertisement w a processedAt policy)
  | .waiting w, .timerFired at_ deadline epoch => .ok (handleTimer w at_ deadline epoch policy)

/-- What the driver installs: the result, or the closed state that an unexpected outcome carries. -/
def perform (policy : Policy) (s : PresenceState κ) (e : PresenceEvent κ) :
    Option (TransitionResult κ) :=
  match transition s e policy with
  | .ok result => some result
  | .error .unexpectedAttemptOutcome => some (.closed, .stop)
  | .error .indexError => none

abbrev Step (κ : Type) := Entry (PresenceState κ) (PresenceEvent κ) (PresenceDirective κ)

/-- The steps of a run of the machine from its initial state. -/
def machineRun (policy : Policy) (startedAt : ℚ) (events : List (PresenceEvent κ)) :
    List (Step κ) :=
  record (perform policy) (.waiting (initialState startedAt policy)) events

variable {policy : Policy}

/-- What an interrupted attempt leads to: the end of a visit whose backoff is used up, or a wait
without an encounter and with the absence deadline set anew. -/
theorem retryAfter_cases {w : WaitingState κ} {t : ℚ} {progress : Bool} {r : TransitionResult κ}
    (h : retryAfter w t progress policy = .ok r) :
    (progress = false ∧ policy.rapidBackoff.length ≤ w.retryIndex ∧
      r = endVisit w t .recoveryExhausted policy) ∨
    ((progress = true ∨ w.retryIndex < policy.rapidBackoff.length) ∧
      ∃ s, r = observe (.retryWaiting s) ∧ s.advertisement = none ∧
        s.retryIndex = (if progress then 0 else w.retryIndex + 1) ∧
        s.absenceAt = some (t + policy.absenceSeconds)) := by
  unfold retryAfter at h
  by_cases hend : progress = false ∧ policy.rapidBackoff.length ≤ w.retryIndex
  · simp only [if_pos hend] at h
    exact .inl ⟨hend.1, hend.2, (Except.ok.inj h).symm⟩
  · simp only [if_neg hend] at h
    generalize policy.rapidBackoff[min (if progress = true then 0 else
      (if progress = true then 0 else w.retryIndex + 1) - 1)
        (policy.rapidBackoff.length - 1)]? = delay at h
    cases delay with
    | none => cases h
    | some delay =>
      refine .inr ⟨?_, _, (Except.ok.inj h).symm, rfl, rfl, rfl⟩
      cases progress with
      | true => exact .inl rfl
      | false => exact .inr (by simpa using hend)

/-- The outcome of an attempt leads back to waiting without an encounter. -/
theorem handleAttempting_spec {w : WaitingState κ} {t : ℚ} {outcome : AttemptOutcome}
    {r : TransitionResult κ} (h : handleAttempting w t outcome policy = .ok r) :
    ∃ w', r.1 = .waiting w' ∧ w'.advertisement = none ∧
      (r.2 = .observe ∨ r.2 = .endVisit .recoveryExhausted) := by
  have hretry : ∀ progress, retryAfter w t progress policy = .ok r →
      ∃ w', r.1 = .waiting w' ∧ w'.advertisement = none ∧
        (r.2 = .observe ∨ r.2 = .endVisit .recoveryExhausted) := by
    intro progress h
    rcases retryAfter_cases h with ⟨-, -, rfl⟩ | ⟨-, s, rfl, hnone, -⟩
    · exact ⟨_, rfl, rfl, .inr rfl⟩
    · exact ⟨_, rfl, hnone, .inl rfl⟩
  cases outcome with
  | cleanDrain => cases h; exact ⟨_, rfl, rfl, .inl rfl⟩
  | candidateUnavailable => cases w <;> (cases h; exact ⟨_, rfl, rfl, .inl rfl⟩)
  | connectedInterruption progress => exact hretry progress h
  | notConnected progress => exact hretry progress h

def visitEnded (e : Step κ) : Bool :=
  match e.output with
  | .endVisit _ => true
  | _ => false

/-- A step is a transition, or the close that an unexpected outcome asks for. -/
theorem taken_iff {e : Step κ} : Taken (perform policy) e ↔
    transition e.before e.input policy = .ok (e.after, e.output) ∨
      (transition e.before e.input policy = .error .unexpectedAttemptOutcome ∧
        e.after = .closed ∧ e.output = .stop) := by
  unfold Taken perform
  cases h : transition e.before e.input policy with
  | ok r => simp
  | error err => cases err <;> simp [eq_comm]

theorem retryAfter_ne_unexpected (w : WaitingState κ) (t : ℚ) (progress : Bool) :
    retryAfter w t progress policy ≠ .error .unexpectedAttemptOutcome := by
  intro h
  unfold retryAfter at h
  by_cases hend : progress = false ∧ policy.rapidBackoff.length ≤ w.retryIndex
  · simp [hend] at h
  · simp only [if_neg hend] at h
    split at h <;> simp at h

/-- Only a waiting state meets an unexpected outcome. -/
theorem waiting_of_unexpected {s : PresenceState κ} {e : PresenceEvent κ}
    (h : transition s e policy = .error .unexpectedAttemptOutcome) : ∃ w, s = .waiting w := by
  cases s with
  | waiting w => exact ⟨w, rfl⟩
  | closed => cases h
  | attempting trigger w =>
    cases e with
    | attemptFinished t outcome =>
      cases outcome with
      | cleanDrain => cases h
      | candidateUnavailable => cases w <;> cases h
      | connectedInterruption progress => exact absurd h (retryAfter_ne_unexpected w t progress)
      | notConnected progress => exact absurd h (retryAfter_ne_unexpected w t progress)
    | _ => cases h

end PresenceMachine
