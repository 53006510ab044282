import OmiCollector.PresenceEncounter

/-! How an interrupted visit ends: after a bounded number of interruptions without progress, or
after true absence. The retry count and the absence deadline are rebuilt by every transition; here
they are read back from the whole run. -/
namespace PresenceVisits

open RecordedRuns PresenceMachine PresenceEncounter

variable {κ : Type} {policy : Policy}

/-- When an event is handled. -/
def eventTime : PresenceEvent κ → ℚ
  | .advertisementObserved a processedAt => processedAt.getD a.observedAt
  | .scannerInterrupted t => t
  | .resumeInterruptedVisit t => t
  | .timerFired t _ _ => t
  | .attemptFinished t _ => t
  | .shutdown t => t

/-- The waiting state that a state carries. -/
def waitingOf : PresenceState κ → Option (WaitingState κ)
  | .waiting w => some w
  | .attempting _ w => some w
  | .closed => none

/-- The outcome that an outstanding attempt reports in the step. -/
def outcomeOf (e : Step κ) : Option AttemptOutcome :=
  match e.before, e.input with
  | .attempting _ _, .attemptFinished _ outcome => some outcome
  | _, _ => none

/-- Whether the attempt was interrupted, and with durable progress or without. -/
def interruptionOf (e : Step κ) : Option Bool :=
  match outcomeOf e with
  | some (.notConnected progress) => some progress
  | some (.connectedInterruption progress) => some progress
  | _ => none

/-- Progress, a clean drain and the end of a visit start the count anew. -/
def countStep (count : ℕ) (e : Step κ) : ℕ :=
  if visitEnded e ∨ outcomeOf e = some .cleanDrain then 0
  else match interruptionOf e with
    | none => count
    | some progress => if progress then 0 else count + 1

/-- The interruptions without progress since the last progress, clean drain or visit end. -/
def interruptions (past : List (Step κ)) : ℕ := past.foldl countStep 0

@[simp] theorem interruptions_snoc (past : List (Step κ)) (e : Step κ) :
    interruptions (past ++ [e]) = countStep (interruptions past) e := by
  simp [interruptions, List.foldl_append]

/-- The time at which a step shows the pendant present: an interrupted attempt, a resumed visit,
or a fresh advertisement handled while waiting. -/
def presentAt (policy : Policy) (e : Step κ) : Option ℚ :=
  match e.before, e.input with
  | _, .resumeInterruptedVisit t => some t
  | .waiting _, .advertisementObserved a p => if Fresh a p policy then some a.observedAt else none
  | _, .attemptFinished t _ => (interruptionOf e).map fun _ => t
  | _, _ => none

theorem presentAt_le {e : Step κ} {t : ℚ} (h : presentAt policy e = some t) :
    t ≤ eventTime e.input := by
  obtain ⟨before, input, after, output⟩ := e
  cases input with
  | resumeInterruptedVisit u => cases before <;> (cases h; exact le_rfl)
  | advertisementObserved a p =>
    cases before with
    | waiting w =>
      by_cases hfresh : Fresh a p policy
      · obtain rfl : a.observedAt = t := by simpa [presentAt, hfresh] using h
        exact not_lt.mp fun hlt => hfresh (.inl hlt)
      · simp [presentAt, hfresh] at h
    | _ => cases h
  | attemptFinished u outcome =>
    have hmap : (interruptionOf ⟨before, .attemptFinished u outcome, after, output⟩).map
        (fun _ => u) = some t := by
      cases before <;> exact h
    obtain ⟨_, -, rfl⟩ := Option.map_eq_some_iff.mp hmap
    exact le_rfl
  | _ => cases before <;> cases h

/-- No absence before `t`: a retry's absence deadline is armed at `t` or later. -/
def PresentUntil : WaitingState κ → ℚ → Prop
  | .retryWaiting s, t => ∃ absenceAt ∈ s.absenceAt, t ≤ absenceAt
  | _, _ => True

/-- `w'` carries the retry count and the absence deadline of `w`. -/
structure Carries (w w' : WaitingState κ) : Prop where
  retryIndex : w'.retryIndex = w.retryIndex
  presentUntil : ∀ t, PresentUntil w t → PresentUntil w' t

theorem Carries.refl (w : WaitingState κ) : Carries w w := ⟨rfl, fun _ h => h⟩

theorem Carries.trans {u v w : WaitingState κ} (h : Carries u v) (h' : Carries v w) :
    Carries u w :=
  ⟨h'.retryIndex.trans h.retryIndex, fun t ht => h'.presentUntil t (h.presentUntil t ht)⟩

theorem carries_clearArrival (w : WaitingState κ) : Carries w (clearArrival w) := by
  cases w <;> exact ⟨rfl, fun _ h => h⟩

theorem carries_replaceAdvertisement (a : Advertisement κ) (t : ℚ) (w : WaitingState κ) :
    Carries w (replaceAdvertisement a t w) := by
  cases w <;> exact ⟨rfl, fun _ h => h⟩

theorem carries_refreshRetryAbsence (t : ℚ) (w : WaitingState κ) :
    Carries w (refreshRetryAbsence t policy w) := by
  cases w with
  | searching s => exact Carries.refl _
  | coolingDown s => exact Carries.refl _
  | retryWaiting s =>
    refine ⟨rfl, ?_⟩
    rintro u ⟨absenceAt, harmed, hle⟩
    have hs : s.absenceAt = some absenceAt := harmed
    simp only [refreshRetryAbsence, PresentUntil, hs, Option.mem_some_iff, exists_eq_left']
    exact hle.trans (le_max_right _ _)

theorem presentUntil_refreshRetryAbsence (t : ℚ) (w : WaitingState κ) :
    PresentUntil (refreshRetryAbsence t policy w) (t + policy.absenceSeconds) := by
  cases w with
  | searching s => trivial
  | coolingDown s => trivial
  | retryWaiting s =>
    cases hs : s.absenceAt with
    | none => simp [refreshRetryAbsence, PresentUntil, hs]
    | some absenceAt => simp [refreshRetryAbsence, PresentUntil, hs]

theorem retryIndex_resumeWaiting (t : ℚ) (w : WaitingState κ) :
    (resumeWaiting t policy w).retryIndex = w.retryIndex := by
  cases w <;> rfl

theorem presentUntil_resumeWaiting {t u : ℚ} (w : WaitingState κ)
    (h : u ≤ t + policy.absenceSeconds) : PresentUntil (resumeWaiting t policy w) u := by
  cases w <;> simpa [resumeWaiting, PresentUntil] using h

/-- What a timer does to a visit: it carries it on, or ends it when the absence deadline has
passed. -/
theorem handleTimer_visit (w : WaitingState κ) (t deadline : ℚ) (epoch : ℤ) (policy : Policy) :
    (∃ w' d, handleTimer w t deadline epoch policy = (.waiting w', d) ∧
      (d = .observe ∨ d = .noOperation) ∧ Carries w w') ∨
    (∃ s, w = .retryWaiting s ∧ (∃ absenceAt ∈ s.absenceAt, absenceAt ≤ t) ∧
      handleTimer w t deadline epoch policy = endVisit w t .absence policy) := by
  unfold handleTimer
  by_cases hstale : epoch ≠ w.timerEpoch ∨ deadline ≠ armedDeadline w
  · exact .inl ⟨w, .noOperation, if_pos hstale, .inr rfl, Carries.refl w⟩
  · rw [if_neg hstale]
    cases w with
    | searching s =>
      by_cases hearly : t < s.scanRecheckAt
      · exact .inl ⟨_, _, if_pos hearly, .inl rfl, Carries.refl _⟩
      · exact .inl ⟨_, _, if_neg hearly, .inl rfl, rfl, fun _ h => h⟩
    | coolingDown s =>
      by_cases hearly : t < s.cooldownAt
      · exact .inl ⟨_, _, if_pos hearly, .inl rfl, Carries.refl _⟩
      · exact .inl ⟨_, _, if_neg hearly, .inl rfl, rfl, fun _ h => h⟩
    | retryWaiting s =>
      simp only [handleRetryTimer]
      by_cases hearly : t < armedDeadline (.retryWaiting s)
      · exact .inl ⟨_, _, if_pos hearly, .inl rfl, Carries.refl _⟩
      · rw [if_neg hearly]
        by_cases habsent : ∃ absenceAt ∈ s.absenceAt, absenceAt ≤ t
        · exact .inr ⟨s, rfl, habsent, if_pos habsent⟩
        · rw [if_neg habsent]
          left
          cases s.retryAt with
          | none => exact ⟨_, _, rfl, .inl rfl, rfl, fun _ h => h⟩
          | some retryAt =>
            by_cases hbefore : t < retryAt
            · exact ⟨_, _, if_pos hbefore, .inl rfl, rfl, fun _ h => h⟩
            · exact ⟨_, _, if_neg hbefore, .inl rfl, rfl, fun _ h => h⟩

/-- What a step does to the visit whose waiting state it starts from. -/
inductive VisitStep (policy : Policy) (e : Step κ) (w w' : WaitingState κ) : Prop where
  | carried (hcarries : Carries w w') (hvisit : visitEnded e = false)
      (hcount : interruptionOf e = none) (hclean : outcomeOf e ≠ some .cleanDrain)
      (hpresent : ∀ t ∈ presentAt policy e, PresentUntil w' (t + policy.absenceSeconds))
  | resumed (hindex : w'.retryIndex = w.retryIndex) (hvisit : visitEnded e = false)
      (hcount : interruptionOf e = none) (hclean : outcomeOf e ≠ some .cleanDrain)
      (hpresent : ∀ t ≤ eventTime e.input + policy.absenceSeconds, PresentUntil w' t)
  | retried (progress : Bool) (hcount : interruptionOf e = some progress)
      (hleft : progress = true ∨ w.retryIndex < policy.rapidBackoff.length)
      (hvisit : visitEnded e = false) (hindex : w'.retryIndex = if progress then 0 else
        w.retryIndex + 1)
      (hpresent : ∀ t ≤ eventTime e.input + policy.absenceSeconds, PresentUntil w' t)
  | drained (hclean : outcomeOf e = some .cleanDrain) (hvisit : visitEnded e = false)
      (hindex : w'.retryIndex = 0) (hpresent : ∀ t, PresentUntil w' t)
  | exhausted (hout : e.output = .endVisit .recoveryExhausted)
      (hcount : interruptionOf e = some false)
      (hused : policy.rapidBackoff.length ≤ w.retryIndex) (hindex : w'.retryIndex = 0)
      (hpresent : ∀ t, PresentUntil w' t)
  | absent (hout : e.output = .endVisit .absence) (hcount : interruptionOf e = none)
      (hpassed : ∃ s absenceAt, w = .retryWaiting s ∧ s.absenceAt = some absenceAt ∧
        absenceAt ≤ eventTime e.input)
      (hindex : w'.retryIndex = 0) (hpresent : ∀ t, PresentUntil w' t)

theorem visitStep_attempting {trigger : AttemptTrigger κ} {w : WaitingState κ} {t : ℚ}
    {outcome : AttemptOutcome} {after : PresenceState κ} {output : PresenceDirective κ}
    (h : handleAttempting w t outcome policy = .ok (after, output)) :
    ∃ w', after = .waiting w' ∧
      VisitStep policy ⟨.attempting trigger w, .attemptFinished t outcome, after, output⟩ w w' := by
  have hretry : ∀ progress, interruptionOf ⟨.attempting trigger w, .attemptFinished t outcome,
      after, output⟩ = some progress → retryAfter w t progress policy = .ok (after, output) →
      ∃ w', after = .waiting w' ∧ VisitStep policy
        ⟨.attempting trigger w, .attemptFinished t outcome, after, output⟩ w w' := by
    intro progress hcount h
    rcases retryAfter_cases h with ⟨rfl, hused, hresult⟩ | ⟨hleft, s, hresult, -, hindex, habsence⟩
    · cases hresult
      exact ⟨_, rfl, .exhausted rfl hcount hused rfl fun _ => trivial⟩
    · cases hresult
      refine ⟨_, rfl, .retried progress hcount hleft rfl hindex ?_⟩
      intro u hu
      exact ⟨_, habsence, hu⟩
  cases outcome with
  | cleanDrain => cases h; exact ⟨_, rfl, .drained rfl rfl rfl fun _ => trivial⟩
  | candidateUnavailable =>
    cases w with
    | retryWaiting s =>
      cases h
      exact ⟨_, rfl, .carried (carries_clearArrival _) rfl rfl (by simp [outcomeOf])
        (by simp [presentAt, interruptionOf, outcomeOf])⟩
    | _ =>
      cases h
      exact ⟨_, rfl, .carried ⟨rfl, fun _ h => h⟩ rfl rfl (by simp [outcomeOf])
        (by simp [presentAt, interruptionOf, outcomeOf])⟩
  | connectedInterruption progress => exact hretry progress rfl h
  | notConnected progress => exact hretry progress rfl h

/-- A step that goes on is one of the kinds above, and every other step closes the machine. -/
theorem visit_cases {e : Step κ} (h : Taken (perform policy) e) :
    (e.after = .closed ∧ visitEnded e = false ∧ interruptionOf e = none) ∨
      ∃ w w', waitingOf e.before = some w ∧ waitingOf e.after = some w' ∧
        VisitStep policy e w w' := by
  obtain ⟨before, input, after, output⟩ := e
  rcases taken_iff.mp h with h' | ⟨hunexpected, rfl, rfl⟩
  · simp only at h'
    cases before with
    | closed => cases h'; exact .inl ⟨rfl, rfl, rfl⟩
    | attempting trigger w =>
      cases input with
      | shutdown t => cases h'; exact .inl ⟨rfl, rfl, rfl⟩
      | attemptFinished t outcome =>
        obtain ⟨w', rfl, hstep⟩ := visitStep_attempting h'
        exact .inr ⟨w, w', rfl, rfl, hstep⟩
      | resumeInterruptedVisit t =>
        cases h'
        exact .inr ⟨w, _, rfl, rfl, .resumed (retryIndex_resumeWaiting t w) rfl rfl
          (by simp [outcomeOf]) fun u hu => presentUntil_resumeWaiting w hu⟩
      | _ =>
        cases h'
        exact .inr ⟨w, w, rfl, rfl, .carried (Carries.refl w) rfl rfl (by simp [outcomeOf])
          (by simp [presentAt])⟩
    | waiting w =>
      cases input with
      | shutdown t => cases h'; exact .inl ⟨rfl, rfl, rfl⟩
      | attemptFinished t outcome => cases h'
      | scannerInterrupted t =>
        cases h'
        exact .inr ⟨w, _, rfl, rfl, .carried (carries_clearArrival w) rfl rfl (by simp [outcomeOf])
          (by simp [presentAt])⟩
      | resumeInterruptedVisit t =>
        cases w with
        | coolingDown s =>
          cases h'
          exact .inr ⟨_, _, rfl, rfl, .resumed rfl rfl rfl (by simp [outcomeOf])
            fun _ _ => trivial⟩
        | _ =>
          cases h'
          exact .inr ⟨_, _, rfl, rfl, .resumed (retryIndex_resumeWaiting t _) rfl rfl
            (by simp [outcomeOf]) fun u hu => presentUntil_resumeWaiting _ hu⟩
      | timerFired t deadline epoch =>
        have hresult : handleTimer w t deadline epoch policy = (after, output) := Except.ok.inj h'
        rcases handleTimer_visit w t deadline epoch policy with
          ⟨w', d, hcase, hd, hcarries⟩ | ⟨s, rfl, ⟨absenceAt, harmed, hpassed⟩, hcase⟩
        · rw [hcase] at hresult
          cases hresult
          refine .inr ⟨w, w', rfl, rfl, .carried hcarries ?_ rfl (by simp [outcomeOf])
            (by simp [presentAt])⟩
          rcases hd with rfl | rfl <;> rfl
        · rw [hcase] at hresult
          cases hresult
          exact .inr ⟨_, _, rfl, rfl, .absent rfl rfl ⟨s, absenceAt, rfl, harmed, hpassed⟩ rfl
            fun _ => trivial⟩
      | advertisementObserved a p =>
        by_cases hfresh : Fresh a p policy
        · obtain ⟨hcontinues, hcases⟩ := fresh_cases h rfl rfl hfresh
          -- both the ignored and the accepted advertisement refresh the absence deadline
          have hstep : ∀ w', Carries (refreshRetryAbsence a.observedAt policy w) w' →
              VisitStep policy ⟨.waiting w, .advertisementObserved a p, after, output⟩ w w' := by
            intro w' hcarries
            refine .carried ((carries_refreshRetryAbsence _ w).trans hcarries)
              hcontinues.visitEnded rfl (by simp [outcomeOf]) ?_
            intro t ht
            obtain rfl : a.observedAt = t := by simpa [presentAt, hfresh] using ht
            exact hcarries.presentUntil _ (presentUntil_refreshRetryAbsence _ w)
          rcases hcases with ⟨rfl, -⟩ | ⟨-, ⟨rfl, -⟩ | ⟨-, trigger, -, -, rfl⟩⟩
          · exact .inr ⟨w, _, rfl, rfl, hstep _ (Carries.refl _)⟩
          · exact .inr ⟨w, _, rfl, rfl, hstep _ (carries_replaceAdvertisement _ _ _)⟩
          · exact .inr ⟨w, _, rfl, rfl, hstep _ (Carries.refl _)⟩
        · have hresult : handleAdvertisement w a p policy = (after, output) := Except.ok.inj h'
          rw [handleAdvertisement, if_pos hfresh] at hresult
          cases hresult
          exact .inr ⟨w, _, rfl, rfl, .carried (carries_clearArrival w) rfl rfl (by simp [outcomeOf])
            (by simp [presentAt, hfresh])⟩
  · obtain ⟨w, rfl⟩ := waiting_of_unexpected hunexpected
    exact .inl ⟨rfl, rfl, rfl⟩

/-- What the run has left in the state reached: the retry count is the number of interruptions
without progress, within the backoff, and no absence deadline is armed too early. -/
structure VisitInv (policy : Policy) (past : List (Step κ)) (s : PresenceState κ) : Prop where
  count : ∀ w ∈ waitingOf s, w.retryIndex = interruptions past
  bounded : ∀ w ∈ waitingOf s, w.retryIndex ≤ policy.rapidBackoff.length
  present : ∀ w ∈ waitingOf s, ∀ p ∈ past, ∀ t ∈ presentAt policy p,
    PresentUntil w (t + policy.absenceSeconds)

theorem VisitStep.retryIndex {e : Step κ} {w w' : WaitingState κ} (h : VisitStep policy e w w') :
    w'.retryIndex = countStep w.retryIndex e := by
  cases h with
  | carried hcarries hvisit hcount hclean =>
    simp [countStep, hvisit, hcount, hclean, hcarries.retryIndex]
  | resumed hindex hvisit hcount hclean => simp [countStep, hvisit, hcount, hclean, hindex]
  | retried progress hcount hleft hvisit hindex =>
    have hclean : outcomeOf e ≠ some .cleanDrain := by
      intro hclean
      simp [interruptionOf, hclean] at hcount
    simp [countStep, hvisit, hcount, hclean, hindex]
  | drained hclean hvisit hindex => simp [countStep, hclean, hindex]
  | exhausted hout hcount hused hindex => simp [countStep, visitEnded, hout, hindex]
  | absent hout hcount hpassed hindex => simp [countStep, visitEnded, hout, hindex]

theorem VisitStep.bounded {e : Step κ} {w w' : WaitingState κ} (h : VisitStep policy e w w')
    (hw : w.retryIndex ≤ policy.rapidBackoff.length) :
    w'.retryIndex ≤ policy.rapidBackoff.length := by
  cases h with
  | carried hcarries => rw [hcarries.retryIndex]; exact hw
  | resumed hindex => rw [hindex]; exact hw
  | retried progress hcount hleft hvisit hindex =>
    rw [hindex]
    cases progress with
    | true => exact Nat.zero_le _
    | false =>
      have hlt : w.retryIndex < policy.rapidBackoff.length := by simpa using hleft
      exact hlt
  | drained hclean hvisit hindex => rw [hindex]; exact Nat.zero_le _
  | exhausted hout hcount hused hindex => rw [hindex]; exact Nat.zero_le _
  | absent hout hcount hpassed hindex => rw [hindex]; exact Nat.zero_le _

/-- A step keeps the absence deadline late enough for every earlier time, and for its own. -/
theorem VisitStep.present {e : Step κ} {w w' : WaitingState κ} (h : VisitStep policy e w w') :
    (∀ t ≤ eventTime e.input, PresentUntil w (t + policy.absenceSeconds) →
      PresentUntil w' (t + policy.absenceSeconds)) ∧
    ∀ t ∈ presentAt policy e, PresentUntil w' (t + policy.absenceSeconds) := by
  -- a deadline set anew from the event's time is late enough for every time up to it
  have anew : (∀ t ≤ eventTime e.input + policy.absenceSeconds, PresentUntil w' t) →
      (∀ t ≤ eventTime e.input, PresentUntil w (t + policy.absenceSeconds) →
        PresentUntil w' (t + policy.absenceSeconds)) ∧
      ∀ t ∈ presentAt policy e, PresentUntil w' (t + policy.absenceSeconds) := by
    intro hpresent
    constructor
    · exact fun t ht _ => hpresent _ (add_le_add_left ht _)
    · exact fun t ht => hpresent _ (add_le_add_left (presentAt_le ht) _)
  cases h with
  | carried hcarries hvisit hcount hclean hpresent =>
    exact ⟨fun t _ ht => hcarries.presentUntil _ ht, hpresent⟩
  | resumed hindex hvisit hcount hclean hpresent => exact anew hpresent
  | retried progress hcount hleft hvisit hindex hpresent => exact anew hpresent
  | drained hclean hvisit hindex hpresent => exact anew fun t _ => hpresent t
  | exhausted hout hcount hused hindex hpresent => exact anew fun t _ => hpresent t
  | absent hout hcount hpassed hindex hpresent => exact anew fun t _ => hpresent t

theorem visitInv_step {past : List (Step κ)} {e : Step κ} (hinv : VisitInv policy past e.before)
    (hordered : ∀ p ∈ past, eventTime p.input ≤ eventTime e.input)
    (h : Taken (perform policy) e) : VisitInv policy (past ++ [e]) e.after := by
  rcases visit_cases h with ⟨hclosed, -⟩ | ⟨w, w', hw, hw', hstep⟩
  · rw [hclosed]
    constructor <;> (intro w hw; cases hw)
  · have hsome : ∀ u ∈ waitingOf e.after, u = w' := by
      intro u hu
      rw [Option.mem_def, hw'] at hu
      exact (Option.some.inj hu).symm
    constructor
    · intro u hu
      rw [hsome u hu, hstep.retryIndex, hinv.count w hw, interruptions_snoc]
    · intro u hu
      rw [hsome u hu]
      exact hstep.bounded (hinv.bounded w hw)
    · intro u hu p hp t ht
      rw [hsome u hu]
      rcases List.mem_append.mp hp with hp | hp
      · exact hstep.present.1 t ((presentAt_le ht).trans (hordered p hp)) (hinv.present w hw p hp t ht)
      · obtain rfl := List.mem_singleton.mp hp
        exact hstep.present.2 t ht

theorem output_of_visitEnded {e : Step κ} (h : visitEnded e = false) (reason : VisitEndReason) :
    e.output ≠ .endVisit reason := by
  intro hout
  simp [visitEnded, hout] at h

/-- A visit is given up exactly at an interruption without progress when the backoff is used up. -/
theorem exhausted_iff {past : List (Step κ)} {e : Step κ} (hinv : VisitInv policy past e.before)
    (h : Taken (perform policy) e) : e.output = .endVisit .recoveryExhausted ↔
      interruptionOf e = some false ∧ interruptions past = policy.rapidBackoff.length := by
  rcases visit_cases h with ⟨-, hvisit, hcount⟩ | ⟨w, w', hw, -, hstep⟩
  · simp [output_of_visitEnded hvisit, hcount]
  · have hindex := hinv.count w hw
    have hbound := hinv.bounded w hw
    cases hstep with
    | carried hcarries hvisit hcount => simp [output_of_visitEnded hvisit, hcount]
    | resumed hindex hvisit hcount => simp [output_of_visitEnded hvisit, hcount]
    | retried progress hcount hleft hvisit =>
      cases progress with
      | true => simp [output_of_visitEnded hvisit, hcount]
      | false =>
        have hlt : w.retryIndex < policy.rapidBackoff.length := by simpa using hleft
        simp only [output_of_visitEnded hvisit, false_iff, not_and]
        omega
    | drained hclean hvisit => simp [output_of_visitEnded hvisit, interruptionOf, hclean]
    | exhausted hout hcount hused => simp only [hout, hcount, true_and, true_iff]; omega
    | absent hout hcount => simp [hout, hcount]

/-- A visit ends in absence only when every earlier proof of presence is old enough. -/
theorem absence_present {past : List (Step κ)} {e : Step κ} (hinv : VisitInv policy past e.before)
    (h : Taken (perform policy) e) (hout : e.output = .endVisit .absence) :
    ∀ p ∈ past, ∀ t ∈ presentAt policy p, t + policy.absenceSeconds ≤ eventTime e.input := by
  intro p hp t ht
  rcases visit_cases h with ⟨-, hvisit, -⟩ | ⟨w, w', hw, -, hstep⟩
  · exact absurd hout (output_of_visitEnded hvisit _)
  · have hpresent := hinv.present w hw p hp t ht
    cases hstep with
    | absent _ _ hpassed =>
      obtain ⟨s, absenceAt, rfl, harmed, hpassed⟩ := hpassed
      obtain ⟨armed, hmem, hle⟩ := hpresent
      rw [Option.mem_def, harmed] at hmem
      rw [← Option.some.inj hmem] at hle
      exact hle.trans hpassed
    | carried _ hvisit => exact absurd hout (output_of_visitEnded hvisit _)
    | resumed _ hvisit => exact absurd hout (output_of_visitEnded hvisit _)
    | retried _ _ _ hvisit => exact absurd hout (output_of_visitEnded hvisit _)
    | drained _ hvisit => exact absurd hout (output_of_visitEnded hvisit _)
    | exhausted hexhausted => rw [hexhausted] at hout; cases hout

/-- A timer that is not the armed one changes nothing, in any state. -/
theorem transition_staleTimer (s : PresenceState κ) (t deadline : ℚ) (epoch : ℤ) (policy : Policy)
    (h : ∀ w, s = .waiting w → epoch ≠ w.timerEpoch ∨ deadline ≠ armedDeadline w) :
    transition s (.timerFired t deadline epoch) policy = .ok (s, .noOperation) := by
  cases s with
  | closed => rfl
  | attempting trigger w => rfl
  | waiting w =>
    have hstale := h w rfl
    simp only [transition]
    unfold handleTimer
    rw [if_pos hstale]

/-- Over every run with times in order, a visit is given up exactly at the interruption without
progress that follows as many of them as the backoff is long; it ends in absence only
`absenceSeconds` after every earlier interruption, resumption and fresh advertisement handled
outside an attempt; and a timer that is not the armed one changes nothing. -/
theorem interrupted_visits (policy : Policy) (startedAt : ℚ) (events : List (PresenceEvent κ))
    (hordered : events.Pairwise fun a b => eventTime a ≤ eventTime b) :
    (∀ pre e post, machineRun policy startedAt events = pre ++ e :: post →
      (e.output = .endVisit .recoveryExhausted ↔
        interruptionOf e = some false ∧ interruptions pre = policy.rapidBackoff.length)) ∧
    (∀ pre e post, machineRun policy startedAt events = pre ++ e :: post →
      e.output = .endVisit .absence → ∀ p ∈ pre, ∀ t ∈ presentAt policy p,
        t + policy.absenceSeconds ≤ eventTime e.input) ∧
    ∀ (s : PresenceState κ) (t deadline : ℚ) (epoch : ℤ),
      (∀ w, s = .waiting w → epoch ≠ w.timerEpoch ∨ deadline ≠ armedDeadline w) →
      transition s (.timerFired t deadline epoch) policy = .ok (s, .noOperation) := by
  have hinitial : VisitInv policy [] (.waiting (initialState startedAt policy) :
      PresenceState κ) := by
    constructor
    · intro w hw
      cases hw
      rfl
    · intro w hw
      cases hw
      exact Nat.zero_le _
    · intro w hw p hp
      cases hp
  have hcut : ∀ {pre e post}, machineRun policy startedAt events = pre ++ e :: post →
      VisitInv policy pre e.before ∧ Taken (perform policy) e := by
    intro pre e post hrun
    obtain ⟨hinv, -, htaken⟩ := record_invariant
      (fun past e hinv hbefore htaken => visitInv_step hinv hbefore htaken) hinitial
      (by simpa using hordered) hrun
    exact ⟨hinv, htaken⟩
  refine ⟨?_, ?_, ?_⟩
  · intro pre e post hrun
    obtain ⟨hinv, htaken⟩ := hcut hrun
    exact exhausted_iff hinv htaken
  · intro pre e post hrun hout
    obtain ⟨hinv, htaken⟩ := hcut hrun
    exact absence_present hinv htaken hout
  · exact fun s t deadline epoch h => transition_staleTimer s t deadline epoch policy h

def samplePolicy : Policy := ⟨10, 100, 900, [1], 5, 10⟩

/-- An advertisement that is observed during an attempt. -/
def sighting : Advertisement Unit := ⟨(), 12, none⟩

/-- A visit is resumed during an attempt, the pendant is sighted, the attempt's candidate turns out
unusable, and the absence timer fires. -/
def sightingEvents : List (PresenceEvent Unit) :=
  [.advertisementObserved ⟨(), 0, none⟩ none, .advertisementObserved ⟨(), 5, none⟩ none,
    .resumeInterruptedVisit 6, .advertisementObserved sighting (some 12),
    .attemptFinished 13 .candidateUnavailable, .timerFired 16 16 0]

theorem interrupted_visits_sighting :
    (machineRun samplePolicy 0 sightingEvents).map Entry.output =
        [.observe, .stopAndBeginAttempt (.advertisement ⟨(), 5, none⟩), .noOperation, .noOperation,
          .observe, .endVisit .absence] ∧
      ∀ pre e post, machineRun samplePolicy 0 sightingEvents = pre ++ e :: post →
        e.output = .endVisit .absence → ∀ p ∈ pre, ∀ t ∈ presentAt samplePolicy p,
          t + 10 ≤ eventTime e.input := by
  have hordered : sightingEvents.Pairwise fun a b => eventTime a ≤ eventTime b := by
    decide +kernel
  exact ⟨by decide +kernel, (interrupted_visits samplePolicy 0 sightingEvents hordered).2.1⟩

/-- The sighting during the attempt is fresh and later than the resumption, yet the visit ends in
absence four seconds after it. -/
theorem absence_overlooks_sighting :
    sightingEvents.Pairwise (fun a b => eventTime a ≤ eventTime b) ∧
      sightingEvents[2]? = some (.resumeInterruptedVisit 6) ∧
      sightingEvents[3]? = some (.advertisementObserved sighting (some 12)) ∧
      Fresh sighting (some 12) samplePolicy ∧
      sightingEvents[5]? = some (.timerFired 16 16 0) ∧
      ((machineRun samplePolicy 0 sightingEvents)[5]?).map Entry.output =
        some (.endVisit .absence) ∧
      ¬ (sighting.observedAt + samplePolicy.absenceSeconds ≤
        eventTime (.timerFired 16 16 0 : PresenceEvent Unit)) := by
  decide +kernel

end PresenceVisits
