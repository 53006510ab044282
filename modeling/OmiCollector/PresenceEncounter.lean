import OmiCollector.PresenceMachine
import Mathlib.Data.List.Chain

/-! Attempt permits come from stable encounters. The machine carries an encounter as two fields,
the last advertisement and the start time; here they stand for a chain of advertisements that
every transition keeps, extends or drops. -/
namespace PresenceEncounter

open RecordedRuns PresenceMachine

variable {κ : Type} {policy : Policy}

/-- The observation times that count towards an encounter in a waiting state. -/
def Allows : WaitingState κ → ℚ → Prop
  | .searching _, _ => True
  | .coolingDown s, t => s.cooldownAt ≤ t
  | .retryWaiting s, t => ∀ retryAt ∈ s.retryAt, retryAt ≤ t

/-- `b` continues an encounter whose last advertisement is `a`. -/
def Follows (policy : Policy) (a b : Advertisement κ) : Prop :=
  a.observedAt < b.observedAt ∧ b.observedAt - a.observedAt < policy.arrivalMaxGapSeconds

def cooldownExpired (e : Step κ) : Bool :=
  match e.before, e.after with
  | .waiting (.coolingDown _), .waiting (.searching _) => true
  | _, _ => false

/-- The events that clear an encounter: a scanner interruption, a stale or future-dated
advertisement, the end of an attempt or of a visit, and the expiry of a cooldown. -/
def clears (policy : Policy) (e : Step κ) : Bool :=
  visitEnded e || cooldownExpired e ||
    match e.input with
    | .scannerInterrupted _ => true
    | .advertisementObserved a processedAt => !decide (Fresh a processedAt policy)
    | .attemptFinished _ _ => true
    | _ => false

def processStep (policy : Policy) (acc : List (Advertisement κ)) (e : Step κ) :
    List (Advertisement κ) :=
  if clears policy e then []
  else match e.before, e.input with
    | .waiting _, .advertisementObserved a _ => acc ++ [a]
    | _, _ => acc

/-- The advertisements processed while waiting since the last clearing event. -/
def processed (policy : Policy) (past : List (Step κ)) : List (Advertisement κ) :=
  past.foldl (processStep policy) []

@[simp] theorem processed_snoc (past : List (Step κ)) (e : Step κ) :
    processed policy (past ++ [e]) = processStep policy (processed policy past) e := by
  simp [processed, List.foldl_append]

/-- A chain of processed advertisements that the waiting state allows. -/
structure Encounter (policy : Policy) (w : WaitingState κ) (seen chain : List (Advertisement κ)) :
    Prop where
  linked : chain.IsChain (Follows policy)
  seen : chain.Sublist seen
  allowed : ∀ a ∈ chain, Allows w a.observedAt

/-- The two fields of a waiting state describe an encounter among `seen`. -/
def Tracked (policy : Policy) (seen : List (Advertisement κ)) (w : WaitingState κ) : Prop :=
  ∀ a ∈ w.advertisement, ∃ chain, chain.getLast? = some a ∧
    chain.head?.map Advertisement.observedAt = w.arrivalStartedAt ∧ Encounter policy w seen chain

theorem tracked_of_none {seen : List (Advertisement κ)} {w : WaitingState κ}
    (h : w.advertisement = none) : Tracked policy seen w := by
  intro a ha
  simp [h] at ha

/-- `w'` carries the encounter of `w`. -/
structure Keeps (w w' : WaitingState κ) : Prop where
  advertisement : w'.advertisement = w.advertisement
  arrivalStartedAt : w'.arrivalStartedAt = w.arrivalStartedAt
  allows : ∀ t, Allows w t → Allows w' t

theorem Keeps.refl (w : WaitingState κ) : Keeps w w := ⟨rfl, rfl, fun _ h => h⟩

theorem Tracked.keep {seen seen' : List (Advertisement κ)} {w w' : WaitingState κ}
    (h : Tracked policy seen w) (hkeep : Keeps w w') (hseen : seen.Sublist seen') :
    Tracked policy seen' w' := by
  intro a ha
  rw [hkeep.advertisement] at ha
  obtain ⟨chain, hlast, hfirst, hchain⟩ := h a ha
  refine ⟨chain, hlast, by rw [hfirst, hkeep.arrivalStartedAt], ?_⟩
  exact ⟨hchain.linked, hchain.seen.trans hseen, fun b hb => hkeep.allows _ (hchain.allowed b hb)⟩

/-- An allowed advertisement ends an encounter that starts where the machine says. -/
theorem Tracked.extend {seen : List (Advertisement κ)} {w : WaitingState κ}
    (h : Tracked policy seen w) {a : Advertisement κ} (ha : Allows w a.observedAt) :
    ∃ chain, chain.getLast? = some a ∧
      chain.head?.map Advertisement.observedAt = some (firstAt w a policy) ∧
      Encounter policy w (seen ++ [a]) chain := by
  have alone : Encounter policy w (seen ++ [a]) [a] :=
    ⟨List.isChain_singleton a, List.sublist_append_right seen [a], by simpa using ha⟩
  cases hprevious : w.advertisement with
  | none => exact ⟨[a], rfl, by simp [firstAt, hprevious], alone⟩
  | some previous =>
    by_cases hbreak : a.observedAt ≤ previous.observedAt ∨
        policy.arrivalMaxGapSeconds ≤ a.observedAt - previous.observedAt
    · exact ⟨[a], rfl, by simp [firstAt, hprevious, hbreak], alone⟩
    · obtain ⟨chain, hlast, hfirst, hchain⟩ := h previous (by simp [hprevious])
      have hfollows : Follows policy previous a := by
        push Not at hbreak
        exact hbreak
      have hnonempty : chain ≠ [] := by rintro rfl; simp at hlast
      obtain ⟨first, rest, rfl⟩ := List.exists_cons_of_ne_nil hnonempty
      refine ⟨(first :: rest) ++ [a], List.getLast?_concat, ?_, ?_, ?_, ?_⟩
      · have hstart : w.arrivalStartedAt = some first.observedAt := by simpa using hfirst.symm
        have hfield : firstAt w a policy = first.observedAt := by
          simp only [firstAt, hprevious, if_neg hbreak, hstart, Option.getD_some]
        rw [hfield]
        rfl
      · rw [List.isChain_append]
        refine ⟨hchain.linked, List.isChain_singleton a, ?_⟩
        intro x hx y hy
        obtain rfl : previous = x := by simpa [hlast] using hx
        obtain rfl : a = y := by simpa using hy
        exact hfollows
      · exact hchain.seen.append (List.Sublist.refl [a])
      · intro b hb
        rcases List.mem_append.mp hb with hb | hb
        · exact hchain.allowed b hb
        · obtain rfl := List.mem_singleton.mp hb
          exact ha

@[simp] theorem advertisement_clearArrival (w : WaitingState κ) :
    (clearArrival w).advertisement = none := by
  cases w <;> rfl

theorem keeps_refreshRetryAbsence (t : ℚ) (w : WaitingState κ) :
    Keeps w (refreshRetryAbsence t policy w) := by
  cases w with
  | searching s => exact Keeps.refl _
  | coolingDown s => exact Keeps.refl _
  | retryWaiting s => exact ⟨rfl, rfl, fun _ h => h⟩

theorem keeps_resumeWaiting {w : WaitingState κ} (t : ℚ) :
    Keeps w (resumeWaiting t policy w) := by
  cases w with
  | searching s => exact ⟨rfl, rfl, fun _ _ => by simp [resumeWaiting, Allows]⟩
  | coolingDown s => exact ⟨rfl, rfl, fun _ _ => by simp [resumeWaiting, Allows]⟩
  | retryWaiting s => exact ⟨rfl, rfl, fun _ h => h⟩

@[simp] theorem allows_replaceAdvertisement {a : Advertisement κ} {t u : ℚ} {w : WaitingState κ} :
    Allows (replaceAdvertisement a t w) u ↔ Allows w u := by
  cases w <;> rfl

@[simp] theorem advertisement_replaceAdvertisement {a : Advertisement κ} {t : ℚ}
    {w : WaitingState κ} : (replaceAdvertisement a t w).advertisement = some a := by
  cases w <;> rfl

@[simp] theorem arrivalStartedAt_replaceAdvertisement {a : Advertisement κ} {t : ℚ}
    {w : WaitingState κ} : (replaceAdvertisement a t w).arrivalStartedAt = some t := by
  cases w <;> rfl

/-- What accepting an advertisement does: it releases an attempt for it or remembers it. -/
theorem acceptAdvertisement_cases (w : WaitingState κ) (a : Advertisement κ) (policy : Policy) :
    (policy.arrivalStabilitySeconds ≤ a.observedAt - firstAt w a policy ∧
      ∃ trigger, trigger.candidate = a ∧ acceptAdvertisement w a policy = begin_ w trigger) ∨
    acceptAdvertisement w a policy = observe (replaceAdvertisement a (firstAt w a policy) w) := by
  by_cases hstable : policy.arrivalStabilitySeconds ≤ a.observedAt - firstAt w a policy
  · left
    refine ⟨hstable, attemptTrigger a w, ?_, if_pos hstable⟩
    cases w <;> rfl
  · exact .inr (if_neg hstable)

/-- A retry's own trigger is never the plain one that `rapidPermit` would replace. -/
theorem rapidPermit_acceptAdvertisement (s : RetryWaiting κ) (a : Advertisement κ)
    (policy : Policy) : rapidPermit (acceptAdvertisement (.retryWaiting s) a policy) =
      acceptAdvertisement (.retryWaiting s) a policy := by
  by_cases hstable :
      policy.arrivalStabilitySeconds ≤ a.observedAt - firstAt (.retryWaiting s) a policy
  · rw [acceptAdvertisement, if_pos hstable]
    rfl
  · rw [acceptAdvertisement, if_neg hstable]
    rfl

/-- What a fresh advertisement does: it is ignored when it is not allowed yet, and accepted
otherwise. -/
theorem handleAdvertisement_fresh {w : WaitingState κ} {a : Advertisement κ} {p : Option ℚ}
    (h : Fresh a p policy) :
    (handleAdvertisement w a p policy = observe (refreshRetryAbsence a.observedAt policy w)) ∨
    (Allows (refreshRetryAbsence a.observedAt policy w) a.observedAt ∧
      handleAdvertisement w a p policy =
        acceptAdvertisement (refreshRetryAbsence a.observedAt policy w) a policy) := by
  rw [handleAdvertisement, if_neg (not_not.mpr h)]
  cases w with
  | searching s => exact .inr ⟨trivial, rfl⟩
  | coolingDown s =>
    simp only [refreshRetryAbsence]
    by_cases hearly : a.observedAt < s.cooldownAt
    · exact .inl (if_pos hearly)
    · exact .inr ⟨not_lt.mp hearly, if_neg hearly⟩
  | retryWaiting s =>
    simp only [refreshRetryAbsence]
    by_cases hearly : ∃ retryAt ∈ s.retryAt, a.observedAt < retryAt
    · exact .inl (if_pos hearly)
    · right
      constructor
      · push Not at hearly
        exact hearly
      · rw [if_neg hearly, rapidPermit_acceptAdvertisement]

/-- A timer of a retry keeps the encounter, or ends the visit. -/
theorem handleRetryTimer_cases (s : RetryWaiting κ) (t : ℚ) (policy : Policy) :
    (∃ s', handleRetryTimer s t policy = observe (.retryWaiting s') ∧
      Keeps (.retryWaiting s) (.retryWaiting s')) ∨
    handleRetryTimer s t policy = endVisit (.retryWaiting s) t .absence policy := by
  rw [handleRetryTimer]
  by_cases hearly : t < armedDeadline (.retryWaiting s)
  · exact .inl ⟨s, if_pos hearly, Keeps.refl _⟩
  · rw [if_neg hearly]
    by_cases habsent : ∃ absenceAt ∈ s.absenceAt, absenceAt ≤ t
    · exact .inr (if_pos habsent)
    · rw [if_neg habsent]
      left
      cases hretry : s.retryAt with
      | none => exact ⟨_, rfl, rfl, rfl, fun _ _ => by simp [Allows]⟩
      | some retryAt =>
        by_cases hbefore : t < retryAt
        · exact ⟨_, if_pos hbefore, rfl, rfl, fun _ h => by simpa [Allows, hretry] using h⟩
        · exact ⟨_, if_neg hbefore, rfl, rfl, fun _ _ => by simp [Allows]⟩

/-- What a timer does: the encounter is kept while no cooldown and no visit ends, and else
dropped. -/
theorem handleTimer_cases (w : WaitingState κ) (t deadline : ℚ) (epoch : ℤ) (policy : Policy) :
    (∃ w' d, handleTimer w t deadline epoch policy = (.waiting w', d) ∧
      (d = .observe ∨ d = .noOperation) ∧ Keeps w w' ∧
      ∀ s s', ¬ (w = .coolingDown s ∧ w' = .searching s')) ∨
    (∃ w' d, handleTimer w t deadline epoch policy = (.waiting w', d) ∧
      (d = .observe ∨ d = .endVisit .absence) ∧ w'.advertisement = none) := by
  unfold handleTimer
  by_cases hstale : epoch ≠ w.timerEpoch ∨ deadline ≠ armedDeadline w
  · refine .inl ⟨w, .noOperation, if_pos hstale, .inr rfl, Keeps.refl w, ?_⟩
    rintro s s' ⟨rfl, h⟩
    cases h
  · rw [if_neg hstale]
    cases w with
    | searching s =>
      by_cases hearly : t < s.scanRecheckAt
      · exact .inl ⟨_, _, if_pos hearly, .inl rfl, Keeps.refl _, by simp⟩
      · exact .inl ⟨_, _, if_neg hearly, .inl rfl, ⟨rfl, rfl, fun _ h => h⟩, by simp⟩
    | coolingDown s =>
      by_cases hearly : t < s.cooldownAt
      · exact .inl ⟨_, _, if_pos hearly, .inl rfl, Keeps.refl _, by simp⟩
      · exact .inr ⟨_, _, if_neg hearly, .inl rfl, rfl⟩
    | retryWaiting s =>
      rcases handleRetryTimer_cases s t policy with ⟨s', h, hkeeps⟩ | h
      · exact .inl ⟨_, _, h, .inl rfl, hkeeps, by simp⟩
      · exact .inr ⟨_, _, h, .inr rfl, rfl⟩

theorem sublist_processStep {acc : List (Advertisement κ)} {e : Step κ}
    (h : clears policy e = false) : acc.Sublist (processStep policy acc e) := by
  rw [processStep, if_neg (by simp [h])]
  split
  · exact List.sublist_append_left acc _
  · exact List.Sublist.refl acc

/-- The encounter of the state that a run has reached is among what it processed since the last
clearing event. -/
def EncounterInv (policy : Policy) (past : List (Step κ)) : PresenceState κ → Prop
  | .waiting w => Tracked policy (processed policy past) w
  | _ => True

/-- A step that keeps the encounter of a waiting state, and clears nothing, keeps it tracked. -/
theorem encounterInv_keep {past : List (Step κ)} {e : Step κ} {w w' : WaitingState κ}
    (hinv : EncounterInv policy past (.waiting w)) (hkeeps : Keeps w w')
    (hclears : clears policy e = false) : EncounterInv policy (past ++ [e]) (.waiting w') := by
  have htracked : Tracked policy (processed policy past) w := hinv
  have hnext := htracked.keep hkeeps (sublist_processStep hclears)
  simpa [EncounterInv] using hnext

theorem encounterInv_none {past : List (Step κ)} {w : WaitingState κ}
    (h : w.advertisement = none) : EncounterInv policy past (.waiting w) :=
  tracked_of_none h

/-- Neither a visit nor a cooldown ends in the step. -/
structure Continues (e : Step κ) : Prop where
  visit : ∀ reason, e.output ≠ .endVisit reason
  cooldown : ∀ s s', ¬ (e.before = .waiting (.coolingDown s) ∧ e.after = .waiting (.searching s'))

theorem Continues.visitEnded {e : Step κ} (h : Continues e) : visitEnded e = false := by
  unfold PresenceMachine.visitEnded
  split
  case h_1 reason hout => exact absurd hout (h.visit reason)
  case h_2 => rfl

theorem Continues.cooldownExpired {e : Step κ} (h : Continues e) : cooldownExpired e = false := by
  unfold PresenceEncounter.cooldownExpired
  split
  case h_1 s s' hbefore hafter => exact absurd ⟨hbefore, hafter⟩ (h.cooldown s s')
  case h_2 => rfl

theorem clears_timer {e : Step κ} (h : Continues e) {t deadline : ℚ} {epoch : ℤ}
    (hinput : e.input = .timerFired t deadline epoch) : clears policy e = false := by
  simp [clears, h.visitEnded, h.cooldownExpired, hinput]

theorem clears_fresh {e : Step κ} (h : Continues e) {a : Advertisement κ} {p : Option ℚ}
    (hinput : e.input = .advertisementObserved a p) (hfresh : Fresh a p policy) :
    clears policy e = false := by
  simp [clears, h.visitEnded, h.cooldownExpired, hinput, hfresh]

/-- A fresh advertisement is added to what was processed. -/
theorem processed_fresh {past : List (Step κ)} {e : Step κ} (h : Continues e) {w : WaitingState κ}
    (hbefore : e.before = .waiting w) {a : Advertisement κ} {p : Option ℚ}
    (hinput : e.input = .advertisementObserved a p) (hfresh : Fresh a p policy) :
    processed policy (past ++ [e]) = processed policy past ++ [a] := by
  rw [processed_snoc, processStep, if_neg (by simp [clears_fresh h hinput hfresh])]
  simp [hbefore, hinput]

/-- What a step with a fresh advertisement does: it is ignored, remembered as the end of an
encounter, or released for an attempt when that encounter is stable. -/
theorem fresh_cases {e : Step κ} (h : Taken (perform policy) e) {w : WaitingState κ}
    (hbefore : e.before = .waiting w) {a : Advertisement κ} {p : Option ℚ}
    (hinput : e.input = .advertisementObserved a p) (hfresh : Fresh a p policy) :
    Continues e ∧
      ((e.after = .waiting (refreshRetryAbsence a.observedAt policy w) ∧ e.output = .observe) ∨
      Allows (refreshRetryAbsence a.observedAt policy w) a.observedAt ∧
        ((e.after = .waiting (replaceAdvertisement a
            (firstAt (refreshRetryAbsence a.observedAt policy w) a policy)
            (refreshRetryAbsence a.observedAt policy w)) ∧ e.output = .observe) ∨
        (policy.arrivalStabilitySeconds ≤
            a.observedAt - firstAt (refreshRetryAbsence a.observedAt policy w) a policy ∧
          ∃ trigger, trigger.candidate = a ∧ e.output = .stopAndBeginAttempt trigger ∧
            e.after = .attempting trigger (refreshRetryAbsence a.observedAt policy w)))) := by
  obtain ⟨before, input, after, output⟩ := e
  simp only at hbefore hinput
  subst hbefore hinput
  have hresult : handleAdvertisement w a p policy = (after, output) := by
    rcases taken_iff.mp h with h | ⟨h, -⟩
    · exact Except.ok.inj h
    · cases h
  rcases handleAdvertisement_fresh hfresh with hcase | ⟨hallows, hcase⟩
  · rw [hcase] at hresult
    cases hresult
    refine ⟨⟨by simp, ?_⟩, .inl ⟨rfl, rfl⟩⟩
    rintro s s' ⟨hcool, hsearch⟩
    cases hcool
    cases hsearch
  · rw [hcase] at hresult
    rcases acceptAdvertisement_cases (refreshRetryAbsence a.observedAt policy w) a policy with
      ⟨hstable, trigger, hcandidate, haccept⟩ | haccept
    · rw [haccept] at hresult
      cases hresult
      exact ⟨⟨by simp, by simp⟩, .inr ⟨hallows, .inr ⟨hstable, trigger, hcandidate, rfl, rfl⟩⟩⟩
    · rw [haccept] at hresult
      cases hresult
      refine ⟨⟨by simp, ?_⟩, .inr ⟨hallows, .inl ⟨rfl, rfl⟩⟩⟩
      rintro s s' ⟨hcool, hsearch⟩
      cases hcool
      cases hsearch

/-- The encounter that a fresh, allowed advertisement ends. -/
theorem encounter_fresh {past : List (Step κ)} {e : Step κ}
    (hinv : EncounterInv policy past e.before) (hcontinues : Continues e) {w : WaitingState κ}
    (hbefore : e.before = .waiting w) {a : Advertisement κ} {p : Option ℚ}
    (hinput : e.input = .advertisementObserved a p) (hfresh : Fresh a p policy)
    (hallows : Allows (refreshRetryAbsence a.observedAt policy w) a.observedAt) :
    ∃ chain, chain.getLast? = some a ∧ chain.head?.map Advertisement.observedAt =
        some (firstAt (refreshRetryAbsence a.observedAt policy w) a policy) ∧
      Encounter policy (refreshRetryAbsence a.observedAt policy w)
        (processed policy (past ++ [e])) chain := by
  rw [hbefore] at hinv
  have htracked : Tracked policy (processed policy past) w := hinv
  have hrefreshed :
      Tracked policy (processed policy past) (refreshRetryAbsence a.observedAt policy w) :=
    htracked.keep (keeps_refreshRetryAbsence a.observedAt w) (List.Sublist.refl _)
  rw [processed_fresh hcontinues hbefore hinput hfresh]
  exact hrefreshed.extend hallows

theorem encounterInv_step {past : List (Step κ)} {e : Step κ}
    (hinv : EncounterInv policy past e.before) (h : Taken (perform policy) e) :
    EncounterInv policy (past ++ [e]) e.after := by
  obtain ⟨before, input, after, output⟩ := e
  rcases taken_iff.mp h with h | ⟨-, rfl, -⟩
  · simp only at h hinv ⊢
    cases before with
    | closed => cases h; trivial
    | attempting trigger w =>
      cases input with
      | attemptFinished t outcome =>
        obtain ⟨w', rfl, hnone, -⟩ := handleAttempting_spec h
        exact encounterInv_none hnone
      | _ => cases h; trivial
    | waiting w =>
      cases input with
      | shutdown t => cases h; trivial
      | attemptFinished t outcome => cases h
      | scannerInterrupted t =>
        cases h
        exact encounterInv_none (advertisement_clearArrival w)
      | resumeInterruptedVisit t =>
        cases w with
        | searching s => cases h; exact encounterInv_keep hinv (keeps_resumeWaiting t) rfl
        | coolingDown s => cases h; exact encounterInv_keep hinv (Keeps.refl _) rfl
        | retryWaiting s => cases h; exact encounterInv_keep hinv (keeps_resumeWaiting t) rfl
      | timerFired t deadline epoch =>
        have hresult : handleTimer w t deadline epoch policy = (after, output) := Except.ok.inj h
        rcases handleTimer_cases w t deadline epoch policy with
          ⟨w', d, hcase, hd, hkeeps, hcool⟩ | ⟨w', d, hcase, -, hnone⟩
        · rw [hcase] at hresult
          cases hresult
          refine encounterInv_keep hinv hkeeps (clears_timer ⟨?_, ?_⟩ rfl)
          · intro reason
            rcases hd with rfl | rfl <;> simp
          · rintro s s' ⟨hs, hs'⟩
            cases hs
            cases hs'
            exact hcool s s' ⟨rfl, rfl⟩
        · rw [hcase] at hresult
          cases hresult
          exact encounterInv_none hnone
      | advertisementObserved a p =>
        by_cases hfresh : Fresh a p policy
        · have htaken : Taken (perform policy)
              ⟨.waiting w, .advertisementObserved a p, after, output⟩ := taken_iff.mpr (.inl h)
          obtain ⟨hcontinues, hcases⟩ := fresh_cases htaken rfl rfl hfresh
          rcases hcases with ⟨rfl, -⟩ | ⟨hallows, ⟨rfl, -⟩ | ⟨-, trigger, -, -, rfl⟩⟩
          · exact encounterInv_keep hinv (keeps_refreshRetryAbsence a.observedAt w)
              (clears_fresh hcontinues rfl hfresh)
          · obtain ⟨chain, hlast, hfirst, hchain⟩ :=
              encounter_fresh hinv hcontinues rfl rfl hfresh hallows
            intro b hb
            obtain rfl : a = b := by simpa using hb
            refine ⟨chain, hlast, by simpa using hfirst, hchain.linked, hchain.seen, ?_⟩
            exact fun c hc => allows_replaceAdvertisement.mpr (hchain.allowed c hc)
          · trivial
        · have hresult : handleAdvertisement w a p policy = (after, output) := Except.ok.inj h
          rw [handleAdvertisement, if_pos hfresh] at hresult
          cases hresult
          exact encounterInv_none (advertisement_clearArrival w)
  · trivial

def finished (e : Step κ) : Bool :=
  match e.input with
  | .attemptFinished _ _ => true
  | _ => false

def permits (e : Step κ) : Bool :=
  match e.output with
  | .stopAndBeginAttempt _ => true
  | _ => false

/-- How many outcomes have been reported since the last permit, if there was one. -/
def sincePermit (past : List (Step κ)) : Option ℕ :=
  past.foldl (fun count e =>
    if permits e then some 0 else if finished e then count.map (· + 1) else count) none

/-- While attempting the last permit has no outcome; while waiting it has one. -/
def PermitInv (past : List (Step κ)) : PresenceState κ → Prop
  | .waiting _ => sincePermit past = none ∨ sincePermit past = some 1
  | .attempting _ _ => sincePermit past = some 0
  | .closed => True

/-- What a step does to the outstanding permit. -/
theorem permit_cases {e : Step κ} (h : Taken (perform policy) e) :
    (∃ w w', e.before = .waiting w ∧ e.after = .waiting w' ∧ permits e = false ∧
      finished e = false) ∨
    (∃ w trigger w' a p, e.before = .waiting w ∧ e.after = .attempting trigger w' ∧
      permits e = true ∧ e.input = .advertisementObserved a p ∧ Fresh a p policy) ∨
    (∃ trigger w w', e.before = .attempting trigger w ∧ e.after = .attempting trigger w' ∧
      permits e = false ∧ finished e = false) ∨
    (∃ trigger w w', e.before = .attempting trigger w ∧ e.after = .waiting w' ∧
      permits e = false ∧ finished e = true) ∨
    e.after = .closed ∧ permits e = false := by
  obtain ⟨before, input, after, output⟩ := e
  rcases taken_iff.mp h with h' | ⟨-, rfl, rfl⟩
  · simp only at h' ⊢
    cases before with
    | closed => cases h'; exact .inr (.inr (.inr (.inr ⟨rfl, rfl⟩)))
    | attempting trigger w =>
      cases input with
      | shutdown t => cases h'; exact .inr (.inr (.inr (.inr ⟨rfl, rfl⟩)))
      | attemptFinished t outcome =>
        obtain ⟨w', rfl, -, hout⟩ := handleAttempting_spec h'
        have hpermits : permits (κ := κ) ⟨.attempting trigger w, .attemptFinished t outcome,
            .waiting w', output⟩ = false := by
          rcases hout with rfl | rfl <;> rfl
        exact .inr (.inr (.inr (.inl ⟨trigger, w, w', rfl, rfl, hpermits, rfl⟩)))
      | _ => cases h'; exact .inr (.inr (.inl ⟨_, _, _, rfl, rfl, rfl, rfl⟩))
    | waiting w =>
      cases input with
      | shutdown t => cases h'; exact .inr (.inr (.inr (.inr ⟨rfl, rfl⟩)))
      | attemptFinished t outcome => cases h'
      | scannerInterrupted t => cases h'; exact .inl ⟨_, _, rfl, rfl, rfl, rfl⟩
      | resumeInterruptedVisit t =>
        cases w <;> (cases h'; exact .inl ⟨_, _, rfl, rfl, rfl, rfl⟩)
      | timerFired t deadline epoch =>
        have hresult : handleTimer w t deadline epoch policy = (after, output) := Except.ok.inj h'
        rcases handleTimer_cases w t deadline epoch policy with
          ⟨w', d, hcase, hd, -⟩ | ⟨w', d, hcase, hd, -⟩ <;>
        · rw [hcase] at hresult
          cases hresult
          rcases hd with rfl | rfl <;> exact .inl ⟨_, _, rfl, rfl, rfl, rfl⟩
      | advertisementObserved a p =>
        by_cases hfresh : Fresh a p policy
        · obtain ⟨-, hcases⟩ := fresh_cases h rfl rfl hfresh
          rcases hcases with ⟨rfl, rfl⟩ | ⟨-, ⟨rfl, rfl⟩ | ⟨-, trigger, -, rfl, rfl⟩⟩
          · exact .inl ⟨_, _, rfl, rfl, rfl, rfl⟩
          · exact .inl ⟨_, _, rfl, rfl, rfl, rfl⟩
          · exact .inr (.inl ⟨_, _, _, a, p, rfl, rfl, rfl, rfl, hfresh⟩)
        · have hresult : handleAdvertisement w a p policy = (after, output) := Except.ok.inj h'
          rw [handleAdvertisement, if_pos hfresh] at hresult
          cases hresult
          exact .inl ⟨_, _, rfl, rfl, rfl, rfl⟩
  · exact .inr (.inr (.inr (.inr ⟨rfl, rfl⟩)))

theorem sincePermit_snoc (past : List (Step κ)) (e : Step κ) : sincePermit (past ++ [e]) =
    if permits e then some 0
    else if finished e then (sincePermit past).map (· + 1) else sincePermit past := by
  simp [sincePermit, List.foldl_append]

theorem permitInv_step {past : List (Step κ)} {e : Step κ} (hinv : PermitInv past e.before)
    (h : Taken (perform policy) e) : PermitInv (past ++ [e]) e.after := by
  rcases permit_cases h with ⟨w, w', hbefore, hafter, hpermits, hfinished⟩ |
    ⟨w, trigger, w', a, p, hbefore, hafter, hpermits, -⟩ |
    ⟨trigger, w, w', hbefore, hafter, hpermits, hfinished⟩ |
    ⟨trigger, w, w', hbefore, hafter, hpermits, hfinished⟩ | ⟨hafter, -⟩
  all_goals rw [hafter]
  · rw [hbefore] at hinv
    simpa [PermitInv, sincePermit_snoc, hpermits, hfinished] using hinv
  · simp [PermitInv, sincePermit_snoc, hpermits]
  · rw [hbefore] at hinv
    simpa [PermitInv, sincePermit_snoc, hpermits, hfinished] using hinv
  · rw [hbefore] at hinv
    have hcount : sincePermit past = some 0 := hinv
    simp [PermitInv, sincePermit_snoc, hpermits, hfinished, hcount]
  · trivial

/-- Outcomes are counted from the last permit on. -/
theorem sincePermit_eq {pre mid : List (Step κ)} {e : Step κ} (he : permits e = true)
    (hmid : ∀ m ∈ mid, permits m = false) :
    sincePermit (pre ++ e :: mid) = some (mid.countP finished) := by
  induction mid using List.reverseRecOn with
  | nil => simp [sincePermit_snoc, he]
  | append_singleton mid m ih =>
    have hm : permits m = false := hmid m (by simp)
    have hrest := ih (fun x hx => hmid x (by simp [hx]))
    have hlist : pre ++ e :: (mid ++ [m]) = (pre ++ e :: mid) ++ [m] := by simp
    rw [hlist, sincePermit_snoc, hrest, List.countP_append]
    by_cases hfinished : finished m <;> simp [hm, hfinished]

/-- The chain of advertisements that a permit is issued for. -/
structure StableEncounter (policy : Policy) (w : WaitingState κ) (seen : List (Advertisement κ))
    (a : Advertisement κ) (chain : List (Advertisement κ)) : Prop where
  last : chain.getLast? = some a
  seen : chain.Sublist seen
  linked : chain.IsChain (Follows policy)
  stable : ∀ first ∈ chain.head?,
    policy.arrivalStabilitySeconds ≤ a.observedAt - first.observedAt
  allowed : ∀ b ∈ chain, Allows w b.observedAt

/-- A permit is issued in a waiting state, for an advertisement that ends a stable encounter. -/
theorem permit_encounter {past : List (Step κ)} {e : Step κ}
    (hinv : EncounterInv policy past e.before) (h : Taken (perform policy) e)
    {trigger : AttemptTrigger κ} (hout : e.output = .stopAndBeginAttempt trigger) :
    ∃ w p chain, e.before = .waiting w ∧ e.input = .advertisementObserved trigger.candidate p ∧
      StableEncounter policy w (processed policy (past ++ [e])) trigger.candidate chain := by
  have hpermit : permits e = true := by simp [permits, hout]
  rcases permit_cases h with ⟨_, _, _, _, hpermits, _⟩ | ⟨w, _, _, a, p, hbefore, -, -, hinput, hfresh⟩ |
    ⟨_, _, _, _, _, hpermits, _⟩ | ⟨_, _, _, _, _, hpermits, _⟩ | ⟨-, hpermits⟩
  case inr.inl =>
    obtain ⟨hcontinues, hcases⟩ := fresh_cases h hbefore hinput hfresh
    rcases hcases with ⟨-, hd⟩ | ⟨hallows, ⟨-, hd⟩ | ⟨hstable, trigger', hcandidate, hd, -⟩⟩
    · rw [hout] at hd
      cases hd
    · rw [hout] at hd
      cases hd
    · rw [hout] at hd
      obtain rfl : trigger = trigger' := by simpa using hd
      subst hcandidate
      obtain ⟨chain, hlast, hfirst, hchain⟩ :=
        encounter_fresh hinv hcontinues hbefore hinput hfresh hallows
      refine ⟨w, p, chain, hbefore, hinput, hlast, hchain.seen, hchain.linked, ?_, ?_⟩
      · intro first hmem
        rw [Option.mem_def.mp hmem] at hfirst
        rwa [← Option.some.inj hfirst] at hstable
      · intro b hb
        have hb := hchain.allowed b hb
        cases w <;> exact hb
  all_goals simp [hpermit] at hpermits

/-- Every permit of a run is issued for an advertisement that ends a stable encounter among those
processed since the last clearing event, and one outcome lies between a permit and the next. -/
theorem attempt_permits (policy : Policy) (startedAt : ℚ) (events : List (PresenceEvent κ)) :
    (∀ pre e post trigger, machineRun policy startedAt events = pre ++ e :: post →
      e.output = .stopAndBeginAttempt trigger →
      ∃ w p chain, e.before = .waiting w ∧ e.input = .advertisementObserved trigger.candidate p ∧
        StableEncounter policy w (processed policy (pre ++ [e])) trigger.candidate chain) ∧
    (∀ pre e mid e' post, machineRun policy startedAt events = pre ++ e :: mid ++ e' :: post →
      permits e = true → permits e' = true → (∀ m ∈ mid, permits m = false) →
      mid.countP finished = 1) := by
  have hordered : (([] : List (Step κ)).map Entry.input ++ events).Pairwise fun _ _ => True :=
    List.pairwise_of_forall fun _ _ => trivial
  constructor
  · intro pre e post trigger hrun hout
    have hinitial : EncounterInv policy [] (.waiting (initialState startedAt policy) :
        PresenceState κ) := encounterInv_none rfl
    obtain ⟨hinv, -, htaken⟩ := record_invariant
      (fun past e hinv _ htaken => encounterInv_step hinv htaken) hinitial hordered hrun
    exact permit_encounter hinv htaken hout
  · intro pre e mid e' post hrun he he' hmid
    have hinitial : PermitInv [] (.waiting (initialState startedAt policy) : PresenceState κ) :=
      .inl rfl
    obtain ⟨hinv, -, htaken⟩ := record_invariant
      (fun past e hinv _ htaken => permitInv_step hinv htaken) hinitial hordered hrun
    rcases permit_cases htaken with ⟨_, _, _, _, hpermits, _⟩ | ⟨w, _, _, _, _, hbefore, -⟩ |
      ⟨_, _, _, _, _, hpermits, _⟩ | ⟨_, _, _, _, _, hpermits, _⟩ | ⟨-, hpermits⟩
    case inr.inl =>
      rw [hbefore] at hinv
      have hcount : sincePermit (pre ++ e :: mid) = none ∨ sincePermit (pre ++ e :: mid) = some 1 :=
        hinv
      rw [sincePermit_eq he hmid] at hcount
      simpa using hcount
    all_goals simp [he'] at hpermits

/-- Two advertisements five seconds apart release an attempt. -/
example : (machineRun ⟨10, 100, 900, [1], 5, 10⟩ 0
    [.advertisementObserved (⟨(), 0, none⟩ : Advertisement Unit) none,
      .advertisementObserved ⟨(), 5, none⟩ none]).map permits = [false, true] := by
  decide +kernel

end PresenceEncounter
