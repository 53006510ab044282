import OmiCollector.ReadyOwnership

/-! What a settled revision stands for.

A revision is settled by a publication run that finished on it, or by a compaction that was issued
for it. A retry that was pending when a compaction began waits again when the compaction ends. -/
namespace ReadySettlement

open ReadyMachine ReadyOwnership TransitionRuns

variable {R O : Type} [DecidableEq R]

/-- The state after one delivered event; a refused one changes nothing. -/
def advance (s : PublicationState R O) (e : PublicationEvent R O) : PublicationState R O :=
  match publicationTransition s e with
  | .error _ => s
  | .ok (s, _) => s

def after (es : List (PublicationEvent R O)) : PublicationState R O := run advance .initial es

/-- A command that was issued in the course of the events. -/
def Issued (es : List (PublicationEvent R O)) (action : PublicationAction) (token : ℤ) : Prop :=
  ∃ pre e post s c, es = pre ++ e :: post ∧ publicationTransition (after pre) e = .ok (s, c) ∧
    started c = some (action, token)

/-- A publication run finished and settled the revision, and no input has changed since. -/
def RunSettled (es : List (PublicationEvent R O)) (revision : Option R) : Prop :=
  ∃ pre post token outcome now backoff,
    es = pre ++ .finished token revision outcome .settled now backoff false :: post ∧
      Issued pre .run token ∧ held (after pre).work = some (.run, token) ∧ .inputChanged ∉ post

/-- A compaction issued for the revision finished, and no input has changed since; a check that
was due by then was answered by a wake on the revision. -/
def CompactionSettled (es : List (PublicationEvent R O)) (revision : Option R) : Prop :=
  ∃ pre post token debtGeneration now backoff,
    es = pre ++ .compactionFinished token debtGeneration revision .settled now backoff :: post ∧
      Issued pre .compact token ∧ held (after pre).work = some (.compact, token) ∧
      .inputChanged ∉ post ∧ ((after pre).needsCheck = true → ∃ now, .wake revision now ∈ post)

/-- How an available state comes to be settled. -/
inductive Settles (s : PublicationState R O) (revision : Option R) (outcome : Outcome O)
    (s' : PublicationState R O) : PublicationEvent R O → Prop where
  | kept {e : PublicationEvent R O} (mode : s.mode = .available)
      (work : s.work = .settled revision outcome) (input : e ≠ .inputChanged)
      (check : s'.needsCheck = s.needsCheck ∨ ∃ now, e = .wake revision now) :
      Settles s revision outcome s' e
  | run {w : Running R} {result : O} {now : ℚ} {backoff : List ℚ} (work : s.work = .running w) :
      Settles s revision outcome s' (.finished w.token revision result .settled now backoff false)
  | compaction {w : Compacting R O} {now : ℚ} {backoff : List ℚ} (work : s.work = .compacting w)
      (check : s.needsCheck = true → s'.needsCheck = true) :
      Settles s revision outcome s'
        (.compactionFinished w.token w.debtGeneration revision .settled now backoff)

theorem wake_settles {s : PublicationState R O} {r revision : Option R} {outcome : Outcome O}
    {now : ℚ} (hmode : (wake s r now).1.mode = .available)
    (hwork : (wake s r now).1.work = .settled revision outcome) :
    Settles s revision outcome (wake s r now).1 (.wake r now) := by
  have hkept : s.mode = .available → s.work = .settled revision outcome →
      Settles s revision outcome s (.wake r now) :=
    fun h1 h2 => .kept h1 h2 (by simp) (.inl rfl)
  unfold wake at hmode hwork ⊢
  by_cases havailable : s.mode = .available
  · simp only [havailable, ne_eq, not_true_eq_false, if_false] at hmode hwork ⊢
    cases hw : s.work with
    | settled settledRevision settledOutcome =>
      by_cases hr : r = none
      · simp only [hw, hr, if_true, wakeUnprobed] at hwork ⊢
        exact hr ▸ hkept havailable (hw.trans hwork)
      · simp only [hw, hr, if_false, wakeProbed] at hwork ⊢
        by_cases hsame : r = settledRevision
        · simp only [hsame, if_true, Work.settled.injEq] at hwork ⊢
          obtain ⟨rfl, rfl⟩ := hwork
          exact .kept havailable hw (by simp) (.inr ⟨now, rfl⟩)
        · simp [hsame] at hwork
    | compacting w =>
      simp only [hw] at hwork
      cases hwork
    | quiescing w =>
      simp only [hw] at hwork
      cases hwork
    | idle =>
      by_cases hr : r = none
      · simp [hw, hr, wakeUnprobed] at hwork
      · simp [hw, hr, wakeProbed] at hwork
    | running w =>
      by_cases hr : r = none
      · simp [hw, hr, wakeUnprobed] at hwork
      · simp only [hw, hr, if_false, wakeProbed] at hwork
        split at hwork
        · cases hwork
        · rw [hw] at hwork
          cases hwork
    | retryWait w =>
      by_cases hr : r = none
      · simp only [hw, hr, if_true, wakeUnprobed] at hwork
        split at hwork
        · rw [hw] at hwork
          cases hwork
        · rw [hw] at hwork
          cases hwork
      · simp only [hw, hr, if_false, wakeProbed] at hwork
        split at hwork
        · split at hwork
          · rw [hw] at hwork
            cases hwork
          · cases hwork
        · cases hwork
  · simp only [havailable, ne_eq, not_false_eq_true, if_true] at hmode

theorem finished_settles {s : PublicationState R O} {token : ℤ} {r revision : Option R} {o : O}
    {outcome : Outcome O} {result : PublicationResult} {now : ℚ} {backoff : List ℚ} {reprobe : Bool}
    (hmode : (finished s token r o result now backoff reprobe).1.mode = .available)
    (hwork : (finished s token r o result now backoff reprobe).1.work = .settled revision outcome) :
    Settles s revision outcome (finished s token r o result now backoff reprobe).1
      (.finished token r o result now backoff reprobe) := by
  have hkept : s.mode = .available → s.work = .settled revision outcome →
      Settles s revision outcome s (.finished token r o result now backoff reprobe) :=
    fun h1 h2 => .kept h1 h2 (by simp) (.inl rfl)
  unfold finished at hmode hwork ⊢
  cases hw : s.work with
  | running w =>
    simp only [hw] at hmode hwork ⊢
    split at hwork
    · rw [hw] at hwork
      cases hwork
    · rename_i htoken
      split at hwork
      · cases hwork
      · split at hwork
        · cases hwork
        · rename_i hvalid
          cases result with
          | transient => cases hwork
          | settled =>
            simp only [ne_eq, not_or, Bool.not_eq_true] at hvalid
            obtain ⟨rfl, rfl⟩ : r = revision ∧ Outcome.reported o = outcome := by simpa using hwork
            obtain rfl : w.token = token := not_not.mp htoken
            rw [hvalid.2.1]
            exact .run hw
  | settled _ _ =>
    simp only [hw] at hmode hwork ⊢
    exact hkept hmode (hw.trans hwork)
  | _ =>
    simp only [hw] at hwork
    cases hwork

theorem compactionFinished_settles {s : PublicationState R O} {token debtGeneration : ℤ}
    {r revision : Option R} {outcome : Outcome O} {result : PublicationResult} {now : ℚ}
    {backoff : List ℚ}
    (hmode : (compactionFinished s token debtGeneration r result now backoff).1.mode = .available)
    (hwork : (compactionFinished s token debtGeneration r result now backoff).1.work =
      .settled revision outcome) :
    Settles s revision outcome (compactionFinished s token debtGeneration r result now backoff).1
      (.compactionFinished token debtGeneration r result now backoff) := by
  have hkept : s.mode = .available → s.work = .settled revision outcome →
      Settles s revision outcome s (.compactionFinished token debtGeneration r result now backoff) :=
    fun h1 h2 => .kept h1 h2 (by simp) (.inl rfl)
  unfold compactionFinished at hmode hwork ⊢
  cases hw : s.work with
  | compacting w =>
    simp only [hw] at hmode hwork ⊢
    by_cases htoken : w.token = token
    · simp only [htoken, ne_eq, not_true_eq_false, if_false] at hmode hwork ⊢
      by_cases havailable : s.mode = .available
      · simp only [havailable, not_true_eq_false, if_false] at hmode hwork ⊢
        by_cases hother : ¬ w.debtGeneration = debtGeneration ∨ ¬ w.revision = r
        · simp [hother] at hwork
        · simp only [hother, if_false] at hmode hwork ⊢
          obtain ⟨hdebt, -⟩ := not_or.mp hother
          obtain rfl := not_not.mp hdebt
          subst htoken
          split at hwork
          · cases hwork
          · cases hwork
          · split at hwork
            · obtain ⟨rfl, rfl⟩ : r = revision ∧ Outcome.compacted .settled = outcome := by
                simpa using hwork
              rename_i hcheck
              simp only [hcheck, if_true]
              exact .compaction hw (fun _ => rfl)
            · obtain ⟨rfl, rfl⟩ : r = revision ∧ Outcome.compacted .settled = outcome := by
                simpa using hwork
              rename_i hcheck
              simp only [hcheck, if_false]
              exact .compaction hw (fun h => absurd (.inr h) hcheck)
      · simp only [havailable, not_false_eq_true, if_true] at hwork
        rw [hw] at hwork
        cases hwork
    · simp only [htoken, ne_eq, not_false_eq_true, if_true] at hwork
      rw [hw] at hwork
      cases hwork
  | settled _ _ =>
    simp only [hw] at hmode hwork ⊢
    exact hkept hmode (hw.trans hwork)
  | _ =>
    simp only [hw] at hwork
    cases hwork

/-- An available state is settled only by what settled it before, a finished publication run or a
finished compaction. -/
theorem transition_settles {s s' : PublicationState R O} {e : PublicationEvent R O}
    {c : PublicationCommand} {revision : Option R} {outcome : Outcome O}
    (h : publicationTransition s e = .ok (s', c)) (hmode : s'.mode = .available)
    (hwork : s'.work = .settled revision outcome) : Settles s revision outcome s' e := by
  cases e with
  | wake r now =>
    obtain rfl : (wake s r now).1 = s' := congrArg Prod.fst (Except.ok.inj h)
    exact wake_settles hmode hwork
  | finished token r o result now backoff reprobe =>
    obtain rfl : (finished s token r o result now backoff reprobe).1 = s' :=
      congrArg Prod.fst (Except.ok.inj h)
    exact finished_settles hmode hwork
  | compactionFinished token debtGeneration r result now backoff =>
    obtain rfl : (compactionFinished s token debtGeneration r result now backoff).1 = s' :=
      congrArg Prod.fst (Except.ok.inj h)
    exact compactionFinished_settles hmode hwork
  | compactionDue r debtGeneration =>
    obtain rfl : (compactionDue s r debtGeneration).1 = s' := congrArg Prod.fst (Except.ok.inj h)
    have hsame : (compactionDue s r debtGeneration).1 = s := by
      unfold compactionDue at hwork ⊢
      by_cases havailable : s.mode = .available
      · simp only [havailable, ne_eq, not_true_eq_false, if_false] at hwork ⊢
        cases hw : s.work <;> simp [hw] at hwork ⊢
      · simp only [havailable, ne_eq, not_false_eq_true, if_true]
    rw [hsame] at hmode hwork ⊢
    exact .kept hmode hwork (by simp) (.inl rfl)
  | compactionProbeFailed r now backoff =>
    obtain rfl : (compactionProbeFailed s r now backoff).1 = s' :=
      congrArg Prod.fst (Except.ok.inj h)
    have hsame : (compactionProbeFailed s r now backoff).1 = s := by
      unfold compactionProbeFailed at hwork ⊢
      by_cases havailable : s.mode = .available
      · simp only [havailable, ne_eq, not_true_eq_false, if_false] at hwork ⊢
        cases hw : s.work <;> simp [hw] at hwork ⊢
      · simp only [havailable, ne_eq, not_false_eq_true, if_true]
    rw [hsame] at hmode hwork ⊢
    exact .kept hmode hwork (by simp) (.inl rfl)
  | timerFired generation deadline now =>
    obtain rfl : (timer s generation deadline now).1 = s' := congrArg Prod.fst (Except.ok.inj h)
    have hsame : (timer s generation deadline now).1 = s := by
      unfold timer at hwork ⊢
      cases hw : s.work with
      | retryWait w =>
        simp only [hw] at hwork
        split at hwork
        · rw [hw] at hwork
          cases hwork
        · split at hwork
          · rw [hw] at hwork
            cases hwork
          · split at hwork
            · rw [hw] at hwork
              cases hwork
            · cases hwork
      | _ => rfl
    rw [hsame] at hmode hwork ⊢
    exact .kept hmode hwork (by simp) (.inl rfl)
  | inputChanged =>
    obtain rfl : (inputChanged s).1 = s' := congrArg Prod.fst (Except.ok.inj h)
    unfold inputChanged at hwork
    cases hw : s.work <;> simp [hw] at hwork
  | captureEnd =>
    obtain rfl : (captureEnd s).1 = s' := congrArg Prod.fst (Except.ok.inj h)
    have hsame : (captureEnd s).1 = s := by
      unfold captureEnd at hwork ⊢
      by_cases hcapture : s.mode = .capture
      · cases hw : s.work <;> simp [hw, hcapture] at hwork ⊢
      · cases hw : s.work <;> simp [hcapture]
    rw [hsame] at hmode hwork ⊢
    exact .kept hmode hwork (by simp) (.inl rfl)
  | captureBegin =>
    simp only [publicationTransition, lifecycleBoundary] at h
    split at h
    · cases h
    · obtain ⟨rfl, -⟩ := Prod.mk.inj (Except.ok.inj h)
      cases hmode
  | shutdown =>
    obtain ⟨rfl, -⟩ := Prod.mk.inj (Except.ok.inj h)
    cases hmode
  | quiesced =>
    obtain ⟨rfl, -⟩ := Prod.mk.inj (Except.ok.inj h)
    cases hwork

theorem after_snoc (es : List (PublicationEvent R O)) (e : PublicationEvent R O) :
    after (es ++ [e]) = advance (after es) e := run_snoc advance _ es e

theorem Issued.snoc {es : List (PublicationEvent R O)} {action : PublicationAction} {token : ℤ}
    (h : Issued es action token) (e : PublicationEvent R O) : Issued (es ++ [e]) action token := by
  obtain ⟨pre, e', post, s, c, rfl, hok, hstarted⟩ := h
  exact ⟨pre, e', post ++ [e], s, c, by simp, hok, hstarted⟩

/-- Whatever effect is held was issued. -/
theorem held_issued (es : List (PublicationEvent R O)) {action : PublicationAction} {token : ℤ}
    (h : held (after es).work = some (action, token)) : Issued es action token := by
  induction es using List.reverseRecOn with
  | nil => cases h
  | append_singleton es e ih =>
    rw [after_snoc, advance] at h
    cases hok : publicationTransition (after es) e with
    | error message =>
      simp only [hok] at h
      exact (ih h).snoc e
    | ok result =>
      obtain ⟨s, c⟩ := result
      simp only [hok] at h
      have hown := transition_ownership hok
      cases hstarted : started c with
      | some p =>
        obtain ⟨-, -, -, hheld⟩ := hown.starts p hstarted
        obtain rfl := Option.some.inj (hheld.symm.trans h)
        exact ⟨es, e, [], s, c, rfl, hok, hstarted⟩
      | none =>
        obtain ⟨-, hsame | ⟨hnone, -⟩⟩ := hown.keeps hstarted
        · exact (ih (hsame ▸ h)).snoc e
        · rw [hnone] at h
          cases h

theorem RunSettled.snoc {es : List (PublicationEvent R O)} {revision : Option R}
    (h : RunSettled es revision) {e : PublicationEvent R O} (he : e ≠ .inputChanged) :
    RunSettled (es ++ [e]) revision := by
  obtain ⟨pre, post, token, outcome, now, backoff, rfl, hissued, hheld, hinput⟩ := h
  refine ⟨pre, post ++ [e], token, outcome, now, backoff, by simp, hissued, hheld, ?_⟩
  rw [List.mem_append, List.mem_singleton, not_or]
  exact ⟨hinput, he.symm⟩

/-- The settled revision of an available state, and the check that may still be due. -/
def SettledBy (es : List (PublicationEvent R O)) (revision : Option R) : Prop :=
  RunSettled es revision ∨ ∃ pre post token debtGeneration now backoff,
    es = pre ++ .compactionFinished token debtGeneration revision .settled now backoff :: post ∧
      Issued pre .compact token ∧ held (after pre).work = some (.compact, token) ∧
      .inputChanged ∉ post ∧ ((after pre).needsCheck = true →
        (after es).needsCheck = true ∨ ∃ now, .wake revision now ∈ post)

theorem settledBy (es : List (PublicationEvent R O)) {revision : Option R} {outcome : Outcome O}
    (hmode : (after es).mode = .available) (hwork : (after es).work = .settled revision outcome) :
    SettledBy es revision := by
  induction es using List.reverseRecOn with
  | nil => cases hwork
  | append_singleton es e ih =>
    -- What settled the state before the event still settles it when the event keeps it.
    have hkeep : SettledBy es revision → e ≠ .inputChanged →
        ((after (es ++ [e])).needsCheck = (after es).needsCheck ∨ ∃ now, e = .wake revision now) →
        SettledBy (es ++ [e]) revision := by
      intro hby he hcheck
      rcases hby with hrun | ⟨pre, post, token, debt, now, backoff, hes, hissued, hheld, hinput, hdue⟩
      · exact .inl (hrun.snoc he)
      · refine .inr ⟨pre, post ++ [e], token, debt, now, backoff, by simp [hes], hissued, hheld, ?_, ?_⟩
        · rw [List.mem_append, List.mem_singleton, not_or]
          exact ⟨hinput, he.symm⟩
        · intro hneeds
          rcases hcheck with hsame | ⟨now', rfl⟩
          · rw [hsame]
            rcases hdue hneeds with hdue | ⟨now', hwake⟩
            · exact .inl hdue
            · exact .inr ⟨now', List.mem_append_left _ hwake⟩
          · exact .inr ⟨now', by simp⟩
    have hstep := after_snoc es e
    rw [hstep, advance] at hmode hwork
    cases hok : publicationTransition (after es) e with
    | error message =>
      simp only [hok] at hmode hwork
      have he : e ≠ .inputChanged := by
        intro he
        subst he
        cases hok
      refine hkeep (ih hmode hwork) he (.inl ?_)
      rw [hstep, advance, hok]
    | ok result =>
      obtain ⟨s, c⟩ := result
      simp only [hok] at hmode hwork
      have hs : after (es ++ [e]) = s := by rw [hstep, advance, hok]
      cases transition_settles hok hmode hwork with
      | kept mode work input check => exact hkeep (ih mode work) input (hs ▸ check)
      | @run w result now backoff work =>
        have hheld : held (after es).work = some (.run, w.token) := by
          rw [work]
          rfl
        exact .inl ⟨es, [], w.token, result, now, backoff, rfl, held_issued es hheld, hheld, by simp⟩
      | @compaction w now backoff work check =>
        have hheld : held (after es).work = some (.compact, w.token) := by
          rw [work]
          rfl
        exact .inr ⟨es, [], w.token, w.debtGeneration, now, backoff, rfl, held_issued es hheld, hheld,
          by simp, fun hneeds => .inl (hs ▸ check hneeds)⟩

/-- An event that neither ends a compaction nor changes what it has to check afterwards. -/
def Overlaps (token : ℤ) (e : PublicationEvent R O) : Prop :=
  e ≠ .inputChanged ∧ e ≠ .captureBegin ∧ e ≠ .shutdown ∧ e ≠ .quiesced ∧
    answered e ≠ some (.compact, token)

theorem compacting_ignores {s : PublicationState R O} {w : Compacting R O}
    {e : PublicationEvent R O} (hwork : s.work = .compacting w) (he : Overlaps w.token e) :
    advance s e = s := by
  obtain ⟨h1, h2, h3, h4, h5⟩ := he
  unfold advance
  cases e with
  | compactionFinished token debtGeneration revision result now backoff =>
    have hne : w.token ≠ token := by
      intro heq
      exact h5 (by rw [heq]; rfl)
    simp [publicationTransition, compactionFinished, hwork, hne]
  | inputChanged => exact absurd rfl h1
  | captureBegin => exact absurd rfl h2
  | shutdown => exact absurd rfl h3
  | quiesced => exact absurd rfl h4
  | wake revision now =>
    by_cases hmode : s.mode = .available
    · simp [publicationTransition, wake, hwork, hmode]
    · simp [publicationTransition, wake, hmode]
  | finished => simp [publicationTransition, finished, hwork]
  | compactionDue =>
    by_cases hmode : s.mode = .available
    · simp [publicationTransition, compactionDue, hwork, hmode]
    · simp [publicationTransition, compactionDue, hmode]
  | compactionProbeFailed =>
    by_cases hmode : s.mode = .available
    · simp [publicationTransition, compactionProbeFailed, hwork, hmode]
    · simp [publicationTransition, compactionProbeFailed, hmode]
  | timerFired => simp [publicationTransition, timer, hwork]
  | captureEnd => simp [publicationTransition, captureEnd, hwork]

theorem compacting_run {s : PublicationState R O} {w : Compacting R O}
    {mid : List (PublicationEvent R O)} (hwork : s.work = .compacting w)
    (hmid : ∀ e ∈ mid, Overlaps w.token e) : run advance s mid = s := by
  induction mid with
  | nil => rfl
  | cons e mid ih =>
    rw [run_cons, compacting_ignores hwork (hmid e (by simp))]
    exact ih fun e' he' => hmid e' (List.mem_cons_of_mem _ he')

/-- The events of a compaction that overlaps a pending retry. -/
def compactionOver (s : PublicationState R O) (revision : Option R) (debt : ℤ)
    (mid : List (PublicationEvent R O)) (debt' : ℤ) (revision' : Option R)
    (result : PublicationResult) (now : ℚ) (backoff : List ℚ) : List (PublicationEvent R O) :=
  .compactionDue revision debt :: mid ++
    [.compactionFinished (s.nextToken + 1) debt' revision' result now backoff]

/-- A retry that a compaction overlaps is published again once its deadline has passed. -/
theorem retry_survives {s : PublicationState R O} {retry : RetryWait R O} {revision : Option R}
    {debt : ℤ} {mid : List (PublicationEvent R O)} {debt' : ℤ} {revision' : Option R}
    {result : PublicationResult} {now : ℚ} {backoff : List ℚ} (hmode : s.mode = .available)
    (hwork : s.work = .retryWait retry) (hcheck : s.needsCheck = false)
    (hmid : ∀ e ∈ mid, Overlaps (s.nextToken + 1) e) (hprobed : retry.revision ≠ none) {later : ℚ}
    (hlater : retry.deadline ≤ later) :
    ∃ s' c, publicationTransition
        (run advance s (compactionOver s revision debt mid debt' revision' result now backoff))
        (.wake retry.revision later) = .ok (s', c) ∧ c.action = .run := by
  set compacting : PublicationState R O := ⟨.available, .compacting ⟨s.nextToken + 1, revision,
    s.generation, debt, 0, some retry⟩, s.generation, s.nextToken + 1, false⟩
  have hdue : advance s (.compactionDue revision debt) = compacting := by
    simp [advance, publicationTransition, compactionDue, hmode, hwork, hcheck, compacting]
  have hmiddle : run advance compacting mid = compacting := compacting_run rfl hmid
  have hrun : run advance s (compactionOver s revision debt mid debt' revision' result now backoff) =
      advance compacting (.compactionFinished (s.nextToken + 1) debt' revision' result now backoff) := by
    rw [compactionOver, List.cons_append, run_cons, hdue, run_append, hmiddle]
    rfl
  rw [hrun]
  by_cases hsame : debt = debt' ∧ revision = revision'
  · obtain ⟨rfl, rfl⟩ := hsame
    have hwait : advance compacting (.compactionFinished (s.nextToken + 1) debt revision result now
        backoff) = ⟨.available, .retryWait retry, s.generation, s.nextToken + 1, false⟩ := by
      simp [advance, publicationTransition, compactionFinished, compacting]
    have hwake : (wake (⟨.available, .retryWait retry, s.generation, s.nextToken + 1, false⟩ :
        PublicationState R O) retry.revision later).2.action = .run := by
      simp [wake, hprobed, wakeProbed, not_lt.mpr hlater]
    rw [hwait]
    exact ⟨_, _, rfl, hwake⟩
  · have hidle : advance compacting (.compactionFinished (s.nextToken + 1) debt' revision' result now
        backoff) = ⟨.available, .idle, s.generation, s.nextToken + 1, true⟩ := by
      have hother : debt ≠ debt' ∨ revision ≠ revision' := not_and_or.mp hsame
      simp [advance, publicationTransition, compactionFinished, compacting, hother]
    have hwake : (wake (⟨.available, .idle, s.generation, s.nextToken + 1, true⟩ :
        PublicationState R O) retry.revision later).2.action = .run := by
      simp [wake, hprobed, wakeProbed]
    rw [hidle]
    exact ⟨_, _, rfl, hwake⟩

/-- A settled revision goes back to a finished publication run or compaction on it, and a retry
that a compaction overlaps is not lost. -/
theorem settlement_accounted :
    (∀ (es : List (PublicationEvent R O)) (revision : Option R) (outcome : Outcome O),
      (after es).mode = .available → (after es).work = .settled revision outcome →
      (after es).needsCheck = false → RunSettled es revision ∨ CompactionSettled es revision) ∧
    ∀ (es : List (PublicationEvent R O)) (retry : RetryWait R O), (after es).mode = .available →
      (after es).work = .retryWait retry → (after es).needsCheck = false → retry.revision ≠ none →
      ∀ revision debt mid debt' revision' result now backoff later,
        (∀ e ∈ mid, Overlaps ((after es).nextToken + 1) e) → retry.deadline ≤ later →
        ∃ s c, publicationTransition (after (es ++ compactionOver (after es) revision debt mid debt'
          revision' result now backoff)) (.wake retry.revision later) = .ok (s, c) ∧
            c.action = .run := by
  constructor
  · intro es revision outcome hmode hwork hcheck
    rcases settledBy es hmode hwork with hrun | hcompaction
    · exact .inl hrun
    · right
      obtain ⟨pre, post, token, debt, now, backoff, hes, hissued, hheld, hinput, hdue⟩ := hcompaction
      refine ⟨pre, post, token, debt, now, backoff, hes, hissued, hheld, hinput, ?_⟩
      intro hneeds
      rcases hdue hneeds with hstill | hwake
      · rw [hcheck] at hstill
        cases hstill
      · exact hwake
  · intro es retry hmode hwork hcheck hprobed revision debt mid debt' revision' result now backoff
      later hmid hlater
    have happend : after (es ++ compactionOver (after es) revision debt mid debt' revision' result now
        backoff) = run advance (after es)
          (compactionOver (after es) revision debt mid debt' revision' result now backoff) :=
      run_append advance _ es _
    rw [happend]
    exact retry_survives hmode hwork hcheck hmid hprobed hlater

/-- A run on revision 3 that has to be retried at 15. -/
def retried : List (PublicationEvent ℕ ℕ) :=
  [.wake (some 3) 0, .finished 1 (some 3) 9 .transient 10 [5, 20] false]

/-- A compaction over that retry, with its timer, a wake and a stale completion in between. -/
def overlapped : List (PublicationEvent ℕ ℕ) :=
  [.compactionDue (some 3) 4, .timerFired 0 15 16, .wake (some 3) 17,
    .finished 1 (some 3) 9 .settled 18 [] false, .compactionFinished 2 4 (some 3) .settled 20 []]

/-- The retry runs once the compaction is over, and its settlement goes back to a finished run. -/
theorem settlement_accounted_retry :
    (∃ s c, publicationTransition (after (retried ++ overlapped)) (.wake (some 3) 20) = .ok (s, c) ∧
        c.action = .run) ∧
      (RunSettled (retried ++ overlapped ++
          [.wake (some 3) 20, .finished 3 (some 3) 7 .settled 25 [] false]) (some 3) ∨
        CompactionSettled (retried ++ overlapped ++
          [.wake (some 3) 20, .finished 3 (some 3) 7 .settled 25 [] false]) (some 3)) := by
  obtain ⟨hsettled, hretry⟩ := @settlement_accounted ℕ ℕ _
  refine ⟨?_, hsettled _ (some 3) (.reported 7) (by decide +kernel) (by decide +kernel)
    (by decide +kernel)⟩
  have hafter : after retried =
      ⟨.available, .retryWait ⟨some 3, .reported 9, 15, 1⟩, 0, 1, false⟩ := by decide +kernel
  have hrun := hretry retried ⟨some 3, .reported 9, 15, 1⟩ (by rw [hafter]) (by rw [hafter])
    (by rw [hafter]) (by simp) (some 3) 4
    [.timerFired 0 15 16, .wake (some 3) 17, .finished 1 (some 3) 9 .settled 18 [] false] 4 (some 3)
    .settled 20 [] 20 (by simp [hafter, Overlaps, answered]) (by decide +kernel)
  rwa [hafter] at hrun

/-- A compaction alone settles its revision: nothing was ever published, and a wake on the
revision is absorbed. -/
theorem compaction_settles_unpublished :
    after ([.compactionDue (some 0) 0, .compactionFinished 1 0 (some 0) .settled 0 []] :
        List (PublicationEvent ℕ ℕ)) =
      ⟨.available, .settled (some 0) (.compacted .settled), 0, 1, false⟩ ∧
    (∀ token, ¬ Issued ([.compactionDue (some 0) 0, .compactionFinished 1 0 (some 0) .settled 0 []] :
        List (PublicationEvent ℕ ℕ)) .run token) ∧
    ¬ RunSettled ([.compactionDue (some 0) 0, .compactionFinished 1 0 (some 0) .settled 0 []] :
        List (PublicationEvent ℕ ℕ)) (some 0) := by
  refine ⟨by decide, ?_, ?_⟩
  · intro token h
    obtain ⟨pre, e, post, s, c, hes, hok, hstarted⟩ := h
    match pre, hes with
    | [], hes =>
      obtain ⟨rfl, -⟩ := List.cons.inj hes
      obtain ⟨-, rfl⟩ := Prod.mk.inj (Except.ok.inj hok)
      revert hstarted
      simp [started, after, PublicationState.initial]
    | [first], hes =>
      obtain ⟨rfl, htail⟩ := List.cons.inj hes
      obtain ⟨rfl, -⟩ := List.cons.inj htail
      have hcommand : publicationTransition (after [.compactionDue (some 0) 0])
          (.compactionFinished 1 0 (some 0) .settled 0 []) =
            .ok ((⟨.available, .settled (some 0) (.compacted .settled), 0, 1, false⟩ :
              PublicationState ℕ ℕ), .of .none) := by decide
      obtain ⟨-, rfl⟩ := Prod.mk.inj (Except.ok.inj (hok.symm.trans hcommand))
      cases hstarted
    | first :: second :: pre, hes =>
      have := congrArg List.length hes
      simp only [List.length_cons, List.length_append, List.length_nil] at this
      omega
  · intro h
    obtain ⟨pre, post, token, outcome, now, backoff, hes, -⟩ := h
    have hmem : PublicationEvent.finished token (some 0) outcome .settled now backoff false ∈
        ([.compactionDue (some 0) 0, .compactionFinished 1 0 (some 0) .settled 0 []] :
          List (PublicationEvent ℕ ℕ)) := by
      rw [hes]
      simp
    simp at hmem

end ReadySettlement
