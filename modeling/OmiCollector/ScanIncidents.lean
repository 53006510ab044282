import OmiCollector.ScanHealth

/-! When the scan health monitor resolves an incident, and what the sink holds once nothing is
pending. A resolution is decided only after an answering callback. A failure between the decision
and its end opens the incident again, so that the sink ends up as the last failure and the
callbacks after it say. -/
namespace ScanIncidents

open ScanHealth

/-- A resolution was decided and has not ended. -/
def inFlight : Persist → Bool
  | .resolveStarting _ => true
  | .resolving _ _ => true
  | _ => false

/-- A decision to resolve that no call has used yet, taken on an answered failure. -/
def DecisionOpen (log : List Obs) : Prop :=
  ∃ since earlier, log = since ++ .decided :: earlier ∧ .resolveCall ∉ since ∧
    answered earlier = true

/-- What holds in every interleaving. -/
structure Tracked (s : System) : Prop where
  failureAt : s.monitor.failureAt = lastFailure s.log
  flag : s.monitor.resolving = inFlight s.persist
  context : ∀ stored, s.persist = .opening stored → s.monitor.openContext.isSome
  recovery : s.monitor.resolutionPending = true → answered s.log = true
  decision : ∀ generation, s.persist = .resolveStarting generation → DecisionOpen s.log
  justified : ∀ later earlier, s.log = later ++ .resolveCall :: earlier → DecisionOpen earlier

theorem DecisionOpen.cons {log : List Obs} {o : Obs} (h : DecisionOpen log)
    (ho : o ≠ .resolveCall) : DecisionOpen (o :: log) := by
  obtain ⟨since, earlier, rfl, hsince, hanswered⟩ := h
  refine ⟨o :: since, earlier, rfl, ?_, hanswered⟩
  simp only [List.mem_cons, not_or]
  exact ⟨ho.symm, hsince⟩

theorem justified_cons {log : List Obs} {o : Obs}
    (h : ∀ later earlier, log = later ++ .resolveCall :: earlier → DecisionOpen earlier)
    (ho : o = .resolveCall → DecisionOpen log) :
    ∀ later earlier, o :: log = later ++ .resolveCall :: earlier → DecisionOpen earlier := by
  intro later earlier heq
  cases later with
  | nil =>
    rw [List.nil_append, List.cons.injEq] at heq
    exact heq.2 ▸ ho heq.1
  | cons first later =>
    rw [List.cons_append, List.cons.injEq] at heq
    exact h later earlier heq.2

/-- A section that leaves the outside view and the recovery fields as they are. -/
theorem Tracked.quiet {s s' : System} (h : Tracked s) (hlog : s'.log = s.log)
    (hpersist : s'.persist = s.persist)
    (hfailure : s'.monitor.failureAt = s.monitor.failureAt)
    (hresolving : s'.monitor.resolving = s.monitor.resolving)
    (hcontext : s'.monitor.openContext = s.monitor.openContext)
    (hpending : s'.monitor.resolutionPending = true → s.monitor.resolutionPending = true) :
    Tracked s' := by
  refine ⟨?_, ?_, ?_, ?_, ?_, ?_⟩
  · rw [hfailure, hlog]
    exact h.failureAt
  · rw [hresolving, hpersist]
    exact h.flag
  · rw [hpersist, hcontext]
    exact h.context
  · rw [hlog]
    exact fun hp => h.recovery (hpending hp)
  · rw [hpersist, hlog]
    exact h.decision
  · rw [hlog]
    exact h.justified

/-- A failure is noted, and it opens an incident unless an earlier one still holds the latch. -/
theorem startOpen_cases (m : Monitor) (clock : ℚ) (generation : ℕ) (reason : Reason)
    (errorKind : Option String) :
    (m.failureLatched = true ∧ m.resolving = false ∧
      m.startOpen clock generation reason errorKind =
        { m with failureAt := some clock, resolutionPending := false }) ∨
    ∃ context, m.startOpen clock generation reason errorKind =
      { m with
        failureAt := some clock
        resolutionPending := false
        openContext := some context
        incidentGeneration := some generation
        failureLatched := true } := by
  unfold Monitor.startOpen
  simp only
  split
  · rename_i h
    simp only [Bool.and_eq_true, Bool.not_eq_true'] at h
    exact .inl ⟨h.1, h.2, rfl⟩
  · exact .inr ⟨_, rfl⟩

/-- A callback is foreign, too old, asks for a recovery, or finds nothing to recover. -/
theorem radioActivity_cases (m : Monitor) (clock : ℚ) (generation : ℕ) (time : ℚ) :
    (m.generation ≠ some generation ∧ (m.radioActivity clock generation time).1 = m) ∨
    ∃ count last, m.generation = some generation ∧
      (((∃ failed ∈ m.failureAt, time ≤ failed) ∧
          (m.radioActivity clock generation time).1 =
            { m with callbackCount := count, lastCallbackAt := last }) ∨
        ((∀ failed ∈ m.failureAt, failed < time) ∧ ∃ recovering,
          (m.radioActivity clock generation time).1 =
            { m with
              callbackCount := count
              lastCallbackAt := last
              resolutionPending := true
              incidentGeneration := recovering }) ∨
        ((∀ failed ∈ m.failureAt, failed < time) ∧ m.incidentActive = false ∧
          m.incidentStateUnknown = false ∧ m.openContext = none ∧
          (m.radioActivity clock generation time).1 =
            { m with callbackCount := count, lastCallbackAt := last, failureLatched := false })) := by
  unfold Monitor.radioActivity
  by_cases hg : m.generation = some generation
  · right
    refine ⟨m.callbackCount + 1, some (m.lastCallbackAt.elim time fun last => max last time), hg, ?_⟩
    simp only [hg, ne_eq, not_true_eq_false, if_false]
    by_cases hlate : ∃ failed ∈ m.failureAt, time ≤ failed
    · left
      refine ⟨hlate, ?_⟩
      obtain ⟨failed, hf, hle⟩ := hlate
      rw [Option.mem_def] at hf
      simp [hf, hle]
    · right
      have hfresh : ∀ failed ∈ m.failureAt, failed < time := by
        intro failed hf
        by_contra hle
        exact hlate ⟨failed, hf, not_lt.mp hle⟩
      have hany : (m.failureAt.any fun failed => decide (time ≤ failed)) = false := by
        cases hf : m.failureAt with
        | none => rfl
        | some failed => simpa using hfresh failed hf
      simp only [hany, Bool.false_eq_true, if_false]
      by_cases hknown : (m.incidentActive || m.incidentStateUnknown || m.openContext.isSome) = true
      · left
        refine ⟨hfresh, ?_⟩
        by_cases hpending : m.resolutionPending = true
        · refine ⟨m.incidentGeneration, ?_⟩
          rw [if_pos hknown, if_pos hpending, ← hpending]
        · refine ⟨some generation, ?_⟩
          rw [if_pos hknown, if_neg hpending]
      · right
        rw [if_neg hknown]
        simp only [Bool.or_eq_true, Option.isSome_iff_ne_none, not_or, Bool.not_eq_true,
          not_not] at hknown
        exact ⟨hfresh, hknown.1.1, hknown.1.2, hknown.2, rfl⟩
  · exact .inl ⟨hg, by simp [hg]⟩

/-- How a section of the lock holder ends: with the lock free, in a call to open the incident, or
in a decided resolution. -/
inductive NextWait (m : Monitor) : Monitor × Persist → Prop
  | free : NextWait m (m, .idle)
  | opening (context : m.openContext.isSome = true) : NextWait m (m, .opening false)
  | resolve (generation : ℕ) (pending : m.resolutionPending = true)
      (known : m.incidentActive = true ∨ m.incidentStateUnknown = true) :
      NextWait m ({ m with resolving := true }, .resolveStarting generation)

theorem nextWait_resolveIfPending (m : Monitor) : NextWait m m.resolveIfPending := by
  unfold Monitor.resolveIfPending
  split
  · rename_i h
    rw [Bool.and_eq_true, Bool.or_eq_true] at h
    split
    · exact .resolve _ h.1 h.2
    · exact .free
  · exact .free

theorem nextWait_persistPending (m : Monitor) (clock : ℚ) (now : Option ℚ) :
    NextWait m (m.persistPending clock now) := by
  unfold Monitor.persistPending
  split
  · exact .free
  · split
    · exact .free
    · split
      · rename_i h
        exact .opening h
      · exact nextWait_resolveIfPending m

/-- The monitor right after an incident was opened. -/
def afterOpen (m : Monitor) : Monitor :=
  { m with incidentActive := true, openContext := none, retryAt := none, retryDelay := 1 }

/-- The monitor right after an incident was resolved. -/
def afterResolve (m : Monitor) : Monitor :=
  { m with
    resolving := false
    incidentActive := false
    incidentStateUnknown := false
    incidentGeneration := if m.openContext.isNone then none else m.incidentGeneration
    resolutionPending := m.resolutionPending && m.openContext.isSome
    failureLatched := m.failureLatched && m.openContext.isSome
    retryAt := none
    retryDelay := 1 }

theorem nextWait_opened (m : Monitor) : NextWait (afterOpen m) m.opened :=
  nextWait_resolveIfPending _

theorem nextWait_resolved (m : Monitor) (clock : ℚ) :
    NextWait (afterResolve m) (m.resolved clock) := by
  unfold Monitor.resolved
  cases hopen : m.openContext with
  | none =>
    simp only [Option.isNone_none, if_true]
    have hsame : ({ m with
        resolving := false
        incidentActive := false
        incidentStateUnknown := false
        incidentGeneration := none
        resolutionPending := false
        failureLatched := false
        retryAt := none
        retryDelay := 1 } : Monitor) = afterResolve m := by
      simp [afterResolve, hopen]
    rw [← hopen, hsame]
    exact .free
  | some context =>
    simp only [Option.isNone_some, Bool.false_eq_true, if_false]
    have hsame : ({ m with
        resolving := false
        incidentActive := false
        incidentStateUnknown := false
        retryAt := none
        retryDelay := 1 } : Monitor) = afterResolve m := by
      simp [afterResolve, hopen]
    rw [← hopen, hsame]
    exact nextWait_persistPending _ clock none

theorem tracked_wait {s : System} {m : Monitor} {next : Monitor × Persist}
    (hnext : NextWait m next) (hfailure : m.failureAt = lastFailure s.log)
    (hresolving : m.resolving = false)
    (hrecovery : m.resolutionPending = true → answered s.log = true)
    (hjustified : ∀ later earlier, s.log = later ++ .resolveCall :: earlier →
      DecisionOpen earlier) : Tracked (s.wait next) := by
  cases hnext with
  | free => exact ⟨hfailure, hresolving, by simp [System.wait], hrecovery, by simp [System.wait],
      hjustified⟩
  | opening context =>
    exact ⟨hfailure, hresolving, fun _ _ => context, hrecovery, by simp [System.wait],
      justified_cons hjustified (by simp)⟩
  | resolve generation pending known =>
    refine ⟨hfailure, rfl, by simp [System.wait], hrecovery, ?_, justified_cons hjustified (by simp)⟩
    intro _ _
    exact ⟨[], s.log, rfl, by simp, hrecovery pending⟩

theorem Tracked.fail {s : System} (h : Tracked s) (closings : List Closing) (generation : ℕ)
    (reason : Reason) (errorKind : Option String) :
    Tracked ({ s with closings := closings : System }.fail generation reason errorKind) := by
  unfold System.fail
  rcases startOpen_cases s.monitor s.clock generation reason errorKind with
    ⟨-, -, hm⟩ | ⟨context, hm⟩
  · simp only [hm]
    exact ⟨rfl, h.flag, h.context, by simp, fun g hg => (h.decision g hg).cons (by simp),
      justified_cons h.justified (by simp)⟩
  · simp only [hm]
    exact ⟨rfl, h.flag, by simp, by simp, fun g hg => (h.decision g hg).cons (by simp),
      justified_cons h.justified (by simp)⟩

theorem tracked_radioActivity {s : System} (h : Tracked s) (generation : ℕ) (time : ℚ) :
    Tracked (step s (.radioActivity generation time)) := by
  have hdecision : ∀ {current : Bool} (g : ℕ), s.persist = .resolveStarting g →
      DecisionOpen (.callback current time :: s.log) := fun g hg => (h.decision g hg).cons (by simp)
  have hjustified : ∀ current : Bool, ∀ later earlier,
      .callback current time :: s.log = later ++ .resolveCall :: earlier → DecisionOpen earlier :=
    fun current => justified_cons h.justified (by simp)
  have hrecovery : ∀ current : Bool, s.monitor.resolutionPending = true →
      answered (.callback current time :: s.log) = true := by
    intro current hp
    cases current <;> simp [answered, h.recovery hp]
  unfold step
  rcases radioActivity_cases s.monitor s.clock generation time with
    ⟨-, hm⟩ | ⟨count, last, hg, ⟨-, hm⟩ | ⟨hfresh, recovering, hm⟩ | ⟨-, -, -, -, hm⟩⟩
  · simp only [hm]
    exact ⟨h.failureAt, h.flag, h.context, hrecovery _, hdecision, hjustified _⟩
  · simp only [hm]
    exact ⟨h.failureAt, h.flag, h.context, hrecovery _, hdecision, hjustified _⟩
  · simp only [hm]
    refine ⟨h.failureAt, h.flag, h.context, fun _ => ?_, hdecision, hjustified _⟩
    rw [h.failureAt] at hfresh
    simp only [hg, decide_true, answered, Bool.or_eq_true]
    left
    cases hlast : lastFailure s.log with
    | none => rfl
    | some failed => simpa using hfresh failed hlast
  · simp only [hm]
    exact ⟨h.failureAt, h.flag, h.context, hrecovery _, hdecision, hjustified _⟩

/-- Reading the stored incident may drop a recovery that has nothing to resolve. -/
theorem lookedUp_cases (m : Monitor) (active : Bool) :
    m.lookedUp active =
        { m with incidentActive := active, incidentStateUnknown := false, initialized := true } ∨
    (active = false ∧ m.openContext = none ∧ m.lookedUp active =
        { m with
          incidentActive := active
          incidentStateUnknown := false
          initialized := true
          resolutionPending := false
          incidentGeneration := none
          failureLatched := false }) := by
  unfold Monitor.lookedUp
  simp only
  split
  · rename_i h
    simp only [Bool.and_eq_true, Bool.not_eq_true', Option.isNone_iff_eq_none] at h
    exact .inr ⟨h.1.1, h.1.2, rfl⟩
  · exact .inl rfl

theorem persistFailed_cases (m : Monitor) (clock : ℚ) (fatal : Bool) :
    m.persistFailed clock fatal = { m with storageFatal := true } ∨
    ∃ retry delay, m.persistFailed clock fatal =
      { m with retryAt := retry, retryDelay := delay } := by
  unfold Monitor.persistFailed
  split
  · exact .inl rfl
  · exact .inr ⟨_, _, rfl⟩

theorem step_tracked {s : System} (h : Tracked s) (e : Event) : Tracked (step s e) := by
  have hidle : ∀ {m : Monitor}, m.failureAt = s.monitor.failureAt → m.resolving = false →
      m.resolutionPending = s.monitor.resolutionPending →
      Tracked { s with monitor := m, persist := .idle } := by
    intro m hfailure hresolving hpending
    exact ⟨hfailure.trans h.failureAt, hresolving, by simp, fun hp => h.recovery (hpending ▸ hp),
      by simp, h.justified⟩
  cases e with
  | tick time => exact h.quiet rfl rfl rfl rfl rfl (fun hp => hp)
  | prepare generation =>
    rw [step]
    split
    · exact h.quiet rfl rfl rfl rfl rfl (fun hp => hp)
    · split
      · exact h
      · exact h.quiet rfl rfl rfl rfl rfl (fun hp => hp)
  | lookupRead index => exact h.quiet rfl rfl rfl rfl rfl (fun hp => hp)
  | lookupReturn index =>
    rw [step]
    split
    · rename_i generation active overtaken heq
      rcases lookedUp_cases s.monitor active with hm | ⟨-, -, hm⟩
      · rw [hm]
        exact h.quiet rfl rfl rfl rfl rfl (fun hp => hp)
      · rw [hm]
        exact h.quiet rfl rfl rfl rfl rfl (fun hp => by simp [Monitor.prepared] at hp)
    · exact h
  | lookupFail index fatal =>
    rw [step]
    split
    · split
      · exact h.quiet rfl rfl rfl rfl rfl (fun hp => hp)
      · exact h.quiet rfl rfl rfl rfl rfl (fun hp => hp)
    · exact h
  | scanStarted generation time =>
    simp only [step, Monitor.scanStarted]
    split
    · exact h.quiet rfl rfl rfl rfl rfl (fun hp => hp)
    · exact h
  | scanStopping generation =>
    simp only [step, Monitor.scanStopping]
    split
    · split
      · exact h.quiet rfl rfl rfl rfl rfl (fun hp => hp)
      · exact h
    · exact h
  | scanStopped generation =>
    rw [step]
    split
    · exact h.quiet rfl rfl rfl rfl rfl (fun hp => hp)
    · exact h
  | scanStartFailed generation errorKind =>
    rw [step]
    split
    · exact h.fail _ _ _ _
    · exact h
  | scanStopFailed generation errorKind =>
    rw [step]
    split
    · exact h.fail _ _ _ _
    · exact h
  | diagnosticsClosed index =>
    rw [step]
    split
    · exact h.quiet rfl rfl rfl rfl rfl (fun hp => hp)
    · exact h.quiet rfl rfl rfl rfl rfl (fun hp => hp)
    · exact h.quiet rfl rfl rfl rfl rfl (fun hp => hp)
    · exact h
  | radioActivity generation time => exact tracked_radioActivity h generation time
  | checkDeadline now =>
    rw [step]
    split
    · exact h.fail s.closings _ _ _
    · exact h
  | attempt now =>
    rw [step]
    split
    · rename_i hpersist
      have hflag := h.flag
      rw [hpersist] at hflag
      exact tracked_wait (nextWait_persistPending s.monitor s.clock now) h.failureAt hflag
        h.recovery h.justified
    · exact h
  | openStored =>
    rw [step]
    split
    · rename_i stored hpersist
      have hflag := h.flag
      rw [hpersist] at hflag
      exact ⟨h.failureAt, hflag, fun _ _ => h.context stored hpersist, h.recovery, by simp,
        h.justified⟩
    · exact h
  | openReturn =>
    rw [step]
    split
    · rename_i hpersist
      have hflag := h.flag
      rw [hpersist] at hflag
      exact tracked_wait (nextWait_opened s.monitor) h.failureAt hflag h.recovery
        (justified_cons h.justified (by simp))
    · exact h
  | openFail fatal =>
    rw [step]
    split
    · rename_i stored hpersist
      have hflag := h.flag
      rw [hpersist] at hflag
      rcases persistFailed_cases s.monitor s.clock fatal with hm | ⟨retry, delay, hm⟩
      · rw [hm]
        exact hidle rfl hflag rfl
      · rw [hm]
        exact hidle rfl hflag rfl
    · exact h
  | openCancelled =>
    rw [step]
    split
    · rename_i stored hpersist
      have hflag := h.flag
      rw [hpersist] at hflag
      exact hidle rfl hflag rfl
    · exact h
  | resolveCall =>
    rw [step]
    split
    · rename_i generation hpersist
      have hflag := h.flag
      rw [hpersist] at hflag
      exact ⟨h.failureAt, hflag, by simp, h.recovery, by simp,
        justified_cons h.justified (fun _ => h.decision generation hpersist)⟩
    · exact h
  | resolveStored =>
    rw [step]
    split
    · rename_i generation stored hpersist
      have hflag := h.flag
      rw [hpersist] at hflag
      exact ⟨h.failureAt, hflag, by simp, h.recovery, by simp, h.justified⟩
    · exact h
  | resolveReturn =>
    rw [step]
    split
    · refine tracked_wait (nextWait_resolved s.monitor s.clock) h.failureAt rfl ?_ h.justified
      intro hp
      simp only [afterResolve, Bool.and_eq_true] at hp
      exact h.recovery hp.1
    · exact h
  | resolveFail fatal =>
    rw [step]
    split
    · rcases persistFailed_cases { s.monitor with resolving := false } s.clock fatal with
        hm | ⟨retry, delay, hm⟩
      · rw [hm]
        exact hidle rfl rfl rfl
      · rw [hm]
        exact hidle rfl rfl rfl
    · exact h

/-- The last failure, or the incident stored before the start, has no answer yet. -/
def unresolved (stored : Bool) (log : List Obs) : Bool :=
  (stored || (lastFailure log).isSome) && !answered log

/-- How the sink and the monitor follow the failures and their answers, as long as no lookup is
overtaken. -/
structure Faithful (origin : Bool) (s : System) : Prop where
  stored : s.persist = .opening true → s.sink = true
  cleared : ∀ generation, s.persist = .resolving generation true → s.sink = false
  resolution : inFlight s.persist = true →
    answered s.log = true ∨ s.monitor.openContext.isSome = true
  opening : s.monitor.openContext.isSome = true →
    unresolved origin s.log = true ∨ s.monitor.resolutionPending = true
  latch : s.monitor.failureLatched = true → s.sink = true ∨
    s.monitor.openContext.isSome = true ∨ ∃ generation, s.persist = .resolving generation true
  failure : unresolved origin s.log = true → s.sink = true ∨ s.monitor.openContext.isSome = true
  incident : s.sink = true →
    unresolved origin s.log = true ∨ s.monitor.resolutionPending = true
  known : s.monitor.initialized = true ∨ s.monitor.generation.isSome = true → s.sink = true →
    s.monitor.incidentActive = true ∨ s.monitor.incidentStateUnknown = true ∨
      s.monitor.openContext.isSome = true
  lookups : ∀ l ∈ s.lookups, l.reading = some false → l.overtaken = false →
    s.sink = false ∨ s.monitor.openContext.isSome = true

/-- No lookup brings back a negative answer older than an incident opened since. -/
def timely (s : System) : Event → Bool
  | .lookupReturn index =>
    s.lookups[index]?.all fun l => !l.overtaken || decide (l.reading ≠ some false)
  | _ => true

def timelyRun : System → List Event → Bool
  | _, [] => true
  | s, e :: es => timely s e && timelyRun (step s e) es

theorem faithful_wait {origin : Bool} {s : System} {m : Monitor} {next : Monitor × Persist}
    (hnext : NextWait m next) (h : Faithful origin { s with monitor := m, persist := .idle })
    (hrecovery : m.resolutionPending = true → answered s.log = true) :
    Faithful origin (s.wait next) := by
  have hlatch : m.failureLatched = true → s.sink = true ∨ m.openContext.isSome = true := by
    intro hl
    rcases h.latch hl with hs | ho | ⟨generation, hp⟩
    · exact .inl hs
    · exact .inr ho
    · simp at hp
  cases hnext with
  | free => exact ⟨h.stored, h.cleared, h.resolution, h.opening, h.latch, h.failure, h.incident,
      h.known, h.lookups⟩
  | opening context =>
    exact ⟨by simp [System.wait], by simp [System.wait], by simp [System.wait, inFlight],
      h.opening, fun _ => .inr (.inl context), h.failure, h.incident, h.known, h.lookups⟩
  | resolve generation pending known =>
    refine ⟨by simp [System.wait], by simp [System.wait], fun _ => .inl (hrecovery pending),
      h.opening, fun hl => ?_, h.failure, h.incident, h.known, h.lookups⟩
    rcases hlatch hl with hs | ho
    · exact .inl hs
    · exact .inr (.inl ho)

theorem Faithful.fail {origin : Bool} {s : System} (h : Faithful origin s) (ht : Tracked s)
    (closings : List Closing) (generation : ℕ) (reason : Reason) (errorKind : Option String) :
    Faithful origin ({ s with closings := closings : System }.fail generation reason errorKind) := by
  have hunresolved : unresolved origin (.failure s.clock :: s.log) = true := by
    simp [unresolved, lastFailure, answered]
  unfold System.fail
  rcases startOpen_cases s.monitor s.clock generation reason errorKind with
    ⟨hlatched, hresolving, hm⟩ | ⟨context, hm⟩
  · -- The latch is held, so that the incident is stored or about to be.
    have hidle : inFlight s.persist = false := ht.flag ▸ hresolving
    have hopen : s.sink = true ∨ s.monitor.openContext.isSome = true := by
      rcases h.latch hlatched with hs | ho | ⟨g, hg⟩
      · exact .inl hs
      · exact .inr ho
      · simp [hg, inFlight] at hidle
    simp only [hm]
    refine ⟨h.stored, h.cleared, ?_, fun _ => .inl hunresolved, h.latch, fun _ => hopen,
      fun _ => .inl hunresolved, h.known, h.lookups⟩
    intro hf
    rw [hidle] at hf
    simp at hf
  · simp only [hm]
    exact ⟨h.stored, h.cleared, fun _ => .inr rfl, fun _ => .inl hunresolved,
      fun _ => .inr (.inl rfl), fun _ => .inr rfl, fun _ => .inl hunresolved,
      fun _ _ => .inr (.inr rfl), fun _ _ _ _ => .inr rfl⟩

theorem faithful_radioActivity {origin : Bool} {s : System} (h : Faithful origin s)
    (ht : Tracked s) (generation : ℕ) (time : ℚ) :
    Faithful origin (step s (.radioActivity generation time)) := by
  have hsame : ∀ {current : Bool}, answered (.callback current time :: s.log) = answered s.log →
      unresolved origin (.callback current time :: s.log) = unresolved origin s.log := by
    intro current heq
    simp [unresolved, lastFailure, heq]
  have hanswer : (∀ failed ∈ s.monitor.failureAt, failed < time) →
      answered (.callback true time :: s.log) = true := by
    intro hfresh
    rw [ht.failureAt] at hfresh
    simp only [answered, Bool.or_eq_true]
    left
    cases hlast : lastFailure s.log with
    | none => rfl
    | some failed => simpa using hfresh failed hlast
  have hresolved : ∀ {current : Bool}, answered (.callback current time :: s.log) = true →
      unresolved origin (.callback current time :: s.log) = false := by
    intro current heq
    simp [unresolved, heq]
  rw [step]
  rcases radioActivity_cases s.monitor s.clock generation time with
    ⟨hg, hm⟩ | ⟨count, last, hg, ⟨hlate, hm⟩ | ⟨hfresh, recovering, hm⟩ |
      ⟨hfresh, hactive, hunknown, hnone, hm⟩⟩
  · have heq : answered (.callback false time :: s.log) = answered s.log := rfl
    simp only [hm, hg, decide_false]
    exact ⟨h.stored, h.cleared, heq ▸ h.resolution, hsame heq ▸ h.opening, h.latch,
      hsame heq ▸ h.failure, hsame heq ▸ h.incident, h.known, h.lookups⟩
  · have heq : answered (.callback true time :: s.log) = answered s.log := by
      obtain ⟨failed, hf, hle⟩ := hlate
      rw [ht.failureAt] at hf
      simp only [answered, Option.mem_def.mp hf, Option.all_some, not_lt.mpr hle, decide_false,
        Bool.false_or]
    simp only [hm, decide_eq_true hg]
    exact ⟨h.stored, h.cleared, heq ▸ h.resolution, hsame heq ▸ h.opening, h.latch,
      hsame heq ▸ h.failure, hsame heq ▸ h.incident, h.known, h.lookups⟩
  · have heq := hanswer hfresh
    simp only [hm, decide_eq_true hg]
    refine ⟨h.stored, h.cleared, fun _ => .inl heq, fun _ => .inr rfl, h.latch, ?_,
      fun _ => .inr rfl, h.known, h.lookups⟩
    intro hu
    rw [hresolved heq] at hu
    simp at hu
  · have heq := hanswer hfresh
    have hsink : s.sink = false := by
      by_contra hopen
      rw [Bool.not_eq_false] at hopen
      have := h.known (.inr (by simp [hg])) hopen
      simp [hactive, hunknown, hnone] at this
    simp only [hm, decide_eq_true hg]
    refine ⟨h.stored, h.cleared, fun _ => .inl heq, ?_, by simp, ?_, ?_, ?_, fun _ _ _ _ => .inl hsink⟩
    · intro ho
      simp [hnone] at ho
    · intro hu
      rw [hresolved heq] at hu
      simp at hu
    · intro hs
      simp [hsink] at hs
    · intro _ hs
      simp [hsink] at hs

/-- A section that changes nothing the invariant reads except to hold less. -/
theorem Faithful.quiet {origin : Bool} {s s' : System} (h : Faithful origin s)
    (hlog : s'.log = s.log) (hpersist : s'.persist = s.persist) (hsink : s'.sink = s.sink)
    (hcontext : s'.monitor.openContext = s.monitor.openContext)
    (hpending : s'.monitor.resolutionPending = s.monitor.resolutionPending)
    (hlatch : s'.monitor.failureLatched = true → s.monitor.failureLatched = true)
    (hknown : s'.monitor.initialized = true ∨ s'.monitor.generation.isSome = true →
      s.sink = true → s'.monitor.incidentActive = true ∨
        s'.monitor.incidentStateUnknown = true ∨ s.monitor.openContext.isSome = true)
    (hlookups : ∀ l ∈ s'.lookups, l.reading = some false → l.overtaken = false →
      s.sink = false ∨ s.monitor.openContext.isSome = true) : Faithful origin s' := by
  refine ⟨?_, ?_, ?_, ?_, ?_, ?_, ?_, ?_, ?_⟩
  · rw [hpersist, hsink]
    exact h.stored
  · rw [hpersist, hsink]
    exact h.cleared
  · rw [hpersist, hlog, hcontext]
    exact h.resolution
  · rw [hlog, hcontext, hpending]
    exact h.opening
  · rw [hpersist, hsink, hcontext]
    exact fun hl => h.latch (hlatch hl)
  · rw [hlog, hsink, hcontext]
    exact h.failure
  · rw [hlog, hsink, hpending]
    exact h.incident
  · rw [hsink, hcontext]
    exact hknown
  · rw [hsink, hcontext]
    exact hlookups

theorem mem_modify_read {lookups : List Lookup} {index : ℕ} {stored : Bool} {l : Lookup}
    (h : l ∈ lookups.modify index (Lookup.read stored)) :
    l ∈ lookups ∨ l.reading = some stored := by
  rw [List.mem_iff_getElem?] at h
  obtain ⟨i, hi⟩ := h
  rw [List.getElem?_modify] at hi
  cases hl : lookups[i]? with
  | none => simp [hl] at hi
  | some l' =>
    rw [hl] at hi
    have hi := Option.some.inj hi
    have hmem := List.mem_of_getElem? hl
    by_cases hindex : index = i
    · simp only [if_pos hindex, Lookup.read] at hi
      split at hi
      · exact .inl (hi ▸ hmem)
      · exact .inr (by rw [← hi])
    · simp only [if_neg hindex] at hi
      exact .inl (hi ▸ hmem)

theorem step_faithful_lookup {origin : Bool} {s : System} (h : Faithful origin s) {index : ℕ}
    (htimely : timely s (.lookupReturn index) = true) :
    Faithful origin (step s (.lookupReturn index)) := by
  rw [step]
  split
  · rename_i generation active overtaken heq
    have hmem := List.mem_of_getElem? heq
    have hrest : ∀ l ∈ s.lookups.eraseIdx index, l.reading = some false → l.overtaken = false →
        s.sink = false ∨ s.monitor.openContext.isSome = true :=
      fun l hl => h.lookups l (List.mem_of_mem_eraseIdx hl)
    -- A negative answer is right, or an incident is still to be opened.
    have hanswer : active = false → s.sink = false ∨ s.monitor.openContext.isSome = true := by
      intro hactive
      subst hactive
      exact h.lookups _ hmem rfl (by simpa [timely, heq] using htimely)
    rcases lookedUp_cases s.monitor active with hm | ⟨hactive, hnone, hm⟩
    · rw [hm]
      refine h.quiet rfl rfl rfl rfl rfl ?_ ?_ hrest
      · intro hl
        simp only [Monitor.prepared, Bool.and_eq_true] at hl
        exact hl.1
      · intro _ hs
        cases active with
        | true => exact .inl rfl
        | false =>
          rcases hanswer rfl with hsink | ho
          · simp [hsink] at hs
          · exact .inr (.inr ho)
    · have hsink : s.sink = false := by
        rcases hanswer hactive with hsink | ho
        · exact hsink
        · simp [hnone] at ho
      rw [hm]
      refine ⟨h.stored, h.cleared, h.resolution, ?_, by simp [Monitor.prepared], h.failure, ?_, ?_,
        hrest⟩
      · intro ho
        simp [Monitor.prepared, hnone] at ho
      · intro hs
        simp [hsink] at hs
      · intro _ hs
        simp [hsink] at hs
  · exact h

theorem step_faithful {origin : Bool} {s : System} (h : Faithful origin s) (ht : Tracked s)
    {e : Event} (htimely : timely s e = true) : Faithful origin (step s e) := by
  -- The lock is freed with everything else as before.
  have hidle : ∀ {m : Monitor}, (∀ generation, s.persist ≠ .resolving generation true) →
      m.openContext = s.monitor.openContext →
      m.resolutionPending = s.monitor.resolutionPending →
      m.failureLatched = s.monitor.failureLatched → m.initialized = s.monitor.initialized →
      m.generation = s.monitor.generation → m.incidentActive = s.monitor.incidentActive →
      m.incidentStateUnknown = s.monitor.incidentStateUnknown →
      Faithful origin { s with monitor := m, persist := .idle } := by
    intro m hnot hcontext hpending hlatch hinit hgeneration hactive hunknown
    refine ⟨by simp, by simp, by simp [inFlight], ?_, ?_, ?_, ?_, ?_, ?_⟩
    · rw [hcontext, hpending]
      exact h.opening
    · rw [hlatch, hcontext]
      intro hl
      rcases h.latch hl with hs | ho | ⟨generation, hp⟩
      · exact .inl hs
      · exact .inr (.inl ho)
      · exact absurd hp (hnot generation)
    · rw [hcontext]
      exact h.failure
    · rw [hpending]
      exact h.incident
    · rw [hinit, hgeneration, hactive, hunknown, hcontext]
      exact h.known
    · rw [hcontext]
      exact h.lookups
  cases e with
  | tick time => exact h.quiet rfl rfl rfl rfl rfl (fun hl => hl) h.known h.lookups
  | prepare generation =>
    rw [step]
    split
    · rename_i hinit
      refine h.quiet rfl rfl rfl rfl rfl ?_ (fun _ => h.known (.inl hinit)) h.lookups
      intro hl
      simp only [Monitor.prepared, Bool.and_eq_true] at hl
      exact hl.1
    · split
      · exact h
      · refine h.quiet rfl rfl rfl rfl rfl (fun hl => hl) h.known ?_
        intro l hl hreading hfresh
        rcases List.mem_append.mp hl with hl | hl
        · exact h.lookups l hl hreading hfresh
        · obtain rfl := List.mem_singleton.mp hl
          simp at hreading
  | lookupRead index =>
    refine h.quiet rfl rfl rfl rfl rfl (fun hl => hl) h.known ?_
    intro l hl hreading hfresh
    rcases mem_modify_read hl with hmem | hread
    · exact h.lookups l hmem hreading hfresh
    · rw [hread] at hreading
      exact .inl (Option.some.inj hreading)
  | lookupReturn index => exact step_faithful_lookup h htimely
  | lookupFail index fatal =>
    rw [step]
    split
    · have hrest : ∀ l ∈ s.lookups.eraseIdx index, l.reading = some false →
          l.overtaken = false → s.sink = false ∨ s.monitor.openContext.isSome = true :=
        fun l hl => h.lookups l (List.mem_of_mem_eraseIdx hl)
      split
      · exact h.quiet rfl rfl rfl rfl rfl (fun hl => hl) h.known hrest
      · refine h.quiet rfl rfl rfl rfl rfl ?_ (fun _ _ => .inr (.inl rfl)) hrest
        intro hl
        simp only [Monitor.prepared, Bool.and_eq_true] at hl
        exact hl.1
    · exact h
  | scanStarted generation time =>
    simp only [step, Monitor.scanStarted]
    split
    · exact h.quiet rfl rfl rfl rfl rfl (fun hl => hl) h.known h.lookups
    · exact h
  | scanStopping generation =>
    simp only [step, Monitor.scanStopping]
    split
    · split
      · exact h.quiet rfl rfl rfl rfl rfl (fun hl => hl) h.known h.lookups
      · exact h
    · exact h
  | scanStopped generation =>
    rw [step]
    split
    · exact h.quiet rfl rfl rfl rfl rfl (fun hl => hl) h.known h.lookups
    · exact h
  | scanStartFailed generation errorKind =>
    rw [step]
    split
    · exact h.fail ht _ _ _ _
    · exact h
  | scanStopFailed generation errorKind =>
    rw [step]
    split
    · exact h.fail ht _ _ _ _
    · exact h
  | diagnosticsClosed index =>
    rw [step]
    split
    · exact h.quiet rfl rfl rfl rfl rfl (fun hl => hl) h.known h.lookups
    · refine h.quiet rfl rfl rfl rfl rfl (fun hl => hl) ?_ h.lookups
      intro hinit
      simp only [Option.isSome_none, Bool.false_eq_true, or_false] at hinit
      exact h.known (.inl hinit)
    · exact h.quiet rfl rfl rfl rfl rfl (fun hl => hl) h.known h.lookups
    · exact h
  | radioActivity generation time => exact faithful_radioActivity h ht generation time
  | checkDeadline now =>
    rw [step]
    split
    · exact h.fail ht s.closings _ _ _
    · exact h
  | attempt now =>
    rw [step]
    split
    · rename_i hpersist
      apply faithful_wait (nextWait_persistPending s.monitor s.clock now) _ ht.recovery
      exact hidle (by simp [hpersist]) rfl rfl rfl rfl rfl rfl rfl
    · exact h
  | openStored =>
    rw [step]
    split
    · rename_i stored hpersist
      have hcontext := ht.context stored hpersist
      exact ⟨fun _ => rfl, by simp, by simp [inFlight], h.opening, fun _ => .inl rfl,
        fun _ => .inl rfl, fun _ => h.opening hcontext, fun _ _ => .inr (.inr hcontext),
        fun _ _ _ _ => .inr hcontext⟩
    · exact h
  | openReturn =>
    rw [step]
    split
    · rename_i hpersist
      have hsink := h.stored hpersist
      refine faithful_wait (nextWait_opened s.monitor) ?_ ht.recovery
      refine ⟨by simp, by simp, by simp [inFlight], by simp [afterOpen], fun _ => .inl hsink,
        fun _ => .inl hsink, h.incident, fun _ _ => .inl rfl, ?_⟩
      intro l hl hreading hfresh
      obtain ⟨l', -, rfl⟩ := List.mem_map.mp hl
      simp only [Lookup.overtake] at hreading hfresh
      simp [hreading] at hfresh
    · exact h
  | openFail fatal =>
    rw [step]
    split
    · rename_i stored hpersist
      rcases persistFailed_cases s.monitor s.clock fatal with hm | ⟨retry, delay, hm⟩
      · rw [hm]
        exact hidle (by simp [hpersist]) rfl rfl rfl rfl rfl rfl rfl
      · rw [hm]
        exact hidle (by simp [hpersist]) rfl rfl rfl rfl rfl rfl rfl
    · exact h
  | openCancelled =>
    rw [step]
    split
    · rename_i stored hpersist
      exact hidle (by simp [hpersist]) rfl rfl rfl rfl rfl rfl rfl
    · exact h
  | resolveCall =>
    rw [step]
    split
    · rename_i generation hpersist
      have hresolution := h.resolution (by simp [hpersist, inFlight])
      refine ⟨by simp, by simp, fun _ => hresolution, h.opening, fun hl => ?_, h.failure, h.incident,
        h.known, h.lookups⟩
      rcases h.latch hl with hs | ho | ⟨g, hp⟩
      · exact .inl hs
      · exact .inr (.inl ho)
      · simp [hpersist] at hp
    · exact h
  | resolveStored =>
    rw [step]
    split
    · rename_i generation stored hpersist
      have hresolution := h.resolution (by simp [hpersist, inFlight])
      refine ⟨by simp, fun _ _ => rfl, fun _ => hresolution, h.opening,
        fun _ => .inr (.inr ⟨generation, rfl⟩), ?_, by simp, by simp, fun _ _ _ _ => .inl rfl⟩
      intro hu
      rcases hresolution with hanswered | ho
      · simp [unresolved, hanswered] at hu
      · exact .inr ho
    · exact h
  | resolveReturn =>
    rw [step]
    split
    · rename_i generation hpersist
      have hsink := h.cleared generation hpersist
      refine faithful_wait (nextWait_resolved s.monitor s.clock) ?_ ?_
      · refine ⟨by simp, by simp, by simp [inFlight], ?_, ?_, h.failure, by simp [hsink],
          by simp [hsink], h.lookups⟩
        · intro ho
          have hcontext : s.monitor.openContext.isSome = true := ho
          simp only [afterResolve, hcontext, Bool.and_true]
          exact h.opening hcontext
        · intro hl
          simp only [afterResolve, Bool.and_eq_true] at hl
          exact .inr (.inl hl.2)
      · intro hp
        simp only [afterResolve, Bool.and_eq_true] at hp
        exact ht.recovery hp.1
    · exact h
  | resolveFail fatal =>
    rw [step]
    split
    · rename_i generation hpersist
      rcases persistFailed_cases { s.monitor with resolving := false } s.clock fatal with
        hm | ⟨retry, delay, hm⟩
      · rw [hm]
        exact hidle (by simp [hpersist]) rfl rfl rfl rfl rfl rfl rfl
      · rw [hm]
        exact hidle (by simp [hpersist]) rfl rfl rfl rfl rfl rfl rfl
    · exact h

/-- How one step moves an incident that waits to be opened. -/
structure Progress (s s' : System) (seen : List Obs) : Prop where
  log : s'.log = seen ++ s.log
  context : s.monitor.openContext.isSome = true →
    s'.monitor.openContext.isSome = true ∨ .openDone ∈ seen
  call : ∀ stored, s'.persist = .opening stored →
    (∃ before, s.persist = .opening before) ∨ .openCall ∈ seen
  done : .openDone ∈ seen → ∃ before, s.persist = .opening before
  failure : ∀ time, .failure time ∈ seen → s'.persist = s.persist ∧
    (s.monitor.resolving = true → s'.monitor.openContext.isSome = true)

theorem progress_same {s s' : System} (hlog : s'.log = s.log)
    (hcontext : s'.monitor.openContext = s.monitor.openContext)
    (hpersist : ∀ stored, s'.persist = .opening stored → ∃ before, s.persist = .opening before) :
    Progress s s' [] :=
  ⟨hlog, fun ho => .inl (hcontext ▸ ho), fun stored hs => .inl (hpersist stored hs), by simp,
    by simp⟩

theorem progress_wait {s t : System} {m : Monitor} {next : Monitor × Persist}
    (hnext : NextWait m next) (seen : List Obs) (hlog : t.log = seen ++ s.log)
    (hcontext : s.monitor.openContext.isSome = true →
      m.openContext.isSome = true ∨ .openDone ∈ seen)
    (hdone : .openDone ∈ seen → ∃ before, s.persist = .opening before)
    (hfailure : ∀ time, .failure time ∉ seen) :
    ∃ more, Progress s (t.wait next) more := by
  cases hnext with
  | free => exact ⟨seen, hlog, hcontext, by simp [System.wait], hdone, by simp [hfailure]⟩
  | opening context =>
    refine ⟨.openCall :: seen, ?_, fun _ => .inl context, fun _ _ => .inr (by simp), ?_,
      by simp [hfailure]⟩
    · simp [System.wait, hlog]
    · intro hd
      exact hdone (by simpa using hd)
  | resolve generation pending known =>
    refine ⟨.decided :: seen, ?_, ?_, by simp [System.wait], ?_, by simp [hfailure]⟩
    · simp [System.wait, hlog]
    · intro ho
      rcases hcontext ho with hm | hd
      · exact .inl hm
      · exact .inr (List.mem_cons_of_mem _ hd)
    · intro hd
      exact hdone (by simpa using hd)

theorem progress_fail (s : System) (closings : List Closing) (generation : ℕ) (reason : Reason)
    (errorKind : Option String) :
    Progress s ({ s with closings := closings : System }.fail generation reason errorKind)
      [.failure s.clock] := by
  unfold System.fail
  rcases startOpen_cases s.monitor s.clock generation reason errorKind with
    ⟨-, hresolving, hm⟩ | ⟨context, hm⟩
  · simp only [hm]
    exact ⟨rfl, fun ho => .inl ho, fun stored hs => .inl ⟨stored, hs⟩, by simp,
      fun _ _ => ⟨rfl, by simp [hresolving]⟩⟩
  · simp only [hm]
    exact ⟨rfl, fun _ => .inl rfl, fun stored hs => .inl ⟨stored, hs⟩, by simp,
      fun _ _ => ⟨rfl, fun _ => rfl⟩⟩

theorem step_progress (s : System) (e : Event) : ∃ seen, Progress s (step s e) seen := by
  have hstay : ∃ seen, Progress s s seen :=
    ⟨[], progress_same rfl rfl (fun stored hs => ⟨stored, hs⟩)⟩
  have hquiet : ∀ {s' : System}, s'.log = s.log → s'.persist = s.persist →
      s'.monitor.openContext = s.monitor.openContext → ∃ seen, Progress s s' seen :=
    fun hlog hpersist hcontext =>
      ⟨[], progress_same hlog hcontext (fun stored hs => ⟨stored, hpersist ▸ hs⟩)⟩
  have hidle : ∀ {m : Monitor}, m.openContext = s.monitor.openContext →
      ∃ seen, Progress s { s with monitor := m, persist := .idle } seen :=
    fun hcontext => ⟨[], progress_same rfl hcontext (by simp)⟩
  cases e with
  | tick time => exact hquiet rfl rfl rfl
  | prepare generation =>
    rw [step]
    split
    · exact hquiet rfl rfl rfl
    · split
      · exact hstay
      · exact hquiet rfl rfl rfl
  | lookupRead index => exact hquiet rfl rfl rfl
  | lookupReturn index =>
    rw [step]
    split
    · rename_i generation active overtaken heq
      rcases lookedUp_cases s.monitor active with hm | ⟨-, -, hm⟩
      · rw [hm]
        exact hquiet rfl rfl rfl
      · rw [hm]
        exact hquiet rfl rfl rfl
    · exact hstay
  | lookupFail index fatal =>
    rw [step]
    split
    · split
      · exact hquiet rfl rfl rfl
      · exact hquiet rfl rfl rfl
    · exact hstay
  | scanStarted generation time =>
    simp only [step, Monitor.scanStarted]
    split
    · exact hquiet rfl rfl rfl
    · exact hstay
  | scanStopping generation =>
    simp only [step, Monitor.scanStopping]
    split
    · split
      · exact hquiet rfl rfl rfl
      · exact hstay
    · exact hstay
  | scanStopped generation =>
    rw [step]
    split
    · exact hquiet rfl rfl rfl
    · exact hstay
  | scanStartFailed generation errorKind =>
    rw [step]
    split
    · exact ⟨_, progress_fail s _ _ _ _⟩
    · exact hstay
  | scanStopFailed generation errorKind =>
    rw [step]
    split
    · exact ⟨_, progress_fail s _ _ _ _⟩
    · exact hstay
  | diagnosticsClosed index =>
    rw [step]
    split
    · exact hquiet rfl rfl rfl
    · exact hquiet rfl rfl rfl
    · exact hquiet rfl rfl rfl
    · exact hstay
  | radioActivity generation time =>
    have hcontext : (s.monitor.radioActivity s.clock generation time).1.openContext =
        s.monitor.openContext := by
      rcases radioActivity_cases s.monitor s.clock generation time with
        ⟨-, hm⟩ | ⟨count, last, -, ⟨-, hm⟩ | ⟨-, recovering, hm⟩ | ⟨-, -, -, -, hm⟩⟩
      all_goals rw [hm]
    rw [step]
    exact ⟨[.callback (decide (s.monitor.generation = some generation)) time], rfl,
      fun ho => .inl (hcontext ▸ ho), fun stored hs => .inl ⟨stored, hs⟩, by simp, by simp⟩
  | checkDeadline now =>
    rw [step]
    split
    · exact ⟨_, progress_fail s s.closings _ _ _⟩
    · exact hstay
  | attempt now =>
    rw [step]
    split
    · exact progress_wait (nextWait_persistPending s.monitor s.clock now) [] rfl
        (fun ho => .inl ho) (by simp) (by simp)
    · exact hstay
  | openStored =>
    rw [step]
    split
    · rename_i stored hpersist
      exact ⟨[], progress_same rfl rfl (fun _ _ => ⟨stored, hpersist⟩)⟩
    · exact hstay
  | openReturn =>
    rw [step]
    split
    · rename_i hpersist
      exact progress_wait (nextWait_opened s.monitor) [.openDone] rfl
        (fun _ => .inr (by simp)) (fun _ => ⟨true, hpersist⟩) (by simp)
    · exact hstay
  | openFail fatal =>
    rw [step]
    split
    · rcases persistFailed_cases s.monitor s.clock fatal with hm | ⟨retry, delay, hm⟩
      · rw [hm]
        exact hidle rfl
      · rw [hm]
        exact hidle rfl
    · exact hstay
  | openCancelled =>
    rw [step]
    split
    · exact hidle rfl
    · exact hstay
  | resolveCall =>
    rw [step]
    split
    · exact ⟨[.resolveCall], rfl, fun ho => .inl ho, by simp, by simp, by simp⟩
    · exact hstay
  | resolveStored =>
    rw [step]
    split
    · exact ⟨[], progress_same rfl rfl (by simp)⟩
    · exact hstay
  | resolveReturn =>
    rw [step]
    split
    · exact progress_wait (nextWait_resolved s.monitor s.clock) [] rfl
        (fun ho => .inl ho) (by simp) (by simp)
    · exact hstay
  | resolveFail fatal =>
    rw [step]
    split
    · rcases persistFailed_cases { s.monitor with resolving := false } s.clock fatal with
        hm | ⟨retry, delay, hm⟩
      · rw [hm]
        exact hidle rfl
      · rw [hm]
        exact hidle rfl
    · exact hstay

/-- Since `base` the incident was opened again, or it waits for that. -/
def Reopening (base : List Obs) (s : System) : Prop :=
  ∃ seen, s.log = seen ++ base ∧
    ((.openCall ∈ seen ∧ (.openDone ∈ seen ∨ s.monitor.openContext.isSome = true)) ∨
      (s.monitor.openContext.isSome = true ∧ ∀ stored, s.persist ≠ .opening stored))

theorem step_reopening {base : List Obs} {s : System} (h : Reopening base s) (e : Event) :
    Reopening base (step s e) := by
  obtain ⟨seen, hlog, hopen⟩ := h
  obtain ⟨more, hprogress⟩ := step_progress s e
  refine ⟨more ++ seen, by rw [hprogress.log, hlog, List.append_assoc], ?_⟩
  simp only [List.mem_append]
  rcases hopen with ⟨hcall, hdone | hcontext⟩ | ⟨hcontext, hnot⟩
  · exact .inl ⟨.inr hcall, .inl (.inr hdone)⟩
  · rcases hprogress.context hcontext with hc | hd
    · exact .inl ⟨.inr hcall, .inr hc⟩
    · exact .inl ⟨.inr hcall, .inl (.inl hd)⟩
  · have hkept : (step s e).monitor.openContext.isSome = true := by
      rcases hprogress.context hcontext with hc | hd
      · exact hc
      · obtain ⟨before, hb⟩ := hprogress.done hd
        exact absurd hb (hnot before)
    by_cases hopening : ∃ stored, (step s e).persist = .opening stored
    · obtain ⟨stored, hs⟩ := hopening
      rcases hprogress.call stored hs with ⟨before, hb⟩ | hcall
      · exact absurd hb (hnot before)
      · exact .inl ⟨.inl hcall, .inr hkept⟩
    · exact .inr ⟨hkept, fun stored hs => hopening ⟨stored, hs⟩⟩

theorem run_reopening {base : List Obs} {s : System} (h : Reopening base s) (events : List Event) :
    Reopening base (run s events) := by
  induction events generalizing s with
  | nil => exact h
  | cons e es ih => exact ih (step_reopening h e)

theorem run_tracked {s : System} (h : Tracked s) (events : List Event) : Tracked (run s events) := by
  induction events generalizing s with
  | nil => exact h
  | cons e es ih => exact ih (step_tracked h e)

theorem run_faithful {origin : Bool} {s : System} (h : Faithful origin s) (ht : Tracked s)
    {events : List Event} (htimely : timelyRun s events = true) :
    Faithful origin (run s events) := by
  induction events generalizing s with
  | nil => exact h
  | cons e es ih =>
    rw [timelyRun, Bool.and_eq_true] at htimely
    exact ih (step_faithful h ht htimely.1) (step_tracked ht e) htimely.2

theorem new_tracked (threshold clock : ℚ) (stored : Bool) :
    Tracked (.new threshold clock stored) :=
  ⟨rfl, rfl, by simp [System.new], by simp [System.new, Monitor.new], by simp [System.new],
    by simp [System.new]⟩

theorem new_faithful (threshold clock : ℚ) (stored : Bool) :
    Faithful stored (.new threshold clock stored) := by
  refine ⟨by simp [System.new], by simp [System.new], by simp [System.new, inFlight],
    by simp [System.new, Monitor.new], by simp [System.new, Monitor.new], ?_, ?_,
    by simp [System.new, Monitor.new], by simp [System.new]⟩
  · intro h
    left
    simpa [System.new, unresolved, lastFailure, answered] using h
  · intro h
    left
    simpa [System.new, unresolved, lastFailure, answered] using h

/-- No persistence is pending. -/
def Free (s : System) : Prop :=
  s.persist = .idle ∧ s.monitor.openContext = none ∧ s.monitor.resolutionPending = false

instance (s : System) : Decidable (Free s) := inferInstanceAs (Decidable (_ ∧ _))

/-- In every interleaving, each `sink.resolve` call follows a decision that an answering callback
preceded, and a failure recorded from that decision on leads to a further `sink.open`. When no
lookup is overtaken by an opened incident and nothing is pending, the sink holds an incident
exactly while the last failure has no answer. -/
theorem incident_resolution (threshold clock : ℚ) (stored : Bool) (events : List Event) :
    (∀ later earlier,
      (run (.new threshold clock stored) events).log = later ++ .resolveCall :: earlier →
      ∃ since before, earlier = since ++ .decided :: before ∧ .resolveCall ∉ since ∧
        answered before = true) ∧
    (∀ e more time, inFlight (run (.new threshold clock stored) events).persist = true →
      (step (run (.new threshold clock stored) events) e).log =
        .failure time :: (run (.new threshold clock stored) events).log →
      Free (run (.new threshold clock stored) (events ++ e :: more)) →
      ∃ seen, (run (.new threshold clock stored) (events ++ e :: more)).log =
          seen ++ (step (run (.new threshold clock stored) events) e).log ∧
        .openCall ∈ seen ∧ .openDone ∈ seen) ∧
    (timelyRun (.new threshold clock stored) events = true →
      Free (run (.new threshold clock stored) events) →
      ((run (.new threshold clock stored) events).sink = true ↔
        unresolved stored (run (.new threshold clock stored) events).log = true)) := by
  have ht := run_tracked (new_tracked threshold clock stored) events
  refine ⟨ht.justified, ?_, ?_⟩
  · intro e more time hflight hlog hfree
    have hrun : run (.new threshold clock stored) (events ++ e :: more) =
        run (step (run (.new threshold clock stored) events) e) more :=
      TransitionRuns.run_append step _ events (e :: more)
    obtain ⟨seen, hprogress⟩ := step_progress (run (.new threshold clock stored) events) e
    have hseen : seen = [.failure time] := by
      have happend := hprogress.log.symm.trans hlog
      exact List.append_cancel_right (happend.trans (List.singleton_append).symm)
    obtain ⟨hpersist, hcontext⟩ := hprogress.failure time (by simp [hseen])
    have hstart : Reopening (step (run (.new threshold clock stored) events) e).log
        (step (run (.new threshold clock stored) events) e) := by
      refine ⟨[], rfl, .inr ⟨hcontext (ht.flag.trans hflight), ?_⟩⟩
      intro st hst
      rw [hpersist] at hst
      rw [hst] at hflight
      simp [inFlight] at hflight
    obtain ⟨later, hlater, hopen⟩ := run_reopening hstart more
    rw [hrun] at hfree ⊢
    rw [hfree.2.1] at hopen
    refine ⟨later, hlater, ?_⟩
    simpa using hopen
  · intro htimely hfree
    have hf := run_faithful (new_faithful threshold clock stored) (new_tracked threshold clock stored)
      htimely
    constructor
    · intro hsink
      rcases hf.incident hsink with hu | hp
      · exact hu
      · rw [hfree.2.2] at hp
        simp at hp
    · intro hu
      rcases hf.failure hu with hs | ho
      · exact hs
      · rw [hfree.2.1] at ho
        simp at ho

/-- A scan whose start failed, with the incident stored and then answered by a callback. -/
def answeredStart : List Event :=
  [.prepare 1, .lookupRead 0, .lookupReturn 0, .scanStartFailed 1 "OSError", .attempt none,
    .openStored, .openReturn, .radioActivity 1 1, .attempt none]

/-- The recovery runs to its end. -/
def resolvedStart : List Event :=
  answeredStart ++ [.resolveCall, .resolveStored, .resolveReturn]

/-- A failed stop arrives while the resolution is under way. -/
def reopenedStart : List Event :=
  [.resolveCall, .resolveStored, .resolveReturn, .openStored, .openReturn]

theorem incident_resolution_started :
    Free (run (.new 10 0 false) resolvedStart) ∧
    (run (.new 10 0 false) resolvedStart).sink = false ∧
    Free (run (.new 10 0 false)
      (answeredStart ++ .scanStopFailed 1 "OSError" :: reopenedStart)) ∧
    ∃ seen, (run (.new 10 0 false)
        (answeredStart ++ .scanStopFailed 1 "OSError" :: reopenedStart)).log =
        seen ++ (step (run (.new 10 0 false) answeredStart) (.scanStopFailed 1 "OSError")).log ∧
      .openCall ∈ seen ∧ .openDone ∈ seen := by
  have hfree : Free (run (.new 10 0 false) resolvedStart) := by decide +kernel
  have hagain : Free (run (.new 10 0 false)
      (answeredStart ++ .scanStopFailed 1 "OSError" :: reopenedStart)) := by decide +kernel
  have hsink := (incident_resolution 10 0 false resolvedStart).2.2 (by decide +kernel) hfree
  refine ⟨hfree, ?_, hagain, ?_⟩
  · rw [← Bool.not_eq_true, hsink]
    decide +kernel
  · exact (incident_resolution 10 0 false answeredStart).2.1 (.scanStopFailed 1 "OSError")
      reopenedStart 0 (by decide +kernel) (by decide +kernel) hagain

/-- The failed stop is recorded after the decision and before the owned task calls the sink, so
that the call follows a failure without an answer. -/
theorem resolve_called_unanswered :
    ∃ earlier, (run (.new 10 0 false)
        (answeredStart ++ [.scanStopFailed 1 "OSError", .resolveCall])).log =
        .resolveCall :: earlier ∧ answered earlier = false := by
  refine ⟨(run (.new 10 0 false) (answeredStart ++ [.scanStopFailed 1 "OSError"])).log, ?_, ?_⟩
  · decide +kernel
  · decide +kernel

end ScanIncidents
