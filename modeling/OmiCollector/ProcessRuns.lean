import OmiCollector.PermitRuns

/-! Every action of the process is a sequence of durable changes.

Calls of publication, acknowledgement and raw retirement are followed once each. What the changes
keep holds in every reachable process, whatever actions came before and wherever they stopped. -/
namespace ProcessRuns

open CaptureModel KeyedTable SpanCover PublicationLedger RefusalLogic StepRuns TypedSlices
open PublicationStage PublicationStore PublicationMachine PublicationEffects LedgerOrder
open CohortMembers StagedGroups SettledSources PublicationRuns PermitRuns
open AckRetirement (AckM removeV2Artifact removeRetired resumeRetiredPublicAudioV2
  recordV2Retirement retireEach)
open Relation (ReflTransGen)

variable {D : Type} [DecidableEq D]

section Acknowledgement

/-- Computations of the acknowledgement model, for a choice of steps of the ledger. -/
def ledgerSteps (Step : Ledger D → Ledger D → Prop) : Durable (AckRetirement.World D) (Ledger D) where
  point := AckRetirement.World.ledger
  Step := Step
  Inv _ := True
  preserved _ _ := trivial

/-- One durable change of the ledger by an acknowledgement. -/
inductive Acknowledges : Ledger D → Ledger D → Prop where
  | clears {l l' : Ledger D} (clears : Clears l l') : Acknowledges l l'
  | retires {l l' : Ledger D} (retires : Retires l l') : Acknowledges l l'

variable {Step : Ledger D → Ledger D → Prop} {w : AckRetirement.World D} {α β : Type}
  {Q : α → AckRetirement.World D → Prop}

omit [DecidableEq D] in
theorem runs_ack_fromExcept {x : Except String α} (h : ∀ a, x = .ok a → Q a w) :
    Runs (ledgerSteps Step) (AckRetirement.fromExcept x) w Q := by
  cases x with
  | ok a => exact runs_pure (h a rfl)
  | error e => exact runs_throw

omit [DecidableEq D] in
theorem runs_write {f : Ledger D → Ledger D} {P : Unit → AckRetirement.World D → Prop}
    (hstep : Step w.ledger (f w.ledger)) (h : ∀ t, t.ledger = f w.ledger → P () t) :
    Runs (ledgerSteps Step) (AckRetirement.write f) w P := by
  unfold AckRetirement.write
  apply runs_get_bind
  cases w.steps with
  | none => exact runs_set_step hstep (h _ rfl)
  | some n =>
    cases n with
    | zero => exact runs_throw
    | succ n => exact runs_set_step hstep (h _ rfl)

omit [DecidableEq D] in
theorem runs_shouldDefer {P : Bool → AckRetirement.World D → Prop}
    (h : ∀ answer t, t.ledger = w.ledger → P answer t) :
    Runs (ledgerSteps Step) AckRetirement.shouldDefer w P := by
  unfold AckRetirement.shouldDefer
  apply runs_get_bind
  cases w.defers with
  | nil => exact runs_pure (h false w rfl)
  | cons answer rest =>
    refine Runs.bind (runs_set (P := fun _ t => t.ledger = w.ledger) rfl rfl) ?_
    exact fun _ t _ ht => runs_pure (h answer t ht)

/-- Files of a retired artifact may change in any way. -/
theorem clears_of_retired {l : Ledger D} {id : D} (h : l.IsRetired id)
    {directories : Table D (Directory D)}
    (hother : ∀ id', id' ≠ id → directories.get id' = l.directories.get id') :
    Clears l { l with directories := directories } :=
  .clear fun id' hid' => hother id' fun heq => hid' (heq ▸ h)

theorem runs_unlink {id : D} {d : Directory D} {item : AckRetirement.Item}
    (h : w.ledger.IsRetired id) :
    Runs (ledgerSteps Clears) (AckRetirement.unlink id d item) w
      fun _ t => t.ledger.entries = w.ledger.entries := by
  unfold AckRetirement.unlink
  refine runs_ite (fun _ => runs_write ?_ ?_) fun _ => runs_pure rfl
  · refine clears_of_retired h fun id' hne => ?_
    rw [Table.get_adjust, if_neg hne]
  · intro t ht
    rw [ht]

theorem isRetired_congr {l l' : Ledger D} (h : l'.entries = l.entries) {id : D} :
    l'.IsRetired id ↔ l.IsRetired id := by
  unfold Ledger.IsRetired
  rw [h]

theorem runs_removeV2Artifact {id : D} (h : w.ledger.IsRetired id) :
    Runs (ledgerSteps Clears) (removeV2Artifact id) w
      fun _ t => t.ledger.entries = w.ledger.entries := by
  unfold removeV2Artifact
  apply runs_get_bind
  cases w.ledger.directories.get id with
  | none => exact runs_pure rfl
  | some d =>
    refine Runs.bind (runs_refuseIf (P := fun _ t => t = w) fun _ => rfl) ?_
    rintro _ t - rfl
    refine Runs.bind (runs_unlink h) ?_
    intro _ u _ hu
    refine Runs.bind (runs_unlink ((isRetired_congr hu).mpr h)) ?_
    intro _ v _ hv
    have hretired : v.ledger.IsRetired id := (isRetired_congr (hv.trans hu)).mpr h
    refine runs_write (clears_of_retired hretired fun id' hne => ?_) fun x hx => ?_
    · rw [Table.get_delete, if_neg hne]
    · rw [hx]
      exact hv.trans hu

/-- The removal loop touches what the ledger calls retired. -/
theorem runs_removeRetired {rows : List (D × Entry D)} (h : ∀ r ∈ rows, r ∈ w.ledger.entries.rows) :
    Runs (ledgerSteps Clears) (removeRetired rows) w
      fun _ t => t.ledger.entries = w.ledger.entries := by
  induction rows generalizing w with
  | nil => exact runs_pure rfl
  | cons r rest ih =>
    obtain ⟨id, entry⟩ := r
    have hrest : ∀ r ∈ rest, r ∈ w.ledger.entries.rows := fun r hr => h r (List.mem_cons_of_mem _ hr)
    unfold removeRetired
    refine runs_ite (fun hstate => ?_) fun _ => ih hrest
    have hentry := Table.get_eq_some.mpr (h (id, entry) List.mem_cons_self)
    refine Runs.bind (runs_removeV2Artifact ⟨entry, hentry, hstate⟩) ?_
    intro _ t _ ht
    refine (ih (w := t) (ht ▸ hrest)).mono ?_
    exact fun _ u _ hu => hu.trans ht

theorem runs_resumeRetired : Runs (ledgerSteps Clears) resumeRetiredPublicAudioV2 w
    fun _ t => t.ledger.entries = w.ledger.entries := by
  unfold resumeRetiredPublicAudioV2
  apply runs_get_bind
  exact runs_removeRetired fun _ hr => hr

theorem runs_removal {x : AckM D α} (h : Runs (ledgerSteps Clears) x w Q) :
    Runs (ledgerSteps Acknowledges) x w Q :=
  h.enlarge rfl (fun _ _ hstep => .clears hstep) rfl

theorem runs_recordV2Retirement {id : D} {entry : Entry D} (hready : entry.state ≠ .retired) :
    Runs (ledgerSteps Acknowledges) (recordV2Retirement id entry) w
      fun _ t => t.ledger.IsRetired id := by
  unfold recordV2Retirement
  apply runs_get_bind
  refine Runs.bind (runs_refuseIf (P := fun _ t => t = w ∧ w.ledger.entries.get id = some entry)
    fun h => ⟨rfl, not_not.mp h⟩) ?_
  rintro _ t - ⟨rfl, hentry⟩
  refine Runs.bind (runs_refuseIf (P := fun _ u => u = t ∧
    (t.ledger.proofs.get id).map (·.lifecycle) = some .active) fun h => ⟨rfl, not_not.mp h⟩) ?_
  rintro _ u - ⟨rfl, hproof⟩
  obtain ⟨p, hp, hactive⟩ := Option.map_eq_some_iff.mp hproof
  have hstate : entry.state = .ready := by
    cases hs : entry.state with
    | ready => rfl
    | retired => exact absurd hs hready
  refine runs_write (.retires (.retire hentry hstate hp hactive)) fun v hv => ?_
  exact ⟨AckRetirement.Entry.retire entry, by simp [hv], rfl⟩

theorem runs_retireEach {entries : Table D (Entry D)} {pairs : List (D × D)} :
    Runs (ledgerSteps Acknowledges) (retireEach entries pairs) w fun _ _ => True := by
  induction pairs generalizing w with
  | nil => exact runs_pure trivial
  | cons pair rest ih =>
    obtain ⟨id, digest⟩ := pair
    unfold retireEach
    cases entries.get id with
    | none => exact runs_throw
    | some entry =>
      refine runs_ite (fun _ => ih) fun hready => ?_
      refine Runs.bind (runs_recordV2Retirement hready) ?_
      intro _ t _ hretired
      refine Runs.bind (runs_removal (runs_removeV2Artifact hretired)) ?_
      intro _ u _ _
      refine Runs.bind (runs_shouldDefer (P := fun _ _ => True) fun _ _ _ => trivial) ?_
      intro deferred v _ _
      refine runs_ite (fun _ => runs_pure trivial) fun _ => ?_
      exact Runs.bind ih fun _ x _ _ => runs_pure trivial

theorem runs_preflight {pairs : List (D × D)} :
    Runs (ledgerSteps Acknowledges) (AckRetirement.preflightV2AckRetirement pairs) w
      fun _ _ => True := by
  unfold AckRetirement.preflightV2AckRetirement
  refine runs_ite (fun _ => runs_pure trivial) fun _ => ?_
  apply runs_get_bind
  refine Runs.bind (runs_ack_fromExcept (Q := fun _ _ => True) fun _ _ => trivial) ?_
  intro needed t _ _
  refine runs_ite (fun _ => runs_pure trivial) fun _ => ?_
  refine Runs.bind (runs_shouldDefer (P := fun _ _ => True) fun _ _ _ => trivial) ?_
  intro deferred u _ _
  refine runs_ite (fun _ => runs_pure trivial) fun _ => ?_
  refine Runs.bind (runs_removal runs_resumeRetired) ?_
  intro _ v _ _
  refine Runs.bind (runs_shouldDefer (P := fun _ _ => True) fun _ _ _ => trivial) ?_
  intro interrupted x _ _
  refine runs_ite (fun _ => runs_pure trivial) fun _ => ?_
  apply runs_get_bind
  refine Runs.bind (runs_ack_fromExcept (Q := fun _ _ => True) fun _ _ => trivial) ?_
  intro _ y _ _
  refine Runs.bind (runs_ack_fromExcept (Q := fun _ _ => True) fun _ _ => trivial) ?_
  exact fun _ z _ _ => runs_pure trivial

theorem runs_retireAcknowledgedPublicAudioV2 {c : AckRetirement.Call D} :
    Runs (ledgerSteps Acknowledges) (AckRetirement.retireAcknowledgedPublicAudioV2 c) w
      fun _ _ => True := by
  unfold AckRetirement.retireAcknowledgedPublicAudioV2
  refine Runs.bind (runs_ack_fromExcept (Q := fun _ _ => True) fun _ _ => trivial) ?_
  intro pairs t _ _
  refine Runs.bind runs_preflight ?_
  intro entries u _ _
  cases entries with
  | none => exact runs_pure trivial
  | some entries =>
    refine Runs.bind (runs_refuseIf (P := fun _ _ => True) fun _ => trivial) ?_
    intro _ v _ _
    refine Runs.bind (runs_ack_fromExcept (Q := fun _ _ => True) fun _ _ => trivial) ?_
    intro again x _ _
    refine Runs.bind (runs_refuseIf (P := fun _ _ => True) fun _ => trivial) ?_
    intro _ y _ _
    refine Runs.bind (runs_shouldDefer (P := fun _ _ => True) fun _ _ _ => trivial) ?_
    intro deferred z _ _
    exact runs_ite (fun _ => runs_pure trivial) fun _ => runs_retireEach

theorem runs_retireAcknowledgedReady {c : AckRetirement.Call D} :
    Runs (ledgerSteps Acknowledges) (AckRetirement.retireAcknowledgedReady c) w
      fun _ _ => True := by
  unfold AckRetirement.retireAcknowledgedReady
  refine Runs.bind (runs_shouldDefer (P := fun _ _ => True) fun _ _ _ => trivial) ?_
  intro deferred t _ _
  refine runs_ite (fun _ => runs_pure trivial) fun _ => ?_
  refine Runs.bind (Q := fun _ _ => True) ?_ ?_
  · unfold AckRetirement.ensureRecovery
    apply runs_get_bind
    refine runs_ite (fun _ => runs_pure trivial) fun _ => ?_
    refine Runs.bind (runs_removal runs_resumeRetired) ?_
    exact fun _ u _ _ => runs_modify rfl trivial
  intro _ u _ _
  refine Runs.bind (runs_ack_fromExcept (Q := fun _ _ => True) fun _ _ => trivial) ?_
  intro pairs v _ _
  apply runs_get_bind
  refine Runs.bind (runs_ack_fromExcept (Q := fun _ _ => True) fun _ _ => trivial) ?_
  intro needed x _ _
  refine runs_ite (fun _ => runs_pure trivial) fun _ => ?_
  refine Runs.bind (runs_shouldDefer (P := fun _ _ => True) fun _ _ _ => trivial) ?_
  intro late y _ _
  refine runs_ite (fun _ => runs_pure trivial) fun _ => ?_
  refine Runs.tryCatch runs_retireAcknowledgedPublicAudioV2 fun e z => ?_
  exact Runs.bind (runs_modify (P := fun _ _ => True) rfl trivial) fun _ _ _ _ => runs_throw

end Acknowledgement

/-- One durable step of a publication call: of the program, or the use of permits. -/
inductive CallStep (codec : Codec D) : Db D × Log D → Db D × Log D → Prop where
  | program {s s' : Db D × Log D} (effect : Effect codec s s') : CallStep codec s s'
  | closures {db : Db D} {log : Log D} {closures : List ReadyClosure} :
      CallStep codec (db, log) ({ db with closures := closures }, log)

theorem CallStep.change {codec : Codec D} {s s' : Db D × Log D} (h : CallStep codec s s') :
    Change codec s s' := by
  cases h with
  | program effect => exact .program effect
  | closures => exact .closures

/-- A whole publication call over its database and its history. -/
def process (codec : Codec D) : Durable (World D) (Db D × Log D) where
  point w := (w.db, w.log)
  Step := CallStep codec
  Inv := Consistent codec
  preserved h hstep := change_consistent h hstep.change

variable {codec : Codec D} {w : World D} {α β : Type}

theorem runs_program {x : PubM D α} {Q : α → World D → Prop} (h : Runs (program codec) x w Q) :
    Runs (process codec) x w Q :=
  h.enlarge rfl (fun _ _ hstep => .program hstep) rfl

section Publication

/-- Removals inside a publication call clear files of the same database. -/
theorem runs_liftAck {x : AckM D α} {Q : α → AckRetirement.World D → Prop}
    (h : Runs (ledgerSteps Clears) x ⟨w.db.ledger, false, [], w.manifestFirst, w.steps⟩ Q) :
    Runs (program codec) (liftAck x) w fun _ t => ∃ l, t.db = { w.db with ledger := l } := by
  unfold liftAck
  apply runs_get_bind
  have hsteps : ∀ l, ReflTransGen Clears w.db.ledger l →
      ReflTransGen (Effect codec) (w.db, w.log) ({ w.db with ledger := l }, w.log) := by
    intro l hl
    induction hl with
    | refl => exact .refl
    | tail _ hclears ih => exact ih.tail (.clear hclears)
  have hx := h trivial
  unfold wp at hx
  cases hexec : exec x ⟨w.db.ledger, false, [], w.manifestFirst, w.steps⟩ with
  | mk result ack =>
    simp only [hexec] at hx ⊢
    refine Runs.bind (Q := fun _ t => t.db = { w.db with ledger := ack.ledger }) ?_ ?_
    · intro hinv
      rw [wp_set]
      cases result with
      | ok a => exact ⟨hsteps _ hx.1, (program codec).inv_of_steps hinv (hsteps _ hx.1), rfl⟩
      | error e => exact ⟨hsteps _ hx.1, (program codec).inv_of_steps hinv (hsteps _ hx.1), rfl⟩
    · intro _ t _ ht
      cases result with
      | ok a => exact runs_pure ⟨ack.ledger, ht⟩
      | error e =>
        cases e with
        | crashed => exact runs_throw
        | raised message => exact runs_throw

theorem runs_ensureRecovery : Runs (program codec) (ensureRecovery (D := D)) w
    fun _ t => ∃ l, t.db = { w.db with ledger := l } := by
  unfold ensureRecovery
  apply runs_get_bind
  refine runs_ite (fun _ => ?_) fun _ => runs_pure ⟨w.db.ledger, rfl⟩
  refine Runs.bind (runs_liftAck runs_resumeRetired) ?_
  exact fun _ t _ ht => runs_modify rfl ht

theorem runs_coalesceClosures : Runs (program codec) (coalesceClosures (D := D)) w
    fun newest (t : World D) => newest = w.db.closures.getLast? ∧
      t.db = { w.db with closures := t.db.closures } := by
  unfold coalesceClosures
  apply runs_readDb_bind
  refine runs_ite (fun _ => ?_) fun _ => runs_pure ⟨rfl, rfl⟩
  refine Runs.bind (runs_transact (P := fun _ t => t.db = { w.db with closures := t.db.closures })
    (fun _ => Effect.coalesce) ?_) fun _ t _ ht => runs_pure ⟨rfl, ht⟩
  intro t ht _
  rw [ht]

theorem runs_blockedOnRefusal {x : PubM D (Outcome D)} {P : World D → Prop}
    (h : Runs (program codec) x w fun outcome t => outcome.remainingAtFrontier = false → P t) :
    Runs (program codec) (blockedOnRefusal x) w
      fun outcome t => outcome.remainingAtFrontier = false → P t := by
  unfold blockedOnRefusal
  refine Runs.tryCatch h fun e t => ?_
  cases e with
  | refused => exact runs_pure (by simp)
  | admissionConflict => exact runs_pure (by simp)
  | failStop => exact runs_throw
  | crashed => exact runs_throw

/-- A publication call up to where its permit may be consumed. -/
def attempt (codec : Codec D) (c : Call D) : PubM D (Option ReadyClosure × Outcome D) := do
  ensureRecovery
  let acknowledged ← fromExcept
    ((AckRetirement.acknowledgedPublicAudioV2 c.checkpoint).mapError .refused)
  let _ ← fromExcept ((AckRetirement.requireV2AcknowledgementMetadata (← readDb).ledger []
    acknowledged).mapError .refused)
  let closure ← coalesceClosures
  let outcome ← blockedOnRefusal (finalizePublicAudioV2 codec
    ⟨c.threshold, c.clock, closure.map (·.nextSequence),
      closure.any fun closure => closure.reason = "drained"⟩)
  return (closure, outcome)

/-- The end of a publication call: consume the permit when nothing is left at its frontier. -/
def consume (r : Option ReadyClosure × Outcome D) : PubM D (Outcome D) := do
  if r.1.isSome = true ∧ r.2.remainingAtFrontier = false then
    transact (fun db => { db with closures := db.closures.tail }) id
  return r.2

omit [DecidableEq D] in
theorem finished_congr {o : Options} {before before' db : Db D} (h : Finished o before db)
    (hcohort : before'.cohort = before.cohort) (hsources : before'.sources = before.sources) :
    Finished o before' db := by
  refine ⟨h.idle, ?_⟩
  rw [hcohort, hsources]
  exact h.settled

theorem recoverAndPublish_eq (c : Call D) :
    recoverAndPublish codec c = attempt codec c >>= consume := by
  simp only [recoverAndPublish, attempt, consume, bind_assoc, pure_bind]

/-- The frontier at which a call works is that of its newest permit. -/
def optionsAt (c : Call D) (closure : Option ReadyClosure) : Options :=
  ⟨c.threshold, c.clock, closure.map (·.nextSequence),
    closure.any fun closure => closure.reason = "drained"⟩

theorem runs_attempt {c : Call D} : Runs (program codec) (attempt codec c) w fun r t =>
    r.1 = w.db.closures.getLast? ∧
      (r.2.remainingAtFrontier = false → Finished (optionsAt c r.1) w.db t.db) := by
  unfold attempt
  refine Runs.bind runs_ensureRecovery ?_
  rintro _ t - ⟨l, ht⟩
  refine Runs.bind (runs_fromExcept (Q := fun _ u => u = t) fun _ _ => rfl) ?_
  rintro pairs u - rfl
  apply runs_readDb_bind
  refine Runs.bind (runs_fromExcept (Q := fun _ v => v = u) fun _ _ => rfl) ?_
  rintro _ v - rfl
  refine Runs.bind runs_coalesceClosures ?_
  rintro closure x - ⟨hnewest, hx⟩
  refine Runs.bind (runs_blockedOnRefusal runs_finalizePublicAudioV2) ?_
  intro outcome y _ hy
  refine runs_pure ⟨?_, fun hempty => finished_congr (hy hempty) ?_ ?_⟩
  · rw [hnewest, ht]
  · rw [hx, ht]
  · rw [hx, ht]

theorem runs_consume {r : Option ReadyClosure × Outcome D} :
    Runs (process codec) (consume r) w fun _ _ => True := by
  unfold consume
  refine runs_ite (fun _ => ?_) fun _ => runs_pure trivial
  refine Runs.bind (Q := fun _ _ => True) ?_ fun _ _ _ _ => runs_pure trivial
  unfold transact
  apply runs_get_bind
  cases w.steps with
  | none => exact runs_set_step .closures trivial
  | some n =>
    cases n with
    | zero => exact runs_throw
    | succ n => exact runs_set_step .closures trivial

theorem runs_recoverAndPublish {c : Call D} :
    Runs (process codec) (recoverAndPublish codec c) w fun _ _ => True := by
  rw [recoverAndPublish_eq]
  exact Runs.bind (runs_program runs_attempt) fun _ _ _ _ => runs_consume

end Publication

section RawRetirement

omit [DecidableEq D] in
theorem retirementCandidate_ok {db : Db D} {r : ℕ × SourceRow D}
    (h : retirementCandidate db = some r) :
    db.sources.get r.1 = some r.2 ∧ canRetire db r := by
  unfold retirementCandidate at h
  have hmem := List.mem_of_head? h
  rw [List.mem_insertionSort, List.mem_filter, decide_eq_true_eq] at hmem
  exact ⟨Table.get_eq_some.mpr hmem.1, hmem.2⟩

theorem runs_retireOneCoveredTypedSource {pageLimit : ℕ} :
    Runs (program codec) (retireOneCoveredTypedSource pageLimit) w fun _ _ => True := by
  unfold retireOneCoveredTypedSource
  refine Runs.bind (runs_refuseIf (P := fun _ t => t = w) fun _ => rfl) ?_
  rintro _ t - rfl
  apply runs_readDb_bind
  cases hcandidate : retirementCandidate t.db with
  | none => exact runs_pure trivial
  | some r =>
    obtain ⟨id, row⟩ := r
    obtain ⟨hstored, hretiring, hfree, cursor, hcursor, hcase⟩ := retirementCandidate_ok hcandidate
    obtain hcursor : row.source.retirementCursor = some cursor := hcursor
    simp only
    generalize hstart : row.source.retirementCursor.getD 0 = start
    obtain rfl : cursor = start := by simpa [hcursor] using hstart
    refine runs_ite (fun _ => ?_) fun h => ?_
    · refine Runs.bind (Q := fun _ _ => False) (runs_failStop fun _ hreached => absurd hreached ?_)
        fun _ _ _ hnever => hnever.elim
      decide
    have hcovered := not_not.mp (not_or.mp h).1
    refine Runs.bind (runs_refuseIf (P := fun _ v => v = t) fun _ => rfl) ?_
    rintro _ v - rfl
    refine runs_ite (fun _ => ?_) fun _ => ?_
    · refine Runs.bind (runs_refuseIf (P := fun _ x => x = v ∧ cursor = row.source.committedCount)
        fun h => ⟨rfl, not_not.mp h⟩) ?_
      rintro _ x - ⟨rfl, hdone⟩
      refine runs_ite (fun _ => runs_pure trivial) fun _ => ?_
      refine Runs.bind (runs_transact (P := fun _ _ => True) (fun _ => ?_) fun _ _ _ => trivial)
        fun _ _ _ _ => runs_pure trivial
      exact .finish hstored hretiring hfree (hdone ▸ hcursor)
    · refine Runs.bind (runs_refuseIf (P := fun _ x => x = v) fun _ => rfl) ?_
      rintro _ x - rfl
      refine Runs.bind (runs_refuseIf (P := fun _ y => y = x ∧ _) fun h => ⟨rfl, not_not.mp h⟩) ?_
      rintro _ y - ⟨rfl, hstop⟩
      refine Runs.bind (runs_transact (P := fun _ _ => True) (fun _ => ?_) fun _ _ _ => trivial)
        fun _ _ _ _ => runs_pure trivial
      exact .retirePage hstored hretiring hfree hcursor hcovered ⟨by omega, by omega⟩

end RawRetirement

section Actions

omit [DecidableEq D] in
theorem afterCall_point (r : Except Failure α × World D) :
    (afterCall r).db = r.2.db ∧ (afterCall r).log = r.2.log := by
  obtain ⟨result, t⟩ := r
  cases result with
  | ok a => exact ⟨rfl, rfl⟩
  | error e => cases e <;> exact ⟨rfl, rfl⟩

omit [DecidableEq D] in
/-- Steps of the ledger are steps of the database around it. -/
theorem ledger_steps {R : Db D × Log D → Db D × Log D → Prop} {Step : Ledger D → Ledger D → Prop}
    {l l' : Ledger D} {db : Db D} {log : Log D}
    (hstep : ∀ a b, Step a b → R ({ db with ledger := a }, log) ({ db with ledger := b }, log))
    (h : ReflTransGen Step l l') :
    ReflTransGen R ({ db with ledger := l }, log) ({ db with ledger := l' }, log) := by
  induction h with
  | refl => exact .refl
  | tail _ hlast ih => exact ih.tail (hstep _ _ hlast)

theorem callStep_ledger {p : AckRetirement.Process D} {c : AckRetirement.Call D} :
    ReflTransGen Acknowledges p.ledger (AckRetirement.callStep p c).ledger := by
  have hruns : Runs (ledgerSteps Acknowledges) (AckRetirement.retireAcknowledgedReady c) (p.world c)
      fun _ _ => True := runs_retireAcknowledgedReady
  have hreaches := hruns.reaches trivial
  unfold AckRetirement.callStep
  cases hexec : exec (AckRetirement.retireAcknowledgedReady c) (p.world c) with
  | mk result t =>
    rw [hexec] at hreaches
    cases result with
    | ok ids => exact hreaches
    | error e => cases e <;> exact hreaches

/-- Calls of publication and of raw retirement take their own steps only. -/
theorem step_calls {p : Process D} {a : Action D} (h : Consistent codec (p.db, p.log))
    (hcall : (∃ c, a = .publish c) ∨ ∃ pageLimit steps, a = .retireRaw pageLimit steps) :
    ReflTransGen (CallStep codec) (p.db, p.log)
      ((PublicationMachine.step codec p a).db, (PublicationMachine.step codec p a).log) := by
  rcases hcall with ⟨c, rfl⟩ | ⟨pageLimit, steps, rfl⟩
  · have hpoint := afterCall_point (exec (recoverAndPublish codec c) (p.world c))
    simp only [PublicationMachine.step, hpoint]
    have hruns : Runs (process codec) (recoverAndPublish codec c) (p.world c) fun _ _ => True :=
      runs_recoverAndPublish
    exact hruns.reaches h
  · have hpoint := afterCall_point (exec (retireOneCoveredTypedSource pageLimit)
      ⟨p.db, p.log, [], [], false, p.retiredRecoveryDone, steps⟩)
    simp only [PublicationMachine.step, hpoint]
    have hruns : Runs (process codec) (retireOneCoveredTypedSource pageLimit)
        ⟨p.db, p.log, [], [], false, p.retiredRecoveryDone, steps⟩ fun _ _ => True :=
      runs_program runs_retireOneCoveredTypedSource
    exact hruns.reaches h

/-- Whatever an action does, and wherever it stops, it takes durable steps only: those of its call,
or those of a ledger that is acknowledged, or one capture. -/
theorem step_reaches {R : Db D × Log D → Db D × Log D → Prop} {p : Process D} {a : Action D}
    (h : Consistent codec (p.db, p.log)) (hcall : ∀ s s', CallStep codec s s' → R s s')
    (hack : ∀ c, a = .acknowledge c → ∀ l l', Acknowledges l l' →
      R ({ p.db with ledger := l }, p.log) ({ p.db with ledger := l' }, p.log))
    (hcapture : ∀ id row, a = .capture id row → id ∉ p.log.captured → CapturedRow codec row →
      R (p.db, p.log) ({ p.db with sources := p.db.sources.put id row },
        { p.log with captured := id :: p.log.captured })) :
    ReflTransGen R (p.db, p.log)
      ((PublicationMachine.step codec p a).db, (PublicationMachine.step codec p a).log) := by
  cases a with
  | publish c => exact ReflTransGen.mono hcall _ _ (step_calls h (.inl ⟨c, rfl⟩))
  | acknowledge c =>
    exact ledger_steps (hack c rfl)
      (callStep_ledger (p := ⟨p.db.ledger, p.retiredRecoveryDone⟩) (c := c))
  | retireRaw pageLimit steps =>
    exact ReflTransGen.mono hcall _ _ (step_calls h (.inr ⟨pageLimit, steps, rfl⟩))
  | capture id row =>
    unfold PublicationMachine.step
    simp only
    split
    · exact .refl
    · rename_i hrow
      rw [not_or, not_not] at hrow
      exact .single (hcapture id row rfl hrow.1 hrow.2)
  | closeVisit closure => exact .single (hcall _ _ .closures)

/-- What one change keeps, any number of them keep. -/
theorem changes_consistent {s s' : Db D × Log D} (h : Consistent codec s)
    (hchanges : ReflTransGen (Change codec) s s') : Consistent codec s' := by
  induction hchanges with
  | refl => exact h
  | tail _ hchange ih => exact change_consistent ih hchange

theorem step_changes {p : Process D} (h : Consistent codec (p.db, p.log)) (a : Action D) :
    ReflTransGen (Change codec) (p.db, p.log)
      ((PublicationMachine.step codec p a).db, (PublicationMachine.step codec p a).log) := by
  refine step_reaches h (fun _ _ hstep => hstep.change) ?_ fun _ _ _ => .capture
  intro c _ l l' hack
  cases hack with
  | clears hclears => exact .program (.clear hclears)
  | retires hretires => exact .retire hretires

end Actions

end ProcessRuns
