import OmiCollector.StagedGroups

/-! What becomes of a source during publication.

A member of a cohort stays a member until its source is covered, a covered source stays covered or
goes away, and a source that can still be admitted has not been touched. A stored wait that says
nothing is left is about settled sources only. -/
namespace SettledSources

open AudioMachine (AudioPhase CohortPhase)
open CaptureModel KeyedTable PublicationLedger TypedSlices PublicationStage PublicationStore
open PublicationMachine PublicationEffects LedgerOrder CohortMembers CohortRounds StagedGroups

variable {D : Type}

/-- The source is covered, or its rows are gone with it. -/
def Settled (db : Db D) (id : ℕ) : Prop :=
  ∀ row, db.sources.get id = some row → IsCovered row.source

/-- A source that `typedSourceAdmissions` would still find. -/
def Open (id : ℕ) (s : CaptureSource D) : Prop := ∃ a, typedAdmission id s = .ok (some a)

theorem not_open_of_covered {id : ℕ} {s : CaptureSource D} (h : IsCovered s) : ¬ Open id s := by
  intro hopen
  obtain ⟨a, ha⟩ := hopen
  rcases h with h | h
  · simp [typedAdmission, h] at ha
  · simp [typedAdmission, h] at ha

theorem not_open_of_conflict {id : ℕ} {s : CaptureSource D} : ¬ Open id (conflictDisposition s) := by
  intro hopen
  obtain ⟨a, ha⟩ := hopen
  simp [typedAdmission, conflictDisposition, blockedTypedCertification, custodyHoldReasons, bind,
    Except.bind, pure, Except.pure] at ha

theorem CoveredRow.covered {a : Admission D} {row : SourceRow D} {source : CaptureSource D}
    (h : CoveredRow a row source) : IsCovered source := by
  rcases h.phase with hphase | hphase
  · exact .inr hphase.1
  · exact .inl hphase.1

section Advance

variable [DecidableEq D] {db db' : Db D} {cohort : Cohort D} {progress : List (Admission D × ℕ)}
  {coverage : List (ℕ × CaptureSource D)}

/-- What coverage does to one source: it covers a member, or it leaves the row alone. -/
theorem advance_source (h : Advance db cohort progress coverage)
    (hdistinct : (cohort.members.map (·.sourceId)).Nodup)
    (hsources : db'.sources = applyTypedCoverage db.sources coverage) (id : ℕ) :
    Settled db' id ∨ db'.sources.get id = db.sources.get id := by
  by_cases hid : id ∈ cohort.members.map (·.sourceId)
  · rw [← h.memberIds] at hid
    obtain ⟨p, hp, rfl⟩ := List.mem_map.mp hid
    obtain ⟨row, hrow, -, hcase⟩ := h.row hdistinct hp
    rcases hcase with ⟨-, source, -, hcovered, hget⟩ | ⟨-, hget⟩
    · left
      intro row' hrow'
      rw [hsources, hget] at hrow'
      obtain rfl := Option.some.inj hrow'
      exact CoveredRow.covered hcovered
    · right
      rw [hsources, hget, hrow]
  · right
    rw [hsources]
    exact h.other hid

/-- When a step completes all members, it has covered all their sources. -/
theorem advance_complete {log : Log D} (h : Advance db cohort progress coverage)
    (hinv : CohortInv db log) (hsources : db'.sources = applyTypedCoverage db.sources coverage)
    (hall : allComplete progress = true) {id : ℕ} (hid : id ∈ cohort.members.map (·.sourceId)) :
    Settled db' id := by
  have hdistinct := hinv.distinct cohort h.held.stored
  rw [← h.memberIds] at hid
  obtain ⟨p, hp, rfl⟩ := List.mem_map.mp hid
  unfold allComplete at hall
  have hdone : p.2 = p.1.admittedCount := by simpa using List.all_eq_true.mp hall p hp
  obtain ⟨row, hrow, -, hcase⟩ := h.row hdistinct hp
  intro row' hrow'
  rcases hcase with ⟨-, source, -, hcovered, hget⟩ | ⟨hnot, hget⟩
  · rw [hsources, hget] at hrow'
    obtain rfl := Option.some.inj hrow'
    exact CoveredRow.covered hcovered
  · -- A member that was complete before has a covered source already.
    rw [hsources, hget] at hrow'
    obtain rfl := Option.some.inj hrow'
    have hmem : memberOf p.1 ∈ cohort.members :=
      h.held.members ▸ List.mem_map_of_mem (List.mem_map_of_mem hp)
    obtain ⟨-, -, -, row', hrow'', -, hcovered⟩ := hinv.members cohort h.held.stored _ hmem
    obtain rfl : row = row' := Option.some.inj (hrow.symm.trans hrow'')
    apply hcovered
    by_contra hne
    exact hnot ⟨hne, hdone⟩

end Advance

variable [DecidableEq D] {codec : Codec D} {s s' : Db D × Log D}

theorem effect_captured (heffect : Effect codec s s') : s'.2.captured = s.2.captured := by
  cases heffect with
  | custody => exact captured_updateCohort _ _
  | commit => exact captured_updateCohort _ _
  | _ => rfl

/-- What one step does to one source: nothing, or it settles it, or it works on the rows and the
disposition of a source that is no candidate afterwards. -/
theorem effect_source (h : Sound codec s) (heffect : Effect codec s s') (id : ℕ) :
    (Settled s'.1 id ∨ s'.1.sources.get id = s.1.sources.get id) ∨
      (∃ row, s.1.sources.get id = some row ∧ Open id row.source ∧
        ∀ row', s'.1.sources.get id = some row' → ¬ Open id row'.source) := by
  cases heffect with
  | @custody db log cohort admissions slices cursors coverage held accepted _ hcursors hcoverage =>
    have hadvance := advance_custody h.ledger
      (fun m hm => (h.cohort.members cohort held.stored m hm).bound) held hcursors hcoverage
    exact .inl (advance_source hadvance (h.cohort.distinct cohort held.stored) rfl id)
  | @commit db log cohort admissions stage g proof coverage held staging staged loaded _ _ _
      hcoverage =>
    have hadvance := advance_commit h.ledger
      (fun m hm => (h.cohort.members cohort held.stored m hm).bound) held staged loaded hcoverage
    exact .inl (advance_source hadvance (h.cohort.distinct cohort held.stored) rfl id)
  | @cover db log a proposal idle admissible proved hproposal =>
    left
    obtain ⟨hid, row, hrow, -, hcovered⟩ := typedCoverageProposal_ok hproposal
    by_cases heq : id = a.sourceId
    · left
      intro row' hrow'
      simp only [applyTypedCoverage, List.foldl_cons, List.foldl_nil] at hrow'
      rw [Table.get_adjust, hid, if_pos heq, heq, hrow] at hrow'
      obtain rfl := Option.some.inj hrow'
      exact CoveredRow.covered hcovered
    · right
      simp only [applyTypedCoverage, List.foldl_cons, List.foldl_nil]
      rw [Table.get_adjust, hid, if_neg heq]
  | @block db log a idle admissible =>
    by_cases heq : id = a.sourceId
    · right
      obtain ⟨row, hrow, hadmission⟩ := admissible
      refine ⟨row, heq ▸ hrow, ⟨a, heq ▸ hadmission⟩, ?_⟩
      intro row' hrow'
      rw [Table.get_adjust, if_pos heq, heq, hrow] at hrow'
      obtain rfl := Option.some.inj hrow'
      exact not_open_of_conflict
    · left
      right
      simp only [Table.get_adjust, if_neg heq]
  | @retirePage db log id' cursor stop row stored retiring free cursor_eq covered bound =>
    left
    by_cases heq : id = id'
    · left
      intro row' hrow'
      simp only [PublicationMachine.retirePage] at hrow'
      rw [Table.get_adjust, if_pos heq, heq, stored] at hrow'
      obtain rfl := Option.some.inj hrow'
      exact .inr retiring
    · right
      simp only [PublicationMachine.retirePage, Table.get_adjust, if_neg heq]
  | @finish db log id' row stored retiring free cursor_eq =>
    left
    by_cases heq : id = id'
    · left
      intro row' hrow'
      simp [finishRetirement, heq] at hrow'
    · right
      simp only [finishRetirement, Table.get_delete, if_neg heq]
  | reserve => exact .inl (.inr rfl)
  | materialize => exact .inl (.inr rfl)
  | latch => exact .inl (.inr rfl)
  | accept => exact .inl (.inr rfl)
  | summaries => exact .inl (.inr rfl)
  | wait => exact .inl (.inr rfl)
  | coalesce => exact .inl (.inr rfl)
  | clear => exact .inl (.inr rfl)
  | failStop => exact .inl (.inr rfl)

/-- A settled source stays settled. -/
theorem effect_settled (h : Sound codec s) (heffect : Effect codec s s') {id : ℕ}
    (hid : Settled s.1 id) : Settled s'.1 id := by
  rcases effect_source h heffect id with (hsettled | hsame) | ⟨row, hrow, hopen, -⟩
  · exact hsettled
  · unfold Settled
    rw [hsame]
    exact hid
  · exact absurd hopen (not_open_of_covered (hid row hrow))

/-- A source that can be admitted after a step was the same before it. -/
theorem effect_open (h : Sound codec s) (heffect : Effect codec s s') {id : ℕ} {row : SourceRow D}
    (hrow : s'.1.sources.get id = some row) (hopen : Open id row.source) :
    s.1.sources.get id = some row := by
  rcases effect_source h heffect id with (hsettled | hsame) | ⟨-, -, -, hnot⟩
  · exact absurd hopen (not_open_of_covered (hsettled row hrow))
  · rw [← hsame, hrow]
  · exact absurd hopen (hnot row hrow)

/-- A member stays one until its source is settled. -/
theorem effect_member (h : Sound codec s) (heffect : Effect codec s s') {id : ℕ}
    (hid : id ∈ cohortSources s.1) : id ∈ cohortSources s'.1 ∨ Settled s'.1 id := by
  have hadvanced : ∀ {db db' : Db D} {log : Log D} {cohort : Cohort D}
      {progress : List (Admission D × ℕ)} {coverage : List (ℕ × CaptureSource D)},
      CohortInv db log → Advance db cohort progress coverage →
      db'.sources = applyTypedCoverage db.sources coverage →
      (allComplete progress = false → ∃ next, db'.cohort = some next ∧
        next.members = withCursors cohort.members (progress.map Prod.snd)) →
      id ∈ cohortSources db → id ∈ cohortSources db' ∨ Settled db' id := by
    intro db db' log cohort progress coverage hinv hadvance hsources hcohort hid
    rw [mem_cohortSources hadvance.held.stored] at hid
    cases hall : allComplete progress with
    | true => exact .inr (advance_complete hadvance hinv hsources hall hid)
    | false =>
      left
      obtain ⟨next, hnext, hmembers⟩ := hcohort hall
      rw [mem_cohortSources hnext, hmembers, hadvance.members, List.map_map]
      rw [← hadvance.memberIds] at hid
      exact hid
  cases heffect with
  | @custody db log cohort admissions slices cursors coverage held accepted _ hcursors hcoverage =>
    have hadvance := advance_custody h.ledger
      (fun m hm => (h.cohort.members cohort held.stored m hm).bound) held hcursors hcoverage
    refine hadvanced h.cohort hadvance rfl ?_ hid
    intro hall
    exact ⟨_, by simp only [custodyCommit, hall]; rfl, rfl⟩
  | @commit db log cohort admissions stage g proof coverage held staging staged loaded _ _ _
      hcoverage =>
    have hadvance := advance_commit h.ledger
      (fun m hm => (h.cohort.members cohort held.stored m hm).bound) held staged loaded hcoverage
    refine hadvanced h.cohort hadvance rfl ?_ hid
    intro hall
    exact ⟨_, by simp only [stageCommit, hall]; rfl, rfl⟩
  | @reserve db log cohort admissions g rest later artifactId proof held =>
    left
    have hcohort : (reservation cohort (stageOf codec g artifactId db.ledger.nextPublicOrder
        cohort.cursor) proof db).cohort = some { cohort with lifecycle := .staging } := rfl
    rw [mem_cohortSources held.stored] at hid
    exact (mem_cohortSources hcohort).mpr hid
  | @accept db log o admissions slices idle =>
    simp [cohortSources, idle] at hid
  | materialize => exact .inl hid
  | latch => exact .inl hid
  | cover => exact .inl hid
  | block => exact .inl hid
  | summaries => exact .inl hid
  | wait => exact .inl hid
  | coalesce => exact .inl hid
  | clear => exact .inl hid
  | failStop => exact .inl hid
  | retirePage => exact .inl hid
  | finish => exact .inl hid

/-- A stored wait that leaves nothing to do is about settled sources. -/
def WaitInv (db : Db D) (log : Log D) : Prop :=
  ∀ wait, db.normalizedWait = some wait → wait.remaining = false →
    ∀ f ∈ wait.key.admissions, f.1.sourceId ∈ log.captured ∧ Settled db f.1.sourceId

/-- Everything that holds of the database between any two steps, with what it waits for. -/
structure Consistent (codec : Codec D) (s : Db D × Log D) : Prop extends Sound codec s where
  waiting : WaitInv s.1 s.2

theorem effect_consistent (h : Consistent codec s) (heffect : Effect codec s s') :
    Consistent codec s' := by
  refine ⟨effect_sound h.toSound heffect, ?_⟩
  have hkept : s'.1.normalizedWait = s.1.normalizedWait → WaitInv s'.1 s'.2 := by
    intro hsame wait hwait hnone f hf
    rw [hsame] at hwait
    obtain ⟨hcaptured, hsettled⟩ := h.waiting wait hwait hnone f hf
    rw [effect_captured heffect]
    exact ⟨hcaptured, effect_settled h.toSound heffect hsettled⟩
  cases heffect with
  | @wait db log wait done =>
    intro stored hstored hnone f hf
    obtain rfl : wait = stored := Option.some.inj hstored
    obtain ⟨row, hrow, hcovered⟩ := done hnone f hf
    refine ⟨h.cohort.captured _ row hrow, ?_⟩
    intro row' hrow'
    obtain rfl : row = row' := Option.some.inj (hrow.symm.trans hrow')
    exact hcovered
  | _ => exact hkept rfl

theorem change_consistent (h : Consistent codec s) (hchange : Change codec s s') :
    Consistent codec s' := by
  refine ⟨change_sound h.toSound hchange, ?_⟩
  cases hchange with
  | program effect => exact (effect_consistent h effect).waiting
  | closures => exact h.waiting
  | retire retires => exact h.waiting
  | @capture db log id row fresh valid =>
    intro wait hwait hnone f hf
    obtain ⟨hcaptured, hsettled⟩ := h.waiting wait hwait hnone f hf
    refine ⟨List.mem_cons_of_mem _ hcaptured, ?_⟩
    have hne : f.1.sourceId ≠ id := fun heq => fresh (heq ▸ hcaptured)
    unfold Settled
    simp only [Table.get_put, if_neg hne]
    exact hsettled

end SettledSources
