import OmiCollector.LedgerOrder

/-! The members of a stored cohort and their sources.

A member that is not complete has its source as admitted; a complete one has it covered. Cursors
move over published sequences only, and a cohort is stored as long as a member is incomplete. -/
namespace CohortMembers

open AudioMachine (AudioPhase CohortPhase)
open ByteCodec CaptureModel KeyedTable SpanCover SpanWalk PublicationLedger TypedSlices SlicePartition
open PublicationGroups PublicationStage PublicationStore PublicationMachine PublicationEffects
open LedgerOrder
open Checks (mapM_ok exists_mem_of_mapM)

variable {D : Type}

/-- How far a committed group moves a member. -/
theorem typedMemberProgress_spec {facts : BundleFacts D} {a : Admission D} {start stop : ℕ}
    (hruns : RunsWithin start stop (physicalRuns facts)) (hle : a.cursor ≤ a.admittedCount) :
    a.cursor ≤ typedMemberProgress facts a ∧ typedMemberProgress facts a ≤ a.admittedCount ∧
      (∀ x, a.sequenceStart + a.cursor ≤ x → x < a.sequenceStart + typedMemberProgress facts a →
        Covers (physicalRuns facts) x) ∧
      (typedMemberProgress facts a = a.admittedCount ∨
        ¬ Covers (physicalRuns facts) (a.sequenceStart + typedMemberProgress facts a)) := by
  have hsorted : SortedRuns ((physicalRuns facts).map fun run => (run, ())) := by
    constructor
    · rw [List.pairwise_map]
      exact hruns.ordered
    · intro r hr
      obtain ⟨run, hrun, rfl⟩ := List.mem_map.mp hr
      exact (hruns.inside run hrun).1
  have hcovers : ∀ x, CoveredBy ((physicalRuns facts).map fun run => (run, ())) x ↔
      Covers (physicalRuns facts) x := by
    intro x
    simp [CoveredBy, Covers]
  cases hadvance : advance (a.sequenceStart + a.admittedCount)
      (fun (_ : Unit) _ => (.ok () : Except Empty Unit))
      ((physicalRuns facts).map fun run => (run, ())) (a.sequenceStart + a.cursor) with
  | error e => cases e
  | ok reached =>
    obtain ⟨h1, h2, h3, h4⟩ := advance_spec hsorted (by omega) hadvance
    have hprogress : typedMemberProgress facts a = reached - a.sequenceStart := by
      unfold typedMemberProgress
      rw [hadvance]
    have hreached : a.sequenceStart + typedMemberProgress facts a = reached := by omega
    refine ⟨by omega, by omega, ?_, ?_⟩
    · intro x hx hx'
      obtain ⟨r, hr, hrx, -⟩ := h3 x hx (by omega)
      exact (hcovers x).mp ⟨r, hr, hrx⟩
    · rw [hreached, ← hcovers]
      rcases h4 with h4 | h4
      · exact .inl (by omega)
      · exact .inr h4

theorem get_applyTypedCoverage_of_notMem (sources : Table ℕ (SourceRow D))
    {coverage : List (ℕ × CaptureSource D)} {id : ℕ} (h : id ∉ coverage.map Prod.fst) :
    (applyTypedCoverage sources coverage).get id = sources.get id := by
  induction coverage generalizing sources with
  | nil => rfl
  | cons item coverage ih =>
    simp only [List.map_cons, List.mem_cons, not_or] at h
    have hrest := ih (sources.adjust item.1 fun row => { row with source := item.2 }) h.2
    rw [Table.get_adjust, if_neg h.1] at hrest
    exact hrest

theorem get_applyTypedCoverage_of_mem (sources : Table ℕ (SourceRow D))
    {coverage : List (ℕ × CaptureSource D)} {id : ℕ} {source : CaptureSource D}
    (hnodup : (coverage.map Prod.fst).Nodup) (h : (id, source) ∈ coverage) :
    (applyTypedCoverage sources coverage).get id =
      (sources.get id).map fun row => { row with source := source } := by
  induction coverage generalizing sources with
  | nil => simp at h
  | cons item coverage ih =>
    rw [List.map_cons, List.nodup_cons] at hnodup
    rcases List.mem_cons.mp h with rfl | h
    · have hrest := get_applyTypedCoverage_of_notMem (sources.adjust id fun row =>
        { row with source := source }) hnodup.1
      rw [Table.get_adjust, if_pos rfl] at hrest
      exact hrest
    · have hne : id ≠ item.1 := by
        intro heq
        exact hnodup.1 (heq ▸ List.mem_map_of_mem h)
      have hrest := ih (sources.adjust item.1 fun row => { row with source := item.2 })
        hnodup.2 h
      rw [Table.get_adjust, if_neg hne] at hrest
      exact hrest

/-- Coverage leaves the rows of every source alone. -/
theorem sourceRaw_applyTypedCoverage (sources : Table ℕ (SourceRow D))
    (coverage : List (ℕ × CaptureSource D)) (id ordinal : ℕ) :
    sourceRaw (applyTypedCoverage sources coverage) id ordinal = sourceRaw sources id ordinal := by
  induction coverage generalizing sources with
  | nil => rfl
  | cons item coverage ih =>
    have hrest := ih (sources.adjust item.1 fun row => { row with source := item.2 })
    have hadjust : sourceRaw (sources.adjust item.1 fun row => { row with source := item.2 })
        id ordinal = sourceRaw sources id ordinal := by
      unfold sourceRaw
      rw [Table.get_adjust]
      by_cases hid : id = item.1
      · rw [if_pos hid]
        cases sources.get id <;> rfl
      · rw [if_neg hid]
    exact hrest.trans hadjust

/-- An admission is the source as it stands, from its first row on. -/
structure Admitted (id : ℕ) (s : CaptureSource D) (a : Admission D) : Prop where
  sourceId : a.sourceId = id
  snapshot : a.snapshot = s
  lifecycle : a.admittedLifecycle = s.lifecycle
  cursor : a.cursor = 0
  positive : 0 < a.admittedCount
  origin : (s.lifecycle = .sealedWaiting ∧ a.admittedCount = s.committedCount ∧
      a.admittedSha256 = s.committedSha256) ∨
    (s.lifecycle = .blocked ∧ a.admittedCount ≤ s.committedCount)

theorem blockedTypedCertification_ok {s : CaptureSource D} {count : ℕ} {digest : D}
    (h : blockedTypedCertification s = .ok (some (count, digest))) : count ≤ s.committedCount := by
  unfold blockedTypedCertification at h
  split at h
  · cases h
  · split at h
    · cases h
    · split at h
      · cases h
      · cases h
      · cases h
      · split at h
        · split at h
          · cases h
          · split at h
            · split at h
              · cases h
              · split at h
                · cases h
                · rename_i hle
                  simp only [Except.ok.injEq, Option.some.injEq, Prod.mk.injEq] at h
                  omega
            · cases h
        · cases h

theorem typedAdmissionOf_ok {id count : ℕ} {s : CaptureSource D} {digest : D} {a : Admission D}
    (h : typedAdmissionOf id s count digest = .ok (some a)) :
    0 < count ∧ a = ⟨id, s, s.lifecycle, count, digest, 0⟩ := by
  unfold typedAdmissionOf at h
  split at h
  · cases h
  · rename_i hvalid
    simp only [Except.ok.injEq, Option.some.injEq] at h
    exact ⟨by omega, h.symm⟩

theorem typedAdmission_ok {id : ℕ} {s : CaptureSource D} {a : Admission D}
    (h : typedAdmission id s = .ok (some a)) : Admitted id s a := by
  unfold typedAdmission at h
  split at h
  · rename_i hphase
    obtain ⟨hpos, rfl⟩ := typedAdmissionOf_ok h
    exact ⟨rfl, rfl, rfl, rfl, hpos, .inl ⟨hphase, rfl, rfl⟩⟩
  · rename_i hphase
    cases hcert : blockedTypedCertification s with
    | error e =>
      rw [hcert] at h
      cases h
    | ok certified =>
      rw [hcert] at h
      cases certified with
      | none => cases h
      | some pair =>
        obtain ⟨hpos, rfl⟩ := typedAdmissionOf_ok h
        exact ⟨rfl, rfl, rfl, rfl, hpos, .inr ⟨hphase, blockedTypedCertification_ok hcert⟩⟩
  · cases h

/-- The source is proved by published audio. -/
def IsCovered (s : CaptureSource D) : Prop := s.lifecycle = .covered ∨ s.lifecycle = .retiring

/-- The lineage under which an artifact would hold a whole admission. -/
def lineageOf (a : Admission D) : SourceLineage D :=
  (a.sequenceStart, a.sequenceStart + a.admittedCount, a.admittedSha256)

section Lineage

variable [DecidableEq D]

/-- No entry of the ledger, of either format, holds this lineage. -/
structure Unlisted (l : Ledger D) (t : SourceLineage D) : Prop where
  legacy : ∀ r ∈ l.legacy, t ∉ r.2.sources
  entries : ∀ id e, Stored l id e → t ∉ e.sources

/-- A member of a stored cohort and its source. -/
structure MemberInv (db : Db D) (m : Member D) : Prop where
  bound : m.cursor ≤ m.admittedCount
  positive : 0 < m.admittedCount
  admitted : m.admittedLifecycle = .sealedWaiting ∨ m.admittedLifecycle = .blocked
  row : ∃ row, db.sources.get m.sourceId = some row ∧
    (m.cursor < m.admittedCount → row.source.lifecycle = m.admittedLifecycle ∧
      Unlisted db.ledger (row.source.sequenceStart, row.source.sequenceStart + m.admittedCount,
        m.admittedSha256)) ∧
    (m.cursor = m.admittedCount → IsCovered row.source)

structure CohortInv (db : Db D) (log : Log D) : Prop where
  captured : ∀ id row, db.sources.get id = some row → id ∈ log.captured
  distinct : ∀ cohort, db.cohort = some cohort → (cohort.members.map (·.sourceId)).Nodup
  members : ∀ cohort, db.cohort = some cohort → ∀ m ∈ cohort.members, MemberInv db m
  incomplete : ∀ cohort, db.cohort = some cohort → ∃ m ∈ cohort.members, m.cursor < m.admittedCount

omit [DecidableEq D] in
theorem mem_cohortSources {db : Db D} {cohort : Cohort D} (h : db.cohort = some cohort) {id : ℕ} :
    id ∈ cohortSources db ↔ id ∈ cohort.members.map (·.sourceId) := by
  unfold cohortSources
  rw [h]
  simp

theorem Unlisted.congr {l l' : Ledger D} {t : SourceLineage D} (h : Unlisted l t)
    (hlegacy : l'.legacy = l.legacy) (hentries : l'.entries = l.entries) : Unlisted l' t := by
  refine ⟨hlegacy ▸ h.legacy, ?_⟩
  intro id e he
  apply h.entries id e
  unfold Stored at he ⊢
  rwa [← hentries]

/-- Whatever leaves the sources of the members alone and lists nothing keeps them. -/
theorem CohortInv.congr {db db' : Db D} {log log' : Log D} (h : CohortInv db log)
    (hcohort : db'.cohort = db.cohort)
    (hlisted : ∀ t, Unlisted db.ledger t → Unlisted db'.ledger t)
    (hrows : ∀ id ∈ cohortSources db, db'.sources.get id = db.sources.get id)
    (hcaptured : ∀ id row, db'.sources.get id = some row → id ∈ log'.captured) :
    CohortInv db' log' := by
  refine ⟨hcaptured, ?_, ?_, ?_⟩
  · rw [hcohort]
    exact h.distinct
  · intro cohort hc m hm
    rw [hcohort] at hc
    obtain ⟨h1, h2, h3, row, hrow, hopen, hcovered⟩ := h.members cohort hc m hm
    refine ⟨h1, h2, h3, row, ?_, ?_, hcovered⟩
    · rw [hrows _ ((mem_cohortSources hc).mpr (List.mem_map_of_mem hm)), hrow]
    · exact fun hlt => ⟨(hopen hlt).1, hlisted _ (hopen hlt).2⟩
  · rw [hcohort]
    exact h.incomplete

/-- The sources of the members were captured. -/
theorem captured_cohort {db : Db D} {log : Log D} (h : CohortInv db log) {id : ℕ}
    (hid : id ∈ cohortSources db) : id ∈ log.captured := by
  cases hc : db.cohort with
  | none => simp [cohortSources, hc] at hid
  | some cohort =>
    rw [mem_cohortSources hc] at hid
    obtain ⟨m, hm, rfl⟩ := List.mem_map.mp hid
    obtain ⟨-, -, -, row, hrow, -⟩ := h.members cohort hc m hm
    exact h.captured _ row hrow

theorem captured_adjust {db : Db D} {log : Log D} (h : CohortInv db log) {id : ℕ}
    {f : SourceRow D → SourceRow D} :
    ∀ k row, (db.sources.adjust id f).get k = some row → k ∈ log.captured := by
  intro k row hk
  rw [Table.get_adjust] at hk
  by_cases hid : k = id
  · rw [if_pos hid] at hk
    obtain ⟨old, hold, -⟩ := Option.map_eq_some_iff.mp hk
    exact h.captured k old hold
  · rw [if_neg hid] at hk
    exact h.captured k row hk

end Lineage

theorem captured_updateCohort (log : Log D) (f : CohortLog D → CohortLog D) :
    (log.updateCohort f).captured = log.captured := by
  unfold Log.updateCohort
  cases log.cohorts <;> rfl

variable [DecidableEq D]

theorem typedReadyRows_ok {codec : Codec D} {sources : Table ℕ (SourceRow D)} {a : Admission D}
    {key : ReadyKey D} {span : Span} (hstart : a.sequenceStart ≤ span.start)
    (hkey : key.runStart ≤ span.start) (h : typedReadyRows codec sources a key span = .ok ()) :
    ∀ x, span.Contains x → ∃ raw,
      sourceRaw sources a.sourceId (x - a.sequenceStart) = some raw ∧ ReadyMatch codec key x raw := by
  unfold typedReadyRows at h
  cases hrec : typedRecords sources a (span.start - a.sequenceStart) (span.stop - span.start) with
  | error e =>
    rw [hrec] at h
    cases h
  | ok records =>
    rw [hrec] at h
    cases hhash : readyHashes codec key.proof (key.readyOffset + (span.start - key.runStart))
        records with
    | error e =>
      simp only [bind, Except.bind, hhash] at h
      cases h
    | ok u =>
      obtain ⟨-, hlen, -, hget⟩ := typedRecords_ok hrec
      intro x hx
      have h1 := hx.1
      have h2 := hx.2
      have hrow := hget (x - a.sequenceStart) (by omega) (by omega)
      have hindex : x - a.sequenceStart - (span.start - a.sequenceStart) = x - span.start := by omega
      rw [hindex] at hrow
      have hlt : x - span.start < records.length := by omega
      rw [List.getElem?_eq_getElem hlt] at hrow
      refine ⟨_, hrow.symm, ?_⟩
      have hmatch := readyHashes_ok.mp hhash (x - span.start) _ (List.getElem?_eq_getElem hlt)
      have hoffset : key.readyOffset + (span.start - key.runStart) + (x - span.start) =
          key.readyOffset + (x - key.runStart) := by omega
      rwa [hoffset] at hmatch

/-- What a custody traversal proves about the sequences it passes. -/
theorem typedReadyTraversal_spec {codec : Codec D} {sources : Table ℕ (SourceRow D)}
    {a : Admission D} {c : Custody D} {start reached : ℕ} (hsorted : SortedRuns (readyRuns c))
    (hlow : a.sequenceStart ≤ start) (hhigh : start ≤ a.sequenceStart + a.admittedCount)
    (h : typedReadyTraversal codec sources a c start = .ok reached) :
    start ≤ reached ∧ reached ≤ a.sequenceStart + a.admittedCount ∧
      (∀ x, start ≤ x → x < reached → ∃ r ∈ readyRuns c, r.1.Contains x ∧ ∃ raw,
        sourceRaw sources a.sourceId (x - a.sequenceStart) = some raw ∧
          ReadyMatch codec r.2 x raw) ∧
      (reached = a.sequenceStart + a.admittedCount ∨ ¬ CoveredBy (readyRuns c) reached) := by
  obtain ⟨h1, h2, h3, h4⟩ := advance_spec hsorted hhigh h
  refine ⟨h1, h2, ?_, h4⟩
  intro x hx hx'
  obtain ⟨r, hr, hrx, span, hcheck, hspan, hin, hbounds⟩ := h3 x hx hx'
  refine ⟨r, hr, hrx, typedReadyRows_ok (hlow.trans hbounds.1) ?_ hcheck x hspan⟩
  rw [readyRuns_runStart hr]
  exact hin.1

/-- How far published artifacts move a member. -/
theorem typedReadyPrefix_spec {codec : Codec D} {sources : Table ℕ (SourceRow D)} {c : Custody D}
    {a : Admission D} {n : ℕ} (hsorted : SortedRuns (readyRuns c)) (hle : a.cursor ≤ a.admittedCount)
    (h : typedReadyPrefix codec sources c a = .ok n) :
    a.cursor ≤ n ∧ n ≤ a.admittedCount ∧
      (n = a.admittedCount ∨ ¬ CoveredBy (readyRuns c) (a.sequenceStart + n)) ∧
      ((typedRetiredFullProof a c).isSome ∧ a.cursor < a.admittedCount ∨
        ∀ x, a.sequenceStart + a.cursor ≤ x → x < a.sequenceStart + n →
          ∃ r ∈ readyRuns c, r.1.Contains x ∧ ∃ raw,
            sourceRaw sources a.sourceId (x - a.sequenceStart) = some raw ∧
              ReadyMatch codec r.2 x raw) := by
  unfold typedReadyPrefix at h
  by_cases hdone : a.cursor = a.admittedCount
  · rw [if_pos hdone] at h
    obtain rfl := Except.ok.inj h
    exact ⟨le_rfl, hle, .inl hdone, .inr fun x h1 h2 => by omega⟩
  · rw [if_neg hdone] at h
    by_cases hretired : (typedRetiredFullProof a c).isSome = true
    · rw [if_pos hretired] at h
      obtain rfl := Except.ok.inj h
      exact ⟨hle, le_rfl, .inl rfl, .inl ⟨hretired, by omega⟩⟩
    · rw [if_neg hretired] at h
      cases hreject : rejectPartial a c with
      | error e =>
        rw [hreject] at h
        cases h
      | ok u =>
        rw [hreject] at h
        cases htraverse : typedReadyTraversal codec sources a c (a.sequenceStart + a.cursor) with
        | error e =>
          simp only [bind, Except.bind, htraverse] at h
          cases h
        | ok reached =>
          simp only [bind, Except.bind, htraverse] at h
          obtain rfl : reached - a.sequenceStart = n := Except.ok.inj h
          obtain ⟨h1, h2, h3, h4⟩ :=
            typedReadyTraversal_spec hsorted (by omega) (by omega) htraverse
          have hreached : a.sequenceStart + (reached - a.sequenceStart) = reached := by omega
          refine ⟨by omega, by omega, ?_, .inr ?_⟩
          · rw [hreached]
            rcases h4 with h4 | h4
            · exact .inl (by omega)
            · exact .inr h4
          · rw [hreached]
            exact h3

/-- The covered or retiring row of a source against its admitted one. -/
structure CoveredRow (a : Admission D) (row : SourceRow D) (source : CaptureSource D) : Prop where
  admitted : row.source.lifecycle = a.admittedLifecycle
  committed : row.source.committedCount = a.snapshot.committedCount
  changed : source = { row.source with
    lifecycle := source.lifecycle
    closureFrontier := some (a.sequenceStart + a.admittedCount)
    coverageDigest := some a.admittedSha256
    retirementCursor := source.retirementCursor }
  phase : (source.lifecycle = .retiring ∧ source.retirementCursor = some 0 ∧
      a.admittedCount = a.snapshot.committedCount) ∨
    (source.lifecycle = .covered ∧ source.retirementCursor = none ∧
      a.admittedCount ≠ a.snapshot.committedCount)

theorem decideCoverage_ok {lifecycle phase : AudioPhase} {admitted committed : ℕ}
    {cursor : Option ℕ} (h : decideCoverage lifecycle admitted committed = .ok (phase, cursor)) :
    (phase = .retiring ∧ cursor = some 0 ∧ admitted = committed) ∨
      (phase = .covered ∧ cursor = none ∧ admitted ≠ committed) := by
  unfold decideCoverage at h
  split at h
  · cases h
  · simp only at h
    split at h
    · cases h
    · split at h
      · rename_i hne
        obtain ⟨rfl, rfl⟩ : AudioPhase.covered = phase ∧ none = cursor := by simpa using h
        exact .inr ⟨rfl, rfl, hne⟩
      · rename_i heq
        split at h
        · cases h
        · obtain ⟨rfl, rfl⟩ : AudioPhase.retiring = phase ∧ some 0 = cursor := by simpa using h
          exact .inl ⟨rfl, rfl, not_not.mp heq⟩

theorem coverageSource_ok {s : CaptureSource D} {a : Admission D}
    (h : coverageSource s a = .ok true) :
    s.lifecycle = a.admittedLifecycle ∧ s.committedCount = a.snapshot.committedCount ∧
      s.retirementCursor = none := by
  unfold coverageSource at h
  split at h
  · cases hc : stillAdmitted s .blocked a.admittedCount a.admittedSha256 with
    | error e =>
      rw [hc] at h
      cases h
    | ok certified =>
      rw [hc] at h
      simp only [bind, Except.bind, pure, Except.pure, Except.ok.injEq, Bool.and_eq_true,
        decide_eq_true_eq] at h
      exact ⟨h.2.1, h.2.2.2.1, h.2.2.2.2.2.2⟩
  · simp only [bind, Except.bind, pure, Except.pure, Except.ok.injEq, Bool.true_and,
      decide_eq_true_eq] at h
    exact ⟨h.1, h.2.2.1, h.2.2.2.2.2⟩

theorem typedCoverageProposal_ok {sources : Table ℕ (SourceRow D)} {a : Admission D}
    {proposal : ℕ × CaptureSource D} (h : typedCoverageProposal sources a = .ok proposal) :
    proposal.1 = a.sourceId ∧ ∃ row, sources.get a.sourceId = some row ∧
      row.source.retirementCursor = none ∧ CoveredRow a row proposal.2 := by
  unfold typedCoverageProposal at h
  split at h
  · cases h
  · rename_i row hrow
    cases hvalid : coverageSource row.source a with
    | error e =>
      rw [hvalid] at h
      cases h
    | ok valid =>
      rw [hvalid] at h
      simp only [bind, Except.bind] at h
      split at h
      · cases h
      · rename_i hv
        cases hdecide : decideCoverage row.source.lifecycle a.admittedCount
            a.snapshot.committedCount with
        | error e =>
          rw [hdecide] at h
          cases h
        | ok decision =>
          rw [hdecide] at h
          obtain ⟨phase, cursor⟩ := decision
          obtain rfl := Except.ok.inj h
          have hv' : valid = true := by simpa using hv
          subst hv'
          obtain ⟨h1, h2, h3⟩ := coverageSource_ok hvalid
          exact ⟨rfl, row, hrow, h3, h1, h2, rfl, decideCoverage_ok hdecide⟩

/-- A progress that completes its member. -/
def Completing (p : Admission D × ℕ) : Prop :=
  p.1.cursor ≠ p.1.admittedCount ∧ p.2 = p.1.admittedCount

instance (p : Admission D × ℕ) : Decidable (Completing p) :=
  inferInstanceAs (Decidable (_ ∧ _))

/-- A step that moves member cursors and covers the members it completes. -/
structure Advance (db : Db D) (cohort : Cohort D) (progress : List (Admission D × ℕ))
    (coverage : List (ℕ × CaptureSource D)) : Prop where
  held : Held db cohort (progress.map Prod.fst)
  bounds : ∀ p ∈ progress, p.1.cursor ≤ p.2 ∧ p.2 ≤ p.1.admittedCount
  coverage_eq : typedCoverageProposals db.sources progress = .ok coverage

section Advance

variable {db : Db D} {cohort : Cohort D} {progress : List (Admission D × ℕ)}
  {coverage : List (ℕ × CaptureSource D)}

theorem Advance.proposed (h : Advance db cohort progress coverage) :
    List.Forall₂ (fun p item => typedCoverageProposal db.sources p.1 = .ok item)
      (progress.filter (Completing ·)) coverage :=
  mapM_ok h.coverage_eq

/-- The proposals cover the completed members, in their order. -/
theorem Advance.ids (h : Advance db cohort progress coverage) :
    coverage.map Prod.fst = (progress.filter (Completing ·)).map (·.1.sourceId) := by
  have hall := h.proposed
  clear h
  generalize progress.filter (Completing ·) = completed at hall ⊢
  induction hall with
  | nil => rfl
  | cons hfirst _ ih => rw [List.map_cons, List.map_cons, ih, (typedCoverageProposal_ok hfirst).1]

theorem Advance.memberIds (h : Advance db cohort progress coverage) :
    progress.map (·.1.sourceId) = cohort.members.map (·.sourceId) := by
  rw [← h.held.members, List.map_map, List.map_map]
  rfl

theorem Advance.nodup (h : Advance db cohort progress coverage)
    (hdistinct : (cohort.members.map (·.sourceId)).Nodup) : (coverage.map Prod.fst).Nodup := by
  rw [h.ids]
  rw [← h.memberIds] at hdistinct
  exact (List.filter_sublist.map _).nodup hdistinct

/-- The source of a member after the step. -/
theorem Advance.row (h : Advance db cohort progress coverage)
    (hdistinct : (cohort.members.map (·.sourceId)).Nodup) {p : Admission D × ℕ}
    (hp : p ∈ progress) :
    ∃ row, db.sources.get p.1.sourceId = some row ∧ snapshotCurrent row.source p.1 ∧
      ((Completing p ∧ ∃ source, row.source.retirementCursor = none ∧ CoveredRow p.1 row source ∧
          (applyTypedCoverage db.sources coverage).get p.1.sourceId =
            some { row with source := source }) ∨
        (¬ Completing p ∧
          (applyTypedCoverage db.sources coverage).get p.1.sourceId = some row)) := by
  obtain ⟨row, hrow, hcurrent⟩ := h.held.current p.1 (List.mem_map_of_mem hp)
  refine ⟨row, hrow, hcurrent, ?_⟩
  by_cases hc : Completing p
  · left
    have hmem : p ∈ progress.filter (Completing ·) := List.mem_filter.mpr ⟨hp, by simpa using hc⟩
    obtain ⟨item, hitem, hproposal⟩ := exists_mem_of_mapM h.coverage_eq hmem
    obtain ⟨hid, row', hrow', hnone, hcovered⟩ := typedCoverageProposal_ok hproposal
    obtain rfl : row = row' := Option.some.inj (hrow.symm.trans hrow')
    have hin : (p.1.sourceId, item.2) ∈ coverage := hid ▸ hitem
    refine ⟨hc, item.2, hnone, hcovered, ?_⟩
    rw [get_applyTypedCoverage_of_mem _ (h.nodup hdistinct) hin, hrow]
    rfl
  · right
    refine ⟨hc, ?_⟩
    rw [get_applyTypedCoverage_of_notMem, hrow]
    rw [h.ids]
    intro hin
    obtain ⟨q, hq, hid⟩ := List.mem_map.mp hin
    obtain ⟨hq, hqc⟩ := List.mem_filter.mp hq
    rw [← h.memberIds] at hdistinct
    have : q = p := List.inj_on_of_nodup_map hdistinct hq hp hid
    exact hc (by simpa [this] using hqc)

theorem Advance.other (h : Advance db cohort progress coverage) {id : ℕ}
    (hid : id ∉ cohort.members.map (·.sourceId)) :
    (applyTypedCoverage db.sources coverage).get id = db.sources.get id := by
  apply get_applyTypedCoverage_of_notMem
  rw [h.ids]
  intro hin
  obtain ⟨q, hq, rfl⟩ := List.mem_map.mp hin
  rw [← h.memberIds] at hid
  exact hid (List.mem_map_of_mem (List.mem_filter.mp hq).1)

theorem Advance.members (h : Advance db cohort progress coverage) :
    withCursors cohort.members (progress.map Prod.snd) =
      progress.map fun p => { memberOf p.1 with cursor := p.2 } := by
  rw [← h.held.members]
  unfold withCursors
  simp [List.zipWith_map, List.zipWith_self]

end Advance

/-- An incomplete member keeps its lineage out of the retired artifacts. -/
theorem Unlisted.retiredFullProof {l : Ledger D} {a : Admission D} (h : Unlisted l (lineageOf a)) :
    typedRetiredFullProof a (custody l) = none := by
  unfold typedRetiredFullProof
  rw [List.find?_eq_none]
  intro r hr
  unfold custody at hr
  simp only [List.mem_append, List.mem_map, List.mem_filter] at hr
  rw [decide_eq_true_eq]
  rcases hr with ⟨entry, hentry, rfl⟩ | ⟨entry, ⟨hentry, -⟩, rfl⟩
  · exact h.legacy entry hentry
  · exact h.entries entry.1 entry.2 (Table.get_eq_some.mpr hentry)

/-- An admission that nothing proves is held by no artifact, ready or retired. -/
theorem unlisted_of_unproved {db : Db D} (h : LedgerInv db) {a : Admission D}
    (hcursor : a.cursor = 0) (hunproved : Unproved db.ledger a) :
    Unlisted db.ledger (lineageOf a) := by
  obtain ⟨hnone, x, hax, hfree⟩ := hunproved
  have hunretired : ∀ r ∈ (custody db.ledger).retired, lineageOf a ∉ r.sources := by
    intro r hr
    unfold typedRetiredFullProof at hnone
    rw [List.find?_eq_none] at hnone
    simpa [lineageOf] using hnone r hr
  refine ⟨?_, ?_⟩
  · intro r hr
    exact hunretired ⟨r.1, r.2.facts, r.2.sources⟩
      (List.mem_append_left _ (List.mem_map_of_mem hr))
  · intro id e he hin
    cases hstate : e.state with
    | retired =>
      refine hunretired ⟨id, e.facts, e.sources⟩ (List.mem_append_right _ ?_) hin
      refine List.mem_map.mpr ⟨(id, e), List.mem_filter.mpr ⟨Table.get_eq_some.mp he, ?_⟩, rfl⟩
      simpa using hstate
    | ready =>
      -- The runs of a ready artifact cover every sequence it lists.
      obtain ⟨p, hp, -⟩ := (h.proofs id).mpr ⟨e, he, hstate⟩
      have hactive : (⟨id, e, p⟩ : ActiveArtifact D) ∈ (custody db.ledger).active :=
        mem_custody_active.mpr ⟨he, hstate, hp⟩
      have h1 : a.sequenceStart ≤ x := by
        have := hax.1
        simp only [Admission.remaining] at this
        omega
      obtain ⟨run, hrun, hrx⟩ := h.entries.lineage id e he _ hin x h1 hax.2
      obtain ⟨r, hr, hfst⟩ : ∃ r ∈ typedActiveSegments (⟨id, e, p⟩ : ActiveArtifact D), r.1 = run := by
        have hmap : (typedActiveSegments (⟨id, e, p⟩ : ActiveArtifact D)).map Prod.fst =
            physicalRuns e.facts := segmentsFrom_fst
        rw [← hmap] at hrun
        exact List.mem_map.mp hrun
      exact hfree ⟨r, List.mem_flatten.mpr ⟨_, List.mem_map_of_mem hactive, hr⟩, hfst ▸ hrx⟩

/-- A step that moves cursors and covers what it completes keeps the members. -/
theorem Advance.memberInv {db db' : Db D} {cohort : Cohort D}
    {progress : List (Admission D × ℕ)} {coverage : List (ℕ × CaptureSource D)}
    (h : Advance db cohort progress coverage)
    (hdistinct : (cohort.members.map (·.sourceId)).Nodup)
    (hmembers : ∀ m ∈ cohort.members, MemberInv db m)
    (hsources : db'.sources = applyTypedCoverage db.sources coverage) {p : Admission D × ℕ}
    (hlisted : p.2 < p.1.admittedCount → Unlisted db.ledger (lineageOf p.1) →
      Unlisted db'.ledger (lineageOf p.1)) (hp : p ∈ progress) :
    MemberInv db' { memberOf p.1 with cursor := p.2 } := by
  have hmem : memberOf p.1 ∈ cohort.members := by
    rw [← h.held.members]
    exact List.mem_map_of_mem (List.mem_map_of_mem hp)
  obtain ⟨hle, hpos, hadmitted, row, hrow, hopen, hcovered⟩ := hmembers _ hmem
  have hbounds := h.bounds p hp
  obtain ⟨row', hrow', hcurrent, hcase⟩ := h.row hdistinct hp
  obtain rfl : row = row' := Option.some.inj (hrow.symm.trans hrow')
  have hcursor : (memberOf p.1).cursor = p.1.cursor := rfl
  have hcount : (memberOf p.1).admittedCount = p.1.admittedCount := rfl
  have hlineage : (row.source.sequenceStart, row.source.sequenceStart + (memberOf p.1).admittedCount,
      (memberOf p.1).admittedSha256) = lineageOf p.1 := by
    rw [hcurrent.2.1]
    rfl
  rw [hcount, hcursor] at hopen hcovered hle
  refine ⟨hbounds.2, hpos, hadmitted, ?_⟩
  rcases hcase with ⟨hc, source, -, hsource, hget⟩ | ⟨hc, hget⟩
  · refine ⟨{ row with source := source }, hsources ▸ hget, ?_, ?_⟩
    · intro hlt
      have := hc.2
      simp only [hcount] at hlt
      omega
    · intro _
      rcases hsource.phase with hphase | hphase
      · exact .inr hphase.1
      · exact .inl hphase.1
  · refine ⟨row, hsources ▸ hget, ?_, ?_⟩
    · intro hlt
      have hlt' : p.2 < p.1.admittedCount := hlt
      obtain ⟨hphase, hunlisted⟩ := hopen (by omega)
      refine ⟨hphase, ?_⟩
      change Unlisted db'.ledger (row.source.sequenceStart, row.source.sequenceStart +
        (memberOf p.1).admittedCount, (memberOf p.1).admittedSha256)
      rw [hlineage]
      exact hlisted hlt' (hlineage ▸ hunlisted)
    · intro heq
      apply hcovered
      by_contra hne
      exact hc ⟨hne, heq⟩

/-- Both steps that move cursors keep the cohort, or complete it. -/
theorem Advance.cohortInv {db db' : Db D} {log log' : Log D} {cohort : Cohort D}
    {progress : List (Admission D × ℕ)} {coverage : List (ℕ × CaptureSource D)}
    (hinv : CohortInv db log) (h : Advance db cohort progress coverage)
    (hsources : db'.sources = applyTypedCoverage db.sources coverage)
    (hlisted : ∀ p ∈ progress, p.2 < p.1.admittedCount → Unlisted db.ledger (lineageOf p.1) →
      Unlisted db'.ledger (lineageOf p.1)) (hcaptured : log'.captured = log.captured)
    (hcohort : ∀ next, db'.cohort = some next → allComplete progress = false ∧
      next.members = withCursors cohort.members (progress.map Prod.snd)) : CohortInv db' log' := by
  have hdistinct := hinv.distinct cohort h.held.stored
  have hmembers := hinv.members cohort h.held.stored
  refine ⟨?_, ?_, ?_, ?_⟩
  · intro id row hrow
    rw [hcaptured]
    have hold : ∃ old, db.sources.get id = some old := by
      by_cases hid : id ∈ cohort.members.map (·.sourceId)
      · obtain ⟨m, hm, rfl⟩ := List.mem_map.mp hid
        obtain ⟨-, -, -, old, hold, -⟩ := hmembers m hm
        exact ⟨old, hold⟩
      · rw [hsources, h.other hid] at hrow
        exact ⟨row, hrow⟩
    obtain ⟨old, hold⟩ := hold
    exact hinv.captured id old hold
  · intro next hnext
    rw [(hcohort next hnext).2, h.members, List.map_map]
    rw [← h.memberIds] at hdistinct
    exact hdistinct
  · intro next hnext m hm
    rw [(hcohort next hnext).2, h.members] at hm
    obtain ⟨p, hp, rfl⟩ := List.mem_map.mp hm
    exact h.memberInv hdistinct hmembers hsources (hlisted p hp) hp
  · intro next hnext
    obtain ⟨hopen, hnextMembers⟩ := hcohort next hnext
    rw [hnextMembers, h.members]
    unfold allComplete at hopen
    rw [List.all_eq_false] at hopen
    obtain ⟨p, hp, hne⟩ := hopen
    have hbounds := h.bounds p hp
    have hne : p.2 ≠ p.1.admittedCount := by simpa using hne
    refine ⟨_, List.mem_map_of_mem hp, ?_⟩
    change p.2 < p.1.admittedCount
    omega

theorem mem_zip_mapM {α β ε : Type} {f : α → Except ε β} {l : List α} {out : List β}
    (h : l.mapM f = .ok out) : (l.zip out).map Prod.fst = l ∧ (l.zip out).map Prod.snd = out ∧
      ∀ p ∈ l.zip out, f p.1 = .ok p.2 := by
  have hall := mapM_ok h
  have hlen := hall.length_eq
  refine ⟨List.map_fst_zip hlen.le, List.map_snd_zip hlen.ge, ?_⟩
  intro p hp
  exact List.forall₂_zip hall hp

/-- A custody step moves cursors over ready artifacts. -/
theorem advance_custody {codec : Codec D} {db : Db D} {cohort : Cohort D}
    {admissions : List (Admission D)} {cursors : List ℕ} {coverage : List (ℕ × CaptureSource D)}
    (hledger : LedgerInv db) (hmembers : ∀ m ∈ cohort.members, m.cursor ≤ m.admittedCount)
    (held : Held db cohort admissions)
    (hcursors : admissions.mapM (typedReadyPrefix codec db.sources (custody db.ledger)) = .ok cursors)
    (hcoverage : typedCoverageProposals db.sources (admissions.zip cursors) = .ok coverage) :
    Advance db cohort (admissions.zip cursors) coverage := by
  obtain ⟨hfst, -, hmem⟩ := mem_zip_mapM hcursors
  refine ⟨hfst.symm ▸ held, ?_, hcoverage⟩
  intro p hp
  have hin : p.1 ∈ admissions := by
    rw [← hfst]
    exact List.mem_map_of_mem hp
  have hle : p.1.cursor ≤ p.1.admittedCount := by
    apply hmembers (memberOf p.1)
    rw [← held.members]
    exact List.mem_map_of_mem hin
  obtain ⟨h1, h2, -⟩ := typedReadyPrefix_spec hledger.sortedRuns hle (hmem p hp)
  exact ⟨h1, h2⟩

/-- A commit moves cursors over the group it commits. -/
theorem advance_commit {codec : Codec D} {db : Db D} {cohort : Cohort D}
    {admissions : List (Admission D)} {stage : Stage D} {g : PreparedGroup D}
    {coverage : List (ℕ × CaptureSource D)} (hledger : LedgerInv db)
    (hmembers : ∀ m ∈ cohort.members, m.cursor ≤ m.admittedCount)
    (held : Held db cohort admissions) (hstaged : db.stage = some stage)
    (hloaded : Loaded codec db.sources admissions cohort.cursor stage g)
    (hcoverage : typedCoverageProposals db.sources
      (admissions.map fun a => (a, typedMemberProgress g.facts a)) = .ok coverage) :
    Advance db cohort (admissions.map fun a => (a, typedMemberProgress g.facts a)) coverage := by
  have hfst : (admissions.map fun a => (a, typedMemberProgress g.facts a)).map Prod.fst =
      admissions := by simp [Function.comp_def]
  refine ⟨hfst.symm ▸ held, ?_, hcoverage⟩
  intro p hp
  obtain ⟨a, ha, rfl⟩ := List.mem_map.mp hp
  have hle : a.cursor ≤ a.admittedCount := by
    apply hmembers (memberOf a)
    rw [← held.members]
    exact List.mem_map_of_mem ha
  have hfacts : stage.descriptor.facts = g.facts := by
    rw [← hloaded.stage]
    rfl
  have hruns := (hledger.stage stage hstaged).runs
  rw [hfacts] at hruns
  obtain ⟨h1, h2, -⟩ := typedMemberProgress_spec hruns hle
  exact ⟨h1, h2⟩

/-- A committed group does not list a member that it leaves incomplete. -/
theorem unlisted_commit {codec : Codec D} {db : Db D} {cohort : Cohort D}
    {admissions : List (Admission D)} {stage : Stage D} {g : PreparedGroup D}
    {proof : ReplayProof D} {progress : List (Admission D × ℕ)}
    {coverage : List (ℕ × CaptureSource D)} {a : Admission D} (hledger : LedgerInv db)
    (hstaged : db.stage = some stage)
    (hloaded : Loaded codec db.sources admissions cohort.cursor stage g)
    (hle : a.cursor ≤ a.admittedCount) (hlt : typedMemberProgress g.facts a < a.admittedCount)
    (hunlisted : Unlisted db.ledger (lineageOf a)) :
    Unlisted (stageCommit codec cohort stage g proof progress coverage db).ledger (lineageOf a) := by
  have hs := hledger.stage stage hstaged
  have hdescriptor : stage.descriptor = v2Descriptor codec g := by
    rw [← hloaded.stage]
    rfl
  refine ⟨hunlisted.legacy, ?_⟩
  intro id e he
  unfold Stored at he
  simp only [stageCommit, Table.get_put] at he
  split at he
  · obtain rfl := Option.some.inj he
    intro hin
    obtain ⟨s, hs', heq⟩ := List.mem_map.mp hin
    have hranges := hs.ranges (stageRange codec s) (by
      rw [hdescriptor]
      exact List.mem_map_of_mem hs')
    have hruns := hs.runs
    rw [hdescriptor] at hranges hruns
    simp only [v2Descriptor] at hranges hruns
    obtain ⟨h1, -, -, hstop⟩ := typedMemberProgress_spec (a := a) hruns hle
    have hstart : s.startSequence = a.sequenceStart := congrArg Prod.fst heq
    have hnext : s.nextSequence = a.sequenceStart + a.admittedCount := congrArg (·.2.1) heq
    -- The member stops at a sequence that the group does not have.
    rcases hstop with hstop | hstop
    · omega
    · refine hstop (hranges _ ?_ ?_)
      · change s.startSequence ≤ _
        omega
      · change _ < s.nextSequence
        rw [hnext]
        exact Nat.add_lt_add_left hlt _
  · exact hunlisted.entries id e he

/-- Every durable step keeps the members of the cohort. -/
theorem effect_cohortInv {codec : Codec D} {s s' : Db D × Log D} (hledger : LedgerInv s.1)
    (h : CohortInv s.1 s.2) (heffect : Effect codec s s') : CohortInv s'.1 s'.2 := by
  cases heffect with
  | @custody db log cohort admissions slices cursors coverage held accepted _ hcursors hcoverage =>
    have hadvance := advance_custody hledger
      (fun m hm => (h.members cohort held.stored m hm).bound) held hcursors hcoverage
    refine hadvance.cohortInv h rfl (fun _ _ _ hlisted => hlisted.congr rfl rfl)
      (captured_updateCohort log _) ?_
    intro next hnext
    simp only [custodyCommit] at hnext
    split at hnext
    · cases hnext
    · rename_i hopen
      obtain rfl := Option.some.inj hnext
      exact ⟨by simpa using hopen, rfl⟩
  | @commit db log cohort admissions stage g proof coverage held staging staged loaded _ _ _
      hcoverage =>
    have hadvance := advance_commit hledger
      (fun m hm => (h.members cohort held.stored m hm).bound) held staged loaded hcoverage
    refine hadvance.cohortInv h rfl ?_ (captured_updateCohort log _) ?_
    · intro p hp hlt hunlisted
      obtain ⟨a, ha, rfl⟩ := List.mem_map.mp hp
      have hle : a.cursor ≤ a.admittedCount := by
        apply (h.members cohort held.stored (memberOf a) ?_).bound
        rw [← held.members]
        exact List.mem_map_of_mem ha
      exact unlisted_commit hledger staged loaded hle hlt hunlisted
    intro next hnext
    simp only [stageCommit] at hnext
    split at hnext
    · cases hnext
    · rename_i hopen
      obtain rfl := Option.some.inj hnext
      exact ⟨by simpa using hopen, rfl⟩
  | @reserve db log cohort admissions g rest later artifactId proof held =>
    refine ⟨h.captured, ?_, ?_, ?_⟩
    · intro next hnext
      obtain rfl := Option.some.inj hnext
      exact h.distinct cohort held.stored
    · intro next hnext m hm
      obtain rfl := Option.some.inj hnext
      obtain ⟨h1, h2, h3, row, hrow, hopen, hcovered⟩ := h.members cohort held.stored m hm
      exact ⟨h1, h2, h3, row, hrow, fun hlt => ⟨(hopen hlt).1, (hopen hlt).2.congr rfl rfl⟩, hcovered⟩
    · intro next hnext
      obtain rfl := Option.some.inj hnext
      exact h.incomplete cohort held.stored
  | @accept db log o admissions slices idle admissible distinct unproved partition _ nonempty _ =>
    have hmember : ∀ a ∈ admissions, MemberInv (acceptance o admissions db) (memberOf a) ∧
        a.cursor < a.admittedCount := by
      intro a ha
      obtain ⟨row, hrow, hok⟩ := admissible a ha
      have hadmitted := typedAdmission_ok hok
      have hlt : a.cursor < a.admittedCount := hadmitted.cursor ▸ hadmitted.positive
      refine ⟨⟨hlt.le, hadmitted.positive, ?_, row, hrow, fun _ => ⟨hadmitted.lifecycle.symm, ?_⟩, ?_⟩,
        hlt⟩
      · change a.admittedLifecycle = _ ∨ a.admittedLifecycle = _
        rw [hadmitted.lifecycle]
        rcases hadmitted.origin with ho | ho
        · exact .inl ho.1
        · exact .inr ho.1
      · have hunlisted := unlisted_of_unproved hledger hadmitted.cursor (unproved a ha)
        unfold lineageOf Admission.sequenceStart at hunlisted
        rw [hadmitted.snapshot] at hunlisted
        exact hunlisted
      · intro heq
        exact absurd heq hlt.ne
    refine ⟨h.captured, ?_, ?_, ?_⟩
    · intro next hnext
      obtain rfl := Option.some.inj hnext
      rw [List.map_map]
      exact distinct
    · intro next hnext m hm
      obtain rfl := Option.some.inj hnext
      obtain ⟨a, ha, rfl⟩ := List.mem_map.mp hm
      exact (hmember a ha).1
    · intro next hnext
      obtain rfl := Option.some.inj hnext
      obtain ⟨s, hs⟩ := List.exists_mem_of_ne_nil _ nonempty
      obtain ⟨-, a, ha, -⟩ := partition.origin s hs
      exact ⟨memberOf a, List.mem_map_of_mem ha, (hmember a ha).2⟩
  | @cover db log a proposal idle _ _ _ =>
    refine h.congr rfl (fun _ ht => ht) ?_ ?_
    · intro id hid
      simp [cohortSources, idle] at hid
    · exact captured_adjust h
  | @block db log a idle _ =>
    refine h.congr rfl (fun _ ht => ht) ?_ (captured_adjust h)
    intro id hid
    simp [cohortSources, idle] at hid
  | @clear db log ledger clears =>
    refine h.congr rfl ?_ (fun _ _ => rfl) h.captured
    intro t ht
    cases clears with
    | clear kept => exact ht.congr rfl rfl
  | @retirePage db log id cursor stop row stored retiring free cursor_eq covered bound =>
    refine h.congr rfl (fun _ ht => ht) ?_ (captured_adjust h)
    intro k hk
    have hne : k ≠ id := fun heq => free (heq ▸ hk)
    simp only [PublicationMachine.retirePage, Table.get_adjust, if_neg hne]
  | @finish db log id row stored retiring free cursor_eq =>
    refine h.congr rfl (fun _ ht => ht) ?_ ?_
    · intro k hk
      have hne : k ≠ id := fun heq => free (heq ▸ hk)
      simp only [finishRetirement, Table.get_delete, if_neg hne]
    · intro k row' hk
      simp only [finishRetirement, Table.get_delete] at hk
      by_cases hid : k = id
      · simp [hid] at hk
      · rw [if_neg hid] at hk
        exact h.captured k row' hk
  | materialize => exact h.congr rfl (fun _ ht => ht.congr rfl rfl) (fun _ _ => rfl) h.captured
  | latch => exact h.congr rfl (fun _ ht => ht.congr rfl rfl) (fun _ _ => rfl) h.captured
  | summaries => exact h.congr rfl (fun _ ht => ht.congr rfl rfl) (fun _ _ => rfl) h.captured
  | wait => exact h.congr rfl (fun _ ht => ht.congr rfl rfl) (fun _ _ => rfl) h.captured
  | coalesce => exact h.congr rfl (fun _ ht => ht.congr rfl rfl) (fun _ _ => rfl) h.captured
  | failStop => exact h.congr rfl (fun _ ht => ht.congr rfl rfl) (fun _ _ => rfl) h.captured

/-- An acknowledgement keeps them as well. -/
theorem retires_cohortInv {db : Db D} {log : Log D} {ledger : Ledger D} (h : CohortInv db log)
    (hretires : Retires db.ledger ledger) : CohortInv { db with ledger := ledger } log := by
  refine h.congr rfl ?_ (fun _ _ => rfl) h.captured
  intro t ht
  cases hretires with
  | @retire id e p entry ready proof active =>
    refine ⟨ht.legacy, ?_⟩
    intro x y hy
    unfold Stored at hy
    simp only [recordRetirement, Table.get_put] at hy
    split at hy
    · obtain rfl := Option.some.inj hy
      exact ht.entries id e entry
    · exact ht.entries x y hy

/-- A capture adds a source that no member has. -/
theorem capture_cohortInv {db : Db D} {log : Log D} {id : ℕ} {row : SourceRow D}
    (h : CohortInv db log) (hfresh : id ∉ log.captured) :
    CohortInv { db with sources := db.sources.put id row }
      { log with captured := id :: log.captured } := by
  refine h.congr rfl (fun _ ht => ht) ?_ ?_
  · intro k hk
    have hne : k ≠ id := fun heq => hfresh (heq ▸ captured_cohort h hk)
    simp only [Table.get_put, if_neg hne]
  · intro k row' hk
    rw [Table.get_put] at hk
    by_cases hid : k = id
    · simp [hid]
    · rw [if_neg hid] at hk
      exact List.mem_cons_of_mem _ (h.captured k row' hk)

end CohortMembers
