import OmiCollector.PublicationRuns

/-! A publication call, from its closure to its outcome.

Before a cohort is accepted, every admissible source is compared with what is published: proved
ones are covered, one in conflict is quarantined and ends the call, and the others are members. A
call that reports nothing left has therefore settled all of them. -/
namespace PermitRuns

open AudioMachine (AudioPhase CohortPhase)
open ByteCodec CaptureModel KeyedTable SpanCover SpanWalk PublicationLedger RefusalLogic StepRuns
open TypedSlices SlicePartition PublicationGroups PublicationStage PublicationStore PublicationMachine
open PublicationEffects LedgerOrder CohortMembers RemainingSlices CohortRounds StagedGroups
open SettledSources PublicationRuns

variable {D : Type} [DecidableEq D] {codec : Codec D} {w : World D}

omit [DecidableEq D] in
theorem admissible_cursor {db : Db D} {a : Admission D} (h : Admissible db a) : a.cursor = 0 := by
  obtain ⟨row, -, hok⟩ := h
  exact (typedAdmission_ok hok).cursor

/-- The quarantine of a source in conflict is one step. -/
theorem runs_blockTypedCustodyConflict {a : Admission D} (idle : w.db.cohort = none)
    (h : Admissible w.db a) :
    Runs (program codec) (blockTypedCustodyConflict a) w fun _ _ => True := by
  unfold blockTypedCustodyConflict
  apply runs_readDb_bind
  refine Runs.bind (runs_requireSome (Q := fun _ t => t = w) fun _ _ => rfl) ?_
  rintro row t - rfl
  refine Runs.bind (runs_refuseIf (P := fun _ u => u = t) fun _ => rfl) ?_
  rintro _ u - rfl
  refine Runs.bind (runs_refuseIf (P := fun _ v => v = u) fun _ => rfl) ?_
  rintro _ v - rfl
  exact runs_transact (fun _ => .block idle h) fun _ _ _ => trivial

/-- What a comparison with all published artifacts finds when it does not prove the source. -/
theorem unproved_of_ok {sources : Table ℕ (SourceRow D)} {a : Admission D} {l : Ledger D}
    (hsorted : SortedRuns (readyRuns (custody l))) (hcursor : a.cursor = 0)
    (h : typedFullReadyProofs codec sources a (custody l) = .ok false) : Unproved l a := by
  unfold typedFullReadyProofs at h
  by_cases hretired : (typedRetiredFullProof a (custody l)).isSome = true
  · rw [if_pos hretired] at h
    cases h
  · rw [if_neg hretired] at h
    cases hreject : rejectPartial a (custody l) with
    | error e =>
      rw [hreject] at h
      cases h
    | ok u =>
      rw [hreject] at h
      cases htraverse : typedReadyTraversal codec sources a (custody l) a.sequenceStart with
      | error e =>
        simp only [bind, Except.bind, htraverse] at h
        cases h
      | ok reached =>
        simp only [bind, Except.bind, htraverse, pure, Except.pure, Except.ok.injEq,
          decide_eq_false_iff_not] at h
        obtain ⟨h1, h2, -, h4⟩ :=
          typedReadyTraversal_spec hsorted le_rfl (Nat.le_add_right _ _) htraverse
        refine ⟨by simpa using hretired, reached, ⟨?_, ?_⟩, h4.resolve_left h⟩
        · simp only [Admission.remaining, hcursor]
          omega
        · simp only [Admission.remaining]
          omega

/-- A stored source that is proved by published audio. -/
def Covered (db : Db D) (id : ℕ) : Prop :=
  ∃ row, db.sources.get id = some row ∧ IsCovered row.source

omit [DecidableEq D] in
theorem Covered.settled {db : Db D} {id : ℕ} (h : Covered db id) : Settled db id := by
  obtain ⟨row, hrow, hcovered⟩ := h
  intro row' hrow'
  obtain rfl : row = row' := Option.some.inj (hrow.symm.trans hrow')
  exact hcovered

/-- What comparing all admissions leaves: each one covered, or unproved and still admissible. -/
structure Compared (before db : Db D) (admissions left : List (Admission D)) : Prop where
  idle : db.cohort = none
  ledger : db.ledger = before.ledger
  sublist : left.Sublist admissions
  unproved : ∀ a ∈ left, Admissible db a ∧ Unproved db.ledger a
  covered : ∀ a ∈ admissions, a ∈ left ∨ Covered db a.sourceId
  others : ∀ id, id ∉ admissions.map (·.sourceId) → db.sources.get id = before.sources.get id

omit [DecidableEq D] in
theorem admissible_congr {db db' : Db D} {a : Admission D} (h : Admissible db a)
    (hrow : db'.sources.get a.sourceId = db.sources.get a.sourceId) : Admissible db' a := by
  obtain ⟨row, hget, hok⟩ := h
  exact ⟨row, hrow.trans hget, hok⟩

/-- The comparison of the admissions, one after another. -/
theorem runs_coverTypedFullReplays {admissions : List (Admission D)} (idle : w.db.cohort = none)
    (hadmissible : ∀ a ∈ admissions, Admissible w.db a)
    (hdistinct : (admissions.map (·.sourceId)).Nodup) :
    Runs (program codec) (coverTypedFullReplays codec admissions) w fun left t =>
      Compared w.db t.db admissions left := by
  induction admissions generalizing w with
  | nil =>
    exact runs_pure ⟨idle, rfl, .slnil, by simp, by simp, fun _ _ => rfl⟩
  | cons a rest ih =>
    rw [List.map_cons, List.nodup_cons] at hdistinct
    have ha := hadmissible a (by simp)
    have hrest : ∀ b ∈ rest, b.sourceId ≠ a.sourceId := by
      intro b hb heq
      exact hdistinct.1 (heq ▸ List.mem_map_of_mem hb)
    unfold coverTypedFullReplays
    refine runs_of_inv fun hinv => ?_
    have hsorted : SortedRuns (readyRuns (custody w.db.ledger)) := hinv.ledger.sortedRuns
    apply runs_readDb_bind
    cases hproofs : typedFullReadyProofs codec w.db.sources a (custody w.db.ledger) with
    | error e =>
      cases e with
      | admissionConflict id message =>
        refine Runs.bind (runs_blockTypedCustodyConflict idle ha) ?_
        exact fun _ _ _ _ => runs_throw
      | _ => exact runs_throw
    | ok proved =>
      cases proved with
      | true =>
        refine Runs.bind (runs_fromExcept (Q := fun proposal t => t = w ∧
          typedCoverageProposal w.db.sources a = .ok proposal) fun p hp => ⟨rfl, hp⟩) ?_
        rintro proposal t - ⟨rfl, hproposal⟩
        refine Runs.bind (runs_transact (P := fun _ u => u.db =
          { t.db with sources := applyTypedCoverage t.db.sources [proposal] }) ?_ fun _ hu _ => hu) ?_
        · exact fun _ => .cover idle ha hproofs hproposal
        · rintro _ u - hu
          obtain ⟨hid, row, hrow, -, hcovered⟩ := typedCoverageProposal_ok hproposal
          have hget : ∀ id, u.db.sources.get id = if id = a.sourceId then
              (t.db.sources.get id).map fun row => { row with source := proposal.2 }
              else t.db.sources.get id := by
            intro id
            rw [hu]
            simp only [applyTypedCoverage, List.foldl_cons, List.foldl_nil, Table.get_adjust, hid]
          refine Runs.mono (ih (by rw [hu]; exact idle) ?_ hdistinct.2) ?_
          · intro b hb
            refine admissible_congr (hadmissible b (List.mem_cons_of_mem _ hb)) ?_
            rw [hget, if_neg (hrest b hb)]
          · intro left x _ hx
            refine ⟨hx.idle, by rw [hx.ledger, hu], hx.sublist.cons a, hx.unproved, ?_, ?_⟩
            · intro b hb
              rcases List.mem_cons.mp hb with rfl | hb
              · right
                refine ⟨{ row with source := proposal.2 }, ?_, CoveredRow.covered hcovered⟩
                rw [hx.others _ hdistinct.1, hget, if_pos rfl, hrow]
                rfl
              · exact hx.covered b hb
            · intro id hnot
              rw [List.map_cons, List.mem_cons, not_or] at hnot
              rw [hx.others id hnot.2, hget, if_neg hnot.1]
      | false =>
        refine Runs.bind (ih idle (fun b hb => hadmissible b (List.mem_cons_of_mem _ hb))
          hdistinct.2) ?_
        intro left t _ ht
        have hsame : t.db.sources.get a.sourceId = w.db.sources.get a.sourceId :=
          ht.others _ hdistinct.1
        refine runs_pure ⟨ht.idle, ht.ledger, ht.sublist.cons_cons a, ?_, ?_, ?_⟩
        · intro b hb
          rcases List.mem_cons.mp hb with rfl | hb
          · refine ⟨admissible_congr ha hsame, ?_⟩
            rw [ht.ledger]
            exact unproved_of_ok hsorted (admissible_cursor ha) hproofs
          · exact ht.unproved b hb
        · intro b hb
          rcases List.mem_cons.mp hb with rfl | hb
          · exact .inl (by simp)
          · exact (ht.covered b hb).imp_left (List.mem_cons_of_mem _)
        · intro id hnot
          rw [List.map_cons, List.mem_cons, not_or] at hnot
          exact ht.others id hnot.2

theorem runs_normalizeOrBlock {admissions : List (Admission D)} (idle : w.db.cohort = none)
    (hadmissible : ∀ a ∈ admissions, Admissible w.db a) :
    Runs (program codec) (normalizeOrBlock codec admissions) w fun slices t => t = w ∧
      Partition codec w.db.sources (custody w.db.ledger) admissions slices := by
  refine runs_of_inv fun hinv => ?_
  have hsorted : SortedRuns (readyRuns (custody w.db.ledger)) := hinv.ledger.sortedRuns
  unfold normalizeOrBlock
  apply runs_readDb_bind
  cases hslices : normalizeTypedAdmissions codec w.db.sources (custody w.db.ledger) admissions with
  | ok slices => exact runs_pure ⟨rfl, normalizeTypedAdmissions_spec hsorted hslices⟩
  | error e =>
    cases e with
    | admissionConflict id message =>
      cases hfind : admissions.find? fun a => a.sourceId = id with
      | none =>
        simp only [hfind]
        exact runs_throw
      | some a =>
        simp only [hfind]
        refine Runs.bind (runs_blockTypedCustodyConflict idle
          (hadmissible a (List.mem_of_find?_eq_some hfind))) ?_
        exact fun _ _ _ _ => runs_throw
    | _ => exact runs_throw

/-- What the search for a cohort leaves: a wait for the rest, or a cohort of all of it. -/
structure Qualified (codec : Codec D) (before db : Db D) (admissions : List (Admission D))
    (r : Bool ⊕ List (Slice D)) : Prop where
  sources : db.sources = before.sources
  waits : ∀ remaining, r = .inl remaining →
    db.cohort = none ∧ remaining = decide (admissions ≠ [])
  accepted : ∀ slices, r = .inr slices → RestOf codec db slices ∧
    ∀ a ∈ admissions, a.sourceId ∈ cohortSources db

theorem runs_qualifyCohort_accept {o : Options} {key : WaitKey D} {admissions : List (Admission D)}
    (idle : w.db.cohort = none)
    (hleft : ∀ a ∈ admissions, Admissible w.db a ∧ Unproved w.db.ledger a)
    (hdistinct : (admissions.map (·.sourceId)).Nodup)
    (hdone : admissions = [] → ∀ f ∈ key.admissions, Covered w.db f.1.sourceId) :
    Runs (program codec) (qualifyCohort.accept codec o key admissions) w fun r t =>
      Qualified codec w.db t.db admissions r := by
  unfold qualifyCohort.accept
  refine Runs.bind (runs_normalizeOrBlock idle fun a ha => (hleft a ha).1) ?_
  rintro slices t - ⟨rfl, hpartition⟩
  apply runs_readDb_bind
  refine Runs.bind (runs_fromExcept (Q := fun _ u => u = t ∧
    ∀ s ∈ slices, AfterFrontier t.db.ledger.v2Frontier s.startSequence) fun _ hok =>
      ⟨rfl, requireSlicesAfterV2Frontier_ok hok⟩) ?_
  rintro _ u - ⟨rfl, hafter⟩
  refine runs_ite ?_ ?_
  · intro _
    refine Runs.bind (runs_transact (P := fun _ v => v.db = storeWait ⟨key,
      decide (admissions ≠ []), groupPackets codec slices, o.threshold⟩ u.db) ?_
        fun _ hv _ => hv) ?_
    · intro _
      refine .wait fun hnone f hf => ?_
      exact hdone (by simpa using hnone) f hf
    · rintro _ v - hv
      refine runs_pure ⟨by rw [hv]; rfl, ?_, by simp⟩
      rintro _ ⟨rfl⟩
      exact ⟨by rw [hv]; exact idle, rfl⟩
  · intro hqualifies
    rw [not_or, not_lt] at hqualifies
    refine Runs.bind (runs_refuseIf (P := fun _ v => v = u) fun _ => rfl) ?_
    rintro _ v - rfl
    refine Runs.bind (runs_transact (P := fun _ x => x.db = acceptance o admissions v.db) ?_
      fun _ hx _ => hx) ?_
    · exact fun _ => .accept idle (fun a ha => (hleft a ha).1) hdistinct
        (fun a ha => (hleft a ha).2) hpartition hafter hqualifies.1 hqualifies.2
    · rintro _ x hinv hx
      refine runs_pure ⟨by rw [hx]; rfl, by simp, ?_⟩
      rintro _ ⟨rfl⟩
      have hcohort : x.db.cohort = some ⟨.accepted, o.threshold, o.frontier, 0,
          admissions.map memberOf⟩ := by
        rw [hx]
        rfl
      constructor
      · have hheld : Held x.db ⟨.accepted, o.threshold, o.frontier, 0, admissions.map memberOf⟩
            admissions := by
          refine ⟨hcohort, rfl, ?_⟩
          intro a ha
          obtain ⟨row, hrow, hok⟩ := (hleft a ha).1
          have hadmitted := typedAdmission_ok hok
          refine ⟨row, by rw [hx]; exact hrow, ?_⟩
          rw [← hadmitted.snapshot]
          exact ⟨rfl, rfl, rfl, rfl, rfl, .inl (by rw [hadmitted.lifecycle, hadmitted.snapshot])⟩
        refine restOf_of_remaining hinv.cohort hheld ⟨?_, ?_⟩
        · rw [hx]
          exact hpartition
        · rw [hx]
          exact hafter
      · intro a ha
        rw [mem_cohortSources hcohort, List.map_map]
        exact List.mem_map_of_mem ha

theorem runs_qualifyCohort {o : Options} {key : WaitKey D} {admissions : List (Admission D)}
    (idle : w.db.cohort = none)
    (hleft : ∀ a ∈ admissions, Admissible w.db a ∧ Unproved w.db.ledger a)
    (hdistinct : (admissions.map (·.sourceId)).Nodup)
    (hdone : admissions = [] → ∀ f ∈ key.admissions, Covered w.db f.1.sourceId) :
    Runs (program codec) (qualifyCohort codec o key admissions) w fun r t =>
      Qualified codec w.db t.db admissions r := by
  unfold qualifyCohort
  apply runs_readDb_bind
  refine Runs.bind (runs_fromExcept (Q := fun _ t => t = w) fun _ _ => rfl) ?_
  rintro summary t - rfl
  cases summary with
  | none => exact runs_qualifyCohort_accept idle hleft hdistinct hdone
  | some summary =>
    obtain ⟨packets, fresh⟩ := summary
    refine runs_ite ?_ fun _ => runs_qualifyCohort_accept idle hleft hdistinct hdone
    intro _
    refine runs_ite ?_ ?_
    · intro _
      refine Runs.bind (runs_transact (P := fun _ u => u.db = storeSummaries fresh t.db)
        (fun _ => .summaries) fun _ hu _ => hu) ?_
      rintro _ u - hu
      refine runs_pure ⟨by rw [hu]; rfl, ?_, by simp⟩
      rintro _ ⟨rfl⟩
      exact ⟨by rw [hu]; exact idle, rfl⟩
    · intro _
      refine runs_pure ⟨rfl, ?_, by simp⟩
      rintro _ ⟨rfl⟩
      exact ⟨idle, rfl⟩

section Admissions

variable {sources : Table ℕ (SourceRow D)} {frontier : Option ℕ} {admissions : List (Admission D)}

omit [DecidableEq D] in
theorem admissions_sublist {rows : List (ℕ × SourceRow D)} {found : List (Option (Admission D))}
    (h : List.Forall₂ (fun r o => typedAdmission r.1 r.2.source = .ok o) rows found) :
    ((found.filterMap id).map (·.sourceId)).Sublist (rows.map Prod.fst) := by
  induction h with
  | nil => simp
  | @cons r o rows found hr _ ih =>
    cases o with
    | none => simpa using ih.cons _
    | some a =>
      have hid : a.sourceId = r.1 := (typedAdmission_ok hr).sourceId
      simpa [hid] using ih.cons_cons r.1

omit [DecidableEq D] in
/-- The admissible sources up to the frontier, each of them once. -/
theorem typedSourceAdmissions_ok (h : typedSourceAdmissions sources frontier = .ok admissions) :
    (∀ a, a ∈ admissions ↔ Admission.Within frontier a ∧
      ∃ row, sources.get a.sourceId = some row ∧ typedAdmission a.sourceId row.source = .ok (some a)) ∧
      (admissions.map (·.sourceId)).Nodup := by
  unfold typedSourceAdmissions at h
  simp only [Checks.bind_ok] at h
  obtain ⟨found, hfound, hout⟩ := h
  obtain rfl := Except.ok.inj hout
  have hall := Checks.mapM_ok hfound
  constructor
  · intro a
    rw [List.mem_insertionSort, List.mem_filter, List.mem_filterMap, decide_eq_true_eq, and_comm]
    refine and_congr_right fun _ => ?_
    constructor
    · intro ha
      obtain ⟨o, ho, hoa⟩ := ha
      obtain ⟨r, hr, hro⟩ := forall₂_left hall ho
      obtain rfl : o = some a := hoa
      have hid : a.sourceId = r.1 := (typedAdmission_ok hro).sourceId
      rw [hid]
      exact ⟨r.2, Table.get_eq_some.mpr hr, hro⟩
    · intro ha
      obtain ⟨row, hrow, hok⟩ := ha
      obtain ⟨o, ho, hro⟩ := forall₂_right hall (Table.get_eq_some.mp hrow)
      obtain rfl : o = some a := Except.ok.inj (hro.symm.trans hok)
      exact ⟨some a, ho, rfl⟩
  · have hperm := (List.perm_insertionSort Admission.before
      ((found.filterMap id).filter (Admission.Within frontier ·))).map (·.sourceId)
    refine hperm.nodup_iff.mpr ?_
    exact ((List.filter_sublist.map _).trans (admissions_sublist hall)).nodup sources.nodup

end Admissions

/-- A call that reports nothing left has no cohort, and if it began without one, then all sources
it could have admitted are settled. -/
structure Finished (o : Options) (before db : Db D) : Prop where
  idle : db.cohort = none
  settled : before.cohort = none → ∃ admissions,
    typedSourceAdmissions before.sources o.frontier = .ok admissions ∧
      ∀ a ∈ admissions, Settled db a.sourceId

/-- Settled sources and members of a cohort that has ended are settled after any more steps. -/
theorem settled_of_steps {s s' : Db D × Log D} (h : Consistent codec s)
    (hsteps : Relation.ReflTransGen (Effect codec) s s') (hidle : s'.1.cohort = none) {id : ℕ}
    (hid : Settled s.1 id ∨ id ∈ cohortSources s.1) : Settled s'.1 id := by
  have hrun : Consistent codec s' ∧ (Settled s'.1 id ∨ id ∈ cohortSources s'.1) := by
    clear hidle
    induction hsteps with
    | refl => exact ⟨h, hid⟩
    | tail _ hstep ih =>
      refine ⟨effect_consistent ih.1 hstep, ?_⟩
      rcases ih.2 with hsettled | hmember
      · exact .inl (effect_settled ih.1.toSound hstep hsettled)
      · exact (effect_member ih.1.toSound hstep hmember).symm
  rcases hrun.2 with hsettled | hmember
  · exact hsettled
  · simp [cohortSources, hidle] at hmember

theorem runs_finalizePublicAudioV2 {o : Options} :
    Runs (program codec) (finalizePublicAudioV2 codec o) w fun outcome t =>
      outcome.remainingAtFrontier = false → Finished o w.db t.db := by
  unfold finalizePublicAudioV2
  refine Runs.bind (runs_refuseIf (P := fun _ t => t = w) fun _ => rfl) ?_
  rintro _ t - rfl
  refine Runs.bind runs_loadActiveTypedCohort ?_
  rintro r u hinv ⟨rfl, hnone, hsome⟩
  cases r with
  | some active =>
    obtain ⟨cohort, as⟩ := active
    have hstored := (hsome cohort as rfl).stored
    refine Runs.bind (runs_resumeV2Cohort none (by simp)) ?_
    intro published v _ hidle
    refine runs_pure fun _ => ⟨hidle, ?_⟩
    intro hbefore
    rw [hstored] at hbefore
    cases hbefore
  | none =>
    have hidle := hnone rfl
    refine Runs.bind runs_authenticate ?_
    rintro _ v - rfl
    apply runs_readDb_bind
    refine Runs.bind (runs_fromExcept (Q := fun admissions x => x = v ∧
      typedSourceAdmissions v.db.sources o.frontier = .ok admissions) fun a ha => ⟨rfl, ha⟩) ?_
    rintro admissions x - ⟨rfl, hadmissions⟩
    obtain ⟨hmem, hdistinct⟩ := typedSourceAdmissions_ok hadmissions
    refine runs_ite ?_ ?_
    · intro _
      refine runs_pure fun hempty => ⟨hidle, fun _ => ⟨admissions, hadmissions, ?_⟩⟩
      have hnil : admissions = [] := by simpa using hempty
      simp [hnil]
    · intro _
      cases hcached : cachedNormalizedWait x.db
          (normalizedWaitKey x.db.ledger admissions o.threshold) o.threshold with
      | some remaining =>
        simp only [hcached]
        refine runs_pure fun hempty => ⟨hidle, fun _ => ⟨admissions, hadmissions, ?_⟩⟩
        -- The stored wait is about these very admissions.
        obtain ⟨cached, hstored, hcondition⟩ := Option.bind_eq_some_iff.mp hcached
        split at hcondition
        · rename_i hkey
          have hnothing : cached.remaining = false :=
            (Option.some.inj hcondition).trans hempty
          intro a ha
          have hin : (typedPacketFingerprint a, a.cursor) ∈ cached.key.admissions := by
            rw [hkey.1]
            exact List.mem_map_of_mem ha
          exact (hinv.waiting cached hstored hnothing _ hin).2
        · cases hcondition
      | none =>
        simp only [hcached]
        refine Runs.bind (runs_coverTypedFullReplays hidle (fun a ha => ((hmem a).mp ha).2)
          hdistinct) ?_
        intro left y _ hy
        refine Runs.bind runs_requireTypedAdmissionsCurrent ?_
        rintro _ z hinvz rfl
        have hdone : left = [] → ∀ a ∈ admissions, Covered z.db a.sourceId := by
          intro hnil a ha
          exact (hy.covered a ha).resolve_left (by simp [hnil])
        refine Runs.bind (runs_qualifyCohort hy.idle hy.unproved
          ((hy.sublist.map (·.sourceId)).nodup hdistinct) ?_) ?_
        · intro hnil f hf
          obtain ⟨a, ha, rfl⟩ := List.mem_map.mp hf
          exact hdone hnil a ha
        · intro r t' hinv' ht'
          cases r with
          | inl remaining =>
            refine runs_pure fun hempty => ?_
            obtain ⟨hidle', hremaining⟩ := ht'.waits remaining rfl
            refine ⟨hidle', fun _ => ⟨admissions, hadmissions, ?_⟩⟩
            have hnil : left = [] := by
              have hfalse : remaining = false := hempty
              rw [hremaining] at hfalse
              simpa using hfalse
            intro a ha
            unfold Settled
            rw [ht'.sources]
            exact (hdone hnil a ha).settled
          | inr slices =>
            obtain ⟨hrest, hmembers⟩ := ht'.accepted slices rfl
            refine Runs.bind (runs_resumeV2Cohort (some slices) ?_).steps ?_
            · rintro _ ⟨rfl⟩
              exact hrest
            · intro published u' _ hu
              refine runs_pure fun _ => ⟨hu.2, fun _ => ⟨admissions, hadmissions, ?_⟩⟩
              intro a ha
              refine settled_of_steps hinv' hu.1 hu.2 ?_
              rcases hy.covered a ha with hleft | hcovered
              · exact .inr (hmembers a hleft)
              · left
                change Settled t'.db a.sourceId
                unfold Settled
                rw [ht'.sources]
                exact hcovered.settled

end PermitRuns
