import OmiCollector.CohortPlans
import OmiCollector.ResumedGroups

/-! When an acknowledgement stands in the way of a cohort.

Retirement takes the hashes of an artifact away. What a cohort has left can still be computed exactly
when no member has sequences of that artifact ahead of its cursor. -/
namespace AckInterference

open AudioMachine (AudioPhase CohortPhase)
open ByteCodec CaptureModel KeyedTable SpanCover SpanWalk PublicationLedger TypedSlices
open SlicePartition PublicationGroups PublicationStage PublicationStore PublicationMachine
open PublicationEffects LedgerOrder CohortMembers RemainingSlices CohortRounds StagedGroups
open SettledSources PublicationRuns PublicHistory

variable {D : Type} [DecidableEq D] {codec : Codec D}

/-- An artifact holds sequences that a member has ahead of its cursor. -/
def Meets (e : Entry D) (a : Admission D) : Prop :=
  a.cursor < a.admittedCount ∧ ∃ run ∈ physicalRuns e.facts,
    a.remaining.start < run.stop ∧ run.start < a.remaining.stop

instance (e : Entry D) (a : Admission D) : Decidable (Meets e a) :=
  inferInstanceAs (Decidable (_ ∧ _))

def retiredOverlap : String := "typed source overlaps retired custody without exact full-source lineage"

section Retirement

variable {sources : Table ℕ (SourceRow D)} {c c' : Custody D}

/-- Comparison with less active artifacts. -/
theorem comparable_retire {a : Admission D} (h : Comparable codec sources c a)
    (hready : ∀ r ∈ readyRuns c', r ∈ readyRuns c)
    (hretired : typedRejectPartialRetiredOverlap a c' = .ok ()) : Comparable codec sources c' a :=
  ⟨h.readable, hretired, fun r hr => h.ready r (hready r hr)⟩

/-- An admission in the way of a retired artifact is a conflict of its source. -/
theorem normalizeAdmission_conflict {a : Admission D} {normalized : List (Slice D)}
    (h : Comparable codec sources c a) (hopen : a.cursor < a.admittedCount)
    (hretired : typedRejectPartialRetiredOverlap a c' = .error retiredOverlap) :
    normalizeAdmission codec sources c' normalized a =
      .error (.admissionConflict a.sourceId retiredOverlap) := by
  obtain ⟨s, hslice, hsha⟩ := h.readable
  obtain ⟨hadm, -⟩ := typedSlice_ok hslice
  have hnot : ¬ (a.cursor = 0 ∧ s.rawSha256 codec ≠ a.admittedSha256) :=
    fun hc => hc.2 (hsha hc.1)
  unfold normalizeAdmission
  rw [if_neg (by omega)]
  simp only [hslice, bind, Except.bind, if_neg hnot, uniqueAgainstTypedReady, hadm, hretired,
    Except.mapError]

/-- What an admission has left overlaps retired custody. -/
def InTheWay (c : Custody D) (a : Admission D) : Prop :=
  a.cursor < a.admittedCount ∧ typedRejectPartialRetiredOverlap a c = .error retiredOverlap

/-- The first admission in the way ends normalization; those before it agree with each other. -/
theorem normalizeTypedAdmissions_conflict {as : List (Admission D)}
    (hsorted : SortedRuns (readyRuns c'))
    (hagree : ∀ bs : List (Admission D), (∀ b ∈ bs, b ∈ as ∧ ¬ InTheWay c' b) →
      Agreeing sources c' bs)
    (hcomparable : ∀ a ∈ as, a.cursor < a.admittedCount → Comparable codec sources c a)
    (hready : ∀ r ∈ readyRuns c', r ∈ readyRuns c)
    (hretired : ∀ a ∈ as, a.cursor < a.admittedCount →
      typedRejectPartialRetiredOverlap a c' = .ok () ∨
        typedRejectPartialRetiredOverlap a c' = .error retiredOverlap)
    (hmet : ∃ a ∈ as, InTheWay c' a) :
    ∃ a ∈ as, normalizeTypedAdmissions codec sources c' as =
      .error (.admissionConflict a.sourceId retiredOverlap) := by
  have hrun : ∀ (done rest : List (Admission D)) (mid : List (Slice D)), as = done ++ rest →
      (∀ b ∈ done, ¬ InTheWay c' b) → Partition codec sources c' done mid →
      (∃ a ∈ rest, InTheWay c' a) →
      ∃ a ∈ rest, rest.foldlM (normalizeAdmission codec sources c') mid =
        .error (.admissionConflict a.sourceId retiredOverlap) := by
    intro done rest
    induction rest generalizing done with
    | nil =>
      rintro mid - - - ⟨a, ha, -⟩
      cases ha
    | cons a rest ih =>
      intro mid heq hdone hmid hmet
      have hin : a ∈ as := heq ▸ List.mem_append_right _ List.mem_cons_self
      rw [List.foldlM_cons]
      by_cases hway : InTheWay c' a
      · rw [normalizeAdmission_conflict (hcomparable a hin hway.1) hway.1 hway.2]
        exact ⟨a, List.mem_cons_self, rfl⟩
      · have hclear : a.cursor < a.admittedCount → Comparable codec sources c' a := by
          intro hopen
          refine comparable_retire (hcomparable a hin hopen) hready ?_
          exact (hretired a hin hopen).resolve_right fun herror => hway ⟨hopen, herror⟩
        have hpassed : ∀ b ∈ done ++ [a], ¬ InTheWay c' b := by
          intro b hb
          rcases List.mem_append.mp hb with hb | hb
          · exact hdone b hb
          · exact List.mem_singleton.mp hb ▸ hway
        have hbefore : Agreeing sources c' (done ++ [a]) := by
          refine hagree _ fun b hb => ⟨?_, hpassed b hb⟩
          rcases List.mem_append.mp hb with hb | hb
          · exact heq ▸ List.mem_append_left _ hb
          · exact List.mem_singleton.mp hb ▸ hin
        obtain ⟨next, hnext⟩ := normalizeAdmission_succeeds hsorted hmid hbefore hclear
        rw [hnext]
        have hlater : ∃ b ∈ rest, InTheWay c' b := by
          obtain ⟨b, hb, hb'⟩ := hmet
          rcases List.mem_cons.mp hb with rfl | hb
          · exact absurd hb' hway
          · exact ⟨b, hb, hb'⟩
        obtain ⟨b, hb, hfold⟩ := ih (done ++ [a]) next (by simp [heq]) hpassed
          (normalizeAdmission_spec hsorted hmid hnext) hlater
        exact ⟨b, List.mem_cons_of_mem _ hb, hfold⟩
  have hempty : Partition codec sources c' [] [] :=
    ⟨⟨by simp, by simp⟩, by simp, by simp [SeqIn], by simp, by simp⟩
  exact hrun [] as [] rfl (by simp) hempty hmet

end Retirement

section Acknowledged

variable {db : Db D} {log : Log D} {cohort : Cohort D} {as : List (Admission D)} {id : D} {e : Entry D}

omit [DecidableEq D] in
theorem unlisted_retire [DecidableEq D] {l : Ledger D} {t : SourceLineage D}
    (hentry : Stored l id e) (h : Unlisted l t) : Unlisted (recordRetirement l id e) t := by
  refine ⟨h.legacy, ?_⟩
  intro k entry hk
  change (l.entries.put id (AckRetirement.Entry.retire e)).get k = some entry at hk
  rw [Table.get_put] at hk
  split at hk
  · obtain rfl := Option.some.inj hk
    exact h.entries id e hentry
  · exact h.entries k entry hk

theorem retired_of_recordRetirement (l : Ledger D) :
    (⟨id, e.facts, e.sources⟩ : RetiredArtifact D) ∈ (custody (recordRetirement l id e)).retired := by
  have hrow : (id, AckRetirement.Entry.retire e) ∈
      (l.entries.put id (AckRetirement.Entry.retire e)).rows :=
    Table.get_eq_some.mp (Table.get_put_self _ _ _)
  refine List.mem_append_right _ (List.mem_map.mpr ⟨_, List.mem_filter.mpr ⟨hrow, ?_⟩, rfl⟩)
  simp [AckRetirement.Entry.retire]

/-- What the retirement of one artifact means for one open member. -/
theorem rejectPartial_retire (hinv : CohortInv db log) (held : Held db cohort as)
    (hentry : Stored db.ledger id e) {a : Admission D} (ha : a ∈ as)
    (hopen : a.cursor < a.admittedCount)
    (hold : typedRejectPartialRetiredOverlap a (custody db.ledger) = .ok ()) :
    (Meets e a → typedRejectPartialRetiredOverlap a (custody (recordRetirement db.ledger id e)) =
      .error retiredOverlap) ∧
    (¬ Meets e a → typedRejectPartialRetiredOverlap a (custody (recordRetirement db.ledger id e)) =
      .ok ()) := by
  have hunlisted := held_unlisted hinv held ha hopen
  have hnone := (unlisted_retire hentry hunlisted).retiredFullProof
  have hnone' := hunlisted.retiredFullProof
  unfold typedRejectPartialRetiredOverlap at hold ⊢
  rw [hnone'] at hold
  rw [hnone]
  simp only [Option.isSome_none, Bool.false_eq_true, if_false] at hold ⊢
  constructor
  · rintro ⟨-, run, hrun, hlow, hhigh⟩
    rw [if_pos ⟨_, retired_of_recordRetirement db.ledger, run, hrun, hlow, hhigh⟩]
    rfl
  · intro hclear
    rw [if_neg]
    rintro ⟨r, hr, run, hrun, hlow, hhigh⟩
    rcases (custody_retire db.ledger id e).2 r hr with hr | rfl
    · rw [if_pos ⟨r, hr, run, hrun, hlow, hhigh⟩] at hold
      cases hold
    · exact hclear ⟨hopen, run, hrun, hlow, hhigh⟩

/-- Sequences of an artifact that no open member has ahead of it are not among what is left. -/
theorem coveredBy_retire_iff {x : ℕ} {a : Admission D} (hentry : Stored db.ledger id e)
    (hclear : ¬ Meets e a) (hx : a.remaining.Contains x) :
    CoveredBy (readyRuns (custody (recordRetirement db.ledger id e))) x ↔
      CoveredBy (readyRuns (custody db.ledger)) x := by
  refine ⟨coveredBy_retire, ?_⟩
  intro hcovered
  obtain ⟨b, hb, hbx⟩ := coveredBy_custody.mp hcovered
  obtain ⟨hstored, hready, hproof⟩ := mem_custody_active.mp hb
  have hne : b.id ≠ id := by
    rintro rfl
    obtain rfl : e = b.entry := Option.some.inj (hentry.symm.trans hstored)
    obtain ⟨run, hrun, hlow, hhigh⟩ := hbx
    have hx1 := hx.1
    have hx2 := hx.2
    refine hclear ⟨?_, run, hrun, by omega, by omega⟩
    simp only [Admission.remaining] at hx1 hx2
    omega
  refine coveredBy_custody.mpr ⟨b, mem_custody_active.mpr ⟨?_, hready, ?_⟩, hbx⟩
  · change (db.ledger.entries.put id _).get b.id = _
    rw [Table.get_put, if_neg hne]
    exact hstored
  · change (db.ledger.proofs.delete id).get b.id = _
    rw [Table.get_delete, if_neg hne]
    exact hproof

/-- Members that have passed all published records have nothing of them ahead. -/
theorem not_meets_of_passed {slices : List (Slice D)} (hledger : LedgerInv db)
    (h : Remaining codec db as slices) (hpassed : CustodyPassed db as)
    (hentry : Stored db.ledger id e) {a : Admission D} (ha : a ∈ as) : ¬ Meets e a := by
  rintro ⟨hopen, run, hrun, hlow, hhigh⟩
  have hin := (hledger.entries.runs id e hentry).2.inside run hrun
  have hcovers : Covers (physicalRuns e.facts) (run.stop - 1) := ⟨run, hrun, by omega, by omega⟩
  have := remaining_beyond hledger h hpassed ha hopen hentry hcovers
  omega

/-- A staging cohort has passed what is published. -/
theorem staged_passed (hinv : CohortInv db log) (held : Held db cohort as) {stage : Stage D}
    {as' : List (Admission D)} {g : PreparedGroup D} {rest : List (Slice D)}
    (h : Staged codec db cohort as' stage g rest) :
    Remaining codec db as (g.slices ++ rest) ∧ CustodyPassed db as := by
  refine ⟨remaining_frame h.remaining hinv h.held held (fun _ _ => rfl) rfl rfl, ?_⟩
  intro a ha
  obtain ⟨b, hb, hmoved⟩ := forall₂_left (held_moved h.held held (custody db.ledger)) ha
  obtain ⟨d, hd, hback⟩ := forall₂_right (held_moved held h.held (custody db.ledger)) ha
  have hcursor : a.cursor = b.cursor := by
    have hids : (as'.map (·.sourceId)).Nodup := by
      rw [held_ids h.held]
      exact hinv.distinct cohort h.held.stored
    obtain rfl : d = b := List.inj_on_of_nodup_map hids hd hb
      (hback.sourceId.trans hmoved.sourceId)
    exact le_antisymm hback.forward hmoved.forward
  rw [hmoved.start, hmoved.count, hcursor]
  exact h.passed b hb

end Acknowledged

/-- Members that do not meet an artifact agree without it as before. -/
theorem agreeing_retire {db : Db D} {id : D} {e : Entry D} {as bs : List (Admission D)}
    {slices : List (Slice D)} (hentry : Stored db.ledger id e)
    (h : Partition codec db.sources (custody db.ledger) as slices)
    (hbs : ∀ b ∈ bs, b ∈ as ∧ ¬ Meets e b) :
    Agreeing db.sources (custody (recordRetirement db.ledger id e)) bs := by
  intro a ha b hb x hax hbx huncovered
  obtain ⟨ha, hclear⟩ := hbs a ha
  rw [coveredBy_retire_iff hentry hclear hax] at huncovered
  exact h.agreeing a ha b (hbs b hb).1 x hax hbx huncovered

/-- The retirement of one ready artifact while a cohort is stored. What is left of the cohort can be
computed as before exactly when no open member has records of the artifact ahead of its cursor,
which is always so while a stage is reserved; otherwise the member is a custody conflict. -/
theorem acknowledgement_interferes_iff (codec : Codec D)
    (legacy : List (D × LegacyEntry D)) (actions : List (Action D)) (db : Db D)
    (hdb : (run codec (startProcess legacy) actions).db = db) (cohort : Cohort D)
    (as : List (Admission D)) (slices : List (Slice D)) (id : D) (e : Entry D)
    (hcohort : db.cohort = some cohort)
    (hload : cohort.members.mapM (persistedAdmission db.sources) = .ok as)
    (hslices : normalizeTypedAdmissions codec db.sources (custody db.ledger) as = .ok slices)
    (hentry : db.ledger.entries.get id = some e) (hready : e.state = .ready) :
    ((∀ a ∈ as, ¬ Meets e a) → ∃ out, normalizeTypedAdmissions codec db.sources
      (custody (recordRetirement db.ledger id e)) as = .ok out ∧ entriesOf out = entriesOf slices) ∧
    ((∃ a ∈ as, Meets e a) → ∃ a ∈ as, normalizeTypedAdmissions codec db.sources
      (custody (recordRetirement db.ledger id e)) as =
        .error (.admissionConflict a.sourceId retiredOverlap)) ∧
    (cohort.lifecycle = .staging → ∀ a ∈ as, ¬ Meets e a) := by
  obtain hconsistent := run_consistent codec legacy actions
  rw [hdb] at hconsistent
  have hledger : LedgerInv db := hconsistent.ledger
  have hinv : CohortInv db _ := hconsistent.cohort
  have held := held_of_loaded hcohort hload
  have hpartition := normalizeTypedAdmissions_spec hledger.sortedRuns hslices
  obtain ⟨p, hp, hactive⟩ := (hledger.proofs id).mpr ⟨e, hentry, hready⟩
  have hsorted : SortedRuns (readyRuns (custody (recordRetirement db.ledger id e))) :=
    (retires_inv hledger (.retire hentry hready hp hactive)).sortedRuns
  have hsub : ∀ r ∈ readyRuns (custody (recordRetirement db.ledger id e)),
      r ∈ readyRuns (custody db.ledger) := by
    intro r hr
    obtain ⟨b, hb, hrb⟩ := mem_readyRuns.mp hr
    exact mem_readyRuns.mpr ⟨b, (custody_retire db.ledger id e).1 b hb, hrb⟩
  have hreject : ∀ a ∈ as, a.cursor < a.admittedCount → _ := fun a ha hopen =>
    rejectPartial_retire hinv held hentry ha hopen (hpartition.comparable a ha hopen).retired
  refine ⟨?_, ?_, ?_⟩
  · intro hclear
    have hcomparable : ∀ a ∈ as, a.cursor < a.admittedCount → Comparable codec db.sources
        (custody (recordRetirement db.ledger id e)) a := fun a ha hopen =>
      comparable_retire (hpartition.comparable a ha hopen) hsub
        ((hreject a ha hopen).2 (hclear a ha))
    have hagree : Agreeing db.sources (custody (recordRetirement db.ledger id e)) as :=
      agreeing_retire hentry hpartition fun a ha => ⟨ha, hclear a ha⟩
    obtain ⟨out, hout⟩ := normalizeTypedAdmissions_succeeds hsorted hagree hcomparable
    refine ⟨out, hout, ?_⟩
    refine CohortPlans.partition_entries (normalizeTypedAdmissions_spec hsorted hout)
      ⟨hpartition.chain, hpartition.origin, ?_, hpartition.agree, hcomparable⟩
    intro x
    rw [hpartition.covers x]
    refine and_congr_right fun hin => not_congr ?_
    obtain ⟨a, ha, hx⟩ := hin
    exact (coveredBy_retire_iff hentry (hclear a ha) hx).symm
  · rintro ⟨a, ha, hmeets⟩
    have hagree : ∀ bs : List (Admission D), (∀ b ∈ bs, b ∈ as ∧
        ¬ InTheWay (custody (recordRetirement db.ledger id e)) b) →
        Agreeing db.sources (custody (recordRetirement db.ledger id e)) bs := by
      intro bs hbs
      refine agreeing_retire hentry hpartition fun b hb => ⟨(hbs b hb).1, fun hway => ?_⟩
      exact (hbs b hb).2 ⟨hway.1, (hreject b (hbs b hb).1 hway.1).1 hway⟩
    refine normalizeTypedAdmissions_conflict hsorted hagree hpartition.comparable hsub ?_
      ⟨a, ha, hmeets.1, (hreject a ha hmeets.1).1 hmeets⟩
    intro b hb hopen
    by_cases hway : Meets e b
    · exact .inr ((hreject b hb hopen).1 hway)
    · exact .inl ((hreject b hb hopen).2 hway)
  · intro hstaging a ha
    obtain ⟨stage, hstage⟩ := Option.isSome_iff_exists.mp (hledger.staging.mpr ⟨cohort, hcohort, hstaging⟩)
    obtain ⟨cohort', as', g, rest, hstaged⟩ := hconsistent.staged stage hstage
    obtain rfl : cohort = cohort' := Option.some.inj (hcohort.symm.trans hstaged.held.stored)
    obtain ⟨hremaining, hpassed⟩ := staged_passed hinv held hstaged
    exact not_meets_of_passed hledger hremaining hpassed hentry ha

/-- A source that overlaps a ready artifact is accepted, and the call stops before its cursor moves. -/
def overlapping : List (Action Bytes) :=
  [.capture 1 (SealedSources.sealedRow id 0 [SealedSources.packetRecord]), .closeVisit ⟨1, "drained"⟩,
    .publish ⟨1, ClockModel.empty, .missing, [[1]], [], false, none⟩,
    .capture 2 (SealedSources.sealedRow id 0 ResumedGroups.sampleRecords), .closeVisit ⟨2, "drained"⟩,
    .publish ⟨1, ClockModel.empty, .missing, [], [], false, some 1⟩]

def overlappingDb : Db Bytes :=
  (run ResumedGroups.sampleCodec (startProcess []) overlapping).db

def overlappingAdmission : Admission Bytes :=
  SealedSources.sealedAdmission id 2 0 ResumedGroups.sampleRecords 0

theorem overlappingDb_holds :
    overlappingDb.cohort = some ⟨.accepted, 1, some 2, 0, [memberOf overlappingAdmission]⟩ ∧
      [memberOf overlappingAdmission].mapM (persistedAdmission overlappingDb.sources) =
        .ok [overlappingAdmission] ∧
      normalizeTypedAdmissions ResumedGroups.sampleCodec overlappingDb.sources
          (custody overlappingDb.ledger) [overlappingAdmission] =
        .ok [⟨overlappingAdmission, 1, [SealedSources.packetRecord]⟩] ∧
      ((overlappingDb.ledger.entries.get [1]).all fun e =>
        decide (e.state = .ready ∧ Meets e overlappingAdmission)) = true ∧
      (overlappingDb.ledger.entries.get [1]).isSome = true := by
  decide +kernel

theorem acknowledgement_interferes_overlapping :
    ∃ e, overlappingDb.ledger.entries.get [1] = some e ∧
      normalizeTypedAdmissions ResumedGroups.sampleCodec overlappingDb.sources
          (custody (recordRetirement overlappingDb.ledger [1] e)) [overlappingAdmission] =
        .error (.admissionConflict 2 retiredOverlap) := by
  obtain ⟨hcohort, hload, hslices, hall, hsome⟩ := overlappingDb_holds
  obtain ⟨e, hentry⟩ := Option.isSome_iff_exists.mp hsome
  rw [hentry, Option.all_some, decide_eq_true_eq] at hall
  refine ⟨e, hentry, ?_⟩
  obtain ⟨a, ha, hconflict⟩ := (acknowledgement_interferes_iff ResumedGroups.sampleCodec []
    overlapping overlappingDb (by rw [overlappingDb]) _ _ _ [1] e hcohort hload hslices hentry
      hall.1).2.1 ⟨_, List.mem_singleton_self _, hall.2⟩
  obtain rfl := List.mem_singleton.mp ha
  exact hconflict

end AckInterference
