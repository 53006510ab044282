import OmiCollector.CohortRounds

/-! A reserved stage is the first group of what remains of its cohort, from its reservation to its
commit.

The stage keeps ranges only, and a process may stop between any two steps. What it stands for is
therefore an invariant of the database: no step in between changes the rows, the cursors or the
custody that the group was cut from, and an acknowledged artifact lies before all of them. -/
namespace StagedGroups

open AudioMachine (AudioPhase CohortPhase)
open ByteCodec CaptureModel KeyedTable SpanCover SpanWalk PublicationLedger TypedSlices
open SlicePartition PublicationGroups PublicationStage PublicationStore PublicationMachine
open PublicationEffects LedgerOrder CohortMembers RemainingSlices CohortRounds

variable {D : Type} [DecidableEq D]

/-- A reserved stage and the group it stands for, in front of the rest of its cohort. -/
structure Staged (codec : Codec D) (db : Db D) (cohort : Cohort D) (as : List (Admission D))
    (stage : Stage D) (g : PreparedGroup D) (rest : List (Slice D)) : Prop where
  held : Held db cohort as
  staging : cohort.lifecycle = .staging
  staged : db.stage = some stage
  remaining : Remaining codec db as (g.slices ++ rest)
  grouped : recordGroups codec (entriesOf (g.slices ++ rest)) =
    entriesOf g.slices :: recordGroups codec (entriesOf rest)
  passed : CustodyPassed db as
  bound : ∀ s ∈ g.slices, s.admission ∈ as
  prepared : prepareV2Group codec g.slices g.clock g.initialFrontier = .ok g
  frozen : stageOf codec g stage.artifactId stage.order cohort.cursor =
    { stage with failed := false }

def StagedInv (codec : Codec D) (db : Db D) : Prop :=
  ∀ stage, db.stage = some stage → ∃ cohort as g rest, Staged codec db cohort as stage g rest

variable {codec : Codec D}

theorem Staged.descriptor {db : Db D} {cohort : Cohort D} {as : List (Admission D)}
    {stage : Stage D} {g : PreparedGroup D} {rest : List (Slice D)}
    (h : Staged codec db cohort as stage g rest) : stage.descriptor = v2Descriptor codec g :=
  (congrArg Stage.descriptor h.frozen).symm

/-- Steps elsewhere keep the stage and what it stands for. -/
theorem Staged.frame {db db' : Db D} {log : Log D} {cohort : Cohort D} {as : List (Admission D)}
    {stage stage' : Stage D} {g : PreparedGroup D} {rest : List (Slice D)}
    (h : Staged codec db cohort as stage g rest) (hinv : CohortInv db log)
    (hcohort : db'.cohort = db.cohort) (hstage : db'.stage = some stage')
    (hsame : { stage' with failed := false } = { stage with failed := false })
    (hrows : ∀ id ∈ cohortSources db, db'.sources.get id = db.sources.get id)
    (hcustody : custody db'.ledger = custody db.ledger)
    (hfrontier : db'.ledger.v2Frontier = db.ledger.v2Frontier) :
    Staged codec db' cohort as stage' g rest := by
  have hrows' : ∀ a ∈ as, db'.sources.get a.sourceId = db.sources.get a.sourceId := by
    intro a ha
    apply hrows
    rw [mem_cohortSources h.held.stored, ← held_ids h.held]
    exact List.mem_map_of_mem ha
  have hid : stage'.artifactId = stage.artifactId := by simpa using congrArg Stage.artifactId hsame
  have horder : stage'.order = stage.order := by simpa using congrArg Stage.order hsame
  refine ⟨held_frame h.held hcohort hrows', h.staging, hstage, ?_, h.grouped, ?_, h.bound,
    h.prepared, ?_⟩
  · exact remaining_frame h.remaining hinv h.held h.held hrows' hcustody hfrontier
  · unfold CustodyPassed
    rw [hcustody]
    exact h.passed
  · refine Eq.trans ?_ hsame.symm
    rw [hid, horder]
    exact h.frozen

/-- A stage reserved for the first group of what remains. -/
theorem staged_reserve {db : Db D} {log : Log D} {cohort : Cohort D} {as : List (Admission D)}
    {g : PreparedGroup D} {rest : List (Slice D)} {later : List (List (ℕ × Bytes))}
    {artifactId : D} {proof : ReplayProof D} (hledger : LedgerInv db) (hinv : CohortInv db log)
    (held : Held db cohort as) (h : Remaining codec db as (g.slices ++ rest))
    (hgrouped : recordGroups codec (entriesOf (g.slices ++ rest)) = entriesOf g.slices :: later)
    (hpassed : CustodyPassed db as) (hbound : ∀ s ∈ g.slices, s.admission ∈ as)
    (hprepared : prepareV2Group codec g.slices g.clock g.initialFrontier = .ok g)
    (hfresh : db.ledger.proofs.get artifactId = none) :
    Staged codec (reservation cohort
        (stageOf codec g artifactId db.ledger.nextPublicOrder cohort.cursor) proof db)
      { cohort with lifecycle := .staging } as
      (stageOf codec g artifactId db.ledger.nextPublicOrder cohort.cursor) g rest := by
  have hnot : ¬ db.ledger.IsReady artifactId := by
    intro hready
    obtain ⟨p, hp, -⟩ := (hledger.proofs artifactId).mpr hready
    rw [hfresh] at hp
    cases hp
  have hcustody : custody (reservation cohort
      (stageOf codec g artifactId db.ledger.nextPublicOrder cohort.cursor) proof db).ledger =
        custody db.ledger := custody_reservation hnot
  refine ⟨⟨rfl, held.members, held.current⟩, rfl, rfl, ?_, ?_, ?_, hbound, hprepared, rfl⟩
  · exact remaining_frame h hinv held held (fun _ _ => rfl) hcustody rfl
  · rw [hgrouped, recordGroups_front hgrouped]
  · unfold CustodyPassed
    rw [hcustody]
    exact hpassed

/-- No published artifact, ready or retired, has a sequence of a member that passed them all. -/
theorem remaining_beyond {db : Db D} {as : List (Admission D)} {slices : List (Slice D)}
    (hledger : LedgerInv db) (h : Remaining codec db as slices) (hpassed : CustodyPassed db as)
    {a : Admission D} (ha : a ∈ as) (hopen : a.cursor < a.admittedCount) {id : D} {e : Entry D}
    (he : Stored db.ledger id e) {x : ℕ} (hx : Covers (physicalRuns e.facts) x) :
    x < a.remaining.start := by
  have hfree : ¬ CoveredBy (readyRuns (custody db.ledger)) (a.sequenceStart + a.cursor) := by
    rcases hpassed a ha with hdone | hfree
    · omega
    · exact hfree
  have hfirst : a.remaining.Contains (a.sequenceStart + a.cursor) :=
    ⟨le_rfl, Nat.add_lt_add_left hopen _⟩
  obtain ⟨s, hs, hsx⟩ := (h.partition.covers _).mpr ⟨⟨a, ha, hfirst⟩, hfree⟩
  have hbefore := covered_before hledger (h.after s hs) he hx
  exact hbefore.trans_le hsx.1

/-- The custody after an acknowledgement: one ready artifact has become a retired one. -/
theorem custody_retire (l : Ledger D) (id : D) (e : Entry D) :
    (∀ a, a ∈ (custody (recordRetirement l id e)).active → a ∈ (custody l).active) ∧
      ∀ r ∈ (custody (recordRetirement l id e)).retired,
        r ∈ (custody l).retired ∨ r = ⟨id, e.facts, e.sources⟩ := by
  constructor
  · intro a ha
    obtain ⟨h1, h2, h3⟩ := mem_custody_active.mp ha
    unfold Stored at h1
    simp only [recordRetirement, Table.get_put, Table.get_delete] at h1 h3
    by_cases hid : a.id = id
    · rw [if_pos hid] at h3
      cases h3
    · rw [if_neg hid] at h1 h3
      exact mem_custody_active.mpr ⟨h1, h2, h3⟩
  · intro r hr
    unfold custody recordRetirement at hr
    unfold custody
    simp only [List.mem_append, List.mem_map, List.mem_filter] at hr ⊢
    rcases hr with hr | ⟨row, ⟨hrow, hstate⟩, rfl⟩
    · exact .inl (.inl hr)
    · rw [Table.mem_rows_put] at hrow
      rcases hrow with ⟨hid, hval⟩ | ⟨hid, hrow⟩
      · right
        rw [hid, hval]
        rfl
      · exact .inl (.inr ⟨row, ⟨hrow, hstate⟩, rfl⟩)

/-- A sequence of a retired artifact is no longer published by a ready one. -/
theorem coveredBy_retire {l : Ledger D} {id : D} {e : Entry D} {x : ℕ}
    (h : CoveredBy (readyRuns (custody (recordRetirement l id e))) x) :
    CoveredBy (readyRuns (custody l)) x := by
  obtain ⟨a, ha, hax⟩ := coveredBy_custody.mp h
  exact coveredBy_custody.mpr ⟨a, (custody_retire l id e).1 a ha, hax⟩

/-- An acknowledgement leaves the group of a stage as it is. -/
theorem Staged.retire {db : Db D} {log : Log D} {ledger : Ledger D} {cohort : Cohort D}
    {as : List (Admission D)} {stage : Stage D} {g : PreparedGroup D} {rest : List (Slice D)}
    (h : Staged codec db cohort as stage g rest) (hledger : LedgerInv db) (hinv : CohortInv db log)
    (hretires : Retires db.ledger ledger) :
    Staged codec { db with ledger := ledger } cohort as stage g rest := by
  cases hretires with
  | @retire id e p entry ready proof active =>
    obtain ⟨hactive, hretired⟩ := custody_retire db.ledger id e
    have hbeyond : ∀ a ∈ as, ∀ x, a.remaining.Contains x →
        ¬ CoveredBy (readyRuns (custody db.ledger)) x := by
      intro a ha x hx hcovered
      obtain ⟨b, hb, hbx⟩ := coveredBy_custody.mp hcovered
      have hopen : a.cursor < a.admittedCount := by
        have h1 := hx.1
        have h2 := hx.2
        simp only [Admission.remaining] at h1 h2
        omega
      have := remaining_beyond hledger h.remaining h.passed ha hopen
        (mem_custody_active.mp hb).1 hbx
      exact absurd hx.1 (by omega)
    refine ⟨⟨h.held.stored, h.held.members, h.held.current⟩, h.staging, h.staged, ⟨?_,
      h.remaining.after⟩, h.grouped, ?_, h.bound, h.prepared, h.frozen⟩
    · refine partition_shift (show Partition codec _ _ _ ([] ++ _) from h.remaining.partition)
        (fun _ _ => rfl)
        (List.forall₂_same.mpr fun a _ => moved_refl _ a)
        (fun a ha => ⟨held_bound hinv h.held a ha, h.held.current a ha⟩) ?_ ?_ ?_ ?_
      · intro a ha hopen
        have hold := (h.remaining.partition.comparable a ha hopen).retired
        have hunlisted := held_unlisted hinv h.held ha hopen
        unfold typedRejectPartialRetiredOverlap at hold ⊢
        rw [hunlisted.retiredFullProof] at hold
        simp only [Option.isSome_none, Bool.false_eq_true, if_false] at hold
        split
        · rfl
        · rw [if_neg]
          intro hex
          obtain ⟨r, hr, run, hrun, h1, h2⟩ := hex
          rcases hretired r hr with hr | rfl
          · rw [if_pos ⟨r, hr, run, hrun, h1, h2⟩] at hold
            cases hold
          · have hin := (hledger.entries.runs id e entry).2.inside run hrun
            have hcovers : Covers (physicalRuns e.facts) (run.stop - 1) :=
              ⟨run, hrun, by omega, by omega⟩
            have := remaining_beyond hledger h.remaining h.passed ha hopen entry hcovers
            omega
      · intro x hx hcovered
        exact ((h.remaining.partition.covers x).mp hx).2 (coveredBy_retire hcovered)
      · exact fun a ha x hax _ => ⟨hbeyond a ha x hax, seqIn_nil x⟩
      · intro r hr
        obtain ⟨a, ha, hra⟩ := mem_readyRuns.mp hr
        exact .inl (mem_readyRuns.mpr ⟨a, hactive a ha, hra⟩)
    · intro a ha
      rcases h.passed a ha with hdone | hfree
      · exact .inl hdone
      · exact .inr fun hc => hfree (coveredBy_retire hc)

section Commit

variable {db : Db D} {log : Log D} {cohort : Cohort D} {as : List (Admission D)} {stage : Stage D}
  {g : PreparedGroup D} {rest : List (Slice D)} {proof : ReplayProof D}
  {coverage : List (ℕ × CaptureSource D)}

/-- How far a group moves the members that hold it. -/
def groupProgress (g : PreparedGroup D) (as : List (Admission D)) : List (Admission D × ℕ) :=
  as.map fun a => (a, typedMemberProgress g.facts a)

/-- The entry and the proof of a committed stage join the ready artifacts. -/
theorem mem_custody_commit {progress : List (Admission D × ℕ)}
    (hfresh : db.ledger.entries.get stage.artifactId = none) {a : ActiveArtifact D} :
    a ∈ (custody (stageCommit codec cohort stage g proof progress coverage db).ledger).active ↔
      a ∈ (custody db.ledger).active ∨ a = ⟨stage.artifactId,
        v2LedgerEntry codec g stage proof.recordsSha256, { proof with lifecycle := .active }⟩ := by
  rw [mem_custody_active, mem_custody_active]
  unfold Stored
  simp only [stageCommit, Table.get_put]
  obtain ⟨id, entry, p⟩ := a
  by_cases hid : id = stage.artifactId
  · subst hid
    simp only [if_true, hfresh]
    constructor
    · intro h
      obtain ⟨h1, -, h3⟩ := h
      right
      rw [← Option.some.inj h1, ← Option.some.inj h3]
    · intro h
      rcases h with ⟨h1, -⟩ | h
      · cases h1
      · obtain ⟨-, rfl, rfl⟩ : stage.artifactId = stage.artifactId ∧ entry = _ ∧ p = _ := by
          simpa using h
        exact ⟨rfl, rfl, rfl⟩
  · simp [hid]

/-- The committed entry is ready, and no other entry changes. -/
theorem retired_commit {progress : List (Admission D × ℕ)}
    (hfresh : db.ledger.entries.get stage.artifactId = none) :
    (custody (stageCommit codec cohort stage g proof progress coverage db).ledger).retired =
      (custody db.ledger).retired := by
  have hrows : ((stageCommit codec cohort stage g proof progress coverage
      db).ledger.entries.rows.filter fun r => r.2.state = .retired) =
        db.ledger.entries.rows.filter fun r => r.2.state = .retired := by
    simp only [stageCommit, Table.put, dif_neg (Table.get_eq_none.mp hfresh), List.filter_append]
    simp [v2LedgerEntry]
  simp only [custody, hrows]
  rfl

omit [DecidableEq D] in
/-- Every record of a group is held by its proof at its place. -/
theorem proof_holds {order : ℕ} {manifest : D} {lifecycle : ProofLifecycle} (hchain : Chain g.slices)
    (hprepared : prepareV2Group codec g.slices g.clock g.initialFrontier = .ok g)
    (hproof : stageProof codec g order manifest = .ok proof) {r : Span × ReadyKey D}
    (hr : r ∈ segmentsFrom { proof with lifecycle := lifecycle } 0 (physicalRuns g.facts)) {x : ℕ}
    (hx : r.1.Contains x) : ∃ s ∈ g.slices, s.span.Contains x ∧
      ∀ raw, s.rawAt x = some raw → ReadyMatch codec r.2 x raw := by
  obtain ⟨hne, -, hfacts, -⟩ := prepareV2Group_ok hprepared
  rw [hfacts] at hr
  obtain ⟨hkey, published, hentry⟩ := segmentsFrom_entry hchain hne hr hx
  obtain ⟨s, hs, hsx, hpublished⟩ := mem_entriesOf.mp (List.mem_of_getElem? hentry)
  refine ⟨s, hs, hsx, ?_⟩
  intro raw hraw
  obtain rfl : published = raw := Option.some.inj (hpublished.symm.trans hraw)
  have hrecord : g.records[r.2.readyOffset + (x - r.2.runStart)]? = some published := by
    rw [PreparedGroup.records, List.getElem?_map, hentry]
    rfl
  unfold ReadyMatch
  rw [hkey]
  exact (stageProof_ok hproof).2.2.2.2.2.2 _ published hrecord

theorem coveredBy_commit {progress : List (Admission D × ℕ)} (hchain : Chain g.slices)
    (hprepared : prepareV2Group codec g.slices g.clock g.initialFrontier = .ok g)
    (hfresh : db.ledger.entries.get stage.artifactId = none) (x : ℕ) :
    CoveredBy (readyRuns (custody
        (stageCommit codec cohort stage g proof progress coverage db).ledger)) x ↔
      CoveredBy (readyRuns (custody db.ledger)) x ∨ SeqIn g.slices x := by
  obtain ⟨hne, -, hfacts, -⟩ := prepareV2Group_ok hprepared
  have hgroup : Covers (physicalRuns g.facts) x ↔ SeqIn g.slices x := by
    rw [hfacts]
    exact covers_groupFacts hchain hne x
  rw [coveredBy_custody, coveredBy_custody, ← hgroup]
  constructor
  · intro h
    obtain ⟨a, ha, hax⟩ := h
    rcases (mem_custody_commit hfresh).mp ha with ha | rfl
    · exact .inl ⟨a, ha, hax⟩
    · exact .inr hax
  · intro h
    rcases h with ⟨a, ha, hax⟩ | hx
    · exact ⟨a, (mem_custody_commit hfresh).mpr (.inl ha), hax⟩
    · exact ⟨_, (mem_custody_commit hfresh).mpr (.inr rfl), hx⟩

theorem advance_staged (h : Staged codec db cohort as stage g rest) (hledger : LedgerInv db)
    (hinv : CohortInv db log)
    (hcoverage : typedCoverageProposals db.sources (groupProgress g as) = .ok coverage) :
    Advance db cohort (groupProgress g as) coverage := by
  have hfst : (groupProgress g as).map Prod.fst = as := by simp [groupProgress, Function.comp_def]
  refine ⟨hfst.symm ▸ h.held, ?_, hcoverage⟩
  intro p hp
  obtain ⟨a, ha, rfl⟩ := List.mem_map.mp hp
  have hruns := (hledger.stage stage h.staged).runs
  rw [h.descriptor] at hruns
  simp only [v2Descriptor] at hruns
  obtain ⟨h1, h2, -⟩ := typedMemberProgress_spec hruns (held_bound hinv h.held a ha)
  exact ⟨h1, h2⟩

/-- What the commit of a stage leaves: the rest behind its group. -/
theorem Staged.commit (h : Staged codec db cohort as stage g rest) (hledger : LedgerInv db)
    (hinv : CohortInv db log) {order : ℕ} {manifest : D}
    (hproof : stageProof codec g order manifest = .ok proof)
    (hfresh : db.ledger.entries.get stage.artifactId = none)
    (hcoverage : typedCoverageProposals db.sources (groupProgress g as) = .ok coverage) :
    Remaining codec (stageCommit codec cohort stage g proof (groupProgress g as) coverage db)
      (movedTo (groupProgress g as)) rest := by
  have hadvance := advance_staged h hledger hinv hcoverage
  have hdistinct := hinv.distinct cohort h.held.stored
  have hchain : Chain g.slices :=
    h.remaining.partition.chain.sublist (List.sublist_append_left g.slices rest)
  have hfst : (groupProgress g as).map Prod.fst = as := by simp [groupProgress, Function.comp_def]
  obtain ⟨hne, -, hfacts, -, -, hlast⟩ := prepareV2Group_ok h.prepared
  refine ⟨?_, ?_⟩
  · have hp := h.remaining.partition
    rw [← hfst] at hp
    refine partition_publish hp ?_ (advance_moved hadvance ?_) ?_ ?_ ?_ ?_
    · exact fun a _ => sameRecords_applyTypedCoverage _ _ _
    · intro p hp x h1 h2
      obtain ⟨a, ha, rfl⟩ := List.mem_map.mp hp
      have hruns := (hledger.stage stage h.staged).runs
      rw [h.descriptor] at hruns
      simp only [v2Descriptor] at hruns
      obtain ⟨-, -, hpass, -⟩ := typedMemberProgress_spec hruns (held_bound hinv h.held a ha)
      have hcovers := hpass x h1 h2
      rw [hfacts, covers_groupFacts hchain hne] at hcovers
      exact (coveredBy_commit hchain h.prepared hfresh x).mpr (.inr hcovers)
    · exact fun a ha => ⟨advance_bound hadvance a ha, advance_current hadvance hdistinct rfl a ha⟩
    · exact retired_commit hfresh
    · exact coveredBy_commit hchain h.prepared hfresh
    · intro r hr
      obtain ⟨a, ha, hra⟩ := mem_readyRuns.mp hr
      rcases (mem_custody_commit hfresh).mp ha with ha | rfl
      · exact .inl (mem_readyRuns.mpr ⟨a, ha, hra⟩)
      · exact .inr fun x hx => proof_holds hchain h.prepared hproof hra hx
  · -- The rest lies behind the last record of the group.
    intro s hs f hf
    obtain rfl : g.finalFrontier = f := Option.some.inj hf
    rw [getLast_entriesOf hchain hne] at hlast
    have hbetween := (List.pairwise_append.mp h.remaining.partition.chain.ordered).2.2
      (g.slices.getLast hne) (List.getLast_mem hne) s hs
    have hnonempty := hchain.nonempty _ (List.getLast_mem hne)
    have hsequence := Option.some.inj hlast
    omega

end Commit

section Reload

variable {db : Db D} {log : Log D} {cohort : Cohort D} {as as' : List (Admission D)}
  {stage : Stage D} {g g' : PreparedGroup D} {rest : List (Slice D)}

omit [DecidableEq D] in
/-- Slices with one range that hold what their source stores are the same. -/
theorem sameSlice_of_range {sources : Table ℕ (SourceRow D)} {s s' : Slice D}
    (hs : ReadsFrom codec sources s) (hs' : ReadsFrom codec sources s')
    (h : stageRange codec s = stageRange codec s') : SameSlice s s' := by
  have hid : s'.admission.sourceId = s.admission.sourceId :=
    (congrArg StageRange.sourceId h).symm
  have hordinal : s'.startOrdinal = s.startOrdinal := (congrArg StageRange.startOrdinal h).symm
  have hcount : s'.records.length = s.records.length := (congrArg StageRange.recordCount h).symm
  have hsequence : s'.startSequence = s.startSequence :=
    (congrArg StageRange.sequenceStart h).symm
  have hstart : s'.admission.sequenceStart = s.admission.sequenceStart := by
    unfold Slice.startSequence at hsequence
    omega
  refine ⟨hid, hstart, hordinal, ?_⟩
  apply List.ext_getElem?
  intro i
  by_cases hi : i < s.records.length
  · have hx : s.span.Contains (s.startSequence + i) := by
      refine ⟨Nat.le_add_right _ _, ?_⟩
      simp only [Slice.span, nextSequence_eq]
      omega
    have hx' : s'.span.Contains (s.startSequence + i) := by
      refine ⟨?_, ?_⟩
      · simp only [Slice.span]
        omega
      · simp only [Slice.span, nextSequence_eq]
        omega
    have h1 := hs.rows _ hx
    have h2 := hs'.rows _ hx'
    rw [hid, hstart] at h2
    have hraw := h2.trans h1.symm
    unfold Slice.rawAt at hraw
    rw [if_pos (by omega), if_pos (by omega), hsequence] at hraw
    simpa using hraw
  · rw [List.getElem?_eq_none (by omega), List.getElem?_eq_none (by omega)]

/-- A stage that is loaded again is the group it was reserved for. -/
theorem Staged.reload (h : Staged codec db cohort as stage g rest) (hinv : CohortInv db log)
    (held' : Held db cohort as') (hloaded : Loaded codec db.sources as' cohort.cursor stage g') :
    Staged codec db cohort as' stage g' rest := by
  have hfailed : stage.failed = false := by
    rw [← hloaded.stage]
    rfl
  have hstage : { stage with failed := false } = stage := by
    rw [← hfailed]
  have hdescriptor : v2Descriptor codec g = v2Descriptor codec g' := by
    rw [← h.descriptor, ← hloaded.stage]
    rfl
  have hranges : g.slices.map (stageRange codec) = g'.slices.map (stageRange codec) :=
    congrArg Descriptor.sources hdescriptor
  have hsame : List.Forall₂ SameSlice g.slices g'.slices := by
    have hall : List.Forall₂ (fun s s' => stageRange codec s = stageRange codec s')
        g.slices g'.slices := by
      have heq : List.Forall₂ Eq (g.slices.map (stageRange codec))
          (g'.slices.map (stageRange codec)) := hranges ▸ List.forall₂_refl _
      simpa [List.forall₂_map_left_iff, List.forall₂_map_right_iff] using heq
    refine List.forall₂_iff_zip.mpr ⟨hall.length_eq, ?_⟩
    intro s s' hzip
    obtain ⟨hs, hs'⟩ := List.of_mem_zip hzip
    exact sameSlice_of_range (h.remaining.partition.origin s (List.mem_append_left _ hs)).1
      (hloaded.reads s' hs').2 (List.forall₂_zip hall hzip)
  have hall : List.Forall₂ SameSlice (g.slices ++ rest) (g'.slices ++ rest) :=
    List.rel_append hsame (List.forall₂_same.mpr fun s _ => SameSlice.refl s)
  refine ⟨held', h.staging, h.staged, ?_, ?_, ?_, fun s hs => (hloaded.reads s hs).1,
    hloaded.prepared, ?_⟩
  · exact remaining_frame (remaining_same h.remaining hall) hinv h.held held' (fun _ _ => rfl) rfl rfl
  · rw [entriesOf_same hall, entriesOf_same hsame]
    exact h.grouped
  · intro a' ha'
    obtain ⟨a, ha, hmoved⟩ := forall₂_left (held_moved h.held held' (custody db.ledger)) ha'
    obtain ⟨b, hb, hback⟩ := forall₂_right (held_moved held' h.held (custody db.ledger)) ha'
    have hcursor : a'.cursor = a.cursor := by
      have hmembers := h.held.members.trans held'.members.symm
      have hids : (as.map (·.sourceId)).Nodup := by
        rw [held_ids h.held]
        exact hinv.distinct cohort h.held.stored
      obtain rfl : b = a := List.inj_on_of_nodup_map hids hb ha
        (hback.sourceId.trans hmoved.sourceId)
      exact le_antisymm hback.forward hmoved.forward
    rw [hmoved.start, hmoved.count, hcursor]
    exact h.passed a ha
  · rw [hstage]
    exact hloaded.stage

end Reload

/-- Without a staging cohort there is no stage. -/
theorem unstaged_of_not_staging {db : Db D} (h : LedgerInv db)
    (hnot : ∀ cohort, db.cohort = some cohort → cohort.lifecycle ≠ .staging) : db.stage = none := by
  rw [← Option.not_isSome_iff_eq_none, h.staging]
  intro hc
  obtain ⟨cohort, hcohort, hstaging⟩ := hc
  exact hnot cohort hcohort hstaging

theorem unstaged_of_idle {db : Db D} (h : LedgerInv db) (hidle : db.cohort = none) :
    db.stage = none :=
  unstaged_of_not_staging h fun cohort hc => by
    rw [hidle] at hc
    cases hc

theorem stagedInv_of_unstaged {db : Db D} (h : db.stage = none) : StagedInv codec db := by
  intro stage hs
  rw [h] at hs
  cases hs

/-- Steps that touch neither the stage nor the members keep it. -/
theorem StagedInv.frame {db db' : Db D} {log : Log D} (h : StagedInv codec db)
    (hinv : CohortInv db log) (hcohort : db'.cohort = db.cohort) (hstage : db'.stage = db.stage)
    (hrows : ∀ id ∈ cohortSources db, db'.sources.get id = db.sources.get id)
    (hcustody : custody db'.ledger = custody db.ledger)
    (hfrontier : db'.ledger.v2Frontier = db.ledger.v2Frontier) : StagedInv codec db' := by
  intro stage hs
  obtain ⟨cohort, as, g, rest, hstaged⟩ := h stage (hstage ▸ hs)
  exact ⟨cohort, as, g, rest, hstaged.frame hinv hcohort hs rfl hrows hcustody hfrontier⟩

/-- Every durable step keeps what the stage stands for. -/
theorem effect_stagedInv {s s' : Db D × Log D} (hledger : LedgerInv s.1) (hinv : CohortInv s.1 s.2)
    (h : StagedInv codec s.1) (heffect : Effect codec s s') : StagedInv codec s'.1 := by
  cases heffect with
  | @custody db log cohort admissions slices cursors coverage held accepted _ _ _ =>
    apply stagedInv_of_unstaged
    change db.stage = none
    refine unstaged_of_not_staging hledger fun c hc => ?_
    obtain rfl : cohort = c := Option.some.inj (held.stored.symm.trans hc)
    simp [accepted]
  | @reserve db log cohort admissions g rest later artifactId proof held accepted unstaged remaining
      grouped passed bound prepared initial fresh proof_eq =>
    intro stage hs
    obtain rfl := Option.some.inj hs
    exact ⟨_, _, g, rest, staged_reserve hledger hinv held remaining grouped passed bound prepared
      fresh⟩
  | @materialize db log stage staged absent =>
    exact h.frame hinv rfl rfl (fun _ _ => rfl) rfl rfl
  | @latch db log =>
    intro stage hs
    obtain ⟨old, hold, rfl⟩ := Option.map_eq_some_iff.mp hs
    obtain ⟨cohort, as, g, rest, hstaged⟩ := h old hold
    exact ⟨cohort, as, g, rest, hstaged.frame hinv rfl hs rfl (fun _ _ => rfl) rfl rfl⟩
  | commit => exact stagedInv_of_unstaged rfl
  | @accept db log o admissions slices idle =>
    have hunstaged : db.stage = none := unstaged_of_idle hledger idle
    exact stagedInv_of_unstaged hunstaged
  | @cover db log a proposal idle =>
    have hunstaged : db.stage = none := unstaged_of_idle hledger idle
    exact stagedInv_of_unstaged hunstaged
  | @block db log a idle =>
    have hunstaged : db.stage = none := unstaged_of_idle hledger idle
    exact stagedInv_of_unstaged hunstaged
  | summaries => exact h.frame hinv rfl rfl (fun _ _ => rfl) rfl rfl
  | wait => exact h.frame hinv rfl rfl (fun _ _ => rfl) rfl rfl
  | coalesce => exact h.frame hinv rfl rfl (fun _ _ => rfl) rfl rfl
  | clear clears =>
    cases clears with
    | clear kept => exact h.frame hinv rfl rfl (fun _ _ => rfl) rfl rfl
  | failStop => exact h
  | @retirePage db log id cursor stop row stored retiring free cursor_eq covered bound =>
    refine h.frame hinv rfl rfl ?_ rfl rfl
    intro k hk
    have hne : k ≠ id := fun heq => free (heq ▸ hk)
    simp only [PublicationMachine.retirePage, Table.get_adjust, if_neg hne]
  | @finish db log id row stored retiring free cursor_eq =>
    refine h.frame hinv rfl rfl ?_ rfl rfl
    intro k hk
    have hne : k ≠ id := fun heq => free (heq ▸ hk)
    simp only [finishRetirement, Table.get_delete, if_neg hne]

/-- Everything that holds of the database between any two steps. -/
structure Sound (codec : Codec D) (s : Db D × Log D) : Prop where
  ledger : LedgerInv s.1
  cohort : CohortInv s.1 s.2
  staged : StagedInv codec s.1

theorem effect_sound {s s' : Db D × Log D} (h : Sound codec s) (heffect : Effect codec s s') :
    Sound codec s' :=
  ⟨effect_inv h.ledger heffect, effect_cohortInv h.ledger h.cohort heffect,
    effect_stagedInv h.ledger h.cohort h.staged heffect⟩

theorem change_sound {s s' : Db D × Log D} (h : Sound codec s) (hchange : Change codec s s') :
    Sound codec s' := by
  cases hchange with
  | program effect => exact effect_sound h effect
  | closures =>
    exact ⟨h.ledger.congr rfl rfl Iff.rfl,
      h.cohort.congr rfl (fun _ ht => ht) (fun _ _ => rfl) h.cohort.captured,
      h.staged.frame h.cohort rfl rfl (fun _ _ => rfl) rfl rfl⟩
  | retire retires =>
    refine ⟨retires_inv h.ledger retires, retires_cohortInv h.cohort retires, ?_⟩
    intro stage hs
    obtain ⟨cohort, as, g, rest, hstaged⟩ := h.staged stage hs
    exact ⟨cohort, as, g, rest, hstaged.retire h.ledger h.cohort retires⟩
  | @capture db log id row fresh valid =>
    refine ⟨h.ledger.congr rfl rfl Iff.rfl, capture_cohortInv h.cohort fresh, ?_⟩
    refine h.staged.frame h.cohort rfl rfl ?_ rfl rfl
    intro k hk
    have hne : k ≠ id := fun heq => fresh (heq ▸ captured_cohort h.cohort hk)
    simp only [Table.get_put, if_neg hne]

end StagedGroups
