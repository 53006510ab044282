import OmiCollector.SettledSources
import OmiCollector.StepRuns

/-! Publication takes the steps of its relation, and no others.

Each function of the program is followed once: what it reads, the step it takes with everything it
has established by then, and what it leaves. A process may stop before any of those steps, so the
invariants hold in whatever a stopped call leaves behind. -/
namespace PublicationRuns

open AudioMachine (AudioPhase CohortPhase)
open ByteCodec CaptureModel KeyedTable SpanCover SpanWalk PublicationLedger RefusalLogic StepRuns
open TypedSlices SlicePartition PublicationGroups PublicationStage PublicationStore PublicationMachine
open PublicationEffects LedgerOrder CohortMembers RemainingSlices CohortRounds StagedGroups
open SettledSources
open Checks (mapM_ok exists_of_mem_mapM)

variable {D : Type} [DecidableEq D]

/-- The publication program over its database and its history. -/
def program (codec : Codec D) : Durable (World D) (Db D × Log D) where
  point w := (w.db, w.log)
  Step := Effect codec
  Inv := Consistent codec
  preserved := effect_consistent

variable {codec : Codec D} {w : World D} {α β : Type}

section Primitives

variable {Q : α → World D → Prop}

theorem runs_fromExcept {x : Except Failure α} (h : ∀ a, x = .ok a → Q a w) :
    Runs (program codec) (fromExcept x) w Q := by
  cases x with
  | ok a => exact runs_pure (h a rfl)
  | error e => exact runs_throw

theorem runs_readDb_bind {f : Db D → PubM D α} (h : Runs (program codec) (f w.db) w Q) :
    Runs (program codec) (readDb >>= f) w Q := by
  intro hinv
  have hread : wp (readDb >>= f) w = wp (f w.db) w := rfl
  rw [hread]
  exact h hinv

/-- A transaction is one step of the program. -/
theorem runs_transact {f : Db D → Db D} {g : Log D → Log D} {P : Unit → World D → Prop}
    (hstep : Consistent codec (w.db, w.log) → Effect codec (w.db, w.log) (f w.db, g w.log))
    (h : ∀ t, t.db = f w.db → t.log = g w.log → P () t) :
    Runs (program codec) (transact f g) w P := by
  refine runs_of_inv fun hinv => ?_
  unfold transact
  apply runs_get_bind
  cases hsteps : w.steps with
  | none => exact runs_set_step (hstep hinv) (h _ rfl rfl)
  | some n =>
    cases n with
    | zero => exact runs_throw
    | succ n => exact runs_set_step (hstep hinv) (h _ rfl rfl)

theorem runs_failStop {message : String}
    (hreached : Consistent codec (w.db, w.log) → message = noUniqueSlices →
      ∃ cohort admissions slices, Held w.db cohort admissions ∧ cohort.lifecycle = .accepted ∧
        Remaining codec w.db admissions slices ∧ recordGroups codec (entriesOf slices) = []) :
    Runs (program codec) (PublicationMachine.failStop message : PubM D α) w Q := by
  refine runs_of_inv fun hinv => ?_
  unfold PublicationMachine.failStop
  intro _
  rw [wp_bind, wp_modify, wp_throw]
  have hstep : Effect codec (w.db, w.log)
      (w.db, { w.log with failStops := message :: w.log.failStops }) := .failStop (hreached hinv)
  exact ⟨.single hstep, effect_consistent hinv hstep⟩

/-- The identities and the injected failures are no part of what lasts. -/
theorem runs_nextArtifactId :
    Runs (program codec) nextArtifactId w fun _ t => t.db = w.db ∧ t.log = w.log := by
  unfold nextArtifactId
  apply runs_get_bind
  cases w.artifactIds with
  | nil => exact runs_throw
  | cons id rest =>
    refine Runs.bind (runs_set (P := fun _ t => t.db = w.db ∧ t.log = w.log) rfl ⟨rfl, rfl⟩) ?_
    exact fun _ t _ ht => runs_pure ht

theorem runs_durabilityFailure :
    Runs (program codec) durabilityFailure w fun _ t => t.db = w.db ∧ t.log = w.log := by
  unfold durabilityFailure
  apply runs_get_bind
  cases w.durabilityFailures with
  | nil => exact runs_pure ⟨rfl, rfl⟩
  | cons failure rest =>
    refine Runs.bind (runs_set (P := fun _ t => t.db = w.db ∧ t.log = w.log) rfl ⟨rfl, rfl⟩) ?_
    exact fun _ t _ ht => runs_pure ht

theorem runs_authenticate {pending : Option D} :
    Runs (program codec) (authenticate pending) w fun _ t => t = w := by
  unfold authenticate
  apply runs_readDb_bind
  exact runs_fromExcept fun _ _ => rfl

theorem runs_requireTypedAdmissionsCurrent {admissions : List (Admission D)} :
    Runs (program codec) (requireTypedAdmissionsCurrent admissions) w fun _ t => t = w := by
  unfold requireTypedAdmissionsCurrent
  apply runs_readDb_bind
  exact runs_refuseIf fun _ => rfl

end Primitives

/-- A member's admission is the member under its source as it is. -/
theorem persistedAdmission_ok {sources : Table ℕ (SourceRow D)} {m : Member D} {a : Admission D}
    (h : persistedAdmission sources m = .ok a) :
    memberOf a = m ∧ ∃ row, sources.get a.sourceId = some row ∧ snapshotCurrent row.source a := by
  unfold persistedAdmission at h
  split at h
  · cases h
  · split at h
    · cases h
    · rename_i row hrow
      cases hvalid : stillAdmitted row.source m.admittedLifecycle m.admittedCount
          m.admittedSha256 with
      | error e =>
        rw [hvalid] at h
        cases h
      | ok valid =>
        rw [hvalid] at h
        simp only [bind, Except.bind] at h
        split at h
        · rename_i hphase
          obtain rfl := Except.ok.inj h
          exact ⟨rfl, row, hrow, rfl, rfl, rfl, rfl, rfl, hphase.2⟩
        · cases h

/-- Admissions rebuilt from the members stand for them. -/
theorem held_of_loaded {db : Db D} {cohort : Cohort D} {as : List (Admission D)}
    (hcohort : db.cohort = some cohort)
    (has : cohort.members.mapM (persistedAdmission db.sources) = .ok as) : Held db cohort as := by
  have hall := mapM_ok has
  refine ⟨hcohort, ?_, ?_⟩
  · have heq : List.Forall₂ Eq (as.map memberOf) cohort.members := by
      rw [List.forall₂_map_left_iff]
      refine (hall.imp ?_).flip
      intro m a ha
      exact (persistedAdmission_ok ha).1
    exact List.forall₂_eq_eq_eq ▸ heq
  · intro a ha
    obtain ⟨m, -, hm⟩ := exists_of_mem_mapM has ha
    exact (persistedAdmission_ok hm).2

/-- The stored cohort with the admissions of its members. -/
theorem runs_loadActiveTypedCohort :
    Runs (program codec) loadActiveTypedCohort w fun r t => t = w ∧
      (r = none → w.db.cohort = none) ∧ ∀ cohort as, r = some (cohort, as) → Held w.db cohort as := by
  unfold loadActiveTypedCohort
  apply runs_readDb_bind
  cases hcohort : w.db.cohort with
  | none => exact runs_pure ⟨rfl, fun _ => rfl, by simp⟩
  | some cohort =>
    refine Runs.bind (runs_fromExcept (Q := fun as t => t = w ∧
      cohort.members.mapM (persistedAdmission w.db.sources) = .ok as) fun as has => ⟨rfl, has⟩) ?_
    rintro as t - ⟨rfl, has⟩
    refine Runs.bind (runs_refuseIf (P := fun _ u => u = t) fun _ => rfl) ?_
    rintro _ u - rfl
    refine runs_pure ⟨rfl, by simp, ?_⟩
    rintro _ _ ⟨rfl, rfl⟩
    exact held_of_loaded hcohort has

/-- What remains of the stored cohort, if there is one, under any reading of its members. -/
def RestOf (codec : Codec D) (db : Db D) (slices : List (Slice D)) : Prop :=
  ∀ cohort as, Held db cohort as → Remaining codec db as slices

theorem restOf_of_remaining {db : Db D} {log : Log D} {cohort : Cohort D} {as : List (Admission D)}
    {slices : List (Slice D)} (hinv : CohortInv db log) (held : Held db cohort as)
    (h : Remaining codec db as slices) : RestOf codec db slices := by
  intro cohort' as' held'
  obtain rfl : cohort = cohort' := Option.some.inj (held.stored.symm.trans held'.stored)
  exact remaining_frame h hinv held held' (fun _ _ => rfl) rfl rfl

theorem restOf_of_idle {db : Db D} {slices : List (Slice D)} (h : db.cohort = none) :
    RestOf codec db slices := by
  intro cohort as held
  have hstored := held.stored
  rw [h] at hstored
  cases hstored

/-- What a round finds: no cohort, or one whose members have passed all that is published. -/
structure Round (codec : Codec D) (slices : List (Slice D)) (r : Option (Cohort D × List (Admission D)))
    (db : Db D) : Prop where
  idle : r = none → db.cohort = none
  rest : RestOf codec db slices
  active : ∀ cohort as, r = some (cohort, as) → Held db cohort as ∧ cohort.lifecycle = .accepted ∧
    CustodyPassed db as

/-- A custody advance is one step, and leaves the rest as it is. -/
theorem runs_advanceTypedReadyCustody {cohort : Cohort D} {as : List (Admission D)}
    {slices : List (Slice D)} (held : Held w.db cohort as) (accepted : cohort.lifecycle = .accepted)
    (hrest : RestOf codec w.db slices) :
    Runs (program codec) (advanceTypedReadyCustody codec cohort as) w fun r t =>
      Round codec slices r t.db := by
  refine runs_of_inv fun hinv => ?_
  have hledger : LedgerInv w.db := hinv.ledger
  have hcohort : CohortInv w.db w.log := hinv.cohort
  have hremaining := hrest cohort as held
  unfold advanceTypedReadyCustody
  apply runs_readDb_bind
  cases hcursors : as.mapM (typedReadyPrefix codec w.db.sources (custody w.db.ledger)) with
  | error e =>
    cases e with
    | admissionConflict id message =>
      refine runs_failStop fun _ hreached => absurd hreached ?_
      intro heq
      have := congrArg (fun s : String => s.toList[19]?) heq
      simp [noUniqueSlices] at this
    | _ => exact runs_throw
  | ok cursors =>
    refine Runs.bind runs_requireTypedAdmissionsCurrent ?_
    rintro _ t - rfl
    obtain ⟨hfst, -, hmem⟩ := mem_zip_mapM hcursors
    refine runs_ite ?_ ?_
    · -- No cursor moves, so each of them stands behind what is published already.
      intro hsame
      refine runs_pure ⟨by simp, hrest, ?_⟩
      rintro _ _ ⟨rfl, rfl⟩
      refine ⟨held, accepted, ?_⟩
      intro a ha
      rw [← hfst] at ha
      obtain ⟨p, hp, rfl⟩ := List.mem_map.mp ha
      have hin : p.1 ∈ as := hfst ▸ ha
      obtain ⟨-, -, hstop, -⟩ :=
        typedReadyPrefix_spec hledger.sortedRuns (held_bound hcohort held p.1 hin) (hmem p hp)
      have heq : p.2 = p.1.cursor := by simpa using List.all_eq_true.mp hsame p hp
      rwa [heq] at hstop
    · intro _
      refine Runs.bind (runs_fromExcept (Q := fun coverage u => u = t ∧
        typedCoverageProposals t.db.sources (as.zip cursors) = .ok coverage) fun c hc => ⟨rfl, hc⟩) ?_
      rintro coverage u - ⟨rfl, hcoverage⟩
      refine Runs.bind (runs_refuseIf (P := fun _ v => v = u) fun _ => rfl) ?_
      rintro _ v - rfl
      refine Runs.bind (runs_transact (P := fun _ t' =>
        t'.db = custodyCommit cohort (as.zip cursors) coverage v.db) ?_ fun _ hdb _ => hdb) ?_
      · exact fun _ => .custody held accepted hremaining hcursors hcoverage
      · rintro _ t' hinv' hdb
        obtain ⟨hrest', hpassed'⟩ :=
          remaining_custody hledger hcohort held hremaining hcursors hcoverage
        rw [← hdb] at hrest' hpassed'
        have hadvance := advance_custody hledger
          (fun m hm => (hcohort.members cohort held.stored m hm).bound) held hcursors hcoverage
        have hmoved : allComplete (as.zip cursors) = false → Held t'.db
            { cohort with members := withCursors cohort.members cursors }
            (movedTo (as.zip cursors)) := by
          intro hopen
          refine advance_held hadvance (hcohort.distinct cohort held.stored) (by rw [hdb]; rfl) ?_ ?_
          · rw [hdb]
            simp only [custodyCommit, hopen]
            rw [(mem_zip_mapM hcursors).2.1]
            rfl
          · rw [(mem_zip_mapM hcursors).2.1]
        refine runs_ite ?_ ?_
        · intro hall
          have hidle : t'.db.cohort = none := by
            rw [hdb]
            simp [custodyCommit, hall]
          exact runs_pure ⟨fun _ => hidle, restOf_of_idle hidle, by simp⟩
        · intro hopen
          have hheld := hmoved (by simpa using hopen)
          refine runs_pure ⟨by simp, restOf_of_remaining hinv'.cohort hheld hrest', ?_⟩
          rintro _ _ ⟨rfl, rfl⟩
          exact ⟨hheld, accepted, hpassed'⟩

/-- The reservation of the first group of what remains. -/
theorem runs_reserveV2Stage {cohort : Cohort D} {as : List (Admission D)} {g : PreparedGroup D}
    {rest : List (Slice D)} {later : List (List (ℕ × Bytes))} (held : Held w.db cohort as)
    (accepted : cohort.lifecycle = .accepted) (h : Remaining codec w.db as (g.slices ++ rest))
    (hgrouped : recordGroups codec (entriesOf (g.slices ++ rest)) = entriesOf g.slices :: later)
    (hpassed : CustodyPassed w.db as) (hbound : ∀ s ∈ g.slices, s.admission ∈ as)
    (hprepared : prepareV2Group codec g.slices g.clock g.initialFrontier = .ok g)
    (hinitial : g.initialFrontier = w.db.ledger.v2Frontier) :
    Runs (program codec) (reserveV2Stage codec cohort g) w fun stage t =>
      Staged codec t.db { cohort with lifecycle := .staging } as stage g rest ∧
        stage.failed = false := by
  refine runs_of_inv fun hinv => ?_
  have hledger : LedgerInv w.db := hinv.ledger
  unfold reserveV2Stage
  apply runs_readDb_bind
  refine Runs.bind (runs_refuseIf (P := fun _ t => t = w) fun _ => rfl) ?_
  rintro _ t - rfl
  refine Runs.bind (runs_refuseIf (P := fun _ u => u = t ∧ t.db.stage = none) fun hnone =>
    ⟨rfl, by simpa using hnone⟩) ?_
  rintro _ u - ⟨rfl, hunstaged⟩
  refine Runs.bind (runs_refuseIf (P := fun _ v => v = u) fun _ => rfl) ?_
  rintro _ v - rfl
  refine Runs.bind runs_nextArtifactId ?_
  rintro artifactId x - ⟨hdb, hlog⟩
  refine Runs.bind (runs_fromExcept (Q := fun proof y => y = x ∧ stageProof codec g
    v.db.ledger.nextPublicOrder (codec.manifestSha256 artifactId v.db.ledger.nextPublicOrder
      g.audioSha256 g.projection) = .ok proof) fun proof hproof => ⟨rfl, hproof⟩) ?_
  rintro proof y - ⟨rfl, hproof⟩
  refine Runs.bind (runs_refuseIf (P := fun _ z => z = y ∧
    v.db.ledger.proofs.get artifactId = none) fun hnone => ⟨rfl, by simpa using hnone⟩) ?_
  rintro _ z - ⟨rfl, hfresh⟩
  refine Runs.bind (runs_transact (P := fun _ t' => t'.db = reservation cohort
    (stageOf codec g artifactId v.db.ledger.nextPublicOrder cohort.cursor) proof v.db) ?_ ?_) ?_
  · intro _
    rw [hdb, hlog]
    exact .reserve held accepted hunstaged h hgrouped hpassed hbound hprepared hinitial hfresh hproof
  · intro t' ht' _
    rw [ht', hdb]
  · rintro _ t' hinv' ht'
    refine runs_pure ⟨?_, rfl⟩
    rw [ht']
    exact staged_reserve hledger hinv.cohort held h hgrouped hpassed hbound hprepared hfresh

section Stage

variable {cohort : Cohort D} {as : List (Admission D)} {stage : Stage D} {g : PreparedGroup D}
  {rest : List (Slice D)}

theorem runs_latchV2DurabilityFailure {P : Unit → World D → Prop} :
    Runs (program codec) latchV2DurabilityFailure w P := by
  unfold latchV2DurabilityFailure
  refine Runs.bind (runs_transact (P := fun _ _ => True) ?_ fun _ _ _ => trivial) ?_
  · exact fun _ => .latch
  · exact fun _ _ _ _ => runs_throw

/-- A durability failure ends the call; otherwise nothing of the database has changed. -/
theorem runs_syncOrLatch :
    Runs (program codec) syncOrLatch w fun _ t => t.db = w.db ∧ t.log = w.log := by
  refine Runs.bind runs_durabilityFailure ?_
  rintro failed t - hsame
  refine runs_ite ?_ ?_
  · exact fun _ => runs_latchV2DurabilityFailure
  · exact fun _ => runs_pure hsame

/-- Writing the artifact of a stage keeps what the stage stands for. -/
theorem runs_materializeV2Stage (h : Staged codec w.db cohort as stage g rest) :
    Runs (program codec) (materializeV2Stage stage) w fun _ t =>
      Staged codec t.db cohort as stage g rest := by
  refine runs_of_inv fun hinv => ?_
  have hcohort : CohortInv w.db w.log := hinv.cohort
  unfold materializeV2Stage
  apply runs_readDb_bind
  have hsync : ∀ t : World D, Staged codec t.db cohort as stage g rest →
      Runs (program codec) syncOrLatch t fun _ u => Staged codec u.db cohort as stage g rest := by
    intro t ht
    refine Runs.mono runs_syncOrLatch ?_
    rintro _ u - ⟨hdb, -⟩
    rw [hdb]
    exact ht
  cases habsent : w.db.ledger.directories.get stage.artifactId with
  | some existing =>
    refine Runs.bind (Q := fun _ t => t = w) (runs_refuseIf fun _ => rfl) ?_
    rintro _ t - rfl
    exact hsync t h
  | none =>
    refine Runs.bind runs_syncOrLatch ?_
    rintro _ t - ⟨hdb, hlog⟩
    refine Runs.bind (Q := fun _ u => Staged codec u.db cohort as stage g rest)
      (runs_transact ?_ ?_) fun _ u _ hu => hsync u hu
    · intro _
      rw [hdb, hlog]
      exact .materialize h.staged habsent
    · intro u hu _
      rw [hdb] at hu
      refine h.frame hcohort ?_ ?_ rfl ?_ ?_ ?_ <;> rw [hu]
      · exact h.staged
      · exact fun _ _ => rfl
      · rfl

theorem runs_requireV2StagingProof : Runs (program codec) (requireV2StagingProof codec stage g) w
    fun proof t => t = w ∧ stageProof codec g stage.order stage.manifestSha256 = .ok proof ∧
      w.db.ledger.proofs.get stage.artifactId = some proof := by
  unfold requireV2StagingProof
  apply runs_readDb_bind
  refine Runs.bind (runs_fromExcept (Q := fun proof t => t = w ∧
    stageProof codec g stage.order stage.manifestSha256 = .ok proof) fun p hp => ⟨rfl, hp⟩) ?_
  rintro proof t - ⟨rfl, hproof⟩
  refine Runs.bind (runs_refuseIf (P := fun _ u => u = t ∧
    t.db.ledger.proofs.get stage.artifactId = some proof) fun hstored =>
      ⟨rfl, by simpa using hstored⟩) ?_
  rintro _ u - ⟨rfl, hstored⟩
  exact runs_pure ⟨rfl, hproof, hstored⟩

/-- The commit of a stage that a call holds in memory, as reserved or as loaded. -/
theorem runs_publishV2Stage {held : Cohort D} (hheld : cohort = { held with lifecycle := .staging })
    (h : Staged codec w.db cohort as stage g rest) (hfailed : stage.failed = false) :
    Runs (program codec) (publishV2Stage codec held as stage g) w fun _ t =>
      RestOf codec t.db rest := by
  unfold publishV2Stage
  refine Runs.bind (runs_materializeV2Stage h) ?_
  rintro _ t hinv ht
  have hledger : LedgerInv t.db := hinv.ledger
  have hcohort : CohortInv t.db t.log := hinv.cohort
  refine Runs.bind runs_requireV2StagingProof ?_
  rintro proof u - ⟨rfl, hproof, hstored⟩
  refine Runs.bind runs_authenticate ?_
  rintro _ v - rfl
  apply runs_readDb_bind
  refine Runs.bind (runs_fromExcept (Q := fun coverage x => x = v ∧
    typedCoverageProposals v.db.sources (groupProgress g as) = .ok coverage) fun c hc =>
      ⟨rfl, hc⟩) ?_
  rintro coverage x - ⟨rfl, hcoverage⟩
  refine Runs.bind (runs_refuseIf (P := fun _ y => y = x) fun _ => rfl) ?_
  rintro _ y - rfl
  refine Runs.bind (runs_refuseIf (P := fun _ z => z = y) fun _ => rfl) ?_
  rintro _ z - rfl
  refine Runs.bind (runs_refuseIf (P := fun _ t' => t' = z ∧
    z.db.ledger.entries.get stage.artifactId = none) fun hnone => ⟨rfl, by simpa using hnone⟩) ?_
  rintro _ t' - ⟨rfl, hfresh⟩
  have hloaded : Loaded codec t'.db.sources as cohort.cursor stage g := by
    refine ⟨ht.prepared, ?_, ?_⟩
    · rw [ht.frozen, ← hfailed]
    · exact fun s hs => ⟨ht.bound s hs,
        (ht.remaining.partition.origin s (List.mem_append_left _ hs)).1⟩
  have hsame : stageCommit codec held stage g proof (groupProgress g as) coverage =
      stageCommit codec cohort stage g proof (groupProgress g as) coverage := by
    rw [hheld]
    rfl
  refine Runs.bind (runs_transact (P := fun _ u => u.db =
    stageCommit codec cohort stage g proof (groupProgress g as) coverage t'.db) ?_ ?_) ?_
  · intro _
    change Effect codec (t'.db, t'.log)
      (stageCommit codec held stage g proof (groupProgress g as) coverage t'.db, _)
    rw [hsame]
    exact .commit ht.held ht.staging ht.staged hloaded hproof hstored hfresh hcoverage
  · intro u hu _
    rw [hu, ← hsame]
    rfl
  · rintro _ u hinv' hu
    refine runs_pure ?_
    have hrest := ht.commit hledger hcohort hproof hfresh hcoverage
    have hadvance := advance_staged ht hledger hcohort hcoverage
    rw [← hu] at hrest
    cases hall : allComplete (groupProgress g as) with
    | true =>
      refine restOf_of_idle ?_
      rw [hu]
      simp [stageCommit, hall]
    | false =>
      have hheld' : Held u.db { cohort with
          lifecycle := .accepted
          cursor := cohort.cursor + 1
          members := withCursors cohort.members ((groupProgress g as).map Prod.snd) }
          (movedTo (groupProgress g as)) := by
        refine advance_held hadvance (hcohort.distinct cohort ht.held.stored) (by rw [hu]; rfl) ?_ rfl
        rw [hu]
        simp [stageCommit, hall]
      exact restOf_of_remaining hinv'.cohort hheld' hrest

end Stage

/-- A round loads the cohort again and moves its cursors over what is published. -/
theorem runs_nextRound {slices : List (Slice D)} (hrest : RestOf codec w.db slices) :
    Runs (program codec) (publishGroups.nextRound codec) w fun r t => Round codec slices r t.db := by
  unfold publishGroups.nextRound
  refine Runs.bind runs_loadActiveTypedCohort ?_
  rintro r t - ⟨rfl, hnone, hsome⟩
  cases r with
  | none => exact runs_pure ⟨fun _ => hnone rfl, hrest, by simp⟩
  | some active =>
    obtain ⟨cohort, as⟩ := active
    have held := hsome cohort as rfl
    refine Runs.bind (runs_refuseIf (P := fun _ u => u = t ∧ cohort.lifecycle = .accepted)
      fun haccepted => ⟨rfl, by simpa using haccepted⟩) ?_
    rintro _ u - ⟨rfl, accepted⟩
    refine Runs.bind runs_requireTypedAdmissionsCurrent ?_
    rintro _ v - rfl
    refine Runs.bind runs_authenticate ?_
    rintro _ x - rfl
    exact runs_advanceTypedReadyCustody held accepted hrest

/-- Groups in memory are the groups of what remains, in front of nothing else. -/
structure Planned (codec : Codec D) (slices : List (Slice D)) (groups : List (List (Slice D))) :
    Prop where
  grouped : recordGroups codec (entriesOf slices) = groups.map entriesOf
  flat : groups ≠ [] → groups.flatten = slices

omit [DecidableEq D] in
theorem planned_groups (slices : List (Slice D)) (hne : v2PhysicalGroups codec slices ≠ []) :
    Planned codec (v2PhysicalGroups codec slices).flatten (v2PhysicalGroups codec slices) := by
  refine ⟨?_, fun _ => rfl⟩
  rw [flatten_v2PhysicalGroups hne]
  have hentries : entriesOf (slices.flatMap (pieces codec)) = entriesOf slices :=
    entriesOf_flatMap_pieces slices
  rw [hentries, v2PhysicalGroups_entries]

omit [DecidableEq D] in
theorem Planned.tail {group : List (Slice D)} {groups : List (List (Slice D))}
    {slices : List (Slice D)} (h : Planned codec slices (group :: groups)) :
    slices = group ++ groups.flatten ∧ Planned codec groups.flatten groups := by
  have hflat : slices = group ++ groups.flatten := (h.flat (by simp)).symm
  refine ⟨hflat, ⟨?_, fun _ => rfl⟩⟩
  have hgrouped := h.grouped
  rw [hflat, List.map_cons] at hgrouped
  exact (recordGroups_front hgrouped).symm

/-- The rounds of a cohort: each one publishes the first group of what remains, and the call
completes only without a cohort. The induction is on the groups in memory. -/
theorem runs_publishGroups {clock : ClockModel.ClockState} {groups : List (List (Slice D))}
    {slices : List (Slice D)} (hrest : RestOf codec w.db slices)
    (hplanned : Planned codec slices groups) :
    Runs (program codec) (publishGroups codec clock groups) w fun _ t => t.db.cohort = none := by
  induction groups generalizing w slices with
  | nil =>
    unfold publishGroups
    refine Runs.bind (runs_nextRound hrest) ?_
    rintro r t - hround
    cases r with
    | none => exact runs_pure (hround.idle rfl)
    | some active =>
      obtain ⟨cohort, as⟩ := active
      obtain ⟨held, accepted, -⟩ := hround.active cohort as rfl
      refine runs_failStop fun _ _ => ⟨cohort, as, slices, held, accepted,
        hround.rest cohort as held, ?_⟩
      rw [hplanned.grouped]
      rfl
  | cons group groups ih =>
    obtain ⟨hslices, htail⟩ := hplanned.tail
    unfold publishGroups
    refine Runs.bind (runs_nextRound hrest) ?_
    rintro r t hinv hround
    cases r with
    | none => exact runs_pure (hround.idle rfl)
    | some active =>
      obtain ⟨cohort, as⟩ := active
      obtain ⟨held, accepted, hpassed⟩ := hround.active cohort as rfl
      have hremaining := hround.rest cohort as held
      rw [hslices] at hremaining
      refine Runs.bind (runs_fromExcept (Q := fun bound u => u = t ∧
        rebindTypedSlices group as = .ok bound) fun b hb => ⟨rfl, hb⟩) ?_
      rintro bound u - ⟨rfl, hrebind⟩
      obtain ⟨hsame, hbound⟩ := rebind_ok hinv.cohort held hremaining hrebind
      apply runs_readDb_bind
      refine Runs.bind (runs_fromExcept (Q := fun g v => v = u ∧
        prepareV2Group codec bound clock u.db.ledger.v2Frontier = .ok g) fun g hg => ⟨rfl, hg⟩) ?_
      rintro g v - ⟨rfl, hg⟩
      obtain ⟨-, hgslices, -, hclock, hinitial, -⟩ := prepareV2Group_ok hg
      have hall : List.Forall₂ SameSlice (group ++ groups.flatten) (g.slices ++ groups.flatten) := by
        rw [hgslices]
        exact List.rel_append hsame (List.forall₂_same.mpr fun s _ => SameSlice.refl s)
      have hgrouped : recordGroups codec (entriesOf (g.slices ++ groups.flatten)) =
          entriesOf g.slices :: groups.map entriesOf := by
        rw [entriesOf_same hall, ← hslices, hplanned.grouped, List.map_cons, hgslices,
          entriesOf_same hsame]
      refine Runs.bind (runs_reserveV2Stage held accepted (remaining_same hremaining hall) hgrouped
        hpassed (hgslices ▸ hbound) (by rw [hgslices, hclock, hinitial]; exact hg) hinitial) ?_
      rintro stage x - ⟨hstaged, hfailed⟩
      refine Runs.bind (runs_publishV2Stage rfl hstaged hfailed) ?_
      rintro id y - hrest'
      refine Runs.bind (ih hrest' htail) ?_
      exact fun more z _ hz => runs_pure hz

theorem runs_acceptedTypedSlices {as : List (Admission D)} {prepared : Option (List (Slice D))}
    (hprepared : ∀ slices, prepared = some slices →
      Partition codec w.db.sources (custody w.db.ledger) as slices) :
    Runs (program codec) (publishAccepted.acceptedTypedSlices codec prepared as) w fun slices t =>
      t = w ∧ Partition codec w.db.sources (custody w.db.ledger) as slices := by
  refine runs_of_inv fun hinv => ?_
  have hledger : LedgerInv w.db := hinv.ledger
  unfold publishAccepted.acceptedTypedSlices
  cases prepared with
  | some slices => exact runs_pure ⟨rfl, hprepared slices rfl⟩
  | none =>
    apply runs_readDb_bind
    cases hslices : normalizeTypedAdmissions codec w.db.sources (custody w.db.ledger) as with
    | error e =>
      cases e with
      | admissionConflict id message =>
        refine runs_failStop fun _ hreached => absurd hreached ?_
        intro heq
        have := congrArg (fun s : String => s.toList[19]?) heq
        simp [noUniqueSlices] at this
      | _ => exact runs_throw
    | ok slices => exact runs_pure ⟨rfl, normalizeTypedAdmissions_spec hledger.sortedRuns hslices⟩

omit [DecidableEq D] in
theorem requireSlicesAfterV2Frontier_ok {slices : List (Slice D)} {frontier : Option V2Frontier}
    {u : Unit} (h : requireSlicesAfterV2Frontier slices frontier = .ok u) :
    ∀ s ∈ slices, AfterFrontier frontier s.startSequence := by
  unfold requireSlicesAfterV2Frontier at h
  split at h
  · assumption
  · cases h

/-- An accepted cohort is published from slices that partition its rest. -/
theorem runs_publishAccepted {clock : ClockModel.ClockState} (prepared : Option (List (Slice D)))
    (hprepared : ∀ slices, prepared = some slices → RestOf codec w.db slices) :
    Runs (program codec) (publishAccepted codec clock prepared) w fun _ t => t.db.cohort = none := by
  unfold publishAccepted
  refine Runs.bind runs_loadActiveTypedCohort ?_
  rintro r t hinv ⟨rfl, hnone, hsome⟩
  cases r with
  | none => exact runs_pure (hnone rfl)
  | some active =>
    obtain ⟨cohort, as⟩ := active
    have held := hsome cohort as rfl
    refine Runs.bind runs_requireTypedAdmissionsCurrent ?_
    rintro _ u - rfl
    refine Runs.bind runs_authenticate ?_
    rintro _ v - rfl
    refine Runs.bind (runs_acceptedTypedSlices fun slices hslices =>
      (hprepared slices hslices cohort as held).partition) ?_
    rintro slices x - ⟨rfl, hpartition⟩
    apply runs_readDb_bind
    refine Runs.bind (runs_fromExcept (Q := fun _ y => y = x ∧
      ∀ s ∈ slices, AfterFrontier x.db.ledger.v2Frontier s.startSequence) fun _ hok =>
        ⟨rfl, requireSlicesAfterV2Frontier_ok hok⟩) ?_
    rintro _ y - ⟨rfl, hafter⟩
    have hremaining : Remaining codec y.db as slices := ⟨hpartition, hafter⟩
    by_cases hgroups : v2PhysicalGroups codec slices = []
    · rw [hgroups]
      refine runs_publishGroups (restOf_of_remaining hinv.cohort held hremaining) ⟨?_, ?_⟩
      · rw [← v2PhysicalGroups_entries, hgroups]
      · exact fun hne => absurd rfl hne
    · have hcut : Remaining codec y.db as (v2PhysicalGroups codec slices).flatten := by
        refine ⟨partition_groups hpartition hgroups, ?_⟩
        intro t ht f hf
        rw [flatten_v2PhysicalGroups hgroups] at ht
        obtain ⟨s, hs, hts⟩ := List.mem_flatMap.mp ht
        have hin : t.span.Inside s.span := (ResumedGroups.partOf_piece hts).inside
        exact (hafter s hs f hf).trans_le hin.1
      exact runs_publishGroups (restOf_of_remaining hinv.cohort held hcut)
        (planned_groups slices hgroups)

/-- `_resume_v2_cohort`, from a reserved stage or from an accepted cohort. -/
theorem runs_resumeV2Cohort {clock : ClockModel.ClockState} (prepared : Option (List (Slice D)))
    (hprepared : ∀ slices, prepared = some slices → RestOf codec w.db slices) :
    Runs (program codec) (resumeV2Cohort codec clock prepared) w fun _ t => t.db.cohort = none := by
  unfold resumeV2Cohort
  refine Runs.bind runs_loadActiveTypedCohort ?_
  rintro r t hinv ⟨rfl, hnone, hsome⟩
  cases r with
  | none => exact runs_pure (hnone rfl)
  | some active =>
    obtain ⟨cohort, as⟩ := active
    have held := hsome cohort as rfl
    refine Runs.bind runs_requireTypedAdmissionsCurrent ?_
    rintro _ u - rfl
    refine runs_ite ?_ fun _ => runs_publishAccepted prepared hprepared
    intro hstaging
    apply runs_readDb_bind
    refine Runs.bind (runs_requireSome (Q := fun stage v => v = u ∧ u.db.stage = some stage)
      fun stage hstage => ⟨rfl, hstage⟩) ?_
    rintro stage v - ⟨rfl, hstage⟩
    refine Runs.bind (runs_fromExcept (Q := fun g x => x = v ∧
      loadV2Stage codec v.db.sources as cohort.cursor stage = .ok g) fun g hg => ⟨rfl, hg⟩) ?_
    rintro g x - ⟨rfl, hload⟩
    have hloaded := loadV2Stage_ok hload
    obtain ⟨cohort', as', g', rest, hstaged⟩ := hinv.staged stage hstage
    obtain rfl : cohort = cohort' := Option.some.inj (held.stored.symm.trans hstaged.held.stored)
    have hreloaded := hstaged.reload hinv.cohort held hloaded
    have hfailed : stage.failed = false := by
      rw [← hloaded.stage]
      rfl
    refine Runs.bind runs_requireV2StagingProof ?_
    rintro _ y - ⟨rfl, -⟩
    refine runs_ite ?_ ?_
    · intro _
      refine Runs.bind (Q := fun _ _ => False) (runs_failStop fun _ hreached => absurd hreached ?_)
        fun _ _ _ hnever => hnever.elim
      decide
    · intro _
      refine Runs.bind (runs_fromExcept (Q := fun _ t' => t' = y) fun _ _ => rfl) ?_
      rintro _ t' - rfl
      refine Runs.bind runs_authenticate ?_
      rintro _ u' - rfl
      have hsame : cohort = { cohort with lifecycle := .staging } := by
        rw [← hstaging]
      refine Runs.bind (runs_publishV2Stage hsame hreloaded hfailed) ?_
      rintro id v' - -
      refine Runs.bind (runs_publishAccepted none (by simp)) ?_
      exact fun more x' _ hx => runs_pure hx

end PublicationRuns
