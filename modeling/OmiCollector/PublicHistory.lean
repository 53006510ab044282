import OmiCollector.LedgerEncoding
import OmiCollector.ProcessRuns

/-! What holds in every history of the process, from an empty v2 ledger on. -/
namespace PublicHistory

open CaptureModel KeyedTable SpanCover PublicationLedger RefusalLogic StepRuns TypedSlices
open PublicationStage PublicationStore PublicationMachine PublicationEffects LedgerOrder
open CohortMembers StagedGroups SettledSources PublicationRuns PermitRuns ProcessRuns
open Relation (ReflTransGen)

variable {D : Type}

/-- A process with nothing but legacy entries in its database. -/
def startProcess (legacy : List (D × LegacyEntry D)) : Process D :=
  ⟨⟨Table.empty, none, none, Ledger.empty legacy, [], Table.empty, none⟩, ⟨[], [], [], [], []⟩, false⟩

variable [DecidableEq D]

/-- The process after a list of actions; any of them may have stopped anywhere. -/
def run (codec : Codec D) (p : Process D) (actions : List (Action D)) : Process D :=
  actions.foldl (PublicationMachine.step codec) p

variable {codec : Codec D} {p : Process D} {legacy : List (D × LegacyEntry D)}

theorem start_consistent : Consistent codec ((startProcess legacy).db, (startProcess legacy).log) where
  ledger := by
    refine ⟨⟨?_, ?_, ?_, ?_, ?_, ?_, ?_⟩, ?_, ?_, ?_⟩
    · intro id e he
      simp [Stored, startProcess, Ledger.empty] at he
    · intro id e id' e' he
      simp [Stored, startProcess, Ledger.empty] at he
    · intro id e id' e' he
      simp [Stored, startProcess, Ledger.empty] at he
    · intro n
      simp [Stored, startProcess, Ledger.empty, committedOrders]
    · intro f hf
      simp [startProcess, Ledger.empty] at hf
    · intro _
      rfl
    · intro id e he
      simp [Stored, startProcess, Ledger.empty] at he
    · intro id
      simp [startProcess, Ledger.empty, Ledger.HasActiveProof, Ledger.IsReady]
    · intro stage hstage
      simp [startProcess] at hstage
    · simp [startProcess]
  cohort := by
    refine ⟨?_, ?_, ?_, ?_⟩
    · intro id row hrow
      simp [startProcess] at hrow
    · intro cohort hcohort
      simp [startProcess] at hcohort
    · intro cohort hcohort
      simp [startProcess] at hcohort
    · intro cohort hcohort
      simp [startProcess] at hcohort
  staged := by
    intro stage hstage
    simp [startProcess] at hstage
  waiting := by
    intro wait hwait
    simp [startProcess] at hwait

theorem run_changes (h : Consistent codec (p.db, p.log)) (actions : List (Action D)) :
    ReflTransGen (Change codec) (p.db, p.log)
      ((run codec p actions).db, (run codec p actions).log) := by
  induction actions generalizing p with
  | nil => exact .refl
  | cons a rest ih =>
    have hstep := step_changes h a
    exact hstep.trans (ih (changes_consistent h hstep))

theorem run_consistent (codec : Codec D) (legacy : List (D × LegacyEntry D))
    (actions : List (Action D)) :
    Consistent codec ((run codec (startProcess legacy) actions).db,
      (run codec (startProcess legacy) actions).log) :=
  changes_consistent start_consistent (run_changes start_consistent actions)

theorem run_append (actions more : List (Action D)) :
    run codec p (actions ++ more) = run codec (run codec p actions) more :=
  List.foldl_append

section Entries

/-- A committed entry stays as it is, except that it may be retired. -/
def Lasts (l l' : Ledger D) : Prop :=
  ∀ id e, Stored l id e → ∃ e', Stored l' id e' ∧
    (e' = e ∨ e.state = .ready ∧ e' = AckRetirement.Entry.retire e)

theorem lasts_of_entries {l l' : Ledger D} (h : ∀ id e, Stored l id e → Stored l' id e) :
    Lasts l l' :=
  fun id e he => ⟨e, h id e he, .inl rfl⟩

theorem Lasts.trans {l l' l'' : Ledger D} (h : Lasts l l') (h' : Lasts l' l'') : Lasts l l'' := by
  intro id e he
  obtain ⟨e', he', hcase⟩ := h id e he
  obtain ⟨e'', he'', hcase'⟩ := h' id e' he'
  refine ⟨e'', he'', ?_⟩
  rcases hcase with rfl | ⟨hready, rfl⟩
  · exact hcase'
  · rcases hcase' with rfl | ⟨hagain, -⟩
    · exact .inr ⟨hready, rfl⟩
    · cases hagain

theorem clears_entries {l l' : Ledger D} (h : Clears l l') : l'.entries = l.entries := by
  cases h with
  | clear => rfl

theorem effect_lasts {s s' : Db D × Log D} (h : Effect codec s s') :
    Lasts s.1.ledger s'.1.ledger := by
  apply lasts_of_entries
  intro id e he
  cases h with
  | @commit db log cohort admissions stage g proof coverage held staging staged loaded proof_eq
      stored fresh =>
    change (db.ledger.entries.put stage.artifactId _).get id = some e
    rw [Table.get_put, if_neg]
    · exact he
    · rintro rfl
      exact absurd he (by simp [Stored, fresh])
  | clear clears =>
    unfold Stored
    rw [clears_entries clears]
    exact he
  | _ => exact he

theorem change_lasts {s s' : Db D × Log D} (h : Change codec s s') :
    Lasts s.1.ledger s'.1.ledger := by
  cases h with
  | program effect => exact effect_lasts effect
  | closures => exact lasts_of_entries fun _ _ he => he
  | capture => exact lasts_of_entries fun _ _ he => he
  | @retire db log ledger retires =>
    cases retires with
    | @retire id e p entry ready proof active =>
      intro id' e' he'
      by_cases heq : id' = id
      · subst heq
        obtain rfl : e = e' := Option.some.inj (entry.symm.trans he')
        exact ⟨AckRetirement.Entry.retire e, by simp [Stored, recordRetirement], .inr ⟨ready, rfl⟩⟩
      · refine ⟨e', ?_, .inl rfl⟩
        simp only [Stored, recordRetirement, Table.get_put, if_neg heq]
        exact he'

theorem changes_last {s s' : Db D × Log D} (h : ReflTransGen (Change codec) s s') :
    Lasts s.1.ledger s'.1.ledger := by
  induction h with
  | refl => exact lasts_of_entries fun _ _ he => he
  | tail _ hchange ih => exact ih.trans (change_lasts hchange)

/-- In every history the public ledger is in order, no order is lost, and entries last. -/
theorem public_ledger_in_order (legacy : List (D × LegacyEntry D)) (actions more : List (Action D)) :
    LedgerInv (run codec (startProcess legacy) actions).db ∧
      Lasts (run codec (startProcess legacy) actions).db.ledger
        (run codec (startProcess legacy) (actions ++ more)).db.ledger := by
  have h := run_consistent codec legacy actions
  refine ⟨h.ledger, ?_⟩
  rw [run_append]
  exact changes_last (run_changes h more)

end Entries

section Permits

theorem effect_closures {s s' : Db D × Log D} (h : Effect codec s s') :
    s'.1.closures = [] ↔ s.1.closures = [] := by
  cases h with
  | coalesce =>
    rename_i db log
    cases hlast : db.closures with
    | nil => simp
    | cons first rest => simp
  | _ => exact Iff.rfl

theorem effects_closures {s s' : Db D × Log D} (h : ReflTransGen (Effect codec) s s') :
    s'.1.closures = [] ↔ s.1.closures = [] := by
  induction h with
  | refl => exact Iff.rfl
  | tail _ heffect ih => exact (effect_closures heffect).trans ih

/-- A source that can still be admitted has not been touched by any step. -/
theorem effects_open {s s' : Db D × Log D} (h : Consistent codec s)
    (hsteps : ReflTransGen (Effect codec) s s') {id : ℕ} {row : SourceRow D}
    (hrow : s'.1.sources.get id = some row) (hopen : Open id row.source) :
    s.1.sources.get id = some row := by
  have hboth : Consistent codec s' ∧ s.1.sources.get id = some row := by
    induction hsteps with
    | refl => exact ⟨h, hrow⟩
    | @tail b c hprefix hstep ih =>
      have hb : Consistent codec b := (program codec).inv_of_steps h hprefix
      exact ⟨effect_consistent hb hstep, (ih (effect_open hb.toSound hstep hrow hopen)).2⟩
  exact hboth.2

omit [DecidableEq D] in
/-- A permit goes away only behind a report that nothing is left. -/
theorem consume_end (r : Option ReadyClosure × Outcome D) (w : World D) :
    (exec (consume r) w).2.db.sources = w.db.sources ∧
      (r.2.remainingAtFrontier = true → (exec (consume r) w).2.db.closures = w.db.closures) := by
  have hwp : wp (consume r) w
      (fun _ t => t.db.sources = w.db.sources ∧
        (r.2.remainingAtFrontier = true → t.db.closures = w.db.closures))
      (fun _ t => t.db.sources = w.db.sources ∧
        (r.2.remainingAtFrontier = true → t.db.closures = w.db.closures)) := by
    unfold consume
    rw [wp_ite]
    refine ⟨fun hconsumed => ?_, fun _ => ⟨rfl, fun _ => rfl⟩⟩
    have hnever : ∀ closures, r.2.remainingAtFrontier = true → closures = w.db.closures := by
      intro closures hleft
      rw [hconsumed.2] at hleft
      cases hleft
    rw [wp_bind]
    unfold transact
    rw [wp_bind, wp_get]
    cases w.steps with
    | none => exact ⟨rfl, hnever _⟩
    | some n =>
      cases n with
      | zero => exact ⟨rfl, hnever _⟩
      | succ n => exact ⟨rfl, hnever _⟩
  exact wp_state hwp (fun _ _ ht => ht) fun _ _ ht => ht

/-- A call that consumes its permits reported that nothing was left at the newest one. -/
theorem consumed_finished {c : Call D} (h : Consistent codec (p.db, p.log))
    (hsome : p.db.closures ≠ [])
    (hempty : (PublicationMachine.step codec p (.publish c)).db.closures = []) :
    ∃ t : Db D × Log D, ReflTransGen (Effect codec) (p.db, p.log) t ∧
      (PublicationMachine.step codec p (.publish c)).db.sources = t.1.sources ∧
      Finished (optionsAt c p.db.closures.getLast?) p.db t.1 := by
  have hpoint := (afterCall_point (exec (recoverAndPublish codec c) (p.world c))).1
  simp only [PublicationMachine.step, hpoint] at hempty ⊢
  have hattempt : Runs (program codec) (attempt codec c) (p.world c) _ := runs_attempt
  have hreaches := hattempt.reaches h
  rw [recoverAndPublish_eq, exec_bind] at hempty ⊢
  cases hexec : exec (attempt codec c) (p.world c) with
  | mk result t =>
    rw [hexec] at hreaches
    simp only [hexec] at hempty ⊢
    cases result with
    | error e => exact absurd ((effects_closures hreaches).mp hempty) hsome
    | ok r =>
      obtain ⟨hnewest, hfinished⟩ := hattempt.completed h hexec
      refine ⟨(t.db, t.log), hreaches, ?_⟩
      have hkept : t.db.closures ≠ [] := fun hnil => hsome ((effects_closures hreaches).mp hnil)
      obtain ⟨hsources, hleft⟩ := consume_end r t
      have hreported : r.2.remainingAtFrontier = false := by
        rw [← Bool.not_eq_true]
        exact fun htrue => hkept (hleft htrue ▸ hempty)
      exact ⟨hsources, hnewest ▸ hfinished hreported⟩

omit [DecidableEq D] in
/-- The admissible sources at a frontier that a finished call was asked about. -/
theorem finished_settled {o : Options} {before db : Db D} (h : Finished o before db)
    (hidle : before.cohort = none) {a : Admission D} {row : SourceRow D}
    (hin : Admission.Within o.frontier a) (hrow : before.sources.get a.sourceId = some row)
    (hadmission : typedAdmission a.sourceId row.source = .ok (some a)) : Settled db a.sourceId := by
  obtain ⟨admissions, hadmissions, hsettled⟩ := h.settled hidle
  exact hsettled a (((typedSourceAdmissions_ok hadmissions).1 a).mpr ⟨hin, row, hrow, hadmission⟩)

/-- When a call consumes its newest permit, a source that could still be admitted under it was left
alone because of a cohort stored before the call, of which it is no member. -/
theorem consumed_permit (legacy : List (D × LegacyEntry D)) (actions : List (Action D)) (c : Call D)
    (F : ReadyClosure) (a : Admission D) (row : SourceRow D)
    (hnewest : (run codec (startProcess legacy) actions).db.closures.getLast? = some F)
    (hempty : (run codec (startProcess legacy) (actions ++ [.publish c])).db.closures = [])
    (hin : Admission.Within (some F.nextSequence) a)
    (hrow : (run codec (startProcess legacy) (actions ++ [.publish c])).db.sources.get a.sourceId =
      some row)
    (hadmission : typedAdmission a.sourceId row.source = .ok (some a)) :
    (run codec (startProcess legacy) actions).db.sources.get a.sourceId = some row ∧
      ∃ cohort, (run codec (startProcess legacy) actions).db.cohort = some cohort ∧
        a.sourceId ∉ cohort.members.map (·.sourceId) := by
  have h := run_consistent codec legacy actions
  rw [run_append] at hempty hrow
  generalize run codec (startProcess legacy) actions = p at *
  simp only [run, List.foldl_cons, List.foldl_nil] at hempty hrow
  have hsome : p.db.closures ≠ [] := by
    intro hnil
    simp [hnil] at hnewest
  obtain ⟨t, hsteps, hsources, hfinished⟩ := consumed_finished h hsome hempty
  rw [hsources] at hrow
  have hopen : Open a.sourceId row.source := ⟨a, hadmission⟩
  have hbefore : p.db.sources.get a.sourceId = some row := effects_open h hsteps hrow hopen
  have hunsettled : ¬ Settled t.1 a.sourceId :=
    fun hsettled => not_open_of_covered (hsettled row hrow) hopen
  refine ⟨hbefore, ?_⟩
  cases hcohort : p.db.cohort with
  | none =>
    refine absurd (finished_settled hfinished hcohort ?_ hbefore hadmission) hunsettled
    simpa [optionsAt, hnewest] using hin
  | some cohort =>
    refine ⟨cohort, rfl, fun hmember => hunsettled ?_⟩
    exact settled_of_steps h hsteps hfinished.idle (.inr ((mem_cohortSources hcohort).mpr hmember))

/-- A publication call under a threshold of one packet. -/
def plainCall (artifactIds : List LedgerEntries.Sha256) (steps : Option ℕ) :
    Call LedgerEntries.Sha256 :=
  ⟨1, ClockModel.empty, .missing, artifactIds, [], false, steps⟩

/-- A call stops behind the acceptance of its cohort, and a source is captured before the next. -/
def lateSource : List (Action LedgerEntries.Sha256) :=
  [.capture 1 (SealedSources.sealedRow (fun _ => LedgerEncoding.zeroDigest) 0
      [SealedSources.packetRecord]),
    .closeVisit ⟨1, "drained"⟩, .publish (plainCall [] (some 1)),
    .capture 2 (SealedSources.sealedRow (fun _ => LedgerEncoding.zeroDigest) 1
      [SealedSources.packetRecord]),
    .closeVisit ⟨2, "drained"⟩]

theorem lateSource_run :
    (run LedgerEncoding.constantCodec (startProcess []) lateSource).db.closures.getLast? =
        some ⟨2, "drained"⟩ ∧
      (run LedgerEncoding.constantCodec (startProcess [])
        (lateSource ++ [.publish (plainCall [LedgerEncoding.zeroDigest] none)])).db.closures = [] ∧
      (run LedgerEncoding.constantCodec (startProcess [])
        (lateSource ++ [.publish (plainCall [LedgerEncoding.zeroDigest] none)])).db.sources.get 2 =
        some (SealedSources.sealedRow (fun _ => LedgerEncoding.zeroDigest) 1
          [SealedSources.packetRecord]) := by
  decide +kernel

theorem consumed_permit_lateSource :
    (run LedgerEncoding.constantCodec (startProcess []) lateSource).db.sources.get 2 =
      some (SealedSources.sealedRow (fun _ => LedgerEncoding.zeroDigest) 1
        [SealedSources.packetRecord]) ∧
      ∃ cohort, (run LedgerEncoding.constantCodec (startProcess []) lateSource).db.cohort =
        some cohort ∧ 2 ∉ cohort.members.map (·.sourceId) :=
  consumed_permit [] lateSource (plainCall [LedgerEncoding.zeroDigest] none) ⟨2, "drained"⟩
    (SealedSources.sealedAdmission (fun _ => LedgerEncoding.zeroDigest) 2 1
      [SealedSources.packetRecord] 0) _ lateSource_run.1 lateSource_run.2.1 (by decide)
    lateSource_run.2.2 rfl

end Permits

end PublicHistory
