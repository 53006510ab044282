import OmiCollector.PublicHistory

/-! An accepted cohort publishes its plan.

The unique records of a cohort at acceptance are its plan. A process may stop anywhere and compute
the groups again from the cursors of the members and the published artifacts: what is committed and
what would be computed now still make up the plan. -/
namespace CohortPlans

open AudioMachine (AudioPhase CohortPhase)
open ByteCodec CaptureModel KeyedTable SpanCover SpanWalk PublicationLedger TypedSlices
open SlicePartition PublicationGroups PublicationStage PublicationStore PublicationMachine
open PublicationEffects LedgerOrder CohortMembers RemainingSlices CohortRounds StagedGroups
open SettledSources ProcessRuns PublicHistory
open Relation (ReflTransGen)

variable {D : Type} [DecidableEq D] {codec : Codec D}

section Records

omit [DecidableEq D] in
/-- Lists in order with the same members are the same. -/
theorem eq_of_mem_iff {l l' : List (ℕ × Bytes)} (hl : (l.map Prod.fst).Pairwise (· < ·))
    (hl' : (l'.map Prod.fst).Pairwise (· < ·)) (h : ∀ e, e ∈ l ↔ e ∈ l') : l = l' := by
  rw [List.pairwise_map] at hl hl'
  have hnodup : l.Nodup := hl.imp fun hlt heq => by
    rw [heq] at hlt
    exact lt_irrefl _ hlt
  have hnodup' : l'.Nodup := hl'.imp fun hlt heq => by
    rw [heq] at hlt
    exact lt_irrefl _ hlt
  have hperm : l.Perm l' := (List.perm_ext_iff_of_nodup hnodup hnodup').mpr h
  exact hperm.eq_of_pairwise (fun a b _ _ hab hba => absurd hab (by omega)) hl hl'

/-- Slices that partition the same admissions hold the same records. -/
theorem partition_entries {sources : Table ℕ (SourceRow D)} {c : Custody D}
    {as : List (Admission D)} {slices slices' : List (Slice D)}
    (h : Partition codec sources c as slices) (h' : Partition codec sources c as slices') :
    entriesOf slices = entriesOf slices' := by
  have hsub : ∀ {slices slices' : List (Slice D)}, Partition codec sources c as slices →
      Partition codec sources c as slices' → ∀ e ∈ entriesOf slices, e ∈ entriesOf slices' := by
    intro slices slices' h h' e he
    obtain ⟨s, hs, hx, hraw⟩ := mem_entriesOf.mp he
    obtain ⟨s', hs', hx'⟩ := (h'.covers e.1).mpr ((h.covers e.1).mp ⟨s, hs, hx⟩)
    obtain ⟨hreads, a, ha, hid, hstart, hinside⟩ := h.origin s hs
    refine mem_entriesOf.mpr ⟨s', hs', hx', ?_⟩
    rw [h'.agree a ha s' hs' e.1 ⟨hinside.1.trans hx.1, lt_of_lt_of_le hx.2 hinside.2⟩ hx', hid, hstart, ← hreads.rows e.1 hx, hraw]
  exact eq_of_mem_iff (entries_increase h.chain) (entries_increase h'.chain)
    fun e => ⟨hsub h h' e, hsub h' h e⟩

/-- Whatever is left of a cohort holds the same records, however it was computed. -/
theorem remaining_entries {db : Db D} {log : Log D} {cohort : Cohort D} {as as' : List (Admission D)}
    {slices slices' : List (Slice D)} (hinv : CohortInv db log) (held : Held db cohort as)
    (held' : Held db cohort as') (h : Remaining codec db as slices)
    (h' : Remaining codec db as' slices') : entriesOf slices = entriesOf slices' :=
  partition_entries
    (remaining_frame h hinv held held' (fun _ _ => rfl) rfl rfl).partition h'.partition

omit [DecidableEq D] in
theorem entriesOf_eq_nil {slices : List (Slice D)} (h : Chain slices) :
    entriesOf slices = [] ↔ slices = [] := by
  constructor
  · intro hnil
    cases slices with
    | nil => rfl
    | cons s rest =>
      have hlt := h.nonempty s List.mem_cons_self
      obtain ⟨raw, hraw, -⟩ := rawAt_of_contains (s := s) (x := s.startSequence) ⟨le_rfl, hlt⟩
      have hmem : (s.startSequence, raw) ∈ entriesOf (s :: rest) :=
        mem_entriesOf.mpr ⟨s, List.mem_cons_self, ⟨le_rfl, hlt⟩, hraw⟩
      rw [hnil] at hmem
      cases hmem
  · rintro rfl
    rfl

end Records

/-- A member later on: its cursor has not moved back. -/
structure Follows (m m' : Member D) : Prop where
  same : m = { m' with cursor := m.cursor }
  forward : m.cursor ≤ m'.cursor

/-- The sources in a list are the complete members, each of them once. -/
structure CoversComplete (covered : List ℕ) (members : List (Member D)) : Prop where
  once : covered.Nodup
  complete : ∀ id, id ∈ covered ↔ ∃ m ∈ members, m.sourceId = id ∧ m.cursor = m.admittedCount

/-- The history of a cohort and what the database still holds of it make up its plan. -/
structure Underway (codec : Codec D) (db : Db D) (cohort : Cohort D) (c : CohortLog D)
    (slices : List (Slice D)) : Prop where
  rest : ∃ as, Held db cohort as ∧ Remaining codec db as slices
  nonempty : slices ≠ []
  plan : c.plan = c.groups.flatten ++ entriesOf slices
  grouped : recordGroups codec c.plan = c.groups ++ recordGroups codec (entriesOf slices)
  increasing : (c.plan.map Prod.fst).Pairwise (· < ·)
  threshold : cohort.threshold ≤ entryPackets codec c.plan
  members : List.Forall₂ Follows c.members cohort.members
  covered : CoversComplete c.covered cohort.members
  ended : c.ended = none

/-- A cohort that is over has published its plan group by group and covered every member. -/
structure Completed (codec : Codec D) (c : CohortLog D) : Prop where
  ended : c.ended = some .stageCommit
  groups : c.groups = recordGroups codec c.plan
  published : c.groups.flatten = c.plan
  increasing : (c.plan.map Prod.fst).Pairwise (· < ·)
  once : c.covered.Nodup
  covered : ∀ id, id ∈ c.covered ↔ id ∈ c.members.map (·.sourceId)

structure PlanInv (codec : Codec D) (s : Db D × Log D) : Prop where
  active : ∀ cohort, s.1.cohort = some cohort → ∃ c earlier slices, s.2.cohorts = c :: earlier ∧
    Underway codec s.1 cohort c slices ∧ ∀ c' ∈ earlier, Completed codec c'
  idle : s.1.cohort = none → ∀ c ∈ s.2.cohorts, Completed codec c
  reached : (∀ c ∈ s.2.cohorts, 0 < entryPackets codec c.plan) → noUniqueSlices ∉ s.2.failStops
  committed : s.2.committed.map Prod.snd = s.2.cohorts.reverse.flatMap (·.groups)

section Cover

variable {db : Db D} {cohort : Cohort D} {progress : List (Admission D × ℕ)}
  {coverage : List (ℕ × CaptureSource D)}

/-- An advance covers the members that it completes, and those only. -/
theorem coversComplete_advance {covered : List ℕ} (h : CoversComplete covered cohort.members)
    (hadvance : Advance db cohort progress coverage)
    (hdistinct : (cohort.members.map (·.sourceId)).Nodup) :
    CoversComplete (covered ++ coverage.map Prod.fst)
      (withCursors cohort.members (progress.map Prod.snd)) := by
  have hmembers : cohort.members = progress.map fun p => memberOf p.1 := by
    rw [← hadvance.held.members, List.map_map]
    rfl
  have hold : ∀ id, id ∈ covered ↔ ∃ p ∈ progress, p.1.sourceId = id ∧
      p.1.cursor = p.1.admittedCount := by
    intro id
    rw [h.complete, hmembers]
    simp [memberOf]
  have hnew : ∀ id, id ∈ coverage.map Prod.fst ↔ ∃ p ∈ progress, p.1.sourceId = id ∧
      Completing p := by
    intro id
    rw [hadvance.ids]
    simp only [List.mem_map, List.mem_filter, decide_eq_true_eq]
    constructor
    · rintro ⟨p, ⟨hp, hcompleting⟩, rfl⟩
      exact ⟨p, hp, rfl, hcompleting⟩
    · rintro ⟨p, hp, rfl, hcompleting⟩
      exact ⟨p, ⟨hp, hcompleting⟩, rfl⟩
  have hids : (progress.map (·.1.sourceId)).Nodup := by
    rw [hadvance.memberIds]
    exact hdistinct
  constructor
  · refine List.nodup_append.mpr ⟨h.once, hadvance.nodup hdistinct, ?_⟩
    rintro id hid _ hid' rfl
    obtain ⟨p, hp, heq, hdone⟩ := (hold id).mp hid
    obtain ⟨q, hq, heq', hopen, -⟩ := (hnew id).mp hid'
    obtain rfl : p = q := List.inj_on_of_nodup_map hids hp hq (heq.trans heq'.symm)
    exact hopen hdone
  · intro id
    rw [List.mem_append, hold, hnew, hadvance.members]
    simp only [List.mem_map, exists_exists_and_eq_and, memberOf]
    constructor
    · rintro (⟨p, hp, rfl, hdone⟩ | ⟨p, hp, rfl, -, hdone⟩)
      · refine ⟨p, hp, rfl, ?_⟩
        have := hadvance.bounds p hp
        omega
      · exact ⟨p, hp, rfl, hdone⟩
    · rintro ⟨p, hp, rfl, hdone⟩
      by_cases hopen : p.1.cursor = p.1.admittedCount
      · exact .inl ⟨p, hp, rfl, hopen⟩
      · exact .inr ⟨p, hp, rfl, hopen, hdone⟩

theorem follows_advance {members : List (Member D)} (h : List.Forall₂ Follows members cohort.members)
    (hadvance : Advance db cohort progress coverage) :
    List.Forall₂ Follows members (withCursors cohort.members (progress.map Prod.snd)) := by
  have hmembers : cohort.members = progress.map fun p => memberOf p.1 := by
    rw [← hadvance.held.members, List.map_map]
    rfl
  rw [hadvance.members]
  rw [hmembers] at h
  rw [List.forall₂_map_right_iff] at h ⊢
  refine List.forall₂_iff_zip.mpr ⟨h.length_eq, ?_⟩
  intro m p hzip
  obtain ⟨hsame, hforward⟩ := List.forall₂_zip h hzip
  have hbounds := (hadvance.bounds p (List.of_mem_zip hzip).2).1
  exact ⟨hsame, hforward.trans hbounds⟩

/-- While something is left, an advance does not complete the cohort. -/
theorem not_allComplete {db' : Db D} {slices : List (Slice D)}
    (h : Remaining codec db' (movedTo progress) slices) (hne : slices ≠ []) :
    allComplete progress = false := by
  by_contra hall
  rw [Bool.not_eq_false] at hall
  obtain ⟨s, hs⟩ := List.exists_mem_of_ne_nil slices hne
  have hlt := h.partition.chain.nonempty s hs
  obtain ⟨⟨a, ha, hx⟩, -⟩ := (h.partition.covers s.startSequence).mp ⟨s, hs, le_rfl, hlt⟩
  obtain ⟨p, hp, rfl⟩ := List.mem_map.mp ha
  unfold allComplete at hall
  have hdone : p.2 = p.1.admittedCount := by simpa using List.all_eq_true.mp hall p hp
  have h1 := hx.1
  have h2 := hx.2
  simp only [Admission.remaining, Admission.sequenceStart] at h1 h2
  omega

end Cover

section Steps

variable {db db' : Db D} {log log' : Log D} {cohort next : Cohort D} {c c' : CohortLog D}
  {slices slices' : List (Slice D)}

/-- A step that moves the members, with what it adds to the history. -/
theorem Underway.advance {progress : List (Admission D × ℕ)}
    {coverage : List (ℕ × CaptureSource D)} (h : Underway codec db cohort c slices)
    (hinv : CohortInv db log) (hadvance : Advance db cohort progress coverage)
    (hsources : db'.sources = applyTypedCoverage db.sources coverage)
    (hcohort : db'.cohort = some next) (hthreshold : next.threshold = cohort.threshold)
    (hmembers : next.members = withCursors cohort.members (progress.map Prod.snd))
    (hrest : Remaining codec db' (movedTo progress) slices') (hne : slices' ≠ [])
    (hplan : c'.plan = c.plan) (hconcat : c.plan = c'.groups.flatten ++ entriesOf slices')
    (hgrouped : recordGroups codec c.plan = c'.groups ++ recordGroups codec (entriesOf slices'))
    (hold : c'.members = c.members) (hcovered : c'.covered = c.covered ++ coverage.map Prod.fst)
    (hended : c'.ended = none) : Underway codec db' next c' slices' := by
  have hdistinct := hinv.distinct cohort hadvance.held.stored
  refine ⟨⟨_, advance_held hadvance hdistinct hsources hcohort hmembers, hrest⟩, hne, ?_, ?_, ?_, ?_,
    ?_, ?_, hended⟩
  · rw [hplan]
    exact hconcat
  · rw [hplan]
    exact hgrouped
  · rw [hplan]
    exact h.increasing
  · rw [hplan, hthreshold]
    exact h.threshold
  · rw [hold, hmembers]
    exact follows_advance h.members hadvance
  · rw [hcovered, hmembers]
    exact coversComplete_advance h.covered hadvance hdistinct

/-- Steps elsewhere. -/
theorem Underway.frame (h : Underway codec db cohort c slices) (hinv : CohortInv db log)
    (hcohort : db'.cohort = db.cohort)
    (hrows : ∀ id ∈ cohortSources db, db'.sources.get id = db.sources.get id)
    (hcustody : custody db'.ledger = custody db.ledger)
    (hfrontier : db'.ledger.v2Frontier = db.ledger.v2Frontier) :
    Underway codec db' cohort c slices := by
  obtain ⟨as, held, hrest⟩ := h.rest
  have hkept : ∀ a ∈ as, db'.sources.get a.sourceId = db.sources.get a.sourceId := by
    intro a ha
    apply hrows
    rw [mem_cohortSources held.stored, ← held_ids held]
    exact List.mem_map_of_mem ha
  exact ⟨⟨as, held_frame held hcohort hkept,
    remaining_frame hrest hinv held held hkept hcustody hfrontier⟩, h.nonempty, h.plan, h.grouped,
    h.increasing, h.threshold, h.members, h.covered, h.ended⟩

theorem PlanInv.frame (h : PlanInv codec (db, log)) (hinv : CohortInv db log)
    (hcohort : db'.cohort = db.cohort)
    (hrows : ∀ id ∈ cohortSources db, db'.sources.get id = db.sources.get id)
    (hcustody : custody db'.ledger = custody db.ledger)
    (hfrontier : db'.ledger.v2Frontier = db.ledger.v2Frontier)
    (hcohorts : log'.cohorts = log.cohorts) (hfailStops : log'.failStops = log.failStops)
    (hcommitted : log'.committed = log.committed) : PlanInv codec (db', log') := by
  refine ⟨?_, ?_, ?_, ?_⟩
  · intro cohort hstored
    obtain ⟨c, earlier, slices, hhead, hunderway, hearlier⟩ := h.active cohort (hcohort ▸ hstored)
    exact ⟨c, earlier, slices, hcohorts.trans hhead,
      hunderway.frame hinv hcohort hrows hcustody hfrontier, hearlier⟩
  · intro hidle c hc
    exact h.idle (hcohort ▸ hidle) c (hcohorts ▸ hc)
  · change (∀ c ∈ log'.cohorts, _) → noUniqueSlices ∉ log'.failStops
    rw [hcohorts, hfailStops]
    exact h.reached
  · change log'.committed.map Prod.snd = log'.cohorts.reverse.flatMap (·.groups)
    rw [hcohorts, hcommitted]
    exact h.committed

/-- Without a cohort only its history counts. -/
theorem PlanInv.idle_frame (h : PlanInv codec (db, log)) (hidle : db.cohort = none)
    (hidle' : db'.cohort = none) : PlanInv codec (db', log) := by
  refine ⟨?_, fun _ => h.idle hidle, h.reached, h.committed⟩
  intro cohort hstored
  rw [show db'.cohort = some cohort from hstored] at hidle'
  cases hidle'

/-- A step of the cohort that is active extends its history, and may end it. -/
theorem PlanInv.extend {earlier : List (CohortLog D)} (new : List (List (ℕ × Bytes)))
    (h : PlanInv codec (db, log)) (hhead : log.cohorts = c :: earlier)
    (hearlier : ∀ b ∈ earlier, Completed codec b) (hcohorts : log'.cohorts = c' :: earlier)
    (hfailStops : log'.failStops = log.failStops) (hplan : c'.plan = c.plan)
    (hgroups : c'.groups = c.groups ++ new)
    (hcommitted : log'.committed.map Prod.snd = log.committed.map Prod.snd ++ new)
    (hactive : ∀ next, db'.cohort = some next → ∃ slices', Underway codec db' next c' slices')
    (hover : db'.cohort = none → Completed codec c') : PlanInv codec (db', log') := by
  have hold : log.committed.map Prod.snd = log.cohorts.reverse.flatMap (·.groups) := h.committed
  refine ⟨?_, ?_, ?_, ?_⟩
  · intro next hnext
    obtain ⟨slices', hunderway⟩ := hactive next hnext
    exact ⟨c', earlier, slices', hcohorts, hunderway, hearlier⟩
  · intro hidle b hb
    rcases List.mem_cons.mp (hcohorts ▸ hb) with rfl | hb
    · exact hover hidle
    · exact hearlier b hb
  · intro hpackets
    change noUniqueSlices ∉ log'.failStops
    rw [hfailStops]
    apply h.reached
    intro b hb
    rcases List.mem_cons.mp (hhead ▸ hb) with rfl | hb
    · rw [← hplan]
      exact hpackets c' (hcohorts ▸ List.mem_cons_self)
    · exact hpackets b (hcohorts ▸ List.mem_cons_of_mem _ hb)
  · change log'.committed.map Prod.snd = log'.cohorts.reverse.flatMap (·.groups)
    rw [hcommitted, hold, hcohorts, hhead]
    simp [hgroups]

omit [DecidableEq D] in
theorem cohorts_updateCohort {earlier : List (CohortLog D)} (hhead : log.cohorts = c :: earlier)
    (f : CohortLog D → CohortLog D) : (log.updateCohort f).cohorts = f c :: earlier ∧
      (log.updateCohort f).failStops = log.failStops ∧
      (log.updateCohort f).committed = log.committed := by
  unfold Log.updateCohort
  rw [hhead]
  exact ⟨rfl, rfl, rfl⟩

/-- Moving cursors over published records neither ends a cohort nor changes its plan. -/
theorem planInv_custody {admissions : List (Admission D)} {cursors : List ℕ}
    {coverage : List (ℕ × CaptureSource D)} (h : PlanInv codec (db, log)) (hledger : LedgerInv db)
    (hinv : CohortInv db log) (held : Held db cohort admissions)
    (hcursors : admissions.mapM (typedReadyPrefix codec db.sources (custody db.ledger)) = .ok cursors)
    (hcoverage : typedCoverageProposals db.sources (admissions.zip cursors) = .ok coverage) :
    PlanInv codec (custodyCommit cohort (admissions.zip cursors) coverage db,
      custodyLog (admissions.zip cursors) coverage log) := by
  obtain ⟨c, earlier, slices, hhead, hunderway, hearlier⟩ := h.active cohort held.stored
  obtain ⟨as, held', hrest⟩ := hunderway.rest
  have hrest' := remaining_frame hrest hinv held' held (fun _ _ => rfl) rfl rfl
  have hadvance := advance_custody hledger
    (fun m hm => (hinv.members cohort held.stored m hm).bound) held hcursors hcoverage
  have hmoved := (remaining_custody hledger hinv held hrest' hcursors hcoverage).1
  have hopen := not_allComplete hmoved hunderway.nonempty
  obtain ⟨hcohorts, hfailStops, hcommitted⟩ := cohorts_updateCohort hhead fun c => { c with
    covered := c.covered ++ coverage.map Prod.fst
    ended := if allComplete (admissions.zip cursors) then some .readyCustody else c.ended }
  have hcohort : (custodyCommit cohort (admissions.zip cursors) coverage db).cohort =
      some { cohort with
        members := withCursors cohort.members ((admissions.zip cursors).map Prod.snd) } := by
    simp [custodyCommit, hopen]
  refine h.extend [] hhead hearlier hcohorts hfailStops rfl (by simp)
    (by rw [custodyLog, hcommitted]; simp) ?_ ?_
  · intro next hnext
    obtain rfl := Option.some.inj (hcohort.symm.trans hnext)
    refine ⟨slices, hunderway.advance hinv hadvance rfl hcohort rfl rfl hmoved hunderway.nonempty rfl
      hunderway.plan hunderway.grouped rfl rfl ?_⟩
    simp only [hopen]
    exact hunderway.ended
  · intro hidle
    rw [hcohort] at hidle
    cases hidle

/-- When the last group is published, every member is complete. -/
theorem allComplete_last {as : List (Admission D)} {stage : Stage D} {g : PreparedGroup D}
    (h : Staged codec db cohort as stage g []) (hledger : LedgerInv db) (hinv : CohortInv db log) :
    allComplete (groupProgress g as) = true := by
  unfold allComplete
  rw [List.all_eq_true]
  intro p hp
  obtain ⟨a, ha, rfl⟩ := List.mem_map.mp hp
  have hruns := (hledger.stage stage h.staged).runs
  rw [h.descriptor] at hruns
  simp only [v2Descriptor] at hruns
  obtain ⟨hne, -, hfacts, -⟩ := prepareV2Group_ok h.prepared
  have hchain : Chain g.slices :=
    h.remaining.partition.chain.sublist (List.sublist_append_left g.slices [])
  obtain ⟨hforward, hbound, -, hstop⟩ :=
    typedMemberProgress_spec hruns (held_bound hinv h.held a ha)
  rw [decide_eq_true_eq]
  rcases hstop with hdone | hstuck
  · exact hdone
  · -- A sequence that stops the member is neither in the last group nor published before.
    by_contra hopen
    have hopen : typedMemberProgress g.facts a < a.admittedCount := by
      simp only at hopen
      omega
    rw [hfacts, covers_groupFacts hchain hne, ← hfacts] at hstuck
    have hin : a.remaining.Contains (a.sequenceStart + typedMemberProgress g.facts a) := by
      constructor <;> simp only [Admission.remaining] <;> omega
    have hcovered : CoveredBy (readyRuns (custody db.ledger))
        (a.sequenceStart + typedMemberProgress g.facts a) := by
      by_contra hfree
      apply hstuck
      have hseq := (h.remaining.partition.covers _).mpr ⟨⟨a, ha, hin⟩, hfree⟩
      rwa [List.append_nil] at hseq
    obtain ⟨b, hb, hcovers⟩ := coveredBy_custody.mp hcovered
    have hbefore := remaining_beyond hledger h.remaining h.passed ha (by omega)
      (mem_custody_active.mp hb).1 hcovers
    exact absurd hin.1 (by omega)

/-- A commit publishes the next group of the plan, and ends the cohort with the last of them. -/
theorem planInv_commit {admissions : List (Admission D)} {stage : Stage D} {g : PreparedGroup D}
    {proof : ReplayProof D} {coverage : List (ℕ × CaptureSource D)} (h : PlanInv codec (db, log))
    (hledger : LedgerInv db) (hinv : CohortInv db log) (hstage : StagedInv codec db)
    (held : Held db cohort admissions) (staged : db.stage = some stage)
    (loaded : Loaded codec db.sources admissions cohort.cursor stage g)
    (hproof : stageProof codec g stage.order stage.manifestSha256 = .ok proof)
    (fresh : db.ledger.entries.get stage.artifactId = none)
    (hcoverage : typedCoverageProposals db.sources (groupProgress g admissions) = .ok coverage) :
    PlanInv codec (stageCommit codec cohort stage g proof (groupProgress g admissions) coverage db,
      stageCommitLog stage g (groupProgress g admissions) coverage log) := by
  obtain ⟨c, earlier, slices, hhead, hunderway, hearlier⟩ := h.active cohort held.stored
  obtain ⟨as, held', hrest⟩ := hunderway.rest
  obtain ⟨cohort', as', g', rest, hold⟩ := hstage stage staged
  obtain rfl : cohort = cohort' := Option.some.inj (held.stored.symm.trans hold.held.stored)
  have hstaged := hold.reload hinv held loaded
  have hentries : entriesOf slices = entriesOf g.slices ++ entriesOf rest := by
    rw [remaining_entries hinv held' held hrest hstaged.remaining]
    simp [entriesOf]
  have hadvance := advance_staged hstaged hledger hinv hcoverage
  have hmoved := hstaged.commit hledger hinv hproof fresh hcoverage
  obtain ⟨hcohorts, hfailStops, hcommitted⟩ := cohorts_updateCohort hhead fun c => { c with
    groups := c.groups ++ [entriesOf g.slices]
    covered := c.covered ++ coverage.map Prod.fst
    ended := if allComplete (groupProgress g admissions) then some .stageCommit else c.ended }
  have hplan : c.plan = (c.groups ++ [entriesOf g.slices]).flatten ++ entriesOf rest := by
    rw [hunderway.plan, hentries]
    simp
  have hgrouped : recordGroups codec c.plan =
      (c.groups ++ [entriesOf g.slices]) ++ recordGroups codec (entriesOf rest) := by
    rw [hunderway.grouped, hentries]
    have hsplit : entriesOf (g.slices ++ rest) = entriesOf g.slices ++ entriesOf rest := by
      simp [entriesOf]
    rw [← hsplit, hstaged.grouped]
    simp
  refine h.extend [entriesOf g.slices] hhead hearlier hcohorts hfailStops rfl rfl
    (by simp [stageCommitLog]) ?_ ?_
  · intro next hnext
    have hopen : allComplete (groupProgress g admissions) = false := by
      rw [← Bool.not_eq_true]
      intro hall
      simp [stageCommit, hall] at hnext
    have hcohort : (stageCommit codec cohort stage g proof (groupProgress g admissions) coverage
        db).cohort = some { cohort with
          lifecycle := .accepted
          cursor := cohort.cursor + 1
          members := withCursors cohort.members ((groupProgress g admissions).map Prod.snd) } := by
      simp [stageCommit, hopen]
    obtain rfl := Option.some.inj (hcohort.symm.trans hnext)
    have hne : rest ≠ [] := by
      rintro rfl
      rw [allComplete_last hstaged hledger hinv] at hopen
      cases hopen
    refine ⟨rest, hunderway.advance hinv hadvance rfl hcohort rfl rfl hmoved hne rfl hplan hgrouped
      rfl rfl ?_⟩
    simp only [hopen]
    exact hunderway.ended
  · intro hidle
    have hall : allComplete (groupProgress g admissions) = true := by
      by_contra hopen
      simp [stageCommit, hopen] at hidle
    have hrest : rest = [] := by
      by_contra hne
      rw [not_allComplete hmoved hne] at hall
      cases hall
    subst hrest
    have hcovers := coversComplete_advance hunderway.covered hadvance
      (hinv.distinct cohort held.stored)
    have hids : c.members.map (·.sourceId) = (groupProgress g admissions).map (·.1.sourceId) := by
      rw [hadvance.memberIds]
      have hsame : List.Forall₂ (fun m m' : Member D => m.sourceId = m'.sourceId) c.members
          cohort.members :=
        hunderway.members.imp fun m m' hfollows => by rw [hfollows.same]
      have hmap : List.Forall₂ (· = ·) (c.members.map (·.sourceId))
          (cohort.members.map (·.sourceId)) :=
        List.forall₂_map_left_iff.mpr (List.forall₂_map_right_iff.mpr hsame)
      rwa [List.forall₂_eq_eq_eq] at hmap
    refine ⟨by simp [hall], ?_, ?_, hunderway.increasing, hcovers.once, ?_⟩
    · rw [hgrouped]
      exact (List.append_nil _).symm
    · rw [hplan]
      simp [entriesOf]
    · intro id
      change id ∈ c.covered ++ coverage.map Prod.fst ↔ id ∈ c.members.map (·.sourceId)
      rw [hcovers.complete, hadvance.members, hids]
      unfold allComplete at hall
      simp only [List.mem_map, exists_exists_and_eq_and, memberOf]
      constructor
      · rintro ⟨p, hp, rfl, -⟩
        exact ⟨p, hp, rfl⟩
      · rintro ⟨p, hp, rfl⟩
        exact ⟨p, hp, rfl, by simpa using List.all_eq_true.mp hall p hp⟩

/-- A reservation fixes the next group, and takes nothing out of the plan. -/
theorem planInv_reserve {admissions : List (Admission D)} {g : PreparedGroup D}
    {rest : List (Slice D)} {artifactId : D} {proof : ReplayProof D}
    (h : PlanInv codec (db, log)) (hinv : CohortInv db log) (held : Held db cohort admissions)
    (remaining : Remaining codec db admissions (g.slices ++ rest))
    (hstaged : Staged codec (reservation cohort
        (stageOf codec g artifactId db.ledger.nextPublicOrder cohort.cursor) proof db)
      { cohort with lifecycle := .staging } admissions
      (stageOf codec g artifactId db.ledger.nextPublicOrder cohort.cursor) g rest) :
    PlanInv codec (reservation cohort
      (stageOf codec g artifactId db.ledger.nextPublicOrder cohort.cursor) proof db, log) := by
  obtain ⟨c, earlier, slices, hhead, hunderway, hearlier⟩ := h.active cohort held.stored
  obtain ⟨as, held', hrest⟩ := hunderway.rest
  have hentries := remaining_entries hinv held' held hrest remaining
  obtain ⟨hne, -⟩ := prepareV2Group_ok hstaged.prepared
  refine ⟨?_, ?_, h.reached, h.committed⟩
  · intro next hnext
    obtain rfl := Option.some.inj (hstaged.held.stored.symm.trans hnext)
    refine ⟨c, earlier, g.slices ++ rest, hhead, ?_, hearlier⟩
    refine ⟨⟨admissions, hstaged.held, hstaged.remaining⟩, ?_, ?_, ?_, hunderway.increasing,
      hunderway.threshold, hunderway.members, hunderway.covered, hunderway.ended⟩
    · exact fun hnil => hne (List.append_eq_nil_iff.mp hnil).1
    · rw [← hentries]
      exact hunderway.plan
    · rw [← hentries]
      exact hunderway.grouped
  · intro hidle
    rw [hstaged.held.stored] at hidle
    cases hidle

/-- A cohort is accepted with its whole plan ahead of it. -/
theorem planInv_accept {o : Options} {admissions : List (Admission D)}
    (h : PlanInv codec (db, log)) (idle : db.cohort = none)
    (admissible : ∀ a ∈ admissions, Admissible db a)
    (partition : Partition codec db.sources (custody db.ledger) admissions slices)
    (after : ∀ s ∈ slices, AfterFrontier db.ledger.v2Frontier s.startSequence)
    (nonempty : slices ≠ []) (threshold : o.threshold ≤ groupPackets codec slices) :
    PlanInv codec (acceptance o admissions db, acceptanceLog admissions slices log) := by
  have hearlier := h.idle idle
  have hadmitted : ∀ a ∈ admissions, ∃ row, db.sources.get a.sourceId = some row ∧
      Admitted a.sourceId row.source a := by
    intro a ha
    obtain ⟨row, hrow, hok⟩ := admissible a ha
    exact ⟨row, hrow, typedAdmission_ok hok⟩
  refine ⟨?_, ?_, ?_, ?_⟩
  · intro cohort hcohort
    obtain rfl := Option.some.inj hcohort
    refine ⟨_, log.cohorts, slices, rfl, ?_, hearlier⟩
    refine ⟨⟨admissions, ⟨rfl, rfl, ?_⟩, partition, after⟩, nonempty, rfl, rfl,
      entries_increase partition.chain, ?_, ?_, ⟨List.nodup_nil, ?_⟩, rfl⟩
    · intro a ha
      obtain ⟨row, hrow, hadm⟩ := hadmitted a ha
      refine ⟨row, hrow, ?_⟩
      have hsnapshot := hadm.snapshot
      exact ⟨by rw [hsnapshot], by rw [hsnapshot], by rw [hsnapshot], by rw [hsnapshot],
        by rw [hsnapshot], .inl hadm.lifecycle.symm⟩
    · change o.threshold ≤ entryPackets codec (entriesOf slices)
      rw [entryPackets_entriesOf]
      exact threshold
    · exact List.forall₂_same.mpr fun m _ => ⟨rfl, le_rfl⟩
    · intro id
      simp only [List.not_mem_nil, false_iff, not_exists, not_and]
      intro m hm _ hdone
      obtain ⟨a, ha, rfl⟩ := List.mem_map.mp hm
      obtain ⟨row, -, hadm⟩ := hadmitted a ha
      have hcursor := hadm.cursor
      have hpositive := hadm.positive
      simp only [memberOf] at hdone
      omega
  · intro hidle
    cases hidle
  · intro hpackets
    exact h.reached fun c hc => hpackets c (List.mem_cons_of_mem _ hc)
  · have hold := h.committed
    simp only [acceptanceLog, List.reverse_cons, List.flatMap_append] at hold ⊢
    simpa using hold

/-- With a packet in every plan, no cohort runs out of groups before its end. -/
theorem planInv_failStop {message : String} (h : PlanInv codec (db, log)) (hinv : CohortInv db log)
    (reached : message = noUniqueSlices → ∃ cohort admissions slices,
      Held db cohort admissions ∧ cohort.lifecycle = .accepted ∧
      Remaining codec db admissions slices ∧ recordGroups codec (entriesOf slices) = []) :
    PlanInv codec (db, { log with failStops := message :: log.failStops }) := by
  refine ⟨h.active, h.idle, ?_, h.committed⟩
  intro hpackets
  have hold : noUniqueSlices ∉ log.failStops := h.reached hpackets
  refine List.not_mem_cons_of_ne_of_not_mem ?_ hold
  intro heq
  obtain ⟨cohort, admissions, slices, held, -, remaining, hnil⟩ := reached heq.symm
  obtain ⟨c, earlier, slices', hhead, hunderway, -⟩ := h.active cohort held.stored
  obtain ⟨as, held', hrest⟩ := hunderway.rest
  have hflat := ResumedGroups.recordGroups_flatten (hpackets c (hhead ▸ List.mem_cons_self))
  have hentries := remaining_entries hinv held' held hrest remaining
  rw [hunderway.grouped, hentries, hnil, List.append_nil, hunderway.plan] at hflat
  have hnone : entriesOf slices' = [] := by simpa using hflat
  exact hunderway.nonempty ((entriesOf_eq_nil hrest.partition.chain).mp hnone)

end Steps

/-- Every durable step of the program keeps the plans. -/
theorem effect_planInv {s s' : Db D × Log D} (hsound : Sound codec s) (h : PlanInv codec s)
    (heffect : Effect codec s s') : PlanInv codec s' := by
  have hledger := hsound.ledger
  have hinv := hsound.cohort
  cases heffect with
  | @custody db log cohort admissions slices cursors coverage held accepted _ hcursors hcoverage =>
    exact planInv_custody h hledger hinv held hcursors hcoverage
  | @reserve db log cohort admissions g rest later artifactId proof held accepted unstaged remaining
      grouped passed bound prepared initial fresh proof_eq =>
    exact planInv_reserve h hinv held remaining
      (staged_reserve hledger hinv held remaining grouped passed bound prepared fresh)
  | @commit db log cohort admissions stage g proof coverage held staging staged loaded hproof stored
      fresh hcoverage =>
    exact planInv_commit h hledger hinv hsound.staged held staged loaded hproof fresh hcoverage
  | @accept db log o admissions slices idle admissible distinct unproved partition after nonempty
      threshold =>
    exact planInv_accept h idle admissible partition after nonempty threshold
  | cover idle => exact h.idle_frame idle idle
  | block idle => exact h.idle_frame idle idle
  | failStop reached => exact planInv_failStop h hinv reached
  | materialize => exact h.frame hinv rfl (fun _ _ => rfl) rfl rfl rfl rfl rfl
  | latch => exact h.frame hinv rfl (fun _ _ => rfl) rfl rfl rfl rfl rfl
  | summaries => exact h.frame hinv rfl (fun _ _ => rfl) rfl rfl rfl rfl rfl
  | wait => exact h.frame hinv rfl (fun _ _ => rfl) rfl rfl rfl rfl rfl
  | coalesce => exact h.frame hinv rfl (fun _ _ => rfl) rfl rfl rfl rfl rfl
  | clear clears =>
    cases clears with
    | clear => exact h.frame hinv rfl (fun _ _ => rfl) rfl rfl rfl rfl rfl
  | @retirePage db log id cursor stop row stored retiring free =>
    refine h.frame hinv rfl ?_ rfl rfl rfl rfl rfl
    intro k hk
    have hne : k ≠ id := fun heq => free (heq ▸ hk)
    simp only [PublicationMachine.retirePage, Table.get_adjust, if_neg hne]
  | @finish db log id row stored retiring free =>
    refine h.frame hinv rfl ?_ rfl rfl rfl rfl rfl
    intro k hk
    have hne : k ≠ id := fun heq => free (heq ▸ hk)
    simp only [finishRetirement, Table.get_delete, if_neg hne]

section Runs

/-- No acknowledgement comes while a cohort is stored. -/
def Undisturbed (codec : Codec D) : Process D → List (Action D) → Prop
  | _, [] => True
  | p, a :: rest => ((∃ c, a = .acknowledge c) → p.db.cohort = none) ∧
      Undisturbed codec (PublicationMachine.step codec p a) rest

/-- A durable change with which artifacts are retired only when there is no cohort. -/
inductive Calm (codec : Codec D) : Db D × Log D → Db D × Log D → Prop where
  | call {s s' : Db D × Log D} (step : CallStep codec s s') : Calm codec s s'
  | acknowledge {db : Db D} {log : Log D} {ledger : Ledger D} (idle : db.cohort = none)
      (acknowledges : Acknowledges db.ledger ledger) :
      Calm codec (db, log) ({ db with ledger := ledger }, log)
  | capture {db : Db D} {log : Log D} {id : ℕ} {row : SourceRow D} (fresh : id ∉ log.captured)
      (valid : CapturedRow codec row) :
      Calm codec (db, log) ({ db with sources := db.sources.put id row },
        { log with captured := id :: log.captured })

theorem Calm.change {s s' : Db D × Log D} (h : Calm codec s s') : Change codec s s' := by
  cases h with
  | call step => exact step.change
  | acknowledge idle acknowledges =>
    cases acknowledges with
    | clears hclears => exact .program (.clear hclears)
    | retires hretires => exact .retire hretires
  | capture fresh valid => exact .capture fresh valid

theorem calm_planInv {s s' : Db D × Log D} (hsound : Sound codec s) (h : PlanInv codec s)
    (hcalm : Calm codec s s') : PlanInv codec s' := by
  cases hcalm with
  | call step =>
    cases step with
    | program effect => exact effect_planInv hsound h effect
    | closures => exact h.frame hsound.cohort rfl (fun _ _ => rfl) rfl rfl rfl rfl rfl
  | acknowledge idle => exact h.idle_frame idle idle
  | @capture db log id row fresh =>
    refine h.frame hsound.cohort rfl ?_ rfl rfl rfl rfl rfl
    intro k hk
    have hne : k ≠ id := fun heq => fresh (heq ▸ captured_cohort hsound.cohort hk)
    simp only [Table.get_put, if_neg hne]

theorem step_calm {p : Process D} {a : Action D} (h : Consistent codec (p.db, p.log))
    (hquiet : (∃ c, a = .acknowledge c) → p.db.cohort = none) :
    ReflTransGen (Calm codec) (p.db, p.log)
      ((PublicationMachine.step codec p a).db, (PublicationMachine.step codec p a).log) := by
  refine step_reaches h (fun _ _ => .call) ?_ fun _ _ _ => .capture
  intro c hc l l' hack
  have hidle : ({ p.db with ledger := l } : Db D).cohort = none := hquiet ⟨c, hc⟩
  exact .acknowledge hidle hack

theorem run_calm {p : Process D} {actions : List (Action D)} (h : Consistent codec (p.db, p.log))
    (hquiet : Undisturbed codec p actions) :
    ReflTransGen (Calm codec) (p.db, p.log)
      ((run codec p actions).db, (run codec p actions).log) := by
  induction actions generalizing p with
  | nil => exact .refl
  | cons a rest ih =>
    exact (step_calm h hquiet.1).trans (ih (changes_consistent h (step_changes h a)) hquiet.2)

theorem calms_planInv {s s' : Db D × Log D} (hsound : Consistent codec s) (h : PlanInv codec s)
    (hcalm : ReflTransGen (Calm codec) s s') : Consistent codec s' ∧ PlanInv codec s' := by
  induction hcalm with
  | refl => exact ⟨hsound, h⟩
  | tail _ hstep ih =>
    exact ⟨change_consistent ih.1 hstep.change, calm_planInv ih.1.toSound ih.2 hstep⟩

theorem start_planInv (legacy : List (D × LegacyEntry D)) :
    PlanInv codec ((startProcess legacy).db, (startProcess legacy).log) := by
  refine ⟨?_, ?_, ?_, rfl⟩
  · intro cohort hcohort
    cases hcohort
  · intro _ c hc
    cases hc
  · intro _
    exact List.not_mem_nil

/-- From one state to a later one, members of the same cohort keep their cursors or move on. -/
structure Advances (s s' : Db D × Log D) : Prop where
  accepted : s.2.cohorts.length ≤ s'.2.cohorts.length
  members : s'.2.cohorts.length = s.2.cohorts.length → ∀ next, s'.1.cohort = some next →
    ∃ cohort, s.1.cohort = some cohort ∧ List.Forall₂ Follows cohort.members next.members

omit [DecidableEq D] in
theorem follows_refl (members : List (Member D)) : List.Forall₂ Follows members members :=
  List.forall₂_same.mpr fun _ _ => ⟨rfl, le_rfl⟩

omit [DecidableEq D] in
theorem Follows.trans {a b c : Member D} (h : Follows a b) (h' : Follows b c) : Follows a c := by
  refine ⟨?_, h.forward.trans h'.forward⟩
  rw [h.same, h'.same]

omit [DecidableEq D] in
theorem follows_trans {a b c : List (Member D)} (h : List.Forall₂ Follows a b)
    (h' : List.Forall₂ Follows b c) : List.Forall₂ Follows a c := by
  induction h generalizing c with
  | nil => exact h'
  | cons hm _ ih =>
    cases h' with
    | cons hm' hrest => exact .cons (hm.trans hm') (ih hrest)

omit [DecidableEq D] in
theorem Advances.trans {s t u : Db D × Log D} (h : Advances s t) (h' : Advances t u) :
    Advances s u := by
  have h1 := h.accepted
  have h2 := h'.accepted
  refine ⟨h1.trans h2, ?_⟩
  intro hlength next hnext
  obtain ⟨cohort, hcohort, hfollows⟩ := h'.members (by omega) next hnext
  obtain ⟨first, hfirst, hfollows'⟩ := h.members (by omega) cohort hcohort
  exact ⟨first, hfirst, follows_trans hfollows' hfollows⟩

omit [DecidableEq D] in
theorem advances_of_same {s s' : Db D × Log D} (hcohort : s'.1.cohort = s.1.cohort)
    (hcohorts : s'.2.cohorts = s.2.cohorts) : Advances s s' := by
  refine ⟨by rw [hcohorts], fun _ next hnext => ⟨next, hcohort ▸ hnext, follows_refl _⟩⟩

theorem calm_advances {s s' : Db D × Log D} (hsound : Sound codec s) (hcalm : Calm codec s s') :
    Advances s s' := by
  have hlength : ∀ (log : Log D) (f : CohortLog D → CohortLog D),
      (log.updateCohort f).cohorts.length = log.cohorts.length := by
    intro log f
    cases hlog : log.cohorts with
    | nil => simp [Log.updateCohort, hlog]
    | cons c earlier => rw [(cohorts_updateCohort hlog f).1, List.length_cons, List.length_cons]
  have hledger := hsound.ledger
  have hinv := hsound.cohort
  cases hcalm with
  | acknowledge => exact advances_of_same rfl rfl
  | capture => exact advances_of_same rfl rfl
  | call step =>
    cases step with
    | closures => exact advances_of_same rfl rfl
    | program effect =>
      cases effect with
      | @custody db log cohort admissions slices cursors coverage held accepted _ hcursors
          hcoverage =>
        have hadvance := advance_custody hledger
          (fun m hm => (hinv.members cohort held.stored m hm).bound) held hcursors hcoverage
        refine ⟨(hlength log _).ge, fun _ next hnext => ⟨cohort, held.stored, ?_⟩⟩
        by_cases hall : allComplete (admissions.zip cursors) = true
        · simp [custodyCommit, hall] at hnext
        · simp only [custodyCommit, hall] at hnext
          obtain rfl := Option.some.inj hnext
          exact follows_advance (follows_refl _) hadvance
      | @commit db log cohort admissions stage g proof coverage held staging staged loaded _ _ _
          hcoverage =>
        have hadvance := advance_commit hledger
          (fun m hm => (hinv.members cohort held.stored m hm).bound) held staged loaded hcoverage
        refine ⟨(hlength log _).ge, fun _ next hnext => ⟨cohort, held.stored, ?_⟩⟩
        by_cases hall : allComplete (admissions.map fun a => (a, typedMemberProgress g.facts a)) = true
        · simp [stageCommit, hall] at hnext
        · simp only [stageCommit, hall] at hnext
          obtain rfl := Option.some.inj hnext
          exact follows_advance (follows_refl _) hadvance
      | @reserve db log cohort admissions g rest later artifactId proof held =>
        refine ⟨le_rfl, fun _ next hnext => ⟨cohort, held.stored, ?_⟩⟩
        obtain rfl := Option.some.inj hnext
        exact follows_refl _
      | accept => exact ⟨Nat.le_succ _, fun hsame => absurd hsame (Nat.succ_ne_self _)⟩
      | _ => exact advances_of_same rfl rfl

theorem calms_advance {s s' : Db D × Log D} (h : Consistent codec s)
    (hcalm : ReflTransGen (Calm codec) s s') : Consistent codec s' ∧ Advances s s' := by
  induction hcalm with
  | refl => exact ⟨h, advances_of_same rfl rfl⟩
  | tail _ hstep ih =>
    exact ⟨change_consistent ih.1 hstep.change, ih.2.trans (calm_advances ih.1.toSound hstep)⟩

theorem undisturbed_append {p : Process D} {actions more : List (Action D)} :
    Undisturbed codec p (actions ++ more) ↔
      Undisturbed codec p actions ∧ Undisturbed codec (run codec p actions) more := by
  induction actions generalizing p with
  | nil => simp [Undisturbed, run]
  | cons a rest ih =>
    rw [List.cons_append, Undisturbed, Undisturbed, ih, and_assoc]
    rfl

/-- Without acknowledgements in between, every accepted cohort publishes its plan exactly, wherever
calls stop: group by group in order, and until the commit of the last group covers its members. -/
theorem cohorts_publish_plans (legacy : List (D × LegacyEntry D)) (actions more : List (Action D))
    (hquiet : Undisturbed codec (startProcess legacy) (actions ++ more)) :
    PlanInv codec ((run codec (startProcess legacy) actions).db,
        (run codec (startProcess legacy) actions).log) ∧
      Advances ((run codec (startProcess legacy) actions).db,
          (run codec (startProcess legacy) actions).log)
        ((run codec (startProcess legacy) (actions ++ more)).db,
          (run codec (startProcess legacy) (actions ++ more)).log) := by
  obtain ⟨hfirst, hsecond⟩ := undisturbed_append.mp hquiet
  refine ⟨(calms_planInv start_consistent (start_planInv legacy)
    (run_calm start_consistent hfirst)).2, ?_⟩
  rw [run_append]
  have h := run_consistent codec legacy actions
  exact (calms_advance h (run_calm h hsecond)).2

theorem cohorts_publish_plans_lateSource :
    PlanInv LedgerEncoding.constantCodec
        ((run LedgerEncoding.constantCodec (startProcess []) lateSource).db,
          (run LedgerEncoding.constantCodec (startProcess []) lateSource).log) ∧
      Advances ((run LedgerEncoding.constantCodec (startProcess []) lateSource).db,
          (run LedgerEncoding.constantCodec (startProcess []) lateSource).log)
        ((run LedgerEncoding.constantCodec (startProcess [])
            (lateSource ++ [.publish (plainCall [LedgerEncoding.zeroDigest] none)])).db,
          (run LedgerEncoding.constantCodec (startProcess [])
            (lateSource ++ [.publish (plainCall [LedgerEncoding.zeroDigest] none)])).log) :=
  cohorts_publish_plans [] lateSource [.publish (plainCall [LedgerEncoding.zeroDigest] none)]
    ⟨by simp, by simp, by simp, by simp, by simp, by simp, trivial⟩

end Runs

end CohortPlans
