import OmiCollector.QuarantineRows
import OmiCollector.TransitionRuns

/-! Custody of quarantined sources over whole runs. Children are deleted by the sweep alone, and
records only out of a source that may be deleted; together with what may happen to a row this
settles holds, terminal classifications and certified prefixes in every reachable state. -/
namespace QuarantineCustody

open AudioMachine ByteCodec CaptureModel DecimalText KeyedTable QuarantineStore QuarantineRows
  RefusalLogic TransitionRuns

set_option linter.unusedSectionVars false

variable {ι ε D : Type} [LinearOrder ι] [LinearOrder ε] [DecidableEq D]

/-- The children of one source are as they were. -/
structure Untouched (db next : Database ι ε D) (id : ι) : Prop where
  records : ∀ r, r.1.1 = id → (r ∈ next.records.rows ↔ r ∈ db.records.rows)
  tails : ∀ r, r.1 = id → (r ∈ next.tails.rows ↔ r ∈ db.tails.rows)
  conflicts : ∀ r, r.1.1 = id → (r ∈ next.conflicts.rows ↔ r ∈ db.conflicts.rows)
  evidence : ∀ r, r.2.sourceId = some id → (r ∈ next.evidence.rows ↔ r ∈ db.evidence.rows)
  evidenceChunks : ∀ r, db.evidenceSource r.1.1 = some id →
    (r ∈ next.evidenceChunks.rows ↔ r ∈ db.evidenceChunks.rows)

theorem evidenceSource_eq_some {db : Database ι ε D} {eid : ε} {id : ι} :
    db.evidenceSource eid = some id ↔
      ∃ row, (eid, row) ∈ db.evidence.rows ∧ row.sourceId = some id := by
  simp only [Database.evidenceSource, Option.bind_eq_some_iff, Table.get_eq_some]

theorem Untouched.evidenceSource {db next : Database ι ε D} {id : ι} (h : Untouched db next id)
    (eid : ε) : next.evidenceSource eid = some id ↔ db.evidenceSource eid = some id := by
  rw [evidenceSource_eq_some, evidenceSource_eq_some]
  constructor
  · rintro ⟨row, hmem, hsource⟩
    exact ⟨row, (h.evidence (eid, row) hsource).mp hmem, hsource⟩
  · rintro ⟨row, hmem, hsource⟩
    exact ⟨row, (h.evidence (eid, row) hsource).mpr hmem, hsource⟩

theorem Untouched.refl (db : Database ι ε D) (id : ι) : Untouched db db id :=
  ⟨fun _ _ => .rfl, fun _ _ => .rfl, fun _ _ => .rfl, fun _ _ => .rfl, fun _ _ => .rfl⟩

theorem Untouched.trans {db mid next : Database ι ε D} {id : ι} (h : Untouched db mid id)
    (h' : Untouched mid next id) : Untouched db next id where
  records r hr := (h'.records r hr).trans (h.records r hr)
  tails r hr := (h'.tails r hr).trans (h.tails r hr)
  conflicts r hr := (h'.conflicts r hr).trans (h.conflicts r hr)
  evidence r hr := (h'.evidence r hr).trans (h.evidence r hr)
  evidenceChunks r hr :=
    (h'.evidenceChunks r ((h.evidenceSource r.1.1).mpr hr)).trans (h.evidenceChunks r hr)

theorem untouched_of_same {db next : Database ι ε D} (h : SameChildren db next) (id : ι) :
    Untouched db next id where
  records r _ := by rw [h.records]
  tails r _ := by rw [h.tails]
  conflicts r _ := by rw [h.conflicts]
  evidence r _ := by rw [h.evidence]
  evidenceChunks r _ := by rw [h.evidenceChunks]

theorem mem_deleteRows_of_not {κ ν ω : Type} [LinearOrder ω] {t : Table κ ν} {eligible : Bool}
    {matching : κ × ν → Bool} {order : κ → ω} {limit : ℕ} {r : κ × ν}
    (h : matching r = false) :
    r ∈ (deleteRows t eligible matching order limit).rows ↔ r ∈ t.rows := by
  unfold deleteRows
  split
  · exact ⟨Table.mem_of_mem_deleteFirst, fun hr => Table.mem_deleteFirst_of_not hr h⟩
  · exact .rfl

/-- Bounded deletes on the children of source `x`: rows and references stay, and so do the
children of every other source. -/
structure Pruned (x : ι) (db next : Database ι ε D) : Prop where
  sources : next.sources = db.sources
  members : next.cohortMembers = db.cohortMembers
  stages : next.stageRanges = db.stageRanges
  v2Stages : next.v2StageRanges = db.v2StageRanges
  others : ∀ id, id ≠ x → Untouched db next id

theorem Pruned.refl (x : ι) (db : Database ι ε D) : Pruned x db db :=
  ⟨rfl, rfl, rfl, rfl, fun id _ => .refl db id⟩

theorem Pruned.trans {x : ι} {db mid next : Database ι ε D} (h : Pruned x db mid)
    (h' : Pruned x mid next) : Pruned x db next :=
  ⟨h'.sources.trans h.sources, h'.members.trans h.members, h'.stages.trans h.stages,
    h'.v2Stages.trans h.v2Stages, fun id hid => (h.others id hid).trans (h'.others id hid)⟩

theorem spend_pruned {x : ι} {delete : Database ι ε D → ℕ → Database ι ε D}
    (h : ∀ db limit, Pruned x db (delete db limit)) (state : Database ι ε D × ℕ) :
    Pruned x state.1 (spend delete state).1 := by
  unfold spend
  split
  · exact .refl x _
  · exact h _ _

theorem deleteTypedRecords_pruned (x : ι) (now : ℤ) (db : Database ι ε D) (limit : ℕ) :
    Pruned x db (deleteTypedRecords x now db limit) := by
  refine ⟨rfl, rfl, rfl, rfl, fun id hid => { Untouched.refl db id with records := ?_ }⟩
  intro r hr
  exact mem_deleteRows_of_not (by simpa [hr] using hid)

theorem deleteTypedEvidenceChunks_pruned (x : ι) (now : ℤ) (db : Database ι ε D) (limit : ℕ) :
    Pruned x db (deleteTypedEvidenceChunks x now db limit) := by
  refine ⟨rfl, rfl, rfl, rfl, fun id hid => { Untouched.refl db id with evidenceChunks := ?_ }⟩
  intro r hr
  exact mem_deleteRows_of_not (by simpa [hr] using hid)

theorem deleteTypedTails_pruned (x : ι) (now : ℤ) (db : Database ι ε D) (limit : ℕ) :
    Pruned x db (deleteTypedTails x now db limit) := by
  refine ⟨rfl, rfl, rfl, rfl, fun id hid => { Untouched.refl db id with tails := ?_ }⟩
  intro r hr
  exact mem_deleteRows_of_not (by simpa [hr] using hid)

theorem deleteTypedConflicts_pruned (x : ι) (now : ℤ) (db : Database ι ε D) (limit : ℕ) :
    Pruned x db (deleteTypedConflicts x now db limit) := by
  refine ⟨rfl, rfl, rfl, rfl, fun id hid => { Untouched.refl db id with conflicts := ?_ }⟩
  intro r hr
  exact mem_deleteRows_of_not (by simpa [hr] using hid)

theorem deleteTypedEvidenceParent_pruned (x : ι) (now : ℤ) (db : Database ι ε D) (limit : ℕ) :
    Pruned x db (deleteTypedEvidenceParent x now db limit) := by
  refine ⟨rfl, rfl, rfl, rfl, fun id hid => { Untouched.refl db id with evidence := ?_ }⟩
  intro r hr
  exact mem_deleteRows_of_not (by simp [hr, hid])

theorem deleteResidual_pruned (x : ι) (now : ℤ) (state : Database ι ε D × ℕ) :
    Pruned x state.1 (deleteResidual x now state).1 :=
  (spend_pruned (deleteTypedEvidenceChunks_pruned x now) state).trans
    ((spend_pruned (deleteTypedTails_pruned x now) _).trans
      ((spend_pruned (deleteTypedConflicts_pruned x now) _).trans
        (spend_pruned (deleteTypedEvidenceParent_pruned x now) _)))

theorem spend_records (delete : Database ι ε D → ℕ → Database ι ε D)
    (h : ∀ db limit, (delete db limit).records = db.records) (state : Database ι ε D × ℕ) :
    (spend delete state).1.records = state.1.records := by
  unfold spend
  split
  · rfl
  · exact h _ _

theorem deleteResidual_records (x : ι) (now : ℤ) (state : Database ι ε D × ℕ) :
    (deleteResidual x now state).1.records = state.1.records := by
  unfold deleteResidual
  rw [spend_records (deleteTypedEvidenceParent x now) (fun _ _ => rfl),
    spend_records (deleteTypedConflicts x now) (fun _ _ => rfl),
    spend_records (deleteTypedTails x now) (fun _ _ => rfl),
    spend_records (deleteTypedEvidenceChunks x now) (fun _ _ => rfl)]

/-- A source whose canonical records may be deleted: blocked, unprocessable, past the deadline
that its row stores, not held, and named by no cohort member and no stage range. -/
structure Deletable (db : Database ι ε D) (id : ι) (now : ℤ) : Prop where
  row : ∃ row, db.sources.get id = some row ∧ Unprocessable row ∧ row.lifecycle = .blocked ∧
    ¬ Held row ∧ ∃ text deadline, row.retentionDeadline = some text ∧
      literal text = some deadline ∧ deadline ≤ now
  members : ∀ m ∈ db.cohortMembers, m.sourceId ≠ id
  stages : id ∉ db.stageRanges
  v2Stages : id ∉ db.v2StageRanges

theorem typedRetentionExpired_deadline {row : SourceRow D} {now : ℤ}
    (h : typedRetentionExpired row now = true) :
    ¬ Held row ∧ ∃ text deadline, row.retentionDeadline = some text ∧
      literal text = some deadline ∧ deadline ≤ now := by
  unfold typedRetentionExpired at h
  split at h
  · exact absurd h (by simp)
  rename_i text htext
  split at h
  · exact absurd h (by simp)
  rename_i hrow
  rw [not_or, not_or] at hrow
  split at h
  · exact absurd h (by simp)
  rename_i deadline hliteral
  exact ⟨hrow.2.2, text, deadline, htext, hliteral, by simpa using h⟩

theorem sourceSatisfies_iff {db : Database ι ε D} {id : ι} {clause : SourceRow D → Bool} :
    sourceSatisfies db id clause = true ↔
      ∃ row, db.sources.get id = some row ∧ clause row = true := by
  unfold sourceSatisfies
  cases db.sources.get id <;> simp

/-- The delete clause and the expiry check of the sweep together. -/
theorem deletable_of_eligible {db : Database ι ε D} {id : ι} {row : SourceRow D} {now : ℤ}
    (hrow : db.sources.get id = some row) (hexpired : typedRetentionExpired row now = true)
    (h : sourceSatisfies db id (fun row => canonicalDeleteEligible db id row now) = true) :
    Deletable db id now := by
  obtain ⟨row', hrow', heligible⟩ := sourceSatisfies_iff.mp h
  obtain rfl : row = row' := by simpa using hrow.symm.trans hrow'
  simp only [canonicalDeleteEligible, expiredTypedSource, Database.cohortReferenced,
    Database.stageReferenced, Bool.and_eq_true, decide_eq_true_eq, Bool.not_eq_true',
    Bool.or_eq_false_iff, List.any_eq_false] at heligible
  obtain ⟨⟨⟨⟨⟨⟨⟨⟨htype, _⟩, _⟩, _⟩, _⟩, hblocked⟩, hunprocessable⟩, hmembers⟩, hstages⟩ := heligible
  obtain ⟨hfree, hdeadline⟩ := typedRetentionExpired_deadline hexpired
  exact ⟨⟨row, hrow, ⟨htype, hunprocessable⟩, hblocked, hfree, hdeadline⟩, hmembers,
    fun h => hstages.1 id h rfl, fun h => hstages.2 id h rfl⟩

theorem Deletable.of_pruned {x id : ι} {db next : Database ι ε D} {now : ℤ}
    (h : Pruned x db next) (hd : Deletable next id now) : Deletable db id now := by
  obtain ⟨hrow, hmembers, hstages, hv2⟩ := hd
  rw [h.sources] at hrow
  rw [h.members] at hmembers
  rw [h.stages] at hstages
  rw [h.v2Stages] at hv2
  exact ⟨hrow, hmembers, hstages, hv2⟩

/-- What the expiry half of a sweep may do. -/
structure Expiry (now : ℤ) (db next : Database ι ε D) : Prop where
  rows : ∀ id, next.sources.get id = db.sources.get id ∨
    (next.sources.get id = none ∧ Deletable db id now)
  records : ∀ k ∈ db.records.keys, k ∉ next.records.keys → Deletable db k.1 now
  held : ∀ id row, db.sources.get id = some row → Held row → Untouched db next id

theorem Expiry.refl (now : ℤ) (db : Database ι ε D) : Expiry now db db :=
  ⟨fun _ => .inl rfl, fun _ h h' => absurd h h', fun id _ _ _ => .refl db id⟩

/-- Canonical records go only under the delete clause. -/
theorem spend_deleteTypedRecords {x : ι} {now : ℤ} {limit : ℕ} {db : Database ι ε D}
    {row : SourceRow D} (hrow : db.sources.get x = some row)
    (hexpired : typedRetentionExpired row now = true) {k : ι × ℕ} (hk : k ∈ db.records.keys)
    (hgone : k ∉ (spend (deleteTypedRecords x now) (db, limit)).1.records.keys) :
    Deletable db k.1 now := by
  unfold spend at hgone
  split at hgone
  · exact absurd hk hgone
  obtain ⟨r, hr, rfl⟩ := List.mem_map.mp hk
  by_cases heligible :
      sourceSatisfies db x (fun row => canonicalDeleteEligible db x row now) = true
  · by_cases hx : r.1.1 = x
    · rw [hx]
      exact deletable_of_eligible hrow hexpired heligible
    · exact absurd (List.mem_map_of_mem
        ((mem_deleteRows_of_not (by simpa using hx)).mpr hr)) hgone
  · refine absurd (List.mem_map_of_mem (f := Prod.fst) ?_) hgone
    simpa [deleteTypedRecords, deleteRows, heligible] using hr

theorem sweepOneTypedSource_expiry (x : ι) (now : ℤ) (limit : ℕ) (db : Database ι ε D) :
    Expiry now db (sweepOneTypedSource x now limit db).1 := by
  unfold sweepOneTypedSource
  split
  · exact .refl now db
  rename_i row hrow
  split
  · exact .refl now db
  rename_i hexpired
  replace hexpired : typedRetentionExpired row now = true := by simpa using hexpired
  have hother : ∀ id row', db.sources.get id = some row' → Held row' → id ≠ x := by
    rintro id row' hrow' hheld rfl
    obtain rfl : row = row' := by simpa using hrow.symm.trans hrow'
    exact (typedRetentionExpired_deadline hexpired).1 hheld
  split
  · exact .refl now db
  dsimp only
  split
  · exact .refl now db
  split
  · have hrecords := spend_pruned (deleteTypedRecords_pruned x now) (db, limit)
    have hpruned := hrecords.trans (deleteResidual_pruned x now _)
    have hkeys := deleteResidual_records x now (spend (deleteTypedRecords x now) (db, limit))
    generalize deleteResidual x now (spend (deleteTypedRecords x now) (db, limit)) = state
      at hpruned hkeys ⊢
    have hsame : (deleteExpiredTypedSource x now state.1).1.records = state.1.records := by
      unfold deleteExpiredTypedSource
      split <;> rfl
    refine ⟨fun id => ?_, fun k hk hgone => ?_, fun id row' hrow' hheld => ?_⟩
    · unfold deleteExpiredTypedSource
      split
      · rename_i hdelete
        simp only [Bool.and_eq_true] at hdelete
        change (state.1.sources.delete x).get id = _ ∨ (state.1.sources.delete x).get id = none ∧ _
        rw [Table.get_delete, hpruned.sources]
        by_cases hid : id = x
        · rw [if_pos hid]
          have hdeletable := deletable_of_eligible (hpruned.sources ▸ hrow) hexpired
            hdelete.1.1.1.1
          exact .inr ⟨rfl, hid ▸ hdeletable.of_pruned hpruned⟩
        · rw [if_neg hid]
          exact .inl rfl
      · exact .inl (by rw [hpruned.sources])
    · rw [hsame, hkeys] at hgone
      exact spend_deleteTypedRecords hrow hexpired hk hgone
    · refine (hpruned.others id (hother id row' hrow' hheld)).trans ?_
      unfold deleteExpiredTypedSource
      split
      · apply untouched_of_same
        exact ⟨rfl, rfl, rfl, rfl, rfl⟩
      · exact .refl _ id
  · have hpruned := deleteResidual_pruned x now (db, limit)
    refine ⟨fun id => .inl (by rw [hpruned.sources]), fun k hk hgone => ?_,
      fun id row' hrow' hheld => hpruned.others id (hother id row' hrow' hheld)⟩
    rw [deleteResidual_records] at hgone
    exact absurd hk hgone

/-- Only unlinked evidence has changed. -/
structure Unlinked (db next : Database ι ε D) : Prop where
  sources : next.sources = db.sources
  records : next.records = db.records
  untouched : ∀ id, Untouched db next id

theorem Unlinked.refl (db : Database ι ε D) : Unlinked db db := ⟨rfl, rfl, fun id => .refl db id⟩

theorem Unlinked.trans {db mid next : Database ι ε D} (h : Unlinked db mid)
    (h' : Unlinked mid next) : Unlinked db next :=
  ⟨h'.sources.trans h.sources, h'.records.trans h.records,
    fun id => (h.untouched id).trans (h'.untouched id)⟩

theorem expiredStandalone_unlinked {row : EvidenceRow ι} {now : ℤ}
    (h : expiredStandalone row now = true) : row.sourceId = none := by
  simp only [expiredStandalone, Bool.and_eq_true, decide_eq_true_eq] at h
  exact h.1.1

theorem deleteStandaloneChunks_unlinked (eid : ε) (now : ℤ) (db : Database ι ε D) (limit : ℕ) :
    Unlinked db (deleteStandaloneChunks eid now db limit) := by
  refine ⟨rfl, rfl, fun id => { Untouched.refl db id with evidenceChunks := ?_ }⟩
  intro r hr
  obtain ⟨row, hrow, hlinked⟩ := evidenceSource_eq_some.mp hr
  by_cases hid : r.1.1 = eid
  · -- the evidence row of `eid` is linked, so the guard of the delete fails
    have hguard : db.evidence.rows.any (fun r => r.1 = eid && expiredStandalone r.2 now) = false := by
      rw [List.any_eq_false]
      rintro ⟨eid', row'⟩ hrow' hboth
      simp only [Bool.and_eq_true, decide_eq_true_eq] at hboth
      have hget : db.evidence.get eid' = some row' := Table.get_eq_some.mpr hrow'
      rw [hboth.1, ← hid, Table.get_eq_some.mpr hrow] at hget
      have hnone := expiredStandalone_unlinked hboth.2
      rw [← Option.some.inj hget, hlinked] at hnone
      exact absurd hnone (by simp)
    simp only [deleteStandaloneChunks, deleteRows, hguard, Bool.false_eq_true, if_false]
  · exact mem_deleteRows_of_not (by simpa using hid)

theorem deleteStandaloneParent_unlinked (eid : ε) (now : ℤ) (db : Database ι ε D) :
    Unlinked db (deleteStandaloneParent eid now db) := by
  unfold deleteStandaloneParent
  split
  · exact .refl db
  refine ⟨rfl, rfl, fun id => { Untouched.refl db id with evidence := ?_ }⟩
  intro r hr
  refine Table.mem_filter.trans (and_iff_left ?_)
  have hlive : expiredStandalone r.2 now = false := by
    rw [Bool.eq_false_iff]
    intro h
    simp [expiredStandalone_unlinked h] at hr
  simp [hlive]

theorem sweepOneExpiredStandalone_unlinked (now : ℤ) (limit : ℕ) (db : Database ι ε D) :
    Unlinked db (sweepOneExpiredStandalone now limit db) := by
  have hchunks : ∀ eid, Unlinked db (spend (deleteStandaloneChunks eid now) (db, limit)).1 := by
    intro eid
    unfold spend
    split
    · exact .refl db
    · exact deleteStandaloneChunks_unlinked eid now db _
  unfold sweepOneExpiredStandalone
  split
  · exact .refl db
  split
  · exact .refl db
  split
  · exact .refl db
  dsimp only
  split
  · exact (hchunks _).trans (deleteStandaloneParent_unlinked _ now _)
  · exact hchunks _

theorem Expiry.unlinked {now : ℤ} {db mid next : Database ι ε D} (h : Expiry now db mid)
    (h' : Unlinked mid next) : Expiry now db next := by
  refine ⟨fun id => ?_, fun k hk hgone => ?_, fun id row hrow hheld => ?_⟩
  · rw [h'.sources]
    exact h.rows id
  · rw [h'.records] at hgone
    exact h.records k hk hgone
  · exact (h.held id row hrow hheld).trans (h'.untouched id)

theorem expireTerminal_expiry (now : ℤ) (limit : ℕ) (deferSource deferStandalone : Bool)
    (db : Database ι ε D) :
    wp (expireTerminal now limit deferSource deferStandalone) db
      (fun _ next => Expiry now db next) (fun _ _ => True) := by
  have hsource : wp (expireSource now limit) db (fun _ next => Expiry now db next)
      (fun _ _ => True) := by
    simp only [expireSource, bindInteger, wp_bind, wp_refuseIf, wp_get, implies_true, true_and]
    intro _
    split
    · exact .refl now db
    · exact sweepOneTypedSource_expiry _ now limit db
  have hstandalone : ∀ (swept : ℕ × List ι) (mid : Database ι ε D), Expiry now db mid →
      wp (if 0 < swept.1 ∧ deferStandalone = false then do
          bindInteger now
          modify (sweepOneExpiredStandalone now swept.1)
          return swept.2
        else return swept.2 : Transaction ι ε D (List ι)) mid
        (fun _ next => Expiry now db next) (fun _ _ => True) := by
    intro swept mid hmid
    simp only [bindInteger, wp_ite, wp_bind, wp_refuseIf, wp_modify, wp_pure, implies_true, true_and]
    exact ⟨fun _ _ => hmid.unlinked (sweepOneExpiredStandalone_unlinked now _ mid), fun _ => hmid⟩
  unfold expireTerminal
  dsimp only
  rw [wp_ite]
  constructor
  · intro _
    rw [wp_bind, wp_pure]
    exact hstandalone _ db (.refl now db)
  · intro _
    rw [wp_bind]
    exact wp_mono hsource (fun swept mid hmid => hstandalone swept mid hmid) (fun _ _ _ => trivial)

/-- What the classification half of a sweep may do: one opaque source becomes unprocessable. -/
structure Classification (now retention : ℤ) (db next : Database ι ε D) : Prop where
  rows : ∀ id, next.sources.get id = db.sources.get id ∨
    ∃ row, db.sources.get id = some row ∧ opaqueCandidate row = true ∧
      next.sources.get id = some (opaqueTerminal now retention row)
  members : next.cohortMembers = db.cohortMembers
  stages : next.stageRanges = db.stageRanges
  v2Stages : next.v2StageRanges = db.v2StageRanges
  records : next.records = db.records
  untouched : ∀ id, Untouched db next id

theorem classifyStandalone_unlinked (now retention : ℤ) (db : Database ι ε D) :
    Unlinked db (classifyStandaloneTypedEvidence now retention db) := by
  unfold classifyStandaloneTypedEvidence
  dsimp only
  split
  · exact .refl db
  split
  · exact .refl db
  rename_i eid heid
  obtain ⟨r, hr, hunlinked, hkey⟩ := Table.mem_of_mem_first (List.mem_of_mem_head? heid)
  simp only [Bool.and_eq_true, decide_eq_true_eq] at hunlinked
  replace hkey : r.1 = eid := hkey
  have hget : db.evidence.get eid = some r.2 := Table.get_eq_some.mpr (hkey ▸ hr)
  refine ⟨rfl, rfl, fun id => { Untouched.refl db id with evidence := ?_ }⟩
  rintro ⟨other, row⟩ hlinked
  rw [← Table.get_eq_some, ← Table.get_eq_some, Table.get_adjust]
  by_cases hother : other = eid
  · subst hother
    rw [if_pos rfl, hget]
    constructor
    · intro h
      obtain rfl := Option.some.inj h
      simp [hunlinked.1] at hlinked
    · intro h
      obtain rfl := Option.some.inj h
      simp [hunlinked.1] at hlinked
  · rw [if_neg hother]

theorem classifyStandalone_references (now retention : ℤ) (db : Database ι ε D) :
    (classifyStandaloneTypedEvidence now retention db).cohortMembers = db.cohortMembers ∧
      (classifyStandaloneTypedEvidence now retention db).stageRanges = db.stageRanges ∧
      (classifyStandaloneTypedEvidence now retention db).v2StageRanges = db.v2StageRanges := by
  unfold classifyStandaloneTypedEvidence
  dsimp only
  split
  · exact ⟨rfl, rfl, rfl⟩
  split <;> exact ⟨rfl, rfl, rfl⟩

theorem classifyTerminal_classification (now retention : ℤ) (db : Database ι ε D) :
    Classification now retention db (classifyTerminal now retention db) := by
  have hunlinked := classifyStandalone_unlinked now retention db
  obtain ⟨hmembers, hstages, hv2⟩ := classifyStandalone_references now retention db
  unfold classifyTerminal
  generalize classifyStandaloneTypedEvidence now retention db = mid at *
  have hsame : Classification now retention db mid :=
    ⟨fun id => .inl (by rw [hunlinked.sources]), hmembers, hstages, hv2, hunlinked.records,
      hunlinked.untouched⟩
  unfold classifyOneTypedOpaque
  split
  · exact hsame
  rename_i x hx
  dsimp only
  split
  · exact hsame
  obtain ⟨r, hr, hcandidate, hkey⟩ := Table.mem_of_mem_first (List.mem_of_mem_head? hx)
  replace hkey : r.1 = x := hkey
  have hget : db.sources.get x = some r.2 := by
    rw [← hunlinked.sources]
    exact Table.get_eq_some.mpr (hkey ▸ hr)
  refine ⟨fun id => ?_, hmembers, hstages, hv2, hunlinked.records, fun id => ?_⟩
  · change (mid.sources.adjust x _).get id = _ ∨
      ∃ row, _ ∧ _ ∧ (mid.sources.adjust x _).get id = _
    rw [Table.get_adjust, hunlinked.sources]
    by_cases hid : id = x
    · subst hid
      exact .inr ⟨r.2, hget, hcandidate, by rw [if_pos rfl, hget]; rfl⟩
    · rw [if_neg hid]
      exact .inl rfl
  · refine (hunlinked.untouched id).trans ?_
    apply untouched_of_same
    exact ⟨rfl, rfl, rfl, rfl, rfl⟩

/-- What a whole sweep may do. -/
structure SweepEffect (now retention : ℤ) (db next : Database ι ε D) : Prop where
  rows : ∀ id, RowChange (db.sources.get id) (next.sources.get id)
  removed : ∀ id row, db.sources.get id = some row → next.sources.get id = none →
    Deletable (classifyTerminal now retention db) id now
  records : ∀ k ∈ db.records.keys, k ∉ next.records.keys →
    Deletable (classifyTerminal now retention db) k.1 now
  held : ∀ id row, db.sources.get id = some row → Held row → Untouched db next id

theorem opaqueCandidate_facts {row : SourceRow D} (h : opaqueCandidate row = true) :
    row.sourceType = .quarantine ∧ row.quarantineDisposition = some .unclassified ∧
      ¬ Held row := by
  simp only [opaqueCandidate, Bool.and_eq_true, decide_eq_true_eq, Bool.not_eq_true'] at h
  exact ⟨h.1.1.1, h.1.2, by simp [Held, h.2]⟩

theorem Expiry.sweep {now retention : ℤ} {db next : Database ι ε D}
    (h : Expiry now (classifyTerminal now retention db) next) :
    SweepEffect now retention db next := by
  have hclass := classifyTerminal_classification now retention db
  generalize hmid : classifyTerminal now retention db = mid at h hclass
  refine ⟨fun id => ?_, fun id row hrow hnone => ?_, fun k hk hgone => ?_,
    fun id row hrow hheld => ?_⟩
  · rcases hclass.rows id with hsame | ⟨row, hrow, hcandidate, hnew⟩
    · rcases h.rows id with hkept | ⟨hnone, hdeletable⟩
      · rw [hkept, hsame]
        exact .same _
      · obtain ⟨row, hrow, hunprocessable, _, hfree, _⟩ := hdeletable.row
        rw [hnone, ← hsame, hrow]
        exact .deleted hunprocessable.1 hfree (by simp [hunprocessable.2])
    · obtain ⟨htype, hunclassified, hfree⟩ := opaqueCandidate_facts hcandidate
      rcases h.rows id with hkept | ⟨hnone, _⟩
      · rw [hkept, hnew, hrow]
        exact .classified htype hunclassified hfree htype rfl rfl rfl
      · rw [hnone, hrow]
        exact .deleted htype hfree (by simp [hunclassified])
  · rw [hmid]
    rcases h.rows id with hkept | ⟨_, hdeletable⟩
    · rw [hkept] at hnone
      rcases hclass.rows id with hsame | ⟨_, _, _, hnew⟩
      · simp [hsame, hrow] at hnone
      · simp [hnew] at hnone
    · exact hdeletable
  · rw [hmid]
    exact h.records k (by rw [hclass.records]; exact hk) hgone
  · have hmidrow : mid.sources.get id = some row := by
      rcases hclass.rows id with hsame | ⟨row', hrow', hcandidate, _⟩
      · rw [hsame, hrow]
      · obtain rfl : row = row' := by simpa using hrow.symm.trans hrow'
        exact absurd hheld (opaqueCandidate_facts hcandidate).2.2
    exact (hclass.untouched id).trans (h.held id row hmidrow hheld)

theorem SweepEffect.refl (now retention : ℤ) (db : Database ι ε D) :
    SweepEffect now retention db db := by
  refine ⟨fun _ => .same _, fun id row hrow hnone => ?_, fun _ hk hgone => absurd hk hgone,
    fun id _ _ _ => .refl db id⟩
  simp [hrow] at hnone

theorem sweep_effect (now retention limit : ℤ) (defer deferSource deferStandalone : Bool)
    (db : Database ι ε D) :
    SweepEffect now retention db
      (commit (sweepTerminalQuarantine now retention limit defer deferSource deferStandalone)
        db).2 := by
  refine commit_rule ?_ (.refl now retention db)
  simp only [sweepTerminalQuarantine, wp_bind, wp_refuseIf, wp_ite, wp_get, wp_set, wp_pure,
    implies_true, true_and]
  intro _
  refine ⟨fun _ => .refl now retention db, fun _ => ?_⟩
  exact wp_mono (expireTerminal_expiry now _ deferSource deferStandalone _)
    (fun _ _ h => h.sweep) (fun _ _ _ => trivial)

/-- Classification alone makes nothing deletable while the retention is positive. -/
theorem Deletable.before_classification {now retention : ℤ} {db : Database ι ε D} {id : ι}
    (hretention : 0 < retention) (h : Deletable (classifyTerminal now retention db) id now) :
    Deletable db id now := by
  have hclass := classifyTerminal_classification now retention db
  obtain ⟨⟨row, hrow, hunprocessable, hblocked, hfree, text, deadline, htext, hliteral, hle⟩,
    hmembers, hstages, hv2⟩ := h
  rw [hclass.members] at hmembers
  rw [hclass.stages] at hstages
  rw [hclass.v2Stages] at hv2
  refine ⟨⟨row, ?_, hunprocessable, hblocked, hfree, text, deadline, htext, hliteral, hle⟩,
    hmembers, hstages, hv2⟩
  rcases hclass.rows id with hsame | ⟨old, _, _, hnew⟩
  · rw [← hsame, hrow]
  · obtain rfl : opaqueTerminal now retention old = row := by simpa using hnew.symm.trans hrow
    obtain rfl : ofInt (now + retention) = text := by simpa [opaqueTerminal] using htext
    rw [literal_ofInt] at hliteral
    have hdeadline := Option.some.inj hliteral
    omega

/-- The step is a sweep that finds the source deletable, and found it so before it classified
anything unless the retention is not positive. -/
def SweptAt (event : Event ι ε D) (db : Database ι ε D) (id : ι) : Prop :=
  ∃ now retention limit defer deferSource deferStandalone,
    event = .sweep now retention limit defer deferSource deferStandalone ∧
      Deletable (classifyTerminal now retention db) id now ∧
      (0 < retention → Deletable db id now)

/-- What one step may do to the database. -/
structure StepEffect (event : Event ι ε D) (db next : Database ι ε D) : Prop where
  rows : ∀ id, RowChange (db.sources.get id) (next.sources.get id)
  removed : ∀ id row, db.sources.get id = some row → next.sources.get id = none →
    SweptAt event db id
  records : ∀ k ∈ db.records.keys, k ∉ next.records.keys → SweptAt event db k.1
  held : ∀ id row, db.sources.get id = some row → Held row → Untouched db next id

theorem stepEffect_of_source {event : Event ι ε D} {db next : Database ι ε D}
    (h : SourceEffect db next) : StepEffect event db next := by
  refine ⟨h.rows, fun id row hrow hnone => ?_, fun k hk hgone => ?_,
    fun id _ _ _ => untouched_of_same h.children id⟩
  · simp [h.kept id hnone] at hrow
  · rw [h.children.records] at hgone
    exact absurd hk hgone

theorem StepEffect.refl (event : Event ι ε D) (db : Database ι ε D) : StepEffect event db db :=
  stepEffect_of_source (.refl db)

/-- Writes to the children of a source that is open to capture. -/
theorem captured_children {event : Event ι ε D} {db next : Database ι ε D} {x : ι}
    (hopen : openToCapture db x = true) (hsound : Sound db) (hsources : next.sources = db.sources)
    (hrecords : ∀ k ∈ db.records.keys, k ∈ next.records.keys)
    (hothers : ∀ id, id ≠ x → Untouched db next id) : StepEffect event db next := by
  refine ⟨fun id => ?_, fun id row hrow hnone => ?_, fun k hk hgone => absurd (hrecords k hk) hgone,
    fun id row hrow hheld => hothers id ?_⟩
  · rw [hsources]
    exact .same _
  · rw [hsources, hrow] at hnone
    exact absurd hnone (by simp)
  · rintro rfl
    have htype := (hsound id row hrow).held hheld
    simp [openToCapture, hrow, htype] at hopen

theorem mem_put_of_ne {κ ν : Type} [DecidableEq κ] {t : Table κ ν} {k : κ} {v : ν} {r : κ × ν}
    (h : r.1 ≠ k) : r ∈ (t.put k v).rows ↔ r ∈ t.rows := by
  obtain ⟨k', w⟩ := r
  rw [Table.mem_rows_put]
  simp only [ne_eq] at h
  simp [h]

theorem mem_delete_of_ne {κ ν : Type} [DecidableEq κ] {t : Table κ ν} {k : κ} {r : κ × ν}
    (h : r.1 ≠ k) : r ∈ (t.delete k).rows ↔ r ∈ t.rows := by
  obtain ⟨k', w⟩ := r
  rw [← Table.get_eq_some, ← Table.get_eq_some, Table.get_delete, if_neg h]

structure Inv (w : World ι ε D) : Prop where
  sound : Sound w.db
  admissions : ∀ a ∈ w.admissions, Admitted w.db a
  conflicts : ∀ c ∈ w.conflicts, Admitted w.db c.1 ∧ c.2.lifecycle = c.1.admittedLifecycle

theorem capture_effect {event : Event ι ε D} {db : Database ι ε D} {id : ι} {row : SourceRow D}
    (h : (openToCapture db id && decide (row.sourceType ≠ .quarantine) &&
      decide (row.blockReason = none)) = true) :
    StepEffect event db { db with sources := db.sources.put id row } := by
  simp only [Bool.and_eq_true, decide_eq_true_eq] at h
  obtain ⟨⟨hopen, htype⟩, hreason⟩ := h
  apply stepEffect_of_source
  refine ⟨fun other => ?_, fun other hnone => ?_, ⟨rfl, rfl, rfl, rfl, rfl⟩⟩
  · change RowChange _ ((db.sources.put id row).get other)
    rw [Table.get_put]
    split
    · rename_i hother
      subst hother
      refine .captured (fun old hold => ?_) htype (by simp [Held, hreason, custodyHeld])
      simpa [openToCapture, hold] using hopen
    · exact .same _
  · change (db.sources.put id row).get other = none at hnone
    rw [Table.get_put] at hnone
    split at hnone
    · exact absurd hnone (by simp)
    · exact hnone

theorem resumeCall_effect (sha256 : Bytes → D) {event : Event ι ε D} (w : World ι ε D)
    (rest : List (Call ι D)) (call : Call ι D) (defer : Bool) (now retention : ℤ) :
    StepEffect event w.db (resumeCall sha256 w rest call defer now retention).db := by
  cases call with
  | authenticate id inspected pageLimit =>
    unfold resumeCall
    dsimp only
    split <;> exact .refl event w.db
  | hold id inspected => exact stepEffect_of_source (holdSource_effect w.db)
  | persist id inspected => exact stepEffect_of_source (admitInspected_effect w.db)

theorem step_effect (sha256 : Bytes → D) {w : World ι ε D} (h : Inv w) (event : Event ι ε D) :
    StepEffect event w.db (step sha256 w event).db := by
  cases event with
  | quarantinePending reason clock retention => exact stepEffect_of_source (quarantinePending_effect w.db)
  | quarantineAttemptSource id now retention => exact stepEffect_of_source (quarantineAttemptSource_effect w.db)
  | terminalizePrefix id now retention => exact stepEffect_of_source (terminalizePrefixAttempt_effect h.sound)
  | admitPrefix id pageLimit defer =>
    simp only [step]
    split <;> exact .refl _ w.db
  | resume index defer now retention =>
    simp only [step]
    split
    · exact .refl _ w.db
    · exact resumeCall_effect sha256 w _ _ defer now retention
  | markUnprocessable id reason now retention =>
    exact stepEffect_of_source (markQuarantineUnprocessable_effect w.db)
  | sweep now retention limit defer deferSource deferStandalone =>
    have heffect := sweep_effect now retention limit defer deferSource deferStandalone w.db
    have hswept : ∀ id, Deletable (classifyTerminal now retention w.db) id now →
        SweptAt (.sweep now retention limit defer deferSource deferStandalone) w.db id :=
      fun id hd => ⟨now, retention, limit, defer, deferSource, deferStandalone, rfl, hd,
        fun hretention => hd.before_classification hretention⟩
    exact ⟨heffect.rows, fun id row hrow hnone => hswept id (heffect.removed id row hrow hnone),
      fun k hk hgone => hswept k.1 (heffect.records k hk hgone), heffect.held⟩
  | loadAdmission id =>
    simp only [step]
    split <;> exact .refl _ w.db
  | loadMember index =>
    simp only [step]
    split <;> exact .refl _ w.db
  | readConflict index =>
    simp only [step]
    split
    · exact .refl _ w.db
    · split <;> exact .refl _ w.db
  | blockConflict index =>
    simp only [step]
    split
    · exact .refl _ w.db
    · rename_i admission old hconflict
      obtain ⟨hadmitted, hlifecycle⟩ := h.conflicts _ (List.mem_of_getElem? hconflict)
      exact stepEffect_of_source (blockConflict_effect h.sound hadmitted hlifecycle)
  | capture id row =>
    simp only [step]
    split
    · rename_i hcapture
      exact capture_effect hcapture
    · exact .refl _ w.db
  | captureRecord id ordinal record =>
    simp only [step]
    split
    · rename_i hopen
      refine captured_children hopen h.sound rfl (fun k hk => Table.mem_keys_put hk) ?_
      intro other hother
      refine { Untouched.refl w.db other with records := fun r hr => mem_put_of_ne ?_ }
      intro hkey
      exact hother (hr.symm.trans (congrArg Prod.fst hkey))
    · exact .refl _ w.db
  | captureTail id tail =>
    simp only [step]
    split
    · rename_i hopen
      cases tail with
      | none =>
        refine captured_children hopen h.sound rfl (fun k hk => hk) ?_
        intro other hother
        refine { Untouched.refl w.db other with tails := fun r hr => mem_delete_of_ne ?_ }
        exact hr ▸ hother
      | some tail =>
        refine captured_children hopen h.sound rfl (fun k hk => hk) ?_
        intro other hother
        refine { Untouched.refl w.db other with tails := fun r hr => mem_put_of_ne ?_ }
        exact hr ▸ hother
    · exact .refl _ w.db
  | captureConflict id ordinal conflict =>
    simp only [step]
    split
    · rename_i hopen
      refine captured_children hopen h.sound rfl (fun k hk => hk) ?_
      intro other hother
      refine { Untouched.refl w.db other with conflicts := fun r hr => mem_put_of_ne ?_ }
      intro hkey
      exact hother (hr.symm.trans (congrArg Prod.fst hkey))
    · exact .refl _ w.db
  | references members stageRanges v2StageRanges =>
    apply stepEffect_of_source
    exact ⟨fun _ => .same _, fun _ hnone => hnone, ⟨rfl, rfl, rfl, rfl, rfl⟩⟩

theorem resumeCall_lists (sha256 : Bytes → D) (w : World ι ε D) (rest : List (Call ι D))
    (call : Call ι D) (defer : Bool) (now retention : ℤ) :
    (resumeCall sha256 w rest call defer now retention).admissions = w.admissions ∧
      (resumeCall sha256 w rest call defer now retention).conflicts = w.conflicts := by
  cases call with
  | authenticate id inspected pageLimit =>
    unfold resumeCall
    dsimp only
    split <;> exact ⟨rfl, rfl⟩
  | hold id inspected => exact ⟨rfl, rfl⟩
  | persist id inspected => exact ⟨rfl, rfl⟩

/-- An admission in flight was loaded from the rows of an earlier state. -/
theorem step_admissions (sha256 : Bytes → D) (w : World ι ε D) (event : Event ι ε D) :
    ∀ a ∈ (step sha256 w event).admissions, a ∈ w.admissions ∨ Admitted w.db a := by
  intro a ha
  cases event with
  | admitPrefix id pageLimit defer =>
    simp only [step] at ha
    split at ha <;> exact .inl ha
  | resume index defer now retention =>
    simp only [step] at ha
    split at ha
    · exact .inl ha
    · rw [(resumeCall_lists sha256 w _ _ defer now retention).1] at ha
      exact .inl ha
  | loadAdmission id =>
    simp only [step] at ha
    split at ha
    · rename_i loaded hload
      obtain ⟨row, hrow, hok⟩ := Option.map_eq_some_iff.mp hload
      rcases List.mem_append.mp ha with ha | ha
      · exact .inl ha
      · obtain rfl : a = loaded := by simpa using ha
        exact .inr (typedAdmission_admitted hrow hok)
    · exact .inl ha
  | loadMember index =>
    simp only [step] at ha
    split at ha
    · rename_i loaded hload
      obtain ⟨member, _, hok⟩ := Option.map_eq_some_iff.mp hload
      rcases List.mem_append.mp ha with ha | ha
      · exact .inl ha
      · obtain rfl : a = loaded := by simpa using ha
        exact .inr (persistedAdmission_admitted hok)
    · exact .inl ha
  | readConflict index =>
    simp only [step] at ha
    split at ha
    · exact .inl ha
    · split at ha <;> exact .inl ha
  | blockConflict index =>
    simp only [step] at ha
    split at ha <;> exact .inl ha
  | capture id row =>
    simp only [step] at ha
    split at ha <;> exact .inl ha
  | captureRecord id ordinal record =>
    simp only [step] at ha
    split at ha <;> exact .inl ha
  | captureTail id tail =>
    simp only [step] at ha
    split at ha
    · split at ha <;> exact .inl ha
    · exact .inl ha
  | captureConflict id ordinal conflict =>
    simp only [step] at ha
    split at ha <;> exact .inl ha
  | _ => exact .inl ha

theorem step_conflicts (sha256 : Bytes → D) (w : World ι ε D) (event : Event ι ε D) :
    ∀ c ∈ (step sha256 w event).conflicts, c ∈ w.conflicts ∨
      (c.1 ∈ w.admissions ∧ c.2.lifecycle = c.1.admittedLifecycle) := by
  intro c hc
  cases event with
  | admitPrefix id pageLimit defer =>
    simp only [step] at hc
    split at hc <;> exact .inl hc
  | resume index defer now retention =>
    simp only [step] at hc
    split at hc
    · exact .inl hc
    · rw [(resumeCall_lists sha256 w _ _ defer now retention).2] at hc
      exact .inl hc
  | loadAdmission id =>
    simp only [step] at hc
    split at hc <;> exact .inl hc
  | loadMember index =>
    simp only [step] at hc
    split at hc <;> exact .inl hc
  | readConflict index =>
    simp only [step] at hc
    split at hc
    · exact .inl hc
    rename_i admission hadmission
    split at hc
    swap
    · exact .inl hc
    rename_i old hold
    rcases List.mem_append.mp hc with hc | hc
    · exact .inl hc
    obtain rfl : c = (admission, old) := by simpa using hc
    refine .inr ⟨List.mem_of_getElem? hadmission, ?_⟩
    unfold typedConflictDisposition at hold
    split at hold
    · exact absurd hold (by simp)
    split at hold
    · exact absurd hold (by simp)
    rename_i hmatch
    obtain rfl := Except.ok.inj hold
    rw [not_or, not_or] at hmatch
    simpa using hmatch.2.1
  | blockConflict index =>
    simp only [step] at hc
    split at hc <;> exact .inl hc
  | capture id row =>
    simp only [step] at hc
    split at hc <;> exact .inl hc
  | captureRecord id ordinal record =>
    simp only [step] at hc
    split at hc <;> exact .inl hc
  | captureTail id tail =>
    simp only [step] at hc
    split at hc
    · split at hc <;> exact .inl hc
    · exact .inl hc
  | captureConflict id ordinal conflict =>
    simp only [step] at hc
    split at hc <;> exact .inl hc
  | _ => exact .inl hc

theorem step_inv (sha256 : Bytes → D) {w : World ι ε D} (h : Inv w) (event : Event ι ε D) :
    Inv (step sha256 w event) := by
  have heffect := step_effect sha256 h event
  have hadmitted : ∀ a, Admitted w.db a → Admitted (step sha256 w event).db a :=
    fun a ha => ha.change h.sound heffect.rows
  refine ⟨SourceEffect.sound heffect.rows h.sound, fun a ha => ?_, fun c hc => ?_⟩
  · rcases step_admissions sha256 w event a ha with ha | ha
    · exact hadmitted a (h.admissions a ha)
    · exact hadmitted a ha
  · rcases step_conflicts sha256 w event c hc with hc | ⟨ha, hlifecycle⟩
    · exact ⟨hadmitted c.1 (h.conflicts c hc).1, (h.conflicts c hc).2⟩
    · exact ⟨hadmitted c.1 (h.admissions c.1 ha), hlifecycle⟩

/-- A run starts with no admission of the publisher in flight. -/
structure Initial (w : World ι ε D) : Prop where
  sound : Sound w.db
  admissions : w.admissions = []
  conflicts : w.conflicts = []

theorem Initial.inv {w : World ι ε D} (h : Initial w) : Inv w :=
  ⟨h.sound, by simp [h.admissions], by simp [h.conflicts]⟩

theorem run_inv (sha256 : Bytes → D) {w : World ι ε D} (h : Initial w)
    (events : List (Event ι ε D)) : Inv (run (step sha256) w events) := by
  have hstep : ∀ (w : World ι ε D) event, True → Inv w → Inv (step sha256 w event) :=
    fun _ event _ hw => step_inv sha256 hw event
  exact run_invariant hstep h.inv (fun _ _ => trivial)

/-- The calls that would classify or admit a held source refuse it. -/
structure Refuses (db : Database ι ε D) (id : ι) : Prop where
  mark : ∀ reason now retention, ∃ e,
    (commit (markQuarantineUnprocessable id reason now retention) db).1 = .error e
  admission : ∀ pageLimit defer, ∃ e, admitQuarantinedPrefix db id pageLimit defer = .error e
  persist : ∀ inspected now retention, ∃ e,
    (commit (admitInspected id inspected now retention) db).1 = .error e

theorem commit_refused {α : Type} {x : Transaction ι ε D α} {db : Database ι ε D}
    (h : wp x db (fun _ _ => False) (fun _ _ => True)) : ∃ e, (commit x db).1 = .error e := by
  unfold wp at h
  unfold commit
  split at h
  · exact h.elim
  · rename_i e next heq
    rw [heq]
    exact ⟨e, rfl⟩

theorem refuses_of_held {db : Database ι ε D} {id : ι} {row : SourceRow D}
    (hrow : db.sources.get id = some row) (hheld : Held row) : Refuses db id := by
  have hread : ∀ snapshot, readTypedAdmissionSnapshot db id ≠ .ok snapshot := by
    intro snapshot hok
    obtain ⟨row', hrow', _, hfree, _⟩ := readTypedAdmissionSnapshot_ok hok
    obtain rfl : row = row' := by simpa using hrow.symm.trans hrow'
    exact hfree hheld
  refine ⟨fun reason now retention => commit_refused ?_, fun pageLimit defer => ?_,
    fun inspected now retention => commit_refused ?_⟩
  · simp only [markQuarantineUnprocessable, wp_bind, wp_refuseIf, wp_get, wp_requireSome,
      implies_true, true_and]
    intro _ current hcurrent _ hfree
    obtain rfl : row = current := by simpa using hrow.symm.trans hcurrent
    exact absurd hheld hfree
  · unfold admitQuarantinedPrefix
    split
    · exact ⟨_, rfl⟩
    · split
      · rename_i e he
        exact ⟨e, rfl⟩
      · rename_i snapshot hok
        exact absurd hok (hread snapshot)
  · simp only [admitInspected, wp_bind, wp_get, wp_requireOk, implies_true, true_and]
    intro snapshot hok
    exact absurd hok (hread snapshot)

/-- Quarantine custody over whole runs, whatever the clock, the limits and the retention, and
whatever capture and publication do in between. -/
theorem quarantine_custody (sha256 : Bytes → D) {w : World ι ε D} (hinitial : Initial w)
    (events : List (Event ι ε D)) (event : Event ι ε D) :
    let before := (run (step sha256) w events).db
    let after := (step sha256 (run (step sha256) w events) event).db
    (∀ k ∈ before.records.keys, k ∉ after.records.keys → SweptAt event before k.1) ∧
    (∀ id row, before.sources.get id = some row → Held row →
      Refuses before id ∧ Untouched before after id ∧ ∃ row', after.sources.get id = some row' ∧
        Held row' ∧ row'.quarantineDisposition = row.quarantineDisposition) ∧
    (∀ id row, before.sources.get id = some row → Unprocessable row →
      (∀ snapshot, readTypedAdmissionSnapshot before id ≠ .ok snapshot) ∧
        (after.sources.get id = some row ∨
          (after.sources.get id = none ∧ SweptAt event before id))) ∧
    (∀ id row, before.sources.get id = some row → PublishedPrefix row →
      after.sources.get id = some row ∨ ∃ row', after.sources.get id = some row' ∧
        Held row' ∧ row'.quarantineDisposition = some .unclassified) ∧
    (∀ id row, before.sources.get id = some row → PublishedPrefix row → Certified row) := by
  have hinv := run_inv sha256 hinitial events
  have heffect := step_effect sha256 hinv event
  have hchange : ∀ id row, (run (step sha256) w events).db.sources.get id = some row →
      RowChange (some row)
        ((step sha256 (run (step sha256) w events) event).db.sources.get id) := by
    intro id row hrow
    have h := heffect.rows id
    rwa [hrow] at h
  refine ⟨heffect.records, fun id row hrow hheld => ⟨refuses_of_held hrow hheld,
      heffect.held id row hrow hheld, ?_⟩, fun id row hrow hunprocessable => ⟨fun snapshot hok => ?_,
      ?_⟩, fun id row hrow hpublished => (hchange id row hrow).of_published hpublished,
    fun id row hrow hpublished => ((hinv.sound id row hrow).published hpublished).1⟩
  · exact (hchange id row hrow).of_held (hinv.sound id row hrow) hheld
  · obtain ⟨row', hrow', _, _, hdisposition, _⟩ := readTypedAdmissionSnapshot_ok hok
    obtain rfl : row = row' := by simpa using hrow.symm.trans hrow'
    exact hdisposition hunprocessable.2
  · rcases (hchange id row hrow).of_unprocessable hunprocessable with hsame | hnone
    · exact .inl hsame
    · exact .inr ⟨hnone, heffect.removed id row hrow hnone⟩

/-- One interrupted attempt with one committed record. -/
def interruptedWorld : World ℕ ℕ ℕ where
  db :=
    { sources := Table.empty.put 1
        { sourceType := .attempt, lifecycle := .interrupted, sequenceStart := 40
          sequenceLimit := 50, committedCount := 1, committedSha256 := 7, closureFrontier := none
          blockReason := none, quarantineDisposition := none, quarantineOpaque := none
          terminalReason := none, terminalTime := none, retentionDeadline := none
          certifiedPrefixCount := none, coverageDigest := none, retirementCursor := none }
      records := Table.empty.put (1, 0) ⟨9, []⟩
      tails := .empty, conflicts := .empty, evidence := .empty, evidenceChunks := .empty
      cohortMembers := [], stageRanges := [], v2StageRanges := [], packetSummaries := [] }
  calls := []
  admissions := []
  conflicts := []

theorem interruptedWorld_initial : Initial interruptedWorld := by
  refine ⟨fun id row hrow => ?_, rfl, rfl⟩
  simp only [interruptedWorld, Table.get_put, Table.get_empty] at hrow
  split at hrow
  · obtain rfl := Option.some.inj hrow
    exact ⟨by simp, by simp [Held, custodyHeld], by simp [PublishedPrefix]⟩
  · exact absurd hrow (by simp)

/-- The record of a classified attempt goes with the first sweep after the retention. -/
theorem quarantine_custody_swept :
    let events : List (Event ℕ ℕ ℕ) :=
      [.quarantineAttemptSource 1 5 10, .markUnprocessable 1 "unreadable" 5 10]
    let sweep : Event ℕ ℕ ℕ := .sweep 15 10 128 false false false
    let before := run (step (fun _ => 7)) interruptedWorld events
    (1, 0) ∈ before.db.records.keys ∧ (1, 0) ∉ (step (fun _ => 7) before sweep).db.records.keys ∧
      SweptAt sweep before.db 1 := by
  have hbefore : (1, 0) ∈ (run (step (fun _ => 7)) interruptedWorld
      [.quarantineAttemptSource 1 5 10, .markUnprocessable 1 "unreadable" 5 10]).db.records.keys := by
    decide +kernel
  have hafter : (1, 0) ∉ (step (fun _ => 7) (run (step (fun _ => 7)) interruptedWorld
      [.quarantineAttemptSource 1 5 10, .markUnprocessable 1 "unreadable" 5 10])
      (.sweep 15 10 128 false false false)).db.records.keys := by decide +kernel
  exact ⟨hbefore, hafter, (quarantine_custody (fun _ => 7) interruptedWorld_initial _
    (.sweep 15 10 128 false false false)).1 (1, 0) hbefore hafter⟩

end QuarantineCustody
