import OmiCollector.QuarantineStore

/-! What the quarantine transactions do to a source. One relation says everything that may happen
to its row; holds, terminal classifications and certified prefixes are read off it, and every
transaction is shown to stay inside it. -/
namespace QuarantineRows

open AudioMachine ByteCodec CaptureModel DecimalText KeyedTable QuarantineStore RefusalLogic

set_option linter.unusedSectionVars false

variable {ι ε D : Type} [LinearOrder ι] [LinearOrder ε] [DecidableEq D]

def Held (row : SourceRow D) : Prop := custodyHeld row.blockReason = true

instance (row : SourceRow D) : Decidable (Held row) := inferInstanceAs (Decidable (_ = _))

/-- A certified prefix is the whole committed prefix. -/
def Certified (row : SourceRow D) : Prop :=
  row.certifiedPrefixCount = some row.committedCount ∧
    row.coverageDigest = some row.committedSha256

def Unprocessable (row : SourceRow D) : Prop :=
  row.sourceType = .quarantine ∧ row.quarantineDisposition = some .unprocessable

def PublishedPrefix (row : SourceRow D) : Prop :=
  row.sourceType = .quarantine ∧ row.quarantineDisposition = some .publishedPrefix

structure RowSound (row : SourceRow D) : Prop where
  lifecycle : row.sourceType = .quarantine →
    row.lifecycle ∈ [AudioPhase.blocked, .covered, .retiring]
  held : Held row → row.sourceType = .quarantine
  published : PublishedPrefix row → Certified row ∧ ¬ Held row

/-- An active attempt has been blocked. -/
structure Quarantined (old new : SourceRow D) : Prop where
  before : old.sourceType ≠ .quarantine
  type : new.sourceType = .quarantine
  lifecycle : new.lifecycle = .blocked
  disposition : new.quarantineDisposition ≠ some .publishedPrefix

/-- Everything one step may do to the row of a source. -/
inductive RowChange : Option (SourceRow D) → Option (SourceRow D) → Prop where
  | same (row : Option (SourceRow D)) : RowChange row row
  | captured {old : Option (SourceRow D)} {new : SourceRow D}
      (before : ∀ row, old = some row → row.sourceType ≠ .quarantine)
      (type : new.sourceType ≠ .quarantine) (free : ¬ Held new) : RowChange old (some new)
  | quarantined {old new : SourceRow D} (change : Quarantined old new) :
      RowChange (some old) (some new)
  | classified {old new : SourceRow D} (before : old.sourceType = .quarantine)
      (unclassified : old.quarantineDisposition = some .unclassified) (free : ¬ Held old)
      (type : new.sourceType = .quarantine) (lifecycle : new.lifecycle = old.lifecycle)
      (reason : new.blockReason = old.blockReason)
      (disposition : new.quarantineDisposition = some .unprocessable) :
      RowChange (some old) (some new)
  | certified {old new : SourceRow D} (before : old.sourceType = .quarantine)
      (unclassified : old.quarantineDisposition = some .unclassified) (free : ¬ Held old)
      (type : new.sourceType = .quarantine) (lifecycle : new.lifecycle = old.lifecycle)
      (reason : new.blockReason = old.blockReason) (prefixed : Certified new) :
      RowChange (some old) (some new)
  | held {old new : SourceRow D} (before : ¬ Unprocessable old)
      (kept : Held old → old.quarantineDisposition = some .unclassified)
      (type : new.sourceType = .quarantine) (lifecycle : new.lifecycle = .blocked)
      (hold : Held new) (disposition : new.quarantineDisposition = some .unclassified) :
      RowChange (some old) (some new)
  | deleted {old : SourceRow D} (before : old.sourceType = .quarantine) (free : ¬ Held old)
      (disposition : old.quarantineDisposition ≠ some .publishedPrefix) :
      RowChange (some old) none

theorem RowChange.sound {old : Option (SourceRow D)} {new : SourceRow D}
    (h : RowChange old (some new)) (hold : ∀ row, old = some row → RowSound row) :
    RowSound new := by
  cases h with
  | same => exact hold new rfl
  | captured before type free =>
    exact ⟨fun h => absurd h type, fun h => absurd h free, fun h => absurd h.1 type⟩
  | quarantined change =>
    exact ⟨fun _ => by simp [change.lifecycle], fun _ => change.type,
      fun h => absurd h.2 change.disposition⟩
  | classified before unclassified free type lifecycle reason disposition =>
    refine ⟨fun _ => lifecycle ▸ (hold _ rfl).lifecycle before, fun _ => type, fun h => ?_⟩
    rw [PublishedPrefix, disposition] at h
    simp at h
  | certified before unclassified free type lifecycle reason prefixed =>
    refine ⟨fun _ => lifecycle ▸ (hold _ rfl).lifecycle before, fun _ => type,
      fun _ => ⟨prefixed, ?_⟩⟩
    rw [Held, reason]
    exact free
  | held before kept type lifecycle hheld disposition =>
    refine ⟨fun _ => by simp [lifecycle], fun _ => type, fun h => ?_⟩
    rw [PublishedPrefix, disposition] at h
    simp at h

/-- A hold is never released, and its row keeps the disposition it was held with. -/
theorem RowChange.of_held {row : SourceRow D} {new : Option (SourceRow D)}
    (h : RowChange (some row) new) (hsound : RowSound row) (hheld : Held row) :
    ∃ row', new = some row' ∧ Held row' ∧
      row'.quarantineDisposition = row.quarantineDisposition := by
  cases h with
  | same => exact ⟨row, rfl, hheld, rfl⟩
  | captured before => exact absurd (hsound.held hheld) (before row rfl)
  | quarantined change => exact absurd (hsound.held hheld) change.before
  | classified _ _ free => exact absurd hheld free
  | certified _ _ free => exact absurd hheld free
  | held before kept _ _ hold disposition =>
    exact ⟨_, rfl, hold, disposition.trans (kept hheld).symm⟩
  | deleted _ free => exact absurd hheld free

theorem RowChange.of_unprocessable {row : SourceRow D} {new : Option (SourceRow D)}
    (h : RowChange (some row) new) (hrow : Unprocessable row) :
    new = some row ∨ new = none := by
  cases h with
  | same => exact .inl rfl
  | captured before => exact absurd hrow.1 (before row rfl)
  | quarantined change => exact absurd hrow.1 change.before
  | classified _ unclassified => simp [hrow.2] at unclassified
  | certified _ unclassified => simp [hrow.2] at unclassified
  | held before => exact absurd hrow before
  | deleted => exact .inr rfl

theorem RowChange.of_published {row : SourceRow D} {new : Option (SourceRow D)}
    (h : RowChange (some row) new) (hrow : PublishedPrefix row) :
    new = some row ∨ ∃ row', new = some row' ∧ Held row' ∧
      row'.quarantineDisposition = some .unclassified := by
  cases h with
  | same => exact .inl rfl
  | captured before => exact absurd hrow.1 (before row rfl)
  | quarantined change => exact absurd hrow.1 change.before
  | classified _ unclassified => simp [hrow.2] at unclassified
  | certified _ unclassified => simp [hrow.2] at unclassified
  | held _ _ _ _ hold disposition => exact .inr ⟨_, rfl, hold, disposition⟩
  | deleted _ _ disposition => exact absurd hrow.2 disposition

/-- The tables other than the source rows. -/
structure SameChildren (db next : Database ι ε D) : Prop where
  records : next.records = db.records
  tails : next.tails = db.tails
  conflicts : next.conflicts = db.conflicts
  evidence : next.evidence = db.evidence
  evidenceChunks : next.evidenceChunks = db.evidenceChunks

structure SourceEffect (db next : Database ι ε D) : Prop where
  rows : ∀ id, RowChange (db.sources.get id) (next.sources.get id)
  kept : ∀ id, next.sources.get id = none → db.sources.get id = none
  children : SameChildren db next

theorem SourceEffect.refl (db : Database ι ε D) : SourceEffect db db :=
  ⟨fun _ => .same _, fun _ h => h, ⟨rfl, rfl, rfl, rfl, rfl⟩⟩

/-- A committed transaction has its effect; a refused one has none. -/
theorem commit_rule {α : Type} {x : Transaction ι ε D α} {db : Database ι ε D}
    {P : Database ι ε D → Prop} (h : wp x db (fun _ next => P next) (fun _ _ => True))
    (hsame : P db) : P (commit x db).2 := by
  unfold wp at h
  unfold commit
  split at h
  · rename_i heq
    rw [heq]
    exact h
  · rename_i heq
    rw [heq]
    exact hsame

theorem adjust_effect {db : Database ι ε D} {id : ι} {row : SourceRow D}
    {change : SourceRow D → SourceRow D} (hrow : db.sources.get id = some row)
    (h : RowChange (some row) (some (change row))) :
    SourceEffect db { db with sources := db.sources.adjust id change } := by
  refine ⟨fun other => ?_, fun other hnone => ?_, ⟨rfl, rfl, rfl, rfl, rfl⟩⟩
  · change RowChange _ ((db.sources.adjust id change).get other)
    rw [Table.get_adjust]
    split
    · rename_i hid
      rw [hid, hrow]
      exact h
    · exact .same _
  · change (db.sources.adjust id change).get other = none at hnone
    rw [Table.get_adjust] at hnone
    split at hnone
    · exact Option.map_eq_none_iff.mp hnone
    · exact hnone

theorem wp_updateSource {db : Database ι ε D} {id : ι} {matching : SourceRow D → Bool}
    {change : SourceRow D → SourceRow D} {error : Failure}
    {Q : PUnit → Database ι ε D → Prop}
    (h : ∀ row, db.sources.get id = some row → matching row = true →
      Q ⟨⟩ { db with sources := db.sources.adjust id change }) :
    wp (updateSource id matching change error) db Q (fun _ _ => True) := by
  simp only [updateSource, wp_bind, wp_get, wp_requireSome, wp_refuseIf, wp_modify,
    implies_true, true_and]
  intro row hrow hmatch
  exact h row hrow (by simpa using hmatch)

theorem SameChildren.trans {db mid next : Database ι ε D} (h : SameChildren db mid)
    (h' : SameChildren mid next) : SameChildren db next :=
  ⟨h'.records.trans h.records, h'.tails.trans h.tails, h'.conflicts.trans h.conflicts,
    h'.evidence.trans h.evidence, h'.evidenceChunks.trans h.evidenceChunks⟩

/-- Some attempts have been blocked and nothing else has changed. -/
structure QuarantineEffect (db next : Database ι ε D) : Prop where
  rows : ∀ id, next.sources.get id = db.sources.get id ∨
    ∃ old new, db.sources.get id = some old ∧ next.sources.get id = some new ∧
      Quarantined old new
  children : SameChildren db next

theorem QuarantineEffect.refl (db : Database ι ε D) : QuarantineEffect db db :=
  ⟨fun _ => .inl rfl, ⟨rfl, rfl, rfl, rfl, rfl⟩⟩

theorem QuarantineEffect.trans {db mid next : Database ι ε D} (h : QuarantineEffect db mid)
    (h' : QuarantineEffect mid next) : QuarantineEffect db next := by
  refine ⟨fun id => ?_, h.children.trans h'.children⟩
  rcases h'.rows id with hsame' | ⟨old', new', hold', hnew', change'⟩
  · rw [hsame']
    exact h.rows id
  · rcases h.rows id with hsame | ⟨old, new, hold, hnew, change⟩
    · exact .inr ⟨old', new', hsame ▸ hold', hnew', change'⟩
    · -- a row blocked by the first transaction is no attempt for the second
      obtain rfl : new = old' := by simpa using hnew.symm.trans hold'
      exact absurd change.type change'.before

theorem QuarantineEffect.source {db next : Database ι ε D} (h : QuarantineEffect db next) :
    SourceEffect db next := by
  refine ⟨fun id => ?_, fun id hnone => ?_, h.children⟩
  · rcases h.rows id with hsame | ⟨old, new, hold, hnew, change⟩
    · rw [hsame]
      exact .same _
    · rw [hold, hnew]
      exact .quarantined change
  · rcases h.rows id with hsame | ⟨old, new, hold, hnew, change⟩
    · rw [← hsame, hnone]
    · simp [hnone] at hnew

theorem adjust_quarantines {db : Database ι ε D} {id : ι} {row : SourceRow D}
    {change : SourceRow D → SourceRow D} (hrow : db.sources.get id = some row)
    (h : Quarantined row (change row)) :
    QuarantineEffect db { db with sources := db.sources.adjust id change } := by
  refine ⟨fun other => ?_, ⟨rfl, rfl, rfl, rfl, rfl⟩⟩
  change (db.sources.adjust id change).get other = _ ∨
    ∃ old new, _ ∧ (db.sources.adjust id change).get other = _ ∧ _
  rw [Table.get_adjust]
  by_cases hid : other = id
  · subst hid
    exact .inr ⟨row, change row, hrow, by simp [hrow], h⟩
  · rw [if_neg hid]
    exact .inl rfl

theorem typedQuarantineRow_effect {db : Database ι ε D} {id : ι} {lifecycle : AudioPhase}
    {reason : String} {now retention : ℤ} :
    wp (typedQuarantineRow id lifecycle reason now retention) db
      (fun _ next => QuarantineEffect db next) (fun _ _ => True) := by
  simp only [typedQuarantineRow, wp_bind, wp_refuseIf, wp_get, wp_requireSome, implies_true,
    true_and]
  intro _ row hrow _ _ disposition hdisposition
  apply wp_updateSource
  intro row' hrow' hmatch
  obtain rfl : row = row' := by simpa using hrow.symm.trans hrow'
  simp only [Bool.and_eq_true, decide_eq_true_eq] at hmatch
  have hpublished : disposition ≠ .publishedPrefix := by
    rintro rfl
    simp only [classifyConflict, quarantineOpened, ne_eq, not_true_eq_false, if_false] at hdisposition
    split at hdisposition <;> simp at hdisposition
  exact adjust_quarantines hrow ⟨by simp [hmatch.1], rfl, rfl, by simpa using hpublished⟩

theorem quarantineRows_effect {reason : String} {clock : ι → ℤ} {retention : ℤ}
    (rows : List (ι × AudioPhase)) (db : Database ι ε D) :
    wp (quarantineRows reason clock retention rows) db
      (fun _ next => QuarantineEffect db next) (fun _ _ => True) := by
  induction rows generalizing db with
  | nil => exact .refl db
  | cons r rest ih =>
    simp only [quarantineRows, wp_bind]
    refine wp_mono typedQuarantineRow_effect (fun _ mid hmid => ?_) (fun _ _ _ => trivial)
    exact wp_mono (ih mid) (fun _ next hnext => hmid.trans hnext) (fun _ _ _ => trivial)

theorem quarantinePending_effect {reason : String} {clock : ι → ℤ} {retention : ℤ}
    (db : Database ι ε D) :
    SourceEffect db (commit (quarantinePending reason clock retention) db).2 := by
  refine commit_rule ?_ (.refl db)
  simp only [quarantinePending, wp_bind, wp_refuseIf, wp_get, wp_pure, implies_true, true_and]
  intro _
  exact wp_mono (quarantineRows_effect _ db) (fun _ _ h => h.source) (fun _ _ _ => trivial)

theorem quarantineAttemptSource_effect {id : ι} {now retention : ℤ} (db : Database ι ε D) :
    SourceEffect db (commit (quarantineAttemptSource id now retention) db).2 := by
  refine commit_rule ?_ (.refl db)
  simp only [quarantineAttemptSource, wp_bind, wp_refuseIf, wp_get, wp_requireSome, wp_ite,
    wp_pure, implies_true, true_and]
  intro row _
  refine ⟨fun _ => .refl db, fun _ _ _ => ?_⟩
  exact wp_mono typedQuarantineRow_effect (fun _ _ h => h.source) (fun _ _ _ => trivial)

/-- Rows of a database as every transaction finds them. -/
def Sound (db : Database ι ε D) : Prop := ∀ id row, db.sources.get id = some row → RowSound row

theorem SourceEffect.sound {db next : Database ι ε D}
    (h : ∀ id, RowChange (db.sources.get id) (next.sources.get id)) (hsound : Sound db) :
    Sound next := by
  intro id row hrow
  have hchange := h id
  rw [hrow] at hchange
  exact hchange.sound (hsound id)

theorem terminalizePrefixAttempt_effect {id : ι} {now retention : ℤ} {db : Database ι ε D}
    (hsound : Sound db) :
    SourceEffect db (commit (terminalizePrefixAttempt id now retention) db).2 := by
  refine commit_rule ?_ (.refl db)
  simp only [terminalizePrefixAttempt, wp_bind, wp_refuseIf, wp_get, wp_requireSome, wp_ite,
    wp_pure, implies_true, true_and]
  intro row hrow hattempt
  refine ⟨fun _ => .refl db, fun _ _ => ⟨fun _ => ?_, fun _ => ?_⟩⟩
  · exact wp_mono typedQuarantineRow_effect (fun _ _ h => h.source) (fun _ _ _ => trivial)
  · apply wp_updateSource
    intro row' hrow' _
    obtain rfl : row = row' := by simpa using hrow.symm.trans hrow'
    have htype : row.sourceType ≠ .quarantine := by
      intro h
      simp [h] at hattempt
    refine adjust_effect hrow (.captured (fun r hr => ?_) htype (fun hheld => ?_))
    · obtain rfl : row = r := by simpa using hr
      exact htype
    · exact htype ((hsound id row hrow).held hheld)

theorem markQuarantineUnprocessable_effect {id : ι} {reason : String} {now retention : ℤ}
    (db : Database ι ε D) :
    SourceEffect db (commit (markQuarantineUnprocessable id reason now retention) db).2 := by
  refine commit_rule ?_ (.refl db)
  simp only [markQuarantineUnprocessable, wp_bind, wp_refuseIf, wp_get, wp_requireSome, wp_ite,
    wp_pure, implies_true, true_and]
  intro _ current _ _ _
  refine ⟨fun _ => .refl db, fun _ _ _ => ?_⟩
  apply wp_updateSource
  intro row hrow hmatch
  simp only [Bool.and_eq_true, decide_eq_true_eq, Bool.not_eq_true'] at hmatch
  obtain ⟨⟨⟨htype, _⟩, hdisposition⟩, hfree⟩ := hmatch
  exact adjust_effect hrow
    (.classified htype hdisposition (by simp [Held, hfree]) htype rfl rfl rfl)

/-- What a successful snapshot says about its row. -/
theorem readTypedAdmissionSnapshot_ok {db : Database ι ε D} {id : ι}
    {snapshot : AdmissionSnapshot D} (h : readTypedAdmissionSnapshot db id = .ok snapshot) :
    ∃ row, db.sources.get id = some row ∧ row.sourceType = .quarantine ∧ ¬ Held row ∧
      row.quarantineDisposition ≠ some .unprocessable ∧
      snapshot.disposition = row.quarantineDisposition ∧
      snapshot.recordCount = row.committedCount ∧ snapshot.rawSha256 = row.committedSha256 := by
  unfold readTypedAdmissionSnapshot at h
  split at h
  · exact absurd h (by simp)
  rename_i row hrow
  split at h
  swap
  · exact absurd h (by simp)
  rename_i htype
  unfold typedAdmissionSnapshot at h
  split at h
  · exact absurd h (by simp)
  rename_i hheld
  split at h
  · exact absurd h (by simp)
  split at h
  · exact absurd h (by simp)
  split at h
  · exact absurd h (by simp)
  rename_i hdisposition
  obtain rfl := Except.ok.inj h
  refine ⟨row, hrow, htype, hheld, ?_, rfl, rfl, rfl⟩
  intro hbad
  simp [hbad] at hdisposition

theorem admitInspected_effect {id : ι} {inspected : AdmissionSnapshot D} {now retention : ℤ}
    (db : Database ι ε D) :
    SourceEffect db (commit (admitInspected id inspected now retention) db).2 := by
  refine commit_rule ?_ (.refl db)
  simp only [admitInspected, persistTypedAdmission, wp_bind, wp_refuseIf, wp_get, wp_requireOk,
    wp_ite, wp_pure, implies_true, true_and]
  intro snapshot hread _
  obtain ⟨current, hcurrent, _, _, _, _, hcount, hsha⟩ := readTypedAdmissionSnapshot_ok hread
  refine ⟨fun _ _ => .refl db, fun _ _ => ?_⟩
  apply wp_updateSource
  intro row hrow hmatch
  simp only [Bool.and_eq_true, decide_eq_true_eq, Bool.not_eq_true'] at hmatch
  obtain ⟨⟨⟨htype, _⟩, hdisposition⟩, hfree⟩ := hmatch
  obtain rfl : current = row := by simpa using hcurrent.symm.trans hrow
  refine adjust_effect hrow
    (.certified htype hdisposition (by simp [Held, hfree]) htype rfl rfl ⟨?_, ?_⟩)
  · simp [hcount]
  · simp [hsha]

theorem holdSource_effect {id : ι} {inspected : AdmissionSnapshot D} (db : Database ι ε D) :
    SourceEffect db (commit (holdSourceAuthenticationMismatch id inspected) db).2 := by
  refine commit_rule ?_ (.refl db)
  simp only [holdSourceAuthenticationMismatch, wp_bind, wp_refuseIf, wp_get, wp_requireOk,
    wp_requireSome, implies_true, true_and]
  intro snapshot hread _ before hbefore _
  obtain ⟨row, hrow, _, hfree, hdisposition, _⟩ := readTypedAdmissionSnapshot_ok hread
  apply wp_updateSource
  intro row' hrow' _
  obtain rfl : row = row' := by simpa using hrow.symm.trans hrow'
  exact adjust_effect hrow (.held (fun h => hdisposition h.2) (fun h => absurd h hfree) rfl rfl
    (by simp [Held, sourceHold, custodyHeld]) rfl)

/-- A source admitted out of quarantine is published, or has been held since. -/
def Admitted (db : Database ι ε D) (a : TypedAdmission ι D) : Prop :=
  a.admittedLifecycle = .sealedWaiting ∨
    ∃ row, db.sources.get a.sourceId = some row ∧ row.sourceType = .quarantine ∧
      (row.quarantineDisposition = some .publishedPrefix ∨
        (Held row ∧ row.quarantineDisposition = some .unclassified))

theorem Admitted.change {db next : Database ι ε D} {a : TypedAdmission ι D}
    (h : Admitted db a) (hsound : Sound db)
    (hrows : ∀ id, RowChange (db.sources.get id) (next.sources.get id)) : Admitted next a := by
  rcases h with hwaiting | ⟨row, hrow, htype, hpublished | ⟨hheld, hdisposition⟩⟩
  · exact .inl hwaiting
  · have hchange := hrows a.sourceId
    rw [hrow] at hchange
    rcases hchange.of_published ⟨htype, hpublished⟩ with hsame | ⟨row', hrow', hheld, hd⟩
    · exact .inr ⟨row, hsame, htype, .inl hpublished⟩
    · have hsound' := SourceEffect.sound hrows hsound a.sourceId row' hrow'
      exact .inr ⟨row', hrow', hsound'.held hheld, .inr ⟨hheld, hd⟩⟩
  · have hchange := hrows a.sourceId
    rw [hrow] at hchange
    obtain ⟨row', hrow', hheld', hd⟩ := hchange.of_held (hsound _ row hrow) hheld
    have hsound' := SourceEffect.sound hrows hsound a.sourceId row' hrow'
    exact .inr ⟨row', hrow', hsound'.held hheld', .inr ⟨hheld', hd.trans hdisposition⟩⟩

theorem blockedTypedCertification_published {row : SourceRow D} {pair : ℕ × D}
    (h : blockedTypedCertification row = .ok (some pair)) : PublishedPrefix row := by
  unfold blockedTypedCertification at h
  split at h
  · exact absurd h (by simp)
  split at h
  · exact absurd h (by simp)
  rename_i htype
  split at h
  · exact absurd h (by simp)
  rename_i hdisposition
  refine ⟨by simpa using htype, ?_⟩
  cases hd : row.quarantineDisposition with
  | none => simp [hd] at hdisposition
  | some d =>
    cases d with
    | unclassified => simp [hd] at hdisposition
    | publishedPrefix => rfl
    | unprocessable => simp [hd] at hdisposition

theorem typedAdmission_admitted {db : Database ι ε D} {id : ι} {row : SourceRow D}
    {a : TypedAdmission ι D} (hrow : db.sources.get id = some row)
    (h : typedAdmission id row = .ok (some a)) : Admitted db a := by
  unfold typedAdmission at h
  dsimp only at h
  split at h
  · exact absurd h (by simp)
  · exact absurd h (by simp)
  rename_i count digest hpair
  split at h
  · exact absurd h (by simp)
  obtain rfl := Option.some.inj (Except.ok.inj h)
  by_cases hwaiting : row.lifecycle = .sealedWaiting
  · exact .inl hwaiting
  rw [if_neg hwaiting] at hpair
  split at hpair
  · have hpublished := blockedTypedCertification_published hpair
    exact .inr ⟨row, hrow, hpublished.1, .inl hpublished.2⟩
  · exact absurd hpair (by simp)

theorem persistedAdmission_admitted {db : Database ι ε D} {ordinal : ℕ} {member : MemberRow ι D}
    {a : TypedAdmission ι D} (h : persistedAdmission db ordinal member = .ok a) :
    Admitted db a := by
  unfold persistedAdmission at h
  split at h
  · exact absurd h (by simp)
  split at h
  · exact absurd h (by simp)
  rename_i row hrow
  dsimp only at h
  split at h
  · exact absurd h (by simp)
  rename_i pair hpair
  split at h
  · exact absurd h (by simp)
  rename_i hsame
  rw [not_or, not_not] at hsame
  obtain rfl := Except.ok.inj h
  by_cases hwaiting : member.admittedLifecycle = .sealedWaiting
  · exact .inl hwaiting
  rw [if_neg hwaiting, hsame.1] at hpair
  have hpublished := blockedTypedCertification_published hpair
  exact .inr ⟨row, hrow, hpublished.1, .inl hpublished.2⟩

theorem blockConflict_effect {db : Database ι ε D} {a : TypedAdmission ι D} {old : SourceRow D}
    (hsound : Sound db) (ha : Admitted db a) (hold : old.lifecycle = a.admittedLifecycle) :
    SourceEffect db (commit (blockTypedCustodyConflictOnce a.sourceId old) db).2 := by
  refine commit_rule ?_ (.refl db)
  simp only [blockTypedCustodyConflictOnce, wp_bind, wp_refuseIf, wp_get, implies_true, true_and]
  intro hget _
  rw [not_not] at hget
  apply wp_updateSource
  intro row hrow _
  obtain rfl : old = row := by simpa using hget.symm.trans hrow
  have hfacts : ¬ Unprocessable old ∧
      (Held old → old.quarantineDisposition = some .unclassified) := by
    rcases ha with hwaiting | ⟨row, hrow', htype, hd⟩
    · -- a sealed source is not quarantined at all
      have htype : old.sourceType ≠ .quarantine := by
        intro htype
        have hlifecycle := (hsound _ old hget).lifecycle htype
        simp [hold, hwaiting] at hlifecycle
      exact ⟨fun h => htype h.1, fun h => absurd ((hsound _ old hget).held h) htype⟩
    · obtain rfl : old = row := by simpa using hget.symm.trans hrow'
      rcases hd with hpublished | ⟨hheld, hunclassified⟩
      · refine ⟨fun h => by simp [Unprocessable, hpublished] at h, fun h => ?_⟩
        exact absurd h ((hsound _ old hget).published ⟨htype, hpublished⟩).2
      · exact ⟨fun h => by simp [Unprocessable, hunclassified] at h, fun _ => hunclassified⟩
  exact adjust_effect hrow (.held hfacts.1 hfacts.2 rfl rfl
    (by simp [Held, overlapHold, custodyHeld]) rfl)

end QuarantineRows
