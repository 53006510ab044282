import OmiCollector.CohortPlans
import OmiCollector.ResumedGroups
import Mathlib.Data.List.Infix

/-! Raw rows are deleted behind their publication only.

A row of a source may go when a committed artifact holds its bytes at its sequence. There are three
ways to know it: the source's own records were committed, they match the hashes of a ready artifact,
or an entry lists the whole source with its digest. -/
namespace PublishedRows

open AudioMachine (AudioPhase CohortPhase)
open ByteCodec CaptureModel KeyedTable SpanCover SpanWalk PublicationLedger TypedSlices
open SlicePartition PublicationGroups PublicationStage PublicationStore PublicationMachine
open PublicationEffects LedgerOrder CohortMembers RemainingSlices CohortRounds StagedGroups
open SettledSources ProcessRuns PublicHistory
open Relation (ReflTransGen)

variable {D : Type}

/-- The records behind a lineage: as many as it spans, with its digest. -/
structure Lists (codec : Codec D) (t : SourceLineage D) (records : List Bytes) : Prop where
  count : t.2.1 = t.1 + records.length
  digest : t.2.2 = codec.sha256 records.flatten
  sizes : ∀ raw ∈ records, raw.length = audioRecordSize

/-- The record is in a committed artifact, or in a source that a legacy entry lists. -/
def Published (codec : Codec D) (s : Db D × Log D) (e : ℕ × Bytes) : Prop :=
  (∃ c ∈ s.2.committed, e ∈ c.2) ∨ ∃ r ∈ s.1.ledger.legacy, ∃ t ∈ r.2.sources, ∃ records,
    Lists codec t records ∧ ∃ i, records[i]? = some e.2 ∧ e.1 = t.1 + i

/-- The ordinal from which on a source still has its rows. -/
def firstRow (s : CaptureSource D) : ℕ := s.retirementCursor.getD 0

/-- Consecutive records of a captured source. -/
def Recorded (captured : List Bytes → Prop) (records : List Bytes) : Prop :=
  ∃ whole, captured whole ∧ records <:+: whole

/-- What is hashed of the captured sources: consecutive records, and a record with the timestamp that
a run gives it. -/
inductive Hashed (captured : List Bytes → Prop) : Bytes → Prop where
  | lineage {records : List Bytes} (recorded : Recorded captured records) :
      Hashed captured records.flatten
  | published {raw normalized : Bytes} {run : NormalizationRun} (recorded : Recorded captured [raw])
      (normal : normalizeRecord raw run = .ok normalized) : Hashed captured normalized

/-- A source with its rows, all of which its digest was once taken over. -/
structure RowInv (codec : Codec D) (captured : List Bytes → Prop) (published : ℕ × Bytes → Prop)
    (row : SourceRow D) (records : List Bytes) : Prop where
  captured : captured records
  cursor : row.source.retirementCursor.isSome = true ↔ row.source.lifecycle = .retiring
  count : records.length = row.source.committedCount
  digest : row.source.committedSha256 = codec.sha256 records.flatten
  sizes : ∀ raw ∈ records, raw.length = audioRecordSize
  bound : firstRow row.source ≤ row.source.committedCount
  ordinals : row.records.map (·.ordinal) =
    List.range' (firstRow row.source) (row.source.committedCount - firstRow row.source)
  rows : row.records.map (·.rawBytes) = records.drop (firstRow row.source)
  retired : row.source.lifecycle = .retiring →
    row.source.coverageDigest = some row.source.committedSha256 →
      ∀ i raw, records[i]? = some raw → published (row.source.sequenceStart + i, raw)

/-- What a history of captured sources keeps of its publications. -/
structure DeletionInv (codec : Codec D) [DecidableEq D] (captured : List Bytes → Prop)
    (s : Db D × Log D) : Prop where
  ready : ∀ r ∈ readyRuns (custody s.1.ledger), ∀ x, r.1.Contains x →
    ∃ raw, Recorded captured [raw] ∧ Published codec s (x, raw) ∧ ReadyMatch codec r.2 x raw
  lineage : ∀ id e, Stored s.1.ledger id e → ∀ t ∈ e.sources, ∃ records,
    Recorded captured records ∧ Lists codec t records ∧
      ∀ i raw, records[i]? = some raw → Published codec s (t.1 + i, raw)
  rows : ∀ id row, s.1.sources.get id = some row →
    ∃ records, RowInv codec captured (Published codec s) row records
  members : ∀ cohort, s.1.cohort = some cohort → ∀ m ∈ cohort.members, ∀ row,
    s.1.sources.get m.sourceId = some row → ∀ i, i < m.cursor → ∀ raw,
      sourceRaw s.1.sources m.sourceId i = some raw →
        Published codec s (row.source.sequenceStart + i, raw)
  deleted : ∀ e ∈ s.2.deleted, Published codec s e

variable {codec : Codec D} {captured : List Bytes → Prop} {s s' : Db D × Log D}

theorem recorded_self {records : List Bytes} (h : captured records) : Recorded captured records :=
  ⟨records, h, List.infix_rfl⟩

/-- One of consecutive records. -/
theorem Recorded.single {records : List Bytes} (h : Recorded captured records) {raw : Bytes}
    (hraw : raw ∈ records) : Recorded captured [raw] := by
  obtain ⟨whole, hwhole, hpart⟩ := h
  exact ⟨whole, hwhole, List.IsInfix.trans ((List.singleton_infix_iff raw records).mpr hraw) hpart⟩

section Rows

variable {published : ℕ × Bytes → Prop} {row : SourceRow D} {records : List Bytes}

/-- Two lists of captured records with one digest are the same. -/
theorem records_unique (hsha : Set.InjOn codec.sha256 (Hashed captured)) {left right : List Bytes}
    (hrecorded : Recorded captured left) (hrecorded' : Recorded captured right)
    (hleft : ∀ raw ∈ left, raw.length = audioRecordSize)
    (hright : ∀ raw ∈ right, raw.length = audioRecordSize)
    (h : codec.sha256 left.flatten = codec.sha256 right.flatten) : left = right := by
  have hpositive : 0 < audioRecordSize := by decide
  have hflat := hsha (.lineage hrecorded) (.lineage hrecorded') h
  rw [← frames_flatten hpositive hleft, hflat, frames_flatten hpositive hright]

/-- The rows that are left are those of the records behind the cursor. -/
theorem RowInv.getElem? (h : RowInv codec captured published row records) (i : ℕ) :
    row.records[i]?.map (fun r => (r.ordinal, r.rawBytes)) =
      records[firstRow row.source + i]?.map fun raw => (firstRow row.source + i, raw) := by
  have hcount := h.count
  have hbound := h.bound
  have hlength : row.records.length = row.source.committedCount - firstRow row.source := by
    have := congrArg List.length h.ordinals
    simpa using this
  by_cases hi : i < row.records.length
  · have hordinal := congrArg (·[i]?) h.ordinals
    have hraw := congrArg (·[i]?) h.rows
    simp only [List.getElem?_map, List.getElem?_drop] at hordinal hraw
    rw [List.getElem?_range' (by omega)] at hordinal
    rw [← hraw]
    rw [List.getElem?_eq_getElem hi] at hordinal ⊢
    simp only [Option.map_some, Option.some.injEq, one_mul] at hordinal ⊢
    rw [hordinal]
  · rw [List.getElem?_eq_none (by omega), List.getElem?_eq_none (by omega)]
    rfl

theorem RowInv.mem (h : RowInv codec captured published row records) {r : CaptureRecord}
    (hr : r ∈ row.records) :
    firstRow row.source ≤ r.ordinal ∧ records[r.ordinal]? = some r.rawBytes := by
  obtain ⟨i, hi⟩ := List.mem_iff_getElem?.mp hr
  have hget := h.getElem? i
  rw [hi, Option.map_some] at hget
  obtain ⟨raw, hraw, heq⟩ := Option.map_eq_some_iff.mp hget.symm
  have hordinal : firstRow row.source + i = r.ordinal := congrArg Prod.fst heq
  have hbytes : raw = r.rawBytes := congrArg Prod.snd heq
  rw [← hordinal, hraw, hbytes]
  exact ⟨by omega, rfl⟩

/-- What the store reads at an ordinal is the record that the digest covers. -/
theorem RowInv.sourceRaw {sources : Table ℕ (SourceRow D)} {id i : ℕ} {raw : Bytes}
    (h : RowInv codec captured published row records) (hrow : sources.get id = some row)
    (hraw : SlicePartition.sourceRaw sources id i = some raw) : records[i]? = some raw := by
  rw [SlicePartition.sourceRaw, hrow, Option.bind_some] at hraw
  obtain ⟨r, hr, rfl⟩ := Option.map_eq_some_iff.mp hraw
  have hordinal : r.ordinal = i := by simpa using List.find?_some hr
  rw [← hordinal]
  exact (h.mem (List.mem_of_find?_eq_some hr)).2

/-- Before its retirement a source has all its rows. -/
theorem RowInv.stored {sources : Table ℕ (SourceRow D)} {id i : ℕ} {raw : Bytes}
    (h : RowInv codec captured published row records) (hrow : sources.get id = some row)
    (hcursor : row.source.retirementCursor = none) (hraw : records[i]? = some raw) :
    SlicePartition.sourceRaw sources id i = some raw := by
  have hfirst : firstRow row.source = 0 := by simp [firstRow, hcursor]
  have hget := h.getElem? i
  rw [hfirst, zero_add, hraw, Option.map_some] at hget
  obtain ⟨r, hr, heq⟩ := Option.map_eq_some_iff.mp hget
  have hordinal : r.ordinal = i := congrArg Prod.fst heq
  have hbytes : r.rawBytes = raw := congrArg Prod.snd heq
  have hfind : ∃ found, row.records.find? (fun r => r.ordinal = i) = some found := by
    rw [← Option.isSome_iff_exists, List.find?_isSome]
    exact ⟨r, List.mem_of_getElem? hr, by simpa using hordinal⟩
  obtain ⟨found, hfound⟩ := hfind
  have hread : SlicePartition.sourceRaw sources id i = some found.rawBytes := by
    rw [SlicePartition.sourceRaw, hrow, Option.bind_some, hfound]
    rfl
  rw [hread, ← hraw, ← h.sourceRaw hrow hread]

theorem RowInv.mono {published' : ℕ × Bytes → Prop} (h : RowInv codec captured published row records)
    (hmono : ∀ e, published e → published' e) : RowInv codec captured published' row records :=
  ⟨h.captured, h.cursor, h.count, h.digest, h.sizes, h.bound, h.ordinals, h.rows,
    fun hretiring hdigest i raw hraw => hmono _ (h.retired hretiring hdigest i raw hraw)⟩

end Rows

/-- What is published stays so. -/
theorem Published.mono {e : ℕ × Bytes} (h : Published codec s e)
    (hlegacy : s'.1.ledger.legacy = s.1.ledger.legacy)
    (hcommitted : ∀ c ∈ s.2.committed, c ∈ s'.2.committed) : Published codec s' e := by
  rcases h with ⟨c, hc, he⟩ | hlegacy'
  · exact .inl ⟨c, hcommitted c hc, he⟩
  · right
    rw [hlegacy]
    exact hlegacy'

variable [DecidableEq D]

section Frames

/-- Steps that leave the sources alone, publish nothing new and list nothing new. -/
theorem DeletionInv.frame (h : DeletionInv codec captured s)
    (hlegacy : s'.1.ledger.legacy = s.1.ledger.legacy)
    (hready : ∀ r ∈ readyRuns (custody s'.1.ledger), r ∈ readyRuns (custody s.1.ledger))
    (hentries : ∀ id e, Stored s'.1.ledger id e →
      ∃ old, Stored s.1.ledger id old ∧ e.sources = old.sources)
    (hsources : s'.1.sources = s.1.sources)
    (hmembers : ∀ next, s'.1.cohort = some next → ∀ m ∈ next.members,
      m.cursor = 0 ∨ ∃ cohort, s.1.cohort = some cohort ∧ m ∈ cohort.members)
    (hcommitted : s'.2.committed = s.2.committed) (hdeleted : s'.2.deleted = s.2.deleted) :
    DeletionInv codec captured s' := by
  have hmono : ∀ e, Published codec s e → Published codec s' e :=
    fun e he => he.mono hlegacy fun c hc => hcommitted ▸ hc
  constructor
  · intro r hr x hx
    obtain ⟨raw, hrecorded, hpublished, hmatch⟩ := h.ready r (hready r hr) x hx
    exact ⟨raw, hrecorded, hmono _ hpublished, hmatch⟩
  · intro id e he t ht
    obtain ⟨old, hold, hsame⟩ := hentries id e he
    obtain ⟨records, hrecorded, hlists, hpublished⟩ := h.lineage id old hold t (hsame ▸ ht)
    exact ⟨records, hrecorded, hlists, fun i raw hraw => hmono _ (hpublished i raw hraw)⟩
  · intro id row hrow
    obtain ⟨records, hinv⟩ := h.rows id row (hsources ▸ hrow)
    exact ⟨records, hinv.mono hmono⟩
  · intro next hnext m hm row hrow i hi raw hraw
    rcases hmembers next hnext m hm with hzero | ⟨cohort, hcohort, hmember⟩
    · omega
    · rw [hsources] at hrow hraw
      exact hmono _ (h.members cohort hcohort m hmember row hrow i hi raw hraw)
  · intro e he
    exact hmono e (h.deleted e (hdeleted ▸ he))

/-- Steps that change one source, which is no member of a cohort. -/
theorem DeletionInv.row (id : ℕ) (h : DeletionInv codec captured s) (hledger : s'.1.ledger = s.1.ledger)
    (hcommitted : s'.2.committed = s.2.committed) (hcohort : s'.1.cohort = s.1.cohort)
    (hother : ∀ k, k ≠ id → s'.1.sources.get k = s.1.sources.get k)
    (hfree : id ∉ cohortSources s.1)
    (hrow : ∀ row, s'.1.sources.get id = some row →
      ∃ records, RowInv codec captured (Published codec s) row records)
    (hdeleted : ∀ e ∈ s'.2.deleted, e ∈ s.2.deleted ∨ Published codec s e) :
    DeletionInv codec captured s' := by
  have hmono : ∀ e, Published codec s e → Published codec s' e :=
    fun e he => he.mono (by rw [hledger]) fun c hc => hcommitted ▸ hc
  constructor
  · rw [hledger]
    intro r hr x hx
    obtain ⟨raw, hrecorded, hpublished, hmatch⟩ := h.ready r hr x hx
    exact ⟨raw, hrecorded, hmono _ hpublished, hmatch⟩
  · rw [hledger]
    intro k e he t ht
    obtain ⟨records, hrecorded, hlists, hpublished⟩ := h.lineage k e he t ht
    exact ⟨records, hrecorded, hlists, fun i raw hraw => hmono _ (hpublished i raw hraw)⟩
  · intro k row hget
    by_cases hk : k = id
    · obtain ⟨records, hinv⟩ := hrow row (hk ▸ hget)
      exact ⟨records, hinv.mono hmono⟩
    · obtain ⟨records, hinv⟩ := h.rows k row (hother k hk ▸ hget)
      exact ⟨records, hinv.mono hmono⟩
  · intro cohort hstored m hm row hget i hi raw hraw
    rw [hcohort] at hstored
    have hmember : m.sourceId ∈ cohortSources s.1 :=
      (mem_cohortSources hstored).mpr (List.mem_map_of_mem hm)
    have hne : m.sourceId ≠ id := fun heq => hfree (heq ▸ hmember)
    rw [hother _ hne] at hget
    rw [sourceRaw, hother _ hne] at hraw
    exact hmono _ (h.members cohort hstored m hm row hget i hi raw hraw)
  · intro e he
    rcases hdeleted e he with hold | hpublished
    · exact hmono e (h.deleted e hold)
    · exact hmono e hpublished

end Frames

section Advance

variable {db : Db D} {log : Log D} {cohort : Cohort D} {progress : List (Admission D × ℕ)}
  {coverage : List (ℕ × CaptureSource D)}

omit [DecidableEq D] in
/-- A source whose whole admission is published may be retired, if that is all of it. -/
theorem rowInv_covered {a : Admission D} {row : SourceRow D} {records : List Bytes}
    {source : CaptureSource D} {published : ℕ × Bytes → Prop}
    (h : RowInv codec captured published row records) (hcurrent : snapshotCurrent row.source a)
    (hcursor : row.source.retirementCursor = none) (hcovered : CoveredRow a row source)
    (hpublished : row.source.committedCount = a.admittedCount →
      row.source.committedSha256 = a.admittedSha256 → ∀ i, i < a.admittedCount → ∀ raw,
        records[i]? = some raw → published (a.sequenceStart + i, raw)) :
    RowInv codec captured published { row with source := source } records := by
  have hchanged := hcovered.changed
  have hstart : source.sequenceStart = row.source.sequenceStart := by rw [hchanged]
  have hcount : source.committedCount = row.source.committedCount := by rw [hchanged]
  have hdigest : source.committedSha256 = row.source.committedSha256 := by rw [hchanged]
  have hproof : source.coverageDigest = some a.admittedSha256 := by rw [hchanged]
  have hold : firstRow row.source = 0 := by simp [firstRow, hcursor]
  have hnew : firstRow source = 0 := by
    rcases hcovered.phase with hphase | hphase
    · simp [firstRow, hphase.2.1]
    · simp [firstRow, hphase.2.1]
  refine ⟨h.captured, ?_, h.count.trans hcount.symm, hdigest.trans h.digest, h.sizes, ?_, ?_, ?_, ?_⟩
  · rcases hcovered.phase with ⟨hphase, hstop, -⟩ | ⟨hphase, hstop, -⟩
    · simp [hphase, hstop]
    · simp [hphase, hstop]
  · change firstRow source ≤ _
    omega
  · change row.records.map (·.ordinal) = List.range' (firstRow source) _
    rw [h.ordinals, hold, hnew, hcount]
  · change row.records.map (·.rawBytes) = records.drop (firstRow source)
    rw [h.rows, hold, hnew]
  · intro hretiring hwhole i raw hraw
    change source.coverageDigest = some source.committedSha256 at hwhole
    change published (source.sequenceStart + i, raw)
    rw [hstart, hcurrent.2.1]
    have hlength := (List.getElem?_eq_some_iff.mp hraw).1
    rcases hcovered.phase with ⟨-, -, hall⟩ | ⟨hphase, -⟩
    · refine hpublished (hcovered.committed.trans hall.symm) ?_ i ?_ raw hraw
      · rw [hproof, hdigest] at hwhole
        exact (Option.some.inj hwhole).symm
      · rw [hall, ← hcovered.committed, ← h.count]
        exact hlength
    · rw [show source.lifecycle = .retiring from hretiring] at hphase
      cases hphase

/-- Members that move over published records keep what they stand for. -/
theorem advance_rows (s' : Db D × Log D) (h : DeletionInv codec captured (db, log)) (hinv : CohortInv db log)
    (hadvance : Advance db cohort progress coverage)
    (hsources : s'.1.sources = applyTypedCoverage db.sources coverage)
    (hlegacy : s'.1.ledger.legacy = db.ledger.legacy)
    (hcommitted : ∀ c ∈ log.committed, c ∈ s'.2.committed)
    (hnew : ∀ p ∈ progress, ∀ i, p.1.cursor ≤ i → i < p.2 → ∀ raw,
      sourceRaw db.sources p.1.sourceId i = some raw →
        Published codec s' (p.1.sequenceStart + i, raw))
    (hcohort : ∀ next, s'.1.cohort = some next →
      next.members = withCursors cohort.members (progress.map Prod.snd)) :
    (∀ id row, s'.1.sources.get id = some row →
      ∃ records, RowInv codec captured (Published codec s') row records) ∧
    (∀ next, s'.1.cohort = some next → ∀ m ∈ next.members, ∀ row,
      s'.1.sources.get m.sourceId = some row → ∀ i, i < m.cursor → ∀ raw,
        sourceRaw s'.1.sources m.sourceId i = some raw →
          Published codec s' (row.source.sequenceStart + i, raw)) := by
  have hdistinct := hinv.distinct cohort hadvance.held.stored
  have hmono : ∀ e, Published codec (db, log) e → Published codec s' e :=
    fun e he => he.mono hlegacy hcommitted
  -- Everything below the new cursor of a member is public.
  have hpassed : ∀ p ∈ progress, ∀ row, db.sources.get p.1.sourceId = some row →
      snapshotCurrent row.source p.1 → ∀ i, i < p.2 → ∀ raw,
        sourceRaw db.sources p.1.sourceId i = some raw →
          Published codec s' (p.1.sequenceStart + i, raw) := by
    intro p hp row hrow hcurrent i hi raw hraw
    by_cases hold : i < p.1.cursor
    · have hmember : memberOf p.1 ∈ cohort.members :=
        hadvance.held.members ▸ List.mem_map_of_mem (List.mem_map_of_mem hp)
      have hpublished := h.members cohort hadvance.held.stored _ hmember row hrow i hold raw hraw
      rw [hcurrent.2.1] at hpublished
      exact hmono _ hpublished
    · exact hnew p hp i (by omega) hi raw hraw
  constructor
  · intro id row' hrow'
    by_cases hid : id ∈ cohort.members.map (·.sourceId)
    · rw [← hadvance.memberIds] at hid
      obtain ⟨p, hp, rfl⟩ := List.mem_map.mp hid
      obtain ⟨row, hrow, hcurrent, hcase⟩ := hadvance.row hdistinct hp
      obtain ⟨records, hold⟩ := h.rows _ row hrow
      rcases hcase with ⟨hcompleting, source, hcursor, hcovered, hget⟩ | ⟨-, hget⟩
      · rw [hsources, hget] at hrow'
        obtain rfl := Option.some.inj hrow'
        refine ⟨records, rowInv_covered (hold.mono hmono) hcurrent hcursor hcovered ?_⟩
        intro _ _ i hi raw hraw
        exact hpassed p hp row hrow hcurrent i (hcompleting.2 ▸ hi) raw
          (hold.stored hrow hcursor hraw)
      · rw [hsources, hget] at hrow'
        obtain rfl := Option.some.inj hrow'
        exact ⟨records, hold.mono hmono⟩
    · rw [hsources, hadvance.other hid] at hrow'
      obtain ⟨records, hold⟩ := h.rows id row' hrow'
      exact ⟨records, hold.mono hmono⟩
  · intro next hnext m hm row' hrow' i hi raw hraw
    rw [hcohort next hnext, hadvance.members] at hm
    obtain ⟨p, hp, rfl⟩ := List.mem_map.mp hm
    obtain ⟨row, hrow, hcurrent, hcase⟩ := hadvance.row hdistinct hp
    rw [hsources, sourceRaw_applyTypedCoverage] at hraw
    have hstart : row'.source.sequenceStart = row.source.sequenceStart := by
      rcases hcase with ⟨-, source, -, hcovered, hget⟩ | ⟨-, hget⟩
      · rw [hsources] at hrow'
        obtain rfl := Option.some.inj (hget.symm.trans hrow')
        have hchanged := congrArg CaptureSource.sequenceStart hcovered.changed
        exact hchanged
      · rw [hsources] at hrow'
        obtain rfl := Option.some.inj (hget.symm.trans hrow')
        rfl
    rw [hstart, hcurrent.2.1]
    exact hpassed p hp row hrow hcurrent i hi raw hraw

end Advance

section Proofs

/-- A captured record that matches a hash of a ready artifact is the published one. -/
theorem ready_published (hsha : Set.InjOn codec.sha256 (Hashed captured)) (h : DeletionInv codec captured s)
    {r : Span × ReadyKey D} (hr : r ∈ readyRuns (custody s.1.ledger)) {x : ℕ} {raw : Bytes}
    (hx : r.1.Contains x) (hrecorded : Recorded captured [raw]) (hmatch : ReadyMatch codec r.2 x raw) :
    Published codec s (x, raw) := by
  obtain ⟨found, hfoundRecorded, hpublished, hfound⟩ := h.ready r hr x hx
  have hsep : Separates codec r.2.proof raw found := fun run _ m n hm hn hsame =>
    hsha (.published hrecorded hm) (.published hfoundRecorded hn) hsame
  rw [hashMatch_unique hsep hmatch hfound]
  exact hpublished

/-- A source that a retired artifact lists with its digest is published. -/
theorem lineage_published (hsha : Set.InjOn codec.sha256 (Hashed captured)) (h : DeletionInv codec captured s)
    {r : RetiredArtifact D} (hr : r ∈ (custody s.1.ledger).retired) {t : SourceLineage D}
    (ht : t ∈ r.sources) {records : List Bytes} (hrecorded : Recorded captured records) (hlists : Lists codec t records) {i : ℕ} {raw : Bytes}
    (hraw : records[i]? = some raw) : Published codec s (t.1 + i, raw) := by
  unfold custody at hr
  rcases List.mem_append.mp hr with hr | hr
  · obtain ⟨legacy, hlegacy, rfl⟩ := List.mem_map.mp hr
    exact .inr ⟨legacy, hlegacy, t, ht, records, hlists, i, hraw, rfl⟩
  · obtain ⟨entry, hentry, rfl⟩ := List.mem_map.mp hr
    have hstored : Stored s.1.ledger entry.1 entry.2 :=
      Table.get_eq_some.mpr (List.mem_filter.mp hentry).1
    obtain ⟨found, hfoundRecorded, hfound, hpublished⟩ := h.lineage entry.1 entry.2 hstored t ht
    obtain rfl : records = found := records_unique hsha hrecorded hfoundRecorded hlists.sizes
      hfound.sizes (hlists.digest.symm.trans hfound.digest)
    exact hpublished i raw hraw

omit [DecidableEq D] in
/-- A slice holds the rows of its source from its first ordinal on. -/
theorem sourceRaw_slice {sources : Table ℕ (SourceRow D)} {slice : Slice D}
    (h : ReadsFrom codec sources slice) {i : ℕ} {raw : Bytes} (hi : slice.records[i]? = some raw) :
    sourceRaw sources slice.admission.sourceId (slice.startOrdinal + i) = some raw := by
  have hlt := (List.getElem?_eq_some_iff.mp hi).1
  have hin : slice.span.Contains (slice.startSequence + i) := by
    constructor
    · exact Nat.le_add_right _ _
    · change _ < slice.nextSequence
      rw [nextSequence_eq]
      omega
  have hat : slice.rawAt (slice.startSequence + i) = some raw := by
    unfold Slice.rawAt
    rw [if_pos (Nat.le_add_right _ _), Nat.add_sub_cancel_left, hi]
  have hordinal : slice.startSequence + i - slice.admission.sequenceStart =
      slice.startOrdinal + i := by
    unfold Slice.startSequence
    omega
  rw [← hordinal, ← h.rows _ hin, hat]

/-- Slices hold consecutive records of a captured source, each of full size. -/
theorem slice_recorded (h : DeletionInv codec captured s) {slice : Slice D}
    (hreads : ReadsFrom codec s.1.sources slice) (hne : slice.records ≠ []) :
    Recorded captured slice.records ∧ ∀ raw ∈ slice.records, raw.length = audioRecordSize := by
  have hfirst := @sourceRaw_slice D codec _ slice hreads 0 _
    (List.getElem?_eq_getElem (List.length_pos_iff.mpr hne))
  obtain ⟨row, hrow, -⟩ := Option.bind_eq_some_iff.mp hfirst
  obtain ⟨records, hinv⟩ := h.rows _ row hrow
  have hsame : ∀ (i : ℕ) (raw : Bytes), slice.records[i]? = some raw →
      (records.drop slice.startOrdinal)[i]? = some raw := by
    intro i raw hi
    rw [List.getElem?_drop]
    exact hinv.sourceRaw hrow (sourceRaw_slice hreads hi)
  have hstart : slice.records <+: records.drop slice.startOrdinal := by
    rw [List.prefix_iff_getElem?]
    intro i hi
    exact hsame i _ (List.getElem?_eq_getElem hi)
  have hpart : slice.records <:+: records :=
    hstart.isInfix.trans (List.drop_suffix slice.startOrdinal records).isInfix
  exact ⟨⟨records, hinv.captured, hpart⟩, fun raw hraw => hinv.sizes raw (hpart.subset hraw)⟩

/-- What a source reads is a captured record. -/
theorem recorded_sourceRaw (h : DeletionInv codec captured s) {id i : ℕ} {raw : Bytes}
    (hraw : sourceRaw s.1.sources id i = some raw) : Recorded captured [raw] := by
  obtain ⟨row, hrow, -⟩ := Option.bind_eq_some_iff.mp hraw
  obtain ⟨records, hinv⟩ := h.rows _ row hrow
  exact (recorded_self hinv.captured).single (List.mem_of_getElem? (hinv.sourceRaw hrow hraw))

end Proofs

section Steps

variable {db : Db D} {log : Log D} {cohort : Cohort D}

theorem deletionInv_custody {admissions : List (Admission D)} {cursors : List ℕ}
    {coverage : List (ℕ × CaptureSource D)} (hsha : Set.InjOn codec.sha256 (Hashed captured))
    (h : DeletionInv codec captured (db, log)) (hledger : LedgerInv db) (hinv : CohortInv db log)
    (held : PublicationEffects.Held db cohort admissions)
    (hcursors : admissions.mapM (typedReadyPrefix codec db.sources (custody db.ledger)) = .ok cursors)
    (hcoverage : typedCoverageProposals db.sources (admissions.zip cursors) = .ok coverage) :
    DeletionInv codec captured (custodyCommit cohort (admissions.zip cursors) coverage db,
      custodyLog (admissions.zip cursors) coverage log) := by
  have hadvance := advance_custody hledger
    (fun m hm => (hinv.members cohort held.stored m hm).bound) held hcursors hcoverage
  have hlog : (custodyLog (admissions.zip cursors) coverage log).committed = log.committed ∧
      (custodyLog (admissions.zip cursors) coverage log).deleted = log.deleted := by
    unfold custodyLog Log.updateCohort
    cases log.cohorts with
    | nil => exact ⟨rfl, rfl⟩
    | cons c earlier => exact ⟨rfl, rfl⟩
  have hmono : ∀ e, Published codec (db, log) e → Published codec
      (custodyCommit cohort (admissions.zip cursors) coverage db,
        custodyLog (admissions.zip cursors) coverage log) e :=
    fun e he => he.mono rfl fun c hc => by rw [hlog.1]; exact hc
  obtain ⟨-, -, hmem⟩ := mem_zip_mapM hcursors
  have hnew : ∀ p ∈ (admissions.zip cursors), ∀ i, p.1.cursor ≤ i → i < p.2 → ∀ raw,
      sourceRaw db.sources p.1.sourceId i = some raw → Published codec
        (custodyCommit cohort (admissions.zip cursors) coverage db,
          custodyLog (admissions.zip cursors) coverage log) (p.1.sequenceStart + i, raw) := by
    intro p hp i hlow hhigh raw hraw
    have hin : p.1 ∈ admissions := (List.of_mem_zip hp).1
    obtain ⟨-, -, -, hcase⟩ :=
      typedReadyPrefix_spec hledger.sortedRuns (held_bound hinv held p.1 hin) (hmem p hp)
    apply hmono
    rcases hcase with ⟨hretired, hopen⟩ | hready
    · rw [(held_unlisted hinv held hin hopen).retiredFullProof] at hretired
      cases hretired
    · obtain ⟨r, hr, hrx, found, hfound, hmatch⟩ :=
        hready (p.1.sequenceStart + i) (by omega) (by omega)
      rw [Nat.add_sub_cancel_left] at hfound
      obtain rfl : raw = found := Option.some.inj (hraw.symm.trans hfound)
      exact ready_published hsha h hr hrx (recorded_sourceRaw h hraw) hmatch
  have hnext : ∀ next, (custodyCommit cohort (admissions.zip cursors) coverage db).cohort = some next →
      next.members = withCursors cohort.members ((admissions.zip cursors).map Prod.snd) := by
    intro next hnext
    by_cases hall : allComplete (admissions.zip cursors) = true
    · simp [custodyCommit, hall] at hnext
    · simp only [custodyCommit, hall] at hnext
      obtain rfl := Option.some.inj hnext
      rfl
  obtain ⟨hrows, hmembers⟩ := advance_rows
    (custodyCommit cohort (admissions.zip cursors) coverage db,
      custodyLog (admissions.zip cursors) coverage log) h hinv hadvance rfl rfl
    (fun c hc => by rw [hlog.1]; exact hc) hnew hnext
  refine ⟨fun r hr x hx => ?_, fun id e he t ht => ?_, hrows, hmembers, fun e he => ?_⟩
  · obtain ⟨raw, hrecorded, hpublished, hmatch⟩ := h.ready r hr x hx
    exact ⟨raw, hrecorded, hmono _ hpublished, hmatch⟩
  · obtain ⟨records, hrecorded, hlists, hpublished⟩ := h.lineage id e he t ht
    exact ⟨records, hrecorded, hlists, fun i raw hraw => hmono _ (hpublished i raw hraw)⟩
  · exact hmono e (h.deleted e (hlog.2 ▸ he))

theorem deletionInv_commit {admissions : List (Admission D)} {stage : Stage D} {g : PreparedGroup D}
    {proof : ReplayProof D} {coverage : List (ℕ × CaptureSource D)}
    (h : DeletionInv codec captured (db, log)) (hledger : LedgerInv db) (hinv : CohortInv db log)
    (hstage : StagedInv codec db) (held : PublicationEffects.Held db cohort admissions)
    (staged : db.stage = some stage)
    (loaded : Loaded codec db.sources admissions cohort.cursor stage g)
    (hproof : stageProof codec g stage.order stage.manifestSha256 = .ok proof)
    (fresh : db.ledger.entries.get stage.artifactId = none)
    (hcoverage : typedCoverageProposals db.sources (groupProgress g admissions) = .ok coverage) :
    DeletionInv codec captured (stageCommit codec cohort stage g proof (groupProgress g admissions) coverage db,
      stageCommitLog stage g (groupProgress g admissions) coverage log) := by
  obtain ⟨cohort', as', g', rest, hold⟩ := hstage stage staged
  obtain rfl : cohort = cohort' := Option.some.inj (held.stored.symm.trans hold.held.stored)
  have hstaged := hold.reload hinv held loaded
  have hadvance := advance_staged hstaged hledger hinv hcoverage
  have hchain : Chain g.slices :=
    hstaged.remaining.partition.chain.sublist (List.sublist_append_left g.slices rest)
  obtain ⟨hne, -, hfacts, -⟩ := prepareV2Group_ok hstaged.prepared
  have hlog : (stageCommitLog stage g (groupProgress g admissions) coverage log).committed =
      log.committed ++ [(stage.artifactId, entriesOf g.slices)] ∧
      (stageCommitLog stage g (groupProgress g admissions) coverage log).deleted = log.deleted := by
    unfold stageCommitLog Log.updateCohort
    cases log.cohorts with
    | nil => exact ⟨rfl, rfl⟩
    | cons c earlier => exact ⟨rfl, rfl⟩
  have hmono : ∀ e, Published codec (db, log) e → Published codec
      (stageCommit codec cohort stage g proof (groupProgress g admissions) coverage db,
        stageCommitLog stage g (groupProgress g admissions) coverage log) e :=
    fun e he => he.mono rfl fun c hc => by rw [hlog.1]; exact List.mem_append_left _ hc
  have hgroup : ∀ e ∈ entriesOf g.slices, Published codec
      (stageCommit codec cohort stage g proof (groupProgress g admissions) coverage db,
        stageCommitLog stage g (groupProgress g admissions) coverage log) e := by
    intro e he
    refine .inl ⟨(stage.artifactId, entriesOf g.slices), ?_, he⟩
    rw [hlog.1]
    exact List.mem_append_right _ (List.mem_singleton_self _)
  have hnew : ∀ p ∈ groupProgress g admissions, ∀ i, p.1.cursor ≤ i → i < p.2 → ∀ raw,
      sourceRaw db.sources p.1.sourceId i = some raw → Published codec
        (stageCommit codec cohort stage g proof (groupProgress g admissions) coverage db,
          stageCommitLog stage g (groupProgress g admissions) coverage log) (p.1.sequenceStart + i, raw) := by
    intro p hp i hlow hhigh raw hraw
    obtain ⟨a, ha, rfl⟩ := List.mem_map.mp hp
    have hruns := (hledger.stage stage hstaged.staged).runs
    rw [hstaged.descriptor] at hruns
    simp only [v2Descriptor] at hruns
    obtain ⟨-, hbound, hpass, -⟩ := typedMemberProgress_spec hruns (held_bound hinv held a ha)
    have hcovers := hpass (a.sequenceStart + i) (by simp only at hlow; omega)
      (by simp only at hhigh; omega)
    rw [hfacts, covers_groupFacts hchain hne] at hcovers
    obtain ⟨slice, hslice, hin⟩ := hcovers
    apply hgroup
    refine mem_entriesOf.mpr ⟨slice, hslice, hin, ?_⟩
    have hremains : a.remaining.Contains (a.sequenceStart + i) := by
      simp only at hlow hhigh
      constructor <;> simp only [Admission.remaining] <;> omega
    rw [hstaged.remaining.partition.agree a ha slice (List.mem_append_left _ hslice) _ hremains hin,
      Nat.add_sub_cancel_left]
    exact hraw
  have hnext : ∀ next, (stageCommit codec cohort stage g proof (groupProgress g admissions) coverage db).cohort = some next →
      next.members = withCursors cohort.members ((groupProgress g admissions).map Prod.snd) := by
    intro next hnext
    by_cases hall : allComplete (groupProgress g admissions) = true
    · simp [stageCommit, hall] at hnext
    · simp only [stageCommit, hall] at hnext
      obtain rfl := Option.some.inj hnext
      rfl
  obtain ⟨hrows, hmembers⟩ := advance_rows
    (stageCommit codec cohort stage g proof (groupProgress g admissions) coverage db,
      stageCommitLog stage g (groupProgress g admissions) coverage log) h hinv hadvance rfl rfl
    (fun c hc => by rw [hlog.1]; exact List.mem_append_left _ hc) hnew hnext
  have hslices : ∀ slice ∈ g.slices, Recorded captured slice.records ∧
      ∀ raw ∈ slice.records, raw.length = audioRecordSize := by
    intro slice hslice
    have hreads := (hstaged.remaining.partition.origin slice (List.mem_append_left _ hslice)).1
    refine slice_recorded h hreads ?_
    rintro hempty
    have hpos := hchain.nonempty slice hslice
    rw [nextSequence_eq, hempty] at hpos
    exact lt_irrefl _ hpos
  refine ⟨fun r hr x hx => ?_, fun id e he t ht => ?_, hrows, hmembers, fun e he => ?_⟩
  · obtain ⟨a, ha, hra⟩ := mem_readyRuns.mp hr
    rcases (mem_custody_commit fresh).mp ha with ha | rfl
    · obtain ⟨raw, hrecorded, hpublished, hmatch⟩ := h.ready r (mem_readyRuns.mpr ⟨a, ha, hra⟩) x hx
      exact ⟨raw, hrecorded, hmono _ hpublished, hmatch⟩
    · obtain ⟨slice, hslice, hin, hall⟩ := proof_holds hchain hstaged.prepared hproof hra hx
      obtain ⟨raw, hraw, hmem⟩ := rawAt_of_contains hin
      exact ⟨raw, (hslices slice hslice).1.single hmem,
        hgroup _ (mem_entriesOf.mpr ⟨slice, hslice, hin, hraw⟩), hall raw hraw⟩
  · have hput : (db.ledger.entries.put stage.artifactId
        (v2LedgerEntry codec g stage proof.recordsSha256)).get id = some e := he
    rw [Table.get_put] at hput
    split at hput
    · obtain rfl := Option.some.inj hput
      obtain ⟨slice, hslice, rfl⟩ := List.mem_map.mp ht
      obtain ⟨hrecorded, hsizes⟩ := hslices slice hslice
      refine ⟨slice.records, hrecorded, ⟨nextSequence_eq slice, rfl, hsizes⟩, ?_⟩
      intro i raw hraw
      apply hgroup
      have hlt := (List.getElem?_eq_some_iff.mp hraw).1
      refine mem_entriesOf.mpr ⟨slice, hslice, ⟨Nat.le_add_right _ _, ?_⟩, ?_⟩
      · change slice.startSequence + i < slice.nextSequence
        rw [nextSequence_eq]
        omega
      · unfold Slice.rawAt
        rw [if_pos (Nat.le_add_right _ _), Nat.add_sub_cancel_left]
        exact hraw
    · obtain ⟨records, hrecorded, hlists, hpublished⟩ := h.lineage id e hput t ht
      exact ⟨records, hrecorded, hlists, fun i raw hraw => hmono _ (hpublished i raw hraw)⟩
  · exact hmono e (h.deleted e (hlog.2 ▸ he))

/-- A source that published artifacts hold whole may be retired, if its own digest says so. -/
theorem deletionInv_cover {a : Admission D} {proposal : ℕ × CaptureSource D}
    (hsha : Set.InjOn codec.sha256 (Hashed captured)) (h : DeletionInv codec captured (db, log))
    (hledger : LedgerInv db) (idle : db.cohort = none) (admissible : Admissible db a)
    (proved : typedFullReadyProofs codec db.sources a (custody db.ledger) = .ok true)
    (hproposal : typedCoverageProposal db.sources a = .ok proposal) :
    DeletionInv codec captured ({ db with sources := applyTypedCoverage db.sources [proposal] }, log) := by
  obtain ⟨row, hrow, hadmission⟩ := admissible
  have hadmitted := typedAdmission_ok hadmission
  obtain ⟨hid, row', hrow', hcursor, hcovered⟩ := typedCoverageProposal_ok hproposal
  obtain rfl : row = row' := Option.some.inj (hrow.symm.trans hrow')
  obtain ⟨records, hold⟩ := h.rows _ row hrow
  have hcurrent : snapshotCurrent row.source a := by
    have hsnapshot := hadmitted.snapshot
    exact ⟨by rw [hsnapshot], by rw [hsnapshot], by rw [hsnapshot], by rw [hsnapshot],
      by rw [hsnapshot], .inl hadmitted.lifecycle.symm⟩
  refine h.row a.sourceId rfl rfl rfl ?_ ?_ ?_ fun e he => .inl he
  · intro k hk
    simp only [applyTypedCoverage, List.foldl_cons, List.foldl_nil, Table.get_adjust, hid, if_neg hk]
  · simp [cohortSources, idle]
  · intro covered hget
    simp only [applyTypedCoverage, List.foldl_cons, List.foldl_nil] at hget
    rw [Table.get_adjust, hid, if_pos rfl, hrow] at hget
    obtain rfl := Option.some.inj hget
    refine ⟨records, rowInv_covered hold hcurrent hcursor hcovered ?_⟩
    intro hcount hdigest i hi raw hraw
    unfold typedFullReadyProofs at proved
    split at proved
    · -- A retired artifact lists the whole source.
      rename_i hsome
      obtain ⟨r, hr⟩ := Option.isSome_iff_exists.mp hsome
      unfold typedRetiredFullProof at hr
      have hlisted := List.find?_some hr
      rw [decide_eq_true_eq] at hlisted
      have hlists : Lists codec (a.sequenceStart, a.sequenceStart + a.admittedCount,
          a.admittedSha256) records :=
        ⟨by rw [hold.count, hcount], by rw [← hdigest]; exact hold.digest, hold.sizes⟩
      exact lineage_published hsha h (List.mem_of_find?_eq_some hr) hlisted
        (recorded_self hold.captured) hlists hraw
    · simp only [Checks.bind_ok] at proved
      obtain ⟨_, -, reached, hreached, hall⟩ := proved
      have hend : reached = a.sequenceStart + a.admittedCount := by
        simpa using Except.ok.inj hall
      obtain ⟨-, -, hheld, -⟩ := typedReadyTraversal_spec hledger.sortedRuns le_rfl
        (Nat.le_add_right _ _) hreached
      obtain ⟨r, hr, hrx, found, hfound, hmatch⟩ :=
        hheld (a.sequenceStart + i) (Nat.le_add_right _ _) (by omega)
      rw [Nat.add_sub_cancel_left] at hfound
      obtain rfl : raw = found :=
        Option.some.inj ((hold.stored hrow hcursor hraw).symm.trans hfound)
      exact ready_published hsha h hr hrx
        ((recorded_self hold.captured).single (List.mem_of_getElem? hraw)) hmatch

/-- A source in conflict keeps its rows. -/
theorem deletionInv_block {a : Admission D} (h : DeletionInv codec captured (db, log))
    (idle : db.cohort = none) (admissible : Admissible db a) :
    DeletionInv codec captured ({ db with sources := db.sources.adjust a.sourceId fun row =>
      { row with source := conflictDisposition row.source } }, log) := by
  obtain ⟨row, hrow, hadmission⟩ := admissible
  have hadmitted := typedAdmission_ok hadmission
  obtain ⟨records, hold⟩ := h.rows _ row hrow
  have hcursor : row.source.retirementCursor = none := by
    rw [← Option.not_isSome_iff_eq_none, hold.cursor]
    intro hretiring
    rcases hadmitted.origin with ho | ho
    · rw [ho.1] at hretiring
      cases hretiring
    · rw [ho.1] at hretiring
      cases hretiring
  have hfirst : firstRow row.source = 0 := by simp [firstRow, hcursor]
  refine h.row a.sourceId rfl rfl rfl ?_ ?_ ?_ fun e he => .inl he
  · intro k hk
    simp only [Table.get_adjust, if_neg hk]
  · simp [cohortSources, idle]
  · intro blocked hget
    simp only at hget
    rw [Table.get_adjust, if_pos rfl, hrow] at hget
    obtain rfl := Option.some.inj hget
    refine ⟨records, ⟨hold.captured, ?_, hold.count, hold.digest, hold.sizes, Nat.zero_le _, ?_, ?_,
      ?_⟩⟩
    · simp [conflictDisposition]
    · have hordinals := hold.ordinals
      rw [hfirst] at hordinals
      exact hordinals
    · have hrows := hold.rows
      rw [hfirst] at hrows
      exact hrows
    · intro hretiring
      cases hretiring

omit [DecidableEq D] in
/-- The rows behind a page are a final part of the rows. -/
theorem filter_behind {rows : List CaptureRecord} {first count stop : ℕ}
    (h : rows.map (·.ordinal) = List.range' first count) (hlow : first ≤ stop)
    (hhigh : stop ≤ first + count) :
    (rows.filter fun r => ¬ (first ≤ r.ordinal ∧ r.ordinal < stop)) = rows.drop (stop - first) := by
  have htake : (rows.take (stop - first)).map (·.ordinal) = List.range' first (stop - first) := by
    rw [List.map_take, h, List.take_range'_of_length_ge (by omega)]
  have hdrop : (rows.drop (stop - first)).map (·.ordinal) =
      List.range' stop (count - (stop - first)) := by
    rw [List.map_drop, h, List.drop_range']
    congr 1
    omega
  conv_lhs => rw [← List.take_append_drop (stop - first) rows]
  rw [List.filter_append, List.filter_eq_nil_iff.mpr, List.filter_eq_self.mpr, List.nil_append]
  · intro r hr
    have hmem : r.ordinal ∈ List.range' stop (count - (stop - first)) :=
      hdrop ▸ List.mem_map_of_mem hr
    rw [List.mem_range'_1] at hmem
    rw [decide_eq_true_eq]
    omega
  · intro r hr
    have hmem : r.ordinal ∈ List.range' first (stop - first) := htake ▸ List.mem_map_of_mem hr
    rw [List.mem_range'_1] at hmem
    rw [decide_eq_true_eq]
    omega

/-- A page of a source that is covered by its own digest is published. -/
theorem deletionInv_retirePage {id cursor stop : ℕ} {row : SourceRow D}
    (h : DeletionInv codec captured (db, log)) (stored : db.sources.get id = some row)
    (retiring : row.source.lifecycle = .retiring) (free : id ∉ cohortSources db)
    (cursor_eq : row.source.retirementCursor = some cursor)
    (covered : row.source.coverageDigest = some row.source.committedSha256)
    (bound : cursor ≤ stop ∧ stop ≤ row.source.committedCount) :
    DeletionInv codec captured (PublicationMachine.retirePage id cursor stop db,
      retirePageLog row cursor stop log) := by
  obtain ⟨records, hold⟩ := h.rows id row stored
  have hfirst : firstRow row.source = cursor := by simp [firstRow, cursor_eq]
  have hordinals := hold.ordinals
  have hrows := hold.rows
  rw [hfirst] at hordinals hrows
  have hbehind := filter_behind hordinals bound.1 (by omega)
  refine h.row id rfl rfl rfl ?_ free ?_ ?_
  · intro k hk
    simp only [PublicationMachine.retirePage, Table.get_adjust, if_neg hk]
  · intro rest hget
    simp only [PublicationMachine.retirePage] at hget
    rw [Table.get_adjust, if_pos rfl, stored] at hget
    obtain rfl := Option.some.inj hget
    refine ⟨records, ⟨hold.captured, ?_, hold.count, hold.digest, hold.sizes, bound.2, ?_, ?_,
      hold.retired⟩⟩
    · simp [retiring]
    · simp only [firstRow, Option.getD_some]
      rw [hbehind, List.map_drop, hordinals, List.drop_range']
      congr 1 <;> omega
    · simp only [firstRow, Option.getD_some]
      rw [hbehind, List.map_drop, hrows, List.drop_drop]
      congr 1
      omega
  · intro e he
    rcases List.mem_append.mp he with hearlier | hnew
    · exact .inl hearlier
    · right
      obtain ⟨r, hr, rfl⟩ := List.mem_map.mp hnew
      exact hold.retired retiring covered r.ordinal r.rawBytes
        (hold.mem (List.mem_filter.mp hr).1).2

theorem deletionInv_finish {id : ℕ} (h : DeletionInv codec captured (db, log)) (free : id ∉ cohortSources db) :
    DeletionInv codec captured (finishRetirement id db, log) := by
  refine h.row id rfl rfl rfl ?_ free ?_ fun e he => .inl he
  · intro k hk
    simp only [finishRetirement, Table.get_delete, if_neg hk]
  · intro row hget
    simp [finishRetirement] at hget

theorem deletionInv_capture {id : ℕ} {row : SourceRow D} (h : DeletionInv codec captured (db, log))
    (hinv : CohortInv db log) (fresh : id ∉ log.captured) (valid : CapturedRow codec row)
    (hrecords : captured (row.records.map (·.rawBytes))) :
    DeletionInv codec captured ({ db with sources := db.sources.put id row },
      { log with captured := id :: log.captured }) := by
  refine h.row id rfl rfl rfl ?_ ?_ ?_ fun e he => .inl he
  · intro k hk
    simp only [Table.get_put, if_neg hk]
  · exact fun hmember => fresh (captured_cohort hinv hmember)
  · intro captured hget
    simp only [Table.get_put_self] at hget
    obtain rfl := Option.some.inj hget
    have hfirst : firstRow row.source = 0 := by simp [firstRow, valid.cursor]
    have hlength := congrArg List.length valid.ordinals
    simp only [List.length_map, List.length_range] at hlength
    refine ⟨row.records.map (·.rawBytes), ⟨hrecords, ?_, ?_, ?_, ?_, ?_, ?_, ?_, ?_⟩⟩
    · simp [valid.cursor, valid.uncovered.2]
    · simpa using hlength
    · rw [valid.digest, CaptureRows.rawLog_eq_flatten]
    · intro raw hraw
      obtain ⟨r, hr, rfl⟩ := List.mem_map.mp hraw
      exact (valid.records r hr).length_rawBytes
    · rw [hfirst]
      exact Nat.zero_le _
    · rw [hfirst, valid.ordinals, List.range_eq_range', Nat.sub_zero]
    · rw [hfirst, List.drop_zero]
    · intro hretiring
      exact absurd hretiring valid.uncovered.2

end Steps

theorem effect_deletionInv (hsha : Set.InjOn codec.sha256 (Hashed captured)) (hsound : Sound codec s)
    (h : DeletionInv codec captured s) (heffect : Effect codec s s') : DeletionInv codec captured s' := by
  have hledger := hsound.ledger
  have hinv := hsound.cohort
  have hsame : ∀ {db db' : Db D}, db'.cohort = db.cohort → ∀ next, db'.cohort = some next →
      ∀ m ∈ next.members, m.cursor = 0 ∨ ∃ cohort, db.cohort = some cohort ∧ m ∈ cohort.members :=
    fun hcohort next hnext m hm => .inr ⟨next, hcohort ▸ hnext, hm⟩
  have hlisted : ∀ {l : Ledger D} id e, Stored l id e → ∃ old, Stored l id old ∧
      e.sources = old.sources := fun id e he => ⟨e, he, rfl⟩
  cases heffect with
  | @custody db log cohort admissions slices cursors coverage held accepted _ hcursors hcoverage =>
    exact deletionInv_custody hsha h hledger hinv held hcursors hcoverage
  | @reserve db log cohort admissions g rest later artifactId proof held accepted unstaged remaining
      grouped passed bound prepared initial fresh proof_eq =>
    have hnot : ¬ db.ledger.IsReady artifactId := by
      rw [← hledger.proofs artifactId]
      rintro ⟨p, hp, -⟩
      rw [fresh] at hp
      cases hp
    have hcustody : custody (reservation cohort
        (stageOf codec g artifactId db.ledger.nextPublicOrder cohort.cursor) proof db).ledger =
          custody db.ledger := custody_reservation hnot
    refine h.frame rfl ?_ (hlisted (l := db.ledger)) rfl ?_ rfl rfl
    · intro r hr
      rw [hcustody] at hr
      exact hr
    · intro next hnext m hm
      obtain rfl := Option.some.inj hnext
      exact .inr ⟨cohort, held.stored, hm⟩
  | @commit db log cohort admissions stage g proof coverage held staging staged loaded hproof stored
      fresh hcoverage =>
    exact deletionInv_commit h hledger hinv hsound.staged held staged loaded hproof fresh hcoverage
  | @accept db log o admissions slices idle admissible =>
    refine h.frame rfl (fun _ hr => hr) (hlisted (l := db.ledger)) rfl ?_ rfl rfl
    intro next hnext m hm
    obtain rfl := Option.some.inj hnext
    obtain ⟨a, ha, rfl⟩ := List.mem_map.mp hm
    obtain ⟨row, -, hok⟩ := admissible a ha
    exact .inl (typedAdmission_ok hok).cursor
  | cover idle admissible proved proposal_eq =>
    exact deletionInv_cover hsha h hledger idle admissible proved proposal_eq
  | block idle admissible => exact deletionInv_block h idle admissible
  | retirePage stored retiring free cursor_eq covered bound =>
    exact deletionInv_retirePage h stored retiring free cursor_eq covered bound
  | finish stored retiring free cursor_eq => exact deletionInv_finish h free
  | clear clears =>
    cases clears with
    | clear kept => exact h.frame rfl (fun _ hr => hr) hlisted rfl (hsame rfl) rfl rfl
  | materialize => exact h.frame rfl (fun _ hr => hr) hlisted rfl (hsame rfl) rfl rfl
  | latch => exact h.frame rfl (fun _ hr => hr) hlisted rfl (hsame rfl) rfl rfl
  | summaries => exact h.frame rfl (fun _ hr => hr) hlisted rfl (hsame rfl) rfl rfl
  | wait => exact h.frame rfl (fun _ hr => hr) hlisted rfl (hsame rfl) rfl rfl
  | coalesce => exact h.frame rfl (fun _ hr => hr) hlisted rfl (hsame rfl) rfl rfl
  | failStop => exact h.frame rfl (fun _ hr => hr) hlisted rfl (hsame rfl) rfl rfl

/-- A durable change with which only known records are captured. -/
inductive Known (codec : Codec D) (captured : List Bytes → Prop) :
    Db D × Log D → Db D × Log D → Prop where
  | call {s s' : Db D × Log D} (step : CallStep codec s s') : Known codec captured s s'
  | acknowledge {db : Db D} {log : Log D} {ledger : Ledger D}
      (acknowledges : Acknowledges db.ledger ledger) :
      Known codec captured (db, log) ({ db with ledger := ledger }, log)
  | capture {db : Db D} {log : Log D} {id : ℕ} {row : SourceRow D} (fresh : id ∉ log.captured)
      (valid : CapturedRow codec row) (known : captured (row.records.map (·.rawBytes))) :
      Known codec captured (db, log) ({ db with sources := db.sources.put id row },
        { log with captured := id :: log.captured })

theorem Known.change (h : Known codec captured s s') : Change codec s s' := by
  cases h with
  | call step => exact step.change
  | acknowledge acknowledges =>
    cases acknowledges with
    | clears hclears => exact .program (.clear hclears)
    | retires hretires => exact .retire hretires
  | capture fresh valid => exact .capture fresh valid

theorem known_deletionInv (hsha : Set.InjOn codec.sha256 (Hashed captured)) (hsound : Sound codec s)
    (h : DeletionInv codec captured s) (hknown : Known codec captured s s') :
    DeletionInv codec captured s' := by
  cases hknown with
  | call step =>
    cases step with
    | program effect => exact effect_deletionInv hsha hsound h effect
    | @closures db log closures =>
      exact h.frame rfl (fun _ hr => hr) (fun id e he => ⟨e, he, rfl⟩) rfl
        (fun next hnext m hm => .inr ⟨next, hnext, hm⟩) rfl rfl
  | capture fresh valid known => exact deletionInv_capture h hsound.cohort fresh valid known
  | @acknowledge db log ledger acknowledges =>
    cases acknowledges with
    | clears clears => exact effect_deletionInv hsha hsound h (.clear clears)
    | retires retires =>
      cases retires with
      | @retire id e p entry ready proof active =>
        refine h.frame rfl ?_ ?_ rfl (fun next hnext m hm => .inr ⟨next, hnext, hm⟩) rfl rfl
        · intro r hr
          obtain ⟨a, ha, hra⟩ := mem_readyRuns.mp hr
          exact mem_readyRuns.mpr ⟨a, (custody_retire db.ledger id e).1 a ha, hra⟩
        · intro k e' he'
          change (db.ledger.entries.put id (AckRetirement.Entry.retire e)).get k = some e' at he'
          rw [Table.get_put] at he'
          split at he'
          · rename_i hk
            obtain rfl := Option.some.inj he'
            exact ⟨e, hk ▸ entry, rfl⟩
          · exact ⟨e', he', rfl⟩

theorem knowns_deletionInv (hsha : Set.InjOn codec.sha256 (Hashed captured)) (hs : Consistent codec s)
    (h : DeletionInv codec captured s) (hknowns : ReflTransGen (Known codec captured) s s') :
    Consistent codec s' ∧ DeletionInv codec captured s' := by
  induction hknowns with
  | refl => exact ⟨hs, h⟩
  | tail _ hknown ih =>
    exact ⟨change_consistent ih.1 hknown.change, known_deletionInv hsha ih.1.toSound ih.2 hknown⟩

/-- The records of the sources that a history captures. -/
def CapturedBy (actions : List (Action D)) (records : List Bytes) : Prop :=
  ∃ id row, .capture id row ∈ actions ∧ records = row.records.map (·.rawBytes)

theorem step_known {p : Process D} {actions : List (Action D)} {a : Action D} (ha : a ∈ actions)
    (h : Consistent codec (p.db, p.log)) :
    ReflTransGen (Known codec (CapturedBy actions)) (p.db, p.log)
      ((PublicationMachine.step codec p a).db, (PublicationMachine.step codec p a).log) := by
  refine step_reaches h (fun _ _ => .call) ?_ ?_
  · intro _ _ l l' hack
    have hledger : Acknowledges ({ p.db with ledger := l } : Db D).ledger l' := hack
    exact .acknowledge hledger
  · rintro id row rfl fresh valid
    exact .capture fresh valid ⟨id, row, ha, rfl⟩

theorem run_known {p : Process D} {actions rest : List (Action D)} (hsub : ∀ a ∈ rest, a ∈ actions)
    (h : Consistent codec (p.db, p.log)) :
    ReflTransGen (Known codec (CapturedBy actions)) (p.db, p.log)
      ((run codec p rest).db, (run codec p rest).log) := by
  induction rest generalizing p with
  | nil => exact .refl
  | cons a rest ih =>
    have hstep := step_known (hsub a List.mem_cons_self) h
    have hnext := changes_consistent h (ReflTransGen.mono (fun _ _ => Known.change) _ _ hstep)
    exact hstep.trans (ih (fun b hb => hsub b (List.mem_cons_of_mem _ hb)) hnext)

theorem start_deletionInv (legacy : List (D × LegacyEntry D)) :
    DeletionInv codec captured ((startProcess legacy).db, (startProcess legacy).log) := by
  refine ⟨?_, ?_, ?_, ?_, ?_⟩
  · intro r hr
    obtain ⟨a, ha, -⟩ := mem_readyRuns.mp hr
    cases ha
  · intro id e he
    cases he
  · intro id row hrow
    cases hrow
  · intro cohort hcohort
    cases hcohort
  · intro e he
    cases he

/-- In every history the rows that were deleted are published, byte for byte, and a source in
retirement has lost exactly the rows below its cursor. -/
theorem deleted_rows_published (legacy : List (D × LegacyEntry D)) (actions : List (Action D))
    (hsha : Set.InjOn codec.sha256 (Hashed (CapturedBy actions))) :
    (∀ e ∈ (run codec (startProcess legacy) actions).log.deleted,
      Published codec ((run codec (startProcess legacy) actions).db,
        (run codec (startProcess legacy) actions).log) e) ∧
    ∀ id row, (run codec (startProcess legacy) actions).db.sources.get id = some row →
      row.source.lifecycle = .retiring → ∃ cursor, row.source.retirementCursor = some cursor ∧
        cursor ≤ row.source.committedCount ∧
        row.records.map (·.ordinal) = List.range' cursor (row.source.committedCount - cursor) := by
  have h := (knowns_deletionInv hsha start_consistent (start_deletionInv legacy)
    (run_known (fun _ ha => ha) start_consistent)).2
  refine ⟨h.deleted, ?_⟩
  intro id row hrow hretiring
  obtain ⟨records, hinv⟩ := h.rows id row hrow
  obtain ⟨cursor, hcursor⟩ := Option.isSome_iff_exists.mp (hinv.cursor.mpr hretiring)
  have hfirst : firstRow row.source = cursor := by simp [firstRow, hcursor]
  refine ⟨cursor, hcursor, hfirst ▸ hinv.bound, ?_⟩
  rw [hinv.ordinals, hfirst]

/-- One source is captured, published and deleted. -/
def wholeLife : List (Action Bytes) :=
  [.capture 1 (SealedSources.sealedRow id 0 [SealedSources.packetRecord]), .closeVisit ⟨1, "drained"⟩,
    .publish ⟨1, ClockModel.empty, .missing, [[1]], [], false, none⟩, .retireRaw 10 none]

theorem deleted_rows_published_wholeLife :
    (run ResumedGroups.sampleCodec (startProcess []) wholeLife).log.deleted =
        [(0, SealedSources.packetRecord)] ∧
      ∀ e ∈ (run ResumedGroups.sampleCodec (startProcess []) wholeLife).log.deleted,
        Published ResumedGroups.sampleCodec
          ((run ResumedGroups.sampleCodec (startProcess []) wholeLife).db,
            (run ResumedGroups.sampleCodec (startProcess []) wholeLife).log) e :=
  ⟨by decide +kernel, (deleted_rows_published [] wholeLife Function.injective_id.injOn).1⟩

end PublishedRows
