import OmiCollector.ProofScan

/-! Overlap deduplication as the collector runs it. The candidate of an admission is cut around
the runs of ready artifacts and then around the slices kept so far; every comparison reads the
records of both sides again, page by page, and the hashes of a ready artifact from its stored
proof. -/
namespace PagedOverlap

open ByteCodec CaptureModel CaptureRows Checks KeyedTable SpanCover SpanWalk PublicationLedger
open TypedSlices SlicePartition PagedSlices
open ProofScan (DigestBytes PrivateProof ProofTables Stored)

variable {D : Type} [DecidableEq D]

/-- The conflicts of `_normalize_typed_admissions`. -/
def IsConflict : ReadyError → Prop
  | .overlapConflict _ => True
  | .custodyConflict _ => True
  | .admissionConflict _ _ => True
  | _ => False

/-! ### Comparing records -/

/-- `_TypedReadyCustody`: the artifacts, the private proofs of the active ones, and the state store
that holds the pages of these. -/
structure TypedReadyCustody (D : Type) extends Custody D where
  proofs : Table D (PrivateProof D)
  stateDb : ProofTables D

/-- The strict `zip` of source records with expected hashes; `runs` are the runs from
`run_index` on. -/
def compareHashes (code : DigestBytes D) (codec : Codec D) (failure : Option ReadyError) :
    List NormalizationRun → ℕ → List CaptureRecord → List Bytes → Except ReadyError Unit
  | _, _, [], expected =>
    match failure with
    | some e => .error e
    | none => refuse (expected ≠ []) (.valueError "zip() argument 2 is longer than argument 1")
  | _, _, _ :: _, [] => .error (.valueError "zip() argument 2 is shorter than argument 1")
  | runs, index, record :: records, expected :: later =>
    match runs.dropWhile fun run => run.nextRecordIndex ≤ index with
    | [] => .error .indexError
    | run :: runs =>
      match normalizeRecord record.rawBytes run with
      | .error _ => .error (.overlapConflict "typed ready overlap cannot be normalized")
      | .ok normalized =>
        if (code.sha256 codec normalized).val ≠ expected then
          .error (.overlapConflict "typed ready overlap conflicts with its source record")
        else compareHashes code codec failure (run :: runs) (index + 1) records later

def typedReadyOverlap (code : DigestBytes D) (codec : Codec D) (sources : Table ℕ (SourceRow D))
    (pageLimit : ℕ) (c : TypedReadyCustody D) (a : Admission D) (bundleId : D) (key : ReadyKey D)
    (span : Span) : Except ReadyError Unit :=
  match c.proofs.get bundleId with
  | none => .error .keyError
  | some proof => do
    let count := span.stop - span.start
    let readyOffset := key.readyOffset + (span.start - key.runStart)
    let expected ← ProofScan.replayProofHashes (code.sha256 codec) c.stateDb proof readyOffset count
    let yielded := PagedSlices.typedRecords sources a (span.start - a.sequenceStart) count pageLimit
    compareHashes code codec yielded.failure proof.runs readyOffset yielded.records expected

/-- The strict `zip` of two record generators. -/
def compareRows (leftFailure rightFailure : Option ReadyError) :
    List CaptureRecord → List CaptureRecord → Except ReadyError Unit
  | left :: lefts, right :: rights =>
    if left.rawBytes ≠ right.rawBytes then
      .error (.overlapConflict
        "authenticated typed source overlap has conflicting record bytes")
    else compareRows leftFailure rightFailure lefts rights
  | _ :: _, [] =>
    .error (rightFailure.getD (.valueError "zip() argument 2 is shorter than argument 1"))
  | [], rights =>
    match leftFailure, rights, rightFailure with
    | some e, _, _ => .error e
    | none, _ :: _, _ => .error (.valueError "zip() argument 2 is longer than argument 1")
    | none, [], some e => .error e
    | none, [], none => .ok ()

def compareTypedOverlap (sources : Table ℕ (SourceRow D)) (pageLimit : ℕ)
    (left right : TypedSlice D) (span : Span) : Except ReadyError Unit :=
  let leftRows := PagedSlices.typedRecords sources left.admission
    (left.startOrdinal + (span.start - left.startSequence)) (span.stop - span.start) pageLimit
  let rightRows := PagedSlices.typedRecords sources right.admission
    (right.startOrdinal + (span.start - right.startSequence)) (span.stop - span.start) pageLimit
  compareRows leftRows.failure rightRows.failure leftRows.records rightRows.records

/-! ### Cutting a candidate -/

/-- What lies before a run. -/
def cropGap (stop : ℕ) (crop : Span → Except ReadyError (TypedSlice D)) (run : Span) (cursor : ℕ)
    (unique : List (TypedSlice D)) : Except ReadyError (List (TypedSlice D)) :=
  if cursor < run.start then do
    let piece ← crop ⟨cursor, min run.start stop⟩
    return unique ++ [piece]
  else .ok unique

/-- One run inside the reach of a walk: crop what lies before it and check what it covers. -/
def passRun (stop : ℕ) (crop : Span → Except ReadyError (TypedSlice D))
    (check : Span → Except ReadyError Unit) (run : Span) (cursor : ℕ)
    (unique : List (TypedSlice D)) : Except ReadyError (ℕ × List (TypedSlice D)) := do
  let found ← cropGap stop crop run cursor unique
  let reached := if cursor < run.start then min run.start stop else cursor
  let overlapEnd := min run.stop stop
  if reached < overlapEnd then do
    check ⟨reached, overlapEnd⟩
    return (overlapEnd, found)
  else return (reached, found)

/-- The loop over the segments of one ready artifact. -/
def walkSegments (stop : ℕ) (crop : Span → Except ReadyError (TypedSlice D))
    (check : ReadyKey D → Span → Except ReadyError Unit) :
    List (Span × ReadyKey D) → ℕ → List (TypedSlice D) →
      Except ReadyError (ℕ × List (TypedSlice D))
  | [], cursor, unique => .ok (cursor, unique)
  | (run, key) :: rest, cursor, unique =>
    if run.stop ≤ cursor then walkSegments stop crop check rest cursor unique
    else if stop ≤ run.start then .ok (cursor, unique)
    else do
      let next ← passRun stop crop (check key) run cursor unique
      if next.1 = stop then return next
      else walkSegments stop crop check rest next.1 next.2

/-- The loop over the active artifacts. -/
def walkActive (stop : ℕ) (crop : Span → Except ReadyError (TypedSlice D))
    (check : D → ReadyKey D → Span → Except ReadyError Unit) :
    List (ActiveArtifact D) → ℕ → List (TypedSlice D) →
      Except ReadyError (ℕ × List (TypedSlice D))
  | [], cursor, unique => .ok (cursor, unique)
  | artifact :: rest, cursor, unique => do
    let next ← walkSegments stop crop (check artifact.id) (typedActiveSegments artifact) cursor unique
    if next.1 = stop then return next else walkActive stop crop check rest next.1 next.2

/-- What is left behind the last run. -/
def lastPiece (stop : ℕ) (crop : Span → Except ReadyError (TypedSlice D)) (cursor : ℕ)
    (unique : List (TypedSlice D)) : Except ReadyError (List (TypedSlice D)) :=
  if cursor < stop then do
    let piece ← crop ⟨cursor, stop⟩
    return unique ++ [piece]
  else .ok unique

def rejectPartialRetiredOverlap (a : Admission D) (c : Custody D) : Except ReadyError Unit :=
  (typedRejectPartialRetiredOverlap a c).mapError .custodyConflict

def uniqueAgainstTypedReady (code : DigestBytes D) (codec : Codec D)
    (sources : Table ℕ (SourceRow D)) (pageLimit : ℕ) (candidate : TypedSlice D)
    (c : TypedReadyCustody D) : Except ReadyError (List (TypedSlice D)) := do
  rejectPartialRetiredOverlap candidate.admission c.toCustody
  let crop (span : Span) := cropTypedSlice codec sources pageLimit candidate span.start span.stop
  let walked ← walkActive candidate.nextSequence crop
    (typedReadyOverlap code codec sources pageLimit c candidate.admission) c.active
    candidate.startSequence []
  lastPiece candidate.nextSequence crop walked.1 walked.2

/-- The loop over the slices kept so far. -/
def walkRetained (stop : ℕ) (crop : Span → Except ReadyError (TypedSlice D))
    (check : TypedSlice D → Span → Except ReadyError Unit) :
    List (TypedSlice D) → ℕ → List (TypedSlice D) → Except ReadyError (ℕ × List (TypedSlice D))
  | [], cursor, unique => .ok (cursor, unique)
  | retained :: rest, cursor, unique =>
    if stop ≤ retained.startSequence then .ok (cursor, unique)
    else do
      let next ← passRun stop crop (check retained)
        ⟨retained.startSequence, retained.nextSequence⟩ cursor unique
      if next.1 = stop then return next
      else walkRetained stop crop check rest next.1 next.2

def uniqueAgainstTyped (codec : Codec D) (sources : Table ℕ (SourceRow D)) (pageLimit : ℕ)
    (candidate : TypedSlice D) (normalized : List (TypedSlice D)) (index : ℕ) :
    Except ReadyError (List (TypedSlice D)) := do
  let crop (span : Span) := cropTypedSlice codec sources pageLimit candidate span.start span.stop
  let walked ← walkRetained candidate.nextSequence crop
    (compareTypedOverlap sources pageLimit candidate) (normalized.drop index)
    candidate.startSequence []
  lastPiece candidate.nextSequence crop walked.1 walked.2

/-! ### Normalization -/

def insertSlice (normalized : List (TypedSlice D)) (unique : TypedSlice D) : List (TypedSlice D) :=
  let position := bisectRight (normalized.map (·.nextSequence)) unique.startSequence
  normalized.take position ++ unique :: normalized.drop position

def addReadySlice (codec : Codec D) (sources : Table ℕ (SourceRow D)) (pageLimit : ℕ)
    (normalized : List (TypedSlice D)) (readySlice : TypedSlice D) :
    Except ReadyError (List (TypedSlice D)) := do
  let index := bisectRight (normalized.map (·.nextSequence)) readySlice.startSequence
  let unique ← uniqueAgainstTyped codec sources pageLimit readySlice normalized index
  return unique.foldl insertSlice normalized

/-- A conflict with ready custody names the admission. -/
def asAdmissionConflict (sourceId : ℕ) : ReadyError → ReadyError
  | .overlapConflict message => .admissionConflict sourceId message
  | .custodyConflict message => .admissionConflict sourceId message
  | e => e

/-- The precomputed slices by source, the last one of a source first. -/
def preparedSlices (precomputed : List (TypedSlice D)) : Table ℕ (TypedSlice D) :=
  precomputed.foldl (fun prepared item => prepared.put item.admission.sourceId item) Table.empty

def candidateSlice (codec : Codec D) (sources : Table ℕ (SourceRow D)) (pageLimit : ℕ)
    (prepared : Table ℕ (TypedSlice D)) (a : Admission D) : Except ReadyError (TypedSlice D) :=
  match prepared.get a.sourceId with
  | some item => .ok item
  | none => PagedSlices.typedSlice codec sources a a.cursor (a.admittedCount - a.cursor) pageLimit

def readyUnique (code : DigestBytes D) (codec : Codec D) (sources : Table ℕ (SourceRow D))
    (pageLimit : ℕ) (c : Option (TypedReadyCustody D)) (a : Admission D)
    (candidate : TypedSlice D) : Except ReadyError (List (TypedSlice D)) :=
  match c with
  | none => .ok [candidate]
  | some c => (uniqueAgainstTypedReady code codec sources pageLimit candidate c).mapError
      (asAdmissionConflict a.sourceId)

/-- One round of `_normalize_typed_admissions`. -/
def normalizeAdmission (code : DigestBytes D) (codec : Codec D) (sources : Table ℕ (SourceRow D))
    (pageLimit : ℕ) (c : Option (TypedReadyCustody D))
    (state : Table ℕ (TypedSlice D) × List (TypedSlice D)) (a : Admission D) :
    Except ReadyError (Table ℕ (TypedSlice D) × List (TypedSlice D)) :=
  if a.admittedCount ≤ a.cursor then .ok state
  else do
    let candidate ← candidateSlice codec sources pageLimit state.1 a
    if candidate.admission ≠ a ∨ candidate.startOrdinal ≠ a.cursor ∨
        candidate.recordCount ≠ a.admittedCount - a.cursor then
      .error (.bundle "typed precomputed source slice does not match its admission")
    else if a.cursor = 0 ∧ candidate.rawSha256 ≠ a.admittedSha256 then
      .error (.bundle "typed source rows do not match its admitted checkpoint")
    else do
      let ready ← readyUnique code codec sources pageLimit c a candidate
      let normalized ← ready.foldlM (addReadySlice codec sources pageLimit) state.2
      return (state.1.delete a.sourceId, normalized)

def normalizeTypedAdmissions (code : DigestBytes D) (codec : Codec D)
    (sources : Table ℕ (SourceRow D)) (admissions : List (Admission D)) (pageLimit : ℕ)
    (c : Option (TypedReadyCustody D)) (precomputed : List (TypedSlice D)) :
    Except ReadyError (List (TypedSlice D)) := do
  let final ← admissions.foldlM (normalizeAdmission code codec sources pageLimit c)
    (preparedSlices precomputed, [])
  return final.2

/-! ### Refinement of the comparisons -/

variable {code : DigestBytes D} {codec : Codec D} {sources : Table ℕ (SourceRow D)} {pageLimit : ℕ}

/-- Reading a part of a held slice again yields its records. -/
theorem readSpan {s : Slice D} (h : IsHeld codec sources s) (hlimit : 1 ≤ pageLimit) {span : Span}
    (hin : span.Inside s.span) (hle : span.start ≤ span.stop) :
    ∃ rows, PagedSlices.typedRecords sources s.admission
        (s.startOrdinal + (span.start - s.startSequence)) (span.stop - span.start) pageLimit =
          ⟨rows, none⟩ ∧ rows.map (·.rawBytes) = s.recordsIn span := by
  have hbound := h.bound
  have h1 : s.startSequence ≤ span.start := hin.1
  have h2 : span.stop ≤ s.startSequence + s.recordCount := hin.2
  have hread := h.held.typedRecords hlimit
    (show s.startOrdinal + (span.start - s.startSequence) + (span.stop - span.start) ≤
      s.admission.admittedCount by omega)
  exact ⟨_, hread, (congrArg Slice.records (h.crop hin hle).1).symm⟩

/-- Two generators of equally many records agree, or a conflict is raised. -/
theorem compareRows_spec {lefts rights : List CaptureRecord} (hlen : lefts.length = rights.length) :
    (lefts.map (·.rawBytes) = rights.map (·.rawBytes) ∧
        compareRows none none lefts rights = .ok ()) ∨
      (lefts.map (·.rawBytes) ≠ rights.map (·.rawBytes) ∧
        ∃ e, compareRows none none lefts rights = .error e ∧ IsConflict e) := by
  induction lefts generalizing rights with
  | nil =>
    obtain rfl := List.length_eq_zero_iff.mp hlen.symm
    exact .inl ⟨rfl, rfl⟩
  | cons left lefts ih =>
    cases rights with
    | nil => simp at hlen
    | cons right rights =>
      by_cases hraw : left.rawBytes = right.rawBytes
      · have hrest := @ih rights (by simpa using hlen)
        simpa [compareRows, hraw] using hrest
      · have hraise : compareRows none none (left :: lefts) (right :: rights) =
            .error (.overlapConflict
              "authenticated typed source overlap has conflicting record bytes") := by
          rw [compareRows, if_pos hraw]
        exact .inr ⟨by simp [hraw], _, hraise, trivial⟩

theorem compareTypedOverlap_refines {s t : Slice D} (hs : IsHeld codec sources s)
    (ht : IsHeld codec sources t) (hlimit : 1 ≤ pageLimit) {span : Span} (hins : span.Inside s.span)
    (hint : span.Inside t.span) (hle : span.start ≤ span.stop) :
    Refines id IsConflict
      (compareTypedOverlap sources pageLimit (factsOf codec s) (factsOf codec t) span)
      (TypedSlices.compareTypedOverlap s t span) := by
  obtain ⟨lefts, hleft, hlefts⟩ := readSpan hs hlimit hins hle
  obtain ⟨rights, hright, hrights⟩ := readSpan ht hlimit hint hle
  have hlen : lefts.length = rights.length := by
    have h1 := congrArg List.length hlefts
    have h2 := congrArg List.length hrights
    rw [List.length_map, length_recordsIn hins] at h1
    rw [List.length_map, length_recordsIn hint] at h2
    omega
  have hcode : compareTypedOverlap sources pageLimit (factsOf codec s) (factsOf codec t) span =
      compareRows none none lefts rights := by
    have h1 : PagedSlices.typedRecords sources (factsOf codec s).admission
        ((factsOf codec s).startOrdinal + (span.start - (factsOf codec s).startSequence))
        (span.stop - span.start) pageLimit = ⟨lefts, none⟩ := hleft
    have h2 : PagedSlices.typedRecords sources (factsOf codec t).admission
        ((factsOf codec t).startOrdinal + (span.start - (factsOf codec t).startSequence))
        (span.stop - span.start) pageLimit = ⟨rights, none⟩ := hright
    simp only [compareTypedOverlap, h1, h2]
  rw [hcode, TypedSlices.compareTypedOverlap, ← hlefts, ← hrights]
  obtain ⟨heq, hok⟩ | ⟨hne, e, herror, hconflict⟩ := compareRows_spec hlen
  · rw [if_pos heq, hok]
    exact refines_ok ()
  · rw [if_neg hne, herror]
    exact refines_error hconflict

/-- The run cursor finds the run of an index: it has passed only runs that end before it. -/
theorem dropWhile_runAt {passed runs : List NormalizationRun} {index : ℕ} {run : NormalizationRun}
    (hpassed : ∀ r ∈ passed, r.nextRecordIndex ≤ index)
    (hrun : runAt (passed ++ runs) index = some run) :
    ∃ later, runs.dropWhile (fun r => r.nextRecordIndex ≤ index) = run :: later ∧
      ∃ passed', passed ++ runs = passed' ++ run :: later ∧
        ∀ r ∈ passed', r.nextRecordIndex ≤ index := by
  have hskip : runAt (passed ++ runs) index = runs.find? fun r => index < r.nextRecordIndex := by
    rw [runAt, List.find?_append, List.find?_eq_none.mpr, Option.none_or]
    intro r hr
    have := hpassed r hr
    simpa using this
  rw [hskip, List.find?_eq_some_iff_append] at hrun
  obtain ⟨hinside, before, later, rfl, hbefore⟩ := hrun
  have hends : ∀ r ∈ before, r.nextRecordIndex ≤ index := by
    intro r hr
    simpa using hbefore r hr
  have hinside : index < run.nextRecordIndex := by simpa using hinside
  refine ⟨later, ?_, passed ++ before, by simp, ?_⟩
  · rw [List.dropWhile_append_of_pos (by simpa using hends)]
    exact List.dropWhile_cons_of_neg (by simpa using hinside)
  · intro r hr
    rcases List.mem_append.mp hr with hr | hr
    · exact hpassed r hr
    · exact hends r hr

/-- Records whose indices the proof covers are compared as one lookup for each. -/
theorem compareHashes_refines {proof : ReplayProof D} {passed runs : List NormalizationRun}
    (hruns : proof.normalizationRuns = passed ++ runs) {index : ℕ}
    (hpassed : ∀ r ∈ passed, r.nextRecordIndex ≤ index) {rows : List CaptureRecord}
    (hcovers : ∀ i < rows.length, (runAt proof.normalizationRuns (index + i)).isSome)
    (hlen : index + rows.length ≤ proof.hashes.length) :
    Refines id IsConflict
      (compareHashes code codec none runs index rows
        (((proof.hashes.drop index).take rows.length).map code.bytes))
      (readyHashes codec proof index (rows.map (·.rawBytes))) := by
  induction rows generalizing passed runs index with
  | nil => exact refines_ok ()
  | cons row rows ih =>
    simp only [List.length_cons] at hcovers hlen
    obtain ⟨run, hrun⟩ := Option.isSome_iff_exists.mp (hcovers 0 (by omega))
    rw [Nat.add_zero] at hrun
    obtain ⟨later, hdrop, passed', hsplit, hpassed'⟩ := dropWhile_runAt hpassed (hruns ▸ hrun)
    have hlt : index < proof.hashes.length := by omega
    have hhash : (proof.hashes.drop index).take (rows.length + 1) =
        proof.hashes[index] :: (proof.hashes.drop (index + 1)).take rows.length := by
      rw [List.drop_eq_getElem_cons hlt, List.take_succ_cons]
    have hcovers' : ∀ i < rows.length,
        (runAt proof.normalizationRuns (index + 1 + i)).isSome := by
      intro i hi
      have := hcovers (i + 1) (by omega)
      rwa [← add_assoc, add_right_comm] at this
    have hrest := ih (hruns.trans hsplit)
      (fun r hr => (hpassed' r hr).trans (Nat.le_succ index)) hcovers' (by omega)
    rw [List.length_cons, hhash, List.map_cons, List.map_cons, compareHashes, hdrop, readyHashes,
      hrun]
    simp only
    cases hnorm : normalizeRecord row.rawBytes run with
    | error e => exact refines_error trivial
    | ok normalized =>
      simp only [DigestBytes.sha256, List.getElem?_eq_getElem hlt, Option.some.injEq,
        code.injective.ne_iff]
      by_cases hsame : codec.sha256 normalized = proof.hashes[index]
      · rw [if_neg (not_not.mpr hsame), if_pos hsame.symm]
        exact hrest
      · rw [if_pos hsame, if_neg (Ne.symm hsame)]
        exact refines_error trivial

/-- The proof of a ready run has a normalization run and a hash for every sequence of the run. -/
def RunCovered (r : Span × ReadyKey D) : Prop :=
  ∀ x, r.1.Contains x →
    (runAt r.2.proof.normalizationRuns (r.2.readyOffset + (x - r.2.runStart))).isSome ∧
      r.2.readyOffset + (x - r.2.runStart) < r.2.proof.hashes.length

/-- The private proof of an id has the runs of a replay proof, and the state store its hashes. -/
def Backed (code : DigestBytes D) (codec : Codec D) (c : TypedReadyCustody D)
    (bundleId : D) (proof : ReplayProof D) : Prop :=
  ∃ held, c.proofs.get bundleId = some held ∧ held.runs = proof.normalizationRuns ∧
    Stored codec code c.stateDb held proof.hashes

theorem typedReadyOverlap_refines {s : Slice D} (hs : IsHeld codec sources s)
    (hlimit : 1 ≤ pageLimit) {c : TypedReadyCustody D} {bundleId : D} {r : Span × ReadyKey D}
    (hbacked : Backed code codec c bundleId r.2.proof) (hstart : r.2.runStart = r.1.start)
    (hcovered : RunCovered r) {span : Span} (hinr : span.Inside r.1) (hins : span.Inside s.span)
    (hlt : span.start < span.stop) :
    Refines id IsConflict
      (typedReadyOverlap code codec sources pageLimit c s.admission bundleId r.2 span)
      (TypedSlices.typedReadyOverlap codec s r.2 span) := by
  obtain ⟨held, hheld, hruns, hstored⟩ := hbacked
  obtain ⟨rows, hread, hrows⟩ := readSpan hs hlimit hins hlt.le
  have hlen : rows.length = span.stop - span.start := by
    rw [← length_recordsIn hins, ← hrows, List.length_map]
  have h1 : r.1.start ≤ span.start := hinr.1
  have h2 : span.stop ≤ r.1.stop := hinr.2
  have h3 : s.admission.sequenceStart + s.startOrdinal ≤ span.start := hins.1
  have hordinal : span.start - s.admission.sequenceStart =
      s.startOrdinal + (span.start - s.startSequence) := by
    unfold Slice.startSequence
    omega
  have hindex : ∀ i < rows.length,
      (runAt r.2.proof.normalizationRuns (r.2.readyOffset + (span.start - r.2.runStart) + i)).isSome ∧
        r.2.readyOffset + (span.start - r.2.runStart) + i < r.2.proof.hashes.length := by
    intro i hi
    have := hcovered (span.start + i) ⟨by omega, by omega⟩
    have hsum : span.start + i - r.2.runStart = span.start - r.2.runStart + i := by omega
    rwa [hsum, ← add_assoc] at this
  have hlast := (hindex (rows.length - 1) (by omega)).2
  have hscan := ProofScan.replayProofHashes_eq hstored
    (show 0 < span.stop - span.start by omega)
    (show r.2.readyOffset + (span.start - r.2.runStart) + (span.stop - span.start) ≤
      r.2.proof.hashes.length by omega)
  have hcompare : Refines id IsConflict
      (compareHashes code codec none r.2.proof.normalizationRuns _ rows
        (((r.2.proof.hashes.drop _).take rows.length).map code.bytes))
      (readyHashes codec r.2.proof (r.2.readyOffset + (span.start - r.2.runStart))
        (rows.map (·.rawBytes))) :=
    compareHashes_refines (List.nil_append _).symm (by simp) (fun i hi => (hindex i hi).1) (by omega)
  rw [hrows, hlen] at hcompare
  simp only [typedReadyOverlap, hheld, hscan, hordinal, hread, hruns]
  exact hcompare

/-! ### Refinement of the walks -/

/-- The pieces of an abstract walk with their facts. -/
def piecesOf (codec : Codec D) (s : Slice D) (state : ℕ × List Span) : ℕ × List (TypedSlice D) :=
  (state.1, state.2.map fun span => factsOf codec (s.crop span))

section Walk

variable {s : Slice D} {crop : Span → Except ReadyError (TypedSlice D)}

/-- `crop` cuts parts out of a slice and gives their facts. -/
def Crops (codec : Codec D) (s : Slice D) (crop : Span → Except ReadyError (TypedSlice D)) : Prop :=
  ∀ span : Span, span.Inside s.span → span.start < span.stop →
    crop span = .ok (factsOf codec (s.crop span))

/-- One run inside the reach of an abstract walk. -/
def passSpan (stop : ℕ) (check : Span → Except String Unit) (run : Span) (cursor : ℕ)
    (uncovered : List Span) : Except String (ℕ × List Span) :=
  let found := if cursor < run.start then uncovered ++ [⟨cursor, run.start⟩] else uncovered
  let reached := max cursor run.start
  let next := min run.stop stop
  if reached < next then do
    check ⟨reached, next⟩
    return (next, found)
  else .ok (reached, found)

theorem subtract_reach {κ : Type} {stop cursor : ℕ} {check : κ → Span → Except String Unit}
    {run : Span} {k : κ} {rest : List (Span × κ)} {uncovered : List Span}
    (hahead : ¬ run.stop ≤ cursor) (hinside : ¬ stop ≤ run.start) :
    subtract stop check ((run, k) :: rest) (cursor, uncovered) =
      passSpan stop (check k) run cursor uncovered >>= fun state =>
        if state.1 = stop then .ok state else subtract stop check rest state := by
  rw [subtract, if_neg hahead, if_neg hinside, passSpan]
  by_cases hlt : max cursor run.start < min run.stop stop
  · simp only [if_pos hlt]
    cases check k ⟨max cursor run.start, min run.stop stop⟩ with
    | error e => rfl
    | ok u => rfl
  · simp only [if_neg hlt]
    rfl

theorem passSpan_bounds {stop cursor : ℕ} {check : Span → Except String Unit} {run : Span}
    {uncovered : List Span} {state : ℕ × List Span} (hcursor : cursor ≤ stop)
    (hahead : ¬ run.stop ≤ cursor) (hinside : ¬ stop ≤ run.start)
    (h : passSpan stop check run cursor uncovered = .ok state) :
    cursor ≤ state.1 ∧ state.1 ≤ stop := by
  unfold passSpan at h
  simp only at h
  split at h
  · simp only [bind_ok, pure_ok] at h
    obtain ⟨-, -, rfl⟩ := h
    simp only
    omega
  · obtain rfl := Except.ok.inj h
    simp only
    omega

theorem subtract_bounds {κ : Type} {stop cursor : ℕ} {check : κ → Span → Except String Unit}
    {runs : List (Span × κ)} {uncovered : List Span} {state : ℕ × List Span} (hcursor : cursor ≤ stop)
    (h : subtract stop check runs (cursor, uncovered) = .ok state) :
    cursor ≤ state.1 ∧ state.1 ≤ stop := by
  induction runs generalizing cursor uncovered with
  | nil =>
    obtain rfl := Except.ok.inj h
    exact ⟨le_rfl, hcursor⟩
  | cons r rest ih =>
    obtain ⟨run, k⟩ := r
    by_cases hbehind : run.stop ≤ cursor
    · rw [subtract, if_pos hbehind] at h
      exact ih hcursor h
    · by_cases hbeyond : stop ≤ run.start
      · rw [subtract, if_neg hbehind, if_pos hbeyond] at h
        obtain rfl := Except.ok.inj h
        exact ⟨le_rfl, hcursor⟩
      · rw [subtract_reach hbehind hbeyond, bind_ok] at h
        obtain ⟨mid, hmid, h⟩ := h
        have hb := passSpan_bounds hcursor hbehind hbeyond hmid
        split at h
        · obtain rfl := Except.ok.inj h
          exact hb
        · have := ih hb.2 h
          exact ⟨hb.1.trans this.1, this.2⟩

/-- A walk that has reached its end stays there. -/
theorem subtract_stop {κ : Type} {stop : ℕ} {check : κ → Span → Except String Unit}
    (runs : List (Span × κ)) (uncovered : List Span) :
    subtract stop check runs (stop, uncovered) = .ok (stop, uncovered) := by
  induction runs with
  | nil => rfl
  | cons r rest ih =>
    obtain ⟨run, k⟩ := r
    by_cases hbehind : run.stop ≤ stop
    · rw [subtract, if_pos hbehind, ih]
    · by_cases hbeyond : stop ≤ run.start
      · rw [subtract, if_neg hbehind, if_pos hbeyond]
      · have hmax : max stop run.start = stop := by omega
        have hmin : min run.stop stop = stop := by omega
        have hnot : ¬ stop < run.start := by omega
        simp [subtract_reach hbehind hbeyond, passSpan, hmax, hmin, hnot, bind, Except.bind]

omit [DecidableEq D] in
theorem passRun_refines (hcrop : Crops codec s crop) {check : Span → Except ReadyError Unit}
    {check' : Span → Except String Unit} {run : Span} {cursor : ℕ} {uncovered : List Span}
    (hcheck : ∀ span : Span, span.Inside run → span.Inside s.span → span.start < span.stop →
      Refines id IsConflict (check span) (check' span))
    (hstart : s.startSequence ≤ cursor) (hinside : ¬ s.nextSequence ≤ run.start) :
    Refines (piecesOf codec s) IsConflict
      (passRun s.nextSequence crop check run cursor
        (uncovered.map fun span => factsOf codec (s.crop span)))
      (passSpan s.nextSequence check' run cursor uncovered) := by
  have hmin : min run.start s.nextSequence = run.start := by omega
  obtain ⟨found, hfound⟩ : ∃ found, found =
      if cursor < run.start then uncovered ++ [⟨cursor, run.start⟩] else uncovered := ⟨_, rfl⟩
  have hpiece : cropGap s.nextSequence crop run cursor
      (uncovered.map fun span => factsOf codec (s.crop span)) =
      .ok (found.map fun span => factsOf codec (s.crop span)) := by
    by_cases hgap : cursor < run.start
    · have hcut := hcrop ⟨cursor, run.start⟩ ⟨hstart, (not_le.mp hinside).le⟩ hgap
      rw [cropGap, if_pos hgap, hmin, hcut, hfound, if_pos hgap, List.map_append]
      rfl
    · rw [cropGap, if_neg hgap, hfound, if_neg hgap]
  have hreached : (if cursor < run.start then min run.start s.nextSequence else cursor) =
      max cursor run.start := by
    rw [hmin]
    split <;> omega
  simp only [passRun, passSpan, hpiece, hreached, ← hfound, bind, Except.bind]
  by_cases hlt : max cursor run.start < min run.stop s.nextSequence
  · rw [if_pos hlt, if_pos hlt]
    have hone := hcheck ⟨max cursor run.start, min run.stop s.nextSequence⟩
      ⟨le_max_right _ _, min_le_left _ _⟩ ⟨hstart.trans (le_max_left _ _), min_le_right _ _⟩ hlt
    exact hone.bind (g := piecesOf codec s) fun _ _ => refines_ok (f := piecesOf codec s) (_, found)
  · rw [if_neg hlt, if_neg hlt]
    exact refines_ok (f := piecesOf codec s) (_, found)

omit [DecidableEq D] in
theorem walkSegments_refines (hcrop : Crops codec s crop)
    {check : ReadyKey D → Span → Except ReadyError Unit}
    {check' : ReadyKey D → Span → Except String Unit} {runs : List (Span × ReadyKey D)}
    (hcheck : ∀ r ∈ runs, ∀ span : Span, span.Inside r.1 → span.Inside s.span →
      span.start < span.stop → Refines id IsConflict (check r.2 span) (check' r.2 span))
    {cursor : ℕ} {uncovered : List Span} (hstart : s.startSequence ≤ cursor)
    (hcursor : cursor ≤ s.nextSequence) :
    Refines (piecesOf codec s) IsConflict
      (walkSegments s.nextSequence crop check runs cursor
        (uncovered.map fun span => factsOf codec (s.crop span)))
      (subtract s.nextSequence check' runs (cursor, uncovered)) := by
  induction runs generalizing cursor uncovered with
  | nil => exact refines_ok (f := piecesOf codec s) (cursor, uncovered)
  | cons r rest ih =>
    obtain ⟨run, key⟩ := r
    have htail : ∀ r ∈ rest, ∀ span : Span, span.Inside r.1 → span.Inside s.span →
        span.start < span.stop → Refines id IsConflict (check r.2 span) (check' r.2 span) :=
      fun r hr => hcheck r (List.mem_cons_of_mem _ hr)
    by_cases hbehind : run.stop ≤ cursor
    · rw [walkSegments, if_pos hbehind, subtract, if_pos hbehind]
      exact ih htail hstart hcursor
    · by_cases hbeyond : s.nextSequence ≤ run.start
      · rw [walkSegments, if_neg hbehind, if_pos hbeyond, subtract, if_neg hbehind, if_pos hbeyond]
        exact refines_ok (f := piecesOf codec s) (cursor, uncovered)
      · rw [walkSegments, if_neg hbehind, if_neg hbeyond, subtract_reach hbehind hbeyond]
        refine (passRun_refines hcrop (hcheck (run, key) (by simp)) hstart hbeyond).bind ?_
        intro state hstate
        have hb := passSpan_bounds hcursor hbehind hbeyond hstate
        by_cases hend : state.1 = s.nextSequence
        · have hend' : (piecesOf codec s state).1 = s.nextSequence := hend
          rw [if_pos hend', if_pos hend]
          exact refines_ok (f := piecesOf codec s) state
        · have hend' : ¬ (piecesOf codec s state).1 = s.nextSequence := hend
          rw [if_neg hend', if_neg hend]
          exact ih htail (hstart.trans hb.1) hb.2

omit [DecidableEq D] in
/-- The loops over all artifacts are one walk after the other. -/
theorem walkActive_refines (hcrop : Crops codec s crop)
    {check : D → ReadyKey D → Span → Except ReadyError Unit}
    {check' : ReadyKey D → Span → Except String Unit} {active : List (ActiveArtifact D)}
    (hcheck : ∀ artifact ∈ active, ∀ r ∈ typedActiveSegments artifact, ∀ span : Span,
      span.Inside r.1 → span.Inside s.span → span.start < span.stop →
        Refines id IsConflict (check artifact.id r.2 span) (check' r.2 span))
    {cursor : ℕ} (uncovered : List Span) (hstart : s.startSequence ≤ cursor)
    (hcursor : cursor ≤ s.nextSequence) :
    Refines (piecesOf codec s) IsConflict
      (walkActive s.nextSequence crop check active cursor
        (uncovered.map fun span => factsOf codec (s.crop span)))
      ((active.map typedActiveSegments).foldlM
        (fun state runs => subtract s.nextSequence check' runs state) (cursor, uncovered)) := by
  induction active generalizing cursor uncovered with
  | nil => exact refines_ok (f := piecesOf codec s) (cursor, uncovered)
  | cons artifact rest ih =>
    rw [walkActive, List.map_cons, List.foldlM_cons]
    refine (walkSegments_refines hcrop (hcheck artifact (by simp)) hstart hcursor).bind ?_
    intro state hstate
    have hb := subtract_bounds hcursor hstate
    have htail : Refines (piecesOf codec s) IsConflict
        (walkActive s.nextSequence crop check rest state.1
          (state.2.map fun span => factsOf codec (s.crop span)))
        ((rest.map typedActiveSegments).foldlM
          (fun state runs => subtract s.nextSequence check' runs state) (state.1, state.2)) :=
      ih (fun other hother => hcheck other (List.mem_cons_of_mem _ hother)) state.2
        (hstart.trans hb.1) hb.2
    by_cases hend : state.1 = s.nextSequence
    · have hend' : (piecesOf codec s state).1 = s.nextSequence := hend
      rw [if_pos hend']
      have hdone : ∀ owners : List (List (Span × ReadyKey D)),
          owners.foldlM (fun state runs => subtract s.nextSequence check' runs state) state =
            .ok state := by
        intro owners
        induction owners with
        | nil => rfl
        | cons runs owners ihowners =>
          have hstep : subtract s.nextSequence check' runs state = .ok state := by
            obtain ⟨_, _⟩ := state
            obtain rfl := hend
            exact subtract_stop runs _
          rw [List.foldlM_cons, hstep]
          exact ihowners
      rw [hdone]
      exact refines_ok (f := piecesOf codec s) state
    · have hend' : ¬ (piecesOf codec s state).1 = s.nextSequence := hend
      rw [if_neg hend']
      exact htail

omit [DecidableEq D] in
/-- The walk along kept slices, none of which is empty. -/
theorem walkRetained_refines (hcrop : Crops codec s crop)
    {check : TypedSlice D → Span → Except ReadyError Unit}
    {check' : Slice D → Span → Except String Unit} {kept : List (Slice D)}
    (hne : ∀ t ∈ kept, t.startSequence < t.nextSequence)
    (hcheck : ∀ t ∈ kept, ∀ span : Span, span.Inside t.span → span.Inside s.span →
      span.start < span.stop → Refines id IsConflict (check (factsOf codec t) span) (check' t span))
    {cursor : ℕ} (uncovered : List Span) (hstart : s.startSequence ≤ cursor)
    (hcursor : cursor ≤ s.nextSequence) :
    Refines (piecesOf codec s) IsConflict
      (walkRetained s.nextSequence crop check (kept.map (factsOf codec)) cursor
        (uncovered.map fun span => factsOf codec (s.crop span)))
      (subtract s.nextSequence check' (kept.map fun t => (t.span, t)) (cursor, uncovered)) := by
  induction kept generalizing cursor uncovered with
  | nil => exact refines_ok (f := piecesOf codec s) (cursor, uncovered)
  | cons t rest ih =>
    have hpos : t.startSequence < t.nextSequence := hne t (by simp)
    have hne' : ∀ t ∈ rest, t.startSequence < t.nextSequence :=
      fun t ht => hne t (List.mem_cons_of_mem _ ht)
    have hcheck' : ∀ t ∈ rest, ∀ span : Span, span.Inside t.span → span.Inside s.span →
        span.start < span.stop →
          Refines id IsConflict (check (factsOf codec t) span) (check' t span) :=
      fun t ht => hcheck t (List.mem_cons_of_mem _ ht)
    rw [List.map_cons, List.map_cons, walkRetained]
    change Refines _ _ (if s.nextSequence ≤ t.startSequence then _ else _) _
    by_cases hbeyond : s.nextSequence ≤ t.span.start
    · have hbeyond' : s.nextSequence ≤ t.startSequence := hbeyond
      have hbehind : ¬ t.span.stop ≤ cursor := by
        simp only [Slice.span]
        omega
      rw [if_pos hbeyond', subtract, if_neg hbehind, if_pos hbeyond]
      exact refines_ok (f := piecesOf codec s) (cursor, uncovered)
    · have hbeyond' : ¬ s.nextSequence ≤ t.startSequence := hbeyond
      rw [if_neg hbeyond']
      by_cases hbehind : t.span.stop ≤ cursor
      · -- The source passes a slice behind the cursor without a comparison.
        have hstop : t.nextSequence ≤ cursor := hbehind
        have hsame : passRun s.nextSequence crop (check (factsOf codec t))
            ⟨(factsOf codec t).startSequence, (factsOf codec t).nextSequence⟩ cursor
            (uncovered.map fun span => factsOf codec (s.crop span)) =
              .ok (piecesOf codec s (cursor, uncovered)) := by
          have h1 : ¬ cursor < (factsOf codec t).startSequence := by
            simp only [factsOf]
            omega
          have h2 : ¬ cursor < min (factsOf codec t).nextSequence s.nextSequence := by
            simp only [factsOf]
            omega
          simp only [passRun, cropGap, if_neg h1, bind, Except.bind, if_neg h2]
          rfl
        rw [hsame, subtract, if_pos hbehind]
        change Refines _ _ (if cursor = s.nextSequence then _ else _) _
        by_cases hend : cursor = s.nextSequence
        · rw [if_pos hend, hend, subtract_stop]
          exact refines_ok (f := piecesOf codec s) (s.nextSequence, uncovered)
        · rw [if_neg hend]
          exact ih hne' hcheck' uncovered hstart hcursor
      · rw [subtract_reach hbehind hbeyond]
        refine (passRun_refines hcrop (hcheck t (by simp)) hstart hbeyond).bind ?_
        intro state hstate
        have hb := passSpan_bounds hcursor hbehind hbeyond hstate
        by_cases hend : state.1 = s.nextSequence
        · have hend' : (piecesOf codec s state).1 = s.nextSequence := hend
          rw [if_pos hend', if_pos hend]
          exact refines_ok (f := piecesOf codec s) state
        · have hend' : ¬ (piecesOf codec s state).1 = s.nextSequence := hend
          rw [if_neg hend', if_neg hend]
          exact ih hne' hcheck' state.2 (hstart.trans hb.1) hb.2

omit [DecidableEq D] in
theorem lastPiece_refines (hcrop : Crops codec s crop) {state : ℕ × List Span}
    (hstart : s.startSequence ≤ state.1) :
    lastPiece s.nextSequence crop state.1
        (state.2.map fun span => factsOf codec (s.crop span)) =
      .ok (((if state.1 < s.nextSequence then state.2 ++ [⟨state.1, s.nextSequence⟩]
        else state.2).map s.crop).map (factsOf codec)) := by
  by_cases hlt : state.1 < s.nextSequence
  · have hcut := hcrop ⟨state.1, s.nextSequence⟩ ⟨hstart, le_rfl⟩ hlt
    rw [lastPiece, if_pos hlt, hcut, if_pos hlt]
    simp [bind, Except.bind, pure, Except.pure]
  · rw [lastPiece, if_neg hlt, if_neg hlt, List.map_map]
    rfl

end Walk

/-! ### Refinement of normalization -/

theorem crops_factsOf {s : Slice D} (h : IsHeld codec sources s) (hlimit : 1 ≤ pageLimit) :
    Crops codec s fun span =>
      cropTypedSlice codec sources pageLimit (factsOf codec s) span.start span.stop :=
  fun _ hin hlt => cropTypedSlice_eq h hlimit hin hlt

omit [DecidableEq D] in
theorem subtractAll_eq {κ : Type} {start stop : ℕ} {check : κ → Span → Except String Unit}
    {owners : List (List (Span × κ))} : subtractAll start stop check owners =
      owners.foldlM (fun state runs => subtract stop check runs state) (start, []) >>= fun state =>
        .ok (if state.1 < stop then state.2 ++ [⟨state.1, stop⟩] else state.2) := by
  unfold subtractAll
  cases owners.foldlM (fun state runs => subtract stop check runs state) (start, []) with
  | error e => rfl
  | ok state => rfl

theorem foldlM_subtract_bounds {κ : Type} {stop cursor : ℕ} {check : κ → Span → Except String Unit}
    {owners : List (List (Span × κ))} {uncovered : List Span} {state : ℕ × List Span}
    (hcursor : cursor ≤ stop)
    (h : owners.foldlM (fun state runs => subtract stop check runs state) (cursor, uncovered) =
      .ok state) : cursor ≤ state.1 ∧ state.1 ≤ stop := by
  induction owners generalizing cursor uncovered with
  | nil =>
    obtain rfl := Except.ok.inj h
    exact ⟨le_rfl, hcursor⟩
  | cons runs owners ih =>
    rw [List.foldlM_cons, bind_ok] at h
    obtain ⟨mid, hmid, h⟩ := h
    have hb := subtract_bounds hcursor hmid
    have := ih hb.2 h
    exact ⟨hb.1.trans this.1, this.2⟩

theorem uniqueAgainstTyped_refines {s : Slice D} (hs : IsHeld codec sources s)
    (hlimit : 1 ≤ pageLimit) {normalized : List (Slice D)} (hchain : Chain normalized)
    (hheld : ∀ t ∈ normalized, IsHeld codec sources t) (index : ℕ) :
    Refines (List.map (factsOf codec)) IsConflict
      (uniqueAgainstTyped codec sources pageLimit (factsOf codec s)
        (normalized.map (factsOf codec)) index)
      (TypedSlices.uniqueAgainstTyped s normalized index) := by
  have hcrops := crops_factsOf hs hlimit
  have hle : s.startSequence ≤ s.nextSequence := Nat.le_add_right _ _
  have hcheck : ∀ t ∈ normalized.drop index, ∀ span : Span, span.Inside t.span →
      span.Inside s.span → span.start < span.stop → Refines id IsConflict
        (compareTypedOverlap sources pageLimit (factsOf codec s) (factsOf codec t) span)
        (TypedSlices.compareTypedOverlap s t span) := fun t ht span hint hins hlt =>
    compareTypedOverlap_refines hs (hheld t (List.mem_of_mem_drop ht)) hlimit hins hint hlt.le
  have hne : ∀ t ∈ normalized.drop index, t.startSequence < t.nextSequence :=
    fun t ht => hchain.nonempty t (List.mem_of_mem_drop ht)
  have hwalk : Refines (piecesOf codec s) IsConflict
      (walkRetained s.nextSequence _ (compareTypedOverlap sources pageLimit (factsOf codec s))
        ((normalized.drop index).map (factsOf codec)) s.startSequence [])
      (subtract s.nextSequence (TypedSlices.compareTypedOverlap s)
        ((normalized.drop index).map fun t => (t.span, t)) (s.startSequence, [])) :=
    walkRetained_refines hcrops hne hcheck [] le_rfl hle
  have hdrop : (normalized.map (factsOf codec)).drop index =
      (normalized.drop index).map (factsOf codec) := by rw [List.map_drop]
  unfold uniqueAgainstTyped TypedSlices.uniqueAgainstTyped
  rw [hdrop, subtractAll_eq]
  simp only [List.foldlM_cons, List.foldlM_nil, bind_pure, bind_assoc]
  refine hwalk.bind fun state hstate => ?_
  have hb := subtract_bounds hle hstate
  have hlast := lastPiece_refines hcrops hb.1
  change Refines _ _ (lastPiece s.nextSequence _ state.1
    (state.2.map fun span => factsOf codec (s.crop span))) _
  rw [hlast]
  exact refines_ok (f := List.map (factsOf codec)) _

omit [DecidableEq D] in
theorem insertSlice_facts (normalized : List (Slice D)) (unique : Slice D) :
    insertSlice (normalized.map (factsOf codec)) (factsOf codec unique) =
      (TypedSlices.insertSlice normalized unique).map (factsOf codec) := by
  have hends : (normalized.map (factsOf codec)).map (·.nextSequence) =
      normalized.map (·.nextSequence) := by
    rw [List.map_map]
    rfl
  simp only [insertSlice, TypedSlices.insertSlice, hends, List.map_append, List.map_cons,
    List.map_take, List.map_drop]
  rfl

omit [DecidableEq D] in
theorem foldl_insertSlice_facts (normalized unique : List (Slice D)) :
    (unique.map (factsOf codec)).foldl insertSlice (normalized.map (factsOf codec)) =
      (unique.foldl TypedSlices.insertSlice normalized).map (factsOf codec) := by
  induction unique generalizing normalized with
  | nil => rfl
  | cons u unique ih =>
    rw [List.map_cons, List.foldl_cons, insertSlice_facts, ih, List.foldl_cons]

theorem addReadySlice_refines {s : Slice D} (hs : IsHeld codec sources s) (hlimit : 1 ≤ pageLimit)
    {normalized : List (Slice D)} (hchain : Chain normalized)
    (hheld : ∀ t ∈ normalized, IsHeld codec sources t) :
    Refines (List.map (factsOf codec)) IsConflict
      (addReadySlice codec sources pageLimit (normalized.map (factsOf codec)) (factsOf codec s))
      (TypedSlices.addReadySlice normalized s) := by
  have hends : (normalized.map (factsOf codec)).map (·.nextSequence) =
      normalized.map (·.nextSequence) := by
    rw [List.map_map]
    rfl
  have hunique := uniqueAgainstTyped_refines hs hlimit hchain hheld
    (bisectRight (normalized.map (·.nextSequence)) s.startSequence)
  simp only [addReadySlice, hends]
  refine hunique.mapError_right.bind fun unique _ => ?_
  rw [foldl_insertSlice_facts]
  exact refines_ok (f := List.map (factsOf codec)) _

theorem uniqueAgainstTypedReady_refines {s : Slice D} (hs : IsHeld codec sources s)
    (hlimit : 1 ≤ pageLimit) {c : TypedReadyCustody D}
    (hbacked : ∀ artifact ∈ c.active, Backed code codec c artifact.id artifact.proof)
    (hcovered : ∀ r ∈ readyRuns c.toCustody, RunCovered r) :
    Refines (List.map (factsOf codec)) IsConflict
      (uniqueAgainstTypedReady code codec sources pageLimit (factsOf codec s) c)
      (TypedSlices.uniqueAgainstTypedReady codec s c.toCustody) := by
  have hcrops := crops_factsOf hs hlimit
  have hle : s.startSequence ≤ s.nextSequence := Nat.le_add_right _ _
  have hreject : Refines id IsConflict (rejectPartialRetiredOverlap s.admission c.toCustody)
      (typedRejectPartialRetiredOverlap s.admission c.toCustody) := by
    unfold rejectPartialRetiredOverlap
    cases typedRejectPartialRetiredOverlap s.admission c.toCustody with
    | error e => exact refines_error trivial
    | ok u => exact refines_ok u
  have hcheck : ∀ artifact ∈ c.active, ∀ r ∈ typedActiveSegments artifact, ∀ span : Span,
      span.Inside r.1 → span.Inside s.span → span.start < span.stop → Refines id IsConflict
        (typedReadyOverlap code codec sources pageLimit c s.admission artifact.id r.2 span)
        (TypedSlices.typedReadyOverlap codec s r.2 span) := by
    intro artifact hartifact r hr span hinr hins hlt
    have hrun : r ∈ readyRuns c.toCustody :=
      List.mem_flatten_of_mem (List.mem_map_of_mem hartifact) hr
    have hproof : r.2.proof = artifact.proof := segmentsFrom_proof hr
    exact typedReadyOverlap_refines hs hlimit (hproof ▸ hbacked artifact hartifact)
      (readyRuns_runStart hrun) (hcovered r hrun) hinr hins hlt
  have hwalk : Refines (piecesOf codec s) IsConflict
      (walkActive s.nextSequence _ (typedReadyOverlap code codec sources pageLimit c s.admission)
        c.active s.startSequence [])
      ((c.active.map typedActiveSegments).foldlM (fun state runs =>
        subtract s.nextSequence (TypedSlices.typedReadyOverlap codec s) runs state)
          (s.startSequence, [])) :=
    walkActive_refines hcrops hcheck [] le_rfl hle
  unfold uniqueAgainstTypedReady TypedSlices.uniqueAgainstTypedReady
  refine hreject.bind fun _ _ => ?_
  rw [subtractAll_eq]
  simp only [bind_assoc]
  refine hwalk.bind fun state hstate => ?_
  have hb := foldlM_subtract_bounds hle hstate
  have hlast := lastPiece_refines hcrops hb.1
  change Refines _ _ (lastPiece s.nextSequence _ state.1
    (state.2.map fun span => factsOf codec (s.crop span))) _
  rw [hlast]
  exact refines_ok (f := List.map (factsOf codec)) _

end PagedOverlap
