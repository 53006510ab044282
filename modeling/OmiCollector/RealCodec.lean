import OmiCollector.PublicationStage
import OmiCollector.ReadableRecords
import OmiCollector.SealedSources

/-! The packet scanner and the public time of the collector in the place of the publication's
parameters. Hashing and the audio writer stay as they are. -/
namespace RealCodec

open Checks ClockModel ReadableRecords StoredFrontier ProjectedStream TimelineProjection
open ByteCodec (Bytes)
open PublicTime (FrozenTimePredecessor)
open TypedSlices (Codec RecordAudioLayout RecordProjection)

variable {D : Type}

def ledgerQuality : PublicTime.Quality → PublicationLedger.Quality
  | .known => .known
  | .approximate => .approximate
  | .unknown => .unknown

def publicQuality : PublicationLedger.Quality → PublicTime.Quality
  | .known => .known
  | .approximate => .approximate
  | .unknown => .unknown

def ledgerTime (t : PublicTime.FrozenPublicTime) : PublicationLedger.FrozenPublicTime :=
  ⟨ledgerQuality t.quality, t.seconds.toNat, t.utcUncertaintySeconds, t.causalMembership,
    t.comparableToPrevious⟩

def publicTime (t : PublicationLedger.FrozenPublicTime) : PublicTime.FrozenPublicTime :=
  ⟨publicQuality t.quality, t.seconds, t.utcUncertaintySeconds, t.causalMembership,
    t.comparableToPrevious⟩

def ledgerFrontier (f : V2Frontier) : PublicationLedger.V2Frontier :=
  ⟨f.sequence, ledgerTime f.time, f.pendingOverflowSize⟩

/-- The time of a record that no check refuses; a refused one keeps its device time. -/
def frozenTime (hex : ℚ → String) (clock : ClockState) (sequence rawTimestamp : ℕ)
    (previous : Option (ℕ × PublicationLedger.FrozenPublicTime)) :
    PublicationLedger.FrozenPublicTime :=
  let predecessor := previous.bind fun p =>
    if h : p.1 ≤ PublicTime.uint64Max then
      some (⟨p.1, publicTime p.2, h⟩ : FrozenTimePredecessor)
    else none
  match PublicTime.freeze hex (PublicTime.fromState clock) sequence rawTimestamp predecessor with
  | .ok time => ledgerTime time
  | .error _ => ⟨.unknown, rawTimestamp, none, "", false⟩

def collectorCodec (hex : ℚ → String) (codec : Codec D) : Codec D :=
  SealedSources.scannerCodec codec.sha256 codec.hashV2Audio codec.manifestSha256 (frozenTime hex)

/-- A projected record as the publication keeps it. -/
def ledgerRecord (r : ProjectedStream.ProjectedRecord) : PublicationStage.ProjectedRecord where
  projection :=
    { packetCount := r.projected.packetCount.toNat
      time := ledgerTime r.projected.time
      sourceLoss := decide (.sourceLoss ∈ r.projected.boundaryBefore)
      timeIncomparable := decide (.timeIncomparable ∈ r.projected.boundaryBefore) }
  frontier := ledgerFrontier r.frontier
  packets := r.layout.packets

variable {hex : ℚ → String} {codec : Codec D} {clock : ClockState} {previous : Option V2Frontier}

theorem publicTime_ledgerTime {t : PublicTime.FrozenPublicTime} (h : 0 ≤ t.seconds) :
    publicTime (ledgerTime t) = t := by
  cases t with
  | mk quality seconds uncertainty membership comparable =>
    cases quality <;> simpa [publicTime, ledgerTime, ledgerQuality, publicQuality] using h

variable (previous) in
theorem mem_boundaryFacts (x : ℕ) (layout : RecordAudioLayout) (t : PublicTime.FrozenPublicTime) :
    (PublicTimeline.BoundaryFact.sourceLoss ∈ boundaryFacts previous x layout t ↔
      previous.isSome ∧ (adjacentTo previous x).isNone) ∧
    (PublicTimeline.BoundaryFact.timeIncomparable ∈ boundaryFacts previous x layout t ↔
      ((adjacentTo previous x).bind (·.pendingOverflowSize)).any
        (fun size => decide (size ≠ layout.firstSize)) = true ∨ t.comparableToPrevious = false) := by
  have hopen : previous.isSome ∧ (adjacentTo previous x).isNone →
      ((adjacentTo previous x).bind (·.pendingOverflowSize)).any
        (fun size => decide (size ≠ layout.firstSize)) = false := by
    intro h
    rw [Option.isNone_iff_eq_none.mp h.2]
    rfl
  unfold boundaryFacts gapFacts
  generalize ((adjacentTo previous x).bind (·.pendingOverflowSize)).any
    (fun size => decide (size ≠ layout.firstSize)) = broken at *
  by_cases hgap : previous.isSome ∧ (adjacentTo previous x).isNone
  · rw [if_pos hgap, hopen hgap]
    cases t.comparableToPrevious <;> simp [hgap]
  · rw [if_neg hgap]
    cases broken <;> cases t.comparableToPrevious <;> simpa using hgap

theorem adjacent_ledger (x : ℕ) : (previous.map ledgerFrontier).filter
      (fun p => decide (p.sequence + 1 = x)) = (adjacentTo previous x).map ledgerFrontier := by
  unfold adjacentTo
  cases previous with
  | none => rfl
  | some f =>
    by_cases h : f.sequence + 1 = x <;> simp [Option.filter_some, ledgerFrontier, h]

/-- The clock of the publication sees the predecessor that the projection makes. -/
theorem frozenTime_eq (hprevious : ∀ f ∈ previous, f.Storable) {x raw : ℕ}
    {predecessor : Option FrozenTimePredecessor} {time : PublicTime.FrozenPublicTime}
    (hpredecessor : (adjacentTo previous x).mapM FrozenTimePredecessor.make = .ok predecessor)
    (htime : PublicTime.freeze hex (PublicTime.fromState clock) x raw predecessor = .ok time) :
    frozenTime hex clock x raw (((adjacentTo previous x).map ledgerFrontier).map
      fun p => (p.sequence, p.time)) = ledgerTime time := by
  have hmade : ((((adjacentTo previous x).map ledgerFrontier).map
      fun p => (p.sequence, p.time)).bind fun p =>
        if h : p.1 ≤ PublicTime.uint64Max then
          some (⟨p.1, publicTime p.2, h⟩ : FrozenTimePredecessor)
        else none) = predecessor := by
    cases hadjacent : adjacentTo previous x with
    | none =>
      rw [hadjacent] at hpredecessor
      exact Except.ok.inj hpredecessor
    | some f =>
      have hf := hprevious f (Option.filter_eq_some_iff.mp hadjacent).1
      have hbound : f.sequence ≤ PublicTime.uint64Max := Int.ofNat_le.mp hf.sequence
      have hback := publicTime_ledgerTime hf.time.seconds_nonneg
      rw [hadjacent] at hpredecessor
      simp only [Option.mapM_some, FrozenTimePredecessor.make, dif_pos hbound] at hpredecessor
      rw [← Except.ok.inj hpredecessor]
      simp [ledgerFrontier, hbound, hback]
  rw [frozenTime, hmade, htime]

variable (codec) in
/-- With its own scanner and clock the publication projects a record as `_v2_projected_records`. -/
theorem projectRecord_real (hprevious : ∀ f ∈ previous, f.Storable) {entry : Entry}
    (hentry : Readable entry) {r : ProjectedStream.ProjectedRecord}
    (h : projectedRecord hex (PublicTime.fromState clock) previous entry = .ok r) :
    PublicationStage.projectRecord (collectorCodec hex codec) clock (previous.map ledgerFrontier)
      (entry.1, entry.2.rawBytes) = .ok (ledgerRecord r) := by
  simp only [projectedRecord, bind_ok, frozen_ok, inspected_ok, pure_ok] at h
  obtain ⟨layout, hlayout, predecessor, hpredecessor, time, htime, rfl⟩ := h
  have hscan : (collectorCodec hex codec).inspectRecord true entry.2.rawBytes = some layout := by
    change (RecordFraming.inspectMono20msRecord entry.2.rawBytes).toOption = some layout
    rw [hlayout]
    rfl
  have hstamp : PublicationStage.deviceTimestamp entry.2.rawBytes = entry.2.deviceTimestamp := by
    have hsmall := hentry.row.2.1
    have hpow : CaptureModel.maxProtocolUint32 < 256 ^ 4 := by decide
    have hfront : entry.2.rawBytes.take 4 = ByteCodec.toBytesBig 4 entry.2.deviceTimestamp := by
      simp [CaptureModel.CaptureRecord.rawBytes]
    rw [PublicationStage.deviceTimestamp, hfront, ByteCodec.fromBytesBig_toBytesBig (by omega)]
  have hfrozen := frozenTime_eq hprevious hpredecessor htime
  obtain ⟨hloss, hincomparable⟩ :=
    mem_boundaryFacts previous entry.1 layout time
  have hsome : (previous.map ledgerFrontier).isSome = previous.isSome := by cases previous <;> rfl
  have hnone : ((adjacentTo previous entry.1).map ledgerFrontier).isNone =
      (adjacentTo previous entry.1).isNone := by cases adjacentTo previous entry.1 <;> rfl
  have hpending : ((adjacentTo previous entry.1).map ledgerFrontier).bind
      (·.pendingOverflowSize) = (adjacentTo previous entry.1).bind (·.pendingOverflowSize) := by
    cases adjacentTo previous entry.1 <;> rfl
  have hfreeze : (collectorCodec hex codec).freeze = frozenTime hex := rfl
  have hcomparable : (ledgerTime time).comparableToPrevious = time.comparableToPrevious := rfl
  simp only [PublicationStage.projectRecord, hscan, adjacent_ledger, hstamp, hfreeze, hfrozen, hsome,
    hnone, hpending, hcomparable]
  simp only [ledgerRecord, ledgerFrontier, Except.ok.injEq]
  congr 1
  congr 1
  · exact Bool.eq_iff_iff.mpr (by rw [decide_eq_true_eq, hloss]; simp)
  · exact Bool.eq_iff_iff.mpr (by rw [decide_eq_true_eq, hincomparable]; simp)

/-- A stream is projected alike by the publication and by the projection of the collector. -/
theorem projectRecords_real (hvalid : ClockHistory.Valid clock)
    (hprevious : ∀ f ∈ previous, f.Storable) {entries : List Entry}
    (hentries : ∀ e ∈ entries, Readable e) :
    ∃ rs, v2ProjectedRecords hex (PublicTime.fromState clock) previous entries = .ok rs ∧
      PublicationStage.projectRecords (collectorCodec hex codec) clock
        (previous.map ledgerFrontier) (entries.map fun e => (e.1, e.2.rawBytes)) =
          .ok (rs.map ledgerRecord) := by
  induction entries generalizing previous with
  | nil => exact ⟨[], rfl, rfl⟩
  | cons entry entries ih =>
    have hentry := hentries entry (List.mem_cons_self ..)
    obtain ⟨r, hr, hstorable, -⟩ := projectedRecord_ok hex hvalid hprevious hentry
    have hreal := projectRecord_real codec hprevious hentry hr
    obtain ⟨rs, hrs, hledger⟩ := ih (storable_some hstorable)
      (fun e he => hentries e (List.mem_cons_of_mem _ he))
    refine ⟨r :: rs, ?_, ?_⟩
    · simp only [v2ProjectedRecords, bind_ok, pure_ok]
      exact ⟨r, hr, rs, hrs, rfl⟩
    · rw [List.map_cons, PublicationStage.projectRecords, hreal]
      simp only [bind_ok, pure_ok]
      exact ⟨_, rfl, rs.map ledgerRecord, hledger, rfl⟩

/-- Every time of valid evidence fits the timestamp of a record. -/
theorem frozenTime_bounded (hvalid : ClockHistory.Valid clock) {x raw : ℕ}
    (hraw : raw ≤ CaptureModel.maxProtocolUint32)
    (earlier : Option (ℕ × PublicationLedger.FrozenPublicTime)) :
    (frozenTime hex clock x raw earlier).seconds ≤ CaptureModel.maxProtocolUint32 := by
  simp only [frozenTime]
  generalize hfreeze : PublicTime.freeze hex (PublicTime.fromState clock) x raw _ = result
  cases result with
  | error message => exact hraw
  | ok time =>
    have hrecord := @freeze_valid hex clock hvalid x raw _ time hfreeze 1 (by decide) ∅
    have hle : time.seconds ≤ PublicTimeline.uint32Max := hrecord.seconds_le
    have hmax : PublicTimeline.uint32Max = (CaptureModel.maxProtocolUint32 : ℤ) := by decide
    rw [hmax] at hle
    exact Int.toNat_le.mpr hle

end RealCodec
