import OmiCollector.PagedSlices
import OmiCollector.RecordFraming

/-! Sources as a finished capture leaves them: a sealed row with consecutive records, and its
admission. The records are framed by the collector's own packet scanner. -/
namespace SealedSources

open ByteCodec CaptureModel CaptureRows KeyedTable TypedSlices PagedSlices

variable {D : Type}

/-- A codec whose framing is `inspect_20ms_record` and `inspect_mono_20ms_record`. -/
def scannerCodec (sha256 : Bytes → D) (hashV2Audio : List Bytes → Option D)
    (manifestSha256 : D → ℕ → D → List RecordProjection → D)
    (freeze : ClockModel.ClockState → ℕ → ℕ → Option (ℕ × PublicationLedger.FrozenPublicTime) →
      PublicationLedger.FrozenPublicTime) : Codec D where
  sha256 := sha256
  inspectRecord mono raw := (RecordFraming.inspectRecord raw mono).toOption
  hashV2Audio := hashV2Audio
  manifestSha256 := manifestSha256
  freeze := freeze

theorem scannerCodec_inspectRecord {sha256 : Bytes → D} {hashV2Audio : List Bytes → Option D}
    {manifestSha256 : D → ℕ → D → List RecordProjection → D}
    {freeze : ClockModel.ClockState → ℕ → ℕ → Option (ℕ × PublicationLedger.FrozenPublicTime) →
      PublicationLedger.FrozenPublicTime} {raw : Bytes} (hlen : raw.length = 444) {mono : Bool}
    {packets : List Bytes} {overflow : Option ℕ}
    (h : RecordFraming.Framed (RecordFraming.Accepted mono) 1 (raw.drop 4) packets overflow) :
    (scannerCodec sha256 hashV2Audio manifestSha256 freeze).inspectRecord mono raw =
      some (RecordFraming.layoutOf raw packets overflow) := by
  have hok : RecordFraming.inspectRecord raw mono = .ok (RecordFraming.layoutOf raw packets overflow) :=
    ((RecordFraming.inspectRecord_spec hlen mono).2 _).mpr ⟨packets, overflow, h, rfl⟩
  simp only [scannerCodec, hok]
  rfl

/-- The source of a finished capture of these records. -/
def sealedSource (sha256 : Bytes → D) (start : ℕ) (raw : List Bytes) : CaptureSource D where
  sourceType := .attempt
  lifecycle := .sealedWaiting
  sequenceStart := start
  sequenceLimit := start + raw.length
  preparedStart := none
  preparedCount := none
  readBeginStart := none
  readBeginCount := none
  currentLegGeneration := 1
  currentLegStart := 0
  currentLegCount := raw.length
  committedCount := raw.length
  committedSha256 := sha256 raw.flatten
  closureFrontier := none
  blockReason := none
  quarantineDisposition := none
  quarantineOpaque := none
  terminalReason := none
  terminalTime := none
  retentionDeadline := none
  certifiedPrefixCount := none
  coverageDigest := none
  retirementCursor := none

def sealedRow (sha256 : Bytes → D) (start : ℕ) (raw : List Bytes) : SourceRow D :=
  ⟨sealedSource sha256 start raw, CaptureStore.parseRecords 0 raw, false⟩

/-- The admission of a whole sealed source. -/
def sealedAdmission (sha256 : Bytes → D) (id start : ℕ) (raw : List Bytes) (cursor : ℕ) :
    Admission D where
  sourceId := id
  snapshot := sealedSource sha256 start raw
  admittedLifecycle := .sealedWaiting
  admittedCount := raw.length
  admittedSha256 := sha256 raw.flatten
  cursor := cursor

variable [DecidableEq D] {sources : Table ℕ (SourceRow D)} {sha256 : Bytes → D} {id start : ℕ}
  {raw : List Bytes}

omit [DecidableEq D] in
theorem held_sealed (h : sources.get id = some (sealedRow sha256 start raw)) (cursor : ℕ) :
    Held sources (sealedAdmission sha256 id start raw cursor) := by
  have hlen : (CaptureStore.parseRecords 0 raw).length = raw.length := length_parseRecords 0 raw
  have hcurrent : snapshotCurrent (sealedSource sha256 start raw)
      (sealedAdmission sha256 id start raw cursor) := ⟨rfl, rfl, rfl, rfl, rfl, .inl rfl⟩
  exact ⟨sealedRow sha256 start raw, h, hcurrent, parseRecords_contiguous 0 raw, hlen.ge⟩

omit [DecidableEq D] in
theorem admittedRows_sealed (h : sources.get id = some (sealedRow sha256 start raw)) (cursor : ℕ) :
    admittedRows sources (sealedAdmission sha256 id start raw cursor) =
      CaptureStore.parseRecords 0 raw := by
  have hget : sources.get (sealedAdmission sha256 id start raw cursor).sourceId =
      some (sealedRow sha256 start raw) := h
  simp only [admittedRows, hget, Option.map_some, Option.getD_some]
  exact List.take_of_length_le (length_parseRecords 0 raw).le

omit [DecidableEq D] in
/-- The range of a sealed source holds its records. -/
theorem records_heldSlice (h : sources.get id = some (sealedRow sha256 start raw))
    (hsize : ∀ b ∈ raw, b.length = audioRecordSize) (cursor first count : ℕ) :
    (heldSlice sources (sealedAdmission sha256 id start raw cursor) first count).records =
      (raw.drop first).take count := by
  rw [heldSlice, admittedRows_sealed h, List.map_take, List.map_drop, parseRecords_rawBytes 0 hsize]

omit [DecidableEq D] in
/-- A range of a sealed source with framed records is a held slice. -/
theorem isHeld_sealed {codec : Codec D} (h : sources.get id = some (sealedRow sha256 start raw))
    (hsize : ∀ b ∈ raw, b.length = audioRecordSize)
    (hframed : ∀ b ∈ raw, (codec.inspectRecord false b).isSome) {first count : ℕ}
    (hcount : first + count ≤ raw.length) (cursor : ℕ) :
    IsHeld codec sources
      (heldSlice sources (sealedAdmission sha256 id start raw cursor) first count) := by
  have hrecords := records_heldSlice h hsize cursor first count
  refine isHeld_heldSlice (held_sealed h cursor) hcount fun b hb => hframed b ?_
  rw [hrecords] at hb
  exact List.mem_of_mem_drop (List.mem_of_mem_take hb)

/-- The record at an ordinal of parsed records. -/
theorem find_parseRecords (first i : ℕ) {raw : List Bytes}
    (hsize : ∀ b ∈ raw, b.length = audioRecordSize) :
    ((CaptureStore.parseRecords first raw).find? fun r => r.ordinal = first + i).map
      CaptureRecord.rawBytes = raw[i]? := by
  induction raw generalizing first i with
  | nil => rfl
  | cons b raw ih =>
    rw [parseRecords_cons]
    cases i with
    | zero =>
      have hbytes := parseRecord_rawBytes first (hsize b (by simp))
      simpa [parseRecord] using hbytes
    | succ i =>
      have hrest := ih (first + 1) i fun b hb => hsize b (List.mem_cons_of_mem _ hb)
      have hnext : first + 1 + i = first + (i + 1) := by omega
      rw [hnext] at hrest
      rw [List.find?_cons_of_neg (by simp [parseRecord]), hrest]
      rfl

omit [DecidableEq D] in
theorem sourceRaw_sealed (h : sources.get id = some (sealedRow sha256 start raw))
    (hsize : ∀ b ∈ raw, b.length = audioRecordSize) (i : ℕ) :
    SlicePartition.sourceRaw sources id i = raw[i]? := by
  have hfind := find_parseRecords 0 i hsize
  rw [Nat.zero_add] at hfind
  rw [SlicePartition.sourceRaw, h, Option.bind_some]
  exact hfind

/-- A record with one mono packet at its end. -/
def packetRecord : Bytes := RecordFraming.zeroRecord 436 [2, 8, 0x55, 0xA5]

theorem packetRecord_length : packetRecord.length = 444 := RecordFraming.zeroRecord_length _ _

theorem packetRecord_framed (mono : Bool) :
    RecordFraming.Framed (RecordFraming.Accepted mono) 1 (packetRecord.drop 4) [[8, 0x55]] none := by
  have hholds : OpusPacket.Holds20ms [8, 0x55] :=
    RecordFraming.holds20ms_one rfl (by simp) (by simp) rfl
  have hlast : RecordFraming.Framed (RecordFraming.Accepted mono) 1 (2 :: ([8, 0x55] ++ [0xA5]))
      [[8, 0x55]] none :=
    .packet (by simp) rfl (by simp) (by simp) ⟨hholds, fun _ => rfl⟩ (by simp) (.stop le_rfl)
  exact (RecordFraming.framed_zeros (by simp) 436).mpr hlast

/-- A record without packets. -/
def emptyRecord : Bytes := RecordFraming.zeroRecord 439 [0]

theorem emptyRecord_length : emptyRecord.length = 444 := RecordFraming.zeroRecord_length _ _

theorem emptyRecord_framed (mono : Bool) :
    RecordFraming.Framed (RecordFraming.Accepted mono) 1 (emptyRecord.drop 4) [] none :=
  (RecordFraming.framed_zeros (by simp) 439).mpr (.stop le_rfl)

end SealedSources
