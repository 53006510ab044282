import OmiCollector.ByteCodec
import OmiCollector.AudioMachine

/-! The typed audio rows of one capture source: `capture_source`, `capture_record`,
`capture_tail` and `capture_conflict`. Digests are values of an arbitrary type `D`;
a hash function is supplied by the store configuration. -/
namespace CaptureModel

open ByteCodec AudioMachine

def audioRecordSize : ℕ := 444
def audioPayloadSize : ℕ := 440
def tailMaxBytes : ℕ := 443
def maxChunkLimit : ℕ := 128
def maxProtocolUint32 : ℕ := 2 ^ 32 - 1
def uint64Max : ℕ := 2 ^ 64 - 1

inductive SourceType where
  | attempt
  | draft
  | quarantine
  deriving DecidableEq, Repr

/-- One `capture_source` row. The first block is the Python `CaptureSource` snapshot;
the second holds the quarantine and coverage columns that the snapshot leaves out. -/
structure CaptureSource (D : Type) where
  sourceType : SourceType
  lifecycle : AudioPhase
  sequenceStart : ℕ
  sequenceLimit : ℕ
  preparedStart : Option ℕ
  preparedCount : Option ℕ
  readBeginStart : Option ℕ
  readBeginCount : Option ℕ
  currentLegGeneration : ℕ
  currentLegStart : ℕ
  currentLegCount : ℕ
  committedCount : ℕ
  committedSha256 : D
  closureFrontier : Option ℕ
  blockReason : Option String
  quarantineDisposition : Option QuarantineDisposition
  quarantineOpaque : Option Bool
  terminalReason : Option String
  terminalTime : Option ℕ
  retentionDeadline : Option ℕ
  certifiedPrefixCount : Option ℕ
  coverageDigest : Option D
  retirementCursor : Option ℕ
  deriving DecidableEq, Repr

/-- One accepted 444-byte device record: a big-endian timestamp and an audio payload. -/
structure CaptureRecord where
  ordinal : ℕ
  deviceTimestamp : ℕ
  payload : Bytes
  deriving DecidableEq, Repr

def CaptureRecord.rawBytes (r : CaptureRecord) : Bytes :=
  toBytesBig 4 r.deviceTimestamp ++ r.payload

def parseRecord (ordinal : ℕ) (raw : Bytes) : CaptureRecord :=
  ⟨ordinal, fromBytesBig (raw.take 4), raw.drop 4⟩

/-- The column checks of `capture_record`. -/
def CaptureRecord.Valid (r : CaptureRecord) : Prop :=
  r.ordinal ≤ maxProtocolUint32 ∧ r.deviceTimestamp ≤ maxProtocolUint32 ∧
    r.payload.length = audioPayloadSize

instance (r : CaptureRecord) : Decidable r.Valid :=
  inferInstanceAs (Decidable (_ ∧ _ ∧ _))

/-- A bounded partial record after the last complete one; positions are Python integers. -/
structure CaptureTail where
  legGeneration : ℤ
  completeHighWater : ℤ
  receivedHighWater : ℤ
  byteOffset : ℤ
  data : Bytes
  deriving DecidableEq, Repr

/-- Rejected bytes retained beside the accepted prefix they contradict. -/
structure CaptureConflict where
  chunkOrdinal : ℕ
  legGeneration : ℕ
  absoluteByteOffset : ℤ
  reason : String
  bytes : Bytes
  deriving DecidableEq, Repr

/-- The accepted byte log of a list of record rows. -/
def rawLog (rows : List CaptureRecord) : Bytes := rows.flatMap CaptureRecord.rawBytes

@[simp] theorem rawLog_nil : rawLog [] = [] := rfl

@[simp] theorem rawLog_cons (r : CaptureRecord) (rows : List CaptureRecord) :
    rawLog (r :: rows) = r.rawBytes ++ rawLog rows := rfl

@[simp] theorem rawLog_append (xs ys : List CaptureRecord) :
    rawLog (xs ++ ys) = rawLog xs ++ rawLog ys := by simp [rawLog]

@[simp] theorem parseRecord_ordinal (n : ℕ) (raw : Bytes) : (parseRecord n raw).ordinal = n := rfl

/-- Splitting and rejoining a wire record loses nothing. -/
theorem parseRecord_rawBytes (n : ℕ) {raw : Bytes} (h : raw.length = audioRecordSize) :
    (parseRecord n raw).rawBytes = raw := by
  have hlen : (raw.take 4).length = 4 := by simp [h, audioRecordSize]
  have hts := toBytesBig_fromBytesBig (raw.take 4)
  rw [hlen] at hts
  simp only [parseRecord, CaptureRecord.rawBytes, hts, List.take_append_drop]

theorem parseRecord_valid {n : ℕ} {raw : Bytes} (hn : n ≤ maxProtocolUint32)
    (h : raw.length = audioRecordSize) : (parseRecord n raw).Valid := by
  have hts := fromBytesBig_lt (raw.take 4)
  have hlen : (raw.take 4).length = 4 := by simp [h, audioRecordSize]
  rw [hlen] at hts
  refine ⟨hn, ?_, ?_⟩
  · simp only [parseRecord, maxProtocolUint32]
    omega
  · simp [parseRecord, h, audioRecordSize, audioPayloadSize]

theorem CaptureRecord.Valid.length_rawBytes {r : CaptureRecord} (h : r.Valid) :
    r.rawBytes.length = audioRecordSize := by
  simp [CaptureRecord.rawBytes, h.2.2, audioPayloadSize, audioRecordSize]

end CaptureModel
