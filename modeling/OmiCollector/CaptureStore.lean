import Mathlib.Data.List.Sort
import OmiCollector.CaptureModel
import OmiCollector.RefusalLogic

/-! The single-source writer of `InternalAudioStore`: source creation, leg binding, drains,
partial tails, interruption and sealing, with the refusal text of every check.

One value of `Store` is the durable row set of one source identity plus the in-memory digest
cache. Each SQLite transaction is one state update after its checks, so a refusal leaves the
rows as they were, except where the source commits conflict evidence and then refuses. -/
namespace CaptureStore

open ByteCodec AudioMachine CaptureModel RefusalLogic

variable {D : Type} [DecidableEq D]

/-- The hash is arbitrary; the bounds are those checked by `_chunk_limit`. -/
structure StoreConfig (D : Type) where
  sha256 : Bytes → D
  chunkLimit : ℕ
  chunkLimit_pos : 1 ≤ chunkLimit
  chunkLimit_le : chunkLimit ≤ maxChunkLimit
  terminalRetentionNs : ℕ

/-- Rows are kept in primary-key order. A cached hash state is the byte string it consumed. -/
structure Store (D : Type) where
  source : Option (CaptureSource D)
  records : List CaptureRecord
  tail : Option CaptureTail
  conflicts : List CaptureConflict
  digestCache : Option (ℕ × D × Bytes)
  deriving DecidableEq

def initial : Store D := ⟨none, [], none, [], none⟩

abbrev StoreM (D : Type) (α : Type) := Refusable (Store D) String α

/-- A digest argument: 64 lowercase hexadecimal characters, or any other text. -/
inductive DigestText (D : Type) where
  | text (digest : D)
  | malformed
  deriving DecidableEq

structure DrainCheckpoint (D : Type) where
  legGeneration : ℤ
  tail : Option CaptureTail
  expectedSha256 : Option (DigestText D)

def uint32 (value : ℤ) (label : String) : StoreM D ℕ :=
  requireSome (if 0 ≤ value ∧ value ≤ maxProtocolUint32 then some value.toNat else none)
    (label ++ " is invalid")

def uint64 (value : ℤ) (label : String) : StoreM D ℕ :=
  requireSome (if 0 ≤ value ∧ value ≤ uint64Max then some value.toNat else none)
    (label ++ " is invalid")

def sha256Text : DigestText D → StoreM D D
  | .text digest => pure digest
  | .malformed => throw "SHA-256 digest is invalid"

def optionalSha256 : Option (DigestText D) → StoreM D (Option D)
  | none => pure none
  | some text => do return some (← sha256Text text)

def phaseAfter (phase : Option AudioPhase) (event : AudioEvent) (required : Option AudioAction) :
    StoreM D AudioPhase := do
  let decision := transition phase event
  refuseIf (required.isSome ∧ required ≠ some decision.action) decision.reason
  refuseIf (decision.action ∉ [.persist, .commitBarrier, .idempotent]) decision.reason
  requireSome decision.nextPhase "source lifecycle transition has no next phase"

def requireSource : StoreM D (CaptureSource D) := do
  requireSome (← get).source "source does not exist"

/-- The columns that the Python snapshot compares; the quarantine columns are outside it. -/
def snapshot (s : CaptureSource D) : CaptureSource D :=
  { s with
    blockReason := none, quarantineDisposition := none, quarantineOpaque := none
    terminalReason := none, terminalTime := none, retentionDeadline := none
    certifiedPrefixCount := none, coverageDigest := none, retirementCursor := none }

def checkSourceSnapshot (expected : CaptureSource D) (text : String) : StoreM D Unit := do
  let st ← get
  refuseIf (st.source.map snapshot ≠ some (snapshot expected)) text

def createSource (cfg : StoreConfig D) (sourceType : Option SourceType)
    (sequenceStart sequenceLimit : ℤ) : StoreM D (CaptureSource D) := do
  let kind ← requireSome sourceType "source type is invalid"
  let lifecycle ← phaseAfter none .create (some .persist)
  let start ← uint64 sequenceStart "sequence start"
  let limit ← uint64 sequenceLimit "sequence limit"
  refuseIf (start > limit ∨ limit - start > maxProtocolUint32) "source sequence range is invalid"
  let st ← get
  refuseIf st.source.isSome "source already exists or is invalid"
  let source : CaptureSource D :=
    { sourceType := kind, lifecycle := lifecycle, sequenceStart := start, sequenceLimit := limit
      preparedStart := none, preparedCount := none, readBeginStart := none, readBeginCount := none
      currentLegGeneration := 0, currentLegStart := start, currentLegCount := 0
      committedCount := 0, committedSha256 := cfg.sha256 [], closureFrontier := none
      blockReason := none, quarantineDisposition := none, quarantineOpaque := none
      terminalReason := none, terminalTime := none, retentionDeadline := none
      certifiedPrefixCount := none, coverageDigest := none, retirementCursor := none }
  set { st with source := some source }
  return source

def prepareLeg (legStart legCount : ℤ) : StoreM D (CaptureSource D) := do
  let source ← requireSource
  let start ← uint64 legStart "leg start"
  let count ← uint32 legCount "leg count"
  refuseIf (count = 0 ∨ start < source.sequenceStart ∨ start + count > source.sequenceLimit)
    "leg is outside the immutable source range"
  refuseIf (start > source.sequenceStart + source.committedCount)
    "leg starts after the durable frontier"
  refuseIf (source.lifecycle = .prepared ∧
      (start ≠ source.sequenceStart ∨ start + count ≠ source.sequenceLimit))
    "initial leg must cover the prepared source range"
  let exact := decide ((some start, some count) = (source.preparedStart, source.preparedCount))
  let replay := decide (source.lifecycle = .legPrepared) && exact
  let nextPhase ← phaseAfter (some source.lifecycle) (.prepareLeg true exact false)
    (if replay then some .idempotent else none)
  if replay then
    return source
  else
    let generation := source.currentLegGeneration + 1
    refuseIf (generation > maxProtocolUint32) "leg generation is exhausted"
    checkSourceSnapshot source "leg preparation was not confirmed durable"
    let prepared : CaptureSource D :=
      { source with
        lifecycle := nextPhase, preparedStart := some start, preparedCount := some count
        readBeginStart := none, readBeginCount := none, currentLegGeneration := generation
        currentLegStart := start, currentLegCount := count }
    modify ({ · with source := some prepared })
    return prepared

def recordReadBegin (beginStart beginCount : ℤ) : StoreM D (CaptureSource D) := do
  let source ← requireSource
  let start ← uint64 beginStart "READ_BEGIN start"
  let count ← uint32 beginCount "READ_BEGIN count"
  let exact := decide ((some start, some count) = (source.preparedStart, source.preparedCount))
  refuseIf (exact = false ∨ (start, count) ≠ (source.currentLegStart, source.currentLegCount))
    "READ_BEGIN does not match the durable prepared leg"
  let duplicate := decide (source.lifecycle = .receiving ∧
    (some start, some count) = (source.readBeginStart, source.readBeginCount))
  let nextPhase ← phaseAfter (some source.lifecycle) (.readBegin exact duplicate)
    (some (if duplicate then .idempotent else .persist))
  if duplicate then
    return source
  else
    checkSourceSnapshot source "READ_BEGIN was not confirmed durable"
    let bound : CaptureSource D :=
      { source with
        lifecycle := nextPhase, readBeginStart := some start, readBeginCount := some count }
    modify ({ · with source := some bound })
    return bound

def interrupt : StoreM D (CaptureSource D) := do
  let source ← requireSource
  let decision := transition (some source.lifecycle) .interruption
  if decision.action ∈ [.idempotent, .inspectOnly] then
    return source
  else
    refuseIf (decision.action ≠ .persist) "interruption is invalid for this source"
    let next ← requireSome decision.nextPhase "interruption is invalid for this source"
    checkSourceSnapshot source "interruption was not confirmed durable"
    let interrupted : CaptureSource D := { source with lifecycle := next }
    modify ({ · with source := some interrupted })
    return interrupted

/-- One indexed page: rows after the cursor, in ordinal order. -/
def recordPage (rows : List CaptureRecord) (afterOrdinal : ℤ) (limit : ℕ) : List CaptureRecord :=
  (rows.filter (fun r => afterOrdinal < r.ordinal)).take limit

def readRecordPage (cfg : StoreConfig D) (afterOrdinal : ℤ) (limit : ℕ) :
    StoreM D (List CaptureRecord) := do
  refuseIf (afterOrdinal < -1 ∨ maxProtocolUint32 < afterOrdinal) "record page cursor is invalid"
  refuseIf (limit < 1 ∨ cfg.chunkLimit < limit) "record page limit is invalid"
  return recordPage (← get).records afterOrdinal limit

/-- The row loop of one page: rows are checked and hashed in order. -/
def hashRows (check : ℕ → CaptureRecord → Option String) :
    List CaptureRecord → ℕ → Bytes → Except String (ℕ × Bytes)
  | [], count, state => .ok (count, state)
  | r :: rest, count, state =>
    match check count r with
    | some text => .error text
    | none => hashRows check rest (count + 1) (state ++ r.rawBytes)

/-- The page loop over all stored rows. Every nonempty page advances the cursor, so the
number of rows bounds the number of iterations before the empty page. -/
def hashPages (check : ℕ → CaptureRecord → Option String) (rows : List CaptureRecord)
    (limit : ℕ) : ℕ → ℕ → Bytes → Except String (ℕ × Bytes)
  | 0, count, state => .ok (count, state)
  | fuel + 1, count, state =>
    match recordPage rows (count - 1) limit with
    | [] => .ok (count, state)
    | page => do
      let (count, state) ← hashRows check page count state
      hashPages check rows limit fuel count state

/-- Row check of `_digest_state`. -/
def frontierCheck (committedCount count : ℕ) (r : CaptureRecord) : Option String :=
  if r.deviceTimestamp > maxProtocolUint32 then some "stored device timestamp is invalid"
  else if r.ordinal ≠ count ∨ r.payload.length ≠ audioPayloadSize ∨ count ≥ committedCount then
    some "source rows do not match committed frontier"
  else none

/-- Row check of `_authenticated_record_bytes`. -/
def authenticatedRecordCheck (expected : ℕ) (r : CaptureRecord) : Option String :=
  if r.ordinal > maxProtocolUint32 then some "source record ordinal is invalid"
  else if r.ordinal ≠ expected then some "source record ordinals are not contiguous"
  else if r.deviceTimestamp > maxProtocolUint32 then some "source record timestamp is invalid"
  else if r.payload.length ≠ audioPayloadSize then some "source record payload layout is invalid"
  else none

def fromExcept {α : Type} : Except String α → StoreM D α
  | .ok a => pure a
  | .error e => throw e

def authenticateCaptureSource (cfg : StoreConfig D) : StoreM D (CaptureSource D) := do
  let source ← requireSource
  let st ← get
  let (count, state) ← fromExcept (hashPages authenticatedRecordCheck st.records cfg.chunkLimit
    (st.records.length + 1) 0 [])
  refuseIf (count ≠ source.committedCount) "source record count does not match checkpoint"
  refuseIf (cfg.sha256 state ≠ source.committedSha256)
    "source record digest does not match checkpoint"
  return source

def sealSource (cfg : StoreConfig D) (legGeneration expectedCount : ℤ)
    (expectedSha256 : DigestText D) : StoreM D (CaptureSource D) := do
  let source ← requireSource
  let count ← uint32 expectedCount "seal count"
  let digest ← sha256Text expectedSha256
  refuseIf (legGeneration ≠ source.currentLegGeneration) "seal leg generation is stale"
  refuseIf (count ≠ source.committedCount ∨ digest ≠ source.committedSha256 ∨
      source.sequenceStart + count ≠ source.sequenceLimit)
    "seal does not match the complete durable source"
  let nextPhase ← phaseAfter (some source.lifecycle) (.done true true false) (some .persist)
  refuseIf (← get).tail.isSome "complete source still has a partial tail"
  let _ ← authenticateCaptureSource cfg
  let proposed : CaptureSource D := { source with lifecycle := nextPhase }
  checkSourceSnapshot source "source changed during drain"
  refuseIf (← get).tail.isSome "complete source still has a partial tail"
  modify ({ · with source := some proposed })
  return proposed

def validateReceivingLeg (source : CaptureSource D) (expected count : ℕ) (legGeneration : ℤ) :
    StoreM D Unit := do
  refuseIf (legGeneration ≠ source.currentLegGeneration) "drain leg generation is stale"
  refuseIf ((transition (some source.lifecycle) (.data true false true)).action ≠ .persist)
    "drain requires a receiving source"
  refuseIf (source.preparedStart ≠ some source.currentLegStart ∨
      source.preparedCount ≠ some source.currentLegCount ∨
      source.readBeginStart ≠ some source.currentLegStart ∨
      source.readBeginCount ≠ some source.currentLegCount ∨ source.currentLegCount = 0)
    "receiving source has no matching durable leg"
  let sequenceStart := source.sequenceStart + expected
  refuseIf (count = 0 ∨ sequenceStart < source.currentLegStart ∨
      sequenceStart + count > source.currentLegStart + source.currentLegCount)
    "drain is outside the bound READ leg"

def validateReceivingCheckpoint (source : CaptureSource D) (expected : ℕ) (legGeneration : ℤ) :
    StoreM D Unit := do
  refuseIf (legGeneration ≠ source.currentLegGeneration) "drain leg generation is stale"
  refuseIf ((transition (some source.lifecycle) (.data true false true)).action ≠ .persist)
    "tail requires a receiving source"
  let activeLeg := (some source.currentLegStart, some source.currentLegCount)
  refuseIf ((source.preparedStart, source.preparedCount) ≠ activeLeg ∨
      (source.readBeginStart, source.readBeginCount) ≠ activeLeg)
    "tail is outside the bound READ leg"
  let legFloor : ℤ := source.currentLegStart - source.sequenceStart
  let legCeiling : ℤ := min (source.committedCount : ℤ) (legFloor + source.currentLegCount - 1)
  refuseIf (¬ (legFloor ≤ expected ∧ expected ≤ legCeiling)) "tail is outside the bound READ leg"

def validateTail (incoming : Option CaptureTail) (source : CaptureSource D) (newCount : ℕ) :
    StoreM D Unit :=
  match incoming with
  | none => pure ()
  | some tail => do
    let legFloor : ℤ := source.currentLegStart - source.sequenceStart
    refuseIf (tail.legGeneration ≠ source.currentLegGeneration)
      "tail generation does not match source"
    refuseIf (tail.completeHighWater < legFloor ∨ tail.completeHighWater > newCount)
      "tail complete frontier does not match drain"
    let legByteLimit : ℤ := (legFloor + source.currentLegCount) * audioRecordSize
    refuseIf (tail.receivedHighWater < 0 ∨ tail.receivedHighWater > legByteLimit)
      "tail received frontier is invalid"
    refuseIf (tail.byteOffset ≠ tail.completeHighWater * audioRecordSize)
      "tail byte offset is invalid"
    refuseIf (¬ (1 ≤ tail.data.length ∧ tail.data.length ≤ tailMaxBytes)) "tail bytes are invalid"
    refuseIf (tail.receivedHighWater ≠ tail.byteOffset + tail.data.length)
      "tail received frontier does not match bytes"

/-- `_recheck_source`: the snapshot is still current and still bound to its leg. -/
def recheckSource (source : CaptureSource D) : StoreM D Unit := do
  checkSourceSnapshot source "source changed during drain"
  validateReceivingLeg source (source.currentLegStart - source.sequenceStart) 1
    source.currentLegGeneration

def nextReplayConflictOrdinal (conflicts : List CaptureConflict) : ℕ :=
  (conflicts.map (·.chunkOrdinal + 1)).foldl max 0

/-- The row written by a retained conflict, classified at the same barrier. -/
def blockedSource (cfg : StoreConfig D) (now : ℕ) (source : CaptureSource D)
    (conflict : ConflictDisposition) : CaptureSource D :=
  let disposition := conflict.classification.nextDisposition
  let unprocessable := decide (disposition = some .unprocessable)
  { source with
    sourceType := .quarantine, lifecycle := .blocked
    blockReason := some conflict.blockReason, quarantineDisposition := disposition
    quarantineOpaque := some false
    terminalReason :=
      if unprocessable then some "quarantine contains no committed records" else none
    terminalTime := if unprocessable then some now else none
    retentionDeadline := if unprocessable then some (now + cfg.terminalRetentionNs) else none
    certifiedPrefixCount := none, coverageDigest := none }

/-- Commit the rejected bytes beside the accepted prefix and block the source. -/
def blockReplayConflict (cfg : StoreConfig D) (now : ℕ) (source : CaptureSource D)
    (byteOffset : ℤ) (rejected : Bytes) (reason : String) : StoreM D Unit := do
  refuseIf (rejected = [] ∨ rejected.length > cfg.chunkLimit * audioRecordSize)
    "rejected evidence is outside the bounded chunk"
  recheckSource source
  let st ← get
  let ordinal := nextReplayConflictOrdinal st.conflicts
  refuseIf (ordinal > maxProtocolUint32) "conflict evidence ordinal is exhausted"
  let conflict := classifyConflict source.committedCount (!st.records.isEmpty) reason
  refuseIf (conflict.classification.action ∉ [.keep, .markUnprocessable])
    conflict.classification.reason
  let evidence : CaptureConflict :=
    ⟨ordinal, source.currentLegGeneration, byteOffset, reason, rejected⟩
  set { st with
    source := some (blockedSource cfg now source conflict)
    conflicts := st.conflicts ++ [evidence] }

def assertTailPrefix (cfg : StoreConfig D) (now : ℕ) (source : CaptureSource D)
    (tail : CaptureTail) (fullRecord : Bytes) : StoreM D Unit :=
  if tail.data.isPrefixOf fullRecord then
    pure ()
  else do
    blockReplayConflict cfg now source tail.byteOffset fullRecord "tail_mismatch"
    throw "completed record conflicts with accepted tail"

def checkPreviousTail (cfg : StoreConfig D) (now : ℕ) (source : CaptureSource D)
    (previous : Option CaptureTail) (newCount : ℕ) (appended : List CaptureRecord) :
    StoreM D Unit :=
  match previous with
  | none => pure ()
  | some stored => do
    refuseIf (stored.byteOffset ≠ source.committedCount * audioRecordSize)
      "stored tail is not at the committed frontier"
    if newCount > source.committedCount then
      let first ← requireSome appended.head? "tuple index out of range"
      assertTailPrefix cfg now source stored first.rawBytes
    else
      pure ()

/-- The complete record that an incoming tail already ends inside, stored or just appended. -/
def completedRecord (cfg : StoreConfig D) (source : CaptureSource D) (ordinal : ℤ)
    (appended : List CaptureRecord) : StoreM D Bytes :=
  if ordinal < source.committedCount then do
    let page ← readRecordPage cfg (ordinal - 1) 1
    let row ← requireSome page.head? "accepted row for replay tail is missing"
    refuseIf ((row.ordinal : ℤ) ≠ ordinal) "accepted row for replay tail is missing"
    return row.rawBytes
  else do
    let row ← requireSome (appended[(ordinal - source.committedCount).toNat]?)
      "tuple index out of range"
    return row.rawBytes

def resolveTail (cfg : StoreConfig D) (now : ℕ) (source : CaptureSource D)
    (previous incoming : Option CaptureTail) (newCount : ℕ) (appended : List CaptureRecord) :
    StoreM D (Option CaptureTail) := do
  validateTail incoming source newCount
  checkPreviousTail cfg now source previous newCount appended
  let kept := if newCount = source.committedCount then previous else none
  match incoming with
  | none => return kept
  | some tail =>
    if tail.completeHighWater < newCount then
      let fullRecord ← completedRecord cfg source tail.completeHighWater appended
      assertTailPrefix cfg now source tail fullRecord
      return kept
    else
      match previous with
      | none => return some tail
      | some stored =>
        if tail.byteOffset > stored.byteOffset then
          return some tail
        else if tail.byteOffset < stored.byteOffset then
          return some stored
        else if stored.data.take tail.data.length ≠ tail.data.take stored.data.length then
          blockReplayConflict cfg now source tail.byteOffset tail.data "tail_mismatch"
          throw "replayed tail conflicts with accepted bytes"
        else
          return some (if tail.data.length > stored.data.length then tail else stored)

def recheckTail (previous : Option CaptureTail) : StoreM D Unit := do
  refuseIf ((← get).tail ≠ previous) "tail changed during drain"

def boundedRecords (records : List Bytes) (limit : ℕ) : StoreM D (List Bytes) := do
  let materialized := records.take (limit + 1)
  refuseIf (∃ raw ∈ materialized, raw.length ≠ audioRecordSize)
    "audio record must be exactly 444 bytes"
  refuseIf (¬ (0 < materialized.length ∧ materialized.length ≤ limit))
    "drain size is outside the configured bound"
  return materialized

/-- The incremental hash of the accepted rows, from the cache when its key is current. -/
def cachedDigest (st : Store D) (source : CaptureSource D) : Option Bytes :=
  match st.digestCache with
  | some (count, digest, state) =>
    if (count, digest) = (source.committedCount, source.committedSha256) then some state else none
  | none => none

def scanDigest (cfg : StoreConfig D) (source : CaptureSource D) : StoreM D Bytes := do
  let st ← get
  let (count, state) ← fromExcept (hashPages (frontierCheck source.committedCount) st.records
    cfg.chunkLimit (st.records.length + 1) 0 [])
  refuseIf (count ≠ source.committedCount) "source rows do not match committed count"
  refuseIf (cfg.sha256 state ≠ source.committedSha256)
    "stored source digest does not match exact rows"
  set { st with digestCache := some (source.committedCount, source.committedSha256, state) }
  return state

def digestState (cfg : StoreConfig D) (source : CaptureSource D) : StoreM D Bytes := do
  match cachedDigest (← get) source with
  | some state => return state
  | none => scanDigest cfg source

/-- Insert one row at its key; a duplicate key or a failed column check is a constraint error. -/
def insertRecord (rows : List CaptureRecord) (r : CaptureRecord) : Option (List CaptureRecord) :=
  if r.Valid ∧ ∀ x ∈ rows, x.ordinal ≠ r.ordinal then
    some (rows.orderedInsert (fun a b => a.ordinal ≤ b.ordinal) r)
  else none

def parseRecords (first : ℕ) (raw : List Bytes) : List CaptureRecord :=
  raw.mapIdx (fun index bytes => parseRecord (first + index) bytes)

def appendDrain (cfg : StoreConfig D) (now : ℕ) (source : CaptureSource D) (expected : ℕ)
    (rawRecords : List Bytes) (expectedSha256 : Option D) (tail : Option CaptureTail) :
    StoreM D ℕ := do
  let newCount := expected + rawRecords.length
  refuseIf (newCount > maxProtocolUint32 ∨
      source.sequenceStart + newCount > source.sequenceLimit) "drain exceeds source range"
  let state ← digestState cfg source
  let parsed := parseRecords expected rawRecords
  let proposed := state ++ rawLog parsed
  let digest := cfg.sha256 proposed
  refuseIf (expectedSha256.isSome ∧ expectedSha256 ≠ some digest)
    "drain digest does not match exact source rows"
  let previous := (← get).tail
  let desired ← resolveTail cfg now source previous tail newCount parsed
  recheckSource source
  recheckTail previous
  let rows ← requireSome (parsed.foldlM insertRecord (← get).records)
    "drain violates source constraints"
  modify ({ · with
    records := rows
    source := some { source with committedCount := newCount, committedSha256 := digest }
    tail := desired
    digestCache := some (newCount, digest, proposed) })
  return newCount

/-- Hash the first `count` rows page by page. -/
def prefixPages (rows : List CaptureRecord) (chunkLimit count : ℕ) :
    ℕ → ℕ → ℤ → Bytes → Except String Bytes
  | 0, _, _, state => .ok state
  | fuel + 1, hashed, after, state =>
    if hashed < count then
      let page := recordPage rows after (min chunkLimit (count - hashed))
      match page.getLast? with
      | none => .error "replay prefix is not contiguous"
      | some last =>
        if page.map (·.ordinal) = (List.range' hashed page.length) then
          prefixPages rows chunkLimit count fuel (hashed + page.length) last.ordinal
            (state ++ rawLog page)
        else .error "replay prefix is not contiguous"
    else .ok state

def prefixDigest (cfg : StoreConfig D) (count : ℕ) : StoreM D D := do
  let st ← get
  let state ← fromExcept (prefixPages st.records cfg.chunkLimit count count 0 (-1) [])
  return cfg.sha256 state

def commitReplayTail (source : CaptureSource D) (previous desired : Option CaptureTail) :
    StoreM D Unit := do
  recheckSource source
  recheckTail previous
  modify ({ · with tail := desired })

/-- The replay checkpoint digest, when the caller states one. -/
def checkReplayDigest (cfg : StoreConfig D) (source : CaptureSource D) (checkpointCount : ℕ)
    (expectedSha256 : Option D) : StoreM D Unit :=
  match expectedSha256 with
  | none => pure ()
  | some stated => do
    let digest ← if checkpointCount = source.committedCount then pure source.committedSha256
      else prefixDigest cfg checkpointCount
    refuseIf (stated ≠ digest) "drain replay checkpoint conflicts with accepted source"

def settleTail (cfg : StoreConfig D) (now : ℕ) (source : CaptureSource D)
    (tail : Option CaptureTail) : StoreM D ℕ := do
  let previous := (← get).tail
  let desired ← resolveTail cfg now source previous tail source.committedCount []
  if desired ≠ previous then
    commitReplayTail source previous desired
    return source.committedCount
  else
    return source.committedCount

def replayOrAppend (cfg : StoreConfig D) (now : ℕ) (source : CaptureSource D) (expected : ℕ)
    (records : List Bytes) (expectedSha256 : Option D) (tail : Option CaptureTail)
    (overlapCount : ℕ) : StoreM D ℕ := do
  let overlap ← readRecordPage cfg (expected - 1) overlapCount
  if overlap.length ≠ overlapCount ∨
      overlap.map CaptureRecord.rawBytes ≠ records.take overlapCount then
    blockReplayConflict cfg now source (expected * audioRecordSize) records.flatten
      "replay_mismatch"
    throw "drain replay conflicts with accepted records"
  else
    let suffix := records.drop overlapCount
    if suffix = [] then
      checkReplayDigest cfg source (expected + records.length) expectedSha256
      settleTail cfg now source tail
    else
      appendDrain cfg now source source.committedCount suffix expectedSha256 tail

def commitDrain (cfg : StoreConfig D) (now : ℕ) (expectedOrdinal : ℤ) (records : List Bytes)
    (checkpoint : DrainCheckpoint D) : StoreM D ℕ := do
  let expected ← uint32 expectedOrdinal "expected ordinal"
  let rawRecords ← boundedRecords records cfg.chunkLimit
  let expectedSha256 ← optionalSha256 checkpoint.expectedSha256
  let source ← requireSource
  validateReceivingLeg source expected rawRecords.length checkpoint.legGeneration
  let overlapCount := min rawRecords.length (source.committedCount - expected)
  if expected < source.committedCount then
    replayOrAppend cfg now source expected rawRecords expectedSha256 checkpoint.tail overlapCount
  else
    refuseIf (expected ≠ source.committedCount) "drain ordinal is not the committed frontier"
    appendDrain cfg now source expected rawRecords expectedSha256 checkpoint.tail

def commitTail (cfg : StoreConfig D) (now : ℕ) (expectedOrdinal : ℤ)
    (checkpoint : DrainCheckpoint D) : StoreM D ℕ := do
  let source ← requireSource
  let expected ← uint32 expectedOrdinal "expected ordinal"
  refuseIf (expected ≠ source.committedCount) "tail ordinal is not the committed frontier"
  validateReceivingCheckpoint source expected checkpoint.legGeneration
  refuseIf checkpoint.tail.isNone "tail checkpoint is missing"
  settleTail cfg now source checkpoint.tail

/-- One call of the writer, with the wall clock it would read. `reopen` is a new process or
another source's drain: both empty this source's digest cache and nothing else. -/
inductive Call (D : Type) where
  | createSource (sourceType : Option SourceType) (sequenceStart sequenceLimit : ℤ)
  | prepareLeg (start count : ℤ)
  | recordReadBegin (start count : ℤ)
  | commitDrain (now : ℕ) (expectedOrdinal : ℤ) (records : List Bytes)
      (checkpoint : DrainCheckpoint D)
  | commitTail (now : ℕ) (expectedOrdinal : ℤ) (checkpoint : DrainCheckpoint D)
  | interrupt
  | sealSource (legGeneration expectedCount : ℤ) (expectedSha256 : DigestText D)
  | reopen

/-- The committed count after the call, where the call returns one or a source snapshot. -/
def perform (cfg : StoreConfig D) : Call D → StoreM D ℕ
  | .createSource kind start limit => return (← createSource cfg kind start limit).committedCount
  | .prepareLeg start count => return (← prepareLeg start count).committedCount
  | .recordReadBegin start count => return (← recordReadBegin start count).committedCount
  | .commitDrain now expected records checkpoint =>
    commitDrain cfg now expected records checkpoint
  | .commitTail now expected checkpoint => commitTail cfg now expected checkpoint
  | .interrupt => return (← interrupt).committedCount
  | .sealSource generation count digest =>
    return (← sealSource cfg generation count digest).committedCount
  | .reopen => do
    modify ({ · with digestCache := none })
    return 0

def outcome (cfg : StoreConfig D) (st : Store D) (call : Call D) : Except String ℕ :=
  (exec (perform cfg call) st).1

def step (cfg : StoreConfig D) (st : Store D) (call : Call D) : Store D :=
  (exec (perform cfg call) st).2

end CaptureStore
