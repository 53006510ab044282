import OmiCollector.AttemptWriter
import OmiCollector.CaptureIntegrity
import OmiCollector.TransferArena

/-! The target of the attempt writer: `_StagingWriterAdapter` over `StagingWriter` over
`SqliteStagedAttempt` over the source's rows.

Arena offsets become offsets of the leg in the adapter, ring sequences in the staging writer and
source ordinals in the attempt. The lease, the threads and the publication of a prefix are left
out; any access of the rows may meet a storage fault, before it or after it. -/
namespace StagingTarget

open ByteCodec CaptureModel RefusalLogic CaptureStore
open TransferArena (ReadBeginNotification recordSize)
open AttemptWriter (Result slice)

variable {D : Type} [DecidableEq D] {α : Type}

inductive TargetError where
  | value (message : String)
  | state (message : String)
  | regression (message : String)
  | acceptance (message : String)
  | storage
  deriving DecidableEq, Repr

inductive Fault where
  | before
  | after
  deriving DecidableEq, Repr

/-- What the three classes keep, with the rows and the faults that their next accesses meet. -/
structure Target (D : Type) where
  sourceStart : ℕ
  legBase : ℤ
  activeStart : ℕ
  activeCount : ℕ
  readStarted : Bool
  closed : Bool
  descriptorStart : ℕ
  descriptorBegin : Option ℕ × Option ℕ
  store : Store D
  faults : List (Option Fault)
  now : ℕ

abbrev TargetM (D α : Type) := Refusable (Target D) TargetError α

/-! ## The attempt -/

def onStore (wrap : String → TargetError) (x : StoreM D α) : TargetM D α := do
  let t ← get
  let fault := t.faults.head?.join
  if fault = some .before then do
    set { t with faults := t.faults.tail }
    throw .storage
  else
    match exec x t.store with
    | (.ok a, store) => do
      set { t with store := store, faults := t.faults.tail }
      if fault = some .after then throw .storage else pure a
    | (.error message, store) => do
      set { t with store := store, faults := t.faults.tail }
      throw (wrap message)

def source : TargetM D (CaptureSource D) :=
  onStore (fun _ => .state "typed audio source no longer exists") requireSource

def refreshDescriptor : TargetM D PUnit := do
  let s ← source
  modify ({ · with descriptorBegin := (s.readBeginStart, s.readBeginCount) })

/-- `_durable_prefix`: the sequence after the last durable record, and their number. -/
def durablePrefix : TargetM D Result := do
  let s ← source
  pure (some ((s.sequenceStart + s.committedCount : ℕ), (s.committedCount : ℕ)))

def attemptPrepareLeg (start count : ℤ) : TargetM D Result := do
  let _ ← onStore .state (CaptureStore.prepareLeg start count)
  refreshDescriptor
  durablePrefix

def recordReadBegin (notice : ReadBeginNotification) : TargetM D PUnit := do
  let _ ← onStore .state
    (CaptureStore.recordReadBegin notice.transferStartSequence notice.packetCount)
  refreshDescriptor

/-- The records of a chunk. -/
def recordsOf (chunk : Bytes) : List Bytes :=
  (List.range (chunk.length / audioRecordSize)).map fun i =>
    slice chunk (i * audioRecordSize) audioRecordSize

/-- One bounded page of records, with the partial tail when it is the last. -/
def commitRecordChunk (cfg : StoreConfig D) (expected : ℤ) (chunk following : Bytes) :
    TargetM D PUnit := do
  let s ← source
  let complete : ℤ := expected + (chunk.length / audioRecordSize : ℕ)
  let checkpointTail : Option CaptureTail :=
    if following = [] then none
    else some ⟨s.currentLegGeneration, complete, complete * audioRecordSize + following.length,
      complete * audioRecordSize, following⟩
  let t ← get
  let _ ← onStore .acceptance (commitDrain cfg t.now expected (recordsOf chunk)
    ⟨s.currentLegGeneration, checkpointTail, none⟩)

def commitPartialTail (cfg : StoreConfig D) (offset : ℤ) (partialTail : Bytes) :
    TargetM D PUnit := do
  let s ← source
  let checkpointTail : CaptureTail := ⟨s.currentLegGeneration, offset,
    offset * audioRecordSize + partialTail.length, offset * audioRecordSize, partialTail⟩
  let t ← get
  let _ ← onStore .acceptance
    (commitTail cfg t.now offset ⟨s.currentLegGeneration, some checkpointTail, none⟩)

/-- The pages that a payload is committed in. -/
def pageCount (cfg : StoreConfig D) (payload : Bytes) : ℕ :=
  (payload.length + cfg.chunkLimit * audioRecordSize - 1) / (cfg.chunkLimit * audioRecordSize)

def commitPage (cfg : StoreConfig D) (offset : ℤ) (payload partialTail : Bytes) (page : ℕ) :
    TargetM D PUnit :=
  let position := page * (cfg.chunkLimit * audioRecordSize)
  let chunk := slice payload position (cfg.chunkLimit * audioRecordSize)
  let expected := offset + (position / audioRecordSize : ℕ)
  let following := if position + chunk.length = payload.length then partialTail else []
  commitRecordChunk cfg expected chunk following

def acceptChunk (cfg : StoreConfig D) (startSequence : ℤ) (payload partialTail : Bytes) :
    TargetM D PUnit := do
  refuseIf (payload.length % audioRecordSize ≠ 0)
    (.state "ring chunk must be a multiple of 444 bytes")
  refuseIf (audioRecordSize ≤ partialTail.length)
    (.state "ring tail must be shorter than 444 bytes")
  refuseIf (payload = [] ∧ partialTail = [])
    (.state "ring drain must contain records or a partial tail")
  let t ← get
  let offset := startSequence - t.descriptorStart
  refuseIf (offset < 0) (.regression "record precedes the source range")
  (List.range (pageCount cfg payload)).forM (commitPage cfg offset payload partialTail)
  if payload = [] then commitPartialTail cfg offset partialTail else pure ⟨⟩
  refreshDescriptor

/-! ## The staging writer -/

def requireReadyForRead : TargetM D PUnit := do
  let t ← get
  refuseIf (t.closed = true) (.state "staging writer is closed")

def requireReadyForData : TargetM D PUnit := do
  requireReadyForRead
  let t ← get
  refuseIf (t.readStarted = false) (.state "READ_BEGIN has not been recorded")

def stagingPrepareLeg (start count : ℕ) : TargetM D Result := do
  requireReadyForRead
  refuseIf (count = 0) (.value "packet_count must be a positive integer")
  let result ← attemptPrepareLeg start count
  modify ({ · with activeStart := start, activeCount := count, readStarted := false })
  pure result

def stagingReadBegin (notice : ReadBeginNotification) : TargetM D PUnit := do
  requireReadyForRead
  let t ← get
  let range := (notice.transferStartSequence, notice.packetCount)
  if t.readStarted = true ∧ (some range.1, some range.2) = t.descriptorBegin then
    recordReadBegin notice
  else do
    refuseIf (range ≠ (t.activeStart, t.activeCount))
      (.state "READ_BEGIN does not match the prepared leg")
    recordReadBegin notice
    modify ({ · with readStarted := true })

def stagingAppendChunk (cfg : StoreConfig D) (offset : ℤ) (chunk tail : Bytes) :
    TargetM D PUnit := do
  requireReadyForData
  refuseIf (offset < 0 ∨ offset % recordSize ≠ 0)
    (.value "offset must be a non-negative multiple of 444")
  refuseIf (chunk.length % recordSize ≠ 0) (.value "chunk must be a multiple of 444 bytes")
  refuseIf (recordSize ≤ tail.length) (.value "tail must be bytes shorter than 444 bytes")
  refuseIf (chunk = [] ∧ tail = []) (.value "drain must contain records or a partial tail")
  let t ← get
  refuseIf (((t.activeCount * recordSize : ℕ) : ℤ) < offset + chunk.length)
    (.value "chunk exceeds the prepared READ leg")
  refuseIf (((t.activeCount * recordSize : ℕ) : ℤ) < offset + chunk.length + tail.length)
    (.value "tail exceeds the prepared READ leg")
  acceptChunk cfg (t.activeStart + offset / recordSize) chunk tail

def stagingCheckpoint : TargetM D Result := do
  requireReadyForData
  durablePrefix

def stagingInterrupt : TargetM D Result := do
  requireReadyForData
  let _ ← onStore .state CaptureStore.interrupt
  refreshDescriptor
  modify ({ · with readStarted := false })
  durablePrefix

/-! ## The adapter -/

def prepareLeg (start count : ℕ) : TargetM D Result := do
  modify fun t => { t with legBase := ((start : ℤ) - t.sourceStart) * recordSize }
  stagingPrepareLeg start count

def appendChunk (cfg : StoreConfig D) (offset : ℕ) (chunk tail : Bytes) : TargetM D PUnit := do
  let t ← get
  refuseIf ((offset : ℤ) < t.legBase) (.value "arena chunk precedes prepared READ leg")
  stagingAppendChunk cfg (offset - t.legBase) chunk tail

/-- A call of the attempt writer. -/
def perform (cfg : StoreConfig D) :
    AttemptWriter.Call ReadBeginNotification → TargetM D Result
  | .prepare => durablePrefix
  | .prepareLeg start count => prepareLeg start count
  | .readBegin notice => do
    stagingReadBegin notice
    pure none
  | .appendChunk offset chunk tail => do
    appendChunk cfg offset chunk tail
    pure none
  | .checkpoint => stagingCheckpoint
  | .interrupt => stagingInterrupt
  | .sealing _ => throw (.value "done_notice must be a DoneNotification")
  | .publishPrefix => do
    requireReadyForRead
    durablePrefix
  | .close => do
    modify ({ · with closed := true })
    pure none

/-- The refusals of a chunk or a tail that is not where its leg and its source are. -/
def misplaced : List TargetError :=
  [.value "arena chunk precedes prepared READ leg", .value "chunk exceeds the prepared READ leg",
    .value "tail exceeds the prepared READ leg", .regression "record precedes the source range"]

/-! ## What is stored of the arena -/

section Stored

open CaptureInvariant (Integrity Recached SourceInvariant TailAtFrontier)
open CaptureIntegrity (CallEffect LegEffect)
open CaptureCommits (CommitOutcome commitDrain_outcome commitTail_outcome newRows)

omit [DecidableEq D]

/-- The rows from `base` on of the source that starts at `first` are the arena's records: `got` is
what an arena from `origin` on received. At least `floor` rows are there. -/
structure Stored (cfg : StoreConfig D) (first base floor origin : ℕ) (got : Bytes) (t : Target D) :
    Prop where
  integrity : Integrity cfg t.store
  source : ∃ s, t.store.source = some s ∧ s.sequenceStart = first
  descriptor : t.descriptorStart = first
  rows : ∀ k r, t.store.records[k]? = some r → base ≤ k →
    r.rawBytes = slice got ((first + k - origin) * recordSize) recordSize
  grown : floor ≤ t.store.records.length

/-- The durable frontier is where the arena's bytes up to `reach` end, and a tail stands there. -/
structure Level (first origin : ℕ) (t : Target D) (reach : ℕ) (tail : Bytes) : Prop where
  below : first ≤ origin
  aligned : recordSize ∣ reach
  frontier : first + t.store.records.length = origin + reach / recordSize
  tail : tail ≠ [] → ∃ stored, t.store.tail = some stored ∧
    stored.byteOffset = ((origin - first) * recordSize + reach : ℕ) ∧ tail <+: stored.data

/-- Where the leg stands is the same. -/
structure SameLeg (t t' : Target D) : Prop where
  sourceStart : t'.sourceStart = t.sourceStart
  legBase : t'.legBase = t.legBase
  activeStart : t'.activeStart = t.activeStart
  activeCount : t'.activeCount = t.activeCount

/-- The rows and the partial tail are the same. -/
structure SameRows (t t' : Target D) : Prop where
  records : t'.store.records = t.store.records
  tail : t'.store.tail = t.store.tail

variable {cfg : StoreConfig D} {first base floor origin reach : ℕ} {got tail : Bytes}
  {t t' : Target D}

theorem SameLeg.refl (t : Target D) : SameLeg t t := ⟨rfl, rfl, rfl, rfl⟩

theorem SameLeg.trans {u : Target D} (h : SameLeg t t') (h' : SameLeg t' u) : SameLeg t u :=
  ⟨h'.sourceStart.trans h.sourceStart, h'.legBase.trans h.legBase,
    h'.activeStart.trans h.activeStart, h'.activeCount.trans h.activeCount⟩

theorem SameRows.refl (t : Target D) : SameRows t t := ⟨rfl, rfl⟩

theorem SameRows.trans {u : Target D} (h : SameRows t t') (h' : SameRows t' u) : SameRows t u :=
  ⟨h'.records.trans h.records, h'.tail.trans h.tail⟩

theorem Level.same (h : Level first origin t reach tail) (hrows : SameRows t t') :
    Level first origin t' reach tail := by
  refine ⟨h.below, h.aligned, by rw [hrows.records]; exact h.frontier, ?_⟩
  rw [hrows.tail]
  exact h.tail

/-- Only the leg, the phase or the descriptor may change. -/
theorem Stored.same (h : Stored cfg first base floor origin got t) (hstore : t'.store = t.store)
    (hdescriptor : t'.descriptorStart = t.descriptorStart) :
    Stored cfg first base floor origin got t' := by
  refine ⟨by rw [hstore]; exact h.integrity, by rw [hstore]; exact h.source,
    hdescriptor.trans h.descriptor, ?_, by rw [hstore]; exact h.grown⟩
  rw [hstore]
  exact h.rows

theorem Stored.raise (h : Stored cfg first base floor origin got t) :
    Stored cfg first base t.store.records.length origin got t := { h with grown := le_rfl }

theorem Stored.lower {floor' : ℕ} (h : Stored cfg first base floor origin got t)
    (hle : floor' ≤ floor) : Stored cfg first base floor' origin got t :=
  { h with grown := hle.trans h.grown }

/-- A row is whole, so what the arena receives later does not change it. -/
theorem Stored.grow {got' : Bytes} (h : Stored cfg first base floor origin got t)
    (hgot : got <+: got') : Stored cfg first base floor origin got' t := by
  refine { h with rows := fun k r hr hbase => ?_ }
  obtain ⟨s, hs, -⟩ := h.source
  have hlength := ((h.integrity.present s hs).valid r (List.mem_of_getElem? hr)).length_rawBytes
  have hrow := h.rows k r hr hbase
  obtain ⟨rest, rfl⟩ := hgot
  generalize (first + k - origin) * recordSize = start at hrow ⊢
  have hwhole : start + recordSize ≤ got.length := by
    rw [hrow] at hlength
    simp only [slice, List.length_take, List.length_drop, audioRecordSize, recordSize] at hlength ⊢
    omega
  rw [hrow, slice, slice, List.drop_append_of_le_length (by omega),
    List.take_append_of_le_length (by rw [List.length_drop]; omega)]

/-- An access of the rows; a fault comes before it or after it. -/
theorem wp_onStore {wrap : String → TargetError} {x : StoreM D α} {Q : α → Target D → Prop}
    {E : TargetError → Target D → Prop}
    (hfault : E .storage { t with faults := t.faults.tail })
    (h : wp x t.store
      (fun a store => Q a { t with store := store, faults := t.faults.tail } ∧
        E .storage { t with store := store, faults := t.faults.tail })
      (fun message store => E (wrap message) { t with store := store, faults := t.faults.tail })) :
    wp (onStore wrap x) t Q E := by
  simp only [onStore, wp_bind, wp_get, wp_ite, wp_set, wp_throw]
  refine ⟨fun _ => hfault, fun _ => ?_⟩
  unfold wp at h
  rcases hx : exec x t.store with ⟨result, store⟩
  rw [hx] at h
  cases result with
  | ok a =>
    simp only [wp_bind, wp_set, wp_ite, wp_throw, wp_pure]
    exact ⟨fun _ => h.2, fun _ => h.1⟩
  | error message => exact h

theorem wp_source (h : Stored cfg first base floor origin got t)
    {Q : CaptureSource D → Target D → Prop} {E : TargetError → Target D → Prop}
    (hfault : E .storage { t with faults := t.faults.tail })
    (hok : ∀ s, t.store.source = some s → s.sequenceStart = first →
      Q s { t with faults := t.faults.tail }) : wp source t Q E := by
  obtain ⟨s, hs, hfirst⟩ := h.source
  refine wp_onStore hfault ?_
  simp only [requireSource, wp_bind, wp_get, hs, wp_requireSome]
  exact ⟨fun h => (by cases h), fun a ha => by
    obtain rfl := Option.some.inj ha
    exact ⟨hok s hs hfirst, hfault⟩⟩

/-- The records are the arena's from here on. -/
def Carries (got : Bytes) (reach : ℕ) (records : List Bytes) : Prop :=
  ∀ i raw, records[i]? = some raw → raw = slice got (reach + i * recordSize) recordSize

variable {now : ℕ} {s : CaptureSource D} {records : List Bytes} {incoming : Option CaptureTail}
  {store' : Store D} {result : Except String ℕ}

theorem records_length (h : Stored cfg first base floor origin got t)
    (hs : t.store.source = some s) : t.store.records.length = s.committedCount :=
  (h.integrity.present s hs).count

theorem Stored.start (h : Stored cfg first base floor origin got t) (hs : t.store.source = some s) :
    s.sequenceStart = first := by
  obtain ⟨s', hs', hfirst⟩ := h.source
  obtain rfl := Option.some.inj (hs.symm.trans hs')
  exact hfirst

/-- At the frontier all records of a commit are new. -/
theorem newRows_frontier (s : CaptureSource D) (records : List Bytes) :
    newRows s s.committedCount records = parseRecords s.committedCount records := by
  simp [newRows]

/-- Whatever a commit at the frontier comes to, the rows stay the arena's. -/
theorem Stored.commit (h : Stored cfg first base floor origin got t)
    (hlevel : Level first origin t reach tail) (hs : t.store.source = some s)
    (hcarries : Carries got reach records)
    (hout : CommitOutcome cfg now t.store s s.committedCount records incoming result store')
    (faults : List (Option Fault)) :
    Stored cfg first base floor origin got { t with store := store', faults := faults } := by
  have heffect := CaptureIntegrity.CommitOutcome.effect hout h.integrity hs
  obtain ⟨s', hs', -, hstart, -⟩ := heffect.extends_log.source s hs
  refine ⟨heffect.integrity, ⟨s', hs', hstart.trans (h.start hs)⟩, h.descriptor, ?_,
    h.grown.trans heffect.extends_log.rows.length_le⟩
  intro k r hr horigin
  have hsame : store'.records = t.store.records → r.rawBytes =
      slice got ((first + k - origin) * recordSize) recordSize := by
    intro hrecords
    refine h.rows k r ?_ horigin
    rw [← hrecords]
    exact hr
  cases hout with
  | refused _ ht => exact hsame ht.records
  | replayConflict _ _ _ _ hu => exact hsame hu.records
  | tailConflict _ _ _ _ hu _ => exact hsame hu.records
  | accepted _ _ hrec _ _ hext =>
    have hcount := records_length h hs
    have hrow := hr
    simp only [hext.records, newRows_frontier] at hrow
    rcases Nat.lt_or_ge k t.store.records.length with hold | hnew
    · rw [List.getElem?_append_left hold] at hrow
      exact h.rows k r hrow horigin
    · rw [List.getElem?_append_right hnew, parseRecords, List.getElem?_mapIdx,
        Option.map_eq_some_iff] at hrow
      obtain ⟨raw, hraw, rfl⟩ := hrow
      have hlength := hrec raw (List.mem_of_getElem? hraw)
      have hplace : reach + (k - t.store.records.length) * recordSize =
          (first + k - origin) * recordSize := by
        have hdiv := Nat.div_mul_cancel hlevel.aligned
        have hfrontier := hlevel.frontier
        generalize reach / recordSize = place at hdiv hfrontier
        have hindex : first + k - origin = place + (k - t.store.records.length) := by omega
        rw [hindex, Nat.add_mul, hdiv]
      rw [parseRecord_rawBytes _ hlength, hcarries _ _ hraw, hplace]

/-- An accepted commit moves the frontier by its records. -/
theorem commit_accepted {n : ℕ}
    (hout : CommitOutcome cfg now t.store s s.committedCount records incoming (.ok n) store') :
    store'.records.length = t.store.records.length + records.length ∧
      store'.tail = CaptureCommits.mergedTail s.committedCount (s.committedCount + records.length)
        t.store.tail incoming ∧
      CaptureCommits.TailAccepted s t.store.records (newRows s s.committedCount records)
        t.store.tail incoming := by
  cases hout with
  | accepted _ _ _ _ _ hext =>
    have hlength : (newRows s s.committedCount records).length = records.length := by
      rw [newRows_frontier, parseRecords, List.length_mapIdx]
    refine ⟨?_, ?_, hext.check⟩
    · rw [hext.records, List.length_append, hlength]
    · rw [hext.tail, hlength]

theorem length_recordsOf (chunk : Bytes) :
    (recordsOf chunk).length = chunk.length / audioRecordSize := by
  simp [recordsOf]

theorem slice_slice {bytes chunk : Bytes} {start offset count : ℕ}
    (h : slice bytes start chunk.length = chunk) (hfits : offset + count ≤ chunk.length) :
    slice chunk offset count = slice bytes (start + offset) count := by
  rw [← h]
  simp only [slice, List.drop_take, List.drop_drop, List.take_take]
  rw [min_eq_left (by omega)]

theorem carries_recordsOf {chunk : Bytes} (h : slice got reach chunk.length = chunk) :
    Carries got reach (recordsOf chunk) := by
  intro i raw hraw
  rw [recordsOf, List.getElem?_map, Option.map_eq_some_iff] at hraw
  obtain ⟨j, hj, rfl⟩ := hraw
  obtain ⟨hlt, rfl⟩ := List.getElem?_eq_some_iff.mp hj
  rw [List.length_range] at hlt
  rw [List.getElem_range]
  refine slice_slice h ?_
  have hle : (i + 1) * audioRecordSize ≤ chunk.length :=
    (Nat.mul_le_mul_right _ hlt).trans (Nat.div_mul_le_self _ _)
  rw [Nat.add_mul, Nat.one_mul] at hle
  exact hle

/-- The frontier in bytes of the source. -/
theorem Level.bytes (h : Level first origin t reach tail) :
    t.store.records.length * recordSize = (origin - first) * recordSize + reach := by
  have hbelow := h.below
  have hfrontier := h.frontier
  have hlength : t.store.records.length = (origin - first) + reach / recordSize := by omega
  rw [hlength, Nat.add_mul, Nat.div_mul_cancel h.aligned]

theorem wp_commitRecordChunk [DecidableEq D] (h : Stored cfg first base floor origin got t)
    (hlevel : Level first origin t reach tail) {chunk following : Bytes}
    (hwhole : recordSize ∣ chunk.length) (hsome : chunk ≠ [])
    (hchunk : slice got reach chunk.length = chunk) {expected : ℤ}
    (hexpected : expected = t.store.records.length) :
    wp (commitRecordChunk cfg expected chunk following) t
      (fun _ t' => Stored cfg first base floor origin got t' ∧ SameLeg t t' ∧
        Level first origin t' (reach + chunk.length) following)
      (fun e t' => Stored cfg first base floor origin got t' ∧ SameLeg t t' ∧ e ∉ misplaced) := by
  have hstorage : TargetError.storage ∉ misplaced := by simp [misplaced]
  have hleg : ∀ (store : Store D) (faults : List (Option Fault)),
      SameLeg t { t with store := store, faults := faults } := fun _ _ => ⟨rfl, rfl, rfl, rfl⟩
  have hfault : ∀ faults, Stored cfg first base floor origin got { t with faults := faults } :=
    fun _ => h.same rfl rfl
  simp only [commitRecordChunk, wp_bind]
  refine wp_source h ⟨hfault _, hleg _ _, hstorage⟩ fun s hs _ => ?_
  have hcount := records_length h hs
  have hfrontier : expected.toNat = s.committedCount := by omega
  have hcarries := carries_recordsOf hchunk
  simp only [wp_get]
  refine wp_onStore ⟨hfault _, hleg _ _, hstorage⟩ ?_
  refine wp_mono (commitDrain_outcome hs h.integrity _ _ _) ?_ ?_
  · intro n store' hout
    rw [hfrontier] at hout
    have hstored := h.commit hlevel hs hcarries hout t.faults.tail.tail
    obtain ⟨hlength, htail, -⟩ := commit_accepted hout
    rw [length_recordsOf] at hlength htail
    rw [wp_pure]
    refine ⟨⟨hstored, hleg _ _, hlevel.below, ?_, ?_, ?_⟩, hstored, hleg _ _, hstorage⟩
    · exact Nat.dvd_add hlevel.aligned hwhole
    · have hbefore := hlevel.frontier
      have haligned := hlevel.aligned
      simp only [hlength, audioRecordSize, recordSize] at hbefore haligned hwhole ⊢
      omega
    · intro hfollowing
      have hbytes := hlevel.bytes
      have hpos : 0 < chunk.length := List.length_pos_iff.mpr hsome
      have hrecords : 0 < chunk.length / audioRecordSize :=
        Nat.div_pos (Nat.le_of_dvd hpos hwhole) (by decide)
      rw [if_neg hfollowing] at htail
      rw [CaptureCommits.mergedTail_beyond (by push_cast; omega) (.inr (by omega))] at htail
      refine ⟨_, htail, ?_, List.prefix_rfl⟩
      have hsplit := Nat.div_mul_cancel hwhole
      simp only [audioRecordSize, recordSize] at hbytes hsplit ⊢
      omega
  · intro message store' hout
    rw [hfrontier] at hout
    exact ⟨h.commit hlevel hs hcarries hout _, hleg _ _, by simp [misplaced]⟩

theorem wp_commitPartialTail [DecidableEq D] (h : Stored cfg first base floor origin got t)
    (hlevel : Level first origin t reach tail) {partialTail : Bytes} {offset : ℤ}
    (hoffset : offset = t.store.records.length) :
    wp (commitPartialTail cfg offset partialTail) t
      (fun _ t' => Stored cfg first base floor origin got t' ∧ SameLeg t t' ∧
        Level first origin t' reach partialTail)
      (fun e t' => Stored cfg first base floor origin got t' ∧ SameLeg t t' ∧ e ∉ misplaced) := by
  have hstorage : TargetError.storage ∉ misplaced := by simp [misplaced]
  have hleg : ∀ (store : Store D) (faults : List (Option Fault)),
      SameLeg t { t with store := store, faults := faults } := fun _ _ => ⟨rfl, rfl, rfl, rfl⟩
  have hfault : ∀ faults, Stored cfg first base floor origin got { t with faults := faults } :=
    fun _ => h.same rfl rfl
  have hcarries : Carries got reach [] := by simp [Carries]
  simp only [commitPartialTail, wp_bind]
  refine wp_source h ⟨hfault _, hleg _ _, hstorage⟩ fun s hs _ => ?_
  have hcount := records_length h hs
  have hfrontier : offset.toNat = s.committedCount := by omega
  simp only [wp_get]
  refine wp_onStore ⟨hfault _, hleg _ _, hstorage⟩ ?_
  refine wp_mono (commitTail_outcome hs h.integrity _ _) ?_ ?_
  · intro n store' hout
    rw [hfrontier] at hout
    have hstored := h.commit hlevel hs hcarries hout t.faults.tail.tail
    obtain ⟨hlength, htail, haccepted⟩ := commit_accepted hout
    rw [List.length_nil, Nat.add_zero] at hlength htail
    rw [wp_pure]
    refine ⟨⟨hstored, hleg _ _, hlevel.below, hlevel.aligned, ?_, fun _ => ?_⟩, hstored, hleg _ _,
      hstorage⟩
    · rw [hlength]
      exact hlevel.frontier
    have hbytes := hlevel.bytes
    rcases hprevious : t.store.tail with _ | p
    · rw [hprevious, CaptureCommits.mergedTail_beyond (by simp only; omega) (.inl rfl)] at htail
      refine ⟨_, htail, ?_, List.prefix_rfl⟩
      simp only [audioRecordSize, recordSize] at hbytes ⊢
      omega
    · -- the longer of two tails that agree is kept
      have hstands := (h.integrity.present s hs).tail p hprevious
      have hcompare := haccepted.comparable p _ hprevious rfl
        (by rw [newRows_frontier]; rfl) (by simp only; omega)
      rw [hprevious, CaptureCommits.mergedTail_longer (by simp only; omega)] at htail
      split at htail
      · refine ⟨_, htail, ?_, List.prefix_rfl⟩
        simp only [audioRecordSize, recordSize] at hbytes ⊢
        omega
      · rename_i hshorter
        refine ⟨p, htail, ?_, ?_⟩
        · have hat := hstands.offset
          simp only [audioRecordSize, recordSize] at hbytes hat ⊢
          omega
        · rcases hcompare with hle | hle
          · have hsame := hle.eq_of_length (le_antisymm hle.length_le (Nat.not_lt.mp hshorter))
            exact hsame ▸ List.prefix_rfl
          · exact hle
  · intro message store' hout
    rw [hfrontier] at hout
    exact ⟨h.commit hlevel hs hcarries hout _, hleg _ _, by simp [misplaced]⟩

theorem lt_pageCount {payload : Bytes} {page : ℕ} (h : page < pageCount cfg payload) :
    page * (cfg.chunkLimit * audioRecordSize) < payload.length := by
  have hpos : 0 < cfg.chunkLimit * audioRecordSize :=
    Nat.mul_pos cfg.chunkLimit_pos (by decide)
  unfold pageCount at h
  generalize cfg.chunkLimit * audioRecordSize = size at h hpos ⊢
  have hle := (Nat.le_div_iff_mul_le hpos).mp (Nat.succ_le_of_lt h)
  rw [Nat.succ_mul] at hle
  omega

theorem le_pageCount (cfg : StoreConfig D) (payload : Bytes) :
    payload.length ≤ pageCount cfg payload * (cfg.chunkLimit * audioRecordSize) := by
  have hpos : 0 < cfg.chunkLimit * audioRecordSize :=
    Nat.mul_pos cfg.chunkLimit_pos (by decide)
  unfold pageCount
  generalize cfg.chunkLimit * audioRecordSize = size at hpos ⊢
  have hlt := Nat.lt_div_mul_add hpos (a := payload.length + size - 1)
  omega

/-- After some pages. -/
structure Paged (cfg : StoreConfig D) (first base floor origin reach : ℕ)
    (got payload partialTail : Bytes) (t : Target D) (page : ℕ) (t' : Target D) : Prop where
  stored : Stored cfg first base floor origin got t'
  leg : SameLeg t t'
  level : ∃ tail, Level first origin t'
    (reach + min (page * (cfg.chunkLimit * audioRecordSize)) payload.length) tail ∧
      (0 < page → payload.length ≤ page * (cfg.chunkLimit * audioRecordSize) → tail = partialTail)

theorem wp_commitPage [DecidableEq D] {payload partialTail : Bytes} {page : ℕ}
    (hlevel : Level first origin t reach tail) (hwhole : recordSize ∣ payload.length)
    (hpayload : slice got reach payload.length = payload) {offset : ℤ}
    (hoffset : offset = t.store.records.length) (hpage : page < pageCount cfg payload)
    (h : Paged cfg first base floor origin reach got payload partialTail t page t') :
    wp (commitPage cfg offset payload partialTail page) t'
      (fun _ u => Paged cfg first base floor origin reach got payload partialTail t (page + 1) u)
      (fun e u => Stored cfg first base floor origin got u ∧ SameLeg t u ∧ e ∉ misplaced) := by
  obtain ⟨hstored, hleg, tail', hlevel', -⟩ := h
  have hinside := lt_pageCount hpage
  have haligned : audioRecordSize ∣ page * (cfg.chunkLimit * audioRecordSize) :=
    (Nat.dvd_mul_left _ _).mul_left _
  have hsize : audioRecordSize ∣ cfg.chunkLimit * audioRecordSize := Nat.dvd_mul_left _ _
  have hpos : 0 < cfg.chunkLimit * audioRecordSize := Nat.mul_pos cfg.chunkLimit_pos (by decide)
  rw [min_eq_left hinside.le] at hlevel'
  unfold commitPage
  simp only
  generalize hposition : page * (cfg.chunkLimit * audioRecordSize) = position
    at hinside haligned hlevel' ⊢
  generalize hbound : cfg.chunkLimit * audioRecordSize = size at hsize hpos ⊢
  have hnext : (page + 1) * (cfg.chunkLimit * audioRecordSize) = position + size := by
    rw [Nat.succ_mul, hposition, hbound]
  have hlength : (slice payload position size).length = min size (payload.length - position) := by
    simp [slice]
  have hchunk : slice got (reach + position) (slice payload position size).length =
      slice payload position size := by
    rw [← slice_slice hpayload (by omega)]
    exact (List.prefix_iff_eq_take.mp (List.take_prefix _ _)).symm
  have hrecords : recordSize ∣ (slice payload position size).length := by
    rw [hlength]
    rcases min_choice size (payload.length - position) with hmin | hmin <;> rw [hmin]
    · exact hsize
    · exact Nat.dvd_sub hwhole haligned
  have hsome : slice payload position size ≠ [] := by
    rw [← List.length_pos_iff, hlength]
    omega
  have hexpected : offset + (position / audioRecordSize : ℕ) = t'.store.records.length := by
    have hbefore := hlevel.frontier
    have hnow := hlevel'.frontier
    have hdvd := hlevel.aligned
    simp only [audioRecordSize, recordSize] at hbefore hnow hdvd haligned ⊢
    omega
  refine wp_mono (wp_commitRecordChunk hstored hlevel' hrecords hsome hchunk hexpected) ?_ ?_
  · rintro _ u ⟨hu, hsame, hmoved⟩
    have hreach : reach + min ((page + 1) * (cfg.chunkLimit * audioRecordSize)) payload.length =
        reach + position + (slice payload position size).length := by omega
    rw [← hreach] at hmoved
    exact ⟨hu, hleg.trans hsame, _, hmoved, fun _ hend => if_pos (by omega)⟩
  · rintro e u ⟨hu, hsame, he⟩
    exact ⟨hu, hleg.trans hsame, he⟩

theorem SameLeg.descriptor (faults : List (Option Fault)) (range : Option ℕ × Option ℕ) :
    SameLeg t { t with faults := faults, descriptorBegin := range } := ⟨rfl, rfl, rfl, rfl⟩

theorem wp_refreshDescriptor (h : Stored cfg first base floor origin got t)
    {Q : PUnit → Target D → Prop} {E : TargetError → Target D → Prop}
    (hfault : E .storage { t with faults := t.faults.tail })
    (hok : ∀ range, Q ⟨⟩ { t with faults := t.faults.tail, descriptorBegin := range }) :
    wp refreshDescriptor t Q E := by
  simp only [refreshDescriptor, wp_bind]
  refine wp_source h hfault fun s hs _ => ?_
  rw [wp_modify]
  exact hok _

/-- A drain at the durable frontier is stored where the arena has it, and is not refused for its
place. -/
theorem wp_acceptChunk [DecidableEq D] (h : Stored cfg first base floor origin got t)
    (hlevel : Level first origin t reach tail) {payload partialTail : Bytes}
    (hwhole : recordSize ∣ payload.length) (hpayload : slice got reach payload.length = payload)
    {startSequence : ℤ} (hstart : startSequence = (origin + reach / recordSize : ℕ)) :
    wp (acceptChunk cfg startSequence payload partialTail) t
      (fun _ t' => Stored cfg first base floor origin got t' ∧ SameLeg t t' ∧
        Level first origin t' (reach + payload.length) partialTail)
      (fun e t' => Stored cfg first base floor origin got t' ∧ SameLeg t t' ∧ e ∉ misplaced) := by
  have hdescriptor := h.descriptor
  have hbelow := hlevel.below
  have hfrontier := hlevel.frontier
  have hoffset : startSequence - t.descriptorStart = t.store.records.length := by omega
  have hrefused : ∀ e, e ∉ misplaced →
      Stored cfg first base floor origin got t ∧ SameLeg t t ∧ e ∉ misplaced := fun e he =>
    ⟨h, .refl t, he⟩
  simp only [acceptChunk, wp_bind, wp_refuseIf, wp_get]
  refine ⟨fun _ => hrefused _ (by simp [misplaced]), fun _ =>
    ⟨fun _ => hrefused _ (by simp [misplaced]), fun _ =>
    ⟨fun _ => hrefused _ (by simp [misplaced]), fun _ =>
    ⟨fun hbefore => absurd hbefore (by omega), fun _ => ?_⟩⟩⟩⟩
  have hpages := wp_forM_range
    (P := Paged cfg first base floor origin reach got payload partialTail t)
    (E := fun e u => Stored cfg first base floor origin got u ∧ SameLeg t u ∧ e ∉ misplaced)
    (f := commitPage cfg (startSequence - t.descriptorStart) payload partialTail)
    (n := pageCount cfg payload) (s := t)
    ⟨h, .refl t, tail, by simpa using hlevel, fun hpos => absurd hpos (lt_irrefl 0)⟩
    fun page hpage u hu => wp_commitPage hlevel hwhole hpayload hoffset hpage hu
  refine wp_mono hpages ?_ (fun _ _ he => he)
  rintro _ u ⟨hu, hleg, tail', hlevel', hlast⟩
  have hall := le_pageCount cfg payload
  rw [min_eq_right hall] at hlevel'
  -- the rows and the tail are settled; the descriptor is read again
  have hrefresh : ∀ v, Stored cfg first base floor origin got v → SameLeg t v →
      Level first origin v (reach + payload.length) partialTail →
      wp refreshDescriptor v
        (fun _ t' => Stored cfg first base floor origin got t' ∧ SameLeg t t' ∧
          Level first origin t' (reach + payload.length) partialTail)
        (fun e t' => Stored cfg first base floor origin got t' ∧ SameLeg t t' ∧ e ∉ misplaced) := by
    intro v hv hvleg hvlevel
    refine wp_refreshDescriptor hv ?_ fun range => ?_
    · exact ⟨hv.same rfl rfl, hvleg.trans ⟨rfl, rfl, rfl, rfl⟩, by simp [misplaced]⟩
    · exact ⟨hv.same rfl rfl, hvleg.trans ⟨rfl, rfl, rfl, rfl⟩, hvlevel.same ⟨rfl, rfl⟩⟩
  rw [wp_ite]
  constructor
  · intro hempty
    have hplace : startSequence - t.descriptorStart = u.store.records.length := by
      have hnow := hlevel'.frontier
      rw [hempty, List.length_nil, Nat.add_zero] at hnow
      omega
    rw [wp_bind]
    refine wp_mono (wp_commitPartialTail hu hlevel' hplace) ?_ ?_
    · rintro _ v ⟨hv, hsame, hmoved⟩
      exact hrefresh v hv (hleg.trans hsame) hmoved
    · rintro e v ⟨hv, hsame, he⟩
      exact ⟨hv, hleg.trans hsame, he⟩
  · intro hsome
    have hpos : 0 < payload.length := List.length_pos_iff.mpr hsome
    have hpage : 0 < pageCount cfg payload := by
      rcases Nat.eq_zero_or_pos (pageCount cfg payload) with hzero | hpage
      · rw [hzero, Nat.zero_mul] at hall
        omega
      · exact hpage
    rw [hlast hpage hall] at hlevel'
    exact hrefresh u hu hleg hlevel'

/-- What the adapter and the staging writer were told of the leg that is drained. -/
structure Prepared (origin : ℕ) (t : Target D) (offset count : ℕ) : Prop where
  legBase : t.legBase = offset
  active : t.activeStart = origin + offset / recordSize
  aligned : recordSize ∣ offset
  count : t.activeCount = count

theorem Prepared.same {offset count : ℕ} (h : Prepared origin t offset count)
    (hleg : SameLeg t t') : Prepared origin t' offset count :=
  ⟨hleg.legBase.trans h.legBase, hleg.activeStart.trans h.active, h.aligned,
    hleg.activeCount.trans h.count⟩

/-- A drain inside the prepared leg is stored where the arena has it, and is not refused for its
place. -/
theorem wp_appendChunk [DecidableEq D] (h : Stored cfg first base floor origin got t)
    (hlevel : Level first origin t reach tail) {offset count : ℕ}
    (hleg : Prepared origin t offset count)
    {chunk following : Bytes} (hchunk : slice got reach chunk.length = chunk)
    (hbegun : offset ≤ reach)
    (hfits : reach + chunk.length + following.length ≤ offset + count * recordSize) :
    wp (appendChunk cfg reach chunk following) t
      (fun _ t' => Stored cfg first base floor origin got t' ∧ SameLeg t t' ∧
        Level first origin t' (reach + chunk.length) following)
      (fun e t' => Stored cfg first base floor origin got t' ∧ SameLeg t t' ∧ e ∉ misplaced) := by
  obtain ⟨hlegBase, hactive, haligned, hcount⟩ := hleg
  have hrefused : ∀ e, e ∉ misplaced →
      Stored cfg first base floor origin got t ∧ SameLeg t t ∧ e ∉ misplaced := fun e he =>
    ⟨h, .refl t, he⟩
  simp only [appendChunk, stagingAppendChunk, requireReadyForData, requireReadyForRead, wp_bind,
    wp_refuseIf, wp_get, hlegBase, hcount]
  refine ⟨fun hbefore => absurd hbefore (by omega), fun _ =>
    ⟨fun _ => hrefused _ (by simp [misplaced]), fun _ =>
    ⟨fun _ => hrefused _ (by simp [misplaced]), fun _ =>
    ⟨fun _ => hrefused _ (by simp [misplaced]), fun _ =>
    ⟨fun _ => hrefused _ (by simp [misplaced]), fun hrecords =>
    ⟨fun _ => hrefused _ (by simp [misplaced]), fun _ =>
    ⟨fun _ => hrefused _ (by simp [misplaced]), fun _ =>
    ⟨fun hover => absurd hover (by omega), fun _ =>
    ⟨fun hover => absurd hover (by omega), fun _ => ?_⟩⟩⟩⟩⟩⟩⟩⟩⟩
  refine wp_acceptChunk h hlevel (Nat.dvd_of_mod_eq_zero (not_not.mp hrecords)) hchunk ?_
  have hreach := hlevel.aligned
  rw [hactive]
  simp only [recordSize] at haligned hreach ⊢
  omega

/-- A call that stores nothing of the arena. -/
structure Keeps (cfg : StoreConfig D) (first base floor origin : ℕ) (got : Bytes)
    (t t' : Target D) : Prop where
  stored : Stored cfg first base floor origin got t'
  rows : SameRows t t'
  leg : SameLeg t t'

theorem Keeps.refl (h : Stored cfg first base floor origin got t) :
    Keeps cfg first base floor origin got t t :=
  ⟨h, .refl t, .refl t⟩

theorem Keeps.trans {u : Target D} (h : Keeps cfg first base floor origin got t t')
    (h' : Keeps cfg first base floor origin got t' u) : Keeps cfg first base floor origin got t u :=
  ⟨h'.stored, h.rows.trans h'.rows, h.leg.trans h'.leg⟩

/-- Nothing but the descriptor, the phase of the READ and the faults to come changed. -/
theorem Keeps.fields (h : Stored cfg first base floor origin got t) (hstore : t'.store = t.store)
    (hdescriptor : t'.descriptorStart = t.descriptorStart) (hleg : SameLeg t t') :
    Keeps cfg first base floor origin got t t' :=
  ⟨h.same hstore hdescriptor, ⟨by rw [hstore], by rw [hstore]⟩, hleg⟩

theorem Keeps.ofEffect (h : Stored cfg first base floor origin got t)
    (heffect : LegEffect cfg t.store store') (faults : List (Option Fault)) :
    Keeps cfg first base floor origin got t { t with store := store', faults := faults } := by
  obtain ⟨s, hs, hfirst⟩ := h.source
  obtain ⟨s', hs', -, hstart, -⟩ := heffect.source s hs
  refine ⟨⟨heffect.integrity, ⟨s', hs', hstart.trans hfirst⟩, h.descriptor, ?_, ?_⟩,
    ⟨heffect.records, heffect.tail⟩, ⟨rfl, rfl, rfl, rfl⟩⟩
  case refine_2 =>
    rw [heffect.records]
    exact h.grown
  intro k r hr
  rw [heffect.records] at hr
  exact h.rows k r hr

theorem wp_legAccess {x : StoreM D α} (h : Stored cfg first base floor origin got t)
    (hx : wp x t.store (fun _ store => LegEffect cfg t.store store)
      (CaptureIntegrity.CleanRefusal t.store)) {wrap : String → TargetError}
    (hwrap : ∀ message, wrap message ∉ misplaced) :
    wp (onStore wrap x) t (fun _ t' => Keeps cfg first base floor origin got t t')
      (fun e t' => Keeps cfg first base floor origin got t t' ∧ e ∉ misplaced) := by
  have hstorage : TargetError.storage ∉ misplaced := by simp [misplaced]
  refine wp_onStore ⟨.fields h rfl rfl ⟨rfl, rfl, rfl, rfl⟩, hstorage⟩ ?_
  refine wp_mono hx (fun _ store heffect => ?_) ?_
  · have hkeeps := Keeps.ofEffect h heffect t.faults.tail
    exact ⟨hkeeps, hkeeps, hstorage⟩
  · rintro message store ⟨-, rfl⟩
    exact ⟨.fields h rfl rfl ⟨rfl, rfl, rfl, rfl⟩, hwrap message⟩

theorem wp_refresh (h : Keeps cfg first base floor origin got t t') :
    wp refreshDescriptor t' (fun _ u => Keeps cfg first base floor origin got t u)
      (fun e u => Keeps cfg first base floor origin got t u ∧ e ∉ misplaced) := by
  refine wp_refreshDescriptor h.stored ?_ fun range => ?_
  · exact ⟨h.trans (.fields h.stored rfl rfl ⟨rfl, rfl, rfl, rfl⟩), by simp [misplaced]⟩
  · exact h.trans (.fields h.stored rfl rfl ⟨rfl, rfl, rfl, rfl⟩)

theorem wp_durablePrefix (h : Keeps cfg first base floor origin got t t') :
    wp durablePrefix t' (fun _ u => Keeps cfg first base floor origin got t u)
      (fun e u => Keeps cfg first base floor origin got t u ∧ e ∉ misplaced) := by
  simp only [durablePrefix, wp_bind]
  refine wp_source h.stored ?_ fun s hs _ => ?_
  · exact ⟨h.trans (.fields h.stored rfl rfl ⟨rfl, rfl, rfl, rfl⟩), by simp [misplaced]⟩
  · exact h.trans (.fields h.stored rfl rfl ⟨rfl, rfl, rfl, rfl⟩)

theorem state_not_misplaced (message : String) : TargetError.state message ∉ misplaced := by
  simp [misplaced]

theorem wp_prepareLeg [DecidableEq D] (h : Stored cfg first base floor origin got t)
    (start count : ℕ) :
    wp (prepareLeg start count) t
      (fun _ t' => Stored cfg first base floor origin got t' ∧ SameRows t t' ∧
        t'.legBase = ((start : ℤ) - t.sourceStart) * recordSize ∧ t'.activeStart = start ∧
        t'.activeCount = count ∧ t'.sourceStart = t.sourceStart)
      (fun e t' => Stored cfg first base floor origin got t' ∧ SameRows t t' ∧
        t'.sourceStart = t.sourceStart ∧ e ∉ misplaced) := by
  simp only [prepareLeg, stagingPrepareLeg, attemptPrepareLeg, requireReadyForRead, wp_bind,
    wp_modify, wp_get, wp_refuseIf, wp_pure]
  generalize hplace : ((start : ℤ) - t.sourceStart) * recordSize = place
  have hstart : Stored cfg first base floor origin got { t with legBase := place } := h.same rfl rfl
  have hfailed : ∀ e u,
      Keeps cfg first base floor origin got { t with legBase := place } u ∧ e ∉ misplaced →
      Stored cfg first base floor origin got u ∧ SameRows t u ∧ u.sourceStart = t.sourceStart ∧
        e ∉ misplaced := fun e u hu =>
    ⟨hu.1.stored, ⟨hu.1.rows.records, hu.1.rows.tail⟩, hu.1.leg.sourceStart, hu.2⟩
  refine ⟨fun _ => ⟨hstart, ⟨rfl, rfl⟩, trivial, by simp [misplaced]⟩, fun _ =>
    ⟨fun _ => ⟨hstart, ⟨rfl, rfl⟩, trivial, by simp [misplaced]⟩, fun _ => ?_⟩⟩
  refine wp_mono (wp_legAccess hstart (CaptureIntegrity.prepareLeg_effect hstart.integrity _ _)
    state_not_misplaced) (fun _ u hu => ?_) hfailed
  refine wp_mono (wp_refresh hu) (fun _ v hv => ?_) hfailed
  refine wp_mono (wp_durablePrefix hv) (fun _ w hw => ?_) hfailed
  exact ⟨hw.stored.same rfl rfl, ⟨hw.rows.records, hw.rows.tail⟩, hw.leg.legBase, trivial, trivial,
    hw.leg.sourceStart⟩

theorem wp_recordReadBegin [DecidableEq D] (h : Stored cfg first base floor origin got t)
    (notice : ReadBeginNotification) :
    wp (recordReadBegin notice) t (fun _ t' => Keeps cfg first base floor origin got t t')
      (fun e t' => Keeps cfg first base floor origin got t t' ∧ e ∉ misplaced) := by
  simp only [recordReadBegin, wp_bind]
  refine wp_mono (wp_legAccess h (CaptureIntegrity.recordReadBegin_effect h.integrity _ _)
    state_not_misplaced) (fun _ u hu => wp_refresh hu) (fun _ _ he => he)

theorem wp_stagingReadBegin [DecidableEq D] (h : Stored cfg first base floor origin got t)
    (notice : ReadBeginNotification) :
    wp (stagingReadBegin notice) t (fun _ t' => Keeps cfg first base floor origin got t t')
      (fun e t' => Keeps cfg first base floor origin got t t' ∧ e ∉ misplaced) := by
  simp only [stagingReadBegin, requireReadyForRead, wp_bind, wp_get, wp_refuseIf, wp_ite, wp_modify]
  refine ⟨fun _ => ⟨.refl h, state_not_misplaced _⟩, fun _ => ⟨fun _ => wp_recordReadBegin h notice,
    fun _ => ⟨fun _ => ⟨.refl h, state_not_misplaced _⟩, fun _ => ?_⟩⟩⟩
  exact wp_mono (wp_recordReadBegin h notice) (fun _ u hu => hu.trans
    (.fields hu.stored rfl rfl ⟨rfl, rfl, rfl, rfl⟩)) (fun _ _ he => he)

theorem wp_stagingInterrupt [DecidableEq D] (h : Stored cfg first base floor origin got t) :
    wp (stagingInterrupt : TargetM D Result) t
      (fun _ t' => Keeps cfg first base floor origin got t t')
      (fun e t' => Keeps cfg first base floor origin got t t' ∧ e ∉ misplaced) := by
  simp only [stagingInterrupt, requireReadyForData, requireReadyForRead, wp_bind, wp_get,
    wp_refuseIf, wp_modify]
  refine ⟨fun _ => ⟨.refl h, state_not_misplaced _⟩, fun _ =>
    ⟨fun _ => ⟨.refl h, state_not_misplaced _⟩, fun _ => ?_⟩⟩
  refine wp_mono (wp_legAccess h (CaptureIntegrity.interrupt_effect h.integrity)
    state_not_misplaced) (fun _ u hu => ?_) (fun _ _ he => he)
  refine wp_mono (wp_refresh hu) (fun _ v hv => ?_) (fun _ _ he => he)
  exact wp_durablePrefix (hv.trans (.fields hv.stored rfl rfl ⟨rfl, rfl, rfl, rfl⟩))

/-- The calls that append nothing and prepare no leg. -/
theorem wp_perform [DecidableEq D] (h : Stored cfg first base floor origin got t)
    {call : AttemptWriter.Call ReadBeginNotification}
    (hprepare : ∀ start count, call ≠ .prepareLeg start count)
    (happend : ∀ offset chunk following, call ≠ .appendChunk offset chunk following) :
    wp (perform cfg call) t (fun _ t' => Keeps cfg first base floor origin got t t')
      (fun e t' => Keeps cfg first base floor origin got t t' ∧ e ∉ misplaced) := by
  cases call with
  | prepare => exact wp_durablePrefix (.refl h)
  | prepareLeg start count => exact absurd rfl (hprepare start count)
  | readBegin notice =>
    simp only [perform, wp_bind, wp_pure]
    exact wp_stagingReadBegin h notice
  | appendChunk offset chunk following => exact absurd rfl (happend offset chunk following)
  | checkpoint =>
    simp only [perform, stagingCheckpoint, requireReadyForData, requireReadyForRead, wp_bind,
      wp_get, wp_refuseIf]
    exact ⟨fun _ => ⟨.refl h, state_not_misplaced _⟩, fun _ =>
      ⟨fun _ => ⟨.refl h, state_not_misplaced _⟩, fun _ => wp_durablePrefix (.refl h)⟩⟩
  | interrupt => exact wp_stagingInterrupt h
  | sealing notice => exact ⟨.refl h, by simp [misplaced]⟩
  | publishPrefix =>
    simp only [perform, requireReadyForRead, wp_bind, wp_get, wp_refuseIf]
    exact ⟨fun _ => ⟨.refl h, state_not_misplaced _⟩, fun _ => wp_durablePrefix (.refl h)⟩
  | close =>
    simp only [perform, wp_bind, wp_modify, wp_pure]
    exact .fields h rfl rfl ⟨rfl, rfl, rfl, rfl⟩

end Stored

end StagingTarget
