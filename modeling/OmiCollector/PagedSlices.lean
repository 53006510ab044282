import OmiCollector.CaptureRows
import OmiCollector.Checks
import OmiCollector.PublicationGroups

/-! Slices as the collector builds them: records come from a reader page by page, and a slice
keeps the digest, the packet count and the framing that one pass over its records has computed.

The pages are a matter of reading alone. Over readable rows every page limit yields the slices of
`TypedSlices`, with the facts of their records. -/
namespace PagedSlices

open ByteCodec CaptureModel CaptureRows KeyedTable SpanCover TypedSlices SlicePartition
open PublicationGroups PublicationLedger

/-- `ReadyBundleError`, its two conflict classes, the conflict of one admission,
`ReadyDurabilityFatalError`, and the errors that Python itself raises. -/
inductive ReadyError where
  | bundle (message : String)
  | overlapConflict (message : String)
  | custodyConflict (message : String)
  | admissionConflict (sourceId : ℕ) (message : String)
  | durabilityFatal (message : String)
  | valueError (message : String)
  | keyError
  | indexError
  deriving DecidableEq, Repr

/-- What a generator yields before it is exhausted or raises. -/
structure Generated where
  records : List CaptureRecord
  failure : Option ReadyError

variable {D : Type} [DecidableEq D]

/-- One page of the reader from an ordinal on, with the snapshot check that follows it. -/
def sourcePage (sources : Table ℕ (SourceRow D)) (a : Admission D) (next limit : ℕ) :
    Except ReadyError (List CaptureRecord) :=
  match sources.get a.sourceId with
  | none => .error (.bundle "typed publication source disappeared")
  | some row =>
    if ¬ snapshotCurrent row.source a then
      .error (.bundle "typed publication source identity changed")
    else .ok (CaptureStore.recordPage row.records (next - 1) limit)

/-- The record loop of one page. -/
def yieldPage (stop : ℕ) : ℕ → List CaptureRecord → Generated
  | _, [] => ⟨[], none⟩
  | next, record :: page =>
    if record.ordinal ≠ next ∨ stop ≤ record.ordinal then
      ⟨[], some (.bundle "typed source page range is invalid")⟩
    else
      let rest := yieldPage stop (next + 1) page
      ⟨record :: rest.records, rest.failure⟩

/-- The page loop. Every page that is accepted yields a record, so `stop - next` rounds do. -/
def yieldPages (sources : Table ℕ (SourceRow D)) (a : Admission D) (pageLimit stop : ℕ) :
    ℕ → ℕ → Generated
  | 0, _ => ⟨[], none⟩
  | fuel + 1, next =>
    if stop ≤ next then ⟨[], none⟩
    else
      let requested := min pageLimit (stop - next)
      match sourcePage sources a next requested with
      | .error e => ⟨[], some e⟩
      | .ok page =>
        if page = [] ∨ requested < page.length then
          ⟨[], some (.bundle "typed source page ended before its frozen slice")⟩
        else
          let yielded := yieldPage stop next page
          match yielded.failure with
          | some e => ⟨yielded.records, some e⟩
          | none =>
            let rest := yieldPages sources a pageLimit stop fuel (next + yielded.records.length)
            ⟨yielded.records ++ rest.records, rest.failure⟩

def typedRecords (sources : Table ℕ (SourceRow D)) (a : Admission D) (start count pageLimit : ℕ) :
    Generated :=
  if a.admittedCount < start + count then
    ⟨[], some (.bundle "typed source slice is outside its admitted prefix")⟩
  else yieldPages sources a pageLimit (start + count) count start

structure TypedSlice (D : Type) where
  admission : Admission D
  startOrdinal : ℕ
  recordCount : ℕ
  startSequence : ℕ
  nextSequence : ℕ
  rawSha256 : D
  firstSize : ℕ
  finalOverflowSize : Option ℕ
  audioPackets : ℕ
  continuityBreaks : List ℕ
  deriving DecidableEq

/-- The local variables of `_typed_slice`; the digest is kept as what was hashed so far. -/
structure SliceScan where
  hashed : Bytes
  audioPackets : ℕ
  firstSize : ℕ
  previousOverflow : Option ℕ
  breaks : List ℕ
  seen : ℕ

def SliceScan.start : SliceScan := ⟨[], 0, 0, none, [], 0⟩

def scanRecord (codec : Codec D) (a : Admission D) (scan : SliceScan) (record : CaptureRecord) :
    Except ReadyError SliceScan :=
  match codec.inspectRecord false record.rawBytes with
  | none => .error (.bundle "typed source contains an invalid 20 ms Opus packet")
  | some layout => .ok
    { hashed := scan.hashed ++ record.rawBytes
      audioPackets := scan.audioPackets + layout.packetCount
      firstSize := if scan.seen = 0 then layout.firstSize else scan.firstSize
      previousOverflow := layout.overflowSize
      breaks :=
        if scan.seen ≠ 0 ∧ scan.previousOverflow.isSome ∧
            scan.previousOverflow ≠ some layout.firstSize then
          scan.breaks ++ [a.sequenceStart + record.ordinal]
        else scan.breaks
      seen := scan.seen + 1 }

def typedSlice (codec : Codec D) (sources : Table ℕ (SourceRow D)) (a : Admission D)
    (start count pageLimit : ℕ) : Except ReadyError (TypedSlice D) := do
  let yielded := typedRecords sources a start count pageLimit
  let scan ← yielded.records.foldlM (scanRecord codec a) SliceScan.start
  match yielded.failure with
  | some e => .error e
  | none =>
    if scan.seen ≠ count then
      .error (.bundle "typed source slice ended before its frozen count")
    else return {
      admission := a
      startOrdinal := start
      recordCount := count
      startSequence := a.sequenceStart + start
      nextSequence := a.sequenceStart + start + count
      rawSha256 := codec.sha256 scan.hashed
      firstSize := scan.firstSize
      finalOverflowSize := scan.previousOverflow
      audioPackets := scan.audioPackets
      continuityBreaks := scan.breaks }

def cropTypedSlice (codec : Codec D) (sources : Table ℕ (SourceRow D)) (pageLimit : ℕ)
    (source : TypedSlice D) (start stop : ℕ) : Except ReadyError (TypedSlice D) :=
  if ¬ (source.startSequence ≤ start ∧ start < stop ∧ stop ≤ source.nextSequence) then
    .error (.bundle "typed source crop is invalid")
  else if start = source.startSequence ∧ stop = source.nextSequence then .ok source
  else
    typedSlice codec sources source.admission
      (source.startOrdinal + (start - source.startSequence)) (stop - start) pageLimit

/-! ### Grouping -/

/-- The cuts of one slice at its continuity breaks. -/
def cropAt (codec : Codec D) (sources : Table ℕ (SourceRow D)) (pageLimit : ℕ)
    (item : TypedSlice D) : ℕ → List ℕ → Except ReadyError (List (TypedSlice D))
  | _, [] => .ok []
  | cursor, boundary :: rest => do
    let piece ← cropTypedSlice codec sources pageLimit item cursor boundary
    let later ← cropAt codec sources pageLimit item boundary rest
    return piece :: later

/-- One round of the grouping loop: `groups` ends with the group that holds `previous`. -/
def groupStep (groups : List (List (TypedSlice D))) (item : TypedSlice D) :
    List (List (TypedSlice D)) :=
  match groups.getLast? with
  | none => [[item]]
  | some last =>
    match last.getLast? with
    | none => groups.dropLast ++ [last ++ [item]]
    | some previous =>
      if previous.nextSequence ≠ item.startSequence ∨
          (previous.finalOverflowSize.isSome ∧
            previous.finalOverflowSize ≠ some item.firstSize) then
        groups ++ [[item]]
      else groups.dropLast ++ [last ++ [item]]

def typedPhysicalGroups (codec : Codec D) (sources : Table ℕ (SourceRow D)) (pageLimit : ℕ)
    (slices : List (TypedSlice D)) : Except ReadyError (List (List (TypedSlice D))) := do
  let physical ← slices.mapM fun item =>
    cropAt codec sources pageLimit item item.startSequence
      (item.continuityBreaks ++ [item.nextSequence])
  return physical.flatten.foldl groupStep []

/-- The packet total of a group. -/
def packetsOf (group : List (TypedSlice D)) : ℕ := (group.map (·.audioPackets)).sum

def v2PhysicalGroups (codec : Codec D) (sources : Table ℕ (SourceRow D)) (pageLimit : ℕ)
    (slices : List (TypedSlice D)) : Except ReadyError (List (List (TypedSlice D))) := do
  let groups ← typedPhysicalGroups codec sources pageLimit slices
  return RunGroups.mergeWeightless packetsOf groups

/-! ### Held admissions -/

/-- The rows of an admission's frozen prefix. -/
def admittedRows (sources : Table ℕ (SourceRow D)) (a : Admission D) : List CaptureRecord :=
  (((sources.get a.sourceId).map (·.records)).getD []).take a.admittedCount

/-- The source of an admission is unchanged and still has the admitted rows. -/
structure Held (sources : Table ℕ (SourceRow D)) (a : Admission D) : Prop where
  current : ∃ row, sources.get a.sourceId = some row ∧ snapshotCurrent row.source a ∧
    Contiguous 0 row.records ∧ a.admittedCount ≤ row.records.length

variable {codec : Codec D} {sources : Table ℕ (SourceRow D)} {a : Admission D}

omit [DecidableEq D] in
theorem Held.rows (h : Held sources a) :
    Contiguous 0 (admittedRows sources a) ∧ (admittedRows sources a).length = a.admittedCount := by
  obtain ⟨row, hrow, -, hcont, hlen⟩ := h.current
  simp only [admittedRows, hrow, Option.map_some, Option.getD_some, List.length_take]
  exact ⟨hcont.take _, by omega⟩

/-- A page of consecutive rows is yielded whole. -/
theorem yieldPage_eq {stop next : ℕ} {page : List CaptureRecord} (h : Contiguous next page)
    (hstop : next + page.length ≤ stop) : yieldPage stop next page = ⟨page, none⟩ := by
  induction page generalizing next with
  | nil => rfl
  | cons record page ih =>
    obtain ⟨hord, hrest⟩ := contiguous_cons.mp h
    simp only [List.length_cons] at hstop
    have hok : ¬ (record.ordinal ≠ next ∨ stop ≤ record.ordinal) := by omega
    rw [yieldPage, if_neg hok, ih hrest (by omega)]

/-- The page loop yields the rows up to the stop, whatever the page limit. -/
theorem yieldPages_eq {row : SourceRow D} (hrow : sources.get a.sourceId = some row)
    (hcurrent : snapshotCurrent row.source a) (hcont : Contiguous 0 row.records) {pageLimit stop : ℕ}
    (hlimit : 1 ≤ pageLimit) (hstop : stop ≤ row.records.length) {fuel next : ℕ}
    (hfuel : stop - next ≤ fuel) :
    yieldPages sources a pageLimit stop fuel next =
      ⟨(row.records.drop next).take (stop - next), none⟩ := by
  induction fuel generalizing next with
  | zero =>
    have hzero : stop - next = 0 := by omega
    rw [yieldPages, hzero, List.take_zero]
  | succ fuel ih =>
    by_cases hdone : stop ≤ next
    · rw [yieldPages, if_pos hdone, Nat.sub_eq_zero_of_le hdone, List.take_zero]
    · obtain ⟨requested, hrequested⟩ : ∃ r, r = min pageLimit (stop - next) := ⟨_, rfl⟩
      obtain ⟨page, hpage⟩ : ∃ page, page = (row.records.drop next).take requested := ⟨_, rfl⟩
      have hread : sourcePage sources a next requested = .ok page := by
        simp only [sourcePage, hrow, hcurrent, not_true_eq_false, if_false, hcont.recordPage, hpage]
      have hlen : page.length = requested := by
        rw [hpage, List.length_take, List.length_drop]
        omega
      have hpos : 0 < requested := by omega
      have hgood : ¬ (page = [] ∨ requested < page.length) := by
        rw [← List.length_eq_zero_iff]
        omega
      have hyield : yieldPage stop next page = ⟨page, none⟩ := by
        refine yieldPage_eq ?_ (by omega)
        have := (hcont.drop (by omega : next ≤ row.records.length)).take requested
        rwa [Nat.zero_add, ← hpage] at this
      have hrest := @ih (next + page.length) (by omega)
      simp only [yieldPages, hdone, if_false, ← hrequested, hread, hgood, hyield, hrest]
      rw [hlen, ← List.drop_drop, hpage, Generated.mk.injEq]
      refine ⟨?_, rfl⟩
      have hsplit : stop - next = requested + (stop - (next + requested)) := by omega
      rw [hsplit, List.take_add]

/-- Reading a range of a held admission yields its rows. -/
theorem Held.typedRecords (h : Held sources a) {start count pageLimit : ℕ}
    (hlimit : 1 ≤ pageLimit) (hcount : start + count ≤ a.admittedCount) :
    typedRecords sources a start count pageLimit =
      ⟨((admittedRows sources a).drop start).take count, none⟩ := by
  obtain ⟨row, hrow, hcurrent, hcont, hlen⟩ := h.current
  rw [PagedSlices.typedRecords, if_neg (by omega),
    yieldPages_eq hrow hcurrent hcont hlimit (by omega) (by omega)]
  simp only [admittedRows, hrow, Option.map_some, Option.getD_some, Generated.mk.injEq, and_true,
    List.drop_take, List.take_take]
  congr 1
  omega

/-! ### The facts of a slice -/

/-- Where a record does not take up what its predecessor left over, from sequence `x` on. -/
def breaksFrom (codec : Codec D) : ℕ → List Bytes → List ℕ
  | x, previous :: raw :: rest =>
    if continues codec previous raw then breaksFrom codec (x + 1) (raw :: rest)
    else (x + 1) :: breaksFrom codec (x + 1) (raw :: rest)
  | _, _ => []

/-- A slice with what one pass over its own records computes. -/
def factsOf (codec : Codec D) (s : Slice D) : TypedSlice D where
  admission := s.admission
  startOrdinal := s.startOrdinal
  recordCount := s.recordCount
  startSequence := s.startSequence
  nextSequence := s.nextSequence
  rawSha256 := s.rawSha256 codec
  firstSize := sliceFirstSize codec s
  finalOverflowSize := PublicationGroups.finalOverflowSize codec s
  audioPackets := PublicationGroups.audioPackets codec s
  continuityBreaks := breaksFrom codec s.startSequence s.records

omit [DecidableEq D] in
theorem breaksFrom_concat (x : ℕ) (records : List Bytes) (raw : Bytes) :
    breaksFrom codec x (records ++ [raw]) = breaksFrom codec x records ++
      records.getLast?.elim [] fun previous =>
        if continues codec previous raw then [] else [x + records.length] := by
  induction records generalizing x with
  | nil => rfl
  | cons r records ih =>
    cases records with
    | nil => by_cases hc : continues codec r raw <;> simp [breaksFrom, hc]
    | cons r' records =>
      have hx : x + 1 + (r' :: records).length = x + (r :: r' :: records).length := by
        simp only [List.length_cons]
        omega
      have := ih (x + 1)
      simp only [List.cons_append] at this ⊢
      rw [breaksFrom, breaksFrom, this, List.getLast?_cons_cons, hx]
      by_cases hc : continues codec r r' <;> simp [hc]

/-- The scan after some records from ordinal `start` on. -/
def scanOf (codec : Codec D) (a : Admission D) (start : ℕ) (records : List Bytes) : SliceScan where
  hashed := records.flatten
  audioPackets := (records.map (recordPackets codec)).sum
  firstSize := (records.head?.map (PublicationGroups.firstSize codec)).getD 0
  previousOverflow := records.getLast?.bind (overflowSize codec)
  breaks := breaksFrom codec (a.sequenceStart + start) records
  seen := records.length

omit [DecidableEq D] in
theorem scanRecord_eq {start : ℕ} {records : List Bytes} {record : CaptureRecord}
    (hframed : (codec.inspectRecord false record.rawBytes).isSome)
    (hord : record.ordinal = start + records.length) :
    scanRecord codec a (scanOf codec a start records) record =
      .ok (scanOf codec a start (records ++ [record.rawBytes])) := by
  obtain ⟨layout, hlayout⟩ := Option.isSome_iff_exists.mp hframed
  simp only [scanRecord, hlayout, Except.ok.injEq, scanOf, SliceScan.mk.injEq]
  refine ⟨by simp, by simp [recordPackets, hlayout], ?_, by simp [overflowSize, hlayout], ?_, by simp⟩
  · cases records with
    | nil => simp [PublicationGroups.firstSize, hlayout]
    | cons r records => simp
  · rw [breaksFrom_concat]
    rcases List.eq_nil_or_concat' records with rfl | ⟨init, previous, rfl⟩
    · simp
    · have hsize : PublicationGroups.firstSize codec record.rawBytes = layout.firstSize := by
        simp [PublicationGroups.firstSize, hlayout]
      rw [hord, ← add_assoc]
      simp only [List.getLast?_concat, Option.bind_some, Option.elim_some, continues, hsize,
        List.length_append, List.length_singleton]
      cases overflowSize codec previous with
      | none => simp
      | some size => by_cases heq : size = layout.firstSize <;> simp [heq]

omit [DecidableEq D] in
/-- The pass over framed consecutive records computes the facts of each prefix. -/
theorem foldlM_scanRecord {start : ℕ} (done : List Bytes) {rows : List CaptureRecord}
    (hframed : ∀ r ∈ rows, (codec.inspectRecord false r.rawBytes).isSome)
    (hcont : Contiguous (start + done.length) rows) :
    rows.foldlM (scanRecord codec a) (scanOf codec a start done) =
      .ok (scanOf codec a start (done ++ rows.map (·.rawBytes))) := by
  induction rows generalizing done with
  | nil =>
    rw [List.map_nil, List.append_nil]
    rfl
  | cons record rows ih =>
    obtain ⟨hord, hrest⟩ := contiguous_cons.mp hcont
    rw [List.foldlM_cons, scanRecord_eq (hframed record (by simp)) hord]
    have hlen : start + done.length + 1 = start + (done ++ [record.rawBytes]).length := by simp; omega
    have := ih (done ++ [record.rawBytes]) (fun r hr => hframed r (by simp [hr])) (hlen ▸ hrest)
    simpa using this

/-- The slice of a range of a held admission. -/
def heldSlice (sources : Table ℕ (SourceRow D)) (a : Admission D) (start count : ℕ) : Slice D :=
  ⟨a, start, (((admittedRows sources a).drop start).take count).map (·.rawBytes)⟩

omit [DecidableEq D] in
theorem recordCount_heldSlice (h : Held sources a) {start count : ℕ}
    (hcount : start + count ≤ a.admittedCount) :
    (heldSlice sources a start count).recordCount = count := by
  have := h.rows.2
  simp only [heldSlice, Slice.recordCount, List.length_map, List.length_take, List.length_drop]
  omega

/-- Building a slice of a held admission from framed records gives their facts. -/
theorem Held.typedSlice (h : Held sources a) {start count pageLimit : ℕ}
    (hlimit : 1 ≤ pageLimit) (hcount : start + count ≤ a.admittedCount)
    (hframed : ∀ raw ∈ (heldSlice sources a start count).records,
      (codec.inspectRecord false raw).isSome) :
    typedSlice codec sources a start count pageLimit =
      .ok (factsOf codec (heldSlice sources a start count)) := by
  obtain ⟨rows, hrows⟩ : ∃ rows, rows = ((admittedRows sources a).drop start).take count := ⟨_, rfl⟩
  have hcont : Contiguous start rows := by
    have := (h.rows.1.drop (by rw [h.rows.2]; omega : start ≤ _)).take count
    rwa [Nat.zero_add, ← hrows] at this
  have hframed : ∀ r ∈ rows, (codec.inspectRecord false r.rawBytes).isSome := by
    intro r hr
    exact hframed _ (List.mem_map.mpr ⟨r, hrows ▸ hr, rfl⟩)
  have hscan : rows.foldlM (scanRecord codec a) (scanOf codec a start []) =
      .ok (scanOf codec a start ([] ++ rows.map (·.rawBytes))) :=
    foldlM_scanRecord [] hframed (by simpa using hcont)
  have hstart : scanOf codec a start [] = SliceScan.start := rfl
  have hlen := recordCount_heldSlice h hcount
  have hslice : heldSlice sources a start count = ⟨a, start, rows.map (·.rawBytes)⟩ := by
    rw [heldSlice, hrows]
  rw [hslice] at hlen
  rw [hstart, List.nil_append] at hscan
  rw [hslice]
  simp only [PagedSlices.typedSlice, h.typedRecords hlimit hcount, ← hrows, hscan]
  have hseen : (scanOf codec a start (rows.map (·.rawBytes))).seen = count := hlen
  simp only [bind, Except.bind, hseen, ne_eq, not_true_eq_false, if_false, pure, Except.pure,
    Except.ok.injEq, factsOf, TypedSlice.mk.injEq]
  refine ⟨trivial, trivial, hlen.symm, rfl, ?_, rfl, rfl, rfl, rfl, rfl⟩
  unfold Slice.nextSequence
  rw [hlen]
  rfl

/-! ### Crops and groups of held slices -/

/-- A slice is a range of a held admission, with its rows, all of them framed. -/
structure IsHeld (codec : Codec D) (sources : Table ℕ (SourceRow D)) (s : Slice D) : Prop where
  held : Held sources s.admission
  bound : s.startOrdinal + s.recordCount ≤ s.admission.admittedCount
  rows : s = heldSlice sources s.admission s.startOrdinal s.recordCount
  framed : ∀ raw ∈ s.records, (codec.inspectRecord false raw).isSome

omit [DecidableEq D] in
theorem isHeld_heldSlice (h : Held sources a) {start count : ℕ}
    (hcount : start + count ≤ a.admittedCount)
    (hframed : ∀ raw ∈ (heldSlice sources a start count).records,
      (codec.inspectRecord false raw).isSome) :
    IsHeld codec sources (heldSlice sources a start count) := by
  have hlen := recordCount_heldSlice h hcount
  exact ⟨h, by rw [hlen]; exact hcount, by rw [hlen]; rfl, hframed⟩

omit [DecidableEq D] in
/-- A crop of a held slice is the range it spans. -/
theorem IsHeld.crop {s : Slice D} (h : IsHeld codec sources s) {span : Span}
    (hin : span.Inside s.span) (hle : span.start ≤ span.stop) :
    s.crop span = heldSlice sources s.admission
        (s.startOrdinal + (span.start - s.startSequence)) (span.stop - span.start) ∧
      IsHeld codec sources (s.crop span) := by
  have h1 : s.startSequence ≤ span.start := hin.1
  have h2 : span.stop ≤ s.startSequence + s.recordCount := hin.2
  have hcrop : s.crop span = heldSlice sources s.admission
      (s.startOrdinal + (span.start - s.startSequence)) (span.stop - span.start) := by
    have hrecords : s.records =
        (((admittedRows sources s.admission).drop s.startOrdinal).take s.recordCount).map
          (·.rawBytes) := congrArg Slice.records h.rows
    simp only [Slice.crop, heldSlice, Slice.mk.injEq, true_and, Slice.recordsIn]
    rw [hrecords]
    simp only [← List.map_drop, ← List.map_take, List.drop_take, List.take_take, List.drop_drop]
    congr 2
    omega
  have hframed : ∀ raw ∈ (s.crop span).records, (codec.inspectRecord false raw).isSome :=
    fun raw hr => h.framed raw (List.mem_of_mem_drop (List.mem_of_mem_take hr))
  rw [hcrop] at hframed ⊢
  have := h.bound
  exact ⟨rfl, isHeld_heldSlice h.held (by omega) hframed⟩

omit [DecidableEq D] in
theorem crop_span (s : Slice D) : s.crop s.span = s := by
  have hstart : s.span.start - s.startSequence = 0 := Nat.sub_self _
  have hlen : s.span.stop - s.span.start = s.records.length := by
    simp [Slice.span, Slice.nextSequence, Slice.recordCount]
  simp [Slice.crop, Slice.recordsIn, hstart, hlen]

/-- Cropping a held slice again reads the facts of its part. -/
theorem cropTypedSlice_eq {s : Slice D} (h : IsHeld codec sources s) {pageLimit : ℕ}
    (hlimit : 1 ≤ pageLimit) {span : Span} (hin : span.Inside s.span)
    (hlt : span.start < span.stop) :
    cropTypedSlice codec sources pageLimit (factsOf codec s) span.start span.stop =
      .ok (factsOf codec (s.crop span)) := by
  have h1 : s.startSequence ≤ span.start := hin.1
  have h2 : span.stop ≤ s.nextSequence := hin.2
  have hvalid : ¬ ¬ ((factsOf codec s).startSequence ≤ span.start ∧ span.start < span.stop ∧
      span.stop ≤ (factsOf codec s).nextSequence) := not_not.mpr ⟨h1, hlt, h2⟩
  rw [cropTypedSlice, if_neg hvalid]
  split
  · rename_i hfull
    have hspan : span = s.span := by
      cases span
      exact congrArg₂ Span.mk hfull.1 hfull.2
    rw [hspan, crop_span]
  · obtain ⟨hcrop, hpart⟩ := h.crop hin hlt.le
    rw [hcrop] at hpart ⊢
    have hb := hpart.bound
    have hnext : s.nextSequence = s.startSequence + s.recordCount := rfl
    have hbound := h.bound
    exact h.held.typedSlice hlimit (by
      have : (factsOf codec s).startOrdinal + (span.start - (factsOf codec s).startSequence) =
        s.startOrdinal + (span.start - s.startSequence) := rfl
      omega) hpart.framed

/-- Where the runs of a list of records end, from sequence `x` on. -/
def endsFrom : ℕ → List (List Bytes) → List ℕ
  | _, [] => []
  | x, run :: runs => (x + run.length) :: endsFrom (x + run.length) runs

omit [DecidableEq D] in
theorem breaksFrom_chain {records : List Bytes} (x : ℕ)
    (h : records.IsChain fun a b => continues codec a b) : breaksFrom codec x records = [] := by
  induction records generalizing x with
  | nil => rfl
  | cons r records ih =>
    cases records with
    | nil => rfl
    | cons r' records =>
      obtain ⟨hc, hrest⟩ := List.isChain_cons_cons.mp h
      rw [breaksFrom, if_pos hc, ih (x + 1) hrest]

omit [DecidableEq D] in
theorem breaksFrom_append {left right : List Bytes} (x : ℕ) (hl : left ≠ []) (hr : right ≠ [])
    (hbreak : continues codec (left.getLast hl) (right.head hr) = false) :
    breaksFrom codec x (left ++ right) =
      breaksFrom codec x left ++ (x + left.length) :: breaksFrom codec (x + left.length) right := by
  obtain ⟨first, right, rfl⟩ := List.exists_cons_of_ne_nil hr
  induction left generalizing x with
  | nil => exact absurd rfl hl
  | cons r left ih =>
    cases left with
    | nil =>
      simp only [List.getLast_singleton, List.head_cons] at hbreak
      simp [breaksFrom, hbreak]
    | cons r' left =>
      have hx : x + 1 + (r' :: left).length = x + (r :: r' :: left).length := by
        simp only [List.length_cons]
        omega
      have := ih (x + 1) (by simp) (by simpa using hbreak)
      simp only [List.cons_append] at this ⊢
      rw [breaksFrom, breaksFrom, this, hx]
      by_cases hc : continues codec r r' <;> simp [hc]

omit [DecidableEq D] in
/-- The continuity breaks and the end of a slice are the ends of its continuous runs. -/
theorem breaksFrom_splitBy {records : List Bytes} (x : ℕ) (hne : records ≠ []) :
    breaksFrom codec x records ++ [x + records.length] =
      endsFrom x (records.splitBy (continues codec)) := by
  obtain ⟨runs, hruns⟩ : ∃ runs, runs = records.splitBy (continues codec) := ⟨_, rfl⟩
  have hruns' : runs ≠ [] := by
    rw [hruns]
    exact List.splitBy_ne_nil.mpr hne
  rw [← hruns]
  obtain ⟨rfl, hmem, hchain, hmeet⟩ := List.splitBy_eq_iff.mp hruns.symm
  clear hruns hne
  induction runs generalizing x with
  | nil => exact absurd rfl hruns'
  | cons run runs ih =>
    have hrun : breaksFrom codec x run = [] := breaksFrom_chain x (hchain run (by simp))
    cases runs with
    | nil => simp [endsFrom, hrun]
    | cons run' runs =>
      obtain ⟨⟨h1, h2, hbreak⟩, hmeet'⟩ := List.isChain_cons_cons.mp hmeet
      have htail := ih (x + run.length) (by simp) (fun h => hmem (List.mem_cons_of_mem _ h))
        (fun m hm => hchain m (List.mem_cons_of_mem _ hm)) hmeet'
      have hflat : (run' :: runs).flatten ≠ [] := by simp [h2]
      have hhead : (run' :: runs).flatten.head hflat = run'.head h2 := by
        simp only [List.flatten_cons]
        exact List.head_append_of_ne_nil h2
      rw [List.flatten_cons, breaksFrom_append x h1 hflat (by rw [hhead]; exact hbreak), hrun,
        List.length_append, List.nil_append, List.cons_append, ← Nat.add_assoc, htail]
      rfl

/-- Cutting the rest of a held slice at the ends of runs of its records gives those runs. -/
theorem cropAt_eq {s : Slice D} (h : IsHeld codec sources s) {pageLimit : ℕ}
    (hlimit : 1 ≤ pageLimit) {runs : List (List Bytes)} (hruns : ∀ run ∈ runs, run ≠ []) {k : ℕ}
    (hk : s.records.drop k = runs.flatten) (hbound : k ≤ s.records.length) :
    cropAt codec sources pageLimit (factsOf codec s) (s.startSequence + k)
        (endsFrom (s.startSequence + k) runs) =
      .ok ((piecesFrom s.admission (s.startOrdinal + k) runs).map (factsOf codec)) := by
  induction runs generalizing k with
  | nil => rfl
  | cons run runs ih =>
    have hpos : 0 < run.length := List.length_pos_iff.mpr (hruns run (by simp))
    have hlen : run.length ≤ s.records.length - k := by
      have := congrArg List.length hk
      simp only [List.length_drop, List.flatten_cons, List.length_append] at this
      omega
    have hin : (⟨s.startSequence + k, s.startSequence + k + run.length⟩ : Span).Inside s.span := by
      refine ⟨by simp [Slice.span], ?_⟩
      simp only [Slice.span, nextSequence_eq]
      omega
    have hpiece : s.crop ⟨s.startSequence + k, s.startSequence + k + run.length⟩ =
        ⟨s.admission, s.startOrdinal + k, run⟩ := by
      simp [Slice.crop, Slice.recordsIn, hk]
    have hone := cropTypedSlice_eq h hlimit hin (by simpa using hpos)
    rw [hpiece] at hone
    have hrest := ih (fun run hr => hruns run (List.mem_cons_of_mem _ hr)) (k := k + run.length)
      (by rw [← List.drop_drop, hk]; simp) (by omega)
    simp only [← Nat.add_assoc] at hrest
    simp only [endsFrom, cropAt, hone, hrest, bind, Except.bind, pure, Except.pure]
    rfl

/-- A held slice is cut into its pieces. -/
theorem cropAt_pieces {s : Slice D} (h : IsHeld codec sources s) (hne : s.records ≠ [])
    {pageLimit : ℕ} (hlimit : 1 ≤ pageLimit) :
    cropAt codec sources pageLimit (factsOf codec s) s.startSequence
        ((factsOf codec s).continuityBreaks ++ [s.nextSequence]) =
      .ok ((pieces codec s).map (factsOf codec)) := by
  have hends : breaksFrom codec s.startSequence s.records ++ [s.nextSequence] =
      endsFrom s.startSequence (s.records.splitBy (continues codec)) :=
    breaksFrom_splitBy s.startSequence hne
  have hruns : ∀ run ∈ s.records.splitBy (continues codec), run ≠ [] :=
    fun run hr => List.ne_nil_of_mem_splitBy hr
  have hcut := cropAt_eq h hlimit hruns (k := 0) (by simp) (by simp)
  rw [Nat.add_zero, ← hends] at hcut
  exact hcut

def joined (previous item : TypedSlice D) : Bool :=
  previous.nextSequence = item.startSequence ∧ (previous.finalOverflowSize = none ∨
    previous.finalOverflowSize = some item.firstSize)

omit [DecidableEq D] in
theorem groupStep_eq (groups : List (List (TypedSlice D))) (item : TypedSlice D) :
    groupStep groups item = RunGroups.appendBy joined groups item := by
  rcases List.eq_nil_or_concat' groups with rfl | ⟨groups, last, rfl⟩
  · rfl
  · rcases List.eq_nil_or_concat' last with rfl | ⟨last, previous, rfl⟩
    · simp [groupStep, RunGroups.appendBy]
    · rw [RunGroups.appendBy_concat]
      simp only [groupStep, List.getLast?_concat, List.dropLast_concat]
      by_cases hnext : previous.nextSequence = item.startSequence
      · cases hoverflow : previous.finalOverflowSize with
        | none => simp [joined, hnext, hoverflow]
        | some size => by_cases hsize : size = item.firstSize <;> simp [joined, hnext, hoverflow, hsize]
      · simp [joined, hnext]

/-- The physical groups of held slices are the facts of the groups of their pieces. -/
theorem typedPhysicalGroups_eq {slices : List (Slice D)}
    (h : ∀ s ∈ slices, IsHeld codec sources s ∧ s.records ≠ []) {pageLimit : ℕ}
    (hlimit : 1 ≤ pageLimit) :
    typedPhysicalGroups codec sources pageLimit (slices.map (factsOf codec)) =
      .ok ((PublicationGroups.typedPhysicalGroups codec slices).map (·.map (factsOf codec))) := by
  have hcut : ((slices.map (factsOf codec)).mapM fun item =>
      cropAt codec sources pageLimit item item.startSequence
        (item.continuityBreaks ++ [item.nextSequence])) =
      .ok (slices.map fun s => (pieces codec s).map (factsOf codec)) := by
    rw [Checks.mapM_eq_ok, List.forall₂_map_left_iff, List.forall₂_map_right_iff,
      List.forall₂_same]
    intro s hs
    exact cropAt_pieces (h s hs).1 (h s hs).2 hlimit
  have hflat : (slices.map fun s => (pieces codec s).map (factsOf codec)).flatten =
      (slices.flatMap (pieces codec)).map (factsOf codec) := by
    rw [List.map_flatMap, List.flatMap_def]
  have hstep : (groupStep : List (List (TypedSlice D)) → _) = RunGroups.appendBy joined :=
    funext fun groups => funext (groupStep_eq groups)
  simp only [typedPhysicalGroups, hcut, bind, Except.bind, pure, Except.pure, hflat, hstep,
    RunGroups.foldl_appendBy, RunGroups.splitBy_map]
  rfl

/-- The published groups of held slices are the facts of the groups of their records. -/
theorem v2PhysicalGroups_eq {slices : List (Slice D)}
    (h : ∀ s ∈ slices, IsHeld codec sources s ∧ s.records ≠ []) {pageLimit : ℕ}
    (hlimit : 1 ≤ pageLimit) :
    v2PhysicalGroups codec sources pageLimit (slices.map (factsOf codec)) =
      .ok ((PublicationGroups.v2PhysicalGroups codec slices).map (·.map (factsOf codec))) := by
  have hweight : ∀ g ∈ PublicationGroups.typedPhysicalGroups codec slices,
      packetsOf (g.map (factsOf codec)) = groupPackets codec g := by
    intro g _
    simp only [packetsOf, groupPackets, List.map_map]
    rfl
  simp only [v2PhysicalGroups, typedPhysicalGroups_eq h hlimit, bind, Except.bind, pure,
    Except.pure, RunGroups.mergeWeightless_map hweight]
  rfl

end PagedSlices
