import Mathlib.Algebra.Order.BigOperators.Group.List
import OmiCollector.SealedSources

/-! The grouping law: groups partition the records of the slices at breaks of the stream, and the
records that remain after some groups are grouped as before, however they are sliced again. -/
namespace ResumedGroups

open ByteCodec CaptureModel KeyedTable SpanCover TypedSlices SlicePartition PublicationGroups
open RunGroups PagedSlices
open SealedSources (emptyRecord packetRecord sealedAdmission sealedRow)

variable {D : Type} {codec : Codec D}

/-- Two neighbouring records that a break separates: a sequence is missing between them, or the
right one does not take up what the left one leaves over. -/
def BrokenAt (codec : Codec D) (left right : ℕ × Bytes) : Prop :=
  left.1 + 1 ≠ right.1 ∨
    ∃ size, overflowSize codec left.2 = some size ∧ size ≠ firstSize codec right.2

theorem follows_eq_false {left right : ℕ × Bytes} :
    follows codec left right = false ↔ BrokenAt codec left right := by
  unfold follows continues BrokenAt
  cases overflowSize codec left.2 with
  | none => simp
  | some size =>
    by_cases h : left.1 + 1 = right.1 <;> simp [h]

theorem entriesOf_flatten (groups : List (List (Slice D))) :
    entriesOf groups.flatten = (groups.map entriesOf).flatten := by
  unfold entriesOf
  exact flatMap_flatten _ groups

/-- A piece of a slice is a crop of it. -/
theorem piecesFrom_crop {s : Slice D} {runs : List (List Bytes)} (hruns : ∀ run ∈ runs, run ≠ [])
    {k : ℕ} (hk : s.records.drop k = runs.flatten) (hbound : k ≤ s.records.length) {t : Slice D}
    (ht : t ∈ piecesFrom s.admission (s.startOrdinal + k) runs) :
    ∃ span : Span, span.Inside s.span ∧ span.start < span.stop ∧ t = s.crop span := by
  induction runs generalizing k with
  | nil => simp [piecesFrom] at ht
  | cons run runs ih =>
    have hpos : 0 < run.length := List.length_pos_iff.mpr (hruns run (by simp))
    have hlen : run.length ≤ s.records.length - k := by
      have := congrArg List.length hk
      simp only [List.length_drop, List.flatten_cons, List.length_append] at this
      omega
    rcases List.mem_cons.mp ht with rfl | ht
    · refine ⟨⟨s.startSequence + k, s.startSequence + k + run.length⟩, ⟨?_, ?_⟩, ?_, ?_⟩
      · simp [Slice.span]
      · simp only [Slice.span, nextSequence_eq]
        omega
      · simpa using hpos
      · simp [Slice.crop, Slice.recordsIn, hk]
    · rw [Nat.add_assoc] at ht
      exact ih (fun run hr => hruns run (List.mem_cons_of_mem _ hr))
        (by rw [← List.drop_drop, hk]; simp) (by omega) ht

theorem partOf_piece {s t : Slice D} (ht : t ∈ pieces codec s) : PartOf t s := by
  have hruns : ∀ run ∈ s.records.splitBy (continues codec), run ≠ [] :=
    fun run hr => List.ne_nil_of_mem_splitBy hr
  obtain ⟨span, hin, hlt, rfl⟩ := piecesFrom_crop (s := s) hruns (k := 0) (by simp) (by simp) ht
  exact partOf_crop hlt hin

/-- Every slice of a group is a part of some slice that was grouped. -/
theorem partOf_group {slices : List (Slice D)} {g : List (Slice D)} {t : Slice D}
    (hg : g ∈ v2PhysicalGroups codec slices) (ht : t ∈ g) : ∃ s ∈ slices, PartOf t s := by
  obtain ⟨hsub, -⟩ := mem_mergeWeightless_splitBy hg
  obtain ⟨s, hs, hpiece⟩ := List.mem_flatMap.mp (hsub ht)
  exact ⟨s, hs, partOf_piece hpiece⟩

theorem entryPackets_append (left right : List (ℕ × Bytes)) :
    entryPackets codec (left ++ right) = entryPackets codec left + entryPackets codec right := by
  simp [entryPackets]

theorem le_entryPackets_flatten {x : List (ℕ × Bytes)} {front : List (List (ℕ × Bytes))}
    (hx : x ∈ front) : entryPackets codec x ≤ entryPackets codec front.flatten := by
  obtain ⟨before, after, rfl⟩ := List.append_of_mem hx
  simp only [List.flatten_append, List.flatten_cons, entryPackets_append]
  omega

/-- Every group of records holds a packet. -/
theorem recordGroups_packets {entries g : List (ℕ × Bytes)} (hg : g ∈ recordGroups codec entries) :
    0 < entryPackets codec g := by
  obtain ⟨-, front, rfl, x, hx, hw⟩ := mem_mergeWeightless_splitBy hg
  exact (Nat.pos_of_ne_zero hw).trans_le (le_entryPackets_flatten hx)

/-- When some record has packets, the groups hold all records in order. -/
theorem recordGroups_flatten {entries : List (ℕ × Bytes)} (h : 0 < entryPackets codec entries) :
    (recordGroups codec entries).flatten = entries := by
  unfold recordGroups
  rw [flatten_mergeWeightless, List.flatten_splitBy]
  by_contra hnone
  have hzero : ∀ runs : List (List (ℕ × Bytes)), (∀ g ∈ runs, entryPackets codec g = 0) →
      entryPackets codec runs.flatten = 0 := by
    intro runs
    induction runs with
    | nil => exact fun _ => rfl
    | cons run runs ih =>
      intro hall
      rw [List.flatten_cons, entryPackets_append, hall run (by simp),
        ih fun g hg => hall g (List.mem_cons_of_mem _ hg)]
  have := hzero (entries.splitBy (follows codec)) (by
    intro g hg
    by_contra hw
    exact hnone ⟨g, hg, hw⟩)
  rw [List.flatten_splitBy] at this
  omega

/-- Neighbouring groups of records meet at a break. -/
theorem recordGroups_breaks (entries : List (ℕ × Bytes)) :
    (recordGroups codec entries).IsChain fun g g' =>
      ∃ left ∈ g.getLast?, ∃ right ∈ g'.head?, BrokenAt codec left right := by
  have hne : ∀ g ∈ recordGroups codec entries, g ≠ [] := by
    rintro g hg rfl
    have := recordGroups_packets hg
    simp [entryPackets] at this
  refine (mergeWeightless_splitBy_chain entries hne).imp ?_
  rintro g g' ⟨left, hleft, right, hright, hbreak⟩
  exact ⟨left, hleft, right, hright, follows_eq_false.mp hbreak⟩

variable [DecidableEq D]

/-- Slices of held admissions, each with records. -/
def AllHeld (codec : Codec D) (sources : Table ℕ (SourceRow D)) (slices : List (Slice D)) : Prop :=
  ∀ s ∈ slices, IsHeld codec sources s ∧ s.records ≠ []

/-- The groups of slices partition their records; each holds a packet, neighbours meet at a break,
and whoever slices the records after the first `k` groups again gets the later groups. -/
theorem v2PhysicalGroups_law {sources : Table ℕ (SourceRow D)} {slices : List (Slice D)}
    {pageLimit : ℕ} (hheld : AllHeld codec sources slices) (hlimit : 1 ≤ pageLimit)
    (hpackets : 0 < groupPackets codec slices) :
    ∃ groups : List (List (Slice D)),
      PagedSlices.v2PhysicalGroups codec sources pageLimit (slices.map (factsOf codec)) =
        .ok (groups.map (·.map (factsOf codec))) ∧
      (entriesOf groups.flatten = entriesOf slices ∧
        ∀ t ∈ groups.flatten, ∃ s ∈ slices, PartOf t s) ∧
      (∀ g ∈ groups, 0 < groupPackets codec g) ∧
      (groups.IsChain fun g g' => ∃ left ∈ (entriesOf g).getLast?, ∃ right ∈ (entriesOf g').head?,
        BrokenAt codec left right) ∧
      ∀ k (sources' : Table ℕ (SourceRow D)) (rest : List (Slice D)) (pageLimit' : ℕ),
        AllHeld codec sources' rest → 1 ≤ pageLimit' →
        entriesOf rest = entriesOf (groups.drop k).flatten →
        ∃ later : List (List (Slice D)),
          PagedSlices.v2PhysicalGroups codec sources' pageLimit' (rest.map (factsOf codec)) =
            .ok (later.map (·.map (factsOf codec))) ∧
          later.map entriesOf = (groups.drop k).map entriesOf := by
  have hentries : (PublicationGroups.v2PhysicalGroups codec slices).map entriesOf =
      recordGroups codec (entriesOf slices) := v2PhysicalGroups_entries slices
  have hall : entryPackets codec (entriesOf slices) = groupPackets codec slices :=
    entryPackets_entriesOf slices
  refine ⟨PublicationGroups.v2PhysicalGroups codec slices, v2PhysicalGroups_eq hheld hlimit,
    ⟨?_, ?_⟩, ?_, ?_, ?_⟩
  · rw [entriesOf_flatten, hentries, recordGroups_flatten (by omega)]
  · intro t ht
    obtain ⟨g, hg, htg⟩ := List.mem_flatten.mp ht
    exact partOf_group hg htg
  · intro g hg
    rw [← entryPackets_entriesOf]
    have hrecords : entriesOf g ∈ recordGroups codec (entriesOf slices) := by
      rw [← hentries]
      exact List.mem_map_of_mem hg
    exact recordGroups_packets hrecords
  · have hbreaks : (recordGroups codec (entriesOf slices)).IsChain _ :=
      recordGroups_breaks (entriesOf slices)
    rw [← hentries, List.isChain_map] at hbreaks
    exact hbreaks
  · intro k sources' rest pageLimit' hrest hlimit' hsame
    refine ⟨PublicationGroups.v2PhysicalGroups codec rest, v2PhysicalGroups_eq hrest hlimit', ?_⟩
    rw [v2PhysicalGroups_entries, hsame, entriesOf_flatten, List.map_drop, hentries]
    exact mergeWeightless_splitBy_drop (entriesOf slices) k

/-- A source of two records with one packet each, hashed by their bytes. -/
def sampleCodec : Codec Bytes :=
  SealedSources.scannerCodec id (fun packets => some packets.flatten) (fun artifact _ _ _ => artifact)
    fun _ _ _ _ => ⟨.unknown, 0, none, "", false⟩

def sampleRecords : List Bytes := [SealedSources.packetRecord, SealedSources.packetRecord]

/-- Three sources with gaps between them; the one in the middle has no packet. -/
def gapSources : Table ℕ (SourceRow Bytes) :=
  ((Table.empty.put 1 (sealedRow id 5 [packetRecord, emptyRecord])).put 2
    (sealedRow id 9 [emptyRecord])).put 3 (sealedRow id 12 [packetRecord])

def gapSlices : List (Slice Bytes) :=
  [heldSlice gapSources (sealedAdmission id 1 5 [packetRecord, emptyRecord] 0) 0 2,
    heldSlice gapSources (sealedAdmission id 2 9 [emptyRecord] 0) 0 1,
    heldSlice gapSources (sealedAdmission id 3 12 [packetRecord] 0) 0 1]

theorem sampleCodec_packetRecord : sampleCodec.inspectRecord false packetRecord =
    some (RecordFraming.layoutOf packetRecord [[8, 0x55]] none) :=
  SealedSources.scannerCodec_inspectRecord SealedSources.packetRecord_length
    (SealedSources.packetRecord_framed false)

theorem sampleCodec_emptyRecord : sampleCodec.inspectRecord false emptyRecord =
    some (RecordFraming.layoutOf emptyRecord [] none) :=
  SealedSources.scannerCodec_inspectRecord SealedSources.emptyRecord_length
    (SealedSources.emptyRecord_framed false)

theorem sampleRecord_layout {raw : Bytes} (h : raw = packetRecord ∨ raw = emptyRecord) :
    raw.length = audioRecordSize ∧ (sampleCodec.inspectRecord false raw).isSome := by
  rcases h with rfl | rfl
  · exact ⟨SealedSources.packetRecord_length, by rw [sampleCodec_packetRecord]; rfl⟩
  · exact ⟨SealedSources.emptyRecord_length, by rw [sampleCodec_emptyRecord]; rfl⟩

omit [DecidableEq D] in
/-- Slices with gaps between them whose records leave nothing over: the one without packets goes
to the group behind it. -/
theorem lengths_apart {packet empty : Bytes} (hpacket : recordPackets codec packet ≠ 0)
    (hempty : recordPackets codec empty = 0) (hwhole : overflowSize codec packet = none)
    {s t u : Slice D} (hs : s.records = [packet, empty]) (ht : t.records = [empty])
    (hu : u.records = [packet]) (hst : s.nextSequence ≠ t.startSequence)
    (htu : t.nextSequence ≠ u.startSequence) :
    (PublicationGroups.v2PhysicalGroups codec [s, t, u]).map List.length = [1, 2] := by
  have hpieces : [s, t, u].flatMap (pieces codec) = [s, t, u] := by
    obtain ⟨a, i, raw⟩ := s
    obtain ⟨b, j, raw'⟩ := t
    obtain ⟨c, k, raw''⟩ := u
    subst hs ht hu
    simp [pieces, piecesFrom, List.splitBy, List.splitBy.loop, continues, hwhole]
  have htyped : PublicationGroups.typedPhysicalGroups codec [s, t, u] = [[s], [t], [u]] := by
    simp [PublicationGroups.typedPhysicalGroups, hpieces, List.splitBy, List.splitBy.loop, joins,
      hst, htu]
  simp [PublicationGroups.v2PhysicalGroups, htyped, mergeWeightless, mergeStep, mergeRest,
    groupPackets, audioPackets, hs, ht, hu, hpacket, hempty]

/-- The source without packets goes into the group of the source behind it. -/
theorem v2PhysicalGroups_law_gaps : ∃ groups : List (List (Slice Bytes)),
    PagedSlices.v2PhysicalGroups sampleCodec gapSources 1 (gapSlices.map (factsOf sampleCodec)) =
        .ok (groups.map (·.map (factsOf sampleCodec))) ∧
      groups.map List.length = [1, 2] ∧
      entriesOf groups.flatten =
        [(5, packetRecord), (6, emptyRecord), (9, emptyRecord), (12, packetRecord)] ∧
      ∀ g ∈ groups, 0 < groupPackets sampleCodec g := by
  have hraw : ∀ raw : List Bytes, (∀ b ∈ raw, b = packetRecord ∨ b = emptyRecord) →
      (∀ b ∈ raw, b.length = audioRecordSize) ∧
        ∀ b ∈ raw, (sampleCodec.inspectRecord false b).isSome :=
    fun raw h => ⟨fun b hb => (sampleRecord_layout (h b hb)).1,
      fun b hb => (sampleRecord_layout (h b hb)).2⟩
  obtain ⟨hsize₁, hframed₁⟩ := hraw [packetRecord, emptyRecord] (by simp)
  obtain ⟨hsize₂, hframed₂⟩ := hraw [emptyRecord] (by simp)
  obtain ⟨hsize₃, hframed₃⟩ := hraw [packetRecord] (by simp)
  have hget₁ : gapSources.get 1 = some (sealedRow id 5 [packetRecord, emptyRecord]) := rfl
  have hget₂ : gapSources.get 2 = some (sealedRow id 9 [emptyRecord]) := rfl
  have hget₃ : gapSources.get 3 = some (sealedRow id 12 [packetRecord]) := rfl
  have hrecords₁ := SealedSources.records_heldSlice hget₁ hsize₁ 0 0 2
  have hrecords₂ := SealedSources.records_heldSlice hget₂ hsize₂ 0 0 1
  have hrecords₃ := SealedSources.records_heldSlice hget₃ hsize₃ 0 0 1
  have hcount₁ : 0 + 2 ≤ [packetRecord, emptyRecord].length := le_rfl
  have hcount₂ : 0 + 1 ≤ [emptyRecord].length := le_rfl
  have hcount₃ : 0 + 1 ≤ [packetRecord].length := le_rfl
  have hheld : AllHeld sampleCodec gapSources gapSlices := by
    simp only [AllHeld, gapSlices, List.forall_mem_cons, List.not_mem_nil, false_implies,
      implies_true, and_true]
    exact ⟨⟨SealedSources.isHeld_sealed hget₁ hsize₁ hframed₁ hcount₁ 0, by rw [hrecords₁]; simp⟩,
      ⟨SealedSources.isHeld_sealed hget₂ hsize₂ hframed₂ hcount₂ 0, by rw [hrecords₂]; simp⟩,
      ⟨SealedSources.isHeld_sealed hget₃ hsize₃ hframed₃ hcount₃ 0, by rw [hrecords₃]; simp⟩⟩
  have hpacket : recordPackets sampleCodec packetRecord = 1 := by
    rw [recordPackets, sampleCodec_packetRecord]
    rfl
  have hempty : recordPackets sampleCodec emptyRecord = 0 := by
    rw [recordPackets, sampleCodec_emptyRecord]
    rfl
  have hwhole : overflowSize sampleCodec packetRecord = none := by
    rw [overflowSize, sampleCodec_packetRecord]
    rfl
  have hpackets : 0 < groupPackets sampleCodec gapSlices := by
    have hslice : 1 ≤ audioPackets sampleCodec
        (heldSlice gapSources (sealedAdmission id 1 5 [packetRecord, emptyRecord] 0) 0 2) := by
      rw [audioPackets, hrecords₁, ← hpacket]
      exact List.single_le_sum (fun _ _ => Nat.zero_le _) _
        (List.mem_map_of_mem (List.mem_cons_self ..))
    exact hslice.trans (List.single_le_sum (fun _ _ => Nat.zero_le _) _
      (List.mem_map_of_mem (List.mem_cons_self ..)))
  have hlengths : (PublicationGroups.v2PhysicalGroups sampleCodec gapSlices).map List.length =
      [1, 2] :=
    lengths_apart (hpacket.trans_ne one_ne_zero) hempty hwhole hrecords₁ hrecords₂ hrecords₃
      (by rw [nextSequence_eq, hrecords₁]; decide) (by rw [nextSequence_eq, hrecords₂]; decide)
  obtain ⟨groups, hgroups, ⟨hentries, -⟩, hweight, -⟩ := v2PhysicalGroups_law hheld le_rfl hpackets
  refine ⟨groups, hgroups, ?_, hentries.trans ?_, hweight⟩
  · have hfacts := Except.ok.inj (hgroups.symm.trans (v2PhysicalGroups_eq hheld le_rfl))
    have hsame : groups.map List.length =
        (PublicationGroups.v2PhysicalGroups sampleCodec gapSlices).map List.length := by
      simpa [Function.comp_def] using congrArg (List.map List.length) hfacts
    exact hsame.trans hlengths
  · simp only [gapSlices, entriesOf, List.flatMap_cons, List.flatMap_nil, List.append_nil, entries_eq,
      hrecords₁, hrecords₂, hrecords₃]
    rfl

end ResumedGroups
