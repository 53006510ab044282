import OmiCollector.CohortRounds
import OmiCollector.OverlapExact
import OmiCollector.RealCodec
import OmiCollector.ResumedGroups
import OmiCollector.StreamSplits

/-! What a replay proof accepts. The runs of a group map each of its records to the record with its
public time, and a proof holds the digests of those; a later source agrees with the proof exactly
where it has the published records. -/
namespace ReplayExact

open ByteCodec CaptureModel Checks ClockModel KeyedTable PublicationGroups PublicationLedger
open PublicationStage RealCodec SlicePartition SpanCover Tiling TypedSlices
open PagedOverlap (TypedReadyCustody)
open ProofScan (DigestBytes PrivateProof Written)

variable {D : Type}

/-- The published record: its timestamp is the public one, unless that is unknown. -/
def publicRecord (raw : Bytes) (t : FrozenPublicTime) : Bytes :=
  if t.quality = .unknown then raw else toBytesBig 4 t.seconds ++ raw.drop 4

def runMode (p : RecordProjection) : NormalizationMode :=
  if p.time.quality = .unknown then .raw else .mapped

def runOffset (raw : Bytes) (p : RecordProjection) : ℤ :=
  if p.time.quality = .unknown then 0 else (p.time.seconds : ℤ) - deviceTimestamp raw

def runSpan (r : NormalizationRun) : ℕ × ℕ := (r.firstRecordIndex, r.nextRecordIndex)

/-- The run maps the record as its projection says. -/
def Maps (r : NormalizationRun) (x : Bytes × RecordProjection) : Prop :=
  r.mode = runMode x.2 ∧ r.offsetSeconds = runOffset x.1 x.2

/-- The runs of the records so far. -/
structure RunsOf (done : List (Bytes × RecordProjection)) (runs : List NormalizationRun) : Prop where
  tiles : Tiles 0 (runs.map runSpan) done.length
  maps : ∀ r ∈ runs, ∀ i x, r.firstRecordIndex ≤ i → i < r.nextRecordIndex →
    done[i]? = some x → Maps r x
  boundary : ∀ r ∈ runs, r.boundaryBefore ≤ 3

theorem boundaryBits_le (p : RecordProjection) : boundaryBits p ≤ 3 := by
  unfold boundaryBits
  split <;> split <;> decide

/-- One record opens a run of its own or prolongs the last one, which maps it alike. -/
theorem extendRuns_cases (runs : List NormalizationRun) (index : ℕ) (raw : Bytes)
    (p : RecordProjection) :
    extendRuns runs index raw p =
        runs ++ [⟨index, index + 1, runOffset raw p, runMode p, boundaryBits p⟩] ∨
      ∃ init last, runs = init ++ [last] ∧ Maps last (raw, p) ∧
        extendRuns runs index raw p = init ++ [{ last with nextRecordIndex := index + 1 }] := by
  rcases List.eq_nil_or_concat runs with rfl | ⟨init, last, rfl⟩
  · exact .inl rfl
  · rw [List.concat_eq_append]
    have hext : extendRuns (init ++ [last]) index raw p =
        if boundaryBits p = 0 ∧ last.mode = runMode p ∧ last.offsetSeconds = runOffset raw p then
          init ++ [{ last with nextRecordIndex := index + 1 }]
        else init ++ [last] ++ [⟨index, index + 1, runOffset raw p, runMode p, boundaryBits p⟩] := by
      simp [extendRuns, runMode, runOffset]
    by_cases hjoin : boundaryBits p = 0 ∧ last.mode = runMode p ∧
        last.offsetSeconds = runOffset raw p
    · exact .inr ⟨init, last, rfl, hjoin.2, by rw [hext, if_pos hjoin]⟩
    · exact .inl (by rw [hext, if_neg hjoin])

/-- One record prolongs the last run or opens its own. -/
theorem extendRuns_runsOf {done : List (Bytes × RecordProjection)} {runs : List NormalizationRun}
    (h : RunsOf done runs) (raw : Bytes) (p : RecordProjection) :
    RunsOf (done ++ [(raw, p)]) (extendRuns runs done.length raw p) := by
  have hlength : (done ++ [(raw, p)]).length = done.length + 1 := by simp
  have hlast : ∀ x, (done ++ [(raw, p)])[done.length]? = some x → x = (raw, p) := by
    intro x hx
    simpa [eq_comm] using hx
  have hearlier : ∀ i x, i < done.length → (done ++ [(raw, p)])[i]? = some x → done[i]? = some x := by
    intro i x hi hx
    rwa [List.getElem?_append_left hi] at hx
  have hbefore : ∀ r ∈ runs, r.nextRecordIndex ≤ done.length := by
    intro r hr
    exact (h.tiles.within (List.mem_map_of_mem (f := runSpan) hr)).2
  rcases extendRuns_cases runs done.length raw p with hrun | ⟨init, last, rfl, hmaps, hrun⟩
  · -- A run of its own for the new record.
    rw [hrun]
    refine ⟨?_, ?_, ?_⟩
    · rw [List.map_append, hlength]
      exact h.tiles.snoc (Nat.lt_succ_self _)
    · intro r hr i x hle hlt hx
      rcases List.mem_append.mp hr with hr | hr
      · exact h.maps r hr i x hle hlt (hearlier i x (hlt.trans_le (hbefore r hr)) hx)
      · obtain rfl := List.mem_singleton.mp hr
        obtain rfl : i = done.length := by simp only at hle hlt; omega
        obtain rfl := hlast x hx
        exact ⟨rfl, rfl⟩
    · intro r hr
      rcases List.mem_append.mp hr with hr | hr
      · exact h.boundary r hr
      · obtain rfl := List.mem_singleton.mp hr
        exact boundaryBits_le p
  · rw [hrun]
    have hmem : last ∈ init ++ [last] := by simp
    have htiles := h.tiles
    rw [List.map_append] at htiles
    obtain ⟨b, hinit, hfirst, hpos, hstop⟩ := tiles_append.mp htiles
    have hnext : last.nextRecordIndex = done.length := hstop
    refine ⟨?_, ?_, ?_⟩
    · rw [List.map_append, hlength]
      refine tiles_append.mpr ⟨b, hinit, hfirst, ?_, rfl⟩
      exact hpos.trans_le (hnext ▸ Nat.le_succ _)
    · intro r hr i x hle hlt hx
      rcases List.mem_append.mp hr with hr | hr
      · have hinside := hbefore r (List.mem_append_left _ hr)
        exact h.maps r (List.mem_append_left _ hr) i x hle hlt
          (hearlier i x (hlt.trans_le hinside) hx)
      · obtain rfl := List.mem_singleton.mp hr
        by_cases hold : i < done.length
        · exact h.maps last hmem i x hle (hnext ▸ hold) (hearlier i x hold hx)
        · obtain rfl : i = done.length := by simp only at hlt; omega
          obtain rfl := hlast x hx
          exact hmaps
    · intro r hr
      rcases List.mem_append.mp hr with hr | hr
      · exact h.boundary r (List.mem_append_left _ hr)
      · obtain rfl := List.mem_singleton.mp hr
        exact h.boundary last hmem

/-- The runs of a whole group. -/
theorem runsOf_runsOf {done : List (Bytes × RecordProjection)} {runs : List NormalizationRun}
    (h : RunsOf done runs) (rest : List (Bytes × RecordProjection)) :
    RunsOf (done ++ rest) (runsOf runs done.length rest) := by
  induction rest generalizing done runs with
  | nil => simpa [runsOf] using h
  | cons x rest ih =>
    have hstep := ih (extendRuns_runsOf h x.1 x.2)
    rw [List.length_append, List.length_singleton, List.append_assoc] at hstep
    exact hstep

theorem runs_v2NormalizationRuns (g : PreparedGroup D) :
    RunsOf (g.records.zip g.projection) (v2NormalizationRuns g) := by
  have hempty : RunsOf ([] : List (Bytes × RecordProjection)) [] := ⟨rfl, by simp, by simp⟩
  exact runsOf_runsOf hempty _

/-- The run found for an index holds it. -/
theorem runAt_of_tiles {start stop index : ℕ} {runs : List NormalizationRun}
    (h : Tiles start (runs.map runSpan) stop) (hle : start ≤ index) (hlt : index < stop) :
    ∃ r ∈ runs, runAt runs index = some r ∧ r.firstRecordIndex ≤ index ∧
      index < r.nextRecordIndex := by
  induction runs generalizing start with
  | nil =>
    have hend : start = stop := h
    omega
  | cons r runs ih =>
    obtain ⟨hfirst, -, hrest⟩ := h
    have hstart : r.firstRecordIndex = start := hfirst
    by_cases hin : index < r.nextRecordIndex
    · exact ⟨r, by simp, by simp [runAt, hin], by omega, hin⟩
    · obtain ⟨q, hq, hfound, hinside⟩ := ih hrest (not_lt.mp hin)
      refine ⟨q, List.mem_cons_of_mem _ hq, ?_, hinside⟩
      rw [runAt, List.find?_cons_of_neg (by simpa using hin)]
      exact hfound

/-- A run that maps a record normalizes it to the published one. -/
theorem normalizeRecord_maps {r : NormalizationRun} {raw : Bytes} {p : RecordProjection}
    (h : Maps r (raw, p)) (hlen : raw.length = audioRecordSize)
    (hfits : p.time.seconds ≤ maxProtocolUint32) :
    normalizeRecord raw r = .ok (publicRecord raw p.time) := by
  obtain ⟨hmode, hoffset⟩ := h
  unfold runMode at hmode
  unfold runOffset at hoffset
  rw [normalizeRecord, if_neg (not_not.mpr hlen), publicRecord]
  by_cases hunknown : p.time.quality = .unknown
  · rw [if_pos hunknown] at hmode
    rw [hmode, if_pos hunknown]
  · rw [if_neg hunknown] at hmode hoffset
    have hsum : (fromBytesBig (raw.take 4) : ℤ) + r.offsetSeconds = p.time.seconds := by
      rw [hoffset, deviceTimestamp]
      ring
    have hbound : (0 : ℤ) ≤ p.time.seconds ∧ (p.time.seconds : ℤ) ≤ maxProtocolUint32 :=
      ⟨Int.natCast_nonneg _, Int.ofNat_le.mpr hfits⟩
    rw [hmode, if_neg hunknown]
    simp only [hsum, if_pos hbound, Int.toNat_natCast]

/-- Where every record is normalized to its published one, the whole group is. -/
theorem normalizedRecords_eq {runs : List NormalizationRun} {index : ℕ}
    {records : List (Bytes × RecordProjection)}
    (h : ∀ i x, records[i]? = some x → ∃ run, runAt runs (index + i) = some run ∧
      normalizeRecord x.1 run = .ok (publicRecord x.1 x.2.time)) :
    normalizedRecords runs index (records.map Prod.fst) =
      .ok (records.map fun x => publicRecord x.1 x.2.time) := by
  induction records generalizing index with
  | nil => rfl
  | cons x records ih =>
    obtain ⟨run, hrun, hnormal⟩ := h 0 x rfl
    rw [Nat.add_zero] at hrun
    have hlater : ∀ i y, records[i]? = some y → ∃ run, runAt runs (index + 1 + i) = some run ∧
        normalizeRecord y.1 run = .ok (publicRecord y.1 y.2.time) := by
      intro i y hy
      have := h (i + 1) y (by simpa using hy)
      rwa [← add_assoc, add_right_comm] at this
    have hrest := ih hlater
    rw [List.map_cons, normalizedRecords, hrun]
    simp only [hnormal, hrest]
    rfl

section Group

variable {hex : ℚ → String} {codec : Codec D} {clock : ClockState} {initial : Option V2Frontier}

/-- The times of a group fit the timestamps of its records. -/
theorem projectRecords_bounded (hvalid : ClockHistory.Valid clock) {entries : List (ℕ × Bytes)}
    (hlength : ∀ e ∈ entries, e.2.length = audioRecordSize) {projected : List ProjectedRecord}
    (h : projectRecords (collectorCodec hex codec) clock initial entries = .ok projected) :
    projected.length = entries.length ∧
      ∀ p ∈ projected, p.projection.time.seconds ≤ maxProtocolUint32 := by
  induction entries generalizing initial projected with
  | nil =>
    obtain rfl := Except.ok.inj h
    exact ⟨rfl, by simp⟩
  | cons entry entries ih =>
    simp only [projectRecords, bind_ok, pure_ok] at h
    obtain ⟨first, hfirst, later, hlater, rfl⟩ := h
    obtain ⟨hcount, hall⟩ := ih (fun e he => hlength e (List.mem_cons_of_mem _ he)) hlater
    refine ⟨by simp [hcount], ?_⟩
    intro p hp
    rcases List.mem_cons.mp hp with rfl | hp
    · unfold projectRecord at hfirst
      split at hfirst
      · cases hfirst
      · obtain rfl := Except.ok.inj hfirst
        have hfour : (entry.2.take 4).length = 4 := by
          simp [hlength entry (List.mem_cons_self ..), audioRecordSize]
        have hlt := fromBytesBig_lt (entry.2.take 4)
        rw [hfour] at hlt
        apply frozenTime_bounded hvalid
        rw [deviceTimestamp, maxProtocolUint32]
        omega
    · exact hall p hp

theorem prepareV2Group_projection {slices : List (Slice D)} {g : PreparedGroup D}
    (h : prepareV2Group codec slices clock initial = .ok g) : ∃ projected,
      projectRecords codec clock initial (entriesOf slices) = .ok projected ∧
      g.projection = projected.map (·.projection) := by
  unfold prepareV2Group at h
  split at h
  · cases h
  · simp only [bind_ok] at h
    obtain ⟨projected, hprojected, h⟩ := h
    refine ⟨projected, hprojected, ?_⟩
    split at h
    · cases h
    · cases h
    · split at h
      · cases h
      · obtain rfl := Except.ok.inj h
        rfl

/-- The records of a group with their projections. -/
def projectedOf (g : PreparedGroup D) : List (Bytes × RecordProjection) :=
  g.records.zip g.projection

section Prepared

variable {slices : List (Slice D)} {g : PreparedGroup D}

theorem length_projection (hvalid : ClockHistory.Valid clock)
    (hlength : ∀ s ∈ slices, ∀ raw ∈ s.records, raw.length = audioRecordSize)
    (hprepared : prepareV2Group (collectorCodec hex codec) slices clock initial = .ok g) :
    g.projection.length = g.records.length ∧
      ∀ x ∈ projectedOf g, x.1.length = audioRecordSize ∧
        x.2.time.seconds ≤ maxProtocolUint32 := by
  obtain ⟨projected, hprojected, hprojection⟩ := prepareV2Group_projection hprepared
  have hslices : g.slices = slices := (prepareV2Group_ok hprepared).2.1
  have hentries : ∀ e ∈ entriesOf slices, e.2.length = audioRecordSize := by
    rintro ⟨x, raw⟩ he
    obtain ⟨s, hs, hx, hraw⟩ := mem_entriesOf.mp he
    obtain ⟨raw', hraw', hmem⟩ := rawAt_of_contains hx
    obtain rfl := Option.some.inj (hraw.symm.trans hraw')
    exact hlength s hs raw hmem
  obtain ⟨hcount, hbounds⟩ := projectRecords_bounded hvalid hentries hprojected
  have hrecords : g.records.length = (entriesOf slices).length := by
    rw [PreparedGroup.records, hslices, List.length_map]
  refine ⟨by rw [hprojection, List.length_map, hcount, hrecords], ?_⟩
  rintro ⟨raw, p⟩ hx
  obtain ⟨hraw, hp⟩ := List.of_mem_zip hx
  rw [PreparedGroup.records, hslices] at hraw
  obtain ⟨e, he, rfl⟩ := List.mem_map.mp hraw
  rw [hprojection] at hp
  obtain ⟨q, hq, rfl⟩ := List.mem_map.mp hp
  exact ⟨hentries e he, hbounds q hq⟩

theorem length_projectedOf (hvalid : ClockHistory.Valid clock)
    (hlength : ∀ s ∈ slices, ∀ raw ∈ s.records, raw.length = audioRecordSize)
    (hprepared : prepareV2Group (collectorCodec hex codec) slices clock initial = .ok g) :
    (projectedOf g).length = g.records.length := by
  rw [projectedOf, List.length_zip, (length_projection hvalid hlength hprepared).1, min_self]

/-- Every record of the group has a run, which normalizes it to the published record. -/
theorem runAt_projected (hvalid : ClockHistory.Valid clock)
    (hlength : ∀ s ∈ slices, ∀ raw ∈ s.records, raw.length = audioRecordSize)
    (hprepared : prepareV2Group (collectorCodec hex codec) slices clock initial = .ok g)
    {i : ℕ} {x : Bytes × RecordProjection} (hx : (projectedOf g)[i]? = some x) :
    ∃ run, runAt (v2NormalizationRuns g) i = some run ∧
      normalizeRecord x.1 run = .ok (publicRecord x.1 x.2.time) := by
  have hruns := runs_v2NormalizationRuns g
  have hlt : i < (projectedOf g).length := (List.getElem?_eq_some_iff.mp hx).1
  obtain ⟨run, hrun, hfound, hle, hin⟩ := runAt_of_tiles hruns.tiles (Nat.zero_le i) hlt
  obtain ⟨hsize, hfits⟩ := (length_projection hvalid hlength hprepared).2 x (List.mem_of_getElem? hx)
  exact ⟨run, hfound, normalizeRecord_maps (hruns.maps run hrun i x hle hin hx) hsize hfits⟩

/-- A prepared group always has its proof, whose hashes are those of the published records. -/
theorem stageProof_real (hvalid : ClockHistory.Valid clock)
    (hlength : ∀ s ∈ slices, ∀ raw ∈ s.records, raw.length = audioRecordSize)
    (hprepared : prepareV2Group (collectorCodec hex codec) slices clock initial = .ok g)
    (order : ℕ) (manifest : D) : ∃ proof,
      stageProof (collectorCodec hex codec) g order manifest = .ok proof ∧
      proof.normalizationRuns = v2NormalizationRuns g ∧
      proof.hashes = (projectedOf g).map fun x => codec.sha256 (publicRecord x.1 x.2.time) := by
  have hcount := (length_projection hvalid hlength hprepared).1
  have hrecords : (projectedOf g).map Prod.fst = g.records :=
    List.map_fst_zip hcount.ge
  have hevery : ∀ i x, (projectedOf g)[i]? = some x →
      ∃ run, runAt (v2NormalizationRuns g) (0 + i) = some run ∧
        normalizeRecord x.1 run = .ok (publicRecord x.1 x.2.time) := by
    intro i x hx
    rw [Nat.zero_add]
    exact runAt_projected hvalid hlength hprepared hx
  have hnormal := normalizedRecords_eq hevery
  rw [hrecords] at hnormal
  have hproof : ∃ proof, stageProof (collectorCodec hex codec) g order manifest = .ok proof := by
    simp only [stageProof, bind_ok, pure_ok]
    exact ⟨_, _, hnormal, rfl⟩
  obtain ⟨proof, hproof⟩ := hproof
  have hshape := hproof
  simp only [stageProof, bind_ok, pure_ok] at hshape
  obtain ⟨normalized, hnormalized, rfl⟩ := hshape
  obtain rfl := Except.ok.inj (hnormalized.symm.trans hnormal)
  refine ⟨_, hproof, rfl, ?_⟩
  rw [List.map_map]
  rfl

/-- The proof of a group matches the record that the group publishes at an index, and no other one
that its digest tells apart. -/
theorem hashMatch_published (hvalid : ClockHistory.Valid clock)
    (hlength : ∀ s ∈ slices, ∀ raw ∈ s.records, raw.length = audioRecordSize)
    (hprepared : prepareV2Group (collectorCodec hex codec) slices clock initial = .ok g)
    {proof : ReplayProof D} (hruns : proof.normalizationRuns = v2NormalizationRuns g)
    (hhashes : proof.hashes =
      (projectedOf g).map fun x => codec.sha256 (publicRecord x.1 x.2.time))
    {i : ℕ} {published raw : Bytes} (hpublished : g.records[i]? = some published)
    (hsep : Separates (collectorCodec hex codec) proof raw published) :
    HashMatch (collectorCodec hex codec) proof i raw ↔ raw = published := by
  have hcount := (length_projection hvalid hlength hprepared).1
  have hi : i < g.records.length := (List.getElem?_eq_some_iff.mp hpublished).1
  have hitem : (projectedOf g)[i]? = some (published, g.projection.get ⟨i, hcount ▸ hi⟩) := by
    rw [projectedOf, List.getElem?_zip_eq_some]
    exact ⟨hpublished, List.getElem?_eq_getElem _⟩
  have hmatch : HashMatch (collectorCodec hex codec) proof i published := by
    obtain ⟨run, hrun, hnormal⟩ := runAt_projected hvalid hlength hprepared hitem
    refine ⟨run, _, hruns ▸ hrun, hnormal, ?_⟩
    rw [hhashes, List.getElem?_map, hitem]
    rfl
  constructor
  · intro h
    exact hashMatch_unique hsep h hmatch
  · rintro rfl
    exact hmatch

/-- The records that a group publishes. -/
def publicRecords (g : PreparedGroup D) : List Bytes :=
  (projectedOf g).map fun x => publicRecord x.1 x.2.time

theorem publicRecords_length (hvalid : ClockHistory.Valid clock)
    (hlength : ∀ s ∈ slices, ∀ raw ∈ s.records, raw.length = audioRecordSize)
    (hprepared : prepareV2Group (collectorCodec hex codec) slices clock initial = .ok g) :
    (publicRecords g).length = g.records.length ∧
      ∀ r ∈ publicRecords g, r.length = ProofPages.recordBytes := by
  have hbounds := (length_projection hvalid hlength hprepared).2
  refine ⟨?_, fun r hr => ?_⟩
  · rw [publicRecords, List.length_map, length_projectedOf hvalid hlength hprepared]
  · obtain ⟨x, hx, rfl⟩ := List.mem_map.mp hr
    have hraw := (hbounds x hx).1
    rw [publicRecord]
    split
    · exact hraw
    · rw [List.length_append, length_toBytesBig, List.length_drop, hraw]
      rfl

/-- The proof that publication writes for a group backs the artifact. -/
theorem backed_published [DecidableEq D] {code : DigestBytes D} (hvalid : ClockHistory.Valid clock)
    (hlength : ∀ s ∈ slices, ∀ raw ∈ s.records, raw.length = audioRecordSize)
    (hprepared : prepareV2Group (collectorCodec hex codec) slices clock initial = .ok g)
    {proof : ReplayProof D} (hhashes : proof.hashes = (publicRecords g).map codec.sha256)
    {c : TypedReadyCustody D} {bundleId : D} {held : PrivateProof D}
    (hheld : c.proofs.get bundleId = some held) (hruns : held.runs = proof.normalizationRuns)
    (hwritten : Written (code.sha256 codec) c.stateDb held (publicRecords g)) :
    PagedOverlap.Backed code (collectorCodec hex codec) c bundleId proof := by
  have hsize := (publicRecords_length hvalid hlength hprepared).2
  have hstored : ProofScan.Stored codec code c.stateDb held proof.hashes := by
    rw [hhashes]
    exact hwritten.stored hsize
  exact ⟨held, hheld, hruns, hstored.root, hstored.recordCount, hstored.bound, hstored.index,
    hstored.pages⟩

section Segments

variable {proof : ReplayProof D} {r : Span × ReadyKey D}

/-- The proof of a group covers the runs of its artifact. -/
theorem covered_published (hvalid : ClockHistory.Valid clock) (hchain : Chain slices)
    (hlength : ∀ s ∈ slices, ∀ raw ∈ s.records, raw.length = audioRecordSize)
    (hprepared : prepareV2Group (collectorCodec hex codec) slices clock initial = .ok g)
    (hruns : proof.normalizationRuns = v2NormalizationRuns g)
    (hhashes : proof.hashes = (projectedOf g).map fun x => codec.sha256 (publicRecord x.1 x.2.time))
    (hr : r ∈ segmentsFrom proof 0
      (physicalRuns (groupFacts (collectorCodec hex codec) slices))) :
    PagedOverlap.RunCovered r := by
  obtain ⟨hne, hslices, -⟩ := prepareV2Group_ok hprepared
  intro x hx
  obtain ⟨hkey, published, hentry⟩ := segmentsFrom_entry hchain hne hr hx
  have hbound : r.2.readyOffset + (x - r.2.runStart) < (projectedOf g).length := by
    rw [length_projectedOf hvalid hlength hprepared, PreparedGroup.records, hslices, List.length_map]
    exact (List.getElem?_eq_some_iff.mp hentry).1
  obtain ⟨run, -, hfound, -⟩ :=
    runAt_of_tiles (runs_v2NormalizationRuns g).tiles (Nat.zero_le _) hbound
  rw [hkey, hruns, hfound, hhashes, List.length_map]
  exact ⟨rfl, hbound⟩

/-- A slice passes the comparison with an artifact where it has the published records. -/
theorem overlap_published [DecidableEq D] (hvalid : ClockHistory.Valid clock) (hchain : Chain slices)
    (hlength : ∀ s ∈ slices, ∀ raw ∈ s.records, raw.length = audioRecordSize)
    (hprepared : prepareV2Group (collectorCodec hex codec) slices clock initial = .ok g)
    (hruns : proof.normalizationRuns = v2NormalizationRuns g)
    (hhashes : proof.hashes = (projectedOf g).map fun x => codec.sha256 (publicRecord x.1 x.2.time))
    (hr : r ∈ segmentsFrom proof 0 (physicalRuns (groupFacts (collectorCodec hex codec) slices)))
    {s : Slice D} {span : Span} (hinr : span.Inside r.1) (hins : span.Inside s.span)
    (hsep : ∀ x raw published, span.Contains x → s.rawAt x = some raw →
      (x, published) ∈ entriesOf slices →
        Separates (collectorCodec hex codec) proof raw published) :
    TypedSlices.typedReadyOverlap (collectorCodec hex codec) s r.2 span = .ok () ↔
      ∀ x raw, span.Contains x → s.rawAt x = some raw → (x, raw) ∈ entriesOf slices := by
  obtain ⟨hne, hslices, -⟩ := prepareV2Group_ok hprepared
  have hnodup : ((entriesOf slices).map Prod.fst).Nodup :=
    (CohortRounds.entries_increase hchain).imp fun hlt => hlt.ne
  rw [typedReadyOverlap_ok hins (segmentsFrom_runStart hr ▸ hinr.1)]
  refine forall₂_congr fun x raw => forall₂_congr fun hx hraw => ?_
  obtain ⟨hkey, published, hentry⟩ :=
    segmentsFrom_entry hchain hne hr ⟨hinr.1.trans hx.1, hx.2.trans_le hinr.2⟩
  have hmem := List.mem_of_getElem? hentry
  have hpublished : g.records[r.2.readyOffset + (x - r.2.runStart)]? = some published := by
    rw [PreparedGroup.records, hslices, List.getElem?_map, hentry]
    rfl
  have hexact := hashMatch_published hvalid hlength hprepared hruns hhashes hpublished
    (hsep x raw published hx hraw hmem)
  rw [ReadyMatch, hkey, hexact]
  constructor
  · rintro rfl
    exact hmem
  · intro hraw
    -- A sequence of the group has one record.
    exact congrArg Prod.snd (List.inj_on_of_nodup_map hnodup hraw hmem rfl)

end Segments

end Prepared

end Group

variable [DecidableEq D]

/-- Every prepared group has a replay proof. Its runs cover the records one after the other, its
hashes are those of the records with their public times, and once the pages of these are written, a
later source passes the comparison with the committed artifact exactly when it holds the published
records; every refusal is a conflict. -/
theorem replay_accepts_published {hex : ℚ → String} {code : DigestBytes D} {codec : Codec D}
    {clock : ClockState} (hvalid : ClockHistory.Valid clock) {initial : Option V2Frontier}
    {slices : List (Slice D)} (hchain : Chain slices)
    (hlength : ∀ s ∈ slices, ∀ raw ∈ s.records, raw.length = audioRecordSize)
    {g : PreparedGroup D}
    (hprepared : prepareV2Group (collectorCodec hex codec) slices clock initial = .ok g)
    (order : ℕ) (manifest : D) : ∃ proof,
      stageProof (collectorCodec hex codec) g order manifest = .ok proof ∧
      Tiles 0 (proof.normalizationRuns.map runSpan) g.records.length ∧
      proof.hashes = (publicRecords g).map codec.sha256 ∧
      ∀ (bundleId : D) stage (c : TypedReadyCustody D) held,
        c.proofs.get bundleId = some held → held.runs = proof.normalizationRuns →
        Written (code.sha256 codec) c.stateDb held (publicRecords g) →
        ∀ (sources : Table ℕ (SourceRow D)) pageLimit, 1 ≤ pageLimit →
        ∀ r ∈ typedActiveSegments ⟨bundleId, v2LedgerEntry (collectorCodec hex codec) g stage
          proof.recordsSha256, { proof with lifecycle := .active }⟩,
        ∀ s (span : Span), PagedSlices.IsHeld (collectorCodec hex codec) sources s →
          span.Inside r.1 → span.Inside s.span → span.start < span.stop →
          (∀ x raw published, span.Contains x → s.rawAt x = some raw →
            (x, published) ∈ entriesOf slices →
              Separates (collectorCodec hex codec) proof raw published) →
          (PagedOverlap.typedReadyOverlap code (collectorCodec hex codec) sources pageLimit c
              s.admission bundleId r.2 span = .ok () ↔
            ∀ x raw, span.Contains x → s.rawAt x = some raw → (x, raw) ∈ entriesOf slices) ∧
          ∀ e, PagedOverlap.typedReadyOverlap code (collectorCodec hex codec) sources pageLimit c
            s.admission bundleId r.2 span = .error e → PagedOverlap.IsConflict e := by
  obtain ⟨-, -, hfacts, -⟩ := prepareV2Group_ok hprepared
  obtain ⟨proof, hproof, hruns, hhashes⟩ :=
    stageProof_real hvalid hlength hprepared order manifest
  have hrecords : proof.hashes = (publicRecords g).map codec.sha256 := by
    rw [hhashes, publicRecords, List.map_map]
    rfl
  refine ⟨proof, hproof, ?_, hrecords, ?_⟩
  · rw [hruns, ← length_projectedOf hvalid hlength hprepared]
    exact (runs_v2NormalizationRuns g).tiles
  · intro bundleId stage c held hheld hheldRuns hwritten sources pageLimit hlimit r hr s span hs hinr
      hins hlt hsep
    have hsegments : r ∈ segmentsFrom { proof with lifecycle := .active } 0
        (physicalRuns (groupFacts (collectorCodec hex codec) slices)) := by
      have hentry : physicalRuns (v2LedgerEntry (collectorCodec hex codec) g stage
          proof.recordsSha256).facts = physicalRuns g.facts := rfl
      rw [typedActiveSegments] at hr
      simp only [hentry, hfacts] at hr
      exact hr
    have hactive : ({ proof with lifecycle := .active } : ReplayProof D).normalizationRuns =
        v2NormalizationRuns g := hruns
    have hcovered := covered_published hvalid hchain hlength hprepared hactive hhashes hsegments
    have hbacked : PagedOverlap.Backed code (collectorCodec hex codec) c bundleId r.2.proof := by
      rw [segmentsFrom_proof hsegments]
      exact backed_published hvalid hlength hprepared hrecords hheld hheldRuns hwritten
    have hrefines := PagedOverlap.typedReadyOverlap_refines hs hlimit hbacked
      (segmentsFrom_runStart hsegments) hcovered hinr hins hlt
    refine ⟨?_, fun e he => hrefines.of_error he⟩
    rw [← overlap_published hvalid hchain hlength hprepared hactive hhashes hsegments hinr hins hsep]
    constructor
    · intro hok
      obtain ⟨_, hagrees, -⟩ := hrefines.exists_of_ok hok
      exact hagrees
    · exact hrefines.ok ()

/-! ### A later source that overlaps an artifact -/

section Sample

open OverlapExact (laterRecord publishedRecords sampleCodec sampleRecord_ok)
open ProofPages (Digest hashlibSha256)
open SealedSources (packetRecord sealedAdmission sealedRow)

/-- A source over the sequences 5 and 6 that has been published, and a later one from 6 on. -/
def replaySources : Table ℕ (SourceRow Digest) :=
  (Table.empty.put 1 (sealedRow hashlibSha256 5 publishedRecords)).put 2
    (sealedRow hashlibSha256 6 [packetRecord, laterRecord])

def publishedSlice : Slice Digest :=
  PagedSlices.heldSlice replaySources (sealedAdmission hashlibSha256 1 5 publishedRecords 0) 0 2

def laterSlice : Slice Digest :=
  PagedSlices.heldSlice replaySources (sealedAdmission hashlibSha256 2 6 [packetRecord, laterRecord] 0) 0 2

theorem publishedSlice_records : publishedSlice.records = publishedRecords ∧
    ∀ b ∈ publishedRecords, b.length = audioRecordSize := by
  have hsize : ∀ b ∈ publishedRecords, b.length = audioRecordSize :=
    fun b hb => (sampleRecord_ok (.inl (List.eq_of_mem_replicate (n := 2) hb))).1
  have hget : replaySources.get 1 = some (sealedRow hashlibSha256 5 publishedRecords) := rfl
  exact ⟨SealedSources.records_heldSlice hget hsize 0 0 2, hsize⟩

theorem laterSlice_held : PagedSlices.IsHeld (collectorCodec (fun _ => "") sampleCodec) replaySources
      laterSlice ∧ laterSlice.records = [packetRecord, laterRecord] := by
  have hrecord : ∀ b ∈ [packetRecord, laterRecord], b.length = audioRecordSize ∧
      ((collectorCodec (fun _ => "") sampleCodec).inspectRecord false b).isSome :=
    fun b hb => sampleRecord_ok (by simpa using hb)
  have hget : replaySources.get 2 = some (sealedRow hashlibSha256 6 [packetRecord, laterRecord]) :=
    rfl
  have hcount : 0 + 2 ≤ [packetRecord, laterRecord].length := le_rfl
  exact ⟨SealedSources.isHeld_sealed hget (fun b hb => (hrecord b hb).1)
    (fun b hb => (hrecord b hb).2) hcount 0,
    SealedSources.records_heldSlice hget (fun b hb => (hrecord b hb).1) 0 0 2⟩

theorem publishedSlice_entries :
    entriesOf [publishedSlice] = [(5, packetRecord), (6, packetRecord)] := by
  simp only [entriesOf, List.flatMap_cons, List.flatMap_nil, List.append_nil, entries_eq,
    publishedSlice_records.1]
  rfl

/-- The published source, prepared under a clock that covers it. -/
theorem prepare_sample : ∃ g, prepareV2Group (collectorCodec (fun _ => "") sampleCodec)
    [publishedSlice] StreamSplits.splitClock none = .ok g := by
  have hlayout : (collectorCodec (fun _ => "") sampleCodec).inspectRecord true packetRecord =
      some ⟨1, 0, none, [[8, 0x55]]⟩ :=
    SealedSources.scannerCodec_inspectRecord SealedSources.packetRecord_length
      (SealedSources.packetRecord_framed true)
  have hone : ∀ previous x, ∃ p, projectRecord (collectorCodec (fun _ => "") sampleCodec)
      StreamSplits.splitClock previous (x, packetRecord) = .ok p ∧ p.projection.packetCount = 1 := by
    intro previous x
    simp only [projectRecord, hlayout]
    exact ⟨_, rfl, rfl⟩
  obtain ⟨p, hp, hcount⟩ := hone none 5
  obtain ⟨q, hq, -⟩ := hone (some p.frontier) 6
  have hprojected : projectRecords (collectorCodec (fun _ => "") sampleCodec)
      StreamSplits.splitClock none (entriesOf [publishedSlice]) = .ok [p, q] := by
    rw [publishedSlice_entries]
    simp only [projectRecords, bind_ok, pure_ok]
    exact ⟨p, hp, [q], ⟨q, hq, [], rfl, rfl⟩, rfl⟩
  unfold prepareV2Group
  rw [if_neg (by simp), hprojected]
  simp only [bind, Except.bind, List.getLast?_cons_cons, List.getLast?_singleton, List.map_cons,
    List.sum_cons, hcount]
  exact ⟨_, if_neg (by omega)⟩

/-- The stage of a prepared group that is the first one of its cohort. -/
def sampleStage (g : PreparedGroup Digest) : Stage Digest where
  artifactId := hashlibSha256 [5]
  order := 1
  cohortCursor := 0
  descriptor := ⟨g.clock, g.facts, [], g.projection, g.initialFrontier, g.finalFrontier⟩
  audioSha256 := g.audioSha256
  manifestSha256 := hashlibSha256 []
  packetCount := g.packetCount
  failed := false

/-- The artifact of a group whose proof has been staged. -/
def sampleArtifact (g : PreparedGroup Digest) (proof : ReplayProof Digest) :
    ActiveArtifact Digest where
  id := hashlibSha256 [5]
  entry := v2LedgerEntry (collectorCodec (fun _ => "") sampleCodec) g (sampleStage g)
    proof.recordsSha256
  proof := { proof with lifecycle := .active }

/-- The private proof of the artifact. -/
def sampleProof (g : PreparedGroup Digest) (proof : ReplayProof Digest) : PrivateProof Digest :=
  .ofRecords hashlibSha256 (hashlibSha256 [5]) proof.normalizationRuns (hashlibSha256 [])
    (publicRecords g)

/-- Custody of the artifact, with the pages of its proof in the state store. -/
def sampleCustody (g : PreparedGroup Digest) (proof : ReplayProof Digest) :
    TypedReadyCustody Digest where
  active := [sampleArtifact g proof]
  retired := []
  proofs := Table.empty.put (hashlibSha256 [5]) (sampleProof g proof)
  stateDb := ProofScan.ProofTables.activate hashlibSha256 ⟨Table.empty, Table.empty⟩
    (sampleProof g proof) (publicRecords g)

/-- A later source passes the comparison with a published artifact where both have a record. -/
theorem replay_accepts_published_later : ∃ g proof,
    prepareV2Group (collectorCodec (fun _ => "") sampleCodec) [publishedSlice]
      StreamSplits.splitClock none = .ok g ∧
    stageProof (collectorCodec (fun _ => "") sampleCodec) g 1 (hashlibSha256 []) = .ok proof ∧
    Tiles 0 (proof.normalizationRuns.map runSpan) g.records.length ∧
    ∃ r ∈ typedActiveSegments (sampleArtifact g proof), r.1 = ⟨5, 7⟩ ∧
      PagedOverlap.typedReadyOverlap ProofScan.digestBytes
        (collectorCodec (fun _ => "") sampleCodec) replaySources 1 (sampleCustody g proof)
        laterSlice.admission (hashlibSha256 [5]) r.2 ⟨6, 7⟩ = .ok () := by
  obtain ⟨hrecords, hsize⟩ := publishedSlice_records
  obtain ⟨hheld, hlater⟩ := laterSlice_held
  have hchain : Chain [publishedSlice] := by
    refine ⟨List.pairwise_singleton _ _, ?_⟩
    intro s hs
    obtain rfl := List.mem_singleton.mp hs
    rw [nextSequence_eq, hrecords]
    exact Nat.lt_add_of_pos_right (by decide)
  have hlength : ∀ s ∈ [publishedSlice], ∀ raw ∈ s.records, raw.length = audioRecordSize := by
    intro s hs raw hraw
    obtain rfl := List.mem_singleton.mp hs
    exact hsize raw (hrecords ▸ hraw)
  obtain ⟨g, hg⟩ := prepare_sample
  obtain ⟨-, hslices, hfacts, -⟩ := prepareV2Group_ok hg
  obtain ⟨proof, hproof, htiles, -, hchecked⟩ := @replay_accepts_published Digest _ _
    ProofScan.digestBytes _ _ StreamSplits.splitClock_valid _ _ hchain hlength _ hg 1
    (hashlibSha256 [])
  refine ⟨g, proof, hg, hproof, htiles, ?_⟩
  obtain ⟨hcount, hpublic⟩ := publicRecords_length StreamSplits.splitClock_valid hlength hg
  have hbound : ((publicRecords g).length : ℤ) ≤ NormalizationRuns.uint64Max := by
    rw [hcount, PreparedGroup.records, hslices, publishedSlice_entries]
    decide
  have hwritten : Written hashlibSha256 (sampleCustody g proof).stateDb (sampleProof g proof)
      (publicRecords g) := ProofScan.written_activate hpublic hbound _ _ _ _
  have hrun : typedActiveSegments (sampleArtifact g proof) =
      [(⟨5, 7⟩, ⟨{ proof with lifecycle := .active }, 5, 0⟩)] := by
    have hruns : physicalRuns (sampleArtifact g proof).entry.facts = [⟨5, 7⟩] := by
      have hentry : physicalRuns (sampleArtifact g proof).entry.facts = physicalRuns g.facts := rfl
      have hnext : publishedSlice.nextSequence = 7 := by
        rw [nextSequence_eq, hrecords]
        rfl
      rw [hentry, hfacts]
      change [(⟨publishedSlice.startSequence, publishedSlice.nextSequence⟩ : Span)] = _
      rw [hnext]
      rfl
    rw [typedActiveSegments, hruns]
    rfl
  have hin : (⟨6, 7⟩ : Span).Inside (⟨5, 7⟩ : Span) := ⟨by decide, by decide⟩
  have hinLater : (⟨6, 7⟩ : Span).Inside laterSlice.span := by
    refine ⟨le_rfl, ?_⟩
    rw [Slice.span, nextSequence_eq, hlater]
    decide
  have hread : ∀ x raw, (⟨6, 7⟩ : Span).Contains x → laterSlice.rawAt x = some raw →
      x = 6 ∧ raw = packetRecord := by
    intro x raw hx hraw
    obtain rfl : x = 6 := by
      have h1 : 6 ≤ x := hx.1
      have h2 : x < 7 := hx.2
      omega
    rw [Slice.rawAt, hlater] at hraw
    exact ⟨rfl, (Option.some.inj hraw).symm⟩
  refine ⟨_, hrun ▸ List.mem_singleton_self _, rfl, ?_⟩
  refine (hchecked (hashlibSha256 [5]) (sampleStage g) (sampleCustody g proof)
    (sampleProof g proof) (Table.get_put_self ..) rfl hwritten replaySources 1 le_rfl _
    (hrun ▸ List.mem_singleton_self _) laterSlice ⟨6, 7⟩ hheld hin hinLater (by decide) ?_).1.mpr ?_
  · -- Both records are the same, whatever their digests.
    intro x raw published hx hraw hmem run _ m n hm hn _
    obtain ⟨rfl, rfl⟩ := hread x raw hx hraw
    rw [publishedSlice_entries] at hmem
    obtain rfl : published = packetRecord := by simpa using hmem
    exact Except.ok.inj (hm.symm.trans hn)
  · intro x raw hx hraw
    obtain ⟨rfl, rfl⟩ := hread x raw hx hraw
    rw [publishedSlice_entries]
    simp

end Sample

end ReplayExact
