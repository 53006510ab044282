import OmiCollector.LedgerEntries
import OmiCollector.SealedSources

/-! What the encoder writes for a prepared stage, and what its readers find in it. -/
namespace LedgerEncoding

open ByteCodec PyValue SpanCover PublicationLedger TypedSlices SlicePartition PublicationGroups
open PublicationStage hiding v2LedgerEntry
open LedgerEntries

def textFacts (facts : BundleFacts Sha256) : BundleFacts String :=
  ⟨facts.startSequence, facts.nextSequence, facts.recordCount, facts.rawSha256.1, facts.gaps⟩

section Groups

variable {D : Type} {codec : Codec D}

theorem gapsOf_within {a : Slice D} {rest : List (Slice D)} (h : Chain (a :: rest)) {cursor next : ℕ}
    (hnext : next = (((a :: rest).getLast?).map (·.nextSequence)).getD 0)
    (hcursor : cursor < a.nextSequence) : GapsWithin next cursor (gapsOf (a :: rest)) := by
  induction rest generalizing a cursor with
  | nil => trivial
  | cons b rest ih =>
    have hrest : Chain (b :: rest) := h.sublist (List.sublist_cons_self a _)
    have hb : b.startSequence < b.nextSequence := h.nonempty b (by simp)
    have hab : a.nextSequence ≤ b.startSequence := (List.pairwise_cons.mp h.ordered).1 b (by simp)
    have hnext' : next = (((b :: rest).getLast?).map (·.nextSequence)).getD 0 := by
      rw [hnext, List.getLast?_cons_cons]
    rw [gapsOf]
    by_cases hgap : a.nextSequence < b.startSequence
    · rw [if_pos hgap]
      refine ⟨hcursor, hgap, ?_, ih hrest hnext' hb⟩
      obtain ⟨last, hlast⟩ := Option.ne_none_iff_exists'.mp
        (show (b :: rest).getLast? ≠ none by simp)
      obtain ⟨hruns, -⟩ := runsFrom_gapsOf hrest hnext' hb
      obtain ⟨r, runs, heq, hstart⟩ := @runsFrom_head next b.startSequence (gapsOf (b :: rest))
      have := hruns.inside r (by rw [heq]; simp)
      omega
    · rw [if_neg hgap, List.nil_append]
      exact ih hrest hnext' (by omega)

theorem chain_sum {a : Slice D} {rest : List (Slice D)} (h : Chain (a :: rest)) :
    (((a :: rest).getLast?).map (·.nextSequence)).getD 0 =
      a.startSequence + ((a :: rest).map (·.recordCount)).sum + gapRecords (gapsOf (a :: rest)) := by
  induction rest generalizing a with
  | nil => simp [gapsOf, gapRecords, Slice.nextSequence]
  | cons b rest ih =>
    have hrest : Chain (b :: rest) := h.sublist (List.sublist_cons_self a _)
    have hab : a.nextSequence ≤ b.startSequence := (List.pairwise_cons.mp h.ordered).1 b (by simp)
    have ha : a.nextSequence = a.startSequence + a.recordCount := rfl
    rw [List.getLast?_cons_cons, ih hrest, gapsOf]
    by_cases hgap : a.nextSequence < b.startSequence
    · rw [if_pos hgap]
      simp only [gapRecords, List.cons_append, List.nil_append, List.map_cons, List.sum_cons]
      omega
    · rw [if_neg hgap, List.nil_append]
      simp only [List.map_cons, List.sum_cons]
      omega

/-- What a chain of slices says about the facts of its group. -/
theorem groupFacts_spec {slices : List (Slice D)} (h : Chain slices) (hne : slices ≠ []) :
    (groupFacts codec slices).startSequence < (groupFacts codec slices).nextSequence ∧
      GapsWithin (groupFacts codec slices).nextSequence (groupFacts codec slices).startSequence
        (groupFacts codec slices).gaps ∧
      (groupFacts codec slices).recordCount = (groupFacts codec slices).nextSequence -
        (groupFacts codec slices).startSequence - gapRecords (groupFacts codec slices).gaps := by
  obtain ⟨a, rest, rfl⟩ := List.exists_cons_of_ne_nil hne
  have ha : a.startSequence < a.nextSequence := h.nonempty a (by simp)
  have hsum := chain_sum h
  have hcount : a.recordCount ≤ ((a :: rest).map (·.recordCount)).sum := by simp
  have hlen : a.nextSequence = a.startSequence + a.recordCount := rfl
  simp only [groupFacts, List.head?_cons, Option.map_some, Option.getD_some]
  refine ⟨by omega, gapsOf_within h rfl ha, by omega⟩

/-- The physical runs of a group are the maximal contiguous ranges of its slices. -/
theorem physicalRuns_maximal {slices : List (Slice D)} (h : Chain slices) (hne : slices ≠ []) :
    MaximalRuns slices (physicalRuns (groupFacts codec slices)) := by
  obtain ⟨hspan, hgaps, -⟩ := @groupFacts_spec D codec slices h hne
  obtain ⟨hseparate, -⟩ := runsFrom_spec hspan hgaps
  refine ⟨hseparate, fun x => ?_⟩
  obtain ⟨-, hseq⟩ := @physicalRuns_groupFacts D codec slices h hne
  rw [← mem_runSequences, hseq, List.mem_map]
  constructor
  · rintro ⟨⟨y, raw⟩, hentry, rfl⟩
    obtain ⟨s, hs, hx, -⟩ := mem_entriesOf.mp hentry
    exact ⟨s, hs, hx⟩
  · rintro ⟨s, hs, hx⟩
    obtain ⟨raw, hraw, -⟩ := rawAt_of_contains hx
    exact ⟨(x, raw), mem_entriesOf.mpr ⟨s, hs, hx, hraw⟩, rfl⟩

end Groups

def lineageOf (codec : Codec Sha256) (slices : List (Slice Sha256)) : List (SourceLineage String) :=
  slices.map fun s => (s.startSequence, s.nextSequence, (s.rawSha256 codec).1)

/-- The slices of a group tile what its gaps leave. -/
theorem lineage_tiles {codec : Codec Sha256} {slices : List (Slice Sha256)} (h : Chain slices)
    (hne : slices ≠ []) : TilesFacts (textFacts (groupFacts codec slices)) (lineageOf codec slices) := by
  obtain ⟨hspan, hgaps, -⟩ := @groupFacts_spec Sha256 codec slices h hne
  obtain ⟨-, hmaximal⟩ := @physicalRuns_maximal Sha256 codec slices h hne
  obtain ⟨-, -, hcovers⟩ := runsFrom_spec hspan hgaps
  refine ⟨List.pairwise_map.mpr h.ordered, fun x => ?_⟩
  have hslices : (∃ s ∈ lineageOf codec slices, s.1 ≤ x ∧ x < s.2.1) ↔ SeqIn slices x := by
    simp only [lineageOf, List.mem_map, exists_exists_and_eq_and]
    rfl
  rw [hslices, ← hmaximal]
  exact hcovers x

section Encoding

theorem parseGapsFrom_gapValues {stop cursor : ℕ} {gaps : List (ℕ × ℕ)}
    (h : GapsWithin stop cursor gaps) : parseGapsFrom stop cursor (gaps.map gapValue) = some gaps := by
  induction gaps generalizing cursor with
  | nil => rfl
  | cons gap gaps ih =>
    obtain ⟨left, right⟩ := gap
    obtain ⟨hleft, hgap, hright, hrest⟩ := h
    have hrange : validRange (number left) (number right) = some (left, right) :=
      validRange_iff.mpr ⟨rfl, rfl, hgap⟩
    rw [List.map_cons, parseGapsFrom]
    simp only [gapValue, Value.asList, hrange]
    rw [if_neg (by simp only at hleft hright; omega), ih hrest]
    rfl

/-- The entry of a stage in any state. -/
def v2Fields (codec : Codec Sha256) (stage : V2Stage) (recordsSha256 : Sha256) (state : String) :
    Fields :=
  ledgerEntry recordsSha256 state stage.group.facts
    (some (stage.group.slices.map fun s => (s.startSequence, s.nextSequence, s.rawSha256 codec))) ++
  [("format", .str "omi-audio-v2"), ("order", number stage.stored.order),
    ("audio_sha256", .str stage.group.audioSha256.1), ("audio_bytes", number stage.audioBytes),
    ("manifest_sha256", .str stage.stored.manifestSha256.1),
    ("manifest_bytes", number stage.manifestBytes), ("packet_count", number stage.group.packetCount)]

/-- What the encoder puts under each key. -/
structure Encoded (codec : Codec Sha256) (stage : V2Stage) (recordsSha256 : Sha256) (state : String)
    (entry : Fields) : Prop where
  keys : HasKeys entry v2LedgerFields ["gaps"]
  records : entry.lookup "records_sha256" = some (.str recordsSha256.1)
  state : entry.lookup "state" = some (.str state)
  start : entry.lookup "start_sequence" = some (number stage.group.facts.startSequence)
  stop : entry.lookup "next_sequence" = some (number stage.group.facts.nextSequence)
  raw : entry.lookup "draft_raw_sha256" = some (.str stage.group.facts.rawSha256.1)
  gaps : entry.lookup "gaps" =
    if stage.group.facts.gaps = [] then none else some (.list (stage.group.facts.gaps.map gapValue))
  sources : entry.lookup "sources" = some (.list (stage.group.slices.map fun s =>
    .dict (sourceFields (s.startSequence, s.nextSequence, s.rawSha256 codec))))
  format : entry.lookup "format" = some (.str "omi-audio-v2")
  order : entry.lookup "order" = some (number stage.stored.order)
  audioSha256 : entry.lookup "audio_sha256" = some (.str stage.group.audioSha256.1)
  audioBytes : entry.lookup "audio_bytes" = some (number stage.audioBytes)
  manifestSha256 : entry.lookup "manifest_sha256" = some (.str stage.stored.manifestSha256.1)
  manifestBytes : entry.lookup "manifest_bytes" = some (number stage.manifestBytes)
  packetCount : entry.lookup "packet_count" = some (number stage.group.packetCount)

theorem encoded_v2Fields (codec : Codec Sha256) (stage : V2Stage) (recordsSha256 : Sha256)
    (state : String) : Encoded codec stage recordsSha256 state (v2Fields codec stage recordsSha256 state) := by
  by_cases hgaps : stage.group.facts.gaps = []
  · constructor <;> simp [v2Fields, ledgerEntry, hgaps, List.lookup_cons, HasKeys, v2LedgerFields,
      ledgerEntryFields]
  · constructor <;> simp [v2Fields, ledgerEntry, hgaps, List.lookup_cons, HasKeys, v2LedgerFields,
      ledgerEntryFields]

theorem retiredEntry_v2LedgerEntry (codec : Codec Sha256) (stage : V2Stage) (recordsSha256 : Sha256) :
    retiredEntry (v2LedgerEntry codec stage recordsSha256) =
      v2Fields codec stage recordsSha256 "retired" := by
  have hstate : ((v2LedgerEntry codec stage recordsSha256).lookup "state").isSome := by
    rw [show v2LedgerEntry codec stage recordsSha256 = v2Fields codec stage recordsSha256 "ready" from rfl,
      (encoded_v2Fields codec stage recordsSha256 "ready").state]
    rfl
  rw [retiredEntry, assign, if_pos hstate]
  by_cases hgaps : stage.group.facts.gaps = [] <;>
    simp [v2LedgerEntry, v2Fields, ledgerEntry, hgaps]

variable {codec : Codec Sha256} {stage : V2Stage} {recordsSha256 : Sha256} {state : String}
  {entry : Fields}

theorem memberOf_state (h : state = "ready" ∨ state = "retired") :
    memberOf (.str state) ["ready", "retired"] = .ok true := by
  rcases h with rfl | rfl <;> rfl

theorem sha256Text_str (d : Sha256) : sha256Text (.str d.1) = some d.1 :=
  sha256Text_iff.mpr ⟨rfl, d.2⟩

/-- The group of a stage as `_prepare_v2_group` leaves it, over a chain of slices. -/
structure Prepared (codec : Codec Sha256) (g : PreparedGroup Sha256) : Prop where
  prepared : prepareV2Group codec g.slices g.clock g.initialFrontier = .ok g
  chain : Chain g.slices
  packets : 0 < g.packetCount

theorem Prepared.facts {g : PreparedGroup Sha256} (h : Prepared codec g) :
    g.slices ≠ [] ∧ g.facts = groupFacts codec g.slices := by
  obtain ⟨hne, -, hfacts, -⟩ := prepareV2Group_ok h.prepared
  exact ⟨hne, hfacts⟩

theorem Encoded.range (h : Encoded codec stage recordsSha256 state entry)
    (hspan : stage.group.facts.startSequence < stage.group.facts.nextSequence) :
    validRange (get entry "start_sequence") (get entry "next_sequence") =
      some (stage.group.facts.startSequence, stage.group.facts.nextSequence) :=
  validRange_iff.mpr ⟨get_eq h.start, get_eq h.stop, hspan⟩

theorem Encoded.parseGaps (h : Encoded codec stage recordsSha256 state entry)
    (hgaps : GapsWithin stage.group.facts.nextSequence stage.group.facts.startSequence
      stage.group.facts.gaps) :
    parseLedgerGaps entry stage.group.facts.startSequence stage.group.facts.nextSequence =
      some stage.group.facts.gaps := by
  unfold parseLedgerGaps
  rw [h.gaps]
  by_cases hnil : stage.group.facts.gaps = []
  · rw [if_pos hnil, hnil]
  · rw [if_neg hnil]
    simp only [Value.asList, List.map_eq_nil_iff, if_neg hnil]
    exact parseGapsFrom_gapValues hgaps

theorem sourceItem_sourceFields {source : SourceLineage Sha256} (h : source.1 < source.2.1) :
    SourceItem (sourceFields source) (source.1, source.2.1, source.2.2.1) := by
  constructor <;> simp [sourceFields, HasKeys, ledgerSourceFields, List.lookup_cons, h, source.2.2.2]

/-- The sources of the entry are the slices of the group. -/
theorem Encoded.parseSources (h : Prepared codec stage.group) :
    parseSources (.list (stage.group.slices.map fun s =>
      .dict (sourceFields (s.startSequence, s.nextSequence, s.rawSha256 codec))))
      (textFacts stage.group.facts) = some (lineageOf codec stage.group.slices) := by
  obtain ⟨hne, hfacts⟩ := h.facts
  obtain ⟨-, hgaps, -⟩ := @groupFacts_spec Sha256 codec _ h.chain hne
  rw [hfacts]
  have hdicts : (stage.group.slices.map fun s => Value.dict
      (sourceFields (s.startSequence, s.nextSequence, s.rawSha256 codec))) =
      (stage.group.slices.map fun s =>
        sourceFields (s.startSequence, s.nextSequence, s.rawSha256 codec)).map .dict := by
    rw [List.map_map]
    rfl
  rw [hdicts, parseSources_iff hgaps]
  refine ⟨by simpa using hne, ?_, lineage_tiles h.chain hne⟩
  rw [lineageOf, List.forall₂_map_right_iff, List.forall₂_map_left_iff, List.forall₂_same]
  intro s hs
  have hlt : s.startSequence < s.nextSequence := h.chain.nonempty s hs
  exact sourceItem_sourceFields hlt

theorem factsOf_textFacts (h : Prepared codec stage.group) :
    factsOf stage.group.facts.startSequence stage.group.facts.nextSequence
      stage.group.facts.rawSha256.1 stage.group.facts.gaps = textFacts stage.group.facts := by
  obtain ⟨hne, hfacts⟩ := h.facts
  obtain ⟨-, -, hcount⟩ := @groupFacts_spec Sha256 codec _ h.chain hne
  rw [← hfacts] at hcount
  rw [factsOf, textFacts, hcount]

/-- The dictionary of a stage has the facts of its entry in the publication ledger. -/
theorem v2LedgerEntry_facts (h : Prepared codec stage.group) :
    (PublicationStage.v2LedgerEntry codec stage.group stage.stored recordsSha256).facts =
      stage.group.facts := by
  obtain ⟨hne, hfacts⟩ := h.facts
  obtain ⟨-, -, hcount⟩ := @groupFacts_spec Sha256 codec _ h.chain hne
  rw [← hfacts] at hcount
  rw [PublicationStage.v2LedgerEntry, Entry.facts, ← hcount]

theorem Encoded.numbers (h : Encoded codec stage recordsSha256 state entry)
    (hpackets : 0 < stage.group.packetCount) : validV2Numbers entry = true := by
  have horder := stage.order_le
  have haudio := stage.audio_pos
  have hmanifest := stage.manifest_pos
  unfold validV2Numbers
  rw [get_eq h.order, get_eq h.packetCount, get_eq h.audioBytes, get_eq h.manifestBytes]
  simp only [number, Value.asInt, decide_eq_true_eq]
  omega

/-- The validator accepts what the encoder writes. -/
theorem Encoded.valid (h : Encoded codec stage recordsSha256 state entry)
    (hstate : state = "ready" ∨ state = "retired") (hgroup : Prepared codec stage.group)
    (sha256 : Bytes → Sha256) (id : Sha256) :
    validLedgerEntry sha256 id.1 (.dict entry) = .ok true := by
  obtain ⟨hne, hfacts⟩ := hgroup.facts
  obtain ⟨hspan, hgaps, -⟩ := @groupFacts_spec Sha256 codec _ hgroup.chain hne
  rw [← hfacts] at hspan hgaps
  unfold validLedgerEntry
  simp only [Value.asDict]
  rw [if_neg (by simp [id.2, get_eq h.records, sha256Text_str]), get_eq h.format]
  simp only [Value.asText, if_true]
  unfold validV2LedgerEntry
  rw [get_eq h.state, memberOf_state hstate]
  simp only [bind, Except.bind]
  rw [if_neg (by simp [h.keys, get_eq h.audioSha256, get_eq h.manifestSha256, sha256Text_str,
    h.numbers hgroup.packets]), h.range hspan]
  simp only [h.parseGaps hgaps, get_eq h.raw, Value.asText, get_eq h.sources]
  rw [factsOf_textFacts hgroup, Encoded.parseSources hgroup]
  rfl

theorem Encoded.facts (h : Encoded codec stage recordsSha256 state entry)
    (hgroup : Prepared codec stage.group) : entryFacts entry = .ok (textFacts stage.group.facts) := by
  obtain ⟨hne, hfacts⟩ := hgroup.facts
  obtain ⟨-, hgaps, -⟩ := @groupFacts_spec Sha256 codec _ hgroup.chain hne
  rw [← hfacts] at hgaps
  unfold entryFacts required
  rw [h.start, h.stop, h.raw]
  simp only [bind, Except.bind, pure, Except.pure, number, Value.asInt, Value.asText, asserted,
    Int.toNat_natCast, h.parseGaps hgaps]
  rw [factsOf_textFacts hgroup]

theorem Encoded.lineage (h : Encoded codec stage recordsSha256 state entry)
    (hgroup : Prepared codec stage.group) :
    sourceLineage entry = .ok (lineageOf codec stage.group.slices) := by
  obtain ⟨hne, hfacts⟩ := hgroup.facts
  obtain ⟨hspan, hgaps, -⟩ := @groupFacts_spec Sha256 codec _ hgroup.chain hne
  rw [← hfacts] at hspan hgaps
  unfold sourceLineage
  simp only [h.sources, h.range hspan, get_eq h.raw, sha256Text_str, h.parseGaps hgaps]
  rw [factsOf_textFacts hgroup, Encoded.parseSources hgroup]
  rfl

end Encoding

/-- The entry of a prepared stage, ready or retired, is accepted and read back as its group: the
facts, the maximal runs and the slices. For any facts with gaps inside their span, sources are
accepted exactly when they are valid slices that tile what the gaps leave. -/
theorem v2LedgerEntry_agrees (codec : Codec Sha256) (sha256 : Bytes → Sha256) :
    (∀ stage : V2Stage, Prepared codec stage.group → ∀ recordsSha256 : Sha256,
      ∀ entry ∈ [v2LedgerEntry codec stage recordsSha256,
          retiredEntry (v2LedgerEntry codec stage recordsSha256)],
        validLedgerEntry sha256 stage.stored.artifactId.1 (.dict entry) = .ok true ∧
        entryFacts entry = .ok (textFacts stage.group.facts) ∧
        (PublicationStage.v2LedgerEntry codec stage.group stage.stored recordsSha256).facts =
          stage.group.facts ∧
        MaximalRuns stage.group.slices (physicalRuns (textFacts stage.group.facts)) ∧
        sourceLineage entry = .ok (lineageOf codec stage.group.slices)) ∧
    ∀ facts : BundleFacts String,
      GapsWithin facts.nextSequence facts.startSequence facts.gaps →
      ∀ (dicts : List Fields) (sources : List (SourceLineage String)),
        parseSources (.list (dicts.map .dict)) facts = some sources ↔
          dicts ≠ [] ∧ List.Forall₂ SourceItem dicts sources ∧ TilesFacts facts sources := by
  refine ⟨fun stage hgroup recordsSha256 entry hentry => ?_, fun facts hgaps dicts sources =>
    parseSources_iff hgaps⟩
  obtain ⟨state, hstate, hencoded⟩ : ∃ state, (state = "ready" ∨ state = "retired") ∧
      Encoded codec stage recordsSha256 state entry := by
    rcases List.mem_pair.mp hentry with rfl | rfl
    · exact ⟨"ready", .inl rfl, encoded_v2Fields codec stage recordsSha256 "ready"⟩
    · refine ⟨"retired", .inr rfl, ?_⟩
      rw [retiredEntry_v2LedgerEntry]
      exact encoded_v2Fields codec stage recordsSha256 "retired"
  obtain ⟨hne, hfacts⟩ := hgroup.facts
  refine ⟨hencoded.valid hstate hgroup sha256 _, hencoded.facts hgroup, v2LedgerEntry_facts hgroup,
    ?_, hencoded.lineage hgroup⟩
  rw [hfacts]
  exact @physicalRuns_maximal Sha256 codec _ hgroup.chain hne

def zeroDigest : Sha256 :=
  ⟨"0000000000000000000000000000000000000000000000000000000000000000", by decide +kernel⟩

def unknownTime : FrozenPublicTime := ⟨.unknown, 0, none, "", false⟩

/-- The record scanner of the source over a constant digest. -/
def constantCodec : Codec Sha256 :=
  SealedSources.scannerCodec (fun _ => zeroDigest) (fun _ => some zeroDigest)
    (fun artifact _ _ _ => artifact) fun _ _ _ _ => unknownTime

/-- A record without packets, then a record with one behind a gap of two sequences. -/
def gapSlices : List (Slice Sha256) :=
  [⟨SealedSources.sealedAdmission (fun _ => zeroDigest) 1 5 [SealedSources.emptyRecord] 0, 0,
      [SealedSources.emptyRecord]⟩,
    ⟨SealedSources.sealedAdmission (fun _ => zeroDigest) 2 8 [SealedSources.packetRecord] 0, 0,
      [SealedSources.packetRecord]⟩]

def gapGroup : PreparedGroup Sha256 where
  slices := gapSlices
  facts := groupFacts constantCodec gapSlices
  projection := [⟨0, unknownTime, false, true⟩, ⟨1, unknownTime, true, true⟩]
  audioSha256 := zeroDigest
  packetCount := 1
  clock := ClockModel.empty
  initialFrontier := none
  finalFrontier := ⟨8, unknownTime, none⟩

def gapStage : V2Stage where
  stored := stageOf constantCodec gapGroup zeroDigest 7 0
  group := gapGroup
  audioBytes := 100
  manifestBytes := 50
  order_le := by decide
  audio_pos := by decide
  manifest_pos := by decide

theorem projectRecords_gap {empty packet : Bytes}
    (hempty : constantCodec.inspectRecord true empty = some ⟨0, 0, none, []⟩)
    (hpacket : constantCodec.inspectRecord true packet = some ⟨1, 0, none, [[8, 0x55]]⟩) :
    projectRecords constantCodec ClockModel.empty none [(5, empty), (8, packet)] =
      .ok [⟨⟨0, unknownTime, false, true⟩, ⟨5, unknownTime, none⟩, []⟩,
        ⟨⟨1, unknownTime, true, true⟩, ⟨8, unknownTime, none⟩, [[8, 0x55]]⟩] := by
  simp only [projectRecords, projectRecord, hempty, hpacket]
  rfl

theorem gapGroup_prepared : Prepared constantCodec gapGroup := by
  have hproject := projectRecords_gap
    (SealedSources.scannerCodec_inspectRecord SealedSources.emptyRecord_length
      (SealedSources.emptyRecord_framed true))
    (SealedSources.scannerCodec_inspectRecord SealedSources.packetRecord_length
      (SealedSources.packetRecord_framed true))
  have hentries : entriesOf gapGroup.slices =
      [(5, SealedSources.emptyRecord), (8, SealedSources.packetRecord)] := rfl
  refine ⟨?_, ⟨?_, ?_⟩, by decide⟩
  · unfold prepareV2Group
    rw [if_neg (show gapGroup.slices ≠ [] from List.cons_ne_nil _ _), hentries]
    simp only [gapGroup, hproject]
    rfl
  · exact List.pairwise_pair.mpr (by decide)
  · intro s hs
    rcases List.mem_pair.mp hs with rfl | rfl
    · exact Nat.lt_succ_self 5
    · exact Nat.lt_succ_self 8

/-- The source of a list item with a constant digest. -/
def itemOf (start next : ℕ) : Fields := sourceFields (start, next, zeroDigest)

/-- A list that follows the gap is accepted in pieces, and one that covers the gap is refused. -/
theorem v2LedgerEntry_agrees_gap :
    validLedgerEntry (fun _ => zeroDigest) zeroDigest.1
        (.dict (v2LedgerEntry constantCodec gapStage zeroDigest)) = .ok true ∧
      entryFacts (v2LedgerEntry constantCodec gapStage zeroDigest) =
        .ok ⟨5, 9, 2, zeroDigest.1, [(6, 8)]⟩ ∧
      sourceLineage (v2LedgerEntry constantCodec gapStage zeroDigest) =
        .ok [(5, 6, zeroDigest.1), (8, 9, zeroDigest.1)] ∧
      parseSources (.list ([itemOf 5 6, itemOf 8 10, itemOf 10 12].map .dict))
          ⟨5, 12, 5, zeroDigest.1, [(6, 8)]⟩ =
        some [(5, 6, zeroDigest.1), (8, 10, zeroDigest.1), (10, 12, zeroDigest.1)] ∧
      parseSources (.list ([itemOf 5 7, itemOf 8 12].map .dict))
          ⟨5, 12, 5, zeroDigest.1, [(6, 8)]⟩ = none := by
  obtain ⟨hstages, hsources⟩ := v2LedgerEntry_agrees constantCodec fun _ => zeroDigest
  obtain ⟨hvalid, hfacts, -, -, hlineage⟩ := hstages gapStage gapGroup_prepared zeroDigest _
    (List.mem_pair.mpr (.inl rfl))
  have hgaps : GapsWithin 12 5 [(6, 8)] := ⟨by decide, by decide, by decide, trivial⟩
  refine ⟨hvalid, hfacts, hlineage, (hsources _ hgaps _ _).mpr ⟨List.cons_ne_nil _ _, ?_, ?_, ?_⟩,
    Option.eq_none_iff_forall_not_mem.mpr fun sources h => ?_⟩
  · refine .cons ?_ (.cons ?_ (.cons ?_ .nil)) <;>
      exact sourceItem_sourceFields (by decide)
  · simp
  · intro x
    simp only [List.mem_cons, List.not_mem_nil, or_false, exists_eq_or_imp, exists_eq_left, forall_eq]
    omega
  · obtain ⟨-, hitems, hcover⟩ := (hsources _ hgaps _ sources).mp h
    obtain ⟨first, later, hfirst, -, rfl⟩ := List.forall₂_cons_left_iff.mp hitems
    -- sequence 6 lies in the first item and in the gap
    have hstop : number 7 = number first.2.1 := Option.some.inj hfirst.stop
    have hstart : number 5 = number first.1 := Option.some.inj hfirst.start
    simp only [number, Value.int.injEq, Nat.cast_inj] at hstop hstart
    obtain ⟨-, hgap⟩ := (hcover.covers 6).mp ⟨first, by simp, by omega, by omega⟩
    exact hgap (6, 8) (by simp) ⟨le_rfl, by decide⟩

end LedgerEncoding
