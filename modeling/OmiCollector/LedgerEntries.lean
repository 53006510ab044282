import OmiCollector.DecimalText
import OmiCollector.PublicationStage
import OmiCollector.PublicTimeline
import OmiCollector.PyValue

/-! Ready ledger entries as the JSON dictionaries that the state database keeps.

What the encoder writes for a stage its validator accepts, and the facts, runs and source slices
that are read back are those of the group. The sources of an entry are accepted exactly when they
tile what the gaps leave of its span. -/
namespace LedgerEntries

open ByteCodec PyValue SpanCover PublicationLedger TypedSlices SlicePartition PublicationGroups
open PublicationStage

/-- A lowercase SHA-256 text. -/
abbrev Sha256 := {text : String // PublicTimeline.IsDigest text}

/-- `dict.get`, which returns `None` for a missing key. -/
def get (fields : Fields) (key : String) : Value := (fields.lookup key).getD .null

/-- `dict[key] = value`. -/
def assign (fields : Fields) (key : String) (value : Value) : Fields :=
  if (fields.lookup key).isSome then
    fields.map fun f => if f.1 = key then (f.1, value) else f
  else fields ++ [(key, value)]

def ledgerEntryFields : List String :=
  ["records_sha256", "state", "start_sequence", "next_sequence", "draft_raw_sha256"]

def v2LedgerFields : List String :=
  ledgerEntryFields ++ ["format", "order", "audio_sha256", "audio_bytes", "manifest_sha256",
    "manifest_bytes", "packet_count", "sources"]

def publicationDateFields : List String :=
  ["formed_on_utc", "recorded_on_utc_min", "recorded_on_utc_max"]

def ledgerSourceFields : List String := ["start_sequence", "next_sequence", "raw_sha256"]

def number (n : ℕ) : Value := .int n

def gapValue (gap : ℕ × ℕ) : Value := .list [number gap.1, number gap.2]

def sourceFields (source : SourceLineage Sha256) : Fields :=
  [("start_sequence", number source.1), ("next_sequence", number source.2.1),
    ("raw_sha256", .str source.2.2.1)]

def ledgerEntry (recordsSha256 : Sha256) (state : String) (source : BundleFacts Sha256)
    (lineage : Option (List (SourceLineage Sha256))) : Fields :=
  [("records_sha256", .str recordsSha256.1), ("state", .str state),
    ("start_sequence", number source.startSequence), ("next_sequence", number source.nextSequence),
    ("draft_raw_sha256", .str source.rawSha256.1)] ++
  (if source.gaps = [] then [] else [("gaps", .list (source.gaps.map gapValue))]) ++
  match lineage with
  | none => []
  | some sources => [("sources", .list (sources.map fun s => .dict (sourceFields s)))]

/-- A stage with the lengths of its audio stream and of its manifest. The stream starts with its
header pages and the manifest is a JSON object, so neither is empty; orders are taken from the
contract below its limit. -/
structure V2Stage where
  stored : Stage Sha256
  group : PreparedGroup Sha256
  audioBytes : ℕ
  manifestBytes : ℕ
  order_le : stored.order ≤ PublicTime.uint64Max
  audio_pos : 0 < audioBytes
  manifest_pos : 0 < manifestBytes

def v2LedgerEntry (codec : Codec Sha256) (stage : V2Stage) (recordsSha256 : Sha256) : Fields :=
  ledgerEntry recordsSha256 "ready" stage.group.facts
    (some (stage.group.slices.map fun s => (s.startSequence, s.nextSequence, s.rawSha256 codec))) ++
  [("format", .str "omi-audio-v2"), ("order", number stage.stored.order),
    ("audio_sha256", .str stage.group.audioSha256.1), ("audio_bytes", number stage.audioBytes),
    ("manifest_sha256", .str stage.stored.manifestSha256.1),
    ("manifest_bytes", number stage.manifestBytes), ("packet_count", number stage.group.packetCount)]

/-- The entry that a retirement leaves. -/
def retiredEntry (entry : Fields) : Fields := assign entry "state" (.str "retired")

/-- `isinstance(value, str)` and 64 lowercase hexadecimal digits. -/
def sha256Text (value : Value) : Option String :=
  value.asText.filter fun text => PublicTimeline.IsDigest text

/-- The two integers of a valid range. -/
def validRange (start next : Value) : Option (ℕ × ℕ) :=
  match start.asInt, next.asInt with
  | some a, some b => if 0 ≤ a ∧ a < b then some (a.toNat, b.toNat) else none
  | _, _ => none

def parseGapsFrom (stop : ℕ) : ℕ → List Value → Option (List (ℕ × ℕ))
  | _, [] => some []
  | cursor, item :: items =>
    match item.asList with
    | some [left, right] =>
      match validRange left right with
      | none => none
      | some (left, right) =>
        if left ≤ cursor ∨ stop ≤ right then none
        else (parseGapsFrom stop right items).map ((left, right) :: ·)
    | _ => none

def parseLedgerGaps (entry : Fields) (start stop : ℕ) : Option (List (ℕ × ℕ)) :=
  match entry.lookup "gaps" with
  | none => some []
  | some value =>
    match value.asList with
    | none => none
    | some items => if items = [] then none else parseGapsFrom stop start items

def factsOf (start stop : ℕ) (digest : String) (gaps : List (ℕ × ℕ)) : BundleFacts String :=
  ⟨start, stop, stop - start - gapRecords gaps, digest, gaps⟩

/-- The run under the cursor: a cursor at the stop of its run moves to the next one. -/
def skipFull : List Span → ℕ → List Span × ℕ
  | [], cursor => ([], cursor)
  | [run], cursor => if cursor = run.stop then ([], cursor) else ([run], cursor)
  | run :: next :: runs, cursor =>
    if cursor = run.stop then skipFull (next :: runs) next.start
    else (run :: next :: runs, cursor)

def coverFrom : List (SourceLineage String) → List Span → ℕ → Bool
  | [], [run], cursor => cursor = run.stop
  | [], _, _ => false
  | (start, stop, _) :: sources, runs, cursor =>
    match skipFull runs cursor with
    | ([], _) => false
    | (run :: runs, cursor) =>
      if start ≠ cursor ∨ run.stop < stop then false else coverFrom sources (run :: runs) stop

def sourcesCoverRuns (sources : List (SourceLineage String)) (facts : BundleFacts String) : Bool :=
  let runs := physicalRuns facts
  coverFrom sources runs ((runs.head?.map Span.start).getD 0)

def parseSource (item : Value) : Option (SourceLineage String) :=
  match item.asDict with
  | none => none
  | some fields =>
    if ¬ HasKeys fields ledgerSourceFields [] then none
    else
      match validRange (get fields "start_sequence") (get fields "next_sequence"),
        sha256Text (get fields "raw_sha256") with
      | some (start, stop), some digest => some (start, stop, digest)
      | _, _ => none

def parseSourcesFrom : Option ℕ → List Value → Option (List (SourceLineage String))
  | _, [] => some []
  | previousEnd, item :: items =>
    match parseSource item with
    | none => none
    | some source =>
      if previousEnd.any fun stop => decide (source.1 < stop) then none
      else (parseSourcesFrom (some source.2.1) items).map (source :: ·)

def parseSources (value : Value) (facts : BundleFacts String) :
    Option (List (SourceLineage String)) :=
  match value.asList with
  | none => none
  | some items =>
    if items = [] then none
    else (parseSourcesFrom none items).filter fun sources => sourcesCoverRuns sources facts

/-- What a validator of entries raises besides its own error. -/
inductive EntryError where
  | keyError (key : String)
  | typeError (message : String)
  | assertionError
  | invalid (message : String)
  deriving DecidableEq, Repr

/-- `value in {…}` for a set of texts; a list or a dictionary has no hash. -/
def memberOf (value : Value) (names : List String) : Except EntryError Bool :=
  match value with
  | .list _ => .error (.typeError "unhashable type: 'list'")
  | .dict _ => .error (.typeError "unhashable type: 'dict'")
  | .str s => .ok (s ∈ names)
  | _ => .ok false

/-- `0 ≤ order ≤ _UINT64_MAX` and positive counts, all of type `int`. -/
def validV2Numbers (entry : Fields) : Bool :=
  match (get entry "order").asInt, (get entry "packet_count").asInt,
    (get entry "audio_bytes").asInt, (get entry "manifest_bytes").asInt with
  | some order, some packetCount, some audioBytes, some manifestBytes =>
    0 ≤ order ∧ order ≤ PublicTime.uint64Max ∧ 0 < packetCount ∧ 0 < audioBytes ∧ 0 < manifestBytes
  | _, _, _, _ => false

def validV2LedgerEntry (entry : Fields) (start stop : Value) : Except EntryError Bool := do
  let state ← memberOf (get entry "state") ["ready", "retired"]
  if ¬ (HasKeys entry v2LedgerFields ["gaps"] ∧ state = true ∧
      (sha256Text (get entry "audio_sha256")).isSome ∧
      (sha256Text (get entry "manifest_sha256")).isSome ∧ validV2Numbers entry = true) then pure false
  else
    match validRange start stop with
    | none => pure false
    | some (start, stop) =>
      match parseLedgerGaps entry start stop, (get entry "draft_raw_sha256").asText with
      | some gaps, some digest =>
        pure (parseSources (get entry "sources") (factsOf start stop digest gaps)).isSome
      | _, _ => pure false

def daysInMonth (year month : ℕ) : ℕ :=
  if month = 2 then if year % 4 = 0 ∧ (year % 100 ≠ 0 ∨ year % 400 = 0) then 29 else 28
  else if month ∈ [4, 6, 9, 11] then 30 else 31

def decimal (digits : List Char) : ℕ :=
  digits.foldl (fun acc c => 10 * acc + DecimalText.digitValue c) 0

/-- A calendar date written as `YYYY-MM-DD`. -/
def canonicalUtcDate (value : Value) : Bool :=
  match value.asText.map String.toList with
  | some [y, y', y'', y''', '-', m, m', '-', d, d'] =>
    let year := decimal [y, y', y'', y''']
    let month := decimal [m, m']
    let day := decimal [d, d']
    [y, y', y'', y''', m, m', d, d'].all DecimalText.isDigit ∧ 1 ≤ year ∧ 1 ≤ month ∧ month ≤ 12 ∧
      1 ≤ day ∧ day ≤ daysInMonth year month
  | _ => false

def isNull : Value → Bool
  | .null => true
  | _ => false

def textLe (lower upper : Value) : Bool :=
  match lower.asText, upper.asText with
  | some lower, some upper => lower ≤ upper
  | _, _ => false

def validPublicationDates (entry : Fields) : Bool :=
  let present := publicationDateFields.filter fun key => (entry.lookup key).isSome
  if present = [] then true
  else if present ≠ publicationDateFields then false
  else
    let lower := get entry "recorded_on_utc_min"
    let upper := get entry "recorded_on_utc_max"
    if ¬ canonicalUtcDate (get entry "formed_on_utc") then false
    else if isNull lower ∨ isNull upper then isNull lower ∧ isNull upper
    else canonicalUtcDate lower ∧ canonicalUtcDate upper ∧ textLe lower upper

def bundleId (sha256 : Bytes → Sha256) (facts : BundleFacts String) : String :=
  let identity := toString facts.startSequence ++ ":" ++ toString facts.nextSequence ++ ":" ++
    facts.rawSha256 ++ String.join (facts.gaps.map fun gap =>
      ":" ++ toString gap.1 ++ "-" ++ toString gap.2)
  (sha256 identity.toUTF8.toList).1

/-- The entries of the older format, which are accepted only when retired. -/
def validLegacyLedgerEntry (sha256 : Bytes → Sha256) (id : String) (entry : Fields)
    (start stop : Value) : Bool :=
  let optional := (entry.map Prod.fst).filter (· ∉ ledgerEntryFields)
  let dated := optional.any (· ∈ publicationDateFields)
  if ¬ (∀ key ∈ optional, key ∈ publicationDateFields ∨ key ∈ ["gaps", "sources"]) ∨
      dated ≠ decide (∀ key ∈ publicationDateFields, (entry.lookup key).isSome) ∨
      (get entry "state").asText ≠ some "retired" then false
  else
    match validRange start stop, sha256Text (get entry "draft_raw_sha256") with
    | some (start, stop), some digest =>
      match parseLedgerGaps entry start stop with
      | none => false
      | some gaps =>
        if ¬ validPublicationDates entry then false
        else
          let facts := factsOf start stop digest gaps
          id = bundleId sha256 facts ∧
            (entry.lookup "sources").all fun sources => (parseSources sources facts).isSome
    | _, _ => false

def validLedgerEntry (sha256 : Bytes → Sha256) (id : String) (entry : Value) :
    Except EntryError Bool :=
  match entry.asDict with
  | none => pure false
  | some entry =>
    if ¬ PublicTimeline.IsDigest id ∨ sha256Text (get entry "records_sha256") = none then pure false
    else
      let start := get entry "start_sequence"
      let stop := get entry "next_sequence"
      if (get entry "format").asText = some "omi-audio-v2" then validV2LedgerEntry entry start stop
      else pure (validLegacyLedgerEntry sha256 id entry start stop)

def sourceLineage (entry : Fields) : Except EntryError (List (SourceLineage String)) :=
  let message := "ready publication ledger source lineage is invalid"
  match entry.lookup "sources" with
  | none => pure []
  | some sources =>
    match validRange (get entry "start_sequence") (get entry "next_sequence"),
      sha256Text (get entry "draft_raw_sha256") with
    | some (start, stop), some digest =>
      match parseLedgerGaps entry start stop with
      | none => .error (.invalid message)
      | some gaps =>
        match parseSources sources (factsOf start stop digest gaps) with
        | none => .error (.invalid message)
        | some lineage => pure lineage
    | _, _ => .error (.invalid message)

/-- `dict[key]`. -/
def required (entry : Fields) (key : String) : Except EntryError Value :=
  match entry.lookup key with
  | none => .error (.keyError key)
  | some value => pure value

/-- An assertion about the type of a value. -/
def asserted {α : Type} : Option α → Except EntryError α
  | none => .error .assertionError
  | some a => pure a

/-- The facts of an entry. Its callers pass accepted entries, whose range is of naturals. -/
def entryFacts (entry : Fields) : Except EntryError (BundleFacts String) := do
  let start ← required entry "start_sequence"
  let stop ← required entry "next_sequence"
  let digest ← required entry "draft_raw_sha256"
  let start ← asserted start.asInt
  let stop ← asserted stop.asInt
  let digest ← asserted digest.asText
  let gaps ← asserted (parseLedgerGaps entry start.toNat stop.toNat)
  pure (factsOf start.toNat stop.toNat digest gaps)

/-- Gaps strictly inside `(cursor, stop)`, in order and apart. -/
def GapsWithin (stop : ℕ) : ℕ → List (ℕ × ℕ) → Prop
  | _, [] => True
  | cursor, gap :: gaps => cursor < gap.1 ∧ gap.1 < gap.2 ∧ gap.2 < stop ∧ GapsWithin stop gap.2 gaps

/-- Nonempty runs in order that do not touch. -/
structure Separate (runs : List Span) : Prop where
  ordered : runs.Pairwise fun a b => a.stop < b.start
  proper : ∀ r ∈ runs, r.start < r.stop

/-- The maximal contiguous ranges of the sequences of the slices. -/
def MaximalRuns {D : Type} (slices : List (Slice D)) (runs : List Span) : Prop :=
  Separate runs ∧ ∀ x, Covers runs x ↔ SeqIn slices x

/-- The sources follow each other and cover what the gaps leave of the span. -/
structure TilesFacts (facts : BundleFacts String) (sources : List (SourceLineage String)) : Prop where
  ordered : sources.Pairwise fun a b => a.2.1 ≤ b.1
  covers : ∀ x, (∃ s ∈ sources, s.1 ≤ x ∧ x < s.2.1) ↔
    (facts.startSequence ≤ x ∧ x < facts.nextSequence) ∧
      ∀ gap ∈ facts.gaps, ¬ (gap.1 ≤ x ∧ x < gap.2)

section Runs

theorem covers_cons {r : Span} {runs : List Span} {x : ℕ} :
    Covers (r :: runs) x ↔ r.Contains x ∨ Covers runs x := by
  simp only [Covers, List.mem_cons, exists_eq_or_imp]

theorem runsFrom_head {stop cursor : ℕ} {gaps : List (ℕ × ℕ)} :
    ∃ r rest, runsFrom stop cursor gaps = r :: rest ∧ r.start = cursor := by
  cases gaps with
  | nil => exact ⟨_, _, rfl, rfl⟩
  | cons gap gaps => exact ⟨_, _, rfl, rfl⟩

theorem GapsWithin.within {stop cursor : ℕ} {gaps : List (ℕ × ℕ)} (h : GapsWithin stop cursor gaps) :
    ∀ gap ∈ gaps, cursor < gap.1 ∧ gap.1 < gap.2 ∧ gap.2 < stop := by
  induction gaps generalizing cursor with
  | nil => simp
  | cons gap gaps ih =>
    obtain ⟨hleft, hgap, hright, hrest⟩ := h
    refine List.forall_mem_cons.mpr ⟨⟨hleft, hgap, hright⟩, fun g hg => ?_⟩
    have := ih hrest g hg
    omega

/-- The runs between the gaps, and what they cover. -/
theorem runsFrom_spec {stop cursor : ℕ} {gaps : List (ℕ × ℕ)} (hcursor : cursor < stop)
    (h : GapsWithin stop cursor gaps) :
    Separate (runsFrom stop cursor gaps) ∧ (∀ r ∈ runsFrom stop cursor gaps, cursor ≤ r.start) ∧
      ∀ x, Covers (runsFrom stop cursor gaps) x ↔
        (cursor ≤ x ∧ x < stop) ∧ ∀ gap ∈ gaps, ¬ (gap.1 ≤ x ∧ x < gap.2) := by
  induction gaps generalizing cursor with
  | nil =>
    refine ⟨⟨List.pairwise_singleton _ _, ?_⟩, ?_, ?_⟩
    · intro r hr
      obtain rfl := List.mem_singleton.mp hr
      exact hcursor
    · intro r hr
      obtain rfl := List.mem_singleton.mp hr
      exact le_rfl
    · intro x
      simp [runsFrom, Covers, Span.Contains]
  | cons gap gaps ih =>
    obtain ⟨hleft, hgap, hright, hrest⟩ := h
    obtain ⟨hseparate, hbound, hcovers⟩ := ih hright hrest
    have hruns : runsFrom stop cursor (gap :: gaps) =
        ⟨cursor, gap.1⟩ :: runsFrom stop gap.2 gaps := rfl
    rw [hruns]
    refine ⟨⟨?_, ?_⟩, ?_, ?_⟩
    · exact List.pairwise_cons.mpr ⟨fun r hr => hgap.trans_le (hbound r hr), hseparate.ordered⟩
    · exact List.forall_mem_cons.mpr ⟨hleft, hseparate.proper⟩
    · refine List.forall_mem_cons.mpr ⟨le_rfl, fun r hr => ?_⟩
      have := hbound r hr
      omega
    · intro x
      rw [covers_cons, hcovers, List.forall_mem_cons]
      simp only [Span.Contains]
      constructor
      · rintro (hx | ⟨hx, hfree⟩)
        · refine ⟨by omega, by omega, fun g hg => ?_⟩
          have := hrest.within g hg
          omega
        · exact ⟨by omega, by omega, hfree⟩
      · rintro ⟨hx, hout, hfree⟩
        by_cases hbefore : x < gap.1
        · exact .inl (by omega)
        · exact .inr ⟨by omega, hfree⟩

/-- The sequences that the loop still has to cover. -/
def Remaining (runs : List Span) (cursor x : ℕ) : Prop :=
  ∃ r rest, runs = r :: rest ∧ ((cursor ≤ x ∧ x < r.stop) ∨ Covers rest x)

theorem Separate.tail {r : Span} {runs : List Span} (h : Separate (r :: runs)) : Separate runs :=
  ⟨(List.pairwise_cons.mp h.ordered).2, fun s hs => h.proper s (List.mem_cons_of_mem r hs)⟩

theorem remaining_cons {r : Span} {runs : List Span} {cursor x : ℕ} :
    Remaining (r :: runs) cursor x ↔ (cursor ≤ x ∧ x < r.stop) ∨ Covers runs x := by
  constructor
  · rintro ⟨_, _, h, hx⟩
    obtain ⟨rfl, rfl⟩ := List.cons.inj h
    exact hx
  · exact fun hx => ⟨r, runs, rfl, hx⟩

theorem covers_past {r : Span} {runs : List Span} (h : Separate (r :: runs)) {x : ℕ}
    (hx : Covers runs x) : r.stop < x := by
  obtain ⟨s, hs, hsx⟩ := hx
  exact ((List.pairwise_cons.mp h.ordered).1 s hs).trans_le hsx.1

/-- Skipping leaves what has to be covered, and leaves the cursor inside a run. -/
theorem skipFull_spec {r : Span} {runs : List Span} (h : Separate (r :: runs)) {cursor : ℕ}
    (hcursor : cursor ≤ r.stop) :
    (skipFull (r :: runs) cursor = ([], cursor) ∧ runs = [] ∧ cursor = r.stop) ∨
      ∃ r' runs' cursor', skipFull (r :: runs) cursor = (r' :: runs', cursor') ∧
        Separate (r' :: runs') ∧ cursor' < r'.stop ∧
        ∀ x, Remaining (r :: runs) cursor x ↔ Remaining (r' :: runs') cursor' x := by
  by_cases hfull : cursor = r.stop
  · cases runs with
    | nil =>
      refine .inl ⟨?_, rfl, hfull⟩
      rw [skipFull, if_pos hfull]
    | cons next runs =>
      have hnext : next.start < next.stop := h.proper next (by simp)
      refine .inr ⟨next, runs, next.start, ?_, h.tail, hnext, fun x => ?_⟩
      · rw [skipFull, if_pos hfull]
        cases runs with
        | nil => rw [skipFull, if_neg hnext.ne]
        | cons after runs => rw [skipFull, if_neg hnext.ne]
      · rw [remaining_cons, remaining_cons, covers_cons]
        simp only [Span.Contains]
        constructor
        · rintro (hx | hx)
          · omega
          · exact hx
        · exact .inr
  · refine .inr ⟨r, runs, cursor, ?_, h, by omega, fun _ => Iff.rfl⟩
    cases runs with
    | nil => rw [skipFull, if_neg hfull]
    | cons next runs => rw [skipFull, if_neg hfull]

/-- The two-cursor loop accepts sources exactly when they cover what remains. -/
theorem coverFrom_iff {sources : List (SourceLineage String)}
    (hordered : sources.Pairwise fun a b => a.2.1 ≤ b.1) (hproper : ∀ s ∈ sources, s.1 < s.2.1)
    {r : Span} {runs : List Span} (h : Separate (r :: runs)) {cursor : ℕ} (hcursor : cursor ≤ r.stop) :
    coverFrom sources (r :: runs) cursor = true ↔
      ∀ x, (∃ s ∈ sources, s.1 ≤ x ∧ x < s.2.1) ↔ Remaining (r :: runs) cursor x := by
  induction sources generalizing r runs cursor with
  | nil =>
    simp only [List.not_mem_nil, false_and, exists_false, false_iff, remaining_cons, not_or]
    cases runs with
    | nil =>
      simp only [coverFrom, decide_eq_true_eq]
      constructor
      · rintro rfl x
        exact ⟨by omega, by simp [Covers]⟩
      · intro hnone
        have := (hnone cursor).1
        omega
    | cons next runs =>
      simp only [coverFrom, Bool.false_eq_true, false_iff]
      intro hnone
      have hnext : next.start < next.stop := h.proper next (by simp)
      exact (hnone next.start).2 (covers_cons.mpr (.inl ⟨le_rfl, hnext⟩))
  | cons source sources ih =>
    obtain ⟨start, stop, digest⟩ := source
    obtain ⟨hfirst, hrest⟩ := List.pairwise_cons.mp hordered
    obtain ⟨hlt, hproper⟩ := List.forall_mem_cons.mp hproper
    simp only at hfirst hlt
    have hcover : ∀ x, (∃ s ∈ (start, stop, digest) :: sources, s.1 ≤ x ∧ x < s.2.1) ↔
        (start ≤ x ∧ x < stop) ∨ ∃ s ∈ sources, s.1 ≤ x ∧ x < s.2.1 := by
      intro x
      simp only [List.mem_cons, exists_eq_or_imp]
    have hlater : ∀ x, (∃ s ∈ sources, s.1 ≤ x ∧ x < s.2.1) → stop ≤ x := by
      rintro x ⟨s, hs, hx, -⟩
      exact (hfirst s hs).trans hx
    simp only [hcover]
    rw [coverFrom]
    rcases skipFull_spec h hcursor with ⟨hskip, rfl, rfl⟩ | ⟨r', runs', c, hskip, hsep, hc, hsame⟩
    · rw [hskip]
      simp only [Bool.false_eq_true, false_iff]
      intro hiff
      have hbad := (hiff start).mp (.inl ⟨le_rfl, hlt⟩)
      rw [remaining_cons] at hbad
      rcases hbad with hbad | ⟨s, hs, -⟩
      · omega
      · cases hs
    · rw [hskip]
      simp only [hsame]
      by_cases hbad : start ≠ c ∨ r'.stop < stop
      · rw [if_pos hbad]
        simp only [Bool.false_eq_true, false_iff]
        intro hiff
        -- The least sequence on either side is the cursor, and none is at the stop of the run.
        have hc' := (hiff c).mpr (remaining_cons.mpr (.inl ⟨le_rfl, hc⟩))
        have hs := remaining_cons.mp ((hiff start).mp (.inl ⟨le_rfl, hlt⟩))
        have hstart : start = c := by
          have hle : start ≤ c := by
            rcases hc' with hc' | hc'
            · exact hc'.1
            · have := hlater c hc'
              omega
          rcases hs with hs | hs
          · omega
          · have := covers_past hsep hs
            omega
        have hstop : r'.stop < stop := hbad.resolve_left (not_not.mpr hstart)
        have hend := remaining_cons.mp ((hiff r'.stop).mp (.inl ⟨by omega, hstop⟩))
        rcases hend with hend | hend
        · omega
        · exact lt_irrefl _ (covers_past hsep hend)
      · rw [if_neg hbad]
        push Not at hbad
        obtain ⟨rfl, hstop⟩ := hbad
        rw [ih hrest hproper hsep hstop]
        constructor
        · intro hiff x
          rw [hiff, remaining_cons, remaining_cons]
          constructor
          · rintro (hx | hx | hx)
            · exact .inl ⟨hx.1, by omega⟩
            · exact .inl ⟨by omega, hx.2⟩
            · exact .inr hx
          · rintro (hx | hx)
            · by_cases hin : x < stop
              · exact .inl ⟨hx.1, hin⟩
              · exact .inr (.inl ⟨by omega, hx.2⟩)
            · exact .inr (.inr hx)
        · intro hiff x
          have hx := hiff x
          rw [remaining_cons] at hx ⊢
          constructor
          · intro hsource
            have hle := hlater x hsource
            rcases hx.mp (.inr hsource) with hin | hin
            · exact .inl ⟨hle, hin.2⟩
            · exact .inr hin
          · intro hin
            have hle : stop ≤ x := by
              rcases hin with hin | hin
              · exact hin.1
              · exact hstop.trans (covers_past hsep hin).le
            have hleft : (start ≤ x ∧ x < r'.stop) ∨ Covers runs' x := by
              rcases hin with hin | hin
              · exact .inl ⟨by omega, hin.2⟩
              · exact .inr hin
            rcases hx.mpr hleft with hbefore | hsource
            · omega
            · exact hsource

end Runs

/-- A dictionary that holds a valid source slice, and the slice. -/
structure SourceItem (fields : Fields) (source : SourceLineage String) : Prop where
  keys : HasKeys fields ledgerSourceFields []
  start : fields.lookup "start_sequence" = some (number source.1)
  stop : fields.lookup "next_sequence" = some (number source.2.1)
  raw : fields.lookup "raw_sha256" = some (.str source.2.2)
  proper : source.1 < source.2.1
  digest : PublicTimeline.IsDigest source.2.2

section Parsing

theorem get_eq {fields : Fields} {key : String} {value : Value} (h : fields.lookup key = some value) :
    get fields key = value := by
  rw [get, h, Option.getD_some]

theorem lookup_of_get {fields : Fields} {key : String} {value : Value} (h : get fields key = value)
    (hvalue : value ≠ .null) : fields.lookup key = some value := by
  unfold get at h
  cases hl : fields.lookup key with
  | none =>
    rw [hl, Option.getD_none] at h
    exact absurd h.symm hvalue
  | some v =>
    rw [hl, Option.getD_some] at h
    rw [h]

theorem validRange_iff {start next : Value} {a b : ℕ} :
    validRange start next = some (a, b) ↔ start = number a ∧ next = number b ∧ a < b := by
  unfold validRange number
  constructor
  · intro h
    split at h
    · rename_i x y hx hy
      split at h
      · rename_i hxy
        obtain ⟨rfl, rfl⟩ := Prod.mk.inj (Option.some.inj h)
        rw [asInt_eq_some] at hx hy
        have hx' : ((x.toNat : ℕ) : ℤ) = x := Int.toNat_of_nonneg hxy.1
        have hy' : ((y.toNat : ℕ) : ℤ) = y := Int.toNat_of_nonneg (by omega)
        exact ⟨by rw [hx', hx], by rw [hy', hy], by omega⟩
      · cases h
    · cases h
  · rintro ⟨rfl, rfl, hab⟩
    simp only [Value.asInt]
    rw [if_pos ⟨by omega, by omega⟩, Int.toNat_natCast, Int.toNat_natCast]

theorem sha256Text_iff {value : Value} {text : String} :
    sha256Text value = some text ↔ value = .str text ∧ PublicTimeline.IsDigest text := by
  simp only [sha256Text, Option.filter_eq_some_iff, asText_eq_some, decide_eq_true_eq]

theorem parseSource_iff {fields : Fields} {source : SourceLineage String} :
    parseSource (.dict fields) = some source ↔ SourceItem fields source := by
  obtain ⟨start, stop, digest⟩ := source
  unfold parseSource
  simp only [Value.asDict]
  by_cases hkeys : HasKeys fields ledgerSourceFields []
  · rw [if_neg (not_not.mpr hkeys)]
    constructor
    · intro h
      split at h
      · rename_i start' stop' digest' hrange hsha
        obtain ⟨rfl, rfl, rfl⟩ := Option.some.inj h
        obtain ⟨hstart, hstop, hlt⟩ := validRange_iff.mp hrange
        obtain ⟨hraw, hdigest⟩ := sha256Text_iff.mp hsha
        exact ⟨hkeys, lookup_of_get hstart (by simp [number]), lookup_of_get hstop (by simp [number]),
          lookup_of_get hraw (by simp), hlt, hdigest⟩
      · cases h
    · rintro ⟨-, hstart, hstop, hraw, hlt, hdigest⟩
      have hrange := validRange_iff.mpr ⟨get_eq hstart, get_eq hstop, hlt⟩
      have hsha := sha256Text_iff.mpr ⟨get_eq hraw, hdigest⟩
      simp only [hrange, hsha]
  · rw [if_pos hkeys]
    exact ⟨fun h => absurd h (by simp), fun h => absurd h.keys hkeys⟩

theorem parseSourcesFrom_iff {previous : Option ℕ} {dicts : List Fields}
    {sources : List (SourceLineage String)} :
    parseSourcesFrom previous (dicts.map .dict) = some sources ↔
      List.Forall₂ SourceItem dicts sources ∧ (sources.Pairwise fun a b => a.2.1 ≤ b.1) ∧
        ∀ stop, previous = some stop → ∀ s ∈ sources, stop ≤ s.1 := by
  induction dicts generalizing previous sources with
  | nil =>
    simp only [List.map_nil, parseSourcesFrom, Option.some.injEq, List.forall₂_nil_left_iff]
    constructor
    · rintro rfl
      simp
    · rintro ⟨rfl, -⟩
      rfl
  | cons fields dicts ih =>
    rw [List.map_cons, parseSourcesFrom, List.forall₂_cons_left_iff]
    constructor
    · intro h
      cases hsource : parseSource (.dict fields) with
      | none =>
        rw [hsource] at h
        cases h
      | some source =>
        simp only [hsource] at h
        split at h
        · cases h
        · rename_i hprevious
          obtain ⟨rest, hrest, rfl⟩ := Option.map_eq_some_iff.mp h
          obtain ⟨hitems, hordered, hbound⟩ := ih.mp hrest
          have hitem := parseSource_iff.mp hsource
          have hbound := hbound source.2.1 rfl
          refine ⟨⟨source, rest, hitem, hitems, rfl⟩, List.pairwise_cons.mpr ⟨hbound, hordered⟩, ?_⟩
          rintro stop rfl
          have hfirst : stop ≤ source.1 := by simpa using hprevious
          refine List.forall_mem_cons.mpr ⟨hfirst, fun s hs => ?_⟩
          exact hfirst.trans (hitem.proper.le.trans (hbound s hs))
    · rintro ⟨⟨source, rest, hitem, hitems, rfl⟩, hordered, hbound⟩
      obtain ⟨hfirst, hordered⟩ := List.pairwise_cons.mp hordered
      have hrest : parseSourcesFrom (some source.2.1) (dicts.map .dict) = some rest := by
        refine ih.mpr ⟨hitems, hordered, ?_⟩
        rintro stop hstop
        exact Option.some.inj hstop ▸ hfirst
      have hprevious : ¬ previous.any (fun stop => decide (source.1 < stop)) = true := by
        cases previous with
        | none => simp
        | some stop => simpa using hbound stop rfl source (by simp)
      simp only [parseSource_iff.mpr hitem]
      rw [if_neg hprevious, hrest]
      rfl

theorem items_proper {dicts : List Fields} {sources : List (SourceLineage String)}
    (h : List.Forall₂ SourceItem dicts sources) : ∀ s ∈ sources, s.1 < s.2.1 := by
  induction h with
  | nil => simp
  | cons hitem _ ih => exact List.forall_mem_cons.mpr ⟨hitem.proper, ih⟩

/-- Where the span is empty no source is accepted, and none tiles it. -/
theorem sourcesCoverRuns_empty {facts : BundleFacts String}
    (hempty : facts.nextSequence ≤ facts.startSequence)
    (hgaps : GapsWithin facts.nextSequence facts.startSequence facts.gaps)
    {source : SourceLineage String} {sources : List (SourceLineage String)}
    (hlt : source.1 < source.2.1) : ¬ sourcesCoverRuns (source :: sources) facts = true := by
  obtain ⟨start, stop, digest⟩ := source
  have hnone : facts.gaps = [] := by
    cases hg : facts.gaps with
    | nil => rfl
    | cons gap gaps =>
      rw [hg] at hgaps
      obtain ⟨h1, h2, h3, -⟩ := hgaps
      omega
  unfold sourcesCoverRuns physicalRuns
  rw [hnone]
  simp only [runsFrom, List.head?_cons, Option.map_some, Option.getD_some, coverFrom, skipFull]
  simp only at hlt
  by_cases hfull : facts.startSequence = facts.nextSequence
  · rw [if_pos hfull]
    simp
  · rw [if_neg hfull]
    have hbad : start ≠ facts.startSequence ∨ facts.nextSequence < stop := by omega
    simp only [if_pos hbad]
    simp

/-- Sources are accepted exactly when they are a nonempty list of valid slices that tile what the
gaps leave of the span. -/
theorem parseSources_iff {facts : BundleFacts String}
    (hgaps : GapsWithin facts.nextSequence facts.startSequence facts.gaps) {dicts : List Fields}
    {sources : List (SourceLineage String)} :
    parseSources (.list (dicts.map .dict)) facts = some sources ↔
      dicts ≠ [] ∧ List.Forall₂ SourceItem dicts sources ∧ TilesFacts facts sources := by
  have hnil : dicts.map Value.dict = [] ↔ dicts = [] := List.map_eq_nil_iff
  unfold parseSources
  simp only [Value.asList]
  by_cases hdicts : dicts = []
  · rw [if_pos (hnil.mpr hdicts)]
    exact ⟨fun h => absurd h (by simp), fun h => absurd hdicts h.1⟩
  · rw [if_neg (mt hnil.mp hdicts), Option.filter_eq_some_iff, parseSourcesFrom_iff]
    simp only [reduceCtorEq, false_implies, implies_true, and_true, ne_eq, hdicts, not_false_eq_true,
      true_and, and_assoc]
    refine and_congr_right fun hitems => ?_
    have hproper := items_proper hitems
    by_cases hspan : facts.startSequence < facts.nextSequence
    · obtain ⟨hseparate, -, hcovers⟩ := runsFrom_spec hspan hgaps
      obtain ⟨r, rest, hruns, hstart⟩ :=
        @runsFrom_head facts.nextSequence facts.startSequence facts.gaps
      rw [hruns] at hseparate hcovers
      have hfirst : r.start < r.stop := hseparate.proper r (by simp)
      have hremaining : ∀ x, Remaining (r :: rest) r.start x ↔
          (facts.startSequence ≤ x ∧ x < facts.nextSequence) ∧
            ∀ gap ∈ facts.gaps, ¬ (gap.1 ≤ x ∧ x < gap.2) := by
        intro x
        rw [remaining_cons, ← hcovers, covers_cons]
        rfl
      have hcover : sourcesCoverRuns sources facts = coverFrom sources (r :: rest) r.start := by
        unfold sourcesCoverRuns physicalRuns
        rw [hruns]
        rfl
      constructor
      · rintro ⟨hordered, haccept⟩
        rw [hcover, coverFrom_iff hordered hproper hseparate hfirst.le] at haccept
        exact ⟨hordered, fun x => (haccept x).trans (hremaining x)⟩
      · rintro ⟨hordered, htiles⟩
        refine ⟨hordered, ?_⟩
        rw [hcover, coverFrom_iff hordered hproper hseparate hfirst.le]
        exact fun x => (htiles x).trans (hremaining x).symm
    · have hempty := not_lt.mp hspan
      cases sources with
      | nil => exact absurd (List.forall₂_nil_right_iff.mp hitems) hdicts
      | cons source sources =>
        have hlt := hproper source (by simp)
        constructor
        · rintro ⟨-, haccept⟩
          exact absurd haccept (sourcesCoverRuns_empty hempty hgaps hlt)
        · rintro ⟨-, htiles⟩
          have := ((htiles source.1).mp ⟨source, by simp, le_rfl, hlt⟩).1
          omega

end Parsing

end LedgerEntries
