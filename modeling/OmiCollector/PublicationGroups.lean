import OmiCollector.RunGroups
import OmiCollector.SlicePartition

/-! The groups in which slices are published.

Slices are cut where the framing of their packets breaks, joined where they continue each other,
and a group without packets goes to the next group that has some. All of it depends on the
records alone, whichever sources own them. -/
namespace PublicationGroups

open ByteCodec CaptureModel SpanCover PublicationLedger TypedSlices SlicePartition RunGroups

variable {D : Type} (codec : Codec D)

def recordPackets (raw : Bytes) : ℕ := ((codec.inspectRecord false raw).map (·.packetCount)).getD 0

def firstSize (raw : Bytes) : ℕ := ((codec.inspectRecord false raw).map (·.firstSize)).getD 0

def overflowSize (raw : Bytes) : Option ℕ :=
  (codec.inspectRecord false raw).bind (·.overflowSize)

/-- A record takes up what its predecessor left over. -/
def continues (previous raw : Bytes) : Bool :=
  overflowSize codec previous = none ∨ overflowSize codec previous = some (firstSize codec raw)

def audioPackets (s : Slice D) : ℕ := (s.records.map (recordPackets codec)).sum

def finalOverflowSize (s : Slice D) : Option ℕ := s.records.getLast?.bind (overflowSize codec)

def sliceFirstSize (s : Slice D) : ℕ := (s.records.head?.map (firstSize codec)).getD 0

/-- Slices with the records of consecutive runs of one slice. -/
def piecesFrom (a : Admission D) : ℕ → List (List Bytes) → List (Slice D)
  | _, [] => []
  | ordinal, run :: runs => ⟨a, ordinal, run⟩ :: piecesFrom a (ordinal + run.length) runs

/-- A slice cut at its continuity breaks. -/
def pieces (s : Slice D) : List (Slice D) :=
  piecesFrom s.admission s.startOrdinal (s.records.splitBy (continues codec))

def joins (previous item : Slice D) : Bool :=
  previous.nextSequence = item.startSequence ∧ (finalOverflowSize codec previous = none ∨
    finalOverflowSize codec previous = some (sliceFirstSize codec item))

def typedPhysicalGroups (slices : List (Slice D)) : List (List (Slice D)) :=
  (slices.flatMap (pieces codec)).splitBy (joins codec)

def groupPackets (group : List (Slice D)) : ℕ := (group.map (audioPackets codec)).sum

def v2PhysicalGroups (slices : List (Slice D)) : List (List (Slice D)) :=
  mergeWeightless (groupPackets codec) (typedPhysicalGroups codec slices)

/-- The records of slices with their sequence numbers. -/
def entriesOf (slices : List (Slice D)) : List (ℕ × Bytes) := slices.flatMap Slice.entries

/-- Whether one sequenced record follows another in one physical group. -/
def follows (previous entry : ℕ × Bytes) : Bool :=
  previous.1 + 1 = entry.1 ∧ continues codec previous.2 entry.2 = true

def entryPackets (entries : List (ℕ × Bytes)) : ℕ :=
  (entries.map fun e => recordPackets codec e.2).sum

/-- The groups of a list of sequenced records. -/
def recordGroups (entries : List (ℕ × Bytes)) : List (List (ℕ × Bytes)) :=
  mergeWeightless (entryPackets codec) (entries.splitBy (follows codec))

variable {codec}

def entriesFrom (x : ℕ) (records : List Bytes) : List (ℕ × Bytes) :=
  (List.range' x records.length).zip records

@[simp] theorem entriesFrom_nil (x : ℕ) : entriesFrom x [] = [] := rfl

@[simp] theorem entriesFrom_cons (x : ℕ) (r : Bytes) (records : List Bytes) :
    entriesFrom x (r :: records) = (x, r) :: entriesFrom (x + 1) records := by
  simp [entriesFrom, List.range'_succ]

theorem entries_eq (s : Slice D) : s.entries = entriesFrom s.startSequence s.records := rfl

theorem entriesFrom_append (x : ℕ) (left right : List Bytes) :
    entriesFrom x (left ++ right) = entriesFrom x left ++ entriesFrom (x + left.length) right := by
  induction left generalizing x with
  | nil => simp
  | cons r left ih =>
    simp only [List.cons_append, entriesFrom_cons, ih, List.length_cons]
    have : x + 1 + left.length = x + (left.length + 1) := by omega
    rw [this]

theorem entriesFrom_ne_nil {x : ℕ} {records : List Bytes} (h : records ≠ []) :
    entriesFrom x records ≠ [] := by
  obtain ⟨r, rest, rfl⟩ := List.exists_cons_of_ne_nil h
  simp

theorem head_entriesFrom {x : ℕ} {records : List Bytes} (h : records ≠ [])
    (h' : entriesFrom x records ≠ []) : (entriesFrom x records).head h' = (x, records.head h) := by
  obtain ⟨r, rest, rfl⟩ := List.exists_cons_of_ne_nil h
  simp

theorem getLast_entriesFrom {x : ℕ} {records : List Bytes} (h : records ≠ [])
    (h' : entriesFrom x records ≠ []) :
    (entriesFrom x records).getLast h' = (x + records.length - 1, records.getLast h) := by
  induction records generalizing x with
  | nil => exact absurd rfl h
  | cons r records ih =>
    by_cases hnil : records = []
    · subst hnil
      simp
    · simp only [entriesFrom_cons]
      rw [List.getLast_cons (entriesFrom_ne_nil hnil), ih hnil, List.getLast_cons hnil]
      simp only [List.length_cons, Prod.mk.injEq, and_true]
      omega

/-- Consecutive records of one continuous run follow each other. -/
theorem isChain_entriesFrom {x : ℕ} {records : List Bytes}
    (h : records.IsChain fun a b => continues codec a b) :
    (entriesFrom x records).IsChain fun a b => follows codec a b := by
  induction records generalizing x with
  | nil => simp
  | cons r records ih =>
    cases records with
    | nil => simp
    | cons r' records =>
      rw [List.isChain_cons_cons] at h
      have htail := ih (x := x + 1) h.2
      simp only [entriesFrom_cons] at htail ⊢
      rw [List.isChain_cons_cons]
      refine ⟨?_, htail⟩
      simp [follows, h.1]

theorem entriesOf_piecesFrom (a : Admission D) (ordinal : ℕ) (runs : List (List Bytes)) :
    entriesOf (piecesFrom a ordinal runs) = entriesFrom (a.sequenceStart + ordinal) runs.flatten := by
  induction runs generalizing ordinal with
  | nil => rfl
  | cons run runs ih =>
    have hhead : entriesOf (piecesFrom a ordinal (run :: runs)) =
        entriesFrom (a.sequenceStart + ordinal) run ++
          entriesOf (piecesFrom a (ordinal + run.length) runs) := rfl
    rw [hhead, ih, List.flatten_cons, entriesFrom_append, add_assoc]

theorem entriesOf_pieces (s : Slice D) : entriesOf (pieces codec s) = s.entries := by
  rw [pieces, entriesOf_piecesFrom, List.flatten_splitBy]
  rfl

theorem mem_piecesFrom {a : Admission D} {ordinal : ℕ} {runs : List (List Bytes)} {t : Slice D}
    (h : t ∈ piecesFrom a ordinal runs) : t.admission = a ∧ t.records ∈ runs := by
  induction runs generalizing ordinal with
  | nil => simp [piecesFrom] at h
  | cons run runs ih =>
    rcases List.mem_cons.mp h with rfl | h
    · exact ⟨rfl, by simp⟩
    · exact ⟨(ih h).1, List.mem_cons_of_mem _ (ih h).2⟩

theorem records_ne_nil_of_piece {s t : Slice D} (h : t ∈ pieces codec s) : t.records ≠ [] :=
  List.ne_nil_of_mem_splitBy (mem_piecesFrom h).2

theorem isChain_piece {s t : Slice D} (h : t ∈ pieces codec s) :
    t.records.IsChain fun a b => continues codec a b :=
  List.isChain_of_mem_splitBy (mem_piecesFrom h).2

theorem entriesOf_flatMap_pieces (slices : List (Slice D)) :
    entriesOf (slices.flatMap (pieces codec)) = entriesOf slices := by
  induction slices with
  | nil => rfl
  | cons s slices ih =>
    have : entriesOf (pieces codec s) = s.entries := entriesOf_pieces s
    unfold entriesOf at ih this ⊢
    rw [List.flatMap_cons, List.flatMap_append, List.flatMap_cons, this, ih]

/-- How two non-empty pieces meet is how their records meet. -/
theorem joins_eq_follows {s t : Slice D} (hs : s.records ≠ []) (ht : t.records ≠ [])
    (hs' : s.entries ≠ []) (ht' : t.entries ≠ []) :
    joins codec s t = follows codec (s.entries.getLast hs') (t.entries.head ht') := by
  have hlast := getLast_entriesFrom (x := s.startSequence) hs hs'
  have hhead := head_entriesFrom (x := t.startSequence) ht ht'
  have hlen : 0 < s.records.length := List.length_pos_iff.mpr hs
  have hnext : s.startSequence + s.records.length - 1 + 1 = s.nextSequence := by
    rw [nextSequence_eq]
    omega
  simp only [entries_eq, hlast, hhead, joins, follows, hnext, finalOverflowSize, sliceFirstSize,
    List.getLast?_eq_some_getLast hs, List.head?_eq_some_head ht, Option.bind_some, Option.map_some,
    Option.getD_some, continues]
  simp

/-- Grouping slices is grouping their records. -/
theorem typedPhysicalGroups_entries (slices : List (Slice D)) :
    (typedPhysicalGroups codec slices).map entriesOf =
      (entriesOf slices).splitBy (follows codec) := by
  have hpiece : ∀ t ∈ slices.flatMap (pieces codec), ∃ s, t ∈ pieces codec s := by
    intro t ht
    obtain ⟨s, -, hts⟩ := List.mem_flatMap.mp ht
    exact ⟨s, hts⟩
  have hcut : entriesOf (slices.flatMap (pieces codec)) = entriesOf slices :=
    entriesOf_flatMap_pieces slices
  rw [← hcut]
  unfold typedPhysicalGroups entriesOf
  symm
  refine splitBy_flatMap ?_ ?_ ?_
  · intro t ht
    obtain ⟨s, hs⟩ := hpiece t ht
    exact entriesFrom_ne_nil (records_ne_nil_of_piece hs)
  · intro t ht
    obtain ⟨s, hs⟩ := hpiece t ht
    exact isChain_entriesFrom (isChain_piece hs)
  · intro t ht t' ht' hne hne'
    obtain ⟨s, hs⟩ := hpiece t ht
    obtain ⟨s', hs'⟩ := hpiece t' ht'
    exact joins_eq_follows (records_ne_nil_of_piece hs) (records_ne_nil_of_piece hs') hne hne'

theorem entryPackets_entriesFrom (x : ℕ) (records : List Bytes) :
    entryPackets codec (entriesFrom x records) = (records.map (recordPackets codec)).sum := by
  induction records generalizing x with
  | nil => rfl
  | cons r records ih =>
    have := ih (x + 1)
    unfold entryPackets at this ⊢
    simp [this]

theorem entryPackets_entriesOf (group : List (Slice D)) :
    entryPackets codec (entriesOf group) = groupPackets codec group := by
  induction group with
  | nil => rfl
  | cons s group ih =>
    have hs : entryPackets codec (entriesFrom s.startSequence s.records) =
        (s.records.map (recordPackets codec)).sum := entryPackets_entriesFrom _ _
    unfold entryPackets entriesOf groupPackets at *
    rw [List.flatMap_cons, List.map_append, List.sum_append, ih, entries_eq, hs]
    rfl

/-- The published groups of slices are the groups of their records. -/
theorem v2PhysicalGroups_entries (slices : List (Slice D)) :
    (v2PhysicalGroups codec slices).map entriesOf = recordGroups codec (entriesOf slices) := by
  unfold v2PhysicalGroups recordGroups
  rw [← typedPhysicalGroups_entries]
  exact (mergeWeightless_flatMap fun g _ => entryPackets_entriesOf g).symm

/-- The gaps between consecutive slices. -/
def gapsOf : List (Slice D) → List (ℕ × ℕ)
  | left :: right :: rest =>
    (if left.nextSequence < right.startSequence then [(left.nextSequence, right.startSequence)]
      else []) ++ gapsOf (right :: rest)
  | _ => []

/-- The physical facts of a non-empty group. -/
def groupFacts (codec : Codec D) (slices : List (Slice D)) : BundleFacts D where
  startSequence := (slices.head?.map (·.startSequence)).getD 0
  nextSequence := (slices.getLast?.map (·.nextSequence)).getD 0
  recordCount := (slices.map (·.recordCount)).sum
  rawSha256 := codec.sha256 (slices.flatMap (·.records)).flatten
  gaps := gapsOf slices

/-- The sequences of a list of runs, in order. -/
def runSequences (runs : List Span) : List ℕ :=
  runs.flatMap fun r => List.range' r.start (r.stop - r.start)

theorem map_fst_entriesFrom (x : ℕ) (records : List Bytes) :
    (entriesFrom x records).map Prod.fst = List.range' x records.length := by
  rw [entriesFrom, List.map_fst_zip]
  simp

theorem mem_runSequences {runs : List Span} {x : ℕ} : x ∈ runSequences runs ↔ Covers runs x := by
  simp only [runSequences, List.mem_flatMap, List.mem_range'_1, Covers, Span.Contains]
  constructor
  · intro h
    obtain ⟨r, hr, h1, h2⟩ := h
    exact ⟨r, hr, h1, by omega⟩
  · intro h
    obtain ⟨r, hr, h1, h2⟩ := h
    exact ⟨r, hr, h1, by omega⟩

theorem runsFrom_ne_nil (next cursor : ℕ) (gaps : List (ℕ × ℕ)) : runsFrom next cursor gaps ≠ [] := by
  cases gaps with
  | nil => simp [runsFrom]
  | cons gap gaps => simp [runsFrom]

/-- Ordered runs without empty ones, inside `[start, stop)`. -/
structure RunsWithin (start stop : ℕ) (runs : List Span) : Prop where
  ordered : runs.Pairwise fun a b => a.stop ≤ b.start
  inside : ∀ r ∈ runs, r.start < r.stop ∧ start ≤ r.start ∧ r.stop ≤ stop

/-- The runs between the gaps of ordered slices, from a cursor inside the first one. -/
theorem runsFrom_gapsOf {a : Slice D} {rest : List (Slice D)} (h : Chain (a :: rest)) {cursor next : ℕ}
    (hnext : next = (((a :: rest).getLast?).map (·.nextSequence)).getD 0)
    (hcursor : cursor < a.nextSequence) :
    RunsWithin cursor next (runsFrom next cursor (gapsOf (a :: rest))) ∧
      runSequences (runsFrom next cursor (gapsOf (a :: rest))) =
        List.range' cursor (a.nextSequence - cursor) ++ (entriesOf rest).map Prod.fst := by
  induction rest generalizing a cursor with
  | nil =>
    obtain rfl : next = a.nextSequence := by simpa using hnext
    simp only [gapsOf, runsFrom, runSequences, entriesOf]
    refine ⟨⟨by simp, ?_⟩, by simp⟩
    intro r hr
    obtain rfl := List.mem_singleton.mp hr
    exact ⟨hcursor, le_rfl, le_rfl⟩
  | cons b rest ih =>
    have hrest : Chain (b :: rest) := h.sublist (List.sublist_cons_self a _)
    have hab : a.nextSequence ≤ b.startSequence := (List.pairwise_cons.mp h.ordered).1 b (by simp)
    have hb : b.startSequence < b.nextSequence := h.nonempty b (by simp)
    have hnext' : next = (((b :: rest).getLast?).map (·.nextSequence)).getD 0 := by
      rw [hnext, List.getLast?_cons_cons]
    have hentries : (entriesOf (b :: rest)).map Prod.fst =
        List.range' b.startSequence (b.nextSequence - b.startSequence) ++
          (entriesOf rest).map Prod.fst := by
      have hlen : b.nextSequence - b.startSequence = b.records.length := by
        rw [nextSequence_eq]
        omega
      unfold entriesOf
      rw [List.flatMap_cons, List.map_append, entries_eq, map_fst_entriesFrom, hlen]
    by_cases hgap : a.nextSequence < b.startSequence
    · obtain ⟨hruns, hseq⟩ := ih hrest hnext' hb
      have hgaps : gapsOf (a :: b :: rest) =
          (a.nextSequence, b.startSequence) :: gapsOf (b :: rest) := by
        simp [gapsOf, hgap]
      have hle : a.nextSequence ≤ next := by
        obtain ⟨r, hr⟩ := List.exists_mem_of_ne_nil _
          (runsFrom_ne_nil next b.startSequence (gapsOf (b :: rest)))
        have := hruns.inside r hr
        omega
      rw [hgaps]
      simp only [runsFrom]
      refine ⟨⟨?_, ?_⟩, ?_⟩
      · refine List.pairwise_cons.mpr ⟨?_, hruns.ordered⟩
        intro r hr
        have := hruns.inside r hr
        simp only
        omega
      · intro r hr
        rcases List.mem_cons.mp hr with rfl | hr
        · exact ⟨hcursor, le_rfl, hle⟩
        · have := hruns.inside r hr
          omega
      · have hcons : runSequences (⟨cursor, a.nextSequence⟩ ::
            runsFrom next b.startSequence (gapsOf (b :: rest))) =
            List.range' cursor (a.nextSequence - cursor) ++
              runSequences (runsFrom next b.startSequence (gapsOf (b :: rest))) := rfl
        rw [hcons, hseq, hentries]
    · obtain ⟨hruns, hseq⟩ := ih hrest hnext' (hcursor.trans (hab.trans_lt hb))
      have hgaps : gapsOf (a :: b :: rest) = gapsOf (b :: rest) := by
        simp [gapsOf, hgap]
      have hadj : a.nextSequence = b.startSequence := by omega
      rw [hgaps]
      refine ⟨hruns, ?_⟩
      rw [hseq, hentries, ← List.append_assoc]
      congr 1
      have hsum : b.nextSequence - cursor =
          (a.nextSequence - cursor) + (b.nextSequence - b.startSequence) := by omega
      have hmid : cursor + (a.nextSequence - cursor) = b.startSequence := by omega
      rw [hsum, ← List.range'_append_1, hmid]

/-- The physical runs of a group are ordered and hold exactly its sequences. -/
theorem physicalRuns_groupFacts {slices : List (Slice D)} (h : Chain slices) (hne : slices ≠ []) :
    RunsWithin (groupFacts codec slices).startSequence (groupFacts codec slices).nextSequence
        (physicalRuns (groupFacts codec slices)) ∧
      runSequences (physicalRuns (groupFacts codec slices)) = (entriesOf slices).map Prod.fst := by
  obtain ⟨a, rest, rfl⟩ := List.exists_cons_of_ne_nil hne
  have ha := h.nonempty a (by simp)
  have hnext : (groupFacts codec (a :: rest)).nextSequence =
      (((a :: rest).getLast?).map (·.nextSequence)).getD 0 := rfl
  obtain ⟨hruns, hseq⟩ := runsFrom_gapsOf h hnext ha
  refine ⟨hruns, ?_⟩
  have hlen : a.nextSequence - a.startSequence = a.records.length := by
    rw [nextSequence_eq]
    omega
  have hentries : (entriesOf (a :: rest)).map Prod.fst =
      List.range' a.startSequence (a.nextSequence - a.startSequence) ++
        (entriesOf rest).map Prod.fst := by
    unfold entriesOf
    rw [List.flatMap_cons, List.map_append, entries_eq, map_fst_entriesFrom, hlen]
  rw [hentries]
  exact hseq

theorem mem_entriesFrom {x y : ℕ} {records : List Bytes} {raw : Bytes} :
    (y, raw) ∈ entriesFrom x records ↔ x ≤ y ∧ records[y - x]? = some raw := by
  induction records generalizing x with
  | nil => simp
  | cons r records ih =>
    rw [entriesFrom_cons, List.mem_cons, ih, Prod.mk.injEq]
    constructor
    · intro h
      rcases h with ⟨rfl, rfl⟩ | ⟨hle, hget⟩
      · simp
      · have : y - x = y - (x + 1) + 1 := by omega
        rw [this, List.getElem?_cons_succ]
        exact ⟨by omega, hget⟩
    · intro h
      by_cases heq : y = x
      · subst heq
        left
        simpa [eq_comm] using h.2
      · right
        have : y - x = y - (x + 1) + 1 := by omega
        rw [this, List.getElem?_cons_succ] at h
        exact ⟨by omega, h.2⟩

theorem mem_entriesOf {slices : List (Slice D)} {x : ℕ} {raw : Bytes} :
    (x, raw) ∈ entriesOf slices ↔
      ∃ s ∈ slices, s.span.Contains x ∧ s.rawAt x = some raw := by
  unfold entriesOf
  rw [List.mem_flatMap]
  refine exists_congr fun s => and_congr_right fun _ => ?_
  rw [entries_eq, mem_entriesFrom]
  constructor
  · intro h
    have hlt := (List.getElem?_eq_some_iff.mp h.2).1
    refine ⟨⟨h.1, ?_⟩, ?_⟩
    · simp only [Slice.span, nextSequence_eq]
      omega
    · rw [Slice.rawAt, if_pos h.1]
      exact h.2
  · intro h
    have h1 : s.startSequence ≤ x := h.1.1
    have h2 := h.2
    rw [Slice.rawAt, if_pos h1] at h2
    exact ⟨h1, h2⟩

/-- The last sequence of a group is right before its end. -/
theorem getLast_entriesOf {slices : List (Slice D)} (h : Chain slices) (hne : slices ≠ []) :
    ((entriesOf slices).map Prod.fst).getLast? =
      some ((slices.getLast hne).nextSequence - 1) := by
  have hlast := h.nonempty _ (List.getLast_mem hne)
  have hsplit : entriesOf slices =
      entriesOf slices.dropLast ++ (slices.getLast hne).entries := by
    conv_lhs => rw [← List.dropLast_append_getLast hne]
    simp [entriesOf]
  have hrecords : (slices.getLast hne).records ≠ [] := by
    intro hnil
    rw [nextSequence_eq, hnil] at hlast
    simp at hlast
  rw [hsplit, List.map_append, List.getLast?_append, entries_eq, List.getLast?_map,
    List.getLast?_eq_some_getLast (entriesFrom_ne_nil hrecords), getLast_entriesFrom hrecords,
    nextSequence_eq]
  simp

theorem segmentsFrom_fst {proof : ReplayProof D} {offset : ℕ} {runs : List Span} :
    (segmentsFrom proof offset runs).map Prod.fst = runs := by
  induction runs generalizing offset with
  | nil => rfl
  | cons run runs ih =>
    unfold segmentsFrom
    rw [List.map_cons, ih]

/-- Where a record of a run lies among the records of its artifact. -/
theorem segmentsFrom_index {proof : ReplayProof D} {offset x : ℕ} {runs : List Span}
    {r : Span × ReadyKey D} (h : r ∈ segmentsFrom proof offset runs) (hx : r.1.Contains x) :
    r.2.proof = proof ∧ ∃ i, r.2.readyOffset + (x - r.2.runStart) = offset + i ∧
      (runSequences runs)[i]? = some x := by
  induction runs generalizing offset with
  | nil => simp [segmentsFrom] at h
  | cons run runs ih =>
    have hcons : runSequences (run :: runs) =
        List.range' run.start (run.stop - run.start) ++ runSequences runs := rfl
    rcases List.mem_cons.mp h with rfl | h
    · have h1 : run.start ≤ x := hx.1
      have h2 : x < run.stop := hx.2
      refine ⟨rfl, x - run.start, rfl, ?_⟩
      rw [hcons, List.getElem?_append_left (by simp; omega), List.getElem?_range' (by omega)]
      simp
      omega
    · obtain ⟨hproof, i, hi, hget⟩ := ih h
      refine ⟨hproof, run.stop - run.start + i, by omega, ?_⟩
      rw [hcons, List.getElem?_append_right (by simp)]
      simpa using hget

/-- The record of a group behind a sequence of one of its physical runs. -/
theorem segmentsFrom_entry {slices : List (Slice D)} (hchain : Chain slices) (hne : slices ≠ [])
    {proof : ReplayProof D} {r : Span × ReadyKey D}
    (h : r ∈ segmentsFrom proof 0 (physicalRuns (groupFacts codec slices))) {x : ℕ}
    (hx : r.1.Contains x) : r.2.proof = proof ∧ ∃ raw,
      (entriesOf slices)[r.2.readyOffset + (x - r.2.runStart)]? = some (x, raw) := by
  obtain ⟨hproof, i, hi, hget⟩ := segmentsFrom_index h hx
  rw [(physicalRuns_groupFacts hchain hne).2, List.getElem?_map] at hget
  obtain ⟨⟨y, raw⟩, hentry, hy⟩ := Option.map_eq_some_iff.mp hget
  obtain rfl : y = x := hy
  rw [Nat.zero_add] at hi
  exact ⟨hproof, raw, hi ▸ hentry⟩

end PublicationGroups
