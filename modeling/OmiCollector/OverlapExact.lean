import OmiCollector.PagedOverlap
import OmiCollector.SealedSources

/-! Overlap deduplication is exact: over frozen admissions the collector's normalization yields
the facts of a partition of what the admissions have left, or raises a conflict. -/
namespace OverlapExact

open ByteCodec CaptureModel CaptureRows Checks KeyedTable SpanCover SpanWalk PublicationLedger
open TypedSlices SlicePartition PagedSlices PagedOverlap

open ProofScan (DigestBytes)

variable {D : Type} {code : DigestBytes D} {codec : Codec D} {sources : Table ℕ (SourceRow D)}
  {pageLimit : ℕ}

/-- The rows of an admission are its admitted prefix, and all of them parse. -/
structure Frozen (codec : Codec D) (sources : Table ℕ (SourceRow D)) (a : Admission D) : Prop where
  held : Held sources a
  framed : ∀ r ∈ admittedRows sources a, (codec.inspectRecord false r.rawBytes).isSome
  digest : codec.sha256 ((admittedRows sources a).map (·.rawBytes)).flatten = a.admittedSha256

/-- What an admission has left. -/
def remainingSlice (sources : Table ℕ (SourceRow D)) (a : Admission D) : Slice D :=
  heldSlice sources a a.cursor (a.admittedCount - a.cursor)

theorem Frozen.remaining {a : Admission D} (h : Frozen codec sources a)
    (hrest : a.cursor < a.admittedCount) : IsHeld codec sources (remainingSlice sources a) ∧
      (remainingSlice sources a).span = a.remaining ∧
      (a.cursor = 0 → (remainingSlice sources a).rawSha256 codec = a.admittedSha256) := by
  have hcount : a.cursor + (a.admittedCount - a.cursor) ≤ a.admittedCount := by omega
  refine ⟨isHeld_heldSlice h.held hcount ?_, ?_, ?_⟩
  · intro raw hraw
    obtain ⟨r, hr, rfl⟩ := List.mem_map.mp hraw
    exact h.framed r (List.mem_of_mem_drop (List.mem_of_mem_take hr))
  · have hlen := recordCount_heldSlice h.held hcount
    unfold Slice.span Slice.nextSequence remainingSlice Admission.remaining
    rw [hlen]
    simp only [heldSlice, Slice.startSequence, Span.mk.injEq, true_and]
    omega
  · intro hzero
    rw [← h.digest]
    have hlen := h.held.rows.2
    simp only [Slice.rawSha256, remainingSlice, heldSlice, hzero, Nat.sub_zero, List.drop_zero]
    rw [List.take_of_length_le hlen.le]

/-- Reading by primary key and reading by pages give the same slice. -/
theorem typedSlice_held [DecidableEq D] {a : Admission D} (h : Held sources a) {start count : ℕ}
    (hcount : start + count ≤ a.admittedCount)
    (hframed : ∀ raw ∈ (heldSlice sources a start count).records,
      (codec.inspectRecord false raw).isSome) :
    TypedSlices.typedSlice codec sources a start count = .ok (heldSlice sources a start count) := by
  obtain ⟨row, hrow, hcurrent, hcont, hlen⟩ := h.current
  have hpage : row.records.filter (fun r => start ≤ r.ordinal ∧ r.ordinal < start + count) =
      ((admittedRows sources a).drop start).take count := by
    have hsplit : row.records.filter (fun r => start ≤ r.ordinal ∧ r.ordinal < start + count) =
        (row.records.filter fun r => decide ((start : ℤ) - 1 < r.ordinal)).filter
          fun r => decide (r.ordinal < start + count) := by
      rw [List.filter_filter]
      apply List.filter_congr
      intro r _
      rw [← Bool.decide_and, decide_eq_decide]
      omega
    have hdrop : Contiguous start (row.records.drop start) := by
      have := hcont.drop (by omega : start ≤ row.records.length)
      rwa [Nat.zero_add] at this
    rw [hsplit, hcont.filter_after start, Nat.sub_zero, hdrop.filter_before count]
    simp only [admittedRows, hrow, Option.map_some, Option.getD_some, List.drop_take, List.take_take]
    congr 1
    omega
  have hord : (((admittedRows sources a).drop start).take count).map (·.ordinal) =
      List.range' start count := by
    have hrows := h.rows
    have := (hrows.1.drop (by omega : start ≤ (admittedRows sources a).length)).take count
    rw [Nat.zero_add] at this
    have hcount' : (((admittedRows sources a).drop start).take count).length = count := by
      rw [List.length_take, List.length_drop]
      omega
    rw [Contiguous, hcount'] at this
    exact this
  have hrecords : TypedSlices.typedRecords sources a start count =
      .ok (heldSlice sources a start count).records := by
    simp only [TypedSlices.typedRecords, hrow, hcurrent, not_true_eq_false, if_false, hpage]
    rw [if_neg (by omega), if_pos hord]
    rfl
  rw [TypedSlices.typedSlice, hrecords]
  exact if_pos hframed

/-- A part of a slice is a crop of it. -/
theorem eq_crop_of_partOf {s t : Slice D} (h : PartOf t s) : t = s.crop t.span := by
  have hstart : s.startSequence ≤ t.startSequence := h.inside.1
  have hadm : t.admission.sequenceStart = s.admission.sequenceStart :=
    congrArg Admission.sequenceStart h.admission
  have hordinal : t.startOrdinal = s.startOrdinal + (t.startSequence - s.startSequence) := by
    unfold Slice.startSequence at *
    omega
  have hrecords : t.records = s.recordsIn t.span := by
    apply List.ext_getElem?
    intro i
    by_cases hi : i < t.records.length
    · have hx : t.span.Contains (t.startSequence + i) := by
        refine ⟨Nat.le_add_right _ _, ?_⟩
        simp only [Slice.span, nextSequence_eq]
        omega
      have hraw := h.rawAt _ hx
      rw [← recordsIn_getElem h.inside hx, Slice.rawAt, if_pos (Nat.le_add_right _ _)] at hraw
      simpa [Slice.span] using hraw
    · have hlen := length_recordsIn h.inside
      have hspan : t.span.stop - t.span.start = t.records.length := by
        simp [Slice.span, nextSequence_eq]
      rw [List.getElem?_eq_none (by omega), List.getElem?_eq_none (by omega)]
  calc t = ⟨t.admission, t.startOrdinal, t.records⟩ := rfl
    _ = ⟨s.admission, s.startOrdinal + (t.startSequence - s.startSequence), s.recordsIn t.span⟩ := by
      rw [h.admission, hordinal, hrecords]

theorem isHeld_partOf {s t : Slice D} (hs : IsHeld codec sources s) (h : PartOf t s) :
    IsHeld codec sources t := by
  rw [eq_crop_of_partOf h]
  exact (hs.crop h.inside (Nat.le_add_right _ _)).2

/-! ### Whole runs -/

variable [DecidableEq D]

/-- What normalization keeps of its slices; `p` holds of the admissions so far. -/
structure Kept (codec : Codec D) (sources : Table ℕ (SourceRow D)) (p : Admission D → Prop)
    (normalized : List (Slice D)) : Prop where
  chain : Chain normalized
  held : ∀ t ∈ normalized, IsHeld codec sources t
  owner : ∀ t ∈ normalized, p t.admission

variable {p : Admission D → Prop}

omit [DecidableEq D] in
theorem Kept.added {normalized out : List (Slice D)} {s : Slice D}
    (h : Kept codec sources p normalized) (hs : IsHeld codec sources s) (hp : p s.admission)
    (hadd : Added normalized s out) : Kept codec sources p out := by
  refine ⟨hadd.chain, fun t ht => ?_, fun t ht => ?_⟩
  · rcases hadd.origin t ht with ht | ht
    · exact h.held t ht
    · exact isHeld_partOf hs ht
  · rcases hadd.origin t ht with ht | ht
    · exact h.owner t ht
    · exact ht.admission ▸ hp

theorem foldlM_addReadySlice_refines (hlimit : 1 ≤ pageLimit) {ready normalized : List (Slice D)}
    (hready : ∀ s ∈ ready, IsHeld codec sources s ∧ p s.admission)
    (h : Kept codec sources p normalized) :
    Refines (List.map (factsOf codec)) IsConflict
      ((ready.map (factsOf codec)).foldlM (addReadySlice codec sources pageLimit)
        (normalized.map (factsOf codec)))
      (ready.foldlM TypedSlices.addReadySlice normalized) ∧
    ∀ out, ready.foldlM TypedSlices.addReadySlice normalized = .ok out →
      Kept codec sources p out := by
  induction ready generalizing normalized with
  | nil =>
    refine ⟨refines_ok (f := List.map (factsOf codec)) normalized, fun out hout => ?_⟩
    obtain rfl := Except.ok.inj hout
    exact h
  | cons s ready ih =>
    obtain ⟨hs, hp⟩ := hready s (by simp)
    have hready' : ∀ s ∈ ready, IsHeld codec sources s ∧ p s.admission :=
      fun t ht => hready t (List.mem_cons_of_mem _ ht)
    have hstep : ∀ next, TypedSlices.addReadySlice normalized s = .ok next →
        Kept codec sources p next :=
      fun next hnext => h.added hs hp (addReadySlice_spec h.chain (Nat.le_add_right _ _) hnext)
    rw [List.map_cons, List.foldlM_cons, List.foldlM_cons]
    refine ⟨(addReadySlice_refines hs hlimit h.chain h.held).bind fun next hnext =>
      (ih hready' (hstep next hnext)).1, fun out hout => ?_⟩
    rw [bind_ok] at hout
    obtain ⟨next, hnext, hout⟩ := hout
    exact (ih hready' (hstep next hnext)).2 out hout

/-- Every precomputed slice is the whole remaining range of its admission. -/
def Prepared (codec : Codec D) (sources : Table ℕ (SourceRow D)) (admissions : List (Admission D))
    (prepared : Table ℕ (TypedSlice D)) : Prop :=
  ∀ a ∈ admissions, ∀ item, prepared.get a.sourceId = some item →
    item = factsOf codec (remainingSlice sources a)

theorem candidateSlice_eq {a : Admission D} (h : Frozen codec sources a) (hlimit : 1 ≤ pageLimit)
    (hrest : a.cursor < a.admittedCount) {prepared : Table ℕ (TypedSlice D)}
    (hprepared : ∀ item, prepared.get a.sourceId = some item →
      item = factsOf codec (remainingSlice sources a)) :
    candidateSlice codec sources pageLimit prepared a =
      .ok (factsOf codec (remainingSlice sources a)) := by
  unfold candidateSlice
  cases hget : prepared.get a.sourceId with
  | some item => rw [hprepared item hget]
  | none =>
    exact h.held.typedSlice hlimit (by omega) (h.remaining hrest).1.framed

/-- The ready runs leave parts of a held slice. -/
theorem uniqueAgainstTypedReady_held {s : Slice D} (hs : IsHeld codec sources s) {c : Custody D}
    (hsorted : SortedRuns (readyRuns c)) {ready : List (Slice D)}
    (h : TypedSlices.uniqueAgainstTypedReady codec s c = .ok ready) :
    ∀ t ∈ ready, IsHeld codec sources t ∧ t.admission = s.admission := by
  simp only [TypedSlices.uniqueAgainstTypedReady, bind_ok, pure_ok] at h
  obtain ⟨-, -, spans, hspans, rfl⟩ := h
  have hu := subtractAll_spec (Nat.le_add_right _ _) hsorted hspans
  intro t ht
  obtain ⟨span, hspan, rfl⟩ := List.mem_map.mp ht
  have hin := hu.inside span hspan
  exact ⟨(hs.crop ⟨hin.2.1, hin.2.2⟩ hin.1.le).2, rfl⟩

/-- One admission: the code answers the facts of the abstract answer, or a conflict. -/
theorem normalizeAdmission_refines {a : Admission D} (ha : Frozen codec sources a)
    (hlimit : 1 ≤ pageLimit) {c : TypedReadyCustody D}
    (hbacked : ∀ artifact ∈ c.active, Backed code codec c artifact.id artifact.proof)
    (hsorted : SortedRuns (readyRuns c.toCustody))
    (hcovered : ∀ r ∈ readyRuns c.toCustody, RunCovered r) {prepared : Table ℕ (TypedSlice D)}
    (hprepared : ∀ item, prepared.get a.sourceId = some item →
      item = factsOf codec (remainingSlice sources a))
    (hp : p a) {normalized : List (Slice D)} (h : Kept codec sources p normalized) :
    ∃ prepared' : Table ℕ (TypedSlice D), (prepared' = prepared ∨
        prepared' = prepared.delete a.sourceId) ∧
      Refines (fun slices : List (Slice D) => (prepared', slices.map (factsOf codec))) IsConflict
        (PagedOverlap.normalizeAdmission code codec sources pageLimit (some c)
          (prepared, normalized.map (factsOf codec)) a)
        (TypedSlices.normalizeAdmission codec sources c.toCustody normalized a) ∧
      ∀ out, TypedSlices.normalizeAdmission codec sources c.toCustody normalized a = .ok out →
        Kept codec sources p out := by
  by_cases hdone : a.admittedCount ≤ a.cursor
  · refine ⟨prepared, .inl rfl, ?_, fun out hout => ?_⟩
    · rw [PagedOverlap.normalizeAdmission, if_pos hdone, TypedSlices.normalizeAdmission,
        if_pos hdone]
      exact refines_ok (f := fun slices : List (Slice D) => (prepared, slices.map (factsOf codec))) _
    · rw [TypedSlices.normalizeAdmission, if_pos hdone] at hout
      obtain rfl := Except.ok.inj hout
      exact h
  · obtain ⟨s, hs⟩ : ∃ s, s = remainingSlice sources a := ⟨_, rfl⟩
    have hrest : a.cursor < a.admittedCount := by omega
    obtain ⟨hheld, -, hdigest⟩ := ha.remaining hrest
    have hcandidate := candidateSlice_eq ha hlimit hrest hprepared
    have habstract : TypedSlices.typedSlice codec sources a a.cursor (a.admittedCount - a.cursor) =
        .ok (remainingSlice sources a) := typedSlice_held ha.held (by omega) hheld.framed
    have hcount : (remainingSlice sources a).recordCount = a.admittedCount - a.cursor :=
      recordCount_heldSlice ha.held (by omega)
    have hmatch : ¬ ((factsOf codec s).admission ≠ a ∨ (factsOf codec s).startOrdinal ≠ a.cursor ∨
        (factsOf codec s).recordCount ≠ a.admittedCount - a.cursor) := by
      rw [hs]
      simp only [factsOf, hcount, ne_eq, not_true_eq_false, or_false]
      simp only [remainingSlice, heldSlice, not_true_eq_false, or_self, not_false_eq_true]
    have hchecked : ¬ (a.cursor = 0 ∧ (factsOf codec s).rawSha256 ≠ a.admittedSha256) := by
      rintro ⟨hzero, hne⟩
      rw [hs] at hne
      exact hne (hdigest hzero)
    have hchecked' : ¬ (a.cursor = 0 ∧ s.rawSha256 codec ≠ a.admittedSha256) := hchecked
    rw [← hs] at hcandidate habstract hheld
    have hready := (uniqueAgainstTypedReady_refines hheld hlimit hbacked hcovered).mapError
      (g := asAdmissionConflict a.sourceId) (by
        intro d hd
        cases d <;> exact hd)
    have howner : s.admission = a := by rw [hs]; rfl
    have hparts : ∀ ready, TypedSlices.uniqueAgainstTypedReady codec s c.toCustody = .ok ready →
        ∀ t ∈ ready, IsHeld codec sources t ∧ p t.admission := by
      intro ready hr t ht
      obtain ⟨hpart, hadm⟩ := uniqueAgainstTypedReady_held hheld hsorted hr t ht
      exact ⟨hpart, by rw [hadm, howner]; exact hp⟩
    have hcode : PagedOverlap.normalizeAdmission code codec sources pageLimit (some c)
        (prepared, normalized.map (factsOf codec)) a =
          readyUnique code codec sources pageLimit (some c) a (factsOf codec s) >>= fun ready =>
            ready.foldlM (addReadySlice codec sources pageLimit)
              (normalized.map (factsOf codec)) >>= fun next =>
                pure (prepared.delete a.sourceId, next) := by
      rw [PagedOverlap.normalizeAdmission, if_neg hdone, hcandidate]
      change (if _ then _ else if _ then _ else _) = _
      rw [if_neg hmatch, if_neg hchecked]
    have hspec : TypedSlices.normalizeAdmission codec sources c.toCustody normalized a =
        (TypedSlices.uniqueAgainstTypedReady codec s c.toCustody).mapError
            (Failure.admissionConflict a.sourceId) >>= fun ready =>
          ready.foldlM TypedSlices.addReadySlice normalized := by
      rw [TypedSlices.normalizeAdmission, if_neg hdone, habstract]
      change (if _ then _ else _) = _
      rw [if_neg hchecked']
    rw [hcode, hspec]
    refine ⟨prepared.delete a.sourceId, .inr rfl, ?_, fun out hout => ?_⟩
    · refine hready.mapError_right.bind fun ready hr => ?_
      have hadd := (foldlM_addReadySlice_refines hlimit (hparts ready (mapError_ok.mp hr)) h).1
      rw [← bind_pure (List.foldlM TypedSlices.addReadySlice normalized ready)]
      exact hadd.bind fun out _ => refines_ok
        (f := fun slices : List (Slice D) => (prepared.delete a.sourceId, slices.map (factsOf codec))) out
    · rw [bind_ok] at hout
      obtain ⟨ready, hr, hout⟩ := hout
      exact (foldlM_addReadySlice_refines hlimit (hparts ready (mapError_ok.mp hr)) h).2 out hout

/-- All admissions: the code answers the facts of the abstract answer, or a conflict. -/
theorem foldlM_normalizeAdmission_refines {admissions : List (Admission D)}
    (hfrozen : ∀ a ∈ admissions, Frozen codec sources a) (hlimit : 1 ≤ pageLimit)
    {c : TypedReadyCustody D}
    (hbacked : ∀ artifact ∈ c.active, Backed code codec c artifact.id artifact.proof)
    (hsorted : SortedRuns (readyRuns c.toCustody))
    (hcovered : ∀ r ∈ readyRuns c.toCustody, RunCovered r)
    {prepared : Table ℕ (TypedSlice D)} (hprepared : Prepared codec sources admissions prepared)
    (hp : ∀ a ∈ admissions, p a) {normalized : List (Slice D)}
    (h : Kept codec sources p normalized) :
    Refines (List.map (factsOf codec)) IsConflict
      (admissions.foldlM (PagedOverlap.normalizeAdmission code codec sources pageLimit (some c))
        (prepared, normalized.map (factsOf codec)) >>= fun final => pure final.2)
      (admissions.foldlM (TypedSlices.normalizeAdmission codec sources c.toCustody) normalized) ∧
    ∀ out, admissions.foldlM (TypedSlices.normalizeAdmission codec sources c.toCustody) normalized =
        .ok out → Kept codec sources p out := by
  induction admissions generalizing prepared normalized with
  | nil =>
    refine ⟨refines_ok (f := List.map (factsOf codec)) normalized, fun out hout => ?_⟩
    obtain rfl := Except.ok.inj hout
    exact h
  | cons a rest ih =>
    obtain ⟨prepared', hdelete, hone, hkept⟩ := normalizeAdmission_refines (hfrozen a (by simp))
      hlimit hbacked hsorted hcovered (hprepared a (by simp)) (hp a (by simp)) h
    have hprepared' : Prepared codec sources rest prepared' := by
      intro b hb item hitem
      refine hprepared b (List.mem_cons_of_mem _ hb) item ?_
      rcases hdelete with rfl | rfl
      · exact hitem
      · rw [Table.get_delete] at hitem
        split at hitem
        · cases hitem
        · exact hitem
    have hrest := fun {next : List (Slice D)} (hnext : Kept codec sources p next) =>
      ih (fun b hb => hfrozen b (List.mem_cons_of_mem _ hb)) hprepared'
        (fun b hb => hp b (List.mem_cons_of_mem _ hb)) hnext
    rw [List.foldlM_cons, List.foldlM_cons, bind_assoc]
    refine ⟨hone.bind fun next hnext => (hrest (hkept next hnext)).1, fun out hout => ?_⟩
    rw [bind_ok] at hout
    obtain ⟨next, hnext, hout⟩ := hout
    exact (hrest (hkept next hnext)).2 out hout

omit [DecidableEq D] in
theorem foldl_put_get {items : List (TypedSlice D)} {prepared : Table ℕ (TypedSlice D)} {id : ℕ}
    {item : TypedSlice D}
    (h : (items.foldl (fun prepared item => prepared.put item.admission.sourceId item)
      prepared).get id = some item) :
    (item ∈ items ∧ item.admission.sourceId = id) ∨ prepared.get id = some item := by
  induction items generalizing prepared with
  | nil => exact .inr h
  | cons first items ih =>
    rcases ih h with ⟨hmem, hid⟩ | hget
    · exact .inl ⟨List.mem_cons_of_mem _ hmem, hid⟩
    · rw [Table.get_put] at hget
      split at hget
      · rename_i hid
        obtain rfl := Option.some.inj hget
        exact .inl ⟨by simp, hid.symm⟩
      · exact .inr hget

omit [DecidableEq D] in
theorem prepared_of_precomputed {admissions : List (Admission D)}
    (hids : (admissions.map (·.sourceId)).Nodup) {precomputed : List (TypedSlice D)}
    (h : ∀ item ∈ precomputed, ∃ a ∈ admissions, item = factsOf codec (remainingSlice sources a)) :
    Prepared codec sources admissions (preparedSlices precomputed) := by
  intro a ha item hitem
  rcases foldl_put_get hitem with ⟨hmem, hid⟩ | hget
  · obtain ⟨b, hb, rfl⟩ := h item hmem
    have hsame : b.sourceId = a.sourceId := hid
    rw [List.inj_on_of_nodup_map hids hb ha hsame]
  · simp at hget

/-- The answer of normalization: slices in order with no sequence in common, over just what the
admissions have left outside the active runs, each with the facts of its own rows. -/
structure Normalized (codec : Codec D) (sources : Table ℕ (SourceRow D)) (c : Custody D)
    (admissions : List (Admission D)) (out : List (TypedSlice D)) : Prop where
  ordered : out.Pairwise fun s t => s.nextSequence ≤ t.startSequence
  nonempty : ∀ s ∈ out, s.startSequence < s.nextSequence
  covers : ∀ x, (∃ s ∈ out, s.startSequence ≤ x ∧ x < s.nextSequence) ↔
    (∃ a ∈ admissions, a.remaining.Contains x) ∧ ¬ CoveredBy (readyRuns c) x
  facts : ∀ s ∈ out, s.admission ∈ admissions ∧
    s = factsOf codec (heldSlice sources s.admission s.startOrdinal s.recordCount)

/-- The stored record of an admission at one sequence. -/
def rawOf (sources : Table ℕ (SourceRow D)) (a : Admission D) (x : ℕ) : Option Bytes :=
  sourceRaw sources a.sourceId (x - a.sequenceStart)

/-- Two admissions differ at a sequence that both still hold. -/
def AdmissionsDiffer (sources : Table ℕ (SourceRow D)) (admissions : List (Admission D)) : Prop :=
  ∃ a ∈ admissions, ∃ b ∈ admissions, ∃ x, a.remaining.Contains x ∧ b.remaining.Contains x ∧
    rawOf sources a x ≠ rawOf sources b x

/-- An admission differs from the record that is published at an active sequence. -/
def PublishedDiffers (sources : Table ℕ (SourceRow D)) (c : Custody D) (published : ℕ → Bytes)
    (admissions : List (Admission D)) : Prop :=
  ∃ a ∈ admissions, ∃ x, a.remaining.Contains x ∧ CoveredBy (readyRuns c) x ∧
    rawOf sources a x ≠ some (published x)

/-- What an admission has left overlaps a run of a retired artifact. -/
def RetiredMet (c : Custody D) (admissions : List (Admission D)) : Prop :=
  ∃ a ∈ admissions, a.cursor < a.admittedCount ∧ ∃ r ∈ c.retired, ∃ run ∈ physicalRuns r.facts,
    a.remaining.start < run.stop ∧ run.start < a.remaining.stop

/-- The proofs of the active artifacts hold the digests of the published records. -/
def ProofsOf (codec : Codec D) (c : Custody D) (published : ℕ → Bytes) : Prop :=
  ∀ r ∈ readyRuns c, ∀ x, r.1.Contains x → ReadyMatch codec r.2 x (published x)

omit [DecidableEq D] in
theorem ProofsOf.covered {c : Custody D} {published : ℕ → Bytes} (h : ProofsOf codec c published) :
    ∀ r ∈ readyRuns c, RunCovered r := by
  intro r hr x hx
  obtain ⟨run, normalized, hrun, -, hhash⟩ := h r hr x hx
  exact ⟨by rw [hrun]; rfl, (List.getElem?_eq_some_iff.mp hhash).1⟩

/-- SHA-256 tells what the admissions have left from what is published in its place. -/
def RecordsSeparated (codec : Codec D) (sources : Table ℕ (SourceRow D)) (c : Custody D)
    (published : ℕ → Bytes) (admissions : List (Admission D)) : Prop :=
  ∀ a ∈ admissions, ∀ r ∈ readyRuns c, ∀ x raw, a.remaining.Contains x → r.1.Contains x →
    rawOf sources a x = some raw → Separates codec r.2.proof raw (published x)

theorem exists_rawOf {a : Admission D} (h : Frozen codec sources a) {x : ℕ}
    (hx : a.remaining.Contains x) : ∃ raw, rawOf sources a x = some raw := by
  have hrest : a.cursor < a.admittedCount := by
    have h1 := hx.1
    have h2 := hx.2
    simp only [Admission.remaining] at h1 h2
    omega
  obtain ⟨hheld, hspan, -⟩ := h.remaining hrest
  have hslice : TypedSlices.typedSlice codec sources a a.cursor (a.admittedCount - a.cursor) =
      .ok (remainingSlice sources a) := typedSlice_held h.held (by omega) hheld.framed
  obtain ⟨-, -, -, -, -, hreads⟩ := typedSlice_ok hslice
  obtain ⟨raw, hraw, -⟩ := rawAt_of_contains (s := remainingSlice sources a) (hspan.symm ▸ hx)
  refine ⟨raw, ?_⟩
  rw [← hraw]
  exact (hreads.rows x (hspan.symm ▸ hx)).symm

/-- The abstract normalization succeeds when nothing conflicts. -/
theorem succeeds_iff {c : Custody D} {published : ℕ → Bytes} {admissions : List (Admission D)}
    (hsep : RecordsSeparated codec sources c published admissions)
    (hfrozen : ∀ a ∈ admissions, Frozen codec sources a)
    (hsorted : SortedRuns (readyRuns c)) (hproofs : ProofsOf codec c published)
    (hlineage : ∀ a ∈ admissions, typedRetiredFullProof a c = none) :
    (∃ out, TypedSlices.normalizeTypedAdmissions codec sources c admissions = .ok out) ↔
      ¬ (AdmissionsDiffer sources admissions ∨ PublishedDiffers sources c published admissions ∨
        RetiredMet c admissions) := by
  have hreject : ∀ a ∈ admissions, (typedRejectPartialRetiredOverlap a c = .ok () ↔
      ¬ ∃ r ∈ c.retired, ∃ run ∈ physicalRuns r.facts,
        a.remaining.start < run.stop ∧ run.start < a.remaining.stop) := by
    intro a ha
    unfold typedRejectPartialRetiredOverlap
    rw [hlineage a ha]
    simp only [Option.isSome_none, Bool.false_eq_true, if_false]
    split
    · rename_i hmet
      simp only [reduceCtorEq, false_iff, not_not]
      exact hmet
    · rename_i hmet
      simp only [true_iff]
      exact hmet
  have hremains : ∀ {a : Admission D} {x : ℕ}, a.remaining.Contains x → a.cursor < a.admittedCount := by
    intro a x hx
    have h1 := hx.1
    have h2 := hx.2
    simp only [Admission.remaining] at h1 h2
    omega
  constructor
  · rintro ⟨out, hout⟩
    have hp := normalizeTypedAdmissions_spec hsorted hout
    have hpublished : ∀ a ∈ admissions, ∀ x, a.remaining.Contains x → CoveredBy (readyRuns c) x →
        rawOf sources a x = some (published x) := by
      rintro a ha x hx ⟨r, hr, hrx⟩
      obtain ⟨raw, hraw⟩ := exists_rawOf (hfrozen a ha) hx
      have hmatch := (hp.comparable a ha (hremains hx)).ready r hr x raw hx hrx hraw
      rw [hraw, hashMatch_unique (hsep a ha r hr x raw hx hrx hraw) hmatch (hproofs r hr x hrx)]
    rintro (⟨a, ha, b, hb, x, hax, hbx, hne⟩ | ⟨a, ha, x, hx, hcov, hne⟩ | ⟨a, ha, hrest, hmet⟩)
    · apply hne
      by_cases hcov : CoveredBy (readyRuns c) x
      · rw [hpublished a ha x hax hcov, hpublished b hb x hbx hcov]
      · exact hp.agreeing a ha b hb x hax hbx hcov
    · exact hne (hpublished a ha x hx hcov)
    · exact (hreject a ha).mp (hp.comparable a ha hrest).retired hmet
  · intro hnone
    simp only [not_or] at hnone
    obtain ⟨hagree, hpublished, hretired⟩ := hnone
    refine normalizeTypedAdmissions_succeeds hsorted ?_ ?_
    · intro a ha b hb x hax hbx _
      by_contra hne
      exact hagree ⟨a, ha, b, hb, x, hax, hbx, hne⟩
    · intro a ha hrest
      obtain ⟨hheld, hspan, hdigest⟩ := (hfrozen a ha).remaining hrest
      have hslice : TypedSlices.typedSlice codec sources a a.cursor (a.admittedCount - a.cursor) =
          .ok (remainingSlice sources a) :=
        typedSlice_held (hfrozen a ha).held (by omega) hheld.framed
      refine ⟨⟨_, hslice, hdigest⟩, ?_, ?_⟩
      · rw [hreject a ha]
        exact fun hmet => hretired ⟨a, ha, hrest, hmet⟩
      · intro r hr x raw hx hrx hraw
        by_contra hne
        refine hpublished ⟨a, ha, x, hx, ⟨r, hr, hrx⟩, fun hsame => hne ?_⟩
        obtain rfl := Option.some.inj (hraw.symm.trans hsame)
        exact hproofs r hr x hrx

/-- Overlap deduplication: the answer partitions what the admissions have left outside the active
runs, and a conflict is raised exactly when records differ or retired custody is met. -/
theorem normalizeTypedAdmissions_exact {c : TypedReadyCustody D} {published : ℕ → Bytes}
    {admissions : List (Admission D)} {precomputed : List (TypedSlice D)}
    (hsep : RecordsSeparated codec sources c.toCustody published admissions)
    (hids : (admissions.map (·.sourceId)).Nodup)
    (hfrozen : ∀ a ∈ admissions, Frozen codec sources a) (hlimit : 1 ≤ pageLimit)
    (hprecomputed : ∀ item ∈ precomputed, ∃ a ∈ admissions,
      item = factsOf codec (remainingSlice sources a))
    (hbacked : ∀ artifact ∈ c.active, Backed code codec c artifact.id artifact.proof)
    (hsorted : SortedRuns (readyRuns c.toCustody)) (hproofs : ProofsOf codec c.toCustody published)
    (hlineage : ∀ a ∈ admissions, typedRetiredFullProof a c.toCustody = none) :
    (∀ out, PagedOverlap.normalizeTypedAdmissions code codec sources admissions pageLimit (some c)
        precomputed = .ok out → Normalized codec sources c.toCustody admissions out) ∧
    (∀ e, PagedOverlap.normalizeTypedAdmissions code codec sources admissions pageLimit (some c)
        precomputed = .error e → IsConflict e) ∧
    ((∃ e, PagedOverlap.normalizeTypedAdmissions code codec sources admissions pageLimit (some c)
        precomputed = .error e ∧ IsConflict e) ↔
      AdmissionsDiffer sources admissions ∨ PublishedDiffers sources c.toCustody published
        admissions ∨ RetiredMet c.toCustody admissions) := by
  have hempty : Kept codec sources (· ∈ admissions) [] :=
    ⟨⟨by simp, by simp⟩, by simp, by simp⟩
  obtain ⟨hrefines, hkept⟩ := foldlM_normalizeAdmission_refines hfrozen hlimit hbacked
    hsorted hproofs.covered (prepared_of_precomputed hids hprecomputed) (fun a ha => ha) hempty
  have hsucceeds := succeeds_iff hsep hfrozen hsorted hproofs hlineage
  obtain ⟨slices, hslices, hok⟩ | ⟨e, d, he, herror, hconflict⟩ := hrefines.ok_or_error
  · have hcode : PagedOverlap.normalizeTypedAdmissions code codec sources admissions pageLimit (some c)
        precomputed = .ok (slices.map (factsOf codec)) := hok
    have hslices : TypedSlices.normalizeTypedAdmissions codec sources c.toCustody admissions = .ok slices :=
      hslices
    rw [hcode, ← not_iff_not, ← hsucceeds]
    refine ⟨fun out hout => ?_, fun e he => (by cases he), ?_⟩
    · obtain rfl := Except.ok.inj hout
      have hp := normalizeTypedAdmissions_spec hsorted hslices
      have hall := hkept slices hslices
      refine ⟨List.pairwise_map.mpr hp.chain.ordered, ?_, fun x => ?_, ?_⟩
      · intro s hs
        obtain ⟨t, ht, rfl⟩ := List.mem_map.mp hs
        exact hp.chain.nonempty t ht
      · rw [← hp.covers]
        simp only [List.mem_map, exists_exists_and_eq_and]
        rfl
      · intro s hs
        obtain ⟨t, ht, rfl⟩ := List.mem_map.mp hs
        refine ⟨hall.owner t ht, ?_⟩
        conv_lhs => rw [(hall.held t ht).rows]
        rfl
    · simp only [reduceCtorEq, false_and, exists_false, not_false_eq_true, true_iff]
      exact ⟨slices, hslices⟩
  · have hcode : PagedOverlap.normalizeTypedAdmissions code codec sources admissions pageLimit (some c)
        precomputed = .error d := herror
    have he : TypedSlices.normalizeTypedAdmissions codec sources c.toCustody admissions = .error e := he
    rw [hcode, ← not_iff_not, ← hsucceeds]
    refine ⟨fun out hout => (by cases hout), fun e he => ?_, ?_⟩
    · obtain rfl := Except.error.inj he
      exact hconflict
    · rw [he]
      simp [hconflict]

omit [DecidableEq D] in
/-- A sealed source of framed records is frozen under its admission. -/
theorem frozen_sealed {sha256 : Bytes → D} {id start : ℕ} {raw : List Bytes}
    (h : sources.get id = some (SealedSources.sealedRow sha256 start raw))
    (hsha : codec.sha256 = sha256) (hsize : ∀ b ∈ raw, b.length = audioRecordSize)
    (hframed : ∀ b ∈ raw, (codec.inspectRecord false b).isSome) (cursor : ℕ) :
    Frozen codec sources (SealedSources.sealedAdmission sha256 id start raw cursor) := by
  have hrows := SealedSources.admittedRows_sealed h cursor
  have hraw := parseRecords_rawBytes 0 hsize
  refine ⟨SealedSources.held_sealed h cursor, fun r hr => ?_, ?_⟩
  · rw [hrows] at hr
    exact hframed r.rawBytes (hraw ▸ List.mem_map_of_mem hr)
  · rw [hrows, hraw, hsha]
    rfl

/-! ### Two sources that meet an active artifact -/

section Sample

open ProofPages (Digest hashlibSha256)
open SealedSources (packetRecord sealedRow sealedAdmission)

/-- Records framed by the packet scanner and hashed by SHA-256. -/
def sampleCodec : Codec Digest :=
  SealedSources.scannerCodec hashlibSha256 (fun packets => some (hashlibSha256 packets.flatten))
    (fun artifact _ _ _ => artifact) fun _ _ _ _ => ⟨.unknown, 0, none, "", false⟩

/-- The packet record with another timestamp. -/
def laterRecord : Bytes := [0, 0, 0, 1] ++ packetRecord.drop 4

/-- One source from sequence 5 on, another one from sequence 7 on. -/
def sampleSources (first second : List Bytes) : Table ℕ (SourceRow Digest) :=
  (Table.empty.put 1 (sealedRow hashlibSha256 5 first)).put 2 (sealedRow hashlibSha256 7 second)

def sampleAdmissions (first second : List Bytes) : List (Admission Digest) :=
  [sealedAdmission hashlibSha256 1 5 first 0, sealedAdmission hashlibSha256 2 7 second 0]

def publishedRecords : List Bytes := [packetRecord, packetRecord]

def sampleRuns : List NormalizationRun := [⟨0, 2, 0, .raw, 0⟩]

/-- An artifact over the sequences 5 and 6. -/
def sampleArtifact : ActiveArtifact Digest where
  id := hashlibSha256 [5]
  entry := ⟨hashlibSha256 publishedRecords.flatten, .ready, 5, 7,
    hashlibSha256 publishedRecords.flatten, [], [(5, 7, hashlibSha256 publishedRecords.flatten)], 1,
    hashlibSha256 [], hashlibSha256 [], 2⟩
  proof := ⟨.active, hashlibSha256 publishedRecords.flatten, hashlibSha256 [], sampleRuns, 1,
    hashlibSha256 [], 2, publishedRecords.map hashlibSha256⟩

def sampleProof : ProofScan.PrivateProof Digest :=
  .ofRecords hashlibSha256 sampleArtifact.id sampleRuns (hashlibSha256 []) publishedRecords

/-- The artifact in custody with its stored proof, and a retired one far behind it. -/
def sampleCustody : TypedReadyCustody Digest where
  active := [sampleArtifact]
  retired := [⟨hashlibSha256 [1], ⟨20, 22, 2, hashlibSha256 [], []⟩, []⟩]
  proofs := Table.empty.put sampleArtifact.id sampleProof
  stateDb := ProofScan.ProofTables.activate hashlibSha256 ⟨Table.empty, Table.empty⟩ sampleProof
    publishedRecords

/-- Normalization of both sources, with the first slice precomputed. -/
def sampleNormalization (first second : List Bytes) : Except ReadyError (List (TypedSlice Digest)) :=
  PagedOverlap.normalizeTypedAdmissions ProofScan.digestBytes sampleCodec
    (sampleSources first second) (sampleAdmissions first second) 1 (some sampleCustody)
    [factsOf sampleCodec (remainingSlice (sampleSources first second)
      (sealedAdmission hashlibSha256 1 5 first 0))]

theorem sampleRecord_ok {raw : Bytes} (h : raw = packetRecord ∨ raw = laterRecord) :
    raw.length = audioRecordSize ∧ (sampleCodec.inspectRecord false raw).isSome := by
  have hlength : raw.length = 444 := by
    rcases h with rfl | rfl
    · exact SealedSources.packetRecord_length
    · simp [laterRecord, SealedSources.packetRecord_length]
  have hdrop : raw.drop 4 = packetRecord.drop 4 := by
    rcases h with rfl | rfl
    · rfl
    · simp [laterRecord]
  have hframed := SealedSources.packetRecord_framed false
  rw [← hdrop] at hframed
  have hlayout : sampleCodec.inspectRecord false raw =
      some (RecordFraming.layoutOf raw [[8, 0x55]] none) :=
    SealedSources.scannerCodec_inspectRecord hlength hframed
  exact ⟨hlength, by rw [hlayout]; rfl⟩

theorem laterRecord_digest : hashlibSha256 laterRecord ≠ hashlibSha256 packetRecord := by
  decide +kernel

theorem sampleCustody_backed : Backed ProofScan.digestBytes sampleCodec sampleCustody
    sampleArtifact.id sampleArtifact.proof := by
  have hlength : ∀ r ∈ publishedRecords, r.length = ProofPages.recordBytes := by
    simp [publishedRecords, SealedSources.packetRecord_length, ProofPages.recordBytes]
  have hwritten : ProofScan.Written (ProofScan.digestBytes.sha256 sampleCodec)
      sampleCustody.stateDb sampleProof publishedRecords :=
    ProofScan.written_activate hlength (by decide) sampleArtifact.id sampleRuns (hashlibSha256 [])
      ⟨Table.empty, Table.empty⟩
  exact ⟨sampleProof, Table.get_put_self .., rfl, hwritten.stored hlength⟩

/-- The source records that have been published agree with the artifact. -/
theorem sampleCustody_proofs :
    ProofsOf sampleCodec sampleCustody.toCustody fun _ => packetRecord := by
  intro r hr x hx
  obtain rfl := List.mem_singleton.mp (show r ∈ [_] from hr)
  have hnormal : normalizeRecord packetRecord ⟨0, 2, 0, .raw, 0⟩ = .ok packetRecord := by
    have hlength : packetRecord.length = audioRecordSize := SealedSources.packetRecord_length
    rw [normalizeRecord, if_neg (not_not.mpr hlength)]
  obtain rfl | rfl : x = 5 ∨ x = 6 := by
    have h1 : 5 ≤ x := hx.1
    have h2 : x < 7 := hx.2
    omega
  · exact ⟨⟨0, 2, 0, .raw, 0⟩, packetRecord, rfl, hnormal, rfl⟩
  · exact ⟨⟨0, 2, 0, .raw, 0⟩, packetRecord, rfl, hnormal, rfl⟩

theorem rawOf_sample {first second : List Bytes}
    (hraw : ∀ b ∈ first ++ second, b = packetRecord ∨ b = laterRecord) (x : ℕ) :
    rawOf (sampleSources first second) (sealedAdmission hashlibSha256 1 5 first 0) x =
        first[x - 5]? ∧
      rawOf (sampleSources first second) (sealedAdmission hashlibSha256 2 7 second 0) x =
        second[x - 7]? := by
  have hsize : ∀ b ∈ first ++ second, b.length = audioRecordSize :=
    fun b hb => (sampleRecord_ok (hraw b hb)).1
  have hone : (sampleSources first second).get 1 = some (sealedRow hashlibSha256 5 first) := rfl
  have htwo : (sampleSources first second).get 2 = some (sealedRow hashlibSha256 7 second) := rfl
  exact ⟨SealedSources.sourceRaw_sealed hone (fun b hb => hsize b (List.mem_append_left _ hb)) _,
    SealedSources.sourceRaw_sealed htwo (fun b hb => hsize b (List.mem_append_right _ hb)) _⟩

theorem sample_readyRuns : readyRuns sampleCustody.toCustody =
    [(⟨5, 7⟩, ⟨sampleArtifact.proof, 5, 0⟩)] := rfl

theorem coveredBy_sample (x : ℕ) :
    CoveredBy (readyRuns sampleCustody.toCustody) x ↔ 5 ≤ x ∧ x < 7 := by
  rw [sample_readyRuns]
  simp [CoveredBy, Span.Contains]

theorem sampleAdmissions_contain (r₀ r₁ r₂ s₀ s₁ : Bytes) (x : ℕ) :
    ((sealedAdmission hashlibSha256 1 5 [r₀, r₁, r₂] 0).remaining.Contains x ↔ 5 ≤ x ∧ x < 8) ∧
      ((sealedAdmission hashlibSha256 2 7 [s₀, s₁] 0).remaining.Contains x ↔ 7 ≤ x ∧ x < 9) :=
  ⟨Iff.rfl, Iff.rfl⟩

theorem sample_separated {r₀ r₁ r₂ s₀ s₁ : Bytes}
    (hraw : ∀ b ∈ [r₀, r₁, r₂] ++ [s₀, s₁], b = packetRecord ∨ b = laterRecord) :
    RecordsSeparated sampleCodec (sampleSources [r₀, r₁, r₂] [s₀, s₁]) sampleCustody.toCustody
      (fun _ => packetRecord) (sampleAdmissions [r₀, r₁, r₂] [s₀, s₁]) := by
  intro a ha r hr x raw _ _ hx run hrun m n hm hn hsame
  rw [sample_readyRuns, List.mem_singleton] at hr
  subst hr
  obtain rfl : run = ⟨0, 2, 0, .raw, 0⟩ := List.mem_singleton.mp hrun
  have hmem : raw ∈ [r₀, r₁, r₂] ++ [s₀, s₁] := by
    obtain rfl | rfl : a = sealedAdmission hashlibSha256 1 5 [r₀, r₁, r₂] 0 ∨
        a = sealedAdmission hashlibSha256 2 7 [s₀, s₁] 0 := by
      simpa [sampleAdmissions] using ha
    · rw [(rawOf_sample hraw x).1] at hx
      exact List.mem_append_left _ (List.mem_of_getElem? hx)
    · rw [(rawOf_sample hraw x).2] at hx
      exact List.mem_append_right _ (List.mem_of_getElem? hx)
  have hlength := (sampleRecord_ok (hraw raw hmem)).1
  have hlength' : packetRecord.length = audioRecordSize := SealedSources.packetRecord_length
  rw [normalizeRecord, if_neg (not_not.mpr hlength)] at hm
  rw [normalizeRecord, if_neg (not_not.mpr hlength')] at hn
  obtain rfl := Except.ok.inj hm
  obtain rfl := Except.ok.inj hn
  rcases hraw raw hmem with rfl | rfl
  · rfl
  · exact absurd hsame laterRecord_digest

/-- The conflicts of the two sources, one after the other. -/
theorem sample_conflicts {r₀ r₁ r₂ s₀ s₁ : Bytes}
    (hraw : ∀ b ∈ [r₀, r₁, r₂] ++ [s₀, s₁], b = packetRecord ∨ b = laterRecord) :
    AdmissionsDiffer (sampleSources [r₀, r₁, r₂] [s₀, s₁])
        (sampleAdmissions [r₀, r₁, r₂] [s₀, s₁]) ∨
      PublishedDiffers (sampleSources [r₀, r₁, r₂] [s₀, s₁]) sampleCustody.toCustody
        (fun _ => packetRecord) (sampleAdmissions [r₀, r₁, r₂] [s₀, s₁]) ∨
      RetiredMet sampleCustody.toCustody (sampleAdmissions [r₀, r₁, r₂] [s₀, s₁]) ↔
    r₂ ≠ s₀ ∨ r₀ ≠ packetRecord ∨ r₁ ≠ packetRecord := by
  have hrows := fun x => rawOf_sample hraw x
  have hin := sampleAdmissions_contain r₀ r₁ r₂ s₀ s₁
  refine or_congr ?_ ?_
  · simp only [AdmissionsDiffer, sampleAdmissions, List.mem_cons, List.not_mem_nil, or_false,
      exists_eq_or_imp, exists_eq_left, hin, hrows]
    constructor
    · rintro ((⟨x, h, h', hne⟩ | ⟨x, h, h', hne⟩) | ⟨x, h, h', hne⟩ | ⟨x, h, h', hne⟩)
      · exact absurd rfl hne
      · obtain rfl : x = 7 := by omega
        exact fun heq => hne (congrArg some heq)
      · obtain rfl : x = 7 := by omega
        exact fun heq => hne (congrArg some heq.symm)
      · exact absurd rfl hne
    · intro hne
      exact .inl (.inr ⟨7, by decide, by decide, fun heq => hne (Option.some.inj heq)⟩)
  · have hretired : ¬ RetiredMet sampleCustody.toCustody
        (sampleAdmissions [r₀, r₁, r₂] [s₀, s₁]) := by
      rintro ⟨a, ha, -, r, hr, run, hrun, -, hmet⟩
      obtain rfl := List.mem_singleton.mp (show r ∈ [_] from hr)
      obtain rfl := List.mem_singleton.mp (show run ∈ [_] from hrun)
      obtain rfl | rfl : a = sealedAdmission hashlibSha256 1 5 [r₀, r₁, r₂] 0 ∨
          a = sealedAdmission hashlibSha256 2 7 [s₀, s₁] 0 := by
        simpa [sampleAdmissions] using ha
      · exact absurd hmet (show ¬ 20 < 8 by decide)
      · exact absurd hmet (show ¬ 20 < 9 by decide)
    rw [or_iff_left hretired]
    simp only [PublishedDiffers, sampleAdmissions, List.mem_cons, List.not_mem_nil, or_false,
      exists_eq_or_imp, exists_eq_left, hin, hrows, coveredBy_sample]
    constructor
    · rintro (⟨x, h, h', hne⟩ | ⟨x, h, h', hne⟩)
      · obtain rfl | rfl : x = 5 ∨ x = 6 := by omega
        · exact .inl fun heq => hne (congrArg some heq)
        · exact .inr fun heq => hne (congrArg some heq)
      · omega
    · rintro (hne | hne)
      · exact .inl ⟨5, by decide, by decide, fun heq => hne (Option.some.inj heq)⟩
      · exact .inl ⟨6, by decide, by decide, fun heq => hne (Option.some.inj heq)⟩

/-- Two sources that overlap each other and an artifact: agreeing records are kept once, and a
record that differs from the other source or from the published one is a conflict. -/
theorem normalizeTypedAdmissions_exact_overlap :
    (∃ out, sampleNormalization [packetRecord, packetRecord, laterRecord]
        [laterRecord, packetRecord] = .ok out ∧
      ∀ x, (∃ s ∈ out, s.startSequence ≤ x ∧ x < s.nextSequence) ↔ x = 7 ∨ x = 8) ∧
    (∃ e, sampleNormalization [packetRecord, packetRecord, laterRecord]
        [packetRecord, packetRecord] = .error e ∧ IsConflict e) ∧
    ∃ e, sampleNormalization [laterRecord, packetRecord, laterRecord]
      [laterRecord, packetRecord] = .error e ∧ IsConflict e := by
  have hexact : ∀ r₀ r₁ r₂ s₀ s₁ : Bytes,
      (∀ b ∈ [r₀, r₁, r₂] ++ [s₀, s₁], b = packetRecord ∨ b = laterRecord) →
      (∀ out, sampleNormalization [r₀, r₁, r₂] [s₀, s₁] = .ok out →
        Normalized sampleCodec (sampleSources [r₀, r₁, r₂] [s₀, s₁]) sampleCustody.toCustody
          (sampleAdmissions [r₀, r₁, r₂] [s₀, s₁]) out) ∧
      (∀ e, sampleNormalization [r₀, r₁, r₂] [s₀, s₁] = .error e → IsConflict e) ∧
      ((∃ e, sampleNormalization [r₀, r₁, r₂] [s₀, s₁] = .error e ∧ IsConflict e) ↔
        r₂ ≠ s₀ ∨ r₀ ≠ packetRecord ∨ r₁ ≠ packetRecord) := by
    intro r₀ r₁ r₂ s₀ s₁ hraw
    have hrecord := fun b hb => sampleRecord_ok (hraw b hb)
    have hfrozen : ∀ a ∈ sampleAdmissions [r₀, r₁, r₂] [s₀, s₁],
        Frozen sampleCodec (sampleSources [r₀, r₁, r₂] [s₀, s₁]) a := by
      simp only [sampleAdmissions, List.forall_mem_cons, List.not_mem_nil, false_implies,
        implies_true, and_true]
      refine ⟨frozen_sealed rfl rfl (fun b hb => (hrecord b ?_).1) (fun b hb => (hrecord b ?_).2) 0,
        frozen_sealed rfl rfl (fun b hb => (hrecord b ?_).1) (fun b hb => (hrecord b ?_).2) 0⟩
      · exact List.mem_append_left _ hb
      · exact List.mem_append_left _ hb
      · exact List.mem_append_right _ hb
      · exact List.mem_append_right _ hb
    rw [← sample_conflicts hraw]
    have hids : ((sampleAdmissions [r₀, r₁, r₂] [s₀, s₁]).map (·.sourceId)).Nodup :=
      show [1, 2].Nodup by decide
    refine normalizeTypedAdmissions_exact (sample_separated hraw) hids hfrozen le_rfl ?_ ?_ ?_
      sampleCustody_proofs ?_
    · intro item hitem
      exact ⟨_, List.mem_cons_self .., List.mem_singleton.mp hitem⟩
    · intro artifact hartifact
      obtain rfl := List.mem_singleton.mp (show artifact ∈ [_] from hartifact)
      exact sampleCustody_backed
    · rw [sample_readyRuns]
      exact ⟨List.pairwise_singleton _ _, by simp⟩
    · simp [typedRetiredFullProof, sampleCustody]
  refine ⟨?_, ?_, ?_⟩
  · obtain ⟨hok, herror, hiff⟩ := hexact packetRecord packetRecord laterRecord laterRecord
      packetRecord (by simp)
    cases hresult : sampleNormalization [packetRecord, packetRecord, laterRecord]
        [laterRecord, packetRecord] with
    | error e => exact absurd (hiff.mp ⟨e, hresult, herror e hresult⟩) (by simp)
    | ok out =>
      refine ⟨out, rfl, fun x => ((hok out hresult).covers x).trans ?_⟩
      have hin := sampleAdmissions_contain packetRecord packetRecord laterRecord laterRecord
        packetRecord x
      simp only [sampleAdmissions, List.mem_cons, List.not_mem_nil, or_false, exists_eq_or_imp,
        exists_eq_left, hin, coveredBy_sample]
      omega
  · refine (hexact packetRecord packetRecord laterRecord packetRecord packetRecord (by simp)).2.2.mpr
      (.inl fun heq => laterRecord_digest (congrArg hashlibSha256 heq))
  · refine (hexact laterRecord packetRecord laterRecord laterRecord packetRecord (by simp)).2.2.mpr
      (.inr (.inl fun heq => laterRecord_digest (congrArg hashlibSha256 heq)))

end Sample

end OverlapExact
