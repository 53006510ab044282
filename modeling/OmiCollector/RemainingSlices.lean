import OmiCollector.CohortMembers

/-! The unpublished rest of a cohort as member cursors and published artifacts move.

Normalization gives every unpublished sequence one owner. When a group is committed its slices
leave the front of that partition, and when cursors move over published sequences nothing leaves
it, so that what is in memory stays what a fresh normalization would compute. -/
namespace RemainingSlices

open AudioMachine (AudioPhase CohortPhase)
open ByteCodec CaptureModel KeyedTable SpanCover SpanWalk PublicationLedger RunGroups TypedSlices
open SlicePartition PublicationGroups PublicationStage PublicationStore PublicationMachine
open PublicationEffects LedgerOrder CohortMembers

variable {D : Type}

/-- Both tables hold the same rows for one source. -/
def SameRecords (sources sources' : Table ℕ (SourceRow D)) (id : ℕ) : Prop :=
  (sources'.get id).map (·.records) = (sources.get id).map (·.records)

theorem SameRecords.sourceRaw {sources sources' : Table ℕ (SourceRow D)} {id : ℕ}
    (h : SameRecords sources sources' id) (ordinal : ℕ) :
    sourceRaw sources' id ordinal = sourceRaw sources id ordinal := by
  have hid : (sources'.get id).map (·.records) = (sources.get id).map (·.records) := h
  unfold SlicePartition.sourceRaw
  cases hs : sources.get id with
  | none => simp_all
  | some row =>
    rw [hs] at hid
    obtain ⟨row', hrow', hrecords⟩ := Option.map_eq_some_iff.mp hid
    rw [hrow']
    simp [hrecords]

theorem sameRecords_applyTypedCoverage (sources : Table ℕ (SourceRow D))
    (coverage : List (ℕ × CaptureSource D)) (id : ℕ) :
    SameRecords sources (applyTypedCoverage sources coverage) id := by
  induction coverage generalizing sources with
  | nil => rfl
  | cons item coverage ih =>
    have hrest := ih (sources.adjust item.1 fun row => { row with source := item.2 })
    refine Eq.trans hrest ?_
    rw [Table.get_adjust]
    by_cases hid : id = item.1
    · rw [if_pos hid, Option.map_map]
      rfl
    · rw [if_neg hid]

/-- The last rows of a page are a page. -/
theorem filter_page {records page : List CaptureRecord} {start start' count count' : ℕ}
    (hpage : page = records.filter fun r => start ≤ r.ordinal ∧ r.ordinal < start + count)
    (hord : page.map (·.ordinal) = List.range' start count) (hstart : start ≤ start')
    (hstop : start' + count' = start + count) :
    (records.filter fun r => start' ≤ r.ordinal ∧ r.ordinal < start' + count') =
        page.drop (start' - start) ∧
      (page.drop (start' - start)).map (·.ordinal) = List.range' start' count' := by
  set k := start' - start
  have hsplit : (page.take k).map (·.ordinal) ++ (page.drop k).map (·.ordinal) =
      List.range' start k ++ List.range' start' count' := by
    rw [← List.map_append, List.take_append_drop, hord]
    have h1 : start' = start + k := by omega
    have h2 : count = k + count' := by omega
    rw [h1, h2, List.range'_append_1]
  have hlen : page.length = count := by simpa using congrArg List.length hord
  have hfirst : (page.take k).map (·.ordinal) = List.range' start k :=
    List.append_inj_left hsplit (by simp; omega)
  have hlast : (page.drop k).map (·.ordinal) = List.range' start' count' :=
    List.append_inj_right hsplit (by simp; omega)
  refine ⟨?_, hlast⟩
  have hinner : (records.filter fun r => start' ≤ r.ordinal ∧ r.ordinal < start' + count') =
      page.filter fun r => start' ≤ r.ordinal := by
    rw [hpage, List.filter_filter]
    apply List.filter_congr
    intro r _
    simp only [decide_eq_decide, ← Bool.decide_and]
    constructor
    · intro h
      exact ⟨h.1, by omega, by omega⟩
    · intro h
      exact ⟨h.1, by omega⟩
  rw [hinner]
  conv_lhs => rw [← List.take_append_drop k page]
  rw [List.filter_append]
  have hnone : (page.take k).filter (fun r => start' ≤ r.ordinal) = [] := by
    rw [List.filter_eq_nil_iff]
    intro r hr
    have hin : r.ordinal ∈ List.range' start k := hfirst ▸ List.mem_map_of_mem hr
    have := (List.mem_range'_1.mp hin).2
    simp only [decide_eq_true_eq]
    omega
  have hall : (page.drop k).filter (fun r => start' ≤ r.ordinal) = page.drop k := by
    rw [List.filter_eq_self]
    intro r hr
    have hin : r.ordinal ∈ List.range' start' count' := hlast ▸ List.mem_map_of_mem hr
    simpa using (List.mem_range'_1.mp hin).1
  rw [hnone, hall, List.nil_append]

/-- An admission whose cursor has moved over published sequences only. -/
structure Moved (c : Custody D) (a a' : Admission D) : Prop where
  sourceId : a'.sourceId = a.sourceId
  start : a'.sequenceStart = a.sequenceStart
  count : a'.admittedCount = a.admittedCount
  digest : a'.admittedSha256 = a.admittedSha256
  forward : a.cursor ≤ a'.cursor
  passed : ∀ x, a.sequenceStart + a.cursor ≤ x → x < a.sequenceStart + a'.cursor →
    CoveredBy (readyRuns c) x

theorem Moved.remaining {c : Custody D} {a a' : Admission D} (h : Moved c a a') {x : ℕ}
    (hx : a'.remaining.Contains x) : a.remaining.Contains x := by
  obtain ⟨h1, h2⟩ := hx
  have hstart := h.start
  have hcount := h.count
  have hforward := h.forward
  simp only [Admission.remaining] at h1 h2 ⊢
  exact ⟨by simp only; omega, by simp only; omega⟩

theorem Moved.still {c : Custody D} {a a' : Admission D} (h : Moved c a a') {x : ℕ}
    (hx : a.remaining.Contains x) (hfree : ¬ CoveredBy (readyRuns c) x) :
    a'.remaining.Contains x := by
  obtain ⟨h1, h2⟩ := hx
  have hstart := h.start
  have hcount := h.count
  simp only [Admission.remaining] at h1 h2 ⊢
  refine ⟨?_, by simp only; omega⟩
  by_contra hlt
  simp only at hlt
  exact hfree (h.passed x h1 (by omega))

theorem forall₂_left {α β : Type} {R : α → β → Prop} {l : List α} {l' : List β}
    (h : List.Forall₂ R l l') {b : β} (hb : b ∈ l') : ∃ a ∈ l, R a b := by
  induction h with
  | nil => simp at hb
  | cons hab _ ih =>
    rcases List.mem_cons.mp hb with rfl | hb
    · exact ⟨_, by simp, hab⟩
    · obtain ⟨a, ha, hr⟩ := ih hb
      exact ⟨a, List.mem_cons_of_mem _ ha, hr⟩

theorem forall₂_right {α β : Type} {R : α → β → Prop} {l : List α} {l' : List β}
    (h : List.Forall₂ R l l') {a : α} (ha : a ∈ l) : ∃ b ∈ l', R a b :=
  forall₂_left h.flip ha

theorem seqIn_append {front back : List (Slice D)} {x : ℕ} :
    SeqIn (front ++ back) x ↔ SeqIn front x ∨ SeqIn back x := by
  simp only [SeqIn, List.mem_append, or_and_right, exists_or]

variable [DecidableEq D]

/-- The rows of a source are current for an admission. -/
def Current (sources : Table ℕ (SourceRow D)) (a : Admission D) : Prop :=
  ∃ row, sources.get a.sourceId = some row ∧ snapshotCurrent row.source a

theorem typedRecords_suffix {sources sources' : Table ℕ (SourceRow D)} {a a' : Admission D}
    {start start' count count' : ℕ} {records : List Bytes}
    (h : typedRecords sources a start count = .ok records)
    (hrecords : SameRecords sources sources' a.sourceId) (hid : a'.sourceId = a.sourceId) (hcount : a'.admittedCount = a.admittedCount)
    (hcurrent : Current sources' a') (hstart : start ≤ start')
    (hstop : start' + count' = start + count) :
    typedRecords sources' a' start' count' = .ok (records.drop (start' - start)) := by
  unfold typedRecords at h
  by_cases hbound : a.admittedCount < start + count
  · rw [if_pos hbound] at h
    cases h
  · rw [if_neg hbound] at h
    split at h
    · cases h
    · rename_i row hrow
      by_cases hsnapshot : snapshotCurrent row.source a
      · simp only [not_not.mpr hsnapshot, if_false] at h
        split at h
        · rename_i hord
          obtain rfl := Except.ok.inj h
          obtain ⟨row', hrow', hcurrent'⟩ := hcurrent
          have hsame : row'.records = row.records := by
            have hmap : (sources'.get a.sourceId).map (·.records) =
                (sources.get a.sourceId).map (·.records) := hrecords
            rw [hid] at hrow'
            rw [hrow, hrow'] at hmap
            simpa using hmap
          obtain ⟨hfilter, hrange⟩ := filter_page rfl hord hstart hstop
          unfold typedRecords
          rw [if_neg (by omega), hrow']
          simp only [not_not.mpr hcurrent', if_false, hsame, hfilter]
          rw [if_pos hrange, List.map_drop]
        · cases h
      · rw [if_pos hsnapshot] at h
        cases h

theorem typedSlice_suffix {codec : Codec D} {sources sources' : Table ℕ (SourceRow D)}
    {a a' : Admission D} {start start' count count' : ℕ} {s : Slice D}
    (h : typedSlice codec sources a start count = .ok s)
    (hrecords : SameRecords sources sources' a.sourceId) (hid : a'.sourceId = a.sourceId) (hcount : a'.admittedCount = a.admittedCount)
    (hcurrent : Current sources' a') (hstart : start ≤ start')
    (hstop : start' + count' = start + count) :
    typedSlice codec sources' a' start' count' = .ok ⟨a', start', s.records.drop (start' - start)⟩ := by
  unfold typedSlice at h
  cases hr : typedRecords sources a start count with
  | error e =>
    rw [hr] at h
    cases h
  | ok records =>
    rw [hr] at h
    simp only [bind, Except.bind] at h
    split at h
    · rename_i hframed
      obtain rfl := Except.ok.inj h
      unfold typedSlice
      rw [typedRecords_suffix hr hrecords hid hcount hcurrent hstart hstop]
      simp only [bind, Except.bind]
      rw [if_pos fun r hr => hframed r (List.mem_of_mem_drop hr)]
    · cases h

theorem Moved.retiredFullProof {c c' : Custody D} {a a' : Admission D} (h : Moved c' a a')
    (hretired : c'.retired = c.retired) :
    typedRetiredFullProof a' c' = typedRetiredFullProof a c := by
  unfold typedRetiredFullProof
  rw [hretired, h.start, h.count, h.digest]

theorem Moved.rejectPartial {c c' : Custody D} {a a' : Admission D} (h : Moved c' a a')
    (hretired : c'.retired = c.retired) (hok : typedRejectPartialRetiredOverlap a c = .ok ()) :
    typedRejectPartialRetiredOverlap a' c' = .ok () := by
  unfold typedRejectPartialRetiredOverlap at hok ⊢
  rw [h.retiredFullProof hretired, hretired]
  by_cases hfull : (typedRetiredFullProof a c).isSome = true
  · rw [if_pos hfull]
  · rw [if_neg hfull] at hok ⊢
    by_cases hoverlap : ∃ r ∈ c.retired, ∃ run ∈ physicalRuns r.facts,
        a.remaining.start < run.stop ∧ run.start < a.remaining.stop
    · rw [if_pos hoverlap] at hok
      cases hok
    · rw [if_neg]
      intro hex
      obtain ⟨r, hr, run, hrun, h1, h2⟩ := hex
      refine hoverlap ⟨r, hr, run, hrun, ?_⟩
      have hstart := h.start
      have hcount := h.count
      have hforward := h.forward
      simp only [Admission.remaining] at h1 h2 ⊢
      omega

section Shift

variable {codec : Codec D} {sources sources' : Table ℕ (SourceRow D)} {c c' : Custody D}

theorem comparable_shift {a a' : Admission D} (h : Comparable codec sources c a)
    (hmoved : Moved c' a a') (hle : a'.cursor ≤ a'.admittedCount)
    (hrecords : SameRecords sources sources' a.sourceId) (hcurrent : Current sources' a')
    (hretired : typedRejectPartialRetiredOverlap a' c' = .ok ())
    (hready : ∀ r ∈ readyRuns c', ∀ x raw, a'.remaining.Contains x → r.1.Contains x →
      SlicePartition.sourceRaw sources' a'.sourceId (x - a'.sequenceStart) = some raw →
        ReadyMatch codec r.2 x raw) : Comparable codec sources' c' a' := by
  obtain ⟨s, hs, hsha⟩ := h.readable
  refine ⟨⟨_, typedSlice_suffix hs hrecords hmoved.sourceId hmoved.count hcurrent
    hmoved.forward ?_, ?_⟩, hretired, hready⟩
  · have hcount := hmoved.count
    have hforward := hmoved.forward
    omega
  · intro hzero
    have hforward := hmoved.forward
    have hfirst : a.cursor = 0 := by omega
    rw [hmoved.digest, ← hsha hfirst]
    unfold Slice.rawSha256
    rw [hzero, Nat.zero_sub, List.drop_zero]

/-- Slices at the front become published, cursors move, and the back is what remains. -/
theorem partition_shift {as as' : List (Admission D)} {front back : List (Slice D)}
    (h : Partition codec sources c as (front ++ back))
    (hrecords : ∀ a ∈ as, SameRecords sources sources' a.sourceId)
    (hmoved : List.Forall₂ (Moved c') as as')
    (hcurrent : ∀ a ∈ as', a.cursor ≤ a.admittedCount ∧ Current sources' a)
    (hretired : ∀ a ∈ as', a.cursor < a.admittedCount →
      typedRejectPartialRetiredOverlap a c' = .ok ())
    (hfree : ∀ x, SeqIn back x → ¬ CoveredBy (readyRuns c') x)
    (hkept : ∀ a ∈ as', ∀ x, a.remaining.Contains x → ¬ CoveredBy (readyRuns c') x →
      ¬ CoveredBy (readyRuns c) x ∧ ¬ SeqIn front x)
    (hready : ∀ r ∈ readyRuns c', r ∈ readyRuns c ∨ ∀ x, r.1.Contains x → ∃ s ∈ front,
      s.span.Contains x ∧ ∀ raw, s.rawAt x = some raw → ReadyMatch codec r.2 x raw) :
    Partition codec sources' c' as' back := by
  constructor
  · exact h.chain.sublist (List.sublist_append_right front back)
  · intro s hs
    obtain ⟨hreads, a, ha, hid, hstart, hinside⟩ := h.origin s (List.mem_append_right _ hs)
    obtain ⟨a', ha', hm⟩ := forall₂_right hmoved ha
    have hrows := fun ordinal => (hid ▸ hrecords a ha).sourceRaw ordinal
    refine ⟨⟨fun x hx => (hreads.rows x hx).trans (hrows _).symm, hreads.framed⟩,
      a', ha', hm.sourceId.trans hid, hm.start.trans hstart, ?_⟩
    have hlt := h.chain.nonempty s (List.mem_append_right _ hs)
    have hfirst : s.span.Contains s.startSequence := ⟨le_rfl, hlt⟩
    have hmem : a.remaining.Contains s.startSequence :=
      ⟨hinside.1, hlt.trans_le hinside.2⟩
    have hstill := hm.still hmem (hfree _ ⟨s, hs, hfirst⟩)
    refine ⟨hstill.1, ?_⟩
    have hend : a'.remaining.stop = a.remaining.stop := by
      simp only [Admission.remaining, hm.start, hm.count]
    rw [hend]
    exact hinside.2
  · intro x
    constructor
    · intro hx
      obtain ⟨⟨a, ha, hax⟩, -⟩ := (h.covers x).mp (seqIn_append.mpr (.inr hx))
      obtain ⟨a', ha', hm⟩ := forall₂_right hmoved ha
      exact ⟨⟨a', ha', hm.still hax (hfree x hx)⟩, hfree x hx⟩
    · intro hx
      obtain ⟨⟨a', ha', hax⟩, hnot⟩ := hx
      obtain ⟨a, ha, hm⟩ := forall₂_left hmoved ha'
      obtain ⟨hold, hback⟩ := hkept a' ha' x hax hnot
      rcases seqIn_append.mp ((h.covers x).mpr ⟨⟨a, ha, hm.remaining hax⟩, hold⟩) with hf | hb
      · exact absurd hf hback
      · exact hb
  · intro a' ha' s hs x hax hsx
    obtain ⟨a, ha, hm⟩ := forall₂_left hmoved ha'
    rw [hm.sourceId, (hrecords a ha).sourceRaw, hm.start]
    exact h.agree a ha s (List.mem_append_right _ hs) x (hm.remaining hax) hsx
  · intro a' ha' hopen
    obtain ⟨a, ha, hm⟩ := forall₂_left hmoved ha'
    obtain ⟨hle, hcur⟩ := hcurrent a' ha'
    have hcount := hm.count
    have hforward := hm.forward
    have hcomparable := h.comparable a ha (by omega)
    refine comparable_shift hcomparable hm hle (hrecords a ha) hcur (hretired a' ha' hopen) ?_
    intro r hr x raw hax hrx hraw
    have hold := hm.remaining hax
    rw [hm.sourceId, (hrecords a ha).sourceRaw, hm.start] at hraw
    rcases hready r hr with hin | hnew
    · exact hcomparable.ready r hin x raw hold hrx hraw
    · obtain ⟨s, hs, hsx, hmatch⟩ := hnew x hrx
      apply hmatch raw
      rw [h.agree a ha s (List.mem_append_left _ hs) x hold hsx, hraw]

/-- The same where artifacts are only added, and exactly for the slices at the front. -/
theorem partition_publish {as as' : List (Admission D)} {front back : List (Slice D)}
    (h : Partition codec sources c as (front ++ back))
    (hrecords : ∀ a ∈ as, SameRecords sources sources' a.sourceId)
    (hmoved : List.Forall₂ (Moved c') as as')
    (hcurrent : ∀ a ∈ as', a.cursor ≤ a.admittedCount ∧ Current sources' a)
    (hretired : c'.retired = c.retired)
    (hruns : ∀ x, CoveredBy (readyRuns c') x ↔ CoveredBy (readyRuns c) x ∨ SeqIn front x)
    (hready : ∀ r ∈ readyRuns c', r ∈ readyRuns c ∨ ∀ x, r.1.Contains x → ∃ s ∈ front,
      s.span.Contains x ∧ ∀ raw, s.rawAt x = some raw → ReadyMatch codec r.2 x raw) :
    Partition codec sources' c' as' back := by
  refine partition_shift h hrecords hmoved hcurrent ?_ ?_ ?_ hready
  · intro a' ha' hopen
    obtain ⟨a, ha, hm⟩ := forall₂_left hmoved ha'
    have hcount := hm.count
    have hforward := hm.forward
    exact hm.rejectPartial hretired (h.comparable a ha (by omega)).retired
  · intro x hx hcovered
    rcases (hruns x).mp hcovered with hold | hfront
    · exact ((h.covers x).mp (seqIn_append.mpr (.inr hx))).2 hold
    · -- Slices are apart, so a sequence is not at the front and at the back.
      obtain ⟨s, hs, hsx⟩ := hfront
      obtain ⟨t, ht, htx⟩ := hx
      have hlt := (List.pairwise_append.mp h.chain.ordered).2.2 s hs t ht
      have h1 : x < s.nextSequence := hsx.2
      have h2 : t.startSequence ≤ x := htx.1
      omega
  · intro a' _ x _ hnot
    exact ⟨fun hc => hnot ((hruns x).mpr (.inl hc)), fun hf => hnot ((hruns x).mpr (.inr hf))⟩

end Shift

end RemainingSlices
