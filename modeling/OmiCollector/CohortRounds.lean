import OmiCollector.RemainingSlices
import OmiCollector.ResumedGroups

/-! One round of an accepted cohort: custody moves cursors, a group is reserved at the front of
what remains, and its commit takes it away.

A reserved stage stands for that group whatever happens to other sources, to files of retired
artifacts and to acknowledged artifacts, because every member has passed what is published. -/
namespace CohortRounds

open AudioMachine (AudioPhase CohortPhase)
open ByteCodec CaptureModel KeyedTable SpanCover SpanWalk PublicationLedger RunGroups TypedSlices
open SlicePartition PublicationGroups PublicationStage PublicationStore PublicationMachine
open PublicationEffects LedgerOrder CohortMembers RemainingSlices
open ResumedGroups (partOf_piece)
open Checks (mapM_ok exists_of_mem_mapM)

variable {D : Type}

theorem moved_refl (c : Custody D) (a : Admission D) : Moved c a a :=
  ⟨rfl, rfl, rfl, rfl, le_rfl, fun x h1 h2 => absurd h2 (by omega)⟩

theorem seqIn_nil (x : ℕ) : ¬ SeqIn ([] : List (Slice D)) x := by
  simp [SeqIn]

theorem recordGroups_cons {codec : Codec D} {entries g : List (ℕ × Bytes)}
    {later : List (List (ℕ × Bytes))} (h : recordGroups codec entries = g :: later) :
    entries = g ++ later.flatten ∧ recordGroups codec later.flatten = later := by
  obtain ⟨hl, hrest, -⟩ := mergeWeightless_splitBy_cons h
  exact ⟨hl, hrest⟩

/-- The groups behind the first one are the groups of the records behind it. -/
theorem recordGroups_front {codec : Codec D} {front back : List (Slice D)}
    {later : List (List (ℕ × Bytes))}
    (h : recordGroups codec (entriesOf (front ++ back)) = entriesOf front :: later) :
    later = recordGroups codec (entriesOf back) := by
  obtain ⟨hl, hrest⟩ := recordGroups_cons h
  have hsplit : entriesOf (front ++ back) = entriesOf front ++ entriesOf back := by
    simp [entriesOf]
  rw [hsplit] at hl
  rw [List.append_cancel_left hl]
  exact hrest.symm

theorem mem_readyRuns {c : Custody D} {r : Span × ReadyKey D} :
    r ∈ readyRuns c ↔ ∃ a ∈ c.active, r ∈ typedActiveSegments a := by
  simp [readyRuns]

section Slices

/-- The same records of the same source, under another reading of its admission. -/
structure SameSlice (s s' : Slice D) : Prop where
  sourceId : s'.admission.sourceId = s.admission.sourceId
  start : s'.admission.sequenceStart = s.admission.sequenceStart
  ordinal : s'.startOrdinal = s.startOrdinal
  records : s'.records = s.records

variable {s s' : Slice D} {slices slices' : List (Slice D)}

theorem SameSlice.refl (s : Slice D) : SameSlice s s := ⟨rfl, rfl, rfl, rfl⟩

theorem SameSlice.startSequence (h : SameSlice s s') : s'.startSequence = s.startSequence := by
  unfold Slice.startSequence
  rw [h.start, h.ordinal]

theorem SameSlice.span (h : SameSlice s s') : s'.span = s.span := by
  unfold Slice.span Slice.nextSequence Slice.recordCount
  rw [h.startSequence, h.records]

theorem SameSlice.rawAt (h : SameSlice s s') (x : ℕ) : s'.rawAt x = s.rawAt x := by
  unfold Slice.rawAt
  rw [h.startSequence, h.records]

theorem SameSlice.entries (h : SameSlice s s') : s'.entries = s.entries := by
  unfold Slice.entries Slice.recordCount
  rw [h.startSequence, h.records]

theorem entriesOf_same (h : List.Forall₂ SameSlice slices slices') :
    entriesOf slices' = entriesOf slices := by
  induction h with
  | nil => rfl
  | cons hs _ ih =>
    unfold entriesOf at ih ⊢
    rw [List.flatMap_cons, List.flatMap_cons, hs.entries, ih]

theorem spans_same (h : List.Forall₂ SameSlice slices slices') :
    slices'.map Slice.span = slices.map Slice.span := by
  induction h with
  | nil => rfl
  | cons hs _ ih => rw [List.map_cons, List.map_cons, hs.span, ih]

/-- Slices are in order when their spans are. -/
theorem chain_iff_spans : Chain slices ↔
    (slices.map Slice.span).Pairwise (fun a b => a.stop ≤ b.start) ∧
      ∀ p ∈ slices.map Slice.span, p.start < p.stop := by
  rw [List.pairwise_map]
  constructor
  · intro h
    refine ⟨h.ordered, ?_⟩
    intro p hp
    obtain ⟨s, hs, rfl⟩ := List.mem_map.mp hp
    exact h.nonempty s hs
  · intro h
    exact ⟨h.1, fun s hs => h.2 _ (List.mem_map_of_mem hs)⟩

/-- A slice holds records that one of these slices holds, of the same source. -/
def StandsFor (slices : List (Slice D)) (t : Slice D) : Prop :=
  ∃ s ∈ slices, t.admission.sourceId = s.admission.sourceId ∧
    t.admission.sequenceStart = s.admission.sequenceStart ∧ t.span.Inside s.span ∧
    ∀ x, t.span.Contains x → t.rawAt x = s.rawAt x

theorem standsFor_same (h : List.Forall₂ SameSlice slices slices') :
    ∀ t ∈ slices', StandsFor slices t := by
  intro t ht
  obtain ⟨s, hs, hsame⟩ := forall₂_left h ht
  exact ⟨s, hs, hsame.sourceId, hsame.start, hsame.span ▸ ⟨le_rfl, le_rfl⟩, fun x _ => hsame.rawAt x⟩

theorem standsFor_part {t : Slice D} (hs : s ∈ slices) (h : PartOf t s) : StandsFor slices t :=
  ⟨s, hs, by rw [h.admission], by rw [h.admission], h.inside, h.rawAt⟩

/-- A slice holds what its source stores at every sequence of its span. -/
theorem readsFrom_of_rows {codec : Codec D} {sources : Table ℕ (SourceRow D)} {t : Slice D}
    (hs : ReadsFrom codec sources s) (hid : t.admission.sourceId = s.admission.sourceId)
    (hstart : t.admission.sequenceStart = s.admission.sequenceStart) (hin : t.span.Inside s.span)
    (hraw : ∀ x, t.span.Contains x → t.rawAt x = s.rawAt x) : ReadsFrom codec sources t := by
  constructor
  · intro x hx
    rw [hraw x hx, hid, hstart]
    exact hs.rows x ⟨hin.1.trans hx.1, hx.2.trans_le hin.2⟩
  · intro r hr
    obtain ⟨i, hi, rfl⟩ := List.mem_iff_getElem.mp hr
    have hx : t.span.Contains (t.startSequence + i) := by
      refine ⟨by simp [Slice.span], ?_⟩
      have := nextSequence_eq t
      simp only [Slice.span]
      omega
    have hget : t.rawAt (t.startSequence + i) = some t.records[i] := by
      simp [Slice.rawAt, List.getElem?_eq_getElem hi]
    rw [hraw _ hx, Slice.rawAt] at hget
    split at hget
    · exact hs.framed _ (List.mem_of_getElem? hget)
    · cases hget

/-- A partition stays one when its slices are cut, or read again. -/
theorem partition_of_standsFor [DecidableEq D] {codec : Codec D}
    {sources : Table ℕ (SourceRow D)} {c : Custody D} {as : List (Admission D)}
    (h : Partition codec sources c as slices) (hchain : Chain slices')
    (hpart : ∀ t ∈ slices', StandsFor slices t) (hseq : ∀ x, SeqIn slices x → SeqIn slices' x) :
    Partition codec sources c as slices' := by
  constructor
  · exact hchain
  · intro t ht
    obtain ⟨s, hs, hid, hstart, hin, hraw⟩ := hpart t ht
    obtain ⟨hreads, a, ha, haid, hastart, hinside⟩ := h.origin s hs
    exact ⟨readsFrom_of_rows hreads hid hstart hin hraw, a, ha, haid.trans hid.symm,
      hastart.trans hstart.symm, hinside.1.trans hin.1, hin.2.trans hinside.2⟩
  · intro x
    rw [← h.covers]
    constructor
    · intro hx
      obtain ⟨t, ht, htx⟩ := hx
      obtain ⟨s, hs, -, -, hin, -⟩ := hpart t ht
      exact ⟨s, hs, hin.1.trans htx.1, htx.2.trans_le hin.2⟩
    · exact hseq x
  · intro a ha t ht x hax htx
    obtain ⟨s, hs, -, -, hin, hraw⟩ := hpart t ht
    rw [hraw x htx]
    exact h.agree a ha s hs x hax ⟨hin.1.trans htx.1, htx.2.trans_le hin.2⟩
  · exact h.comparable

theorem partition_same [DecidableEq D] {codec : Codec D} {sources : Table ℕ (SourceRow D)}
    {c : Custody D} {as : List (Admission D)} (h : Partition codec sources c as slices)
    (hsame : List.Forall₂ SameSlice slices slices') : Partition codec sources c as slices' := by
  refine partition_of_standsFor h ?_ (standsFor_same hsame) ?_
  · rw [chain_iff_spans, spans_same hsame]
    exact chain_iff_spans.mp h.chain
  · intro x hx
    obtain ⟨s, hs, hsx⟩ := hx
    obtain ⟨t, ht, hst⟩ := forall₂_right hsame hs
    exact ⟨t, ht, hst.span ▸ hsx⟩

/-- Sequenced records in strictly increasing order come from slices in order. -/
theorem chain_of_entries (hne : ∀ s ∈ slices, s.records ≠ [])
    (h : ((entriesOf slices).map Prod.fst).Pairwise (· < ·)) : Chain slices := by
  have hspan : ∀ s ∈ slices, s.startSequence < s.nextSequence := by
    intro s hs
    have := List.length_pos_iff.mpr (hne s hs)
    rw [nextSequence_eq]
    omega
  refine ⟨?_, hspan⟩
  induction slices with
  | nil => simp
  | cons s slices ih =>
    have hsplit : (entriesOf (s :: slices)).map Prod.fst =
        List.range' s.startSequence s.records.length ++ (entriesOf slices).map Prod.fst := by
      unfold entriesOf
      rw [List.flatMap_cons, List.map_append, entries_eq, map_fst_entriesFrom]
    rw [hsplit, List.pairwise_append] at h
    rw [List.pairwise_cons]
    refine ⟨?_, ih (fun t ht => hne t (List.mem_cons_of_mem _ ht)) h.2.1
      fun t ht => hspan t (List.mem_cons_of_mem _ ht)⟩
    intro t ht
    have hs := List.length_pos_iff.mpr (hne s (by simp))
    have htspan := hspan t (List.mem_cons_of_mem _ ht)
    obtain ⟨raw, hraw, -⟩ := rawAt_of_contains (s := t) (x := t.startSequence) ⟨le_rfl, htspan⟩
    have hlast := h.2.2 (s.startSequence + s.records.length - 1)
      (List.mem_range'_1.mpr ⟨by omega, by omega⟩) t.startSequence
      (List.mem_map.mpr ⟨(t.startSequence, raw),
        mem_entriesOf.mpr ⟨t, ht, ⟨le_rfl, htspan⟩, hraw⟩, rfl⟩)
    rw [nextSequence_eq]
    omega

/-- The sequences of slices in order increase. -/
theorem entries_increase (h : Chain slices) : ((entriesOf slices).map Prod.fst).Pairwise (· < ·) := by
  by_cases hnil : slices = []
  · subst hnil
    simp [entriesOf]
  · obtain ⟨s, rest, rfl⟩ := List.exists_cons_of_ne_nil hnil
    clear hnil
    induction rest generalizing s with
    | nil =>
      simp only [entriesOf, List.flatMap_cons, List.flatMap_nil, List.append_nil, entries_eq,
        map_fst_entriesFrom]
      exact List.pairwise_lt_range'
    | cons t rest ih =>
      have hsplit : (entriesOf (s :: t :: rest)).map Prod.fst =
          List.range' s.startSequence s.records.length ++ (entriesOf (t :: rest)).map Prod.fst := by
        rw [entriesOf, List.flatMap_cons, List.map_append, entries_eq, map_fst_entriesFrom]
        rfl
      rw [hsplit, List.pairwise_append]
      refine ⟨List.pairwise_lt_range', ih t (h.sublist (List.sublist_cons_self s _)), ?_⟩
      intro x hx y hy
      obtain ⟨entry, hentry, rfl⟩ := List.mem_map.mp hy
      obtain ⟨u, hu, hux, -⟩ := mem_entriesOf.mp hentry
      have hsu := (List.pairwise_cons.mp h.ordered).1 u hu
      have h1 := (List.mem_range'_1.mp hx).2
      have h2 : u.startSequence ≤ entry.1 := hux.1
      rw [nextSequence_eq] at hsu
      omega

/-- The groups of slices, when there are any, are the slices cut at their breaks. -/
theorem flatten_v2PhysicalGroups {codec : Codec D}
    (hne : v2PhysicalGroups codec slices ≠ []) :
    (v2PhysicalGroups codec slices).flatten = slices.flatMap (pieces codec) := by
  unfold v2PhysicalGroups at hne ⊢
  rw [flatten_mergeWeightless, typedPhysicalGroups, List.flatten_splitBy]
  by_contra hweight
  apply hne
  rw [mergeWeightless_eq_nil]
  intro g hg
  by_contra hg'
  exact hweight ⟨g, hg, hg'⟩

theorem partition_groups [DecidableEq D] {codec : Codec D} {sources : Table ℕ (SourceRow D)}
    {c : Custody D} {as : List (Admission D)} (h : Partition codec sources c as slices)
    (hne : v2PhysicalGroups codec slices ≠ []) :
    Partition codec sources c as (v2PhysicalGroups codec slices).flatten := by
  rw [flatten_v2PhysicalGroups hne]
  have hentries : entriesOf (slices.flatMap (pieces codec)) = entriesOf slices :=
    entriesOf_flatMap_pieces slices
  have hpart : ∀ t ∈ slices.flatMap (pieces codec), ∃ s ∈ slices, t ∈ pieces codec s := fun t ht =>
    List.mem_flatMap.mp ht
  refine partition_of_standsFor h ?_ ?_ ?_
  · refine chain_of_entries ?_ ?_
    · intro t ht
      obtain ⟨s, -, hts⟩ := hpart t ht
      exact records_ne_nil_of_piece hts
    · rw [hentries]
      exact entries_increase h.chain
  · intro t ht
    obtain ⟨s, hs, hts⟩ := hpart t ht
    exact standsFor_part hs (partOf_piece hts)
  · intro x hx
    obtain ⟨s, hs, hsx⟩ := hx
    obtain ⟨raw, hraw, -⟩ := rawAt_of_contains hsx
    have hin : (x, raw) ∈ entriesOf (slices.flatMap (pieces codec)) := by
      rw [hentries]
      exact mem_entriesOf.mpr ⟨s, hs, hsx, hraw⟩
    obtain ⟨t, ht, htx, -⟩ := mem_entriesOf.mp hin
    exact ⟨t, ht, htx⟩

end Slices

/-- Admissions held at one time differ from those held later by what their cursors passed. -/
theorem held_moved {db : Db D} {cohort : Cohort D} {as as' : List (Admission D)}
    (held : Held db cohort as) (held' : Held db cohort as') (c : Custody D) :
    List.Forall₂ (Moved c) as as' := by
  have hmembers : List.Forall₂ (fun a a' : Admission D => memberOf a = memberOf a') as as' := by
    have heq : List.Forall₂ Eq (as.map memberOf) (as'.map memberOf) := by
      rw [held.members, held'.members]
      exact List.forall₂_refl _
    simpa [List.forall₂_map_left_iff, List.forall₂_map_right_iff] using heq
  refine List.forall₂_iff_zip.mpr ⟨hmembers.length_eq, ?_⟩
  intro a a' hzip
  have hmember : memberOf a = memberOf a' := List.forall₂_zip hmembers hzip
  obtain ⟨ha, ha'⟩ := List.of_mem_zip hzip
  have hid : a.sourceId = a'.sourceId := congrArg Member.sourceId hmember
  have hcursor : a.cursor = a'.cursor := congrArg Member.cursor hmember
  obtain ⟨row, hrow, hcurrent⟩ := held.current a ha
  obtain ⟨row', hrow', hcurrent'⟩ := held'.current a' ha'
  rw [← hid, hrow] at hrow'
  obtain rfl : row = row' := Option.some.inj hrow'
  refine ⟨hid.symm, hcurrent'.2.1.symm.trans hcurrent.2.1,
    (congrArg Member.admittedCount hmember).symm, (congrArg Member.admittedSha256 hmember).symm,
    hcursor.le, ?_⟩
  intro x h1 h2
  omega

theorem held_ids {db : Db D} {cohort : Cohort D} {as : List (Admission D)}
    (held : Held db cohort as) : as.map (·.sourceId) = cohort.members.map (·.sourceId) := by
  rw [← held.members, List.map_map]
  rfl

theorem held_frame {db db' : Db D} {cohort : Cohort D} {as : List (Admission D)}
    (held : Held db cohort as) (hcohort : db'.cohort = db.cohort)
    (hrows : ∀ a ∈ as, db'.sources.get a.sourceId = db.sources.get a.sourceId) :
    Held db' cohort as := by
  refine ⟨hcohort ▸ held.stored, held.members, ?_⟩
  intro a ha
  rw [hrows a ha]
  exact held.current a ha

variable [DecidableEq D]

/-- A sequence is published by a ready artifact. -/
theorem coveredBy_custody {l : Ledger D} {x : ℕ} :
    CoveredBy (readyRuns (custody l)) x ↔
      ∃ a ∈ (custody l).active, Covers (physicalRuns a.entry.facts) x := by
  have hfst : ∀ a : ActiveArtifact D,
      (typedActiveSegments a).map Prod.fst = physicalRuns a.entry.facts := fun a => segmentsFrom_fst
  unfold CoveredBy readyRuns Covers
  constructor
  · intro h
    obtain ⟨r, hr, hrx⟩ := h
    obtain ⟨segments, hsegments, hr⟩ := List.mem_flatten.mp hr
    obtain ⟨a, ha, rfl⟩ := List.mem_map.mp hsegments
    exact ⟨a, ha, r.1, hfst a ▸ List.mem_map_of_mem hr, hrx⟩
  · intro h
    obtain ⟨a, ha, run, hrun, hrx⟩ := h
    rw [← hfst a] at hrun
    obtain ⟨r, hr, rfl⟩ := List.mem_map.mp hrun
    exact ⟨r, List.mem_flatten.mpr ⟨_, List.mem_map_of_mem ha, hr⟩, hrx⟩

/-- What is published lies at or before the frontier. -/
theorem covered_before {db : Db D} (h : LedgerInv db) {x sequence : ℕ}
    (hafter : AfterFrontier db.ledger.v2Frontier sequence) {id : D} {e : Entry D}
    (he : Stored db.ledger id e) (hx : Covers (physicalRuns e.facts) x) : x < sequence := by
  have hnext := h.entries.next_le hafter he
  obtain ⟨run, hrun, hrx⟩ := hx
  have := (h.entries.runs id e he).2.inside run hrun
  have := hrx.2
  omega

/-- A proof for an artifact that is not ready is no part of the custody. -/
theorem custody_reservation {db : Db D} {cohort : Cohort D} {stage : Stage D}
    {proof : ReplayProof D} (hnot : ¬ db.ledger.IsReady stage.artifactId) :
    custody (reservation cohort stage proof db).ledger = custody db.ledger := by
  unfold custody
  have hactive : ∀ r ∈ db.ledger.entries.rows.filter fun r => r.2.state = .ready,
      ((reservation cohort stage proof db).ledger.proofs.get r.1).map
        (fun proof => (⟨r.1, r.2, proof⟩ : ActiveArtifact D)) =
      (db.ledger.proofs.get r.1).map fun proof => ⟨r.1, r.2, proof⟩ := by
    intro r hr
    obtain ⟨hr, hready⟩ := List.mem_filter.mp hr
    have hne : r.1 ≠ stage.artifactId := by
      intro heq
      exact hnot ⟨r.2, heq ▸ Table.get_eq_some.mpr hr, by simpa using hready⟩
    simp only [reservation, Table.get_put, if_neg hne]
  have hfilter := List.filterMap_congr hactive
  simp only [reservation] at hfilter ⊢
  rw [hfilter]

theorem held_bound {db : Db D} {log : Log D} {cohort : Cohort D} {as : List (Admission D)}
    (h : CohortInv db log) (held : Held db cohort as) : ∀ a ∈ as, a.cursor ≤ a.admittedCount := by
  intro a ha
  apply (h.members cohort held.stored (memberOf a) ?_).bound
  rw [← held.members]
  exact List.mem_map_of_mem ha

/-- An incomplete member is listed nowhere, under its admission. -/
theorem held_unlisted {db : Db D} {log : Log D} {cohort : Cohort D} {as : List (Admission D)}
    (h : CohortInv db log) (held : Held db cohort as) {a : Admission D} (ha : a ∈ as)
    (hopen : a.cursor < a.admittedCount) : Unlisted db.ledger (lineageOf a) := by
  have hmem : memberOf a ∈ cohort.members := held.members ▸ List.mem_map_of_mem ha
  obtain ⟨-, -, -, row, hrow, hlisted, -⟩ := h.members cohort held.stored _ hmem
  obtain ⟨row', hrow', hcurrent⟩ := held.current a ha
  obtain rfl : row = row' := Option.some.inj (hrow.symm.trans hrow')
  have hunlisted := (hlisted hopen).2
  rw [hcurrent.2.1] at hunlisted
  exact hunlisted

/-- The rest of a cohort under another reading of its members, and after changes elsewhere. -/
theorem remaining_frame {codec : Codec D} {db db' : Db D} {log : Log D} {cohort : Cohort D}
    {as as' : List (Admission D)} {slices : List (Slice D)} (h : Remaining codec db as slices)
    (hinv : CohortInv db log) (held : Held db cohort as) (held' : Held db cohort as')
    (hrows : ∀ a ∈ as, db'.sources.get a.sourceId = db.sources.get a.sourceId)
    (hcustody : custody db'.ledger = custody db.ledger)
    (hfrontier : db'.ledger.v2Frontier = db.ledger.v2Frontier) :
    Remaining codec db' as' slices := by
  have hids : as'.map (·.sourceId) = as.map (·.sourceId) := (held_ids held').trans (held_ids held).symm
  refine ⟨?_, hfrontier ▸ h.after⟩
  rw [hcustody]
  refine partition_publish (show Partition codec _ _ _ ([] ++ slices) from h.partition) ?_
    (held_moved held held' _) ?_ rfl ?_ ?_
  · intro a ha
    unfold SameRecords
    rw [hrows a ha]
  · intro a ha
    refine ⟨held_bound hinv held' a ha, ?_⟩
    obtain ⟨b, hb, hid⟩ := List.mem_map.mp (hids ▸ List.mem_map_of_mem ha : a.sourceId ∈ as.map _)
    obtain ⟨row, hrow, hcurrent⟩ := held'.current a ha
    refine ⟨row, ?_, hcurrent⟩
    rw [← hid, hrows b hb, hid, hrow]
  · intro x
    simp [seqIn_nil]
  · exact fun r hr => .inl hr

/-- Slices under the admissions that are held now. -/
theorem rebind_ok {db : Db D} {log : Log D} {cohort : Cohort D} {as : List (Admission D)}
    {codec : Codec D} {slices slices' rest : List (Slice D)} (hinv : CohortInv db log)
    (held : Held db cohort as) (h : Remaining codec db as (slices ++ rest))
    (hrebind : rebindTypedSlices slices as = .ok slices') :
    List.Forall₂ SameSlice slices slices' ∧ ∀ s ∈ slices', s.admission ∈ as := by
  have hdistinct : (as.map (·.sourceId)).Nodup := by
    rw [held_ids held]
    exact hinv.distinct cohort held.stored
  have hall := mapM_ok hrebind
  have hone : ∀ s s', (s, s') ∈ slices.zip slices' → SameSlice s s' ∧ s'.admission ∈ as := by
    intro s s' hzip
    have hs := (List.of_mem_zip hzip).1
    have hs' := List.forall₂_zip hall hzip
    cases hfind : as.find? fun a => a.sourceId = s.admission.sourceId with
    | none =>
      rw [hfind] at hs'
      cases hs'
    | some a =>
      rw [hfind] at hs'
      obtain rfl := Except.ok.inj hs'
      have ha := List.mem_of_find?_eq_some hfind
      have hid : a.sourceId = s.admission.sourceId := by simpa using List.find?_some hfind
      obtain ⟨-, b, hb, hbid, hbstart, -⟩ := h.partition.origin s (List.mem_append_left _ hs)
      obtain rfl : b = a := List.inj_on_of_nodup_map hdistinct hb ha (hbid.trans hid.symm)
      exact ⟨⟨hid, hbstart, rfl, rfl⟩, ha⟩
  have hsame : List.Forall₂ (fun s s' => SameSlice s s' ∧ s'.admission ∈ as) slices slices' :=
    List.forall₂_iff_zip.mpr ⟨hall.length_eq, fun hzip => hone _ _ hzip⟩
  refine ⟨hsame.imp fun _ _ h => h.1, ?_⟩
  intro s' hs'
  obtain ⟨s, -, hss'⟩ := forall₂_left hsame hs'
  exact hss'.2

theorem remaining_same {codec : Codec D} {db : Db D} {as : List (Admission D)}
    {slices slices' : List (Slice D)} (h : Remaining codec db as slices)
    (hsame : List.Forall₂ SameSlice slices slices') : Remaining codec db as slices' := by
  refine ⟨partition_same h.partition hsame, ?_⟩
  intro t ht
  obtain ⟨s, hs, hst⟩ := forall₂_left hsame ht
  rw [hst.startSequence]
  exact h.after s hs

section Advance

variable {db db' : Db D} {cohort next : Cohort D} {progress : List (Admission D × ℕ)}
  {coverage : List (ℕ × CaptureSource D)}

/-- The admissions of a cohort after a step that moved its cursors. -/
def movedTo (progress : List (Admission D × ℕ)) : List (Admission D) :=
  progress.map fun p => { p.1 with cursor := p.2 }

/-- Coverage leaves the sources of the members current for their admissions. -/
theorem advance_current (h : Advance db cohort progress coverage)
    (hdistinct : (cohort.members.map (·.sourceId)).Nodup)
    (hsources : db'.sources = applyTypedCoverage db.sources coverage) :
    ∀ a ∈ movedTo progress, Current db'.sources a := by
  intro a ha
  obtain ⟨p, hp, rfl⟩ := List.mem_map.mp ha
  obtain ⟨row, hrow, hcurrent, hcase⟩ := h.row hdistinct hp
  rw [hsources]
  rcases hcase with ⟨-, source, -, hcovered, hget⟩ | ⟨-, hget⟩
  · refine ⟨_, hget, ?_⟩
    obtain ⟨h1, h2, h3, h4, h5, -⟩ := hcurrent
    rw [hcovered.changed]
    refine ⟨h1, h2, h3, h4, h5, ?_⟩
    rcases hcovered.phase with hphase | hphase
    · exact .inr (.inr hphase.1)
    · exact .inr (.inl hphase.1)
  · exact ⟨row, hget, hcurrent⟩

theorem advance_held (h : Advance db cohort progress coverage)
    (hdistinct : (cohort.members.map (·.sourceId)).Nodup)
    (hsources : db'.sources = applyTypedCoverage db.sources coverage)
    (hcohort : db'.cohort = some next)
    (hnext : next.members = withCursors cohort.members (progress.map Prod.snd)) :
    Held db' next (movedTo progress) := by
  refine ⟨hcohort, ?_, advance_current h hdistinct hsources⟩
  rw [hnext, h.members]
  unfold movedTo
  rw [List.map_map]
  rfl

theorem advance_bound (h : Advance db cohort progress coverage) :
    ∀ a ∈ movedTo progress, a.cursor ≤ a.admittedCount := by
  intro a ha
  obtain ⟨p, hp, rfl⟩ := List.mem_map.mp ha
  exact (h.bounds p hp).2

/-- Cursors moved over sequences that ready artifacts hold. -/
theorem advance_moved (h : Advance db cohort progress coverage) {c : Custody D}
    (hpassed : ∀ p ∈ progress, ∀ x, p.1.sequenceStart + p.1.cursor ≤ x →
      x < p.1.sequenceStart + p.2 → CoveredBy (readyRuns c) x) :
    List.Forall₂ (Moved c) (progress.map Prod.fst) (movedTo progress) := by
  unfold movedTo
  rw [List.forall₂_map_left_iff, List.forall₂_map_right_iff, List.forall₂_same]
  intro p hp
  exact ⟨rfl, rfl, rfl, rfl, (h.bounds p hp).1, hpassed p hp⟩

end Advance

/-- What a custody advance leaves: the same rest, with every cursor past what is published. -/
theorem remaining_custody {codec : Codec D} {db : Db D} {log : Log D} {cohort : Cohort D}
    {as : List (Admission D)} {slices : List (Slice D)} {cursors : List ℕ}
    {coverage : List (ℕ × CaptureSource D)} (hledger : LedgerInv db) (hinv : CohortInv db log)
    (held : Held db cohort as) (h : Remaining codec db as slices)
    (hcursors : as.mapM (typedReadyPrefix codec db.sources (custody db.ledger)) = .ok cursors)
    (hcoverage : typedCoverageProposals db.sources (as.zip cursors) = .ok coverage) :
    Remaining codec (custodyCommit cohort (as.zip cursors) coverage db)
        (movedTo (as.zip cursors)) slices ∧
      CustodyPassed (custodyCommit cohort (as.zip cursors) coverage db)
        (movedTo (as.zip cursors)) := by
  have hadvance := advance_custody hledger
    (fun m hm => (hinv.members cohort held.stored m hm).bound) held hcursors hcoverage
  obtain ⟨hfst, -, hmem⟩ := mem_zip_mapM hcursors
  have hdistinct := hinv.distinct cohort held.stored
  have hfront : ∀ p ∈ as.zip cursors, (p.2 = p.1.admittedCount ∨
      ¬ CoveredBy (readyRuns (custody db.ledger)) (p.1.sequenceStart + p.2)) ∧
      ∀ x, p.1.sequenceStart + p.1.cursor ≤ x → x < p.1.sequenceStart + p.2 →
        CoveredBy (readyRuns (custody db.ledger)) x := by
    intro p hp
    have hin : p.1 ∈ as := by
      rw [← hfst]
      exact List.mem_map_of_mem hp
    obtain ⟨-, -, hstop, hpass⟩ :=
      typedReadyPrefix_spec hledger.sortedRuns (held_bound hinv held p.1 hin) (hmem p hp)
    refine ⟨hstop, ?_⟩
    rcases hpass with ⟨hretired, hopen⟩ | hpass
    · -- No retired artifact holds an incomplete member.
      rw [(held_unlisted hinv held hin hopen).retiredFullProof] at hretired
      cases hretired
    · intro x h1 h2
      obtain ⟨r, hr, hrx, -⟩ := hpass x h1 h2
      exact ⟨r, hr, hrx⟩
  constructor
  · refine ⟨?_, h.after⟩
    have hp := h.partition
    rw [← hfst] at hp
    refine partition_publish (show Partition codec _ _ _ ([] ++ _) from hp) ?_
      (advance_moved hadvance fun p hp => (hfront p hp).2)
      ?_ rfl ?_ ?_
    · exact fun a _ => sameRecords_applyTypedCoverage _ _ _
    · exact fun a ha => ⟨advance_bound hadvance a ha, advance_current hadvance hdistinct rfl a ha⟩
    · intro x
      simp [seqIn_nil, custodyCommit]
    · exact fun r hr => .inl hr
  · intro a ha
    obtain ⟨p, hp, rfl⟩ := List.mem_map.mp ha
    exact (hfront p hp).1

end CohortRounds
