import Mathlib.Data.List.TakeWhile
import OmiCollector.TypedSlices

/-! Normalization gives every unpublished sequence of the admissions exactly one owner.

The result is an ordered list of disjoint slices that covers what the admissions have left and
no ready artifact holds. Wherever two admissions overlap they hold the same bytes, and wherever
one overlaps a ready artifact its records have the hashes of that artifact's proof. -/
namespace SlicePartition

open ByteCodec AudioMachine CaptureModel KeyedTable SpanCover SpanWalk PublicationLedger TypedSlices

variable {D : Type}

/-- Disjoint slices in order, none of them empty. -/
structure Chain (slices : List (Slice D)) : Prop where
  ordered : slices.Pairwise fun a b => a.nextSequence ≤ b.startSequence
  nonempty : ∀ s ∈ slices, s.startSequence < s.nextSequence

def SeqIn (slices : List (Slice D)) (x : ℕ) : Prop := ∃ s ∈ slices, s.span.Contains x

theorem nextSequence_eq (s : Slice D) : s.nextSequence = s.startSequence + s.records.length := rfl

theorem length_recordsIn {s : Slice D} {span : Span} (h : span.Inside s.span) :
    (s.recordsIn span).length = span.stop - span.start := by
  have h1 : s.startSequence ≤ span.start := h.1
  have h2 : span.stop ≤ s.nextSequence := h.2
  rw [nextSequence_eq] at h2
  simp only [Slice.recordsIn, List.length_take, List.length_drop]
  omega

theorem startSequence_crop {s : Slice D} {span : Span} (h : span.Inside s.span) :
    (s.crop span).startSequence = span.start := by
  have h1 : s.startSequence ≤ span.start := h.1
  unfold Slice.startSequence at *
  simp only [Slice.crop, Slice.startSequence]
  omega

theorem span_crop {s : Slice D} {span : Span} (h : span.Inside s.span)
    (hne : span.start ≤ span.stop) : (s.crop span).span = span := by
  have hlen : (s.crop span).recordCount = span.stop - span.start := length_recordsIn h
  unfold Slice.span Slice.nextSequence
  rw [startSequence_crop h, hlen]
  have : span.start + (span.stop - span.start) = span.stop := by omega
  rw [this]

theorem rawAt_of_contains {s : Slice D} {x : ℕ} (h : s.span.Contains x) :
    ∃ raw, s.rawAt x = some raw ∧ raw ∈ s.records := by
  have h1 : s.startSequence ≤ x := h.1
  have h2 : x < s.nextSequence := h.2
  rw [nextSequence_eq] at h2
  have hlt : x - s.startSequence < s.records.length := by omega
  refine ⟨s.records[x - s.startSequence], ?_, List.getElem_mem _⟩
  rw [Slice.rawAt, if_pos h1, List.getElem?_eq_getElem hlt]

theorem recordsIn_getElem {s : Slice D} {span : Span} (h : span.Inside s.span) {x : ℕ}
    (hx : span.Contains x) : (s.recordsIn span)[x - span.start]? = s.rawAt x := by
  have h1 : s.startSequence ≤ span.start := h.1
  have h2 : span.start ≤ x := hx.1
  have h3 : x < span.stop := hx.2
  rw [Slice.rawAt, if_pos (h1.trans h2), Slice.recordsIn, List.getElem?_take_of_lt (by omega),
    List.getElem?_drop]
  congr 1
  omega

theorem rawAt_crop {s : Slice D} {span : Span} (h : span.Inside s.span) {x : ℕ}
    (hx : span.Contains x) : (s.crop span).rawAt x = s.rawAt x := by
  have h1 : span.start ≤ x := hx.1
  rw [← recordsIn_getElem h hx, Slice.rawAt, startSequence_crop h, if_pos h1]
  rfl

/-- In an ordered list of disjoint slices a sequence has one owner. -/
theorem Chain.unique {slices : List (Slice D)} (h : Chain slices) {s t : Slice D} (hs : s ∈ slices)
    (ht : t ∈ slices) {x : ℕ} (hsx : s.span.Contains x) (htx : t.span.Contains x) : s = t := by
  by_contra hne
  have : Std.Symm fun a b : Slice D =>
      a.nextSequence ≤ b.startSequence ∨ b.nextSequence ≤ a.startSequence := ⟨fun _ _ => Or.symm⟩
  have hpair : slices.Pairwise fun a b : Slice D =>
      a.nextSequence ≤ b.startSequence ∨ b.nextSequence ≤ a.startSequence :=
    h.ordered.imp Or.inl
  have := hpair.forall hs ht hne
  have h1 : s.startSequence ≤ x := hsx.1
  have h2 : x < s.nextSequence := hsx.2
  have h3 : t.startSequence ≤ x := htx.1
  have h4 : x < t.nextSequence := htx.2
  omega

theorem take_bisect (slices : List (Slice D)) (x : ℕ) :
    slices.take (bisectRight (slices.map (·.nextSequence)) x) =
        slices.takeWhile (fun s => s.nextSequence ≤ x) ∧
      slices.drop (bisectRight (slices.map (·.nextSequence)) x) =
        slices.dropWhile (fun s => s.nextSequence ≤ x) := by
  have hlen : bisectRight (slices.map (·.nextSequence)) x =
      (slices.takeWhile (fun s => s.nextSequence ≤ x)).length := by
    unfold bisectRight
    rw [List.takeWhile_map, List.length_map]
    rfl
  rw [hlen]
  have hsplit := List.takeWhile_append_dropWhile (p := fun s : Slice D => s.nextSequence ≤ x)
    (l := slices)
  constructor
  · conv_lhs => rw [← hsplit]
    rw [List.take_left']
    simp
  · conv_lhs => rw [← hsplit]
    rw [List.drop_left']
    simp

theorem Chain.sublist {slices slices' : List (Slice D)} (h : Chain slices)
    (hs : slices'.Sublist slices) : Chain slices' :=
  ⟨h.ordered.sublist hs, fun s hmem => h.nonempty s (hs.subset hmem)⟩

/-- After the slices that end at or before `x` all slices end past it. -/
theorem Chain.dropWhile_past {slices : List (Slice D)} (h : Chain slices) {x : ℕ} {t : Slice D}
    (ht : t ∈ slices.dropWhile (fun s => s.nextSequence ≤ x)) : x < t.nextSequence := by
  have hchain := h.sublist (List.dropWhile_sublist (fun s : Slice D => s.nextSequence ≤ x))
  cases hd : slices.dropWhile (fun s => s.nextSequence ≤ x) with
  | nil => simp [hd] at ht
  | cons first rest =>
    have hfirst : x < first.nextSequence := by
      have := List.head?_dropWhile_not (fun s : Slice D => decide (s.nextSequence ≤ x)) slices
      rw [hd] at this
      simpa using this
    rw [hd] at hchain ht
    rcases List.mem_cons.mp ht with rfl | ht
    · exact hfirst
    · have h1 := (List.pairwise_cons.mp hchain.ordered).1 t ht
      have h2 := hchain.nonempty t (List.mem_cons_of_mem _ ht)
      omega

/-- Inserting a slice that overlaps none keeps the order. -/
theorem chain_insertSlice {slices : List (Slice D)} (h : Chain slices) {u : Slice D}
    (hu : u.startSequence < u.nextSequence)
    (hfree : ∀ t ∈ slices, ∀ x, t.span.Contains x → ¬ u.span.Contains x) :
    Chain (insertSlice slices u) ∧ ∀ t, t ∈ insertSlice slices u ↔ t = u ∨ t ∈ slices := by
  obtain ⟨htake, hdrop⟩ := take_bisect slices u.startSequence
  have hsplit := List.takeWhile_append_dropWhile
    (p := fun s : Slice D => s.nextSequence ≤ u.startSequence) (l := slices)
  have hmem : ∀ t, t ∈ insertSlice slices u ↔ t = u ∨ t ∈ slices := by
    intro t
    unfold insertSlice
    simp only [htake, hdrop, List.mem_append, List.mem_cons]
    conv_rhs => rw [← hsplit, List.mem_append]
    tauto
  refine ⟨⟨?_, ?_⟩, hmem⟩
  · unfold insertSlice
    simp only [htake, hdrop]
    have hbefore : ∀ t ∈ slices.takeWhile (fun s => s.nextSequence ≤ u.startSequence),
        t.nextSequence ≤ u.startSequence := by
      intro t ht
      simpa using List.mem_takeWhile_imp ht
    have hafter : ∀ t ∈ slices.dropWhile (fun s => s.nextSequence ≤ u.startSequence),
        u.nextSequence ≤ t.startSequence := by
      intro t ht
      have hpast := h.dropWhile_past ht
      have hin := (List.dropWhile_sublist _).subset ht
      have hne := h.nonempty t hin
      by_contra hlt
      -- Both would contain the larger of their starts.
      apply hfree t hin (max t.startSequence u.startSequence)
      · exact ⟨by simp [Slice.span], by simp [Slice.span]; omega⟩
      · exact ⟨by simp [Slice.span], by simp [Slice.span]; omega⟩
    have hord := h.ordered
    rw [← hsplit, List.pairwise_append] at hord
    rw [List.pairwise_append, List.pairwise_cons]
    refine ⟨hord.1, ⟨hafter, hord.2.1⟩, ?_⟩
    intro a ha b hb
    rcases List.mem_cons.mp hb with rfl | hb
    · exact hbefore a ha
    · exact hord.2.2 a ha b hb
  · intro t ht
    rcases (hmem t).mp ht with rfl | ht
    · exact hu
    · exact h.nonempty t ht

/-- Inserting several slices that overlap neither the list nor each other. -/
theorem chain_foldl_insertSlice {us slices : List (Slice D)} (h : Chain slices) (hus : Chain us)
    (hfree : ∀ u ∈ us, ∀ t ∈ slices, ∀ x, t.span.Contains x → ¬ u.span.Contains x) :
    Chain (us.foldl insertSlice slices) ∧
      ∀ t, t ∈ us.foldl insertSlice slices ↔ t ∈ us ∨ t ∈ slices := by
  induction us generalizing slices with
  | nil => exact ⟨h, by simp⟩
  | cons u us ih =>
    obtain ⟨hchain, hmem⟩ := chain_insertSlice h (hus.nonempty u (by simp)) (hfree u (by simp))
    have htail : Chain us := hus.sublist (List.sublist_cons_self u us)
    have hu := (List.pairwise_cons.mp hus.ordered).1
    obtain ⟨hout, hmemOut⟩ := ih hchain htail (by
      intro v hv t ht x htx hvx
      rcases (hmem t).mp ht with rfl | ht
      · have h1 : x < t.nextSequence := htx.2
        have h2 : v.startSequence ≤ x := hvx.1
        have h3 := hu v hv
        omega
      · exact hfree v (List.mem_cons_of_mem _ hv) t ht x htx hvx)
    refine ⟨hout, fun t => ?_⟩
    rw [List.foldl_cons, hmemOut, hmem, List.mem_cons]
    tauto

theorem chain_crops {s : Slice D} {spans : List Span}
    (hordered : spans.Pairwise fun a b => a.stop ≤ b.start)
    (hinside : ∀ p ∈ spans, p.start < p.stop ∧ p.Inside s.span) : Chain (spans.map s.crop) := by
  have hspan : ∀ p ∈ spans, (s.crop p).startSequence = p.start ∧ (s.crop p).nextSequence = p.stop := by
    intro p hp
    obtain ⟨hlt, hin⟩ := hinside p hp
    have := span_crop hin hlt.le
    exact ⟨congrArg Span.start this, congrArg Span.stop this⟩
  constructor
  · rw [List.pairwise_map]
    refine hordered.imp_of_mem ?_
    intro a b ha hb hab
    rw [(hspan a ha).2, (hspan b hb).1]
    exact hab
  · intro t ht
    obtain ⟨p, hp, rfl⟩ := List.mem_map.mp ht
    rw [(hspan p hp).1, (hspan p hp).2]
    exact (hinside p hp).1

/-- The runs of slices still in reach are sorted. -/
theorem sortedRuns_slices {slices : List (Slice D)} (h : Chain slices) :
    SortedRuns (slices.map fun t => (t.span, t)) := by
  constructor
  · rw [List.pairwise_map]
    exact h.ordered
  · intro r hr
    obtain ⟨t, ht, rfl⟩ := List.mem_map.mp hr
    exact h.nonempty t ht

/-- Two slices that compare equal on a span hold the same record at each of its sequences. -/
theorem compareTypedOverlap_ok {left right : Slice D} {span : Span} (hl : span.Inside left.span)
    (hr : span.Inside right.span) :
    compareTypedOverlap left right span = .ok () ↔
      ∀ x, span.Contains x → left.rawAt x = right.rawAt x := by
  unfold compareTypedOverlap
  constructor
  · intro h x hx
    split at h
    · rename_i heq
      rw [← recordsIn_getElem hl hx, ← recordsIn_getElem hr hx, heq]
    · cases h
  · intro h
    rw [if_pos]
    apply List.ext_getElem?
    intro i
    by_cases hi : i < span.stop - span.start
    · have hx : span.Contains (span.start + i) := ⟨by omega, by omega⟩
      have := h _ hx
      rw [← recordsIn_getElem hl hx, ← recordsIn_getElem hr hx] at this
      simpa using this
    · rw [List.getElem?_eq_none (by rw [length_recordsIn hl]; omega),
        List.getElem?_eq_none (by rw [length_recordsIn hr]; omega)]

/-- `t` holds some of the records of `s`. -/
structure PartOf (t s : Slice D) : Prop where
  admission : t.admission = s.admission
  inside : t.span.Inside s.span
  rawAt : ∀ x, t.span.Contains x → t.rawAt x = s.rawAt x

theorem PartOf.trans {t s u : Slice D} (h : PartOf t s) (h' : PartOf s u) : PartOf t u where
  admission := h.admission.trans h'.admission
  inside := ⟨h'.inside.1.trans h.inside.1, h.inside.2.trans h'.inside.2⟩
  rawAt _ hx := (h.rawAt _ hx).trans
    (h'.rawAt _ ⟨h.inside.1.trans hx.1, hx.2.trans_le h.inside.2⟩)

theorem partOf_crop {s : Slice D} {span : Span} (hlt : span.start < span.stop)
    (h : span.Inside s.span) : PartOf (s.crop span) s where
  admission := rfl
  inside := (span_crop h hlt.le).symm ▸ h
  rawAt _ hx := rawAt_crop h ((span_crop h hlt.le) ▸ hx)

/-- What adding one slice to the owners so far does. -/
structure Added (normalized : List (Slice D)) (s : Slice D) (out : List (Slice D)) : Prop where
  chain : Chain out
  kept : ∀ t ∈ normalized, t ∈ out
  origin : ∀ t ∈ out, t ∈ normalized ∨ PartOf t s
  covers : ∀ x, SeqIn out x ↔ SeqIn normalized x ∨ s.span.Contains x
  agree : ∀ t ∈ normalized, ∀ x, t.span.Contains x → s.span.Contains x → s.rawAt x = t.rawAt x

theorem mem_drop_or_before {slices : List (Slice D)} {x : ℕ} {t : Slice D} (ht : t ∈ slices) :
    t ∈ slices.drop (bisectRight (slices.map (·.nextSequence)) x) ∨ t.nextSequence ≤ x := by
  obtain ⟨htake, hdrop⟩ := take_bisect slices x
  rw [hdrop]
  rw [← List.takeWhile_append_dropWhile (p := fun s : Slice D => s.nextSequence ≤ x) (l := slices)]
    at ht
  rcases List.mem_append.mp ht with ht | ht
  · exact .inr (by simpa using List.mem_takeWhile_imp ht)
  · exact .inl ht

theorem addReadySlice_spec {normalized out : List (Slice D)} {s : Slice D}
    (hn : Chain normalized) (hs : s.startSequence ≤ s.nextSequence)
    (h : addReadySlice normalized s = .ok out) : Added normalized s out := by
  unfold addReadySlice uniqueAgainstTyped at h
  simp only at h
  set index := bisectRight (normalized.map (·.nextSequence)) s.startSequence
  cases hsub : subtractAll s.startSequence s.nextSequence (compareTypedOverlap s)
      [(normalized.drop index).map fun retained => (retained.span, retained)] with
  | error e =>
    rw [hsub] at h
    cases h
  | ok spans =>
    rw [hsub] at h
    obtain rfl : (spans.map s.crop).foldl insertSlice normalized = out := Except.ok.inj h
    have hreach : Chain (normalized.drop index) := hn.sublist (List.drop_sublist _ _)
    have hu := subtractAll_spec hs (by simpa using sortedRuns_slices hreach) hsub
    simp only [List.flatten_cons, List.flatten_nil, List.append_nil] at hu
    have hinside : ∀ p ∈ spans, p.start < p.stop ∧ p.Inside s.span := fun p hp =>
      ⟨(hu.inside p hp).1, (hu.inside p hp).2⟩
    have hspan : ∀ p ∈ spans, (s.crop p).span = p := fun p hp =>
      span_crop (hinside p hp).2 (hinside p hp).1.le
    -- Owners that the walk does not reach end before the slice begins.
    have howned : ∀ x, s.span.Contains x →
        (SeqIn normalized x ↔
          CoveredBy ((normalized.drop index).map fun retained => (retained.span, retained)) x) := by
      intro x hx
      constructor
      · intro hseq
        obtain ⟨t, ht, htx⟩ := hseq
        rcases mem_drop_or_before (x := s.startSequence) ht with ht | hbefore
        · exact ⟨(t.span, t), List.mem_map_of_mem ht, htx⟩
        · have h1 : x < t.nextSequence := htx.2
          have h2 : s.startSequence ≤ x := hx.1
          omega
      · intro hcov
        obtain ⟨r, hr, hrx⟩ := hcov
        obtain ⟨t, ht, rfl⟩ := List.mem_map.mp hr
        exact ⟨t, List.mem_of_mem_drop ht, hrx⟩
    have hfree : ∀ u ∈ spans.map s.crop, ∀ t ∈ normalized, ∀ x, t.span.Contains x →
        ¬ u.span.Contains x := by
      intro u hu' t ht x htx hux
      obtain ⟨p, hp, rfl⟩ := List.mem_map.mp hu'
      rw [hspan p hp] at hux
      have hcov := (hu.covers x).mp ⟨p, hp, hux⟩
      exact hcov.2.2 ((howned x ⟨hcov.1, hcov.2.1⟩).mp ⟨t, ht, htx⟩)
    obtain ⟨hchain, hmem⟩ :=
      chain_foldl_insertSlice hn (chain_crops hu.ordered hinside) hfree
    refine ⟨hchain, fun t ht => (hmem t).mpr (.inr ht), ?_, ?_, ?_⟩
    · intro t ht
      rcases (hmem t).mp ht with ht | ht
      · obtain ⟨p, hp, rfl⟩ := List.mem_map.mp ht
        exact .inr (partOf_crop (hinside p hp).1 (hinside p hp).2)
      · exact .inl ht
    · intro x
      constructor
      · intro hseq
        obtain ⟨t, ht, htx⟩ := hseq
        rcases (hmem t).mp ht with ht | ht
        · obtain ⟨p, hp, rfl⟩ := List.mem_map.mp ht
          rw [hspan p hp] at htx
          have hcov := (hu.covers x).mp ⟨p, hp, htx⟩
          exact .inr ⟨hcov.1, hcov.2.1⟩
        · exact .inl ⟨t, ht, htx⟩
      · intro hor
        by_cases hseq : SeqIn normalized x
        · obtain ⟨t, ht, htx⟩ := hseq
          exact ⟨t, (hmem t).mpr (.inr ht), htx⟩
        · have hx : s.span.Contains x := hor.resolve_left hseq
          obtain ⟨p, hp, hpx⟩ :=
            (hu.covers x).mpr ⟨hx.1, hx.2, fun hc => hseq ((howned x hx).mpr hc)⟩
          refine ⟨s.crop p, (hmem _).mpr (.inl (List.mem_map_of_mem hp)), ?_⟩
          rw [hspan p hp]
          exact hpx
    · intro t ht x htx hx
      obtain ⟨r, hr, hrx⟩ := (howned x hx).mp ⟨t, ht, htx⟩
      obtain ⟨t', ht', rfl⟩ := List.mem_map.mp hr
      obtain rfl := hn.unique (List.mem_of_mem_drop ht') ht hrx htx
      obtain ⟨p, hcheck, hpx, hpt, hps⟩ := hu.checked x hx.1 hx.2 _ hr hrx
      exact (compareTypedOverlap_ok hps hpt).mp hcheck x hpx

/-- Adding the uncovered parts of one slice, one after the other. -/
theorem foldlM_addReadySlice {normalized out : List (Slice D)} {s : Slice D} {spans : List Span}
    (hn : Chain normalized) (hordered : spans.Pairwise fun a b => a.stop ≤ b.start)
    (hinside : ∀ p ∈ spans, p.start < p.stop ∧ p.Inside s.span)
    (h : (spans.map s.crop).foldlM addReadySlice normalized = .ok out) :
    Chain out ∧ (∀ t ∈ normalized, t ∈ out) ∧ (∀ t ∈ out, t ∈ normalized ∨ PartOf t s) ∧
      (∀ x, SeqIn out x ↔ SeqIn normalized x ∨ Covers spans x) ∧
      ∀ t ∈ normalized, ∀ x, t.span.Contains x → Covers spans x → s.rawAt x = t.rawAt x := by
  induction spans generalizing normalized with
  | nil =>
    obtain rfl : normalized = out := Except.ok.inj h
    exact ⟨hn, fun t ht => ht, fun t ht => .inl ht, by simp [Covers], by simp [Covers]⟩
  | cons p spans ih =>
    rw [List.map_cons, List.foldlM_cons] at h
    cases hone : addReadySlice normalized (s.crop p) with
    | error e =>
      rw [hone] at h
      cases h
    | ok mid =>
      rw [hone] at h
      obtain ⟨hlt, hin⟩ := hinside p (by simp)
      have hpart := partOf_crop hlt hin
      have hspan := span_crop hin hlt.le
      have hle : (s.crop p).startSequence ≤ (s.crop p).nextSequence := by
        have h1 := congrArg Span.start hspan
        have h2 := congrArg Span.stop hspan
        simp only [Slice.span] at h1 h2
        omega
      have hadd := addReadySlice_spec hn hle hone
      obtain ⟨hchain, hkept, horigin, hcovers, hagree⟩ := ih hadd.chain
        (List.pairwise_cons.mp hordered).2 (fun q hq => hinside q (List.mem_cons_of_mem _ hq)) h
      have hsplit : ∀ x, Covers (p :: spans) x ↔ p.Contains x ∨ Covers spans x := by
        intro x
        simp [Covers]
      refine ⟨hchain, fun t ht => hkept t (hadd.kept t ht), ?_, ?_, ?_⟩
      · intro t ht
        rcases horigin t ht with ht | ht
        · rcases hadd.origin t ht with ht | ht
          · exact .inl ht
          · exact .inr (ht.trans hpart)
        · exact .inr ht
      · intro x
        rw [hcovers, hadd.covers, hspan, hsplit, or_assoc]
      · intro t ht x htx hx
        rcases (hsplit x).mp hx with hx | hx
        · rw [← rawAt_crop hin hx]
          exact hadd.agree t ht x htx (hspan.symm ▸ hx)
        · exact hagree t (hadd.kept t ht) x htx hx

/-- The runs of all ready artifacts. -/
def readyRuns (c : Custody D) : List (Span × ReadyKey D) :=
  (c.active.map typedActiveSegments).flatten

theorem segmentsFrom_runStart {proof : ReplayProof D} {offset : ℕ} {runs : List Span}
    {r : Span × ReadyKey D} (h : r ∈ segmentsFrom proof offset runs) : r.2.runStart = r.1.start := by
  induction runs generalizing offset with
  | nil => simp [segmentsFrom] at h
  | cons run runs ih =>
    rcases List.mem_cons.mp h with rfl | h
    · rfl
    · exact ih h

theorem segmentsFrom_proof {proof : ReplayProof D} {offset : ℕ} {runs : List Span}
    {r : Span × ReadyKey D} (h : r ∈ segmentsFrom proof offset runs) : r.2.proof = proof := by
  induction runs generalizing offset with
  | nil => simp [segmentsFrom] at h
  | cons run runs ih =>
    rcases List.mem_cons.mp h with rfl | h
    · rfl
    · exact ih h

theorem readyRuns_runStart {c : Custody D} {r : Span × ReadyKey D} (h : r ∈ readyRuns c) :
    r.2.runStart = r.1.start := by
  obtain ⟨segments, hs, hr⟩ := List.mem_flatten.mp h
  obtain ⟨artifact, -, rfl⟩ := List.mem_map.mp hs
  exact segmentsFrom_runStart hr

/-- The stored record of a source at one ordinal. -/
def sourceRaw (sources : Table ℕ (SourceRow D)) (id ordinal : ℕ) : Option Bytes :=
  (sources.get id).bind fun row =>
    (row.records.find? fun r => r.ordinal = ordinal).map CaptureRecord.rawBytes

/-- A slice holds what the source of its admission stores, and every record is framed. -/
structure ReadsFrom (codec : Codec D) (sources : Table ℕ (SourceRow D)) (s : Slice D) : Prop where
  rows : ∀ x, s.span.Contains x →
    s.rawAt x = sourceRaw sources s.admission.sourceId (x - s.admission.sequenceStart)
  framed : ∀ r ∈ s.records, (codec.inspectRecord false r).isSome

theorem readsFrom_partOf {codec : Codec D} {sources : Table ℕ (SourceRow D)} {s t : Slice D}
    (h : ReadsFrom codec sources s) (ht : PartOf t s) :
    ReadsFrom codec sources t := by
  constructor
  · intro x hx
    rw [ht.rawAt x hx, ht.admission]
    exact h.rows x ⟨ht.inside.1.trans hx.1, hx.2.trans_le ht.inside.2⟩
  · intro r hr
    obtain ⟨i, hi, rfl⟩ := List.mem_iff_getElem.mp hr
    have hx : t.span.Contains (t.startSequence + i) := by
      refine ⟨by simp [Slice.span], ?_⟩
      have := nextSequence_eq t
      simp only [Slice.span]
      omega
    have hraw : t.rawAt (t.startSequence + i) = some t.records[i] := by
      simp [Slice.rawAt, List.getElem?_eq_getElem hi]
    rw [ht.rawAt _ hx, Slice.rawAt] at hraw
    split at hraw
    · exact h.framed _ (List.mem_of_getElem? hraw)
    · cases hraw

theorem addReadySlice_succeeds {normalized : List (Slice D)} {s : Slice D}
    (hagree : ∀ t ∈ normalized, ∀ x, t.span.Contains x → s.span.Contains x →
      s.rawAt x = t.rawAt x) : ∃ out, addReadySlice normalized s = .ok out := by
  unfold addReadySlice uniqueAgainstTyped
  simp only
  set index := bisectRight (normalized.map (·.nextSequence)) s.startSequence
  have hpass : Passes s.startSequence s.nextSequence (compareTypedOverlap s)
      [(normalized.drop index).map fun retained => (retained.span, retained)].flatten := by
    intro r hr p _ hpr hps
    rw [List.flatten_cons, List.flatten_nil, List.append_nil] at hr
    obtain ⟨t, ht, rfl⟩ := List.mem_map.mp hr
    rw [compareTypedOverlap_ok hps hpr]
    intro x hx
    exact hagree t (List.mem_of_mem_drop ht) x ⟨hpr.1.trans hx.1, hx.2.trans_le hpr.2⟩
      ⟨hps.1.trans hx.1, hx.2.trans_le hps.2⟩
  obtain ⟨spans, hspans⟩ := subtractAll_succeeds hpass
  rw [hspans]
  exact ⟨_, rfl⟩

theorem foldlM_addReadySlice_succeeds {normalized : List (Slice D)} {s : Slice D}
    {spans : List Span} (hn : Chain normalized)
    (hinside : ∀ p ∈ spans, p.start < p.stop ∧ p.Inside s.span)
    (hagree : ∀ t ∈ normalized, ∀ x, t.span.Contains x → Covers spans x → s.rawAt x = t.rawAt x) :
    ∃ out, (spans.map s.crop).foldlM addReadySlice normalized = .ok out := by
  induction spans generalizing normalized with
  | nil => exact ⟨normalized, rfl⟩
  | cons p spans ih =>
    obtain ⟨hlt, hin⟩ := hinside p (by simp)
    have hspan := span_crop hin hlt.le
    have hfirst : ∀ t ∈ normalized, ∀ x, t.span.Contains x → (s.crop p).span.Contains x →
        (s.crop p).rawAt x = t.rawAt x := by
      intro t ht x htx hx
      rw [hspan] at hx
      rw [rawAt_crop hin hx]
      exact hagree t ht x htx ⟨p, by simp, hx⟩
    obtain ⟨mid, hmid⟩ := addReadySlice_succeeds hfirst
    have hle : (s.crop p).startSequence ≤ (s.crop p).nextSequence := by
      rw [nextSequence_eq]
      omega
    have hadd := addReadySlice_spec hn hle hmid
    obtain ⟨out, hout⟩ := ih hadd.chain (fun q hq => hinside q (List.mem_cons_of_mem _ hq)) (by
      intro t ht x htx hx
      rcases hadd.origin t ht with ht | ht
      · obtain ⟨q, hq, hqx⟩ := hx
        exact hagree t ht x htx ⟨q, List.mem_cons_of_mem _ hq, hqx⟩
      · exact ((ht.trans (partOf_crop hlt hin)).rawAt x htx).symm)
    refine ⟨out, ?_⟩
    rw [List.map_cons, List.foldlM_cons, hmid]
    exact hout

section Sources

variable [DecidableEq D]

theorem page_find {records page : List CaptureRecord} {start count ordinal : ℕ}
    (hpage : page = records.filter fun r => start ≤ r.ordinal ∧ r.ordinal < start + count)
    (hord : page.map (·.ordinal) = List.range' start count) (hlow : start ≤ ordinal)
    (hhigh : ordinal < start + count) :
    records.find? (fun r => r.ordinal = ordinal) = page[ordinal - start]? := by
  have hlen : page.length = count := by
    have := congrArg List.length hord
    simpa using this
  have hfind : records.find? (fun r => r.ordinal = ordinal) =
      page.find? fun r => r.ordinal = ordinal := by
    rw [hpage, List.find?_filter]
    congr 1
    funext r
    by_cases hr : r.ordinal = ordinal
    · simp [hr, hlow, hhigh]
    · simp [hr]
  have hget : ∀ i (hi : i < page.length), page[i].ordinal = start + i := by
    intro i hi
    have := List.getElem_of_eq hord (i := i) (by simpa using hi)
    simpa using this
  rw [hfind]
  have hi : ordinal - start < page.length := by omega
  rw [List.getElem?_eq_getElem hi, List.find?_eq_some_iff_getElem]
  refine ⟨?_, ordinal - start, hi, rfl, ?_⟩
  · simp [hget _ hi]
    omega
  · intro j hj
    simp [hget j (hj.trans hi)]
    omega

theorem typedRecords_ok {sources : Table ℕ (SourceRow D)} {a : Admission D} {start count : ℕ}
    {records : List Bytes} (h : typedRecords sources a start count = .ok records) :
    start + count ≤ a.admittedCount ∧ records.length = count ∧
      (∃ row, sources.get a.sourceId = some row ∧ snapshotCurrent row.source a) ∧
      ∀ ordinal, start ≤ ordinal → ordinal < start + count →
        records[ordinal - start]? = sourceRaw sources a.sourceId ordinal := by
  unfold typedRecords at h
  split at h
  · cases h
  · rename_i hcount
    split at h
    · cases h
    · rename_i row hrow
      split at h
      · cases h
      · rename_i hcurrent
        simp only at h
        split at h
        · rename_i hord
          obtain rfl := Except.ok.inj h
          refine ⟨by omega, ?_, ⟨row, hrow, not_not.mp hcurrent⟩, ?_⟩
          · have := congrArg List.length hord
            simpa using this
          · intro ordinal hlow hhigh
            rw [sourceRaw, hrow, Option.bind_some, page_find rfl hord hlow hhigh,
              List.getElem?_map]
        · cases h

theorem typedSlice_ok {codec : Codec D} {sources : Table ℕ (SourceRow D)} {a : Admission D}
    {start count : ℕ} {s : Slice D} (h : typedSlice codec sources a start count = .ok s) :
    s.admission = a ∧ s.startOrdinal = start ∧ s.recordCount = count ∧
      start + count ≤ a.admittedCount ∧
      (∃ row, sources.get a.sourceId = some row ∧ snapshotCurrent row.source a) ∧
      ReadsFrom codec sources s := by
  unfold typedSlice at h
  cases hrec : typedRecords sources a start count with
  | error e =>
    rw [hrec] at h
    cases h
  | ok records =>
    rw [hrec] at h
    change (if _ then _ else _) = _ at h
    split at h
    · rename_i hframed
      obtain rfl := Except.ok.inj h
      obtain ⟨hcount, hlen, hcurrent, hget⟩ := typedRecords_ok hrec
      refine ⟨rfl, rfl, hlen, hcount, hcurrent, ?_, hframed⟩
      intro x hx
      have h1 : a.sequenceStart + start ≤ x := hx.1
      have h2 : x < a.sequenceStart + start + records.length := hx.2
      have := hget (x - a.sequenceStart) (by omega) (by omega)
      have hindex : x - (a.sequenceStart + start) = x - a.sequenceStart - start := by omega
      rw [← this, ← hindex]
      exact if_pos h1
    · cases h

/-- The proof of a ready artifact holds the digest of this record at this index. -/
def HashMatch (codec : Codec D) (proof : ReplayProof D) (index : ℕ) (raw : Bytes) : Prop :=
  ∃ run normalized, runAt proof.normalizationRuns index = some run ∧
    normalizeRecord raw run = .ok normalized ∧
    proof.hashes[index]? = some (codec.sha256 normalized)

/-- The digests of two records differ where a run of a proof normalizes them differently. -/
def Separates (codec : Codec D) (proof : ReplayProof D) (raw published : Bytes) : Prop :=
  ∀ run ∈ proof.normalizationRuns, ∀ m n, normalizeRecord raw run = .ok m →
    normalizeRecord published run = .ok n → codec.sha256 m = codec.sha256 n → m = n

omit [DecidableEq D] in
/-- One index of a proof matches one of two records that their digests separate. -/
theorem hashMatch_unique {codec : Codec D} {proof : ReplayProof D} {index : ℕ} {raw raw' : Bytes}
    (hsep : Separates codec proof raw raw') (h : HashMatch codec proof index raw)
    (h' : HashMatch codec proof index raw') : raw = raw' := by
  obtain ⟨run, n, hrun, hn, hhash⟩ := h
  obtain ⟨run', n', hrun', hn', hhash'⟩ := h'
  obtain rfl := Option.some.inj (hrun.symm.trans hrun')
  have hsame : codec.sha256 n = codec.sha256 n' := Option.some.inj (hhash.symm.trans hhash')
  obtain rfl := hsep run (List.mem_of_find?_eq_some hrun) n n' hn hn' hsame
  exact normalizeRecord_injective hn hn'

theorem readyHashes_ok {codec : Codec D} {proof : ReplayProof D} {index : ℕ}
    {records : List Bytes} :
    readyHashes codec proof index records = .ok () ↔
      ∀ i raw, records[i]? = some raw → HashMatch codec proof (index + i) raw := by
  induction records generalizing index with
  | nil => simp [readyHashes]
  | cons record rest ih =>
    have hsplit : (∀ i raw, (record :: rest)[i]? = some raw → HashMatch codec proof (index + i) raw) ↔
        HashMatch codec proof index record ∧
          ∀ i raw, rest[i]? = some raw → HashMatch codec proof (index + 1 + i) raw := by
      constructor
      · intro h
        refine ⟨h 0 record rfl, fun i raw hi => ?_⟩
        have := h (i + 1) raw (by simpa using hi)
        rwa [← add_assoc, add_right_comm] at this
      · intro h i raw hi
        cases i with
        | zero =>
          obtain rfl : record = raw := by simpa using hi
          exact h.1
        | succ i =>
          have := h.2 i raw (by simpa using hi)
          rwa [add_right_comm, add_assoc] at this
    rw [hsplit, ← ih, readyHashes]
    unfold HashMatch
    cases hrun : runAt proof.normalizationRuns index with
    | none => simp
    | some run =>
      cases hnorm : normalizeRecord record run with
      | error e => simp [hnorm]
      | ok normalized => by_cases hhash : proof.hashes[index]? = some (codec.sha256 normalized) <;>
          simp [hnorm, hhash]

/-- One sequence of a source has the digest that a run of a ready artifact holds for it. -/
def ReadyMatch (codec : Codec D) (key : ReadyKey D) (x : ℕ) (raw : Bytes) : Prop :=
  HashMatch codec key.proof (key.readyOffset + (x - key.runStart)) raw

theorem typedReadyOverlap_ok {codec : Codec D} {s : Slice D} {key : ReadyKey D} {span : Span}
    (hin : span.Inside s.span) (hkey : key.runStart ≤ span.start) :
    typedReadyOverlap codec s key span = .ok () ↔
      ∀ x raw, span.Contains x → s.rawAt x = some raw → ReadyMatch codec key x raw := by
  unfold typedReadyOverlap
  rw [readyHashes_ok]
  constructor
  · intro h x raw hx hraw
    have := h (x - span.start) raw (by rw [recordsIn_getElem hin hx]; exact hraw)
    have hindex : key.readyOffset + (span.start - key.runStart) + (x - span.start) =
        key.readyOffset + (x - key.runStart) := by
      have := hx.1
      omega
    rwa [hindex] at this
  · intro h i raw hi
    have hlt : i < span.stop - span.start := by
      have := (List.getElem?_eq_some_iff.mp hi).1
      rwa [length_recordsIn hin] at this
    have hx : span.Contains (span.start + i) := ⟨by omega, by omega⟩
    have := h (span.start + i) raw hx (by rw [← recordsIn_getElem hin hx]; simpa using hi)
    unfold ReadyMatch at this
    have hindex : key.readyOffset + (span.start - key.runStart) + i =
        key.readyOffset + (span.start + i - key.runStart) := by omega
    rwa [hindex]

/-- What one admission must satisfy for its records to be compared: its rest is readable and
framed, an untouched one matches its checkpoint, and no retired artifact stands in the way. -/
structure Comparable (codec : Codec D) (sources : Table ℕ (SourceRow D)) (c : Custody D)
    (a : Admission D) : Prop where
  readable : ∃ s, typedSlice codec sources a a.cursor (a.admittedCount - a.cursor) = .ok s ∧
    (a.cursor = 0 → s.rawSha256 codec = a.admittedSha256)
  retired : typedRejectPartialRetiredOverlap a c = .ok ()
  ready : ∀ r ∈ readyRuns c, ∀ x raw, a.remaining.Contains x → r.1.Contains x →
    sourceRaw sources a.sourceId (x - a.sequenceStart) = some raw → ReadyMatch codec r.2 x raw

/-- The unpublished sequences of the admissions, with one owner each. -/
structure Partition (codec : Codec D) (sources : Table ℕ (SourceRow D)) (c : Custody D)
    (admissions : List (Admission D)) (slices : List (Slice D)) : Prop where
  chain : Chain slices
  origin : ∀ s ∈ slices, ReadsFrom codec sources s ∧ ∃ a ∈ admissions,
    a.sourceId = s.admission.sourceId ∧ a.sequenceStart = s.admission.sequenceStart ∧
      s.span.Inside a.remaining
  covers : ∀ x, SeqIn slices x ↔
    (∃ a ∈ admissions, a.remaining.Contains x) ∧ ¬ CoveredBy (readyRuns c) x
  agree : ∀ a ∈ admissions, ∀ s ∈ slices, ∀ x, a.remaining.Contains x → s.span.Contains x →
    s.rawAt x = sourceRaw sources a.sourceId (x - a.sequenceStart)
  comparable : ∀ a ∈ admissions, a.cursor < a.admittedCount → Comparable codec sources c a

variable {codec : Codec D} {sources : Table ℕ (SourceRow D)} {c : Custody D}

theorem span_typedSlice {a : Admission D} {s : Slice D}
    (h : typedSlice codec sources a a.cursor (a.admittedCount - a.cursor) = .ok s)
    (hrest : a.cursor < a.admittedCount) : s.span = a.remaining := by
  obtain ⟨hadm, hstart, hcount, -, -, -⟩ := typedSlice_ok h
  unfold Slice.span Slice.nextSequence Slice.startSequence Admission.remaining
  rw [hadm, hstart, hcount]
  congr 1
  omega

/-- Adding the rest of one admission to the partition of the admissions before it. -/
theorem normalizeAdmission_spec {as : List (Admission D)} {a : Admission D}
    {normalized out : List (Slice D)} (hsorted : SortedRuns (readyRuns c))
    (hp : Partition codec sources c as normalized)
    (h : normalizeAdmission codec sources c normalized a = .ok out) :
    Partition codec sources c (as ++ [a]) out := by
  unfold normalizeAdmission at h
  by_cases hdone : a.admittedCount ≤ a.cursor
  · -- A passed admission has no sequences left.
    rw [if_pos hdone] at h
    obtain rfl := Except.ok.inj h
    have hempty : ∀ x, ¬ a.remaining.Contains x := by
      intro x hx
      have h1 : a.sequenceStart + a.cursor ≤ x := hx.1
      have h2 : x < a.sequenceStart + a.admittedCount := hx.2
      omega
    refine ⟨hp.chain, ?_, ?_, ?_, ?_⟩
    · intro s hs
      obtain ⟨hreads, b, hb, hrest⟩ := hp.origin s hs
      exact ⟨hreads, b, List.mem_append_left _ hb, hrest⟩
    · intro x
      rw [hp.covers]
      simp [or_and_right, exists_or, hempty]
    · intro b hb s hs x hbx hsx
      rcases List.mem_append.mp hb with hb | hb
      · exact hp.agree b hb s hs x hbx hsx
      · obtain rfl := List.mem_singleton.mp hb
        exact absurd hbx (hempty x)
    · intro b hb hlt
      rcases List.mem_append.mp hb with hb | hb
      · exact hp.comparable b hb hlt
      · obtain rfl := List.mem_singleton.mp hb
        omega
  · rw [if_neg hdone] at h
    have hrest : a.cursor < a.admittedCount := by omega
    cases hslice : typedSlice codec sources a a.cursor (a.admittedCount - a.cursor) with
    | error e =>
      rw [hslice] at h
      cases h
    | ok s =>
      rw [hslice] at h
      change (if _ then _ else _) = _ at h
      split at h
      · cases h
      · rename_i hsha
        unfold uniqueAgainstTypedReady at h
        cases hreject : typedRejectPartialRetiredOverlap s.admission c with
        | error e =>
          rw [hreject] at h
          cases h
        | ok u =>
          cases hsub : subtractAll s.startSequence s.nextSequence (typedReadyOverlap codec s)
              (c.active.map typedActiveSegments) with
          | error e =>
            rw [hreject] at h
            simp only [hsub] at h
            cases h
          | ok spans =>
            rw [hreject] at h
            simp only [hsub] at h
            change (spans.map s.crop).foldlM addReadySlice normalized = .ok out at h
            obtain ⟨hadm, hstart, hcount, -, -, hreads⟩ := typedSlice_ok hslice
            have hspan : s.span = a.remaining := span_typedSlice hslice hrest
            have hle : s.startSequence ≤ s.nextSequence := by
              rw [nextSequence_eq]
              omega
            have hu := subtractAll_spec hle hsorted hsub
            have hinside : ∀ p ∈ spans, p.start < p.stop ∧ p.Inside s.span := fun p hp =>
              ⟨(hu.inside p hp).1, (hu.inside p hp).2⟩
            have hcov : ∀ x, Covers spans x ↔
                a.remaining.Contains x ∧ ¬ CoveredBy (readyRuns c) x := by
              intro x
              rw [hu.covers, ← hspan, ← and_assoc]
              rfl
            obtain ⟨hchain, hkept, horigin, hcovers, hagree⟩ :=
              foldlM_addReadySlice hp.chain hu.ordered hinside h
            have hrow : ∀ x, a.remaining.Contains x →
                s.rawAt x = sourceRaw sources a.sourceId (x - a.sequenceStart) := by
              intro x hx
              rw [← hadm]
              exact hreads.rows x (hspan.symm ▸ hx)
            have hnormalized : ∀ t ∈ normalized, ∀ x, t.span.Contains x →
                ¬ CoveredBy (readyRuns c) x :=
              fun t ht x htx => ((hp.covers x).mp ⟨t, ht, htx⟩).2
            refine ⟨hchain, ?_, ?_, ?_, ?_⟩
            · intro t ht
              rcases horigin t ht with ht | ht
              · obtain ⟨hreads, b, hb, hrest⟩ := hp.origin t ht
                exact ⟨hreads, b, List.mem_append_left _ hb, hrest⟩
              · refine ⟨readsFrom_partOf hreads ht, a, by simp, ?_, ?_, ?_⟩
                · rw [ht.admission, hadm]
                · rw [ht.admission, hadm]
                · exact hspan ▸ ht.inside
            · intro x
              rw [hcovers, hp.covers, hcov]
              simp only [List.mem_append, List.mem_singleton, or_and_right, exists_or,
                exists_eq_left]
            · intro b hb t ht x hbx htx
              rcases List.mem_append.mp hb with hb | hb
              · rcases horigin t ht with ht' | ht'
                · exact hp.agree b hb t ht' x hbx htx
                · -- The owner of a sequence that an earlier admission also has.
                  have hx : s.span.Contains x :=
                    ⟨ht'.inside.1.trans htx.1, htx.2.trans_le ht'.inside.2⟩
                  have hfree : ¬ CoveredBy (readyRuns c) x := by
                    intro hc
                    rcases (hcovers x).mp ⟨t, ht, htx⟩ with hseq | hseq
                    · exact ((hp.covers x).mp hseq).2 hc
                    · exact ((hcov x).mp hseq).2 hc
                  obtain ⟨o, ho, hox⟩ := (hp.covers x).mpr ⟨⟨b, hb, hbx⟩, hfree⟩
                  obtain rfl := hchain.unique (hkept o ho) ht hox htx
                  exact hp.agree b hb o ho x hbx hox
              · obtain rfl := List.mem_singleton.mp hb
                rcases horigin t ht with ht' | ht'
                · rw [← hrow x hbx]
                  exact (hagree t ht' x htx ((hcov x).mpr ⟨hbx, hnormalized t ht' x htx⟩)).symm
                · rw [← hrow x hbx]
                  exact ht'.rawAt x htx
            · intro b hb hlt
              rcases List.mem_append.mp hb with hb | hb
              · exact hp.comparable b hb hlt
              · obtain rfl := List.mem_singleton.mp hb
                refine ⟨⟨s, hslice, fun h0 => ?_⟩, hadm ▸ hreject, ?_⟩
                · by_contra hne
                  exact hsha ⟨h0, hne⟩
                · intro r hr x raw hx hrx hraw
                  have hx' : s.span.Contains x := hspan.symm ▸ hx
                  obtain ⟨p, hcheck, hpx, hpr, hps⟩ := hu.checked x hx'.1 hx'.2 r hr hrx
                  refine (typedReadyOverlap_ok hps ?_).mp hcheck x raw hpx ?_
                  · rw [readyRuns_runStart hr]
                    exact hpr.1
                  · rw [hrow x hx]
                    exact hraw

/-- Normalization, when it succeeds, yields a partition. -/
theorem normalizeTypedAdmissions_spec {as : List (Admission D)} {out : List (Slice D)}
    (hsorted : SortedRuns (readyRuns c))
    (h : normalizeTypedAdmissions codec sources c as = .ok out) :
    Partition codec sources c as out := by
  have hrun : ∀ (done rest : List (Admission D)) (mid : List (Slice D)),
      Partition codec sources c done mid →
      rest.foldlM (normalizeAdmission codec sources c) mid = .ok out →
      Partition codec sources c (done ++ rest) out := by
    intro done rest
    induction rest generalizing done with
    | nil =>
      intro mid hmid hfold
      obtain rfl : mid = out := Except.ok.inj hfold
      simpa using hmid
    | cons a rest ih =>
      intro mid hmid hfold
      rw [List.foldlM_cons] at hfold
      cases hone : normalizeAdmission codec sources c mid a with
      | error e =>
        rw [hone] at hfold
        cases hfold
      | ok next =>
        rw [hone] at hfold
        have := ih (done ++ [a]) next (normalizeAdmission_spec hsorted hmid hone) hfold
        simpa using this
  have hempty : Partition codec sources c [] [] :=
    ⟨⟨by simp, by simp⟩, by simp, by simp [SeqIn], by simp, by simp⟩
  simpa using hrun [] as [] hempty h

/-- Admissions hold the same record wherever two of them have an unpublished sequence. -/
def Agreeing (sources : Table ℕ (SourceRow D)) (c : Custody D) (as : List (Admission D)) : Prop :=
  ∀ a ∈ as, ∀ b ∈ as, ∀ x, a.remaining.Contains x → b.remaining.Contains x →
    ¬ CoveredBy (readyRuns c) x →
    sourceRaw sources a.sourceId (x - a.sequenceStart) =
      sourceRaw sources b.sourceId (x - b.sequenceStart)

theorem Partition.agreeing {as : List (Admission D)} {slices : List (Slice D)}
    (h : Partition codec sources c as slices) : Agreeing sources c as := by
  intro a ha b hb x hax hbx hfree
  obtain ⟨s, hs, hsx⟩ := (h.covers x).mpr ⟨⟨a, ha, hax⟩, hfree⟩
  rw [← h.agree a ha s hs x hax hsx, ← h.agree b hb s hs x hbx hsx]

theorem normalizeAdmission_succeeds {as : List (Admission D)} {a : Admission D}
    {normalized : List (Slice D)} (hsorted : SortedRuns (readyRuns c))
    (hp : Partition codec sources c as normalized) (hagree : Agreeing sources c (as ++ [a]))
    (hcomparable : a.cursor < a.admittedCount → Comparable codec sources c a) :
    ∃ out, normalizeAdmission codec sources c normalized a = .ok out := by
  unfold normalizeAdmission
  by_cases hdone : a.admittedCount ≤ a.cursor
  · rw [if_pos hdone]
    exact ⟨normalized, rfl⟩
  · rw [if_neg hdone]
    have hrest : a.cursor < a.admittedCount := by omega
    obtain ⟨⟨s, hslice, hsha⟩, hretired, hready⟩ := hcomparable hrest
    obtain ⟨hadm, -, -, -, -, hreads⟩ := typedSlice_ok hslice
    have hspan : s.span = a.remaining := span_typedSlice hslice hrest
    have hle : s.startSequence ≤ s.nextSequence := by
      rw [nextSequence_eq]
      omega
    have hrow : ∀ x, s.span.Contains x →
        s.rawAt x = sourceRaw sources a.sourceId (x - a.sequenceStart) := by
      intro x hx
      rw [← hadm]
      exact hreads.rows x hx
    have hpass : Passes s.startSequence s.nextSequence (typedReadyOverlap codec s)
        (c.active.map typedActiveSegments).flatten := by
      intro r hr p _ hpr hps
      rw [typedReadyOverlap_ok hps (by rw [readyRuns_runStart hr]; exact hpr.1)]
      intro x raw hx hraw
      have hxs : s.span.Contains x := ⟨hps.1.trans hx.1, hx.2.trans_le hps.2⟩
      exact hready r hr x raw (hspan ▸ hxs) ⟨hpr.1.trans hx.1, hx.2.trans_le hpr.2⟩
        ((hrow x hxs).symm.trans hraw)
    obtain ⟨spans, hspans⟩ := subtractAll_succeeds hpass
    have hu := subtractAll_spec hle hsorted hspans
    obtain ⟨out, hout⟩ := foldlM_addReadySlice_succeeds (s := s) hp.chain
      (fun p hp => ⟨(hu.inside p hp).1, (hu.inside p hp).2⟩) (by
        intro t ht x htx hx
        have hxu := (hu.covers x).mp hx
        have hxs : s.span.Contains x := ⟨hxu.1, hxu.2.1⟩
        obtain ⟨htreads, b, hb, hid, hseq, hin⟩ := hp.origin t ht
        rw [hrow x hxs, htreads.rows x htx, ← hid, ← hseq]
        exact hagree a (by simp) b (List.mem_append_left _ hb) x (hspan ▸ hxs)
          ⟨hin.1.trans htx.1, htx.2.trans_le hin.2⟩ hxu.2.2)
    refine ⟨out, ?_⟩
    have hnot : ¬ (a.cursor = 0 ∧ s.rawSha256 codec ≠ a.admittedSha256) :=
      fun hc => hc.2 (hsha hc.1)
    simp only [hslice, bind, Except.bind, if_neg hnot, uniqueAgainstTypedReady, hadm, hretired,
      hspans, pure, Except.pure, Except.mapError]
    exact hout

/-- Normalization succeeds on admissions that are comparable and agree. -/
theorem normalizeTypedAdmissions_succeeds {as : List (Admission D)}
    (hsorted : SortedRuns (readyRuns c)) (hagree : Agreeing sources c as)
    (hcomparable : ∀ a ∈ as, a.cursor < a.admittedCount → Comparable codec sources c a) :
    ∃ out, normalizeTypedAdmissions codec sources c as = .ok out := by
  have hrun : ∀ (done rest : List (Admission D)) (mid : List (Slice D)),
      Partition codec sources c done mid → Agreeing sources c (done ++ rest) →
      (∀ a ∈ rest, a.cursor < a.admittedCount → Comparable codec sources c a) →
      ∃ out, rest.foldlM (normalizeAdmission codec sources c) mid = .ok out := by
    intro done rest
    induction rest generalizing done with
    | nil => exact fun mid _ _ _ => ⟨mid, rfl⟩
    | cons a rest ih =>
      intro mid hmid hagree hcomparable
      obtain ⟨next, hnext⟩ := normalizeAdmission_succeeds hsorted hmid
        (fun b hb d hd => hagree b (by simp at hb ⊢; tauto) d (by simp at hd ⊢; tauto))
        (hcomparable a (by simp))
      obtain ⟨out, hout⟩ := ih (done ++ [a]) next (normalizeAdmission_spec hsorted hmid hnext)
        (by simpa using hagree) (fun b hb => hcomparable b (List.mem_cons_of_mem _ hb))
      refine ⟨out, ?_⟩
      rw [List.foldlM_cons, hnext]
      exact hout
  have hempty : Partition codec sources c [] [] :=
    ⟨⟨by simp, by simp⟩, by simp, by simp [SeqIn], by simp, by simp⟩
  exact hrun [] as [] hempty hagree hcomparable

end Sources

end SlicePartition
