import OmiCollector.ClockModel

/-! What a list of clock ranges says about each sequence number, and what splitting, sorting
and merging do to it. Adding a range fills gaps and changes nothing else. -/
namespace ClockEvidence

open SpanCover ClockModel

/-- The facts a range gives to each of its sequences. -/
structure Evidence where
  offsetSeconds : Option ℚ
  uncertaintySeconds : Option ℚ
  confidence : Confidence
  sourceId : String
  deriving DecidableEq, Repr

def evidence (r : ClockRange) : Evidence :=
  ⟨r.offsetSeconds, r.uncertaintySeconds, r.confidence, r.sourceId⟩

/-- Some range gives this sequence these facts. -/
def EvidenceAt (ranges : List ClockRange) (x : ℕ) (e : Evidence) : Prop :=
  ∃ r ∈ ranges, r.span.Contains x ∧ evidence r = e

def Covered (ranges : List ClockRange) (x : ℕ) : Prop := ∃ e, EvidenceAt ranges x e

/-- The facts of the first range that contains the sequence. -/
def evidenceOf (ranges : List ClockRange) (x : ℕ) : Option Evidence :=
  (ranges.find? fun r => decide (r.span.Contains x)).map evidence

theorem range_eq_iff {p q : ClockRange} : p = q ↔ p.span = q.span ∧ evidence p = evidence q := by
  cases p
  cases q
  simp only [ClockRange.mk.injEq, ClockRange.span, Span.mk.injEq, evidence, Evidence.mk.injEq]
  tauto

theorem over_eq_some {r p : ClockRange} {s : Span} :
    r.over s = some p ↔ p.span = s ∧ evidence p = evidence r := by
  unfold ClockRange.over
  by_cases hs : s.start < s.stop
  · rw [dif_pos hs, Option.some.injEq, eq_comm, range_eq_iff]
    rfl
  · rw [dif_neg hs]
    constructor
    · intro h
      simp at h
    · intro h
      have := p.nonempty
      exact absurd (h.1 ▸ this : s.start < s.stop) hs

theorem covered_iff_covers (ranges : List ClockRange) (x : ℕ) :
    Covered ranges x ↔ Covers (ranges.map ClockRange.span) x := by
  constructor
  · intro h
    obtain ⟨e, r, hr, hx, -⟩ := h
    exact ⟨r.span, List.mem_map_of_mem hr, hx⟩
  · intro h
    obtain ⟨s, hs, hx⟩ := h
    obtain ⟨r, hr, rfl⟩ := List.mem_map.mp hs
    exact ⟨evidence r, r, hr, hx, rfl⟩

theorem evidenceAt_append {xs ys : List ClockRange} {x : ℕ} {e : Evidence} :
    EvidenceAt (xs ++ ys) x e ↔ EvidenceAt xs x e ∨ EvidenceAt ys x e := by
  simp only [EvidenceAt, List.mem_append, or_and_right, exists_or]

theorem evidenceAt_singleton {r : ClockRange} {x : ℕ} {e : Evidence} :
    EvidenceAt [r] x e ↔ r.span.Contains x ∧ evidence r = e := by
  simp [EvidenceAt]

theorem evidenceAt_perm {xs ys : List ClockRange} (h : xs.Perm ys) {x : ℕ} {e : Evidence} :
    EvidenceAt xs x e ↔ EvidenceAt ys x e := by
  simp only [EvidenceAt, h.mem_iff]

theorem evidenceAt_filterMap_over {r : ClockRange} {spans : List Span} {x : ℕ} {e : Evidence} :
    EvidenceAt (spans.filterMap r.over) x e ↔ Covers spans x ∧ evidence r = e := by
  constructor
  · intro h
    obtain ⟨p, hp, hx, he⟩ := h
    obtain ⟨s, hs, hover⟩ := List.mem_filterMap.mp hp
    obtain ⟨rfl, hevidence⟩ := over_eq_some.mp hover
    exact ⟨⟨p.span, hs, hx⟩, hevidence ▸ he⟩
  · intro h
    obtain ⟨⟨s, hs, hx⟩, he⟩ := h
    have hlt : s.start < s.stop := lt_of_le_of_lt hx.1 hx.2
    have hover : r.over s = some
        { r with startSequence := s.start, nextSequence := s.stop, nonempty := hlt } :=
      over_eq_some.mpr ⟨rfl, rfl⟩
    exact ⟨_, List.mem_filterMap.mpr ⟨s, hs, hover⟩, hx, he⟩

/-- The second range continues the first with the same facts. -/
def Continues (left right : ClockRange) : Prop :=
  left.nextSequence = right.startSequence ∧ evidence left = evidence right

/-- One merge step: the item is joined to the last range or put after it. -/
theorem mergeStep_cases (merged : List ClockRange) (item : ClockRange) :
    (merged = [] ∧ mergeStep merged item = [item]) ∨
    ∃ init last, merged = init ++ [last] ∧
      ((¬ Continues last item ∧ mergeStep merged item = init ++ [last, item]) ∨
        (Continues last item ∧ ∃ joined : ClockRange,
          joined.startSequence = last.startSequence ∧ joined.nextSequence = item.nextSequence ∧
          evidence joined = evidence item ∧ mergeStep merged item = init ++ [joined])) := by
  unfold mergeStep
  cases hlast : merged.getLast? with
  | none => exact .inl ⟨List.getLast?_eq_none_iff.mp hlast, rfl⟩
  | some last =>
    have hsplit : merged = merged.dropLast ++ [last] :=
      (List.dropLast_append_getLast? last hlast).symm
    refine .inr ⟨merged.dropLast, last, hsplit, ?_⟩
    simp only
    split
    · rename_i h
      have hevidence := (over_eq_some.mp h.2).2
      exact .inr ⟨⟨h.1, hevidence.symm⟩, { last with
        nextSequence := item.nextSequence
        nonempty := last.nonempty.trans (h.1 ▸ item.nonempty) }, rfl, rfl, hevidence.symm, rfl⟩
    · rename_i h
      refine .inl ⟨?_, ?_⟩
      · intro hcont
        exact h ⟨hcont.1, over_eq_some.mpr ⟨rfl, hcont.2.symm⟩⟩
      · conv_lhs => rw [hsplit]
        rw [List.append_assoc]
        rfl

/-- A merged range says the same about every sequence as the two it joins. -/
theorem evidenceAt_mergeStep {merged : List ClockRange} {item : ClockRange} {x : ℕ}
    {e : Evidence} :
    EvidenceAt (mergeStep merged item) x e ↔ EvidenceAt merged x e ∨ EvidenceAt [item] x e := by
  obtain ⟨rfl, hstep⟩ | ⟨init, last, rfl, ⟨-, hstep⟩ | ⟨hcont, joined, hstart, hnext, he, hstep⟩⟩ :=
    mergeStep_cases merged item
  · rw [hstep]
    simp [EvidenceAt]
  · rw [hstep, ← evidenceAt_append, List.append_assoc]
    rfl
  · rw [hstep, evidenceAt_append, evidenceAt_append, or_assoc]
    apply or_congr_right
    have hlast := last.nonempty
    have hitem := item.nonempty
    have hmeet := hcont.1
    simp only [evidenceAt_singleton, ClockRange.span, Span.Contains, hstart, hnext, he, hcont.2]
    rw [← or_and_right]
    apply and_congr_left
    intro _
    omega

theorem evidenceAt_foldl_mergeStep {ranges merged : List ClockRange} {x : ℕ} {e : Evidence} :
    EvidenceAt (ranges.foldl mergeStep merged) x e ↔
      EvidenceAt merged x e ∨ EvidenceAt ranges x e := by
  induction ranges generalizing merged with
  | nil => simp [EvidenceAt]
  | cons r ranges ih =>
    rw [List.foldl_cons, ih, evidenceAt_mergeStep, or_assoc, ← evidenceAt_append]
    rfl

theorem ordered_iff_pairwise {ranges : List ClockRange} :
    Ordered ranges ↔ ranges.Pairwise (fun a b => a.nextSequence ≤ b.startSequence) := by
  have : IsTrans ClockRange (fun a b => a.nextSequence ≤ b.startSequence) :=
    ⟨fun a b c hab hbc => hab.trans (b.nonempty.le.trans hbc)⟩
  exact List.isChain_iff_pairwise

/-- The two ranges share no sequence. -/
def Apart (left right : ClockRange) : Prop :=
  left.nextSequence ≤ right.startSequence ∨ right.nextSequence ≤ left.startSequence

instance : Std.Symm Apart := ⟨fun _ _ h => Or.symm h⟩

theorem apart_of_ordered {ranges : List ClockRange} (h : Ordered ranges) :
    ranges.Pairwise Apart :=
  (ordered_iff_pairwise.mp h).imp Or.inl

/-- Ordered ranges give a sequence at most one set of facts. -/
theorem evidenceAt_unique {ranges : List ClockRange} (h : Ordered ranges) {x : ℕ}
    {e e' : Evidence} (he : EvidenceAt ranges x e) (he' : EvidenceAt ranges x e') : e = e' := by
  obtain ⟨p, hp, hpx, rfl⟩ := he
  obtain ⟨q, hq, hqx, rfl⟩ := he'
  by_cases hpq : p = q
  · rw [hpq]
  · have hapart : Apart p q :=
      (apart_of_ordered h).forall hp hq hpq
    simp only [ClockRange.span, Span.Contains, Apart] at hpx hqx hapart
    omega

theorem evidenceOf_eq_some {ranges : List ClockRange} (h : Ordered ranges) {x : ℕ}
    {e : Evidence} : evidenceOf ranges x = some e ↔ EvidenceAt ranges x e := by
  have hfound : ∀ e', evidenceOf ranges x = some e' → EvidenceAt ranges x e' := by
    intro e' he'
    obtain ⟨r, hr, rfl⟩ := Option.map_eq_some_iff.mp he'
    have hx := List.find?_some hr
    exact ⟨r, List.mem_of_find?_eq_some hr, of_decide_eq_true hx, rfl⟩
  constructor
  · exact hfound e
  · intro he
    cases hlookup : evidenceOf ranges x with
    | none =>
      obtain ⟨r, hr, hx, -⟩ := he
      have hnone := List.find?_eq_none.mp (Option.map_eq_none_iff.mp hlookup) r hr
      exact absurd (decide_eq_true hx) hnone
    | some e' => rw [evidenceAt_unique h he (hfound e' hlookup)]

theorem evidenceOf_eq_none {ranges : List ClockRange} {x : ℕ} :
    evidenceOf ranges x = none ↔ ¬ Covered ranges x := by
  unfold evidenceOf Covered EvidenceAt
  rw [Option.map_eq_none_iff, List.find?_eq_none]
  constructor
  · intro h hcovered
    obtain ⟨e, r, hr, hx, -⟩ := hcovered
    exact h r hr (decide_eq_true hx)
  · intro h r hr hx
    exact h ⟨evidence r, r, hr, of_decide_eq_true hx, rfl⟩

/-- Ranges sorted by start. -/
def byStart (a b : ClockRange) : Prop := a.startSequence ≤ b.startSequence

instance : DecidableRel byStart := fun _ _ => inferInstanceAs (Decidable (_ ≤ _))
instance : Std.Total byStart := ⟨fun a b => le_total a.startSequence b.startSequence⟩
instance : IsTrans ClockRange byStart := ⟨fun _ _ _ hab hbc => Nat.le_trans hab hbc⟩

/-- What `addRange` merges: the ranges it has and the uncovered pieces of the new one. -/
def spliced (ranges : List ClockRange) (incoming : ClockRange) : List ClockRange :=
  ranges ++ (cutAll [incoming.span] (ranges.map ClockRange.span)).filterMap incoming.over

theorem addRange_eq (s : ClockState) (r : ClockRange) :
    s.addRange r =
      s.withRanges (((spliced s.ranges r).insertionSort byStart).foldl mergeStep []) := rfl

/-- The pieces of a range share no sequence with each other. -/
theorem pieces_apart (ranges : List ClockRange) (r : ClockRange) :
    ((cutAll [r.span] (ranges.map ClockRange.span)).filterMap r.over).Pairwise Apart := by
  have hproper : ∀ e ∈ ranges.map ClockRange.span, e.start ≤ e.stop := by
    intro e he
    obtain ⟨q, -, rfl⟩ := List.mem_map.mp he
    exact q.nonempty.le
  have hseq := sequential_cutAll (List.pairwise_singleton _ r.span) hproper
  apply List.Pairwise.filterMap r.over _ hseq
  intro a b hab p hp q hq
  have hpa := (over_eq_some.mp hp).1
  have hqb := (over_eq_some.mp hq).1
  left
  calc p.nextSequence = a.stop := by rw [← hpa]; rfl
    _ ≤ b.start := hab
    _ = q.startSequence := by rw [← hqb]; rfl

/-- A piece lies in a gap of the ranges. -/
theorem piece_apart_range {ranges : List ClockRange} {r p q : ClockRange} (hq : q ∈ ranges)
    (hp : p ∈ (cutAll [r.span] (ranges.map ClockRange.span)).filterMap r.over) : Apart q p := by
  obtain ⟨s, hs, hover⟩ := List.mem_filterMap.mp hp
  obtain ⟨rfl, -⟩ := over_eq_some.mp hover
  have hfree : ∀ x, p.span.Contains x → ¬ q.span.Contains x := by
    intro x hx hqx
    exact (covers_cutAll.mp ⟨p.span, hs, hx⟩).2 ⟨q.span, List.mem_map_of_mem hq, hqx⟩
  have hlow := hfree q.startSequence
  have hlow' := hfree p.startSequence
  have hpn := p.nonempty
  have hqn := q.nonempty
  simp only [ClockRange.span, Span.Contains] at hlow hlow'
  unfold Apart
  omega

theorem spliced_apart {ranges : List ClockRange} (h : Ordered ranges) (r : ClockRange) :
    (spliced ranges r).Pairwise Apart := by
  apply List.pairwise_append.mpr
  refine ⟨apart_of_ordered h, pieces_apart ranges r, ?_⟩
  intro q hq p hp
  exact piece_apart_range hq hp

/-- Sorting ranges that share no sequence puts them in order. -/
theorem ordered_insertionSort {ranges : List ClockRange} (h : ranges.Pairwise Apart) :
    Ordered (ranges.insertionSort byStart) := by
  have hsorted := List.pairwise_insertionSort byStart ranges
  have hapart := (List.perm_insertionSort byStart ranges).symm.pairwise h (Std.Symm.symm _ _)
  apply ordered_iff_pairwise.mpr
  refine (hsorted.and hapart).imp ?_
  intro a b hab
  obtain ⟨hstart, hab⟩ := hab
  have := b.nonempty
  simp only [byStart, Apart] at hstart hab
  omega

theorem ordered_mergeStep {merged rest : List ClockRange} {item : ClockRange}
    (h : Ordered (merged ++ item :: rest)) : Ordered (mergeStep merged item ++ rest) := by
  obtain ⟨rfl, hstep⟩ | ⟨init, last, rfl, ⟨-, hstep⟩ | ⟨-, joined, hstart, hnext, -, hstep⟩⟩ :=
    mergeStep_cases merged item
  · rw [hstep]
    exact h
  · rw [hstep]
    simpa using h
  · rw [hstep]
    rw [ordered_iff_pairwise] at h ⊢
    simp only [List.append_assoc, List.cons_append, List.nil_append, List.pairwise_append,
      List.pairwise_cons, List.mem_cons, forall_eq_or_imp] at h ⊢
    rw [hstart, hnext]
    exact ⟨h.1, ⟨h.2.1.2.1, h.2.1.2.2⟩, fun q hq => ⟨(h.2.2 q hq).1, (h.2.2 q hq).2.2⟩⟩

theorem ordered_foldl_mergeStep {ranges merged : List ClockRange} (h : Ordered (merged ++ ranges)) :
    Ordered (ranges.foldl mergeStep merged) := by
  induction ranges generalizing merged with
  | nil => simpa using h
  | cons r ranges ih => exact ih (ordered_mergeStep h)

/-- Adding a range never fails the order check. -/
theorem addRange_ok (s : ClockState) (r : ClockRange) : ∃ s', s.addRange r = .ok s' := by
  have hordered : Ordered (((spliced s.ranges r).insertionSort byStart).foldl mergeStep []) :=
    ordered_foldl_mergeStep (ordered_insertionSort (spliced_apart s.ordered r))
  rw [addRange_eq, ClockState.withRanges, dif_pos hordered]
  exact ⟨_, rfl⟩

theorem addRange_inv {s s' : ClockState} {r : ClockRange} (h : s.addRange r = .ok s') :
    s'.ranges = ((spliced s.ranges r).insertionSort byStart).foldl mergeStep [] ∧
      s'.intent = s.intent ∧ s'.anchor = s.anchor ∧
      s'.causalUncertainty = s.causalUncertainty := by
  rw [addRange_eq, ClockState.withRanges] at h
  split at h
  · obtain rfl := Except.ok.inj h
    exact ⟨rfl, rfl, rfl, rfl⟩
  · simp at h

/-- Prior facts stay, and the new ones go to the uncovered sequences of the range. -/
theorem addRange_evidenceAt {s s' : ClockState} {r : ClockRange} (h : s.addRange r = .ok s')
    (x : ℕ) (e : Evidence) :
    EvidenceAt s'.ranges x e ↔ EvidenceAt s.ranges x e ∨
      (r.span.Contains x ∧ ¬ Covered s.ranges x ∧ evidence r = e) := by
  rw [(addRange_inv h).1, evidenceAt_foldl_mergeStep,
    evidenceAt_perm (List.perm_insertionSort byStart _), spliced, evidenceAt_append,
    evidenceAt_filterMap_over, covers_cutAll, ← covered_iff_covers]
  simp [EvidenceAt, Covers, and_assoc]

/-- The pointwise meaning of `addRange`. -/
theorem addRange_evidenceOf {s s' : ClockState} {r : ClockRange} (h : s.addRange r = .ok s')
    (x : ℕ) :
    evidenceOf s'.ranges x = match evidenceOf s.ranges x with
      | some e => some e
      | none => if r.span.Contains x then some (evidence r) else none := by
  have hat := addRange_evidenceAt h x
  cases hprior : evidenceOf s.ranges x with
  | some e =>
    have he := (evidenceOf_eq_some s.ordered).mp hprior
    exact (evidenceOf_eq_some s'.ordered).mpr ((hat e).mpr (.inl he))
  | none =>
    have hfree := evidenceOf_eq_none.mp hprior
    by_cases hx : r.span.Contains x
    · simp only [if_pos hx]
      exact (evidenceOf_eq_some s'.ordered).mpr ((hat _).mpr (.inr ⟨hx, hfree, rfl⟩))
    · simp only [if_neg hx]
      apply evidenceOf_eq_none.mpr
      intro hcovered
      obtain ⟨e, he⟩ := hcovered
      rcases (hat e).mp he with he | ⟨hin, -⟩
      · exact hfree ⟨e, he⟩
      · exact hx hin

/-- No range of the list continues the one before it. -/
def Merged (ranges : List ClockRange) : Prop :=
  ranges.IsChain (fun left right => ¬ Continues left right)

theorem merged_mergeStep {merged : List ClockRange} {item : ClockRange} (h : Merged merged) :
    Merged (mergeStep merged item) := by
  obtain ⟨rfl, hstep⟩ |
    ⟨init, last, rfl, ⟨hsep, hstep⟩ | ⟨hcont, joined, hstart, -, he, hstep⟩⟩ :=
    mergeStep_cases merged item
  · rw [hstep]
    exact List.isChain_singleton item
  · rw [hstep, show init ++ [last, item] = init ++ [last] ++ [item] by simp]
    apply List.isChain_append.mpr
    refine ⟨h, List.isChain_singleton item, ?_⟩
    intro p hp q hq
    simp only [List.getLast?_append, List.getLast?_singleton, Option.some_or, Option.mem_def,
      Option.some.injEq, List.head?_cons] at hp hq
    rw [← hp, ← hq]
    exact hsep
  · -- The joined range starts where the last one did and has its facts.
    rw [hstep]
    obtain ⟨hinit, -, hedge⟩ := List.isChain_append.mp h
    apply List.isChain_append.mpr
    refine ⟨hinit, List.isChain_singleton joined, ?_⟩
    intro p hp q hq
    simp only [List.head?_cons, Option.mem_def, Option.some.injEq] at hq
    obtain rfl := hq
    have hlast := hedge p hp last (by simp)
    unfold Continues at hlast ⊢
    rw [hstart, he, ← hcont.2]
    exact hlast

theorem merged_foldl_mergeStep {ranges merged : List ClockRange} (h : Merged merged) :
    Merged (ranges.foldl mergeStep merged) := by
  induction ranges generalizing merged with
  | nil => exact h
  | cons r ranges ih => exact ih (merged_mergeStep h)

/-- Merging leaves a merged list as it is. -/
theorem foldl_mergeStep_eq {ranges merged : List ClockRange} (h : Merged (merged ++ ranges)) :
    ranges.foldl mergeStep merged = merged ++ ranges := by
  induction ranges generalizing merged with
  | nil => simp
  | cons r ranges ih =>
    have hstep : mergeStep merged r = merged ++ [r] := by
      obtain ⟨rfl, hstep⟩ | ⟨init, last, rfl, ⟨-, hstep⟩ | ⟨hcont, -⟩⟩ := mergeStep_cases merged r
      · simpa using hstep
      · simpa using hstep
      · have hedge := (List.isChain_append.mp h).2.2 last (by simp) r (by simp)
        exact absurd hcont hedge
    rw [List.foldl_cons, hstep, ih (by simpa using h)]
    simp

/-- Adding the same range again changes nothing. -/
theorem addRange_again {s s' : ClockState} {r : ClockRange} (h : s.addRange r = .ok s') :
    s'.addRange r = .ok s' := by
  have hmerged : Merged s'.ranges := by
    rw [(addRange_inv h).1]
    exact merged_foldl_mergeStep List.isChain_nil
  have hfull : ∀ x, r.span.Contains x → Covered s'.ranges x := by
    intro x hx
    by_cases hprior : Covered s.ranges x
    · obtain ⟨e, he⟩ := hprior
      exact ⟨e, (addRange_evidenceAt h x e).mpr (.inl he)⟩
    · exact ⟨evidence r, (addRange_evidenceAt h x _).mpr (.inr ⟨hx, hprior, rfl⟩)⟩
  have hpieces : (cutAll [r.span] (s'.ranges.map ClockRange.span)).filterMap r.over = [] := by
    apply List.eq_nil_iff_forall_not_mem.mpr
    intro p hp
    have hstart : EvidenceAt ((cutAll [r.span] (s'.ranges.map ClockRange.span)).filterMap r.over)
        p.startSequence (evidence p) := ⟨p, hp, ⟨le_rfl, p.nonempty⟩, rfl⟩
    have hcut := covers_cutAll.mp (evidenceAt_filterMap_over.mp hstart).1
    have hin : r.span.Contains p.startSequence := by simpa [Covers] using hcut.1
    exact hcut.2 ((covered_iff_covers _ _).mp (hfull _ hin))
  have hsorted : s'.ranges.Pairwise byStart := by
    refine (ordered_iff_pairwise.mp s'.ordered).imp ?_
    intro a b hab
    exact a.nonempty.le.trans hab
  have hsame : ((spliced s'.ranges r).insertionSort byStart).foldl mergeStep [] = s'.ranges := by
    rw [spliced, hpieces, List.append_nil, hsorted.insertionSort_eq, foldl_mergeStep_eq]
    · simp
    · exact hmerged
  have hordered := s'.ordered
  rw [← hsame] at hordered
  rw [addRange_eq, ClockState.withRanges, dif_pos hordered]
  simp only [hsame]

end ClockEvidence
