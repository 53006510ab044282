import OmiCollector.ClockHistory

/-! Finishing a clock write. The facts of a sequence afterwards are those of the first range that
contains it, stored ranges before supplied ones and these in tuple order; the two coverage checks
together admit exactly the tuples that leave the written interval explicitly unknown. -/
namespace ClockBoundary

open SpanCover ClockModel ClockEvidence ClockTiming ClockHistory

theorem evidenceOf_append (xs ys : List ClockRange) (x : ℕ) :
    evidenceOf (xs ++ ys) x = (evidenceOf xs x).or (evidenceOf ys x) := by
  simp only [evidenceOf, List.find?_append]
  cases xs.find? fun r => decide (r.span.Contains x) <;> simp

/-- Ranges are added in tuple order, each to the sequences still uncovered. -/
theorem foldlM_addRange_evidenceOf {s s' : ClockState} {ranges : List ClockRange}
    (h : ranges.foldlM ClockState.addRange s = .ok s') (x : ℕ) :
    evidenceOf s'.ranges x = evidenceOf (s.ranges ++ ranges) x := by
  induction ranges generalizing s with
  | nil =>
    obtain rfl := Except.ok.inj h
    simp
  | cons r ranges ih =>
    rw [List.foldlM_cons] at h
    obtain ⟨t, ht, h⟩ := bind_eq_ok h
    rw [ih h, evidenceOf_append, evidenceOf_append, addRange_evidenceOf ht]
    cases hprior : evidenceOf s.ranges x with
    | some e => rfl
    | none =>
      by_cases hx : r.span.Contains x
      · simp [evidenceOf, hx]
      · simp [evidenceOf, hx]

theorem finishIntent_evidenceOf {s s' : ClockState} {id : String} {ranges : List ClockRange}
    (h : s.finishIntent id ranges = .ok s') (x : ℕ) :
    evidenceOf s'.ranges x = evidenceOf (s.ranges ++ ranges) x := by
  obtain ⟨-, -, completed, -, -, hfold, hranges, -⟩ := finishIntent_inv h
  rw [hranges]
  exact foldlM_addRange_evidenceOf hfold x

/-- The first check of `finish_intent`: the supplied ranges alone cover the interval. -/
theorem finishIntent_supplied {s s' : ClockState} {id : String} {ranges : List ClockRange}
    {intent : ClockIntent} {a : ℕ} (hintent : s.intent = some intent)
    (hafter : intent.writeSequenceAfter = some a) (h : s.finishIntent id ranges = .ok s') {x : ℕ}
    (hx : intent.writeSequenceBefore ≤ x) (hxa : x < a) : TimedAt ranges x none := by
  unfold ClockState.finishIntent at h
  simp only [hintent, hafter] at h
  split at h
  · simp at h
  obtain ⟨_, hcheck, -⟩ := bind_eq_ok h
  unfold checkBoundary at hcheck
  rw [if_pos (by omega)] at hcheck
  exact requireUnknownCoverage_spec hcheck x hx hxa

theorem exists_bound (ranges : List ClockRange) :
    ∃ bound, ∀ r ∈ ranges, r.nextSequence ≤ bound := by
  induction ranges with
  | nil => exact ⟨0, by simp⟩
  | cons r ranges ih =>
    obtain ⟨bound, hbound⟩ := ih
    refine ⟨max r.nextSequence bound, fun q hq => ?_⟩
    rcases List.mem_cons.mp hq with rfl | hq
    · exact le_max_left _ _
    · exact (hbound q hq).trans (le_max_right _ _)

theorem evidenceOf_ne_none_of_timedAt {ranges : List ClockRange} {x : ℕ} {o : Option ℚ}
    (h : TimedAt ranges x o) : evidenceOf ranges x ≠ none := by
  rw [ne_eq, evidenceOf_eq_none, not_not]
  exact timed_iff_covered.mp ⟨o, h⟩

/-- Finishing a clock write keeps its interval unknown, and refuses every tuple that would not. -/
theorem finish_intent_unknown {s : ClockState} {intent : ClockIntent} {a : ℕ}
    (hintent : s.intent = some intent) (hafter : intent.writeSequenceAfter = some a)
    (operationId : String) (ranges : List ClockRange) :
    (∀ s', s.finishIntent operationId ranges = .ok s' →
      (∀ x, intent.writeSequenceBefore ≤ x → x < a →
        (∃ r ∈ s'.ranges, r.span.Contains x) ∧
          ∀ r ∈ s'.ranges, r.span.Contains x → r.offsetSeconds = none) ∧
      (intent.writeSequenceBefore, a) ∈ s'.causalUncertainty ∧ s'.intent = none ∧
      (∀ x e, evidenceOf s.ranges x = some e → evidenceOf s'.ranges x = some e) ∧
      (∀ x, evidenceOf s.ranges x = none → evidenceOf s'.ranges x = evidenceOf ranges x)) ∧
    (∀ x, intent.writeSequenceBefore ≤ x → x < a →
      (∃ e, evidenceOf (s.ranges ++ ranges) x = some e ∧ e.offsetSeconds ≠ none) ∨
        evidenceOf (s.ranges ++ ranges) x = none ∨ evidenceOf ranges x = none →
      ∃ message, s.finishIntent operationId ranges = .error message) := by
  have hunknown : ∀ s', s.finishIntent operationId ranges = .ok s' → ∀ x,
      intent.writeSequenceBefore ≤ x → x < a → TimedAt s'.ranges x none := by
    intro s' h
    obtain ⟨bound, hbound⟩ := exists_bound ranges
    obtain ⟨intent', a', hintent', -, hafter', -, -, -, htimed, -⟩ := finishIntent_spec h hbound
    obtain rfl : intent' = intent := by simpa using hintent'.symm.trans hintent
    obtain rfl : a' = a := by simpa using hafter'.symm.trans hafter
    exact htimed
  constructor
  · intro s' h
    obtain ⟨intent', a', completed, hintent', hafter', -, -, hnone, -, hcausal⟩ := finishIntent_inv h
    obtain rfl : intent' = intent := by simpa using hintent'.symm.trans hintent
    obtain rfl : a' = a := by simpa using hafter'.symm.trans hafter
    refine ⟨fun x hx hxa => ⟨?_, fun r hr hrx => ?_⟩, ?_, hnone, fun x e he => ?_, fun x hfree => ?_⟩
    · obtain ⟨r, hr, hrx, -⟩ := hunknown s' h x hx hxa
      exact ⟨r, hr, hrx⟩
    · exact Ordered.timedAt_unique s'.ordered ⟨r, hr, hrx, rfl⟩ (hunknown s' h x hx hxa)
    · rw [hcausal]
      exact mem_insertInterval.mpr (.inl rfl)
    · rw [finishIntent_evidenceOf h, evidenceOf_append, he]
      rfl
    · rw [finishIntent_evidenceOf h, evidenceOf_append, hfree]
      rfl
  · intro x hx hxa hbad
    cases h : s.finishIntent operationId ranges with
    | error message => exact ⟨message, rfl⟩
    | ok s' =>
      have htimed := hunknown s' h x hx hxa
      have howned : ∃ e, evidenceOf (s.ranges ++ ranges) x = some e ∧ e.offsetSeconds = none := by
        obtain ⟨e, he, hnone⟩ := timedAt_iff.mp htimed
        refine ⟨e, ?_, hnone⟩
        rw [← finishIntent_evidenceOf h]
        exact (evidenceOf_eq_some s'.ordered).mpr he
      obtain ⟨e, he, hnone⟩ := howned
      rcases hbad with ⟨e', he', hknown⟩ | hhole | hhole
      · obtain rfl : e = e' := by simpa using he.symm.trans he'
        exact absurd hnone hknown
      · rw [hhole] at he
        exact absurd he (by simp)
      · exact absurd hhole
          (evidenceOf_ne_none_of_timedAt (finishIntent_supplied hintent hafter h hx hxa))

/-- A write over the sequences from 3 to 5 whose boundary is known. -/
def writtenState : ClockState where
  ranges := []
  intent := some ⟨"write", .uncertain, 0, 0, 0, 3, some 5, by decide⟩
  anchor := none
  causalUncertainty := []
  ordered := by decide

/-- Overlapping ranges are settled by tuple order: with the known one first, the write cannot be
finished. -/
theorem finish_intent_unknown_order :
    let unknown : ClockRange := ⟨2, 7, none, none, .unknown, "ring", by decide⟩
    let known : ClockRange := ⟨4, 6, some 1, some 0, .approximate, "host", by decide⟩
    (∃ s', writtenState.finishIntent "write" [unknown, known] = .ok s' ∧
      (3, 5) ∈ s'.causalUncertainty) ∧
    ∃ message, writtenState.finishIntent "write" [known, unknown] = .error message := by
  intro unknown known
  refine ⟨?_, ?_⟩
  · have hok : (writtenState.finishIntent "write" [unknown, known]).isOk = true := by
      decide +kernel
    cases h : writtenState.finishIntent "write" [unknown, known] with
    | error message =>
      rw [h] at hok
      exact absurd hok (by simp [Except.isOk, Except.toBool])
    | ok s' =>
      exact ⟨s', rfl, ((finish_intent_unknown rfl rfl "write" [unknown, known]).1 s' h).2.1⟩
  · refine (finish_intent_unknown rfl rfl "write" [known, unknown]).2 4 (by decide) (by decide)
      (.inl ⟨evidence known, by decide +kernel, by decide⟩)

end ClockBoundary
