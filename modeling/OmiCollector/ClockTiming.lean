import OmiCollector.ClockEvidence

/-! What the clock state says about one sequence number, and how each operation changes it.
Evidence once given for a sequence is never replaced. -/
namespace ClockTiming

open SpanCover ClockModel ClockEvidence

/-- Some range gives this sequence the offset `o`; `none` is an explicitly unknown offset. -/
def TimedAt (ranges : List ClockRange) (x : ℕ) (o : Option ℚ) : Prop :=
  ∃ r ∈ ranges, r.span.Contains x ∧ r.offsetSeconds = o

/-- Some range covers this sequence. -/
def Timed (ranges : List ClockRange) (x : ℕ) : Prop := ∃ o, TimedAt ranges x o

theorem timedAt_iff {ranges : List ClockRange} {x : ℕ} {o : Option ℚ} :
    TimedAt ranges x o ↔ ∃ e, EvidenceAt ranges x e ∧ e.offsetSeconds = o := by
  constructor
  · intro h
    obtain ⟨r, hr, hx, ho⟩ := h
    exact ⟨evidence r, ⟨r, hr, hx, rfl⟩, ho⟩
  · intro h
    obtain ⟨e, ⟨r, hr, hx, rfl⟩, ho⟩ := h
    exact ⟨r, hr, hx, ho⟩

theorem timed_iff_covered {ranges : List ClockRange} {x : ℕ} :
    Timed ranges x ↔ Covered ranges x := by
  simp only [Timed, Covered, timedAt_iff]
  constructor
  · intro h
    obtain ⟨o, e, he, -⟩ := h
    exact ⟨e, he⟩
  · intro h
    obtain ⟨e, he⟩ := h
    exact ⟨_, e, he, rfl⟩

theorem timedAt_perm {xs ys : List ClockRange} (h : xs.Perm ys) {x : ℕ} {o : Option ℚ} :
    TimedAt xs x o ↔ TimedAt ys x o := by
  simp only [TimedAt, h.mem_iff]

/-- Only ranges change, and only sequences without evidence gain any. -/
theorem addRange_spec {s s' : ClockState} {r : ClockRange} (h : s.addRange r = .ok s') :
    s'.intent = s.intent ∧ s'.anchor = s.anchor ∧
      s'.causalUncertainty = s.causalUncertainty ∧
      ∀ x o, TimedAt s'.ranges x o ↔ TimedAt s.ranges x o ∨
        (r.span.Contains x ∧ ¬ Timed s.ranges x ∧ r.offsetSeconds = o) := by
  obtain ⟨-, hintent, hanchor, hcausal⟩ := addRange_inv h
  refine ⟨hintent, hanchor, hcausal, fun x o => ?_⟩
  simp only [timedAt_iff, timed_iff_covered, addRange_evidenceAt h]
  constructor
  · intro hx
    obtain ⟨e, he | ⟨hin, hfree, rfl⟩, ho⟩ := hx
    · exact .inl ⟨e, he, ho⟩
    · exact .inr ⟨hin, hfree, ho⟩
  · intro hx
    rcases hx with ⟨e, he, ho⟩ | ⟨hin, hfree, ho⟩
    · exact ⟨e, .inl he, ho⟩
    · exact ⟨evidence r, .inr ⟨hin, hfree, rfl⟩, ho⟩

/-- Ordered ranges give a sequence at most one offset. -/
theorem Ordered.timedAt_unique {ranges : List ClockRange} (h : Ordered ranges) {x : ℕ}
    {o o' : Option ℚ} (ho : TimedAt ranges x o) (ho' : TimedAt ranges x o') : o = o' := by
  obtain ⟨e, he, rfl⟩ := timedAt_iff.mp ho
  obtain ⟨e', he', rfl⟩ := timedAt_iff.mp ho'
  rw [evidenceAt_unique h he he']

/-- The cursor loop succeeds only over explicitly unknown sequences. -/
theorem unknownCoverage_spec {stop : ℕ} {ranges : List ClockRange} {cursor : ℕ}
    (h : unknownCoverage stop ranges cursor = .ok ()) :
    ∀ x, cursor ≤ x → x < stop → TimedAt ranges x none := by
  induction ranges generalizing cursor with
  | nil => simp [unknownCoverage] at h
  | cons r ranges ih =>
    intro x hx hstop
    have hrest : ∀ {c}, unknownCoverage stop ranges c = .ok () → c ≤ x →
        TimedAt (r :: ranges) x none := by
      intro c hc hcx
      obtain ⟨q, hq, hqx, ho⟩ := ih hc x hcx hstop
      exact ⟨q, List.mem_cons_of_mem r hq, hqx, ho⟩
    rw [unknownCoverage] at h
    split at h
    · exact hrest h hx
    · split at h
      · simp at h
      · split at h
        · simp at h
        · rename_i hfuture hstart hknown
          have hunknown : r.offsetSeconds = none := by simpa using hknown
          by_cases hin : x < r.nextSequence
          · refine ⟨r, List.mem_cons_self, ⟨?_, hin⟩, hunknown⟩
            simp only [ClockRange.span]
            omega
          · split at h
            · omega
            · exact hrest h (by omega)

theorem requireUnknownCoverage_spec {start stop : ℕ} {ranges : List ClockRange}
    (h : requireUnknownCoverage start stop ranges = .ok ()) :
    ∀ x, start ≤ x → x < stop → TimedAt ranges x none := by
  intro x hx hstop
  have hsorted := unknownCoverage_spec h x hx hstop
  exact (timedAt_perm (List.perm_insertionSort _ _)).mp hsorted

/-- One operation's effect on timing: evidence is kept, and new evidence lies below `bound`. -/
structure Extends (s s' : ClockState) (bound : ℕ) : Prop where
  kept : ∀ x o, TimedAt s.ranges x o → TimedAt s'.ranges x o
  fresh : ∀ x o, TimedAt s'.ranges x o → TimedAt s.ranges x o ∨ x < bound

theorem Extends.refl (s : ClockState) (bound : ℕ) : Extends s s bound :=
  ⟨fun _ _ h => h, fun _ _ h => .inl h⟩

theorem Extends.trans {s t u : ClockState} {bound : ℕ} (h : Extends s t bound)
    (h' : Extends t u bound) : Extends s u bound := by
  refine ⟨fun x o hx => h'.kept x o (h.kept x o hx), fun x o hx => ?_⟩
  rcases h'.fresh x o hx with hx | hx
  · exact h.fresh x o hx
  · exact .inr hx

theorem addRange_extends {s s' : ClockState} {r : ClockRange} {bound : ℕ}
    (h : s.addRange r = .ok s') (hr : r.nextSequence ≤ bound) : Extends s s' bound := by
  obtain ⟨-, -, -, htimed⟩ := addRange_spec h
  refine ⟨fun x o hx => (htimed x o).mpr (.inl hx), fun x o hx => ?_⟩
  rcases (htimed x o).mp hx with hx | ⟨hx, -⟩
  · exact .inl hx
  · exact .inr (lt_of_lt_of_le hx.2 hr)

theorem make_spec {a n : ℕ} {offset uncertainty : Option ℚ} {c : Confidence} {id : String}
    {r : ClockRange} (h : ClockRange.make a n offset uncertainty c id = .ok r) :
    r.startSequence = a ∧ r.nextSequence = n ∧ r.offsetSeconds = offset := by
  unfold ClockRange.make at h
  split at h
  · obtain rfl := Except.ok.inj h
    exact ⟨rfl, rfl, rfl⟩
  · simp at h

theorem bind_eq_ok {ε α β : Type} {x : Except ε α} {f : α → Except ε β} {b : β}
    (h : x >>= f = .ok b) : ∃ a, x = .ok a ∧ f a = .ok b := by
  cases x with
  | error e => cases h
  | ok a => exact ⟨a, rfl, h⟩

theorem observeRange_spec {s s' : ClockState} {info : RingInfo} {offset tolerance : ℚ}
    {id : String} (h : s.observeRange info offset id tolerance = .ok s') :
    s'.intent = s.intent ∧ s'.causalUncertainty = s.causalUncertainty ∧
      Extends s s' info.writeSequence := by
  have hadd : ∀ {r : ClockRange}, s.addRange r = .ok s' → r.nextSequence = info.writeSequence →
      s'.intent = s.intent ∧ s'.causalUncertainty = s.causalUncertainty ∧
        Extends s s' info.writeSequence := by
    intro r hr hnext
    obtain ⟨hintent, -, hcausal, -⟩ := addRange_spec hr
    exact ⟨hintent, hcausal, addRange_extends hr hnext.le⟩
  have hsame : (pure s : Except String ClockState) = .ok s' → s'.intent = s.intent ∧
      s'.causalUncertainty = s.causalUncertainty ∧ Extends s s' info.writeSequence := by
    intro hs
    obtain rfl := Except.ok.inj hs
    exact ⟨rfl, rfl, .refl s _⟩
  unfold ClockState.observeRange at h
  cases hanchor : s.anchor with
  | none =>
    rw [hanchor] at h
    simp only at h
    split at h
    · obtain ⟨r, hr, hstate⟩ := bind_eq_ok h
      exact hadd hstate (make_spec hr).2.1
    · exact hsame h
  | some anchor =>
    rw [hanchor] at h
    simp only at h
    split at h
    · obtain ⟨r, hr, hstate⟩ := bind_eq_ok h
      exact hadd hstate (make_spec hr).2.1
    · exact hsame h

/-- An observation keeps the intent and the uncertain intervals. -/
theorem observe_spec {s s' : ClockState} {info : RingInfo} {offset uncertainty tolerance : ℚ}
    {id : String} (h : s.observe info offset uncertainty id tolerance = .ok s') :
    s'.intent = s.intent ∧ s'.causalUncertainty = s.causalUncertainty ∧
      Extends s s' info.writeSequence := by
  obtain ⟨state, hstate, h⟩ := bind_eq_ok h
  obtain ⟨anchor, -, h⟩ := bind_eq_ok h
  have hspec := observeRange_spec hstate
  split at h
  · obtain rfl := Except.ok.inj h
    exact ⟨hspec.1, hspec.2.1, ⟨hspec.2.2.kept, hspec.2.2.fresh⟩⟩
  · obtain rfl := Except.ok.inj h
    exact hspec

theorem mem_insertInterval {i j : ℕ × ℕ} {intervals : List (ℕ × ℕ)} :
    j ∈ insertInterval i intervals ↔ j = i ∨ j ∈ intervals := by
  unfold insertInterval
  rw [List.mem_insertionSort, List.mem_dedup, List.mem_cons]

theorem foldlM_addRange_spec {s s' : ClockState} {ranges : List ClockRange} {bound : ℕ}
    (h : ranges.foldlM ClockState.addRange s = .ok s')
    (hr : ∀ r ∈ ranges, r.nextSequence ≤ bound) :
    s'.causalUncertainty = s.causalUncertainty ∧ Extends s s' bound := by
  induction ranges generalizing s with
  | nil =>
    obtain rfl := Except.ok.inj h
    exact ⟨rfl, .refl s bound⟩
  | cons r ranges ih =>
    rw [List.foldlM_cons] at h
    obtain ⟨t, ht, h⟩ := bind_eq_ok h
    obtain ⟨-, -, hcausal, -⟩ := addRange_spec ht
    obtain ⟨hcausal', hext⟩ := ih h (fun q hq => hr q (List.mem_cons_of_mem r hq))
    exact ⟨hcausal'.trans hcausal, (addRange_extends ht (hr r List.mem_cons_self)).trans hext⟩

/-- Finishing closes the intent over sequences that stay explicitly unknown. -/
theorem finishIntent_spec {s s' : ClockState} {id : String} {ranges : List ClockRange}
    {bound : ℕ} (h : s.finishIntent id ranges = .ok s')
    (hr : ∀ r ∈ ranges, r.nextSequence ≤ bound) :
    ∃ intent a, s.intent = some intent ∧ intent.phase = .uncertain ∧
      intent.writeSequenceAfter = some a ∧ s'.intent = none ∧
      (intent.writeSequenceBefore, a) ∈ s'.causalUncertainty ∧
      (∀ i ∈ s.causalUncertainty, i ∈ s'.causalUncertainty) ∧
      (∀ x, intent.writeSequenceBefore ≤ x → x < a → TimedAt s'.ranges x none) ∧
      Extends s s' bound := by
  unfold ClockState.finishIntent at h
  cases hintent : s.intent with
  | none => simp [hintent] at h
  | some intent =>
    simp only [hintent] at h
    split at h
    · simp at h
    · rename_i hphase
      push Not at hphase
      cases hafter : intent.writeSequenceAfter with
      | none => simp [hafter] at h
      | some a =>
        simp only [hafter] at h
        obtain ⟨_, -, h⟩ := bind_eq_ok h
        obtain ⟨completed, hcompleted, h⟩ := bind_eq_ok h
        obtain ⟨_, hcheck, h⟩ := bind_eq_ok h
        obtain rfl := Except.ok.inj h
        obtain ⟨hcausal, hext⟩ := foldlM_addRange_spec hcompleted hr
        refine ⟨intent, a, rfl, hphase.2, hafter, rfl, mem_insertInterval.mpr (.inl rfl), ?_, ?_,
          hext.kept, hext.fresh⟩
        · intro i hi
          exact mem_insertInterval.mpr (.inr (hcausal ▸ hi))
        · intro x hx hxa
          unfold checkBoundary at hcheck
          rw [if_pos (by omega)] at hcheck
          exact requireUnknownCoverage_spec hcheck x hx hxa

/-- Marking records the boundary once and keeps everything else. -/
theorem markUncertain_spec {s s' : ClockState} {id : String} {after : Option ℕ}
    (h : s.markUncertain id after = .ok s') :
    ∃ intent intent', s.intent = some intent ∧ s'.intent = some intent' ∧
      intent'.writeSequenceBefore = intent.writeSequenceBefore ∧ intent'.phase = .uncertain ∧
      intent'.writeSequenceAfter = after ∧
      (intent.phase = .uncertain → intent.writeSequenceAfter.isSome →
        intent.writeSequenceAfter = after) ∧
      s'.ranges = s.ranges ∧ s'.causalUncertainty = s.causalUncertainty := by
  unfold ClockState.markUncertain at h
  cases hintent : s.intent with
  | none => simp [hintent] at h
  | some intent =>
    simp only [hintent] at h
    split at h
    · simp at h
    · split at h
      · rename_i hset
        split at h
        · rename_i hsame
          obtain rfl := Except.ok.inj h
          exact ⟨intent, intent, rfl, hintent, rfl, hset.1, hsame, fun _ _ => hsame, rfl, rfl⟩
        · simp at h
      · rename_i hunset
        obtain ⟨marked, hmarked, h⟩ := bind_eq_ok h
        obtain rfl := Except.ok.inj h
        unfold ClockIntent.make at hmarked
        split at hmarked
        · obtain rfl := Except.ok.inj hmarked
          refine ⟨intent, _, rfl, rfl, rfl, rfl, rfl, ?_, rfl, rfl⟩
          intro hphase hsome
          exact absurd ⟨hphase, hsome⟩ hunset
        · simp at hmarked

end ClockTiming
