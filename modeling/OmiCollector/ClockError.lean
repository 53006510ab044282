import Mathlib.Data.Real.Basic
import Mathlib.Order.Monotone.Basic
import Mathlib.Tactic.Linarith
import OmiCollector.ClockHistory

/-! How far the offset of a mapped range lies from the true offset of the pendant clock.

A range takes offset and uncertainty from the older of two samples and adds the change that the
newer sample shows. What the newer sample itself leaves open is not added, so the stated
uncertainty bounds the error up to the excess of the newer uncertainty over the older one. The
excess is that of the sample that closed the range; no other sample of the run matters. -/
namespace ClockError

open SpanCover ClockModel ClockEvidence ClockHistory
open ClockTiming (bind_eq_ok)

/-- The arguments of one `observe` call. -/
structure Observation where
  info : RingInfo
  offsetSeconds : ℚ
  uncertaintySeconds : ℚ
  sourceId : String
  toleranceSeconds : ℚ

def Observation.writeSequence (o : Observation) : ℕ := o.info.writeSequence

def observed (s : ClockState) (o : Observation) : Except String ClockState :=
  s.observe o.info o.offsetSeconds o.uncertaintySeconds o.sourceId o.toleranceSeconds

/-- The state after samples that are accepted one after the other from the empty state. A refused
sample leaves the state. -/
inductive Observed : List Observation → ClockState → Prop where
  | nil : Observed [] empty
  | snoc {samples : List Observation} {s s' : ClockState} {o : Observation}
      (h : Observed samples s) (hstep : observed s o = .ok s') : Observed (samples ++ [o]) s'

/-- In state `s` the sample `o` closes a mapped range over `x` that starts at the anchor `a`. -/
structure Closes (s : ClockState) (o : Observation) (a : ClockAnchor) (x : ℕ) : Prop where
  anchor : s.anchor = some a
  inside : Span.Contains ⟨a.sequenceFrontier, o.writeSequence⟩ x
  continues : |o.offsetSeconds - a.offsetSeconds| ≤ o.toleranceSeconds

/-- The uncertainty of a range from the anchor `a` to the sample `o`. -/
def statedUncertainty (a : ClockAnchor) (o : Observation) : ℚ :=
  a.uncertaintySeconds + |o.offsetSeconds - a.offsetSeconds|

/-- How much less certain the sample is than the anchor, if at all. -/
def excess (a : ClockAnchor) (o : Observation) : ℚ := max 0 (o.uncertaintySeconds - a.uncertaintySeconds)

def Nondecreasing (samples : List Observation) : Prop :=
  samples.IsChain fun o o' => o.writeSequence ≤ o'.writeSequence

/-- A true offset within the uncertainty of every sample, monotone from each sample to the next. -/
structure TrueOffset (T : ℕ → ℝ) (samples : List Observation) : Prop where
  within : ∀ o ∈ samples, |(o.offsetSeconds : ℝ) - T o.writeSequence| ≤ o.uncertaintySeconds
  monotone : samples.IsChain fun o o' =>
    MonotoneOn T (Set.Icc o.writeSequence o'.writeSequence) ∨
      AntitoneOn T (Set.Icc o.writeSequence o'.writeSequence)

/-- Facts with a known offset at `x` come from one sample of the run, which closed a range over `x`;
the true offset lies within the stated uncertainty and the excess of that sample. -/
def Explained (T : ℕ → ℝ) (samples : List Observation) (x : ℕ) (facts : Evidence) : Prop :=
  ∀ offset, facts.offsetSeconds = some offset → ∃ before o after s a,
    samples = before ++ o :: after ∧ Observed before s ∧ Closes s o a x ∧
      offset = a.offsetSeconds ∧ facts.uncertaintySeconds = some (statedUncertainty a o) ∧
      |(offset : ℝ) - T x| ≤ statedUncertainty a o + excess a o

/-- What is true of a state that was reached by `samples`. -/
structure Sampled (T : ℕ → ℝ) (samples : List Observation) (s : ClockState) : Prop where
  intent : s.intent = none
  anchor : ∀ a, s.anchor = some a → ∃ o, samples.getLast? = some o ∧
    a.sequenceFrontier = o.writeSequence ∧
    |(a.offsetSeconds : ℝ) - T a.sequenceFrontier| ≤ a.uncertaintySeconds
  ranges : ∀ x facts, EvidenceAt s.ranges x facts → Explained T samples x facts

theorem Explained.snoc {T : ℕ → ℝ} {samples : List Observation} {x : ℕ} {facts : Evidence}
    (h : Explained T samples x facts) (o : Observation) : Explained T (samples ++ [o]) x facts := by
  intro offset hoffset
  obtain ⟨before, closing, after, s, a, rfl, hrest⟩ := h offset hoffset
  exact ⟨before, closing, after ++ [o], s, a, by simp, hrest⟩

/-- Between two samples of a monotone offset the error is that of one of them. -/
theorem between_samples {T : ℕ → ℝ} {x w w' : ℕ} {a : ℝ} {b : ℝ} (hw : w ≤ x) (hw' : x ≤ w')
    (hT : MonotoneOn T (Set.Icc w w') ∨ AntitoneOn T (Set.Icc w w')) (hleft : |a - T w| ≤ b)
    (hright : |a - T w'| ≤ b) : |a - T x| ≤ b := by
  have hww : w ≤ w' := hw.trans hw'
  have hl : w ∈ Set.Icc w w' := ⟨le_rfl, hww⟩
  have hr : w' ∈ Set.Icc w w' := ⟨hww, le_rfl⟩
  have hx : x ∈ Set.Icc w w' := ⟨hw, hw'⟩
  rw [abs_le] at hleft hright ⊢
  rcases hT with hT | hT
  · have h1 := hT hl hx hw
    have h2 := hT hx hr hw'
    constructor <;> linarith [hleft.1, hleft.2, hright.1, hright.2]
  · have h1 := hT hl hx hw
    have h2 := hT hx hr hw'
    constructor <;> linarith [hleft.1, hleft.2, hright.1, hright.2]

theorem range_make {n m : ℕ} {offset uncertainty : Option ℚ} {c : Confidence} {id : String}
    {r : ClockRange} (h : ClockRange.make n m offset uncertainty c id = .ok r) :
    r.span = ⟨n, m⟩ ∧ evidence r = ⟨offset, uncertainty, c, id⟩ := by
  unfold ClockRange.make at h
  split at h
  · obtain rfl := Except.ok.inj h
    exact ⟨rfl, rfl⟩
  · cases h

/-- Within a range that a sample closes, the true offset lies within the stated uncertainty and the
excess of the sample. -/
theorem Closes.error_le {T : ℕ → ℝ} {s : ClockState} {o : Observation} {a : ClockAnchor} {x : ℕ}
    (h : Closes s o a x)
    (hanchor : |(a.offsetSeconds : ℝ) - T a.sequenceFrontier| ≤ a.uncertaintySeconds)
    (hwithin : |(o.offsetSeconds : ℝ) - T o.writeSequence| ≤ o.uncertaintySeconds)
    (hmono : MonotoneOn T (Set.Icc a.sequenceFrontier o.writeSequence) ∨
      AntitoneOn T (Set.Icc a.sequenceFrontier o.writeSequence)) :
    |(a.offsetSeconds : ℝ) - T x| ≤ statedUncertainty a o + excess a o := by
  have hexcess : (0 : ℝ) ≤ excess a o := by exact_mod_cast le_max_left _ _
  have hmore : (o.uncertaintySeconds : ℝ) ≤ a.uncertaintySeconds + excess a o := by
    have : o.uncertaintySeconds ≤ a.uncertaintySeconds + excess a o := by
      rw [excess]
      linarith [le_max_right 0 (o.uncertaintySeconds - a.uncertaintySeconds)]
    exact_mod_cast this
  have hstated : (statedUncertainty a o : ℝ) =
      a.uncertaintySeconds + |(o.offsetSeconds : ℝ) - a.offsetSeconds| := by
    rw [statedUncertainty]
    push_cast
    rfl
  -- Both ends of the range lie within the bound; the newer end by way of the change.
  apply between_samples h.inside.1 h.inside.2.le hmono
  · have := abs_nonneg ((o.offsetSeconds : ℝ) - a.offsetSeconds)
    linarith
  · have htri : |(a.offsetSeconds : ℝ) - T o.writeSequence| ≤
        |(a.offsetSeconds : ℝ) - o.offsetSeconds| +
          |(o.offsetSeconds : ℝ) - T o.writeSequence| := abs_sub_le _ _ _
    rw [abs_sub_comm (a.offsetSeconds : ℝ) o.offsetSeconds] at htri
    linarith

/-- A range that `observe` adds spans from the anchor to the sample. -/
theorem observeRange_explained {T : ℕ → ℝ} {samples : List Observation} {s s' : ClockState}
    {o : Observation} (hrun : Observed samples s) (hs : Sampled T samples s)
    (hwithin : |(o.offsetSeconds : ℝ) - T o.writeSequence| ≤ o.uncertaintySeconds)
    (hmono : ∀ prior ∈ samples.getLast?, MonotoneOn T (Set.Icc prior.writeSequence o.writeSequence) ∨
      AntitoneOn T (Set.Icc prior.writeSequence o.writeSequence))
    (h : s.observeRange o.info o.offsetSeconds o.sourceId o.toleranceSeconds = .ok s') :
    s'.intent = none ∧ ∀ x facts, EvidenceAt s'.ranges x facts →
      Explained T (samples ++ [o]) x facts := by
  unfold ClockState.observeRange at h
  cases hanchor : s.anchor with
  | none =>
    simp only [hanchor] at h
    split at h
    · obtain ⟨r, hr, hadd⟩ := bind_eq_ok h
      refine ⟨(addRange_inv hadd).2.1.trans hs.intent, fun x facts hfacts => ?_⟩
      rcases (addRange_evidenceAt hadd x facts).mp hfacts with hold | ⟨-, -, rfl⟩
      · exact (hs.ranges x facts hold).snoc o
      · intro offset hoffset
        rw [(range_make hr).2] at hoffset
        cases hoffset
    · obtain rfl := Except.ok.inj h
      exact ⟨hs.intent, fun x facts hfacts => (hs.ranges x facts hfacts).snoc o⟩
  | some a =>
    obtain ⟨prior, hprior, hfrontier, herror⟩ := hs.anchor a hanchor
    simp only [hanchor] at h
    split at h
    · obtain ⟨r, hr, hadd⟩ := bind_eq_ok h
      refine ⟨(addRange_inv hadd).2.1.trans hs.intent, fun x facts hfacts => ?_⟩
      rcases (addRange_evidenceAt hadd x facts).mp hfacts with hold | ⟨hx, -, rfl⟩
      · exact (hs.ranges x facts hold).snoc o
      · obtain ⟨hspan, hevidence⟩ := range_make hr
        rw [hevidence]
        by_cases hcont : s.intent = none ∧ |o.offsetSeconds - a.offsetSeconds| ≤ o.toleranceSeconds
        · simp only [hcont, and_self, decide_true, if_true]
          intro offset hoffset
          obtain rfl := Option.some.inj hoffset
          rw [hspan] at hx
          have hcloses : Closes s o a x := ⟨hanchor, hx, hcont.2⟩
          refine ⟨samples, o, [], s, a, rfl, hrun, hcloses, rfl, rfl, ?_⟩
          apply hcloses.error_le herror hwithin
          rw [hfrontier]
          exact hmono prior hprior
        · simp only [hcont, decide_false]
          intro offset hoffset
          cases hoffset
    · obtain rfl := Except.ok.inj h
      exact ⟨hs.intent, fun x facts hfacts => (hs.ranges x facts hfacts).snoc o⟩

/-- The anchor after a sample stands at the sample, and the true offset lies within it. -/
theorem observed_anchor {T : ℕ → ℝ} {samples : List Observation} {s s' : ClockState}
    {o : Observation} (hs : Sampled T samples s)
    (hwithin : |(o.offsetSeconds : ℝ) - T o.writeSequence| ≤ o.uncertaintySeconds)
    (h : observed s o = .ok s') :
    ∀ a, s'.anchor = some a → a.sequenceFrontier = o.writeSequence ∧
      |(a.offsetSeconds : ℝ) - T a.sequenceFrontier| ≤ a.uncertaintySeconds := by
  obtain ⟨state, hstate, h⟩ := bind_eq_ok h
  obtain ⟨next, hnext, h⟩ := bind_eq_ok h
  have hkeep : state.anchor = s.anchor := by
    rcases observeRange_inv hstate with rfl | ⟨_, _, _, _, _, _, r, -, hadd⟩
    · rfl
    · exact (addRange_inv hadd).2.2.1
  have hmade : next = ⟨o.writeSequence, o.offsetSeconds, o.uncertaintySeconds, .approximate,
      o.sourceId⟩ := by
    unfold ClockAnchor.make at hnext
    split at hnext
    · exact (Except.ok.inj hnext).symm
    · cases hnext
  have hnew : next.sequenceFrontier = o.writeSequence ∧
      |(next.offsetSeconds : ℝ) - T next.sequenceFrontier| ≤ next.uncertaintySeconds := by
    rw [hmade]
    exact ⟨rfl, hwithin⟩
  intro a ha
  split at h
  · obtain rfl := Except.ok.inj h
    obtain rfl := Option.some.inj ha
    exact hnew
  · rename_i hsame
    obtain rfl := Except.ok.inj h
    rw [hkeep] at ha
    obtain ⟨prior, -, -, herror⟩ := hs.anchor a ha
    rw [not_and_or, not_not] at hsame
    rcases hsame with hsame | hsame
    · obtain rfl := Option.some.inj (ha.symm.trans hsame)
      exact hnew
    · rw [ha] at hsame
      have hfrontier : o.writeSequence = a.sequenceFrontier := by
        by_contra hne
        exact hsame (by simp only [anchorMoved, decide_eq_true_eq]; exact .inl hne)
      exact ⟨hfrontier.symm, herror⟩

/-- Every state along a run of samples is explained by the samples behind it. -/
theorem observed_sampled {T : ℕ → ℝ} {samples : List Observation} {s : ClockState}
    (h : Observed samples s) (hT : TrueOffset T samples) : Sampled T samples s := by
  induction h with
  | nil =>
    refine ⟨rfl, fun a ha => (by cases ha), ?_⟩
    rintro x facts ⟨r, hr, -⟩
    cases hr
  | @snoc samples s s' o hrun hstep ih =>
    obtain ⟨hprior, -, hmeet⟩ := List.isChain_append.mp hT.monotone
    have hbefore : TrueOffset T samples :=
      ⟨fun o ho => hT.within o (List.mem_append_left _ ho), hprior⟩
    have hwithin := hT.within o (by simp)
    have hs := ih hbefore
    obtain ⟨state, hstate, hranges, hintent, -, -⟩ := observe_inv hstep
    obtain ⟨hintent', hexplained⟩ := observeRange_explained hrun hs hwithin
      (fun prior hprior => hmeet prior hprior o (by simp)) hstate
    have hanchor := observed_anchor hs hwithin hstep
    refine ⟨hintent.trans hintent', fun a ha => ⟨o, by simp, hanchor a ha⟩, ?_⟩
    rw [hranges]
    exact hexplained

/-- Every sequence of a mapped range was closed by one sample of the run, from the anchor whose
offset the range has, and the true offset there lies within the stated uncertainty and the excess of
that sample over that anchor. -/
theorem observed_error_bounded {T : ℕ → ℝ} {samples : List Observation} {s : ClockState}
    (hrun : Observed samples s) (hT : TrueOffset T samples) {r : ClockRange} (hr : r ∈ s.ranges)
    {offset : ℚ} (hoffset : r.offsetSeconds = some offset) {x : ℕ} (hx : r.span.Contains x) :
    ∃ before o after s₀ a, samples = before ++ o :: after ∧ Observed before s₀ ∧ Closes s₀ o a x ∧
      offset = a.offsetSeconds ∧ r.uncertaintySeconds = some (statedUncertainty a o) ∧
      |(offset : ℝ) - T x| ≤ statedUncertainty a o + excess a o :=
  (observed_sampled hrun hT).ranges x (evidence r) ⟨r, hr, hx, rfl⟩ offset hoffset

/-- Two samples of the same offset, the second one less certain than the first. -/
def closeSample : Observation := ⟨⟨0, 0⟩, 0, 1, "a", 5⟩
def vagueSample : Observation := ⟨⟨0, 2⟩, 0, 2, "a", 5⟩

theorem ordered_nil : Ordered [] := List.isChain_nil

def closeState : ClockState :=
  ⟨[], none, some ⟨0, 0, 1, .approximate, "a"⟩, [], ordered_nil⟩

def vagueRange : ClockRange := ⟨0, 2, some 0, some 1, .approximate, "a", Nat.two_pos⟩

def vagueState : ClockState :=
  ⟨[vagueRange], none, some ⟨2, 0, 2, .approximate, "a"⟩, [], List.isChain_singleton _⟩

theorem observe_vague : observed empty closeSample = .ok closeState ∧
    observed closeState vagueSample = .ok vagueState := by decide +kernel

theorem observed_vague : Observed [closeSample, vagueSample] vagueState := by
  have hfirst : Observed ([] ++ [closeSample]) closeState := .snoc .nil observe_vague.1
  exact .snoc hfirst observe_vague.2

/-- An offset that is 0 up to `k` and 2 from then on. -/
noncomputable def jump (k x : ℕ) : ℝ := if x ≤ k then 0 else 2

theorem monotone_jump (k : ℕ) : Monotone (jump k) := by
  intro x y hxy
  by_cases hy : y ≤ k
  · simp [jump, hy, hxy.trans hy]
  · by_cases hx : x ≤ k
    · simp [jump, hx, hy]
    · simp [jump, hx, hy]

theorem trueOffset_jump : TrueOffset (jump 0) [closeSample, vagueSample] := by
  refine ⟨?_, List.isChain_pair.mpr (.inl ((monotone_jump 0).monotoneOn _))⟩
  intro o ho
  simp only [List.mem_cons, List.not_mem_nil, or_false] at ho
  rcases ho with rfl | rfl
  · simp [closeSample, Observation.writeSequence, jump]
  · simp [vagueSample, Observation.writeSequence, jump]

/-- A sample as certain as the first, and a vague one after it: one range covers both. -/
def steadySample : Observation := ⟨⟨0, 2⟩, 0, 1, "a", 5⟩
def lateSample : Observation := ⟨⟨0, 4⟩, 0, 2, "a", 5⟩

def steadyState : ClockState :=
  ⟨[⟨0, 2, some 0, some 1, .approximate, "a", Nat.two_pos⟩], none,
    some ⟨2, 0, 1, .approximate, "a"⟩, [], List.isChain_singleton _⟩

def lateRange : ClockRange := ⟨0, 4, some 0, some 1, .approximate, "a", by decide⟩

def lateState : ClockState :=
  ⟨[lateRange], none, some ⟨4, 0, 2, .approximate, "a"⟩, [], List.isChain_singleton _⟩

theorem observed_late : Observed [closeSample, steadySample, lateSample] lateState := by
  have hfirst : Observed ([] ++ [closeSample]) closeState := .snoc .nil observe_vague.1
  have hsecond : Observed ([closeSample] ++ [steadySample]) steadyState :=
    .snoc hfirst (by decide +kernel)
  exact .snoc hsecond (by decide +kernel)

theorem trueOffset_late : TrueOffset (jump 2) [closeSample, steadySample, lateSample] := by
  have hmono : ∀ n m, MonotoneOn (jump 2) (Set.Icc n m) := fun n m =>
    (monotone_jump 2).monotoneOn _
  refine ⟨?_, .cons_cons (.inl (hmono _ _)) (List.isChain_pair.mpr (.inl (hmono _ _)))⟩
  intro o ho
  simp only [List.mem_cons, List.not_mem_nil, or_false] at ho
  rcases ho with rfl | rfl | rfl
  · simp [closeSample, Observation.writeSequence, jump]
  · simp [steadySample, Observation.writeSequence, jump]
  · simp [lateSample, Observation.writeSequence, jump]

theorem observed_error_bounded_late : ∃ before o after s₀ a,
    [closeSample, steadySample, lateSample] = before ++ o :: after ∧ Observed before s₀ ∧
      Closes s₀ o a 3 ∧ (0 : ℚ) = a.offsetSeconds ∧
      lateRange.uncertaintySeconds = some (statedUncertainty a o) ∧
      |((0 : ℚ) : ℝ) - jump 2 3| ≤ statedUncertainty a o + excess a o :=
  observed_error_bounded observed_late trueOffset_late (by simp [lateState]) rfl
    ⟨by decide, by decide⟩

/-- The stated uncertainty alone does not bound the error: the range says one second, the true
offset is two away. -/
theorem stated_uncertainty_exceeded :
    ¬ ∀ (samples : List Observation) (s : ClockState) (T : ℕ → ℝ),
      Observed samples s → Nondecreasing samples → TrueOffset T samples →
      ∀ r ∈ s.ranges, ∀ offset, r.offsetSeconds = some offset → ∀ x, r.span.Contains x →
        ∃ uncertainty, r.uncertaintySeconds = some uncertainty ∧
          |(offset : ℝ) - T x| ≤ uncertainty := by
  intro h
  have horder : Nondecreasing [closeSample, vagueSample] := List.isChain_pair.mpr (by decide)
  obtain ⟨uncertainty, huncertainty, hbound⟩ := h _ _ (jump 0) observed_vague horder
    trueOffset_jump vagueRange (by simp [vagueState]) 0 rfl 1 ⟨by decide, by decide⟩
  obtain rfl : 1 = uncertainty := Option.some.inj huncertainty
  norm_num [jump] at hbound

end ClockError
