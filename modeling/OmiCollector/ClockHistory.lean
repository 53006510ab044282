import Mathlib.Logic.Relation
import OmiCollector.ClockTiming

/-! Runs of clock state operations. The checks of the constructors are predicates here, so that
a run from valid values can be shown never to meet one of them, and the facts given to a
sequence are followed through every operation of a run. -/
namespace ClockHistory

open SpanCover ClockModel ClockEvidence ClockTiming

/-- One call of a `ClockState` method. -/
inductive Op where
  | addRange (incoming : ClockRange)
  | observe (info : RingInfo) (offsetSeconds uncertaintySeconds : ℚ) (sourceId : String)
      (toleranceSeconds : ℚ)
  | beginIntent (intent : ClockIntent)
  | markUncertain (operationId : String) (writeSequenceAfter : Option ℕ)
  | cancelPreparedIntent (operationId : String)
  | finishIntent (operationId : String) (ranges : List ClockRange)
  | withAnchor (anchor : ClockAnchor)

def apply (s : ClockState) : Op → Except String ClockState
  | .addRange incoming => s.addRange incoming
  | .observe info offset uncertainty sourceId tolerance =>
    s.observe info offset uncertainty sourceId tolerance
  | .beginIntent intent => s.beginIntent intent
  | .markUncertain operationId after => s.markUncertain operationId after
  | .cancelPreparedIntent operationId => s.cancelPreparedIntent operationId
  | .finishIntent operationId ranges => s.finishIntent operationId ranges
  | .withAnchor anchor => .ok (s.withAnchor anchor)

/-- A successful operation. -/
def Step (s s' : ClockState) : Prop := ∃ op, apply s op = .ok s'

def Run : ClockState → ClockState → Prop := Relation.ReflTransGen Step

/-- Every prior fact is still there. -/
def Keeps (s s' : ClockState) : Prop :=
  ∀ x e, EvidenceAt s.ranges x e → EvidenceAt s'.ranges x e

theorem addRange_keeps {s s' : ClockState} {r : ClockRange} (h : s.addRange r = .ok s') :
    Keeps s s' := fun x e he => (addRange_evidenceAt h x e).mpr (.inl he)

/-- An observation adds at most one range, and then may move the anchor. -/
theorem observe_inv {s s' : ClockState} {info : RingInfo} {offset uncertainty tolerance : ℚ}
    {id : String} (h : s.observe info offset uncertainty id tolerance = .ok s') :
    ∃ state, s.observeRange info offset id tolerance = .ok state ∧
      s'.ranges = state.ranges ∧ s'.intent = state.intent ∧
      s'.causalUncertainty = state.causalUncertainty ∧
      (s'.anchor = state.anchor ∨ ∃ anchor, s'.anchor = some anchor ∧
        ClockAnchor.make info.writeSequence offset uncertainty .approximate id = .ok anchor) := by
  obtain ⟨state, hstate, h⟩ := bind_eq_ok h
  obtain ⟨anchor, hanchor, h⟩ := bind_eq_ok h
  refine ⟨state, hstate, ?_⟩
  split at h
  · obtain rfl := Except.ok.inj h
    exact ⟨rfl, rfl, rfl, .inr ⟨anchor, rfl, hanchor⟩⟩
  · obtain rfl := Except.ok.inj h
    exact ⟨rfl, rfl, rfl, .inl rfl⟩

theorem observeRange_inv {s s' : ClockState} {info : RingInfo} {offset tolerance : ℚ}
    {id : String} (h : s.observeRange info offset id tolerance = .ok s') :
    s' = s ∨ ∃ a n o u c i r, ClockRange.make a n o u c i = .ok r ∧ s.addRange r = .ok s' := by
  unfold ClockState.observeRange at h
  cases hanchor : s.anchor with
  | none =>
    rw [hanchor] at h
    simp only at h
    split at h
    · obtain ⟨r, hr, hstate⟩ := bind_eq_ok h
      exact .inr ⟨_, _, _, _, _, _, r, hr, hstate⟩
    · exact .inl (Except.ok.inj h).symm
  | some anchor =>
    rw [hanchor] at h
    simp only at h
    split at h
    · obtain ⟨r, hr, hstate⟩ := bind_eq_ok h
      exact .inr ⟨_, _, _, _, _, _, r, hr, hstate⟩
    · exact .inl (Except.ok.inj h).symm

theorem foldlM_addRange_keeps {s s' : ClockState} {ranges : List ClockRange}
    (h : ranges.foldlM ClockState.addRange s = .ok s') :
    Keeps s s' ∧ s'.anchor = s.anchor ∧ s'.causalUncertainty = s.causalUncertainty := by
  induction ranges generalizing s with
  | nil =>
    obtain rfl := Except.ok.inj h
    exact ⟨fun _ _ he => he, rfl, rfl⟩
  | cons r ranges ih =>
    rw [List.foldlM_cons] at h
    obtain ⟨t, ht, h⟩ := bind_eq_ok h
    obtain ⟨-, -, hanchor, hcausal⟩ := addRange_inv ht
    obtain ⟨hkeeps, hanchor', hcausal'⟩ := ih h
    exact ⟨fun x e he => hkeeps x e (addRange_keeps ht x e he), hanchor'.trans hanchor,
      hcausal'.trans hcausal⟩

/-- Finishing adds the given ranges and records the uncertain interval. -/
theorem finishIntent_inv {s s' : ClockState} {id : String} {ranges : List ClockRange}
    (h : s.finishIntent id ranges = .ok s') :
    ∃ intent boundary completed, s.intent = some intent ∧
      intent.writeSequenceAfter = some boundary ∧
      ranges.foldlM ClockState.addRange s = .ok completed ∧ s'.ranges = completed.ranges ∧
      s'.intent = none ∧ s'.anchor = completed.anchor ∧
      s'.causalUncertainty =
        insertInterval (intent.writeSequenceBefore, boundary) completed.causalUncertainty := by
  unfold ClockState.finishIntent at h
  cases hintent : s.intent with
  | none => simp [hintent] at h
  | some intent =>
    simp only [hintent] at h
    split at h
    · simp at h
    · cases hafter : intent.writeSequenceAfter with
      | none => simp [hafter] at h
      | some boundary =>
        simp only [hafter] at h
        obtain ⟨_, -, h⟩ := bind_eq_ok h
        obtain ⟨completed, hcompleted, h⟩ := bind_eq_ok h
        obtain ⟨_, -, h⟩ := bind_eq_ok h
        obtain rfl := Except.ok.inj h
        exact ⟨intent, boundary, completed, rfl, hafter, hcompleted, rfl, rfl, rfl, rfl⟩

theorem beginIntent_inv {s s' : ClockState} {intent : ClockIntent}
    (h : s.beginIntent intent = .ok s') : s' = { s with intent := some intent } := by
  unfold ClockState.beginIntent at h
  split at h
  · simp at h
  · exact (Except.ok.inj h).symm

theorem cancelPreparedIntent_inv {s s' : ClockState} {id : String}
    (h : s.cancelPreparedIntent id = .ok s') : s' = { s with intent := none } := by
  unfold ClockState.cancelPreparedIntent at h
  cases hintent : s.intent with
  | none => simp [hintent] at h
  | some intent =>
    simp only [hintent] at h
    split at h
    · simp at h
    · exact (Except.ok.inj h).symm

/-- One operation keeps the facts of every covered sequence and the recorded intervals. -/
theorem step_keeps {s s' : ClockState} (h : Step s s') :
    Keeps s s' ∧ ∀ i ∈ s.causalUncertainty, i ∈ s'.causalUncertainty := by
  obtain ⟨op, h⟩ := h
  have hsame : ∀ t : ClockState, t.ranges = s.ranges → t.causalUncertainty = s.causalUncertainty →
      Keeps s t ∧ ∀ i ∈ s.causalUncertainty, i ∈ t.causalUncertainty := by
    intro t hranges hcausal
    constructor
    · intro x e he
      rw [hranges]
      exact he
    · rw [hcausal]
      exact fun i hi => hi
  cases op with
  | addRange incoming =>
    refine ⟨addRange_keeps h, ?_⟩
    rw [(addRange_inv h).2.2.2]
    exact fun i hi => hi
  | observe info offset uncertainty sourceId tolerance =>
    obtain ⟨state, hstate, hranges, -, hcausal, -⟩ := observe_inv h
    unfold Keeps
    rw [hranges, hcausal]
    rcases observeRange_inv hstate with rfl | ⟨_, _, _, _, _, _, r, -, hadd⟩
    · exact ⟨fun _ _ he => he, fun _ hi => hi⟩
    · rw [(addRange_inv hadd).2.2.2]
      exact ⟨addRange_keeps hadd, fun _ hi => hi⟩
  | beginIntent intent =>
    rw [beginIntent_inv h]
    exact hsame _ rfl rfl
  | markUncertain operationId after =>
    obtain ⟨_, _, -, -, -, -, -, -, hranges, hcausal⟩ := markUncertain_spec h
    exact hsame s' hranges hcausal
  | cancelPreparedIntent operationId =>
    rw [cancelPreparedIntent_inv h]
    exact hsame _ rfl rfl
  | finishIntent operationId ranges =>
    obtain ⟨intent, boundary, completed, -, -, hfold, hranges, -, -, hcausal⟩ := finishIntent_inv h
    obtain ⟨hkeeps, -, hcausal'⟩ := foldlM_addRange_keeps hfold
    constructor
    · intro x e he
      rw [hranges]
      exact hkeeps x e he
    · intro i hi
      rw [hcausal, hcausal']
      exact mem_insertInterval.mpr (.inr hi)
  | withAnchor anchor =>
    obtain rfl := Except.ok.inj h
    exact hsame _ rfl rfl

theorem run_keeps {s s' : ClockState} (h : Run s s') :
    Keeps s s' ∧ ∀ i ∈ s.causalUncertainty, i ∈ s'.causalUncertainty := by
  induction h with
  | refl => exact ⟨fun _ _ he => he, fun _ hi => hi⟩
  | tail _ hstep ih =>
    obtain ⟨hkeeps, hcausal⟩ := step_keeps hstep
    exact ⟨fun x e he => hkeeps x e (ih.1 x e he), fun i hi => hcausal i (ih.2 i hi)⟩

/-- The checks that a range's constructor makes besides its bounds. -/
def ValidEvidence (e : Evidence) : Prop :=
  e.sourceId ≠ "" ∧ (e.uncertaintySeconds.all fun u => decide (0 ≤ u)) = true ∧
    (e.offsetSeconds = none ↔ e.confidence = .unknown) ∧
    (e.offsetSeconds = none ↔ e.uncertaintySeconds = none)

def ValidIntent (intent : ClockIntent) : Prop :=
  intent.operationId ≠ "" ∧ intent.observedEpoch ≤ maxUint32 ∧ intent.targetEpoch ≤ maxUint32

def ValidAnchor (anchor : ClockAnchor) : Prop :=
  0 ≤ anchor.uncertaintySeconds ∧ anchor.confidence ≠ .unknown ∧ anchor.sourceId ≠ ""

/-- Every value in the state passes its constructor. -/
structure Valid (s : ClockState) : Prop where
  ranges : ∀ r ∈ s.ranges, ValidEvidence (evidence r)
  intent : ∀ intent ∈ s.intent, ValidIntent intent
  anchor : ∀ anchor ∈ s.anchor, ValidAnchor anchor
  causal : ∀ i ∈ s.causalUncertainty, i.1 ≤ i.2

/-- The arguments of the operation are valid for the state it is called on. -/
def ValidArguments (s : ClockState) : Op → Prop
  | .addRange incoming => ValidEvidence (evidence incoming)
  | .observe _ _ uncertainty sourceId _ => 0 ≤ uncertainty ∧ sourceId ≠ ""
  | .beginIntent intent => ValidIntent intent
  | .markUncertain _ after =>
    ∀ intent ∈ s.intent, ∀ a ∈ after, intent.writeSequenceBefore ≤ a
  | .cancelPreparedIntent _ => True
  | .finishIntent _ ranges => ∀ r ∈ ranges, ValidEvidence (evidence r)
  | .withAnchor anchor => ValidAnchor anchor

def ValidStep (s s' : ClockState) : Prop := ∃ op, ValidArguments s op ∧ apply s op = .ok s'

def ValidRun : ClockState → ClockState → Prop := Relation.ReflTransGen ValidStep

/-- The refusals of an operation itself; every other message is a constructor's. -/
def refusals : List String :=
  ["clock write is already pending", "clock intent transition is invalid",
    "clock write boundary is unresolved", "clock write boundary coverage is incomplete",
    "clock write boundary must remain unknown"]

theorem make_ok {a n : ℕ} {offset uncertainty : Option ℚ} {c : Confidence} {id : String}
    (h : a < n) (hvalid : ValidEvidence ⟨offset, uncertainty, c, id⟩) :
    ∃ r, ClockRange.make a n offset uncertainty c id = .ok r := by
  unfold ClockRange.make
  rw [dif_pos ⟨h, hvalid⟩]
  exact ⟨_, rfl⟩

theorem make_valid {a n : ℕ} {offset uncertainty : Option ℚ} {c : Confidence} {id : String}
    {r : ClockRange} (h : ClockRange.make a n offset uncertainty c id = .ok r) :
    ValidEvidence (evidence r) := by
  unfold ClockRange.make at h
  split at h
  · rename_i hvalid
    obtain rfl := Except.ok.inj h
    exact hvalid.2
  · simp at h

/-- A range is valid after `addRange` when all ranges before were. -/
theorem addRange_valid {s s' : ClockState} {r : ClockRange} (h : s.addRange r = .ok s')
    (hs : ∀ q ∈ s.ranges, ValidEvidence (evidence q)) (hr : ValidEvidence (evidence r)) :
    ∀ q ∈ s'.ranges, ValidEvidence (evidence q) := by
  intro q hq
  have hat : EvidenceAt s'.ranges q.startSequence (evidence q) :=
    ⟨q, hq, ⟨le_rfl, q.nonempty⟩, rfl⟩
  rcases (addRange_evidenceAt h _ _).mp hat with ⟨p, hp, -, heq⟩ | ⟨-, -, heq⟩
  · rw [← heq]
    exact hs p hp
  · rw [← heq]
    exact hr

theorem foldlM_addRange_valid {s s' : ClockState} {ranges : List ClockRange}
    (h : ranges.foldlM ClockState.addRange s = .ok s')
    (hs : ∀ q ∈ s.ranges, ValidEvidence (evidence q))
    (hr : ∀ r ∈ ranges, ValidEvidence (evidence r)) :
    ∀ q ∈ s'.ranges, ValidEvidence (evidence q) := by
  induction ranges generalizing s with
  | nil =>
    obtain rfl := Except.ok.inj h
    exact hs
  | cons r ranges ih =>
    rw [List.foldlM_cons] at h
    obtain ⟨t, ht, h⟩ := bind_eq_ok h
    exact ih h (addRange_valid ht hs (hr r List.mem_cons_self))
      (fun q hq => hr q (List.mem_cons_of_mem r hq))

theorem foldlM_addRange_ok (s : ClockState) (ranges : List ClockRange) :
    ∃ s', ranges.foldlM ClockState.addRange s = .ok s' := by
  induction ranges generalizing s with
  | nil => exact ⟨s, rfl⟩
  | cons r ranges ih =>
    obtain ⟨t, ht⟩ := addRange_ok s r
    obtain ⟨s', hs'⟩ := ih t
    refine ⟨s', ?_⟩
    rw [List.foldlM_cons, ht]
    exact hs'

/-- With a valid anchor and valid arguments an observation is never rejected. -/
theorem observe_ok {s : ClockState} (hs : Valid s) (info : RingInfo) (offset : ℚ)
    {uncertainty : ℚ} {id : String} (tolerance : ℚ) (hu : 0 ≤ uncertainty) (hid : id ≠ "") :
    ∃ s', s.observe info offset uncertainty id tolerance = .ok s' := by
  have hrange : ∃ state, s.observeRange info offset id tolerance = .ok state := by
    unfold ClockState.observeRange
    cases hanchor : s.anchor with
    | none =>
      simp only
      by_cases hlt : info.readSequence < info.writeSequence
      · rw [if_pos hlt]
        have hvalid : ValidEvidence ⟨none, none, .unknown, id⟩ := ⟨hid, by simp⟩
        obtain ⟨r, hr⟩ := make_ok hlt hvalid
        rw [hr]
        exact addRange_ok s r
      · rw [if_neg hlt]
        exact ⟨s, rfl⟩
    | some anchor =>
      simp only
      by_cases hlt : info.writeSequence > anchor.sequenceFrontier
      · rw [if_pos hlt]
        obtain ⟨hau, hac, haid⟩ := hs.anchor anchor hanchor
        by_cases hcont : s.intent = none ∧ |offset - anchor.offsetSeconds| ≤ tolerance
        · have hsum : 0 ≤ anchor.uncertaintySeconds + |offset - anchor.offsetSeconds| :=
            add_nonneg hau (abs_nonneg _)
          have hvalid : ValidEvidence ⟨some anchor.offsetSeconds,
              some (anchor.uncertaintySeconds + |offset - anchor.offsetSeconds|), .approximate,
              anchor.sourceId⟩ := ⟨haid, by simpa using hsum, by simp, by simp⟩
          obtain ⟨r, hr⟩ := make_ok hlt hvalid
          simp only [hcont, and_self, decide_true, if_true, hr]
          exact addRange_ok s r
        · have hvalid : ValidEvidence ⟨none, none, .unknown, anchor.sourceId⟩ := ⟨haid, by simp⟩
          obtain ⟨r, hr⟩ := make_ok hlt hvalid
          simp only [hcont, decide_false, Bool.false_eq_true, if_false, hr]
          exact addRange_ok s r
      · rw [if_neg hlt]
        exact ⟨s, rfl⟩
  obtain ⟨state, hstate⟩ := hrange
  have hmake : ClockAnchor.make info.writeSequence offset uncertainty .approximate id =
      .ok ⟨info.writeSequence, offset, uncertainty, .approximate, id⟩ := by
    unfold ClockAnchor.make
    rw [if_pos ⟨hu, by decide, hid⟩]
  unfold ClockState.observe
  rw [hstate, hmake]
  simp only [bind, Except.bind]
  split
  · exact ⟨_, rfl⟩
  · exact ⟨_, rfl⟩

theorem unknownCoverage_refusal {stop : ℕ} {ranges : List ClockRange} {cursor : ℕ} {msg : String}
    (h : unknownCoverage stop ranges cursor = .error msg) : msg ∈ refusals := by
  induction ranges generalizing cursor with
  | nil =>
    obtain rfl := Except.error.inj h
    decide
  | cons r ranges ih =>
    rw [unknownCoverage] at h
    split at h
    · exact ih h
    · split at h
      · obtain rfl := Except.error.inj h
        decide
      · split at h
        · obtain rfl := Except.error.inj h
          decide
        · split at h
          · simp at h
          · exact ih h

theorem checkBoundary_refusal {before boundary : ℕ} {ranges : List ClockRange} {msg : String}
    (h : checkBoundary before boundary ranges = .error msg) : msg ∈ refusals := by
  unfold checkBoundary at h
  split at h
  · exact unknownCoverage_refusal h
  · simp at h

theorem finishIntent_refusal {s : ClockState} {id : String} {ranges : List ClockRange}
    {msg : String} (h : s.finishIntent id ranges = .error msg) : msg ∈ refusals := by
  unfold ClockState.finishIntent at h
  cases hintent : s.intent with
  | none =>
    simp only [hintent] at h
    obtain rfl := Except.error.inj h
    decide
  | some intent =>
    simp only [hintent] at h
    split at h
    · obtain rfl := Except.error.inj h
      decide
    · cases hafter : intent.writeSequenceAfter with
      | none =>
        simp only [hafter] at h
        obtain rfl := Except.error.inj h
        decide
      | some boundary =>
        simp only [hafter] at h
        obtain ⟨completed, hcompleted⟩ := foldlM_addRange_ok s ranges
        cases hbefore : checkBoundary intent.writeSequenceBefore boundary ranges with
        | error e =>
          rw [hbefore] at h
          obtain rfl := Except.error.inj h
          exact checkBoundary_refusal hbefore
        | ok _ =>
          cases hend : checkBoundary intent.writeSequenceBefore boundary completed.ranges with
          | error e =>
            simp only [hbefore, hcompleted, hend, bind, Except.bind] at h
            obtain rfl := Except.error.inj h
            exact checkBoundary_refusal hend
          | ok _ => simp [hbefore, hcompleted, hend, bind, Except.bind, pure, Except.pure] at h

theorem markUncertain_refusal {s : ClockState} {id : String} {after : Option ℕ} {msg : String}
    (hs : Valid s) (hafter : ∀ intent ∈ s.intent, ∀ a ∈ after, intent.writeSequenceBefore ≤ a)
    (h : s.markUncertain id after = .error msg) : msg ∈ refusals := by
  unfold ClockState.markUncertain at h
  cases hintent : s.intent with
  | none =>
    simp only [hintent] at h
    obtain rfl := Except.error.inj h
    decide
  | some intent =>
    simp only [hintent] at h
    split at h
    · obtain rfl := Except.error.inj h
      decide
    · split at h
      · split at h
        · simp at h
        · obtain rfl := Except.error.inj h
          decide
      · obtain ⟨hid, hobserved, htarget⟩ := hs.intent intent hintent
        have hbound : ∀ a, after = some a → intent.writeSequenceBefore ≤ a :=
          fun a ha => hafter intent hintent a ha
        unfold ClockIntent.make at h
        rw [dif_pos ⟨hid, hobserved, htarget, hbound⟩] at h
        simp [bind, Except.bind, pure, Except.pure] at h

/-- From a valid state, valid arguments meet no constructor check. -/
theorem apply_refusal {s : ClockState} {op : Op} {msg : String} (hs : Valid s)
    (hop : ValidArguments s op) (h : apply s op = .error msg) : msg ∈ refusals := by
  cases op with
  | addRange incoming =>
    obtain ⟨s', hs'⟩ := addRange_ok s incoming
    rw [apply, hs'] at h
    simp at h
  | observe info offset uncertainty sourceId tolerance =>
    obtain ⟨s', hs'⟩ := observe_ok hs info offset tolerance hop.1 hop.2
    rw [apply, hs'] at h
    simp at h
  | beginIntent intent =>
    rw [apply, ClockState.beginIntent] at h
    split at h
    · obtain rfl := Except.error.inj h
      decide
    · simp at h
  | markUncertain operationId after => exact markUncertain_refusal hs hop h
  | cancelPreparedIntent operationId =>
    rw [apply, ClockState.cancelPreparedIntent] at h
    cases hintent : s.intent with
    | none =>
      simp only [hintent] at h
      obtain rfl := Except.error.inj h
      decide
    | some intent =>
      simp only [hintent] at h
      split at h
      · obtain rfl := Except.error.inj h
        decide
      · simp at h
  | finishIntent operationId ranges => exact finishIntent_refusal h
  | withAnchor anchor => simp [apply] at h

theorem markUncertain_valid {s s' : ClockState} {id : String} {after : Option ℕ} (hs : Valid s)
    (h : s.markUncertain id after = .ok s') : Valid s' := by
  unfold ClockState.markUncertain at h
  cases hintent : s.intent with
  | none => simp [hintent] at h
  | some intent =>
    simp only [hintent] at h
    split at h
    · simp at h
    · split at h
      · split at h
        · obtain rfl := Except.ok.inj h
          exact hs
        · simp at h
      · obtain ⟨marked, hmarked, h⟩ := bind_eq_ok h
        obtain rfl := Except.ok.inj h
        refine ⟨hs.ranges, ?_, hs.anchor, hs.causal⟩
        intro i hi
        obtain rfl := Option.some.inj hi
        unfold ClockIntent.make at hmarked
        split at hmarked
        · rename_i hvalid
          obtain rfl := Except.ok.inj hmarked
          exact ⟨hvalid.1, hvalid.2.1, hvalid.2.2.1⟩
        · simp at hmarked

theorem observe_valid {s s' : ClockState} {info : RingInfo} {offset uncertainty tolerance : ℚ}
    {id : String} (hs : Valid s) (h : s.observe info offset uncertainty id tolerance = .ok s') :
    Valid s' := by
  obtain ⟨state, hstate, hranges, hintent, hcausal, hanchor⟩ := observe_inv h
  have hvalid : Valid state := by
    rcases observeRange_inv hstate with rfl | ⟨_, _, _, _, _, _, r, hr, hadd⟩
    · exact hs
    · obtain ⟨-, hintent', hanchor', hcausal'⟩ := addRange_inv hadd
      exact ⟨addRange_valid hadd hs.ranges (make_valid hr), hintent' ▸ hs.intent,
        hanchor' ▸ hs.anchor, hcausal' ▸ hs.causal⟩
  refine ⟨hranges ▸ hvalid.ranges, hintent ▸ hvalid.intent, ?_, hcausal ▸ hvalid.causal⟩
  rcases hanchor with hsame | ⟨anchor, hnew, hmake⟩
  · rw [hsame]
    exact hvalid.anchor
  · intro a ha
    rw [hnew] at ha
    obtain rfl := Option.some.inj ha
    unfold ClockAnchor.make at hmake
    split at hmake
    · rename_i hok
      obtain rfl := Except.ok.inj hmake
      exact hok
    · simp at hmake

theorem finishIntent_valid {s s' : ClockState} {id : String} {ranges : List ClockRange}
    (hs : Valid s) (hr : ∀ r ∈ ranges, ValidEvidence (evidence r))
    (h : s.finishIntent id ranges = .ok s') : Valid s' := by
  obtain ⟨intent, boundary, completed, -, hafter, hfold, hranges, hintent, hanchor, hcausal⟩ :=
    finishIntent_inv h
  obtain ⟨-, hanchor', hcausal'⟩ := foldlM_addRange_keeps hfold
  refine ⟨hranges ▸ foldlM_addRange_valid hfold hs.ranges hr, ?_, ?_, ?_⟩
  · simp [hintent]
  · rw [hanchor, hanchor']
    exact hs.anchor
  · intro i hi
    rw [hcausal, mem_insertInterval, hcausal'] at hi
    rcases hi with rfl | hi
    · exact intent.bounded boundary hafter
    · exact hs.causal i hi

theorem validStep_valid {s s' : ClockState} (hs : Valid s) (h : ValidStep s s') : Valid s' := by
  obtain ⟨op, hop, h⟩ := h
  cases op with
  | addRange incoming =>
    obtain ⟨-, hintent, hanchor, hcausal⟩ := addRange_inv h
    exact ⟨addRange_valid h hs.ranges hop, hintent ▸ hs.intent, hanchor ▸ hs.anchor,
      hcausal ▸ hs.causal⟩
  | observe info offset uncertainty sourceId tolerance => exact observe_valid hs h
  | beginIntent intent =>
    rw [beginIntent_inv h]
    refine ⟨hs.ranges, ?_, hs.anchor, hs.causal⟩
    intro i hi
    obtain rfl := Option.some.inj hi
    exact hop
  | markUncertain operationId after => exact markUncertain_valid hs h
  | cancelPreparedIntent operationId =>
    rw [cancelPreparedIntent_inv h]
    exact ⟨hs.ranges, by simp, hs.anchor, hs.causal⟩
  | finishIntent operationId ranges => exact finishIntent_valid hs hop h
  | withAnchor anchor =>
    obtain rfl := Except.ok.inj h
    refine ⟨hs.ranges, hs.intent, ?_, hs.causal⟩
    intro a ha
    obtain rfl := Option.some.inj ha
    exact hop

theorem validRun_valid {s s' : ClockState} (hs : Valid s) (h : ValidRun s s') : Valid s' := by
  induction h with
  | refl => exact hs
  | tail _ hstep ih => exact validStep_valid ih hstep

/-- Clock evidence is append-only. After any run of operations the ranges are in order, do not
overlap and are not empty, every covered sequence still has its facts, and adding a range gives
its facts to exactly the sequences in it that have none; from valid arguments no operation is
rejected by a constructor. -/
theorem evidence_append_only (s s' : ClockState) (hs : Valid s) :
    (Run s s' →
      s'.ranges.Pairwise (fun a b => a.nextSequence ≤ b.startSequence) ∧
      (∀ r ∈ s'.ranges, r.startSequence < r.nextSequence) ∧
      (∀ x e, evidenceOf s.ranges x = some e → evidenceOf s'.ranges x = some e) ∧
      ∀ r, ∃ t, s'.addRange r = .ok t ∧ t.addRange r = .ok t ∧
        ∀ x, evidenceOf t.ranges x = match evidenceOf s'.ranges x with
          | some e => some e
          | none => if r.span.Contains x then some (evidence r) else none) ∧
    (ValidRun s s' → Valid s' ∧ ∀ op msg, ValidArguments s' op → apply s' op = .error msg →
      msg ∈ refusals) := by
  constructor
  · intro hrun
    refine ⟨ordered_iff_pairwise.mp s'.ordered, fun r _ => r.nonempty, ?_, ?_⟩
    · intro x e he
      rw [evidenceOf_eq_some s.ordered] at he
      rw [evidenceOf_eq_some s'.ordered]
      exact (run_keeps hrun).1 x e he
    · intro r
      obtain ⟨t, ht⟩ := addRange_ok s' r
      exact ⟨t, ht, addRange_again ht, addRange_evidenceOf ht⟩
  · intro hrun
    have hvalid := validRun_valid hs hrun
    exact ⟨hvalid, fun op msg hop h => apply_refusal hvalid hop h⟩

def confirmedRange (a n : ℕ) (h : a < n) : ClockRange :=
  ⟨a, n, some 5, some 1, .confirmed, "sync", h⟩

def unknownRange (a n : ℕ) (h : a < n) : ClockRange := ⟨a, n, none, none, .unknown, "info", h⟩

/-- One confirmed range. -/
def confirmedOnly : ClockState :=
  ⟨[confirmedRange 2 4 (by decide)], none, none, [], by decide⟩

/-- The same range after an unknown one was added around it. -/
def confirmedWithin : ClockState :=
  ⟨[unknownRange 0 2 (by decide), confirmedRange 2 4 (by decide), unknownRange 4 6 (by decide)],
    none, none, [], by decide⟩

theorem confirmedOnly_valid : Valid confirmedOnly := by
  refine ⟨?_, by simp [confirmedOnly], by simp [confirmedOnly], by simp [confirmedOnly]⟩
  intro r hr
  obtain rfl := List.mem_singleton.mp hr
  refine ⟨by decide, by decide +kernel, by decide, by decide⟩

theorem confirmedOnly_step : ValidStep confirmedOnly confirmedWithin := by
  refine ⟨.addRange (unknownRange 0 6 (by decide)), ⟨by decide, by decide, by decide, by decide⟩, ?_⟩
  rfl

theorem evidence_append_only_within :
    Valid confirmedOnly ∧ Run confirmedOnly confirmedWithin ∧
      (∀ x e, evidenceOf confirmedOnly.ranges x = some e →
        evidenceOf confirmedWithin.ranges x = some e) ∧ Valid confirmedWithin := by
  have hrun : Run confirmedOnly confirmedWithin := by
    obtain ⟨op, -, hop⟩ := confirmedOnly_step
    exact .single ⟨op, hop⟩
  have happend := evidence_append_only confirmedOnly confirmedWithin confirmedOnly_valid
  exact ⟨confirmedOnly_valid, hrun, (happend.1 hrun).2.2.1, (happend.2 (.single confirmedOnly_step)).1⟩

end ClockHistory
