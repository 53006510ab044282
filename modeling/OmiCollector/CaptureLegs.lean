import OmiCollector.CaptureIntegrity

/-! The leg that a resumed attempt prepares: the rest of its range from the durable frontier.

Whether the store accepts it depends on the row that the calls before left behind. -/
namespace CaptureLegs

open ByteCodec AudioMachine CaptureModel RefusalLogic CaptureStore CaptureRows CaptureInvariant
  CaptureCommits CaptureIntegrity TransitionRuns

variable {D : Type}

/-- The attempts of `_typed_attempt_sources`. -/
def Resumable (s : CaptureSource D) : Prop :=
  s.sourceType = .attempt ∧
    s.lifecycle ∈ [AudioPhase.prepared, .legPrepared, .receiving, .interrupted]

instance (s : CaptureSource D) : Decidable (Resumable s) :=
  inferInstanceAs (Decidable (_ ∧ _))

/-- `resume_streaming_attempt`: a leg that still receives was interrupted. -/
def resumeStreamingAttempt [DecidableEq D] : StoreM D (Option (CaptureSource D)) := do
  match (← get).source with
  | none => return none
  | some source =>
    if Resumable source then
      if source.lifecycle = .receiving then return some (← interrupt)
      else return some source
    else return none

/-- What a resumed writer does before its READ: `resume_streaming_attempt`, then `prepare_leg`. -/
def prepareResumed [DecidableEq D] (start count : ℤ) : StoreM D (CaptureSource D) := do
  let _ ← resumeStreamingAttempt
  CaptureStore.prepareLeg start count

/-- No other leg stands in the way of this one. -/
def LegFree (s : CaptureSource D) (start count : ℕ) : Prop :=
  if s.lifecycle = .legPrepared then
    (s.preparedStart, s.preparedCount) = (some start, some count)
  else s.currentLegGeneration < maxProtocolUint32

instance (s : CaptureSource D) (start count : ℕ) : Decidable (LegFree s start count) := by
  unfold LegFree
  infer_instance

/-- How a call leaves the row of the source. -/
inductive RowChange (before : Option (CaptureSource D)) (call : Call D)
    (after : CaptureSource D) : Prop where
  | kept (hrow : before = some after)
  | created (hphase : after.lifecycle = .prepared) (hcount : after.committedCount = 0)
      (hlimit : after.sequenceLimit ≤ uint64Max)
  | prepared (s : CaptureSource D) (start count : ℕ) (hrow : before = some s)
      (hcall : call = .prepareLeg start count)
      (hafter : after.lifecycle = .legPrepared ∧ after.preparedStart = some start ∧
        after.preparedCount = some count)
      (hrange : after.sequenceStart = s.sequenceStart ∧ after.sequenceLimit = s.sequenceLimit ∧
        after.committedCount = s.committedCount)
  | moved (s : CaptureSource D) (hrow : before = some s)
      (hphase : after.lifecycle ≠ .prepared ∧ after.lifecycle ≠ .legPrepared)
      (hlimit : after.sequenceLimit = s.sequenceLimit)

/-- Every row after the call comes from one of these changes. -/
def RowStep (st : Store D) (call : Call D) (t : Store D) : Prop :=
  ∀ s', t.source = some s' → RowChange st.source call s'

theorem RowStep.unchanged (st : Store D) (call : Call D) : RowStep st call st :=
  fun _ h => .kept h

section Calls

variable {cfg : StoreConfig D} {st : Store D}

theorem createSource_row (kind : Option SourceType) (start limit : ℤ) (call : Call D) :
    wp (createSource cfg kind start limit) st (fun _ t => RowStep st call t)
      (fun _ t => RowStep st call t) := by
  have hsame := RowStep.unchanged st call
  simp only [createSource, wp_bind, wp_requireSome]
  refine ⟨fun _ => hsame, fun _ _ => wp_phaseAfter (fun next hn _ => ?_) (fun _ _ => hsame)⟩
  obtain rfl : AudioPhase.prepared = next := by simpa [transition, create] using hn
  simp only [wp_uint64, wp_refuseIf, wp_get, wp_set, wp_pure]
  refine ⟨fun _ => ⟨fun hlimit => ⟨fun _ => hsame, fun _ => ⟨fun _ => hsame, fun _ => ?_⟩⟩,
    fun _ => hsame⟩, fun _ => hsame⟩
  rintro _ ⟨⟩
  apply RowChange.created rfl rfl
  change limit.toNat ≤ uint64Max
  omega

/-- A commit needs a receiving leg, and leaves the source receiving or blocked. -/
theorem commitOutcome_row {now expected : ℕ} {records : List Bytes} {incoming : Option CaptureTail}
    {s : CaptureSource D} {r : Except String ℕ} {t : Store D} (hs : st.source = some s)
    (h : CommitOutcome cfg now st s expected records incoming r t) (call : Call D) :
    RowStep st call t := by
  intro s' hs'
  cases h with
  | refused _ ht => exact .kept (ht.source ▸ hs')
  | accepted hl _ _ _ _ hext =>
    obtain rfl := Option.some.inj (hext.source.symm.trans hs')
    exact .moved s hs ⟨by simp [hl], by simp [hl]⟩ rfl
  | replayConflict | tailConflict =>
    obtain rfl := Option.some.inj hs'
    exact .moved s hs ⟨by simp [blockedSource], by simp [blockedSource]⟩ rfl

variable [DecidableEq D]

theorem prepareLeg_row (start count : ℤ) :
    wp (CaptureStore.prepareLeg start count) st (fun _ t => RowStep st (.prepareLeg start count) t)
      (fun _ t => RowStep st (.prepareLeg start count) t) := by
  have hsame := RowStep.unchanged st (.prepareLeg start count)
  simp only [CaptureStore.prepareLeg, wp_bind, wp_requireSource, wp_uint64, wp_uint32, wp_refuseIf]
  refine ⟨fun _ => hsame, fun s hs => ⟨fun hstart => ⟨fun hcount => ⟨fun _ => hsame, fun _ =>
    ⟨fun _ => hsame, fun _ => ⟨fun _ => hsame, fun _ => ?_⟩⟩⟩, fun _ => hsame⟩, fun _ => hsame⟩⟩
  refine wp_phaseAfter (fun next hn ha => ?_) (fun _ _ => hsame)
  obtain ⟨rfl, -⟩ := prepareLeg_phase _ _ _ hn ha
  rw [wp_ite]
  refine ⟨fun _ => hsame, fun _ => ?_⟩
  simp only [wp_bind, wp_refuseIf, wp_of_exec (exec_checkSourceSnapshot hs _), wp_modify, wp_pure]
  refine ⟨fun _ => hsame, fun _ => ?_⟩
  rintro _ ⟨⟩
  apply RowChange.prepared s start.toNat count.toNat hs
  · rw [Int.toNat_of_nonneg hstart.1, Int.toNat_of_nonneg hcount.1]
  · exact ⟨rfl, rfl, rfl⟩
  · exact ⟨rfl, rfl, rfl⟩

theorem recordReadBegin_row (start count : ℤ) (call : Call D) :
    wp (recordReadBegin start count) st (fun _ t => RowStep st call t)
      (fun _ t => RowStep st call t) := by
  have hsame := RowStep.unchanged st call
  simp only [recordReadBegin, wp_bind, wp_requireSource, wp_uint64, wp_uint32, wp_refuseIf]
  refine ⟨fun _ => hsame, fun s hs => ⟨fun _ => ⟨fun _ => ⟨fun _ => hsame, fun _ => ?_⟩,
    fun _ => hsame⟩, fun _ => hsame⟩⟩
  refine wp_phaseAfter (fun next hn ha => ?_) (fun _ _ => hsame)
  rw [wp_ite]
  refine ⟨fun _ => hsame, fun hdup => ?_⟩
  rw [Bool.not_eq_true] at hdup
  rw [hdup] at hn ha
  obtain ⟨rfl, -⟩ := readBegin_phase _ _ _ hn ha
  simp only [wp_bind, wp_of_exec (exec_checkSourceSnapshot hs _), wp_modify, wp_pure]
  rintro _ ⟨⟩
  exact .moved s hs ⟨by simp, by simp⟩ rfl

theorem interrupt_row (call : Call D) :
    wp (interrupt : StoreM D _) st (fun _ t => RowStep st call t)
      (fun _ t => RowStep st call t) := by
  have hsame := RowStep.unchanged st call
  simp only [interrupt, wp_bind, wp_requireSource, wp_ite, wp_pure, wp_refuseIf, wp_requireSome]
  refine ⟨fun _ => hsame, fun s hs => ⟨fun _ => hsame, fun _ => ⟨fun _ => hsame, fun ha =>
    ⟨fun _ => hsame, fun next hn => ?_⟩⟩⟩⟩
  obtain ⟨rfl, -⟩ := interruption_phase _ _ hn (not_not.mp ha)
  simp only [wp_of_exec (exec_checkSourceSnapshot hs _), wp_modify]
  rintro _ ⟨⟩
  exact .moved s hs ⟨by simp, by simp⟩ rfl

theorem sealSource_row (hi : Integrity cfg st) (generation count : ℤ) (digest : DigestText D)
    (call : Call D) :
    wp (sealSource cfg generation count digest) st (fun _ t => RowStep st call t)
      (fun _ t => RowStep st call t) := by
  have hsame := RowStep.unchanged st call
  cases digest with
  | malformed =>
    simp only [sealSource, wp_bind, wp_requireSource, wp_uint32, sha256Text, wp_throw]
    exact ⟨fun _ => hsame, fun _ _ => ⟨fun _ => hsame, fun _ => hsame⟩⟩
  | text d =>
    simp only [sealSource, wp_bind, wp_requireSource, wp_uint32, sha256Text, wp_pure, wp_refuseIf]
    refine ⟨fun _ => hsame, fun s hs => ⟨fun _ => ⟨fun _ => hsame, fun _ =>
      ⟨fun _ => hsame, fun _ => ?_⟩⟩, fun _ => hsame⟩⟩
    refine wp_phaseAfter (fun next hn ha => ?_) (fun _ _ => hsame)
    obtain ⟨rfl, -⟩ := done_phase _ _ hn ha
    simp only [wp_get]
    refine ⟨fun _ => hsame, fun _ => wp_authenticateCaptureSource (hi.present s hs) hs ?_⟩
    simp only [wp_of_exec (exec_checkSourceSnapshot hs _), wp_modify]
    refine ⟨fun _ => hsame, fun _ => ?_⟩
    rintro _ ⟨⟩
    exact .moved s hs ⟨by simp, by simp⟩ rfl

/-- One call, accepted or refused, changes the row in one of the ways of `RowChange`. -/
theorem step_row (hi : Integrity cfg st) (call : Call D) :
    RowStep st call (step cfg st call) := by
  have hsame := RowStep.unchanged st call
  have hcommit : ∀ {x : StoreM D ℕ} {now expected records incoming},
      (st.source = none → wp x st (fun _ _ => False) (fun e t => e ∉ conflictTexts ∧ t = st)) →
      (∀ s, st.source = some s → wp x st
        (fun n t => CommitOutcome cfg now st s expected records incoming (.ok n) t)
        (fun e t => CommitOutcome cfg now st s expected records incoming (.error e) t)) →
      RowStep st call (exec x st).2 := by
    intro x now expected records incoming habsent hpresent
    cases hs : st.source with
    | none =>
      refine wp_state (habsent hs) (fun _ _ h => h.elim) ?_
      rintro e _ ⟨-, rfl⟩
      exact hsame
    | some s =>
      exact wp_state (hpresent s hs) (fun _ _ h => commitOutcome_row hs h call)
        (fun _ _ h => commitOutcome_row hs h call)
  have hleg : ∀ {x : StoreM D ℕ}, wp x st (fun _ t => RowStep st call t)
      (fun _ t => RowStep st call t) → RowStep st call (exec x st).2 :=
    fun h => wp_state h (fun _ _ h => h) (fun _ _ h => h)
  cases call with
  | createSource kind start limit =>
    exact hleg (by simpa only [perform, wp_bind, wp_pure] using createSource_row kind start limit _)
  | prepareLeg start count =>
    exact hleg (by simpa only [perform, wp_bind, wp_pure] using prepareLeg_row start count)
  | recordReadBegin start count =>
    exact hleg (by simpa only [perform, wp_bind, wp_pure] using recordReadBegin_row start count _)
  | commitDrain now expected records checkpoint =>
    exact hcommit (fun hs => commitDrain_absent hs expected records checkpoint)
      (fun s hs => commitDrain_outcome hs hi expected records checkpoint)
  | commitTail now expected checkpoint =>
    exact hcommit (fun hs => commitTail_absent hs expected checkpoint)
      (fun s hs => commitTail_outcome hs hi expected checkpoint)
  | interrupt => exact hleg (by simpa only [perform, wp_bind, wp_pure] using interrupt_row _)
  | sealSource generation count digest =>
    exact hleg (by
      simpa only [perform, wp_bind, wp_pure] using sealSource_row hi generation count digest _)
  | reopen => exact hsame

end Calls

/-- A call prepares the leg from the durable frontier to the end of the range. -/
def OwnLeg (st : Store D) : Call D → Prop
  | .prepareLeg start count => ∀ s, st.source = some s →
      start = s.sequenceStart + s.committedCount ∧ start + count = s.sequenceLimit
  | _ => True

/-- The row that every run of calls leaves. -/
structure RowSound (s : CaptureSource D) : Prop where
  limit : s.sequenceLimit ≤ uint64Max
  prepared : s.lifecycle = .prepared → s.committedCount = 0

/-- A prepared leg is the rest of the range. -/
def OwnLegPrepared (s : CaptureSource D) : Prop :=
  s.lifecycle = .legPrepared →
    ∃ start count, s.preparedStart = some start ∧ s.preparedCount = some count ∧
      start = s.sequenceStart + s.committedCount ∧ start + count = s.sequenceLimit

section Runs

variable [DecidableEq D] {cfg : StoreConfig D}

theorem step_rowSound {st : Store D} (hi : Integrity cfg st)
    (h : ∀ s, st.source = some s → RowSound s) (call : Call D) :
    ∀ s, (step cfg st call).source = some s → RowSound s := by
  intro s' hs'
  cases step_row hi call s' hs' with
  | kept hrow => exact h s' hrow
  | created hphase hcount hlimit => exact ⟨hlimit, fun _ => hcount⟩
  | prepared s start count hrow hcall hafter hrange =>
    constructor
    · rw [hrange.2.1]
      exact (h s hrow).limit
    · intro hphase
      simp [hafter.1] at hphase
  | moved s hrow hphase hlimit =>
    constructor
    · rw [hlimit]
      exact (h s hrow).limit
    · exact fun hprepared => absurd hprepared hphase.1

theorem run_rowSound (cfg : StoreConfig D) (calls : List (Call D)) :
    ∀ s, (run (step cfg) initial calls).source = some s → RowSound s := by
  have hrun : Integrity cfg (run (step cfg) initial calls) ∧
      ∀ s, (run (step cfg) initial calls).source = some s → RowSound s :=
    run_invariant (P := fun st => Integrity cfg st ∧ ∀ s, st.source = some s → RowSound s)
      (Q := fun _ => True)
      (fun st call _ h => ⟨(step_effect h.1 call).integrity, step_rowSound h.1 h.2 call⟩)
      ⟨initial_integrity cfg, by simp [initial]⟩ (fun _ _ => trivial)
  exact hrun.2

theorem step_ownLeg {st : Store D} (hi : Integrity cfg st)
    (h : ∀ s, st.source = some s → OwnLegPrepared s) {call : Call D} (hown : OwnLeg st call) :
    ∀ s, (step cfg st call).source = some s → OwnLegPrepared s := by
  intro s' hs' hphase'
  cases step_row hi call s' hs' with
  | kept hrow => exact h s' hrow hphase'
  | created hphase => simp [hphase] at hphase'
  | prepared s start count hrow hcall hafter hrange =>
    subst hcall
    obtain ⟨hstart, hend⟩ := hown s hrow
    obtain ⟨-, hprepared, hcount⟩ := hafter
    obtain ⟨hrangeStart, hrangeLimit, hrangeCount⟩ := hrange
    refine ⟨start, count, hprepared, hcount, ?_, ?_⟩
    · rw [hrangeStart, hrangeCount]
      exact_mod_cast hstart
    · rw [hrangeLimit]
      exact_mod_cast hend
  | moved s hrow hphase => exact absurd hphase' hphase.2

/-- Where every leg is the rest of the range, so is the leg that a run leaves prepared. -/
theorem run_ownLeg (cfg : StoreConfig D) {calls : List (Call D)}
    (h : Along (step cfg) OwnLeg initial calls) :
    ∀ s, (run (step cfg) initial calls).source = some s → OwnLegPrepared s := by
  have hrun : Integrity cfg (run (step cfg) initial calls) ∧
      ∀ s, (run (step cfg) initial calls).source = some s → OwnLegPrepared s :=
    run_invariant_along (P := fun st => Integrity cfg st ∧ ∀ s, st.source = some s →
        OwnLegPrepared s) (A := OwnLeg)
      (fun st call hown h => ⟨(step_effect h.1 call).integrity, step_ownLeg h.1 h.2 hown⟩)
      ⟨initial_integrity cfg, by simp [initial]⟩ h
  exact hrun.2

end Runs

/-- The row after a resume. -/
def resumed (s : CaptureSource D) : CaptureSource D :=
  if s.lifecycle = .receiving then { s with lifecycle := .interrupted } else s

@[simp] theorem resumed_sequenceStart (s : CaptureSource D) :
    (resumed s).sequenceStart = s.sequenceStart := by
  unfold resumed
  split <;> rfl

@[simp] theorem resumed_sequenceLimit (s : CaptureSource D) :
    (resumed s).sequenceLimit = s.sequenceLimit := by
  unfold resumed
  split <;> rfl

@[simp] theorem resumed_committedCount (s : CaptureSource D) :
    (resumed s).committedCount = s.committedCount := by
  unfold resumed
  split <;> rfl

/-- A leg that was receiving is no longer prepared, so the resume frees no leg and blocks none. -/
theorem legFree_resumed (s : CaptureSource D) (start count : ℕ) :
    LegFree (resumed s) start count ↔ LegFree s start count := by
  by_cases hphase : s.lifecycle = .receiving
  · simp [LegFree, resumed, hphase]
  · rw [resumed, if_neg hphase]

theorem RowSound.resumed {s : CaptureSource D} (h : RowSound s) : RowSound (resumed s) := by
  by_cases hphase : s.lifecycle = .receiving
  · constructor
    · simpa using h.limit
    · simp [CaptureLegs.resumed, hphase]
  · rwa [CaptureLegs.resumed, if_neg hphase]

theorem sourceInvariant_resumed {cfg : StoreConfig D} {st : Store D} {s : CaptureSource D}
    (hi : SourceInvariant cfg st s) :
    SourceInvariant cfg { st with source := some (resumed s) } (resumed s) := by
  suffices h : SourceInvariant cfg st (resumed s) from h.congr rfl rfl rfl
  by_cases hphase : s.lifecycle = .receiving
  · rw [resumed, if_pos hphase]
    exact hi.update rfl rfl rfl rfl hi.legFloor hi.legFrontier hi.legLimit (by simp) (by simp)
      (fun _ => hi.unblocked (by simp [hphase])) hi.prepared
  · rwa [resumed, if_neg hphase]

section Resume

variable {cfg : StoreConfig D} {st : Store D} {s : CaptureSource D}

/-- The phase check of a leg: a second leg is refused while the first is prepared. -/
theorem wp_legPhase {phase : AudioPhase} {exact : Bool}
    (hphase : phase ∈ [AudioPhase.prepared, .legPrepared, .interrupted])
    {Q : AudioPhase → Store D → Prop} {E : String → Store D → Prop} :
    wp (phaseAfter (some phase) (.prepareLeg true exact false)
      (if (decide (phase = .legPrepared) && exact) = true then some .idempotent else none)) st Q E ↔
      (phase = .legPrepared ∧ exact = false →
        E "PREPARE_LEG is not valid for this source phase" st) ∧
      (¬ (phase = .legPrepared ∧ exact = false) → Q .legPrepared st) := by
  simp only [phaseAfter, wp_bind, wp_refuseIf, wp_requireSome]
  cases phase with
  | prepared | legPrepared | interrupted =>
    cases exact <;> simp [transition, AudioMachine.prepareLeg, refuse]
  | _ => simp at hphase

variable [DecidableEq D]

theorem wp_resumeStreamingAttempt (hs : st.source = some s) (hres : Resumable s)
    {Q : Option (CaptureSource D) → Store D → Prop} {E : String → Store D → Prop} :
    wp (resumeStreamingAttempt : StoreM D _) st Q E ↔
      Q (some (resumed s)) { st with source := some (resumed s) } := by
  have hsame : { st with source := some s } = st := by
    cases st
    simp_all
  simp only [resumeStreamingAttempt, wp_bind, wp_get, hs, if_pos hres]
  by_cases hphase : s.lifecycle = .receiving
  · have hcheck := exec_checkSourceSnapshot hs "interruption was not confirmed durable"
    have hdecision : transition (some .receiving) .interruption =
        ⟨some .interrupted, .persist, "transfer interrupted"⟩ := rfl
    simp [-map_bind, -bind_pure_comp, hphase, resumed, interrupt, hs, hdecision,
      wp_of_exec hcheck]
  · rw [if_neg hphase, resumed, if_neg hphase, hsame, wp_pure]

/-- The store accepts the rest of the range unless another leg is prepared or the generations ran
out. -/
theorem wp_prepareRest (hi : SourceInvariant cfg st s) (hrow : RowSound s) (hs : st.source = some s)
    (hphase : s.lifecycle ∈ [AudioPhase.prepared, .legPrepared, .interrupted]) {start : ℕ}
    (hstart : s.sequenceStart + s.committedCount = start) (hlt : start < s.sequenceLimit) :
    wp (CaptureStore.prepareLeg start ↑(s.sequenceLimit - start)) st
      (fun _ _ => True) (fun _ _ => False) ↔ LegFree s start (s.sequenceLimit - start) := by
  have hwidth := hi.width
  have hlimit := hrow.limit
  have hcheck := exec_checkSourceSnapshot hs "leg preparation was not confirmed durable"
  have hstartRange : (0 : ℤ) ≤ start ∧ (start : ℤ) ≤ uint64Max := by omega
  have hcountRange : (0 : ℤ) ≤ ↑(s.sequenceLimit - start) ∧
      (↑(s.sequenceLimit - start) : ℤ) ≤ maxProtocolUint32 := by omega
  have hrange : ¬ (s.sequenceLimit - start = 0 ∨ start < s.sequenceStart ∨
      start + (s.sequenceLimit - start) > s.sequenceLimit) := by omega
  have hfrontier : ¬ start > s.sequenceStart + s.committedCount := by omega
  have hinitial : ¬ (s.lifecycle = .prepared ∧ (start ≠ s.sequenceStart ∨
      start + (s.sequenceLimit - start) ≠ s.sequenceLimit)) := by
    rintro ⟨hprepared, hne⟩
    have := hrow.prepared hprepared
    omega
  simp only [CaptureStore.prepareLeg, wp_bind, wp_requireSource, hs, reduceCtorEq, false_implies,
    true_and, Option.some.injEq, forall_eq', wp_uint64, wp_uint32, hstartRange, hcountRange,
    Int.toNat_natCast, wp_refuseIf, hrange, hfrontier, hinitial, LegFree]
  have hsame : (s.preparedStart, s.preparedCount) = (some start, some (s.sequenceLimit - start)) ↔
      (some start, some (s.sequenceLimit - start)) = (s.preparedStart, s.preparedCount) := eq_comm
  rw [hsame, wp_legPhase hphase]
  by_cases hleg : s.lifecycle = .legPrepared
  · by_cases hexact : (some start, some (s.sequenceLimit - start)) =
        (s.preparedStart, s.preparedCount)
    · simp [hleg, hexact]
    · simp [hleg, hexact]
  · simp only [hleg, false_and, false_implies, not_false_eq_true, forall_const, true_and,
      decide_false, Bool.false_and, if_false, wp_bind, wp_refuseIf, wp_of_exec hcheck, wp_modify,
      wp_pure, Bool.false_eq_true]
    simp only [not_true_eq_false, implies_true, and_true, imp_false, not_false_eq_true]
    omega

/-- A resumed attempt prepares the rest of its range unless another leg stands in the way. -/
theorem prepare_resumed_iff (hi : SourceInvariant cfg st s) (hrow : RowSound s)
    (hs : st.source = some s) (hres : Resumable s) {start : ℕ}
    (hstart : s.sequenceStart + s.committedCount = start) (hlt : start < s.sequenceLimit) :
    Accepts (prepareResumed start ↑(s.sequenceLimit - start)) st ↔
      LegFree s start (s.sequenceLimit - start) := by
  have hphase : (resumed s).lifecycle ∈ [AudioPhase.prepared, .legPrepared, .interrupted] := by
    obtain ⟨-, hopen⟩ := hres
    by_cases hreceiving : s.lifecycle = .receiving
    · simp [resumed, hreceiving]
    · simpa [resumed, hreceiving] using hopen
  rw [accepts_iff_wp, prepareResumed, wp_bind, wp_resumeStreamingAttempt hs hres]
  have hrest := wp_prepareRest (sourceInvariant_resumed hi) hrow.resumed rfl hphase
    (by simpa using hstart) (by simpa using hlt)
  rw [resumed_sequenceLimit] at hrest
  rw [hrest, legFree_resumed]

end Resume

end CaptureLegs
