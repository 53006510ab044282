import OmiCollector.ArenaBuffer
import OmiCollector.BatchReconciler
import OmiCollector.CaptureLegs
import OmiCollector.CaptureReplay

/-! Admission of a resumed batch, from the INFO and the pending attempt to the READ of its rest.

Three functions check the device cursor on their own; the results here say that they agree, what
the fresh batch then decides, and when the arena and the store take the READ. -/
namespace BatchAdmission

open ClockModel (RingInfo)
open RefusalLogic BatchReconciler TransitionRuns
open TransferArena (recordSize)

/-- The bounds that `_admit_batch` gives its arena. -/
def arenaBounds (current : RingInfo) (stop : ℕ) (durableNext : Option ℕ) :
    Except String (ℤ × ℤ) :=
  let start := arenaStart current stop durableNext
  let count : ℤ := stop - start
  if count < 0 then .error "device cursor is outside the pending batch" else .ok (start, count)

/-- The batch that `_admit_batch` returns when the prepared records end at `next`. -/
def freshBatch (current : RingInfo) (start stop next : ℕ) : Batch :=
  ⟨some current, start, stop, ⟨next, false⟩, some ⟨next, next - start⟩, false⟩

inductive ReadDecision where
  | restart
  | publishPrefix
  | nothing
  /-- A READ from here to the end of the batch. -/
  | read (readStart : ℕ)
  deriving DecidableEq, Repr

/-- The checks of `_read_or_reconcile` before it awaits anything. -/
def readDecision (batch : Batch) (current : RingInfo) : Except String ReadDecision :=
  match batch.durable with
  | none => .error "batch has no prepared durable prefix"
  | some receipt =>
    if current.writeSequence < current.readSequence then
      .error "device cursor passed write sequence"
    else if current.readSequence < batch.start then .ok .restart
    else if current.writeSequence < batch.stop then .ok .restart
    else if receipt.nextSequence < current.readSequence then .ok .publishPrefix
    else if current.readSequence = batch.stop then .ok .nothing
    else if receipt.nextSequence = batch.stop then .ok .nothing
    else .ok (.read (max current.readSequence receipt.nextSequence))

/-- What the reconciler waits for next on a decision. -/
def ReadDecision.await (batch : Batch) (current : RingInfo) : ReadDecision → Await
  | .restart => .quarantineBatch
  | .publishPrefix => .publishPrefix
  | .nothing => requestSeal batch
  | .read readStart => .captureSpace current readStart

/-- The reconciler follows the decision. -/
theorem readOrReconcile_eq (batch : Batch) (current : RingInfo) :
    readOrReconcile batch current =
      match readDecision batch current with
      | .error _ => .idle
      | .ok decision => decision.await batch current := by
  unfold readOrReconcile readDecision
  cases batch.durable with
  | none => rfl
  | some receipt =>
    dsimp only
    split_ifs <;> rfl

/-- `_pending_incompatible` and `_batch_bounds` draw the same line. -/
theorem batchBounds_pending (current : RingInfo) (policy : RetryPolicy)
    (pending : AttemptDescriptor) (durableNext : Option ℕ) :
    (pendingIncompatible current pending durableNext = false ∧
      batchBounds current policy (some pending) durableNext =
        .ok (pending.startSequence, pending.startSequence + pending.packetCount)) ∨
    (pendingIncompatible current pending durableNext = true ∧
      ∃ text, batchBounds current policy (some pending) durableNext = .error text) := by
  simp only [pendingIncompatible, batchBounds]
  generalize cursorAhead current (pending.startSequence + pending.packetCount) durableNext = ahead
  by_cases hregressed : current.readSequence < pending.startSequence
  · exact .inr ⟨by simp [hregressed], _, if_pos hregressed⟩
  rw [if_neg hregressed]
  by_cases hpassed : pending.startSequence + pending.packetCount < current.readSequence ∧
      ahead = false
  · exact .inr ⟨by simp [hpassed], _, if_pos hpassed⟩
  rw [if_neg hpassed]
  by_cases hunavailable : current.writeSequence < pending.startSequence + pending.packetCount
  · exact .inr ⟨by simp [hunavailable], _, if_pos hunavailable⟩
  rw [if_neg hunavailable]
  by_cases hincomplete : unread current = false ∧
      current.readSequence ≠ pending.startSequence + pending.packetCount ∧ ahead = false
  · exact .inr ⟨by simp [hincomplete], _, if_pos hincomplete⟩
  rw [if_neg hincomplete]
  refine .inl ⟨?_, rfl⟩
  cases ahead <;> cases hunread : unread current <;>
    simp [hregressed, hunavailable] <;> simp_all

theorem cursor_of_compatible {current : RingInfo} {pending : AttemptDescriptor}
    {durableNext : Option ℕ} (h : pendingIncompatible current pending durableNext = false) :
    pending.startSequence ≤ current.readSequence ∧
      pending.startSequence + pending.packetCount ≤ current.writeSequence := by
  simp only [pendingIncompatible, Bool.or_eq_false_iff, decide_eq_false_iff_not, not_lt] at h
  obtain ⟨⟨⟨hstarted, -⟩, hwritten⟩, -⟩ := h
  exact ⟨hstarted, hwritten⟩

theorem arenaStart_le (current : RingInfo) {stop : ℕ} {durableNext : Option ℕ}
    (hdurable : ∀ d ∈ durableNext, d ≤ stop) : arenaStart current stop durableNext ≤ stop := by
  by_cases hbehind : durableNext.any fun d => decide (current.readSequence ≤ d)
  · obtain ⟨d, rfl, -⟩ := (Option.any_eq_true _ _).mp hbehind
    rw [arenaStart, if_pos hbehind]
    exact hdurable d rfl
  · rw [arenaStart, if_neg hbehind]
    by_cases hpassed : stop < current.readSequence
    · rw [if_pos hpassed]
    · rw [if_neg hpassed]
      exact not_lt.mp hpassed

/-- The arena of a compatible batch ends with the batch. -/
theorem arenaBounds_ok (current : RingInfo) {stop : ℕ} {durableNext : Option ℕ}
    (hdurable : ∀ d ∈ durableNext, d ≤ stop) :
    ∃ count : ℕ, arenaBounds current stop durableNext =
        .ok (arenaStart current stop durableNext, count) ∧
      arenaStart current stop durableNext + count = stop := by
  have hle := arenaStart_le current hdurable
  refine ⟨stop - arenaStart current stop durableNext, ?_, by omega⟩
  simp only [arenaBounds]
  rw [if_neg (by omega)]
  congr 2
  omega

/-- The reconciler waits for a writer exactly when both functions return bounds. -/
theorem ensureAdmitted_eq (policy : RetryPolicy) (s : State) (current : RingInfo) :
    ensureAdmitted policy s current =
      if unread current = false ∧ s.pendingDescriptor = none then .idle
      else
        match batchBounds current policy s.pendingDescriptor s.pendingDurableNext with
        | .error _ => .idle
        | .ok (start, stop) =>
          match arenaBounds current stop s.pendingDurableNext with
          | .error _ => .idle
          | .ok _ => .admitBatch current start stop := by
  unfold ensureAdmitted
  split
  · rfl
  cases batchBounds current policy s.pendingDescriptor s.pendingDurableNext with
  | error text => rfl
  | ok bounds =>
    obtain ⟨start, stop⟩ := bounds
    dsimp only [arenaBounds]
    by_cases hshort : stop < arenaStart current stop s.pendingDurableNext
    · rw [if_pos hshort, if_pos (by omega)]
    · rw [if_neg hshort, if_neg (by omega)]

/-- A resumed batch waits for a writer of its whole range. -/
theorem ensureBatch_resumed {policy : RetryPolicy} {s : System} {current : RingInfo}
    {pending : AttemptDescriptor} (hbatch : s.state.batch = none)
    (hpending : s.state.pendingDescriptor = some pending)
    (hcompatible : pendingIncompatible current pending s.state.pendingDurableNext = false)
    (hdurable : ∀ d ∈ s.state.pendingDurableNext,
      d ≤ pending.startSequence + pending.packetCount) :
    ensureBatch policy s current = s.wait (.admitBatch current pending.startSequence
      (pending.startSequence + pending.packetCount)) := by
  have hbounds : batchBounds current policy (some pending) s.state.pendingDurableNext =
      .ok (pending.startSequence, pending.startSequence + pending.packetCount) := by
    rcases batchBounds_pending current policy pending s.state.pendingDurableNext with h | h
    · exact h.2
    · exact absurd (hcompatible.symm.trans h.1) (by simp)
  obtain ⟨count, harena, -⟩ := arenaBounds_ok current hdurable
  simp [ensureBatch, hbatch, hpending, hcompatible, ensureAdmitted_eq, hbounds, harena]

/-- The writer reports the expected records, and the step goes on with the fresh batch. -/
theorem onAdmitted_resumed {policy : RetryPolicy} {s : System} {current : RingInfo}
    {start stop next : ℕ} (hawait : s.await = .admitBatch current start stop)
    (hstart : start ≤ next) (hstop : next ≤ stop)
    (hdurable : ∀ d ∈ s.state.pendingDurableNext, next = d) :
    onAdmitted policy s next =
      withBatch policy (s.note (.durable start next)) (freshBatch current start stop next)
        current := by
  have hsame : ¬ (s.state.pendingDurableNext.any fun d => decide (next ≠ d)) = true := by
    rw [Option.any_eq_true]
    rintro ⟨d, hd, hne⟩
    exact absurd (hdurable d hd) (by simpa using hne)
  rw [onAdmitted, hawait]
  dsimp only
  rw [if_pos ⟨hstart, hstop⟩, if_neg hsame]
  rfl

/-- A fresh batch that the cursor met is published up to its records, complete, or read on. -/
theorem readDecision_fresh {current : RingInfo} {start stop next : ℕ}
    (hcursor : current.readSequence ≤ current.writeSequence)
    (hstarted : start ≤ current.readSequence) (hwritten : stop ≤ current.writeSequence)
    (hnext : next ≤ stop) :
    readDecision (freshBatch current start stop next) current =
      if next < current.readSequence then .ok .publishPrefix
      else if next = stop then .ok .nothing
      else .ok (.read next) := by
  by_cases hahead : next < current.readSequence
  · simp [readDecision, freshBatch, not_lt.mpr hcursor, not_lt.mpr hstarted, not_lt.mpr hwritten,
      hahead]
  by_cases hstop : next = stop
  · simp [readDecision, freshBatch, not_lt.mpr hcursor, not_lt.mpr hstarted, not_lt.mpr hwritten,
      hstop]
  have hcomplete : current.readSequence ≠ stop := by omega
  simp [readDecision, freshBatch, not_lt.mpr hcursor, not_lt.mpr hstarted, not_lt.mpr hwritten,
    hahead, hstop, hcomplete, not_lt.mp hahead]

/-- Where a step with a resumed batch gets to once the writer reported its records. -/
theorem resumed_step {policy : RetryPolicy} {s : System} {current : RingInfo}
    {pending : AttemptDescriptor} {next : ℕ} {decision : ReadDecision}
    (hbatch : s.state.batch = none) (hpending : s.state.pendingDescriptor = some pending)
    (hcompatible : pendingIncompatible current pending s.state.pendingDurableNext = false)
    (hstart : pending.startSequence ≤ next)
    (hnext : next ≤ pending.startSequence + pending.packetCount)
    (hdurable : ∀ d ∈ s.state.pendingDurableNext, next = d)
    (hdecision : readDecision (freshBatch current pending.startSequence
      (pending.startSequence + pending.packetCount) next) current = .ok decision) :
    (onAdmitted policy (ensureBatch policy s current) next).await =
      decision.await (freshBatch current pending.startSequence
        (pending.startSequence + pending.packetCount) next) current := by
  have hend : ∀ d ∈ s.state.pendingDurableNext, d ≤ pending.startSequence + pending.packetCount :=
    fun d hd => hdurable d hd ▸ hnext
  have hgoes := @onAdmitted_resumed policy (s.wait (.admitBatch current pending.startSequence
    (pending.startSequence + pending.packetCount))) current _ _ next rfl hstart hnext hdurable
  rw [ensureBatch_resumed hbatch hpending hcompatible hend, hgoes]
  change readOrReconcile (freshBatch current pending.startSequence
    (pending.startSequence + pending.packetCount) next) current = _
  rw [readOrReconcile_eq, hdecision]

theorem requireUint_natCast (n : ℕ) (label : String) :
    ArenaBuffer.requireUint n label = .ok n := by
  rw [ArenaBuffer.requireUint, if_neg (by omega), Int.toNat_natCast]

theorem create_bounds {first count : ℕ} {maxBytes size : ℤ} {arena : ArenaBuffer.Arena}
    (h : ArenaBuffer.create first count maxBytes size = .ok arena) :
    arena.startSequence = first ∧ arena.totalRecords = count ∧ arena.receivedBytes = 0 := by
  unfold ArenaBuffer.create at h
  simp only [bind, Except.bind, pure, Except.pure, throw, throwThe, MonadExceptOf.throw,
    requireUint_natCast] at h
  split at h
  · cases h
  split at h
  · cases h
  split at h
  · cases h
  obtain rfl := Except.ok.inj h
  exact ⟨rfl, rfl, rfl⟩

/-- A new arena holds nothing yet, so a leg to its end has to start where it starts. -/
theorem accepts_beginLeg_fresh {first count start total : ℕ} {maxBytes size : ℤ}
    {arena : ArenaBuffer.Arena} (harena : ArenaBuffer.create first count maxBytes size = .ok arena)
    (hfirst : first ≤ start) (htotal : 0 < total) (hend : start + total = first + count) :
    Accepts (ArenaBuffer.beginLeg start total) arena ↔ start = first := by
  obtain ⟨hstart, hrecords, hempty⟩ := create_bounds harena
  have hnext : arena.nextSequence = first := by
    simp [ArenaBuffer.Arena.nextSequence, ArenaBuffer.Arena.completeRecords, hstart, hempty]
  have hbound : arena.endSequence = first + count := by
    rw [ArenaBuffer.Arena.endSequence, hstart, hrecords]
  simp only [accepts_iff_wp, ArenaBuffer.beginLeg, wp_bind, wp_requireOk, requireUint_natCast,
    reduceCtorEq, false_implies, implies_true, true_and, Except.ok.injEq, forall_eq', wp_refuseIf,
    wp_get, wp_modify, hnext, hbound, hstart]
  constructor
  · rintro ⟨-, h⟩
    have hnotPast : ¬ first < start := (((h htotal.ne').2 (not_lt.mpr hfirst)).2 (by omega)).1
    omega
  · rintro rfl
    exact ⟨by omega, fun _ => ⟨by omega, fun _ => ⟨by omega, fun _ => ⟨by omega, trivial⟩⟩⟩⟩

/-- What the arena and the store make of the READ from `next` to the end of the pending batch. -/
structure ReadTaken (D : Type) [DecidableEq D] (current : RingInfo) (pending : AttemptDescriptor)
    (durableNext : Option ℕ) (next : ℕ) : Prop where
  /-- The arena takes the leg unless the records go past a cursor where no frontier is known. -/
  arena : ∀ (first count : ℕ) (maxBytes : ℤ) (arena : ArenaBuffer.Arena),
    arenaBounds current (pending.startSequence + pending.packetCount) durableNext =
      .ok (first, count) →
    ArenaBuffer.create first count maxBytes recordSize = .ok arena →
    (Accepts (ArenaBuffer.beginLeg next ↑(pending.startSequence + pending.packetCount - next))
      arena ↔ durableNext.isSome ∨ next = current.readSequence)
  /-- The store takes the leg for the resumed source of the batch unless another leg is prepared
  or the generations ran out. -/
  store : ∀ (cfg : CaptureStore.StoreConfig D) (calls : List (CaptureStore.Call D))
    (source : CaptureModel.CaptureSource D),
    (run (CaptureStore.step cfg) CaptureStore.initial calls).source = some source →
    CaptureLegs.Resumable source →
    source.sequenceStart = pending.startSequence →
    source.sequenceLimit = pending.startSequence + pending.packetCount →
    source.sequenceStart + source.committedCount = next →
    (Accepts (CaptureLegs.prepareResumed next
        ↑(pending.startSequence + pending.packetCount - next))
      (run (CaptureStore.step cfg) CaptureStore.initial calls) ↔
      CaptureLegs.LegFree source next (pending.startSequence + pending.packetCount - next)) ∧
    (Along (CaptureStore.step cfg) CaptureLegs.OwnLeg CaptureStore.initial calls →
      source.lifecycle = .legPrepared →
      CaptureLegs.LegFree source next (pending.startSequence + pending.packetCount - next))

/-- A READ that the reconciler decides on starts where the arena does, if the frontier is known. -/
theorem arenaStart_of_read {current : RingInfo} {stop next : ℕ} {durableNext : Option ℕ}
    (hcursor : current.readSequence ≤ next) (hnext : next < stop)
    (hprepared : ∀ d ∈ durableNext, next = d) :
    arenaStart current stop durableNext ≤ next ∧
      (next = arenaStart current stop durableNext ↔
        durableNext.isSome ∨ next = current.readSequence) := by
  cases durableNext with
  | none =>
    have hfirst : arenaStart current stop none = current.readSequence := by
      simp [arenaStart, show ¬ stop < current.readSequence by omega]
    simp [hfirst, hcursor]
  | some d =>
    obtain rfl := hprepared d rfl
    simp [arenaStart, hcursor]

theorem readTaken {D : Type} [DecidableEq D] {current : RingInfo} {pending : AttemptDescriptor}
    {durableNext : Option ℕ} {next : ℕ}
    (hend : ∀ d ∈ durableNext, d ≤ pending.startSequence + pending.packetCount)
    (hcursor : current.readSequence ≤ next)
    (hnext : next < pending.startSequence + pending.packetCount)
    (hprepared : ∀ d ∈ durableNext, next = d) : ReadTaken D current pending durableNext next := by
  constructor
  · intro first count maxBytes arena hbounds harena
    obtain ⟨hle, hstart⟩ := arenaStart_of_read hcursor hnext hprepared
    obtain ⟨count', hok, hsum⟩ := arenaBounds_ok current hend
    obtain ⟨hfirst, hcount⟩ := Prod.mk.inj (Except.ok.inj (hok.symm.trans hbounds))
    have hfirst' : first = arenaStart current (pending.startSequence + pending.packetCount)
      durableNext := by exact_mod_cast hfirst.symm
    rw [accepts_beginLeg_fresh harena (by omega) (by omega) (by omega), ← hstart, hfirst']
  · intro cfg calls source hsource hresumable hstart hlimit hfrontier
    have hrow := CaptureLegs.run_rowSound cfg calls source hsource
    have hinv := (CaptureIntegrity.run_integrity cfg calls).present source hsource
    constructor
    · rw [← hlimit]
      exact CaptureLegs.prepare_resumed_iff hinv hrow hsource hresumable hfrontier (by omega)
    · intro halong hphase
      rw [CaptureLegs.LegFree, if_pos hphase]
      obtain ⟨start, count, hpreparedStart, hpreparedCount, hown, hrest⟩ :=
        CaptureLegs.run_ownLeg cfg halong source hsource hphase
      rw [hpreparedStart, hpreparedCount]
      congr 2 <;> omega

/-- Admission of a resumed batch: the incompatible attempts are the ones without bounds, and a
compatible one gets the arena and one of three decisions, which the reconciler's step follows. -/
theorem resumed_admission (D : Type) [DecidableEq D] (current : RingInfo) (policy : RetryPolicy)
    (pending : AttemptDescriptor) (durableNext : Option ℕ)
    (hcursor : current.readSequence ≤ current.writeSequence)
    (hdurable : ∀ d ∈ durableNext, pending.startSequence ≤ d ∧
      d ≤ pending.startSequence + pending.packetCount) :
    (pendingIncompatible current pending durableNext = true →
      ∃ text, batchBounds current policy (some pending) durableNext = .error text) ∧
    (pendingIncompatible current pending durableNext = false →
      batchBounds current policy (some pending) durableNext =
        .ok (pending.startSequence, pending.startSequence + pending.packetCount) ∧
      (∃ first count : ℤ, arenaBounds current (pending.startSequence + pending.packetCount)
          durableNext = .ok (first, count) ∧ 0 ≤ first ∧ 0 ≤ count ∧
        first + count = pending.startSequence + pending.packetCount) ∧
      ∀ next, pending.startSequence ≤ next →
        next ≤ pending.startSequence + pending.packetCount → (∀ d ∈ durableNext, next = d) →
        ∃ decision, readDecision (freshBatch current pending.startSequence
            (pending.startSequence + pending.packetCount) next) current = .ok decision ∧
          (decision = .publishPrefix ∧ next < current.readSequence ∨
            decision = .nothing ∧ current.readSequence ≤ next ∧
              next = pending.startSequence + pending.packetCount ∨
            decision = .read next ∧ current.readSequence ≤ next ∧
              next < pending.startSequence + pending.packetCount ∧
              ReadTaken D current pending durableNext next) ∧
          ∀ s : System, s.state.batch = none → s.state.pendingDescriptor = some pending →
            s.state.pendingDurableNext = durableNext →
            (onAdmitted policy (ensureBatch policy s current) next).await =
              decision.await (freshBatch current pending.startSequence
                (pending.startSequence + pending.packetCount) next) current) := by
  have hend : ∀ d ∈ durableNext, d ≤ pending.startSequence + pending.packetCount :=
    fun d hd => (hdurable d hd).2
  rcases batchBounds_pending current policy pending durableNext with
    ⟨hcompatible, hbounds⟩ | ⟨hincompatible, hrefused⟩
  · refine ⟨fun h => absurd (hcompatible.symm.trans h) (by simp), fun _ => ⟨hbounds, ?_, ?_⟩⟩
    · obtain ⟨count, hok, hsum⟩ := arenaBounds_ok current hend
      exact ⟨_, count, hok, by omega, by omega, by omega⟩
    · intro next hstart hnext hprepared
      obtain ⟨hstarted, hwritten⟩ := cursor_of_compatible hcompatible
      have hdecision := readDecision_fresh hcursor hstarted hwritten hnext
      have hstep : ∀ s : System, s.state.batch = none → s.state.pendingDescriptor = some pending →
          s.state.pendingDurableNext = durableNext → ∀ decision, readDecision (freshBatch current
            pending.startSequence (pending.startSequence + pending.packetCount) next) current =
              .ok decision →
          (onAdmitted policy (ensureBatch policy s current) next).await =
            decision.await (freshBatch current pending.startSequence
              (pending.startSequence + pending.packetCount) next) current := by
        rintro s hbatch hpending rfl decision hok
        exact resumed_step hbatch hpending hcompatible hstart hnext hprepared hok
      by_cases hahead : next < current.readSequence
      · rw [if_pos hahead] at hdecision
        exact ⟨_, hdecision, .inl ⟨rfl, hahead⟩, fun s hb hp hd => hstep s hb hp hd _ hdecision⟩
      rw [if_neg hahead] at hdecision
      by_cases hcomplete : next = pending.startSequence + pending.packetCount
      · rw [if_pos hcomplete] at hdecision
        exact ⟨_, hdecision, .inr (.inl ⟨rfl, not_lt.mp hahead, hcomplete⟩),
          fun s hb hp hd => hstep s hb hp hd _ hdecision⟩
      rw [if_neg hcomplete] at hdecision
      refine ⟨_, hdecision, .inr (.inr ⟨rfl, not_lt.mp hahead, by omega, ?_⟩),
        fun s hb hp hd => hstep s hb hp hd _ hdecision⟩
      exact readTaken hend (not_lt.mp hahead) (by omega) hprepared
  · exact ⟨fun _ => hrefused, fun h => absurd (hincompatible.symm.trans h) (by simp)⟩

/-- Two records are pending, the first is durable, and the device still holds both. -/
def resumedInfo : RingInfo := ⟨0, 2⟩

def resumedPending : AttemptDescriptor := ⟨0, 2⟩

/-- One record of two arrived, then the transfer broke off. -/
def brokenOff : List (CaptureStore.Call ByteCodec.Bytes) :=
  [.createSource (some .attempt) 0 2, .prepareLeg 0 2, .recordReadBegin 0 2,
    .commitDrain 0 0 [CaptureReplay.silence.record 0] ⟨1, none, none⟩]

/-- The same, and a leg that replays the record was prepared before the process ended. -/
def replayPrepared : List (CaptureStore.Call ByteCodec.Bytes) :=
  brokenOff ++ [.interrupt, .prepareLeg 0 2]

theorem brokenOff_source :
    ((run (CaptureStore.step CaptureReplay.transparentConfig) CaptureStore.initial
      brokenOff).source.any fun s => decide (CaptureLegs.Resumable s ∧ s.sequenceStart = 0 ∧
        s.sequenceLimit = 2 ∧ s.sequenceStart + s.committedCount = 1 ∧
        CaptureLegs.LegFree s 1 1)) = true := by
  decide +kernel

theorem resumed_admission_second_record :
    readDecision (freshBatch resumedInfo 0 2 1) resumedInfo = .ok (.read 1) ∧
    (∀ (maxBytes : ℤ) (arena : ArenaBuffer.Arena),
      ArenaBuffer.create 1 1 maxBytes recordSize = .ok arena →
        Accepts (ArenaBuffer.beginLeg 1 1) arena) ∧
    Accepts (CaptureLegs.prepareResumed 1 1)
      (run (CaptureStore.step CaptureReplay.transparentConfig) CaptureStore.initial brokenOff) := by
  obtain ⟨-, hcompatible⟩ := resumed_admission ByteCodec.Bytes resumedInfo ⟨1000, true⟩
    resumedPending (some 1) (by decide) (by simp [resumedPending])
  obtain ⟨-, -, hdecided⟩ := hcompatible (by decide)
  obtain ⟨decision, hdecision, hcases, -⟩ := hdecided 1 (by decide) (by decide) (by simp)
  have hread : readDecision (freshBatch resumedInfo 0 2 1) resumedInfo = .ok (.read 1) := by
    decide
  obtain rfl := Except.ok.inj (hread.symm.trans hdecision)
  obtain ⟨-, -, -, htaken⟩ : ReadDecision.read 1 = .read 1 ∧ resumedInfo.readSequence ≤ 1 ∧
      1 < resumedPending.startSequence + resumedPending.packetCount ∧
      ReadTaken ByteCodec.Bytes resumedInfo resumedPending (some 1) 1 := by
    simpa using hcases
  refine ⟨hread, fun maxBytes arena harena => ?_, ?_⟩
  · exact (htaken.arena 1 1 maxBytes arena (by decide) harena).mpr (.inl rfl)
  · obtain ⟨source, hsource, hfacts⟩ := (Option.any_eq_true _ _).mp brokenOff_source
    obtain ⟨hresumable, hstart, hlimit, hfrontier, hfree⟩ := of_decide_eq_true hfacts
    exact (htaken.store _ brokenOff source hsource hresumable hstart hlimit hfrontier).1.mpr hfree

/-- Without a known frontier the arena of a batch starts at the cursor, before the records of the
prepared attempt; and a source that has another leg prepared does not take the rest. -/
theorem resumed_read_refused :
    (pendingIncompatible resumedInfo resumedPending none = false ∧
      readDecision (freshBatch resumedInfo 0 2 1) resumedInfo = .ok (.read 1) ∧
      ∃ arena, arenaBounds resumedInfo 2 none = .ok (0, 2) ∧
        ArenaBuffer.create 0 2 888 444 = .ok arena ∧ ¬ Accepts (ArenaBuffer.beginLeg 1 1) arena) ∧
    pendingIncompatible resumedInfo resumedPending (some 1) = false ∧
      readDecision (freshBatch resumedInfo 0 2 1) resumedInfo = .ok (.read 1) ∧
      ¬ Accepts (CaptureLegs.prepareResumed 1 1)
        (run (CaptureStore.step CaptureReplay.transparentConfig) CaptureStore.initial
          replayPrepared) := by
  refine ⟨⟨by decide, by decide, ⟨0, 2, List.replicate 888 0, 0, 0, 0, 0, 888⟩, by decide,
    by decide +kernel, by decide +kernel⟩, by decide, by decide, ?_⟩
  decide +kernel

end BatchAdmission
