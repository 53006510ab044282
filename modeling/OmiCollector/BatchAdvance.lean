import OmiCollector.BatchReconciler

/-! What a batch reconciler asks of the device: ADVANCE only over durable, sealed records and on
an INFO requested after the seal, READ only from the durable prefix on, and a visit frontier that
durable records bear out. -/
namespace BatchAdvance

open BatchReconciler
open ClockModel (RingInfo)

/-- The newest INFO of a log. -/
def latestInfo : List Act → Option RingInfo
  | [] => none
  | .observed info :: _ => some info
  | .given info :: _ => some info
  | _ :: rest => latestInfo rest

def DurableIn (log : List Act) (sequence : ℕ) : Prop :=
  ∃ start next, Act.durable start next ∈ log ∧ start ≤ sequence ∧ sequence < next

/-- The pending INFO request was made when the batch was already sealed. -/
def RequestedAfterSeal (log : List Act) (batch : Batch) : Prop :=
  ∃ since before, log = since ++ .infoRequested :: before ∧
    .batchSealed batch.start batch.stop ∈ before ∧ ∀ act ∈ since, ∃ start next, act = .durable start next

/-- What a batch's receipts say is true of its writer and of the log. -/
structure BatchInv (log : List Act) (batch : Batch) : Prop where
  lower : batch.start ≤ batch.writer.durableNext
  upper : batch.writer.durableNext ≤ batch.stop
  durable : Act.durable batch.start batch.writer.durableNext ∈ log
  receipt : ∀ receipt ∈ batch.durable, batch.start ≤ receipt.nextSequence ∧
    receipt.nextSequence ≤ batch.writer.durableNext ∧
    receipt.recordCount = receipt.nextSequence - batch.start
  full : batch.writer.isSealed = true → batch.writer.durableNext = batch.stop
  held : batch.sealReceipt = true →
    batch.writer.isSealed = true ∧ Act.batchSealed batch.start batch.stop ∈ log

/-- Durable records reach this far. -/
def Reached (log : List Act) (frontier : ℕ) : Prop :=
  ∃ start next, Act.durable start next ∈ log ∧ start < next ∧ frontier ≤ next

structure StateInv (log : List Act) (state : State) : Prop where
  batch : ∀ batch ∈ state.batch, BatchInv log batch
  frontier : ∀ frontier ∈ state.visitFrontier, Reached log frontier

/-- What an await remembers of the INFO and of the batch it is for. -/
def AwaitInv (log : List Act) (state : State) : Await → Prop
  | .quarantinePending current => latestInfo log = some current
  | .admitBatch current _ _ => latestInfo log = some current
  | .captureSpace current readStart => latestInfo log = some current ∧
      current.readSequence ≤ readStart ∧ ∃ batch receipt, state.batch = some batch ∧
        batch.durable = some receipt ∧ receipt.nextSequence = readStart ∧ readStart < batch.stop
  | .advanceInfo => ∃ batch, state.batch = some batch ∧ batch.sealReceipt = true ∧
      RequestedAfterSeal log batch
  | _ => True

structure Inv (s : System) : Prop where
  state : StateInv s.log s.state
  await : AwaitInv s.log s.state s.await

theorem BatchInv.mono {log log' : List Act} {batch : Batch} (h : BatchInv log batch)
    (hlog : ∀ act ∈ log, act ∈ log') : BatchInv log' batch :=
  { h with
    durable := hlog _ h.durable
    held := fun hheld => ⟨(h.held hheld).1, hlog _ (h.held hheld).2⟩ }

theorem BatchInv.durableIn {log : List Act} {batch : Batch} (h : BatchInv log batch) {x : ℕ}
    (hstart : batch.start ≤ x) (hnext : x < batch.writer.durableNext) : DurableIn log x :=
  ⟨_, _, h.durable, hstart, hnext⟩

/-- A non-empty prefix within the writer's is borne out by the writer's. -/
theorem BatchInv.reached {log : List Act} {batch : Batch} (h : BatchInv log batch) {n : ℕ}
    (hstart : batch.start < n) (hnext : n ≤ batch.writer.durableNext) : Reached log n :=
  ⟨_, _, h.durable, hstart.trans_le hnext, hnext⟩

theorem StateInv.mono {log log' : List Act} {state : State} (h : StateInv log state)
    (hlog : ∀ act ∈ log, act ∈ log') : StateInv log' state where
  batch := fun batch hbatch => (h.batch batch hbatch).mono hlog
  frontier := fun frontier hfrontier => by
    obtain ⟨start, next, hmem, hlt, hle⟩ := h.frontier frontier hfrontier
    exact ⟨start, next, hlog _ hmem, hlt, hle⟩

theorem StateInv.setBatch {log : List Act} {state : State} {batch : Batch}
    (h : StateInv log state) (hbatch : BatchInv log batch) :
    StateInv log { state with batch := some batch } where
  batch := fun b hb => by
    obtain rfl := Option.some.inj hb
    exact hbatch
  frontier := h.frontier

theorem StateInv.retire {log : List Act} {state : State} (h : StateInv log state) :
    StateInv log state.retire := ⟨fun _ hbatch => absurd hbatch (by simp [State.retire]), h.frontier⟩

theorem StateInv.raise {log : List Act} {state : State} (h : StateInv log state) {next : ℕ}
    (hnext : Reached log next) :
    StateInv log { state with visitFrontier := raisedFrontier state.visitFrontier next } where
  batch := h.batch
  frontier := fun frontier hfrontier => by
    obtain rfl := Option.some.inj hfrontier
    cases hcase : state.visitFrontier with
    | none => simpa using hnext
    | some old =>
      rcases le_total old next with hle | hle
      · simpa [max_eq_right hle] using hnext
      · simpa [max_eq_left hle] using h.frontier old hcase

theorem StateInv.retainDurableFrontier {log : List Act} {state : State} {batch : Batch}
    {receipt : DurablePrefix} (h : StateInv log state) (hbatch : BatchInv log batch)
    (hreceipt : receipt ∈ batch.durable) : StateInv log (state.retainDurableFrontier receipt) := by
  obtain ⟨-, hle, hcount⟩ := hbatch.receipt receipt hreceipt
  unfold State.retainDurableFrontier
  split
  · exact h
  · exact h.raise (hbatch.reached (by omega) hle)

theorem StateInv.retainBatchEnd {log : List Act} {state : State} {batch : Batch}
    (h : StateInv log state) (hbatch : BatchInv log batch) (hheld : batch.sealReceipt = true) :
    StateInv log (state.retainBatchEnd batch) := by
  have hfull := hbatch.full (hbatch.held hheld).1
  unfold State.retainBatchEnd
  split
  · exact h
  · rename_i hcount
    exact h.raise (hbatch.reached (by unfold Batch.count at hcount; omega) hfull.ge)

/-- Taking the writer's receipt keeps a batch truthful. -/
theorem BatchInv.withReceipt {log : List Act} {batch : Batch} (h : BatchInv log batch) :
    BatchInv log { batch with durable := some batch.receipt } :=
  { h with
    receipt := fun receipt hreceipt => by
      obtain rfl := Option.some.inj hreceipt
      exact ⟨h.lower, le_rfl, rfl⟩ }

theorem BatchInv.withInfo {log : List Act} {batch : Batch} (h : BatchInv log batch)
    (info : Option RingInfo) : BatchInv log { batch with info := info } := { h with }

theorem BatchInv.withSeal {log : List Act} {batch : Batch} (h : BatchInv log batch)
    (hsealed : batch.writer.isSealed = true) :
    BatchInv (.batchSealed batch.start batch.stop :: log) { batch with sealReceipt := true } :=
  { h.mono fun _ => List.mem_cons_of_mem _ with
    held := fun _ => ⟨hsealed, List.mem_cons_self⟩ }

theorem BatchInv.persistTo {log : List Act} {batch : Batch} (h : BatchInv log batch) (n : ℕ) :
    BatchInv (.durable batch.start (persistTo batch n).writer.durableNext :: log)
      (persistTo batch n) := by
  unfold BatchReconciler.persistTo
  split
  · rename_i hn
    exact
      { h.mono fun _ => List.mem_cons_of_mem _ with
        lower := h.lower.trans hn.1
        upper := hn.2
        durable := List.mem_cons_self
        receipt := fun receipt hreceipt =>
          have hr := h.receipt receipt hreceipt
          ⟨hr.1, hr.2.1.trans hn.1, hr.2.2⟩
        full := fun hsealed => le_antisymm hn.2 ((h.full hsealed).ge.trans hn.1) }
  · exact h.mono fun _ => List.mem_cons_of_mem _

theorem BatchInv.sealWriter {log : List Act} {batch : Batch} (h : BatchInv log batch) :
    BatchInv log (sealWriter batch) := by
  unfold BatchReconciler.sealWriter
  split
  · rename_i hfull
    exact
      { h with
        full := fun _ => hfull
        held := fun hheld => ⟨rfl, (h.held hheld).2⟩ }
  · exact h

theorem StateInv.adoptPrefix {log : List Act} {state : State} {batch : Batch}
    (h : StateInv log state) (hbatch : BatchInv log batch) :
    StateInv log (adoptPrefix state batch) := by
  have hadopted := h.setBatch hbatch.withReceipt
  exact StateInv.retainDurableFrontier ⟨hadopted.batch, hadopted.frontier⟩ hbatch.withReceipt rfl

/-! ## One step keeps the invariant -/

theorem mem_wait_log {s : System} {await : Await} {act : Act} (h : act ∈ s.log) :
    act ∈ (s.wait await).log := by
  unfold System.wait
  split
  · exact List.mem_cons_of_mem _ h
  · exact h

theorem latestInfo_wait (s : System) (await : Await) :
    latestInfo (s.wait await).log = latestInfo s.log := by
  unfold System.wait
  split <;> rfl

theorem Inv.wait {s : System} {await : Await} (h : StateInv s.log s.state)
    (hawait : AwaitInv (s.wait await).log s.state await) : Inv (s.wait await) :=
  ⟨h.mono fun _ => mem_wait_log, hawait⟩

theorem ensureAdmitted_awaitInv {log : List Act} {current : RingInfo} (policy : RetryPolicy)
    (state state' : State) (h : latestInfo log = some current) :
    AwaitInv log state' (ensureAdmitted policy state current) := by
  unfold ensureAdmitted
  split
  · trivial
  · split
    · trivial
    · split
      · trivial
      · exact h

theorem requestSeal_awaitInv (log : List Act) (state : State) (batch : Batch) :
    AwaitInv log state (requestSeal batch) := by
  unfold requestSeal
  split
  · split
    · trivial
    · split <;> trivial
  · trivial

/-- A READ is prepared only from the durable prefix, with the cursor not past it. -/
theorem readOrReconcile_awaitInv {log log' : List Act} {state : State} {batch : Batch}
    {current : RingInfo} (hbatch : BatchInv log' batch) (hstate : state.batch = some batch)
    (hinfo : latestInfo log = some current) :
    AwaitInv log state (readOrReconcile batch current) := by
  unfold readOrReconcile
  cases hdurable : batch.durable with
  | none => trivial
  | some receipt =>
    have hreceipt := hbatch.receipt receipt hdurable
    have hupper := hbatch.upper
    simp only
    split
    · trivial
    split
    · trivial
    split
    · trivial
    split
    · trivial
    rename_i hcursor
    split
    · exact requestSeal_awaitInv log state batch
    split
    · exact requestSeal_awaitInv log state batch
    rename_i hopen
    have hstart : max current.readSequence receipt.nextSequence = receipt.nextSequence :=
      max_eq_right (not_lt.mp hcursor)
    rw [hstart]
    exact ⟨hinfo, not_lt.mp hcursor, batch, receipt, hstate, hdurable, rfl, by omega⟩

theorem afterSeal_awaitInv {s : System} {batch : Batch} (policy : RetryPolicy)
    (hstate : s.state.batch = some batch) (hheld : batch.sealReceipt = true)
    (hlog : Act.batchSealed batch.start batch.stop ∈ s.log) :
    AwaitInv (s.wait (afterSeal policy)).log s.state (afterSeal policy) := by
  unfold afterSeal
  split
  · exact ⟨batch, hstate, hheld, [], s.log, rfl, hlog, by simp⟩
  · trivial

theorem withBatch_inv {s : System} {batch : Batch} {current : RingInfo} (policy : RetryPolicy)
    (h : StateInv s.log s.state) (hbatch : BatchInv s.log batch)
    (hinfo : latestInfo s.log = some current) : Inv (withBatch policy s batch current) := by
  have hnamed := hbatch.withInfo (batch.info.or (some current))
  refine Inv.wait (h.setBatch hnamed) ?_
  simp only
  split
  · rename_i hheld
    exact afterSeal_awaitInv policy rfl hheld (hbatch.held hheld).2
  · exact readOrReconcile_awaitInv hnamed rfl ((latestInfo_wait _ _).trans hinfo)

theorem ensureBatch_inv {s : System} {current : RingInfo} (policy : RetryPolicy)
    (h : StateInv s.log s.state) (hinfo : latestInfo s.log = some current) :
    Inv (ensureBatch policy s current) := by
  unfold ensureBatch
  split
  · rename_i batch hbatch
    exact withBatch_inv policy h (h.batch batch hbatch) hinfo
  · split
    · exact Inv.wait h ((latestInfo_wait _ _).trans hinfo)
    · exact Inv.wait h
        (ensureAdmitted_awaitInv policy _ _ ((latestInfo_wait _ _).trans hinfo))

theorem StateInv.note {log : List Act} {state : State} (h : StateInv log state) (act : Act) :
    StateInv (act :: log) state := h.mono fun _ => List.mem_cons_of_mem act

theorem confirmAdvance_awaitInv (log : List Act) (state : State) (batch : Batch)
    (current : RingInfo) : AwaitInv log state (confirmAdvance batch current) := by
  unfold confirmAdvance
  split <;> trivial

theorem onInfo_inv {s : System} (policy : RetryPolicy) (current : RingInfo) (h : Inv s) :
    Inv (onInfo policy s current) := by
  have hnoted := h.state.note (.observed current)
  unfold onInfo
  split
  · exact ensureBatch_inv policy hnoted rfl
  · unfold decideAdvance
    split
    · exact Inv.wait (hnoted.note _) trivial
    · exact Inv.wait hnoted trivial
    · exact Inv.wait hnoted trivial
  · exact Inv.wait hnoted (confirmAdvance_awaitInv _ _ _ _)
  · exact h

theorem completeBatch_inv {log : List Act} {state : State} {batch : Batch}
    (h : StateInv log state) (hbatch : BatchInv log batch) :
    StateInv log (completeBatch state batch) := by
  unfold completeBatch
  split
  · exact h
  · rename_i milestone hmilestone
    split
    · exact h
    · rename_i result hclosed
      obtain rfl := BatchMachine.transition_writerClosed hclosed
      have hheld := (BatchMachine.deriveMilestone_sealed hmilestone).1
      have hretired := (h.retainBatchEnd hbatch hheld).retire
      exact ⟨hretired.batch, hretired.frontier⟩

theorem takeSeal_inv {s : System} {batch : Batch} (h : StateInv s.log s.state)
    (hbatch : BatchInv s.log batch) (hsealed : batch.writer.isSealed = true) :
    StateInv (takeSeal s batch).log (takeSeal s batch).state :=
  (h.note _).setBatch (hbatch.withSeal hsealed)

theorem onAnswer_inv {s : System} (policy : RetryPolicy) (h : Inv s) :
    Inv (onAnswer policy s) := by
  unfold onAnswer
  split
  case h_1 current hawait =>
    have hinfo : latestInfo s.log = some current := by simpa [hawait, AwaitInv] using h.await
    exact Inv.wait ⟨h.state.batch, h.state.frontier⟩
      (ensureAdmitted_awaitInv policy _ _ ((latestInfo_wait _ _).trans hinfo))
  case h_2 => exact Inv.wait h.state.retire trivial
  case h_3 batch _ hbatch =>
    split
    · exact Inv.wait h.state trivial
    · rename_i receipt hreceipt
      exact Inv.wait (h.state.retainDurableFrontier (h.state.batch batch hbatch) hreceipt) trivial
  case h_4 => exact Inv.wait h.state.retire trivial
  case h_5 => exact Inv.wait (h.state.note _) trivial
  case h_6 => exact Inv.wait h.state trivial
  case h_7 batch _ hbatch =>
    refine Inv.wait (h.state.setBatch (h.state.batch batch hbatch).withReceipt) ?_
    split
    · trivial
    · exact requestSeal_awaitInv _ _ _
  case h_8 batch _ hbatch =>
    split
    · rename_i hsealed
      exact Inv.wait (takeSeal_inv h.state (h.state.batch batch hbatch) hsealed)
        (afterSeal_awaitInv policy rfl rfl List.mem_cons_self)
    · exact h
  case h_9 => exact Inv.wait h.state trivial
  case h_10 batch _ hbatch =>
    exact Inv.wait (completeBatch_inv h.state (h.state.batch batch hbatch)) trivial
  case h_11 => exact Inv.wait h.state trivial
  case h_12 => exact Inv.wait h.state.retire trivial
  case h_13 =>
    exact ⟨⟨h.state.batch, fun _ hnone => absurd hnone (by simp [System.withState])⟩, trivial⟩
  case h_14 => exact h

theorem onAdmitted_inv {s : System} (policy : RetryPolicy) (durableNext : ℕ) (h : Inv s) :
    Inv (onAdmitted policy s durableNext) := by
  unfold onAdmitted
  split
  · rename_i current start stop hawait
    have hinfo : latestInfo s.log = some current := by simpa [hawait, AwaitInv] using h.await
    have hnoted := h.state.note (.durable start durableNext)
    split
    · rename_i hbounds
      split
      · exact Inv.wait hnoted trivial
      · refine withBatch_inv policy hnoted ?_ hinfo
        exact
          { lower := hbounds.1
            upper := hbounds.2
            durable := List.mem_cons_self
            receipt := fun receipt hreceipt => by
              obtain rfl := Option.some.inj hreceipt
              exact ⟨hbounds.1, le_rfl, rfl⟩
            full := fun hsealed => by simp at hsealed
            held := fun hheld => by simp at hheld }
    · exact h
  · exact h

theorem onCloseVisit_inv {s : System} (settled : Bool) (h : Inv s) (hidle : s.await = .idle) :
    Inv (onCloseVisit s settled) := by
  unfold onCloseVisit
  split
  · refine ⟨⟨h.state.retire.batch, fun _ hnone => absurd hnone (by simp [System.withState])⟩, ?_⟩
    simp [System.withState, hidle, AwaitInv]
  · rename_i batch hbatch
    have hinv := h.state.batch batch hbatch
    split
    · rename_i hheld
      exact Inv.wait (h.state.retainBatchEnd hinv hheld) trivial
    · split
      · exact Inv.wait (h.state.adoptPrefix hinv) trivial
      · exact Inv.wait h.state trivial

theorem onStartupState_inv {log : List Act} {state : State} (pending : Option AttemptDescriptor)
    (durableNext : Option ℕ) (h : StateInv log state) :
    StateInv ((onStartupState state pending durableNext).2 ++ log)
      (onStartupState state pending durableNext).1 := by
  have hbound : StateInv log
      { state with pendingDescriptor := pending, pendingDurableNext := durableNext } :=
    ⟨h.batch, h.frontier⟩
  unfold onStartupState
  split
  · rename_i descriptor d
    split
    · rename_i hlt
      exact (hbound.note _).raise ⟨_, _, List.mem_cons_self, hlt, le_rfl⟩
    · exact hbound
  · exact hbound

/-- An idle reconciler that keeps its state invariant keeps the whole one. -/
theorem Inv.idle {s : System} (h : StateInv s.log s.state) (hidle : s.await = .idle) : Inv s :=
  ⟨h, by rw [hidle]; trivial⟩

theorem onBatch_rule {P : System → Prop} {s : System} {f : Batch → System} (hnone : P s)
    (hsome : ∀ batch, s.state.batch = some batch → P (f batch)) : P (onBatch s f) := by
  unfold onBatch
  split
  · exact hnone
  · exact hsome _ ‹_›

theorem onIdle_inv {s : System} (policy : RetryPolicy) (event : Event) (h : Inv s)
    (hidle : s.await = .idle) : Inv (onIdle policy s event) := by
  unfold onIdle
  split
  · exact Inv.wait h.state trivial
  · exact ensureBatch_inv policy (h.state.note _) rfl
  · exact Inv.idle (onStartupState_inv _ _ h.state) hidle
  · refine onBatch_rule h fun batch hbatch => ?_
    have hinv := h.state.batch batch hbatch
    split
    · exact h
    · split
      · rename_i hsealed
        exact Inv.idle (takeSeal_inv h.state hinv hsealed) hidle
      · exact Inv.idle (h.state.adoptPrefix hinv) hidle
  · refine onBatch_rule h fun batch hbatch => ?_
    have hinv := (h.state.batch batch hbatch).withReceipt
    split
    · exact h
    · simp only
      split
      · rename_i hsealed
        exact Inv.idle (takeSeal_inv h.state hinv hsealed) hidle
      · exact Inv.idle (h.state.setBatch hinv) hidle
  · exact onCloseVisit_inv _ h hidle
  · exact h

/-- The writer's own work changes nothing that an await remembers. -/
theorem AwaitInv.writer {log : List Act} (acts : List Act) {state : State} {batch batch' : Batch} {await : Await}
    (h : AwaitInv log state await) (hbatch : state.batch = some batch)
    (hstart : batch'.start = batch.start) (hstop : batch'.stop = batch.stop)
    (hdurable : batch'.durable = batch.durable) (hheld : batch'.sealReceipt = batch.sealReceipt)
    (hacts : ∀ act ∈ acts, ∃ start next, act = .durable start next) :
    AwaitInv (acts ++ log) { state with batch := some batch' } await := by
  have hlatest : latestInfo (acts ++ log) = latestInfo log := by
    induction acts with
    | nil => rfl
    | cons act acts ih =>
      obtain ⟨start, next, rfl⟩ := hacts act List.mem_cons_self
      exact ih fun other hother => hacts other (List.mem_cons_of_mem _ hother)
  cases await with
  | quarantinePending current => exact hlatest.trans h
  | admitBatch current start stop => exact hlatest.trans h
  | captureSpace current readStart =>
    obtain ⟨hinfo, hcursor, b, receipt, hb, hreceipt, hnext, hlt⟩ := h
    obtain rfl : b = batch := Option.some.inj (hb.symm.trans hbatch)
    exact ⟨hlatest.trans hinfo, hcursor, batch', receipt, rfl, hdurable.trans hreceipt, hnext,
      hstop ▸ hlt⟩
  | advanceInfo =>
    obtain ⟨b, hb, hsealed, since, before, hlog, hmem, hsince⟩ := h
    obtain rfl : b = batch := Option.some.inj (hb.symm.trans hbatch)
    refine ⟨batch', rfl, hheld.trans hsealed, acts ++ since, before, ?_, ?_, ?_⟩
    · rw [hlog, List.append_assoc]
    · rw [hstart, hstop]
      exact hmem
    · intro act hact
      rcases List.mem_append.mp hact with hact | hact
      · exact hacts act hact
      · exact hsince act hact
  | _ => trivial

theorem step_inv {s : System} (policy : RetryPolicy) (event : Event) (h : Inv s) :
    Inv (step policy s event) := by
  unfold step
  split
  · exact onInfo_inv policy _ h
  · exact onAnswer_inv policy h
  · exact onAdmitted_inv policy _ h
  · exact Inv.wait h.state trivial
  · rename_i durableNext
    refine onBatch_rule h fun batch hbatch => ?_
    have hinv := (h.state.batch batch hbatch).persistTo durableNext
    refine ⟨StateInv.setBatch (h.state.note _) hinv, ?_⟩
    refine AwaitInv.writer [_] h.await hbatch ?_ ?_ ?_ ?_ (by simp) <;>
      unfold persistTo <;> split <;> rfl
  · refine onBatch_rule h fun batch hbatch => ?_
    refine ⟨h.state.setBatch (h.state.batch batch hbatch).sealWriter, ?_⟩
    refine AwaitInv.writer [] h.await hbatch ?_ ?_ ?_ ?_ (by simp) <;>
      unfold sealWriter <;> split <;> rfl
  · split
    · rename_i hidle
      exact onIdle_inv policy _ h hidle
    · exact h

theorem new_inv : Inv System.new :=
  ⟨⟨fun _ hnone => absurd hnone (by simp [System.new]),
    fun _ hnone => absurd hnone (by simp [System.new])⟩, trivial⟩

theorem run_inv (policy : RetryPolicy) (events : List Event) :
    Inv (run policy System.new events) :=
  TransitionRuns.run_invariant (Q := fun _ => True) (fun _ event _ h => step_inv policy event h)
    new_inv fun _ _ => trivial

/-! ## What a step can ask of the device -/

def FrontierLe (before after : Option ℕ) : Prop := ∀ f ∈ before, ∃ g ∈ after, f ≤ g

theorem FrontierLe.refl (f : Option ℕ) : FrontierLe f f := fun n h => ⟨n, h, le_rfl⟩

theorem FrontierLe.trans {a b c : Option ℕ} (h : FrontierLe a b) (h' : FrontierLe b c) :
    FrontierLe a c := by
  intro f hf
  obtain ⟨g, hg, hfg⟩ := h f hf
  obtain ⟨k, hk, hgk⟩ := h' g hg
  exact ⟨k, hk, hfg.trans hgk⟩

theorem FrontierLe.raised (f : Option ℕ) (next : ℕ) : FrontierLe f (raisedFrontier f next) := by
  intro n hn
  obtain rfl := hn
  exact ⟨_, rfl, le_max_left _ _⟩

/-- The visit frontier rises until a visit is closed. -/
def Rises (s s' : System) : Prop :=
  s.visits ≤ s'.visits ∧
    (s.visits = s'.visits → FrontierLe s.state.visitFrontier s'.state.visitFrontier)

theorem Rises.refl (s : System) : Rises s s := ⟨le_rfl, fun _ => FrontierLe.refl _⟩

theorem Rises.trans {s t u : System} (h : Rises s t) (h' : Rises t u) : Rises s u := by
  refine ⟨h.1.trans h'.1, fun hvisits => ?_⟩
  have hleft : s.visits = t.visits := le_antisymm h.1 (h'.1.trans hvisits.ge)
  exact (h.2 hleft).trans (h'.2 (hleft.symm.trans hvisits))

def isCommand : Act → Bool
  | .read _ _ | .advance _ => true
  | _ => false

/-- Some work without a command to the device. -/
structure Quiet (s s' : System) : Prop where
  acts : ∃ acts, s'.log = acts ++ s.log ∧ ∀ act ∈ acts, isCommand act = false
  rises : Rises s s'

theorem Quiet.refl (s : System) : Quiet s s := ⟨⟨[], rfl, by simp⟩, Rises.refl s⟩

theorem Quiet.trans {s t u : System} (h : Quiet s t) (h' : Quiet t u) : Quiet s u := by
  obtain ⟨acts, hacts, hquiet⟩ := h.acts
  obtain ⟨acts', hacts', hquiet'⟩ := h'.acts
  refine ⟨⟨acts' ++ acts, by rw [hacts', hacts, List.append_assoc], fun act hact => ?_⟩,
    h.rises.trans h'.rises⟩
  rcases List.mem_append.mp hact with hact | hact
  · exact hquiet' act hact
  · exact hquiet act hact

theorem Quiet.wait {s t : System} (h : Quiet s t) (await : Await) : Quiet s (t.wait await) := by
  refine h.trans ⟨?_, le_rfl, fun _ => FrontierLe.refl _⟩
  unfold System.wait
  split
  · exact ⟨[.infoRequested], rfl, by simp [isCommand]⟩
  · exact ⟨[], rfl, by simp⟩

theorem Quiet.note {s t : System} (h : Quiet s t) {act : Act} (hact : isCommand act = false) :
    Quiet s (t.note act) :=
  h.trans ⟨⟨[act], rfl, by simpa using hact⟩, le_rfl, fun _ => FrontierLe.refl _⟩

theorem Quiet.withState {s t : System} (h : Quiet s t) {state : State}
    (hfrontier : FrontierLe t.state.visitFrontier state.visitFrontier) :
    Quiet s (t.withState state) :=
  h.trans ⟨⟨[], rfl, by simp⟩, le_rfl, fun _ => hfrontier⟩

theorem Quiet.keep {s t : System} (h : Quiet s t) {state : State}
    (hfrontier : state.visitFrontier = t.state.visitFrontier) : Quiet s (t.withState state) :=
  h.withState (hfrontier ▸ FrontierLe.refl _)

theorem retainDurableFrontier_rises (s : State) (receipt : DurablePrefix) :
    FrontierLe s.visitFrontier (s.retainDurableFrontier receipt).visitFrontier := by
  unfold State.retainDurableFrontier
  split
  · exact FrontierLe.refl _
  · exact FrontierLe.raised _ _

theorem retainBatchEnd_rises (s : State) (batch : Batch) :
    FrontierLe s.visitFrontier (s.retainBatchEnd batch).visitFrontier := by
  unfold State.retainBatchEnd
  split
  · exact FrontierLe.refl _
  · exact FrontierLe.raised _ _

theorem completeBatch_rises (s : State) (batch : Batch) :
    FrontierLe s.visitFrontier (completeBatch s batch).visitFrontier := by
  unfold completeBatch
  split
  · exact FrontierLe.refl _
  · split
    · exact FrontierLe.refl _
    · exact retainBatchEnd_rises s batch

theorem withBatch_quiet {s t : System} (h : Quiet s t) (policy : RetryPolicy) (batch : Batch)
    (current : RingInfo) : Quiet s (withBatch policy t batch current) :=
  (h.keep (by rfl)).wait _

theorem ensureBatch_quiet {s t : System} (h : Quiet s t) (policy : RetryPolicy)
    (current : RingInfo) : Quiet s (ensureBatch policy t current) := by
  unfold ensureBatch
  split
  · exact withBatch_quiet h policy _ current
  · split <;> exact h.wait _

/-- What holds where ADVANCE to the batch's end is sent on this INFO. -/
structure AdvanceSafe (s : System) (batch : Batch) (info : RingInfo) : Prop where
  active : s.state.batch = some batch
  held : batch.sealReceipt = true
  whole : batch.durable.map DurablePrefix.nextSequence = some batch.stop
  durable : ∀ sequence, batch.start ≤ sequence → sequence < batch.stop → DurableIn s.log sequence
  fresh : RequestedAfterSeal s.log batch
  cursor : batch.start ≤ info.readSequence ∧ info.readSequence < batch.stop ∧
    batch.stop ≤ info.writeSequence

/-- What holds where the records from the batch's durable prefix to its end are read. -/
structure ReadSafe (s : System) (batch : Batch) (receipt : DurablePrefix) (info : RingInfo) :
    Prop where
  active : s.state.batch = some batch
  current : batch.durable = some receipt
  durable : ∀ sequence, batch.start ≤ sequence → sequence < receipt.nextSequence →
    DurableIn s.log sequence
  unfinished : receipt.nextSequence < batch.stop
  latest : latestInfo s.log = some info
  cursor : info.readSequence ≤ receipt.nextSequence

/-- All that a step can do to the log and to the frontier. -/
inductive Asks (s : System) : System → Prop where
  | quiet {s' : System} (h : Quiet s s') : Asks s s'
  | advance (batch : Batch) (info : RingInfo) (h : AdvanceSafe s batch info) :
      Asks s (((s.note (.observed info)).note (.advance batch.stop)).wait .advance)
  | read (batch : Batch) (receipt : DurablePrefix) (info : RingInfo)
      (h : ReadSafe s batch receipt info) :
      Asks s ((s.note (.read receipt.nextSequence batch.stop)).wait (.read info))

theorem advanceAction_repeat {current : RingInfo} {batch : Batch}
    (h : advanceAction current batch = some .repeat) :
    batch.start ≤ current.readSequence ∧ current.readSequence < batch.stop ∧
      batch.stop ≤ current.writeSequence := by
  unfold advanceAction at h
  split at h
  · simp at h
  split at h
  · simp at h
  split at h
  · simp at h
  split at h
  · simp at h
  split at h
  · simp at h
  omega

/-- The decision to send ADVANCE rests on the sealed milestone and on the given INFO. -/
theorem cursorDecision_advance {current : RingInfo} {batch : Batch} {action : BatchMachine.CursorAction}
    (h : cursorDecision .freshInfo current batch = .ok (action, .advance)) :
    batch.sealReceipt = true ∧ batch.durable.map DurablePrefix.nextSequence = some batch.stop ∧
      advanceAction current batch = some .repeat := by
  unfold cursorDecision at h
  split at h
  · simp at h
  · rename_i chosen hchosen
    cases hmilestone : batchMilestone batch with
    | error _ => simp [hmilestone, bind, Except.bind] at h
    | ok milestone =>
      cases hdecision : BatchMachine.transition milestone .freshInfo (some chosen) with
      | error _ => simp [hmilestone, hdecision, bind, Except.bind] at h
      | ok decision =>
        simp only [hmilestone, hdecision, bind, Except.bind, pure, Except.pure,
          Except.ok.injEq, Prod.mk.injEq] at h
        obtain ⟨rfl, rfl⟩ := BatchMachine.transition_advance hdecision h.2
        obtain ⟨hheld, hwhole, -⟩ := BatchMachine.deriveMilestone_sealed hmilestone
        exact ⟨hheld, hwhole, hchosen⟩

theorem onInfo_asks {s : System} (policy : RetryPolicy) (current : RingInfo) (h : Inv s) :
    Asks s (onInfo policy s current) := by
  have hnoted : Quiet s (s.note (.observed current)) := (Quiet.refl s).note rfl
  unfold onInfo
  split
  · exact .quiet (ensureBatch_quiet hnoted policy current)
  · rename_i batch hawait hbatch
    unfold decideAdvance
    split
    · rename_i action hdecision
      obtain ⟨hheld, hwhole, haction⟩ := cursorDecision_advance hdecision
      have hinv := h.state.batch batch hbatch
      have hfresh : RequestedAfterSeal s.log batch := by
        obtain ⟨b, hb, -, hfresh⟩ : AwaitInv s.log s.state .advanceInfo := hawait ▸ h.await
        obtain rfl : b = batch := Option.some.inj (hb.symm.trans hbatch)
        exact hfresh
      refine .advance batch current ⟨hbatch, hheld, hwhole, fun x hstart hstop => ?_, hfresh,
        advanceAction_repeat haction⟩
      exact hinv.durableIn hstart (hstop.trans_le (hinv.full (hinv.held hheld).1).ge)
    · exact .quiet (hnoted.wait _)
    · exact .quiet (hnoted.wait _)
  · exact .quiet (hnoted.wait _)
  · exact .quiet (Quiet.refl s)

theorem onAnswer_asks {s : System} (policy : RetryPolicy) (h : Inv s) :
    Asks s (onAnswer policy s) := by
  have hsame := Quiet.refl s
  unfold onAnswer
  split
  case h_5 current readStart batch hawait hbatch =>
    obtain ⟨hinfo, hcursor, b, receipt, hb, hreceipt, rfl, hlt⟩ :
      AwaitInv s.log s.state (.captureSpace current readStart) := hawait ▸ h.await
    obtain rfl : batch = b := Option.some.inj (hbatch.symm.trans hb)
    have hinv := h.state.batch batch hbatch
    refine .read batch receipt current ⟨hbatch, hreceipt, fun x hstart hnext => ?_, hlt, hinfo,
      hcursor⟩
    exact hinv.durableIn hstart (hnext.trans_le (hinv.receipt receipt hreceipt).2.1)
  case h_3 =>
    split
    · exact .quiet (hsame.wait _)
    · exact .quiet ((hsame.withState (retainDurableFrontier_rises _ _)).wait _)
  case h_8 =>
    split
    · exact .quiet (((hsame.keep (by rfl)).note (by rfl)).wait _)
    · exact .quiet hsame
  case h_10 => exact .quiet ((hsame.withState (completeBatch_rises _ _)).wait _)
  case h_13 => exact .quiet ⟨⟨[], rfl, by simp⟩, Nat.le_succ _, fun hvisits => by simp at hvisits⟩
  case h_14 => exact .quiet hsame
  all_goals
    first
      | exact .quiet (hsame.wait _)
      | exact .quiet ((hsame.keep (by rfl)).wait _)

theorem adoptPrefix_rises (s : State) (batch : Batch) :
    FrontierLe s.visitFrontier (adoptPrefix s batch).visitFrontier :=
  retainDurableFrontier_rises
    { s with
      batch := some { batch with durable := some batch.receipt }
      pendingDurableNext := some batch.writer.durableNext } batch.receipt

theorem onStartupState_quiet (s : System) (pending : Option AttemptDescriptor)
    (durableNext : Option ℕ) :
    Quiet s { s with
      state := (onStartupState s.state pending durableNext).1
      log := (onStartupState s.state pending durableNext).2 ++ s.log } := by
  unfold onStartupState
  split
  · split
    · exact ⟨⟨[_], rfl, by simp [isCommand]⟩, le_rfl, fun _ => FrontierLe.raised _ _⟩
    · exact (Quiet.refl s).keep (by rfl)
  · exact (Quiet.refl s).keep (by rfl)

theorem onIdle_quiet (policy : RetryPolicy) (s : System) (event : Event) :
    Quiet s (onIdle policy s event) := by
  have hsame := Quiet.refl s
  unfold onIdle
  split
  · exact hsame.wait _
  · exact ensureBatch_quiet (hsame.note (by rfl)) policy _
  · exact onStartupState_quiet s _ _
  · refine onBatch_rule hsame fun batch _ => ?_
    split
    · exact hsame
    · split
      · exact (hsame.keep (by rfl)).note (by rfl)
      · exact hsame.withState (adoptPrefix_rises _ _)
  · refine onBatch_rule hsame fun batch _ => ?_
    split
    · exact hsame
    · simp only
      split
      · exact (hsame.keep (by rfl)).note (by rfl)
      · exact hsame.keep (by rfl)
  · unfold onCloseVisit
    split
    · exact ⟨⟨[], rfl, by simp⟩, Nat.le_succ _, fun hvisits => by simp at hvisits⟩
    · split
      · exact (hsame.withState (retainBatchEnd_rises _ _)).wait _
      · split
        · exact (hsame.withState (adoptPrefix_rises _ _)).wait _
        · exact hsame.wait _
  · exact hsame

theorem onAdmitted_quiet (policy : RetryPolicy) (s : System) (durableNext : ℕ) :
    Quiet s (onAdmitted policy s durableNext) := by
  have hsame := Quiet.refl s
  unfold onAdmitted
  split
  · split
    · split
      · exact (hsame.note (by rfl)).wait _
      · exact withBatch_quiet (hsame.note (by rfl)) policy _ _
    · exact hsame
  · exact hsame

theorem step_asks {s : System} (policy : RetryPolicy) (event : Event) (h : Inv s) :
    Asks s (step policy s event) := by
  have hsame := Quiet.refl s
  unfold step
  split
  · exact onInfo_asks policy _ h
  · exact onAnswer_asks policy h
  · exact .quiet (onAdmitted_quiet policy s _)
  · exact .quiet (hsame.wait _)
  · exact .quiet (onBatch_rule hsame fun _ _ => (hsame.keep (by rfl)).note (by rfl))
  · exact .quiet (onBatch_rule hsame fun _ _ => hsame.keep (by rfl))
  · split
    · exact .quiet (onIdle_quiet policy s _)
    · exact .quiet hsame

theorem Asks.rises {s s' : System} (h : Asks s s') : Rises s s' := by
  cases h with
  | quiet h => exact h.rises
  | advance | read => exact ⟨le_rfl, fun _ => FrontierLe.refl _⟩

theorem run_rises (policy : RetryPolicy) {s : System} (h : Inv s) (events : List Event) :
    Rises s (run policy s events) :=
  TransitionRuns.run_relation (Q := fun _ => True) (fun _ event _ h => step_inv policy event h)
    Rises.refl Rises.trans (fun _ event _ h => (step_asks policy event h).rises) h
    fun _ _ => trivial

/-- The acts of one step, each command with what makes it safe. -/
theorem Asks.acts {s s' : System} (h : Asks s s') :
    ∃ acts, s'.log = acts ++ s.log ∧
      (∀ stop, .advance stop ∈ acts → ∃ batch info, stop = batch.stop ∧
        acts = [.advance stop, .observed info] ∧ AdvanceSafe s batch info) ∧
      ∀ readStart stop, .read readStart stop ∈ acts → ∃ batch receipt info,
        readStart = receipt.nextSequence ∧ stop = batch.stop ∧ ReadSafe s batch receipt info := by
  cases h with
  | quiet h =>
    obtain ⟨acts, hacts, hquiet⟩ := h.acts
    exact ⟨acts, hacts, fun _ hmem => by simpa [isCommand] using hquiet _ hmem,
      fun _ _ hmem => by simpa [isCommand] using hquiet _ hmem⟩
  | advance batch info h =>
    refine ⟨[.advance batch.stop, .observed info], rfl, fun stop hmem => ?_, by simp⟩
    obtain rfl : stop = batch.stop := by simpa using hmem
    exact ⟨batch, info, rfl, rfl, h⟩
  | read batch receipt info h =>
    refine ⟨[.read receipt.nextSequence batch.stop], rfl, by simp, fun readStart stop hmem => ?_⟩
    obtain ⟨rfl, rfl⟩ : readStart = receipt.nextSequence ∧ stop = batch.stop := by simpa using hmem
    exact ⟨batch, receipt, info, rfl, rfl, h⟩

/-- Every run sends ADVANCE only over durable records of a sealed batch and on an INFO requested
after the seal, reads only what the batch still misses, and keeps a frontier that rises within a
visit and that durable records bear out. -/
theorem advance_over_durable (policy : RetryPolicy) (events : List Event) :
    (∀ event, ∃ acts,
      (step policy (run policy System.new events) event).log =
        acts ++ (run policy System.new events).log ∧
      (∀ stop, .advance stop ∈ acts → ∃ batch info, stop = batch.stop ∧
        acts = [.advance stop, .observed info] ∧
        AdvanceSafe (run policy System.new events) batch info) ∧
      ∀ readStart stop, .read readStart stop ∈ acts → ∃ batch receipt info,
        readStart = receipt.nextSequence ∧ stop = batch.stop ∧
        ReadSafe (run policy System.new events) batch receipt info) ∧
    (∀ later, (run policy System.new (events ++ later)).visits =
        (run policy System.new events).visits →
      ∀ frontier ∈ (run policy System.new events).state.visitFrontier,
        ∃ risen ∈ (run policy System.new (events ++ later)).state.visitFrontier,
          frontier ≤ risen) ∧
    ∀ frontier ∈ (run policy System.new events).state.visitFrontier,
      ∃ sequence, DurableIn (run policy System.new events).log sequence ∧
        frontier ≤ sequence + 1 := by
  have hinv := run_inv policy events
  refine ⟨fun event => (step_asks policy event hinv).acts, fun later hvisits => ?_,
    fun frontier hfrontier => ?_⟩
  · have hrises := run_rises policy hinv later
    unfold run at hrises hvisits ⊢
    rw [TransitionRuns.run_append] at hvisits ⊢
    exact hrises.2 hvisits.symm
  · obtain ⟨start, next, hmem, hlt, hle⟩ := hinv.state.frontier frontier hfrontier
    exact ⟨next - 1, ⟨start, next, hmem, by omega, by omega⟩, by omega⟩

/-- Two records read, made durable and sealed, up to the wait for a fresh INFO. -/
def sealedPair : List Event :=
  [.connectedStep none, .answerInfo ⟨10, 12⟩, .admitted 10, .answer, .persisted 12, .answer, .answer,
    .writerSealed, .answer]

theorem advance_over_durable_pair :
    ∃ batch info, 12 = batch.stop ∧ info = ⟨10, 13⟩ ∧
      AdvanceSafe (run ⟨4, true⟩ System.new sealedPair) batch info := by
  obtain ⟨⟨acts, hlog, hadvance, -⟩, -⟩ :=
    And.imp_left (fun h => h (.answerInfo ⟨10, 13⟩)) (advance_over_durable ⟨4, true⟩ sealedPair)
  have hsent : (step ⟨4, true⟩ (run ⟨4, true⟩ System.new sealedPair) (.answerInfo ⟨10, 13⟩)).log =
      [.advance 12, .observed ⟨10, 13⟩] ++ (run ⟨4, true⟩ System.new sealedPair).log := by decide
  obtain rfl := List.append_cancel_right (hlog.symm.trans hsent)
  obtain ⟨batch, info, hstop, hacts, hsafe⟩ := hadvance 12 List.mem_cons_self
  exact ⟨batch, info, hstop, by simpa using hacts.symm, hsafe⟩

end BatchAdvance
