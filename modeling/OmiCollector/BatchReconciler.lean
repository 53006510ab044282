import OmiCollector.BatchMachine
import OmiCollector.ClockModel
import OmiCollector.TransitionRuns

/-! The batch reconciler as a machine of its awaits.

A connected step runs from one await to the next. The machine keeps what the step waits for, and
each event answers that await: with a value, or by raising, which ends the step and leaves the
state as it is then. Between steps the caller may start another one, reconnect, checkpoint, close
the visit or bind a startup state. A writer makes records durable and seals at any time; its
receipts tell the truth about that. An await that only reports or arms something is part of the
await after it. -/
namespace BatchReconciler

open ClockModel (RingInfo)
open BatchMachine (CursorAction Command)

structure RetryPolicy where
  batchRecords : ℕ
  advanceEnabled : Bool
  deriving DecidableEq, Repr

structure AttemptDescriptor where
  startSequence : ℕ
  packetCount : ℕ
  deriving DecidableEq, Repr

structure DurablePrefix where
  nextSequence : ℕ
  recordCount : ℕ
  deriving DecidableEq, Repr

/-- How far a batch's writer made the records durable, and whether it sealed them. -/
structure Writer where
  durableNext : ℕ
  isSealed : Bool
  deriving DecidableEq, Repr

structure Batch where
  info : Option RingInfo
  start : ℕ
  stop : ℕ
  writer : Writer
  durable : Option DurablePrefix
  /-- The seal receipt is held. -/
  sealReceipt : Bool
  deriving DecidableEq, Repr

def Batch.count (b : Batch) : ℕ := b.stop - b.start

/-- The truthful receipt for the durable prefix of a batch. -/
def Batch.receipt (b : Batch) : DurablePrefix :=
  ⟨b.writer.durableNext, b.writer.durableNext - b.start⟩

structure State where
  batch : Option Batch
  completedBatches : ℕ
  pendingDescriptor : Option AttemptDescriptor
  pendingDurableNext : Option ℕ
  visitFrontier : Option ℕ
  deriving DecidableEq, Repr

/-- What the running call waits for. -/
inductive Await where
  | idle
  | info
  | quarantinePending (current : RingInfo)
  | admitBatch (current : RingInfo) (start stop : ℕ)
  | quarantineBatch
  | publishPrefix
  | closePrefix
  | captureSpace (current : RingInfo) (readStart : ℕ)
  | read (current : RingInfo)
  | checkpoint (current : RingInfo)
  | sealResult
  | advanceInfo
  | advance
  | advanceAckInfo
  | complete (advanceConfirmed : Bool)
  | closePublish
  | closeWriter
  | closeAppend
  deriving DecidableEq, Repr

def Await.isInfo : Await → Bool
  | .info | .advanceInfo | .advanceAckInfo => true
  | _ => false

/-- What can be seen of a run. -/
inductive Act where
  | infoRequested
  | observed (info : RingInfo)
  /-- The caller passes the INFO it last read. -/
  | given (info : RingInfo)
  /-- The records `[start, next)` are durable. -/
  | durable (start next : ℕ)
  /-- The batch `[start, stop)` got its seal receipt. -/
  | batchSealed (start stop : ℕ)
  | read (readStart stop : ℕ)
  | advance (stop : ℕ)
  deriving DecidableEq, Repr

/-- The reconciler, its running call, the closed visits and what was seen, newest first. -/
structure System where
  state : State
  await : Await
  visits : ℕ
  log : List Act
  deriving DecidableEq, Repr

def System.new : System := ⟨⟨none, 0, none, none, none⟩, .idle, 0, []⟩

def System.note (s : System) (act : Act) : System := { s with log := act :: s.log }

def System.withState (s : System) (state : State) : System := { s with state := state }

/-- Go on to an await; to wait for INFO is to request it. -/
def System.wait (s : System) (await : Await) : System :=
  { s with
    await := await
    log := if await.isInfo then .infoRequested :: s.log else s.log }

def unread (current : RingInfo) : Bool := decide (current.writeSequence ≠ current.readSequence)

/-- Raise a frontier to records that end at `next`. -/
def raisedFrontier (frontier : Option ℕ) (next : ℕ) : Option ℕ :=
  some (max (frontier.getD next) next)

/-- Retain only a frontier backed by at least one authenticated record. -/
def State.retainDurableFrontier (s : State) (receipt : DurablePrefix) : State :=
  if receipt.recordCount = 0 then s
  else { s with visitFrontier := raisedFrontier s.visitFrontier receipt.nextSequence }

/-- A sealed batch raises the frontier to its end, unless it is empty. -/
def State.retainBatchEnd (s : State) (batch : Batch) : State :=
  if batch.count = 0 then s
  else { s with visitFrontier := raisedFrontier s.visitFrontier batch.stop }

/-- Put a batch's state away; the caller goes on from a fresh INFO or ends. -/
def State.retire (s : State) : State :=
  { s with batch := none, pendingDescriptor := none, pendingDurableNext := none }

/-- The cursor overtook the durable prefix within the written range. -/
def cursorAhead (current : RingInfo) (stop : ℕ) (durableNext : Option ℕ) : Bool :=
  (durableNext.any fun d => decide (d < current.readSequence)) &&
    decide (current.readSequence ≤ current.writeSequence ∧ stop ≤ current.writeSequence)

def pendingIncompatible (current : RingInfo) (pending : AttemptDescriptor)
    (durableNext : Option ℕ) : Bool :=
  let stop := pending.startSequence + pending.packetCount
  let ahead := cursorAhead current stop durableNext
  decide (current.readSequence < pending.startSequence) ||
    (decide (stop < current.readSequence) && !ahead) ||
    decide (current.writeSequence < stop) ||
    (!unread current && decide (current.readSequence ≠ stop) && !ahead)

def batchBounds (current : RingInfo) (policy : RetryPolicy) (pending : Option AttemptDescriptor)
    (durableNext : Option ℕ) : Except String (ℕ × ℕ) :=
  match pending with
  | none =>
    .ok (current.readSequence, min current.writeSequence (current.readSequence + policy.batchRecords))
  | some pending =>
    let start := pending.startSequence
    let stop := start + pending.packetCount
    let ahead := cursorAhead current stop durableNext
    if current.readSequence < start then .error "device cursor regressed before batch start"
    else if stop < current.readSequence ∧ ahead = false then
      .error "device cursor passed batch end"
    else if current.writeSequence < stop then
      .error "device write sequence fell below the bounded batch end"
    else if unread current = false ∧ current.readSequence ≠ stop ∧ ahead = false then
      .error "pending batch is not at its complete device end"
    else .ok (start, stop)

/-- The first record that the arena of an admitted batch holds. -/
def arenaStart (current : RingInfo) (stop : ℕ) (durableNext : Option ℕ) : ℕ :=
  if durableNext.any fun d => decide (current.readSequence ≤ d) then durableNext.getD 0
  else if stop < current.readSequence then stop
  else current.readSequence

/-- The rest of `_ensure_batch` once an incompatible attempt is out of the way. -/
def ensureAdmitted (policy : RetryPolicy) (s : State) (current : RingInfo) : Await :=
  if unread current = false ∧ s.pendingDescriptor = none then .idle
  else
    match batchBounds current policy s.pendingDescriptor s.pendingDurableNext with
    | .error _ => .idle
    | .ok (start, stop) =>
      if stop < arenaStart current stop s.pendingDurableNext then .idle
      else .admitBatch current start stop

/-- `_advance_action`, which raises for a cursor past its write sequence. -/
def advanceAction (current : RingInfo) (batch : Batch) : Option CursorAction :=
  if current.writeSequence < current.readSequence then none
  else if current.writeSequence < batch.stop then some .expired
  else if current.readSequence < batch.start then some .regressed
  else if current.readSequence = batch.stop then some .confirmed
  else if batch.stop < current.readSequence then some .ahead
  else some .repeat

def batchMilestone (batch : Batch) : Except String BatchMachine.Milestone :=
  BatchMachine.deriveMilestone (some batch.start) (some batch.stop)
    (batch.durable.map DurablePrefix.nextSequence) batch.sealReceipt

/-- The end of `_read_and_seal`: the whole prefix is durable, or the step raises. -/
def requestSeal (batch : Batch) : Await :=
  if batch.durable.map DurablePrefix.nextSequence = some batch.stop then
    match batchMilestone batch with
    | .error _ => .idle
    | .ok milestone =>
      match BatchMachine.transition milestone .sealRequest none with
      | .error _ => .idle
      | .ok _ => .sealResult
  else .idle

/-- `_read_or_reconcile` up to its first await. -/
def readOrReconcile (batch : Batch) (current : RingInfo) : Await :=
  match batch.durable with
  | none => .idle
  | some receipt =>
    if current.writeSequence < current.readSequence then .idle
    else if current.readSequence < batch.start then .quarantineBatch
    else if current.writeSequence < batch.stop then .quarantineBatch
    else if receipt.nextSequence < current.readSequence then .publishPrefix
    else if current.readSequence = batch.stop then requestSeal batch
    else if receipt.nextSequence = batch.stop then requestSeal batch
    else .captureSpace current (max current.readSequence receipt.nextSequence)

/-- What a step does with a sealed batch. -/
def afterSeal (policy : RetryPolicy) : Await :=
  if policy.advanceEnabled then .advanceInfo else .complete false

/-- The part of a step after `_ensure_batch` returned the batch. -/
def withBatch (policy : RetryPolicy) (s : System) (batch : Batch) (current : RingInfo) : System :=
  let batch := { batch with info := batch.info.or (some current) }
  (s.withState { s.state with batch := some batch }).wait
    (if batch.sealReceipt then afterSeal policy else readOrReconcile batch current)

def ensureBatch (policy : RetryPolicy) (s : System) (current : RingInfo) : System :=
  match s.state.batch with
  | some batch => withBatch policy s batch current
  | none =>
    if s.state.pendingDescriptor.any fun pending =>
        pendingIncompatible current pending s.state.pendingDurableNext then
      s.wait (.quarantinePending current)
    else s.wait (ensureAdmitted policy s.state current)

/-- A decision on INFO around ADVANCE. -/
def cursorDecision (event : BatchMachine.Event) (current : RingInfo) (batch : Batch) :
    Except String (CursorAction × Command) :=
  match advanceAction current batch with
  | none => .error "device cursor passed its write sequence"
  | some action => do
    let milestone ← batchMilestone batch
    let decision ← BatchMachine.transition milestone event (some action)
    pure (action, decision.command)

/-- The destructive command is sent only on this decision. -/
def decideAdvance (s : System) (batch : Batch) (current : RingInfo) : System :=
  match cursorDecision .freshInfo current batch with
  | .ok (_, .advance) => (s.note (.advance batch.stop)).wait .advance
  | .ok (action, .close) => s.wait (.complete (decide (action = .confirmed)))
  | _ => s.wait .idle

def confirmAdvance (batch : Batch) (current : RingInfo) : Await :=
  match cursorDecision .advanceAckInfo current batch with
  | .ok (action, .close) => .complete (decide (action = .confirmed))
  | _ => .idle

/-- `_complete_batch` after the writer closed. -/
def completeBatch (s : State) (batch : Batch) : State :=
  match batchMilestone batch with
  | .error _ => s
  | .ok milestone =>
    match BatchMachine.transition milestone .writerClosed none with
    | .error _ => s
    | .ok _ =>
      { (s.retainBatchEnd batch).retire with completedBatches := s.completedBatches + 1 }

/-- Take the seal receipt of the batch's writer. -/
def takeSeal (s : System) (batch : Batch) : System :=
  (s.withState { s.state with batch := some { batch with sealReceipt := true } }).note
    (.batchSealed batch.start batch.stop)

/-- Take the receipt for the batch's durable prefix, and for the visit with it. -/
def adoptPrefix (s : State) (batch : Batch) : State :=
  { s with
    batch := some { batch with durable := some batch.receipt }
    pendingDurableNext := some batch.writer.durableNext : State }.retainDurableFrontier
      batch.receipt

/-- The awaited call returned; a receipt that it returns is true. -/
def onAnswer (policy : RetryPolicy) (s : System) : System :=
  match s.await, s.state.batch with
  | .quarantinePending current, _ =>
    let state := { s.state with pendingDescriptor := none, pendingDurableNext := none }
    (s.withState state).wait (ensureAdmitted policy state current)
  | .quarantineBatch, _ => (s.withState s.state.retire).wait .info
  | .publishPrefix, some batch =>
    match batch.durable with
    | none => s.wait .idle
    | some receipt => (s.withState (s.state.retainDurableFrontier receipt)).wait .closePrefix
  | .closePrefix, _ => (s.withState s.state.retire).wait .info
  | .captureSpace current readStart, some batch =>
    (s.note (.read readStart batch.stop)).wait (.read current)
  | .read current, _ => s.wait (.checkpoint current)
  | .checkpoint current, some batch =>
    let batch := { batch with durable := some batch.receipt }
    (s.withState { s.state with batch := some batch }).wait
      (if batch.writer.durableNext < current.readSequence then .idle else requestSeal batch)
  | .sealResult, some batch =>
    if batch.writer.isSealed then (takeSeal s batch).wait (afterSeal policy) else s
  | .advance, _ => s.wait .advanceAckInfo
  | .complete _, some batch => (s.withState (completeBatch s.state batch)).wait .idle
  | .closePublish, _ => s.wait .closeWriter
  | .closeWriter, _ => (s.withState s.state.retire).wait .closeAppend
  | .closeAppend, _ =>
    { s.withState { s.state with visitFrontier := none } with await := .idle, visits := s.visits + 1 }
  | _, _ => s

def onInfo (policy : RetryPolicy) (s : System) (current : RingInfo) : System :=
  match s.await, s.state.batch with
  | .info, _ => ensureBatch policy (s.note (.observed current)) current
  | .advanceInfo, some batch => decideAdvance (s.note (.observed current)) batch current
  | .advanceAckInfo, some batch =>
    (s.note (.observed current)).wait (confirmAdvance batch current)
  | _, _ => s

/-- A fresh writer for the awaited admission; a prefix other than the expected one raises. -/
def onAdmitted (policy : RetryPolicy) (s : System) (durableNext : ℕ) : System :=
  match s.await with
  | .admitBatch current start stop =>
    if start ≤ durableNext ∧ durableNext ≤ stop then
      if s.state.pendingDurableNext.any fun d => decide (durableNext ≠ d) then
        (s.note (.durable start durableNext)).wait .idle
      else
        withBatch policy (s.note (.durable start durableNext))
          ⟨some current, start, stop, ⟨durableNext, false⟩,
            some ⟨durableNext, durableNext - start⟩, false⟩ current
    else s
  | _ => s

/-- The visit ends: publish the durable prefix or keep the sealed end, then close the writer. -/
def onCloseVisit (s : System) (settled : Bool) : System :=
  match s.state.batch with
  | none =>
    { s.withState { s.state.retire with visitFrontier := none } with visits := s.visits + 1 }
  | some batch =>
    if batch.sealReceipt then (s.withState (s.state.retainBatchEnd batch)).wait .closeWriter
    else if settled then (s.withState (adoptPrefix s.state batch)).wait .closePublish
    else s.wait .closeWriter

def onStartupState (s : State) (pending : Option AttemptDescriptor) (durableNext : Option ℕ) :
    State × List Act :=
  let s := { s with pendingDescriptor := pending, pendingDurableNext := durableNext }
  match pending, durableNext with
  | some descriptor, some d =>
    if descriptor.startSequence < d then
      ({ s with visitFrontier := raisedFrontier s.visitFrontier d },
        [.durable descriptor.startSequence d])
    else (s, [])
  | _, _ => (s, [])

inductive Event where
  /-- A connected step is called, with the INFO the caller last read or with none. -/
  | connectedStep (current : Option RingInfo)
  | answerInfo (info : RingInfo)
  /-- The awaited call returned. -/
  | answer
  /-- A started writer reports the prefix it found durable. -/
  | admitted (durableNext : ℕ)
  /-- The await raised: an error of the call, a timeout, a disconnection or a cancellation. -/
  | raised
  /-- The writer makes its prefix durable up to here. -/
  | persisted (durableNext : ℕ)
  /-- The writer seals its batch. -/
  | writerSealed
  | startupState (pending : Option AttemptDescriptor) (durableNext : Option ℕ)
  /-- A checkpoint after the session adopts the seal, or else the prefix. -/
  | checkpointAfterSession
  /-- The teardown adopts the seal and the prefix. -/
  | finalizeActive
  /-- The visit is closed; `settled` says that the writer has a prefix to give. -/
  | closeVisit (settled : Bool)
  deriving DecidableEq, Repr

/-- What the writer of the live batch does on its own, or with no call running a caller asks. -/
def onBatch (s : System) (f : Batch → System) : System :=
  match s.state.batch with
  | none => s
  | some batch => f batch

def persistTo (batch : Batch) (durableNext : ℕ) : Batch :=
  if batch.writer.durableNext ≤ durableNext ∧ durableNext ≤ batch.stop then
    { batch with writer := { batch.writer with durableNext := durableNext } }
  else batch

def sealWriter (batch : Batch) : Batch :=
  if batch.writer.durableNext = batch.stop then
    { batch with writer := { batch.writer with isSealed := true } }
  else batch

def onIdle (policy : RetryPolicy) (s : System) : Event → System
  | .connectedStep none => s.wait .info
  | .connectedStep (some current) => ensureBatch policy (s.note (.given current)) current
  | .startupState pending durableNext =>
    let (state, acts) := onStartupState s.state pending durableNext
    { s with state := state, log := acts ++ s.log }
  | .checkpointAfterSession => onBatch s fun batch =>
    if batch.sealReceipt then s
    else if batch.writer.isSealed then takeSeal s batch
    else s.withState (adoptPrefix s.state batch)
  | .finalizeActive => onBatch s fun batch =>
    if batch.sealReceipt then s
    else
      let settled := { batch with durable := some batch.receipt }
      if batch.writer.isSealed then takeSeal s settled
      else s.withState { s.state with batch := some settled }
  | .closeVisit settled => onCloseVisit s settled
  | _ => s

def step (policy : RetryPolicy) (s : System) : Event → System
  | .answerInfo info => onInfo policy s info
  | .answer => onAnswer policy s
  | .admitted durableNext => onAdmitted policy s durableNext
  | .raised => s.wait .idle
  | .persisted durableNext => onBatch s fun batch =>
    (s.withState { s.state with batch := some (persistTo batch durableNext) }).note
      (.durable batch.start (persistTo batch durableNext).writer.durableNext)
  | .writerSealed => onBatch s fun batch =>
    s.withState { s.state with batch := some (sealWriter batch) }
  | event => if s.await = .idle then onIdle policy s event else s

/-- The state after a list of events. -/
def run (policy : RetryPolicy) (s : System) (events : List Event) : System :=
  TransitionRuns.run (step policy) s events

end BatchReconciler
