import OmiCollector.BatchMachine
import OmiCollector.TransferArena
import OmiCollector.TransitionRuns

/-! One READ after its command, as a machine of its awaits.

Each event answers the await that the leg is in: with what it waits for, with a raised error, or
with a cancellation. A cancelled join goes on until its work is settled. The writer fails at any
time, and a call of it raises only once its failure is latched, a barrier apart. -/
namespace ReadLeg

open BatchMachine (ReadPhase ReadEvent ReadAction readTransition)
open ByteCodec (Bytes)
open TransferArena

/-- The classes of error that a READ can meet, by how `read_leg` tells them apart. -/
inductive ErrorClass where
  | protocol
  | transfer
  | transport
  | value
  | os
  | acknowledgement (status : UInt8)
  | streamEnd
  deriving DecidableEq, Repr

/-- The classes that an `except` clause of `read_leg` names. -/
def ErrorClass.routed : ErrorClass → Bool
  | .acknowledgement _ => false
  | .streamEnd => false
  | _ => true

/-- An exception on its way out of the notification loop. -/
inductive Raising where
  | timeout
  | writerIngest (failure : ℕ)
  | cancelled
  | error (cls : ErrorClass)
  deriving DecidableEq, Repr

inductive Cause where
  | timeout
  | writer (failure : ℕ)
  | error (cls : ErrorClass)
  | barrier
  deriving DecidableEq, Repr

/-- What leaves `read_leg`. -/
inductive Raised where
  /-- `TransferInterruptedError` with its cause. -/
  | interrupted (cause : Option Cause)
  | cancelled
  | unrouted (cls : ErrorClass)
  /-- A read transition that the caller did not expect. -/
  | unexpected
  deriving DecidableEq, Repr

/-- The future of the enqueued READ_BEGIN. -/
inductive Begin where
  | enqueued
  | completed
  | failed
  deriving DecidableEq, Repr

/-- Who called `_interrupt`: the handler of an error, or that of a cancellation. -/
inductive Caller where
  | failed
  | cancelled
  deriving DecidableEq, Repr

inductive Await where
  | writeRead
  | notification
  /-- `_next_notification_or_failure` joins the notification it gives up. -/
  | joinNotification (raising : Raising)
  /-- `_ingest_notifications` joins its wait for a failure, on its way out or after DONE. -/
  | joinFailureWait (raising : Option Raising)
  | interruptStop (caller : Caller) (cancelled : Bool)
  | persistNothing (caller : Caller) (cancelled : Bool)
  | persistBegin (caller : Caller) (cancelled : Bool)
  | persistInterrupt (caller : Caller) (cancelled : Bool)
  | failedStop (cancelled : Bool)
  | failedBegin
  /-- `_finish_read`, which a cancellation handler owns or which can be cancelled itself. -/
  | finishBegin (owned cancelled : Bool)
  | finishBarrier (owned cancelled : Bool)
  | returned
  | raised (raised : Raised)
  deriving DecidableEq, Repr

structure State where
  start : ℕ
  count : ℕ
  phase : ReadPhase
  arena : Arena
  /-- The writer's submitted high-water. -/
  submitted : ℕ
  readBegin : Option Begin
  /-- The first failure of the writer. -/
  failure : Option ℕ
  failureCause : Option Cause
  mailboxTerminal : Bool
  await : Await
  /-- How often STOP was written, or tried. -/
  stops : ℕ
  /-- `writer.interrupt` completed. -/
  interrupted : Bool
  /-- A valid DONE was accepted. -/
  doneAccepted : Bool
  deriving DecidableEq, Repr

/-- The leg once its READ command is on its way. -/
def State.new (start count : ℕ) (arena : Arena) (submitted : ℕ) : State :=
  { start := start, count := count, phase := .awaitBegin, arena := arena, submitted := submitted,
    readBegin := none, failure := none, failureCause := none, mailboxTerminal := false,
    await := .writeRead, stops := 0, interrupted := false, doneAccepted := false }

def State.wait (s : State) (await : Await) : State := { s with await := await }

def State.raise (s : State) (raised : Raised) : State := s.wait (.raised raised)

/-- `_move_read`: an action other than the expected one raises. -/
def moveRead (s : State) (event : ReadEvent) (expected : ReadAction) (next : State → State) :
    State :=
  if (readTransition s.phase event).action = expected then
    next { s with phase := (readTransition s.phase event).nextPhase }
  else s.raise .unexpected

/-! ## The handlers -/

/-- The end of `_interrupt`, and what its caller raises. -/
def finishInterrupt (s : State) (caller : Caller) (cancelled : Bool) : State :=
  match s.failure with
  | some failure =>
    moveRead s .writerFailed .latchFailure fun s =>
      moveRead { s with failureCause := some (.writer failure) } .stopSettled .propagate fun s =>
        s.raise (.interrupted s.failureCause)
  | none =>
    moveRead s .stopSettled .propagate fun s =>
      if cancelled ∨ caller = .cancelled then s.raise .cancelled
      else s.raise (.interrupted s.failureCause)

/-- `_interrupt` after its STOP settled. -/
def afterStop (s : State) (caller : Caller) (cancelled : Bool) : State :=
  let persist : State → State := fun s =>
    match s.failure, s.readBegin with
    | some _, _ => finishInterrupt s caller cancelled
    | none, none => s.wait (.persistNothing caller cancelled)
    | none, some _ => s.wait (.persistBegin caller cancelled)
  if cancelled then moveRead s .cancelled .latchCancellation persist else persist s

/-- `_interrupt` after its persistence settled; a cancellation is latched. -/
def afterPersist (s : State) (caller : Caller) (cancelled : Bool) : State :=
  if cancelled then
    moveRead s .cancelled .latchCancellation fun s => finishInterrupt s caller cancelled
  else finishInterrupt s caller cancelled

/-- The end of `_interrupt_failed_writer`. -/
def finishFailed (s : State) : State :=
  if s.phase = .stopping then
    moveRead s .stopSettled .propagate fun s => s.raise (.interrupted s.failureCause)
  else s.raise (.interrupted s.failureCause)

/-- `_interrupt_failed_writer` after its STOP: the READ_BEGIN future is joined. -/
def joinFailedBegin (s : State) : State :=
  match s.readBegin with
  | some _ => s.wait .failedBegin
  | none => finishFailed s

def interruptFailedWriter (s : State) : State :=
  let decision := readTransition s.phase .writerFailed
  let s := { s with phase := decision.nextPhase }
  match decision.action with
  | .stop => { s with stops := s.stops + 1, await := .failedStop false }
  | .propagate => joinFailedBegin s
  | _ => s.raise .unexpected

/-- `_interrupt` for an error. -/
def interruptRead (s : State) : State :=
  match s.failure with
  | some failure => interruptFailedWriter { s with failureCause := some (.writer failure) }
  | none =>
    moveRead s .readFailed .stop fun s =>
      { s with stops := s.stops + 1, await := .interruptStop .failed false }

/-- `_handle_read_cancelled` -/
def handleCancelled (s : State) : State :=
  match s.failure with
  | some failure => interruptFailedWriter { s with failureCause := some (.writer failure) }
  | none =>
    if s.phase = .done then s.wait (.finishBegin true false)
    else
      moveRead s .cancelled .stop fun s =>
        { s with stops := s.stops + 1, await := .interruptStop .cancelled false }

/-- The `except` clauses of `read_leg`. -/
def handle (s : State) (raising : Raising) : State :=
  match raising with
  | .timeout => interruptRead { s with failureCause := some .timeout, mailboxTerminal := true }
  | .writerIngest failure =>
    interruptFailedWriter
      { s with failureCause := some (.writer failure), mailboxTerminal := true }
  | .cancelled => handleCancelled { s with mailboxTerminal := true }
  | .error cls =>
    if cls.routed then
      interruptRead { s with failureCause := some (.error cls), mailboxTerminal := true }
    else s.raise (.unrouted cls)

/-! ## One notification -/

def eventForOpcode (opcode : UInt8) : Option ReadEvent :=
  if opcode = notifyAck then some .ack
  else if opcode = notifyReadBegin then some .begun
  else if opcode = notifyData then some .data
  else if opcode = notifyDone then some .done
  else none

def protocolError {α : Type} : Except String α → Except ErrorClass α
  | .ok a => .ok a
  | .error _ => .error .protocol

def valueError {α : Type} : Except String α → Except ErrorClass α
  | .ok a => .ok a
  | .error _ => .error .value

/-- The writer takes the frontier, or refuses it. -/
def publishFrontier (s : State) (refused : Bool) : Except ErrorClass State :=
  if s.submitted < s.arena.completeRecords * recordSize ∨ s.arena.partialTail ≠ [] then do
    let arena ← valueError s.arena.submit
    if refused then .error .value
    else .ok { s with
      arena := arena, submitted := max s.submitted (arena.completeRecords * recordSize) }
  else .ok s

def validateDone (s : State) (done : DoneNotification) : Except ErrorClass Unit :=
  if done.status ≠ 0 then .error .transfer
  else if done.nextSequence ≠ s.start + s.count then .error .transfer
  else if s.arena.legComplete s.count = false then .error .transfer
  else .ok ()

/-- What one kind of notification does before the phase moves. -/
def consumeEvent (payload : Bytes) (event : ReadEvent) (s : State) (refused : Bool) :
    Except ErrorClass State :=
  match event with
  | .ack => do
    let status ← protocolError (parseAckNotification payload)
    if status = 0 then pure s else .error (.acknowledgement status)
  | .begun => do
    let notice ← protocolError (parseReadBeginNotification payload)
    if (notice.transferStartSequence, notice.packetCount) ≠ (s.start, s.count) then
      .error .transfer
    else pure { s with readBegin := some .enqueued }
  | .data => do
    let data ← protocolError (parseDataNotification payload)
    let arena ← valueError (s.arena.append data)
    publishFrontier { s with arena := arena } refused
  | .done => do
    let done ← protocolError (parseDoneNotification payload)
    validateDone s done
    pure { s with mailboxTerminal := true, doneAccepted := true }
  | _ => .error .transfer

/-- `_consume_notification`; the flag says that the READ is complete. -/
def consumeNotification (payload : Bytes) (s : State) (refused : Bool) :
    Except ErrorClass (State × Bool) :=
  match payload with
  | [] => .error .transfer
  | opcode :: _ =>
    match eventForOpcode opcode with
    | none => .error .transfer
    | some event =>
      let decision := readTransition s.phase event
      if decision.action = .reject then .error .transfer
      else do
        let s ← consumeEvent payload event s refused
        pure ({ s with phase := decision.nextPhase }, decide (decision.action = .barrier))

/-- One turn of the notification loop. The writer refuses the frontier, or fails during it. -/
def onPayload (s : State) (payload : Bytes) (refused : Bool) (failing : Option ℕ) : State :=
  match s.failure with
  | some failure => s.wait (.joinFailureWait (some (.writerIngest failure)))
  | none =>
    match consumeNotification payload s (refused || failing.isSome), failing with
    | .error _, some failure =>
      { s with failure := failing, await := .joinFailureWait (some (.writerIngest failure)) }
    | .error cls, none => s.wait (.joinFailureWait (some (.error cls)))
    | .ok (s', true), some failure =>
      { s' with failure := failing, await := .joinFailureWait (some (.writerIngest failure)) }
    | .ok (s', true), none => s'.wait (.joinFailureWait none)
    | .ok (s', false), _ => { s' with failure := failing }

/-! ## The end of a completed READ -/

def finishCancelled (s : State) : State :=
  match s.failure with
  | some failure =>
    moveRead s .writerFailed .propagate fun s => s.raise (.interrupted (some (.writer failure)))
  | none => moveRead s .cancelled .propagate fun s => s.raise .cancelled

def finishFailedBarrier (s : State) : State :=
  match s.failure with
  | some failure =>
    moveRead s .writerFailed .propagate fun s => s.raise (.interrupted (some (.writer failure)))
  | none => moveRead s .barrierFailed .propagate fun s => s.raise (.interrupted (some .barrier))

def finishBarrierOk (s : State) (owned : Bool) : State :=
  match s.failure with
  | some failure =>
    moveRead s .writerFailed .propagate fun s => s.raise (.interrupted (some (.writer failure)))
  | none =>
    if owned then moveRead s .cancelled .propagate fun s => s.raise .cancelled
    else moveRead s .barrierOk .complete fun s => s.wait .returned

/-! ## Steps -/

inductive Event where
  /-- The awaited work settled. -/
  | settled
  /-- The awaited writer call raised. -/
  | writerCallFailed
  | payload (bytes : Bytes) (refused : Bool) (failing : Option ℕ)
  | timeout
  /-- A transport or system error of the awaited device operation. -/
  | transportError (system : Bool)
  /-- The notification stream ended. -/
  | streamEnded
  /-- The wait for a writer failure woke the leg. -/
  | failureWoke
  | cancel
  | writerFails (failure : ℕ)
  deriving DecidableEq, Repr

def transportClass (system : Bool) : ErrorClass := if system then .os else .transport

def onSettled (s : State) : State :=
  match s.await with
  | .writeRead => s.wait .notification
  | .joinNotification raising => s.wait (.joinFailureWait (some raising))
  | .joinFailureWait (some raising) => handle s raising
  | .joinFailureWait none => s.wait (.finishBegin false false)
  | .interruptStop caller cancelled => afterStop s caller cancelled
  | .persistNothing caller cancelled => afterPersist s caller cancelled
  | .persistBegin caller cancelled =>
    { s with readBegin := some .completed, await := .persistInterrupt caller cancelled }
  | .persistInterrupt caller cancelled => afterPersist { s with interrupted := true } caller cancelled
  | .failedStop cancelled =>
    if cancelled then moveRead s .cancelled .latchCancellation joinFailedBegin else joinFailedBegin s
  | .failedBegin => finishFailed { s with readBegin := some .completed }
  | .finishBegin owned cancelled =>
    let s := { s with readBegin := some .completed }
    if cancelled = true ∧ owned = false then finishCancelled s
    else s.wait (.finishBarrier owned cancelled)
  | .finishBarrier owned cancelled =>
    if cancelled = true ∧ owned = false then finishCancelled s else finishBarrierOk s owned
  | _ => s

/-- A raised writer call; the interrupted persistence raises only for a failed writer. -/
def onWriterCallFailed (s : State) : State :=
  match s.await, s.failure with
  | .persistBegin caller cancelled, some _ =>
    finishInterrupt { s with readBegin := some .failed } caller cancelled
  | .persistInterrupt caller cancelled, some _ => finishInterrupt s caller cancelled
  | .failedBegin, _ => finishFailed { s with readBegin := some .failed }
  | .finishBegin _ _, _ => finishFailedBarrier { s with readBegin := some .failed }
  | .finishBarrier _ _, _ => finishFailedBarrier s
  | _, _ => s

def onTimeout (s : State) : State :=
  match s.await with
  | .writeRead => handle s .timeout
  | .notification => s.wait (.joinNotification .timeout)
  | .joinNotification .cancelled => s
  | .joinNotification _ => s.wait (.joinNotification .timeout)
  | _ => s

def onError (s : State) (cls : ErrorClass) : State :=
  match s.await with
  | .writeRead => handle s (.error cls)
  | .notification => s.wait (.joinFailureWait (some (.error cls)))
  | _ => s

def onCancel (s : State) : State :=
  match s.await with
  | .writeRead => handle s .cancelled
  | .notification => s.wait (.joinNotification .cancelled)
  | .joinNotification _ => s.wait (.joinNotification .cancelled)
  | .joinFailureWait _ => s.wait (.joinFailureWait (some .cancelled))
  | .interruptStop caller _ => s.wait (.interruptStop caller true)
  | .persistNothing caller _ => s.wait (.persistNothing caller true)
  | .persistBegin caller _ => s.wait (.persistBegin caller true)
  | .persistInterrupt caller _ => s.wait (.persistInterrupt caller true)
  | .failedStop _ => s.wait (.failedStop true)
  | .finishBegin owned _ => s.wait (.finishBegin owned true)
  | .finishBarrier owned _ => s.wait (.finishBarrier owned true)
  | _ => s

/-- The leg is over. -/
def Await.isOver : Await → Bool
  | .returned => true
  | .raised _ => true
  | _ => false

def step (s : State) (event : Event) : State :=
  if s.await.isOver then s
  else
    match event with
    | .settled => onSettled s
    | .writerCallFailed => onWriterCallFailed s
    | .payload bytes refused failing =>
      if s.await = .notification then onPayload s bytes refused failing else s
    | .timeout => onTimeout s
    | .transportError system => onError s (transportClass system)
    | .streamEnded => if s.await = .notification then onError s .streamEnd else s
    | .failureWoke =>
      match s.await, s.failure with
      | .notification, some failure => s.wait (.joinNotification (.writerIngest failure))
      | _, _ => s
    | .cancel => onCancel s
    | .writerFails failure => { s with failure := s.failure.or (some failure) }

def run (s : State) (events : List Event) : State := TransitionRuns.run step s events

end ReadLeg
