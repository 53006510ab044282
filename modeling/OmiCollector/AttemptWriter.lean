import OmiCollector.TransitionRuns
import OmiCollector.WriterMachine
import Mathlib.Data.Int.Notation
import Mathlib.Data.List.Basic

/-! The attempt writer: an event loop that publishes a frontier of a shared arena and admits
commands, and one worker thread that is the only caller of the target.

A step is one section under the lock, one call of the target with its answer, or one completion of
a future. The producer does not mutate what it published, so the arena is what it finally holds. -/
namespace AttemptWriter

open WriterMachine (State failureOf)

variable {ε ν : Type}

def recordSize : ℕ := 444

structure WriterConfig where
  chunkRecords : ℕ
  maxControlCommands : ℕ
  chunkRecords_pos : 0 < chunkRecords

inductive Command (ν : Type) where
  | prepare
  | prepareLeg (startSequence recordCount : ℕ)
  | readBegin (notice : ν)
  | checkpoint (highWater : ℕ) (tail : List UInt8)
  | interrupt (highWater : ℕ) (tail : List UInt8)
  | sealing (highWater : ℕ) (doneNotice : ν) (tail : List UInt8)
  | publishPrefix (highWater : ℕ) (tail : List UInt8)
  | close (highWater : ℕ) (tail : List UInt8)
  deriving DecidableEq, Repr

/-- The frontier a command is admitted with. -/
def Command.frontier : Command ν → Option (ℕ × List UInt8)
  | .checkpoint highWater tail => some (highWater, tail)
  | .interrupt highWater tail => some (highWater, tail)
  | .sealing highWater _ tail => some (highWater, tail)
  | .publishPrefix highWater tail => some (highWater, tail)
  | .close highWater tail => some (highWater, tail)
  | _ => none

def Command.isClose : Command ν → Bool
  | .close _ _ => true
  | _ => false

structure Pending (ν : Type) where
  command : Command ν
  future : ℕ
  deriving DecidableEq, Repr

/-- What the target is asked for. -/
inductive Call (ν : Type) where
  | prepare
  | prepareLeg (startSequence recordCount : ℕ)
  | readBegin (notice : ν)
  | appendChunk (offset : ℕ) (chunk tail : List UInt8)
  | checkpoint
  | interrupt
  | sealing (doneNotice : ν)
  | publishPrefix
  | close
  deriving DecidableEq, Repr

/-- The target call of a command, its data drained before. -/
def Command.call : Command ν → Call ν
  | .prepare => .prepare
  | .prepareLeg startSequence recordCount => .prepareLeg startSequence recordCount
  | .readBegin notice => .readBegin notice
  | .checkpoint _ _ => .checkpoint
  | .interrupt _ _ => .interrupt
  | .sealing _ doneNotice _ => .sealing doneNotice
  | .publishPrefix _ _ => .publishPrefix
  | .close _ _ => .close

def Command.successEvent : Command ν → WriterMachine.Event ε
  | .prepare => .prepareSucceeded
  | .prepareLeg _ _ => .legSucceeded
  | .readBegin _ => .readBeginSucceeded
  | .checkpoint _ _ => .checkpointSucceeded
  | .interrupt _ _ => .checkpointSucceeded
  | .sealing _ _ _ => .finalizeSucceeded
  | .publishPrefix _ _ => .finalizeSucceeded
  | .close _ _ => .closeSucceeded

/-- A target result: a durable acknowledgement with its two numbers, or something else. -/
abbrev Result := Option (ℤ × ℤ)

/-- Who drains: the idle worker, or a command before its target call. -/
inductive Owner (ν : Type) where
  | idle
  | command (pending : Pending ν)
  deriving DecidableEq, Repr

def Owner.exact : Owner ν → Bool
  | .idle => false
  | .command _ => true

/-- The local variables of `_drain_data`; `looping` says that its loop was not left. -/
structure Drain where
  target : ℕ
  frontierTail : List UInt8
  start : ℕ
  writtenTail : List UInt8
  wrote : Bool
  looping : Bool
  deriving DecidableEq, Repr

/-- Where the worker thread is. -/
inductive Worker (ε ν : Type) where
  | next
  | idleCheck
  | waiting
  | waking
  | drain (owner : Owner ν)
  | draining (owner : Owner ν) (drain : Drain)
  | appended (owner : Owner ν) (drain : Drain) (stop : ℕ) (following : List UInt8)
  | tailAppended (owner : Owner ν) (drain : Drain)
  | commandCheck (pending : Pending ν)
  | closeCheck (pending : Pending ν)
  | calling (pending : Pending ν)
  | succeeded (pending : Pending ν) (result : Result)
  | remember (pending : Pending ν) (result : Result)
  | completing (pending : Pending ν) (outcome : Except ε Result)
  | recording (owner : Owner ν) (error : ε)
  | flushing (owner : Owner ν) (items : List (Pending ν)) (latched : ε)
  | exited

/-- One answered call of the target. -/
structure Called (ε ν : Type) where
  call : Call ν
  error : Option ε
  deriving DecidableEq, Repr

/-- The writer, with the target calls and the completions so far, newest first. -/
structure Writer (ε ν : Type) where
  state : State ε
  commands : List (Pending ν)
  published : ℕ
  publishedTail : List UInt8
  written : ℕ
  writtenTail : List UInt8
  durable : Option (ℤ × ℤ)
  closePending : Option ℕ
  sealPending : Option ℕ
  sealResult : Option Result
  wake : Bool
  nextFuture : ℕ
  worker : Worker ε ν
  calls : List (Called ε ν)
  completions : List (ℕ × Except ε Result)

def Writer.new : Writer ε ν :=
  { state := .constructed, commands := [], published := 0, publishedTail := [], written := 0,
    writtenTail := [], durable := none, closePending := none, sealPending := none,
    sealResult := none, wake := false, nextFuture := 0, worker := .next, calls := [],
    completions := [] }

/-! ## The event loop -/

inductive WriterError (ε : Type) where
  | error (message : String)
  | closed (message : String)
  | failed (cause : Option ε)
  | queueFull
  | value (message : String)
  deriving DecidableEq, Repr

/-- `_raise_rejection_locked` -/
def rejection (state : State ε) (kind : WriterMachine.RejectionKind) (publish : Bool)
    (finalizationMessage : String) : WriterError ε :=
  match kind with
  | .notStarted => .error "writer has not been started"
  | .preparePending => .error "writer preparation has not completed"
  | .readPending => .error "READ_BEGIN has not completed"
  | .finalizePending => .closed finalizationMessage
  | .finalized =>
    if publish then .closed "writer is sealing or sealed" else .closed "writer is already sealed"
  | .finalizing => .closed "writer is sealing or sealed"
  | .closed => .closed "writer is closed"
  | .failed => .failed (failureOf state)

/-- The bytes of the arena from one offset on. -/
def slice (arena : List UInt8) (start count : ℕ) : List UInt8 := (arena.drop start).take count

/-- Publish a monotonic source offset and the bytes received after it. -/
def publish (arena : List UInt8) (w : Writer ε ν) (highWater : ℕ) (tail : List UInt8) :
    Except (WriterError ε) (Writer ε ν × Bool) :=
  if arena.length < highWater then .error (.value "high_water must be inside the arena")
  else if highWater % recordSize ≠ 0 then .error (.value "high_water must be record-aligned")
  else if recordSize ≤ tail.length then .error (.value "tail must be bytes shorter than a record")
  else if arena.length < highWater + tail.length then
    .error (.value "tail exceeds the source arena")
  else if slice arena highWater tail.length ≠ tail then
    .error (.value "tail does not match the source arena")
  else
    match (WriterMachine.transition w.state .publishRequested).directive with
    | .reject kind => .error (rejection w.state kind true "")
    | _ =>
      if highWater < w.published then .ok (w, false)
      else if highWater = w.published ∧
          w.publishedTail.take tail.length ≠ tail.take w.publishedTail.length then
        .error (.value "tail conflicts with the published frontier")
      else if highWater = w.published ∧ tail.length ≤ w.publishedTail.length then .ok (w, false)
      else .ok ({ w with published := highWater, publishedTail := tail, wake := true }, true)

/-- The control operations of the event loop. -/
inductive Request (ν : Type) where
  | start
  | prepareLeg (startSequence recordCount : ℕ)
  | readBegin (notice : ν)
  | checkpoint
  | interrupt
  | sealing (doneNotice : ν)
  | publishPrefix
  | close
  deriving DecidableEq, Repr

def Request.event : Request ν → WriterMachine.Event ε
  | .start => .startRequested
  | .prepareLeg _ _ => .legRequested
  | .readBegin _ => .readBeginRequested
  | .checkpoint => .checkpointRequested
  | .interrupt => .checkpointRequested
  | .sealing _ => .finalizeRequested
  | .publishPrefix => .finalizeRequested
  | .close => .closeRequested

/-- The command of an operation, with the frontier published when it is admitted. -/
def Request.command (highWater : ℕ) (tail : List UInt8) : Request ν → Command ν
  | .start => .prepare
  | .prepareLeg startSequence recordCount => .prepareLeg startSequence recordCount
  | .readBegin notice => .readBegin notice
  | .checkpoint => .checkpoint highWater tail
  | .interrupt => .interrupt highWater tail
  | .sealing doneNotice => .sealing highWater doneNotice tail
  | .publishPrefix => .publishPrefix highWater tail
  | .close => .close highWater tail

def Request.finalizationMessage : Request ν → String
  | .sealing _ => "writer seal is already pending"
  | _ => "writer publication is already pending"

def Request.isClose : Request ν → Bool
  | .close => true
  | _ => false

def Request.isSealing : Request ν → Bool
  | .sealing _ => true
  | _ => false

/-- `_admit`: decide, check the capacity and enqueue. The result is the future to wait for. -/
def admitRequest (config : WriterConfig) (w : Writer ε ν) (request : Request ν) :
    Except (WriterError ε) (Writer ε ν × Option ℕ) :=
  let result := WriterMachine.transition w.state request.event
  match result.directive with
  | .reject kind => .error (rejection w.state kind false request.finalizationMessage)
  | .ignore => .ok (w, none)
  | .reuseClose => .ok (w, w.closePending)
  | .admitRequest =>
    if request.isClose = false ∧ config.maxControlCommands ≤ w.commands.length then
      .error .queueFull
    else
      .ok ({ w with
        commands := w.commands ++ [⟨request.command w.published w.publishedTail, w.nextFuture⟩]
        state := result.state
        closePending := if request.isClose then some w.nextFuture else w.closePending
        sealPending := if request.isSealing then some w.nextFuture else w.sealPending
        wake := true
        nextFuture := w.nextFuture + 1 }, some w.nextFuture)

/-! ## The worker thread -/

def Writer.goto (w : Writer ε ν) (worker : Worker ε ν) : Writer ε ν := { w with worker := worker }

/-- A target call with its answer. -/
def Writer.called (w : Writer ε ν) (call : Call ν) (answer : Except ε Result)
    (ok : Result → Worker ε ν) (failed : ε → Worker ε ν) : Writer ε ν :=
  match answer with
  | .ok result => { w with calls := ⟨call, none⟩ :: w.calls, worker := ok result }
  | .error error => { w with calls := ⟨call, some error⟩ :: w.calls, worker := failed error }

def Writer.complete (w : Writer ε ν) (future : ℕ) (outcome : Except ε Result) : Writer ε ν :=
  { w with completions := (future, outcome) :: w.completions }

def nextCommand (w : Writer ε ν) : Writer ε ν :=
  match w.commands with
  | [] => w.goto .idleCheck
  | pending :: rest => { w with commands := rest, worker := .commandCheck pending }

/-- `_run_idle` reads the state once; only a reading writer drains. -/
def idleCheck (w : Writer ε ν) : Writer ε ν :=
  match w.state with
  | .reading => w.goto (.drain .idle)
  | _ => w.goto .waiting

/-- `_run_command` and the start of `_execute`. -/
def commandCheck (w : Writer ε ν) (pending : Pending ν) : Writer ε ν :=
  match failureOf w.state, pending.command.isClose with
  | some failure, false => w.goto (.completing pending (.error failure))
  | _, true => w.goto (.closeCheck pending)
  | none, false =>
    match pending.command.frontier with
    | some _ => w.goto (.drain (.command pending))
    | none => w.goto (.calling pending)

def closeCheck (w : Writer ε ν) (pending : Pending ν) : Writer ε ν :=
  match w.state with
  | .closing none true _ => w.goto (.drain (.command pending))
  | _ => w.goto (.calling pending)

/-- The lock section at the start of `_drain_data`. -/
def startDrain (w : Writer ε ν) (owner : Owner ν) : Writer ε ν :=
  match owner with
  | .idle =>
    w.goto (.draining owner ⟨w.published, w.publishedTail, w.written, w.writtenTail, false, true⟩)
  | .command pending =>
    match pending.command.frontier with
    | some (limit, tail) =>
      w.goto (.draining owner ⟨min limit w.published, tail, w.written, w.writtenTail, false, true⟩)
    | none => w.goto (.calling pending)

/-- Where the worker goes when `_drain_data` returns. -/
def drained (owner : Owner ν) (wrote : Bool) : Worker ε ν :=
  match owner with
  | .idle => if wrote then .next else .waiting
  | .command pending => .calling pending

/-- The next target call of `_drain_data`, or its end. -/
def draining (config : WriterConfig) (arena : List UInt8) (w : Writer ε ν) (owner : Owner ν)
    (d : Drain) (answer : Except ε Result) : Writer ε ν :=
  if d.looping = true ∧ d.start < d.target then
    let stop := min d.target (d.start + config.chunkRecords * recordSize)
    let following := if stop = d.target then d.frontierTail else []
    w.called (.appendChunk d.start (slice arena d.start (stop - d.start)) following) answer
      (fun _ => .appended owner d stop following) (.recording owner)
  else if d.start = d.target ∧ d.frontierTail ≠ d.writtenTail then
    w.called (.appendChunk d.start [] d.frontierTail) answer
      (fun _ => .tailAppended owner d) (.recording owner)
  else w.goto (drained owner d.wrote)

/-- The lock section after an appended chunk; an idle drain leaves its loop. -/
def recordAppended (w : Writer ε ν) (owner : Owner ν) (d : Drain) (stop : ℕ)
    (following : List UInt8) : Writer ε ν :=
  { w with
    written := stop
    writtenTail := following
    worker := .draining owner { d with
      start := stop, writtenTail := following, wrote := true, looping := owner.exact } }

def recordTail (w : Writer ε ν) (owner : Owner ν) (d : Drain) : Writer ε ν :=
  { w with writtenTail := d.frontierTail, worker := drained owner true }

/-- The outcome that a settled command's future gets. -/
def settledOutcome (state : State ε) (result : Result) : Except ε Result :=
  match failureOf state with
  | some failure => .error failure
  | none => .ok result

/-- The lock section after a successful command. -/
def recordSuccess (w : Writer ε ν) (pending : Pending ν) (result : Result) : Writer ε ν :=
  let state := (WriterMachine.transition w.state pending.command.successEvent).state
  let settled := Worker.completing pending (settledOutcome state result)
  match pending.command with
  | .sealing _ _ _ => { w with state := state, sealResult := some result, worker := settled }
  | .checkpoint _ _ | .interrupt _ _ =>
    { w with
      state := state
      worker := if (failureOf state).isSome then settled else .remember pending result }
  | _ => { w with state := state, worker := settled }

/-- `_remember_durable_result` -/
def rememberDurable (w : Writer ε ν) (pending : Pending ν) (result : Result) : Writer ε ν :=
  { w with
    durable :=
      match result with
      | some (next, count) => if next < 0 ∨ count < 0 then w.durable else some (next, count)
      | none => w.durable
    worker := .completing pending (.ok result) }

def Owner.closeFailed : Owner ν → Bool
  | .idle => false
  | .command pending => pending.command.isClose

/-- The lock section of `_record_failure`. -/
def recordFailure (w : Writer ε ν) (owner : Owner ν) (error : ε) : Writer ε ν :=
  let event := if owner.closeFailed then .closeFailed error else .commandFailed error
  let state := (WriterMachine.transition w.state event).state
  match failureOf state with
  | some latched =>
    { w with state := state, commands := [], worker := .flushing owner w.commands latched }
  | none =>
    { w with state := .failed error, commands := [], worker := .flushing owner w.commands error }

/-- Where the worker goes on after a failure is recorded. -/
def afterFailure (owner : Owner ν) (latched : ε) : Worker ε ν :=
  match owner with
  | .idle => .next
  | .command pending => .completing pending (.error latched)

/-- Complete the queued commands; a close is put back and ends the loop. -/
def flush (w : Writer ε ν) (owner : Owner ν) (items : List (Pending ν)) (latched : ε) :
    Writer ε ν :=
  match items with
  | [] => w.goto (afterFailure owner latched)
  | item :: rest =>
    if item.command.isClose then
      { w with commands := item :: w.commands, worker := afterFailure owner latched }
    else (w.complete item.future (.error latched)).goto (.flushing owner rest latched)

def workerStep (config : WriterConfig) (arena : List UInt8) (w : Writer ε ν)
    (answer : Except ε Result) : Writer ε ν :=
  match w.worker with
  | .next => nextCommand w
  | .idleCheck => idleCheck w
  | .waiting => if w.wake then w.goto .waking else w
  | .waking => { w with wake := false, worker := .next }
  | .drain owner => startDrain w owner
  | .draining owner d => draining config arena w owner d answer
  | .appended owner d stop following => recordAppended w owner d stop following
  | .tailAppended owner d => recordTail w owner d
  | .commandCheck pending => commandCheck w pending
  | .closeCheck pending => closeCheck w pending
  | .calling pending =>
    w.called pending.command.call answer (.succeeded pending) (.recording (.command pending))
  | .succeeded pending result => recordSuccess w pending result
  | .remember pending result => rememberDurable w pending result
  | .completing pending outcome =>
    (w.complete pending.future outcome).goto (if pending.command.isClose then .exited else .next)
  | .recording owner error => recordFailure w owner error
  | .flushing owner items latched => flush w owner items latched
  | .exited => w

inductive Event (ε ν : Type) where
  | publish (highWater : ℕ) (tail : List UInt8)
  | request (request : Request ν)
  /-- The worker takes a step; a target call in it gets this answer. -/
  | worker (answer : Except ε Result)

def step (config : WriterConfig) (arena : List UInt8) (w : Writer ε ν) :
    Event ε ν → Writer ε ν
  | .publish highWater tail =>
    match publish arena w highWater tail with
    | .ok (w', _) => w'
    | .error _ => w
  | .request request =>
    match admitRequest config w request with
    | .ok (w', _) => w'
    | .error _ => w
  | .worker answer => workerStep config arena w answer

def run (config : WriterConfig) (arena : List UInt8) (w : Writer ε ν)
    (events : List (Event ε ν)) : Writer ε ν :=
  TransitionRuns.run (step config arena) w events

end AttemptWriter
