import OmiCollector.ClockTiming
import OmiCollector.RefusalLogic
import OmiCollector.TransitionRuns

/-! One session of `_sync_clock` over the durable clock store, with its BLE effects.

A session is a sequence of effects. It may stop before any of them: a crash, a cancellation
and a raised stop intent all leave the durable state as it was. A store call is one
transaction that commits and returns, commits and then raises, or raises without committing.
A raised call ends the session, since every handler of the source only emits an event and
returns. The trace is history: it is written by the model and never read by it. -/
namespace ClockSync

open ClockModel RefusalLogic

/-- The two clock rows of the state database. -/
structure ClockDb where
  payload : Option ClockState
  migrated : Bool
  deriving DecidableEq

inductive StoreResult where
  | returned
  | raisedAfterCommit
  | raisedBeforeCommit
  deriving DecidableEq, Repr

inductive Event where
  | setTime (session boundary : ℕ) (durable : Option ClockIntent)
  | cancelled (session : ℕ)
  | observed (durable : Option ClockIntent)
  | infoPersisted (writeSequence : ℕ)
  | finished
  deriving DecidableEq

structure World where
  db : ClockDb
  /-- The write sequence of the last INFO; no INFO reports a smaller one. -/
  lastWrite : ℕ
  session : ℕ
  /-- Effects left before this session stops. -/
  steps : ℕ
  trace : List Event

def initial : World := ⟨⟨none, false⟩, 0, 0, 0, []⟩

abbrev SyncM (α : Type) := Refusable World String α

inductive WriteOutcome where
  | missing
  | performed
  | timeout (sent : Bool)
  | failed (sent : Bool)
  | interrupted (sent : Bool)
  deriving DecidableEq, Repr

inductive Readback where
  | timeout
  | value (verified : Option ℕ)
  deriving DecidableEq, Repr

/-- An INFO reply: its write sequence is the last one plus `advance`. -/
structure InfoReply where
  readSequence : ℕ
  advance : ℕ
  deriving DecidableEq, Repr

/-- Everything a session takes from its environment. -/
structure Session where
  steps : ℕ
  clockDriftThresholdSeconds : ℚ
  sessionId : String
  operationId : String
  infoBefore : InfoReply
  epoch : Option ℕ
  sampleBefore : ℚ
  sampleAfter : ℚ
  hostSynchronized : Bool
  stateReadable : Bool
  reconcileMark : StoreResult
  reconcileFinish : StoreResult
  observeBefore : StoreResult
  hostTime : ℚ
  writerPresent : Bool
  prepare : StoreResult
  writeStarted : ℚ
  write : WriteOutcome
  readerPresent : Bool
  readback : Readback
  readFinished : ℚ
  cancel : StoreResult
  infoAfter : Option InfoReply
  markAfter : StoreResult
  finishAfter : StoreResult
  observeAfter : StoreResult

/-- Python `int` of a finite number. -/
def truncate (q : ℚ) : ℤ := if 0 ≤ q then q.floor else q.ceil

/-- Every awaited effect, and every stop check, is a point where the session may end. -/
def effect : SyncM Unit := do
  let w ← get
  refuseIf (w.steps = 0) "session stopped"
  set { w with steps := w.steps - 1 }

def record (event : Event) : SyncM Unit :=
  modify fun w => { w with trace := w.trace ++ [event] }

def receiveInfo (reply : InfoReply) : SyncM RingInfo := do
  let w ← get
  let info : RingInfo := ⟨reply.readSequence, w.lastWrite + reply.advance⟩
  set { w with lastWrite := info.writeSequence }
  return info

def fromExcept {α : Type} : Except String α → SyncM α
  | .ok a => pure a
  | .error e => throw e

def annotateUnknown (s : ClockState) : ClockState :=
  { s with
    causalUncertainty := (s.ranges.filter (·.offsetSeconds.isNone)).foldl
      (fun intervals r => insertInterval (r.startSequence, r.nextSequence) intervals)
      s.causalUncertainty }

def currentState (db : ClockDb) : ClockState :=
  let state := db.payload.getD empty
  if db.migrated then state else annotateUnknown state

/-- `_load_current`: the state a transaction works on, and the rows as it leaves them. -/
def loadCurrent (db : ClockDb) : ClockState × ClockDb :=
  (currentState db, if db.migrated then db else
    ⟨db.payload.map fun _ => currentState db, true⟩)

/-- End one transaction with these rows and this history. -/
def commit (result : StoreResult) (db : ClockDb) (events : List Event) : SyncM Unit :=
  match result with
  | .returned => modify fun w => { w with db := db, trace := w.trace ++ events }
  | .raisedAfterCommit => do
    modify fun w => { w with db := db, trace := w.trace ++ events }
    throw "store call raised after its commit"
  | .raisedBeforeCommit => throw "store call raised before its commit"

/-- A transaction that applies one transition and always writes the result. -/
def transact (result : StoreResult) (apply : ClockState → Except String ClockState)
    (events : List Event) : SyncM Unit := do
  effect
  let w ← get
  let (state, db) := loadCurrent w.db
  let next ← fromExcept (apply state)
  commit result { db with payload := some next } events

def prepare (result : StoreResult) (intent : ClockIntent) : SyncM Unit :=
  transact result (·.beginIntent intent) []

def markUncertain (result : StoreResult) (operationId : String) (after : Option ℕ) : SyncM Unit :=
  transact result (·.markUncertain operationId after) (after.map Event.infoPersisted).toList

def cancelPrepared (result : StoreResult) (operationId : String) : SyncM Unit := do
  transact result (·.cancelPreparedIntent operationId) [.cancelled (← get).session]

def finish (result : StoreResult) (operationId : String) (ranges : List ClockRange) : SyncM Unit :=
  transact result (·.finishIntent operationId ranges) [.finished]

def observe (result : StoreResult) (info : RingInfo) (offsetSeconds uncertaintySeconds : ℚ)
    (sourceId : String) (toleranceSeconds : ℚ) : SyncM Unit := do
  effect
  let w ← get
  let (state, db) := loadCurrent w.db
  record (.observed state.intent)
  let next ← fromExcept (state.observe info offsetSeconds uncertaintySeconds sourceId
    toleranceSeconds)
  commit result { db with payload := if next = state then db.payload else some next }
    [.infoPersisted info.writeSequence]

/-- The unknown range between a write boundary and a later INFO, if it is not empty. -/
def unknownRange (before after : ℕ) (operationId : String) : SyncM (List ClockRange) :=
  if after > before then do
    return [← fromExcept (ClockRange.make before after none none .unknown operationId)]
  else return []

def reconcilePendingState (s : Session) (intent : ClockIntent) (info : RingInfo) : SyncM Unit := do
  refuseIf (info.writeSequence < intent.writeSequenceBefore)
    "device sequence regressed across a pending clock write"
  if intent.phase = .prepared ∨ intent.writeSequenceAfter = none then
    markUncertain s.reconcileMark intent.operationId (some info.writeSequence)
  else pure ()
  let unknown ← unknownRange intent.writeSequenceBefore info.writeSequence intent.operationId
  finish s.reconcileFinish intent.operationId unknown

/-- What `_write_and_verify` reports: nothing was sent, or a write may have gone out. -/
inductive WriteReport where
  | notSent
  | unacknowledged
  | written (verified : Option ℕ)
  deriving DecidableEq

/-- The BLE write itself, if it left the host. -/
def sendSetTime (sent : Bool) (boundary : ℕ) : SyncM Unit :=
  if sent then do
    let w ← get
    record (.setTime w.session boundary (currentState w.db).intent)
  else pure ()

def writeAndVerify (s : Session) (target : ℤ) (boundary : ℕ) : SyncM WriteReport := do
  effect
  if ¬ ((target : ℚ) ≤ s.writeStarted ∧ s.writeStarted ≤ target + 2) then
    return .notSent
  else
    effect
    match s.write with
    | .missing => return .notSent
    | .timeout sent | .failed sent => do
      sendSetTime sent boundary
      return .unacknowledged
    | .interrupted sent => do
      sendSetTime sent boundary
      throw "write interrupted"
    | .performed => do
      sendSetTime true boundary
      effect
      match s.readback with
      | .timeout => return .written none
      | .value verified =>
        let allowance := max 1 (truncate (s.readFinished - s.writeStarted) + 1)
        let read := if s.readerPresent then verified else none
        return .written (read.filter fun (v : ℕ) =>
          decide (target ≤ v ∧ (v : ℤ) ≤ target + allowance))

def readBoundaryAfter (s : Session) (report : WriteReport) : SyncM (Option RingInfo) :=
  match report, s.infoAfter with
  | .written _, some reply => do
    effect
    return some (← receiveInfo reply)
  | _, _ => return none

def persistClockResult (s : Session) (intent : ClockIntent) (report : WriteReport)
    (infoAfter : Option RingInfo) (boundary : ℕ) : SyncM Unit := do
  markUncertain s.markAfter intent.operationId (infoAfter.map (·.writeSequence))
  match report, infoAfter with
  | .written (some readback), some info => do
    let ranges ← unknownRange boundary info.writeSequence intent.operationId
    finish s.finishAfter intent.operationId ranges
    observe s.observeAfter info ((s.writeStarted + s.readFinished) / 2 - readback)
      (max 1 ((s.readFinished - s.writeStarted) / 2 + 1)) s.sessionId
      s.clockDriftThresholdSeconds
  | _, _ => pure ()

def correctDrift (s : Session) (epoch : ℕ) (midpoint : ℚ) (info : RingInfo) : SyncM Unit := do
  effect
  let target := truncate s.hostTime
  refuseIf (target < 0 ∨ target > maxUint32) "target unrepresentable"
  refuseIf (s.writerPresent = false) "time write missing"
  let intent ← fromExcept (ClockIntent.make s.operationId .prepared epoch target.toNat midpoint
    info.writeSequence none)
  effect
  prepare s.prepare intent
  effect
  let report ← writeAndVerify s target info.writeSequence
  match report with
  | .notSent => cancelPrepared s.cancel intent.operationId
  | report => do
    let infoAfter ← readBoundaryAfter s report
    persistClockResult s intent report infoAfter info.writeSequence

def syncTrustedStateClock (s : Session) (epoch : ℕ) (info : RingInfo) : SyncM Unit := do
  let midpoint := (s.sampleBefore + s.sampleAfter) / 2
  let uncertainty := max 1 ((s.sampleAfter - s.sampleBefore) / 2 + 1)
  effect
  refuseIf (s.stateReadable = false) "evidence persist failed"
  match (currentState (← get).db).intent with
  | some intent => reconcilePendingState s intent info
  | none => pure ()
  effect
  observe s.observeBefore info (midpoint - epoch) uncertainty s.sessionId
    s.clockDriftThresholdSeconds
  if |(epoch : ℚ) - midpoint| ≤ s.clockDriftThresholdSeconds then
    pure ()
  else
    correctDrift s epoch midpoint info

def syncClock (s : Session) : SyncM Unit := do
  let info ← receiveInfo s.infoBefore
  effect
  match s.epoch with
  | none => pure ()
  | some epoch => do
    effect
    refuseIf (s.hostSynchronized = false) "host unsynchronized"
    syncTrustedStateClock s epoch info

/-- The world after one session, however far it got. -/
def runSession (w : World) (s : Session) : World :=
  (exec (syncClock s) { w with session := w.session + 1, steps := s.steps }).2

end ClockSync
