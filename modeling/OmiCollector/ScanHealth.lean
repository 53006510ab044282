import Mathlib.Algebra.Order.Ring.Rat
import OmiCollector.TransitionRuns

/-! The scan health monitor as a system of its synchronous sections.

A section runs to its next await without interruption. What a coroutine awaits is part of the
state: the persistence lock's holder waits for a sink call, `prepare` for the stored incident,
and a finished scan for its diagnostics. Every event below resumes one waiting section or starts
a call, and an event that nothing waits for changes nothing, so that any list of events is an
interleaving. Times are rationals. -/
namespace ScanHealth

inductive Reason where
  | scanSilence
  | scanStartFailed
  | scanStopFailed
  deriving DecidableEq, Repr

structure ScanIncidentContext where
  generation : ℕ
  reason : Reason
  activeSeconds : ℚ
  bleakCallbacks : ℕ
  lastCallbackAgeSeconds : Option ℚ
  thresholdSeconds : ℚ
  errorKind : Option String
  deriving DecidableEq, Repr

structure Monitor where
  threshold : ℚ
  initialized : Bool
  storageFatal : Bool
  incidentStateUnknown : Bool
  incidentActive : Bool
  incidentGeneration : Option ℕ
  openContext : Option ScanIncidentContext
  resolutionPending : Bool
  retryAt : Option ℚ
  retryDelay : ℚ
  generation : Option ℕ
  startedAt : Option ℚ
  activeSeconds : ℚ
  lastCallbackAt : Option ℚ
  callbackCount : ℕ
  failureLatched : Bool
  failureAt : Option ℚ
  resolving : Bool
  deriving DecidableEq, Repr

def Monitor.new (threshold : ℚ) : Monitor :=
  ⟨threshold, false, false, false, false, none, none, false, none, 1, none, none, 0, none, 0, false,
    none, false⟩

/-- The next retry or the active scan's all-device silence deadline. -/
def Monitor.nextDeadline (m : Monitor) : Option ℚ :=
  match m.retryAt with
  | some time => some time
  | none =>
    if m.failureLatched then none
    else m.startedAt.map fun started =>
      max started (m.lastCallbackAt.getD started) + m.threshold

/-- The end of `initialize` when the stored incident was read. -/
def Monitor.lookedUp (m : Monitor) (active : Bool) : Monitor :=
  let m := { m with incidentActive := active, incidentStateUnknown := false, initialized := true }
  if !active && m.openContext.isNone && m.resolutionPending then
    { m with resolutionPending := false, incidentGeneration := none, failureLatched := false }
  else m

/-- The body of `prepare` after `initialize`. -/
def Monitor.prepared (m : Monitor) (generation : ℕ) : Monitor :=
  { m with
    failureLatched := m.failureLatched && m.openContext.isSome
    generation := some generation
    startedAt := none
    activeSeconds := 0
    lastCallbackAt := none
    callbackCount := 0 }

def Monitor.scanStarted (m : Monitor) (clock : ℚ) (generation : ℕ) (time : Option ℚ) : Monitor :=
  if m.generation = some generation then { m with startedAt := some (time.getD clock) } else m

def Monitor.scanStopping (m : Monitor) (clock : ℚ) (generation : ℕ) : Monitor :=
  if m.generation = some generation then
    match m.startedAt with
    | some started => { m with activeSeconds := max 0 (clock - started), startedAt := none }
    | none => m
  else m

def Monitor.startOpen (m : Monitor) (clock : ℚ) (generation : ℕ) (reason : Reason)
    (errorKind : Option String) : Monitor :=
  let m := { m with failureAt := some clock, resolutionPending := false }
  if m.failureLatched && !m.resolving then m
  else
    { m with
      openContext := some
        { generation := generation
          reason := reason
          activeSeconds := match m.startedAt with
            | some started => max 0 (clock - started)
            | none => m.activeSeconds
          bleakCallbacks := m.callbackCount
          lastCallbackAgeSeconds := m.lastCallbackAt.map fun last => max 0 (clock - last)
          thresholdSeconds := m.threshold
          errorKind := errorKind }
      incidentGeneration := some generation
      failureLatched := true }

/-- A scanner callback. The flag asks the scheduler to flush the recovery. -/
def Monitor.radioActivity (m : Monitor) (clock : ℚ) (generation : ℕ) (time : ℚ) :
    Monitor × Bool :=
  if m.generation ≠ some generation then (m, false)
  else
    let m := { m with
      callbackCount := m.callbackCount + 1
      lastCallbackAt := some (m.lastCallbackAt.elim time fun last => max last time) }
    if m.failureAt.any fun failed => decide (time ≤ failed) then (m, false)
    else if m.incidentActive || m.incidentStateUnknown || m.openContext.isSome then
      if m.resolutionPending then (m, false)
      else
        ({ m with resolutionPending := true, incidentGeneration := some generation },
          (m.incidentActive || m.incidentStateUnknown) &&
            m.retryAt.all fun retry => decide (retry ≤ clock))
    else ({ m with failureLatched := false }, false)

/-- What the holder of the persistence lock waits for. -/
inductive Persist where
  | idle
  /-- `sink.open` was called; the flag says that the sink stored the incident. -/
  | opening (stored : Bool)
  /-- The owned task was created and has not run yet. -/
  | resolveStarting (generation : ℕ)
  /-- `sink.resolve` was called; the flag says that the sink removed the incident. -/
  | resolving (generation : ℕ) (stored : Bool)
  deriving DecidableEq, Repr

/-- The second half of the persistence section: start the owned resolution if one is due. -/
def Monitor.resolveIfPending (m : Monitor) : Monitor × Persist :=
  if m.resolutionPending && (m.incidentActive || m.incidentStateUnknown) then
    match m.incidentGeneration with
    | some generation => ({ m with resolving := true }, .resolveStarting generation)
    | none => (m, .idle)
  else (m, .idle)

def Monitor.persistPending (m : Monitor) (clock : ℚ) (now : Option ℚ) : Monitor × Persist :=
  if m.storageFatal then (m, .idle)
  else if m.retryAt.any fun retry => decide (now.getD clock < retry) then (m, .idle)
  else if m.openContext.isSome then (m, .opening false)
  else m.resolveIfPending

def Monitor.opened (m : Monitor) : Monitor × Persist :=
  { m with
    incidentActive := true
    openContext := none
    retryAt := none
    retryDelay := 1 : Monitor }.resolveIfPending

/-- A failed sink call: a fatal storage error is kept, any other is retried later. -/
def Monitor.persistFailed (m : Monitor) (clock : ℚ) (fatal : Bool) : Monitor :=
  if fatal then { m with storageFatal := true }
  else { m with retryAt := some (clock + m.retryDelay), retryDelay := min (m.retryDelay * 2) 30 }

def Monitor.resolved (m : Monitor) (clock : ℚ) : Monitor × Persist :=
  let m := { m with resolving := false, incidentActive := false, incidentStateUnknown := false }
  if m.openContext.isNone then
    ({ m with
      incidentGeneration := none
      resolutionPending := false
      failureLatched := false
      retryAt := none
      retryDelay := 1 }, .idle)
  else { m with retryAt := none, retryDelay := 1 : Monitor }.persistPending clock none

/-- What is seen from outside, newest first. -/
inductive Obs where
  | failure (time : ℚ)
  /-- A callback, and whether it carried the current generation. -/
  | callback (current : Bool) (time : ℚ)
  /-- The lock holder decided to resolve. -/
  | decided
  | resolveCall
  | openCall
  | openDone
  deriving DecidableEq, Repr

def lastFailure : List Obs → Option ℚ
  | [] => none
  | .failure time :: _ => some time
  | _ :: rest => lastFailure rest

/-- Since the last failure, a callback of its then current generation was seen with a strictly
later time. -/
def answered : List Obs → Bool
  | [] => false
  | .failure _ :: _ => false
  | .callback true time :: rest =>
    ((lastFailure rest).all fun failed => decide (failed < time)) || answered rest
  | _ :: rest => answered rest

/-- An awaited `sink.active()` of one `prepare`. -/
structure Lookup where
  generation : ℕ
  reading : Option Bool
  /-- An incident was opened after the reading. -/
  overtaken : Bool
  deriving DecidableEq, Repr

/-- What follows an awaited close of the diagnostics. -/
inductive Closing where
  | startFailed
  | stopped
  | stopFailed
  deriving DecidableEq, Repr

structure System where
  monitor : Monitor
  clock : ℚ
  sink : Bool
  persist : Persist
  lookups : List Lookup
  closings : List Closing
  log : List Obs
  deriving DecidableEq, Repr

def System.new (threshold clock : ℚ) (stored : Bool) : System :=
  ⟨.new threshold, clock, stored, .idle, [], [], []⟩

inductive Event where
  | tick (time : ℚ)
  | prepare (generation : ℕ)
  | lookupRead (index : ℕ)
  | lookupReturn (index : ℕ)
  | lookupFail (index : ℕ) (fatal : Bool)
  | scanStarted (generation : ℕ) (time : Option ℚ)
  | scanStopping (generation : ℕ)
  | scanStopped (generation : ℕ)
  | scanStartFailed (generation : ℕ) (errorKind : String)
  | scanStopFailed (generation : ℕ) (errorKind : String)
  | diagnosticsClosed (index : ℕ)
  | radioActivity (generation : ℕ) (time : ℚ)
  | checkDeadline (now : Option ℚ)
  /-- Some caller of `_attempt_persistence` takes the free lock. -/
  | attempt (now : Option ℚ)
  | openStored
  | openReturn
  | openFail (fatal : Bool)
  | openCancelled
  | resolveCall
  | resolveStored
  | resolveReturn
  | resolveFail (fatal : Bool)
  deriving DecidableEq, Repr

/-- Record a failure of the scan. -/
def System.fail (s : System) (generation : ℕ) (reason : Reason) (errorKind : Option String) :
    System :=
  { s with
    monitor := s.monitor.startOpen s.clock generation reason errorKind
    log := .failure s.clock :: s.log }

/-- The lock holder's section ends in a sink call, in an owned task, or with the lock free. -/
def System.wait (s : System) (next : Monitor × Persist) : System :=
  { s with
    monitor := next.1
    persist := next.2
    log := match next.2 with
      | .opening _ => .openCall :: s.log
      | .resolveStarting _ => .decided :: s.log
      | _ => s.log }

/-- A lookup reads the sink once. -/
def Lookup.read (stored : Bool) (l : Lookup) : Lookup :=
  if l.reading.isSome then l else { l with reading := some stored }

/-- A reading taken before an incident was opened is no longer current. -/
def Lookup.overtake (l : Lookup) : Lookup := { l with overtaken := l.overtaken || l.reading.isSome }

def silenceDue (m : Monitor) (current : ℚ) : Option ℕ :=
  if m.retryAt.isSome then none
  else match m.nextDeadline, m.generation with
    | some deadline, some generation => if current < deadline then none else some generation
    | _, _ => none

def step (s : System) : Event → System
  | .tick time => { s with clock := max s.clock time }
  | .prepare generation =>
    if s.monitor.initialized then { s with monitor := s.monitor.prepared generation }
    else if s.monitor.storageFatal then s
    else { s with lookups := s.lookups ++ [⟨generation, none, false⟩] }
  | .lookupRead index =>
    { s with lookups := s.lookups.modify index (Lookup.read s.sink) }
  | .lookupReturn index =>
    match s.lookups[index]? with
    | some ⟨generation, some active, _⟩ =>
      { s with
        monitor := (s.monitor.lookedUp active).prepared generation
        lookups := s.lookups.eraseIdx index }
    | _ => s
  | .lookupFail index fatal =>
    match s.lookups[index]? with
    | some l =>
      { s with
        monitor := if fatal then { s.monitor with storageFatal := true }
          else { s.monitor with incidentStateUnknown := true : Monitor }.prepared l.generation
        lookups := s.lookups.eraseIdx index }
    | none => s
  | .scanStarted generation time =>
    { s with monitor := s.monitor.scanStarted s.clock generation time }
  | .scanStopping generation => { s with monitor := s.monitor.scanStopping s.clock generation }
  | .scanStopped generation =>
    if s.monitor.generation = some generation then
      { s with closings := s.closings ++ [.stopped] }
    else s
  | .scanStartFailed generation errorKind =>
    if s.monitor.generation = some generation then
      { s with closings := s.closings ++ [.startFailed] : System }.fail generation .scanStartFailed
        (some errorKind)
    else s
  | .scanStopFailed generation errorKind =>
    if s.monitor.generation = some generation then
      { s with closings := s.closings ++ [.stopFailed] : System }.fail generation .scanStopFailed
        (some errorKind)
    else s
  | .diagnosticsClosed index =>
    match s.closings[index]? with
    | some .startFailed =>
      { s with
        monitor := { s.monitor with startedAt := none }
        closings := s.closings.eraseIdx index }
    | some .stopped =>
      { s with
        monitor := { s.monitor with startedAt := none, generation := none }
        closings := s.closings.eraseIdx index }
    | some .stopFailed => { s with closings := s.closings.eraseIdx index }
    | none => s
  | .radioActivity generation time =>
    { s with
      monitor := (s.monitor.radioActivity s.clock generation time).1
      log := .callback (decide (s.monitor.generation = some generation)) time :: s.log }
  | .checkDeadline now =>
    match silenceDue s.monitor (now.getD s.clock) with
    | some generation => s.fail generation .scanSilence none
    | none => s
  | .attempt now =>
    if s.persist = .idle then s.wait (s.monitor.persistPending s.clock now) else s
  | .openStored =>
    match s.persist with
    | .opening _ => { s with sink := true, persist := .opening true }
    | _ => s
  | .openReturn =>
    match s.persist with
    | .opening true =>
      { s with
        lookups := s.lookups.map Lookup.overtake
        log := .openDone :: s.log : System }.wait s.monitor.opened
    | _ => s
  | .openFail fatal =>
    match s.persist with
    | .opening _ =>
      { s with monitor := s.monitor.persistFailed s.clock fatal, persist := .idle }
    | _ => s
  | .openCancelled =>
    match s.persist with
    | .opening _ => { s with persist := .idle }
    | _ => s
  | .resolveCall =>
    match s.persist with
    | .resolveStarting generation =>
      { s with persist := .resolving generation false, log := .resolveCall :: s.log }
    | _ => s
  | .resolveStored =>
    match s.persist with
    | .resolving generation _ => { s with sink := false, persist := .resolving generation true }
    | _ => s
  | .resolveReturn =>
    match s.persist with
    | .resolving _ true => s.wait (s.monitor.resolved s.clock)
    | _ => s
  | .resolveFail fatal =>
    match s.persist with
    | .resolving _ false =>
      { s with
        monitor := { s.monitor with resolving := false : Monitor }.persistFailed s.clock fatal
        persist := .idle }
    | _ => s

/-- The state after a list of events. -/
def run (s : System) (events : List Event) : System := TransitionRuns.run step s events

end ScanHealth
