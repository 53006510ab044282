import OmiCollector.ReadStream
import OmiCollector.StagingTarget
import OmiCollector.WriterFrontiers

/-! Legs one after another: the collector reads them into one arena, publishes what it received to
the attempt writer, and the writer's thread calls the target.

Each leg starts at the durable prefix. A step of the thread may come between any two events, and the
faults that its target call meets come with it. -/
namespace ArenaLegs

open ByteCodec RefusalLogic
open CaptureStore (StoreConfig)
open TransferArena (ReadBeginNotification recordSize)
open AttemptWriter (WriterConfig Request Call Result admitRequest publish workerStep slice)
open WriterMachine (failureOf)
open WriterQueue (outstanding QueueInv FailureInv firstError)
open WriterFrontiers
open ReadStream (Ingest Writer IngestM IngestError Synced WriterReady Received Reads turn)
open StagingTarget (Target TargetError Fault Stored Level Prepared SameLeg SameRows misplaced
  perform)

variable {D : Type} [DecidableEq D] {ε α : Type}

/-- Where `read_leg` is. -/
inductive Collector where
  | idle
  | preparing
  | reading
  | settling (complete : Bool)
  | barrier
  | ended
  deriving DecidableEq, Repr

structure World (D : Type) where
  ingest : Ingest TargetError
  target : Target D
  collector : Collector

inductive Event where
  | leg (count : ℕ)
  | notification (payload : Bytes)
  | stop
  | settle
  | finish (request : Request ReadBeginNotification)
  | worker (faults : List (Option Fault)) (now : ℕ)

abbrev World.arena (x : World D) : ArenaBuffer.Arena := x.ingest.arena

abbrev World.writer (x : World D) : Writer TargetError := x.ingest.writer

/-- The bytes that the arena received. -/
def World.got (x : World D) : Bytes := x.arena.buffer.take x.arena.receivedBytes

/-- Admit a command and go on, or give up. -/
def ask (config : WriterConfig) (x : World D) (request : Request ReadBeginNotification)
    (next : Collector) : World D :=
  match admitRequest config x.writer request with
  | .ok (writer, _) => { x with ingest := { x.ingest with writer := writer }, collector := next }
  | .error _ => { x with collector := .ended }

/-- The start of `read_leg`: the arena selects the leg, and its preparation is asked for. -/
def onLeg (config : WriterConfig) (x : World D) (count : ℕ) : World D :=
  match x.collector, x.target.store.source with
  | .idle, some s =>
    let start := s.sequenceStart + s.committedCount
    match exec (ArenaBuffer.beginLeg start count) x.arena with
    | (.ok _, arena) =>
      ask config { x with ingest := ⟨start, count, .awaitBegin, arena, x.writer⟩ }
        (.prepareLeg start count) .preparing
    | (.error _, _) => x
  | _, _ => x

def onNotification (config : WriterConfig) (x : World D) (payload : Bytes) : World D :=
  match x.collector with
  | .reading =>
    match exec (turn config payload) x.ingest with
    | (.ok true, ingest) => { x with ingest := ingest, collector := .settling true }
    | (.ok false, ingest) => { x with ingest := ingest }
    | (.error _, ingest) => { x with ingest := ingest, collector := .settling false }
  | _ => x

/-- A timeout, or a stop that was asked for. -/
def onStop (x : World D) : World D :=
  match x.collector with
  | .reading => { x with collector := .settling false }
  | _ => x

/-- A wait is over: for the preparation, for READ_BEGIN before the barrier, or for the barrier. -/
def onSettle (config : WriterConfig) (x : World D) : World D :=
  match x.collector with
  | .settling complete =>
    if x.ingest.phase = .awaitBegin then { x with collector := .idle }
    else if outstanding x.writer = [] then
      ask config x (if complete = true then .checkpoint else .interrupt) .barrier
    else x
  | .preparing =>
    if outstanding x.writer = [] then
      { x with collector := if (failureOf x.writer.state).isSome then .ended else .reading }
    else x
  | .barrier =>
    if outstanding x.writer = [] then
      { x with collector := if (failureOf x.writer.state).isSome then .ended else .idle }
    else x
  | _ => x

def isFinal : Request ReadBeginNotification → Bool
  | .sealing _ | .publishPrefix | .close => true
  | _ => false

/-- After the legs: the seal, the publication of the prefix and the close. -/
def onFinish (config : WriterConfig) (x : World D) (request : Request ReadBeginNotification) :
    World D :=
  if (x.collector = .idle ∨ x.collector = .ended) ∧ isFinal request = true then
    ask config x request .ended
  else x

/-- The target's answer to the call that the thread makes next. -/
def answer (cfg : StoreConfig D) (config : WriterConfig) (x : World D)
    (faults : List (Option Fault)) (now : ℕ) : Except TargetError Result × Target D :=
  match pendingCall config x.arena.buffer x.writer with
  | none => (.ok none, x.target)
  | some call => exec (perform cfg call) { x.target with faults := faults, now := now }

def onWorker (cfg : StoreConfig D) (config : WriterConfig) (x : World D)
    (faults : List (Option Fault)) (now : ℕ) : World D :=
  let answered := answer cfg config x faults now
  { x with
    ingest := { x.ingest with writer := workerStep config x.arena.buffer x.writer answered.1 }
    target := answered.2 }

def step (cfg : StoreConfig D) (config : WriterConfig) (x : World D) : Event → World D
  | .leg count => onLeg config x count
  | .notification payload => onNotification config x payload
  | .stop => onStop x
  | .settle => onSettle config x
  | .finish request => onFinish config x request
  | .worker faults now => onWorker cfg config x faults now

def run (cfg : StoreConfig D) (config : WriterConfig) (x : World D) (events : List Event) :
    World D :=
  TransitionRuns.run (step cfg config) x events

/-! ## What a turn leaves as it was -/

section Turn

open ArenaBuffer (Law)
open ReadStream (onArena parsed consumeNotification consumeEvent consumeData consumeReadBegin
  consumeAck validateDone publishFrontier submitReadBegin requireHealthy reraise finishTurn
  wp_onArena wp_append_exact)

/-- The arena and the writer hang together. -/
structure Linked (i : Ingest ε) : Prop where
  law : Law i.arena
  inv : WriterDelivery.Inv i.arena.buffer i.writer
  within : Frontiers (fun m t => m + t.length ≤ i.arena.receivedBytes) i.writer

/-- What an event of the loop leaves as it was: the leg's place, the bytes received before, and
where the writer's thread is. -/
structure Grown (i i' : Ingest ε) : Prop where
  linked : Linked i'
  request : i'.start = i.start ∧ i'.count = i.count
  start : i'.arena.startSequence = i.arena.startSequence
  received : i.arena.receivedBytes ≤ i'.arena.receivedBytes
  bytes : i'.arena.buffer.take i.arena.receivedBytes = i.arena.buffer.take i.arena.receivedBytes
  worker : i'.writer.worker = i.writer.worker
  calls : i'.writer.calls = i.writer.calls
  written : i'.writer.written = i.writer.written
  writtenTail : i'.writer.writtenTail = i.writer.writtenTail

theorem Grown.refl {i : Ingest ε} (h : Linked i) : Grown i i :=
  ⟨h, ⟨rfl, rfl⟩, rfl, le_rfl, rfl, rfl, rfl, rfl, rfl⟩

theorem Grown.trans {i j k : Ingest ε} (h : Grown i j) (h' : Grown j k) : Grown i k := by
  refine ⟨h'.linked, ⟨h'.request.1.trans h.request.1, h'.request.2.trans h.request.2⟩,
    h'.start.trans h.start, h.received.trans h'.received, ?_,
    h'.worker.trans h.worker, h'.calls.trans h.calls, h'.written.trans h.written,
    h'.writtenTail.trans h.writtenTail⟩
  have htake := congrArg (List.take i.arena.receivedBytes) h'.bytes
  rw [List.take_take, List.take_take, min_eq_left h.received] at htake
  exact htake.trans h.bytes

variable {i j : Ingest ε}

/-- An effect on the arena. -/
theorem Grown.arena {call : ArenaBuffer.Call} {a : ArenaBuffer.Arena} (h : Linked i)
    (heffect : ArenaBuffer.Effect i.arena call a) : Grown i { i with arena := a } := by
  obtain ⟨hle, hkept⟩ := heffect.kept h.law
  have hlaw := heffect.law h.law
  have hstart : a.startSequence = i.arena.startSequence := by
    cases heffect with
    | append => unfold ArenaBuffer.Arena.appended; split <;> rfl
    | _ => rfl
  have hlength : i.arena.buffer.length ≤ a.buffer.length := by
    rw [h.law.allocated, hlaw.allocated]
    cases heffect with
    | append => rw [(ArenaBuffer.appended_frame _ _).1]
    | _ => exact le_rfl
  have hbytes :
      a.buffer.take i.arena.receivedBytes = i.arena.buffer.take i.arena.receivedBytes := by
    apply List.ext_getElem?
    intro n
    by_cases hn : n < i.arena.receivedBytes
    · rw [List.getElem?_take_of_lt hn, List.getElem?_take_of_lt hn, hkept n hn]
    · rw [List.getElem?_take_eq_none (Nat.not_lt.mp hn),
        List.getElem?_take_eq_none (Nat.not_lt.mp hn)]
  obtain ⟨reach, hdata⟩ := h.inv.data
  refine ⟨⟨hlaw, ⟨⟨reach, dataInv_grow hdata h.within hlength hbytes⟩, h.inv.queue, h.inv.failure⟩,
    h.within.mono fun m t hmt => hmt.trans hle⟩, ⟨rfl, rfl⟩, hstart, hle, hbytes, rfl, rfl, rfl,
    rfl⟩

/-- The arena's own frontier is published. -/
theorem Grown.publish {w : Writer ε} {moved : Bool} (h : Linked i)
    (hpublish : publish i.arena.buffer i.writer (i.arena.completeRecords * recordSize)
      i.arena.partialTail = .ok (w, moved)) : Grown i { i with writer := w } := by
  obtain ⟨reach, hdata⟩ := h.inv.data
  have hfailure : FailureInv w ∧ w.worker = i.writer.worker ∧ w.calls = i.writer.calls ∧
      w.written = i.writer.written ∧ w.writtenTail = i.writer.writtenTail := by
    obtain rfl | ⟨-, -, -, -, -, rfl⟩ := WriterQueue.publish_cases hpublish
    · exact ⟨h.inv.failure, rfl, rfl, rfl, rfl⟩
    · exact ⟨h.inv.failure.move rfl rfl rfl h.inv.failure.facts, rfl, rfl, rfl, rfl⟩
  exact ⟨⟨h.law, ⟨⟨reach, WriterDelivery.publish_dataInv hdata hpublish⟩,
    WriterQueue.publish_queueInv h.inv.queue hpublish, hfailure.1⟩,
    h.within.publish (ReadStream.partialTail_length h.law).le hpublish⟩, ⟨rfl, rfl⟩, rfl,
    le_rfl, rfl, hfailure.2.1, hfailure.2.2.1, hfailure.2.2.2.1, hfailure.2.2.2.2⟩

/-- A command is admitted. -/
theorem Grown.admitted {config : WriterConfig} {request : Request ReadBeginNotification}
    {w : Writer ε} {future : Option ℕ} (h : Linked i)
    (hadmitted : admitRequest config i.writer request = .ok (w, future)) :
    Grown i { i with writer := w } := by
  obtain ⟨reach, hdata⟩ := h.inv.data
  have hsame : w.worker = i.writer.worker ∧ w.calls = i.writer.calls ∧
      w.written = i.writer.written ∧ w.writtenTail = i.writer.writtenTail := by
    obtain rfl | ⟨-, rfl⟩ := WriterQueue.admit_cases hadmitted <;> exact ⟨rfl, rfl, rfl, rfl⟩
  exact ⟨⟨h.law, ⟨⟨reach, WriterDelivery.admit_dataInv hdata hadmitted⟩,
    WriterQueue.admit_queueInv h.inv.queue hadmitted,
    WriterQueue.admit_failureInv h.inv.failure hadmitted⟩, h.within.admitted hadmitted⟩,
    ⟨rfl, rfl⟩, rfl, le_rfl, rfl, hsame.1, hsame.2.1, hsame.2.2.1, hsame.2.2.2⟩

theorem Grown.phase (h : Linked i) (phase : BatchMachine.ReadPhase) :
    Grown i { i with phase := phase } :=
  ⟨⟨h.law, h.inv, h.within⟩, ⟨rfl, rfl⟩, rfl, le_rfl, rfl, rfl, rfl, rfl, rfl⟩

/-- An operation of the loop, from any linked state. -/
def Grows (x : IngestM ε α) : Prop :=
  ∀ i, Linked i → wp x i (fun _ i' => Grown i i') (fun _ i' => Grown i i')

theorem Grows.pure (a : α) : Grows (pure a : IngestM ε α) := fun _ h => .refl h

theorem Grows.throw (e : IngestError ε) : Grows (throw e : IngestM ε α) := fun _ h => .refl h

theorem Grows.bind {β : Type} {x : IngestM ε α} {f : α → IngestM ε β} (hx : Grows x)
    (hf : ∀ a, Grows (f a)) : Grows (x >>= f) := by
  intro i h
  rw [wp_bind]
  refine wp_mono (hx i h) (fun a j hj => ?_) (fun _ _ he => he)
  exact wp_mono (hf a j hj.linked) (fun _ _ hk => hj.trans hk) (fun _ _ hk => hj.trans hk)

/-- What reads the state first. -/
theorem Grows.get {f : Ingest ε → IngestM ε α}
    (hf : ∀ i, Linked i → wp (f i) i (fun _ i' => Grown i i') (fun _ i' => Grown i i')) :
    Grows (get >>= f) := by
  intro i h
  rw [wp_bind, wp_get]
  exact hf i h

theorem Grows.refuseIf (c : Prop) [Decidable c] (e : IngestError ε) :
    Grows (refuseIf c e : IngestM ε PUnit) := by
  intro i h
  rw [wp_refuseIf]
  exact ⟨fun _ => .refl h, fun _ => .refl h⟩

theorem Grows.requireOk (x : Except (IngestError ε) α) : Grows (requireOk x : IngestM ε α) := by
  intro i h
  rw [wp_requireOk]
  exact ⟨fun _ _ => .refl h, fun _ _ => .refl h⟩

theorem Grows.parsed (x : Except String α) : Grows (parsed x : IngestM ε α) := .requireOk _

theorem grows_append (fragment : Bytes) :
    Grows (onArena (ArenaBuffer.append fragment) : IngestM ε PUnit) := by
  intro i h
  rw [wp_onArena]
  refine wp_mono (ArenaBuffer.wp_append i.arena fragment) ?_ ?_
  · rintro _ a ⟨hfits, hagrees, rfl⟩
    exact .arena h (.append hfits hagrees)
  · rintro e a ⟨rfl, -⟩
    exact .refl h

theorem grows_submitReadBegin (config : WriterConfig) (notice : ReadBeginNotification) :
    Grows (submitReadBegin config notice : IngestM ε PUnit) := by
  refine .get fun i h => ?_
  rcases hadmitted : admitRequest config i.writer (.readBegin notice) with error | ⟨w, future⟩
  · cases error <;> exact .refl h
  · exact .admitted h hadmitted

/-- The frontier that DATA publishes is the arena's own. -/
theorem grows_publishFrontier {i : Ingest ε} (h : Linked i) :
    wp (publishFrontier (i.arena.completeRecords * recordSize) i.arena.partialTail) i
      (fun _ i' => Grown i i') (fun _ i' => Grown i i') := by
  simp only [publishFrontier, wp_bind, wp_onArena]
  refine wp_mono (ArenaBuffer.wp_submitPrefix i.arena none) ?_ ?_
  · rintro _ _ ⟨target, hle, rfl⟩
    have heffect : ArenaBuffer.Effect i.arena (.submitPrefix none)
        { i.arena with submittedBytes := target * recordSize } := .submitPrefix target hle
    have hsubmitted := Grown.arena h heffect
    simp only [wp_get]
    rcases hpublish : publish i.arena.buffer i.writer (i.arena.completeRecords * recordSize)
      i.arena.partialTail with error | ⟨w, moved⟩
    · exact hsubmitted
    · exact hsubmitted.trans (.publish hsubmitted.linked hpublish)
  · rintro e a ⟨rfl, -⟩
    exact .refl h

theorem grows_consumeData (payload : Bytes) : Grows (consumeData payload : IngestM ε PUnit) := by
  refine .bind (.parsed _) fun body => .bind (grows_append body) fun _ => .get fun i h => ?_
  simp only [wp_ite]
  exact ⟨fun _ => grows_publishFrontier h, fun _ => .refl h⟩

theorem grows_consumeEvent (config : WriterConfig) (payload : Bytes)
    (event : BatchMachine.ReadEvent) :
    Grows (consumeEvent config payload event : IngestM ε PUnit) := by
  cases event with
  | ack => exact .bind (.parsed _) fun _ => .refuseIf _ _
  | begun =>
    refine .bind (.parsed _) fun notice => .get fun i h => ?_
    rw [wp_bind, wp_refuseIf]
    exact ⟨fun _ => .refl h, fun _ => grows_submitReadBegin config notice i h⟩
  | data => exact grows_consumeData payload
  | done =>
    refine .bind (.parsed _) fun done => .get fun i h => ?_
    simp only [wp_bind, wp_refuseIf]
    exact ⟨fun _ => .refl h, fun _ => ⟨fun _ => .refl h, fun _ => ⟨fun _ => .refl h,
      fun _ => .refl h⟩⟩⟩
  | _ => exact .throw _

theorem grows_consumeNotification (config : WriterConfig) (payload : Bytes)
    (event : BatchMachine.ReadEvent) :
    Grows (consumeNotification config payload event : IngestM ε Bool) := by
  refine .get fun i h => ?_
  simp only [wp_bind, wp_refuseIf]
  refine ⟨fun _ => .refl h, fun _ => ?_⟩
  refine wp_mono (grows_consumeEvent config payload event i h) (fun _ j hj => ?_) (fun _ _ he => he)
  rw [wp_modify, wp_pure]
  exact hj.trans (.phase hj.linked _)

theorem grows_requireHealthy : Grows (requireHealthy : IngestM ε PUnit) := by
  refine .get fun i h => ?_
  rcases hfailure : failureOf i.writer.state with _ | failure <;> exact .refl h

theorem grows_turn (config : WriterConfig) (payload : Bytes) :
    Grows (turn config payload : IngestM ε Bool) := by
  refine .bind grows_requireHealthy fun _ => .bind (.requireOk _) fun event =>
    .bind grows_requireHealthy fun _ => ?_
  intro i h
  rw [wp_tryCatch]
  have hconsumed :
      Grows (consumeNotification config payload event >>= finishTurn : IngestM ε Bool) := by
    refine .bind (grows_consumeNotification config payload event) fun done => ?_
    cases done with
    | true => exact .bind grows_requireHealthy fun _ => .pure _
    | false => exact .pure _
  refine wp_mono (hconsumed i h) (fun _ _ hj => hj) (fun error j hj => ?_)
  have hraised : Grows (reraise error : IngestM ε Bool) :=
    .bind grows_requireHealthy fun _ => .throw _
  exact wp_mono (hraised j hj.linked) (fun _ _ hk => hj.trans hk) (fun _ _ hk => hj.trans hk)

theorem wp_any {σ : Type} (x : Refusable σ ε α) (s : σ) :
    wp x s (fun _ _ => True) (fun _ _ => True) := by
  unfold wp
  split <;> trivial

theorem opening_stays : ∀ (phase : BatchMachine.ReadPhase) (event : BatchMachine.ReadEvent),
    (BatchMachine.readTransition phase event).action ≠ .reject →
    (BatchMachine.readTransition phase event).nextPhase = .awaitBegin →
    phase = .awaitBegin ∧ event = .ack := by
  intro phase event
  cases phase <;> cases event <;> decide

/-- Before READ_BEGIN a turn does nothing. -/
theorem wp_turn_opening (config : WriterConfig) (payload : Bytes) (i : Ingest ε) :
    wp (turn config payload) i
      (fun _ i' => i'.phase = .awaitBegin → i.phase = .awaitBegin ∧ i'.writer = i.writer)
      (fun _ _ => True) := by
  rcases hfailure : failureOf i.writer.state with _ | failure
  swap
  · simp only [turn, requireHealthy, wp_bind, wp_get, hfailure, wp_throw]
  simp only [turn, wp_bind, ReadStream.wp_requireHealthy hfailure, wp_requireOk, wp_tryCatch]
  refine ⟨fun _ _ => trivial, fun event _ => ?_⟩
  have hraised : ∀ (error : IngestError ε) (j : Ingest ε) (Q : Bool → Ingest ε → Prop),
      wp (reraise error) j Q (fun _ _ => True) := by
    intro error j Q
    simp only [reraise, requireHealthy, wp_bind, wp_get]
    cases failureOf j.writer.state <;> trivial
  have hfinished : ∀ (done : Bool) (j : Ingest ε) (Q : Ingest ε → Prop), Q j →
      wp (finishTurn done) j (fun _ => Q)
        (fun error k => wp (reraise error) k (fun _ => Q) (fun _ _ => True)) := by
    intro done j Q hQ
    cases done with
    | true =>
      simp only [finishTurn, requireHealthy, wp_bind, if_true, wp_get]
      cases failureOf j.writer.state with
      | none => exact hQ
      | some failure => exact hraised _ _ _
    | false => exact hQ
  simp only [consumeNotification, wp_bind, wp_get, wp_refuseIf, wp_modify, wp_pure]
  refine ⟨fun _ => hraised _ _ _, fun hconsume => ?_⟩
  by_cases hstays : (BatchMachine.readTransition i.phase event).nextPhase = .awaitBegin
  · obtain ⟨hphase, rfl⟩ := opening_stays i.phase event hconsume hstays
    refine wp_mono (ReadStream.wp_consumeAck payload i) ?_ (fun _ _ _ => hraised _ _ _)
    rintro _ _ ⟨-, rfl⟩
    exact hfinished _ _ _ fun _ => ⟨hphase, rfl⟩
  · exact wp_mono (wp_any _ i) (fun _ _ _ => hfinished _ _ _ fun hopen => absurd hopen hstays)
      (fun _ _ _ => hraised _ _ _)

end Turn

end ArenaLegs
