import Mathlib.Data.List.Infix
import OmiCollector.ReadGrammar
import OmiCollector.ReadLeg
import OmiCollector.ArenaBuffer
import OmiCollector.WriterTails

/-! The notification loop of a READ, over the arena and the attempt writer that it publishes to.

An event is the next notification, or a step of the writer's thread, which may come between any
two of them. Progress reports, which nothing here reads, are left out. -/
namespace ReadStream

open ByteCodec RefusalLogic TransferArena ReadGrammar
open AttemptWriter (WriterConfig WriterError admitRequest publish workerStep)
open BatchMachine (ReadPhase ReadEvent ReadAction readTransition)
open ReadLeg (ErrorClass eventForOpcode)
open WriterMachine (failureOf)
open WriterQueue (QueueInv outstanding)
open WriterDelivery (Frontier)

abbrev Writer (ε : Type) := AttemptWriter.Writer ε ReadBeginNotification

/-- What a turn of the loop raises. -/
inductive IngestError (ε : Type) where
  | ring (cls : ErrorClass)
  | arena (failure : ArenaBuffer.Failure)
  | writer (error : WriterError ε)
  | writerIngest (failure : ε)

/-- The loop's state: the requested leg, the phase, and what it fills. -/
structure Ingest (ε : Type) where
  start : ℕ
  count : ℕ
  phase : ReadPhase
  arena : ArenaBuffer.Arena
  writer : Writer ε

abbrev IngestM (ε α : Type) := Refusable (Ingest ε) (IngestError ε) α

variable {ε α : Type}

/-- A call of the arena. -/
def onArena (x : ArenaBuffer.ArenaM α) : IngestM ε α := do
  let i ← get
  match exec x i.arena with
  | (.ok a, arena) => do
    set { i with arena := arena }
    pure a
  | (.error failure, arena) => do
    set { i with arena := arena }
    throw (.arena failure)

def parsed (x : Except String α) : IngestM ε α :=
  requireOk (x.mapError fun _ => .ring .protocol)

/-- `submit_read_begin`: the future of a failed writer carries the error. -/
def submitReadBegin (config : WriterConfig) (notice : ReadBeginNotification) : IngestM ε PUnit := do
  let i ← get
  match admitRequest config i.writer (.readBegin notice) with
  | .ok (writer, _) => set { i with writer := writer }
  | .error (.failed _) => pure ⟨⟩
  | .error error => throw (.writer error)

def consumeReadBegin (config : WriterConfig) (payload : Bytes) : IngestM ε PUnit := do
  let notice ← parsed (parseReadBeginNotification payload)
  let i ← get
  refuseIf ((notice.transferStartSequence, notice.packetCount) ≠ (i.start, i.count))
    (.ring .transfer)
  submitReadBegin config notice

def publishFrontier (completeBytes : ℕ) (tail : Bytes) : IngestM ε PUnit := do
  let _ ← onArena (ArenaBuffer.submitPrefix none)
  let i ← get
  match publish i.arena.buffer i.writer completeBytes tail with
  | .ok (writer, _) => set { i with writer := writer }
  | .error error => throw (.writer error)

def consumeData (payload : Bytes) : IngestM ε PUnit := do
  let body ← parsed (parseDataNotification payload)
  onArena (ArenaBuffer.append body)
  let i ← get
  let completeBytes := i.arena.completeRecords * recordSize
  let tail := i.arena.partialTail
  if i.writer.published < completeBytes ∨ tail ≠ [] then publishFrontier completeBytes tail
  else pure ⟨⟩

def validateDone (done : DoneNotification) : IngestM ε PUnit := do
  let i ← get
  refuseIf (done.status ≠ 0) (.ring .transfer)
  refuseIf (done.nextSequence ≠ i.start + i.count) (.ring .transfer)
  refuseIf (i.arena.legBytes ≠ i.count * recordSize ∨ i.arena.legBytes / recordSize ≠ i.count)
    (.ring .transfer)

def consumeAck (payload : Bytes) : IngestM ε PUnit := do
  let status ← parsed (parseAckNotification payload)
  refuseIf (status ≠ 0) (.ring (.acknowledgement status))

def consumeEvent (config : WriterConfig) (payload : Bytes) : ReadEvent → IngestM ε PUnit
  | .ack => consumeAck payload
  | .begun => consumeReadBegin config payload
  | .data => consumeData payload
  | .done => do
    let done ← parsed (parseDoneNotification payload)
    validateDone done
  | _ => throw (.ring .transfer)

/-- `_consume_notification`: whether the READ is complete. -/
def consumeNotification (config : WriterConfig) (payload : Bytes) (event : ReadEvent) :
    IngestM ε Bool := do
  let i ← get
  let decision := readTransition i.phase event
  refuseIf (decision.action = .reject) (.ring .transfer)
  consumeEvent config payload event
  modify ({ · with phase := decision.nextPhase })
  pure (decide (decision.action = .barrier))

def requireHealthy : IngestM ε PUnit := do
  let i ← get
  match failureOf i.writer.state with
  | some failure => throw (.writerIngest failure)
  | none => pure ⟨⟩

/-- An error of a turn; a failure of the writer comes before it. -/
def reraise (error : IngestError ε) : IngestM ε Bool := do
  requireHealthy
  throw error

def eventOf (payload : Bytes) : Except (IngestError ε) ReadEvent :=
  match payload.head?.bind eventForOpcode with
  | none => .error (.ring .transfer)
  | some event => .ok event

def finishTurn (done : Bool) : IngestM ε Bool := do
  if done then requireHealthy else pure ⟨⟩
  pure done

/-- One turn of `_ingest_notifications`. -/
def turn (config : WriterConfig) (payload : Bytes) : IngestM ε Bool := do
  requireHealthy
  let event ← requireOk (eventOf payload)
  requireHealthy
  tryCatch (consumeNotification config payload event >>= finishTurn) reraise

inductive Outcome (ε : Type) where
  | reading
  | returned
  | raised (error : IngestError ε)

/-- The loop with what came of it, and how many notifications it took. -/
structure Loop (ε : Type) where
  ingest : Ingest ε
  consumed : ℕ
  outcome : Outcome ε

inductive Event (ε : Type) where
  | notification (payload : Bytes)
  | worker (answer : Except ε AttemptWriter.Result)

def onNotification (config : WriterConfig) (l : Loop ε) (payload : Bytes) : Loop ε :=
  match l.outcome with
  | .reading =>
    match exec (turn config payload) l.ingest with
    | (.ok true, i) => ⟨i, l.consumed + 1, .returned⟩
    | (.ok false, i) => ⟨i, l.consumed + 1, .reading⟩
    | (.error error, i) => ⟨i, l.consumed + 1, .raised error⟩
  | _ => l

def step (config : WriterConfig) (l : Loop ε) : Event ε → Loop ε
  | .notification payload => onNotification config l payload
  | .worker answer =>
    { l with ingest := { l.ingest with
        writer := workerStep config l.ingest.arena.buffer l.ingest.writer answer } }

def run (config : WriterConfig) (i : Ingest ε) (events : List (Event ε)) : Loop ε :=
  events.foldl (step config) ⟨i, 0, .reading⟩

/-- The notifications of a run, in order. -/
def notifications (events : List (Event ε)) : List Bytes :=
  events.filterMap fun event =>
    match event with
    | .notification payload => some payload
    | .worker _ => none

/-- No failure of the writer in any state of the run. -/
def NoFailure (config : WriterConfig) (i : Ingest ε) (events : List (Event ε)) : Prop :=
  ∀ earlier, earlier <+: events → failureOf (run config i earlier).ingest.writer.state = none

/-- The published frontier is what the arena received: whole records and the tail after them. -/
def Synced (i : Ingest ε) : Prop :=
  i.writer.published = i.arena.completeRecords * recordSize ∧
    i.writer.publishedTail = i.arena.partialTail

/-- The writer has no command but READ_BEGIN to do, and may be published to. -/
structure WriterReady (w : Writer ε) : Prop where
  queue : QueueInv w
  state : w.state = .prepared ∨ w.state = .reading
  commands : ∀ pending ∈ outstanding w, ∃ notice, pending.command = .readBegin notice

/-- The published frontier lies in what the arena received. -/
structure Received (a : ArenaBuffer.Arena) (w : Writer ε) : Prop where
  frontier : Frontier a.buffer w.published w.publishedTail
  inside : w.published + w.publishedTail.length ≤ a.receivedBytes

/-- A begun leg: the arena selected it and its preparation settled. -/
structure Begun (i : Ingest ε) : Prop where
  phase : i.phase = .awaitBegin
  law : ArenaBuffer.Law i.arena
  leg : i.arena.legStart = i.start ∧ i.arena.legBytes = 0 ∧
    i.arena.legTotalBytes = i.count * recordSize
  range : i.arena.startSequence ≤ i.start ∧ i.start + i.count ≤ i.arena.endSequence
  writer : WriterReady i.writer
  settled : outstanding i.writer = []
  received : Received i.arena i.writer

/-- The leg with what is resident of it. -/
def Ingest.leg (i : Ingest ε) : Leg :=
  ⟨i.start, i.count, (i.arena.buffer.take i.arena.receivedBytes).drop i.arena.legOffset⟩

/-! ## The arena -/

section Arena

open ArenaBuffer (Law LegHeld Mismatch)

theorem wp_onArena (x : ArenaBuffer.ArenaM α) (i : Ingest ε) {Q : α → Ingest ε → Prop}
    {E : IngestError ε → Ingest ε → Prop} :
    wp (onArena x) i Q E ↔ wp x i.arena (fun a arena => Q a { i with arena := arena })
      (fun failure arena => E (.arena failure) { i with arena := arena }) := by
  simp only [onArena, wp_bind, wp_get]
  rcases hx : exec x i.arena with ⟨result, arena⟩
  cases result with
  | ok a =>
    simp only [wp, hx]
    rfl
  | error failure =>
    simp only [wp, hx]
    rfl

/-- A fragment is accepted exactly when it fits the leg and the snapshot and contradicts nothing. -/
theorem wp_append_exact (a : ArenaBuffer.Arena) (fragment : Bytes) :
    wp (ArenaBuffer.append fragment) a
      (fun _ next => a.legBytes + fragment.length ≤ a.legTotalBytes ∧
        a.position + fragment.length ≤ a.totalBytes ∧ ¬ Mismatch a fragment ∧
        next = a.appended fragment)
      (fun _ next => next = a ∧ (a.legTotalBytes < a.legBytes + fragment.length ∨
        a.totalBytes < a.position + fragment.length ∨ Mismatch a fragment)) := by
  simp only [ArenaBuffer.append, wp_bind, wp_get, wp_refuseIf, wp_ite, wp_modify]
  refine ⟨fun hover => ⟨trivial, .inl hover⟩, fun hleg => ⟨fun hover => ⟨trivial, .inr (.inl hover)⟩,
    fun hfits => ⟨fun hmismatch => ⟨trivial, .inr (.inr hmismatch)⟩, fun hagree => ⟨fun hnew => ?_,
      fun hold => ?_⟩⟩⟩⟩
  · exact ⟨by omega, by omega, hagree, by rw [ArenaBuffer.Arena.appended, if_pos hnew]⟩
  · exact ⟨by omega, by omega, hagree, by rw [ArenaBuffer.Arena.appended, if_neg hold]⟩

/-- What the notifications so far filled. -/
structure Fills (leg : Leg) (a : ArenaBuffer.Arena) (got : Bytes) : Prop where
  law : Law a
  total : a.legTotalBytes = leg.count * recordSize
  range : a.legOffset + leg.count * recordSize ≤ a.totalBytes
  held : LegHeld a got
  resident : ∀ j < leg.resident.length, a.buffer[a.legOffset + j]? = leg.resident[j]?
  received : a.receivedBytes = a.legOffset + max leg.resident.length got.length

variable {leg : Leg} {a : ArenaBuffer.Arena} {got fragment : Bytes}

theorem Fills.position (h : Fills leg a got) : a.position = a.legOffset + got.length := by
  rw [h.held.length]
  rfl

/-- A fragment contradicts nothing exactly when it goes on like the resident bytes. -/
theorem Fills.mismatch_iff (h : Fills leg a got) (hagrees : Agrees got leg.resident) :
    ¬ Mismatch a fragment ↔ Agrees (got ++ fragment) leg.resident := by
  have hposition := h.position
  have hreceived := h.received
  constructor
  · intro hmatch i hi hresident
    by_cases hprior : i < got.length
    · rw [List.getElem?_append_left hprior]
      exact hagrees i hprior hresident
    · rw [List.length_append] at hi
      have hsame := ArenaBuffer.replay_agrees hmatch (show i - got.length < fragment.length by omega)
        (show a.position + (i - got.length) < a.receivedBytes by omega)
      rw [show a.position + (i - got.length) = a.legOffset + i by omega, h.resident i hresident] at hsame
      rw [List.getElem?_append_right (by omega)]
      exact hsame.symm
  · rintro hall ⟨hlt, hne⟩
    apply hne
    apply List.ext_getElem?
    intro j
    rw [List.getElem?_drop]
    by_cases hj : j < min (a.position + fragment.length) a.receivedBytes - a.position
    · rw [List.getElem?_take_of_lt (by omega), List.getElem?_take_of_lt hj]
      have hsame := hall (got.length + j) (by rw [List.length_append]; omega) (by omega)
      rw [List.getElem?_append_right (by omega), Nat.add_sub_cancel_left] at hsame
      have hindex : a.position + j = a.legOffset + (got.length + j) := by omega
      rw [hindex, h.resident _ (by omega), ← hsame]
    · rw [List.getElem?_eq_none (by rw [List.length_take]; omega),
        List.getElem?_eq_none (by rw [List.length_take]; omega)]

theorem Fills.appended (h : Fills leg a got) (hmatch : ¬ Mismatch a fragment)
    (hfits : a.position + fragment.length ≤ a.totalBytes) :
    Fills leg (a.appended fragment) (got ++ fragment) := by
  obtain ⟨htotal, -, hoffset, -⟩ := ArenaBuffer.appended_frame a fragment
  have hposition := h.position
  have hreceived := h.received
  have hleg : (a.appended fragment).legTotalBytes = a.legTotalBytes := by
    unfold ArenaBuffer.Arena.appended
    split <;> rfl
  refine ⟨(ArenaBuffer.Effect.append hfits hmatch).law h.law, ?_, ?_, h.held.append h.law hmatch, ?_, ?_⟩
  · rw [hleg, h.total]
  · rw [hoffset, htotal]
    exact h.range
  · intro j hj
    rw [hoffset, ArenaBuffer.appended_getElem? h.law, if_neg (by omega)]
    exact h.resident j hj
  · rw [ArenaBuffer.appended_receivedBytes fragment h.law, hoffset, List.length_append]
    omega

theorem wp_submitAll (h : Law a) :
    wp (ArenaBuffer.submitPrefix none) a
      (fun _ next => next = { a with submittedBytes := a.completeRecords * recordSize })
      (fun _ _ => False) := by
  have hsubmitted := h.submitted
  simp only [ArenaBuffer.submitPrefix, wp_bind, wp_get, wp_refuseIf, wp_modify, wp_pure,
    Option.getD_none, Int.toNat_natCast]
  refine ⟨fun hrange => ?_, fun _ => ⟨fun hback => ?_, fun _ => ?_⟩⟩
  · omega
  · omega
  · trivial

theorem Fills.submitted (h : Fills leg a got) :
    Fills leg { a with submittedBytes := a.completeRecords * recordSize } got :=
  ⟨⟨h.law.allocated, le_rfl, h.law.received, h.law.position⟩, h.total, h.range,
    ⟨h.held.length, h.held.bytes⟩, h.resident, h.received⟩

end Arena

/-! ## The writer -/

section Writer

open AttemptWriter (slice)
open WriterQueue (worker_queueStep recordFailure_cases recordSuccess_cases publish_cases admit_cases)

variable {w : Writer ε} {a : ArenaBuffer.Arena}

/-- The thread changes the state only when it settles a command. -/
theorem worker_state (config : WriterConfig) (arena : Bytes) (w : Writer ε)
    (answer : Except ε AttemptWriter.Result) :
    (workerStep config arena w answer).state = w.state ∨
      (∃ pending ∈ outstanding w, (workerStep config arena w answer).state =
        (WriterMachine.transition w.state pending.command.successEvent).state) ∨
      failureOf (workerStep config arena w answer).state ≠ none := by
  unfold workerStep
  split <;> rename_i hworker
  · unfold AttemptWriter.nextCommand
    split <;> exact .inl rfl
  · unfold AttemptWriter.idleCheck
    split <;> exact .inl rfl
  · split <;> exact .inl rfl
  · exact .inl rfl
  · unfold AttemptWriter.startDrain
    split
    · exact .inl rfl
    · split <;> exact .inl rfl
  · exact .inl (WriterQueue.draining_state config arena w _ _ answer)
  · exact .inl rfl
  · exact .inl rfl
  · unfold AttemptWriter.commandCheck
    split
    · exact .inl rfl
    · exact .inl rfl
    · split <;> exact .inl rfl
  · unfold AttemptWriter.closeCheck
    split <;> exact .inl rfl
  · exact .inl (WriterQueue.called_state w _ answer _ _)
  · rename_i pending result
    refine .inr (.inl ⟨pending, ?_, (recordSuccess_cases w pending result).1⟩)
    simp [outstanding, hworker, WriterQueue.popped]
  · exact .inl rfl
  · exact .inl rfl
  · rename_i owner error
    obtain ⟨latched, hlatched, -⟩ := recordFailure_cases w owner error
    exact .inr (.inr (by simp [hlatched]))
  · unfold AttemptWriter.flush
    split
    · exact .inl rfl
    · split <;> exact .inl rfl
  · exact .inl rfl

theorem WriterReady.healthy (h : WriterReady w) : failureOf w.state = none := by
  rcases h.state with hstate | hstate <;> rw [hstate] <;> rfl

theorem WriterReady.worker (h : WriterReady w) (config : WriterConfig) (arena : Bytes)
    (answer : Except ε AttemptWriter.Result)
    (hhealthy : failureOf (workerStep config arena w answer).state = none) :
    WriterReady (workerStep config arena w answer) := by
  have hqueue := worker_queueStep config arena answer h.queue
  refine ⟨hqueue.queueInv h.queue, ?_, fun pending hmem => h.commands pending (hqueue.mem hmem)⟩
  rcases worker_state config arena w answer with hsame | ⟨pending, hmem, hstate⟩ | hfailed
  · rw [hsame]
    exact h.state
  · obtain ⟨notice, hcommand⟩ := h.commands pending hmem
    rw [hstate, hcommand]
    rcases h.state with hbefore | hbefore <;> rw [hbefore] <;> exact .inr rfl
  · exact absurd hhealthy hfailed

/-- READ_BEGIN is admitted to an empty queue. -/
theorem WriterReady.admitted (h : WriterReady w) {config : WriterConfig}
    (hroom : 0 < config.maxControlCommands) (hsettled : outstanding w = [])
    (notice : ReadBeginNotification) :
    ∃ w' future, admitRequest config w (.readBegin notice) = .ok (w', future) ∧ WriterReady w' ∧
      w'.published = w.published ∧ w'.publishedTail = w.publishedTail := by
  have hempty : w.commands = [] := by
    have hparts := hsettled
    simp only [outstanding, List.append_eq_nil_iff] at hparts
    exact hparts.2.2
  have hadmitted : ∃ w', admitRequest config w (.readBegin notice) = .ok (w', some w.nextFuture) ∧
      w'.state = w.state ∧ w'.worker = w.worker ∧
      w'.commands = [⟨.readBegin notice, w.nextFuture⟩] ∧ w'.published = w.published ∧
      w'.publishedTail = w.publishedTail := by
    rcases h.state with hstate | hstate <;>
      simp [admitRequest, AttemptWriter.Request.event, WriterMachine.transition,
        WriterMachine.handlePrepared, WriterMachine.handleReading, hstate, hempty, hroom.ne',
        AttemptWriter.Request.isClose, AttemptWriter.Request.command]
  obtain ⟨w', hok, hstate, hworker, hcommands, hpublished, htail⟩ := hadmitted
  refine ⟨w', _, hok, ⟨WriterQueue.admit_queueInv h.queue hok, hstate ▸ h.state, ?_⟩, hpublished, htail⟩
  intro pending hmem
  have hparts := hsettled
  simp only [outstanding, List.append_eq_nil_iff] at hparts
  rw [outstanding, hworker, hparts.1, hparts.2.1, hcommands] at hmem
  obtain rfl : pending = ⟨.readBegin notice, w.nextFuture⟩ := by simpa using hmem
  exact ⟨notice, rfl⟩

theorem partialTail_length (h : ArenaBuffer.Law a) :
    a.completeRecords * recordSize + a.partialTail.length = a.receivedBytes := by
  have hreceived := h.received
  have hcomplete := ArenaBuffer.completeRecords_le a
  simp only [ArenaBuffer.Arena.partialTail, List.length_drop, List.length_take, h.allocated]
  omega

theorem partialTail_short (h : ArenaBuffer.Law a) : a.partialTail.length < recordSize := by
  have hlength := partialTail_length h
  have hdiv := Nat.div_add_mod a.receivedBytes recordSize
  have hmod := Nat.mod_lt a.receivedBytes (show 0 < recordSize by decide)
  rw [ArenaBuffer.Arena.completeRecords, mul_comm] at hlength
  omega

/-- Received bytes after an offset, cut to a length. -/
theorem slice_received {buffer : Bytes} {offset length received : ℕ}
    (h : offset + length ≤ received) :
    slice buffer offset length = ((buffer.take received).drop offset).take length := by
  rw [slice, List.drop_take, List.take_take, min_eq_left (by omega)]

theorem slice_partialTail (h : ArenaBuffer.Law a) :
    slice a.buffer (a.completeRecords * recordSize) a.partialTail.length = a.partialTail := by
  have hslice := @slice_received a.buffer (a.completeRecords * recordSize) a.partialTail.length
    a.receivedBytes (partialTail_length h).le
  rw [hslice]
  exact List.take_length

/-- The published frontier is at most the arena's own. -/
theorem Received.le (h : Received a w) : w.published ≤ a.completeRecords * recordSize := by
  obtain ⟨k, hk⟩ := h.frontier.aligned
  have hinside : recordSize * k ≤ a.receivedBytes := by
    have := h.inside
    rw [hk] at this
    exact (Nat.le_add_right _ _).trans this
  rw [hk, ArenaBuffer.Arena.completeRecords, mul_comm]
  refine Nat.mul_le_mul_right _ ((Nat.le_div_iff_mul_le (by decide)).mpr ?_)
  rwa [mul_comm]

/-- A tail published at the arena's high-water is a part of the arena's tail. -/
theorem Received.tail (h : Received a w) (hmark : w.published = a.completeRecords * recordSize) :
    w.publishedTail = a.partialTail.take w.publishedTail.length := by
  have hbytes := h.frontier.bytes
  rw [slice_received h.inside, hmark] at hbytes
  exact hbytes.symm

theorem Received.grow {a' : ArenaBuffer.Arena} (h : Received a w)
    (hle : a.receivedBytes ≤ a'.receivedBytes) (hallocated : a.buffer.length ≤ a'.buffer.length)
    (hsame : ∀ j < a.receivedBytes, a'.buffer[j]? = a.buffer[j]?) : Received a' w := by
  have htake : a'.buffer.take a.receivedBytes = a.buffer.take a.receivedBytes := by
    apply List.ext_getElem?
    intro j
    by_cases hj : j < a.receivedBytes
    · rw [List.getElem?_take_of_lt hj, List.getElem?_take_of_lt hj, hsame j hj]
    · rw [List.getElem?_eq_none (by rw [List.length_take]; omega),
        List.getElem?_eq_none (by rw [List.length_take]; omega)]
  refine ⟨⟨h.frontier.inside.trans hallocated, h.frontier.aligned, h.frontier.short, ?_⟩,
    h.inside.trans hle⟩
  rw [slice_received h.inside, htake, ← slice_received h.inside]
  exact h.frontier.bytes

/-- Publishing the arena's own frontier succeeds and leaves the writer at it. -/
theorem publish_arena (hlaw : ArenaBuffer.Law a) (hready : WriterReady w) (hreceived : Received a w) :
    ∃ w' moved, publish a.buffer w (a.completeRecords * recordSize) a.partialTail = .ok (w', moved) ∧
      WriterReady w' ∧ outstanding w' = outstanding w ∧ Received a w' ∧
      w'.published = a.completeRecords * recordSize ∧ w'.publishedTail = a.partialTail := by
  have hlength := partialTail_length hlaw
  have hallocated := hlaw.allocated
  have hbytes := hlaw.received
  have hdirective : (WriterMachine.transition w.state .publishRequested).directive = .admitRequest := by
    rcases hready.state with hstate | hstate <;> rw [hstate] <;> rfl
  have hinside : ¬ a.buffer.length < a.completeRecords * recordSize := by omega
  have haligned : ¬ a.completeRecords * recordSize % AttemptWriter.recordSize ≠ 0 := by
    simp [AttemptWriter.recordSize, recordSize]
  have hshort : ¬ AttemptWriter.recordSize ≤ a.partialTail.length :=
    Nat.not_le.mpr (partialTail_short hlaw)
  have hfits : ¬ a.buffer.length < a.completeRecords * recordSize + a.partialTail.length := by omega
  have hslice : ¬ slice a.buffer (a.completeRecords * recordSize) a.partialTail.length ≠
      a.partialTail := not_not.mpr (slice_partialTail hlaw)
  have hforward : ¬ a.completeRecords * recordSize < w.published := Nat.not_lt.mpr hreceived.le
  have hconflict : ¬ (a.completeRecords * recordSize = w.published ∧
      w.publishedTail.take a.partialTail.length ≠ a.partialTail.take w.publishedTail.length) := by
    rintro ⟨hmark, hne⟩
    apply hne
    have htail := hreceived.tail hmark.symm
    have hle : w.publishedTail.length ≤ a.partialTail.length := by
      have hinside := hreceived.inside
      omega
    rw [List.take_of_length_le hle]
    exact htail
  have hset : Received a { w with
      published := a.completeRecords * recordSize
      publishedTail := a.partialTail
      wake := true } :=
    ⟨⟨Nat.not_lt.mp hinside, Nat.dvd_mul_left _ _, partialTail_short hlaw, slice_partialTail hlaw⟩,
      hlength.le⟩
  by_cases hold : a.completeRecords * recordSize = w.published ∧
      a.partialTail.length ≤ w.publishedTail.length
  · refine ⟨w, false, ?_, hready, rfl, hreceived, hold.1.symm, ?_⟩
    · simp only [publish]
      rw [if_neg hinside, if_neg haligned, if_neg hshort, if_neg hfits, if_neg hslice, hdirective]
      simp only
      rw [if_neg hforward, if_neg hconflict, if_pos hold]
    · rw [hreceived.tail hold.1.symm, List.take_of_length_le hold.2]
  · refine ⟨{ w with
        published := a.completeRecords * recordSize
        publishedTail := a.partialTail
        wake := true }, true, ?_, ⟨?_, hready.state, hready.commands⟩, rfl, hset, rfl, rfl⟩
    · simp only [publish]
      rw [if_neg hinside, if_neg haligned, if_neg hshort, if_neg hfits, if_neg hslice, hdirective]
      simp only
      rw [if_neg hforward, if_neg hconflict, if_neg hold]
    · exact ⟨hready.queue.futures, hready.queue.closeLast, hready.queue.closing, hready.queue.exited⟩

end Writer

/-! ## One turn -/

section Turn

variable {i : Ingest ε} {leg : Leg} {got payload : Bytes}

theorem wp_parsed (x : Except String α) (i : Ingest ε) {Q : α → Ingest ε → Prop}
    {E : IngestError ε → Ingest ε → Prop} (hok : ∀ a, x = .ok a → Q a i)
    (herror : ∀ e, (∀ a, x ≠ .ok a) → E e i) : wp (parsed x) i Q E := by
  rw [parsed, wp_requireOk]
  cases x with
  | ok a =>
    refine ⟨by simp [Except.mapError], fun b hb => hok b ?_⟩
    simpa [Except.mapError] using hb
  | error message =>
    exact ⟨fun e _ => herror e (by simp), by simp [Except.mapError]⟩

theorem wp_consumeAck (payload : Bytes) (i : Ingest ε) :
    wp (consumeAck payload) i (fun _ i' => IsAck payload ∧ i' = i)
      (fun _ i' => ¬ IsAck payload ∧ i' = i) := by
  simp only [consumeAck, wp_bind]
  apply wp_parsed
  · intro status hstatus
    rw [wp_refuseIf]
    constructor
    · refine fun hne => ⟨fun hack => hne ?_, rfl⟩
      rw [parseAck_zero.mpr hack] at hstatus
      exact (Except.ok.inj hstatus).symm
    · intro hzero
      obtain rfl := not_not.mp hzero
      exact ⟨parseAck_zero.mp hstatus, rfl⟩
  · exact fun e hnone => ⟨fun hack => hnone 0 (parseAck_zero.mpr hack), rfl⟩

theorem wp_submitReadBegin (hwriter : WriterReady i.writer) (hsettled : outstanding i.writer = [])
    {config : WriterConfig} (hroom : 0 < config.maxControlCommands) (notice : ReadBeginNotification) :
    wp (submitReadBegin config notice) i (fun _ i' => ∃ w', i' = { i with writer := w' } ∧
      WriterReady w' ∧ w'.published = i.writer.published ∧ w'.publishedTail = i.writer.publishedTail)
      (fun _ _ => False) := by
  obtain ⟨w', future, hok, hready, hpublished, htail⟩ := hwriter.admitted hroom hsettled notice
  simp only [submitReadBegin, wp_bind, wp_get, hok, wp_set]
  exact ⟨w', rfl, hready, hpublished, htail⟩

theorem wp_consumeReadBegin (hwriter : WriterReady i.writer) (hsettled : outstanding i.writer = [])
    {config : WriterConfig} (hroom : 0 < config.maxControlCommands) (payload : Bytes) :
    wp (consumeReadBegin config payload) i (fun _ i' => IsReadBegin i.start i.count payload ∧
      ∃ w', i' = { i with writer := w' } ∧ WriterReady w' ∧
        w'.published = i.writer.published ∧ w'.publishedTail = i.writer.publishedTail)
      (fun _ i' => ¬ IsReadBegin i.start i.count payload ∧ i' = i) := by
  simp only [consumeReadBegin, wp_bind]
  apply wp_parsed
  · intro notice hnotice
    simp only [wp_get, wp_refuseIf]
    constructor
    · refine fun hne => ⟨fun hbegun => hne ?_, trivial⟩
      rw [parseReadBegin_ok.mpr hbegun] at hnotice
      obtain rfl := Except.ok.inj hnotice
      rfl
    · intro hsame
      have hfields := Prod.mk.inj (not_not.mp hsame)
      refine wp_mono (wp_submitReadBegin hwriter hsettled hroom notice) (fun _ i' hi' => ⟨?_, hi'⟩)
        (fun _ _ h => h.elim)
      rw [← hfields.1, ← hfields.2]
      exact parseReadBegin_ok.mp hnotice
  · exact fun e hnone => ⟨fun hbegun => hnone _ (parseReadBegin_ok.mpr hbegun), rfl⟩

theorem wp_publishFrontier (hlaw : ArenaBuffer.Law i.arena) (hwriter : WriterReady i.writer)
    (hreceived : Received i.arena i.writer) :
    wp (publishFrontier (i.arena.completeRecords * recordSize) i.arena.partialTail) i
      (fun _ i' => ∃ w', i' = { i with
          arena := { i.arena with submittedBytes := i.arena.completeRecords * recordSize }
          writer := w' } ∧
        WriterReady w' ∧ outstanding w' = outstanding i.writer ∧ Received i.arena w' ∧
        w'.published = i.arena.completeRecords * recordSize ∧ w'.publishedTail = i.arena.partialTail)
      (fun _ _ => False) := by
  obtain ⟨w', moved, hok, hready, hsame, hwithin, hpublished, htail⟩ :=
    publish_arena hlaw hwriter hreceived
  simp only [publishFrontier, wp_bind, wp_onArena]
  refine wp_mono (wp_submitAll hlaw) ?_ (fun _ _ h => h.elim)
  rintro _ _ rfl
  simp only [wp_get, hok, wp_set]
  exact ⟨w', rfl, hready, hsame, hwithin, hpublished, htail⟩

/-- DATA is consumed exactly when its bytes fit the leg and agree with the resident ones; then the
published frontier is the arena's. -/
theorem wp_consumeData (hfills : Fills leg i.arena got) (hagrees : Agrees got leg.resident)
    (hwriter : WriterReady i.writer) (hreceived : Received i.arena i.writer) (payload : Bytes) :
    wp (consumeData payload) i
      (fun _ i' => (IsData payload ∧ (got ++ bodyOf payload).length ≤ leg.count * recordSize ∧
          Agrees (got ++ bodyOf payload) leg.resident) ∧
        ∃ a' w', i' = { i with arena := a', writer := w' } ∧ a'.legOffset = i.arena.legOffset ∧
          Fills leg a' (got ++ bodyOf payload) ∧ WriterReady w' ∧
          outstanding w' = outstanding i.writer ∧ Received a' w' ∧ Synced i')
      (fun _ i' => ¬ (IsData payload ∧ (got ++ bodyOf payload).length ≤ leg.count * recordSize ∧
          Agrees (got ++ bodyOf payload) leg.resident) ∧ i' = i) := by
  have hlength := hfills.held.length
  have htotal := hfills.total
  have hposition := hfills.position
  have hrange := hfills.range
  simp only [consumeData, wp_bind]
  apply wp_parsed
  · intro body hbody
    have hpayload := parseData_ok.mp hbody
    have hof : bodyOf payload = body := by rw [hpayload, bodyOf_data]
    rw [hof, wp_onArena]
    refine wp_mono (wp_append_exact i.arena body) ?_ ?_
    · rintro _ _ ⟨hleg, hfits, hmatch, rfl⟩
      obtain ⟨-, -, hoffset, -⟩ := ArenaBuffer.appended_frame i.arena body
      have hnext := hfills.appended hmatch hfits
      have hlaw := hnext.law
      have hwithin : Received (i.arena.appended body) i.writer := by
        apply hreceived.grow
        · rw [ArenaBuffer.appended_receivedBytes body hfills.law]
          exact le_max_left _ _
        · rw [ArenaBuffer.appended_length hfills.law hfits, hfills.law.allocated]
        · intro j hj
          rw [ArenaBuffer.appended_getElem? hfills.law, if_neg (by omega)]
      have haccepted : IsData payload ∧ (got ++ body).length ≤ leg.count * recordSize ∧
          Agrees (got ++ body) leg.resident := by
        refine ⟨⟨body, hpayload⟩, ?_, (hfills.mismatch_iff hagrees).mp hmatch⟩
        rw [List.length_append]
        omega
      simp only [wp_get, wp_ite, wp_pure]
      refine ⟨fun _ => ?_, fun hskip => ⟨haccepted, ?_⟩⟩
      · refine wp_mono (wp_publishFrontier (i := { i with arena := i.arena.appended body }) hlaw
          hwriter hwithin) ?_ (fun _ _ h => h.elim)
        rintro _ _ ⟨w', rfl, hready, hsame, hpublishedWithin, hpublished, htail⟩
        refine ⟨haccepted, _, w', rfl, hoffset, hnext.submitted, hready, hsame,
          ⟨hpublishedWithin.frontier, hpublishedWithin.inside⟩, hpublished, htail⟩
      · obtain ⟨hmark, hempty⟩ := not_or.mp hskip
        rw [not_not] at hempty
        have hsame := le_antisymm hwithin.le (Nat.not_lt.mp hmark)
        refine ⟨_, i.writer, rfl, hoffset, hnext, hwriter, rfl, hwithin, hsame, ?_⟩
        rw [hwithin.tail hsame]
        simp [hempty]
    · rintro _ _ ⟨rfl, hrefused⟩
      refine ⟨?_, rfl⟩
      rintro ⟨-, hfits, hall⟩
      rw [List.length_append] at hfits
      rcases hrefused with hover | hover | hmismatch
      · omega
      · omega
      · exact (hfills.mismatch_iff hagrees).mpr hall hmismatch
  · intro e hnone
    refine ⟨?_, rfl⟩
    rintro ⟨⟨body, hbody⟩, -⟩
    exact hnone body (parseData_ok.mpr hbody)

theorem wp_consumeDone (config : WriterConfig) (payload : Bytes) (i : Ingest ε) :
    wp (consumeEvent config payload .done) i
      (fun _ i' => (i.arena.legBytes = i.count * recordSize ∧ IsDone (i.start + i.count) payload) ∧
        i' = i)
      (fun _ i' => ¬ (i.arena.legBytes = i.count * recordSize ∧
        IsDone (i.start + i.count) payload) ∧ i' = i) := by
  simp only [consumeEvent, wp_bind]
  apply wp_parsed
  · intro done hdone
    have hexact : IsDone (i.start + i.count) payload → done = ⟨0, i.start + i.count⟩ := by
      intro h
      rw [parseDone_ok.mpr h] at hdone
      exact (Except.ok.inj hdone).symm
    simp only [validateDone, wp_bind, wp_get, wp_refuseIf]
    refine ⟨fun hstatus => ⟨?_, trivial⟩, fun hstatus => ⟨fun hnext => ⟨?_, trivial⟩, fun hnext =>
      ⟨fun hbytes => ⟨?_, trivial⟩, fun hbytes => ⟨⟨?_, ?_⟩, trivial⟩⟩⟩⟩
    · rintro ⟨-, h⟩
      exact hstatus (by rw [hexact h])
    · rintro ⟨-, h⟩
      exact hnext (by rw [hexact h])
    · rintro ⟨hfull, -⟩
      rcases hbytes with hne | hne
      · exact hne hfull
      · exact hne (by rw [hfull, Nat.mul_div_cancel _ (by decide)])
    · exact not_not.mp (not_or.mp hbytes).1
    · refine parseDone_ok.mp (hdone.trans ?_)
      rw [← not_not.mp hstatus, ← not_not.mp hnext]
  · intro e hnone
    refine ⟨?_, rfl⟩
    rintro ⟨-, hdone⟩
    exact hnone _ (parseDone_ok.mpr hdone)

/-- What the loop holds of its leg. -/
structure Holds (leg : Leg) (got : Bytes) (i : Ingest ε) : Prop where
  fills : Fills leg i.arena got
  writer : WriterReady i.writer
  received : Received i.arena i.writer

/-- The loop took these notifications and reads on. -/
structure Reads (leg : Leg) (payloads : List Bytes) (i : Ingest ε) : Prop where
  request : i.start = leg.start ∧ i.count = leg.count
  phase : i.phase = .awaitBegin ∧ Opening payloads ∧ outstanding i.writer = [] ∨
    i.phase = .receiving ∧ Receiving leg payloads
  holds : Holds leg (bodies payloads) i

/-- After a notification that did not offend: the stream is over, or it is read on. -/
def Took (leg : Leg) (payloads : List Bytes) (i : Ingest ε) (done : Bool) : Prop :=
  if done = true then Complete leg payloads ∧ Holds leg (bodies payloads) i
  else Reads leg payloads i

/-- The leg's place is the same, and a published frontier that is the arena's own is so again. -/
structure Kept (i i' : Ingest ε) : Prop where
  offset : i'.arena.legOffset = i.arena.legOffset
  synced : Synced i → Synced i'

variable {payloads : List Bytes}

theorem Kept.writer {w' : Writer ε} (hpublished : w'.published = i.writer.published)
    (htail : w'.publishedTail = i.writer.publishedTail) (phase : ReadPhase) :
    Kept i { i with writer := w', phase := phase } :=
  ⟨rfl, fun h => ⟨hpublished.trans h.1, htail.trans h.2⟩⟩

theorem Received.writer {a : ArenaBuffer.Arena} {w w' : Writer ε} (h : Received a w)
    (hpublished : w'.published = w.published) (htail : w'.publishedTail = w.publishedTail) :
    Received a w' := by
  refine ⟨?_, ?_⟩
  · rw [hpublished, htail]
    exact h.frontier
  · rw [hpublished, htail]
    exact h.inside

theorem event_of_ack (h : IsAck payload) :
    (eventOf payload : Except (IngestError ε) ReadEvent) = .ok .ack := by
  obtain rfl := h
  rfl

theorem event_of_readBegin {start count : ℕ} (h : IsReadBegin start count payload) :
    (eventOf payload : Except (IngestError ε) ReadEvent) = .ok .begun := by
  obtain ⟨s, c, rfl, -⟩ := h
  rfl

theorem event_of_data (h : IsData payload) :
    (eventOf payload : Except (IngestError ε) ReadEvent) = .ok .data := by
  obtain ⟨body, rfl⟩ := h
  rfl

theorem event_of_done {next : ℕ} (h : IsDone next payload) :
    (eventOf payload : Except (IngestError ε) ReadEvent) = .ok .done := by
  obtain ⟨s, rfl, -⟩ := h
  rfl

/-- Before READ_BEGIN. -/
theorem wp_opening (hreads : Reads leg payloads i) (hphase : i.phase = .awaitBegin)
    (hopening : Opening payloads) (hsettled : outstanding i.writer = []) {config : WriterConfig}
    (hroom : 0 < config.maxControlCommands) {event : ReadEvent}
    (hevent : (eventOf payload : Except (IngestError ε) ReadEvent) = .ok event) :
    wp (consumeNotification config payload event) i
      (fun done i' => Kept i i' ∧ Took leg (payloads ++ [payload]) i' done)
      (fun _ i' => i' = i ∧ Offends leg (payloads ++ [payload])) := by
  obtain ⟨hrequest, -, hfills, hwriter, hreceived⟩ := hreads
  obtain ⟨hconforms, hcomplete⟩ := @opening_next leg payloads payload hopening
  have hnone : bodies payloads = [] := bodies_opening hopening
  -- READ_BEGIN and acknowledgements are told by their opcodes; anything else offends
  have hoffends : event ≠ .ack → event ≠ .begun → Offends leg (payloads ++ [payload]) := by
    refine fun hack hbegun => ⟨fun h => ?_, hcomplete⟩
    rcases hconforms.mp h with h | h
    · exact hack (Except.ok.inj (hevent.symm.trans (event_of_ack h)))
    · exact hbegun (Except.ok.inj (hevent.symm.trans (event_of_readBegin h)))
  simp only [consumeNotification, wp_bind, wp_get, wp_refuseIf, wp_modify, wp_pure, hphase]
  cases event with
  | ack =>
    refine ⟨fun hreject => (by cases hreject), fun _ => ?_⟩
    refine wp_mono (wp_consumeAck payload i) ?_ ?_
    · rintro _ _ ⟨hack, rfl⟩
      have hsame : bodies (payloads ++ [payload]) = [] := by
        rw [bodies_snoc, hnone, bodyOf_ack hack]
        rfl
      refine ⟨Kept.writer rfl rfl _, ?_⟩
      refine ⟨hrequest, .inl ⟨rfl, opening_snoc.mpr ⟨hopening, hack⟩, hsettled⟩, ?_, hwriter, hreceived⟩
      rw [hsame, ← hnone]
      exact hfills
    · rintro _ _ ⟨hack, rfl⟩
      refine ⟨rfl, fun h => ?_, hcomplete⟩
      rcases hconforms.mp h with h | h
      · exact hack h
      · cases hevent.symm.trans (event_of_readBegin h)
  | begun =>
    refine ⟨fun hreject => (by cases hreject), fun _ => ?_⟩
    refine wp_mono (wp_consumeReadBegin hwriter hsettled hroom payload) ?_ ?_
    · rintro _ _ ⟨hbegun, w', rfl, hready, hpublished, htail⟩
      rw [hrequest.1, hrequest.2] at hbegun
      have hsame : bodies (payloads ++ [payload]) = [] := by
        rw [bodies_snoc, hnone, bodyOf_readBegin hbegun]
        rfl
      refine ⟨Kept.writer hpublished htail _, ?_⟩
      refine ⟨hrequest, .inr ⟨rfl, receiving_snoc.mpr (.inl ⟨hopening, hbegun⟩)⟩, ?_, hready,
        hreceived.writer hpublished htail⟩
      rw [hsame, ← hnone]
      exact hfills
    · rintro _ _ ⟨hbegun, rfl⟩
      refine ⟨rfl, fun h => ?_, hcomplete⟩
      rcases hconforms.mp h with h | h
      · cases hevent.symm.trans (event_of_ack h)
      · rw [hrequest.1, hrequest.2] at hbegun
        exact hbegun h
  | _ =>
    refine ⟨fun _ => ⟨trivial, hoffends (by simp) (by simp)⟩, fun hconsume => ?_⟩
    first
      | exact absurd rfl hconsume
      | exact ⟨rfl, hoffends (by simp) (by simp)⟩

/-- After READ_BEGIN. -/
theorem wp_receiving (hreads : Reads leg payloads i) (hphase : i.phase = .receiving)
    (hreceiving : Receiving leg payloads) {config : WriterConfig} {event : ReadEvent}
    (hevent : (eventOf payload : Except (IngestError ε) ReadEvent) = .ok event) :
    wp (consumeNotification config payload event) i
      (fun done i' => Kept i i' ∧ Took leg (payloads ++ [payload]) i' done)
      (fun _ i' => i' = i ∧ Offends leg (payloads ++ [payload])) := by
  obtain ⟨hrequest, -, hfills, hwriter, hreceived⟩ := hreads
  have hconforms := @receiving_next leg payloads payload hreceiving
  have hlength := hfills.held.length
  -- the opcode tells which of the three goes on
  have hoffends : (event = .ack → ¬ IsAck payload) →
      (event = .data → ¬ (IsData payload ∧
        (bodies payloads ++ bodyOf payload).length ≤ leg.count * recordSize ∧
        Agrees (bodies payloads ++ bodyOf payload) leg.resident)) →
      (event = .done → ¬ (i.arena.legBytes = i.count * recordSize ∧
        IsDone (i.start + i.count) payload)) → Offends leg (payloads ++ [payload]) := by
    intro hack hdata hdone
    refine ⟨fun h => ?_, fun h => ?_⟩
    · rcases hconforms.mp h with h | h
      · exact hack (Except.ok.inj (hevent.symm.trans (event_of_ack h))) h
      · exact hdata (Except.ok.inj (hevent.symm.trans (event_of_data h.1))) h
    · obtain ⟨-, hfull, hend⟩ := complete_snoc.mp h
      refine hdone (Except.ok.inj (hevent.symm.trans (event_of_done hend))) ⟨?_, ?_⟩
      · rw [← hlength, hfull, hrequest.2]
      · rw [hrequest.1, hrequest.2]
        exact hend
  simp only [consumeNotification, wp_bind, wp_get, wp_refuseIf, wp_modify, wp_pure, hphase]
  cases event with
  | ack =>
    refine ⟨fun hreject => (by cases hreject), fun _ => ?_⟩
    refine wp_mono (wp_consumeAck payload i) ?_ ?_
    · rintro _ _ ⟨hack, rfl⟩
      have hsame : bodies (payloads ++ [payload]) = bodies payloads := by
        rw [bodies_snoc, bodyOf_ack hack, List.append_nil]
      refine ⟨Kept.writer rfl rfl _, ?_⟩
      refine ⟨hrequest, .inr ⟨rfl, receiving_snoc.mpr (.inr ⟨hreceiving, .inl hack⟩)⟩, ?_, hwriter,
        hreceived⟩
      rw [hsame]
      exact hfills
    · rintro _ _ ⟨hack, rfl⟩
      exact ⟨rfl, hoffends (fun _ => hack) (fun h => (by cases h)) (fun h => (by cases h))⟩
  | data =>
    refine ⟨fun hreject => (by cases hreject), fun _ => ?_⟩
    refine wp_mono (wp_consumeData hfills hreceiving.agrees hwriter hreceived payload) ?_ ?_
    · rintro _ _ ⟨hdata, a', w', rfl, hoffset, hnext, hready, -, hwithin, hsynced⟩
      refine ⟨⟨hoffset, fun _ => hsynced⟩, ?_⟩
      refine ⟨hrequest, .inr ⟨rfl, receiving_snoc.mpr (.inr ⟨hreceiving, .inr hdata⟩)⟩, ?_, hready,
        hwithin⟩
      rw [bodies_snoc]
      exact hnext
    · rintro _ _ ⟨hdata, rfl⟩
      exact ⟨rfl, hoffends (fun h => (by cases h)) (fun _ => hdata) (fun h => (by cases h))⟩
  | done =>
    refine ⟨fun hreject => (by cases hreject), fun _ => ?_⟩
    refine wp_mono (wp_consumeDone config payload i) ?_ ?_
    · rintro _ _ ⟨⟨hfull, hdone⟩, rfl⟩
      rw [hrequest.1, hrequest.2] at hdone
      have hsame : bodies (payloads ++ [payload]) = bodies payloads := by
        rw [bodies_snoc, bodyOf_done hdone, List.append_nil]
      refine ⟨Kept.writer rfl rfl _, ?_⟩
      refine ⟨complete_snoc.mpr ⟨hreceiving, ?_, hdone⟩, ?_, hwriter, hreceived⟩
      · rw [hlength, hfull, hrequest.2]
      · rw [hsame]
        exact hfills
    · rintro _ _ ⟨hdone, rfl⟩
      exact ⟨rfl, hoffends (fun h => (by cases h)) (fun h => (by cases h)) (fun _ => hdone)⟩
  | _ =>
    refine ⟨fun _ => ⟨trivial, hoffends (by simp) (by simp) (by simp)⟩, fun hconsume => ?_⟩
    first
      | exact absurd rfl hconsume
      | exact ⟨rfl, hoffends (by simp) (by simp) (by simp)⟩

theorem wp_requireHealthy (h : failureOf i.writer.state = none) {Q : PUnit → Ingest ε → Prop}
    {E : IngestError ε → Ingest ε → Prop} : wp requireHealthy i Q E ↔ Q ⟨⟩ i := by
  simp only [requireHealthy, wp_bind, wp_get, h, wp_pure]

/-- A turn takes its notification, or raises with the state as it was when the stream offends. -/
theorem wp_turn (hreads : Reads leg payloads i) {config : WriterConfig}
    (hroom : 0 < config.maxControlCommands) (payload : Bytes) :
    wp (turn config payload) i
      (fun done i' => Kept i i' ∧ Took leg (payloads ++ [payload]) i' done)
      (fun _ i' => i' = i ∧ Offends leg (payloads ++ [payload])) := by
  have hhealthy := hreads.holds.writer.healthy
  simp only [turn, wp_bind, wp_requireHealthy hhealthy, wp_requireOk, wp_tryCatch]
  refine ⟨fun e hnone => ⟨trivial, fun h => ?_, fun h => ?_⟩, fun event hevent => ?_⟩
  · rcases h.last with h | h | h
    · cases hnone.symm.trans (event_of_ack h)
    · cases hnone.symm.trans (event_of_readBegin h)
    · cases hnone.symm.trans (event_of_data h)
  · cases hnone.symm.trans (event_of_done (complete_snoc.mp h).2.2)
  · have hconsumed : wp (consumeNotification config payload event) i
        (fun done i' => Kept i i' ∧ Took leg (payloads ++ [payload]) i' done)
        (fun _ i' => i' = i ∧ Offends leg (payloads ++ [payload])) := by
      rcases hreads.phase with ⟨hphase, hopening, hsettled⟩ | ⟨hphase, hreceiving⟩
      · exact wp_opening hreads hphase hopening hsettled hroom hevent
      · exact wp_receiving hreads hphase hreceiving hevent
    refine wp_mono hconsumed ?_ ?_
    · rintro done i' ⟨hkept, htook⟩
      cases done with
      | true =>
        simp only [finishTurn, wp_bind, if_true, wp_requireHealthy htook.2.writer.healthy, wp_pure]
        exact ⟨hkept, htook⟩
      | false => exact ⟨hkept, htook⟩
    · rintro error i' ⟨hsame, hoffends⟩
      rw [hsame, reraise, wp_bind, wp_requireHealthy hhealthy, wp_throw]
      exact ⟨rfl, hoffends⟩

end Turn

/-! ## The run -/

section Run

variable {i : Ingest ε} {leg : Leg} {payloads : List Bytes}

/-- What came of the notifications so far. -/
inductive Came (leg : Leg) (payloads : List Bytes) (l : Loop ε) : Prop where
  | reading (outcome : l.outcome = .reading) (all : l.consumed = payloads.length)
      (reads : Reads leg payloads l.ingest)
  | returned (outcome : l.outcome = .returned) (earlier rest : List Bytes)
      (split : payloads = earlier ++ rest) (all : l.consumed = earlier.length)
      (complete : Complete leg earlier) (holds : Holds leg (bodies earlier) l.ingest)
  | raised {error : IngestError ε} (outcome : l.outcome = .raised error)
      (earlier rest : List Bytes) (last : Bytes) (split : payloads = earlier ++ last :: rest)
      (all : l.consumed = earlier.length + 1) (conforms : Conforms leg earlier)
      (offends : Offends leg (earlier ++ [last])) (holds : Holds leg (bodies earlier) l.ingest)

theorem Reads.conforms (h : Reads leg payloads i) : Conforms leg payloads :=
  h.phase.elim (fun hphase => .inl hphase.2.1) fun hphase => .inr hphase.2

theorem Came.holds {l : Loop ε} (h : Came leg payloads l) :
    ∃ earlier, earlier <+: payloads ∧ Holds leg (bodies earlier) l.ingest := by
  cases h with
  | reading _ _ hreads => exact ⟨payloads, List.prefix_rfl, hreads.holds⟩
  | returned _ earlier rest hsplit _ _ hholds => exact ⟨earlier, ⟨rest, hsplit.symm⟩, hholds⟩
  | raised _ earlier rest last hsplit _ _ _ hholds =>
    exact ⟨earlier, ⟨last :: rest, hsplit.symm⟩, hholds⟩

/-- The writer's thread runs in between. -/
theorem Holds.worker {got : Bytes} (h : Holds leg got i) (config : WriterConfig)
    (answer : Except ε AttemptWriter.Result)
    (hhealthy : failureOf (workerStep config i.arena.buffer i.writer answer).state = none) :
    Holds leg got { i with writer := workerStep config i.arena.buffer i.writer answer } := by
  obtain ⟨hpublished, htail⟩ := WriterTails.worker_published config i.arena.buffer i.writer answer
  exact ⟨h.fills, h.writer.worker config _ answer hhealthy, h.received.writer hpublished htail⟩

theorem Reads.worker (h : Reads leg payloads i) (config : WriterConfig)
    (answer : Except ε AttemptWriter.Result)
    (hhealthy : failureOf (workerStep config i.arena.buffer i.writer answer).state = none) :
    Reads leg payloads { i with writer := workerStep config i.arena.buffer i.writer answer } := by
  refine ⟨h.request, ?_, h.holds.worker config answer hhealthy⟩
  refine h.phase.imp_left fun ⟨hphase, hopening, hsettled⟩ => ⟨hphase, hopening, ?_⟩
  have hqueue := WriterQueue.worker_queueStep config i.arena.buffer answer h.holds.writer.queue
  refine List.eq_nil_iff_forall_not_mem.mpr fun pending hmem => ?_
  have hbefore := hqueue.mem hmem
  rw [hsettled] at hbefore
  exact List.not_mem_nil hbefore

theorem Came.worker {l : Loop ε} (h : Came leg payloads l) (config : WriterConfig)
    (answer : Except ε AttemptWriter.Result)
    (hhealthy : failureOf (step config l (.worker answer)).ingest.writer.state = none) :
    Came leg payloads (step config l (.worker answer)) := by
  cases h with
  | reading houtcome hall hreads =>
    exact .reading houtcome hall (hreads.worker config answer hhealthy)
  | returned houtcome earlier rest hsplit hall hcomplete hholds =>
    exact .returned houtcome earlier rest hsplit hall hcomplete
      (hholds.worker config answer hhealthy)
  | raised houtcome earlier rest last hsplit hall hconforms hoffends hholds =>
    exact .raised houtcome earlier rest last hsplit hall hconforms hoffends
      (hholds.worker config answer hhealthy)

/-- The next notification of a stream that is read on is taken, ends the stream, or offends. -/
theorem Came.notification {l : Loop ε} (h : Came leg payloads l) {config : WriterConfig}
    (hroom : 0 < config.maxControlCommands) (payload : Bytes) :
    Came leg (payloads ++ [payload]) (step config l (.notification payload)) ∧
      Kept l.ingest (step config l (.notification payload)).ingest := by
  cases h with
  | reading houtcome hall hreads =>
    have hturn := wp_turn hreads hroom payload
    unfold wp at hturn
    simp only [step, onNotification, houtcome]
    rcases hexec : exec (turn config payload) l.ingest with ⟨result, i'⟩
    rw [hexec] at hturn
    cases result with
    | ok done =>
      obtain ⟨hkept, htook⟩ := hturn
      cases done with
      | true =>
        refine ⟨.returned rfl (payloads ++ [payload]) [] (by simp) ?_ htook.1 htook.2, hkept⟩
        rw [List.length_append, hall]
        rfl
      | false =>
        refine ⟨.reading rfl ?_ htook, hkept⟩
        rw [List.length_append, hall]
        rfl
    | error error =>
      obtain ⟨rfl, hoffends⟩ := hturn
      refine ⟨.raised rfl payloads [] payload rfl ?_ hreads.conforms hoffends hreads.holds,
        ⟨rfl, id⟩⟩
      rw [hall]
  | returned houtcome earlier rest hsplit hall hcomplete hholds =>
    have hstop : step config l (.notification payload) = l := by
      simp only [step, onNotification, houtcome]
    rw [hstop]
    exact ⟨.returned houtcome earlier (rest ++ [payload]) (by rw [hsplit, List.append_assoc]) hall
      hcomplete hholds, ⟨rfl, id⟩⟩
  | raised houtcome earlier rest last hsplit hall hconforms hoffends hholds =>
    have hstop : step config l (.notification payload) = l := by
      simp only [step, onNotification, houtcome]
    rw [hstop]
    exact ⟨.raised houtcome earlier (rest ++ [payload]) last (by simp [hsplit]) hall hconforms
      hoffends hholds, ⟨rfl, id⟩⟩

theorem Begun.reads (h : Begun i) : Reads i.leg [] i := by
  obtain ⟨hstart, hzero, htotal⟩ := h.leg
  have hallocated := h.law.allocated
  have hwithin := h.law.received
  have hposition := h.law.position
  have hplace : i.arena.legOffset ≤ i.arena.receivedBytes := by
    rwa [ArenaBuffer.Arena.position, hzero, Nat.add_zero] at hposition
  have hfits : i.arena.legOffset + i.count * recordSize ≤ i.arena.totalBytes := by
    have hend := h.range
    simp only [ArenaBuffer.Arena.endSequence] at hend
    simp only [ArenaBuffer.Arena.legOffset, ArenaBuffer.Arena.totalBytes, hstart]
    rw [← Nat.add_mul]
    exact Nat.mul_le_mul_right _ (by omega)
  have hlength : i.leg.resident.length = i.arena.receivedBytes - i.arena.legOffset := by
    simp only [Ingest.leg, List.length_drop, List.length_take]
    omega
  have hresident : ∀ j < i.leg.resident.length,
      i.arena.buffer[i.arena.legOffset + j]? = i.leg.resident[j]? := by
    intro j hj
    simp only [Ingest.leg]
    rw [List.getElem?_drop, List.getElem?_take_of_lt (by omega)]
  have hreceived : i.arena.receivedBytes =
      i.arena.legOffset + max i.leg.resident.length (bodies []).length := by
    rw [hlength]
    simp only [bodies, List.flatMap_nil, List.length_nil]
    omega
  have hfills : Fills i.leg i.arena (bodies []) :=
    ⟨h.law, htotal, hfits, ⟨by simp [hzero, bodies], by simp [bodies]⟩, hresident, hreceived⟩
  exact ⟨⟨rfl, rfl⟩, .inl ⟨h.phase, by simp [Opening], h.settled⟩, hfills, h.writer, h.received⟩

theorem run_snoc (config : WriterConfig) (i : Ingest ε) (events : List (Event ε)) (event : Event ε) :
    run config i (events ++ [event]) = step config (run config i events) event := by
  rw [run, run, List.foldl_append]
  rfl

theorem notifications_snoc_notification (events : List (Event ε)) (payload : Bytes) :
    notifications (events ++ [.notification payload]) = notifications events ++ [payload] := by
  simp [notifications]

theorem notifications_snoc_worker (events : List (Event ε))
    (answer : Except ε AttemptWriter.Result) :
    notifications (events ++ [.worker answer]) = notifications events := by
  simp [notifications]

theorem NoFailure.earlier {config : WriterConfig} {events rest : List (Event ε)}
    (h : NoFailure config i (events ++ rest)) : NoFailure config i events :=
  fun earlier hpre => h earlier (hpre.trans (List.prefix_append _ _))

/-- Every state of a run of a begun leg. -/
theorem run_came {config : WriterConfig} (hroom : 0 < config.maxControlCommands) (h : Begun i)
    {events : List (Event ε)} (hhealthy : NoFailure config i events) :
    Came i.leg (notifications events) (run config i events) ∧
      Kept i (run config i events).ingest := by
  induction events using List.reverseRecOn with
  | nil => exact ⟨.reading rfl rfl h.reads, ⟨rfl, id⟩⟩
  | append_singleton events event ih =>
    obtain ⟨hcame, hkept⟩ := ih hhealthy.earlier
    have hnow := hhealthy _ List.prefix_rfl
    rw [run_snoc] at hnow ⊢
    cases event with
    | notification payload =>
      obtain ⟨hnext, hsame⟩ := hcame.notification hroom payload
      refine ⟨?_, hsame.offset.trans hkept.offset, hsame.synced ∘ hkept.synced⟩
      rw [notifications_snoc_notification]
      exact hnext
    | worker answer =>
      refine ⟨?_, hkept.offset, fun hsynced => ?_⟩
      · rw [notifications_snoc_worker]
        exact hcame.worker config answer hnow
      · obtain ⟨hpublished, htail⟩ := WriterTails.worker_published config
          (run config i events).ingest.arena.buffer (run config i events).ingest.writer answer
        obtain ⟨hmark, hrest⟩ := hkept.synced hsynced
        exact ⟨hpublished.trans hmark, htail.trans hrest⟩

theorem read_outcome {config : WriterConfig} (hroom : 0 < config.maxControlCommands) (h : Begun i)
    {events : List (Event ε)} (hhealthy : NoFailure config i events) {p : List Bytes}
    (hp : p <+: notifications events) :
    ((run config i events).outcome = .returned ∧ (run config i events).consumed = p.length ↔
        Complete i.leg p) ∧
      ((∃ error, (run config i events).outcome = .raised error) ∧
          (run config i events).consumed = p.length ↔ Ends i.leg p ∧ ¬ Complete i.leg p) := by
  cases (run_came hroom h hhealthy).1 with
  | reading houtcome hall hreads =>
    obtain ⟨rest, hsplit⟩ := hp
    have hgoes : ¬ Ends i.leg p := fun hends => hends.not_conforms (hsplit ▸ hreads.conforms)
    simp only [houtcome, reduceCtorEq, false_and, exists_false, false_iff]
    exact ⟨fun hcomplete => hgoes hcomplete.ends, fun hends => hgoes hends.1⟩
  | returned houtcome earlier rest hsplit hall hcomplete hholds =>
    have hsame : (run config i events).consumed = p.length ↔ p = earlier := by
      rw [hall]
      refine ⟨fun hlength => ?_, fun heq => by rw [heq]⟩
      exact (List.prefix_of_prefix_length_le hp ⟨rest, hsplit.symm⟩ hlength.ge).eq_of_length
        hlength.symm
    simp only [houtcome, reduceCtorEq, true_and, exists_false, false_and, false_iff, hsame]
    refine ⟨⟨fun heq => heq ▸ hcomplete, fun hdone => ?_⟩, fun hends => hends.2 ?_⟩
    · exact hdone.ends.unique hcomplete.ends hp ⟨rest, hsplit.symm⟩
    · rw [hends.1.unique hcomplete.ends hp ⟨rest, hsplit.symm⟩]
      exact hcomplete
  | @raised error houtcome earlier rest last hsplit hall hconforms hoffends hholds =>
    have hends : Ends i.leg (earlier ++ [last]) := ⟨earlier, last, rfl, hconforms, hoffends.1⟩
    have hprefix : earlier ++ [last] <+: notifications events := ⟨rest, by rw [hsplit]; simp⟩
    have hsame : (run config i events).consumed = p.length ↔ p = earlier ++ [last] := by
      rw [hall]
      refine ⟨fun hlength => ?_, fun heq => by simp [heq]⟩
      exact (List.prefix_of_prefix_length_le hp hprefix (by simp [← hlength])).eq_of_length
        (by simp [← hlength])
    simp only [houtcome, reduceCtorEq, false_and, false_iff, Outcome.raised.injEq, exists_eq',
      true_and, hsame]
    refine ⟨fun hdone => hoffends.2 ?_, fun heq => heq ▸ ⟨hends, hoffends.2⟩, fun hfirst => ?_⟩
    · rw [← hdone.ends.unique hends hp hprefix]
      exact hdone
    · exact hfirst.1.unique hends hp hprefix

theorem Holds.slice {got : Bytes} (h : Holds leg got i) :
    AttemptWriter.slice i.arena.buffer i.arena.legOffset got.length = got := by
  apply List.ext_getElem?
  intro j
  rw [AttemptWriter.slice]
  by_cases hj : j < got.length
  · rw [List.getElem?_take_of_lt hj, List.getElem?_drop]
    exact h.fills.held.bytes j hj
  · rw [List.getElem?_eq_none (by rw [List.length_take]; omega), List.getElem?_eq_none (by omega)]

/-- The loop returns exactly after a whole stream and raises exactly at the first notification that
offends; a whole stream is then in the arena at the leg's place, and a published frontier that was
the arena's own when the leg began is so in every state of the run. -/
theorem read_stream {config : WriterConfig} (hroom : 0 < config.maxControlCommands) (h : Begun i)
    {events : List (Event ε)} (hhealthy : NoFailure config i events) :
    (∀ k < (notifications events).length,
      ((run config i events).outcome = .returned ∧ (run config i events).consumed = k + 1 ↔
        Complete i.leg ((notifications events).take (k + 1))) ∧
      ((∃ error, (run config i events).outcome = .raised error) ∧
          (run config i events).consumed = k + 1 ↔
        Conforms i.leg ((notifications events).take k) ∧
          Offends i.leg ((notifications events).take (k + 1)))) ∧
    ((run config i events).outcome = .reading ↔ Conforms i.leg (notifications events)) ∧
    ((run config i events).outcome = .returned →
      AttemptWriter.slice (run config i events).ingest.arena.buffer i.arena.legOffset
          (i.count * recordSize) =
        bodies ((notifications events).take (run config i events).consumed)) ∧
    (Synced i → ∀ earlier, earlier <+: events → Synced (run config i earlier).ingest) := by
  refine ⟨fun k hk => ?_, ?_, ?_, ?_⟩
  · have hlength : ((notifications events).take (k + 1)).length = k + 1 := by
      rw [List.length_take]
      omega
    have hsplit : (notifications events).take (k + 1) =
        (notifications events).take k ++ [(notifications events)[k]] := by
      rw [List.take_append_getElem]
    have houtcome := read_outcome hroom h hhealthy (List.take_prefix (k + 1) (notifications events))
    rw [hlength] at houtcome
    refine ⟨houtcome.1, houtcome.2.trans ⟨?_, ?_⟩⟩
    · rintro ⟨hends, hcomplete⟩
      obtain ⟨earlier, last, heq, hconforms, hover⟩ := hends
      refine ⟨?_, hover, hcomplete⟩
      rw [hsplit] at heq
      rw [(List.append_inj' heq rfl).1]
      exact hconforms
    · rintro ⟨hconforms, hoffends⟩
      exact ⟨⟨_, _, hsplit, hconforms, hoffends.1⟩, hoffends.2⟩
  · cases (run_came hroom h hhealthy).1 with
    | reading houtcome hall hreads =>
      exact ⟨fun _ => hreads.conforms, fun _ => houtcome⟩
    | returned houtcome earlier rest hsplit hall hcomplete hholds =>
      rw [houtcome, hsplit]
      exact ⟨fun h => (by cases h), fun h => absurd h hcomplete.not_conforms⟩
    | raised houtcome earlier rest last hsplit hall hconforms hoffends hholds =>
      rw [houtcome, hsplit]
      refine ⟨fun h => (by cases h), fun h => absurd ?_ hoffends.1⟩
      rw [← List.singleton_append, ← List.append_assoc] at h
      exact h.of_append
  · intro hreturned
    obtain ⟨hcame, hkept⟩ := run_came hroom h hhealthy
    cases hcame with
    | reading houtcome => cases houtcome.symm.trans hreturned
    | raised houtcome => cases houtcome.symm.trans hreturned
    | returned houtcome earlier rest hsplit hall hcomplete hholds =>
      obtain ⟨received, done, rfl, -, hlength, hdone⟩ := hcomplete
      have hsame : bodies (received ++ [done]) = bodies received := by
        obtain ⟨s, rfl, -⟩ := hdone
        simp [bodyOf, notifyDone, notifyData]
      have hslice := hholds.slice
      rw [hkept.offset, hsame, hlength] at hslice
      rw [hall, hsplit, List.take_left, hsame]
      exact hslice
  · intro hsynced earlier hprefix
    obtain ⟨rest, rfl⟩ := hprefix
    exact (run_came hroom h hhealthy.earlier).2.synced hsynced

/-! A record and a half of a reconnected leg of two: a record and a part of the next are resident. -/

def demoArena : ArenaBuffer.Arena :=
  { startSequence := 5, totalRecords := 2, buffer := List.replicate 888 7, receivedBytes := 500,
    submittedBytes := 444, legStart := 5, legBytes := 0, legTotalBytes := 888 }

def demoIngest : Ingest String :=
  { start := 5, count := 2, phase := .awaitBegin, arena := demoArena,
    writer := { AttemptWriter.Writer.new with
      state := .prepared
      published := 444
      publishedTail := List.replicate 56 7 } }

def demoPayloads : List Bytes :=
  [[notifyAck, 0], notifyReadBegin :: [0, 0, 0, 0, 0, 0, 0, 5, 0, 0, 0, 2],
    notifyData :: List.replicate 600 7, notifyData :: List.replicate 288 7,
    notifyDone :: 0 :: [0, 0, 0, 0, 0, 0, 0, 7]]

theorem demo_begun : Begun demoIngest := by
  have hlaw : ArenaBuffer.Law demoArena :=
    ⟨by decide +kernel, by decide +kernel, by decide +kernel, by decide +kernel⟩
  have hsettled : outstanding demoIngest.writer = [] := rfl
  have hready : WriterReady demoIngest.writer := by
    refine ⟨⟨by decide, ?_, ?_, by simp [demoIngest, AttemptWriter.Writer.new]⟩, .inl rfl, ?_⟩
    all_goals simp [hsettled, WriterQueue.CloseLast]
  have hfrontier : Frontier demoArena.buffer 444 (List.replicate 56 7) :=
    ⟨by decide +kernel, by decide, by decide +kernel, by decide +kernel⟩
  exact ⟨rfl, hlaw, ⟨rfl, rfl, by decide⟩, by decide, hready, hsettled, hfrontier, by decide +kernel⟩

theorem demo_complete : Complete demoIngest.leg demoPayloads := by
  have hbodies : bodies (demoPayloads.take 4) = List.replicate 888 7 := by decide +kernel
  have hresident : demoIngest.leg.resident = List.replicate 500 7 := by decide +kernel
  refine ⟨demoPayloads.take 4, notifyDone :: 0 :: [0, 0, 0, 0, 0, 0, 0, 7], by decide +kernel,
    ⟨⟨[[notifyAck, 0]], notifyReadBegin :: [0, 0, 0, 0, 0, 0, 0, 5, 0, 0, 0, 2],
      [notifyData :: List.replicate 600 7, notifyData :: List.replicate 288 7], by decide +kernel,
      by simp [Opening, IsAck], ?_, ?_⟩, ?_, ?_⟩, ?_, ?_⟩
  · exact ⟨[0, 0, 0, 0, 0, 0, 0, 5], [0, 0, 0, 2], rfl, rfl, rfl, rfl, rfl⟩
  · intro payload hmem
    simp only [List.mem_cons, List.not_mem_nil, or_false] at hmem
    rcases hmem with rfl | rfl
    · exact .inr ⟨List.replicate 600 7, rfl⟩
    · exact .inr ⟨List.replicate 288 7, rfl⟩
  · rw [hbodies]
    decide +kernel
  · rw [hbodies, hresident]
    exact agrees_replicate _ _ _
  · rw [hbodies]
    decide +kernel
  · exact ⟨[0, 0, 0, 0, 0, 0, 0, 7], rfl, rfl, rfl⟩

theorem read_stream_resumed :
    (run ⟨1, 4, by decide⟩ demoIngest (demoPayloads.map .notification)).outcome = .returned ∧
      Synced (run ⟨1, 4, by decide⟩ demoIngest (demoPayloads.map .notification)).ingest := by
  have hhealthy : NoFailure ⟨1, 4, by decide⟩ demoIngest (demoPayloads.map .notification) := by
    have hall : ∀ earlier ∈ (demoPayloads.map (Event.notification (ε := String))).inits,
        failureOf (run ⟨1, 4, by decide⟩ demoIngest earlier).ingest.writer.state = none := by
      decide +kernel
    exact fun earlier hpre => hall earlier ((List.mem_inits _ _).mpr hpre)
  obtain ⟨houtcome, -, -, hsynced⟩ := read_stream (by decide) demo_begun hhealthy
  refine ⟨((houtcome 4 (by decide)).1.mpr ?_).1, hsynced ⟨by decide +kernel, by decide +kernel⟩ _ List.prefix_rfl⟩
  have hall : (notifications (demoPayloads.map (Event.notification (ε := String)))).take 5 =
      demoPayloads := by decide +kernel
  rw [hall]
  exact demo_complete

end Run

end ReadStream
