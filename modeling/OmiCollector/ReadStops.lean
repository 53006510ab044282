import OmiCollector.ReadLeg

/-! A READ that fails is stopped once, and what it received is made durable before the leg is
left, unless the error that ends it is of a class that no handler names. -/
namespace ReadStops

open ReadLeg TransferArena
open BatchMachine (ReadPhase ReadEvent ReadAction readTransition)
open ByteCodec (Bytes)

/-- The notification loop runs. -/
def Live (s : State) : Prop :=
  s.doneAccepted = false ∧ s.stops = 0 ∧
    (s.phase = .awaitBegin ∧ s.readBegin = none ∨ s.phase = .receiving ∧ s.readBegin ≠ none)

/-- DONE was accepted and nothing failed since, as far as the phase goes. -/
def Done (s : State) : Prop :=
  s.phase = .done ∧ s.doneAccepted = true ∧ s.mailboxTerminal = true

/-- STOP is on its way or settled, once. -/
def Stopping (s : State) : Prop :=
  s.phase = .stopping ∧ s.doneAccepted = false ∧ s.stops = 1 ∧ s.mailboxTerminal = true

/-- The cause to raise is the writer's first failure. -/
def WriterCause (s : State) : Prop :=
  ∃ failure, s.failure = some failure ∧ s.failureCause = some (.writer failure)

def RaisingFacts (s : State) : Raising → Prop
  | .writerIngest failure => s.failure = some failure
  | .error cls => cls.routed = true ∨ ∃ status, cls = .acknowledgement status ∧ s.readBegin = none
  | _ => True

/-- The READ was refused by a nonzero ACK before READ_BEGIN. -/
def Refused (s : State) (raised : Raised) : Prop :=
  ∃ status, raised = .unrouted (.acknowledgement status) ∧ s.readBegin = none

/-- A failed READ was stopped, its frontier made durable, and the writer's failure is the cause. -/
structure Settled (s : State) (raised : Raised) : Prop where
  phase : s.phase = .exited
  mailbox : s.mailboxTerminal = true
  stopped : s.doneAccepted = false → s.stops = 1
  persisted : s.doneAccepted = false → s.readBegin ≠ none → s.failure = none →
    s.readBegin = some .completed ∧ s.interrupted = true
  cause : ∀ failure, s.failure = some failure → raised = .interrupted (some (.writer failure))

/-- What holds at each await. -/
def AwaitFacts (s : State) : Await → Prop
  | .writeRead => Live s
  | .notification => Live s
  | .joinNotification raising => Live s ∧ RaisingFacts s raising
  | .joinFailureWait (some raising) => Live s ∧ RaisingFacts s raising ∨
      Done s ∧ (raising = .cancelled ∨ ∃ failure, raising = .writerIngest failure ∧
        s.failure = some failure)
  | .joinFailureWait none => Done s
  | .interruptStop _ _ => Stopping s
  | .persistNothing _ _ => Stopping s ∧ s.readBegin = none
  | .persistBegin _ _ => Stopping s
  | .persistInterrupt _ _ => Stopping s ∧ s.readBegin = some .completed
  | .failedStop _ => Stopping s ∧ WriterCause s
  | .failedBegin => (Stopping s ∨ s.phase = .exited ∧ s.doneAccepted = true ∧
      s.mailboxTerminal = true) ∧ WriterCause s
  | .finishBegin _ _ => Done s
  | .finishBarrier _ _ => Done s
  | .returned => True
  | .raised raised => Refused s raised ∨ Settled s raised

def Inv (s : State) : Prop := AwaitFacts s s.await

theorem moveRead_eq {s : State} {event : ReadEvent} {expected : ReadAction} {next : State → State}
    (h : (readTransition s.phase event).action = expected) :
    moveRead s event expected next =
      next { s with phase := (readTransition s.phase event).nextPhase } := if_pos h

/-- A stopping READ takes a latched event and stays where it is. -/
theorem moveRead_stopping {s : State} {event : ReadEvent} {expected : ReadAction}
    {next : State → State} (hphase : s.phase = .stopping)
    (haction : readTransition .stopping event = ⟨.stopping, expected,
      (readTransition .stopping event).reason⟩) : moveRead s event expected next = next s := by
  rw [moveRead_eq (by rw [hphase, haction]), hphase, haction, ← hphase]

/-! ## The handlers -/

theorem finishInterrupt_inv {s : State} (caller : Caller) (cancelled : Bool) (h : Stopping s)
    (hpersisted : s.failure = none → s.readBegin ≠ none →
      s.readBegin = some .completed ∧ s.interrupted = true) :
    Inv (finishInterrupt s caller cancelled) := by
  obtain ⟨hphase, hdone, hstops, hmailbox⟩ := h
  unfold finishInterrupt
  cases hfailure : s.failure with
  | some failure =>
    simp only
    rw [moveRead_stopping hphase rfl, moveRead_eq (by simp [hphase, readTransition])]
    refine .inr ⟨by simp [State.raise, State.wait, hphase, readTransition], hmailbox,
      fun _ => hstops, fun _ _ hnone => ?_, fun other hother => ?_⟩
    · simp [State.raise, State.wait, hfailure] at hnone
    · simp only [State.raise, State.wait, hfailure, Option.some.injEq] at hother
      rw [hother]
  | none =>
    simp only
    rw [moveRead_eq (by simp [hphase, readTransition])]
    have hsettled : ∀ raised, Settled (State.raise { s with
        phase := (readTransition s.phase .stopSettled).nextPhase } raised) raised := fun raised =>
      { phase := by simp [State.raise, State.wait, hphase, readTransition]
        mailbox := hmailbox
        stopped := fun _ => hstops
        persisted := fun _ hbegun _ => hpersisted hfailure hbegun
        cause := fun failure hsome => by simp [State.raise, State.wait, hfailure] at hsome }
    split
    · exact .inr (hsettled _)
    · exact .inr (hsettled _)

theorem afterPersist_inv {s : State} (caller : Caller) (cancelled : Bool) (h : Stopping s)
    (hpersisted : s.failure = none → s.readBegin ≠ none →
      s.readBegin = some .completed ∧ s.interrupted = true) :
    Inv (afterPersist s caller cancelled) := by
  unfold afterPersist
  split
  · rw [moveRead_stopping h.1 rfl]
    exact finishInterrupt_inv caller cancelled h hpersisted
  · exact finishInterrupt_inv caller cancelled h hpersisted

theorem afterStop_inv {s : State} (caller : Caller) (cancelled : Bool) (h : Stopping s) :
    Inv (afterStop s caller cancelled) := by
  unfold afterStop
  simp only
  split
  · rw [moveRead_stopping h.1 rfl]
    split
    · rename_i hfailure
      exact finishInterrupt_inv caller _ h fun hnone => by simp [hfailure] at hnone
    · rename_i hbegin
      exact ⟨h, hbegin⟩
    · exact h
  · split
    · rename_i hfailure
      exact finishInterrupt_inv caller _ h fun hnone => by simp [hfailure] at hnone
    · rename_i hbegin
      exact ⟨h, hbegin⟩
    · exact h

theorem finishFailed_inv {s : State} (h : Stopping s ∨ s.phase = .exited ∧ s.doneAccepted = true ∧
    s.mailboxTerminal = true) (hcause : WriterCause s) : Inv (finishFailed s) := by
  obtain ⟨failure, hfailure, hfailureCause⟩ := hcause
  unfold finishFailed
  rcases h with ⟨hphase, hdone, hstops, hmailbox⟩ | ⟨hphase, hdone, hmailbox⟩
  · rw [if_pos hphase, moveRead_eq (by simp [hphase, readTransition])]
    refine .inr ⟨by simp [State.raise, State.wait, hphase, readTransition], hmailbox,
      fun _ => hstops, fun _ _ hnone => ?_, fun other hother => ?_⟩
    · simp [State.raise, State.wait, hfailure] at hnone
    · simp only [State.raise, State.wait, hfailure, Option.some.injEq] at hother
      rw [hfailureCause, hother]
  · rw [if_neg (by simp [hphase])]
    refine .inr ⟨hphase, hmailbox, fun hopen => ?_, fun hopen => ?_, fun other hother => ?_⟩
    · simp [State.raise, State.wait, hdone] at hopen
    · simp [State.raise, State.wait, hdone] at hopen
    · simp only [State.raise, State.wait, hfailure, Option.some.injEq] at hother
      rw [hfailureCause, hother]

theorem joinFailedBegin_inv {s : State} (h : Stopping s ∨ s.phase = .exited ∧
    s.doneAccepted = true ∧ s.mailboxTerminal = true) (hcause : WriterCause s) :
    Inv (joinFailedBegin s) := by
  unfold joinFailedBegin
  split
  · exact ⟨h, hcause⟩
  · exact finishFailed_inv h hcause

/-- A failed writer's READ is stopped unless it is complete. -/
theorem interruptFailedWriter_inv {s : State} (h : Live s ∨ Done s) (hmailbox : s.mailboxTerminal = true)
    (hcause : WriterCause s) : Inv (interruptFailedWriter s) := by
  unfold interruptFailedWriter
  rcases h with ⟨hdone, hstops, hphase⟩ | ⟨hphase, hdone, -⟩
  · have hstop : readTransition s.phase .writerFailed = ⟨.stopping, .stop,
        (readTransition s.phase .writerFailed).reason⟩ := by
      rcases hphase with ⟨hphase, -⟩ | ⟨hphase, -⟩ <;> rw [hphase] <;> rfl
    rw [hstop]
    exact ⟨⟨rfl, hdone, by simp [hstops], hmailbox⟩, hcause⟩
  · rw [hphase]
    exact joinFailedBegin_inv (.inr ⟨rfl, hdone, hmailbox⟩) hcause

theorem interruptRead_inv {s : State} (h : Live s) (hmailbox : s.mailboxTerminal = true) :
    Inv (interruptRead s) := by
  unfold interruptRead
  cases hfailure : s.failure with
  | some failure =>
    exact interruptFailedWriter_inv (.inl h) hmailbox ⟨failure, rfl, rfl⟩
  | none =>
    obtain ⟨hdone, hstops, hphase⟩ := h
    have hstop : readTransition s.phase .readFailed = ⟨.stopping, .stop,
        (readTransition s.phase .readFailed).reason⟩ := by
      rcases hphase with ⟨hphase, -⟩ | ⟨hphase, -⟩ <;> rw [hphase] <;> rfl
    simp only
    rw [moveRead_eq (by rw [hstop])]
    exact ⟨by rw [hstop], hdone, by simp [hstops], hmailbox⟩

theorem handleCancelled_inv {s : State} (h : Live s ∨ Done s) (hmailbox : s.mailboxTerminal = true) :
    Inv (handleCancelled s) := by
  unfold handleCancelled
  cases hfailure : s.failure with
  | some failure => exact interruptFailedWriter_inv h hmailbox ⟨failure, rfl, rfl⟩
  | none =>
    rcases h with ⟨hdone, hstops, hphase⟩ | hcomplete
    · have hstop : readTransition s.phase .cancelled = ⟨.stopping, .stop,
          (readTransition s.phase .cancelled).reason⟩ := by
        rcases hphase with ⟨hphase, -⟩ | ⟨hphase, -⟩ <;> rw [hphase] <;> rfl
      have hopen : s.phase ≠ .done := by
        rcases hphase with ⟨hphase, -⟩ | ⟨hphase, -⟩ <;> simp [hphase]
      simp only
      rw [if_neg hopen, moveRead_eq (by rw [hstop])]
      exact ⟨by rw [hstop], hdone, by simp [hstops], hmailbox⟩
    · simp only
      rw [if_pos hcomplete.1]
      exact hcomplete

theorem handle_inv {s : State} {raising : Raising} (h : Live s) (hraising : RaisingFacts s raising) :
    Inv (handle s raising) := by
  unfold handle
  cases raising with
  | timeout => exact interruptRead_inv h rfl
  | writerIngest failure => exact interruptFailedWriter_inv (.inl h) rfl ⟨failure, hraising, rfl⟩
  | cancelled => exact handleCancelled_inv (.inl h) rfl
  | error cls =>
    simp only
    split
    · exact interruptRead_inv h rfl
    · rename_i hunrouted
      obtain ⟨status, rfl, hbegin⟩ := hraising.resolve_left hunrouted
      exact .inl ⟨status, rfl, hbegin⟩

/-! ## One notification -/

theorem bind_ok {α β : Type} {x : Except ErrorClass α} {f : α → Except ErrorClass β} {b : β}
    (h : (x >>= f) = .ok b) : ∃ a, x = .ok a ∧ f a = .ok b := by
  cases x with
  | error _ => cases h
  | ok a => exact ⟨a, rfl, h⟩

theorem bind_error {α β : Type} {x : Except ErrorClass α} {f : α → Except ErrorClass β}
    {cls : ErrorClass} (h : (x >>= f) = .error cls) :
    x = .error cls ∨ ∃ a, x = .ok a ∧ f a = .error cls := by
  cases x with
  | error _ => exact .inl (congrArg Except.error (Except.error.inj h))
  | ok a => exact .inr ⟨a, rfl, h⟩

theorem protocolError_error {α : Type} {x : Except String α} {cls : ErrorClass}
    (h : protocolError x = .error cls) : cls.routed = true := by
  cases x with
  | error _ => obtain rfl := Except.error.inj h; rfl
  | ok _ => cases h

theorem valueError_error {α : Type} {x : Except String α} {cls : ErrorClass}
    (h : valueError x = .error cls) : cls.routed = true := by
  cases x with
  | error _ => obtain rfl := Except.error.inj h; rfl
  | ok _ => cases h

theorem publishFrontier_ok {s s' : State} {refused : Bool}
    (h : publishFrontier s refused = .ok s') :
    ∃ arena submitted, s' = { s with arena := arena, submitted := submitted } := by
  unfold publishFrontier at h
  split at h
  · obtain ⟨arena, -, h⟩ := bind_ok h
    split at h
    · cases h
    · exact ⟨_, _, (Except.ok.inj h).symm⟩
  · exact ⟨s.arena, s.submitted, (Except.ok.inj h).symm⟩

theorem publishFrontier_error {s : State} {refused : Bool} {cls : ErrorClass}
    (h : publishFrontier s refused = .error cls) : cls.routed = true := by
  unfold publishFrontier at h
  split at h
  · rcases bind_error h with h | ⟨arena, -, h⟩
    · exact valueError_error h
    · split at h
      · obtain rfl := Except.error.inj h
        rfl
      · cases h
  · cases h

theorem validateDone_error {s : State} {done : DoneNotification} {cls : ErrorClass}
    (h : validateDone s done = .error cls) : cls.routed = true := by
  unfold validateDone at h
  split at h
  · obtain rfl := Except.error.inj h; rfl
  split at h
  · obtain rfl := Except.error.inj h; rfl
  split at h
  · obtain rfl := Except.error.inj h; rfl
  · cases h

/-- A two-byte notification with the ACK opcode is the opcode and its status. -/
theorem parseAck_ok {payload : Bytes} {status : UInt8}
    (h : parseAckNotification payload = .ok status) : payload = [notifyAck, status] := by
  unfold parseAckNotification requireNotification at h
  split at h
  · cases h
  split at h
  · cases h
  rename_i hlength hopcode
  obtain ⟨first, second, rfl⟩ : ∃ first second, payload = [first, second] :=
    List.length_eq_two.mp (not_not.mp hlength)
  have hfirst : first = notifyAck := by simpa using hopcode
  obtain rfl : second = status := by simpa using Except.ok.inj h
  rw [hfirst]

/-- Only a nonzero ACK raises an error that no handler names. -/
theorem consumeEvent_error {payload : Bytes} {event : ReadEvent} {s : State} {refused : Bool}
    {cls : ErrorClass} (h : consumeEvent payload event s refused = .error cls) :
    cls.routed = true ∨ ∃ status, cls = .acknowledgement status ∧ status ≠ 0 ∧
      payload = [notifyAck, status] := by
  cases event with
  | ack =>
    rcases bind_error h with h | ⟨status, hparsed, h⟩
    · exact .inl (protocolError_error h)
    · split at h
      · cases h
      · rename_i hstatus
        obtain rfl := Except.error.inj h
        cases hraw : parseAckNotification payload with
        | error _ => rw [hraw] at hparsed; cases hparsed
        | ok raw =>
          rw [hraw] at hparsed
          obtain rfl := Except.ok.inj hparsed
          exact .inr ⟨raw, rfl, hstatus, parseAck_ok hraw⟩
  | begun =>
    rcases bind_error h with h | ⟨notice, -, h⟩
    · exact .inl (protocolError_error h)
    · split at h
      · obtain rfl := Except.error.inj h
        exact .inl rfl
      · cases h
  | data =>
    rcases bind_error h with h | ⟨data, -, h⟩
    · exact .inl (protocolError_error h)
    · rcases bind_error h with h | ⟨arena, -, h⟩
      · exact .inl (valueError_error h)
      · exact .inl (publishFrontier_error h)
  | done =>
    rcases bind_error h with h | ⟨done, -, h⟩
    · exact .inl (protocolError_error h)
    · rcases bind_error h with h | ⟨_, -, h⟩
      · exact .inl (validateDone_error h)
      · cases h
  | _ =>
    obtain rfl := Except.error.inj h
    exact .inl rfl

theorem consumeNotification_error {payload : Bytes} {s : State} {refused : Bool}
    {cls : ErrorClass} (h : consumeNotification payload s refused = .error cls) :
    cls.routed = true ∨ ∃ status, cls = .acknowledgement status ∧ status ≠ 0 ∧
      payload = [notifyAck, status] := by
  unfold consumeNotification at h
  split at h
  · obtain rfl := Except.error.inj h
    exact .inl rfl
  split at h
  · obtain rfl := Except.error.inj h
    exact .inl rfl
  simp only at h
  split at h
  · obtain rfl := Except.error.inj h
    exact .inl rfl
  rcases bind_error h with h | ⟨_, -, h⟩
  · exact consumeEvent_error h
  · cases h

/-- A consumed notification leaves the loop running, or completes the READ. -/
theorem consumeNotification_ok {payload : Bytes} {s s' : State} {refused complete : Bool}
    (h : consumeNotification payload s refused = .ok (s', complete)) (hlive : Live s) :
    s'.await = s.await ∧ s'.failure = s.failure ∧
      (complete = false ∧ Live s' ∨ complete = true ∧ Done s') := by
  obtain ⟨hdone, hstops, hphase⟩ := hlive
  unfold consumeNotification at h
  split at h
  · cases h
  split at h
  · cases h
  rename_i event _
  simp only at h
  split at h
  · cases h
  rename_i haction
  obtain ⟨middle, hconsumed, h⟩ := bind_ok h
  obtain ⟨rfl, rfl⟩ := Prod.mk.inj (Except.ok.inj h)
  cases event with
  | ack =>
    obtain ⟨status, -, hconsumed⟩ := bind_ok hconsumed
    split at hconsumed
    · obtain rfl := Except.ok.inj hconsumed
      rcases hphase with ⟨hphase, hbegin⟩ | ⟨hphase, hbegin⟩ <;>
        simp [hphase, readTransition, Live, hdone, hstops, hbegin]
    · cases hconsumed
  | begun =>
    obtain ⟨notice, -, hconsumed⟩ := bind_ok hconsumed
    split at hconsumed
    · cases hconsumed
    · obtain rfl := Except.ok.inj hconsumed
      rcases hphase with ⟨hphase, hbegin⟩ | ⟨hphase, hbegin⟩
      · simp [hphase, readTransition, Live, hdone, hstops]
      · simp [hphase, readTransition] at haction
  | data =>
    obtain ⟨data, -, hconsumed⟩ := bind_ok hconsumed
    obtain ⟨arena, -, hconsumed⟩ := bind_ok hconsumed
    obtain ⟨arena', submitted, rfl⟩ := publishFrontier_ok hconsumed
    rcases hphase with ⟨hphase, hbegin⟩ | ⟨hphase, hbegin⟩
    · simp [hphase, readTransition] at haction
    · simp [hphase, readTransition, Live, hdone, hstops, hbegin]
  | done =>
    obtain ⟨done, -, hconsumed⟩ := bind_ok hconsumed
    obtain ⟨_, -, hconsumed⟩ := bind_ok hconsumed
    obtain rfl := Except.ok.inj hconsumed
    rcases hphase with ⟨hphase, hbegin⟩ | ⟨hphase, hbegin⟩
    · simp [hphase, readTransition] at haction
    · simp [hphase, readTransition, Done]
  | _ => cases hconsumed

/-- The step ends the leg with an error that no handler names: a nonzero ACK while receiving, or
the end of the notification stream. -/
def Unrouted (s : State) (event : Event) : Prop :=
  s.await = .notification ∧ (event = .streamEnded ∨ s.phase = .receiving ∧ s.failure = none ∧
    ∃ status refused, status ≠ 0 ∧ event = .payload [notifyAck, status] refused none)

theorem onPayload_inv {s : State} {payload : Bytes} {refused : Bool} {failing : Option ℕ}
    (hawait : s.await = .notification) (hlive : Live s)
    (hrouted : ¬ Unrouted s (.payload payload refused failing)) :
    Inv (onPayload s payload refused failing) := by
  unfold onPayload
  cases hfailure : s.failure with
  | some failure => exact .inl ⟨hlive, hfailure⟩
  | none =>
    cases hconsumed : consumeNotification payload s (refused || failing.isSome) with
    | error cls =>
      cases failing with
      | some failure => exact .inl ⟨hlive, rfl⟩
      | none =>
        refine .inl ⟨hlive, ?_⟩
        rcases consumeNotification_error hconsumed with hcls | ⟨status, rfl, hstatus, rfl⟩
        · exact .inl hcls
        · refine .inr ⟨status, rfl, ?_⟩
          rcases hlive.2.2 with ⟨-, hbegin⟩ | ⟨hphase, -⟩
          · exact hbegin
          · exact absurd ⟨hawait, .inr ⟨hphase, hfailure, status, refused, hstatus, rfl⟩⟩ hrouted
    | ok result =>
      obtain ⟨s', complete⟩ := result
      obtain ⟨hawait', hfailure', hnext⟩ := consumeNotification_ok hconsumed hlive
      rcases hnext with ⟨rfl, hlive'⟩ | ⟨rfl, hdone'⟩
      · simp only
        unfold Inv
        rw [hawait', hawait]
        exact hlive'
      · cases failing with
        | some failure => exact .inr ⟨hdone', .inr ⟨failure, rfl, rfl⟩⟩
        | none => exact hdone'

/-! ## After DONE -/

/-- A completed READ leaves with the phase exited, whatever its end raises. -/
theorem done_settled {s : State} {event : ReadEvent} {action : ReadAction} (raised : Raised)
    (h : Done s) (haction : readTransition .done event = ⟨.exited, action,
      (readTransition .done event).reason⟩)
    (hcause : ∀ failure, s.failure = some failure → raised = .interrupted (some (.writer failure))) :
    Inv (moveRead s event action fun s => s.raise raised) := by
  obtain ⟨hphase, hdone, hmailbox⟩ := h
  rw [moveRead_eq (by rw [hphase, haction])]
  refine .inr ⟨?_, hmailbox, fun hopen => ?_, fun hopen => ?_, hcause⟩
  · simp only [State.raise, State.wait]
    rw [hphase, haction]
  · simp [State.raise, State.wait, hdone] at hopen
  · simp [State.raise, State.wait, hdone] at hopen

theorem writerFailed_settled {s : State} {failure : ℕ} (h : Done s)
    (hfailure : s.failure = some failure) :
    Inv (moveRead s .writerFailed .propagate fun s =>
      s.raise (.interrupted (some (.writer failure)))) :=
  done_settled _ h rfl fun other hother => by
    obtain rfl := Option.some.inj (hfailure.symm.trans hother)
    rfl

theorem finishCancelled_inv {s : State} (h : Done s) : Inv (finishCancelled s) := by
  unfold finishCancelled
  split
  · exact writerFailed_settled h ‹_›
  · exact done_settled .cancelled h rfl fun failure hfailure => by simp_all

theorem finishFailedBarrier_inv {s : State} (h : Done s) : Inv (finishFailedBarrier s) := by
  unfold finishFailedBarrier
  split
  · exact writerFailed_settled h ‹_›
  · exact done_settled _ h rfl fun failure hfailure => by simp_all

theorem finishBarrierOk_inv {s : State} (owned : Bool) (h : Done s) :
    Inv (finishBarrierOk s owned) := by
  unfold finishBarrierOk
  split
  · exact writerFailed_settled h ‹_›
  · split
    · exact done_settled .cancelled h rfl fun failure hfailure => by simp_all
    · rw [moveRead_eq (by rw [h.1]; rfl)]
      trivial

/-! ## Steps and runs -/

theorem onSettled_inv {s : State} (h : Inv s) : Inv (onSettled s) := by
  have hself := h
  unfold Inv at h
  unfold onSettled
  split <;> rename_i hawait <;> try rw [hawait] at h
  · exact h
  · exact .inl h
  · rename_i raising
    rcases h with ⟨hlive, hraising⟩ | ⟨hdone, rfl | ⟨failure, rfl, hfailure⟩⟩
    · exact handle_inv hlive hraising
    · exact handleCancelled_inv (.inr ⟨hdone.1, hdone.2.1, rfl⟩) rfl
    · exact interruptFailedWriter_inv (.inr ⟨hdone.1, hdone.2.1, rfl⟩) rfl ⟨failure, hfailure, rfl⟩
  · exact h
  · exact afterStop_inv _ _ h
  · exact afterPersist_inv _ _ h.1 fun _ hbegin => absurd h.2 hbegin
  · exact ⟨h, rfl⟩
  · exact afterPersist_inv _ _ h.1 fun _ _ => ⟨h.2, rfl⟩
  · split
    · rw [moveRead_stopping h.1.1 rfl]
      exact joinFailedBegin_inv (.inl h.1) h.2
    · exact joinFailedBegin_inv (.inl h.1) h.2
  · exact finishFailed_inv h.1 h.2
  · simp only
    split
    · exact finishCancelled_inv h
    · exact h
  · split
    · exact finishCancelled_inv h
    · exact finishBarrierOk_inv _ h
  · exact hself

theorem onWriterCallFailed_inv {s : State} (h : Inv s) : Inv (onWriterCallFailed s) := by
  have hself := h
  unfold Inv at h
  unfold onWriterCallFailed
  split
  · rename_i hawait hfailure
    rw [hawait] at h
    exact finishInterrupt_inv _ _ h fun hnone => by simp [hfailure] at hnone
  · rename_i hawait hfailure
    rw [hawait] at h
    exact finishInterrupt_inv _ _ h.1 fun hnone => by simp [hfailure] at hnone
  · rename_i hawait
    rw [hawait] at h
    exact finishFailed_inv h.1 h.2
  · rename_i hawait
    rw [hawait] at h
    exact finishFailedBarrier_inv h
  · rename_i hawait
    rw [hawait] at h
    exact finishFailedBarrier_inv h
  · exact hself

theorem onTimeout_inv {s : State} (h : Inv s) : Inv (onTimeout s) := by
  have hself := h
  unfold Inv at h
  unfold onTimeout
  split <;> rename_i hawait <;> try rw [hawait] at h
  · exact handle_inv h trivial
  · exact ⟨h, trivial⟩
  · exact hself
  · exact ⟨h.1, trivial⟩
  · exact hself

theorem onError_inv {s : State} {cls : ErrorClass} (h : Inv s) (hcls : cls.routed = true) :
    Inv (onError s cls) := by
  have hself := h
  unfold Inv at h
  unfold onError
  split <;> rename_i hawait <;> try rw [hawait] at h
  · exact handle_inv h (.inl hcls)
  · exact .inl ⟨h, .inl hcls⟩
  · exact hself

theorem onCancel_inv {s : State} (h : Inv s) : Inv (onCancel s) := by
  have hself := h
  unfold Inv at h
  unfold onCancel
  split <;> rename_i hawait <;> try rw [hawait] at h
  · exact handle_inv h trivial
  · exact ⟨h, trivial⟩
  · exact ⟨h.1, trivial⟩
  · rename_i raising
    cases raising with
    | none => exact .inr ⟨h, .inl rfl⟩
    | some raising =>
      rcases h with ⟨hlive, -⟩ | ⟨hdone, -⟩
      · exact .inl ⟨hlive, trivial⟩
      · exact .inr ⟨hdone, .inl rfl⟩
  · exact h
  · exact h
  · exact h
  · exact h
  · exact h
  · exact h
  · exact h
  · exact hself

/-- The writer's first failure, latched at any await of a running leg. -/
theorem writerFails_inv {s : State} (failure : ℕ) (h : Inv s) (hrunning : s.await.isOver = false) :
    Inv { s with failure := s.failure.or (some failure) } := by
  have hkeep : ∀ first, s.failure = some first → s.failure.or (some failure) = some first := by
    intro first hfirst
    rw [hfirst]
    rfl
  have hcause : WriterCause s → WriterCause { s with failure := s.failure.or (some failure) } := by
    rintro ⟨first, hfirst, hraise⟩
    exact ⟨first, hkeep first hfirst, hraise⟩
  have hraising : ∀ raising, RaisingFacts s raising →
      RaisingFacts { s with failure := s.failure.or (some failure) } raising := by
    intro raising hfacts
    cases raising with
    | writerIngest first => exact hkeep first hfacts
    | _ => exact hfacts
  unfold Inv at h ⊢
  cases hawait : s.await with
  | joinNotification raising =>
    rw [hawait] at h
    exact ⟨h.1, hraising _ h.2⟩
  | joinFailureWait raising =>
    rw [hawait] at h
    cases raising with
    | none => exact h
    | some raising =>
      rcases h with ⟨hlive, hfacts⟩ | ⟨hdone, rfl | ⟨first, rfl, hfirst⟩⟩
      · exact .inl ⟨hlive, hraising _ hfacts⟩
      · exact .inr ⟨hdone, .inl rfl⟩
      · exact .inr ⟨hdone, .inr ⟨first, rfl, hkeep first hfirst⟩⟩
  | failedStop cancelled =>
    rw [hawait] at h
    exact ⟨h.1, hcause h.2⟩
  | failedBegin =>
    rw [hawait] at h
    exact ⟨h.1, hcause h.2⟩
  | raised raised => simp [hawait, Await.isOver] at hrunning
  | _ =>
    rw [hawait] at h
    exact h

theorem step_inv {s : State} {event : Event} (hrouted : ¬ Unrouted s event) (h : Inv s) :
    Inv (step s event) := by
  unfold step
  split
  · exact h
  · rename_i hrunning
    cases event with
    | settled => exact onSettled_inv h
    | writerCallFailed => exact onWriterCallFailed_inv h
    | payload bytes refused failing =>
      simp only
      split
      · rename_i hawait
        have hlive : Live s := by
          unfold Inv at h
          rw [hawait] at h
          exact h
        exact onPayload_inv hawait hlive hrouted
      · exact h
    | timeout => exact onTimeout_inv h
    | transportError system => exact onError_inv h (by cases system <;> rfl)
    | streamEnded =>
      simp only
      split
      · exact absurd ⟨‹_›, .inl rfl⟩ hrouted
      · exact h
    | failureWoke =>
      simp only
      split
      · rename_i hawait hfailure
        unfold Inv at h
        rw [hawait] at h
        exact ⟨h, hfailure⟩
      · exact h
    | cancel => exact onCancel_inv h
    | writerFails failure => exact writerFails_inv failure h (by simpa using hrunning)

theorem new_inv (start count : ℕ) (arena : Arena) (submitted : ℕ) :
    Inv (State.new start count arena submitted) := ⟨rfl, rfl, .inl ⟨rfl, rfl⟩⟩

/-- A READ leg whose steps never meet an unrouted error is stopped and settled before it raises,
a READ refused by a nonzero ACK before READ_BEGIN apart. -/
theorem failed_read_settled (start count : ℕ) (arena : Arena) (submitted : ℕ)
    (events : List Event)
    (hrouted : TransitionRuns.Along step (fun s event => ¬ Unrouted s event)
      (State.new start count arena submitted) events) (raised : Raised)
    (hraised : (run (State.new start count arena submitted) events).await = .raised raised) :
    Refused (run (State.new start count arena submitted) events) raised ∨
      Settled (run (State.new start count arena submitted) events) raised := by
  have hinv := TransitionRuns.run_invariant_along (fun _ _ hrouted h => step_inv hrouted h)
    (new_inv start count arena submitted) hrouted
  unfold Inv at hinv
  unfold run at hraised ⊢
  rw [hraised] at hinv
  exact hinv

/-- READ_BEGIN for record 5 alone, then an idle gap that times out. -/
def timedOut : List Event :=
  [.settled, .payload [0x05, 0, 0, 0, 0, 0, 0, 0, 5, 0, 0, 0, 1] false none, .timeout, .settled,
    .settled, .settled, .settled, .settled]

theorem failed_read_settled_timeout :
    Settled (run (State.new 5 1 ⟨5, 1, [], 0, 5, 0, 444⟩ 0) timedOut)
      (.interrupted (some .timeout)) := by
  have hresult := failed_read_settled 5 1 ⟨5, 1, [], 0, 5, 0, 444⟩ 0 timedOut
    (by simp [timedOut, TransitionRuns.Along, Unrouted, notifyAck]) (.interrupted (some .timeout))
    (by decide)
  exact hresult.resolve_left fun ⟨_, heq, _⟩ => by cases heq

/-- A nonzero ACK while receiving leaves the pendant streaming and the frontier as it is. -/
theorem nonzero_ack_while_receiving :
    ∃ events raised,
      (run (State.new 5 1 ⟨5, 1, [], 0, 5, 0, 444⟩ 0) events).await = .raised raised ∧
      (run (State.new 5 1 ⟨5, 1, [], 0, 5, 0, 444⟩ 0) events).readBegin = some .enqueued ∧
      (run (State.new 5 1 ⟨5, 1, [], 0, 5, 0, 444⟩ 0) events).failure = none ∧
      (run (State.new 5 1 ⟨5, 1, [], 0, 5, 0, 444⟩ 0) events).stops = 0 ∧
      ¬ Refused (run (State.new 5 1 ⟨5, 1, [], 0, 5, 0, 444⟩ 0) events) raised ∧
      ¬ Settled (run (State.new 5 1 ⟨5, 1, [], 0, 5, 0, 444⟩ 0) events) raised := by
  refine ⟨[.settled, .payload [0x05, 0, 0, 0, 0, 0, 0, 0, 5, 0, 0, 0, 1] false none,
    .payload [0x01, 9] false none, .settled], .unrouted (.acknowledgement 9), by decide, by decide,
    by decide, by decide, ?_, ?_⟩
  · rintro ⟨status, -, hbegin⟩
    revert hbegin
    decide
  · intro hsettled
    have hphase := hsettled.phase
    revert hphase
    decide

end ReadStops
