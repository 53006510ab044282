import Mathlib.Data.Nat.Basic

/-! The pure lifecycle rules of one batch, as `batch_machine` derives them from receipts and
command outcomes. -/
namespace BatchMachine

inductive Milestone where
  | retired
  | admitted
  | prefixDurable
  | fullDurable
  | sealed
  deriving DecidableEq, Repr

inductive Event where
  | sealRequest
  | seal
  | freshInfo
  | advanceAckInfo
  | advanceUncertain
  | writerClosed
  deriving DecidableEq, Repr

inductive CursorAction where
  | repeat
  | confirmed
  | ahead
  | regressed
  | expired
  deriving DecidableEq, Repr

inductive Command where
  | none
  | advance
  | close
  | retire
  | keep
  | reject
  deriving DecidableEq, Repr

structure Transition where
  milestone : Milestone
  command : Command
  deriving DecidableEq, Repr

/-- Classify only receipts already present on the live batch. -/
def deriveMilestone (start stop durableNext : Option ℕ) (isSealed : Bool) :
    Except String Milestone :=
  match start, stop with
  | some start, some stop =>
    match durableNext with
    | none => .error "batch receipts describe an impossible durable prefix"
    | some durable =>
      if stop < start ∨ ¬ (start ≤ durable ∧ durable ≤ stop) then
        .error "batch receipts describe an impossible durable prefix"
      else if isSealed then
        if durable ≠ stop then .error "batch cannot be sealed before its full prefix is durable"
        else .ok .sealed
      else if durable = stop then .ok .fullDurable
      else if start < durable then .ok .prefixDurable
      else .ok .admitted
  | none, none =>
    if durableNext.isSome ∨ isSealed then .error "retired batch cannot retain writer receipts"
    else .ok .retired
  | _, _ => .error "retired batch cannot retain writer receipts"

def cursorCommand : Event → CursorAction → Option Command
  | .freshInfo, .repeat => some .advance
  | .advanceAckInfo, .repeat => some .keep
  | .freshInfo, .regressed => some .reject
  | .freshInfo, .expired => some .reject
  | .advanceAckInfo, .regressed => some .reject
  | .advanceAckInfo, .expired => some .reject
  | .freshInfo, _ => some .close
  | .advanceAckInfo, _ => some .close
  | _, _ => none

def plainTransition : Milestone → Event → Option Transition
  | .fullDurable, .sealRequest => some ⟨.fullDurable, .none⟩
  | .fullDurable, .seal => some ⟨.sealed, .none⟩
  | .sealed, .advanceUncertain => some ⟨.sealed, .keep⟩
  | .sealed, .writerClosed => some ⟨.retired, .retire⟩
  | _, _ => none

/-- Validate one lifecycle event and return its only legal next action. -/
def transition (milestone : Milestone) (event : Event) (cursor : Option CursorAction) :
    Except String Transition :=
  if event = .freshInfo ∨ event = .advanceAckInfo then
    match cursor with
    | none => .error "cursor classification is required"
    | some action =>
      match cursorCommand event action with
      | none => .error "invalid batch transition"
      | some command =>
        if milestone = .sealed then .ok ⟨milestone, command⟩
        else .error "invalid batch transition"
  else if cursor.isSome then .error "unknown cursor classification"
  else
    match plainTransition milestone event with
    | none => .error "invalid batch transition"
    | some result => .ok result

/-! ## One READ -/

inductive ReadPhase where
  | awaitBegin
  | receiving
  | done
  | stopping
  | exited
  deriving DecidableEq, Repr

inductive ReadEvent where
  | ack
  | begun
  | data
  | done
  | writerFailed
  | readFailed
  | cancelled
  | stopSettled
  | barrierOk
  | barrierFailed
  deriving DecidableEq, Repr

inductive ReadAction where
  | consume
  | barrier
  | stop
  | latchFailure
  | latchCancellation
  | propagate
  | complete
  | reject
  | ignore
  deriving DecidableEq, Repr

structure ReadDecision where
  nextPhase : ReadPhase
  action : ReadAction
  reason : String
  deriving DecidableEq, Repr

/-- The explicit decision for one read lifecycle cell. -/
def readTransition : ReadPhase → ReadEvent → ReadDecision
  | .awaitBegin, .ack => ⟨.awaitBegin, .consume, "acknowledged before read begin"⟩
  | .awaitBegin, .begun => ⟨.receiving, .consume, "read began"⟩
  | .awaitBegin, .data => ⟨.awaitBegin, .reject, "data arrived before read begin"⟩
  | .awaitBegin, .done => ⟨.awaitBegin, .reject, "done arrived before read begin"⟩
  | .awaitBegin, .writerFailed => ⟨.stopping, .stop, "writer failed before read began"⟩
  | .awaitBegin, .readFailed => ⟨.stopping, .stop, "read failed before read began"⟩
  | .awaitBegin, .cancelled => ⟨.stopping, .stop, "read cancelled before read began"⟩
  | .awaitBegin, .stopSettled => ⟨.awaitBegin, .reject, "stop settled before stopping"⟩
  | .awaitBegin, .barrierOk => ⟨.awaitBegin, .reject, "barrier completed before read"⟩
  | .awaitBegin, .barrierFailed => ⟨.awaitBegin, .reject, "barrier failed before read"⟩
  | .receiving, .ack => ⟨.receiving, .consume, "acknowledged while receiving"⟩
  | .receiving, .begun => ⟨.receiving, .reject, "duplicate read begin"⟩
  | .receiving, .data => ⟨.receiving, .consume, "data received"⟩
  | .receiving, .done => ⟨.done, .barrier, "read completed; await barrier"⟩
  | .receiving, .writerFailed => ⟨.stopping, .stop, "writer failed while receiving"⟩
  | .receiving, .readFailed => ⟨.stopping, .stop, "read failed while receiving"⟩
  | .receiving, .cancelled => ⟨.stopping, .stop, "read cancelled while receiving"⟩
  | .receiving, .stopSettled => ⟨.receiving, .reject, "stop settled before stopping"⟩
  | .receiving, .barrierOk => ⟨.receiving, .reject, "barrier completed while receiving"⟩
  | .receiving, .barrierFailed => ⟨.receiving, .reject, "barrier failed while receiving"⟩
  | .done, .ack => ⟨.done, .reject, "late acknowledgement after read completion"⟩
  | .done, .begun => ⟨.done, .reject, "read begin repeated after completion"⟩
  | .done, .data => ⟨.done, .reject, "data arrived after read completion"⟩
  | .done, .done => ⟨.done, .reject, "duplicate read completion"⟩
  | .done, .writerFailed => ⟨.exited, .propagate, "writer failed after read completion"⟩
  | .done, .readFailed => ⟨.done, .reject, "late read failure after completion"⟩
  | .done, .cancelled => ⟨.exited, .propagate, "read cancelled after completion"⟩
  | .done, .stopSettled => ⟨.done, .reject, "stop settled before barrier"⟩
  | .done, .barrierOk => ⟨.exited, .complete, "barrier completed"⟩
  | .done, .barrierFailed => ⟨.exited, .propagate, "barrier failed"⟩
  | .stopping, .ack => ⟨.stopping, .ignore, "late acknowledgement while stopping"⟩
  | .stopping, .begun => ⟨.stopping, .ignore, "late read begin while stopping"⟩
  | .stopping, .data => ⟨.stopping, .ignore, "late data while stopping"⟩
  | .stopping, .done => ⟨.stopping, .ignore, "late read completion while stopping"⟩
  | .stopping, .writerFailed => ⟨.stopping, .latchFailure, "writer failure already latched"⟩
  | .stopping, .readFailed => ⟨.stopping, .ignore, "read failure already latched"⟩
  | .stopping, .cancelled =>
    ⟨.stopping, .latchCancellation, "retain cancellation while stop settles"⟩
  | .stopping, .stopSettled => ⟨.exited, .propagate, "stop settled after failure"⟩
  | .stopping, .barrierOk => ⟨.stopping, .reject, "barrier completion while stopping"⟩
  | .stopping, .barrierFailed => ⟨.stopping, .reject, "barrier failure while stopping"⟩
  | .exited, .ack => ⟨.exited, .reject, "acknowledgement after read exit"⟩
  | .exited, .begun => ⟨.exited, .reject, "read begin after read exit"⟩
  | .exited, .data => ⟨.exited, .reject, "data after read exit"⟩
  | .exited, .done => ⟨.exited, .reject, "read completion after read exit"⟩
  | .exited, .writerFailed => ⟨.exited, .ignore, "writer failure after read exit"⟩
  | .exited, .readFailed => ⟨.exited, .ignore, "read failure after read exit"⟩
  | .exited, .cancelled => ⟨.exited, .ignore, "cancellation after read exit"⟩
  | .exited, .stopSettled => ⟨.exited, .ignore, "stop settlement after read exit"⟩
  | .exited, .barrierOk => ⟨.exited, .ignore, "barrier completion after read exit"⟩
  | .exited, .barrierFailed => ⟨.exited, .ignore, "barrier failure after read exit"⟩

/-! ## What the batch rules decide -/

/-- A destructive command is decided only for a sealed batch that the cursor is inside. -/
theorem transition_advance {milestone : Milestone} {action : CursorAction} {result : Transition}
    (h : transition milestone .freshInfo (some action) = .ok result)
    (hadvance : result.command = .advance) : milestone = .sealed ∧ action = .repeat := by
  unfold transition at h
  rw [if_pos (.inl rfl)] at h
  cases action <;> simp only [cursorCommand] at h <;> split at h <;>
    first
      | (obtain rfl := Except.ok.inj h; simp_all)
      | simp at h

theorem transition_writerClosed {milestone : Milestone} {result : Transition}
    (h : transition milestone .writerClosed none = .ok result) : milestone = .sealed := by
  cases milestone <;> simp [transition, plainTransition] at h
  rfl

theorem deriveMilestone_sealed {start stop : ℕ} {durableNext : Option ℕ} {isSealed : Bool}
    (h : deriveMilestone (some start) (some stop) durableNext isSealed = .ok .sealed) :
    isSealed = true ∧ durableNext = some stop ∧ start ≤ stop := by
  unfold deriveMilestone at h
  cases durableNext with
  | none => simp at h
  | some durable =>
    simp only at h
    split at h
    · simp at h
    · rename_i hbounds
      split at h
      · rename_i hsealed
        split at h
        · simp at h
        · rename_i hfull
          exact ⟨hsealed, by rw [not_not.mp hfull], not_lt.mp fun hlt => hbounds (.inl hlt)⟩
      · split at h
        · simp at h
        · split at h <;> simp at h

end BatchMachine
