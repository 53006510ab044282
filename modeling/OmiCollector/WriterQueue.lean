import OmiCollector.AttemptWriter
import Mathlib.Data.List.Perm.Basic
import Mathlib.Data.List.Range

/-! The commands of an attempt writer: each admitted future is completed once, a close comes
last, and after the first failure the target only sees a close. -/
namespace WriterQueue

open AttemptWriter
open WriterMachine (failureOf isClosing transition)

variable {ε ν : Type}

/-! ## What the event loop can do -/

theorem publish_cases {arena : List UInt8} {w w' : AttemptWriter.Writer ε ν} {highWater : ℕ}
    {tail : List UInt8} {moved : Bool} (h : publish arena w highWater tail = .ok (w', moved)) :
    w' = w ∨ (highWater ≤ arena.length ∧ highWater % recordSize = 0 ∧ tail.length < recordSize ∧
      slice arena highWater tail.length = tail ∧ w.published ≤ highWater ∧
      w' = { w with published := highWater, publishedTail := tail, wake := true }) := by
  unfold publish at h
  split at h
  · simp at h
  rename_i hinside
  split at h
  · simp at h
  rename_i haligned
  split at h
  · simp at h
  rename_i hshort
  split at h
  · simp at h
  split at h
  · simp at h
  rename_i hslice
  split at h
  · simp at h
  split at h
  · simp only [Except.ok.injEq, Prod.mk.injEq] at h
    exact .inl h.1.symm
  rename_i hmonotone
  split at h
  · simp at h
  split at h
  · simp only [Except.ok.injEq, Prod.mk.injEq] at h
    exact .inl h.1.symm
  simp only [Except.ok.injEq, Prod.mk.injEq] at h
  exact .inr ⟨not_lt.mp hinside, not_not.mp haligned, not_le.mp hshort, not_not.mp hslice,
    not_lt.mp hmonotone, h.1.symm⟩

theorem admit_cases {config : WriterConfig} {w w' : AttemptWriter.Writer ε ν} {request : Request ν}
    {future : Option ℕ} (h : admitRequest config w request = .ok (w', future)) :
    w' = w ∨ ((transition w.state request.event).directive = .admitRequest ∧
      w' = { w with
        commands := w.commands ++ [⟨request.command w.published w.publishedTail, w.nextFuture⟩]
        state := (transition w.state request.event).state
        closePending := if request.isClose then some w.nextFuture else w.closePending
        sealPending := if request.isSealing then some w.nextFuture else w.sealPending
        wake := true
        nextFuture := w.nextFuture + 1 }) := by
  unfold admitRequest at h
  simp only at h
  split at h
  · simp at h
  · simp only [Except.ok.injEq, Prod.mk.injEq] at h
    exact .inl h.1.symm
  · simp only [Except.ok.injEq, Prod.mk.injEq] at h
    exact .inl h.1.symm
  · rename_i hadmitted
    split at h
    · simp at h
    · simp only [Except.ok.injEq, Prod.mk.injEq] at h
      exact .inr ⟨hadmitted, h.1.symm⟩

@[simp] theorem isClose_command (request : Request ν) (highWater : ℕ) (tail : List UInt8) :
    (request.command highWater tail).isClose = request.isClose := by
  cases request <;> rfl

theorem event_isFailureEvent (request : Request ν) :
    WriterMachine.isFailureEvent (request.event : WriterMachine.Event ε) = none := by
  cases request <;> rfl

theorem successEvent_isFailureEvent (command : Command ν) :
    WriterMachine.isFailureEvent (command.successEvent : WriterMachine.Event ε) = none := by
  cases command <;> rfl

/-! ## The queue -/

def Owner.popped : Owner ν → List (Pending ν)
  | .idle => []
  | .command pending => [pending]

/-- The command the worker took from the queue and has not completed. -/
def popped : Worker ε ν → List (Pending ν)
  | .drain owner | .draining owner _ | .appended owner _ _ _ | .tailAppended owner _
  | .recording owner _ | .flushing owner _ _ => Owner.popped owner
  | .commandCheck pending | .closeCheck pending | .calling pending | .succeeded pending _
  | .remember pending _ | .completing pending _ => [pending]
  | _ => []

/-- The queued commands that a failure took out to complete. -/
def flushed : Worker ε ν → List (Pending ν)
  | .flushing _ items _ => items
  | _ => []

/-- The admitted commands that are not completed, in order. -/
def outstanding (w : AttemptWriter.Writer ε ν) : List (Pending ν) :=
  popped w.worker ++ (flushed w.worker ++ w.commands)

/-- Nothing comes after a close. -/
def CloseLast (queue : List (Pending ν)) : Prop :=
  queue.Pairwise fun earlier _ => earlier.command.isClose = false

structure QueueInv (w : AttemptWriter.Writer ε ν) : Prop where
  futures : (w.completions.map Prod.fst ++ (outstanding w).map Pending.future).Perm
    (List.range w.nextFuture)
  closeLast : CloseLast (outstanding w)
  closing : ∀ pending ∈ outstanding w, pending.command.isClose = true → isClosing w.state = true
  exited : w.worker = .exited → isClosing w.state = true ∧ w.commands = []

/-- What a step of the worker does to the queue: nothing, or it completes one command. -/
inductive QueueStep (w w' : AttemptWriter.Writer ε ν) : Prop where
  | same (houtstanding : outstanding w' = outstanding w)
      (hcompletions : w'.completions = w.completions) (hfuture : w'.nextFuture = w.nextFuture)
      (hclosing : isClosing w.state = true → isClosing w'.state = true)
      (hexited : w'.worker = .exited → isClosing w'.state = true ∧ w'.commands = [])
  | complete {before after : List (Pending ν)} {pending : Pending ν} {outcome : Except ε Result}
      (hout : outstanding w = before ++ pending :: after)
      (hout' : outstanding w' = before ++ after)
      (hcompletions : w'.completions = (pending.future, outcome) :: w.completions)
      (hfuture : w'.nextFuture = w.nextFuture) (hstate : w'.state = w.state)
      (hexited : w'.worker = .exited → isClosing w'.state = true ∧ w'.commands = [])

theorem QueueStep.mem {w w' : AttemptWriter.Writer ε ν} (h : QueueStep w w') {pending : Pending ν}
    (hmem : pending ∈ outstanding w') : pending ∈ outstanding w := by
  cases h with
  | same houtstanding => rwa [houtstanding] at hmem
  | complete hout hout' =>
    rw [hout'] at hmem
    rw [hout]
    rcases List.mem_append.mp hmem with hmem | hmem
    · exact List.mem_append_left _ hmem
    · exact List.mem_append_right _ (List.mem_cons_of_mem _ hmem)

theorem QueueStep.queueInv {w w' : AttemptWriter.Writer ε ν} (hstep : QueueStep w w') (h : QueueInv w) :
    QueueInv w' := by
  have hmem : ∀ pending ∈ outstanding w', pending ∈ outstanding w := fun _ => hstep.mem
  cases hstep with
  | same houtstanding hcompletions hfuture hclosing hexited =>
    refine ⟨?_, ?_, fun pending hpending hclose => ?_, hexited⟩
    · rw [houtstanding, hcompletions, hfuture]
      exact h.futures
    · rw [houtstanding]
      exact h.closeLast
    · exact hclosing (h.closing pending (hmem pending hpending) hclose)
  | @complete before after pending outcome hout hout' hcompletions hfuture hstate hexited =>
    refine ⟨?_, ?_, fun other hother hclose => ?_, hexited⟩
    · rw [hout', hcompletions, hfuture]
      refine List.Perm.trans ?_ h.futures
      rw [hout]
      simp only [List.map_cons, List.map_append, List.cons_append, ← List.append_assoc]
      exact List.perm_middle.symm
    · have hlast := h.closeLast
      rw [CloseLast, hout] at hlast
      rw [CloseLast, hout']
      exact hlast.sublist ((List.sublist_cons_self pending after).append_left before)
    · rw [hstate]
      exact h.closing other (hmem other hother) hclose

theorem QueueInv.after_close {w : AttemptWriter.Writer ε ν} (h : QueueInv w) {pending : Pending ν}
    {rest : List (Pending ν)} (hout : outstanding w = pending :: rest)
    (hclose : pending.command.isClose = true) : rest = [] := by
  have hlast := h.closeLast
  rw [CloseLast, hout, List.pairwise_cons] at hlast
  cases rest with
  | nil => rfl
  | cons other rest => simp [hlast.1 other List.mem_cons_self] at hclose

theorem publish_queueInv {arena : List UInt8} {w w' : AttemptWriter.Writer ε ν} {highWater : ℕ}
    {tail : List UInt8} {moved : Bool} (h : QueueInv w)
    (hpublish : publish arena w highWater tail = .ok (w', moved)) : QueueInv w' := by
  obtain rfl | ⟨-, -, -, -, -, rfl⟩ := publish_cases hpublish
  · exact h
  · exact ⟨h.futures, h.closeLast, h.closing, h.exited⟩

theorem admit_queueInv {config : WriterConfig} {w w' : AttemptWriter.Writer ε ν} {request : Request ν}
    {future : Option ℕ} (h : QueueInv w) (hadmitted : admitRequest config w request = .ok (w', future)) :
    QueueInv w' := by
  obtain rfl | ⟨hdirective, rfl⟩ := admit_cases hadmitted
  · exact h
  have hopen := (WriterMachine.transition_admits hdirective).1
  have hnone : ∀ pending ∈ outstanding w, pending.command.isClose = false := by
    intro pending hmem
    by_contra hclose
    simp [h.closing pending hmem (by simpa using hclose)] at hopen
  have hfutures : (w.completions.map Prod.fst ++ (outstanding w ++
      [(⟨request.command w.published w.publishedTail, w.nextFuture⟩ : Pending ν)]).map
        Pending.future).Perm (List.range (w.nextFuture + 1)) := by
    rw [List.map_append, ← List.append_assoc, List.range_succ]
    exact h.futures.append_right _
  have hlast : CloseLast (outstanding w ++
      [⟨request.command w.published w.publishedTail, w.nextFuture⟩]) :=
    List.pairwise_append.mpr ⟨h.closeLast, List.pairwise_singleton _ _,
      fun pending hmem _ _ => hnone pending hmem⟩
  refine ⟨?_, ?_, ?_, ?_⟩
  · simpa [outstanding, List.append_assoc] using hfutures
  · simpa [outstanding, List.append_assoc] using hlast
  · intro pending hmem hclose
    have hcases : pending ∈ outstanding w ∨
        pending = ⟨request.command w.published w.publishedTail, w.nextFuture⟩ := by
      simpa [outstanding, or_assoc] using hmem
    rcases hcases with hmem | rfl
    · simp [hnone pending hmem] at hclose
    · cases request <;>
        first
          | exact WriterMachine.transition_closeRequested_isClosing _
          | simp [Request.isClose] at hclose
  · intro hexited
    simp [(h.exited hexited).1] at hopen

/-- The worker goes on with the command it holds, if it holds one. -/
theorem QueueStep.move {w w' : AttemptWriter.Writer ε ν} (hcommands : w'.commands = w.commands)
    (hcompletions : w'.completions = w.completions) (hfuture : w'.nextFuture = w.nextFuture)
    (hclosing : isClosing w.state = true → isClosing w'.state = true)
    (hpopped : popped w'.worker = popped w.worker) (hflushed : flushed w'.worker = flushed w.worker)
    (hrunning : w'.worker ≠ .exited) : QueueStep w w' :=
  .same (by rw [outstanding, outstanding, hpopped, hflushed, hcommands]) hcompletions hfuture hclosing
    fun hexited => absurd hexited hrunning

theorem called_queueStep {w : AttemptWriter.Writer ε ν} (call : Call ν) (answer : Except ε Result)
    (ok : Result → Worker ε ν) (failed : ε → Worker ε ν)
    (hok : ∀ result, popped (ok result) = popped w.worker ∧ flushed (ok result) = flushed w.worker ∧
      ok result ≠ .exited)
    (hfailed : ∀ error, popped (failed error) = popped w.worker ∧
      flushed (failed error) = flushed w.worker ∧ failed error ≠ .exited) :
    QueueStep w (w.called call answer ok failed) := by
  cases answer with
  | ok result => exact .move rfl rfl rfl id (hok result).1 (hok result).2.1 (hok result).2.2
  | error error =>
    exact .move rfl rfl rfl id (hfailed error).1 (hfailed error).2.1 (hfailed error).2.2

theorem recordFailure_cases (w : AttemptWriter.Writer ε ν) (owner : Owner ν) (error : ε) :
    ∃ latched, failureOf (recordFailure w owner error).state = some latched ∧
      latched = (failureOf w.state).getD error ∧
      (isClosing w.state = true → isClosing (recordFailure w owner error).state = true) ∧
      recordFailure w owner error = { w with
        state := (recordFailure w owner error).state
        commands := []
        worker := .flushing owner w.commands latched } := by
  have hfailure := WriterMachine.transition_failureOf w.state
    (if owner.closeFailed then .closeFailed error else .commandFailed error)
  have hlatched : (failureOf w.state).or (WriterMachine.isFailureEvent
      (if owner.closeFailed then .closeFailed error else .commandFailed error)) =
      some ((failureOf w.state).getD error) := by
    cases failureOf w.state <;> cases owner.closeFailed <;> rfl
  rw [hlatched] at hfailure
  refine ⟨_, ?_, rfl, ?_, ?_⟩
  · simp only [recordFailure, hfailure]
  · intro hclosing
    simp only [recordFailure, hfailure]
    exact WriterMachine.transition_isClosing _ hclosing
  · simp only [recordFailure, hfailure]

theorem flush_queueStep {w : AttemptWriter.Writer ε ν} (h : QueueInv w) {owner : Owner ν}
    {items : List (Pending ν)} {latched : ε} (hworker : w.worker = .flushing owner items latched) :
    QueueStep w (flush w owner items latched) := by
  have hafter : popped (afterFailure owner latched) = Owner.popped owner ∧
      flushed (afterFailure owner latched) = [] ∧ afterFailure owner latched ≠ .exited := by
    cases owner <;> simp [afterFailure, popped, flushed, Owner.popped]
  have hout : outstanding w = Owner.popped owner ++ (items ++ w.commands) := by
    simp [outstanding, hworker, popped, flushed]
  cases items with
  | nil =>
    exact .move rfl rfl rfl id (by rw [hworker]; exact hafter.1) (by rw [hworker]; exact hafter.2.1)
      hafter.2.2
  | cons item rest =>
    unfold flush
    simp only
    split
    · rename_i hclose
      -- a close ends the queue, so nothing is left behind it
      have hempty : rest ++ w.commands = [] := by
        have hlast := h.closeLast
        rw [CloseLast, hout, List.cons_append, List.pairwise_append, List.pairwise_cons] at hlast
        cases hrest : rest ++ w.commands with
        | nil => rfl
        | cons other tail =>
          have hopen := hlast.2.1.1 other (by simp [hrest])
          simp [hopen] at hclose
      obtain ⟨rfl, hcommands⟩ := List.append_eq_nil_iff.mp hempty
      refine .same ?_ rfl rfl id fun hexited => absurd hexited hafter.2.2
      rw [hout]
      simp [outstanding, hafter.1, hafter.2.1]
    · exact .complete (by rw [hout]; rfl) rfl rfl rfl rfl fun hexited => by cases hexited

theorem drained_queue (owner : Owner ν) (wrote : Bool) :
    popped (drained owner wrote : Worker ε ν) = Owner.popped owner ∧
      flushed (drained owner wrote : Worker ε ν) = [] ∧
      (drained owner wrote : Worker ε ν) ≠ .exited := by
  cases owner <;> cases wrote <;> simp [drained, popped, flushed, Owner.popped]

/-- A recorded success goes on to the completion, perhaps through the durable receipt. -/
theorem recordSuccess_cases (w : AttemptWriter.Writer ε ν) (pending : Pending ν) (result : Result) :
    (recordSuccess w pending result).state =
        (transition w.state pending.command.successEvent).state ∧
      ((recordSuccess w pending result).worker = .completing pending (settledOutcome
          (transition w.state pending.command.successEvent).state result) ∨
        (recordSuccess w pending result).worker = .remember pending result) ∧
      ∃ sealResult, recordSuccess w pending result = { w with
        state := (recordSuccess w pending result).state
        sealResult := sealResult
        worker := (recordSuccess w pending result).worker } := by
  unfold recordSuccess
  simp only
  split
  · exact ⟨rfl, .inl rfl, some result, rfl⟩
  · refine ⟨rfl, ?_, w.sealResult, rfl⟩
    dsimp only
    split
    · exact .inl rfl
    · exact .inr rfl
  · refine ⟨rfl, ?_, w.sealResult, rfl⟩
    dsimp only
    split
    · exact .inl rfl
    · exact .inr rfl
  · exact ⟨rfl, .inl rfl, w.sealResult, rfl⟩

theorem recordSuccess_queueStep {w : AttemptWriter.Writer ε ν} {pending : Pending ν}
    {result : Result} (hworker : w.worker = .succeeded pending result) :
    QueueStep w (recordSuccess w pending result) := by
  obtain ⟨hstate, hnext, sealResult, heq⟩ := recordSuccess_cases w pending result
  have hqueue : popped (recordSuccess w pending result).worker = [pending] ∧
      flushed (recordSuccess w pending result).worker = [] ∧
      (recordSuccess w pending result).worker ≠ .exited := by
    rcases hnext with hnext | hnext <;> rw [hnext] <;> exact ⟨rfl, rfl, by simp⟩
  rw [heq]
  refine .move rfl rfl rfl ?_ (by rw [hworker]; exact hqueue.1) (by rw [hworker]; exact hqueue.2.1)
    hqueue.2.2
  intro hclosing
  rw [hstate]
  exact WriterMachine.transition_isClosing _ hclosing

theorem worker_queueStep {w : AttemptWriter.Writer ε ν} (config : WriterConfig) (arena : List UInt8)
    (answer : Except ε Result) (h : QueueInv w) : QueueStep w (workerStep config arena w answer) := by
  have hself : QueueStep w w := .same rfl rfl rfl id h.exited
  -- the worker keeps what it holds: its place before and after names the same commands
  have hgoto : ∀ worker, popped worker = popped w.worker → flushed worker = flushed w.worker →
      worker ≠ .exited → QueueStep w (w.goto worker) := fun _ hpopped hflushed hrunning =>
    .move rfl rfl rfl id hpopped hflushed hrunning
  unfold workerStep
  split <;> rename_i hworker <;> simp only [hworker] at hgoto
  · unfold nextCommand
    split
    · exact hgoto _ rfl rfl (by simp)
    · rename_i pending rest hcommands
      exact .same (by simp [outstanding, hworker, popped, flushed, hcommands]) rfl rfl id (by simp)
  · unfold idleCheck
    split <;> exact hgoto _ rfl rfl (by simp)
  · split
    · exact hgoto _ rfl rfl (by simp)
    · exact hself
  · exact .move rfl rfl rfl id (by rw [hworker]; rfl) (by rw [hworker]; rfl) (by simp)
  · unfold startDrain
    split
    · exact hgoto _ rfl rfl (by simp)
    · split <;> exact hgoto _ rfl rfl (by simp)
  · rename_i owner d
    obtain ⟨hpopped, hflushed, hrunning⟩ := drained_queue (ε := ε) owner d.wrote
    unfold draining
    split
    · exact called_queueStep _ answer _ _ (fun _ => by rw [hworker]; exact ⟨rfl, rfl, by simp⟩)
        fun _ => by rw [hworker]; exact ⟨rfl, rfl, by simp⟩
    · split
      · exact called_queueStep _ answer _ _ (fun _ => by rw [hworker]; exact ⟨rfl, rfl, by simp⟩)
          fun _ => by rw [hworker]; exact ⟨rfl, rfl, by simp⟩
      · exact hgoto _ hpopped hflushed hrunning
  · exact .move rfl rfl rfl id (by rw [hworker]; rfl) (by rw [hworker]; rfl)
      (by simp [recordAppended])
  · rename_i owner d
    obtain ⟨hpopped, hflushed, hrunning⟩ := drained_queue (ε := ε) owner true
    exact .move rfl rfl rfl id (by rw [hworker]; exact hpopped) (by rw [hworker]; exact hflushed)
      hrunning
  · unfold commandCheck
    split
    · exact hgoto _ rfl rfl (by simp)
    · exact hgoto _ rfl rfl (by simp)
    · split <;> exact hgoto _ rfl rfl (by simp)
  · unfold closeCheck
    split <;> exact hgoto _ rfl rfl (by simp)
  · exact called_queueStep _ answer _ _ (fun _ => by rw [hworker]; exact ⟨rfl, rfl, by simp⟩)
      fun _ => by rw [hworker]; exact ⟨rfl, rfl, by simp⟩
  · exact recordSuccess_queueStep hworker
  · exact .move rfl rfl rfl id (by rw [hworker]; rfl) (by rw [hworker]; rfl)
      (by simp [rememberDurable])
  · rename_i pending outcome
    have hout : outstanding w = [] ++ pending :: w.commands := by
      simp [outstanding, hworker, popped, flushed]
    refine .complete hout ?_ rfl rfl rfl ?_
    · cases hclose : pending.command.isClose <;>
        simp [outstanding, AttemptWriter.Writer.goto, AttemptWriter.Writer.complete, popped, flushed]
    · intro hexited
      cases hclose : pending.command.isClose with
      | false => simp [AttemptWriter.Writer.goto, hclose] at hexited
      | true =>
        exact ⟨h.closing pending (by simp [hout]) hclose, h.after_close hout hclose⟩
  · rename_i owner error
    obtain ⟨latched, -, -, hclosing, heq⟩ := recordFailure_cases w owner error
    rw [heq]
    exact .same (by simp [outstanding, hworker, popped, flushed]) rfl rfl hclosing (by simp)
  · exact flush_queueStep h hworker
  · exact hself

theorem step_queueInv {w : AttemptWriter.Writer ε ν} (config : WriterConfig) (arena : List UInt8)
    (event : Event ε ν) (h : QueueInv w) : QueueInv (step config arena w event) := by
  unfold step
  split
  · split
    · exact publish_queueInv h ‹_›
    · exact h
  · split
    · exact admit_queueInv h ‹_›
    · exact h
  · exact (worker_queueStep config arena _ h).queueInv h

theorem new_queueInv : QueueInv (AttemptWriter.Writer.new : AttemptWriter.Writer ε ν) :=
  ⟨List.Perm.refl _, List.Pairwise.nil, by simp [outstanding, AttemptWriter.Writer.new, popped, flushed],
    by simp [AttemptWriter.Writer.new]⟩

/-! ## The first failure -/

/-- The first error that the target answered with. -/
def firstError : List (Called ε ν) → Option ε
  | [] => none
  | called :: older => (firstError older).or called.error

/-- After an error the target is only asked to close. -/
def ClosesAfterError : List (Called ε ν) → Prop
  | [] => True
  | called :: older => ClosesAfterError older ∧ (firstError older = none ∨ called.call = .close)

/-- What the worker's place says about the failure: it only works on for a healthy writer. -/
def FailureFacts (failure : Option ε) : Worker ε ν → Prop
  | .drain _ | .draining _ _ | .appended _ _ _ _ | .tailAppended _ _ => failure = none
  | .calling pending => pending.command.isClose = false → failure = none
  | .closeCheck pending => pending.command.isClose = true
  | .flushing _ _ latched => failure = some latched
  | _ => True

/-- The failure that the state retains once the worker recorded its error. -/
def retained (failure : Option ε) : Worker ε ν → Option ε
  | .recording _ error => failure.or (some error)
  | _ => failure

structure FailureInv (w : AttemptWriter.Writer ε ν) : Prop where
  first : firstError w.calls = retained (failureOf w.state) w.worker
  closes : ClosesAfterError w.calls
  facts : FailureFacts (failureOf w.state) w.worker

/-- Work that keeps the calls and the failure only has to keep to the worker's place. -/
theorem FailureInv.move {w w' : AttemptWriter.Writer ε ν} (h : FailureInv w) (hcalls : w'.calls = w.calls)
    (hstate : failureOf w'.state = failureOf w.state)
    (hretained : retained (failureOf w.state) w'.worker = retained (failureOf w.state) w.worker)
    (hfacts : FailureFacts (failureOf w.state) w'.worker) : FailureInv w' where
  first := by rw [hcalls, h.first, hstate, hretained]
  closes := by rw [hcalls]; exact h.closes
  facts := by rw [hstate]; exact hfacts

theorem called_failureInv {w : AttemptWriter.Writer ε ν} (h : FailureInv w) {call : Call ν}
    (answer : Except ε Result) {ok : Result → Worker ε ν} {failed : ε → Worker ε ν}
    (hnow : retained (failureOf w.state) w.worker = failureOf w.state)
    (hcall : failureOf w.state = none ∨ call = .close)
    (hok : ∀ result, retained (failureOf w.state) (ok result) = failureOf w.state ∧
      FailureFacts (failureOf w.state) (ok result))
    (hfailed : ∀ error, ∃ owner, failed error = .recording owner error) :
    FailureInv (w.called call answer ok failed) := by
  have hfirst := h.first.trans hnow
  have hcloses : ClosesAfterError w.calls ∧ (firstError w.calls = none ∨ call = .close) :=
    ⟨h.closes, hfirst ▸ hcall⟩
  cases answer with
  | ok result =>
    refine ⟨?_, hcloses, (hok result).2⟩
    simp only [AttemptWriter.Writer.called, firstError, hfirst, Option.or_none]
    exact (hok result).1.symm
  | error error =>
    obtain ⟨owner, hrecording⟩ := hfailed error
    refine ⟨?_, hcloses, ?_⟩
    · simp only [AttemptWriter.Writer.called, firstError, hfirst, retained, hrecording]
    · simp [AttemptWriter.Writer.called, hrecording, FailureFacts]

theorem admit_failureInv {config : WriterConfig} {w w' : AttemptWriter.Writer ε ν} {request : Request ν}
    {future : Option ℕ} (h : FailureInv w) (hadmitted : admitRequest config w request = .ok (w', future)) :
    FailureInv w' := by
  obtain rfl | ⟨-, rfl⟩ := admit_cases hadmitted
  · exact h
  · refine h.move rfl ?_ rfl h.facts
    rw [WriterMachine.transition_failureOf, event_isFailureEvent, Option.or_none]

theorem drained_facts {failure : Option ε} (owner : Owner ν) (wrote : Bool)
    (h : failure = none) : FailureFacts failure (drained owner wrote : Worker ε ν) ∧
      retained failure (drained owner wrote : Worker ε ν) = failure := by
  cases owner <;> cases wrote <;> simp [drained, FailureFacts, retained, h]

theorem isClose_call {command : Command ν} (h : command.isClose = true) : command.call = .close := by
  cases command <;> first | rfl | simp [Command.isClose] at h

theorem flush_failureInv {w : AttemptWriter.Writer ε ν} (h : FailureInv w) {owner : Owner ν}
    {items : List (Pending ν)} {latched : ε} (hworker : w.worker = .flushing owner items latched) :
    FailureInv (flush w owner items latched) := by
  have hlatched : failureOf w.state = some latched := by simpa [hworker, FailureFacts] using h.facts
  have hafter : FailureFacts (failureOf w.state) (afterFailure owner latched) ∧
      retained (failureOf w.state) (afterFailure owner latched) = failureOf w.state := by
    cases owner <;> simp [afterFailure, FailureFacts, retained]
  unfold flush
  split
  · exact h.move rfl rfl (by rw [hworker]; exact hafter.2) hafter.1
  · split
    · exact h.move rfl rfl (by rw [hworker]; exact hafter.2) hafter.1
    · exact h.move rfl rfl (by rw [hworker]; rfl) hlatched

theorem worker_failureInv {w : AttemptWriter.Writer ε ν} (config : WriterConfig) (arena : List UInt8)
    (answer : Except ε Result) (h : FailureInv w) :
    FailureInv (workerStep config arena w answer) := by
  have hfacts := h.facts
  unfold workerStep
  split <;> rename_i hworker <;> rw [hworker] at hfacts
  · unfold nextCommand
    split <;> exact h.move rfl rfl (by rw [hworker]; rfl) trivial
  · unfold idleCheck
    split
    · rename_i hreading
      exact h.move rfl rfl (by rw [hworker]; rfl) (by rw [hreading]; rfl)
    · exact h.move rfl rfl (by rw [hworker]; rfl) trivial
  · split
    · exact h.move rfl rfl (by rw [hworker]; rfl) trivial
    · exact h
  · exact h.move rfl rfl (by rw [hworker]; rfl) trivial
  · unfold startDrain
    split
    · exact h.move rfl rfl (by rw [hworker]; rfl) hfacts
    · split
      · exact h.move rfl rfl (by rw [hworker]; rfl) hfacts
      · exact h.move rfl rfl (by rw [hworker]; rfl) fun _ => hfacts
  · rename_i owner d
    have hnow : retained (failureOf w.state) w.worker = failureOf w.state := by rw [hworker]; rfl
    unfold draining
    split
    · exact called_failureInv h answer hnow (.inl hfacts) (fun _ => ⟨rfl, hfacts⟩)
        fun _ => ⟨owner, rfl⟩
    · split
      · exact called_failureInv h answer hnow (.inl hfacts) (fun _ => ⟨rfl, hfacts⟩)
          fun _ => ⟨owner, rfl⟩
      · have hdrained := drained_facts owner d.wrote hfacts
        exact h.move rfl rfl (hdrained.2.trans hnow.symm) hdrained.1
  · exact h.move rfl rfl (by rw [hworker]; rfl) hfacts
  · rename_i owner d
    have hdrained := drained_facts owner true hfacts
    exact h.move rfl rfl (by rw [hworker]; exact hdrained.2) hdrained.1
  · unfold commandCheck
    split
    · exact h.move rfl rfl (by rw [hworker]; rfl) trivial
    · rename_i hclose
      exact h.move rfl rfl (by rw [hworker]; rfl) hclose
    · rename_i hhealthy _
      split
      · exact h.move rfl rfl (by rw [hworker]; rfl) hhealthy
      · exact h.move rfl rfl (by rw [hworker]; rfl) fun _ => hhealthy
  · rename_i pending
    have hclose : pending.command.isClose = true := hfacts
    unfold closeCheck
    split
    · rename_i hstate
      exact h.move rfl rfl (by rw [hworker]; rfl) (by rw [hstate]; rfl)
    · exact h.move rfl rfl (by rw [hworker]; rfl) fun hopen => by simp [hopen] at hclose
  · rename_i pending
    refine called_failureInv h answer (by rw [hworker]; rfl) ?_ (fun _ => ⟨rfl, trivial⟩)
      fun _ => ⟨_, rfl⟩
    cases hclose : pending.command.isClose with
    | false => exact .inl (hfacts hclose)
    | true => exact .inr (isClose_call hclose)
  · rename_i pending result
    obtain ⟨hstate, hnext, sealResult, heq⟩ := recordSuccess_cases w pending result
    have hsame : failureOf (recordSuccess w pending result).state = failureOf w.state := by
      rw [hstate, WriterMachine.transition_failureOf, successEvent_isFailureEvent, Option.or_none]
    rcases hnext with hnext | hnext <;> rw [heq] <;>
      exact h.move rfl hsame (by rw [hworker]; simp only [hnext]; rfl) (by simp only [hnext]; trivial)
  · exact h.move rfl rfl (by rw [hworker]; rfl) trivial
  · rename_i pending outcome
    cases hclose : pending.command.isClose <;>
      exact h.move rfl rfl (by rw [hworker]; rfl) trivial
  · rename_i owner error
    obtain ⟨latched, hstate, hlatched, -, heq⟩ := recordFailure_cases w owner error
    have hfirst := h.first
    rw [hworker] at hfirst
    rw [heq]
    refine ⟨?_, h.closes, hstate⟩
    simp only [retained, hfirst, hstate, hlatched]
    cases failureOf w.state <;> rfl
  · exact flush_failureInv h hworker
  · exact h

theorem step_failureInv {w : AttemptWriter.Writer ε ν} (config : WriterConfig) (arena : List UInt8)
    (event : Event ε ν) (h : FailureInv w) : FailureInv (step config arena w event) := by
  unfold step
  split
  · split
    · rename_i hpublish
      obtain rfl | ⟨-, -, -, -, -, rfl⟩ := publish_cases hpublish
      · exact h
      · exact ⟨h.first, h.closes, h.facts⟩
    · exact h
  · split
    · exact admit_failureInv h ‹_›
    · exact h
  · exact worker_failureInv config arena _ h

theorem new_failureInv : FailureInv (AttemptWriter.Writer.new : AttemptWriter.Writer ε ν) := ⟨rfl, trivial, trivial⟩

@[simp] theorem called_state (w : AttemptWriter.Writer ε ν) (call : Call ν) (answer : Except ε Result)
    (ok : Result → Worker ε ν) (failed : ε → Worker ε ν) :
    (w.called call answer ok failed).state = w.state := by
  cases answer <;> rfl

theorem draining_state (config : WriterConfig) (arena : List UInt8) (w : AttemptWriter.Writer ε ν)
    (owner : Owner ν) (d : Drain) (answer : Except ε Result) :
    (draining config arena w owner d answer).state = w.state := by
  unfold draining
  split
  · simp
  · split
    · simp
    · rfl

theorem worker_failure {w : AttemptWriter.Writer ε ν} (config : WriterConfig) (arena : List UInt8)
    (answer : Except ε Result) {error : ε} (h : failureOf w.state = some error) :
    failureOf (workerStep config arena w answer).state = some error := by
  unfold workerStep
  split
  case h_1 => unfold nextCommand; split <;> exact h
  case h_2 => unfold idleCheck; split <;> exact h
  case h_3 => split <;> exact h
  case h_4 => exact h
  case h_5 => unfold startDrain; split <;> [exact h; (split <;> exact h)]
  case h_6 => rw [draining_state]; exact h
  case h_9 => unfold commandCheck; split <;> [exact h; exact h; (split <;> exact h)]
  case h_10 => unfold closeCheck; split <;> exact h
  case h_11 => rw [called_state]; exact h
  case h_12 pending result _ =>
    rw [(recordSuccess_cases w pending result).1, WriterMachine.transition_failureOf, h]
    rfl
  case h_15 owner other _ =>
    obtain ⟨latched, hstate, hlatched, -⟩ := recordFailure_cases w owner other
    rw [hstate, hlatched, h]
    rfl
  case h_16 => unfold flush; split <;> [exact h; (split <;> exact h)]
  all_goals exact h

/-- No step replaces a retained failure. -/
theorem step_failure {w : AttemptWriter.Writer ε ν} (config : WriterConfig) (arena : List UInt8)
    (event : Event ε ν) {error : ε} (h : failureOf w.state = some error) :
    failureOf (step config arena w event).state = some error := by
  unfold step
  split
  · split
    · rename_i hpublish
      obtain rfl | ⟨-, -, -, -, -, rfl⟩ := publish_cases hpublish <;> exact h
    · exact h
  · split
    · rename_i hadmitted
      obtain rfl | ⟨-, rfl⟩ := admit_cases hadmitted
      · exact h
      · simp only [WriterMachine.transition_failureOf, h]
        rfl
    · exact h
  · exact worker_failure config arena _ h

end WriterQueue
