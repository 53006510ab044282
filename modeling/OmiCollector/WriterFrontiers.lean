import OmiCollector.WriterTails

/-! Where the frontiers are that an attempt writer still has to drain, and when there is nothing
left of them. -/
namespace WriterFrontiers

open AttemptWriter WriterQueue WriterDelivery
open WriterMachine (failureOf)

variable {ε ν : Type}

/-- The frontier of a drain that is under way. -/
def Captured (P : ℕ → List UInt8 → Prop) : Worker ε ν → Prop
  | .draining _ d | .appended _ d _ _ | .tailAppended _ d => P d.target d.frontierTail
  | _ => True

/-- The frontiers that are published, queued and being drained. -/
structure Frontiers (P : ℕ → List UInt8 → Prop) (w : AttemptWriter.Writer ε ν) : Prop where
  published : P w.published w.publishedTail
  commands : ∀ pending ∈ outstanding w, ∀ highWater tail,
    pending.command.frontier = some (highWater, tail) → P highWater tail
  captured : Captured P w.worker

/-- Every frontier is written. -/
def CaughtUp (w : AttemptWriter.Writer ε ν) : Prop :=
  Frontiers (fun highWater tail => highWater = w.written ∧ tail = w.writtenTail) w

/-- How far the accepted calls reach, and the tail that was appended there. -/
def reachOf (w : AttemptWriter.Writer ε ν) : ℕ := acceptedReach w.written w.worker

def tailOf (w : AttemptWriter.Writer ε ν) : List UInt8 :=
  match w.worker with
  | .appended _ _ _ following => following
  | .tailAppended _ d => d.frontierTail
  | _ => w.writtenTail

/-- The target has not refused a call. -/
def Sound (w : AttemptWriter.Writer ε ν) : Prop := retained (failureOf w.state) w.worker = none

/-- The target call that the worker's next step makes. -/
def pendingCall (config : WriterConfig) (arena : List UInt8) (w : AttemptWriter.Writer ε ν) :
    Option (Call ν) :=
  match w.worker with
  | .draining _ d =>
    if d.looping = true ∧ d.start < d.target then
      let stop := min d.target (d.start + config.chunkRecords * recordSize)
      some (.appendChunk d.start (slice arena d.start (stop - d.start))
        (if stop = d.target then d.frontierTail else []))
    else if d.start = d.target ∧ d.frontierTail ≠ d.writtenTail then
      some (.appendChunk d.start [] d.frontierTail)
    else none
  | .calling pending => some pending.command.call
  | _ => none

variable {config : WriterConfig} {arena : List UInt8} {w w' : AttemptWriter.Writer ε ν}
  {P Q : ℕ → List UInt8 → Prop} {reach : ℕ}

theorem Captured.mono {worker : Worker ε ν} (h : Captured P worker)
    (hle : ∀ highWater tail, P highWater tail → Q highWater tail) : Captured Q worker := by
  cases worker <;> first | trivial | exact hle _ _ h

theorem Frontiers.mono (h : Frontiers P w) (hle : ∀ highWater tail, P highWater tail →
    Q highWater tail) : Frontiers Q w :=
  ⟨hle _ _ h.published, fun pending hmem highWater tail hfrontier =>
    hle _ _ (h.commands pending hmem highWater tail hfrontier), h.captured.mono hle⟩

theorem Frontiers.publish {highWater : ℕ} {tail : List UInt8} {moved : Bool} (h : Frontiers P w)
    (hP : P highWater tail) (hpublish : publish arena w highWater tail = .ok (w', moved)) :
    Frontiers P w' := by
  obtain rfl | ⟨-, -, -, -, -, rfl⟩ := publish_cases hpublish
  · exact h
  · exact ⟨hP, h.commands, h.captured⟩

theorem Frontiers.admitted {request : Request ν} {future : Option ℕ} (h : Frontiers P w)
    (hadmitted : admitRequest config w request = .ok (w', future)) : Frontiers P w' := by
  obtain rfl | ⟨-, rfl⟩ := admit_cases hadmitted
  · exact h
  · refine ⟨h.published, ?_, h.captured⟩
    intro pending hmem highWater tail hfrontier
    have hcases : pending ∈ outstanding w ∨
        pending = ⟨request.command w.published w.publishedTail, w.nextFuture⟩ := by
      simpa [outstanding, or_assoc] using hmem
    rcases hcases with hmem | rfl
    · exact h.commands pending hmem highWater tail hfrontier
    · obtain ⟨rfl, rfl⟩ := request_frontier hfrontier
      exact h.published

theorem captured_drained (owner : Owner ν) (wrote : Bool) :
    Captured P (drained owner wrote : Worker ε ν) := by
  cases owner <;> cases wrote <;> trivial

/-- The thread captures only frontiers that are published or queued. -/
theorem worker_captured (h : Frontiers P w) (hdata : DataInv arena w reach)
    (answer : Except ε Result) : Captured P (workerStep config arena w answer).worker := by
  have hcaptured := h.captured
  unfold workerStep
  split <;> rename_i hworker <;> rw [hworker] at hcaptured
  · unfold nextCommand
    split <;> trivial
  · unfold idleCheck
    split <;> trivial
  · split
    · trivial
    · rw [hworker]
      trivial
  · trivial
  · unfold startDrain
    split
    · exact h.published
    · rename_i pending
      split
      · rename_i limit tail hfrontier
        have hmem : pending ∈ outstanding w := by
          simp [outstanding, hworker, popped, Owner.popped]
        simp only [AttemptWriter.Writer.goto, Captured]
        rw [min_eq_left (hdata.commands pending hmem limit tail hfrontier).1]
        exact h.commands pending hmem limit tail hfrontier
      · trivial
  · unfold draining
    split
    · cases answer <;> first | exact hcaptured | trivial
    · split
      · cases answer <;> first | exact hcaptured | trivial
      · exact captured_drained _ _
  · exact hcaptured
  · exact captured_drained _ _
  · unfold commandCheck
    split
    · trivial
    · trivial
    · split <;> trivial
  · unfold closeCheck
    split <;> trivial
  · cases answer <;> trivial
  · rename_i pending result
    obtain ⟨-, hnext, sealResult, heq⟩ := recordSuccess_cases w pending result
    rcases hnext with hnext | hnext <;> rw [heq] <;> simp only [hnext] <;> trivial
  · trivial
  · rename_i pending outcome
    cases hclose : pending.command.isClose <;>
      simp [AttemptWriter.Writer.goto, AttemptWriter.Writer.complete, Captured]
  · rename_i owner error
    obtain ⟨latched, -, -, -, heq⟩ := recordFailure_cases w owner error
    rw [heq]
    trivial
  · rename_i owner items latched
    unfold flush
    split
    · cases owner <;> trivial
    · split
      · cases owner <;> trivial
      · trivial
  · rw [hworker]
    trivial

theorem Frontiers.worker (h : Frontiers P w) (hdata : DataInv arena w reach) (hqueue : QueueInv w)
    (answer : Except ε Result) : Frontiers P (workerStep config arena w answer) := by
  obtain ⟨hpublished, htail⟩ := WriterTails.worker_published config arena w answer
  refine ⟨?_, fun pending hmem => h.commands pending
    ((worker_queueStep config arena answer hqueue).mem hmem), worker_captured h hdata answer⟩
  rw [hpublished, htail]
  exact h.published

/-! ## What a step of the thread does to the target -/

theorem sound_iff (h : FailureInv w) : Sound w ↔ firstError w.calls = none := by
  rw [h.first]
  rfl

theorem Sound.healthy (h : Sound w) : failureOf w.state = none := by
  unfold Sound at h
  cases hworker : w.worker with
  | recording owner error =>
    rw [hworker, retained, Option.or_eq_none_iff] at h
    exact h.1
  | _ =>
    rw [hworker] at h
    exact h

/-- No accepted call waits to be recorded. -/
def Plain : Worker ε ν → Prop
  | .appended _ _ _ _ | .tailAppended _ _ => False
  | _ => True

theorem Plain.delivered (h : Plain w.worker) :
    reachOf w = w.written ∧ tailOf w = w.writtenTail := by
  unfold reachOf tailOf
  cases hworker : w.worker with
  | appended owner d stop following =>
    rw [hworker] at h
    exact h.elim
  | tailAppended owner d =>
    rw [hworker] at h
    exact h.elim
  | _ => exact ⟨rfl, rfl⟩

theorem plain_drained (owner : Owner ν) (wrote : Bool) :
    Plain (drained owner wrote : Worker ε ν) := by
  cases owner <;> cases wrote <;> trivial

theorem plain_afterFailure (owner : Owner ν) (latched : ε) :
    Plain (afterFailure owner latched : Worker ε ν) := by
  cases owner <;> trivial

theorem Plain.move (h : Plain w.worker) (h' : Plain w'.worker) (hcalls : w'.calls = w.calls)
    (hwritten : w'.written = w.written) (htail : w'.writtenTail = w.writtenTail) :
    w'.calls = w.calls ∧ reachOf w' = reachOf w ∧ tailOf w' = tailOf w := by
  obtain ⟨hreach, hrest⟩ := h.delivered
  obtain ⟨hreach', hrest'⟩ := h'.delivered
  exact ⟨hcalls, by rw [hreach', hreach, hwritten], by rw [hrest', hrest, htail]⟩

/-- A step without a call delivers nothing. -/
theorem worker_quiet (hcall : pendingCall config arena w = none) (answer : Except ε Result) :
    (workerStep config arena w answer).calls = w.calls ∧
      reachOf (workerStep config arena w answer) = reachOf w ∧
      tailOf (workerStep config arena w answer) = tailOf w := by
  unfold pendingCall at hcall
  unfold workerStep
  split <;> rename_i hworker <;> simp only [hworker] at hcall
  case h_7 owner d stop following =>
    refine ⟨rfl, by simp [reachOf, hworker, recordAppended, acceptedReach], ?_⟩
    simp [tailOf, hworker, recordAppended]
  case h_8 owner d =>
    obtain ⟨hreach, htail⟩ := (show Plain (recordTail w owner d).worker from
      plain_drained owner true).delivered
    refine ⟨rfl, hreach.trans ?_, htail.trans ?_⟩
    · simp [reachOf, hworker, recordTail, acceptedReach]
    · simp [tailOf, hworker, recordTail]
  case h_6 owner d =>
    have hplain : Plain w.worker := by rw [hworker]; trivial
    unfold draining
    split
    · rename_i hmore
      simp [hmore] at hcall
    · split
      · rename_i hmore hextra
        simp [hextra] at hcall
      · exact hplain.move (plain_drained _ _) rfl rfl rfl
  all_goals have hplain : Plain w.worker := by rw [hworker]; trivial
  · unfold nextCommand
    split <;> exact hplain.move trivial rfl rfl rfl
  · unfold idleCheck
    split <;> exact hplain.move trivial rfl rfl rfl
  · split
    · exact hplain.move trivial rfl rfl rfl
    · exact ⟨rfl, rfl, rfl⟩
  · exact hplain.move trivial rfl rfl rfl
  · unfold startDrain
    split
    · exact hplain.move trivial rfl rfl rfl
    · split <;> exact hplain.move trivial rfl rfl rfl
  · unfold commandCheck
    split
    · exact hplain.move trivial rfl rfl rfl
    · exact hplain.move trivial rfl rfl rfl
    · split <;> exact hplain.move trivial rfl rfl rfl
  · unfold closeCheck
    split <;> exact hplain.move trivial rfl rfl rfl
  · simp at hcall
  · rename_i pending result
    obtain ⟨-, hnext, sealResult, heq⟩ := recordSuccess_cases w pending result
    rw [heq]
    rcases hnext with hnext | hnext <;>
      exact hplain.move (by rw [hnext]; trivial) rfl rfl rfl
  · exact hplain.move trivial rfl rfl rfl
  · rename_i pending outcome
    cases hclose : pending.command.isClose <;>
      exact hplain.move (by simp [AttemptWriter.Writer.goto, Plain]) rfl rfl rfl
  · rename_i owner error
    obtain ⟨latched, -, -, -, heq⟩ := recordFailure_cases w owner error
    rw [heq]
    exact hplain.move trivial rfl rfl rfl
  · unfold flush
    split
    · exact hplain.move (plain_afterFailure _ _) rfl rfl rfl
    · split
      · exact hplain.move (plain_afterFailure _ _) rfl rfl rfl
      · exact hplain.move trivial rfl rfl rfl
  · exact ⟨rfl, rfl, rfl⟩

/-- The next append continues what was delivered, and ends inside a frontier. -/
theorem pending_append {bound offset : ℕ} {chunk following : List UInt8}
    (hdata : DataInv arena w reach) (hwithin : Frontiers (fun m t => m + t.length ≤ bound) w)
    (hcall : pendingCall config arena w = some (.appendChunk offset chunk following)) :
    offset = reachOf w ∧ slice arena offset chunk.length = chunk ∧
      offset + chunk.length ≤ w.published ∧ offset + chunk.length + following.length ≤ bound := by
  have hplace := hdata.place
  have hcaptured := hwithin.captured
  unfold pendingCall at hcall
  split at hcall
  case h_1 owner d hworker =>
    rw [hworker] at hplace hcaptured
    obtain ⟨-, hfacts⟩ := hplace
    have hreach : reachOf w = d.start := by
      rw [hfacts.start]
      simp [reachOf, hworker, acceptedReach]
    have htarget := hfacts.target
    have hinside := hdata.frontier.inside
    split at hcall
    · rename_i hmore
      simp only [Option.some.injEq, Call.appendChunk.injEq] at hcall
      generalize hstop : min d.target (d.start + config.chunkRecords * recordSize) = stop at hcall
      obtain ⟨rfl, rfl, rfl⟩ := hcall
      have hlength : (slice arena d.start (stop - d.start)).length = stop - d.start :=
        slice_length (by omega)
      have hpos : 0 < config.chunkRecords * recordSize :=
        Nat.mul_pos config.chunkRecords_pos (by decide)
      refine ⟨hreach.symm, by rw [hlength], by omega, ?_⟩
      split
      · rename_i hend
        have hbound : d.target + d.frontierTail.length ≤ bound := hcaptured
        omega
      · have hbound : d.target + d.frontierTail.length ≤ bound := hcaptured
        rw [List.length_nil]
        omega
    · split at hcall
      · rename_i hextra
        simp only [Option.some.injEq, Call.appendChunk.injEq] at hcall
        obtain ⟨rfl, rfl, rfl⟩ := hcall
        have hbound : d.target + d.frontierTail.length ≤ bound := hcaptured
        exact ⟨hreach.symm, by simp [slice], by simp only [List.length_nil]; omega,
          by simp only [List.length_nil]; omega⟩
      · cases hcall
  case h_2 pending hworker =>
    exact absurd (Option.some.inj hcall) (call_ne_appendChunk _ _ _ _)
  case h_3 => cases hcall

/-- A call that is accepted delivers its bytes. -/
theorem worker_accepted {call : Call ν} (hdata : DataInv arena w reach)
    (hcall : pendingCall config arena w = some call) (result : Result) :
    (workerStep config arena w (.ok result)).calls = ⟨call, none⟩ :: w.calls ∧
      ((∃ offset chunk following, call = .appendChunk offset chunk following ∧
        reachOf (workerStep config arena w (.ok result)) = offset + chunk.length ∧
        tailOf (workerStep config arena w (.ok result)) = following) ∨
      (∃ pending, w.worker = .calling pending ∧ call = pending.command.call ∧
        reachOf (workerStep config arena w (.ok result)) = reachOf w ∧
        tailOf (workerStep config arena w (.ok result)) = tailOf w)) := by
  have hplace := hdata.place
  unfold pendingCall at hcall
  split at hcall
  case h_1 owner d hworker =>
    rw [hworker] at hplace
    obtain ⟨-, hfacts⟩ := hplace
    have htarget := hfacts.target
    have hinside := hdata.frontier.inside
    simp only [workerStep, hworker, draining]
    split at hcall
    · rename_i hmore
      obtain rfl := Option.some.inj hcall
      rw [if_pos hmore]
      generalize hstop : min d.target (d.start + config.chunkRecords * recordSize) = stop
      have hpos : 0 < config.chunkRecords * recordSize :=
        Nat.mul_pos config.chunkRecords_pos (by decide)
      refine ⟨rfl, .inl ⟨_, _, _, rfl, ?_, rfl⟩⟩
      rw [slice_length (by omega)]
      change stop = _
      omega
    · rename_i hmore
      split at hcall
      · rename_i hextra
        obtain rfl := Option.some.inj hcall
        rw [if_neg hmore, if_pos hextra]
        exact ⟨rfl, .inl ⟨_, _, _, rfl, hfacts.start.symm, rfl⟩⟩
      · cases hcall
  case h_2 pending hworker =>
    obtain rfl := Option.some.inj hcall
    simp only [workerStep, hworker]
    refine ⟨rfl, .inr ⟨pending, rfl, rfl, ?_, ?_⟩⟩
    · simp [reachOf, hworker, AttemptWriter.Writer.called, acceptedReach]
    · simp [tailOf, hworker, AttemptWriter.Writer.called]
  case h_3 => cases hcall

/-- A call that is refused leaves the error to be recorded. -/
theorem worker_refused {call : Call ν} (hcall : pendingCall config arena w = some call)
    (error : ε) :
    (workerStep config arena w (.error error)).calls = ⟨call, some error⟩ :: w.calls ∧
      reachOf (workerStep config arena w (.error error)) = reachOf w := by
  unfold pendingCall at hcall
  split at hcall
  case h_1 owner d hworker =>
    have hreach : reachOf w = w.written := by simp [reachOf, hworker, acceptedReach]
    rw [hreach]
    simp only [workerStep, hworker, draining]
    split at hcall
    · rename_i hmore
      obtain rfl := Option.some.inj hcall
      rw [if_pos hmore]
      exact ⟨rfl, rfl⟩
    · rename_i hmore
      split at hcall
      · rename_i hextra
        obtain rfl := Option.some.inj hcall
        rw [if_neg hmore, if_pos hextra]
        exact ⟨rfl, rfl⟩
      · cases hcall
  case h_2 pending hworker =>
    have hreach : reachOf w = w.written := by simp [reachOf, hworker, acceptedReach]
    obtain rfl := Option.some.inj hcall
    rw [hreach]
    simp only [workerStep, hworker]
    exact ⟨rfl, rfl⟩
  case h_3 => cases hcall

/-! ## An arena that receives more -/

section Grow

variable {arena' : List UInt8} {bound : ℕ}

theorem slice_take {start count : ℕ} (h : start + count ≤ bound) :
    slice arena start count = slice (arena.take bound) start count := by
  rw [slice, slice, List.drop_take, List.take_take, min_eq_left (by omega)]

theorem slice_same (hsame : arena'.take bound = arena.take bound) {start count : ℕ}
    (h : start + count ≤ bound) : slice arena' start count = slice arena start count := by
  rw [slice_take h, hsame, ← slice_take h]

theorem slices_grow {calls : List (Called ε ν)} (h : Slices arena calls reach)
    (hlength : arena.length ≤ arena'.length) (hsame : arena'.take bound = arena.take bound)
    (hle : reach ≤ bound) : Slices arena' calls reach := by
  induction h with
  | nil => exact .nil
  | @chunk calls start stop tail error hcalls hlt hinside ih =>
    have hchunk := slice_same hsame (show start + (stop - start) ≤ bound by omega)
    rw [← hchunk]
    exact .chunk tail error (ih (by omega)) hlt (hinside.trans hlength)
  | tail tail error hcalls ih => exact .tail tail error (ih hle)
  | other error hcalls hcall ih => exact .other error (ih hle) hcall

theorem frontier_grow {highWater : ℕ} {tail : List UInt8} (h : Frontier arena highWater tail)
    (hlength : arena.length ≤ arena'.length) (hsame : arena'.take bound = arena.take bound)
    (hle : highWater + tail.length ≤ bound) : Frontier arena' highWater tail :=
  ⟨h.inside.trans hlength, h.aligned, h.short, (slice_same hsame hle).trans h.bytes⟩

theorem acceptedReach_le (h : DataInv arena w reach) :
    acceptedReach w.written w.worker ≤ w.published := by
  have hplace := h.place
  have hwritten := h.written.trans h.published
  cases hworker : w.worker with
  | appended owner d stop following =>
    rw [hworker] at hplace
    exact hplace.2.2.2.1.trans hplace.2.1.target
  | _ => exact hwritten

/-- Data received beyond every frontier changes nothing of what was delivered. -/
theorem dataInv_grow (h : DataInv arena w reach)
    (hwithin : Frontiers (fun m t => m + t.length ≤ bound) w)
    (hlength : arena.length ≤ arena'.length) (hsame : arena'.take bound = arena.take bound) :
    DataInv arena' w reach := by
  have hpublished : w.published ≤ bound := (Nat.le_add_right _ _).trans hwithin.published
  refine ⟨slices_grow h.slices hlength hsame (h.published.trans hpublished),
    slices_grow h.accepted hlength hsame ((acceptedReach_le h).trans hpublished), h.written,
    h.published, h.aligned, frontier_grow h.frontier hlength hsame hwithin.published, ?_, h.tail,
    h.place⟩
  intro pending hmem highWater tail hfrontier
  obtain ⟨hle, hstands⟩ := h.commands pending hmem highWater tail hfrontier
  exact ⟨hle, frontier_grow hstands hlength hsame (hwithin.commands pending hmem _ _ hfrontier)⟩

end Grow

/-! ## Caught up -/

/-- Only the record of an accepted call moves what is written. -/
theorem worker_written (config : WriterConfig) (arena : List UInt8) (answer : Except ε Result)
    (h : Plain w.worker) : (workerStep config arena w answer).written = w.written ∧
      (workerStep config arena w answer).writtenTail = w.writtenTail := by
  unfold workerStep
  split <;> rename_i hworker <;> rw [hworker] at h
  case h_6 =>
    unfold draining
    split
    · cases answer <;> exact ⟨rfl, rfl⟩
    · split
      · cases answer <;> exact ⟨rfl, rfl⟩
      · exact ⟨rfl, rfl⟩
  case h_7 => exact h.elim
  case h_8 => exact h.elim
  case h_12 pending result =>
    obtain ⟨-, -, sealResult, heq⟩ := recordSuccess_cases w pending result
    rw [heq]
    exact ⟨rfl, rfl⟩
  case h_15 owner error =>
    obtain ⟨latched, -, -, -, heq⟩ := recordFailure_cases w owner error
    rw [heq]
    exact ⟨rfl, rfl⟩
  case h_1 => unfold nextCommand; split <;> exact ⟨rfl, rfl⟩
  case h_2 => unfold idleCheck; split <;> exact ⟨rfl, rfl⟩
  case h_3 => split <;> exact ⟨rfl, rfl⟩
  case h_5 => unfold startDrain; split <;> [exact ⟨rfl, rfl⟩; (split <;> exact ⟨rfl, rfl⟩)]
  case h_9 =>
    unfold commandCheck
    split <;> [exact ⟨rfl, rfl⟩; exact ⟨rfl, rfl⟩; (split <;> exact ⟨rfl, rfl⟩)]
  case h_10 => unfold closeCheck; split <;> exact ⟨rfl, rfl⟩
  case h_11 => cases answer <;> exact ⟨rfl, rfl⟩
  case h_16 => unfold flush; split <;> [exact ⟨rfl, rfl⟩; (split <;> exact ⟨rfl, rfl⟩)]
  all_goals exact ⟨rfl, rfl⟩

theorem written_le (hdata : DataInv arena w reach) (answer : Except ε Result) :
    w.written ≤ (workerStep config arena w answer).written := by
  have hplace := hdata.place
  cases hworker : w.worker with
  | appended owner d stop following =>
    rw [hworker] at hplace
    obtain ⟨-, hfacts, hlt, -⟩ := hplace
    simp only [workerStep, hworker, recordAppended]
    exact hfacts.start.symm.le.trans hlt.le
  | tailAppended owner d =>
    simp only [workerStep, hworker, recordTail]
    exact le_rfl
  | _ => exact (worker_written config arena answer (by rw [hworker]; trivial)).1.symm.le

/-- A drain that has nothing to do accepts no chunk. -/
theorem CaughtUp.delivered (h : CaughtUp w) (hdata : DataInv arena w reach) :
    reachOf w = w.written ∧ tailOf w = w.writtenTail := by
  have hplace := hdata.place
  have hcaptured := h.captured
  cases hworker : w.worker with
  | appended owner d stop following =>
    rw [hworker] at hplace hcaptured
    obtain ⟨-, hfacts, hlt, hle, -⟩ := hplace
    have htarget : d.target = w.written := hcaptured.1
    have hstart := hfacts.start
    omega
  | tailAppended owner d =>
    rw [hworker] at hcaptured
    exact ⟨by simp [reachOf, hworker, acceptedReach], by simpa [tailOf, hworker] using hcaptured.2⟩
  | _ => exact Plain.delivered (by rw [hworker]; trivial)

theorem CaughtUp.no_append (h : CaughtUp w) (hdata : DataInv arena w reach)
    (offset : ℕ) (chunk following : List UInt8) :
    pendingCall config arena w ≠ some (.appendChunk offset chunk following) := by
  have hplace := hdata.place
  have hcaptured := h.captured
  unfold pendingCall
  split
  case h_1 owner d hworker =>
    rw [hworker] at hplace hcaptured
    obtain ⟨-, hfacts⟩ := hplace
    have htarget : d.target = w.written := hcaptured.1
    have htail : d.frontierTail = w.writtenTail := hcaptured.2
    rw [if_neg (by rw [hfacts.start, htarget]; omega),
      if_neg (by rw [htail, hfacts.tail]; exact fun h => h.2 rfl)]
    simp
  case h_2 pending hworker =>
    intro hcall
    exact call_ne_appendChunk _ _ _ _ (Option.some.inj hcall)
  case h_3 => simp

theorem CaughtUp.written (h : CaughtUp w) (hdata : DataInv arena w reach)
    (answer : Except ε Result) : (workerStep config arena w answer).written = w.written ∧
      (workerStep config arena w answer).writtenTail = w.writtenTail := by
  have hplace := hdata.place
  have hcaptured := h.captured
  cases hworker : w.worker with
  | appended owner d stop following =>
    rw [hworker] at hplace hcaptured
    obtain ⟨-, hfacts, hlt, hle, -⟩ := hplace
    have htarget : d.target = w.written := hcaptured.1
    have hstart := hfacts.start
    omega
  | tailAppended owner d =>
    rw [hworker] at hcaptured
    simp only [workerStep, hworker, recordTail]
    exact ⟨trivial, hcaptured.2⟩
  | _ => exact worker_written config arena answer (by rw [hworker]; trivial)

theorem CaughtUp.worker (h : CaughtUp w) (hdata : DataInv arena w reach) (hqueue : QueueInv w)
    (answer : Except ε Result) : CaughtUp (workerStep config arena w answer) := by
  have hnext : Frontiers (fun highWater tail => highWater = w.written ∧ tail = w.writtenTail)
      (workerStep config arena w answer) := Frontiers.worker h hdata hqueue answer
  obtain ⟨hwritten, htail⟩ := @CaughtUp.written _ _ config arena w reach h hdata answer
  unfold CaughtUp
  rw [hwritten, htail]
  exact hnext

/-- The worker has not come to the end of its command. -/
def Unsettled : Worker ε ν → Prop
  | .succeeded _ _ | .remember _ _ | .completing _ _ | .recording _ _ | .flushing _ _ _ => False
  | _ => True

/-- The one command in the queue is still to be done, and closes nothing. -/
structure Queued (pending : Pending ν) (w : AttemptWriter.Writer ε ν) : Prop where
  queue : outstanding w = [pending]
  opened : pending.command.isClose = false
  place : Unsettled w.worker

/-- The one command in the queue was admitted with what is published, and is still to be done. -/
structure Awaits (pending : Pending ν) (w : AttemptWriter.Writer ε ν) : Prop where
  queued : Queued pending w
  frontier : pending.command.frontier = some (w.published, w.publishedTail)

theorem Queued.move {pending : Pending ν} (h : Queued pending w)
    (hqueue : outstanding w' = outstanding w) (hplace : Unsettled w'.worker) : Queued pending w' :=
  ⟨hqueue.trans h.queue, h.opened, hplace⟩

theorem Queued.same {pending other : Pending ν} (h : Queued pending w)
    (hpopped : popped w.worker = [other]) : other = pending := by
  have hqueue := h.queue
  simp only [outstanding, hpopped, List.singleton_append, List.cons.injEq] at hqueue
  exact hqueue.1

theorem outstanding_drained (w : AttemptWriter.Writer ε ν) (owner : Owner ν) (wrote : Bool) :
    outstanding { w with worker := drained owner wrote } = Owner.popped owner ++ w.commands := by
  cases owner <;> cases wrote <;> rfl

theorem unsettled_drained (owner : Owner ν) (wrote : Bool) :
    Unsettled (drained owner wrote : Worker ε ν) := by
  cases owner <;> cases wrote <;> trivial

/-- Once the command's call is made, everything published is written. -/
theorem Awaits.called {pending : Pending ν} (h : Awaits pending w) (hdata : DataInv arena w reach)
    (hworker : w.worker = .calling pending) (result : Result) :
    CaughtUp (workerStep config arena w (.ok result)) := by
  have hplace := hdata.place
  rw [hworker] at hplace
  have hwritten := hdata.written
  have hreach := hdata.published
  have hreached := hplace.2 h.queued.opened _ _ h.frontier
  have hequal : w.published = w.written ∧ w.publishedTail = w.writtenTail := by
    rcases hreached with hlt | hequal
    · omega
    · exact hequal
  have hqueue := h.queued.queue
  simp only [outstanding, hworker, popped, flushed, List.nil_append, List.singleton_append,
    List.cons.injEq, true_and] at hqueue
  simp only [workerStep, hworker, AttemptWriter.Writer.called]
  refine ⟨hequal, ?_, trivial⟩
  intro other hmem highWater tail hfrontier
  simp only [outstanding, popped, flushed, hqueue, List.append_nil, List.mem_singleton] at hmem
  obtain rfl := hmem
  rw [h.frontier, Option.some.injEq, Prod.mk.injEq] at hfrontier
  exact ⟨hfrontier.1.symm.trans hequal.1, hfrontier.2.symm.trans hequal.2⟩

/-- The command stays to be done until its call is made. -/
theorem Queued.worker {pending : Pending ν} (h : Queued pending w) (hfailure : FailureInv w)
    (answer : Except ε Result) (hsound : Sound (workerStep config arena w answer))
    (hcalling : w.worker ≠ .calling pending) :
    Queued pending (workerStep config arena w answer) := by
  have hfacts := hfailure.facts
  have hplace := h.place
  have hopened := h.opened
  revert hsound
  unfold workerStep
  split <;> rename_i hworker <;> rw [hworker] at hplace hfacts <;> intro hsound
  · unfold nextCommand at hsound ⊢
    split <;> rename_i hcommands
    · exact h.move (by simp [outstanding, hworker, popped, flushed, AttemptWriter.Writer.goto,
        hcommands]) trivial
    · exact h.move (by simp [outstanding, hworker, popped, flushed, hcommands]) trivial
  · unfold idleCheck
    split <;> exact h.move (by simp [outstanding, hworker, popped, flushed, Owner.popped,
      AttemptWriter.Writer.goto]) trivial
  · split
    · exact h.move (by simp [outstanding, hworker, popped, flushed, AttemptWriter.Writer.goto])
        trivial
    · exact h
  · exact h.move (by simp [outstanding, hworker, popped, flushed]) trivial
  · unfold startDrain
    split
    · exact h.move (by simp [outstanding, hworker, popped, flushed, Owner.popped,
        AttemptWriter.Writer.goto]) trivial
    · split <;> exact h.move (by simp [outstanding, hworker, popped, flushed, Owner.popped,
        AttemptWriter.Writer.goto]) trivial
  · rename_i owner d
    revert hsound
    unfold draining
    split
    · cases answer with
      | ok result =>
        exact fun _ => h.move (by simp [outstanding, hworker, popped, flushed,
          AttemptWriter.Writer.called]) trivial
      | error error =>
        exact fun hsound => absurd hsound (by simp [Sound, AttemptWriter.Writer.called, retained])
    · split
      · cases answer with
        | ok result =>
          exact fun _ => h.move (by simp [outstanding, hworker, popped, flushed,
            AttemptWriter.Writer.called]) trivial
        | error error =>
          exact fun hsound => absurd hsound
            (by simp [Sound, AttemptWriter.Writer.called, retained])
      · exact fun _ => h.move ((outstanding_drained w owner d.wrote).trans
          (by simp [outstanding, hworker, popped, flushed])) (unsettled_drained _ _)
  · exact h.move (by simp [outstanding, hworker, popped, flushed, recordAppended]) trivial
  · rename_i owner d
    exact h.move ((outstanding_drained { w with writtenTail := d.frontierTail } owner true).trans
      (by simp [outstanding, hworker, popped, flushed])) (unsettled_drained _ _)
  · rename_i other
    have hsame := h.same (show popped w.worker = [other] by rw [hworker]; rfl)
    revert hsound
    unfold commandCheck
    split
    · rename_i hfailed _
      exact fun hsound => absurd hsound
        (by simp [Sound, AttemptWriter.Writer.goto, retained, hfailed])
    · rename_i hclose
      rw [hsame, hopened] at hclose
      cases hclose
    · split <;> exact fun _ => h.move (by simp [outstanding, hworker, popped, flushed, Owner.popped,
        AttemptWriter.Writer.goto]) trivial
  · rename_i other
    have hsame := h.same (show popped w.worker = [other] by rw [hworker]; rfl)
    have hclose : other.command.isClose = true := hfacts
    rw [hsame, hopened] at hclose
    cases hclose
  · rename_i other
    have hsame := h.same (show popped w.worker = [other] by rw [hworker]; rfl)
    exact absurd (hsame ▸ hworker) hcalling
  · exact hplace.elim
  · exact hplace.elim
  · exact hplace.elim
  · exact hplace.elim
  · exact hplace.elim
  · exact h

theorem Awaits.worker {pending : Pending ν} (h : Awaits pending w) (hdata : DataInv arena w reach)
    (hfailure : FailureInv w) (answer : Except ε Result)
    (hsound : Sound (workerStep config arena w answer)) :
    Awaits pending (workerStep config arena w answer) ∨
      CaughtUp (workerStep config arena w answer) := by
  by_cases hcalling : w.worker = .calling pending
  · cases answer with
    | ok result => exact .inr (h.called hdata hcalling result)
    | error error =>
      refine absurd hsound ?_
      simp [Sound, workerStep, hcalling, AttemptWriter.Writer.called, retained]
  · obtain ⟨hpublished, htail⟩ := WriterTails.worker_published config arena w answer
    refine .inl ⟨h.queued.worker hfailure answer hsound hcalling, ?_⟩
    rw [hpublished, htail]
    exact h.frontier

end WriterFrontiers
