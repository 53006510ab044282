import OmiCollector.WriterQueue

/-! What the target of an attempt writer is given: the arena in order and without gaps, and before
every barrier all that its command was admitted with. -/
namespace WriterDelivery

open AttemptWriter WriterQueue
open WriterMachine (failureOf)

variable {ε ν : Type}

/-- The chunks passed to the target so far are consecutive slices of the arena and end here. -/
inductive Slices (arena : List UInt8) : List (Called ε ν) → ℕ → Prop where
  | nil : Slices arena [] 0
  | chunk {calls : List (Called ε ν)} {start stop : ℕ} (tail : List UInt8) (error : Option ε)
      (h : Slices arena calls start) (hlt : start < stop) (hle : stop ≤ arena.length) :
      Slices arena
        (⟨.appendChunk start (slice arena start (stop - start)) tail, error⟩ :: calls) stop
  | tail {calls : List (Called ε ν)} {reach : ℕ} (tail : List UInt8) (error : Option ε)
      (h : Slices arena calls reach) :
      Slices arena (⟨.appendChunk reach [] tail, error⟩ :: calls) reach
  | other {calls : List (Called ε ν)} {reach : ℕ} {call : Call ν} (error : Option ε)
      (h : Slices arena calls reach) (hcall : ∀ offset chunk tail, call ≠ .appendChunk offset chunk tail) :
      Slices arena (⟨call, error⟩ :: calls) reach

def chunkOf : Call ν → List UInt8
  | .appendChunk _ chunk _ => chunk
  | _ => []

/-- The record bytes passed to the target, in the order of the calls. -/
def passedBytes (calls : List (Called ε ν)) : List UInt8 :=
  calls.reverse.flatMap fun called => chunkOf called.call

theorem passedBytes_cons (called : Called ε ν) (calls : List (Called ε ν)) :
    passedBytes (called :: calls) = passedBytes calls ++ chunkOf called.call := by
  simp [passedBytes]

/-- The passed bytes are the arena, each record once and in order. -/
theorem Slices.passedBytes_eq {arena : List UInt8} {calls : List (Called ε ν)} {reach : ℕ}
    (h : Slices arena calls reach) : passedBytes calls = arena.take reach := by
  induction h with
  | nil => simp [passedBytes]
  | @chunk calls start stop tail error h hlt hle ih =>
    rw [passedBytes_cons, ih]
    change arena.take start ++ (arena.drop start).take (stop - start) = arena.take stop
    rw [← List.take_add, Nat.add_sub_cancel' hlt.le]
  | tail tail error h ih => rw [passedBytes_cons, ih, chunkOf, List.append_nil]
  | @other calls reach call error h hcall ih =>
    have hnone : chunkOf call = [] := by
      cases call <;> first | rfl | exact absurd rfl (hcall _ _ _)
    rw [passedBytes_cons, ih, hnone, List.append_nil]

/-- An accepted call delivered these bytes right after the records up to `reach`. -/
def TailDelivered (calls : List (Called ε ν)) (reach : ℕ) (tail : List UInt8) : Prop :=
  tail = [] ∨ ∃ offset chunk, ⟨.appendChunk offset chunk tail, none⟩ ∈ calls ∧
    offset + chunk.length = reach

theorem TailDelivered.cons {calls : List (Called ε ν)} {reach : ℕ} {tail : List UInt8}
    (h : TailDelivered calls reach tail) (called : Called ε ν) :
    TailDelivered (called :: calls) reach tail := by
  refine h.imp id ?_
  rintro ⟨offset, chunk, hmem, hreach⟩
  exact ⟨offset, chunk, List.mem_cons_of_mem _ hmem, hreach⟩

/-- A frontier that can be admitted: whole records and a partial one after them. -/
structure Frontier (arena : List UInt8) (highWater : ℕ) (tail : List UInt8) : Prop where
  inside : highWater ≤ arena.length
  aligned : recordSize ∣ highWater
  short : tail.length < recordSize
  bytes : slice arena highWater tail.length = tail

/-- What a drain knows while the worker is in it. -/
structure DrainFacts (w : AttemptWriter.Writer ε ν) (owner : Owner ν) (d : Drain) : Prop where
  start : d.start = w.written
  tail : d.writtenTail = w.writtenTail
  target : d.target ≤ w.published
  aligned : recordSize ∣ d.target
  command : ∀ pending, owner = .command pending →
    d.looping = true ∧ pending.command.frontier = some (d.target, d.frontierTail)

/-- A command's frontier is reached: exactly, or by later records. -/
def Reached (w : AttemptWriter.Writer ε ν) (pending : Pending ν) : Prop :=
  ∀ highWater tail, pending.command.frontier = some (highWater, tail) →
    highWater < w.written ∨ (highWater = w.written ∧ tail = w.writtenTail)

/-- What the worker's place says about the data. -/
def PlaceFacts (w : AttemptWriter.Writer ε ν) (reach : ℕ) : Worker ε ν → Prop
  | .draining owner d => reach = w.written ∧ DrainFacts w owner d
  | .appended owner d stop following => reach = stop ∧ DrainFacts w owner d ∧ d.start < stop ∧
      stop ≤ d.target ∧ recordSize ∣ stop ∧ TailDelivered w.calls stop following
  | .tailAppended owner d => reach = w.written ∧ DrainFacts w owner d ∧ d.start = d.target ∧
      TailDelivered w.calls w.written d.frontierTail
  | .calling pending => (failureOf w.state = none → reach = w.written) ∧
      (pending.command.isClose = false → Reached w pending)
  | .recording _ _ => True
  | _ => failureOf w.state = none → reach = w.written

/-- How far the accepted chunks reach, with the one whose call just returned. -/
def acceptedReach (written : ℕ) : Worker ε ν → ℕ
  | .appended _ _ stop _ => stop
  | _ => written

def isAccepted (called : Called ε ν) : Bool := called.error.isNone

structure DataInv (arena : List UInt8) (w : AttemptWriter.Writer ε ν) (reach : ℕ) : Prop where
  slices : Slices arena w.calls reach
  accepted : Slices arena (w.calls.filter isAccepted) (acceptedReach w.written w.worker)
  written : w.written ≤ reach
  published : reach ≤ w.published
  aligned : recordSize ∣ w.written
  frontier : Frontier arena w.published w.publishedTail
  commands : ∀ pending ∈ outstanding w, ∀ highWater tail,
    pending.command.frontier = some (highWater, tail) →
      highWater ≤ w.published ∧ Frontier arena highWater tail
  tail : TailDelivered w.calls w.written w.writtenTail
  place : PlaceFacts w reach w.worker

/-- The worker moves on without a call and without new data. -/
theorem DataInv.move {arena : List UInt8} {w w' : AttemptWriter.Writer ε ν} {reach : ℕ} (h : DataInv arena w reach)
    (hcalls : w'.calls = w.calls) (hwritten : w'.written = w.written)
    (htail : w'.writtenTail = w.writtenTail) (hpublished : w'.published = w.published)
    (hpublishedTail : w'.publishedTail = w.publishedTail)
    (hreach : acceptedReach w.written w'.worker = acceptedReach w.written w.worker)
    (hcommands : ∀ pending ∈ outstanding w', pending ∈ outstanding w)
    (hplace : PlaceFacts w' reach w'.worker) : DataInv arena w' reach where
  slices := by rw [hcalls]; exact h.slices
  accepted := by rw [hcalls, hwritten, hreach]; exact h.accepted
  written := by rw [hwritten]; exact h.written
  published := by rw [hpublished]; exact h.published
  aligned := by rw [hwritten]; exact h.aligned
  frontier := by rw [hpublished, hpublishedTail]; exact h.frontier
  commands := by
    rw [hpublished]
    exact fun pending hmem => h.commands pending (hcommands pending hmem)
  tail := by rw [hcalls, hwritten, htail]; exact h.tail
  place := hplace

/-- The event loop changes nothing that the worker's place is about. -/
theorem PlaceFacts.frame {w w' : AttemptWriter.Writer ε ν} {reach : ℕ} {worker : Worker ε ν}
    (h : PlaceFacts w reach worker) (hcalls : w'.calls = w.calls) (hwritten : w'.written = w.written)
    (htail : w'.writtenTail = w.writtenTail) (hpublished : w.published ≤ w'.published)
    (hfailure : failureOf w'.state = failureOf w.state) : PlaceFacts w' reach worker := by
  have hdrain : ∀ {owner d}, DrainFacts w owner d → DrainFacts w' owner d := fun facts =>
    { facts with
      start := facts.start.trans hwritten.symm
      tail := facts.tail.trans htail.symm
      target := facts.target.trans hpublished }
  cases worker with
  | draining owner d => exact ⟨h.1.trans hwritten.symm, hdrain h.2⟩
  | appended owner d stop following =>
    obtain ⟨hreach, hfacts, hrest⟩ := h
    exact ⟨hreach, hdrain hfacts, by rw [hcalls]; exact hrest⟩
  | tailAppended owner d =>
    obtain ⟨hreach, hfacts, hrest⟩ := h
    exact ⟨hreach.trans hwritten.symm, hdrain hfacts, by rw [hcalls, hwritten]; exact hrest⟩
  | calling pending =>
    refine ⟨fun hhealthy => (h.1 (hfailure ▸ hhealthy)).trans hwritten.symm, fun hopen => ?_⟩
    unfold Reached
    rw [hwritten, htail]
    exact h.2 hopen
  | recording owner error => trivial
  | _ => exact fun hhealthy => (h (hfailure ▸ hhealthy)).trans hwritten.symm

theorem publish_dataInv {arena : List UInt8} {w w' : AttemptWriter.Writer ε ν} {reach highWater : ℕ}
    {tail : List UInt8} {moved : Bool} (h : DataInv arena w reach)
    (hpublish : publish arena w highWater tail = .ok (w', moved)) : DataInv arena w' reach := by
  obtain rfl | ⟨hinside, haligned, hshort, hslice, hmonotone, rfl⟩ := publish_cases hpublish
  · exact h
  · exact
      { slices := h.slices
        accepted := h.accepted
        written := h.written
        published := h.published.trans hmonotone
        aligned := h.aligned
        frontier := ⟨hinside, Nat.dvd_of_mod_eq_zero haligned, hshort, hslice⟩
        commands := fun pending hmem highWater' tail' hfrontier =>
          have hold := h.commands pending hmem highWater' tail' hfrontier
          ⟨hold.1.trans hmonotone, hold.2⟩
        tail := h.tail
        place := h.place.frame rfl rfl rfl hmonotone rfl }

theorem request_frontier {request : Request ν} {published highWater : ℕ}
    {publishedTail tail : List UInt8}
    (h : (request.command published publishedTail).frontier = some (highWater, tail)) :
    highWater = published ∧ tail = publishedTail := by
  cases request <;> simp_all [Request.command, Command.frontier]

theorem admit_dataInv {config : WriterConfig} {arena : List UInt8} {w w' : AttemptWriter.Writer ε ν}
    {reach : ℕ} {request : Request ν} {future : Option ℕ} (h : DataInv arena w reach)
    (hadmitted : admitRequest config w request = .ok (w', future)) : DataInv arena w' reach := by
  obtain rfl | ⟨-, rfl⟩ := admit_cases hadmitted
  · exact h
  refine ⟨h.slices, h.accepted, h.written, h.published, h.aligned, h.frontier, ?_, h.tail, ?_⟩
  · intro pending hmem highWater tail hfrontier
    have hcases : pending ∈ outstanding w ∨
        pending = ⟨request.command w.published w.publishedTail, w.nextFuture⟩ := by
      simpa [outstanding, or_assoc] using hmem
    rcases hcases with hmem | rfl
    · exact h.commands pending hmem highWater tail hfrontier
    · obtain ⟨rfl, rfl⟩ := request_frontier hfrontier
      exact ⟨le_rfl, h.frontier⟩
  · refine h.place.frame rfl rfl rfl le_rfl ?_
    rw [WriterMachine.transition_failureOf, event_isFailureEvent, Option.or_none]

/-! ## The worker -/

theorem slice_length {arena : List UInt8} {start stop : ℕ} (hle : stop ≤ arena.length) :
    (slice arena start (stop - start)).length = stop - start := by
  simp only [slice, List.length_take, List.length_drop]
  omega

/-- A call of the target that is no chunk leaves the delivered data as it is. -/
theorem called_dataInv {arena : List UInt8} {w : AttemptWriter.Writer ε ν} {reach reach' : ℕ} {call : Call ν}
    (answer : Except ε Result) {ok : Result → Worker ε ν} {failed : ε → Worker ε ν}
    (h : DataInv arena w reach) (hwritten : w.written ≤ reach') (hpublished : reach' ≤ w.published)
    (hslices : ∀ error, Slices arena (⟨call, error⟩ :: w.calls) reach')
    (hplain : acceptedReach w.written w.worker = w.written)
    (haccepted : ∀ result, Slices arena (⟨call, none⟩ :: w.calls.filter isAccepted)
      (acceptedReach w.written (ok result)))
    (hmem : ∀ pending ∈ outstanding (w.called call answer ok failed), pending ∈ outstanding w)
    (hok : ∀ result, PlaceFacts { w with calls := ⟨call, none⟩ :: w.calls, worker := ok result }
      reach' (ok result))
    (hfailed : ∀ error, ∃ owner, failed error = .recording owner error) :
    DataInv arena (w.called call answer ok failed) reach' := by
  cases answer with
  | ok result =>
    exact ⟨hslices none, haccepted result, hwritten, hpublished, h.aligned, h.frontier,
      fun pending hpending => h.commands pending (hmem pending hpending), h.tail.cons _, hok result⟩
  | error error =>
    obtain ⟨owner, hrecording⟩ := hfailed error
    have hkept := h.accepted
    rw [hplain] at hkept
    refine ⟨hslices (some error), ?_, hwritten, hpublished, h.aligned, h.frontier,
      fun pending hpending => h.commands pending (hmem pending hpending), h.tail.cons _, ?_⟩
    · simp only [AttemptWriter.Writer.called, hrecording]
      exact hkept
    · simp [AttemptWriter.Writer.called, hrecording, PlaceFacts]

theorem drained_place {w : AttemptWriter.Writer ε ν} {reach : ℕ} {owner : Owner ν} (wrote : Bool)
    (hreach : reach = w.written) (hreached : ∀ pending, owner = .command pending → Reached w pending) :
    PlaceFacts w reach (drained owner wrote) := by
  cases owner with
  | idle => cases wrote <;> exact fun _ => hreach
  | command pending => exact ⟨fun _ => hreach, fun _ => hreached pending rfl⟩

theorem acceptedReach_drained (written : ℕ) (owner : Owner ν) (wrote : Bool) :
    acceptedReach written (drained owner wrote : Worker ε ν) = written := by
  cases owner <;> cases wrote <;> rfl

theorem startDrain_dataInv {arena : List UInt8} {w : AttemptWriter.Writer ε ν} {reach : ℕ} {owner : Owner ν}
    (h : DataInv arena w reach) (hfailure : FailureInv w) (hworker : w.worker = .drain owner)
    (hmem : ∀ pending ∈ outstanding (startDrain w owner), pending ∈ outstanding w) :
    DataInv arena (startDrain w owner) reach := by
  have hreach : reach = w.written := by
    have hplace := h.place
    have hhealthy := hfailure.facts
    rw [hworker] at hplace hhealthy
    exact hplace hhealthy
  revert hmem
  unfold startDrain
  split
  · intro hmem
    exact h.move rfl rfl rfl rfl rfl (by rw [hworker]; rfl) hmem
      ⟨hreach, rfl, rfl, le_rfl, h.frontier.aligned, fun _ hcommand => by cases hcommand⟩
  · rename_i pending
    have hpending : pending ∈ outstanding w := by
      simp [outstanding, hworker, popped, Owner.popped]
    split
    · rename_i limit tail hfrontier
      have hadmitted := h.commands pending hpending limit tail hfrontier
      have htarget : min limit w.published = limit := min_eq_left hadmitted.1
      intro hmem
      refine h.move rfl rfl rfl rfl rfl (by rw [hworker]; rfl) hmem ⟨hreach, rfl, rfl, min_le_right _ _, ?_, ?_⟩
      · simpa [htarget] using hadmitted.2.aligned
      · rintro other ⟨⟩
        exact ⟨rfl, by simpa [htarget] using hfrontier⟩
    · rename_i hnone
      intro hmem
      exact h.move rfl rfl rfl rfl rfl (by rw [hworker]; rfl) hmem
        ⟨fun _ => hreach, fun _ _ _ hfrontier => by simp [hnone] at hfrontier⟩

theorem draining_dataInv {config : WriterConfig} {arena : List UInt8} {w : AttemptWriter.Writer ε ν} {reach : ℕ}
    {owner : Owner ν} {d : Drain} (answer : Except ε Result) (h : DataInv arena w reach)
    (hworker : w.worker = .draining owner d)
    (hmem : ∀ pending ∈ outstanding (draining config arena w owner d answer),
      pending ∈ outstanding w) :
    ∃ reach', DataInv arena (draining config arena w owner d answer) reach' := by
  obtain ⟨hreach, hfacts⟩ : PlaceFacts w reach (.draining owner d) := hworker ▸ h.place
  have hstart : reach = d.start := hreach.trans hfacts.start.symm
  have hinside := hfacts.target.trans h.frontier.inside
  have hplain : acceptedReach w.written w.worker = w.written := by rw [hworker]; rfl
  have haccepted : Slices arena (w.calls.filter isAccepted) d.start := by
    rw [hfacts.start, ← hplain]
    exact h.accepted
  revert hmem
  unfold draining
  split
  · rename_i hmore
    -- the next chunk starts where the delivered records end
    simp only
    generalize hstop : min d.target (d.start + config.chunkRecords * recordSize) = stop
    have hpos : 0 < config.chunkRecords * recordSize :=
      Nat.mul_pos config.chunkRecords_pos (by decide)
    have hlt : d.start < stop := by omega
    have hle : stop ≤ d.target := by omega
    have haligned : recordSize ∣ stop := by
      have hsum : recordSize ∣ d.start + config.chunkRecords * recordSize :=
        Nat.dvd_add (hfacts.start ▸ h.aligned) (Nat.dvd_mul_left _ _)
      rcases le_total d.target (d.start + config.chunkRecords * recordSize) with hmin | hmin
      · rw [← hstop, min_eq_left hmin]
        exact hfacts.aligned
      · rw [← hstop, min_eq_right hmin]
        exact hsum
    generalize (if stop = d.target then d.frontierTail else []) = following
    intro hmem
    refine ⟨stop, called_dataInv answer h ?_ (hle.trans hfacts.target) ?_ hplain
      (fun _ => .chunk following none haccepted hlt (hle.trans hinside)) hmem (fun _ => ?_)
      fun _ => ⟨owner, rfl⟩⟩
    · rw [← hfacts.start]
      exact hlt.le
    · intro error
      exact .chunk following error (hstart ▸ h.slices) hlt (hle.trans hinside)
    · refine ⟨rfl, ⟨hfacts.start, hfacts.tail, hfacts.target, hfacts.aligned, hfacts.command⟩, hlt,
        hle, haligned, .inr ⟨d.start, _, List.mem_cons_self, ?_⟩⟩
      rw [slice_length (hle.trans hinside)]
      omega
  · rename_i hnotMore
    split
    · rename_i htail
      intro hmem
      refine ⟨reach, called_dataInv answer h h.written h.published ?_ hplain
        (fun _ => hfacts.start ▸ .tail d.frontierTail none haccepted) hmem (fun _ => ?_)
        fun _ => ⟨owner, rfl⟩⟩
      · intro error
        rw [← hstart]
        exact .tail d.frontierTail error h.slices
      · refine ⟨hreach, ⟨hfacts.start, hfacts.tail, hfacts.target, hfacts.aligned, hfacts.command⟩,
          htail.1, .inr ⟨d.start, [], List.mem_cons_self, ?_⟩⟩
        simp [hfacts.start]
    · rename_i hsame
      intro hmem
      refine ⟨reach, h.move rfl rfl rfl rfl rfl ?_ hmem (drained_place d.wrote hreach ?_)⟩
      · exact (acceptedReach_drained _ _ _).trans hplain.symm
      intro pending hcommand highWater tail hfrontier
      obtain ⟨hlooping, hown⟩ := hfacts.command pending hcommand
      obtain ⟨rfl, rfl⟩ : d.target = highWater ∧ d.frontierTail = tail := by
        simpa [hown] using hfrontier
      have hge : d.target ≤ d.start := not_lt.mp fun hlt => hnotMore ⟨hlooping, hlt⟩
      rcases hge.lt_or_eq with hlt | heq
      · exact .inl (hlt.trans_eq hfacts.start)
      · have hequal : d.frontierTail = d.writtenTail := not_not.mp fun hne => hsame ⟨heq.symm, hne⟩
        exact .inr ⟨heq.trans hfacts.start, hequal.trans hfacts.tail⟩

theorem recordAppended_dataInv {arena : List UInt8} {w : AttemptWriter.Writer ε ν} {reach : ℕ} {owner : Owner ν}
    {d : Drain} {stop : ℕ} {following : List UInt8} (h : DataInv arena w reach)
    (hworker : w.worker = .appended owner d stop following)
    (hmem : ∀ pending ∈ outstanding (recordAppended w owner d stop following),
      pending ∈ outstanding w) :
    DataInv arena (recordAppended w owner d stop following) reach := by
  obtain ⟨rfl, hfacts, hlt, hle, haligned, htail⟩ :
    PlaceFacts w reach (.appended owner d stop following) := hworker ▸ h.place
  have haccepted := h.accepted
  rw [hworker] at haccepted
  refine ⟨h.slices, haccepted, le_rfl, h.published, haligned, h.frontier,
    fun pending hpending => h.commands pending (hmem pending hpending), htail, rfl, rfl, rfl,
    hfacts.target, hfacts.aligned, ?_⟩
  rintro pending rfl
  exact ⟨rfl, (hfacts.command pending rfl).2⟩

theorem recordTail_dataInv {arena : List UInt8} {w : AttemptWriter.Writer ε ν} {reach : ℕ} {owner : Owner ν}
    {d : Drain} (h : DataInv arena w reach) (hworker : w.worker = .tailAppended owner d)
    (hmem : ∀ pending ∈ outstanding (recordTail w owner d), pending ∈ outstanding w) :
    DataInv arena (recordTail w owner d) reach := by
  obtain ⟨hreach, hfacts, htarget, htail⟩ : PlaceFacts w reach (.tailAppended owner d) :=
    hworker ▸ h.place
  have haccepted := h.accepted
  rw [hworker] at haccepted
  refine ⟨h.slices, ?_, h.written, h.published, h.aligned, h.frontier,
    fun pending hpending => h.commands pending (hmem pending hpending), htail,
    drained_place true hreach ?_⟩
  · rw [recordTail, acceptedReach_drained]
    exact haccepted
  intro pending hcommand highWater tail hfrontier
  obtain ⟨rfl, rfl⟩ : d.target = highWater ∧ d.frontierTail = tail := by
    simpa [(hfacts.command pending hcommand).2] using hfrontier
  exact .inr ⟨htarget.symm.trans hfacts.start, rfl⟩

theorem call_ne_appendChunk (command : Command ν) (offset : ℕ) (chunk tail : List UInt8) :
    command.call ≠ .appendChunk offset chunk tail := by
  cases command <;> simp [Command.call]

theorem flush_dataInv {arena : List UInt8} {w : AttemptWriter.Writer ε ν} {reach : ℕ} {owner : Owner ν}
    {items : List (Pending ν)} {latched : ε} (h : DataInv arena w reach) (hfailure : FailureInv w)
    (hworker : w.worker = .flushing owner items latched)
    (hmem : ∀ pending ∈ outstanding (flush w owner items latched), pending ∈ outstanding w) :
    DataInv arena (flush w owner items latched) reach := by
  have hlatched : failureOf w.state = some latched := by
    simpa [hworker, FailureFacts] using hfailure.facts
  have hplain : acceptedReach w.written w.worker = w.written := by rw [hworker]; rfl
  have hnext : acceptedReach w.written (afterFailure owner latched) =
      acceptedReach w.written w.worker := by
    rw [hplain]
    cases owner <;> rfl
  have hplace : ∀ w', failureOf w'.state = failureOf w.state →
      PlaceFacts w' reach (afterFailure owner latched) := by
    intro w' hstate
    cases owner <;> exact fun hhealthy => by simp [hstate, hlatched] at hhealthy
  revert hmem
  unfold flush
  split
  · exact fun hmem => h.move rfl rfl rfl rfl rfl hnext hmem (hplace _ rfl)
  · split
    · exact fun hmem => h.move rfl rfl rfl rfl rfl hnext hmem (hplace _ rfl)
    · exact fun hmem => h.move rfl rfl rfl rfl rfl hplain.symm hmem fun hhealthy => by
        simp [AttemptWriter.Writer.goto, AttemptWriter.Writer.complete, hlatched] at hhealthy

theorem worker_dataInv {w : AttemptWriter.Writer ε ν} {arena : List UInt8} {reach : ℕ} (config : WriterConfig)
    (answer : Except ε Result) (h : DataInv arena w reach) (hqueue : QueueInv w)
    (hfailure : FailureInv w) :
    ∃ reach', DataInv arena (workerStep config arena w answer) reach' := by
  have hmem : ∀ pending ∈ outstanding (workerStep config arena w answer), pending ∈ outstanding w :=
    fun _ => (worker_queueStep config arena answer hqueue).mem
  have hplace := h.place
  have hfacts := hfailure.facts
  revert hmem
  unfold workerStep
  split <;> rename_i hworker <;> rw [hworker] at hplace hfacts <;> intro hmem
  · refine ⟨reach, ?_⟩
    revert hmem
    unfold nextCommand
    split <;> exact fun hmem => h.move rfl rfl rfl rfl rfl (by rw [hworker]; rfl) hmem hplace
  · refine ⟨reach, ?_⟩
    revert hmem
    unfold idleCheck
    split <;> exact fun hmem => h.move rfl rfl rfl rfl rfl (by rw [hworker]; rfl) hmem hplace
  · refine ⟨reach, ?_⟩
    revert hmem
    split
    · exact fun hmem => h.move rfl rfl rfl rfl rfl (by rw [hworker]; rfl) hmem hplace
    · exact fun _ => h
  · exact ⟨reach, h.move rfl rfl rfl rfl rfl (by rw [hworker]; rfl) hmem hplace⟩
  · exact ⟨reach, startDrain_dataInv h hfailure hworker hmem⟩
  · exact draining_dataInv answer h hworker hmem
  · exact ⟨reach, recordAppended_dataInv h hworker hmem⟩
  · exact ⟨reach, recordTail_dataInv h hworker hmem⟩
  · refine ⟨reach, ?_⟩
    revert hmem
    unfold commandCheck
    split
    · exact fun hmem => h.move rfl rfl rfl rfl rfl (by rw [hworker]; rfl) hmem hplace
    · exact fun hmem => h.move rfl rfl rfl rfl rfl (by rw [hworker]; rfl) hmem hplace
    · split
      · exact fun hmem => h.move rfl rfl rfl rfl rfl (by rw [hworker]; rfl) hmem hplace
      · rename_i hnone
        exact fun hmem => h.move rfl rfl rfl rfl rfl (by rw [hworker]; rfl) hmem
          ⟨hplace, fun _ _ _ hfrontier => by simp [hnone] at hfrontier⟩
  · rename_i pending
    have hclose : pending.command.isClose = true := hfacts
    refine ⟨reach, ?_⟩
    revert hmem
    unfold closeCheck
    split
    · exact fun hmem => h.move rfl rfl rfl rfl rfl (by rw [hworker]; rfl) hmem hplace
    · exact fun hmem => h.move rfl rfl rfl rfl rfl (by rw [hworker]; rfl) hmem
        ⟨hplace, fun hopen => by simp [hopen] at hclose⟩
  · have hplain : acceptedReach w.written w.worker = w.written := by rw [hworker]; rfl
    exact ⟨reach, called_dataInv answer h h.written h.published
      (fun error => .other error h.slices (call_ne_appendChunk _)) hplain
      (fun _ => .other none (hplain ▸ h.accepted) (call_ne_appendChunk _)) hmem (fun _ => hplace.1)
      fun _ => ⟨_, rfl⟩⟩
  · rename_i pending result
    obtain ⟨hstate, hnext, sealResult, heq⟩ := recordSuccess_cases w pending result
    have hsame : failureOf (recordSuccess w pending result).state = failureOf w.state := by
      rw [hstate, WriterMachine.transition_failureOf, successEvent_isFailureEvent, Option.or_none]
    refine ⟨reach, ?_⟩
    rw [heq] at hmem ⊢
    rcases hnext with hnext | hnext <;> simp only [hnext] at hmem ⊢ <;>
      exact h.move rfl rfl rfl rfl rfl (by rw [hworker]; rfl) hmem
        fun hhealthy => hplace (hsame ▸ hhealthy)
  · exact ⟨reach, h.move rfl rfl rfl rfl rfl (by rw [hworker]; rfl) hmem hplace⟩
  · rename_i pending outcome
    refine ⟨reach, ?_⟩
    revert hmem
    cases hclose : pending.command.isClose <;>
      exact fun hmem => h.move rfl rfl rfl rfl rfl (by rw [hworker]; rfl) hmem hplace
  · rename_i owner error
    obtain ⟨latched, hlatched, -, -, heq⟩ := recordFailure_cases w owner error
    refine ⟨reach, ?_⟩
    rw [heq] at hmem ⊢
    exact h.move rfl rfl rfl rfl rfl (by rw [hworker]; rfl) hmem fun hhealthy => by simp [hlatched] at hhealthy
  · exact ⟨reach, flush_dataInv h hfailure hworker hmem⟩
  · exact ⟨reach, h⟩

structure Inv (arena : List UInt8) (w : AttemptWriter.Writer ε ν) : Prop where
  data : ∃ reach, DataInv arena w reach
  queue : QueueInv w
  failure : FailureInv w

theorem step_inv {w : AttemptWriter.Writer ε ν} {arena : List UInt8} (config : WriterConfig)
    (event : Event ε ν) (h : Inv arena w) : Inv arena (step config arena w event) := by
  refine ⟨?_, step_queueInv config arena event h.queue, step_failureInv config arena event h.failure⟩
  obtain ⟨reach, hdata⟩ := h.data
  unfold step
  split
  · split
    · exact ⟨reach, publish_dataInv hdata ‹_›⟩
    · exact ⟨reach, hdata⟩
  · split
    · exact ⟨reach, admit_dataInv hdata ‹_›⟩
    · exact ⟨reach, hdata⟩
  · exact worker_dataInv config _ hdata h.queue h.failure

theorem new_inv (arena : List UInt8) : Inv arena (AttemptWriter.Writer.new : AttemptWriter.Writer ε ν) where
  data := by
    refine ⟨0, .nil, .nil, le_rfl, le_rfl, Nat.dvd_zero _, ?_, ?_, .inl rfl, fun _ => rfl⟩
    · exact ⟨Nat.zero_le _, Nat.dvd_zero _, Nat.zero_lt_succ _, by simp [slice, AttemptWriter.Writer.new]⟩
    · simp [outstanding, AttemptWriter.Writer.new, popped, flushed]
  queue := new_queueInv
  failure := new_failureInv

theorem run_inv (config : WriterConfig) (arena : List UInt8) (events : List (Event ε ν)) :
    Inv arena (run config arena AttemptWriter.Writer.new events) :=
  TransitionRuns.run_invariant (Q := fun _ => True) (fun _ event _ h => step_inv config event h)
    (new_inv arena) fun _ _ => trivial

theorem run_failure (config : WriterConfig) (arena : List UInt8) {w : AttemptWriter.Writer ε ν} {error : ε}
    (h : failureOf w.state = some error) (events : List (Event ε ν)) :
    failureOf (run config arena w events).state = some error :=
  TransitionRuns.run_invariant (P := fun w : AttemptWriter.Writer ε ν => failureOf w.state = some error) (Q := fun _ => True)
    (fun _ event _ h => step_failure config arena event h) h fun _ _ => trivial

/-! ## The results -/

def isBarrier : Call ν → Bool
  | .checkpoint | .interrupt | .sealing _ | .publishPrefix => true
  | _ => false

theorem called_calls (w : AttemptWriter.Writer ε ν) (call : Call ν) (answer : Except ε Result)
    (ok : Result → Worker ε ν) (failed : ε → Worker ε ν) :
    ∃ error, (w.called call answer ok failed).calls = ⟨call, error⟩ :: w.calls := by
  cases answer with
  | ok result => exact ⟨none, rfl⟩
  | error error => exact ⟨some error, rfl⟩

theorem worker_calls (config : WriterConfig) (arena : List UInt8) (w : AttemptWriter.Writer ε ν)
    (answer : Except ε Result) :
    (workerStep config arena w answer).calls = w.calls ∨
      (∃ offset chunk tail error, (workerStep config arena w answer).calls =
        ⟨.appendChunk offset chunk tail, error⟩ :: w.calls) ∨
      ∃ pending error, w.worker = .calling pending ∧
        (workerStep config arena w answer).calls = ⟨pending.command.call, error⟩ :: w.calls := by
  unfold workerStep
  split
  case h_6 owner d _ =>
    unfold draining
    split
    · obtain ⟨error, hcalls⟩ := called_calls w (.appendChunk d.start _ _) answer _ _
      exact .inr (.inl ⟨_, _, _, error, hcalls⟩)
    · split
      · obtain ⟨error, hcalls⟩ := called_calls w (.appendChunk d.start [] d.frontierTail) answer
          (fun _ => .tailAppended owner d) (.recording owner)
        exact .inr (.inl ⟨_, _, _, error, hcalls⟩)
      · exact .inl rfl
  case h_11 pending hworker =>
    obtain ⟨error, hcalls⟩ := called_calls w pending.command.call answer (.succeeded pending)
      (.recording (.command pending))
    exact .inr (.inr ⟨pending, error, hworker, hcalls⟩)
  case h_12 pending result _ =>
    obtain ⟨-, -, sealResult, heq⟩ := recordSuccess_cases w pending result
    rw [heq]
    exact .inl rfl
  case h_15 owner error _ =>
    obtain ⟨latched, -, -, -, heq⟩ := recordFailure_cases w owner error
    rw [heq]
    exact .inl rfl
  case h_1 => unfold nextCommand; split <;> exact .inl rfl
  case h_2 => unfold idleCheck; split <;> exact .inl rfl
  case h_3 => split <;> exact .inl rfl
  case h_5 => unfold startDrain; split <;> [exact .inl rfl; (split <;> exact .inl rfl)]
  case h_9 =>
    unfold commandCheck
    split <;> [exact .inl rfl; exact .inl rfl; (split <;> exact .inl rfl)]
  case h_10 => unfold closeCheck; split <;> exact .inl rfl
  case h_16 => unfold flush; split <;> [exact .inl rfl; (split <;> exact .inl rfl)]
  all_goals exact .inl rfl

/-- All the target calls that a step can make. -/
theorem step_calls (config : WriterConfig) (arena : List UInt8) (w : AttemptWriter.Writer ε ν)
    (event : Event ε ν) :
    (step config arena w event).calls = w.calls ∨
      (∃ offset chunk tail error, (step config arena w event).calls =
        ⟨.appendChunk offset chunk tail, error⟩ :: w.calls) ∨
      ∃ pending error, w.worker = .calling pending ∧
        (step config arena w event).calls = ⟨pending.command.call, error⟩ :: w.calls := by
  unfold step
  split
  · left
    split
    · rename_i hpublish
      obtain rfl | ⟨-, -, -, -, -, rfl⟩ := publish_cases hpublish <;> rfl
    · rfl
  · left
    split
    · rename_i hadmitted
      obtain rfl | ⟨-, rfl⟩ := admit_cases hadmitted <;> rfl
    · rfl
  · exact worker_calls config arena w _

theorem isBarrier_frontier {command : Command ν} (h : isBarrier command.call = true) :
    command.isClose = false ∧ ∃ highWater tail, command.frontier = some (highWater, tail) := by
  cases command <;> simp_all [Command.call, isBarrier, Command.isClose, Command.frontier]

/-- An aligned high-water below the written one leaves room for its whole tail. -/
theorem Frontier.covered {arena : List UInt8} {highWater written : ℕ} {tail : List UInt8}
    (h : Frontier arena highWater tail) (haligned : recordSize ∣ written)
    (hlt : highWater < written) : highWater + tail.length ≤ written := by
  obtain ⟨a, rfl⟩ := h.aligned
  obtain ⟨b, rfl⟩ := haligned
  have hshort := h.short
  have hab : a < b := Nat.lt_of_mul_lt_mul_left hlt
  have hstep : recordSize * a + recordSize ≤ recordSize * b := by
    rw [← Nat.mul_succ]
    exact Nat.mul_le_mul_left _ hab
  omega

theorem closes_after_error {calls newer older : List (Called ε ν)} {called : Called ε ν}
    (h : ClosesAfterError calls) (hcalls : calls = newer ++ called :: older)
    (herror : called.error ≠ none) : ∀ later ∈ newer, later.call = .close := by
  induction newer generalizing calls with
  | nil => simp
  | cons first rest ih =>
    subst hcalls
    obtain ⟨hrest, hfirst⟩ := h
    have hseen : firstError (rest ++ called :: older) ≠ none := by
      clear ih hrest hfirst
      induction rest with
      | nil =>
        cases hold : firstError older <;> simp [firstError, hold, herror]
      | cons other rest ih' =>
        cases hold : firstError (rest ++ called :: older) with
        | none => exact absurd hold ih'
        | some error => simp [firstError, hold]
    intro later hlater
    rcases List.mem_cons.mp hlater with rfl | hlater
    · exact hfirst.resolve_left hseen
    · exact ih hrest rfl later hlater

/-- For every interleaving and every pattern of target failures: the record chunks are passed in
order, each once; the accepted ones end at the written high-water, which the worker records after
each call; a barrier finds its command's frontier delivered; after the first failure, which is
never replaced, the target is only closed; and a worker that exits completed every future once. -/
theorem writer_delivery (config : WriterConfig) (arena : List UInt8) (events : List (Event ε ν)) :
    (∃ reach, Slices arena (run config arena AttemptWriter.Writer.new events).calls reach ∧
      passedBytes (run config arena AttemptWriter.Writer.new events).calls = arena.take reach ∧
      (run config arena AttemptWriter.Writer.new events).written ≤ reach ∧
      reach ≤ (run config arena AttemptWriter.Writer.new events).published) ∧
    Slices arena ((run config arena AttemptWriter.Writer.new events).calls.filter isAccepted)
      (acceptedReach (run config arena AttemptWriter.Writer.new events).written
        (run config arena AttemptWriter.Writer.new events).worker) ∧
    (∀ event called, isBarrier called.call = true →
      (step config arena (run config arena AttemptWriter.Writer.new events) event).calls =
        called :: (run config arena AttemptWriter.Writer.new events).calls →
      ∃ pending highWater tail,
        (run config arena AttemptWriter.Writer.new events).worker = .calling pending ∧
        pending.command.call = called.call ∧
        pending.command.frontier = some (highWater, tail) ∧
        highWater ≤ (run config arena AttemptWriter.Writer.new events).written ∧
        (highWater + tail.length ≤ (run config arena AttemptWriter.Writer.new events).written ∨
          highWater = (run config arena AttemptWriter.Writer.new events).written ∧
            TailDelivered (run config arena AttemptWriter.Writer.new events).calls highWater tail)) ∧
    (∀ newer called older, (run config arena AttemptWriter.Writer.new events).calls = newer ++ called :: older →
      called.error ≠ none → ∀ later ∈ newer, later.call = .close) ∧
    (∀ error later, failureOf (run config arena AttemptWriter.Writer.new events).state = some error →
      firstError (run config arena AttemptWriter.Writer.new events).calls = some error ∧
      failureOf (run config arena AttemptWriter.Writer.new (events ++ later)).state = some error) ∧
    ((run config arena AttemptWriter.Writer.new events).completions.map Prod.fst).Nodup ∧
    ((run config arena AttemptWriter.Writer.new events).worker = .exited →
      ((run config arena AttemptWriter.Writer.new events).completions.map Prod.fst).Perm
        (List.range (run config arena AttemptWriter.Writer.new events).nextFuture)) := by
  have hinv := run_inv config arena events
  generalize hw : run config arena AttemptWriter.Writer.new events = w at hinv ⊢
  obtain ⟨reach, hdata⟩ := hinv.data
  refine ⟨⟨reach, hdata.slices, hdata.slices.passedBytes_eq, hdata.written, hdata.published⟩,
    hdata.accepted, ?_, ?_, ?_, ?_, ?_⟩
  · intro event called hbarrier hcalls
    have hpending : ∃ pending, w.worker = .calling pending ∧ pending.command.call = called.call := by
      rcases step_calls config arena w event with hsame | ⟨_, _, _, _, happend⟩ |
        ⟨pending, error, hworker, hcall⟩
      · simp [hsame] at hcalls
      · obtain rfl := (List.cons.inj (hcalls.symm.trans happend)).1
        simp [isBarrier] at hbarrier
      · obtain rfl := (List.cons.inj (hcalls.symm.trans hcall)).1
        exact ⟨pending, hworker, rfl⟩
    obtain ⟨pending, hworker, hcall⟩ := hpending
    obtain ⟨hopen, highWater, tail, hfrontier⟩ := isBarrier_frontier (hcall ▸ hbarrier)
    have hplace : PlaceFacts w reach (.calling pending) := hworker ▸ hdata.place
    have hadmitted := hdata.commands pending (by simp [outstanding, hworker, popped]) highWater tail
      hfrontier
    refine ⟨pending, highWater, tail, hworker, hcall, hfrontier, ?_⟩
    rcases hplace.2 hopen highWater tail hfrontier with hlt | ⟨rfl, rfl⟩
    · exact ⟨hlt.le, .inl (hadmitted.2.covered hdata.aligned hlt)⟩
    · exact ⟨le_rfl, .inr ⟨rfl, hdata.tail⟩⟩
  · exact fun newer called older hcalls herror => closes_after_error hinv.failure.closes hcalls herror
  · intro error later herror
    refine ⟨?_, ?_⟩
    · rw [hinv.failure.first]
      cases hworker : w.worker <;> simp [retained, herror]
    · have hlater := run_failure config arena herror later
      rw [← hw] at hlater
      unfold run at hlater ⊢
      rw [TransitionRuns.run_append]
      exact hlater
  · exact (List.nodup_append.mp (hinv.queue.futures.nodup_iff.mpr List.nodup_range)).1
  · intro hexited
    have hout : outstanding w = [] := by
      simp [outstanding, hexited, popped, flushed, (hinv.queue.exited hexited).2]
    simpa [hout] using hinv.queue.futures

/-- A writer is prepared, begins to read and is given one record. -/
def oneRecord : List (Event ℕ ℕ) :=
  [.request .start, .worker (.ok none), .worker (.ok none), .worker (.ok none), .worker (.ok none),
    .worker (.ok none), .request (.readBegin 0), .worker (.ok none), .worker (.ok none),
    .worker (.ok none), .worker (.ok none), .worker (.ok none), .publish 444 []]

/-- The record is delivered, and the writer is sealed and closed. -/
def closedRecord : List (Event ℕ ℕ) :=
  oneRecord ++ .request (.sealing 0) :: List.replicate 12 (.worker (.ok none)) ++
    .request .close :: List.replicate 12 (.worker (.ok none))

set_option maxRecDepth 4000 in
theorem writer_delivery_closed :
    (∃ reach, Slices (List.replicate 444 0) (run ⟨1, 4, by decide⟩ (List.replicate 444 0)
        AttemptWriter.Writer.new closedRecord).calls reach ∧ 444 ≤ reach) ∧
    ((run ⟨1, 4, by decide⟩ (List.replicate 444 0) AttemptWriter.Writer.new
      closedRecord).completions.map Prod.fst).Perm (List.range 4) := by
  have hdelivery := writer_delivery ⟨1, 4, by decide⟩ (List.replicate 444 0) closedRecord
  obtain ⟨⟨reach, hslices, -, hwritten, -⟩, -, -, -, -, -, hexited⟩ := hdelivery
  have hrun : (run ⟨1, 4, by decide⟩ (List.replicate 444 0) AttemptWriter.Writer.new
      closedRecord).written = 444 := by decide +kernel
  have hexit : (run ⟨1, 4, by decide⟩ (List.replicate 444 0) AttemptWriter.Writer.new
      closedRecord).worker = .exited := by rfl
  exact ⟨⟨reach, hslices, hrun ▸ hwritten⟩, hexited hexit⟩

/-- The target refuses the chunk: it was passed, and the written high-water stays below it. -/
theorem refused_chunk_beyond_written :
    ¬ ∀ (config : WriterConfig) (arena : List UInt8) (events : List (Event ℕ ℕ)),
      Slices arena (run config arena AttemptWriter.Writer.new events).calls
        (run config arena AttemptWriter.Writer.new events).written := by
  intro hall
  have hslices := hall ⟨1, 4, by decide⟩ (List.replicate 444 0)
    (oneRecord ++ [.worker (.ok none), .worker (.ok none), .worker (.ok none), .worker (.error 7),
      .worker (.ok none), .worker (.ok none)])
  have hpassed := congrArg List.length hslices.passedBytes_eq
  revert hpassed
  decide +kernel

end WriterDelivery
