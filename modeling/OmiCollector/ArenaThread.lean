import OmiCollector.CollectorWorld

/-! The invariant of the legs, by where the collector is, and the steps of the writer's thread. -/
namespace ArenaLegs

open ByteCodec RefusalLogic
open CaptureStore (StoreConfig)
open TransferArena (ReadBeginNotification recordSize)
open AttemptWriter (WriterConfig Request Call Result admitRequest publish workerStep slice)
open WriterMachine (failureOf)
open WriterQueue (outstanding QueueInv FailureInv firstError)
open WriterFrontiers
open ReadStream (Ingest Writer IngestM IngestError Synced WriterReady Received Reads turn)
open StagingTarget (Target TargetError Fault Stored Level Prepared SameLeg SameRows misplaced
  perform)

variable {D : Type} [DecidableEq D] {ε α : Type}

/-! ## The invariant -/

section Invariant

variable {cfg : StoreConfig D} {config : WriterConfig} {first base : ℕ} {x y : World D}

omit [DecidableEq D]

/-- What holds of the arena's records in every world, whatever the target answered. -/
structure Sited (cfg : StoreConfig D) (first base : ℕ) (x : World D) : Prop where
  linked : Linked x.ingest
  stored : Stored cfg first base base x.arena.startSequence x.got x.target
  sourceStart : x.target.sourceStart = x.arena.startSequence
  placed : ∀ called ∈ x.writer.calls, ∀ e, called.error = some e → e ∉ misplaced
  covers : reachOf x.writer = 0 ∨ first + base = x.arena.startSequence ∧
    x.arena.startSequence + reachOf x.writer / recordSize ≤ first + x.target.store.records.length
  tail : ∀ offset chunk following older,
    x.writer.calls = ⟨.appendChunk offset chunk following, none⟩ :: older →
      following ≠ [] → ∃ stored, x.target.store.tail = some stored ∧
        stored.byteOffset = ((x.arena.startSequence : ℤ) - first) * recordSize +
          (offset + chunk.length : ℕ) ∧ following <+: stored.data

/-- What was accepted is what is durable. -/
structure Leveled (first base : ℕ) (x : World D) : Prop where
  origin : first + base = x.arena.startSequence
  level : Level first x.arena.startSequence x.target (reachOf x.writer) (tailOf x.writer)

/-- The target was told of the leg, and nothing was received after its end. -/
structure Bound (x : World D) : Prop where
  prepared : Prepared x.arena.startSequence x.target x.arena.legOffset x.ingest.count
  begun : x.arena.legOffset ≤ x.writer.written
  fits : x.arena.receivedBytes ≤ x.arena.legOffset + x.ingest.count * recordSize

/-- Nothing waits to be drained; before the first leg nothing was received. -/
structure Rested (first base : ℕ) (x : World D) : Prop where
  caught : CaughtUp x.writer
  level : Leveled first base x ∨
    x.arena.receivedBytes = 0 ∧ x.target.store.records.length = base

def isLeg {ν : Type} : AttemptWriter.Command ν → Bool
  | .prepareLeg _ _ | .readBegin _ | .checkpoint _ _ | .interrupt _ _ => true
  | _ => false

/-- The writer takes the commands of a leg, and has no other to do. -/
structure Serving (w : Writer ε) : Prop where
  queue : QueueInv w
  state : w.state = .prepared ∨ w.state = .reading
  commands : ∀ pending ∈ outstanding w, isLeg pending.command = true

/-- No preparation of a leg is to be done. -/
def NoLeg (w : Writer ε) : Prop :=
  ∀ pending ∈ outstanding w, ∀ start count, pending.command ≠ .prepareLeg start count

/-- The arena selected the leg, and READ_BEGIN did not come yet. -/
structure Selected (i : Ingest ε) : Prop where
  phase : i.phase = .awaitBegin
  leg : i.arena.legStart = i.start ∧ i.arena.legBytes = 0 ∧
    i.arena.legTotalBytes = i.count * recordSize
  range : i.arena.startSequence ≤ i.start ∧ i.start + i.count ≤ i.arena.endSequence
  fits : i.arena.receivedBytes ≤ i.arena.legOffset + i.count * recordSize
  written : i.arena.legOffset = i.writer.written

/-- The leg's preparation is to be done, or the target was told. -/
def Told (x : World D) : Prop :=
  Prepared x.arena.startSequence x.target x.arena.legOffset x.ingest.count ∨
    ∃ pending, Queued pending x.writer ∧
      pending.command = .prepareLeg x.ingest.start x.ingest.count

/-- What holds while no call was refused, by where the collector is. -/
inductive Staged (first base : ℕ) (x : World D) : Collector → Prop
  | idle (serving : Serving x.writer) (synced : Synced x.ingest)
      (settled : outstanding x.writer = []) (rested : Rested first base x) :
      Staged first base x .idle
  | preparing (serving : Serving x.writer) (synced : Synced x.ingest) (caught : CaughtUp x.writer)
      (leveled : Leveled first base x) (selected : Selected x.ingest) (told : Told x)
      (only : ∀ pending ∈ outstanding x.writer,
        pending.command = .prepareLeg x.ingest.start x.ingest.count) :
      Staged first base x .preparing
  | reading {leg : ReadGrammar.Leg} {payloads : List Bytes} (reads : Reads leg payloads x.ingest)
      (synced : Synced x.ingest) (resident : leg.resident.length ≤ leg.count * recordSize)
      (leveled : Leveled first base x) (bound : Bound x)
      (opening : x.ingest.phase = .awaitBegin → CaughtUp x.writer) : Staged first base x .reading
  | settling {complete : Bool} (serving : Serving x.writer) (synced : Synced x.ingest)
      (noLeg : NoLeg x.writer) (leveled : Leveled first base x) (bound : Bound x)
      (opening : x.ingest.phase = .awaitBegin → CaughtUp x.writer ∧ outstanding x.writer = []) :
      Staged first base x (.settling complete)
  | barrier (serving : Serving x.writer) (synced : Synced x.ingest) (noLeg : NoLeg x.writer)
      (leveled : Leveled first base x) (bound : Bound x)
      (awaits : (∃ pending, Awaits pending x.writer) ∨ CaughtUp x.writer) :
      Staged first base x .barrier
  | ended (noLeg : NoLeg x.writer)
      (data : Rested first base x ∨ Leveled first base x ∧ Bound x) : Staged first base x .ended

/-- The invariant of the world. -/
structure Kept (cfg : StoreConfig D) (first base : ℕ) (x : World D) : Prop where
  sited : Sited cfg first base x
  staged : Sound x.writer → Staged first base x x.collector

theorem Staged.data {collector : Collector} (h : Staged first base x collector) :
    Rested first base x ∨ Leveled first base x ∧ Bound x := by
  cases h with
  | idle _ _ _ hrested => exact .inl hrested
  | preparing _ _ hcaught hleveled => exact .inl ⟨hcaught, .inl hleveled⟩
  | reading _ _ _ hleveled hbound => exact .inr ⟨hleveled, hbound⟩
  | settling _ _ _ hleveled hbound => exact .inr ⟨hleveled, hbound⟩
  | barrier _ _ _ hleveled hbound => exact .inr ⟨hleveled, hbound⟩
  | ended _ hdata => exact hdata

/-! ## A step of the thread -/

/-- A drain is under way only while nothing was refused. -/
theorem pending_sound {w : Writer ε} {arena : Bytes} {offset : ℕ} {chunk following : Bytes}
    (h : FailureInv w)
    (hcall : pendingCall config arena w = some (.appendChunk offset chunk following)) :
    Sound w := by
  have hfacts := h.facts
  unfold pendingCall at hcall
  split at hcall
  case h_1 owner d hworker =>
    rw [hworker] at hfacts
    simp only [Sound, hworker, WriterQueue.retained]
    exact hfacts
  case h_2 pending hworker =>
    exact absurd (Option.some.inj hcall) (WriterDelivery.call_ne_appendChunk _ _ _ _)
  case h_3 => cases hcall

/-- A preparation that is made is one that was to be done. -/
theorem pending_leg {w : Writer ε} {arena : Bytes} {start count : ℕ}
    (hcall : pendingCall config arena w = some (.prepareLeg start count)) :
    ∃ pending ∈ outstanding w, w.worker = .calling pending ∧
      pending.command = .prepareLeg start count := by
  unfold pendingCall at hcall
  split at hcall
  case h_1 owner d hworker =>
    split at hcall
    · cases hcall
    · split at hcall <;> cases hcall
  case h_2 pending hworker =>
    refine ⟨pending, by simp [outstanding, hworker, WriterQueue.popped], hworker, ?_⟩
    have hsame := Option.some.inj hcall
    cases hcommand : pending.command <;> rw [hcommand] at hsame <;> cases hsame
    rfl
  case h_3 => cases hcall

/-- What an accepted call did to the target. -/
inductive Done (first base : ℕ) (x : World D) (t : Target D) : Call ReadBeginNotification → Prop
  | appended (offset : ℕ) (chunk following : Bytes) (origin : first + base = x.arena.startSequence)
      (leg : SameLeg x.target t)
      (level : Level first x.arena.startSequence t (offset + chunk.length) following) :
      Done first base x t (.appendChunk offset chunk following)
  | prepared (start count : ℕ) (rows : SameRows x.target t)
      (legBase : t.legBase = ((start : ℤ) - x.arena.startSequence) * recordSize)
      (active : t.activeStart = start ∧ t.activeCount = count) :
      Done first base x t (.prepareLeg start count)
  | other {call : Call ReadBeginNotification}
      (noAppend : ∀ offset chunk following, call ≠ .appendChunk offset chunk following)
      (noLeg : ∀ start count, call ≠ .prepareLeg start count) (rows : SameRows x.target t)
      (leg : SameLeg x.target t) : Done first base x t call

/-- A call of the thread is not refused for its place, and stores what the arena has there. -/
theorem wp_pending [DecidableEq D] (h : Kept cfg first base x) {call : Call ReadBeginNotification}
    (hcall : pendingCall config x.arena.buffer x.writer = some call) (faults : List (Option Fault))
    (now : ℕ) :
    wp (perform cfg call) { x.target with faults := faults, now := now }
      (fun _ t =>
        Stored cfg first base x.target.store.records.length x.arena.startSequence x.got t ∧
        t.sourceStart = x.arena.startSequence ∧ Done first base x t call)
      (fun e t =>
        Stored cfg first base x.target.store.records.length x.arena.startSequence x.got t ∧
        t.sourceStart = x.arena.startSequence ∧ e ∉ misplaced) := by
  obtain ⟨⟨⟨hlaw, hinv, hwithin⟩, hstored, hstart, -, -, -⟩, hstaged⟩ := h
  have hfrom : Stored cfg first base x.target.store.records.length x.arena.startSequence x.got
      { x.target with faults := faults, now := now } := hstored.raise.same rfl rfl
  obtain ⟨reach, hdata⟩ := hinv.data
  by_cases happend : ∃ offset chunk following, call = .appendChunk offset chunk following
  · obtain ⟨offset, chunk, following, rfl⟩ := happend
    rcases (hstaged (pending_sound hinv.failure hcall)).data with hrested | ⟨hleveled, hbound⟩
    · exact absurd hcall (hrested.caught.no_append hdata offset chunk following)
    obtain ⟨rfl, hslice, hpublished, hinside⟩ := pending_append hdata hwithin hcall
    have hreceived : reachOf x.writer + chunk.length ≤ x.arena.receivedBytes :=
      (Nat.le_add_right _ _).trans hinside
    have hchunk : slice x.got (reachOf x.writer) chunk.length = chunk := by
      rw [World.got, ← slice_take hreceived]
      exact hslice
    have hbegun : x.arena.legOffset ≤ reachOf x.writer :=
      hbound.begun.trans (by
        have hplace := hdata.place
        unfold reachOf
        cases hworker : x.writer.worker with
        | appended owner d stop following =>
          rw [hworker] at hplace
          exact hplace.2.1.start.symm.le.trans hplace.2.2.1.le
        | _ => exact le_rfl)
    have hlevel : Level first x.arena.startSequence { x.target with faults := faults, now := now }
      (reachOf x.writer) (tailOf x.writer) := hleveled.level.same ⟨rfl, rfl⟩
    have hprepared : Prepared x.arena.startSequence { x.target with faults := faults, now := now }
      x.arena.legOffset x.ingest.count := hbound.prepared.same ⟨rfl, rfl, rfl, rfl⟩
    simp only [perform, wp_bind, wp_pure]
    refine wp_mono (StagingTarget.wp_appendChunk hfrom hlevel hprepared hchunk hbegun
      (hinside.trans hbound.fits)) ?_ ?_
    · rintro _ t ⟨ht, hleg, hmoved⟩
      exact ⟨ht, hleg.sourceStart.trans hstart, .appended _ _ _ hleveled.origin
        ⟨hleg.sourceStart, hleg.legBase, hleg.activeStart, hleg.activeCount⟩ hmoved⟩
    · rintro e t ⟨ht, hleg, he⟩
      exact ⟨ht, hleg.sourceStart.trans hstart, he⟩
  by_cases hprepare : ∃ start count, call = .prepareLeg start count
  · obtain ⟨start, count, rfl⟩ := hprepare
    refine wp_mono (StagingTarget.wp_prepareLeg hfrom start count) ?_ ?_
    · rintro _ t ⟨ht, hrows, hbase, hactive, hcount, hsource⟩
      rw [hstart] at hbase
      exact ⟨ht, hsource.trans hstart, .prepared _ _ ⟨hrows.records, hrows.tail⟩ hbase
        ⟨hactive, hcount⟩⟩
    · rintro e t ⟨ht, -, hsource, he⟩
      exact ⟨ht, hsource.trans hstart, he⟩
  · have hnoLeg : ∀ start count, call ≠ .prepareLeg start count :=
      fun start count heq => hprepare ⟨start, count, heq⟩
    have hnoAppend : ∀ offset chunk following, call ≠ .appendChunk offset chunk following :=
      fun offset chunk following heq => happend ⟨offset, chunk, following, heq⟩
    refine wp_mono (StagingTarget.wp_perform hfrom hnoLeg hnoAppend) ?_ ?_
    · rintro _ t ⟨ht, hrows, hleg⟩
      exact ⟨ht, hleg.sourceStart.trans hstart, .other hnoAppend hnoLeg ⟨hrows.records, hrows.tail⟩
        ⟨hleg.sourceStart, hleg.legBase, hleg.activeStart, hleg.activeCount⟩⟩
    · rintro e t ⟨⟨ht, -, hleg⟩, he⟩
      exact ⟨ht, hleg.sourceStart.trans hstart, he⟩

/-- What a step of the thread came to. -/
inductive Worked (config : WriterConfig) (first base : ℕ) (x : World D) (t : Target D) :
    Except TargetError Result → Prop
  | quiet {a : Except TargetError Result}
      (none : pendingCall config x.arena.buffer x.writer = none) (target : t = x.target) :
      Worked config first base x t a
  | refused {call : Call ReadBeginNotification} {e : TargetError}
      (pends : pendingCall config x.arena.buffer x.writer = some call) (placed : e ∉ misplaced) :
      Worked config first base x t (.error e)
  | accepted {call : Call ReadBeginNotification} {result : Result}
      (pends : pendingCall config x.arena.buffer x.writer = some call)
      (done : Done first base x t call) : Worked config first base x t (.ok result)

theorem worker_cases [DecidableEq D] (h : Kept cfg first base x) (config : WriterConfig)
    (faults : List (Option Fault)) (now : ℕ) :
    Stored cfg first base x.target.store.records.length x.arena.startSequence x.got
        (answer cfg config x faults now).2 ∧
      (answer cfg config x faults now).2.sourceStart = x.arena.startSequence ∧
      Worked config first base x (answer cfg config x faults now).2
        (answer cfg config x faults now).1 := by
  unfold answer
  rcases hcall : pendingCall config x.arena.buffer x.writer with _ | call
  · exact ⟨h.sited.stored.raise, h.sited.sourceStart, .quiet hcall rfl⟩
  · have hspec := wp_pending h hcall faults now
    unfold wp at hspec
    rcases hexec : exec (perform cfg call) { x.target with faults := faults, now := now } with
      ⟨result, t⟩
    rw [hexec] at hspec
    simp only [hexec]
    cases result with
    | ok result => exact ⟨hspec.1, hspec.2.1, .accepted hcall hspec.2.2⟩
    | error e => exact ⟨hspec.1, hspec.2.1, .refused hcall hspec.2.2⟩

/-- The thread's step keeps the records in their places. -/
theorem Sited.worker [DecidableEq D] (h : Kept cfg first base x) (config : WriterConfig)
    (faults : List (Option Fault)) (now : ℕ) :
    Sited cfg first base (onWorker cfg config x faults now) := by
  obtain ⟨hstored, hstart, hworked⟩ := worker_cases h config faults now
  obtain ⟨⟨hlaw, hinv, hwithin⟩, hbefore, -, hplaced, hcovers, htails⟩ := h.sited
  obtain ⟨reach, hdata⟩ := hinv.data
  have hgrown := hstored.grown
  simp only [onWorker]
  generalize answer cfg config x faults now = answered at hstored hstart hworked hgrown ⊢
  obtain ⟨a, t⟩ := answered
  have hlinked : Linked { x.ingest with
      writer := workerStep config x.arena.buffer x.writer a } :=
    ⟨hlaw, WriterDelivery.step_inv config (.worker a) hinv, hwithin.worker hdata hinv.queue a⟩
  refine ⟨hlinked, hstored.lower hbefore.grown, hstart, ?_, ?_, ?_⟩
  · intro called hmem e he
    cases hworked with
    | quiet hnone _ =>
      rw [(worker_quiet hnone a).1] at hmem
      exact hplaced called hmem e he
    | @refused call error hcall hmisplaced =>
      rw [(worker_refused hcall _).1] at hmem
      rcases List.mem_cons.mp hmem with rfl | hmem
      · obtain rfl := Option.some.inj he
        exact hmisplaced
      · exact hplaced called hmem e he
    | accepted hcall _ =>
      rw [(worker_accepted hdata hcall _).1] at hmem
      rcases List.mem_cons.mp hmem with rfl | hmem
      · cases he
      · exact hplaced called hmem e he
  · have hkept : reachOf (workerStep config x.arena.buffer x.writer a) = reachOf x.writer →
        reachOf (workerStep config x.arena.buffer x.writer a) = 0 ∨
        first + base = x.arena.startSequence ∧ x.arena.startSequence +
          reachOf (workerStep config x.arena.buffer x.writer a) / recordSize ≤
            first + t.store.records.length := by
      intro hsame
      rw [hsame]
      exact hcovers.imp_right fun ⟨horigin, hle⟩ =>
        ⟨horigin, hle.trans (Nat.add_le_add_left hgrown _)⟩
    cases hworked with
    | quiet hnone _ => exact hkept (worker_quiet hnone a).2.1
    | refused hcall _ => exact hkept (worker_refused hcall _).2
    | @accepted call result hcall hdone =>
      rcases (worker_accepted hdata hcall result).2 with
        ⟨offset, chunk, following, rfl, hreach, -⟩ | ⟨-, -, -, hreach, -⟩
      · refine .inr ?_
        cases hdone with
        | appended _ _ _ horigin _ hlevel =>
          refine ⟨horigin, ?_⟩
          rw [hreach]
          exact hlevel.frontier.symm.le
        | other hnoAppend => exact absurd rfl (hnoAppend _ _ _)
      · exact hkept hreach
  · intro offset chunk following older hcalls hsome
    cases hworked with
    | quiet hnone htarget =>
      have hbefore : x.writer.calls = ⟨.appendChunk offset chunk following, none⟩ :: older :=
        (worker_quiet hnone a).1.symm.trans hcalls
      have hkept := htails offset chunk following older hbefore hsome
      rw [← htarget] at hkept
      exact hkept
    | refused hcall _ =>
      rw [World.writer, (worker_refused hcall _).1] at hcalls
      simp at hcalls
    | @accepted call result hcall hdone =>
      rw [World.writer, (worker_accepted hdata hcall _).1] at hcalls
      obtain ⟨hhead, -⟩ := List.cons.inj hcalls
      obtain ⟨rfl, -⟩ := AttemptWriter.Called.mk.inj hhead
      cases hdone with
      | appended _ _ _ _ _ hlevel =>
        obtain ⟨stored, hstored, hoffset, hpre⟩ := hlevel.tail hsome
        refine ⟨stored, hstored, ?_, hpre⟩
        rw [hoffset]
        push_cast [Nat.cast_sub hlevel.below]
        rfl
      | other hnoAppend => exact absurd rfl (hnoAppend _ _ _)

/-- A step of the thread that no refusal followed. -/
inductive Stepped (config : WriterConfig) (first : ℕ) (x y : World D) : Prop
  | still (rows : SameRows x.target y.target) (leg : SameLeg x.target y.target)
      (reach : reachOf y.writer = reachOf x.writer) (tail : tailOf y.writer = tailOf x.writer)
      (quiet : ∀ pending, x.writer.worker = .calling pending →
        ∀ start count, pending.command ≠ .prepareLeg start count)
  | told (start count : ℕ) (rows : SameRows x.target y.target)
      (pends : pendingCall config x.arena.buffer x.writer = some (.prepareLeg start count))
      (legBase : y.target.legBase = ((start : ℤ) - x.arena.startSequence) * recordSize)
      (active : y.target.activeStart = start ∧ y.target.activeCount = count)
      (reach : reachOf y.writer = reachOf x.writer) (tail : tailOf y.writer = tailOf x.writer)
  | wrote {offset : ℕ} {chunk following : Bytes}
      (pends : pendingCall config x.arena.buffer x.writer =
        some (.appendChunk offset chunk following))
      (leg : SameLeg x.target y.target)
      (level : Level first x.arena.startSequence y.target (reachOf y.writer) (tailOf y.writer))

theorem stepped [DecidableEq D] (h : Kept cfg first base x) (config : WriterConfig)
    (faults : List (Option Fault)) (now : ℕ)
    (hsound : Sound (onWorker cfg config x faults now).writer) :
    Sound x.writer ∧ Stepped config first x (onWorker cfg config x faults now) := by
  have hlinked := (Sited.worker h config faults now).linked
  obtain ⟨-, -, hworked⟩ := worker_cases h config faults now
  obtain ⟨hlaw, hinv, hwithin⟩ := h.sited.linked
  obtain ⟨reach, hdata⟩ := hinv.data
  rw [sound_iff hlinked.inv.failure] at hsound
  rw [sound_iff hinv.failure]
  simp only [onWorker, World.writer] at hsound ⊢
  generalize answer cfg config x faults now = answered at hworked hsound ⊢
  obtain ⟨a, t⟩ := answered
  cases hworked with
  | quiet hnone htarget =>
    obtain ⟨hcalls, hreach, htail⟩ := worker_quiet hnone a
    rw [hcalls] at hsound
    refine ⟨hsound, .still ?_ ?_ hreach htail ?_⟩
    · rw [htarget]
      exact .refl _
    · rw [htarget]
      exact .refl _
    · intro pending hworker
      simp [pendingCall, hworker] at hnone
  | refused hcall _ =>
    rw [(worker_refused hcall _).1] at hsound
    simp [firstError] at hsound
  | @accepted call result hcall hdone =>
    obtain ⟨hcalls, hmoved⟩ := worker_accepted hdata hcall result
    rw [hcalls, firstError, Option.or_none] at hsound
    refine ⟨hsound, ?_⟩
    cases hdone with
    | appended offset chunk following _ hleg hlevel =>
      rcases hmoved with ⟨_, _, _, heq, hreach, htail⟩ | ⟨pending, -, heq, -⟩
      · obtain ⟨rfl, rfl, rfl⟩ := Call.appendChunk.inj heq
        refine .wrote hcall hleg ?_
        simp only [World.writer, hreach, htail]
        exact hlevel
      · exact absurd heq.symm (WriterDelivery.call_ne_appendChunk _ _ _ _)
    | prepared start count hrows hbase hactive =>
      rcases hmoved with ⟨_, _, _, heq, -⟩ | ⟨pending, -, -, hreach, htail⟩
      · cases heq
      · exact .told start count hrows hcall hbase hactive hreach htail
    | other hnoAppend hnoLeg hrows hleg =>
      rcases hmoved with ⟨_, _, _, heq, -⟩ | ⟨pending, hworker, heq, hreach, htail⟩
      · exact absurd heq (hnoAppend _ _ _)
      · refine .still hrows hleg hreach htail fun other hother start count hcommand => ?_
        obtain rfl : pending = other := by
          rw [hworker] at hother
          cases hother
          rfl
        exact hnoLeg start count (by rw [heq, hcommand]; rfl)

theorem Leveled.stepped (h : Leveled first base x) (hstep : Stepped config first x y)
    (harena : y.arena = x.arena) : Leveled first base y := by
  obtain ⟨horigin, hlevel⟩ := h
  refine ⟨by rw [harena]; exact horigin, ?_⟩
  rw [harena]
  cases hstep with
  | still hrows _ hreach htail _ =>
    rw [hreach, htail]
    exact hlevel.same hrows
  | told _ _ hrows _ _ _ hreach htail =>
    rw [hreach, htail]
    exact hlevel.same hrows
  | wrote _ _ hmoved => exact hmoved

theorem Rested.stepped (h : Rested first base x) (hlinked : Linked x.ingest)
    (hstep : Stepped config first x y) (harena : y.arena = x.arena) (hcaught : CaughtUp y.writer) :
    Rested first base y := by
  obtain ⟨reach, hdata⟩ := hlinked.inv.data
  refine ⟨hcaught, h.level.imp (·.stepped hstep harena) fun ⟨hnone, hlength⟩ => ?_⟩
  rw [harena]
  refine ⟨hnone, ?_⟩
  cases hstep with
  | still hrows => rw [hrows.records, hlength]
  | told _ _ hrows => rw [hrows.records, hlength]
  | wrote hcall => exact absurd hcall (h.caught.no_append hdata _ _ _)

/-- Without a preparation to be done the target keeps its leg. -/
theorem Stepped.sameLeg (h : Stepped config first x y) (hnoLeg : NoLeg x.writer) :
    SameLeg x.target y.target := by
  cases h with
  | still _ hleg => exact hleg
  | told start count _ hcall =>
    obtain ⟨pending, hmem, -, hcommand⟩ := pending_leg hcall
    exact absurd hcommand (hnoLeg pending hmem start count)
  | wrote _ hleg => exact hleg

theorem Bound.stepped (h : Bound x) (hstep : Stepped config first x y) (hnoLeg : NoLeg x.writer)
    (harena : y.arena = x.arena) (hcount : y.ingest.count = x.ingest.count)
    (hwritten : x.writer.written ≤ y.writer.written) : Bound y := by
  obtain ⟨hprepared, hbegun, hfits⟩ := h
  refine ⟨?_, ?_, ?_⟩
  · rw [harena, hcount]
    exact hprepared.same (hstep.sameLeg hnoLeg)
  · rw [harena]
    exact hbegun.trans hwritten
  · rw [harena, hcount]
    exact hfits

/-- The preparation's call tells the target of the selected leg. -/
theorem Selected.told (h : Selected x.ingest) (hstart : y.arena = x.arena)
    (hcount : y.ingest.count = x.ingest.count)
    (hlegBase : y.target.legBase = ((x.ingest.start : ℤ) - x.arena.startSequence) * recordSize)
    (hactive : y.target.activeStart = x.ingest.start ∧ y.target.activeCount = x.ingest.count) :
    Prepared y.arena.startSequence y.target y.arena.legOffset y.ingest.count := by
  have hle : x.arena.startSequence ≤ x.ingest.start := h.range.1
  rw [hstart, hcount]
  have hoffset : x.arena.legOffset = (x.ingest.start - x.arena.startSequence) * recordSize := by
    rw [ArenaBuffer.Arena.legOffset, h.leg.1]
  refine ⟨?_, ?_, ?_, hactive.2⟩
  · rw [hlegBase, hoffset]
    push_cast [Nat.cast_sub hle]
    rfl
  · rw [hactive.1, hoffset, Nat.mul_div_cancel _ (by decide)]
    exact (Nat.add_sub_cancel' hle).symm
  · rw [hoffset]
    exact Nat.dvd_mul_left _ _

theorem Told.stepped (h : Told x) (hselected : Selected x.ingest)
    (honly : ∀ pending ∈ outstanding x.writer,
      pending.command = .prepareLeg x.ingest.start x.ingest.count)
    (hstep : Stepped config first x y) (harena : y.arena = x.arena)
    (hcount : y.ingest.count = x.ingest.count) (hstart : y.ingest.start = x.ingest.start)
    (hqueued : ∀ pending, Queued pending x.writer → x.writer.worker ≠ .calling pending →
      Queued pending y.writer) : Told y := by
  have hcalled : ∀ start count,
      pendingCall config x.arena.buffer x.writer = some (.prepareLeg start count) →
      start = x.ingest.start ∧ count = x.ingest.count := by
    intro start count hcall
    obtain ⟨pending, hmem, -, hcommand⟩ := pending_leg hcall
    rw [honly pending hmem] at hcommand
    cases hcommand
    exact ⟨rfl, rfl⟩
  rcases h with hprepared | ⟨pending, hwaits, hcommand⟩
  · refine .inl ?_
    cases hstep with
    | still _ hleg =>
      rw [harena, hcount]
      exact hprepared.same hleg
    | told start count _ hcall hbase hactive =>
      obtain ⟨rfl, rfl⟩ := hcalled start count hcall
      exact hselected.told harena hcount hbase hactive
    | wrote _ hleg =>
      rw [harena, hcount]
      exact hprepared.same hleg
  · by_cases hcalling : x.writer.worker = .calling pending
    · refine .inl ?_
      cases hstep with
      | still _ _ _ _ hquiet => exact absurd hcommand (hquiet pending hcalling _ _)
      | told start count _ hcall hbase hactive =>
        obtain ⟨rfl, rfl⟩ := hcalled start count hcall
        exact hselected.told harena hcount hbase hactive
      | wrote hcall =>
        simp only [pendingCall, hcalling] at hcall
        exact absurd (Option.some.inj hcall) (WriterDelivery.call_ne_appendChunk _ _ _ _)
    · refine .inr ⟨pending, hqueued pending hwaits hcalling, ?_⟩
      rw [hstart, hcount]
      exact hcommand

/-- A leg's command leaves an open writer open. -/
theorem Serving.worker {w : Writer ε} (h : Serving w) (config : WriterConfig) (arena : Bytes)
    (answer : Except ε Result)
    (hhealthy : failureOf (workerStep config arena w answer).state = none) :
    Serving (workerStep config arena w answer) := by
  have hqueue := WriterQueue.worker_queueStep config arena answer h.queue
  refine ⟨hqueue.queueInv h.queue, ?_, fun pending hmem => h.commands pending (hqueue.mem hmem)⟩
  rcases ReadStream.worker_state config arena w answer with
    hsame | ⟨pending, hmem, hstate⟩ | hfailed
  · rw [hsame]
    exact h.state
  · rw [hstate]
    rcases h.state with hbefore | hbefore <;> rw [hbefore] <;> cases pending.command <;>
      first | exact .inl rfl | exact .inr rfl
  · exact absurd hhealthy hfailed

theorem Serving.admitted {w w' : Writer ε} (h : Serving w)
    {request : Request ReadBeginNotification} {future : Option ℕ}
    (hleg : isLeg (request.command w.published w.publishedTail) = true)
    (hadmitted : admitRequest config w request = .ok (w', future)) : Serving w' := by
  have hqueue := WriterQueue.admit_queueInv h.queue hadmitted
  obtain rfl | ⟨hdirective, rfl⟩ := WriterQueue.admit_cases hadmitted
  · exact h
  refine ⟨hqueue, ?_, fun pending hmem => ?_⟩
  · rcases h.state with hbefore | hbefore <;> rw [hbefore] at hdirective ⊢ <;>
      cases request <;> first | exact .inl rfl | exact .inr rfl | cases hleg
  · have hcases : pending ∈ outstanding w ∨
        pending = ⟨request.command w.published w.publishedTail, w.nextFuture⟩ := by
      simpa [outstanding, or_assoc] using hmem
    rcases hcases with hmem | rfl
    · exact h.commands pending hmem
    · exact hleg

theorem Serving.ready {w : Writer ε} (h : Serving w) (hsettled : outstanding w = []) :
    WriterReady w :=
  ⟨h.queue, h.state, fun pending hmem => by rw [hsettled] at hmem; exact absurd hmem (by simp)⟩

theorem Serving.of_ready {w : Writer ε} (h : WriterReady w) : Serving w ∧ NoLeg w := by
  refine ⟨⟨h.queue, h.state, fun pending hmem => ?_⟩, fun pending hmem start count => ?_⟩
  · obtain ⟨notice, hcommand⟩ := h.commands pending hmem
    rw [hcommand]
    rfl
  · obtain ⟨notice, hcommand⟩ := h.commands pending hmem
    rw [hcommand]
    simp

/-- A step of the thread keeps the invariant. -/
theorem Kept.worker [DecidableEq D] (h : Kept cfg first base x) (config : WriterConfig)
    (faults : List (Option Fault)) (now : ℕ) :
    Kept cfg first base (onWorker cfg config x faults now) := by
  refine ⟨Sited.worker h config faults now, fun hsound => ?_⟩
  obtain ⟨hbefore, hstep⟩ := stepped h config faults now hsound
  have hlinked := h.sited.linked
  have hstaged := h.staged hbefore
  obtain ⟨reach, hdata⟩ := hlinked.inv.data
  generalize hanswered : (answer cfg config x faults now).1 = a
  generalize hnext : onWorker cfg config x faults now = y at hstep hsound ⊢
  have hwriter : y.writer = workerStep config x.arena.buffer x.writer a := by
    rw [← hnext, ← hanswered]
    rfl
  have hingest : y.ingest = { x.ingest with
      writer := workerStep config x.arena.buffer x.writer a } := by
    rw [← hnext, ← hanswered]
    rfl
  have harena : y.arena = x.arena := by rw [World.arena, hingest]
  have hcount : y.ingest.count = x.ingest.count := by rw [hingest]
  have hstart : y.ingest.start = x.ingest.start := by rw [hingest]
  have hphase : y.ingest.phase = x.ingest.phase := by rw [hingest]
  have hcollector : y.collector = x.collector := by rw [← hnext]; rfl
  have hhealthy : failureOf (workerStep config x.arena.buffer x.writer a).state = none := by
    rw [← hwriter]
    exact hsound.healthy
  have hsynced : Synced x.ingest → Synced y.ingest := by
    obtain ⟨hpublished, htail⟩ := WriterTails.worker_published config x.arena.buffer x.writer a
    rw [hingest]
    exact fun hsame => ⟨hpublished.trans hsame.1, htail.trans hsame.2⟩
  have hserving : Serving x.writer → Serving y.writer := by
    rw [hwriter]
    exact fun hserves => hserves.worker config _ a hhealthy
  have hmem : ∀ pending ∈ outstanding y.writer, pending ∈ outstanding x.writer := by
    rw [hwriter]
    exact fun pending => (WriterQueue.worker_queueStep config _ a hlinked.inv.queue).mem
  have hsettled : outstanding x.writer = [] → outstanding y.writer = [] := by
    refine fun hnone => List.eq_nil_iff_forall_not_mem.mpr fun pending hpending => ?_
    have hin := hmem pending hpending
    rw [hnone] at hin
    exact List.not_mem_nil hin
  have hnoLeg : NoLeg x.writer → NoLeg y.writer := fun hnone pending hpending =>
    hnone pending (hmem pending hpending)
  have hcaught : CaughtUp x.writer → CaughtUp y.writer := by
    rw [hwriter]
    exact fun hup => hup.worker hdata hlinked.inv.queue a
  have hwritten : x.writer.written ≤ y.writer.written := by
    rw [hwriter]
    exact written_le hdata a
  have hrested : Rested first base x → Rested first base y := fun hrests =>
    hrests.stepped hlinked hstep harena (hcaught hrests.caught)
  have hbound : NoLeg x.writer → Bound x → Bound y := fun hnone hbefore =>
    hbefore.stepped hstep hnone harena hcount hwritten
  rw [hcollector]
  revert hstaged
  generalize x.collector = collector
  intro hstaged
  cases hstaged with
  | idle hserves hsame hnone hrests =>
    exact .idle (hserving hserves) (hsynced hsame) (hsettled hnone) (hrested hrests)
  | preparing hserves hsame hup hleveled hselected htold honly =>
    refine .preparing (hserving hserves) (hsynced hsame) (hcaught hup)
      (hleveled.stepped hstep harena) ?_ ?_ ?_
    · rw [hingest]
      exact ⟨hselected.phase, hselected.leg, hselected.range, hselected.fits,
        hselected.written.trans (hup.written hdata a).1.symm⟩
    · refine htold.stepped hselected honly hstep harena hcount hstart
        fun pending hwaits hcalling => ?_
      rw [hwriter] at hsound ⊢
      exact hwaits.worker hlinked.inv.failure a hsound hcalling
    · rw [hstart, hcount]
      exact fun pending hpending => honly pending (hmem pending hpending)
  | @reading leg payloads hreads hsame hresident hleveled hbefore hopening =>
    obtain ⟨-, hnone⟩ := Serving.of_ready hreads.holds.writer
    have hnext : Reads leg payloads y.ingest := by
      rw [hingest]
      exact hreads.worker config a hhealthy
    refine .reading hnext (hsynced hsame) hresident (hleveled.stepped hstep harena)
      (hbound hnone hbefore) ?_
    rw [hphase]
    exact fun hopen => hcaught (hopening hopen)
  | settling hserves hsame hnone hleveled hbefore hopening =>
    refine .settling (hserving hserves) (hsynced hsame) (hnoLeg hnone)
      (hleveled.stepped hstep harena) (hbound hnone hbefore) ?_
    rw [hphase]
    exact fun hopen => ⟨hcaught (hopening hopen).1, hsettled (hopening hopen).2⟩
  | barrier hserves hsame hnone hleveled hbefore hawaits =>
    refine .barrier (hserving hserves) (hsynced hsame) (hnoLeg hnone)
      (hleveled.stepped hstep harena) (hbound hnone hbefore) ?_
    rcases hawaits with ⟨pending, hwaits⟩ | hup
    · rw [hwriter] at hsound ⊢
      exact (hwaits.worker hdata hlinked.inv.failure a hsound).imp_left
        fun hstill => ⟨pending, hstill⟩
    · exact .inr (hcaught hup)
  | ended hnone hdrains =>
    exact .ended (hnoLeg hnone) (hdrains.imp hrested fun ⟨hleveled, hbefore⟩ =>
      ⟨hleveled.stepped hstep harena, hbound hnone hbefore⟩)

end Invariant

end ArenaLegs
