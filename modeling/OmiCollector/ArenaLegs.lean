import OmiCollector.CaptureReplay
import OmiCollector.ArenaThread

/-! The events of the collector, and what is stored after any run of legs. -/
namespace ArenaLegs

open ByteCodec RefusalLogic
open CaptureStore (StoreConfig)
open TransferArena (ReadBeginNotification recordSize)
open AttemptWriter (WriterConfig Request Call Result admitRequest publish workerStep slice)
open WriterMachine (failureOf)
open WriterQueue (outstanding QueueInv FailureInv firstError)
open WriterFrontiers
open ReadStream (Ingest Writer IngestM IngestError Synced WriterReady Received Reads turn)
open StagingTarget (Target TargetError Fault Stored Level Prepared SameLeg SameRows misplaced
  perform)

variable {D : Type} [DecidableEq D] {ε α : Type}

section Invariant

variable {cfg : StoreConfig D} {config : WriterConfig} {first base : ℕ} {x y : World D}

omit [DecidableEq D]

/-! ## An event of the loop -/

theorem reach_grown {i j : Ingest ε} (h : Grown i j) :
    reachOf j.writer = reachOf i.writer ∧ tailOf j.writer = tailOf i.writer := by
  unfold reachOf tailOf
  rw [h.worker, h.written, h.writtenTail]
  exact ⟨rfl, rfl⟩

theorem sound_grown {i j : Ingest ε} (hlinked : Linked i) (h : Grown i j) :
    Sound j.writer ↔ Sound i.writer := by
  rw [sound_iff h.linked.inv.failure, sound_iff hlinked.inv.failure, h.calls]

theorem Sited.grown (h : Sited cfg first base x) (hgrown : Grown x.ingest y.ingest)
    (htarget : y.target = x.target) : Sited cfg first base y := by
  obtain ⟨hlinked, hstored, hstart, hplaced, hcovers, htails⟩ := h
  have hsame : y.arena.startSequence = x.arena.startSequence := hgrown.start
  have hgot : x.got <+: y.got := by
    rw [World.got, World.got, ← hgrown.bytes]
    exact List.take_prefix_take_left hgrown.received
  have hreach := (reach_grown hgrown).1
  refine ⟨hgrown.linked, ?_, ?_, ?_, ?_, ?_⟩
  · rw [hsame, htarget]
    exact hstored.grow hgot
  · rw [hsame, htarget]
    exact hstart
  · intro called hmem
    rw [World.writer, hgrown.calls] at hmem
    exact hplaced called hmem
  · rw [hsame, htarget, World.writer, hreach]
    exact hcovers
  · rw [hsame, htarget, World.writer, hgrown.calls]
    exact htails

theorem Leveled.grown (h : Leveled first base x) (hgrown : Grown x.ingest y.ingest)
    (htarget : y.target = x.target) : Leveled first base y := by
  obtain ⟨horigin, hlevel⟩ := h
  obtain ⟨hreach, htail⟩ := reach_grown hgrown
  have hsame : y.arena.startSequence = x.arena.startSequence := hgrown.start
  refine ⟨hsame ▸ horigin, ?_⟩
  rw [hsame, htarget, World.writer, hreach, htail]
  exact hlevel

theorem Bound.grown (h : Bound x) (hgrown : Grown x.ingest y.ingest) (htarget : y.target = x.target)
    (hoffset : y.arena.legOffset = x.arena.legOffset) (hcount : y.ingest.count = x.ingest.count)
    (hfits : y.arena.receivedBytes ≤ y.arena.legOffset + y.ingest.count * recordSize) :
    Bound y := by
  have hsame : y.arena.startSequence = x.arena.startSequence := hgrown.start
  refine ⟨?_, ?_, hfits⟩
  · rw [hsame, htarget, hoffset, hcount]
    exact h.prepared
  · rw [hoffset, World.writer, hgrown.written]
    exact h.begun

/-- Only the collector moves. -/
theorem Bound.moved (h : Bound x) (collector : Collector) :
    Bound { x with collector := collector } := ⟨h.prepared, h.begun, h.fits⟩

theorem Leveled.moved (h : Leveled first base x) (collector : Collector) :
    Leveled first base { x with collector := collector } := ⟨h.origin, h.level⟩

theorem Rested.moved (h : Rested first base x) (collector : Collector) :
    Rested first base { x with collector := collector } :=
  ⟨h.caught, h.level.imp_left (·.moved collector)⟩

theorem Sited.moved (h : Sited cfg first base x) (collector : Collector) :
    Sited cfg first base { x with collector := collector } :=
  ⟨h.linked, h.stored, h.sourceStart, h.placed, h.covers, h.tail⟩

theorem Kept.stop (h : Kept cfg first base x) : Kept cfg first base (onStop x) := by
  obtain ⟨hsited, hstaged⟩ := h
  unfold onStop
  split
  · rename_i hcollector
    rw [hcollector] at hstaged
    refine ⟨hsited.moved _, fun hsound => ?_⟩
    cases hstaged hsound with
    | reading hreads hsame _ hleveled hbound hopening =>
      obtain ⟨hserves, hnone⟩ := Serving.of_ready hreads.holds.writer
      refine .settling hserves hsame hnone (hleveled.moved _) (hbound.moved _)
        fun hopen => ⟨hopening hopen, ?_⟩
      rcases hreads.phase with ⟨-, -, hsettled⟩ | ⟨hphase, -⟩
      · exact hsettled
      · rw [hphase] at hopen
        cases hopen
  · exact ⟨hsited, hstaged⟩

/-- The stream of a leg ends inside it. -/
theorem fits_leg {leg : ReadGrammar.Leg} {payloads : List Bytes} {i : Ingest ε}
    (hfills : ReadStream.Fills leg i.arena (ReadGrammar.bodies payloads))
    (hresident : leg.resident.length ≤ leg.count * recordSize)
    (hstream : ReadGrammar.Opening payloads ∨ ReadGrammar.Receiving leg payloads ∨
      ReadGrammar.Complete leg payloads) :
    i.arena.receivedBytes ≤ i.arena.legOffset + leg.count * recordSize := by
  have hbodies : (ReadGrammar.bodies payloads).length ≤ leg.count * recordSize := by
    rcases hstream with hopening | hreceiving | ⟨received, done, rfl, hreceiving, -, hdone⟩
    · rw [ReadGrammar.bodies_opening hopening]
      exact Nat.zero_le _
    · exact hreceiving.fits
    · rw [ReadGrammar.bodies_snoc, ReadGrammar.bodyOf_done hdone, List.append_nil]
      exact hreceiving.fits
  rw [hfills.received]
  omega

theorem Kept.notification (h : Kept cfg first base x) {config : WriterConfig}
    (hroom : 0 < config.maxControlCommands) (payload : Bytes) :
    Kept cfg first base (onNotification config x payload) := by
  obtain ⟨hsited, hstaged⟩ := h
  unfold onNotification
  split
  swap
  · exact ⟨hsited, hstaged⟩
  rename_i hcollector
  rw [hcollector] at hstaged
  have hgrows := grows_turn config payload x.ingest hsited.linked
  have hquiet := wp_turn_opening config payload x.ingest
  unfold wp at hgrows hquiet
  rcases hexec : exec (turn config payload) x.ingest with ⟨result, i⟩
  rw [hexec] at hgrows hquiet
  have hgrown : Grown x.ingest i := by cases result <;> exact hgrows
  have hnext : Sited cfg first base { x with ingest := i } := hsited.grown hgrown rfl
  have hsound : Sound i.writer → Sound x.writer := (sound_grown hsited.linked hgrown).mp
  cases result with
  | ok done =>
    cases done with
    | true =>
      refine ⟨hnext.moved _, fun hsounds => ?_⟩
      cases hstaged (hsound hsounds) with
      | @reading leg payloads hreads hsame hresident hleveled hbound hopening =>
        have hturn := ReadStream.wp_turn hreads hroom payload
        unfold wp at hturn
        rw [hexec] at hturn
        obtain ⟨hkept, hcomplete, hholds⟩ := hturn
        obtain ⟨hserves, hnone⟩ := Serving.of_ready hholds.writer
        have hcount : i.count = leg.count := hgrown.request.2.trans hreads.request.2
        have hfits := fits_leg hholds.fills hresident (.inr (.inr hcomplete))
        rw [← hcount] at hfits
        have hmoved : Bound { x with ingest := i } :=
          hbound.grown hgrown rfl hkept.offset hgrown.request.2 hfits
        have hlevels : Leveled first base { x with ingest := i } := hleveled.grown hgrown rfl
        refine .settling hserves (hkept.synced hsame) hnone (hlevels.moved _) (hmoved.moved _)
          fun hopen => ?_
        obtain ⟨hphase, hwriter⟩ := hquiet hopen
        rcases hreads.phase with ⟨-, -, hsettled⟩ | ⟨hreceiving, -⟩
        · simp only [World.writer, hwriter]
          exact ⟨hopening hphase, hsettled⟩
        · rw [hphase] at hreceiving
          cases hreceiving
    | false =>
      refine ⟨hnext, fun hsounds => ?_⟩
      cases hstaged (hsound hsounds) with
      | @reading leg payloads hreads hsame hresident hleveled hbound hopening =>
        have hturn := ReadStream.wp_turn hreads hroom payload
        unfold wp at hturn
        rw [hexec] at hturn
        obtain ⟨hkept, htook⟩ := hturn
        have hgoes : Reads leg (payloads ++ [payload]) i := htook
        have hcount : i.count = leg.count := hgoes.request.2
        have hfits := fits_leg hgoes.holds.fills hresident
          (hgoes.phase.elim (fun hphase => .inl hphase.2.1) fun hphase => .inr (.inl hphase.2))
        rw [← hcount] at hfits
        have hmoved : Bound { x with ingest := i } :=
          hbound.grown hgrown rfl hkept.offset hgrown.request.2 hfits
        have hstage : Staged first base { x with ingest := i } .reading := by
          refine .reading hgoes (hkept.synced hsame) hresident (hleveled.grown hgrown rfl) hmoved
            fun hopen => ?_
          obtain ⟨hphase, hwriter⟩ := hquiet hopen
          simp only [World.writer, hwriter]
          exact hopening hphase
        rw [← hcollector] at hstage
        exact hstage
  | error error =>
    refine ⟨hnext.moved _, fun hsounds => ?_⟩
    have hstage := hstaged (hsound hsounds)
    obtain rfl : i = x.ingest := by
      cases hstage with
      | @reading leg payloads hreads =>
        have hturn := ReadStream.wp_turn hreads hroom payload
        unfold wp at hturn
        rw [hexec] at hturn
        exact hturn.1
    have hstops := (Kept.stop ⟨hsited, fun _ => by rw [hcollector]; exact hstage⟩).staged
    simp only [onStop, hcollector] at hstops
    exact hstops hsounds

/-! ## Commands -/

theorem ask_cases (config : WriterConfig) (x : World D) (request : Request ReadBeginNotification)
    (next : Collector) :
    ask config x request next = { x with collector := .ended } ∨
      ∃ w future, admitRequest config x.writer request = .ok (w, future) ∧
        ask config x request next =
          { x with ingest := { x.ingest with writer := w }, collector := next } := by
  unfold ask
  rcases hadmitted : admitRequest config x.writer request with error | ⟨w, future⟩
  · exact .inl rfl
  · exact .inr ⟨w, future, rfl, rfl⟩

theorem admitted_mem {w w' : Writer ε} {request : Request ReadBeginNotification}
    {future : Option ℕ} (hadmitted : admitRequest config w request = .ok (w', future))
    {pending : AttemptWriter.Pending ReadBeginNotification} (hmem : pending ∈ outstanding w') :
    pending ∈ outstanding w ∨ pending.command = request.command w.published w.publishedTail := by
  obtain rfl | ⟨-, rfl⟩ := WriterQueue.admit_cases hadmitted
  · exact .inl hmem
  · have hcases : pending ∈ outstanding w ∨
        pending = ⟨request.command w.published w.publishedTail, w.nextFuture⟩ := by
      simpa [outstanding, or_assoc] using hmem
    exact hcases.imp_right fun heq => by rw [heq]

theorem admitted_published {w w' : Writer ε} {request : Request ReadBeginNotification}
    {future : Option ℕ} (hadmitted : admitRequest config w request = .ok (w', future)) :
    w'.published = w.published ∧ w'.publishedTail = w.publishedTail := by
  obtain rfl | ⟨-, rfl⟩ := WriterQueue.admit_cases hadmitted <;> exact ⟨rfl, rfl⟩

theorem NoLeg.admitted {w w' : Writer ε} (h : NoLeg w) {request : Request ReadBeginNotification}
    {future : Option ℕ} (hadmitted : admitRequest config w request = .ok (w', future))
    (hnot : ∀ start count, request ≠ .prepareLeg start count) : NoLeg w' := by
  intro pending hmem start count
  rcases admitted_mem hadmitted hmem with hmem | hcommand
  · exact h pending hmem start count
  · rw [hcommand]
    cases request with
    | prepareLeg start count => exact absurd rfl (hnot start count)
    | _ => simp [Request.command]

theorem caught_admitted {w w' : Writer ε} (h : CaughtUp w)
    {request : Request ReadBeginNotification} {future : Option ℕ}
    (hadmitted : admitRequest config w request = .ok (w', future)) : CaughtUp w' := by
  have hnext := Frontiers.admitted h hadmitted
  obtain rfl | ⟨-, rfl⟩ := WriterQueue.admit_cases hadmitted
  · exact h
  · exact hnext

/-- A leg's command that an open writer admits is queued. -/
theorem Serving.queued {w w' : Writer ε} (h : Serving w) (hsound : Sound w)
    (hfailure : FailureInv w) (hsettled : outstanding w = [])
    {request : Request ReadBeginNotification} {future : Option ℕ}
    (hleg : isLeg (request.command w.published w.publishedTail) = true)
    (hadmitted : admitRequest config w request = .ok (w', future)) :
    ∃ pending, pending.command = request.command w.published w.publishedTail ∧
      outstanding w' = [pending] ∧ Queued pending w' := by
  have hstate : (WriterMachine.transition w.state request.event).directive = .admitRequest ∨
      ∃ kind, (WriterMachine.transition w.state request.event).directive = .reject kind := by
    rcases h.state with hbefore | hbefore <;> rw [hbefore] <;> cases request <;>
      first | exact .inl rfl | exact .inr ⟨_, rfl⟩ | cases hleg
  have hplace : Unsettled w.worker := by
    have hfacts := hfailure.facts
    have hparts := hsettled
    simp only [outstanding, List.append_eq_nil_iff] at hparts
    have hpopped := hparts.1
    cases hworker : w.worker with
    | recording owner error => simp [Sound, hworker, WriterQueue.retained] at hsound
    | flushing owner items latched =>
      rw [hworker] at hfacts
      have hhealthy := hsound.healthy
      rw [hfacts] at hhealthy
      cases hhealthy
    | succeeded pending result => simp [hworker, WriterQueue.popped] at hpopped
    | remember pending result => simp [hworker, WriterQueue.popped] at hpopped
    | completing pending outcome => simp [hworker, WriterQueue.popped] at hpopped
    | _ => trivial
  have hopen : (request.command w.published w.publishedTail).isClose = false := by
    cases request <;> first | rfl | cases hleg
  unfold admitRequest at hadmitted
  simp only at hadmitted
  rcases hstate with hdirective | ⟨kind, hdirective⟩ <;> rw [hdirective] at hadmitted
  · simp only at hadmitted
    split at hadmitted
    · cases hadmitted
    · simp only [Except.ok.injEq, Prod.mk.injEq] at hadmitted
      obtain ⟨rfl, -⟩ := hadmitted
      refine ⟨⟨request.command w.published w.publishedTail, w.nextFuture⟩, rfl, ?_⟩
      have hqueue : outstanding { w with
          commands := w.commands ++
            [⟨request.command w.published w.publishedTail, w.nextFuture⟩] } =
          [⟨request.command w.published w.publishedTail, w.nextFuture⟩] := by
        have hsplit := hsettled
        simp only [outstanding, List.append_eq_nil_iff] at hsplit
        simp [outstanding, hsplit.1, hsplit.2.1, hsplit.2.2]
      exact ⟨hqueue, hqueue, hopen, hplace⟩
  · cases hadmitted

theorem synced_admitted {i : Ingest ε} {w : Writer ε} {request : Request ReadBeginNotification}
    {future : Option ℕ} (h : Synced i)
    (hadmitted : admitRequest config i.writer request = .ok (w, future)) :
    Synced { i with writer := w } := by
  obtain ⟨hpublished, htail⟩ := admitted_published hadmitted
  exact ⟨hpublished.trans h.1, htail.trans h.2⟩

/-- The barrier is asked for once READ_BEGIN is done. -/
theorem Kept.barrier {complete : Bool} (h : Kept cfg first base x)
    (hcollector : x.collector = .settling complete) (hsettled : outstanding x.writer = [])
    (config : WriterConfig) {request : Request ReadBeginNotification}
    (hrequest : request = .checkpoint ∨ request = .interrupt) :
    Kept cfg first base (ask config x request .barrier) := by
  obtain ⟨hsited, hstaged⟩ := h
  rw [hcollector] at hstaged
  rcases ask_cases config x request .barrier with hover | ⟨w, future, hadmitted, hasked⟩
  · rw [hover]
    refine ⟨hsited.moved _, fun hsound => ?_⟩
    cases hstaged hsound with
    | settling _ _ hnone hleveled hbound _ =>
      exact .ended hnone (.inr ⟨hleveled.moved _, hbound.moved _⟩)
  · rw [hasked]
    have hgrown := Grown.admitted hsited.linked hadmitted
    have hnext : Sited cfg first base { x with ingest := { x.ingest with writer := w } } :=
      hsited.grown hgrown rfl
    refine ⟨hnext.moved _, fun hsounds => ?_⟩
    have hsound := (sound_grown hsited.linked hgrown).mp hsounds
    cases hstaged hsound with
    | settling hserves hsame hnone hleveled hbound _ =>
      have hleg : isLeg (request.command x.writer.published x.writer.publishedTail) = true := by
        rcases hrequest with rfl | rfl <;> rfl
      obtain ⟨pending, hcommand, -, hqueued⟩ :=
        hserves.queued hsound hsited.linked.inv.failure hsettled hleg hadmitted
      obtain ⟨hpublished, htail⟩ := admitted_published hadmitted
      have hawaits : Awaits pending w := by
        refine ⟨hqueued, ?_⟩
        rw [hcommand, hpublished, htail]
        rcases hrequest with rfl | rfl <;> rfl
      have hlevels : Leveled first base { x with ingest := { x.ingest with writer := w } } :=
        hleveled.grown hgrown rfl
      have hbounds : Bound { x with ingest := { x.ingest with writer := w } } :=
        hbound.grown hgrown rfl rfl rfl hbound.fits
      exact .barrier (hserves.admitted hleg hadmitted) (synced_admitted hsame hadmitted)
        (hnone.admitted hadmitted (by rcases hrequest with rfl | rfl <;> simp)) (hlevels.moved _)
        (hbounds.moved _) (.inl ⟨pending, hawaits⟩)

theorem queued_ne_nil {w : Writer ε} {pending : AttemptWriter.Pending ReadBeginNotification}
    (h : Queued pending w) : outstanding w ≠ [] := by
  rw [h.queue]
  simp

/-- The preparation is done: READ is asked for. -/
theorem Kept.prepared (h : Kept cfg first base x) (hcollector : x.collector = .preparing)
    (hsettled : outstanding x.writer = []) :
    Kept cfg first base { x with
      collector := if (failureOf x.writer.state).isSome then .ended else .reading } := by
  obtain ⟨hsited, hstaged⟩ := h
  rw [hcollector] at hstaged
  refine ⟨hsited.moved _, fun hsound => ?_⟩
  have hhealthy : failureOf x.writer.state = none := Sound.healthy hsound
  simp only [hhealthy, Option.isSome_none, Bool.false_eq_true, if_false]
  cases hstaged hsound with
  | preparing hserves hsame hup hleveled hselected htold _ =>
    obtain ⟨reach, hdata⟩ := hsited.linked.inv.data
    have hready := hserves.ready hsettled
    have hbegun : ReadStream.Begun x.ingest := ⟨hselected.phase, hsited.linked.law, hselected.leg,
      hselected.range, hready, hsettled, hdata.frontier, hsited.linked.within.published⟩
    have hprepared : Prepared x.arena.startSequence x.target x.arena.legOffset x.ingest.count :=
      htold.resolve_right fun ⟨pending, hqueued, _⟩ => queued_ne_nil hqueued hsettled
    have hresident : x.ingest.leg.resident.length ≤ x.ingest.leg.count * recordSize := by
      have hfits := hselected.fits
      simp only [Ingest.leg, List.length_drop, List.length_take]
      omega
    have hbound : Bound x := ⟨hprepared, hselected.written.le, hselected.fits⟩
    exact .reading hbegun.reads hsame hresident (hleveled.moved _) (hbound.moved _) fun _ => hup

/-- The barrier is done: all that was published is durable. -/
theorem Kept.settled (h : Kept cfg first base x) (hcollector : x.collector = .barrier)
    (hsettled : outstanding x.writer = []) :
    Kept cfg first base { x with
      collector := if (failureOf x.writer.state).isSome then .ended else .idle } := by
  obtain ⟨hsited, hstaged⟩ := h
  rw [hcollector] at hstaged
  refine ⟨hsited.moved _, fun hsound => ?_⟩
  have hhealthy : failureOf x.writer.state = none := Sound.healthy hsound
  simp only [hhealthy, Option.isSome_none, Bool.false_eq_true, if_false]
  cases hstaged hsound with
  | barrier hserves hsame _ hleveled _ hawaits =>
    have hup : CaughtUp x.writer :=
      hawaits.resolve_left fun ⟨pending, hwaits⟩ => queued_ne_nil hwaits.queued hsettled
    have hrested : Rested first base x := ⟨hup, .inl hleveled⟩
    exact .idle hserves hsame hsettled (hrested.moved _)

theorem Kept.settle (h : Kept cfg first base x) (config : WriterConfig) :
    Kept cfg first base (onSettle config x) := by
  unfold onSettle
  split
  · rename_i complete hcollector
    split
    · rename_i hopen
      refine ⟨h.sited.moved _, fun hsound => ?_⟩
      have hstage := h.staged hsound
      rw [hcollector] at hstage
      cases hstage with
      | settling hserves hsame _ hleveled _ hopening =>
        obtain ⟨hup, hsettled⟩ := hopening hopen
        have hrested : Rested first base x := ⟨hup, .inl hleveled⟩
        exact .idle hserves hsame hsettled (hrested.moved _)
    · split
      · rename_i hsettled
        exact h.barrier hcollector hsettled config (by cases complete <;> simp)
      · exact h
  · rename_i hcollector
    split
    · rename_i hsettled
      exact h.prepared hcollector hsettled
    · exact h
  · rename_i hcollector
    split
    · rename_i hsettled
      exact h.settled hcollector hsettled
    · exact h
  · exact h

theorem Kept.finish (h : Kept cfg first base x) (config : WriterConfig)
    (request : Request ReadBeginNotification) :
    Kept cfg first base (onFinish config x request) := by
  unfold onFinish
  split
  swap
  · exact h
  rename_i hfinal
  obtain ⟨hcollector, hrequest⟩ := hfinal
  obtain ⟨hsited, hstaged⟩ := h
  have hends : Sound x.writer →
      NoLeg x.writer ∧ (Rested first base x ∨ Leveled first base x ∧ Bound x) := by
    intro hsound
    have hstage := hstaged hsound
    rcases hcollector with hidle | hover
    · rw [hidle] at hstage
      cases hstage with
      | idle _ _ hsettled hrested =>
        refine ⟨fun pending hmem => ?_, .inl hrested⟩
        rw [hsettled] at hmem
        exact absurd hmem List.not_mem_nil
    · rw [hover] at hstage
      cases hstage with
      | ended hnone hdata => exact ⟨hnone, hdata⟩
  rcases ask_cases config x request .ended with hover | ⟨w, future, hadmitted, hasked⟩
  · rw [hover]
    refine ⟨hsited.moved _, fun hsound => ?_⟩
    obtain ⟨hnone, hdata⟩ := hends hsound
    exact .ended hnone (hdata.imp (·.moved _) fun ⟨hleveled, hbound⟩ =>
      ⟨hleveled.moved _, hbound.moved _⟩)
  · rw [hasked]
    have hgrown := Grown.admitted hsited.linked hadmitted
    have hnext : Sited cfg first base { x with ingest := { x.ingest with writer := w } } :=
      hsited.grown hgrown rfl
    refine ⟨hnext.moved _, fun hsounds => ?_⟩
    obtain ⟨hnone, hdata⟩ := hends ((sound_grown hsited.linked hgrown).mp hsounds)
    have hlevels : Leveled first base x →
        Leveled first base { x with ingest := { x.ingest with writer := w } } :=
      fun hleveled => hleveled.grown hgrown rfl
    refine .ended (hnone.admitted hadmitted ?_) (hdata.imp (fun hrested => ?_) fun hdrains => ?_)
    · rintro start count rfl
      cases hrequest
    · have hrests : Rested first base { x with ingest := { x.ingest with writer := w } } :=
        ⟨caught_admitted hrested.caught hadmitted, hrested.level.imp_left hlevels⟩
      exact hrests.moved _
    · have hbounds : Bound { x with ingest := { x.ingest with writer := w } } :=
        hdrains.2.grown hgrown rfl rfl rfl hdrains.2.fits
      exact ⟨(hlevels hdrains.1).moved _, hbounds.moved _⟩

/-! ## The start of a leg -/

theorem wp_beginLeg_exact (a : ArenaBuffer.Arena) (start count : ℕ) :
    wp (ArenaBuffer.beginLeg start count) a
      (fun _ next => 0 < count ∧ a.startSequence ≤ start ∧ start ≤ a.nextSequence ∧
        start + count ≤ a.endSequence ∧
        next = { a with legStart := start, legBytes := 0, legTotalBytes := count * recordSize })
      (fun _ next => next = a) := by
  have huint : ∀ (value : ℕ) (label : String), ArenaBuffer.requireUint value label = .ok value := by
    intro value label
    unfold ArenaBuffer.requireUint
    rw [if_neg (by omega), Int.toNat_natCast]
  simp only [ArenaBuffer.beginLeg, huint, wp_bind, wp_get, wp_refuseIf, wp_requireOk, wp_modify]
  refine ⟨fun e he => (by cases he), fun _ hstart =>
    ⟨fun e he => (by cases he), fun _ hcount => ?_⟩⟩
  obtain rfl := Except.ok.inj hstart
  obtain rfl := Except.ok.inj hcount
  refine ⟨fun _ => trivial, fun hpos => ⟨fun _ => trivial, fun hlower => ⟨fun _ => trivial,
    fun hend => ⟨fun _ => trivial, fun hnext => ?_⟩⟩⟩⟩
  exact ⟨Nat.pos_of_ne_zero hpos, Nat.not_lt.mp hlower, Nat.not_lt.mp hnext, Nat.not_lt.mp hend,
    rfl⟩

/-- Caught up with what was received, less than a record waits after what is written. -/
theorem Rested.written (h : Rested first base x) (hlinked : Linked x.ingest)
    (hsynced : Synced x.ingest) :
    reachOf x.writer = x.writer.written ∧ tailOf x.writer = x.writer.writtenTail ∧
      x.arena.receivedBytes = x.writer.written + x.writer.writtenTail.length ∧
      x.writer.writtenTail.length < recordSize := by
  obtain ⟨reach, hdata⟩ := hlinked.inv.data
  obtain ⟨hreach, htail⟩ := h.caught.delivered hdata
  obtain ⟨hpublished, hpublishedTail⟩ := h.caught.published
  have hlength := ReadStream.partialTail_length hlinked.law
  refine ⟨hreach, htail, ?_, ?_⟩
  · rw [← hpublished, ← hpublishedTail, World.writer, hsynced.1, hsynced.2]
    exact hlength.symm
  · rw [← hpublishedTail, World.writer, hsynced.2]
    exact ReadStream.partialTail_short hlinked.law

/-- A leg that the arena accepts at the durable prefix starts where what is written ends. -/
theorem Rested.leg (h : Rested first base x) (hsited : Sited cfg first base x)
    (hsynced : Synced x.ingest) {s : CaptureModel.CaptureSource D}
    (hsource : x.target.store.source = some s)
    (hlower : x.arena.startSequence ≤ s.sequenceStart + s.committedCount)
    (hupper : s.sequenceStart + s.committedCount ≤ x.arena.nextSequence) :
    (s.sequenceStart + s.committedCount - x.arena.startSequence) * recordSize = x.writer.written ∧
      Leveled first base x := by
  obtain ⟨hreach, htail, hreceived, -⟩ := h.written hsited.linked hsynced
  have hstart := hsited.stored.start hsource
  have hcount := StagingTarget.records_length hsited.stored hsource
  rcases h.level with hleveled | ⟨hnone, hbase⟩
  · refine ⟨?_, hleveled⟩
    have hfrontier := hleveled.level.frontier
    have haligned := hleveled.level.aligned
    rw [hreach] at hfrontier haligned
    rw [hstart, ← hcount, hfrontier, Nat.add_sub_cancel_left, Nat.div_mul_cancel haligned]
  · -- nothing was received: the leg starts where the arena does
    rw [hnone] at hreceived
    have hzero : x.writer.written = 0 := by omega
    have hempty : x.writer.writtenTail = [] := List.length_eq_zero_iff.mp (by omega)
    have hnext : x.arena.nextSequence = x.arena.startSequence := by
      simp only [ArenaBuffer.Arena.nextSequence, ArenaBuffer.Arena.completeRecords]
      rw [hnone]
      simp
    have horigin : first + base = x.arena.startSequence := by omega
    refine ⟨?_, horigin, ?_⟩
    · rw [hzero]
      have hsame : s.sequenceStart + s.committedCount - x.arena.startSequence = 0 := by omega
      rw [hsame, Nat.zero_mul]
    · rw [hreach, htail, hzero, hempty]
      refine ⟨by omega, dvd_zero _, ?_, fun hne => absurd rfl hne⟩
      rw [hbase, horigin]
      simp

theorem Kept.leg (h : Kept cfg first base x) (config : WriterConfig) (count : ℕ) :
    Kept cfg first base (onLeg config x count) := by
  unfold onLeg
  split
  swap
  · exact h
  rename_i s hcollector hsource
  obtain ⟨hsited, hstaged⟩ := h
  rw [hcollector] at hstaged
  simp only
  have hbegins := wp_beginLeg_exact x.arena (s.sequenceStart + s.committedCount) count
  unfold wp at hbegins
  push_cast at hbegins ⊢
  rcases hexec : exec (ArenaBuffer.beginLeg ((s.sequenceStart : ℤ) + s.committedCount) count)
    x.arena with ⟨result | result, a⟩
  · refine ⟨hsited, fun hsound => ?_⟩
    rw [hcollector]
    exact hstaged hsound
  simp only
  rw [hexec] at hbegins
  obtain ⟨hcount, hlower, hupper, hend, ha⟩ := hbegins
  have heffect : ArenaBuffer.Effect x.arena
      (.beginLeg ((s.sequenceStart : ℤ) + s.committedCount) count) a := by
    rw [ha]
    exact .beginLeg _ _ hlower hupper hend
  have hgrown := Grown.arena hsited.linked heffect
  generalize hplace : s.sequenceStart + s.committedCount = start at hlower hupper hend ha
  have hselects :
      Sited cfg first base { x with ingest := ⟨start, count, .awaitBegin, a, x.writer⟩ } := by
    have hnext : Sited cfg first base { x with ingest := { x.ingest with arena := a } } :=
      hsited.grown hgrown rfl
    exact ⟨⟨hnext.linked.law, hnext.linked.inv, hnext.linked.within⟩, hnext.stored,
      hnext.sourceStart, hnext.placed, hnext.covers, hnext.tail⟩
  have hreceived : a.receivedBytes = x.arena.receivedBytes := by rw [ha]
  have hfirst : a.startSequence = x.arena.startSequence := by rw [ha]
  have hlevels : Leveled first base x →
      Leveled first base { x with ingest := ⟨start, count, .awaitBegin, a, x.writer⟩ } := by
    intro hleveled
    have hnext : Leveled first base { x with ingest := { x.ingest with arena := a } } :=
      hleveled.grown hgrown rfl
    exact ⟨hnext.origin, hnext.level⟩
  rcases ask_cases config { x with ingest := ⟨start, count, .awaitBegin, a, x.writer⟩ }
    (.prepareLeg start count) .preparing with hover | ⟨w, future, hadmitted, hasked⟩
  · rw [hover]
    refine ⟨hselects.moved _, fun hsound => ?_⟩
    cases hstaged hsound with
    | idle _ _ hsettled hrested =>
      have hrests :
          Rested first base { x with ingest := ⟨start, count, .awaitBegin, a, x.writer⟩ } :=
        ⟨hrested.caught,
          hrested.level.imp hlevels fun hfresh => ⟨hreceived.trans hfresh.1, hfresh.2⟩⟩
      refine .ended (fun pending hmem => ?_) (.inl (hrests.moved _))
      simp only [World.writer, hsettled] at hmem
      exact absurd hmem List.not_mem_nil
  · rw [hasked]
    have hadmits := Grown.admitted hselects.linked hadmitted
    have hnext : Sited cfg first base { x with ingest := ⟨start, count, .awaitBegin, a, w⟩ } :=
      hselects.grown hadmits rfl
    refine ⟨hnext.moved _, fun hsounds => ?_⟩
    have hsound : Sound x.writer := (sound_grown hselects.linked hadmits).mp hsounds
    cases hstaged hsound with
    | idle hserves hsame hsettled hrested =>
      obtain ⟨hwritten, hleveled⟩ :=
        hrested.leg hsited hsame hsource (hplace ▸ hlower) (hplace ▸ hupper)
      obtain ⟨-, -, hends, hshort⟩ := hrested.written hsited.linked hsame
      rw [hplace] at hwritten
      have hleg : isLeg ((Request.prepareLeg start count).command x.writer.published
        x.writer.publishedTail : AttemptWriter.Command ReadBeginNotification) = true := rfl
      obtain ⟨pending, hcommand, hqueue, hqueued⟩ :=
        hserves.queued hsound hsited.linked.inv.failure hsettled hleg hadmitted
      have hoffset : a.legOffset = x.writer.written := by
        rw [ha, ← hwritten]
        rfl
      have hstill : w.written = x.writer.written := hadmits.written
      have hselected : Selected (ε := TargetError) ⟨start, count, .awaitBegin, a, w⟩ := by
        refine ⟨rfl, ?_, ?_, ?_, hoffset.trans hstill.symm⟩
        · rw [ha]
          exact ⟨rfl, rfl, rfl⟩
        · rw [ha]
          exact ⟨hlower, hend⟩
        · simp only [hoffset, hreceived, hends]
          have hrecord : recordSize ≤ count * recordSize := Nat.le_mul_of_pos_left _ hcount
          omega
      have hsynced : Synced (ε := TargetError) ⟨start, count, .awaitBegin, a, w⟩ := by
        have hbefore : Synced (ε := TargetError) ⟨start, count, .awaitBegin, a, x.writer⟩ := by
          rw [ha]
          exact hsame
        obtain ⟨hpublished, htail⟩ := admitted_published hadmitted
        exact ⟨hpublished.trans hbefore.1, htail.trans hbefore.2⟩
      have hlevel : Leveled first base { x with ingest := ⟨start, count, .awaitBegin, a, w⟩ } :=
        (hlevels hleveled).grown hadmits rfl
      have hserving : Serving w := hserves.admitted hleg hadmitted
      have hcaught : CaughtUp w := caught_admitted hrested.caught hadmitted
      have honly : ∀ other ∈ outstanding w, other.command = .prepareLeg start count := by
        intro other hmem
        rw [hqueue, List.mem_singleton] at hmem
        rw [hmem]
        exact hcommand
      exact .preparing hserving hsynced hcaught (hlevel.moved _) hselected
        (.inr ⟨pending, hqueued, hcommand⟩) honly

theorem Kept.step [DecidableEq D] (h : Kept cfg first base x) {config : WriterConfig}
    (hroom : 0 < config.maxControlCommands) (event : Event) :
    Kept cfg first base (step cfg config x event) := by
  cases event with
  | leg count => exact h.leg config count
  | notification payload => exact h.notification hroom payload
  | stop => exact h.stop
  | settle => exact h.settle config
  | finish request => exact h.finish config request
  | worker faults now => exact h.worker config faults now

theorem Kept.run [DecidableEq D] (h : Kept cfg first base x) {config : WriterConfig}
    (hroom : 0 < config.maxControlCommands) (events : List Event) :
    Kept cfg first base (run cfg config x events) := by
  exact TransitionRuns.run_invariant (Q := fun _ => True)
    (fun _ event _ hx => hx.step hroom event) h fun _ _ => trivial

/-! ## A run -/

/-- The steps of the thread that prepare the target, answered with a durable prefix. -/
def starting (prefixed : Result) : List (AttemptWriter.Event TargetError ReadBeginNotification) :=
  .request .start :: List.replicate 5 (.worker (.ok prefixed))

/-- A new arena, a started writer, and a target that opened its source where its rows end. -/
structure Opened (cfg : StoreConfig D) (config : WriterConfig) (x : World D) : Prop where
  collector : x.collector = .idle
  arena : ∃ start total limit, ArenaBuffer.create start total limit recordSize = .ok x.arena
  writer : ∃ prefixed, x.writer = AttemptWriter.run config x.arena.buffer .new (starting prefixed)
  integrity : CaptureInvariant.Integrity cfg x.target.store
  source : ∃ s, x.target.store.source = some s ∧ x.target.descriptorStart = s.sequenceStart
  sourceStart : x.target.sourceStart = x.arena.startSequence

/-- The writer once its target is prepared. -/
theorem started (hroom : 0 < config.maxControlCommands) (arena : Bytes) (prefixed : Result) :
    AttemptWriter.run config arena .new (starting prefixed) =
      ({ AttemptWriter.Writer.new with
        state := .prepared
        wake := true
        nextFuture := 1
        calls := [⟨.prepare, none⟩]
        completions := [(0, .ok prefixed)] } : Writer TargetError) := by
  have hfits : ¬ config.maxControlCommands ≤ 0 := Nat.not_le.mpr hroom
  simp [AttemptWriter.run, starting, List.replicate, AttemptWriter.step, admitRequest,
    AttemptWriter.Writer.new, Request.event, Request.isClose, Request.isSealing, Request.command,
    WriterMachine.transition, WriterMachine.handleStartRequest, hfits, workerStep,
    AttemptWriter.nextCommand, AttemptWriter.commandCheck, failureOf, AttemptWriter.Command.isClose,
    AttemptWriter.Command.frontier, AttemptWriter.Writer.goto, AttemptWriter.Writer.called,
    AttemptWriter.Command.call, AttemptWriter.recordSuccess, AttemptWriter.Command.successEvent,
    WriterMachine.handlePreparing, AttemptWriter.settledOutcome, AttemptWriter.Writer.complete]

/-- A world that opens has the invariant, with the rows that are there before the arena's. -/
theorem Opened.kept (h : Opened cfg config x) (hroom : 0 < config.maxControlCommands) :
    ∃ s, x.target.store.source = some s ∧
      Kept cfg s.sequenceStart x.target.store.records.length x := by
  obtain ⟨hcollector, ⟨start, total, limit, hcreate⟩, ⟨answered, hwriter⟩, hintegrity,
    ⟨s, hs, hdescriptor⟩, hstart⟩ := h
  obtain ⟨hlaw, -, hnone⟩ := ArenaBuffer.create_law hcreate
  have hinv : WriterDelivery.Inv x.arena.buffer x.writer := by
    rw [hwriter]
    exact WriterDelivery.run_inv config x.arena.buffer (starting answered)
  rw [started hroom] at hwriter
  have hplain : x.writer.worker = .next := by rw [hwriter]; rfl
  have hzero : x.writer.written = 0 ∧ x.writer.writtenTail = [] := by rw [hwriter]; exact ⟨rfl, rfl⟩
  have hpublished : x.writer.published = 0 ∧ x.writer.publishedTail = [] := by
    rw [hwriter]
    exact ⟨rfl, rfl⟩
  have hsettled : outstanding x.writer = [] := by rw [hwriter]; rfl
  have hcalls : x.writer.calls = [⟨.prepare, none⟩] := by rw [hwriter]
  have hfrontiers : ∀ P : ℕ → Bytes → Prop, P 0 [] → Frontiers P x.writer := by
    intro P hP
    refine ⟨by rw [hpublished.1, hpublished.2]; exact hP, fun pending hmem => ?_, ?_⟩
    · rw [hsettled] at hmem
      exact absurd hmem List.not_mem_nil
    · rw [hplain]
      trivial
  have hreach : reachOf x.writer = 0 := by
    simp only [reachOf, hplain, WriterDelivery.acceptedReach]
    exact hzero.1
  refine ⟨s, hs, ⟨⟨hlaw, hinv, hfrontiers _ (Nat.zero_le _)⟩, ?_, hstart, ?_, .inl hreach, ?_⟩,
    fun _ => ?_⟩
  · refine ⟨hintegrity, ⟨s, hs, rfl⟩, hdescriptor, fun k r hr hbase => ?_, le_rfl⟩
    exact absurd (List.getElem?_eq_some_iff.mp hr).1 (Nat.not_lt.mpr hbase)
  · intro called hmem e he
    rw [hcalls, List.mem_singleton] at hmem
    rw [hmem] at he
    cases he
  · intro offset chunk following older heq
    rw [hcalls] at heq
    simp at heq
  · rw [hcollector]
    refine .idle ⟨hinv.queue, .inl (by rw [hwriter]), ?_⟩ ⟨?_, ?_⟩ hsettled ⟨?_, .inr ⟨hnone, rfl⟩⟩
    · intro pending hmem
      rw [hsettled] at hmem
      exact absurd hmem List.not_mem_nil
    · rw [hpublished.1, ArenaBuffer.Arena.completeRecords, hnone]
      simp
    · have hlength := ReadStream.partialTail_length hlaw
      rw [hpublished.2]
      exact (List.length_eq_zero_iff.mp (Nat.add_eq_zero_iff.mp (hlength.trans hnone)).2).symm
    · exact hfrontiers _ ⟨hzero.1.symm, hzero.2.symm⟩

end Invariant

/-! Two records at 10: the first leg is stopped in the second record, and a leg of one goes on. -/

def demoArena : ArenaBuffer.Arena := ⟨10, 2, List.replicate (2 * recordSize) 0, 0, 0, 10, 0, 888⟩

end ArenaLegs
