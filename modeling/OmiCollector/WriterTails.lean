import OmiCollector.WriterDelivery

/-! The partial tails that an attempt writer delivers. A queued command keeps the tail it was
admitted with, while the idle worker drains what is published now: a drain that overtakes a queued
command delivers a longer tail first, and the command then goes back behind it. -/
namespace WriterTails

open AttemptWriter WriterQueue WriterDelivery
open WriterMachine (failureOf)

variable {ε ν : Type}

/-- The frontier that a call of the target delivers up to. -/
def deliveredBy : Call ν → Option (ℕ × List UInt8)
  | .appendChunk offset chunk tail => some (offset + chunk.length, tail)
  | _ => none

/-- The delivered frontiers, newest first. -/
def delivered (calls : List (Called ε ν)) : List (ℕ × List UInt8) :=
  calls.filterMap fun called => deliveredBy called.call

theorem delivered_plain {called : Called ε ν} (calls : List (Called ε ν))
    (h : deliveredBy called.call = none) : delivered (called :: calls) = delivered calls :=
  List.filterMap_cons_none h

theorem deliveredBy_command (command : Command ν) : deliveredBy command.call = none := by
  cases command <;> rfl

/-- The tails at one record offset extend each other, and no call is empty. -/
structure Advancing (calls : List (Called ε ν)) : Prop where
  extend : (delivered calls).Pairwise fun newer older => newer.1 = older.1 → older.2 <+: newer.2
  nonempty : ∀ called ∈ calls, ∀ offset, called.call ≠ .appendChunk offset [] []

/-- The command was admitted at the present mark with another tail. -/
def Stale (w : AttemptWriter.Writer ε ν) (pending : Pending ν) : Prop :=
  ∃ tail, pending.command.frontier = some (w.published, tail) ∧ tail ≠ w.publishedTail

instance (w : AttemptWriter.Writer ε ν) (pending : Pending ν) : Decidable (Stale w pending) :=
  match h : pending.command.frontier with
  | none => isFalse (by simp [Stale, h])
  | some (mark, tail) =>
    decidable_of_iff (mark = w.published ∧ tail ≠ w.publishedTail) (by simp [Stale, h])

def idleDrains : Worker ε ν → Bool
  | .drain .idle => true
  | _ => false

/-- The idle worker found the queue empty and enters its drain; by now a stale command is queued,
and one chunk reaches the mark. -/
def Overtakes (config : WriterConfig) (w : AttemptWriter.Writer ε ν) : Prop :=
  idleDrains w.worker = true ∧
    w.published ≤ w.written + config.chunkRecords * recordSize ∧
    ∃ pending ∈ w.commands, Stale w pending

instance (config : WriterConfig) (w : AttemptWriter.Writer ε ν) : Decidable (Overtakes config w) :=
  inferInstanceAs (Decidable (_ ∧ _ ∧ ∃ pending ∈ w.commands, _))

/-- A step of the worker that overtakes no queued command. -/
def CalmStep (config : WriterConfig) (w : AttemptWriter.Writer ε ν) : Event ε ν → Prop
  | .worker _ => ¬ Overtakes config w
  | _ => True

instance (config : WriterConfig) (w : AttemptWriter.Writer ε ν) (event : Event ε ν) :
    Decidable (CalmStep config w event) :=
  match event with
  | .worker _ => inferInstanceAs (Decidable (¬ _))
  | .publish _ _ => isTrue trivial
  | .request _ => isTrue trivial

/-- No worker step of the run overtakes a queued command. -/
def Calm (config : WriterConfig) (arena : List UInt8) (events : List (Event ε ν)) : Prop :=
  TransitionRuns.Along (step config arena) (CalmStep config) AttemptWriter.Writer.new events

instance (config : WriterConfig) (arena : List UInt8) (events : List (Event ε ν)) :
    Decidable (Calm config arena events) :=
  inferInstanceAs (Decidable (TransitionRuns.Along _ _ _ _))

/-! ## Frontiers in order -/

def Behind (f g : ℕ × List UInt8) : Prop := f.1 < g.1 ∨ (f.1 = g.1 ∧ f.2 <+: g.2)

theorem Behind.refl (f : ℕ × List UInt8) : Behind f f := .inr ⟨rfl, List.prefix_rfl⟩

theorem Behind.trans {f g h : ℕ × List UInt8} (hfg : Behind f g) (hgh : Behind g h) :
    Behind f h := by
  rcases hfg with hfg | ⟨hfg, hprefix⟩ <;> rcases hgh with hgh | ⟨hgh, hprefix'⟩
  · exact .inl (hfg.trans hgh)
  · exact .inl (hgh ▸ hfg)
  · exact .inl (hfg ▸ hgh)
  · exact .inr ⟨hfg.trans hgh, hprefix.trans hprefix'⟩

theorem Behind.le {f g : ℕ × List UInt8} (h : Behind f g) : f.1 ≤ g.1 :=
  h.elim le_of_lt fun heq => heq.1.le

/-- At one mark the tail is extended. -/
theorem Behind.extends {f g : ℕ × List UInt8} (h : Behind f g) (hmark : f.1 = g.1) :
    f.2 <+: g.2 :=
  h.elim (fun hlt => absurd hmark hlt.ne) fun heq => heq.2

/-- Publishing moves the frontier forward, or leaves it. -/
theorem publish_behind {arena : List UInt8} {w w' : AttemptWriter.Writer ε ν} {highWater : ℕ}
    {tail : List UInt8} {moved : Bool} (h : publish arena w highWater tail = .ok (w', moved)) :
    Behind (w.published, w.publishedTail) (w'.published, w'.publishedTail) := by
  unfold publish at h
  repeat' split at h
  all_goals simp only [Except.ok.injEq, Prod.mk.injEq, reduceCtorEq] at h
  · exact h.1 ▸ Behind.refl _
  · exact h.1 ▸ Behind.refl _
  · rename_i hmonotone hagree hlonger
    rw [← h.1]
    rcases (not_lt.mp hmonotone).lt_or_eq with hlt | heq
    · exact .inl hlt
    · refine .inr ⟨heq, ?_⟩
      have hlength : w.publishedTail.length ≤ tail.length := by
        by_contra hshort
        exact hlonger ⟨heq.symm, (not_le.mp hshort).le⟩
      have hsame : w.publishedTail.take tail.length = tail.take w.publishedTail.length :=
        not_not.mp fun hne => hagree ⟨heq.symm, hne⟩
      rw [List.take_of_length_le hlength] at hsame
      exact hsame ▸ List.take_prefix _ _

/-- The frontiers that the outstanding commands were admitted with, in order. -/
def frontiers (w : AttemptWriter.Writer ε ν) : List (ℕ × List UInt8) :=
  (outstanding w).filterMap fun pending => pending.command.frontier

/-- The frontier is published. -/
def Within (w : AttemptWriter.Writer ε ν) (f : ℕ × List UInt8) : Prop :=
  Behind f (w.published, w.publishedTail)

/-- No outstanding command was admitted at this mark with less of the tail. -/
def Clear (w : AttemptWriter.Writer ε ν) (f : ℕ × List UInt8) : Prop :=
  ∀ g ∈ frontiers w, g.1 = f.1 → f.2 <+: g.2

/-- Nothing is delivered beyond the frontier. -/
def DeliveredTo (w : AttemptWriter.Writer ε ν) (f : ℕ × List UInt8) : Prop :=
  ∀ g ∈ delivered w.calls, Behind g f

/-- A frontier that was just delivered. -/
structure Tracked (w : AttemptWriter.Writer ε ν) (f : ℕ × List UInt8) : Prop where
  delivered : DeliveredTo w f
  clear : Clear w f
  within : Within w f

/-- The drain may come to deliver its frontier tail. -/
def Reaches (config : WriterConfig) (owner : Owner ν) (d : Drain) : Prop :=
  owner.exact = true ∨ d.start = d.target ∨
    (d.looping = true ∧ d.target ≤ d.start + config.chunkRecords * recordSize)

structure DrainTails (config : WriterConfig) (w : AttemptWriter.Writer ε ν) (owner : Owner ν) (d : Drain) :
    Prop where
  within : Within w (d.target, d.frontierTail)
  tail : d.start = d.target → d.writtenTail <+: d.frontierTail
  clear : Reaches config owner d → Clear w (d.target, d.frontierTail)

/-- What the worker's place says about the tails. -/
def TailPlace (config : WriterConfig) (w : AttemptWriter.Writer ε ν) : Worker ε ν → Prop
  | .draining owner d => DeliveredTo w (w.written, w.writtenTail) ∧ DrainTails config w owner d
  | .appended owner d stop following => Tracked w (stop, following) ∧
      DrainTails config w owner { d with
        start := stop, writtenTail := following, wrote := true, looping := owner.exact }
  | .tailAppended _ d => Tracked w (d.start, d.frontierTail)
  | .recording _ _ => True
  | _ => failureOf w.state = none → DeliveredTo w (w.written, w.writtenTail)

structure TailInv (config : WriterConfig) (w : AttemptWriter.Writer ε ν) : Prop where
  ordered : (delivered w.calls).Pairwise fun newer older => Behind older newer
  nonempty : ∀ called ∈ w.calls, ∀ offset, called.call ≠ .appendChunk offset [] []
  within : Within w (w.written, w.writtenTail)
  clear : Clear w (w.written, w.writtenTail)
  queue : (frontiers w).Pairwise Behind
  limits : ∀ f ∈ frontiers w, Within w f
  place : TailPlace config w w.worker

theorem TailInv.advancing {config : WriterConfig} {w : AttemptWriter.Writer ε ν} (h : TailInv config w) :
    Advancing w.calls :=
  ⟨h.ordered.imp fun hbehind hmark => hbehind.extends hmark.symm, h.nonempty⟩

/-! ## The event loop -/

/-- The event loop changes what is published and queued, and keeps what is tracked. -/
theorem TailPlace.frame {config : WriterConfig} {w w' : AttemptWriter.Writer ε ν} {worker : Worker ε ν}
    (h : TailPlace config w worker) (hcalls : w'.calls = w.calls)
    (hwritten : w'.written = w.written) (htail : w'.writtenTail = w.writtenTail)
    (hwithin : ∀ f, Within w f → Within w' f)
    (hclear : ∀ f, Within w f → Clear w f → Clear w' f)
    (hfailure : failureOf w'.state = failureOf w.state) : TailPlace config w' worker := by
  have hto : ∀ f, DeliveredTo w f → DeliveredTo w' f := by
    intro f hf
    unfold DeliveredTo
    rw [hcalls]
    exact hf
  have htracked : ∀ f, Tracked w f → Tracked w' f := fun f hf =>
    ⟨hto f hf.delivered, hclear f hf.within hf.clear, hwithin f hf.within⟩
  have hdrain : ∀ owner d, DrainTails config w owner d → DrainTails config w' owner d :=
    fun owner d hd => ⟨hwithin _ hd.within, hd.tail,
      fun hreaches => hclear _ hd.within (hd.clear hreaches)⟩
  cases worker with
  | draining owner d =>
    refine ⟨?_, hdrain owner d h.2⟩
    rw [hwritten, htail]
    exact hto _ h.1
  | appended owner d stop following => exact ⟨htracked _ h.1, hdrain owner _ h.2⟩
  | tailAppended owner d => exact htracked _ h
  | recording owner error => trivial
  | _ =>
    intro hhealthy
    rw [hwritten, htail]
    exact hto _ (h (hfailure ▸ hhealthy))

theorem publish_tailInv {config : WriterConfig} {arena : List UInt8} {w w' : AttemptWriter.Writer ε ν}
    {highWater : ℕ} {tail : List UInt8} {moved : Bool} (h : TailInv config w)
    (hpublish : publish arena w highWater tail = .ok (w', moved)) : TailInv config w' := by
  have hbehind := publish_behind hpublish
  obtain rfl | ⟨-, -, -, -, -, rfl⟩ := publish_cases hpublish
  · exact h
  · have hwithin : ∀ f, Within w f → Within { w with
        published := highWater, publishedTail := tail, wake := true } f :=
      fun f hf => Behind.trans hf hbehind
    exact
      { ordered := h.ordered
        nonempty := h.nonempty
        within := hwithin _ h.within
        clear := h.clear
        queue := h.queue
        limits := fun f hf => hwithin f (h.limits f hf)
        place := h.place.frame rfl rfl rfl hwithin (fun _ _ hclear => hclear) rfl }

theorem admit_tailInv {config : WriterConfig} {w w' : AttemptWriter.Writer ε ν} {request : Request ν}
    {future : Option ℕ} (h : TailInv config w)
    (hadmitted : admitRequest config w request = .ok (w', future)) : TailInv config w' := by
  obtain rfl | ⟨-, rfl⟩ := admit_cases hadmitted
  · exact h
  generalize hw' : ({ w with
    commands := w.commands ++ [⟨request.command w.published w.publishedTail, w.nextFuture⟩]
    state := (WriterMachine.transition w.state request.event).state
    closePending := if request.isClose then some w.nextFuture else w.closePending
    sealPending := if request.isSealing then some w.nextFuture else w.sealPending
    wake := true
    nextFuture := w.nextFuture + 1 } : AttemptWriter.Writer ε ν) = w'
  -- the new command carries the published frontier, which is behind nothing that is tracked
  obtain ⟨added, hadded, hnew⟩ : ∃ added, frontiers w' = frontiers w ++ added ∧
      (added = [] ∨ added = [(w.published, w.publishedTail)]) := by
    refine ⟨(request.command w.published w.publishedTail).frontier.toList, ?_, ?_⟩
    · subst hw'
      simp only [frontiers, outstanding, List.filterMap_append, List.append_assoc]
      cases hfrontier : (request.command w.published w.publishedTail).frontier <;> simp [hfrontier]
    · cases hfrontier : (request.command w.published w.publishedTail).frontier with
      | none => exact .inl rfl
      | some f =>
        obtain ⟨hmark, htail⟩ := @request_frontier ν request w.published f.1 w.publishedTail f.2 hfrontier
        exact .inr (by rw [← hmark, ← htail]; rfl)
  have hmem : ∀ f ∈ frontiers w', f ∈ frontiers w ∨ f = (w.published, w.publishedTail) := by
    intro f hf
    rw [hadded] at hf
    rcases hnew with rfl | rfl
    · exact .inl (by simpa using hf)
    · simpa using hf
  have hclear : ∀ f, Within w f → Clear w f → Clear w' f := by
    intro f hwithin hf g hg hmark
    rcases hmem g hg with hg | rfl
    · exact hf g hg hmark
    · exact hwithin.extends hmark.symm
  have hfailure : failureOf w'.state = failureOf w.state := by
    subst hw'
    rw [WriterMachine.transition_failureOf, event_isFailureEvent, Option.or_none]
  have hqueue : (frontiers w').Pairwise Behind := by
    rw [hadded]
    rcases hnew with rfl | rfl
    · simpa using h.queue
    · exact List.pairwise_append.mpr ⟨h.queue, List.pairwise_singleton _ _,
        fun f hf g hg => List.mem_singleton.mp hg ▸ h.limits f hf⟩
  have hlimits : ∀ f ∈ frontiers w', Within w f := by
    intro f hf
    rcases hmem f hf with hf | rfl
    · exact h.limits f hf
    · exact Behind.refl _
  have hclear' := hclear _ h.within h.clear
  have hplace := h.place
  subst hw'
  exact ⟨h.ordered, h.nonempty, h.within, hclear', hqueue, hlimits,
    hplace.frame rfl rfl rfl (fun _ hf => hf) hclear hfailure⟩

/-! ## The worker -/

theorem frontiers_sublist {w w' : AttemptWriter.Writer ε ν} (h : QueueStep w w') :
    (frontiers w').Sublist (frontiers w) := by
  apply List.Sublist.filterMap
  cases h with
  | same houtstanding => rw [houtstanding]
  | complete hout hout' =>
    rw [hout, hout']
    exact (List.sublist_cons_self _ _).append_left _

/-- The worker moves on without a call and without new data. -/
theorem TailInv.move {config : WriterConfig} {w w' : AttemptWriter.Writer ε ν} (h : TailInv config w)
    (hsublist : (frontiers w').Sublist (frontiers w)) (hcalls : w'.calls = w.calls)
    (hwritten : w'.written = w.written) (htail : w'.writtenTail = w.writtenTail)
    (hpublished : w'.published = w.published) (hpublishedTail : w'.publishedTail = w.publishedTail)
    (hplace : TailPlace config w' w'.worker) : TailInv config w' where
  ordered := by rw [hcalls]; exact h.ordered
  nonempty := by rw [hcalls]; exact h.nonempty
  within := by
    rw [Within, hwritten, htail, hpublished, hpublishedTail]
    exact h.within
  clear := by
    rw [hwritten, htail]
    exact fun g hg => h.clear g (hsublist.subset hg)
  queue := h.queue.sublist hsublist
  limits := fun f hf => by
    rw [Within, hpublished, hpublishedTail]
    exact h.limits f (hsublist.subset hf)
  place := hplace

/-- What the worker's place says after a call, with nothing else changed. -/
theorem called_tailInv {config : WriterConfig} {w : AttemptWriter.Writer ε ν} {call : Call ν}
    {ok : Result → Worker ε ν} {failed : ε → Worker ε ν} (answer : Except ε Result)
    (h : TailInv config w)
    (hsublist : (frontiers (w.called call answer ok failed)).Sublist (frontiers w))
    (hordered : ∀ f, deliveredBy call = some f → DeliveredTo w f)
    (hnonempty : ∀ offset, call ≠ .appendChunk offset [] [])
    (hok : ∀ result, TailPlace config { w with calls := ⟨call, none⟩ :: w.calls, worker := ok result }
      (ok result))
    (hfailed : ∀ error, ∃ owner, failed error = .recording owner error) :
    TailInv config (w.called call answer ok failed) := by
  have hpush : ∀ error, (delivered (⟨call, error⟩ :: w.calls)).Pairwise
      fun newer older => Behind older newer := by
    intro error
    cases hcall : deliveredBy call with
    | none =>
      rw [delivered_plain _ hcall]
      exact h.ordered
    | some f =>
      have hcons : delivered (⟨call, error⟩ :: w.calls) = f :: delivered w.calls :=
        List.filterMap_cons_some hcall
      rw [hcons, List.pairwise_cons]
      exact ⟨hordered f hcall, h.ordered⟩
  have hfull : ∀ error, ∀ called ∈ (⟨call, error⟩ :: w.calls : List (Called ε ν)), ∀ offset,
      called.call ≠ .appendChunk offset [] [] := by
    intro error called hcalled
    rcases List.mem_cons.mp hcalled with rfl | hcalled
    · exact hnonempty
    · exact h.nonempty called hcalled
  have hclear : ∀ f, Clear w f → Clear (w.called call answer ok failed) f :=
    fun f hf g hg => hf g (hsublist.subset hg)
  have hlimits : ∀ f ∈ frontiers (w.called call answer ok failed), Within w f :=
    fun f hf => h.limits f (hsublist.subset hf)
  have hqueue := h.queue.sublist hsublist
  cases answer with
  | ok result =>
    exact ⟨hpush none, hfull none, h.within, hclear _ h.clear, hqueue, hlimits, hok result⟩
  | error error =>
    obtain ⟨owner, hrecording⟩ := hfailed error
    refine ⟨hpush (some error), hfull (some error), h.within, hclear _ h.clear, hqueue, hlimits, ?_⟩
    simp only [AttemptWriter.Writer.called, hrecording]
    trivial

theorem startDrain_tailInv {config : WriterConfig} {w : AttemptWriter.Writer ε ν} {owner : Owner ν}
    (h : TailInv config w) (hfailure : FailureInv w) (hworker : w.worker = .drain owner)
    (hcalm : ¬ Overtakes config w) : TailInv config (startDrain w owner) := by
  have hto : DeliveredTo w (w.written, w.writtenTail) := by
    have hplace := h.place
    have hhealthy := hfailure.facts
    rw [hworker] at hplace hhealthy
    exact hplace hhealthy
  cases owner with
  | idle =>
    have hqueued : frontiers w = w.commands.filterMap fun pending => pending.command.frontier := by
      simp [frontiers, outstanding, hworker, popped, Owner.popped, flushed]
    have hsame : frontiers (startDrain w .idle) = frontiers w := by
      rw [hqueued]
      rfl
    have hclear : w.published ≤ w.written + config.chunkRecords * recordSize →
        Clear w (w.published, w.publishedTail) := by
      rintro hnear ⟨mark, tail⟩ hg rfl
      rw [hqueued] at hg
      obtain ⟨pending, hpending, hfrontier⟩ := List.mem_filterMap.mp hg
      have htail : tail = w.publishedTail := by
        by_contra hne
        exact hcalm ⟨by rw [hworker]; rfl, hnear, pending, hpending, tail, hfrontier, hne⟩
      exact htail ▸ List.prefix_rfl
    refine h.move (hsame ▸ List.Sublist.refl _) rfl rfl rfl rfl rfl
      ⟨hto, Behind.refl _, h.within.extends, ?_⟩
    intro hreaches g hg hmark
    rw [hsame] at hg
    refine hclear ?_ g hg hmark
    rcases hreaches with hexact | hstart | ⟨-, hnear⟩
    · cases hexact
    · have hreached : w.written = w.published := hstart
      omega
    · exact hnear
  | command pending =>
    have hqueued : frontiers w = pending.command.frontier.toList ++
        w.commands.filterMap fun pending => pending.command.frontier := by
      simp only [frontiers, outstanding, hworker, popped, Owner.popped, flushed, List.nil_append,
        List.cons_append, List.filterMap_cons]
      cases pending.command.frontier <;> rfl
    have hpopped : ∀ worker, popped worker = [pending] → flushed worker = [] →
        frontiers (w.goto worker) = frontiers w := by
      intro worker hkept hnone
      simp only [frontiers, outstanding, hworker, AttemptWriter.Writer.goto, hkept, hnone]
      rfl
    unfold startDrain
    simp only
    split
    · rename_i limit tail hfrontier
      rw [hfrontier, Option.toList_some, List.singleton_append] at hqueued
      have hqueue := h.queue
      rw [hqueued, List.pairwise_cons] at hqueue
      have hmem : (limit, tail) ∈ frontiers w := by simp [hqueued]
      have hwithin := h.limits _ hmem
      have htarget : min limit w.published = limit := min_eq_left hwithin.le
      have hsame := hpopped (.draining (.command pending)
        ⟨min limit w.published, tail, w.written, w.writtenTail, false, true⟩) rfl rfl
      have hpublished : Within w (min limit w.published, tail) := htarget.symm ▸ hwithin
      refine h.move (hsame ▸ List.Sublist.refl _) rfl rfl rfl rfl rfl ⟨hto, hpublished, ?_, ?_⟩
      · intro hstart
        exact h.clear _ hmem (hstart.trans htarget).symm
      · intro _ g hg hmark
        rw [hsame, hqueued] at hg
        simp only [htarget] at hmark
        rcases List.mem_cons.mp hg with rfl | hg
        · exact List.prefix_rfl
        · exact (hqueue.1 g hg).extends hmark.symm
    · have hsame := hpopped (.calling pending) rfl rfl
      exact h.move (hsame ▸ List.Sublist.refl _) rfl rfl rfl rfl rfl fun _ => hto

/-- An accepted chunk or tail tracks the frontier that it delivered. -/
theorem called_tracked {w : AttemptWriter.Writer ε ν} {offset : ℕ} {chunk tail : List UInt8}
    {worker : Worker ε ν} {mark : ℕ} (hmark : offset + chunk.length = mark)
    (hto : DeliveredTo w (mark, tail)) (hclear : Clear w (mark, tail))
    (hwithin : Within w (mark, tail)) (hpopped : popped worker = popped w.worker)
    (hflushed : flushed worker = flushed w.worker) :
    Tracked { w with calls := ⟨.appendChunk offset chunk tail, none⟩ :: w.calls, worker := worker }
      (mark, tail) where
  delivered := by
    subst hmark
    intro g hg
    rcases List.mem_cons.mp hg with rfl | hg
    · exact Behind.refl _
    · exact hto g hg
  clear := by
    intro g hg
    simp only [frontiers, outstanding, hpopped, hflushed] at hg
    exact hclear g hg
  within := hwithin

theorem draining_tailInv {config : WriterConfig} {arena : List UInt8} {w : AttemptWriter.Writer ε ν} {reach : ℕ}
    {owner : Owner ν} {d : Drain} (answer : Except ε Result) (h : TailInv config w)
    (hdata : DataInv arena w reach) (hworker : w.worker = .draining owner d)
    (hsublist : (frontiers (draining config arena w owner d answer)).Sublist (frontiers w)) :
    TailInv config (draining config arena w owner d answer) := by
  obtain ⟨-, hfacts⟩ : PlaceFacts w reach (.draining owner d) := hworker ▸ hdata.place
  obtain ⟨hto, hdrain⟩ : TailPlace config w (.draining owner d) := hworker ▸ h.place
  have hinside := hfacts.target.trans hdata.frontier.inside
  revert hsublist
  unfold draining
  split
  · rename_i hmore
    simp only
    have hpos : 0 < config.chunkRecords * recordSize :=
      Nat.mul_pos config.chunkRecords_pos (by decide)
    generalize hstop : min d.target (d.start + config.chunkRecords * recordSize) = stop
    generalize hfollowing : (if stop = d.target then d.frontierTail else []) = following
    have hlt : d.start < stop := by omega
    have hle : stop ≤ d.target := by omega
    have hlength : (slice arena d.start (stop - d.start)).length = stop - d.start :=
      slice_length (hle.trans hinside)
    have hlast : stop = d.target → following = d.frontierTail := fun heq => by
      rw [← hfollowing, if_pos heq]
    have hreaches : stop = d.target → Reaches config owner d :=
      fun heq => .inr (.inr ⟨hmore.1, by omega⟩)
    -- before the last chunk the tail is empty, and at the last one it is the drain's own
    have hempty : stop ≠ d.target → following = [] := fun hne => by
      rw [← hfollowing, if_neg hne]
    have hwithin : Within w (stop, following) := by
      by_cases heq : stop = d.target
      · rw [heq, hlast heq]
        exact hdrain.within
      · exact .inl ((lt_of_le_of_ne hle heq).trans_le hfacts.target)
    have hclear : Clear w (stop, following) := by
      by_cases heq : stop = d.target
      · rw [heq, hlast heq]
        exact hdrain.clear (hreaches heq)
      · intro g _ _
        rw [hempty heq]
        exact List.nil_prefix
    have hfrontier : d.start + (slice arena d.start (stop - d.start)).length = stop := by omega
    have hbefore : DeliveredTo w (stop, following) := by
      intro g hg
      exact (hto g hg).trans (.inl (hfacts.start ▸ hlt))
    intro hsublist
    refine called_tailInv answer h hsublist ?_ ?_ (fun _ => ?_) fun _ => ⟨owner, rfl⟩
    · intro f hf
      obtain rfl := Option.some.inj hf
      rw [hfrontier]
      exact hbefore
    · intro offset hcall
      injection hcall with _ hchunk _
      rw [hchunk] at hlength
      simp only [List.length_nil] at hlength
      omega
    · have hdraining : ∀ worker, popped worker = popped w.worker → flushed worker = flushed w.worker →
          DrainTails config { w with
            calls := ⟨.appendChunk d.start (slice arena d.start (stop - d.start)) following, none⟩ ::
              w.calls, worker := worker } owner { d with
            start := stop, writtenTail := following, wrote := true, looping := owner.exact } := by
        intro worker hpopped hflushed
        refine ⟨hdrain.within, fun heq => hlast heq ▸ List.prefix_rfl, fun hagain g hg => ?_⟩
        simp only [frontiers, outstanding, hpopped, hflushed] at hg
        refine hdrain.clear ?_ g hg
        rcases hagain with hexact | hstart | ⟨hlooping, -⟩
        · exact .inl hexact
        · exact hreaches hstart
        · exact .inl hlooping
      refine ⟨called_tracked hfrontier hbefore hclear hwithin ?_ ?_, hdraining _ ?_ ?_⟩
      all_goals
        rw [hworker]
        rfl
  · split
    · rename_i htail
      obtain ⟨htarget, hne⟩ := htail
      have hextends : d.writtenTail <+: d.frontierTail := hdrain.tail htarget
      have hwithin : Within w (d.start, d.frontierTail) := htarget ▸ hdrain.within
      have hclear : Clear w (d.start, d.frontierTail) := htarget ▸ hdrain.clear (.inr (.inl htarget))
      have hbefore : DeliveredTo w (d.start, d.frontierTail) := by
        intro g hg
        refine (hto g hg).trans (.inr ⟨hfacts.start.symm, ?_⟩)
        rw [← hfacts.tail]
        exact hextends
      intro hsublist
      refine called_tailInv answer h hsublist ?_ ?_ (fun _ => ?_) fun _ => ⟨owner, rfl⟩
      · intro f hf
        obtain rfl := Option.some.inj hf
        exact hbefore
      · intro offset hcall
        injection hcall with _ _ hnil
        rw [hnil] at hextends hne
        exact hne (List.prefix_nil.mp hextends).symm
      · refine called_tracked rfl hbefore hclear hwithin ?_ ?_
        all_goals
          rw [hworker]
          rfl
    · intro hsublist
      refine h.move hsublist rfl rfl rfl rfl rfl ?_
      cases owner with
      | idle => cases d.wrote <;> exact fun _ => hto
      | command pending => exact fun _ => hto

theorem recordAppended_tailInv {config : WriterConfig} {w : AttemptWriter.Writer ε ν} {owner : Owner ν} {d : Drain}
    {stop : ℕ} {following : List UInt8} (h : TailInv config w)
    (hworker : w.worker = .appended owner d stop following)
    (hsublist : (frontiers (recordAppended w owner d stop following)).Sublist (frontiers w)) :
    TailInv config (recordAppended w owner d stop following) := by
  obtain ⟨htracked, hdrain⟩ : TailPlace config w (.appended owner d stop following) :=
    hworker ▸ h.place
  have hclear : ∀ f, Clear w f → Clear (recordAppended w owner d stop following) f :=
    fun f hf g hg => hf g (hsublist.subset hg)
  exact
    { ordered := h.ordered
      nonempty := h.nonempty
      within := htracked.within
      clear := hclear _ htracked.clear
      queue := h.queue.sublist hsublist
      limits := fun f hf => h.limits f (hsublist.subset hf)
      place := ⟨htracked.delivered, hdrain.within, hdrain.tail,
        fun hreaches => hclear _ (hdrain.clear hreaches)⟩ }

theorem recordTail_tailInv {config : WriterConfig} {arena : List UInt8} {w : AttemptWriter.Writer ε ν} {reach : ℕ}
    {owner : Owner ν} {d : Drain} (h : TailInv config w) (hdata : DataInv arena w reach)
    (hworker : w.worker = .tailAppended owner d)
    (hsublist : (frontiers (recordTail w owner d)).Sublist (frontiers w)) :
    TailInv config (recordTail w owner d) := by
  obtain ⟨-, hfacts, -⟩ : PlaceFacts w reach (.tailAppended owner d) := hworker ▸ hdata.place
  have htracked : Tracked w (d.start, d.frontierTail) := by
    have hplace : TailPlace config w (.tailAppended owner d) := hworker ▸ h.place
    exact hplace
  rw [hfacts.start] at htracked
  exact
    { ordered := h.ordered
      nonempty := h.nonempty
      within := htracked.within
      clear := fun g hg => htracked.clear g (hsublist.subset hg)
      queue := h.queue.sublist hsublist
      limits := fun f hf => h.limits f (hsublist.subset hf)
      place := by
        cases owner <;> exact fun _ => htracked.delivered }

theorem flush_tailInv {config : WriterConfig} {w : AttemptWriter.Writer ε ν} {owner : Owner ν}
    {items : List (Pending ν)} {latched : ε} (h : TailInv config w) (hfailure : FailureInv w)
    (hworker : w.worker = .flushing owner items latched)
    (hsublist : (frontiers (flush w owner items latched)).Sublist (frontiers w)) :
    TailInv config (flush w owner items latched) := by
  have hlatched : failureOf w.state = some latched := by
    simpa [hworker, FailureFacts] using hfailure.facts
  have hplace : ∀ w', failureOf w'.state = failureOf w.state →
      TailPlace config w' (afterFailure owner latched) := by
    intro w' hstate
    cases owner <;> exact fun hhealthy => by simp [hstate, hlatched] at hhealthy
  revert hsublist
  unfold flush
  split
  · exact fun hsublist => h.move hsublist rfl rfl rfl rfl rfl (hplace _ rfl)
  · split
    · exact fun hsublist => h.move hsublist rfl rfl rfl rfl rfl (hplace _ rfl)
    · exact fun hsublist => h.move hsublist rfl rfl rfl rfl rfl fun hhealthy => by
        simp [AttemptWriter.Writer.goto, AttemptWriter.Writer.complete, hlatched] at hhealthy

theorem worker_tailInv {config : WriterConfig} {arena : List UInt8} {w : AttemptWriter.Writer ε ν}
    (answer : Except ε Result) (h : TailInv config w) (hinv : Inv arena w)
    (hcalm : ¬ Overtakes config w) : TailInv config (workerStep config arena w answer) := by
  obtain ⟨⟨reach, hdata⟩, hqueue, hfailure⟩ := hinv
  have hsublist : (frontiers (workerStep config arena w answer)).Sublist (frontiers w) :=
    frontiers_sublist (worker_queueStep config arena answer hqueue)
  have hplace := h.place
  revert hsublist
  unfold workerStep
  split <;> rename_i hworker <;> rw [hworker] at hplace <;> intro hsublist
  · revert hsublist
    unfold nextCommand
    split <;> exact fun hsublist => h.move hsublist rfl rfl rfl rfl rfl hplace
  · revert hsublist
    unfold idleCheck
    split <;> exact fun hsublist => h.move hsublist rfl rfl rfl rfl rfl hplace
  · revert hsublist
    split
    · exact fun hsublist => h.move hsublist rfl rfl rfl rfl rfl hplace
    · exact fun _ => h
  · exact h.move hsublist rfl rfl rfl rfl rfl hplace
  · exact startDrain_tailInv h hfailure hworker hcalm
  · exact draining_tailInv answer h hdata hworker hsublist
  · exact recordAppended_tailInv h hworker hsublist
  · exact recordTail_tailInv h hdata hworker hsublist
  · revert hsublist
    unfold commandCheck
    split
    · exact fun hsublist => h.move hsublist rfl rfl rfl rfl rfl hplace
    · exact fun hsublist => h.move hsublist rfl rfl rfl rfl rfl hplace
    · split <;> exact fun hsublist => h.move hsublist rfl rfl rfl rfl rfl hplace
  · revert hsublist
    unfold closeCheck
    split <;> exact fun hsublist => h.move hsublist rfl rfl rfl rfl rfl hplace
  · rename_i pending
    have hplain := deliveredBy_command pending.command
    refine called_tailInv answer h hsublist ?_ ?_ (fun _ => ?_) fun _ => ⟨_, rfl⟩
    · intro f hf
      rw [hplain] at hf
      cases hf
    · exact fun offset => call_ne_appendChunk _ offset [] []
    · intro hhealthy g hg
      rw [delivered_plain _ hplain] at hg
      exact hplace hhealthy g hg
  · rename_i pending result
    obtain ⟨hstate, hnext, sealResult, heq⟩ := recordSuccess_cases w pending result
    have hsame : failureOf (recordSuccess w pending result).state = failureOf w.state := by
      rw [hstate, WriterMachine.transition_failureOf, successEvent_isFailureEvent, Option.or_none]
    rw [heq] at hsublist ⊢
    rcases hnext with hnext | hnext <;> simp only [hnext] at hsublist ⊢ <;>
      exact h.move hsublist rfl rfl rfl rfl rfl fun hhealthy => hplace (hsame ▸ hhealthy)
  · exact h.move hsublist rfl rfl rfl rfl rfl hplace
  · rename_i pending outcome
    revert hsublist
    cases hclose : pending.command.isClose <;>
      exact fun hsublist => h.move hsublist rfl rfl rfl rfl rfl hplace
  · rename_i owner error
    obtain ⟨latched, hlatched, -, -, heq⟩ := recordFailure_cases w owner error
    rw [heq] at hsublist ⊢
    exact h.move hsublist rfl rfl rfl rfl rfl fun hhealthy => by simp [hlatched] at hhealthy
  · exact flush_tailInv h hfailure hworker hsublist
  · exact h

theorem step_tailInv {config : WriterConfig} {arena : List UInt8} {w : AttemptWriter.Writer ε ν}
    (event : Event ε ν) (h : TailInv config w) (hinv : Inv arena w)
    (hcalm : CalmStep config w event) :
    TailInv config (step config arena w event) := by
  cases event with
  | publish highWater tail =>
    simp only [step]
    split
    · exact publish_tailInv h ‹_›
    · exact h
  | request request =>
    simp only [step]
    split
    · exact admit_tailInv h ‹_›
    · exact h
  | worker answer => exact worker_tailInv answer h hinv hcalm

theorem new_tailInv (config : WriterConfig) : TailInv config (AttemptWriter.Writer.new : AttemptWriter.Writer ε ν) where
  ordered := List.Pairwise.nil
  nonempty := by simp [AttemptWriter.Writer.new]
  within := Behind.refl _
  clear := by simp [Clear, frontiers, outstanding, AttemptWriter.Writer.new, popped, flushed]
  queue := List.Pairwise.nil
  limits := by simp [frontiers, outstanding, AttemptWriter.Writer.new, popped, flushed]
  place := fun _ => by simp [DeliveredTo, delivered, AttemptWriter.Writer.new]

/-- A run in which no command is overtaken delivers tails that only grow. -/
theorem calm_tailInv {config : WriterConfig} {arena : List UInt8} {events : List (Event ε ν)}
    (hcalm : Calm config arena events) : TailInv config (run config arena AttemptWriter.Writer.new events) := by
  have hboth : Inv arena (run config arena AttemptWriter.Writer.new events) ∧
      TailInv config (run config arena AttemptWriter.Writer.new events) := by
    refine TransitionRuns.run_invariant_along
      (P := fun w : AttemptWriter.Writer ε ν => Inv arena w ∧ TailInv config w) ?_
      ⟨new_inv arena, new_tailInv config⟩ hcalm
    intro w event hadmissible h
    exact ⟨step_inv config event h.1, step_tailInv event h.2 h.1 hadmissible⟩
  exact hboth.2

/-! ## After an overtaking -/

/-- The worker takes steps that the target accepts, and the event loop does nothing. -/
def WorkerRun (config : WriterConfig) (arena : List UInt8) : AttemptWriter.Writer ε ν → AttemptWriter.Writer ε ν → Prop :=
  Relation.ReflTransGen fun w w' => step config arena w (.worker (.ok none)) = w'

theorem WorkerRun.steps {config : WriterConfig} {arena : List UInt8} {w w' : AttemptWriter.Writer ε ν}
    (h : WorkerRun config arena w w') :
    ∃ k, run config arena w (List.replicate k (.worker (.ok none))) = w' := by
  induction h with
  | refl => exact ⟨0, rfl⟩
  | tail _ hstep ih =>
    obtain ⟨k, hk⟩ := ih
    refine ⟨k + 1, ?_⟩
    rw [List.replicate_succ', run, TransitionRuns.run_snoc, ← hstep, ← hk]
    rfl

/-- A healthy writer with this queue that delivered all that is published. -/
structure Stands (w : AttemptWriter.Writer ε ν) (commands : List (Pending ν)) (f : ℕ × List UInt8) : Prop where
  healthy : failureOf w.state = none
  queue : w.commands = commands
  written : w.written = f.1
  tail : w.writtenTail = f.2
  published : w.published = f.1
  reached : f ∈ delivered w.calls

theorem Stands.goto {w : AttemptWriter.Writer ε ν} {commands : List (Pending ν)} {f : ℕ × List UInt8}
    (h : Stands w commands f) (worker : Worker ε ν) : Stands (w.goto worker) commands f :=
  ⟨h.healthy, h.queue, h.written, h.tail, h.published, h.reached⟩

section Overtaken

variable {config : WriterConfig} {arena : List UInt8} {w : AttemptWriter.Writer ε ν} {f : ℕ × List UInt8}
  {pending : Pending ν} {rest : List (Pending ν)}

/-- The worker takes the next command, and drains if the command has a frontier. -/
theorem Stands.takes (h : Stands w (pending :: rest) f) (hworker : w.worker = .next)
    (hopen : pending.command.isClose = false) : ∃ w', Stands w' rest f ∧
      (pending.command.frontier = none → WorkerRun config arena w (w'.goto (.calling pending))) ∧
      ∀ limit tail, pending.command.frontier = some (limit, tail) →
        WorkerRun config arena w (w'.goto (.draining (.command pending)
          ⟨min limit f.1, tail, f.1, f.2, false, true⟩)) := by
  have hnext : step config arena w (.worker (.ok none)) =
      { w with commands := rest, worker := .commandCheck pending } := by
    simp [step, workerStep, hworker, nextCommand, h.queue]
  refine ⟨{ w with commands := rest }, ⟨h.healthy, rfl, h.written, h.tail, h.published,
    h.reached⟩, ?_, ?_⟩
  · intro hfrontier
    refine .head hnext (.single ?_)
    simp [step, workerStep, commandCheck, h.healthy, hopen, hfrontier, AttemptWriter.Writer.goto]
  · intro limit tail hfrontier
    refine .head hnext (.head rfl (.single ?_))
    simp [step, workerStep, commandCheck, h.healthy, hopen, hfrontier, AttemptWriter.Writer.goto, startDrain,
      h.written, h.tail, h.published]

/-- A drained command is called, recorded and completed. -/
theorem Stands.executes (h : Stands w rest f) (hopen : pending.command.isClose = false) :
    ∃ w', WorkerRun config arena (w.goto (.calling pending)) w' ∧ w'.worker = .next ∧
      Stands w' rest f := by
  have hplain := deliveredBy_command pending.command
  generalize hcalled : ({ w with
    calls := ⟨pending.command.call, none⟩ :: w.calls
    worker := .succeeded pending none } : AttemptWriter.Writer ε ν) = called
  have hcall : step config arena (w.goto (.calling pending)) (.worker (.ok none)) = called := hcalled
  have hstands : Stands called rest f := by
    subst hcalled
    refine ⟨h.healthy, h.queue, h.written, h.tail, h.published, ?_⟩
    rw [delivered_plain _ hplain]
    exact h.reached
  obtain ⟨hstate, hnext, sealResult, heq⟩ := recordSuccess_cases called pending none
  have hrecord : step config arena called (.worker (.ok none)) = recordSuccess called pending none := by
    subst hcalled
    rfl
  obtain ⟨recorded, hrecorded⟩ : ∃ recorded, recordSuccess called pending none = recorded :=
    ⟨_, rfl⟩
  rw [hrecorded] at hstate hnext heq hrecord
  have hhealthy : failureOf recorded.state = none := by
    rw [hstate, WriterMachine.transition_failureOf, successEvent_isFailureEvent, Option.or_none]
    exact hstands.healthy
  have hkeeps : Stands recorded rest f := by
    rw [heq]
    exact ⟨hhealthy, hstands.queue, hstands.written, hstands.tail, hstands.published,
      hstands.reached⟩
  have hcompletes : ∀ (v : AttemptWriter.Writer ε ν) (outcome : Except ε Result), Stands v rest f → v.worker = .completing pending outcome →
      ∃ w', step config arena v (.worker (.ok none)) = w' ∧ w'.worker = .next ∧
        Stands w' rest f := by
    intro v outcome hv hworker
    refine ⟨(v.complete pending.future outcome).goto .next, ?_, rfl, ?_⟩
    · simp [step, workerStep, hworker, hopen]
    · exact ⟨hv.healthy, hv.queue, hv.written, hv.tail, hv.published, hv.reached⟩
  rcases hnext with hnext | hnext
  · obtain ⟨w', hstep, hw', hstands'⟩ := hcompletes recorded _ hkeeps hnext
    exact ⟨w', .head hcall (.head hrecord (.single hstep)), hw', hstands'⟩
  · have hremember : step config arena recorded (.worker (.ok none)) =
        rememberDurable recorded pending none := by
      simp [step, workerStep, hnext]
    have hkept : Stands (rememberDurable recorded pending none) rest f :=
      ⟨hkeeps.healthy, hkeeps.queue, hkeeps.written, hkeeps.tail, hkeeps.published, hkeeps.reached⟩
    obtain ⟨w', hstep, hw', hstands'⟩ := hcompletes _ _ hkept rfl
    exact ⟨w', .head hcall (.head hrecord (.head hremember (.single hstep))), hw', hstands'⟩

/-- A command whose frontier is passed, or has none, is executed without a chunk. -/
theorem Stands.passes (h : Stands w (pending :: rest) f) (hworker : w.worker = .next)
    (hopen : pending.command.isClose = false)
    (hpast : ∀ g, pending.command.frontier = some g → g.1 < f.1 ∨ g = f) :
    ∃ w', WorkerRun config arena w w' ∧ w'.worker = .next ∧ Stands w' rest f := by
  obtain ⟨w₁, hw₁, hnone, hsome⟩ := @Stands.takes ε ν config arena w f pending rest h hworker hopen
  have hcalling : WorkerRun config arena w (w₁.goto (.calling pending)) := by
    cases hfrontier : pending.command.frontier with
    | none => exact hnone hfrontier
    | some g =>
      refine (hsome g.1 g.2 hfrontier).tail ?_
      have hquiet : ¬ f.1 < min g.1 f.1 ∧ ¬ (f.1 = min g.1 f.1 ∧ g.2 ≠ f.2) := by
        rcases hpast g hfrontier with hlt | rfl
        · omega
        · simp
      simp only [step, workerStep, AttemptWriter.Writer.goto, draining, true_and]
      rw [if_neg hquiet.1, if_neg hquiet.2]
      rfl
  obtain ⟨w', hrun, hw'⟩ := @Stands.executes ε ν config arena w₁ f pending rest hw₁ hopen
  exact ⟨w', hcalling.trans hrun, hw'⟩

/-- A command admitted with another tail at the mark takes the target back to it. -/
theorem Stands.falls_back (h : Stands w (pending :: rest) f) (hworker : w.worker = .next)
    (hopen : pending.command.isClose = false) {tail : List UInt8}
    (hfrontier : pending.command.frontier = some (f.1, tail)) (hne : tail ≠ f.2) :
    ∃ w', WorkerRun config arena w w' ∧ ∃ older, delivered w'.calls = (f.1, tail) :: older ∧
      f ∈ older := by
  obtain ⟨w₁, hw₁, -, hsome⟩ := @Stands.takes ε ν config arena w f pending rest h hworker hopen
  have hdraining := hsome f.1 tail hfrontier
  rw [min_self] at hdraining
  refine ⟨_, hdraining.tail rfl, delivered w₁.calls, ?_, hw₁.reached⟩
  simp only [step, workerStep, AttemptWriter.Writer.goto, draining, lt_self_iff_false, and_false, if_false]
  rw [if_pos ⟨trivial, hne⟩]
  rfl

/-- The target went back behind a tail that it had. -/
theorem not_advancing {calls : List (Called ε ν)} {tail : List UInt8} {older : List (ℕ × List UInt8)}
    (hcalls : delivered calls = (f.1, tail) :: older) (hmem : f ∈ older) (hbehind : tail <+: f.2)
    (hne : tail ≠ f.2) : ¬ Advancing calls := by
  intro h
  have hextend := h.extend
  rw [hcalls, List.pairwise_cons] at hextend
  have hback : f.2 <+: tail := hextend.1 f hmem rfl
  exact hne (hbehind.eq_of_length (le_antisymm hbehind.length_le hback.length_le))

/-- The first queued command that lacks a part of the delivered tail falls back. -/
theorem Stands.overtaken {before after : List (Pending ν)} {tail : List UInt8}
    (h : Stands w (before ++ pending :: after) f) (hworker : w.worker = .next)
    (hopen : ∀ p ∈ before ++ [pending], p.command.isClose = false)
    (hlimits : ∀ p ∈ before ++ [pending], ∀ g, p.command.frontier = some g → Behind g f)
    (hfrontier : pending.command.frontier = some (f.1, tail)) (hne : tail ≠ f.2) :
    ∃ w', WorkerRun config arena w w' ∧ ¬ Advancing w'.calls := by
  induction before generalizing w with
  | nil =>
    obtain ⟨w', hrun, older, hcalls, hmem⟩ := @Stands.falls_back ε ν config arena w f pending after h
      hworker (hopen pending (by simp)) tail hfrontier hne
    have hbehind := (hlimits pending (by simp) _ hfrontier).extends rfl
    exact ⟨w', hrun, not_advancing hcalls hmem hbehind hne⟩
  | cons first before ih =>
    have hfirst := hopen first (by simp)
    have hlater : ∀ p, p ∈ before ++ [pending] → p ∈ first :: before ++ [pending] :=
      fun p hp => List.mem_cons_of_mem first hp
    by_cases hshort : ∃ g, first.command.frontier = some (f.1, g) ∧ g ≠ f.2
    · obtain ⟨g, hg, hgne⟩ := hshort
      obtain ⟨w', hrun, older, hcalls, hmem⟩ := @Stands.falls_back ε ν config arena w f first
        (before ++ pending :: after) h hworker hfirst g hg hgne
      have hbehind := (hlimits first (by simp) _ hg).extends rfl
      exact ⟨w', hrun, not_advancing hcalls hmem hbehind hgne⟩
    · have hpast : ∀ g, first.command.frontier = some g → g.1 < f.1 ∨ g = f := by
        intro g hg
        rcases hlimits first (by simp) g hg with hlt | ⟨hmark, -⟩
        · exact .inl hlt
        · right
          by_contra hdiffers
          apply hshort
          refine ⟨g.2, by rw [hg, ← hmark], fun htail => hdiffers (Prod.ext hmark htail)⟩
      obtain ⟨w₁, hrun, hworker₁, h₁⟩ := @Stands.passes ε ν config arena w f first
        (before ++ pending :: after) h hworker hfirst hpast
      obtain ⟨w', hrun', hviolates⟩ := ih h₁ hworker₁ (fun p hp => hopen p (hlater p hp))
        fun p hp => hlimits p (hlater p hp)
      exact ⟨w', hrun.trans hrun', hviolates⟩

/-- The drain of the idle worker delivers the whole published frontier. -/
theorem idle_delivers {reach : ℕ} (hdata : DataInv arena w reach) (hhealthy : failureOf w.state = none)
    (hworker : w.worker = .drain .idle)
    (hnear : w.published ≤ w.written + config.chunkRecords * recordSize)
    (hnew : w.written = w.published → w.publishedTail ≠ w.writtenTail) :
    ∃ w', WorkerRun config arena w w' ∧ w'.worker = .next ∧
      Stands w' w.commands (w.published, w.publishedTail) := by
  have hstart : step config arena w (.worker (.ok none)) = w.goto (.draining .idle
      ⟨w.published, w.publishedTail, w.written, w.writtenTail, false, true⟩) := by
    simp [step, workerStep, hworker, startDrain]
  rcases (hdata.written.trans hdata.published).lt_or_eq with hlt | heq
  · -- one chunk with the tail behind it
    have hlength : (slice arena w.written (w.published - w.written)).length =
        w.published - w.written := slice_length hdata.frontier.inside
    have hmark : w.written + (slice arena w.written (w.published - w.written)).length =
        w.published := by omega
    generalize hchunk : slice arena w.written (w.published - w.written) = chunk at hlength hmark
    have hcall : step config arena (w.goto (.draining .idle
        ⟨w.published, w.publishedTail, w.written, w.writtenTail, false, true⟩)) (.worker (.ok none)) =
        { w with
          calls := ⟨.appendChunk w.written chunk w.publishedTail, none⟩ :: w.calls
          worker := .appended .idle ⟨w.published, w.publishedTail, w.written, w.writtenTail, false,
            true⟩ w.published w.publishedTail } := by
      simp only [step, workerStep, AttemptWriter.Writer.goto, draining, hlt, min_eq_left hnear, hchunk, and_self,
        if_true]
      rfl
    refine ⟨_, .head hstart (.head hcall (.head rfl (.single rfl))), ?_, ?_⟩
    · simp [step, workerStep, recordAppended, draining, drained, Owner.exact, AttemptWriter.Writer.goto]
    · have hreached : (w.published, w.publishedTail) ∈ delivered
          (⟨.appendChunk w.written chunk w.publishedTail, none⟩ :: w.calls : List (Called ε ν)) := by
        have hhead : deliveredBy (.appendChunk w.written chunk w.publishedTail : Call ν) =
            some (w.published, w.publishedTail) := by
          rw [deliveredBy, hmark]
        exact List.mem_filterMap.mpr ⟨_, List.mem_cons_self, hhead⟩
      simp only [step, workerStep, recordAppended, draining, Owner.exact, Bool.false_eq_true,
        false_and, if_false, ne_eq, not_true_eq_false, and_false]
      exact ⟨hhealthy, rfl, rfl, rfl, rfl, hreached⟩
  · -- the records are delivered, and a new tail
    have hcall : step config arena (w.goto (.draining .idle
        ⟨w.published, w.publishedTail, w.written, w.writtenTail, false, true⟩)) (.worker (.ok none)) =
        { w with
          calls := ⟨.appendChunk w.written [] w.publishedTail, none⟩ :: w.calls
          worker := .tailAppended .idle ⟨w.published, w.publishedTail, w.written, w.writtenTail, false,
            true⟩ } := by
      simp only [step, workerStep, AttemptWriter.Writer.goto, draining]
      rw [if_neg (by simp [heq]), if_pos ⟨heq, hnew heq⟩]
      rfl
    refine ⟨_, .head hstart (.head hcall (.single rfl)), rfl, ?_⟩
    have hreached : (w.published, w.publishedTail) ∈ delivered
        (⟨.appendChunk w.written [] w.publishedTail, none⟩ :: w.calls : List (Called ε ν)) := by
      have hhead : deliveredBy (.appendChunk w.written [] w.publishedTail : Call ν) =
          some (w.published, w.publishedTail) := by
        rw [deliveredBy, heq, List.length_nil, Nat.add_zero]
      exact List.mem_filterMap.mpr ⟨_, List.mem_cons_self, hhead⟩
    exact ⟨hhealthy, rfl, heq, rfl, rfl, hreached⟩

end Overtaken

/-! ## A close is never overtaken -/

/-- An outstanding close was admitted with all that is published: nothing is published after it. -/
def CloseInv (w : AttemptWriter.Writer ε ν) : Prop :=
  ∀ pending ∈ outstanding w, pending.command.isClose = true →
    pending.command.frontier = some (w.published, w.publishedTail)

theorem publish_open {arena : List UInt8} {w w' : AttemptWriter.Writer ε ν} {highWater : ℕ} {tail : List UInt8}
    {moved : Bool} (h : publish arena w highWater tail = .ok (w', moved)) :
    WriterMachine.isClosing w.state = false := by
  unfold publish at h
  cases hclosing : WriterMachine.isClosing w.state with
  | false => rfl
  | true =>
    obtain ⟨kind, hkind⟩ : ∃ kind,
        (WriterMachine.transition w.state .publishRequested).directive = .reject kind := by
      cases hstate : w.state with
      | closing failure drain startAdmitted => exact ⟨.closed, rfl⟩
      | closed failure startAdmitted => exact ⟨.closed, rfl⟩
      | _ => simp [hstate, WriterMachine.isClosing] at hclosing
    rw [hkind] at h
    repeat' split at h
    all_goals simp_all

theorem called_published (w : AttemptWriter.Writer ε ν) (call : Call ν) (answer : Except ε Result)
    (ok : Result → Worker ε ν) (failed : ε → Worker ε ν) :
    (w.called call answer ok failed).published = w.published ∧
      (w.called call answer ok failed).publishedTail = w.publishedTail := by
  cases answer <;> exact ⟨rfl, rfl⟩

theorem worker_published (config : WriterConfig) (arena : List UInt8) (w : AttemptWriter.Writer ε ν)
    (answer : Except ε Result) : (workerStep config arena w answer).published = w.published ∧
      (workerStep config arena w answer).publishedTail = w.publishedTail := by
  unfold workerStep
  split
  · unfold nextCommand
    split <;> exact ⟨rfl, rfl⟩
  · unfold idleCheck
    split <;> exact ⟨rfl, rfl⟩
  · split <;> exact ⟨rfl, rfl⟩
  · exact ⟨rfl, rfl⟩
  · unfold startDrain
    repeat' split
    all_goals exact ⟨rfl, rfl⟩
  · unfold draining
    split
    · exact called_published w _ answer _ _
    · split
      · exact called_published w _ answer _ _
      · exact ⟨rfl, rfl⟩
  · exact ⟨rfl, rfl⟩
  · exact ⟨rfl, rfl⟩
  · unfold commandCheck
    repeat' split
    all_goals exact ⟨rfl, rfl⟩
  · unfold closeCheck
    split <;> exact ⟨rfl, rfl⟩
  · exact called_published w _ answer _ _
  · rename_i pending result _
    obtain ⟨-, -, sealResult, heq⟩ := recordSuccess_cases w pending result
    rw [heq]
    exact ⟨rfl, rfl⟩
  · exact ⟨rfl, rfl⟩
  · exact ⟨rfl, rfl⟩
  · rename_i owner error _
    obtain ⟨latched, -, -, -, heq⟩ := recordFailure_cases w owner error
    rw [heq]
    exact ⟨rfl, rfl⟩
  · unfold flush
    repeat' split
    all_goals exact ⟨rfl, rfl⟩
  · exact ⟨rfl, rfl⟩

theorem step_closeInv {config : WriterConfig} {arena : List UInt8} {w : AttemptWriter.Writer ε ν}
    (event : Event ε ν) (h : CloseInv w) (hqueue : QueueInv w) :
    CloseInv (step config arena w event) := by
  cases event with
  | publish highWater tail =>
    simp only [step]
    split
    · rename_i w' moved hpublish
      have hopen := publish_open hpublish
      have hsame : outstanding w' = outstanding w := by
        obtain rfl | ⟨-, -, -, -, -, rfl⟩ := publish_cases hpublish <;> rfl
      intro pending hpending hclose
      rw [hsame] at hpending
      have hclosing := hqueue.closing pending hpending hclose
      rw [hopen] at hclosing
      cases hclosing
    · exact h
  | request request =>
    simp only [step]
    split
    · rename_i w' future hadmitted
      obtain rfl | ⟨-, rfl⟩ := admit_cases hadmitted
      · exact h
      · intro pending hpending hclose
        have hcases : pending ∈ outstanding w ∨
            pending = ⟨request.command w.published w.publishedTail, w.nextFuture⟩ := by
          simpa [outstanding, or_assoc] using hpending
        rcases hcases with hpending | rfl
        · exact h pending hpending hclose
        · cases request <;> first | rfl | cases hclose
    · exact h
  | worker answer =>
    obtain ⟨hmark, htail⟩ := worker_published config arena w answer
    intro pending hpending hclose
    have hheld := (worker_queueStep config arena answer hqueue).mem hpending
    simp only [step, hmark, htail]
    exact h pending hheld hclose

theorem run_closeInv (config : WriterConfig) (arena : List UInt8) (events : List (Event ε ν)) :
    CloseInv (run config arena AttemptWriter.Writer.new events) := by
  have hboth : WriterDelivery.Inv arena (run config arena AttemptWriter.Writer.new events) ∧
      CloseInv (run config arena AttemptWriter.Writer.new events) := by
    refine TransitionRuns.run_invariant
      (P := fun w : AttemptWriter.Writer ε ν => WriterDelivery.Inv arena w ∧ CloseInv w) (Q := fun _ => True)
      ?_ ⟨new_inv arena, ?_⟩ fun _ _ => trivial
    · intro w event _ h
      exact ⟨step_inv config event h.1, step_closeInv event h.2 h.1.queue⟩
    · simp [CloseInv, outstanding, AttemptWriter.Writer.new, popped, flushed]
  exact hboth.2

/-! ## The tails of a run -/

/-- An overtaken command is executed in the end, and takes the target back. -/
theorem overtakes_not_advancing {config : WriterConfig} {arena : List UInt8} {w : AttemptWriter.Writer ε ν}
    (h : TailInv config w) (hinv : WriterDelivery.Inv arena w) (hclose : CloseInv w)
    (hover : Overtakes config w) :
    ∃ w', WorkerRun config arena w w' ∧ ¬ Advancing w'.calls := by
  obtain ⟨hidle, hnear, pending, hpending, tail, hfrontier, hne⟩ := hover
  have hworker : w.worker = .drain .idle := by
    revert hidle
    unfold idleDrains
    split
    · exact fun _ => ‹_›
    · exact fun hidle => absurd hidle (by simp)
  obtain ⟨⟨reach, hdata⟩, hqueue, hfailure⟩ := hinv
  have hout : outstanding w = w.commands := by
    simp [outstanding, hworker, popped, Owner.popped, flushed]
  have hhealthy : failureOf w.state = none := by
    have hfacts := hfailure.facts
    rw [hworker] at hfacts
    exact hfacts
  have hlimits : ∀ p ∈ w.commands, ∀ g, p.command.frontier = some g →
      Behind g (w.published, w.publishedTail) := by
    intro p hp g hg
    exact h.limits g (List.mem_filterMap.mpr ⟨p, hout ▸ hp, hg⟩)
  have hmem : (w.published, tail) ∈ frontiers w :=
    List.mem_filterMap.mpr ⟨pending, hout ▸ hpending, hfrontier⟩
  have hnew : w.written = w.published → w.publishedTail ≠ w.writtenTail := by
    intro hmark hsame
    have hback : w.writtenTail <+: tail := h.clear _ hmem hmark.symm
    have hforth : tail <+: w.publishedTail := (h.limits _ hmem).extends rfl
    rw [hsame] at hforth hne
    exact hne (hforth.eq_of_length (le_antisymm hforth.length_le hback.length_le))
  obtain ⟨w₁, hrun, hworker₁, hstands⟩ :=
    @idle_delivers ε ν config arena w reach hdata hhealthy hworker hnear hnew
  obtain ⟨before, after, hcommands⟩ := List.append_of_mem hpending
  have hkept : ∀ p ∈ before ++ [pending], p ∈ w.commands := by
    intro p hp
    rw [hcommands]
    simp only [List.mem_append, List.mem_cons] at hp ⊢
    tauto
  have hopen : ∀ p ∈ before ++ [pending], p.command.isClose = false := by
    intro p hp
    cases hisClose : p.command.isClose with
    | false => rfl
    | true =>
      have hown := hclose p (hout ▸ hkept p hp) hisClose
      rcases List.mem_append.mp hp with hp | hp
      · have hlast := hqueue.closeLast
        rw [hout, hcommands, CloseLast, List.pairwise_append] at hlast
        have hearlier := hlast.2.2 p hp pending List.mem_cons_self
        rw [hisClose] at hearlier
        cases hearlier
      · obtain rfl := List.mem_singleton.mp hp
        rw [hfrontier] at hown
        exact absurd (congrArg Prod.snd (Option.some.inj hown)) hne
  rw [hcommands] at hstands
  obtain ⟨w', hrun', hviolates⟩ := @Stands.overtaken ε ν config arena w₁ _ pending before after tail
    hstands hworker₁ hopen (fun p hp => hlimits p (hkept p hp)) hfrontier hne
  exact ⟨w', hrun.trans hrun', hviolates⟩

/-- In every run that overtakes no queued command the delivered tails only grow and no call is
empty; a run that overtakes one can be cut off there, and the worker alone then delivers less. -/
theorem tails_advance (config : WriterConfig) (arena : List UInt8) (events : List (Event ε ν)) :
    (Calm config arena events → Advancing (run config arena AttemptWriter.Writer.new events).calls) ∧
    (¬ Calm config arena events → ∃ before k, before <+: events ∧
      ¬ Advancing (run config arena AttemptWriter.Writer.new
        (before ++ List.replicate k (.worker (.ok none)))).calls) := by
  constructor
  · intro hcalm
    exact (calm_tailInv hcalm).advancing
  · intro hwild
    obtain ⟨before, event, after, rfl, hcalm, hstep⟩ := TransitionRuns.exists_of_not_along hwild
    cases event with
    | publish highWater tail => exact absurd trivial hstep
    | request request => exact absurd trivial hstep
    | worker answer =>
      obtain ⟨w', hrun, hviolates⟩ := overtakes_not_advancing (calm_tailInv hcalm)
        (run_inv config arena before) (run_closeInv config arena before) (not_not.mp hstep)
      obtain ⟨k, rfl⟩ := hrun.steps
      refine ⟨before, k, List.prefix_append _ _, ?_⟩
      unfold run at hviolates ⊢
      rw [TransitionRuns.run_append]
      exact hviolates

/-- A leg of one record is prepared and begun, and the idle worker is about to drain. -/
def readingIdle : List (Event ℕ ℕ) :=
  .request .start :: List.replicate 5 (.worker (.ok none)) ++
    .request (.prepareLeg 0 1) :: List.replicate 5 (.worker (.ok none)) ++
    .request (.readBegin 0) :: List.replicate 7 (.worker (.ok none))

/-- A tail that is published before the checkpoint is admitted is delivered once. -/
theorem tails_advance_published_first :
    Advancing (run ⟨1, 4, by decide⟩ (List.replicate 444 7) (AttemptWriter.Writer.new : AttemptWriter.Writer ℕ ℕ)
      (readingIdle ++ [.publish 0 [7], .request .checkpoint] ++
        List.replicate 8 (.worker (.ok none)))).calls :=
  (tails_advance ⟨1, 4, by decide⟩ (List.replicate 444 7) _).1 (by decide +kernel)

/-- The idle drain delivers a tail that the queued checkpoint was admitted without; the checkpoint
then calls with an empty chunk and an empty tail. -/
theorem overtaken_checkpoint_empty :
    ¬ ∀ (config : WriterConfig) (arena : List UInt8) (events : List (Event ℕ ℕ)),
      (∀ error, .worker (.error error) ∉ events) →
      Advancing (run config arena AttemptWriter.Writer.new events).calls := by
  intro hall
  have hadvancing := hall ⟨1, 4, by decide⟩ (List.replicate 444 7)
    (readingIdle ++ [.request .checkpoint, .publish 0 [7]] ++
      List.replicate 8 (.worker (.ok none))) (by simp [readingIdle])
  have hempty : Call.appendChunk 0 [] [] ∈ (run ⟨1, 4, by decide⟩ (List.replicate 444 7)
      (AttemptWriter.Writer.new : AttemptWriter.Writer ℕ ℕ) (readingIdle ++ [.request .checkpoint, .publish 0 [7]] ++
        List.replicate 8 (.worker (.ok none)))).calls.map Called.call := by
    decide +kernel
  obtain ⟨called, hcalled, hcall⟩ := List.mem_map.mp hempty
  exact hadvancing.nonempty called hcalled 0 hcall

end WriterTails
