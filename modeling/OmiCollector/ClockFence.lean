import OmiCollector.ClockSync

/-! A device clock write is always fenced in durable evidence.

A write sent at boundary `b` is pending while its intent is durable, and closed once the
sequences from `b` to the boundary recorded for it are explicitly unknown. Every effect of a
session keeps each write of the history in one of these two states, so a session may stop
anywhere. -/
namespace ClockFence

open SpanCover ClockModel ClockTiming ClockSync RefusalLogic TransitionRuns

def persistedBoundary : Event → Option ℕ
  | .infoPersisted a => some a
  | _ => none

/-- The write sequence of the first INFO persisted in a stretch of history. -/
def firstPersisted (history : List Event) : Option ℕ := history.findSome? persistedBoundary

/-- The interval is recorded as uncertain and all its sequences stay explicitly unknown. -/
def Closed (s : ClockState) (b a : ℕ) : Prop :=
  (b, a) ∈ s.causalUncertainty ∧ ∀ x, b ≤ x → x < a → TimedAt s.ranges x none

/-- The write's own intent is durable and holds the boundary persisted since, if any. -/
def Pending (s : ClockState) (b : ℕ) (later : List Event) : Prop :=
  .finished ∉ later ∧ ∃ i, s.intent = some i ∧ i.writeSequenceBefore = b ∧
    i.writeSequenceAfter = firstPersisted later

/-- The write's intent was finished, and it is closed up to the first boundary persisted. -/
def Finished (s : ClockState) (b : ℕ) (later : List Event) : Prop :=
  .finished ∈ later ∧ ∃ a, firstPersisted later = some a ∧ Closed s b a

def Fenced (s : ClockState) (b : ℕ) (later : List Event) : Prop :=
  Pending s b later ∨ Finished s b later

/-- The invariant over the durable state, the INFO frontier and the history. -/
structure Fences (s : ClockState) (lastWrite session : ℕ) (trace : List Event) : Prop where
  below : ∀ x o, TimedAt s.ranges x o → x < lastWrite
  intentBelow : ∀ i, s.intent = some i → ∀ x o, TimedAt s.ranges x o → x < i.writeSequenceBefore
  intentFresh : ∀ i, s.intent = some i → i.phase = .prepared → i.writeSequenceAfter = none
  fenced : ∀ before k b d later, trace = before ++ .setTime k b d :: later → Fenced s b later
  sends : ∀ k b d, .setTime k b d ∈ trace →
    ∃ i, d = some i ∧ i.phase = .prepared ∧ i.writeSequenceBefore = b
  observed : ∀ d, .observed d ∈ trace → d = none
  cancels : ∀ k, .cancelled k ∈ trace → ∀ b d, .setTime k b d ∉ trace
  sent_tags : ∀ k b d, .setTime k b d ∈ trace → k ≤ session
  cancel_tags : ∀ k, .cancelled k ∈ trace → k ≤ session

/-- No write and no cancellation of this session is in the history. -/
def Quiet (session : ℕ) (trace : List Event) : Prop :=
  (∀ b d, .setTime session b d ∉ trace) ∧ .cancelled session ∉ trace

/-- Every write of the history is finished. -/
def AllClosed (s : ClockState) (trace : List Event) : Prop :=
  ∀ before k b d later, trace = before ++ .setTime k b d :: later → Finished s b later

theorem firstPersisted_append (xs ys : List Event) :
    firstPersisted (xs ++ ys) = (firstPersisted xs).or (firstPersisted ys) := by
  simp [firstPersisted, List.findSome?_append]

/-- A finished write stays finished while its interval stays closed. -/
theorem Finished.append {s s' : ClockState} {b : ℕ} {later : List Event}
    (h : Finished s b later) (hclosed : ∀ a, Closed s b a → Closed s' b a)
    (events : List Event) : Finished s' b (later ++ events) := by
  obtain ⟨hmem, a, ha, hab⟩ := h
  refine ⟨List.mem_append_left _ hmem, a, ?_, hclosed a hab⟩
  rw [firstPersisted_append, ha]
  rfl

/-- A write in an extended history is an old write, or one of the new events. -/
theorem split_append {trace events before later : List Event} {k b : ℕ} {d : Option ClockIntent}
    (h : trace ++ events = before ++ .setTime k b d :: later)
    (hnew : ∀ e ∈ events, e ≠ .setTime k b d) :
    ∃ post, trace = before ++ .setTime k b d :: post ∧ later = post ++ events := by
  rcases List.append_eq_append_iff.mp h with ⟨mid, hmid, hevents⟩ | ⟨mid, hmid, hlater⟩
  · exfalso
    have : Event.setTime k b d ∈ events := by rw [hevents]; simp
    exact hnew _ this rfl
  · cases mid with
    | nil =>
      exfalso
      have : Event.setTime k b d ∈ events := by
        rw [List.nil_append] at hlater
        rw [← hlater]
        simp
      exact hnew _ this rfl
    | cons e post =>
      rw [List.cons_append] at hlater
      obtain ⟨rfl, rfl⟩ := List.cons.inj hlater
      exact ⟨post, hmid, rfl⟩

/-- A step that keeps closed writes closed keeps them so over a longer history. -/
theorem AllClosed.append {s s' : ClockState} {trace events : List Event} (h : AllClosed s trace)
    (hclosed : ∀ b a, Closed s b a → Closed s' b a)
    (hnew : ∀ e ∈ events, ∀ k b d, e ≠ .setTime k b d) : AllClosed s' (trace ++ events) := by
  intro before k b d later hsplit
  obtain ⟨post, hpost, rfl⟩ := split_append hsplit (fun e he => hnew e he k b d)
  exact (h before k b d post hpost).append (hclosed b) events

theorem AllClosed.fenced {s : ClockState} {trace : List Event} (h : AllClosed s trace) :
    ∀ before k b d later, trace = before ++ .setTime k b d :: later → Fenced s b later :=
  fun before k b d later hsplit => .inr (h before k b d later hsplit)

section Transitions

variable {s s' : ClockState} {lastWrite session : ℕ} {trace : List Event}

/-- Without a pending intent every write is closed. -/
theorem Fences.allClosed (h : Fences s lastWrite session trace) (hnone : s.intent = none) :
    AllClosed s trace := by
  intro before k b d later hsplit
  rcases h.fenced before k b d later hsplit with ⟨-, i, hi, -⟩ | hclosed
  · simp [hnone] at hi
  · exact hclosed

theorem Closed.mono {b a : ℕ} (h : Closed s b a)
    (hkept : ∀ x o, TimedAt s.ranges x o → TimedAt s'.ranges x o)
    (hcausal : ∀ i ∈ s.causalUncertainty, i ∈ s'.causalUncertainty) : Closed s' b a :=
  ⟨hcausal _ h.1, fun x hx hxa => hkept x none (h.2 x hx hxa)⟩

/-- Events other than writes, cancellations and observations keep the event clauses. -/
structure Silent (events : List Event) : Prop where
  sends : ∀ e ∈ events, ∀ k b d, e ≠ .setTime k b d
  cancels : ∀ e ∈ events, ∀ k, e ≠ .cancelled k
  observed : ∀ e ∈ events, ∀ d, e = .observed d → d = none

theorem Fences.extend (h : Fences s lastWrite session trace) {events : List Event}
    (hsilent : Silent events) (hbelow : ∀ x o, TimedAt s'.ranges x o → x < lastWrite)
    (hintent : ∀ i, s'.intent = some i → ∀ x o, TimedAt s'.ranges x o → x < i.writeSequenceBefore)
    (hfresh : ∀ i, s'.intent = some i → i.phase = .prepared → i.writeSequenceAfter = none)
    (hfenced : ∀ b later, Fenced s b later → Fenced s' b (later ++ events)) :
    Fences s' lastWrite session (trace ++ events) := by
  have hold : ∀ {k b d}, .setTime k b d ∈ trace ++ events → .setTime k b d ∈ trace := by
    intro k b d he
    rcases List.mem_append.mp he with he | he
    · exact he
    · exact absurd rfl (hsilent.sends _ he k b d)
  have holdCancel : ∀ {k}, .cancelled k ∈ trace ++ events → .cancelled k ∈ trace := by
    intro k he
    rcases List.mem_append.mp he with he | he
    · exact he
    · exact absurd rfl (hsilent.cancels _ he k)
  refine ⟨hbelow, hintent, hfresh, ?_, fun k b d he => h.sends k b d (hold he), ?_,
    fun k he b d hd => h.cancels k (holdCancel he) b d (hold hd),
    fun k b d he => h.sent_tags k b d (hold he), fun k he => h.cancel_tags k (holdCancel he)⟩
  · intro before k b d later hsplit
    obtain ⟨post, hpost, rfl⟩ := split_append hsplit (fun e he => hsilent.sends e he k b d)
    exact hfenced b post (h.fenced before k b d post hpost)
  · intro d he
    rcases List.mem_append.mp he with he | he
    · exact h.observed d he
    · exact hsilent.observed _ he d rfl

theorem silent_nil : Silent [] := ⟨by simp, by simp, by simp⟩

theorem silent_infoPersisted (a : ℕ) : Silent [.infoPersisted a] := ⟨by simp, by simp, by simp⟩

theorem silent_finished : Silent [.finished] := ⟨by simp, by simp, by simp⟩

theorem silent_observed : Silent [.observed none] := ⟨by simp, by simp, by simp⟩

theorem Quiet.append {events : List Event} (h : Quiet session trace) (hs : Silent events) :
    Quiet session (trace ++ events) := by
  refine ⟨fun b d he => ?_, fun he => ?_⟩
  · rcases List.mem_append.mp he with he | he
    · exact h.1 b d he
    · exact hs.sends _ he session b d rfl
  · rcases List.mem_append.mp he with he | he
    · exact h.2 he
    · exact hs.cancels _ he session rfl

/-- With no pending intent, evidence may grow below the INFO frontier. -/
theorem Fences.grow (h : Fences s lastWrite session trace) (hnone : s.intent = none)
    (hnone' : s'.intent = none)
    (hcausal : ∀ i ∈ s.causalUncertainty, i ∈ s'.causalUncertainty)
    (hext : Extends s s' lastWrite) {events : List Event} (hsilent : Silent events) :
    Fences s' lastWrite session (trace ++ events) := by
  refine h.extend hsilent ?_ (by simp [hnone']) (by simp [hnone']) ?_
  · intro x o hx
    rcases hext.fresh x o hx with hx | hx
    · exact h.below x o hx
    · exact hx
  · rintro b later (⟨-, i, hi, -⟩ | hdone)
    · simp [hnone] at hi
    · exact .inr (hdone.append (fun a hab => hab.mono hext.kept hcausal) events)

theorem Fences.begin (h : Fences s lastWrite session trace) {intent : ClockIntent}
    (hphase : intent.writeSequenceAfter = none) (hb : intent.writeSequenceBefore = lastWrite)
    (hs : s.beginIntent intent = .ok s') :
    s.intent = none ∧ s'.intent = some intent ∧ Fences s' lastWrite session trace ∧
      AllClosed s' trace := by
  unfold ClockState.beginIntent at hs
  split at hs
  · simp at hs
  · rename_i hpending
    have hnone : s.intent = none := by simpa using hpending
    obtain rfl := Except.ok.inj hs
    have hclosed : AllClosed { s with intent := some intent } trace := h.allClosed hnone
    refine ⟨hnone, rfl, ⟨h.below, ?_, ?_, hclosed.fenced, h.sends, h.observed, h.cancels,
      h.sent_tags, h.cancel_tags⟩, hclosed⟩
    · rintro _ ⟨⟩ x o hx
      rw [hb]
      exact h.below x o hx
    · rintro _ ⟨⟩ _
      exact hphase

/-- Marking moves the persisted boundary into the intent. -/
theorem Fences.mark (h : Fences s lastWrite session trace) {id : String} {after : Option ℕ}
    (hs : s.markUncertain id after = .ok s') :
    Fences s' lastWrite session (trace ++ (after.map Event.infoPersisted).toList) ∧
      ∃ i i', s.intent = some i ∧ s'.intent = some i' ∧
        i'.writeSequenceBefore = i.writeSequenceBefore := by
  obtain ⟨i, i', hi, hi', hbefore, hphase, hafter, hset, hranges, hcausal⟩ :=
    markUncertain_spec hs
  have hsilent : Silent (after.map Event.infoPersisted).toList := by
    cases after with
    | none => exact silent_nil
    | some a => exact silent_infoPersisted a
  have hfirst : firstPersisted (after.map Event.infoPersisted).toList = after := by
    cases after <;> rfl
  refine ⟨h.extend hsilent ?_ ?_ ?_ ?_, i, i', hi, hi', hbefore⟩
  · rw [hranges]; exact h.below
  · intro x hx
    obtain rfl := Option.some.inj (hi'.symm.trans hx)
    rw [hranges, hbefore]
    exact h.intentBelow i hi
  · intro x hx hp
    obtain rfl := Option.some.inj (hi'.symm.trans hx)
    simp [hphase] at hp
  · rintro b later (⟨hopen, x, hx, hxb, hxa⟩ | hdone)
    · obtain rfl := Option.some.inj (hi.symm.trans hx)
      refine .inl ⟨?_, i', hi', hbefore.trans hxb, ?_⟩
      · intro he
        rcases List.mem_append.mp he with he | he
        · exact hopen he
        · cases after <;> simp at he
      · -- A boundary already recorded is the one that is marked again.
        rw [hafter, firstPersisted_append, hfirst, ← hxa]
        cases hrec : i.writeSequenceAfter with
        | none => rfl
        | some a =>
          have huncertain : i.phase = .uncertain := by
            cases hp : i.phase with
            | prepared =>
              have := h.intentFresh i hi hp
              rw [hrec] at this
              cases this
            | uncertain => rfl
          have := hset huncertain (by simp [hrec])
          rw [← this, hrec]
          rfl
    · refine .inr (hdone.append (fun a hab => hab.mono ?_ ?_) _)
      · rw [hranges]; exact fun _ _ hx => hx
      · rw [hcausal]; exact fun _ hx => hx

/-- Finishing turns the pending write into a closed one. -/
theorem Fences.finish (h : Fences s lastWrite session trace) {id : String}
    {ranges : List ClockRange} (hr : ∀ r ∈ ranges, r.nextSequence ≤ lastWrite)
    (hs : s.finishIntent id ranges = .ok s') :
    s'.intent = none ∧ Fences s' lastWrite session (trace ++ [.finished]) := by
  obtain ⟨i, a, hi, -, ha, hnone, hmem, hcausal, hunknown, hext⟩ := finishIntent_spec hs hr
  refine ⟨hnone, h.extend silent_finished ?_ (by simp [hnone]) (by simp [hnone]) ?_⟩
  · intro x o hx
    rcases hext.fresh x o hx with hx | hx
    · exact h.below x o hx
    · exact hx
  · rintro b later (⟨-, x, hx, hxb, hxa⟩ | hdone)
    · obtain rfl := Option.some.inj (hi.symm.trans hx)
      refine .inr ⟨by simp, a, ?_, ?_⟩
      · rw [firstPersisted_append, ← hxa, ha]; rfl
      · rw [← hxb]
        exact ⟨hmem, hunknown⟩
    · exact .inr (hdone.append (fun a hab => hab.mono hext.kept hcausal) _)

/-- Cancelling needs that this session sent nothing and that older writes are closed. -/
theorem Fences.cancel (h : Fences s lastWrite session trace) (hquiet : Quiet session trace)
    (hclosed : AllClosed s trace) {id : String} (hs : s.cancelPreparedIntent id = .ok s') :
    Fences s' lastWrite session (trace ++ [.cancelled session]) := by
  have hshape : s'.intent = none ∧ s'.ranges = s.ranges ∧
      s'.causalUncertainty = s.causalUncertainty := by
    unfold ClockState.cancelPreparedIntent at hs
    split at hs
    · simp at hs
    · split at hs
      · simp at hs
      · obtain rfl := Except.ok.inj hs
        exact ⟨rfl, rfl, rfl⟩
  obtain ⟨hnone, hranges, hcausal⟩ := hshape
  have hold : ∀ {k b d}, .setTime k b d ∈ trace ++ [.cancelled session] →
      .setTime k b d ∈ trace := by
    intro k b d he
    simpa using he
  have hstill : AllClosed s' (trace ++ [.cancelled session]) := by
    refine hclosed.append (fun b a hab => hab.mono ?_ ?_) (by simp)
    · rw [hranges]; exact fun _ _ hx => hx
    · rw [hcausal]; exact fun _ hx => hx
  refine ⟨by rw [hranges]; exact h.below, by simp [hnone], by simp [hnone], hstill.fenced,
    fun k b d he => h.sends k b d (hold he), fun d he => h.observed d (by simpa using he), ?_,
    fun k b d he => h.sent_tags k b d (hold he), ?_⟩
  · intro k he b d hd
    rcases List.mem_append.mp he with he | he
    · exact h.cancels k he b d (hold hd)
    · obtain rfl : k = session := by simpa using he
      exact hquiet.1 b d (hold hd)
  · intro k he
    rcases List.mem_append.mp he with he | he
    · exact h.cancel_tags k he
    · obtain rfl : k = session := by simpa using he
      exact le_rfl

/-- Sending needs this session's prepared intent to be durable. -/
theorem Fences.send (h : Fences s lastWrite session trace) (hquiet : Quiet session trace)
    (hclosed : AllClosed s trace) {i : ClockIntent} (hi : s.intent = some i)
    (hphase : i.phase = .prepared) :
    Fences s lastWrite session
      (trace ++ [.setTime session i.writeSequenceBefore s.intent]) := by
  refine ⟨h.below, h.intentBelow, h.intentFresh, ?_, ?_, fun d he => h.observed d (by simpa using he),
    ?_, ?_, fun k he => h.cancel_tags k (by simpa using he)⟩
  · intro before k b d later hsplit
    rcases List.eq_nil_or_concat later with rfl | ⟨post, last, rfl⟩
    · obtain ⟨-, hlast⟩ := List.append_inj' hsplit rfl
      obtain ⟨rfl, rfl, -⟩ : session = k ∧ i.writeSequenceBefore = b ∧ s.intent = d := by
        simpa using hlast
      exact .inl ⟨by simp, i, hi, rfl, h.intentFresh i hi hphase⟩
    · rw [List.concat_eq_append, ← List.cons_append, ← List.append_assoc] at hsplit
      obtain ⟨htrace, hlast⟩ := List.append_inj' hsplit rfl
      rw [List.concat_eq_append]
      exact .inr ((hclosed before k b d post htrace).append (fun _ hab => hab) [last])
  · intro k b d he
    rcases List.mem_append.mp he with he | he
    · exact h.sends k b d he
    · obtain ⟨rfl, rfl, rfl⟩ : k = session ∧ b = i.writeSequenceBefore ∧ d = s.intent := by
        simpa using he
      exact ⟨i, hi, hphase, rfl⟩
  · intro k he b d hd
    have hk : .cancelled k ∈ trace := by simpa using he
    rcases List.mem_append.mp hd with hd | hd
    · exact h.cancels k hk b d hd
    · obtain ⟨rfl, -, -⟩ : k = session ∧ b = i.writeSequenceBefore ∧ d = s.intent := by
        simpa using hd
      exact hquiet.2 hk
  · intro k b d he
    rcases List.mem_append.mp he with he | he
    · exact h.sent_tags k b d he
    · obtain ⟨rfl, -, -⟩ : k = session ∧ b = i.writeSequenceBefore ∧ d = s.intent := by
        simpa using he
      exact le_rfl

end Transitions

/-- A later INFO only moves the frontier, and a later session only its number. -/
theorem Fences.advance {s : ClockState} {lastWrite lastWrite' session session' : ℕ}
    {trace : List Event} (h : Fences s lastWrite session trace) (hw : lastWrite ≤ lastWrite')
    (hk : session ≤ session') : Fences s lastWrite' session' trace :=
  ⟨fun x o hx => (h.below x o hx).trans_le hw, h.intentBelow, h.intentFresh, h.fenced, h.sends,
    h.observed, h.cancels, fun k b d he => (h.sent_tags k b d he).trans hk,
    fun k he => (h.cancel_tags k he).trans hk⟩

/-- The invariant of a world: its durable state is fenced, and an unmigrated database is empty. -/
structure Ok (w : World) : Prop where
  migrated : w.db.migrated = false → w.db.payload = none
  fences : Fences (currentState w.db) w.lastWrite w.session w.trace

/-- One committed store call took the world from `w` to `t`. -/
structure Committed (w t : World) (next : ClockState) (events : List Event) : Prop where
  state : currentState t.db = next
  lastWrite : t.lastWrite = w.lastWrite
  session : t.session = w.session
  trace : t.trace = w.trace ++ events

section Calls

variable {w : World}

theorem wp_effect {Q : Unit → World → Prop} {E : String → World → Prop}
    (hq : Q () { w with steps := w.steps - 1 }) (he : ∀ e, E e w) : wp effect w Q E := by
  unfold effect
  simp only [wp_bind, wp_get, wp_refuseIf, wp_set]
  exact ⟨fun _ => he _, fun _ => hq⟩

theorem wp_fromExcept {α : Type} {x : Except String α} {Q : α → World → Prop}
    {E : String → World → Prop} (hq : ∀ a, x = .ok a → Q a w) (he : ∀ e, E e w) :
    wp (fromExcept x) w Q E := by
  cases x with
  | ok a => exact hq a rfl
  | error e => exact he e

theorem loadCurrent_migrated (db : ClockDb) : (loadCurrent db).2.migrated = true := by
  unfold loadCurrent
  cases h : db.migrated <;> simp [h]

/-- The rows left by loading mean the state that was loaded. -/
theorem currentState_loadCurrent {db : ClockDb} (h : db.migrated = false → db.payload = none) :
    currentState (loadCurrent db).2 = currentState db := by
  unfold loadCurrent
  cases hm : db.migrated with
  | true => simp
  | false => simp [currentState, hm, h hm, annotateUnknown, ClockModel.empty]

/-- However a store call ends, the world is a fenced one; it returns only after its commit. -/
theorem wp_commit {result : StoreResult} {db : ClockDb} {events : List Event} (hok : Ok w)
    (hdb : db.migrated = true)
    (hf : Fences (currentState db) w.lastWrite w.session (w.trace ++ events)) :
    wp (commit result db events) w
      (fun _ t => Ok t ∧ Committed w t (currentState db) events) (fun _ t => Ok t) := by
  have hnew : Ok { w with db := db, trace := w.trace ++ events } := ⟨by simp [hdb], hf⟩
  cases result with
  | returned => exact ⟨hnew, rfl, rfl, rfl, rfl⟩
  | raisedAfterCommit => exact hnew
  | raisedBeforeCommit => exact hok

theorem wp_transact {result : StoreResult} {apply : ClockState → Except String ClockState}
    {events : List Event} (hok : Ok w)
    (hf : ∀ next, apply (currentState w.db) = .ok next →
      Fences next w.lastWrite w.session (w.trace ++ events)) :
    wp (transact result apply events) w
      (fun _ t => Ok t ∧ ∃ next, apply (currentState w.db) = .ok next ∧ Committed w t next events)
      (fun _ t => Ok t) := by
  unfold transact
  rw [wp_bind]
  apply wp_effect
  · rw [wp_bind, wp_get, wp_bind]
    apply wp_fromExcept
    · intro next hnext
      have hmigrated := loadCurrent_migrated w.db
      have hstate : currentState { (loadCurrent w.db).2 with payload := some next } = next := by
        simp [currentState, hmigrated]
      refine wp_mono (wp_commit ⟨hok.migrated, hok.fences⟩ hmigrated ?_) ?_ (fun _ _ h => h)
      · rw [hstate]
        exact hf next hnext
      · rintro _ t ⟨ht, hstep⟩
        rw [hstate] at hstep
        exact ⟨ht, next, hnext, hstep.state, hstep.lastWrite, hstep.session, hstep.trace⟩
    · exact fun _ => ⟨hok.migrated, hok.fences⟩
  · exact fun _ => hok

/-- This session has an intent of its own in the store and has sent nothing yet. -/
structure Prepared (w : World) (i : ClockIntent) : Prop where
  ok : Ok w
  intent : (currentState w.db).intent = some i
  phase : i.phase = .prepared
  quiet : Quiet w.session w.trace
  closed : AllClosed (currentState w.db) w.trace

/-- No intent is pending and this session has sent nothing yet. -/
structure Idle (w : World) : Prop where
  ok : Ok w
  settled : (currentState w.db).intent = none
  quiet : Quiet w.session w.trace

theorem wp_prepare {result : StoreResult} {i : ClockIntent} (h : Idle w)
    (hphase : i.phase = .prepared) (hafter : i.writeSequenceAfter = none)
    (hb : i.writeSequenceBefore = w.lastWrite) :
    wp (prepare result i) w (fun _ t => Prepared t i ∧ t.lastWrite = w.lastWrite)
      (fun _ t => Ok t) := by
  have hbegin := fun next (hnext : (currentState w.db).beginIntent i = .ok next) =>
    h.ok.fences.begin hafter hb hnext
  unfold prepare
  refine wp_mono (wp_transact h.ok ?_) ?_ (fun _ _ h => h)
  · intro next hnext
    rw [List.append_nil]
    exact (hbegin next hnext).2.2.1
  · rintro _ t ⟨ht, next, hnext, hstep⟩
    obtain ⟨-, hintent, -, hclosed⟩ := hbegin next hnext
    have htrace : t.trace = w.trace := by rw [hstep.trace, List.append_nil]
    refine ⟨⟨ht, by rw [hstep.state, hintent], hphase, ?_, ?_⟩, hstep.lastWrite⟩
    · rw [hstep.session, htrace]
      exact h.quiet
    · rw [hstep.state, htrace]
      exact hclosed

theorem wp_markUncertain {result : StoreResult} {id : String} {after : Option ℕ} (hok : Ok w) :
    wp (markUncertain result id after) w
      (fun _ t => Ok t ∧ t.lastWrite = w.lastWrite ∧ t.session = w.session ∧
        (Quiet w.session w.trace → Quiet t.session t.trace))
      (fun _ t => Ok t) := by
  unfold markUncertain
  refine wp_mono (wp_transact hok ?_) ?_ (fun _ _ h => h)
  · intro next hnext
    exact (hok.fences.mark hnext).1
  · rintro _ t ⟨ht, next, -, hstep⟩
    refine ⟨ht, hstep.lastWrite, hstep.session, fun hquiet => ?_⟩
    rw [hstep.session, hstep.trace]
    apply hquiet.append
    cases after with
    | none => exact silent_nil
    | some a => exact silent_infoPersisted a

theorem wp_finish {result : StoreResult} {id : String} {ranges : List ClockRange} (hok : Ok w)
    (hr : ∀ r ∈ ranges, r.nextSequence ≤ w.lastWrite) :
    wp (finish result id ranges) w
      (fun _ t => Ok t ∧ (currentState t.db).intent = none ∧ t.lastWrite = w.lastWrite ∧
        t.session = w.session ∧ (Quiet w.session w.trace → Quiet t.session t.trace))
      (fun _ t => Ok t) := by
  unfold finish
  refine wp_mono (wp_transact hok ?_) ?_ (fun _ _ h => h)
  · intro next hnext
    exact (hok.fences.finish hr hnext).2
  · rintro _ t ⟨ht, next, hnext, hstep⟩
    refine ⟨ht, ?_, hstep.lastWrite, hstep.session, fun hquiet => ?_⟩
    · rw [hstep.state]
      exact (hok.fences.finish hr hnext).1
    · rw [hstep.session, hstep.trace]
      exact hquiet.append silent_finished

theorem wp_cancelPrepared {result : StoreResult} {id : String} {i : ClockIntent}
    (h : Prepared w i) :
    wp (cancelPrepared result id) w (fun _ t => Ok t) (fun _ t => Ok t) := by
  unfold cancelPrepared
  rw [wp_bind, wp_get]
  refine wp_mono (wp_transact h.ok ?_) (fun _ _ h => h.1) (fun _ _ h => h)
  intro next hnext
  exact h.ok.fences.cancel h.quiet h.closed hnext

/-- An observation is applied only with no intent pending, up to the last INFO. -/
theorem wp_observe {result : StoreResult} {info : RingInfo} {offset uncertainty tolerance : ℚ}
    {id : String} (hok : Ok w) (hnone : (currentState w.db).intent = none)
    (hinfo : info.writeSequence = w.lastWrite) :
    wp (observe result info offset uncertainty id tolerance) w
      (fun _ t => Ok t ∧ (currentState t.db).intent = none ∧ t.lastWrite = w.lastWrite ∧
        (Quiet w.session w.trace → Quiet t.session t.trace))
      (fun _ t => Ok t) := by
  have hseen : Fences (currentState w.db) w.lastWrite w.session (w.trace ++ [.observed none]) :=
    hok.fences.grow hnone hnone (fun _ h => h) (.refl _ _) silent_observed
  have hload : (loadCurrent w.db).1 = currentState w.db := rfl
  unfold observe record
  rw [wp_bind]
  apply wp_effect
  · simp only [wp_bind, wp_get, wp_modify, hload, hnone]
    apply wp_fromExcept
    · intro next hnext
      obtain ⟨hintent, hcausal, hext⟩ := observe_spec hnext
      have hnone' : next.intent = none := hintent.trans hnone
      have hmigrated := loadCurrent_migrated w.db
      have hstate : currentState { (loadCurrent w.db).2 with
          payload := if next = currentState w.db then (loadCurrent w.db).2.payload
            else some next } = next := by
        split
        · rename_i hsame
          rw [hsame]
          exact currentState_loadCurrent hok.migrated
        · simp [currentState, hmigrated]
      refine wp_mono (wp_commit ⟨hok.migrated, hseen⟩ hmigrated ?_) ?_ (fun _ _ h => h)
      · rw [hstate]
        refine hseen.grow hnone hnone' ?_ (hinfo ▸ hext) (silent_infoPersisted _)
        rw [hcausal]
        exact fun _ h => h
      · rintro _ t ⟨ht, hstep⟩
        rw [hstate] at hstep
        refine ⟨ht, by rw [hstep.state, hnone'], hstep.lastWrite, fun hquiet => ?_⟩
        rw [hstep.session, hstep.trace]
        exact (hquiet.append silent_observed).append (silent_infoPersisted _)
    · exact fun _ => ⟨hok.migrated, hseen⟩
  · exact fun _ => hok

theorem wp_unknownRange {before after : ℕ} {id : String} {Q : List ClockRange → World → Prop}
    {E : String → World → Prop} (hq : ∀ ranges, (∀ r ∈ ranges, r.nextSequence = after) → Q ranges w)
    (he : ∀ e, E e w) : wp (unknownRange before after id) w Q E := by
  unfold unknownRange
  split
  · rw [wp_bind]
    apply wp_fromExcept
    · intro r hr
      apply hq
      intro r' hr'
      obtain rfl : r' = r := by simpa using hr'
      exact (make_spec hr).2.1
    · exact he
  · exact hq [] (by simp)

/-- Reconciling leaves no intent behind, whatever phase the pending one was in. -/
theorem wp_reconcilePendingState {s : Session} {i : ClockIntent} {info : RingInfo} (hok : Ok w)
    (hquiet : Quiet w.session w.trace) (hinfo : info.writeSequence = w.lastWrite) :
    wp (reconcilePendingState s i info) w
      (fun _ t => Idle t ∧ t.lastWrite = w.lastWrite) (fun _ t => Ok t) := by
  -- Both paths to the closing call reach it in the same kind of world.
  have hclose : ∀ t : World, Ok t → Quiet t.session t.trace → t.lastWrite = w.lastWrite →
      wp (do
          let unknown ← unknownRange i.writeSequenceBefore info.writeSequence i.operationId
          finish s.reconcileFinish i.operationId unknown) t
        (fun _ u => Idle u ∧ u.lastWrite = w.lastWrite) (fun _ u => Ok u) := by
    intro t ht hq hlast
    rw [wp_bind]
    apply wp_unknownRange
    · intro ranges hranges
      refine wp_mono (wp_finish ht ?_) ?_ (fun _ _ h => h)
      · intro r hr
        rw [hranges r hr, hinfo, hlast]
      · rintro _ u ⟨hu, hnone, hlast', -, hq'⟩
        exact ⟨⟨hu, hnone, hq' hq⟩, hlast'.trans hlast⟩
    · exact fun _ => ht
  unfold reconcilePendingState
  rw [wp_bind, wp_refuseIf]
  refine ⟨fun _ => hok, fun _ => ?_⟩
  dsimp only
  rw [wp_ite]
  constructor
  · intro _
    rw [wp_bind]
    refine wp_mono (wp_markUncertain hok) ?_ (fun _ _ h => h)
    rintro _ t ⟨ht, hlast, -, hq⟩
    exact hclose t ht (hq hquiet) hlast
  · intro _
    exact hclose w hok hquiet rfl

/-- What is known after the write step: nothing was sent, or the intent is still durable. -/
theorem wp_writeAndVerify {s : Session} {target : ℤ} {i : ClockIntent} (h : Prepared w i) :
    wp (writeAndVerify s target i.writeSequenceBefore) w
      (fun report t => Ok t ∧ t.lastWrite = w.lastWrite ∧ (report = .notSent → Prepared t i))
      (fun _ t => Ok t) := by
  have hsend : ∀ (t : World) (sent : Bool), Prepared t i →
      wp (sendSetTime sent i.writeSequenceBefore) t
        (fun _ u => Ok u ∧ u.lastWrite = t.lastWrite) (fun _ u => Ok u) := by
    intro t sent ht
    unfold sendSetTime record
    split
    · exact ⟨⟨ht.ok.migrated, ht.ok.fences.send ht.quiet ht.closed ht.intent ht.phase⟩, rfl⟩
    · exact ⟨ht.ok, rfl⟩
  have hsteps : ∀ n, Prepared { w with steps := n } i := fun n =>
    ⟨⟨h.ok.migrated, h.ok.fences⟩, h.intent, h.phase, h.quiet, h.closed⟩
  unfold writeAndVerify
  rw [wp_bind]
  apply wp_effect
  · rw [wp_ite]
    constructor
    · intro _
      exact ⟨(hsteps _).ok, rfl, fun _ => hsteps _⟩
    · intro _
      rw [wp_bind]
      apply wp_effect
      · cases hw : s.write with
        | missing => exact ⟨(hsteps _).ok, rfl, fun _ => hsteps _⟩
        | timeout sent | failed sent =>
          simp only [wp_bind]
          refine wp_mono (hsend _ sent (hsteps _)) ?_ (fun _ _ h => h)
          rintro _ t ⟨ht, hlast⟩
          exact ⟨ht, hlast, by simp⟩
        | interrupted sent =>
          simp only [wp_bind]
          exact wp_mono (hsend _ sent (hsteps _)) (fun _ _ h => h.1) (fun _ _ h => h)
        | performed =>
          simp only [wp_bind]
          refine wp_mono (hsend _ true (hsteps _)) ?_ (fun _ _ h => h)
          rintro _ t ⟨ht, hlast⟩
          apply wp_effect
          · cases s.readback <;> exact ⟨⟨ht.migrated, ht.fences⟩, hlast, by simp⟩
          · exact fun _ => ht
      · exact fun _ => (hsteps _).ok
  · exact fun _ => h.ok

theorem wp_receiveInfo {reply : InfoReply} {Q : RingInfo → World → Prop}
    {E : String → World → Prop}
    (hq : ∀ info : RingInfo, w.lastWrite ≤ info.writeSequence →
      Q info { w with lastWrite := info.writeSequence }) :
    wp (receiveInfo reply) w Q E := by
  unfold receiveInfo
  simp only [wp_bind, wp_get, wp_set, wp_pure]
  exact hq _ (Nat.le_add_right _ _)

theorem wp_readBoundaryAfter {s : Session} {report : WriteReport} (hok : Ok w) :
    wp (readBoundaryAfter s report) w
      (fun after t => Ok t ∧ ∀ info, after = some info → info.writeSequence = t.lastWrite)
      (fun _ t => Ok t) := by
  unfold readBoundaryAfter
  split
  · rw [wp_bind]
    apply wp_effect
    · rw [wp_bind]
      apply wp_receiveInfo
      intro info hle
      refine ⟨⟨hok.migrated, hok.fences.advance hle le_rfl⟩, ?_⟩
      rintro _ ⟨⟩
      rfl
    · exact fun _ => hok
  · exact ⟨hok, by simp⟩

theorem wp_persistClockResult {s : Session} {i : ClockIntent} {report : WriteReport}
    {after : Option RingInfo} {boundary : ℕ} (hok : Ok w)
    (hafter : ∀ info, after = some info → info.writeSequence = w.lastWrite) :
    wp (persistClockResult s i report after boundary) w (fun _ t => Ok t) (fun _ t => Ok t) := by
  unfold persistClockResult
  rw [wp_bind]
  refine wp_mono (wp_markUncertain hok) ?_ (fun _ _ h => h)
  rintro _ t ⟨ht, hlast, -, -⟩
  split
  · rename_i readback info
    have hinfo : info.writeSequence = t.lastWrite := (hafter info rfl).trans hlast.symm
    rw [wp_bind]
    apply wp_unknownRange
    · intro ranges hranges
      rw [wp_bind]
      refine wp_mono (wp_finish ht ?_) ?_ (fun _ _ h => h)
      · intro r hr
        rw [hranges r hr, hinfo]
      · rintro _ u ⟨hu, hnone, hlast', -⟩
        exact wp_mono (wp_observe hu hnone (hinfo.trans hlast'.symm)) (fun _ _ h => h.1)
          (fun _ _ h => h)
    · exact fun _ => ht
  · exact ht

theorem intent_make_spec {id : String} {phase : IntentPhase} {observed target before : ℕ}
    {midpoint : ℚ} {after : Option ℕ} {i : ClockIntent}
    (h : ClockIntent.make id phase observed target midpoint before after = .ok i) :
    i.phase = phase ∧ i.writeSequenceBefore = before ∧ i.writeSequenceAfter = after := by
  unfold ClockIntent.make at h
  split at h
  · obtain rfl := Except.ok.inj h
    exact ⟨rfl, rfl, rfl⟩
  · simp at h

theorem wp_correctDrift {s : Session} {epoch : ℕ} {midpoint : ℚ} {info : RingInfo} (h : Idle w)
    (hinfo : info.writeSequence = w.lastWrite) :
    wp (correctDrift s epoch midpoint info) w (fun _ t => Ok t) (fun _ t => Ok t) := by
  have hsteps : ∀ n, Idle { w with steps := n } := fun n =>
    ⟨⟨h.ok.migrated, h.ok.fences⟩, h.settled, h.quiet⟩
  unfold correctDrift
  rw [wp_bind]
  apply wp_effect
  · simp only [wp_bind, wp_refuseIf]
    refine ⟨fun _ => (hsteps _).ok, fun _ => ⟨fun _ => (hsteps _).ok, fun _ => ?_⟩⟩
    apply wp_fromExcept
    · intro i hi
      obtain ⟨hphase, hbefore, hafter⟩ := intent_make_spec hi
      apply wp_effect
      · refine wp_mono (wp_prepare (hsteps _) hphase hafter (hbefore.trans hinfo)) ?_
          (fun _ _ h => h)
        rintro _ t ⟨ht, hlast⟩
        apply wp_effect
        · rw [← hbefore]
          have ht' : ∀ n, Prepared { t with steps := n } i := fun n =>
            ⟨⟨ht.ok.migrated, ht.ok.fences⟩, ht.intent, ht.phase, ht.quiet, ht.closed⟩
          refine wp_mono (wp_writeAndVerify (ht' _)) ?_ (fun _ _ h => h)
          rintro report u ⟨hu, -, hunsent⟩
          split
          · exact wp_cancelPrepared (hunsent rfl)
          · rw [wp_bind]
            refine wp_mono (wp_readBoundaryAfter hu) ?_ (fun _ _ h => h)
            rintro after v ⟨hv, hboundary⟩
            exact wp_persistClockResult hv hboundary
        · exact fun _ => ht.ok
      · exact fun _ => (hsteps _).ok
    · exact fun _ => (hsteps _).ok
  · exact fun _ => h.ok

theorem wp_syncTrustedStateClock {s : Session} {epoch : ℕ} {info : RingInfo} (hok : Ok w)
    (hquiet : Quiet w.session w.trace) (hinfo : info.writeSequence = w.lastWrite) :
    wp (syncTrustedStateClock s epoch info) w (fun _ t => Ok t) (fun _ t => Ok t) := by
  have hobserve : ∀ t : World, Idle t → t.lastWrite = w.lastWrite →
      wp (do
          effect
          observe s.observeBefore info ((s.sampleBefore + s.sampleAfter) / 2 - epoch)
            (max 1 ((s.sampleAfter - s.sampleBefore) / 2 + 1)) s.sessionId
            s.clockDriftThresholdSeconds
          if |(epoch : ℚ) - (s.sampleBefore + s.sampleAfter) / 2| ≤
              s.clockDriftThresholdSeconds then
            pure ()
          else
            correctDrift s epoch ((s.sampleBefore + s.sampleAfter) / 2) info) t
        (fun _ u => Ok u) (fun _ u => Ok u) := by
    intro t ht hlast
    rw [wp_bind]
    apply wp_effect
    · rw [wp_bind]
      refine wp_mono (wp_observe ⟨ht.ok.migrated, ht.ok.fences⟩ ht.settled
        (hinfo.trans hlast.symm)) ?_ (fun _ _ h => h)
      rintro _ u ⟨hu, hnone, hlast', hq⟩
      rw [wp_ite]
      constructor
      · intro _
        exact hu
      · intro _
        exact wp_correctDrift ⟨hu, hnone, hq ht.quiet⟩ ((hinfo.trans hlast.symm).trans hlast'.symm)
    · exact fun _ => ht.ok
  unfold syncTrustedStateClock
  rw [wp_bind]
  apply wp_effect
  · have hok' : Ok { w with steps := w.steps - 1 } := ⟨hok.migrated, hok.fences⟩
    simp only [wp_bind _ (fun _ => _), wp_refuseIf]
    refine ⟨fun _ => hok', fun _ => ?_⟩
    rw [wp_get]
    cases hi : (currentState w.db).intent with
    | none => exact hobserve _ ⟨hok', hi, hquiet⟩ rfl
    | some i =>
      dsimp only
      rw [wp_bind]
      refine wp_mono (wp_reconcilePendingState hok' hquiet hinfo) ?_ (fun _ _ h => h)
      rintro _ t ⟨ht, hlast⟩
      exact hobserve t ht hlast
  · exact fun _ => hok

/-- One whole session keeps the invariant, wherever it stops. -/
theorem wp_syncClock {s : Session} (hok : Ok w) (hquiet : Quiet w.session w.trace) :
    wp (syncClock s) w (fun _ t => Ok t) (fun _ t => Ok t) := by
  unfold syncClock
  rw [wp_bind]
  apply wp_receiveInfo
  intro info hle
  have hok' : Ok { w with lastWrite := info.writeSequence } :=
    ⟨hok.migrated, hok.fences.advance hle le_rfl⟩
  rw [wp_bind]
  apply wp_effect
  · split
    · exact ⟨hok'.migrated, hok'.fences⟩
    · rw [wp_bind]
      apply wp_effect
      · rw [wp_bind, wp_refuseIf]
        refine ⟨fun _ => ⟨hok'.migrated, hok'.fences⟩, fun _ => ?_⟩
        exact wp_syncTrustedStateClock ⟨hok'.migrated, hok'.fences⟩ hquiet rfl
      · exact fun _ => ⟨hok'.migrated, hok'.fences⟩
  · exact fun _ => hok'

theorem ok_runSession (hok : Ok w) (s : Session) : Ok (runSession w s) := by
  have hfresh : Ok { w with session := w.session + 1, steps := s.steps } :=
    ⟨hok.migrated, hok.fences.advance le_rfl (Nat.le_succ _)⟩
  have hquiet : Quiet (w.session + 1) w.trace := by
    constructor
    · intro b d he
      have := hok.fences.sent_tags _ b d he
      omega
    · intro he
      have := hok.fences.cancel_tags _ he
      omega
  exact wp_state (wp_syncClock hfresh hquiet) (fun _ _ h => h) (fun _ _ h => h)

end Calls

theorem ok_initial : Ok initial := by
  refine ⟨fun _ => rfl, ⟨?_, ?_, ?_, ?_, ?_, ?_, ?_, ?_, ?_⟩⟩
  · rintro x o ⟨r, hr, -⟩
    exact absurd hr List.not_mem_nil
  · exact fun i hi => by cases hi
  · exact fun i hi => by cases hi
  · intro before k b d later h
    simp [initial] at h
  all_goals simp [initial]

theorem ok_run (sessions : List Session) : Ok (run runSession initial sessions) := by
  have hstep : ∀ (w : World) (s : Session), True → Ok w → Ok (runSession w s) :=
    fun _ s _ h => ok_runSession h s
  exact run_invariant hstep ok_initial (fun _ _ => trivial)

/-- A known offset contradicts both ways in which a write is fenced. -/
theorem Fences.not_known {s : ClockState} {lastWrite session : ℕ} {trace : List Event}
    (h : Fences s lastWrite session trace) {before later : List Event} {k b : ℕ}
    {d : Option ClockIntent} (hsplit : trace = before ++ .setTime k b d :: later) {x : ℕ} {o : ℚ}
    (hx : b ≤ x) (ha : ∀ a, firstPersisted later = some a → x < a) :
    ¬ TimedAt s.ranges x (some o) := by
  intro hknown
  rcases h.fenced before k b d later hsplit with ⟨-, i, hi, hib, -⟩ |
    ⟨-, a, hfirst, -, hunknown⟩
  · have := h.intentBelow i hi x _ hknown
    omega
  · have := Ordered.timedAt_unique s.ordered hknown (hunknown x hx (ha a hfirst))
    cases this

/-- Every device clock write is fenced, for every sequence of sessions from the empty state. -/
theorem clock_write_fenced (sessions : List Session) :
    let w := run runSession initial sessions
    let state := currentState w.db
    (∀ k b d, .setTime k b d ∈ w.trace →
      ∃ i, d = some i ∧ i.phase = .prepared ∧ i.writeSequenceBefore = b) ∧
    (∀ k, .cancelled k ∈ w.trace → ∀ b d, .setTime k b d ∉ w.trace) ∧
    (∀ d, .observed d ∈ w.trace → d = none) ∧
    (∀ before k b d later, w.trace = before ++ .setTime k b d :: later →
      (∀ x o, b ≤ x → (∀ a, firstPersisted later = some a → x < a) →
        ¬ TimedAt state.ranges x (some o)) ∧
      (.finished ∉ later → ∃ i, state.intent = some i ∧ i.writeSequenceBefore = b ∧
        i.writeSequenceAfter = firstPersisted later) ∧
      (.finished ∈ later → ∃ a, firstPersisted later = some a ∧
        (b, a) ∈ state.causalUncertainty)) := by
  intro w state
  have hok := ok_run sessions
  refine ⟨hok.fences.sends, hok.fences.cancels, hok.fences.observed, ?_⟩
  intro before k b d later hsplit
  refine ⟨fun x o hx ha => hok.fences.not_known hsplit hx ha, ?_⟩
  rcases hok.fences.fenced before k b d later hsplit with ⟨hopen, hintent⟩ | ⟨hdone, a, ha, hclosed⟩
  · exact ⟨fun _ => hintent, fun hfinished => absurd hfinished hopen⟩
  · exact ⟨fun hopen => absurd hdone hopen, fun _ => ⟨a, ha, hclosed.1⟩⟩

end ClockFence
