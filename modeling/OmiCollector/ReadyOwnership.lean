import OmiCollector.ReadyMachine

/-! Runs of the publication reducer: who owns the publication effect, and what a settled revision
stands for. -/
namespace ReadyOwnership

open ReadyMachine TransitionRuns

variable {R O : Type}

/-- The effect that a work state waits for. -/
def held : Work R O → Option (PublicationAction × ℤ)
  | .running w => some (.run, w.token)
  | .compacting w => some (.compact, w.token)
  | .quiescing w => some (.compact, w.token)
  | _ => none

theorem held_quiesce (w : Work R O) : held w.quiesce = held w := by
  cases w <;> rfl

/-- The effect that a command starts. -/
def started (c : PublicationCommand) : Option (PublicationAction × ℤ) :=
  if c.action = .run ∨ c.action = .compact then c.token.map fun t => (c.action, t) else none

/-- The effect that an event answers. -/
def answered : PublicationEvent R O → Option (PublicationAction × ℤ)
  | .finished token _ _ _ _ _ _ => some (.run, token)
  | .compactionFinished token _ _ _ _ _ => some (.compact, token)
  | _ => none

/-- A command that only an available publication may issue. -/
def Active (c : PublicationCommand) : Prop :=
  c.action = .run ∨ c.action = .compact ∨ c.action = .arm ∨ c.action = .checkInput

/-- What one accepted event does to the effect that is held and to the mode. -/
structure Ownership (s : PublicationState R O) (e : PublicationEvent R O)
    (s' : PublicationState R O) (c : PublicationCommand) : Prop where
  starts : ∀ p, started c = some p → held s.work = none ∧ p.2 = s.nextToken + 1 ∧
    s'.nextToken = s.nextToken + 1 ∧ held s'.work = some p
  issues : c.action = .run ∨ c.action = .compact → (started c).isSome = true
  keeps : started c = none → s'.nextToken = s.nextToken ∧ (held s'.work = held s.work ∨
    (held s'.work = none ∧ (answered e = held s.work ∨ e = .quiesced ∨
      (e = .captureEnd ∧ s.mode = .capture))))
  mode : s'.mode = s.mode ∨ (e = .captureBegin ∧ s.mode = .available ∧ s'.mode = .capture) ∨
    (e = .captureEnd ∧ s.mode = .capture ∧ s'.mode = .available) ∨
    (e = .shutdown ∧ s'.mode = .closed)
  active : Active c → s'.mode = .available

/-- An event that starts nothing and keeps the counter. -/
theorem Ownership.idle {s s' : PublicationState R O} {e : PublicationEvent R O}
    {c : PublicationCommand} (hrun : c.action ≠ .run) (hcompact : c.action ≠ .compact)
    (htoken : s'.nextToken = s.nextToken)
    (hheld : held s'.work = held s.work ∨ (held s'.work = none ∧ (answered e = held s.work ∨
      e = .quiesced ∨ (e = .captureEnd ∧ s.mode = .capture))))
    (hmode : s'.mode = s.mode ∨ (e = .captureBegin ∧ s.mode = .available ∧ s'.mode = .capture) ∨
      (e = .captureEnd ∧ s.mode = .capture ∧ s'.mode = .available) ∨
      (e = .shutdown ∧ s'.mode = .closed))
    (hactive : Active c → s'.mode = .available) : Ownership s e s' c := by
  have hnone : started c = none := by simp [started, hrun, hcompact]
  refine ⟨?_, ?_, fun _ => ⟨htoken, hheld⟩, hmode, hactive⟩
  · intro p hp
    rw [hnone] at hp
    cases hp
  · intro h
    rcases h with h | h
    · exact absurd h hrun
    · exact absurd h hcompact

theorem Ownership.unchanged (s : PublicationState R O) (e : PublicationEvent R O) :
    Ownership s e s (.of .none) :=
  .idle (by simp [PublicationCommand.of]) (by simp [PublicationCommand.of]) rfl (.inl rfl) (.inl rfl)
    (by simp [Active, PublicationCommand.of])

/-- An event that starts the next effect. -/
theorem Ownership.start {s s' : PublicationState R O} {e : PublicationEvent R O}
    {c : PublicationCommand} (haction : c.action = .run ∨ c.action = .compact)
    (hmode : s.mode = .available) (hmode' : s'.mode = s.mode) (hfree : held s.work = none)
    (htoken : c.token = some (s.nextToken + 1)) (hnext : s'.nextToken = s.nextToken + 1)
    (hheld : held s'.work = some (c.action, s.nextToken + 1)) : Ownership s e s' c := by
  have hstarted : started c = some (c.action, s.nextToken + 1) := by simp [started, haction, htoken]
  refine ⟨?_, fun _ => by simp [hstarted], ?_, .inl hmode', fun _ => hmode'.trans hmode⟩
  · intro p hp
    obtain rfl := Option.some.inj (hstarted.symm.trans hp)
    exact ⟨hfree, rfl, hnext, hheld⟩
  · intro hnone
    rw [hstarted] at hnone
    cases hnone

theorem ownership_compactionDue {s : PublicationState R O} (revision : Option R)
    (debtGeneration : ℤ) : Ownership s (.compactionDue revision debtGeneration)
      (compactionDue s revision debtGeneration).1 (compactionDue s revision debtGeneration).2 := by
  unfold compactionDue
  by_cases hmode : s.mode = .available
  · simp only [hmode, ne_eq, not_true_eq_false, if_false]
    cases hw : s.work with
    | idle => exact .start (.inr rfl) hmode hmode.symm (by rw [hw]; rfl) rfl rfl rfl
    | settled _ _ => exact .start (.inr rfl) hmode hmode.symm (by rw [hw]; rfl) rfl rfl rfl
    | retryWait _ => exact .start (.inr rfl) hmode hmode.symm (by rw [hw]; rfl) rfl rfl rfl
    | running _ => exact .unchanged s _
    | compacting _ => exact .unchanged s _
    | quiescing _ => exact .unchanged s _
  · simp only [hmode, ne_eq, not_false_eq_true, if_true]
    exact .unchanged s _

theorem ownership_compactionProbeFailed {s : PublicationState R O} (revision : Option R) (now : ℚ)
    (backoff : List ℚ) : Ownership s (.compactionProbeFailed revision now backoff)
      (compactionProbeFailed s revision now backoff).1
      (compactionProbeFailed s revision now backoff).2 := by
  unfold compactionProbeFailed
  by_cases hmode : s.mode = .available
  · simp only [hmode, ne_eq, not_true_eq_false, if_false]
    cases hw : s.work with
    | idle =>
      exact .idle (by simp [armed]) (by simp [armed]) rfl (.inl (by rw [hw]; rfl)) (.inl hmode.symm)
        (fun _ => rfl)
    | settled _ _ =>
      exact .idle (by simp [armed]) (by simp [armed]) rfl (.inl (by rw [hw]; rfl)) (.inl hmode.symm)
        (fun _ => rfl)
    | running _ => exact .unchanged s _
    | retryWait _ => exact .unchanged s _
    | compacting _ => exact .unchanged s _
    | quiescing _ => exact .unchanged s _
  · simp only [hmode, ne_eq, not_false_eq_true, if_true]
    exact .unchanged s _

theorem ownership_timer {s : PublicationState R O} (generation : ℤ) (deadline now : ℚ) :
    Ownership s (.timerFired generation deadline now) (timer s generation deadline now).1
      (timer s generation deadline now).2 := by
  unfold timer
  cases hw : s.work with
  | retryWait w =>
    by_cases hmode : s.mode = .available
    · simp only [hmode, ne_eq, not_true_eq_false, if_false]
      split
      · exact .unchanged s _
      · split
        · exact .idle (by simp [armed]) (by simp [armed]) rfl (.inl rfl) (.inl rfl) (fun _ => hmode)
        · exact .idle (by simp [PublicationCommand.of]) (by simp [PublicationCommand.of]) rfl
            (.inl (by rw [hw])) (.inl hmode.symm) (fun _ => rfl)
    · simp only [hmode, ne_eq, not_false_eq_true, if_true]
      exact .unchanged s _
  | idle => exact .unchanged s _
  | running _ => exact .unchanged s _
  | settled _ _ => exact .unchanged s _
  | compacting _ => exact .unchanged s _
  | quiescing _ => exact .unchanged s _

theorem ownership_inputChanged {s : PublicationState R O} :
    Ownership s .inputChanged (inputChanged s).1 (inputChanged s).2 := by
  have hkeep : Ownership s .inputChanged ⟨s.mode, s.work, s.generation + 1, s.nextToken, true⟩
      (.of .none) :=
    .idle (by simp [PublicationCommand.of]) (by simp [PublicationCommand.of]) rfl (.inl rfl)
      (.inl rfl) (by simp [Active, PublicationCommand.of])
  have hdrop : held s.work = none → Ownership s .inputChanged
      ⟨s.mode, .idle, s.generation + 1, s.nextToken, true⟩
      (.of (if s.mode = .available then .checkInput else .none)) := by
    intro hnone
    by_cases hmode : s.mode = .available
    · rw [if_pos hmode]
      exact .idle (by simp [PublicationCommand.of]) (by simp [PublicationCommand.of]) rfl
        (.inl hnone.symm) (.inl rfl) (fun _ => hmode)
    · rw [if_neg hmode]
      exact .idle (by simp [PublicationCommand.of]) (by simp [PublicationCommand.of]) rfl
        (.inl hnone.symm) (.inl rfl) (by simp [Active, PublicationCommand.of])
  unfold inputChanged
  cases hw : s.work with
  | compacting w => simpa only [hw] using hkeep
  | quiescing w => simpa only [hw] using hkeep
  | running w => simpa only [hw] using hkeep
  | idle => exact hdrop (by rw [hw]; rfl)
  | settled _ _ => exact hdrop (by rw [hw]; rfl)
  | retryWait _ => exact hdrop (by rw [hw]; rfl)

theorem ownership_captureEnd {s : PublicationState R O} :
    Ownership s .captureEnd (captureEnd s).1 (captureEnd s).2 := by
  have hend : Ownership s .captureEnd
      (if s.mode ≠ .capture then (s, PublicationCommand.of .none)
        else (⟨.available, .idle, s.generation + 1, s.nextToken, true⟩, .of .checkInput)).1
      (if s.mode ≠ .capture then (s, PublicationCommand.of .none)
        else (⟨.available, .idle, s.generation + 1, s.nextToken, true⟩, .of .checkInput)).2 := by
    by_cases hmode : s.mode = .capture
    · simp only [hmode, ne_eq, not_true_eq_false, if_false]
      exact .idle (by simp [PublicationCommand.of]) (by simp [PublicationCommand.of]) rfl
        (.inr ⟨rfl, .inr (.inr ⟨rfl, hmode⟩)⟩) (.inr (.inr (.inl ⟨rfl, hmode, rfl⟩))) (fun _ => rfl)
    · simp only [hmode, ne_eq, not_false_eq_true, if_true]
      exact .unchanged s _
  unfold captureEnd
  cases hw : s.work with
  | compacting w => exact .unchanged s _
  | quiescing w => exact .unchanged s _
  | running w => exact hend
  | idle => exact hend
  | settled _ _ => exact hend
  | retryWait _ => exact hend

/-- A state with the effects issued so far, those still outstanding, and whether the open capture
has been quiesced. -/
structure Tracked (R O : Type) where
  state : PublicationState R O
  issued : List (PublicationAction × ℤ)
  outstanding : List (PublicationAction × ℤ)
  quiesced : Bool

def Tracked.initial : Tracked R O := ⟨.initial, [], [], false⟩

/-- The effects that an event leaves outstanding: its answer and a quiesced boundary end them. -/
def unanswered (e : PublicationEvent R O) (outstanding : List (PublicationAction × ℤ)) :
    List (PublicationAction × ℤ) :=
  match e with
  | .quiesced => []
  | e => outstanding.filter fun p => answered e ≠ some p

def captureQuiesced (quiesced : Bool) : PublicationEvent R O → Bool
  | .captureBegin => false
  | .quiesced => true
  | _ => quiesced

theorem mem_unanswered {e : PublicationEvent R O} {outstanding : List (PublicationAction × ℤ)}
    {p : PublicationAction × ℤ} (h : p ∈ unanswered e outstanding) :
    p ∈ outstanding ∧ e ≠ .quiesced ∧ answered e ≠ some p := by
  cases e with
  | quiesced => simp [unanswered] at h
  | _ =>
    simp only [unanswered, List.mem_filter, decide_eq_true_eq] at h
    exact ⟨h.1, by simp, h.2⟩

theorem active_of_started {c : PublicationCommand} {p : PublicationAction × ℤ}
    (h : started c = some p) : Active c := by
  unfold started at h
  by_cases hc : c.action = .run ∨ c.action = .compact
  · rcases hc with hc | hc
    · exact .inl hc
    · exact .inr (.inl hc)
  · rw [if_neg hc] at h
    cases h

/-- An open capture is closed only after it was quiesced. -/
def Orderly (w : Tracked R O) (e : PublicationEvent R O) : Prop :=
  e = .captureEnd → w.state.mode = .capture → w.quiesced = true

structure Owned (w : Tracked R O) : Prop where
  outstanding : ∀ p ∈ w.outstanding, held w.state.work = some p
  tokens : ∀ p ∈ w.issued, p.2 ≤ w.state.nextToken
  quiesced : w.state.mode = .capture → w.quiesced = true → held w.state.work = none

/-- What is outstanding stays what the state holds. -/
theorem owned_outstanding {w : Tracked R O} {e : PublicationEvent R O} {s : PublicationState R O}
    {c : PublicationCommand} (h : Owned w) (horderly : Orderly w e) (hown : Ownership w.state e s c) :
    ∀ p ∈ (started c).toList ++ unanswered e w.outstanding, held s.work = some p := by
  intro p hp
  cases hstarted : started c with
  | some q =>
    obtain ⟨hfree, -, -, hheld⟩ := hown.starts q hstarted
    rcases List.mem_append.mp hp with hp | hp
    · obtain rfl : p = q := by simpa [hstarted] using hp
      exact hheld
    · have := h.outstanding p (mem_unanswered hp).1
      rw [hfree] at this
      cases this
  | none =>
    rw [hstarted] at hp
    obtain ⟨hmem, hjoined, hanswered⟩ := mem_unanswered (by simpa using hp)
    have hold := h.outstanding p hmem
    obtain ⟨-, hsame | ⟨-, hdropped⟩⟩ := hown.keeps hstarted
    · exact hsame.trans hold
    · rcases hdropped with ha | hq | ⟨he, hcapture⟩
      · exact absurd (ha.trans hold) hanswered
      · exact absurd hq hjoined
      · -- The open capture was quiesced, so nothing is held.
        have := h.quiesced hcapture (horderly he hcapture)
        rw [hold] at this
        cases this

variable [DecidableEq R]

theorem ownership_wake {s : PublicationState R O} (revision : Option R) (now : ℚ) :
    Ownership s (.wake revision now) (wake s revision now).1 (wake s revision now).2 := by
  unfold wake
  by_cases hmode : s.mode = .available
  · simp only [hmode, ne_eq, not_true_eq_false, if_false]
    have hstart : ∀ failures : ℕ, held s.work = none → Ownership s (.wake revision now)
        (⟨s.mode, .running ⟨s.nextToken + 1, revision, s.generation, failures⟩, s.generation,
          s.nextToken + 1, false⟩) ⟨.run, some (s.nextToken + 1), none, none⟩ :=
      fun failures hfree => .start (.inl rfl) hmode rfl hfree rfl rfl rfl
    have harm : ∀ deadline, Ownership s (.wake revision now) s (armed deadline) := fun deadline =>
      .idle (by simp [armed]) (by simp [armed]) rfl (.inl rfl) (.inl rfl) (fun _ => hmode)
    have hcheck : Ownership s (.wake revision now) s (.of .checkInput) :=
      .idle (by simp [PublicationCommand.of]) (by simp [PublicationCommand.of]) rfl (.inl rfl)
        (.inl rfl) (fun _ => hmode)
    cases hw : s.work with
    | compacting w => exact .unchanged s _
    | quiescing w => exact .unchanged s _
    | idle =>
      by_cases hr : revision = none
      · simpa [hr, wakeUnprobed, hw] using hr ▸ hcheck
      · simpa [hr, wakeProbed, hw] using hstart 0 (by rw [hw]; rfl)
    | running w =>
      by_cases hr : revision = none
      · simpa [hr, wakeUnprobed, hw] using hr ▸ hcheck
      · simp only [hr, if_false, wakeProbed, hw]
        split
        · exact .idle (by simp [PublicationCommand.of]) (by simp [PublicationCommand.of]) rfl
            (.inl (by rw [hw])) (.inl rfl) (by simp [Active, PublicationCommand.of])
        · exact .unchanged s _
    | settled settledRevision outcome =>
      by_cases hr : revision = none
      · simpa [hr, wakeUnprobed, hw] using hr ▸ hcheck
      · simp only [hr, if_false, wakeProbed, hw]
        split
        · exact .idle (by simp [PublicationCommand.of]) (by simp [PublicationCommand.of]) rfl
            (.inl (by rw [hw])) (.inl rfl) (by simp [Active, PublicationCommand.of])
        · exact hstart 0 (by rw [hw]; rfl)
    | retryWait w =>
      by_cases hr : revision = none
      · simp only [hr, if_true, wakeUnprobed, hw]
        split
        · exact hr ▸ harm w.deadline
        · exact hr ▸ hcheck
      · simp only [hr, if_false, wakeProbed, hw]
        split
        · split
          · exact harm w.deadline
          · exact hstart _ (by rw [hw]; rfl)
        · exact hstart 0 (by rw [hw]; rfl)
  · simp only [hmode, ne_eq, not_false_eq_true, if_true]
    exact .unchanged s _

theorem ownership_finished {s : PublicationState R O} (token : ℤ) (revision : Option R) (outcome : O)
    (result : PublicationResult) (now : ℚ) (backoff : List ℚ) (reprobe : Bool) :
    Ownership s (.finished token revision outcome result now backoff reprobe)
      (finished s token revision outcome result now backoff reprobe).1
      (finished s token revision outcome result now backoff reprobe).2 := by
  unfold finished
  cases hw : s.work with
  | running w =>
    by_cases htoken : w.token = token
    · simp only [htoken, ne_eq, not_true_eq_false, if_false]
      have hheld : answered (.finished token revision outcome result now backoff reprobe :
          PublicationEvent R O) = held s.work := by
        rw [hw, ← htoken]
        rfl
      by_cases hmode : s.mode = .available
      · simp only [hmode, not_true_eq_false, if_false]
        split
        · exact .idle (by simp [PublicationCommand.of]) (by simp [PublicationCommand.of]) rfl
            (.inr ⟨rfl, .inl hheld⟩) (.inl hmode.symm) (fun _ => rfl)
        · cases result with
          | transient =>
            exact .idle (by simp [armed]) (by simp [armed]) rfl (.inr ⟨rfl, .inl hheld⟩)
              (.inl hmode.symm) (fun _ => rfl)
          | settled =>
            exact .idle (by simp [PublicationCommand.of]) (by simp [PublicationCommand.of]) rfl
              (.inr ⟨rfl, .inl hheld⟩) (.inl hmode.symm) (fun _ => rfl)
      · simp only [hmode, not_false_eq_true, if_true]
        exact .idle (by simp [PublicationCommand.of]) (by simp [PublicationCommand.of]) rfl
          (.inr ⟨rfl, .inl hheld⟩) (.inl rfl) (by simp [Active, PublicationCommand.of])
    · simp only [htoken, ne_eq, not_false_eq_true, if_true]
      exact .unchanged s _
  | idle => exact .unchanged s _
  | settled _ _ => exact .unchanged s _
  | retryWait _ => exact .unchanged s _
  | compacting _ => exact .unchanged s _
  | quiescing _ => exact .unchanged s _

theorem ownership_compactionFinished {s : PublicationState R O} (token debtGeneration : ℤ)
    (revision : Option R) (result : PublicationResult) (now : ℚ) (backoff : List ℚ) :
    Ownership s (.compactionFinished token debtGeneration revision result now backoff)
      (compactionFinished s token debtGeneration revision result now backoff).1
      (compactionFinished s token debtGeneration revision result now backoff).2 := by
  unfold compactionFinished
  cases hw : s.work with
  | compacting w =>
    by_cases htoken : w.token = token
    · simp only [htoken, ne_eq, not_true_eq_false, if_false]
      have hheld : answered (.compactionFinished token debtGeneration revision result now backoff :
          PublicationEvent R O) = held s.work := by
        rw [hw, ← htoken]
        rfl
      by_cases hmode : s.mode = .available
      · simp only [hmode, not_true_eq_false, if_false]
        have hidle : ∀ (work : Work R O) (check : Bool) (c : PublicationCommand),
            held work = none → c.action ≠ .run → c.action ≠ .compact → Ownership s
              (.compactionFinished token debtGeneration revision result now backoff)
              ⟨.available, work, s.generation, s.nextToken, check⟩ c :=
          fun work check c hnone hrun hcompact => .idle hrun hcompact rfl (.inr ⟨hnone, .inl hheld⟩)
            (.inl hmode.symm) (fun _ => rfl)
        split
        · exact hidle _ _ _ rfl (by simp [PublicationCommand.of]) (by simp [PublicationCommand.of])
        · split
          · exact hidle _ _ _ rfl (by simp [armed]) (by simp [armed])
          · exact hidle _ _ _ rfl (by simp [armed]) (by simp [armed])
          · split
            · exact hidle _ _ _ rfl (by simp [PublicationCommand.of])
                (by simp [PublicationCommand.of])
            · exact hidle _ _ _ rfl (by simp [PublicationCommand.of])
                (by simp [PublicationCommand.of])
      · simp only [hmode, not_false_eq_true, if_true]
        exact .unchanged s _
    · simp only [htoken, ne_eq, not_false_eq_true, if_true]
      exact .unchanged s _
  | idle => exact .unchanged s _
  | running _ => exact .unchanged s _
  | settled _ _ => exact .unchanged s _
  | retryWait _ => exact .unchanged s _
  | quiescing _ => exact .unchanged s _

/-- Every accepted event respects the ownership of the effect. -/
theorem transition_ownership {s s' : PublicationState R O} {e : PublicationEvent R O}
    {c : PublicationCommand} (h : publicationTransition s e = .ok (s', c)) : Ownership s e s' c := by
  cases e with
  | wake revision now =>
    have := ownership_wake (s := s) revision now
    rwa [Except.ok.inj h] at this
  | finished token revision outcome result now backoff reprobe =>
    have := ownership_finished (s := s) token revision outcome result now backoff reprobe
    rwa [Except.ok.inj h] at this
  | compactionDue revision debtGeneration =>
    have := ownership_compactionDue (s := s) revision debtGeneration
    rwa [Except.ok.inj h] at this
  | compactionFinished token debtGeneration revision result now backoff =>
    have := ownership_compactionFinished (s := s) token debtGeneration revision result now backoff
    rwa [Except.ok.inj h] at this
  | compactionProbeFailed revision now backoff =>
    have := ownership_compactionProbeFailed (s := s) revision now backoff
    rwa [Except.ok.inj h] at this
  | timerFired generation deadline now =>
    have := ownership_timer (s := s) generation deadline now
    rwa [Except.ok.inj h] at this
  | inputChanged =>
    have := ownership_inputChanged (s := s)
    rwa [Except.ok.inj h] at this
  | captureEnd =>
    have := ownership_captureEnd (s := s)
    rwa [Except.ok.inj h] at this
  | captureBegin =>
    simp only [publicationTransition, lifecycleBoundary] at h
    split at h
    · cases h
    · rename_i hmode
      obtain ⟨rfl, rfl⟩ := Prod.mk.inj (Except.ok.inj h)
      exact .idle (by simp [PublicationCommand.of]) (by simp [PublicationCommand.of]) rfl
        (.inl (held_quiesce _)) (.inr (.inl ⟨rfl, not_not.mp hmode, rfl⟩))
        (by simp [Active, PublicationCommand.of])
  | shutdown =>
    simp only [publicationTransition, lifecycleBoundary] at h
    obtain ⟨rfl, rfl⟩ := Prod.mk.inj (Except.ok.inj h)
    exact .idle (by simp [PublicationCommand.of]) (by simp [PublicationCommand.of]) rfl
      (.inl (held_quiesce _)) (.inr (.inr (.inr ⟨rfl, rfl⟩))) (by simp [Active, PublicationCommand.of])
  | quiesced =>
    simp only [publicationTransition, lifecycleBoundary] at h
    obtain ⟨rfl, rfl⟩ := Prod.mk.inj (Except.ok.inj h)
    exact .idle (by simp [PublicationCommand.of]) (by simp [PublicationCommand.of]) rfl
      (.inr ⟨rfl, .inr (.inl rfl)⟩) (.inl rfl) (by simp [Active, PublicationCommand.of])

/-- One delivered event; a refused one changes nothing. -/
def track (w : Tracked R O) (e : PublicationEvent R O) : Tracked R O :=
  match publicationTransition w.state e with
  | .error _ => w
  | .ok (s, c) => ⟨s, (started c).toList ++ w.issued, (started c).toList ++ unanswered e w.outstanding,
      captureQuiesced w.quiesced e⟩

def OrderlyRun : Tracked R O → List (PublicationEvent R O) → Prop
  | _, [] => True
  | w, e :: es => Orderly w e ∧ OrderlyRun (track w e) es

theorem owned_track {w : Tracked R O} {e : PublicationEvent R O} (h : Owned w)
    (horderly : Orderly w e) : Owned (track w e) := by
  unfold track
  cases hok : publicationTransition w.state e with
  | error message => exact h
  | ok result =>
    obtain ⟨s, c⟩ := result
    have hown := transition_ownership hok
    refine ⟨owned_outstanding h horderly hown, ?_, ?_⟩
    · intro p hp
      simp only at hp ⊢
      cases hstarted : started c with
      | some q =>
        obtain ⟨-, htoken, hnext, -⟩ := hown.starts q hstarted
        rw [hstarted] at hp
        rcases List.mem_append.mp hp with hp | hp
        · obtain rfl : p = q := by simpa using hp
          omega
        · have := h.tokens p hp
          omega
      | none =>
        rw [hstarted] at hp
        have := h.tokens p (by simpa using hp)
        rw [← (hown.keeps hstarted).1] at this
        exact this
    · intro hcapture hquiesced
      cases hstarted : started c with
      | some q =>
        have := hown.active (active_of_started hstarted)
        rw [hcapture] at this
        cases this
      | none =>
        have hkeeps := (hown.keeps hstarted).2
        rcases hown.mode with hmode | ⟨rfl, -, -⟩ | ⟨-, -, hmode⟩ | ⟨-, hmode⟩
        · by_cases hq : e = .quiesced
          · subst hq
            obtain ⟨rfl, -⟩ := Prod.mk.inj (Except.ok.inj hok)
            rfl
          · have hflag : w.quiesced = true := by
              cases e with
              | captureBegin => simp [captureQuiesced] at hquiesced
              | quiesced => exact absurd rfl hq
              | _ => exact hquiesced
            have hnone := h.quiesced (hmode ▸ hcapture) hflag
            rcases hkeeps with hsame | ⟨hnew, -⟩
            · exact hsame.trans hnone
            · exact hnew
        · simp [captureQuiesced] at hquiesced
        · rw [hcapture] at hmode
          cases hmode
        · rw [hcapture] at hmode
          cases hmode

theorem owned_run {es : List (PublicationEvent R O)} {w : Tracked R O} (h : Owned w)
    (horderly : OrderlyRun w es) : Owned (run track w es) := by
  induction es generalizing w with
  | nil => exact h
  | cons e es ih => exact ih (owned_track h horderly.1) horderly.2

theorem OrderlyRun.split {pre post : List (PublicationEvent R O)} {w : Tracked R O}
    (h : OrderlyRun w (pre ++ post)) : OrderlyRun w pre ∧ OrderlyRun (run track w pre) post := by
  induction pre generalizing w with
  | nil => exact ⟨trivial, h⟩
  | cons e pre ih =>
    obtain ⟨h1, h2⟩ := ih h.2
    exact ⟨⟨h.1, h1⟩, h2⟩

/-- A completion whose effect is not the one that is held, or a timer of another generation or
deadline. -/
def Stale (s : PublicationState R O) : PublicationEvent R O → Prop
  | .finished token _ _ _ _ _ _ => held s.work ≠ some (.run, token)
  | .compactionFinished token _ _ _ _ _ => held s.work ≠ some (.compact, token)
  | .timerFired generation deadline _ =>
    generation ≠ s.generation ∨ ∀ w, s.work = .retryWait w → deadline ≠ w.deadline
  | _ => False

theorem stale_ignored {s : PublicationState R O} {e : PublicationEvent R O} (h : Stale s e) :
    publicationTransition s e = .ok (s, .of .none) := by
  cases e with
  | finished token revision outcome result now backoff reprobe =>
    simp only [publicationTransition, finished]
    cases hw : s.work with
    | running w =>
      have hne : w.token ≠ token := by
        intro heq
        apply h
        rw [hw, ← heq]
        rfl
      simp [hne]
    | _ => rfl
  | compactionFinished token debtGeneration revision result now backoff =>
    simp only [publicationTransition, compactionFinished]
    cases hw : s.work with
    | compacting w =>
      have hne : w.token ≠ token := by
        intro heq
        apply h
        rw [hw, ← heq]
        rfl
      simp [hne]
    | _ => rfl
  | timerFired generation deadline now =>
    simp only [publicationTransition, timer]
    cases hw : s.work with
    | retryWait w =>
      have hstale : generation ≠ s.generation ∨ deadline ≠ w.deadline := by
        rcases h with h | h
        · exact .inl h
        · exact .inr (h w hw)
      simp [hstale]
    | _ => rfl
  | _ => exact h.elim

/-- One owner of the publication effect, in every orderly run. -/
theorem publication_single_owner {es pre post : List (PublicationEvent R O)}
    {e : PublicationEvent R O} {s : PublicationState R O} {c : PublicationCommand}
    (horderly : OrderlyRun .initial es) (hes : es = pre ++ e :: post)
    (hok : publicationTransition (run track .initial pre).state e = .ok (s, c)) :
    (c.action = .run ∨ c.action = .compact → (run track .initial pre).outstanding = [] ∧
      ∃ token, c.token = some token ∧ ∀ p ∈ (run track .initial pre).issued, p.2 < token) ∧
    (Stale (run track .initial pre).state e →
      s = (run track .initial pre).state ∧ c = .of .none) ∧
    (Active c → s.mode = .available ∧
      ((run track .initial pre).state.mode = .available ∨ e = .captureEnd)) ∧
    ((run track .initial pre).state.mode = .closed → s.mode = .closed) := by
  subst hes
  have hinitial : Owned (Tracked.initial : Tracked R O) :=
    ⟨by simp [Tracked.initial], by simp [Tracked.initial],
      by simp [Tracked.initial, PublicationState.initial]⟩
  have howned := owned_run hinitial horderly.split.1
  have hown := transition_ownership hok
  refine ⟨?_, ?_, ?_, ?_⟩
  · intro haction
    obtain ⟨p, hp⟩ := Option.isSome_iff_exists.mp (hown.issues haction)
    obtain ⟨hfree, htoken, -, -⟩ := hown.starts p hp
    refine ⟨?_, p.2, ?_, ?_⟩
    · rw [List.eq_nil_iff_forall_not_mem]
      intro q hq
      have := howned.outstanding q hq
      rw [hfree] at this
      cases this
    · unfold started at hp
      rw [if_pos haction] at hp
      obtain ⟨token, htoken', rfl⟩ := Option.map_eq_some_iff.mp hp
      exact htoken'
    · intro q hq
      have := howned.tokens q hq
      omega
  · intro hstale
    obtain ⟨rfl, rfl⟩ := Prod.mk.inj (Except.ok.inj (hok.symm.trans (stale_ignored hstale)))
    exact ⟨rfl, rfl⟩
  · intro hactive
    have hmode := hown.active hactive
    refine ⟨hmode, ?_⟩
    rcases hown.mode with hsame | ⟨-, h, -⟩ | ⟨he, -, -⟩ | ⟨-, hclosed⟩
    · exact .inl (hsame ▸ hmode)
    · exact .inl h
    · exact .inr he
    · rw [hmode] at hclosed
      cases hclosed
  · intro hclosed
    rcases hown.mode with hsame | ⟨-, h, -⟩ | ⟨-, h, -⟩ | ⟨-, h⟩
    · exact hsame.trans hclosed
    · rw [hclosed] at h
      cases h
    · rw [hclosed] at h
      cases h
    · exact h

/-- The completion of a publication that a capture overtook, and the next wake. -/
theorem publication_single_owner_capture :
    OrderlyRun (Tracked.initial : Tracked ℕ ℕ) [.wake (some 0) 0, .captureBegin, .quiesced,
        .captureEnd, .wake (some 0) 1] ∧
      (run track (Tracked.initial : Tracked ℕ ℕ) [.wake (some 0) 0, .captureBegin, .quiesced,
        .captureEnd]).outstanding = [] := by
  have horderly : OrderlyRun (Tracked.initial : Tracked ℕ ℕ) [.wake (some 0) 0, .captureBegin,
      .quiesced, .captureEnd, .wake (some 0) 1] := by
    refine ⟨?_, ?_, ?_, ?_, ?_, trivial⟩ <;> intro h
    · cases h
    · cases h
    · cases h
    · intro _
      decide
    · cases h
  have hok : publicationTransition (run track (Tracked.initial : Tracked ℕ ℕ) [.wake (some 0) 0,
      .captureBegin, .quiesced, .captureEnd]).state (.wake (some 0) 1) =
        .ok (⟨.available, .running ⟨2, some 0, 2, 0⟩, 2, 2, false⟩, ⟨.run, some 2, none, none⟩) := by
    decide
  exact ⟨horderly, ((publication_single_owner horderly rfl hok).1 (.inl rfl)).1⟩

end ReadyOwnership
