import OmiCollector.PublicationMachine

/-! The durable queue of visit closures: `ready_closures` and the merge of recovered evidence.

A frontier argument may be any integer and a reason any text; what the queue holds has passed the
checks. The commit callback of an append and the drain completion of a merge may raise, and a
transaction that raises is rolled back. -/
namespace ReadyClosures

open PublicationStore (ReadyClosure)
open TransitionRuns

abbrev Queue := List ReadyClosure

def drained : String := "drained"

def Ordered (q : Queue) : Prop := q.IsChain fun left right => left.nextSequence ≤ right.nextSequence

instance (q : Queue) : Decidable (Ordered q) := inferInstanceAs (Decidable (List.IsChain _ _))

def makeClosure (nextSequence : ℤ) (reason : String) : Except String ReadyClosure :=
  if nextSequence < 0 then .error "ready closure frontier is invalid"
  else if reason = "" then .error "ready closure reason is invalid"
  else .ok ⟨nextSequence.toNat, reason⟩

/-- `load`: a stored queue is parsed again on every read. -/
def load (q : Queue) : Except String Queue :=
  if ∃ closure ∈ q, closure.reason = "" then .error "ready closure reason is invalid"
  else if ¬ Ordered q then .error "ready closure queue is out of order"
  else .ok q

/-- The closure that an append stores over the newest one. -/
def upgrade (newest : Option ReadyClosure) (closure : ReadyClosure) : ReadyClosure :=
  match newest with
  | none => closure
  | some previous =>
    if previous.nextSequence = closure.nextSequence ∧
        (previous.reason = drained ∨ closure.reason ≠ drained) then previous
    else closure

def regressed : String := "ready closure frontier regressed"

def append (q : Queue) (nextSequence : ℤ) (reason : String) (raises : Bool) :
    Except String ReadyClosure × Queue :=
  match makeClosure nextSequence reason with
  | .error e => (.error e, q)
  | .ok closure =>
    match load q with
    | .error e => (.error e, q)
    | .ok closures =>
      if ∃ newest ∈ closures.getLast?, closure.nextSequence < newest.nextSequence then
        (.error regressed, q)
      else if raises then (.error "ready closure queue could not be written", q)
      else (.ok (upgrade closures.getLast? closure), [upgrade closures.getLast? closure])

def coalesce (q : Queue) : Except String Queue × Queue :=
  match load q with
  | .error e => (.error e, q)
  | .ok closures =>
    if 1 < closures.length then (.ok closures.getLast?.toList, closures.getLast?.toList)
    else (.ok closures, q)

def collecting : String := "collecting"

def beginVisit (q : Queue) : Except String (Option ReadyClosure) × Queue :=
  match coalesce q with
  | (.error e, q) => (.error e, q)
  | (.ok closures, q) =>
    match closures.getLast? with
    | none => (.ok none, q)
    | some previous =>
      if previous.reason ≠ drained then (.ok (some previous), q)
      else (.ok (some ⟨previous.nextSequence, collecting⟩), [⟨previous.nextSequence, collecting⟩])

def remove (q : Queue) (closure : ReadyClosure) : Except String Unit × Queue :=
  match load q with
  | .error e => (.error e, q)
  | .ok closures =>
    if closures.head? ≠ some closure then (.error "ready closure queue head changed", q)
    else (.ok (), closures.tail)

/-- `_validate_recovered_closure`; an existing closure comes from the queue. -/
def validateRecoveredClosure (existing : Option ReadyClosure) (recoveredFrontier : Option ℤ)
    (reason : String) (drainCursor : Option ℤ) : Except String (Option ℤ) :=
  if reason = "" then .error "recovery closure reason is invalid"
  else if ∃ closure ∈ existing, closure.reason = "" then .error "existing closure reason is invalid"
  else if ∃ frontier ∈ recoveredFrontier, frontier < 0 then
    .error "recovery closure frontier must be a nonnegative integer"
  else if reason ≠ drained then
    if drainCursor.isSome then .error "only a drained recovery closure may carry a confirmed cursor"
    else .ok none
  else match drainCursor with
    | none => .error "a drained recovery closure requires its confirmed cursor"
    | some cursor =>
      if cursor < 0 then .error "a drained recovery closure requires its confirmed cursor"
      else if ∃ closure ∈ existing, cursor < closure.nextSequence then
        .error "confirmed drain cursor does not cover the existing closure frontier"
      else .ok (some cursor)

def recoveredClosure (existing : Option ReadyClosure) (recoveredFrontier : Option ℤ)
    (reason : String) (drainCursor : Option ℤ) : Except String (Option (ℤ × String)) := do
  let cursor ← validateRecoveredClosure existing recoveredFrontier reason drainCursor
  match recoveredFrontier with
  | none => return none
  | some frontier =>
    if reason = drained ∧ ∃ confirmed ∈ cursor, confirmed < frontier then
      .error "confirmed drain cursor does not cover the recovered closure frontier"
    else match existing with
      | none => return some (frontier, reason)
      | some closure =>
        if closure.nextSequence < frontier then return some (frontier, reason)
        else if frontier < closure.nextSequence then
          return if reason = drained then some ((closure.nextSequence : ℤ), reason) else none
        else if closure.reason = drained ∨ reason ≠ drained then return none
        else return some ((closure.nextSequence : ℤ), reason)

/-- `_decide_recovered_closure_unlocked` and `_merge_recovered_closure_unlocked`. -/
def merge (q : Queue) (frontier : Option ℤ) (reason : String) (drainCursor : Option ℤ)
    (raises : Bool) : Except String (Option ReadyClosure) × Queue :=
  match load q with
  | .error e => (.error e, q)
  | .ok closures =>
    match recoveredClosure closures.getLast? frontier reason drainCursor with
    | .error e => (.error e, q)
    | .ok decision =>
      match coalesce q with
      | (.error e, q) => (.error e, q)
      | (.ok coalesced, q) =>
        match decision with
        | none =>
          if raises ∧ ∃ existing ∈ coalesced.getLast?, existing.reason = drained then
            (.error "drain completion failed", q)
          else (.ok (if frontier.isSome then coalesced.getLast? else none), q)
        | some (next, reason) =>
          match append q next reason (raises && reason = drained) with
          | (.error e, q) => (.error e, q)
          | (.ok closure, q) => (.ok (some closure), q)

inductive Op where
  | append (nextSequence : ℤ) (reason : String) (raises : Bool)
  | coalesce
  | beginVisit
  | remove (closure : ReadyClosure)
  | merge (frontier : Option ℤ) (reason : String) (drainCursor : Option ℤ) (raises : Bool)
  deriving DecidableEq

/-- One call: whether it was accepted, and the queue that is stored after it. -/
def call (q : Queue) : Op → Bool × Queue
  | .append next reason raises => ((append q next reason raises).1.isOk, (append q next reason raises).2)
  | .coalesce => ((coalesce q).1.isOk, (coalesce q).2)
  | .beginVisit => ((beginVisit q).1.isOk, (beginVisit q).2)
  | .remove closure => ((remove q closure).1.isOk, (remove q closure).2)
  | .merge frontier reason cursor raises =>
    ((merge q frontier reason cursor raises).1.isOk, (merge q frontier reason cursor raises).2)

def step (q : Queue) (op : Op) : Queue := (call q op).2

/-- A queue that can be read back. -/
structure WellFormed (q : Queue) : Prop where
  reasons : ∀ closure ∈ q, closure.reason ≠ ""
  ordered : Ordered q

theorem load_ok {q : Queue} (h : WellFormed q) : load q = .ok q := by
  have hreasons : ¬ ∃ closure ∈ q, closure.reason = "" := by
    intro hex
    obtain ⟨closure, hmem, hempty⟩ := hex
    exact h.reasons closure hmem hempty
  unfold load
  rw [if_neg hreasons, if_neg (not_not.mpr h.ordered)]

theorem wellFormed_singleton {closure : ReadyClosure} (h : closure.reason ≠ "") :
    WellFormed [closure] :=
  ⟨by simpa using h, by simp [Ordered]⟩

theorem wellFormed_newest {q : Queue} (h : WellFormed q) : WellFormed q.getLast?.toList := by
  cases hq : q.getLast? with
  | none => exact ⟨by simp, by simp [Ordered]⟩
  | some newest => exact wellFormed_singleton (h.reasons newest (List.mem_of_getLast? hq))

theorem getLast?_newest (q : Queue) : q.getLast?.toList.getLast? = q.getLast? := by
  cases q.getLast? <;> rfl

/-- Coalescing leaves the newest closure alone. -/
theorem coalesce_ok {q : Queue} (h : WellFormed q) :
    coalesce q = (.ok q.getLast?.toList, q.getLast?.toList) := by
  unfold coalesce
  rw [load_ok h]
  by_cases hlong : 1 < q.length
  · simp only [hlong, if_true]
  · have hsame : q.getLast?.toList = q := by
      match q, hlong with
      | [], _ => rfl
      | [closure], _ => rfl
      | _ :: _ :: _, hlong => simp at hlong
    simp only [hlong, if_false, hsame]

/-- The newest closure does not go back, and at its frontier a drain is kept. -/
structure Kept (q q' : Queue) : Prop where
  wellFormed : WellFormed q'
  forward : ∀ c, q.getLast? = some c → ∃ c', q'.getLast? = some c' ∧ c.nextSequence ≤ c'.nextSequence
  drain : ∀ c c', q.getLast? = some c → q'.getLast? = some c' → c'.nextSequence = c.nextSequence →
    c.reason = drained → c'.reason = drained

theorem Kept.refl {q : Queue} (h : WellFormed q) : Kept q q := by
  refine ⟨h, fun c hc => ⟨c, hc, le_rfl⟩, ?_⟩
  intro c c' hc hc' _ hdrained
  obtain rfl := Option.some.inj (hc.symm.trans hc')
  exact hdrained

theorem Kept.coalesced {q q' : Queue} (h : Kept q.getLast?.toList q') : Kept q q' := by
  obtain ⟨h1, h2, h3⟩ := h
  rw [getLast?_newest] at h2 h3
  exact ⟨h1, h2, h3⟩

theorem makeClosure_ok {next : ℤ} {reason : String} {closure : ReadyClosure}
    (h : makeClosure next reason = .ok closure) :
    0 ≤ next ∧ reason ≠ "" ∧ closure = ⟨next.toNat, reason⟩ := by
  unfold makeClosure at h
  split at h
  · cases h
  · split at h
    · cases h
    · rename_i hnext hreason
      exact ⟨by omega, hreason, (Except.ok.inj h).symm⟩

theorem upgrade_kept {q : Queue} {closure : ReadyClosure} (hq : WellFormed q)
    (hreason : closure.reason ≠ "")
    (hforward : ∀ newest, q.getLast? = some newest → newest.nextSequence ≤ closure.nextSequence) :
    Kept q [upgrade q.getLast? closure] := by
  cases hnewest : q.getLast? with
  | none =>
    refine ⟨wellFormed_singleton hreason, ?_, ?_⟩
    · intro c hc
      rw [hnewest] at hc
      cases hc
    · intro c c' hc
      rw [hnewest] at hc
      cases hc
  | some newest =>
    have hle := hforward newest hnewest
    have hnewestReason := hq.reasons newest (List.mem_of_getLast? hnewest)
    by_cases hkeep : newest.nextSequence = closure.nextSequence ∧
        (newest.reason = drained ∨ closure.reason ≠ drained)
    · have hupgrade : upgrade (some newest) closure = newest := if_pos hkeep
      rw [hupgrade]
      refine ⟨wellFormed_singleton hnewestReason, ?_, ?_⟩
      · intro c hc
        obtain rfl := Option.some.inj (hnewest.symm.trans hc)
        exact ⟨newest, rfl, le_rfl⟩
      · intro c c' hc hc' _ hdrained
        obtain rfl := Option.some.inj (hnewest.symm.trans hc)
        obtain rfl := Option.some.inj hc'
        exact hdrained
    · have hupgrade : upgrade (some newest) closure = closure := if_neg hkeep
      rw [hupgrade]
      refine ⟨wellFormed_singleton hreason, ?_, ?_⟩
      · intro c hc
        obtain rfl := Option.some.inj (hnewest.symm.trans hc)
        exact ⟨closure, rfl, hle⟩
      · intro c c' hc hc' hsame hdrained
        obtain rfl := Option.some.inj (hnewest.symm.trans hc)
        obtain rfl := Option.some.inj hc'
        exact absurd ⟨hsame.symm, .inl hdrained⟩ hkeep

/-- An append is refused and stores nothing, or stores the newest closure alone. -/
theorem append_cases {q : Queue} (hq : WellFormed q) (next : ℤ) (reason : String) (raises : Bool) :
    ((append q next reason raises).1.isOk = false ∧ (append q next reason raises).2 = q) ∨
      (0 ≤ next ∧ reason ≠ "" ∧
        (∀ newest, q.getLast? = some newest → (newest.nextSequence : ℤ) ≤ next) ∧
        append q next reason raises = (.ok (upgrade q.getLast? ⟨next.toNat, reason⟩),
          [upgrade q.getLast? ⟨next.toNat, reason⟩])) := by
  unfold append
  cases hmake : makeClosure next reason with
  | error e => exact .inl ⟨rfl, rfl⟩
  | ok closure =>
    obtain ⟨hnext, hreason, rfl⟩ := makeClosure_ok hmake
    simp only [load_ok hq]
    by_cases hregressed : ∃ newest ∈ q.getLast?, next.toNat < newest.nextSequence
    · rw [if_pos hregressed]
      exact .inl ⟨rfl, rfl⟩
    · rw [if_neg hregressed]
      cases raises with
      | true => exact .inl ⟨rfl, rfl⟩
      | false =>
        refine .inr ⟨hnext, hreason, ?_, rfl⟩
        intro newest hnewest
        have : ¬ next.toNat < newest.nextSequence := fun hlt => hregressed ⟨newest, hnewest, hlt⟩
        omega

theorem append_kept {q : Queue} (hq : WellFormed q) (next : ℤ) (reason : String) (raises : Bool) :
    Kept q (append q next reason raises).2 := by
  rcases append_cases hq next reason raises with ⟨-, hsame⟩ | ⟨hnext, hreason, hforward, happend⟩
  · rw [hsame]
    exact .refl hq
  · rw [happend]
    refine upgrade_kept hq hreason ?_
    intro newest hnewest
    have := hforward newest hnewest
    simp only
    omega

/-- What a merge may decide: never behind the newest closure, never what an append would refuse or
change, and a drain only with a cursor that covers it. -/
structure Decided (existing : Option ReadyClosure) (drainCursor : Option ℤ) (next : ℤ)
    (reason : String) : Prop where
  valid : 0 ≤ next ∧ reason ≠ ""
  forward : ∀ closure, existing = some closure → (closure.nextSequence : ℤ) ≤ next
  stored : upgrade existing ⟨next.toNat, reason⟩ = ⟨next.toNat, reason⟩
  covered : reason = drained → ∃ cursor, drainCursor = some cursor ∧ next ≤ cursor

theorem validateRecoveredClosure_ok {existing : Option ReadyClosure} {frontier : Option ℤ}
    {reason : String} {drainCursor cursor : Option ℤ}
    (h : validateRecoveredClosure existing frontier reason drainCursor = .ok cursor) :
    reason ≠ "" ∧ (∀ f, frontier = some f → 0 ≤ f) ∧ (reason = drained → ∃ confirmed,
      drainCursor = some confirmed ∧ cursor = some confirmed ∧
        ∀ closure, existing = some closure → (closure.nextSequence : ℤ) ≤ confirmed) := by
  unfold validateRecoveredClosure at h
  split at h
  · cases h
  · rename_i hreason
    split at h
    · cases h
    · split at h
      · cases h
      · rename_i hfrontier
        have hpositive : ∀ f, frontier = some f → 0 ≤ f := by
          intro f hf
          by_contra hneg
          exact hfrontier ⟨f, hf, by omega⟩
        split at h
        · rename_i hother
          exact ⟨hreason, hpositive, fun hdrained => absurd hdrained hother⟩
        · split at h
          · cases h
          · split at h
            · cases h
            · split at h
              · cases h
              · rename_i confirmed _ hcovers
                refine ⟨hreason, hpositive, fun _ => ⟨confirmed, rfl, (Except.ok.inj h).symm, ?_⟩⟩
                intro closure hclosure
                by_contra hlt
                exact hcovers ⟨closure, hclosure, by omega⟩

theorem recoveredClosure_decided {existing : Option ReadyClosure} {frontier : Option ℤ}
    {reason : String} {drainCursor : Option ℤ} {next : ℤ} {decided : String}
    (h : recoveredClosure existing frontier reason drainCursor = .ok (some (next, decided))) :
    Decided existing drainCursor next decided := by
  unfold recoveredClosure at h
  cases hvalid : validateRecoveredClosure existing frontier reason drainCursor with
  | error e =>
    rw [hvalid] at h
    cases h
  | ok cursor =>
    rw [hvalid] at h
    obtain ⟨hreason, hpositive, hcursor⟩ := validateRecoveredClosure_ok hvalid
    simp only [bind, Except.bind] at h
    cases frontier with
    | none => cases h
    | some f =>
      have hf := hpositive f rfl
      simp only at h
      split at h
      · cases h
      · rename_i hcovered
        have hcover : reason = drained → ∃ confirmed, drainCursor = some confirmed ∧ f ≤ confirmed ∧
            ∀ closure, existing = some closure → (closure.nextSequence : ℤ) ≤ confirmed := by
          intro hdrained
          obtain ⟨confirmed, hdrain, hcur, hexisting⟩ := hcursor hdrained
          refine ⟨confirmed, hdrain, ?_, hexisting⟩
          by_contra hlt
          exact hcovered ⟨hdrained, confirmed, hcur, by omega⟩
        have hcoverNext : ∀ n : ℤ, n = f ∨ (∃ closure, existing = some closure ∧
            n = closure.nextSequence) → reason = drained →
              ∃ confirmed, drainCursor = some confirmed ∧ n ≤ confirmed := by
          intro n hn hdrained
          obtain ⟨confirmed, hdrain, hle, hexisting⟩ := hcover hdrained
          rcases hn with rfl | ⟨closure, hclosure, rfl⟩
          · exact ⟨confirmed, hdrain, hle⟩
          · exact ⟨confirmed, hdrain, hexisting closure hclosure⟩
        cases existing with
        | none =>
          obtain ⟨rfl, rfl⟩ : f = next ∧ reason = decided := by simpa [pure, Except.pure] using h
          exact ⟨⟨hf, hreason⟩, by simp, rfl, hcoverNext f (.inl rfl)⟩
        | some closure =>
          simp only at h
          split at h
          · rename_i hahead
            obtain ⟨rfl, rfl⟩ : f = next ∧ reason = decided := by simpa [pure, Except.pure] using h
            refine ⟨⟨hf, hreason⟩, ?_, ?_, hcoverNext f (.inl rfl)⟩
            · intro c hc
              obtain rfl := Option.some.inj hc
              omega
            · refine if_neg ?_
              intro hsame
              have := hsame.1
              simp only at this
              omega
          · split at h
            · by_cases hdrained : reason = drained
              · simp only [hdrained, if_true, pure, Except.pure, Except.ok.injEq, Option.some.injEq,
                  Prod.mk.injEq] at h
                obtain ⟨rfl, rfl⟩ := h
                refine ⟨⟨by omega, by decide⟩, ?_, ?_, ?_⟩
                · intro c hc
                  obtain rfl := Option.some.inj hc
                  exact le_rfl
                · -- An append at the newest frontier keeps an existing drain, which is the same.
                  by_cases hreason' : closure.reason = drained
                  · have hsame : (⟨((closure.nextSequence : ℤ)).toNat, drained⟩ : ReadyClosure) =
                        closure := by
                      rw [Int.toNat_natCast, ← hreason']
                    rw [hsame]
                    exact if_pos ⟨rfl, .inl hreason'⟩
                  · refine if_neg ?_
                    intro hkeep
                    rcases hkeep.2 with h1 | h2
                    · exact hreason' h1
                    · exact h2 rfl
                · exact fun _ => hcoverNext _ (.inr ⟨closure, rfl, rfl⟩) hdrained
              · simp [hdrained, pure, Except.pure] at h
            · split at h
              · cases h
              · rename_i hupgrades
                obtain ⟨hexisting, hdrained⟩ := not_or.mp hupgrades
                obtain ⟨rfl, rfl⟩ : (closure.nextSequence : ℤ) = next ∧ reason = decided := by
                  simpa [pure, Except.pure] using h
                refine ⟨⟨by omega, hreason⟩, ?_, ?_, hcoverNext _ (.inr ⟨closure, rfl, rfl⟩)⟩
                · intro c hc
                  obtain rfl := Option.some.inj hc
                  exact le_rfl
                · refine if_neg ?_
                  intro hkeep
                  rcases hkeep.2 with h1 | h2
                  · exact hexisting h1
                  · exact hdrained h2

/-- The append of a merge is never refused as regressed and stores exactly the decision. -/
theorem append_decided {q : Queue} (hq : WellFormed q) {drainCursor : Option ℤ} {next : ℤ}
    {reason : String} (h : Decided q.getLast? drainCursor next reason) (raises : Bool) :
    append q next reason raises =
      if raises then (.error "ready closure queue could not be written", q)
      else (.ok ⟨next.toNat, reason⟩, [⟨next.toNat, reason⟩]) := by
  have hmake : makeClosure next reason = .ok ⟨next.toNat, reason⟩ := by
    unfold makeClosure
    rw [if_neg (by have := h.valid.1; omega), if_neg h.valid.2]
  have hforward : ¬ ∃ newest ∈ q.getLast?, next.toNat < newest.nextSequence := by
    intro hex
    obtain ⟨newest, hnewest, hlt⟩ := hex
    have := h.forward newest hnewest
    omega
  unfold append
  rw [hmake]
  simp only [load_ok hq]
  rw [if_neg hforward, h.stored]

theorem merge_decided {q : Queue} (hq : WellFormed q) {frontier : Option ℤ} {reason : String}
    {drainCursor : Option ℤ} {raises : Bool} {next : ℤ} {decided : String}
    (h : recoveredClosure q.getLast? frontier reason drainCursor = .ok (some (next, decided)))
    (hraises : (raises && decided = drained) = false) :
    merge q frontier reason drainCursor raises =
      (.ok (some ⟨next.toNat, decided⟩), [⟨next.toNat, decided⟩]) := by
  have hdecided := recoveredClosure_decided h
  unfold merge
  simp only [load_ok hq, h, coalesce_ok hq]
  rw [append_decided (wellFormed_newest hq) ((getLast?_newest q).symm ▸ hdecided), hraises]
  rfl

/-- The three ways a merge can go. -/
theorem merge_cases {q : Queue} (hq : WellFormed q) (frontier : Option ℤ) (reason : String)
    (drainCursor : Option ℤ) (raises : Bool) :
    ((merge q frontier reason drainCursor raises).1.isOk = false ∧
        (merge q frontier reason drainCursor raises).2 = q) ∨
      ((merge q frontier reason drainCursor raises).2 = q.getLast?.toList ∧
        ((merge q frontier reason drainCursor raises).1.isOk = false → raises = true) ∧
        ∀ next decided,
          recoveredClosure q.getLast? frontier reason drainCursor = .ok (some (next, decided)) →
            (raises && decided = drained) = true) ∨
      ∃ next decided,
        recoveredClosure q.getLast? frontier reason drainCursor = .ok (some (next, decided)) ∧
          (raises && decided = drained) = false ∧ merge q frontier reason drainCursor raises =
            (.ok (some ⟨next.toNat, decided⟩), [⟨next.toNat, decided⟩]) := by
  unfold merge
  simp only [load_ok hq, coalesce_ok hq]
  cases hdecision : recoveredClosure q.getLast? frontier reason drainCursor with
  | error e => exact .inl ⟨rfl, rfl⟩
  | ok decision =>
    right
    cases decision with
    | none =>
      left
      simp only
      split
      · rename_i hraises
        exact ⟨rfl, fun _ => hraises.1, by simp⟩
      · exact ⟨rfl, by simp [Except.isOk, Except.toBool], by simp⟩
    | some pair =>
      obtain ⟨next, decided⟩ := pair
      have hdecided := recoveredClosure_decided hdecision
      have happend := append_decided (wellFormed_newest hq)
        ((getLast?_newest q).symm ▸ hdecided) (raises && decided = drained)
      simp only [happend]
      cases hraised : (raises && decided = drained) with
      | true =>
        left
        refine ⟨rfl, fun _ => (Bool.and_eq_true_iff.mp hraised).1, ?_⟩
        intro n d h
        obtain ⟨rfl, rfl⟩ : next = n ∧ decided = d := by simpa using h
        exact hraised
      | false => exact .inr ⟨next, decided, rfl, hraised, rfl⟩

theorem merge_kept {q : Queue} (hq : WellFormed q) (frontier : Option ℤ) (reason : String)
    (drainCursor : Option ℤ) (raises : Bool) :
    Kept q (merge q frontier reason drainCursor raises).2 := by
  have hnewest : Kept q q.getLast?.toList := .coalesced (.refl (wellFormed_newest hq))
  rcases merge_cases hq frontier reason drainCursor raises with ⟨-, hsame⟩ | ⟨hcoalesced, -⟩ |
    ⟨next, decided, hdecision, -, hmerge⟩
  · rw [hsame]
    exact .refl hq
  · rw [hcoalesced]
    exact hnewest
  · rw [hmerge]
    have hdecided := recoveredClosure_decided hdecision
    rw [← hdecided.stored]
    refine upgrade_kept hq hdecided.valid.2 ?_
    intro newest hn
    have h1 := hdecided.forward newest hn
    simp only
    omega

theorem beginVisit_ok {q : Queue} (hq : WellFormed q) :
    (beginVisit q).1.isOk = true ∧ WellFormed (beginVisit q).2 ∧
      ∀ c, q.getLast? = some c →
        ∃ c', (beginVisit q).2.getLast? = some c' ∧ c'.nextSequence = c.nextSequence := by
  unfold beginVisit
  simp only [coalesce_ok hq, getLast?_newest]
  cases hnewest : q.getLast? with
  | none => exact ⟨rfl, by simpa [hnewest] using wellFormed_newest hq, by simp⟩
  | some newest =>
    simp only
    split
    · refine ⟨rfl, by simpa [hnewest] using wellFormed_newest hq, ?_⟩
      intro c hc
      obtain rfl := Option.some.inj hc
      exact ⟨newest, rfl, rfl⟩
    · refine ⟨rfl, wellFormed_singleton (by decide : collecting ≠ ""), ?_⟩
      intro c hc
      obtain rfl := Option.some.inj hc
      exact ⟨_, rfl, rfl⟩

theorem remove_cases {q : Queue} (hq : WellFormed q) (closure : ReadyClosure) :
    ((remove q closure).1.isOk = false ∧ (remove q closure).2 = q) ∨
      ((remove q closure).1.isOk = true ∧ (remove q closure).2 = q.tail) := by
  unfold remove
  simp only [load_ok hq]
  split
  · exact .inl ⟨rfl, rfl⟩
  · exact .inr ⟨rfl, rfl⟩

theorem wellFormed_tail {q : Queue} (hq : WellFormed q) : WellFormed q.tail :=
  ⟨fun c hc => hq.reasons c (List.mem_of_mem_tail hc), hq.ordered.tail⟩

/-- Every call keeps the queue readable. -/
theorem step_wellFormed {q : Queue} (hq : WellFormed q) (op : Op) : WellFormed (step q op) := by
  cases op with
  | append next reason raises => exact (append_kept hq next reason raises).wellFormed
  | coalesce =>
    change WellFormed (coalesce q).2
    rw [coalesce_ok hq]
    exact wellFormed_newest hq
  | beginVisit => exact (beginVisit_ok hq).2.1
  | remove closure =>
    change WellFormed (remove q closure).2
    rcases remove_cases hq closure with ⟨-, h⟩ | ⟨-, h⟩
    · rw [h]
      exact hq
    · rw [h]
      exact wellFormed_tail hq
  | merge frontier reason cursor raises => exact (merge_kept hq frontier reason cursor raises).wellFormed

theorem step_forward {q : Queue} (hq : WellFormed q) {op : Op} (hop : ∀ c, op ≠ .remove c) :
    ∀ c, q.getLast? = some c →
      ∃ c', (step q op).getLast? = some c' ∧ c.nextSequence ≤ c'.nextSequence := by
  cases op with
  | append next reason raises => exact (append_kept hq next reason raises).forward
  | coalesce =>
    intro c hc
    change ∃ c', (coalesce q).2.getLast? = some c' ∧ _
    rw [coalesce_ok hq, getLast?_newest]
    exact ⟨c, hc, le_rfl⟩
  | beginVisit =>
    intro c hc
    obtain ⟨c', hc', heq⟩ := (beginVisit_ok hq).2.2 c hc
    exact ⟨c', hc', heq.ge⟩
  | remove closure => exact absurd rfl (hop closure)
  | merge frontier reason cursor raises => exact (merge_kept hq frontier reason cursor raises).forward

theorem step_drain {q : Queue} (hq : WellFormed q) {op : Op} (hop : op ≠ .beginVisit) :
    ∀ c c', q.getLast? = some c → (step q op).getLast? = some c' →
      c'.nextSequence = c.nextSequence → c.reason = drained → c'.reason = drained := by
  cases op with
  | append next reason raises => exact (append_kept hq next reason raises).drain
  | coalesce =>
    intro c c' hc hc' _ hdrained
    change (coalesce q).2.getLast? = some c' at hc'
    rw [coalesce_ok hq, getLast?_newest] at hc'
    obtain rfl := Option.some.inj (hc.symm.trans hc')
    exact hdrained
  | beginVisit => exact absurd rfl hop
  | remove closure =>
    intro c c' hc hc' _ hdrained
    change (remove q closure).2.getLast? = some c' at hc'
    have hsame : c' = c := by
      rcases remove_cases hq closure with ⟨-, h⟩ | ⟨-, h⟩
      · rw [h] at hc'
        exact (Option.some.inj (hc.symm.trans hc')).symm
      · rw [h] at hc'
        cases q with
        | nil => cases hc
        | cons head tail =>
          have hne : tail ≠ [] := by
            intro hnil
            subst hnil
            cases hc'
          rw [List.getLast?_cons_of_ne_nil hne] at hc
          exact (Option.some.inj (hc.symm.trans hc')).symm
    rw [hsame]
    exact hdrained
  | merge frontier reason cursor raises => exact (merge_kept hq frontier reason cursor raises).drain

theorem refused_unchanged {q : Queue} (hq : WellFormed q) {op : Op} (hrefused : (call q op).1 = false) :
    step q op = q ∨ ∃ frontier reason cursor, op = .merge frontier reason cursor true ∧
      step q op = (coalesce q).2 := by
  cases op with
  | append next reason raises =>
    change (append q next reason raises).1.isOk = false at hrefused
    rcases append_cases hq next reason raises with ⟨-, hsame⟩ | ⟨-, -, -, happend⟩
    · exact .inl hsame
    · rw [happend] at hrefused
      cases hrefused
  | coalesce =>
    change (coalesce q).1.isOk = false at hrefused
    rw [coalesce_ok hq] at hrefused
    cases hrefused
  | beginVisit =>
    change (beginVisit q).1.isOk = false at hrefused
    rw [(beginVisit_ok hq).1] at hrefused
    cases hrefused
  | remove closure =>
    change (remove q closure).1.isOk = false at hrefused
    rcases remove_cases hq closure with ⟨-, h⟩ | ⟨h, -⟩
    · exact .inl h
    · rw [h] at hrefused
      cases hrefused
  | merge frontier reason cursor raises =>
    change (merge q frontier reason cursor raises).1.isOk = false at hrefused
    rcases merge_cases hq frontier reason cursor raises with ⟨-, h⟩ | ⟨h, hraises, -⟩ |
      ⟨next, decided, -, -, hmerge⟩
    · exact .inl h
    · right
      obtain rfl := hraises hrefused
      refine ⟨frontier, reason, cursor, rfl, ?_⟩
      change (merge q frontier reason cursor true).2 = (coalesce q).2
      rw [h, coalesce_ok hq]
    · rw [hmerge] at hrefused
      cases hrefused

theorem run_wellFormed {q : Queue} (hq : WellFormed q) (ops : List Op) :
    WellFormed (run step q ops) := by
  have hstep : ∀ (q : Queue) (op : Op), True → WellFormed q → WellFormed (step q op) :=
    fun q op _ h => step_wellFormed h op
  exact run_invariant hstep hq fun _ _ => trivial

/-- The newest closure of a queue does not go back, and no drain is forged, in any run of calls. -/
theorem closure_watermark {q : Queue} (hq : WellFormed q) (ops : List Op) (op : Op) :
    Ordered (run step q ops) ∧
    ((∀ c, op ≠ .remove c) → ∀ c, (run step q ops).getLast? = some c →
      ∃ c', (run step q (ops ++ [op])).getLast? = some c' ∧ c.nextSequence ≤ c'.nextSequence) ∧
    (op ≠ .beginVisit → ∀ c c', (run step q ops).getLast? = some c →
      (run step q (ops ++ [op])).getLast? = some c' → c'.nextSequence = c.nextSequence →
      c.reason = drained → c'.reason = drained) ∧
    (∀ frontier reason cursor raises next decided, op = .merge frontier reason cursor raises →
      recoveredClosure (run step q ops).getLast? frontier reason cursor =
        .ok (some (next, decided)) →
      (append (coalesce (run step q ops)).2 next decided (raises && decided = drained)).1 ≠
        .error regressed ∧
      ((raises && decided = drained) = false →
        run step q (ops ++ [op]) = [⟨next.toNat, decided⟩]) ∧
      (decided = drained → ∃ confirmed, cursor = some confirmed ∧ next ≤ confirmed)) ∧
    ((call (run step q ops) op).1 = false → run step q (ops ++ [op]) = run step q ops ∨
      ∃ frontier reason cursor, op = .merge frontier reason cursor true ∧
        run step q (ops ++ [op]) = (coalesce (run step q ops)).2) := by
  have hnow := run_wellFormed hq ops
  rw [run_snoc]
  refine ⟨hnow.ordered, step_forward hnow, step_drain hnow, ?_, refused_unchanged hnow⟩
  intro frontier reason cursor raises next decided hop hdecision
  subst hop
  have hdecided := recoveredClosure_decided hdecision
  refine ⟨?_, ?_, hdecided.covered⟩
  · rw [coalesce_ok hnow, append_decided (wellFormed_newest hnow)
      ((getLast?_newest (run step q ops)).symm ▸ hdecided)]
    split
    · intro h
      simp [regressed] at h
    · simp
  · intro hraises
    change (merge (run step q ops) frontier reason cursor raises).2 = _
    rw [merge_decided hnow hdecision hraises]

/-- A confirmed drain over a legacy queue, after a visit began. -/
theorem closure_watermark_drained :
    WellFormed [⟨3, "drained"⟩, ⟨5, "interrupted"⟩] ∧
      run step [⟨3, "drained"⟩, ⟨5, "interrupted"⟩]
        ([.beginVisit] ++ [.merge (some 4) drained (some 6) false]) = [⟨5, "drained"⟩] := by
  have hq : WellFormed [⟨3, "drained"⟩, ⟨5, "interrupted"⟩] := ⟨by decide, by decide⟩
  have h := (closure_watermark hq [.beginVisit] (.merge (some 4) drained (some 6) false)).2.2.2.1
    (some 4) drained (some 6) false 5 drained rfl (by decide)
  exact ⟨hq, h.2.1 rfl⟩

end ReadyClosures
