import OmiCollector.DrainRow

/-! The pendant drain event over whole runs.

A completing call reads the pending binding, the admissions, the binding again and the loss ledger
before its transaction, and every operation may come between two of these reads. What the
admissions and the ledger hold then is given with the event. The log of acts and what a call
remembers of its reads are read by no code. -/
namespace PublicDrain

open DrainRow PyValue Checks
open ConfirmedLoss (LossFact)
open PublicationStore (ReadyClosure)

/-- A source as it is admitted up to the closure. -/
structure Admitted where
  sourceId : String
  sequenceStart : ℕ
  admittedCount : ℕ
  deriving DecidableEq, Repr

def Admitted.frontier (a : Admitted) : ℤ := a.sequenceStart + a.admittedCount

/-- The closure that a completing call appends, or the stored one that it completes again. -/
inductive Target where
  | append (nextSequence : ℤ) (reason : String)
  | recovered (closure : ReadyClosure)

def Target.reason : Target → String
  | .append _ reason => reason
  | .recovered closure => closure.reason

def Target.frontier : Target → ℤ
  | .append nextSequence _ => nextSequence
  | .recovered closure => closure.nextSequence

/-- What a completing call does next: read the admissions of the binding, read the binding again,
read the losses, or run its transaction. -/
inductive Phase where
  | bound (sourceId : String) (frontier : ℤ)
  | accepted (sourceId : String) (frontier : ℤ)
  | losses (sourceId : String) (frontier cursor : ℤ)
  | ready (custody : Option AcceptedDrainCustody)

structure Call where
  target : Target
  drain : Drain
  phase : Phase
  admissions : List Admitted
  losses : List LossFact

structure World where
  rows : Rows
  queue : ReadyClosures.Queue
  calls : List Call
  log : List Act

def World.new : World := ⟨⟨none, none⟩, [], [], []⟩

inductive Event where
  | updateObservations (ring battery : Option Observed)
  | recordInfo (unread observedAt : Value)
  | recordStorageUnavailable (observedAt : Value) (incidentId : String)
  | armPending (sourceId frontier : Value) (token : String)
  | start (target : Target) (drain : Option Drain)
  | readAdmissions (index : ℕ) (admissions : Option (List Admitted))
  | readBinding (index : ℕ)
  | readLosses (index : ℕ) (ledger : Option (List LossFact))
  | commit (index : ℕ)
  | raise (index : ℕ)
  | crash

/-- `_accepted_drain_binding` on admissions that could be read. -/
def acceptedDrainBinding (sourceId : String) (frontier : ℤ) (admissions : List Admitted) :
    Option (String × ℤ) :=
  match admissions with
  | [admitted] =>
    if admitted.sourceId ≠ sourceId ∨ admitted.frontier ≠ frontier then none
    else some (sourceId, admitted.frontier)
  | _ => none

/-- The cursor beyond the closure that a loss must explain. The completion refuses a cursor that is
no integer, whatever custody it is given. -/
def unexplainedCursor (accepted : String × ℤ) (binding : Option (String × ℤ)) (closureFrontier : ℤ)
    (info : Info) : Except String (Option ℤ) :=
  if some accepted ≠ binding ∨ accepted.2 ≠ closureFrontier then .ok none
  else
    match info with
    | .other => .error "object has no attribute 'read_sequence'"
    | .ringInfo (.int readSequence) (.int writeSequence) =>
      if readSequence ≠ writeSequence ∨ readSequence ≤ closureFrontier then .ok none
      else .ok (some readSequence)
    | .ringInfo _ _ => .ok none

/-- The losses of an attempt that fill this interval. -/
def matchingLosses (facts : List LossFact) (attemptId : String) (start stop : ℤ) : List LossFact :=
  facts.filter fun fact =>
    fact.attemptId = attemptId ∧ (fact.startSequence : ℤ) = start ∧ (fact.endSequence : ℤ) = stop

def confirmedLossEnd (facts : List LossFact) (attemptId : String) (start stop : ℤ) : Option ℤ :=
  if (matchingLosses facts attemptId start stop).length = 1 then some stop else none

def firstPhase : Option (String × ℤ) → Phase
  | none => .ready none
  | some binding => .bound binding.1 binding.2

def Call.onAdmissions (c : Call) (admissions : Option (List Admitted)) : Call :=
  match c.phase with
  | .bound sourceId frontier =>
    let read := admissions.getD []
    match acceptedDrainBinding sourceId frontier read with
    | none => { c with phase := .ready none, admissions := read }
    | some accepted => { c with phase := .accepted accepted.1 accepted.2, admissions := read }
  | _ => c

def Call.onBinding (c : Call) (binding : Option (String × ℤ)) : Except String Call :=
  match c.phase with
  | .accepted sourceId frontier => do
    match ← unexplainedCursor (sourceId, frontier) binding c.target.frontier c.drain.info with
    | none => pure { c with phase := .ready (some ⟨sourceId, frontier, none⟩) }
    | some cursor => pure { c with phase := .losses sourceId frontier cursor }
  | _ => pure c

def Call.onLosses (p : Platform) (c : Call) (ledger : Option (List LossFact)) : Except String Call :=
  match c.phase with
  | .losses sourceId frontier cursor => do
    let facts ← ConfirmedLoss.readLedger p.losses ledger
    let lossEnd := confirmedLossEnd facts sourceId c.target.frontier cursor
    pure { c with phase := .ready (some ⟨sourceId, frontier, lossEnd⟩), losses := facts }
  | _ => pure c

/-- An append of a closure that completes no drain. -/
def appendClosure (w : World) : Target → Except String World
  | .append nextSequence reason => do
    let (result, queue) := ReadyClosures.append w.queue nextSequence reason false
    let _ ← result
    pure { w with queue := queue }
  | .recovered _ => pure w

def startCall (p : Platform) (w : World) (target : Target) :
    Option Drain → Except String World
  | none => appendClosure w target
  | some drain =>
    if target.reason = ReadyClosures.drained then do
      let binding ← pendingBinding p w.rows
      pure { w with calls := w.calls ++ [⟨target, drain, firstPhase binding, [], []⟩] }
    else appendClosure w target

/-- The transaction of a completing call: with the closure it appends, or alone. -/
def transact (p : Platform) (w : World) (c : Call) (custody : Option AcceptedDrainCustody) :
    Except String World := do
  let completed := completeInTransaction p w.rows c.drain c.target.frontier custody
  match c.target with
  | .append nextSequence reason =>
    let (result, queue) := ReadyClosures.append w.queue nextSequence reason completed.isOk.not
    let _ ← result
    let (rows, acts) ← completed
    pure { w with rows := rows, queue := queue, log := acts ++ w.log }
  | .recovered _ =>
    let (rows, acts) ← completed
    pure { w with rows := rows, log := acts ++ w.log }

def World.remove (w : World) (index : ℕ) : World := { w with calls := w.calls.eraseIdx index }

/-- A completing call takes a step to another phase. -/
def advance (w : World) (index : ℕ) (next : Call → Except String Call) : Except String World :=
  match w.calls[index]? with
  | none => pure w
  | some c => do
    let c ← next c
    pure { w with calls := w.calls.set index c }

def commitCall (p : Platform) (w : World) (index : ℕ) : Except String World :=
  match w.calls[index]? with
  | none => pure w
  | some c =>
    match c.phase with
    | .ready custody => transact p (w.remove index) c custody
    | _ => pure w

def World.note (w : World) (result : Rows × List Act) : World :=
  { w with rows := result.1, log := result.2 ++ w.log }

def call (p : Platform) (w : World) : Event → Except String World
  | .updateObservations ring battery => do
    let rows ← updateObservations p w.rows ring battery
    pure { w with rows := rows }
  | .recordInfo unread observedAt => do
    let result ← recordInfo p w.rows unread observedAt
    pure (w.note result)
  | .recordStorageUnavailable observedAt incidentId => do
    let result ← recordStorageUnavailable p w.rows observedAt incidentId
    pure (w.note result)
  | .armPending sourceId frontier token => do
    let result ← armPending p w.rows sourceId frontier token
    pure (w.note result)
  | .start target drain => startCall p w target drain
  | .readAdmissions index admissions => advance w index fun c => pure (c.onAdmissions admissions)
  | .readBinding index => do
    let binding ← pendingBinding p w.rows
    advance w index fun c => c.onBinding binding
  | .readLosses index ledger => advance w index fun c => c.onLosses p ledger
  | .commit index => commitCall p w index
  | .raise index => pure (w.remove index)
  | .crash => pure { w with calls := [] }

/-- The completing call that an event is about. -/
def Event.index : Event → Option ℕ
  | .readAdmissions index _ => some index
  | .readBinding index => some index
  | .readLosses index _ => some index
  | .commit index => some index
  | _ => none

/-- A refused event; a completing call that is refused is over. -/
def World.refuse (w : World) (e : Event) : World :=
  match e.index with
  | none => w
  | some index => w.remove index

def step (p : Platform) (w : World) (e : Event) : World :=
  match call p w e with
  | .ok w' => w'
  | .error _ => w.refuse e

/-- Tokens and incident identities are fresh and not blank. -/
def Fresh (w : World) : Event → Prop
  | .armPending _ _ token => ¬ Blank token ∧ .armed token ∉ w.log
  | .recordStorageUnavailable _ incidentId => ¬ Blank incidentId ∧ .opened incidentId ∉ w.log
  | _ => True

inductive Reachable (p : Platform) : World → Prop where
  | new : Reachable p World.new
  | step {w : World} (e : Event) : Reachable p w → Fresh w e → Reachable p (step p w e)

/-- The token that was armed last and neither replaced nor completed since. -/
def currentToken : List Act → Option String
  | [] => none
  | .armed token :: _ => some token
  | .completed _ :: _ => none
  | _ :: log => currentToken log

def completedTokens (log : List Act) : List String :=
  log.filterMap fun act =>
    match act with
    | .completed token => some token
    | _ => none

/-- The incidents that were opened and not resolved since. -/
def openIncidents : List Act → List String
  | [] => []
  | .opened incident :: log => incident :: openIncidents log
  | .resolved incident :: log => (openIncidents log).erase incident
  | _ :: log => openIncidents log

/-- The stored value of a key, or that of the empty row. -/
def stored (rows : Rows) (key : String) : Value := value (rows.drain.getD emptyRow) key

/-- The stored incident is open under this identity. -/
def OpenIncident (rows : Rows) (incident : Fields) : Prop :=
  rows.incident = some incident ∧ value incident "status" = .str "open"

/-- The admissions that a call read accept this custody. -/
def Admits (c : Call) (sourceId : String) (frontier : ℤ) : Prop :=
  ∃ a, c.admissions = [a] ∧ a.sourceId = sourceId ∧ a.frontier = frontier

/-- Exactly one loss of the source fills the interval. -/
def LossFills (facts : List LossFact) (sourceId : String) (start stop : ℤ) : Prop :=
  (matchingLosses facts sourceId start stop).length = 1

/-- What each phase relies on. -/
def CallOk (c : Call) : Prop :=
  match c.phase with
  | .bound _ _ => True
  | .accepted sourceId frontier => Admits c sourceId frontier
  | .losses sourceId frontier _ => Admits c sourceId frontier
  | .ready custody =>
    ∀ a ∈ custody, Admits c a.sourceId a.frontier ∧
      ∀ stop ∈ a.confirmedLossEnd, LossFills c.losses a.sourceId c.target.frontier stop

/-- An event that touches neither row; a commit may be one, of a call that is not ready. -/
def Event.Inner : Event → Prop
  | .updateObservations _ _ | .recordInfo _ _ | .recordStorageUnavailable _ _
  | .armPending _ _ _ => False
  | _ => True

/-- What an accepted event does to the contents of the rows, and the acts it adds to the log. -/
inductive Changed (w : World) (r : Row) (i : Option Incident) :
    Event → List Act → Row → Option Incident → Prop where
  | inner (e : Event) : e.Inner → Changed w r i e [] r i
  | observed (ring battery : Option Observed) (o b : Option (ℤ × String)) :
    Changed w r i (.updateObservations ring battery) [] { r with ring := o, battery := b } i
  | info (unread : Value) (z : ℤ) (time : String) :
    Changed w r i (.recordInfo unread (.str time)) (resolutions i)
      { r with ring := some (z, time) } (i.map (Incident.resolve time))
  | unavailable (time incidentId : String) :
    Changed w r i (.recordStorageUnavailable (.str time) incidentId) (openings incidentId i)
      { r with ring := none } (some (Incident.reopen incidentId time i))
  | kept (source : String) (n : ℤ) (token : String) : r.Bound source n →
    Changed w r i (.armPending (.str source) (.int n) token) [] r i
  | armed (source : String) (n : ℤ) (token : String) : ¬ r.Bound source n →
    Changed w r i (.armPending (.str source) (.int n) token) [.armed token]
      { r with pending := some ⟨token, source, n⟩ } i
  | completed (index : ℕ) (c : Call) (custody : AcceptedDrainCustody) (b : Pending) (cursor : ℤ)
    (observed completed : String) : w.calls[index]? = some c → c.phase = .ready (some custody) →
    c.drain = ⟨.ringInfo (.int cursor) (.int cursor), .str observed, .str completed⟩ →
    CompletedBy r b cursor c.target.frontier custody →
    Changed w r i (.commit index) [.completed b.eventId]
      { r with
        ring := some (0, observed)
        lastDrain := some (b.eventId, completed)
        pending := none } i
  | emptied (index : ℕ) (observed : String) :
    Changed w r i (.commit index) [] { r with ring := some (0, observed) } i

section Steps

variable {p : Platform} {w w' : World} {r : Row} {i : Option Incident}

theorem appendClosure_ok {target : Target} (h : appendClosure w target = .ok w') :
    w'.rows = w.rows ∧ w'.calls = w.calls ∧ w'.log = w.log := by
  cases target with
  | append nextSequence reason =>
    simp only [appendClosure, bind_ok, pure_ok] at h
    obtain ⟨_, -, rfl⟩ := h
    exact ⟨rfl, rfl, rfl⟩
  | recovered closure =>
    obtain rfl := pure_ok.mp h
    exact ⟨rfl, rfl, rfl⟩

theorem startCall_ok {target : Target} {drain : Option Drain} (h : startCall p w target drain = .ok w') :
    w'.rows = w.rows ∧ w'.log = w.log ∧
      (w'.calls = w.calls ∨ ∃ d binding,
        w'.calls = w.calls ++ [⟨target, d, firstPhase binding, [], []⟩]) := by
  have hplain : appendClosure w target = .ok w' → w'.rows = w.rows ∧ w'.log = w.log ∧
      (w'.calls = w.calls ∨ ∃ d binding,
        w'.calls = w.calls ++ [⟨target, d, firstPhase binding, [], []⟩]) := by
    intro hok
    obtain ⟨hrows, hcalls, hlog⟩ := appendClosure_ok hok
    exact ⟨hrows, hlog, .inl hcalls⟩
  cases drain with
  | none => exact hplain h
  | some d =>
    simp only [startCall] at h
    split at h
    · simp only [bind_ok, pure_ok] at h
      obtain ⟨binding, -, rfl⟩ := h
      exact ⟨rfl, rfl, .inr ⟨d, binding, rfl⟩⟩
    · exact hplain h

theorem advance_ok {index : ℕ} {next : Call → Except String Call} (h : advance w index next = .ok w') :
    w'.rows = w.rows ∧ w'.log = w.log ∧
      (w'.calls = w.calls ∨ ∃ c c', w.calls[index]? = some c ∧ next c = .ok c' ∧
        w'.calls = w.calls.set index c') := by
  unfold advance at h
  split at h
  · obtain rfl := pure_ok.mp h
    exact ⟨rfl, rfl, .inl rfl⟩
  · rename_i c hc
    simp only [bind_ok, pure_ok] at h
    obtain ⟨c', hnext, rfl⟩ := h
    exact ⟨rfl, rfl, .inr ⟨c, c', hc, hnext, rfl⟩⟩

/-- A transaction that commits did what the completion returned. -/
theorem transact_ok {c : Call} {custody : Option AcceptedDrainCustody}
    (h : transact p w c custody = .ok w') :
    ∃ acts, completeInTransaction p w.rows c.drain c.target.frontier custody = .ok (w'.rows, acts) ∧
      w'.log = acts ++ w.log ∧ w'.calls = w.calls := by
  simp only [transact] at h
  split at h
  · simp only [bind_ok, pure_ok] at h
    obtain ⟨_, -, ⟨rows, acts⟩, hcompleted, rfl⟩ := h
    exact ⟨acts, hcompleted, rfl, rfl⟩
  · simp only [bind_ok, pure_ok] at h
    obtain ⟨⟨rows, acts⟩, hcompleted, rfl⟩ := h
    exact ⟨acts, hcompleted, rfl, rfl⟩

theorem commitCall_ok {index : ℕ} (h : commitCall p w index = .ok w') :
    w' = w ∨ ∃ c custody acts, w.calls[index]? = some c ∧ c.phase = .ready custody ∧
      completeInTransaction p w.rows c.drain c.target.frontier custody = .ok (w'.rows, acts) ∧
      w'.log = acts ++ w.log ∧ w'.calls = w.calls.eraseIdx index := by
  unfold commitCall at h
  split at h
  · exact .inl (pure_ok.mp h).symm
  · rename_i c hc
    split at h
    · rename_i custody hphase
      obtain ⟨acts, hcompleted, hlog, hcalls⟩ := transact_ok h
      exact .inr ⟨c, custody, acts, hc, hphase, hcompleted, hlog, hcalls⟩
    · exact .inl (pure_ok.mp h).symm

/-- Every accepted event does one of these things to the rows. -/
theorem call_changed (h : Holds p w.rows r i) {e : Event} (hfresh : Fresh w e)
    (hok : call p w e = .ok w') :
    ∃ acts r' i', Changed w r i e acts r' i' ∧ Holds p w'.rows r' i' ∧ w'.log = acts ++ w.log := by
  have hinner : e.Inner → w'.rows = w.rows → w'.log = w.log →
      ∃ acts r' i', Changed w r i e acts r' i' ∧ Holds p w'.rows r' i' ∧ w'.log = acts ++ w.log := by
    intro he hrows hlog
    exact ⟨[], r, i, .inner e he, hrows ▸ h, hlog⟩
  cases e with
  | updateObservations ring battery =>
    simp only [call, bind_ok, pure_ok] at hok
    obtain ⟨rows, hrows, rfl⟩ := hok
    obtain ⟨o, b, hholds⟩ := updateObservations_ok h hrows
    exact ⟨_, _, _, .observed ring battery o b, hholds, rfl⟩
  | recordInfo unread observedAt =>
    simp only [call, bind_ok, pure_ok] at hok
    obtain ⟨⟨rows, acts⟩, hrows, rfl⟩ := hok
    obtain ⟨z, time, rfl, hholds, rfl⟩ := recordInfo_ok h hrows
    exact ⟨_, _, _, .info unread z time, hholds, rfl⟩
  | recordStorageUnavailable observedAt incidentId =>
    simp only [call, bind_ok, pure_ok] at hok
    obtain ⟨⟨rows, acts⟩, hrows, rfl⟩ := hok
    obtain ⟨time, rfl, hholds, rfl⟩ := recordStorageUnavailable_ok h hfresh.1 hrows
    exact ⟨_, _, _, .unavailable time incidentId, hholds, rfl⟩
  | armPending sourceId frontier token =>
    simp only [call, bind_ok, pure_ok] at hok
    obtain ⟨⟨rows, acts⟩, hrows, rfl⟩ := hok
    obtain ⟨source, n, rfl, rfl, hcases⟩ := armPending_ok h hfresh.1 hrows
    rcases hcases with ⟨hbound, rfl, rfl⟩ | ⟨hbound, hholds, rfl⟩
    · exact ⟨_, _, _, .kept source n token hbound, h, rfl⟩
    · exact ⟨_, _, _, .armed source n token hbound, hholds, rfl⟩
  | start target drain =>
    obtain ⟨hrows, hlog, -⟩ := startCall_ok hok
    exact hinner trivial hrows hlog
  | readAdmissions index admissions =>
    obtain ⟨hrows, hlog, -⟩ := advance_ok hok
    exact hinner trivial hrows hlog
  | readBinding index =>
    simp only [call, bind_ok] at hok
    obtain ⟨binding, -, hok⟩ := hok
    obtain ⟨hrows, hlog, -⟩ := advance_ok hok
    exact hinner trivial hrows hlog
  | readLosses index ledger =>
    obtain ⟨hrows, hlog, -⟩ := advance_ok hok
    exact hinner trivial hrows hlog
  | commit index =>
    rcases commitCall_ok hok with rfl | ⟨c, custody, acts, hc, hphase, hcompleted, hlog, -⟩
    · exact hinner trivial rfl rfl
    · obtain ⟨cursor, observed, completed, hdrain, -, hcases⟩ := completeInTransaction_ok h hcompleted
      rcases hcases with ⟨a, b, rfl, hby, hholds, rfl⟩ | ⟨-, hholds, rfl⟩
      · exact ⟨_, _, _, .completed index c a b cursor observed completed hc hphase hdrain hby, hholds,
          hlog⟩
      · exact ⟨_, _, _, .emptied index observed, hholds, hlog⟩
  | raise index =>
    obtain rfl := pure_ok.mp hok
    exact hinner trivial rfl rfl
  | crash =>
    obtain rfl := pure_ok.mp hok
    exact hinner trivial rfl rfl

theorem onAdmissions_ok {c : Call} (h : CallOk c) (admissions : Option (List Admitted)) :
    CallOk (c.onAdmissions admissions) := by
  unfold Call.onAdmissions
  split
  · rename_i sourceId frontier _
    dsimp only [acceptedDrainBinding]
    split
    · rename_i hnone
      simp [CallOk]
    · rename_i accepted haccepted
      split at haccepted
      · rename_i admitted hread
        split at haccepted
        · cases haccepted
        · rename_i hsame
          obtain rfl := Option.some.inj haccepted
          simp only [not_or, not_not] at hsame
          exact ⟨admitted, hread, hsame.1, rfl⟩
      · cases haccepted
  · exact h

theorem onBinding_ok {c c' : Call} (h : CallOk c) {binding : Option (String × ℤ)}
    (hok : c.onBinding binding = .ok c') : CallOk c' := by
  unfold Call.onBinding at hok
  split at hok
  · rename_i sourceId frontier hphase
    have hadmits : Admits c sourceId frontier := by simpa only [CallOk, hphase] using h
    simp only [bind_ok] at hok
    obtain ⟨cursor, -, hok⟩ := hok
    cases cursor with
    | none =>
      obtain rfl := pure_ok.mp hok
      rintro a ha
      obtain rfl := Option.some.inj ha
      exact ⟨hadmits, by simp⟩
    | some cursor =>
      obtain rfl := pure_ok.mp hok
      exact hadmits
  · obtain rfl := pure_ok.mp hok
    exact h

theorem onLosses_ok {c c' : Call} (h : CallOk c) {ledger : Option (List LossFact)}
    (hok : c.onLosses p ledger = .ok c') : CallOk c' := by
  unfold Call.onLosses at hok
  split at hok
  · rename_i sourceId frontier cursor hphase
    have hadmits : Admits c sourceId frontier := by simpa only [CallOk, hphase] using h
    simp only [bind_ok, pure_ok] at hok
    obtain ⟨facts, -, rfl⟩ := hok
    intro a ha
    obtain rfl := Option.some.inj ha
    refine ⟨hadmits, ?_⟩
    intro stop hstop
    simp only [confirmedLossEnd, Option.mem_def, Option.ite_none_right_eq_some] at hstop
    obtain ⟨hone, hsame⟩ := hstop
    obtain rfl := Option.some.inj hsame
    exact hone
  · obtain rfl := pure_ok.mp hok
    exact h

/-- The calls in flight keep what their phases rely on. -/
theorem call_calls (h : ∀ c ∈ w.calls, CallOk c) {e : Event} (hok : call p w e = .ok w') :
    ∀ c ∈ w'.calls, CallOk c := by
  have hadvance : ∀ index (next : Call → Except String Call),
      (∀ c c', CallOk c → next c = .ok c' → CallOk c') →
      advance w index next = .ok w' → ∀ c ∈ w'.calls, CallOk c := by
    intro index next hnext hok
    obtain ⟨-, -, hcalls | ⟨c, c', hc, hc', hcalls⟩⟩ := advance_ok hok
    · rwa [hcalls]
    · rw [hcalls]
      intro d hd
      rcases List.mem_or_eq_of_mem_set hd with hd | rfl
      · exact h d hd
      · exact hnext c d (h c (List.mem_of_getElem? hc)) hc'
  cases e with
  | updateObservations | recordInfo | recordStorageUnavailable | armPending =>
    simp only [call, bind_ok, pure_ok] at hok
    obtain ⟨_, -, rfl⟩ := hok
    exact h
  | start target drain =>
    obtain ⟨-, -, hcalls | ⟨d, binding, hcalls⟩⟩ := startCall_ok hok
    · rwa [hcalls]
    · rw [hcalls]
      intro c hc
      rcases List.mem_append.mp hc with hc | hc
      · exact h c hc
      · obtain rfl := List.mem_singleton.mp hc
        cases binding with
        | none => simp [CallOk, firstPhase]
        | some binding => trivial
  | readAdmissions index admissions =>
    refine hadvance index _ ?_ hok
    rintro c c' hc hc'
    obtain rfl := pure_ok.mp hc'
    exact onAdmissions_ok hc admissions
  | readBinding index =>
    simp only [call, bind_ok] at hok
    obtain ⟨binding, -, hok⟩ := hok
    exact hadvance index _ (fun c c' hc hc' => onBinding_ok hc hc') hok
  | readLosses index ledger => exact hadvance index _ (fun c c' hc hc' => onLosses_ok hc hc') hok
  | commit index =>
    rcases commitCall_ok hok with rfl | ⟨c, custody, acts, -, -, -, -, hcalls⟩
    · exact h
    · rw [hcalls]
      exact fun d hd => h d (List.mem_of_mem_eraseIdx hd)
  | raise index =>
    obtain rfl := pure_ok.mp hok
    exact fun d hd => h d (List.mem_of_mem_eraseIdx hd)
  | crash =>
    obtain rfl := pure_ok.mp hok
    simp

end Steps

def armedTokens (log : List Act) : List String :=
  log.filterMap fun act =>
    match act with
    | .armed token => some token
    | _ => none

/-- Every completion was of the token that was current then. -/
def Once : List Act → Prop
  | [] => True
  | .completed token :: log => currentToken log = some token ∧ Once log
  | _ :: log => Once log

/-- The identity of an open incident. -/
def openIdentity : Option Incident → Option String
  | none => none
  | some i => if i.resolvedAt = none then some i.incidentId else none

/-- The log tells what the rows contain. -/
structure Logged (log : List Act) (r : Row) (i : Option Incident) : Prop where
  token : currentToken log = r.pending.map Pending.eventId
  once : Once log
  armed : (armedTokens log).Nodup
  incidents : openIncidents log = (openIdentity i).toList

section Runs

variable {p : Platform} {w w' : World} {r : Row} {i : Option Incident} {log : List Act}

theorem mem_armedTokens {token : String} : token ∈ armedTokens log ↔ .armed token ∈ log := by
  rw [armedTokens, List.mem_filterMap]
  constructor
  · rintro ⟨act, hact, hsome⟩
    cases act with
    | armed t =>
      obtain rfl := Option.some.inj hsome
      exact hact
    | _ => cases hsome
  · exact fun h => ⟨_, h, rfl⟩

theorem armed_of_current {token : String} (h : currentToken log = some token) :
    token ∈ armedTokens log := by
  induction log with
  | nil => cases h
  | cons act log ih =>
    cases act with
    | armed t =>
      obtain rfl := Option.some.inj h
      simp [armedTokens]
    | completed t => cases h
    | opened incident => exact ih h
    | resolved incident => exact ih h

theorem armed_of_completed (h : Once log) {token : String} (ht : token ∈ completedTokens log) :
    token ∈ armedTokens log := by
  induction log with
  | nil => simp [completedTokens] at ht
  | cons act log ih =>
    cases act with
    | armed t => exact List.mem_cons_of_mem t (ih h ht)
    | completed t =>
      rcases List.mem_cons.mp ht with rfl | ht
      · change token ∈ armedTokens log
        exact armed_of_current h.1
      · exact ih h.2 ht
    | opened incident => exact ih h ht
    | resolved incident => exact ih h ht

/-- The current token was not completed yet. -/
theorem current_not_completed (h : Once log) (harmed : (armedTokens log).Nodup) {token : String}
    (hcurrent : currentToken log = some token) : token ∉ completedTokens log := by
  induction log with
  | nil => cases hcurrent
  | cons act log ih =>
    cases act with
    | armed t =>
      obtain rfl := Option.some.inj hcurrent
      intro hcompleted
      have harmedBefore : t ∈ armedTokens log := @armed_of_completed log h t hcompleted
      exact (List.nodup_cons.mp harmed).1 harmedBefore
    | completed t => cases hcurrent
    | opened incident => exact ih h harmed hcurrent
    | resolved incident => exact ih h harmed hcurrent

theorem completed_nodup (h : Once log) (harmed : (armedTokens log).Nodup) :
    (completedTokens log).Nodup := by
  induction log with
  | nil => exact List.nodup_nil
  | cons act log ih =>
    cases act with
    | armed t => exact ih h (List.nodup_cons.mp harmed).2
    | completed t =>
      exact List.nodup_cons.mpr ⟨current_not_completed h.2 harmed h.1, ih h.2 harmed⟩
    | opened incident => exact ih h harmed
    | resolved incident => exact ih h harmed

theorem Once.current (h : Once log) {after before : List Act} {token : String}
    (hlog : log = after ++ .completed token :: before) : currentToken before = some token := by
  induction after generalizing log with
  | nil =>
    subst hlog
    exact h.1
  | cons act after ih =>
    subst hlog
    cases act with
    | completed t => exact ih h.2 rfl
    | armed t => exact @ih (after ++ .completed token :: before) h rfl
    | opened incident => exact @ih (after ++ .completed token :: before) h rfl
    | resolved incident => exact @ih (after ++ .completed token :: before) h rfl

theorem Logged.changed (h : Logged log r i) {e : Event} {acts : List Act} {r' : Row}
    {i' : Option Incident} (hlog : w.log = log) (hfresh : Fresh w e)
    (hchanged : Changed w r i e acts r' i') : Logged (acts ++ log) r' i' := by
  subst hlog
  cases hchanged with
  | inner e he => exact h
  | observed ring battery o b => exact ⟨h.token, h.once, h.armed, h.incidents⟩
  | info unread z time =>
    cases i with
    | none => exact ⟨h.token, h.once, h.armed, h.incidents⟩
    | some x =>
      by_cases hopen : x.resolvedAt = none
      · have hincidents : openIncidents w.log = [x.incidentId] := by
          simpa [openIdentity, hopen] using h.incidents
        simp only [resolutions, if_pos hopen]
        refine ⟨h.token, h.once, h.armed, ?_⟩
        simp [openIncidents, hincidents, openIdentity, Incident.resolve, hopen]
      · simp only [resolutions, if_neg hopen, Incident.resolve, Option.map_some]
        exact ⟨h.token, h.once, h.armed, h.incidents⟩
  | unavailable time incidentId =>
    have hnew : openIdentity i = none → Logged (.opened incidentId :: w.log)
        { r with ring := none } (some ⟨incidentId, time, none⟩) := by
      intro hnone
      refine ⟨h.token, h.once, h.armed, ?_⟩
      have hincidents : openIncidents w.log = [] := by simpa [hnone] using h.incidents
      simp [openIncidents, hincidents, openIdentity]
    cases i with
    | none => exact hnew rfl
    | some x =>
      by_cases hopen : x.resolvedAt = none
      · simp only [openings, if_pos hopen, Incident.reopen]
        exact ⟨h.token, h.once, h.armed, h.incidents⟩
      · simp only [openings, if_neg hopen, Incident.reopen]
        exact hnew (if_neg hopen)
  | kept source n token hbound => exact h
  | armed source n token hbound =>
    have hfreshToken : token ∉ armedTokens w.log := fun hmem => hfresh.2 (mem_armedTokens.mp hmem)
    exact ⟨rfl, h.once, List.nodup_cons.mpr ⟨hfreshToken, h.armed⟩, h.incidents⟩
  | completed index c custody b cursor observed completed hc hphase hdrain hby =>
    have hcurrent : currentToken w.log = some b.eventId := by
      rw [h.token, hby.pending]
      rfl
    exact ⟨rfl, ⟨hcurrent, h.once⟩, h.armed, h.incidents⟩
  | emptied index observed => exact ⟨h.token, h.once, h.armed, h.incidents⟩

structure Inv (p : Platform) (w : World) (r : Row) (i : Option Incident) : Prop where
  holds : Holds p w.rows r i
  logged : Logged w.log r i
  calls : ∀ c ∈ w.calls, CallOk c

theorem refuse_rows (w : World) (e : Event) :
    (w.refuse e).rows = w.rows ∧ (w.refuse e).queue = w.queue ∧ (w.refuse e).log = w.log := by
  cases e <;> exact ⟨rfl, rfl, rfl⟩

theorem refuse_calls {c : Call} {e : Event} (h : c ∈ (w.refuse e).calls) : c ∈ w.calls := by
  cases e <;> first | exact h | exact List.mem_of_mem_eraseIdx h

theorem Inv.step (h : Inv p w r i) {e : Event} (hfresh : Fresh w e) :
    ∃ r' i', Inv p (step p w e) r' i' := by
  unfold PublicDrain.step
  cases hcall : call p w e with
  | error message =>
    obtain ⟨hrows, -, hlog⟩ := refuse_rows w e
    exact ⟨r, i, hrows ▸ h.holds, hlog ▸ h.logged, fun c hc => h.calls c (refuse_calls hc)⟩
  | ok w' =>
    obtain ⟨acts, r', i', hchanged, hholds, hlog⟩ := call_changed h.holds hfresh hcall
    refine ⟨r', i', hholds, ?_, call_calls h.calls hcall⟩
    rw [hlog]
    exact h.logged.changed rfl hfresh hchanged

theorem inv_new (p : Platform) : Inv p World.new Row.empty none where
  holds := ⟨.inr ⟨rfl, rfl⟩, Row.empty_valid, rfl, by simp⟩
  logged := ⟨rfl, trivial, List.nodup_nil, rfl⟩
  calls := by simp [World.new]

theorem reachable_inv (h : Reachable p w) : ∃ r i, Inv p w r i := by
  induction h with
  | new => exact ⟨_, _, inv_new p⟩
  | step e _ hfresh ih =>
    obtain ⟨r, i, hinv⟩ := ih
    exact hinv.step hfresh

end Runs

/-- What holds of every state: the stored row is valid and holds the current token, no token is
completed twice or after another replaced it, and at most one incident is open. -/
structure StateFacts (p : Platform) (w : World) : Prop where
  row : ∀ row ∈ w.rows.drain, validateRow p row = .ok ()
  token : stored w.rows "pending_event_id" = textValue (currentToken w.log)
  completedOnce : (completedTokens w.log).Nodup
  notReplaced : ∀ after token before, w.log = after ++ .completed token :: before →
    currentToken before = some token
  oneOpen : (openIncidents w.log).length ≤ 1
  opened : ∀ identity, identity ∈ openIncidents w.log ↔
    ∃ incident, OpenIncident w.rows incident ∧ value incident "incident_id" = .str identity

/-- A completing call's commit completes the pending token. -/
structure Completion (p : Platform) (w w' : World) (c : Call) (custody : AcceptedDrainCustody)
    (cursor : ℤ) (token completed : String) : Prop where
  ready : c.phase = .ready (some custody)
  admitted : Admits c custody.sourceId custody.frontier
  pending : pendingBinding p w.rows = .ok (some (custody.sourceId, custody.frontier))
  pendingToken : stored w.rows "pending_event_id" = .str token
  closure : c.target.frontier = custody.frontier
  zeroUnread : c.drain.info = .ringInfo (.int cursor) (.int cursor)
  covered : cursor = custody.frontier ∨
    (custody.frontier < cursor ∧ LossFills c.losses custody.sourceId custody.frontier cursor)
  lastDrain : stored w'.rows "last_drain" =
    stamped "event_id" "completed_at" (.str token) (.str completed)
  disarmed : pendingBinding p w'.rows = .ok none
  logged : w'.log = .completed token :: w.log

/-- An INFO, a storage failure or an observation. -/
def Event.Observes : Event → Prop
  | .updateObservations _ _ | .recordInfo _ _ | .recordStorageUnavailable _ _ => True
  | _ => False

/-- The storage incident after an INFO at this time. -/
def resolvedFields (incident : Fields) (observedAt : Value) : Fields :=
  assign (assign incident "status" (.str "resolved")) "resolved_at" observedAt

/-- What an accepted event does. -/
structure StepFacts (p : Platform) (w : World) (e : Event) (w' : World) : Prop where
  armed : ∀ sourceId frontier token, e = .armPending sourceId frontier token →
    ∃ source n, sourceId = .str source ∧ frontier = .int n ∧
      pendingBinding p w'.rows = .ok (some (source, n)) ∧
      (pendingBinding p w.rows = .ok (some (source, n)) → w'.rows = w.rows ∧ w'.log = w.log) ∧
      (pendingBinding p w.rows ≠ .ok (some (source, n)) →
        stored w'.rows "pending_event_id" = .str token ∧ w'.log = .armed token :: w.log)
  drained : (stored w'.rows "last_drain" ≠ stored w.rows "last_drain" ∨
      ∃ token, w'.log = .completed token :: w.log) →
    ∃ index c custody cursor token completed, e = .commit index ∧ w.calls[index]? = some c ∧
      Completion p w w' c custody cursor token completed
  observed : e.Observes →
    ∀ key ∈ ["last_drain", "pending_event_id", "pending_source_id", "pending_frontier"],
      stored w'.rows key = stored w.rows key
  informed : ∀ unread observedAt, e = .recordInfo unread observedAt → ∀ incident,
    OpenIncident w.rows incident → w'.rows.incident = some (resolvedFields incident observedAt)
  keptOpen : (∀ unread observedAt, e ≠ .recordInfo unread observedAt) → ∀ incident,
    OpenIncident w.rows incident → w'.rows.incident = some incident

/-- What a refused event leaves as it was. -/
structure Unchanged (w w' : World) : Prop where
  rows : w'.rows = w.rows
  queue : w'.queue = w.queue
  log : w'.log = w.log

section Facts

variable {p : Platform} {w w' : World} {r : Row} {i : Option Incident}

theorem stored_eq {rows : Rows} (h : Holds p rows r i) (key : String) :
    stored rows key = value r.fields key := by
  rcases h.drain with hsome | ⟨hnone, rfl⟩
  · simp [stored, hsome]
  · simp only [stored, hnone, Option.getD_none]
    rfl

theorem openIncident_iff {rows : Rows} (h : Holds p rows r i) {incident : Fields} :
    OpenIncident rows incident ↔ ∃ x, i = some x ∧ x.resolvedAt = none ∧ incident = x.fields := by
  rw [OpenIncident, h.incident]
  constructor
  · rintro ⟨hsome, hstatus⟩
    obtain ⟨x, hx, rfl⟩ := Option.map_eq_some_iff.mp hsome
    refine ⟨x, hx, x.status_open.mp ?_, rfl⟩
    rw [hstatus]
    rfl
  · rintro ⟨x, rfl, hopen, rfl⟩
    exact ⟨rfl, asText_eq_some.mp (x.status_open.mpr hopen)⟩

theorem Inv.stateFacts (h : Inv p w r i) : StateFacts p w where
  row := by
    rintro row hrow
    rcases h.holds.drain with hsome | ⟨hnone, -⟩
    · rw [hsome] at hrow
      obtain rfl := Option.some.inj hrow
      exact validateRow_fields h.holds.row
    · rw [hnone] at hrow
      cases hrow
  token := by rw [stored_eq h.holds, Row.value_eventId, h.logged.token]
  completedOnce := completed_nodup h.logged.once h.logged.armed
  notReplaced after token before hlog := h.logged.once.current hlog
  oneOpen := by
    rw [h.logged.incidents]
    cases openIdentity i <;> simp
  opened identity := by
    rw [h.logged.incidents]
    simp only [Option.mem_toList, openIncident_iff h.holds]
    cases i with
    | none => simp [openIdentity]
    | some x =>
      by_cases hopen : x.resolvedAt = none
      · simp [openIdentity, hopen, Incident.value_incidentId]
      · simp [openIdentity, hopen]

theorem pendingBinding_of_bound {rows : Rows} (h : Holds p rows r i) {source : String} {n : ℤ} :
    pendingBinding p rows = .ok (some (source, n)) ↔ r.Bound source n := by
  rw [pendingBinding_eq h]
  simp [Row.Bound, Option.map_eq_some_iff]

/-- The facts of one change of the contents. -/
theorem Inv.stepFacts (h : Inv p w r i) {e : Event} {acts : List Act} {r' : Row}
    {i' : Option Incident} (hchanged : Changed w r i e acts r' i') (hok : call p w e = .ok w')
    (hholds : Holds p w'.rows r' i') (hlog : w'.log = acts ++ w.log) : StepFacts p w e w' := by
  have hsame : i' = i → ∀ incident, OpenIncident w.rows incident → w'.rows.incident = some incident := by
    rintro rfl incident hopen
    rw [hholds.incident, ← h.holds.incident]
    exact hopen.1
  have hdrain : r'.lastDrain = r.lastDrain → stored w'.rows "last_drain" = stored w.rows "last_drain" := by
    intro hkept
    rw [stored_eq hholds, stored_eq h.holds, Row.value_lastDrain, Row.value_lastDrain, hkept]
  have hkept : r'.lastDrain = r.lastDrain → r'.pending = r.pending →
      ∀ key ∈ ["last_drain", "pending_event_id", "pending_source_id", "pending_frontier"],
        stored w'.rows key = stored w.rows key := by
    intro hlast hpending key hkey
    rw [stored_eq hholds, stored_eq h.holds]
    simp only [List.mem_cons, List.not_mem_nil, or_false] at hkey
    rcases hkey with rfl | rfl | rfl | rfl
    · rw [Row.value_lastDrain, Row.value_lastDrain, hlast]
    · rw [Row.value_eventId, Row.value_eventId, hpending]
    · rw [Row.value_sourceId, Row.value_sourceId, hpending]
    · rw [Row.value_frontier, Row.value_frontier, hpending]
  have hquiet : r'.lastDrain = r.lastDrain → (∀ token, acts ≠ [.completed token]) →
      ¬ (stored w'.rows "last_drain" ≠ stored w.rows "last_drain" ∨
        ∃ token, w'.log = .completed token :: w.log) := by
    rintro hlast hacts (hdiffers | ⟨token, hcompleted⟩)
    · exact hdiffers (hdrain hlast)
    · rw [hlog] at hcompleted
      exact hacts token (List.append_cancel_right hcompleted)
  cases hchanged with
  | inner e he =>
    refine ⟨?_, fun hmoved => absurd hmoved (hquiet rfl (by simp)), ?_, ?_, fun _ => hsame rfl⟩
    · rintro sourceId frontier token rfl
      exact he.elim
    · intro hobserves
      cases e <;> first | exact hobserves.elim | exact he.elim
    · rintro unread observedAt rfl
      exact he.elim
  | observed ring battery o b =>
    exact ⟨by simp, fun hmoved => absurd hmoved (hquiet rfl (by simp)), fun _ => hkept rfl rfl,
      by simp, fun _ => hsame rfl⟩
  | info unread z time =>
    refine ⟨by simp, fun hmoved => absurd hmoved (hquiet rfl ?_), fun _ => hkept rfl rfl, ?_,
      fun hnot => absurd rfl (hnot unread (.str time))⟩
    · intro token hacts
      cases i with
      | none => cases hacts
      | some x =>
        simp only [resolutions] at hacts
        split at hacts <;> simp at hacts
    · rintro unread' observedAt hevent incident hopen
      obtain ⟨rfl, rfl⟩ := Event.recordInfo.inj hevent
      obtain ⟨x, rfl, hunresolved, rfl⟩ := (openIncident_iff h.holds).mp hopen
      rw [hholds.incident]
      simp [Incident.resolve, hunresolved, resolvedFields, assign, Incident.fields, textValue]
  | unavailable time incidentId =>
    refine ⟨by simp, fun hmoved => absurd hmoved (hquiet rfl ?_), fun _ => hkept rfl rfl, by simp, ?_⟩
    · intro token hacts
      cases i with
      | none => cases hacts
      | some x =>
        simp only [openings] at hacts
        split at hacts <;> simp at hacts
    · rintro - incident hopen
      obtain ⟨x, rfl, hunresolved, rfl⟩ := (openIncident_iff h.holds).mp hopen
      rw [hholds.incident]
      simp [Incident.reopen, hunresolved]
  | kept source n token hbound =>
    refine ⟨?_, fun hmoved => absurd hmoved (hquiet rfl (by simp)), False.elim, by simp,
      fun _ => hsame rfl⟩
    rintro sourceId frontier token' hevent
    obtain ⟨rfl, rfl, rfl⟩ := Event.armPending.inj hevent
    have hbinding := (pendingBinding_of_bound h.holds).mpr hbound
    refine ⟨source, n, rfl, rfl, (pendingBinding_of_bound hholds).mpr hbound, fun _ => ⟨?_, hlog⟩,
      fun hnot => absurd hbinding hnot⟩
    simp only [call, bind_ok, pure_ok, armPending, h.holds.rowOrEmpty, Except.ok.injEq,
      exists_eq_left'] at hok
    obtain ⟨result, ⟨_, -, _, -, hresult⟩, rfl⟩ := hok
    have hbinds : Binds r.fields (Value.str source).asText (Value.int n).asInt :=
      Row.binds_iff.mpr hbound
    rw [if_pos hbinds] at hresult
    obtain rfl := pure_ok.mp hresult
    rfl
  | armed source n token hbound =>
    refine ⟨?_, fun hmoved => absurd hmoved (hquiet rfl (by simp)), False.elim, by simp,
      fun _ => hsame rfl⟩
    rintro sourceId frontier token' hevent
    obtain ⟨rfl, rfl, rfl⟩ := Event.armPending.inj hevent
    refine ⟨source, n, rfl, rfl, (pendingBinding_of_bound hholds).mpr ⟨_, rfl, rfl, rfl⟩,
      fun hbinding => absurd ((pendingBinding_of_bound h.holds).mp hbinding) hbound, fun _ => ⟨?_, hlog⟩⟩
    rw [stored_eq hholds]
    rfl
  | completed index c custody b cursor observed completed hc hphase hdrains hby =>
    have hcall : CallOk c := h.calls c (List.mem_of_getElem? hc)
    simp only [CallOk, hphase] at hcall
    obtain ⟨hadmits, hloss⟩ := hcall custody rfl
    have hclosure : c.target.frontier = custody.frontier := hby.closure.trans hby.frontier.symm
    refine ⟨by simp, fun _ => ⟨index, c, custody, cursor, b.eventId, completed, rfl, hc, ?_⟩,
      False.elim, by simp, fun _ => hsame rfl⟩
    constructor
    · exact hphase
    · exact hadmits
    · exact (pendingBinding_of_bound h.holds).mpr ⟨b, hby.pending, hby.source.symm, hby.frontier.symm⟩
    · rw [stored_eq h.holds, Row.value_eventId, hby.pending]
      rfl
    · exact hclosure
    · rw [hdrains]
    · rcases hby.covered with hsame | ⟨hbeyond, hend⟩
      · exact .inl (hsame.trans hclosure)
      · refine .inr ⟨hclosure ▸ hbeyond, ?_⟩
        rw [← hclosure]
        exact hloss cursor hend
    · rw [stored_eq hholds]
      rfl
    · rw [pendingBinding_eq hholds]
      rfl
    · exact hlog
  | emptied index observed =>
    exact ⟨by simp, fun hmoved => absurd hmoved (hquiet rfl (by simp)), False.elim, by simp,
      fun _ => hsame rfl⟩

end Facts

/-- The drain event is bound to custody and completed at most once, over every run in which the
operations come in any order and between the reads of a completing call. -/
theorem drain_boundToCustody (p : Platform) (w : World) (h : Reachable p w) :
    StateFacts p w ∧ ∀ e, Fresh w e →
      (∀ w', call p w e = .ok w' → StepFacts p w e w') ∧
        ∀ message, call p w e = .error message → Unchanged w (step p w e) := by
  obtain ⟨r, i, hinv⟩ := reachable_inv h
  refine ⟨hinv.stateFacts, fun e hfresh => ⟨?_, ?_⟩⟩
  · intro w' hok
    obtain ⟨acts, r', i', hchanged, hholds, hlog⟩ := call_changed hinv.holds hfresh hok
    exact hinv.stepFacts hchanged hok hholds hlog
  · intro message herror
    obtain ⟨hrows, hqueue, hlog⟩ := refuse_rows w e
    have hstep : step p w e = w.refuse e := by
      unfold step
      rw [herror]
    rw [hstep]
    exact ⟨hrows, hqueue, hlog⟩

def samplePlatform : Platform := ⟨ConfirmedLoss.samplePlatform, fun _ => some true⟩

def sampleSource : String := ConfirmedLoss.sampleAttempt.id

def sampleTime : Value := .str ConfirmedLoss.sampleTime

/-- A drain whose cursor went 20 records past the custody. -/
def sampleDrain : Drain := ⟨.ringInfo (.int 120) (.int 120), sampleTime, sampleTime⟩

def sampleRow : Row := ⟨none, none, none, some ⟨"token", sampleSource, 100⟩⟩

def sampleCall (phase : Phase) (losses : List LossFact) : Call :=
  ⟨.append 100 "drained", sampleDrain, phase, [⟨sampleSource, 0, 100⟩], losses⟩

def twoLosses : List LossFact := [ConfirmedLoss.firstLoss, ConfirmedLoss.secondLoss]

def sampleWorld (calls : List Call) : World := ⟨⟨some sampleRow.fields, none⟩, [], calls, [.armed "token"]⟩

theorem read_twoLosses :
    ConfirmedLoss.readLedger samplePlatform.losses (some twoLosses) = .ok twoLosses := by
  decide +kernel

/-- A call that is about to complete, after two losses were confirmed that start at its frontier. -/
def readyCall : Call := sampleCall (.ready (some ⟨sampleSource, 100, some 120⟩)) twoLosses

theorem readLosses_ready :
    step samplePlatform (sampleWorld [sampleCall (.losses sampleSource 100 120) []])
      (.readLosses 0 (some twoLosses)) = sampleWorld [readyCall] := by
  have hend : confirmedLossEnd twoLosses sampleSource 100 120 = some 120 := by decide +kernel
  have hcall : (sampleCall (.losses sampleSource 100 120) []).onLosses samplePlatform (some twoLosses) =
      .ok readyCall := by
    simp only [Call.onLosses, sampleCall, read_twoLosses, Target.frontier, bind_ok, pure_ok,
      Except.ok.injEq, exists_eq_left', hend]
    rfl
  simp [step, call, advance, sampleWorld, hcall, bind, Except.bind, pure, Except.pure]

theorem reachable_ready : Reachable samplePlatform (sampleWorld [readyCall]) := by
  have harmed : Reachable samplePlatform (sampleWorld []) :=
    Reachable.new.step (.armPending (.str sampleSource) (.int 100) "token") ⟨by decide, by decide⟩
  have hstarted := harmed.step (.start (.append 100 "drained") (some sampleDrain)) trivial
  have hadmitted := hstarted.step (.readAdmissions 0 (some [⟨sampleSource, 0, 100⟩])) trivial
  have hbound : Reachable samplePlatform (sampleWorld [sampleCall (.losses sampleSource 100 120) []]) :=
    hadmitted.step (.readBinding 0) trivial
  exact readLosses_ready ▸ hbound.step (.readLosses 0 (some twoLosses)) trivial

/-- The drain of the sample completes although two losses start at its frontier. -/
theorem one_of_two_losses_completes :
    ¬ ∀ (p : Platform) (w w' : World) (index : ℕ) (c : Call) (source : String) (n cursor : ℤ),
      Reachable p w → call p w (.commit index) = .ok w' →
      stored w'.rows "last_drain" ≠ stored w.rows "last_drain" → w.calls[index]? = some c →
      c.drain.info = .ringInfo (.int cursor) (.int cursor) →
      pendingBinding p w.rows = .ok (some (source, n)) →
      cursor = n ∨ ∃ loss : LossFact,
        (c.losses.filter fun fact => fact.attemptId = source ∧ (fact.startSequence : ℤ) = n) = [loss] ∧
          (loss.endSequence : ℤ) = cursor := by
  intro hclaim
  have hcommit : ∃ w', call samplePlatform (sampleWorld [readyCall]) (.commit 0) = .ok w' ∧
      stored w'.rows "last_drain" ≠ stored (sampleWorld [readyCall]).rows "last_drain" := by
    refine ⟨_, rfl, ?_⟩
    intro hsame
    cases hsame
  obtain ⟨w', hok, hmoved⟩ := hcommit
  rcases hclaim samplePlatform _ w' 0 readyCall sampleSource 100 120 reachable_ready hok hmoved rfl rfl
    rfl with hcursor | ⟨loss, hlosses, -⟩
  · cases hcursor
  · have htwo : (readyCall.losses.filter fun fact =>
        fact.attemptId = sampleSource ∧ (fact.startSequence : ℤ) = 100).length = 2 := by
      decide +kernel
    rw [hlosses] at htwo
    cases htwo

theorem drain_boundToCustody_ready :
    StateFacts samplePlatform (sampleWorld [readyCall]) ∧
      ∀ e, Fresh (sampleWorld [readyCall]) e →
        (∀ w', call samplePlatform (sampleWorld [readyCall]) e = .ok w' →
          StepFacts samplePlatform (sampleWorld [readyCall]) e w') ∧
          ∀ message, call samplePlatform (sampleWorld [readyCall]) e = .error message →
            Unchanged (sampleWorld [readyCall]) (step samplePlatform (sampleWorld [readyCall]) e) :=
  drain_boundToCustody samplePlatform _ reachable_ready

end PublicDrain
