import Mathlib.Data.Finset.Union
import Mathlib.Order.Interval.Finset.Nat
import OmiCollector.BatchAdmission
import OmiCollector.Checks
import OmiCollector.PublicTime

/-! The ledger of confirmed losses and the steps that write it.

A device cursor ahead of the durable prefix is recorded as a loss before the prefix is published,
and a crash in between repeats the record. The record is idempotent for one interval only: a
cursor that moved on since the crash gives another interval beside the first one. Both stay as
evidence, and a reader counts the union of the intervals of an attempt. -/
namespace ConfirmedLoss

open ByteCodec Checks
open ClockModel (RingInfo)
open TransferArena (recordSize)
open BatchReconciler (RetryPolicy AttemptDescriptor batchBounds pendingIncompatible)
open BatchAdmission (freshBatch readDecision ReadDecision)

def schemaVersion : ℕ := 1
def maxLedgerBytes : ℕ := 1048576
def reasonText : String := "device_cursor_advanced_before_host_durable_prefix"

structure LossFact where
  lossId : String
  attemptId : String
  startSequence : ℕ
  endSequence : ℕ
  occurredAt : String
  missingRecordCount : ℕ
  missingRawBytes : ℕ
  reason : String
  deriving DecidableEq, Repr

/-- SHA-256 in hexadecimal, and the timestamps with an offset that `fromisoformat` reads. -/
structure Platform where
  sha256 : Bytes → String
  isTimestamp : String → Bool

def LowerHex (length : ℕ) (text : String) : Prop :=
  text.toList.length = length ∧ ∀ c ∈ text.toList, c ∈ "0123456789abcdef".toList

instance (length : ℕ) (text : String) : Decidable (LowerHex length text) :=
  @instDecidableAnd _ _ _ (List.decidableBAll (· ∈ "0123456789abcdef".toList) _)

def lossMaterial (attemptId : String) (start stop : ℕ) : String :=
  "v1:" ++ attemptId ++ ":" ++ toString start ++ ":" ++ toString stop

def lossIdOf (p : Platform) (attemptId : String) (start stop : ℕ) : Except String String := do
  refuse (¬ LowerHex 32 attemptId) "confirmed-loss attempt identity is invalid"
  refuse (stop ≤ start ∨ PublicTime.uint64Max < stop) "confirmed-loss interval is invalid"
  pure (p.sha256 (lossMaterial attemptId start stop).toUTF8.toList)

def validateFact (p : Platform) (fact : LossFact) : Except String Unit := do
  refuse (¬ LowerHex 32 fact.attemptId ∨ ¬ LowerHex 64 fact.lossId) "loss identity is invalid"
  refuse (fact.endSequence ≤ fact.startSequence ∨ PublicTime.uint64Max < fact.endSequence)
    "loss interval is invalid"
  let count := fact.endSequence - fact.startSequence
  refuse (fact.missingRecordCount ≠ count ∨ fact.missingRawBytes ≠ count * recordSize)
    "loss interval counts are inconsistent"
  let lossId ← lossIdOf p fact.attemptId fact.startSequence fact.endSequence
  refuse (fact.reason ≠ reasonText ∨ fact.lossId ≠ lossId) "loss fact identity or reason is invalid"
  refuse (p.isTimestamp fact.occurredAt = false) "loss timestamp is invalid"

def validateFacts (p : Platform) : List LossFact → Except String Unit
  | [] => pure ()
  | fact :: facts => do
    validateFact p fact
    validateFacts p facts

/-- The facts of the stored document, which is missing before its initialization. -/
def readLedger (p : Platform) (ledger : Option (List LossFact)) :
    Except String (List LossFact) :=
  match ledger with
  | none => .error "confirmed-loss ledger is missing"
  | some facts => do
    (validateFacts p facts).mapError fun _ => "confirmed-loss ledger is malformed"
    refuse (¬ (facts.map LossFact.lossId).Nodup) "confirmed-loss ledger is malformed"
    pure facts

def quoted (text : String) : String := "\"" ++ text ++ "\""

/-- A fact as compact JSON with sorted keys; its texts need no escapes. -/
def LossFact.json (fact : LossFact) : String :=
  "\x7b" ++ String.intercalate "," [
    quoted "attempt_id" ++ ":" ++ quoted fact.attemptId,
    quoted "end_sequence" ++ ":" ++ toString fact.endSequence,
    quoted "loss_id" ++ ":" ++ quoted fact.lossId,
    quoted "missing_raw_bytes" ++ ":" ++ toString fact.missingRawBytes,
    quoted "missing_record_count" ++ ":" ++ toString fact.missingRecordCount,
    quoted "occurred_at" ++ ":" ++ quoted fact.occurredAt,
    quoted "reason" ++ ":" ++ quoted fact.reason,
    quoted "start_sequence" ++ ":" ++ toString fact.startSequence] ++ "\x7d"

def ledgerJson (facts : List LossFact) : String :=
  "\x7b" ++ quoted "losses" ++ ":[" ++ String.intercalate "," (facts.map LossFact.json) ++ "]," ++
    quoted "schema_version" ++ ":" ++ toString schemaVersion ++ "\x7d"

def writeLedger (facts : List LossFact) : Except String (List LossFact) := do
  refuse (maxLedgerBytes < (ledgerJson facts).utf8ByteSize)
    "confirmed-loss ledger reached its configured size limit"
  pure facts

def factOf (lossId attemptId : String) (start stop : ℕ) (occurredAt : String) : LossFact :=
  ⟨lossId, attemptId, start, stop, occurredAt, stop - start, (stop - start) * recordSize, reasonText⟩

/-- `ConfirmedLossLedger.record`: the facts of the ledger after it. -/
def record (p : Platform) (ledger : Option (List LossFact)) (attemptId : String) (start stop : ℕ)
    (occurredAt : String) : Except String (List LossFact) := do
  let facts ← readLedger p ledger
  let lossId ← lossIdOf p attemptId start stop
  let fact := factOf lossId attemptId start stop occurredAt
  validateFact p fact
  if facts.any fun existing => existing.lossId = lossId then pure facts
  else writeLedger (facts ++ [fact])

/-- A durable attempt: its batch range, how far its records are durable, and whether its prefix
is published. -/
structure Attempt where
  id : String
  start : ℕ
  stop : ℕ
  durableNext : ℕ
  published : Bool
  deriving DecidableEq, Repr

def Attempt.descriptor (a : Attempt) : AttemptDescriptor := ⟨a.start, a.stop - a.start⟩

/-- Where `_publish_cursor_ahead` is; a crash ends it. -/
inductive Phase where
  | idle
  | recorded
  | armed
  | published
  deriving DecidableEq, Repr

/-- The device, the state database, the attempts that are over and the running call. -/
structure World where
  device : RingInfo
  ledger : Option (List LossFact)
  attempt : Option Attempt
  past : List Attempt
  pending : Option (String × ℕ)
  phase : Phase
  deriving DecidableEq, Repr

def World.attempts (w : World) : List Attempt := w.attempt.toList ++ w.past

/-- The attempt is over. -/
def World.retire (w : World) : World :=
  { w with attempt := none, past := w.attempts, phase := .idle }

/-- `_publish_cursor_ahead` up to its recorded loss. -/
def recordLoss (p : Platform) (w : World) (a : Attempt) (occurredAt : String) :
    Except String World := do
  let cursor := w.device.readSequence
  refuse (¬ (a.durableNext < cursor ∧ cursor ≤ w.device.writeSequence) ∨
    w.device.writeSequence < a.stop) "device cursor passed durable prefix"
  let facts ← record p w.ledger a.id a.durableNext cursor occurredAt
  pure { w with ledger := some facts, phase := .recorded }

/-- The pending marker, which only a prefix with records arms. -/
def armPending (w : World) (a : Attempt) : World :=
  { w with
    pending := if a.start < a.durableNext then some (a.id, a.durableNext) else w.pending
    phase := .armed }

/-- Publish the prefix; an attempt without durable records is quarantined instead. -/
def publishPrefix (w : World) (a : Attempt) : World :=
  if a.start < a.durableNext then
    { w with attempt := some { a with published := true }, phase := .published }
  else w.retire

inductive Event where
  | device (info : RingInfo)
  | admitBatch (attempt : Attempt)
  | read (durableNext : ℕ)
  | record (occurredAt : String)
  | arm
  | publish
  | retire
  | quarantine
  | complete
  | terminalize
  | crash
  deriving DecidableEq, Repr

/-- One step of the device or the collector. A fresh attempt has a fresh identity, a restart
resumes the attempt that is not over, and the device cursor never decreases. -/
inductive Step (p : Platform) : World → Event → World → Prop where
  | device {w : World} {info : RingInfo} (hread : w.device.readSequence ≤ info.readSequence)
      (hwrite : w.device.writeSequence ≤ info.writeSequence)
      (hbound : info.readSequence ≤ info.writeSequence) :
      Step p w (.device info) { w with device := info }
  | admitBatch {w : World} {policy : RetryPolicy} {id : String} {start stop : ℕ}
      (hphase : w.phase = .idle) (hnone : w.attempt = none) (hfresh : ∀ a ∈ w.past, a.id ≠ id)
      (hbounds : batchBounds w.device policy none none = .ok (start, stop)) (hne : start < stop) :
      Step p w (.admitBatch ⟨id, start, stop, start, false⟩)
        { w with attempt := some ⟨id, start, stop, start, false⟩ }
  | read {w : World} {a : Attempt} {readStart durableNext : ℕ} (hphase : w.phase = .idle)
      (ha : w.attempt = some a)
      (hdecision : readDecision (freshBatch w.device a.start a.stop a.durableNext) w.device =
        .ok (.read readStart))
      (hgrows : a.durableNext ≤ durableNext) (hstop : durableNext ≤ a.stop) :
      Step p w (.read durableNext)
        { w with attempt := some { a with durableNext := durableNext } }
  | record {w w' : World} {a : Attempt} {occurredAt : String} (hphase : w.phase = .idle)
      (ha : w.attempt = some a)
      (hdecision : readDecision (freshBatch w.device a.start a.stop a.durableNext) w.device =
        .ok .publishPrefix)
      (hrecord : recordLoss p w a occurredAt = .ok w') : Step p w (.record occurredAt) w'
  | arm {w : World} {a : Attempt} (hphase : w.phase = .recorded) (ha : w.attempt = some a) :
      Step p w .arm (armPending w a)
  | publish {w : World} {a : Attempt} (hphase : w.phase = .armed) (ha : w.attempt = some a) :
      Step p w .publish (publishPrefix w a)
  | retire {w : World} (hphase : w.phase = .published) : Step p w .retire w.retire
  | quarantine {w : World} {a : Attempt} (hphase : w.phase = .idle) (ha : w.attempt = some a)
      (h : pendingIncompatible w.device a.descriptor (some a.durableNext) = true ∨
        readDecision (freshBatch w.device a.start a.stop a.durableNext) w.device = .ok .restart) :
      Step p w .quarantine w.retire
  | complete {w : World} {a : Attempt} (hphase : w.phase = .idle) (ha : w.attempt = some a)
      (h : a.durableNext = a.stop) : Step p w .complete w.retire
  | terminalize {w : World} {a : Attempt} (hphase : w.phase = .idle) (ha : w.attempt = some a)
      (h : a.published = true) : Step p w .terminalize w.retire
  | crash {w : World} : Step p w .crash { w with phase := .idle }

/-- Before any attempt, with an initialized ledger. -/
def World.new (device : RingInfo) : World := ⟨device, some [], none, [], none, .idle⟩

/-- The states of runs in which every recorded loss starts from a state that `allowed` holds of. -/
inductive Reachable (p : Platform) (allowed : World → Prop) : World → Prop where
  | new (device : RingInfo) : Reachable p allowed (World.new device)
  | step {w w' : World} {e : Event} (h : Reachable p allowed w)
      (hallowed : ∀ occurredAt, e = .record occurredAt → allowed w) (hstep : Step p w e w') :
      Reachable p allowed w'

/-- The device cursor is where it was when a loss of the running attempt was recorded. -/
def CursorUnmoved (w : World) : Prop :=
  ∀ a, w.attempt = some a → ∀ facts, w.ledger = some facts → ∀ f ∈ facts, f.attemptId = a.id →
    f.endSequence = w.device.readSequence

def lossesOf (facts : List LossFact) (attemptId : String) : List LossFact :=
  facts.filter fun f => f.attemptId = attemptId

/-- The sequences that some recorded interval of the attempt contains. -/
def lostSequences (facts : List LossFact) (attemptId : String) : Finset ℕ :=
  (lossesOf facts attemptId).toFinset.biUnion fun f => Finset.Ico f.startSequence f.endSequence

/-- No sequence of an attempt is counted twice, and none that is durable is counted. -/
structure CountedOnce (w : World) (facts : List LossFact) : Prop where
  disjoint : ∀ id, (lossesOf facts id).Pairwise fun f g =>
    f.endSequence ≤ g.startSequence ∨ g.endSequence ≤ f.startSequence
  durable : ∀ a ∈ w.attempts, ∀ f ∈ lossesOf facts a.id, ∀ x,
    f.startSequence ≤ x → x < f.endSequence → ¬ (a.start ≤ x ∧ x < a.durableNext)
  total : ∀ id, ((lossesOf facts id).map LossFact.missingRecordCount).sum =
    (lostSequences facts id).card

/-- Intervals as tuples compare. -/
def intervalLe (a b : ℕ × ℕ) : Prop := a.1 < b.1 ∨ (a.1 = b.1 ∧ a.2 ≤ b.2)

instance decidableIntervalLe (a b : ℕ × ℕ) : Decidable (intervalLe a b) :=
  inferInstanceAs (Decidable (_ ∨ _))

/-- The components seen so far, the size of the closed ones, and the one that may still grow. -/
structure UnionScan where
  components : ℕ
  total : ℕ
  currentStart : ℕ
  currentEnd : ℕ
  deriving DecidableEq, Repr

def UnionScan.next (u : UnionScan) (interval : ℕ × ℕ) : UnionScan :=
  if u.currentEnd < interval.1 then
    ⟨u.components + 1, u.total + (u.currentEnd - u.currentStart), interval.1, interval.2⟩
  else { u with currentEnd := max u.currentEnd interval.2 }

/-- `_union_interval_stats`: how many components a union of intervals has, and its size. -/
def unionIntervalStats (intervals : List (ℕ × ℕ)) : ℕ × ℕ :=
  match intervals.insertionSort intervalLe with
  | [] => (0, 0)
  | first :: rest =>
    let u := rest.foldl UnionScan.next ⟨1, 0, first.1, first.2⟩
    (u.components, u.total + u.currentEnd - u.currentStart)

def LossFact.interval (fact : LossFact) : ℕ × ℕ := (fact.startSequence, fact.endSequence)

/-- What every ledger says of its attempts: no interval holds a sequence that is durable there, and
the union of the intervals is as large as the set of lost sequences. -/
structure CountedByUnion (w : World) (facts : List LossFact) : Prop where
  durable : ∀ a ∈ w.attempts, ∀ f ∈ lossesOf facts a.id, ∀ x,
    f.startSequence ≤ x → x < f.endSequence → ¬ (a.start ≤ x ∧ x < a.durableNext)
  missing : ∀ f ∈ facts, f.missingRecordCount = f.endSequence - f.startSequence
  total : ∀ id, (unionIntervalStats ((lossesOf facts id).map LossFact.interval)).2 =
    (lostSequences facts id).card

section Ledger

variable {p : Platform}

theorem lossIdOf_ok {id lossId : String} {start stop : ℕ} (h : lossIdOf p id start stop = .ok lossId) :
    start < stop := by
  simp only [lossIdOf, bind_ok, refuse_ok, not_or, not_le] at h
  obtain ⟨_, -, _, ⟨hlt, -⟩, -⟩ := h
  exact hlt

theorem readLedger_ok {ledger : Option (List LossFact)} {facts : List LossFact}
    (h : readLedger p ledger = .ok facts) : ledger = some facts := by
  cases ledger with
  | none => cases h
  | some stored =>
    simp only [readLedger, bind_ok, pure_ok] at h
    obtain ⟨_, -, _, -, rfl⟩ := h
    rfl

/-- A recorded interval is in the ledger under its identity, or it is added. -/
theorem record_ok {ledger : Option (List LossFact)} {facts' : List LossFact}
    {id occurredAt : String} {start stop : ℕ}
    (h : record p ledger id start stop occurredAt = .ok facts') :
    ∃ facts lossId, ledger = some facts ∧ lossIdOf p id start stop = .ok lossId ∧
      ((facts' = facts ∧ ∃ f ∈ facts, f.lossId = lossId) ∨
        (facts' = facts ++ [factOf lossId id start stop occurredAt] ∧
          ∀ f ∈ facts, f.lossId ≠ lossId)) := by
  simp only [record, bind_ok] at h
  obtain ⟨facts, hread, lossId, hid, _, -, hwrite⟩ := h
  refine ⟨facts, lossId, readLedger_ok hread, hid, ?_⟩
  by_cases hknown : (facts.any fun existing => decide (existing.lossId = lossId)) = true
  · rw [if_pos hknown, pure_ok] at hwrite
    exact .inl ⟨hwrite.symm, by simpa using hknown⟩
  · rw [if_neg hknown] at hwrite
    simp only [writeLedger, bind_ok, pure_ok] at hwrite
    obtain ⟨_, -, rfl⟩ := hwrite
    exact .inr ⟨rfl, by simpa using hknown⟩

end Ledger

/-- What holds of the ledger and the attempts whatever the device cursor does. -/
structure Inv (p : Platform) (w : World) (facts : List LossFact) : Prop where
  ledger : w.ledger = some facts
  ids : (w.attempts.map Attempt.id).Nodup
  /-- A recorded interval starts where its attempt's durable prefix ends. -/
  owner : ∀ f ∈ facts, ∃ a ∈ w.attempts, a.id = f.attemptId ∧ f.startSequence = a.durableNext
  reached : ∀ a, w.attempt = some a → ∀ f ∈ facts, f.attemptId = a.id →
    f.endSequence ≤ w.device.readSequence
  identity : ∀ f ∈ facts, lossIdOf p f.attemptId f.startSequence f.endSequence = .ok f.lossId
  counts : ∀ f ∈ facts, f.missingRecordCount = f.endSequence - f.startSequence

section Invariant

variable {p : Platform} {w : World} {facts : List LossFact}

theorem Inv.proper (h : Inv p w facts) {f : LossFact} (hf : f ∈ facts) :
    f.startSequence < f.endSequence :=
  lossIdOf_ok (h.identity f hf)

theorem mem_attempts {a : Attempt} (ha : w.attempt = some a) : a ∈ w.attempts := by
  simp [World.attempts, ha]

/-- Attempts with one identity are one attempt. -/
theorem Inv.attempt_unique (h : Inv p w facts) {a b : Attempt} (ha : a ∈ w.attempts)
    (hb : b ∈ w.attempts) (hid : a.id = b.id) : a = b :=
  List.inj_on_of_nodup_map h.ids ha hb hid

theorem Inv.start_eq (h : Inv p w facts) {a : Attempt} (ha : a ∈ w.attempts) {f : LossFact}
    (hf : f ∈ facts) (hid : f.attemptId = a.id) : f.startSequence = a.durableNext := by
  obtain ⟨b, hb, hbid, hstart⟩ := h.owner f hf
  rw [h.attempt_unique ha hb (hid.symm.trans hbid.symm)]
  exact hstart

@[simp] theorem attempts_retire : w.retire.attempts = w.attempts := rfl

theorem Inv.retire (h : Inv p w facts) : Inv p w.retire facts :=
  ⟨h.ledger, h.ids, h.owner, by simp [World.retire], h.identity, h.counts⟩

/-- The running attempt changes without its identity and its durable prefix. -/
theorem Inv.replace (h : Inv p w facts) {a : Attempt} (ha : w.attempt = some a) (b : Attempt)
    (hid : b.id = a.id)
    (hnext : ∀ f ∈ facts, f.attemptId = a.id → b.durableNext = a.durableNext) {w' : World}
    (hledger : w'.ledger = w.ledger) (hattempt : w'.attempt = some b) (hpast : w'.past = w.past)
    (hdevice : w'.device = w.device) : Inv p w' facts := by
  have hattempts : w'.attempts = b :: w.past := by simp [World.attempts, hattempt, hpast]
  have hold : w.attempts = a :: w.past := by simp [World.attempts, ha]
  refine ⟨hledger.trans h.ledger, ?_, ?_, ?_, h.identity, h.counts⟩
  · have hids := h.ids
    rw [hold, List.map_cons] at hids
    rw [hattempts, List.map_cons, hid]
    exact hids
  · intro f hf
    obtain ⟨c, hc, hcid, hstart⟩ := h.owner f hf
    rw [hattempts]
    rw [hold] at hc
    rcases List.mem_cons.mp hc with rfl | hc
    · exact ⟨b, by simp, hid.trans hcid, hstart.trans (hnext f hf hcid.symm).symm⟩
    · exact ⟨c, List.mem_cons_of_mem b hc, hcid, hstart⟩
  · intro c hc f hf hfid
    obtain rfl := Option.some.inj (hattempt.symm.trans hc)
    rw [hdevice]
    exact h.reached a ha f hf (hfid.trans hid)

theorem readDecision_read {a : Attempt} {device : RingInfo} {readStart : ℕ}
    (h : readDecision (freshBatch device a.start a.stop a.durableNext) device =
      .ok (.read readStart)) : device.readSequence ≤ a.durableNext := by
  unfold readDecision freshBatch at h
  simp only at h
  by_contra hahead
  (repeat' split at h) <;> first | omega | cases h

/-- A recorded loss is over the sequences from the durable prefix to the device cursor. -/
theorem recordLoss_ok {w' : World} {a : Attempt} {occurredAt : String}
    (h : recordLoss p w a occurredAt = .ok w') :
    ∃ facts', record p w.ledger a.id a.durableNext w.device.readSequence occurredAt = .ok facts' ∧
      w' = { w with ledger := some facts', phase := .recorded } := by
  simp only [recordLoss, bind_ok, pure_ok] at h
  obtain ⟨_, -, facts', hrecord, rfl⟩ := h
  exact ⟨facts', hrecord, rfl⟩

/-- What a recorded loss adds to the ledger. -/
theorem Inv.record (h : Inv p w facts) {w' : World} {a : Attempt} {occurredAt : String}
    (ha : w.attempt = some a) (hrecord : recordLoss p w a occurredAt = .ok w') :
    ∃ facts', Inv p w' facts' ∧ (facts' = facts ∨ ∃ f, facts' = facts ++ [f] ∧
      f.attemptId = a.id ∧ ∀ g ∈ facts, g.attemptId = a.id →
        g.endSequence ≠ w.device.readSequence) := by
  obtain ⟨facts', hledger, rfl⟩ := recordLoss_ok hrecord
  obtain ⟨stored, lossId, hstored, hid, hcase⟩ := record_ok hledger
  obtain rfl := Option.some.inj (h.ledger.symm.trans hstored)
  rcases hcase with ⟨rfl, -⟩ | ⟨rfl, hnew⟩
  · exact ⟨_, ⟨rfl, h.ids, h.owner, h.reached, h.identity, h.counts⟩, .inl rfl⟩
  · refine ⟨_, ⟨rfl, h.ids, ?_, ?_, ?_, ?_⟩, .inr ⟨_, rfl, rfl, ?_⟩⟩
    · intro f hf
      rcases List.mem_append.mp hf with hf | hf
      · exact h.owner f hf
      · obtain rfl := List.mem_singleton.mp hf
        exact ⟨a, mem_attempts ha, rfl, rfl⟩
    · intro b hb f hf hfid
      rcases List.mem_append.mp hf with hf | hf
      · exact h.reached b hb f hf hfid
      · obtain rfl := List.mem_singleton.mp hf
        exact le_rfl
    · intro f hf
      rcases List.mem_append.mp hf with hf | hf
      · exact h.identity f hf
      · obtain rfl := List.mem_singleton.mp hf
        exact hid
    · intro f hf
      rcases List.mem_append.mp hf with hf | hf
      · exact h.counts f hf
      · obtain rfl := List.mem_singleton.mp hf
        rfl
    · intro g hg hgid hend
      have hsame := h.identity g hg
      rw [hgid, h.start_eq (mem_attempts ha) hg hgid, hend, hid] at hsame
      exact hnew g hg (Except.ok.inj hsame).symm

/-- What one step does to the facts: nothing, or it adds one at the device cursor. -/
theorem Inv.step (h : Inv p w facts) {w' : World} {e : Event} (hstep : Step p w e w') :
    ∃ facts', Inv p w' facts' ∧ (facts' = facts ∨ ∃ occurredAt a f, e = .record occurredAt ∧
      w.attempt = some a ∧ facts' = facts ++ [f] ∧ f.attemptId = a.id ∧
        ∀ g ∈ facts, g.attemptId = a.id → g.endSequence ≠ w.device.readSequence) := by
  cases hstep with
  | device hread hwrite hbound =>
    refine ⟨facts, ⟨h.ledger, h.ids, h.owner, ?_, h.identity, h.counts⟩, .inl rfl⟩
    intro a ha f hf hid
    exact (h.reached a ha f hf hid).trans hread
  | @admitBatch policy id start stop hphase hnone hfresh hbounds hne =>
    have hpast : w.attempts = w.past := by simp [World.attempts, hnone]
    refine ⟨facts, ⟨h.ledger, ?_, ?_, ?_, h.identity, h.counts⟩, .inl rfl⟩
    · have hids := h.ids
      rw [hpast] at hids
      refine List.nodup_cons.mpr ⟨?_, hids⟩
      intro hmem
      obtain ⟨a, ha, hid⟩ := List.mem_map.mp hmem
      exact hfresh a ha hid
    · intro f hf
      obtain ⟨a, ha, hid, hstart⟩ := h.owner f hf
      rw [hpast] at ha
      exact ⟨a, List.mem_cons_of_mem _ ha, hid, hstart⟩
    · intro b hb f hf hid
      obtain rfl := Option.some.inj hb
      obtain ⟨a, ha, haid, -⟩ := h.owner f hf
      rw [hpast] at ha
      exact absurd (haid.trans hid) (hfresh a ha)
  | @read a readStart durableNext hphase ha hdecision hgrows hstop =>
    refine ⟨facts, h.replace ha { a with durableNext := durableNext } rfl ?_ rfl rfl rfl rfl, .inl rfl⟩
    intro f hf hid
    -- A recorded loss leaves the cursor past the durable prefix, where no READ starts.
    have hle := readDecision_read hdecision
    have hstart := h.start_eq (mem_attempts ha) hf hid
    have hend := h.reached a ha f hf hid
    have := h.proper hf
    omega
  | @record _ a occurredAt hphase ha hdecision hrecord =>
    obtain ⟨facts', hinv, hcase⟩ := h.record ha hrecord
    rcases hcase with hsame | ⟨f, hadd, hid, hmoved⟩
    · exact ⟨facts', hinv, .inl hsame⟩
    · exact ⟨facts', hinv, .inr ⟨occurredAt, a, f, rfl, ha, hadd, hid, hmoved⟩⟩
  | @arm a hphase ha =>
    exact ⟨facts, h.replace ha a rfl (fun _ _ _ => rfl) rfl ha rfl rfl, .inl rfl⟩
  | @publish a hphase ha =>
    refine ⟨facts, ?_, .inl rfl⟩
    unfold publishPrefix
    split
    · exact h.replace ha { a with published := true } rfl (fun _ _ _ => rfl) rfl rfl rfl rfl
    · exact h.retire
  | retire hphase => exact ⟨facts, h.retire, .inl rfl⟩
  | quarantine hphase ha hguard => exact ⟨facts, h.retire, .inl rfl⟩
  | complete hphase ha hguard => exact ⟨facts, h.retire, .inl rfl⟩
  | terminalize hphase ha hguard => exact ⟨facts, h.retire, .inl rfl⟩
  | crash => exact ⟨facts, ⟨h.ledger, h.ids, h.owner, h.reached, h.identity, h.counts⟩, .inl rfl⟩

theorem inv_new (device : RingInfo) : Inv p (World.new device) [] := by
  constructor <;> simp [World.new, World.attempts]

end Invariant

section Union

/-- The numbers in intervals. -/
def covered (intervals : List (ℕ × ℕ)) : Finset ℕ := intervals.toFinset.biUnion fun i => Finset.Ico i.1 i.2

theorem mem_covered {intervals : List (ℕ × ℕ)} {x : ℕ} :
    x ∈ covered intervals ↔ ∃ i ∈ intervals, i.1 ≤ x ∧ x < i.2 := by
  simp [covered]

/-- The closed components hold `closed`, and everything after them starts in the current one. -/
structure UnionScan.Holds (u : UnionScan) (closed seen : Finset ℕ) : Prop where
  total : u.total = closed.card
  before : ∀ x ∈ closed, x < u.currentStart
  proper : u.currentStart ≤ u.currentEnd
  seen : ∀ x, x ∈ seen ↔ x ∈ closed ∨ (u.currentStart ≤ x ∧ x < u.currentEnd)

theorem UnionScan.Holds.card {u : UnionScan} {closed seen : Finset ℕ} (h : u.Holds closed seen) :
    u.total + u.currentEnd - u.currentStart = seen.card := by
  have hseen : seen = closed ∪ Finset.Ico u.currentStart u.currentEnd := by
    ext x
    rw [h.seen, Finset.mem_union, Finset.mem_Ico]
  have hdisjoint : Disjoint closed (Finset.Ico u.currentStart u.currentEnd) := by
    rw [Finset.disjoint_left]
    intro x hx hx'
    have := h.before x hx
    have := (Finset.mem_Ico.mp hx').1
    omega
  rw [hseen, Finset.card_union_of_disjoint hdisjoint, Nat.card_Ico, h.total]
  have := h.proper
  omega

/-- An interval that starts no earlier than the current component joins it or opens the next. -/
theorem UnionScan.Holds.next {u : UnionScan} {closed seen : Finset ℕ} (h : u.Holds closed seen)
    {i : ℕ × ℕ} (hstart : u.currentStart ≤ i.1) (hproper : i.1 < i.2) :
    ∃ closed', (u.next i).Holds closed' (seen ∪ Finset.Ico i.1 i.2) ∧
      (u.next i).currentStart ≤ i.1 := by
  by_cases hapart : u.currentEnd < i.1
  · have hnext : u.next i =
        ⟨u.components + 1, u.total + (u.currentEnd - u.currentStart), i.1, i.2⟩ := if_pos hapart
    rw [hnext]
    refine ⟨seen, ⟨?_, fun x hx => ?_, hproper.le, fun x => ?_⟩, le_rfl⟩
    · rw [← h.card]
      exact (Nat.add_sub_assoc h.proper _).symm
    · rcases (h.seen x).mp hx with hx | ⟨-, hx⟩
      · exact (h.before x hx).trans_le hstart
      · exact hx.trans hapart
    · rw [Finset.mem_union, Finset.mem_Ico]
  · have hnext : u.next i = { u with currentEnd := max u.currentEnd i.2 } := if_neg hapart
    rw [hnext]
    refine ⟨closed, ⟨h.total, h.before, le_max_of_le_left h.proper, fun x => ?_⟩, hstart⟩
    rw [Finset.mem_union, Finset.mem_Ico, h.seen]
    have := h.proper
    constructor
    · rintro ((hx | hx) | hx)
      · exact .inl hx
      · exact .inr ⟨hx.1, lt_max_of_lt_left hx.2⟩
      · exact .inr ⟨hstart.trans hx.1, lt_max_of_lt_right hx.2⟩
    · rintro (hx | ⟨hx, hx'⟩)
      · exact .inl (.inl hx)
      · rcases lt_max_iff.mp hx' with hx' | hx'
        · exact .inl (.inr ⟨hx, hx'⟩)
        · by_cases hlate : x < i.1
          · exact .inl (.inr ⟨hx, by omega⟩)
          · exact .inr ⟨by omega, hx'⟩

theorem foldl_next {rest : List (ℕ × ℕ)} {u : UnionScan} {closed seen : Finset ℕ}
    (h : u.Holds closed seen) (hstart : ∀ i ∈ rest, u.currentStart ≤ i.1)
    (hsorted : rest.Pairwise intervalLe) (hproper : ∀ i ∈ rest, i.1 < i.2) :
    ∃ closed', (rest.foldl UnionScan.next u).Holds closed' (seen ∪ covered rest) := by
  induction rest generalizing u closed seen with
  | nil => exact ⟨closed, by simpa [covered] using h⟩
  | cons i rest ih =>
    obtain ⟨hfirst, hsorted⟩ := List.pairwise_cons.mp hsorted
    obtain ⟨closed', hnext, hle⟩ := h.next (hstart i List.mem_cons_self) (hproper i List.mem_cons_self)
    have hlater : ∀ j ∈ rest, (u.next i).currentStart ≤ j.1 := by
      intro j hj
      have := hfirst j hj
      rw [intervalLe] at this
      omega
    obtain ⟨closed'', hlast⟩ := ih hnext hlater hsorted fun j hj => hproper j (List.mem_cons_of_mem _ hj)
    refine ⟨closed'', ?_⟩
    have hseen : seen ∪ covered (i :: rest) = seen ∪ Finset.Ico i.1 i.2 ∪ covered rest := by
      rw [covered, List.toFinset_cons, Finset.biUnion_insert, Finset.union_assoc, covered]
    rw [List.foldl_cons, hseen]
    exact hlast

/-- The union of proper intervals is counted without repetition, in whatever order they come. -/
theorem unionIntervalStats_total {intervals : List (ℕ × ℕ)} (hproper : ∀ i ∈ intervals, i.1 < i.2) :
    (unionIntervalStats intervals).2 = (covered intervals).card := by
  have hmem : ∀ i, i ∈ intervals.insertionSort intervalLe ↔ i ∈ intervals := fun i =>
    (List.perm_insertionSort intervalLe intervals).mem_iff
  have hcovered : covered (intervals.insertionSort intervalLe) = covered intervals := by
    ext x
    simp only [mem_covered, hmem]
  have hsorted : (intervals.insertionSort intervalLe).Pairwise intervalLe := by
    have : Std.Total intervalLe := ⟨fun a b => by simp only [intervalLe]; omega⟩
    have : IsTrans (ℕ × ℕ) intervalLe := ⟨fun a b c => by simp only [intervalLe]; omega⟩
    exact List.pairwise_insertionSort _ _
  rw [← hcovered, unionIntervalStats]
  cases hcase : intervals.insertionSort intervalLe with
  | nil => rfl
  | cons first rest =>
    rw [hcase] at hsorted hmem
    obtain ⟨hfirst, hsorted⟩ := List.pairwise_cons.mp hsorted
    have hbegin : (UnionScan.mk 1 0 first.1 first.2).Holds ∅ (Finset.Ico first.1 first.2) :=
      ⟨by simp, by simp, (hproper _ ((hmem _).mp List.mem_cons_self)).le, by simp⟩
    obtain ⟨closed, hlast⟩ := foldl_next hbegin (fun i hi => by
      have := hfirst i hi
      rw [intervalLe] at this
      exact le_of_lt_or_eq (this.imp id And.left)) hsorted
      fun i hi => hproper i ((hmem i).mp (List.mem_cons_of_mem _ hi))
    rw [covered, List.toFinset_cons, Finset.biUnion_insert]
    exact hlast.card

end Union

section Counting

/-- Apart intervals together contain as many numbers as their lengths say. -/
theorem sum_eq_card (losses : List LossFact)
    (hcounts : ∀ f ∈ losses, f.missingRecordCount = f.endSequence - f.startSequence)
    (hapart : losses.Pairwise fun f g =>
      f.endSequence ≤ g.startSequence ∨ g.endSequence ≤ f.startSequence) :
    (losses.map LossFact.missingRecordCount).sum =
      (losses.toFinset.biUnion fun f => Finset.Ico f.startSequence f.endSequence).card := by
  induction losses with
  | nil => rfl
  | cons f losses ih =>
    obtain ⟨hfirst, hrest⟩ := List.pairwise_cons.mp hapart
    obtain ⟨hcount, hcounts⟩ := List.forall_mem_cons.mp hcounts
    have hdisjoint : Disjoint (Finset.Ico f.startSequence f.endSequence)
        (losses.toFinset.biUnion fun f => Finset.Ico f.startSequence f.endSequence) := by
      rw [Finset.disjoint_biUnion_right]
      intro g hg
      rw [List.mem_toFinset] at hg
      rw [Finset.disjoint_left]
      intro x hx hx'
      rw [Finset.mem_Ico] at hx hx'
      have := hfirst g hg
      omega
    rw [List.map_cons, List.sum_cons, ih hcounts hrest, List.toFinset_cons, Finset.biUnion_insert,
      Finset.card_union_of_disjoint hdisjoint, Nat.card_Ico, hcount]

variable {p : Platform} {w : World} {facts : List LossFact}

theorem mem_lossesOf {id : String} {f : LossFact} :
    f ∈ lossesOf facts id ↔ f ∈ facts ∧ f.attemptId = id := by
  simp [lossesOf]

theorem Inv.durable (h : Inv p w facts) : ∀ a ∈ w.attempts, ∀ f ∈ lossesOf facts a.id, ∀ x,
    f.startSequence ≤ x → x < f.endSequence → ¬ (a.start ≤ x ∧ x < a.durableNext) := by
  intro a ha f hf x hstart _ hdurable
  obtain ⟨hf, hid⟩ := mem_lossesOf.mp hf
  have := h.start_eq ha hf hid
  omega

/-- The union of the intervals of an attempt counts each lost sequence once. -/
theorem Inv.countedByUnion (h : Inv p w facts) : CountedByUnion w facts := by
  refine ⟨h.durable, h.counts, fun id => ?_⟩
  have hproper : ∀ i ∈ (lossesOf facts id).map LossFact.interval, i.1 < i.2 := by
    intro i hi
    obtain ⟨f, hf, rfl⟩ := List.mem_map.mp hi
    exact h.proper (mem_lossesOf.mp hf).1
  rw [unionIntervalStats_total hproper]
  congr 1
  ext x
  simp only [mem_covered, List.mem_map, lostSequences, Finset.mem_biUnion, List.mem_toFinset,
    Finset.mem_Ico, LossFact.interval]
  constructor
  · rintro ⟨i, ⟨f, hf, rfl⟩, hx⟩
    exact ⟨f, hf, hx⟩
  · rintro ⟨f, hf, hx⟩
    exact ⟨_, ⟨f, hf, rfl⟩, hx⟩

/-- With one interval for each attempt nothing is counted twice. -/
theorem Inv.countedOnce (h : Inv p w facts) (hsingle : (facts.map LossFact.attemptId).Nodup) :
    CountedOnce w facts := by
  have hdisjoint : ∀ id, (lossesOf facts id).Pairwise fun f g =>
      f.endSequence ≤ g.startSequence ∨ g.endSequence ≤ f.startSequence := by
    intro id
    have hids : ((lossesOf facts id).map LossFact.attemptId).Nodup :=
      (List.filter_sublist.map _).nodup hsingle
    refine (List.pairwise_map.mp hids).imp_of_mem ?_
    intro f g hf hg hne
    exact absurd ((mem_lossesOf.mp hf).2.trans (mem_lossesOf.mp hg).2.symm) hne
  refine ⟨hdisjoint, ?_, ?_⟩
  · exact h.durable
  · exact fun id => sum_eq_card _ (fun f hf => h.counts f (mem_lossesOf.mp hf).1) (hdisjoint id)

theorem reachable_inv {allowed : World → Prop} (h : Reachable p allowed w) :
    ∃ facts, Inv p w facts := by
  induction h with
  | new device => exact ⟨[], inv_new device⟩
  | step h _ hstep ih =>
    obtain ⟨facts, hinv⟩ := ih
    obtain ⟨facts', hinv', -⟩ := hinv.step hstep
    exact ⟨facts', hinv'⟩

theorem unmoved_inv (h : Reachable p CursorUnmoved w) :
    ∃ facts, Inv p w facts ∧ (facts.map LossFact.attemptId).Nodup := by
  induction h with
  | new device => exact ⟨[], inv_new device, List.nodup_nil⟩
  | step h hallowed hstep ih =>
    obtain ⟨facts, hinv, hsingle⟩ := ih
    obtain ⟨facts', hinv', hcase⟩ := hinv.step hstep
    refine ⟨facts', hinv', ?_⟩
    rcases hcase with rfl | ⟨occurredAt, a, f, hevent, ha, rfl, hid, hmoved⟩
    · exact hsingle
    · have hunmoved := hallowed occurredAt hevent a ha facts hinv.ledger
      rw [List.map_append, List.map_cons, List.map_nil, ← List.concat_eq_append]
      refine List.Nodup.concat ?_ hsingle
      intro hmem
      obtain ⟨g, hg, hgid⟩ := List.mem_map.mp hmem
      exact hmoved g hg (hgid.trans hid) (hunmoved g hg (hgid.trans hid))

end Counting

/-- In every run the ledger of an attempt holds no sequence that is durable there, and its reader
counts each lost sequence once. In every run that repeats a record only while the device cursor has
not moved since, the intervals themselves are apart and their counts add up. -/
theorem losses_countedOnce (p : Platform) (w : World) :
    (∀ allowed, Reachable p allowed w → ∃ facts, w.ledger = some facts ∧ CountedByUnion w facts) ∧
      (Reachable p CursorUnmoved w → ∃ facts, w.ledger = some facts ∧ CountedOnce w facts) := by
  constructor
  · intro allowed h
    obtain ⟨facts, hinv⟩ := reachable_inv h
    exact ⟨facts, hinv.ledger, hinv.countedByUnion⟩
  · intro h
    obtain ⟨facts, hinv, hsingle⟩ := unmoved_inv h
    exact ⟨facts, hinv.ledger, hinv.countedOnce hsingle⟩

def sampleAttempt : Attempt := ⟨"0123456789abcdef0123456789abcdef", 0, 200, 100, false⟩

def sampleTime : String := "2026-09-08T09:30:00.000+00:00"

/-- The platform on the two intervals of the sample. -/
def samplePlatform : Platform where
  sha256 material :=
    if material = (lossMaterial sampleAttempt.id 100 110).toUTF8.toList then
      "336b50e54c78b534091dee6b2996b1c7a497c9b96a5b1cf9e5bac87e8d8d8443"
    else "ae594c0c8736f4d6f29f463f2bd73a9579ca6cb953e5f893dc36614dbd857e4b"
  isTimestamp text := text = sampleTime

def firstLoss : LossFact :=
  factOf "336b50e54c78b534091dee6b2996b1c7a497c9b96a5b1cf9e5bac87e8d8d8443" sampleAttempt.id 100 110
    sampleTime

def secondLoss : LossFact :=
  factOf "ae594c0c8736f4d6f29f463f2bd73a9579ca6cb953e5f893dc36614dbd857e4b" sampleAttempt.id 100 120
    sampleTime

/-- The cursor overtook the durable prefix. -/
def overtaken : World := ⟨⟨110, 200⟩, some [], some sampleAttempt, [], none, .idle⟩

/-- A crash after the loss was recorded. -/
def interrupted : World := { overtaken with ledger := some [firstLoss] }

theorem record_overtaken : recordLoss samplePlatform overtaken sampleAttempt sampleTime =
    .ok { interrupted with phase := .recorded } := by
  decide +kernel

theorem reachable_interrupted {allowed : World → Prop} (h : allowed overtaken) :
    Reachable samplePlatform allowed interrupted := by
  have hnew : Reachable samplePlatform allowed (World.new ⟨0, 200⟩) := .new _
  have hadmitted := hnew.step (e := .admitBatch ⟨sampleAttempt.id, 0, 200, 0, false⟩) (by simp)
    (@Step.admitBatch _ _ ⟨200, true⟩ _ _ _ rfl rfl (by simp [World.new]) rfl (by decide))
  have hread := hadmitted.step (e := .read 100) (by simp)
    (@Step.read _ _ _ 0 _ rfl rfl rfl (by decide) (by decide))
  have hmoved := hread.step (e := .device ⟨110, 200⟩) (by simp)
    (.device (by decide) (by decide) (by decide))
  have hrecorded := hmoved.step (e := .record sampleTime) (fun _ _ => h)
    (.record rfl rfl rfl record_overtaken)
  exact hrecorded.step (e := .crash) (by simp) .crash

theorem moved_cursor_counted_twice :
    ¬ ∀ w, Reachable samplePlatform (fun _ => True) w →
      ∃ facts, w.ledger = some facts ∧ CountedOnce w facts := by
  intro hclaim
  have hmoved := (@reachable_interrupted (fun _ => True) trivial).step (e := .device ⟨120, 200⟩) (by simp)
    (.device (by decide) (by decide) (by decide))
  have hrecord : recordLoss samplePlatform { interrupted with device := ⟨120, 200⟩ } sampleAttempt
      sampleTime = .ok { interrupted with
        device := ⟨120, 200⟩, ledger := some [firstLoss, secondLoss], phase := .recorded } := by
    decide +kernel
  have htwice := hmoved.step (e := .record sampleTime) (fun _ _ => trivial)
    (.record rfl rfl rfl hrecord)
  obtain ⟨facts, hledger, hcounted⟩ := hclaim _ htwice
  obtain rfl := Option.some.inj hledger
  have hpair := hcounted.disjoint sampleAttempt.id
  revert hpair
  decide +kernel

/-- A run that repeats the record after a crash, with the cursor where it was. -/
theorem losses_countedOnce_retry :
    ∃ facts, ({ interrupted with phase := .recorded } : World).ledger = some facts ∧
      CountedByUnion { interrupted with phase := .recorded } facts ∧
      CountedOnce { interrupted with phase := .recorded } facts := by
  have hfirst : CursorUnmoved overtaken := by
    intro a _ facts hfacts f hf
    obtain rfl := Option.some.inj hfacts
    cases hf
  have hagain : CursorUnmoved interrupted := by
    intro a _ facts hfacts f hf _
    obtain rfl := Option.some.inj hfacts
    obtain rfl := List.mem_singleton.mp hf
    rfl
  have hrecord : recordLoss samplePlatform interrupted sampleAttempt sampleTime =
      .ok { interrupted with phase := .recorded } := by
    decide +kernel
  have hrun := (reachable_interrupted hfirst).step (e := .record sampleTime) (fun _ _ => hagain)
    (.record rfl rfl rfl hrecord)
  obtain ⟨facts, hledger, hunion⟩ := (losses_countedOnce samplePlatform _).1 _ hrun
  obtain ⟨facts', hledger', honce⟩ := (losses_countedOnce samplePlatform _).2 hrun
  obtain rfl := Option.some.inj (hledger.symm.trans hledger')
  exact ⟨facts, hledger, hunion, honce⟩

end ConfirmedLoss
