import OmiCollector.RefusalLogic
import OmiCollector.TransferArena
import OmiCollector.TransitionRuns

/-! The backing buffer of a transfer arena. The buffer is allocated once and written in place, so
that a gap or an overwrite would be visible; the calls run statement by statement and may fail
between them. The law of the received part is an invariant of every sequence of calls. -/
namespace ArenaBuffer

open ByteCodec RefusalLogic TransitionRuns
open TransferArena (recordSize)

inductive ErrorKind where
  | transferArena
  | capacity
  | leg
  | overrun
  | sequence
  | dataMismatch
  | publication
  deriving DecidableEq, Repr

structure Failure where
  kind : ErrorKind
  message : String
  deriving DecidableEq, Repr

structure Arena where
  startSequence : ℕ
  totalRecords : ℕ
  buffer : Bytes
  receivedBytes : ℕ
  submittedBytes : ℕ
  legStart : ℕ
  legBytes : ℕ
  legTotalBytes : ℕ
  deriving DecidableEq, Repr

namespace Arena

variable (a : Arena)

def totalBytes : ℕ := a.totalRecords * recordSize

def endSequence : ℕ := a.startSequence + a.totalRecords

def completeRecords : ℕ := a.receivedBytes / recordSize

def nextSequence : ℕ := a.startSequence + a.completeRecords

/-- Where the selected leg starts in the buffer. -/
def legOffset : ℕ := (a.legStart - a.startSequence) * recordSize

/-- The write position of the selected leg. -/
def position : ℕ := a.legOffset + a.legBytes

def partialTail : Bytes :=
  (a.buffer.take a.receivedBytes).drop (a.completeRecords * recordSize)

end Arena

def requireUint (value : ℤ) (label : String) : Except Failure ℕ :=
  if value < 0 then .error ⟨.transferArena, label ++ " must be a non-negative integer"⟩
  else .ok value.toNat

/-- Admission checks come before the one allocation. -/
def create (startSequence totalRecords maxBytes size : ℤ) : Except Failure Arena := do
  let start ← requireUint startSequence "start_sequence"
  let total ← requireUint totalRecords "total_records"
  if size ≠ recordSize then
    throw ⟨.transferArena, "record_size must be exactly 444"⟩
  let limit ← requireUint maxBytes "max_bytes"
  if limit < total * recordSize then
    throw ⟨.capacity, "snapshot requires " ++ toString (total * recordSize) ++
      " bytes; max_bytes is " ++ toString limit⟩
  pure ⟨start, total, List.replicate (total * recordSize) 0, 0, 0, start, 0, total * recordSize⟩

abbrev ArenaM := Refusable Arena Failure

/-- Validate and select a reconnect leg. -/
def beginLeg (startSequence recordCount : ℤ) : ArenaM PUnit := do
  let start ← requireOk (requireUint startSequence "start_sequence")
  let count ← requireOk (requireUint recordCount "record_count")
  refuseIf (count = 0) ⟨.leg, "record_count must be positive"⟩
  let a ← get
  refuseIf (start < a.startSequence) ⟨.sequence, "leg starts before the snapshot"⟩
  refuseIf (a.endSequence < start + count) ⟨.overrun, "leg extends beyond the snapshot"⟩
  refuseIf (a.nextSequence < start) ⟨.sequence, "leg starts after the next expected sequence"⟩
  modify ({ · with legStart := start })
  modify ({ · with legBytes := 0 })
  modify ({ · with legTotalBytes := count * recordSize })

/-- Slice assignment of `source` at `start`, in place. -/
def splice (buffer : Bytes) (start : ℕ) (source : Bytes) : Bytes :=
  buffer.take start ++ source ++ buffer.drop (start + source.length)

/-- Copy one notification fragment into the selected leg: replayed bytes are compared with the
received part, and only what lies beyond it is written. -/
def append (fragment : Bytes) : ArenaM PUnit := do
  let a ← get
  refuseIf (a.legTotalBytes < a.legBytes + fragment.length)
    ⟨.overrun, "fragment exceeds the selected leg"⟩
  let absoluteStart := a.position
  let absoluteEnd := absoluteStart + fragment.length
  refuseIf (a.totalBytes < absoluteEnd) ⟨.overrun, "fragment exceeds the snapshot"⟩
  let overlapEnd := min absoluteEnd a.receivedBytes
  refuseIf (absoluteStart < overlapEnd ∧
      (a.buffer.take overlapEnd).drop absoluteStart ≠ fragment.take (overlapEnd - absoluteStart))
    ⟨.dataMismatch, "replayed bytes differ from the received prefix"⟩
  let writeStart := max absoluteStart a.receivedBytes
  if writeStart < absoluteEnd then
    modify (fun a =>
      { a with buffer := splice a.buffer writeStart (fragment.drop (writeStart - absoluteStart)) })
    modify ({ · with receivedBytes := absoluteEnd })
  modify (fun a => { a with legBytes := a.legBytes + fragment.length })

/-- Hand a complete-record part to the writer; submission never moves backward. -/
def submitPrefix (recordCount : Option ℤ) : ArenaM Bytes := do
  let a ← get
  let target : ℤ := recordCount.getD a.completeRecords
  refuseIf (target < 0 ∨ (a.completeRecords : ℤ) < target)
    ⟨.publication, "submitted record count is outside the received prefix"⟩
  let targetBytes := target.toNat * recordSize
  refuseIf (targetBytes < a.submittedBytes)
    ⟨.publication, "submitted prefix cannot move backward"⟩
  modify ({ · with submittedBytes := targetBytes })
  return a.buffer.take targetBytes

inductive Call where
  | beginLeg (startSequence recordCount : ℤ)
  | append (fragment : Bytes)
  | submitPrefix (recordCount : Option ℤ)

def perform : Call → ArenaM PUnit
  | .beginLeg startSequence recordCount => beginLeg startSequence recordCount
  | .append fragment => append fragment
  | .submitPrefix recordCount => do
    let _ ← submitPrefix recordCount
    return ⟨⟩

def step (a : Arena) (call : Call) : Arena := (exec (perform call) a).2

/-- The bytes accepted in the selected leg, after those accepted before. -/
def legBytesAfter (a : Arena) (accepted : Bytes) (call : Call) : Bytes :=
  match (exec (perform call) a).1, call with
  | .ok _, .beginLeg _ _ => []
  | .ok _, .append fragment => accepted ++ fragment
  | _, _ => accepted

/-- The bytes accepted in the current leg of a run. -/
def legAccepted (a : Arena) (accepted : Bytes) : List Call → Bytes
  | [] => accepted
  | call :: calls => legAccepted (step a call) (legBytesAfter a accepted call) calls

/-- A fragment contradicts the received bytes it replays. -/
def Mismatch (a : Arena) (fragment : Bytes) : Prop :=
  a.position < min (a.position + fragment.length) a.receivedBytes ∧
    (a.buffer.take (min (a.position + fragment.length) a.receivedBytes)).drop a.position ≠
      fragment.take (min (a.position + fragment.length) a.receivedBytes - a.position)

/-- The arena after an accepted fragment. -/
def Arena.appended (a : Arena) (fragment : Bytes) : Arena :=
  if max a.position a.receivedBytes < a.position + fragment.length then
    { a with
      buffer := splice a.buffer (max a.position a.receivedBytes)
        (fragment.drop (max a.position a.receivedBytes - a.position))
      receivedBytes := a.position + fragment.length
      legBytes := a.legBytes + fragment.length }
  else { a with legBytes := a.legBytes + fragment.length }

theorem wp_append (a : Arena) (fragment : Bytes) :
    wp (append fragment) a
      (fun _ next => a.position + fragment.length ≤ a.totalBytes ∧ ¬ Mismatch a fragment ∧
        next = a.appended fragment)
      (fun e next => next = a ∧ (e.kind = .dataMismatch → Mismatch a fragment)) := by
  simp only [append, wp_bind, wp_get, wp_refuseIf, wp_ite, wp_modify]
  refine ⟨fun _ => ⟨trivial, by simp⟩, fun _ => ⟨fun _ => ⟨trivial, by simp⟩, fun hfits =>
    ⟨fun hmismatch => ⟨trivial, fun _ => hmismatch⟩, fun hagree => ⟨fun hnew => ?_, fun hold => ?_⟩⟩⟩⟩
  · exact ⟨by omega, hagree, by rw [Arena.appended, if_pos hnew]⟩
  · exact ⟨by omega, hagree, by rw [Arena.appended, if_neg hold]⟩

theorem wp_beginLeg (a : Arena) (startSequence recordCount : ℤ) :
    wp (beginLeg startSequence recordCount) a
      (fun _ next => ∃ start count : ℕ, a.startSequence ≤ start ∧ start ≤ a.nextSequence ∧
        start + count ≤ a.endSequence ∧
        next = { a with legStart := start, legBytes := 0, legTotalBytes := count * recordSize })
      (fun e next => next = a ∧ e.kind ≠ .dataMismatch) := by
  have huint : ∀ (value : ℤ) (label : String) (e : Failure), requireUint value label = .error e →
      e.kind ≠ .dataMismatch := by
    intro value label e h
    unfold requireUint at h
    split at h
    · obtain rfl := Except.error.inj h
      simp
    · exact absurd h (by simp)
  simp only [beginLeg, wp_bind, wp_get, wp_refuseIf, wp_requireOk, wp_modify]
  refine ⟨fun e he => ⟨trivial, huint _ _ e he⟩, fun start _ => ⟨fun e he => ⟨trivial, huint _ _ e he⟩,
    fun count _ => ⟨fun _ => ⟨trivial, by simp⟩, fun _ => ⟨fun _ => ⟨trivial, by simp⟩, fun hstart =>
      ⟨fun _ => ⟨trivial, by simp⟩, fun hend => ⟨fun _ => ⟨trivial, by simp⟩, fun hnext => ?_⟩⟩⟩⟩⟩⟩
  exact ⟨start, count, by omega, by omega, by omega, rfl⟩

theorem wp_submitPrefix (a : Arena) (recordCount : Option ℤ) :
    wp (submitPrefix recordCount) a
      (fun _ next => ∃ target ≤ a.completeRecords,
        next = { a with submittedBytes := target * recordSize })
      (fun e next => next = a ∧ e.kind ≠ .dataMismatch) := by
  simp only [submitPrefix, wp_bind, wp_get, wp_refuseIf, wp_modify, wp_pure]
  refine ⟨fun _ => ⟨trivial, by simp⟩, fun hrange => ⟨fun _ => ⟨trivial, by simp⟩, fun _ => ?_⟩⟩
  exact ⟨_, by omega, rfl⟩

/-- What an accepted call does. -/
inductive Effect (a : Arena) : Call → Arena → Prop where
  | beginLeg {startSequence recordCount : ℤ} (start count : ℕ) (lower : a.startSequence ≤ start)
      (upper : start ≤ a.nextSequence) (bounded : start + count ≤ a.endSequence) :
      Effect a (.beginLeg startSequence recordCount)
        { a with legStart := start, legBytes := 0, legTotalBytes := count * recordSize }
  | append {fragment : Bytes} (fits : a.position + fragment.length ≤ a.totalBytes)
      (agrees : ¬ Mismatch a fragment) : Effect a (.append fragment) (a.appended fragment)
  | submitPrefix {recordCount : Option ℤ} (target : ℕ) (upper : target ≤ a.completeRecords) :
      Effect a (.submitPrefix recordCount) { a with submittedBytes := target * recordSize }

/-- A call has its effect or is refused without one, and only a contradicting fragment is refused
as a mismatch. -/
theorem perform_cases (a : Arena) (call : Call) :
    (∃ next, exec (perform call) a = (.ok ⟨⟩, next) ∧ Effect a call next) ∨
      ∃ e, exec (perform call) a = (.error e, a) ∧ (e.kind = .dataMismatch →
        ∃ fragment, call = .append fragment ∧ Mismatch a fragment) := by
  have hspec : wp (perform call) a (fun _ next => Effect a call next)
      (fun e next => next = a ∧ (e.kind = .dataMismatch →
        ∃ fragment, call = .append fragment ∧ Mismatch a fragment)) := by
    cases call with
    | beginLeg startSequence recordCount =>
      refine wp_mono (wp_beginLeg a startSequence recordCount) (fun _ next h => ?_)
        (fun _ _ h => ⟨h.1, fun hkind => absurd hkind h.2⟩)
      obtain ⟨start, count, hlower, hupper, hbounded, rfl⟩ := h
      exact .beginLeg start count hlower hupper hbounded
    | append fragment =>
      refine wp_mono (wp_append a fragment) (fun _ next h => ?_)
        (fun _ _ h => ⟨h.1, fun hkind => ⟨fragment, rfl, h.2 hkind⟩⟩)
      obtain ⟨hfits, hagrees, rfl⟩ := h
      exact .append hfits hagrees
    | submitPrefix recordCount =>
      simp only [perform, wp_bind, wp_pure]
      refine wp_mono (wp_submitPrefix a recordCount) (fun _ next h => ?_)
        (fun _ _ h => ⟨h.1, fun hkind => absurd hkind h.2⟩)
      obtain ⟨target, hupper, rfl⟩ := h
      exact .submitPrefix target hupper
  unfold wp at hspec
  split at hspec
  · rename_i u next heq
    exact .inl ⟨next, heq, hspec⟩
  · rename_i e next heq
    obtain ⟨rfl, hkind⟩ := hspec
    exact .inr ⟨e, heq, hkind⟩

theorem getElem?_splice {buffer source : Bytes} {start : ℕ} (h : start ≤ buffer.length) (i : ℕ) :
    (splice buffer start source)[i]? =
      if i < start then buffer[i]?
      else if i < start + source.length then source[i - start]?
      else buffer[i]? := by
  have hlen : (buffer.take start).length = start := by simp [h]
  unfold splice
  split
  · rename_i hi
    rw [List.append_assoc, List.getElem?_append_left (by omega), List.getElem?_take_of_lt hi]
  split
  · rename_i hlow hhigh
    rw [List.append_assoc, List.getElem?_append_right (by omega),
      List.getElem?_append_left (by omega), hlen]
  · rename_i hlow hhigh
    rw [List.getElem?_append_right (by simp [h]; omega), List.getElem?_drop]
    congr 1
    simp [h]
    omega

theorem length_splice {buffer source : Bytes} {start : ℕ}
    (h : start + source.length ≤ buffer.length) :
    (splice buffer start source).length = buffer.length := by
  simp [splice]
  omega

/-- The law of the received part. The write position of a leg never runs ahead of it, so a
fragment extends it without a hole. -/
structure Law (a : Arena) : Prop where
  allocated : a.buffer.length = a.totalBytes
  submitted : a.submittedBytes ≤ a.completeRecords * recordSize
  received : a.receivedBytes ≤ a.totalBytes
  position : a.position ≤ a.receivedBytes

theorem completeRecords_le (a : Arena) : a.completeRecords * recordSize ≤ a.receivedBytes :=
  Nat.div_mul_le_self _ _

/-- The buffer of an accepted fragment, byte by byte. -/
theorem appended_getElem? {a : Arena} {fragment : Bytes} (h : Law a) (i : ℕ) :
    (a.appended fragment).buffer[i]? =
      if a.receivedBytes ≤ i ∧ i < a.position + fragment.length then fragment[i - a.position]?
      else a.buffer[i]? := by
  have hmax : max a.position a.receivedBytes = a.receivedBytes := max_eq_right h.position
  unfold Arena.appended
  rw [hmax]
  split
  · rename_i hnew
    change (splice a.buffer a.receivedBytes _)[i]? = _
    rw [getElem?_splice (by rw [h.allocated]; exact h.received)]
    have hlen : (fragment.drop (a.receivedBytes - a.position)).length =
        a.position + fragment.length - a.receivedBytes := by
      rw [List.length_drop]
      have := h.position
      omega
    rw [hlen]
    by_cases hlow : i < a.receivedBytes
    · rw [if_pos hlow, if_neg (by omega)]
    · by_cases hhigh : i < a.position + fragment.length
      · rw [if_neg hlow, if_pos (by omega), if_pos ⟨by omega, hhigh⟩, List.getElem?_drop]
        congr 1
        have := h.position
        omega
      · rw [if_neg hlow, if_neg (by omega), if_neg (by omega)]
  · rename_i hold
    rw [if_neg (by omega)]

theorem appended_position (a : Arena) (fragment : Bytes) :
    (a.appended fragment).position = a.position + fragment.length := by
  unfold Arena.appended
  split <;> simp only [Arena.position, Arena.legOffset] <;> omega

theorem appended_receivedBytes {a : Arena} (fragment : Bytes) (h : Law a) :
    (a.appended fragment).receivedBytes =
      max a.receivedBytes (a.position + fragment.length) := by
  have hposition := h.position
  unfold Arena.appended
  split
  · change a.position + fragment.length = _
    omega
  · change a.receivedBytes = _
    omega

theorem appended_length {a : Arena} {fragment : Bytes} (h : Law a)
    (hfits : a.position + fragment.length ≤ a.totalBytes) :
    (a.appended fragment).buffer.length = a.totalBytes := by
  have hmax : max a.position a.receivedBytes = a.receivedBytes := max_eq_right h.position
  unfold Arena.appended
  rw [hmax]
  split
  · change (splice _ _ _).length = _
    rw [length_splice]
    · exact h.allocated
    · rw [h.allocated, List.length_drop]
      have := h.position
      omega
  · exact h.allocated

theorem appended_frame (a : Arena) (fragment : Bytes) :
    (a.appended fragment).totalBytes = a.totalBytes ∧
      (a.appended fragment).submittedBytes = a.submittedBytes ∧
      (a.appended fragment).legOffset = a.legOffset ∧
      (a.appended fragment).legBytes = a.legBytes + fragment.length := by
  unfold Arena.appended
  split <;> exact ⟨rfl, rfl, rfl, rfl⟩

/-- Bytes below the receive watermark never change. -/
theorem Effect.kept {a next : Arena} {call : Call} (h : Law a) (heffect : Effect a call next) :
    a.receivedBytes ≤ next.receivedBytes ∧
      ∀ i < a.receivedBytes, next.buffer[i]? = a.buffer[i]? := by
  cases heffect with
  | beginLeg start count => exact ⟨le_refl _, fun _ _ => rfl⟩
  | append fits agrees =>
    refine ⟨?_, fun i hi => ?_⟩
    · rw [appended_receivedBytes _ h]
      exact le_max_left _ _
    · rw [appended_getElem? h, if_neg (by omega)]
  | submitPrefix target => exact ⟨le_refl _, fun _ _ => rfl⟩

theorem Effect.law {a next : Arena} {call : Call} (h : Law a) (heffect : Effect a call next) :
    Law next := by
  cases heffect with
  | beginLeg start count lower upper bounded =>
    refine ⟨h.allocated, h.submitted, h.received, ?_⟩
    have hcount : start - a.startSequence ≤ a.completeRecords := by
      simp only [Arena.nextSequence] at upper
      omega
    simp only [Arena.position, Arena.legOffset, Nat.add_zero]
    exact (Nat.mul_le_mul_right _ hcount).trans (completeRecords_le a)
  | @append fragment fits agrees =>
    obtain ⟨htotal, hsubmitted, -, -⟩ := appended_frame a fragment
    have hreceived := appended_receivedBytes fragment h
    refine ⟨?_, ?_, ?_, ?_⟩
    · rw [htotal]
      exact appended_length h fits
    · rw [hsubmitted]
      refine h.submitted.trans (Nat.mul_le_mul_right _ (Nat.div_le_div_right ?_))
      rw [hreceived]
      exact le_max_left _ _
    · rw [hreceived, htotal]
      exact max_le h.received fits
    · rw [hreceived, appended_position]
      exact le_max_right _ _
  | submitPrefix target upper =>
    exact ⟨h.allocated, Nat.mul_le_mul_right _ upper, h.received, h.position⟩

/-- An accepted fragment repeats what was received where it replays it. -/
theorem replay_agrees {a : Arena} {fragment : Bytes} (h : ¬ Mismatch a fragment) {j : ℕ}
    (hj : j < fragment.length) (hreceived : a.position + j < a.receivedBytes) :
    a.buffer[a.position + j]? = fragment[j]? := by
  have hsame : (a.buffer.take (min (a.position + fragment.length) a.receivedBytes)).drop a.position =
      fragment.take (min (a.position + fragment.length) a.receivedBytes - a.position) := by
    by_contra hne
    exact h ⟨by omega, hne⟩
  have hindex := congrArg (fun bytes => bytes[j]?) hsame
  simp only [List.getElem?_drop] at hindex
  rwa [List.getElem?_take_of_lt (by omega), List.getElem?_take_of_lt (by omega)] at hindex

/-- The bytes accepted in a leg stand in the buffer where the leg starts. -/
structure LegHeld (a : Arena) (accepted : Bytes) : Prop where
  length : accepted.length = a.legBytes
  bytes : ∀ i < accepted.length, a.buffer[a.legOffset + i]? = accepted[i]?

theorem LegHeld.append {a : Arena} {accepted fragment : Bytes} (h : Law a)
    (hheld : LegHeld a accepted) (hagrees : ¬ Mismatch a fragment) :
    LegHeld (a.appended fragment) (accepted ++ fragment) := by
  obtain ⟨-, -, hoffset, hbytes⟩ := appended_frame a fragment
  refine ⟨by rw [List.length_append, hheld.length, hbytes], fun i hi => ?_⟩
  rw [List.length_append] at hi
  rw [hoffset, appended_getElem? h]
  have hposition : a.position = a.legOffset + accepted.length := by
    rw [hheld.length]
    rfl
  by_cases hprior : i < accepted.length
  · rw [if_neg (by have := h.position; omega), List.getElem?_append_left hprior]
    exact hheld.bytes i hprior
  · rw [List.getElem?_append_right (by omega)]
    have hindex : a.legOffset + i = a.position + (i - accepted.length) := by omega
    by_cases hfresh : a.receivedBytes ≤ a.legOffset + i
    · rw [if_pos ⟨hfresh, by omega⟩, hindex, Nat.add_sub_cancel_left]
    · rw [if_neg (by omega), hindex]
      exact replay_agrees hagrees (by omega) (by omega)

theorem Effect.legHeld {a next : Arena} {call : Call} {accepted : Bytes} (h : Law a)
    (hheld : LegHeld a accepted) (heffect : Effect a call next)
    (hexec : exec (perform call) a = (.ok ⟨⟩, next)) :
    LegHeld next (legBytesAfter a accepted call) := by
  cases heffect with
  | beginLeg start count =>
    simp only [legBytesAfter, hexec]
    exact ⟨rfl, by simp⟩
  | append fits agrees =>
    simp only [legBytesAfter, hexec]
    exact hheld.append h agrees
  | submitPrefix target =>
    simp only [legBytesAfter, hexec]
    exact ⟨hheld.length, hheld.bytes⟩

/-- The law and the bytes of the current leg hold through every run. -/
theorem run_law {a : Arena} {accepted : Bytes} (h : Law a) (hheld : LegHeld a accepted)
    (calls : List Call) :
    Law (run step a calls) ∧ LegHeld (run step a calls) (legAccepted a accepted calls) := by
  induction calls generalizing a accepted with
  | nil => exact ⟨h, hheld⟩
  | cons call calls ih =>
    rw [run_cons, legAccepted]
    rcases perform_cases a call with ⟨next, hexec, heffect⟩ | ⟨e, hexec, -⟩
    · have hstep : step a call = next := by rw [step, hexec]
      rw [hstep]
      exact ih (heffect.law h) (heffect.legHeld h hheld hexec)
    · have hstep : step a call = a := by rw [step, hexec]
      have hbytes : legBytesAfter a accepted call = accepted := by
        cases call <;> simp only [legBytesAfter, hexec]
      rw [hstep, hbytes]
      exact ih h hheld

theorem create_law {startSequence totalRecords maxBytes size : ℤ} {a : Arena}
    (h : create startSequence totalRecords maxBytes size = .ok a) :
    Law a ∧ LegHeld a [] ∧ a.receivedBytes = 0 := by
  unfold create at h
  simp only [bind, Except.bind, pure, Except.pure, throw, throwThe, MonadExceptOf.throw] at h
  split at h
  · exact absurd h (by simp)
  split at h
  · exact absurd h (by simp)
  split at h
  · exact absurd h (by simp)
  split at h
  · exact absurd h (by simp)
  split at h
  · exact absurd h (by simp)
  obtain rfl := Except.ok.inj h
  refine ⟨⟨by simp [Arena.totalBytes], Nat.zero_le _, Nat.zero_le _, ?_⟩, ⟨rfl, by simp⟩, rfl⟩
  simp [Arena.position, Arena.legOffset]

/-- The call appends the bytes that a fixed stream holds at the position of the leg. -/
def FromStream (stream : ℕ → UInt8) (a : Arena) : Call → Prop
  | .append fragment => ∀ i < fragment.length, fragment[i]? = some (stream (a.position + i))
  | _ => True

def Streamed (stream : ℕ → UInt8) (a : Arena) : Prop :=
  Law a ∧ ∀ i < a.receivedBytes, a.buffer[i]? = some (stream i)

theorem Streamed.agrees {stream : ℕ → UInt8} {a : Arena} {fragment : Bytes}
    (h : Streamed stream a) (hcall : FromStream stream a (.append fragment)) :
    ¬ Mismatch a fragment := by
  rintro ⟨-, hne⟩
  apply hne
  apply List.ext_getElem?
  intro j
  by_cases hj : j < min (a.position + fragment.length) a.receivedBytes - a.position
  · rw [List.getElem?_drop, List.getElem?_take_of_lt (by omega), List.getElem?_take_of_lt hj,
      h.2 _ (by omega), hcall j (by omega)]
  · have hlength := h.1.received
    rw [← h.1.allocated] at hlength
    rw [List.getElem?_eq_none (by simp; omega), List.getElem?_eq_none (by simp; omega)]

theorem streamed_step {stream : ℕ → UInt8} (a : Arena) (call : Call)
    (hcall : FromStream stream a call) (h : Streamed stream a) : Streamed stream (step a call) := by
  rcases perform_cases a call with ⟨next, hexec, heffect⟩ | ⟨e, hexec, -⟩
  · have hstep : step a call = next := by rw [step, hexec]
    rw [hstep]
    refine ⟨heffect.law h.1, ?_⟩
    cases heffect with
    | beginLeg start count => exact h.2
    | append fits agrees =>
      intro i hi
      rw [appended_receivedBytes _ h.1] at hi
      rw [appended_getElem? h.1]
      split
      · rename_i hfresh
        have hposition := h.1.position
        rw [hcall (i - a.position) (by omega)]
        congr 2
        omega
      · exact h.2 i (by omega)
    | submitPrefix target => exact h.2
  · have hstep : step a call = a := by rw [step, hexec]
    rw [hstep]
    exact h

/-- The prefix law of the transfer arena, for every arena and every sequence of calls. -/
theorem arena_prefix_law {startSequence totalRecords maxBytes size : ℤ} {initial : Arena}
    (hcreate : create startSequence totalRecords maxBytes size = .ok initial)
    (calls : List Call) (call : Call) :
    let a := run step initial calls
    let next := step a call
    (a.submittedBytes ≤ a.completeRecords * recordSize ∧
      a.completeRecords * recordSize ≤ a.receivedBytes ∧ a.receivedBytes ≤ a.totalBytes) ∧
    a.position ≤ a.receivedBytes ∧
    (a.receivedBytes ≤ next.receivedBytes ∧
      next.buffer.take a.receivedBytes = a.buffer.take a.receivedBytes) ∧
    (a.buffer.drop a.legOffset).take a.legBytes = legAccepted initial [] calls ∧
    (∀ e, (exec (perform call) a).1 = .error e → next = a) ∧
    (∀ stream, Along step (FromStream stream) initial calls → FromStream stream a call →
      (∀ e, (exec (perform call) a).1 = .error e → e.kind ≠ .dataMismatch) ∧
        ∀ i < a.receivedBytes, a.buffer[i]? = some (stream i)) := by
  intro a next
  obtain ⟨hlaw, hleg, hempty⟩ := create_law hcreate
  obtain ⟨hlaw', hheld⟩ := run_law hlaw hleg calls
  refine ⟨⟨hlaw'.submitted, completeRecords_le a, hlaw'.received⟩, hlaw'.position, ?_, ?_, ?_, ?_⟩
  · rcases perform_cases a call with ⟨after, hexec, heffect⟩ | ⟨e, hexec, -⟩
    · have hstep : next = after := by rw [show next = step a call from rfl, step, hexec]
      obtain ⟨hle, hkept⟩ := heffect.kept hlaw'
      rw [hstep]
      refine ⟨hle, List.ext_getElem? fun i => ?_⟩
      by_cases hi : i < a.receivedBytes
      · rw [List.getElem?_take_of_lt hi, List.getElem?_take_of_lt hi, hkept i hi]
      · rw [List.getElem?_take_eq_none (by omega), List.getElem?_take_eq_none (by omega)]
    · have hstep : next = a := by rw [show next = step a call from rfl, step, hexec]
      rw [hstep]
      exact ⟨le_refl _, rfl⟩
  · apply List.ext_getElem?
    intro i
    by_cases hi : i < a.legBytes
    · rw [List.getElem?_take_of_lt hi, List.getElem?_drop]
      exact hheld.bytes i (hheld.length ▸ hi)
    · rw [List.getElem?_take_eq_none (by omega), List.getElem?_eq_none]
      rw [hheld.length]
      exact not_lt.mp hi
  · intro e he
    rcases perform_cases a call with ⟨after, hexec, -⟩ | ⟨e', hexec, -⟩
    · rw [hexec] at he
      exact absurd he (by simp)
    · rw [show next = step a call from rfl, step, hexec]
  · intro stream hcalls hcall
    have hstreamed : Streamed stream a :=
      run_invariant_along (fun b c hc hb => streamed_step b c hc hb)
        ⟨hlaw, fun i hi => by omega⟩ hcalls
    refine ⟨fun e he hkind => ?_, hstreamed.2⟩
    rcases perform_cases a call with ⟨after, hexec, -⟩ | ⟨e', hexec, hmismatch⟩
    · rw [hexec] at he
      exact absurd he (by simp)
    · rw [hexec] at he
      obtain rfl := Except.error.inj he
      obtain ⟨fragment, rfl, hbad⟩ := hmismatch hkind
      exact hstreamed.agrees hcall hbad

/-- The arena of one record at sequence 7. -/
def oneRecord : Arena := ⟨7, 1, List.replicate 444 0, 0, 0, 7, 0, 444⟩

theorem create_oneRecord : create 7 1 444 444 = .ok oneRecord := by decide +kernel

/-- A leg that restarts over a partial record and replays it. -/
theorem arena_prefix_law_replay :
    let calls : List Call := [.append [1, 2, 3], .beginLeg 7 1, .append [1, 2]]
    let a := run step oneRecord calls
    (a.buffer.drop a.legOffset).take a.legBytes = [1, 2] ∧ a.receivedBytes = 3 ∧
      a.position ≤ a.receivedBytes := by
  have hlaw := arena_prefix_law create_oneRecord
    [.append [1, 2, 3], .beginLeg 7 1, .append [1, 2]] (.submitPrefix none)
  exact ⟨hlaw.2.2.2.1.trans (by decide +kernel), by decide +kernel, hlaw.2.1⟩

end ArenaBuffer
