import OmiCollector.ClockModel
import OmiCollector.PyValue

/-! The persisted form of the clock state: `to_payload`, and `from_payload` with its parsers and the
checks of the four constructors.

A record here is the constructor's arguments after its type tests; `Valid` is the rest of what
`__post_init__` demands. -/
namespace ClockPayload

open Checks PyValue
open ClockModel (maxUint32)

structure ClockStateError where
  message : String
  deriving DecidableEq, Repr

abbrev Outcome (α : Type) := Except (Raised ClockStateError) α

structure ClockRange where
  startSequence : ℤ
  nextSequence : ℤ
  offsetSeconds : Option Number
  uncertaintySeconds : Option Number
  confidence : String
  sourceId : String
  deriving DecidableEq, Repr

structure ClockIntent where
  operationId : String
  phase : String
  observedEpoch : ℤ
  targetEpoch : ℤ
  hostMidpoint : Number
  writeSequenceBefore : ℤ
  writeSequenceAfter : Option ℤ
  deriving DecidableEq, Repr

structure ClockAnchor where
  sequenceFrontier : ℤ
  offsetSeconds : Number
  uncertaintySeconds : Number
  confidence : String
  sourceId : String
  deriving DecidableEq, Repr

structure ClockState where
  ranges : List ClockRange
  intent : Option ClockIntent
  anchor : Option ClockAnchor
  causalUncertainty : List (ℤ × ℤ)
  deriving DecidableEq, Repr

def confidences : List String := ["confirmed", "approximate", "unknown"]
def anchorConfidences : List String := ["confirmed", "approximate"]
def phases : List String := ["prepared", "uncertain"]

def ClockRange.Valid (r : ClockRange) : Prop :=
  (∀ n ∈ r.offsetSeconds, n.Convertible) ∧ (∀ n ∈ r.uncertaintySeconds, n.Convertible) ∧
    0 ≤ r.startSequence ∧ r.startSequence < r.nextSequence ∧ r.confidence ∈ confidences ∧
    r.sourceId ≠ "" ∧ (∀ u ∈ r.uncertaintySeconds, 0 ≤ u.toRat) ∧
    (r.offsetSeconds = none ↔ r.confidence = "unknown") ∧
    (r.offsetSeconds = none ↔ r.uncertaintySeconds = none)

def IsEpoch (z : ℤ) : Prop := 0 ≤ z ∧ z ≤ maxUint32

instance (z : ℤ) : Decidable (IsEpoch z) := inferInstanceAs (Decidable (_ ∧ _))

def ClockIntent.Valid (i : ClockIntent) : Prop :=
  i.operationId ≠ "" ∧ i.phase ∈ phases ∧ IsEpoch i.observedEpoch ∧ IsEpoch i.targetEpoch ∧
    i.hostMidpoint.Convertible ∧ 0 ≤ i.writeSequenceBefore ∧
    ∀ a ∈ i.writeSequenceAfter, i.writeSequenceBefore ≤ a

def ClockAnchor.Valid (a : ClockAnchor) : Prop :=
  0 ≤ a.sequenceFrontier ∧ a.offsetSeconds.Convertible ∧ a.uncertaintySeconds.Convertible ∧
    0 ≤ a.uncertaintySeconds.toRat ∧ a.confidence ∈ anchorConfidences ∧ a.sourceId ≠ ""

instance : DecidablePred ClockRange.Valid := fun _ => inferInstanceAs (Decidable (_ ∧ _))
instance : DecidablePred ClockIntent.Valid := fun _ => inferInstanceAs (Decidable (_ ∧ _))
instance : DecidablePred ClockAnchor.Valid := fun _ => inferInstanceAs (Decidable (_ ∧ _))

def Ordered (ranges : List ClockRange) : Prop :=
  ranges.IsChain (fun left right => left.nextSequence ≤ right.startSequence)

instance (ranges : List ClockRange) : Decidable (Ordered ranges) :=
  inferInstanceAs (Decidable (List.IsChain _ ranges))

def ValidCausalInterval (i : ℤ × ℤ) : Prop := 0 ≤ i.1 ∧ i.1 ≤ i.2

instance : DecidablePred ValidCausalInterval := fun _ => inferInstanceAs (Decidable (_ ∧ _))

/-- A state that the constructors can build. -/
structure ClockState.Valid (s : ClockState) : Prop where
  ranges : ∀ r ∈ s.ranges, r.Valid
  intent : ∀ i ∈ s.intent, i.Valid
  anchor : ∀ a ∈ s.anchor, a.Valid
  ordered : Ordered s.ranges
  causal : ∀ i ∈ s.causalUncertainty, ValidCausalInterval i

/-! ### The constructors -/

def clockStateError {α : Type} (message : String) : Outcome α := .error (.own ⟨message⟩)

/-- The end of a `__post_init__`: the arguments have their types and the record is valid. -/
def validated {R : Type} (Valid : R → Prop) [DecidablePred Valid] (message : String)
    (record : Option R) : Outcome R :=
  match record with
  | some r => if Valid r then .ok r else clockStateError message
  | none => clockStateError message

/-- `None`, or a finite number. -/
def optionalNumber (v : Value) : Outcome (Option (Option Number)) :=
  match v with
  | .null => .ok (some none)
  | v => do
    let n ← finiteNumber v
    return n.map some

/-- Both numbers are tested for being finite before anything else is. -/
def ClockRange.make (startSequence nextSequence offsetSeconds uncertaintySeconds confidence
    sourceId : Value) : Outcome ClockRange := do
  let numericOffset ← optionalNumber offsetSeconds
  let numericUncertainty ← optionalNumber uncertaintySeconds
  validated ClockRange.Valid "clock range is invalid" do
    return ⟨← startSequence.asInt, ← nextSequence.asInt, ← numericOffset, ← numericUncertainty,
      ← confidence.asText, ← sourceId.asText⟩

/-- `None`, or an integer that is no `bool`. -/
def optionalInt : Value → Option (Option ℤ)
  | .null => some none
  | v => v.asInt.map some

/-- What `valid` tests before it reaches `math.isfinite(self.host_midpoint)`. -/
def IntentHead (operationId phase observedEpoch targetEpoch : Value) : Prop :=
  (∃ s, operationId.asText = some s ∧ s ≠ "") ∧ (∃ s ∈ phases, phase.asText = some s) ∧
    (∃ z, observedEpoch.asInt = some z ∧ IsEpoch z) ∧ ∃ z, targetEpoch.asInt = some z ∧ IsEpoch z

scoped instance decidableExistsSome {α : Type} (o : Option α) (P : α → Prop) [DecidablePred P] :
    Decidable (∃ a, o = some a ∧ P a) :=
  match o with
  | none => isFalse (by rintro ⟨_, h, _⟩; cases h)
  | some a => decidable_of_iff (P a) (by simp)

instance (operationId phase observedEpoch targetEpoch : Value) :
    Decidable (IntentHead operationId phase observedEpoch targetEpoch) :=
  inferInstanceAs (Decidable (_ ∧ _))

def ClockIntent.make (operationId phase observedEpoch targetEpoch hostMidpoint
    writeSequenceBefore writeSequenceAfter : Value) : Outcome ClockIntent :=
  if IntentHead operationId phase observedEpoch targetEpoch then do
    let hostMidpoint ← finiteNumber hostMidpoint
    validated ClockIntent.Valid "clock intent is invalid" do
      return ⟨← operationId.asText, ← phase.asText, ← observedEpoch.asInt, ← targetEpoch.asInt,
        ← hostMidpoint, ← writeSequenceBefore.asInt, ← optionalInt writeSequenceAfter⟩
  else clockStateError "clock intent is invalid"

/-- Each number is reached only when the tests before it have passed. -/
def ClockAnchor.make (sequenceFrontier offsetSeconds uncertaintySeconds confidence
    sourceId : Value) : Outcome ClockAnchor :=
  if ∃ z, sequenceFrontier.asInt = some z ∧ 0 ≤ z then do
    match ← finiteNumber offsetSeconds with
    | none => clockStateError "clock anchor is invalid"
    | some offset =>
      let uncertainty ← finiteNumber uncertaintySeconds
      validated ClockAnchor.Valid "clock anchor is invalid" do
        return ⟨← sequenceFrontier.asInt, offset, ← uncertainty, ← confidence.asText,
          ← sourceId.asText⟩
  else clockStateError "clock anchor is invalid"

/-- A two-element list of integers. -/
def interval : List Value → Option (ℤ × ℤ)
  | [start, stop] => do return (← start.asInt, ← stop.asInt)
  | _ => none

def ClockState.make (ranges : List ClockRange) (intent : Option ClockIntent)
    (anchor : Option ClockAnchor) (causalUncertainty : List (List Value)) : Outcome ClockState :=
  if ¬ Ordered ranges then clockStateError "clock ranges overlap or are unordered"
  else
    match causalUncertainty.mapM fun item => (interval item).filter (ValidCausalInterval ·) with
    | none => clockStateError "clock causal uncertainty is invalid"
    | some intervals => .ok ⟨ranges, intent, anchor, intervals⟩

/-! ### The parsers -/

def rangeKeys : List String :=
  ["start_sequence", "next_sequence", "offset_seconds", "uncertainty_seconds", "confidence",
    "source_id"]

def intentKeys : List String :=
  ["operation_id", "phase", "observed_epoch", "target_epoch", "host_midpoint",
    "write_sequence_before"]

def anchorKeys : List String :=
  ["sequence_frontier", "offset_seconds", "uncertainty_seconds", "confidence", "source_id"]

def stateKeys : List String := ["schema_version", "ranges", "intent", "anchor"]

def fields (value : Fields) (required optional : List String) : Outcome Unit :=
  refuse (¬ HasKeys value required optional) (.valueError "clock state fields are invalid")

def intField (value : Value) : Outcome Value :=
  if value.IsInt then .ok value else .error (.valueError "clock state integer is invalid")

def numberField (value : Value) : Outcome Value :=
  if value.IsNumber then .ok value else .error (.valueError "clock state number is invalid")

def textField (value : Value) : Outcome Value :=
  match value.asText with
  | some _ => .ok value
  | none => .error (.valueError "clock state text is invalid")

/-- A field that may be `None`. -/
def optionalField (field : Value → Outcome Value) : Value → Outcome Value
  | .null => .ok .null
  | v => field v

def parseRange (value : Fields) : Outcome ClockRange := do
  fields value rangeKeys []
  let offset ← item value "offset_seconds"
  let uncertainty ← item value "uncertainty_seconds"
  let start ← item value "start_sequence" >>= intField
  let next ← item value "next_sequence" >>= intField
  let offset ← optionalField numberField offset
  let uncertainty ← optionalField numberField uncertainty
  let confidence ← item value "confidence" >>= textField
  let source ← item value "source_id" >>= textField
  ClockRange.make start next offset uncertainty confidence source

def parseIntent (value : Fields) : Outcome ClockIntent := do
  fields value intentKeys ["write_sequence_after"]
  let after := (value.lookup "write_sequence_after").getD .null
  let operation ← item value "operation_id" >>= textField
  let phase ← item value "phase" >>= textField
  let observed ← item value "observed_epoch" >>= intField
  let target ← item value "target_epoch" >>= intField
  let midpoint ← item value "host_midpoint" >>= numberField
  let before ← item value "write_sequence_before" >>= intField
  let after ← optionalField intField after
  ClockIntent.make operation phase observed target midpoint before after

def parseAnchor (value : Fields) : Outcome ClockAnchor := do
  fields value anchorKeys []
  let frontier ← item value "sequence_frontier" >>= intField
  let offset ← item value "offset_seconds" >>= numberField
  let uncertainty ← item value "uncertainty_seconds" >>= numberField
  let confidence ← item value "confidence" >>= textField
  let source ← item value "source_id" >>= textField
  ClockAnchor.make frontier offset uncertainty confidence source

/-! ### The payload -/

def numberValue (n : Option Number) : Value := (n.map Number.toValue).getD .null

def ClockRange.toPayload (r : ClockRange) : Fields :=
  [("start_sequence", .int r.startSequence), ("next_sequence", .int r.nextSequence),
    ("offset_seconds", numberValue r.offsetSeconds),
    ("uncertainty_seconds", numberValue r.uncertaintySeconds),
    ("confidence", .str r.confidence), ("source_id", .str r.sourceId)]

def ClockIntent.toPayload (i : ClockIntent) : Fields :=
  [("operation_id", .str i.operationId), ("phase", .str i.phase),
    ("observed_epoch", .int i.observedEpoch), ("target_epoch", .int i.targetEpoch),
    ("host_midpoint", i.hostMidpoint.toValue),
    ("write_sequence_before", .int i.writeSequenceBefore),
    ("write_sequence_after", (i.writeSequenceAfter.map Value.int).getD .null)]

def ClockAnchor.toPayload (a : ClockAnchor) : Fields :=
  [("sequence_frontier", .int a.sequenceFrontier), ("offset_seconds", a.offsetSeconds.toValue),
    ("uncertainty_seconds", a.uncertaintySeconds.toValue), ("confidence", .str a.confidence),
    ("source_id", .str a.sourceId)]

def intervalValue (i : ℤ × ℤ) : Value := .list [.int i.1, .int i.2]

/-- `None`, or a record's dictionary. -/
def optionalDict {R : Type} (payload : R → Fields) (record : Option R) : Value :=
  (record.map fun r => Value.dict (payload r)).getD .null

/-- The causal intervals are left out when there are none. -/
def ClockState.toPayload (s : ClockState) : Value :=
  .dict ([("schema_version", .int 1),
      ("ranges", .list (s.ranges.map fun r => .dict r.toPayload)),
      ("intent", optionalDict ClockIntent.toPayload s.intent),
      ("anchor", optionalDict ClockAnchor.toPayload s.anchor)] ++
    if s.causalUncertainty = [] then []
    else [("causal_uncertainty", .list (s.causalUncertainty.map intervalValue))])

/-- `except (TypeError, ValueError)`; the module's own error is a `ValueError`. -/
def rewrapped {α : Type} : Outcome α → Outcome α
  | .error (.valueError _) => clockStateError "clock state payload is invalid"
  | .error (.own _) => clockStateError "clock state payload is invalid"
  | outcome => outcome

/-- A record that is absent, or parsed from its dictionary. -/
def parseOptional {R : Type} (parse : Fields → Outcome R) (value : Value) : Outcome (Option R) :=
  match value.asDict with
  | some d => some <$> parse d
  | none => .ok none

def intervalItems (item : Value) : Outcome (List Value) :=
  match item.asList with
  | some values => .ok values
  | none => clockStateError "clock causal uncertainty is invalid"

/-- A list of lists. -/
def causalLists (uncertainty : Value) : Outcome (List (List Value)) :=
  match uncertainty.asList with
  | some items => items.mapM intervalItems
  | none => clockStateError "clock causal uncertainty is invalid"

/-- The body of the `try`: items of `values` that are no dictionaries are skipped and then missed. -/
def parseState (payload : Fields) (values : List Value) (intentValue anchorValue : Value) :
    Outcome ClockState := do
  let ranges ← (values.filterMap Value.asDict).mapM parseRange
  refuse (ranges.length ≠ values.length) (.own ⟨"clock state range is invalid"⟩)
  let intent ← parseOptional parseIntent intentValue
  let anchor ← parseOptional parseAnchor anchorValue
  let intervals ← causalLists ((payload.lookup "causal_uncertainty").getD (.list []))
  ClockState.make ranges intent anchor intervals

/-- `None`, or a dictionary. -/
def Value.NullOrDict : Value → Prop
  | .null => True
  | .dict _ => True
  | _ => False

instance (v : Value) : Decidable (Value.NullOrDict v) :=
  match v with
  | .null => isTrue trivial
  | .dict _ => isTrue trivial
  | .bool _ => isFalse id
  | .int _ => isFalse id
  | .float _ => isFalse id
  | .str _ => isFalse id
  | .list _ => isFalse id
  | .other => isFalse id

def ClockState.fromPayload (payload : Value) : Outcome ClockState :=
  match payload.asDict with
  | none => clockStateError "clock state payload is invalid"
  | some payload => do
    refuse (¬ HasKeys payload stateKeys ["causal_uncertainty"])
      (.own ⟨"clock state payload is invalid"⟩)
    let schema ← item payload "schema_version"
    refuse (schema.asInt ≠ some 1) (.own ⟨"clock state schema is unsupported"⟩)
    let values ← item payload "ranges"
    let intentValue ← item payload "intent"
    let anchorValue ← item payload "anchor"
    match values.asList with
    | none => clockStateError "clock state payload is invalid"
    | some values =>
      refuse (¬ (Value.NullOrDict intentValue ∧ Value.NullOrDict anchorValue))
        (.own ⟨"clock state payload is invalid"⟩)
      rewrapped (parseState payload values intentValue anchorValue)

/-! ### What the constructors accept -/

theorem validated_ok {R : Type} {Valid : R → Prop} [DecidablePred Valid] {message : String}
    {record : Option R} {r : R} :
    validated Valid message record = .ok r ↔ record = some r ∧ Valid r := by
  cases record with
  | none => simp [validated, clockStateError]
  | some q =>
    by_cases h : Valid q
    · simp only [validated, h, if_true, Except.ok.injEq, Option.some.injEq]
      constructor
      · rintro rfl
        exact ⟨rfl, h⟩
      · exact And.left
    · simp only [validated, h, if_false, clockStateError, reduceCtorEq, Option.some.injEq, false_iff]
      rintro ⟨rfl, hr⟩
      exact h hr

theorem validated_error {R : Type} {Valid : R → Prop} [DecidablePred Valid] {message : String}
    {record : Option R} {e : Raised ClockStateError}
    (h : validated Valid message record = .error e) : e = .own ⟨message⟩ := by
  cases record with
  | none => exact (Except.error.inj h).symm
  | some q =>
    by_cases hq : Valid q
    · simp [validated, hq] at h
    · simp only [validated, hq, if_false, clockStateError, Except.error.injEq] at h
      exact h.symm

theorem optionalNumber_of_ne {v : Value} (h : v ≠ .null) :
    optionalNumber v = finiteNumber v >>= fun n => pure (n.map some) := by
  cases v with
  | null => exact absurd rfl h
  | _ => rfl

theorem toValue_ne_null (n : Number) : n.toValue ≠ .null := by
  cases n <;> simp [Number.toValue]

theorem optionalNumber_some {v : Value} {n : Option Number} :
    optionalNumber v = .ok (some n) ↔ v = numberValue n ∧ ∀ m ∈ n, m.Convertible := by
  by_cases hv : v = .null
  · subst hv
    cases n with
    | none => simp [optionalNumber, numberValue]
    | some m => simp [optionalNumber, numberValue, (toValue_ne_null m).symm]
  · simp only [optionalNumber_of_ne hv, bind_ok, pure_ok]
    cases n with
    | none => simpa [numberValue] using hv
    | some m => simp [numberValue]

theorem optionalNumber_error {v : Value} {e : Raised ClockStateError} :
    optionalNumber v = .error e ↔ e = .overflowError ∧ v.Oversize := by
  by_cases hv : v = .null
  · simp [hv, optionalNumber, Value.Oversize]
  · simp only [optionalNumber_of_ne hv, bind_error, finiteNumber_error]
    simp [pure, Except.pure]

theorem rangeMake_ok {start next offset uncertainty confidence source : Value} {r : ClockRange} :
    ClockRange.make start next offset uncertainty confidence source = .ok r ↔
      start = .int r.startSequence ∧ next = .int r.nextSequence ∧
        offset = numberValue r.offsetSeconds ∧ uncertainty = numberValue r.uncertaintySeconds ∧
        confidence = .str r.confidence ∧ source = .str r.sourceId ∧ r.Valid := by
  simp only [ClockRange.make, bind_ok, validated_ok]
  constructor
  · rintro ⟨o, ho, u, hu, hr, hvalid⟩
    simp only [bind, Option.bind_eq_some_iff, asInt_eq_some, asText_eq_some, pure,
      Option.some.injEq] at hr
    obtain ⟨a, rfl, b, rfl, o, rfl, u, rfl, c, rfl, s, rfl, rfl⟩ := hr
    exact ⟨rfl, rfl, (optionalNumber_some.mp ho).1, (optionalNumber_some.mp hu).1, rfl, rfl,
      hvalid⟩
  · rintro ⟨rfl, rfl, rfl, rfl, rfl, rfl, hvalid⟩
    exact ⟨some r.offsetSeconds, optionalNumber_some.mpr ⟨rfl, hvalid.1⟩,
      some r.uncertaintySeconds, optionalNumber_some.mpr ⟨rfl, hvalid.2.1⟩, rfl, hvalid⟩

theorem rangeMake_overflow {start next offset uncertainty confidence source : Value} :
    ClockRange.make start next offset uncertainty confidence source = .error .overflowError ↔
      offset.Oversize ∨ uncertainty.Oversize := by
  simp only [ClockRange.make, bind_error, optionalNumber_error, true_and]
  constructor
  · rintro (h | ⟨o, -, h | ⟨u, -, h⟩⟩)
    · exact .inl h
    · exact .inr h
    · cases validated_error h
  · rintro (h | h)
    · exact .inl h
    · by_cases ho : offset.Oversize
      · exact .inl ho
      · cases hx : optionalNumber offset with
        | error e => exact absurd (optionalNumber_error.mp hx).2 ho
        | ok o => exact .inr ⟨o, rfl, .inl h⟩

theorem optionalInt_some {v : Value} {z : Option ℤ} :
    optionalInt v = some z ↔ v = (z.map Value.int).getD .null := by
  cases v <;> cases z <;> simp [optionalInt, Value.asInt]

theorem intentHead_iff {operation phase observed target : Value} :
    IntentHead operation phase observed target ↔
      ∃ o p a b, operation = .str o ∧ phase = .str p ∧ observed = .int a ∧ target = .int b ∧
        o ≠ "" ∧ p ∈ phases ∧ IsEpoch a ∧ IsEpoch b := by
  simp only [IntentHead, asText_eq_some, asInt_eq_some]
  constructor
  · rintro ⟨⟨o, ho, hne⟩, ⟨p, hp, hphase⟩, ⟨a, ha, hepoch⟩, b, hb, htarget⟩
    exact ⟨o, p, a, b, ho, hphase, ha, hb, hne, hp, hepoch, htarget⟩
  · rintro ⟨o, p, a, b, ho, hphase, ha, hb, hne, hp, hepoch, htarget⟩
    exact ⟨⟨o, ho, hne⟩, ⟨p, hp, hphase⟩, ⟨a, ha, hepoch⟩, b, hb, htarget⟩

theorem intentMake_ok {operation phase observed target midpoint before after : Value}
    {i : ClockIntent} :
    ClockIntent.make operation phase observed target midpoint before after = .ok i ↔
      operation = .str i.operationId ∧ phase = .str i.phase ∧ observed = .int i.observedEpoch ∧
        target = .int i.targetEpoch ∧ midpoint = i.hostMidpoint.toValue ∧
        before = .int i.writeSequenceBefore ∧
        after = (i.writeSequenceAfter.map Value.int).getD .null ∧ i.Valid := by
  constructor
  · intro h
    by_cases hhead : IntentHead operation phase observed target
    · simp only [ClockIntent.make, hhead, if_true, bind_ok, validated_ok] at h
      obtain ⟨n, hn, hrecord, hvalid⟩ := h
      simp only [bind, Option.bind_eq_some_iff, asInt_eq_some, asText_eq_some, pure,
        Option.some.injEq, optionalInt_some] at hrecord
      obtain ⟨o, rfl, p, rfl, a, rfl, b, rfl, m, rfl, c, rfl, z, rfl, rfl⟩ := hrecord
      exact ⟨rfl, rfl, rfl, rfl, (finiteNumber_some.mp hn).1, rfl, rfl, hvalid⟩
    · simp [ClockIntent.make, hhead, clockStateError] at h
  · rintro ⟨rfl, rfl, rfl, rfl, rfl, rfl, rfl, hvalid⟩
    obtain ⟨hne, hphase, hobserved, htarget, hfinite, hbefore, hafter⟩ := hvalid
    have hhead : IntentHead (.str i.operationId) (.str i.phase) (.int i.observedEpoch)
        (.int i.targetEpoch) :=
      intentHead_iff.mpr ⟨_, _, _, _, rfl, rfl, rfl, rfl, hne, hphase, hobserved, htarget⟩
    simp only [ClockIntent.make, hhead, if_true, bind_ok, validated_ok]
    refine ⟨some i.hostMidpoint, finiteNumber_some.mpr ⟨rfl, hfinite⟩, ?_,
      hne, hphase, hobserved, htarget, hfinite, hbefore, hafter⟩
    simp [Value.asInt, Value.asText, optionalInt_some.mpr rfl]

theorem intentMake_overflow {operation phase observed target midpoint before after : Value} :
    ClockIntent.make operation phase observed target midpoint before after =
        .error .overflowError ↔
      IntentHead operation phase observed target ∧ midpoint.Oversize := by
  by_cases hhead : IntentHead operation phase observed target
  · simp only [ClockIntent.make, hhead, if_true, bind_error, finiteNumber_error, true_and]
    constructor
    · rintro (h | ⟨n, -, h⟩)
      · exact h
      · cases validated_error h
    · exact Or.inl
  · simp [ClockIntent.make, hhead, clockStateError]

theorem anchorMake_ok {frontier offset uncertainty confidence source : Value} {a : ClockAnchor} :
    ClockAnchor.make frontier offset uncertainty confidence source = .ok a ↔
      frontier = .int a.sequenceFrontier ∧ offset = a.offsetSeconds.toValue ∧
        uncertainty = a.uncertaintySeconds.toValue ∧ confidence = .str a.confidence ∧
        source = .str a.sourceId ∧ a.Valid := by
  constructor
  · intro h
    by_cases hfrontier : ∃ z, frontier.asInt = some z ∧ 0 ≤ z
    · simp only [ClockAnchor.make, hfrontier, if_true, bind_ok] at h
      obtain ⟨o, ho, h⟩ := h
      cases o with
      | none => simp [clockStateError] at h
      | some o =>
        simp only [bind_ok, validated_ok] at h
        obtain ⟨u, hu, hrecord, hvalid⟩ := h
        simp only [bind, Option.bind_eq_some_iff, asInt_eq_some, asText_eq_some, pure,
          Option.some.injEq] at hrecord
        obtain ⟨f, rfl, u, rfl, c, rfl, s, rfl, rfl⟩ := hrecord
        exact ⟨rfl, (finiteNumber_some.mp ho).1, (finiteNumber_some.mp hu).1, rfl, rfl, hvalid⟩
    · rw [ClockAnchor.make, if_neg hfrontier] at h
      cases h
  · rintro ⟨rfl, rfl, rfl, rfl, rfl, hvalid⟩
    have hfrontier : ∃ z, (Value.int a.sequenceFrontier).asInt = some z ∧ 0 ≤ z :=
      ⟨_, rfl, hvalid.1⟩
    simp only [ClockAnchor.make, hfrontier, if_true, bind_ok]
    refine ⟨some a.offsetSeconds, finiteNumber_some.mpr ⟨rfl, hvalid.2.1⟩, ?_⟩
    simp only [bind_ok, validated_ok]
    exact ⟨some a.uncertaintySeconds, finiteNumber_some.mpr ⟨rfl, hvalid.2.2.1⟩, rfl, hvalid⟩

theorem anchorMake_overflow {frontier offset uncertainty confidence source : Value} :
    ClockAnchor.make frontier offset uncertainty confidence source = .error .overflowError ↔
      (∃ z, frontier = .int z ∧ 0 ≤ z) ∧ (offset.Oversize ∨
        (∃ n : Number, offset = n.toValue ∧ n.Convertible) ∧ uncertainty.Oversize) := by
  by_cases hfrontier : ∃ z, frontier.asInt = some z ∧ 0 ≤ z
  · have hz : ∃ z, frontier = .int z ∧ 0 ≤ z := by simpa using hfrontier
    simp only [ClockAnchor.make, hfrontier, hz, if_true, bind_error, finiteNumber_error, true_and]
    constructor
    · rintro (h | ⟨o, ho, h⟩)
      · exact .inl h
      · cases o with
        | none => simp [clockStateError] at h
        | some o =>
          simp only [bind_error, finiteNumber_error, true_and] at h
          rcases h with h | ⟨u, -, h⟩
          · exact .inr ⟨⟨o, finiteNumber_some.mp ho⟩, h⟩
          · cases validated_error h
    · rintro (h | ⟨⟨n, hn⟩, h⟩)
      · exact .inl h
      · refine .inr ⟨some n, finiteNumber_some.mpr hn, ?_⟩
        simp only [bind_error, finiteNumber_error, true_and]
        exact .inl h
  · have hz : ¬ ∃ z, frontier = .int z ∧ 0 ≤ z := by simpa using hfrontier
    rw [ClockAnchor.make, if_neg hfrontier]
    simp [hz, clockStateError]

/-! ### What the parsers accept -/

theorem fields_ok {value : Fields} {required optional : List String} {u : Unit} :
    fields value required optional = .ok u ↔ HasKeys value required optional := by
  rw [fields, refuse_ok, not_not]

theorem fields_error {value : Fields} {required optional : List String}
    {e : Raised ClockStateError} :
    fields value required optional = .error e ↔
      ¬ HasKeys value required optional ∧ .valueError "clock state fields are invalid" = e :=
  refuse_error

theorem intField_ok {v w : Value} : intField v = .ok w ↔ v.IsInt ∧ v = w := by
  by_cases h : v.IsInt <;> simp [intField, h]

theorem numberField_ok {v w : Value} : numberField v = .ok w ↔ v.IsNumber ∧ v = w := by
  by_cases h : v.IsNumber <;> simp [numberField, h]

theorem textField_ok {v w : Value} : textField v = .ok w ↔ (∃ s, v = .str s) ∧ v = w := by
  cases v <;> simp [textField, Value.asText]

theorem optionalField_ok {field : Value → Outcome Value} {P : Value → Prop}
    (hfield : ∀ {v w}, field v = .ok w ↔ P v ∧ v = w) {v w : Value} :
    optionalField field v = .ok w ↔ (v = .null ∨ P v) ∧ v = w := by
  by_cases h : v = .null
  · simp [h, optionalField]
  · have heq : optionalField field v = field v := by
      cases v with
      | null => exact absurd rfl h
      | _ => rfl
    simp [heq, hfield, h]

theorem intField_overflow {v : Value} : intField v ≠ .error .overflowError := by
  by_cases h : v.IsInt <;> simp [intField, h]

theorem numberField_overflow {v : Value} : numberField v ≠ .error .overflowError := by
  by_cases h : v.IsNumber <;> simp [numberField, h]

theorem textField_overflow {v : Value} : textField v ≠ .error .overflowError := by
  cases v <;> simp [textField, Value.asText]

theorem optionalField_overflow {field : Value → Outcome Value}
    (hfield : ∀ {v}, field v ≠ .error .overflowError) {v : Value} :
    optionalField field v ≠ .error .overflowError := by
  cases v with
  | null => simp [optionalField]
  | _ => exact hfield

/-- A required item of some type. -/
def HasItem (d : Fields) (key : String) (P : Value → Prop) : Prop :=
  ∃ v, d.lookup key = some v ∧ P v

theorem HasItem.of_lookup {d : Fields} {key : String} {P : Value → Prop} {v : Value}
    (hv : d.lookup key = some v) (h : HasItem d key P) : P v := by
  obtain ⟨w, hw, hP⟩ := h
  cases hv.symm.trans hw
  exact hP

theorem itemField_ok {d : Fields} {key : String} {field : Value → Outcome Value}
    {P : Value → Prop} (hfield : ∀ {v w}, field v = .ok w ↔ P v ∧ v = w) {w : Value} :
    item d key >>= field = .ok w ↔ d.lookup key = some w ∧ P w := by
  simp only [bind_ok, item_ok, hfield]
  constructor
  · rintro ⟨v, hv, hP, rfl⟩
    exact ⟨hv, hP⟩
  · rintro ⟨hv, hP⟩
    exact ⟨w, hv, hP, rfl⟩

theorem itemField_overflow {d : Fields} {key : String} {field : Value → Outcome Value}
    (hfield : ∀ {v}, field v ≠ .error .overflowError) :
    item d key >>= field ≠ .error .overflowError := by
  simp only [ne_eq, bind_error, item_error]
  rintro (⟨-, h⟩ | ⟨v, -, h⟩)
  · cases h
  · exact hfield h

theorem oversize_isNumber {v : Value} (h : v.Oversize) : v.IsNumber := by
  obtain ⟨z, rfl, -⟩ := h
  exact trivial

theorem toValue_isNumber (n : Number) : n.toValue.IsNumber := by
  cases n <;> exact trivial

theorem numberValue_kind (n : Option Number) :
    numberValue n = .null ∨ (numberValue n).IsNumber := by
  cases n with
  | none => exact .inl rfl
  | some m => exact .inr (toValue_isNumber m)

/-- The dictionary of a range: exactly its keys, with its values. -/
def RangeRecord (d : Fields) (r : ClockRange) : Prop :=
  HasKeys d rangeKeys [] ∧
    d.lookup "start_sequence" = some (.int r.startSequence) ∧
    d.lookup "next_sequence" = some (.int r.nextSequence) ∧
    d.lookup "offset_seconds" = some (numberValue r.offsetSeconds) ∧
    d.lookup "uncertainty_seconds" = some (numberValue r.uncertaintySeconds) ∧
    d.lookup "confidence" = some (.str r.confidence) ∧
    d.lookup "source_id" = some (.str r.sourceId)

theorem parseRange_ok {d : Fields} {r : ClockRange} :
    parseRange d = .ok r ↔ RangeRecord d r ∧ r.Valid := by
  simp only [parseRange, itemField_ok intField_ok, itemField_ok textField_ok, bind_ok, fields_ok,
    item_ok, optionalField_ok numberField_ok, rangeMake_ok]
  constructor
  · rintro ⟨-, hkeys, o, ho, u, hu, a, ⟨ha, -⟩, b, ⟨hb, -⟩, _, ⟨-, rfl⟩, _, ⟨-, rfl⟩, c, ⟨hc, -⟩,
      s, ⟨hs, -⟩, rfl, rfl, rfl, rfl, rfl, rfl, hvalid⟩
    exact ⟨⟨hkeys, ha, hb, ho, hu, hc, hs⟩, hvalid⟩
  · rintro ⟨⟨hkeys, ha, hb, ho, hu, hc, hs⟩, hvalid⟩
    exact ⟨(), hkeys, _, ho, _, hu, _, ⟨ha, trivial⟩, _, ⟨hb, trivial⟩, _, ⟨numberValue_kind _, rfl⟩,
      _, ⟨numberValue_kind _, rfl⟩, _, ⟨hc, _, rfl⟩, _, ⟨hs, _, rfl⟩, rfl, rfl, rfl, rfl, rfl, rfl,
      hvalid⟩

/-- A range whose number test meets an integer too large for a float. -/
def RangeOverflows (d : Fields) : Prop :=
  HasKeys d rangeKeys [] ∧ HasItem d "start_sequence" Value.IsInt ∧
    HasItem d "next_sequence" Value.IsInt ∧
    HasItem d "offset_seconds" (fun v => v = .null ∨ v.IsNumber) ∧
    HasItem d "uncertainty_seconds" (fun v => v = .null ∨ v.IsNumber) ∧
    HasItem d "confidence" (fun v => ∃ s, v = .str s) ∧
    HasItem d "source_id" (fun v => ∃ s, v = .str s) ∧
    (HasItem d "offset_seconds" Value.Oversize ∨ HasItem d "uncertainty_seconds" Value.Oversize)

theorem parseRange_overflow {d : Fields} :
    parseRange d = .error .overflowError ↔ RangeOverflows d := by
  simp only [parseRange, itemField_ok intField_ok, itemField_ok textField_ok, bind_error, fields_ok,
    item_ok, optionalField_ok numberField_ok, rangeMake_overflow, fields_error, item_error,
    itemField_overflow intField_overflow, itemField_overflow textField_overflow,
    optionalField_overflow numberField_overflow, reduceCtorEq, and_false, false_or]
  constructor
  · rintro ⟨-, hkeys, o, ho, u, hu, a, ha, b, hb, _, ⟨hotype, rfl⟩, _, ⟨hutype, rfl⟩, c, hc, s, hs,
      hover⟩
    exact ⟨hkeys, ⟨a, ha⟩, ⟨b, hb⟩, ⟨o, ho, hotype⟩, ⟨u, hu, hutype⟩, ⟨c, hc⟩, ⟨s, hs⟩,
      hover.imp (fun h => ⟨o, ho, h⟩) fun h => ⟨u, hu, h⟩⟩
  · rintro ⟨hkeys, ⟨a, ha⟩, ⟨b, hb⟩, ⟨o, ho, hotype⟩, ⟨u, hu, hutype⟩, ⟨c, hc⟩, ⟨s, hs⟩, hover⟩
    refine ⟨(), hkeys, o, ho, u, hu, a, ha, b, hb, o, ⟨hotype, rfl⟩, u, ⟨hutype, rfl⟩, c, hc, s, hs, ?_⟩
    exact hover.imp (HasItem.of_lookup ho) (HasItem.of_lookup hu)

/-- The dictionary of an intent, which may leave out a missing `write_sequence_after`. -/
def IntentRecord (d : Fields) (i : ClockIntent) : Prop :=
  HasKeys d intentKeys ["write_sequence_after"] ∧
    d.lookup "operation_id" = some (.str i.operationId) ∧
    d.lookup "phase" = some (.str i.phase) ∧
    d.lookup "observed_epoch" = some (.int i.observedEpoch) ∧
    d.lookup "target_epoch" = some (.int i.targetEpoch) ∧
    d.lookup "host_midpoint" = some i.hostMidpoint.toValue ∧
    d.lookup "write_sequence_before" = some (.int i.writeSequenceBefore) ∧
    (d.lookup "write_sequence_after").getD .null = (i.writeSequenceAfter.map Value.int).getD .null

theorem parseIntent_ok {d : Fields} {i : ClockIntent} :
    parseIntent d = .ok i ↔ IntentRecord d i ∧ i.Valid := by
  simp only [parseIntent, itemField_ok intField_ok, itemField_ok textField_ok,
    itemField_ok numberField_ok, bind_ok, fields_ok, optionalField_ok intField_ok, intentMake_ok]
  constructor
  · rintro ⟨-, hkeys, o, ⟨ho, -⟩, p, ⟨hp, -⟩, a, ⟨ha, -⟩, b, ⟨hb, -⟩, m, ⟨hm, -⟩, c, ⟨hc, -⟩,
      _, ⟨-, rfl⟩, rfl, rfl, rfl, rfl, rfl, rfl, hafter, hvalid⟩
    exact ⟨⟨hkeys, ho, hp, ha, hb, hm, hc, hafter⟩, hvalid⟩
  · rintro ⟨⟨hkeys, ho, hp, ha, hb, hm, hc, hafter⟩, hvalid⟩
    refine ⟨(), hkeys, _, ⟨ho, _, rfl⟩, _, ⟨hp, _, rfl⟩, _, ⟨ha, trivial⟩, _, ⟨hb, trivial⟩,
      _, ⟨hm, toValue_isNumber _⟩, _, ⟨hc, trivial⟩, _, ⟨?_, rfl⟩, rfl, rfl, rfl, rfl, rfl, rfl,
      hafter, hvalid⟩
    rw [hafter]
    cases i.writeSequenceAfter with
    | none => exact .inl rfl
    | some z => exact .inr trivial

/-- An intent whose midpoint is reached and is an integer too large for a float. -/
def IntentOverflows (d : Fields) : Prop :=
  HasKeys d intentKeys ["write_sequence_after"] ∧
    HasItem d "operation_id" (fun v => ∃ s, v = .str s ∧ s ≠ "") ∧
    HasItem d "phase" (fun v => ∃ s, v = .str s ∧ s ∈ phases) ∧
    HasItem d "observed_epoch" (fun v => ∃ z, v = .int z ∧ IsEpoch z) ∧
    HasItem d "target_epoch" (fun v => ∃ z, v = .int z ∧ IsEpoch z) ∧
    HasItem d "host_midpoint" Value.Oversize ∧ HasItem d "write_sequence_before" Value.IsInt ∧
    ∀ v, d.lookup "write_sequence_after" = some v → v = .null ∨ v.IsInt

theorem parseIntent_overflow {d : Fields} :
    parseIntent d = .error .overflowError ↔ IntentOverflows d := by
  simp only [parseIntent, bind_error, itemField_ok intField_ok, itemField_ok textField_ok,
    itemField_ok numberField_ok, fields_ok, fields_error, item_error, intField_overflow,
    numberField_overflow, textField_overflow, optionalField_overflow intField_overflow,
    optionalField_ok intField_ok, intentMake_overflow, intentHead_iff, reduceCtorEq, and_false,
    false_or, exists_false]
  constructor
  · rintro ⟨-, hkeys, _, ⟨ho, -⟩, _, ⟨hp, -⟩, _, ⟨ha, -⟩, _, ⟨hb, -⟩, m, ⟨hm, -⟩, c, hc,
      _, ⟨hafter, rfl⟩, ⟨o, p, a, b, rfl, rfl, rfl, rfl, hne, hphase, hobserved, htarget⟩, hover⟩
    refine ⟨hkeys, ⟨_, ho, o, rfl, hne⟩, ⟨_, hp, p, rfl, hphase⟩, ⟨_, ha, a, rfl, hobserved⟩,
      ⟨_, hb, b, rfl, htarget⟩, ⟨m, hm, hover⟩, ⟨c, hc⟩, ?_⟩
    intro v hv
    simpa [hv] using hafter
  · rintro ⟨hkeys, ⟨_, ho, o, rfl, hne⟩, ⟨_, hp, p, rfl, hphase⟩, ⟨_, ha, a, rfl, hobserved⟩,
      ⟨_, hb, b, rfl, htarget⟩, ⟨m, hm, hover⟩, ⟨c, hc⟩, hafter⟩
    refine ⟨(), hkeys, _, ⟨ho, _, rfl⟩, _, ⟨hp, _, rfl⟩, _, ⟨ha, trivial⟩, _, ⟨hb, trivial⟩,
      m, ⟨hm, oversize_isNumber hover⟩, c, hc, _, ⟨?_, rfl⟩,
      ⟨o, p, a, b, rfl, rfl, rfl, rfl, hne, hphase, hobserved, htarget⟩, hover⟩
    cases h : d.lookup "write_sequence_after" with
    | none => exact .inl rfl
    | some v => exact hafter v h

/-- The dictionary of an anchor. -/
def AnchorRecord (d : Fields) (a : ClockAnchor) : Prop :=
  HasKeys d anchorKeys [] ∧
    d.lookup "sequence_frontier" = some (.int a.sequenceFrontier) ∧
    d.lookup "offset_seconds" = some a.offsetSeconds.toValue ∧
    d.lookup "uncertainty_seconds" = some a.uncertaintySeconds.toValue ∧
    d.lookup "confidence" = some (.str a.confidence) ∧
    d.lookup "source_id" = some (.str a.sourceId)

theorem parseAnchor_ok {d : Fields} {a : ClockAnchor} :
    parseAnchor d = .ok a ↔ AnchorRecord d a ∧ a.Valid := by
  simp only [parseAnchor, itemField_ok intField_ok, itemField_ok textField_ok,
    itemField_ok numberField_ok, bind_ok, fields_ok, anchorMake_ok]
  constructor
  · rintro ⟨-, hkeys, f, ⟨hf, -⟩, o, ⟨ho, -⟩, u, ⟨hu, -⟩, c, ⟨hc, -⟩, s, ⟨hs, -⟩,
      rfl, rfl, rfl, rfl, rfl, hvalid⟩
    exact ⟨⟨hkeys, hf, ho, hu, hc, hs⟩, hvalid⟩
  · rintro ⟨⟨hkeys, hf, ho, hu, hc, hs⟩, hvalid⟩
    exact ⟨(), hkeys, _, ⟨hf, trivial⟩, _, ⟨ho, toValue_isNumber _⟩, _, ⟨hu, toValue_isNumber _⟩,
      _, ⟨hc, _, rfl⟩, _, ⟨hs, _, rfl⟩, rfl, rfl, rfl, rfl, rfl, hvalid⟩

/-- An anchor whose numbers are reached, the first too large for a float or else the second. -/
def AnchorOverflows (d : Fields) : Prop :=
  HasKeys d anchorKeys [] ∧ HasItem d "sequence_frontier" (fun v => ∃ z, v = .int z ∧ 0 ≤ z) ∧
    HasItem d "offset_seconds" Value.IsNumber ∧ HasItem d "uncertainty_seconds" Value.IsNumber ∧
    HasItem d "confidence" (fun v => ∃ s, v = .str s) ∧
    HasItem d "source_id" (fun v => ∃ s, v = .str s) ∧
    (HasItem d "offset_seconds" Value.Oversize ∨
      HasItem d "offset_seconds" (fun v => ∃ n : Number, v = n.toValue ∧ n.Convertible) ∧
        HasItem d "uncertainty_seconds" Value.Oversize)

theorem parseAnchor_overflow {d : Fields} :
    parseAnchor d = .error .overflowError ↔ AnchorOverflows d := by
  simp only [parseAnchor, bind_error, itemField_ok intField_ok, itemField_ok textField_ok,
    itemField_ok numberField_ok, fields_ok, fields_error, item_error, intField_overflow,
    numberField_overflow, textField_overflow, anchorMake_overflow, reduceCtorEq, and_false,
    false_or, exists_false]
  constructor
  · rintro ⟨-, hkeys, _, ⟨hf, -⟩, o, ho, u, hu, c, hc, s, hs, ⟨z, rfl, hz⟩, hover⟩
    exact ⟨hkeys, ⟨_, hf, z, rfl, hz⟩, ⟨o, ho⟩, ⟨u, hu⟩, ⟨c, hc⟩, ⟨s, hs⟩,
      hover.imp (fun h => ⟨o, ho.1, h⟩) fun h => ⟨⟨o, ho.1, h.1⟩, u, hu.1, h.2⟩⟩
  · rintro ⟨hkeys, ⟨_, hf, z, rfl, hz⟩, ⟨o, ho⟩, ⟨u, hu⟩, ⟨c, hc⟩, ⟨s, hs⟩, hover⟩
    refine ⟨(), hkeys, _, ⟨hf, trivial⟩, o, ho, u, hu, c, hc, s, hs, ⟨z, rfl, hz⟩, ?_⟩
    exact hover.imp (HasItem.of_lookup ho.1) fun h =>
      ⟨HasItem.of_lookup ho.1 h.1, HasItem.of_lookup hu.1 h.2⟩

/-! ### Keys are checked before they are read -/

/-- No failure but a value error, the module's own error or an overflow. -/
def Checked {α : Type} (x : Outcome α) : Prop := ∀ key, x ≠ .error (.keyError key)

theorem Checked.bind {α β : Type} {x : Outcome α} {f : α → Outcome β} (hx : Checked x)
    (hf : ∀ a, x = .ok a → Checked (f a)) : Checked (x >>= f) := by
  intro key h
  rcases bind_error.mp h with h | ⟨a, ha, h⟩
  · exact hx key h
  · exact hf a ha key h

theorem checked_item {d : Fields} {required optional : List String}
    (hkeys : HasKeys d required optional) {key : String} (hkey : key ∈ required) :
    Checked (item d key) := by
  intro k h
  obtain ⟨v, hv⟩ := hkeys.lookup hkey
  simp [hv] at h

theorem checked_itemField {d : Fields} {required optional : List String}
    (hkeys : HasKeys d required optional) {key : String} (hkey : key ∈ required)
    {field : Value → Outcome Value} (hfield : ∀ v, Checked (field v)) :
    Checked (item d key >>= field) :=
  (checked_item hkeys hkey).bind fun v _ => hfield v

theorem checked_intField (v : Value) : Checked (intField v) := by
  intro key
  by_cases h : v.IsInt <;> simp [intField, h]

theorem checked_numberField (v : Value) : Checked (numberField v) := by
  intro key
  by_cases h : v.IsNumber <;> simp [numberField, h]

theorem checked_textField (v : Value) : Checked (textField v) := by
  intro key
  cases v <;> simp [textField, Value.asText]

theorem checked_optionalField {field : Value → Outcome Value} (hfield : ∀ v, Checked (field v))
    (v : Value) : Checked (optionalField field v) := by
  cases v with
  | null => exact fun key => by simp [optionalField]
  | _ => exact hfield _

theorem checked_finiteNumber (v : Value) :
    Checked (finiteNumber v : Outcome (Option Number)) := by
  intro key h
  cases (finiteNumber_error.mp h).1

theorem checked_optionalNumber (v : Value) : Checked (optionalNumber v) := by
  intro key h
  cases (optionalNumber_error.mp h).1

theorem checked_validated {R : Type} {Valid : R → Prop} [DecidablePred Valid] {message : String}
    {record : Option R} : Checked (validated Valid message record) := by
  intro key h
  cases validated_error h

theorem checked_fields {value : Fields} {required optional : List String} :
    Checked (fields value required optional) := by
  intro key h
  cases (fields_error.mp h).2

theorem checked_rangeMake {start next offset uncertainty confidence source : Value} :
    Checked (ClockRange.make start next offset uncertainty confidence source) :=
  (checked_optionalNumber _).bind fun _ _ =>
    (checked_optionalNumber _).bind fun _ _ => checked_validated

theorem checked_clockStateError {α : Type} {message : String} :
    Checked (clockStateError message : Outcome α) := by
  intro key h
  cases h

theorem checked_intentMake {operation phase observed target midpoint before after : Value} :
    Checked (ClockIntent.make operation phase observed target midpoint before after) := by
  unfold ClockIntent.make
  split
  · exact (checked_finiteNumber _).bind fun _ _ => checked_validated
  · exact checked_clockStateError

theorem checked_anchorMake {frontier offset uncertainty confidence source : Value} :
    Checked (ClockAnchor.make frontier offset uncertainty confidence source) := by
  unfold ClockAnchor.make
  split
  · refine (checked_finiteNumber _).bind fun o _ => ?_
    cases o with
    | none => exact checked_clockStateError
    | some o => exact (checked_finiteNumber _).bind fun _ _ => checked_validated
  · exact checked_clockStateError

theorem checked_parseRange (d : Fields) : Checked (parseRange d) := by
  refine checked_fields.bind fun _ hkeys => ?_
  have hkeys := fields_ok.mp hkeys
  refine (checked_item hkeys (by decide)).bind fun _ _ => ?_
  refine (checked_item hkeys (by decide)).bind fun _ _ => ?_
  refine (checked_itemField hkeys (by decide) checked_intField).bind fun _ _ => ?_
  refine (checked_itemField hkeys (by decide) checked_intField).bind fun _ _ => ?_
  refine (checked_optionalField checked_numberField _).bind fun _ _ => ?_
  refine (checked_optionalField checked_numberField _).bind fun _ _ => ?_
  refine (checked_itemField hkeys (by decide) checked_textField).bind fun _ _ => ?_
  refine (checked_itemField hkeys (by decide) checked_textField).bind fun _ _ => ?_
  exact checked_rangeMake

theorem checked_parseIntent (d : Fields) : Checked (parseIntent d) := by
  refine checked_fields.bind fun _ hkeys => ?_
  have hkeys := fields_ok.mp hkeys
  refine (checked_itemField hkeys (by decide) checked_textField).bind fun _ _ => ?_
  refine (checked_itemField hkeys (by decide) checked_textField).bind fun _ _ => ?_
  refine (checked_itemField hkeys (by decide) checked_intField).bind fun _ _ => ?_
  refine (checked_itemField hkeys (by decide) checked_intField).bind fun _ _ => ?_
  refine (checked_itemField hkeys (by decide) checked_numberField).bind fun _ _ => ?_
  refine (checked_itemField hkeys (by decide) checked_intField).bind fun _ _ => ?_
  exact (checked_optionalField checked_intField _).bind fun _ _ => checked_intentMake

theorem checked_parseAnchor (d : Fields) : Checked (parseAnchor d) := by
  refine checked_fields.bind fun _ hkeys => ?_
  have hkeys := fields_ok.mp hkeys
  refine (checked_itemField hkeys (by decide) checked_intField).bind fun _ _ => ?_
  refine (checked_itemField hkeys (by decide) checked_numberField).bind fun _ _ => ?_
  refine (checked_itemField hkeys (by decide) checked_numberField).bind fun _ _ => ?_
  refine (checked_itemField hkeys (by decide) checked_textField).bind fun _ _ => ?_
  refine (checked_itemField hkeys (by decide) checked_textField).bind fun _ _ => ?_
  exact checked_anchorMake

end ClockPayload
