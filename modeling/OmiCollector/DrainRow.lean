import OmiCollector.ConfirmedLoss
import OmiCollector.DecimalText
import OmiCollector.PyValue
import OmiCollector.ReadyClosures

/-! The private pendant drain row and the storage incident beside it.

The operations take arguments of any type and rows as the database decodes them; the order of a
row's items means nothing. Every operation is one transaction, so what it returns is what it
commits and an error leaves the rows as they were. -/
namespace DrainRow

open PyValue Checks

/-- The loss ledger's parameters, and what `datetime.fromisoformat` says of a text: nothing for its
`ValueError`, else whether the time has an offset. -/
structure Platform where
  losses : ConfirmedLoss.Platform
  fromIsoFormat : String → Option Bool

def rowVersion : ℤ := 1
def storageIncidentVersion : ℤ := 1
def maxBatteryPercent : ℤ := 100

def rowFields : List String :=
  ["version", "ring", "last_drain", "battery", "pending_event_id", "pending_source_id",
    "pending_frontier"]

def incidentFields : List String :=
  ["version", "incident_id", "status", "detected_at", "resolved_at"]

/-- `row[key]` for a key that is there. -/
def value (row : Fields) (key : String) : Value := (row.lookup key).getD .null

/-- `row[key] = v` for a key that is there. -/
def assign (row : Fields) (key : String) (v : Value) : Fields :=
  row.map fun field => if field.1 = key then (key, v) else field

def isNone : Value → Bool
  | .null => true
  | _ => false

/-- `not text.strip()`. -/
def Blank (text : String) : Prop := DecimalText.strip text.toList = []

instance (text : String) : Decidable (Blank text) := inferInstanceAs (Decidable (_ = _))

/-- A text that is not blank. -/
def isName (v : Value) : Bool :=
  match v with
  | .str s => decide (¬ Blank s)
  | _ => false

/-- An integer in a range; without a bound, any that is not negative. -/
def isCount (maximum : Option ℤ) (v : Value) : Bool :=
  match v with
  | .int z => decide (0 ≤ z ∧ ∀ bound ∈ maximum, z ≤ bound)
  | _ => false

def isoText (text : String) : String :=
  if text.toList.getLast? = some 'Z' then String.ofList text.toList.dropLast ++ "+00:00" else text

def validateTimestamp (p : Platform) (v : Value) : Except String Unit :=
  match v with
  | .str text =>
    match p.fromIsoFormat (isoText text) with
    | none => .error "timestamp must be an ISO 8601 string"
    | some zoned => refuse (zoned = false) "timestamp must include a timezone"
  | _ => .error "timestamp must be an ISO 8601 string"

/-- The check of a public value: a dictionary of these two keys, of which the second is a time. -/
def validatePublicValue (p : Platform) (v : Value) (key stamp : String) (check : Value → Bool)
    (shapeText checkText : String) : Except String Unit :=
  match v with
  | .null => .ok ()
  | .dict fields => do
    refuse (¬ HasKeys fields [key, stamp] []) shapeText
    refuse (check (value fields key) = false) checkText
    validateTimestamp p (value fields stamp)
  | _ => .error shapeText

def validatePublicValues (p : Platform) (row : Fields) : Except String Unit := do
  validatePublicValue p (value row "ring") "unread_packets" "observed_at" (isCount none)
    "pendant ring observation is invalid" "pendant unread packet count is invalid"
  validatePublicValue p (value row "last_drain") "event_id" "completed_at" isName
    "pendant drain completion is invalid" "pendant drain event ID is invalid"
  validatePublicValue p (value row "battery") "percent" "observed_at"
    (isCount (some maxBatteryPercent)) "pendant battery observation is invalid"
    "pendant battery percentage is invalid"

def validateCustodyMetadata (pending source frontier : Value) : Except String Unit :=
  if isNone pending then
    refuse (isNone source = false ∨ isNone frontier = false)
      "unarmed pendant drain custody metadata is invalid"
  else
    refuse (isName source = false ∨ isCount none frontier = false)
      "pending pendant drain custody metadata is invalid"

def validateRow (p : Platform) (row : Fields) : Except String Unit := do
  refuse (¬ HasKeys row rowFields [] ∨ (value row "version").asInt ≠ some rowVersion)
    "pendant drain state schema is invalid"
  validatePublicValues p row
  let pending := value row "pending_event_id"
  refuse (isNone pending = false ∧ isName pending = false) "pending pendant drain token is invalid"
  validateCustodyMetadata pending (value row "pending_source_id") (value row "pending_frontier")

def emptyRow : Fields :=
  [("version", .int rowVersion), ("ring", .null), ("last_drain", .null), ("battery", .null),
    ("pending_event_id", .null), ("pending_source_id", .null), ("pending_frontier", .null)]

def rowOrEmpty (p : Platform) (row : Option Fields) : Except String Fields :=
  match row with
  | none => .ok emptyRow
  | some row => do
    validateRow p row
    pure row

def validateIncidentStatus (p : Platform) (incident : Fields) : Except String Unit :=
  if (value incident "status").asText = some "open" ∧ isNone (value incident "resolved_at") then
    .ok ()
  else if (value incident "status").asText = some "resolved" then
    validateTimestamp p (value incident "resolved_at")
  else .error "pendant storage incident status is invalid"

def validateStorageIncident (p : Platform) (incident : Fields) : Except String Unit := do
  refuse (¬ HasKeys incident incidentFields []) "pendant storage incident schema is invalid"
  refuse ((value incident "version").asInt ≠ some storageIncidentVersion)
    "pendant storage incident schema is invalid"
  refuse (isName (value incident "incident_id") = false)
    "pendant storage incident identity is invalid"
  validateTimestamp p (value incident "detected_at")
  validateIncidentStatus p incident

/-- The two rows of the state database. -/
structure Rows where
  drain : Option Fields
  incident : Option Fields

/-- An argument that should be a pair. -/
inductive Observed where
  | tuple (items : List Value)
  | other

/-- What the operations did to tokens and incidents; no code reads it. -/
inductive Act where
  | armed (token : String)
  | completed (token : String)
  | opened (incident : String)
  | resolved (incident : String)
  deriving DecidableEq, Repr

def validateObservation (p : Platform) (maximum : Option ℤ) (text : String) :
    Option Observed → Except String Unit
  | none => .ok ()
  | some (.tuple [count, stamp]) => do
    refuse (isCount maximum count = false) text
    validateTimestamp p stamp
  | _ => .error text

def validateRing (p : Platform) : Option Observed → Except String Unit :=
  validateObservation p none "ring observation is invalid"

def validateBattery (p : Platform) : Option Observed → Except String Unit :=
  validateObservation p (some maxBatteryPercent) "battery observation is invalid"

/-- A dictionary of a value and the time it was observed. -/
def stamped (key stamp : String) (v time : Value) : Value := .dict [(key, v), (stamp, time)]

/-- The row with an observation that passed its check, which an absent one leaves as it is. -/
def observe (row : Fields) (field key : String) : Option Observed → Fields
  | some (.tuple [count, stamp]) => assign row field (stamped key "observed_at" count stamp)
  | _ => row

def updateObservations (p : Platform) (rows : Rows) (ring battery : Option Observed) :
    Except String Rows := do
  validateRing p ring
  validateBattery p battery
  let row ← rowOrEmpty p rows.drain
  let row := observe (observe row "ring" "unread_packets" ring) "battery" "percent" battery
  pure { rows with drain := some row }

/-- The incident after an INFO. -/
def resolveIncident (p : Platform) (incident : Option Fields) (observedAt : Value) :
    Except String (Option Fields × List Act) :=
  match incident with
  | none => .ok (none, [])
  | some incident => do
    validateStorageIncident p incident
    if (value incident "status").asText = some "open" then
      pure (some (assign (assign incident "status" (.str "resolved")) "resolved_at" observedAt),
        [.resolved ((value incident "incident_id").asText.getD "")])
    else pure (some incident, [])

def recordInfo (p : Platform) (rows : Rows) (unread observedAt : Value) :
    Except String (Rows × List Act) := do
  validateRing p (some (.tuple [unread, observedAt]))
  let row ← rowOrEmpty p rows.drain
  let row := assign row "ring" (stamped "unread_packets" "observed_at" unread observedAt)
  let (incident, acts) ← resolveIncident p rows.incident observedAt
  pure (⟨some row, incident⟩, acts)

def newIncident (incidentId : String) (observedAt : Value) : Fields :=
  [("version", .int storageIncidentVersion), ("incident_id", .str incidentId),
    ("status", .str "open"), ("detected_at", observedAt), ("resolved_at", .null)]

/-- The incident after the storage was unavailable; a new one gets a fresh identity. -/
def openIncident (p : Platform) (incident : Option Fields) (incidentId : String)
    (observedAt : Value) : Except String (Option Fields × List Act) :=
  match incident with
  | none => .ok (some (newIncident incidentId observedAt), [.opened incidentId])
  | some incident => do
    validateStorageIncident p incident
    if (value incident "status").asText = some "resolved" then
      pure (some (newIncident incidentId observedAt), [.opened incidentId])
    else pure (some incident, [])

def recordStorageUnavailable (p : Platform) (rows : Rows) (observedAt : Value)
    (incidentId : String) : Except String (Rows × List Act) := do
  validateTimestamp p observedAt
  let row ← rowOrEmpty p rows.drain
  let row := assign row "ring" .null
  let (incident, acts) ← openIncident p rows.incident incidentId observedAt
  pure (⟨some row, incident⟩, acts)

/-- The row holds this source and frontier. -/
def Binds (row : Fields) (sourceId : Option String) (frontier : Option ℤ) : Prop :=
  (value row "pending_source_id").asText = sourceId ∧ (value row "pending_frontier").asInt = frontier

instance (row : Fields) (sourceId : Option String) (frontier : Option ℤ) :
    Decidable (Binds row sourceId frontier) :=
  inferInstanceAs (Decidable (_ ∧ _))

def setPending (row : Fields) (token sourceId frontier : Value) : Fields :=
  assign (assign (assign row "pending_event_id" token) "pending_source_id" sourceId)
    "pending_frontier" frontier

/-- Another custody than the pending one gets a fresh token. -/
def armPending (p : Platform) (rows : Rows) (sourceId frontier : Value) (token : String) :
    Except String (Rows × List Act) := do
  refuse (isName sourceId = false) "pendant drain source ID is invalid"
  refuse (isCount none frontier = false) "pendant drain custody frontier is invalid"
  let row ← rowOrEmpty p rows.drain
  if Binds row sourceId.asText frontier.asInt then pure (rows, [])
  else pure ({ rows with drain := some (setPending row (.str token) sourceId frontier) },
    [.armed token])

def pendingBinding (p : Platform) (rows : Rows) : Except String (Option (String × ℤ)) := do
  let row ← rowOrEmpty p rows.drain
  if isNone (value row "pending_event_id") then pure none
  else
    match (value row "pending_source_id").asText, (value row "pending_frontier").asInt with
    | some sourceId, some frontier => pure (some (sourceId, frontier))
    | _, _ => pure none

structure AcceptedDrainCustody where
  sourceId : String
  frontier : ℤ
  confirmedLossEnd : Option ℤ
  deriving DecidableEq, Repr

/-- An argument that should be a ring INFO. -/
inductive Info where
  | ringInfo (readSequence writeSequence : Value)
  | other

/-- The evidence of a completion: the verified INFO and the two times. -/
structure Drain where
  info : Info
  observedAt : Value
  completedAt : Value

def validateFrontier (frontier : ℤ) : Except String Unit :=
  refuse (frontier < 0) "closure frontier is invalid"

def validateAcceptedCustody (custody : AcceptedDrainCustody) : Except String Unit :=
  refuse (Blank custody.sourceId ∨ custody.frontier < 0 ∨ ∃ stop ∈ custody.confirmedLossEnd, stop < 0)
    "accepted pendant custody binding is invalid"

def validateCustody : Option AcceptedDrainCustody → Except String Unit
  | none => .ok ()
  | some custody => validateAcceptedCustody custody

/-- The cursor of an INFO that reports zero unread packets. -/
def zeroUnreadCursor : Info → Except String ℤ
  | .other => .error "verified drain INFO must report zero unread packets"
  | .ringInfo readSequence writeSequence =>
    match readSequence, writeSequence with
    | .int readSequence, .int writeSequence => do
      refuse (readSequence < 0 ∨ writeSequence < 0) "verified drain INFO sequence is invalid"
      refuse (readSequence ≠ writeSequence) "verified drain INFO must report zero unread packets"
      pure readSequence
    | _, _ => .error "verified drain INFO sequence is invalid"

def CursorIsCovered (cursor closureFrontier : ℤ) (custody : AcceptedDrainCustody) : Prop :=
  cursor = closureFrontier ∨
    (closureFrontier < cursor ∧ custody.confirmedLossEnd = some cursor)

/-- The accepted custody, the closure and the pending binding are the same, and the cursor is
covered. -/
def Completes (row : Fields) (cursor closureFrontier : ℤ) (custody : AcceptedDrainCustody) : Prop :=
  isNone (value row "pending_event_id") = false ∧
    Binds row (some custody.sourceId) (some custody.frontier) ∧
    (value row "pending_frontier").asInt = some closureFrontier ∧
    CursorIsCovered cursor closureFrontier custody

instance (cursor closureFrontier : ℤ) (custody : AcceptedDrainCustody) :
    Decidable (CursorIsCovered cursor closureFrontier custody) :=
  inferInstanceAs (Decidable (_ ∨ _))

instance (row : Fields) (cursor closureFrontier : ℤ) (custody : AcceptedDrainCustody) :
    Decidable (Completes row cursor closureFrontier custody) :=
  inferInstanceAs (Decidable (_ ∧ _))

/-- The row of a completed drain. -/
def complete (row : Fields) (completedAt : Value) : Fields :=
  setPending
    (assign row "last_drain"
      (stamped "event_id" "completed_at" (value row "pending_event_id") completedAt))
    .null .null .null

def completeRow (row : Fields) (drain : Drain) (cursor closureFrontier : ℤ)
    (custody : Option AcceptedDrainCustody) : Fields × List Act :=
  match custody with
  | none => (row, [])
  | some custody =>
    if Completes row cursor closureFrontier custody then
      (complete row drain.completedAt,
        [.completed ((value row "pending_event_id").asText.getD "")])
    else (row, [])

def completeInTransaction (p : Platform) (rows : Rows) (drain : Drain) (closureFrontier : ℤ)
    (custody : Option AcceptedDrainCustody) : Except String (Rows × List Act) := do
  validateTimestamp p drain.observedAt
  validateTimestamp p drain.completedAt
  validateFrontier closureFrontier
  validateCustody custody
  let cursor ← zeroUnreadCursor drain.info
  let row ← rowOrEmpty p rows.drain
  let row := assign row "ring" (stamped "unread_packets" "observed_at" (.int 0) drain.observedAt)
  let (row, acts) := completeRow row drain cursor closureFrontier custody
  pure ({ rows with drain := some row }, acts)

/-- A time with an offset. -/
def Timestamp (p : Platform) (text : String) : Prop := p.fromIsoFormat (isoText text) = some true

/-- The custody that a token stands for. -/
structure Pending where
  eventId : String
  sourceId : String
  frontier : ℤ
  deriving DecidableEq, Repr

/-- The contents of a drain row. -/
structure Row where
  ring : Option (ℤ × String)
  lastDrain : Option (String × String)
  battery : Option (ℤ × String)
  pending : Option Pending
  deriving DecidableEq, Repr

def Row.empty : Row := ⟨none, none, none, none⟩

def observedValue (key : String) : Option (ℤ × String) → Value
  | none => .null
  | some observed => stamped key "observed_at" (.int observed.1) (.str observed.2)

def drainValue : Option (String × String) → Value
  | none => .null
  | some drain => stamped "event_id" "completed_at" (.str drain.1) (.str drain.2)

def textValue : Option String → Value
  | none => .null
  | some text => .str text

def intValue : Option ℤ → Value
  | none => .null
  | some z => .int z

def Row.fields (r : Row) : Fields :=
  [("version", .int rowVersion), ("ring", observedValue "unread_packets" r.ring),
    ("last_drain", drainValue r.lastDrain), ("battery", observedValue "percent" r.battery),
    ("pending_event_id", textValue (r.pending.map Pending.eventId)),
    ("pending_source_id", textValue (r.pending.map Pending.sourceId)),
    ("pending_frontier", intValue (r.pending.map Pending.frontier))]

structure Row.Valid (p : Platform) (r : Row) : Prop where
  ring : ∀ o ∈ r.ring, 0 ≤ o.1 ∧ Timestamp p o.2
  lastDrain : ∀ d ∈ r.lastDrain, ¬ Blank d.1 ∧ Timestamp p d.2
  battery : ∀ o ∈ r.battery, (0 ≤ o.1 ∧ o.1 ≤ maxBatteryPercent) ∧ Timestamp p o.2
  pending : ∀ b ∈ r.pending, ¬ Blank b.eventId ∧ ¬ Blank b.sourceId ∧ 0 ≤ b.frontier

/-- The contents of a storage incident. -/
structure Incident where
  incidentId : String
  detectedAt : String
  resolvedAt : Option String
  deriving DecidableEq, Repr

def Incident.fields (i : Incident) : Fields :=
  [("version", .int storageIncidentVersion), ("incident_id", .str i.incidentId),
    ("status", .str (if i.resolvedAt = none then "open" else "resolved")),
    ("detected_at", .str i.detectedAt), ("resolved_at", textValue i.resolvedAt)]

structure Incident.Valid (p : Platform) (i : Incident) : Prop where
  name : ¬ Blank i.incidentId
  detected : Timestamp p i.detectedAt
  resolved : ∀ text ∈ i.resolvedAt, Timestamp p text

/-- The rows hold these contents; a missing row is an empty one. -/
structure Holds (p : Platform) (rows : Rows) (r : Row) (i : Option Incident) : Prop where
  drain : rows.drain = some r.fields ∨ (rows.drain = none ∧ r = Row.empty)
  row : r.Valid p
  incident : rows.incident = i.map Incident.fields
  valid : ∀ x ∈ i, Incident.Valid p x

section Contents

variable {p : Platform} {r : Row} {rows : Rows} {i : Option Incident}

theorem value_cons (key k : String) (v : Value) (row : Fields) :
    value ((key, v) :: row) k = if k = key then v else value row k := by
  by_cases h : k = key
  · simp [value, h]
  · have hbeq : (k == key) = false := by simp [h]
    simp [value, List.lookup_cons, h, hbeq]

theorem Row.value_lastDrain (r : Row) : value r.fields "last_drain" = drainValue r.lastDrain := rfl

theorem Row.value_eventId (r : Row) :
    value r.fields "pending_event_id" = textValue (r.pending.map Pending.eventId) := rfl

theorem Row.value_sourceId (r : Row) :
    value r.fields "pending_source_id" = textValue (r.pending.map Pending.sourceId) := rfl

theorem Row.value_frontier (r : Row) :
    value r.fields "pending_frontier" = intValue (r.pending.map Pending.frontier) := rfl

theorem Row.hasKeys (r : Row) : HasKeys r.fields rowFields [] := by
  simp [HasKeys, Row.fields, rowFields, List.lookup_cons]

theorem Incident.hasKeys (i : Incident) : HasKeys i.fields incidentFields [] := by
  simp [HasKeys, Incident.fields, incidentFields, List.lookup_cons]

theorem validateTimestamp_ok {v : Value} {u : Unit} :
    validateTimestamp p v = .ok u ↔ ∃ text, v = .str text ∧ Timestamp p text := by
  cases v with
  | str text =>
    simp only [validateTimestamp, Timestamp]
    cases h : p.fromIsoFormat (isoText text) with
    | none => simp [h]
    | some zoned => cases zoned <;> simp [h]
  | _ => simp [validateTimestamp]

theorem isName_iff {v : Value} : isName v = true ↔ ∃ text, v = .str text ∧ ¬ Blank text := by
  cases v <;> simp [isName]

theorem isCount_iff {maximum : Option ℤ} {v : Value} :
    isCount maximum v = true ↔ ∃ z, v = .int z ∧ 0 ≤ z ∧ ∀ bound ∈ maximum, z ≤ bound := by
  cases v <;> simp [isCount]

theorem validatePublicValue_stamped {key stamp : String} {check : Value → Bool} {a b : String}
    {v : Value} {text : String} (hkeys : key ≠ stamp) (hcheck : check v = true)
    (htext : Timestamp p text) :
    validatePublicValue p (stamped key stamp v (.str text)) key stamp check a b = .ok () := by
  have hfields : HasKeys [(key, v), (stamp, Value.str text)] [key, stamp] [] := by
    have hbeq : (stamp == key) = false := by simp [hkeys.symm]
    simp [HasKeys, List.lookup_cons, hbeq]
  simp only [stamped, validatePublicValue, bind_ok, refuse_ok]
  refine ⟨(), not_not.mpr hfields, (), ?_, validateTimestamp_ok.mpr ⟨text, ?_, htext⟩⟩
  · simp [value_cons, hcheck]
  · simp [value_cons, hkeys.symm]

/-- Valid contents pass the check of the stored row. -/
theorem validateRow_fields (h : r.Valid p) : validateRow p r.fields = .ok () := by
  have hring : validatePublicValue p (observedValue "unread_packets" r.ring) "unread_packets"
      "observed_at" (isCount none) "pendant ring observation is invalid"
      "pendant unread packet count is invalid" = .ok () := by
    cases hring : r.ring with
    | none => rfl
    | some o =>
      obtain ⟨hcount, htime⟩ := h.ring o hring
      exact validatePublicValue_stamped (by decide) (isCount_iff.mpr ⟨_, rfl, hcount, by simp⟩) htime
  have hdrain : validatePublicValue p (drainValue r.lastDrain) "event_id" "completed_at" isName
      "pendant drain completion is invalid" "pendant drain event ID is invalid" = .ok () := by
    cases hdrain : r.lastDrain with
    | none => rfl
    | some d =>
      obtain ⟨hname, htime⟩ := h.lastDrain d hdrain
      exact validatePublicValue_stamped (by decide) (isName_iff.mpr ⟨_, rfl, hname⟩) htime
  have hbattery : validatePublicValue p (observedValue "percent" r.battery) "percent"
      "observed_at" (isCount (some maxBatteryPercent)) "pendant battery observation is invalid"
      "pendant battery percentage is invalid" = .ok () := by
    cases hbattery : r.battery with
    | none => rfl
    | some o =>
      obtain ⟨⟨hlow, hhigh⟩, htime⟩ := h.battery o hbattery
      exact validatePublicValue_stamped (by decide)
        (isCount_iff.mpr ⟨_, rfl, hlow, by simpa using hhigh⟩) htime
  have hschema : ¬ (¬ HasKeys r.fields rowFields [] ∨
      (value r.fields "version").asInt ≠ some rowVersion) := by
    rintro (hkeys | hversion)
    · exact hkeys r.hasKeys
    · exact hversion rfl
  simp only [validateRow, validatePublicValues, bind_ok, refuse_ok]
  refine ⟨(), hschema, (), ⟨(), hring, (), hdrain, hbattery⟩, (), ?_⟩
  rw [Row.value_eventId, Row.value_sourceId, Row.value_frontier]
  cases hpending : r.pending with
  | none => exact ⟨by simp [textValue, isNone], rfl⟩
  | some b =>
    obtain ⟨hevent, hsource, hfrontier⟩ := h.pending b hpending
    have hcount : isCount none (.int b.frontier) = true :=
      isCount_iff.mpr ⟨_, rfl, hfrontier, by simp⟩
    simp [textValue, intValue, isNone, isName, validateCustodyMetadata, hevent, hsource, hcount]

theorem Incident.value_status (i : Incident) : value i.fields "status" =
    .str (if i.resolvedAt = none then "open" else "resolved") := rfl

theorem Incident.value_incidentId (i : Incident) : value i.fields "incident_id" = .str i.incidentId :=
  rfl

theorem Incident.status_open (i : Incident) :
    (value i.fields "status").asText = some "open" ↔ i.resolvedAt = none := by
  rw [Incident.value_status]
  by_cases h : i.resolvedAt = none <;> simp [h, Value.asText]

theorem Incident.status_resolved (i : Incident) :
    (value i.fields "status").asText = some "resolved" ↔ i.resolvedAt ≠ none := by
  rw [Incident.value_status]
  by_cases h : i.resolvedAt = none <;> simp [h, Value.asText]

theorem Row.assign_ring (r : Row) (o : Option (ℤ × String)) :
    assign r.fields "ring" (observedValue "unread_packets" o) = ({ r with ring := o } : Row).fields := by
  simp [assign, Row.fields]

theorem Row.assign_lastDrain (r : Row) (d : Option (String × String)) :
    assign r.fields "last_drain" (drainValue d) = ({ r with lastDrain := d } : Row).fields := by
  simp [assign, Row.fields]

theorem Row.assign_battery (r : Row) (o : Option (ℤ × String)) :
    assign r.fields "battery" (observedValue "percent" o) = ({ r with battery := o } : Row).fields := by
  simp [assign, Row.fields]

theorem Row.setPending_fields (r : Row) (b : Option Pending) :
    setPending r.fields (textValue (b.map Pending.eventId)) (textValue (b.map Pending.sourceId))
      (intValue (b.map Pending.frontier)) = ({ r with pending := b } : Row).fields := by
  simp [setPending, assign, Row.fields]

theorem Row.empty_valid : Row.empty.Valid p where
  ring := by simp [Row.empty]
  lastDrain := by simp [Row.empty]
  battery := by simp [Row.empty]
  pending := by simp [Row.empty]

/-- Reading the row of valid contents gives those contents. -/
theorem Holds.rowOrEmpty (h : Holds p rows r i) : rowOrEmpty p rows.drain = .ok r.fields := by
  rcases h.drain with hsome | ⟨hnone, rfl⟩
  · rw [hsome]
    simp only [DrainRow.rowOrEmpty, validateRow_fields h.row, bind_ok]
    exact ⟨(), trivial, rfl⟩
  · rw [hnone]
    rfl

/-- What the checked arguments of an observation are. -/
theorem validateObservation_ok {maximum : Option ℤ} {text : String} {observed : Option Observed}
    {u : Unit} (h : validateObservation p maximum text observed = .ok u) :
    observed = none ∨ ∃ z time, observed = some (.tuple [.int z, .str time]) ∧ 0 ≤ z ∧
      (∀ bound ∈ maximum, z ≤ bound) ∧ Timestamp p time := by
  unfold validateObservation at h
  split at h
  · exact .inl rfl
  · rename_i count stamp
    simp only [bind_ok, refuse_ok, Bool.not_eq_false, isCount_iff, validateTimestamp_ok] at h
    obtain ⟨_, ⟨z, rfl, hlow, hhigh⟩, time, rfl, htime⟩ := h
    exact .inr ⟨z, time, rfl, hlow, hhigh, htime⟩
  · cases h

/-- An observation changes nothing but what it observed. -/
theorem updateObservations_ok (h : Holds p rows r i) {ring battery : Option Observed} {rows' : Rows}
    (hok : updateObservations p rows ring battery = .ok rows') :
    ∃ o b, Holds p rows' { r with ring := o, battery := b } i := by
  simp only [updateObservations, bind_ok, h.rowOrEmpty, Except.ok.injEq, exists_eq_left', pure_ok]
    at hok
  obtain ⟨_, hring, _, hbattery, rfl⟩ := hok
  have hobserved : ∃ o, observe r.fields "ring" "unread_packets" ring =
      ({ r with ring := o } : Row).fields ∧ ({ r with ring := o } : Row).Valid p := by
    rcases validateObservation_ok hring with rfl | ⟨z, time, rfl, hz, -, htime⟩
    · exact ⟨r.ring, rfl, h.row⟩
    · exact ⟨some (z, time), r.assign_ring (some (z, time)),
        { h.row with ring := by simpa using ⟨hz, htime⟩ }⟩
  obtain ⟨o, hfields, hvalid⟩ := hobserved
  rcases validateObservation_ok hbattery with rfl | ⟨z, time, rfl, hz, hmax, htime⟩
  · exact ⟨o, r.battery, .inl (by rw [hfields]; rfl), hvalid, h.incident, h.valid⟩
  · refine ⟨o, some (z, time), .inl ?_, ?_, h.incident, h.valid⟩
    · rw [hfields]
      exact congrArg some (Row.assign_battery _ (some (z, time)))
    · have hpercent : (0 ≤ z ∧ z ≤ maxBatteryPercent) ∧ Timestamp p time :=
        ⟨⟨hz, hmax _ rfl⟩, htime⟩
      exact { hvalid with battery := by simpa using hpercent }

/-- An incident after an INFO at this time. -/
def Incident.resolve (time : String) (i : Incident) : Incident :=
  if i.resolvedAt = none then { i with resolvedAt := some time } else i

/-- The acts of the resolution. -/
def resolutions : Option Incident → List Act
  | none => []
  | some i => if i.resolvedAt = none then [.resolved i.incidentId] else []

theorem validateStorageIncident_fields {x : Incident} (h : x.Valid p) :
    validateStorageIncident p x.fields = .ok () := by
  have hname : isName (value x.fields "incident_id") = true := isName_iff.mpr ⟨_, rfl, h.name⟩
  have hstatus : validateIncidentStatus p x.fields = .ok () := by
    unfold validateIncidentStatus
    by_cases hopen : x.resolvedAt = none
    · have hnone : isNone (value x.fields "resolved_at") = true := by
        change isNone (textValue x.resolvedAt) = true
        rw [hopen]
        rfl
      rw [if_pos ⟨x.status_open.mpr hopen, hnone⟩]
    · obtain ⟨time, htime⟩ := Option.ne_none_iff_exists'.mp hopen
      have hvalue : value x.fields "resolved_at" = .str time := by
        change textValue x.resolvedAt = _
        rw [htime]
        rfl
      rw [if_neg (fun hboth => hopen (x.status_open.mp hboth.1)), if_pos (x.status_resolved.mpr hopen)]
      exact validateTimestamp_ok.mpr ⟨time, hvalue, h.resolved time htime⟩
  simp only [validateStorageIncident, bind_ok, refuse_ok]
  exact ⟨(), not_not.mpr x.hasKeys, (), by simp [Incident.fields, value_cons, Value.asInt], (),
    by simp [hname], (), validateTimestamp_ok.mpr ⟨_, rfl, h.detected⟩, hstatus⟩

theorem resolveIncident_fields {time : String} (h : ∀ x ∈ i, Incident.Valid p x) :
    resolveIncident p (i.map Incident.fields) (.str time) =
      .ok ((i.map (Incident.resolve time)).map Incident.fields, resolutions i) := by
  cases i with
  | none => rfl
  | some x =>
    simp only [Option.map_some, resolveIncident, bind_ok, validateStorageIncident_fields (h x rfl)]
    refine ⟨(), trivial, ?_⟩
    by_cases hopen : x.resolvedAt = none
    · rw [if_pos (x.status_open.mpr hopen)]
      simp only [Incident.resolve, resolutions, if_pos hopen, Incident.value_incidentId, Value.asText,
        Option.getD_some]
      simp [assign, Incident.fields, textValue, pure, Except.pure]
    · rw [if_neg (fun hstatus => hopen (x.status_open.mp hstatus))]
      simp only [Incident.resolve, resolutions, if_neg hopen]
      rfl

theorem Incident.resolve_valid {x : Incident} (h : x.Valid p) {time : String}
    (htime : Timestamp p time) : (x.resolve time).Valid p := by
  unfold Incident.resolve
  split
  · exact ⟨h.name, h.detected, by simpa using htime⟩
  · exact h

/-- An INFO replaces the ring observation and resolves the open incident. -/
theorem recordInfo_ok (h : Holds p rows r i) {unread observedAt : Value} {rows' : Rows}
    {acts : List Act} (hok : recordInfo p rows unread observedAt = .ok (rows', acts)) :
    ∃ z time, observedAt = .str time ∧
      Holds p rows' { r with ring := some (z, time) } (i.map (Incident.resolve time)) ∧
      acts = resolutions i := by
  simp only [recordInfo, bind_ok, h.rowOrEmpty, Except.ok.injEq, exists_eq_left'] at hok
  obtain ⟨_, hring, hrest⟩ := hok
  rcases validateObservation_ok hring with hnone | ⟨z, time, hpair, hz, -, htime⟩
  · cases hnone
  · simp only [Option.some.injEq, Observed.tuple.injEq, List.cons.injEq, and_true] at hpair
    obtain ⟨rfl, rfl⟩ := hpair
    rw [h.incident, resolveIncident_fields h.valid] at hrest
    obtain ⟨_, hincident, hrows⟩ := hrest
    obtain rfl := Except.ok.inj hincident
    simp only [pure_ok, Prod.mk.injEq] at hrows
    obtain ⟨rfl, rfl⟩ := hrows
    refine ⟨z, time, rfl, ⟨.inl (congrArg some (r.assign_ring (some (z, time)))),
      { h.row with ring := by simpa using ⟨hz, htime⟩ }, rfl, ?_⟩, rfl⟩
    intro x hx
    obtain ⟨y, hy, rfl⟩ := Option.mem_map.mp hx
    exact Incident.resolve_valid (h.valid y hy) htime

/-- The incident after the storage was unavailable: the open one, or a new one. -/
def Incident.reopen (incidentId time : String) : Option Incident → Incident
  | none => ⟨incidentId, time, none⟩
  | some i => if i.resolvedAt = none then i else ⟨incidentId, time, none⟩

def openings (incidentId : String) : Option Incident → List Act
  | none => [.opened incidentId]
  | some i => if i.resolvedAt = none then [] else [.opened incidentId]

theorem openIncident_fields {incidentId time : String} (h : ∀ x ∈ i, Incident.Valid p x) :
    openIncident p (i.map Incident.fields) incidentId (.str time) =
      .ok (some (Incident.reopen incidentId time i).fields, openings incidentId i) := by
  cases i with
  | none => rfl
  | some x =>
    simp only [Option.map_some, openIncident, bind_ok, validateStorageIncident_fields (h x rfl)]
    refine ⟨(), trivial, ?_⟩
    by_cases hopen : x.resolvedAt = none
    · rw [if_neg (fun hstatus => x.status_resolved.mp hstatus hopen)]
      simp only [Incident.reopen, openings, if_pos hopen]
      rfl
    · rw [if_pos (x.status_resolved.mpr hopen)]
      simp only [Incident.reopen, openings, if_neg hopen]
      rfl

/-- A storage failure clears the ring observation and keeps an open incident. -/
theorem recordStorageUnavailable_ok (h : Holds p rows r i) {observedAt : Value}
    {incidentId : String} (hid : ¬ Blank incidentId) {rows' : Rows} {acts : List Act}
    (hok : recordStorageUnavailable p rows observedAt incidentId = .ok (rows', acts)) :
    ∃ time, observedAt = .str time ∧
      Holds p rows' { r with ring := none } (some (Incident.reopen incidentId time i)) ∧
      acts = openings incidentId i := by
  simp only [recordStorageUnavailable, bind_ok, h.rowOrEmpty, Except.ok.injEq, exists_eq_left',
    validateTimestamp_ok] at hok
  obtain ⟨_, ⟨time, rfl, htime⟩, hrest⟩ := hok
  rw [h.incident, openIncident_fields h.valid] at hrest
  obtain ⟨_, hincident, hrows⟩ := hrest
  obtain rfl := Except.ok.inj hincident
  simp only [pure_ok, Prod.mk.injEq] at hrows
  obtain ⟨rfl, rfl⟩ := hrows
  refine ⟨time, rfl,
    ⟨.inl (congrArg some (r.assign_ring none)), { h.row with ring := by simp }, rfl, ?_⟩, rfl⟩
  rintro x hx
  obtain rfl := Option.some.inj hx
  have hnew : Incident.Valid p ⟨incidentId, time, none⟩ := ⟨hid, htime, by simp⟩
  cases i with
  | none => exact hnew
  | some y =>
    simp only [Incident.reopen]
    split
    · exact h.valid y rfl
    · exact hnew

/-- The contents bind a token to this custody. -/
def Row.Bound (r : Row) (sourceId : String) (frontier : ℤ) : Prop :=
  ∃ b, r.pending = some b ∧ b.sourceId = sourceId ∧ b.frontier = frontier

theorem Row.binds_iff {sourceId : String} {frontier : ℤ} :
    Binds r.fields (some sourceId) (some frontier) ↔ r.Bound sourceId frontier := by
  rw [Binds, Row.value_sourceId, Row.value_frontier]
  cases h : r.pending with
  | none => simp [textValue, Value.asText, Row.Bound, h]
  | some b => simp [textValue, intValue, Value.asText, Value.asInt, Row.Bound, h]

/-- Arming keeps the token of the same custody and else stores the fresh one. -/
theorem armPending_ok (h : Holds p rows r i) {sourceId frontier : Value} {token : String}
    (htoken : ¬ Blank token) {rows' : Rows} {acts : List Act}
    (hok : armPending p rows sourceId frontier token = .ok (rows', acts)) :
    ∃ source n, sourceId = .str source ∧ frontier = .int n ∧
      ((r.Bound source n ∧ rows' = rows ∧ acts = []) ∨
        (¬ r.Bound source n ∧ Holds p rows' { r with pending := some ⟨token, source, n⟩ } i ∧
          acts = [.armed token])) := by
  simp only [armPending, bind_ok, refuse_ok, Bool.not_eq_false, isName_iff, isCount_iff,
    h.rowOrEmpty, Except.ok.injEq, exists_eq_left'] at hok
  obtain ⟨_, ⟨source, rfl, hsource⟩, _, ⟨n, rfl, hn, -⟩, hrest⟩ := hok
  refine ⟨source, n, rfl, rfl, ?_⟩
  by_cases hbound : Binds r.fields (Value.str source).asText (Value.int n).asInt
  · rw [if_pos hbound] at hrest
    simp only [pure_ok, Prod.mk.injEq] at hrest
    exact .inl ⟨Row.binds_iff.mp hbound, hrest.1.symm, hrest.2.symm⟩
  · rw [if_neg hbound] at hrest
    simp only [pure_ok, Prod.mk.injEq] at hrest
    obtain ⟨rfl, rfl⟩ := hrest
    refine .inr ⟨fun hb => hbound (Row.binds_iff.mpr hb), ⟨.inl ?_, ?_, h.incident, h.valid⟩, rfl⟩
    · exact congrArg some (r.setPending_fields (some ⟨token, source, n⟩))
    · have hpending : ¬ Blank token ∧ ¬ Blank source ∧ 0 ≤ n := ⟨htoken, hsource, hn⟩
      exact { h.row with pending := by simpa using hpending }

theorem pendingBinding_eq (h : Holds p rows r i) :
    pendingBinding p rows = .ok (r.pending.map fun b => (b.sourceId, b.frontier)) := by
  simp only [pendingBinding, bind_ok, h.rowOrEmpty, Except.ok.injEq, exists_eq_left']
  rw [Row.value_eventId, Row.value_sourceId, Row.value_frontier]
  cases r.pending with
  | none => rfl
  | some b => rfl

/-- A completion binds the custody, the closure and the pending token. -/
structure CompletedBy (r : Row) (b : Pending) (cursor closureFrontier : ℤ)
    (custody : AcceptedDrainCustody) : Prop where
  pending : r.pending = some b
  source : custody.sourceId = b.sourceId
  frontier : custody.frontier = b.frontier
  closure : closureFrontier = b.frontier
  covered : CursorIsCovered cursor closureFrontier custody

theorem Row.completes_iff {cursor closureFrontier : ℤ} {custody : AcceptedDrainCustody} :
    Completes r.fields cursor closureFrontier custody ↔
      ∃ b, CompletedBy r b cursor closureFrontier custody := by
  rw [Completes, Row.binds_iff, Row.value_eventId, Row.value_frontier]
  constructor
  · rintro ⟨-, ⟨b, hpending, hsource, hfrontier⟩, hclosure, hcovered⟩
    rw [hpending] at hclosure
    simp only [Option.map_some, intValue, Value.asInt, Option.some.injEq] at hclosure
    exact ⟨b, hpending, hsource.symm, hfrontier.symm, hclosure.symm, hcovered⟩
  · rintro ⟨b, hb⟩
    rw [hb.pending]
    exact ⟨rfl, ⟨b, hb.pending, hb.source.symm, hb.frontier.symm⟩,
      congrArg some hb.closure.symm, hb.covered⟩

theorem zeroUnreadCursor_ok {info : Info} {cursor : ℤ} (h : zeroUnreadCursor info = .ok cursor) :
    info = .ringInfo (.int cursor) (.int cursor) ∧ 0 ≤ cursor := by
  cases info with
  | other => cases h
  | ringInfo readSequence writeSequence =>
    simp only [zeroUnreadCursor] at h
    split at h
    · simp only [bind_ok, refuse_ok, pure_ok, not_or, not_lt, ne_eq, not_not] at h
      obtain ⟨_, ⟨hlow, -⟩, _, rfl, rfl⟩ := h
      exact ⟨rfl, hlow⟩
    · cases h

/-- A completion in a transaction: it observes the empty ring, and completes the drain exactly when
everything it was given agrees with the row. -/
theorem completeInTransaction_ok (h : Holds p rows r i) {drain : Drain} {closureFrontier : ℤ}
    {custody : Option AcceptedDrainCustody} {rows' : Rows} {acts : List Act}
    (hok : completeInTransaction p rows drain closureFrontier custody = .ok (rows', acts)) :
    ∃ cursor observed completed, drain = ⟨.ringInfo (.int cursor) (.int cursor), .str observed,
        .str completed⟩ ∧ 0 ≤ cursor ∧
      ((∃ c b, custody = some c ∧ CompletedBy r b cursor closureFrontier c ∧
          Holds p rows' { r with
            ring := some (0, observed)
            lastDrain := some (b.eventId, completed)
            pending := none } i ∧ acts = [.completed b.eventId]) ∨
        ((∀ c ∈ custody, ∀ b, ¬ CompletedBy r b cursor closureFrontier c) ∧
          Holds p rows' { r with ring := some (0, observed) } i ∧ acts = [])) := by
  simp only [completeInTransaction, bind_ok, h.rowOrEmpty, Except.ok.injEq, exists_eq_left',
    validateTimestamp_ok] at hok
  obtain ⟨_, ⟨observed, hobserved, hobservedTime⟩, _, ⟨completed, hcompleted, hcompletedTime⟩, _, -, _,
    -, cursor, hcursor, hrest⟩ := hok
  obtain ⟨hinfo, hlow⟩ := zeroUnreadCursor_ok hcursor
  obtain ⟨info, observedAt, completedAt⟩ := drain
  simp only at hobserved hcompleted hinfo hrest
  subst hobserved hcompleted hinfo
  refine ⟨cursor, observed, completed, rfl, hlow, ?_⟩
  have hring : assign r.fields "ring" (stamped "unread_packets" "observed_at" (.int 0) (.str observed)) =
      ({ r with ring := some (0, observed) } : Row).fields := r.assign_ring (some (0, observed))
  have hvalid : ({ r with ring := some (0, observed) } : Row).Valid p :=
    { h.row with ring := by simpa using hobservedTime }
  rw [hring] at hrest
  cases custody with
  | none =>
    simp only [completeRow, pure_ok, Prod.mk.injEq] at hrest
    obtain ⟨rfl, rfl⟩ := hrest
    exact .inr ⟨by simp, ⟨.inl rfl, hvalid, h.incident, h.valid⟩, rfl⟩
  | some c =>
    simp only [completeRow] at hrest
    by_cases hcompletes : Completes ({ r with ring := some (0, observed) } : Row).fields cursor
        closureFrontier c
    · rw [if_pos hcompletes] at hrest
      obtain ⟨b, hb⟩ := Row.completes_iff.mp hcompletes
      simp only [pure_ok, Prod.mk.injEq] at hrest
      obtain ⟨rfl, rfl⟩ := hrest
      have hpending : r.pending = some b := hb.pending
      have hevent : value ({ r with ring := some (0, observed) } : Row).fields "pending_event_id" =
          .str b.eventId := by
        rw [Row.value_eventId]
        simp [hpending, textValue]
      have hname := (h.row.pending b hpending).1
      refine .inl ⟨c, b, rfl, ⟨hpending, hb.source, hb.frontier, hb.closure, hb.covered⟩,
        ⟨.inl ?_, ?_, h.incident, h.valid⟩, by simp [hevent, Value.asText]⟩
      · simp only [complete, hevent]
        rw [show stamped "event_id" "completed_at" (.str b.eventId) (.str completed) =
          drainValue (some (b.eventId, completed)) from rfl, Row.assign_lastDrain]
        exact congrArg some (Row.setPending_fields _ none)
      · have hdrain : ¬ Blank b.eventId ∧ Timestamp p completed := ⟨hname, hcompletedTime⟩
        exact { hvalid with lastDrain := by simpa using hdrain, pending := by simp }
    · rw [if_neg hcompletes] at hrest
      simp only [pure_ok, Prod.mk.injEq] at hrest
      obtain ⟨rfl, rfl⟩ := hrest
      refine .inr ⟨?_, ⟨.inl rfl, hvalid, h.incident, h.valid⟩, rfl⟩
      rintro d hd b hb
      obtain rfl := Option.some.inj hd
      exact hcompletes
        (Row.completes_iff.mpr ⟨b, hb.pending, hb.source, hb.frontier, hb.closure, hb.covered⟩)

end Contents

end DrainRow
