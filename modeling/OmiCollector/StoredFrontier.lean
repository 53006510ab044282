import OmiCollector.PyValue
import OmiCollector.TimelineProjection

/-! The frontier of the v2 publication as the state store keeps it. A frontier is written as a
dictionary and read back by checks of its own; numbers are compared by value, so an uncertainty is
always written as a float. -/
namespace StoredFrontier

open Checks PyValue PublicTimeline TimelineProjection
open PublicTime (FrozenPublicTime Quality)

/-- What the publication raises besides the built-in exceptions. -/
inductive Fault where
  | readyBundleError (message : String)
  | indexError
  deriving DecidableEq, Repr

abbrev Outcome (α : Type) := Except (Raised Fault) α

def maxOpusPacketBytes : ℕ := 160

/-- The last published record, its time, and the size byte of a packet that it left open. -/
structure V2Frontier where
  sequence : ℕ
  time : FrozenPublicTime
  pendingOverflowSize : Option ℕ
  deriving DecidableEq, Repr

def qualityText : Quality → String
  | .known => "known"
  | .approximate => "approximate"
  | .unknown => "unknown"

def uncertaintyValue : Option ℚ → Value
  | none => .null
  | some q => .float (.finite q)

def sizeValue : Option ℕ → Value
  | none => .null
  | some n => .int n

def timePayload (t : FrozenPublicTime) : Fields :=
  [("quality", .str (qualityText t.quality)), ("seconds", .int t.seconds),
    ("utc_uncertainty_seconds", uncertaintyValue t.utcUncertaintySeconds),
    ("causal_membership", .str t.causalMembership),
    ("comparable_to_previous", .bool t.comparableToPrevious)]

/-- `_v2_frontier_payload`. -/
def v2FrontierPayload (f : V2Frontier) : Fields :=
  [("version", .int 1), ("sequence", .int f.sequence), ("time", .dict (timePayload f.time)),
    ("pending_overflow_size", sizeValue f.pendingOverflowSize)]

def frontierKeys : List String := ["version", "sequence", "time", "pending_overflow_size"]

def timeKeys : List String :=
  ["quality", "seconds", "utc_uncertainty_seconds", "causal_membership", "comparable_to_previous"]

def invalidFrontier : Raised Fault :=
  .own (.readyBundleError "v2 publication frontier is invalid")

def qualityOf : Value → Option Quality
  | .str s =>
    if s = "known" then some .known
    else if s = "approximate" then some .approximate
    else if s = "unknown" then some .unknown
    else none
  | _ => none

/-- An integer within bounds that is no `bool`. -/
def intWithin (lower upper : ℤ) (v : Value) : Option ℤ :=
  v.asInt.filter fun z => decide (lower ≤ z ∧ z ≤ upper)

def pendingOf : Value → Option (Option ℕ)
  | .null => some none
  | v => (intWithin 1 maxOpusPacketBytes v).map fun z => some z.toNat

def asBool : Value → Option Bool
  | .bool b => some b
  | _ => none

/-- A checked field, or the refusal of the whole frontier. -/
def checked {α : Type} (o : Option α) : Outcome α :=
  match o with
  | some a => .ok a
  | none => .error invalidFrontier

def absent : Value → Option (Option ℚ)
  | .null => some none
  | _ => none

/-- An unknown time has no uncertainty, any other a finite one that is not negative. -/
def uncertaintyOf (quality : Quality) (v : Value) : Outcome (Option ℚ) :=
  if quality = .unknown then checked (absent v)
  else do
    let n ← finiteNumber v
    checked ((n.map Number.toRat).filter (fun q => decide (0 ≤ q)) |>.map some)

/-- The time of a frontier, which `project_public_timeline` checks as a record of one packet. -/
def frozenTime (d : Fields) : Outcome FrozenPublicTime := do
  let quality ← checked (qualityOf (← item d "quality"))
  let seconds ← checked (intWithin 0 uint32Max (← item d "seconds"))
  let membership ← checked ((← item d "causal_membership").asText.filter (· ≠ ""))
  let comparable ← checked (asBool (← item d "comparable_to_previous"))
  let uncertainty ← uncertaintyOf quality (← item d "utc_uncertainty_seconds")
  pure ⟨quality, seconds, uncertainty, membership, comparable⟩

/-- `_v2_frontier_from_payload`. -/
def v2FrontierFromPayload (payload : Fields) : Outcome V2Frontier := do
  refuse (¬ HasKeys payload frontierKeys []) invalidFrontier
  refuse (¬ (← item payload "version").EqualsInt 1) invalidFrontier
  let sequence ← checked (intWithin 0 uint64Max (← item payload "sequence"))
  let fields ← checked ((← item payload "time").asDict.filter fun d =>
    decide (HasKeys d timeKeys []))
  let pending ← checked (pendingOf (← item payload "pending_overflow_size"))
  let time ← frozenTime fields
  pure ⟨sequence.toNat, time, pending⟩

/-- A frontier that the store accepts. -/
structure V2Frontier.Storable (f : V2Frontier) : Prop where
  sequence : (f.sequence : ℤ) ≤ uint64Max
  time : ValidRecord ⟨1, f.time, ∅⟩
  pending : ∀ n ∈ f.pendingOverflowSize, 1 ≤ n ∧ n ≤ maxOpusPacketBytes

@[simp] theorem checked_ok {α : Type} {o : Option α} {a : α} : checked o = .ok a ↔ o = some a := by
  cases o <;> simp [checked]

@[simp] theorem intWithin_eq_some {lower upper z : ℤ} {v : Value} :
    intWithin lower upper v = some z ↔ v = .int z ∧ lower ≤ z ∧ z ≤ upper := by
  simp [intWithin, Option.filter_eq_some_iff]

@[simp] theorem asBool_eq_some {v : Value} {b : Bool} : asBool v = some b ↔ v = .bool b := by
  cases v <;> simp [asBool]

@[simp] theorem qualityOf_eq_some {v : Value} {q : Quality} :
    qualityOf v = some q ↔ v = .str (qualityText q) := by
  cases v with
  | str s =>
    by_cases hknown : s = "known"
    · cases q <;> simp [qualityOf, qualityText, hknown]
    · by_cases happroximate : s = "approximate"
      · cases q <;> simp [qualityOf, qualityText, happroximate]
      · by_cases hunknown : s = "unknown"
        · cases q <;> simp [qualityOf, qualityText, hunknown]
        · cases q <;> simp [qualityOf, qualityText, hknown, happroximate, hunknown]
  | _ => simp [qualityOf]

@[simp] theorem pendingOf_eq_some {v : Value} {o : Option ℕ} :
    pendingOf v = some o ↔ v = sizeValue o ∧ ∀ n ∈ o, 1 ≤ n ∧ n ≤ maxOpusPacketBytes := by
  have hint : ∀ z, pendingOf (.int z) = some o ↔
      (Value.int z = sizeValue o ∧ ∀ n ∈ o, 1 ≤ n ∧ n ≤ maxOpusPacketBytes) := by
    intro z
    simp only [pendingOf, Option.map_eq_some_iff, intWithin_eq_some, Value.int.injEq]
    constructor
    · rintro ⟨y, ⟨rfl, hlow, hhigh⟩, rfl⟩
      have hcast : ((z.toNat : ℕ) : ℤ) = z := Int.toNat_of_nonneg (by omega)
      simp only [sizeValue, Option.mem_some_iff, forall_eq', Value.int.injEq]
      omega
    · rintro ⟨hv, hbounds⟩
      cases o with
      | none => cases hv
      | some n =>
        obtain rfl := Value.int.inj hv
        have hn := hbounds n rfl
        exact ⟨n, ⟨rfl, by omega, by omega⟩, by simp⟩
  cases v with
  | null => cases o <;> simp [pendingOf, sizeValue]
  | int z => exact hint z
  | _ => cases o <;> simp [pendingOf, sizeValue, intWithin, Value.asInt]

/-- The values that stand for the uncertainty of a time. -/
theorem uncertaintyOf_ok {quality : Quality} {v : Value} {o : Option ℚ} :
    uncertaintyOf quality v = .ok o ↔ (quality = .unknown ∧ v = .null ∧ o = none) ∨
      (quality ≠ .unknown ∧ ∃ n : Number, v = n.toValue ∧ n.Convertible ∧ 0 ≤ n.toRat ∧
        o = some n.toRat) := by
  by_cases hq : quality = .unknown
  · rw [uncertaintyOf, if_pos hq, checked_ok]
    cases v <;> simp [absent, hq, eq_comm]
  · rw [uncertaintyOf, if_neg hq, bind_ok]
    constructor
    · rintro ⟨n, hn, ho⟩
      rw [checked_ok] at ho
      cases n with
      | none => simp at ho
      | some n =>
        obtain ⟨hv, hconvertible⟩ := finiteNumber_some.mp hn
        simp only [Option.map_some, Option.filter_some] at ho
        by_cases hnonneg : 0 ≤ n.toRat
        · simp only [hnonneg, decide_true, if_true, Option.map_some, Option.some.injEq] at ho
          exact .inr ⟨hq, n, hv, hconvertible, hnonneg, ho.symm⟩
        · simp [hnonneg] at ho
    · rintro (⟨hunknown, -⟩ | ⟨-, n, hv, hconvertible, hnonneg, rfl⟩)
      · exact absurd hunknown hq
      · exact ⟨some n, finiteNumber_some.mpr ⟨hv, hconvertible⟩, by simp [hnonneg]⟩

/-- The fields of a checked time. -/
structure TimeFields (d : Fields) (t : FrozenPublicTime) : Prop where
  quality : d.lookup "quality" = some (.str (qualityText t.quality))
  seconds : d.lookup "seconds" = some (.int t.seconds)
  membership : d.lookup "causal_membership" = some (.str t.causalMembership)
  comparable : d.lookup "comparable_to_previous" = some (.bool t.comparableToPrevious)
  uncertainty : ∃ v, d.lookup "utc_uncertainty_seconds" = some v ∧
    uncertaintyOf t.quality v = .ok t.utcUncertaintySeconds
  bounds : 0 ≤ t.seconds ∧ t.seconds ≤ uint32Max
  named : t.causalMembership ≠ ""

theorem frozenTime_ok {d : Fields} {t : FrozenPublicTime} :
    frozenTime d = .ok t ↔ TimeFields d t := by
  simp only [frozenTime, bind_ok, item_ok, checked_ok, pure_ok]
  constructor
  · rintro ⟨v, hv, q, hq, w, hw, z, hz, x, hx, s, hs, y, hy, b, hb, u, hu, o, ho, rfl⟩
    obtain rfl := qualityOf_eq_some.mp hq
    obtain ⟨rfl, hbounds⟩ := intWithin_eq_some.mp hz
    obtain rfl := asBool_eq_some.mp hb
    obtain ⟨hs, hnamed⟩ := Option.filter_eq_some_iff.mp hs
    obtain rfl := asText_eq_some.mp hs
    exact ⟨hv, hw, hx, hy, ⟨u, hu, ho⟩, hbounds, by simpa using hnamed⟩
  · intro h
    obtain ⟨u, hu, ho⟩ := h.uncertainty
    refine ⟨_, h.quality, t.quality, by simp, _, h.seconds, t.seconds, by simp [h.bounds], _,
      h.membership, t.causalMembership, ?_, _, h.comparable, t.comparableToPrevious, by simp, u, hu,
      t.utcUncertaintySeconds, ho, rfl⟩
    simp [Option.filter_eq_some_iff, h.named]

/-- A checked time passes the checks of the public timeline. -/
theorem TimeFields.valid {d : Fields} {t : FrozenPublicTime} (h : TimeFields d t) :
    ValidRecord ⟨1, t, ∅⟩ := by
  obtain ⟨v, -, hv⟩ := h.uncertainty
  have huncertainty := uncertaintyOf_ok.mp hv
  constructor
  case count_nonneg => exact zero_le_one
  case count_le => exact (by decide : (1 : ℤ) ≤ uint64Max)
  case seconds_nonneg => exact h.bounds.1
  case seconds_le => exact h.bounds.2
  case membership => exact h.named
  case unknown =>
    intro hq
    rcases huncertainty with ⟨-, -, hnone⟩ | ⟨hne, -⟩
    · exact hnone
    · exact absurd hq hne
  case known =>
    intro hq
    rcases huncertainty with ⟨hunknown, -⟩ | ⟨-, n, -, -, hnonneg, hsome⟩
    · exact absurd hunknown hq
    · exact ⟨n.toRat, hsome, hnonneg⟩

theorem timePayload_fields {t : FrozenPublicTime} (h : ValidRecord ⟨1, t, ∅⟩) :
    TimeFields (timePayload t) t := by
  refine ⟨rfl, rfl, rfl, rfl, ⟨uncertaintyValue t.utcUncertaintySeconds, rfl, ?_⟩,
    ⟨h.seconds_nonneg, h.seconds_le⟩, h.membership⟩
  rw [uncertaintyOf_ok]
  by_cases hq : t.quality = .unknown
  · have hnone : t.utcUncertaintySeconds = none := h.unknown hq
    exact .inl ⟨hq, by rw [hnone]; rfl, hnone⟩
  · obtain ⟨u, hu, hnonneg⟩ := h.known hq
    have hsome : t.utcUncertaintySeconds = some u := hu
    exact .inr ⟨hq, .float u, by rw [hsome]; rfl, trivial, hnonneg, hsome⟩

theorem timePayload_keys (t : FrozenPublicTime) : HasKeys (timePayload t) timeKeys [] := by
  simp [HasKeys, timePayload, timeKeys, List.lookup_cons]

theorem v2FrontierPayload_keys (f : V2Frontier) :
    HasKeys (v2FrontierPayload f) frontierKeys [] := by
  simp [HasKeys, v2FrontierPayload, frontierKeys, List.lookup_cons]

/-- What an accepted payload holds. -/
theorem v2FrontierFromPayload_ok {payload : Fields} {f : V2Frontier} :
    v2FrontierFromPayload payload = .ok f ↔ HasKeys payload frontierKeys [] ∧
      (∃ v, payload.lookup "version" = some v ∧ v.EqualsInt 1) ∧
      payload.lookup "sequence" = some (.int f.sequence) ∧ (f.sequence : ℤ) ≤ uint64Max ∧
      (∃ d, payload.lookup "time" = some (.dict d) ∧ HasKeys d timeKeys [] ∧
        TimeFields d f.time) ∧
      payload.lookup "pending_overflow_size" = some (sizeValue f.pendingOverflowSize) ∧
      ∀ n ∈ f.pendingOverflowSize, 1 ≤ n ∧ n ≤ maxOpusPacketBytes := by
  simp only [v2FrontierFromPayload, bind_ok, refuse_ok, exists_const, not_not, item_ok, checked_ok,
    frozenTime_ok, pure_ok]
  constructor
  · rintro ⟨hkeys, v, hv, hone, w, hw, z, hz, x, hx, d, hd, y, hy, o, ho, t, ht, rfl⟩
    obtain ⟨rfl, hlow, hhigh⟩ := intWithin_eq_some.mp hz
    obtain ⟨hd, htime⟩ := Option.filter_eq_some_iff.mp hd
    obtain rfl := asDict_eq_some.mp hd
    obtain ⟨rfl, hpending⟩ := pendingOf_eq_some.mp ho
    have hcast : ((z.toNat : ℕ) : ℤ) = z := Int.toNat_of_nonneg hlow
    exact ⟨hkeys, ⟨v, hv, hone⟩, by rw [hcast]; exact hw, by rw [hcast]; exact hhigh,
      ⟨d, hx, by simpa using htime, ht⟩, hy, hpending⟩
  · rintro ⟨hkeys, ⟨v, hv, hone⟩, hsequence, hbound, ⟨d, hd, htime, ht⟩, hpending, hbounds⟩
    refine ⟨hkeys, v, hv, hone, _, hsequence, (f.sequence : ℤ), by simp [hbound], _, hd, d,
      by simp [Option.filter_eq_some_iff, htime], _, hpending, f.pendingOverflowSize,
      pendingOf_eq_some.mpr ⟨rfl, hbounds⟩, f.time, ht, by simp⟩

theorem storable_of_fromPayload {payload : Fields} {f : V2Frontier}
    (h : v2FrontierFromPayload payload = .ok f) : f.Storable := by
  obtain ⟨-, -, -, hsequence, ⟨d, -, -, htime⟩, -, hpending⟩ := v2FrontierFromPayload_ok.mp h
  exact ⟨hsequence, htime.valid, hpending⟩

/-- A frontier comes back from its own payload exactly when the store accepts it. -/
theorem fromPayload_payload (f : V2Frontier) :
    v2FrontierFromPayload (v2FrontierPayload f) = .ok f ↔ f.Storable := by
  constructor
  · exact storable_of_fromPayload
  · intro h
    rw [v2FrontierFromPayload_ok]
    exact ⟨v2FrontierPayload_keys f, ⟨.int 1, rfl, rfl⟩, rfl, h.sequence,
      ⟨timePayload f.time, rfl, timePayload_keys f.time, timePayload_fields h.time⟩, rfl, h.pending⟩

end StoredFrontier
