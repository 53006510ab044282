import OmiCollector.ClockHistory
import OmiCollector.ClockPayload

/-! The clock state persists without loss: what `from_payload` accepts is exactly the payloads of
valid states, and `to_payload` writes one of them. -/
namespace ClockPersistence

open Checks PyValue ClockPayload

theorem interval_eq_some {item : List Value} {i : ℤ × ℤ} :
    interval item = some i ↔ item = [.int i.1, .int i.2] := by
  constructor
  · intro h
    match item with
    | [] => cases h
    | [_] => cases h
    | [a, b] =>
      simp only [interval, bind, Option.bind_eq_some_iff, asInt_eq_some, pure,
        Option.some.injEq] at h
      obtain ⟨x, rfl, y, rfl, rfl⟩ := h
      rfl
    | _ :: _ :: _ :: _ => cases h
  · rintro rfl
    rfl

theorem stateMake_ok {ranges : List ClockRange} {intent : Option ClockIntent}
    {anchor : Option ClockAnchor} {lists : List (List Value)} {s : ClockState} :
    ClockState.make ranges intent anchor lists = .ok s ↔
      s.ranges = ranges ∧ s.intent = intent ∧ s.anchor = anchor ∧ Ordered ranges ∧
        lists = s.causalUncertainty.map (fun i => [.int i.1, .int i.2]) ∧
        ∀ i ∈ s.causalUncertainty, ValidCausalInterval i := by
  have hitem : ∀ (item : List Value) (i : ℤ × ℤ),
      (interval item).filter (ValidCausalInterval ·) = some i ↔
        item = [.int i.1, .int i.2] ∧ ValidCausalInterval i := by
    intro item i
    simp [Option.filter_eq_some_iff, interval_eq_some]
  by_cases ho : Ordered ranges
  · cases hm : lists.mapM fun item => (interval item).filter (ValidCausalInterval ·) with
    | none =>
      simp only [ClockState.make, ho, hm, clockStateError, not_true_eq_false, if_false, reduceCtorEq,
        true_and, false_iff]
      rintro ⟨-, -, -, hl⟩
      rw [← forall₂_map_eq] at hl
      have := option_mapM_eq_some.mpr (hl.imp fun a b h => (hitem a b).mpr h)
      rw [hm] at this
      cases this
    | some intervals =>
      have hall := option_mapM_eq_some.mp hm
      simp only [hitem, forall₂_map_eq] at hall
      simp only [ClockState.make, ho, hm, not_true_eq_false, if_false, Except.ok.injEq, true_and]
      constructor
      · rintro rfl
        exact ⟨rfl, rfl, rfl, hall⟩
      · rintro ⟨rfl, rfl, rfl, hl⟩
        rw [← forall₂_map_eq] at hl
        have := option_mapM_eq_some.mpr (hl.imp fun a b h => (hitem a b).mpr h)
        rw [hm] at this
        cases this
        rfl
  · simp [ClockState.make, ho, clockStateError]

theorem parseOptional_ok {R : Type} {parse : Fields → Outcome R} {v : Value} {o : Option R} :
    parseOptional parse v = .ok o ↔ (v.asDict = none ∧ o = none) ∨
      ∃ d r, v = .dict d ∧ o = some r ∧ parse d = .ok r := by
  cases v with
  | dict d =>
    cases h : parse d with
    | error e => simp [parseOptional, Value.asDict, h]
    | ok r => simp [parseOptional, Value.asDict, h, eq_comm]
  | _ => simp [parseOptional, Value.asDict, eq_comm]

theorem parseOptional_error {R : Type} {parse : Fields → Outcome R} {v : Value}
    {e : Raised ClockStateError} :
    parseOptional parse v = .error e ↔ ∃ d, v = .dict d ∧ parse d = .error e := by
  cases v with
  | dict d =>
    cases h : parse d with
    | error e => simp [parseOptional, Value.asDict, h]
    | ok r => simp [parseOptional, Value.asDict, h]
  | _ => simp [parseOptional, Value.asDict]

theorem intervalItems_ok {item : Value} {values : List Value} :
    intervalItems item = .ok values ↔ item = .list values := by
  cases item <;> simp [intervalItems, Value.asList, clockStateError]

theorem intervalLists_ok {items : List Value} {lists : List (List Value)} :
    items.mapM intervalItems = .ok lists ↔ items = lists.map .list := by
  simpa [mapM_eq_ok, intervalItems_ok] using
    forall₂_map_eq (P := fun _ => True) (f := Value.list) (l := items)

theorem causalLists_ok {v : Value} {lists : List (List Value)} :
    causalLists v = .ok lists ↔ v = .list (lists.map .list) := by
  cases v <;> simp [causalLists, Value.asList, clockStateError, intervalLists_ok]

/-- The dictionaries of a list hold records of valid ranges, one each. -/
def RangeRecords (values : List Value) (ranges : List ClockRange) : Prop :=
  List.Forall₂ (fun v r => ∃ d, v = .dict d ∧ RangeRecord d r ∧ r.Valid) values ranges

/-- A `None`, or the dictionary of a valid record. -/
def OptionalRecord {R : Type} (Record : Fields → R → Prop) (Valid : R → Prop) (v : Value) :
    Option R → Prop
  | none => v = .null
  | some r => ∃ d, v = .dict d ∧ Record d r ∧ Valid r

/-- A payload of a state, whatever the order of its keys; an empty list of causal intervals may be
written or left out. -/
structure Represents (p : Value) (s : ClockState) : Prop where
  intro ::
  fields : ∃ d, p = .dict d ∧ HasKeys d stateKeys ["causal_uncertainty"] ∧
    d.lookup "schema_version" = some (.int 1) ∧
    (∃ values, d.lookup "ranges" = some (.list values) ∧ RangeRecords values s.ranges) ∧
    (∃ v, d.lookup "intent" = some v ∧ OptionalRecord IntentRecord ClockIntent.Valid v s.intent) ∧
    (∃ v, d.lookup "anchor" = some v ∧ OptionalRecord AnchorRecord ClockAnchor.Valid v s.anchor) ∧
    (d.lookup "causal_uncertainty").getD (.list []) =
      .list (s.causalUncertainty.map intervalValue)

theorem filterMap_asDict (dicts : List Fields) :
    (dicts.map Value.dict).filterMap Value.asDict = dicts := by
  rw [List.filterMap_map]
  exact List.filterMap_some

theorem dicts_of_length {values : List Value}
    (h : (values.filterMap Value.asDict).length = values.length) :
    ∃ dicts : List Fields, values = dicts.map .dict := by
  induction values with
  | nil => exact ⟨[], rfl⟩
  | cons v values ih =>
    cases hv : v.asDict with
    | none =>
      have := List.length_filterMap_le Value.asDict values
      rw [List.filterMap_cons_none hv, List.length_cons] at h
      omega
    | some d =>
      rw [List.filterMap_cons_some hv, List.length_cons, List.length_cons] at h
      obtain ⟨dicts, rfl⟩ := ih (Nat.succ.inj h)
      exact ⟨d :: dicts, by rw [asDict_eq_some.mp hv, List.map_cons]⟩

/-- No item is skipped exactly when each is a dictionary, and then each holds a range. -/
theorem rangeRecords_iff {values : List Value} {ranges : List ClockRange} :
    (values.filterMap Value.asDict).mapM parseRange = .ok ranges ∧
        ranges.length = values.length ↔ RangeRecords values ranges := by
  constructor
  · rintro ⟨hparse, hlength⟩
    have hall := mapM_eq_ok.mp hparse
    have hdicts : (values.filterMap Value.asDict).length = values.length :=
      hall.length_eq.trans hlength
    obtain ⟨dicts, rfl⟩ := dicts_of_length hdicts
    rw [filterMap_asDict] at hall
    refine List.forall₂_map_left_iff.mpr (hall.imp fun d r h => ⟨d, rfl, parseRange_ok.mp h⟩)
  · intro h
    obtain ⟨dicts, rfl, hall⟩ : ∃ dicts : List Fields, values = dicts.map .dict ∧
        List.Forall₂ (fun d r => parseRange d = .ok r) dicts ranges := by
      induction h with
      | nil => exact ⟨[], rfl, .nil⟩
      | cons hv _ ih =>
        obtain ⟨d, rfl, hd⟩ := hv
        obtain ⟨dicts, rfl, hall⟩ := ih
        exact ⟨d :: dicts, rfl, .cons (parseRange_ok.mpr hd) hall⟩
    rw [filterMap_asDict, mapM_eq_ok]
    exact ⟨hall, by simpa using hall.length_eq.symm⟩

theorem optionalRecord_iff {R : Type} {parse : Fields → Outcome R} {Record : Fields → R → Prop}
    {Valid : R → Prop} (hparse : ∀ {d r}, parse d = .ok r ↔ Record d r ∧ Valid r) {v : Value}
    (hv : Value.NullOrDict v) {o : Option R} :
    parseOptional parse v = .ok o ↔ OptionalRecord Record Valid v o := by
  cases v with
  | null => cases o <;> simp [parseOptional_ok, OptionalRecord, Value.asDict]
  | dict d => cases o <;> simp [parseOptional_ok, OptionalRecord, Value.asDict, hparse]
  | _ => cases hv

theorem parseState_ok {d : Fields} {values : List Value} {intent anchor : Value}
    (hintent : Value.NullOrDict intent) (hanchor : Value.NullOrDict anchor) {s : ClockState} :
    parseState d values intent anchor = .ok s ↔ RangeRecords values s.ranges ∧
      OptionalRecord IntentRecord ClockIntent.Valid intent s.intent ∧
      OptionalRecord AnchorRecord ClockAnchor.Valid anchor s.anchor ∧
      (d.lookup "causal_uncertainty").getD (.list []) =
        .list (s.causalUncertainty.map intervalValue) ∧
      Ordered s.ranges ∧ ∀ i ∈ s.causalUncertainty, ValidCausalInterval i := by
  have hlists : (s.causalUncertainty.map fun i => [Value.int i.1, .int i.2]).map Value.list =
      s.causalUncertainty.map intervalValue := by
    rw [List.map_map]
    rfl
  simp only [parseState, bind_ok, refuse_ok, not_not, optionalRecord_iff parseIntent_ok hintent,
    optionalRecord_iff parseAnchor_ok hanchor, causalLists_ok, stateMake_ok]
  constructor
  · rintro ⟨ranges, hranges, -, hlength, i, hi, a, ha, lists, hu, rfl, rfl, rfl, hordered, rfl,
      hcausal⟩
    exact ⟨rangeRecords_iff.mp ⟨hranges, hlength⟩, hi, ha, hu.trans (congrArg Value.list hlists),
      hordered, hcausal⟩
  · rintro ⟨hranges, hi, ha, hu, hordered, hcausal⟩
    obtain ⟨hparse, hlength⟩ := rangeRecords_iff.mpr hranges
    exact ⟨s.ranges, hparse, (), hlength, s.intent, hi, s.anchor, ha, _,
      hu.trans (congrArg Value.list hlists.symm), rfl, rfl, rfl, hordered, rfl, hcausal⟩

theorem rewrapped_ok {α : Type} {x : Outcome α} {a : α} : rewrapped x = .ok a ↔ x = .ok a := by
  cases x with
  | ok b => rfl
  | error e => cases e <;> simp [rewrapped, clockStateError]

theorem rewrapped_overflow {α : Type} {x : Outcome α} :
    rewrapped x = .error .overflowError ↔ x = .error .overflowError := by
  cases x with
  | ok b => rfl
  | error e => cases e <;> simp [rewrapped, clockStateError]

theorem OptionalRecord.nullOrDict {R : Type} {Record : Fields → R → Prop} {Valid : R → Prop}
    {v : Value} {o : Option R} (h : OptionalRecord Record Valid v o) : Value.NullOrDict v := by
  cases o with
  | none =>
    obtain rfl : v = .null := h
    trivial
  | some r =>
    obtain ⟨d, rfl, -⟩ := h
    trivial

theorem OptionalRecord.valid {R : Type} {Record : Fields → R → Prop} {Valid : R → Prop}
    {v : Value} {o : Option R} (h : OptionalRecord Record Valid v o) : ∀ r ∈ o, Valid r := by
  rintro r rfl
  obtain ⟨d, -, -, hr⟩ := h
  exact hr

theorem RangeRecords.valid {values : List Value} {ranges : List ClockRange}
    (h : RangeRecords values ranges) : ∀ r ∈ ranges, r.Valid := by
  induction h with
  | nil => simp
  | cons hv _ ih =>
    obtain ⟨d, -, -, hr⟩ := hv
    exact List.forall_mem_cons.mpr ⟨hr, ih⟩

/-- A payload is accepted exactly when it is one of a valid state. -/
theorem fromPayload_ok {p : Value} {s : ClockState} :
    ClockState.fromPayload p = .ok s ↔ Represents p s ∧ s.Valid := by
  constructor
  · intro h
    cases hd : p.asDict with
    | none => simp [ClockState.fromPayload, hd, clockStateError] at h
    | some d =>
      simp only [ClockState.fromPayload, hd, bind_ok, refuse_ok, not_not, item_ok] at h
      obtain ⟨-, hkeys, schema, hschema, -, hone, values, hvalues, i, hi, a, ha, h⟩ := h
      cases hl : values.asList with
      | none => simp [hl, clockStateError] at h
      | some items =>
        simp only [hl, bind_ok, refuse_ok, not_not, rewrapped_ok] at h
        obtain ⟨-, ⟨hnull, hnull'⟩, h⟩ := h
        obtain ⟨hranges, hintent, hanchor, hu, hordered, hcausal⟩ := (parseState_ok hnull hnull').mp h
        refine ⟨⟨d, asDict_eq_some.mp hd, hkeys, ?_, ⟨items, ?_, hranges⟩, ⟨i, hi, hintent⟩,
          ⟨a, ha, hanchor⟩, hu⟩, hranges.valid, hintent.valid, hanchor.valid, hordered, hcausal⟩
        · rw [hschema, asInt_eq_some.mp hone]
        · rw [hvalues, asList_eq_some.mp hl]
  · rintro ⟨⟨d, rfl, hkeys, hschema, ⟨values, hvalues, hranges⟩, ⟨i, hi, hintent⟩,
      ⟨a, ha, hanchor⟩, hu⟩, hvalid⟩
    simp only [ClockState.fromPayload, Value.asDict, bind_ok, refuse_ok, not_not, item_ok]
    refine ⟨(), hkeys, _, hschema, (), rfl, _, hvalues, i, hi, a, ha, ?_⟩
    simp only [Value.asList, bind_ok, refuse_ok, not_not, rewrapped_ok]
    exact ⟨(), ⟨hintent.nullOrDict, hanchor.nullOrDict⟩,
      (parseState_ok hintent.nullOrDict hanchor.nullOrDict).mpr
        ⟨hranges, hintent, hanchor, hu, hvalid.ordered, hvalid.causal⟩⟩

theorem range_toPayload (r : ClockRange) : RangeRecord r.toPayload r := by
  refine ⟨⟨by simp [ClockRange.toPayload, rangeKeys, List.lookup_cons],
    by simp [ClockRange.toPayload, rangeKeys]⟩, ?_⟩
  simp [ClockRange.toPayload, List.lookup_cons]

theorem intent_toPayload (i : ClockIntent) : IntentRecord i.toPayload i := by
  refine ⟨⟨by simp [ClockIntent.toPayload, intentKeys, List.lookup_cons],
    by simp [ClockIntent.toPayload, intentKeys]⟩, ?_⟩
  simp [ClockIntent.toPayload, List.lookup_cons]

theorem anchor_toPayload (a : ClockAnchor) : AnchorRecord a.toPayload a := by
  refine ⟨⟨by simp [ClockAnchor.toPayload, anchorKeys, List.lookup_cons],
    by simp [ClockAnchor.toPayload, anchorKeys]⟩, ?_⟩
  simp [ClockAnchor.toPayload, List.lookup_cons]

theorem optionalDict_record {R : Type} {Record : Fields → R → Prop} {Valid : R → Prop}
    {payload : R → Fields} (hpayload : ∀ r, Record (payload r) r) {o : Option R}
    (hvalid : ∀ r ∈ o, Valid r) : OptionalRecord Record Valid (optionalDict payload o) o := by
  cases o with
  | none => rfl
  | some r => exact ⟨payload r, rfl, hpayload r, hvalid r rfl⟩

/-- What is written is a payload of the state. -/
theorem toPayload_represents {s : ClockState} (h : s.Valid) : Represents s.toPayload s := by
  have hranges : RangeRecords (s.ranges.map fun r => .dict r.toPayload) s.ranges := by
    refine List.forall₂_map_left_iff.mpr (List.forall₂_same.mpr ?_)
    intro r hr
    exact ⟨r.toPayload, rfl, range_toPayload r, h.ranges r hr⟩
  refine ⟨_, rfl, ⟨?_, ?_⟩, rfl, ⟨_, rfl, hranges⟩,
    ⟨_, rfl, optionalDict_record intent_toPayload h.intent⟩,
    ⟨_, rfl, optionalDict_record anchor_toPayload h.anchor⟩, ?_⟩
  · simp [stateKeys, List.lookup_cons]
  · by_cases hc : s.causalUncertainty = [] <;> simp [stateKeys, hc]
  · by_cases hc : s.causalUncertainty = [] <;> simp [hc, List.lookup_cons]

/-! ### The failures -/

/-- The values before an item of a list are dictionaries of valid ranges, or no dictionaries. -/
def RangesOverflow (values : List Value) : Prop :=
  ∃ before d after, values.filterMap Value.asDict = before ++ d :: after ∧
    (∀ b ∈ before, ∃ r, RangeRecord b r ∧ r.Valid) ∧ RangeOverflows d

/-- The number tests of some record are reached with an integer too large for a float: every
record before it is valid. -/
def StateOverflows (p : Value) : Prop :=
  ∃ d values intent anchor, p = .dict d ∧ HasKeys d stateKeys ["causal_uncertainty"] ∧
    d.lookup "schema_version" = some (.int 1) ∧ d.lookup "ranges" = some (.list values) ∧
    d.lookup "intent" = some intent ∧ d.lookup "anchor" = some anchor ∧
    Value.NullOrDict intent ∧ Value.NullOrDict anchor ∧
    (RangesOverflow values ∨
      (∃ ranges, RangeRecords values ranges) ∧
        ((∃ i, intent = .dict i ∧ IntentOverflows i) ∨
          (∃ i, OptionalRecord IntentRecord ClockIntent.Valid intent i) ∧
            ∃ a, anchor = .dict a ∧ AnchorOverflows a))

theorem mapM_parseRange_overflow {values : List Value} :
    (values.filterMap Value.asDict).mapM parseRange = .error .overflowError ↔
      RangesOverflow values := by
  simp only [mapM_eq_error, parseRange_overflow, parseRange_ok, RangesOverflow]

theorem intervalItems_overflow {item : Value} : intervalItems item ≠ .error .overflowError := by
  cases item <;> simp [intervalItems, Value.asList, clockStateError]

theorem causalLists_overflow {v : Value} : causalLists v ≠ .error .overflowError := by
  cases v <;> simp [causalLists, Value.asList, clockStateError, mapM_eq_error,
    intervalItems_overflow]

theorem stateMake_error {ranges : List ClockRange} {intent : Option ClockIntent}
    {anchor : Option ClockAnchor} {lists : List (List Value)} {e : Raised ClockStateError}
    (h : ClockState.make ranges intent anchor lists = .error e) : ∃ message, e = .own ⟨message⟩ := by
  unfold ClockState.make at h
  split at h
  · exact ⟨_, (Except.error.inj h).symm⟩
  · split at h
    · exact ⟨_, (Except.error.inj h).symm⟩
    · cases h

theorem parseState_overflow {d : Fields} {values : List Value} {intent anchor : Value}
    (hintent : Value.NullOrDict intent) :
    parseState d values intent anchor = .error .overflowError ↔ RangesOverflow values ∨
      (∃ ranges, RangeRecords values ranges) ∧
        ((∃ i, intent = .dict i ∧ IntentOverflows i) ∨
          (∃ i, OptionalRecord IntentRecord ClockIntent.Valid intent i) ∧
            ∃ a, anchor = .dict a ∧ AnchorOverflows a) := by
  have hmake : ∀ {ranges : List ClockRange} {i : Option ClockIntent} {a : Option ClockAnchor}
      {lists : List (List Value)}, ClockState.make ranges i a lists ≠ .error .overflowError := by
    intro ranges i a lists h
    obtain ⟨message, he⟩ := stateMake_error h
    cases he
  simp only [parseState, bind_error, mapM_parseRange_overflow, refuse_error, refuse_ok,
    parseOptional_error, parseIntent_overflow, parseAnchor_overflow, not_not, causalLists_overflow,
    hmake, optionalRecord_iff parseIntent_ok hintent, reduceCtorEq, and_false, or_false, false_or,
    exists_false]
  constructor
  · rintro (h | ⟨ranges, hranges, -, hlength, h⟩)
    · exact .inl h
    · refine .inr ⟨⟨ranges, rangeRecords_iff.mp ⟨hranges, hlength⟩⟩, ?_⟩
      rcases h with hintent | ⟨i, hi, ha⟩
      · exact .inl hintent
      · exact .inr ⟨⟨i, hi⟩, ha⟩
  · rintro (h | ⟨⟨ranges, hranges⟩, h⟩)
    · exact .inl h
    · obtain ⟨hparse, hlength⟩ := rangeRecords_iff.mpr hranges
      refine .inr ⟨ranges, hparse, (), hlength, ?_⟩
      rcases h with hintent | ⟨⟨i, hi⟩, ha⟩
      · exact .inl hintent
      · exact .inr ⟨i, hi, ha⟩

theorem fromPayload_overflow {p : Value} :
    ClockState.fromPayload p = .error .overflowError ↔ StateOverflows p := by
  constructor
  · intro h
    cases hd : p.asDict with
    | none => simp [ClockState.fromPayload, hd, clockStateError] at h
    | some d =>
      simp only [ClockState.fromPayload, hd, bind_error, refuse_error, refuse_ok, not_not, item_ok,
        item_error, reduceCtorEq, and_false, false_or] at h
      obtain ⟨-, hkeys, schema, hschema, -, hone, values, hvalues, i, hi, a, ha, h⟩ := h
      cases hl : values.asList with
      | none => simp [hl, clockStateError] at h
      | some items =>
        simp only [hl, bind_error, refuse_error, refuse_ok, not_not, rewrapped_overflow,
          reduceCtorEq, and_false, false_or] at h
        obtain ⟨-, ⟨hnull, hnull'⟩, h⟩ := h
        refine ⟨d, items, i, a, asDict_eq_some.mp hd, hkeys, ?_, ?_, hi, ha, hnull, hnull',
          (parseState_overflow hnull).mp h⟩
        · rw [hschema, asInt_eq_some.mp hone]
        · rw [hvalues, asList_eq_some.mp hl]
  · rintro ⟨d, values, i, a, rfl, hkeys, hschema, hvalues, hi, ha, hnull, hnull', h⟩
    simp only [ClockState.fromPayload, Value.asDict, bind_error, refuse_error, refuse_ok, not_not,
      item_ok, item_error, reduceCtorEq, and_false, false_or]
    refine ⟨(), hkeys, _, hschema, (), rfl, _, hvalues, i, hi, a, ha, ?_⟩
    simp only [Value.asList, bind_error, refuse_error, refuse_ok, not_not, rewrapped_overflow,
      reduceCtorEq, and_false, false_or]
    exact ⟨(), ⟨hnull, hnull'⟩, (parseState_overflow hnull).mpr h⟩

theorem checked_mapM {α β : Type} {f : α → Outcome β} (hf : ∀ a, Checked (f a)) (l : List α) :
    Checked (l.mapM f) := by
  intro key h
  obtain ⟨_, a, _, -, -, ha⟩ := mapM_eq_error.mp h
  exact hf a key ha

theorem checked_refuse {c : Prop} [Decidable c] {e : ClockStateError} :
    Checked (refuse c (.own e)) := by
  intro key h
  cases (refuse_error.mp h).2

theorem checked_parseOptional {R : Type} {parse : Fields → Outcome R}
    (hparse : ∀ d, Checked (parse d)) (v : Value) : Checked (parseOptional parse v) := by
  intro key h
  obtain ⟨d, -, hd⟩ := parseOptional_error.mp h
  exact hparse d key hd

theorem checked_causalLists (v : Value) : Checked (causalLists v) := by
  unfold causalLists
  split
  · refine checked_mapM (fun item key => ?_) _
    cases item <;> simp [intervalItems, Value.asList, clockStateError]
  · exact checked_clockStateError

theorem checked_parseState {d : Fields} {values : List Value} {intent anchor : Value} :
    Checked (parseState d values intent anchor) := by
  refine (checked_mapM checked_parseRange _).bind fun _ _ => ?_
  refine checked_refuse.bind fun _ _ => ?_
  refine (checked_parseOptional checked_parseIntent _).bind fun _ _ => ?_
  refine (checked_parseOptional checked_parseAnchor _).bind fun _ _ => ?_
  refine (checked_causalLists _).bind fun _ _ key h => ?_
  obtain ⟨message, he⟩ := stateMake_error h
  cases he

/-- A failure that leaves the `try` is the module's own error, or an overflow. -/
theorem rewrapped_error {α : Type} {x : Outcome α} (hx : Checked x) {e : Raised ClockStateError}
    (h : rewrapped x = .error e) : (∃ message, e = .own ⟨message⟩) ∨ e = .overflowError := by
  cases x with
  | ok b => cases h
  | error d =>
    cases d with
    | keyError key => exact absurd rfl (hx key)
    | overflowError => exact .inr (Except.error.inj h).symm
    | valueError m => exact .inl ⟨_, (Except.error.inj h).symm⟩
    | own d => exact .inl ⟨_, (Except.error.inj h).symm⟩

theorem fromPayload_error {p : Value} {e : Raised ClockStateError}
    (h : ClockState.fromPayload p = .error e) :
    (∃ message, e = .own ⟨message⟩) ∨ e = .overflowError := by
  unfold ClockState.fromPayload at h
  split at h
  · exact .inl ⟨_, (Except.error.inj h).symm⟩
  · rename_i d hd
    rcases bind_error.mp h with h | ⟨_, hkeys, h⟩
    · exact .inl ⟨_, (refuse_error.mp h).2.symm⟩
    have hkeys := not_not.mp (refuse_ok.mp hkeys)
    have hread : ∀ {key : String}, key ∈ stateKeys →
        item d key ≠ (.error e : Outcome Value) := by
      intro key hkey hitem
      obtain ⟨v, hv⟩ := hkeys.lookup hkey
      simp [hv] at hitem
    rcases bind_error.mp h with h | ⟨schema, -, h⟩
    · exact absurd h (hread (by decide))
    rcases bind_error.mp h with h | ⟨_, -, h⟩
    · exact .inl ⟨_, (refuse_error.mp h).2.symm⟩
    rcases bind_error.mp h with h | ⟨values, -, h⟩
    · exact absurd h (hread (by decide))
    rcases bind_error.mp h with h | ⟨i, -, h⟩
    · exact absurd h (hread (by decide))
    rcases bind_error.mp h with h | ⟨a, -, h⟩
    · exact absurd h (hread (by decide))
    split at h
    · exact .inl ⟨_, (Except.error.inj h).symm⟩
    · rcases bind_error.mp h with h | ⟨_, -, h⟩
      · exact .inl ⟨_, (refuse_error.mp h).2.symm⟩
      · exact rewrapped_error checked_parseState h

/-! ### The state the rest of the program computes with -/

def confidenceOf (text : String) : ClockModel.Confidence :=
  if text = "confirmed" then .confirmed
  else if text = "approximate" then .approximate
  else .unknown

def phaseOf (text : String) : ClockModel.IntentPhase :=
  if text = "prepared" then .prepared else .uncertain

def rangeModel (r : ClockRange) (h : r.Valid) : ClockModel.ClockRange where
  startSequence := r.startSequence.toNat
  nextSequence := r.nextSequence.toNat
  offsetSeconds := r.offsetSeconds.map Number.toRat
  uncertaintySeconds := r.uncertaintySeconds.map Number.toRat
  confidence := confidenceOf r.confidence
  sourceId := r.sourceId
  nonempty := by
    have := h.2.2.1
    have := h.2.2.2.1
    omega

def intentModel (i : ClockIntent) (h : i.Valid) : ClockModel.ClockIntent where
  operationId := i.operationId
  phase := phaseOf i.phase
  observedEpoch := i.observedEpoch.toNat
  targetEpoch := i.targetEpoch.toNat
  hostMidpoint := i.hostMidpoint.toRat
  writeSequenceBefore := i.writeSequenceBefore.toNat
  writeSequenceAfter := i.writeSequenceAfter.map Int.toNat
  bounded := by
    intro a ha
    obtain ⟨z, hz, rfl⟩ := Option.map_eq_some_iff.mp ha
    exact Int.toNat_le_toNat (h.2.2.2.2.2.2 z hz)

def anchorModel (a : ClockAnchor) : ClockModel.ClockAnchor :=
  ⟨a.sequenceFrontier.toNat, a.offsetSeconds.toRat, a.uncertaintySeconds.toRat,
    confidenceOf a.confidence, a.sourceId⟩

theorem confidenceOf_unknown {text : String} (h : text ∈ confidences) :
    confidenceOf text = .unknown ↔ text = "unknown" := by
  simp only [confidences, List.mem_cons, List.not_mem_nil, or_false] at h
  rcases h with rfl | rfl | rfl <;> decide

/-- A valid range passes the constructor of the clock model. -/
theorem rangeModel_make {r : ClockRange} (h : r.Valid) :
    ClockModel.ClockRange.make r.startSequence.toNat r.nextSequence.toNat
      (r.offsetSeconds.map Number.toRat) (r.uncertaintySeconds.map Number.toRat)
      (confidenceOf r.confidence) r.sourceId = .ok (rangeModel r h) := by
  have hvalid := h
  obtain ⟨-, -, hstart, hlt, hconfidence, hsource, hu, hunknown, hboth⟩ := hvalid
  have hnonneg : ((r.uncertaintySeconds.map Number.toRat).all fun u => decide (0 ≤ u)) = true := by
    cases hx : r.uncertaintySeconds with
    | none => rfl
    | some u => simpa using hu u hx
  refine dif_pos ⟨(rangeModel r h).nonempty, hsource, hnonneg, ?_, ?_⟩
  · rw [Option.map_eq_none_iff, confidenceOf_unknown hconfidence, hunknown]
  · rw [Option.map_eq_none_iff, Option.map_eq_none_iff, hboth]

theorem intentModel_make {i : ClockIntent} (h : i.Valid) :
    ClockModel.ClockIntent.make i.operationId (phaseOf i.phase) i.observedEpoch.toNat
      i.targetEpoch.toNat i.hostMidpoint.toRat i.writeSequenceBefore.toNat
      (i.writeSequenceAfter.map Int.toNat) = .ok (intentModel i h) := by
  have hvalid := h
  obtain ⟨hne, -, ⟨-, hobserved⟩, ⟨-, htarget⟩, -⟩ := hvalid
  exact dif_pos ⟨hne, Int.toNat_le.mpr hobserved, Int.toNat_le.mpr htarget,
    (intentModel i h).bounded⟩

theorem anchorModel_make {a : ClockAnchor} (h : a.Valid) :
    ClockModel.ClockAnchor.make a.sequenceFrontier.toNat a.offsetSeconds.toRat
      a.uncertaintySeconds.toRat (confidenceOf a.confidence) a.sourceId = .ok (anchorModel a) := by
  obtain ⟨-, -, -, hu, hconfidence, hsource⟩ := h
  refine if_pos ⟨hu, ?_, hsource⟩
  simp only [anchorConfidences, List.mem_cons, List.not_mem_nil, or_false] at hconfidence
  rcases hconfidence with hc | hc <;> rw [hc] <;> decide

/-- The clock state of a valid record. The records' own constructors accept its parts. -/
def stateModel (s : ClockState) (h : s.Valid) : ClockModel.ClockState where
  ranges := s.ranges.pmap rangeModel h.ranges
  intent := s.intent.pmap intentModel h.intent
  anchor := s.anchor.map anchorModel
  causalUncertainty := s.causalUncertainty.map fun i => (i.1.toNat, i.2.toNat)
  ordered := by
    refine List.isChain_pmap_of_isChain (fun left right hl hr hle => ?_) h.ordered h.ranges
    exact Int.toNat_le_toNat hle

theorem stateModel_valid {s : ClockState} (h : s.Valid) : ClockHistory.Valid (stateModel s h) := by
  constructor
  · intro r hr
    obtain ⟨q, hq, rfl⟩ := List.mem_pmap.mp hr
    exact ClockHistory.make_valid (rangeModel_make (h.ranges q hq))
  · intro intent hintent
    obtain ⟨i, hi, hmem, rfl⟩ := Option.pmap_eq_some_iff.mp hintent
    have hmade := intentModel_make hi
    unfold ClockModel.ClockIntent.make at hmade
    split at hmade
    · rename_i hvalid
      exact ⟨hvalid.1, hvalid.2.1, hvalid.2.2.1⟩
    · cases hmade
  · intro anchor hanchor
    obtain ⟨a, ha, rfl⟩ := Option.map_eq_some_iff.mp hanchor
    have hmade := anchorModel_make (h.anchor a ha)
    unfold ClockModel.ClockAnchor.make at hmade
    split at hmade
    · rename_i hvalid
      exact hvalid
    · cases hmade
  · intro i hi
    obtain ⟨z, hz, rfl⟩ := List.mem_map.mp hi
    exact Int.toNat_le_toNat (h.causal z hz).2

/-- Every state comes back from its payload, everything accepted is a valid state of the clock, and
a refusal is the module's own error except where an integer is too large for the number test. -/
theorem fromPayload_exact (p : Value) :
    (∀ s : ClockState, s.Valid → ClockState.fromPayload s.toPayload = .ok s) ∧
      (∀ s, ClockState.fromPayload p = .ok s →
        ∃ hvalid : s.Valid, ClockHistory.Valid (stateModel s hvalid)) ∧
      ((∀ e, ClockState.fromPayload p = .error e → ∃ message, e = .own ⟨message⟩) ↔
        ¬ StateOverflows p) := by
  refine ⟨fun s hs => fromPayload_ok.mpr ⟨toPayload_represents hs, hs⟩,
    fun s h => ⟨(fromPayload_ok.mp h).2, stateModel_valid (fromPayload_ok.mp h).2⟩, ?_⟩
  rw [← fromPayload_overflow]
  constructor
  · intro hown hover
    obtain ⟨message, he⟩ := hown _ hover
    cases he
  · intro hover e h
    rcases fromPayload_error h with hown | rfl
    · exact hown
    · exact absurd h hover

/-- A payload whose anchor offset is the integer 10 ^ 400. -/
def hugeAnchor : Value :=
  .dict [("schema_version", .int 1), ("ranges", .list []), ("intent", .null),
    ("anchor", .dict [("sequence_frontier", .int 0), ("offset_seconds", .int (10 ^ 400)),
      ("uncertainty_seconds", .int 0), ("confidence", .str "approximate"),
      ("source_id", .str "ring")])]

theorem fromPayload_hugeAnchor :
    ¬ ∀ p e, ClockState.fromPayload p = .error e → ∃ message, e = .own ⟨message⟩ := by
  intro h
  have hover : ClockState.fromPayload hugeAnchor = .error .overflowError := by decide +kernel
  obtain ⟨message, he⟩ := h hugeAnchor .overflowError hover
  cases he

end ClockPersistence
