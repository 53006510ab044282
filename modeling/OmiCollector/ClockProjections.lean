import OmiCollector.ClockSegments
import OmiCollector.TimeBarrier

/-! The private and the public projection of one clock state agree. Both are compared with the
offset that the state gives a record: the one of its range, unless a pending write hides it. -/
namespace ClockProjections

open SpanCover ClockModel PublicTime ClockSegments

/-- The offset of a record, by the state's ranges alone. -/
def offsetAt (s : ClockState) (x : ℕ) : Option ℚ :=
  if windowIntent s x = none then (rangeAt (PublicTime.fromState s) x).bind (·.offsetSeconds)
  else none

theorem offsetAt_eq_some {s : ClockState} {x : ℕ} {offset : ℚ} :
    offsetAt s x = some offset ↔ windowIntent s x = none ∧
      ∃ r ∈ s.ranges, r.span.Contains x ∧ r.offsetSeconds = some offset := by
  unfold offsetAt
  by_cases hwindow : windowIntent s x = none
  · rw [if_pos hwindow, Option.bind_eq_some_iff]
    simp only [rangeAt_eq_some, hwindow, true_and, and_assoc]
  · rw [if_neg hwindow]
    simp [hwindow]

/-- A part of a range outside the interval of a write holds no sequence of it. -/
theorem outsideIntent_outside {intent : ClockIntent} {r : ClockRange} {p : Span} {x : ℕ}
    (hp : p ∈ outsideIntent intent r) (hx : p.Contains x) :
    ¬ (intent.writeSequenceBefore ≤ x ∧ ∀ a ∈ intent.writeSequenceAfter, x < a) := by
  rintro ⟨hbefore, hafter⟩
  obtain ⟨hlow, hhigh⟩ := hx
  unfold outsideIntent at hp
  split at hp
  · rename_i hpast
    obtain rfl := List.mem_singleton.mp hp
    exact absurd (hhigh.trans_le hpast) (not_lt.mpr hbefore)
  · cases ha : intent.writeSequenceAfter with
    | none =>
      simp only [ha, Option.any_none, Bool.false_eq_true, if_false, List.append_nil] at hp
      split at hp
      · obtain rfl := List.mem_singleton.mp hp
        exact absurd hhigh (not_lt.mpr hbefore)
      · simp at hp
    | some a =>
      have hlt : x < a := hafter a ha
      simp only [ha, Option.any_some, decide_eq_true_eq] at hp
      split at hp
      · rename_i hlater
        obtain rfl := List.mem_singleton.mp hp
        exact absurd (hlater.trans hlow) (not_le.mpr hlt)
      · rcases List.mem_append.mp hp with hp | hp
        · split at hp
          · obtain rfl := List.mem_singleton.mp hp
            exact absurd hhigh (not_lt.mpr hbefore)
          · simp at hp
        · split at hp
          · obtain rfl := List.mem_singleton.mp hp
            exact absurd hlow (not_le.mpr hlt)
          · simp at hp

/-- A mapped part of a range is mapped, lies in the range and is hidden by no pending write. -/
theorem mappedParts_contains {s : ClockState} {r : ClockRange} {p : Span} {x : ℕ}
    (hp : p ∈ mappedParts s r) (hx : p.Contains x) :
    r.span.Contains x ∧ windowIntent s x = none := by
  have hinside := (mappedParts_inside hp).1
  refine ⟨⟨hinside.1.trans hx.1, hx.2.trans_le hinside.2⟩, ?_⟩
  apply Option.eq_none_iff_forall_ne_some.mpr
  intro intent hwindow
  obtain ⟨hintent, hphase, hin⟩ := windowIntent_eq_some.mp hwindow
  unfold mappedParts at hp
  split at hp
  · simp at hp
  · simp only [hintent, if_pos hphase] at hp
    exact outsideIntent_outside hp hx hin

section Private

variable {s : ClockState} {x : ℕ}

/-- A segment that owns a record carries its offset. -/
theorem segment_offset {piece : ClockSegment}
    (hpiece : piece ∈ s.ranges.flatMap (rangeSegments s)) (hx : piece.span.Contains x) :
    offsetAt s x = some piece.utcOffsetSeconds := by
  obtain ⟨r, hr, hpiece⟩ := List.mem_flatMap.mp hpiece
  unfold rangeSegments at hpiece
  split at hpiece
  · rename_i offset uncertainty hoffset hknown
    obtain ⟨p, hp, rfl⟩ := List.mem_map.mp hpiece
    obtain ⟨hinside, hwindow⟩ := mappedParts_contains hp hx
    exact offsetAt_eq_some.mpr ⟨hwindow, r, hr, hinside, hoffset⟩
  · simp at hpiece

/-- A record with an offset is owned by some segment. -/
theorem exists_segment (hvalid : ClockHistory.Valid s) {offset : ℚ}
    (h : offsetAt s x = some offset) :
    ∃ piece ∈ s.ranges.flatMap (rangeSegments s), piece.span.Contains x := by
  obtain ⟨hwindow, r, hr, hx, hoffset⟩ := offsetAt_eq_some.mp h
  have hcovers := mappedIntervals_covers hr hx (by simp [hoffset]) hwindow
  rw [← segments_spans hvalid] at hcovers
  obtain ⟨p, hp, hpx⟩ := hcovers
  obtain ⟨piece, hpiece, rfl⟩ := List.mem_map.mp hp
  exact ⟨piece, hpiece, hpx⟩

theorem utcFor_eq_some {piece : ClockSegment} {raw : ℕ} {u : ℚ} :
    piece.utcFor x raw = some u ↔ piece.span.Contains x ∧ raw + piece.utcOffsetSeconds = u := by
  unfold ClockSegment.utcFor Span.Contains ClockSegment.span
  split
  · rename_i h
    simp [h]
  · rename_i h
    simp [h]

/-- The scan over the segments finds the offset of the record. -/
theorem utcFor_eq_offsetAt (hvalid : ClockHistory.Valid s) (raw : ℕ) :
    ClockSegmentMap.utcFor ⟨s.ranges.flatMap (rangeSegments s)⟩ x raw =
      (offsetAt s x).map fun offset => (raw : ℚ) + offset := by
  cases hfound : ClockSegmentMap.utcFor ⟨s.ranges.flatMap (rangeSegments s)⟩ x raw with
  | none =>
    have hfree := List.findSome?_eq_none_iff.mp hfound
    cases hoffset : offsetAt s x with
    | none => rfl
    | some offset =>
      obtain ⟨piece, hpiece, hx⟩ := exists_segment hvalid hoffset
      have howned := utcFor_eq_some.mpr ⟨hx, @rfl ℚ (raw + piece.utcOffsetSeconds)⟩
      rw [hfree piece hpiece] at howned
      simp at howned
  | some u =>
    obtain ⟨piece, hpiece, howned⟩ := List.exists_of_findSome?_eq_some hfound
    obtain ⟨hx, rfl⟩ := utcFor_eq_some.mp howned
    rw [segment_offset hpiece hx]
    rfl

end Private

section Public

variable {hex : ℚ → String} {s : ClockState} {x raw : ℕ}

/-- What a label says about a record with this offset. -/
def Shows (quality : Quality) (seconds : ℤ) (raw : ℕ) : Option ℚ → Prop
  | none => quality = .unknown ∧ seconds = raw
  | some offset =>
    if Overflows raw offset then quality = .unknown ∧ seconds = raw
    else (quality = .known ∨ quality = .approximate) ∧ seconds = normalized raw offset

theorem publicLabel_shows {label : Label}
    (h : publicLabel hex (PublicTime.fromState s) x raw = .ok label) :
    Shows label.quality label.seconds raw (offsetAt s x) := by
  have hstate : (PublicTime.fromState s).state = s := rfl
  unfold publicLabel at h
  rw [hstate] at h
  cases hwindow : windowIntent s x with
  | some intent =>
    obtain rfl := Except.ok.inj (hwindow ▸ h)
    rw [offsetAt, if_neg (by simp [hwindow])]
    exact ⟨rfl, rfl⟩
  | none =>
    simp only [hwindow] at h
    rw [offsetAt, if_pos hwindow]
    cases hrange : rangeAt (PublicTime.fromState s) x with
    | none =>
      obtain rfl := Except.ok.inj (hrange ▸ h)
      exact ⟨rfl, rfl⟩
    | some r =>
      simp only [hrange] at h
      rw [Option.bind_some]
      cases hoffset : r.offsetSeconds with
      | none =>
        obtain rfl := Except.ok.inj (hoffset ▸ h)
        exact ⟨rfl, rfl⟩
      | some offset =>
        simp only [hoffset, Checks.bind_ok] at h
        obtain ⟨component, -, h⟩ := h
        by_cases hover : Overflows raw offset
        · rw [if_pos hover] at h
          obtain rfl := Except.ok.inj h
          rw [Shows, if_pos hover]
          exact ⟨rfl, rfl⟩
        · rw [if_neg hover] at h
          obtain rfl := Except.ok.inj h
          rw [Shows, if_neg hover]
          refine ⟨?_, rfl⟩
          by_cases happrox : r.confidence = .approximate
          · exact .inr (if_pos happrox)
          · exact .inl (if_neg happrox)

/-- Comparability with any predecessor asks for a component only of a mapped record. -/
theorem comparableTo_total {key : String} (hkey : Labelled hex s x raw key)
    (predecessor : Option FrozenTimePredecessor) :
    ∃ comparable, comparableTo (PublicTime.fromState s) x key predecessor = .ok comparable := by
  cases predecessor with
  | none => exact ⟨false, rfl⟩
  | some predecessor =>
    unfold comparableTo
    by_cases hnext : predecessor.sequence + 1 = x
    · simp only [if_pos hnext]
      unfold sameCausalComponent
      by_cases hrecorded : Recorded (PublicTime.fromState s).state x
      · exact ⟨false, if_pos hrecorded⟩
      · rw [if_neg hrecorded]
        by_cases hsame : predecessor.time.causalMembership = key
        · exact ⟨true, if_pos hsame⟩
        · rw [if_neg hsame]
          by_cases hkind : KeyText.partition key = "mapped"
          · obtain ⟨c, hc, -⟩ := TimeBarrier.partition_mapped hkey hkind
            split
            · exact ⟨false, rfl⟩
            · rw [hc]
              exact ⟨_, rfl⟩
          · exact ⟨false, if_pos (.inl hkind)⟩
    · exact ⟨false, if_neg hnext⟩

/-- Freezing a record in bounds always succeeds, and shows the offset of the record. -/
theorem freeze_shows (predecessor : Option FrozenTimePredecessor) (hx : x ≤ uint64Max)
    (hraw : raw ≤ uint32Max) :
    ∃ time, freeze hex (PublicTime.fromState s) x raw predecessor = .ok time ∧
      Shows time.quality time.seconds raw (offsetAt s x) := by
  obtain ⟨label, hlabel, hkey⟩ := publicLabel_spec hex s x raw
  obtain ⟨comparable, hcomparable⟩ := comparableTo_total hkey predecessor
  refine ⟨⟨label.quality, label.seconds, label.utcUncertaintySeconds, label.membership,
    comparable⟩, ?_, publicLabel_shows hlabel⟩
  unfold freeze
  rw [if_neg (not_lt.mpr hx), if_neg (not_lt.mpr hraw), hlabel]
  simp only [Checks.bind_ok, Checks.pure_ok]
  exact ⟨label, rfl, comparable, hcomparable, rfl⟩

end Public

/-- The UTC value rounds into the public field. -/
def Fits (u : ℚ) : Prop := 0 ≤ ⌊u + 1 / 2⌋ ∧ ⌊u + 1 / 2⌋ ≤ uint32Max

/-- Both projections of a valid state succeed, the public time of a record is its private one
rounded, and unknown exactly where there is none or it does not fit. -/
theorem clock_projections_agree (hex : ℚ → String) (s : ClockState)
    (hvalid : ClockHistory.Valid s) (x raw : ℕ) (hx : x ≤ uint64Max) (hraw : raw ≤ uint32Max)
    (predecessor : Option FrozenTimePredecessor) :
    ∃ map time, ClockSegments.fromState s = .ok map ∧
      freeze hex (PublicTime.fromState s) x raw predecessor = .ok time ∧
      (∀ v, ((time.quality = .known ∨ time.quality = .approximate) ∧ time.seconds = v) ↔
        ∃ u, map.utcFor x raw = some u ∧ v = ⌊u + 1 / 2⌋ ∧ 0 ≤ v ∧ v ≤ uint32Max) ∧
      ((time.quality = .unknown ∧ time.seconds = raw) ↔
        map.utcFor x raw = none ∨ ∃ u, map.utcFor x raw = some u ∧ ¬ Fits u) ∧
      projectUtcTimestamp map x raw =
        if time.quality = .unknown then none else some time.seconds := by
  obtain ⟨time, htime, hshows⟩ := @freeze_shows hex s x raw predecessor hx hraw
  refine ⟨_, time, fromState_ok hvalid, htime, ?_⟩
  unfold projectUtcTimestamp
  rw [utcFor_eq_offsetAt hvalid raw]
  cases hoffset : offsetAt s x with
  | none =>
    obtain ⟨hquality, hseconds⟩ := hoffset ▸ hshows
    simp only [Option.map_none, hquality]
    refine ⟨?_, ?_, ?_⟩
    · simp
    · simp [hseconds]
    · simp
  | some offset =>
    rw [hoffset, Shows] at hshows
    by_cases hover : Overflows raw offset
    · rw [if_pos hover] at hshows
      obtain ⟨hquality, hseconds⟩ := hshows
      have hunfit : ¬ Fits (raw + offset) := hover
      simp only [Option.map_some, hquality, Option.some.injEq]
      refine ⟨fun v => ⟨by simp, ?_⟩, ?_, ?_⟩
      · rintro ⟨u, rfl, rfl, hbounds⟩
        exact absurd hbounds hunfit
      · simp [hseconds, hunfit]
      · rw [if_pos trivial]
        exact if_neg hunfit
    · rw [if_neg hover] at hshows
      obtain ⟨hquality, hseconds⟩ := hshows
      have hfit : Fits (raw + offset) := not_not.mp hover
      have hknown : time.quality ≠ .unknown := by
        rcases hquality with hquality | hquality <;> simp [hquality]
      simp only [Option.map_some, Option.some.injEq]
      refine ⟨fun v => ⟨?_, ?_⟩, ?_, ?_⟩
      · rintro ⟨-, rfl⟩
        exact ⟨_, rfl, hseconds, hseconds ▸ hfit⟩
      · rintro ⟨u, rfl, rfl, -⟩
        exact ⟨hquality, hseconds⟩
      · simp [hknown, hfit]
      · rw [if_neg hknown, hseconds]
        exact if_pos hfit

/-- A record right behind an empty pending write inside one confirmed range. -/
theorem clock_projections_agree_behind_write :
    ∃ map time,
      ClockSegments.fromState
        (TimeBarrier.pendingWithin (ClockHistory.confirmedRange 0 10 (by decide))) = .ok map ∧
      freeze TimeBarrier.zeroHex (PublicTime.fromState
        (TimeBarrier.pendingWithin (ClockHistory.confirmedRange 0 10 (by decide)))) 5 100 none =
          .ok time ∧
      map.utcFor 5 100 = some 105 ∧ time.quality = .known ∧ time.seconds = 105 := by
  have hvalid : ClockHistory.Valid
      (TimeBarrier.pendingWithin (ClockHistory.confirmedRange 0 10 (by decide))) := by
    refine ⟨?_, ?_, by simp [TimeBarrier.pendingWithin], by simp [TimeBarrier.pendingWithin]⟩
    · intro r hr
      obtain rfl := List.mem_singleton.mp hr
      exact ⟨by decide, by decide +kernel, by decide, by decide⟩
    · intro intent hintent
      obtain rfl := Option.some.inj hintent
      exact ⟨by decide, by decide, by decide⟩
  obtain ⟨map, time, hmap, htime, hshown, -⟩ :=
    clock_projections_agree TimeBarrier.zeroHex _ hvalid 5 100 (by decide) (by decide) none
  have hutc : map.utcFor 5 100 = some 105 := by
    obtain rfl := Except.ok.inj (hmap.symm.trans (fromState_ok hvalid))
    decide +kernel
  have hseconds := ((hshown 105).mpr ⟨105, hutc, by decide +kernel, by decide, by decide⟩).2
  refine ⟨map, time, hmap, htime, hutc, ?_, hseconds⟩
  have hquality : freeze TimeBarrier.zeroHex (PublicTime.fromState
      (TimeBarrier.pendingWithin (ClockHistory.confirmedRange 0 10 (by decide)))) 5 100 none =
        .ok ⟨.known, 105, some 1, "mapped:5:10", false⟩ := by
    decide +kernel
  rw [Except.ok.inj (htime.symm.trans hquality)]

end ClockProjections
