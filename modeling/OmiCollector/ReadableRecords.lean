import OmiCollector.ProjectedStream
import OmiCollector.RecordFraming

/-! Records that the publication can read: their labels pass the checks of the timeline, and they
are projected without refusal. -/
namespace ReadableRecords

open Checks PyValue PublicTimeline TimelineProjection StoredFrontier ProjectedStream
open ByteCodec (Bytes)
open ClockModel (ClockState)
open PublicTime (FrozenPublicTime FrozenTimePredecessor Label Overflows PublicTimeProjection)
open RecordFraming (Framed)
open TypedSlices (RecordAudioLayout)

theorem framed_bounds {accepts : Bytes → Prop} {unscanned : ℕ} {rest : Bytes}
    {packets : List Bytes} {overflow : Option ℕ} (h : Framed accepts unscanned rest packets overflow) :
    packets.length ≤ rest.length ∧ ∀ n ∈ overflow, 1 ≤ n ∧ n ≤ maxOpusPacketBytes := by
  induction h with
  | stop _ => simp
  | zero _ _ _ ih => exact ⟨ih.1.trans (Nat.le_succ _), ih.2⟩
  | packet _ _ _ _ _ _ _ ih =>
    refine ⟨?_, ih.2⟩
    simp only [List.length_cons, List.length_append]
    omega
  | overflow _ hpos hmax _ =>
    refine ⟨Nat.zero_le _, ?_⟩
    intro n hn
    obtain rfl := Option.mem_some_iff.mp hn
    exact ⟨hpos, hmax⟩

theorem inspected_ok {raw : Bytes} {layout : RecordAudioLayout} :
    inspected raw = .ok layout ↔ RecordFraming.inspectMono20msRecord raw = .ok layout := by
  unfold inspected
  split <;> simp_all

/-- The packets of an inspected record, and what it leaves open. -/
theorem inspected_bounds {raw : Bytes} (hlen : raw.length = 444) {layout : RecordAudioLayout}
    (h : RecordFraming.inspectMono20msRecord raw = .ok layout) :
    layout.packetCount ≤ 440 ∧ ∀ n ∈ layout.overflowSize, 1 ≤ n ∧ n ≤ maxOpusPacketBytes := by
  obtain ⟨packets, overflow, hframed, rfl⟩ :=
    ((RecordFraming.inspectRecord_spec hlen true).2 layout).mp h
  have hbounds := framed_bounds hframed
  rw [List.length_drop, hlen] at hbounds
  exact hbounds

theorem labelled_named {hex : ℚ → String} {s : ClockState} {x raw : ℕ} {key : String}
    (h : PublicTime.Labelled hex s x raw key) : key ≠ "" := by
  have hempty : KeyText.partition "" = "" := by decide
  rintro rfl
  generalize hkey : ("" : String) = key at h
  have hpartition := congrArg KeyText.partition hkey
  rw [hempty] at hpartition
  cases h <;> simp at hpartition

/-- A label that the public timeline accepts. -/
structure ValidLabel (label : Label) : Prop where
  seconds : 0 ≤ label.seconds ∧ label.seconds ≤ uint32Max
  unknown : label.quality = .unknown → label.utcUncertaintySeconds = none
  known : label.quality ≠ .unknown → ∃ u ∈ label.utcUncertaintySeconds, 0 ≤ u

theorem unknownLabel_valid {raw : ℕ} (hraw : raw ≤ PublicTime.uint32Max) (key : String) :
    ValidLabel (PublicTime.unknownLabel raw key) := by
  have hmax : (PublicTime.uint32Max : ℤ) = uint32Max := by decide
  refine ⟨⟨Int.natCast_nonneg raw, ?_⟩, fun _ => rfl, fun hne => absurd rfl hne⟩
  rw [← hmax]
  exact Int.ofNat_le.mpr hraw

/-- Valid evidence labels every record in a way that the timeline accepts. -/
theorem publicLabel_valid {hex : ℚ → String} {s : ClockState} (hvalid : ClockHistory.Valid s)
    {x raw : ℕ} (hraw : raw ≤ PublicTime.uint32Max) {label : Label}
    (h : PublicTime.publicLabel hex (PublicTime.fromState s) x raw = .ok label) :
    ValidLabel label := by
  unfold PublicTime.publicLabel at h
  cases hwindow : PublicTime.windowIntent (PublicTime.fromState s).state x with
  | some intent =>
    obtain rfl := Except.ok.inj (hwindow ▸ h)
    exact unknownLabel_valid hraw _
  | none =>
    simp only [hwindow] at h
    cases hrange : PublicTime.rangeAt (PublicTime.fromState s) x with
    | none =>
      obtain rfl := Except.ok.inj (hrange ▸ h)
      exact unknownLabel_valid hraw _
    | some r =>
      obtain ⟨hr, -⟩ := PublicTime.rangeAt_eq_some.mp hrange
      obtain ⟨-, hnonneg, -, hboth⟩ := hvalid.ranges r hr
      simp only [hrange] at h
      cases hoffset : r.offsetSeconds with
      | none =>
        obtain rfl := Except.ok.inj (hoffset ▸ h)
        exact unknownLabel_valid hraw _
      | some offset =>
        simp only [hoffset, bind_ok] at h
        obtain ⟨component, -, h⟩ := h
        by_cases hover : Overflows raw offset
        · rw [if_pos hover] at h
          obtain rfl := Except.ok.inj h
          exact unknownLabel_valid hraw _
        · rw [if_neg hover] at h
          obtain rfl := Except.ok.inj h
          have hmax : (PublicTime.uint32Max : ℤ) = uint32Max := by decide
          have hfits := not_not.mp hover
          rw [hmax] at hfits
          refine ⟨hfits, ?_, ?_⟩
          · intro hquality
            by_cases happroximate : r.confidence = .approximate <;> simp [happroximate] at hquality
          · intro _
            -- A mapped range states an uncertainty.
            cases hu : r.uncertaintySeconds with
            | none => exact absurd (hboth.mpr hu) (by simp [hoffset, ClockEvidence.evidence])
            | some u => exact ⟨u, rfl, by simpa [hu, ClockEvidence.evidence] using hnonneg⟩

/-- A frozen time of valid evidence passes the checks of the timeline, with any packets. -/
theorem freeze_valid {hex : ℚ → String} {s : ClockState} (hvalid : ClockHistory.Valid s)
    {x raw : ℕ} {predecessor : Option FrozenTimePredecessor} {time : FrozenPublicTime}
    (h : PublicTime.freeze hex (PublicTime.fromState s) x raw predecessor = .ok time) {count : ℤ}
    (hcount : 0 ≤ count ∧ count ≤ uint64Max) (facts : Finset BoundaryFact) :
    ValidRecord ⟨count, time, facts⟩ := by
  have hnamed := labelled_named (TimeBarrier.freeze_label h)
  unfold PublicTime.freeze at h
  by_cases hx : x > PublicTime.uint64Max
  · rw [if_pos hx] at h
    cases h
  · rw [if_neg hx] at h
    by_cases hraw : raw > PublicTime.uint32Max
    · rw [if_pos hraw] at h
      cases h
    · rw [if_neg hraw] at h
      simp only [bind_ok, pure_ok] at h
      obtain ⟨label, hlabel, comparable, -, rfl⟩ := h
      have hfit := publicLabel_valid hvalid (not_lt.mp hraw) hlabel
      exact ⟨hcount.1, hcount.2, hfit.seconds.1, hfit.seconds.2, hnamed, hfit.unknown, hfit.known⟩

/-- A record that the publication can read: a ring sequence, a stored row and Opus packets. -/
structure Readable (entry : Entry) : Prop where
  sequence : entry.1 ≤ PublicTime.uint64Max
  row : entry.2.Valid
  layout : ∃ layout, RecordFraming.inspectMono20msRecord entry.2.rawBytes = .ok layout

variable {hex : ℚ → String} {state : ClockState} {previous : Option V2Frontier}

theorem frozen_ok {α : Type} {x : Except String α} {a : α} : frozen x = .ok a ↔ x = .ok a := by
  unfold frozen
  exact mapError_ok

theorem predecessor_ok (hprevious : ∀ f ∈ previous, f.Storable) (x : ℕ) :
    ∃ predecessor, (adjacentTo previous x).mapM FrozenTimePredecessor.make = .ok predecessor := by
  cases hadjacent : adjacentTo previous x with
  | none => exact ⟨none, rfl⟩
  | some f =>
    have hf := hprevious f (Option.filter_eq_some_iff.mp hadjacent).1
    have hbound : f.sequence ≤ PublicTime.uint64Max := Int.ofNat_le.mp hf.sequence
    exact ⟨some ⟨f.sequence, f.time, hbound⟩, by
      simp [FrozenTimePredecessor.make, hbound]⟩

variable (hex) in
/-- A readable record is projected, and what it leaves is stored and projected without refusal. -/
theorem projectedRecord_ok (hvalid : ClockHistory.Valid state)
    (hprevious : ∀ f ∈ previous, f.Storable) {entry : Entry} (hentry : Readable entry) :
    ∃ r, projectedRecord hex (PublicTime.fromState state) previous entry = .ok r ∧
      r.frontier.Storable ∧ ValidRecord r.projected ∧
      RecordFraming.inspectMono20msRecord entry.2.rawBytes = .ok r.layout ∧
      r.projected.packetCount = r.layout.packetCount ∧ r.sequence = entry.1 := by
  obtain ⟨layout, hlayout⟩ := hentry.layout
  obtain ⟨hcount, hsize⟩ := inspected_bounds hentry.row.length_rawBytes hlayout
  obtain ⟨predecessor, hpredecessor⟩ := predecessor_ok hprevious entry.1
  obtain ⟨time, htime, -⟩ := @ClockProjections.freeze_shows hex state entry.1
    entry.2.deviceTimestamp predecessor hentry.sequence hentry.row.2.1
  refine ⟨⟨entry.1, layout, ⟨layout.packetCount, time, boundaryFacts previous entry.1 layout time⟩,
    ⟨entry.1, time, layout.overflowSize⟩⟩, ?_, ⟨Int.ofNat_le.mpr hentry.sequence, ?_, hsize⟩, ?_,
    hlayout, rfl, rfl⟩
  · simp only [projectedRecord, bind_ok, frozen_ok, pure_ok]
    exact ⟨layout, inspected_ok.mpr hlayout, predecessor, hpredecessor, time, htime, rfl⟩
  · exact freeze_valid hvalid htime (by decide) _
  · exact freeze_valid hvalid htime ⟨Int.natCast_nonneg _, by simp [uint64Max]; omega⟩ _

theorem storable_some {f : V2Frontier} (h : f.Storable) : ∀ g ∈ some f, g.Storable := by
  intro g hg
  obtain rfl := Option.mem_some_iff.mp hg
  exact h

/-- The frontier behind projected records. -/
def frontierAfter (previous : Option V2Frontier) (rs : List ProjectedRecord) : Option V2Frontier :=
  rs.foldl (fun _ r => some r.frontier) previous

theorem frontierAfter_append (xs ys : List ProjectedRecord) :
    frontierAfter previous (xs ++ ys) = frontierAfter (frontierAfter previous xs) ys :=
  List.foldl_append

/-- The packets of readable records. -/
def packetsIn (entries : List Entry) : ℤ :=
  (entries.map fun e =>
    ((RecordFraming.inspectMono20msRecord e.2.rawBytes).toOption.map fun layout =>
      (layout.packetCount : ℤ)).getD 0).sum

variable (hex) in
theorem v2ProjectedRecords_ok (hvalid : ClockHistory.Valid state)
    (hprevious : ∀ f ∈ previous, f.Storable) {entries : List Entry}
    (hentries : ∀ e ∈ entries, Readable e) :
    ∃ rs, v2ProjectedRecords hex (PublicTime.fromState state) previous entries = .ok rs ∧
      (∀ r ∈ rs, r.frontier.Storable ∧ ValidRecord r.projected) ∧
      rs.map (·.sequence) = entries.map Prod.fst ∧
      totalPackets (rs.map (·.projected)) = packetsIn entries := by
  induction entries generalizing previous with
  | nil => exact ⟨[], rfl, by simp, rfl, rfl⟩
  | cons entry entries ih =>
    obtain ⟨r, hr, hstorable, hrecord, hlayout, hcount, hfirst⟩ :=
      projectedRecord_ok hex hvalid hprevious (hentries entry (List.mem_cons_self ..))
    obtain ⟨rs, hrs, hall, hsequences, htotal⟩ := ih (storable_some hstorable)
      (fun e he => hentries e (List.mem_cons_of_mem _ he))
    refine ⟨r :: rs, ?_, ?_, ?_, ?_⟩
    · simp only [v2ProjectedRecords, bind_ok, pure_ok]
      exact ⟨r, hr, rs, hrs, rfl⟩
    · intro q hq
      rcases List.mem_cons.mp hq with rfl | hq
      · exact ⟨hstorable, hrecord⟩
      · exact hall q hq
    · rw [List.map_cons, List.map_cons, hfirst, hsequences]
    · simp only [totalPackets, packetsIn, List.map_cons, List.sum_cons] at htotal ⊢
      rw [htotal, hcount, hlayout]
      rfl

/-- The second part of a stream is projected from the frontier behind the first. -/
theorem v2ProjectedRecords_append {clock : PublicTimeProjection} {xs ys : List Entry}
    {whole : List ProjectedRecord} :
    v2ProjectedRecords hex clock previous (xs ++ ys) = .ok whole ↔ ∃ first second,
      v2ProjectedRecords hex clock previous xs = .ok first ∧
      v2ProjectedRecords hex clock (frontierAfter previous first) ys = .ok second ∧
      whole = first ++ second := by
  induction xs generalizing previous whole with
  | nil => simp [v2ProjectedRecords, frontierAfter, eq_comm]
  | cons x xs ih =>
    simp only [List.cons_append, v2ProjectedRecords, bind_ok, pure_ok, ih]
    constructor
    · rintro ⟨r, hr, _, ⟨first, second, hfirst, hsecond, rfl⟩, rfl⟩
      exact ⟨r :: first, second, ⟨r, hr, first, hfirst, rfl⟩, hsecond, rfl⟩
    · rintro ⟨_, second, ⟨r, hr, first, hfirst, rfl⟩, hsecond, rfl⟩
      exact ⟨r, hr, first ++ second, ⟨first, second, hfirst, hsecond, rfl⟩, rfl⟩

end ReadableRecords
