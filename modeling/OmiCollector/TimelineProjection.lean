import OmiCollector.PublicTimeline
import Mathlib.Algebra.Order.BigOperators.Group.List

/-! What the timeline projection says about its records. The loop is followed with the list of
records that it has placed so far; marks and packets are placed in two steps, since the facts of a
record come before its packets. -/
namespace TimelineProjection

open Checks Tiling PublicTimeline
open PublicTime (FrozenPublicTime Quality)

/-- A record with the packet it starts at. -/
abbrev Placed := ℤ × FrozenRecordProjection

def Placed.stop (x : Placed) : ℤ := x.1 + x.2.packetCount

/-- The record contributes packet `i`. -/
def Placed.Holds (x : Placed) (i : ℤ) : Prop := x.1 ≤ i ∧ i < Placed.stop x

/-- The records with the packets they start at. -/
def placed : ℤ → List FrozenRecordProjection → List Placed
  | _, [] => []
  | packet, r :: records => (packet, r) :: placed (packet + r.packetCount) records

def totalPackets (records : List FrozenRecordProjection) : ℤ :=
  (records.map FrozenRecordProjection.packetCount).sum

/-- A fact that the record states, or that its comparability implies. -/
def States (r : FrozenRecordProjection) (f : BoundaryFact) : Prop :=
  f ∈ r.boundaryBefore ∨ f = .timeIncomparable ∧ r.time.comparableToPrevious = false

/-- What a record must satisfy by itself. -/
structure ValidRecord (r : FrozenRecordProjection) : Prop where
  count_nonneg : 0 ≤ r.packetCount
  count_le : r.packetCount ≤ uint64Max
  seconds_nonneg : 0 ≤ r.time.seconds
  seconds_le : r.time.seconds ≤ uint32Max
  membership : r.time.causalMembership ≠ ""
  unknown : r.time.quality = .unknown → r.time.utcUncertaintySeconds = none
  known : r.time.quality ≠ .unknown → ∃ u ∈ r.time.utcUncertaintySeconds, 0 ≤ u

theorem requireUint_ok {value maximum : ℤ} {name : String} {positive : Bool} {u : Unit} :
    requireUint value maximum name positive = .ok u ↔
      (if positive then 1 else 0) ≤ value ∧ value ≤ maximum := by
  simp only [requireUint, refuse_ok, not_or, not_lt]

theorem requireUncertainty_ok {q : Quality} {uncertainty : Option ℚ} {a b : String} {u : Unit} :
    requireUncertainty q uncertainty a b = .ok u ↔
      (q = .unknown → uncertainty = none) ∧ (q ≠ .unknown → ∃ x ∈ uncertainty, 0 ≤ x) := by
  by_cases hq : q = .unknown
  · simp [requireUncertainty, hq]
  · rw [requireUncertainty, if_neg hq, refuse_ok]
    push Not
    simp [hq]

/-- The facts of a record as a set. -/
def statedFacts (r : FrozenRecordProjection) : Finset BoundaryFact :=
  if r.time.comparableToPrevious then r.boundaryBefore
  else insert .timeIncomparable r.boundaryBefore

theorem mem_statedFacts {r : FrozenRecordProjection} {f : BoundaryFact} :
    f ∈ statedFacts r ↔ States r f := by
  unfold statedFacts States
  by_cases h : r.time.comparableToPrevious = true
  · simp [h]
  · simp [h, or_comm]

theorem validated_ok {r : FrozenRecordProjection} (h : ValidRecord r) :
    validatedRecordProjection r = .ok (r.time, statedFacts r) := by
  simp only [validatedRecordProjection, bind_ok, requireUint_ok, requireUncertainty_ok, refuse_ok,
    exists_const, pure_ok]
  exact ⟨⟨by simpa using h.count_nonneg, h.count_le⟩, ⟨by simpa using h.seconds_nonneg,
    h.seconds_le⟩, h.membership, ⟨h.unknown, h.known⟩, rfl⟩

theorem placed_append (packet : ℤ) (xs ys : List FrozenRecordProjection) :
    placed packet (xs ++ ys) = placed packet xs ++ placed (packet + totalPackets xs) ys := by
  induction xs generalizing packet with
  | nil => simp [placed, totalPackets]
  | cons r xs ih =>
    simp only [List.cons_append, placed, ih, totalPackets, List.map_cons, List.sum_cons]
    congr 3
    ring

/-- What the loop has made of the facts of the records in `marks`. -/
structure Marked (marks : List Placed) (s : Projecting) : Prop where
  facts : ∀ p f, (∃ e ∈ s.boundaryFacts, e.1 = p ∧ f ∈ e.2) ↔ ∃ x ∈ marks, x.1 = p ∧ States x.2 f
  nonempty : ∀ e ∈ s.boundaryFacts, e.2 ≠ ∅
  sorted : s.boundaryFacts.Pairwise fun a b => a.1 < b.1
  reached : ∀ e ∈ s.boundaryFacts, 0 ≤ e.1 ∧ e.1 ≤ s.packet
  pending : s.pendingBoundary = true ↔ ∃ e ∈ s.boundaryFacts, e.1 = s.packet

/-- What the loop has made of the packets of the records in `pieces`. -/
structure Spanned (pieces : List Placed) (s : Projecting) : Prop where
  tiles : Tiles 0 (s.spans.map TimelineSpan.range) s.packet
  labelled : ∀ x ∈ pieces, ∀ i, x.Holds i →
    ∃ span ∈ s.spans, span.packetStart ≤ i ∧ i < span.packetNext ∧ span.label = timeLabel x.2.time
  sourced : ∀ span ∈ s.spans, ∃ x ∈ pieces, span.label = timeLabel x.2.time
  within : ∀ x ∈ pieces, 0 ≤ x.1 ∧ x.stop ≤ s.packet
  outside : ∀ e ∈ s.boundaryFacts, ∀ span ∈ s.spans,
    ¬ (span.packetStart < e.1 ∧ e.1 < span.packetNext)
  last : ∀ x ∈ pieces, x.Holds (s.packet - 1) → s.previousKey = some x.2.time
  lastLabel : ∀ span ∈ s.spans.getLast?, ∃ key, s.previousKey = some key ∧ span.label = timeLabel key
  maximal : ∀ span ∈ s.spans, 0 < span.packetStart →
    (∀ e ∈ s.boundaryFacts, e.1 ≠ span.packetStart) → ∀ x ∈ pieces, ∀ y ∈ pieces,
      x.Holds (span.packetStart - 1) → y.Holds span.packetStart → x.2.time ≠ y.2.time

theorem marked_initial : Marked [] initial where
  facts := by simp [initial]
  nonempty := by simp [initial]
  sorted := List.Pairwise.nil
  reached := by simp [initial]
  pending := by simp [initial]

theorem spanned_initial : Spanned [] initial where
  tiles := rfl
  labelled := by simp
  sourced := by simp [initial]
  within := by simp
  outside := by simp [initial]
  last := by simp
  lastLabel := by simp [initial]
  maximal := by simp

variable {entries : List (ℤ × Finset BoundaryFact)} {packet : ℤ} {facts : Finset BoundaryFact}

theorem mem_addFacts (hsorted : entries.Pairwise fun a b => a.1 < b.1) {p : ℤ} {f : BoundaryFact} :
    (∃ e ∈ addFacts packet facts entries, e.1 = p ∧ f ∈ e.2) ↔
      (∃ e ∈ entries, e.1 = p ∧ f ∈ e.2) ∨ (packet = p ∧ f ∈ facts) := by
  induction entries with
  | nil => simp [addFacts]
  | cons entry entries ih =>
    obtain ⟨q, known⟩ := entry
    have hih := ih (List.pairwise_cons.mp hsorted).2
    by_cases hq : q = packet
    · subst hq
      simp only [addFacts, if_pos, List.exists_mem_cons_iff, Finset.mem_union, and_or_left]
      exact or_right_comm
    · simp only [addFacts, if_neg hq, List.exists_mem_cons_iff, hih]
      exact or_assoc.symm

theorem addFacts_position {e : ℤ × Finset BoundaryFact}
    (h : e ∈ addFacts packet facts entries) :
    (e.1 = packet ∧ ∀ f ∈ facts, f ∈ e.2) ∨ e ∈ entries := by
  induction entries with
  | nil =>
    obtain rfl : e = (packet, facts) := by simpa [addFacts] using h
    exact .inl ⟨rfl, fun _ hf => hf⟩
  | cons entry entries ih =>
    obtain ⟨q, known⟩ := entry
    by_cases hq : q = packet
    · simp only [addFacts, if_pos hq, List.mem_cons] at h
      rcases h with rfl | h
      · exact .inl ⟨hq, fun _ hf => Finset.mem_union_right _ hf⟩
      · exact .inr (List.mem_cons_of_mem _ h)
    · simp only [addFacts, if_neg hq, List.mem_cons] at h
      rcases h with rfl | h
      · exact .inr (List.mem_cons_self ..)
      · exact (ih h).imp_right (List.mem_cons_of_mem _)

theorem position_addFacts : ∃ e ∈ addFacts packet facts entries, e.1 = packet := by
  induction entries with
  | nil => exact ⟨_, List.mem_singleton.mpr rfl, rfl⟩
  | cons entry entries ih =>
    obtain ⟨q, known⟩ := entry
    by_cases hq : q = packet
    · exact ⟨(q, known ∪ facts), by simp [addFacts, hq], hq⟩
    · obtain ⟨e, he, hpacket⟩ := ih
      exact ⟨e, by simp [addFacts, hq, he], hpacket⟩

/-- Entries up to the packet stay sorted. -/
theorem sorted_addFacts (hsorted : entries.Pairwise fun a b => a.1 < b.1)
    (hreached : ∀ e ∈ entries, e.1 ≤ packet) :
    (addFacts packet facts entries).Pairwise fun a b => a.1 < b.1 := by
  induction entries with
  | nil => exact List.pairwise_singleton _ _
  | cons entry entries ih =>
    obtain ⟨q, known⟩ := entry
    obtain ⟨hhead, htail⟩ := List.pairwise_cons.mp hsorted
    by_cases hq : q = packet
    · simp only [addFacts, if_pos hq]
      exact List.pairwise_cons.mpr ⟨hhead, htail⟩
    · simp only [addFacts, if_neg hq]
      refine List.pairwise_cons.mpr ⟨?_, ih htail fun e he => hreached e (by simp [he])⟩
      intro e he
      rcases addFacts_position he with ⟨hpacket, -⟩ | he
      · rw [hpacket]
        exact lt_of_le_of_ne (hreached (q, known) (by simp)) hq
      · exact hhead e he

@[simp] theorem packet_markBoundary (s : Projecting) (facts : Finset BoundaryFact) :
    (markBoundary s facts).packet = s.packet := by
  unfold markBoundary
  split <;> rfl

@[simp] theorem spans_markBoundary (s : Projecting) (facts : Finset BoundaryFact) :
    (markBoundary s facts).spans = s.spans := by
  unfold markBoundary
  split <;> rfl

@[simp] theorem previousKey_markBoundary (s : Projecting) (facts : Finset BoundaryFact) :
    (markBoundary s facts).previousKey = s.previousKey := by
  unfold markBoundary
  split <;> rfl

/-- Entries of the marked state are old ones or at the current packet, and old ones stay. -/
theorem boundaryFacts_markBoundary {s : Projecting} {e : ℤ × Finset BoundaryFact}
    (h : e ∈ (markBoundary s facts).boundaryFacts) : e.1 = s.packet ∨ e ∈ s.boundaryFacts := by
  unfold markBoundary at h
  split at h
  · exact .inr h
  · exact (addFacts_position h).imp_left And.left

theorem position_markBoundary {s : Projecting} (hs : s.boundaryFacts.Pairwise fun a b => a.1 < b.1)
    (hne : ∀ e ∈ s.boundaryFacts, e.2 ≠ ∅) {e : ℤ × Finset BoundaryFact}
    (h : e ∈ s.boundaryFacts) : ∃ e' ∈ (markBoundary s facts).boundaryFacts, e'.1 = e.1 := by
  unfold markBoundary
  split
  · exact ⟨e, h, rfl⟩
  · obtain ⟨f, hf⟩ := Finset.nonempty_iff_ne_empty.mpr (hne e h)
    obtain ⟨e', he', hposition, -⟩ := (mem_addFacts hs).mpr (.inl ⟨e, h, rfl, hf⟩)
    exact ⟨e', he', hposition⟩

/-- Marking the facts of the next record. -/
theorem marked_markBoundary {marks : List Placed} {s : Projecting} (h : Marked marks s)
    (hpacket : 0 ≤ s.packet) (r : FrozenRecordProjection) :
    Marked (marks ++ [(s.packet, r)]) (markBoundary s (statedFacts r)) := by
  have hstep : ∀ p f, (∃ x ∈ marks ++ [(s.packet, r)], x.1 = p ∧ States x.2 f) ↔
      (∃ x ∈ marks, x.1 = p ∧ States x.2 f) ∨ (s.packet = p ∧ f ∈ statedFacts r) := by
    intro p f
    simp only [List.mem_append, List.mem_singleton, or_and_right, exists_or, exists_eq_left,
      mem_statedFacts]
  by_cases hempty : statedFacts r = ∅
  · have hsame : markBoundary s (statedFacts r) = s := if_pos hempty
    rw [hsame]
    refine ⟨?_, h.nonempty, h.sorted, h.reached, h.pending⟩
    intro p f
    rw [hstep, h.facts, hempty]
    simp
  · have hmark : markBoundary s (statedFacts r) = { s with
        boundaryFacts := addFacts s.packet (statedFacts r) s.boundaryFacts
        pendingBoundary := true } := if_neg hempty
    rw [hmark]
    constructor
    case facts =>
      intro p f
      rw [hstep, ← h.facts]
      exact mem_addFacts h.sorted
    case nonempty =>
      intro e he
      rcases addFacts_position he with ⟨-, hfacts⟩ | he
      · obtain ⟨f, hf⟩ := Finset.nonempty_iff_ne_empty.mpr hempty
        exact Finset.ne_empty_of_mem (hfacts f hf)
      · exact h.nonempty e he
    case sorted => exact sorted_addFacts h.sorted fun e he => (h.reached e he).2
    case reached =>
      intro e he
      rcases addFacts_position he with ⟨hposition, -⟩ | he
      · rw [hposition]
        exact ⟨hpacket, le_rfl⟩
      · exact h.reached e he
    case pending => exact ⟨fun _ => position_addFacts, fun _ => rfl⟩

/-- The marks of the next record leave the spans as they are. -/
theorem spanned_markBoundary {pieces marks : List Placed} {s : Projecting} (h : Spanned pieces s)
    (hmarks : Marked marks s) (facts : Finset BoundaryFact) :
    Spanned pieces (markBoundary s facts) := by
  constructor
  case tiles => simpa using h.tiles
  case labelled => simpa using h.labelled
  case sourced => simpa using h.sourced
  case within => simpa using h.within
  case outside =>
    intro e he span hspan
    rw [spans_markBoundary] at hspan
    rcases boundaryFacts_markBoundary he with hposition | he
    · have hwithin := h.tiles.within (List.mem_map_of_mem hspan)
      rw [hposition]
      exact fun hin => absurd hin.2 (not_lt.mpr hwithin.2)
    · exact h.outside e he span hspan
  case last => simpa using h.last
  case lastLabel => simpa using h.lastLabel
  case maximal =>
    intro span hspan hpos hclear
    rw [spans_markBoundary] at hspan
    apply h.maximal span hspan hpos
    intro e he
    obtain ⟨e', he', hposition⟩ := @position_markBoundary facts s hmarks.sorted hmarks.nonempty e he
    rw [← hposition]
    exact hclear e' he'

/-- Counting packets in leaves the marks as they are. -/
theorem marked_addPackets {marks : List Placed} {s : Projecting} (h : Marked marks s)
    (time : FrozenPublicTime) {count : ℤ} (hcount : 0 < count) :
    Marked marks (addPackets s time count) := by
  refine ⟨h.facts, h.nonempty, h.sorted, ?_, ?_⟩
  · intro e he
    have hreached := h.reached e he
    simp only [addPackets]
    omega
  · constructor
    · intro hpending
      cases hpending
    · rintro ⟨e, he, hposition⟩
      have hreached := h.reached e he
      simp only [addPackets] at hposition
      omega

/-- Spans of a tiling lie within what has been counted. -/
theorem Spanned.span_within {pieces : List Placed} {s : Projecting} (h : Spanned pieces s)
    {span : TimelineSpan} (hspan : span ∈ s.spans) :
    0 ≤ span.packetStart ∧ span.packetStart < span.packetNext ∧ span.packetNext ≤ s.packet := by
  have hwithin := h.tiles.within (List.mem_map_of_mem hspan)
  exact ⟨hwithin.1, h.tiles.nonempty (List.mem_map_of_mem hspan), hwithin.2⟩

/-- Only the records placed before hold packets before the current one. -/
theorem holds_before {pieces : List Placed} {s : Projecting} {r : FrozenRecordProjection}
    {x : Placed} (hx : x ∈ pieces ++ [(s.packet, r)]) {i : ℤ} (hholds : x.Holds i)
    (hi : i < s.packet) : x ∈ pieces := by
  rcases List.mem_append.mp hx with hx | hx
  · exact hx
  · obtain rfl := List.mem_singleton.mp hx
    exact absurd hholds.1 (not_le.mpr hi)

/-- Only the record being counted in holds packets from the current one on. -/
theorem Spanned.holds_after {pieces : List Placed} {s : Projecting} (h : Spanned pieces s)
    {r : FrozenRecordProjection} {x : Placed} (hx : x ∈ pieces ++ [(s.packet, r)]) {i : ℤ}
    (hholds : x.Holds i) (hi : s.packet ≤ i) : x = (s.packet, r) := by
  rcases List.mem_append.mp hx with hx | hx
  · exact absurd (hholds.2.trans_le (h.within x hx).2) (not_lt.mpr hi)
  · exact List.mem_singleton.mp hx

theorem Spanned.within_snoc {pieces : List Placed} {s : Projecting} (h : Spanned pieces s)
    {r : FrozenRecordProjection} (hcount : 0 ≤ r.packetCount) :
    ∀ x ∈ pieces ++ [(s.packet, r)], 0 ≤ x.1 ∧ x.stop ≤ s.packet + r.packetCount := by
  intro x hx
  rcases List.mem_append.mp hx with hx | hx
  · have hwithin := h.within x hx
    omega
  · obtain rfl := List.mem_singleton.mp hx
    exact ⟨h.tiles.le, le_rfl⟩

/-- A record that cannot join the last span starts a new one. -/
theorem spanned_newSpan {pieces marks : List Placed} {s : Projecting} (h : Spanned pieces s)
    (hmarks : Marked marks s) {r : FrozenRecordProjection} (hcount : 0 < r.packetCount)
    (hnew : ¬ (s.spans ≠ [] ∧ s.previousKey = some r.time ∧ s.pendingBoundary = false)) :
    Spanned (pieces ++ [(s.packet, r)]) (addPackets s r.time r.packetCount) := by
  obtain ⟨span, hspan⟩ : ∃ span : TimelineSpan, span = ⟨s.packet, s.packet + r.packetCount,
    r.time.quality, r.time.seconds, r.time.utcUncertaintySeconds⟩ := ⟨_, rfl⟩
  have hspans : (addPackets s r.time r.packetCount).spans = s.spans ++ [span] := by
    simp only [addPackets, if_neg hnew, hspan]
  have hpacket : (addPackets s r.time r.packetCount).packet = s.packet + r.packetCount := rfl
  have hkey : (addPackets s r.time r.packetCount).previousKey = some r.time := rfl
  have hentries : (addPackets s r.time r.packetCount).boundaryFacts = s.boundaryFacts := rfl
  have hlabel : span.label = timeLabel r.time := by rw [hspan]; rfl
  constructor
  case tiles =>
    rw [hspans, hpacket, List.map_append]
    have htile : span.range = (s.packet, s.packet + r.packetCount) := by rw [hspan]; rfl
    rw [List.map_singleton, htile]
    exact h.tiles.snoc (by omega)
  case labelled =>
    intro x hx i hi
    rw [hspans]
    by_cases hbefore : i < s.packet
    · obtain ⟨old, hold, hin⟩ := h.labelled x (holds_before hx hi hbefore) i hi
      exact ⟨old, List.mem_append_left _ hold, hin⟩
    · obtain rfl := h.holds_after hx hi (not_lt.mp hbefore)
      refine ⟨span, by simp, ?_⟩
      rw [hlabel, hspan]
      exact ⟨hi.1, hi.2, rfl⟩
  case sourced =>
    intro old hold
    rw [hspans] at hold
    rcases List.mem_append.mp hold with hold | hold
    · obtain ⟨x, hx, hsource⟩ := h.sourced old hold
      exact ⟨x, List.mem_append_left _ hx, hsource⟩
    · obtain rfl := List.mem_singleton.mp hold
      exact ⟨(s.packet, r), by simp, hlabel⟩
  case within =>
    rw [hpacket]
    exact h.within_snoc hcount.le
  case outside =>
    intro e he old hold
    rw [hentries] at he
    rw [hspans] at hold
    rcases List.mem_append.mp hold with hold | hold
    · exact h.outside e he old hold
    · obtain rfl := List.mem_singleton.mp hold
      have hreached := (hmarks.reached e he).2
      rw [hspan]
      exact fun hin => absurd hin.1 (not_lt.mpr hreached)
  case last =>
    intro x hx hi
    rw [hpacket] at hi
    obtain rfl := h.holds_after hx hi (by omega)
    rw [hkey]
  case lastLabel =>
    intro last hlast
    rw [hspans, List.getLast?_concat] at hlast
    obtain rfl : span = last := by simpa using hlast
    exact ⟨r.time, hkey, hlabel⟩
  case maximal =>
    intro old hold hpos hclear x hx y hy hbefore hat
    rw [hspans] at hold
    rw [hentries] at hclear
    rcases List.mem_append.mp hold with hold | hold
    · have hwithin := h.span_within hold
      exact h.maximal old hold hpos hclear x (holds_before hx hbefore (by omega)) y
        (holds_before hy hat (by omega)) hbefore hat
    · obtain rfl := List.mem_singleton.mp hold
      have hstart : old.packetStart = s.packet := by rw [hspan]
      rw [hstart] at hpos hclear hbefore hat
      have hpending : s.pendingBoundary = false := by
        by_contra hpending
        obtain ⟨e, he, hposition⟩ := hmarks.pending.mp (by simpa using hpending)
        exact hclear e he hposition
      have hspansne : s.spans ≠ [] := by
        intro hnil
        have htiles := h.tiles
        rw [hnil] at htiles
        exact absurd (show (0 : ℤ) = s.packet from htiles) hpos.ne
      have hlast := h.last x (holds_before hx hbefore (by omega)) hbefore
      obtain rfl := h.holds_after hy hat le_rfl
      intro htime
      exact hnew ⟨hspansne, by rw [hlast, htime], hpending⟩

/-- A record with the key of the last span prolongs it. -/
theorem spanned_prolong {pieces marks : List Placed} {s : Projecting} (h : Spanned pieces s)
    (hmarks : Marked marks s) {r : FrozenRecordProjection} (hcount : 0 < r.packetCount)
    (hjoin : s.spans ≠ [] ∧ s.previousKey = some r.time ∧ s.pendingBoundary = false) :
    Spanned (pieces ++ [(s.packet, r)]) (addPackets s r.time r.packetCount) := by
  obtain ⟨init, prior, hinit⟩ : ∃ init prior, s.spans = init ++ [prior] :=
    ⟨_, _, (List.dropLast_append_getLast hjoin.1).symm⟩
  obtain ⟨longer, hlonger⟩ : ∃ longer : TimelineSpan,
    longer = { prior with packetNext := s.packet + r.packetCount } := ⟨_, rfl⟩
  have hspans : (addPackets s r.time r.packetCount).spans = init ++ [longer] := by
    simp only [addPackets, if_pos hjoin]
    rw [prolongLast, hinit, List.getLast?_concat, List.dropLast_concat, hlonger]
  have hpacket : (addPackets s r.time r.packetCount).packet = s.packet + r.packetCount := rfl
  have hkey : (addPackets s r.time r.packetCount).previousKey = some r.time := rfl
  have hentries : (addPackets s r.time r.packetCount).boundaryFacts = s.boundaryFacts := rfl
  have hprior : prior ∈ s.spans := by simp [hinit]
  have hstop : prior.packetNext = s.packet := by
    have htiles := h.tiles
    rw [hinit, List.map_append] at htiles
    obtain ⟨m, -, -, -, hend⟩ := tiles_append.mp htiles
    exact hend
  have hstart : prior.packetStart < s.packet := by
    have hwithin := h.span_within hprior
    omega
  have hlabel : longer.label = timeLabel r.time := by
    obtain ⟨key, hprevious, hpriorLabel⟩ := h.lastLabel prior (by simp [hinit])
    rw [hjoin.2.1] at hprevious
    obtain rfl := Option.some.inj hprevious
    rw [← hpriorLabel, hlonger]
    rfl
  have hpriorLabel : prior.label = longer.label := by rw [hlonger]; rfl
  have hold : ∀ span ∈ init, span ∈ s.spans := fun span hspan => by simp [hinit, hspan]
  constructor
  case tiles =>
    have htiles := h.tiles
    rw [hinit, List.map_append] at htiles
    have hrange : [prior].map TimelineSpan.range = [(prior.packetStart, s.packet)] := by
      simp [TimelineSpan.range, hstop]
    have hlonger' : [longer].map TimelineSpan.range =
        [(prior.packetStart, s.packet + r.packetCount)] := by
      simp [TimelineSpan.range, hlonger]
    rw [hrange] at htiles
    rw [hspans, hpacket, List.map_append, hlonger']
    exact htiles.prolong (by omega)
  case labelled =>
    intro x hx i hi
    rw [hspans]
    by_cases hbefore : i < s.packet
    · obtain ⟨span, hspan, hle, hlt, hin⟩ := h.labelled x (holds_before hx hi hbefore) i hi
      rw [hinit] at hspan
      rcases List.mem_append.mp hspan with hspan | hspan
      · exact ⟨span, List.mem_append_left _ hspan, hle, hlt, hin⟩
      · obtain rfl := List.mem_singleton.mp hspan
        refine ⟨longer, by simp, ?_, ?_, by rw [← hpriorLabel, hin]⟩
        · rw [hlonger]
          exact hle
        · rw [hlonger]
          exact hbefore.trans_le (show s.packet ≤ s.packet + r.packetCount by omega)
    · obtain rfl := h.holds_after hx hi (not_lt.mp hbefore)
      refine ⟨longer, by simp, ?_, ?_, hlabel⟩
      · rw [hlonger]
        exact hstart.le.trans (not_lt.mp hbefore)
      · rw [hlonger]
        exact hi.2
  case sourced =>
    intro span hspan
    rw [hspans] at hspan
    rcases List.mem_append.mp hspan with hspan | hspan
    · obtain ⟨x, hx, hsource⟩ := h.sourced span (hold span hspan)
      exact ⟨x, List.mem_append_left _ hx, hsource⟩
    · obtain rfl := List.mem_singleton.mp hspan
      exact ⟨(s.packet, r), by simp, hlabel⟩
  case within =>
    rw [hpacket]
    exact h.within_snoc hcount.le
  case outside =>
    intro e he span hspan
    rw [hentries] at he
    rw [hspans] at hspan
    rcases List.mem_append.mp hspan with hspan | hspan
    · exact h.outside e he span (hold span hspan)
    · obtain rfl := List.mem_singleton.mp hspan
      rintro ⟨hafter, -⟩
      -- no entry is pending at the packet, and none lies inside the shorter span
      have hnone : ¬ ∃ e ∈ s.boundaryFacts, e.1 = s.packet := by
        rw [← hmarks.pending, hjoin.2.2]
        simp
      have hlt : e.1 < s.packet :=
        lt_of_le_of_ne (hmarks.reached e he).2 fun heq => hnone ⟨e, he, heq⟩
      rw [hlonger] at hafter
      exact h.outside e he prior hprior ⟨hafter, by rw [hstop]; exact hlt⟩
  case last =>
    intro x hx hi
    rw [hpacket] at hi
    obtain rfl := h.holds_after hx hi (by omega)
    rw [hkey]
  case lastLabel =>
    intro last hlast
    rw [hspans, List.getLast?_concat] at hlast
    obtain rfl : longer = last := by simpa using hlast
    exact ⟨r.time, hkey, hlabel⟩
  case maximal =>
    intro span hspan hpos hclear x hx y hy hbefore hat
    rw [hspans] at hspan
    rw [hentries] at hclear
    obtain ⟨old, hmem, hsame⟩ : ∃ old ∈ s.spans, span.packetStart = old.packetStart := by
      rcases List.mem_append.mp hspan with hspan | hspan
      · exact ⟨span, hold span hspan, rfl⟩
      · obtain rfl := List.mem_singleton.mp hspan
        exact ⟨prior, hprior, by rw [hlonger]⟩
    rw [hsame] at hpos hclear hbefore hat
    have hwithin := h.span_within hmem
    exact h.maximal old hmem hpos hclear x (holds_before hx hbefore (by omega)) y
      (holds_before hy hat (by omega)) hbefore hat

theorem spanned_addPackets {pieces marks : List Placed} {s : Projecting} (h : Spanned pieces s)
    (hmarks : Marked marks s) {r : FrozenRecordProjection} (hcount : 0 < r.packetCount) :
    Spanned (pieces ++ [(s.packet, r)]) (addPackets s r.time r.packetCount) := by
  by_cases hjoin : s.spans ≠ [] ∧ s.previousKey = some r.time ∧ s.pendingBoundary = false
  · exact spanned_prolong h hmarks hcount hjoin
  · exact spanned_newSpan h hmarks hcount hjoin

/-- A record without packets adds none. -/
theorem spanned_empty {pieces : List Placed} {s : Projecting} (h : Spanned pieces s)
    {r : FrozenRecordProjection} (hcount : r.packetCount = 0) :
    Spanned (pieces ++ [(s.packet, r)]) s := by
  have hnone : ∀ i, ¬ Placed.Holds (s.packet, r) i := by
    rintro i ⟨hle, hlt⟩
    simp only [Placed.stop, hcount] at hle hlt
    omega
  have hmem : ∀ x ∈ pieces ++ [(s.packet, r)], ∀ i, x.Holds i → x ∈ pieces := by
    intro x hx i hi
    rcases List.mem_append.mp hx with hx | hx
    · exact hx
    · obtain rfl := List.mem_singleton.mp hx
      exact absurd hi (hnone i)
  refine ⟨h.tiles, ?_, ?_, ?_, h.outside, ?_, h.lastLabel, ?_⟩
  · exact fun x hx i hi => h.labelled x (hmem x hx i hi) i hi
  · intro span hspan
    obtain ⟨x, hx, hsource⟩ := h.sourced span hspan
    exact ⟨x, List.mem_append_left _ hx, hsource⟩
  · simpa [hcount] using h.within_snoc hcount.ge
  · exact fun x hx hi => h.last x (hmem x hx _ hi) hi
  · intro span hspan hpos hclear x hx y hy hbefore hat
    exact h.maximal span hspan hpos hclear x (hmem x hx _ hbefore) y (hmem y hy _ hat) hbefore hat

/-- The state of the loop after the records in `done`. -/
structure LoopInv (done : List FrozenRecordProjection) (s : Projecting) : Prop where
  marked : Marked (placed 0 done) s
  spanned : Spanned (placed 0 done) s
  packet : s.packet = totalPackets done

theorem placed_snoc (done : List FrozenRecordProjection) (r : FrozenRecordProjection) :
    placed 0 (done ++ [r]) = placed 0 done ++ [(totalPackets done, r)] := by
  rw [placed_append, zero_add]
  rfl

theorem totalPackets_append (xs ys : List FrozenRecordProjection) :
    totalPackets (xs ++ ys) = totalPackets xs + totalPackets ys := by
  simp [totalPackets]

theorem totalPackets_singleton (r : FrozenRecordProjection) :
    totalPackets [r] = r.packetCount := by
  simp [totalPackets]

/-- One record: the loop goes on, and the record is placed. -/
theorem projectRecord_spec {done : List FrozenRecordProjection} {s : Projecting}
    (h : LoopInv done s) {r : FrozenRecordProjection} (hr : ValidRecord r)
    (hmax : totalPackets (done ++ [r]) ≤ uint64Max) :
    ∃ s', projectRecord s r = .ok s' ∧ LoopInv (done ++ [r]) s' := by
  rw [totalPackets_append, totalPackets_singleton, ← h.packet] at hmax
  have hplaced : placed 0 (done ++ [r]) = placed 0 done ++ [(s.packet, r)] := by
    rw [placed_snoc, h.packet]
  have hpacket : s.packet + r.packetCount = totalPackets (done ++ [r]) := by
    rw [totalPackets_append, totalPackets_singleton, h.packet]
  have hmarked := marked_markBoundary h.marked h.spanned.tiles.le r
  have hspanned := spanned_markBoundary h.spanned h.marked (statedFacts r)
  by_cases hzero : r.packetCount = 0
  · refine ⟨markBoundary s (statedFacts r), ?_, ?_, ?_, ?_⟩
    · simp only [projectRecord, bind_ok, validated_ok hr]
      exact ⟨_, rfl, by rw [if_pos hzero]; rfl⟩
    · rwa [hplaced]
    · have hempty := spanned_empty hspanned hzero
      rw [packet_markBoundary] at hempty
      rwa [hplaced]
    · rw [packet_markBoundary, ← hpacket, hzero, add_zero]
  · have hcount : 0 < r.packetCount := lt_of_le_of_ne hr.count_nonneg (Ne.symm hzero)
    refine ⟨addPackets (markBoundary s (statedFacts r)) r.time r.packetCount, ?_, ?_, ?_, ?_⟩
    · simp only [projectRecord, bind_ok, validated_ok hr]
      refine ⟨_, rfl, ?_⟩
      rw [if_neg hzero, bind_ok]
      exact ⟨(), by rw [refuse_ok, packet_markBoundary]; omega, rfl⟩
    · rw [hplaced]
      exact marked_addPackets hmarked r.time hcount
    · have hadded := spanned_addPackets hspanned hmarked hcount
      rw [packet_markBoundary] at hadded
      rwa [hplaced]
    · rw [← hpacket]
      simp [addPackets]

/-- All records: the loop ends with every record placed. -/
theorem project_spec {records done : List FrozenRecordProjection} {s : Projecting}
    (h : LoopInv done s) (hrecords : ∀ r ∈ records, ValidRecord r)
    (hmax : totalPackets (done ++ records) ≤ uint64Max) :
    ∃ s', records.foldlM projectRecord s = .ok s' ∧ LoopInv (done ++ records) s' := by
  induction records generalizing done s with
  | nil => exact ⟨s, rfl, by simpa using h⟩
  | cons r records ih =>
    have hlist : done ++ r :: records = (done ++ [r]) ++ records := by simp
    have hrest : ∀ q ∈ records, ValidRecord q := fun q hq => hrecords q (by simp [hq])
    have hnonneg : 0 ≤ totalPackets records := by
      apply List.sum_nonneg
      simp only [List.mem_map]
      rintro _ ⟨q, hq, rfl⟩
      exact (hrest q hq).count_nonneg
    rw [hlist, totalPackets_append] at hmax
    obtain ⟨s', hstep, h'⟩ := projectRecord_spec h (hrecords r (by simp)) (by omega)
    obtain ⟨t, hrun, ht⟩ := ih h' hrest (by rw [totalPackets_append]; exact hmax)
    refine ⟨t, ?_, by rwa [hlist]⟩
    rw [List.foldlM_cons, bind_ok]
    exact ⟨s', hstep, hrun⟩

theorem mem_sortedFacts {facts : Finset BoundaryFact} {f : BoundaryFact} :
    f ∈ sortedFacts facts ↔ f ∈ facts := by
  cases f <;> simp [sortedFacts]

theorem nodup_sortedFacts (facts : Finset BoundaryFact) : (sortedFacts facts).Nodup := by
  apply List.Nodup.filter
  decide

theorem sortedFacts_toFinset (facts : Finset BoundaryFact) :
    sortedFacts (sortedFacts facts).toFinset = sortedFacts facts := by
  have hsame : (sortedFacts facts).toFinset = facts := by
    ext f
    simp [mem_sortedFacts]
  rw [hsame]

theorem sortedFacts_ne_nil {facts : Finset BoundaryFact} (h : facts ≠ ∅) :
    sortedFacts facts ≠ [] := by
  obtain ⟨f, hf⟩ := Finset.nonempty_iff_ne_empty.mpr h
  exact List.ne_nil_of_mem (mem_sortedFacts.mpr hf)

/-- What the projection of records says about them. -/
structure Exact (records : List FrozenRecordProjection) (p : PublicProjection) : Prop where
  count : p.packetCount = totalPackets records
  tiles : Tiles 0 (p.timeline.map TimelineSpan.range) p.packetCount
  contributed : ∀ i, 0 ≤ i → i < p.packetCount → ∃ x ∈ placed 0 records, x.Holds i
  labelled : ∀ x ∈ placed 0 records, ∀ i, x.Holds i →
    ∃ span ∈ p.timeline, span.packetStart ≤ i ∧ i < span.packetNext ∧
      span.label = timeLabel x.2.time
  facts : ∀ q f, (∃ b ∈ p.boundaries, b.atPacket = q ∧ f ∈ b.facts) ↔
    ∃ x ∈ placed 0 records, x.1 = q ∧ States x.2 f
  entries : ∀ b ∈ p.boundaries, b.facts ≠ [] ∧ b.facts.Nodup ∧
    sortedFacts b.facts.toFinset = b.facts
  sorted : p.boundaries.Pairwise fun a b => a.atPacket < b.atPacket
  outside : ∀ b ∈ p.boundaries, ∀ span ∈ p.timeline,
    ¬ (span.packetStart < b.atPacket ∧ b.atPacket < span.packetNext)
  maximal : ∀ span ∈ p.timeline, 0 < span.packetStart →
    (∀ b ∈ p.boundaries, b.atPacket ≠ span.packetStart) →
    ∀ x ∈ placed 0 records, ∀ y ∈ placed 0 records, x.Holds (span.packetStart - 1) →
      y.Holds span.packetStart → x.2.time ≠ y.2.time

theorem placed_covers {records : List FrozenRecordProjection}
    (hrecords : ∀ r ∈ records, ValidRecord r) {packet i : ℤ} (hle : packet ≤ i)
    (hlt : i < packet + totalPackets records) : ∃ x ∈ placed packet records, x.Holds i := by
  induction records generalizing packet with
  | nil =>
    simp only [totalPackets, List.map_nil, List.sum_nil] at hlt
    omega
  | cons r records ih =>
    by_cases hin : i < packet + r.packetCount
    · exact ⟨(packet, r), List.mem_cons_self .., hle, hin⟩
    · have htotal : totalPackets (r :: records) = r.packetCount + totalPackets records := by
        simp [totalPackets]
      obtain ⟨x, hx, hholds⟩ :=
        ih (fun q hq => hrecords q (List.mem_cons_of_mem _ hq)) (not_lt.mp hin) (by omega)
      exact ⟨x, List.mem_cons_of_mem _ hx, hholds⟩

theorem mem_of_mem_placed {records : List FrozenRecordProjection} {packet : ℤ} {x : Placed}
    (h : x ∈ placed packet records) : x.2 ∈ records := by
  induction records generalizing packet with
  | nil => cases h
  | cons r records ih =>
    rcases List.mem_cons.mp h with rfl | h
    · exact List.mem_cons_self ..
    · exact List.mem_cons_of_mem _ (ih h)

/-- The projection that the end of the loop is turned into. -/
def projectionOf (s : Projecting) : PublicProjection :=
  ⟨s.packet, s.spans, s.boundaryFacts.map fun e => ⟨e.1, sortedFacts e.2⟩⟩

theorem exact_projectionOf {records : List FrozenRecordProjection}
    (hrecords : ∀ r ∈ records, ValidRecord r) {s : Projecting} (h : LoopInv records s) :
    Exact records (projectionOf s) := by
  have hboundary : ∀ b, b ∈ (projectionOf s).boundaries ↔
      ∃ e ∈ s.boundaryFacts, (⟨e.1, sortedFacts e.2⟩ : PublicBoundary) = b := by
    intro b
    simp [projectionOf]
  constructor
  case count => exact h.packet
  case tiles => exact h.spanned.tiles
  case contributed =>
    intro i hle hlt
    apply placed_covers hrecords hle
    rw [zero_add, ← h.packet]
    exact hlt
  case labelled => exact h.spanned.labelled
  case facts =>
    intro q f
    rw [← h.marked.facts q f]
    constructor
    · rintro ⟨b, hb, hposition, hf⟩
      obtain ⟨e, he, rfl⟩ := (hboundary b).mp hb
      exact ⟨e, he, hposition, mem_sortedFacts.mp hf⟩
    · rintro ⟨e, he, hposition, hf⟩
      exact ⟨_, (hboundary _).mpr ⟨e, he, rfl⟩, hposition, mem_sortedFacts.mpr hf⟩
  case entries =>
    intro b hb
    obtain ⟨e, he, rfl⟩ := (hboundary b).mp hb
    exact ⟨sortedFacts_ne_nil (h.marked.nonempty e he), nodup_sortedFacts e.2,
      sortedFacts_toFinset e.2⟩
  case sorted => exact List.pairwise_map.mpr h.marked.sorted
  case outside =>
    intro b hb span hspan
    obtain ⟨e, he, rfl⟩ := (hboundary b).mp hb
    exact h.spanned.outside e he span hspan
  case maximal =>
    intro span hspan hpos hclear
    apply h.spanned.maximal span hspan hpos
    intro e he
    exact hclear _ ((hboundary _).mpr ⟨e, he, rfl⟩)

/-- The manifest accepts spans that tile the packets with labels of valid records. -/
theorem manifestTimeline_ok {packetCount start : ℤ} {spans : List TimelineSpan}
    (htiles : Tiles start (spans.map TimelineSpan.range) packetCount) (hstart : 0 ≤ start)
    (hmax : packetCount ≤ uint64Max)
    (hlabels : ∀ span ∈ spans, ∃ r, ValidRecord r ∧ span.label = timeLabel r.time) :
    ∃ timeline, manifestTimeline packetCount start spans = .ok timeline := by
  induction spans generalizing start with
  | nil =>
    have hend : start = packetCount := htiles
    refine ⟨[], ?_⟩
    simp only [manifestTimeline, bind_ok, refuse_ok, exists_const, pure_ok]
    exact ⟨by simpa using hend, trivial⟩
  | cons span spans ih =>
    obtain ⟨hfirst, hpos, hrest⟩ := htiles
    simp only [TimelineSpan.range] at hfirst hpos hrest
    obtain ⟨r, hr, hlabel⟩ := hlabels span (by simp)
    obtain ⟨hquality, hseconds, huncertainty⟩ : span.quality = r.time.quality ∧
        span.seconds = r.time.seconds ∧
        span.utcUncertaintySeconds = r.time.utcUncertaintySeconds := by
      simpa [TimelineSpan.label, timeLabel] using hlabel
    have hle := hrest.le
    obtain ⟨timeline, hok⟩ := ih hrest (by omega) (fun q hq => hlabels q (by simp [hq]))
    refine ⟨manifestSpan span :: timeline, ?_⟩
    simp only [manifestTimeline, bind_ok, requireUint_ok, requireUncertainty_ok, refuse_ok,
      exists_const, pure_ok, hquality, hseconds, huncertainty]
    exact ⟨⟨by simp; omega, by omega⟩, ⟨by simp; omega, by omega⟩, by omega,
      ⟨by simpa using hr.seconds_nonneg, hr.seconds_le⟩, ⟨hr.unknown, hr.known⟩, timeline, hok, rfl⟩

theorem manifestBoundaries_ok {packetCount prior : ℤ} {boundaries : List PublicBoundary}
    (hafter : ∀ b ∈ boundaries, prior < b.atPacket)
    (hsorted : boundaries.Pairwise fun a b => a.atPacket < b.atPacket)
    (hwithin : ∀ b ∈ boundaries, 0 ≤ b.atPacket ∧ b.atPacket ≤ packetCount)
    (hfacts : ∀ b ∈ boundaries, b.facts ≠ [] ∧ b.facts.Nodup ∧
      sortedFacts b.facts.toFinset = b.facts) :
    manifestBoundaries packetCount prior boundaries = .ok boundaries := by
  induction boundaries generalizing prior with
  | nil => rfl
  | cons b boundaries ih =>
    obtain ⟨hhead, htail⟩ := List.pairwise_cons.mp hsorted
    obtain ⟨hnonneg, hle⟩ := hwithin b (by simp)
    obtain ⟨hne, hnodup, hcanonical⟩ := hfacts b (by simp)
    have hrest := ih hhead htail (fun c hc => hwithin c (by simp [hc]))
      (fun c hc => hfacts c (by simp [hc]))
    simp only [manifestBoundaries, bind_ok, requireUint_ok, refuse_ok, exists_const, pure_ok]
    exact ⟨⟨by simpa using hnonneg, hle⟩, not_le.mpr (hafter b (by simp)), by simp [hne, hnodup],
      by simp [hcanonical], boundaries, hrest, rfl⟩

/-- The projection of valid records with packets is exact, and every manifest of it is accepted. -/
theorem public_timeline (records : List FrozenRecordProjection)
    (hrecords : ∀ r ∈ records, ValidRecord r) (hpackets : 0 < totalPackets records)
    (hmax : totalPackets records ≤ uint64Max) :
    ∃ p, projectPublicTimeline records = .ok p ∧ Exact records p ∧
      ∀ artifactId order audioSha256, IsDigest artifactId → IsDigest audioSha256 →
        0 ≤ order → order ≤ uint64Max →
        ∃ manifest, canonicalManifest artifactId order audioSha256 p = .ok manifest := by
  have hinitial : LoopInv [] initial := ⟨marked_initial, spanned_initial, rfl⟩
  obtain ⟨s, hrun, hinv⟩ := project_spec hinitial hrecords (by simpa using hmax)
  rw [List.nil_append] at hinv
  have hexact := exact_projectionOf hrecords hinv
  have hsort : s.boundaryFacts.insertionSort byPosition = s.boundaryFacts :=
    List.Pairwise.insertionSort_eq (hinv.marked.sorted.imp fun hlt => hlt.le)
  refine ⟨projectionOf s, ?_, hexact, ?_⟩
  · simp only [projectPublicTimeline, bind_ok, refuse_ok, exists_const, pure_ok]
    refine ⟨s, hrun, ?_, by rw [hsort]; rfl⟩
    rw [hinv.packet]
    exact hpackets.ne'
  · intro artifactId order audioSha256 hid haudio horder hle
    have hcount : (projectionOf s).packetCount = totalPackets records := hinv.packet
    have hlabels : ∀ span ∈ s.spans, ∃ r, ValidRecord r ∧ span.label = timeLabel r.time := by
      intro span hspan
      obtain ⟨x, hx, hlabel⟩ := hinv.spanned.sourced span hspan
      exact ⟨x.2, hrecords x.2 (mem_of_mem_placed hx), hlabel⟩
    obtain ⟨timeline, htimeline⟩ := manifestTimeline_ok hexact.tiles le_rfl (by rwa [hcount]) hlabels
    have hwithin : ∀ b ∈ (projectionOf s).boundaries,
        0 ≤ b.atPacket ∧ b.atPacket ≤ (projectionOf s).packetCount := by
      intro b hb
      obtain ⟨e, he, rfl⟩ := List.mem_map.mp hb
      exact hinv.marked.reached e he
    have hboundaries := @manifestBoundaries_ok (projectionOf s).packetCount (-1)
      (projectionOf s).boundaries (fun b hb => by have := (hwithin b hb).1; omega) hexact.sorted
      hwithin hexact.entries
    refine ⟨⟨artifactId, order, audioSha256, (projectionOf s).packetCount, timeline,
      (projectionOf s).boundaries⟩, ?_⟩
    simp only [canonicalManifest, bind_ok, requireDigest, requireUint_ok, refuse_ok, exists_const,
      not_not, pure_ok]
    exact ⟨hid, haudio, ⟨by simpa using horder, hle⟩, ⟨by rw [hcount]; exact hpackets,
      by rwa [hcount]⟩, timeline, htimeline, _, hboundaries, rfl⟩

def mappedTime (comparable : Bool) : FrozenPublicTime :=
  ⟨.known, 100, some (1 / 2), "mapped:0:9", comparable⟩

/-- A record, a lossy one without packets, and two more that share a span. -/
def lossyRecords : List FrozenRecordProjection :=
  [⟨2, mappedTime false, ∅⟩, ⟨0, mappedTime true, {.sourceLoss}⟩, ⟨3, mappedTime true, ∅⟩,
    ⟨4, mappedTime true, ∅⟩]

theorem validRecord_mappedTime {count : ℤ} (h : 0 ≤ count ∧ count ≤ uint64Max) (comparable : Bool)
    (facts : Finset BoundaryFact) : ValidRecord ⟨count, mappedTime comparable, facts⟩ where
  count_nonneg := h.1
  count_le := h.2
  seconds_nonneg := by simp [mappedTime]
  seconds_le := by simp [mappedTime, uint32Max]
  membership := by simp [mappedTime]
  unknown := by simp [mappedTime]
  known := by simp [mappedTime]

theorem public_timeline_lossy : ∃ p, projectPublicTimeline lossyRecords = .ok p ∧
    Exact lossyRecords p ∧ p.packetCount = 9 := by
  have hrecords : ∀ r ∈ lossyRecords, ValidRecord r := by
    simp only [lossyRecords, List.forall_mem_cons]
    exact ⟨validRecord_mappedTime (by decide) _ _, validRecord_mappedTime (by decide) _ _,
      validRecord_mappedTime (by decide) _ _, validRecord_mappedTime (by decide) _ _, by simp⟩
  obtain ⟨p, hp, hexact, -⟩ := public_timeline lossyRecords hrecords (by decide) (by decide)
  exact ⟨p, hp, hexact, hexact.count⟩

/-- The lossy record puts its fact on the packet after it, and the two last records share a span. -/
example : (projectPublicTimeline lossyRecords).toOption.map (fun p =>
    (p.timeline.map TimelineSpan.range, p.boundaries)) =
    some ([(0, 2), (2, 9)], [⟨0, [.timeIncomparable]⟩, ⟨2, [.sourceLoss]⟩]) := by
  decide +kernel

end TimelineProjection
