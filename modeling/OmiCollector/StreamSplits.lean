import OmiCollector.RealCodec
import OmiCollector.SealedSources

/-! A stream that is published in groups says the same as one that is published whole. -/
namespace StreamSplits

open Checks PyValue PublicTimeline TimelineProjection StoredFrontier ProjectedStream
open ReadableRecords RealCodec
open CaptureModel (CaptureRecord)
open ClockModel (ClockState)
open PublicTime (PublicTimeProjection Quality)
open TypedSlices (Codec)

variable {hex : ℚ → String} {state : ClockState} {previous : Option V2Frontier}

/-- What the generators of `_freeze_v2_public_projection` have consumed together. -/
theorem freezeRecords_ok {clock : PublicTimeProjection} {entries : List Entry} {s t : Freezing} :
    entries.foldlM (freezeRecord hex clock) s = .ok t ↔ ∃ rs,
      v2ProjectedRecords hex clock s.finalFrontier entries = .ok rs ∧
      (rs.map (·.projected)).foldlM PublicTimeline.projectRecord s.projecting = .ok t.projecting ∧
      t.finalFrontier = frontierAfter s.finalFrontier rs ∧
      t.digested = s.digested ++ rs.map (·.projected) := by
  induction entries generalizing s with
  | nil =>
    simp only [List.foldlM_nil, pure_ok, v2ProjectedRecords]
    constructor
    · rintro rfl
      exact ⟨[], rfl, rfl, rfl, (List.append_nil _).symm⟩
    · rintro ⟨rs, hrs, hprojecting, hfrontier, hdigested⟩
      obtain rfl := Except.ok.inj hrs
      rw [List.map_nil, List.foldlM_nil, pure_ok] at hprojecting
      rw [List.map_nil, List.append_nil] at hdigested
      cases s
      cases t
      simp_all [frontierAfter]
  | cons entry entries ih =>
    simp only [List.foldlM_cons, bind_ok, freezeRecord, frozen_ok, pure_ok, v2ProjectedRecords]
    constructor
    · rintro ⟨_, ⟨r, hr, projecting, hstep, rfl⟩, hrest⟩
      obtain ⟨rs, hrs, hprojecting, hfrontier, hdigested⟩ := ih.mp hrest
      refine ⟨r :: rs, ⟨r, hr, rs, hrs, rfl⟩, ?_, hfrontier, by simpa using hdigested⟩
      rw [List.map_cons, List.foldlM_cons, bind_ok]
      exact ⟨projecting, hstep, hprojecting⟩
    · rintro ⟨_, ⟨r, hr, rs, hrs, rfl⟩, hprojecting, hfrontier, hdigested⟩
      rw [List.map_cons, List.foldlM_cons, bind_ok] at hprojecting
      obtain ⟨projecting, hstep, hprojecting⟩ := hprojecting
      exact ⟨_, ⟨r, hr, projecting, hstep, rfl⟩,
        ih.mpr ⟨rs, hrs, hprojecting, hfrontier, by simpa using hdigested⟩⟩

variable (previous) in
theorem frontierAfter_eq_some {rs : List ProjectedRecord} (h : rs ≠ []) :
    ∃ r ∈ rs, frontierAfter previous rs = some r.frontier := by
  rw [← List.dropLast_append_getLast h]
  exact ⟨rs.getLast h, by simp, by simp [frontierAfter]⟩

variable {D : Type} {digest : List FrozenRecordProjection → D}

variable (digest) in
/-- A group is frozen as the timeline of its projected records. -/
theorem freeze_ok {entries : List Entry} {rs : List ProjectedRecord} {p : PublicProjection}
    (hrs : v2ProjectedRecords hex (PublicTime.fromState state) previous entries = .ok rs)
    (hp : projectPublicTimeline (rs.map (·.projected)) = .ok p) (hne : rs ≠ []) :
    ∃ r ∈ rs, frontierAfter previous rs = some r.frontier ∧
      freezeV2PublicProjection digest hex state previous entries =
        .ok (p, r.frontier, digest (rs.map (·.projected))) := by
  obtain ⟨r, hr, hfrontier⟩ := frontierAfter_eq_some previous hne
  refine ⟨r, hr, hfrontier, ?_⟩
  simp only [projectPublicTimeline, bind_ok, refuse_ok, exists_const, pure_ok] at hp
  obtain ⟨projecting, hprojecting, hpacket, rfl⟩ := hp
  simp only [freezeV2PublicProjection, bind_ok, refuse_ok, exists_const]
  refine ⟨⟨projecting, frontierAfter previous rs, rs.map (·.projected)⟩,
    freezeRecords_ok.mpr ⟨rs, hrs, hprojecting, rfl, rfl⟩, hpacket, ?_⟩
  simp [hfrontier, hne, Option.filter_some, pure, Except.pure]

theorem timeline_ok {rs : List ProjectedRecord} (hrs : ∀ r ∈ rs, ValidRecord r.projected)
    (hpackets : 0 < totalPackets (rs.map (·.projected)))
    (hmax : totalPackets (rs.map (·.projected)) ≤ uint64Max) :
    ∃ p, projectPublicTimeline (rs.map (·.projected)) = .ok p ∧
      Exact (rs.map (·.projected)) p := by
  have hrecords : ∀ r ∈ rs.map (·.projected), ValidRecord r := by
    intro r hr
    obtain ⟨q, hq, rfl⟩ := List.mem_map.mp hr
    exact hrs q hq
  have hinitial : LoopInv [] PublicTimeline.initial := ⟨marked_initial, spanned_initial, rfl⟩
  obtain ⟨s, hrun, hinv⟩ := project_spec hinitial hrecords (by simpa using hmax)
  rw [List.nil_append] at hinv
  have hsort : s.boundaryFacts.insertionSort byPosition = s.boundaryFacts :=
    List.Pairwise.insertionSort_eq (hinv.marked.sorted.imp fun hlt => hlt.le)
  refine ⟨projectionOf s, ?_, exact_projectionOf hrecords hinv⟩
  simp only [projectPublicTimeline, bind_ok, refuse_ok, exists_const, pure_ok]
  refine ⟨s, hrun, ?_, by rw [hsort]; rfl⟩
  rw [hinv.packet]
  exact hpackets.ne'

theorem packetsIn_nonneg (entries : List Entry) : 0 ≤ packetsIn entries := by
  apply List.sum_nonneg
  intro n hn
  obtain ⟨e, -, rfl⟩ := List.mem_map.mp hn
  cases (RecordFraming.inspectMono20msRecord e.2.rawBytes).toOption with
  | none => exact le_rfl
  | some layout => exact Int.natCast_nonneg _

theorem packetsIn_append (xs ys : List Entry) :
    packetsIn (xs ++ ys) = packetsIn xs + packetsIn ys := by
  simp [packetsIn]

/-- What one group publishes of its records. -/
structure Publishes (digest : List FrozenRecordProjection → D) (piece : List ProjectedRecord)
    (part : PublicProjection × D) : Prop where
  projected : projectPublicTimeline (piece.map (·.projected)) = .ok part.1
  exact : Exact (piece.map (·.projected)) part.1
  digested : part.2 = digest (piece.map (·.projected))

theorem storedFrontier_ok {f : V2Frontier} (h : f.Storable) :
    (some (v2FrontierPayload f)).mapM v2FrontierFromPayload = .ok (some f) := by
  have hback := (fromPayload_payload f).mpr h
  simp [hback, Functor.map, Except.map]

variable (hex digest) in
/-- The groups are projected as the pieces of one pass, whose frontiers all come back from the
store. -/
theorem publishGroups_ok (hvalid : ClockHistory.Valid state) {stored : Option Fields}
    (hstored : stored.mapM v2FrontierFromPayload = .ok previous)
    (hprevious : ∀ f ∈ previous, f.Storable) {groups : List (List Entry)}
    (hentries : ∀ g ∈ groups, ∀ e ∈ g, Readable e)
    (hpackets : ∀ g ∈ groups, 0 < packetsIn g ∧ packetsIn g ≤ uint64Max) :
    ∃ pieces parts last, publishGroups digest hex state stored groups = .ok (parts, last) ∧
      v2ProjectedRecords hex (PublicTime.fromState state) previous groups.flatten =
        .ok pieces.flatten ∧
      pieces.map (List.map (·.sequence)) = groups.map (List.map Prod.fst) ∧
      List.Forall₂ (Publishes digest) pieces parts ∧
      (∀ r ∈ pieces.flatten, r.frontier.Storable ∧ ValidRecord r.projected) ∧
      last.mapM v2FrontierFromPayload = .ok (frontierAfter previous pieces.flatten) := by
  induction groups generalizing stored previous with
  | nil => exact ⟨[], [], stored, rfl, rfl, rfl, .nil, by simp, hstored⟩
  | cons g groups ih =>
    obtain ⟨rs, hrs, hall, hsequences, htotal⟩ := v2ProjectedRecords_ok hex hvalid
      hprevious (hentries g (List.mem_cons_self ..))
    obtain ⟨hpos, hmax⟩ := hpackets g (List.mem_cons_self ..)
    rw [← htotal] at hpos hmax
    obtain ⟨p, hp, hexact⟩ := timeline_ok (fun r hr => (hall r hr).2) hpos hmax
    have hne : rs ≠ [] := by
      rintro rfl
      exact lt_irrefl _ hpos
    obtain ⟨r, hr, hfrontier, hfreeze⟩ := freeze_ok digest hrs hp hne
    have hstorable := (hall r hr).1
    obtain ⟨pieces, parts, last, hpublish, hproject, hpieces, hparts, hrecords, hlast⟩ :=
      ih (storedFrontier_ok hstorable) (storable_some hstorable)
        (fun h hh => hentries h (List.mem_cons_of_mem _ hh))
        (fun h hh => hpackets h (List.mem_cons_of_mem _ hh))
    refine ⟨rs :: pieces, (p, digest (rs.map (·.projected))) :: parts, last, ?_, ?_, ?_,
      .cons ⟨hp, hexact, rfl⟩ hparts, ?_, ?_⟩
    · simp only [publishGroups, bind_ok, pure_ok]
      exact ⟨previous, hstored, _, hfreeze, _, hpublish, rfl⟩
    · rw [List.flatten_cons, List.flatten_cons, v2ProjectedRecords_append]
      exact ⟨rs, pieces.flatten, hrs, by rw [hfrontier]; exact hproject, rfl⟩
    · rw [List.map_cons, List.map_cons, hsequences, hpieces]
    · intro q hq
      rcases List.mem_append.mp hq with hq | hq
      · exact hall q hq
      · exact hrecords q hq
    · rw [List.flatten_cons, frontierAfter_append, hfrontier]
      exact hlast

theorem packetsIn_flatten_ge {groups : List (List Entry)} {g : List Entry} (hg : g ∈ groups) :
    packetsIn g ≤ packetsIn groups.flatten := by
  induction groups with
  | nil => cases hg
  | cons h groups ih =>
    rw [List.flatten_cons, packetsIn_append]
    rcases List.mem_cons.mp hg with rfl | hg
    · exact le_add_of_nonneg_right (packetsIn_nonneg _)
    · exact (ih hg).trans (le_add_of_nonneg_left (packetsIn_nonneg _))

theorem stored_storable {stored : Option Fields}
    (hstored : stored.mapM v2FrontierFromPayload = .ok previous) :
    ∀ f ∈ previous, f.Storable := by
  intro f hf
  obtain rfl : previous = some f := hf
  cases stored with
  | none => cases hstored
  | some payload =>
    rw [Option.mapM_some] at hstored
    cases hread : v2FrontierFromPayload payload with
    | error e =>
      rw [hread] at hstored
      cases hstored
    | ok g =>
      rw [hread] at hstored
      obtain rfl := Option.some.inj (Except.ok.inj hstored)
      exact storable_of_fromPayload hread

/-- However a stream is split into groups with packets, the groups publish the pieces of the one
projection of the whole stream, and every frontier in it comes back from the store unchanged. The
publication's own loop, with the collector's scanner and clock, gives the same records. -/
theorem split_stream (hvalid : ClockHistory.Valid state) {stored : Option Fields}
    (hstored : stored.mapM v2FrontierFromPayload = .ok previous) {groups : List (List Entry)}
    (hentries : ∀ g ∈ groups, ∀ e ∈ g, Readable e)
    (hpackets : ∀ g ∈ groups, 0 < packetsIn g ∧ packetsIn g ≤ uint64Max) :
    ∃ whole pieces parts last,
      v2ProjectedRecords hex (PublicTime.fromState state) previous groups.flatten = .ok whole ∧
      publishGroups digest hex state stored groups = .ok (parts, last) ∧
      pieces.flatten = whole ∧
      pieces.map (List.map (·.sequence)) = groups.map (List.map Prod.fst) ∧
      List.Forall₂ (fun piece part =>
        projectPublicTimeline (piece.map (·.projected)) = .ok part.1 ∧
          part.2 = digest (piece.map (·.projected))) pieces parts ∧
      (∀ r ∈ whole, v2FrontierFromPayload (v2FrontierPayload r.frontier) = .ok r.frontier) ∧
      last.mapM v2FrontierFromPayload = .ok (frontierAfter previous whole) ∧
      ∀ codec : Codec D, PublicationStage.projectRecords (collectorCodec hex codec) state
        (previous.map ledgerFrontier) (groups.flatten.map fun e => (e.1, e.2.rawBytes)) =
          .ok (whole.map ledgerRecord) := by
  obtain ⟨pieces, parts, last, hpublish, hproject, hpieces, hparts, hrecords, hlast⟩ :=
    publishGroups_ok hex digest hvalid hstored (stored_storable hstored)
      hentries hpackets
  refine ⟨pieces.flatten, pieces, parts, last, hproject, hpublish, rfl, hpieces, ?_, ?_, hlast, ?_⟩
  · exact hparts.imp fun _ _ h => ⟨h.projected, h.digested⟩
  · intro r hr
    exact (fromPayload_payload r.frontier).mpr (hrecords r hr).1
  · intro codec
    have hall : ∀ e ∈ groups.flatten, Readable e := by
      intro e he
      obtain ⟨g, hg, hge⟩ := List.mem_flatten.mp he
      exact hentries g hg e hge
    obtain ⟨rs, hrs, hreal⟩ := @projectRecords_real D hex codec state previous hvalid
      (stored_storable hstored) groups.flatten hall
    obtain rfl := Except.ok.inj (hproject.symm.trans hrs)
    exact hreal

/-- A record with one packet. -/
def packetAt (ordinal : ℕ) : CaptureRecord :=
  CaptureModel.parseRecord ordinal SealedSources.packetRecord

def splitClock : ClockState :=
  ⟨[⟨0, 8, some 1000, some (1 / 2), .confirmed, "clock", by decide⟩], none, none, [],
    List.isChain_singleton _⟩

/-- Two adjacent records, and one behind a gap that its clock range does not reach. -/
def splitGroups : List (List Entry) :=
  [[(5, packetAt 0), (6, packetAt 1)], [(9, packetAt 2)]]

theorem packetAt_layout (ordinal : ℕ) :
    RecordFraming.inspectMono20msRecord (packetAt ordinal).rawBytes =
      .ok ⟨1, 0, none, [[8, 0x55]]⟩ := by
  rw [packetAt, CaptureModel.parseRecord_rawBytes ordinal SealedSources.packetRecord_length]
  exact ((RecordFraming.inspectRecord_spec SealedSources.packetRecord_length true).2 _).mpr
    ⟨_, _, SealedSources.packetRecord_framed true, rfl⟩

theorem packetAt_readable {sequence ordinal : ℕ} (h : sequence ≤ 9 ∧ ordinal ≤ 9) :
    Readable (sequence, packetAt ordinal) := by
  refine ⟨?_, CaptureModel.parseRecord_valid ?_ SealedSources.packetRecord_length, _,
    packetAt_layout ordinal⟩
  · exact h.1.trans (by decide)
  · exact h.2.trans (by decide)

theorem splitGroups_readable : ∀ g ∈ splitGroups, ∀ e ∈ g, Readable e := by
  simp only [splitGroups, List.forall_mem_cons]
  exact ⟨⟨packetAt_readable (by decide), packetAt_readable (by decide), by simp⟩,
    ⟨packetAt_readable (by decide), by simp⟩, by simp⟩

theorem splitClock_valid : ClockHistory.Valid splitClock := by
  refine ⟨?_, by simp [splitClock], by simp [splitClock], by simp [splitClock]⟩
  simp [splitClock, ClockEvidence.evidence, ClockHistory.ValidEvidence]

theorem packetsIn_packetAt {entries : List Entry} (h : ∀ e ∈ entries, ∃ n, e.2 = packetAt n) :
    packetsIn entries = entries.length := by
  induction entries with
  | nil => rfl
  | cons e entries ih =>
    obtain ⟨n, hn⟩ := h e (List.mem_cons_self ..)
    have hrest := ih fun e he => h e (List.mem_cons_of_mem _ he)
    simp only [packetsIn] at hrest
    rw [packetsIn, List.map_cons, List.sum_cons, hrest, hn, packetAt_layout, List.length_cons,
      Nat.cast_succ, add_comm]
    rfl

theorem splitGroups_packets : packetsIn splitGroups.flatten = 3 ∧
    ∀ g ∈ splitGroups, 0 < packetsIn g ∧ packetsIn g ≤ uint64Max := by
  refine ⟨packetsIn_packetAt (by simp [splitGroups]), fun g hg => ?_⟩
  have hpackets : packetsIn g = g.length := packetsIn_packetAt (by
    rcases List.mem_pair.mp hg with rfl | rfl <;> simp)
  rw [hpackets]
  rcases List.mem_pair.mp hg with rfl | rfl <;> simp [uint64Max]

theorem split_stream_gap : ∃ whole pieces parts last,
    v2ProjectedRecords (fun _ => "") (PublicTime.fromState splitClock) none splitGroups.flatten =
      .ok whole ∧
    publishGroups id (fun _ => "") splitClock none splitGroups = .ok (parts, last) ∧
    pieces.flatten = whole ∧
    pieces.map (List.map (·.sequence)) = [[5, 6], [9]] ∧
    List.Forall₂ (fun (piece : List ProjectedRecord) part =>
      projectPublicTimeline (piece.map (·.projected)) = .ok part.1 ∧
        part.2 = piece.map (·.projected)) pieces parts ∧
    (∀ r ∈ whole, v2FrontierFromPayload (v2FrontierPayload r.frontier) = .ok r.frontier) ∧
    last.mapM v2FrontierFromPayload = .ok (frontierAfter none whole) ∧
    ∀ codec : Codec (List FrozenRecordProjection),
      PublicationStage.projectRecords (collectorCodec (fun _ => "") codec) splitClock none
        (splitGroups.flatten.map fun e => (e.1, e.2.rawBytes)) = .ok (whole.map ledgerRecord) :=
  split_stream splitClock_valid rfl splitGroups_readable splitGroups_packets.2

section Timelines

/-- The timeline labels packet `i`. -/
def LabelAt (p : PublicProjection) (i : ℤ) (label : Quality × ℤ × Option ℚ) : Prop :=
  ∃ span ∈ p.timeline, span.packetStart ≤ i ∧ i < span.packetNext ∧ span.label = label

/-- A boundary at packet `i` states the fact. -/
def FactAt (p : PublicProjection) (i : ℤ) (f : BoundaryFact) : Prop :=
  ∃ b ∈ p.boundaries, b.atPacket = i ∧ f ∈ b.facts

/-- Projections one after the other, each with the packets before it. -/
def laidOut : ℤ → List PublicProjection → List (ℤ × PublicProjection)
  | _, [] => []
  | packet, p :: ps => (packet, p) :: laidOut (packet + p.packetCount) ps

theorem placed_shift {records : List FrozenRecordProjection} {o : ℤ} {x : Placed} :
    x ∈ placed o records ↔ (x.1 - o, x.2) ∈ placed 0 records := by
  have hfrom : ∀ a, x ∈ placed (o + a) records ↔ (x.1 - o, x.2) ∈ placed a records := by
    induction records with
    | nil => simp [placed]
    | cons r records ih =>
      intro a
      have hhead : x = (o + a, r) ↔ (x.1 - o, x.2) = (a, r) := by
        rw [Prod.ext_iff, Prod.ext_iff]
        apply and_congr_left
        intro _
        change x.1 = o + a ↔ x.1 - o = a
        omega
      rw [placed, placed, List.mem_cons, List.mem_cons, hhead, add_assoc, ih]
  simpa using hfrom 0

/-- What exact projections say of a packet position is what their records say there. -/
theorem said_laidOut {S : PublicProjection → ℤ → Prop}
    {Q : ℤ → FrozenRecordProjection → Prop}
    (hsaid : ∀ records p i, Exact records p →
      (S p i ↔ ∃ x ∈ placed 0 records, Q (i - x.1) x.2))
    {pieces : List (List FrozenRecordProjection)} {parts : List PublicProjection}
    (h : List.Forall₂ Exact pieces parts) (o i : ℤ) :
    (∃ x ∈ placed o pieces.flatten, Q (i - x.1) x.2) ↔
      ∃ y ∈ laidOut o parts, S y.2 (i - y.1) := by
  induction h generalizing o with
  | nil => simp [placed, laidOut]
  | @cons piece part pieces parts hexact _ ih =>
    have hfirst : (∃ x ∈ placed o piece, Q (i - x.1) x.2) ↔ S part (i - o) := by
      rw [hsaid piece part (i - o) hexact]
      constructor
      · rintro ⟨x, hx, hQ⟩
        refine ⟨_, placed_shift.mp hx, ?_⟩
        rwa [show i - o - (x.1 - o) = i - x.1 by ring]
      · rintro ⟨x, hx, hQ⟩
        refine ⟨(x.1 + o, x.2), ?_, ?_⟩
        · rw [placed_shift]
          rwa [add_sub_cancel_right]
        · rwa [show i - (x.1 + o) = i - o - x.1 by ring]
    have hrest := ih (o + totalPackets piece)
    simp only [List.flatten_cons, placed_append, List.mem_append, or_and_right, exists_or, laidOut,
      List.mem_cons, exists_eq_left, hexact.count]
    exact or_congr hfirst hrest

theorem exact_labelAt {records : List FrozenRecordProjection} {p : PublicProjection}
    (h : Exact records p) (i : ℤ) (label : Quality × ℤ × Option ℚ) :
    LabelAt p i label ↔ ∃ x ∈ placed 0 records,
      (0 ≤ i - x.1 ∧ i - x.1 < x.2.packetCount) ∧ timeLabel x.2.time = label := by
  have hholds : ∀ x : Placed, x.Holds i ↔ 0 ≤ i - x.1 ∧ i - x.1 < x.2.packetCount := by
    intro x
    simp only [Placed.Holds, Placed.stop]
    omega
  constructor
  · rintro ⟨span, hspan, hle, hlt, rfl⟩
    have hrange : span.range ∈ p.timeline.map TimelineSpan.range := List.mem_map_of_mem hspan
    obtain ⟨hstart, hstop⟩ := h.tiles.within hrange
    have hpos : 0 ≤ i := le_trans hstart hle
    have hcount : i < p.packetCount := lt_of_lt_of_le hlt hstop
    obtain ⟨x, hx, hin⟩ := h.contributed i hpos hcount
    obtain ⟨other, hother, hle', hlt', hlabel⟩ := h.labelled x hx i hin
    refine ⟨x, hx, (hholds x).mp hin, ?_⟩
    -- Both spans hold the packet, so they are the same one.
    obtain ⟨k, hk⟩ := List.getElem?_of_mem hspan
    obtain ⟨k', hk'⟩ := List.getElem?_of_mem hother
    have hsame : k' = k := (h.tiles.existsUnique hpos hcount).unique
      ⟨other.range, by rw [List.getElem?_map, hk']; rfl, hle', hlt'⟩
      ⟨span.range, by rw [List.getElem?_map, hk]; rfl, hle, hlt⟩
    rw [hsame, hk] at hk'
    obtain rfl := Option.some.inj hk'
    exact hlabel.symm
  · rintro ⟨x, hx, hin, rfl⟩
    exact h.labelled x hx i ((hholds x).mpr hin)

theorem exact_factAt {records : List FrozenRecordProjection} {p : PublicProjection}
    (h : Exact records p) (i : ℤ) (f : BoundaryFact) :
    FactAt p i f ↔ ∃ x ∈ placed 0 records, i - x.1 = 0 ∧ States x.2 f := by
  rw [FactAt, h.facts i f]
  constructor
  · rintro ⟨x, hx, hat, hstates⟩
    exact ⟨x, hx, by omega, hstates⟩
  · rintro ⟨x, hx, hat, hstates⟩
    exact ⟨x, hx, by omega, hstates⟩

theorem totalPackets_flatten {pieces : List (List FrozenRecordProjection)}
    {parts : List PublicProjection} (h : List.Forall₂ Exact pieces parts) :
    totalPackets pieces.flatten = (parts.map (·.packetCount)).sum := by
  induction h with
  | nil => rfl
  | cons hexact _ ih =>
    rw [List.flatten_cons, totalPackets_append, ih, ← hexact.count, List.map_cons, List.sum_cons]

end Timelines

/-- A consumer reads the same labels and facts at the same packets from the artifacts of the groups,
one after the other, as from one artifact of the whole stream. -/
theorem split_timelines_agree (hvalid : ClockHistory.Valid state) {stored : Option Fields}
    (hstored : stored.mapM v2FrontierFromPayload = .ok previous) {groups : List (List Entry)}
    (hgroups : groups ≠ []) (hentries : ∀ g ∈ groups, ∀ e ∈ g, Readable e)
    (hpackets : ∀ g ∈ groups, 0 < packetsIn g)
    (hmax : packetsIn groups.flatten ≤ uint64Max) :
    ∃ p f d parts last,
      freezeV2PublicProjection digest hex state previous groups.flatten = .ok (p, f, d) ∧
      publishGroups digest hex state stored groups = .ok (parts, last) ∧
      last.mapM v2FrontierFromPayload = .ok (some f) ∧
      p.packetCount = (parts.map (·.1.packetCount)).sum ∧
      (∀ i label, LabelAt p i label ↔
        ∃ y ∈ laidOut 0 (parts.map Prod.fst), LabelAt y.2 (i - y.1) label) ∧
      ∀ i fact, FactAt p i fact ↔
        ∃ y ∈ laidOut 0 (parts.map Prod.fst), FactAt y.2 (i - y.1) fact := by
  obtain ⟨pieces, parts, last, hpublish, hproject, -, hparts, hrecords, hlast⟩ :=
    publishGroups_ok hex digest hvalid hstored (stored_storable hstored)
      hentries fun g hg => ⟨hpackets g hg, (packetsIn_flatten_ge hg).trans hmax⟩
  have hexact : List.Forall₂ Exact (pieces.map (List.map (·.projected))) (parts.map Prod.fst) := by
    rw [List.forall₂_map_left_iff, List.forall₂_map_right_iff]
    exact hparts.imp fun _ _ h => h.exact
  have hflat : (pieces.map (List.map (·.projected))).flatten =
      pieces.flatten.map (·.projected) := List.map_flatten.symm
  -- The projection of the whole stream has the packets of its records.
  have hall : ∀ e ∈ groups.flatten, Readable e := by
    intro e he
    obtain ⟨g, hg, heg⟩ := List.mem_flatten.mp he
    exact hentries g hg e heg
  obtain ⟨rs, hrs, -, -, htotal⟩ := v2ProjectedRecords_ok hex hvalid
    (stored_storable hstored) hall
  obtain rfl := Except.ok.inj (hrs.symm.trans hproject)
  have hpos : 0 < packetsIn groups.flatten := by
    obtain ⟨g, hg⟩ := List.exists_mem_of_ne_nil groups hgroups
    exact lt_of_lt_of_le (hpackets g hg) (packetsIn_flatten_ge hg)
  rw [← htotal] at hpos hmax
  obtain ⟨p, hp, hwhole⟩ := timeline_ok (fun r hr => (hrecords r hr).2) hpos hmax
  have hne : pieces.flatten ≠ [] := by
    intro hnil
    rw [hnil] at hpos
    exact lt_irrefl _ hpos
  obtain ⟨r, -, hfrontier, hfreeze⟩ := freeze_ok digest hproject hp hne
  refine ⟨p, r.frontier, _, parts, last, hfreeze, hpublish, hfrontier ▸ hlast, ?_, ?_, ?_⟩
  · have hsum := totalPackets_flatten hexact
    rw [hflat, ← hwhole.count, List.map_map] at hsum
    exact hsum
  · intro i label
    rw [exact_labelAt hwhole, ← hflat]
    exact said_laidOut (S := fun q j => LabelAt q j label)
      (Q := fun d r => (0 ≤ d ∧ d < r.packetCount) ∧ timeLabel r.time = label)
      (fun records q j h => exact_labelAt h j label) hexact 0 i
  · intro i fact
    rw [exact_factAt hwhole, ← hflat]
    exact said_laidOut (S := fun q j => FactAt q j fact) (Q := fun d r => d = 0 ∧ States r fact)
      (fun records q j h => exact_factAt h j fact) hexact 0 i

theorem split_timelines_agree_gap : ∃ p f d parts last,
    freezeV2PublicProjection id (fun _ => "") splitClock none splitGroups.flatten =
      .ok (p, f, d) ∧
    publishGroups id (fun _ => "") splitClock none splitGroups = .ok (parts, last) ∧
    last.mapM v2FrontierFromPayload = .ok (some f) ∧
    p.packetCount = (parts.map (·.1.packetCount)).sum ∧
    (∀ i label, LabelAt p i label ↔
      ∃ y ∈ laidOut 0 (parts.map Prod.fst), LabelAt y.2 (i - y.1) label) ∧
    ∀ i fact, FactAt p i fact ↔
      ∃ y ∈ laidOut 0 (parts.map Prod.fst), FactAt y.2 (i - y.1) fact :=
  split_timelines_agree splitClock_valid rfl (by simp [splitGroups]) splitGroups_readable
    (fun g hg => (splitGroups_packets.2 g hg).1) (by rw [splitGroups_packets.1]; decide)

end StreamSplits
