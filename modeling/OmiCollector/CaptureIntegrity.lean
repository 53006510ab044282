import OmiCollector.CaptureCommits
import OmiCollector.TransitionRuns

/-! Integrity of the capture log over whole runs of the writer.

Every call keeps the invariant and only ever extends the log: accepted rows stay, the
frontier does not move back, and a partial tail is lengthened or completed. -/
namespace CaptureIntegrity

open ByteCodec AudioMachine CaptureModel RefusalLogic CaptureStore CaptureRows CaptureInvariant
  CaptureCommits TransitionRuns

variable {D : Type}

/-- The later log extends the earlier one. -/
structure AppendOnly (st t : Store D) : Prop where
  rows : st.records <+: t.records
  source : ∀ s, st.source = some s → ∃ s', t.source = some s' ∧
    s.committedCount ≤ s'.committedCount ∧ s'.sequenceStart = s.sequenceStart ∧
      s'.sequenceLimit = s.sequenceLimit
  tail : ∀ p, st.tail = some p →
    (∃ q, t.tail = some q ∧ t.records.length = st.records.length ∧
      q.byteOffset = p.byteOffset ∧ p.data <+: q.data) ∨
    (∃ r, t.records[st.records.length]? = some r ∧ p.data <+: r.rawBytes)

theorem AppendOnly.refl (st : Store D) : AppendOnly st st :=
  ⟨List.prefix_refl _, fun s hs => ⟨s, hs, le_rfl, rfl, rfl⟩,
    fun p hp => .inl ⟨p, hp, rfl, rfl, List.prefix_refl _⟩⟩

theorem AppendOnly.trans {st t u : Store D} (h : AppendOnly st t) (h' : AppendOnly t u) :
    AppendOnly st u := by
  refine ⟨h.rows.trans h'.rows, ?_, ?_⟩
  · intro s hs
    obtain ⟨s', hs', hcount, hstart, hlimit⟩ := h.source s hs
    obtain ⟨s'', hs'', hcount', hstart', hlimit'⟩ := h'.source s' hs'
    exact ⟨s'', hs'', hcount.trans hcount', hstart'.trans hstart, hlimit'.trans hlimit⟩
  · intro p hp
    rcases h.tail p hp with ⟨q, hq, hlen, hoff, hpre⟩ | ⟨r, hr, hpre⟩
    · rcases h'.tail q hq with ⟨q', hq', hlen', hoff', hpre'⟩ | ⟨r, hr, hpre'⟩
      · exact .inl ⟨q', hq', hlen'.trans hlen, hoff'.trans hoff, hpre.trans hpre'⟩
      · exact .inr ⟨r, hlen ▸ hr, hpre.trans hpre'⟩
    · refine .inr ⟨r, ?_, hpre⟩
      obtain ⟨rest, hrest⟩ := h'.rows
      rw [← hrest, List.getElem?_append_left (List.getElem?_eq_some_iff.mp hr).1, hr]

/-- What every call does: it keeps the invariant and extends the log. -/
structure CallEffect (cfg : StoreConfig D) (st t : Store D) : Prop where
  integrity : Integrity cfg t
  extends_log : AppendOnly st t

theorem Recached.effect {cfg : StoreConfig D} {st t : Store D} (h : Recached cfg st t)
    (hi : Integrity cfg st) : CallEffect cfg st t := by
  refine ⟨h.integrity hi, ⟨h.records ▸ List.prefix_refl _, ?_, ?_⟩⟩
  · intro s hs
    exact ⟨s, h.source.trans hs, le_rfl, rfl, rfl⟩
  · intro p hp
    exact .inl ⟨p, h.tail.trans hp, by rw [h.records], rfl, List.prefix_refl _⟩

theorem unchanged_effect {cfg : StoreConfig D} {st : Store D} (hi : Integrity cfg st) :
    CallEffect cfg st st := ⟨hi, .refl st⟩

/-- What every other call does when it succeeds: the log, its tail and the retained evidence
stay, and the source row keeps its range and frontier and is not blocked by the call. -/
structure LegEffect (cfg : StoreConfig D) (st t : Store D) : Prop where
  integrity : Integrity cfg t
  records : t.records = st.records
  tail : t.tail = st.tail
  conflicts : t.conflicts = st.conflicts
  source : ∀ s, st.source = some s → ∃ s', t.source = some s' ∧
    s'.committedCount = s.committedCount ∧ s'.sequenceStart = s.sequenceStart ∧
      s'.sequenceLimit = s.sequenceLimit
  unblocked : ∀ s', t.source = some s' → s'.lifecycle = .blocked → st.source = some s'

theorem LegEffect.effect {cfg : StoreConfig D} {st t : Store D} (h : LegEffect cfg st t) :
    CallEffect cfg st t := by
  refine ⟨h.integrity, ⟨h.records ▸ List.prefix_refl _, ?_, ?_⟩⟩
  · intro s hs
    obtain ⟨s', hs', hcount, hstart, hlimit⟩ := h.source s hs
    exact ⟨s', hs', hcount.ge, hstart, hlimit⟩
  · intro p hp
    exact .inl ⟨p, h.tail.trans hp, by rw [h.records], rfl, List.prefix_refl _⟩

theorem LegEffect.unchanged {cfg : StoreConfig D} {st : Store D} (hi : Integrity cfg st) :
    LegEffect cfg st st :=
  ⟨hi, rfl, rfl, rfl, fun s hs => ⟨s, hs, rfl, rfl, rfl⟩, fun _ hs _ => hs⟩

/-- Rewriting the source row at the same frontier leaves the log alone. -/
theorem LegEffect.update {cfg : StoreConfig D} {st : Store D} {s s' : CaptureSource D}
    (hi : Integrity cfg st) (hs : st.source = some s)
    (hcount : s'.committedCount = s.committedCount) (hstart : s'.sequenceStart = s.sequenceStart)
    (hlimit : s'.sequenceLimit = s.sequenceLimit) (hopen : s'.lifecycle ≠ .blocked)
    (hinv : SourceInvariant cfg st s') : LegEffect cfg st { st with source := some s' } := by
  refine ⟨⟨hi.cache, by simp, ?_⟩, rfl, rfl, rfl, ?_, ?_⟩
  · rintro _ ⟨⟩
    exact hinv.congr rfl rfl rfl
  · intro x hx
    obtain rfl := Option.some.inj (hs.symm.trans hx)
    exact ⟨s', rfl, hcount, hstart, hlimit⟩
  · rintro _ ⟨⟩ hb
    exact absurd hb hopen

/-- The refusal side of these calls. -/
def CleanRefusal (st : Store D) (e : String) (t : Store D) : Prop :=
  e ∉ conflictTexts ∧ t = st

theorem blocked_effect {cfg : StoreConfig D} {st u : Store D} {s : CaptureSource D} {now : ℕ}
    {offset : ℤ} {rejected : Bytes} {reason : String} (hi : Integrity cfg st)
    (hs : st.source = some s) (hu : Recached cfg st u) :
    CallEffect cfg st (blockedStore cfg now u s offset rejected reason) := by
  have hsrc := hi.present s hs
  refine ⟨⟨hu.cache, by simp [blockedStore], ?_⟩, ⟨?_, ?_, ?_⟩⟩
  · rintro _ ⟨⟩
    refine (?_ : SourceInvariant cfg st _).relocate hu.records hu.tail (by simp [blockedSource])
    refine hsrc.update rfl rfl rfl rfl hsrc.legFloor hsrc.legFrontier hsrc.legLimit ?_ ?_ ?_
      hsrc.prepared <;> simp [blockedSource]
  · simp [blockedStore, hu.records]
  · intro x hx
    obtain rfl := Option.some.inj (hs.symm.trans hx)
    exact ⟨_, rfl, le_rfl, rfl, rfl⟩
  · intro p hp
    exact .inl ⟨p, hu.tail.trans hp, by simp [blockedStore, hu.records], rfl, List.prefix_refl _⟩

/-- A settled tail stands at the new frontier. -/
theorem mergedTail_atFrontier {cfg : StoreConfig D} {st : Store D} {s s' : CaptureSource D}
    {appended : List CaptureRecord} {incoming : Option CaptureTail}
    (hsrc : SourceInvariant cfg st s)
    (hcheck : TailAccepted s st.records appended st.tail incoming)
    (hcount : s'.committedCount = s.committedCount + appended.length)
    (hstart : s'.sequenceStart = s.sequenceStart) (hlimit : s'.sequenceLimit = s.sequenceLimit)
    {t : CaptureTail} (ht : mergedTail s.committedCount (s.committedCount + appended.length)
      st.tail incoming = some t) : TailAtFrontier s' t := by
  have hfresh : ∀ x, incoming = some x →
      ¬ x.completeHighWater < (s.committedCount + appended.length : ℕ) → TailAtFrontier s' x := by
    intro x hx hge
    obtain ⟨-, hceil, hbyte, hoff, hne, hlen, hrec⟩ := hcheck.argument x hx
    have hcomplete : x.completeHighWater = s'.committedCount := by rw [hcount]; omega
    have hleg := hsrc.legLimit
    refine ⟨hcomplete, hcomplete ▸ hoff, hne, hlen, hrec, ?_⟩
    rw [hrec, hoff, hcomplete, hcount] at hbyte
    rw [hstart, hlimit, hcount]
    simp only [audioRecordSize] at hbyte
    omega
  have hkept : ∀ p, st.tail = some p → appended = [] → TailAtFrontier s' p := by
    rintro p hp rfl
    exact (hsrc.tail p hp).congr (by simpa using hcount) hstart hlimit
  have hif : ∀ p, (if s.committedCount + appended.length = s.committedCount then st.tail
      else none) = some p → TailAtFrontier s' p := by
    intro p hp
    split at hp
    · exact hkept p hp (List.eq_nil_of_length_eq_zero (by omega))
    · simp at hp
  cases incoming with
  | none => exact hif t ht
  | some x =>
    by_cases hlt : x.completeHighWater < (s.committedCount + appended.length : ℕ)
    · rw [mergedTail_inside hlt] at ht
      exact hif t ht
    · simp only [mergedTail, if_neg hlt] at ht
      split at ht
      · exact Option.some.inj ht ▸ hfresh x rfl hlt
      · rename_i p hp
        split at ht
        · exact Option.some.inj ht ▸ hfresh x rfl hlt
        · exact Option.some.inj ht ▸ hif p hp

/-- A settled tail extends the stored one, or the stored one was completed. -/
theorem mergedTail_extends {s : CaptureSource D} {rows appended : List CaptureRecord}
    {incoming : Option CaptureTail} {p : CaptureTail} {previous : Option CaptureTail}
    (hcheck : TailAccepted s rows appended previous incoming) (hp : previous = some p)
    (hoff : p.byteOffset = s.committedCount * audioRecordSize) :
    (∃ q, mergedTail s.committedCount (s.committedCount + appended.length) previous incoming =
        some q ∧ appended = [] ∧ q.byteOffset = p.byteOffset ∧ p.data <+: q.data) ∨
      (∃ r, appended.head? = some r ∧ p.data <+: r.rawBytes) := by
  cases appended with
  | cons r rest => exact .inr ⟨r, rfl, hcheck.extended p r hp rfl⟩
  | nil =>
    left
    rw [List.length_nil, Nat.add_zero]
    cases hincoming : incoming with
    | none => exact ⟨p, by simp [mergedTail, hp], rfl, rfl, List.prefix_refl _⟩
    | some x =>
      by_cases hlt : x.completeHighWater < s.committedCount
      · refine ⟨p, ?_, rfl, rfl, List.prefix_refl _⟩
        rw [mergedTail_inside hlt, if_pos rfl, hp]
      · have harg := hcheck.argument x hincoming
        have hceil := harg.ceiling
        simp only [List.length_nil, Nat.add_zero] at hceil
        have hx : x.completeHighWater = s.committedCount := by omega
        rw [hp, mergedTail_longer hlt]
        split
        · refine ⟨x, rfl, rfl, by rw [harg.offset, hx, hoff], ?_⟩
          rcases hcheck.comparable p x hp hincoming rfl hx with h | h
          · exact h
          · have := h.length_le
            omega
        · exact ⟨p, rfl, rfl, rfl, List.prefix_refl _⟩

theorem extended_effect {cfg : StoreConfig D} {st t : Store D} {s : CaptureSource D}
    {expected : ℕ} {records : List Bytes} {incoming : Option CaptureTail}
    (hi : Integrity cfg st) (hs : st.source = some s) (hl : s.lifecycle = .receiving)
    (hrec : ∀ raw ∈ records, raw.length = audioRecordSize)
    (hrange : s.sequenceStart + (s.committedCount + (newRows s expected records).length) ≤
      s.sequenceLimit)
    (hext : Extended cfg st t s (newRows s expected records) incoming) : CallEffect cfg st t := by
  have hsrc := hi.present s hs
  have hwidth := hsrc.width
  have hfrontier := hsrc.legFrontier
  have hcount := hsrc.count
  have hvalid : ∀ r ∈ newRows s expected records, r.Valid := by
    refine parseRecords_valid ?_ (fun b hb => hrec b (List.mem_of_mem_drop hb))
    rw [length_newRows] at hrange
    rw [List.length_drop]
    omega
  set appended := newRows s expected records with happended
  refine ⟨⟨hext.cache, by simp [hext.source], ?_⟩, ⟨hext.records ▸ List.prefix_append _ _, ?_, ?_⟩⟩
  · intro s' hs'
    obtain rfl := Option.some.inj (hext.source.symm.trans hs')
    have hb := hsrc.receiving hl
    refine ⟨?_, ?_, ?_, rfl, hrange, hwidth, hsrc.legFloor, ?_, hsrc.legLimit, ?_, ?_, ?_, ?_,
      hsrc.prepared⟩
    · rw [hext.records, contiguous_append]
      refine ⟨hsrc.contiguous, ?_⟩
      rw [hcount, Nat.zero_add]
      exact parseRecords_contiguous _ _
    · rw [hext.records, List.length_append, hcount]
    · rw [hext.records]
      intro r hr
      rcases List.mem_append.mp hr with h | h
      · exact hsrc.valid r h
      · exact hvalid r h
    · simp only
      omega
    · exact fun _ => ⟨hb.preparedStart, hb.preparedCount, hb.readBeginStart, hb.readBeginCount,
        hb.positive⟩
    · intro x hx
      rw [hext.tail] at hx
      refine mergedTail_atFrontier hsrc hext.check ?_ ?_ ?_ hx <;> rfl
    · simp [hl]
    · intro _
      rw [hext.conflicts]
      exact hsrc.unblocked (by simp [hl])
  · intro x hx
    obtain rfl := Option.some.inj (hs.symm.trans hx)
    exact ⟨_, hext.source, Nat.le_add_right _ _, rfl, rfl⟩
  · intro p hp
    rcases mergedTail_extends hext.check hp (hsrc.tail p hp).offset with
      ⟨q, hq, hnil, hoff, hpre⟩ | ⟨r, hr, hpre⟩
    · exact .inl ⟨q, hext.tail.trans hq, by rw [hext.records, hnil, List.append_nil], hoff, hpre⟩
    · refine .inr ⟨r, ?_, hpre⟩
      rw [hext.records, List.getElem?_append_right le_rfl, Nat.sub_self, ← List.head?_eq_getElem?,
        hr]

/-- Every outcome of a commit call has the common effect. -/
theorem CommitOutcome.effect {cfg : StoreConfig D} {now : ℕ} {st t : Store D}
    {s : CaptureSource D} {expected : ℕ} {records : List Bytes} {incoming : Option CaptureTail}
    {result : Except String ℕ}
    (h : CommitOutcome cfg now st s expected records incoming result t)
    (hi : Integrity cfg st) (hs : st.source = some s) : CallEffect cfg st t := by
  cases h with
  | refused _ ht => exact Recached.effect ht hi
  | accepted hl _ hrec hrange _ hext => exact extended_effect hi hs hl hrec hrange hext
  | replayConflict _ _ _ _ hu => exact blocked_effect hi hs hu
  | tailConflict _ _ _ _ hu _ => exact blocked_effect hi hs hu

/-- No lifecycle refusal is mistaken for retained conflict evidence. -/
theorem transition_reason (phase : Option AudioPhase) (event : AudioEvent) :
    (transition phase event).reason ∉ conflictTexts := by
  cases event <;>
    simp only [transition, create, AudioMachine.prepareLeg, readBegin, data, barrier, done,
      terminalPrefix, interruption, conflict, sourceIntegrityHold, readyCustody, beginRetirement,
      retirementStep, AudioMachine.ack] <;>
    (repeat' split) <;> simp [conflictTexts, refuse]

theorem wp_phaseAfter {st : Store D} {phase : Option AudioPhase} {event : AudioEvent}
    {required : Option AudioAction} {Q : AudioPhase → Store D → Prop} {E : String → Store D → Prop}
    (hq : ∀ next, (transition phase event).nextPhase = some next →
      (transition phase event).action ∈ [AudioAction.persist, .commitBarrier, .idempotent] →
      Q next st)
    (he : ∀ e, e ∉ conflictTexts → E e st) : wp (phaseAfter phase event required) st Q E := by
  have hreason := transition_reason phase event
  simp only [phaseAfter, wp_bind, wp_refuseIf, wp_requireSome]
  exact ⟨fun _ => he _ hreason, fun _ => ⟨fun _ => he _ hreason, fun hact =>
    ⟨fun _ => he _ (by simp [conflictTexts]), fun next hn => hq next hn (not_not.mp hact)⟩⟩⟩

section Calls

variable {cfg : StoreConfig D} {st : Store D}

theorem createSource_effect (hi : Integrity cfg st) (kind : Option SourceType)
    (start limit : ℤ) :
    wp (createSource cfg kind start limit) st (fun _ t => LegEffect cfg st t)
      (CleanRefusal st) := by
  simp only [createSource, wp_bind, wp_requireSome]
  refine ⟨fun _ => ⟨by simp [conflictTexts], rfl⟩, fun _ _ =>
    wp_phaseAfter (fun next hn _ => ?_) (fun e he => ⟨he, rfl⟩)⟩
  obtain rfl : AudioPhase.prepared = next := by simpa [transition, create] using hn
  simp only [wp_uint64, wp_refuseIf, wp_get, wp_set, wp_pure]
  refine ⟨fun _ => ⟨fun _ => ⟨fun _ => ⟨by simp [conflictTexts], rfl⟩, fun hrange =>
    ⟨fun _ => ⟨by simp [conflictTexts], rfl⟩, fun hnone => ?_⟩⟩,
    fun _ => ⟨by simp [conflictTexts], rfl⟩⟩, fun _ => ⟨by simp [conflictTexts], rfl⟩⟩
  have habsent : st.source = none := by simpa using hnone
  obtain ⟨hrows, htail, hconf⟩ := hi.absent habsent
  push Not at hrange
  have hcap := hrange.2
  refine ⟨⟨hi.cache, by simp, ?_⟩, rfl, rfl, rfl, ?_, by simp⟩
  · rintro _ ⟨⟩
    refine ⟨?_, ?_, ?_, ?_, ?_, ?_, le_rfl, le_rfl, ?_, ?_, ?_, ?_, ?_, ?_⟩ <;>
      simp_all [contiguous_nil]
    omega
  · intro s hs
    simp [habsent] at hs

variable [DecidableEq D]

theorem prepareLeg_effect (hi : Integrity cfg st) (start count : ℤ) :
    wp (CaptureStore.prepareLeg start count) st (fun _ t => LegEffect cfg st t)
      (CleanRefusal st) := by
  simp only [CaptureStore.prepareLeg, wp_bind, wp_requireSource, wp_uint64, wp_uint32, wp_refuseIf]
  refine ⟨fun _ => ⟨by simp [conflictTexts], rfl⟩, fun s hs => ⟨fun _ => ⟨fun _ =>
    ⟨fun _ => ⟨by simp [conflictTexts], rfl⟩, fun hrange =>
    ⟨fun _ => ⟨by simp [conflictTexts], rfl⟩, fun hfront =>
    ⟨fun _ => ⟨by simp [conflictTexts], rfl⟩, fun _ => ?_⟩⟩⟩,
    fun _ => ⟨by simp [conflictTexts], rfl⟩⟩, fun _ => ⟨by simp [conflictTexts], rfl⟩⟩⟩
  have hsrc := hi.present s hs
  push Not at hrange hfront
  refine wp_phaseAfter (fun next hn ha => ?_) (fun e he => ⟨he, rfl⟩)
  obtain ⟨rfl, hopen⟩ := prepareLeg_phase _ _ _ hn ha
  rw [wp_ite]
  refine ⟨fun _ => .unchanged hi, fun _ => ?_⟩
  simp only [wp_bind, wp_refuseIf, wp_of_exec (exec_checkSourceSnapshot hs _), wp_modify, wp_pure]
  refine ⟨fun _ => ⟨by simp [conflictTexts], rfl⟩, fun _ =>
    .update hi hs rfl rfl rfl (by simp) ?_⟩
  refine hsrc.update rfl rfl rfl rfl hrange.2.1 hfront hrange.2.2 (by simp) (by simp)
    (fun _ => hsrc.unblocked hopen) ?_
  rintro n ⟨⟩
  exact Nat.pos_of_ne_zero hrange.1

theorem recordReadBegin_effect (hi : Integrity cfg st) (start count : ℤ) :
    wp (recordReadBegin start count) st (fun _ t => LegEffect cfg st t) (CleanRefusal st) := by
  simp only [recordReadBegin, wp_bind, wp_requireSource, wp_uint64, wp_uint32, wp_refuseIf]
  refine ⟨fun _ => ⟨by simp [conflictTexts], rfl⟩, fun s hs => ⟨fun _ => ⟨fun _ =>
    ⟨fun _ => ⟨by simp [conflictTexts], rfl⟩, fun hexact => ?_⟩,
    fun _ => ⟨by simp [conflictTexts], rfl⟩⟩, fun _ => ⟨by simp [conflictTexts], rfl⟩⟩⟩
  have hsrc := hi.present s hs
  refine wp_phaseAfter (fun next hn ha => ?_) (fun e he => ⟨he, rfl⟩)
  rw [wp_ite]
  refine ⟨fun _ => .unchanged hi, fun hdup => ?_⟩
  rw [Bool.not_eq_true] at hdup
  rw [hdup] at hn ha
  obtain ⟨rfl, hopen⟩ := readBegin_phase _ _ _ hn ha
  simp only [wp_bind, wp_of_exec (exec_checkSourceSnapshot hs _), wp_modify, wp_pure]
  refine .update hi hs rfl rfl rfl (by simp) ?_
  push Not at hexact
  obtain ⟨hprep, hleg⟩ := hexact
  simp only [ne_eq, Bool.not_eq_false, decide_eq_true_eq, Prod.mk.injEq] at hprep hleg
  obtain ⟨hstart, hcount⟩ := hprep
  refine hsrc.update rfl rfl rfl rfl hsrc.legFloor hsrc.legFrontier hsrc.legLimit ?_ (by simp)
    (fun _ => hsrc.unblocked hopen) hsrc.prepared
  intro _
  exact ⟨by rw [← hstart, hleg.1], by rw [← hcount, hleg.2], by rw [hleg.1], by rw [hleg.2],
    hsrc.prepared _ (by rw [← hcount, hleg.2])⟩

theorem interrupt_effect (hi : Integrity cfg st) :
    wp (interrupt : StoreM D _) st (fun _ t => LegEffect cfg st t) (CleanRefusal st) := by
  simp only [interrupt, wp_bind, wp_requireSource, wp_ite, wp_pure, wp_refuseIf, wp_requireSome]
  refine ⟨fun _ => ⟨by simp [conflictTexts], rfl⟩, fun s hs => ⟨fun _ => .unchanged hi, fun _ =>
    ⟨fun _ => ⟨by simp [conflictTexts], rfl⟩, fun ha =>
    ⟨fun _ => ⟨by simp [conflictTexts], rfl⟩, fun next hn => ?_⟩⟩⟩⟩
  have hsrc := hi.present s hs
  obtain ⟨rfl, hopen⟩ := interruption_phase _ _ hn (not_not.mp ha)
  simp only [wp_of_exec (exec_checkSourceSnapshot hs _), wp_modify]
  exact .update hi hs rfl rfl rfl (by simp) (hsrc.update rfl rfl rfl rfl hsrc.legFloor
    hsrc.legFrontier hsrc.legLimit (by simp) (by simp) (fun _ => hsrc.unblocked hopen)
    hsrc.prepared)

theorem wp_authenticateCaptureSource {s : CaptureSource D} (hi : SourceInvariant cfg st s)
    (hs : st.source = some s) {Q : CaptureSource D → Store D → Prop}
    {E : String → Store D → Prop} (hq : Q s st) :
    wp (authenticateCaptureSource cfg) st Q E := by
  have hscan := hashPages_ok cfg.chunkLimit_pos hi.contiguous (authenticatedRecordCheck_ok hi)
    (st.records.length + 1) 0 [] (by omega) (by omega)
  simp only [authenticateCaptureSource, wp_bind, wp_requireSource, hs, reduceCtorEq, false_implies,
    true_and, Option.some.injEq, forall_eq', wp_get, hscan, wp_fromExcept_ok, wp_refuseIf,
    wp_pure]
  exact ⟨fun h => absurd hi.count h, fun _ => ⟨fun h => absurd hi.digest.symm h, fun _ => hq⟩⟩

theorem sealSource_effect (hi : Integrity cfg st) (generation count : ℤ)
    (digest : DigestText D) :
    wp (sealSource cfg generation count digest) st (fun _ t => LegEffect cfg st t)
      (CleanRefusal st) := by
  cases digest with
  | malformed =>
    simp only [sealSource, wp_bind, wp_requireSource, wp_uint32, sha256Text, wp_throw]
    exact ⟨fun _ => ⟨by simp [conflictTexts], rfl⟩, fun _ _ =>
      ⟨fun _ => ⟨by simp [conflictTexts], rfl⟩, fun _ => ⟨by simp [conflictTexts], rfl⟩⟩⟩
  | text d =>
    simp only [sealSource, wp_bind, wp_requireSource, wp_uint32, sha256Text, wp_pure, wp_refuseIf]
    refine ⟨fun _ => ⟨by simp [conflictTexts], rfl⟩, fun s hs => ⟨fun _ =>
      ⟨fun _ => ⟨by simp [conflictTexts], rfl⟩, fun _ =>
      ⟨fun _ => ⟨by simp [conflictTexts], rfl⟩, fun hmatch => ?_⟩⟩,
      fun _ => ⟨by simp [conflictTexts], rfl⟩⟩⟩
    have hsrc := hi.present s hs
    push Not at hmatch
    obtain ⟨hcount, -, hcomplete⟩ := hmatch
    refine wp_phaseAfter (fun next hn ha => ?_) (fun e he => ⟨he, rfl⟩)
    obtain ⟨rfl, hopen⟩ := done_phase _ _ hn ha
    simp only [wp_get]
    refine ⟨fun _ => ⟨by simp [conflictTexts], rfl⟩, fun _ =>
      wp_authenticateCaptureSource hsrc hs ?_⟩
    simp only [wp_of_exec (exec_checkSourceSnapshot hs _), wp_modify]
    refine ⟨fun _ => ⟨by simp [conflictTexts], rfl⟩, fun _ =>
      .update hi hs rfl rfl rfl (by simp) ?_⟩
    refine hsrc.update rfl rfl rfl rfl hsrc.legFloor hsrc.legFrontier hsrc.legLimit (by simp) ?_
      (fun _ => hsrc.unblocked hopen) hsrc.prepared
    intro _
    rw [← hcount]
    exact hcomplete

/-- The calls that bind legs, interrupt or seal: all but the two commits and a cold cache. -/
def Call.IsLeg : Call D → Prop
  | .commitDrain .. | .commitTail .. | .reopen => False
  | _ => True

/-- A leg call succeeds with its effect on the row alone, or is refused without one. -/
theorem leg_effect (hi : Integrity cfg st) {call : Call D} (h : Call.IsLeg call) :
    wp (perform cfg call) st (fun _ t => LegEffect cfg st t) (CleanRefusal st) := by
  cases call with
  | createSource kind start limit =>
    simpa only [perform, wp_bind, wp_pure] using createSource_effect hi kind start limit
  | prepareLeg start count =>
    simpa only [perform, wp_bind, wp_pure] using prepareLeg_effect hi start count
  | recordReadBegin start count =>
    simpa only [perform, wp_bind, wp_pure] using recordReadBegin_effect hi start count
  | interrupt => simpa only [perform, wp_bind, wp_pure] using interrupt_effect hi
  | sealSource generation count digest =>
    simpa only [perform, wp_bind, wp_pure] using sealSource_effect hi generation count digest
  | commitDrain | commitTail | reopen => exact h.elim

theorem reopen_recached (cfg : StoreConfig D) (st : Store D) :
    Recached cfg st (step cfg st .reopen) := by
  refine ⟨rfl, rfl, rfl, rfl, ?_⟩
  intro count digest state h
  have hnone : (step cfg st .reopen).digestCache = none := rfl
  simp [hnone] at h

/-- One call, accepted or refused, keeps the invariant and extends the log. -/
theorem step_effect (hi : Integrity cfg st) (call : Call D) :
    CallEffect cfg st (step cfg st call) := by
  have hsame := unchanged_effect hi
  have hcommit : ∀ {x : StoreM D ℕ} {now expected records incoming},
      (st.source = none → wp x st (fun _ _ => False) (CleanRefusal st)) →
      (∀ s, st.source = some s → wp x st
        (fun n t => CommitOutcome cfg now st s expected records incoming (.ok n) t)
        (fun e t => CommitOutcome cfg now st s expected records incoming (.error e) t)) →
      CallEffect cfg st (exec x st).2 := by
    intro x now expected records incoming habsent hpresent
    cases hs : st.source with
    | none =>
      refine wp_state (habsent hs) (fun _ _ h => h.elim) ?_
      rintro e _ ⟨-, rfl⟩
      exact hsame
    | some s =>
      exact wp_state (hpresent s hs) (fun _ _ h => CommitOutcome.effect h hi hs)
        (fun _ _ h => CommitOutcome.effect h hi hs)
  have hleg : Call.IsLeg call → CallEffect cfg st (step cfg st call) := by
    intro h
    refine wp_state (leg_effect hi h) (fun _ _ h => h.effect) ?_
    rintro e _ ⟨-, rfl⟩
    exact hsame
  cases call with
  | commitDrain now expected records checkpoint =>
    exact hcommit (fun hs => commitDrain_absent hs expected records checkpoint)
      (fun s hs => commitDrain_outcome hs hi expected records checkpoint)
  | commitTail now expected checkpoint =>
    exact hcommit (fun hs => commitTail_absent hs expected checkpoint)
      (fun s hs => commitTail_outcome hs hi expected checkpoint)
  | reopen => exact Recached.effect (reopen_recached cfg st) hi
  | createSource | prepareLeg | recordReadBegin | interrupt | sealSource => exact hleg trivial

end Calls

/-- What the stored rows of one source promise in every state. -/
structure LogIntegrity (cfg : StoreConfig D) (st : Store D) (s : CaptureSource D) : Prop where
  ordinals : st.records.map (·.ordinal) = List.range s.committedCount
  records : ∀ r ∈ st.records, r.rawBytes.length = audioRecordSize
  digest : s.committedSha256 = cfg.sha256 (rawLog st.records)
  range : s.sequenceStart + s.committedCount ≤ s.sequenceLimit
  tail : ∀ t, st.tail = some t → t.byteOffset = s.committedCount * audioRecordSize ∧
    1 ≤ t.data.length ∧ t.data.length ≤ tailMaxBytes ∧
      t.receivedHighWater = t.byteOffset + t.data.length
  sealed : s.lifecycle = .sealedWaiting →
    s.committedCount = s.sequenceLimit - s.sequenceStart ∧ st.tail = none

theorem SourceInvariant.logIntegrity {cfg : StoreConfig D} {st : Store D} {s : CaptureSource D}
    (h : SourceInvariant cfg st s) : LogIntegrity cfg st s := by
  refine ⟨?_, fun r hr => (h.valid r hr).length_rawBytes, h.digest, h.range, ?_, ?_⟩
  · have hcont := h.contiguous
    unfold Contiguous at hcont
    rw [hcont, h.count, List.range_eq_range']
  · intro t ht
    have hfront := h.tail t ht
    exact ⟨hfront.offset, hfront.nonempty, hfront.bounded, hfront.received⟩
  · intro hl
    have hcomplete := h.sealed hl
    refine ⟨by omega, ?_⟩
    -- A tail would leave the range unfinished.
    cases ht : st.tail with
    | none => rfl
    | some t =>
      have := (h.tail t ht).unfinished
      omega

variable [DecidableEq D]

theorem run_integrity (cfg : StoreConfig D) (calls : List (Call D)) :
    Integrity cfg (run (step cfg) initial calls) :=
  run_invariant (P := Integrity cfg) (Q := fun _ => True)
    (fun _ call _ h => (step_effect h call).integrity) (initial_integrity cfg)
    (fun _ _ => trivial)

theorem run_appendOnly {cfg : StoreConfig D} {st : Store D} (hi : Integrity cfg st)
    (calls : List (Call D)) : AppendOnly st (run (step cfg) st calls) :=
  run_relation (P := Integrity cfg) (Q := fun _ => True)
    (fun _ call _ h => (step_effect h call).integrity) AppendOnly.refl
    (fun h h' => h.trans h') (fun _ call _ h => (step_effect h call).extends_log) hi
    (fun _ _ => trivial)

/-- After any calls the stored log is integral, and any further calls only extend it. -/
theorem capture_log_integrity (cfg : StoreConfig D) (calls later : List (Call D)) :
    (∀ s, (run (step cfg) initial calls).source = some s →
      LogIntegrity cfg (run (step cfg) initial calls) s) ∧
    ((run (step cfg) initial calls).source = none →
      (run (step cfg) initial calls).records = [] ∧ (run (step cfg) initial calls).tail = none) ∧
    AppendOnly (run (step cfg) initial calls) (run (step cfg) initial (calls ++ later)) := by
  have hi := run_integrity cfg calls
  refine ⟨fun s hs => SourceInvariant.logIntegrity (hi.present s hs), fun hs => ?_, ?_⟩
  · obtain ⟨hrows, htail, -⟩ := hi.absent hs
    exact ⟨hrows, htail⟩
  · rw [run_append]
    exact run_appendOnly hi later

end CaptureIntegrity
