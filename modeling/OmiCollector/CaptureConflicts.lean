import OmiCollector.CaptureReplay

/-! Conflict evidence: which bytes a refused commit leaves in `capture_conflict`.

The accepted bytes of a source are its row log followed by its tail. A commit call carries a
run of records and perhaps a tail, each at an absolute position; it contradicts the source
when one position holds two different bytes. -/
namespace CaptureConflicts

open ByteCodec AudioMachine CaptureModel RefusalLogic CaptureStore CaptureRows CaptureInvariant
  CaptureCommits CaptureIntegrity TransitionRuns

variable {D : Type}

/-- Everything accepted so far, in stream order. -/
def acceptedBytes (st : Store D) : Bytes :=
  rawLog st.records ++ (st.tail.map (·.data)).getD []

/-- The expected ordinal, the records and the tail that a commit call carries. -/
def carried : Call D → Option (ℕ × List Bytes × Option CaptureTail)
  | .commitDrain _ expected records checkpoint => some (expected.toNat, records, checkpoint.tail)
  | .commitTail _ expected checkpoint => some (expected.toNat, [], checkpoint.tail)
  | _ => none

/-- A unit of incoming bytes: the whole chunk, one of its records, or the tail. -/
def Incoming (expected : ℕ) (records : List Bytes) (tail : Option CaptureTail) (offset : ℤ)
    (bytes : Bytes) : Prop :=
  (offset = expected * audioRecordSize ∧ bytes = records.flatten) ∨
    (∃ i, records[i]? = some bytes ∧ offset = (expected + i : ℕ) * audioRecordSize) ∨
    ∃ t, tail = some t ∧ offset = t.byteOffset ∧ bytes = t.data

/-- The call was refused as a conflict, and some incoming unit contradicts accepted bytes. -/
def RefusedForContradiction [DecidableEq D] (cfg : StoreConfig D) (st : Store D) (call : Call D) :
    Prop :=
  (∃ e ∈ conflictTexts, outcome cfg st call = .error e) ∧
    ∃ expected records tail offset bytes, carried call = some (expected, records, tail) ∧
      Incoming expected records tail offset bytes ∧ Contradicts (acceptedBytes st) offset bytes

/-- The source is quarantined over an unchanged log, and one new conflict row holds exactly an
incoming unit that contradicts the accepted bytes, at its absolute offset. -/
def EvidenceRetained (st t : Store D) (call : Call D) : Prop :=
  ∃ s s' row expected records tail, st.source = some s ∧ t.source = some s' ∧
    s'.sourceType = .quarantine ∧ s'.lifecycle = .blocked ∧
    s'.committedCount = s.committedCount ∧ s'.committedSha256 = s.committedSha256 ∧
    t.records = st.records ∧ t.tail = st.tail ∧ t.conflicts = st.conflicts ++ [row] ∧
    carried call = some (expected, records, tail) ∧
    Incoming expected records tail row.absoluteByteOffset row.bytes ∧
    Contradicts (acceptedBytes st) row.absoluteByteOffset row.bytes

/-- The carried records themselves contradict the accepted bytes. -/
def RecordsContradict (st : Store D) (call : Call D) : Prop :=
  ∃ expected records tail, carried call = some (expected, records, tail) ∧
    Contradicts (acceptedBytes st) (expected * audioRecordSize) records.flatten

/-- The carried tail stands at the frontier that the call would leave. -/
def TailAtNewFrontier (st : Store D) (call : Call D) : Prop :=
  ∃ expected records t, carried call = some (expected, records, some t) ∧
    t.completeHighWater = (max st.records.length (expected + records.length) : ℕ)

section Bytes

variable {cfg : StoreConfig D} {st : Store D} {s : CaptureSource D}

theorem acceptedBytes_row (hi : SourceInvariant cfg st s) {i : ℕ} {r : CaptureRecord}
    (hr : st.records[i]? = some r) {k : ℕ} (hk : k < audioRecordSize) :
    (acceptedBytes st)[i * audioRecordSize + k]? = r.rawBytes[k]? := by
  have hsize : ∀ b ∈ st.records.map CaptureRecord.rawBytes, b.length = audioRecordSize := by
    intro b hb
    obtain ⟨x, hx, rfl⟩ := List.mem_map.mp hb
    exact (hi.valid x hx).length_rawBytes
  have hlt := (List.getElem?_eq_some_iff.mp hr).1
  have hlen := length_rawLog hi.valid
  have hin : i * audioRecordSize + k < (rawLog st.records).length := by
    rw [hlen]
    simp only [audioRecordSize] at hk ⊢
    omega
  rw [acceptedBytes, List.getElem?_append_left hin, rawLog_eq_flatten,
    getElem?_flatten_block hsize i hk, List.getElem?_map, hr]
  rfl

theorem acceptedBytes_tail (hi : SourceInvariant cfg st s) {t : CaptureTail}
    (ht : st.tail = some t) (k : ℕ) :
    (acceptedBytes st)[s.committedCount * audioRecordSize + k]? = t.data[k]? := by
  have hlen := length_rawLog hi.valid
  rw [hi.count] at hlen
  rw [acceptedBytes, ht, List.getElem?_append_right (by omega), hlen, Nat.add_sub_cancel_left]
  rfl

/-- Every accepted position is inside an accepted row or inside the tail. -/
theorem acceptedBytes_cases (hi : SourceInvariant cfg st s) {i k : ℕ} (hk : k < audioRecordSize)
    {a : UInt8} (ha : (acceptedBytes st)[i * audioRecordSize + k]? = some a) :
    (∃ r, st.records[i]? = some r ∧ r.rawBytes[k]? = some a) ∨
      (i = s.committedCount ∧ ∃ t, st.tail = some t ∧ t.data[k]? = some a) := by
  by_cases hi' : i < st.records.length
  · left
    have hr := List.getElem?_eq_getElem hi'
    exact ⟨_, hr, (acceptedBytes_row hi hr hk).symm.trans ha⟩
  · right
    have hlen := length_rawLog hi.valid
    have hcount := hi.count
    have hpos := (List.getElem?_eq_some_iff.mp ha).1
    cases ht : st.tail with
    | none =>
      rw [acceptedBytes, ht] at hpos
      simp only [Option.map_none, Option.getD_none, List.append_nil, hlen, audioRecordSize] at hpos
      omega
    | some t =>
      have hbound := (hi.tail t ht).bounded
      have hfront : i = s.committedCount := by
        rw [acceptedBytes, ht] at hpos
        simp only [Option.map_some, Option.getD_some, List.length_append, hlen,
          audioRecordSize, tailMaxBytes] at hpos hbound
        omega
      refine ⟨hfront, t, rfl, ?_⟩
      rw [hfront, acceptedBytes_tail hi ht] at ha
      exact ha

variable {expected : ℕ} {records : List Bytes}

/-- A replayed record that differs from its row contradicts the accepted bytes. -/
theorem replay_contradicts (hi : SourceInvariant cfg st s)
    (hrec : ∀ raw ∈ records, raw.length = audioRecordSize)
    (h : ¬ Replays st.records expected records) :
    Contradicts (acceptedBytes st) (expected * audioRecordSize) records.flatten := by
  unfold Replays at h
  push Not at h
  obtain ⟨i, r, raw, hr, hraw, hne⟩ := h
  have hsize := hrec raw (List.mem_of_getElem? hraw)
  have hrow := (hi.valid r (List.mem_of_getElem? hr)).length_rawBytes
  have hdiff : ¬ r.rawBytes <+: raw := fun hp => hne (hp.eq_of_length (by omega))
  obtain ⟨k, a, b, ha, hb, hab⟩ := exists_getElem?_ne (by omega) hdiff
  have hk : k < audioRecordSize := by
    have := (List.getElem?_eq_some_iff.mp ha).1
    omega
  refine ⟨(expected + i) * audioRecordSize + k, i * audioRecordSize + k, a, b, ?_, ?_, ?_, hab⟩
  · push_cast
    ring
  · rw [acceptedBytes_row hi hr hk, ha]
  · rw [getElem?_flatten_block hrec i hk, hraw]
    exact hb

/-- The first new row is the record that the call states at the frontier. -/
theorem newRows_head
    (hrec : ∀ raw ∈ records, raw.length = audioRecordSize) {k : ℕ} {r : CaptureRecord}
    (hr : (newRows s expected records)[k]? = some r) :
    records[s.committedCount - expected + k]? = some r.rawBytes := by
  have hmap := congrArg (Option.map CaptureRecord.rawBytes) hr
  rw [← List.getElem?_map, newRows, parseRecords_rawBytes _
    (fun b hb => hrec b (List.mem_of_mem_drop hb)), List.getElem?_drop] at hmap
  exact hmap

/-- A completed record that does not start with the tail contradicts it. -/
theorem completed_contradicts (hi : SourceInvariant cfg st s) (hexp : expected ≤ s.committedCount)
    (hrec : ∀ raw ∈ records, raw.length = audioRecordSize) {p : CaptureTail} {r : CaptureRecord}
    (hp : st.tail = some p) (hr : (newRows s expected records).head? = some r)
    (hne : ¬ p.data <+: r.rawBytes) :
    Contradicts (acceptedBytes st) p.byteOffset r.rawBytes ∧
      Contradicts (acceptedBytes st) (expected * audioRecordSize) records.flatten := by
  rw [List.head?_eq_getElem?] at hr
  have hraw := newRows_head hrec hr
  rw [Nat.add_zero] at hraw
  have hfront := hi.tail p hp
  have hbound := hfront.bounded
  have hsize := hrec _ (List.mem_of_getElem? hraw)
  simp only [tailMaxBytes, audioRecordSize] at hbound hsize
  obtain ⟨k, a, b, ha, hb, hab⟩ := exists_getElem?_ne (by omega) hne
  have hk : k < audioRecordSize := by
    have := (List.getElem?_eq_some_iff.mp hb).1
    simp only [audioRecordSize]
    omega
  have hknown := (acceptedBytes_tail hi hp k).trans ha
  refine ⟨⟨s.committedCount * audioRecordSize + k, k, a, b, ?_, hknown, hb, hab⟩,
    ⟨s.committedCount * audioRecordSize + k,
      (s.committedCount - expected) * audioRecordSize + k, a, b, ?_, hknown, ?_, hab⟩⟩
  · rw [hfront.offset]
    push_cast
    ring
  · push_cast [hexp]
    ring
  · rw [getElem?_flatten_block hrec _ hk, hraw]
    exact hb

theorem diverged_contradicts (hi : SourceInvariant cfg st s) {p t : CaptureTail}
    (hp : st.tail = some p) (hoff : t.byteOffset = s.committedCount * audioRecordSize)
    (hne : ¬ Comparable p.data t.data) : Contradicts (acceptedBytes st) t.byteOffset t.data := by
  have hdiff : ∃ (k : ℕ) (a b : UInt8), p.data[k]? = some a ∧ t.data[k]? = some b ∧ a ≠ b := by
    unfold Comparable at hne
    push Not at hne
    rcases le_total p.data.length t.data.length with hle | hle
    · exact exists_getElem?_ne hle hne.1
    · obtain ⟨k, a, b, ha, hb, hab⟩ := exists_getElem?_ne hle hne.2
      exact ⟨k, b, a, hb, ha, hab.symm⟩
  obtain ⟨k, a, b, ha, hb, hab⟩ := hdiff
  refine ⟨s.committedCount * audioRecordSize + k, k, a, b, ?_, ?_, hb, hab⟩
  · rw [hoff]
    push_cast
    ring
  · rw [acceptedBytes_tail hi hp, ha]

/-- A row already accepted, or one that completes the tail, contradicts nothing. -/
theorem row_agrees (hi : SourceInvariant cfg st s) {appended : List CaptureRecord}
    (hagree : ∀ p x, st.tail = some p → appended.head? = some x → p.data <+: x.rawBytes)
    {i : ℕ} {r : CaptureRecord} (hr : (st.records ++ appended)[i]? = some r)
    {k : ℕ} (hk : k < audioRecordSize) {a b : UInt8}
    (ha : (acceptedBytes st)[i * audioRecordSize + k]? = some a) (hb : r.rawBytes[k]? = some b) :
    a = b := by
  have hcount := hi.count
  rcases acceptedBytes_cases hi hk ha with ⟨x, hx, hxa⟩ | ⟨rfl, p, hp, hpa⟩
  · rw [List.getElem?_append_left (List.getElem?_eq_some_iff.mp hx).1, hx] at hr
    obtain rfl := Option.some.inj hr
    exact Option.some.inj (hxa.symm.trans hb)
  · rw [List.getElem?_append_right (by omega), hcount, Nat.sub_self, ← List.head?_eq_getElem?] at hr
    obtain ⟨rest, hrest⟩ := hagree p r hp hr
    rw [← hrest, List.getElem?_append_left (List.getElem?_eq_some_iff.mp hpa).1, hpa] at hb
    exact Option.some.inj hb

theorem records_agree (hi : SourceInvariant cfg st s) (hexp : expected ≤ s.committedCount)
    (hrec : ∀ raw ∈ records, raw.length = audioRecordSize)
    (hreplay : Replays st.records expected records)
    (hagree : ∀ p x, st.tail = some p → (newRows s expected records).head? = some x →
      p.data <+: x.rawBytes) :
    ¬ Contradicts (acceptedBytes st) (expected * audioRecordSize) records.flatten := by
  rintro ⟨p, j, a, b, hp, ha, hb, hab⟩
  have hcount := hi.count
  have hpos : 0 < audioRecordSize := by simp [audioRecordSize]
  have hk := Nat.mod_lt j hpos
  have hj : j = j / audioRecordSize * audioRecordSize + j % audioRecordSize :=
    (Nat.div_add_mod' j audioRecordSize).symm
  set i := j / audioRecordSize
  set k := j % audioRecordSize
  rw [hj, getElem?_flatten_block hrec i hk] at hb
  obtain ⟨raw, hraw, hrawk⟩ := Option.bind_eq_some_iff.mp hb
  have hindex : p = (expected + i) * audioRecordSize + k := by
    have hp' : p = expected * audioRecordSize + j := by exact_mod_cast hp
    rw [hp', hj]
    ring
  rw [hindex] at ha
  have hsize := hrec raw (List.mem_of_getElem? hraw)
  apply hab
  rcases acceptedBytes_cases hi hk ha with ⟨x, hx, hxa⟩ | ⟨hfront, t, ht, hta⟩
  · rw [hreplay i x raw hx hraw] at hxa
    exact Option.some.inj (hxa.symm.trans hrawk)
  · -- The record at the frontier is the first new row, which starts with the tail.
    have hi' : i = s.committedCount - expected := by omega
    have hhead : (newRows s expected records).head? = some (parseRecord s.committedCount raw) := by
      rw [newRows, List.head?_eq_getElem?, parseRecords, List.getElem?_mapIdx, List.getElem?_drop,
        ← hi', Nat.add_zero, Nat.add_zero, hraw]
      rfl
    have hpre := hagree t _ ht hhead
    rw [parseRecord_rawBytes _ hsize] at hpre
    obtain ⟨rest, hrest⟩ := hpre
    rw [← hrest, List.getElem?_append_left (List.getElem?_eq_some_iff.mp hta).1, hta] at hrawk
    exact Option.some.inj hrawk

/-- The evidence of one conflict is an incoming contradiction unless the rejected bytes were
taken from the record that an incoming tail was compared with. -/
theorem tailConflict_cases (hi : SourceInvariant cfg st s) (hexp : expected ≤ s.committedCount)
    (hrec : ∀ raw ∈ records, raw.length = audioRecordSize)
    (hreplay : Replays st.records expected records) {incoming : Option CaptureTail} {offset : ℤ}
    {rejected : Bytes} {e : String}
    (hc : TailConflict s st.records (newRows s expected records) st.tail incoming offset
      rejected e) :
    (Incoming expected records incoming offset rejected ∧
        Contradicts (acceptedBytes st) offset rejected ∧
        (Contradicts (acceptedBytes st) (expected * audioRecordSize) records.flatten ∨
          ∃ t, incoming = some t ∧ t.completeHighWater =
            (max st.records.length (expected + records.length) : ℕ))) ∨
      (¬ Contradicts (acceptedBytes st) offset rejected ∧
        ¬ Contradicts (acceptedBytes st) (expected * audioRecordSize) records.flatten ∧
        ∀ t, incoming = some t → t.completeHighWater ≠
          (max st.records.length (expected + records.length) : ℕ)) := by
  have hcount := hi.count
  have hnew := length_newRows s expected records
  have hmax : max st.records.length (expected + records.length) =
      s.committedCount + (newRows s expected records).length := by omega
  cases hc with
  | completed p r hp hr hne =>
    left
    obtain ⟨hcontra, hrecords⟩ := completed_contradicts hi hexp hrec hp hr hne
    refine ⟨.inr (.inl ⟨s.committedCount - expected, ?_, ?_⟩), hcontra, .inl hrecords⟩
    · rw [List.head?_eq_getElem?] at hr
      exact newRows_head hrec hr
    · rw [(hi.tail p hp).offset, Nat.add_sub_cancel' hexp]
  | diverged p t hp ht hempty ha hcomplete hne =>
    left
    have hoff : t.byteOffset = s.committedCount * audioRecordSize := by rw [ha.offset, hcomplete]
    refine ⟨.inr (.inr ⟨t, ht, rfl, rfl⟩), diverged_contradicts hi hp hoff hne,
      .inr ⟨t, ht, ?_⟩⟩
    rw [hmax, hempty, hcomplete]
    simp
  | replayed t r ht ha hagree hlt hr hne =>
    right
    have hfloor := ha.floor
    have hleg := hi.legFloor
    obtain ⟨i, hi'⟩ := Int.eq_ofNat_of_zero_le (by omega : 0 ≤ t.completeHighWater)
    refine ⟨?_, records_agree hi hexp hrec hreplay hagree, ?_⟩
    · rintro ⟨p, k, a, b, hp, hka, hkb, hab⟩
      rw [hi', Int.toNat_natCast] at hr
      rw [ha.offset, hi'] at hp
      have hp' : p = i * audioRecordSize + k := by exact_mod_cast hp
      have hsize : r.rawBytes.length = audioRecordSize := by
        rcases List.mem_append.mp (List.mem_of_getElem? hr) with hmem | hmem
        · exact (hi.valid r hmem).length_rawBytes
        · obtain ⟨j, hj⟩ := List.getElem?_of_mem hmem
          exact hrec _ (List.mem_of_getElem? (newRows_head hrec hj))
      have hk : k < audioRecordSize := by
        have := (List.getElem?_eq_some_iff.mp hkb).1
        omega
      rw [hp'] at hka
      exact hab (row_agrees hi hagree hr hk hka hkb)
    · intro x hx
      obtain rfl := Option.some.inj (ht.symm.trans hx)
      rw [hmax]
      omega

end Bytes

section Evidence

variable {cfg : StoreConfig D} {st : Store D}

theorem evidenceRetained_blocked {now : ℕ} {u : Store D} {s : CaptureSource D} {offset : ℤ}
    {rejected : Bytes} {reason : String} {call : Call D} {expected : ℕ} {records : List Bytes}
    {tail : Option CaptureTail} (hs : st.source = some s) (hu : Recached cfg st u)
    (hcall : carried call = some (expected, records, tail)) :
    EvidenceRetained st (blockedStore cfg now u s offset rejected reason) call ↔
      Incoming expected records tail offset rejected ∧
        Contradicts (acceptedBytes st) offset rejected := by
  constructor
  · rintro ⟨_, _, row, e, rs, x, -, -, -, -, -, -, -, -, hrow, hcarried, hin, hcontra⟩
    obtain ⟨rfl, rfl, rfl⟩ : expected = e ∧ records = rs ∧ tail = x := by
      simpa [hcall] using hcarried
    simp only [blockedStore, hu.conflicts, List.append_cancel_left_eq, List.cons.injEq,
      and_true] at hrow
    rw [← hrow] at hin hcontra
    exact ⟨hin, hcontra⟩
  · rintro ⟨hin, hcontra⟩
    exact ⟨s, _, _, expected, records, tail, hs, rfl, rfl, rfl, rfl, rfl, hu.records, hu.tail,
      by simp [blockedStore, hu.conflicts]; rfl, hcall, hin, hcontra⟩

variable [DecidableEq D]

/-- A carrying call over an integral source ends in one of the commit outcomes. -/
theorem carried_outcome (hi : Integrity cfg st) {s : CaptureSource D} (hs : st.source = some s)
    {call : Call D} {expected : ℕ} {records : List Bytes} {tail : Option CaptureTail}
    (hcall : carried call = some (expected, records, tail)) :
    ∃ now, CommitOutcome cfg now st s expected records tail (outcome cfg st call)
      (step cfg st call) := by
  cases call with
  | commitDrain now ordinal raw checkpoint =>
    obtain ⟨rfl, rfl, rfl⟩ : ordinal.toNat = expected ∧ raw = records ∧ checkpoint.tail = tail := by
      simpa [carried] using hcall
    exact ⟨now, wp_outcome.mp (commitDrain_outcome hs hi ordinal raw checkpoint)⟩
  | commitTail now ordinal checkpoint =>
    obtain ⟨rfl, rfl, rfl⟩ : ordinal.toNat = expected ∧ [] = records ∧ checkpoint.tail = tail := by
      simpa [carried] using hcall
    exact ⟨now, wp_outcome.mp (commitTail_outcome hs hi ordinal checkpoint)⟩
  | createSource | prepareLeg | recordReadBegin | interrupt | sealSource | reopen =>
    simp [carried] at hcall

/-- Refused contradictions retain the right bytes exactly when the records themselves
contradict, or the tail stands at the frontier after the call. -/
theorem evidence_iff (hi : Integrity cfg st) {s : CaptureSource D} (hs : st.source = some s)
    {call : Call D} (href : RefusedForContradiction cfg st call) :
    EvidenceRetained st (step cfg st call) call ↔
      RecordsContradict st call ∨ TailAtNewFrontier st call := by
  obtain ⟨⟨e, he, hout⟩, expected, records, tail, offset, bytes, hcall, hin, hcontra⟩ := href
  have hrecords : RecordsContradict st call ↔
      Contradicts (acceptedBytes st) (expected * audioRecordSize) records.flatten := by
    simp [RecordsContradict, hcall]
  have hfront : TailAtNewFrontier st call ↔ ∃ t, tail = some t ∧ t.completeHighWater =
      (max st.records.length (expected + records.length) : ℕ) := by
    simp only [TailAtNewFrontier, hcall, Option.some.injEq, Prod.mk.injEq]
    constructor
    · rintro ⟨_, _, t, ⟨rfl, rfl, rfl⟩, ht⟩
      exact ⟨t, rfl, ht⟩
    · rintro ⟨t, rfl, ht⟩
      exact ⟨_, _, t, ⟨rfl, rfl, rfl⟩, ht⟩
  rw [hrecords, hfront]
  have hsrc := hi.present s hs
  obtain ⟨now, hcommit⟩ := carried_outcome hi hs hcall
  rw [hout] at hcommit
  generalize step cfg st call = t at hcommit
  cases hcommit with
  | refused hne => exact absurd he hne
  | replayConflict hl hexp hrec hne hu =>
    rw [evidenceRetained_blocked hs hu hcall]
    have hreplay := replay_contradicts hsrc hrec hne
    exact iff_of_true ⟨.inl ⟨rfl, rfl⟩, hreplay⟩ (.inl hreplay)
  | tailConflict hl hexp hrec hreplay hu hc =>
    rw [evidenceRetained_blocked hs hu hcall]
    rcases tailConflict_cases hsrc hexp hrec hreplay hc with ⟨hin, hbytes, hor⟩ | ⟨hno, hr, ht⟩
    · exact iff_of_true ⟨hin, hbytes⟩ hor
    · refine iff_of_false (fun h => hno h.2) ?_
      rintro (h | ⟨x, hx, hfrontier⟩)
      · exact hr h
      · exact ht x hx hfrontier

/-- In every reachable receiving state, a commit refused because it contradicts accepted bytes
retains exactly its own contradicting bytes if and only if its records contradict or its tail
stands at the frontier after the call. A tail inside the accepted prefix fails this: the stored
evidence is the accepted record. -/
theorem conflict_evidence_exact_iff (cfg : StoreConfig D) (calls : List (Call D)) (call : Call D)
    (s : CaptureSource D) (hs : (run (step cfg) initial calls).source = some s)
    (href : RefusedForContradiction cfg (run (step cfg) initial calls) call) :
    EvidenceRetained (run (step cfg) initial calls)
        (step cfg (run (step cfg) initial calls) call) call ↔
      RecordsContradict (run (step cfg) initial calls) call ∨
        TailAtNewFrontier (run (step cfg) initial calls) call :=
  evidence_iff (run_integrity cfg calls) hs href

end Evidence

open CaptureReplay

/-- One silent record accepted into a receiving source of two. -/
def receivingCalls : List (Call Bytes) :=
  [.createSource (some .attempt) 0 2, .prepareLeg 0 2, .recordReadBegin 0 2,
    .commitDrain 0 0 [silence.record 0] ⟨1, none, none⟩]

def receivingStore : Store Bytes := run (step transparentConfig) initial receivingCalls

/-- A replayed tail whose first byte differs from the accepted record. -/
def strayTail : Call Bytes := .commitTail 0 1 ⟨1, some ⟨1, 0, 1, 0, [1]⟩, none⟩

theorem strayTail_refused : RefusedForContradiction transparentConfig receivingStore strayTail := by
  refine ⟨⟨"completed record conflicts with accepted tail", by simp [conflictTexts], ?_⟩, ?_⟩
  · decide +kernel
  · refine ⟨1, [], some ⟨1, 0, 1, 0, [1]⟩, 0, [1], rfl, .inr (.inr ⟨_, rfl, rfl, rfl⟩), ?_⟩
    exact ⟨0, 0, 0, 1, rfl, by decide +kernel, rfl, by decide⟩

theorem receivingStore_source : ∃ s, receivingStore.source = some s ∧ s.lifecycle = .receiving := by
  have h : receivingStore.source.map (·.lifecycle) = some .receiving := by decide +kernel
  exact Option.map_eq_some_iff.mp h

/-- The refused tail leaves the accepted record as the rejected evidence. -/
theorem conflict_evidence_holds_accepted_row :
    (∃ s, receivingStore.source = some s ∧ s.lifecycle = .receiving) ∧
      RefusedForContradiction transparentConfig receivingStore strayTail ∧
      ((step transparentConfig receivingStore strayTail).conflicts.map (·.bytes)) =
        [silence.record 0] ∧
      ¬ EvidenceRetained receivingStore (step transparentConfig receivingStore strayTail)
        strayTail := by
  obtain ⟨s, hs, hl⟩ := receivingStore_source
  refine ⟨⟨s, hs, hl⟩, strayTail_refused, by decide +kernel, ?_⟩
  have hi : Integrity transparentConfig receivingStore := run_integrity _ receivingCalls
  rw [evidence_iff hi hs strayTail_refused]
  rintro (⟨expected, records, tail, hcall, hcontra⟩ | ⟨expected, records, t, hcall, hfront⟩)
  · obtain ⟨-, rfl, -⟩ : 1 = expected ∧ [] = records ∧ _ = tail := by
      simpa [carried, strayTail] using hcall
    obtain ⟨p, k, a, b, -, -, hb, -⟩ := hcontra
    simp at hb
  · obtain ⟨rfl, rfl, rfl⟩ : 1 = expected ∧ [] = records ∧ _ = t := by
      simpa [carried, strayTail] using hcall
    have hlen : receivingStore.records.length = 1 := by decide +kernel
    change (0 : ℤ) = (max receivingStore.records.length 1 : ℕ) at hfront
    rw [hlen] at hfront
    simp at hfront

theorem conflict_evidence_exact_iff_strayTail :
    RefusedForContradiction transparentConfig receivingStore strayTail ∧
      (EvidenceRetained receivingStore (step transparentConfig receivingStore strayTail)
          strayTail ↔
        RecordsContradict receivingStore strayTail ∨
          TailAtNewFrontier receivingStore strayTail) := by
  obtain ⟨s, hs, -⟩ := receivingStore_source
  exact ⟨strayTail_refused, conflict_evidence_exact_iff transparentConfig receivingCalls strayTail
    s hs strayTail_refused⟩

end CaptureConflicts
