import OmiCollector.CaptureInvariant

/-! What `commit_drain` and `commit_tail` can do, said once.

From an integral state each call ends in one of three ways: a clean refusal, an accepted
extension of the row log with its resulting tail, or retained conflict evidence. The
integrity, replay and conflict results are read off this description. -/
namespace CaptureCommits

open ByteCodec AudioMachine CaptureModel RefusalLogic CaptureStore CaptureRows CaptureInvariant

variable {D : Type}

/-- The refusals that follow a committed conflict row. -/
def conflictTexts : List String :=
  ["drain replay conflicts with accepted records", "completed record conflicts with accepted tail",
    "replayed tail conflicts with accepted bytes"]

/-- What `_validate_tail` has checked of an incoming tail. -/
structure TailArgument (s : CaptureSource D) (newCount : ℕ) (t : CaptureTail) : Prop where
  floor : (s.currentLegStart : ℤ) - s.sequenceStart ≤ t.completeHighWater
  ceiling : t.completeHighWater ≤ newCount
  limit : t.receivedHighWater ≤
    ((s.currentLegStart : ℤ) - s.sequenceStart + s.currentLegCount) * audioRecordSize
  offset : t.byteOffset = t.completeHighWater * audioRecordSize
  nonempty : 1 ≤ t.data.length
  bounded : t.data.length ≤ tailMaxBytes
  received : t.receivedHighWater = t.byteOffset + t.data.length

/-- One byte string starts with the other. -/
def Comparable (a b : Bytes) : Prop := a <+: b ∨ b <+: a

/-- The store after conflict evidence was committed. -/
def blockedStore (cfg : StoreConfig D) (now : ℕ) (st : Store D) (s : CaptureSource D)
    (byteOffset : ℤ) (rejected : Bytes) (reason : String) : Store D :=
  { st with
    source := some (blockedSource cfg now s
      (classifyConflict s.committedCount (!st.records.isEmpty) reason))
    conflicts := st.conflicts ++
      [⟨nextReplayConflictOrdinal st.conflicts, s.currentLegGeneration, byteOffset, reason,
        rejected⟩] }

/-- The tail checks all passed for these appended rows. -/
structure TailAccepted (s : CaptureSource D) (rows appended : List CaptureRecord)
    (previous incoming : Option CaptureTail) : Prop where
  argument : ∀ t, incoming = some t → TailArgument s (s.committedCount + appended.length) t
  completed : ∀ t, incoming = some t →
    t.completeHighWater < (s.committedCount + appended.length : ℕ) →
    ∃ r, (rows ++ appended)[t.completeHighWater.toNat]? = some r ∧ t.data <+: r.rawBytes
  extended : ∀ p r, previous = some p → appended.head? = some r → p.data <+: r.rawBytes
  comparable : ∀ p t, previous = some p → incoming = some t → appended = [] →
    t.completeHighWater = s.committedCount → Comparable p.data t.data

/-- The tail stored when every check passed. -/
def mergedTail (committed newCount : ℕ) (previous incoming : Option CaptureTail) :
    Option CaptureTail :=
  let kept := if newCount = committed then previous else none
  match incoming with
  | none => kept
  | some t =>
    if t.completeHighWater < newCount then kept
    else match kept with
      | none => some t
      | some p => some (if t.data.length > p.data.length then t else p)

theorem mergedTail_inside {committed newCount : ℕ} {previous : Option CaptureTail}
    {t : CaptureTail} (h : t.completeHighWater < newCount) :
    mergedTail committed newCount previous (some t) =
      if newCount = committed then previous else none := by
  simp only [mergedTail, if_pos h]

theorem mergedTail_beyond {committed newCount : ℕ} {previous : Option CaptureTail}
    {t : CaptureTail} (h : ¬ t.completeHighWater < newCount)
    (hnew : previous = none ∨ newCount ≠ committed) :
    mergedTail committed newCount previous (some t) = some t := by
  simp only [mergedTail, if_neg h]
  rcases hnew with rfl | hnew
  · simp
  · simp [hnew]

theorem mergedTail_longer {committed : ℕ} {p t : CaptureTail}
    (h : ¬ t.completeHighWater < committed) :
    mergedTail committed committed (some p) (some t) =
      some (if t.data.length > p.data.length then t else p) := by
  simp only [mergedTail, if_neg h, if_true]

/-- The ways a tail check retains evidence: its offset, its bytes and the refusal text. -/
inductive TailConflict (s : CaptureSource D) (rows appended : List CaptureRecord)
    (previous incoming : Option CaptureTail) : ℤ → Bytes → String → Prop where
  | completed (p r) (hp : previous = some p) (hr : appended.head? = some r)
      (hne : ¬ p.data <+: r.rawBytes) :
      TailConflict s rows appended previous incoming p.byteOffset r.rawBytes
        "completed record conflicts with accepted tail"
  | replayed (t r) (ht : incoming = some t)
      (ha : TailArgument s (s.committedCount + appended.length) t)
      (hagree : ∀ p x, previous = some p → appended.head? = some x → p.data <+: x.rawBytes)
      (hlt : t.completeHighWater < (s.committedCount + appended.length : ℕ))
      (hr : (rows ++ appended)[t.completeHighWater.toNat]? = some r)
      (hne : ¬ t.data <+: r.rawBytes) :
      TailConflict s rows appended previous incoming t.byteOffset r.rawBytes
        "completed record conflicts with accepted tail"
  | diverged (p t) (hp : previous = some p) (ht : incoming = some t) (hnew : appended = [])
      (ha : TailArgument s s.committedCount t) (hc : t.completeHighWater = s.committedCount)
      (hne : ¬ Comparable p.data t.data) :
      TailConflict s rows appended previous incoming t.byteOffset t.data
        "replayed tail conflicts with accepted bytes"

section TailChecks

variable {cfg : StoreConfig D} {st : Store D} {s : CaptureSource D} {now : ℕ}

theorem take_eq_take_iff (a b : Bytes) : a.take b.length = b.take a.length ↔ Comparable a b := by
  unfold Comparable
  constructor
  · intro h
    rcases le_total a.length b.length with hab | hab
    · rw [List.take_of_length_le hab] at h
      exact .inl (h ▸ List.take_prefix _ _)
    · rw [List.take_of_length_le hab] at h
      exact .inr (h ▸ List.take_prefix _ _)
  · rintro (⟨c, rfl⟩ | ⟨c, rfl⟩)
    · rw [List.take_of_length_le (by simp), List.take_left]
    · rw [List.take_of_length_le (l := b) (by simp), List.take_left]

theorem wp_validateTail {Q : Unit → Store D → Prop} {E : String → Store D → Prop}
    {incoming : Option CaptureTail} {newCount : ℕ}
    (hq : (∀ t, incoming = some t → TailArgument s newCount t) → Q () st)
    (he : ∀ e, e ∉ conflictTexts → E e st) :
    wp (validateTail incoming s newCount) st Q E := by
  cases incoming with
  | none => exact hq (by simp)
  | some t =>
    simp only [validateTail, wp_bind, wp_refuseIf]
    refine ⟨fun _ => he _ (by simp [conflictTexts]), fun hgen =>
      ⟨fun _ => he _ (by simp [conflictTexts]), fun hcomp =>
      ⟨fun _ => he _ (by simp [conflictTexts]), fun hrec =>
      ⟨fun _ => he _ (by simp [conflictTexts]), fun hoff =>
      ⟨fun _ => he _ (by simp [conflictTexts]), fun hlen =>
      ⟨fun _ => he _ (by simp [conflictTexts]), fun htot => hq ?_⟩⟩⟩⟩⟩⟩
    rintro _ ⟨⟩
    push Not at hcomp hrec hoff hlen htot
    exact ⟨hcomp.1, hcomp.2, hrec.2, hoff, hlen.1, hlen.2, htot⟩

/-- A tail that ends inside a known record is compared with that record. -/
theorem wp_completedRecord (hi : SourceInvariant cfg st s) {appended : List CaptureRecord}
    {ordinal : ℤ} (hpos : 0 ≤ ordinal)
    (hlt : ordinal < (s.committedCount + appended.length : ℕ)) {Q : Bytes → Store D → Prop}
    {E : String → Store D → Prop}
    (hq : ∀ r, (st.records ++ appended)[ordinal.toNat]? = some r → Q r.rawBytes st) :
    wp (completedRecord cfg s ordinal appended) st Q E := by
  obtain ⟨k, rfl⟩ := Int.eq_ofNat_of_zero_le hpos
  have hcount := hi.count
  have hwidth := hi.width
  have hrange := hi.range
  have hchunk := cfg.chunkLimit_pos
  simp only [Int.toNat_natCast] at hq
  unfold completedRecord
  split
  · rename_i hk
    have hk' : k < st.records.length := by omega
    have hrow : st.records[k]? = some st.records[k] := List.getElem?_eq_getElem hk'
    have hpage : recordPage st.records (k - 1) 1 = [st.records[k]] := by
      rw [hi.contiguous.recordPage, List.drop_eq_getElem_cons hk']
      rfl
    have hord := hi.contiguous.ordinal hrow
    simp only [readRecordPage, wp_bind, wp_refuseIf, wp_get, wp_pure, hpage, List.head?_cons,
      wp_requireSome, Option.some.injEq, forall_eq', reduceCtorEq, false_implies, true_and]
    refine ⟨by omega, fun _ => ⟨by omega, fun _ =>
      ⟨by omega, fun _ => ?_⟩⟩⟩
    exact hq _ (by rw [List.getElem?_append_left hk', hrow])
  · rename_i hk
    have hk' : k - st.records.length < appended.length := by omega
    have hidx : ((k : ℤ) - s.committedCount).toNat = k - st.records.length := by omega
    simp only [wp_bind, wp_requireSome, wp_pure, hidx, List.getElem?_eq_getElem hk',
      Option.some.injEq, forall_eq', reduceCtorEq, false_implies, true_and]
    exact hq _ (by
      rw [List.getElem?_append_right (by omega), List.getElem?_eq_getElem hk'])

variable [DecidableEq D]

/-- In a receiving source bounded evidence is always retained. -/
theorem exec_blockReplayConflict (hs : st.source = some s) (hi : SourceInvariant cfg st s)
    (hl : s.lifecycle = .receiving) {offset : ℤ} {rejected : Bytes} {reason : String}
    (hne : rejected ≠ []) (hlen : rejected.length ≤ cfg.chunkLimit * audioRecordSize) :
    exec (blockReplayConflict cfg now s offset rejected reason) st =
      (.ok (), blockedStore cfg now st s offset rejected reason) := by
  obtain ⟨d, -, hkeep⟩ := classifyConflict_disposition s.committedCount (!st.records.isEmpty)
    reason
  have hnone : st.conflicts = [] := hi.unblocked (by simp [hl])
  apply exec_of_wp
  simp only [blockReplayConflict, wp_bind, wp_refuseIf, wp_of_exec (exec_recheckSource hs hi hl),
    wp_get, wp_set]
  refine ⟨?_, fun _ => ⟨?_, fun _ => ⟨?_, fun _ => rfl⟩⟩⟩
  · rintro (h | h)
    · exact hne h
    · omega
  · simp [nextReplayConflictOrdinal, hnone]
  · rcases hkeep with h | h <;> simp [h]

/-- The refusal side of the tail checks: nothing changed, or evidence was committed. -/
def TailRefusal (cfg : StoreConfig D) (now : ℕ) (st : Store D) (s : CaptureSource D)
    (appended : List CaptureRecord) (incoming : Option CaptureTail) (e : String) (t : Store D) :
    Prop :=
  (e ∉ conflictTexts ∧ t = st) ∨
    ∃ offset rejected, TailConflict s st.records appended st.tail incoming offset rejected e ∧
      t = blockedStore cfg now st s offset rejected "tail_mismatch"

theorem wp_assertTailPrefix (hs : st.source = some s) (hi : SourceInvariant cfg st s)
    (hl : s.lifecycle = .receiving) {tail : CaptureTail} {full : Bytes}
    (hfull : full.length = audioRecordSize) {Q : Unit → Store D → Prop}
    {E : String → Store D → Prop} (hq : tail.data <+: full → Q () st)
    (he : ¬ tail.data <+: full → E "completed record conflicts with accepted tail"
      (blockedStore cfg now st s tail.byteOffset full "tail_mismatch")) :
    wp (assertTailPrefix cfg now s tail full) st Q E := by
  have hlimit := cfg.chunkLimit_pos
  have hne : full ≠ [] := by
    rintro rfl
    simp [audioRecordSize] at hfull
  have hlen : full.length ≤ cfg.chunkLimit * audioRecordSize :=
    hfull ▸ Nat.le_mul_of_pos_left _ hlimit
  unfold assertTailPrefix
  by_cases h : tail.data <+: full
  · rw [if_pos (List.isPrefixOf_iff_prefix.mpr h)]
    exact hq h
  · rw [if_neg (fun hp => h (List.isPrefixOf_iff_prefix.mp hp)), wp_bind,
      wp_of_exec (exec_blockReplayConflict hs hi hl hne hlen)]
    exact he h

theorem wp_checkPreviousTail (hs : st.source = some s) (hi : SourceInvariant cfg st s)
    (hl : s.lifecycle = .receiving) {appended : List CaptureRecord}
    (hvalid : ∀ r ∈ appended, r.Valid) (incoming : Option CaptureTail)
    {Q : Unit → Store D → Prop}
    (hq : (∀ p r, st.tail = some p → appended.head? = some r → p.data <+: r.rawBytes) → Q () st) :
    wp (checkPreviousTail cfg now s st.tail (s.committedCount + appended.length) appended) st Q
      (TailRefusal cfg now st s appended incoming) := by
  cases hp : st.tail with
  | none => exact hq (by simp [hp])
  | some p =>
    have hoff := (hi.tail p hp).offset
    simp only [checkPreviousTail, wp_bind, wp_refuseIf]
    refine ⟨fun h => absurd hoff h, fun _ => ?_⟩
    cases appended with
    | nil => simpa using hq (by simp)
    | cons r rest =>
      rw [if_pos (by simp)]
      simp only [List.head?_cons, wp_bind, wp_requireSome, reduceCtorEq, false_implies,
        Option.some.injEq, forall_eq', true_and]
      apply wp_assertTailPrefix hs hi hl (hvalid r (by simp)).length_rawBytes
      · intro hpre
        apply hq
        rintro p' r' hp' hr'
        obtain rfl : p = p' := by simpa [hp] using hp'
        obtain rfl : r = r' := by simpa using hr'
        exact hpre
      · intro hne
        exact .inr ⟨_, _, .completed p r hp rfl hne, rfl⟩

/-- The tail resolver either settles the stored tail, or refuses with its evidence. -/
theorem wp_resolveTail (now : ℕ) (hs : st.source = some s) (hi : SourceInvariant cfg st s)
    (hl : s.lifecycle = .receiving) {appended : List CaptureRecord}
    (hvalid : ∀ r ∈ appended, r.Valid) (incoming : Option CaptureTail) :
    wp (resolveTail cfg now s st.tail incoming (s.committedCount + appended.length) appended) st
      (fun desired t => t = st ∧ TailAccepted s st.records appended st.tail incoming ∧
        desired = mergedTail s.committedCount (s.committedCount + appended.length) st.tail incoming)
      (TailRefusal cfg now st s appended incoming) := by
  simp only [resolveTail, wp_bind]
  refine wp_validateTail (fun harg => ?_) (fun e he => .inl ⟨he, rfl⟩)
  refine wp_checkPreviousTail hs hi hl hvalid incoming (fun hext => ?_)
  cases incoming with
  | none =>
    refine ⟨rfl, ⟨harg, ?_, hext, ?_⟩, rfl⟩ <;> simp
  | some t =>
    have ht := harg t rfl
    have hfloor := hi.legFloor
    have hpos : 0 ≤ t.completeHighWater := by
      have := ht.floor
      omega
    simp only []
    by_cases hlt : t.completeHighWater < (s.committedCount + appended.length : ℕ)
    · rw [if_pos hlt]
      simp only [wp_bind]
      refine wp_completedRecord hi hpos hlt (fun r hr => ?_)
      have hrow : r.Valid := by
        rcases List.mem_append.mp (List.mem_of_getElem? hr) with h | h
        · exact hi.valid r h
        · exact hvalid r h
      refine wp_assertTailPrefix hs hi hl hrow.length_rawBytes (fun hpre => ?_) (fun hne => ?_)
      · refine ⟨rfl, ⟨harg, ?_, hext, ?_⟩, ?_⟩
        · rintro _ ⟨⟩ _
          exact ⟨r, hr, hpre⟩
        · rintro p _ hp ⟨⟩ rfl hc
          simp [hc] at hlt
        · exact (mergedTail_inside hlt).symm
      · exact .inr ⟨_, _, .replayed t r rfl ht hext hlt hr hne, rfl⟩
    · have hcomplete : t.completeHighWater = (s.committedCount + appended.length : ℕ) := by
        have := ht.ceiling
        omega
      rw [if_neg hlt]
      have hfresh : ∀ x, some t = some x →
          x.completeHighWater < (s.committedCount + appended.length : ℕ) →
          ∃ r, (st.records ++ appended)[x.completeHighWater.toNat]? = some r ∧
            x.data <+: r.rawBytes := by
        rintro _ ⟨⟩ h
        exact absurd h hlt
      cases hp : st.tail with
      | none =>
        exact ⟨rfl, ⟨harg, hfresh, by simp, by simp⟩, (mergedTail_beyond hlt (.inl rfl)).symm⟩
      | some p =>
        rw [hp] at hext
        have hpoff := (hi.tail p hp).offset
        have htoff := ht.offset
        simp only []
        cases appended with
        | cons r rest =>
          have hgt : t.byteOffset > p.byteOffset := by
            rw [htoff, hpoff, hcomplete]
            simp only [List.length_cons, audioRecordSize]
            omega
          rw [if_pos hgt]
          exact ⟨rfl, ⟨harg, hfresh, hext, by simp⟩,
            (mergedTail_beyond hlt (.inr (by simp))).symm⟩
        | nil =>
          have heq : t.byteOffset = p.byteOffset := by
            rw [htoff, hpoff, hcomplete]
            simp
          rw [if_neg (by omega), if_neg (by omega)]
          by_cases hcmp : Comparable p.data t.data
          · rw [if_neg (not_not.mpr ((take_eq_take_iff _ _).mpr hcmp))]
            refine ⟨rfl, ⟨harg, hfresh, hext, ?_⟩, (mergedTail_longer hlt).symm⟩
            rintro _ _ ⟨⟩ ⟨⟩ _ _
            exact hcmp
          · rw [if_pos (fun h => hcmp ((take_eq_take_iff _ _).mp h))]
            have hlimit := cfg.chunkLimit_pos
            have hlen : t.data.length ≤ cfg.chunkLimit * audioRecordSize := by
              have := ht.bounded
              simp only [tailMaxBytes, audioRecordSize] at this ⊢
              omega
            have hne : t.data ≠ [] := List.ne_nil_of_length_pos ht.nonempty
            rw [wp_bind, wp_of_exec (exec_blockReplayConflict hs hi hl hne hlen)]
            refine .inr ⟨_, _, .diverged p t hp rfl rfl ?_ ?_ hcmp, rfl⟩
            · simpa using ht
            · simpa using hcomplete

end TailChecks

/-- Every record replayed over the accepted prefix equals the row it overlaps. -/
def Replays (rows : List CaptureRecord) (expected : ℕ) (records : List Bytes) : Prop :=
  ∀ i r raw, rows[expected + i]? = some r → records[i]? = some raw → r.rawBytes = raw

/-- The rows a drain adds: its records from the committed frontier on. -/
def newRows (s : CaptureSource D) (expected : ℕ) (records : List Bytes) : List CaptureRecord :=
  parseRecords s.committedCount (records.drop (s.committedCount - expected))

/-- The store after these rows and the settled tail were committed together. -/
structure Extended (cfg : StoreConfig D) (st t : Store D) (s : CaptureSource D)
    (appended : List CaptureRecord) (incoming : Option CaptureTail) : Prop where
  check : TailAccepted s st.records appended st.tail incoming
  records : t.records = st.records ++ appended
  source : t.source = some
    { s with
      committedCount := s.committedCount + appended.length
      committedSha256 := cfg.sha256 (rawLog t.records) }
  tail : t.tail =
    mergedTail s.committedCount (s.committedCount + appended.length) st.tail incoming
  conflicts : t.conflicts = st.conflicts
  cache : CacheOk cfg t

/-- The refusals of a commit after its records were found to agree. -/
def ExtensionRefusal (cfg : StoreConfig D) (now : ℕ) (st : Store D) (s : CaptureSource D)
    (appended : List CaptureRecord) (incoming : Option CaptureTail) (e : String) (t : Store D) :
    Prop :=
  (e ∉ conflictTexts ∧ Recached cfg st t) ∨
    ∃ u offset rejected, Recached cfg st u ∧
      TailConflict s st.records appended st.tail incoming offset rejected e ∧
      t = blockedStore cfg now u s offset rejected "tail_mismatch"

/-- Everything a commit call from an integral state can do. -/
inductive CommitOutcome (cfg : StoreConfig D) (now : ℕ) (st : Store D) (s : CaptureSource D)
    (expected : ℕ) (records : List Bytes) (incoming : Option CaptureTail) :
    Except String ℕ → Store D → Prop where
  | refused {e t} (he : e ∉ conflictTexts) (ht : Recached cfg st t) :
      CommitOutcome cfg now st s expected records incoming (.error e) t
  | accepted {t} (hl : s.lifecycle = .receiving) (hexp : expected ≤ s.committedCount)
      (hrec : ∀ raw ∈ records, raw.length = audioRecordSize)
      (hrange : s.sequenceStart + (s.committedCount + (newRows s expected records).length) ≤
        s.sequenceLimit)
      (hreplay : Replays st.records expected records)
      (hext : Extended cfg st t s (newRows s expected records) incoming) :
      CommitOutcome cfg now st s expected records incoming
        (.ok (s.committedCount + (newRows s expected records).length)) t
  | replayConflict {u} (hl : s.lifecycle = .receiving) (hexp : expected < s.committedCount)
      (hrec : ∀ raw ∈ records, raw.length = audioRecordSize)
      (hne : ¬ Replays st.records expected records) (hu : Recached cfg st u) :
      CommitOutcome cfg now st s expected records incoming
        (.error "drain replay conflicts with accepted records")
        (blockedStore cfg now u s (expected * audioRecordSize) records.flatten "replay_mismatch")
  | tailConflict {u e offset rejected} (hl : s.lifecycle = .receiving)
      (hexp : expected ≤ s.committedCount)
      (hrec : ∀ raw ∈ records, raw.length = audioRecordSize)
      (hreplay : Replays st.records expected records) (hu : Recached cfg st u)
      (hc : TailConflict s st.records (newRows s expected records) st.tail incoming offset
        rejected e) :
      CommitOutcome cfg now st s expected records incoming (.error e)
        (blockedStore cfg now u s offset rejected "tail_mismatch")

section Commits

variable {cfg : StoreConfig D} {st : Store D} {s : CaptureSource D} {now : ℕ}

theorem length_newRows (s : CaptureSource D) (expected : ℕ) (records : List Bytes) :
    (newRows s expected records).length = records.length - (s.committedCount - expected) := by
  simp [newRows]

/-- With contiguous valid rows the two row checks both pass. -/
theorem frontierCheck_ok (hi : SourceInvariant cfg st s) :
    ∀ r ∈ st.records, frontierCheck s.committedCount r.ordinal r = none := by
  intro r hr
  have hcount := hi.count
  obtain ⟨-, hts, hpay⟩ := hi.valid r hr
  have hlt := (hi.contiguous.ordinal_lt hr).2
  unfold frontierCheck
  rw [if_neg (by omega), if_neg (by omega)]

theorem authenticatedRecordCheck_ok (hi : SourceInvariant cfg st s) :
    ∀ r ∈ st.records, authenticatedRecordCheck r.ordinal r = none := by
  intro r hr
  obtain ⟨hord, hts, hpay⟩ := hi.valid r hr
  unfold authenticatedRecordCheck
  rw [if_neg (by omega), if_neg (by omega), if_neg (by omega), if_neg (by omega)]

/-- The cache and a full scan both yield the byte log of the accepted rows. -/
theorem wp_digestState [DecidableEq D] (hs : st.source = some s) (hi : Integrity cfg st)
    {Q : Bytes → Store D → Prop} {E : String → Store D → Prop}
    (hq : ∀ t, Recached cfg st t → Q (rawLog st.records) t) :
    wp (digestState cfg s) st Q E := by
  have hsrc := hi.present s hs
  have hcount := hsrc.count
  simp only [digestState, wp_bind, wp_get]
  cases hcached : cachedDigest st s with
  | some state =>
    have hstate : state = rawLog st.records := by
      unfold cachedDigest at hcached
      split at hcached
      · rename_i count digest bytes hcache
        obtain ⟨-, hbytes, -⟩ := hi.cache count digest bytes hcache
        split at hcached
        · rename_i hkey
          obtain ⟨rfl, -⟩ := Prod.mk.inj hkey
          obtain rfl := Option.some.inj hcached
          rw [hbytes, List.take_of_length_le (by omega)]
        · simp at hcached
      · simp at hcached
    exact hstate ▸ hq st (.refl hi.cache)
  | none =>
    have hscan := hashPages_ok cfg.chunkLimit_pos hsrc.contiguous
      (frontierCheck_ok hsrc) (st.records.length + 1) 0 [] (by omega) (by omega)
    simp only [scanDigest, wp_bind, wp_get, hscan, wp_fromExcept_ok, wp_pure, wp_refuseIf, wp_set]
    refine ⟨fun h => absurd hcount h, fun _ => ⟨fun h => ?_, fun _ => ?_⟩⟩
    · exact absurd hsrc.digest.symm h
    · refine hq _ ⟨rfl, rfl, rfl, rfl, ?_⟩
      rintro count digest state ⟨⟩
      refine ⟨hcount.ge, ?_, hsrc.digest⟩
      rw [List.take_of_length_le hcount.le]
      rfl

theorem extensionRefusal_of_tail {u : Store D} (hu : Recached cfg st u)
    {appended : List CaptureRecord} {incoming : Option CaptureTail} {e : String} {t : Store D}
    (h : TailRefusal cfg now u s appended incoming e t) :
    ExtensionRefusal cfg now st s appended incoming e t := by
  rcases h with ⟨he, rfl⟩ | ⟨offset, rejected, hc, rfl⟩
  · exact .inl ⟨he, hu⟩
  · rw [hu.records, hu.tail] at hc
    exact .inr ⟨u, offset, rejected, hu, hc, rfl⟩

theorem outcome_of_extension {expected : ℕ} {records : List Bytes}
    {incoming : Option CaptureTail} (hl : s.lifecycle = .receiving)
    (hexp : expected ≤ s.committedCount) (hrec : ∀ raw ∈ records, raw.length = audioRecordSize)
    (hreplay : Replays st.records expected records) {e : String} {t : Store D}
    (h : ExtensionRefusal cfg now st s (newRows s expected records) incoming e t) :
    CommitOutcome cfg now st s expected records incoming (.error e) t := by
  rcases h with ⟨he, ht⟩ | ⟨u, offset, rejected, hu, hc, rfl⟩
  · exact .refused he ht
  · exact .tailConflict hl hexp hrec hreplay hu hc

theorem wp_validateReceivingLeg {expected count : ℕ} {generation : ℤ}
    {Q : Unit → Store D → Prop} {E : String → Store D → Prop}
    (hq : s.lifecycle = .receiving → 0 < count →
      s.currentLegStart ≤ s.sequenceStart + expected →
      s.sequenceStart + expected + count ≤ s.currentLegStart + s.currentLegCount → Q () st)
    (he : ∀ e, e ∉ conflictTexts → E e st) :
    wp (validateReceivingLeg s expected count generation) st Q E := by
  simp only [validateReceivingLeg, wp_bind, wp_refuseIf]
  refine ⟨fun _ => he _ (by simp [conflictTexts]), fun _ =>
    ⟨fun _ => he _ (by simp [conflictTexts]), fun hphase =>
    ⟨fun _ => he _ (by simp [conflictTexts]), fun _ =>
    ⟨fun _ => he _ (by simp [conflictTexts]), fun hleg => ?_⟩⟩⟩⟩
  push Not at hleg
  exact hq ((data_persist_iff s.lifecycle).mp (not_not.mp hphase)) (Nat.pos_of_ne_zero hleg.1)
    hleg.2.1 hleg.2.2

theorem wp_optionalSha256 (text : Option (DigestText D)) {Q : Option D → Store D → Prop}
    {E : String → Store D → Prop} (hq : ∀ digest, Q digest st)
    (he : ∀ e, e ∉ conflictTexts → E e st) : wp (optionalSha256 text) st Q E := by
  cases text with
  | none => exact hq none
  | some text =>
    cases text with
    | text digest => exact hq (some digest)
    | malformed => exact he _ (by simp [conflictTexts])

variable [DecidableEq D]

/-- Appending commits the rows, the frontier, the digest and the tail together. -/
theorem wp_appendDrain (now : ℕ) (hs : st.source = some s) (hi : Integrity cfg st)
    (hl : s.lifecycle = .receiving) {raw : List Bytes} (digest : Option D)
    (incoming : Option CaptureTail) (hraw : ∀ b ∈ raw, b.length = audioRecordSize)
    (hrange : s.sequenceStart + (s.committedCount + raw.length) ≤ s.sequenceLimit) :
    wp (appendDrain cfg now s s.committedCount raw digest incoming) st
      (fun n t => n = s.committedCount + raw.length ∧
        Extended cfg st t s (parseRecords s.committedCount raw) incoming)
      (ExtensionRefusal cfg now st s (parseRecords s.committedCount raw) incoming) := by
  have hsrc := hi.present s hs
  have hwidth := hsrc.width
  have hcount := hsrc.count
  have hvalid : ∀ r ∈ parseRecords s.committedCount raw, r.Valid :=
    parseRecords_valid (by omega) hraw
  set parsed := parseRecords s.committedCount raw with hparsed
  have hlen : raw.length = parsed.length := by simp [hparsed]
  simp only [appendDrain, wp_bind, wp_refuseIf]
  refine ⟨fun h => by omega, fun _ => wp_digestState hs hi fun u hu => ?_⟩
  refine ⟨fun _ => .inl ⟨by simp [conflictTexts], hu⟩, fun _ => ?_⟩
  have hus : u.source = some s := hu.source.trans hs
  have hui := hsrc.congr hu.records hu.tail hu.conflicts
  simp only [wp_get, hlen, ← hparsed]
  refine wp_mono (wp_resolveTail now hus hui hl hvalid incoming) ?_
    (fun e t h => extensionRefusal_of_tail hu h)
  rintro desired u ⟨rfl, hcheck, rfl⟩
  rw [hu.records, hu.tail] at hcheck
  have hins : parsed.foldlM insertRecord u.records = some (u.records ++ parsed) := by
    rw [hu.records]
    refine foldlM_insertRecord hsrc.contiguous ?_ hvalid
    rw [hcount]
    exact parseRecords_contiguous _ _
  simp only [wp_of_exec (exec_recheckSource hus hui hl), recheckTail, wp_bind, wp_get,
    wp_refuseIf, not_true_eq_false, ne_eq, false_implies, true_and, not_false_eq_true,
    true_implies, hins, wp_requireSome, reduceCtorEq, Option.some.injEq, forall_eq', wp_modify,
    wp_pure]
  refine ⟨hcheck, by simp [hu.records], ?_, by simp [hu.tail], hu.conflicts, ?_⟩
  · simp [hu.records]
  · rintro count bytes state ⟨⟩
    refine ⟨by simp [hu.records]; omega, ?_, rfl⟩
    rw [List.take_of_length_le (by simp [hu.records]; omega)]
    simp [hu.records]

/-- Settling a tail at the frontier adds no rows. -/
theorem wp_settleTail (now : ℕ) (hs : st.source = some s) (hi : Integrity cfg st)
    (hl : s.lifecycle = .receiving) (incoming : Option CaptureTail) :
    wp (settleTail cfg now s incoming) st
      (fun n t => n = s.committedCount ∧ Extended cfg st t s [] incoming)
      (ExtensionRefusal cfg now st s [] incoming) := by
  have hsrc := hi.present s hs
  have hresolve := wp_resolveTail now hs hsrc hl
    (fun r (hr : r ∈ []) => absurd hr (by simp)) incoming
  simp only [List.length_nil, Nat.add_zero] at hresolve
  simp only [settleTail, wp_bind, wp_get]
  refine wp_mono hresolve ?_ (fun e t h => extensionRefusal_of_tail (.refl hi.cache) h)
  rintro desired st ⟨rfl, hcheck, rfl⟩
  have hsame : st.source = some { s with
      committedCount := s.committedCount + ([] : List CaptureRecord).length
      committedSha256 := cfg.sha256 (rawLog st.records) } := by
    rw [← hsrc.digest]
    exact hs
  split
  · simp only [commitReplayTail, wp_bind, wp_of_exec (exec_recheckSource hs hsrc hl), recheckTail,
      wp_get, wp_refuseIf, ne_eq, not_true_eq_false, false_implies, true_and, not_false_eq_true,
      true_implies, wp_modify, wp_pure]
    exact ⟨hcheck, by simp, hsame, by simp, rfl, hi.cache⟩
  · rename_i hsettled
    exact ⟨rfl, hcheck, by simp, hsame, (not_not.mp hsettled).symm, rfl, hi.cache⟩

/-- The page comparison decides whether the replayed records agree. -/
theorem overlap_eq_iff {rows : List CaptureRecord} {expected : ℕ} (records : List Bytes)
    (hexp : expected ≤ rows.length) :
    ((rows.drop expected).take (min records.length (rows.length - expected))).map
      CaptureRecord.rawBytes = records.take (min records.length (rows.length - expected)) ↔
      Replays rows expected records := by
  set k := min records.length (rows.length - expected) with hk
  constructor
  · intro h i r raw hr hraw
    have hi1 : expected + i < rows.length := (List.getElem?_eq_some_iff.mp hr).1
    have hi2 : i < records.length := (List.getElem?_eq_some_iff.mp hraw).1
    have hik : i < k := by omega
    have hget := congrArg (fun l => l[i]?) h
    simp only [List.getElem?_map, List.getElem?_take_of_lt hik, List.getElem?_drop, hr, hraw,
      Option.map_some, Option.some.injEq] at hget
    exact hget
  · intro h
    apply List.ext_getElem?
    intro i
    by_cases hik : i < k
    · have hi1 : expected + i < rows.length := by omega
      have hi2 : i < records.length := by omega
      simp only [List.getElem?_map, List.getElem?_take_of_lt hik, List.getElem?_drop]
      rw [List.getElem?_eq_getElem hi1, List.getElem?_eq_getElem hi2, Option.map_some,
        h i _ _ (List.getElem?_eq_getElem hi1) (List.getElem?_eq_getElem hi2)]
    · rw [List.getElem?_eq_none (by simp; omega), List.getElem?_eq_none (by simp; omega)]

theorem wp_checkReplayDigest (hi : SourceInvariant cfg st s) {count : ℕ}
    (hcount : count ≤ s.committedCount) (stated : Option D) {Q : Unit → Store D → Prop}
    {E : String → Store D → Prop} (hq : Q () st)
    (he : E "drain replay checkpoint conflicts with accepted source" st) :
    wp (checkReplayDigest cfg s count stated) st Q E := by
  cases stated with
  | none => exact hq
  | some digest =>
    have hrows := hi.count
    have hpages := prefixPages_ok cfg.chunkLimit_pos hi.contiguous
      (by omega : count ≤ st.records.length) count 0 [] (by omega) (by omega)
    simp only [Nat.cast_zero, zero_sub] at hpages
    simp only [checkReplayDigest, wp_bind, wp_ite, wp_pure, wp_refuseIf, prefixDigest, wp_get,
      hpages, wp_fromExcept_ok]
    exact ⟨fun _ => ⟨fun _ => he, fun _ => hq⟩, fun _ => ⟨fun _ => he, fun _ => hq⟩⟩

theorem replayOrAppend_outcome (hs : st.source = some s) (hi : Integrity cfg st)
    (hl : s.lifecycle = .receiving) {expected : ℕ} {records : List Bytes} (digest : Option D)
    (incoming : Option CaptureTail) (hexp : expected < s.committedCount)
    (hrec : ∀ raw ∈ records, raw.length = audioRecordSize) (hpos : 0 < records.length)
    (hlen : records.length ≤ cfg.chunkLimit)
    (hrange : s.sequenceStart + expected + records.length ≤ s.sequenceLimit) :
    wp (replayOrAppend cfg now s expected records digest incoming
        (min records.length (s.committedCount - expected))) st
      (fun n t => CommitOutcome cfg now st s expected records incoming (.ok n) t)
      (fun e t => CommitOutcome cfg now st s expected records incoming (.error e) t) := by
  have hsrc := hi.present s hs
  have hcount := hsrc.count
  have hwidth := hsrc.width
  have hsrange := hsrc.range
  have hover := overlap_eq_iff records (by omega : expected ≤ st.records.length)
  rw [hcount] at hover
  have hnewLen := length_newRows s expected records
  simp only [replayOrAppend, wp_bind, readRecordPage, wp_refuseIf, wp_get, wp_pure,
    hsrc.contiguous.recordPage]
  refine ⟨fun h => by omega, fun _ => ⟨fun h => by omega, fun _ => ?_⟩⟩
  have hpage : ((st.records.drop expected).take
      (min records.length (s.committedCount - expected))).length =
      min records.length (s.committedCount - expected) := by
    simp
    omega
  by_cases hreplay : Replays st.records expected records
  · rw [if_neg (by simp only [hpage, hover.mpr hreplay]; simp)]
    -- Rows agree: either nothing is new and only the tail settles, or the suffix is appended.
    by_cases hsuffix : records.drop (min records.length (s.committedCount - expected)) = []
    · rw [if_pos hsuffix]
      have hnone : newRows s expected records = [] := by
        apply List.eq_nil_of_length_eq_zero
        rw [List.drop_eq_nil_iff] at hsuffix
        omega
      have hle : expected + records.length ≤ s.committedCount := by
        rw [List.drop_eq_nil_iff] at hsuffix
        omega
      rw [wp_bind]
      refine wp_checkReplayDigest hsrc hle digest ?_
        (.refused (by simp [conflictTexts]) (.refl hi.cache))
      refine wp_mono (wp_settleTail now hs hi hl incoming) ?_ ?_
      · rintro n t ⟨rfl, hext⟩
        have hacc : CommitOutcome cfg now st s expected records incoming
            (.ok (s.committedCount + (newRows s expected records).length)) t :=
          .accepted hl hexp.le hrec (by rw [hnone]; simpa using hsrange) hreplay (hnone ▸ hext)
        rw [hnone] at hacc
        exact hacc
      · intro e t h
        exact outcome_of_extension hl hexp.le hrec hreplay (hnone ▸ h)
    · rw [if_neg hsuffix]
      have hmin : min records.length (s.committedCount - expected) =
          s.committedCount - expected := by
        by_contra hne
        apply hsuffix
        rw [List.drop_eq_nil_iff]
        omega
      rw [hmin] at hsuffix ⊢
      have hdrop : (records.drop (s.committedCount - expected)).length =
          (newRows s expected records).length := by
        rw [hnewLen, List.length_drop]
      refine wp_mono (wp_appendDrain now hs hi hl digest incoming
        (fun b hb => hrec b (List.mem_of_mem_drop hb))
        (by rw [List.length_drop]; omega)) ?_ ?_
      · rintro n t ⟨rfl, hext⟩
        rw [hdrop]
        exact .accepted hl hexp.le hrec (by rw [hnewLen]; omega) hreplay hext
      · intro e t h
        exact outcome_of_extension hl hexp.le hrec hreplay h
  · rw [if_pos (.inr (fun h => hreplay (hover.mp h)))]
    have hsum : records.flatten.length = records.length * audioRecordSize := by
      rw [List.length_flatten, List.map_congr_left hrec]
      simp
    have hne : records.flatten ≠ [] := by
      apply List.ne_nil_of_length_pos
      rw [hsum]
      simp only [audioRecordSize]
      omega
    have hbound : records.flatten.length ≤ cfg.chunkLimit * audioRecordSize := by
      rw [hsum]
      exact Nat.mul_le_mul_right _ hlen
    rw [wp_bind, wp_of_exec (exec_blockReplayConflict hs hsrc hl hne hbound), wp_throw]
    exact .replayConflict hl hexp hrec hreplay (.refl hi.cache)

/-- `commit_drain` from an integral state. -/
theorem commitDrain_outcome (hs : st.source = some s) (hi : Integrity cfg st)
    (expectedOrdinal : ℤ) (records : List Bytes) (checkpoint : DrainCheckpoint D) :
    wp (commitDrain cfg now expectedOrdinal records checkpoint) st
      (fun n t => CommitOutcome cfg now st s expectedOrdinal.toNat records checkpoint.tail
        (.ok n) t)
      (fun e t => CommitOutcome cfg now st s expectedOrdinal.toNat records checkpoint.tail
        (.error e) t) := by
  have hsrc := hi.present s hs
  have hcount := hsrc.count
  have hlegLimit := hsrc.legLimit
  have hclean : ∀ e, e ∉ conflictTexts → CommitOutcome cfg now st s expectedOrdinal.toNat records
      checkpoint.tail (.error e) st := fun e he => .refused he (.refl hi.cache)
  simp only [commitDrain, wp_bind, wp_uint32, boundedRecords, wp_refuseIf, wp_pure]
  refine ⟨fun _ => ⟨fun _ => hclean _ (by simp [conflictTexts]), fun hsizes =>
    ⟨fun _ => hclean _ (by simp [conflictTexts]), fun hbound => ?_⟩⟩,
    fun _ => hclean _ (by simp [conflictTexts])⟩
  push Not at hsizes hbound
  have htake : records.take (cfg.chunkLimit + 1) = records := by
    apply List.take_of_length_le
    have := hbound.2
    rw [List.length_take] at this
    omega
  rw [htake] at hsizes hbound
  simp only [htake]
  refine wp_optionalSha256 _ (fun digest => ?_) hclean
  simp only [wp_requireSource, hs, reduceCtorEq, false_implies, true_and, Option.some.injEq,
    forall_eq']
  refine wp_validateReceivingLeg (fun hl _ hfloor hlimit => ?_) hclean
  rw [wp_ite]
  constructor
  · intro hexp
    exact replayOrAppend_outcome hs hi hl digest checkpoint.tail hexp hsizes hbound.1 hbound.2
      (by omega)
  · intro hexp
    rw [wp_bind, wp_refuseIf]
    refine ⟨fun _ => hclean _ (by simp [conflictTexts]), fun hfront => ?_⟩
    have hfrontier : expectedOrdinal.toNat = s.committedCount := not_not.mp hfront
    have hreplay : Replays st.records expectedOrdinal.toNat records := by
      intro i r raw hr
      have := (List.getElem?_eq_some_iff.mp hr).1
      omega
    have hnew : newRows s s.committedCount records = parseRecords s.committedCount records := by
      simp [newRows]
    rw [hfrontier] at hreplay ⊢
    refine wp_mono (wp_appendDrain now hs hi hl digest checkpoint.tail hsizes
      (by omega)) ?_ ?_
    · rintro n t ⟨rfl, hext⟩
      have hacc : CommitOutcome cfg now st s s.committedCount records checkpoint.tail
          (.ok (s.committedCount + (newRows s s.committedCount records).length)) t :=
        .accepted hl le_rfl hsizes (by rw [hnew, length_parseRecords]; omega) hreplay
          (hnew ▸ hext)
      rw [hnew, length_parseRecords] at hacc
      exact hacc
    · intro e t h
      exact outcome_of_extension hl le_rfl hsizes hreplay (hnew ▸ h)

/-- `commit_tail` behaves as a drain without records. -/
theorem commitTail_outcome (hs : st.source = some s) (hi : Integrity cfg st)
    (expectedOrdinal : ℤ) (checkpoint : DrainCheckpoint D) :
    wp (commitTail cfg now expectedOrdinal checkpoint) st
      (fun n t => CommitOutcome cfg now st s expectedOrdinal.toNat [] checkpoint.tail (.ok n) t)
      (fun e t => CommitOutcome cfg now st s expectedOrdinal.toNat [] checkpoint.tail
        (.error e) t) := by
  have hsrc := hi.present s hs
  have hclean : ∀ e, e ∉ conflictTexts → CommitOutcome cfg now st s expectedOrdinal.toNat []
      checkpoint.tail (.error e) st := fun e he => .refused he (.refl hi.cache)
  simp only [commitTail, wp_bind, wp_requireSource, hs, reduceCtorEq, false_implies, true_and,
    Option.some.injEq, forall_eq', wp_uint32, wp_refuseIf, validateReceivingCheckpoint]
  refine ⟨fun _ => ⟨fun _ => hclean _ (by simp [conflictTexts]), fun hfront =>
    ⟨fun _ => hclean _ (by simp [conflictTexts]), fun _ =>
    ⟨fun _ => hclean _ (by simp [conflictTexts]), fun hphase =>
    ⟨fun _ => hclean _ (by simp [conflictTexts]), fun _ =>
    ⟨fun _ => hclean _ (by simp [conflictTexts]), fun _ =>
    ⟨fun _ => hclean _ (by simp [conflictTexts]), fun _ => ?_⟩⟩⟩⟩⟩⟩,
    fun _ => hclean _ (by simp [conflictTexts])⟩
  have hl := (data_persist_iff s.lifecycle).mp (not_not.mp hphase)
  have hreplay : Replays st.records s.committedCount [] := by
    intro i r raw _ hraw
    simp at hraw
  have hnew : newRows s s.committedCount [] = [] := by simp [newRows, parseRecords]
  rw [not_not.mp hfront]
  refine wp_mono (wp_settleTail now hs hi hl checkpoint.tail) ?_ ?_
  · rintro n t ⟨rfl, hext⟩
    have hacc : CommitOutcome cfg now st s s.committedCount [] checkpoint.tail
        (.ok (s.committedCount + (newRows s s.committedCount []).length)) t :=
      .accepted hl le_rfl (by simp) (by simpa [hnew] using hsrc.range) hreplay (hnew ▸ hext)
    simpa [hnew] using hacc
  · intro e t h
    exact outcome_of_extension hl le_rfl (by simp) hreplay (hnew ▸ h)

/-- Without a source every commit is refused and nothing changes. -/
theorem commitDrain_absent (hs : st.source = none) (expectedOrdinal : ℤ) (records : List Bytes)
    (checkpoint : DrainCheckpoint D) :
    wp (commitDrain cfg now expectedOrdinal records checkpoint) st (fun _ _ => False)
      (fun e t => e ∉ conflictTexts ∧ t = st) := by
  simp only [commitDrain, wp_bind, wp_uint32, boundedRecords, wp_refuseIf, wp_pure]
  refine ⟨fun _ => ⟨fun _ => by simp [conflictTexts], fun _ =>
    ⟨fun _ => by simp [conflictTexts], fun _ =>
    wp_optionalSha256 _ (fun _ => ?_) (fun e he => ⟨he, rfl⟩)⟩⟩,
    fun _ => by simp [conflictTexts]⟩
  simp [hs, conflictTexts]

theorem commitTail_absent (hs : st.source = none) (expectedOrdinal : ℤ)
    (checkpoint : DrainCheckpoint D) :
    wp (commitTail cfg now expectedOrdinal checkpoint) st (fun _ _ => False)
      (fun e t => e ∉ conflictTexts ∧ t = st) := by
  simp [commitTail, hs, conflictTexts]

end Commits

end CaptureCommits
