import OmiCollector.CaptureRows

/-! The invariant of one capture source, and the checks that it settles. -/
namespace CaptureInvariant

open ByteCodec AudioMachine CaptureModel RefusalLogic CaptureStore CaptureRows

variable {D : Type}

/-- A stored partial record stands right after the last accepted one. -/
structure TailAtFrontier (s : CaptureSource D) (t : CaptureTail) : Prop where
  complete : t.completeHighWater = s.committedCount
  offset : t.byteOffset = s.committedCount * audioRecordSize
  nonempty : 1 ≤ t.data.length
  bounded : t.data.length ≤ tailMaxBytes
  received : t.receivedHighWater = t.byteOffset + t.data.length
  unfinished : s.sequenceStart + s.committedCount < s.sequenceLimit

structure BoundLeg (s : CaptureSource D) : Prop where
  preparedStart : s.preparedStart = some s.currentLegStart
  preparedCount : s.preparedCount = some s.currentLegCount
  readBeginStart : s.readBeginStart = some s.currentLegStart
  readBeginCount : s.readBeginCount = some s.currentLegCount
  positive : 0 < s.currentLegCount

structure SourceInvariant (cfg : StoreConfig D) (st : Store D) (s : CaptureSource D) : Prop where
  contiguous : Contiguous 0 st.records
  count : st.records.length = s.committedCount
  valid : ∀ r ∈ st.records, r.Valid
  digest : s.committedSha256 = cfg.sha256 (rawLog st.records)
  range : s.sequenceStart + s.committedCount ≤ s.sequenceLimit
  width : s.sequenceLimit ≤ s.sequenceStart + maxProtocolUint32
  legFloor : s.sequenceStart ≤ s.currentLegStart
  legFrontier : s.currentLegStart ≤ s.sequenceStart + s.committedCount
  legLimit : s.currentLegStart + s.currentLegCount ≤ s.sequenceLimit
  receiving : s.lifecycle = .receiving → BoundLeg s
  tail : ∀ t, st.tail = some t → TailAtFrontier s t
  sealed : s.lifecycle = .sealedWaiting → s.sequenceStart + s.committedCount = s.sequenceLimit
  unblocked : s.lifecycle ≠ .blocked → st.conflicts = []
  prepared : ∀ n, s.preparedCount = some n → 0 < n

/-- A cached hash state is the byte log of some leading rows. -/
def CacheOk (cfg : StoreConfig D) (st : Store D) : Prop :=
  ∀ count digest state, st.digestCache = some (count, digest, state) →
    count ≤ st.records.length ∧ state = rawLog (st.records.take count) ∧
      digest = cfg.sha256 state

structure Integrity (cfg : StoreConfig D) (st : Store D) : Prop where
  cache : CacheOk cfg st
  absent : st.source = none → st.records = [] ∧ st.tail = none ∧ st.conflicts = []
  present : ∀ s, st.source = some s → SourceInvariant cfg st s

/-- The durable rows are the same; only the digest cache may differ. -/
structure Recached (cfg : StoreConfig D) (st t : Store D) : Prop where
  source : t.source = st.source
  records : t.records = st.records
  tail : t.tail = st.tail
  conflicts : t.conflicts = st.conflicts
  cache : CacheOk cfg t

theorem initial_integrity (cfg : StoreConfig D) : Integrity cfg initial := by
  refine ⟨?_, ?_, ?_⟩
  · intro count digest state h
    simp [initial] at h
  · intro _
    exact ⟨rfl, rfl, rfl⟩
  · intro s h
    simp [initial] at h

theorem Recached.refl {cfg : StoreConfig D} {st : Store D} (h : CacheOk cfg st) :
    Recached cfg st st := ⟨rfl, rfl, rfl, rfl, h⟩

theorem SourceInvariant.relocate {cfg : StoreConfig D} {st t : Store D} {s : CaptureSource D}
    (h : SourceInvariant cfg st s) (hr : t.records = st.records) (ht : t.tail = st.tail)
    (hc : s.lifecycle ≠ .blocked → t.conflicts = []) : SourceInvariant cfg t s := by
  obtain ⟨h1, h2, h3, h4, h5, h6, h7, h8, h9, h10, h11, h12, -, h14⟩ := h
  exact ⟨hr ▸ h1, hr ▸ h2, hr ▸ h3, hr ▸ h4, h5, h6, h7, h8, h9, h10,
    fun x hx => h11 x (ht ▸ hx), h12, hc, h14⟩

theorem SourceInvariant.congr {cfg : StoreConfig D} {st t : Store D} {s : CaptureSource D}
    (h : SourceInvariant cfg st s) (hr : t.records = st.records) (ht : t.tail = st.tail)
    (hc : t.conflicts = st.conflicts) : SourceInvariant cfg t s :=
  h.relocate hr ht (fun hb => hc ▸ h.unblocked hb)

theorem TailAtFrontier.congr {s s' : CaptureSource D} {t : CaptureTail} (h : TailAtFrontier s t)
    (hcount : s'.committedCount = s.committedCount) (hstart : s'.sequenceStart = s.sequenceStart)
    (hlimit : s'.sequenceLimit = s.sequenceLimit) : TailAtFrontier s' t := by
  obtain ⟨h1, h2, h3, h4, h5, h6⟩ := h
  exact ⟨hcount ▸ h1, hcount ▸ h2, h3, h4, h5, by rw [hcount, hstart, hlimit]; exact h6⟩

/-- A rewritten source row at the same frontier only has its leg and phase to justify. -/
theorem SourceInvariant.update {cfg : StoreConfig D} {st : Store D} {s s' : CaptureSource D}
    (h : SourceInvariant cfg st s) (hcount : s'.committedCount = s.committedCount)
    (hdigest : s'.committedSha256 = s.committedSha256)
    (hstart : s'.sequenceStart = s.sequenceStart) (hlimit : s'.sequenceLimit = s.sequenceLimit)
    (hfloor : s.sequenceStart ≤ s'.currentLegStart)
    (hfrontier : s'.currentLegStart ≤ s.sequenceStart + s.committedCount)
    (hleg : s'.currentLegStart + s'.currentLegCount ≤ s.sequenceLimit)
    (hreceiving : s'.lifecycle = .receiving → BoundLeg s')
    (hsealed : s'.lifecycle = .sealedWaiting →
      s.sequenceStart + s.committedCount = s.sequenceLimit)
    (hblocked : s'.lifecycle ≠ .blocked → st.conflicts = [])
    (hprepared : ∀ n, s'.preparedCount = some n → 0 < n) : SourceInvariant cfg st s' := by
  refine ⟨h.contiguous, hcount ▸ h.count, h.valid, hdigest ▸ h.digest, ?_, ?_, ?_, ?_, ?_,
    hreceiving, fun t ht => (h.tail t ht).congr hcount hstart hlimit, ?_, hblocked, hprepared⟩
  · rw [hstart, hcount, hlimit]; exact h.range
  · rw [hstart, hlimit]; exact h.width
  · rw [hstart]; exact hfloor
  · rw [hstart, hcount]; exact hfrontier
  · rw [hlimit]; exact hleg
  · rw [hstart, hcount, hlimit]; exact hsealed

theorem Recached.integrity {cfg : StoreConfig D} {st t : Store D} (h : Recached cfg st t)
    (hi : Integrity cfg st) : Integrity cfg t := by
  refine ⟨h.cache, ?_, ?_⟩
  · intro hs
    rw [h.records, h.tail, h.conflicts]
    exact hi.absent (h.source ▸ hs)
  · intro s hs
    exact (hi.present s (h.source ▸ hs)).congr h.records h.tail h.conflicts

section Checks

variable {st : Store D} {cfg : StoreConfig D} {s : CaptureSource D} {E : String → Store D → Prop}

@[simp] theorem wp_uint32 {Q : ℕ → Store D → Prop} (v : ℤ) (label : String) :
    wp (uint32 v label : StoreM D ℕ) st Q E ↔
      (0 ≤ v ∧ v ≤ maxProtocolUint32 → Q v.toNat st) ∧
        (¬ (0 ≤ v ∧ v ≤ maxProtocolUint32) → E (label ++ " is invalid") st) := by
  unfold uint32
  by_cases h : 0 ≤ v ∧ v ≤ maxProtocolUint32 <;> simp [h]

@[simp] theorem wp_uint64 {Q : ℕ → Store D → Prop} (v : ℤ) (label : String) :
    wp (uint64 v label : StoreM D ℕ) st Q E ↔
      (0 ≤ v ∧ v ≤ uint64Max → Q v.toNat st) ∧
        (¬ (0 ≤ v ∧ v ≤ uint64Max) → E (label ++ " is invalid") st) := by
  unfold uint64
  by_cases h : 0 ≤ v ∧ v ≤ uint64Max <;> simp [h]

@[simp] theorem wp_fromExcept_ok {α : Type} {Q : α → Store D → Prop} (a : α) :
    wp (fromExcept (.ok a) : StoreM D α) st Q E ↔ Q a st := Iff.rfl

@[simp] theorem wp_requireSource {Q : CaptureSource D → Store D → Prop} :
    wp (requireSource : StoreM D _) st Q E ↔
      (st.source = none → E "source does not exist" st) ∧ (∀ s, st.source = some s → Q s st) := by
  simp [requireSource]

theorem exec_validateReceivingLeg {expected count : ℕ} (hl : s.lifecycle = .receiving)
    (hb : BoundLeg s) (hpos : 0 < count) (hfloor : s.currentLegStart ≤ s.sequenceStart + expected)
    (hlimit : s.sequenceStart + expected + count ≤ s.currentLegStart + s.currentLegCount) :
    exec (validateReceivingLeg s expected count s.currentLegGeneration) st = (.ok (), st) := by
  have hpersist := (data_persist_iff s.lifecycle).mpr hl
  have hcount : s.currentLegCount ≠ 0 := hb.positive.ne'
  have hwp : wp (validateReceivingLeg s expected count s.currentLegGeneration) st
      (fun _ t => t = st) (fun _ _ => False) := by
    simp only [validateReceivingLeg, wp_bind, wp_refuseIf, hpersist, hb.preparedStart,
      hb.preparedCount, hb.readBeginStart, hb.readBeginCount]
    simp [hcount]
    omega
  exact exec_of_wp hwp

variable [DecidableEq D]

theorem exec_checkSourceSnapshot (h : st.source = some s) (text : String) :
    exec (checkSourceSnapshot s text) st = (.ok (), st) := by
  have hwp : wp (checkSourceSnapshot s text) st (fun _ t => t = st) (fun _ _ => False) := by
    simp [checkSourceSnapshot, h]
  exact exec_of_wp hwp

/-- A receiving source passes the recheck inside every write transaction. -/
theorem exec_recheckSource (hs : st.source = some s) (hi : SourceInvariant cfg st s)
    (hl : s.lifecycle = .receiving) : exec (recheckSource s) st = (.ok (), st) := by
  have hb := hi.receiving hl
  have hfloor := hi.legFloor
  have hpos := hb.positive
  have hleg : exec (validateReceivingLeg s (s.currentLegStart - s.sequenceStart) 1
      s.currentLegGeneration) st = (.ok (), st) :=
    exec_validateReceivingLeg hl hb one_pos (by omega) (by omega)
  unfold recheckSource
  rw [exec_bind, exec_checkSourceSnapshot hs]
  exact hleg

end Checks

end CaptureInvariant
