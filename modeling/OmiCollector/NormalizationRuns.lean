import OmiCollector.ByteCodec
import OmiCollector.Checks
import OmiCollector.Tiling

/-! The stored normalization runs of a replay proof: fixed-size frames that must tile the records
in order. The encoder and the decoder check the runs separately; both accept exactly the pairs of
a run list and its one encoding. -/
namespace NormalizationRuns

open ByteCodec Checks Tiling

def uint64Max : ℤ := 2 ^ 64 - 1

def boundaryMask : ℤ := 3

inductive NormalizationMode where
  | raw
  | mapped
  deriving DecidableEq, Repr

namespace NormalizationMode

def value : NormalizationMode → ℕ
  | raw => 0
  | mapped => 1

def ofValue : ℕ → Option NormalizationMode
  | 0 => some raw
  | 1 => some mapped
  | _ => none

@[simp] theorem ofValue_value (m : NormalizationMode) : ofValue m.value = some m := by
  cases m <;> rfl

theorem value_of_ofValue {n : ℕ} {m : NormalizationMode} (h : ofValue n = some m) :
    m.value = n := by
  match n, h with
  | 0, h => cases h; rfl
  | 1, h => cases h; rfl

theorem value_lt (m : NormalizationMode) : m.value < 256 := by cases m <;> decide

end NormalizationMode

/-- A double as its bit pattern. -/
abbrev Float64 := BitVec 64

namespace Float64

/-- The exponent field is not all ones. -/
def IsFinite (f : Float64) : Prop := f.extractLsb' 52 11 ≠ BitVec.allOnes 11

/-- Positive or negative zero. -/
def IsZero (f : Float64) : Prop := f.extractLsb' 0 63 = 0

/-- The sign that `copysign` reads, also of a zero. -/
def IsNegative (f : Float64) : Prop := f.msb = true

instance (f : Float64) : Decidable (IsFinite f) := inferInstanceAs (Decidable (_ ≠ _))

instance (f : Float64) : Decidable (IsZero f) := inferInstanceAs (Decidable (_ = _))

instance (f : Float64) : Decidable (IsNegative f) := inferInstanceAs (Decidable (_ = _))

end Float64

structure NormalizationRun where
  firstRecordIndex : ℤ
  nextRecordIndex : ℤ
  offsetSeconds : Float64
  mode : NormalizationMode
  boundaryBefore : ℤ
  deriving DecidableEq, Repr

def NormalizationRun.span (r : NormalizationRun) : ℤ × ℤ := (r.firstRecordIndex, r.nextRecordIndex)

def validateCount (count : ℤ) : Except String Unit :=
  refuse (¬ (0 ≤ count ∧ count ≤ uint64Max)) "record count is outside uint64"

def validateRun (r : NormalizationRun) : Except String Unit := do
  refuse (¬ (0 ≤ r.firstRecordIndex ∧ r.firstRecordIndex < r.nextRecordIndex ∧
    r.nextRecordIndex ≤ uint64Max)) "normalization run is invalid"
  refuse (¬ r.offsetSeconds.IsFinite) "normalization run is invalid"
  refuse (¬ (0 ≤ r.boundaryBefore ∧ r.boundaryBefore ≤ boundaryMask))
    "normalization run is invalid"
  refuse (r.mode = .raw ∧ (¬ r.offsetSeconds.IsZero ∨ r.offsetSeconds.IsNegative))
    "normalization run is invalid"

/-- What a run must satisfy by itself. -/
structure ValidRun (r : NormalizationRun) : Prop where
  first_nonneg : 0 ≤ r.firstRecordIndex
  nonempty : r.firstRecordIndex < r.nextRecordIndex
  next_le : r.nextRecordIndex ≤ uint64Max
  finite : r.offsetSeconds.IsFinite
  boundary_nonneg : 0 ≤ r.boundaryBefore
  boundary_le : r.boundaryBefore ≤ boundaryMask
  raw : r.mode = .raw → r.offsetSeconds.IsZero ∧ ¬ r.offsetSeconds.IsNegative

/-- The bytes of one frame, `>QQdBB6x`. -/
def packRun (r : NormalizationRun) : Bytes :=
  toBytesBig 8 r.firstRecordIndex.toNat ++ (toBytesBig 8 r.nextRecordIndex.toNat ++
    (toBytesBig 8 r.offsetSeconds.toNat ++ (toBytesBig 1 r.mode.value ++
      (toBytesBig 1 r.boundaryBefore.toNat ++ List.replicate 6 0))))

def runSize : ℕ := 32

/-- Decode one frame; its reserved bytes and its mode are checked here. -/
def unpackRun (frame : Bytes) : Except String NormalizationRun := do
  refuse (field frame 26 6 ≠ List.replicate 6 0) "normalization run reserved bytes must be zero"
  match NormalizationMode.ofValue (fromBytesBig (field frame 24 1)) with
  | none => throw "normalization mode is invalid"
  | some mode =>
    pure {
      firstRecordIndex := fromBytesBig (field frame 0 8)
      nextRecordIndex := fromBytesBig (field frame 8 8)
      offsetSeconds := BitVec.ofNat 64 (fromBytesBig (field frame 16 8))
      mode := mode
      boundaryBefore := fromBytesBig (field frame 25 1) }

/-- The encoder's loop from record `next` on. -/
def packFrom (recordCount : ℤ) : ℤ → List NormalizationRun → Except String Bytes
  | next, [] => do
    refuse (next ≠ recordCount) "normalization runs must cover every record"
    pure []
  | next, run :: runs => do
    validateRun run
    refuse (run.firstRecordIndex ≠ next ∨ recordCount < run.nextRecordIndex)
      "normalization runs must be sorted and exhaustive"
    let packed ← packFrom recordCount run.nextRecordIndex runs
    pure (packRun run ++ packed)

def packNormalizationRuns (runs : List NormalizationRun) (recordCount : ℤ) :
    Except String Bytes := do
  validateCount recordCount
  packFrom recordCount 0 runs

/-- The decoder's loop from record `next` on. -/
def unpackFrom (recordCount : ℤ) : ℤ → List Bytes → Except String (List NormalizationRun)
  | next, [] => do
    refuse (next ≠ recordCount) "normalization runs must cover every record"
    pure []
  | next, frame :: frames => do
    let run ← unpackRun frame
    validateRun run
    refuse (run.firstRecordIndex ≠ next ∨ recordCount < run.nextRecordIndex)
      "normalization runs must be sorted and exhaustive"
    let runs ← unpackFrom recordCount run.nextRecordIndex frames
    pure (run :: runs)

def unpackNormalizationRuns (blob : Bytes) (recordCount : ℤ) :
    Except String (List NormalizationRun) := do
  validateCount recordCount
  refuse (blob.length % runSize ≠ 0) "normalization run blob has invalid length"
  unpackFrom recordCount 0 (frames runSize blob)

theorem validateCount_ok {count : ℤ} {u : Unit} :
    validateCount count = .ok u ↔ 0 ≤ count ∧ count ≤ uint64Max := by
  simp [validateCount]

theorem validateRun_ok {r : NormalizationRun} {u : Unit} :
    validateRun r = .ok u ↔ ValidRun r := by
  simp only [validateRun, bind_ok, refuse_ok, not_not, exists_const]
  constructor
  · rintro ⟨⟨h₁, h₂, h₃⟩, h₄, ⟨h₅, h₆⟩, h₇⟩
    exact ⟨h₁, h₂, h₃, h₄, h₅, h₆, fun hraw => by simpa [hraw] using h₇⟩
  · rintro ⟨h₁, h₂, h₃, h₄, h₅, h₆, h₇⟩
    refine ⟨⟨h₁, h₂, h₃⟩, h₄, ⟨h₅, h₆⟩, ?_⟩
    rintro ⟨hraw, hbad⟩
    have hzero := h₇ hraw
    tauto

@[simp] theorem length_packRun (r : NormalizationRun) : (packRun r).length = runSize := by
  simp [packRun, runSize]

/-- The fields of a frame are where the decoder reads them. -/
theorem packRun_fields (r : NormalizationRun) :
    field (packRun r) 0 8 = toBytesBig 8 r.firstRecordIndex.toNat ∧
      field (packRun r) 8 8 = toBytesBig 8 r.nextRecordIndex.toNat ∧
      field (packRun r) 16 8 = toBytesBig 8 r.offsetSeconds.toNat ∧
      field (packRun r) 24 1 = toBytesBig 1 r.mode.value ∧
      field (packRun r) 25 1 = toBytesBig 1 r.boundaryBefore.toNat ∧
      field (packRun r) 26 6 = List.replicate 6 0 := by
  refine ⟨?_, ?_, ?_, ?_, ?_, ?_⟩ <;>
    simp [packRun, field_append_left, field_append_right, field_self]

/-- Decoding the frame of a valid run gives the run back. -/
theorem unpackRun_packRun {r : NormalizationRun} (h : ValidRun r) :
    unpackRun (packRun r) = .ok r := by
  have hnext := h.next_le
  have hboundary := h.boundary_le
  simp only [uint64Max] at hnext
  simp only [boundaryMask] at hboundary
  have first : fromBytesBig (toBytesBig 8 r.firstRecordIndex.toNat) = r.firstRecordIndex.toNat :=
    fromBytesBig_toBytesBig (by have := h.nonempty; omega)
  have next : fromBytesBig (toBytesBig 8 r.nextRecordIndex.toNat) = r.nextRecordIndex.toNat :=
    fromBytesBig_toBytesBig (by omega)
  have offset : fromBytesBig (toBytesBig 8 r.offsetSeconds.toNat) = r.offsetSeconds.toNat :=
    fromBytesBig_toBytesBig r.offsetSeconds.isLt
  have mode : fromBytesBig (toBytesBig 1 r.mode.value) = r.mode.value :=
    fromBytesBig_toBytesBig (by simpa using r.mode.value_lt)
  have boundary : fromBytesBig (toBytesBig 1 r.boundaryBefore.toNat) = r.boundaryBefore.toNat :=
    fromBytesBig_toBytesBig (by omega)
  obtain ⟨h₁, h₂, h₃, h₄, h₅, h₆⟩ := packRun_fields r
  have hfirst : (r.firstRecordIndex.toNat : ℤ) = r.firstRecordIndex :=
    Int.toNat_of_nonneg h.first_nonneg
  have hnext' : (r.nextRecordIndex.toNat : ℤ) = r.nextRecordIndex :=
    Int.toNat_of_nonneg (by have := h.nonempty; have := h.first_nonneg; omega)
  have hboundary' : (r.boundaryBefore.toNat : ℤ) = r.boundaryBefore :=
    Int.toNat_of_nonneg h.boundary_nonneg
  simp only [unpackRun, bind_ok, refuse_ok, exists_const, h₁, h₂, h₃, h₄, h₅, h₆, first, next,
    offset, mode, boundary, NormalizationMode.ofValue_value, hfirst, hnext', hboundary',
    BitVec.ofNat_toNat, BitVec.setWidth_eq, pure_ok, ne_eq, not_true_eq_false, not_false_eq_true,
    true_and]

/-- A frame that decodes is the encoding of what it decodes to. -/
theorem packRun_unpackRun {frame : Bytes} (hlen : frame.length = runSize) {r : NormalizationRun}
    (h : unpackRun frame = .ok r) : packRun r = frame := by
  simp only [unpackRun, bind_ok, refuse_ok, exists_const, ne_eq, not_not] at h
  obtain ⟨hreserved, h⟩ := h
  cases hmode : NormalizationMode.ofValue (fromBytesBig (field frame 24 1)) with
  | none => simp [hmode] at h
  | some mode =>
    simp only [hmode, pure_ok] at h
    subst h
    simp only [runSize] at hlen
    have hoffset := @fromBytesBig_field_lt frame 16 8 (by omega)
    have hpattern : (BitVec.ofNat 64 (fromBytesBig (field frame 16 8))).toNat =
        fromBytesBig (field frame 16 8) := by
      rw [BitVec.toNat_ofNat]
      exact Nat.mod_eq_of_lt hoffset
    simp only [packRun, Int.toNat_natCast, hpattern, NormalizationMode.value_of_ofValue hmode,
      ← hreserved]
    rw [toBytesBig_field (by omega), toBytesBig_field (by omega), toBytesBig_field (by omega),
      toBytesBig_field (by omega), toBytesBig_field (by omega), field_append_field frame 25 1 6,
      field_append_field frame 24 1 7, field_append_field frame 16 8 8,
      field_append_field frame 8 8 16, field_append_field frame 0 8 24, field_self hlen]

/-- Valid runs that tile the records from `next` to `recordCount`. -/
def Exhaustive (next recordCount : ℤ) (runs : List NormalizationRun) : Prop :=
  (∀ r ∈ runs, ValidRun r) ∧ Tiles next (runs.map NormalizationRun.span) recordCount

theorem exhaustive_cons {next recordCount : ℤ} {r : NormalizationRun}
    {runs : List NormalizationRun} : Exhaustive next recordCount (r :: runs) ↔
      ValidRun r ∧ r.firstRecordIndex = next ∧
        Exhaustive r.nextRecordIndex recordCount runs := by
  simp only [Exhaustive, List.forall_mem_cons, List.map_cons, Tiles, NormalizationRun.span]
  constructor
  · rintro ⟨⟨hr, hruns⟩, hfirst, -, htiles⟩
    exact ⟨hr, hfirst, hruns, htiles⟩
  · rintro ⟨hr, hfirst, hruns, htiles⟩
    exact ⟨⟨hr, hruns⟩, hfirst, hr.nonempty, htiles⟩

/-- The encoder succeeds on exhaustive runs only, with the concatenation of their frames. -/
theorem packFrom_ok {recordCount next : ℤ} {runs : List NormalizationRun} {b : Bytes} :
    packFrom recordCount next runs = .ok b ↔
      Exhaustive next recordCount runs ∧ b = (runs.map packRun).flatten := by
  induction runs generalizing next b with
  | nil =>
    simp only [packFrom, bind_ok, refuse_ok, exists_const, pure_ok, ne_eq, not_not, Exhaustive,
      List.map_nil, Tiles, List.flatten_nil]
    simp [eq_comm]
  | cons r runs ih =>
    simp only [packFrom, bind_ok, validateRun_ok, refuse_ok, exists_const, pure_ok, ih,
      exhaustive_cons, List.map_cons, List.flatten_cons]
    constructor
    · rintro ⟨hr, hfirst, b, ⟨hruns, rfl⟩, rfl⟩
      exact ⟨⟨hr, by tauto, hruns⟩, rfl⟩
    · rintro ⟨⟨hr, hfirst, hruns⟩, rfl⟩
      have hle := hruns.2.le
      exact ⟨hr, by push Not; exact ⟨hfirst, hle⟩, _, ⟨hruns, rfl⟩, rfl⟩

/-- The decoder succeeds on the frames of exhaustive runs only. -/
theorem unpackFrom_ok {recordCount next : ℤ} {blocks : List Bytes}
    (hlen : ∀ b ∈ blocks, b.length = runSize) {runs : List NormalizationRun} :
    unpackFrom recordCount next blocks = .ok runs ↔
      Exhaustive next recordCount runs ∧ blocks = runs.map packRun := by
  induction blocks generalizing next runs with
  | nil =>
    simp only [unpackFrom, bind_ok, refuse_ok, exists_const, pure_ok, ne_eq, not_not]
    constructor
    · rintro ⟨hnext, rfl⟩
      exact ⟨⟨by simp, hnext⟩, rfl⟩
    · rintro ⟨h, hruns⟩
      obtain rfl : runs = [] := by simpa using hruns.symm
      exact ⟨h.2, rfl⟩
  | cons frame blocks ih =>
    have htail : ∀ b ∈ blocks, b.length = runSize :=
      fun b hb => hlen b (List.mem_cons_of_mem _ hb)
    simp only [unpackFrom, bind_ok, validateRun_ok, refuse_ok, exists_const, pure_ok, ih htail]
    constructor
    · rintro ⟨r, hframe, hr, hfirst, rest, ⟨hrest, rfl⟩, rfl⟩
      refine ⟨exhaustive_cons.mpr ⟨hr, by tauto, hrest⟩, ?_⟩
      rw [List.map_cons, packRun_unpackRun (hlen frame (by simp)) hframe]
    · rintro ⟨h, hblocks⟩
      cases runs with
      | nil => simp at hblocks
      | cons r rest =>
        obtain ⟨rfl, rfl⟩ := by simpa using hblocks
        obtain ⟨hr, hfirst, hrest⟩ := exhaustive_cons.mp h
        have hle := hrest.2.le
        exact ⟨r, unpackRun_packRun hr, hr, by push Not; exact ⟨hfirst, hle⟩, rest,
          ⟨hrest, rfl⟩, rfl⟩

theorem pack_ok {runs : List NormalizationRun} {recordCount : ℤ} {b : Bytes} :
    packNormalizationRuns runs recordCount = .ok b ↔
      (0 ≤ recordCount ∧ recordCount ≤ uint64Max) ∧ Exhaustive 0 recordCount runs ∧
        b = (runs.map packRun).flatten := by
  simp only [packNormalizationRuns, bind_ok, validateCount_ok, exists_const, packFrom_ok]

/-- The decoder accepts exactly what the encoder produces. -/
theorem unpack_ok_iff_pack_ok {runs : List NormalizationRun} {recordCount : ℤ} {b : Bytes} :
    unpackNormalizationRuns b recordCount = .ok runs ↔
      packNormalizationRuns runs recordCount = .ok b := by
  have hsize : 0 < runSize := by decide
  have hframes : ∀ frame ∈ runs.map packRun, frame.length = runSize := by simp
  simp only [unpackNormalizationRuns, bind_ok, validateCount_ok, refuse_ok, exists_const, pack_ok,
    ne_eq, not_not]
  refine and_congr_right fun _ => ?_
  rw [unpackFrom_ok (fun _ => length_of_mem_frames)]
  constructor
  · rintro ⟨hmod, hruns, hblocks⟩
    exact ⟨hruns, by rw [← hblocks, flatten_frames hsize hmod]⟩
  · rintro ⟨hruns, rfl⟩
    exact ⟨length_flatten_mod hframes, hruns, frames_flatten hsize hframes⟩

/-- Exhaustive runs fit the count's range by themselves. -/
theorem Exhaustive.count_range {recordCount : ℤ} {runs : List NormalizationRun}
    (h : Exhaustive 0 recordCount runs) : 0 ≤ recordCount ∧ recordCount ≤ uint64Max := by
  obtain ⟨hvalid, htiles⟩ := h
  refine ⟨htiles.le, htiles.stop_le (by decide) ?_⟩
  simp only [List.forall_mem_map]
  exact fun r hr => (hvalid r hr).next_le

/-- The codec is a bijection between the exhaustive run lists and the accepted blobs. -/
theorem normalization_run_codec (recordCount : ℤ) :
    (∀ runs, (∃ blob, packNormalizationRuns runs recordCount = .ok blob) ↔
      (∀ r ∈ runs, ValidRun r) ∧ Tiles 0 (runs.map NormalizationRun.span) recordCount) ∧
    (∀ runs blob, packNormalizationRuns runs recordCount = .ok blob →
      unpackNormalizationRuns blob recordCount = .ok runs) ∧
    (∀ blob runs, unpackNormalizationRuns blob recordCount = .ok runs →
      packNormalizationRuns runs recordCount = .ok blob) ∧
    (∀ blob blob' runs, unpackNormalizationRuns blob recordCount = .ok runs →
      unpackNormalizationRuns blob' recordCount = .ok runs → blob = blob') := by
  refine ⟨?_, ?_, ?_, ?_⟩
  · intro runs
    constructor
    · rintro ⟨blob, h⟩
      exact (pack_ok.mp h).2.1
    · intro (h : Exhaustive 0 recordCount runs)
      exact ⟨_, pack_ok.mpr ⟨h.count_range, h, rfl⟩⟩
  · exact fun runs blob h => unpack_ok_iff_pack_ok.mpr h
  · exact fun blob runs h => unpack_ok_iff_pack_ok.mp h
  · intro blob blob' runs h h'
    have hpack := unpack_ok_iff_pack_ok.mp h
    have hpack' := unpack_ok_iff_pack_ok.mp h'
    exact Except.ok.inj (hpack.symm.trans hpack')

/-- A raw run before a mapped one with an offset of 1.0 and a typed boundary. -/
def twoRuns : List NormalizationRun :=
  [⟨0, 3, 0x0000000000000000, .raw, 0⟩, ⟨3, 5, 0x3ff0000000000000, .mapped, 2⟩]

theorem normalization_run_codec_two_runs :
    ∃ blob, packNormalizationRuns twoRuns 5 = .ok blob ∧
      unpackNormalizationRuns blob 5 = .ok twoRuns ∧ blob.length = 64 := by
  obtain ⟨hpack, hunpack, -, -⟩ := normalization_run_codec 5
  have hvalid : ∀ r ∈ twoRuns, ValidRun r := by
    have hchecks : ∀ r ∈ twoRuns, validateRun r = .ok () := by decide
    exact fun r hr => validateRun_ok.mp (hchecks r hr)
  obtain ⟨blob, h⟩ := (hpack twoRuns).mpr ⟨hvalid, rfl, by decide, rfl, by decide, rfl⟩
  refine ⟨blob, h, hunpack _ _ h, ?_⟩
  rw [(pack_ok.mp h).2.2]
  simp [twoRuns, runSize]

end NormalizationRuns
