import Mathlib.Data.List.Basic
import Mathlib.Data.List.Induction
import Mathlib.Tactic.Ring

/-! Byte strings and fixed-width big-endian integers. -/
namespace ByteCodec

abbrev Bytes := List UInt8

/-- Unsigned big-endian decoding of a byte string of any length. -/
def fromBytesBig (b : Bytes) : ℕ := b.foldl (fun n x => n * 256 + x.toNat) 0

/-- Unsigned big-endian encoding in exactly `width` bytes, modulo `256 ^ width`. -/
def toBytesBig : ℕ → ℕ → Bytes
  | 0, _ => []
  | width + 1, n => toBytesBig width (n / 256) ++ [UInt8.ofNat n]

@[simp] theorem fromBytesBig_nil : fromBytesBig [] = 0 := rfl

@[simp] theorem fromBytesBig_snoc (b : Bytes) (x : UInt8) :
    fromBytesBig (b ++ [x]) = fromBytesBig b * 256 + x.toNat := by
  simp [fromBytesBig]

@[simp] theorem length_toBytesBig (width n : ℕ) : (toBytesBig width n).length = width := by
  induction width generalizing n with
  | zero => rfl
  | succ width ih => simp [toBytesBig, ih]

theorem fromBytesBig_lt (b : Bytes) : fromBytesBig b < 256 ^ b.length := by
  induction b using List.reverseRecOn with
  | nil => simp
  | append_singleton b x ih =>
    have hx := x.toNat_lt
    rw [fromBytesBig_snoc, List.length_append, List.length_singleton, pow_succ]
    omega

/-- Encoding at the string's own width inverts decoding. -/
theorem toBytesBig_fromBytesBig (b : Bytes) : toBytesBig b.length (fromBytesBig b) = b := by
  induction b using List.reverseRecOn with
  | nil => rfl
  | append_singleton b x ih =>
    have hx := x.toNat_lt
    have hdiv : (fromBytesBig b * 256 + x.toNat) / 256 = fromBytesBig b := by omega
    have hlast : UInt8.ofNat (fromBytesBig b * 256 + x.toNat) = x := by
      apply UInt8.toNat_inj.mp
      simp only [UInt8.toNat_ofNat']
      omega
    rw [fromBytesBig_snoc, List.length_append, List.length_singleton, toBytesBig, hdiv, hlast, ih]

theorem fromBytesBig_toBytesBig {width n : ℕ} (h : n < 256 ^ width) :
    fromBytesBig (toBytesBig width n) = n := by
  induction width generalizing n with
  | zero => simp only [pow_zero, Nat.lt_one_iff] at h; simp [toBytesBig, h]
  | succ width ih =>
    have hdiv : n / 256 < 256 ^ width := by rw [pow_succ] at h; omega
    rw [toBytesBig, fromBytesBig_snoc, ih hdiv, UInt8.toNat_ofNat']
    omega

/-- The bytes `[offset, offset + width)`. -/
def field (b : Bytes) (offset width : ℕ) : Bytes := (b.drop offset).take width

theorem length_field {b : Bytes} {offset width : ℕ} (h : offset + width ≤ b.length) :
    (field b offset width).length = width := by
  simp only [field, List.length_take, List.length_drop]
  omega

theorem toBytesBig_field {b : Bytes} {offset width : ℕ} (h : offset + width ≤ b.length) :
    toBytesBig width (fromBytesBig (field b offset width)) = field b offset width := by
  have hfield := toBytesBig_fromBytesBig (field b offset width)
  rwa [length_field h] at hfield

theorem fromBytesBig_field_lt {b : Bytes} {offset width : ℕ} (h : offset + width ≤ b.length) :
    fromBytesBig (field b offset width) < 256 ^ width := by
  have hlt := fromBytesBig_lt (field b offset width)
  rwa [length_field h] at hlt

theorem field_append_left {b : Bytes} {width : ℕ} (h : b.length = width) (rest : Bytes) :
    field (b ++ rest) 0 width = b := by
  simp [field, ← h]

theorem field_append_right {b : Bytes} {offset : ℕ} (h : b.length ≤ offset) (rest : Bytes)
    (width : ℕ) : field (b ++ rest) offset width = field rest (offset - b.length) width := by
  rw [field, List.drop_append, List.drop_eq_nil_of_le h, List.nil_append, field]

theorem field_self {b : Bytes} {width : ℕ} (h : b.length = width) : field b 0 width = b := by
  simp [field, ← h]

theorem field_append_field (b : Bytes) (offset width more : ℕ) :
    field b offset width ++ field b (offset + width) more = field b offset (width + more) := by
  rw [field, field, field, List.take_add, List.drop_drop]

/-- The consecutive blocks of `size` bytes. -/
def frames (size : ℕ) (b : Bytes) : List Bytes :=
  (List.range (b.length / size)).map fun i => field b (i * size) size

theorem frames_append {size : ℕ} (hsize : 0 < size) {b : Bytes} (hb : b.length = size)
    (rest : Bytes) : frames size (b ++ rest) = b :: frames size rest := by
  have hcount : (b ++ rest).length / size = rest.length / size + 1 := by
    rw [List.length_append, hb, Nat.add_comm, Nat.add_div_right _ hsize]
  rw [frames, hcount, List.range_succ_eq_map, List.map_cons, List.map_map, frames]
  congr 1
  · simp [field, ← hb]
  · apply List.map_congr_left
    intro i _
    have hidx : (i + 1) * size = b.length + i * size := by rw [hb]; ring
    simp only [Function.comp, field, Nat.succ_eq_add_one, hidx]
    rw [← List.drop_drop, List.drop_left]

/-- Blocks of one size are found again in their concatenation. -/
theorem frames_flatten {size : ℕ} (hsize : 0 < size) {blocks : List Bytes}
    (h : ∀ b ∈ blocks, b.length = size) : frames size blocks.flatten = blocks := by
  induction blocks with
  | nil => simp [frames]
  | cons b blocks ih =>
    rw [List.flatten_cons, frames_append hsize (h b (by simp)),
      ih (fun x hx => h x (by simp [hx]))]

theorem length_of_mem_frames {size : ℕ} {b frame : Bytes} (h : frame ∈ frames size b) :
    frame.length = size := by
  obtain ⟨i, hi, rfl⟩ := List.mem_map.mp h
  apply length_field
  have hlt := List.mem_range.mp hi
  calc i * size + size = (i + 1) * size := by ring
    _ ≤ b.length / size * size := Nat.mul_le_mul_right _ hlt
    _ ≤ b.length := Nat.div_mul_le_self _ _

/-- A string of whole blocks is the concatenation of its blocks. -/
theorem flatten_frames {size : ℕ} (hsize : 0 < size) {b : Bytes} (h : b.length % size = 0) :
    (frames size b).flatten = b := by
  obtain ⟨count, hcount⟩ := Nat.dvd_of_mod_eq_zero h
  induction count generalizing b with
  | zero => simp_all [frames]
  | succ count ih =>
    have hlen : b.length = size + size * count := by rw [hcount]; ring
    have hhead : (b.take size).length = size := by rw [List.length_take]; omega
    have htail : (b.drop size).length = size * count := by rw [List.length_drop]; omega
    have hrest := ih (by rw [htail, Nat.mul_mod_right]) htail
    rw [← List.take_append_drop size b, frames_append hsize hhead, List.flatten_cons, hrest]

theorem length_flatten_blocks {size : ℕ} {blocks : List Bytes}
    (h : ∀ b ∈ blocks, b.length = size) : blocks.flatten.length = blocks.length * size := by
  induction blocks with
  | nil => simp
  | cons b blocks ih =>
    rw [List.flatten_cons, List.length_append, h b (by simp), List.length_cons,
      ih (fun x hx => h x (by simp [hx]))]
    ring

theorem length_flatten_mod {size : ℕ} {blocks : List Bytes} (h : ∀ b ∈ blocks, b.length = size) :
    blocks.flatten.length % size = 0 := by
  rw [length_flatten_blocks h, Nat.mul_mod_left]

/-- Some absolute position holds one byte in `known` and another in `bytes` placed at `offset`. -/
def Contradicts (known : Bytes) (offset : ℤ) (bytes : Bytes) : Prop :=
  ∃ (p k : ℕ) (a b : UInt8), (p : ℤ) = offset + k ∧ known[p]? = some a ∧ bytes[k]? = some b ∧ a ≠ b

/-- A string that is not an initial part of a longer one differs from it somewhere. -/
theorem exists_getElem?_ne {x y : Bytes} (hlen : x.length ≤ y.length) (h : ¬ x <+: y) :
    ∃ (k : ℕ) (a b : UInt8), x[k]? = some a ∧ y[k]? = some b ∧ a ≠ b := by
  by_contra hall
  push Not at hall
  apply h
  rw [List.prefix_iff_eq_take]
  apply List.ext_getElem?
  intro k
  by_cases hk : k < x.length
  · rw [List.getElem?_take_of_lt hk, List.getElem?_eq_getElem hk,
      List.getElem?_eq_getElem (show k < y.length by omega)]
    exact congrArg some (hall k _ _ (List.getElem?_eq_getElem hk) (List.getElem?_eq_getElem _))
  · rw [List.getElem?_eq_none (by omega), List.getElem?_eq_none (by simp; omega)]

/-- Indexing a concatenation of blocks of one size. -/
theorem getElem?_flatten_block {m : ℕ} {blocks : List Bytes} (h : ∀ b ∈ blocks, b.length = m)
    (i : ℕ) {k : ℕ} (hk : k < m) :
    blocks.flatten[i * m + k]? = (blocks[i]?).bind (fun b => b[k]?) := by
  induction blocks generalizing i with
  | nil => simp
  | cons b blocks ih =>
    have hb := h b (by simp)
    cases i with
    | zero => simp [List.getElem?_append_left (show k < b.length by omega)]
    | succ i =>
      have hidx : (i + 1) * m + k = b.length + (i * m + k) := by rw [hb]; ring
      rw [List.flatten_cons, hidx, List.getElem?_append_right (by omega), Nat.add_sub_cancel_left,
        ih (fun x hx => h x (by simp [hx])), List.getElem?_cons_succ]

end ByteCodec
