import OmiCollector.ByteCodec
import OmiCollector.Checks
import Mathlib.Data.List.SplitLengths
import Mathlib.Data.Nat.Bitwise
import Mathlib.Tactic.Linarith

/-! Opus packets and the collector's test for 20 ms of audio.

`Packing` and `WellFormed` state RFC 6716 section 3.2 over byte strings: a packet is its TOC byte,
the length fields of its packing code, the compressed frames and the padding. The functions below
them are the ones of the collector, which reads by index and never builds the frames. -/
namespace OpusPacket

open ByteCodec Checks

/-! ### Frame packing -/

/-- The one- or two-byte encoding of a frame length. -/
inductive FrameLength : Bytes → ℕ → Prop where
  | short {x : UInt8} (h : x.toNat < 252) : FrameLength [x] x.toNat
  | long {x y : UInt8} (h : 252 ≤ x.toNat) : FrameLength [x, y] (x.toNat + 4 * y.toNat)

/-- The padding length field. The byte 255 stands for 254 bytes of padding and one more
length byte. -/
inductive PaddingLength : Bytes → ℕ → Prop where
  | last {x : UInt8} (h : x.toNat < 255) : PaddingLength [x] x.toNat
  | more {x : UInt8} {field : Bytes} {n : ℕ} (h : x.toNat = 255) (hrest : PaddingLength field n) :
      PaddingLength (x :: field) (254 + n)

/-- The padding field of a frame count byte: absent unless its padding bit is set. -/
def PaddingField (control : UInt8) (field : Bytes) (n : ℕ) : Prop :=
  if control.toNat / 64 % 2 = 1 then PaddingLength field n else field = [] ∧ n = 0

/-- The frames of a packet under the four packing codes. -/
inductive Packing : Bytes → List Bytes → Prop where
  | one {toc : UInt8} {frame : Bytes} (hcode : toc.toNat % 4 = 0) : Packing (toc :: frame) [frame]
  | equalPair {toc : UInt8} {first second : Bytes} (hcode : toc.toNat % 4 = 1)
      (hsize : first.length = second.length) : Packing (toc :: (first ++ second)) [first, second]
  | pair {toc : UInt8} {size first second : Bytes} (hcode : toc.toNat % 4 = 2)
      (hsize : FrameLength size first.length) :
      Packing (toc :: (size ++ (first ++ second))) [first, second]
  | cbr {toc control : UInt8} {field padding : Bytes} {frames : List Bytes} {size : ℕ}
      (hcode : toc.toNat % 4 = 3) (hmode : control.toNat < 128)
      (hpad : PaddingField control field padding.length)
      (hcount : frames.length = control.toNat % 64) (hpos : 0 < frames.length)
      (hsize : ∀ f ∈ frames, f.length = size) :
      Packing (toc :: control :: (field ++ (frames.flatten ++ padding))) frames
  | vbr {toc control : UInt8} {field padding last : Bytes} {sizes frames : List Bytes}
      (hcode : toc.toNat % 4 = 3) (hmode : 128 ≤ control.toNat)
      (hpad : PaddingField control field padding.length)
      (hcount : frames.length + 1 = control.toNat % 64)
      (hsizes : List.Forall₂ FrameLength sizes (frames.map List.length)) :
      Packing (toc :: control :: (field ++ (sizes.flatten ++ (frames.flatten ++ last) ++ padding)))
        (frames ++ [last])

/-- Samples at 48 kHz of one frame, by the configuration number of the TOC byte. -/
def frameTable : List ℕ :=
  [480, 960, 1920, 2880, 480, 960, 1920, 2880, 480, 960, 1920, 2880, 480, 960, 480, 960,
   120, 240, 480, 960, 120, 240, 480, 960, 120, 240, 480, 960, 120, 240, 480, 960]

/-- Samples of one frame of a packet. -/
def frameSamples : Bytes → ℕ
  | [] => 0
  | toc :: _ => frameTable.getD (toc.toNat / 8) 0

/-- A packet with its frames: no frame over 1275 bytes and at most 120 ms of audio. -/
structure WellFormed (packet : Bytes) (frames : List Bytes) : Prop where
  packing : Packing packet frames
  frameBound : ∀ f ∈ frames, f.length ≤ 1275
  durationBound : frames.length * frameSamples packet ≤ 5760

/-- 20 ms of audio in non-empty frames. -/
def Holds20ms (packet : Bytes) : Prop :=
  ∃ frames, WellFormed packet frames ∧ (∀ f ∈ frames, f ≠ []) ∧
    frames.length * frameSamples packet = 960

/-! ### The collector's test -/

/-- What reading a record can raise. -/
inductive FramingError where
  | indexError
  | valueError (message : String)
  deriving DecidableEq, Repr

/-- Indexing a byte string or a tuple. -/
def index {α : Type} (xs : List α) (i : ℕ) : Except FramingError α :=
  match xs[i]? with
  | none => .error .indexError
  | some x => .ok x

/-- `_duration`. -/
def duration (config : ℕ) : Except FramingError ℕ :=
  if config < 12 then index [480, 960, 1920, 2880] (config &&& 3)
  else if config < 16 then index [480, 960] (config &&& 1)
  else index [120, 240, 480, 960] (config &&& 3)

/-- `_length`: the length field at `cursor` and the position after it. -/
def length (packet : Bytes) (cursor : ℕ) (stop : ℤ) : Except FramingError (Option ℕ × ℕ) :=
  if cursor ≥ stop then .ok (none, cursor)
  else do
    let value ← index packet cursor
    if value.toNat < 252 then .ok (some value.toNat, cursor + 1)
    else if (cursor + 1 : ℕ) ≥ stop then .ok (none, cursor + 1)
    else do
      let more ← index packet (cursor + 1)
      .ok (some (value.toNat + 4 * more.toNat), cursor + 2)

/-- The loop of `_padding`. -/
def paddingFrom (packet : Bytes) (cursor padding : ℕ) : Except FramingError (ℕ × ℕ) :=
  if cursor < packet.length then do
    let value ← index packet cursor
    if value.toNat ≠ 255 then .ok (cursor + 1, padding + value.toNat)
    else paddingFrom packet (cursor + 1) (padding + value.toNat)
  else .ok (packet.length + 1, padding)
termination_by packet.length - cursor

/-- `_padding`. -/
def padding (packet : Bytes) (control : ℕ) : Except FramingError (ℕ × ℕ) :=
  if control &&& 0x40 = 0 then .ok (2, 0) else paddingFrom packet 2 0

/-- `_valid_cbr_frames`. -/
def validCbrFrames (count cursor : ℕ) (stop : ℤ) : Bool :=
  decide (stop - cursor > 0) && decide ((stop - cursor) % count = 0)

/-- The loop of `_valid_vbr_frames` with `rounds` sizes left to read. -/
def vbrFrames (packet : Bytes) (stop : ℤ) : ℕ → ℕ → List ℕ → Except FramingError Bool
  | 0, cursor, sizes => .ok (decide (stop - cursor - sizes.sum > 0))
  | rounds + 1, cursor, sizes => do
    let (size, cursor) ← length packet cursor stop
    match size with
    | none => .ok false
    | some size =>
      if size = 0 then .ok false else vbrFrames packet stop rounds cursor (sizes ++ [size])

/-- `_valid_vbr_frames`. -/
def validVbrFrames (packet : Bytes) (count cursor : ℕ) (stop : ℤ) : Except FramingError Bool :=
  vbrFrames packet stop (count - 1) cursor []

/-- The choice of `_multi_count` between the two modes. -/
def validFrames (packet : Bytes) (control count cursor : ℕ) (stop : ℤ) :
    Except FramingError Bool :=
  if control &&& 0x80 ≠ 0 then validVbrFrames packet count cursor stop
  else .ok (validCbrFrames count cursor stop)

/-- `_multi_count`. -/
def multiCount (packet : Bytes) : Except FramingError (Option ℕ) :=
  if packet.length < 2 then .ok none
  else do
    let control ← index packet 1
    let count := control.toNat &&& 0x3F
    if ¬ (1 ≤ count ∧ count ≤ 48) then .ok none
    else do
      let (cursor, padding) ← padding packet control.toNat
      let stop : ℤ := (packet.length : ℤ) - padding
      if ¬ (cursor : ℤ) ≤ stop then .ok none
      else do
        let valid ← validFrames packet control.toNat count cursor stop
        .ok (if valid then some count else none)

/-- `_vbr_two_count`. -/
def vbrTwoCount (packet : Bytes) : Except FramingError (Option ℕ) := do
  let (first, cursor) ← length packet 1 packet.length
  match first with
  | none => .ok none
  | some first =>
    .ok (if first > 0 ∧ cursor < packet.length ∧ cursor + first < packet.length then some 2
      else none)

/-- `_frame_count`. -/
def frameCount (packet : Bytes) (code : ℕ) : Except FramingError (Option ℕ) :=
  if code = 0 then .ok (if packet.length > 1 then some 1 else none)
  else if code = 1 then
    .ok (if packet.length > 2 ∧ (packet.length - 1) % 2 = 0 then some 2 else none)
  else if code = 2 then vbrTwoCount packet
  else multiCount packet

/-- `_is_20ms`. -/
def is20ms (packet : Bytes) : Except FramingError Bool :=
  if packet.isEmpty then .ok false
  else do
    let toc ← index packet 0
    let duration ← duration (toc.toNat >>> 3)
    let frames ← frameCount packet (toc.toNat &&& 3)
    .ok (match frames with
      | none => false
      | some frames => decide (frames * duration = 960))

/-! ### Bits of the control bytes -/

theorem and_three (n : ℕ) : n &&& 3 = n % 4 := Nat.and_two_pow_sub_one_eq_mod n 2

theorem and_count (n : ℕ) : n &&& 0x3F = n % 64 := Nat.and_two_pow_sub_one_eq_mod n 6

theorem shift_three (n : ℕ) : n >>> 3 = n / 8 := Nat.shiftRight_eq_div_pow n 3

/-- One bit of a number, as a mask tests it. -/
theorem mask_bit (n i : ℕ) : n &&& 2 ^ i = 0 ↔ ¬ n / 2 ^ i % 2 = 1 := by
  rw [Nat.and_comm, Nat.two_pow_and, Nat.testBit_eq_decide_div_mod_eq]
  by_cases hbit : n / 2 ^ i % 2 = 1 <;> simp [hbit]

theorem padding_bit (n : ℕ) : n &&& 0x40 = 0 ↔ ¬ n / 64 % 2 = 1 := mask_bit n 6

theorem vbr_bit {n : ℕ} (hn : n < 256) : n &&& 0x80 ≠ 0 ↔ 128 ≤ n := by
  have h : n &&& 0x80 = 0 ↔ ¬ n / 128 % 2 = 1 := mask_bit n 7
  rw [Ne, h]
  omega

theorem index_ok {α : Type} {xs : List α} {i : ℕ} {x : α} :
    index xs i = .ok x ↔ xs[i]? = some x := by
  cases h : xs[i]? <;> simp [index, h]

/-- The duration table of the collector is the one of the configuration numbers. -/
theorem duration_eq {config : ℕ} (h : config < 32) :
    duration config = .ok (frameTable.getD config 0) := by
  have hall : ∀ c < 32, duration c = .ok (frameTable.getD c 0) := by decide
  exact hall config h

theorem frameSamples_pos {packet : Bytes} (h : packet ≠ []) : 120 ≤ frameSamples packet := by
  have hall : ∀ c < 32, 120 ≤ frameTable.getD c 0 := by decide
  cases packet with
  | nil => exact absurd rfl h
  | cons toc rest =>
    apply hall
    have := toc.toNat_lt
    omega

/-! ### Windows of a packet -/

/-- The bytes of the packet in `[cursor, stop)`. -/
def window (packet : Bytes) (cursor stop : ℕ) : Bytes := (packet.take stop).drop cursor

variable {packet : Bytes} {cursor stop : ℕ}

theorem window_length (hstop : stop ≤ packet.length) :
    (window packet cursor stop).length = stop - cursor := by
  simp [window, Nat.min_eq_left hstop]

theorem window_nil (h : stop ≤ cursor) : window packet cursor stop = [] := by
  apply List.drop_eq_nil_of_le
  exact (List.length_take_le stop packet).trans h

theorem window_cons (h : cursor < stop) (hstop : stop ≤ packet.length) :
    ∃ x, packet[cursor]? = some x ∧
      window packet cursor stop = x :: window packet (cursor + 1) stop := by
  have hlen : cursor < (packet.take stop).length := by simp; omega
  refine ⟨(packet.take stop)[cursor], ?_, List.drop_eq_getElem_cons hlen⟩
  rw [List.getElem_take]
  exact List.getElem?_eq_getElem (by omega)

/-- A length field at the start of a byte string, with what is left. -/
def readLength : Bytes → Option (ℕ × Bytes)
  | [] => none
  | x :: rest =>
    if x.toNat < 252 then some (x.toNat, rest)
    else
      match rest with
      | [] => none
      | y :: rest => some (x.toNat + 4 * y.toNat, rest)

theorem readLength_short {x : UInt8} (h : x.toNat < 252) (rest : Bytes) :
    readLength (x :: rest) = some (x.toNat, rest) := by
  cases rest <;> simp [readLength, h]

theorem readLength_cut {x : UInt8} (h : ¬ x.toNat < 252) : readLength [x] = none := by
  simp [readLength, h]

theorem readLength_long {x : UInt8} (h : ¬ x.toNat < 252) (y : UInt8) (rest : Bytes) :
    readLength (x :: y :: rest) = some (x.toNat + 4 * y.toNat, rest) := by
  simp [readLength, h]

theorem readLength_append {field : Bytes} {n : ℕ} (h : FrameLength field n) (rest : Bytes) :
    readLength (field ++ rest) = some (n, rest) := by
  cases h with
  | short h => exact readLength_short h rest
  | long h => exact readLength_long (by omega) _ rest

/-- Every byte string is cut off in its length field or starts with one. -/
theorem frameLength_of_readLength {bytes rest : Bytes} {n : ℕ}
    (h : readLength bytes = some (n, rest)) :
    ∃ field, FrameLength field n ∧ bytes = field ++ rest := by
  cases bytes with
  | nil => simp [readLength] at h
  | cons x tail =>
    by_cases hx : x.toNat < 252
    · rw [readLength_short hx, Option.some.injEq, Prod.mk.injEq] at h
      obtain ⟨rfl, rfl⟩ := h
      exact ⟨[x], .short hx, rfl⟩
    · cases tail with
      | nil => simp [readLength_cut hx] at h
      | cons y tail =>
        rw [readLength_long hx, Option.some.injEq, Prod.mk.injEq] at h
        obtain ⟨rfl, rfl⟩ := h
        exact ⟨[x, y], .long (by omega), rfl⟩

theorem length_byte {x : UInt8} (hcur : cursor < stop) (hx : packet[cursor]? = some x)
    (h : x.toNat < 252) : length packet cursor stop = .ok (some x.toNat, cursor + 1) := by
  rw [length, if_neg (by omega), index_ok.mpr hx]
  exact if_pos h

theorem length_wide {x : UInt8} (hcur : cursor < stop) (hx : packet[cursor]? = some x)
    (h : ¬ x.toNat < 252) :
    length packet cursor stop =
      if ((cursor + 1 : ℕ) : ℤ) ≥ stop then .ok (none, cursor + 1)
      else index packet (cursor + 1) >>= fun more =>
        .ok (some (x.toNat + 4 * more.toNat), cursor + 2) := by
  rw [length, if_neg (by omega), index_ok.mpr hx]
  exact if_neg h

/-- `_length` reads the field at the start of its window or reports that it is cut off, and
indexes inside the packet. -/
theorem length_none (hstop : stop ≤ packet.length)
    (h : readLength (window packet cursor stop) = none) :
    ∃ c, length packet cursor stop = .ok (none, c) := by
  by_cases hcur : cursor < stop
  · obtain ⟨x, hx, hwindow⟩ := window_cons hcur hstop
    rw [hwindow] at h
    have hlt : ¬ x.toNat < 252 := fun hlt => by simp [readLength_short hlt] at h
    by_cases hnext : cursor + 1 < stop
    · obtain ⟨y, -, hwindow'⟩ := window_cons hnext hstop
      simp [hwindow', readLength_long hlt] at h
    · exact ⟨cursor + 1, by rw [length_wide hcur hx hlt, if_pos (by omega)]⟩
  · exact ⟨cursor, by rw [length, if_pos (by omega)]⟩

theorem length_some {n : ℕ} {rest : Bytes} (hstop : stop ≤ packet.length)
    (h : readLength (window packet cursor stop) = some (n, rest)) :
    ∃ c ≤ stop, length packet cursor stop = .ok (some n, c) ∧ window packet c stop = rest := by
  have hcur : cursor < stop := by
    by_contra hge
    rw [window_nil (by omega)] at h
    simp [readLength] at h
  obtain ⟨x, hx, hwindow⟩ := window_cons hcur hstop
  rw [hwindow] at h
  by_cases hlt : x.toNat < 252
  · rw [readLength_short hlt, Option.some.injEq, Prod.mk.injEq] at h
    obtain ⟨rfl, rfl⟩ := h
    exact ⟨cursor + 1, hcur, length_byte hcur hx hlt, rfl⟩
  · by_cases hnext : cursor + 1 < stop
    · obtain ⟨y, hy, hwindow'⟩ := window_cons hnext hstop
      rw [hwindow', readLength_long hlt, Option.some.injEq, Prod.mk.injEq] at h
      obtain ⟨rfl, rfl⟩ := h
      refine ⟨cursor + 2, hnext, ?_, rfl⟩
      rw [length_wide hcur hx hlt, if_neg (by omega), index_ok.mpr hy]
      rfl
    · rw [window_nil (by omega), readLength_cut hlt] at h
      simp at h

/-! ### Two frames of different sizes -/

/-- The frames of a code 2 packet: a length field, that many bytes, and more bytes. -/
theorem vbrTwoCount_spec (toc : UInt8) (rest : Bytes) :
    ∃ r, vbrTwoCount (toc :: rest) = .ok r ∧ ∀ n, r = some n ↔ n = 2 ∧
      ∃ size first second, rest = size ++ (first ++ second) ∧ FrameLength size first.length ∧
        first ≠ [] ∧ second ≠ [] := by
  have hstop : (toc :: rest).length ≤ (toc :: rest).length := le_rfl
  have hwindow : window (toc :: rest) 1 (toc :: rest).length = rest := by simp [window]
  cases hread : readLength rest with
  | none =>
    obtain ⟨c, hc⟩ := length_none hstop (hwindow.symm ▸ hread)
    refine ⟨none, ?_, ?_⟩
    · rw [vbrTwoCount, hc]
      rfl
    · rintro n
      simp only [reduceCtorEq, false_iff]
      rintro ⟨-, size, first, second, rfl, hsize, -⟩
      simp [readLength_append hsize] at hread
  | some found =>
    obtain ⟨m, tail⟩ := found
    obtain ⟨c, hcstop, hc, hafter⟩ := length_some hstop (hwindow.symm ▸ hread)
    have htail : tail.length = (toc :: rest).length - c := by rw [← hafter, window_length hstop]
    refine ⟨_, by rw [vbrTwoCount, hc]; rfl, ?_⟩
    intro n
    constructor
    · intro h
      by_cases hcond : m > 0 ∧ c < (toc :: rest).length ∧ c + m < (toc :: rest).length
      · rw [if_pos hcond, Option.some.injEq] at h
        obtain ⟨hpos, -, hlt⟩ := hcond
        obtain ⟨field, hfield, hrest⟩ := frameLength_of_readLength hread
        have hfirst : (tail.take m).length = m := by rw [List.length_take]; omega
        refine ⟨h.symm, field, tail.take m, tail.drop m, ?_, hfirst.symm ▸ hfield, ?_, ?_⟩
        · rw [List.take_append_drop, hrest]
        · exact List.ne_nil_of_length_pos (by omega)
        · exact List.ne_nil_of_length_pos (by rw [List.length_drop]; omega)
      · rw [if_neg hcond] at h
        simp at h
    · rintro ⟨rfl, size, first, second, hrest, hsize, hfirst, hsecond⟩
      rw [hrest, readLength_append hsize, Option.some.injEq, Prod.mk.injEq] at hread
      obtain ⟨rfl, rfl⟩ := hread
      have hfirst := List.length_pos_iff.mpr hfirst
      have hsecond := List.length_pos_iff.mpr hsecond
      rw [List.length_append] at htail
      exact if_pos (by omega)

/-! ### Any number of frames -/

/-- `rounds` length fields of non-empty frames and, after them, more bytes than those frames and
`taken` further bytes need. -/
def VbrBody (rounds taken : ℕ) (bytes : Bytes) : Prop :=
  ∃ fields lens body, bytes = List.flatten fields ++ body ∧ lens.length = rounds ∧
    List.Forall₂ FrameLength fields lens ∧ (∀ n ∈ lens, 0 < n) ∧ taken + lens.sum < body.length

theorem vbrBody_zero {taken : ℕ} {bytes : Bytes} : VbrBody 0 taken bytes ↔ taken < bytes.length := by
  constructor
  · rintro ⟨fields, lens, body, rfl, hlens, hfields, -, hsum⟩
    obtain rfl := List.eq_nil_of_length_eq_zero hlens
    cases hfields
    simpa using hsum
  · intro h
    exact ⟨[], [], bytes, rfl, rfl, .nil, by simp, by simpa using h⟩

theorem vbrBody_succ {rounds taken : ℕ} {bytes : Bytes} : VbrBody (rounds + 1) taken bytes ↔
    ∃ n rest, readLength bytes = some (n, rest) ∧ 0 < n ∧ VbrBody rounds (taken + n) rest := by
  constructor
  · rintro ⟨fields, lens, body, rfl, hlens, hfields, hpos, hsum⟩
    cases hfields with
    | nil => simp at hlens
    | cons hfield hrest =>
      rename_i field n fields lens
      refine ⟨n, List.flatten fields ++ body, ?_, hpos n (by simp), fields, lens, body, rfl,
        by simpa using hlens, hrest, fun m hm => hpos m (by simp [hm]), ?_⟩
      · rw [List.flatten_cons, List.append_assoc, readLength_append hfield]
      · rw [List.sum_cons] at hsum
        omega
  · rintro ⟨n, rest, hread, hn, fields, lens, body, rfl, hlens, hfields, hpos, hsum⟩
    obtain ⟨field, hfield, rfl⟩ := frameLength_of_readLength hread
    refine ⟨field :: fields, n :: lens, body, by simp, by simp [hlens], .cons hfield hfields, ?_, ?_⟩
    · intro m hm
      rcases List.mem_cons.mp hm with rfl | hm
      · exact hn
      · exact hpos m hm
    · rw [List.sum_cons]
      omega

/-- The loop over the length fields decides whether its window is a body of such frames. -/
theorem vbrFrames_spec (hstop : stop ≤ packet.length) (rounds : ℕ) (hcur : cursor ≤ stop)
    (sizes : List ℕ) : ∃ b, vbrFrames packet stop rounds cursor sizes = .ok b ∧
      (b = true ↔ VbrBody rounds sizes.sum (window packet cursor stop)) := by
  induction rounds generalizing cursor sizes with
  | zero =>
    refine ⟨_, rfl, ?_⟩
    rw [vbrBody_zero, window_length hstop, decide_eq_true_eq]
    omega
  | succ rounds ih =>
    rw [vbrBody_succ]
    cases hread : readLength (window packet cursor stop) with
    | none =>
      obtain ⟨c, hc⟩ := length_none hstop hread
      exact ⟨false, by rw [vbrFrames, hc]; rfl, by simp⟩
    | some found =>
      obtain ⟨n, rest⟩ := found
      obtain ⟨c, hle, hc, rfl⟩ := length_some hstop hread
      by_cases hn : n = 0
      · refine ⟨false, ?_, ?_⟩
        · rw [vbrFrames, hc]
          exact if_pos hn
        · simp [hn]
      · obtain ⟨b, hb, hiff⟩ := ih hle (sizes ++ [n])
        refine ⟨b, ?_, ?_⟩
        · rw [vbrFrames, hc, ← hb]
          exact if_neg hn
        · rw [hiff, List.sum_append, List.sum_singleton]
          constructor
          · intro h
            exact ⟨n, _, rfl, by omega, h⟩
          · rintro ⟨m, rest, heq, -, h⟩
            simp only [Option.some.injEq, Prod.mk.injEq] at heq
            obtain ⟨rfl, rfl⟩ := heq
            exact h

/-- The padding loop always stops, and it only adds to the padding. -/
theorem paddingFrom_total (packet : Bytes) (cursor padding : ℕ) :
    ∃ c p, paddingFrom packet cursor padding = .ok (c, p) ∧ padding ≤ p := by
  by_cases hcur : cursor < packet.length
  · have hx : packet[cursor]? = some packet[cursor] := List.getElem?_eq_getElem hcur
    rw [paddingFrom, if_pos hcur, index_ok.mpr hx]
    by_cases hlast : packet[cursor].toNat ≠ 255
    · exact ⟨_, _, if_pos hlast, by omega⟩
    · obtain ⟨c, p, hrun, hle⟩ :=
        paddingFrom_total packet (cursor + 1) (padding + packet[cursor].toNat)
      exact ⟨c, p, (if_neg hlast).trans hrun, by omega⟩
  · exact ⟨_, _, by rw [paddingFrom, if_neg hcur], le_rfl⟩
termination_by packet.length - cursor

/-- What `_padding` has found of the bytes after the frame count byte. -/
structure PaddingFound (control : UInt8) (packet tail : Bytes) (c p : ℕ) : Prop where
  field : c + p ≤ packet.length → ∃ field pad, PaddingField control field pad.length ∧
    tail = field ++ (window packet c (packet.length - p) ++ pad)
  complete : ∀ field body pad, PaddingField control field pad.length →
    tail = field ++ (body ++ pad) →
    c + p ≤ packet.length ∧ window packet c (packet.length - p) = body

theorem window_tail (front : Bytes) {body pad : Bytes} {cursor stop : ℕ} (hcursor : cursor = front.length)
    (hstop : stop = front.length + body.length) :
    window (front ++ (body ++ pad)) cursor stop = body := by
  subst hcursor hstop
  rw [window, ← List.append_assoc, ← List.length_append, List.take_left, List.drop_left]

theorem paddingLength_byte {field : Bytes} {n : ℕ} (h : PaddingLength field n) :
    ∃ x rest, field = x :: rest ∧
      (x.toNat < 255 ∧ rest = [] ∧ n = x.toNat ∨ x.toNat = 255 ∧ 254 ≤ n) := by
  cases h with
  | @last x h => exact ⟨x, [], rfl, .inl ⟨h, rfl, rfl⟩⟩
  | @more x rest n h hrest => exact ⟨x, rest, rfl, .inr ⟨h, by omega⟩⟩

theorem paddingField_set {control : UInt8} (h : control.toNat / 64 % 2 = 1) {field : Bytes} {n : ℕ} :
    PaddingField control field n ↔ PaddingLength field n := by rw [PaddingField, if_pos h]

theorem paddingField_clear {control : UInt8} (h : ¬ control.toNat / 64 % 2 = 1) {field : Bytes}
    {n : ℕ} : PaddingField control field n ↔ field = [] ∧ n = 0 := by rw [PaddingField, if_neg h]

/-- The padding field of a packet of at most 160 bytes has at most one byte. -/
theorem padding_set {toc control : UInt8} {tail : Bytes} (hlen : tail.length ≤ 158)
    (hbit : control.toNat / 64 % 2 = 1) :
    ∃ c p, paddingFrom (toc :: control :: tail) 2 0 = .ok (c, p) ∧
      PaddingFound control (toc :: control :: tail) tail c p := by
  cases tail with
  | nil =>
    refine ⟨_, _, by rw [paddingFrom]; rfl, ?_, ?_⟩
    · intro h
      simp at h
    · intro field body pad hpad htail
      obtain ⟨x, rest, rfl, -⟩ := paddingLength_byte ((paddingField_set hbit).mp hpad)
      simp at htail
  | cons x tail =>
    have hstep : paddingFrom (toc :: control :: x :: tail) 2 0 =
        if x.toNat ≠ 255 then .ok (3, 0 + x.toNat)
        else paddingFrom (toc :: control :: x :: tail) 3 (0 + x.toNat) := by
      rw [paddingFrom, if_pos (by simp)]
      rfl
    rw [List.length_cons] at hlen
    by_cases hx : x.toNat = 255
    · -- 255 announces more padding than the packet holds
      obtain ⟨c, p, hrun, hle⟩ := paddingFrom_total (toc :: control :: x :: tail) 3 (0 + x.toNat)
      refine ⟨c, p, by rw [hstep, if_neg (not_not.mpr hx), hrun], ?_, ?_⟩
      · intro h
        simp only [List.length_cons] at h
        omega
      · intro field body pad hpad htail
        obtain ⟨y, rest, rfl, hy⟩ := paddingLength_byte ((paddingField_set hbit).mp hpad)
        have htail' := congrArg List.length htail
        simp only [List.length_append, List.length_cons] at htail'
        simp only [List.cons_append, List.cons.injEq] at htail
        obtain ⟨rfl, -⟩ := htail
        omega
    · refine ⟨3, 0 + x.toNat, by rw [hstep, if_pos hx], ?_, ?_⟩
      · intro h
        simp only [List.length_cons] at h
        have hwindow : window (toc :: control :: x :: tail) 3
            ((toc :: control :: x :: tail).length - (0 + x.toNat)) =
            tail.take (tail.length - x.toNat) := by
          have hsplit : toc :: control :: x :: tail = [toc, control, x] ++
              (tail.take (tail.length - x.toNat) ++ tail.drop (tail.length - x.toNat)) := by simp
          rw [hsplit]
          apply window_tail [toc, control, x] rfl
          simp only [List.length_append, List.length_take, List.length_drop, List.length_cons,
            List.length_nil]
          omega
        refine ⟨[x], tail.drop (tail.length - x.toNat), ?_, ?_⟩
        · rw [paddingField_set hbit, List.length_drop, Nat.sub_sub_self (by omega)]
          have hbyte := x.toNat_lt
          exact .last (by omega)
        · rw [hwindow]
          simp
      · intro field body pad hpad htail
        obtain ⟨y, rest, rfl, hy⟩ := paddingLength_byte ((paddingField_set hbit).mp hpad)
        simp only [List.cons_append, List.cons.injEq] at htail
        obtain ⟨rfl, htail⟩ := htail
        obtain ⟨-, rfl, hpadlen⟩ := hy.resolve_right (fun h => hx h.1)
        obtain rfl : tail = body ++ pad := htail
        refine ⟨by simp; omega, window_tail [toc, control, x] rfl ?_⟩
        simp only [List.length_append, List.length_cons, List.length_nil]
        omega

theorem padding_spec (toc : UInt8) {control : UInt8} {tail : Bytes} (hlen : tail.length ≤ 158) :
    ∃ c p, padding (toc :: control :: tail) control.toNat = .ok (c, p) ∧
      PaddingFound control (toc :: control :: tail) tail c p := by
  by_cases hbit : control.toNat / 64 % 2 = 1
  · have hmask : ¬ control.toNat &&& 0x40 = 0 := fun h => (padding_bit _).mp h hbit
    rw [padding, if_neg hmask]
    exact padding_set hlen hbit
  · have hmask : control.toNat &&& 0x40 = 0 := (padding_bit _).mpr hbit
    refine ⟨2, 0, by rw [padding, if_pos hmask], ?_, ?_⟩
    · intro _
      exact ⟨[], [], (paddingField_clear hbit).mpr ⟨rfl, rfl⟩, by simp [window]⟩
    · intro field body pad hpad htail
      obtain ⟨rfl, hlength⟩ := (paddingField_clear hbit).mp hpad
      obtain rfl := List.eq_nil_of_length_eq_zero hlength
      subst htail
      simp [window]

/-- `n` non-empty frames after the frame count byte, under its padding bit and its mode bit. -/
def Multi (control : UInt8) (tail : Bytes) (n : ℕ) : Prop :=
  n = control.toNat % 64 ∧ 1 ≤ n ∧ ∃ field body pad, PaddingField control field pad.length ∧
    tail = field ++ (body ++ pad) ∧
    if 128 ≤ control.toNat then VbrBody (n - 1) 0 body else 0 < body.length ∧ body.length % n = 0

theorem multiCount_short {packet : Bytes} (h : packet.length < 2) :
    multiCount packet = .ok none := by rw [multiCount, if_pos h]

theorem multiCount_invalid {toc control : UInt8} {tail : Bytes}
    (h : ¬ (1 ≤ control.toNat % 64 ∧ control.toNat % 64 ≤ 48)) :
    multiCount (toc :: control :: tail) = .ok none := by
  have hshort : ¬ (toc :: control :: tail).length < 2 := by simp
  rw [multiCount, if_neg hshort]
  change (if ¬ (1 ≤ control.toNat &&& 0x3F ∧ control.toNat &&& 0x3F ≤ 48) then _ else _) = _
  rw [and_count, if_pos h]

theorem multiCount_padded {toc control : UInt8} {tail : Bytes} {c p : ℕ}
    (h : 1 ≤ control.toNat % 64 ∧ control.toNat % 64 ≤ 48)
    (hpad : padding (toc :: control :: tail) control.toNat = .ok (c, p)) :
    multiCount (toc :: control :: tail) =
      if ¬ (c : ℤ) ≤ ((toc :: control :: tail).length : ℤ) - p then .ok none
      else validFrames (toc :: control :: tail) control.toNat (control.toNat % 64) c
          (((toc :: control :: tail).length : ℤ) - p) >>= fun valid =>
        .ok (if valid then some (control.toNat % 64) else none) := by
  have hshort : ¬ (toc :: control :: tail).length < 2 := by simp
  rw [multiCount, if_neg hshort]
  change (if ¬ (1 ≤ control.toNat &&& 0x3F ∧ control.toNat &&& 0x3F ≤ 48) then _ else _) = _
  rw [and_count, if_neg (not_not.mpr h), hpad]
  rfl

/-- Frames of one size fill the body up to the padding. -/
theorem validCbrFrames_spec {count c stop : ℕ} {packet : Bytes} (hstop : stop ≤ packet.length)
    (hcur : c ≤ stop) : validCbrFrames count c stop = true ↔
      0 < (window packet c stop).length ∧ (window packet c stop).length % count = 0 := by
  rw [window_length hstop, validCbrFrames, Bool.and_eq_true, decide_eq_true_eq, decide_eq_true_eq,
    ← Int.natCast_sub hcur]
  norm_cast

/-- Both modes read inside the packet and decide about the body between the padding fields. -/
theorem validFrames_spec (packet : Bytes) (control : UInt8) (count : ℕ) {c stop : ℕ}
    (hstop : stop ≤ packet.length) (hcur : c ≤ stop) :
    ∃ b, validFrames packet control.toNat count c stop = .ok b ∧
      (b = true ↔ if 128 ≤ control.toNat then VbrBody (count - 1) 0 (window packet c stop)
        else 0 < (window packet c stop).length ∧ (window packet c stop).length % count = 0) := by
  by_cases hmode : 128 ≤ control.toNat
  · rw [validFrames, if_pos ((vbr_bit control.toNat_lt).mpr hmode), if_pos hmode]
    exact vbrFrames_spec hstop (count - 1) hcur []
  · rw [validFrames, if_neg (fun h => hmode ((vbr_bit control.toNat_lt).mp h)), if_neg hmode]
    exact ⟨_, rfl, validCbrFrames_spec hstop hcur⟩

/-- The body of a packet is the same in every reading of its padding field. -/
theorem PaddingFound.multi_iff {control : UInt8} {packet tail : Bytes} {c p n : ℕ}
    (h : PaddingFound control packet tail c p) (hcur : c + p ≤ packet.length) :
    Multi control tail n ↔ n = control.toNat % 64 ∧ 1 ≤ n ∧
      if 128 ≤ control.toNat then VbrBody (n - 1) 0 (window packet c (packet.length - p))
      else 0 < (window packet c (packet.length - p)).length ∧
        (window packet c (packet.length - p)).length % n = 0 := by
  constructor
  · rintro ⟨hn, hpos, field, body, pad, hfield, htail, hbody⟩
    rw [(h.complete field body pad hfield htail).2]
    exact ⟨hn, hpos, hbody⟩
  · rintro ⟨hn, hpos, hbody⟩
    obtain ⟨field, pad, hfield, htail⟩ := h.field hcur
    exact ⟨hn, hpos, field, _, pad, hfield, htail, hbody⟩

/-- `_multi_count` reads inside the packet and decides whether it holds such frames. -/
theorem multiCount_spec (toc control : UInt8) {tail : Bytes} (hlen : tail.length ≤ 158) :
    ∃ r, multiCount (toc :: control :: tail) = .ok r ∧
      ∀ n, n ≤ 48 → (r = some n ↔ Multi control tail n) := by
  by_cases hvalid : 1 ≤ control.toNat % 64 ∧ control.toNat % 64 ≤ 48
  · obtain ⟨c, p, hpad, hfound⟩ := padding_spec toc hlen
    rw [multiCount_padded hvalid hpad]
    by_cases hcur : c + p ≤ (toc :: control :: tail).length
    · have hsub : ((toc :: control :: tail).length : ℤ) - p =
          ((toc :: control :: tail).length - p : ℕ) := by omega
      obtain ⟨b, hb, hiff⟩ := validFrames_spec (toc :: control :: tail) control
        (control.toNat % 64) (Nat.sub_le (toc :: control :: tail).length p) (by omega : c ≤ _)
      rw [if_neg (by omega), hsub, hb]
      refine ⟨_, rfl, ?_⟩
      intro n _
      have hsome : (if b then some (control.toNat % 64) else none) = some n ↔
          n = control.toNat % 64 ∧ b = true := by cases b <;> simp [eq_comm]
      rw [hsome, hfound.multi_iff hcur, hiff]
      constructor
      · rintro ⟨rfl, h⟩
        exact ⟨rfl, hvalid.1, h⟩
      · rintro ⟨rfl, -, h⟩
        exact ⟨rfl, h⟩
    · rw [if_pos (by omega)]
      refine ⟨none, rfl, ?_⟩
      intro n _
      simp only [reduceCtorEq, false_iff]
      rintro ⟨-, -, field, body, pad, hfield, htail, -⟩
      exact hcur (hfound.complete field body pad hfield htail).1
  · refine ⟨none, multiCount_invalid hvalid, ?_⟩
    intro n hn
    simp only [reduceCtorEq, false_iff]
    rintro ⟨rfl, hpos, -⟩
    exact hvalid ⟨hpos, hn⟩

/-! ### Packets -/

/-- `n` non-empty frames in the packet. -/
def Frames (packet : Bytes) (n : ℕ) : Prop :=
  ∃ frames, Packing packet frames ∧ (∀ f ∈ frames, f ≠ []) ∧ frames.length = n

theorem frames_one {toc : UInt8} (h : toc.toNat % 4 = 0) {rest : Bytes} {n : ℕ} :
    Frames (toc :: rest) n ↔ n = 1 ∧ rest ≠ [] := by
  constructor
  · rintro ⟨frames, hpacking, hne, rfl⟩
    cases hpacking with
    | one => exact ⟨rfl, hne rest (by simp)⟩
    | _ => omega
  · rintro ⟨rfl, hne⟩
    exact ⟨[rest], .one h, by simpa using hne, rfl⟩

theorem frames_equalPair {toc : UInt8} (h : toc.toNat % 4 = 1) {rest : Bytes} {n : ℕ} :
    Frames (toc :: rest) n ↔ n = 2 ∧ 0 < rest.length ∧ rest.length % 2 = 0 := by
  constructor
  · rintro ⟨frames, hpacking, hne, rfl⟩
    cases hpacking with
    | @equalPair _ first second _ hsize =>
      have hfirst := List.length_pos_iff.mpr (hne first (by simp))
      rw [List.length_append]
      exact ⟨rfl, by omega, by omega⟩
    | _ => omega
  · rintro ⟨rfl, hpos, heven⟩
    have hfirst : (rest.take (rest.length / 2)).length = rest.length / 2 := by
      rw [List.length_take]
      omega
    have hsecond : (rest.drop (rest.length / 2)).length = rest.length / 2 := by
      rw [List.length_drop]
      omega
    refine ⟨[rest.take (rest.length / 2), rest.drop (rest.length / 2)], ?_, ?_, rfl⟩
    · have hpacking := Packing.equalPair h (hfirst.trans hsecond.symm)
      rwa [List.take_append_drop] at hpacking
    · intro f hf
      apply List.ne_nil_of_length_pos
      simp only [List.mem_cons, List.not_mem_nil, or_false] at hf
      rcases hf with rfl | rfl <;> omega

theorem frames_pair {toc : UInt8} (h : toc.toNat % 4 = 2) {rest : Bytes} {n : ℕ} :
    Frames (toc :: rest) n ↔ n = 2 ∧ ∃ size first second, rest = size ++ (first ++ second) ∧
      FrameLength size first.length ∧ first ≠ [] ∧ second ≠ [] := by
  constructor
  · rintro ⟨frames, hpacking, hne, rfl⟩
    cases hpacking with
    | @pair _ size first second _ hsize =>
      exact ⟨rfl, size, first, second, rfl, hsize, hne _ (by simp), hne _ (by simp)⟩
    | _ => omega
  · rintro ⟨rfl, size, first, second, rfl, hsize, hfirst, hsecond⟩
    exact ⟨[first, second], .pair h hsize, by simp [hfirst, hsecond], rfl⟩

/-- Frames of one size, as the body they fill. -/
theorem cbr_body {n : ℕ} {body : Bytes} (hn : 1 ≤ n) :
    (∃ frames : List Bytes, frames.flatten = body ∧ frames.length = n ∧ (∀ f ∈ frames, f ≠ []) ∧
      ∃ size, ∀ f ∈ frames, f.length = size) ↔ 0 < body.length ∧ body.length % n = 0 := by
  constructor
  · rintro ⟨frames, rfl, rfl, hne, size, hsize⟩
    have hsum := length_flatten_blocks hsize
    obtain ⟨f, hf⟩ := List.exists_mem_of_length_pos hn
    have hpos := List.length_pos_iff.mpr (hne f hf)
    rw [hsize f hf] at hpos
    rw [hsum, Nat.mul_mod_right]
    exact ⟨Nat.mul_pos hn hpos, rfl⟩
  · rintro ⟨hpos, hmod⟩
    obtain ⟨size, hsize⟩ := Nat.dvd_of_mod_eq_zero hmod
    have hsizepos : 0 < size := by
      apply Nat.pos_of_ne_zero
      rintro rfl
      simp [hsize] at hpos
    have hblock : ∀ f ∈ frames size body, f.length = size := fun f hf => length_of_mem_frames hf
    refine ⟨frames size body, flatten_frames hsizepos (by rw [hsize, Nat.mul_mod_left]), ?_, ?_,
      size, hblock⟩
    · rw [frames, List.length_map, List.length_range, hsize, Nat.mul_div_cancel _ hsizepos]
    · intro f hf
      apply List.ne_nil_of_length_pos
      rw [hblock f hf]
      exact hsizepos

/-- The frames of a VBR body: those with a length field and the rest. -/
theorem vbr_body {rounds : ℕ} {body : Bytes} :
    (∃ (sizes frames : List Bytes) (last : Bytes), body = sizes.flatten ++ (frames.flatten ++ last) ∧
      frames.length = rounds ∧ (∀ f ∈ frames ++ [last], f ≠ []) ∧
      List.Forall₂ FrameLength sizes (frames.map List.length)) ↔ VbrBody rounds 0 body := by
  constructor
  · rintro ⟨sizes, frames, last, rfl, hcount, hne, hsizes⟩
    refine ⟨sizes, frames.map List.length, _, rfl, by simpa using hcount, hsizes, ?_, ?_⟩
    · intro n hn
      obtain ⟨f, hf, rfl⟩ := List.mem_map.mp hn
      exact List.length_pos_iff.mpr (hne f (by simp [hf]))
    · have hlast := List.length_pos_iff.mpr (hne last (by simp))
      rw [List.length_append, List.length_flatten]
      omega
  · rintro ⟨sizes, lens, data, rfl, hcount, hsizes, hpos, hsum⟩
    have hle : lens.sum ≤ (data.take lens.sum).length := by
      rw [List.length_take]
      omega
    have hmap := List.map_splitLengths_length (data.take lens.sum) lens hle
    refine ⟨sizes, lens.splitLengths (data.take lens.sum), data.drop lens.sum, ?_, ?_, ?_, ?_⟩
    · rw [List.flatten_splitLengths _ _ (List.length_take_le _ _), List.take_append_drop]
    · rw [List.length_splitLengths, hcount]
    · intro f hf
      apply List.ne_nil_of_length_pos
      rcases List.mem_append.mp hf with hf | hf
      · apply hpos
        rw [← hmap]
        exact List.mem_map_of_mem hf
      · obtain rfl := List.mem_singleton.mp hf
        rw [List.length_drop]
        omega
    · rwa [hmap]

theorem frames_multi {toc : UInt8} (h : toc.toNat % 4 = 3) {rest : Bytes} {n : ℕ} :
    Frames (toc :: rest) n ↔ ∃ control tail, rest = control :: tail ∧ Multi control tail n := by
  constructor
  · rintro ⟨frames, hpacking, hne, rfl⟩
    cases hpacking with
    | @cbr _ control field padding _ size _ hmode hpad hcount hpos hsize =>
      refine ⟨control, _, rfl, hcount, hpos, field, frames.flatten, padding, hpad, rfl, ?_⟩
      rw [if_neg (by omega)]
      exact (cbr_body hpos).mp ⟨frames, rfl, rfl, hne, size, hsize⟩
    | @vbr _ control field padding last sizes frames _ hmode hpad hcount hsizes =>
      refine ⟨control, _, rfl, by simpa using hcount, by simp, field, _, padding, hpad, rfl, ?_⟩
      rw [if_pos hmode, List.length_append, List.length_singleton, Nat.add_sub_cancel]
      exact vbr_body.mp ⟨sizes, frames, last, rfl, rfl, hne, hsizes⟩
    | _ => omega
  · rintro ⟨control, tail, rfl, hcount, hpos, field, body, pad, hpad, rfl, hbody⟩
    by_cases hmode : 128 ≤ control.toNat
    · rw [if_pos hmode] at hbody
      obtain ⟨sizes, frames, last, rfl, hlen, hne, hsizes⟩ := vbr_body.mpr hbody
      refine ⟨frames ++ [last], .vbr h hmode hpad (by omega) hsizes, hne, ?_⟩
      rw [List.length_append, List.length_singleton]
      omega
    · rw [if_neg hmode] at hbody
      obtain ⟨frames, rfl, hlen, hne, size, hsize⟩ := (cbr_body hpos).mpr hbody
      exact ⟨frames, .cbr h (by omega) hpad (by omega) (by omega) hsize, hne, hlen⟩

/-- `_frame_count` reads inside the packet and counts its frames, when none is empty. -/
theorem frameCount_spec (toc : UInt8) {rest : Bytes} (hlen : rest.length ≤ 159) :
    ∃ r, frameCount (toc :: rest) (toc.toNat % 4) = .ok r ∧
      ∀ n, n ≤ 48 → (r = some n ↔ Frames (toc :: rest) n) := by
  have hcode : toc.toNat % 4 = 0 ∨ toc.toNat % 4 = 1 ∨ toc.toNat % 4 = 2 ∨ toc.toNat % 4 = 3 := by
    omega
  rcases hcode with hcode | hcode | hcode | hcode
  · refine ⟨_, by rw [frameCount, if_pos hcode], ?_⟩
    intro n _
    rw [frames_one hcode, ← List.length_pos_iff]
    by_cases hpos : 0 < rest.length
    · rw [if_pos (by simpa using hpos)]
      simp [hpos, eq_comm]
    · rw [if_neg (by simpa using hpos)]
      simp [hpos]
  · refine ⟨_, by rw [frameCount, if_neg (by omega), if_pos hcode], ?_⟩
    intro n _
    rw [frames_equalPair hcode, List.length_cons, Nat.add_sub_cancel]
    by_cases hshape : 0 < rest.length ∧ rest.length % 2 = 0
    · rw [if_pos (by omega)]
      simp [hshape, eq_comm]
    · rw [if_neg (by omega)]
      simp [hshape]
  · obtain ⟨r, hr, hiff⟩ := vbrTwoCount_spec toc rest
    refine ⟨r, by rw [frameCount, if_neg (by omega), if_neg (by omega), if_pos hcode, hr], ?_⟩
    intro n _
    rw [frames_pair hcode, hiff]
  · rw [frameCount, if_neg (by omega), if_neg (by omega), if_neg (by omega)]
    cases rest with
    | nil =>
      refine ⟨none, multiCount_short (by simp), ?_⟩
      intro n _
      rw [frames_multi hcode]
      simp
    | cons control tail =>
      obtain ⟨r, hr, hiff⟩ := multiCount_spec toc control (by simp only [List.length_cons] at hlen; omega : tail.length ≤ 158)
      refine ⟨r, hr, ?_⟩
      intro n hn
      rw [frames_multi hcode, hiff n hn]
      simp

theorem Packing.flatten_length {packet : Bytes} {frames : List Bytes} (h : Packing packet frames) :
    frames.flatten.length ≤ packet.length := by
  cases h <;> simp <;> omega

/-- In a packet of at most 160 bytes the bounds on frames and duration add nothing. -/
theorem holds20ms_iff {packet : Bytes} (hlen : packet.length ≤ 160) :
    Holds20ms packet ↔ ∃ n, Frames packet n ∧ n * frameSamples packet = 960 := by
  constructor
  · rintro ⟨frames, hformed, hne, hsamples⟩
    exact ⟨frames.length, ⟨frames, hformed.packing, hne, rfl⟩, hsamples⟩
  · rintro ⟨n, ⟨frames, hpacking, hne, rfl⟩, hsamples⟩
    refine ⟨frames, ⟨hpacking, ?_, by omega⟩, hne, hsamples⟩
    intro f hf
    have hpart : f.length ≤ frames.flatten.length := (List.sublist_flatten_of_mem hf).length_le
    have hwhole := hpacking.flatten_length
    omega

/-- For a packet of at most 160 bytes the test of the collector never indexes outside the packet
and decides whether it holds 20 ms. -/
theorem is20ms_spec {packet : Bytes} (hlen : packet.length ≤ 160) :
    ∃ b, is20ms packet = .ok b ∧ (b = true ↔ Holds20ms packet) := by
  rw [holds20ms_iff hlen]
  cases packet with
  | nil =>
    refine ⟨false, rfl, ?_⟩
    simp [frameSamples]
  | cons toc rest =>
    have hbyte := toc.toNat_lt
    obtain ⟨r, hr, hiff⟩ := frameCount_spec toc (by simp only [List.length_cons] at hlen; omega : rest.length ≤ 159)
    have hduration := duration_eq (show toc.toNat / 8 < 32 by omega)
    have hsamples : 120 ≤ frameSamples (toc :: rest) := frameSamples_pos (by simp)
    rw [is20ms, if_neg (by simp)]
    change ∃ b, (duration (toc.toNat >>> 3) >>= fun duration =>
      frameCount (toc :: rest) (toc.toNat &&& 3) >>= fun frames => _) = _ ∧ _
    rw [shift_three, and_three, hduration, hr]
    refine ⟨_, rfl, ?_⟩
    cases r with
    | none =>
      simp only [Bool.false_eq_true, false_iff]
      rintro ⟨n, hframes, hn⟩
      have hle : n ≤ 48 := by nlinarith
      exact absurd ((hiff n hle).mpr hframes) (by simp)
    | some frames =>
      rw [decide_eq_true_eq]
      change frames * frameSamples (toc :: rest) = 960 ↔ _
      constructor
      · intro h
        have hle : frames ≤ 48 := by nlinarith
        exact ⟨frames, (hiff frames hle).mp rfl, h⟩
      · rintro ⟨n, hframes, hn⟩
        have hle : n ≤ 48 := by nlinarith
        obtain rfl := Option.some.inj ((hiff n hle).mpr hframes)
        exact hn

end OpusPacket
