import OmiCollector.OpusPacket
import OmiCollector.TypedSlices

/-! Framing of one fixed-size ring record.

A record is a 4-byte timestamp and 440 payload bytes. `Framed` is the grammar of the payload;
`inspectRecord` is the collector's loop, which scans for size bytes below offset 439 and compares
the end of a packet with the payload length 440. -/
namespace RecordFraming

open ByteCodec Checks OpusPacket TypedSlices

/-- A payload read from left to right: zero bytes and length-prefixed packets that satisfy
`accepts`, and possibly the size byte of a packet that reaches the end. The last `unscanned` bytes
hold no size byte. -/
inductive Framed (accepts : Bytes → Prop) (unscanned : ℕ) :
    Bytes → List Bytes → Option ℕ → Prop where
  | stop {rest : Bytes} (h : rest.length ≤ unscanned) : Framed accepts unscanned rest [] none
  | zero {size : UInt8} {rest : Bytes} {packets : List Bytes} {overflow : Option ℕ}
      (hscan : unscanned ≤ rest.length) (hsize : size.toNat = 0)
      (hrest : Framed accepts unscanned rest packets overflow) :
      Framed accepts unscanned (size :: rest) packets overflow
  | packet {size : UInt8} {packet rest : Bytes} {packets : List Bytes} {overflow : Option ℕ}
      (hscan : unscanned ≤ (packet ++ rest).length) (hsize : size.toNat = packet.length)
      (hpos : packet ≠ []) (hmax : packet.length ≤ 160) (hpacket : accepts packet)
      (hend : rest ≠ []) (hrest : Framed accepts unscanned rest packets overflow) :
      Framed accepts unscanned (size :: (packet ++ rest)) (packet :: packets) overflow
  | overflow {size : UInt8} {rest : Bytes} (hscan : unscanned ≤ rest.length)
      (hpos : 0 < size.toNat) (hmax : size.toNat ≤ 160) (hend : rest.length ≤ size.toNat) :
      Framed accepts unscanned (size :: rest) [] (some size.toNat)

/-- The stereo bit of the TOC byte is clear. -/
def Mono : Bytes → Prop
  | [] => True
  | toc :: _ => toc.toNat / 4 % 2 = 0

/-- The packets that an inspection lets through. -/
def Accepted (mono : Bool) (packet : Bytes) : Prop :=
  Holds20ms packet ∧ (mono = true → Mono packet)

/-- The condition under which `_inspect_record` refuses a complete packet. -/
def packetRefused (packet : Bytes) (size : ℕ) (mono : Bool) : Except FramingError Bool :=
  if size > 160 then .ok true
  else do
    let valid ← is20ms packet
    if ¬ valid then .ok true
    else if mono then do
      let toc ← index packet 0
      .ok (decide (toc.toNat &&& 0x04 ≠ 0))
    else .ok false

/-- The loop of `_inspect_record`. -/
def scan (payload : Bytes) (mono : Bool) (offset count : ℕ) (packets : List Bytes) :
    Except FramingError (ℕ × Option ℕ × List Bytes) :=
  if offset < 439 then do
    let size ← index payload offset
    if size.toNat = 0 then scan payload mono (offset + 1) count packets
    else if offset + 1 + size.toNat ≥ payload.length then
      if size.toNat > 160 then .error (.valueError "invalid Opus packet size")
      else .ok (count, some size.toNat, packets)
    else do
      let packet := (payload.take (offset + 1 + size.toNat)).drop (offset + 1)
      let refused ← packetRefused packet size.toNat mono
      if refused then .error (.valueError "invalid 20 ms Opus packet")
      else scan payload mono (offset + 1 + size.toNat) (count + 1) (packets ++ [packet])
  else .ok (count, none, packets)
termination_by 439 - offset

/-- `_inspect_record`. -/
def inspectRecord (record : Bytes) (mono : Bool) : Except FramingError RecordAudioLayout := do
  let payload := record.drop 4
  let (count, overflowSize, packets) ← scan payload mono 0 0 []
  let first ← index payload 0
  .ok ⟨count, first.toNat, overflowSize, packets⟩

/-- `inspect_20ms_record`. -/
def inspect20msRecord (record : Bytes) : Except FramingError RecordAudioLayout :=
  inspectRecord record false

/-- `inspect_mono_20ms_record`. -/
def inspectMono20msRecord (record : Bytes) : Except FramingError RecordAudioLayout :=
  inspectRecord record true

theorem stereo_bit (n : ℕ) : n &&& 0x04 = 0 ↔ n / 4 % 2 = 0 := by
  have h : n &&& 0x04 = 0 ↔ ¬ n / 4 % 2 = 1 := mask_bit n 2
  rw [h]
  omega

/-- The refusal test never indexes outside the packet. -/
theorem packetRefused_spec {packet : Bytes} {size : ℕ} (hsize : packet.length = size)
    (hpos : 0 < size) (mono : Bool) : ∃ b, packetRefused packet size mono = .ok b ∧
      (b = false ↔ size ≤ 160 ∧ Accepted mono packet) := by
  by_cases hmax : size > 160
  · exact ⟨true, if_pos hmax, by simp; omega⟩
  · obtain ⟨valid, hvalid, hholds⟩ := is20ms_spec (by omega : packet.length ≤ 160)
    rw [packetRefused, if_neg hmax, hvalid, Accepted, ← hholds]
    cases packet with
    | nil => simp at hsize; omega
    | cons toc rest =>
      change ∃ b, (if ¬ valid = true then _ else _) = _ ∧ _
      cases valid with
      | false => exact ⟨true, rfl, by simp⟩
      | true =>
        cases mono with
        | false => exact ⟨false, rfl, by simp; omega⟩
        | true =>
          refine ⟨_, rfl, ?_⟩
          rw [decide_eq_false_iff_not, not_not, stereo_bit]
          simp only [true_and, forall_const, Mono]
          omega

/-- At a scanned byte the grammar skips a zero, stops at an overflow or reads a packet. -/
theorem framed_cons {accepts : Bytes → Prop} {unscanned : ℕ} {size : UInt8} {rest : Bytes}
    {packets : List Bytes} {overflow : Option ℕ} (hscan : unscanned ≤ rest.length) :
    Framed accepts unscanned (size :: rest) packets overflow ↔
      (size.toNat = 0 ∧ Framed accepts unscanned rest packets overflow) ∨
      (0 < size.toNat ∧ rest.length ≤ size.toNat ∧ size.toNat ≤ 160 ∧ packets = [] ∧
        overflow = some size.toNat) ∨
      (0 < size.toNat ∧ size.toNat < rest.length ∧ size.toNat ≤ 160 ∧
        accepts (rest.take size.toNat) ∧
        ∃ more, packets = rest.take size.toNat :: more ∧
          Framed accepts unscanned (rest.drop size.toNat) more overflow) := by
  constructor
  · intro h
    cases h with
    | stop h => simp at h; omega
    | zero _ hsize hrest => exact .inl ⟨hsize, hrest⟩
    | @packet _ packet rest more _ _ hsize hpos hmax hpacket hend hrest =>
      have hpos := List.length_pos_iff.mpr hpos
      have hend := List.length_pos_iff.mpr hend
      refine .inr (.inr ⟨by omega, by simp; omega, by omega, ?_, more, ?_, ?_⟩)
      · rwa [hsize, List.take_left]
      · rw [hsize, List.take_left]
      · rwa [hsize, List.drop_left]
    | overflow _ hpos hmax hend => exact .inr (.inl ⟨hpos, hend, hmax, rfl, rfl⟩)
  · rintro (⟨hsize, hrest⟩ | ⟨hpos, hend, hmax, rfl, rfl⟩ | ⟨hpos, hend, hmax, hpacket, more, rfl, hrest⟩)
    · exact .zero hscan hsize hrest
    · exact .overflow hscan hpos hmax hend
    · have hlength : (rest.take size.toNat).length = size.toNat := by
        rw [List.length_take]
        omega
      have hframed : Framed accepts unscanned
          (size :: (rest.take size.toNat ++ rest.drop size.toNat)) _ overflow :=
        .packet (by rwa [List.take_append_drop]) hlength.symm
          (List.ne_nil_of_length_pos (by omega)) (by omega) hpacket
          (List.ne_nil_of_length_pos (by rw [List.length_drop]; omega)) hrest
      rwa [List.take_append_drop] at hframed

theorem framed_short {accepts : Bytes → Prop} {unscanned : ℕ} {rest : Bytes}
    (h : rest.length ≤ unscanned) {packets : List Bytes} {overflow : Option ℕ} :
    Framed accepts unscanned rest packets overflow ↔ packets = [] ∧ overflow = none := by
  constructor
  · intro hframed
    cases hframed with
    | stop _ => exact ⟨rfl, rfl⟩
    | zero hscan => simp at h; omega
    | packet hscan => simp at h hscan; omega
    | overflow hscan => simp at h; omega
  · rintro ⟨rfl, rfl⟩
    exact .stop h

/-- What the loop returns after `count` packets: no index error, and success with exactly the
packets that frame the rest of the payload. -/
structure Scanned (mono : Bool) (rest : Bytes) (count : ℕ) (packets : List Bytes)
    (result : Except FramingError (ℕ × Option ℕ × List Bytes)) : Prop where
  inside : result ≠ .error .indexError
  exact : ∀ r, result = .ok r ↔ ∃ more o, Framed (Accepted mono) 1 rest more o ∧
    r = (count + more.length, o, packets ++ more)

variable {mono : Bool} {count : ℕ} {packets : List Bytes}

theorem Scanned.refused {rest : Bytes} {message : String}
    (h : ∀ more o, ¬ Framed (Accepted mono) 1 rest more o) :
    Scanned mono rest count packets (.error (.valueError message)) := by
  refine ⟨by simp, fun r => ?_⟩
  constructor
  · intro hr
    simp at hr
  · rintro ⟨more, o, hframed, -⟩
    exact absurd hframed (h more o)

theorem Scanned.done {rest : Bytes} {o : Option ℕ}
    (h : ∀ more o', Framed (Accepted mono) 1 rest more o' ↔ more = [] ∧ o' = o) :
    Scanned mono rest count packets (.ok (count, o, packets)) := by
  refine ⟨by simp, fun r => ?_⟩
  constructor
  · intro hr
    exact ⟨[], o, (h _ _).mpr ⟨rfl, rfl⟩, by simp [Except.ok.inj hr.symm]⟩
  · rintro ⟨more, o', hframed, rfl⟩
    obtain ⟨rfl, rfl⟩ := (h more o').mp hframed
    simp

/-- One packet in front of what the rest of the loop reads. -/
theorem Scanned.packet {rest after packet : Bytes}
    {result : Except FramingError (ℕ × Option ℕ × List Bytes)}
    (hrest : Scanned mono after (count + 1) (packets ++ [packet]) result)
    (h : ∀ more o, Framed (Accepted mono) 1 rest more o ↔
      ∃ more', more = packet :: more' ∧ Framed (Accepted mono) 1 after more' o) :
    Scanned mono rest count packets result := by
  refine ⟨hrest.inside, fun r => ?_⟩
  rw [hrest.exact]
  constructor
  · rintro ⟨more, o, hframed, rfl⟩
    refine ⟨packet :: more, o, (h _ _).mpr ⟨more, rfl, hframed⟩, ?_⟩
    rw [List.length_cons, List.append_assoc, List.singleton_append, Nat.add_assoc,
      Nat.add_comm 1]
  · rintro ⟨more, o, hframed, rfl⟩
    obtain ⟨more', rfl, hframed'⟩ := (h _ _).mp hframed
    refine ⟨more', o, hframed', ?_⟩
    rw [List.length_cons, List.append_assoc, List.singleton_append, Nat.add_assoc,
      Nat.add_comm 1]

/-- Every round of the loop reads inside the payload, and the loop is the grammar. -/
theorem scan_spec {payload : Bytes} (hlen : payload.length = 440) (mono : Bool)
    (offset count : ℕ) (packets : List Bytes) (hoffset : offset ≤ 439) :
    Scanned mono (payload.drop offset) count packets (scan payload mono offset count packets) := by
  by_cases hlimit : offset < 439
  · have hx : payload[offset]? = some payload[offset] := List.getElem?_eq_getElem (by omega)
    have hdrop : payload.drop offset = payload[offset] :: payload.drop (offset + 1) :=
      List.drop_eq_getElem_cons (by omega)
    generalize payload[offset] = size at hx hdrop
    have hscan : 1 ≤ (payload.drop (offset + 1)).length := by rw [List.length_drop]; omega
    have hrest : (payload.drop (offset + 1)).length = 439 - offset := by
      rw [List.length_drop]; omega
    have hcons : ∀ more o, Framed (Accepted mono) 1 (size :: payload.drop (offset + 1)) more o ↔ _ :=
      fun more o => framed_cons hscan
    rw [scan, if_pos hlimit, index_ok.mpr hx, hdrop]
    change Scanned mono _ count packets (if _ then _ else _)
    by_cases hzero : size.toNat = 0
    · rw [if_pos hzero]
      have ih := scan_spec hlen mono (offset + 1) count packets hlimit
      refine ⟨ih.inside, fun r => ?_⟩
      rw [ih.exact]
      have hskip : ∀ more o, Framed (Accepted mono) 1 (size :: payload.drop (offset + 1)) more o ↔
          Framed (Accepted mono) 1 (payload.drop (offset + 1)) more o := by
        intro more o
        rw [hcons]
        constructor
        · rintro (⟨-, h⟩ | ⟨h, -⟩ | ⟨h, -⟩)
          · exact h
          · omega
          · omega
        · intro h
          exact .inl ⟨hzero, h⟩
      simp only [hskip]
    · rw [if_neg hzero]
      by_cases hend : offset + 1 + size.toNat ≥ payload.length
      · rw [if_pos hend]
        by_cases hmax : size.toNat > 160
        · rw [if_pos hmax]
          apply Scanned.refused
          intro more o
          rw [hcons]
          omega
        · rw [if_neg hmax]
          apply Scanned.done
          intro more o
          rw [hcons]
          constructor
          · rintro (⟨h, -⟩ | ⟨-, -, -, rfl, rfl⟩ | ⟨-, h, -⟩)
            · omega
            · exact ⟨rfl, rfl⟩
            · omega
          · rintro ⟨rfl, rfl⟩
            exact .inr (.inl ⟨by omega, by omega, by omega, rfl, rfl⟩)
      · rw [if_neg hend]
        have hpacket : (payload.take (offset + 1 + size.toNat)).drop (offset + 1) =
            (payload.drop (offset + 1)).take size.toNat := by
          rw [List.drop_take, Nat.add_sub_cancel_left]
        have hsize : ((payload.drop (offset + 1)).take size.toNat).length = size.toNat := by
          rw [List.length_take]
          omega
        obtain ⟨refused, hrefused, hiff⟩ := packetRefused_spec hsize (by omega) mono
        simp only [hpacket, hrefused]
        change Scanned mono _ count packets (if _ then _ else _)
        cases refused with
        | true =>
          apply Scanned.refused
          intro more o
          rw [hcons]
          rintro (⟨h, -⟩ | ⟨-, h, -⟩ | ⟨-, -, hmax, haccepted, -⟩)
          · omega
          · omega
          · exact absurd (hiff.mpr ⟨hmax, haccepted⟩) (by simp)
        | false =>
          have ih := scan_spec hlen mono (offset + 1 + size.toNat) (count + 1)
            (packets ++ [(payload.drop (offset + 1)).take size.toNat]) (by omega)
          obtain ⟨hmax, haccepted⟩ := hiff.mp rfl
          apply Scanned.packet ih
          intro more o
          rw [hcons, List.drop_drop]
          constructor
          · rintro (⟨h, -⟩ | ⟨-, h, -⟩ | ⟨-, -, -, -, h⟩)
            · omega
            · omega
            · exact h
          · intro h
            exact .inr (.inr ⟨by omega, by omega, hmax, haccepted, h⟩)
  · rw [scan, if_neg hlimit]
    apply Scanned.done
    intro more o
    exact framed_short (by rw [List.length_drop]; omega)
termination_by 439 - offset

/-- The layout of a framed record. -/
def layoutOf (record : Bytes) (packets : List Bytes) (overflow : Option ℕ) : RecordAudioLayout :=
  ⟨packets.length, ((record.drop 4).getD 0 0).toNat, overflow, packets⟩

/-- A record is inspected without an index error, and accepted exactly when its payload is
framed. -/
theorem inspectRecord_spec {record : Bytes} (hlen : record.length = 444) (mono : Bool) :
    inspectRecord record mono ≠ .error .indexError ∧
      ∀ layout, inspectRecord record mono = .ok layout ↔ ∃ packets overflow,
        Framed (Accepted mono) 1 (record.drop 4) packets overflow ∧
          layout = layoutOf record packets overflow := by
  have hpayload : (record.drop 4).length = 440 := by rw [List.length_drop]; omega
  have hfirst : index (record.drop 4) 0 = .ok ((record.drop 4).getD 0 0) := by
    rw [index_ok, List.getD_eq_getElem?_getD, List.getElem?_eq_getElem (by omega)]
    rfl
  have hscan := scan_spec hpayload mono 0 0 [] (by omega)
  rw [List.drop_zero] at hscan
  rw [inspectRecord]
  cases hresult : scan (record.drop 4) mono 0 0 [] with
  | error e =>
    rw [hresult] at hscan
    refine ⟨fun h => hscan.inside (by simpa [bind, Except.bind] using h), fun layout => ?_⟩
    constructor
    · intro h
      simp [bind, Except.bind] at h
    · rintro ⟨packets, overflow, hframed, -⟩
      have hok := (hscan.exact _).mpr ⟨packets, overflow, hframed, rfl⟩
      simp at hok
  | ok r =>
    obtain ⟨packets, overflow, hframed, rfl⟩ := (hscan.exact r).mp hresult
    change (index (record.drop 4) 0 >>= fun first => _) ≠ _ ∧
      ∀ layout, (index (record.drop 4) 0 >>= fun first => _) = _ ↔ _
    rw [hfirst]
    refine ⟨fun h => by simp [bind, Except.bind] at h, fun layout => ?_⟩
    constructor
    · intro h
      refine ⟨packets, overflow, hframed, ?_⟩
      have hlayout := Except.ok.inj h
      rw [← hlayout, layoutOf, Nat.zero_add, List.nil_append]
    · rintro ⟨packets', overflow', hframed', rfl⟩
      have hsame := hresult.symm.trans ((hscan.exact _).mpr ⟨packets', overflow', hframed', rfl⟩)
      simp only [Except.ok.injEq, Prod.mk.injEq, List.nil_append, Nat.zero_add] at hsame
      obtain ⟨-, rfl, rfl⟩ := hsame
      simp [bind, Except.bind, layoutOf]

theorem framed_zeros {accepts : Bytes → Prop} {unscanned : ℕ} {rest : Bytes}
    (hrest : unscanned ≤ rest.length) (n : ℕ) {packets : List Bytes} {overflow : Option ℕ} :
    Framed accepts unscanned (List.replicate n 0 ++ rest) packets overflow ↔
      Framed accepts unscanned rest packets overflow := by
  induction n with
  | zero => rfl
  | succ n ih =>
    rw [List.replicate_succ, List.cons_append,
      framed_cons (hrest.trans (by rw [List.length_append]; omega)), ih]
    simp

theorem holds20ms_one {toc : UInt8} {frame : Bytes} (hcode : toc.toNat % 4 = 0) (hframe : frame ≠ [])
    (hlen : frame.length ≤ 159) (hsamples : frameSamples (toc :: frame) = 960) :
    Holds20ms (toc :: frame) := by
  rw [holds20ms_iff (by rw [List.length_cons]; omega)]
  exact ⟨1, (frames_one hcode).mpr ⟨rfl, hframe⟩, by rw [hsamples]⟩

theorem not_holds20ms_toc (toc : UInt8) (hcode : toc.toNat % 4 = 0) : ¬ Holds20ms [toc] := by
  rw [holds20ms_iff (by simp)]
  rintro ⟨n, hframes, -⟩
  exact ((frames_one hcode).mp hframes).2 rfl

/-- A record is read without an index error, and accepted exactly when its payload is framed with
its last byte unscanned; the layout then has those packets in order. Every packet of at most 160
bytes passes the test exactly when it holds 20 ms in well-formed frames. -/
theorem inspectRecord_exact {record : Bytes} (hrecord : record.length = 444) (mono : Bool)
    {packet : Bytes} (hpacket : packet.length ≤ 160) :
    (inspectRecord record mono ≠ .error .indexError ∧
      ∀ layout, inspectRecord record mono = .ok layout ↔ ∃ packets overflow,
        Framed (Accepted mono) 1 (record.drop 4) packets overflow ∧
          layout = layoutOf record packets overflow) ∧
    ∃ b, is20ms packet = .ok b ∧ (b = true ↔ Holds20ms packet) :=
  ⟨inspectRecord_spec hrecord mono, is20ms_spec hpacket⟩

/-- A record whose payload is `n` zero bytes and `rest`. -/
def zeroRecord (n : ℕ) (rest : Bytes) : Bytes :=
  List.replicate 4 0 ++ (List.replicate n 0 ++ rest)

theorem zeroRecord_length (n : ℕ) (rest : Bytes) :
    (zeroRecord n rest).length = 4 + (n + rest.length) := by
  rw [zeroRecord, List.length_append, List.length_append, List.length_replicate,
    List.length_replicate]

theorem zeroRecord_payload (n : ℕ) (rest : Bytes) :
    (zeroRecord n rest).drop 4 = List.replicate n 0 ++ rest := rfl

/-- One mono packet of one 20 ms frame after zero bytes, and the unscanned byte. -/
theorem inspectRecord_exact_packet :
    inspectRecord (zeroRecord 436 [2, 8, 0x55, 0xA5]) true = .ok ⟨1, 0, none, [[8, 0x55]]⟩ ∧
      is20ms [8, 0x55] = .ok true := by
  have hholds : Holds20ms [8, 0x55] := holds20ms_one rfl (by simp) (by simp) rfl
  have haccepted : Accepted true [8, 0x55] := ⟨hholds, fun _ => rfl⟩
  have hlast : Framed (Accepted true) 1 (2 :: ([8, 0x55] ++ [0xA5])) [[8, 0x55]] none :=
    .packet (by simp) rfl (by simp) (by simp) haccepted (by simp) (.stop le_rfl)
  obtain ⟨⟨-, hlayout⟩, b, hb, hiff⟩ :=
    inspectRecord_exact (zeroRecord_length 436 [2, 8, 0x55, 0xA5]) true
      (show [8, (0x55 : UInt8)].length ≤ 160 by decide)
  rw [hiff.mpr hholds] at hb
  exact ⟨(hlayout _).mpr ⟨[[8, 0x55]], none, (framed_zeros (by simp) 436).mpr hlast, rfl⟩, hb⟩

theorem take_zeros (n k : ℕ) (rest : Bytes) :
    (List.replicate n 0 ++ rest).take (n + k) = List.replicate n 0 ++ rest.take k := by
  rw [List.take_append, List.length_replicate, Nat.add_sub_cancel_left,
    List.take_of_length_le (by rw [List.length_replicate]; omega)]

/-- The grammar of the whole payload is not what the loop accepts, and neither is that of its
first 439 bytes: a payload ending in 255 is accepted, and one whose size byte at 437 announces the
byte before the end of the scan is refused. -/
theorem inspectRecord_last_byte :
    (¬ ∀ record mono, record.length = 444 →
      ((∃ layout, inspectRecord record mono = .ok layout) ↔ ∃ packets overflow,
        Framed (Accepted mono) 0 (record.drop 4) packets overflow)) ∧
    ¬ ∀ record mono, record.length = 444 →
      ((∃ layout, inspectRecord record mono = .ok layout) ↔ ∃ packets overflow,
        Framed (Accepted mono) 0 ((record.drop 4).take 439) packets overflow) := by
  constructor
  · intro h
    have hrecord := zeroRecord_length 439 [255]
    have hlast : Framed (Accepted false) 1 [255] [] none := .stop le_rfl
    have hframed := (framed_zeros (by decide : 1 ≤ [(255 : UInt8)].length) 439).mpr hlast
    have hok := ((inspectRecord_spec hrecord false).2 _).mpr ⟨[], none, hframed, rfl⟩
    obtain ⟨packets, overflow, hwhole⟩ := (h _ false hrecord).mp ⟨_, hok⟩
    rw [zeroRecord_payload, framed_zeros (Nat.zero_le _), framed_cons (Nat.zero_le _)] at hwhole
    simp at hwhole
  · intro h
    have hrecord := zeroRecord_length 437 [1, 8, 0]
    have hlast : Framed (Accepted false) 0 [1, 8] [] (some 1) :=
      .overflow (Nat.zero_le _) (by decide) (by decide) (by decide)
    have hframed := (framed_zeros (Nat.zero_le _) 437).mpr hlast
    rw [← show [1, 8, 0].take 2 = [1, (8 : UInt8)] from rfl, ← take_zeros] at hframed
    obtain ⟨layout, hok⟩ := (h _ false hrecord).mpr ⟨[], some 1, hframed⟩
    obtain ⟨packets, overflow, hscanned, -⟩ := ((inspectRecord_spec hrecord false).2 layout).mp hok
    rw [zeroRecord_payload, framed_zeros (by simp), framed_cons (by simp)] at hscanned
    have htoc := not_holds20ms_toc 8 rfl
    simp [Accepted, htoc] at hscanned

end RecordFraming
