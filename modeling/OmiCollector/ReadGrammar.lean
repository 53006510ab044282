import OmiCollector.TransferArena

/-! The notifications of one READ, byte by byte, and the order in which a device sends them:
acknowledgements, one READ_BEGIN, DATA with the bytes of the leg, and one DONE. -/
namespace ReadGrammar

open ByteCodec TransferArena

def IsAck (payload : Bytes) : Prop := payload = [notifyAck, 0]

def IsReadBegin (start count : ℕ) (payload : Bytes) : Prop :=
  ∃ s c : Bytes, payload = notifyReadBegin :: (s ++ c) ∧ s.length = 8 ∧ c.length = 4 ∧
    fromBytesBig s = start ∧ fromBytesBig c = count

def IsData (payload : Bytes) : Prop := ∃ body, payload = notifyData :: body

/-- A DONE with status zero. -/
def IsDone (next : ℕ) (payload : Bytes) : Prop :=
  ∃ s : Bytes, payload = notifyDone :: 0 :: s ∧ s.length = 8 ∧ fromBytesBig s = next

/-- The bytes that a notification carries; only DATA carries any. -/
def bodyOf : Bytes → Bytes
  | [] => []
  | opcode :: body => if opcode = notifyData then body else []

def bodies (payloads : List Bytes) : Bytes := payloads.flatMap bodyOf

/-- The bytes are the resident ones, as far as there are both. -/
def Agrees (got resident : Bytes) : Prop :=
  ∀ i, i < got.length → i < resident.length → got[i]? = resident[i]?

/-- A leg, and the bytes from its start on that were resident when it began. -/
structure Leg where
  start : ℕ
  count : ℕ
  resident : Bytes
  deriving DecidableEq, Repr

/-- READ_BEGIN has not come yet. -/
def Opening (payloads : List Bytes) : Prop := ∀ payload ∈ payloads, IsAck payload

/-- READ_BEGIN came, and DATA of the leg. -/
structure Receiving (leg : Leg) (payloads : List Bytes) : Prop where
  order : ∃ before begun after, payloads = before ++ begun :: after ∧ Opening before ∧
    IsReadBegin leg.start leg.count begun ∧ ∀ payload ∈ after, IsAck payload ∨ IsData payload
  fits : (bodies payloads).length ≤ leg.count * recordSize
  agrees : Agrees (bodies payloads) leg.resident

/-- The whole stream of a leg. -/
def Complete (leg : Leg) (payloads : List Bytes) : Prop :=
  ∃ received done, payloads = received ++ [done] ∧ Receiving leg received ∧
    (bodies received).length = leg.count * recordSize ∧ IsDone (leg.start + leg.count) done

/-- A stream without an offending payload that is not over. -/
def Conforms (leg : Leg) (payloads : List Bytes) : Prop :=
  Opening payloads ∨ Receiving leg payloads

/-- The last of these notifications is one too many. -/
def Offends (leg : Leg) (payloads : List Bytes) : Prop :=
  ¬ Conforms leg payloads ∧ ¬ Complete leg payloads

/-- A stream over with its last notification. -/
def Ends (leg : Leg) (payloads : List Bytes) : Prop :=
  ∃ earlier last, payloads = earlier ++ [last] ∧ Conforms leg earlier ∧ ¬ Conforms leg payloads

variable {leg : Leg} {payloads : List Bytes} {payload : Bytes}

theorem agrees_replicate (m n : ℕ) (byte : UInt8) :
    Agrees (List.replicate m byte) (List.replicate n byte) := by
  intro i hi hresident
  rw [List.length_replicate] at hi hresident
  rw [List.getElem?_replicate_of_lt hi, List.getElem?_replicate_of_lt hresident]

theorem bodyOf_ack (h : IsAck payload) : bodyOf payload = [] := by
  obtain rfl := h
  decide

theorem bodyOf_readBegin {start count : ℕ} (h : IsReadBegin start count payload) :
    bodyOf payload = [] := by
  obtain ⟨s, c, rfl, -⟩ := h
  simp [bodyOf, notifyReadBegin, notifyData]

theorem bodyOf_done {next : ℕ} (h : IsDone next payload) : bodyOf payload = [] := by
  obtain ⟨s, rfl, -⟩ := h
  simp [bodyOf, notifyDone, notifyData]

theorem bodyOf_data (body : Bytes) : bodyOf (notifyData :: body) = body := by
  simp [bodyOf]

@[simp] theorem bodies_snoc (payloads : List Bytes) (payload : Bytes) :
    bodies (payloads ++ [payload]) = bodies payloads ++ bodyOf payload := by
  simp [bodies]

theorem bodies_opening (h : Opening payloads) : bodies payloads = [] := by
  rw [bodies, List.flatMap_eq_nil_iff]
  exact fun p hp => bodyOf_ack (h p hp)

theorem not_readBegin_of_ack (h : IsAck payload) (start count : ℕ) :
    ¬ IsReadBegin start count payload := by
  rintro ⟨s, c, rfl, -⟩
  exact absurd h (by simp [IsAck, notifyReadBegin, notifyAck])

theorem opening_snoc : Opening (payloads ++ [payload]) ↔ Opening payloads ∧ IsAck payload := by
  simp [Opening, or_imp, forall_and]

/-- A stream is received further by a READ_BEGIN after acknowledgements, an acknowledgement, or
DATA that fits and agrees. -/
theorem receiving_snoc : Receiving leg (payloads ++ [payload]) ↔
    (Opening payloads ∧ IsReadBegin leg.start leg.count payload) ∨
      (Receiving leg payloads ∧ (IsAck payload ∨ (IsData payload ∧
        (bodies payloads ++ bodyOf payload).length ≤ leg.count * recordSize ∧
        Agrees (bodies payloads ++ bodyOf payload) leg.resident))) := by
  constructor
  · rintro ⟨⟨before, begun, after, hsplit, hbefore, hbegun, hafter⟩, hfits, hagrees⟩
    rw [bodies_snoc] at hfits hagrees
    rcases List.eq_nil_or_concat after with rfl | ⟨rest, last, rfl⟩
    · obtain ⟨rfl, hlast⟩ := List.append_inj' hsplit rfl
      obtain rfl : payload = begun := by simpa using hlast
      exact .inl ⟨hbefore, hbegun⟩
    · rw [List.concat_eq_append, ← List.cons_append, ← List.append_assoc] at hsplit
      obtain ⟨rfl, hlast⟩ := List.append_inj' hsplit rfl
      obtain rfl : payload = last := by simpa using hlast
      have hshort : (bodies (before ++ begun :: rest)).length ≤ leg.count * recordSize := by
        rw [List.length_append] at hfits
        omega
      have hprefix : Agrees (bodies (before ++ begun :: rest)) leg.resident := by
        intro i hi hresident
        have hsame := hagrees i (by rw [List.length_append]; omega) hresident
        rwa [List.getElem?_append_left hi] at hsame
      refine .inr ⟨⟨⟨before, begun, rest, rfl, hbefore, hbegun, fun p hp => hafter p (by simp [hp])⟩,
        hshort, hprefix⟩, ?_⟩
      exact (hafter payload (by simp)).imp_right fun hdata => ⟨hdata, hfits, hagrees⟩
  · rintro (⟨hopening, hbegun⟩ | ⟨⟨⟨before, begun, after, rfl, hbefore, hbegun, hafter⟩, hfits,
      hagrees⟩, hlast⟩)
    · have hbodies : bodies (payloads ++ [payload]) = [] := by
        rw [bodies_snoc, bodies_opening hopening, bodyOf_readBegin hbegun]
        rfl
      refine ⟨⟨payloads, payload, [], rfl, hopening, hbegun, by simp⟩, ?_, ?_⟩
      · simp [hbodies]
      · simp [hbodies, Agrees]
    · refine ⟨⟨before, begun, after ++ [payload], by simp, hbefore, hbegun, ?_⟩, ?_, ?_⟩
      · intro p hp
        rcases List.mem_append.mp hp with hp | hp
        · exact hafter p hp
        · obtain rfl := List.mem_singleton.mp hp
          exact hlast.imp_right And.left
      · rw [bodies_snoc]
        rcases hlast with hack | ⟨-, hfits', -⟩
        · rwa [bodyOf_ack hack, List.append_nil]
        · exact hfits'
      · rw [bodies_snoc]
        rcases hlast with hack | ⟨-, -, hagrees'⟩
        · rwa [bodyOf_ack hack, List.append_nil]
        · exact hagrees'

theorem complete_snoc : Complete leg (payloads ++ [payload]) ↔ Receiving leg payloads ∧
    (bodies payloads).length = leg.count * recordSize ∧ IsDone (leg.start + leg.count) payload := by
  constructor
  · rintro ⟨received, done, hsplit, hreceiving, hlength, hdone⟩
    obtain ⟨rfl, hlast⟩ := List.append_inj' hsplit rfl
    obtain rfl : payload = done := by simpa using hlast
    exact ⟨hreceiving, hlength, hdone⟩
  · rintro ⟨hreceiving, hlength, hdone⟩
    exact ⟨payloads, payload, rfl, hreceiving, hlength, hdone⟩

theorem Receiving.not_opening (h : Receiving leg payloads) : ¬ Opening payloads := by
  obtain ⟨before, begun, after, rfl, -, hbegun, -⟩ := h.order
  exact fun hopening => not_readBegin_of_ack (hopening begun (by simp)) _ _ hbegun

theorem opening_next (h : Opening payloads) :
    (Conforms leg (payloads ++ [payload]) ↔
        IsAck payload ∨ IsReadBegin leg.start leg.count payload) ∧
      ¬ Complete leg (payloads ++ [payload]) := by
  have hnot : ¬ Receiving leg payloads := fun hreceiving => hreceiving.not_opening h
  constructor
  · rw [Conforms, opening_snoc, receiving_snoc]
    simp [h, hnot]
  · rw [complete_snoc]
    exact fun hcomplete => hnot hcomplete.1

theorem receiving_next (h : Receiving leg payloads) :
    Conforms leg (payloads ++ [payload]) ↔ IsAck payload ∨ (IsData payload ∧
      (bodies payloads ++ bodyOf payload).length ≤ leg.count * recordSize ∧
      Agrees (bodies payloads ++ bodyOf payload) leg.resident) := by
  rw [Conforms, opening_snoc, receiving_snoc]
  simp [h, h.not_opening]

theorem Conforms.of_snoc (h : Conforms leg (payloads ++ [payload])) : Conforms leg payloads := by
  rcases h with hopening | hreceiving
  · exact .inl (opening_snoc.mp hopening).1
  · rcases receiving_snoc.mp hreceiving with ⟨hopening, -⟩ | ⟨hearlier, -⟩
    · exact .inl hopening
    · exact .inr hearlier

theorem Conforms.of_append {rest : List Bytes} (h : Conforms leg (payloads ++ rest)) :
    Conforms leg payloads := by
  induction rest using List.reverseRecOn with
  | nil => rwa [List.append_nil] at h
  | append_singleton rest last ih =>
    rw [← List.append_assoc] at h
    exact ih h.of_snoc

theorem Conforms.last (h : Conforms leg (payloads ++ [payload])) :
    IsAck payload ∨ IsReadBegin leg.start leg.count payload ∨ IsData payload := by
  rcases h with hopening | hreceiving
  · exact .inl (opening_snoc.mp hopening).2
  · rcases receiving_snoc.mp hreceiving with ⟨-, hbegun⟩ | ⟨-, hack | ⟨hdata, -⟩⟩
    · exact .inr (.inl hbegun)
    · exact .inl hack
    · exact .inr (.inr hdata)

theorem not_conforms_of_done {next : ℕ} (h : IsDone next payload) :
    ¬ Conforms leg (payloads ++ [payload]) := by
  obtain ⟨s, rfl, -⟩ := h
  intro hconforms
  have hack : ¬ IsAck (notifyDone :: 0 :: s) := by simp [IsAck, notifyDone, notifyAck]
  have hbegun : ¬ IsReadBegin leg.start leg.count (notifyDone :: 0 :: s) := by
    rintro ⟨a, b, heq, -⟩
    simp [notifyDone, notifyReadBegin] at heq
  have hdata : ¬ IsData (notifyDone :: 0 :: s) := by
    rintro ⟨body, heq⟩
    simp [notifyDone, notifyData] at heq
  rcases hconforms.last with h | h | h
  · exact hack h
  · exact hbegun h
  · exact hdata h

/-- A whole stream is not a part of one that still goes on. -/
theorem Complete.not_conforms {rest : List Bytes} (h : Complete leg payloads) :
    ¬ Conforms leg (payloads ++ rest) := by
  obtain ⟨received, done, rfl, -, -, hdone⟩ := h
  exact fun hconforms => not_conforms_of_done hdone hconforms.of_append

theorem Complete.ends (h : Complete leg payloads) : Ends leg payloads := by
  have hover : ¬ Conforms leg (payloads ++ []) := h.not_conforms
  rw [List.append_nil] at hover
  obtain ⟨received, done, rfl, hreceiving, -⟩ := h
  exact ⟨received, done, rfl, .inr hreceiving, hover⟩

theorem Ends.not_conforms {rest : List Bytes} (h : Ends leg payloads) :
    ¬ Conforms leg (payloads ++ rest) := by
  obtain ⟨earlier, last, -, -, hover⟩ := h
  exact fun hconforms => hover hconforms.of_append

theorem Ends.not_shorter {p q : List Bytes} (hp : Ends leg p) (hq : Ends leg q) (h : p <+: q) :
    p = q := by
  obtain ⟨rest, rfl⟩ := h
  rcases List.eq_nil_or_concat rest with rfl | ⟨rest, last, rfl⟩
  · rw [List.append_nil]
  · obtain ⟨earlier, _, hsplit, hconforms, -⟩ := hq
    rw [List.concat_eq_append, ← List.append_assoc] at hsplit
    obtain ⟨rfl, -⟩ := List.append_inj' hsplit rfl
    exact absurd hconforms hp.not_conforms

/-- A stream is over once. -/
theorem Ends.unique {p q : List Bytes} (hp : Ends leg p) (hq : Ends leg q) (h : p <+: payloads)
    (h' : q <+: payloads) : p = q := by
  rcases List.prefix_or_prefix_of_prefix h h' with hle | hle
  · exact hp.not_shorter hq hle
  · exact (hq.not_shorter hp hle).symm

/-! ## The parsers read exactly these notifications -/

theorem requireNotification_ok {length : ℕ} {opcode : UInt8} {label : String} {u : Unit} :
    requireNotification payload length opcode label = .ok u ↔
      payload.length = length ∧ payload.head? = some opcode := by
  unfold requireNotification
  split
  · rename_i h
    simp [h]
  · rename_i h
    split
    · rename_i hhead
      simp [hhead]
    · rename_i hhead
      simp [not_not.mp h, not_not.mp hhead]

theorem parseAck_zero : parseAckNotification payload = .ok 0 ↔ IsAck payload := by
  simp only [parseAckNotification, bind, Except.bind, pure, Except.pure]
  constructor
  · intro h
    split at h
    · cases h
    · rename_i hrequired
      obtain ⟨hlength, hhead⟩ := requireNotification_ok.mp hrequired
      match payload, hlength with
      | [a, b], _ =>
        obtain rfl : a = notifyAck := by simpa using hhead
        obtain rfl : b = 0 := by simpa using h
        rfl
  · rintro rfl
    rfl

theorem parseReadBegin_ok {start count : ℕ} :
    parseReadBeginNotification payload = .ok ⟨start, count⟩ ↔ IsReadBegin start count payload := by
  simp only [parseReadBeginNotification, bind, Except.bind, pure, Except.pure]
  constructor
  · intro h
    split at h
    · cases h
    · rename_i hrequired
      obtain ⟨hlength, hhead⟩ := requireNotification_ok.mp hrequired
      cases payload with
      | nil => cases hlength
      | cons opcode rest =>
        obtain rfl : opcode = notifyReadBegin := by simpa using hhead
        rw [List.length_cons, Nat.succ.injEq] at hlength
        simp only [Except.ok.injEq, ReadBeginNotification.mk.injEq] at h
        refine ⟨rest.take 8, rest.drop 8, by rw [List.take_append_drop], ?_, ?_, h.1, ?_⟩
        · rw [List.length_take]
          omega
        · rw [List.length_drop]
          omega
        · have hall : (rest.drop 8).take 4 = rest.drop 8 := by
            rw [List.take_of_length_le]
            rw [List.length_drop]
            omega
          rw [← hall]
          exact h.2
  · rintro ⟨s, c, rfl, hs, hc, rfl, rfl⟩
    have hrequired : requireNotification (notifyReadBegin :: (s ++ c)) 13 notifyReadBegin
        "READ_BEGIN notification" = .ok () := by
      rw [requireNotification_ok]
      simp [hs, hc]
    rw [hrequired]
    simp [readUint, ← hs, ← hc]

theorem parseDone_ok {next : ℕ} :
    parseDoneNotification payload = .ok ⟨0, next⟩ ↔ IsDone next payload := by
  simp only [parseDoneNotification, bind, Except.bind, pure, Except.pure]
  constructor
  · intro h
    split at h
    · cases h
    · rename_i hrequired
      obtain ⟨hlength, hhead⟩ := requireNotification_ok.mp hrequired
      match payload, hlength with
      | opcode :: status :: rest, hlength =>
        obtain rfl : opcode = notifyDone := by simpa using hhead
        simp only [Except.ok.injEq, DoneNotification.mk.injEq] at h
        obtain rfl : status = 0 := by simpa using h.1
        have hrest : rest.length = 8 := by simpa using hlength
        refine ⟨rest, rfl, hrest, ?_⟩
        rw [← h.2]
        simp [readUint, ← hrest]
  · rintro ⟨s, rfl, hs, rfl⟩
    have hrequired : requireNotification (notifyDone :: 0 :: s) 10 notifyDone "DONE notification" =
        .ok () := by
      rw [requireNotification_ok]
      simp [hs]
    rw [hrequired]
    simp [readUint, ← hs]

theorem parseData_ok {body : Bytes} :
    parseDataNotification payload = .ok body ↔ payload = notifyData :: body := by
  cases payload with
  | nil => simp [parseDataNotification]
  | cons opcode rest =>
    by_cases h : opcode = notifyData
    · simp [parseDataNotification, h]
    · simp [parseDataNotification, h]

end ReadGrammar
