import OmiCollector.CaptureStore

/-! Contiguous record rows and the page loops that read them. -/
namespace CaptureRows

open ByteCodec CaptureModel CaptureStore

/-- Rows whose ordinals are consecutive from `first`. -/
def Contiguous (first : ℕ) (rows : List CaptureRecord) : Prop :=
  rows.map (·.ordinal) = List.range' first rows.length

theorem contiguous_nil (first : ℕ) : Contiguous first [] := rfl

theorem contiguous_cons {first : ℕ} {r : CaptureRecord} {rows : List CaptureRecord} :
    Contiguous first (r :: rows) ↔ r.ordinal = first ∧ Contiguous (first + 1) rows := by
  simp [Contiguous, List.range'_succ]

theorem contiguous_append {first : ℕ} {xs ys : List CaptureRecord} :
    Contiguous first (xs ++ ys) ↔ Contiguous first xs ∧ Contiguous (first + xs.length) ys := by
  induction xs generalizing first with
  | nil => simp [contiguous_nil]
  | cons r xs ih =>
    have hlen : first + 1 + xs.length = first + (xs.length + 1) := by omega
    simp only [List.cons_append, contiguous_cons, ih, List.length_cons, hlen, and_assoc]

theorem Contiguous.drop {first : ℕ} {rows : List CaptureRecord} (h : Contiguous first rows)
    {k : ℕ} (hk : k ≤ rows.length) : Contiguous (first + k) (rows.drop k) := by
  rw [← List.take_append_drop k rows, contiguous_append] at h
  simpa [List.length_take, Nat.min_eq_left hk] using h.2

theorem Contiguous.take {first : ℕ} {rows : List CaptureRecord} (h : Contiguous first rows)
    (k : ℕ) : Contiguous first (rows.take k) := by
  rw [← List.take_append_drop k rows, contiguous_append] at h
  exact h.1

theorem Contiguous.ordinal {first : ℕ} {rows : List CaptureRecord} (h : Contiguous first rows)
    {k : ℕ} {r : CaptureRecord} (hr : rows[k]? = some r) : r.ordinal = first + k := by
  induction rows generalizing first k with
  | nil => simp at hr
  | cons x rows ih =>
    obtain ⟨hx, hrest⟩ := contiguous_cons.mp h
    cases k with
    | zero =>
      obtain rfl : x = r := by simpa using hr
      simpa using hx
    | succ k =>
      have := ih hrest (by simpa using hr)
      omega

theorem Contiguous.ordinal_lt {first : ℕ} {rows : List CaptureRecord} (h : Contiguous first rows)
    {r : CaptureRecord} (hr : r ∈ rows) : first ≤ r.ordinal ∧ r.ordinal < first + rows.length := by
  obtain ⟨k, hk, rfl⟩ := List.mem_iff_getElem.mp hr
  have := h.ordinal (List.getElem?_eq_getElem hk)
  omega

/-- A page cursor selects a suffix of contiguous rows. -/
theorem Contiguous.filter_after {first : ℕ} {rows : List CaptureRecord} (h : Contiguous first rows)
    (k : ℕ) : rows.filter (fun r => decide ((k : ℤ) - 1 < r.ordinal)) = rows.drop (k - first) := by
  induction rows generalizing first with
  | nil => simp
  | cons r rows ih =>
    obtain ⟨hr, hrest⟩ := contiguous_cons.mp h
    by_cases hk : k ≤ first
    · have hall : ∀ x ∈ r :: rows, decide ((k : ℤ) - 1 < x.ordinal) = true := by
        intro x hx
        have := (h.ordinal_lt hx).1
        simp only [decide_eq_true_eq]
        omega
      rw [List.filter_eq_self.mpr hall, Nat.sub_eq_zero_of_le hk, List.drop_zero]
    · have hdrop : k - first = (k - (first + 1)) + 1 := by omega
      have hno : ¬ ((k : ℤ) - 1 < r.ordinal) := by omega
      rw [hdrop, List.drop_succ_cons, List.filter_cons_of_neg (by simpa using hno)]
      exact ih hrest

/-- A limit on the ordinal selects the first of contiguous rows. -/
theorem Contiguous.filter_before {first : ℕ} {rows : List CaptureRecord}
    (h : Contiguous first rows) (count : ℕ) :
    rows.filter (fun r => decide (r.ordinal < first + count)) = rows.take count := by
  induction rows generalizing first count with
  | nil => simp
  | cons r rows ih =>
    obtain ⟨hr, hrest⟩ := contiguous_cons.mp h
    cases count with
    | zero =>
      rw [List.take_zero, List.filter_eq_nil_iff]
      intro x hx
      have := (h.ordinal_lt hx).1
      simpa using this
    | succ k =>
      have hrest' := ih hrest k
      rw [show first + 1 + k = first + (k + 1) by omega] at hrest'
      rw [List.filter_cons_of_pos (by simp; omega), hrest', List.take_succ_cons]

theorem Contiguous.recordPage {rows : List CaptureRecord} (h : Contiguous 0 rows) (k limit : ℕ) :
    CaptureStore.recordPage rows (k - 1) limit = (rows.drop k).take limit := by
  unfold CaptureStore.recordPage
  rw [h.filter_after k, Nat.sub_zero]

/-- The row loop hashes every row when each passes its check. -/
theorem hashRows_ok {check : ℕ → CaptureRecord → Option String} {rows : List CaptureRecord}
    {first : ℕ} (state : Bytes) (h : Contiguous first rows)
    (hcheck : ∀ r ∈ rows, check r.ordinal r = none) :
    hashRows check rows first state = .ok (first + rows.length, state ++ rawLog rows) := by
  induction rows generalizing first state with
  | nil => simp [hashRows]
  | cons r rows ih =>
    obtain ⟨hr, hrest⟩ := contiguous_cons.mp h
    have hr' : check first r = none := hr ▸ hcheck r (by simp)
    have hlen : first + 1 + rows.length = first + (rows.length + 1) := by omega
    rw [hashRows, hr']
    rw [ih (state ++ r.rawBytes) hrest (fun x hx => hcheck x (by simp [hx]))]
    simp [hlen]

/-- The page loop hashes every row of a contiguous table, whatever the page size. -/
theorem hashPages_ok {check : ℕ → CaptureRecord → Option String} {rows : List CaptureRecord}
    {limit : ℕ} (hlimit : 1 ≤ limit) (h : Contiguous 0 rows)
    (hcheck : ∀ r ∈ rows, check r.ordinal r = none) (fuel count : ℕ) (state : Bytes)
    (hcount : count ≤ rows.length) (hfuel : rows.length - count < fuel) :
    hashPages check rows limit fuel count state =
      .ok (rows.length, state ++ rawLog (rows.drop count)) := by
  induction fuel generalizing count state with
  | zero => omega
  | succ fuel ih =>
    rw [hashPages, h.recordPage]
    -- An empty page is the end of the table; otherwise the cursor moves by the page length.
    cases hpage : (rows.drop count).take limit with
    | nil =>
      have hend : rows.drop count = [] := by
        rcases List.take_eq_nil_iff.mp hpage with hzero | hnil
        · omega
        · exact hnil
      have hlen : count = rows.length :=
        le_antisymm hcount (List.drop_eq_nil_iff.mp hend)
      simp [hlen]
    | cons r page =>
      have hsub : ∀ x ∈ r :: page, x ∈ rows := by
        intro x hx
        rw [← hpage] at hx
        exact List.mem_of_mem_drop (List.mem_of_mem_take hx)
      have hcont : Contiguous count (r :: page) := by
        rw [← hpage]
        exact (by simpa using h.drop hcount : Contiguous count (rows.drop count)).take limit
      have hlen : (r :: page).length = min limit (rows.length - count) := by
        rw [← hpage]; simp
      have hpos : 0 < (r :: page).length := by simp
      change (hashRows check (r :: page) count state >>= fun x =>
        hashPages check rows limit fuel x.1 x.2) = _
      rw [hashRows_ok state hcont (fun x hx => hcheck x (hsub x hx))]
      change hashPages check rows limit fuel (count + (r :: page).length)
        (state ++ rawLog (r :: page)) = _
      rw [ih _ _ (by omega) (by omega)]
      have hsplit : rows.drop count = (r :: page) ++ rows.drop (count + (r :: page).length) := by
        conv_lhs => rw [← List.take_append_drop limit (rows.drop count), hpage, List.drop_drop]
        congr 1
        by_cases hl : limit ≤ rows.length - count
        · rw [hlen, Nat.min_eq_left hl]
        · rw [List.drop_eq_nil_of_le (by omega), List.drop_eq_nil_of_le (by omega)]
      rw [hsplit, rawLog_append, List.append_assoc]

/-- Rows in primary-key order. -/
def Ordered (rows : List CaptureRecord) : Prop := rows.Pairwise (fun a b => a.ordinal < b.ordinal)

/-- After consecutive rows from zero, the cursor of the last one selects the others. -/
theorem Ordered.filter_after {rows : List CaptureRecord} (h : Ordered rows) {count : ℕ}
    (hc : Contiguous 0 (rows.take count)) (hlen : count ≤ rows.length) :
    rows.filter (fun r => decide ((count : ℤ) - 1 < r.ordinal)) = rows.drop count := by
  have hsplit := List.take_append_drop count rows
  have htake : (rows.take count).length = count := List.length_take_of_le hlen
  rw [Ordered, ← hsplit, List.pairwise_append] at h
  have hbefore : ∀ r ∈ rows.take count, ¬ decide ((count : ℤ) - 1 < r.ordinal) = true := by
    intro r hr
    have := (hc.ordinal_lt hr).2
    rw [decide_eq_true_eq]
    omega
  have hafter : ∀ r ∈ rows.drop count, decide ((count : ℤ) - 1 < r.ordinal) = true := by
    intro r hr
    rw [decide_eq_true_eq]
    cases count with
    | zero => omega
    | succ k =>
      obtain ⟨x, hx⟩ : ∃ x, (rows.take (k + 1))[k]? = some x :=
        ⟨_, List.getElem?_eq_getElem (by omega)⟩
      have hlast := hc.ordinal hx
      have hlt := h.2.2 x (List.mem_of_getElem? hx) r hr
      omega
  conv_lhs => rw [← hsplit]
  rw [List.filter_append, List.filter_eq_nil_iff.mpr hbefore, List.filter_eq_self.mpr hafter,
    List.nil_append]

/-- A row loop that completes has checked and hashed every row. -/
theorem hashRows_sound {check : ℕ → CaptureRecord → Option String}
    (hcheck : ∀ count r, check count r = none → r.ordinal = count) {rows : List CaptureRecord}
    {first m : ℕ} {state out : Bytes} (h : hashRows check rows first state = .ok (m, out)) :
    Contiguous first rows ∧ m = first + rows.length ∧ out = state ++ rawLog rows ∧
      ∀ r ∈ rows, check r.ordinal r = none := by
  induction rows generalizing first state with
  | nil =>
    simp only [hashRows, Except.ok.injEq, Prod.mk.injEq] at h
    obtain ⟨rfl, rfl⟩ := h
    simp [contiguous_nil]
  | cons r rows ih =>
    cases hr : check first r with
    | some text => simp [hashRows, hr] at h
    | none =>
      simp only [hashRows, hr] at h
      obtain ⟨hrest, rfl, rfl, hall⟩ := ih h
      have hord := hcheck first r hr
      refine ⟨contiguous_cons.mpr ⟨hord, hrest⟩, by simp; omega, by simp, ?_⟩
      intro x hx
      rcases List.mem_cons.mp hx with rfl | hx
      · rw [hord]
        exact hr
      · exact hall x hx

/-- A page loop over ordered rows that completes has found them consecutive from zero. -/
theorem hashPages_sound {check : ℕ → CaptureRecord → Option String}
    (hcheck : ∀ count r, check count r = none → r.ordinal = count) {rows : List CaptureRecord}
    (hrows : Ordered rows) {limit : ℕ} (hlimit : 1 ≤ limit) (fuel count : ℕ) (state : Bytes)
    (hc : Contiguous 0 (rows.take count)) (hcount : count ≤ rows.length)
    (hfuel : rows.length - count < fuel) {m : ℕ} {out : Bytes}
    (h : hashPages check rows limit fuel count state = .ok (m, out)) :
    Contiguous 0 rows ∧ m = rows.length ∧ out = state ++ rawLog (rows.drop count) ∧
      ∀ r ∈ rows.drop count, check r.ordinal r = none := by
  induction fuel generalizing count state with
  | zero => omega
  | succ fuel ih =>
    have hpage : CaptureStore.recordPage rows (count - 1) limit = (rows.drop count).take limit := by
      rw [CaptureStore.recordPage, hrows.filter_after hc hcount]
    rw [hashPages, hpage] at h
    by_cases hend : count = rows.length
    · have hnil : rows.drop count = [] := List.drop_eq_nil_of_le hend.ge
      rw [hnil] at h ⊢
      simp only [List.take_nil, Except.ok.injEq, Prod.mk.injEq] at h
      obtain ⟨rfl, rfl⟩ := h
      refine ⟨?_, hend, by simp, by simp⟩
      rwa [List.take_of_length_le hend.ge] at hc
    · have hlength : ((rows.drop count).take limit).length = min limit (rows.length - count) := by
        rw [List.length_take, List.length_drop]
      have hpos : 0 < min limit (rows.length - count) := by omega
      generalize hpages : (rows.drop count).take limit = page at h hlength
      cases page with
      | nil => simp at hlength; omega
      | cons r page =>
        change (hashRows check (r :: page) count state >>= fun x =>
          hashPages check rows limit fuel x.1 x.2) = _ at h
        cases hrun : hashRows check (r :: page) count state with
        | error e => rw [hrun] at h; cases h
        | ok x =>
          obtain ⟨next, state'⟩ := x
          rw [hrun] at h
          change hashPages check rows limit fuel next state' = .ok (m, out) at h
          obtain ⟨hcont, rfl, rfl, hall⟩ := hashRows_sound hcheck hrun
          have hsplit : rows.drop count =
              (r :: page) ++ rows.drop (count + (r :: page).length) := by
            conv_lhs => rw [← List.take_append_drop limit (rows.drop count), hpages, List.drop_drop]
            congr 1
            by_cases hl : limit ≤ rows.length - count
            · rw [hlength, Nat.min_eq_left hl]
            · rw [List.drop_eq_nil_of_le (by omega), List.drop_eq_nil_of_le (by omega)]
          have htake : rows.take (count + (r :: page).length) = rows.take count ++ (r :: page) := by
            rw [List.take_add, hsplit, List.take_left]
          have hc' : Contiguous 0 (rows.take (count + (r :: page).length)) := by
            rw [htake, contiguous_append, List.length_take_of_le hcount, Nat.zero_add]
            exact ⟨hc, hcont⟩
          obtain ⟨hwhole, hm, hout, hrest⟩ := ih _ _ hc' (by omega) (by omega) h
          refine ⟨hwhole, hm, ?_, ?_⟩
          · rw [hout, hsplit, rawLog_append, List.append_assoc]
          · rw [hsplit]
            intro x hx
            rcases List.mem_append.mp hx with hx | hx
            · exact hall x hx
            · exact hrest x hx

/-- The prefix loop hashes exactly the first `total` rows. -/
theorem prefixPages_ok {rows : List CaptureRecord} {limit total : ℕ} (hlimit : 1 ≤ limit)
    (h : Contiguous 0 rows) (htotal : total ≤ rows.length) (fuel hashed : ℕ) (state : Bytes)
    (hhashed : hashed ≤ total) (hfuel : total - hashed ≤ fuel) :
    prefixPages rows limit total fuel hashed (hashed - 1) state =
      .ok (state ++ rawLog ((rows.take total).drop hashed)) := by
  induction fuel generalizing hashed state with
  | zero =>
    have : hashed = total := by omega
    simp [prefixPages, this]
  | succ fuel ih =>
    rw [prefixPages]
    split
    · rename_i hlt
      rw [h.recordPage]
      set page := (rows.drop hashed).take (min limit (total - hashed)) with hpage
      have hlen : page.length = min limit (total - hashed) := by
        simp [hpage]
        omega
      have hcont : Contiguous hashed page :=
        (by simpa using h.drop (by omega : hashed ≤ rows.length) :
          Contiguous hashed (rows.drop hashed)).take _
      have hsplit : (rows.take total).drop hashed =
          page ++ (rows.take total).drop (hashed + page.length) := by
        rw [← List.drop_drop, List.drop_take, hlen, hpage]
        conv_lhs => rw [← List.take_append_drop (min limit (total - hashed))
          (List.take (total - hashed) (List.drop hashed rows))]
        rw [List.take_take, Nat.min_eq_left (by omega)]
      cases hlast : page.getLast? with
      | none =>
        rw [List.getLast?_eq_none_iff] at hlast
        rw [hlast] at hlen
        simp at hlen
        omega
      | some last =>
        have hord : last.ordinal = hashed + (page.length - 1) := by
          rw [List.getLast?_eq_getElem?] at hlast
          exact hcont.ordinal hlast
        have hafter : (last.ordinal : ℤ) = ((hashed + page.length : ℕ) : ℤ) - 1 := by omega
        simp only [show page.map (·.ordinal) = List.range' hashed page.length from hcont, if_true,
          hlast]
        rw [hafter, ih _ _ (by omega) (by omega), hsplit, rawLog_append, List.append_assoc]
    · have : hashed = total := by omega
      simp [this]

theorem parseRecords_cons (first : ℕ) (raw : Bytes) (rest : List Bytes) :
    parseRecords first (raw :: rest) = parseRecord first raw :: parseRecords (first + 1) rest := by
  unfold parseRecords
  rw [List.mapIdx_cons]
  simp only [Nat.add_zero, Nat.add_assoc, Nat.add_comm 1]

@[simp] theorem length_parseRecords (first : ℕ) (raw : List Bytes) :
    (parseRecords first raw).length = raw.length := by
  simp [parseRecords]

theorem parseRecords_contiguous (first : ℕ) (raw : List Bytes) :
    Contiguous first (parseRecords first raw) := by
  induction raw generalizing first with
  | nil => exact contiguous_nil first
  | cons bytes rest ih =>
    rw [parseRecords_cons]
    exact contiguous_cons.mpr ⟨rfl, ih (first + 1)⟩

theorem parseRecords_rawBytes (first : ℕ) {raw : List Bytes}
    (h : ∀ b ∈ raw, b.length = audioRecordSize) :
    (parseRecords first raw).map CaptureRecord.rawBytes = raw := by
  induction raw generalizing first with
  | nil => rfl
  | cons bytes rest ih =>
    rw [parseRecords_cons, List.map_cons, parseRecord_rawBytes first (h bytes (by simp)),
      ih (first + 1) (fun b hb => h b (by simp [hb]))]

theorem parseRecords_valid {first : ℕ} {raw : List Bytes}
    (hbound : first + raw.length ≤ maxProtocolUint32)
    (h : ∀ b ∈ raw, b.length = audioRecordSize) : ∀ r ∈ parseRecords first raw, r.Valid := by
  induction raw generalizing first with
  | nil => simp [parseRecords]
  | cons bytes rest ih =>
    rw [List.length_cons] at hbound
    intro r hr
    rw [parseRecords_cons, List.mem_cons] at hr
    rcases hr with rfl | hr
    · exact parseRecord_valid (by omega) (h bytes (by simp))
    · exact ih (by omega) (fun b hb => h b (by simp [hb])) r hr

theorem orderedInsert_last {rows : List CaptureRecord} {r : CaptureRecord}
    (h : ∀ x ∈ rows, x.ordinal < r.ordinal) :
    rows.orderedInsert (fun a b => a.ordinal ≤ b.ordinal) r = rows ++ [r] := by
  induction rows with
  | nil => rfl
  | cons x rows ih =>
    have hx := h x (by simp)
    rw [List.orderedInsert_cons, if_neg (by omega), ih (fun y hy => h y (by simp [hy]))]
    rfl

/-- Inserting valid rows that continue the table appends them. -/
theorem foldlM_insertRecord {rows new : List CaptureRecord} (h : Contiguous 0 rows)
    (hnew : Contiguous rows.length new) (hvalid : ∀ r ∈ new, r.Valid) :
    new.foldlM insertRecord rows = some (rows ++ new) := by
  induction new generalizing rows with
  | nil => simp
  | cons r new ih =>
    obtain ⟨hr, hrest⟩ := contiguous_cons.mp hnew
    have hlt : ∀ x ∈ rows, x.ordinal < r.ordinal := by
      intro x hx
      have := (h.ordinal_lt hx).2
      omega
    have hins : insertRecord rows r = some (rows ++ [r]) := by
      unfold insertRecord
      rw [if_pos ⟨hvalid r (by simp), fun x hx => (hlt x hx).ne⟩, orderedInsert_last hlt]
    have hcont : Contiguous 0 (rows ++ [r]) :=
      contiguous_append.mpr ⟨h, contiguous_cons.mpr ⟨by omega, contiguous_nil _⟩⟩
    rw [List.foldlM_cons, hins]
    change new.foldlM insertRecord (rows ++ [r]) = _
    rw [ih hcont (by simpa using hrest) (fun x hx => hvalid x (by simp [hx]))]
    simp

theorem Contiguous.ordered {first : ℕ} {rows : List CaptureRecord} (h : Contiguous first rows) :
    Ordered rows := by
  induction rows generalizing first with
  | nil => exact List.Pairwise.nil
  | cons r rows ih =>
    obtain ⟨hr, hrest⟩ := contiguous_cons.mp h
    refine List.pairwise_cons.mpr ⟨?_, ih hrest⟩
    intro x hx
    have := (hrest.ordinal_lt hx).1
    omega

theorem orderedInsert_ordered {rows : List CaptureRecord} {r : CaptureRecord}
    (hrows : Ordered rows) (hnew : ∀ x ∈ rows, x.ordinal ≠ r.ordinal) :
    Ordered (rows.orderedInsert (fun a b => a.ordinal ≤ b.ordinal) r) := by
  induction rows with
  | nil => simp [Ordered]
  | cons x rows ih =>
    obtain ⟨hx, hrest⟩ := List.pairwise_cons.mp hrows
    have hne := hnew x (by simp)
    by_cases hle : r.ordinal ≤ x.ordinal
    · rw [List.orderedInsert_cons, if_pos hle]
      refine List.pairwise_cons.mpr ⟨?_, hrows⟩
      intro y hy
      rcases List.mem_cons.mp hy with rfl | hy
      · omega
      · have := hx y hy
        omega
    · rw [List.orderedInsert_cons, if_neg hle]
      refine List.pairwise_cons.mpr ⟨?_, ih hrest (fun y hy => hnew y (by simp [hy]))⟩
      intro y hy
      rcases (List.mem_orderedInsert _).mp hy with rfl | hy
      · omega
      · exact hx y hy

/-- Inserting rows keeps the primary-key order, and none of their ordinals was taken. -/
theorem insertRecords_ordered {rows new out : List CaptureRecord} (hrows : Ordered rows)
    (h : new.foldlM insertRecord rows = some out) :
    Ordered out ∧ out.Perm (rows ++ new) ∧ ∀ r ∈ new, ∀ x ∈ rows, x.ordinal ≠ r.ordinal := by
  induction new generalizing rows with
  | nil =>
    rw [List.foldlM_nil] at h
    cases h
    exact ⟨hrows, by simp, by simp⟩
  | cons r new ih =>
    rw [List.foldlM_cons] at h
    obtain ⟨inserted, hinsert, hrest⟩ := Option.bind_eq_some_iff.mp h
    rw [insertRecord] at hinsert
    by_cases hfree : r.Valid ∧ ∀ x ∈ rows, x.ordinal ≠ r.ordinal
    · rw [if_pos hfree, Option.some.injEq] at hinsert
      subst hinsert
      obtain ⟨hordered, hperm, hfresh⟩ := ih (orderedInsert_ordered hrows hfree.2) hrest
      refine ⟨hordered, ?_, ?_⟩
      · refine hperm.trans (((List.perm_orderedInsert _ r rows).append_right new).trans ?_)
        exact List.perm_middle.symm
      · intro x hx y hy
        rcases List.mem_cons.mp hx with rfl | hx
        · exact hfree.2 y hy
        · exact hfresh x hx y ((List.mem_orderedInsert _).mpr (.inr hy))
    · rw [if_neg hfree] at hinsert
      cases hinsert

theorem length_rawLog {rows : List CaptureRecord} (h : ∀ r ∈ rows, r.Valid) :
    (rawLog rows).length = rows.length * audioRecordSize := by
  induction rows with
  | nil => rfl
  | cons r rows ih =>
    rw [rawLog_cons, List.length_append, (h r (by simp)).length_rawBytes,
      ih (fun x hx => h x (by simp [hx])), List.length_cons, Nat.succ_mul, Nat.add_comm]

theorem rawLog_eq_flatten (rows : List CaptureRecord) :
    rawLog rows = (rows.map CaptureRecord.rawBytes).flatten := rfl

end CaptureRows
