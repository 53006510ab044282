import OmiCollector.SpanCover

/-! Cells of facts over spans, laid over each other: a cell replaces what earlier cells say within
its span. At every point the last cell laid there decides, and after a stable sort by an order
that is the latest cell of the greatest order. -/
namespace LayeredSpans

open SpanCover

structure Cell (α : Type) where
  span : Span
  facts : α

variable {α : Type}

def Cell.cut (c : Cell α) (e : Span) : List (Cell α) := (c.span.cut e).map (⟨·, c.facts⟩)

def overlay (cells : List (Cell α)) (incoming : Cell α) : List (Cell α) :=
  cells.flatMap (·.cut incoming.span) ++ [incoming]

def FactsAt (cells : List (Cell α)) (x : ℕ) (facts : α) : Prop :=
  ∃ c ∈ cells, c.span.Contains x ∧ c.facts = facts

def Apart (a b : Cell α) : Prop := a.span.stop ≤ b.span.start ∨ b.span.stop ≤ a.span.start

def Proper (cells : List (Cell α)) : Prop := ∀ c ∈ cells, c.span.start < c.span.stop

theorem Apart.symm {a b : Cell α} (h : Apart a b) : Apart b a := Or.symm h

theorem Apart.not_contains {a b : Cell α} {x : ℕ} (h : Apart a b) (ha : a.span.Contains x) :
    ¬ b.span.Contains x := by
  intro hb
  rcases h with h | h
  · exact absurd (ha.2.trans_le h) (not_lt.mpr hb.1)
  · exact absurd (hb.2.trans_le h) (not_lt.mpr ha.1)

theorem mem_cut {c p : Cell α} {e : Span} : p ∈ c.cut e ↔ p.span ∈ c.span.cut e ∧ p.facts = c.facts := by
  unfold Cell.cut
  rw [List.mem_map]
  constructor
  · rintro ⟨s, hs, rfl⟩
    exact ⟨hs, rfl⟩
  · rintro ⟨hs, hfacts⟩
    refine ⟨p.span, hs, ?_⟩
    cases p
    cases hfacts
    rfl

theorem factsAt_append {xs ys : List (Cell α)} {x : ℕ} {facts : α} :
    FactsAt (xs ++ ys) x facts ↔ FactsAt xs x facts ∨ FactsAt ys x facts := by
  simp only [FactsAt, List.mem_append, or_and_right, exists_or]

theorem factsAt_cons {c : Cell α} {cells : List (Cell α)} {x : ℕ} {facts : α} :
    FactsAt (c :: cells) x facts ↔ (c.span.Contains x ∧ c.facts = facts) ∨ FactsAt cells x facts := by
  simp only [FactsAt, List.mem_cons, or_and_right, exists_or, exists_eq_left]

/-- Within its span the incoming cell decides, outside it nothing changes. -/
theorem factsAt_overlay {cells : List (Cell α)} {c : Cell α} {x : ℕ} {facts : α} :
    FactsAt (overlay cells c) x facts ↔
      (c.span.Contains x ∧ c.facts = facts) ∨ (¬ c.span.Contains x ∧ FactsAt cells x facts) := by
  unfold overlay
  rw [factsAt_append, or_comm]
  apply or_congr
  · simp [FactsAt]
  · constructor
    · rintro ⟨p, hp, hx, hfacts⟩
      obtain ⟨d, hd, hpd⟩ := List.mem_flatMap.mp hp
      obtain ⟨hspan, hsame⟩ := mem_cut.mp hpd
      obtain ⟨hdx, hout⟩ := Span.contains_cut.mp ⟨_, hspan, hx⟩
      exact ⟨hout, d, hd, hdx, hsame.symm.trans hfacts⟩
    · rintro ⟨hout, d, hd, hdx, hfacts⟩
      obtain ⟨s, hs, hsx⟩ := Span.contains_cut.mpr ⟨hdx, hout⟩
      exact ⟨⟨s, d.facts⟩, List.mem_flatMap.mpr ⟨d, hd, mem_cut.mpr ⟨hs, rfl⟩⟩, hsx, hfacts⟩

theorem apart_cut (c : Cell α) {e : Span} (he : e.start ≤ e.stop) : (c.cut e).Pairwise Apart := by
  have h := sequential_cut c.span he
  exact List.pairwise_map.mpr (h.imp fun hab => .inl hab)

/-- What is cut around the incoming cell keeps apart from it and from the rest. -/
theorem apart_overlay {cells : List (Cell α)} {c : Cell α} (h : cells.Pairwise Apart)
    (hc : c.span.start ≤ c.span.stop) : (overlay cells c).Pairwise Apart := by
  unfold overlay
  rw [List.pairwise_append]
  refine ⟨List.pairwise_flatMap.mpr ⟨fun d _ => apart_cut d hc, h.imp ?_⟩,
    List.pairwise_singleton _ _, ?_⟩
  · intro a b hab p hp q hq
    have hpa := Span.inside_of_mem_cut (mem_cut.mp hp).1
    have hqb := Span.inside_of_mem_cut (mem_cut.mp hq).1
    rcases hab with hab | hab
    · exact .inl (hpa.2.trans (hab.trans hqb.1))
    · exact .inr (hqb.2.trans (hab.trans hpa.1))
  · intro p hp q hq
    obtain ⟨d, -, hpd⟩ := List.mem_flatMap.mp hp
    rw [List.mem_singleton.mp hq]
    exact Span.outside_of_mem_cut (mem_cut.mp hpd).1

section Last

variable {β : Type} {p : β → Prop}

/-- The last entry of the list that the predicate holds of. -/
def Last (p : β → Prop) (l : List β) (e : β) : Prop :=
  ∃ before after, l = before ++ e :: after ∧ p e ∧ ∀ x ∈ after, ¬ p x

/-- The entry of greatest order that the predicate holds of, the later one among equals. -/
def Latest (order : β → ℕ) (p : β → Prop) (l : List β) (e : β) : Prop :=
  ∃ before after, l = before ++ e :: after ∧ p e ∧ (∀ x ∈ before, p x → order x ≤ order e) ∧
    ∀ x ∈ after, p x → order x < order e

theorem last_nil {e : β} : ¬ Last p [] e := by
  rintro ⟨before, after, h, -⟩
  cases before <;> cases h

theorem last_cons {a e : β} {l : List β} :
    Last p (a :: l) e ↔ (e = a ∧ p a ∧ ∀ x ∈ l, ¬ p x) ∨ Last p l e := by
  constructor
  · rintro ⟨before, after, hl, he, hafter⟩
    cases before with
    | nil =>
      obtain ⟨rfl, rfl⟩ := List.cons.inj hl
      exact .inl ⟨rfl, he, hafter⟩
    | cons b before =>
      obtain ⟨rfl, rfl⟩ := List.cons.inj hl
      exact .inr ⟨before, after, rfl, he, hafter⟩
  · rintro (⟨rfl, he, hafter⟩ | ⟨before, after, rfl, he, hafter⟩)
    · exact ⟨[], l, rfl, he, hafter⟩
    · exact ⟨a :: before, after, rfl, he, hafter⟩

theorem Last.mem {l : List β} {e : β} (h : Last p l e) : e ∈ l ∧ p e := by
  obtain ⟨before, after, rfl, he, -⟩ := h
  exact ⟨by simp, he⟩

theorem exists_last {l : List β} (h : ∃ x ∈ l, p x) : ∃ e, Last p l e := by
  induction l with
  | nil =>
    obtain ⟨x, hx, -⟩ := h
    cases hx
  | cons a l ih =>
    by_cases hl : ∃ x ∈ l, p x
    · obtain ⟨e, he⟩ := ih hl
      exact ⟨e, last_cons.mpr (.inr he)⟩
    · push Not at hl
      obtain ⟨x, hx, hp⟩ := h
      rcases List.mem_cons.mp hx with rfl | hx
      · exact ⟨x, last_cons.mpr (.inl ⟨rfl, hp, hl⟩)⟩
      · exact absurd hp (hl x hx)

variable {order : β → ℕ}

theorem latest_cons {a e : β} {l : List β} : Latest order p (a :: l) e ↔
    (e = a ∧ p a ∧ ∀ x ∈ l, p x → order x < order a) ∨
      (Latest order p l e ∧ (p a → order a ≤ order e)) := by
  constructor
  · rintro ⟨before, after, hl, he, hbefore, hafter⟩
    cases before with
    | nil =>
      obtain ⟨rfl, rfl⟩ := List.cons.inj hl
      exact .inl ⟨rfl, he, hafter⟩
    | cons b before =>
      obtain ⟨rfl, rfl⟩ := List.cons.inj hl
      have hrest : ∀ x ∈ before, p x → order x ≤ order e :=
        fun x hx => hbefore x (List.mem_cons_of_mem a hx)
      exact .inr ⟨⟨before, after, rfl, he, hrest, hafter⟩, hbefore a List.mem_cons_self⟩
  · rintro (⟨rfl, he, hafter⟩ | ⟨⟨before, after, rfl, he, hbefore, hafter⟩, ha⟩)
    · exact ⟨[], l, rfl, he, by simp, hafter⟩
    · exact ⟨a :: before, after, rfl, he, List.forall_mem_cons.mpr ⟨ha, hbefore⟩, hafter⟩

theorem last_map {γ : Type} {g : γ → β} {l : List γ} {e : β} :
    Last p (l.map g) e ↔ ∃ c, Last (fun c => p (g c)) l c ∧ g c = e := by
  induction l with
  | nil => simp [last_nil]
  | cons a l ih =>
    rw [List.map_cons, last_cons, ih]
    simp only [last_cons, List.forall_mem_map]
    constructor
    · rintro (⟨rfl, ha, hn⟩ | ⟨c, hc, hce⟩)
      · exact ⟨a, .inl ⟨rfl, ha, hn⟩, rfl⟩
      · exact ⟨c, .inr hc, hce⟩
    · rintro ⟨c, ⟨rfl, hc, hn⟩ | hc, hce⟩
      · exact .inl ⟨hce.symm, hc, hn⟩
      · exact .inr ⟨c, hc, hce⟩

theorem latest_nil {e : β} : ¬ Latest order p [] e := by
  rintro ⟨before, after, h, -⟩
  cases before <;> cases h

theorem Latest.holds {l : List β} {e : β} (h : Latest order p l e) : e ∈ l ∧ p e := by
  obtain ⟨before, after, rfl, he, -⟩ := h
  exact ⟨by simp, he⟩

/-- The latest of the results is the result of the latest entry that has one. -/
theorem latest_filterMap {γ : Type} {f : γ → Option β} {order' : γ → ℕ} {l : List γ} {e : β}
    (horder : ∀ c e, f c = some e → order e = order' c) :
    Latest order p (l.filterMap f) e ↔
      ∃ c, Latest order' (fun c => ∃ e, f c = some e ∧ p e) l c ∧ f c = some e := by
  induction l generalizing e with
  | nil =>
    refine ⟨fun h => absurd h latest_nil, ?_⟩
    rintro ⟨c, hc, -⟩
    exact absurd hc latest_nil
  | cons a l ih =>
    cases hfa : f a with
    | none =>
      rw [List.filterMap_cons_none hfa, ih]
      refine exists_congr fun c => and_congr_left fun _ => ?_
      rw [latest_cons]
      simp [hfa]
    | some b =>
      have hb : order b = order' a := horder a b hfa
      have hlater : (∀ x ∈ l.filterMap f, p x → order x < order b) ↔
          ∀ c ∈ l, (∃ x, f c = some x ∧ p x) → order' c < order' a := by
        constructor
        · rintro h c hc ⟨x, hx, hpx⟩
          have hlt := h x (List.mem_filterMap.mpr ⟨c, hc, hx⟩) hpx
          rwa [horder c x hx, hb] at hlt
        · intro h x hx hpx
          obtain ⟨c, hc, hcx⟩ := List.mem_filterMap.mp hx
          have hlt := h c hc ⟨x, hcx, hpx⟩
          rwa [horder c x hcx, hb]
      rw [List.filterMap_cons_some hfa, latest_cons, hlater, ih]
      simp only [latest_cons]
      constructor
      · rintro (⟨rfl, he, hn⟩ | ⟨⟨c, hc, hce⟩, hle⟩)
        · exact ⟨a, .inl ⟨rfl, ⟨e, hfa, he⟩, hn⟩, hfa⟩
        · refine ⟨c, .inr ⟨hc, ?_⟩, hce⟩
          rintro ⟨x, hx, hpx⟩
          obtain rfl := Option.some.inj (hfa.symm.trans hx)
          rw [← hb, ← horder c e hce]
          exact hle hpx
      · rintro ⟨c, ⟨rfl, ⟨x, hx, hpx⟩, hn⟩ | ⟨hc, hle⟩, hce⟩
        · obtain rfl := Option.some.inj (hfa.symm.trans hx)
          obtain rfl := Option.some.inj (hfa.symm.trans hce)
          exact .inl ⟨rfl, hpx, hn⟩
        · refine .inr ⟨⟨c, hc, hce⟩, fun hpb => ?_⟩
          rw [hb, horder c e hce]
          exact hle ⟨b, hfa, hpb⟩

def byOrder (order : β → ℕ) (a b : β) : Prop := order a ≤ order b

instance : DecidableRel (byOrder order) := fun _ _ => inferInstanceAs (Decidable (_ ≤ _))

instance : Std.Total (byOrder order) := ⟨fun _ _ => Nat.le_total _ _⟩

instance : IsTrans β (byOrder order) := ⟨fun _ _ _ => Nat.le_trans⟩

/-- Among entries in order the last one changes only for an entry of no smaller order. -/
theorem last_orderedInsert {a e : β} {l : List β} (h : l.Pairwise (byOrder order)) :
    Last p (l.orderedInsert (byOrder order) a) e ↔
      (e = a ∧ p a ∧ ∀ x ∈ l, p x → order x < order a) ∨
        (Last p l e ∧ (p a → order a ≤ order e)) := by
  induction l with
  | nil => simp [last_cons, last_nil]
  | cons b l ih =>
    obtain ⟨hb, hl⟩ := List.pairwise_cons.mp h
    by_cases hab : order a ≤ order b
    · have hge : ∀ x ∈ b :: l, order a ≤ order x :=
        List.forall_mem_cons.mpr ⟨hab, fun x hx => hab.trans (hb x hx)⟩
      rw [List.orderedInsert_cons_of_le (byOrder order) l hab, last_cons]
      apply or_congr
      · refine and_congr_right fun _ => and_congr_right fun _ => forall₂_congr fun x hx => ?_
        exact ⟨fun hn hp => absurd hp hn, fun hlt hp => absurd (hge x hx) (not_le.mpr (hlt hp))⟩
      · exact ⟨fun he => ⟨he, fun _ => hge e he.mem.1⟩, And.left⟩
    · have hlt : order b < order a := not_le.mp hab
      rw [List.orderedInsert_of_not_le (byOrder order) l hab, last_cons, ih hl, last_cons]
      simp only [List.mem_orderedInsert, forall_eq_or_imp, List.mem_cons]
      constructor
      · rintro (⟨rfl, hp, hna, hn⟩ | ⟨rfl, hp, hn⟩ | ⟨he, ha⟩)
        · exact .inr ⟨.inl ⟨rfl, hp, hn⟩, fun hpa => absurd hpa hna⟩
        · exact .inl ⟨rfl, hp, fun _ => hlt, hn⟩
        · exact .inr ⟨.inr he, ha⟩
      · rintro (⟨rfl, hp, -, hn⟩ | ⟨⟨rfl, hp, hn⟩ | he, ha⟩)
        · exact .inr (.inl ⟨rfl, hp, hn⟩)
        · exact .inl ⟨rfl, hp, fun hpa => hab (ha hpa), hn⟩
        · exact .inr (.inr ⟨he, ha⟩)

/-- The last entry of a stable sort is the latest entry of the list. -/
theorem last_insertionSort {e : β} {l : List β} :
    Last p (l.insertionSort (byOrder order)) e ↔ Latest order p l e := by
  induction l with
  | nil => exact ⟨fun h => absurd h last_nil, fun h => absurd h latest_nil⟩
  | cons a l ih =>
    rw [List.insertionSort_cons, last_orderedInsert (List.pairwise_insertionSort _ l),
      latest_cons, ih]
    simp only [List.mem_insertionSort]

theorem exists_latest {l : List β} (h : ∃ x ∈ l, p x) : ∃ e, Latest order p l e := by
  have hsorted : ∃ x ∈ l.insertionSort (byOrder order), p x := by
    simpa only [List.mem_insertionSort] using h
  obtain ⟨e, he⟩ := exists_last hsorted
  exact ⟨e, last_insertionSort.mp he⟩

end Last

/-- Layers laid one after the other: the last one over a point decides. -/
theorem factsAt_foldl_overlay {layers base : List (Cell α)} {x : ℕ} {facts : α} :
    FactsAt (layers.foldl overlay base) x facts ↔
      (∃ c, Last (fun c => c.span.Contains x) layers c ∧ c.facts = facts) ∨
        ((∀ c ∈ layers, ¬ c.span.Contains x) ∧ FactsAt base x facts) := by
  induction layers generalizing base with
  | nil => simp [last_nil]
  | cons c layers ih =>
    rw [List.foldl_cons, ih, factsAt_overlay]
    simp only [last_cons, List.forall_mem_cons]
    constructor
    · rintro (⟨d, hd, hfacts⟩ | ⟨hn, ⟨hc, hfacts⟩ | ⟨hc, hbase⟩⟩)
      · exact .inl ⟨d, .inr hd, hfacts⟩
      · exact .inl ⟨c, .inl ⟨rfl, hc, hn⟩, hfacts⟩
      · exact .inr ⟨⟨hc, hn⟩, hbase⟩
    · rintro (⟨d, ⟨rfl, hd, hn⟩ | hd, hfacts⟩ | ⟨⟨hc, hn⟩, hbase⟩)
      · exact .inr ⟨hn, .inl ⟨hd, hfacts⟩⟩
      · exact .inl ⟨d, hd, hfacts⟩
      · exact .inr ⟨hn, .inr ⟨hc, hbase⟩⟩

theorem apart_foldl_overlay {layers base : List (Cell α)} (hbase : base.Pairwise Apart)
    (hlayers : Proper layers) : (layers.foldl overlay base).Pairwise Apart := by
  induction layers generalizing base with
  | nil => exact hbase
  | cons c layers ih =>
    obtain ⟨hc, hrest⟩ := List.forall_mem_cons.mp hlayers
    exact ih (apart_overlay hbase hc.le) hrest

/-- Where cells are apart only one can lie over a point. -/
theorem last_of_apart {cells : List (Cell α)} (h : cells.Pairwise Apart) {x : ℕ} {facts : α} :
    (∃ c, Last (fun c => c.span.Contains x) cells c ∧ c.facts = facts) ↔
      FactsAt cells x facts := by
  induction cells with
  | nil => simp [last_nil, FactsAt]
  | cons c cells ih =>
    obtain ⟨hc, hcells⟩ := List.pairwise_cons.mp h
    rw [factsAt_cons, ← ih hcells]
    simp only [last_cons]
    constructor
    · rintro ⟨d, ⟨rfl, hd, -⟩ | hd, hfacts⟩
      · exact .inl ⟨hd, hfacts⟩
      · exact .inr ⟨d, hd, hfacts⟩
    · rintro (⟨hx, hfacts⟩ | ⟨d, hd, hfacts⟩)
      · exact ⟨c, .inl ⟨rfl, hx, fun d hd => (hc d hd).not_contains hx⟩, hfacts⟩
      · exact ⟨d, .inr hd, hfacts⟩

/-- Cells that are apart and sorted by their start are in sequence. -/
theorem sequential_of_sorted {cells : List (Cell α)} (hproper : Proper cells)
    (hapart : cells.Pairwise Apart)
    (hsorted : cells.Pairwise fun a b => a.span.start ≤ b.span.start) :
    Sequential (cells.map Cell.span) := by
  refine List.pairwise_map.mpr ((hapart.and hsorted).imp_of_mem ?_)
  rintro a b - hb ⟨hab | hba, hle⟩
  · exact hab
  · exact absurd (hba.trans hle) (not_le.mpr (hproper b hb))

end LayeredSpans
