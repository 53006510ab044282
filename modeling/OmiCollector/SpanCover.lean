import Mathlib.Data.List.Chain
import Mathlib.Data.List.Sort

/-! Half-open spans of natural numbers and lists of spans: cutting spans out of each other,
ordered disjoint lists, and what a list covers. -/
namespace SpanCover

/-- The half-open span `[start, stop)`. -/
structure Span where
  start : ℕ
  stop : ℕ
  deriving DecidableEq, Repr

namespace Span

def Contains (s : Span) (x : ℕ) : Prop := s.start ≤ x ∧ x < s.stop

instance (s : Span) (x : ℕ) : Decidable (s.Contains x) := inferInstanceAs (Decidable (_ ∧ _))

/-- `s` lies within `t`. -/
def Inside (s t : Span) : Prop := t.start ≤ s.start ∧ s.stop ≤ t.stop

/-- The parts of `s` outside `e`, in order. -/
def cut (s e : Span) : List Span :=
  if e.stop ≤ s.start ∨ s.stop ≤ e.start then [s]
  else (if s.start < e.start then [⟨s.start, e.start⟩] else []) ++
    (if e.stop < s.stop then [⟨e.stop, s.stop⟩] else [])

theorem contains_cut {s e : Span} {x : ℕ} :
    (∃ p ∈ s.cut e, p.Contains x) ↔ s.Contains x ∧ ¬ e.Contains x := by
  unfold cut
  by_cases hout : e.stop ≤ s.start ∨ s.stop ≤ e.start
  · rw [if_pos hout]
    simp only [List.mem_singleton, exists_eq_left, Contains]
    omega
  · rw [if_neg hout]
    by_cases hleft : s.start < e.start <;> by_cases hright : e.stop < s.stop <;>
      simp [hleft, hright, Contains] <;> omega

theorem inside_of_mem_cut {s e p : Span} (h : p ∈ s.cut e) : p.Inside s := by
  unfold cut at h
  by_cases hout : e.stop ≤ s.start ∨ s.stop ≤ e.start
  · rw [if_pos hout, List.mem_singleton] at h
    exact h ▸ ⟨le_rfl, le_rfl⟩
  · rw [if_neg hout] at h
    by_cases hleft : s.start < e.start <;> by_cases hright : e.stop < s.stop <;>
      simp [hleft, hright] at h <;> grind [Inside]

theorem proper_of_mem_cut {s e p : Span} (hs : s.start < s.stop) (h : p ∈ s.cut e) :
    p.start < p.stop := by
  unfold cut at h
  by_cases hout : e.stop ≤ s.start ∨ s.stop ≤ e.start
  · rw [if_pos hout, List.mem_singleton] at h
    exact h ▸ hs
  · rw [if_neg hout] at h
    by_cases hleft : s.start < e.start <;> by_cases hright : e.stop < s.stop <;>
      simp [hleft, hright] at h <;> grind

theorem outside_of_mem_cut {s e p : Span} (h : p ∈ s.cut e) :
    p.stop ≤ e.start ∨ e.stop ≤ p.start := by
  unfold cut at h
  by_cases hout : e.stop ≤ s.start ∨ s.stop ≤ e.start
  · rw [if_pos hout, List.mem_singleton] at h
    exact h ▸ hout.symm
  · rw [if_neg hout] at h
    by_cases hleft : s.start < e.start <;> by_cases hright : e.stop < s.stop <;>
      simp [hleft, hright] at h <;> grind

end Span

/-- Spans in order and without overlap. -/
def Sequential (spans : List Span) : Prop := spans.Pairwise (fun a b => a.stop ≤ b.start)

/-- Nonempty spans that follow each other one by one are in sequence. -/
theorem sequential_of_isChain {spans : List Span} (hproper : ∀ s ∈ spans, s.start < s.stop)
    (h : spans.IsChain fun a b => a.stop ≤ b.start) : Sequential spans := by
  induction spans with
  | nil => exact List.Pairwise.nil
  | cons a spans ih =>
    have htail := ih (fun s hs => hproper s (List.mem_cons_of_mem a hs)) h.tail
    refine List.pairwise_cons.mpr ⟨fun s hs => ?_, htail⟩
    cases spans with
    | nil => cases hs
    | cons b spans =>
      have hab : a.stop ≤ b.start := (List.isChain_cons_cons.mp h).1
      rcases List.mem_cons.mp hs with rfl | hs
      · exact hab
      · have hb : b.start < b.stop := hproper b (by simp)
        exact hab.trans (hb.le.trans ((List.pairwise_cons.mp htail).1 s hs))

theorem sequential_cut (s : Span) {e : Span} (he : e.start ≤ e.stop) : Sequential (s.cut e) := by
  unfold Sequential Span.cut
  split
  · exact List.pairwise_singleton _ _
  · by_cases hleft : s.start < e.start <;> by_cases hright : e.stop < s.stop <;>
      simp [hleft, hright, he]

theorem sequential_flatMap_cut {spans : List Span} {e : Span} (h : Sequential spans)
    (he : e.start ≤ e.stop) : Sequential (spans.flatMap (·.cut e)) := by
  apply List.pairwise_flatMap.mpr
  refine ⟨fun s _ => sequential_cut s he, h.imp ?_⟩
  intro a b hab p hp q hq
  have hpa := Span.inside_of_mem_cut hp
  have hqb := Span.inside_of_mem_cut hq
  exact hpa.2.trans (hab.trans hqb.1)

/-- Some span of the list contains the point. -/
def Covers (spans : List Span) (x : ℕ) : Prop := ∃ s ∈ spans, s.Contains x

theorem covers_append {xs ys : List Span} {x : ℕ} :
    Covers (xs ++ ys) x ↔ Covers xs x ∨ Covers ys x := by
  simp only [Covers, List.mem_append, or_and_right, exists_or]

/-- Cut every existing span out of a list of spans. -/
def cutAll (spans existing : List Span) : List Span :=
  existing.foldl (fun uncovered e => uncovered.flatMap (·.cut e)) spans

theorem covers_flatMap_cut {spans : List Span} {e : Span} {x : ℕ} :
    Covers (spans.flatMap (·.cut e)) x ↔ Covers spans x ∧ ¬ e.Contains x := by
  unfold Covers
  constructor
  · rintro ⟨p, hp, hx⟩
    obtain ⟨s, hs, hps⟩ := List.mem_flatMap.mp hp
    obtain ⟨hsx, hex⟩ := Span.contains_cut.mp ⟨p, hps, hx⟩
    exact ⟨⟨s, hs, hsx⟩, hex⟩
  · rintro ⟨⟨s, hs, hsx⟩, hex⟩
    obtain ⟨p, hp, hx⟩ := Span.contains_cut.mpr ⟨hsx, hex⟩
    exact ⟨p, List.mem_flatMap.mpr ⟨s, hs, hp⟩, hx⟩

/-- What is left after cutting is what the existing spans leave uncovered. -/
theorem covers_cutAll {spans existing : List Span} {x : ℕ} :
    Covers (cutAll spans existing) x ↔ Covers spans x ∧ ¬ Covers existing x := by
  unfold cutAll
  induction existing generalizing spans with
  | nil => simp [Covers]
  | cons e existing ih =>
    rw [List.foldl_cons, ih, covers_flatMap_cut, and_assoc]
    apply and_congr_right
    intro _
    simp only [Covers, List.mem_cons, exists_eq_or_imp, not_or]

/-- The pieces left of an ordered list are again in order. -/
theorem sequential_cutAll {spans existing : List Span} (h : Sequential spans)
    (he : ∀ e ∈ existing, e.start ≤ e.stop) : Sequential (cutAll spans existing) := by
  unfold cutAll
  induction existing generalizing spans with
  | nil => exact h
  | cons e existing ih =>
    rw [List.foldl_cons]
    apply ih (sequential_flatMap_cut h (he e List.mem_cons_self))
    intro d hd
    exact he d (List.mem_cons_of_mem e hd)

/-- Python `bisect_right` on a sorted list. -/
def bisectRight (ends : List ℕ) (x : ℕ) : ℕ := (ends.takeWhile (· ≤ x)).length

/-- The item just before that place. -/
def bisected {α : Type} (starts : List ℕ) (items : List α) (x : ℕ) : Option α :=
  match bisectRight starts x with
  | 0 => none
  | i + 1 => items[i]?

section Bisect

variable {α : Type} {span : α → Span}

theorem bisected_cons (a : α) (items : List α) (x : ℕ) :
    bisected ((a :: items).map fun b => (span b).start) (a :: items) x =
      if (span a).start ≤ x then
        match bisectRight (items.map fun b => (span b).start) x with
        | 0 => some a
        | i + 1 => items[i]?
      else none := by
  unfold bisected bisectRight
  by_cases h : (span a).start ≤ x
  · rw [List.map_cons, List.takeWhile_cons_of_pos (by simpa using h), if_pos h, List.length_cons]
    cases ((items.map fun b => (span b).start).takeWhile (fun a => decide (a ≤ x))).length <;> rfl
  · rw [List.map_cons, List.takeWhile_cons_of_neg (by simpa using h), if_neg h]
    rfl

theorem mem_of_bisected {starts : List ℕ} {items : List α} {x : ℕ} {a : α}
    (h : bisected starts items x = some a) : a ∈ items := by
  unfold bisected at h
  split at h
  · simp at h
  · exact List.mem_of_getElem? h

theorem start_le_of_bisected {items : List α} {x : ℕ} {a : α}
    (h : bisected (items.map fun b => (span b).start) items x = some a) : (span a).start ≤ x := by
  induction items with
  | nil => simp [bisected, bisectRight] at h
  | cons b items ih =>
    rw [bisected_cons] at h
    split at h
    · rename_i hle
      unfold bisected at ih
      split at h
      · rw [← Option.some.inj h]
        exact hle
      · rename_i hindex
        rw [hindex] at ih
        exact ih h
    · simp at h

/-- In a list of ordered spans, bisection finds the one that contains the point. -/
theorem bisected_of_contains {items : List α} {x : ℕ} {a : α}
    (h : items.Pairwise (fun b c => (span b).stop ≤ (span c).start))
    (hproper : ∀ b ∈ items, (span b).start ≤ (span b).stop) (ha : a ∈ items)
    (hx : (span a).Contains x) :
    bisected (items.map fun b => (span b).start) items x = some a := by
  induction items with
  | nil => simp at ha
  | cons b items ih =>
    obtain ⟨hb, hitems⟩ := List.pairwise_cons.mp h
    rw [bisected_cons]
    rcases List.mem_cons.mp ha with rfl | hmem
    · -- Every later span starts past the point.
      have hnone : bisectRight (items.map fun b => (span b).start) x = 0 := by
        unfold bisectRight
        cases items with
        | nil => rfl
        | cons c items =>
          have hc := hb c List.mem_cons_self
          have hpast : ¬ (span c).start ≤ x := by
            have := hx.2
            omega
          rw [List.map_cons, List.takeWhile_cons_of_neg (by simpa using hpast)]
          rfl
      rw [if_pos hx.1, hnone]
    · have hlater := ih hitems (fun c hc => hproper c (List.mem_cons_of_mem b hc)) hmem
      have hle : (span b).start ≤ x :=
        (hproper b List.mem_cons_self).trans ((hb a hmem).trans hx.1)
      rw [if_pos hle]
      unfold bisected at hlater
      split at hlater
      · simp at hlater
      · exact hlater

end Bisect

end SpanCover
