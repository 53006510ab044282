import Mathlib.Data.List.Basic
import Mathlib.Order.Lattice

/-! Half-open intervals laid end to end. -/
namespace Tiling

variable {α : Type} [LinearOrder α]

/-- The intervals are non-empty, the first starts at `a`, each starts where the one before it
stops and the last stops at `b`. -/
def Tiles : α → List (α × α) → α → Prop
  | a, [], b => a = b
  | a, t :: ts, b => t.1 = a ∧ t.1 < t.2 ∧ Tiles t.2 ts b

variable {a b x : α} {ts : List (α × α)}

theorem Tiles.le (h : Tiles a ts b) : a ≤ b := by
  induction ts generalizing a with
  | nil => exact h.le
  | cons t ts ih =>
    obtain ⟨rfl, hpos, hrest⟩ := h
    exact hpos.le.trans (ih hrest)

theorem Tiles.within (h : Tiles a ts b) {t : α × α} (ht : t ∈ ts) : a ≤ t.1 ∧ t.2 ≤ b := by
  induction ts generalizing a with
  | nil => cases ht
  | cons s ts ih =>
    obtain ⟨rfl, hpos, hrest⟩ := h
    cases ht with
    | head => exact ⟨le_rfl, hrest.le⟩
    | tail _ ht => exact ⟨hpos.le.trans (ih hrest ht).1, (ih hrest ht).2⟩

theorem Tiles.nonempty (h : Tiles a ts b) {t : α × α} (ht : t ∈ ts) : t.1 < t.2 := by
  induction ts generalizing a with
  | nil => cases ht
  | cons s ts ih =>
    obtain ⟨-, hpos, hrest⟩ := h
    cases ht with
    | head => exact hpos
    | tail _ ht => exact ih hrest ht

theorem Tiles.stop_le (h : Tiles a ts b) {m : α} (ha : a ≤ m) (hts : ∀ t ∈ ts, t.2 ≤ m) :
    b ≤ m := by
  induction ts generalizing a with
  | nil => exact (show a = b from h) ▸ ha
  | cons t ts ih =>
    obtain ⟨-, -, hrest⟩ := h
    exact ih hrest (hts t (by simp)) (fun u hu => hts u (List.mem_cons_of_mem _ hu))

theorem tiles_append {us : List (α × α)} {c : α} :
    Tiles a (ts ++ us) c ↔ ∃ b, Tiles a ts b ∧ Tiles b us c := by
  induction ts generalizing a with
  | nil => simp [Tiles]
  | cons t ts ih =>
    simp only [List.cons_append, Tiles, ih]
    constructor
    · rintro ⟨hstart, hpos, b, hts, hus⟩
      exact ⟨b, ⟨hstart, hpos, hts⟩, hus⟩
    · rintro ⟨b, ⟨hstart, hpos, hts⟩, hus⟩
      exact ⟨hstart, hpos, b, hts, hus⟩

theorem Tiles.snoc (h : Tiles a ts b) {c : α} (hc : b < c) : Tiles a (ts ++ [(b, c)]) c :=
  tiles_append.mpr ⟨b, h, rfl, hc, rfl⟩

/-- The last interval may be prolonged. -/
theorem Tiles.prolong {s c : α} (h : Tiles a (ts ++ [(s, b)]) b) (hc : b ≤ c) :
    Tiles a (ts ++ [(s, c)]) c := by
  obtain ⟨m, hts, hstart, hpos, -⟩ := tiles_append.mp h
  exact tiles_append.mpr ⟨m, hts, hstart, lt_of_lt_of_le hpos hc, rfl⟩

/-- Every point between the ends lies in exactly one of the intervals. -/
theorem Tiles.existsUnique (h : Tiles a ts b) (ha : a ≤ x) (hb : x < b) :
    ∃! i : ℕ, ∃ t : α × α, ts[i]? = some t ∧ t.1 ≤ x ∧ x < t.2 := by
  induction ts generalizing a with
  | nil => exact absurd (lt_of_le_of_lt ha hb) (by rw [show a = b from h]; exact lt_irrefl b)
  | cons s ts ih =>
    obtain ⟨rfl, hpos, hrest⟩ := h
    by_cases hx : x < s.2
    · refine ⟨0, ⟨s, rfl, ha, hx⟩, ?_⟩
      rintro (_ | i) ⟨t, ht, hle, hlt⟩
      · rfl
      · have hmem : t ∈ ts := List.mem_of_getElem? (by simpa using ht)
        exact absurd hx (not_lt.mpr ((hrest.within hmem).1.trans hle))
    · obtain ⟨i, ⟨t, ht, hin⟩, hunique⟩ := ih hrest (not_lt.mp hx)
      refine ⟨i + 1, ⟨t, by simpa using ht, hin⟩, ?_⟩
      rintro (_ | j) ⟨u, hu, hle, hlt⟩
      · obtain rfl : s = u := by simpa using hu
        exact absurd hlt hx
      · exact congrArg (· + 1) (hunique j ⟨u, by simpa using hu, hle, hlt⟩)

end Tiling
