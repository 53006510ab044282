import Mathlib.Data.List.Nodup
import Mathlib.Data.List.Basic
import Mathlib.Data.List.Sort

/-! Tables with a primary key, in insertion order. An update keeps the place of its row, so
tables that hold the same rows after different histories are equal. -/
namespace KeyedTable

/-- Rows with pairwise different keys. -/
structure Table (κ ν : Type) where
  rows : List (κ × ν)
  nodup : (rows.map Prod.fst).Nodup
  deriving DecidableEq

variable {κ ν : Type} [DecidableEq κ]

namespace Table

def empty : Table κ ν := ⟨[], List.nodup_nil⟩

def keys (t : Table κ ν) : List κ := t.rows.map Prod.fst

def get (t : Table κ ν) (k : κ) : Option ν := (t.rows.find? (fun r => r.1 = k)).map Prod.snd

def adjustRow (k : κ) (f : ν → ν) (r : κ × ν) : κ × ν := if r.1 = k then (r.1, f r.2) else r

@[simp] theorem adjustRow_fst (k : κ) (f : ν → ν) (r : κ × ν) : (adjustRow k f r).1 = r.1 := by
  unfold adjustRow
  split <;> rfl

/-- Change the row of one key in place, if there is one. -/
def adjust (t : Table κ ν) (k : κ) (f : ν → ν) : Table κ ν :=
  ⟨t.rows.map (adjustRow k f), by
    rw [List.map_map]
    have : Prod.fst ∘ adjustRow k f = Prod.fst := funext (adjustRow_fst k f)
    rw [this]
    exact t.nodup⟩

/-- Insert a new row at the end, or replace the row of an existing key in place. -/
def put (t : Table κ ν) (k : κ) (v : ν) : Table κ ν :=
  if h : k ∈ t.keys then t.adjust k (fun _ => v)
  else ⟨t.rows ++ [(k, v)], by
    rw [List.map_append, List.nodup_append]
    refine ⟨t.nodup, by simp, ?_⟩
    intro a ha b hb hab
    obtain rfl : b = k := by simpa using hb
    exact h (hab ▸ ha)⟩

def delete (t : Table κ ν) (k : κ) : Table κ ν :=
  ⟨t.rows.filter (fun r => r.1 ≠ k), (List.filter_sublist.map _).nodup t.nodup⟩

theorem get_eq_some {t : Table κ ν} {k : κ} {v : ν} : t.get k = some v ↔ (k, v) ∈ t.rows := by
  unfold get
  constructor
  · intro h
    obtain ⟨r, hr, rfl⟩ := Option.map_eq_some_iff.mp h
    have hk : r.1 = k := by simpa using List.find?_some hr
    rw [← hk]
    exact List.mem_of_find?_eq_some hr
  · intro h
    cases hfind : t.rows.find? (fun r => r.1 = k) with
    | none =>
      have := List.find?_eq_none.mp hfind (k, v) h
      simp at this
    | some r =>
      have hk : r.1 = k := by simpa using List.find?_some hfind
      have hr := List.mem_of_find?_eq_some hfind
      have := List.inj_on_of_nodup_map t.nodup hr h hk
      simp [this]

theorem get_eq_none {t : Table κ ν} {k : κ} : t.get k = none ↔ k ∉ t.keys := by
  rw [← not_iff_not, ← ne_eq, Option.ne_none_iff_exists', not_not]
  simp only [get_eq_some, keys, List.mem_map, Prod.exists, exists_and_right, exists_eq_right]

theorem mem_keys {t : Table κ ν} {k : κ} : k ∈ t.keys ↔ ∃ v, t.get k = some v := by
  rw [← Option.ne_none_iff_exists', ne_eq, get_eq_none, not_not]

@[simp] theorem get_empty (k : κ) : (empty : Table κ ν).get k = none := rfl

theorem get_adjust (t : Table κ ν) (k k' : κ) (f : ν → ν) :
    (t.adjust k f).get k' = if k' = k then (t.get k').map f else t.get k' := by
  have hfind : ((t.adjust k f).rows.find? (fun r => r.1 = k')) =
      (t.rows.find? (fun r => r.1 = k')).map (adjustRow k f) := by
    simp only [adjust, List.find?_map, Function.comp_def, adjustRow_fst]
  unfold get
  rw [hfind]
  cases h : t.rows.find? (fun r => r.1 = k') with
  | none => simp
  | some r =>
    have hk : r.1 = k' := by simpa using List.find?_some h
    by_cases hkk : k' = k
    · simp [adjustRow, hk, hkk]
    · simp [adjustRow, hk, hkk]

theorem get_put (t : Table κ ν) (k k' : κ) (v : ν) :
    (t.put k v).get k' = if k' = k then some v else t.get k' := by
  unfold put
  split
  · rename_i h
    rw [get_adjust]
    split
    · rename_i hk
      obtain ⟨w, hw⟩ := mem_keys.mp h
      rw [hk, hw]
      rfl
    · rfl
  · rename_i h
    have hnone : t.rows.find? (fun r => r.1 = k) = none := by
      simpa [get] using get_eq_none.mpr h
    unfold get
    rw [List.find?_append]
    by_cases hk : k' = k
    · subst hk
      simp [hnone]
    · have : ¬ k = k' := fun e => hk e.symm
      simp [hk, this]

theorem get_delete (t : Table κ ν) (k k' : κ) :
    (t.delete k).get k' = if k' = k then none else t.get k' := by
  unfold get delete
  by_cases hk : k' = k
  · subst hk
    have : (t.rows.filter (fun r => r.1 ≠ k')).find? (fun r => r.1 = k') = none := by
      rw [List.find?_eq_none]
      intro r hr
      simpa using (List.mem_filter.mp hr).2
    rw [this, if_pos rfl]
    rfl
  · have : (t.rows.filter (fun r => r.1 ≠ k)).find? (fun r => r.1 = k') =
        t.rows.find? (fun r => r.1 = k') := by
      rw [List.find?_filter]
      congr 1
      funext r
      by_cases hr : r.1 = k'
      · simp [hr, hk]
      · simp [hr]
    rw [this, if_neg hk]

@[simp] theorem get_put_self (t : Table κ ν) (k : κ) (v : ν) : (t.put k v).get k = some v := by
  simp [get_put]

@[simp] theorem get_delete_self (t : Table κ ν) (k : κ) : (t.delete k).get k = none := by
  simp [get_delete]

theorem mem_rows_put {t : Table κ ν} {k k' : κ} {v w : ν} :
    (k', w) ∈ (t.put k v).rows ↔ (k' = k ∧ w = v) ∨ (k' ≠ k ∧ (k', w) ∈ t.rows) := by
  rw [← get_eq_some, get_put, ← get_eq_some]
  split
  · rename_i h
    simp [h, eq_comm]
  · rename_i h
    simp [h]

theorem mem_keys_put {t : Table κ ν} {k k' : κ} {v : ν} (h : k' ∈ t.keys) :
    k' ∈ (t.put k v).keys := by
  rw [mem_keys] at h ⊢
  obtain ⟨w, hw⟩ := h
  rw [get_put]
  split
  · exact ⟨v, rfl⟩
  · exact ⟨w, hw⟩

/-- Keep the rows that satisfy `p`. -/
def filter (t : Table κ ν) (p : κ × ν → Bool) : Table κ ν :=
  ⟨t.rows.filter p, (List.filter_sublist.map _).nodup t.nodup⟩

omit [DecidableEq κ] in
theorem mem_filter {t : Table κ ν} {p : κ × ν → Bool} {r : κ × ν} :
    r ∈ (t.filter p).rows ↔ r ∈ t.rows ∧ p r = true := List.mem_filter

section Ordered

variable {ω : Type} [LinearOrder ω]

/-- The first `limit` sort keys of the matching rows, as `ORDER BY … LIMIT` returns them. -/
def first (t : Table κ ν) (p : κ × ν → Bool) (order : κ → ω) (limit : ℕ) : List ω :=
  (((t.rows.filter p).map (fun r => order r.1)).insertionSort (· ≤ ·)).take limit

/-- Delete the matching rows among the first `limit` in sort order. -/
def deleteFirst (t : Table κ ν) (p : κ × ν → Bool) (order : κ → ω) (limit : ℕ) : Table κ ν :=
  t.filter (fun r => !(p r && decide (order r.1 ∈ t.first p order limit)))

variable {t : Table κ ν} {p : κ × ν → Bool} {order : κ → ω} {limit : ℕ}

omit [DecidableEq κ] in
theorem mem_of_mem_first {w : ω} (h : w ∈ t.first p order limit) :
    ∃ r ∈ t.rows, p r = true ∧ order r.1 = w := by
  have hsorted := List.mem_of_mem_take h
  rw [List.mem_insertionSort, List.mem_map] at hsorted
  obtain ⟨r, hr, hw⟩ := hsorted
  exact ⟨r, (List.mem_filter.mp hr).1, (List.mem_filter.mp hr).2, hw⟩

omit [DecidableEq κ] in
theorem mem_of_mem_deleteFirst {r : κ × ν} (h : r ∈ (t.deleteFirst p order limit).rows) :
    r ∈ t.rows := (mem_filter.mp h).1

omit [DecidableEq κ] in
/-- Only matching rows are deleted. -/
theorem mem_deleteFirst_of_not {r : κ × ν} (hr : r ∈ t.rows) (hp : p r = false) :
    r ∈ (t.deleteFirst p order limit).rows := mem_filter.mpr ⟨hr, by simp [hp]⟩

end Ordered

end Table

end KeyedTable
