import Mathlib.Data.List.Basic
import Mathlib.Data.Nat.Basic

/-! Text keys made of fields joined by colons. A field without a colon can be read back from the
front of a key, and decimal numerals are such fields. -/
namespace KeyText

/-- A field followed by the rest of a key. -/
def colon (field rest : String) : String := field ++ ":" ++ rest

/-- The text before the first colon, or all of it. -/
def partition (key : String) : String :=
  String.ofList (key.toList.takeWhile (· ≠ ':'))

/-- The text has no colon. -/
def Plain (field : String) : Prop := ':' ∉ field.toList

instance (field : String) : Decidable (Plain field) := inferInstanceAs (Decidable (¬ _))

theorem takeWhile_colon {field : String} (rest : String) (h : Plain field) :
    (colon field rest).toList.takeWhile (· ≠ ':') = field.toList := by
  have hkeep : ∀ c ∈ field.toList, decide (c ≠ ':') = true := by
    intro c hc
    apply decide_eq_true
    intro hcolon
    exact h (hcolon ▸ hc)
  have hlist : (colon field rest).toList = field.toList ++ ':' :: rest.toList := by
    simp [colon]
  rw [hlist, List.takeWhile_append_of_pos hkeep]
  simp

theorem partition_colon {field : String} (rest : String) (h : Plain field) :
    partition (colon field rest) = field := by
  rw [partition, takeWhile_colon rest h, String.ofList_toList]

end KeyText
