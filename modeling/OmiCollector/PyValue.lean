import Mathlib.Algebra.Order.Ring.Rat
import Mathlib.Data.List.Basic
import OmiCollector.Checks

/-! Values of a dynamically typed program as a JSON decoder returns them, the type tests such a
program makes on them, and the exceptions its built-in operations raise.

A dictionary is the list of its items; of a repeated key the first item counts. -/
namespace PyValue

inductive PyFloat where
  | finite (q : ℚ)
  | infinite (negative : Bool)
  | nan
  deriving DecidableEq, Repr

/-- `other` is an object of any class that the decoder does not return. -/
inductive Value where
  | null
  | bool (b : Bool)
  | int (z : ℤ)
  | float (x : PyFloat)
  | str (s : String)
  | list (items : List Value)
  | dict (fields : List (String × Value))
  | other

abbrev Fields := List (String × Value)

/-- What an operation raises: a built-in exception or one of the program's own. -/
inductive Raised (E : Type) where
  | keyError (key : String)
  | overflowError
  | valueError (message : String)
  | own (error : E)
  deriving DecidableEq, Repr

/-- An integer that is no `bool`. -/
def Value.asInt : Value → Option ℤ
  | .int z => some z
  | _ => none

def Value.asText : Value → Option String
  | .str s => some s
  | _ => none

def Value.asDict : Value → Option Fields
  | .dict fields => some fields
  | _ => none

def Value.asList : Value → Option (List Value)
  | .list items => some items
  | _ => none

/-- `isinstance(value, int)`, which a `bool` passes. -/
def Value.IsInt : Value → Prop
  | .int _ => True
  | .bool _ => True
  | _ => False

/-- `isinstance(value, (int, float))`. -/
def Value.IsNumber : Value → Prop
  | .float _ => True
  | v => v.IsInt

instance (v : Value) : Decidable v.IsInt := by
  cases v <;> unfold Value.IsInt <;> infer_instance

instance (v : Value) : Decidable v.IsNumber := by
  cases v <;> unfold Value.IsNumber <;> infer_instance

/-- `value == z`, which compares numbers by value and takes `True` for `1`. -/
def Value.EqualsInt (z : ℤ) : Value → Prop
  | .int x => x = z
  | .bool b => (b.toNat : ℤ) = z
  | .float (.finite q) => q = z
  | _ => False

instance decidableEqualsInt (z : ℤ) : (v : Value) → Decidable (v.EqualsInt z)
  | .int x => inferInstanceAs (Decidable (x = z))
  | .bool b => inferInstanceAs (Decidable ((b.toNat : ℤ) = z))
  | .float (.finite q) => inferInstanceAs (Decidable (q = z))
  | .float (.infinite _) | .float .nan => instDecidableFalse
  | .null | .str _ | .list _ | .dict _ | .other => instDecidableFalse

@[simp] theorem asInt_eq_some {v : Value} {z : ℤ} : v.asInt = some z ↔ v = .int z := by
  cases v <;> simp [Value.asInt]

@[simp] theorem asText_eq_some {v : Value} {s : String} : v.asText = some s ↔ v = .str s := by
  cases v <;> simp [Value.asText]

@[simp] theorem asDict_eq_some {v : Value} {d : Fields} : v.asDict = some d ↔ v = .dict d := by
  cases v <;> simp [Value.asDict]

@[simp] theorem asList_eq_some {v : Value} {l : List Value} :
    v.asList = some l ↔ v = .list l := by
  cases v <;> simp [Value.asList]

/-- A finite number, which keeps whether it is an integer or a float. -/
inductive Number where
  | int (z : ℤ)
  | float (q : ℚ)
  deriving DecidableEq, Repr

def Number.toValue : Number → Value
  | .int z => .int z
  | .float q => .float (.finite q)

def Number.toRat : Number → ℚ
  | .int z => z
  | .float q => q

/-- The first magnitude that rounds beyond the largest float. -/
def floatLimit : ℕ := 2 ^ 1024 - 2 ^ 970

/-- A number that converts to a float. -/
def Number.Convertible : Number → Prop
  | .int z => z.natAbs < floatLimit
  | .float _ => True

instance (n : Number) : Decidable n.Convertible := by
  cases n <;> unfold Number.Convertible <;> infer_instance

/-- An integer too large to convert to a float. -/
def Value.Oversize (v : Value) : Prop := ∃ z : ℤ, v = .int z ∧ floatLimit ≤ z.natAbs

variable {E : Type}

/-- A finite number that is no `bool`, by `math.isfinite`, which converts an integer first. -/
def finiteNumber : Value → Except (Raised E) (Option Number)
  | .int z => if z.natAbs < floatLimit then .ok (some (.int z)) else .error .overflowError
  | .float (.finite q) => .ok (some (.float q))
  | _ => .ok none

/-- `dict[key]`. -/
def item (fields : Fields) (key : String) : Except (Raised E) Value :=
  match fields.lookup key with
  | some v => .ok v
  | none => .error (.keyError key)

/-- Every required key is there and every other key is optional. -/
def HasKeys (fields : Fields) (required optional : List String) : Prop :=
  (∀ k ∈ required, (fields.lookup k).isSome) ∧
    ∀ f ∈ fields, f.1 ∈ required ∨ f.1 ∈ optional

instance (fields : Fields) (required optional : List String) :
    Decidable (HasKeys fields required optional) :=
  inferInstanceAs (Decidable (_ ∧ _))

@[simp] theorem finiteNumber_some {v : Value} {n : Number} :
    (finiteNumber v : Except (Raised E) _) = .ok (some n) ↔ v = n.toValue ∧ n.Convertible := by
  cases n with
  | int z =>
    cases v with
    | int y =>
      by_cases h : y.natAbs < floatLimit <;>
        simp [finiteNumber, h, Number.toValue, Number.Convertible] <;> grind
    | float x => cases x <;> simp [finiteNumber, Number.toValue]
    | _ => simp [finiteNumber, Number.toValue]
  | float q =>
    cases v with
    | int y => by_cases h : y.natAbs < floatLimit <;> simp [finiteNumber, h, Number.toValue]
    | float x => cases x <;> simp [finiteNumber, Number.toValue, Number.Convertible]
    | _ => simp [finiteNumber, Number.toValue]

@[simp] theorem finiteNumber_error {v : Value} {e : Raised E} :
    finiteNumber v = .error e ↔ e = .overflowError ∧ v.Oversize := by
  cases v with
  | int z =>
    by_cases h : z.natAbs < floatLimit
    · simp [finiteNumber, h, Value.Oversize]
    · simp [finiteNumber, h, Value.Oversize, Nat.le_of_not_lt h, eq_comm]
  | float x => cases x <;> simp [finiteNumber, Value.Oversize]
  | _ => simp [finiteNumber, Value.Oversize]

@[simp] theorem item_ok {fields : Fields} {key : String} {v : Value} :
    (item fields key : Except (Raised E) _) = .ok v ↔ fields.lookup key = some v := by
  cases h : fields.lookup key <;> simp [item, h]

@[simp] theorem item_error {fields : Fields} {key : String} {e : Raised E} :
    item fields key = .error e ↔ fields.lookup key = none ∧ e = .keyError key := by
  cases h : fields.lookup key <;> simp [item, h, eq_comm]

/-- A required key of checked fields has its value. -/
theorem HasKeys.lookup {fields : Fields} {required optional : List String}
    (h : HasKeys fields required optional) {key : String} (hk : key ∈ required) :
    ∃ v, fields.lookup key = some v :=
  Option.isSome_iff_exists.mp (h.1 key hk)

end PyValue
