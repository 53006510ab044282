import Mathlib.Algebra.Ring.Int.Defs
import Mathlib.Data.List.Basic

/-! Integers kept as decimal text in a column. SQL reads them behind an all-digits test with a
saturating cast, the host language with its integer literal; both are given here with ASCII
digits, with the facts that let one reading stand for the other. -/
namespace DecimalText

abbrev Text := List Char

/-- The decimal text of an integer, as `str` writes it. -/
def ofInt (n : ℤ) : Text :=
  if n < 0 then '-' :: Nat.toDigits 10 n.natAbs else Nat.toDigits 10 n.natAbs

def isDigit (c : Char) : Bool := 48 ≤ c.toNat && c.toNat ≤ 57

def digitValue (c : Char) : ℕ := c.toNat - 48

def maxInteger : ℤ := 2 ^ 63 - 1

/-- `text != '' AND text NOT GLOB '*[^0-9]*'`. -/
def digitsOnly (text : Text) : Bool := !text.isEmpty && text.all isDigit

/-- The number an all-digits text denotes, after `acc` for the digits already read. -/
def valueFrom (acc : ℕ) (text : Text) : ℕ := text.foldl (fun n c => 10 * n + digitValue c) acc

/-- `CAST(text AS INTEGER)` on an all-digits text: 64-bit, saturating. -/
def castInteger (text : Text) : ℤ := min (valueFrom 0 text : ℤ) maxInteger

/-- The characters that `str.strip` and `int` drop at both ends. -/
def isSpace (c : Char) : Bool :=
  (9 ≤ c.toNat && c.toNat ≤ 13) || (28 ≤ c.toNat && c.toNat ≤ 32) ||
    (0x2000 ≤ c.toNat && c.toNat ≤ 0x200a) ||
    decide (c.toNat ∈ [0x85, 0xa0, 0x1680, 0x2028, 0x2029, 0x202f, 0x205f, 0x3000])

def strip (text : Text) : Text :=
  ((text.dropWhile isSpace).reverse.dropWhile isSpace).reverse

/-- Digits with single underscores between them, after at least one digit. -/
def digitGroups (acc : ℕ) : Text → Option ℕ
  | [] => some acc
  | '_' :: c :: rest => if isDigit c then digitGroups (10 * acc + digitValue c) rest else none
  | c :: rest => if isDigit c then digitGroups (10 * acc + digitValue c) rest else none

def unsignedLiteral : Text → Option ℕ
  | [] => none
  | c :: rest => if isDigit c then digitGroups (digitValue c) rest else none

/-- `int(text)` with ASCII digits; `none` is its `ValueError`. -/
def literal (text : Text) : Option ℤ :=
  match strip text with
  | '-' :: rest => (unsignedLiteral rest).map (fun n : ℕ => -(n : ℤ))
  | '+' :: rest => (unsignedLiteral rest).map (fun n : ℕ => (n : ℤ))
  | rest => (unsignedLiteral rest).map (fun n : ℕ => (n : ℤ))

example : literal (ofInt (-30)) = some (-30) := by decide
example : digitsOnly (ofInt 305) = true ∧ valueFrom 0 (ofInt 305) = 305 := by decide

theorem isSpace_eq_false {c : Char} (h : isDigit c = true) : isSpace c = false := by
  simp only [isDigit, Bool.and_eq_true, decide_eq_true_eq] at h
  rw [Bool.eq_false_iff]
  intro hspace
  simp only [isSpace, Bool.or_eq_true, Bool.and_eq_true, decide_eq_true_eq, List.mem_cons,
    List.not_mem_nil, or_false] at hspace
  omega

theorem strip_of_solid {text : Text} (h : ∀ c ∈ text, isSpace c = false) : strip text = text := by
  have hkeep : ∀ t : Text, (∀ c ∈ t, isSpace c = false) → t.dropWhile isSpace = t := by
    intro t ht
    cases t with
    | nil => rfl
    | cons c rest =>
      rw [List.dropWhile_cons, ht c (by simp)]
      rfl
  have hreverse : ∀ c ∈ text.reverse, isSpace c = false := by
    intro c hc
    exact h c (List.mem_reverse.mp hc)
  rw [strip, hkeep text h, hkeep text.reverse hreverse, List.reverse_reverse]

theorem solid_of_digits {text : Text} (h : text.all isDigit = true) :
    ∀ c ∈ text, isSpace c = false :=
  fun c hc => isSpace_eq_false (List.all_eq_true.mp h c hc)

theorem digitGroups_of_digits {text : Text} (h : text.all isDigit = true) (acc : ℕ) :
    digitGroups acc text = some (valueFrom acc text) := by
  induction text generalizing acc with
  | nil => rfl
  | cons c rest ih =>
    have hall := List.all_eq_true.mp h
    have hc : isDigit c = true := hall c (by simp)
    have hrest : rest.all isDigit = true :=
      List.all_eq_true.mpr (fun d hd => hall d (List.mem_cons_of_mem c hd))
    have hplain : c ≠ '_' := by
      rintro rfl
      exact absurd hc (by decide)
    have hstep : digitGroups acc (c :: rest) = digitGroups (10 * acc + digitValue c) rest := by
      rw [digitGroups.eq_3 acc c rest (by intro d t he; simp_all), if_pos hc]
    rw [hstep, ih hrest]
    rfl

theorem unsignedLiteral_of_digitsOnly {text : Text} (h : digitsOnly text = true) :
    unsignedLiteral text = some (valueFrom 0 text) := by
  simp only [digitsOnly, Bool.and_eq_true] at h
  cases text with
  | nil => exact absurd h.1 (by decide)
  | cons c rest =>
    have hall := List.all_eq_true.mp h.2
    have hc : isDigit c = true := hall c (by simp)
    have hrest : rest.all isDigit = true :=
      List.all_eq_true.mpr (fun d hd => hall d (List.mem_cons_of_mem c hd))
    rw [unsignedLiteral, if_pos hc, digitGroups_of_digits hrest]
    simp [valueFrom]

/-- On all-digits text the two readings agree up to the saturation of the cast. -/
theorem literal_of_digitsOnly {text : Text} (h : digitsOnly text = true) :
    literal text = some (valueFrom 0 text : ℤ) := by
  have hunsigned := unsignedLiteral_of_digitsOnly h
  simp only [digitsOnly, Bool.and_eq_true] at h
  have hall := List.all_eq_true.mp h.2
  have hsign : ∀ c rest, (text = c :: rest) → isDigit c = true := by
    rintro c rest rfl
    exact hall c (by simp)
  rw [literal, strip_of_solid (solid_of_digits h.2)]
  split
  · exact absurd (hsign _ _ rfl) (by decide)
  · exact absurd (hsign _ _ rfl) (by decide)
  · rw [hunsigned]
    rfl

theorem digitsOnly_toDigits (n : ℕ) : digitsOnly (Nat.toDigits 10 n) = true := by
  rw [digitsOnly, Bool.and_eq_true]
  refine ⟨by simp [Nat.toDigits_ne_nil], List.all_eq_true.mpr ?_⟩
  intro c hc
  have hdigit := Char.isDigit_iff_toNat.mp (Nat.isDigit_of_mem_toDigits (by decide) (by decide) hc)
  simpa [isDigit] using hdigit

theorem valueFrom_toDigits (n : ℕ) : valueFrom 0 (Nat.toDigits 10 n) = n :=
  Nat.ofDigitChars_ten_toDigits

/-- The text of an integer reads back as that integer. -/
theorem literal_ofInt (n : ℤ) : literal (ofInt n) = some n := by
  unfold ofInt
  split
  · rename_i hneg
    have hdigits := digitsOnly_toDigits n.natAbs
    have hall : (Nat.toDigits 10 n.natAbs).all isDigit = true := by
      simp only [digitsOnly, Bool.and_eq_true] at hdigits
      exact hdigits.2
    have hsolid : ∀ c ∈ '-' :: Nat.toDigits 10 n.natAbs, isSpace c = false := by
      intro c hc
      rcases List.mem_cons.mp hc with rfl | hc
      · decide
      · exact solid_of_digits hall c hc
    rw [literal, strip_of_solid hsolid]
    change (unsignedLiteral (Nat.toDigits 10 n.natAbs)).map (fun m : ℕ => -(m : ℤ)) = some n
    rw [unsignedLiteral_of_digitsOnly hdigits, valueFrom_toDigits, Option.map_some,
      Option.some.injEq]
    omega
  · rename_i hnonneg
    rw [literal_of_digitsOnly (digitsOnly_toDigits n.natAbs), valueFrom_toDigits]
    simp only [Option.some.injEq]
    omega

end DecimalText
