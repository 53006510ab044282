import Mathlib.Data.List.Basic

/-! Finite runs of a total step function. Refused inputs are steps that change nothing,
so every list of inputs is a run. The rules below lift one-step facts to whole runs. -/
namespace TransitionRuns

variable {σ ι : Type*} (step : σ → ι → σ)

def run (s : σ) (inputs : List ι) : σ := inputs.foldl step s

@[simp] theorem run_nil (s : σ) : run step s [] = s := rfl

@[simp] theorem run_cons (s : σ) (i : ι) (is : List ι) :
    run step s (i :: is) = run step (step s i) is := rfl

theorem run_append (s : σ) (is js : List ι) :
    run step s (is ++ js) = run step (run step s is) js := List.foldl_append

theorem run_snoc (s : σ) (is : List ι) (i : ι) :
    run step s (is ++ [i]) = step (run step s is) i := run_append step s is [i]

variable {step}

/-- An invariant that every admissible input preserves holds after every admissible run. -/
theorem run_invariant {P : σ → Prop} {Q : ι → Prop}
    (preserved : ∀ s i, Q i → P s → P (step s i)) {s : σ} (initial : P s)
    {is : List ι} (admissible : ∀ i ∈ is, Q i) : P (run step s is) := by
  induction is generalizing s with
  | nil => exact initial
  | cons i is ih =>
    exact ih (preserved s i (admissible i (by simp)) initial)
      (fun j hj => admissible j (List.mem_cons_of_mem i hj))

/-- Every step of a run is admissible in the state it is taken in. -/
def Along (step : σ → ι → σ) (admissible : σ → ι → Prop) (s : σ) : List ι → Prop
  | [] => True
  | i :: is => admissible s i ∧ Along step admissible (step s i) is

instance decidableAlong {A : σ → ι → Prop} [inst : ∀ s i, Decidable (A s i)] (s : σ) :
    (is : List ι) → Decidable (Along step A s is)
  | [] => isTrue trivial
  | i :: is => @instDecidableAnd _ _ (inst s i) (decidableAlong (step s i) is)

/-- The first step of a run that is not admissible. -/
theorem exists_of_not_along {A : σ → ι → Prop} {s : σ} {is : List ι} (h : ¬ Along step A s is) :
    ∃ before i after, is = before ++ i :: after ∧ Along step A s before ∧
      ¬ A (run step s before) i := by
  induction is generalizing s with
  | nil => exact absurd trivial h
  | cons i is ih =>
    by_cases hi : A s i
    · obtain ⟨before, j, after, rfl, halong, hj⟩ := ih fun hrest => h ⟨hi, hrest⟩
      exact ⟨i :: before, j, after, rfl, ⟨hi, halong⟩, hj⟩
    · exact ⟨[], i, is, rfl, trivial, hi⟩

/-- An invariant that every admissible step preserves holds after every run of such steps. -/
theorem run_invariant_along {P : σ → Prop} {A : σ → ι → Prop}
    (preserved : ∀ s i, A s i → P s → P (step s i)) {s : σ} (initial : P s) {is : List ι}
    (along : Along step A s is) : P (run step s is) := by
  induction is generalizing s with
  | nil => exact initial
  | cons i is ih => exact ih (preserved s i along.1 initial) along.2

/-- A preorder respected by each step from an invariant state relates the ends of a run. -/
theorem run_relation {P : σ → Prop} {Q : ι → Prop} {R : σ → σ → Prop}
    (preserved : ∀ s i, Q i → P s → P (step s i))
    (refl : ∀ s, R s s) (trans : ∀ {s t u}, R s t → R t u → R s u)
    (related : ∀ s i, Q i → P s → R s (step s i)) {s : σ} (initial : P s)
    {is : List ι} (admissible : ∀ i ∈ is, Q i) : R s (run step s is) := by
  induction is generalizing s with
  | nil => exact refl s
  | cons i is ih =>
    have hi := admissible i (by simp)
    exact trans (related s i hi initial)
      (ih (preserved s i hi initial) (fun j hj => admissible j (List.mem_cons_of_mem i hj)))

end TransitionRuns
