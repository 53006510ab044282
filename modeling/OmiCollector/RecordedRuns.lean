import Mathlib.Data.List.Basic

/-! Runs of a step function that may stop, recorded entry by entry, and invariants that relate the
record so far to the state reached. -/
namespace RecordedRuns

variable {σ ι ο : Type}

/-- One step of a run. -/
structure Entry (σ ι ο : Type) where
  before : σ
  input : ι
  after : σ
  output : ο
  deriving DecidableEq, Repr

section Record

variable (perform : σ → ι → Option (σ × ο))

/-- The steps taken on a list of inputs; a step that is not taken ends the run. -/
def record (s : σ) : List ι → List (Entry σ ι ο)
  | [] => []
  | i :: is =>
    match perform s i with
    | none => []
    | some (t, o) => ⟨s, i, t, o⟩ :: record t is

/-- The entry is a step of the function. -/
def Taken (e : Entry σ ι ο) : Prop := perform e.before e.input = some (e.after, e.output)

end Record

variable {perform : σ → ι → Option (σ × ο)}

/-- What holds of the empty record and is kept by every step holds wherever a run is cut. -/
theorem record_invariant {Inv : List (Entry σ ι ο) → σ → Prop} {Before : ι → ι → Prop}
    (step : ∀ past e, Inv past e.before → (∀ p ∈ past, Before p.input e.input) →
      Taken perform e → Inv (past ++ [e]) e.after)
    {past : List (Entry σ ι ο)} {s : σ} {is : List ι} (initial : Inv past s)
    (ordered : (past.map Entry.input ++ is).Pairwise Before) {pre post : List (Entry σ ι ο)}
    {e : Entry σ ι ο} (h : record perform s is = pre ++ e :: post) :
    Inv (past ++ pre) e.before ∧ (∀ p ∈ past ++ pre, Before p.input e.input) ∧
      Taken perform e := by
  induction is generalizing past s pre with
  | nil => simp [record] at h
  | cons i is ih =>
    simp only [record] at h
    cases hp : perform s i with
    | none => simp [hp] at h
    | some r =>
      obtain ⟨t, o⟩ := r
      simp only [hp] at h
      have hbefore : ∀ p ∈ past, Before p.input i := by
        intro p hp
        have hcross := (List.pairwise_append.mp ordered).2.2
        exact hcross p.input (List.mem_map_of_mem hp) i (by simp)
      cases pre with
      | nil =>
        obtain ⟨rfl, -⟩ := List.cons.inj h
        exact ⟨by simpa using initial, by simpa using hbefore, hp⟩
      | cons first pre =>
        obtain ⟨rfl, hrest⟩ := List.cons.inj h
        have hnext := step past ⟨s, i, t, o⟩ initial hbefore hp
        have hordered :
            ((past ++ [(⟨s, i, t, o⟩ : Entry σ ι ο)]).map Entry.input ++ is).Pairwise Before := by
          simpa using ordered
        have hcut := ih hnext hordered hrest
        simpa using hcut

end RecordedRuns
