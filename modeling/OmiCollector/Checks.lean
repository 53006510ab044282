import Mathlib.Data.List.Forall2

/-! Sequences of checks that refuse with an error, and what a passed sequence has established. -/
namespace Checks

variable {ε α β : Type}

/-- Refuse with `e` when the condition holds. -/
def refuse (c : Prop) [Decidable c] (e : ε) : Except ε Unit := if c then .error e else .ok ()

@[simp] theorem refuse_ok {c : Prop} [Decidable c] {e : ε} {u : Unit} :
    refuse c e = .ok u ↔ ¬ c := by
  by_cases h : c <;> simp [refuse, h]

@[simp] theorem refuse_error {c : Prop} [Decidable c] {e d : ε} :
    refuse c e = .error d ↔ c ∧ e = d := by
  by_cases h : c <;> simp [refuse, h]

@[simp] theorem throw_ok {e : ε} {a : α} : ¬ (throw e : Except ε α) = .ok a := by
  intro h
  cases h

@[simp] theorem pure_ok {a b : α} : (pure a : Except ε α) = .ok b ↔ a = b :=
  Except.ok.injEq a b ▸ Iff.rfl

/-- Two steps succeed when the first does and the second does on its result. -/
@[simp] theorem bind_ok {x : Except ε α} {f : α → Except ε β} {b : β} :
    x >>= f = .ok b ↔ ∃ a, x = .ok a ∧ f a = .ok b := by
  constructor
  · intro h
    cases x with
    | error e => cases h
    | ok a => exact ⟨a, rfl, h⟩
  · rintro ⟨a, rfl, h⟩
    exact h

/-- Two steps fail when the first does or the second does on its result. -/
theorem bind_error {x : Except ε α} {f : α → Except ε β} {e : ε} :
    x >>= f = .error e ↔ x = .error e ∨ ∃ a, x = .ok a ∧ f a = .error e := by
  cases x with
  | error d => simp [bind, Except.bind]
  | ok a => simp [bind, Except.bind]

@[simp] theorem mapError_ok {δ : Type} {g : ε → δ} {x : Except ε α} {a : α} :
    x.mapError g = .ok a ↔ x = .ok a := by
  cases x with
  | error e => simp [Except.mapError]
  | ok b => simp [Except.mapError]

/-- A list of steps succeeds when each of them does. -/
theorem mapM_eq_ok {f : α → Except ε β} {l : List α} {out : List β} :
    l.mapM f = .ok out ↔ List.Forall₂ (fun a b => f a = .ok b) l out := by
  induction l generalizing out with
  | nil =>
    rw [List.mapM_nil, pure_ok, List.forall₂_nil_left_iff, eq_comm]
  | cons a l ih =>
    simp only [List.mapM_cons, bind_ok, pure_ok, ih, List.forall₂_cons_left_iff]
    constructor
    · rintro ⟨b, hb, bs, hbs, rfl⟩
      exact ⟨b, bs, hb, hbs, rfl⟩
    · rintro ⟨b, bs, hb, hbs, rfl⟩
      exact ⟨b, hb, bs, hbs, rfl⟩

/-- A list of steps fails at the first step that does. -/
theorem mapM_eq_error {f : α → Except ε β} {l : List α} {e : ε} :
    l.mapM f = .error e ↔ ∃ before a after, l = before ++ a :: after ∧
      (∀ b ∈ before, ∃ c, f b = .ok c) ∧ f a = .error e := by
  induction l with
  | nil => simp [pure, Except.pure]
  | cons a l ih =>
    simp only [List.mapM_cons, bind_error, ih]
    constructor
    · rintro (h | ⟨b, hb, ⟨before, c, after, rfl, hbefore, hc⟩ | ⟨_, _, h⟩⟩)
      · exact ⟨[], a, l, rfl, by simp, h⟩
      · refine ⟨a :: before, c, after, rfl, ?_, hc⟩
        intro d hd
        rcases List.mem_cons.mp hd with rfl | hd
        · exact ⟨b, hb⟩
        · exact hbefore d hd
      · cases h
    · rintro ⟨before, c, after, hl, hbefore, hc⟩
      cases before with
      | nil =>
        obtain ⟨rfl, rfl⟩ := List.cons.inj hl
        exact .inl hc
      | cons b before =>
        obtain ⟨rfl, rfl⟩ := List.cons.inj hl
        obtain ⟨d, hd⟩ := hbefore a (by simp)
        exact .inr ⟨d, hd, .inl ⟨before, c, after, rfl,
          fun x hx => hbefore x (List.mem_cons_of_mem _ hx), hc⟩⟩

theorem mapM_ok {f : α → Except ε β} {l : List α} {out : List β} (h : l.mapM f = .ok out) :
    List.Forall₂ (fun a b => f a = .ok b) l out :=
  mapM_eq_ok.mp h

theorem exists_of_mem_mapM {f : α → Except ε β} {l : List α} {out : List β}
    (h : l.mapM f = .ok out) {b : β} (hb : b ∈ out) : ∃ a ∈ l, f a = .ok b := by
  have hall := mapM_ok h
  clear h
  induction hall with
  | nil => simp at hb
  | cons hab _ ih =>
    rcases List.mem_cons.mp hb with rfl | hb
    · exact ⟨_, by simp, hab⟩
    · obtain ⟨a, ha, hfa⟩ := ih hb
      exact ⟨a, List.mem_cons_of_mem _ ha, hfa⟩

theorem exists_mem_of_mapM {f : α → Except ε β} {l : List α} {out : List β}
    (h : l.mapM f = .ok out) {a : α} (ha : a ∈ l) : ∃ b ∈ out, f a = .ok b := by
  have hall := mapM_ok h
  clear h
  induction hall with
  | nil => simp at ha
  | cons hab _ ih =>
    rcases List.mem_cons.mp ha with rfl | ha
    · exact ⟨_, by simp, hab⟩
    · obtain ⟨b, hb, hfa⟩ := ih ha
      exact ⟨b, List.mem_cons_of_mem _ hb, hfa⟩

/-- A list of partial steps has a result when each of them does. -/
theorem option_mapM_eq_some {f : α → Option β} {l : List α} {out : List β} :
    l.mapM f = some out ↔ List.Forall₂ (fun a b => f a = some b) l out := by
  induction l generalizing out with
  | nil => simp [eq_comm]
  | cons a l ih =>
    simp only [List.mapM_cons, bind, Option.bind_eq_some_iff, ih, List.forall₂_cons_left_iff, pure,
      Option.some.injEq]
    constructor
    · rintro ⟨b, hb, bs, hbs, rfl⟩
      exact ⟨b, bs, hb, hbs, rfl⟩
    · rintro ⟨b, bs, hb, hbs, rfl⟩
      exact ⟨b, hb, bs, hbs, rfl⟩

/-- A list related to `out` by a function and a condition is its image, and the condition holds. -/
theorem forall₂_map_eq {P : β → Prop} {f : β → α} {l : List α} {out : List β} :
    List.Forall₂ (fun a b => a = f b ∧ P b) l out ↔ l = out.map f ∧ ∀ b ∈ out, P b := by
  induction out generalizing l with
  | nil => simp
  | cons b out ih =>
    simp only [List.forall₂_cons_right_iff, ih, List.map_cons, List.forall_mem_cons]
    constructor
    · rintro ⟨a, u, ⟨rfl, hb⟩, ⟨rfl, hout⟩, rfl⟩
      exact ⟨rfl, hb, hout⟩
    · rintro ⟨rfl, hb, hout⟩
      exact ⟨f b, out.map f, ⟨rfl, hb⟩, ⟨rfl, hout⟩, rfl⟩

/-! ### Data refinement -/

variable {ε' ε'' α' β' : Type}

/-- `r` answers the image of what `r'` answers, and where `r'` fails it fails with an error
in `p`. -/
structure Refines (f : α' → α) (p : ε → Prop) (r : Except ε α) (r' : Except ε' α') : Prop where
  ok : ∀ x, r' = .ok x → r = .ok (f x)
  error : ∀ e, r' = .error e → ∃ d, r = .error d ∧ p d

variable {f : α' → α} {g : β' → β} {p : ε → Prop} {r : Except ε α} {r' : Except ε' α'}

theorem refines_ok (x : α') : Refines f p (.ok (f x)) (.ok x : Except ε' α') where
  ok _ h := Except.ok.inj h ▸ rfl
  error _ h := by cases h

theorem refines_error {d : ε} {e : ε'} (h : p d) : Refines f p (.error d) (.error e) where
  ok _ h := by cases h
  error _ _ := ⟨d, rfl, h⟩

theorem Refines.ok_or_error (h : Refines f p r r') :
    (∃ x, r' = .ok x ∧ r = .ok (f x)) ∨ ∃ e d, r' = .error e ∧ r = .error d ∧ p d := by
  cases hr : r' with
  | ok x => exact .inl ⟨x, rfl, h.ok x hr⟩
  | error e =>
    obtain ⟨d, hd, hp⟩ := h.error e hr
    exact .inr ⟨e, d, rfl, hd, hp⟩

theorem Refines.exists_of_ok (h : Refines f p r r') {y : α} (hr : r = .ok y) :
    ∃ x, r' = .ok x ∧ f x = y := by
  obtain ⟨x, hx, hok⟩ | ⟨e, d, -, herror, -⟩ := h.ok_or_error
  · exact ⟨x, hx, Except.ok.inj (hok.symm.trans hr)⟩
  · rw [herror] at hr
    cases hr

theorem Refines.of_error (h : Refines f p r r') {d : ε} (hr : r = .error d) : p d := by
  obtain ⟨x, -, hok⟩ | ⟨e, d', -, herror, hp⟩ := h.ok_or_error
  · rw [hok] at hr
    cases hr
  · exact Except.error.inj (herror.symm.trans hr) ▸ hp

/-- Refinements compose along the steps of a computation. -/
theorem Refines.bind (h : Refines f p r r') {k : α → Except ε β} {k' : α' → Except ε' β'}
    (hk : ∀ x, r' = .ok x → Refines g p (k (f x)) (k' x)) : Refines g p (r >>= k) (r' >>= k') := by
  obtain ⟨x, hx, hr⟩ | ⟨e, d, he, hr, hd⟩ := h.ok_or_error
  · rw [hx, hr]
    exact hk x hx
  · rw [he, hr]
    exact refines_error hd

theorem Refines.mapError {g : ε → ε} (h : Refines f p r r') (hg : ∀ d, p d → p (g d)) :
    Refines f p (r.mapError g) r' := by
  obtain ⟨x, hx, hr⟩ | ⟨e, d, he, hr, hd⟩ := h.ok_or_error
  · rw [hx, hr]
    exact refines_ok x
  · rw [he, hr]
    exact refines_error (hg d hd)

theorem Refines.mapError_right {g : ε' → ε''} (h : Refines f p r r') :
    Refines f p r (r'.mapError g) := by
  obtain ⟨x, hx, hr⟩ | ⟨e, d, he, hr, hd⟩ := h.ok_or_error
  · rw [hx, hr]
    exact refines_ok x
  · rw [he, hr]
    exact refines_error hd

/-- Passing over a list refines step by step, under an invariant of the abstract state. -/
theorem Refines.foldlM {γ γ' : Type} {step : α → γ → Except ε α} {step' : α' → γ' → Except ε' α'}
    {inv : α' → Prop} {l : List γ} {l' : List γ'} {x : α'}
    (hstep : List.Forall₂ (fun c c' => ∀ x, inv x → Refines f p (step (f x) c) (step' x c') ∧
      ∀ y, step' x c' = .ok y → inv y) l l') (hx : inv x) :
    Refines f p (l.foldlM step (f x)) (l'.foldlM step' x) := by
  induction hstep generalizing x with
  | nil => exact refines_ok x
  | cons hone _ ih =>
    rw [List.foldlM_cons, List.foldlM_cons]
    exact (hone x hx).1.bind fun y hy => ih ((hone x hx).2 y hy)

end Checks
