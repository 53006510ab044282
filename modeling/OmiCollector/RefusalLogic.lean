import Mathlib.Data.List.Basic

/-! Stateful computations that may refuse, with a weakest-precondition calculus.
A refusal keeps whatever state had been reached, so both postconditions see the state. -/
namespace RefusalLogic

variable {σ ε α β : Type}

abbrev Refusable (σ ε α : Type) := ExceptT ε (StateM σ) α

def exec (x : Refusable σ ε α) (s : σ) : Except ε α × σ := x.run.run s

/-- Refuse with `e` when the condition holds. -/
def refuseIf (c : Prop) [Decidable c] (e : ε) : Refusable σ ε PUnit :=
  if c then throw e else pure ⟨⟩

/-- Refuse with `e` unless a value is present. -/
def requireSome (o : Option α) (e : ε) : Refusable σ ε α :=
  match o with
  | none => throw e
  | some a => pure a

/-- Continue with a computed value or refuse with its error. -/
def requireOk (x : Except ε α) : Refusable σ ε α :=
  match x with
  | .error e => throw e
  | .ok a => pure a

/-- `Q` after normal completion and `E` after a refusal. -/
def wp (x : Refusable σ ε α) (s : σ) (Q : α → σ → Prop) (E : ε → σ → Prop) : Prop :=
  match exec x s with
  | (.ok a, t) => Q a t
  | (.error e, t) => E e t

variable {s : σ} {Q : α → σ → Prop} {E : ε → σ → Prop}

@[simp] theorem wp_pure (a : α) : wp (pure a : Refusable σ ε α) s Q E ↔ Q a s := Iff.rfl

@[simp] theorem wp_throw (e : ε) : wp (throw e : Refusable σ ε α) s Q E ↔ E e s := Iff.rfl

@[simp] theorem wp_get {Q : σ → σ → Prop} :
    wp (get : Refusable σ ε σ) s Q E ↔ Q s s := Iff.rfl

@[simp] theorem wp_set {Q : PUnit → σ → Prop} (t : σ) :
    wp (set t : Refusable σ ε PUnit) s Q E ↔ Q ⟨⟩ t := Iff.rfl

@[simp] theorem wp_modify {Q : PUnit → σ → Prop} (f : σ → σ) :
    wp (modify f : Refusable σ ε PUnit) s Q E ↔ Q ⟨⟩ (f s) := Iff.rfl

theorem exec_bind (x : Refusable σ ε α) (f : α → Refusable σ ε β) (s : σ) :
    exec (x >>= f) s = match exec x s with
      | (.ok a, t) => exec (f a) t
      | (.error e, t) => (.error e, t) := by
  change exec (ExceptT.bind x f) s = _
  simp only [exec, ExceptT.run, ExceptT.bind, ExceptT.mk, StateT.run]
  change (match x s with
    | (a, t) => (ExceptT.bindCont f a) t) = _
  cases h : x s with
  | mk r t => cases r <;> rfl

@[simp] theorem wp_bind {Q : β → σ → Prop} (x : Refusable σ ε α) (f : α → Refusable σ ε β) :
    wp (x >>= f) s Q E ↔ wp x s (fun a t => wp (f a) t Q E) E := by
  simp only [wp, exec_bind]
  cases h : exec x s with
  | mk r t => cases r <;> rfl

@[simp] theorem wp_refuseIf {Q : PUnit → σ → Prop} (c : Prop) [Decidable c] (e : ε) :
    wp (refuseIf c e : Refusable σ ε PUnit) s Q E ↔ (c → E e s) ∧ (¬ c → Q ⟨⟩ s) := by
  unfold refuseIf
  split <;> simp_all

@[simp] theorem wp_requireSome (o : Option α) (e : ε) :
    wp (requireSome o e : Refusable σ ε α) s Q E ↔
      (o = none → E e s) ∧ (∀ a, o = some a → Q a s) := by
  cases o <;> simp [requireSome]

@[simp] theorem wp_requireOk (x : Except ε α) :
    wp (requireOk x : Refusable σ ε α) s Q E ↔
      (∀ e, x = .error e → E e s) ∧ (∀ a, x = .ok a → Q a s) := by
  cases x <;> simp [requireOk]

@[simp] theorem wp_ite (c : Prop) [Decidable c] (x y : Refusable σ ε α) :
    wp (if c then x else y) s Q E ↔ (c → wp x s Q E) ∧ (¬ c → wp y s Q E) := by
  split <;> simp_all

theorem exec_tryCatch (x : Refusable σ ε α) (handler : ε → Refusable σ ε α) (s : σ) :
    exec (tryCatch x handler) s = match exec x s with
      | (.ok a, t) => (.ok a, t)
      | (.error e, t) => exec (handler e) t := by
  change exec (ExceptT.tryCatch x handler) s = _
  simp only [exec, ExceptT.run, ExceptT.tryCatch, ExceptT.mk, StateT.run]
  change (match x s with
    | (a, t) => ((match a with
      | .ok a => pure (.ok a)
      | .error e => (handler e : StateM σ (Except ε α))) : StateM σ (Except ε α)) t) = _
  cases h : x s with
  | mk r t => cases r <;> rfl

@[simp] theorem wp_tryCatch (x : Refusable σ ε α) (handler : ε → Refusable σ ε α) :
    wp (tryCatch x handler) s Q E ↔ wp x s Q (fun e t => wp (handler e) t Q E) := by
  simp only [wp, exec_tryCatch]
  cases h : exec x s with
  | mk r t => cases r <;> rfl

/-- A computation known to complete is replaced by its result. -/
theorem wp_of_exec {x : Refusable σ ε α} {a : α} {t : σ} (h : exec x s = (.ok a, t)) :
    wp x s Q E ↔ Q a t := by
  simp [wp, h]

/-- The computation completes from this state. -/
def Accepts (x : Refusable σ ε α) (s : σ) : Prop := (exec x s).1.isOk = true

instance (x : Refusable σ ε α) (s : σ) : Decidable (Accepts x s) :=
  inferInstanceAs (Decidable (_ = _))

theorem accepts_iff_wp {x : Refusable σ ε α} :
    Accepts x s ↔ wp x s (fun _ _ => True) (fun _ _ => False) := by
  unfold Accepts wp
  split <;> rename_i h <;> simp [h, Except.isOk, Except.toBool]

/-- A computation that cannot refuse and leaves one state completes there. -/
theorem exec_of_wp {x : Refusable σ ε PUnit} {t : σ}
    (h : wp x s (fun _ u => u = t) (fun _ _ => False)) : exec x s = (.ok ⟨⟩, t) := by
  unfold wp at h
  split at h
  · rename_i heq
    rw [heq, h]
  · exact h.elim

/-- A relation to the whole outcome is a triple about its two ways of ending. -/
theorem wp_outcome {P : Except ε α → σ → Prop} {x : Refusable σ ε α} :
    wp x s (fun a t => P (.ok a) t) (fun e t => P (.error e) t) ↔ P (exec x s).1 (exec x s).2 := by
  unfold wp
  split <;> rename_i h <;> rw [h]

/-- Consequence: both postconditions may be weakened. -/
theorem wp_mono {Q' : α → σ → Prop} {E' : ε → σ → Prop} {x : Refusable σ ε α}
    (h : wp x s Q E) (hq : ∀ a t, Q a t → Q' a t) (he : ∀ e t, E e t → E' e t) :
    wp x s Q' E' := by
  unfold wp at h ⊢
  split <;> simp_all

/-- The rule of a loop over the first numbers. -/
theorem wp_forM_range {f : ℕ → Refusable σ ε PUnit} {P : ℕ → σ → Prop} {n : ℕ} (h : P 0 s)
    (hstep : ∀ k < n, ∀ t, P k t → wp (f k) t (fun _ u => P (k + 1) u) E) :
    wp ((List.range n).forM f) s (fun _ t => P n t) E := by
  induction n with
  | zero => exact h
  | succ n ih =>
    have hearlier := ih fun k hk => hstep k (Nat.lt_succ_of_lt hk)
    have hsplit : (List.range (n + 1)).forM f = (List.range n).forM f >>= fun _ => f n := by
      rw [List.range_succ]
      change forM (List.range n ++ [n]) f = _
      rw [List.forM_append, List.forM_cons, List.forM_nil, bind_pure]
      rfl
    rw [hsplit, wp_bind]
    exact wp_mono hearlier (fun _ t ht => hstep n (Nat.lt_succ_self n) t ht) fun _ _ he => he

/-- A property of the final state alone follows from both postconditions. -/
theorem wp_state {P : σ → Prop} {x : Refusable σ ε α}
    (h : wp x s Q E) (hq : ∀ a t, Q a t → P t) (he : ∀ e t, E e t → P t) :
    P (exec x s).2 := by
  unfold wp at h
  cases hx : exec x s with
  | mk r t =>
    rw [hx] at h
    cases r with
    | ok a => exact hq a t h
    | error e => exact he e t h

end RefusalLogic
