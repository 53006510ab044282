import Mathlib.Logic.Relation
import OmiCollector.RefusalLogic

/-! Computations whose durable part moves by the steps of a relation.

A computation may stop at any refusal, so its durable part is the same after every way of ending:
a sequence of steps away from where it began. An invariant of the relation holds at every point on
the way, and each rule hands it to the rest of the computation. -/
namespace StepRuns

open RefusalLogic
open Relation (ReflTransGen)

variable {σ π ε α β : Type}

/-- The part of a state that lasts, the steps it takes, and what they all keep. -/
structure Durable (σ π : Type) where
  point : σ → π
  Step : π → π → Prop
  Inv : π → Prop
  preserved : ∀ {p q}, Inv p → Step p q → Inv q

/-- From an invariant state the computation takes steps only, and ends in `Q` if it completes. -/
def Runs (d : Durable σ π) (x : Refusable σ ε α) (s : σ) (Q : α → σ → Prop) : Prop :=
  d.Inv (d.point s) → wp x s
    (fun a t => ReflTransGen d.Step (d.point s) (d.point t) ∧ d.Inv (d.point t) ∧ Q a t)
    (fun _ t => ReflTransGen d.Step (d.point s) (d.point t) ∧ d.Inv (d.point t))

variable {d : Durable σ π} {s : σ} {Q Q' : α → σ → Prop} {x : Refusable σ ε α}

/-- An invariant of single steps is one of sequences of steps. -/
theorem Durable.inv_of_steps (d : Durable σ π) {p q : π} (hp : d.Inv p)
    (h : ReflTransGen d.Step p q) : d.Inv q := by
  induction h with
  | refl => exact hp
  | tail _ hstep ih => exact d.preserved ih hstep

theorem runs_of_inv (h : d.Inv (d.point s) → Runs d x s Q) : Runs d x s Q :=
  fun hinv => h hinv hinv

theorem runs_pure {a : α} (h : Q a s) : Runs d (pure a : Refusable σ ε α) s Q :=
  fun hinv => ⟨.refl, hinv, h⟩

theorem runs_throw {e : ε} : Runs d (throw e : Refusable σ ε α) s Q :=
  fun hinv => ⟨.refl, hinv⟩

theorem Runs.mono (h : Runs d x s Q) (hq : ∀ a t, d.Inv (d.point t) → Q a t → Q' a t) :
    Runs d x s Q' := fun hinv =>
  wp_mono (h hinv) (fun a t ht => ⟨ht.1, ht.2.1, hq a t ht.2.1 ht.2.2⟩) fun _ _ ht => ht

/-- The rest of a computation starts from an invariant state as well. -/
theorem Runs.bind {f : α → Refusable σ ε β} {P : β → σ → Prop} (h : Runs d x s Q)
    (hf : ∀ a t, d.Inv (d.point t) → Q a t → Runs d (f a) t P) : Runs d (x >>= f) s P := by
  intro hinv
  rw [wp_bind]
  refine wp_mono (h hinv) ?_ fun _ _ ht => ht
  intro a t ht
  obtain ⟨hsteps, hinv', ha⟩ := ht
  refine wp_mono (hf a t hinv' ha hinv') ?_ ?_
  · exact fun b u hu => ⟨hsteps.trans hu.1, hu.2⟩
  · exact fun e u hu => ⟨hsteps.trans hu.1, hu.2⟩

theorem runs_get_bind {f : σ → Refusable σ ε β} {P : β → σ → Prop} (h : Runs d (f s) s P) :
    Runs d (get >>= f) s P := by
  intro hinv
  rw [wp_bind, wp_get]
  exact h hinv

/-- A change of the state that leaves its durable part alone. -/
theorem runs_set {t : σ} {P : PUnit → σ → Prop} (hpoint : d.point t = d.point s) (h : P ⟨⟩ t) :
    Runs d (set t : Refusable σ ε PUnit) s P := by
  intro hinv
  rw [wp_set, hpoint]
  exact ⟨.refl, hinv, h⟩

theorem runs_modify {f : σ → σ} {P : PUnit → σ → Prop} (hpoint : d.point (f s) = d.point s)
    (h : P ⟨⟩ (f s)) : Runs d (modify f : Refusable σ ε PUnit) s P := by
  intro hinv
  rw [wp_modify, hpoint]
  exact ⟨.refl, hinv, h⟩

/-- A change of the state that is one step of its durable part. -/
theorem runs_set_step {t : σ} {P : PUnit → σ → Prop}
    (hstep : d.Step (d.point s) (d.point t)) (h : P ⟨⟩ t) :
    Runs d (set t : Refusable σ ε PUnit) s P := by
  intro hinv
  rw [wp_set]
  exact ⟨.single hstep, d.preserved hinv hstep, h⟩

theorem runs_refuseIf {c : Prop} [Decidable c] {e : ε} {P : PUnit → σ → Prop} (h : ¬ c → P ⟨⟩ s) :
    Runs d (refuseIf c e : Refusable σ ε PUnit) s P := by
  unfold refuseIf
  by_cases hc : c
  · rw [if_pos hc]
    exact runs_throw
  · rw [if_neg hc]
    exact runs_pure (h hc)

theorem runs_requireSome {o : Option α} {e : ε} (h : ∀ a, o = some a → Q a s) :
    Runs d (requireSome o e : Refusable σ ε α) s Q := by
  cases o with
  | none => exact runs_throw
  | some a => exact runs_pure (h a rfl)

theorem runs_ite {c : Prop} [Decidable c] {y : Refusable σ ε α} (hx : c → Runs d x s Q)
    (hy : ¬ c → Runs d y s Q) : Runs d (if c then x else y) s Q := by
  by_cases hc : c
  · rw [if_pos hc]
    exact hx hc
  · rw [if_neg hc]
    exact hy hc

theorem Runs.tryCatch {handler : ε → Refusable σ ε α} (h : Runs d x s Q)
    (hh : ∀ e t, Runs d (handler e) t Q) : Runs d (tryCatch x handler) s Q := by
  intro hinv
  rw [wp_tryCatch]
  refine wp_mono (h hinv) (fun _ _ ht => ht) ?_
  intro e t ht
  refine wp_mono (hh e t ht.2) ?_ ?_
  · exact fun b u hu => ⟨ht.1.trans hu.1, hu.2⟩
  · exact fun e u hu => ⟨ht.1.trans hu.1, hu.2⟩

/-- A completed computation may be related to where it began. -/
theorem Runs.steps (h : Runs d x s Q) :
    Runs d x s fun a t => ReflTransGen d.Step (d.point s) (d.point t) ∧ Q a t := fun hinv =>
  wp_mono (h hinv) (fun _ _ ht => ⟨ht.1, ht.2.1, ht.1, ht.2.2⟩) fun _ _ ht => ht

/-- Steps of a system are steps of a larger one with the same invariant. -/
theorem Runs.enlarge {d' : Durable σ π} (h : Runs d x s Q) (hpoint : d'.point = d.point)
    (hstep : ∀ p q, d.Step p q → d'.Step p q) (hinv : d'.Inv = d.Inv) : Runs d' x s Q := by
  intro hs
  rw [hpoint, hinv] at hs
  refine wp_mono (h hs) ?_ ?_
  · intro a t ht
    rw [hpoint, hinv]
    exact ⟨Relation.ReflTransGen.mono hstep _ _ ht.1, ht.2⟩
  · intro e t ht
    rw [hpoint, hinv]
    exact ⟨Relation.ReflTransGen.mono hstep _ _ ht.1, ht.2⟩

/-- Wherever a computation ends, its durable part has taken steps only. -/
theorem Runs.reaches (h : Runs d x s Q) (hinv : d.Inv (d.point s)) :
    ReflTransGen d.Step (d.point s) (d.point (exec x s).2) :=
  wp_state (h hinv) (fun _ _ ht => ht.1) fun _ _ ht => ht.1

theorem Runs.completed (h : Runs d x s Q) (hinv : d.Inv (d.point s)) {a : α} {t : σ}
    (hexec : exec x s = (.ok a, t)) : Q a t := by
  have hwp := h hinv
  rw [wp_of_exec hexec] at hwp
  exact hwp.2.2

end StepRuns
