import Mathlib.Tactic
import ShikiOS.Lib.Run

/-!
# Runs with their labels

A system is a relation `step s a t`. `Trace step s as t` says that the labels `as` lead from `s` to
`t`. A simulation carries traces over.

Results:
* `Trace.invariant`: what every step keeps holds after every trace.
* `Trace.simulates`: the simulated system takes the same labels.
* `Trace.of_exec`: a computed run is a trace.
-/

namespace ShikiOS.Lib

variable {σ τ α : Type*} {step : σ → α → σ → Prop} {step' : τ → α → τ → Prop} {s t u : σ}
  {as bs : List α} {a : α}

/-- The labels `as` lead from `s` to `t`. -/
inductive Trace (step : σ → α → σ → Prop) (s : σ) : List α → σ → Prop
  | nil : Trace step s [] s
  | snoc {as : List α} {t : σ} {a : α} {u : σ} (h : Trace step s as t) (hs : step t a u) :
      Trace step s (as ++ [a]) u

theorem Trace.one (h : step s a t) : Trace step s [a] t := .snoc .nil h

theorem Trace.append (h : Trace step s as t) (h' : Trace step t bs u) : Trace step s (as ++ bs) u := by
  induction h' with
  | nil =>
    rw [List.append_nil]
    exact h
  | snoc _ hs ih =>
    rw [← List.append_assoc]
    exact ih.snoc hs

theorem Trace.cons (h : step s a t) (h' : Trace step t bs u) : Trace step s (a :: bs) u :=
  (Trace.one h).append h'

theorem Trace.invariant {I : σ → Prop} (h : Trace step s as t) (h0 : I s)
    (hstep : ∀ t a u, I t → step t a u → I u) : I t := by
  induction h with
  | nil => exact h0
  | snoc _ hs ih => exact hstep _ _ _ ih hs

/-- A forward simulation. -/
theorem Trace.simulates {R : σ → τ → Prop} {x : τ} (h : Trace step s as t) (h0 : R s x)
    (hsim : ∀ s a t x, R s x → step s a t → ∃ y, step' x a y ∧ R t y) :
    ∃ y, Trace step' x as y ∧ R t y := by
  induction h with
  | nil => exact ⟨x, .nil, h0⟩
  | snoc _ hs ih =>
    obtain ⟨y, hy, hr⟩ := ih
    obtain ⟨z, hz, hr'⟩ := hsim _ _ _ _ hr hs
    exact ⟨z, hy.snoc hz, hr'⟩

theorem Trace.of_exec {f : σ → α → Option σ} (hf : ∀ s a t, f s a = some t → step s a t)
    (h : exec f s as = some t) : Trace step s as t := by
  induction as generalizing s with
  | nil =>
    cases h
    exact .nil
  | cons a as ih =>
    rw [exec] at h
    split at h
    · next u hu => exact .cons (hf s a u hu) (ih h)
    · cases h

end ShikiOS.Lib
