import Mathlib.Tactic

/-!
# Runs of a labelled step function

A system is a partial step function `step : σ → α → Option σ`: `step s a = some t`
says that the action `a` is enabled in `s` and leads to `t`. A `Run` takes any
number of steps, each in a state and with an action that meet a side condition
`ok`. `exec` runs a fixed list of actions, so that a concrete run can be computed.

Results:
* `Run.invariant`: a predicate kept by every step that meets the condition
  holds after every run.
* `Run.mono`: a run under a stronger condition is a run under a weaker one.
* `Run.of_execIf`: a computed run is a run.
-/

namespace ShikiOS.Lib

variable {σ α : Type*}

/-- A run of `step` from `s` to `t`, every step of which meets `ok`. -/
inductive Run (step : σ → α → Option σ) (ok : σ → α → Prop) (s : σ) : σ → Prop
  | refl : Run step ok s s
  | tail {t u : σ} {a : α} : Run step ok s t → ok t a → step t a = some u → Run step ok s u

/-- The side condition that allows every step. -/
def anyStep : σ → α → Prop := fun _ _ => True

variable {step : σ → α → Option σ} {ok ok' : σ → α → Prop} {s t u : σ}

/-- An invariant: `I` holds at the start and every step that meets `ok` keeps it. -/
theorem Run.invariant {I : σ → Prop} (h : Run step ok s t) (h0 : I s)
    (hstep : ∀ t a u, I t → ok t a → step t a = some u → I u) : I t := by
  induction h with
  | refl => exact h0
  | tail _ hok hs ih => exact hstep _ _ _ ih hok hs

/-- A run under a stronger condition is a run under a weaker one. -/
theorem Run.mono (h : Run step ok s t) (hok : ∀ t a, ok t a → ok' t a) : Run step ok' s t := by
  induction h with
  | refl => exact Run.refl
  | tail _ ha hs ih => exact Run.tail ih (hok _ _ ha) hs

theorem Run.trans (h : Run step ok s t) (h' : Run step ok t u) : Run step ok s u := by
  induction h' with
  | refl => exact h
  | tail _ ha hs ih => exact Run.tail ih ha hs

/-- The actions of a list one after the other. -/
def exec (step : σ → α → Option σ) : σ → List α → Option σ
  | s, [] => some s
  | s, a :: as =>
    match step s a with
    | some t => exec step t as
    | none => none

/-- The actions of a list one after the other, stopping at one that violates `ok`. -/
def execIf (step : σ → α → Option σ) (ok : σ → α → Prop) [∀ s a, Decidable (ok s a)] :
    σ → List α → Option σ :=
  exec fun s a => if ok s a then step s a else none

theorem Run.of_exec {as : List α} (h : exec step s as = some t) : Run step anyStep s t := by
  induction as generalizing s with
  | nil => cases h; exact Run.refl
  | cons a as ih =>
    rw [exec] at h
    split at h
    · next t' ht' => exact (Run.tail Run.refl trivial ht').trans (ih h)
    · cases h

theorem Run.of_execIf [∀ s a, Decidable (ok s a)] {as : List α}
    (h : execIf step ok s as = some t) : Run step ok s t := by
  induction as generalizing s with
  | nil => cases h; exact Run.refl
  | cons a as ih =>
    rw [execIf, exec] at h
    split at h
    · next t' ht' =>
      split_ifs at ht' with hok
      exact (Run.tail Run.refl hok ht').trans (ih h)
    · cases h

/-- A computed run depends only on the steps of its own actions. -/
theorem exec_congr {step' : σ → α → Option σ} {as : List α}
    (h : ∀ s, ∀ a ∈ as, step s a = step' s a) : exec step s as = exec step' s as := by
  induction as generalizing s with
  | nil => rfl
  | cons a as ih =>
    rw [exec, exec, h s a List.mem_cons_self]
    cases step' s a with
    | none => rfl
    | some t => exact ih fun s b hb => h s b (List.mem_cons_of_mem a hb)

/-- What a computed run shows about the state it ends in. -/
theorem Run.of_execIf_map [∀ s a, Decidable (ok s a)] {β : Type*} {as : List α} {f : σ → β}
    {x : β} (h : (execIf step ok s as).map f = some x) : ∃ t, Run step ok s t ∧ f t = x := by
  obtain ⟨t, ht, hx⟩ := Option.map_eq_some_iff.mp h
  exact ⟨t, Run.of_execIf ht, hx⟩

theorem exec_append (as bs : List α) :
    exec step s (as ++ bs) = (exec step s as).bind fun t => exec step t bs := by
  induction as generalizing s with
  | nil => rfl
  | cons a as ih =>
    rw [List.cons_append, exec, exec]
    cases step s a with
    | none => rfl
    | some t => exact ih

end ShikiOS.Lib
