import Mathlib.Tactic

/-!
# Weakest preconditions for programs with state and failure

A program is an `EStateM ε σ α`: it ends with a result or stops with an `ε`, and keeps
the state in both cases. `wp x Q E s` says that `x`, started in `s`, ends in a state
that satisfies `Q` or stops in one that satisfies `E`. There is one rule for each way
in which programs are built.
-/

namespace ShikiOS.Lib

variable {ε σ τ α β : Type}

/-- `x` started in `s` ends in `Q` or stops in `E`. -/
def wp (x : EStateM ε σ α) (Q : α → σ → Prop) (E : ε → σ → Prop) (s : σ) : Prop :=
  match x s with
  | .ok a t => Q a t
  | .error e t => E e t

section Rules

variable {x : EStateM ε σ α} {f : α → EStateM ε σ β} {Q Q' : α → σ → Prop} {R : β → σ → Prop}
  {E E' : ε → σ → Prop} {s : σ}

theorem wp_mono (h : wp x Q E s) (hQ : ∀ a t, Q a t → Q' a t) (hE : ∀ e t, E e t → E' e t) :
    wp x Q' E' s := by
  unfold wp at h ⊢
  split
  · next a t hx => rw [hx] at h; exact hQ a t h
  · next e t hx => rw [hx] at h; exact hE e t h

/-- The rule of consequence for results. -/
theorem wp.imp (h : wp x Q E s) (hQ : ∀ a t, Q a t → Q' a t) : wp x Q' E s :=
  wp_mono h hQ fun _ _ he => he

/-- What always holds holds in the end. -/
theorem wp.always (hQ : ∀ a t, Q a t) (hE : ∀ e t, E e t) : wp x Q E s := by
  unfold wp
  split
  · exact hQ _ _
  · exact hE _ _

theorem wp.and (h : wp x Q E s) (h' : wp x Q' E' s) :
    wp x (fun a t => Q a t ∧ Q' a t) (fun e t => E e t ∧ E' e t) s := by
  unfold wp at h h' ⊢
  split
  · next a t hx => rw [hx] at h h'; exact ⟨h, h'⟩
  · next e t hx => rw [hx] at h h'; exact ⟨h, h'⟩

@[simp] theorem wp_pure {a : α} {Q : α → σ → Prop} : wp (pure a : EStateM ε σ α) Q E s ↔ Q a s :=
  Iff.rfl

@[simp] theorem wp_bind : wp (x >>= f) R E s ↔ wp x (fun a t => wp (f a) R E t) E s := by
  simp only [wp, bind, EStateM.bind]
  cases x s <;> rfl

@[simp] theorem wp_map {g : α → β} : wp (g <$> x) R E s ↔ wp x (fun a t => R (g a) t) E s := by
  simp only [wp, Functor.map, EStateM.map]
  cases x s <;> rfl

@[simp] theorem wp_get {Q : σ → σ → Prop} : wp (get : EStateM ε σ σ) Q E s ↔ Q s s := Iff.rfl

@[simp] theorem wp_set {t : σ} {Q : PUnit → σ → Prop} :
    wp (set t : EStateM ε σ PUnit) Q E s ↔ Q ⟨⟩ t := Iff.rfl

@[simp] theorem wp_modify {g : σ → σ} {Q : PUnit → σ → Prop} :
    wp (modify g : EStateM ε σ PUnit) Q E s ↔ Q ⟨⟩ (g s) := Iff.rfl

@[simp] theorem wp_throw {e : ε} : wp (throw e : EStateM ε σ α) Q E s ↔ E e s := Iff.rfl

/-- A program whose failures are renamed. -/
@[simp] theorem wp_adaptExcept {ε' : Type} {g : ε → ε'} {F : ε' → σ → Prop} :
    wp (EStateM.adaptExcept g x) Q F s ↔ wp x Q (fun e t => F (g e) t) s := by
  simp only [wp, EStateM.adaptExcept]
  cases x s <;> rfl

/-- The result may be taken to be the one that the program computes. -/
theorem wp.self (h : wp x Q E s) : wp x (fun a t => Q a t ∧ x s = .ok a t) E s := by
  unfold wp at h ⊢
  split
  · next a t hx => rw [hx] at h; exact ⟨h, hx⟩
  · next e t hx => rw [hx] at h; exact h

theorem wp.ite {c : Prop} [Decidable c] {y : EStateM ε σ α} (hx : c → wp x Q E s)
    (hy : ¬ c → wp y Q E s) : wp (if c then x else y) Q E s := by
  split_ifs with hc
  · exact hx hc
  · exact hy hc

/-- A program that ends with a result ends with one that the rules predict. -/
theorem wp.of_ok {a : α} {t : σ} (h : wp x Q E s) (hx : x s = .ok a t) : Q a t := by
  unfold wp at h
  rw [hx] at h
  exact h

/-- A program that stops does so as the rules predict. -/
theorem wp.of_error {e : ε} {t : σ} (h : wp x Q E s) (hx : x s = .error e t) : E e t := by
  unfold wp at h
  rw [hx] at h
  exact h

/-- A specification can be tested by running the program. -/
instance [∀ a t, Decidable (Q a t)] [∀ e t, Decidable (E e t)] : Decidable (wp x Q E s) :=
  match h : x s with
  | .ok a t => decidable_of_iff (Q a t) (by rw [wp, h])
  | .error e t => decidable_of_iff (E e t) (by rw [wp, h])

/-- A program that cannot stop ends with a result. -/
theorem wp.total (h : wp x Q (fun _ _ => False) s) : ∃ a t, x s = .ok a t ∧ Q a t := by
  unfold wp at h
  split at h
  · next a t hx => exact ⟨a, t, hx, h⟩
  · exact h.elim

end Rules

/-- Only the results matter: the program ends in `Q` or does not end. -/
abbrev wlp (x : EStateM ε σ α) (Q : α → σ → Prop) (s : σ) : Prop := wp x Q (fun _ _ => True) s

/-! ## Loops -/

-- Elaboration would otherwise run the program while it looks at the type of a rule.
attribute [irreducible] wp

/-- `for (i = a; i < a + n; i++) f(i)`. -/
def forN (f : ℕ → EStateM ε σ Unit) : ℕ → ℕ → EStateM ε σ Unit
  | _, 0 => pure ()
  | a, n + 1 => do
    f a
    forN f (a + 1) n

/-- The invariant rule: `I i` holds before the round of index `i`. -/
theorem wp_forN {f : ℕ → EStateM ε σ Unit} {E : ε → σ → Prop} (I : ℕ → σ → Prop) {a n : ℕ} {s : σ}
    (h0 : I a s) (hstep : ∀ i t, a ≤ i → i < a + n → I i t → wp (f i) (fun _ u => I (i + 1) u) E t) :
    wp (forN f a n) (fun _ t => I (a + n) t) E s := by
  induction n generalizing a s with
  | zero => exact wp_pure.mpr h0
  | succ n ih =>
    rw [forN, wp_bind]
    refine (hstep a s le_rfl (by omega) h0).imp fun _ t ht => ?_
    have := ih (a := a + 1) ht fun i u h1 h2 => hstep i u (by omega) (by omega)
    rwa [show a + 1 + n = a + (n + 1) by omega] at this

/-! ## Invariants -/

section Invariants

variable {I : σ → Prop} {x : EStateM ε σ α} {f : α → EStateM ε σ β}

/-- If `I` holds before, then it holds where the program ends or stops. -/
def Preserves (I : σ → Prop) (x : EStateM ε σ α) : Prop :=
  ∀ s, I s → wp x (fun _ t => I t) (fun _ t => I t) s

theorem preserves_pure (a : α) : Preserves I (pure a : EStateM ε σ α) := fun _ hs => wp_pure.mpr hs

theorem preserves_throw (e : ε) : Preserves I (throw e : EStateM ε σ α) := fun _ hs => wp_throw.mpr hs

theorem preserves_get : Preserves I (get : EStateM ε σ σ) := fun _ hs => wp_get.mpr hs

theorem preserves_modify {g : σ → σ} (hg : ∀ s, I s → I (g s)) :
    Preserves I (modify g : EStateM ε σ PUnit) := fun s hs => wp_modify.mpr (hg s hs)

theorem Preserves.bind (hx : Preserves I x) (hf : ∀ a, Preserves I (f a)) : Preserves I (x >>= f) :=
  fun s hs => wp_bind.mpr ((hx s hs).imp fun a t ht => hf a t ht)

theorem Preserves.ite {c : Prop} [Decidable c] {y : EStateM ε σ α} (hx : c → Preserves I x)
    (hy : ¬ c → Preserves I y) : Preserves I (if c then x else y) :=
  fun s hs => wp.ite (fun hc => hx hc s hs) fun hc => hy hc s hs

end Invariants

/-! ## A program on a part of the state -/

/-- Run a program on the part of the state that `get` reads and `set` writes. -/
def zoom (get : τ → σ) (set : σ → τ → τ) (x : EStateM ε σ α) : EStateM ε τ α := fun t =>
  match x (get t) with
  | .ok a s => .ok a (set s t)
  | .error e s => .error e (set s t)

@[simp] theorem wp_zoom {get : τ → σ} {set : σ → τ → τ} {x : EStateM ε σ α} {Q : α → τ → Prop}
    {E : ε → τ → Prop} {t : τ} :
    wp (zoom get set x) Q E t ↔ wp x (fun a s => Q a (set s t)) (fun e s => E e (set s t)) (get t) := by
  unfold wp zoom
  cases x (get t) <;> rfl

/-- An invariant of the part. -/
theorem Preserves.zoom {get : τ → σ} {set : σ → τ → τ} {x : EStateM ε σ α} {I : σ → Prop}
    (h : Preserves I x) (hset : ∀ s t, get (set s t) = s) :
    Preserves (fun t => I (get t)) (Lib.zoom get set x) := by
  intro t ht
  have hback : ∀ s, I s → I (get (set s t)) := fun s hs => (hset s t).symm ▸ hs
  exact wp_zoom.mpr (wp_mono (h (get t) ht) (fun _ s hs => hback s hs) fun _ s hs => hback s hs)

end ShikiOS.Lib
