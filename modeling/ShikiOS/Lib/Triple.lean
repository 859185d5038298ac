import ShikiOS.Lib.Wp

/-!
# Triples of partial correctness

`Triple P x Q` says that a program `x` that is started in a state with `P` and ends, ends in a
state with `Q`. What is asserted may depend on the result. A program made of calls is walked
through with one rule for each way in which it is built.

Results:
* `Triple.bind`, `Triple.seq`, `Triple.ite`, `Triple.forN`: the rules of the constructs.
* `Triple.zoom`: a triple about a part of the state.
-/

namespace ShikiOS.Lib

variable {ε σ τ α β : Type} {x : EStateM ε σ α} {f : α → EStateM ε σ β} {P P' R : σ → Prop}
  {Q Q' : α → σ → Prop} {S : β → σ → Prop} {s t : σ}

/-- `x`, started in `P`, ends in `Q` if it ends. -/
def Triple (P : σ → Prop) (x : EStateM ε σ α) (Q : α → σ → Prop) : Prop := ∀ s, P s → wlp x Q s

theorem Triple.of_ok {a : α} (h : Triple P x Q) (hs : P s) (hx : x s = .ok a t) : Q a t :=
  (h s hs).of_ok hx

/-- The rule of consequence. -/
theorem Triple.imp (h : Triple P x Q) (hQ : ∀ a t, Q a t → Q' a t) : Triple P x Q' :=
  fun s hs => (h s hs).imp hQ

theorem Triple.pre (h : Triple P x Q) (hP : ∀ s, P' s → P s) : Triple P' x Q :=
  fun s hs => h s (hP s hs)

theorem Triple.pure {a : α} (h : ∀ s, P s → Q a s) : Triple P (pure a : EStateM ε σ α) Q :=
  fun s hs => wp_pure.mpr (h s hs)

theorem Triple.throw {e : ε} : Triple P (throw e : EStateM ε σ α) Q := fun _ _ => wp_throw.mpr trivial

theorem Triple.get {g : σ → EStateM ε σ α} (h : ∀ s, P s → wlp (g s) Q s) : Triple P (get >>= g) Q := by
  intro s hs
  rw [wlp, wp_bind, wp_get]
  exact h s hs

theorem Triple.modify {g : σ → σ} {Q : PUnit → σ → Prop} (h : ∀ s, P s → Q ⟨⟩ (g s)) :
    Triple P (modify g : EStateM ε σ PUnit) Q := fun s hs => wp_modify.mpr (h s hs)

/-- One program after the other. -/
theorem Triple.bind (hx : Triple P x Q) (hf : ∀ a, Triple (Q a) (f a) S) : Triple P (x >>= f) S := by
  intro s hs
  rw [wlp, wp_bind]
  exact (hx s hs).imp fun a t ht => hf a t ht

/-- One program after another whose result is not spoken of. -/
theorem Triple.seq (hx : Triple P x fun _ => R) (hf : ∀ a, Triple R (f a) S) : Triple P (x >>= f) S :=
  hx.bind hf

theorem Triple.ite {c : Prop} [Decidable c] {y : EStateM ε σ α} (hx : Triple P x Q) (hy : Triple P y Q) :
    Triple P (if c then x else y) Q := by
  split_ifs
  · exact hx
  · exact hy

/-- The invariant rule of a loop. -/
theorem Triple.forN {g : ℕ → EStateM ε σ Unit} (h : ∀ i, Triple P (g i) fun _ => P) (a n : ℕ) :
    Triple P (forN g a n) fun _ => P :=
  fun _ hs => wp_forN (fun _ => P) hs fun i t _ _ ht => h i t ht

/-- What is asserted of a part of the state is not touched by the rest. -/
theorem Triple.zoom {get : τ → σ} {set : σ → τ → τ} (h : Triple P x Q) (hset : ∀ s t, get (set s t) = s) :
    Triple (fun t => P (get t)) (Lib.zoom get set x) fun a t => Q a (get t) := by
  intro t ht
  rw [wlp, wp_zoom]
  refine (h (get t) ht).imp fun a s hs => ?_
  rw [hset]
  exact hs

theorem Triple.adaptExcept {ε' : Type} {g : ε → ε'} (h : Triple P x Q) :
    Triple P (EStateM.adaptExcept g x) Q := by
  intro s hs
  rw [wlp, wp_adaptExcept]
  exact h s hs

end ShikiOS.Lib
