import Mathlib.Tactic

/-!
# Programs that own a value

A program puts out items and changes a value that belongs to it as long as it runs. It ends, or
it does something that has no meaning and does not go on. `replay` runs programs one after the
other.

Results:
* `Code.output_andThen`, `Code.final_andThen`, `Code.finishes_andThen`: one program after the other.
* `replay_concat`: one more program.
* `replay_of_const`: programs whose output does not depend on the value.
-/

namespace ShikiOS.Lib

variable {δ ε π C : Type}

/-- A program over a value of `δ` that puts out items of `ε`. -/
inductive Code (δ ε : Type)
  | ret
  | stop
  | put (e : ε) (k : Code δ ε)
  /-- A change of the value; how the program goes on may depend on what the value was. -/
  | act (f : δ → δ) (k : δ → Code δ ε)

namespace Code

/-- What a program puts out when it is run alone from `d`. -/
def output : Code δ ε → δ → List ε
  | ret, _ => []
  | stop, _ => []
  | put e k, d => e :: k.output d
  | act f k, d => (k d).output (f d)

/-- The value that it leaves. -/
def final : Code δ ε → δ → δ
  | ret, d => d
  | stop, d => d
  | put _ k, d => k.final d
  | act f k, d => (k d).final (f d)

/-- It ends. -/
def Finishes : Code δ ε → δ → Prop
  | ret, _ => True
  | stop, _ => False
  | put _ k, d => k.Finishes d
  | act f k, d => (k d).Finishes (f d)

/-- One program after the other. -/
def andThen : Code δ ε → Code δ ε → Code δ ε
  | ret, y => y
  | stop, _ => stop
  | put e k, y => put e (k.andThen y)
  | act f k, y => act f fun d => (k d).andThen y

variable {x y : Code δ ε} {d : δ}

theorem finishes_andThen :
    (x.andThen y).Finishes d ↔ x.Finishes d ∧ y.Finishes (x.final d) := by
  induction x generalizing d with
  | ret => simp [andThen, Finishes, final]
  | stop => simp [andThen, Finishes]
  | put e k ih => exact ih
  | act f k ih => exact ih d

theorem output_andThen (hx : x.Finishes d) :
    (x.andThen y).output d = x.output d ++ y.output (x.final d) := by
  induction x generalizing d with
  | ret => rfl
  | stop => exact hx.elim
  | put e k ih => exact congrArg (e :: ·) (ih hx)
  | act f k ih => exact ih d hx

theorem final_andThen (hx : x.Finishes d) : (x.andThen y).final d = y.final (x.final d) := by
  induction x generalizing d with
  | ret => rfl
  | stop => exact hx.elim
  | put e k ih => exact ih hx
  | act f k ih => exact ih d hx

end Code

/-! ## One after the other -/

/-- The programs of the list one after the other from `d`: what is put out, by whom, and the value
    at the end. -/
def replay (code : C → Code δ ε) (d : δ) : List (π × C) → List (π × ε) × δ
  | [] => ([], d)
  | (p, c) :: es =>
    let r := replay code ((code c).final d) es
    (((code c).output d).map (p, ·) ++ r.1, r.2)

variable {code : C → Code δ ε} {d : δ} {es : List (π × C)} {p : π} {c : C}

theorem replay_concat :
    replay code d (es ++ [(p, c)]) =
      ((replay code d es).1 ++ ((code c).output (replay code d es).2).map (p, ·),
        (code c).final (replay code d es).2) := by
  induction es generalizing d with
  | nil => simp [replay]
  | cons x es ih => simp [replay, ih]

/-- Programs that put out the same from every value. -/
theorem replay_of_const {text : C → List ε} (h : ∀ c d, (code c).output d = text c) :
    (replay code d es).1 = es.flatMap fun x => (text x.2).map (x.1, ·) := by
  induction es generalizing d with
  | nil => rfl
  | cons x es ih =>
    rw [replay, List.flatMap_cons]
    show ((code x.2).output d).map (x.1, ·) ++ (replay code _ es).1 = _
    rw [h, ih]

end ShikiOS.Lib
