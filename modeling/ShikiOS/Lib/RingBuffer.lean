import Mathlib.Tactic

/-!
# Ring buffers with running counters

A ring of `c` cells whose positions are counted without end: position `n` is in cell
`n % c`. The counters of a program are `w` bits wide and wrap around; if `c` divides
`2 ^ w` the cell of a position is that of the counter.

Results:
* `Holds.push`, `Holds.pop`, `Holds.concat`: the content as a queue that can be shortened at
  its end too.
* `ofNat_inj_of_le`, `ofNat_sub_ofNat`, `ofNat_toNat_mod`: counters that wrap around.
-/

namespace ShikiOS.Lib.RingBuffer

variable {α : Type*} {buf : ℕ → α} {c r : ℕ} {l : List α} {x : α}

/-- The cells from position `r` on hold the list `l`. -/
def Holds (buf : ℕ → α) (c r : ℕ) (l : List α) : Prop :=
  l.length ≤ c ∧ ∀ i (h : i < l.length), buf ((r + i) % c) = l[i]

theorem holds_nil : Holds buf c r [] := ⟨Nat.zero_le c, fun _ h => absurd h (Nat.not_lt_zero _)⟩

/-- Two positions less than `c` apart have different cells. -/
theorem mod_ne_of_lt {i j : ℕ} (hij : i < j) (hj : j < i + c) : j % c ≠ i % c := by
  intro he
  have hdvd : c ∣ j - i := (Nat.modEq_iff_dvd' hij.le).mp he.symm
  have := Nat.le_of_dvd (by omega) hdvd
  omega

/-- One element more at the end. -/
theorem Holds.push (h : Holds buf c r l) (hlt : l.length < c) :
    Holds (Function.update buf ((r + l.length) % c) x) c r (l ++ [x]) := by
  refine ⟨by rw [List.length_append, List.length_singleton]; exact hlt, fun i hi => ?_⟩
  rw [List.length_append, List.length_singleton] at hi
  by_cases hil : i < l.length
  · rw [Function.update_of_ne (mod_ne_of_lt (by omega) (by omega)).symm, h.2 i hil,
      List.getElem_append_left hil]
  · obtain rfl : i = l.length := by omega
    rw [Function.update_self, List.getElem_concat_length rfl]

/-- The first element is taken. -/
theorem Holds.pop (h : Holds buf c r (x :: l)) : buf (r % c) = x ∧ Holds buf c (r + 1) l := by
  have hlen : l.length + 1 ≤ c := h.1
  refine ⟨h.2 0 (Nat.succ_pos _), by omega, fun i hi => ?_⟩
  rw [Nat.add_assoc, Nat.add_comm 1 i]
  exact h.2 (i + 1) (Nat.succ_lt_succ hi)

/-- What is at the beginning and at the end. -/
theorem Holds.concat (h : Holds buf c r (l ++ [x])) :
    Holds buf c r l ∧ buf ((r + l.length) % c) = x := by
  have hlen := h.1
  rw [List.length_append, List.length_singleton] at hlen
  refine ⟨⟨by omega, fun i hi => ?_⟩, ?_⟩
  · rw [h.2 i (by rw [List.length_append, List.length_singleton]; omega),
      List.getElem_append_left hi]
  · rw [h.2 l.length (by rw [List.length_append, List.length_singleton]; omega),
      List.getElem_concat_length rfl]

/-! ## Counters that wrap around -/

variable {w a b : ℕ}

/-- Counters that are less than `2 ^ w` apart are equal only if their numbers are. -/
theorem ofNat_inj_of_le (hle : a ≤ b) (hlt : b - a < 2 ^ w) :
    BitVec.ofNat w a = BitVec.ofNat w b ↔ a = b := by
  refine ⟨fun h => ?_, fun h => by rw [h]⟩
  have hmod : a % 2 ^ w = b % 2 ^ w := by
    have := congrArg BitVec.toNat h
    rwa [BitVec.toNat_ofNat, BitVec.toNat_ofNat] at this
  by_contra hne
  exact mod_ne_of_lt (c := 2 ^ w) (lt_of_le_of_ne hle hne) (by omega) hmod.symm

/-- The difference of two counters. -/
theorem ofNat_sub_ofNat (hle : a ≤ b) :
    BitVec.ofNat w b - BitVec.ofNat w a = BitVec.ofNat w (b - a) := by
  rw [← BitVec.add_left_inj (BitVec.ofNat w a), BitVec.sub_add_cancel, ← BitVec.ofNat_add,
    Nat.sub_add_cancel hle]

theorem toNat_ofNat_sub (hle : a ≤ b) (hlt : b - a < 2 ^ w) :
    (BitVec.ofNat w b - BitVec.ofNat w a).toNat = b - a := by
  rw [ofNat_sub_ofNat hle, BitVec.toNat_ofNat, Nat.mod_eq_of_lt hlt]

theorem ofNat_succ (a : ℕ) : BitVec.ofNat w a + 1 = BitVec.ofNat w (a + 1) :=
  (BitVec.ofNat_add a 1).symm

theorem ofNat_succ_sub_one (a : ℕ) : BitVec.ofNat w (a + 1) - 1 = BitVec.ofNat w a := by
  rw [← ofNat_succ, BitVec.add_sub_cancel]

/-- The cell of a counter. -/
theorem ofNat_toNat_mod (hc : c ∣ 2 ^ w) (a : ℕ) : (BitVec.ofNat w a).toNat % c = a % c := by
  rw [BitVec.toNat_ofNat, Nat.mod_mod_of_dvd a hc]

end ShikiOS.Lib.RingBuffer
