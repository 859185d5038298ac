import Mathlib.Tactic

/-!
# Little-endian words in byte arrays

A byte array is a function from indices to bytes. `getLE f off n` reads the `n`-byte
word at `off`, and `putLE f off n v` writes one.

Results:
* `getLE_putLE`: a word read back is the value written, cut to its width.
* `getLE_putLE_of_disjoint`: writing a word changes no word beside it.
-/

namespace ShikiOS.Lib

/-- The `n`-byte little-endian word at `off`. -/
def getLE (f : ℕ → UInt8) (off : ℕ) : ℕ → ℕ
  | 0 => 0
  | n + 1 => (f off).toNat + 256 * getLE f (off + 1) n

/-- Write `v` as the `n`-byte little-endian word at `off`. -/
def putLE (f : ℕ → UInt8) (off : ℕ) : ℕ → ℕ → ℕ → UInt8
  | 0, _ => f
  | n + 1, v => putLE (Function.update f off (UInt8.ofNat v)) (off + 1) n (v / 256)

/-- A word depends on its own bytes only. -/
theorem getLE_congr {f g : ℕ → UInt8} {off n : ℕ}
    (h : ∀ i, off ≤ i → i < off + n → f i = g i) : getLE f off n = getLE g off n := by
  induction n generalizing off with
  | zero => rfl
  | succ n ih =>
    rw [getLE, getLE, h off le_rfl (by omega), ih fun i h1 h2 => h i (by omega) (by omega)]

theorem getLE_lt (f : ℕ → UInt8) (off n : ℕ) : getLE f off n < 256 ^ n := by
  induction n generalizing off with
  | zero => simp [getLE]
  | succ n ih =>
    have h1 := ih (off + 1)
    have h2 : (f off).toNat < 256 := (f off).toNat_lt
    rw [getLE, pow_succ]
    omega

/-- A word whose bytes are those of `v`. -/
theorem getLE_of_bytes {f : ℕ → UInt8} {off n v : ℕ}
    (h : ∀ i, i < n → f (off + i) = UInt8.ofNat (v / 256 ^ i)) : getLE f off n = v % 256 ^ n := by
  induction n generalizing off v with
  | zero => simp [getLE, Nat.mod_one]
  | succ n ih =>
    have h0 : f off = UInt8.ofNat v := by simpa using h 0 (by omega)
    have hs : getLE f (off + 1) n = v / 256 % 256 ^ n := by
      refine ih fun i hi => ?_
      have := h (i + 1) (by omega)
      rwa [show off + (i + 1) = off + 1 + i by omega, pow_succ', ← Nat.div_div_eq_div_mul] at this
    have hb : (UInt8.ofNat v).toNat = v % 256 := UInt8.toNat_ofNat'
    rw [getLE, h0, hs, hb, pow_succ', Nat.mod_mul]

/-- Writing a word changes no byte outside it. -/
theorem putLE_outside (f : ℕ → UInt8) {off n v i : ℕ} (h : i < off ∨ off + n ≤ i) :
    putLE f off n v i = f i := by
  induction n generalizing f off v with
  | zero => rfl
  | succ n ih =>
    rw [putLE, ih _ (by omega), Function.update_of_ne (by omega)]

/-- The bytes that are written. -/
theorem putLE_inside (f : ℕ → UInt8) {off n v i : ℕ} (h : i < n) :
    putLE f off n v (off + i) = UInt8.ofNat (v / 256 ^ i) := by
  induction n generalizing f off v i with
  | zero => exact absurd h i.not_lt_zero
  | succ n ih =>
    rw [putLE]
    cases i with
    | zero => rw [putLE_outside _ (.inl (by omega)), Nat.add_zero, Function.update_self, pow_zero, Nat.div_one]
    | succ i => rw [show off + (i + 1) = off + 1 + i by omega, ih _ (by omega), pow_succ', Nat.div_div_eq_div_mul]

theorem getLE_putLE (f : ℕ → UInt8) (off n v : ℕ) : getLE (putLE f off n v) off n = v % 256 ^ n := by
  induction n generalizing f off v with
  | zero => simp [getLE, Nat.mod_one]
  | succ n ih =>
    rw [putLE, getLE, ih, putLE_outside _ (.inl (by omega)), Function.update_self, pow_succ',
      Nat.mod_mul]
    have : (UInt8.ofNat v).toNat = v % 256 := UInt8.toNat_ofNat'
    rw [this]

theorem getLE_putLE_of_disjoint (f : ℕ → UInt8) {off n v off' n' : ℕ}
    (h : off' + n' ≤ off ∨ off + n ≤ off') :
    getLE (putLE f off n v) off' n' = getLE f off' n' :=
  getLE_congr fun i h1 h2 => putLE_outside f (by omega)

end ShikiOS.Lib
