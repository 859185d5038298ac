import Mathlib.Tactic

/-!
# Counting below a bound

`countIf n P` is the number of `i < n` with `P i`, as an integer.

Results:
* `countIf_change`: how the count changes when the predicate changes at one place.
* `countIf_pos`: it is positive if one `i` is counted.
* `countPairs_change`, `countPairs_extend`: the same for pairs `(i, j)` with `i < n`, `j < m`.
* `countP_succ`: the count over a list when the predicate becomes true for one element.
-/

namespace ShikiOS.Lib

/-- The number of `i < n` with `P i`. -/
def countIf (n : ℕ) (P : ℕ → Prop) [DecidablePred P] : ℤ :=
  ∑ i ∈ Finset.range n, if P i then 1 else 0

variable {P Q : ℕ → Prop} [DecidablePred P] [DecidablePred Q] {n i : ℕ}

theorem countIf_congr (h : ∀ j, j < n → (Q j ↔ P j)) : countIf n Q = countIf n P := by
  refine Finset.sum_congr rfl fun j hj => ?_
  simp only [h j (Finset.mem_range.mp hj)]

theorem countIf_succ : countIf (n + 1) P = countIf n P + if P n then 1 else 0 :=
  Finset.sum_range_succ _ n

theorem countIf_nonneg : 0 ≤ countIf n P := by
  refine Finset.sum_nonneg fun j _ => ?_
  split_ifs <;> omega

theorem countIf_none (h : ∀ j, j < n → ¬ P j) : countIf n P = 0 :=
  Finset.sum_eq_zero fun j hj => if_neg (h j (Finset.mem_range.mp hj))

/-- Nothing more is counted. -/
theorem countIf_extend {k : ℕ} (h : ∀ j, n ≤ j → ¬ P j) : countIf (n + k) P = countIf n P := by
  induction k with
  | zero => rfl
  | succ k ih => rw [← Nat.add_assoc, countIf_succ, if_neg (h (n + k) (by omega)), add_zero, ih]

/-- The predicate changes at `i` only. -/
theorem countIf_change (hi : i < n) (h : ∀ j, j ≠ i → (Q j ↔ P j)) :
    countIf n Q = countIf n P - (if P i then 1 else 0) + if Q i then 1 else 0 := by
  have hmem : i ∈ Finset.range n := Finset.mem_range.mpr hi
  have hrest : ∑ j ∈ (Finset.range n).erase i, (if Q j then (1 : ℤ) else 0) =
      ∑ j ∈ (Finset.range n).erase i, if P j then (1 : ℤ) else 0 := by
    refine Finset.sum_congr rfl fun j hj => ?_
    simp only [h j (Finset.ne_of_mem_erase hj)]
  have hP := Finset.add_sum_erase (Finset.range n) (fun j => if P j then (1 : ℤ) else 0) hmem
  have hQ := Finset.add_sum_erase (Finset.range n) (fun j => if Q j then (1 : ℤ) else 0) hmem
  unfold countIf
  rw [← hP, ← hQ, hrest]
  omega

theorem countIf_pos (hi : i < n) (h : P i) : 0 < countIf n P := by
  have hmem : i ∈ Finset.range n := Finset.mem_range.mpr hi
  have hle := Finset.single_le_sum (f := fun j => if P j then (1 : ℤ) else 0)
    (fun j _ => by split_ifs <;> omega) hmem
  rw [if_pos h] at hle
  unfold countIf
  omega

/-- The predicate becomes true for one element of a list. -/
theorem countP_succ {α : Type*} {l : List α} {x : α} (hl : l.Nodup) (hx : x ∈ l) {p q : α → Bool}
    (hp : p x = false) (hq : q x = true) (hpq : ∀ y, y ≠ x → q y = p y) :
    l.countP q = l.countP p + 1 := by
  obtain ⟨l₁, l₂, rfl⟩ := List.append_of_mem hx
  obtain ⟨hnot, -⟩ := List.nodup_cons.mp (List.perm_middle.nodup_iff.mp hl)
  have hrest : ∀ y ∈ l₁ ++ l₂, q y = p y := by
    intro y hy
    refine hpq y ?_
    rintro rfl
    exact hnot hy
  have h₁ : l₁.countP q = l₁.countP p :=
    List.countP_congr fun y hy => by rw [hrest y (List.mem_append_left l₂ hy)]
  have h₂ : l₂.countP q = l₂.countP p :=
    List.countP_congr fun y hy => by rw [hrest y (List.mem_append_right l₁ hy)]
  rw [List.countP_append, List.countP_append, List.countP_cons_of_pos hq,
    List.countP_cons_of_neg (by rw [hp]; exact Bool.false_ne_true), h₁, h₂]
  omega

-- Elaboration would otherwise count to a large bound.
attribute [irreducible] countIf

/-! ## Pairs -/

/-- The number of pairs `(i, j)` with `i < n`, `j < m` and `P i j`. -/
def countPairs (n m : ℕ) (P : ℕ → ℕ → Prop) [∀ i j, Decidable (P i j)] : ℤ :=
  countIf (n * m) fun k => P (k / m) (k % m)

section Pairs

variable {P Q : ℕ → ℕ → Prop} [∀ i j, Decidable (P i j)] [∀ i j, Decidable (Q i j)] {n m i j : ℕ}

theorem pair_lt (hi : i < n) (hj : j < m) : i * m + j < n * m := by
  have := Nat.mul_le_mul_right m hi
  rw [Nat.succ_mul] at this
  omega

theorem pair_div (hj : j < m) : (i * m + j) / m = i := by
  rw [Nat.mul_comm, Nat.mul_add_div (by omega), Nat.div_eq_of_lt hj, Nat.add_zero]

theorem pair_mod (hj : j < m) : (i * m + j) % m = j := by
  rw [Nat.mul_comm, Nat.mul_add_mod, Nat.mod_eq_of_lt hj]

theorem countPairs_nonneg : 0 ≤ countPairs n m P := countIf_nonneg

theorem countPairs_congr (hm : 0 < m) (h : ∀ i j, i < n → j < m → (Q i j ↔ P i j)) :
    countPairs n m Q = countPairs n m P :=
  countIf_congr fun k hk => h _ _ (Nat.div_lt_of_lt_mul (by rwa [Nat.mul_comm] at hk))
    (Nat.mod_lt k hm)

/-- The predicate changes for one pair only. -/
theorem countPairs_change (hi : i < n) (hj : j < m)
    (h : ∀ a b, (a, b) ≠ (i, j) → (Q a b ↔ P a b)) :
    countPairs n m Q = countPairs n m P - (if P i j then 1 else 0) + if Q i j then 1 else 0 := by
  have hchange := countIf_change (P := fun k => P (k / m) (k % m))
    (Q := fun k => Q (k / m) (k % m)) (pair_lt hi hj) fun k hk => h _ _ fun e => hk ?_
  · simp only [pair_div hj, pair_mod hj] at hchange
    exact hchange
  · obtain ⟨e1, e2⟩ := Prod.mk.inj e
    rw [← e1, ← e2, Nat.mul_comm]
    exact (Nat.div_add_mod k m).symm

/-- The pairs with `i = n` are not counted. -/
theorem countPairs_extend (hm : 0 < m) (h : ∀ i j, i < n → j < m → (Q i j ↔ P i j))
    (hnew : ∀ i j, n ≤ i → ¬ Q i j) : countPairs (n + 1) m Q = countPairs n m P := by
  rw [← countPairs_congr hm h]
  unfold countPairs
  rw [Nat.succ_mul]
  exact countIf_extend fun k hk => hnew _ _ ((Nat.le_div_iff_mul_le hm).mpr hk)

theorem countPairs_pos (hi : i < n) (hj : j < m) (h : P i j) : 0 < countPairs n m P :=
  countIf_pos (pair_lt hi hj) (by rwa [pair_div hj, pair_mod hj])

end Pairs

end ShikiOS.Lib
