import Mathlib.Tactic

/-!
# Linked lists

`next a` is the link of the node at `a`. `Seg next h l t` says that the links lead from
`h` through the nodes of `l` to `t`, and `Chain next h l` that they end there, with the
null pointer `0`.

Results:
* `Seg.append_iff`: a segment can be cut anywhere.
* `Seg.congr`, `Chain.congr`: only the links of the nodes matter.
* `Seg.relink`: the last node of a segment gets a new link.
* `Chain.unique`: a chain is determined by its first node.
-/

namespace ShikiOS.Lib

/-- The links lead from `h` through the nodes `l` to `t`. -/
def Seg (next : ℕ → ℕ) : ℕ → List ℕ → ℕ → Prop
  | h, [], t => h = t
  | h, a :: l, t => h = a ∧ a ≠ 0 ∧ Seg next (next a) l t

/-- The links can be followed. -/
instance decidableSeg (next : ℕ → ℕ) : ∀ h l t, Decidable (Seg next h l t)
  | h, [], t => inferInstanceAs (Decidable (h = t))
  | h, a :: l, t =>
    have := decidableSeg next (next a) l t
    inferInstanceAs (Decidable (h = a ∧ a ≠ 0 ∧ Seg next (next a) l t))

/-- The nodes of a list that ends with a null link. -/
def Chain (next : ℕ → ℕ) (h : ℕ) (l : List ℕ) : Prop := Seg next h l 0

instance (next : ℕ → ℕ) (h : ℕ) (l : List ℕ) : Decidable (Chain next h l) :=
  inferInstanceAs (Decidable (Seg next h l 0))

variable {next next' : ℕ → ℕ} {h t a x : ℕ} {l l' : List ℕ}

@[simp] theorem seg_nil : Seg next h [] t ↔ h = t := Iff.rfl

@[simp] theorem seg_cons :
    Seg next h (a :: l) t ↔ h = a ∧ a ≠ 0 ∧ Seg next (next a) l t := Iff.rfl

@[simp] theorem chain_nil : Chain next h [] ↔ h = 0 := Iff.rfl

@[simp] theorem chain_cons :
    Chain next h (a :: l) ↔ h = a ∧ a ≠ 0 ∧ Chain next (next a) l := Iff.rfl

theorem Seg.append_iff : Seg next h (l ++ l') t ↔ ∃ x, Seg next h l x ∧ Seg next x l' t := by
  induction l generalizing h with
  | nil => simp
  | cons a l ih =>
    rw [List.cons_append, seg_cons, ih]
    simp only [seg_cons]
    constructor
    · rintro ⟨h1, h2, x, h3, h4⟩
      exact ⟨x, ⟨h1, h2, h3⟩, h4⟩
    · rintro ⟨x, ⟨h1, h2, h3⟩, h4⟩
      exact ⟨h1, h2, x, h3, h4⟩

/-- Only the links of the nodes matter. -/
theorem Seg.congr (hs : Seg next h l t) (hn : ∀ a ∈ l, next' a = next a) : Seg next' h l t := by
  induction l generalizing h with
  | nil => exact hs
  | cons a l ih =>
    obtain ⟨h1, h2, h3⟩ := hs
    refine ⟨h1, h2, ?_⟩
    rw [hn a List.mem_cons_self]
    exact ih h3 fun b hb => hn b (List.mem_cons_of_mem a hb)

theorem Chain.congr (hc : Chain next h l) (hn : ∀ a ∈ l, next' a = next a) : Chain next' h l :=
  Seg.congr hc hn

/-- The last node of a segment gets the link `x`; the other links stay. -/
theorem Seg.relink (hs : Seg next h (l ++ [a]) t) (ha : next' a = x)
    (hn : ∀ b ∈ l, next' b = next b) : Seg next' h (l ++ [a]) x := by
  rw [Seg.append_iff] at hs ⊢
  obtain ⟨y, h1, rfl, h3, -⟩ := hs
  exact ⟨y, h1.congr hn, rfl, h3, ha⟩

theorem Chain.ne_zero (hc : Chain next h l) : ∀ a ∈ l, a ≠ 0 := by
  induction l generalizing h with
  | nil => simp
  | cons a l ih =>
    obtain ⟨-, h2, h3⟩ := hc
    intro b hb
    rcases List.mem_cons.mp hb with rfl | hb
    · exact h2
    · exact ih h3 b hb

theorem Chain.head_eq (hc : Chain next h l) : h = l.headD 0 := by
  cases l with
  | nil => exact hc
  | cons a l => exact hc.1

theorem Chain.eq_nil (hc : Chain next 0 l) : l = [] := by
  cases l with
  | nil => rfl
  | cons a l => exact absurd hc.1.symm hc.2.1

/-- A chain with a first node. -/
theorem Chain.exists_cons (hc : Chain next h l) (hh : h ≠ 0) :
    ∃ l', l = h :: l' ∧ Chain next (next h) l' := by
  cases l with
  | nil => exact absurd hc hh
  | cons a l =>
    obtain ⟨rfl, -, h3⟩ := hc
    exact ⟨l, rfl, h3⟩

theorem Chain.unique (hc : Chain next h l) (hc' : Chain next h l') : l = l' := by
  induction l generalizing h l' with
  | nil =>
    rw [chain_nil] at hc
    subst hc
    exact hc'.eq_nil.symm
  | cons a l ih =>
    obtain ⟨rfl, h2, h3⟩ := hc
    obtain ⟨l₁, rfl, h4⟩ := hc'.exists_cons h2
    rw [ih h3 h4]

end ShikiOS.Lib
