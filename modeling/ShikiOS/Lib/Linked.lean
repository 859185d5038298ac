import Mathlib.Tactic

/-!
# Lists through optional links

`next a` is the link of the node `a`, if it has one. `Linked next h l` says that the links
lead from `h` through the nodes of `l` and end there.

Results:
* `Linked.unique`, `Linked.nodup`: the list is determined by its first node, and has no node
  twice.
* `Linked.append`, `Linked.remove`: the two edits of one link.
* `Linked.follow_eq`: a walk of enough steps finds the list.
-/

namespace ShikiOS.Lib

variable {α : Type} {next next' : α → Option α} {h : Option α} {a b : α} {l l' : List α}

/-- The links lead from `h` through the nodes of `l` and end there. -/
def Linked (next : α → Option α) : Option α → List α → Prop
  | h, [] => h = none
  | h, a :: l => h = some a ∧ Linked next (next a) l

/-- The nodes that a walk of at most `n` steps meets. -/
def follow (next : α → Option α) : ℕ → Option α → List α
  | _, none => []
  | 0, some _ => []
  | n + 1, some a => a :: follow next n (next a)

@[simp] theorem linked_nil : Linked next h [] ↔ h = none := Iff.rfl

@[simp] theorem linked_cons : Linked next h (a :: l) ↔ h = some a ∧ Linked next (next a) l := Iff.rfl

theorem Linked.eq_nil (hl : Linked next none l) : l = [] := by
  cases l with
  | nil => rfl
  | cons a l => exact absurd hl.1.symm (Option.some_ne_none a)

/-- A list with a first node. -/
theorem Linked.exists_cons (hl : Linked next (some a) l) :
    ∃ l', l = a :: l' ∧ Linked next (next a) l' := by
  cases l with
  | nil => exact absurd hl (Option.some_ne_none a)
  | cons b l =>
    obtain ⟨hb, hl⟩ := hl
    obtain rfl := Option.some.inj hb
    exact ⟨l, rfl, hl⟩

theorem Linked.ne_nil (hl : Linked next (some a) l) : l ≠ [] := by
  obtain ⟨l', rfl, -⟩ := hl.exists_cons
  exact List.cons_ne_nil a l'

theorem Linked.head?_eq (hl : Linked next h l) : h = l.head? := by
  cases l with
  | nil => exact hl
  | cons a l => exact hl.1

/-- Only the links of the nodes matter. -/
theorem Linked.congr (hl : Linked next h l) (hn : ∀ a ∈ l, next' a = next a) : Linked next' h l := by
  induction l generalizing h with
  | nil => exact hl
  | cons a l ih =>
    obtain ⟨h1, h2⟩ := hl
    refine ⟨h1, ?_⟩
    rw [hn a List.mem_cons_self]
    exact ih h2 fun b hb => hn b (List.mem_cons_of_mem a hb)

theorem Linked.unique (hl : Linked next h l) (hl' : Linked next h l') : l = l' := by
  induction l generalizing h l' with
  | nil =>
    rw [linked_nil] at hl
    subst hl
    exact hl'.eq_nil.symm
  | cons a l ih =>
    obtain ⟨rfl, h2⟩ := hl
    obtain ⟨l₁, rfl, h3⟩ := hl'.exists_cons
    rw [ih h2 h3]

/-- The rest of a list from one of its nodes on. -/
theorem Linked.suffix (hl : Linked next h (l ++ a :: l')) : Linked next (next a) l' := by
  induction l generalizing h with
  | nil => exact hl.2
  | cons b l ih => exact ih hl.2

theorem Linked.nodup (hl : Linked next h l) : l.Nodup := by
  induction l generalizing h with
  | nil => exact List.nodup_nil
  | cons a l ih =>
    refine List.nodup_cons.mpr ⟨fun ha => ?_, ih hl.2⟩
    -- What follows `a` would be `l` and also a proper end of `l`.
    obtain ⟨l₁, l₂, rfl⟩ := List.append_of_mem ha
    have hlen := congrArg List.length (hl.2.unique (Linked.suffix hl.2))
    simp only [List.length_append, List.length_cons] at hlen
    omega

/-- The node `a` gets its place at the end of a list. -/
theorem Linked.append (hl : Linked next h (l ++ [b])) (hb : next' b = some a) (ha : next' a = none)
    (hn : ∀ c ∈ l, next' c = next c) : Linked next' h (l ++ [b] ++ [a]) := by
  induction l generalizing h with
  | nil =>
    obtain ⟨h1, -⟩ := hl
    exact ⟨h1, hb, ha⟩
  | cons c l ih =>
    obtain ⟨h1, h2⟩ := hl
    refine ⟨h1, ?_⟩
    rw [hn c List.mem_cons_self]
    exact ih h2 fun d hd => hn d (List.mem_cons_of_mem c hd)

/-- The node `a` behind `b` is taken out. -/
theorem Linked.remove (hl : Linked next h (l ++ [b] ++ a :: l')) (hb : next' b = next a)
    (hn : ∀ c ∈ l ++ l', next' c = next c) : Linked next' h (l ++ [b] ++ l') := by
  induction l generalizing h with
  | nil =>
    obtain ⟨h1, h2, h3⟩ := hl
    refine ⟨h1, ?_⟩
    rw [hb]
    exact Linked.congr h3 hn
  | cons c l ih =>
    obtain ⟨h1, h2⟩ := hl
    refine ⟨h1, ?_⟩
    rw [hn c List.mem_cons_self]
    exact ih h2 fun d hd => hn d (List.mem_cons_of_mem c hd)

/-- A walk of enough steps finds the list. -/
theorem Linked.follow_eq {n : ℕ} (hl : Linked next h l) (hn : l.length ≤ n) : follow next n h = l := by
  induction n generalizing h l with
  | zero =>
    obtain rfl := List.eq_nil_of_length_eq_zero (Nat.le_zero.mp hn)
    rw [linked_nil] at hl
    subst hl
    rfl
  | succ n ih =>
    cases l with
    | nil =>
      rw [linked_nil] at hl
      subst hl
      rfl
    | cons a l =>
      obtain ⟨rfl, h2⟩ := hl
      rw [List.length_cons] at hn
      rw [follow, ih h2 (by omega)]

end ShikiOS.Lib
