import Mathlib.Tactic

/-!
# The first largest element

`IsFirstMax ok key l c`: among the elements of `l` that meet `ok`, `c` has the largest key, and
it is the first one that has it. This is what a loop finds that keeps the best element so far
and replaces it only by a larger one.

`Best ok key l m₀ m c` is the state of such a loop after the elements of `l`: it starts with
the bound `m₀` and no element.

Results:
* `IsFirstMax.last`, `IsFirstMax.snoc`: one more element, better than all before or not.
* `IsFirstMax.le`, `IsFirstMax.unique`: the element is the largest, and determined.
* `Best.step`: one round of the loop.
-/

namespace ShikiOS.Lib

variable {α β : Type*} [LinearOrder β] {ok ok' : α → Prop} {key key' : α → β} {l : List α}
  {a b c : α} {m₀ m : β} {best : Option α}

/-- `c` is the first element of `l` with the largest key among those that meet `ok`. -/
def IsFirstMax (ok : α → Prop) (key : α → β) (l : List α) (c : α) : Prop :=
  ∃ pre post, l = pre ++ c :: post ∧ ok c ∧ (∀ a ∈ pre, ok a → key a < key c) ∧
    ∀ a ∈ post, ok a → key a ≤ key c

namespace IsFirstMax

theorem mem (h : IsFirstMax ok key l c) : c ∈ l := by
  obtain ⟨pre, post, rfl, -⟩ := h
  simp

theorem prop (h : IsFirstMax ok key l c) : ok c := by
  obtain ⟨-, -, -, hc, -⟩ := h
  exact hc

theorem le (h : IsFirstMax ok key l c) (ha : a ∈ l) (hok : ok a) : key a ≤ key c := by
  obtain ⟨pre, post, rfl, -, hpre, hpost⟩ := h
  rcases List.mem_append.mp ha with ha | ha
  · exact (hpre a ha hok).le
  · rcases List.mem_cons.mp ha with rfl | ha
    · exact le_rfl
    · exact hpost a ha hok

/-- An element that does not meet `ok`, or is not larger, leaves the choice. -/
theorem snoc (h : IsFirstMax ok key l c) (ha : ok a → key a ≤ key c) :
    IsFirstMax ok key (l ++ [a]) c := by
  obtain ⟨pre, post, rfl, hc, hpre, hpost⟩ := h
  refine ⟨pre, post ++ [a], by simp, hc, hpre, ?_⟩
  intro b hb hok
  rcases List.mem_append.mp hb with hb | hb
  · exact hpost b hb hok
  · obtain rfl := List.mem_singleton.mp hb
    exact ha hok

/-- An element that is larger than all before is the choice. -/
theorem last (hc : ok c) (h : ∀ a ∈ l, ok a → key a < key c) : IsFirstMax ok key (l ++ [c]) c :=
  ⟨l, [], rfl, hc, h, by simp⟩

theorem congr (h : IsFirstMax ok key l c) (hok : ∀ a ∈ l, ok' a ↔ ok a)
    (hkey : ∀ a ∈ l, key' a = key a) : IsFirstMax ok' key' l c := by
  have hmem := h.mem
  obtain ⟨pre, post, rfl, hc, hpre, hpost⟩ := h
  refine ⟨pre, post, rfl, (hok c hmem).mpr hc, fun a ha h' => ?_, fun a ha h' => ?_⟩
  · have hin : a ∈ pre ++ c :: post := List.mem_append_left _ ha
    rw [hkey a hin, hkey c hmem]
    exact hpre a ha ((hok a hin).mp h')
  · have hin : a ∈ pre ++ c :: post := List.mem_append_right _ (List.mem_cons_of_mem c ha)
    rw [hkey a hin, hkey c hmem]
    exact hpost a ha ((hok a hin).mp h')

theorem unique (h : IsFirstMax ok key l b) (h' : IsFirstMax ok key l c) : b = c := by
  have hbc : key b = key c := le_antisymm (h'.le h.mem h.prop) (h.le h'.mem h'.prop)
  obtain ⟨pre, post, rfl, hb, hpre, -⟩ := h
  obtain ⟨pre', post', he, hc, hpre', -⟩ := h'
  -- an element before the other one would be smaller
  rcases List.append_eq_append_iff.mp he with ⟨as, rfl, hcons⟩ | ⟨as, rfl, hcons⟩
  · cases as with
    | nil => exact (List.cons.inj hcons).1
    | cons a as =>
      obtain ⟨rfl, -⟩ := List.cons.inj hcons
      exact absurd hbc (hpre' b (by simp) hb).ne
  · cases as with
    | nil => exact (List.cons.inj hcons).1.symm
    | cons a as =>
      obtain ⟨rfl, -⟩ := List.cons.inj hcons
      exact absurd hbc (hpre c (by simp) hc).ne'

/-- A strictly monotone function of the keys changes nothing. -/
theorem comp_iff {γ : Type*} [LinearOrder γ] {f : β → γ} (hf : StrictMono f) :
    IsFirstMax ok (fun a => f (key a)) l c ↔ IsFirstMax ok key l c := by
  simp only [IsFirstMax, hf.lt_iff_lt, hf.le_iff_le]

end IsFirstMax

/-- What the loop has after the elements of `l`: nothing, or the first largest one and its key. -/
def Best (ok : α → Prop) (key : α → β) (l : List α) (m₀ m : β) (best : Option α) : Prop :=
  (best = none ∧ m = m₀ ∧ ∀ a ∈ l, ¬ ok a) ∨ ∃ c, best = some c ∧ IsFirstMax ok key l c ∧ m = key c

namespace Best

theorem nil : Best ok key [] m₀ m₀ none := .inl ⟨rfl, rfl, by simp⟩

/-- A round for an element that does not meet `ok`. -/
theorem skip (h : Best ok key l m₀ m best) (ha : ¬ ok a) : Best ok key (l ++ [a]) m₀ m best := by
  rcases h with ⟨h0, hm, hnone⟩ | ⟨c, hc, hbest, hm⟩
  · refine .inl ⟨h0, hm, fun b hb => ?_⟩
    rcases List.mem_append.mp hb with hb | hb
    · exact hnone b hb
    · exact List.mem_singleton.mp hb ▸ ha
  · exact .inr ⟨c, hc, hbest.snoc fun hok => absurd hok ha, hm⟩

/-- A round for an element whose key is above the initial bound. -/
theorem step (h : Best ok key l m₀ m best) (ha : ok a) (hm : m₀ < key a) :
    Best ok key (l ++ [a]) m₀ (if key a > m then key a else m)
      (if key a > m then some a else best) := by
  split_ifs with hlt
  · refine .inr ⟨a, rfl, IsFirstMax.last ha fun b hb hok => ?_, rfl⟩
    rcases h with ⟨-, -, hnone⟩ | ⟨c, -, hbest, rfl⟩
    · exact absurd hok (hnone b hb)
    · exact (hbest.le hb hok).trans_lt hlt
  · rcases h with ⟨-, rfl, -⟩ | ⟨c, hc, hbest, rfl⟩
    · exact absurd hm hlt
    · exact .inr ⟨c, hc, hbest.snoc fun _ => not_lt.mp hlt, rfl⟩

theorem some_of_exists (h : Best ok key l m₀ m best) (ha : a ∈ l) (hok : ok a) :
    ∃ c, best = some c ∧ IsFirstMax ok key l c := by
  rcases h with ⟨-, -, hnone⟩ | ⟨c, hc, hbest, -⟩
  · exact absurd hok (hnone a ha)
  · exact ⟨c, hc, hbest⟩

theorem eq_none (h : Best ok key l m₀ m best) (hnone : ∀ a ∈ l, ¬ ok a) : best = none := by
  rcases h with ⟨h0, -, -⟩ | ⟨c, -, hbest, -⟩
  · exact h0
  · exact absurd hbest.prop (hnone c hbest.mem)

theorem congr (h : Best ok key l m₀ m best) (hok : ∀ a ∈ l, ok' a ↔ ok a)
    (hkey : ∀ a ∈ l, key' a = key a) : Best ok' key' l m₀ m best := by
  rcases h with ⟨h0, hm, hnone⟩ | ⟨c, hc, hbest, hm⟩
  · exact .inl ⟨h0, hm, fun a ha hok' => hnone a ha ((hok a ha).mp hok')⟩
  · exact .inr ⟨c, hc, hbest.congr hok hkey, hm.trans (hkey c hbest.mem).symm⟩

/-- Two loops over the same elements find the same. -/
theorem unique {m' : β} {best' : Option α} (h : Best ok key l m₀ m best)
    (h' : Best ok key l m₀ m' best') : best = best' := by
  rcases h with ⟨rfl, -, hnone⟩ | ⟨c, rfl, hbest, -⟩
  · exact (h'.eq_none hnone).symm
  · obtain ⟨c', rfl, hbest'⟩ := h'.some_of_exists hbest.mem hbest.prop
    rw [hbest.unique hbest']

end Best

end ShikiOS.Lib
