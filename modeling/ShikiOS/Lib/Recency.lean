import Mathlib.Tactic

/-!
# Lists in order of last use

`Recent h l` says that the elements of `l` are in the order in which they were last used, most
recently used first, where `h` is the history of the uses, last first.

Results:
* `Recent.touch`, `Recent.cons`: an element is used.
* `Recent.sublist`: elements are dropped.
* `Recent.find_reverse`: a search from the end finds the least recently used element.
-/

namespace ShikiOS.Lib

variable {α : Type*} [DecidableEq α] {h l l' : List α} {a e : α} {p : α → Bool}

/-- The elements of `l` in order of their last use in `h`. -/
def Recent (h l : List α) : Prop := (∀ a ∈ l, a ∈ h) ∧ l.Pairwise fun a b => h.idxOf a < h.idxOf b

theorem Recent.nil : Recent h [] := ⟨fun _ ha => absurd ha List.not_mem_nil, List.Pairwise.nil⟩

theorem Recent.nodup (hl : Recent h l) : l.Nodup := by
  refine hl.2.imp fun hlt heq => ?_
  rw [heq] at hlt
  exact lt_irrefl _ hlt

theorem Recent.sublist (hl : Recent h l) (hs : l'.Sublist l) : Recent h l' :=
  ⟨fun a ha => hl.1 a (hs.subset ha), hl.2.sublist hs⟩

/-- An element that is new is used. -/
theorem Recent.cons (hl : Recent h l) (ha : a ∉ l) : Recent (a :: h) (a :: l) := by
  have hne : ∀ b ∈ l, b ≠ a := fun b hb he => ha (he ▸ hb)
  have hidx : ∀ b ∈ l, (a :: h).idxOf b = h.idxOf b + 1 := fun b hb =>
    List.idxOf_cons_ne h (hne b hb).symm
  refine ⟨fun b hb => ?_, List.pairwise_cons.mpr ⟨fun b hb => ?_, ?_⟩⟩
  · rcases List.mem_cons.mp hb with rfl | hb
    · exact List.mem_cons_self
    · exact List.mem_cons_of_mem a (hl.1 b hb)
  · rw [List.idxOf_cons_self, hidx b hb]
    exact Nat.succ_pos _
  · refine hl.2.imp_of_mem fun {b c} hb hc hlt => ?_
    rw [hidx b hb, hidx c hc]
    exact Nat.succ_lt_succ hlt

/-- An element is used and moves to the front. -/
theorem Recent.touch (hl : Recent h l) : Recent (a :: h) (a :: l.erase a) :=
  (hl.sublist List.erase_sublist).cons fun hm => (hl.nodup.mem_erase_iff.mp hm).1 rfl

/-- The last element with a property is the least recently used one that has it. -/
theorem Recent.find_reverse (hl : Recent h l) (hf : l.reverse.find? p = some e) :
    e ∈ l ∧ p e = true ∧ ∀ c ∈ l, p c = true → h.idxOf c ≤ h.idxOf e := by
  obtain ⟨hpe, as, bs, hsplit, has⟩ := List.find?_eq_some_iff_append.mp hf
  have hrev : l = bs.reverse ++ e :: as.reverse := by
    rw [← List.reverse_reverse l, hsplit]
    simp
  have hp := hl.2
  rw [hrev, List.pairwise_append] at hp
  refine ⟨by rw [hrev]; simp, hpe, fun c hc hpc => ?_⟩
  rw [hrev] at hc
  rcases List.mem_append.mp hc with hc | hc
  · exact (hp.2.2 c hc e List.mem_cons_self).le
  · rcases List.mem_cons.mp hc with rfl | hc
    · exact le_rfl
    · have hnot := has c (List.mem_reverse.mp hc)
      rw [hpc] at hnot
      cases hnot

end ShikiOS.Lib
