import ShikiOS.Kernel.Slab

/-!
# The walk of `kfree` over a list (`kernel/mem.c`)

When a page has no live block left, `kfree` takes the nodes of the page out of the list of its
allocator. Nothing is asked of the nodes but that their links do not overlap.

Results:
* `unlinkLoop_apart`: the walk comes to an end, keeps the other nodes in their order, and changes
  links of nodes only.
-/

namespace ShikiOS.Kernel

open ShikiOS.Lib

variable {a b i p v x y : ℕ} {s t u : Heap} {l rest : List ℕ}

/-- The words at `a` and `b` do not overlap. -/
def Apart (a b : ℕ) : Prop := a + 8 ≤ b ∨ b + 8 ≤ a

theorem Apart.symm (h : Apart a b) : Apart b a := Or.symm h

theorem Apart.ne (h : Apart a b) : a ≠ b := by
  unfold Apart at h
  omega

theorem apart_of_dvd (ha : 8 ∣ a) (hb : 8 ∣ b) (h : a ≠ b) : Apart a b := by
  unfold Apart
  omega

/-- Aligned addresses without repetition. -/
theorem pairwise_apart (h8 : ∀ x ∈ l, 8 ∣ x) (hnd : l.Nodup) : l.Pairwise Apart := by
  induction l with
  | nil => exact List.Pairwise.nil
  | cons a l ih =>
    obtain ⟨ha, hl⟩ := List.nodup_cons.mp hnd
    refine List.pairwise_cons.mpr ⟨fun b hb => ?_, ih (fun x hx => h8 x (List.mem_cons_of_mem a hx)) hl⟩
    refine apart_of_dvd (h8 a List.mem_cons_self) (h8 b (List.mem_cons_of_mem a hb)) ?_
    rintro rfl
    exact ha hb

theorem nodup_of_apart (h : l.Pairwise Apart) : l.Nodup := h.imp fun h => h.ne

theorem link_setLink_of_apart (h : Apart a b) : (s.setLink a v).link b = s.link b :=
  getLE_putLE_of_disjoint _ (by unfold Apart at h; omega)

/-- `t` is `s` with another list of allocator `i`, whose links stand at the nodes `l`. -/
structure WalkEdit (i : ℕ) (l : List ℕ) (s t : Heap) : Prop where
  eq : ∃ f, t = { s.setFreeList i f with mem := t.mem }
  mem : ∀ y, (∀ x ∈ l, y < x ∨ x + 8 ≤ y) → t.mem y = s.mem y

theorem WalkEdit.refl (i : ℕ) (l : List ℕ) (s : Heap) : WalkEdit i l s s := by
  refine ⟨⟨(s.allocators i).freeList, ?_⟩, fun _ _ => rfl⟩
  simp [Heap.setFreeList]

theorem WalkEdit.setFreeList (f : ℕ) : WalkEdit i l s (s.setFreeList i f) :=
  ⟨⟨f, rfl⟩, fun _ _ => rfl⟩

theorem WalkEdit.setLink (ha : a ∈ l) : WalkEdit i l s (s.setLink a v) := by
  refine ⟨⟨(s.allocators i).freeList, by simp [Heap.setFreeList, Heap.setLink]⟩, fun y hy => ?_⟩
  exact putLE_outside _ (hy a ha)

theorem WalkEdit.trans (h : WalkEdit i l s t) (h' : WalkEdit i l t u) : WalkEdit i l s u := by
  obtain ⟨f, hf⟩ := h.eq
  obtain ⟨g, hg⟩ := h'.eq
  refine ⟨⟨g, ?_⟩, fun y hy => (h'.mem y hy).trans (h.mem y hy)⟩
  rw [hg, hf]
  simp [Heap.setFreeList]

theorem WalkEdit.mono (h : WalkEdit i rest s t) (hsub : ∀ x ∈ rest, x ∈ l) : WalkEdit i l s t :=
  ⟨h.eq, fun y hy => h.mem y fun x hx => hy x (hsub x hx)⟩

/-- The node `current` behind `kept` leaves the list (mem.c:286-297). -/
theorem unlinkNode_apart {index prev current : ℕ} {kept : List ℕ}
    (hkept : Seg s.link (s.allocators index).freeList kept current)
    (hrest : Chain s.link current (current :: rest)) (hap : (kept ++ current :: rest).Pairwise Apart)
    (hprev : kept = [] ∧ prev = 0 ∨ ∃ k, kept = k ++ [prev])
    (hu : u = if prev = 0 then s.setFreeList index (s.link current)
      else s.setLink prev (s.link current)) :
    u.link current = s.link current ∧
      Seg (u.setLink current 0).link ((u.setLink current 0).allocators index).freeList kept
        (s.link current) ∧
      Chain (u.setLink current 0).link (s.link current) rest ∧
      WalkEdit index (kept ++ current :: rest) s (u.setLink current 0) := by
  obtain ⟨-, hb0, hr⟩ := hrest
  obtain ⟨hkap, hrap, hkr⟩ := List.pairwise_append.mp hap
  obtain ⟨hbr, -⟩ := List.pairwise_cons.mp hrap
  have hbk : ∀ x ∈ kept, Apart x current := fun x hx => hkr x hx current List.mem_cons_self
  -- The node is cleared after it was taken out.
  have hclear : ∀ (u : Heap) (x : ℕ), Apart current x → (u.setLink current 0).link x = u.link x :=
    fun u x hx => link_setLink_of_apart hx
  rcases hprev with ⟨rfl, rfl⟩ | ⟨k, rfl⟩
  · rw [if_pos rfl] at hu
    subst hu
    refine ⟨rfl, by simp, ?_, (WalkEdit.setFreeList _).trans (WalkEdit.setLink (by simp))⟩
    exact hr.congr fun x hx => hclear _ x (hbr x hx)
  · have hp0 : prev ≠ 0 := by
      rw [Seg.append_iff] at hkept
      obtain ⟨y, -, -, hp0, -⟩ := hkept
      exact hp0
    rw [if_neg hp0] at hu
    subst hu
    have hpb : Apart prev current := hbk prev (by simp)
    have hother : ∀ x, Apart prev x → Apart current x →
        ((s.setLink prev (s.link current)).setLink current 0).link x = s.link x := by
      intro x h1 h2
      rw [hclear _ x h2, link_setLink_of_apart h1]
    refine ⟨link_setLink_of_apart hpb, ?_, ?_, ?_⟩
    · refine hkept.relink ?_ fun x hx => hother x ?_ (hbk x (by simp [hx])).symm
      · rw [hclear _ _ hpb.symm, Heap.link_setLink (getLE_lt _ _ _)]
      · exact ((List.pairwise_append.mp hkap).2.2 x hx prev (by simp)).symm
    · exact hr.congr fun x hx => hother x (hkr prev (by simp) x (List.mem_cons_of_mem _ hx)) (hbr x hx)
    · exact (WalkEdit.setLink (by simp)).trans (WalkEdit.setLink (by simp))

/-- The walk over the list (mem.c:283-303): `kept` are the nodes that it passed and left in
    the list, the last of them is `prev`. -/
theorem unlinkLoop_apart {index fuel prev current : ℕ} (page : ℕ) (kept : List ℕ)
    (hfuel : rest.length < fuel)
    (hkept : Seg s.link (s.allocators index).freeList kept current)
    (hrest : Chain s.link current rest) (hap : (kept ++ rest).Pairwise Apart)
    (hprev : kept = [] ∧ prev = 0 ∨ ∃ k, kept = k ++ [prev]) :
    ∃ t, Heap.unlinkLoop index page fuel s prev current = some t ∧
      Chain t.link (t.allocators index).freeList
        (kept ++ rest.filter fun x => !inPage page x) ∧
      WalkEdit index (kept ++ rest) s t := by
  induction rest generalizing fuel s prev current kept with
  | nil =>
    obtain ⟨fuel, rfl⟩ : ∃ n, fuel = n + 1 := ⟨fuel - 1, by rw [List.length_nil] at hfuel; omega⟩
    rw [chain_nil] at hrest
    subst hrest
    refine ⟨s, by simp [Heap.unlinkLoop], ?_, WalkEdit.refl _ _ _⟩
    rw [List.filter_nil, List.append_nil]
    exact hkept
  | cons b r ih =>
    obtain ⟨rfl, hb0, hr⟩ := hrest
    rw [List.length_cons] at hfuel
    obtain ⟨fuel, rfl⟩ : ∃ n, fuel = n + 1 := ⟨fuel - 1, by omega⟩
    by_cases hpage : pageBase current = page
    · obtain ⟨u, hu⟩ : ∃ u, u = if prev = 0 then s.setFreeList index (s.link current)
        else s.setLink prev (s.link current) := ⟨_, rfl⟩
      obtain ⟨h1, h2, h3, h4⟩ := unlinkNode_apart hkept ⟨rfl, hb0, hr⟩ hap hprev hu
      have hsub : ∀ x ∈ kept ++ r, x ∈ kept ++ current :: r := by
        intro x hx
        rcases List.mem_append.mp hx with hx | hx <;> simp [hx]
      obtain ⟨t, h5, h6, h7⟩ := ih kept (by omega : r.length < fuel) h2 h3
        (hap.sublist (by simp)) hprev
      refine ⟨t, ?_, ?_, h4.trans (h7.mono hsub)⟩
      · rw [Heap.unlinkLoop, if_neg hb0, if_pos hpage]
        simp only [← hu, h1]
        exact h5
      · rwa [List.filter_cons_of_neg (by simp [inPage, hpage])]
    · have hkept' : Seg s.link (s.allocators index).freeList (kept ++ [current])
          (s.link current) :=
        Seg.append_iff.mpr ⟨current, hkept, rfl, hb0, rfl⟩
      obtain ⟨t, h1, h2, h3⟩ := ih _ (by omega : r.length < fuel) hkept' hr (by simpa using hap)
        (.inr ⟨kept, rfl⟩)
      refine ⟨t, ?_, ?_, by simpa using h3⟩
      · rw [Heap.unlinkLoop, if_neg hb0, if_neg hpage]
        exact h1
      · rw [List.filter_cons_of_pos (by simp [inPage, hpage])]
        simpa using h2

end ShikiOS.Kernel
