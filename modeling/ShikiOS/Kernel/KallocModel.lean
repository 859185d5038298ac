import ShikiOS.Lib.Run
import ShikiOS.Kernel.FreePages
import ShikiOS.Kernel.SlabFree

/-!
# Callers of the allocator

The state of the allocator together with what its callers hold: the blocks of `kalloc`
with the sizes that were asked for, and the pages of `kalloc_page`. Every step is one
whole call, or a store of a caller to its own memory. A call that never returns has no
step.

Results:
* `classOf_spec`, `Heap.getAllocatorIndex_eq`: the allocator of a size.
-/

namespace ShikiOS.Kernel.Kalloc

open ShikiOS.Lib

/-- The allocator of a size. -/
def classOf (n : ℕ) : ℕ := Heap.indexLoop size n (numAllocators - 1) 0

/-- The length of the block that a caller gets who asks for `n` bytes. -/
def blockLen (n : ℕ) : ℕ := size (classOf n)

/-- The allocator and its callers: `live` are the blocks that are in use, with the sizes
    that were asked for, `pages` the pages of other users of `kalloc_page`, and `failed`
    counts the calls of `kalloc_page` that found no free page. -/
structure State where
  heap : Heap
  live : List (ℕ × ℕ)
  pages : List ℕ
  failed : ℕ

inductive Action
  | kalloc (size : ℕ)
  | kfree (ptr : ℕ)
  | kallocPage
  | kfreePage (page : ℕ)
  | write (addr : ℕ) (byte : UInt8)
deriving DecidableEq

/-- The state after one action, if the call returns. -/
def next (s : State) : Action → Option State
  | .kalloc n => (s.heap.kalloc n).map fun (h, p) =>
      if p = 0 then { s with heap := h, failed := s.failed + 1 }
      else { s with heap := h, live := (p, n) :: s.live }
  | .kfree p => (s.heap.kfree p).map fun h =>
      { s with heap := h, live := s.live.filter fun b => b.1 ≠ p }
  | .kallocPage => s.heap.kallocPage.map fun (h, q) =>
      if q = 0 then { s with heap := h, failed := s.failed + 1 }
      else { s with heap := h, pages := q :: s.pages }
  | .kfreePage q => (s.heap.kfreePage q).map fun h =>
      { s with heap := h, pages := s.pages.erase q }
  | .write a b =>
      some { s with heap := { s.heap with mem := Function.update s.heap.mem a b } }

/-- What the callers do: they ask for at most 2040 bytes, give back what they got, and
    write only inside their own blocks and pages. -/
def Enabled (s : State) : Action → Prop
  | .kalloc n => n ≤ 2040
  | .kfree p => p = 0 ∨ ∃ b ∈ s.live, b.1 = p
  | .kallocPage => True
  | .kfreePage q => q ∈ s.pages
  | .write a _ => (∃ b ∈ s.live, b.1 ≤ a ∧ a < b.1 + blockLen b.2) ∨
      ∃ q ∈ s.pages, q ≤ a ∧ a < q + pageSize

instance (s : State) : ∀ a, Decidable (Enabled s a)
  | .kalloc n => inferInstanceAs (Decidable (n ≤ 2040))
  | .kfree p => inferInstanceAs (Decidable (p = 0 ∨ ∃ b ∈ s.live, b.1 = p))
  | .kallocPage => inferInstanceAs (Decidable True)
  | .kfreePage q => inferInstanceAs (Decidable (q ∈ s.pages))
  | .write a _ => inferInstanceAs (Decidable ((∃ b ∈ s.live, b.1 ≤ a ∧ a < b.1 + blockLen b.2) ∨
      ∃ q ∈ s.pages, q ≤ a ∧ a < q + pageSize))

/-- The state after `kinit`. -/
def boot (s : Heap) (endAddr : ℕ) : State := ⟨s.kinit endAddr, [], [], 0⟩

/-- The live blocks of allocator `i`. -/
def liveOf (live : List (ℕ × ℕ)) (i : ℕ) : List ℕ :=
  (live.filter fun b => classOf b.2 = i).map Prod.fst

/-! ## The allocator of a size -/

theorem indexLoop_congr {f g : ℕ → ℕ} {n k i : ℕ} (h : ∀ j, i ≤ j → j ≤ i + k → f j = g j) :
    Heap.indexLoop f n k i = Heap.indexLoop g n k i := by
  induction k generalizing i with
  | zero => rfl
  | succ k ih =>
    rw [Heap.indexLoop, Heap.indexLoop, h i le_rfl (by omega),
      ih fun j h1 h2 => h j (by omega) (by omega)]

/-- The loop stops at an allocator that is large enough, no later than at any such. -/
theorem indexLoop_spec {f : ℕ → ℕ} {n k i m : ℕ} (h1 : i ≤ m) (h2 : m ≤ i + k) (hm : n ≤ f m) :
    n ≤ f (Heap.indexLoop f n k i) ∧ Heap.indexLoop f n k i ≤ m := by
  induction k generalizing i with
  | zero =>
    obtain rfl : i = m := by omega
    exact ⟨hm, le_rfl⟩
  | succ k ih =>
    rw [Heap.indexLoop]
    split_ifs with hlt
    · refine ih ?_ (by omega)
      rcases h1.eq_or_lt with rfl | h1
      · omega
      · exact h1
    · exact ⟨not_lt.mp hlt, h1⟩

/-- The allocator of a size has blocks of at least that size. -/
theorem classOf_spec {n : ℕ} (hn : n ≤ 2040) : n ≤ blockLen n ∧ classOf n < 30 := by
  have h : n ≤ size 29 := hn
  obtain ⟨h1, h2⟩ := indexLoop_spec (k := numAllocators - 1) (Nat.zero_le 29) (by decide) h
  exact ⟨h1, Nat.lt_succ_of_le h2⟩

theorem classOf_size {i : ℕ} (hi : i < 30) : classOf (size i) = i := by
  have h : ∀ i < 30, classOf (size i) = i := by decide
  exact h i hi

/-- The allocators have the block sizes that `init_allocators` gave them. -/
theorem getAllocatorIndex_eq {s : Heap} (h : ∀ i < 31, (s.allocators i).blockSize = size i)
    (n : ℕ) : s.getAllocatorIndex n = classOf n :=
  indexLoop_congr fun j _ hj => h j (by unfold numAllocators at hj; omega)

/-! ## The live blocks of an allocator -/

variable {live : List (ℕ × ℕ)} {p n i : ℕ}

theorem mem_liveOf {a : ℕ} : a ∈ liveOf live i ↔ ∃ b ∈ live, classOf b.2 = i ∧ b.1 = a := by
  simp [liveOf, and_assoc]

theorem liveOf_cons_self : liveOf ((p, n) :: live) (classOf n) = p :: liveOf live (classOf n) := by
  simp [liveOf]

theorem liveOf_cons_of_ne (h : i ≠ classOf n) : liveOf ((p, n) :: live) i = liveOf live i := by
  simp [liveOf, Ne.symm h]

theorem liveOf_filter :
    liveOf (live.filter fun b => b.1 ≠ p) i = (liveOf live i).filter (· != p) := by
  rw [liveOf, liveOf, List.filter_comm, List.filter_map]
  congr 2
  funext b
  simp [bne, BEq.beq]

end ShikiOS.Kernel.Kalloc
