import ShikiOS.Kernel.Mem

/-!
# The blocks of one allocator

A slab page of allocator `i` is cut into `capacity (size i)` blocks behind its header,
the `slots` of the page. `Slab s i live nodes fresh` says which of them the callers
have (`live`), which stand in the free list (`nodes`), and which were never handed out
(`fresh`): these three lists together are the slots of the pages of the allocator, and
the counter of a page counts its slots that are not live. Never handed out are only
slots behind the first node of the list, in its page, while `head` is set.

Results:
* `mem_slots`, `slots_disjoint`: where the slots of a page are.
* `Slab.count`: the counter of a page is its capacity less its live blocks.
* `Slab.takeSecond`, `Slab.takeBump`, `Slab.takeLast`, `Slab.newPage`: the branches of
  `kalloc`.
-/

namespace ShikiOS.Kernel

open ShikiOS.Lib

/-! ## The slots of a page -/

/-- The number of blocks of size `b` that a page counts (mem.c:216, 279). -/
def capacity (b : ℕ) : ℕ := (pageSize - sizeofHeader) / b

/-- The blocks of the page `q` from number `k` on. -/
def slotsFrom (b q k : ℕ) : List ℕ := (List.range' k (capacity b - k)).map fun j => q + 8 + j * b

/-- The blocks of the page `q`. -/
def slots (b q : ℕ) : List ℕ := slotsFrom b q 0

/-- A page that lies in memory. -/
structure GoodPage (q : ℕ) : Prop where
  aligned : pageSize ∣ q
  ne_zero : q ≠ 0
  le : q + pageSize ≤ 2 ^ 64

/-- The address `a` lies in the page `q`. -/
def inPage (q a : ℕ) : Bool := pageBase a = q

variable {b q q' k a x y i v : ℕ}

theorem size_spec (hi : i < 30) : 8 ∣ size i ∧ 8 ≤ size i ∧ size i ≤ 2040 := by
  have h : ∀ i < 30, 8 ∣ size i ∧ 8 ≤ size i ∧ size i ≤ 2040 := by decide
  exact h i hi

theorem capacity_mul_le (h8 : 8 ∣ b) : 8 + capacity b * b ≤ pageSize := by
  have h1 : capacity b * b ≤ 4092 := Nat.div_mul_le_self 4092 b
  have h2 : 8 ∣ capacity b * b := h8.mul_left _
  unfold pageSize
  omega

theorem capacity_pos (hb : 8 ≤ b) (hb' : b ≤ 2040) : 2 ≤ capacity b ∧ capacity b ≤ 511 := by
  refine ⟨(Nat.le_div_iff_mul_le (by omega)).mpr ?_, ?_⟩
  · unfold pageSize sizeofHeader
    omega
  · have h : capacity b ≤ (pageSize - sizeofHeader) / 8 := Nat.div_le_div_left hb (by omega)
    exact h

theorem pageBase_eq (hq : pageSize ∣ q) (h1 : q ≤ a) (h2 : a < q + pageSize) : pageBase a = q := by
  obtain ⟨n, rfl⟩ := hq
  unfold pageBase pageSize at *
  omega

theorem pageBase_dvd (a : ℕ) : pageSize ∣ pageBase a := Dvd.intro_left _ rfl

theorem pageBase_self (hq : pageSize ∣ q) : pageBase q = q :=
  pageBase_eq hq le_rfl (by unfold pageSize; omega)

theorem eight_dvd_page (hq : pageSize ∣ q) : 8 ∣ q :=
  Dvd.dvd.trans (by unfold pageSize; decide) hq

theorem mem_slotsFrom : x ∈ slotsFrom b q k ↔ ∃ j, k ≤ j ∧ j < capacity b ∧ x = q + 8 + j * b := by
  simp only [slotsFrom, List.mem_map, List.mem_range'_1]
  constructor
  · rintro ⟨j, hj, rfl⟩
    exact ⟨j, hj.1, by omega, rfl⟩
  · rintro ⟨j, h1, h2, rfl⟩
    exact ⟨j, ⟨h1, by omega⟩, rfl⟩

theorem slotsFrom_cons (hk : k < capacity b) :
    slotsFrom b q k = (q + 8 + k * b) :: slotsFrom b q (k + 1) := by
  unfold slotsFrom
  rw [show capacity b - k = capacity b - (k + 1) + 1 by omega, List.range'_succ, List.map_cons]

theorem slotsFrom_subset (h : x ∈ slotsFrom b q k) : x ∈ slots b q := by
  obtain ⟨j, -, h2, h3⟩ := mem_slotsFrom.mp h
  exact mem_slotsFrom.mpr ⟨j, Nat.zero_le _, h2, h3⟩

theorem nodup_slotsFrom (hb : 0 < b) : (slotsFrom b q k).Nodup := by
  refine (List.nodup_range' _).map fun j₁ j₂ h => ?_
  simp only [Nat.add_left_cancel_iff] at h
  exact Nat.eq_of_mul_eq_mul_right hb h

/-- A slot lies in its page, behind the header. -/
theorem mem_slots (h8 : 8 ∣ b) (hb : 0 < b) (hq : pageSize ∣ q) (hx : x ∈ slots b q) :
    q + 8 ≤ x ∧ x + b ≤ q + pageSize ∧ 8 ∣ x ∧ pageBase x = q := by
  obtain ⟨j, -, hj, rfl⟩ := mem_slotsFrom.mp hx
  have hfit := capacity_mul_le h8
  have hle : (j + 1) * b ≤ capacity b * b := Nat.mul_le_mul_right b hj
  rw [Nat.add_mul, Nat.one_mul] at hle
  have h1 : q + 8 + j * b + b ≤ q + pageSize := by omega
  refine ⟨by omega, h1, ?_, pageBase_eq hq (by omega) (by omega)⟩
  exact dvd_add (dvd_add (eight_dvd_page hq) dvd_rfl) (h8.mul_left j)

/-- Different slots of a size do not overlap. -/
theorem slots_disjoint (h8 : 8 ∣ b) (hb : 0 < b) (hq : pageSize ∣ q) (hq' : pageSize ∣ q')
    (hx : x ∈ slots b q) (hy : y ∈ slots b q') (hne : x ≠ y) : x + b ≤ y ∨ y + b ≤ x := by
  obtain ⟨h1, h2, -, -⟩ := mem_slots h8 hb hq hx
  obtain ⟨h3, h4, -, -⟩ := mem_slots h8 hb hq' hy
  by_cases hqq : q = q'
  · subst hqq
    obtain ⟨j, -, -, rfl⟩ := mem_slotsFrom.mp hx
    obtain ⟨l, -, -, rfl⟩ := mem_slotsFrom.mp hy
    have hjl : j ≠ l := fun e => hne (by rw [e])
    rcases Nat.lt_or_gt_of_ne hjl with h | h
    · have := Nat.mul_le_mul_right b (Nat.succ_le_of_lt h)
      rw [Nat.succ_mul] at this
      omega
    · have := Nat.mul_le_mul_right b (Nat.succ_le_of_lt h)
      rw [Nat.succ_mul] at this
      omega
  · obtain ⟨m, rfl⟩ := hq
    obtain ⟨n, rfl⟩ := hq'
    unfold pageSize at *
    omega

/-- The page of a slot. -/
theorem countP_slots (h8 : 8 ∣ b) (hb : 0 < b) (hq' : pageSize ∣ q') :
    (slots b q').countP (inPage q) = if q' = q then capacity b else 0 := by
  split_ifs with h
  · subst h
    rw [List.countP_eq_length.mpr fun x hx => ?_]
    · simp [slots, slotsFrom]
    · simp [inPage, (mem_slots h8 hb hq' hx).2.2.2]
  · rw [List.countP_eq_zero.mpr fun x hx => ?_]
    simp [inPage, (mem_slots h8 hb hq' hx).2.2.2, h]

/-- The slots of some pages, counted page by page. -/
theorem countP_pages (h8 : 8 ∣ b) (hb : 0 < b) {pages : List ℕ} (hnd : pages.Nodup)
    (hp : ∀ q ∈ pages, pageSize ∣ q) :
    (pages.flatMap (slots b)).countP (inPage q) = if q ∈ pages then capacity b else 0 := by
  induction pages with
  | nil => simp
  | cons p ps ih =>
    obtain ⟨hp1, hps⟩ := List.nodup_cons.mp hnd
    rw [List.flatMap_cons, List.countP_append, countP_slots h8 hb (hp p List.mem_cons_self),
      ih hps fun q hq => hp q (List.mem_cons_of_mem p hq)]
    by_cases h : p = q
    · subst h
      simp [hp1]
    · simp [h, Ne.symm h]

/-! ## The invariant of an allocator -/

/-- Blocks, free list and page headers of allocator `i` agree. -/
structure Slab (s : Heap) (i : ℕ) (live nodes fresh : List ℕ) : Prop where
  blockSize : (s.allocators i).blockSize = size i
  chain : Chain s.link (s.allocators i).freeList nodes
  perm : (live ++ nodes ++ fresh).Perm ((s.slabs i).flatMap (slots (size i)))
  nodup : (s.slabs i).Nodup
  page : ∀ q ∈ s.slabs i, GoodPage q
  header : ∀ q ∈ s.slabs i, s.blockSize q = size i ∧
    s.blockCount q = (nodes ++ fresh).countP (inPage q)
  bump : fresh = [] ∨ (s.allocators i).head = true ∧ ∃ q k rest, q ∈ s.slabs i ∧
    nodes = (q + 8 + k * size i) :: rest ∧ fresh = slotsFrom (size i) q (k + 1)

section Slab

variable {s t : Heap} {live nodes fresh rest : List ℕ}

/-- Every block of the allocator is a slot of one of its pages. -/
theorem Slab.slot (h : Slab s i live nodes fresh) (ha : a ∈ live ++ nodes ++ fresh) :
    ∃ q ∈ s.slabs i, a ∈ slots (size i) q :=
  List.mem_flatMap.mp ((h.perm.mem_iff).mp ha)

theorem Slab.slot_of_node (h : Slab s i live nodes fresh) (ha : a ∈ nodes) :
    ∃ q ∈ s.slabs i, a ∈ slots (size i) q :=
  h.slot (List.mem_append_left _ (List.mem_append_right _ ha))

theorem Slab.slot_of_live (h : Slab s i live nodes fresh) (ha : a ∈ live) :
    ∃ q ∈ s.slabs i, a ∈ slots (size i) q :=
  h.slot (List.mem_append_left _ (List.mem_append_left _ ha))

theorem Slab.nodup_blocks (h : Slab s i live nodes fresh) (hi : i < 30) :
    (live ++ nodes ++ fresh).Nodup := by
  obtain ⟨h8, hb, -⟩ := size_spec hi
  refine h.perm.nodup_iff.mpr (List.nodup_flatMap.mpr ⟨fun q _ => nodup_slotsFrom (by omega), ?_⟩)
  refine h.nodup.imp_of_mem fun {q q'} hq hq' hne => ?_
  intro x hx hx'
  have h1 := (mem_slots h8 (by omega) (h.page q hq).aligned hx).2.2.2
  have h2 := (mem_slots h8 (by omega) (h.page q' hq').aligned hx').2.2.2
  exact hne (h1.symm.trans h2)

theorem Slab.nodup_nodes (h : Slab s i live nodes fresh) (hi : i < 30) : nodes.Nodup :=
  (h.nodup_blocks hi).of_append_left.of_append_right

/-- The counter of a page is its capacity less its live blocks. -/
theorem Slab.count (h : Slab s i live nodes fresh) (hi : i < 30) (hq : q ∈ s.slabs i) :
    live.countP (inPage q) + s.blockCount q = capacity (size i) := by
  obtain ⟨h8, hb, -⟩ := size_spec hi
  have hp := h.perm.countP_eq (inPage q)
  rw [countP_pages h8 (by omega) h.nodup fun q hq => (h.page q hq).aligned, if_pos hq,
    List.countP_append, List.countP_append] at hp
  rw [(h.header q hq).2, List.countP_append]
  omega

/-- What a block of the allocator is as an address. -/
theorem Slab.addr (h : Slab s i live nodes fresh) (hi : i < 30)
    (ha : a ∈ live ++ nodes ++ fresh) :
    pageBase a ∈ s.slabs i ∧ 8 ∣ a ∧ pageBase a + 8 ≤ a ∧
      a + size i ≤ pageBase a + pageSize ∧ a < 2 ^ 64 ∧ a ≠ 0 := by
  obtain ⟨h8, hb, -⟩ := size_spec hi
  obtain ⟨q, hq, ha⟩ := h.slot ha
  obtain ⟨h1, h2, h3, rfl⟩ := mem_slots h8 (by omega) (h.page q hq).aligned ha
  have := (h.page _ hq).le
  exact ⟨hq, h3, h1, h2, by omega, by omega⟩

theorem Slab.addr_node (h : Slab s i live nodes fresh) (hi : i < 30) (ha : a ∈ nodes) :
    pageBase a ∈ s.slabs i ∧ 8 ∣ a ∧ pageBase a + 8 ≤ a ∧
      a + size i ≤ pageBase a + pageSize ∧ a < 2 ^ 64 ∧ a ≠ 0 :=
  h.addr hi (List.mem_append_left _ (List.mem_append_right _ ha))

/-- No block starts at a page header. -/
theorem Slab.ne_page (h : Slab s i live nodes fresh) (hi : i < 30)
    (ha : a ∈ live ++ nodes ++ fresh) (hq : pageSize ∣ q) : a ≠ q := by
  rintro rfl
  have := (h.addr hi ha).2.2.1
  rw [pageBase_self hq] at this
  omega

theorem Slab.ne_page_node (h : Slab s i live nodes fresh) (hi : i < 30) (ha : a ∈ nodes)
    (hq : pageSize ∣ q) : a ≠ q :=
  h.ne_page hi (List.mem_append_left _ (List.mem_append_right _ ha)) hq

/-- An allocator whose words of memory did not change. -/
theorem Slab.frame (h : Slab s i live nodes fresh) (ha : t.allocators i = s.allocators i)
    (hs : t.slabs i = s.slabs i) (hn : ∀ a ∈ nodes, Heap.Agree s t a)
    (hp : ∀ q ∈ s.slabs i, Heap.Agree s t q) : Slab t i live nodes fresh := by
  refine ⟨by rw [ha, h.blockSize], ?_, by rw [hs]; exact h.perm, by rw [hs]; exact h.nodup,
    by rw [hs]; exact h.page, ?_, by rw [ha, hs]; exact h.bump⟩
  · rw [ha]
    exact h.chain.congr fun a ha => (hn a ha).link
  · intro q hq
    rw [hs] at hq
    rw [(hp q hq).blockSize, (hp q hq).blockCount]
    exact h.header q hq

/-- An allocator whose pages did not change. -/
theorem Slab.frameOff (h : Slab s i live nodes fresh) (hi : i < 30)
    (ha : t.allocators i = s.allocators i) (hs : t.slabs i = s.slabs i)
    (hag : ∀ c, 8 ∣ c → pageBase c ∈ s.slabs i → Heap.Agree s t c) : Slab t i live nodes fresh := by
  refine h.frame ha hs (fun a hn => ?_) fun q hq => ?_
  · exact hag a (h.addr_node hi hn).2.1 (h.addr_node hi hn).1
  · have hqa := (h.page q hq).aligned
    exact hag q (eight_dvd_page hqa) (by rwa [pageBase_self hqa])

/-- The counter of the page that a block leaves. -/
theorem Slab.blockCount_le (h : Slab s i live nodes fresh) (hi : i < 30) (hq : q ∈ s.slabs i) :
    s.blockCount q ≤ 511 := by
  have h1 := h.count hi hq
  have h2 := (capacity_pos (size_spec hi).2.1 (size_spec hi).2.2).2
  omega

/-- The headers after `page->block_count--` for a block that leaves `nodes ++ fresh`. -/
theorem Slab.header_dec (h : Slab s i live nodes fresh) (hi : i < 30) {nodes' fresh' : List ℕ}
    {u : Heap} (hperm : (nodes ++ fresh).Perm (a :: (nodes' ++ fresh')))
    (hu : ∀ q ∈ s.slabs i, Heap.Agree s u q)
    (hq : q ∈ s.slabs i) :
    (u.setBlockCount (pageBase a) (u.blockCount (pageBase a) + 65535)).blockSize q = size i ∧
      (u.setBlockCount (pageBase a) (u.blockCount (pageBase a) + 65535)).blockCount q =
        (nodes' ++ fresh').countP (inPage q) := by
  have hcnt : s.blockCount q = (a :: (nodes' ++ fresh')).countP (inPage q) := by
    rw [(h.header q hq).2, hperm.countP_eq]
  by_cases hqa : q = pageBase a
  · subst hqa
    rw [Heap.blockSize_setBlockCount, Heap.blockCount_setBlockCount, (hu _ hq).blockSize,
      (hu _ hq).blockCount]
    refine ⟨(h.header _ hq).1, ?_⟩
    have hle := h.blockCount_le hi hq
    have hin : inPage (pageBase a) a = true := by simp [inPage]
    rw [List.countP_cons_of_pos hin] at hcnt
    omega
  · have hag : Heap.Agree u (u.setBlockCount (pageBase a) (u.blockCount (pageBase a) + 65535)) q :=
      Heap.agree_setBlockCount (eight_dvd_page (pageBase_dvd a))
        (eight_dvd_page (h.page q hq).aligned) hqa
    rw [hag.blockSize, hag.blockCount, (hu q hq).blockSize, (hu q hq).blockCount, hcnt]
    have hin : ¬ inPage q a = true := by simp [inPage, Ne.symm hqa]
    rw [List.countP_cons_of_neg hin]
    exact ⟨(h.header q hq).1, rfl⟩

end Slab

/-! ## What a call for one allocator touches -/

/-- `t` is `s` but for the allocator `i`, its pages, and the memory of the pages `l`. -/
structure ClassEdit (i : ℕ) (l : List ℕ) (s t : Heap) : Prop where
  allocators : ∀ j, j ≠ i → t.allocators j = s.allocators j
  slabs : ∀ j, j ≠ i → t.slabs j = s.slabs j
  freePages : t.freePages = s.freePages
  kallocPageCnt : t.kallocPageCnt = s.kallocPageCnt
  memLock : t.memLock = s.memLock
  pageLock : t.pageLock = s.pageLock
  agree : ∀ c, 8 ∣ c → pageBase c ∉ l → Heap.Agree s t c

namespace ClassEdit

variable {s t u : Heap} {l m : List ℕ}

theorem refl (i : ℕ) (l : List ℕ) (s : Heap) : ClassEdit i l s s :=
  ⟨fun _ _ => rfl, fun _ _ => rfl, rfl, rfl, rfl, rfl, fun c _ _ => Heap.Agree.refl s c⟩

theorem trans (h : ClassEdit i l s t) (h' : ClassEdit i l t u) : ClassEdit i l s u :=
  ⟨fun j hj => (h'.allocators j hj).trans (h.allocators j hj),
    fun j hj => (h'.slabs j hj).trans (h.slabs j hj), h'.freePages.trans h.freePages,
    h'.kallocPageCnt.trans h.kallocPageCnt, h'.memLock.trans h.memLock,
    h'.pageLock.trans h.pageLock, fun c h8 hc => (h.agree c h8 hc).trans (h'.agree c h8 hc)⟩

theorem setLink (h : ClassEdit i l s t) (ha : 8 ∣ a) (hl : pageBase a ∈ l) :
    ClassEdit i l s (t.setLink a v) := by
  refine h.trans ⟨fun _ _ => rfl, fun _ _ => rfl, rfl, rfl, rfl, rfl, fun c hc hcl => ?_⟩
  refine Heap.agree_setLink ha hc ?_
  rintro rfl
  exact hcl hl

theorem setBlockCount (h : ClassEdit i l s t) (hl : pageBase a ∈ l) :
    ClassEdit i l s (t.setBlockCount (pageBase a) v) := by
  refine h.trans ⟨fun _ _ => rfl, fun _ _ => rfl, rfl, rfl, rfl, rfl, fun c hc hcl => ?_⟩
  refine Heap.agree_setBlockCount (eight_dvd_page (pageBase_dvd a)) hc ?_
  rintro rfl
  rw [pageBase_self (pageBase_dvd a)] at hcl
  exact hcl hl

theorem setBlockSize (h : ClassEdit i l s t) (hq : pageSize ∣ q) (hl : q ∈ l) :
    ClassEdit i l s (t.setBlockSize q v) := by
  refine h.trans ⟨fun _ _ => rfl, fun _ _ => rfl, rfl, rfl, rfl, rfl, fun c hc hcl => ?_⟩
  refine Heap.agree_setBlockSize (eight_dvd_page hq) hc ?_
  rintro rfl
  rw [pageBase_self hq] at hcl
  exact hcl hl

theorem setFreeList (h : ClassEdit i l s t) : ClassEdit i l s (t.setFreeList i v) :=
  h.trans ⟨fun _ hj => Heap.setFreeList_allocators_of_ne hj, fun _ _ => rfl, rfl, rfl, rfl, rfl,
    fun c _ _ => Heap.agree_of_mem rfl c⟩

theorem setHead {b : Bool} (h : ClassEdit i l s t) : ClassEdit i l s (t.setHead i b) :=
  h.trans ⟨fun _ hj => Heap.setHead_allocators_of_ne hj, fun _ _ => rfl, rfl, rfl, rfl, rfl,
    fun c _ _ => Heap.agree_of_mem rfl c⟩

theorem setSlabs (h : ClassEdit i l s t) : ClassEdit i l s (t.setSlabs i m) :=
  h.trans ⟨fun _ _ => rfl, fun _ hj => Heap.setSlabs_slabs_of_ne hj, rfl, rfl, rfl, rfl,
    fun c _ _ => Heap.agree_of_mem rfl c⟩

end ClassEdit

section Slab

variable {s t : Heap} {live nodes fresh rest : List ℕ}

/-! ## The branches of `kalloc` -/

/-- A block leaves `nodes ++ fresh` for a caller: `u` is the heap with the new list, in
    which the counter of the page is still to be changed. -/
theorem Slab.take (h : Slab s i live nodes fresh) (hi : i < 30) {nodes' fresh' : List ℕ}
    {u : Heap} (hperm : (nodes ++ fresh).Perm (a :: (nodes' ++ fresh')))
    (hbs : (u.allocators i).blockSize = size i) (hs : u.slabs i = s.slabs i)
    (hu : ∀ q ∈ s.slabs i, Heap.Agree s u q)
    (hchain : Chain u.link (u.allocators i).freeList nodes')
    (hbump : fresh' = [] ∨ (u.allocators i).head = true ∧ ∃ q k rest, q ∈ s.slabs i ∧
      nodes' = (q + 8 + k * size i) :: rest ∧ fresh' = slotsFrom (size i) q (k + 1)) :
    Slab (u.setBlockCount (pageBase a) (u.blockCount (pageBase a) + 65535)) i
      (a :: live) nodes' fresh' := by
  have hsub : ∀ x ∈ nodes', x ∈ live ++ nodes ++ fresh := by
    intro x hx
    rw [List.append_assoc]
    refine List.mem_append_right _ (hperm.mem_iff.mpr ?_)
    exact List.mem_cons_of_mem a (List.mem_append_left _ hx)
  refine ⟨hbs, ?_, ?_, by rw [Heap.setBlockCount_slabs, hs]; exact h.nodup, ?_, ?_, ?_⟩
  · refine hchain.congr fun x hx => Heap.Agree.link ?_
    exact Heap.agree_setBlockCount (eight_dvd_page (pageBase_dvd a)) (h.addr hi (hsub x hx)).2.1
      (h.ne_page hi (hsub x hx) (pageBase_dvd a))
  · rw [Heap.setBlockCount_slabs, hs]
    refine List.Perm.trans ?_ h.perm
    rw [List.append_assoc, List.append_assoc, List.cons_append]
    exact List.perm_middle.symm.trans (hperm.symm.append_left live)
  · intro q hq
    rw [Heap.setBlockCount_slabs, hs] at hq
    exact h.page q hq
  · intro q hq
    rw [Heap.setBlockCount_slabs, hs] at hq
    exact h.header_dec hi hperm hu hq
  · rw [Heap.setBlockCount_slabs, hs]
    exact hbump

/-- The second node of the list is taken (mem.c:167-176). -/
theorem Slab.takeSecond (h : Slab s i live (x :: a :: rest) fresh) (hi : i < 30) :
    Slab ((s.setLink x (s.link a)).setBlockCount (pageBase a)
        ((s.setLink x (s.link a)).blockCount (pageBase a) + 65535)) i
      (a :: live) (x :: rest) fresh := by
  obtain ⟨hx, hx0, ha, ha0, hrest⟩ := h.chain
  have hnd := h.nodup_nodes hi
  have hdvd : ∀ y ∈ x :: a :: rest, 8 ∣ y := fun y hy => (h.addr_node hi hy).2.1
  have hx8 := hdvd x List.mem_cons_self
  refine h.take hi ((List.Perm.swap a x _)) h.blockSize rfl ?_ ?_ ?_
  · intro q hq
    exact Heap.agree_setLink hx8 (eight_dvd_page (h.page q hq).aligned)
      (h.ne_page_node hi List.mem_cons_self (h.page q hq).aligned).symm
  · refine ⟨hx, hx0, ?_⟩
    rw [Heap.link_setLink (getLE_lt _ _ _)]
    refine Chain.congr hrest fun y hy => Heap.Agree.link ?_
    refine Heap.agree_setLink hx8 (hdvd y (by simp [hy])) ?_
    rintro rfl
    simp [hy] at hnd
  · refine h.bump.imp_right ?_
    rintro ⟨hh, q, k, rest', hq, hn, hf⟩
    exact ⟨hh, q, k, rest, hq, by rw [(List.cons.inj hn).1], hf⟩

/-- The only node is taken and the slot behind it takes its place (mem.c:180-203). -/
theorem Slab.takeBump (h : Slab s i live [a] (x :: rest)) (hi : i < 30) :
    x = a + size i ∧ 1 < s.blockCount (pageBase a) ∧ x % pageSize + size i ≤ pageSize ∧
    Slab (((s.setFreeList i 0).setLink x 0 |>.setFreeList i x).setBlockCount (pageBase a)
        (((s.setFreeList i 0).setLink x 0 |>.setFreeList i x).blockCount (pageBase a) + 65535)) i
      (a :: live) [x] rest := by
  obtain ⟨h8, hb, -⟩ := size_spec hi
  obtain ⟨hh, q, k, r, hq, hn, hf⟩ := h.bump.resolve_left (List.cons_ne_nil _ _)
  obtain ⟨rfl, rfl⟩ := List.cons.inj hn
  have hk : k + 1 < capacity (size i) := by
    by_contra hc
    rw [slotsFrom, show capacity (size i) - (k + 1) = 0 by omega] at hf
    simp at hf
  rw [slotsFrom_cons hk] at hf
  obtain ⟨rfl, rfl⟩ := List.cons.inj hf
  have hxmem : q + 8 + (k + 1) * size i ∈ slots (size i) q :=
    mem_slotsFrom.mpr ⟨k + 1, Nat.zero_le _, hk, rfl⟩
  have hamem : q + 8 + k * size i ∈ slots (size i) q :=
    mem_slotsFrom.mpr ⟨k, Nat.zero_le _, by omega, rfl⟩
  have hqa := (h.page q hq).aligned
  obtain ⟨hx1, hx2, hx3, hx4⟩ := mem_slots h8 (by omega) hqa hxmem
  have ha4 := (mem_slots h8 (by omega) hqa hamem).2.2.2
  refine ⟨by rw [Nat.succ_mul]; omega, ?_, ?_, ?_⟩
  · rw [ha4, (h.header q hq).2, List.singleton_append,
      List.countP_cons_of_pos (by simp [inPage, ha4]),
      List.countP_cons_of_pos (by simp [inPage, hx4])]
    omega
  · obtain ⟨m, rfl⟩ := hqa
    unfold pageSize at *
    omega
  · refine h.take hi (List.Perm.refl _) ?_ rfl ?_ ?_ ?_
    · simpa using h.blockSize
    · intro p hp
      refine Heap.agree_setLink (s := s.setFreeList i 0) hx3
        (eight_dvd_page (h.page p hp).aligned) ?_
      exact (h.ne_page hi (by simp) (h.page p hp).aligned).symm
    · simp only [Heap.setFreeList_allocators, Heap.setFreeList_link]
      refine ⟨rfl, by omega, ?_⟩
      exact Heap.link_setLink (by norm_num)
    · right
      refine ⟨by simpa using hh, q, k + 1, [], hq, rfl, rfl⟩

/-- The only node is taken and none is left (mem.c:202-209). -/
theorem Slab.takeLast (h : Slab s i live [a] []) (hi : i < 30) :
    s.blockCount (pageBase a) = 1 ∧
    Slab ((s.setFreeList i 0).setBlockCount (pageBase a)
        ((s.setFreeList i 0).blockCount (pageBase a) + 65535)) i (a :: live) [] [] := by
  constructor
  · rw [(h.header _ (h.addr_node hi List.mem_cons_self).1).2]
    simp [inPage]
  · refine h.take hi (List.Perm.refl _) ?_ rfl (fun q _ => Heap.Agree.refl _ _) ?_ (.inl rfl)
    · simpa using h.blockSize
    · simp

/-- A new page: its first slot is taken and the second starts the list (mem.c:221-234). -/
theorem Slab.newPage (h : Slab s i live [] []) (hi : i < 30) (hq : GoodPage q)
    (hnew : q ∉ s.slabs i) :
    Slab ((((((s.setSlabs i (q :: s.slabs i)).setBlockSize q (size i)).setBlockCount q
        ((pageSize - sizeofHeader) / size i - 1)).setLink (q + 8 + size i) 0).setFreeList i
        (q + 8 + size i)).setHead i true) i
      ((q + 8) :: live) [q + 8 + 1 * size i] (slotsFrom (size i) q 2) := by
  obtain ⟨h8, hb, hb'⟩ := size_spec hi
  obtain ⟨hc2, hc⟩ := capacity_pos hb hb'
  have hq8 : 8 ∣ q := eight_dvd_page hq.aligned
  have hslots : slots (size i) q = (q + 8) :: (q + 8 + 1 * size i) :: slotsFrom (size i) q 2 := by
    rw [slots, slotsFrom_cons (by omega), slotsFrom_cons (by omega)]
    simp
  have hfit := capacity_mul_le h8
  have hmul : 2 * size i ≤ capacity (size i) * size i := Nat.mul_le_mul_right _ hc2
  have hqs : ∀ x ∈ slots (size i) q, pageBase x = q := fun x hx =>
    (mem_slots h8 (by omega) hq.aligned hx).2.2.2
  refine ⟨?_, ?_, ?_, ?_, ?_, ?_, ?_⟩
  · simpa using h.blockSize
  · simp only [Heap.setHead_allocators, Heap.setFreeList_allocators, Heap.setHead_link,
      Heap.setFreeList_link, Nat.one_mul]
    exact ⟨rfl, by omega, Heap.link_setLink (by norm_num)⟩
  · have hp : live.Perm ((s.slabs i).flatMap (slots (size i))) := by simpa using h.perm
    simp only [Heap.setHead_slabs, Heap.setFreeList_slabs, Heap.setLink_slabs,
      Heap.setBlockCount_slabs, Heap.setBlockSize_slabs, Heap.setSlabs_slabs, List.flatMap_cons,
      hslots]
    refine List.Perm.trans ?_ (hp.append_left _)
    rw [List.append_assoc, List.cons_append, List.cons_append]
    exact (List.perm_append_comm).cons _
  · simp only [Heap.setHead_slabs, Heap.setFreeList_slabs, Heap.setLink_slabs,
      Heap.setBlockCount_slabs, Heap.setBlockSize_slabs, Heap.setSlabs_slabs]
    exact List.nodup_cons.mpr ⟨hnew, h.nodup⟩
  · simp only [Heap.setHead_slabs, Heap.setFreeList_slabs, Heap.setLink_slabs,
      Heap.setBlockCount_slabs, Heap.setBlockSize_slabs, Heap.setSlabs_slabs]
    exact List.forall_mem_cons.mpr ⟨hq, h.page⟩
  · intro p hp
    simp only [Heap.setHead_slabs, Heap.setFreeList_slabs, Heap.setLink_slabs,
      Heap.setBlockCount_slabs, Heap.setBlockSize_slabs, Heap.setSlabs_slabs] at hp
    have hpa : pageSize ∣ p := by
      rcases List.mem_cons.mp hp with rfl | hp
      exacts [hq.aligned, (h.page p hp).aligned]
    have hp8 := eight_dvd_page hpa
    have hne : p ≠ q + 8 + size i := by
      have h2 := hqs (q + 8 + 1 * size i) (by simp [hslots])
      intro e
      rw [Nat.one_mul, ← e, pageBase_self hpa] at h2
      omega
    have hlink := Heap.agree_setLink
      (s := ((s.setSlabs i (q :: s.slabs i)).setBlockSize q (size i)).setBlockCount q
        ((pageSize - sizeofHeader) / size i - 1)) (v := 0) (dvd_add (dvd_add hq8 dvd_rfl) h8) hp8
      hne
    simp only [Heap.setHead_blockSize, Heap.setHead_blockCount, Heap.setFreeList_blockSize,
      Heap.setFreeList_blockCount]
    rw [hlink.blockSize, hlink.blockCount]
    rcases List.mem_cons.mp hp with rfl | hp
    · rw [Heap.blockSize_setBlockCount, Heap.blockSize_setBlockSize, Heap.blockCount_setBlockCount]
      refine ⟨by omega, ?_⟩
      have hcount : (slots (size i) p).countP (inPage p) = capacity (size i) := by
        rw [countP_slots h8 (by omega) hpa, if_pos rfl]
      have hfirst : inPage p (p + 8) = true := by simp [inPage, hqs (p + 8) (by simp [hslots])]
      rw [hslots, List.countP_cons_of_pos hfirst] at hcount
      rw [List.singleton_append]
      unfold capacity at hc hcount
      omega
    · have hpq : p ≠ q := fun e => hnew (e ▸ hp)
      have hcnt := Heap.agree_setBlockCount
        (s := (s.setSlabs i (q :: s.slabs i)).setBlockSize q (size i))
        (v := (pageSize - sizeofHeader) / size i - 1) hq8 hp8 hpq
      have hsz := Heap.agree_setBlockSize (s := s.setSlabs i (q :: s.slabs i)) (v := size i)
        hq8 hp8 hpq
      rw [hcnt.blockSize, hcnt.blockCount, hsz.blockSize, hsz.blockCount,
        Heap.setSlabs_blockSize, Heap.setSlabs_blockCount, (h.header p hp).1, (h.header p hp).2]
      refine ⟨rfl, ?_⟩
      symm
      rw [List.nil_append, List.countP_nil, List.countP_eq_zero]
      intro x hx
      have := hqs x (by rw [hslots]; exact List.mem_cons_of_mem _ hx)
      simp [inPage, this, Ne.symm hpq]
  · right
    refine ⟨by simp, q, 1, [], by simp, rfl, rfl⟩

/-- A block of the list is taken. -/
theorem Slab.takeBlock (h : Slab s i live nodes fresh) (hi : i < 30) (hn : nodes ≠ []) :
    ∃ a u nodes' fresh', s.takeBlock i = (u, a) ∧ Slab u i (a :: live) nodes' fresh' ∧ a ∈ nodes ∧
      u.slabs i = s.slabs i ∧ ClassEdit i (s.slabs i) s u := by
  have hin : ∀ x ∈ nodes, 8 ∣ x ∧ pageBase x ∈ s.slabs i := fun x hx =>
    ⟨(h.addr_node hi hx).2.1, (h.addr_node hi hx).1⟩
  cases nodes with
  | nil => exact absurd rfl hn
  | cons x rest =>
    obtain ⟨hx, hx0, hrest⟩ := h.chain
    have hxin := hin x List.mem_cons_self
    cases rest with
    | cons a rest =>
      obtain ⟨ha, ha0, -⟩ := hrest
      have hain := hin a (by simp)
      refine ⟨a, _, _, _, ?_, h.takeSecond hi, by simp, rfl,
        ((ClassEdit.refl i _ s).setLink hxin.1 hxin.2).setBlockCount hain.2⟩
      simp only [Heap.takeBlock, hx, ha, ne_eq, ha0, not_false_eq_true, if_true]
    | nil =>
      rw [seg_nil] at hrest
      cases fresh with
      | cons y fresh =>
        obtain ⟨hy, h1, h2, h3⟩ := h.takeBump hi
        have hyin := h.addr hi (a := y) (by simp)
        have hhead : (s.allocators i).head = true :=
          (h.bump.resolve_left (List.cons_ne_nil _ _)).1
        refine ⟨x, _, _, _, ?_, h3, by simp, rfl,
          ((((ClassEdit.refl i _ s).setFreeList).setLink hyin.2.1 hyin.1).setFreeList).setBlockCount
            hxin.2⟩
        subst hy
        simp only [Heap.takeBlock, hx, hrest, hhead, h.blockSize, ne_eq, not_true_eq_false,
          if_false, if_true, Heap.setFreeList_blockCount, h1, h2, and_self]
      | nil =>
        obtain ⟨h1, h2⟩ := h.takeLast hi
        refine ⟨x, _, _, _, ?_, h2, by simp, rfl,
          ((ClassEdit.refl i _ s).setFreeList).setBlockCount hxin.2⟩
        simp only [Heap.takeBlock, hx, hrest, ne_eq, not_true_eq_false, if_false,
          Heap.setFreeList_blockCount, h1, lt_irrefl, false_and, ite_self]

/-- The first block of a new page is taken. -/
theorem Slab.initPage (h : Slab s i live [] []) (hi : i < 30) (hq : GoodPage q)
    (hnew : q ∉ s.slabs i) :
    ∃ u nodes' fresh', s.initPage i q = (u, q + 8) ∧ Slab u i ((q + 8) :: live) nodes' fresh' ∧
      u.slabs i = q :: s.slabs i ∧ ClassEdit i [q] s u := by
  obtain ⟨h8, hb, hb'⟩ := size_spec hi
  have hq8 := eight_dvd_page hq.aligned
  have hround : (q + sizeofHeader + 7) / 8 * 8 = q + 8 := by
    unfold sizeofHeader
    omega
  have hnext : pageBase (q + 8 + size i) = q :=
    pageBase_eq hq.aligned (by omega) (by unfold pageSize; omega)
  have hbase : pageBase q = q := pageBase_self hq.aligned
  refine ⟨_, _, _, ?_, h.newPage hi hq hnew, by simp, ?_⟩
  · simp only [Heap.initPage, hround, h.blockSize]
  · refine ClassEdit.setHead (ClassEdit.setFreeList (ClassEdit.setLink ?_ ?_ ?_))
    · have := (((ClassEdit.refl i [q] s).setSlabs (m := q :: s.slabs i)).setBlockSize (v := size i)
        hq.aligned List.mem_cons_self).setBlockCount (a := q)
          (v := (pageSize - sizeofHeader) / size i - 1) (by rw [hbase]; exact List.mem_cons_self)
      rwa [hbase] at this
    · exact dvd_add (dvd_add hq8 dvd_rfl) h8
    · rw [hnext]
      exact List.mem_cons_self

end Slab

end ShikiOS.Kernel
