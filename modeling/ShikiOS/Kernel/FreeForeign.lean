import ShikiOS.Kernel.PageTable
import ShikiOS.Kernel.Unlink

/-!
# `kfree` of a page that is no slab (`kernel/mem.c`)

`kfree` takes the first bytes of the page of its argument for a header, whatever they are. In a page
that no allocator got, they are data. The call comes back all the same, and it changes nothing but the
page, the blocks in the lists of the allocators and free pages: its argument becomes a block of
some list, or the page becomes a free page.

Results:
* `FreeLists.put`: the argument joins a list.
* `kfree_foreign`: what a call may change.
-/

namespace ShikiOS.Kernel

open ShikiOS.Lib

variable {a i p v x y : ℕ} {s t : Heap} {l S fr : List ℕ} {ns : ℕ → List ℕ}

/-- The blocks in the lists of the allocators: their links do not overlap, and lie in the pages of
    `S`. -/
structure FreeLists (s : Heap) (ns : ℕ → List ℕ) (S : List ℕ) : Prop where
  chain : ∀ i < numAllocators, Chain s.link (s.allocators i).freeList (ns i)
  node : ∀ i < numAllocators, ∀ x ∈ ns i, pageBase x ∈ S ∧ x % pageSize + 8 ≤ pageSize ∧ x < 2 ^ 64
  apart : ∀ i < numAllocators, (ns i).Pairwise Apart
  disjoint : ∀ i < numAllocators, ∀ j < numAllocators, i ≠ j → ∀ x ∈ ns i, ∀ y ∈ ns j, Apart x y

/-- The bytes of a link that does not cross the end of its page. -/
theorem pageBase_link (hx : x % pageSize + 8 ≤ pageSize) (h1 : x ≤ y) (h2 : y < x + 8) :
    pageBase y = pageBase x := by
  unfold pageBase pageSize at *
  omega

theorem link_congr_page (hx : x % pageSize + 8 ≤ pageSize)
    (hm : ∀ y, pageBase y = pageBase x → t.mem y = s.mem y) : t.link x = s.link x :=
  getLE_congr fun y h1 h2 => hm y (pageBase_link hx h1 h2)

/-- A change outside of the lists. -/
theorem FreeLists.frame (h : FreeLists s ns S)
    (ha : ∀ i < numAllocators, (t.allocators i).freeList = (s.allocators i).freeList)
    (hm : ∀ y, pageBase y ∈ S → t.mem y = s.mem y) : FreeLists t ns S := by
  refine ⟨fun i hi => ?_, h.node, h.apart, h.disjoint⟩
  rw [ha i hi]
  refine (h.chain i hi).congr fun x hx => ?_
  obtain ⟨hS, hx8, -⟩ := h.node i hi x hx
  exact link_congr_page hx8 fun y hy => hm y (by rwa [hy])

/-- The list of allocator `i` becomes `l`. -/
theorem FreeLists.relist {S' : List ℕ} (h : FreeLists s ns S) (hi : i < numAllocators)
    (hsub : ∀ q ∈ S, q ∈ S')
    (hchain : Chain t.link (t.allocators i).freeList l)
    (hother : ∀ j < numAllocators, j ≠ i → (t.allocators j).freeList = (s.allocators j).freeList ∧
      ∀ x ∈ ns j, t.link x = s.link x)
    (hnode : ∀ x ∈ l, pageBase x ∈ S' ∧ x % pageSize + 8 ≤ pageSize ∧ x < 2 ^ 64)
    (hap : l.Pairwise Apart)
    (hdis : ∀ j < numAllocators, j ≠ i → ∀ x ∈ l, ∀ y ∈ ns j, Apart x y) :
    FreeLists t (Function.update ns i l) S' := by
  refine ⟨fun j hj => ?_, fun j hj => ?_, fun j hj => ?_, fun j hj k hk hjk => ?_⟩
  · by_cases hji : j = i
    · subst hji
      rwa [Function.update_self]
    · rw [Function.update_of_ne hji, (hother j hj hji).1]
      exact (h.chain j hj).congr (hother j hj hji).2
  · by_cases hji : j = i
    · subst hji
      rwa [Function.update_self]
    · rw [Function.update_of_ne hji]
      exact fun x hx => (h.node j hj x hx).imp_left (hsub _)
  · by_cases hji : j = i
    · subst hji
      rwa [Function.update_self]
    · rw [Function.update_of_ne hji]
      exact h.apart j hj
  · by_cases hji : j = i
    · subst hji
      rw [Function.update_self, Function.update_of_ne hjk.symm]
      exact hdis k hk hjk.symm
    · rw [Function.update_of_ne hji]
      by_cases hki : k = i
      · subst hki
        rw [Function.update_self]
        exact fun x hx y hy => (hdis j hj hji y hy x hx).symm
      · rw [Function.update_of_ne hki]
        exact h.disjoint j hj k hk hjk

/-! ## The block joins a list -/

/-- Where the argument stands in the list afterwards. -/
def insertBlock (a : ℕ) : List ℕ → List ℕ
  | [] => [a]
  | x :: rest => x :: a :: rest

theorem mem_insertBlock : x ∈ insertBlock a l ↔ x = a ∨ x ∈ l := by
  cases l with
  | nil => simp [insertBlock]
  | cons b rest =>
    rw [insertBlock, List.mem_cons, List.mem_cons, List.mem_cons]
    exact or_left_comm

theorem insertBlock_apart (ha : ∀ x ∈ l, Apart a x) (hl : l.Pairwise Apart) :
    (insertBlock a l).Pairwise Apart := by
  cases l with
  | nil => exact List.pairwise_singleton _ _
  | cons b rest =>
    obtain ⟨hb, hr⟩ := List.pairwise_cons.mp hl
    refine List.pairwise_cons.mpr ⟨List.forall_mem_cons.mpr ⟨?_, hb⟩, List.pairwise_cons.mpr ⟨?_, hr⟩⟩
    · exact (ha b List.mem_cons_self).symm
    · exact fun x hx => ha x (List.mem_cons_of_mem b hx)

/-- Without the nodes of the page of `a` the list is as before. -/
theorem filter_insertBlock (hl : ∀ x ∈ l, pageBase x ≠ pageBase a) :
    (insertBlock a l).filter (fun x => !inPage (pageBase a) x) = l := by
  have hkeep : ∀ l' : List ℕ, (∀ x ∈ l', pageBase x ≠ pageBase a) →
      l'.filter (fun x => !inPage (pageBase a) x) = l' := fun l' h =>
    List.filter_eq_self.mpr fun x hx => by simp [inPage, h x hx]
  cases l with
  | nil => simp [insertBlock, inPage]
  | cons b rest =>
    rw [insertBlock, List.filter_cons_of_pos (by simp [inPage, hl b List.mem_cons_self]),
      List.filter_cons_of_neg (by simp [inPage]),
      hkeep rest fun x hx => hl x (List.mem_cons_of_mem b hx)]

/-- An argument of `kfree` in a page that is not in `S`. -/
structure Foreign (S : List ℕ) (a : ℕ) : Prop where
  page : GoodPage (pageBase a)
  notMem : pageBase a ∉ S
  header : 4 ≤ a % pageSize
  fits : a % pageSize + 8 ≤ pageSize

theorem Foreign.ne_zero (h : Foreign S a) : a ≠ 0 := by
  rintro rfl
  exact absurd h.header (by decide)

theorem Foreign.lt (h : Foreign S a) : a < 2 ^ 64 := by
  have h1 := h.page.le
  have h2 := h.fits
  unfold pageBase pageSize at *
  omega

/-- The blocks of the lists are apart from it. -/
theorem Foreign.apart (h : Foreign S a) (hl : FreeLists s ns S) (hi : i < numAllocators)
    (hx : x ∈ ns i) : Apart a x := by
  obtain ⟨hS, hx8, -⟩ := hl.node i hi x hx
  have hne : pageBase x ≠ pageBase a := fun he => h.notMem (he ▸ hS)
  have h8 := h.fits
  unfold Apart
  unfold pageBase pageSize at *
  omega

/-- Bytes in other pages. -/
theorem putBlock_mem (hl : FreeLists s ns S) (hi : i < numAllocators) (ha : Foreign S a)
    (hy : pageBase y ≠ pageBase a) (hnode : ∀ x ∈ ns i, y < x ∨ x + 8 ≤ y) :
    (s.putBlock i (pageBase a) a).mem y = s.mem y := by
  have hout : ∀ k, k + 8 ≤ pageSize → y < pageBase a + k ∨ pageBase a + k + 8 ≤ y := by
    intro k hk
    by_contra hcon
    refine hy (pageBase_eq ha.page.aligned ?_ ?_)
    · omega
    · omega
  have hcount : ∀ u : Heap, ∀ v, (u.setBlockCount (pageBase a) v).mem y = u.mem y := fun u v =>
    putLE_outside _ (by have := hout 0 (by decide); omega)
  have hlink : ∀ u : Heap, ∀ v, (u.setLink a v).mem y = u.mem y := fun u v => by
    refine putLE_outside _ ?_
    have := hout (a % pageSize) ha.fits
    unfold pageBase pageSize at this
    omega
  have hchain := hl.chain i hi
  cases hns : ns i with
  | nil =>
    rw [hns, chain_nil] at hchain
    rw [Heap.putBlock, if_neg (not_not.mpr hchain)]
    dsimp only
    rw [hcount, Heap.setFreeList_mem, hlink, Heap.setHead_mem]
  | cons x rest =>
    rw [hns] at hchain hnode
    obtain ⟨rfl, h0, -⟩ := hchain
    rw [Heap.putBlock, if_pos h0]
    dsimp only
    rw [hcount]
    exact (putLE_outside _ (hnode _ List.mem_cons_self)).trans (hlink s _)

/-- What `putBlock` leaves of the allocators. -/
theorem putBlock_fields (i p a : ℕ) (s : Heap) :
    (s.putBlock i p a).memLock = s.memLock ∧ (s.putBlock i p a).pageLock = s.pageLock ∧
      (s.putBlock i p a).freePages = s.freePages ∧
      ∀ j ≠ i, ((s.putBlock i p a).allocators j).freeList = (s.allocators j).freeList := by
  rw [Heap.putBlock]
  dsimp only
  split_ifs with h0
  · exact ⟨rfl, rfl, rfl, fun j _ => rfl⟩
  · refine ⟨rfl, rfl, rfl, fun j hj => ?_⟩
    rw [Heap.setBlockCount_allocators, Heap.setFreeList_allocators_of_ne hj, Heap.setLink_allocators,
      Heap.setHead_allocators_of_ne hj]

/-- The argument joins a list. -/
theorem FreeLists.put (h : FreeLists s ns S) (hi : i < numAllocators) (ha : Foreign S a) :
    FreeLists (s.putBlock i (pageBase a) a) (Function.update ns i (insertBlock a (ns i)))
      (pageBase a :: S) := by
  obtain ⟨-, -, -, hlists⟩ := putBlock_fields i (pageBase a) a s
  have hap : ∀ j < numAllocators, ∀ x ∈ ns j, Apart a x := fun j hj x hx => ha.apart h hj hx
  have hpage : ∀ j < numAllocators, ∀ x ∈ ns j, ∀ y, x ≤ y → y < x + 8 →
      pageBase y ≠ pageBase a := by
    intro j hj x hx y h1 h2 he
    obtain ⟨hS, hx8, -⟩ := h.node j hj x hx
    exact ha.notMem (by rwa [← he, pageBase_link hx8 h1 h2])
  -- The header is apart from the links.
  have hcount : ∀ (u : Heap) (v x : ℕ), (x + 8 ≤ pageBase a + 2 ∨ pageBase a + 4 ≤ x) →
      (u.setBlockCount (pageBase a) v).link x = u.link x := fun u v x hx =>
    getLE_putLE_of_disjoint _ (by omega)
  have hheader : ∀ x, x = a ∨ x ∈ ns i → x + 8 ≤ pageBase a + 2 ∨ pageBase a + 4 ≤ x := by
    rintro x (rfl | hx)
    · have := ha.header
      unfold pageBase pageSize at *
      omega
    · obtain ⟨hS, hx8, -⟩ := h.node i hi x hx
      have hne : pageBase x ≠ pageBase a := fun he => ha.notMem (he ▸ hS)
      unfold pageBase pageSize at *
      omega
  refine h.relist hi (fun q hq => List.mem_cons_of_mem _ hq) ?_
    (fun j hj hji => ⟨hlists j hji, fun x hx => ?_⟩) ?_
    (insertBlock_apart (hap i hi) (h.apart i hi)) (fun j hj hji x hx y hy => ?_)
  · have hchain := h.chain i hi
    have hap' := h.apart i hi
    cases hns : ns i with
    | nil =>
      rw [hns, chain_nil] at hchain
      rw [Heap.putBlock, if_neg (not_not.mpr hchain)]
      refine ⟨?_, ha.ne_zero, ?_⟩
      · rw [Heap.setBlockCount_allocators, Heap.setFreeList_allocators]
      · refine (hcount _ _ a (hheader a (.inl rfl))).trans ?_
        rw [Heap.setFreeList_link, hchain]
        exact Heap.link_setLink (by norm_num)
    | cons x rest =>
      rw [hns] at hchain hap'
      obtain ⟨rfl, h0, hr⟩ := hchain
      obtain ⟨hxr, -⟩ := List.pairwise_cons.mp hap'
      have hmemx : (s.allocators i).freeList ∈ ns i := by
        rw [hns]
        exact List.mem_cons_self
      have hax := hap i hi _ hmemx
      rw [Heap.putBlock, if_pos h0]
      refine ⟨rfl, h0, ?_⟩
      rw [hcount _ _ _ (hheader _ (.inr hmemx)), Heap.link_setLink ha.lt]
      refine ⟨rfl, ha.ne_zero, ?_⟩
      rw [hcount _ _ _ (hheader a (.inl rfl)), link_setLink_of_apart hax.symm,
        Heap.link_setLink (getLE_lt _ _ _)]
      refine hr.congr fun y hy => ?_
      have hyn : y ∈ ns i := by
        rw [hns]
        exact List.mem_cons_of_mem _ hy
      rw [hcount _ _ _ (hheader y (.inr hyn)), link_setLink_of_apart (hxr y hy),
        link_setLink_of_apart (hap i hi y hyn)]
  · refine getLE_congr fun y h1 h2 => putBlock_mem h hi ha (hpage j hj x hx y h1 h2) fun z hz => ?_
    have := h.disjoint j hj i hi hji x hx z hz
    unfold Apart at this
    omega
  · intro x hx
    rcases mem_insertBlock.mp hx with rfl | hx
    · exact ⟨List.mem_cons_self, ha.fits, ha.lt⟩
    · exact (h.node i hi x hx).imp_left (List.mem_cons_of_mem _)
  · rcases mem_insertBlock.mp hx with rfl | hx
    · exact hap j hj y hy
    · exact h.disjoint i hi j hj hji.symm x hx y hy

/-! ## The call -/

theorem indexLoop_lt (blockSize : ℕ → ℕ) (n k i : ℕ) : Heap.indexLoop blockSize n k i ≤ i + k := by
  induction k generalizing i with
  | zero => exact le_rfl
  | succ k ih =>
    rw [Heap.indexLoop]
    split_ifs with hlt
    · have := ih (i + 1)
      omega
    · omega

theorem getAllocatorIndex_lt (s : Heap) (n : ℕ) : s.getAllocatorIndex n < numAllocators := by
  have h := indexLoop_lt (fun i => (s.allocators i).blockSize) n (numAllocators - 1) 0
  rw [Nat.zero_add] at h
  exact h.trans_lt (by decide)

/-- A list has fewer nodes than there are addresses. -/
theorem FreeLists.length_lt (h : FreeLists s ns S) (hi : i < numAllocators) :
    (ns i).length < 2 ^ 64 + 1 := by
  have hsub : (ns i).toFinset ⊆ Finset.range (2 ^ 64) := by
    intro x hx
    rw [List.mem_toFinset] at hx
    exact Finset.mem_range.mpr (h.node i hi x hx).2.2
  have hcard := Finset.card_le_card hsub
  rw [List.toFinset_card_of_nodup (nodup_of_apart (h.apart i hi)), Finset.card_range] at hcard
  omega

/-- What a call with the argument `a` may leave: the page of `a` is free, or one of those with blocks
    in lists. -/
structure FreedForeign (s : Heap) (S fr : List ℕ) (a : ℕ) (t : Heap) (ns' : ℕ → List ℕ)
    (S' fr' : List ℕ) : Prop where
  lists : FreeLists t ns' S'
  pages : FreePages t fr'
  memLock : t.memLock = s.memLock
  pageUnlocked : t.pageLock = false
  disjoint : ∀ q ∈ S', q ∉ fr'
  listed : ∀ q ∈ S', q = pageBase a ∨ q ∈ S
  free : ∀ q ∈ fr', q = pageBase a ∨ q ∈ fr
  mem : ∀ y, pageBase y ≠ pageBase a → pageBase y ∉ S → pageBase y ∉ fr → t.mem y = s.mem y

/-- Bytes outside of the page of `a` and of the pages of the lists are not in blocks. -/
theorem FreeLists.outside (h : FreeLists s ns S) (hi : i < numAllocators) (hy : pageBase y ∉ S)
    (hx : x ∈ ns i) : y < x ∨ x + 8 ≤ y := by
  obtain ⟨hS, hx8, -⟩ := h.node i hi x hx
  by_contra hcon
  refine hy ?_
  rw [pageBase_link hx8 (by omega) (by omega)]
  exact hS

/-- The block stays in its list. -/
theorem FreedForeign.of_put (hl : FreeLists s ns S) (hf : FreePages s fr) (hp : s.pageLock = false)
    (hSf : ∀ q ∈ S, q ∉ fr) (hi : i < numAllocators) (ha : Foreign S a) (hfr : pageBase a ∉ fr) :
    FreedForeign s S fr a (s.putBlock i (pageBase a) a)
      (Function.update ns i (insertBlock a (ns i))) (pageBase a :: S) fr := by
  obtain ⟨hmem, hpage, hfree, -⟩ := putBlock_fields i (pageBase a) a s
  have hkeep : ∀ y, pageBase y ≠ pageBase a → pageBase y ∉ S →
      (s.putBlock i (pageBase a) a).mem y = s.mem y := fun y h1 h2 =>
    putBlock_mem hl hi ha h1 fun x hx => hl.outside hi h2 hx
  refine ⟨hl.put hi ha, ?_, hmem, hpage.trans hp, ?_, ?_, fun q hq => .inr hq,
    fun y h1 h2 _ => hkeep y h1 h2⟩
  · refine hf.frame hfree fun q hq y h1 h2 => hkeep y ?_ ?_
    · rw [pageBase_eq (hf.page q hq).aligned h1 (by unfold pageSize; omega)]
      exact fun he => hfr (he ▸ hq)
    · rw [pageBase_eq (hf.page q hq).aligned h1 (by unfold pageSize; omega)]
      exact fun hS => hSf q hS hq
  · intro q hq
    rcases List.mem_cons.mp hq with rfl | hq
    · exact hfr
    · exact hSf q hq
  · intro q hq
    exact List.mem_cons.mp hq

/-- The block goes out of its list again, and its page becomes a free page. -/
theorem freeListed (hl : FreeLists s ns S) (hf : FreePages s fr) (hp : s.pageLock = false)
    (hSf : ∀ q ∈ S, q ∉ fr) (hi : i < numAllocators) (ha : Foreign S a) (hfr : pageBase a ∉ fr) :
    ∃ u t, Heap.unlinkLoop i (pageBase a) (2 ^ 64 + 1) (s.putBlock i (pageBase a) a) 0
        ((s.putBlock i (pageBase a) a).allocators i).freeList = some u ∧
      (u.setSlabs i ((u.slabs i).erase (pageBase a))).kfreePage (pageBase a) = some t ∧
      FreedForeign s S fr a t ns S (pageBase a :: fr) := by
  have hput := FreedForeign.of_put hl hf hp hSf hi ha hfr
  have hchain := hput.lists.chain i hi
  have hap := hput.lists.apart i hi
  have hlen := hput.lists.length_lt hi
  rw [Function.update_self] at hchain hap hlen
  obtain ⟨u, hu, hchainu, hedit⟩ := unlinkLoop_apart (pageBase a) [] hlen rfl hchain hap (.inl ⟨rfl, rfl⟩)
  have hne : ∀ j < numAllocators, ∀ x ∈ ns j, pageBase x ≠ pageBase a := fun j hj x hx he =>
    ha.notMem (he ▸ (hl.node j hj x hx).1)
  rw [List.nil_append, filter_insertBlock (hne i hi)] at hchainu
  obtain ⟨f, hf'⟩ := hedit.eq
  have hlock : u.pageLock = false := by
    rw [hf']
    exact hput.pageUnlocked
  have hmlock : u.memLock = s.memLock := by
    rw [hf']
    exact hput.memLock
  have hother : ∀ j ≠ i, (u.allocators j).freeList = (s.allocators j).freeList := by
    intro j hj
    rw [hf']
    show ((Heap.setFreeList _ i f).allocators j).freeList = _
    rw [Heap.setFreeList_allocators_of_ne hj]
    exact (putBlock_fields i (pageBase a) a s).2.2.2 j hj
  -- What the walk leaves as it is.
  have hkeep : ∀ y, pageBase y ≠ pageBase a → (∀ x ∈ ns i, y < x ∨ x + 8 ≤ y) →
      u.mem y = s.mem y := by
    intro y h1 h2
    refine (hedit.mem y fun x hx => ?_).trans (putBlock_mem hl hi ha h1 h2)
    rcases mem_insertBlock.mp hx with rfl | hx
    · by_contra hcon
      exact h1 (pageBase_link ha.fits (by omega) (by omega))
    · exact h2 x hx
  have hpages : FreePages u fr := by
    refine hf.frame ?_ fun q hq y h1 h2 => ?_
    · rw [hf']
      exact (putBlock_fields i (pageBase a) a s).2.2.1
    · have hbase : pageBase y = q :=
        pageBase_eq (hf.page q hq).aligned h1 (by unfold pageSize; omega)
      refine hkeep y ?_ fun x hx => hl.outside hi ?_ hx
      · rw [hbase]
        exact fun he => hfr (he ▸ hq)
      · rw [hbase]
        exact fun hS => hSf q hS hq
  obtain ⟨t, ht, htpages, htedit, htlock, -⟩ := kfreePage_spec
    (s := u.setSlabs i ((u.slabs i).erase (pageBase a)))
    ⟨hpages.chain, hpages.page, hpages.nodup⟩ hlock ha.page hfr
  have htmem : ∀ y, pageBase y ∉ pageBase a :: fr → t.mem y = u.mem y := fun y hy =>
    Paging.mem_of_pageEdit htedit hy
  have hout : ∀ y, pageBase y ∈ S → pageBase y ∉ pageBase a :: fr := by
    intro y hS hy
    rcases List.mem_cons.mp hy with he | hy
    · exact ha.notMem (he ▸ hS)
    · exact hSf _ hS hy
  have hlinks : ∀ j < numAllocators, ∀ x ∈ ns j, t.link x = u.link x := by
    intro j hj x hx
    obtain ⟨hS, hx8, -⟩ := hl.node j hj x hx
    exact link_congr_page hx8 fun y hy => htmem y (hout y (by rwa [hy]))
  refine ⟨u, t, hu, ht, ?_, htpages, htedit.memLock.trans hmlock, htlock, fun q hS hq => ?_,
    fun q hq => .inr hq, fun q hq => List.mem_cons.mp hq, fun y h1 h2 h3 => ?_⟩
  · rw [← Function.update_eq_self i ns]
    refine hl.relist hi (fun q hq => hq) ?_ (fun j hj hji => ⟨?_, fun x hx => ?_⟩) (hl.node i hi)
      (hl.apart i hi) fun j hj hji => hl.disjoint i hi j hj hji.symm
    · rw [htedit.allocators]
      exact hchainu.congr (hlinks i hi)
    · rw [htedit.allocators]
      exact hother j hji
    · obtain ⟨hS, hx8, -⟩ := hl.node j hj x hx
      rw [hlinks j hj x hx]
      refine getLE_congr fun y h1 h2 => hkeep y ?_ fun z hz => ?_
      · rw [pageBase_link hx8 h1 h2]
        exact hne j hj x hx
      · have := hl.disjoint j hj i hi hji x hx z hz
        unfold Apart at this
        omega
  · rcases List.mem_cons.mp hq with rfl | hq
    · exact ha.notMem hS
    · exact hSf q hS hq
  · rw [htmem y (by rw [List.mem_cons, not_or]; exact ⟨h1, h3⟩)]
    exact hkeep y h1 fun x hx => hl.outside hi h2 hx

/-- The lock is given back. -/
theorem FreedForeign.release {ns' : ℕ → List ℕ} {S' fr' : List ℕ} (hm : s.memLock = false)
    (h : FreedForeign { s with memLock := true } S fr a t ns' S' fr') :
    FreedForeign s S fr a t.releaseMem ns' S' fr' :=
  ⟨⟨h.lists.chain, h.lists.node, h.lists.apart, h.lists.disjoint⟩,
    ⟨h.pages.chain, h.pages.page, h.pages.nodup⟩, hm.symm, h.pageUnlocked, h.disjoint, h.listed, h.free,
    h.mem⟩

/-- Whatever the page of the argument holds, the call comes back. -/
theorem kfree_foreign (hl : FreeLists s ns S) (hf : FreePages s fr) (hm : s.memLock = false)
    (hp : s.pageLock = false) (hSf : ∀ q ∈ S, q ∉ fr) (ha : Foreign S a) (hfr : pageBase a ∉ fr) :
    ∃ t ns' S' fr', s.kfree a = some t ∧ FreedForeign s S fr a t ns' S' fr' := by
  have hl₁ : FreeLists { s with memLock := true } ns S := ⟨hl.chain, hl.node, hl.apart, hl.disjoint⟩
  have hf₁ : FreePages { s with memLock := true } fr := ⟨hf.chain, hf.page, hf.nodup⟩
  rw [Heap.kfree, if_neg ha.ne_zero, Heap.acquireMem, hm]
  simp only [Bool.false_eq_true, if_false, Option.bind_eq_bind, Option.bind_some]
  obtain ⟨i, hi⟩ : ∃ i, i = Heap.getAllocatorIndex { s with memLock := true }
      (Heap.blockSize { s with memLock := true } (pageBase a)) := ⟨_, rfl⟩
  have hi31 : i < numAllocators := hi ▸ getAllocatorIndex_lt _ _
  rw [← hi]
  split_ifs with hbig hcount
  · refine ⟨_, ns, S, fr, rfl, .release hm ⟨hl₁, hf₁, rfl, hp, hSf, fun q hq => .inr hq,
      fun q hq => .inr hq, fun y _ _ _ => rfl⟩⟩
  · obtain ⟨u, t, hu, ht, hfreed⟩ := freeListed hl₁ hf₁ hp hSf hi31 ha hfr
    rw [hu]
    simp only [Option.bind_some, ht]
    exact ⟨_, _, _, _, rfl, hfreed.release hm⟩
  · exact ⟨_, _, _, _, rfl, (FreedForeign.of_put hl₁ hf₁ hp hSf hi31 ha hfr).release hm⟩

end ShikiOS.Kernel
