import ShikiOS.Kernel.KallocRun

/-!
# The largest size class (`kernel/mem.c`)

Requests of 2041 to 4080 bytes go to the last allocator. A page has room for one such block
behind its header, but `kalloc` puts the address behind that block into the free list all the
same, and `kfree` returns at once for a block of this size. The runs here are those of `kalloc`
for such sizes, `kfree` of such blocks, and stores of the callers into them.

Results:
* `large_blocks`: what is wanted holds exactly as long as no second block is asked for and none
  is given back.
* `large_blocks_fail`: the two runs that break it.
-/

namespace ShikiOS.Kernel.Kalloc.Large

open ShikiOS.Lib

variable {s t : State} {a : Action} {q n m p : ℕ} {h : Heap} {endAddr : ℕ}

/-- `kalloc` for the sizes of the last allocator, `kfree` of what it returned, and stores into
    it. -/
def Enabled (s : State) : Action → Prop
  | .kalloc n => 2040 < n ∧ n ≤ 4080
  | .kfree p => p = 0 ∨ ∃ b ∈ s.live, b.1 = p
  | .write a _ => ∃ b ∈ s.live, b.1 ≤ a ∧ a < b.1 + blockLen b.2
  | .kallocPage | .kfreePage _ => False

instance (s : State) : ∀ a, Decidable (Enabled s a)
  | .kalloc n => inferInstanceAs (Decidable (2040 < n ∧ n ≤ 4080))
  | .kfree p => inferInstanceAs (Decidable (p = 0 ∨ ∃ b ∈ s.live, b.1 = p))
  | .write a _ => inferInstanceAs (Decidable (∃ b ∈ s.live, b.1 ≤ a ∧ a < b.1 + blockLen b.2))
  | .kallocPage | .kfreePage _ => inferInstanceAs (Decidable False)

/-- Every block lies in its page behind the header, the blocks are disjoint, no counter is above
    what the page can hold, and without blocks there are no pages. -/
structure Sound (s : State) : Prop where
  inPage : ∀ b ∈ s.live, pageBase b.1 + sizeofHeader ≤ b.1 ∧ b.2 ≤ blockLen b.2 ∧
    b.1 + blockLen b.2 ≤ pageBase b.1 + pageSize
  apart : s.live.Pairwise fun b c => Apart b.1 (blockLen b.2) c.1 (blockLen c.2)
  count : ∀ q ∈ s.heap.slabs 30, s.heap.blockCount q ≤ capacity (s.heap.blockSize q)
  returned : s.live = [] → s.heap.slabs 30 = []

/-- The list of the allocator is empty when `kalloc` is called, and no block is given back. -/
def Fine (s : State) : Action → Prop
  | .kalloc _ => (s.heap.allocators 30).freeList = 0
  | .kfree p => p = 0
  | _ => True

instance (s : State) : ∀ a, Decidable (Fine s a)
  | .kalloc _ => inferInstanceAs (Decidable (_ = _))
  | .kfree _ => inferInstanceAs (Decidable (_ = _))
  | .write _ _ | .kallocPage | .kfreePage _ => inferInstanceAs (Decidable True)

/-! ## The states of a run -/

/-- No block is in use. -/
structure NoBlock (s : State) : Prop where
  live : s.live = []
  slabs : s.heap.slabs 30 = []
  allocators : s.heap.allocators = fun i => ⟨size i, 0, false⟩
  free : ∃ fr, FreePages s.heap fr
  memLock : s.heap.memLock = false

/-- The block of the page `q` is in use, and the end of the page is in the free list. -/
structure OneBlock (q n : ℕ) (s : State) : Prop where
  live : s.live = [(q + 8, n)]
  class_eq : classOf n = 30
  slabs : s.heap.slabs 30 = [q]
  page : GoodPage q
  size_eq : ∀ i < 31, (s.heap.allocators i).blockSize = size i
  list : s.heap.allocators 30 = ⟨size 30, q + 8 + size 30, true⟩
  blockSize : s.heap.blockSize q = 4080
  blockCount : s.heap.blockCount q = 0
  last : s.heap.link (q + 8 + size 30) = 0
  memLock : s.heap.memLock = false

theorem classOf_large (h1 : 2040 < n) (h2 : n ≤ 4080) : classOf n = 30 := by
  have hsmall : ∀ i < 30, size i ≤ 2040 := by decide
  obtain ⟨h3, h4⟩ := indexLoop_spec (f := size) (n := n) (k := numAllocators - 1) (Nat.zero_le 30)
    (by decide) (show n ≤ size 30 from h2)
  by_contra hne
  have hlt : classOf n < 30 := lt_of_le_of_ne h4 hne
  have := hsmall _ hlt
  have : n ≤ size (classOf n) := h3
  omega

theorem size_30 : size 30 = 4080 := rfl

theorem OneBlock.pageBase_live (h : OneBlock q n s) : pageBase (q + 8) = q :=
  pageBase_add_eight h.page.aligned

theorem OneBlock.pageBase_end (h : OneBlock q n s) : pageBase (q + 8 + size 30) = q :=
  pageBase_eq h.page.aligned (by omega) (by rw [size_30]; unfold pageSize; omega)

/-- One block is as wanted. -/
theorem OneBlock.sound (h : OneBlock q n s) (hn : n ≤ 4080) : Sound s := by
  have hlen : blockLen n = 4080 := by rw [blockLen, h.class_eq]; rfl
  constructor
  · intro b hb
    rw [h.live] at hb
    obtain rfl := List.mem_singleton.mp hb
    show pageBase (q + 8) + sizeofHeader ≤ q + 8 ∧ n ≤ blockLen n ∧
      q + 8 + blockLen n ≤ pageBase (q + 8) + pageSize
    rw [h.pageBase_live, hlen]
    unfold sizeofHeader pageSize
    omega
  · rw [h.live]
    exact List.pairwise_singleton _ _
  · intro r hr
    rw [h.slabs] at hr
    obtain rfl := List.mem_singleton.mp hr
    rw [h.blockCount]
    exact Nat.zero_le _
  · rw [h.live]
    intro hnil
    cases hnil

theorem NoBlock.sound (h : NoBlock s) : Sound s := by
  constructor
  · simp [h.live]
  · simp [h.live]
  · simp [h.slabs]
  · exact fun _ => h.slabs

/-! ## The calls -/

/-- The state in which the calls work. -/
def locked (h : Heap) : Heap := { h with memLock := true }

theorem acquireMem_eq (hm : h.memLock = false) : h.acquireMem = some (locked h) := by
  simp [Heap.acquireMem, hm, locked]

/-- `kalloc` of a large block while the list is empty. -/
theorem kalloc_page (hm : h.memLock = false) (hsize : ∀ i < 31, (h.allocators i).blockSize = size i)
    (hn : classOf n = 30) (h0 : (h.allocators 30).freeList = 0) :
    h.kalloc n = (locked h).kallocPage.map fun r =>
      if r.2 = 0 then (r.1.releaseMem, 0)
      else ((r.1.initPage 30 r.2).1.releaseMem, (r.1.initPage 30 r.2).2) := by
  have hindex : (locked h).getAllocatorIndex n = 30 := (getAllocatorIndex_eq (s := locked h) hsize n).trans hn
  have hlist : ((locked h).allocators 30).freeList = 0 := h0
  simp only [Heap.kalloc, acquireMem_eq hm, Option.bind_eq_bind, Option.bind_some, hindex, hlist,
    ne_eq, not_true_eq_false, if_false]
  cases (locked h).kallocPage with
  | none => rfl
  | some r =>
    simp only [Option.bind_some, Option.map_some]
    split_ifs <;> rfl

/-- The header and the end of a page of the last allocator. -/
theorem initPage_large {u : Heap} (hq : GoodPage q) (ha : u.allocators = fun i => ⟨size i, 0, false⟩)
    (hsl : u.slabs 30 = []) : ∃ v, u.initPage 30 q = (v, q + 8) ∧ v.slabs 30 = [q] ∧
      (∀ i < 31, (v.allocators i).blockSize = size i) ∧
      v.allocators 30 = ⟨size 30, q + 8 + size 30, true⟩ ∧ v.blockSize q = 4080 ∧
      v.blockCount q = 0 ∧ v.link (q + 8 + size 30) = 0 := by
  have hq8 := eight_dvd_page hq.aligned
  have hround : (q + sizeofHeader + 7) / 8 * 8 = q + 8 := by
    unfold sizeofHeader
    omega
  have hend : 8 ∣ q + 8 + size 30 := dvd_add (dvd_add hq8 dvd_rfl) (by decide)
  have hne : q ≠ q + 8 + size 30 := by omega
  have hagree : ∀ w : Heap, Heap.Agree w (w.setLink (q + 8 + size 30) 0) q := fun w =>
    Heap.agree_setLink hend hq8 hne
  simp only [Heap.initPage, hround, ha]
  refine ⟨_, rfl, ?_, fun i _ => ?_, ?_, ?_, ?_, ?_⟩
  · simp [hsl]
  · by_cases hi : i = 30
    · subst hi
      simp [ha]
    · rw [Heap.setHead_allocators_of_ne hi, Heap.setFreeList_allocators_of_ne hi]
      simp [ha]
  · simp [ha]
  · simp only [Heap.setHead_blockSize, Heap.setFreeList_blockSize]
    rw [(hagree _).blockSize, Heap.blockSize_setBlockCount, Heap.blockSize_setBlockSize]
    rfl
  · simp only [Heap.setHead_blockCount, Heap.setFreeList_blockCount]
    rw [(hagree _).blockCount, Heap.blockCount_setBlockCount]
    rfl
  · simp only [Heap.setHead_link, Heap.setFreeList_link]
    exact Heap.link_setLink (by norm_num)

/-- `kalloc` while no block is in use finds no page, or takes one. -/
theorem NoBlock.kalloc (h : NoBlock s) (h1 : 2040 < n) (h2 : n ≤ 4080)
    (hs : next s (.kalloc n) = some t) : NoBlock t ∨ ∃ q, OneBlock q n t := by
  obtain ⟨fr, hfr⟩ := h.free
  have hclass := classOf_large h1 h2
  have hsize : ∀ i < 31, (s.heap.allocators i).blockSize = size i := by simp [h.allocators]
  have hfr' : FreePages (locked s.heap) fr := hfr.frame rfl fun c _ => Heap.agree_of_mem rfl c
  rw [next, kalloc_page h.memLock hsize hclass (by simp [h.allocators]), Option.map_map] at hs
  cases hl : s.heap.pageLock with
  | true =>
    have hnone : (locked s.heap).kallocPage = none := by
      simp [Heap.kallocPage, Heap.acquirePage, locked, hl]
    rw [hnone] at hs
    cases hs
  | false =>
    cases fr with
    | nil =>
      rw [kallocPage_nil hfr' hl] at hs
      cases hs
      left
      refine ⟨h.live, h.slabs, h.allocators, ⟨[], ?_⟩, rfl⟩
      exact hfr.frame rfl fun c _ => Heap.agree_of_mem rfl c
    | cons q fr =>
      obtain ⟨u, hu, -, hedit, -, -⟩ := kallocPage_cons hfr' hl
      have hq := hfr.page q List.mem_cons_self
      obtain ⟨v, hv, hsl, hsz, hlist, hbs, hbc, hlast⟩ := initPage_large hq
        (hedit.allocators.trans h.allocators) ((congrFun hedit.slabs 30).trans h.slabs)
      rw [hu] at hs
      simp only [Option.map_some, Function.comp_apply, if_neg hq.ne_zero, hv] at hs
      rw [if_neg (by omega)] at hs
      cases hs
      exact .inr ⟨q, by rw [h.live], hclass, hsl, hq, hsz, hlist, hbs, hbc, hlast, rfl⟩

/-- A store into the block changes neither the header nor the end of the page. -/
theorem OneBlock.write (h : OneBlock q n s) {x : ℕ} {b : UInt8} (h1 : q + 8 ≤ x)
    (h2 : x < q + 8 + size 30) (hs : next s (.write x b) = some t) : OneBlock q n t := by
  cases hs
  have hagree : ∀ c, c = q ∨ c = q + 8 + size 30 → Heap.Agree s.heap
      { s.heap with mem := Function.update s.heap.mem x b } c := by
    intro c hc y hy1 hy2
    exact Function.update_of_ne (by omega) _ _
  exact ⟨h.live, h.class_eq, h.slabs, h.page, h.size_eq, h.list,
    (hagree q (.inl rfl)).blockSize.trans h.blockSize,
    (hagree q (.inl rfl)).blockCount.trans h.blockCount,
    (hagree _ (.inr rfl)).link.trans h.last, h.memLock⟩

/-- A second `kalloc` returns the end of the page and makes the counter wrap. -/
theorem OneBlock.kalloc (h : OneBlock q n s) (hm : classOf m = 30) :
    ∃ v, s.heap.kalloc m = some (v, q + 8 + size 30) ∧ v.blockCount q = 65535 := by
  have hindex : (locked s.heap).getAllocatorIndex m = 30 :=
    (getAllocatorIndex_eq (s := locked s.heap) h.size_eq m).trans hm
  have hlist : (locked s.heap).allocators 30 = ⟨size 30, q + 8 + size 30, true⟩ := h.list
  have hlink : (locked s.heap).link (q + 8 + size 30) = 0 := h.last
  have hcount : (locked s.heap).blockCount q = 0 := h.blockCount
  have hne : q + 8 + size 30 ≠ 0 := by omega
  simp only [Heap.kalloc, acquireMem_eq h.memLock, Option.bind_eq_bind, Option.bind_some, hindex,
    hlist, hne, Heap.takeBlock, hlink, h.pageBase_end, ne_eq, not_false_eq_true, if_true,
    not_true_eq_false, if_false, Heap.setFreeList_blockCount, hcount]
  refine ⟨_, rfl, ?_⟩
  show Heap.blockCount (Heap.setBlockCount _ q _) q = 65535
  rw [Heap.blockCount_setBlockCount]
  simp [hcount]

/-- `kfree` of the block does nothing. -/
theorem OneBlock.kfree (h : OneBlock q n s) : ∃ v, s.heap.kfree (q + 8) = some v ∧ v.slabs = s.heap.slabs := by
  have hbs : (locked s.heap).blockSize q = 4080 := h.blockSize
  refine ⟨(locked s.heap).releaseMem, ?_, rfl⟩
  simp [Heap.kfree, acquireMem_eq h.memLock, h.pageBase_live, hbs]

/-! ## Runs -/

/-- The states that runs under the condition reach. -/
def Inv (s : State) : Prop := NoBlock s ∨ ∃ q n, n ≤ 4080 ∧ OneBlock q n s

theorem boot_noBlock (h : Heap) (h0 : endAddr ≠ 0) : NoBlock (boot h endAddr) := by
  obtain ⟨fr, hfr, ha, hs, -, hm, -⟩ := kinit_spec h h0
  unfold boot
  generalize h.kinit endAddr = u at hfr ha hs hm
  exact ⟨rfl, congrFun hs 30, ha, ⟨fr, hfr⟩, hm⟩

theorem Inv.sound (h : Inv s) : Sound s := by
  rcases h with h | ⟨q, n, hn, h⟩
  · exact h.sound
  · exact h.sound hn

/-- A `kfree` of `NULL` changes nothing. -/
theorem OneBlock.kfree_null (h : OneBlock q n s) (hs : next s (.kfree 0) = some t) : t = s := by
  have hkeep : s.live.filter (fun b => b.1 ≠ 0) = s.live := by rw [h.live]; simp
  cases hs
  rw [hkeep]

theorem NoBlock.kfree_null (h : NoBlock s) (hs : next s (.kfree 0) = some t) : t = s := by
  have hkeep : s.live.filter (fun b => b.1 ≠ 0) = s.live := by rw [h.live]; rfl
  cases hs
  rw [hkeep]

theorem Inv.step (h : Inv s) (he : Enabled s a) (hf : Fine s a) (hs : next s a = some t) : Inv t := by
  rcases h with h | ⟨q, n, hn, h⟩
  · cases a with
    | kalloc m =>
      rcases h.kalloc he.1 he.2 hs with ht | ⟨q, ht⟩
      · exact .inl ht
      · exact .inr ⟨q, m, he.2, ht⟩
    | kfree p =>
      obtain rfl : p = 0 := hf
      exact .inl (h.kfree_null hs ▸ h)
    | kallocPage => exact he.elim
    | kfreePage r => exact he.elim
    | write x b =>
      obtain ⟨c, hc, -⟩ := he
      rw [h.live] at hc
      cases hc
  · cases a with
    | kalloc m =>
      have hlist : (s.heap.allocators 30).freeList = 0 := hf
      rw [h.list] at hlist
      simp at hlist
    | kfree p =>
      obtain rfl : p = 0 := hf
      exact .inr ⟨q, n, hn, h.kfree_null hs ▸ h⟩
    | kallocPage => exact he.elim
    | kfreePage r => exact he.elim
    | write x b =>
      obtain ⟨c, hc, h1, h2⟩ := he
      rw [h.live] at hc
      obtain rfl := List.mem_singleton.mp hc
      rw [blockLen, h.class_eq] at h2
      exact .inr ⟨q, n, hn, h.write h1 h2 hs⟩

/-- A step against the condition breaks what is wanted. -/
theorem Inv.not_sound (h : Inv s) (he : Enabled s a) (hf : ¬ Fine s a) (hs : next s a = some t) :
    ¬ Sound t := by
  rcases h with h | ⟨q, n, hn, h⟩
  · cases a with
    | kalloc m => exact absurd (by rw [Fine, h.allocators]) hf
    | kfree p =>
      rcases he with rfl | ⟨b, hb, -⟩
      · exact absurd rfl hf
      · rw [h.live] at hb
        cases hb
    | kallocPage => exact he.elim
    | kfreePage r => exact he.elim
    | write x b => exact absurd trivial hf
  · cases a with
    | kalloc m =>
      have hm := classOf_large he.1 he.2
      obtain ⟨v, hv, -⟩ := h.kalloc hm
      rw [next, hv] at hs
      simp only [Option.map_some] at hs
      rw [if_neg (by omega)] at hs
      cases hs
      intro hsound
      -- the block is longer than what is left of its page
      have hblock := (hsound.inPage (q + 8 + size 30, m) List.mem_cons_self).2.2
      simp only [h.pageBase_end, blockLen, hm] at hblock
      unfold pageSize at hblock
      rw [size_30] at hblock
      omega
    | kfree p =>
      rcases he with rfl | ⟨b, hb, rfl⟩
      · exact absurd rfl hf
      · rw [h.live] at hb
        obtain rfl := List.mem_singleton.mp hb
        obtain ⟨v, hv, hsl⟩ := h.kfree
        rw [next, hv] at hs
        cases hs
        intro hsound
        -- no block is left, and the page still belongs to the allocator
        have hnil := hsound.returned (by simp [h.live])
        rw [hsl, h.slabs] at hnil
        cases hnil
    | kallocPage => exact he.elim
    | kfreePage r => exact he.elim
    | write x b => exact absurd trivial hf

/-- Steps of a run in which the list is empty at every `kalloc` and no block is given back. -/
def Allowed (s : State) (a : Action) : Prop := Enabled s a ∧ Fine s a

instance (s : State) (a : Action) : Decidable (Allowed s a) := inferInstanceAs (Decidable (_ ∧ _))

theorem Run.large_inv (h0 : endAddr ≠ 0) (hrun : Run next Allowed (boot h endAddr) s) : Inv s :=
  hrun.invariant (.inl (boot_noBlock h h0)) fun _ _ _ hi ha hs => hi.step ha.1 ha.2 hs

/-- Large blocks are as wanted in every state that a run under the condition reaches, and in no
    state that such a run reaches with one step against it. -/
theorem large_blocks (h0 : endAddr ≠ 0) (hrun : Run next Allowed (boot h endAddr) s) :
    Sound s ∧ ∀ a t, Enabled s a → next s a = some t → (Sound t ↔ Fine s a) := by
  have hinv := Run.large_inv h0 hrun
  refine ⟨hinv.sound, fun a t he hs => ⟨fun hsound => ?_, fun hf => (hinv.step he hf hs).sound⟩⟩
  by_contra hf
  exact hinv.not_sound he hf hs hsound

/-- With one page of memory: a block is taken and written to. -/
theorem large_blocks_one : ∃ s : State, s.live = [(physTop - pageSize + 8, 3000)] ∧ Sound s := by
  have hexec : (execIf next Allowed (boot zeroHeap (physTop - pageSize))
      [.kalloc 3000, .write (physTop - pageSize + 8) 255, .kfree 0]).map (fun s => s.live) =
      some [(physTop - pageSize + 8, 3000)] := by
    decide +kernel
  obtain ⟨s, hrun, hs⟩ := Run.of_execIf_map hexec
  exact ⟨s, hs, (large_blocks (by decide) hrun).1⟩

/-- With one page of memory: the second block starts 8 bytes before the end of the page, and the
    counter of the page is 65535. In another run the only block is given back, and the page is not. -/
theorem large_blocks_fail :
    (∃ s, Run next Enabled (boot zeroHeap (physTop - pageSize)) s ∧
      s.live = [(physTop - 8, 4080), (physTop - pageSize + 8, 4080)] ∧
      s.heap.blockCount (physTop - pageSize) = 65535 ∧ ¬ Sound s) ∧
    ∃ s, Run next Enabled (boot zeroHeap (physTop - pageSize)) s ∧ s.live = [] ∧
      s.heap.slabs 30 = [physTop - pageSize] ∧ s.heap.freePages = 0 ∧ ¬ Sound s := by
  constructor
  · have hexec : (execIf next Enabled (boot zeroHeap (physTop - pageSize))
        [.kalloc 4080, .kalloc 4080]).map
          (fun s => (s.live, s.heap.blockCount (physTop - pageSize))) =
        some ([(physTop - 8, 4080), (physTop - pageSize + 8, 4080)], 65535) := by
      decide +kernel
    obtain ⟨s, hrun, hs⟩ := Run.of_execIf_map hexec
    obtain ⟨hlive, hcount⟩ := Prod.mk.inj hs
    refine ⟨s, hrun, hlive, hcount, fun hsound => ?_⟩
    have hblock := (hsound.inPage (physTop - 8, 4080) (by rw [hlive]; simp)).2.2
    revert hblock
    decide
  · have hexec : (execIf next Enabled (boot zeroHeap (physTop - pageSize))
        [.kalloc 4080, .kfree (physTop - pageSize + 8)]).map
          (fun s => (s.live, s.heap.slabs 30, s.heap.freePages)) =
        some ([], [physTop - pageSize], 0) := by
      decide +kernel
    obtain ⟨s, hrun, hs⟩ := Run.of_execIf_map hexec
    simp only [Prod.mk.injEq] at hs
    refine ⟨s, hrun, hs.1, hs.2.1, hs.2.2, fun hsound => ?_⟩
    have hnil := hsound.returned hs.1
    rw [hs.2.1] at hnil
    cases hnil

end ShikiOS.Kernel.Kalloc.Large
