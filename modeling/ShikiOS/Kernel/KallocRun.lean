import ShikiOS.Kernel.KallocInvariant

/-!
# Runs of the allocator

Results:
* `Run.kallocInv`: the invariant holds after every run, also after calls that found no
  page.
* `no_overlap`: live blocks lie in their pages, apart from each other, from the page
  headers and from the free lists.
* `slab_pages`: as long as `kalloc_page` finds a page, a page belongs to an allocator
  exactly while it has a live block, and `kfree` returns.
* `lost_page_lock`: after a call that found no page, `kfree` of a last block never returns.
-/

namespace ShikiOS.Kernel.Kalloc

open ShikiOS.Lib

variable {g : Ghost} {s t : State} {a : Action} {i p q : ℕ}

/-! ## Every action keeps the invariant -/

theorem Inv.kalloc {n : ℕ} (h : Inv g s) (hn : n ≤ 2040) (hs : next s (.kalloc n) = some t) :
    ∃ g', Inv g' t := by
  have hnew : ∀ {v p}, s.heap.kalloc n = some (v, p) → p ≠ 0 →
      t = ⟨v, (p, n) :: s.live, s.pages, s.failed⟩ := by
    intro v p hk hp
    simpa [next, hk, hp, eq_comm] using hs
  by_cases h0 : (s.heap.allocators (classOf n)).freeList = 0
  · cases hl : s.heap.pageLock with
    | true =>
      have hnone : s.heap.kalloc n = none := by
        simp only [Heap.kalloc, h.acquireMem, Option.bind_eq_bind, Option.bind_some]
        rw [getAllocatorIndex_eq (s := { s.heap with memLock := true }) h.blockSize n,
          if_neg (not_not.mpr h0)]
        simp [Heap.kallocPage, Heap.acquirePage, hl]
      simp [next, hnone] at hs
    | false =>
      cases hfr : g.fr with
      | nil =>
        simp only [next, h.kallocFail h0 hl hfr, Option.map_some, if_true] at hs
        rw [← Option.some.inj hs]
        exact ⟨g, h.noPage⟩
      | cons q fr =>
        obtain ⟨v, p, g', hk, hp, hg⟩ := h.kallocNew hn h0 hl hfr
        rw [hnew hk hp]
        exact ⟨g', hg⟩
  · obtain ⟨v, p, g', hk, hp, hg⟩ := h.kallocTake hn h0
    rw [hnew hk hp]
    exact ⟨g', hg⟩

theorem Inv.live_ne_zero (h : Inv g s) : ∀ b ∈ s.live, b.1 ≠ 0 := by
  intro b hb
  have hi := (classOf_spec (h.size_le b hb)).2
  have hbi : b.1 ∈ liveOf s.live (classOf b.2) := mem_liveOf.mpr ⟨b, hb, rfl, rfl⟩
  exact ((h.slab _ hi).addr hi (a := b.1) (by simp [hbi])).2.2.2.2.2

theorem Inv.kfree (h : Inv g s) (hp : p = 0 ∨ ∃ b ∈ s.live, b.1 = p)
    (hs : next s (.kfree p) = some t) : ∃ g', Inv g' t := by
  have hnew : ∀ {v}, s.heap.kfree p = some v → t = ⟨v, without s.live p, s.pages, s.failed⟩ := by
    intro v hk
    simpa [next, hk, without, eq_comm] using hs
  rcases hp with rfl | ⟨b, hb, rfl⟩
  · have hall : without s.live 0 = s.live :=
      List.filter_eq_self.mpr fun b hb => by simpa using h.live_ne_zero b hb
    rw [hnew (if_pos rfl), hall]
    exact ⟨g, h⟩
  · have hi := (classOf_spec (h.size_le b hb)).2
    have hbi : b.1 ∈ liveOf s.live (classOf b.2) := mem_liveOf.mpr ⟨b, hb, rfl, rfl⟩
    rcases h.kfree_live hi hbi with ⟨v, g', hk, -, -, -, hg⟩ | ⟨-, ⟨-, hk⟩ | ⟨v, g', hk, -, -, hg⟩⟩
    · rw [hnew hk]
      exact ⟨g', hg⟩
    · simp [next, hk] at hs
    · rw [hnew hk]
      exact ⟨g', hg⟩

theorem Inv.kallocPage (h : Inv g s) (hs : next s .kallocPage = some t) : ∃ g', Inv g' t := by
  cases hl : s.heap.pageLock with
  | true => simp [next, Heap.kallocPage, Heap.acquirePage, hl] at hs
  | false =>
    cases hfr : g.fr with
    | nil =>
      simp only [next, h.kallocPageFail hl hfr, Option.map_some, if_true] at hs
      rw [← Option.some.inj hs]
      exact ⟨g, h.noPage⟩
    | cons q fr =>
      obtain ⟨v, g', hk, hq, hg⟩ := h.kallocPageNew hl hfr
      simp only [next, hk, Option.map_some, if_neg hq] at hs
      rw [← Option.some.inj hs]
      exact ⟨g', hg⟩

theorem Inv.step (h : Inv g s) (he : Enabled s a) (hs : next s a = some t) : ∃ g', Inv g' t := by
  cases a with
  | kalloc n => exact h.kalloc he hs
  | kfree p => exact h.kfree he hs
  | kallocPage => exact h.kallocPage hs
  | kfreePage q =>
    cases hl : s.heap.pageLock with
    | true => simp [next, Heap.kfreePage, Heap.acquirePage, hl] at hs
    | false =>
      obtain ⟨v, g', hk, hg⟩ := h.kfreePage he hl
      simp only [next, hk, Option.map_some] at hs
      rw [← Option.some.inj hs]
      exact ⟨g', hg⟩
  | write x b =>
    rw [← Option.some.inj hs]
    exact ⟨g, h.write he⟩

/-- The invariant of allocators without pages. -/
theorem inv_empty {h : Heap} {fr : List ℕ} (hfr : FreePages h fr)
    (ha : h.allocators = fun i => ⟨size i, 0, false⟩) (hs : h.slabs = fun _ => [])
    (hc : h.kallocPageCnt = 0) (hm : h.memLock = false) (hl : h.pageLock = false) :
    Inv ⟨fun _ => .free, fr, fun _ => [], fun _ => []⟩ ⟨h, [], [], 0⟩ := by
  refine ⟨hm, ⟨fun _ => rfl, fun _ => hl⟩, fun i hi => ?_, by rw [ha], fun i _ => by rw [hs], hfr,
    List.forall_mem_nil _, List.nodup_nil, fun i _ q hq => ?_, List.forall_mem_nil _,
    fun _ _ => rfl, fun i _ q hq => ?_, List.forall_mem_nil _, List.nodup_nil, ?_⟩
  · refine ⟨by rw [ha], by rw [ha]; rfl, ?_, ?_, ?_, ?_, .inl rfl⟩ <;> rw [hs]
    · exact List.Perm.refl _
    · exact List.nodup_nil
    · exact List.forall_mem_nil _
    · exact List.forall_mem_nil _
  · simp [hs] at hq
  · simp [hs] at hq
  · simp [slabCount, hs, hc]

/-- The state after `kinit`. -/
theorem boot_inv (h : Heap) {endAddr : ℕ} (h0 : endAddr ≠ 0) : ∃ g, Inv g (boot h endAddr) := by
  obtain ⟨fr, hfr, ha, hs, hc, hm, hl⟩ := kinit_spec h h0
  exact ⟨_, inv_empty hfr ha hs hc hm hl⟩

/-- The invariant holds after every run. -/
theorem Run.kallocInv {h : Heap} {endAddr : ℕ} (h0 : endAddr ≠ 0)
    (hrun : Run next Enabled (boot h endAddr) s) : ∃ g, Inv g s :=
  hrun.invariant (I := fun s => ∃ g, Inv g s) (boot_inv h h0)
    fun _ _ _ ⟨_, hg⟩ he hs => hg.step he hs

/-! ## No overlap -/

/-- The `m` bytes at `x` and the `n` bytes at `y` have none in common. -/
def Apart (x m y n : ℕ) : Prop := x + m ≤ y ∨ y + n ≤ x

/-- All blocks of allocator `i`. -/
def Ghost.blocks (g : Ghost) (s : State) (i : ℕ) : List ℕ :=
  liveOf s.live i ++ g.nodes i ++ g.fresh i

theorem apart_of_pages {x y m n : ℕ} (hne : pageBase x ≠ pageBase y)
    (hx : x + m ≤ pageBase x + pageSize) (hy : y + n ≤ pageBase y + pageSize) : Apart x m y n := by
  obtain ⟨k, hk⟩ := pageBase_dvd x
  obtain ⟨l, hl⟩ := pageBase_dvd y
  have hkl : k ≠ l := fun e => hne (by rw [hk, hl, e])
  have h1 : pageBase x ≤ x := Nat.div_mul_le_self x pageSize
  have h2 : pageBase y ≤ y := Nat.div_mul_le_self y pageSize
  unfold Apart
  unfold pageSize at *
  omega

/-- Different blocks do not overlap, whether or not they have the same allocator. -/
theorem Inv.apart (h : Inv g s) {j x y : ℕ} (hi : i < 30) (hj : j < 30) (hx : x ∈ g.blocks s i)
    (hy : y ∈ g.blocks s j) (hne : x ≠ y) : Apart x (size i) y (size j) := by
  have hxa := (h.slab i hi).addr hi hx
  have hya := (h.slab j hj).addr hj hy
  by_cases hij : i = j
  · subst hij
    obtain ⟨h8, hb, -⟩ := size_spec hi
    obtain ⟨q, hq, hxq⟩ := (h.slab i hi).slot hx
    obtain ⟨r, hr, hyr⟩ := (h.slab i hi).slot hy
    exact slots_disjoint h8 (by omega) ((h.slab i hi).page q hq).aligned
      ((h.slab i hi).page r hr).aligned hxq hyr hne
  · refine apart_of_pages (fun e => ?_) hxa.2.2.2.1 hya.2.2.2.1
    have := hya.1
    rw [← e] at this
    exact h.ne_slab hi hj (Ne.symm hij) this hxa.1

theorem Inv.live_block (h : Inv g s) {b : ℕ × ℕ} (hb : b ∈ s.live) :
    classOf b.2 < 30 ∧ b.1 ∈ liveOf s.live (classOf b.2) ∧ b.1 ∈ g.blocks s (classOf b.2) := by
  have hbi : b.1 ∈ liveOf s.live (classOf b.2) := mem_liveOf.mpr ⟨b, hb, rfl, rfl⟩
  exact ⟨(classOf_spec (h.size_le b hb)).2, hbi, by simp [Ghost.blocks, hbi]⟩

theorem apart_page {x m q : ℕ} (hq : pageSize ∣ q) (h1 : pageBase x + 8 ≤ x)
    (h2 : x + m ≤ pageBase x + pageSize) : Apart x m q sizeofHeader := by
  obtain ⟨k, hk⟩ := pageBase_dvd x
  obtain ⟨l, rfl⟩ := hq
  unfold Apart sizeofHeader
  unfold pageSize at *
  omega

/-- The last allocator, which is for sizes above 2040, has an empty list. -/
theorem Inv.list (h : Inv g s) (hi : i < numAllocators) :
    (i < 30 ∧ Chain s.heap.link (s.heap.allocators i).freeList (g.nodes i)) ∨
      i = 30 ∧ Chain s.heap.link (s.heap.allocators i).freeList [] := by
  rcases Nat.lt_succ_iff_lt_or_eq.mp hi with hi | rfl
  · exact .inl ⟨hi, (h.slab i hi).chain⟩
  · exact .inr ⟨rfl, by rw [h.last]; rfl⟩

/-- After every run of calls and of stores to blocks and pages that the callers own, a live
    block is aligned, large enough, and lies in one page behind its header. It is apart from
    every other live block, from every page header, from every page of another user, and
    from every node of a free list. -/
theorem no_overlap (h : Heap) {endAddr : ℕ} (h0 : endAddr ≠ 0)
    (hrun : Run next Enabled (boot h endAddr) s) :
    (∀ b ∈ s.live, 8 ∣ b.1 ∧ b.2 ≤ blockLen b.2 ∧ pageBase b.1 ∈ s.heap.slabs (classOf b.2) ∧
      pageBase b.1 + sizeofHeader ≤ b.1 ∧ b.1 + blockLen b.2 ≤ pageBase b.1 + pageSize) ∧
    s.live.Pairwise (fun b c => Apart b.1 (blockLen b.2) c.1 (blockLen c.2)) ∧
    (∀ b ∈ s.live, ∀ i, ∀ q ∈ s.heap.slabs i, Apart b.1 (blockLen b.2) q sizeofHeader) ∧
    (∀ b ∈ s.live, ∀ q ∈ s.pages, Apart b.1 (blockLen b.2) q pageSize) ∧
    ∀ i < numAllocators, ∃ nodes, Chain s.heap.link (s.heap.allocators i).freeList nodes ∧
      ∀ b ∈ s.live, ∀ a ∈ nodes, Apart b.1 (blockLen b.2) a (size i) := by
  obtain ⟨g, hg⟩ := Run.kallocInv h0 hrun
  have haddr : ∀ b ∈ s.live, pageBase b.1 ∈ s.heap.slabs (classOf b.2) ∧ 8 ∣ b.1 ∧
      pageBase b.1 + 8 ≤ b.1 ∧ b.1 + blockLen b.2 ≤ pageBase b.1 + pageSize ∧ b.1 < 2 ^ 64 ∧
      b.1 ≠ 0 := by
    intro b hb
    obtain ⟨hi, -, hbl⟩ := hg.live_block hb
    exact (hg.slab _ hi).addr hi hbl
  refine ⟨fun b hb => ?_, ?_, fun b hb i q hq => ?_, fun b hb q hq => ?_, fun i hi => ?_⟩
  · obtain ⟨h1, h2, h3, h4, -⟩ := haddr b hb
    exact ⟨h2, (classOf_spec (hg.size_le b hb)).1, h1, by unfold sizeofHeader; omega, h4⟩
  · refine (List.pairwise_map.mp hg.addrs).imp_of_mem fun {b c} hb hc hne => ?_
    obtain ⟨hi, -, hbl⟩ := hg.live_block hb
    obtain ⟨hj, -, hcl⟩ := hg.live_block hc
    exact hg.apart hi hj hbl hcl hne
  · obtain ⟨-, -, h3, h4, -⟩ := haddr b hb
    by_cases hi : i < 30
    · exact apart_page ((hg.slab i hi).page q hq).aligned h3 h4
    · rw [hg.others i (by omega)] at hq
      exact absurd hq List.not_mem_nil
  · obtain ⟨h1, -, -, h4, -⟩ := haddr b hb
    have hqa := (hg.page q hq).aligned
    have hbase := pageBase_self hqa
    refine apart_of_pages (fun e => ?_) h4 (by rw [hbase])
    rw [hbase] at e
    have ho := hg.ownSlab _ (hg.live_block hb).1 _ h1
    rw [e, hg.ownUser q hq] at ho
    exact Owner.noConfusion ho
  · rcases hg.list hi with ⟨hi, hc⟩ | ⟨-, hc⟩
    · refine ⟨g.nodes i, hc, fun b hb a ha => ?_⟩
      obtain ⟨hj, hbj, hbl⟩ := hg.live_block hb
      have hai : a ∈ g.blocks s i := by simp [Ghost.blocks, ha]
      refine hg.apart hj hi hbl hai ?_
      rintro rfl
      have hbp := ((hg.slab _ hj).addr hj hbl).1
      have hap := ((hg.slab i hi).addr hi hai).1
      have hij : i = classOf b.2 := by
        by_contra hij
        exact hg.ne_slab hj hi hij hap hbp
      subst hij
      have hnd := ((hg.slab _ hi).nodup_blocks hi).of_append_left
      exact List.disjoint_of_nodup_append hnd hbj ha
    · exact ⟨[], hc, by simp⟩

/-- Memory before `kinit`. -/
def zeroHeap : Heap :=
  { mem := fun _ => 0
    allocators := fun _ => ⟨0, 0, false⟩
    freePages := 0
    kallocPageCnt := 0
    pageCnt := fun _ => 0
    memLock := false
    pageLock := false
    slabs := fun _ => [] }

/-- With two pages of memory: two blocks of one page, one of which was freed and taken again
    by a caller who writes to it. -/
theorem no_overlap_reuse : ∃ s : State, s.live.length = 3 ∧
    s.live.Pairwise (fun b c => Apart b.1 (blockLen b.2) c.1 (blockLen c.2)) := by
  have h : (execIf next Enabled (boot zeroHeap (physTop - 2 * pageSize))
      [.kalloc 8, .kalloc 5, .kfree (physTop - pageSize + 8), .kalloc 7,
        .write (physTop - pageSize + 8) 255, .kalloc 100]).map (fun s => s.live.length) =
      some 3 := by
    decide +kernel
  obtain ⟨s, hrun, hs⟩ := Run.of_execIf_map h
  exact ⟨s, hs, (no_overlap zeroHeap (by decide) hrun).2.1⟩

/-! ## The pages of the allocators -/

/-- If the action calls `kalloc_page`, there is a free page. -/
def FindsPage (s : State) : Action → Prop
  | .kalloc n => (s.heap.allocators (classOf n)).freeList = 0 → s.heap.freePages ≠ 0
  | .kallocPage => s.heap.freePages ≠ 0
  | _ => True

instance (s : State) : ∀ a, Decidable (FindsPage s a)
  | .kalloc n => inferInstanceAs
      (Decidable ((s.heap.allocators (classOf n)).freeList = 0 → s.heap.freePages ≠ 0))
  | .kfree _ => inferInstanceAs (Decidable True)
  | .kallocPage => inferInstanceAs (Decidable (s.heap.freePages ≠ 0))
  | .kfreePage _ => inferInstanceAs (Decidable True)
  | .write _ _ => inferInstanceAs (Decidable True)

/-- Steps of the callers in which `kalloc_page` finds a page. -/
def PageFound (s : State) (a : Action) : Prop := Enabled s a ∧ FindsPage s a

instance (s : State) (a : Action) : Decidable (PageFound s a) := inferInstanceAs (Decidable (_ ∧ _))

theorem Inv.fr_ne_nil (h : Inv g s) (hf : s.heap.freePages ≠ 0) : g.fr ≠ [] := by
  intro e
  have hc := h.free.chain
  rw [e] at hc
  exact hf hc

theorem Inv.failed_eq (h : Inv g s) (he : PageFound s a) (hl : s.heap.pageLock = false)
    (hs : next s a = some t) : t.failed = s.failed := by
  cases a with
  | kalloc n =>
    have hnew : ∀ {v p}, s.heap.kalloc n = some (v, p) → p ≠ 0 → t.failed = s.failed := by
      intro v p hk hp
      simp only [next, hk, Option.map_some, if_neg hp] at hs
      rw [← Option.some.inj hs]
    by_cases h0 : (s.heap.allocators (classOf n)).freeList = 0
    · obtain ⟨q, fr, hfr⟩ := List.exists_cons_of_ne_nil (h.fr_ne_nil (he.2 h0))
      obtain ⟨v, p, g', hk, hp, -⟩ := h.kallocNew he.1 h0 hl hfr
      exact hnew hk hp
    · obtain ⟨v, p, g', hk, hp, -⟩ := h.kallocTake he.1 h0
      exact hnew hk hp
  | kallocPage =>
    obtain ⟨q, fr, hfr⟩ := List.exists_cons_of_ne_nil (h.fr_ne_nil he.2)
    obtain ⟨v, g', hk, hq, -⟩ := h.kallocPageNew hl hfr
    simp only [next, hk, Option.map_some, if_neg hq] at hs
    rw [← Option.some.inj hs]
  | kfree p =>
    obtain ⟨v, -, rfl⟩ := Option.map_eq_some_iff.mp hs
    rfl
  | kfreePage q =>
    obtain ⟨v, -, rfl⟩ := Option.map_eq_some_iff.mp hs
    rfl
  | write x b =>
    rw [← Option.some.inj hs]

/-- The invariant of runs in which `kalloc_page` finds a page. -/
theorem Run.kallocInv_found {h : Heap} {endAddr : ℕ} (h0 : endAddr ≠ 0)
    (hrun : Run next PageFound (boot h endAddr) s) : ∃ g, Inv g s ∧ s.failed = 0 := by
  refine hrun.invariant (I := fun s => ∃ g, Inv g s ∧ s.failed = 0) ?_ ?_
  · obtain ⟨g, hg⟩ := boot_inv h h0
    exact ⟨g, hg, rfl⟩
  · rintro s a t ⟨g, hg, hf⟩ he hs
    obtain ⟨g', hg'⟩ := hg.step he.1 hs
    exact ⟨g', hg', (hg.failed_eq he (hg.pageLock.mpr hf) hs).trans hf⟩

/-- The live blocks in a page of allocator `i` are blocks of `i`. -/
theorem Inv.countP_live (h : Inv g s) (hi : i < 30) (hq : q ∈ s.heap.slabs i) :
    s.live.countP (fun b => inPage q b.1) = (liveOf s.live i).countP (inPage q) := by
  rw [liveOf, List.countP_map, List.countP_filter]
  refine List.countP_congr fun b hb => ?_
  simp only [Function.comp_apply, Bool.and_eq_true, decide_eq_true_eq]
  refine ⟨fun hbq => ⟨hbq, ?_⟩, fun h => h.1⟩
  obtain ⟨hj, -, hbl⟩ := h.live_block hb
  have hbp := ((h.slab _ hj).addr hj hbl).1
  have hbq' : pageBase b.1 = q := by simpa [inPage] using hbq
  rw [hbq'] at hbp
  by_contra hij
  exact h.ne_slab hi hj hij hbp hq

/-- The pages of the allocators are the pages of the live blocks. -/
theorem Inv.slab_iff (h : Inv g s) (q : ℕ) :
    (∃ i < 30, q ∈ s.heap.slabs i) ↔ ∃ b ∈ s.live, pageBase b.1 = q := by
  constructor
  · rintro ⟨i, hi, hq⟩
    obtain ⟨a, ha, rfl⟩ := h.used i hi q hq
    obtain ⟨b, hb, -, rfl⟩ := mem_liveOf.mp ha
    exact ⟨b, hb, rfl⟩
  · rintro ⟨b, hb, rfl⟩
    obtain ⟨hi, -, hbl⟩ := h.live_block hb
    exact ⟨_, hi, ((h.slab _ hi).addr hi hbl).1⟩

/-- `kfree` of a live block, in a state in which the lock of the pages is free. -/
theorem Inv.kfree_page (h : Inv g s) (hl : s.heap.pageLock = false) {b : ℕ × ℕ} (hb : b ∈ s.live) :
    ∃ t, next s (.kfree b.1) = some t ∧
      ((∃ c ∈ s.live, c.1 ≠ b.1 ∧ pageBase c.1 = pageBase b.1) →
        t.heap.slabs = s.heap.slabs ∧ t.heap.freePages = s.heap.freePages) ∧
      ((∀ c ∈ s.live, c.1 ≠ b.1 → pageBase c.1 ≠ pageBase b.1) →
        t.heap.freePages = pageBase b.1 ∧ (∀ i, pageBase b.1 ∉ t.heap.slabs i) ∧
        ∀ i < numAllocators, ∃ nodes,
          Chain t.heap.link (t.heap.allocators i).freeList nodes ∧
            ∀ a ∈ nodes, pageBase a ≠ pageBase b.1) := by
  obtain ⟨hi, hbi, hbl⟩ := h.live_block hb
  have hpin := ((h.slab _ hi).addr hi hbl).1
  have hnext : ∀ {v}, s.heap.kfree b.1 = some v →
      next s (.kfree b.1) = some ⟨v, without s.live b.1, s.pages, s.failed⟩ := fun hk => by
    simp [next, hk, without]
  have hwithout : ∀ a, (∃ c ∈ s.live, c.1 ≠ b.1 ∧ classOf c.2 = classOf b.2 ∧ c.1 = a) ↔
      a ∈ liveOf (without s.live b.1) (classOf b.2) := by
    intro a
    simp [mem_liveOf, without, and_assoc]
  rcases h.kfree_live hi hbi with ⟨v, g', hk, hsl, hfp, ⟨a, ha, hab⟩, -⟩ |
      ⟨hno, ⟨hl', -⟩ | ⟨v, g', hk, hfp, hsl, hg⟩⟩
  · refine ⟨_, hnext hk, fun _ => ⟨hsl, hfp⟩, fun hlast => ?_⟩
    obtain ⟨c, hc, hcb, -, rfl⟩ := (hwithout a).mpr ha
    exact absurd hab (hlast c hc hcb)
  · rw [hl] at hl'
    cases hl'
  · refine ⟨_, hnext hk, ?_, fun _ => ⟨hfp, ?_⟩⟩
    · rintro ⟨c, hc, hcb, hpage⟩
      obtain ⟨hj, hcj, hcl⟩ := h.live_block hc
      have hcp := ((h.slab _ hj).addr hj hcl).1
      rw [hpage] at hcp
      have hij : classOf c.2 = classOf b.2 := by
        by_contra hij
        exact h.ne_slab hi hj hij hcp hpin
      exact absurd hpage (hno c.1 ((hwithout c.1).mp ⟨c, hc, hcb, hij, rfl⟩))
    · have hnot : ∀ j, pageBase b.1 ∉ v.slabs j := by
        intro j hj
        rw [hsl] at hj
        by_cases hji : j = classOf b.2
        · subst hji
          rw [Function.update_self] at hj
          exact ((h.slab _ hi).nodup.mem_erase_iff.mp hj).1 rfl
        · rw [Function.update_of_ne hji] at hj
          by_cases hj30 : j < 30
          · exact h.ne_slab hi hj30 hji hj hpin
          · rw [h.others j (by omega)] at hj
            exact absurd hj List.not_mem_nil
      refine ⟨hnot, fun j hj => ?_⟩
      rcases hg.list hj with ⟨hj, hc⟩ | ⟨-, hc⟩
      · refine ⟨_, hc, fun a ha e => hnot j ?_⟩
        rw [← e]
        exact ((hg.slab j hj).addr_node hj ha).1
      · exact ⟨[], hc, by simp⟩

/-- As long as every call of `kalloc_page` finds a page: the counter of a page is its
    capacity less its live blocks, and an allocator has exactly the pages in which there is
    a live block. `kfree` returns, and gives the page back when the block was the last one
    in it; no free list has a node in that page then. `kalloc_page_cnt` counts the pages in
    use, so no page is lost when every block was freed. -/
theorem slab_pages (h : Heap) {endAddr : ℕ} (h0 : endAddr ≠ 0)
    (hrun : Run next PageFound (boot h endAddr) s) :
    (∀ i, ∀ q ∈ s.heap.slabs i, s.live.countP (fun b => inPage q b.1) + s.heap.blockCount q =
      capacity (s.heap.blockSize q)) ∧
    (∀ q, (∃ i, q ∈ s.heap.slabs i) ↔ ∃ b ∈ s.live, pageBase b.1 = q) ∧
    (∀ b ∈ s.live, ∃ t, next s (.kfree b.1) = some t ∧
      ((∃ c ∈ s.live, c.1 ≠ b.1 ∧ pageBase c.1 = pageBase b.1) →
        t.heap.slabs = s.heap.slabs ∧ t.heap.freePages = s.heap.freePages) ∧
      ((∀ c ∈ s.live, c.1 ≠ b.1 → pageBase c.1 ≠ pageBase b.1) →
        t.heap.freePages = pageBase b.1 ∧ (∀ i, pageBase b.1 ∉ t.heap.slabs i) ∧
        ∀ i < numAllocators, ∃ nodes,
          Chain t.heap.link (t.heap.allocators i).freeList nodes ∧
            ∀ a ∈ nodes, pageBase a ≠ pageBase b.1)) ∧
    s.heap.kallocPageCnt = s.pages.length + slabCount s.heap ∧
    (s.live = [] → s.heap.kallocPageCnt = s.pages.length ∧ ∀ i, s.heap.slabs i = []) := by
  obtain ⟨g, hg, hf⟩ := Run.kallocInv_found h0 hrun
  have hlt : ∀ {i q}, q ∈ s.heap.slabs i → i < 30 := by
    intro i q hq
    by_contra hi
    rw [hg.others i (by omega)] at hq
    exact absurd hq List.not_mem_nil
  have hcount : s.heap.kallocPageCnt = s.pages.length + slabCount s.heap := by
    rw [hg.count, hf, Nat.cast_zero, add_zero]
  refine ⟨fun i q hq => ?_, fun q => ?_, fun b hb => ?_, hcount, fun hempty => ?_⟩
  · have hi := hlt hq
    rw [hg.countP_live hi hq, ((hg.slab i hi).header q hq).1]
    exact (hg.slab i hi).count hi hq
  · rw [← hg.slab_iff]
    exact ⟨fun ⟨i, hq⟩ => ⟨i, hlt hq, hq⟩, fun ⟨i, _, hq⟩ => ⟨i, hq⟩⟩
  · exact hg.kfree_page (hg.pageLock.mpr hf) hb
  · have hnil : ∀ i, s.heap.slabs i = [] := by
      intro i
      refine List.eq_nil_iff_forall_not_mem.mpr fun q hq => ?_
      obtain ⟨b, hb, -⟩ := (hg.slab_iff q).mp ⟨i, hlt hq, hq⟩
      rw [hempty] at hb
      exact absurd hb List.not_mem_nil
    refine ⟨?_, hnil⟩
    rw [hcount]
    simp [slabCount, hnil]

/-- With two pages of memory: the last block of a page is freed, and nothing is in use. -/
theorem slab_pages_empty : ∃ s : State, s.live = [] ∧ s.pages.length = 1 ∧
    s.heap.kallocPageCnt = s.pages.length ∧ ∀ i, s.heap.slabs i = [] := by
  have h : (execIf next PageFound (boot zeroHeap (physTop - 2 * pageSize))
      [.kalloc 8, .kallocPage, .kalloc 5, .kfree (physTop - pageSize + 8),
        .kfree (physTop - pageSize + 16)]).map (fun s => (s.live, s.pages.length)) =
      some ([], 1) := by
    decide +kernel
  obtain ⟨s, hrun, hs⟩ := Run.of_execIf_map h
  obtain ⟨hlive, hpages⟩ := Prod.mk.inj hs
  exact ⟨s, hlive, hpages, (slab_pages zeroHeap (by decide) hrun).2.2.2.2 hlive⟩

/-- With one page of memory, which two blocks fill: a third `kalloc` returns `NULL`. It
    counts a page that it did not get, and the lock of the pages stays held, so that `kfree`
    of the last block never returns. -/
theorem lost_page_lock : ∃ s, Run next Enabled (boot zeroHeap (physTop - pageSize)) s ∧
    s.live = [(physTop - pageSize + 2048, 2040)] ∧ s.pages = [] ∧ slabCount s.heap = 1 ∧
    s.heap.kallocPageCnt = 2 ∧ next s (.kfree (physTop - pageSize + 2048)) = none := by
  have h : (execIf next Enabled (boot zeroHeap (physTop - pageSize))
      [.kalloc 2040, .kalloc 2040, .kalloc 2040, .kfree (physTop - pageSize + 8)]).map
        (fun s => (s.live, s.pages, slabCount s.heap, s.heap.kallocPageCnt,
          (next s (.kfree (physTop - pageSize + 2048))).isNone)) =
      some ([(physTop - pageSize + 2048, 2040)], [], 1, 2, true) := by
    decide +kernel
  obtain ⟨s, hrun, hs⟩ := Run.of_execIf_map h
  simp only [Prod.mk.injEq] at hs
  exact ⟨s, hrun, hs.1, hs.2.1, hs.2.2.1, hs.2.2.2.1, Option.isNone_iff_eq_none.mp hs.2.2.2.2⟩

end ShikiOS.Kernel.Kalloc
