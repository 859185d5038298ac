import ShikiOS.Kernel.Slab

/-!
# The free pages

The free pages are a chain from `free_pages` through the first word of each page.

Results:
* `kallocPage_cons`, `kallocPage_nil`: the first page is taken, or there is none.
* `kfreePage_spec`: a page becomes the first one.
* `kinit_spec`: the chain that `kinit` builds.
-/

namespace ShikiOS.Kernel

open ShikiOS.Lib

variable {s t : Heap} {fr : List ℕ} {q : ℕ}

/-- The free pages are those of `fr`. -/
structure FreePages (s : Heap) (fr : List ℕ) : Prop where
  chain : Chain s.link s.freePages fr
  page : ∀ q ∈ fr, GoodPage q
  nodup : fr.Nodup

/-- `t` is `s` but for the memory of the pages `l`, the first free page, the counters of
    pages and the lock of the pages. -/
structure PageEdit (l : List ℕ) (s t : Heap) : Prop where
  allocators : t.allocators = s.allocators
  slabs : t.slabs = s.slabs
  memLock : t.memLock = s.memLock
  agree : ∀ c, 8 ∣ c → pageBase c ∉ l → Heap.Agree s t c

theorem FreePages.lt (h : FreePages s fr) (hq : q ∈ fr) : q < 2 ^ 64 := by
  have := (h.page q hq).le
  unfold pageSize at this
  omega

/-- Free pages whose links did not change. -/
theorem FreePages.frame (h : FreePages s fr) (hf : t.freePages = s.freePages)
    (hag : ∀ q ∈ fr, Heap.Agree s t q) : FreePages t fr := by
  refine ⟨?_, h.page, h.nodup⟩
  rw [hf]
  exact h.chain.congr fun q hq => (hag q hq).link

/-- The second word of a page is no page. -/
theorem link_prev {a v : ℕ} (ha : pageSize ∣ a) (hq : pageSize ∣ q) :
    (s.setLink (a + 8) v).link q = s.link q := by
  have ha8 : 8 ∣ a + 8 := dvd_add (eight_dvd_page ha) dvd_rfl
  refine (Heap.agree_setLink ha8 (eight_dvd_page hq) ?_).link
  rintro rfl
  obtain ⟨m, rfl⟩ := ha
  obtain ⟨n, hn⟩ := hq
  unfold pageSize at hn
  omega

theorem pageBase_add_eight (hq : pageSize ∣ q) : pageBase (q + 8) = q :=
  pageBase_eq hq (by omega) (by unfold pageSize; omega)

/-- The `prev` of the first free page is set, if there is one. -/
theorem FreePages.setPrev (h : FreePages s fr) (v : ℕ) :
    ∃ m, s.setPrev v = { s with mem := m } ∧
      (∀ q, pageSize ∣ q → getLE m q 8 = getLE s.mem q 8) ∧
      ∀ c, 8 ∣ c → pageBase c ∉ fr → ∀ x, c ≤ x → x < c + 8 → m x = s.mem x := by
  by_cases h0 : s.freePages = 0
  · exact ⟨s.mem, if_neg (not_not.mpr h0), fun q _ => rfl, fun c _ _ x _ _ => rfl⟩
  · obtain ⟨l, rfl, -⟩ := h.chain.exists_cons h0
    have hq := (h.page s.freePages List.mem_cons_self).aligned
    refine ⟨(s.setLink (s.freePages + 8) v).mem, by simp [Heap.setPrev, h0, Heap.setLink],
      fun q hq' => link_prev hq hq', ?_⟩
    intro c hc hcl
    refine Heap.agree_setLink (dvd_add (eight_dvd_page hq) dvd_rfl) hc ?_
    rintro rfl
    rw [pageBase_add_eight hq] at hcl
    exact hcl List.mem_cons_self

/-- The first free page is taken. -/
theorem kallocPage_cons (h : FreePages s (q :: fr)) (hl : s.pageLock = false) :
    ∃ t, s.kallocPage = some (t, q) ∧ FreePages t fr ∧ PageEdit fr s t ∧ t.pageLock = false ∧
      t.kallocPageCnt = s.kallocPageCnt + 1 := by
  obtain ⟨rfl, hq0, hfr⟩ := h.chain
  have hpage : ∀ p ∈ fr, GoodPage p := fun p hp => h.page p (List.mem_cons_of_mem _ hp)
  have h2 : FreePages { s with
      kallocPageCnt := s.kallocPageCnt + 1, pageLock := true
      freePages := s.link s.freePages } fr :=
    ⟨hfr, hpage, (List.nodup_cons.mp h.nodup).2⟩
  obtain ⟨m, hm, hlink, hag⟩ := h2.setPrev 0
  refine ⟨{ s with
      mem := m, freePages := s.link s.freePages, kallocPageCnt := s.kallocPageCnt + 1
      pageCnt := Function.update s.pageCnt (pageIndex s.freePages) 0, pageLock := false }, ?_,
    ⟨?_, hpage, (List.nodup_cons.mp h.nodup).2⟩, ⟨rfl, rfl, rfl, hag⟩, rfl, rfl⟩
  · have hp : s.kallocPage = some ((let u := Heap.setPrev { s with
        kallocPageCnt := s.kallocPageCnt + 1, pageLock := true, freePages := s.link s.freePages } 0
        { u with pageCnt := Function.update u.pageCnt (pageIndex s.freePages) 0 }.releasePage),
        s.freePages) := by
      simp only [Heap.kallocPage, Heap.acquirePage, hl, hq0, Bool.false_eq_true, if_false,
        Option.bind_eq_bind, Option.bind_some]
      rfl
    rw [hp, hm]
    rfl
  · exact Chain.congr hfr fun p hp => hlink p (hpage p hp).aligned

/-- No page is free: the page lock stays held, and the lock of the allocators is not. -/
theorem kallocPage_nil (h : FreePages s []) (hl : s.pageLock = false) :
    s.kallocPage = some ({ s with
      kallocPageCnt := s.kallocPageCnt + 1, pageLock := true, memLock := false }, 0) := by
  have h0 : s.freePages = 0 := h.chain
  simp [Heap.kallocPage, Heap.acquirePage, Heap.releaseMem, hl, h0]

/-- The page `q` is put before the free pages (mem.c:132-136, 94-98). -/
theorem FreePages.push (h : FreePages s fr) (hq : GoodPage q) (hnew : q ∉ fr) :
    ∃ m, (s.setLink q s.freePages).setPrev q = { s with mem := m } ∧
      FreePages { s with mem := m, freePages := q } (q :: fr) ∧
      ∀ c, 8 ∣ c → pageBase c ∉ q :: fr → ∀ x, c ≤ x → x < c + 8 → m x = s.mem x := by
  have hq8 := eight_dvd_page hq.aligned
  have hlt : s.freePages < 2 ^ 64 := by
    rw [h.chain.head_eq]
    cases fr with
    | nil => norm_num
    | cons p fr => exact h.lt List.mem_cons_self
  have h2 : FreePages (s.setLink q s.freePages) fr := by
    refine ⟨h.chain.congr fun p hp => ?_, h.page, h.nodup⟩
    refine (Heap.agree_setLink hq8 (eight_dvd_page (h.page p hp).aligned) ?_).link
    rintro rfl
    exact hnew hp
  obtain ⟨m, hm, hlink, hag⟩ := h2.setPrev q
  refine ⟨m, hm, ⟨?_, List.forall_mem_cons.mpr ⟨hq, h.page⟩, List.nodup_cons.mpr ⟨hnew, h.nodup⟩⟩,
    ?_⟩
  · have hfirst : getLE m q 8 = s.freePages := (hlink q hq.aligned).trans (Heap.link_setLink hlt)
    have hrest : Chain (fun a => getLE m a 8) s.freePages fr :=
      Chain.congr h2.chain fun p hp => hlink p (h.page p hp).aligned
    rw [← hfirst] at hrest
    exact ⟨rfl, hq.ne_zero, hrest⟩
  · intro c hc hcl x h1 h3
    refine (hag c hc (fun hp => hcl (List.mem_cons_of_mem q hp)) x h1 h3).trans ?_
    refine Heap.agree_setLink hq8 hc ?_ x h1 h3
    rintro rfl
    rw [pageBase_self hq.aligned] at hcl
    exact hcl List.mem_cons_self

/-- The page `q` becomes the first free page. -/
theorem kfreePage_spec (h : FreePages s fr) (hl : s.pageLock = false) (hq : GoodPage q)
    (hnew : q ∉ fr) :
    ∃ t, s.kfreePage q = some t ∧ FreePages t (q :: fr) ∧ PageEdit (q :: fr) s t ∧
      t.pageLock = false ∧ t.kallocPageCnt = s.kallocPageCnt - 1 := by
  have h1 : FreePages { s with pageLock := true } fr := ⟨h.chain, h.page, h.nodup⟩
  obtain ⟨m, hm, hfr, hag⟩ := h1.push hq hnew
  refine ⟨{ s with
      mem := m, freePages := q, kallocPageCnt := s.kallocPageCnt - 1, pageLock := false }, ?_,
    ⟨hfr.chain, hfr.page, hfr.nodup⟩, ⟨rfl, rfl, rfl, hag⟩, rfl, rfl⟩
  simp only [Heap.kfreePage, Heap.acquirePage, hl, Bool.false_eq_true, if_false,
    Option.bind_eq_bind, Option.bind_some]
  rw [hm]
  rfl

theorem kinitLoop_spec (n : ℕ) {current : ℕ} (h : FreePages s fr) (hc : pageSize ∣ current)
    (h0 : current ≠ 0) (hlt : ∀ q ∈ fr, q < current) :
    ∃ m f fr', Heap.kinitLoop n s current = { s with mem := m, freePages := f } ∧
      FreePages { s with mem := m, freePages := f } fr' := by
  induction n generalizing s current fr with
  | zero => exact ⟨s.mem, s.freePages, fr, rfl, h⟩
  | succ n ih =>
    rw [Heap.kinitLoop]
    split_ifs with htop
    · have hq : GoodPage current := ⟨hc, h0, by unfold physTop at htop; omega⟩
      have hnew : current ∉ fr := fun hm => lt_irrefl _ (hlt current hm)
      obtain ⟨m, hm, hfr, -⟩ := h.push hq hnew
      have hc' : pageSize ∣ current + pageSize := by simpa using hc
      have hlt' : ∀ q ∈ current :: fr, q < current + pageSize := by
        intro q hq
        rcases List.mem_cons.mp hq with rfl | hq
        · unfold pageSize
          omega
        · exact (hlt q hq).trans_le (by omega)
      obtain ⟨m', f, fr', h1, h2⟩ := ih hfr hc' (by omega) hlt'
      refine ⟨m', f, fr', ?_, h2⟩
      rw [hm]
      exact h1
    · exact ⟨s.mem, s.freePages, fr, rfl, h⟩

/-- What `kinit` leaves: free pages, and allocators without pages. -/
theorem kinit_spec (s : Heap) {endAddr : ℕ} (h0 : endAddr ≠ 0) :
    ∃ fr, FreePages (s.kinit endAddr) fr ∧
      (s.kinit endAddr).allocators = (fun i => ⟨size i, 0, false⟩) ∧
      (s.kinit endAddr).slabs = (fun _ => []) ∧ (s.kinit endAddr).kallocPageCnt = 0 ∧
      (s.kinit endAddr).memLock = false ∧ (s.kinit endAddr).pageLock = false := by
  have hempty : ∀ u : Heap, FreePages { u with freePages := 0 } [] := fun u =>
    ⟨rfl, by simp, List.nodup_nil⟩
  have hc : (endAddr + pageSize - 1) / pageSize * pageSize ≠ 0 := by
    unfold pageSize
    omega
  obtain ⟨m, f, fr, h1, h2⟩ := kinitLoop_spec (0x80000000 / pageSize) (hempty
    { mem := s.mem
      allocators := fun i => ⟨size i, 0, false⟩
      freePages := 0
      kallocPageCnt := 0
      pageCnt := fun idx => if idx ≤ pageIndex endAddr then s.pageCnt idx + 1 else s.pageCnt idx
      memLock := false
      pageLock := false
      slabs := fun _ => [] }) (Dvd.intro_left _ rfl) hc (by simp)
  refine ⟨fr, ?_⟩
  rw [show s.kinit endAddr = _ from h1]
  exact ⟨h2, rfl, rfl, rfl, rfl, rfl⟩

end ShikiOS.Kernel
