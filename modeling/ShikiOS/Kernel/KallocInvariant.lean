import ShikiOS.Kernel.KallocModel

/-!
# The invariant of the allocator

Every page has one owner: an allocator, a user of `kalloc_page`, or the list of free
pages. For each allocator the blocks, the list and the page headers agree (`Slab`), and
each of its pages has a live block.

Results:
* `Inv.kalloc`, `Inv.kfree`, `Inv.kallocPage`, `Inv.kfreePage`, `Inv.write`: every action
  keeps the invariant.
* `Run.inv`: it holds after every run.
-/

namespace ShikiOS.Kernel.Kalloc

open ShikiOS.Lib

/-- Who has a page. -/
inductive Owner
  | slab (i : ℕ)
  | user
  | free

/-- What the invariant says exists: the owner of each page, the free pages, and for each
    allocator the nodes of its list and the slots that were never handed out. -/
structure Ghost where
  owner : ℕ → Owner
  fr : List ℕ
  nodes : ℕ → List ℕ
  fresh : ℕ → List ℕ

/-- The pages of the allocators. -/
def slabCount (h : Heap) : ℕ := ∑ i ∈ Finset.range 30, (h.slabs i).length

/-- The invariant. -/
structure Inv (g : Ghost) (s : State) : Prop where
  memLock : s.heap.memLock = false
  pageLock : s.heap.pageLock = false ↔ s.failed = 0
  slab : ∀ i < 30, Slab s.heap i (liveOf s.live i) (g.nodes i) (g.fresh i)
  last : s.heap.allocators 30 = ⟨size 30, 0, false⟩
  others : ∀ i, 30 ≤ i → s.heap.slabs i = []
  free : FreePages s.heap g.fr
  page : ∀ q ∈ s.pages, GoodPage q
  nodup : s.pages.Nodup
  ownSlab : ∀ i < 30, ∀ q ∈ s.heap.slabs i, g.owner q = .slab i
  ownUser : ∀ q ∈ s.pages, g.owner q = .user
  ownFree : ∀ q ∈ g.fr, g.owner q = .free
  used : ∀ i < 30, ∀ q ∈ s.heap.slabs i, ∃ a ∈ liveOf s.live i, pageBase a = q
  size_le : ∀ b ∈ s.live, b.2 ≤ 2040
  addrs : (s.live.map Prod.fst).Nodup
  count : s.heap.kallocPageCnt = s.pages.length + slabCount s.heap + s.failed

variable {g : Ghost} {s t : State} {u : Heap} {i n p q : ℕ}

theorem Inv.blockSize (h : Inv g s) : ∀ i < 31, (s.heap.allocators i).blockSize = size i := by
  intro i hi
  rcases Nat.lt_succ_iff_lt_or_eq.mp hi with hi | rfl
  · exact (h.slab i hi).blockSize
  · rw [h.last]

/-- The pages of an allocator in a list of other pages. -/
theorem Inv.not_mem_slabs (h : Inv g s) (hi : i < 30) (hq : g.owner q ≠ .slab i) :
    q ∉ s.heap.slabs i := fun hm => hq (h.ownSlab i hi q hm)

theorem Inv.ne_slab (h : Inv g s) (hi : i < 30) {j : ℕ} (hj : j < 30) (hij : j ≠ i)
    (hq : q ∈ s.heap.slabs j) : q ∉ s.heap.slabs i := by
  refine h.not_mem_slabs hi ?_
  rw [h.ownSlab j hj q hq]
  intro e
  exact hij (Owner.slab.inj e)

/-- Live blocks of different allocators are different. -/
theorem Inv.not_mem_live (h : Inv g s) (hi : i < 30) (hp : pageBase p ∈ s.heap.slabs i)
    (hn : p ∉ liveOf s.live i) : p ∉ s.live.map Prod.fst := by
  intro hm
  obtain ⟨b, hb, rfl⟩ := List.mem_map.mp hm
  have hj := (classOf_spec (h.size_le b hb)).2
  have hbj : b.1 ∈ liveOf s.live (classOf b.2) := mem_liveOf.mpr ⟨b, hb, rfl, rfl⟩
  have hpj := ((h.slab _ hj).addr hj (a := b.1) (by simp [hbj])).1
  by_cases hij : classOf b.2 = i
  · exact hn (hij ▸ hbj)
  · exact h.ne_slab hi hj hij hpj hp

theorem slabCount_eq (hi : i < 30) (h : ∀ j, j ≠ i → u.slabs j = s.heap.slabs j) :
    slabCount u + (s.heap.slabs i).length = slabCount s.heap + (u.slabs i).length := by
  have hmem : i ∈ Finset.range 30 := Finset.mem_range.mpr hi
  have hrest : ∑ j ∈ (Finset.range 30).erase i, (u.slabs j).length =
      ∑ j ∈ (Finset.range 30).erase i, (s.heap.slabs j).length :=
    Finset.sum_congr rfl fun j hj => by rw [h j (Finset.ne_of_mem_erase hj)]
  rw [slabCount, slabCount, ← Finset.sum_erase_add _ _ hmem, ← Finset.sum_erase_add _ _ hmem, hrest]
  omega

/-- A call for allocator `i` that leaves the other allocators and the pages of users
    alone. -/
theorem Inv.ofClass (h : Inv g s) (hi : i < 30) (owner : ℕ → Owner) {live : List (ℕ × ℕ)}
    {nodes fresh fr : List ℕ}
    (hmem : u.memLock = false) (hpage : u.pageLock = s.heap.pageLock)
    (hslab : Slab u i (liveOf live i) nodes fresh)
    (halloc : ∀ j, j ≠ i → u.allocators j = s.heap.allocators j)
    (hslabs : ∀ j, j ≠ i → u.slabs j = s.heap.slabs j)
    (hag : ∀ c, 8 ∣ c → ∀ j < 30, j ≠ i → pageBase c ∈ s.heap.slabs j → Heap.Agree s.heap u c)
    (hfree : FreePages u fr)
    (hlive : ∀ j, j ≠ i → liveOf live j = liveOf s.live j)
    (hown : ∀ q ∈ u.slabs i, owner q = .slab i)
    (hown' : ∀ q, g.owner q = .user ∨ (∃ j, j ≠ i ∧ g.owner q = .slab j) → owner q = g.owner q)
    (hownf : ∀ q ∈ fr, owner q = .free)
    (hused : ∀ q ∈ u.slabs i, ∃ a ∈ liveOf live i, pageBase a = q)
    (hsize : ∀ b ∈ live, b.2 ≤ 2040) (haddrs : (live.map Prod.fst).Nodup)
    (hcount : u.kallocPageCnt + (s.heap.slabs i).length =
      s.heap.kallocPageCnt + (u.slabs i).length) :
    Inv ⟨owner, fr, Function.update g.nodes i nodes, Function.update g.fresh i fresh⟩
      ⟨u, live, s.pages, s.failed⟩ := by
  refine ⟨hmem, by rw [hpage]; exact h.pageLock, ?_, ?_, ?_, hfree, h.page, h.nodup, ?_, ?_, hownf,
    ?_, hsize, haddrs, ?_⟩
  · intro j hj
    by_cases hji : j = i
    · subst hji
      simpa using hslab
    · simp only [Function.update_of_ne hji, hlive j hji]
      exact (h.slab j hj).frameOff hj (halloc j hji) (hslabs j hji) fun c hc hcl =>
        hag c hc j hj hji hcl
  · exact (halloc 30 (by omega)).trans h.last
  · intro j hj
    exact (hslabs j (by omega)).trans (h.others j hj)
  · intro j hj q hq
    by_cases hji : j = i
    · subst hji
      exact hown q hq
    · rw [hslabs j hji] at hq
      have ho := h.ownSlab j hj q hq
      rw [← ho]
      exact hown' q (.inr ⟨j, hji, ho⟩)
  · intro q hq
    have ho := h.ownUser q hq
    rw [← ho]
    exact hown' q (.inl ho)
  · intro j hj q hq
    by_cases hji : j = i
    · subst hji
      exact hused q hq
    · rw [hslabs j hji] at hq
      rw [hlive j hji]
      exact h.used j hj q hq
  · have h1 := slabCount_eq hi hslabs
    have h2 := h.count
    show u.kallocPageCnt = s.pages.length + slabCount u + s.failed
    omega

/-! ## `kalloc` -/

/-- The state in which `kalloc` and `kfree` work: the lock of the allocators is held. -/
theorem Inv.acquireMem (h : Inv g s) :
    s.heap.acquireMem = some { s.heap with memLock := true } := by
  simp [Heap.acquireMem, h.memLock]

theorem Inv.slab_acquired (h : Inv g s) (hi : i < 30) (b : Bool) :
    Slab { s.heap with memLock := b } i (liveOf s.live i) (g.nodes i) (g.fresh i) :=
  (h.slab i hi).frameOff hi rfl rfl fun c _ _ => Heap.agree_of_mem rfl c

theorem Slab.releaseMem {live nodes fresh : List ℕ} (h : Slab u i live nodes fresh) (hi : i < 30) :
    Slab u.releaseMem i live nodes fresh :=
  h.frameOff hi rfl rfl fun c _ _ => Heap.agree_of_mem rfl c

/-- A free page is no page of an allocator. -/
theorem Inv.not_free (h : Inv g s) (hi : i < 30) (hq : q ∈ s.heap.slabs i) : q ∉ g.fr := by
  intro hm
  have := h.ownFree q hm
  rw [h.ownSlab i hi q hq] at this
  cases this

theorem Inv.agree_free (h : Inv g s) (hi : i < 30) {t : Heap}
    (hag : ∀ c, 8 ∣ c → pageBase c ∉ s.heap.slabs i → Heap.Agree s.heap t c) :
    ∀ q ∈ g.fr, Heap.Agree s.heap t q := by
  intro q hq
  have hqa := (h.free.page q hq).aligned
  refine hag q (eight_dvd_page hqa) ?_
  rw [pageBase_self hqa]
  exact fun hm => h.not_free hi hm hq

/-- The list of the allocator is not empty. -/
theorem Inv.kallocTake (h : Inv g s) (hn : n ≤ 2040)
    (hne : (s.heap.allocators (classOf n)).freeList ≠ 0) :
    ∃ v p g', s.heap.kalloc n = some (v, p) ∧ p ≠ 0 ∧
      Inv g' ⟨v, (p, n) :: s.live, s.pages, s.failed⟩ := by
  have hi := (classOf_spec hn).2
  have hs := h.slab_acquired hi true
  have hnodes : g.nodes (classOf n) ≠ [] := by
    intro e
    have hc := hs.chain
    rw [e] at hc
    exact hne hc
  obtain ⟨p, u, nodes', fresh', htake, hu, hp, hsl, hedit⟩ := hs.takeBlock hi hnodes
  have hpin := hs.addr_node hi hp
  have hlive : ∀ j, j ≠ classOf n → liveOf ((p, n) :: s.live) j = liveOf s.live j := fun j hj =>
    liveOf_cons_of_ne hj
  have hlive' : liveOf ((p, n) :: s.live) (classOf n) = p :: liveOf s.live (classOf n) :=
    liveOf_cons_self
  have hag : ∀ c, 8 ∣ c → pageBase c ∉ s.heap.slabs (classOf n) →
      Heap.Agree s.heap u.releaseMem c := fun c hc hcl => hedit.agree c hc hcl
  refine ⟨u.releaseMem, p, _, ?_, hpin.2.2.2.2.2, h.ofClass hi g.owner rfl hedit.pageLock
    (by rw [hlive']; exact Slab.releaseMem hu hi) hedit.allocators hedit.slabs
    (fun c hc j hj hji hcl => hag c hc (h.ne_slab hi hj hji hcl))
    (h.free.frame hedit.freePages (h.agree_free hi hag)) hlive
    (fun q hq => h.ownSlab _ hi q (hsl ▸ hq)) (fun q _ => rfl) h.ownFree ?_
    (List.forall_mem_cons.mpr ⟨hn, h.size_le⟩) ?_ ?_⟩
  · simp only [Heap.kalloc, h.acquireMem, Option.bind_eq_bind, Option.bind_some]
    rw [getAllocatorIndex_eq (s := { s.heap with memLock := true }) h.blockSize n, if_pos hne,
      htake]
    rfl
  · intro q hq
    obtain ⟨a, ha, haq⟩ := h.used _ hi q (hsl ▸ hq)
    exact ⟨a, by rw [hlive']; exact List.mem_cons_of_mem p ha, haq⟩
  · refine List.nodup_cons.mpr ⟨h.not_mem_live hi hpin.1 fun hm => ?_, h.addrs⟩
    have hnd := hu.nodup_blocks hi
    simp [hm] at hnd
  · show u.kallocPageCnt + _ = _ + ((u.slabs (classOf n)).length : ℤ)
    rw [hsl, hedit.kallocPageCnt]

/-- An allocator with an empty list has no slot left. -/
theorem Slab.empty {live nodes fresh : List ℕ} (h : Slab u i live nodes fresh)
    (h0 : (u.allocators i).freeList = 0) : nodes = [] ∧ fresh = [] := by
  have hc := h.chain
  rw [h0] at hc
  obtain rfl := hc.eq_nil
  refine ⟨rfl, h.bump.resolve_right ?_⟩
  rintro ⟨-, q, k, r, -, hn, -⟩
  exact List.cons_ne_nil _ _ hn.symm

/-- The list of the allocator is empty, and there is a free page. -/
theorem Inv.kallocNew (h : Inv g s) (hn : n ≤ 2040) {fr : List ℕ}
    (h0 : (s.heap.allocators (classOf n)).freeList = 0) (hl : s.heap.pageLock = false)
    (hfr : g.fr = q :: fr) :
    ∃ v p g', s.heap.kalloc n = some (v, p) ∧ p ≠ 0 ∧
      Inv g' ⟨v, (p, n) :: s.live, s.pages, s.failed⟩ := by
  have hi := (classOf_spec hn).2
  have hs := h.slab_acquired hi true
  obtain ⟨hn0, hf0⟩ := Slab.empty hs h0
  rw [hn0, hf0] at hs
  have hfree : FreePages { s.heap with memLock := true } (q :: fr) := by
    rw [← hfr]
    exact h.free.frame rfl fun c _ => Heap.agree_of_mem rfl c
  obtain ⟨t, hpage, hfree', hedit, htl, hcnt⟩ := kallocPage_cons hfree hl
  have hqf : q ∈ g.fr := hfr ▸ List.mem_cons_self
  have hq := h.free.page q hqf
  have hsub : ∀ p ∈ fr, p ∈ g.fr := fun p hp => hfr ▸ List.mem_cons_of_mem q hp
  have hqfr : q ∉ fr := (List.nodup_cons.mp (hfr ▸ h.free.nodup)).1
  have hqs : ∀ j < 30, q ∉ s.heap.slabs j := fun j hj hm => h.not_free hj hm hqf
  have ht : Slab t (classOf n) (liveOf s.live (classOf n)) [] [] :=
    hs.frameOff hi (by rw [hedit.allocators]) (by rw [hedit.slabs]) fun c hc hcl =>
      hedit.agree c hc fun hm => h.not_free hi hcl (hsub _ hm)
  have hslabs : t.slabs = s.heap.slabs := hedit.slabs
  obtain ⟨u, nodes', fresh', hinit, hu, hsl, hclass⟩ := ht.initPage hi hq (by
    rw [hslabs]
    exact hqs _ hi)
  have hag : ∀ c, 8 ∣ c → ∀ j < 30, j ≠ classOf n → pageBase c ∈ s.heap.slabs j →
      Heap.Agree s.heap u.releaseMem c := by
    intro c hc j hj hji hcl
    have h1 : Heap.Agree s.heap t c := hedit.agree c hc fun hm => h.not_free hj hcl (hsub _ hm)
    have h2 : Heap.Agree t u c := hclass.agree c hc fun hm => by
      rw [List.mem_singleton.mp hm] at hcl
      exact hqs j hj hcl
    exact h1.trans h2
  have hfu : FreePages u.releaseMem fr := by
    refine hfree'.frame hclass.freePages fun p hp => hclass.agree p ?_ ?_
    · exact eight_dvd_page (hfree'.page p hp).aligned
    · rw [pageBase_self (hfree'.page p hp).aligned]
      intro hm
      exact hqfr (List.mem_singleton.mp hm ▸ hp)
  have hlive' : liveOf ((q + 8, n) :: s.live) (classOf n) =
      (q + 8) :: liveOf s.live (classOf n) := liveOf_cons_self
  have hown : ∀ p, p ≠ q →
      Function.update g.owner q (.slab (classOf n)) p = g.owner p := fun p hp =>
    Function.update_of_ne hp _ _
  refine ⟨u.releaseMem, q + 8, _, ?_, by omega, h.ofClass hi
    (Function.update g.owner q (.slab (classOf n))) rfl (hclass.pageLock.trans (htl.trans hl.symm))
    (by rw [hlive']; exact Slab.releaseMem hu hi)
    (fun j hj => (hclass.allocators j hj).trans (by rw [hedit.allocators]))
    (fun j hj => (hclass.slabs j hj).trans (by rw [hslabs])) hag hfu
    (fun j hj => liveOf_cons_of_ne hj)
    ?_ ?_ ?_ ?_ (List.forall_mem_cons.mpr ⟨hn, h.size_le⟩) ?_ ?_⟩
  · simp only [Heap.kalloc, h.acquireMem, Option.bind_eq_bind, Option.bind_some]
    rw [getAllocatorIndex_eq (s := { s.heap with memLock := true }) h.blockSize n,
      if_neg (not_not.mpr h0), hpage]
    simp only [Option.bind_some, hq.ne_zero, if_false, hinit]
    rfl
  · intro p hp
    have hp' : p ∈ q :: s.heap.slabs (classOf n) := by
      rw [← hslabs, ← hsl]
      exact hp
    by_cases hpq : p = q
    · rw [hpq, Function.update_self]
    · rw [hown p hpq]
      exact h.ownSlab _ hi p ((List.mem_cons.mp hp').resolve_left hpq)
  · intro p hp
    refine hown p ?_
    rintro rfl
    rw [h.ownFree p hqf] at hp
    rcases hp with hp | ⟨j, -, hp⟩ <;> cases hp
  · intro p hp
    rw [hown p (fun e => hqfr (e ▸ hp))]
    exact h.ownFree p (hsub p hp)
  · intro p hp
    have hp' : p ∈ q :: s.heap.slabs (classOf n) := by
      rw [← hslabs, ← hsl]
      exact hp
    rw [hlive']
    rcases List.mem_cons.mp hp' with rfl | hp'
    · exact ⟨p + 8, List.mem_cons_self, pageBase_add_eight hq.aligned⟩
    · obtain ⟨a, ha, haq⟩ := h.used _ hi p hp'
      exact ⟨a, List.mem_cons_of_mem _ ha, haq⟩
  · refine List.nodup_cons.mpr ⟨fun hm => ?_, h.addrs⟩
    obtain ⟨b, hb, hbq⟩ := List.mem_map.mp hm
    have hj := (classOf_spec (h.size_le b hb)).2
    have hbj : b.1 ∈ liveOf s.live (classOf b.2) := mem_liveOf.mpr ⟨b, hb, rfl, rfl⟩
    have hpj := ((h.slab _ hj).addr hj (a := b.1) (by simp [hbj])).1
    rw [hbq, pageBase_add_eight hq.aligned] at hpj
    exact hqs _ hj hpj
  · show u.kallocPageCnt + ((s.heap.slabs (classOf n)).length : ℤ) =
      s.heap.kallocPageCnt + ((u.slabs (classOf n)).length : ℤ)
    rw [hsl, hclass.kallocPageCnt, hcnt, hslabs, List.length_cons]
    push_cast
    ring

/-- The list of the allocator is empty, and no page is free. -/
theorem Inv.kallocFail (h : Inv g s)
    (h0 : (s.heap.allocators (classOf n)).freeList = 0) (hl : s.heap.pageLock = false)
    (hfr : g.fr = []) :
    s.heap.kalloc n = some ({ s.heap with
      kallocPageCnt := s.heap.kallocPageCnt + 1, pageLock := true }, 0) := by
  have hfree : FreePages { s.heap with memLock := true } [] := by
    rw [← hfr]
    exact h.free.frame rfl fun c _ => Heap.agree_of_mem rfl c
  simp only [Heap.kalloc, h.acquireMem, Option.bind_eq_bind, Option.bind_some]
  rw [getAllocatorIndex_eq (s := { s.heap with memLock := true }) h.blockSize n,
    if_neg (not_not.mpr h0), kallocPage_nil hfree hl]
  simp [Heap.releaseMem, h.memLock]

/-- A call of `kalloc_page` that found no page changes no block and no page. -/
theorem Inv.noPage (h : Inv g s) :
    Inv g ⟨{ s.heap with kallocPageCnt := s.heap.kallocPageCnt + 1, pageLock := true }, s.live,
      s.pages, s.failed + 1⟩ := by
  refine ⟨h.memLock, by simp, fun i hi => (h.slab i hi).frameOff hi rfl rfl fun c _ _ =>
    Heap.agree_of_mem rfl c, h.last, h.others, h.free.frame rfl fun c _ => Heap.agree_of_mem rfl c,
    h.page, h.nodup, h.ownSlab, h.ownUser, h.ownFree, h.used, h.size_le, h.addrs, ?_⟩
  have := h.count
  show s.heap.kallocPageCnt + 1 = s.pages.length + slabCount s.heap + ((s.failed + 1 : ℕ) : ℤ)
  omega

/-! ## `kfree` -/

/-- The blocks that stay when the block at `p` is freed. -/
def without (live : List (ℕ × ℕ)) (p : ℕ) : List (ℕ × ℕ) := live.filter fun b => b.1 ≠ p

/-- The order of the live blocks does not matter. -/
theorem Slab.permLive {live live' nodes fresh : List ℕ} (h : Slab u i live nodes fresh)
    (hp : live'.Perm live) : Slab u i live' nodes fresh :=
  { h with perm := ((hp.append_right nodes).append_right fresh).trans h.perm }

theorem Inv.perm_without (h : Inv g s) (hi : i < 30) (hp : p ∈ liveOf s.live i) :
    (p :: liveOf (without s.live p) i).Perm (liveOf s.live i) := by
  have hnd : (liveOf s.live i).Nodup :=
    ((h.slab i hi).nodup_blocks hi).of_append_left.of_append_left
  rw [without, liveOf_filter, ← hnd.erase_eq_filter]
  exact (List.perm_cons_erase hp).symm

theorem Inv.liveOf_without (h : Inv g s) (hi : i < 30) (hp : pageBase p ∈ s.heap.slabs i) {j : ℕ}
    (hj : j ≠ i) : liveOf (without s.live p) j = liveOf s.live j := by
  rw [without, liveOf_filter, List.filter_eq_self]
  intro a ha
  obtain ⟨b, hb, rfl, rfl⟩ := mem_liveOf.mp ha
  have hj' := (classOf_spec (h.size_le b hb)).2
  have haj := ((h.slab _ hj').addr hj' (a := b.1) (by simp [ha])).1
  rw [bne_iff_ne]
  intro e
  rw [e] at haj
  exact h.ne_slab hi hj' hj haj hp

/-- The block goes into the list of its allocator. -/
theorem Inv.kfreePut (h : Inv g s) (hi : i < 30) (hp : p ∈ liveOf s.live i) :
    ∃ u nodes, s.heap.kfree p =
        (if u.blockCount (pageBase p) = capacity (size i) then
          (Heap.unlinkLoop i (pageBase p) (2 ^ 64 + 1) u 0 (u.allocators i).freeList).bind fun t =>
            ((t.setSlabs i ((t.slabs i).erase (pageBase p))).kfreePage (pageBase p)).map
              Heap.releaseMem
        else some u.releaseMem) ∧
      Slab u i (liveOf (without s.live p) i) nodes (g.fresh i) ∧ u.slabs = s.heap.slabs ∧
      ClassEdit i (s.heap.slabs i) { s.heap with memLock := true } u := by
  have hs := Slab.permLive (h.slab_acquired hi true) (h.perm_without hi hp)
  have hpa := hs.addr hi (a := p) (by simp)
  obtain ⟨nodes', hu, hsl, hedit⟩ := hs.putBlock hi
  have hpin : pageBase p ∈ s.heap.slabs i := hpa.1
  have hsize : s.heap.blockSize (pageBase p) = size i := ((h.slab i hi).header _ hpin).1
  have hsize' := (hu.header (pageBase p) (by rw [hsl]; exact hpin)).1
  refine ⟨_, nodes', ?_, hu, hsl, hedit⟩
  have h1 : Heap.blockSize { s.heap with memLock := true } (pageBase p) = size i := hsize
  simp only [Heap.kfree, if_neg hpa.2.2.2.2.2, h.acquireMem, Option.bind_eq_bind, Option.bind_some,
    h1]
  rw [if_neg (not_lt.mpr (size_spec hi).2.2),
    getAllocatorIndex_eq (s := { s.heap with memLock := true }) h.blockSize,
    classOf_size hi, hsize']
  congr 2
  funext t
  cases Heap.kfreePage (t.setSlabs i ((t.slabs i).erase (pageBase p))) (pageBase p) <;> rfl

theorem Inv.size_without (h : Inv g s) (p : ℕ) : ∀ b ∈ without s.live p, b.2 ≤ 2040 := fun b hb =>
  h.size_le b (List.mem_of_mem_filter hb)

theorem Inv.addrs_without (h : Inv g s) (p : ℕ) : ((without s.live p).map Prod.fst).Nodup :=
  h.addrs.sublist (List.Sublist.map _ List.filter_sublist)

/-- A live block in another page than that of `p` stays live. -/
theorem Inv.used_without (h : Inv g s) (hi : i < 30) (hp : p ∈ liveOf s.live i)
    (hq : q ∈ s.heap.slabs i) (hqp : q ≠ pageBase p) :
    ∃ a ∈ liveOf (without s.live p) i, pageBase a = q := by
  obtain ⟨a, ha, rfl⟩ := h.used i hi q hq
  refine ⟨a, ?_, rfl⟩
  rcases List.mem_cons.mp ((h.perm_without hi hp).mem_iff.mpr ha) with rfl | ha
  · exact absurd rfl hqp
  · exact ha

/-- The page of the block keeps a live block. -/
theorem Inv.kfreeKeep (h : Inv g s) (hi : i < 30) (hp : p ∈ liveOf s.live i) {nodes : List ℕ}
    (hu : Slab u i (liveOf (without s.live p) i) nodes (g.fresh i)) (hsl : u.slabs = s.heap.slabs)
    (hedit : ClassEdit i (s.heap.slabs i) { s.heap with memLock := true } u)
    (hcnt : u.blockCount (pageBase p) ≠ capacity (size i)) :
    ∃ g', Inv g' ⟨u.releaseMem, without s.live p, s.pages, s.failed⟩ := by
  have hpin : pageBase p ∈ s.heap.slabs i := ((h.slab i hi).addr hi (a := p) (by simp [hp])).1
  have hag : ∀ c, 8 ∣ c → pageBase c ∉ s.heap.slabs i → Heap.Agree s.heap u.releaseMem c :=
    fun c hc hcl => hedit.agree c hc hcl
  refine ⟨_, h.ofClass hi g.owner rfl hedit.pageLock (Slab.releaseMem hu hi) hedit.allocators
    hedit.slabs
    (fun c hc j hj hji hcl => hag c hc (h.ne_slab hi hj hji hcl))
    (h.free.frame hedit.freePages (h.agree_free hi hag))
    (fun j hj => h.liveOf_without hi hpin hj)
    (fun q hq => h.ownSlab _ hi q (hsl ▸ hq)) (fun q _ => rfl) h.ownFree ?_ (h.size_without p)
    (h.addrs_without p) ?_⟩
  · intro q hq
    have hq' : q ∈ s.heap.slabs i := hsl ▸ hq
    by_cases hqp : q = pageBase p
    · subst hqp
      have hc := hu.count hi hq
      by_contra hno
      push Not at hno
      rw [List.countP_eq_zero.mpr fun a ha => by simpa [inPage] using hno a ha] at hc
      exact hcnt (by omega)
    · exact h.used_without hi hp hq' hqp
  · show u.kallocPageCnt + _ = _ + ((u.slabs i).length : ℤ)
    rw [hsl, hedit.kallocPageCnt]

/-- The page of the block has no live block left and leaves the allocator. -/
theorem Inv.kfreeUnlink (h : Inv g s) (hi : i < 30) (hp : p ∈ liveOf s.live i) {nodes : List ℕ}
    (hu : Slab u i (liveOf (without s.live p) i) nodes (g.fresh i)) (hsl : u.slabs = s.heap.slabs)
    (hedit : ClassEdit i (s.heap.slabs i) { s.heap with memLock := true } u)
    (hcnt : u.blockCount (pageBase p) = capacity (size i)) :
    ∃ t nodes' fresh',
      Heap.unlinkLoop i (pageBase p) (2 ^ 64 + 1) u 0 (u.allocators i).freeList = some t ∧
      (t.setSlabs i ((t.slabs i).erase (pageBase p))).slabs =
        Function.update s.heap.slabs i ((s.heap.slabs i).erase (pageBase p)) ∧
      Slab (t.setSlabs i ((t.slabs i).erase (pageBase p))) i (liveOf (without s.live p) i)
        nodes' fresh' ∧
      ClassEdit i (s.heap.slabs i) { s.heap with memLock := true }
        (t.setSlabs i ((t.slabs i).erase (pageBase p))) := by
  have hpin : pageBase p ∈ s.heap.slabs i := ((h.slab i hi).addr hi (a := p) (by simp [hp])).1
  have hfree : (liveOf (without s.live p) i).countP (inPage (pageBase p)) = 0 := by
    have := hu.count hi (q := pageBase p) (by rw [hsl]; exact hpin)
    omega
  obtain ⟨t, nodes', fresh', hun, htsl, hslab, hedit'⟩ := hu.releasePage hi hfree
  rw [hsl] at hedit'
  exact ⟨t, nodes', fresh', hun, by rw [htsl, hsl]; simp [Heap.setSlabs, htsl, hsl], hslab,
    hedit.trans hedit'⟩

/-- That page is given back: `u` is the heap without it. -/
theorem Inv.kfreeGiveBack (h : Inv g s) (hi : i < 30) (hp : p ∈ liveOf s.live i)
    {nodes fresh : List ℕ} (hl : s.heap.pageLock = false)
    (hsl : u.slabs = Function.update s.heap.slabs i ((s.heap.slabs i).erase (pageBase p)))
    (hu : Slab u i (liveOf (without s.live p) i) nodes fresh)
    (hedit : ClassEdit i (s.heap.slabs i) { s.heap with memLock := true } u) :
    ∃ v g', u.kfreePage (pageBase p) = some v ∧ v.freePages = pageBase p ∧ v.slabs = u.slabs ∧
      Inv g' ⟨v.releaseMem, without s.live p, s.pages, s.failed⟩ := by
  have hpin : pageBase p ∈ s.heap.slabs i := ((h.slab i hi).addr hi (a := p) (by simp [hp])).1
  have hgood := (h.slab i hi).page _ hpin
  have hnd := (h.slab i hi).nodup
  have hnew : pageBase p ∉ g.fr := h.not_free hi hpin
  have hag : ∀ c, 8 ∣ c → pageBase c ∉ s.heap.slabs i → Heap.Agree s.heap u c :=
    fun c hc hcl => hedit.agree c hc hcl
  obtain ⟨v, hv, hvfree, hvedit, hvl, hvcnt⟩ := kfreePage_spec
    (h.free.frame hedit.freePages (h.agree_free hi hag)) (hedit.pageLock.trans hl) hgood hnew
  have hvi : v.slabs i = (s.heap.slabs i).erase (pageBase p) := by
    rw [hvedit.slabs, hsl, Function.update_self]
  have hvj : ∀ j, j ≠ i → v.slabs j = s.heap.slabs j := fun j hj => by
    rw [hvedit.slabs, hsl, Function.update_of_ne hj]
  have hmem : ∀ q ∈ v.slabs i, q ∈ s.heap.slabs i ∧ q ≠ pageBase p := by
    intro q hq
    rw [hvi, hnd.mem_erase_iff] at hq
    exact ⟨hq.2, hq.1⟩
  have hvslab : Slab v i (liveOf (without s.live p) i) nodes fresh := by
    refine hu.frameOff hi (by rw [hvedit.allocators]) (by rw [hvedit.slabs]) fun c hc hcl => ?_
    refine hvedit.agree c hc fun hm => ?_
    rw [← hvedit.slabs] at hcl
    rcases List.mem_cons.mp hm with hm | hm
    · exact (hmem _ hcl).2 hm
    · exact h.not_free hi (hmem _ hcl).1 hm
  have hown : ∀ q, q ≠ pageBase p →
      Function.update g.owner (pageBase p) .free q = g.owner q := fun q hq =>
    Function.update_of_ne hq _ _
  have hcount : v.kallocPageCnt + ((s.heap.slabs i).length : ℤ) =
      s.heap.kallocPageCnt + ((v.slabs i).length : ℤ) := by
    have hlen := List.length_erase_add_one hpin
    rw [hvi, hvcnt, hedit.kallocPageCnt, ← hlen]
    push_cast
    ring
  refine ⟨v, _, hv, hvfree.chain.head_eq, hvedit.slabs, h.ofClass (u := v.releaseMem) hi
    (Function.update g.owner (pageBase p) .free) rfl (hvl.trans hl.symm) (Slab.releaseMem hvslab hi)
    (fun j hj => (congrFun hvedit.allocators j).trans (hedit.allocators j hj)) hvj ?_
    (hvfree.frame rfl fun c _ => Heap.agree_of_mem rfl c)
    (fun j hj => h.liveOf_without hi hpin hj) ?_ ?_ ?_ ?_ (h.size_without p)
    (h.addrs_without p) hcount⟩
  · intro c hc j hj hji hcl
    have h1 : Heap.Agree s.heap u c := hag c hc (h.ne_slab hi hj hji hcl)
    have h2 : Heap.Agree u v c := hvedit.agree c hc fun hm => by
      rcases List.mem_cons.mp hm with hm | hm
      · rw [hm] at hcl
        exact h.ne_slab hi hj hji hcl hpin
      · exact h.not_free hj hcl hm
    exact h1.trans h2
  · intro q hq
    obtain ⟨hq1, hq2⟩ := hmem q hq
    rw [hown q hq2]
    exact h.ownSlab i hi q hq1
  · intro q hq
    refine hown q ?_
    rintro rfl
    rw [h.ownSlab i hi _ hpin] at hq
    rcases hq with hq | ⟨j, hj, hq⟩
    · exact Owner.noConfusion hq
    · exact hj (Owner.slab.inj hq).symm
  · intro q hq
    rcases List.mem_cons.mp hq with rfl | hq
    · exact Function.update_self ..
    · have hqp : q ≠ pageBase p := fun e => hnew (e ▸ hq)
      rw [hown q hqp]
      exact h.ownFree q hq
  · intro q hq
    obtain ⟨hq1, hq2⟩ := hmem q hq
    exact h.used_without hi hp hq1 hq2

/-- What `kfree` of a live block does. It does not return if it has to give back a page
    and the lock of the pages is held. -/
theorem Inv.kfree_live (h : Inv g s) (hi : i < 30) (hp : p ∈ liveOf s.live i) :
    (∃ v g', s.heap.kfree p = some v ∧ v.slabs = s.heap.slabs ∧
      v.freePages = s.heap.freePages ∧
      (∃ a ∈ liveOf (without s.live p) i, pageBase a = pageBase p) ∧
      Inv g' ⟨v, without s.live p, s.pages, s.failed⟩) ∨
    (∀ a ∈ liveOf (without s.live p) i, pageBase a ≠ pageBase p) ∧
      ((s.heap.pageLock = true ∧ s.heap.kfree p = none) ∨
        ∃ v g', s.heap.kfree p = some v ∧ v.freePages = pageBase p ∧
          v.slabs = Function.update s.heap.slabs i ((s.heap.slabs i).erase (pageBase p)) ∧
          Inv g' ⟨v, without s.live p, s.pages, s.failed⟩) := by
  have hpin : pageBase p ∈ s.heap.slabs i := ((h.slab i hi).addr hi (a := p) (by simp [hp])).1
  obtain ⟨u, nodes, hk, hu, hsl, hedit⟩ := h.kfreePut hi hp
  have hc := hu.count hi (q := pageBase p) (by rw [hsl]; exact hpin)
  by_cases hcnt : u.blockCount (pageBase p) = capacity (size i)
  · right
    have hno : (liveOf (without s.live p) i).countP (inPage (pageBase p)) = 0 := by omega
    refine ⟨fun a ha => by simpa [inPage] using List.countP_eq_zero.mp hno a ha, ?_⟩
    obtain ⟨t, nodes', fresh', hun, htsl, hslab, hedit'⟩ := h.kfreeUnlink hi hp hu hsl hedit hcnt
    rw [if_pos hcnt, hun, Option.bind_some] at hk
    cases hl : s.heap.pageLock with
    | true =>
      left
      refine ⟨rfl, hk.trans ?_⟩
      have hwl := hedit'.pageLock.trans hl
      simp only [Heap.kfreePage, Heap.acquirePage, hwl, if_true]
      rfl
    | false =>
      right
      obtain ⟨v, g', hv, hv1, hv2, hv3⟩ := h.kfreeGiveBack hi hp hl htsl hslab hedit'
      refine ⟨v.releaseMem, g', ?_, hv1, hv2.trans htsl, hv3⟩
      rw [hk, hv, Option.map_some]
  · left
    rw [if_neg hcnt] at hk
    obtain ⟨g', hg⟩ := h.kfreeKeep hi hp hu hsl hedit hcnt
    refine ⟨u.releaseMem, g', hk, hsl, hedit.freePages, ?_, hg⟩
    by_contra hno
    push Not at hno
    rw [List.countP_eq_zero.mpr fun a ha => by simpa [inPage] using hno a ha] at hc
    exact hcnt (by omega)

/-! ## The other actions -/

theorem Inv.kallocPageNew (h : Inv g s) {fr : List ℕ} (hl : s.heap.pageLock = false)
    (hfr : g.fr = q :: fr) :
    ∃ v g', s.heap.kallocPage = some (v, q) ∧ q ≠ 0 ∧
      Inv g' ⟨v, s.live, q :: s.pages, s.failed⟩ := by
  have hfree := h.free
  rw [hfr] at hfree
  obtain ⟨t, hpage, hfree', hedit, htl, hcnt⟩ := kallocPage_cons hfree hl
  have hqf : q ∈ g.fr := hfr ▸ List.mem_cons_self
  have hq := h.free.page q hqf
  have hqfr : q ∉ fr := (List.nodup_cons.mp hfree.nodup).1
  have hsub : ∀ p ∈ fr, p ∈ g.fr := fun p hp => hfr ▸ List.mem_cons_of_mem q hp
  have hnu : q ∉ s.pages := by
    intro hm
    have := h.ownUser q hm
    rw [h.ownFree q hqf] at this
    exact Owner.noConfusion this
  have hown : ∀ p, p ≠ q → Function.update g.owner q .user p = g.owner p := fun p hp =>
    Function.update_of_ne hp _ _
  refine ⟨t, ⟨Function.update g.owner q .user, fr, g.nodes, g.fresh⟩, hpage, hq.ne_zero,
    hedit.memLock.trans h.memLock, by simpa [htl, hl] using h.pageLock, fun i hi => ?_,
    by rw [hedit.allocators]; exact h.last, by rw [hedit.slabs]; exact h.others, hfree',
    List.forall_mem_cons.mpr ⟨hq, h.page⟩, List.nodup_cons.mpr ⟨hnu, h.nodup⟩, ?_, ?_, ?_,
    by rw [hedit.slabs]; exact h.used, h.size_le, h.addrs, ?_⟩
  · refine (h.slab i hi).frameOff hi (by rw [hedit.allocators]) (by rw [hedit.slabs])
      fun c hc hcl => hedit.agree c hc fun hm => h.not_free hi hcl (hsub _ hm)
  · intro i hi p hp
    rw [hedit.slabs] at hp
    refine (hown p ?_).trans (h.ownSlab i hi p hp)
    rintro rfl
    exact h.not_free hi hp hqf
  · intro p hp
    rcases List.mem_cons.mp hp with rfl | hp'
    · exact Function.update_self ..
    · exact (hown p fun e => hnu (e ▸ hp')).trans (h.ownUser p hp')
  · intro p hp
    exact (hown p fun e => hqfr (e ▸ hp)).trans (h.ownFree p (hsub p hp))
  · have := h.count
    have hs : slabCount t = slabCount s.heap := by rw [slabCount, hedit.slabs, slabCount]
    show t.kallocPageCnt = ((q :: s.pages).length : ℤ) + slabCount t + s.failed
    rw [hs, hcnt, this, List.length_cons]
    push_cast
    ring

theorem Inv.kallocPageFail (h : Inv g s) (hl : s.heap.pageLock = false) (hfr : g.fr = []) :
    s.heap.kallocPage = some ({ s.heap with
      kallocPageCnt := s.heap.kallocPageCnt + 1, pageLock := true }, 0) := by
  have hfree := h.free
  rw [hfr] at hfree
  rw [kallocPage_nil hfree hl, ← h.memLock]

theorem Inv.kfreePage (h : Inv g s) (hq : q ∈ s.pages) (hl : s.heap.pageLock = false) :
    ∃ v g', s.heap.kfreePage q = some v ∧ Inv g' ⟨v, s.live, s.pages.erase q, s.failed⟩ := by
  have hgood := h.page q hq
  have hou := h.ownUser q hq
  have hnew : q ∉ g.fr := by
    intro hm
    rw [h.ownFree q hm] at hou
    exact Owner.noConfusion hou
  have hns : ∀ i < 30, q ∉ s.heap.slabs i := fun i hi => h.not_mem_slabs hi (by
    rw [hou]
    exact Owner.noConfusion)
  obtain ⟨t, hpage, hfree', hedit, htl, hcnt⟩ := kfreePage_spec h.free hl hgood hnew
  have hown : ∀ p, p ≠ q → Function.update g.owner q .free p = g.owner p := fun p hp =>
    Function.update_of_ne hp _ _
  refine ⟨t, ⟨Function.update g.owner q .free, q :: g.fr, g.nodes, g.fresh⟩, hpage,
    hedit.memLock.trans h.memLock, by simpa [htl, hl] using h.pageLock, fun i hi => ?_,
    by rw [hedit.allocators]; exact h.last, by rw [hedit.slabs]; exact h.others, hfree',
    fun p hp => h.page p (List.mem_of_mem_erase hp), h.nodup.erase q, ?_, ?_, ?_,
    by rw [hedit.slabs]; exact h.used, h.size_le, h.addrs, ?_⟩
  · refine (h.slab i hi).frameOff hi (by rw [hedit.allocators]) (by rw [hedit.slabs])
      fun c hc hcl => hedit.agree c hc fun hm => ?_
    rcases List.mem_cons.mp hm with hm | hm
    · rw [hm] at hcl
      exact hns i hi hcl
    · exact h.not_free hi hcl hm
  · intro i hi p hp
    rw [hedit.slabs] at hp
    refine (hown p ?_).trans (h.ownSlab i hi p hp)
    rintro rfl
    exact hns i hi hp
  · intro p hp
    obtain ⟨hpq, hp⟩ := h.nodup.mem_erase_iff.mp hp
    exact (hown p hpq).trans (h.ownUser p hp)
  · intro p hp
    rcases List.mem_cons.mp hp with rfl | hp
    · exact Function.update_self ..
    · exact (hown p fun e => hnew (e ▸ hp)).trans (h.ownFree p hp)
  · have hc := h.count
    have hlen := List.length_erase_add_one hq
    have hs : slabCount t = slabCount s.heap := by rw [slabCount, hedit.slabs, slabCount]
    show t.kallocPageCnt = ((s.pages.erase q).length : ℤ) + slabCount t + s.failed
    rw [hs, hcnt, hc, ← hlen]
    push_cast
    ring

/-- A store to another page changes no word of a page. -/
theorem agree_write {h : Heap} {a c : ℕ} {b : UInt8} (hc : 8 ∣ c) (hne : pageBase c ≠ pageBase a) :
    Heap.Agree h { h with mem := Function.update h.mem a b } c := by
  intro x h1 h2
  refine Function.update_of_ne ?_ _ _
  rintro rfl
  refine hne (pageBase_eq (pageBase_dvd c) ?_ ?_).symm
  · unfold pageBase pageSize at *
    omega
  · unfold pageBase pageSize at *
    omega

/-- A store inside a live block changes no word of the allocator. -/
theorem Inv.write_live (h : Inv g s) (hi : i < 30) (hp : p ∈ liveOf s.live i) {a : ℕ}
    (h1 : p ≤ a) (h2 : a < p + size i) {b : UInt8} :
    Slab { s.heap with mem := Function.update s.heap.mem a b } i (liveOf s.live i) (g.nodes i)
      (g.fresh i) := by
  obtain ⟨h8, hb, -⟩ := size_spec hi
  have hs := h.slab i hi
  have hpa := hs.addr hi (a := p) (by simp [hp])
  have houtside : ∀ c, (a < c ∨ c + 8 ≤ a) →
      Heap.Agree s.heap { s.heap with mem := Function.update s.heap.mem a b } c := by
    intro c hc x h3 h4
    refine Function.update_of_ne ?_ _ _
    omega
  refine hs.frame rfl rfl (fun x hx => houtside x ?_) fun q hq => houtside q ?_
  · obtain ⟨q, hq, hxq⟩ := hs.slot_of_node hx
    obtain ⟨q', hq', hpq⟩ := hs.slot_of_live hp
    have hne : x ≠ p := by
      rintro rfl
      have hnd := (hs.nodup_blocks hi).of_append_left
      exact List.disjoint_of_nodup_append hnd hp hx
    have := slots_disjoint h8 (by omega) (hs.page q hq).aligned (hs.page q' hq').aligned hxq hpq hne
    omega
  · obtain ⟨m, hm⟩ := (hs.page q hq).aligned
    have h3 := hpa.2.2.1
    have h4 := hpa.2.2.2.1
    unfold pageBase pageSize at *
    omega

theorem Inv.write (h : Inv g s) {a : ℕ} {b : UInt8} (he : Enabled s (.write a b)) :
    Inv g ⟨{ s.heap with mem := Function.update s.heap.mem a b }, s.live, s.pages, s.failed⟩ := by
  have hother : ∀ c, 8 ∣ c → g.owner (pageBase c) ≠ g.owner (pageBase a) →
      Heap.Agree s.heap { s.heap with mem := Function.update s.heap.mem a b } c := fun c hc hne =>
    agree_write hc fun e => hne (congrArg g.owner e)
  have hfree : ∀ q ∈ g.fr, g.owner (pageBase q) = .free := fun q hq => by
    rw [pageBase_self (h.free.page q hq).aligned]
    exact h.ownFree q hq
  have hslab : ∀ i < 30, Slab { s.heap with mem := Function.update s.heap.mem a b } i
      (liveOf s.live i) (g.nodes i) (g.fresh i) ∧ g.owner (pageBase a) ≠ .free := by
    intro i hi
    rcases he with ⟨c, hc, h1, h2⟩ | ⟨q, hq, h1, h2⟩
    · have hj := (classOf_spec (h.size_le c hc)).2
      have hcj : c.1 ∈ liveOf s.live (classOf c.2) := mem_liveOf.mpr ⟨c, hc, rfl, rfl⟩
      have hca := (h.slab _ hj).addr hj (a := c.1) (by simp [hcj])
      unfold blockLen at h2
      have hpa : pageBase a = pageBase c.1 :=
        pageBase_eq (pageBase_dvd _) (by omega) (by omega)
      have hoa : g.owner (pageBase a) = .slab (classOf c.2) := by
        rw [hpa]
        exact h.ownSlab _ hj _ hca.1
      refine ⟨?_, by rw [hoa]; exact Owner.noConfusion⟩
      by_cases hij : i = classOf c.2
      · subst hij
        exact h.write_live hi hcj h1 h2
      · refine (h.slab i hi).frameOff hi rfl rfl fun x hx hxi => hother x hx ?_
        rw [h.ownSlab i hi _ hxi, hoa]
        exact fun e => hij (Owner.slab.inj e)
    · have hoa : g.owner (pageBase a) = .user := by
        rw [pageBase_eq (h.page q hq).aligned h1 h2]
        exact h.ownUser q hq
      refine ⟨?_, by rw [hoa]; exact Owner.noConfusion⟩
      refine (h.slab i hi).frameOff hi rfl rfl fun x hx hxi => hother x hx ?_
      rw [h.ownSlab i hi _ hxi, hoa]
      exact Owner.noConfusion
  refine ⟨h.memLock, h.pageLock, fun i hi => (hslab i hi).1, h.last, h.others,
    h.free.frame rfl fun q hq => hother q ?_ ?_, h.page, h.nodup, h.ownSlab, h.ownUser, h.ownFree,
    h.used, h.size_le, h.addrs, h.count⟩
  · exact eight_dvd_page (h.free.page q hq).aligned
  · rw [hfree q hq]
    exact (hslab 0 (by omega)).2.symm

end ShikiOS.Kernel.Kalloc
