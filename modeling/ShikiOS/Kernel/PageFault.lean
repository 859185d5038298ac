import ShikiOS.Kernel.AddressSpace

/-!
# Page faults (`kernel/paging.c`)

Outside of the mappings of files a fault gives its page a new page of memory. On a read-only page the
handler means to copy the old page first, but its variable `p` is the process, and not the new page:
the copy goes over the `Proc` structure.

Left out: the walk over the sections, whose result is not used, and the registers.

Results:
* `pgfault_iff`: when a fault does what it should.
* `pgfault_overwrites_proc`: a fault on a read-only page changes the `Proc` structure, and leaves in
  the new page what was there.
-/

namespace ShikiOS.Kernel

open ShikiOS.Lib

/-- Bytes that are copied to `a`. -/
def Heap.putBytes (s : Heap) (a : ℕ) (l : List UInt8) : Heap :=
  { s with mem := fun x => if a ≤ x ∧ x < a + l.length then l.getD (x - a) 0 else s.mem x }

variable {h : Heap} {q old y : ℕ} {fr : List ℕ}

/-! ## The words that `kalloc_page` and `kfree_page` change -/

theorem setPrev_mem {v : ℕ} (hy : h.freePages ≠ 0 → y < h.freePages + 8 ∨ h.freePages + 16 ≤ y) :
    (h.setPrev v).mem y = h.mem y := by
  rw [Heap.setPrev]
  split_ifs with h0
  · exact putLE_outside _ ((hy h0).imp_right fun hle => by omega)
  · rfl

theorem setPrev_freePages {v : ℕ} : (h.setPrev v).freePages = h.freePages := by
  rw [Heap.setPrev]
  split_ifs <;> rfl

theorem kallocPage_first (hf : FreePages h (q :: fr)) (hl : h.pageLock = false) :
    ∃ t, h.kallocPage = some (t, q) ∧ t.pageLock = false ∧ t.freePages = h.link q ∧
      ∀ y, (h.link q ≠ 0 → y < h.link q + 8 ∨ h.link q + 16 ≤ y) → t.mem y = h.mem y := by
  obtain ⟨rfl, hq0, -⟩ := hf.chain
  have hp : h.kallocPage = some ((let u := Heap.setPrev { h with
      kallocPageCnt := h.kallocPageCnt + 1, pageLock := true, freePages := h.link h.freePages } 0
      { u with pageCnt := Function.update u.pageCnt (pageIndex h.freePages) 0 }.releasePage),
      h.freePages) := by
    simp only [Heap.kallocPage, Heap.acquirePage, hl, hq0, Bool.false_eq_true, if_false,
      Option.bind_eq_bind, Option.bind_some]
    rfl
  generalize hu : Heap.setPrev { h with
    kallocPageCnt := h.kallocPageCnt + 1, pageLock := true
    freePages := h.link h.freePages } 0 = u at hp
  have hfirst : u.freePages = h.link h.freePages := by
    rw [← hu]
    exact setPrev_freePages
  have hmem : ∀ y, (h.link h.freePages ≠ 0 →
      y < h.link h.freePages + 8 ∨ h.link h.freePages + 16 ≤ y) → u.mem y = h.mem y := by
    intro y hy
    rw [← hu]
    exact setPrev_mem (h := { h with
      kallocPageCnt := h.kallocPageCnt + 1, pageLock := true, freePages := h.link h.freePages }) hy
  exact ⟨_, hp, rfl, hfirst, hmem⟩

theorem kfreePage_first (hl : h.pageLock = false) :
    ∃ t, h.kfreePage old = some t ∧ ∀ y, (y < old ∨ old + 8 ≤ y) →
      (h.freePages ≠ 0 → y < h.freePages + 8 ∨ h.freePages + 16 ≤ y) → t.mem y = h.mem y := by
  have hp : h.kfreePage old = some (
      let u := ((Heap.setLink { h with pageLock := true } old h.freePages).setPrev old)
      { u with freePages := old, kallocPageCnt := u.kallocPageCnt - 1 }.releasePage) := by
    simp only [Heap.kfreePage, Heap.acquirePage, hl, Bool.false_eq_true, if_false,
      Option.bind_eq_bind, Option.bind_some]
    rfl
  have hset : ∀ y, (y < old ∨ old + 8 ≤ y) →
      (Heap.setLink { h with pageLock := true } old h.freePages).mem y = h.mem y :=
    fun y hy => putLE_outside _ hy
  have hfirst : (Heap.setLink { h with pageLock := true } old h.freePages).freePages = h.freePages :=
    rfl
  generalize Heap.setLink { h with pageLock := true } old h.freePages = u at hp hset hfirst
  have hmem : ∀ y, (h.freePages ≠ 0 → y < h.freePages + 8 ∨ h.freePages + 16 ≤ y) →
      (u.setPrev old).mem y = u.mem y := by
    rw [← hfirst]
    exact fun y => setPrev_mem
  generalize u.setPrev old = w at hp hmem
  exact ⟨_, hp, fun y h1 h2 => (hmem y h2).trans (hset y h1)⟩

namespace Paging

open UserPtr (pteValid pteRo)

/-! ## Model -/

/-- The fields of a `Vma` that a fault reads, and what `inodes.read` finds for the page at an
    address. -/
structure Mapping where
  start : UInt64
  stop : UInt64
  permission : UInt64
  read : UInt64 → List UInt8

/-- The address is in the mapping. -/
def Mapping.Covers (v : Mapping) (addr : UInt64) : Prop := v.start ≤ addr ∧ addr < v.stop

instance (v : Mapping) (addr : UInt64) : Decidable (v.Covers addr) :=
  inferInstanceAs (Decidable (_ ∧ _))

/-- `PAGE_BASE`. -/
def pageBaseU64 (addr : UInt64) : UInt64 := addr &&& ~~~0xFFF

/-- `&p->pgdir`, and `&p->pgdir.pt`. -/
def pgdirOf (p : ℕ) : ℕ := p + 112

/-- The loop of `mappages` (paging.c:134-142), in `n` rounds. -/
def mapLoop (pd : ℕ) (perm : UInt64) : ℕ → UInt64 → UInt64 → M ℤ
  | 0, _, _ => return 0
  | n + 1, a, pa => do
    match ← getPte pd a true with
    | none => return -1
    | some pte =>
      store pte (pa ||| perm ||| pteValid)
      mapLoop pd perm n (a + 0x1000) (pa + 0x1000)

/-- `mappages` (paging.c:115-144). -/
def mappages (pd : ℕ) (va size pa perm : UInt64) : M ℤ := do
  if va % 0x1000 ≠ 0 then throw .panic
  if size % 0x1000 ≠ 0 then throw .panic
  if size = 0 then throw .panic
  mapLoop pd perm (size / 0x1000).toNat va pa

/-- `inodes.read` into the page at `a`. -/
def readPage (a : ℕ) (l : List UInt8) : M Unit :=
  modify fun s => { s with heap := s.heap.putBytes a l }

/-- `memmove(p, src, PAGE_SIZE)` with the process `p`. The page directory is a part of it. -/
def moveOverProc (p src : ℕ) : M Unit := do
  movePage p src
  setPt (pgdirOf p) ((← get).heap.link (pgdirOf p))

/-- A fault in a mapping (paging.c:173-190). -/
def mapFault (pd : ℕ) (v : Mapping) (addr : UInt64) : M ℤ := do
  let mem ← kallocPage
  clearPage mem
  if (← mappages pd (pageBaseU64 addr) 0x1000 (UInt64.ofNat mem) v.permission) ≠ 0 then
    kfree mem
    return -5
  readPage mem (v.read (pageBaseU64 addr))
  return 0

/-- A fault outside of the mappings (paging.c:192-217). -/
def anonFault (p : ℕ) (addr : UInt64) (iss : ℤ) : M ℤ := do
  match ← getPte (pgdirOf p) addr true with
  | none => throw .null
  | some pte =>
    let old ← load pte
    if old = 0 then
      store pte (entryOf (← kallocPage) pteUserData)
    else if old &&& pteRo ≠ 0 then
      let newPage ← kallocPage
      moveOverProc p (pageOf old)
      store pte (entryOf newPage pteUserData)
      kfreePage (pageOf old)
    else
      store pte (entryOf (← kallocPage) pteUserData)
    return iss

/-- `pgfault_handler` (paging.c:146-219) of the process at `p`. -/
def pgfaultHandler (p : ℕ) (vma : List Mapping) (addr : UInt64) (iss : ℤ) : M ℤ :=
  match vma.find? fun v => v.Covers addr with
  | some v => mapFault (pgdirOf p) v addr
  | none => anonFault p addr iss

/-! ## What a fault should do -/

variable {s t : Vm} {fr' : List ℕ} {T T' : Tree} {p x a n : ℕ} {addr : UInt64} {iss : ℤ}
  {vma : List Mapping}

/-- One fresh page is mapped for the address, and nothing else changes. -/
def MapsFresh (s : Vm) (pd : ℕ) (fr : List ℕ) (T : Tree) (addr : UInt64) (t : Vm) : Prop :=
  ∃ q fr' T', q ∈ fr ∧ q ∉ fr' ∧ (∀ p, T' p ≠ some q) ∧
    Sets s pd fr T (vpn addr) (entryOf q pteUserData) t fr' T'

/-- A byte that a private copy of the page `old` in the page `q` must not change. The second words of
    the free pages are links, and the entry is at `x`. -/
def Spared (fr : List ℕ) (q old x y : ℕ) : Prop :=
  pageBase y ≠ q ∧ pageBase y ≠ old ∧ (y < x ∨ x + 8 ≤ y) ∧
    (pageBase y ∈ fr → y < pageBase y + 8 ∨ pageBase y + 16 ≤ y)

/-- The entry at `x` leads to a fresh page that may be written, with the bytes of the old one, and
    nothing else changes. -/
def CopiedOnWrite (s : Vm) (fr : List ℕ) (x : ℕ) (t : Vm) : Prop :=
  ∃ q ∈ fr, t.heap.word x = entryOf q pteUserData ∧
    (∀ o < pageSize, t.heap.mem (q + o) = s.heap.mem (pageOf (s.heap.word x) + o)) ∧ t.pt = s.pt ∧
    ∀ y, Spared fr q (pageOf (s.heap.word x)) x y → t.heap.mem y = s.heap.mem y

/-- The entry of the address is at `x` and read-only. -/
def ReadOnly (s : Vm) (T : Tree) (addr : UInt64) (x : ℕ) : Prop :=
  slotOf T (vpn addr) = some x ∧ s.heap.word x &&& pteRo ≠ 0

/-- There is no entry for the address, or an empty one. -/
def Empty (s : Vm) (T : Tree) (addr : UInt64) : Prop :=
  ∀ x, slotOf T (vpn addr) = some x → s.heap.word x = 0

/-- What a fault outside of the mappings should leave. -/
def FaultSpec (s : Vm) (pd : ℕ) (fr : List ℕ) (T : Tree) (addr : UInt64) (t : Vm) : Prop :=
  (∀ x, ReadOnly s T addr x → CopiedOnWrite s fr x t) ∧ (Empty s T addr → MapsFresh s pd fr T addr t)

/-- By coincidence it does no harm to copy the page to `p`, and the page that is taken holds its
    bytes already. -/
def Coincides (h : Heap) (fr : List ℕ) (p x : ℕ) : Prop :=
  (∀ o < pageSize, (h.movePage p (pageOf (h.word x))).mem (h.freePages + o) =
    h.mem (pageOf (h.word x) + o)) ∧
  ∀ y, Spared fr h.freePages (pageOf (h.word x)) x y →
    (h.movePage p (pageOf (h.word x))).mem y = h.mem y

/-- The process at `p`: its page directory is a part of the structure, which lies neither in free
    pages nor in tables nor in the page behind the entry of the address. That page is neither free
    nor a table. -/
structure ProcAt (s : Vm) (p : ℕ) (fr : List ℕ) (T : Tree) (addr : UInt64) : Prop where
  dir : PageDir s (pgdirOf p) fr T
  pt : s.pt (pgdirOf p) = s.heap.link (pgdirOf p)
  proc : ∀ y, pgdirOf p ≤ y → y < pgdirOf p + 8 → pageBase y ∉ fr ∧ ∀ l, T l ≠ some (pageBase y)
  page : ∀ x, slotOf T (vpn addr) = some x → pageOf (s.heap.word x) ∉ fr ∧
    (∀ l, T l ≠ some (pageOf (s.heap.word x))) ∧
    ∀ y, pgdirOf p ≤ y → y < pgdirOf p + 8 → pageBase y ≠ pageOf (s.heap.word x)

/-! ## An empty entry -/

/-- The entry that `get_pte` returned gets a fresh page. -/
theorem freshEntry_spec {pd : ℕ} (hg : Grows s fr T t fr' T') (hd : PageDir s pd fr T)
    (hn : n < 2 ^ 36) (hx : slotOf T' n = some x) :
    wp (do store x (entryOf (← kallocPage) pteUserData)) (fun _ u => ∃ q fr'', q ∈ fr ∧ q ∉ fr'' ∧
      (∀ p, T' p ≠ some q) ∧ Sets s pd fr T n (entryOf q pteUserData) u fr'' T') NoPage t := by
  have hdt := hg.pageDir hd
  rw [wp_bind]
  refine (kallocPage_dir hdt).imp ?_
  rintro q u ⟨fr'', rfl, hdir, hpt, hfreed, -, hmem⟩
  have hnd := List.nodup_cons.mp hdt.free.pages.nodup
  have hold : ∀ y l, T' l = some (pageBase y) → u.heap.mem y = t.heap.mem y := fun y l hT =>
    hmem y fun hm => hdt.tables.used l _ hT (List.mem_cons_of_mem q hm)
  rw [wp_store]
  refine ⟨q, fr'', hg.suffix.subset List.mem_cons_self, hnd.1, fun l hT =>
    hdt.tables.used l q hT List.mem_cons_self, hdir.store hx,
    (List.suffix_cons q fr'').trans hg.suffix, pageAt_store_self hx, fun m hm hne => ?_,
    fun l a ha => hg.table ha, fun y hy hT => ?_, hpt.trans hg.pt, hfreed.trans hg.freed⟩
  · rw [pageAt_store_of_ne hdir.tables hn hm hx hne, pageAt_frame hdt.tables m hold,
      hg.pageAt hd.tables]
  · have hyt : ∀ l, T' l ≠ some (pageBase y) := fun l ha => (hg.table ha).elim (hT l) hy
    rw [mem_store hdir.tables hx (hyt _), ← hg.mem y hy fun l _ => hT l]
    exact hmem y fun hm => hy (hg.suffix.subset (List.mem_cons_of_mem q hm))

/-! ## A read-only page -/

/-- Only addresses of a page are in its second word. -/
theorem second_word (ha : pageSize ∣ a) (hy : pageBase y = a → y < a + 8 ∨ a + 16 ≤ y) :
    y < a + 8 ∨ a + 16 ≤ y := by
  by_contra hcon
  rw [not_or, not_lt, not_le] at hcon
  have := hy (pageBase_eq ha (by omega) (by unfold pageSize; omega))
  omega

/-- `kalloc_page` changes the second word of the next free page only. -/
theorem kallocPage_mem (hf : FreeList s.heap fr) :
    wp kallocPage (fun q t => q = s.heap.freePages ∧ q ∈ fr ∧ t.pt = s.pt ∧ t.heap.pageLock = false ∧
      (t.heap.freePages ≠ 0 → t.heap.freePages ∈ fr ∧ t.heap.freePages ≠ q) ∧
      ∀ y, (pageBase y ∈ fr → pageBase y ≠ q → y < pageBase y + 8 ∨ pageBase y + 16 ≤ y) →
        t.heap.mem y = s.heap.mem y) NoPage s := by
  rw [kallocPage, wp_bind, wp_get]
  cases fr with
  | nil =>
    rw [kallocPage_nil hf.pages hf.unlocked]
    simp only [wp_bind, wp_modify, if_true, wp_throw]
    rfl
  | cons q fr =>
    obtain ⟨-, -, hchain⟩ := hf.pages.chain
    have hnd := (List.nodup_cons.mp hf.pages.nodup).1
    have hnext : s.heap.link q ≠ 0 → s.heap.link q ∈ q :: fr ∧ s.heap.link q ≠ q := by
      intro h0
      obtain ⟨l, rfl, -⟩ := Chain.exists_cons hchain h0
      refine ⟨List.mem_cons_of_mem q List.mem_cons_self, fun he => hnd ?_⟩
      rw [he]
      exact List.mem_cons_self
    obtain ⟨t, ht, hl, hfirst, hmem⟩ := kallocPage_first hf.pages hf.unlocked
    have hq0 : q ≠ 0 := (hf.kernelPage List.mem_cons_self).ne_zero
    rw [ht]
    simp only [wp_bind, wp_modify, if_neg hq0, wp_pure]
    refine ⟨hf.pages.chain.head_eq.symm, List.mem_cons_self, trivial, hl, ?_, fun y hy => hmem y ?_⟩
    · rw [hfirst]
      exact hnext
    · intro h0
      obtain ⟨hm, hne⟩ := hnext h0
      exact second_word (hf.pages.page _ hm).aligned fun he => by
        rw [he] at hy
        exact hy hm hne

/-- `kfree_page` changes the first word of the page and the second one of the first free page. -/
theorem kfreePage_mem {E : Stop → Vm → Prop} (hl : s.heap.pageLock = false) :
    wp (kfreePage old) (fun _ t => t.pt = s.pt ∧ ∀ y, (y < old ∨ old + 8 ≤ y) →
      (s.heap.freePages ≠ 0 → y < s.heap.freePages + 8 ∨ s.heap.freePages + 16 ≤ y) →
        t.heap.mem y = s.heap.mem y) E s := by
  obtain ⟨t, ht, hmem⟩ : ∃ t, s.heap.kfreePage old = some t ∧ _ := kfreePage_first hl
  rw [kfreePage, wp_bind, wp_get, ht]
  rw [wp_modify]
  exact ⟨rfl, hmem⟩

theorem Spared.of_pages (h1 : pageBase y ∉ fr) (hq : q ∈ fr) (h2 : pageBase y ≠ old)
    (h3 : y < x ∨ x + 8 ≤ y) : Spared fr q old x y :=
  ⟨fun he => h1 (he ▸ hq), h2, h3, fun hm => absurd hm h1⟩

/-- The page that is copied is not free, so taking a page does not change the copy. -/
theorem movePage_congr {h' : Heap} (hd : pageSize ∣ old)
    (hold : ∀ y, pageBase y = old → h'.mem y = h.mem y) (hy : h'.mem y = h.mem y) :
    (h'.movePage p old).mem y = (h.movePage p old).mem y := by
  show (if _ then _ else _) = (if _ then _ else _)
  split_ifs with hin
  · exact hold _ (pageBase_add hd (by omega))
  · exact hy

/-- Outside of the old page and the entry, memory is as after the copy. -/
theorem readOnly_mem (hp : ProcAt s p fr T addr) (hx : slotOf T (vpn addr) = some x) :
    wp (do
      let newPage ← kallocPage
      moveOverProc p (pageOf (s.heap.word x))
      store x (entryOf newPage pteUserData)
      kfreePage (pageOf (s.heap.word x))) (fun _ t => s.heap.freePages ∈ fr ∧
        t.heap.word x = entryOf s.heap.freePages pteUserData ∧
        t.pt = Function.update s.pt (pgdirOf p)
          ((s.heap.movePage p (pageOf (s.heap.word x))).link (pgdirOf p)) ∧
        ∀ y, pageBase y ≠ pageOf (s.heap.word x) → (y < x ∨ x + 8 ≤ y) →
          (pageBase y ∈ fr → pageBase y ≠ s.heap.freePages →
            y < pageBase y + 8 ∨ pageBase y + 16 ≤ y) →
          t.heap.mem y = (s.heap.movePage p (pageOf (s.heap.word x))).mem y) NoPage s := by
  obtain ⟨hold, hoT, hoP⟩ := hp.page x hx
  have hd : pageSize ∣ pageOf (s.heap.word x) := pageOf_dvd _
  obtain ⟨b, hb, -, hbase⟩ := slot_page hp.dir.tables hx
  rw [wp_bind]
  refine (kallocPage_mem hp.dir.free).imp ?_
  rintro q t₁ ⟨rfl, hqfr, hpt₁, hl₁, hfirst₁, hmem₁⟩
  generalize pageOf (s.heap.word x) = old at *
  have hmove : ∀ y, (pageBase y ∈ fr → pageBase y ≠ s.heap.freePages →
      y < pageBase y + 8 ∨ pageBase y + 16 ≤ y) →
      (t₁.heap.movePage p old).mem y = (s.heap.movePage p old).mem y := fun y hy =>
    movePage_congr hd (fun z hz => hmem₁ z fun hm => absurd (hz ▸ hm) hold) (hmem₁ y hy)
  simp only [wp_bind, moveOverProc, wp_movePage, wp_get, wp_setPt, wp_store]
  refine (kfreePage_mem ?_).imp ?_
  · exact hl₁
  rintro - t ⟨hpt, hmem⟩
  -- What `kfree_page` leaves as it is.
  have hkeep : ∀ y, pageBase y ≠ old → (pageBase y ∈ fr → pageBase y ≠ s.heap.freePages →
      y < pageBase y + 8 ∨ pageBase y + 16 ≤ y) →
      t.heap.mem y = ((t₁.heap.movePage p old).setWord x
        (entryOf s.heap.freePages pteUserData)).mem y := by
    intro y h1 h2
    refine hmem y ?_ fun h0 => ?_
    · by_contra hcon
      exact h1 (pageBase_eq hd (by omega) (by unfold pageSize; omega))
    · obtain ⟨hm, hne⟩ := hfirst₁ h0
      refine second_word (hp.dir.free.pages.page _ hm).aligned fun he => ?_
      rw [he] at h2
      exact h2 hm hne
  refine ⟨hqfr, ?_, ?_, fun y h1 h2 h3 => ?_⟩
  · refine (word_congr fun y h1 h2 => hkeep y ?_ ?_).trans word_setWord
    · rw [hbase y h1 h2]
      exact fun he => hoT _ (he ▸ hb)
    · rw [hbase y h1 h2]
      exact fun hm => absurd hm (hp.dir.tables.used _ b hb)
  · have hlink : (t₁.heap.movePage p old).link (pgdirOf p) =
        (s.heap.movePage p old).link (pgdirOf p) :=
      getLE_congr fun y h1 h2 => hmove y fun hm => absurd hm (hp.proc y h1 h2).1
    rw [hpt, ← hlink, ← hpt₁]
  · rw [hkeep y h1 h3, mem_setWord h2]
    exact hmove y h3

/-- When a fault on a read-only page does what it should. -/
theorem readOnly_spec (hp : ProcAt s p fr T addr) (hx : slotOf T (vpn addr) = some x) :
    wp (do
      let newPage ← kallocPage
      moveOverProc p (pageOf (s.heap.word x))
      store x (entryOf newPage pteUserData)
      kfreePage (pageOf (s.heap.word x))) (fun _ t => CopiedOnWrite s fr x t ↔
        Coincides s.heap fr p x) NoPage s := by
  obtain ⟨hold, hoT, hoP⟩ := hp.page x hx
  obtain ⟨b, hb, -, hbase⟩ := slot_page hp.dir.tables hx
  refine (readOnly_mem hp hx).imp ?_
  rintro - t ⟨hqfr, hword, hpt, hmem⟩
  have hq := hp.dir.free.kernelPage hqfr
  unfold CopiedOnWrite Coincides
  generalize pageOf (s.heap.word x) = old at *
  -- The new page, and what must be spared, is as after the copy.
  have hnew : ∀ o < pageSize,
      t.heap.mem (s.heap.freePages + o) = (s.heap.movePage p old).mem (s.heap.freePages + o) := by
    intro o ho
    have hbo : pageBase (s.heap.freePages + o) = s.heap.freePages := pageBase_add hq.aligned ho
    refine hmem _ ?_ ?_ fun _ hne => absurd hbo hne
    · rw [hbo]
      rintro rfl
      exact hold hqfr
    · by_contra hcon
      have := hbase (s.heap.freePages + o) (by omega) (by omega)
      rw [hbo] at this
      exact hp.dir.tables.used _ b hb (this ▸ hqfr)
  have hrest : ∀ y, Spared fr s.heap.freePages old x y →
      t.heap.mem y = (s.heap.movePage p old).mem y := fun y hy =>
    hmem y hy.2.1 hy.2.2.1 fun hm _ => hy.2.2.2 hm
  constructor
  · rintro ⟨q, hqm, hw, hbytes, -, hsame⟩
    obtain rfl : q = s.heap.freePages := by
      rw [← pageOf_user (hp.dir.free.kernelPage hqm), ← pageOf_user hq, ← hw, hword]
    exact ⟨fun o ho => (hnew o ho).symm.trans (hbytes o ho),
      fun y hy => (hrest y hy).symm.trans (hsame y hy)⟩
  · rintro ⟨hbytes, hsame⟩
    refine ⟨_, hqfr, hword, fun o ho => (hnew o ho).trans (hbytes o ho), ?_,
      fun y hy => (hrest y hy).trans (hsame y hy)⟩
    have hlink : (s.heap.movePage p old).link (pgdirOf p) = s.heap.link (pgdirOf p) := by
      refine getLE_congr fun y h1 h2 => hsame y ?_
      obtain ⟨hfree, htable⟩ := hp.proc y h1 h2
      refine Spared.of_pages hfree hqfr (hoP y h1 h2) ?_
      by_contra hcon
      exact htable _ (by rw [hbase y (by omega) (by omega)]; exact hb)
    rw [hpt, hlink, ← hp.pt, Function.update_eq_self]

/-! ## The handler -/

/-- Outside of the mappings. -/
theorem pgfaultHandler_eq (hout : ∀ v ∈ vma, ¬ v.Covers addr) :
    pgfaultHandler p vma addr iss = anonFault p addr iss := by
  have hnone : vma.find? (fun v => v.Covers addr) = none := by
    rw [List.find?_eq_none]
    intro v hv
    rw [decide_eq_true_eq]
    exact hout v hv
  rw [pgfaultHandler, hnone]

/-- A page that is not read-only is replaced by a fresh one. -/
theorem anonFault_fresh (hd : PageDir s (pgdirOf p) fr T) (hro : ∀ x, ¬ ReadOnly s T addr x) :
    wp (anonFault p addr iss) (fun _ t => MapsFresh s (pgdirOf p) fr T addr t) NoPage s := by
  rw [anonFault, wp_bind]
  refine (getPte_spec hd fun _ => rfl).imp ?_
  rintro r t ⟨fr', T', hg, rfl, hsome, hsame, -⟩
  cases hx : slotOf T' (vpn addr) with
  | none => exact absurd (hsome hx) (by decide)
  | some x =>
    have hfresh := freshEntry_spec hg hd vpn_lt hx
    simp only [wp_bind] at hfresh
    have hdone : wp kallocPage (fun q u => wp (store x (entryOf q pteUserData))
        (fun _ v => MapsFresh s (pgdirOf p) fr T addr v) NoPage u) NoPage t := by
      refine hfresh.imp fun _ _ hu => hu.imp fun _ v hv => ?_
      obtain ⟨q, fr'', hv⟩ := hv
      exact ⟨q, fr'', T', hv⟩
    have hnot : ¬ (t.heap.word x &&& pteRo ≠ 0) ∨ t.heap.word x = 0 := by
      by_cases hnew : slotOf T (vpn addr) = none
      · exact .inr (hg.word_new hx hnew)
      · obtain ⟨rfl, rfl⟩ := hsame (.inr hnew)
        exact .inl fun h => hro x ⟨hx, h⟩
    dsimp only
    rw [wp_bind, wp_load]
    refine wp.ite (fun _ => ?_) fun h0 => wp.ite (fun h => ?_) fun _ => ?_
    · simpa only [wp_bind, wp_pure] using hdone
    · exact absurd h (hnot.resolve_right h0)
    · simpa only [wp_bind, wp_pure] using hdone

/-- A read-only page. -/
theorem anonFault_readOnly (hp : ProcAt s p fr T addr) (hro : ReadOnly s T addr x) :
    wp (anonFault p addr iss) (fun _ t => CopiedOnWrite s fr x t ↔ Coincides s.heap fr p x)
      NoPage s := by
  rw [anonFault, wp_bind]
  refine (getPte_spec hp.dir fun _ => rfl).imp ?_
  rintro r t ⟨fr', T', -, rfl, -, hsame, -⟩
  obtain ⟨rfl, rfl⟩ := hsame (.inr (by rw [hro.1]; exact Option.some_ne_none x))
  have h0 : t.heap.word x ≠ 0 := fun h0 => hro.2 (by rw [h0]; rfl)
  rw [hro.1]
  dsimp only
  rw [wp_bind, wp_load, if_neg h0, if_pos hro.2]
  simpa only [wp_bind, wp_pure] using readOnly_spec hp hro.1

/-- A fault outside of the mappings does what it should iff its page is not read-only, or the copy to
    the wrong place does no harm by coincidence. -/
theorem pgfault_iff (hp : ProcAt s p fr T addr) (hout : ∀ v ∈ vma, ¬ v.Covers addr) :
    wp (pgfaultHandler p vma addr iss) (fun _ t => FaultSpec s (pgdirOf p) fr T addr t ↔
      ∀ x, ReadOnly s T addr x → Coincides s.heap fr p x) NoPage s := by
  rw [pgfaultHandler_eq hout]
  by_cases hro : ∃ x, ReadOnly s T addr x
  · obtain ⟨x, hx⟩ := hro
    have hone : ∀ y, ReadOnly s T addr y → y = x := fun y hy =>
      Option.some.inj (hy.1.symm.trans hx.1)
    have hempty : ¬ Empty s T addr := fun he => hx.2 (by rw [he x hx.1]; rfl)
    refine (anonFault_readOnly hp hx).imp fun _ t ht => ?_
    constructor
    · rintro ⟨hcopy, -⟩ y hy
      obtain rfl := hone y hy
      exact ht.mp (hcopy y hy)
    · intro hall
      refine ⟨fun y hy => ?_, fun he => absurd he hempty⟩
      obtain rfl := hone y hy
      exact ht.mpr (hall y hy)
  · have hno : ∀ x, ¬ ReadOnly s T addr x := fun x hx => hro ⟨x, hx⟩
    refine (anonFault_fresh hp.dir hno).imp fun _ t ht => ?_
    exact iff_of_true ⟨fun x hx => absurd hx (hno x), fun _ => ht⟩ fun x hx => absurd hx (hno x)

/-! ## A fault that destroys its process -/

/-- A process whose second page is read-only, and begins with the byte 7. -/
def readOnlyProc (c : Caller) : Vm :=
  let h := c.vm.heap.setWord (pgdirOf 0xFFFF000000100000) 0xFFFF00007FFFF000
  { c.vm with heap := h.setWord 0xFFFF00007FFFB000 7 }

theorem readOnlyProc_at : ∃ s fr T, ProcAt s 0xFFFF000000100000 fr T 0x1000 ∧
    ReadOnly s T 0x1000 0xFFFF00007FFFC008 ∧ s.pt (pgdirOf 0xFFFF000000100000) ≠ 0 ∧
    ∃ t, pgfaultHandler 0xFFFF000000100000 [] 0x1000 7 s = .ok 7 t ∧
      t.pt (pgdirOf 0xFFFF000000100000) = 0 := by
  have h : (Caller.build (pgdirOf 0xFFFF000000100000) smallVm [.getPte 0x1000 true, .page,
      .store 0xFFFF00007FFFC008 0x7FFFB6C7]).map (fun c => decide (c.tables = smallPages.take 4 ∧
        Chain c.vm.heap.link c.vm.heap.freePages (smallPages.drop 5) ∧
        wp (getPte (pgdirOf 0xFFFF000000100000) 0x1000 false)
          (fun r _ => r = some 0xFFFF00007FFFC008) (fun _ _ => False) c.vm ∧
        (readOnlyProc c).heap.word 0xFFFF00007FFFC008 = 0x7FFFB6C7 ∧
        (readOnlyProc c).pt (pgdirOf 0xFFFF000000100000) = 0xFFFF00007FFFF000 ∧
        (readOnlyProc c).heap.link (pgdirOf 0xFFFF000000100000) = 0xFFFF00007FFFF000 ∧
        wp (pgfaultHandler 0xFFFF000000100000 [] 0x1000 7)
          (fun r t => r = 7 ∧ t.pt (pgdirOf 0xFFFF000000100000) = 0) (fun _ _ => False)
          (readOnlyProc c))) = some true := by
    decide +kernel
  obtain ⟨c, hb, hc⟩ := Built.of_calls h
  rw [decide_eq_true_eq] at hc
  obtain ⟨htables, hchain, hslot, hword, hpt, hlink, hrun⟩ := hc
  obtain ⟨fr, T, hinv⟩ := hb.inv smallVm_free
  have hfr : fr = smallPages.drop 5 := hinv.dir.free.pages.chain.unique hchain
  have hT : ∀ l a, T l = some a → a ∈ smallPages.take 4 := fun l a ha => by
    rw [← htables]
    exact (hinv.tables a).mpr ⟨l, ha⟩
  have hx : slotOf T (vpn 0x1000) = some 0xFFFF00007FFFC008 :=
    hslot.of_ok (lookup_eq hinv.dir 0x1000)
  -- Nothing is written to tables and free pages.
  have hmem : ∀ y, pageBase y ≠ 0xFFFF000000100000 → pageBase y ≠ 0xFFFF00007FFFB000 →
      (readOnlyProc c).heap.mem y = c.vm.heap.mem y := by
    intro y h1 h2
    have hbase : ∀ a q, pageSize ∣ q → q ≤ a → a + 8 ≤ q + pageSize → pageBase y ≠ q →
        y < a ∨ a + 8 ≤ y := by
      intro a q hq hle hlt hne
      by_contra hcon
      exact hne (pageBase_eq hq (by omega) (by omega))
    exact (mem_setWord (hbase _ _ (by decide) (by decide) (by decide) h2)).trans
      (mem_setWord (hbase _ _ (by decide) (by decide) (by decide) h1))
  have hpd : ∀ y, pgdirOf 0xFFFF000000100000 ≤ y → y < pgdirOf 0xFFFF000000100000 + 8 →
      pageBase y = 0xFFFF000000100000 := by
    intro y h1 h2
    unfold pgdirOf at h1 h2
    exact pageBase_eq (by decide) (by omega) (by unfold pageSize; omega)
  have hused : ∀ q, q ∉ smallPages.take 4 ++ smallPages.drop 5 → q ∉ fr ∧ ∀ l, T l ≠ some q := by
    intro q hq
    rw [List.mem_append, not_or] at hq
    exact ⟨hfr ▸ hq.2, fun l hl => hq.1 (hT l q hl)⟩
  obtain ⟨hpf, hpT⟩ := hused 0xFFFF000000100000 (by decide)
  obtain ⟨hof, hoT⟩ := hused 0xFFFF00007FFFB000 (by decide)
  have hdir : PageDir (readOnlyProc c) (pgdirOf 0xFFFF000000100000) fr T := by
    refine hinv.dir.frame ?_ (List.Subset.refl fr) rfl fun y l _ hl => hmem y ?_ ?_
    · exact hinv.dir.free.frame rfl rfl fun y hy => hmem y (fun he => hpf (he ▸ hy)) fun he =>
        hof (he ▸ hy)
    · exact fun he => hpT l (he ▸ hl)
    · exact fun he => hoT l (he ▸ hl)
  have hold : pageOf ((readOnlyProc c).heap.word 0xFFFF00007FFFC008) = 0xFFFF00007FFFB000 := by
    rw [hword]
    decide
  obtain ⟨r, t, ht, rfl, hzero⟩ := hrun.total
  refine ⟨readOnlyProc c, fr, T, ⟨hdir, ?_, ?_, ?_⟩, ⟨hx, by rw [hword]; decide⟩, by rw [hpt]; decide,
    t, ht, hzero⟩
  · rw [hpt, hlink]
  · intro y h1 h2
    rw [hpd y h1 h2]
    exact ⟨hpf, hpT⟩
  · intro x hx'
    rw [hx] at hx'
    cases hx'
    rw [hold]
    refine ⟨hof, hoT, fun y h1 h2 => ?_⟩
    rw [hpd y h1 h2]
    decide

/-- The fault in the second page has done what it should iff it did not need to. -/
theorem pgfault_iff_read_only : ∃ s fr T, ReadOnly s T 0x1000 0xFFFF00007FFFC008 ∧
    wp (pgfaultHandler 0xFFFF000000100000 [] 0x1000 7)
      (fun _ t => FaultSpec s (pgdirOf 0xFFFF000000100000) fr T 0x1000 t ↔
        ∀ x, ReadOnly s T 0x1000 x → Coincides s.heap fr 0xFFFF000000100000 x) NoPage s := by
  obtain ⟨s, fr, T, hp, hro, -⟩ := readOnlyProc_at
  exact ⟨s, fr, T, hro, pgfault_iff hp (List.forall_mem_nil _)⟩

/-- The fault in the second page overwrites the process: its page directory is gone. -/
theorem pgfault_overwrites_proc : ∃ s fr T t, ProcAt s 0xFFFF000000100000 fr T 0x1000 ∧
    ReadOnly s T 0x1000 0xFFFF00007FFFC008 ∧
    pgfaultHandler 0xFFFF000000100000 [] 0x1000 7 s = .ok 7 t ∧
    s.pt (pgdirOf 0xFFFF000000100000) ≠ 0 ∧ t.pt (pgdirOf 0xFFFF000000100000) = 0 ∧
    ¬ FaultSpec s (pgdirOf 0xFFFF000000100000) fr T 0x1000 t := by
  obtain ⟨s, fr, T, hp, hro, hne, t, ht, hzero⟩ := readOnlyProc_at
  refine ⟨s, fr, T, t, hp, hro, ht, hne, hzero, fun hspec => hne ?_⟩
  obtain ⟨q, -, -, -, hpt, -⟩ := hspec.1 _ hro
  rw [← hpt, hzero]

end Paging

end ShikiOS.Kernel
