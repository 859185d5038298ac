import ShikiOS.Kernel.FreePages
import ShikiOS.Kernel.UserPtr
import ShikiOS.Lib.Wp

/-!
# Page tables (`kernel/pt.c`)

A page directory is a pointer to a table of 512 words in the memory of `mem.c`. A word of one of
the three upper levels is 0 or leads to a table of the next level; those of the last level are
the entries of the pages. A `struct pgdir` is named by its address.

Left out: the locks and the sections of a `struct pgdir`, and what follows when `kalloc_page` has
no page; there the model stops.

Results:
* `pageOf_entryOf`: an entry leads back to the page that it was made of.
* `word_setWord`, `word_setWord_of_ne`: a word that is stored is read back, and no other changes.
* `kallocPage_spec`, `kfreePage_spec`: what the calls of `mem.c` change.
-/

namespace ShikiOS.Kernel

open ShikiOS.Lib

/-- The 64-bit word at `a`. -/
def Heap.word (s : Heap) (a : ℕ) : UInt64 := UInt64.ofNat (s.link a)

def Heap.setWord (s : Heap) (a : ℕ) (v : UInt64) : Heap := s.setLink a v.toNat

/-- `memset(q, 0, PAGE_SIZE)`. -/
def Heap.zeroPage (s : Heap) (q : ℕ) : Heap :=
  { s with mem := fun x => if q ≤ x ∧ x < q + pageSize then 0 else s.mem x }

/-- `memmove(dst, src, PAGE_SIZE)`. -/
def Heap.movePage (s : Heap) (dst src : ℕ) : Heap :=
  { s with mem := fun x =>
      if dst ≤ x ∧ x < dst + pageSize then s.mem (src + (x - dst)) else s.mem x }

namespace Paging

open UserPtr (pteValid pteRo pteAddress p2k vaPart0 vaPart1 vaPart2 vaPart3)

/-! ## Entries -/

/-- `N_PTE_PER_TABLE` (mmu.h:43). -/
def nPtePerTable : ℕ := 512

/-- `PTE_TABLE` (mmu.h:26). -/
def pteTable : UInt64 := 0x3

/-- `PTE_USER_DATA` (mmu.h:41): `PTE_USER`, `PTE_NORMAL` and `PTE_PAGE`. -/
def pteUserData : UInt64 := 0x40 ||| (0x4 ||| 0x400 ||| 0x200) ||| 0x3

/-- `K2P` (mmu.h:47). -/
def k2p (addr : UInt64) : UInt64 := addr - 0xFFFF000000000000

/-- `(u64)K2P(page) | flags`. -/
def entryOf (page : ℕ) (flags : UInt64) : UInt64 := k2p (UInt64.ofNat page) ||| flags

/-- `P2K(PTE_ADDRESS(pte))`. -/
def pageOf (pte : UInt64) : ℕ := (p2k (pteAddress pte)).toNat

/-- `*pte & PTE_VALID`. -/
def Valid (pte : UInt64) : Prop := pte &&& pteValid ≠ 0

instance (pte : UInt64) : Decidable (Valid pte) := inferInstanceAs (Decidable (_ ≠ _))

/-- `&pgtbl[idx]`. -/
def entryAddr (pgtbl idx : ℕ) : ℕ := pgtbl + 8 * idx

/-! ## State -/

/-- Memory, `pgdir->pt` of every `struct pgdir`, what the calls of `kalloc_page` returned and what
    those of `kfree_page` got. -/
structure Vm where
  heap : Heap
  pt : ℕ → ℕ
  taken : List ℕ
  freed : List ℕ

inductive Stop
  /-- `kalloc_page` has no page. -/
  | noPage
  /-- A lock is held for ever. -/
  | spin
  /-- A null pointer is followed. -/
  | null
  | panic
deriving DecidableEq, Repr

abbrev M := EStateM Stop Vm

/-- `kalloc_page`. -/
def kallocPage : M ℕ := do
  match (← get).heap.kallocPage with
  | none => throw .spin
  | some (h, q) =>
    modify fun s => { s with heap := h }
    if q = 0 then throw .noPage
    modify fun s => { s with taken := s.taken ++ [q] }
    return q

/-- `kfree_page`. -/
def kfreePage (q : ℕ) : M Unit := do
  match (← get).heap.kfreePage q with
  | none => throw .spin
  | some h => modify fun s => { s with heap := h, freed := s.freed ++ [q] }

/-- `kfree`. -/
def kfree (ptr : ℕ) : M Unit := do
  match (← get).heap.kfree ptr with
  | none => throw .spin
  | some h => modify fun s => { s with heap := h }

/-- `memset(q, 0, PAGE_SIZE)`. -/
def clearPage (q : ℕ) : M Unit := modify fun s => { s with heap := s.heap.zeroPage q }

/-- `memmove(dst, src, PAGE_SIZE)`. -/
def movePage (dst src : ℕ) : M Unit := modify fun s => { s with heap := s.heap.movePage dst src }

/-- `*a`, for an entry. -/
def load (a : ℕ) : M UInt64 := do return (← get).heap.word a

/-- `*a = v`. -/
def store (a : ℕ) (v : UInt64) : M Unit := modify fun s => { s with heap := s.heap.setWord a v }

/-- `pgdir->pt = q`. -/
def setPt (pd q : ℕ) : M Unit := modify fun s => { s with pt := Function.update s.pt pd q }

/-! ## `get_pte` -/

/-- A new table. -/
def newTable : M ℕ := do
  let q ← kallocPage
  clearPage q
  return q

/-- One round of the loop (pt.c:30-47): the next table, or `none` for NULL. -/
def nextTable (alloc : Bool) (pgtbl idx : ℕ) : M (Option ℕ) := do
  let pte := entryAddr pgtbl idx
  if Valid (← load pte) then return some (pageOf (← load pte))
  if alloc = false then return none
  let q ← newTable
  store pte (entryOf q pteTable)
  return some (pageOf (← load pte))

/-- The loop over the upper levels. -/
def descend (alloc : Bool) : List ℕ → ℕ → M (Option ℕ)
  | [], pgtbl => return some pgtbl
  | idx :: idxs, pgtbl => do
    match ← nextTable alloc pgtbl idx with
    | none => return none
    | some pgtbl => descend alloc idxs pgtbl

/-- The table to start with (pt.c:13-21). -/
def rootTable (pd : ℕ) (alloc : Bool) : M (Option ℕ) := do
  let pgtbl := (← get).pt pd
  if pgtbl ≠ 0 then return some pgtbl
  if alloc = false then return none
  let q ← newTable
  setPt pd q
  return some q

/-- `get_pte` (pt.c:8-51). -/
def getPte (pd : ℕ) (va : UInt64) (alloc : Bool) : M (Option ℕ) := do
  match ← rootTable pd alloc with
  | none => return none
  | some pgtbl =>
    match ← descend alloc [(vaPart0 va).toNat, (vaPart1 va).toNat, (vaPart2 va).toNat] pgtbl with
    | none => return none
    | some pgtbl => return some (entryAddr pgtbl (vaPart3 va).toNat)

/-- `init_pgdir` (pt.c:53-60). -/
def initPgdir (pd : ℕ) : M Unit := do
  let q ← kallocPage
  setPt pd q
  clearPage q

/-- `*get_pte(pd, va, true) = pte`. -/
def setPte (pd : ℕ) (va pte : UInt64) : M Unit := do
  match ← getPte pd va true with
  | none => throw .null
  | some slot => store slot pte

/-! ## `uvmcopy` -/

/-- The body of the innermost loop (pt.c:197-209), for a page with the address `va`. -/
def copyPage (newpgdir : ℕ) (va : UInt64) (page : ℕ) : M Unit := do
  let np ← kallocPage
  movePage np page
  setPte newpgdir va (entryOf np pteUserData)

/-- `n` nested loops (pt.c:178-217) over the table `a`, or the page `a` where `n = 0`. The indices
    chosen so far make up `va`; the shifts are 39, 30, 21 and 12. -/
def copyLoops (newpgdir : ℕ) : ℕ → UInt64 → ℕ → M Unit
  | 0, va, a => copyPage newpgdir va a
  | n + 1, va, a => forN (fun i => do
      let pte ← load (entryAddr a i)
      if Valid pte then
        copyLoops newpgdir n (va ||| UInt64.ofNat i <<< UInt64.ofNat (12 + 9 * n)) (pageOf pte))
      0 nPtePerTable

/-- `uvmcopy` (pt.c:168-220), where `kalloc` returned `newpgdir`. -/
def uvmcopy (pgdir newpgdir : ℕ) : M ℕ := do
  if newpgdir = 0 then return 0
  initPgdir newpgdir
  copyLoops newpgdir 4 0 ((← get).pt pgdir)
  return newpgdir

/-! ## `free_pgdir` -/

/-- `free_pagetable(pt, 4 - n)` (pt.c:63-84). -/
def freePagetable : ℕ → ℕ → M Unit
  | 0, _ => return
  | n + 1, pt => forN (fun i => do
      let pte ← load (entryAddr pt i)
      if Valid pte then
        if pte &&& pteTable = pteTable then
          freePagetable n (pageOf pte)
          -- `level <= 2`
          if 1 ≤ n then kfreePage (pageOf pte)) 0 nPtePerTable

/-- `free_pgdir` (pt.c:87-94). -/
def freePgdir (pd : ℕ) : M Unit := do
  if (← get).pt pd = 0 then return
  freePagetable 4 ((← get).pt pd)
  kfreePage ((← get).pt pd)
  setPt pd 0

/-! ## Bits of an entry -/

/-- The first address of the kernel: `P2K(0)`. -/
def kernelBase : ℕ := 0xFFFF000000000000

/-- A page of the kernel. -/
structure KernelPage (q : ℕ) : Prop extends GoodPage q where
  base : kernelBase ≤ q

variable {q a c i v : ℕ} {flags pte : UInt64}

/-- Bits 12 to 47 of a page address below `2^48` are all of it. -/
theorem and_pageMask {n : ℕ} (hd : pageSize ∣ n) (hn : n < 2 ^ 48) : n &&& 0xFFFFFFFFF000 = n := by
  obtain ⟨k, rfl⟩ := hd
  have hk : k < 2 ^ 36 := by
    unfold pageSize at hn
    omega
  have hshift : pageSize * k = k <<< 12 := by
    rw [Nat.shiftLeft_eq, mul_comm]
    rfl
  rw [hshift, show (0xFFFFFFFFF000 : ℕ) = (2 ^ 36 - 1) <<< 12 from rfl,
    ← Nat.shiftLeft_and_distrib, Nat.and_two_pow_sub_one_eq_mod, Nat.mod_eq_of_lt hk]

theorem KernelPage.lt (h : KernelPage q) : q < 2 ^ 64 := by
  have := h.le
  unfold pageSize at this
  omega

theorem KernelPage.k2p_toNat (h : KernelPage q) :
    (k2p (UInt64.ofNat q)).toNat = q - kernelBase := by
  have hlt := h.lt
  have hbase := h.base
  have hle : (0xFFFF000000000000 : UInt64) ≤ UInt64.ofNat q := by
    rw [UInt64.le_iff_toNat_le, UInt64.toNat_ofNat_of_lt' hlt]
    exact hbase
  rw [k2p, UInt64.toNat_sub_of_le _ _ hle, UInt64.toNat_ofNat_of_lt' hlt]
  rfl

/-- An entry leads back to the page that it was made of. -/
theorem pageOf_entryOf (h : KernelPage q) (hf : flags &&& 0xFFFFFFFFF000 = 0) :
    pageOf (entryOf q flags) = q := by
  have hk := h.k2p_toNat
  have hlt := h.lt
  have hbase := h.base
  have hd : pageSize ∣ q - kernelBase := Nat.dvd_sub h.aligned (by decide)
  have hmask : pteAddress (entryOf q flags) = k2p (UInt64.ofNat q) := by
    apply UInt64.toNat_inj.mp
    have hfn : flags.toNat &&& 0xFFFFFFFFF000 = 0 := by
      have := congrArg UInt64.toNat hf
      rwa [UInt64.toNat_and] at this
    show ((k2p (UInt64.ofNat q) ||| flags) &&& 0xFFFFFFFFF000).toNat = _
    rw [UInt64.toNat_and, UInt64.toNat_or]
    show (_ ||| _) &&& 0xFFFFFFFFF000 = _
    rw [Nat.and_or_distrib_right, hfn, Nat.or_zero, hk]
    refine and_pageMask hd ?_
    unfold kernelBase at *
    omega
  rw [pageOf, hmask, p2k, UInt64.toNat_add, hk]
  show (q - kernelBase + kernelBase) % 2 ^ 64 = q
  rw [Nat.sub_add_cancel hbase, Nat.mod_eq_of_lt hlt]

theorem valid_entryOf (hf : flags &&& 1 = 1) : Valid (entryOf q flags) := by
  intro h
  have hv : entryOf q flags &&& 1 = 0 := h
  have hn := congrArg UInt64.toNat hv
  have hfn := congrArg UInt64.toNat hf
  rw [UInt64.toNat_and] at hfn
  rw [entryOf, UInt64.toNat_and, UInt64.toNat_or] at hn
  change (_ ||| _) &&& 1 = 0 at hn
  change _ &&& 1 = 1 at hfn
  rw [Nat.and_or_distrib_right, hfn] at hn
  exact absurd hn (Nat.or_eq_zero_iff.not.mpr fun h => absurd h.2 one_ne_zero)

theorem not_valid_zero : ¬ Valid 0 := fun h => h rfl

/-! ## Words of memory -/

variable {s t : Heap}

theorem word_congr (h : Heap.Agree s t c) : t.word c = s.word c := by
  rw [Heap.word, Heap.word, h.link]

@[simp] theorem word_setWord : (s.setWord a pte).word a = pte := by
  rw [Heap.word, Heap.setWord, Heap.link_setLink pte.toNat_lt, UInt64.ofNat_toNat]

theorem word_setWord_of_ne (ha : 8 ∣ a) (hc : 8 ∣ c) (h : c ≠ a) :
    (s.setWord a pte).word c = s.word c := word_congr (Heap.agree_setLink ha hc h)

theorem mem_setWord {x : ℕ} (h : x < a ∨ a + 8 ≤ x) : (s.setWord a pte).mem x = s.mem x :=
  putLE_outside _ h

/-- The entries of a table lie in its page. -/
theorem pageBase_entry (hq : pageSize ∣ q) (hi : i < nPtePerTable) {x : ℕ}
    (h1 : entryAddr q i ≤ x) (h2 : x < entryAddr q i + 8) : pageBase x = q := by
  unfold nPtePerTable at hi
  unfold entryAddr at h1 h2
  exact pageBase_eq hq (by omega) (by unfold pageSize; omega)

theorem eight_dvd_entry (hq : pageSize ∣ q) : 8 ∣ entryAddr q i :=
  dvd_add (eight_dvd_page hq) (dvd_mul_right 8 i)

theorem word_entry_congr (hq : pageSize ∣ q) (hi : i < nPtePerTable)
    (h : ∀ x, pageBase x = q → t.mem x = s.mem x) :
    t.word (entryAddr q i) = s.word (entryAddr q i) :=
  word_congr fun x h1 h2 => h x (pageBase_entry hq hi h1 h2)

theorem word_zeroPage (hi : i < nPtePerTable) : (s.zeroPage q).word (entryAddr q i) = 0 := by
  have hz : getLE (s.zeroPage q).mem (entryAddr q i) 8 = getLE (fun _ => 0) (entryAddr q i) 8 := by
    refine getLE_congr fun x h1 h2 => if_pos ?_
    unfold nPtePerTable at hi
    unfold entryAddr at h1 h2
    unfold pageSize
    omega
  rw [Heap.word, Heap.link, hz]
  rfl

theorem mem_zeroPage (hq : pageSize ∣ q) {x : ℕ} (hx : pageBase x ≠ q) :
    (s.zeroPage q).mem x = s.mem x :=
  if_neg fun h => hx (pageBase_eq hq h.1 h.2)

/-! ## The pages of `mem.c` -/

variable {fr : List ℕ} {l : List ℕ}

theorem mem_of_pageEdit (h : PageEdit l s t) {x : ℕ} (hx : pageBase x ∉ l) : t.mem x = s.mem x := by
  have hbase : pageBase (x / 8 * 8) = pageBase x := by
    unfold pageBase pageSize
    omega
  have hag := h.agree (x / 8 * 8) (Dvd.intro_left _ rfl) (by rwa [hbase])
  exact hag x (by omega) (by omega)

/-- The free pages, all of them pages of the kernel. -/
structure FreeList (s : Heap) (fr : List ℕ) : Prop where
  pages : FreePages s fr
  unlocked : s.pageLock = false
  kernel : ∀ q ∈ fr, kernelBase ≤ q

theorem FreeList.kernelPage (h : FreeList s fr) (hq : q ∈ fr) : KernelPage q :=
  ⟨h.pages.page q hq, h.kernel q hq⟩

/-- A change outside of the free pages. -/
theorem FreeList.frame (h : FreeList s fr) (hf : t.freePages = s.freePages)
    (hl : t.pageLock = s.pageLock) (hm : ∀ x, pageBase x ∈ fr → t.mem x = s.mem x) :
    FreeList t fr := by
  refine ⟨h.pages.frame hf fun q hq x h1 h2 => hm x ?_, hl.trans h.unlocked, h.kernel⟩
  rw [pageBase_eq (h.pages.page q hq).aligned h1 (by unfold pageSize; omega)]
  exact hq

/-- A program that stops only because there is no page. -/
def NoPage : Stop → Vm → Prop := fun e _ => e = .noPage

variable {Q : ℕ → Vm → Prop} {R : Unit → Vm → Prop} {E : Stop → Vm → Prop} {m : Vm}

/-- `kalloc_page` returns the first free page, and changes other free pages at most. -/
theorem kallocPage_spec (h : FreeList m.heap fr)
    (hQ : ∀ q fr' h', fr = q :: fr' → FreeList h' fr' →
      (∀ x, pageBase x ∉ fr' → h'.mem x = m.heap.mem x) →
      Q q { m with heap := h', taken := m.taken ++ [q] }) :
    wp kallocPage Q NoPage m := by
  rw [kallocPage, wp_bind, wp_get]
  cases fr with
  | nil =>
    rw [kallocPage_nil h.pages h.unlocked]
    simp only [wp_bind, wp_modify, if_true, wp_throw]
    rfl
  | cons q fr =>
    obtain ⟨t, ht, hfree, hedit, hlock, -⟩ := kallocPage_cons h.pages h.unlocked
    have hq0 : q ≠ 0 := (h.pages.page q List.mem_cons_self).ne_zero
    rw [ht]
    simp only [wp_bind, wp_modify, if_neg hq0, wp_pure]
    refine hQ q fr t rfl ⟨hfree, hlock, fun p hp => h.kernel p (List.mem_cons_of_mem q hp)⟩ ?_
    exact fun x hx => mem_of_pageEdit hedit hx

/-- `kfree_page` puts a page back, and changes this page and free pages at most. -/
theorem kfreePage_spec (h : FreeList m.heap fr) (hq : KernelPage q) (hnew : q ∉ fr)
    (hR : ∀ h', FreeList h' (q :: fr) → (∀ x, pageBase x ∉ q :: fr → h'.mem x = m.heap.mem x) →
      R () { m with heap := h', freed := m.freed ++ [q] }) :
    wp (kfreePage q) R E m := by
  obtain ⟨t, ht, hfree, hedit, hlock, -⟩ :=
    Kernel.kfreePage_spec h.pages h.unlocked hq.toGoodPage hnew
  rw [kfreePage, wp_bind, wp_get, ht]
  rw [wp_modify]
  refine hR t ⟨hfree, hlock, List.forall_mem_cons.mpr ⟨hq.base, h.kernel⟩⟩ ?_
  exact fun x hx => mem_of_pageEdit hedit hx

@[simp] theorem wp_load {Q : UInt64 → Vm → Prop} : wp (load a) Q E m ↔ Q (m.heap.word a) m := by
  rw [load, wp_bind, wp_get, wp_pure]

@[simp] theorem wp_store : wp (store a pte) R E m ↔
    R () { m with heap := m.heap.setWord a pte } := wp_modify

@[simp] theorem wp_clearPage : wp (clearPage q) R E m ↔
    R () { m with heap := m.heap.zeroPage q } := wp_modify

@[simp] theorem wp_movePage {dst src : ℕ} : wp (movePage dst src) R E m ↔
    R () { m with heap := m.heap.movePage dst src } := wp_modify

@[simp] theorem wp_setPt {pd : ℕ} : wp (setPt pd q) R E m ↔
    R () { m with pt := Function.update m.pt pd q } := wp_modify

/-- A new table is a free page of zeros. -/
theorem newTable_spec (h : FreeList m.heap fr)
    (hQ : ∀ q fr' h', fr = q :: fr' → FreeList h' fr' →
      (∀ x, pageBase x ∉ fr → h'.mem x = m.heap.mem x) →
      (∀ i, i < nPtePerTable → h'.word (entryAddr q i) = 0) →
      Q q { m with heap := h', taken := m.taken ++ [q] }) :
    wp newTable Q NoPage m := by
  rw [newTable, wp_bind]
  refine kallocPage_spec h fun q fr' h' hfr hfree hmem => ?_
  rw [wp_bind, wp_clearPage, wp_pure]
  subst hfr
  have hd : pageSize ∣ q := (h.kernelPage List.mem_cons_self).aligned
  have hnd : q ∉ fr' := (List.nodup_cons.mp h.pages.nodup).1
  refine hQ q fr' (h'.zeroPage q) rfl ?_ (fun x hx => ?_) fun i hi => word_zeroPage hi
  · refine hfree.frame rfl rfl fun x hx => mem_zeroPage hd ?_
    rintro rfl
    exact hnd hx
  · rw [List.mem_cons, not_or] at hx
    exact (mem_zeroPage hd hx.1).trans (hmem x hx.2)

end Paging

end ShikiOS.Kernel
