import ShikiOS.Lib.Bytes
import ShikiOS.Lib.Chain

/-!
# The page and slab allocators (`kernel/mem.c`)

Memory is a function from addresses to bytes. The free pages and the free blocks are
lists whose links stand in the memory that they are lists of, so a block that is
written after it was freed, or a page header that is overwritten, would show. An
address is a natural number; pages end below `2^64`, so no address computation wraps.
The `unsigned short` counters of a page header do wrap. A function returns `none` when
it never comes back: it spins on a lock that is not released, or follows links that
form a cycle.

Left out: what is printed, and `partial_pages`, which nothing uses.

Results:
* `link_setLink`, `blockCount_setBlockCount`: what is stored is read back.
* `agree_setLink`, `agree_setBlockCount`, `agree_setBlockSize`: a store changes the
  aligned word it goes to and no other.
-/

namespace ShikiOS.Kernel

open ShikiOS.Lib

/-- `PAGE_SIZE` (mem.c:31). -/
def pageSize : ℕ := 4096

/-- `NUM_ALLOCATORS` (mem.c:30). -/
def numAllocators : ℕ := 31

/-- `size` (mem.c:41). -/
def size (i : ℕ) : ℕ :=
  [8, 16, 24, 32, 40, 48, 56, 64, 72, 80, 88, 96, 104, 112, 120, 128, 136, 144, 152, 160, 168,
    200, 224, 256, 312, 384, 448, 512, 1016, 2040, 4080].getD i 0

/-- `sizeof(Header)` (mem.c:19-22). -/
def sizeofHeader : ℕ := 4

/-- `addr & ~(PAGE_SIZE - 1)`. -/
def pageBase (a : ℕ) : ℕ := a / pageSize * pageSize

/-- The page number of a kernel address: `K2P(addr) / PAGE_SIZE` (mmu.h:53). -/
def pageIndex (a : ℕ) : ℕ := (a + 2 ^ 64 - 0xFFFF000000000000) % 2 ^ 64 / pageSize

/-- `P2K(PHYSTOP)` (memlayout.h:4, mmu.h:50). -/
def physTop : ℕ := 0xFFFF000080000000

/-- `Allocator` (mem.c:24-28). -/
structure Allocator where
  blockSize : ℕ
  freeList : ℕ
  head : Bool
deriving DecidableEq, Repr

/-- The state of `mem.c`. `slabs i` are the pages that allocator `i` got from
    `kalloc_page` and that were not given back; it is only recorded. -/
structure Heap where
  mem : ℕ → UInt8
  allocators : ℕ → Allocator
  freePages : ℕ
  kallocPageCnt : ℤ
  pageCnt : ℕ → ℤ
  memLock : Bool
  pageLock : Bool
  slabs : ℕ → List ℕ

namespace Heap

variable {s t : Heap} {a c q i j v n : ℕ} {b : Bool} {l : List ℕ}

/-- The link of the `BlockHeader` or `PageHeader` at `a`. -/
def link (s : Heap) (a : ℕ) : ℕ := getLE s.mem a 8

/-- `a->next = v`, and with `a + 8` for `a` also `a->prev = v`. -/
def setLink (s : Heap) (a v : ℕ) : Heap := { s with mem := putLE s.mem a 8 v }

/-- `page->block_size`. -/
def blockSize (s : Heap) (page : ℕ) : ℕ := getLE s.mem page 2

/-- `page->block_count`. -/
def blockCount (s : Heap) (page : ℕ) : ℕ := getLE s.mem (page + 2) 2

def setBlockSize (s : Heap) (page v : ℕ) : Heap := { s with mem := putLE s.mem page 2 v }

def setBlockCount (s : Heap) (page v : ℕ) : Heap := { s with mem := putLE s.mem (page + 2) 2 v }

/-- `allocators[index].free_list = a`. -/
def setFreeList (s : Heap) (index a : ℕ) : Heap :=
  { s with allocators :=
      Function.update s.allocators index { s.allocators index with freeList := a } }

/-- `allocators[index].head = b`. -/
def setHead (s : Heap) (index : ℕ) (b : Bool) : Heap :=
  { s with allocators := Function.update s.allocators index { s.allocators index with head := b } }

def setSlabs (s : Heap) (index : ℕ) (l : List ℕ) : Heap :=
  { s with slabs := Function.update s.slabs index l }

def acquireMem (s : Heap) : Option Heap :=
  if s.memLock then none else some { s with memLock := true }

def releaseMem (s : Heap) : Heap := { s with memLock := false }

def acquirePage (s : Heap) : Option Heap :=
  if s.pageLock then none else some { s with pageLock := true }

def releasePage (s : Heap) : Heap := { s with pageLock := false }

/-- The loop of `get_allocator_index` (mem.c:58-62), with the block sizes of the
    allocators and the number of rounds that `NUM_ALLOCATORS` leaves. -/
def indexLoop (blockSize : ℕ → ℕ) (size : ℕ) : ℕ → ℕ → ℕ
  | 0, index => index
  | n + 1, index => if blockSize index < size then indexLoop blockSize size n (index + 1) else index

/-- `get_allocator_index` (mem.c:54-67). -/
def getAllocatorIndex (s : Heap) (size : ℕ) : ℕ :=
  indexLoop (fun i => (s.allocators i).blockSize) size (numAllocators - 1) 0

/-- `if (free_pages) free_pages->prev = v`. -/
def setPrev (s : Heap) (v : ℕ) : Heap :=
  if s.freePages ≠ 0 then s.setLink (s.freePages + 8) v else s

/-- `kalloc_page` (mem.c:103-126). On failure it releases the wrong lock. -/
def kallocPage (s : Heap) : Option (Heap × ℕ) := do
  let s ← { s with kallocPageCnt := s.kallocPageCnt + 1 }.acquirePage
  if s.freePages = 0 then
    return (s.releaseMem, 0)
  let page := s.freePages
  let s := { s with freePages := s.link page }.setPrev 0
  let s := { s with pageCnt := Function.update s.pageCnt (pageIndex page) 0 }
  return (s.releasePage, page)

/-- `kfree_page` (mem.c:129-140). -/
def kfreePage (s : Heap) (page : ℕ) : Option Heap := do
  let s ← s.acquirePage
  let s := (s.setLink page s.freePages).setPrev page
  let s := { s with freePages := page, kallocPageCnt := s.kallocPageCnt - 1 }
  return s.releasePage

/-- A block of the list of `index` (mem.c:149-210). The walk over the list stops at its
    second node. -/
def takeBlock (s : Heap) (index : ℕ) : Heap × ℕ :=
  let allocator := s.allocators index
  let block := allocator.freeList
  if s.link block ≠ 0 then
    let lastBlock := s.link block
    let s := s.setLink block (s.link lastBlock)
    let page := pageBase lastBlock
    (s.setBlockCount page (s.blockCount page + 65535), lastBlock)
  else if allocator.head then
    let s := s.setFreeList index 0
    let nextBlockAddr := block + allocator.blockSize
    let page := pageBase block
    let s :=
      if 1 < s.blockCount page ∧ nextBlockAddr % pageSize + allocator.blockSize ≤ pageSize then
        (s.setLink nextBlockAddr 0).setFreeList index nextBlockAddr
      else s
    (s.setBlockCount page (s.blockCount page + 65535), block)
  else
    let s := s.setFreeList index 0
    let page := pageBase block
    (s.setBlockCount page (s.blockCount page + 65535), block)

/-- The first block of a page that `index` got (mem.c:221-234). -/
def initPage (s : Heap) (index newPage : ℕ) : Heap × ℕ :=
  let allocator := s.allocators index
  let s := s.setSlabs index (newPage :: s.slabs index)
  let s := s.setBlockSize newPage allocator.blockSize
  let s := s.setBlockCount newPage ((pageSize - sizeofHeader) / allocator.blockSize - 1)
  let firstBlockAddr := (newPage + sizeofHeader + 7) / 8 * 8
  let nextBlockAddr := firstBlockAddr + allocator.blockSize
  let s := s.setLink nextBlockAddr 0
  ((s.setFreeList index nextBlockAddr).setHead index true, firstBlockAddr)

/-- `kalloc` (mem.c:142-235). -/
def kalloc (s : Heap) (size : ℕ) : Option (Heap × ℕ) := do
  let s ← s.acquireMem
  let index := s.getAllocatorIndex size
  if (s.allocators index).freeList ≠ 0 then
    let (s, block) := s.takeBlock index
    return (s.releaseMem, block)
  let (s, newPage) ← s.kallocPage
  if newPage = 0 then
    return (s.releaseMem, 0)
  let (s, block) := s.initPage index newPage
  return (s.releaseMem, block)

/-- A block goes into the list of `index` (mem.c:262-276). -/
def putBlock (s : Heap) (index page ptr : ℕ) : Heap :=
  let freeList := (s.allocators index).freeList
  if freeList ≠ 0 then
    let s := s.setLink ptr (s.link freeList)
    let s := s.setLink freeList ptr
    s.setBlockCount page (s.blockCount page + 1)
  else
    let s := s.setHead index false
    let s := (s.setLink ptr freeList).setFreeList index ptr
    s.setBlockCount page (s.blockCount page + 1)

/-- The loop of `kfree` that takes the blocks of `page` out of the list (mem.c:283-303). -/
def unlinkLoop (index page : ℕ) : ℕ → Heap → ℕ → ℕ → Option Heap
  | 0, _, _, _ => none
  | fuel + 1, s, prev, current =>
    if current = 0 then some s
    else if pageBase current = page then
      let s := if prev = 0 then s.setFreeList index (s.link current)
        else s.setLink prev (s.link current)
      unlinkLoop index page fuel (s.setLink current 0) prev (s.link current)
    else unlinkLoop index page fuel s current (s.link current)

/-- `kfree` (mem.c:238-310). A list without a cycle has at most `2^64` nodes. -/
def kfree (s : Heap) (ptr : ℕ) : Option Heap :=
  if ptr = 0 then some s else do
  let s ← s.acquireMem
  let page := pageBase ptr
  if s.blockSize page > 2040 then
    return s.releaseMem
  let index := s.getAllocatorIndex (s.blockSize page)
  let s := s.putBlock index page ptr
  if s.blockCount page = (pageSize - sizeofHeader) / s.blockSize page then
    let s ← unlinkLoop index page (2 ^ 64 + 1) s 0 (s.allocators index).freeList
    let s ← (s.setSlabs index ((s.slabs index).erase page)).kfreePage page
    return s.releaseMem
  return s.releaseMem

/-- The loop of `kinit` that links the free pages (mem.c:92-101). -/
def kinitLoop : ℕ → Heap → ℕ → Heap
  | 0, s, _ => s
  | n + 1, s, current =>
    if current + pageSize ≤ physTop then
      let s := (s.setLink current s.freePages).setPrev current
      kinitLoop n { s with freePages := current } (current + pageSize)
    else s

/-- `kinit` (mem.c:73-102), where `endAddr` is the end of the kernel. -/
def kinit (s : Heap) (endAddr : ℕ) : Heap :=
  let s : Heap :=
    { mem := s.mem
      allocators := fun i => ⟨size i, 0, false⟩
      freePages := 0
      kallocPageCnt := 0
      pageCnt := fun idx => if idx ≤ pageIndex endAddr then s.pageCnt idx + 1 else s.pageCnt idx
      memLock := false
      pageLock := false
      slabs := fun _ => [] }
  kinitLoop (0x80000000 / pageSize) s ((endAddr + pageSize - 1) / pageSize * pageSize)

/-! ## Words of memory -/

@[simp] theorem setLink_allocators : (s.setLink a v).allocators = s.allocators := rfl
@[simp] theorem setLink_freePages : (s.setLink a v).freePages = s.freePages := rfl
@[simp] theorem setLink_slabs : (s.setLink a v).slabs = s.slabs := rfl
@[simp] theorem setBlockCount_allocators : (s.setBlockCount a v).allocators = s.allocators := rfl
@[simp] theorem setBlockCount_freePages : (s.setBlockCount a v).freePages = s.freePages := rfl
@[simp] theorem setBlockCount_slabs : (s.setBlockCount a v).slabs = s.slabs := rfl
@[simp] theorem setBlockSize_allocators : (s.setBlockSize a v).allocators = s.allocators := rfl
@[simp] theorem setBlockSize_freePages : (s.setBlockSize a v).freePages = s.freePages := rfl
@[simp] theorem setBlockSize_slabs : (s.setBlockSize a v).slabs = s.slabs := rfl
@[simp] theorem setFreeList_mem : (s.setFreeList i a).mem = s.mem := rfl
@[simp] theorem setFreeList_link : (s.setFreeList i a).link = s.link := rfl
@[simp] theorem setFreeList_blockSize : (s.setFreeList i a).blockSize = s.blockSize := rfl
@[simp] theorem setFreeList_blockCount : (s.setFreeList i a).blockCount = s.blockCount := rfl
@[simp] theorem setFreeList_freePages : (s.setFreeList i a).freePages = s.freePages := rfl
@[simp] theorem setFreeList_slabs : (s.setFreeList i a).slabs = s.slabs := rfl
@[simp] theorem setHead_mem : (s.setHead i b).mem = s.mem := rfl
@[simp] theorem setHead_link : (s.setHead i b).link = s.link := rfl
@[simp] theorem setHead_blockSize : (s.setHead i b).blockSize = s.blockSize := rfl
@[simp] theorem setHead_blockCount : (s.setHead i b).blockCount = s.blockCount := rfl
@[simp] theorem setHead_freePages : (s.setHead i b).freePages = s.freePages := rfl
@[simp] theorem setHead_slabs : (s.setHead i b).slabs = s.slabs := rfl
@[simp] theorem setSlabs_mem : (s.setSlabs i l).mem = s.mem := rfl
@[simp] theorem setSlabs_link : (s.setSlabs i l).link = s.link := rfl
@[simp] theorem setSlabs_blockSize : (s.setSlabs i l).blockSize = s.blockSize := rfl
@[simp] theorem setSlabs_blockCount : (s.setSlabs i l).blockCount = s.blockCount := rfl
@[simp] theorem setSlabs_freePages : (s.setSlabs i l).freePages = s.freePages := rfl
@[simp] theorem setSlabs_allocators : (s.setSlabs i l).allocators = s.allocators := rfl

@[simp] theorem setFreeList_allocators :
    (s.setFreeList i a).allocators i = { s.allocators i with freeList := a } :=
  Function.update_self ..

@[simp] theorem setHead_allocators :
    (s.setHead i b).allocators i = { s.allocators i with head := b } :=
  Function.update_self ..

@[simp] theorem setSlabs_slabs : (s.setSlabs i l).slabs i = l := Function.update_self ..

theorem setFreeList_allocators_of_ne (h : j ≠ i) :
    (s.setFreeList i a).allocators j = s.allocators j :=
  Function.update_of_ne h _ _

theorem setHead_allocators_of_ne (h : j ≠ i) : (s.setHead i b).allocators j = s.allocators j :=
  Function.update_of_ne h _ _

theorem setSlabs_slabs_of_ne (h : j ≠ i) : (s.setSlabs i l).slabs j = s.slabs j :=
  Function.update_of_ne h _ _

/-- `s` and `t` hold the same bytes in the eight bytes at `c`. -/
def Agree (s t : Heap) (c : ℕ) : Prop := ∀ x, c ≤ x → x < c + 8 → t.mem x = s.mem x

theorem Agree.refl (s : Heap) (c : ℕ) : Agree s s c := fun _ _ _ => rfl

theorem Agree.trans {u : Heap} (h : Agree s t c) (h' : Agree t u c) : Agree s u c :=
  fun x h1 h2 => (h' x h1 h2).trans (h x h1 h2)

theorem Agree.link (h : Agree s t c) : t.link c = s.link c := getLE_congr h

theorem Agree.blockSize (h : Agree s t c) : t.blockSize c = s.blockSize c :=
  getLE_congr fun x h1 h2 => h x h1 (by omega)

theorem Agree.blockCount (h : Agree s t c) : t.blockCount c = s.blockCount c :=
  getLE_congr fun x h1 h2 => h x (by omega) (by omega)

theorem agree_of_mem (h : t.mem = s.mem) (c : ℕ) : Agree s t c := fun x _ _ => by rw [h]

theorem agree_setLink (ha : 8 ∣ a) (hc : 8 ∣ c) (h : c ≠ a) : Agree s (s.setLink a v) c := by
  intro x h1 h2
  exact putLE_outside _ (by omega)

theorem agree_setBlockCount (hq : 8 ∣ q) (hc : 8 ∣ c) (h : c ≠ q) :
    Agree s (s.setBlockCount q v) c := by
  intro x h1 h2
  exact putLE_outside _ (by omega)

theorem agree_setBlockSize (hq : 8 ∣ q) (hc : 8 ∣ c) (h : c ≠ q) :
    Agree s (s.setBlockSize q v) c := by
  intro x h1 h2
  exact putLE_outside _ (by omega)

theorem link_setLink (hv : v < 2 ^ 64) : (s.setLink a v).link a = v := by
  have := getLE_putLE s.mem a 8 v
  rw [Nat.mod_eq_of_lt (by omega)] at this
  exact this

theorem blockCount_setBlockCount : (s.setBlockCount q v).blockCount q = v % 65536 :=
  getLE_putLE s.mem (q + 2) 2 v

theorem blockSize_setBlockCount : (s.setBlockCount q v).blockSize q = s.blockSize q :=
  getLE_putLE_of_disjoint _ (.inl le_rfl)

theorem blockSize_setBlockSize : (s.setBlockSize q v).blockSize q = v % 65536 :=
  getLE_putLE s.mem q 2 v

end Heap

end ShikiOS.Kernel
