import ShikiOS.Kernel.System

/-!
# File mappings (`kernel/sysfile.c`, `kernel/paging.c`)

`mmap`, `munmap` and the page faults of a mapping. The mappings of a process are a list
through the slots of `vma_list`. What happens to page tables is left out, and so are the
PANICs of `uvmunmap`; a fault that the kernel takes while it copies user memory counts as
one before the call. `mem` is what the user memory holds.
-/

namespace ShikiOS.Kernel.Calls

open ShikiOS.Lib Fs Fs.Bcache Fs.Inodes

/-- `VMA_START` (proc.h:14-15). -/
def vmaStart : ℕ := 2 ^ 27 / 2 ^ 4

/-- `PAGE_SIZE`, `PROT_READ`, `PROT_WRITE` and `MAP_PRIVATE`. -/
def pageBytes : ℕ := 4096
def protRead : ℕ := 1
def protWrite : ℕ := 2
def mapPrivate : ℕ := 2

/-- `PAGE_BASE`. -/
def pageBaseOf (a : ℕ) : ℕ := a / pageBytes * pageBytes

/-- An `int` as a `u64`, and a `u64` as an `int`. -/
def u64OfInt (n : ℤ) : ℕ := (n % 2 ^ 64).toNat
def intOfU64 (n : ℕ) : ℤ := if n % 2 ^ 32 < 2 ^ 31 then n % 2 ^ 32 else n % 2 ^ 32 - 2 ^ 32

/-- The slots of `vma_list`. -/
def modifyVma (v : ℕ) (f : Vma → Vma) : SysM Unit :=
  modify fun s => { s with vmas := Function.update s.vmas v (f (s.vmas v)) }

def getVma (v : ℕ) : SysM Vma := do
  let s ← get
  return s.vmas v

/-- The search of `vma_alloc` (proc.c:399-406) through `n` slots from `v` on. -/
def findVma (vmas : ℕ → Vma) : ℕ → ℕ → Option ℕ
  | 0, _ => none
  | n + 1, v => if (vmas v).length = 0 then some v else findVma vmas n (v + 1)

/-- `vma_alloc` (proc.c:398-409). -/
def vmaAlloc : SysM ℕ := do
  let s ← get
  match findVma s.vmas nvma 0 with
  | some v => return v
  | none => throw .panic

/-- The walk of `mmap` to the last mapping (lines 148-149), in at most `n` steps. -/
def lastVma : ℕ → ℕ → SysM ℕ
  | 0, _ => throw .loops
  | n + 1, v => do
    let x ← getVma v
    match x.next with
    | none => return v
    | some v => lastVma n v

/-- The walk of `munmap` and `pgfault_handler` to the mapping of an address, in at most `n`
    steps: the mapping and the one before it. -/
def vmaOf (addr : ℕ) : ℕ → Option ℕ → Option ℕ → SysM (Option (ℕ × Option ℕ))
  | _, _, none => return none
  | 0, _, some _ => throw .loops
  | n + 1, pre, some v => do
    let x ← getVma v
    if x.start ≤ addr ∧ addr < x.stop then return some (v, pre)
    else vmaOf addr n (some v) x.next

variable (sb : SuperBlock)

/-- The loop of `writeback` (lines 80-94), in at most `m` rounds. -/
def writebackLoop (v addr : ℕ) (n : ℤ) (mem : ℕ → UInt8) : ℕ → ℕ → SysM Unit
  | 0, _ => pure ()
  | m + 1, i =>
    if (i : ℤ) < n then do
      let n1 := min (n - i).toNat opMaxBytes
      let x ← getVma v
      let f ← getFile x.file
      let ctx ← beginOp
      (services sb).lock f.ip
      let r ← (services sb).write (some ctx) f.ip ((List.range n1).map fun j => mem (addr + i + j))
        (u64 (x.off + x.start + 2 ^ 64 - addr + i))
      (services sb).unlock f.ip
      (services sb).endOp ctx
      writebackLoop v addr n mem m (i + r)
    else pure ()

/-- `writeback` (sysfile.c:64-95). No mapping has `PTE_RO`. -/
def writeback (v addr : ℕ) (n : ℤ) (mem : ℕ → UInt8) : SysM Unit := do
  let x ← getVma v
  if hasFlag x.flags mapPrivate then pure ()
  else if addr % pageBytes ≠ 0 then throw .panic
  else writebackLoop sb v addr n mem n.toNat 0

/-- Lines 141-155 of `mmap`: the mapping gets its place in the list of the process. -/
def placeVma (v : ℕ) (length : ℤ) : SysM Unit := do
  let s ← get
  let p := s.procs s.cur
  match p.vma with
  | none => do
    modifyVma v fun x => { x with start := vmaStart, stop := u64 (vmaStart + u64OfInt length) }
    modifyProc s.cur fun p => { p with vma := some v }
  | some pv =>
    if (s.vmas pv).length = 0 then do
      modifyVma v fun x => { x with start := vmaStart, stop := u64 (vmaStart + u64OfInt length) }
      modifyProc s.cur fun p => { p with vma := some v }
    else do
      let pv ← lastVma nvma pv
      let x ← getVma pv
      let start := pageBaseOf (u64 (x.stop + pageBytes - 1))
      modifyVma v fun x => { x with start := start, stop := u64 (start + u64OfInt length) }
      modifyVma pv fun x => { x with next := some v }
      modifyVma v fun x => { x with next := none }

/-- `mmap` (sysfile.c:105-163). -/
def mmap (addr : ℕ) (length : ℤ) (prot flags : ℕ) (fd offset : ℤ) : SysM ℤ := do
  if addr ≠ 0 then throw .panic
  else if offset ≠ 0 then throw .panic
  else do
    let f ← fd2file fd
    match f with
    | none => throw .panic
    | some f => do
      let x ← getFile f
      if hasFlag prot protWrite && !x.writable && !hasFlag flags mapPrivate then return -1
      else if hasFlag prot protRead && !x.readable then return -1
      else do
        let v ← vmaAlloc
        modifyVma v fun y => { y with
          length := u64OfInt length, off := u64OfInt offset, file := f, flags := flags }
        fileDup f
        placeVma v length
        let x ← getVma v
        return x.start

/-- Lines 182-213 of `munmap`, with the mapping and the one before it. -/
def unmap (v : ℕ) (pre : Option ℕ) (addr length : ℕ) (mem : ℕ → UInt8) : SysM ℤ := do
  let x ← getVma v
  if addr ≠ x.start ∧ u64 (addr + length) ≠ x.stop then throw .panic
  else if addr = x.start then do
    writeback sb v addr (intOfU64 length) mem
    let x ← getVma v
    if length = x.length then do
      fileClose (services sb) x.file
      let x ← getVma v
      match pre with
      | none => do
        let s ← get
        modifyProc s.cur fun p => { p with vma := x.next }
      | some pre => do
        modifyVma pre fun y => { y with next := x.next }
        modifyVma v fun y => { y with next := none }
      modifyVma v fun y => { y with length := 0 }
      return 0
    else do
      modifyVma v fun y => { y with
        off := u64 (y.off + length), length := u64 (y.length + 2 ^ 64 - length) }
      return 0
  else do
    modifyVma v fun y => { y with
      length := u64 (y.length + 2 ^ 64 - length), stop := u64 (y.stop + 2 ^ 64 - length) }
    return 0

/-- `munmap` (sysfile.c:165-215). -/
def munmap (addr length : ℕ) (mem : ℕ → UInt8) : SysM ℤ := do
  let p ← thisproc
  let found ← vmaOf addr nvma none p.vma
  match found with
  | none => return -1
  | some (v, pre) => unmap sb v pre addr length mem

/-- `pgfault_handler` (paging.c:146-218). A fault outside the mappings does not touch a
    file. -/
def pageFault (addr : ℕ) : SysM ℤ := do
  let p ← thisproc
  let found ← vmaOf addr nvma none p.vma
  match found with
  | none => return 0
  | some (v, _) => do
    let x ← getVma v
    let f ← getFile x.file
    (services sb).lock f.ip
    let _ ← (services sb).read f.ip (u64 (x.off + pageBaseOf addr + 2 ^ 64 - x.start)) pageBytes
    (services sb).unlock f.ip
    return 0

end ShikiOS.Kernel.Calls
