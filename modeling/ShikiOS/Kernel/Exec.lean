import ShikiOS.Kernel.Copyout
import ShikiOS.Kernel.FreePgdir
import ShikiOS.Kernel.Sysfile

/-!
# `execve` and the memory of the process (`kernel/exec.c`)

`execve` makes a page directory, reads the segments of the file through it, and puts the arguments and
the environment on a new stack. While it does so the kernel may take page faults of its own.

Of the file system the model has the content of the file, its lock and references, and the operations
that have begun. The strings of the caller are taken to lie in pages that it has touched. A null pointer
that `kalloc` returns is followed at once.

Results:
* `execve_leaks`: a call that fails does not free what it has allocated.
-/

namespace ShikiOS.Kernel.Exec

open ShikiOS.Lib Paging
open UserPtr (pteRo)

/-! ## Model -/

/-- `elr` and `sp` of the user context of the system call. -/
structure Frame where
  elr : UInt64
  sp : UInt64

/-- Memory, the live blocks of `kalloc`, the state of the file, and the frame to which the system call
    returns. A fault in the kernel leaves `ucontext` at a frame of its own (trap.c:14): then `nested`. -/
structure State where
  vm : Vm
  blocks : List ℕ
  ops : ℤ
  refs : ℤ
  locked : Bool
  frame : Frame
  nested : Bool

/-- `ttbr0`, which is kept with the roots of the directories. No `struct pgdir` is at address 0. -/
def ttbr0 : ℕ := 0

/-- A mapping as `mmap` makes it (sysfile.c:128-135), of which a page is read at a time. -/
def Made (w : Mapping) : Prop := w.permission = pteUserData ∧ ∀ addr, (w.read addr).length ≤ pageSize

/-- A call of `execve`: the process, the address of `oldpigdir`, the mappings of the process, the
    content of the file if there is one, and what `kalloc` returns when some blocks are live. The
    directories are at different addresses. -/
structure Call where
  proc : ℕ
  saved : ℕ
  vmas : List Mapping
  file : Option (List UInt8)
  block : List ℕ → ℕ
  made : ∀ w ∈ vmas, Made w
  fresh : ∀ l, block l ∉ l
  proc_ne : ∀ l, pgdirOf proc ≠ block l
  saved_ne : saved ≠ pgdirOf proc ∧ saved ≠ ttbr0 ∧ ∀ l, saved ≠ block l

abbrev X := EStateM Paging.Stop State

def memory {α : Type} (x : M α) : X α := zoom State.vm (fun v s => { s with vm := v }) x

/-- `attach_pgdir` (pt.c:96-103). Without a root it attaches a table that maps nothing. -/
def attachPgdir (pd : ℕ) : M Unit := do setPt ttbr0 ((← get).pt pd)

/-- `*dst = *src`, for directories. -/
def copyPgdir (dst src : ℕ) : M Unit := do setPt dst ((← get).pt src)

def kalloc (c : Call) : X ℕ := do
  let b := c.block (← get).blocks
  if b = 0 then throw .null
  modify fun s => { s with blocks := b :: s.blocks }
  return b

/-! ### Accesses of the kernel to the memory of the process -/

/-- The fault of an access to `va` (trap.c:14, paging.c:146-219). -/
def fault (c : Call) (va : UInt64) : X Unit := do
  modify fun s => { s with nested := true }
  let _ ← memory (pgfaultHandler c.proc c.vmas va 0)
  if (c.vmas.find? fun v => v.Covers va).isNone then memory (attachPgdir (pgdirOf c.proc))

/-- Where the attached directory leads for an access to `va`. -/
def lookup (write : Bool) (va : UInt64) : M (Option ℕ) := do
  match ← getPte ttbr0 va false with
  | none => return none
  | some slot =>
    let pte ← load slot
    if Valid pte ∧ ¬ (write = true ∧ pte &&& pteRo ≠ 0) then return some (pageOf pte + va.toNat % pageSize)
    else return none

/-- The access after it faulted. One that faults again is taken to do so for ever. -/
def accessAgain (c : Call) (write : Bool) (va : UInt64) : X ℕ := do
  fault c va
  match ← memory (lookup write va) with
  | some a => return a
  | none => throw .spin

/-- The place of `va` in the memory of the kernel. An address that no table can map faults for ever. -/
def access (c : Call) (write : Bool) (va : UInt64) : X ℕ := do
  if kernelBase ≤ va.toNat then return va.toNat
  if userTop ≤ va then throw .spin
  match ← memory (lookup write va) with
  | some a => return a
  | none => accessAgain c write va

/-- `memcpy(va, l, ..)` in at most `n` pieces, each in one page. -/
def copyToUser (c : Call) : ℕ → UInt64 → List UInt8 → X Unit
  | 0, _, _ => return
  | n + 1, va, l => do
    if l = [] then return
    let k := min (pageSize - va.toNat % pageSize) l.length
    let a ← access c true va
    memory (readPage a (l.take k))
    copyToUser c n (va + UInt64.ofNat k) (l.drop k)

/-- `*(u64 *)va = v` for an aligned address. -/
def storeWord (c : Call) (va v : UInt64) : X Unit := do
  let a ← access c true va
  memory (store a v)

/-- `strlen(va)` in at most `n` rounds. -/
def strlen (c : Call) : ℕ → UInt64 → X UInt64
  | 0, _ => throw .spin
  | n + 1, va => do
    let a ← access c false va
    if (← get).vm.heap.mem a = 0 then return 0
    return 1 + (← strlen c n (va + 1))

/-! ### The file -/

/-- `inode_read` (inode.c:335-363) of a file with the content `l`, or `none` where an assertion fails. -/
def readFile (l : List UInt8) (offset count : ℕ) : Option (List UInt8) :=
  let size := l.length
  let count := if u64 (count + offset) > size then u64 (size + 2 ^ 64 - offset) else count
  let stop := u64 (offset + count)
  if offset ≤ size ∧ stop ≤ size ∧ offset ≤ stop then some ((l.drop offset).take (stop - offset)) else none

/-- `elf.e_entry`. -/
def elfEntry (l : List UInt8) : UInt64 := UInt64.ofNat (getLE (fun i => l.getD i 0) 24 8)

/-- The body of the loop over the segments (exec.c:68-88) for a header that is `PT_LOAD`. `none` is
    `goto bad`. -/
def loadSegment (c : Call) (pgdir : ℕ) (file : List UInt8) (ph : ProgramHeader) (sz : UInt64) (f : Bool) :
    X (Option UInt64) := do
  if ph.memsz < ph.filesz then return none
  let vaddr := UInt64.ofNat ph.vaddr
  let stop := vaddr + UInt64.ofNat ph.memsz
  if stop < vaddr then return none
  let r ← memory (Paging.uvmalloc pgdir (if f then vaddr else sz) stop)
  let sz := UInt64.ofInt r
  if sz = 0 then return none
  memory (attachPgdir pgdir)
  match readFile file ph.offset ph.filesz with
  | none => throw .panic
  | some l =>
    copyToUser c l.length vaddr l
    if l.length ≠ ph.filesz then return none
    return some sz

/-- The loop over `n` program headers from `off` on (exec.c:64-89). -/
def loadSegments (c : Call) (pgdir : ℕ) (file : List UInt8) : ℕ → UInt64 → UInt64 → Bool → X Bool
  | 0, _, _, _ => return true
  | n + 1, off, sz, f => do
    match readFile file off.toNat programHeaderSize with
    | none => throw .panic
    | some bytes =>
      if bytes.length ≠ programHeaderSize then return false
      let ph := ProgramHeader.decode bytes
      if ph.type ≠ ptLoad then loadSegments c pgdir file n (off + 56) sz f
      else
        match ← loadSegment c pgdir file ph sz f with
        | none => return false
        | some sz => loadSegments c pgdir file n (off + 56) sz false

/-- Lines 42-89: the entry of the program, or `none` for `goto bad`. -/
def loadElf (c : Call) (pgdir : ℕ) (file : List UInt8) : X (Option UInt64) := do
  match readFile file 0 elfHeaderSize with
  | none => throw .panic
  | some bytes =>
    if bytes.length ≠ elfHeaderSize then return none
    let elf := ElfHeader.decode bytes
    if elf.magic ≠ elfMagic then return none
    memory (copyPgdir (pgdirOf c.proc) pgdir)
    if ← loadSegments c pgdir file elf.phnum (UInt64.ofNat elf.phoff) 0 true then
      return some (elfEntry bytes)
    else return none

/-! ### The stack -/

/-- `MAXARG` (defines.h:112). -/
def maxArg : ℕ := 32

/-- The loops over `argv` and `envp` (exec.c:101-114). -/
def pushStrings (pgdir : ℕ) : List (List UInt8) → UInt64 → M UInt64
  | [], sp => return sp
  | s :: l, sp => do
    let len := UInt64.ofNat s.length
    let sp := sp - (len + 1)
    let _ ← copyout pgdir sp (.user (s ++ [0])) (len + 1)
    pushStrings pgdir l sp

/-- The loops over the pointers (exec.c:124-131), from the last one of `n` down. -/
def setPointers (c : Call) (base : UInt64) : ℕ → UInt64 → X UInt64
  | 0, sp => return sp
  | i + 1, sp => do
    storeWord c (base + 8 * UInt64.ofNat i) sp
    let len ← strlen c (2 ^ 64 - sp.toNat) sp
    setPointers c base i (sp + len + 1)

/-- Lines 96-139: the new stack pointer. -/
def buildStack (c : Call) (pgdir : ℕ) (argv envp : List (List UInt8)) : X UInt64 := do
  memory (attachPgdir c.saved)
  let sp ← memory (pushStrings pgdir argv userTop)
  let sp ← memory (pushStrings pgdir envp sp)
  let argc := UInt64.ofNat argv.length
  let envc := UInt64.ofNat envp.length
  let newsp := (sp - (envc + argc + 4) * 8) &&& ~~~0xF
  let _ ← memory (copyout pgdir newsp .null (sp - newsp))
  memory (attachPgdir pgdir)
  let newargv := newsp + 8
  let newenvp := newargv + 8 * (argc + 1)
  let sp ← setPointers c newenvp envp.length sp
  let _ ← setPointers c newargv argv.length sp
  storeWord c newsp argc
  let userBase := (userTop - newsp + 8 * 0x1000 - 1) &&& ~~~0x7F
  let _ ← memory (copyout pgdir (userTop - userBase) .null (userBase - (userTop - newsp)))
  return newsp

/-! ### `execve` -/

def beginOp : X Unit := modify fun s => { s with ops := s.ops + 1 }
def endOp : X Unit := modify fun s => { s with ops := s.ops - 1 }

/-- `namei`, and `inodes.lock`. -/
def openInode : X Unit := modify fun s => { s with refs := s.refs + 1, locked := true }

/-- `inodes.unlock`, and `inodes.put`. -/
def closeInode : X Unit := modify fun s => { s with refs := s.refs - 1, locked := false }

/-- The label `bad` (exec.c:149-157). `ip` tells whether the inode is open. -/
def bad (c : Call) (pgdir : ℕ) (ip : Bool) : X ℤ := do
  memory (freePgdir pgdir)
  if ip then
    closeInode
    endOp
  memory (copyPgdir (pgdirOf c.proc) c.saved)
  return -1

/-- Lines 141-145: the process gets its new memory and context. -/
def commit (c : Call) (pgdir : ℕ) (entry sp : UInt64) : X Unit := do
  memory (copyPgdir (pgdirOf c.proc) pgdir)
  if (← get).nested = false then modify fun s => { s with frame := ⟨entry, sp⟩ }
  memory (freePgdir c.saved)

/-- Lines 24-26: `oldpigdir` is set, and a new directory made. -/
def newPgdir (c : Call) : X ℕ := do
  memory (copyPgdir c.saved (pgdirOf c.proc))
  let pgdir ← kalloc c
  memory (initPgdir pgdir)
  -- `init_sections`
  let _ ← kalloc c
  return pgdir

/-- `execve` (exec.c:20-158). The lists are `argv` and `envp` up to their null pointers. -/
def execve (c : Call) (argv envp : List (List UInt8)) : X ℤ := do
  let pgdir ← newPgdir c
  beginOp
  match c.file with
  | none =>
    endOp
    bad c pgdir false
  | some file =>
    openInode
    match ← loadElf c pgdir file with
    | none => bad c pgdir true
    | some entry =>
      closeInode
      endOp
      let sp ← buildStack c pgdir (argv.take maxArg) (envp.take maxArg)
      commit c pgdir entry sp
      return 0

variable {c : Call} {a r p pgdir n : ℕ} {s t : State} {I : State → Prop} {argv envp : List (List UInt8)}
  {file : List UInt8}

variable {α : Type} {x : M α} {E : Paging.Stop → State → Prop}

@[simp] theorem wp_memory {Q : α → State → Prop} : wp (memory x) Q E s ↔
    wp x (fun r v => Q r { s with vm := v }) (fun e v => E e { s with vm := v }) s.vm := wp_zoom

@[simp] theorem wp_copyPgdir {Q : Unit → Vm → Prop} {E : Paging.Stop → Vm → Prop} {v : Vm} {dst src : ℕ} :
    wp (copyPgdir dst src) Q E v ↔ Q () { v with pt := Function.update v.pt dst (v.pt src) } := by
  rw [copyPgdir, wp_bind, wp_get, wp_setPt]

/-- A program of which only the end matters. -/
theorem wlp_after {β : Type} {f : α → X β} {y : X α} {Q : β → State → Prop}
    (h : ∀ r t, wlp (f r) Q t) : wlp (y >>= f) Q s :=
  wp_bind.mpr (wp.always h fun _ _ => trivial)

@[simp] theorem wp_attachPgdir {Q : Unit → Vm → Prop} {E : Paging.Stop → Vm → Prop} {v : Vm} {pd : ℕ} :
    wp (attachPgdir pd) Q E v ↔ Q () { v with pt := Function.update v.pt ttbr0 (v.pt pd) } := wp_copyPgdir

theorem kalloc_spec {Q : ℕ → State → Prop} (h : c.block s.blocks ≠ 0 →
    Q (c.block s.blocks) { s with blocks := c.block s.blocks :: s.blocks }) : wlp (kalloc c) Q s := by
  rw [kalloc, wlp, wp_bind, wp_get]
  refine wp.ite (fun _ => ?_) fun hne => ?_
  · rw [wp_bind, wp_throw]
    trivial
  · rw [wp_bind, wp_modify, wp_pure]
    exact h hne

/-! ## Directories that are left alone -/

/-- The root of the directory at `a`. -/
def Root (a r : ℕ) (v : Vm) : Prop := v.pt a = r

theorem root_modify {f : Vm → Vm} (hf : ∀ v, (f v).pt = v.pt) :
    Preserves (Root a r) (modify f : M Unit) :=
  preserves_modify fun v hv => (congrFun (hf v) a).trans hv

theorem root_kallocPage : Preserves (Root a r) kallocPage := by
  unfold kallocPage
  refine preserves_get.bind fun v => ?_
  split
  · exact preserves_throw _
  · have hrest : ∀ q : ℕ, Preserves (Root a r) (do
        modify fun v : Vm => { v with taken := v.taken ++ [q] }
        return q : M ℕ) := fun q => .bind (root_modify fun _ => rfl) fun _ => preserves_pure _
    refine .bind (root_modify fun _ => rfl) fun _ => .ite (fun _ => ?_) fun _ => hrest _
    exact (preserves_throw _).bind fun _ => hrest _

theorem root_kfreePage {q : ℕ} : Preserves (Root a r) (kfreePage q) := by
  unfold kfreePage
  refine preserves_get.bind fun v => ?_
  split
  · exact preserves_throw _
  · exact root_modify fun _ => rfl

theorem root_kfree {q : ℕ} : Preserves (Root a r) (kfree q) := by
  unfold kfree
  refine preserves_get.bind fun v => ?_
  split
  · exact preserves_throw _
  · exact root_modify fun _ => rfl

theorem root_load {x : ℕ} : Preserves (Root a r) (load x) := preserves_get.bind fun _ => preserves_pure _

theorem root_store {x : ℕ} {v : UInt64} : Preserves (Root a r) (store x v) := root_modify fun _ => rfl

theorem root_setPt {pd q : ℕ} (hne : a ≠ pd) : Preserves (Root a r) (setPt pd q) :=
  preserves_modify fun _ hv => (Function.update_of_ne hne _ _).trans hv

theorem root_clearPage {q : ℕ} : Preserves (Root a r) (clearPage q) := root_modify fun _ => rfl

theorem root_readPage {q : ℕ} {l : List UInt8} : Preserves (Root a r) (readPage q l) :=
  root_modify fun _ => rfl

theorem root_newTable : Preserves (Root a r) newTable :=
  root_kallocPage.bind fun _ => root_clearPage.bind fun _ => preserves_pure _

theorem root_descend {alloc : Bool} {l : List ℕ} {pgtbl : ℕ} :
    Preserves (Root a r) (descend alloc l pgtbl) := by
  induction l generalizing pgtbl with
  | nil => exact preserves_pure _
  | cons idx l ih =>
    unfold descend nextTable
    refine .bind (root_load.bind fun _ => .ite (fun _ => ?_) fun _ => .ite (fun _ => preserves_pure _) fun _ => ?_)
      fun next => ?_
    · exact root_load.bind fun _ => preserves_pure _
    · exact root_newTable.bind fun _ => root_store.bind fun _ => root_load.bind fun _ => preserves_pure _
    · cases next with
      | none => exact preserves_pure _
      | some q => exact ih

theorem root_getPte {pd : ℕ} {va : UInt64} {alloc : Bool} (hne : a ≠ pd) :
    Preserves (Root a r) (getPte pd va alloc) := by
  unfold getPte rootTable
  refine .bind (preserves_get.bind fun _ => .ite (fun _ => preserves_pure _) fun _ =>
    .ite (fun _ => preserves_pure _) fun _ => ?_) fun root => ?_
  · exact root_newTable.bind fun _ => (root_setPt hne).bind fun _ => preserves_pure _
  · cases root with
    | none => exact preserves_pure _
    | some q =>
      refine root_descend.bind fun last => ?_
      cases last <;> exact preserves_pure _

theorem root_uvmalloc {pd : ℕ} {oldsz newsz : UInt64} (hne : a ≠ pd) :
    Preserves (Root a r) (Paging.uvmalloc pd oldsz newsz) := by
  have hpage : ∀ va, Preserves (Root a r) (allocPage pd va) := by
    intro va
    unfold allocPage setPte
    refine root_kallocPage.bind fun _ => (root_getPte hne).bind fun slot => ?_
    cases slot with
    | none => exact preserves_throw _
    | some x => exact root_store
  have hloop : ∀ n va, Preserves (Root a r) (uvmallocLoop pd newsz n va) := by
    intro n
    induction n with
    | zero => exact fun va => .ite (fun _ => preserves_throw _) fun _ => preserves_pure _
    | succ n ih => exact fun va => .ite (fun _ => (hpage va).bind fun _ => ih _) fun _ => preserves_pure _
  exact .ite (fun _ => preserves_pure _) fun _ => (hloop _ _).bind fun _ => preserves_pure _

theorem root_pgfaultHandler {vmas : List Mapping} {va : UInt64} {iss : ℤ} (hne : a ≠ pgdirOf p) :
    Preserves (Root a r) (pgfaultHandler p vmas va iss) := by
  unfold pgfaultHandler
  cases vmas.find? fun v => v.Covers va with
  | some v =>
    have hmap : ∀ n va pa, Preserves (Root a r) (mapLoop (pgdirOf p) v.permission n va pa) := by
      intro n
      induction n with
      | zero => exact fun va pa => preserves_pure _
      | succ n ih =>
        intro va pa
        refine (root_getPte hne).bind fun slot => ?_
        cases slot with
        | none => exact preserves_pure _
        | some x => exact root_store.bind fun _ => ih _ _
    have hpages : ∀ va size pa, Preserves (Root a r) (mappages (pgdirOf p) va size pa v.permission) := by
      intro va size pa
      refine .ite (fun _ => (preserves_throw _).bind fun _ => ?_) fun _ => ?_
      all_goals refine .ite (fun _ => (preserves_throw _).bind fun _ => ?_) fun _ => ?_
      all_goals exact .ite (fun _ => (preserves_throw _).bind fun _ => hmap _ _ _) fun _ => hmap _ _ _
    refine root_kallocPage.bind fun q => root_clearPage.bind fun _ => (hpages _ _ _).bind fun _ => ?_
    refine .ite (fun _ => root_kfree.bind fun _ => preserves_pure _) fun _ => ?_
    exact root_readPage.bind fun _ => preserves_pure _
  | none =>
    refine (root_getPte hne).bind fun slot => ?_
    cases slot with
    | none => exact preserves_throw _
    | some x =>
      have hret : ∀ u : Unit, Preserves (Root a r) (pure iss : M ℤ) := fun _ => preserves_pure _
      have hfresh : Preserves (Root a r) (do store x (entryOf (← kallocPage) pteUserData); return iss) :=
        root_kallocPage.bind fun _ => root_store.bind hret
      refine root_load.bind fun old => .ite (fun _ => hfresh) fun _ => .ite (fun _ => ?_) fun _ => hfresh
      refine root_kallocPage.bind fun q => .bind (.bind (root_modify fun _ => rfl) fun _ => ?_) fun _ => ?_
      · exact preserves_get.bind fun _ => root_setPt hne
      · exact root_store.bind fun _ => root_kfreePage.bind hret

theorem root_freePagetable {n q : ℕ} : Preserves (Root a r) (freePagetable n q) := by
  induction n generalizing q with
  | zero => exact preserves_pure _
  | succ n ih =>
    intro s hs
    refine wp_forN (fun _ => Root a r) hs fun i t _ _ ht => ?_
    refine root_load.bind (fun pte => .ite (fun _ => .ite (fun _ => ?_) fun _ => preserves_pure _)
      fun _ => preserves_pure _) t ht
    exact ih.bind fun _ => .ite (fun _ => root_kfreePage) fun _ => preserves_pure _

theorem root_freePgdir {pd : ℕ} (hne : a ≠ pd) : Preserves (Root a r) (freePgdir pd) := by
  refine preserves_get.bind fun _ => .ite (fun _ => preserves_pure _) fun _ => preserves_get.bind fun _ => ?_
  refine root_freePagetable.bind fun _ => preserves_get.bind fun _ => root_kfreePage.bind fun _ => ?_
  exact root_setPt hne

theorem root_copyPgdir {dst src : ℕ} (hne : a ≠ dst) : Preserves (Root a r) (copyPgdir dst src) :=
  preserves_get.bind fun _ => root_setPt hne

theorem root_lookup {write : Bool} {va : UInt64} (hne : a ≠ ttbr0) :
    Preserves (Root a r) (lookup write va) := by
  refine (root_getPte hne).bind fun slot => ?_
  cases slot with
  | none => exact preserves_pure _
  | some x => exact root_load.bind fun _ => .ite (fun _ => preserves_pure _) fun _ => preserves_pure _

/-! ## What loading a file leaves alone -/

/-- What loading may change: memory, but not the directory at `a`, and `ucontext`. -/
structure Stable (a : ℕ) (I : State → Prop) : Prop where
  vm : ∀ s v, I s → v.pt a = s.vm.pt a → I { s with vm := v }
  nested : ∀ s, I s → I { s with nested := true }

section Loading

variable (hI : Stable c.saved I)
include hI

theorem Stable.memory (hx : ∀ r, Preserves (Root c.saved r) x) :
    Preserves I (memory x) := by
  intro s hs
  exact wp_memory.mpr (wp_mono (hx _ s.vm rfl) (fun _ v hv => hI.vm s v hs hv) fun _ v hv => hI.vm s v hs hv)

theorem Stable.fault {va : UInt64} : Preserves I (fault c va) := by
  refine (preserves_modify hI.nested).bind fun _ => ?_
  refine (hI.memory fun _ => root_pgfaultHandler c.saved_ne.1).bind fun _ => .ite (fun _ => ?_) fun _ => ?_
  · exact hI.memory fun _ => root_copyPgdir c.saved_ne.2.1
  · exact preserves_pure _

theorem Stable.lookup {write : Bool} {va : UInt64} : Preserves I (Exec.memory (lookup write va)) :=
  hI.memory fun _ => root_lookup c.saved_ne.2.1

theorem Stable.accessAgain {write : Bool} {va : UInt64} : Preserves I (accessAgain c write va) := by
  refine hI.fault.bind fun _ => hI.lookup.bind fun found => ?_
  cases found with
  | some a => exact preserves_pure _
  | none => exact preserves_throw _

theorem Stable.access {write : Bool} {va : UInt64} : Preserves I (access c write va) := by
  have hmap : Preserves I (do
      match ← Exec.memory (Exec.lookup write va) with
      | some a => return a
      | none => Exec.accessAgain c write va : X ℕ) := by
    refine hI.lookup.bind fun found => ?_
    cases found with
    | some a => exact preserves_pure _
    | none => exact hI.accessAgain
  exact .ite (fun _ => preserves_pure _) fun _ =>
    .ite (fun _ => (preserves_throw _).bind fun _ => hmap) fun _ => hmap

theorem Stable.copyToUser {n : ℕ} {va : UInt64} {l : List UInt8} : Preserves I (copyToUser c n va l) := by
  induction n generalizing va l with
  | zero => exact preserves_pure _
  | succ n ih =>
    refine .ite (fun _ => preserves_pure _) fun _ => hI.access.bind fun _ => ?_
    exact (hI.memory fun _ => root_readPage).bind fun _ => ih

theorem Stable.loadSegment {ph : ProgramHeader} {sz : UInt64} {f : Bool} (hne : c.saved ≠ pgdir) :
    Preserves I (loadSegment c pgdir file ph sz f) := by
  refine .ite (fun _ => preserves_pure _) fun _ => .ite (fun _ => preserves_pure _) fun _ => ?_
  refine (hI.memory fun _ => root_uvmalloc hne).bind fun _ => .ite (fun _ => preserves_pure _) fun _ => ?_
  refine (hI.memory fun _ => root_copyPgdir c.saved_ne.2.1).bind fun _ => ?_
  cases readFile file ph.offset ph.filesz with
  | none => exact preserves_throw _
  | some l =>
    exact hI.copyToUser.bind fun _ => .ite (fun _ => preserves_pure _) fun _ => preserves_pure _

theorem Stable.loadSegments {n : ℕ} {off sz : UInt64} {f : Bool} (hne : c.saved ≠ pgdir) :
    Preserves I (loadSegments c pgdir file n off sz f) := by
  induction n generalizing off sz f with
  | zero => exact preserves_pure _
  | succ n ih =>
    unfold Exec.loadSegments
    cases readFile file off.toNat programHeaderSize with
    | none => exact preserves_throw _
    | some bytes =>
      refine .ite (fun _ => preserves_pure _) fun _ => .ite (fun _ => ih) fun _ => ?_
      refine (hI.loadSegment hne).bind fun r => ?_
      cases r with
      | none => exact preserves_pure _
      | some sz => exact ih

theorem Stable.loadElf (hne : c.saved ≠ pgdir) : Preserves I (loadElf c pgdir file) := by
  unfold Exec.loadElf
  cases readFile file 0 elfHeaderSize with
  | none => exact preserves_throw _
  | some bytes =>
    refine .ite (fun _ => preserves_pure _) fun _ => .ite (fun _ => preserves_pure _) fun _ => ?_
    refine (hI.memory fun _ => root_copyPgdir c.saved_ne.1).bind fun _ => ?_
    exact (hI.loadSegments hne).bind fun _ => .ite (fun _ => preserves_pure _) fun _ => preserves_pure _

end Loading

/-! ## Calls that fail -/

/-- What a call that fails should leave. The block lists are those of `kalloc`. -/
structure Undone (c : Call) (s t : State) : Prop where
  pgdir : t.vm.pt (pgdirOf c.proc) = s.vm.pt (pgdirOf c.proc)
  ttbr0 : t.vm.pt ttbr0 = s.vm.pt ttbr0
  intact : ∀ va, translate t.vm (pgdirOf c.proc) va = translate s.vm (pgdirOf c.proc) va
  blocks : ∀ b, b ∈ t.blocks ↔ b ∈ s.blocks
  pages : ∀ q, IsFree t.vm.heap q ↔ IsFree s.vm.heap q
  unlocked : c.file ≠ none → t.locked = false
  refs : t.refs = s.refs
  ops : t.ops = s.ops

/-- What it does leave: the block `b` was allocated for it. -/
structure Leaked (c : Call) (s : State) (b : ℕ) (t : State) : Prop where
  pgdir : t.vm.pt (pgdirOf c.proc) = s.vm.pt (pgdirOf c.proc)
  block : b ∈ t.blocks
  unlocked : c.file ≠ none → t.locked = false
  refs : t.refs = s.refs
  ops : t.ops = s.ops

/-- While the file is loaded the operation is open, and the inode if `ip`. -/
structure Holding (c : Call) (s : State) (b : ℕ) (ip : Bool) (t : State) : Prop where
  saved : t.vm.pt c.saved = s.vm.pt (pgdirOf c.proc)
  block : b ∈ t.blocks
  refs : t.refs = s.refs + ip.toNat
  ops : t.ops = s.ops + ip.toNat

theorem Holding.stable {b : ℕ} {ip : Bool} : Stable c.saved (Holding c s b ip) where
  vm _ _ ht hv := ⟨hv.trans ht.saved, ht.block, ht.refs, ht.ops⟩
  nested _ ht := ⟨ht.saved, ht.block, ht.refs, ht.ops⟩

theorem bad_spec {b : ℕ} {ip : Bool} (h : Holding c s b ip t) (hip : c.file ≠ none → ip = true)
    (hne : c.saved ≠ pgdir) : wlp (bad c pgdir ip) (fun _ u => Leaked c s b u) t := by
  have hI : Stable c.saved (Holding c s b ip) := Holding.stable
  rw [bad, wlp, wp_bind]
  refine wp_mono (hI.memory (fun _ => root_freePgdir hne) t h) (fun _ u hu => ?_) fun _ _ _ => trivial
  have hrefs := hu.refs
  have hops := hu.ops
  cases ip with
  | false =>
    rw [if_neg Bool.false_ne_true, wp_bind, wp_memory, wp_copyPgdir, wp_pure]
    refine ⟨(Function.update_self ..).trans hu.saved, hu.block, fun hf => ?_, ?_, ?_⟩
    · exact absurd (hip hf) Bool.false_ne_true
    · rwa [Bool.toNat_false, Nat.cast_zero, add_zero] at hrefs
    · rwa [Bool.toNat_false, Nat.cast_zero, add_zero] at hops
  | true =>
    rw [if_pos rfl, closeInode, endOp]
    simp only [wp_bind, wp_modify, wp_memory, wp_copyPgdir, wp_pure]
    refine ⟨(Function.update_self ..).trans hu.saved, hu.block, fun _ => rfl, ?_, ?_⟩
    · exact sub_eq_of_eq_add hrefs
    · exact sub_eq_of_eq_add hops

theorem newPgdir_spec :
    wlp (newPgdir c) (fun pgdir t => c.saved ≠ pgdir ∧ Holding c s (c.block s.blocks) false t) s := by
  have hne := c.saved_ne.2.2 s.blocks
  rw [newPgdir, wlp, wp_bind, wp_memory, wp_copyPgdir, wp_bind]
  refine kalloc_spec fun _ => ?_
  rw [wp_bind]
  have h₀ : Holding c s (c.block s.blocks) false { s with
      vm := { s.vm with pt := Function.update s.vm.pt c.saved (s.vm.pt (pgdirOf c.proc)) }
      blocks := c.block s.blocks :: s.blocks } :=
    ⟨Function.update_self .., List.mem_cons_self, (add_zero _).symm, (add_zero _).symm⟩
  refine wp_mono (Holding.stable.memory (fun _ => ?_) _ h₀) (fun _ u hu => ?_) fun _ _ _ => trivial
  · exact root_kallocPage.bind fun _ => (root_setPt hne).bind fun _ => root_clearPage
  rw [wp_bind]
  exact kalloc_spec fun _ => (wp_pure.mpr ⟨hne, hu.saved, List.mem_cons_of_mem _ hu.block, hu.refs, hu.ops⟩)

/-- A call that fails leaves the page directory of the process, the inode and the log as they were,
    and does not free the structure of its own directory. -/
theorem execve_fails :
    wlp (execve c argv envp) (fun r t => r = -1 → Leaked c s (c.block s.blocks) t) s := by
  rw [execve, wlp, wp_bind]
  refine newPgdir_spec.imp ?_
  rintro pgdir u ⟨hne, hu⟩
  rw [beginOp, wp_bind, wp_modify]
  cases hfile : c.file with
  | none =>
    dsimp only
    rw [endOp, wp_bind, wp_modify]
    have h₁ : Holding c s (c.block s.blocks) false { u with ops := u.ops + 1 - 1 } :=
      ⟨hu.saved, hu.block, hu.refs, (add_sub_cancel_right _ _).trans hu.ops⟩
    exact (bad_spec h₁ (fun hf => absurd hfile hf) hne).imp fun _ t ht _ => ht
  | some file =>
    dsimp only
    rw [openInode, wp_bind, wp_modify, wp_bind]
    have hrefs : u.refs = s.refs := hu.refs.trans (add_zero _)
    have hops : u.ops = s.ops := hu.ops.trans (add_zero _)
    have h₁ : Holding c s (c.block s.blocks) true { u with
        ops := u.ops + 1
        refs := u.refs + 1
        locked := true } :=
      ⟨hu.saved, hu.block, congrArg (· + 1) hrefs, congrArg (· + 1) hops⟩
    refine wp_mono (Holding.stable.loadElf hne _ h₁) (fun r v hv => ?_) fun _ _ _ => trivial
    cases r with
    | none => exact (bad_spec hv (fun _ => rfl) hne).imp fun _ t ht _ => ht
    | some entry =>
      -- What follows returns 0.
      refine wlp_after fun _ _ => wlp_after fun _ _ => wlp_after fun _ _ => wlp_after fun _ _ => ?_
      exact wp_pure.mpr fun h => absurd h (by decide)

/-- A call that fails never leaves everything as it was. -/
theorem execve_leaks :
    wlp (execve c argv envp) (fun r t => r = -1 → Leaked c s (c.block s.blocks) t ∧ ¬ Undone c s t) s := by
  refine execve_fails.imp fun r t ht hr => ⟨ht hr, fun hu => ?_⟩
  exact c.fresh s.blocks ((hu.blocks _).mp (ht hr).block)

/-- Tables can be freed while no lock is held, and the root becomes the first free page. -/
theorem freePgdir_total {v : Vm} {pd : ℕ} (hl : v.heap.pageLock = false) (hroot : v.pt pd ≠ 0) :
    wp (freePgdir pd) (fun _ w => w.heap.freePages = v.pt pd) (fun _ _ => False) v := by
  have hfree : ∀ (q : ℕ) (v : Vm), v.heap.pageLock = false → wp (kfreePage q)
      (fun _ w => w.heap.pageLock = false ∧ w.heap.freePages = q) (fun _ _ => False) v := by
    intro q v hl
    have hp : ∃ h : Heap, v.heap.kfreePage q = some h ∧ h.pageLock = false ∧ h.freePages = q := by
      simp only [Heap.kfreePage, Heap.acquirePage, hl, Bool.false_eq_true, if_false, Option.bind_eq_bind,
        Option.bind_some]
      exact ⟨_, rfl, rfl, rfl⟩
    obtain ⟨h, hh, hpost⟩ := hp
    rw [kfreePage, wp_bind, wp_get, hh]
    exact wp_modify.mpr hpost
  have htable : ∀ n q (v : Vm), v.heap.pageLock = false →
      wp (freePagetable n q) (fun _ w => w.heap.pageLock = false) (fun _ _ => False) v := by
    intro n
    induction n with
    | zero => exact fun q v hl => wp_pure.mpr hl
    | succ n ih =>
      intro q v hl
      refine wp_forN (fun _ (w : Vm) => w.heap.pageLock = false) hl fun i w _ _ hw => ?_
      rw [wp_bind, wp_load]
      refine wp.ite (fun _ => wp.ite (fun _ => ?_) fun _ => wp_pure.mpr hw) fun _ => wp_pure.mpr hw
      rw [wp_bind]
      refine (ih _ w hw).imp fun _ u hu => wp.ite (fun _ => ?_) fun _ => wp_pure.mpr hu
      exact (hfree _ u hu).imp fun _ _ h => h.1
  rw [freePgdir, wp_bind, wp_get, if_neg hroot, wp_bind, wp_get, wp_bind]
  refine wp_mono (wp.and (htable _ _ v hl) (root_freePagetable (a := pd) v rfl)) ?_ fun _ _ h => h.1
  rintro - w ⟨hw, hpt⟩
  rw [wp_bind, wp_get, wp_bind]
  exact (hfree _ w hw).imp fun _ u hu => wp_setPt.mpr (hu.2.trans hpt)

/-- The label `bad` leaves `ttbr0` as it is. -/
theorem bad_total {ip : Bool} (hl : t.vm.heap.pageLock = false) (hroot : t.vm.pt pgdir ≠ 0)
    (hne : ttbr0 ≠ pgdir) (hproc : ttbr0 ≠ pgdirOf c.proc) :
    wp (bad c pgdir ip) (fun r u => r = -1 ∧ u.vm.pt ttbr0 = t.vm.pt ttbr0 ∧
      u.vm.heap.freePages = t.vm.pt pgdir) (fun _ _ => False) t := by
  rw [bad, wp_bind, wp_memory]
  refine wp_mono (wp.and (freePgdir_total hl hroot) (root_freePgdir hne t.vm rfl)) ?_ fun _ _ h => h.1
  rintro - w ⟨hfirst, hpt⟩
  have hend : ∀ u : State, u.vm = w → wp (do memory (copyPgdir (pgdirOf c.proc) c.saved); return -1 : X ℤ)
      (fun r u => r = -1 ∧ u.vm.pt ttbr0 = t.vm.pt ttbr0 ∧ u.vm.heap.freePages = t.vm.pt pgdir)
      (fun _ _ => False) u := by
    rintro u rfl
    rw [wp_bind, wp_memory, wp_copyPgdir, wp_pure]
    dsimp only
    rw [Function.update_of_ne hproc]
    exact ⟨rfl, hpt, hfirst⟩
  refine wp.ite (fun _ => ?_) fun _ => hend _ rfl
  rw [closeInode, endOp, wp_bind, wp_modify, wp_bind, wp_modify]
  exact hend _ rfl

/-- A file of `n` bytes with fields of the given offsets, sizes and values. -/
def fileOf (n : ℕ) (fields : List (ℕ × ℕ × ℕ)) : List UInt8 :=
  (List.range n).map (fields.foldl (fun f w => putLE f w.1 w.2.1 w.2.2) fun _ => 0)

/-- A segment of one byte, and a second program header that the file does not have. -/
def truncatedFile : List UInt8 := fileOf 120 [(0, 4, 0x464c457f), (32, 8, 64), (56, 2, 2),
  (64, 4, 1), (80, 8, 0x400000), (96, 8, 1), (104, 8, 1)]

/-- An address behind the live blocks. -/
def nextBlock (l : List ℕ) : ℕ := l.foldr max 0xFFFF000000400000 + 64

theorem nextBlock_gt {l : List ℕ} : 0xFFFF000000400000 < nextBlock l := by
  induction l with
  | nil => decide
  | cons b l ih =>
    unfold nextBlock at ih ⊢
    rw [List.foldr_cons]
    omega

theorem lt_nextBlock {l : List ℕ} {b : ℕ} (hb : b ∈ l) : b < nextBlock l := by
  induction l with
  | nil => exact absurd hb List.not_mem_nil
  | cons d l ih =>
    unfold nextBlock at ih ⊢
    rw [List.foldr_cons]
    rcases List.mem_cons.mp hb with rfl | hb
    · omega
    · have := ih hb
      omega

def smallCall (file : Option (List UInt8)) : Call where
  proc := 0xFFFF000000200000
  saved := 0xFFFF000000300000
  vmas := []
  file := file
  block := nextBlock
  made w hw := absurd hw List.not_mem_nil
  fresh l hl := lt_irrefl _ (lt_nextBlock hl)
  proc_ne l := by
    have := nextBlock_gt (l := l)
    unfold pgdirOf
    omega
  saved_ne := by
    refine ⟨by decide, by decide, fun l => ?_⟩
    have := nextBlock_gt (l := l)
    omega

/-- The process has an empty page directory, which is attached. -/
def smallState : State where
  vm := match initPgdir (pgdirOf 0xFFFF000000200000) smallVm with
    | .ok _ v => { v with pt := Function.update v.pt ttbr0 (v.pt (pgdirOf 0xFFFF000000200000)) }
    | .error _ v => v
  blocks := []
  ops := 0
  refs := 0
  locked := false
  frame := ⟨0x1000, 0x2000⟩
  nested := false

/-- After the first segment was loaded, the root of its directory is freed, and stays in `ttbr0`. -/
theorem execve_leaves_ttbr0 : ∃ t, execve (smallCall (some truncatedFile)) [] [] smallState = .ok (-1) t ∧
    t.vm.pt ttbr0 ≠ smallState.vm.pt ttbr0 ∧ t.vm.pt ttbr0 = t.vm.heap.freePages ∧
    ¬ Undone (smallCall (some truncatedFile)) smallState t := by
  have hload : wp (do
      let pgdir ← newPgdir (smallCall (some truncatedFile))
      beginOp
      openInode
      return (pgdir, ← loadElf (smallCall (some truncatedFile)) pgdir truncatedFile))
      (fun r t => r = (0xFFFF000000400040, none) ∧ t.vm.pt ttbr0 = 0xFFFF00007FFFE000 ∧
        t.vm.pt 0xFFFF000000400040 = 0xFFFF00007FFFE000 ∧ t.vm.heap.pageLock = false)
      (fun _ _ => False) smallState := by
    decide +kernel
  have hold : smallState.vm.pt ttbr0 = 0xFFFF00007FFFF000 := by decide +kernel
  have hrun : wp (execve (smallCall (some truncatedFile)) [] []) (fun r t => r = -1 ∧
      t.vm.pt ttbr0 = 0xFFFF00007FFFE000 ∧ t.vm.heap.freePages = 0xFFFF00007FFFE000)
      (fun _ _ => False) smallState := by
    simp only [wp_bind, wp_pure, Prod.mk.injEq] at hload
    rw [execve, wp_bind]
    refine hload.imp fun pgdir s₁ h₁ => ?_
    rw [wp_bind]
    refine h₁.imp fun _ s₂ h₂ => ?_
    show wp (openInode >>= _) _ _ _
    rw [wp_bind]
    refine h₂.imp fun _ s₃ h₃ => ?_
    rw [wp_bind]
    refine h₃.imp ?_
    rintro - v ⟨⟨rfl, rfl⟩, hv, hroot, hl⟩
    have hbad : wp (bad (smallCall (some truncatedFile)) 0xFFFF000000400040 true) (fun r u => r = -1 ∧
        u.vm.pt ttbr0 = v.vm.pt ttbr0 ∧ u.vm.heap.freePages = v.vm.pt 0xFFFF000000400040) (fun _ _ => False) v :=
      bad_total hl (by rw [hroot]; decide) (by decide) (by decide)
    rwa [hv, hroot] at hbad
  obtain ⟨-, t, ht, rfl, hpt, hfirst⟩ := hrun.total
  have hne : t.vm.pt ttbr0 ≠ smallState.vm.pt ttbr0 := by
    rw [hpt, hold]
    decide
  exact ⟨t, ht, hne, hpt.trans hfirst.symm, fun hu => hne hu.ttbr0⟩

end ShikiOS.Kernel.Exec
