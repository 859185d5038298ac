import ShikiOS.Kernel.Mmap

/-!
# Runs of system calls (`kernel/proc.c`, `kernel/syscall.c`)

`fork` and `exit`, and the kernel as a state machine whose steps are whole system calls of
any of its processes. A call that stops the kernel leaves it halted, in the state in which
the call stopped.
-/

namespace ShikiOS.Kernel.Calls

open ShikiOS.Lib Fs Fs.Bcache Fs.Inodes

variable (sb : SuperBlock)

/-! ## `fork` and `exit` -/

/-- Lines 361-365 of `fork` for one descriptor. -/
def forkFd (child fd : ℕ) : SysM Unit := do
  let p ← thisproc
  match p.files fd with
  | none => pure ()
  | some f => do
    fileDup f
    setFd child fd (some f)

/-- The loop of `fork` over the mappings (lines 372-392), in at most `n` rounds. -/
def forkVmas (child : ℕ) : ℕ → Option ℕ → Option ℕ → SysM Unit
  | _, none, _ => pure ()
  | 0, some _, _ => throw .loops
  | n + 1, some pv, pre => do
    let v ← vmaAlloc
    let x ← getVma pv
    modifyVma v fun _ => { x with next := none }
    fileDup x.file
    (match pre with
      | none => modifyProc child fun p => { p with vma := some v }
      | some pre => modifyVma pre fun y => { y with next := some v })
    let x ← getVma pv
    forkVmas child n x.next (some v)

/-- `fork` (proc.c:316-395). The new process gets a number of its own. -/
def fork : SysM ℤ := do
  let cwd ← getCwd
  let cwd ← (services sb).share cwd
  let s ← get
  let child := s.nextPid
  set { s with nextPid := child + 1 }
  modifyProc child fun _ => ⟨true, some cwd, fun _ => none, none⟩
  forN (forkFd child) 0 openfile
  let p ← thisproc
  forkVmas child (nvma + 1) p.vma none
  return child

/-- Lines 231-238 of `exit` for one descriptor. -/
def exitFd (fd : ℕ) : SysM Unit := do
  let s ← get
  match (s.procs s.cur).files fd with
  | none => pure ()
  | some f => do
    fileClose (services sb) f
    setFd s.cur fd none

/-- The loop of `exit` over the mappings (lines 243-253), in at most `n` rounds. -/
def exitVmas (mem : ℕ → UInt8) : ℕ → Option ℕ → SysM Unit
  | _, none => pure ()
  | 0, some _ => throw .loops
  | n + 1, some v => do
    let x ← getVma v
    writeback sb v x.start (intOfU64 x.length) mem
    fileClose (services sb) x.file
    let x ← getVma v
    modifyVma v fun y => { y with next := none, length := 0 }
    exitVmas mem n x.next

/-- Lines 256-258 of `exit`: the working directory is put without a context. -/
def exitCwd : SysM Unit := do
  let s ← get
  match (s.procs s.cur).cwd with
  | none => pure ()
  | some ip => do
    (services sb).put none ip
    modifyProc s.cur fun p => { p with cwd := none }

/-- `exit` (proc.c:220-271). -/
def exit (mem : ℕ → UInt8) : SysM ℤ := do
  forN (exitFd sb) 0 openfile
  let p ← thisproc
  exitVmas sb mem (2 * nvma + 1) p.vma
  exitCwd sb
  let s ← get
  modifyProc s.cur fun p => { p with live := false }
  return 0

/-! ## Runs -/

/-- The system calls with their arguments. -/
inductive Syscall
  | openat (dirfd : ℤ) (path : CString) (omode : ℕ)
  | mkdirat (dirfd : ℤ) (path : CString) (mode : ℤ)
  | mknodat (dirfd : ℤ) (path : CString) (dev : ℕ)
  | newfstatat (dirfd : ℤ) (path : CString) (writeable : Bool) (flags : ℤ)
  | unlinkat (fd : ℤ) (path : CString) (flag : ℤ)
  | chdir (path : CString)
  | execve (path : CString)
  | dup (fd : ℤ)
  | close (fd : ℤ)
  | fstat (fd : ℤ) (writeable : Bool)
  | read (fd size : ℤ) (writeable : Bool)
  | write (fd : ℤ) (buffer : List UInt8) (readable : Bool)
  | writev (fd : ℤ) (iov : List (List UInt8 × Bool)) (readable : Bool)
  | mmap (addr : ℕ) (length : ℤ) (prot flags : ℕ) (fd offset : ℤ)
  | munmap (addr length : ℕ) (mem : ℕ → UInt8)
  | pageFault (addr : ℕ)
  | fork
  | exit (mem : ℕ → UInt8)

/-- What a call does. -/
def Syscall.run : Syscall → SysM ℤ
  | .openat dirfd path omode => Kernel.openat (services sb) dirfd path omode
  | .mkdirat dirfd path mode => Kernel.mkdirat (services sb) dirfd path mode
  | .mknodat dirfd path dev => Kernel.mknodat (services sb) dirfd path dev
  | .newfstatat dirfd path w flags => Kernel.newfstatat (services sb) dirfd path w flags
  | .unlinkat fd path flag => Kernel.unlinkat (services sb) fd path flag
  | .chdir path => Kernel.chdir (services sb) path
  | .execve path => Kernel.execve (services sb) path
  | .dup fd => Calls.dup fd
  | .close fd => Calls.close sb fd
  | .fstat fd w => Calls.fstat sb fd w
  | .read fd size w => Calls.read sb fd size w
  | .write fd buffer r => Calls.write sb fd buffer r
  | .writev fd iov r => Calls.writev sb fd iov r
  | .mmap addr length prot flags fd offset => Calls.mmap addr length prot flags fd offset
  | .munmap addr length mem => Calls.munmap sb addr length mem
  | .pageFault addr => Calls.pageFault sb addr
  | .fork => Calls.fork sb
  | .exit mem => Calls.exit sb mem

/-- A process that has been created and has not exited. -/
def Sys.Live (s : Sys) (q : ℕ) : Prop := q < s.nextPid ∧ (s.procs q).live = true

instance (s : Sys) (q : ℕ) : Decidable (s.Live q) := inferInstanceAs (Decidable (_ ∧ _))

/-- Process `q` makes the call `c`. -/
def next (s : Sys) (a : ℕ × Syscall) : Option Sys :=
  if s.halted = none ∧ s.Live a.1 then
    match a.2.run sb { s with cur := a.1 } with
    | .ok _ t => some t
    | .error e t => some { t with halted := some e }
  else none

/-! ## Boot -/

/-- The kernel before `init_filesystem`, on a given device and with what will be typed. -/
def bootSys (disk : ℕ → BlockData) (input : List (List UInt8)) : Sys where
  fs := ⟨Bcache.boot disk, [], fun _ => none, 1, [], input⟩
  root := none
  files := fun _ => File.zero
  procs := fun _ => ⟨false, none, fun _ => none, none⟩
  nextPid := 0
  vmas := fun _ => ⟨0, 0, 0, 0, 0, 0, none⟩
  cur := 0
  halted := none

/-- `init_inodes` (inode.c:63-73). -/
def initInodes : SysM Unit := do
  if rootInodeNo < sb.numInodes then do
    let root ← (services sb).get rootInodeNo
    modify fun s => { s with root := root }
  else pure ()

/-- `init_filesystem` and the part of `kernel_entry` that makes the first process
    (core.c:75-84). -/
def kernelInit : SysM Unit := do
  fsCall .stop (cache (initBcache sb))
  initInodes sb
  let s ← get
  match s.root with
  | none => throw .panic
  | some root => do
    let cwd ← (services sb).share root
    modifyProc 0 fun _ => ⟨true, some cwd, fun _ => none, none⟩
    modify fun s => { s with nextPid := 1 }

/-- A state in which the first process starts. -/
def Booted (s : Sys) : Prop := ∃ disk input, kernelInit sb (bootSys disk input) = .ok () s

end ShikiOS.Kernel.Calls
