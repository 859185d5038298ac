import ShikiOS.Fs.Inode
import ShikiOS.Kernel.Sysfile

/-!
# The state of the kernel and the file table (`fs/file.c`, `kernel/proc.h`)

The state that the system calls work on while they do not interleave: the file system, the
file table, the processes and the table of mappings. `services` gives the calls of the file
system code their meaning on it. No call modelled here makes a pipe, so the branches for
pipes are left out.
-/

namespace ShikiOS.Kernel.Calls

open ShikiOS.Lib Fs Fs.Bcache Fs.Inodes

/-! ## State -/

/-- Why the kernel stops in a call, or why the call does not return. -/
inductive Halt
  /-- In the inode layer, outside `inode_read` and `inode_write`. -/
  | stop (e : Bcache.Stop)
  /-- In `inode_read`. -/
  | read (e : Bcache.Stop)
  /-- In `inode_write`. -/
  | write (e : Bcache.Stop)
  /-- A PANIC or a failed ASSERT of the calls themselves, or a null pointer. -/
  | panic
  /-- A list of mappings has a cycle. -/
  | loops
deriving DecidableEq

/-- `NFILE` and `OPENFILE` (file.h:13-14), and `NVMA` (proc.h:13). -/
def nfile : ℕ := 65536
def openfile : ℕ := 16
def nvma : ℕ := 16

/-- `Vma` (proc.h:27-37) without the lock. `permission` has no bit that anything reads. -/
structure Vma where
  start : ℕ
  stop : ℕ
  length : ℕ
  off : ℕ
  flags : ℕ
  file : ℕ
  next : Option ℕ

/-- `Proc` (proc.h), as far as files are concerned. `live` says that the process has been
    created and has not exited. -/
structure Proc where
  live : Bool
  cwd : Option ℕ
  files : ℕ → Option ℕ
  vma : Option ℕ

/-- The file system with `inodes.root`, `ftable.files`, the processes, `vma_list`, and the
    process that runs. Processes are numbered from 0 on as they are created. `halted` says
    why the kernel has stopped. -/
structure Sys where
  fs : FsState
  root : Option ℕ
  files : ℕ → File
  procs : ℕ → Proc
  nextPid : ℕ
  vmas : ℕ → Vma
  cur : ℕ
  halted : Option Halt

/-- A function of the kernel. -/
abbrev SysM := EStateM Halt Sys

/-- A call of the inode layer. -/
def fsCall {α : Type} (f : Bcache.Stop → Halt) (x : Inodes.M α) : SysM α :=
  zoom Sys.fs (fun t s => { s with fs := t }) (EStateM.adaptExcept f x)

/-! ## Processes and files -/

/-- `thisproc()`. -/
def thisproc : SysM Proc := do
  let s ← get
  return s.procs s.cur

def modifyProc (q : ℕ) (f : Proc → Proc) : SysM Unit :=
  modify fun s => { s with procs := Function.update s.procs q (f (s.procs q)) }

def modifyFile (f : ℕ) (g : File → File) : SysM Unit :=
  modify fun s => { s with files := Function.update s.files f (g (s.files f)) }

/-- `*f`. -/
def getFile (f : ℕ) : SysM File := do
  let s ← get
  return s.files f

/-- The search of `file_alloc` (file.c:32-41) through `n` entries from `i` on. -/
def findFree (files : ℕ → File) : ℕ → ℕ → Option ℕ
  | 0, _ => none
  | n + 1, i => if (files i).ref = 0 then some i else findFree files n (i + 1)

/-- `file_alloc` (file.c:28-44). -/
def fileAlloc : SysM (Option ℕ) := do
  let s ← get
  match findFree s.files nfile 0 with
  | none => return none
  | some f => do
    modifyFile f fun x => { x with ref := 1 }
    return some f

/-- `file_dup` (file.c:47-59). -/
def fileDup (f : ℕ) : SysM Unit :=
  modifyFile f fun x => if x.ref < 1 then x else { x with ref := x.ref + 1 }

/-- Lines 66-70 of `file_close`. -/
def dropRef (f : ℕ) : SysM (Option File) := do
  modifyFile f fun x => { x with ref := x.ref - 1 }
  let x ← getFile f
  if x.ref = 0 then do
    modifyFile f fun _ => File.zero
    return some x
  else return none

/-- The search of `fdalloc` (sysfile.c:54-59) through `n` descriptors from `fd` on. -/
def findFd (files : ℕ → Option ℕ) : ℕ → ℕ → Option ℕ
  | 0, _ => none
  | n + 1, fd => if files fd = none then some fd else findFd files n (fd + 1)

def setFd (q fd : ℕ) (f : Option ℕ) : SysM Unit :=
  modifyProc q fun p => { p with files := Function.update p.files fd f }

/-- `fdalloc` (sysfile.c:50-63). -/
def fdAlloc (f : ℕ) : SysM (Option ℕ) := do
  let s ← get
  match findFd (s.procs s.cur).files openfile 0 with
  | none => return none
  | some fd => do
    setFd s.cur fd (some f)
    return some fd

/-- `fd2file` (sysfile.c:37-44). -/
def fd2file (fd : ℤ) : SysM (Option ℕ) := do
  let p ← thisproc
  if fd < 0 ∨ fd ≥ openfile then return none
  else return p.files fd.toNat

/-- `thisproc()->cwd`, which the callers dereference. -/
def getCwd : SysM ℕ := do
  let p ← thisproc
  match p.cwd with
  | some ip => return ip
  | none => throw .panic

/-- `bcache.begin_op`. The context of a call is named after its process. -/
def beginOp : SysM ℕ := do
  let s ← get
  fsCall .stop (cache (cacheBeginOp s.cur))
  return s.cur

/-- What the calls of the file system code do. -/
def services (sb : SuperBlock) : Services SysM where
  alloc ctx type := fsCall .stop (inodeAlloc sb ctx type)
  lock p := fsCall .stop (inodeLock p)
  unlock p := fsCall .stop (inodeUnlock p)
  sync ctx p doWrite := fsCall .stop (inodeSync sb ctx p doWrite)
  get inodeNo := fsCall .stop (inodeGet sb inodeNo)
  share p := fsCall .stop (inodeShare p)
  put ctx p := fsCall .stop (inodePut sb ctx p)
  read p off count := fsCall .read (inodeRead sb p off count)
  write ctx p src off := fsCall .write (inodeWrite sb ctx p src off)
  inodeNo p := fsCall .stop (do let i ← deref p; return i.inodeNo)
  entry p := fsCall .stop (do let i ← deref p; return i.entry)
  modifyEntry p f := fsCall .stop (modifyEntry p f)
  beginOp := beginOp
  endOp ctx := fsCall .stop (cache (cacheEndOp sb ctx))
  panic := throw .panic
  cwd := getCwd
  setCwd p := do
    let s ← get
    modifyProc s.cur fun x => { x with cwd := some p }
  fileAlloc := fileAlloc
  fdAlloc := fdAlloc
  dropRef := dropRef
  modifyFile := modifyFile
  parentFound := pure ()

/-! ## Calls on descriptors -/

variable (sb : SuperBlock)

/-- `file_stat` (file.c:89-107). -/
def fileStat (f : ℕ) : SysM ℤ := do
  let x ← getFile f
  if x.ip = 0 then return -1
  else if x.type = .inode then do
    (services sb).lock x.ip
    let _ ← (services sb).entry x.ip
    (services sb).unlock x.ip
    return 0
  else return 0

/-- `file_read` (file.c:110-135). -/
def fileRead (f n : ℕ) : SysM ℤ := do
  let x ← getFile f
  if !x.readable then return -1
  else if x.type = .inode then do
    (services sb).lock x.ip
    let buf ← (services sb).read x.ip x.off n
    modifyFile f fun x => { x with off := usize (x.off + buf.length) }
    (services sb).unlock x.ip
    return buf.length
  else return -1

/-- `max_len` of `file_write` and `max` of `writeback`: the bytes of one operation. -/
def opMaxBytes : ℕ := (opMaxNumBlocks - 4) / 2 * blockSize

/-- The loop of `file_write` (lines 149-162), in at most `n` rounds. -/
def fileWriteLoop (f ip : ℕ) : ℕ → List UInt8 → SysM Unit
  | 0, _ => pure ()
  | n + 1, addr =>
    if addr = [] then pure ()
    else do
      let ctx ← beginOp
      (services sb).lock ip
      let x ← getFile f
      let wlen ← (services sb).write (some ctx) ip (addr.take opMaxBytes) x.off
      modifyFile f fun x => { x with off := usize (x.off + wlen) }
      (services sb).unlock ip
      (services sb).endOp ctx
      fileWriteLoop f ip n (addr.drop opMaxBytes)

/-- `file_write` (file.c:138-168). -/
def fileWrite (f : ℕ) (addr : List UInt8) : SysM ℤ := do
  let x ← getFile f
  if !x.writable then return -1
  else if x.type = .inode then do
    fileWriteLoop sb f x.ip addr.length addr
    return addr.length
  else return 0

/-- `dup` (sysfile.c:217-227). -/
def dup (fd : ℤ) : SysM ℤ := do
  let f ← fd2file fd
  match f with
  | none => return -1
  | some f => do
    let fd ← fdAlloc f
    match fd with
    | none => return -1
    | some fd => do
      fileDup f
      return fd

/-- `read` (sysfile.c:229-235). -/
def read (fd size : ℤ) (writeable : Bool) : SysM ℤ := do
  let f ← fd2file fd
  match f with
  | none => return -1
  | some f => if size ≤ 0 ∨ !writeable then return -1 else fileRead sb f size.toNat

/-- `write` (sysfile.c:237-243) of the bytes in the buffer. -/
def write (fd : ℤ) (buffer : List UInt8) (readable : Bool) : SysM ℤ := do
  let f ← fd2file fd
  match f with
  | none => return -1
  | some f => if buffer = [] ∨ !readable then return -1 else fileWrite sb f buffer

/-- The loop of `writev` (lines 252-256) over the buffers, each with whether it is
    readable. -/
def writevLoop (f : ℕ) : List (List UInt8 × Bool) → ℤ → SysM ℤ
  | [], tot => return tot
  | (buffer, readable) :: iov, tot =>
    if !readable then return -1
    else do
      let n ← fileWrite sb f buffer
      writevLoop f iov (tot + n)

/-- `writev` (sysfile.c:245-258). -/
def writev (fd : ℤ) (iov : List (List UInt8 × Bool)) (readable : Bool) : SysM ℤ := do
  let f ← fd2file fd
  match f with
  | none => return -1
  | some f => if iov = [] ∨ !readable then return -1 else writevLoop sb f iov 0

/-- `close` (sysfile.c:260-271). -/
def close (fd : ℤ) : SysM ℤ := do
  let f ← fd2file fd
  match f with
  | none => return -1
  | some f => do
    let s ← get
    setFd s.cur fd.toNat none
    fileClose (services sb) f
    return 0

/-- `fstat` (sysfile.c:273-279). -/
def fstat (fd : ℤ) (writeable : Bool) : SysM ℤ := do
  let f ← fd2file fd
  match f with
  | none => return -1
  | some f => if !writeable then return -1 else fileStat sb f

end ShikiOS.Kernel.Calls
