import ShikiOS.Fs.Directory

/-!
# System calls on paths (`kernel/sysfile.c`, `kernel/exec.c`, `fs/file.c`)

The system calls that take a path, over the `Services` that they call. A user string is the
list of its bytes before the NUL; that user memory is readable and writable is an argument
where the code checks it. Of `execve` only the part that loads the file is here: what
follows works on memory.
-/

namespace ShikiOS.Kernel

open ShikiOS.Lib Fs

/-! ## Arguments -/

/-- `AT_FDCWD`. -/
def atFdCwd : ℤ := -100

/-- The open flags of `fcntl.h`: `O_WRONLY`, `O_RDWR` and `O_CREAT`. -/
def oWronly : ℕ := 1
def oRdwr : ℕ := 2
def oCreat : ℕ := 64

/-- `omode & flag`. -/
def hasFlag (omode flag : ℕ) : Bool := omode &&& flag ≠ 0

/-- `user_strlen(path, 256)` (syscall.c:85-94) is not 0: the NUL is among the first 256
    bytes. -/
def userStrlen (path : CString) : Bool := path.length < 256

/-- `major` and `minor` of `sys/sysmacros.h`, cut to a `short`. -/
def major (dev : ℕ) : UInt16 :=
  UInt16.ofNat ((dev / 2 ^ 32 &&& 0xfffff000) ||| (dev / 2 ^ 8 &&& 0xfff))
def minor (dev : ℕ) : UInt16 :=
  UInt16.ofNat ((dev / 2 ^ 12 &&& 0xffffff00) ||| (dev &&& 0xff))

variable {m : Type → Type} [Monad m] (k : Services m)

/-! ## `fs/file.c` -/

/-- `file_close` (file.c:62-86). The end of a pipe is closed by code that does not touch an
    inode. -/
def fileClose (f : ℕ) : m Unit := do
  let closed ← k.dropRef f
  match closed with
  | some ⟨.inode, _, _, _, ip, _⟩ => do
    let ctx ← k.beginOp
    k.put (some ctx) ip
    k.endOp ctx
  | _ => pure ()

/-! ## `kernel/sysfile.c` -/

/-- `newfstatat` (sysfile.c:281-309). `stati` only reads the inode. -/
def newfstatat (dirfd : ℤ) (path : CString) (stWriteable : Bool) (flags : ℤ) : m ℤ := do
  if !userStrlen path || !stWriteable then return -1
  else if dirfd ≠ atFdCwd then return -1
  else if flags ≠ 0 then return -1
  else do
    let ctx ← k.beginOp
    let ip ← namei k path (some ctx)
    match ip with
    | none => do
      k.endOp ctx
      return -1
    | some ip => do
      k.lock ip
      let _ ← k.entry ip
      k.unlock ip
      k.put (some ctx) ip
      k.endOp ctx
      return 0

/-- The loop of `isdirempty` (lines 316-321) from offset `off` on, in at most `n` rounds. -/
def isdiremptyFrom (dp : ℕ) : ℕ → ℕ → m Bool
  | 0, _ => return true
  | n + 1, off => do
    let e ← k.entry dp
    if off < e.numBytes.toNat then do
      let de ← k.read dp off dirEntrySize
      if de.length ≠ dirEntrySize then k.panic
      else if (DirEntry.decode de).inodeNo ≠ 0 then return false
      else isdiremptyFrom dp n (off + dirEntrySize)
    else return true

/-- `isdirempty` (sysfile.c:311-323). -/
def isdirempty (dp : ℕ) : m Bool := isdiremptyFrom k dp dirRounds (2 * dirEntrySize)

/-- The label `bad` of `unlinkat` (lines 378-382). -/
def unlinkatBad (ctx dp : ℕ) : m ℤ := do
  k.unlock dp
  k.put (some ctx) dp
  k.endOp ctx
  return -1

/-- Lines 362-376 of `unlinkat`: the entry is removed. -/
def unlinkatRemove (ctx dp ip off : ℕ) : m ℤ := do
  let cnt ← k.write (some ctx) dp (List.replicate dirEntrySize 0) off
  if cnt ≠ dirEntrySize then k.panic
  else do
    let e ← k.entry ip
    (if e.type = inodeDirectory then do
      k.modifyEntry dp fun e => { e with numLinks := e.numLinks - 1 }
      k.sync (some ctx) dp true
    else pure ())
    k.unlock dp
    k.put (some ctx) dp
    k.modifyEntry ip fun e => { e with numLinks := e.numLinks - 1 }
    k.sync (some ctx) ip true
    k.unlock ip
    k.put (some ctx) ip
    k.endOp ctx
    return 0

/-- Lines 351-360 of `unlinkat`, with the inode number and the offset that `lookup` found. -/
def unlinkatFound (ctx dp inumber off : ℕ) : m ℤ := do
  let ip ← k.get inumber
  match ip with
  | none => k.panic
  | some ip => do
    k.lock ip
    let e ← k.entry ip
    if e.numLinks < 1 then k.panic
    else do
      let empty ← (if e.type = inodeDirectory then isdirempty k ip else pure true)
      if !empty then do
        k.unlock ip
        k.put (some ctx) ip
        unlinkatBad k ctx dp
      else unlinkatRemove k ctx dp ip off

/-- `unlinkat` (sysfile.c:325-383). -/
def unlinkat (fd : ℤ) (path : CString) (flag : ℤ) : m ℤ := do
  if ¬ (fd = atFdCwd ∧ flag = 0) then k.panic
  else if !userStrlen path then return -1
  else do
    let ctx ← k.beginOp
    let dp ← nameiparent k path (some ctx)
    match dp with
    | none => do
      k.endOp ctx
      return -1
    | some (dp, name) => do
      k.lock dp
      -- cannot unlink "." or ".."
      if name = [46] ∨ name = [46, 46] then unlinkatBad k ctx dp
      else do
        let found ← inodeLookup k dp name
        match found with
        | none => unlinkatBad k ctx dp
        | some (inumber, off) => unlinkatFound k ctx dp inumber off

/-- Lines 416-429 of `create`: there is an entry of this name. -/
def createExisting (ctx : Option ℕ) (parent ip : ℕ) (type : InodeType) : m (Option ℕ) := do
  k.unlock parent
  k.put ctx parent
  k.lock ip
  let e ← k.entry ip
  if type = inodeRegular ∧ e.type = inodeRegular then return some ip
  else do
    k.unlock ip
    k.put ctx ip
    return none

/-- Lines 432-454 of `create`: a new inode. -/
def createNew (ctx : Option ℕ) (parent : ℕ) (name : CString) (type : InodeType)
    (major minor : UInt16) : m (Option ℕ) := do
  let no ← k.alloc ctx type
  let ip ← k.get no
  match ip with
  | none => do
    k.put ctx parent
    return none
  | some ip => do
    k.lock ip
    k.modifyEntry ip fun e => { e with major := major, minor := minor, numLinks := 1 }
    k.sync ctx ip true
    let e ← k.entry ip
    let ino ← k.inodeNo ip
    (if e.type = inodeDirectory then do
      k.modifyEntry parent fun e => { e with numLinks := e.numLinks + 1 }
      k.sync ctx parent true
      let _ ← inodeInsert k ctx ip [46] ino
      let pno ← k.inodeNo parent
      let _ ← inodeInsert k ctx ip [46, 46] pno
    else pure ())
    let _ ← inodeInsert k ctx parent name ino
    k.unlock parent
    k.put ctx parent
    return some ip

/-- `create` (sysfile.c:402-455). -/
def create (path : CString) (type : InodeType) (major minor : UInt16) (ctx : Option ℕ) :
    m (Option ℕ) := do
  let parent ← nameiparent k path ctx
  match parent with
  | none => return none
  | some (parent, name) => do
    k.parentFound
    let found ← inodeLookup k parent name
    let ip ← k.get (match found with | some (no, _) => no | none => 0)
    match ip with
    | some ip => createExisting k ctx parent ip type
    | none => createNew k ctx parent name type major minor

/-- Lines 487-503 of `openat`, with the inode locked. -/
def openatFile (ctx ip omode : ℕ) : m ℤ := do
  let f ← k.fileAlloc
  match f with
  | none => do
    k.unlock ip
    k.put (some ctx) ip
    k.endOp ctx
    return -1
  | some f => do
    let fd ← k.fdAlloc f
    match fd with
    | none => do
      fileClose k f
      k.unlock ip
      k.put (some ctx) ip
      k.endOp ctx
      return -1
    | some fd => do
      k.unlock ip
      k.endOp ctx
      k.modifyFile f fun f => { f with
        type := .inode
        ip := ip
        off := 0
        readable := !hasFlag omode oWronly
        writable := hasFlag omode oWronly || hasFlag omode oRdwr }
      return fd

/-- `openat` (sysfile.c:456-504). -/
def openat (dirfd : ℤ) (path : CString) (omode : ℕ) : m ℤ := do
  if !userStrlen path then return -1
  else if dirfd ≠ atFdCwd then return -1
  else do
    let ctx ← k.beginOp
    if hasFlag omode oCreat then do
      let ip ← create k path inodeRegular 0 0 (some ctx)
      match ip with
      | none => do
        k.endOp ctx
        return -1
      | some ip => openatFile k ctx ip omode
    else do
      let ip ← namei k path (some ctx)
      match ip with
      | none => do
        k.endOp ctx
        return -1
      | some ip => do
        k.lock ip
        openatFile k ctx ip omode

/-- The part that `mkdirat` (lines 518-528) and `mknodat` (lines 544-554) share. -/
def createAt (path : CString) (type : InodeType) (major minor : UInt16) : m ℤ := do
  let ctx ← k.beginOp
  let ip ← create k path type major minor (some ctx)
  match ip with
  | none => do
    k.endOp ctx
    return -1
  | some ip => do
    k.unlock ip
    k.put (some ctx) ip
    k.endOp ctx
    return 0

/-- `mkdirat` (sysfile.c:506-529). -/
def mkdirat (dirfd : ℤ) (path : CString) (mode : ℤ) : m ℤ := do
  if !userStrlen path then return -1
  else if dirfd ≠ atFdCwd then return -1
  else if mode ≠ 0 then return -1
  else createAt k path inodeDirectory 0 0

/-- `mknodat` (sysfile.c:531-555). -/
def mknodat (dirfd : ℤ) (path : CString) (dev : ℕ) : m ℤ := do
  if !userStrlen path then return -1
  else if dirfd ≠ atFdCwd then return -1
  else createAt k path inodeDevice (major dev) (minor dev)

/-- `chdir` (sysfile.c:556-589). -/
def chdir (path : CString) : m ℤ := do
  let ctx ← k.beginOp
  let ip ← namei k path (some ctx)
  match ip with
  | none => do
    k.endOp ctx
    return -1
  | some ip => do
    k.lock ip
    let e ← k.entry ip
    if e.type ≠ inodeDirectory then do
      k.unlock ip
      k.put (some ctx) ip
      k.endOp ctx
      return -1
    else do
      k.unlock ip
      k.put (some ctx) ip
      k.endOp ctx
      k.setCwd ip
      return 0

/-! ## `kernel/exec.c` -/

/-- The members of `Elf64_Ehdr` that `execve` uses, in the bytes of the header. -/
structure ElfHeader where
  magic : List UInt8
  phoff : ℕ
  phnum : ℕ

/-- `sizeof(Elf64_Ehdr)` and `sizeof(Elf64_Phdr)`. -/
def elfHeaderSize : ℕ := 64
def programHeaderSize : ℕ := 56

def ElfHeader.decode (l : List UInt8) : ElfHeader where
  magic := l.take 4
  phoff := getLE (fun i => l.getD i 0) 32 8
  phnum := getLE (fun i => l.getD i 0) 56 2

/-- `ELFMAG0` to `ELFMAG3`. -/
def elfMagic : List UInt8 := [0x7f, 69, 76, 70]

/-- The members of `Elf64_Phdr` that `execve` uses. -/
structure ProgramHeader where
  type : ℕ
  offset : ℕ
  vaddr : ℕ
  filesz : ℕ
  memsz : ℕ

def ProgramHeader.decode (l : List UInt8) : ProgramHeader where
  type := getLE (fun i => l.getD i 0) 0 4
  offset := getLE (fun i => l.getD i 0) 8 8
  vaddr := getLE (fun i => l.getD i 0) 16 8
  filesz := getLE (fun i => l.getD i 0) 32 8
  memsz := getLE (fun i => l.getD i 0) 40 8

/-- `PT_LOAD`. -/
def ptLoad : ℕ := 1

/-- A `u64`. -/
def u64 (n : ℕ) : ℕ := n % 2 ^ 64

/-- What `uvmalloc` (pt.c:221-236) returns: an `int`, which `execve` stores in a `u64`. The
    pages are taken to be there. -/
def uvmalloc (oldsz newsz : ℕ) : ℕ :=
  let sz := (if newsz < oldsz then oldsz else newsz) % 2 ^ 32
  if sz < 2 ^ 31 then sz else u64 (sz + (2 ^ 64 - 2 ^ 32))

/-- The loop of `execve` (lines 64-89) over the `n` program headers from offset `off` on;
    `first` is `f`. The result is whether all segments were loaded. -/
def loadSegments (ip : ℕ) : ℕ → ℕ → ℕ → Bool → m Bool
  | 0, _, _, _ => return true
  | n + 1, off, sz, first => do
    let bytes ← k.read ip off programHeaderSize
    if bytes.length ≠ programHeaderSize then return false
    else do
      let ph := ProgramHeader.decode bytes
      if ph.type ≠ ptLoad then loadSegments ip n (u64 (off + programHeaderSize)) sz first
      else if ph.memsz < ph.filesz then return false
      else if u64 (ph.vaddr + ph.memsz) < ph.vaddr then return false
      else do
        let sz := uvmalloc (if first then ph.vaddr else sz) (u64 (ph.vaddr + ph.memsz))
        if sz = 0 then return false
        else do
          let segment ← k.read ip ph.offset ph.filesz
          if segment.length ≠ ph.filesz then return false
          else loadSegments ip n (u64 (off + programHeaderSize)) sz false

/-- Lines 42-89 of `execve`: whether the file was loaded. -/
def loadElf (ip : ℕ) : m Bool := do
  let bytes ← k.read ip 0 elfHeaderSize
  if bytes.length ≠ elfHeaderSize then return false
  else do
    let elf := ElfHeader.decode bytes
    if elf.magic ≠ elfMagic then return false
    else loadSegments k ip elf.phnum elf.phoff 0 true

/-- `execve` (exec.c:20-158). Both exits release the inode in the same way. -/
def execve (path : CString) : m ℤ := do
  let ctx ← k.beginOp
  let ip ← namei k path (some ctx)
  match ip with
  | none => do
    k.endOp ctx
    return -1
  | some ip => do
    k.lock ip
    let loaded ← loadElf k ip
    k.unlock ip
    k.put (some ctx) ip
    k.endOp ctx
    return if loaded then 0 else -1

end ShikiOS.Kernel
