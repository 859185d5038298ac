import ShikiOS.Lib.LockProg
import ShikiOS.Kernel.Sysfile

/-!
# The locks of the inodes (`fs/inode.c`, `kernel/sysfile.c`)

The system calls on paths as programs that take and post the sleep locks of the inodes, one
step for each operation on a lock. Whatever a call reads (an inode, a directory, a file, the
file table, a reference count) is an answer, since other calls change it meanwhile. The
memory of an inode may be used again after it is freed.

Results:
* `path_calls_balanced`: each call posts what it takes, up to the place where `create` has
  found the parent directory.
* `inode_locks_are_mutexes`: a run without such a `create` keeps every lock a mutex.
-/

namespace ShikiOS.Kernel

open ShikiOS.Lib Fs LockProg

/-- What a call reads. -/
structure Answer where
  number : ℕ
  flag : Bool
  entry : InodeEntry
  bytes : List UInt8
  file : File

/-- A program that works on the locks of inodes, which are known by their pointers. -/
abbrev LockM := LockProg ℕ Answer

namespace InodeLocks

/-- Read something. -/
def read {α : Type} (f : Answer → α) : LockM α := .ask fun a => pure (f a)

/-- `unalertable_acquire_sleeplock(&inode->lock)`. -/
def acquireLock (p : ℕ) : LockM Unit := .take p (pure ())

/-- `post_sem(&inode->lock)`. -/
def releaseLock (p : ℕ) : LockM Unit := .post p (pure ())

/-- `inode_lock` and `inode_unlock` (inode.c:127-139); the flag tells whether `rc` is
    positive. -/
def inodeLock (p : ℕ) : LockM Unit := do
  let positive ← read Answer.flag
  if positive then acquireLock p else .stop
def inodeUnlock (p : ℕ) : LockM Unit := do
  let positive ← read Answer.flag
  if positive then releaseLock p else .stop

/-- `inode_get` (inode.c:173-204); the flag tells whether the inode is on the list. -/
def inodeGet (sb : SuperBlock) (inodeNo : ℕ) : LockM (Option ℕ) := do
  if inodeNo = 0 then return none
  else if inodeNo ≥ sb.numInodes then .stop
  else do
    let a ← read id
    if a.flag then return some a.number
    else do
      let p ← LockProg.init pure
      inodeLock p
      inodeUnlock p
      return some p

/-- `inode_put` (inode.c:244-261); the flag tells whether no one needs the inode. -/
def inodePut (p : ℕ) : LockM Unit := do
  acquireLock p
  let useless ← read Answer.flag
  if useless then do
    releaseLock p
    .drop p (pure ())
  else releaseLock p

/-- `inode_read` (inode.c:335-363) and `inode_write` (inode.c:366-407). The calls for the
    console give up the lock for a while (console.c). The flag tells whether the
    assertion holds. -/
def inodeRead (p : ℕ) : LockM (List UInt8) := do
  let e ← read Answer.entry
  if e.type = inodeDevice then do
    inodeUnlock p
    let bytes ← read Answer.bytes
    inodeLock p
    return bytes
  else do
    let a ← read id
    if a.flag then return a.bytes else .stop
def inodeWrite (p count : ℕ) : LockM ℕ := do
  let e ← read Answer.entry
  if e.type = inodeDevice then do
    inodeUnlock p
    inodeLock p
    return count
  else do
    let ok ← read Answer.flag
    if ok then return count else .stop

/-- What the calls do to the locks. -/
def services (sb : SuperBlock) : Services LockM where
  alloc _ _ := read Answer.number
  lock := inodeLock
  unlock := inodeUnlock
  sync _ _ _ := pure ()
  get := inodeGet sb
  share p := pure p
  put _ p := inodePut p
  read p _ _ := inodeRead p
  write _ p src _ := inodeWrite p src.length
  inodeNo _ := read Answer.number
  entry _ := read Answer.entry
  modifyEntry _ _ := pure ()
  beginOp := pure 0
  endOp _ := pure ()
  panic := .stop
  cwd := read Answer.number
  setCwd _ := pure ()
  fileAlloc := read fun a => if a.flag then some a.number else none
  fdAlloc _ := read fun a => if a.flag then some a.number else none
  dropRef _ := read fun a => if a.flag then some a.file else none
  modifyFile _ _ := pure ()
  parentFound := .mark (pure ())

/-- The system calls on paths with their arguments. -/
inductive Call
  | openat (dirfd : ℤ) (path : CString) (omode : ℕ)
  | mkdirat (dirfd : ℤ) (path : CString) (mode : ℤ)
  | mknodat (dirfd : ℤ) (path : CString) (dev : ℕ)
  | newfstatat (dirfd : ℤ) (path : CString) (stWriteable : Bool) (flags : ℤ)
  | unlinkat (fd : ℤ) (path : CString) (flag : ℤ)
  | chdir (path : CString)
  | execve (path : CString)

/-- The program of a call. -/
def Call.code (sb : SuperBlock) : Call → LockM Unit
  | .openat dirfd path omode => discard (Kernel.openat (services sb) dirfd path omode)
  | .mkdirat dirfd path mode => discard (Kernel.mkdirat (services sb) dirfd path mode)
  | .mknodat dirfd path dev => discard (Kernel.mknodat (services sb) dirfd path dev)
  | .newfstatat dirfd path w flags => discard (Kernel.newfstatat (services sb) dirfd path w flags)
  | .unlinkat fd path flag => discard (Kernel.unlinkat (services sb) fd path flag)
  | .chdir path => discard (Kernel.chdir (services sb) path)
  | .execve path => discard (Kernel.execve (services sb) path)

/-! ## The operations on one inode -/

variable {sb : SuperBlock} {h : ℕ → ℕ} {p ip : ℕ} {ctx : Option ℕ} {path : CString}
  {Q : Unit → (ℕ → ℕ) → Prop}

theorem balanced_read {α : Type} {f : Answer → α} {R : α → (ℕ → ℕ) → Prop}
    (hr : ∀ a, R a h) : (read f).Balanced R h :=
  balanced_ask.mpr fun a => balanced_pure.mpr (hr (f a))

theorem keeps_read {α : Type} {f : Answer → α} : (read f).Keeps h := balanced_read fun _ => rfl

/-- The rule of `inode_lock`. -/
theorem balanced_lock (hq : Q () (more h p)) : (inodeLock p).Balanced Q h := by
  refine keeps_read.bind fun a => ?_
  split
  · exact Balanced.take (balanced_pure.mpr hq)
  · exact balanced_stop

/-- The rule of `inode_unlock`. -/
theorem balanced_unlock (hq : Q () h) : (inodeUnlock p).Balanced Q (more h p) := by
  refine keeps_read.bind fun a => ?_
  split
  · exact Balanced.post (balanced_pure.mpr hq)
  · exact balanced_stop

theorem keeps_get (no : ℕ) : ((services sb).get no).Keeps h := by
  show (inodeGet sb no).Keeps h
  unfold inodeGet
  split_ifs
  · exact keeps_pure
  · exact balanced_stop
  · refine keeps_read.bind fun a => ?_
    split
    · exact keeps_pure
    · rw [balanced_bind, balanced_init]
      intro p
      rw [balanced_pure, balanced_bind]
      refine balanced_lock ?_
      rw [balanced_bind]
      exact balanced_unlock keeps_pure

theorem keeps_put (ctx : Option ℕ) (p : ℕ) : ((services sb).put ctx p).Keeps h := by
  show (inodePut p).Keeps h
  unfold inodePut Keeps
  rw [balanced_bind]
  refine Balanced.take (balanced_pure.mpr (keeps_read.bind fun a => ?_))
  split
  · rw [balanced_bind]
    exact Balanced.post (balanced_pure.mpr (balanced_drop.mpr keeps_pure))
  · exact Balanced.post keeps_pure

/-- The console gives up the lock of its inode and takes it again. -/
theorem keeps_relock {α : Type} {x : LockM α} (hp : 0 < h p) (hx : ∀ h, x.Keeps h) :
    (do inodeUnlock p; let a ← x; inodeLock p; return a).Keeps h := by
  obtain ⟨h', rfl⟩ := exists_more hp
  unfold Keeps
  rw [balanced_bind]
  refine balanced_unlock ((hx h').bind fun a => ?_)
  rw [balanced_bind]
  exact balanced_lock keeps_pure

theorem keeps_inodeRead (off count : ℕ) (hp : 0 < h p) :
    ((services sb).read p off count).Keeps h := by
  refine keeps_read.bind fun e => ?_
  split_ifs
  · exact keeps_relock hp fun _ => keeps_read
  · refine keeps_read.bind fun a => ?_
    split
    · exact keeps_pure
    · exact balanced_stop

theorem keeps_inodeWrite (src : List UInt8) (off : ℕ) (hp : 0 < h p) :
    ((services sb).write ctx p src off).Keeps h := by
  refine keeps_read.bind fun e => ?_
  split_ifs
  · exact keeps_relock hp fun _ => keeps_pure (a := src.length)
  · refine keeps_read.bind fun a => ?_
    split
    · exact keeps_pure
    · exact balanced_stop

/-! ## Paths -/

theorem keeps_dirSearch (hp : 0 < h p) (name : CString) (n i : ℕ) (cur : List UInt8) :
    (dirSearch (services sb) p name n i cur).Keeps h := by
  induction n generalizing i cur with
  | zero => exact keeps_pure
  | succ n ih =>
    refine keeps_read.bind fun e => ?_
    split_ifs
    · refine (keeps_inodeRead i dirEntrySize hp).bind fun bytes => ?_
      dsimp only
      split_ifs
      · exact keeps_pure
      · exact ih _ _
    · exact keeps_pure

theorem keeps_inodeLookup (hp : 0 < h p) (name : CString) :
    (inodeLookup (services sb) p name).Keeps h := by
  refine keeps_read.bind fun e => ?_
  split_ifs
  · exact balanced_stop
  · exact keeps_dirSearch hp name _ _ _

theorem keeps_namexLoop (b : Bool) (elems : List CString) (cur : ℕ) :
    (namexLoop (services sb) ctx b elems cur).Keeps h := by
  induction elems generalizing cur with
  | nil =>
    unfold namexLoop
    split
    · exact (keeps_put ctx cur).bind fun _ => keeps_pure
    · exact keeps_pure
  | cons name rest ih =>
    have hpos := more_pos h cur
    -- every way out of the round gives the lock back
    have hback : ∀ {α : Type} (x : LockM α), x.Keeps h →
        (do (services sb).unlock cur; (services sb).put ctx cur; x).Balanced
          (fun _ h' => h' = h) (more h cur) := by
      intro α x hx
      rw [balanced_bind]
      exact balanced_unlock ((keeps_put ctx cur).bind fun _ => hx)
    unfold namexLoop Keeps
    rw [balanced_bind]
    refine balanced_lock (keeps_read.bind fun e => ?_)
    split_ifs
    · exact hback _ keeps_pure
    · rw [balanced_bind]
      exact balanced_unlock keeps_pure
    · refine (keeps_inodeLookup hpos name).bind fun found => ?_
      refine (keeps_get _).bind fun next => ?_
      split
      · exact hback _ keeps_pure
      · exact hback _ (ih _)

theorem keeps_namex (b : Bool) : (namex (services sb) path b ctx).Keeps h := by
  unfold namex
  split_ifs
  · refine (keeps_get _).bind fun cur => ?_
    split
    · exact balanced_stop
    · exact keeps_namexLoop _ _ _
  · refine keeps_read.bind fun cwd => ?_
    exact (keeps_pure (a := cwd)).bind fun cur => keeps_namexLoop _ _ _

theorem keeps_namei : (namei (services sb) path ctx).Keeps h :=
  (keeps_namex false).bind fun _ => keeps_pure

/-! ## The calls -/

/-- `create` comes back without a mark only if there is no parent directory. -/
theorem balanced_create {type : InodeType} {major minor : UInt16} :
    (create (services sb) path type major minor ctx).Balanced (fun r h' => r = none ∧ h' = h) h := by
  refine (keeps_namex true).bind fun parent => ?_
  split
  · exact balanced_pure.mpr ⟨rfl, rfl⟩
  · exact balanced_mark

theorem keeps_fileClose (f : ℕ) : (fileClose (services sb) f).Keeps h := by
  refine keeps_read.bind fun closed => ?_
  split
  · refine (keeps_pure (a := 0)).bind fun ctx => ?_
    exact (keeps_put _ _).bind fun _ => keeps_pure
  · exact keeps_pure

theorem balanced_openatFile (ctx omode : ℕ) :
    (openatFile (services sb) ctx ip omode).Balanced (fun _ h' => h' = h) (more h ip) := by
  have hbad : (do (services sb).unlock ip; (services sb).put (some ctx) ip
                  (services sb).endOp ctx; return (-1 : ℤ)).Balanced
      (fun _ h' => h' = h) (more h ip) := by
    rw [balanced_bind]
    refine balanced_unlock ((keeps_put _ _).bind fun _ => ?_)
    exact (keeps_pure (a := ())).bind fun _ => keeps_pure
  refine keeps_read.bind fun f => ?_
  split
  · exact hbad
  · refine keeps_read.bind fun fd => ?_
    split
    · exact (keeps_fileClose _).bind fun _ => hbad
    · rw [balanced_bind]
      refine balanced_unlock ((keeps_pure (a := ())).bind fun _ => ?_)
      exact (keeps_pure (a := ())).bind fun _ => keeps_pure

theorem keeps_openat (dirfd : ℤ) (omode : ℕ) :
    (Kernel.openat (services sb) dirfd path omode).Keeps h := by
  unfold Kernel.openat
  split_ifs
  · exact keeps_pure
  · exact keeps_pure
  · refine (keeps_pure (a := 0)).bind fun ctx => ?_
    rw [balanced_bind]
    refine balanced_create.imp ?_
    rintro - h' ⟨rfl, rfl⟩
    exact (keeps_pure (a := ())).bind fun _ => keeps_pure
  · refine (keeps_pure (a := 0)).bind fun ctx => ?_
    refine keeps_namei.bind fun ip => ?_
    split
    · exact (keeps_pure (a := ())).bind fun _ => keeps_pure
    · rw [balanced_bind]
      exact balanced_lock (balanced_openatFile _ _)

theorem keeps_createAt (type : InodeType) (major minor : UInt16) :
    (createAt (services sb) path type major minor).Keeps h := by
  refine (keeps_pure (a := 0)).bind fun ctx => ?_
  rw [balanced_bind]
  refine balanced_create.imp ?_
  rintro - h' ⟨rfl, rfl⟩
  exact (keeps_pure (a := ())).bind fun _ => keeps_pure

theorem keeps_mkdirat (dirfd mode : ℤ) : (Kernel.mkdirat (services sb) dirfd path mode).Keeps h := by
  unfold Kernel.mkdirat
  split_ifs
  · exact keeps_pure
  · exact keeps_pure
  · exact keeps_pure
  · exact keeps_createAt _ _ _

theorem keeps_mknodat (dirfd : ℤ) (dev : ℕ) :
    (Kernel.mknodat (services sb) dirfd path dev).Keeps h := by
  unfold Kernel.mknodat
  split_ifs
  · exact keeps_pure
  · exact keeps_pure
  · exact keeps_createAt _ _ _

/-- The way in which most calls end: unlock, put and end the operation. -/
theorem balanced_leave {α : Type} (ctx ip : ℕ) {x : LockM α} (hx : x.Keeps h) :
    (do (services sb).unlock ip; (services sb).put (some ctx) ip; (services sb).endOp ctx; x).Balanced
      (fun _ h' => h' = h) (more h ip) := by
  rw [balanced_bind]
  refine balanced_unlock ((keeps_put _ _).bind fun _ => ?_)
  exact (keeps_pure (a := ())).bind fun _ => hx

theorem keeps_newfstatat (dirfd : ℤ) (w : Bool) (flags : ℤ) :
    (Kernel.newfstatat (services sb) dirfd path w flags).Keeps h := by
  unfold Kernel.newfstatat
  split_ifs
  · exact keeps_pure
  · exact keeps_pure
  · exact keeps_pure
  · refine (keeps_pure (a := 0)).bind fun ctx => ?_
    refine keeps_namei.bind fun ip => ?_
    split
    · exact (keeps_pure (a := ())).bind fun _ => keeps_pure
    · rw [balanced_bind]
      refine balanced_lock ?_
      exact keeps_read.bind fun e => balanced_leave _ _ keeps_pure

theorem keeps_chdir : (Kernel.chdir (services sb) path).Keeps h := by
  refine (keeps_pure (a := 0)).bind fun ctx => ?_
  refine keeps_namei.bind fun ip => ?_
  split
  · exact (keeps_pure (a := ())).bind fun _ => keeps_pure
  · rw [balanced_bind]
    refine balanced_lock (keeps_read.bind fun e => ?_)
    split_ifs
    · exact balanced_leave _ _ keeps_pure
    · exact balanced_leave _ _ ((keeps_pure (a := ())).bind fun _ => keeps_pure)

theorem keeps_loadSegments (hp : 0 < h p) (n off sz : ℕ) (first : Bool) :
    (loadSegments (services sb) p n off sz first).Keeps h := by
  induction n generalizing off sz first with
  | zero => exact keeps_pure
  | succ n ih =>
    have hnext := fun sz first => ih (u64 (off + programHeaderSize)) sz first
    refine (keeps_inodeRead off programHeaderSize hp).bind fun bytes => ?_
    dsimp only
    refine Balanced.ite (fun _ => keeps_pure) fun _ => ?_
    refine Balanced.ite (fun _ => hnext _ _) fun _ => ?_
    refine Balanced.ite (fun _ => keeps_pure) fun _ => ?_
    refine Balanced.ite (fun _ => keeps_pure) fun _ => ?_
    refine Balanced.ite (fun _ => keeps_pure) fun _ => ?_
    refine (keeps_inodeRead _ _ hp).bind fun segment => ?_
    exact Balanced.ite (fun _ => keeps_pure) fun _ => hnext _ _

theorem keeps_execve : (Kernel.execve (services sb) path).Keeps h := by
  refine (keeps_pure (a := 0)).bind fun ctx => ?_
  refine keeps_namei.bind fun ip => ?_
  split
  next => exact (keeps_pure (a := ())).bind fun _ => keeps_pure
  next ip =>
    have hpos := more_pos h ip
    rw [balanced_bind]
    refine balanced_lock (Keeps.bind (x := loadElf (services sb) ip) ?_ fun loaded => ?_)
    · refine (keeps_inodeRead 0 elfHeaderSize hpos).bind fun bytes => ?_
      dsimp only
      split_ifs
      · exact keeps_pure
      · exact keeps_pure
      · exact keeps_loadSegments hpos _ _ _ _
    · exact balanced_leave _ _ keeps_pure

/-! ### `unlinkat` -/

theorem keeps_isdirempty (hp : 0 < h p) : (isdirempty (services sb) p).Keeps h := by
  unfold isdirempty
  generalize dirRounds = n, 2 * dirEntrySize = off
  induction n generalizing off with
  | zero => exact keeps_pure
  | succ n ih =>
    refine keeps_read.bind fun e => ?_
    split_ifs
    · refine (keeps_inodeRead off dirEntrySize hp).bind fun de => ?_
      split_ifs
      · exact balanced_stop
      · exact keeps_pure
      · exact ih _
    · exact keeps_pure

/-- With the directory and the inode locked. -/
theorem balanced_unlinkatRemove (ctx dp off : ℕ) :
    (unlinkatRemove (services sb) ctx dp ip off).Balanced (fun _ h' => h' = h)
      (more (more h dp) ip) := by
  have hpos : 0 < more (more h dp) ip dp := more_pos_of_pos (more_pos h dp)
  refine (keeps_inodeWrite _ off hpos).bind fun cnt => ?_
  refine Balanced.ite (fun _ => balanced_stop) fun _ => ?_
  refine keeps_read.bind fun e => ?_
  refine Keeps.bind ?_ fun _ => ?_
  · split_ifs <;> exact keeps_pure (a := ())
  -- the directory is unlocked first
  rw [more_comm, balanced_bind]
  refine balanced_unlock ((keeps_put _ _).bind fun _ => ?_)
  refine (keeps_pure (a := ())).bind fun _ => (keeps_pure (a := ())).bind fun _ => ?_
  exact balanced_leave _ _ keeps_pure

theorem balanced_unlinkatFound (ctx dp inumber off : ℕ) :
    (unlinkatFound (services sb) ctx dp inumber off).Balanced (fun _ h' => h' = h) (more h dp) := by
  refine (keeps_get inumber).bind fun ip => ?_
  split
  next => exact balanced_stop
  next ip =>
    rw [balanced_bind]
    refine balanced_lock (keeps_read.bind fun e => ?_)
    refine Balanced.ite (fun _ => balanced_stop) fun _ => ?_
    refine Keeps.bind ?_ fun empty => ?_
    · exact Balanced.ite (fun _ => keeps_isdirempty (more_pos _ _)) fun _ => keeps_pure
    · refine Balanced.ite (fun _ => ?_) fun _ => balanced_unlinkatRemove _ _ _
      rw [balanced_bind]
      exact balanced_unlock ((keeps_put _ _).bind fun _ => balanced_leave _ _ keeps_pure)

theorem keeps_unlinkat (fd flag : ℤ) : (Kernel.unlinkat (services sb) fd path flag).Keeps h := by
  refine Balanced.ite (fun _ => balanced_stop) fun _ => ?_
  refine Balanced.ite (fun _ => keeps_pure) fun _ => ?_
  refine (keeps_pure (a := 0)).bind fun ctx => ?_
  refine (keeps_namex true).bind fun dp => ?_
  split
  next => exact (keeps_pure (a := ())).bind fun _ => keeps_pure
  next dp name =>
    rw [balanced_bind]
    refine balanced_lock (Balanced.ite (fun _ => balanced_leave _ _ keeps_pure) fun _ => ?_)
    refine (keeps_inodeLookup (more_pos _ _) name).bind fun found => ?_
    split
    · exact balanced_leave _ _ keeps_pure
    · exact balanced_unlinkatFound _ _ _ _

/-- Each call posts every lock as often as it takes it. -/
theorem path_calls_balanced (sb : SuperBlock) (c : Call) : (c.code sb).Keeps h := by
  have hdiscard : ∀ x : LockM ℤ, x.Keeps h → (discard x).Keeps h := fun x hx =>
    hx.bind fun _ => keeps_pure
  cases c with
  | openat dirfd path omode => exact hdiscard _ (keeps_openat _ _)
  | mkdirat dirfd path mode => exact hdiscard _ (keeps_mkdirat _ _)
  | mknodat dirfd path dev => exact hdiscard _ (keeps_mknodat _ _)
  | newfstatat dirfd path w flags => exact hdiscard _ (keeps_newfstatat _ _ _)
  | unlinkat fd path flag => exact hdiscard _ (keeps_unlinkat _ _)
  | chdir path => exact hdiscard _ keeps_chdir
  | execve path => exact hdiscard _ keeps_execve

/-! ## Runs -/

/-- The sleep locks of the inodes are mutexes. -/
structure LocksAreMutexes {π : Type} (s : LockState π ℕ Answer) : Prop where
  /-- No semaphore is above 1. -/
  value_le : ∀ p v, s.value p = some v → v ≤ 1
  /-- At most one process is between `inode_lock` and `inode_unlock`. -/
  one_holder : ∀ p q q', s.Holds q p → s.Holds q' p → q = q'
  /-- A call that returns has posted each lock as often as it has acquired it. -/
  posts_all : ∀ q, s.prog q = some (.ret ()) → s.posted q = s.acquired q

/-- Every run in which no `create` goes on with a parent directory, and no inode is freed
    while its lock is in use, keeps the locks mutexes. -/
theorem inode_locks_are_mutexes {π : Type} [DecidableEq π] {s t : LockState π ℕ Answer}
    (h0 : s.Idle) (h : Run (LockState.next (Call.code sb)) LockState.Enabled s t) :
    LocksAreMutexes t := by
  have hm := LockState.Mutex.run (path_calls_balanced sb) h h0
  exact ⟨fun p v hv => hm.value_le hv, fun p q q' hq hq' => hm.holder hq hq',
    fun q hx => hm.returns hx⟩

/-! ### Runs of one call -/

/-- A super block with 16 inodes; nothing else of it matters here. -/
def demoSuper : SuperBlock := ⟨1000, 900, 16, 63, 2, 65, 67⟩

/-- Two inodes in memory, the root directory at 7 and a file at 9. -/
def demoStart : LockState ℕ ℕ Answer where
  value p := if p = 7 ∨ p = 9 then some 1 else none
  prog _ := none
  acquired _ _ := 0
  posted _ _ := 0

theorem demoStart_idle : demoStart.Idle := by
  refine ⟨fun _ => rfl, fun p => ?_, fun _ _ => rfl, fun _ _ => rfl⟩
  unfold demoStart
  dsimp only
  split_ifs
  · exact .inr rfl
  · exact .inl rfl

/-- What process 0 reads: a directory with an entry `a` for inode 2, which is at `p`. -/
def demoAnswer (p : ℕ) (flag : Bool) : Answer where
  number := p
  flag := flag
  entry := { InodeEntry.zero with type := inodeDirectory, numBytes := 16 }
  bytes := (DirEntry.new 2 [97]).encode
  file := File.zero

/-- `newfstatat` of the root directory. -/
def statRoot : List (LockAction ℕ ℕ Answer Call) :=
  [.call 0 (.newfstatat atFdCwd [slash] true 0), .answer 0 (demoAnswer 7 true),
    .answer 0 (demoAnswer 7 true), .step 0, .answer 0 (demoAnswer 7 true),
    .answer 0 (demoAnswer 7 true), .step 0, .step 0, .answer 0 (demoAnswer 7 false), .step 0]

theorem inode_locks_after_stat :
    ∃ t, Run (LockState.next (Call.code demoSuper)) LockState.Enabled demoStart t ∧
      (t.value 7, t.acquired 0 7, t.posted 0 7) = (some 1, 2, 2) ∧ LocksAreMutexes t := by
  have hexec : (execIf (LockState.next (Call.code demoSuper)) LockState.Enabled demoStart
      statRoot).map (fun t => (t.value 7, t.acquired 0 7, t.posted 0 7)) = some (some 1, 2, 2) := by
    decide +kernel
  obtain ⟨t, hrun, ht⟩ := Run.of_execIf_map hexec
  exact ⟨t, hrun, ht, inode_locks_are_mutexes demoStart_idle hrun⟩

/-- `openat` with `O_CREAT` of a file that is there, up to line 417 of `create`. -/
def openExisting : List (LockAction ℕ ℕ Answer Call) :=
  [.call 0 (.openat atFdCwd [slash, 97] oCreat), .answer 0 (demoAnswer 7 true),
    .answer 0 (demoAnswer 7 true), .step 0, .answer 0 (demoAnswer 7 true),
    .answer 0 (demoAnswer 7 true), .step 0, .step 0, .answer 0 (demoAnswer 7 true),
    .answer 0 (demoAnswer 7 true), .answer 0 (demoAnswer 7 true), .answer 0 (demoAnswer 7 true),
    .answer 0 (demoAnswer 9 true), .answer 0 (demoAnswer 7 true), .step 0]

/-- It posts the lock of the root directory once more than it has acquired it. -/
theorem create_posts_unlocked_parent :
    ¬ ∀ (sb : SuperBlock) (s t : LockState ℕ ℕ Answer), s.Idle →
      Run (LockState.next (Call.code sb)) anyStep s t → LocksAreMutexes t := by
  intro h
  have hexec : (exec (LockState.next (Call.code demoSuper)) demoStart openExisting).map
      (fun t => t.value 7) = some (some 2) := by
    decide +kernel
  obtain ⟨t, hrun, ht⟩ := Option.map_eq_some_iff.mp hexec
  have := (h demoSuper demoStart t demoStart_idle (Run.of_exec hrun)).value_le 7 2 ht
  omega

end InodeLocks

end ShikiOS.Kernel
