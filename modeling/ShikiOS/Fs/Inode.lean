import ShikiOS.Fs.BcacheAlloc

/-!
# The inode layer (`fs/inode.c`)

The functions of `fs/inode.c` as they run when no call interleaves with another one, on
top of the block cache. An `Inode` is known by its pointer. A sleep lock is the value of
its semaphore, and a call that would sleep stops as `blocked`.

`fresh` lists the blocks that `cache_alloc` has returned to the inode layer and
`cache_free` has not freed since. The code does not have this list.

The out parameter `modified` of `inode_map` is left out: no caller looks at it.
-/

namespace ShikiOS.Fs.Inodes

open ShikiOS.Lib Bcache

/-- `Inode` (inode.h:17-53), without the list node; `lock` is the value of the sleep
    lock. -/
structure Inode where
  lock : ℤ
  rc : ℤ
  inodeNo : ℕ
  valid : Bool
  entry : InodeEntry

/-- The block cache and the static variables of `inode.c`: the pointers on the list from
    `head.next` on, and what they point to. `input` is what each read of the console will
    find. -/
structure FsState where
  cache : CacheState
  list : List ℕ
  inode : ℕ → Option Inode
  nextPtr : ℕ
  fresh : List ℕ
  input : List (List UInt8)

/-- A function of the inode layer. -/
abbrev M := EStateM Stop FsState

/-- A call of the block cache. -/
def cache {α : Type} (x : Bcache.M α) : M α := zoom FsState.cache (fun c s => { s with cache := c }) x

/-- `cache->alloc`. -/
def allocBlock (sb : SuperBlock) (ctx : Option ℕ) : M ℕ := do
  let b ← cache (cacheAlloc sb ctx)
  modify fun s => { s with fresh := b :: s.fresh }
  return b

/-- `cache->free`. -/
def freeBlock (sb : SuperBlock) (ctx : Option ℕ) (b : ℕ) : M Unit := do
  cache (cacheFree sb ctx b)
  modify fun s => { s with fresh := s.fresh.filter (· ≠ b) }

/-- `*inode`. -/
def deref (p : ℕ) : M Inode := do
  let s ← get
  match s.inode p with
  | some i => return i
  | none => throw .freed

/-- Change `*inode`. -/
def modifyInode (p : ℕ) (f : Inode → Inode) : M Unit := do
  let i ← deref p
  modify fun s => { s with inode := Function.update s.inode p (some (f i)) }

/-- Change `inode->entry`. -/
def modifyEntry (p : ℕ) (f : InodeEntry → InodeEntry) : M Unit :=
  modifyInode p fun i => { i with entry := f i.entry }

/-! ## Allocation, locks and references -/

/-- The loop of `inode_alloc`; `n` inodes are left, the first of which is `inodeNo`. -/
def inodeAllocFrom (sb : SuperBlock) (ctx : Option ℕ) (type : InodeType) : ℕ → ℕ → M ℕ
  | 0, _ => throw .noFreeInode
  | n + 1, inodeNo => do
    let blockNo := sb.toBlockNo inodeNo
    cache (cacheAcquire blockNo)
    let d ← cache (readBlock blockNo)
    if (InodeEntry.get d (inodeNo % inodePerBlock)).type = inodeInvalid then do
      cache (writeBlock blockNo (InodeEntry.put d (inodeNo % inodePerBlock)
        { InodeEntry.zero with type := type }))
      cache (cacheSync ctx blockNo .direct)
      cache (cacheRelease blockNo)
      return inodeNo
    else do
      cache (cacheRelease blockNo)
      inodeAllocFrom sb ctx type n (inodeNo + 1)

/-- `inode_alloc` (inode.c:85-123). -/
def inodeAlloc (sb : SuperBlock) (ctx : Option ℕ) (type : InodeType) : M ℕ :=
  if type = inodeInvalid then throw .assertion
  else inodeAllocFrom sb ctx type (sb.numInodes - 1) 1

/-- `unalertable_acquire_sleeplock(&inode->lock)`. -/
def acquireLock (p : ℕ) : M Unit := do
  let i ← deref p
  if i.lock ≤ 0 then throw .blocked
  else modifyInode p fun i => { i with lock := i.lock - 1 }

/-- `post_sem(&inode->lock)`. -/
def releaseLock (p : ℕ) : M Unit := modifyInode p fun i => { i with lock := i.lock + 1 }

/-- `inode_lock` (inode.c:127-132). -/
def inodeLock (p : ℕ) : M Unit := do
  let i ← deref p
  if i.rc ≤ 0 then throw .assertion
  else acquireLock p

/-- `inode_unlock` (inode.c:135-139). -/
def inodeUnlock (p : ℕ) : M Unit := do
  let i ← deref p
  if i.rc ≤ 0 then throw .assertion
  else releaseLock p

/-- `inode_sync` (inode.c:142-170). -/
def inodeSync (sb : SuperBlock) (ctx : Option ℕ) (p : ℕ) (doWrite : Bool) : M Unit := do
  let i ← deref p
  let blockNo := sb.toBlockNo i.inodeNo
  cache (cacheAcquire blockNo)
  let d ← cache (readBlock blockNo)
  if i.valid then
    if doWrite then do
      cache (writeBlock blockNo (InodeEntry.put d (i.inodeNo % inodePerBlock) i.entry))
      cache (cacheSync ctx blockNo .direct)
      cache (cacheRelease blockNo)
    else cache (cacheRelease blockNo)
  else do
    modifyInode p fun i =>
      { i with entry := InodeEntry.get d (i.inodeNo % inodePerBlock), valid := true }
    cache (cacheRelease blockNo)

/-- The search of `inode_get` (inode.c:185-193). -/
def findInode (s : FsState) (inodeNo : ℕ) : Option ℕ :=
  s.list.find? fun p => match s.inode p with
    | some i => i.inodeNo == inodeNo
    | none => false

/-- `inode_get` (inode.c:173-204). The entry of a new `Inode` is read before it is used. -/
def inodeGet (sb : SuperBlock) (inodeNo : ℕ) : M (Option ℕ) := do
  if inodeNo = 0 then return none
  else if inodeNo ≥ sb.numInodes then throw .assertion
  else do
    let s ← get
    match findInode s inodeNo with
    | some p => do
      modifyInode p fun i => { i with rc := i.rc + 1 }
      return some p
    | none => do
      let p := s.nextPtr
      set { s with
        inode := Function.update s.inode p (some ⟨1, 0, inodeNo, false, InodeEntry.zero⟩)
        nextPtr := p + 1 }
      modifyInode p fun i => { i with rc := i.rc + 1 }
      inodeLock p
      inodeSync sb none p false
      inodeUnlock p
      modify fun s => { s with list := p :: s.list }
      return some p

/-- `inode_share` (inode.c:237-241). -/
def inodeShare (p : ℕ) : M ℕ := do
  modifyInode p fun i => { i with rc := i.rc + 1 }
  return p

/-! ## Freeing -/

/-- The body of the loop over the indirect block in `inode_clear` (lines 214-219). -/
def freeIndirect (sb : SuperBlock) (ctx : Option ℕ) (indirectBlock k : ℕ) : M Unit := do
  let d ← cache (readBlock indirectBlock)
  if IndirectBlock.get d k ≠ 0 then freeBlock sb ctx (IndirectBlock.get d k).toNat
  else pure ()

/-- The body of the loop over the direct addresses in `inode_clear` (lines 225-230). -/
def freeDirect (sb : SuperBlock) (ctx : Option ℕ) (p k : ℕ) : M Unit := do
  let i ← deref p
  if i.entry.addr k ≠ 0 then do
    freeBlock sb ctx (i.entry.addr k).toNat
    modifyEntry p fun e => e.setAddr k 0
  else pure ()

/-- Lines 209-223 of `inode_clear`. -/
def clearIndirect (sb : SuperBlock) (ctx : Option ℕ) (p : ℕ) : M Unit := do
  let i ← deref p
  if i.entry.indirect ≠ 0 then do
    let indirectBlock := i.entry.indirect.toNat
    cache (cacheAcquire indirectBlock)
    forN (freeIndirect sb ctx indirectBlock) 0 inodeNumIndirect
    cache (cacheRelease indirectBlock)
    freeBlock sb ctx indirectBlock
    modifyEntry p fun e => { e with indirect := 0 }
  else pure ()

/-- `inode_clear` (inode.c:206-234). -/
def inodeClear (sb : SuperBlock) (ctx : Option ℕ) (p : ℕ) : M Unit := do
  clearIndirect sb ctx p
  forN (freeDirect sb ctx p) 0 inodeNumDirect
  modifyEntry p fun e => { e with numBytes := 0 }
  inodeSync sb ctx p true

/-- `inode_put` (inode.c:244-261). -/
def inodePut (sb : SuperBlock) (ctx : Option ℕ) (p : ℕ) : M Unit := do
  acquireLock p
  modifyInode p fun i => { i with rc := i.rc - 1 }
  let i ← deref p
  if i.rc = 0 ∧ i.entry.numLinks = 0 then do
    modifyEntry p fun e => { e with type := inodeInvalid }
    inodeClear sb ctx p
    inodeSync sb ctx p true
    modify fun s => { s with list := s.list.erase p }
    releaseLock p
    modify fun s => { s with inode := Function.update s.inode p none }
  else releaseLock p

/-! ## Contents -/

/-- Lines 319-331 of `inode_map`, with the offset in the indirect block. The return on
    line 321 does not release the block. -/
def inodeMapIndirect (sb : SuperBlock) (ctx : Option ℕ) (p offset : ℕ) : M ℕ := do
  let i ← deref p
  let indirectBlock := i.entry.indirect.toNat
  cache (cacheAcquire indirectBlock)
  let d ← cache (readBlock indirectBlock)
  if IndirectBlock.get d offset = 0 then
    match ctx with
    | none => return 0
    | some _ => do
      let b ← allocBlock sb ctx
      let d ← cache (readBlock indirectBlock)
      cache (writeBlock indirectBlock (IndirectBlock.set d offset (UInt32.ofNat b)))
      cache (cacheSync ctx indirectBlock .direct)
      cache (cacheRelease indirectBlock)
      return (UInt32.ofNat b).toNat
  else do
    cache (cacheRelease indirectBlock)
    return (IndirectBlock.get d offset).toNat

/-- `inode_map` (inode.c:285-332); `offset` is the number of a block of the file. -/
def inodeMap (sb : SuperBlock) (ctx : Option ℕ) (p offset : ℕ) : M ℕ := do
  let i ← deref p
  if offset < inodeNumDirect then
    if i.entry.addr offset ≠ 0 then return (i.entry.addr offset).toNat
    else match ctx with
      | none => return 0
      | some _ => do
        let b ← allocBlock sb ctx
        modifyEntry p fun e => e.setAddr offset (UInt32.ofNat b)
        inodeSync sb ctx p true
        return (UInt32.ofNat b).toNat
  else
    let offset := offset - inodeNumDirect
    if i.entry.indirect = 0 then
      match ctx with
      | none => return 0
      | some _ => do
        let b ← allocBlock sb ctx
        modifyEntry p fun e => { e with indirect := UInt32.ofNat b }
        inodeSync sb ctx p true
        inodeMapIndirect sb ctx p offset
    else inodeMapIndirect sb ctx p offset

/-- A `usize`. -/
def usize (n : ℕ) : ℕ := n % 2 ^ 64

/-- `console_write` (console.c:38-50), as far as the inode is concerned. -/
def consoleWrite (p count : ℕ) : M ℕ := do
  inodeUnlock p
  inodeLock p
  return count

/-- `console_read` (console.c:59-95), as far as the inode is concerned. It sleeps as long as
    nothing is typed. -/
def consoleRead (p count : ℕ) : M (List UInt8) := do
  inodeUnlock p
  let s ← get
  match s.input with
  | [] => throw .blocked
  | typed :: input => do
    set { s with input := input }
    inodeLock p
    return typed.take count

/-- The loop of `inode_read` (lines 350-361) up to `stop`, in at most `n` rounds. -/
def inodeReadLoop (sb : SuperBlock) (p stop : ℕ) : ℕ → ℕ → M (List UInt8)
  | 0, _ => return []
  | n + 1, i =>
    if i < stop then do
      let b ← inodeMap sb none p (i / blockSize)
      cache (cacheAcquire b)
      let d ← cache (readBlock b)
      cache (cacheRelease b)
      let rest ← inodeReadLoop sb p stop n ((i / blockSize + 1) * blockSize)
      return d.slice (i % blockSize) (min (blockSize - i % blockSize) (stop - i)) ++ rest
    else return []

/-- `inode_read` (inode.c:335-363): the bytes read. -/
def inodeRead (sb : SuperBlock) (p offset count : ℕ) : M (List UInt8) := do
  let i ← deref p
  if i.entry.type = inodeDevice then consoleRead p count
  else do
    let size := i.entry.numBytes.toNat
    let count := if usize (count + offset) > size then usize (size + 2 ^ 64 - offset) else count
    let stop := usize (offset + count)
    if offset ≤ size ∧ stop ≤ size ∧ offset ≤ stop then
      inodeReadLoop sb p stop (stop - offset) offset
    else throw .assertion

/-- The loop of `inode_write` (lines 386-401) in at most `n` rounds; `first` tells the
    round with `i == 0`. -/
def inodeWriteLoop (sb : SuperBlock) (ctx : Option ℕ) (p : ℕ) :
    ℕ → Bool → List UInt8 → ℕ → M Unit
  | 0, _, _, _ => pure ()
  | n + 1, first, src, offset =>
    if src = [] then pure ()
    else do
      let b ← inodeMap sb ctx p (offset / blockSize)
      cache (cacheAcquire b)
      let start := if first then offset % blockSize else 0
      let cnt := min (blockSize - start) src.length
      let d ← cache (readBlock b)
      cache (writeBlock b (d.copy start (src.take cnt)))
      cache (cacheSync ctx b .direct)
      cache (cacheRelease b)
      inodeWriteLoop sb ctx p n false (src.drop cnt) (offset + cnt)

/-- Lines 380-384 of `inode_write`, and once more lines 402-405. -/
def growTo (sb : SuperBlock) (ctx : Option ℕ) (p stop : ℕ) : M Unit := do
  let i ← deref p
  if i.entry.numBytes.toNat < stop then do
    modifyEntry p fun e => { e with numBytes := UInt32.ofNat stop }
    inodeSync sb ctx p true
  else pure ()

/-- `inode_write` (inode.c:366-407). -/
def inodeWrite (sb : SuperBlock) (ctx : Option ℕ) (p : ℕ) (src : List UInt8) (offset : ℕ) :
    M ℕ := do
  let i ← deref p
  let stop := usize (offset + src.length)
  if i.entry.type = inodeDevice then consoleWrite p src.length
  else if offset ≤ i.entry.numBytes.toNat ∧ stop ≤ inodeMaxBytes ∧ offset ≤ stop then do
    growTo sb ctx p stop
    inodeWriteLoop sb ctx p src.length true src offset
    growTo sb ctx p stop
    return src.length
  else throw .assertion

/-! ## What the helpers do -/

variable {α : Type} {s : FsState} {p : ℕ} {i : Inode}

@[simp] theorem wp_cache {x : Bcache.M α} {Q : α → FsState → Prop} {E : Stop → FsState → Prop} :
    wp (cache x) Q E s ↔ wp x (fun a c => Q a { s with cache := c })
      (fun e c => E e { s with cache := c }) s.cache :=
  wp_zoom

theorem wp_deref {Q : Inode → FsState → Prop} {E : Stop → FsState → Prop}
    (h : s.inode p = some i) : wp (deref p) Q E s ↔ Q i s := by
  unfold deref
  rw [wp_bind, wp_get, h, wp_pure]

theorem wp_modifyInode {f : Inode → Inode} {Q : Unit → FsState → Prop}
    {E : Stop → FsState → Prop} (h : s.inode p = some i) :
    wp (modifyInode p f) Q E s ↔
      Q () { s with inode := Function.update s.inode p (some (f i)) } := by
  unfold modifyInode
  rw [wp_bind, wp_deref h, wp_modify]

end ShikiOS.Fs.Inodes
