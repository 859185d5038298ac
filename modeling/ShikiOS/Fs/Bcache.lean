import ShikiOS.Lib.Wp
import ShikiOS.Common.Sem
import ShikiOS.Fs.Defines

/-!
# The block cache, one call at a time (`fs/cache.c`)

The functions of `fs/cache.c` as they run when no call interleaves with another one.
A cached block is known by its number: `list` holds the numbers from `head.next` on,
and `block` the blocks. While calls do not interleave, the sleep lock of a block is
held exactly while its flag `acquired` is set, so the flag stands for both. A call
that would sleep stops as `blocked`.

The device is a map from block numbers to contents together with the writes it has
taken, oldest first. Each write is tagged with the place in the code that issued it;
the code does not have these tags.

Results: `wp_cacheAcquire` and the like say what each function does to the state.
-/

namespace ShikiOS.Fs.Bcache

open ShikiOS.Lib

/-- Why a call does not return. -/
inductive Stop
  /-- A PANIC of the log layer. -/
  | panic (p : Panic)
  /-- The PANIC of `cache_alloc` (cache.c:412). -/
  | noFreeBlock
  /-- The PANIC of `inode_alloc` (inode.c:121). -/
  | noFreeInode
  /-- A failed ASSERT of the inode layer, or a PANIC of the system calls. -/
  | assertion
  /-- It uses an `Inode` that `inode_put` has freed. -/
  | freed
  /-- It would sleep, and no other call can wake it. -/
  | blocked
deriving DecidableEq, Repr

/-- The places that write to the device. -/
inductive Origin
  /-- `cache_sync` without a context, called from outside `cache.c`. -/
  | direct
  /-- `init_log`, line 242. -/
  | replay
  /-- `cache_end_op`, line 356. -/
  | log
  /-- `write_header`. -/
  | header
  /-- The checkpoint of `cache_end_op`, line 367. -/
  | home
deriving DecidableEq, Repr

/-- A write to the device. -/
structure Write where
  origin : Origin
  blockNo : ℕ
  data : BlockData

/-- A write without its tag. -/
def Write.pair (w : Write) : ℕ × BlockData := (w.blockNo, w.data)

/-- `Block` (cache.h:25-82), without the list node and the test flag. -/
structure Block where
  data : BlockData
  acquired : Bool
  pinned : Bool

/-- The static variables of `cache.c` and the device. `rm` is `ctx->rm` for each
    operation context. -/
structure CacheState where
  list : List ℕ
  block : ℕ → Block
  cachedBlockCount : ℕ
  header : LogHeader
  outstanding : ℤ
  committing : Bool
  sem : Sem Unit
  rm : ℕ → ℕ
  disk : ℕ → BlockData
  writes : List Write

/-- A function of the block cache. -/
abbrev M := EStateM Stop CacheState

/-- The state before `init_bcache`, with a given device. -/
def boot (disk : ℕ → BlockData) : CacheState where
  list := []
  block := fun _ => ⟨fun _ => 0, false, false⟩
  cachedBlockCount := 0
  header := LogHeader.empty
  outstanding := 0
  committing := false
  sem := Sem.init 0
  rm := fun _ => 0
  disk := disk
  writes := []

/-- The caller of `cache_acquire` holds the block. -/
def Held (s : CacheState) (b : ℕ) : Prop := b ∈ s.list ∧ (s.block b).acquired = true

instance (s : CacheState) (b : ℕ) : Decidable (Held s b) := inferInstanceAs (Decidable (_ ∧ _))

/-! ## The device -/

/-- `device->write` (cache.c:105 and 115). -/
def deviceWrite (origin : Origin) (b : ℕ) (d : BlockData) : M Unit :=
  modify fun s => { s with disk := Function.update s.disk b d, writes := s.writes ++ [⟨origin, b, d⟩] }

/-- `read_header` (cache.c:109-111). -/
def readHeader (sb : SuperBlock) : M Unit :=
  modify fun s => { s with header := LogHeader.decode (s.disk sb.logStart) }

/-- `write_header` (cache.c:114-116). -/
def writeHeader (sb : SuperBlock) : M Unit := do
  let s ← get
  deviceWrite .header sb.logStart s.header.encode

/-! ## Blocks -/

/-- Change a block in memory. -/
def setBlock (s : CacheState) (b : ℕ) (k : Block) : CacheState :=
  { s with block := Function.update s.block b k }

/-- Lines 158-171: the block is cached; it is marked and moves to the front. -/
def hit (s : CacheState) (b : ℕ) : CacheState :=
  { setBlock s b { s.block b with acquired := true } with list := b :: s.list.erase b }

/-- Lines 175-190: with too many blocks, drop the last one that is neither acquired
    nor pinned. -/
def evict (s : CacheState) : CacheState :=
  if s.cachedBlockCount ≥ evictionThreshold then
    match s.list.reverse.find? fun b => !(s.block b).acquired && !(s.block b).pinned with
    | none => s
    | some b => { s with list := s.list.erase b, cachedBlockCount := s.cachedBlockCount - 1 }
  else s

/-- Lines 191-208: a new block is read from the device. -/
def load (s : CacheState) (b : ℕ) : CacheState :=
  { setBlock s b ⟨s.disk b, true, false⟩ with
    list := b :: s.list
    cachedBlockCount := s.cachedBlockCount + 1 }

/-- `cache_acquire` (cache.c:142-212). -/
def cacheAcquire (b : ℕ) : M Unit := do
  let s ← get
  if b ∈ s.list then
    if (s.block b).acquired then throw .blocked
    set (hit s b)
  else set (load (evict s) b)

/-- `cache_release` (cache.c:215-222). -/
def cacheRelease (b : ℕ) : M Unit :=
  modify fun s => setBlock s b { s.block b with acquired := false }

/-- `block->data`. -/
def readBlock (b : ℕ) : M BlockData := do
  let s ← get
  return (s.block b).data

/-- An assignment to `block->data`. -/
def writeBlock (b : ℕ) (d : BlockData) : M Unit :=
  modify fun s => setBlock s b { s.block b with data := d }

/-- `cache_sync` (cache.c:298-327). -/
def cacheSync (ctx : Option ℕ) (b : ℕ) (origin : Origin) : M Unit :=
  match ctx with
  | none => do
    let s ← get
    deviceWrite origin b (s.block b).data
  | some c => do
    modify fun s => setBlock s b { s.block b with pinned := true }
    let s ← get
    match logAppend s.header (s.rm c) b with
    | .error p => throw (.panic p)
    | .ok (header, rm) => set { s with header := header, rm := Function.update s.rm c rm }

/-! ## The log -/

/-- The body of the loop of `init_log` (lines 236-244). -/
def replayBlock (sb : SuperBlock) (i : ℕ) : M Unit := do
  let s ← get
  let b := s.header.blockNo (i - 1)
  cacheAcquire (sb.logStart + i)
  cacheAcquire b
  let d ← readBlock (sb.logStart + i)
  writeBlock b d
  cacheSync none b .replay
  cacheRelease (sb.logStart + i)
  cacheRelease b

/-- `init_log` (cache.c:225-252). The loop does not change `header`. -/
def initLog (sb : SuperBlock) : M Unit := do
  modify fun s => { s with outstanding := 0, committing := false, sem := Sem.init 0 }
  readHeader sb
  let s ← get
  forN (replayBlock sb) 1 s.header.numBlocks
  modify fun s => { s with header := s.header.clear }
  writeHeader sb

/-- `init_bcache` (cache.c:254-266). -/
def initBcache (sb : SuperBlock) : M Unit := do
  modify fun s => { s with list := [], cachedBlockCount := 0 }
  initLog sb

/-- The loop of `cache_begin_op` (lines 276-292). A wait that finds a unit of `log.sem`
    takes it and tries again, so there is one more round than units. -/
def beginOpLoop : ℕ → M Unit
  | 0 => throw .blocked
  | units + 1 => do
    let s ← get
    if beginOpWaits s.header s.outstanding s.committing then
      match s.sem.down () with
      | (sem, true) => do
        set { s with sem := sem }
        beginOpLoop units
      | (sem, false) => do
        set { s with sem := sem }
        throw .blocked
    else set { s with outstanding := s.outstanding + 1 }

/-- `cache_begin_op` (cache.c:269-295). -/
def cacheBeginOp (ctx : ℕ) : M Unit := do
  modify fun s => { s with rm := Function.update s.rm ctx opMaxNumBlocks }
  let s ← get
  beginOpLoop (s.sem.val.toNat + 1)

/-- The body of the first loop of `cache_end_op` (lines 351-358). -/
def logBlock (sb : SuperBlock) (i : ℕ) : M Unit := do
  let s ← get
  let b := s.header.blockNo (i - 1)
  cacheAcquire (sb.logStart + i)
  cacheAcquire b
  let d ← readBlock b
  writeBlock (sb.logStart + i) d
  cacheSync none (sb.logStart + i) .log
  cacheRelease (sb.logStart + i)
  cacheRelease b

/-- The body of the second loop of `cache_end_op` (lines 366-370). -/
def checkpointBlock (i : ℕ) : M Unit := do
  let s ← get
  let b := s.header.blockNo i
  cacheAcquire b
  cacheSync none b .home
  modify fun s => setBlock s b { s.block b with pinned := false }
  cacheRelease b

/-- `cache_end_op` from line 347 on: the commit. -/
def commit (sb : SuperBlock) : M Unit := do
  modify fun s => { s with committing := true }
  let s ← get
  forN (logBlock sb) 1 s.header.numBlocks
  writeHeader sb
  forN checkpointBlock 0 s.header.numBlocks
  modify fun s => { s with header := s.header.clear }
  writeHeader sb
  modify fun s => { s with committing := false }
  let s ← get
  match s.sem.postAll with
  | none => throw (.panic .sem)
  | some (sem, _) => set { s with sem := sem }

/-- Lines 340-345: post, then wait. -/
def postAndWait : M Unit := do
  let s ← get
  match s.sem.post with
  | none => throw (.panic .sem)
  | some (sem, _) =>
    match sem.down () with
    | (sem, true) => set { s with sem := sem }
    | (sem, false) => do
      set { s with sem := sem }
      throw .blocked

/-- `cache_end_op` (cache.c:330-380). -/
def cacheEndOp (sb : SuperBlock) (_ctx : ℕ) : M Unit := do
  modify fun s => { s with outstanding := s.outstanding - 1 }
  let s ← get
  if s.committing then throw (.panic .committing)
  if s.outstanding > 0 then postAndWait
  else commit sb

/-! ## What the functions do -/

section Fields

variable (s : CacheState) (b : ℕ) (k : Block)

@[simp] theorem setBlock_list : (setBlock s b k).list = s.list := rfl
@[simp] theorem setBlock_header : (setBlock s b k).header = s.header := rfl
@[simp] theorem setBlock_outstanding : (setBlock s b k).outstanding = s.outstanding := rfl
@[simp] theorem setBlock_committing : (setBlock s b k).committing = s.committing := rfl
@[simp] theorem setBlock_sem : (setBlock s b k).sem = s.sem := rfl
@[simp] theorem setBlock_rm : (setBlock s b k).rm = s.rm := rfl
@[simp] theorem setBlock_disk : (setBlock s b k).disk = s.disk := rfl
@[simp] theorem setBlock_writes : (setBlock s b k).writes = s.writes := rfl

@[simp] theorem setBlock_block_self : (setBlock s b k).block b = k := Function.update_self _ _ _

theorem setBlock_block_of_ne {c : ℕ} (h : c ≠ b) : (setBlock s b k).block c = s.block c :=
  Function.update_of_ne h _ _

end Fields

/-- The state after `cache_acquire` of a block that nobody holds. -/
def acquire (s : CacheState) (b : ℕ) : CacheState :=
  if b ∈ s.list then hit s b else load (evict s) b

theorem wp_cacheAcquire {b : ℕ} {Q : Unit → CacheState → Prop} {E : Stop → CacheState → Prop}
    {s : CacheState} : wp (cacheAcquire b) Q E s ↔
      if Held s b then E .blocked s else Q () (acquire s b) := by
  unfold cacheAcquire acquire Held
  rw [wp_bind, wp_get]
  by_cases hb : b ∈ s.list
  · by_cases ha : (s.block b).acquired = true
    · simp [hb, ha]
    · simp [hb, ha]
  · simp [hb]

/-- Evicting changes the list only, and drops at most a block that is neither acquired
    nor pinned. -/
theorem evict_spec (s : CacheState) :
    (evict s = { s with list := (evict s).list, cachedBlockCount := (evict s).cachedBlockCount }) ∧
    (s.list.Nodup → (evict s).list.Nodup) ∧ (∀ c ∈ (evict s).list, c ∈ s.list) ∧
    ∀ c ∈ s.list, ((s.block c).acquired = true ∨ (s.block c).pinned = true) →
      c ∈ (evict s).list := by
  unfold evict
  split_ifs with hn
  · split
    · exact ⟨rfl, id, fun c hc => hc, fun c hc _ => hc⟩
    · next b hb =>
      have hp := List.find?_some hb
      simp only [Bool.and_eq_true, Bool.not_eq_true'] at hp
      refine ⟨rfl, fun h => h.erase b, fun c hc => List.mem_of_mem_erase hc, fun c hc hu => ?_⟩
      have hne : c ≠ b := by
        rintro rfl
        rw [hp.1, hp.2] at hu
        simp at hu
      exact (List.mem_erase_of_ne hne).mpr hc
  · exact ⟨rfl, id, fun c hc => hc, fun c hc _ => hc⟩

/-- The log layer is the same in both states. -/
structure SameLog (s t : CacheState) : Prop where
  header : t.header = s.header
  outstanding : t.outstanding = s.outstanding
  committing : t.committing = s.committing
  sem : t.sem = s.sem
  rm : t.rm = s.rm

theorem SameLog.refl (s : CacheState) : SameLog s s := ⟨rfl, rfl, rfl, rfl, rfl⟩

theorem SameLog.trans {s t u : CacheState} (h : SameLog s t) (h' : SameLog t u) : SameLog s u :=
  ⟨h'.header.trans h.header, h'.outstanding.trans h.outstanding,
    h'.committing.trans h.committing, h'.sem.trans h.sem, h'.rm.trans h.rm⟩

theorem sameLog_setBlock (s : CacheState) (b : ℕ) (k : Block) : SameLog s (setBlock s b k) :=
  ⟨rfl, rfl, rfl, rfl, rfl⟩

theorem sameLog_acquire (s : CacheState) (b : ℕ) : SameLog s (acquire s b) := by
  unfold acquire
  split_ifs
  · exact ⟨rfl, rfl, rfl, rfl, rfl⟩
  · have h := (evict_spec s).1
    constructor <;> simp only [load, setBlock_header, setBlock_outstanding, setBlock_committing,
      setBlock_sem, setBlock_rm] <;> rw [h]

@[simp] theorem acquire_disk (s : CacheState) (b : ℕ) : (acquire s b).disk = s.disk := by
  unfold acquire
  split_ifs
  · rfl
  · simp only [load, setBlock_disk]
    rw [(evict_spec s).1]

@[simp] theorem acquire_writes (s : CacheState) (b : ℕ) : (acquire s b).writes = s.writes := by
  unfold acquire
  split_ifs
  · rfl
  · simp only [load, setBlock_writes]
    rw [(evict_spec s).1]

/-- The other blocks do not change. -/
theorem acquire_block_of_ne (s : CacheState) {b c : ℕ} (h : c ≠ b) :
    (acquire s b).block c = s.block c := by
  unfold acquire
  split_ifs
  · exact setBlock_block_of_ne s b _ h
  · simp only [load]
    rw [setBlock_block_of_ne _ b _ h, (evict_spec s).1]

@[simp] theorem acquire_acquired (s : CacheState) (b : ℕ) :
    ((acquire s b).block b).acquired = true := by
  unfold acquire
  split_ifs <;> simp [hit, load]

/-- The content of an acquired block: the cached one, or what the device holds. -/
theorem acquire_data (s : CacheState) (b : ℕ) :
    ((acquire s b).block b).data = if b ∈ s.list then (s.block b).data else s.disk b := by
  unfold acquire
  split_ifs
  · simp [hit]
  · simp only [load, setBlock_block_self]
    rw [(evict_spec s).1]

theorem acquire_pinned (s : CacheState) {b : ℕ} (h : b ∈ s.list) :
    ((acquire s b).block b).pinned = (s.block b).pinned := by
  unfold acquire
  rw [if_pos h]
  simp [hit]

theorem mem_acquire_self (s : CacheState) (b : ℕ) : b ∈ (acquire s b).list := by
  unfold acquire
  split_ifs <;> simp [hit, load]

theorem mem_of_mem_acquire {s : CacheState} {b c : ℕ} (h : c ∈ (acquire s b).list) :
    c = b ∨ c ∈ s.list := by
  unfold acquire at h
  split_ifs at h
  · exact (List.mem_cons.mp h).imp_right List.mem_of_mem_erase
  · exact (List.mem_cons.mp h).imp_right ((evict_spec s).2.2.1 c)

/-- A block that is acquired or pinned stays in the cache. -/
theorem mem_acquire_of_mem {s : CacheState} {b c : ℕ} (h : c ∈ s.list)
    (hu : (s.block c).acquired = true ∨ (s.block c).pinned = true) : c ∈ (acquire s b).list := by
  by_cases hcb : c = b
  · subst hcb; exact mem_acquire_self s c
  unfold acquire
  split_ifs
  · exact List.mem_cons_of_mem b ((List.mem_erase_of_ne hcb).mpr h)
  · exact List.mem_cons_of_mem b ((evict_spec s).2.2.2 c h hu)

theorem nodup_acquire {s : CacheState} (h : s.list.Nodup) (b : ℕ) : (acquire s b).list.Nodup := by
  unfold acquire
  split_ifs with hb
  · exact List.nodup_cons.mpr ⟨fun hm => (h.mem_erase_iff.mp hm).1 rfl, h.erase b⟩
  · exact List.nodup_cons.mpr ⟨fun hm => hb ((evict_spec s).2.2.1 b hm), (evict_spec s).2.1 h⟩

theorem held_acquire {s : CacheState} {b c : ℕ} (hb : ¬ Held s b) :
    Held (acquire s b) c ↔ c = b ∨ Held s c := by
  by_cases hcb : c = b
  · subst hcb
    exact ⟨fun _ => .inl rfl, fun _ => ⟨mem_acquire_self s c, acquire_acquired s c⟩⟩
  · unfold Held
    rw [acquire_block_of_ne s hcb]
    constructor
    · rintro ⟨h1, h2⟩
      exact .inr ⟨(mem_of_mem_acquire h1).resolve_left hcb, h2⟩
    · rintro (h | ⟨h1, h2⟩)
      · exact absurd h hcb
      · exact ⟨mem_acquire_of_mem h1 (.inl h2), h2⟩

/-- The state after `cache_release`. -/
def release (s : CacheState) (b : ℕ) : CacheState :=
  setBlock s b { s.block b with acquired := false }

@[simp] theorem wp_cacheRelease {b : ℕ} {Q : Unit → CacheState → Prop}
    {E : Stop → CacheState → Prop} {s : CacheState} :
    wp (cacheRelease b) Q E s ↔ Q () (release s b) := wp_modify

@[simp] theorem wp_readBlock {b : ℕ} {Q : BlockData → CacheState → Prop}
    {E : Stop → CacheState → Prop} {s : CacheState} :
    wp (readBlock b) Q E s ↔ Q (s.block b).data s := by
  unfold readBlock
  rw [wp_bind, wp_get, wp_pure]

@[simp] theorem wp_writeBlock {b : ℕ} {d : BlockData} {Q : Unit → CacheState → Prop}
    {E : Stop → CacheState → Prop} {s : CacheState} :
    wp (writeBlock b d) Q E s ↔ Q () (setBlock s b { s.block b with data := d }) :=
  wp_modify

/-- The state after a write to the device. -/
def written (s : CacheState) (origin : Origin) (b : ℕ) (d : BlockData) : CacheState :=
  { s with disk := Function.update s.disk b d, writes := s.writes ++ [⟨origin, b, d⟩] }

@[simp] theorem wp_deviceWrite {origin : Origin} {b : ℕ} {d : BlockData}
    {Q : Unit → CacheState → Prop} {E : Stop → CacheState → Prop} {s : CacheState} :
    wp (deviceWrite origin b d) Q E s ↔ Q () (written s origin b d) := wp_modify

@[simp] theorem wp_writeHeader {sb : SuperBlock} {Q : Unit → CacheState → Prop}
    {E : Stop → CacheState → Prop} {s : CacheState} :
    wp (writeHeader sb) Q E s ↔ Q () (written s .header sb.logStart s.header.encode) := by
  unfold writeHeader
  rw [wp_bind, wp_get, wp_deviceWrite]

@[simp] theorem wp_cacheSync_none {origin : Origin} {b : ℕ} {Q : Unit → CacheState → Prop}
    {E : Stop → CacheState → Prop} {s : CacheState} :
    wp (cacheSync none b origin) Q E s ↔ Q () (written s origin b (s.block b).data) := by
  unfold cacheSync
  rw [wp_bind, wp_get, wp_deviceWrite]

/-- `cache_sync` with a context pins the block and puts it into the header. -/
theorem wp_cacheSync_some {c : ℕ} {origin : Origin} {b : ℕ} {Q : Unit → CacheState → Prop}
    {E : Stop → CacheState → Prop} {s : CacheState} :
    wp (cacheSync (some c) b origin) Q E s ↔
      match logAppend s.header (s.rm c) b with
      | .error p => E (.panic p) (setBlock s b { s.block b with pinned := true })
      | .ok (header, rm) => Q () { setBlock s b { s.block b with pinned := true } with
          header := header
          rm := Function.update s.rm c rm } := by
  unfold cacheSync
  simp only [wp_bind, wp_modify, wp_get, setBlock_header, setBlock_rm]
  cases logAppend s.header (s.rm c) b with
  | error p => exact wp_throw
  | ok r => exact wp_set

theorem sameLog_written (s : CacheState) (o : Origin) (b : ℕ) (d : BlockData) :
    SameLog s (written s o b d) :=
  ⟨rfl, rfl, rfl, rfl, rfl⟩

/-- A change that leaves the flag of the block leaves the holders. -/
theorem held_setBlock {s : CacheState} {b c : ℕ} {k : Block}
    (h : k.acquired = (s.block b).acquired) : Held (setBlock s b k) c ↔ Held s c := by
  unfold Held
  by_cases hcb : c = b
  · subst hcb; simp [h]
  · rw [setBlock_block_of_ne s b k hcb]; exact Iff.rfl

theorem held_release {s : CacheState} {b c : ℕ} : Held (release s b) c ↔ c ≠ b ∧ Held s c := by
  unfold Held release
  by_cases hcb : c = b
  · subst hcb; simp
  · rw [setBlock_block_of_ne s b _ hcb]; simp [hcb]

end ShikiOS.Fs.Bcache
