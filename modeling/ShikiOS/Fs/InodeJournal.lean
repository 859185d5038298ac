import ShikiOS.Fs.BcacheJournal
import ShikiOS.Fs.Inode

/-!
# The inode layer in an operation (`fs/inode.c`)

No function of the inode layer writes to the device by itself: every block that it changes goes to
the log of the operation whose context it is given. There is one rule for each function, over what
`Journal` says of the cache.
-/

namespace ShikiOS.Fs.Inodes

open ShikiOS.Lib Bcache

/-- An assertion about the block cache. -/
def OnCache (P : CacheState → Prop) (s : FsState) : Prop := P s.cache

/-- `x` keeps what is known of the block cache. -/
abbrev Keeps {α : Type} (P : CacheState → Prop) (x : M α) : Prop := Triple (OnCache P) x fun _ => OnCache P

variable {B : Base} {ph ctx : Option ℕ} {k : ℕ∞} {H : List ℕ} {P : CacheState → Prop} {α : Type}
  {p b c : ℕ}

/-! ## Calls that do not use the cache -/

theorem onCache_call {x : Bcache.M α} {Q : α → CacheState → Prop} (h : Triple P x Q) :
    Triple (OnCache P) (cache x) fun a => OnCache (Q a) := h.zoom fun _ _ => rfl

theorem keeps_pure {a : α} : Keeps P (pure a) := .pure fun _ hs => hs

theorem keeps_modify {f : FsState → FsState} (hf : ∀ s, (f s).cache = s.cache) : Keeps P (modify f) := by
  apply Triple.modify
  intro s hs
  show P (f s).cache
  rw [hf]
  exact hs

theorem keeps_deref : Keeps P (deref p) := by
  unfold deref
  apply Triple.get
  intro s hs
  split
  · exact wp_pure.mpr hs
  · exact wp_throw.mpr trivial

theorem keeps_modifyInode {f : Inode → Inode} : Keeps P (modifyInode p f) := by
  unfold modifyInode
  exact keeps_deref.seq fun i => keeps_modify (by intro s; rfl)

theorem keeps_modifyEntry {f : InodeEntry → InodeEntry} : Keeps P (modifyEntry p f) := keeps_modifyInode

theorem keeps_acquireLock : Keeps P (acquireLock p) := by
  unfold acquireLock
  exact keeps_deref.seq fun i => .ite .throw keeps_modifyInode

theorem keeps_lock : Keeps P (inodeLock p) := by
  unfold inodeLock
  exact keeps_deref.seq fun i => .ite .throw keeps_acquireLock

theorem keeps_unlock : Keeps P (inodeUnlock p) := by
  unfold inodeUnlock
  exact keeps_deref.seq fun i => .ite .throw keeps_modifyInode

theorem keeps_share : Keeps P (inodeShare p) := by
  unfold inodeShare
  exact keeps_modifyInode.seq fun _ => keeps_pure

theorem keeps_consoleWrite {count : ℕ} : Keeps P (consoleWrite p count) := by
  unfold consoleWrite
  exact keeps_unlock.seq fun _ => keeps_lock.seq fun _ => keeps_pure

theorem keeps_consoleRead {count : ℕ} : Keeps P (consoleRead p count) := by
  have hlock : ∀ l : List UInt8, Keeps P (do inodeLock p; return l) :=
    fun l => keeps_lock.seq fun _ => keeps_pure
  unfold consoleRead
  refine keeps_unlock.seq fun _ => ?_
  apply Triple.get
  intro s hs
  split
  · exact wp_throw.mpr trivial
  · rw [wlp, wp_bind, wp_set]
    exact hlock _ _ hs

/-! ## Blocks -/

theorem journal_acquire (b : ℕ) :
    Triple (OnCache (Journal B ph k H)) (cache (cacheAcquire b)) fun _ => OnCache (Journal B ph k (b :: H)) :=
  onCache_call (Journal.acquire b)

theorem journal_release (b : ℕ) :
    Triple (OnCache (Journal B ph k (b :: H))) (cache (cacheRelease b)) fun _ => OnCache (Journal B ph k H) :=
  onCache_call (Journal.release b)

theorem journal_read (b : ℕ) : Keeps (Journal B ph k H) (cache (readBlock b)) :=
  onCache_call (Journal.read b)

/-- The caller forgets the block that it acquired last. -/
theorem journal_leave {s : FsState} (h : OnCache (Journal B ph k (b :: H)) s) :
    OnCache (Journal B ph k H) s := h.forget (List.sublist_cons_self b H)

section Sync

variable (hpos : 0 < B.sb.numLogBlocks)
include hpos

theorem journal_writeSync (hctx : MaySync B ph ctx) {d : BlockData} : Triple (OnCache (Journal B ph k (b :: H))) (do
    cache (writeBlock b d)
    cache (cacheSync ctx b .direct)
    cache (cacheRelease b)) fun _ => OnCache (Journal B ph k H) :=
  (onCache_call (Journal.write b d)).seq fun _ =>
    (onCache_call (Journal.sync hpos hctx)).seq fun _ => journal_release b

theorem journal_freeBlock (hctx : MaySync B ph ctx) : Keeps (Journal B ph k H) (freeBlock B.sb ctx b) := by
  unfold freeBlock
  exact (onCache_call (Journal.cacheFree hpos hctx b)).seq fun _ => keeps_modify (by intro s; rfl)

theorem journal_allocBlock (hctx : MaySync B ph ctx) : Keeps (Journal B ph k H) (allocBlock B.sb ctx) := by
  unfold allocBlock
  refine (onCache_call (Journal.cacheAlloc hpos hctx)).seq fun b => ?_
  exact (keeps_modify (by intro s; rfl)).seq fun _ => keeps_pure

/-- The rule of `inode_sync`; a read needs no context. -/
theorem journal_sync {doWrite : Bool} (hctx : doWrite = true → MaySync B ph ctx) :
    Keeps (Journal B ph k H) (inodeSync B.sb ctx p doWrite) := by
  unfold inodeSync
  refine keeps_deref.seq fun i => (journal_acquire _).seq fun _ => (journal_read _).seq fun d => ?_
  split_ifs with hvalid hwrite
  · exact journal_writeSync hpos (hctx hwrite)
  · exact journal_release _
  · exact keeps_modifyInode.seq fun _ => journal_release _

/-- The rule of `inode_get`. -/
theorem journal_get {no : ℕ} : Keeps (Journal B ph k H) (inodeGet B.sb no) := by
  have hread : ∀ p, Keeps (Journal B ph k H) (do
      modifyInode p fun i => { i with rc := i.rc + 1 }
      inodeLock p
      inodeSync B.sb none p false
      inodeUnlock p
      modify fun s => { s with list := p :: s.list }
      return some p) := by
    intro p
    refine keeps_modifyInode.seq fun _ => keeps_lock.seq fun _ => ?_
    refine (journal_sync hpos fun h => absurd h Bool.false_ne_true).seq fun _ => keeps_unlock.seq fun _ => ?_
    exact (keeps_modify (by intro s; rfl)).seq fun _ => keeps_pure
  unfold inodeGet
  refine .ite keeps_pure (.ite .throw ?_)
  apply Triple.get
  intro s hs
  split
  · exact keeps_modifyInode.seq (fun _ => keeps_pure) s hs
  · rw [wlp, wp_bind, wp_set]
    exact hread _ _ hs

end Sync

/-! ## Operations that change inodes -/

section Operation

variable (hpos : 0 < B.sb.numLogBlocks) (hctx : MaySync B ph ctx)
include hpos hctx

/-- The rule of `inode_alloc`. -/
theorem journal_alloc {type : InodeType} : Keeps (Journal B ph k H) (inodeAlloc B.sb ctx type) := by
  unfold inodeAlloc
  refine .ite .throw ?_
  generalize B.sb.numInodes - 1 = n
  generalize 1 = no
  induction n generalizing no with
  | zero => exact .throw
  | succ n ih =>
    unfold inodeAllocFrom
    refine (journal_acquire _).seq fun _ => (journal_read _).seq fun d => .ite ?_ ?_
    · refine (onCache_call (Journal.write _ _)).seq fun _ => (onCache_call (Journal.sync hpos hctx)).seq fun _ => ?_
      exact (journal_release _).seq fun _ => keeps_pure
    · exact (journal_release _).seq fun _ => ih _

/-- The rule of `inode_clear`. -/
theorem journal_clear : Keeps (Journal B ph k H) (inodeClear B.sb ctx p) := by
  have hindirect : ∀ b i, Keeps (Journal B ph k (b :: H)) (freeIndirect B.sb ctx b i) := by
    intro b i
    unfold freeIndirect
    exact (journal_read _).seq fun d => .ite (journal_freeBlock hpos hctx) keeps_pure
  have hdirect : ∀ i, Keeps (Journal B ph k H) (freeDirect B.sb ctx p i) := by
    intro i
    unfold freeDirect
    refine keeps_deref.seq fun e => .ite ?_ keeps_pure
    exact (journal_freeBlock hpos hctx).seq fun _ => keeps_modifyEntry
  have hblock : Keeps (Journal B ph k H) (clearIndirect B.sb ctx p) := by
    unfold clearIndirect
    refine keeps_deref.seq fun e => .ite ?_ keeps_pure
    refine (journal_acquire _).seq fun _ => (Triple.forN (hindirect _) _ _).seq fun _ => ?_
    exact (journal_release _).seq fun _ => (journal_freeBlock hpos hctx).seq fun _ => keeps_modifyEntry
  unfold inodeClear
  refine hblock.seq fun _ => (Triple.forN hdirect _ _).seq fun _ => keeps_modifyEntry.seq fun _ => ?_
  exact journal_sync hpos fun _ => hctx

/-- The rule of `inode_put`. -/
theorem journal_put : Keeps (Journal B ph k H) (inodePut B.sb ctx p) := by
  unfold inodePut
  refine keeps_acquireLock.seq fun _ => keeps_modifyInode.seq fun _ => keeps_deref.seq fun i => ?_
  refine .ite (keeps_modifyEntry.seq fun _ => (journal_clear hpos hctx).seq fun _ => ?_) keeps_modifyInode
  refine (journal_sync hpos fun _ => hctx).seq fun _ => (keeps_modify (by intro s; rfl)).seq fun _ => ?_
  exact keeps_modifyInode.seq fun _ => keeps_modify (by intro s; rfl)

end Operation

/-! ## Contents -/

section Contents

variable (hpos : 0 < B.sb.numLogBlocks)
include hpos

/-- The rule of `inode_map`; without a context it allocates nothing. -/
theorem journal_map (hctx : ctx = none ∨ MaySync B ph ctx) {offset : ℕ} :
    Keeps (Journal B ph k H) (inodeMap B.sb ctx p offset) := by
  have hindirect : ∀ offset, Keeps (Journal B ph k H) (inodeMapIndirect B.sb ctx p offset) := by
    intro offset
    unfold inodeMapIndirect
    refine keeps_deref.seq fun i => (journal_acquire _).seq fun _ => (journal_read _).seq fun d => .ite ?_ ?_
    · cases ctx with
      | none => exact .pure fun _ hs => journal_leave hs
      | some c =>
        have hctx' := hctx.resolve_left (Option.some_ne_none c)
        refine (journal_allocBlock hpos hctx').seq fun b => (journal_read _).seq fun d => ?_
        refine (onCache_call (Journal.write _ _)).seq fun _ => ?_
        refine (onCache_call (Journal.sync hpos hctx')).seq fun _ => ?_
        exact (journal_release _).seq fun _ => keeps_pure
    · exact (journal_release _).seq fun _ => keeps_pure
  unfold inodeMap
  refine keeps_deref.seq fun i => .ite (.ite keeps_pure ?_) (.ite ?_ (hindirect _))
  · cases ctx with
    | none => exact keeps_pure
    | some c =>
      have hctx' := hctx.resolve_left (Option.some_ne_none c)
      refine (journal_allocBlock hpos hctx').seq fun b => keeps_modifyEntry.seq fun _ => ?_
      exact (journal_sync hpos fun _ => hctx').seq fun _ => keeps_pure
  · cases ctx with
    | none => exact keeps_pure
    | some c =>
      have hctx' := hctx.resolve_left (Option.some_ne_none c)
      refine (journal_allocBlock hpos hctx').seq fun b => keeps_modifyEntry.seq fun _ => ?_
      exact (journal_sync hpos fun _ => hctx').seq fun _ => hindirect _

/-- The rule of `inode_read`. -/
theorem journal_readInode {off count : ℕ} : Keeps (Journal B ph k H) (inodeRead B.sb p off count) := by
  have hloop : ∀ stop n i, Keeps (Journal B ph k H) (inodeReadLoop B.sb p stop n i) := by
    intro stop n
    induction n with
    | zero => exact fun i => keeps_pure
    | succ n ih =>
      intro i
      unfold inodeReadLoop
      refine .ite ((journal_map hpos (.inl rfl)).seq fun b => ?_) keeps_pure
      refine (journal_acquire _).seq fun _ => (journal_read _).seq fun d => (journal_release _).seq fun _ => ?_
      exact (ih _).seq fun rest => keeps_pure
  unfold inodeRead
  exact keeps_deref.seq fun i => .ite keeps_consoleRead (.ite (hloop _ _ _) .throw)

/-- The rule of `inode_write`. -/
theorem journal_writeInode (hctx : MaySync B ph ctx) {src : List UInt8} {off : ℕ} :
    Keeps (Journal B ph k H) (inodeWrite B.sb ctx p src off) := by
  have hgrow : ∀ stop, Keeps (Journal B ph k H) (growTo B.sb ctx p stop) := by
    intro stop
    unfold growTo
    refine keeps_deref.seq fun i => .ite ?_ keeps_pure
    exact keeps_modifyEntry.seq fun _ => journal_sync hpos fun _ => hctx
  have hloop : ∀ n first src off, Keeps (Journal B ph k H) (inodeWriteLoop B.sb ctx p n first src off) := by
    intro n
    induction n with
    | zero => exact fun _ _ _ => keeps_pure
    | succ n ih =>
      intro first src off
      unfold inodeWriteLoop
      refine .ite keeps_pure ((journal_map hpos (.inr hctx)).seq fun b => ?_)
      refine (journal_acquire _).seq fun _ => (journal_read _).seq fun d => ?_
      refine (onCache_call (Journal.write _ _)).seq fun _ => ?_
      refine (onCache_call (Journal.sync hpos hctx)).seq fun _ => ?_
      exact (journal_release _).seq fun _ => ih _ _ _
  unfold inodeWrite
  refine keeps_deref.seq fun i => .ite keeps_consoleWrite (.ite ?_ .throw)
  exact (hgrow _).seq fun _ => (hloop _ _ _ _).seq fun _ => (hgrow _).seq fun _ => keeps_pure

end Contents

end ShikiOS.Fs.Inodes
