import ShikiOS.Fs.BlockOwnership
import ShikiOS.Fs.Inode
import ShikiOS.Fs.OpBudget

/-!
# A call of the inode layer inside an operation (`fs/inode.c`)

`At sb k σ H L A e s` says where a call is that works on one inode: the cache represents `σ`, the
blocks `H` are held, the operation has synced the blocks `L`, the blocks `A` are fresh, and `e` is
the entry of the inode.
There is one rule for each step of such a call. A rule that syncs a block asks that the blocks
synced then are at most `n`, the bound that the caller wants to prove.
-/

namespace ShikiOS.Fs.Inodes

open ShikiOS.Lib Bcache

/-- A call: its context, what the cache represented, what the header listed and what `ctx->rm` was
    when the call began, the pointer that it was given, what this and the other pointers pointed
    to, the list of inodes and the pointer that `kalloc` returns next. -/
structure Op where
  ctx : ℕ
  before : ℕ → BlockData
  listed : List ℕ
  rm : ℕ
  p : ℕ
  inodes : ℕ → Option Inode
  inode : Inode
  list : List ℕ
  nextPtr : ℕ

/-- The number of the inode. -/
def Op.no (k : Op) : ℕ := k.inode.inodeNo

/-- The block with its entry. -/
def Op.home (sb : SuperBlock) (k : Op) : ℕ := sb.toBlockNo k.no

structure At (sb : SuperBlock) (k : Op) (σ : ℕ → BlockData) (H : List (ℕ × BlockData))
    (L : Finset ℕ) (A : List ℕ) (e : InodeEntry) (s : FsState) : Prop where
  rep : Rep sb σ H s.cache
  spent : Spent k.ctx k.listed k.rm L s.cache
  unsynced : ∀ b ∉ L, σ b = k.before b
  inode : s.inode = Function.update k.inodes k.p (some { k.inode with entry := e })
  fresh : s.fresh = A
  list : s.list = k.list
  nextPtr : s.nextPtr = k.nextPtr

variable {sb : SuperBlock} {k : Op} {σ : ℕ → BlockData} {H : List (ℕ × BlockData)} {L : Finset ℕ}
  {A : List ℕ} {e : InodeEntry} {s : FsState} {b n : ℕ} {d : BlockData}

theorem At.deref (h : At sb k σ H L A e s) : s.inode k.p = some { k.inode with entry := e } := by
  rw [h.inode, Function.update_self]

/-- A call of the block cache, of which two things are known. -/
theorem wp_cache_and {α : Type} {x : Bcache.M α} {A B : α → CacheState → Prop}
    {C D : Stop → CacheState → Prop} {Q : α → FsState → Prop} {E : Stop → FsState → Prop}
    (h1 : wp x A C s.cache) (h2 : wp x B D s.cache)
    (hQ : ∀ a c, A a c → B a c → Q a { s with cache := c })
    (hE : ∀ stop c, C stop c → D stop c → E stop { s with cache := c }) : wp (cache x) Q E s := by
  rw [wp_cache]
  exact wp_mono (h1.and h2) (fun a c hc => hQ a c hc.1 hc.2) fun stop c hc => hE stop c hc.1 hc.2

section Cache

variable {Q : Unit → FsState → Prop}

theorem At.wp_acquire (h : At sb k σ H L A e s) (hb : ¬ sb.InLog b) (hH : b ∉ H.map Prod.fst)
    (hq : ∀ t, At sb k σ ((b, σ b) :: H) L A e t → Q () t) :
    wp (cache (cacheAcquire b)) Q (fun stop _ => Exhausted k.rm n stop) s :=
  wp_cache_and (C := fun _ _ => False)
    (h.rep.wp_acquire hb hH (Q := fun _ c => Rep sb σ ((b, σ b) :: H) c) fun _ hc => hc)
    h.spent.wp_acquire (fun _ _ h1 h2 => hq _ ⟨h1, h2, h.unsynced, h.inode, h.fresh, h.list, h.nextPtr⟩) fun _ _ hf => hf.elim

theorem At.wp_read (h : At sb k σ ((b, d) :: H) L A e s) {Q : BlockData → FsState → Prop}
    {E : Stop → FsState → Prop} (hq : Q d s) : wp (cache (readBlock b)) Q E s := by
  rw [wp_cache]
  exact h.rep.wp_read hq

theorem At.wp_write (h : At sb k σ ((b, d) :: H) L A e s) {d' : BlockData} {E : Stop → FsState → Prop}
    (hq : ∀ t, At sb k σ ((b, d') :: H) L A e t → Q () t) : wp (cache (writeBlock b d')) Q E s :=
  wp_cache_and (C := fun _ _ => False) (D := fun _ _ => True)
    (h.rep.wp_write (Q := fun _ c => Rep sb σ ((b, d') :: H) c) fun _ hc => hc)
    h.spent.wp_write (fun _ _ h1 h2 => hq _ ⟨h1, h2, h.unsynced, h.inode, h.fresh, h.list, h.nextPtr⟩) fun _ _ hf => hf.elim

theorem At.wp_release (h : At sb k σ ((b, d) :: H) L A e s) (hd : d = σ b) {E : Stop → FsState → Prop}
    (hq : ∀ t, At sb k σ H L A e t → Q () t) : wp (cache (cacheRelease b)) Q E s :=
  wp_cache_and (C := fun _ _ => False) (D := fun _ _ => True)
    (h.rep.wp_release hd (Q := fun _ c => Rep sb σ H c) fun _ hc => hc)
    h.spent.wp_release (fun _ _ h1 h2 => hq _ ⟨h1, h2, h.unsynced, h.inode, h.fresh, h.list, h.nextPtr⟩) fun _ _ hf => hf.elim

/-- A block is synced and released. -/
theorem At.wp_syncRelease (h : At sb k σ ((b, d) :: H) L A e s) (hn : (insert b L).card ≤ n)
    (hq : ∀ t, At sb k (Function.update σ b d) H (insert b L) A e t → Q () t) :
    wp (cache (cacheSync (some k.ctx) b .direct))
      (fun _ t => wp (cache (cacheRelease b)) Q (fun stop _ => Exhausted k.rm n stop) t)
      (fun stop _ => Exhausted k.rm n stop) s := by
  refine wp_cache_and (C := fun _ _ => True) (h.rep.wp_sync (fun _ _ => trivial)
    (Q := fun _ c => Rep sb (Function.update σ b d) ((b, d) :: H) c) fun _ hc => hc)
    h.spent.wp_sync (fun _ c h1 h2 => ?_) fun stop _ _ hs => hs.mono hn
  have hat : At sb k (Function.update σ b d) ((b, d) :: H) (insert b L) A e { s with cache := c } := by
    refine ⟨h1, h2, fun x hx => ?_, h.inode, h.fresh, h.list, h.nextPtr⟩
    rw [Finset.mem_insert, not_or] at hx
    rw [Function.update_of_ne hx.1, h.unsynced x hx.2]
  exact hat.wp_release (Function.update_self b d σ).symm hq

end Cache

/-- The rule of `cache->alloc`: a data block whose bit was clear, and zero now. -/
theorem At.wp_allocBlock (h : At sb k σ H L A e s) (hl : sb.Layout) (hmeta : MetadataUsed sb σ)
    (hH : ∀ c ∈ H.map Prod.fst, sb.IsData c ∧ bit sb σ c = true) (hn : L.card + 2 ≤ n)
    {Q : ℕ → FsState → Prop} (hq : ∀ b t, sb.IsData b → bit sb σ b = false →
      At sb k (allocated sb σ b) H (insert b (insert (sb.bitmapBlock b) L)) (b :: A) e t → Q b t) :
    wp (allocBlock sb (some k.ctx)) Q (fun stop _ => Exhausted k.rm n stop) s := by
  unfold allocBlock
  simp only [wp_bind, wp_modify, wp_pure]
  have hrep : wp (cacheAlloc sb (some k.ctx))
      (fun b c => sb.IsData b ∧ bit sb σ b = false ∧ Rep sb (allocated sb σ b) H c)
      (fun stop _ => stop ≠ .blocked) s.cache :=
    h.rep.wp_cacheAlloc hl hmeta (fun _ _ => by simp) (fun _ => by simp)
      (fun c hc hu => absurd (hH c hc) hu) fun b c h1 h2 h3 => ⟨h1, h2, h3⟩
  refine wp_cache_and hrep h.spent.wp_cacheAlloc (fun b c h1 h2 => ?_) fun stop c h1 h2 => ?_
  · refine hq b _ h1.1 h1.2.1 ⟨h1.2.2, h2, fun x hx => ?_, h.inode,
      congrArg (b :: ·) h.fresh, h.list, h.nextPtr⟩
    simp only [Finset.mem_insert, not_or] at hx
    rw [allocated_of_ne hx.1 hx.2.1, h.unsynced x hx.2.2]
  · exact (h2.resolve_left h1).mono hn

/-- The rule of an assignment to `inode->entry`. -/
theorem At.wp_modifyEntry (h : At sb k σ H L A e s) {f : InodeEntry → InodeEntry}
    {Q : Unit → FsState → Prop} {E : Stop → FsState → Prop}
    (hq : ∀ t, At sb k σ H L A (f e) t → Q () t) : wp (modifyEntry k.p f) Q E s := by
  unfold modifyEntry
  rw [wp_modifyInode h.deref]
  refine hq _ ⟨h.rep, h.spent, h.unsynced, ?_, h.fresh, h.list, h.nextPtr⟩
  show Function.update s.inode k.p _ = _
  rw [h.inode, Function.update_idem]

/-- The rule of `inode_sync` that writes the entry. -/
theorem At.wp_inodeSync (h : At sb k σ H L A e s) (hl : sb.Layout) (hno : k.no < sb.numInodes)
    (hv : k.inode.valid = true) (hH : k.home sb ∉ H.map Prod.fst)
    (hn : (insert (k.home sb) L).card ≤ n) {Q : Unit → FsState → Prop}
    (hq : ∀ t, At sb k (setEntry sb σ k.no e) H (insert (k.home sb) L) A e t → Q () t) :
    wp (inodeSync sb (some k.ctx) k.p true) Q (fun stop _ => Exhausted k.rm n stop) s := by
  unfold inodeSync
  rw [wp_bind, wp_deref h.deref]
  simp only [wp_bind]
  refine h.wp_acquire (hl.not_inLog_toBlockNo hno) hH fun s1 h1 => h1.wp_read ?_
  rw [if_pos hv, if_pos trivial]
  simp only [wp_bind]
  exact h1.wp_write fun s2 h2 => h2.wp_syncRelease hn hq

end ShikiOS.Fs.Inodes
