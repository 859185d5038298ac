import ShikiOS.Fs.Inode

/-!
# The bytes of a file (`fs/inode.c`)

`fileByte σ e i` is the byte `i` of a file with the inode entry `e`, where `σ` are the blocks
that the cache represents. `Stored` says that a regular file has all its blocks.

Results:
* `wp_inodeMap`: without a context `inode_map` finds the block of a part of the file.
* `wp_inodeRead`: `inode_read` returns the bytes of the file, and always returns.
* `wp_inodeRead_beyond`: behind the end of the file it stops with an assertion.
-/

namespace ShikiOS.Fs.Inodes

open ShikiOS.Lib Bcache

/-- The number of the block with the `k`-th part of a file. -/
def fileBlock (σ : ℕ → BlockData) (e : InodeEntry) (k : ℕ) : ℕ :=
  if k < inodeNumDirect then (e.addr k).toNat
  else (IndirectBlock.get (σ e.indirect.toNat) (k - inodeNumDirect)).toNat

/-- The byte `i` of a file. -/
def fileByte (σ : ℕ → BlockData) (e : InodeEntry) (i : ℕ) : UInt8 :=
  (σ (fileBlock σ e (i / blockSize))).bytes (i % blockSize)

/-- The bytes of a file from `i` on. -/
def fileBytes (σ : ℕ → BlockData) (e : InodeEntry) (i n : ℕ) : List UInt8 :=
  (List.range n).map fun j => fileByte σ e (i + j)

/-- A regular file whose blocks are all there, outside the log area. -/
structure Stored (sb : SuperBlock) (σ : ℕ → BlockData) (e : InodeEntry) : Prop where
  type : e.type = inodeRegular
  block : ∀ k, k * blockSize < e.numBytes.toNat →
    fileBlock σ e k ≠ 0 ∧ ¬ sb.InLog (fileBlock σ e k)
  indirect : inodeNumDirect * blockSize < e.numBytes.toNat →
    e.indirect ≠ 0 ∧ ¬ sb.InLog e.indirect.toNat

/-- A file of any type whose blocks are all there. -/
structure Filled (sb : SuperBlock) (σ : ℕ → BlockData) (e : InodeEntry) : Prop where
  block : ∀ k, k * blockSize < e.numBytes.toNat →
    fileBlock σ e k ≠ 0 ∧ ¬ sb.InLog (fileBlock σ e k)
  indirect : inodeNumDirect * blockSize < e.numBytes.toNat →
    e.indirect ≠ 0 ∧ ¬ sb.InLog e.indirect.toNat

variable {sb : SuperBlock} {σ : ℕ → BlockData} {e : InodeEntry} {s : FsState} {p : ℕ}

theorem Stored.filled (h : Stored sb σ e) : Filled sb σ e := ⟨h.block, h.indirect⟩

theorem fileBytes_append (i m n : ℕ) :
    fileBytes σ e i (m + n) = fileBytes σ e i m ++ fileBytes σ e (i + m) n := by
  unfold fileBytes
  rw [List.range_add, List.map_append, List.map_map]
  refine congrArg _ (List.map_congr_left fun j _ => ?_)
  rw [Function.comp_apply, Nat.add_assoc]

/-- The bytes in one block. -/
theorem fileBytes_slice {i n : ℕ} (hn : i % blockSize + n ≤ blockSize) :
    fileBytes σ e i n = (σ (fileBlock σ e (i / blockSize))).slice (i % blockSize) n := by
  unfold fileBytes BlockData.slice
  refine List.map_congr_left fun j hj => ?_
  rw [List.mem_range] at hj
  unfold blockSize at hn ⊢
  rw [fileByte, blockSize, show (i + j) / 512 = i / 512 by omega,
    show (i + j) % 512 = i % 512 + j by omega]

/-- The bytes up to `stop`: those in the first block, and the rest. -/
theorem fileBytes_block {i stop : ℕ} (hi : i < stop) : fileBytes σ e i (stop - i) =
    (σ (fileBlock σ e (i / blockSize))).slice (i % blockSize)
      (min (blockSize - i % blockSize) (stop - i)) ++
    fileBytes σ e ((i / blockSize + 1) * blockSize) (stop - (i / blockSize + 1) * blockSize) := by
  rw [← fileBytes_slice (by unfold blockSize; omega)]
  by_cases hlast : stop ≤ (i / blockSize + 1) * blockSize
  · rw [Nat.sub_eq_zero_of_le hlast, min_eq_right (by unfold blockSize at hlast ⊢; omega)]
    exact (List.append_nil _).symm
  · unfold blockSize at hlast ⊢
    rw [min_eq_left (by omega), show stop - i = (512 - i % 512) + (stop - (i / 512 + 1) * 512) by omega,
      fileBytes_append, show i + (512 - i % 512) = (i / 512 + 1) * 512 by omega]

@[simp] theorem length_fileBytes (i n : ℕ) : (fileBytes σ e i n).length = n := by
  rw [fileBytes, List.length_map, List.length_range]

/-- The cache represents `σ`, nobody holds a block, and `e` is the entry of the inode `p`. -/
structure Opened (sb : SuperBlock) (σ : ℕ → BlockData) (p : ℕ) (e : InodeEntry) (s : FsState) :
    Prop where
  rep : Rep sb σ [] s.cache
  entry : ∃ i, s.inode p = some i ∧ i.entry = e

/-- A block is acquired and read. -/
theorem Opened.fetch {b : ℕ} (h : Opened sb σ p e s) (hb : ¬ sb.InLog b)
    {Q : BlockData → FsState → Prop} {E : Stop → FsState → Prop}
    (hQ : ∀ c, Rep sb σ [(b, σ b)] c → Q (σ b) { s with cache := c }) :
    wp (cache (cacheAcquire b)) (fun _ t => wp (cache (readBlock b)) Q E t) E s := by
  have hheld := h.rep.noneHeld b
  have hacq : Rep sb σ [(b, σ b)] (acquire s.cache b) := by
    have hw := h.rep.acquire hb (Q := fun _ t => Rep sb σ [(b, σ b)] t) fun t ht => ht
    rw [wlp, wp_cacheAcquire, if_neg hheld] at hw
    exact hw
  rw [wp_cache, wp_cacheAcquire, if_neg hheld, wp_cache, wp_readBlock, hacq.head.2]
  exact hQ _ hacq

/-- It is released. -/
theorem Opened.release {b : ℕ} {c : CacheState} (h : Opened sb σ p e s) (hc : Rep sb σ [(b, σ b)] c)
    {Q : Unit → FsState → Prop} {E : Stop → FsState → Prop}
    (hQ : ∀ c, Opened sb σ p e { s with cache := c } → Q () { s with cache := c }) :
    wp (cache (cacheRelease b)) Q E { s with cache := c } := by
  have hrel : Rep sb σ [] (Bcache.release c b) := by
    have hw := hc.release rfl (Q := fun _ t => Rep sb σ [] t) fun t ht => ht
    rw [wlp, wp_cacheRelease] at hw
    exact hw
  rw [wp_cache, wp_cacheRelease]
  exact hQ _ ⟨hrel, h.entry⟩

/-- The rule of `inode_map` without a context. -/
theorem wp_inodeMap (h : Opened sb σ p e s) (hs : Filled sb σ e) {k : ℕ}
    (hk : k * blockSize < e.numBytes.toNat) {Q : ℕ → FsState → Prop} {E : Stop → FsState → Prop}
    (hQ : ∀ c, Opened sb σ p e { s with cache := c } →
      Q (fileBlock σ e k) { s with cache := c }) : wp (inodeMap sb none p k) Q E s := by
  obtain ⟨i, hi, he⟩ := h.entry
  obtain ⟨hb0, -⟩ := hs.block k hk
  unfold inodeMap
  rw [wp_bind, wp_deref hi, he]
  unfold fileBlock at hb0 hQ
  by_cases hdirect : k < inodeNumDirect
  · rw [if_pos hdirect] at hb0
    rw [if_pos hdirect]
    simp only [if_pos hdirect] at hQ
    have haddr : e.addr k ≠ 0 := by
      intro h0
      rw [h0] at hb0
      exact hb0 rfl
    rw [if_pos haddr, wp_pure]
    exact hQ s.cache h
  · rw [if_neg hdirect] at hb0
    rw [if_neg hdirect]
    simp only [if_neg hdirect] at hQ
    have hsize : inodeNumDirect * blockSize < e.numBytes.toNat := by
      have := Nat.mul_le_mul_right blockSize (not_lt.mp hdirect)
      omega
    obtain ⟨hind, hlog⟩ := hs.indirect hsize
    have hget : IndirectBlock.get (σ e.indirect.toNat) (k - inodeNumDirect) ≠ 0 := by
      intro h0
      rw [h0] at hb0
      exact hb0 rfl
    rw [if_neg hind]
    unfold inodeMapIndirect
    rw [wp_bind, wp_deref hi, he]
    dsimp only
    rw [wp_bind]
    simp only [wp_bind]
    refine h.fetch hlog fun c hc => ?_
    rw [if_neg hget, wp_bind]
    refine h.release hc fun c' hc' => ?_
    rw [wp_pure]
    exact hQ c' hc'

/-- The rule of the loop of `inode_read`. -/
theorem wp_inodeReadLoop {stop n i : ℕ} (h : Opened sb σ p e s) (hs : Filled sb σ e)
    (hstop : stop ≤ e.numBytes.toNat) (hn : stop - i ≤ n) {Q : List UInt8 → FsState → Prop}
    {E : Stop → FsState → Prop} (hQ : ∀ c, Opened sb σ p e { s with cache := c } →
      Q (fileBytes σ e i (stop - i)) { s with cache := c }) :
    wp (inodeReadLoop sb p stop n i) Q E s := by
  induction n generalizing i s Q with
  | zero =>
    have h0 := hQ s.cache h
    rw [show stop - i = 0 by omega] at h0
    exact wp_pure.mpr h0
  | succ n ih =>
    unfold inodeReadLoop
    refine wp.ite (fun hi => ?_) fun hi => ?_
    · have hk : i / blockSize * blockSize < e.numBytes.toNat := by
        have := Nat.div_mul_le_self i blockSize
        omega
      simp only [wp_bind, wp_pure]
      refine wp_inodeMap h hs hk fun c1 h1 => ?_
      refine h1.fetch (hs.block _ hk).2 fun c2 h2 => ?_
      refine h1.release h2 fun c3 h3 => ih h3 (by unfold blockSize; omega) fun c4 h4 => ?_
      have hread := hQ c4 h4
      rw [fileBytes_block (by omega)] at hread
      exact hread
    · have h0 := hQ s.cache h
      rw [show stop - i = 0 by omega] at h0
      exact wp_pure.mpr h0

/-- The rule of `inode_read`, from an offset that is not behind the end of the file. -/
theorem wp_inodeRead {offset count : ℕ} (h : Opened sb σ p e s) (hs : Filled sb σ e)
    (ht : e.type ≠ inodeDevice) (hoff : offset ≤ e.numBytes.toNat)
    (hcount : offset + count < 2 ^ 64) {Q : List UInt8 → FsState → Prop}
    {E : Stop → FsState → Prop} (hQ : ∀ c, Opened sb σ p e { s with cache := c } →
      Q (fileBytes σ e offset (min count (e.numBytes.toNat - offset))) { s with cache := c }) :
    wp (inodeRead sb p offset count) Q E s := by
  obtain ⟨i, hi, he⟩ := h.entry
  have hsize := e.numBytes.toNat_lt
  unfold inodeRead
  rw [wp_bind, wp_deref hi, he, if_neg ht]
  dsimp only
  have hcnt : (if usize (count + offset) > e.numBytes.toNat
      then usize (e.numBytes.toNat + 2 ^ 64 - offset) else count) =
      min count (e.numBytes.toNat - offset) := by
    unfold usize
    split_ifs <;> omega
  have hstop : usize (offset + min count (e.numBytes.toNat - offset)) =
      offset + min count (e.numBytes.toNat - offset) := by
    unfold usize
    omega
  rw [hcnt, hstop, if_pos ⟨hoff, by omega, by omega⟩]
  refine wp_inodeReadLoop h hs (by omega) le_rfl fun c hc => ?_
  rw [Nat.add_sub_cancel_left]
  exact hQ c hc

/-- From an offset behind the end `inode_read` does not come back. -/
theorem wp_inodeRead_beyond {offset count : ℕ} (h : Opened sb σ p e s) (ht : e.type = inodeRegular)
    (hoff : e.numBytes.toNat < offset) {Q : List UInt8 → FsState → Prop}
    {E : Stop → FsState → Prop} (hE : E .assertion s) : wp (inodeRead sb p offset count) Q E s := by
  obtain ⟨i, hi, he⟩ := h.entry
  unfold inodeRead
  rw [wp_bind, wp_deref hi, he, if_neg (by rw [ht]; decide)]
  dsimp only
  rw [if_neg fun hc => absurd hc.1 (not_le.mpr hoff)]
  exact wp_throw.mpr hE

end ShikiOS.Fs.Inodes
