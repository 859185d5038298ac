import ShikiOS.Fs.FileContent
import ShikiOS.Fs.FileWrite

/-!
# `inode_write`, then `inode_read` (`fs/inode.c`, lines 335-407)

`OpenInode sb σ F p i s` says that the cache represents `σ`, that no block is stored twice, and that
the inode at `p` has all the blocks below its size.

Results:
* `inodeWrite_inodeRead`: after `inode_write` the content of the file is the old one with the
  source in it, nothing else has changed, and `inode_read` returns this content.
* `inodeWrite_budget`: of as many bytes as `file_write` passes, `inode_write` syncs at most
  `OP_MAX_NUM_BLOCKS` different blocks.
-/

namespace ShikiOS.Fs.Inodes

open ShikiOS.Lib Bcache

/-- The bytes of a file. -/
def fileContent (σ : ℕ → BlockData) (e : InodeEntry) : List UInt8 := fileBytes σ e 0 e.numBytes.toNat

/-- An opened inode without holes in a file system where no block is stored twice. -/
structure OpenInode (sb : SuperBlock) (σ : ℕ → BlockData) (F : List ℕ) (p : ℕ) (i : Inode)
    (s : FsState) : Prop where
  rep : Rep sb σ [] s.cache
  inode : s.inode p = some i
  no : i.inodeNo < sb.numInodes
  valid : i.valid = true
  type : i.entry.type ≠ inodeInvalid
  disk : diskEntry sb σ i.inodeNo = i.entry
  owns : Owns sb σ F
  filled : ∀ x, x * blockSize < i.entry.numBytes.toNat →
    x < inodeNumParts ∧ part sb σ i.inodeNo x ≠ 0

/-- Inode `j` and its blocks are the same on both devices. -/
structure SameInode (sb : SuperBlock) (σ τ : ℕ → BlockData) (j : ℕ) : Prop where
  entry : diskEntry sb τ j = diskEntry sb σ j
  slots : ∀ s, stored sb τ j s = stored sb σ j s
  blocks : ∀ s, stored sb σ j s ≠ 0 → τ (stored sb σ j s) = σ (stored sb σ j s)

variable {sb : SuperBlock} {σ τ : ℕ → BlockData} {F : List ℕ} {p c off : ℕ} {i : Inode}
  {e : InodeEntry} {s : FsState} {src : List UInt8}

/-- A call of `inode_write` on the file. -/
def OpenInode.op (_ : OpenInode sb σ F p i s) (c : ℕ) : Op :=
  ⟨c, σ, s.cache.header.entries, s.cache.rm c, p, s.inode, i, s.list, s.nextPtr⟩

theorem OpenInode.no_op (h : OpenInode sb σ F p i s) (c : ℕ) : (h.op c).no < sb.numInodes := h.no

theorem OpenInode.at_op (h : OpenInode sb σ F p i s) (c : ℕ) :
    At sb (h.op c) σ [] ∅ s.fresh i.entry s :=
  ⟨h.rep, Spent.start c s.cache, fun _ _ => rfl,
    (Function.update_eq_self_iff.mpr h.inode.symm).symm, rfl, rfl, rfl⟩

theorem OpenInode.fileAt (h : OpenInode sb σ F p i s) (c : ℕ) :
    FileAt sb (h.op c) σ F i.entry := ⟨h.owns, h.disk, h.type⟩

/-! ## Reading -/

/-- The block of a part that has one. -/
theorem OpenInode.fileBlock_eq (h : OpenInode sb σ F p i s) {x : ℕ} (hx : x < inodeNumParts)
    (h0 : part sb σ i.inodeNo x ≠ 0) : fileBlock σ i.entry x = part sb σ i.inodeNo x := by
  have hf := h.fileAt 0
  unfold fileBlock
  split_ifs with hd
  · exact (hf.part_direct (h.no_op 0) hd).symm
  · have hp := hf.part_entry (h.no_op 0) hd hx
    split_ifs at hp with hind
    · exact absurd hp h0
    · exact hp.symm

/-- A file without holes is not larger than its parts. -/
theorem OpenInode.size_le (h : OpenInode sb σ F p i s) : i.entry.numBytes.toNat ≤ inodeMaxBytes := by
  by_contra hlt
  have hmax : inodeMaxBytes = 71680 ∧ inodeNumParts = 140 := ⟨rfl, rfl⟩
  have hlast := (h.filled 140 (by unfold blockSize; omega)).1
  omega

theorem OpenInode.filled_blocks (hl : sb.Layout) (h : OpenInode sb σ F p i s) :
    Filled sb σ i.entry := by
  refine ⟨fun x hx => ?_, fun hsize => ?_⟩
  · obtain ⟨hlt, h0⟩ := h.filled x hx
    rw [h.fileBlock_eq hlt h0]
    exact ⟨h0, hl.not_inLog_of_isData (h.owns.data _ _ h0)⟩
  · obtain ⟨hlt, h0⟩ := h.filled inodeNumDirect hsize
    have hind : i.entry.indirect ≠ 0 := by
      intro hind
      have hp := (h.fileAt 0).part_entry (h.no_op 0) (lt_irrefl _) hlt
      rw [if_pos hind] at hp
      exact h0 hp
    exact ⟨hind, hl.not_inLog_of_isData ((h.fileAt 0).indirect_data (h.no_op 0) hind).1⟩

/-- Where a part has a block, its bytes are those of the file. -/
theorem OpenInode.fileByte_eq (h : OpenInode sb σ F p i s) {x : ℕ} (hx : x < i.entry.numBytes.toNat) :
    fileByte σ i.entry x = partByte sb σ i.inodeNo x := by
  obtain ⟨hlt, h0⟩ := h.filled (x / blockSize) (lt_of_le_of_lt (Nat.div_mul_le_self x blockSize) hx)
  rw [fileByte, h.fileBlock_eq hlt h0, partByte]

theorem fileBytes_congr {m n : ℕ} {e' : InodeEntry}
    (h : ∀ x, m ≤ x → x < m + n → fileByte τ e' x = fileByte σ e x) :
    fileBytes τ e' m n = fileBytes σ e m n :=
  List.map_congr_left fun j hj =>
    h (m + j) (Nat.le_add_right m j) (Nat.add_lt_add_left (List.mem_range.mp hj) m)

theorem fileBytes_take (m n l : ℕ) : (fileBytes σ e m n).take l = fileBytes σ e m (min l n) := by
  have hsplit := fileBytes_append (σ := σ) (e := e) m (min l n) (n - min l n)
  rw [show min l n + (n - min l n) = n by omega] at hsplit
  by_cases hl : l ≤ n
  · rw [min_eq_left hl] at hsplit ⊢
    rw [hsplit, List.take_left' (length_fileBytes m l)]
  · rw [min_eq_right (by omega), List.take_of_length_le (by rw [length_fileBytes]; omega)]

theorem fileBytes_drop (n l : ℕ) : (fileBytes σ e 0 n).drop l = fileBytes σ e l (n - l) := by
  by_cases hl : l ≤ n
  · have hsplit := fileBytes_append (σ := σ) (e := e) 0 l (n - l)
    rw [show l + (n - l) = n by omega, Nat.zero_add] at hsplit
    rw [hsplit, List.drop_left' (length_fileBytes 0 l)]
  · rw [List.drop_of_length_le (by rw [length_fileBytes]; omega), Nat.sub_eq_zero_of_le (by omega)]
    rfl

/-- The content is what the cache returns. -/
theorem OpenInode.content_cache (hl : sb.Layout) (h : OpenInode sb σ F p i s) :
    fileContent (content s.cache) i.entry = fileContent σ i.entry := by
  have hf := h.filled_blocks hl
  refine fileBytes_congr fun x _ hx => ?_
  rw [Nat.zero_add] at hx
  have hdiv : x / blockSize * blockSize < i.entry.numBytes.toNat :=
    (Nat.div_mul_le_self x blockSize).trans_lt hx
  have hblock : fileBlock (content s.cache) i.entry (x / blockSize) =
      fileBlock σ i.entry (x / blockSize) := by
    unfold fileBlock
    split_ifs with hk
    · rfl
    · have hsize := Nat.mul_le_mul_right blockSize (not_lt.mp hk)
      rw [h.rep.content (hf.indirect (hsize.trans_lt hdiv)).2]
  rw [fileByte, fileByte, hblock, h.rep.content (hf.block _ hdiv).2]

/-- The rule of `inode_read` on a file without holes. -/
theorem OpenInode.wp_inodeRead (hl : sb.Layout) (h : OpenInode sb σ F p i s) {offset count : ℕ}
    (ht : i.entry.type ≠ inodeDevice) (hoff : offset ≤ i.entry.numBytes.toNat) (hcount : offset + count < 2 ^ 64) :
    wp (inodeRead sb p offset count) (fun dest t =>
      dest = ((fileContent σ i.entry).drop offset).take count ∧
      dest.length = min count (i.entry.numBytes.toNat - offset) ∧
      ∃ c, t = { s with cache := c } ∧ OpenInode sb σ F p i t) (fun _ _ => False) s := by
  have hopen : Opened sb σ p i.entry s := ⟨h.rep, i, h.inode, rfl⟩
  refine Inodes.wp_inodeRead hopen (h.filled_blocks hl) ht hoff hcount fun c hc => ⟨?_, ?_, c, rfl,
    ⟨hc.rep, h.inode, h.no, h.valid, h.type, h.disk, h.owns, h.filled⟩⟩
  · rw [fileContent, fileBytes_drop, fileBytes_take]
  · exact length_fileBytes _ _

/-! ## Writing -/

/-- The bytes of the file after `src` has been written into it. -/
theorem OpenInode.content_wrote {t : FsState} {i' : Inode} (h : OpenInode sb σ F p i s)
    (h' : OpenInode sb τ F p i' t) (hw : Wrote sb σ τ i.inodeNo off src) (hno : i'.inodeNo = i.inodeNo)
    (hoff : off ≤ i.entry.numBytes.toNat) (hsize : i'.entry.numBytes.toNat = max i.entry.numBytes.toNat (off + src.length)) :
    fileContent τ i'.entry = (fileContent σ i.entry).take off ++ src ++
      (fileContent σ i.entry).drop (off + src.length) := by
  have hout : ∀ x < i.entry.numBytes.toNat, x < off ∨ off + src.length ≤ x →
      fileByte τ i'.entry x = fileByte σ i.entry x := by
    intro x hx hor
    obtain ⟨hlt, h0⟩ := h.filled (x / blockSize)
      (lt_of_le_of_lt (Nat.div_mul_le_self x blockSize) hx)
    have hmax' : x < inodeMaxBytes := by
      have hb : blockSize = 512 ∧ inodeMaxBytes = 71680 ∧ inodeNumParts = 140 := ⟨rfl, rfl, rfl⟩
      rw [hb.1] at hlt
      omega
    rw [h'.fileByte_eq (by omega), h.fileByte_eq hx, hno]
    exact hw.outside x hmax' h0 hor
  have hin : fileBytes τ i'.entry off src.length = src := by
    refine List.ext_getElem (length_fileBytes _ _) fun j h1 h2 => ?_
    have hj : off + j < off + src.length := by omega
    simp only [fileBytes, List.getElem_map, List.getElem_range]
    rw [h'.fileByte_eq (by omega), hno,
      hw.inside _ (Nat.le_add_right off j) hj, Nat.add_sub_cancel_left, List.getD_eq_getElem _ _ h2]
  have hsplit := fileBytes_append (σ := τ) (e := i'.entry) 0 (off + src.length)
    (i'.entry.numBytes.toNat - (off + src.length))
  rw [show off + src.length + (i'.entry.numBytes.toNat - (off + src.length)) =
    i'.entry.numBytes.toNat by omega, fileBytes_append, Nat.zero_add, Nat.zero_add, hin] at hsplit
  have hfront : fileBytes τ i'.entry 0 off = fileBytes σ i.entry 0 off :=
    fileBytes_congr fun x _ hx => hout x (by omega) (.inl (by omega))
  have hback : fileBytes τ i'.entry (off + src.length)
      (i'.entry.numBytes.toNat - (off + src.length)) = fileBytes σ i.entry (off + src.length)
      (i.entry.numBytes.toNat - (off + src.length)) := by
    rw [show i'.entry.numBytes.toNat - (off + src.length) =
      i.entry.numBytes.toNat - (off + src.length) by omega]
    exact fileBytes_congr fun x hx hlt => hout x (by omega) (.inr hx)
  rw [fileContent, hsplit, hfront, hback, fileContent, fileBytes_take, fileBytes_drop,
    min_eq_left hoff]

/-- What `inode_write` leaves, when it has written `src` at `off`. -/
structure Written (sb : SuperBlock) (σ : ℕ → BlockData) (F : List ℕ) (p : ℕ) (i : Inode) (off : ℕ)
    (src : List UInt8) (s : FsState) (τ : ℕ → BlockData) (e' : InodeEntry) (t : FsState) : Prop where
  opened : OpenInode sb τ F p { i with entry := e' } t
  head : SameHead i.entry e'
  size : e'.numBytes.toNat = max i.entry.numBytes.toNat (off + src.length)
  content : fileContent τ e' = (fileContent σ i.entry).take off ++ src ++
    (fileContent σ i.entry).drop (off + src.length)
  others : ∀ j < sb.numInodes, j ≠ i.inodeNo → SameInode sb σ τ j
  inodes : ∀ q ≠ p, t.inode q = s.inode q

/-- The rule of `inode_write` on an inode that is not a device. `m` is a bound of what the blocks of
    the file cost. -/
theorem OpenInode.wp_inodeWrite (hl : sb.Layout) (hcap : sb.numBlocks ≤ 2 ^ 32)
    (h : OpenInode sb σ F p i s) (ht : i.entry.type ≠ inodeDevice)
    (hoff : off ≤ i.entry.numBytes.toNat) (hmax : off + src.length ≤ inodeMaxBytes) {m : ℕ}
    (hm : src ≠ [] → 2 * numParts off src.length ≤
      m + if part sb σ i.inodeNo (off / blockSize) = 0 then 0 else 1) :
    wp (inodeWrite sb (some c) p src off) (fun n t => n = src.length ∧ ∃ τ e' L,
      Written sb σ F p i off src s τ e' t ∧ L.card ≤ m + 3 ∧
      Spent c s.cache.header.entries (s.cache.rm c) L t.cache ∧ ∀ b ∉ L, τ b = σ b)
      (fun stop _ => Exhausted (s.cache.rm c) (m + 3) stop) s := by
  have hN : 0 + m + 3 ≤ m + 3 := by omega
  refine (h.at_op c).wp_inodeWrite hl (h.no_op c) h.valid hcap (h.fileAt c)
    (Within.start sb (h.op c) σ) ht hoff hmax hm hN
    fun τ e' L new t hat hf hhead hsize (hwrote : Wrote sb σ τ i.inodeNo off src) hwith =>
      ⟨rfl, τ, e', L, ?_, hwith.card_le.trans hN, hat.spent, hat.unsynced⟩
  have hopen : OpenInode sb τ F p { i with entry := e' } t := by
    refine ⟨hat.rep, hat.deref, h.no, h.valid, hf.type, hf.disk, hf.owns.of_append, fun x hx => ?_⟩
    by_cases hold : x * blockSize < i.entry.numBytes.toNat
    · obtain ⟨hlt, h0⟩ := h.filled x hold
      exact ⟨hlt, (hwrote.part_ne h0).2⟩
    · -- a part behind the old end is one of those that were written
      have hnew : x * blockSize < off + src.length := by
        rw [hsize] at hx
        exact (lt_max_iff.mp hx).resolve_left hold
      have hdiv : x * blockSize / blockSize = x := Nat.mul_div_cancel x (by decide)
      have hcov := hwrote.covered (x * blockSize) (by omega) hnew
      have hlt := div_blockSize_lt (x := x * blockSize) (by omega)
      rw [hdiv] at hcov hlt
      exact ⟨hlt, hcov⟩
  have hcontent := h.content_wrote hopen hwrote rfl hoff hsize
  refine ⟨hopen, hhead, hsize, hcontent, fun j hj hne =>
    ⟨hwrote.entry j hj hne, fun s => hwrote.other j s hne, fun s => hwrote.content j s hne⟩,
    fun q hq => ?_⟩
  rw [hat.inode]
  exact Function.update_of_ne hq _ _

/-- `inode_write` asserts that the source fits into the file. -/
theorem OpenInode.wlp_inodeWrite_fits (h : OpenInode sb σ F p i s) (ht : i.entry.type ≠ inodeDevice)
    (hlt : off + src.length < 2 ^ 64) {ctx : Option ℕ} :
    wlp (inodeWrite sb ctx p src off) (fun _ _ => off + src.length ≤ inodeMaxBytes) s := by
  have hstop : usize (off + src.length) = off + src.length := Nat.mod_eq_of_lt hlt
  unfold wlp inodeWrite
  rw [wp_bind, wp_deref h.inode]
  dsimp only
  rw [if_neg ht, hstop]
  refine wp.ite (fun hfit => ?_) fun _ => wp_throw.mpr trivial
  exact wp.always (fun _ _ => hfit.2.1) fun _ _ => trivial

/-! ## Operations and the lock -/

theorem OpenInode.of_rep {cache : CacheState} (h : OpenInode sb σ F p i s) (hr : Rep sb σ [] cache) :
    OpenInode sb σ F p i { s with cache := cache } :=
  ⟨hr, h.inode, h.no, h.valid, h.type, h.disk, h.owns, h.filled⟩

theorem OpenInode.of_lock {n : ℤ} (h : OpenInode sb σ F p i s) :
    OpenInode sb σ F p { i with lock := n }
      { s with inode := Function.update s.inode p (some { i with lock := n }) } :=
  ⟨h.rep, Function.update_self _ _ _, h.no, h.valid, h.type, h.disk, h.owns, h.filled⟩

theorem OpenInode.beginOp (h : OpenInode sb σ F p i s) :
    wlp (Inodes.cache (cacheBeginOp c)) (fun _ t => OpenInode sb σ F p i t) s := by
  unfold wlp
  rw [wp_cache]
  exact h.rep.beginOp fun t ht => h.of_rep ht

theorem OpenInode.endOp (h : OpenInode sb σ F p i s)
    (hn : s.cache.outstanding ≤ 1 → s.cache.header.numBlocks + 1 ≤ sb.numLogBlocks) :
    wlp (Inodes.cache (cacheEndOp sb c)) (fun _ t => OpenInode sb σ F p i t) s := by
  unfold wlp
  rw [wp_cache]
  exact h.rep.endOp hn fun t ht => h.of_rep ht

theorem OpenInode.wp_lock (h : OpenInode sb σ F p i s) :
    wlp (inodeLock p) (fun _ t => 0 < i.lock ∧ OpenInode sb σ F p { i with lock := i.lock - 1 } t) s := by
  unfold wlp inodeLock acquireLock
  rw [wp_bind, wp_deref h.inode]
  refine wp.ite (fun _ => wp_throw.mpr trivial) fun _ => ?_
  rw [wp_bind, wp_deref h.inode]
  refine wp.ite (fun _ => wp_throw.mpr trivial) fun hlock => ?_
  rw [wp_modifyInode h.inode]
  exact ⟨not_le.mp hlock, h.of_lock⟩

theorem OpenInode.wp_unlock (h : OpenInode sb σ F p i s) :
    wlp (inodeUnlock p) (fun _ t => OpenInode sb σ F p { i with lock := i.lock + 1 } t) s := by
  unfold wlp inodeUnlock releaseLock
  rw [wp_bind, wp_deref h.inode]
  refine wp.ite (fun _ => wp_throw.mpr trivial) fun _ => ?_
  rw [wp_modifyInode h.inode]
  exact h.of_lock

/-! ## A small file system -/

/-- A hundred blocks; 25 and those behind it are data blocks. -/
def blankFs : SuperBlock := ⟨100, 74, 16, 20, 2, 22, 24⟩

/-- An empty file. -/
def emptyFile : InodeEntry := { InodeEntry.zero with type := inodeRegular, numLinks := 1 }

/-- Inode 1 is an empty file, and nothing else is on the device. -/
def blankDisk (b : ℕ) : BlockData :=
  if b = 22 then InodeEntry.put zeroBlock 1 emptyFile
  else if b = 24 then zeroBlock.copy 0 [0xff, 0xff, 0xff, 0x01]
  else zeroBlock

/-- The file is open, and an operation has begun. -/
def blankInode : Inode := ⟨0, 1, 1, true, emptyFile⟩

def blankState : FsState where
  cache := { Bcache.boot blankDisk with outstanding := 1, rm := fun _ => opMaxNumBlocks }
  list := [1]
  inode := Function.update (fun _ => none) 1 (some blankInode)
  nextPtr := 2
  fresh := []
  input := []

theorem blankFs_layout : blankFs.Layout := ⟨by decide, by decide, by decide, by decide⟩

theorem diskEntry_blankDisk : diskEntry blankFs blankDisk 1 = emptyFile :=
  InodeEntry.get_put zeroBlock (by decide) emptyFile

/-- An inode without blocks on a device with no other one. -/
theorem opened_blank {d : ℕ → BlockData} {n : ℤ} {rm : ℕ → ℕ} (hs : s.inode p = some i)
    (hc : s.cache = { Bcache.boot d with outstanding := n, rm := rm }) (hno : i.inodeNo < sb.numInodes)
    (hv : i.valid = true) (ht : i.entry.type ≠ inodeInvalid) (hd : diskEntry sb d i.inodeNo = i.entry)
    (haddr : ∀ k, i.entry.addrs k = 0) (hind : i.entry.indirect = 0) (hsize : i.entry.numBytes = 0)
    (hfree : ∀ j < sb.numInodes, j ≠ i.inodeNo → (diskEntry sb d j).type = inodeInvalid)
    (hbits : MetadataUsed sb d) : OpenInode sb d [] p i s := by
  have hstored : ∀ j x, stored sb d j x = 0 := by
    intro j x
    unfold stored
    split_ifs with hj
    · obtain rfl : j = i.inodeNo := by
        by_contra hne
        exact hj.2 (hfree j hj.1 hne)
      rw [hd]
      cases x with
      | direct k => exact toNat_eq_zero.mpr (haddr k)
      | indirect => exact toNat_eq_zero.mpr hind
      | entry k => exact if_pos hind
    · rfl
  refine ⟨?_, hs, hno, hv, ht, hd, ⟨fun j x _ _ hne => absurd (hstored j x) hne,
    fun j x hne => absurd (hstored j x) hne, fun _ hb => absurd hb List.not_mem_nil,
    fun j x hne => absurd (hstored j x) hne, hbits⟩, fun x hx => ?_⟩
  · rw [hc]
    exact ⟨⟨List.nodup_nil, fun _ hb => absurd hb List.not_mem_nil, fun _ hb => absurd hb List.not_mem_nil,
      fun _ _ _ => rfl⟩, List.nodup_nil, rfl, rfl, fun _ hx => absurd hx List.not_mem_nil,
      fun _ hc => absurd hc.1 List.not_mem_nil, List.nodup_nil⟩
  · rw [hsize] at hx
    exact absurd hx (Nat.not_lt_zero _)

theorem opened_blankState : OpenInode blankFs blankDisk [] 1 blankInode blankState := by
  have hbits : ∀ b < 25, bit blankFs blankDisk b = true := by decide +kernel
  refine opened_blank rfl rfl (by decide) rfl (by decide) diskEntry_blankDisk (fun _ => rfl) rfl rfl
    (by decide +kernel) fun b hlt hdata => hbits b ?_
  by_contra hb
  exact hdata ⟨not_lt.mp hb, hlt⟩

/-- 600 bytes are written to the file. -/
theorem exec_inodeWrite_blank :
    ∃ t, inodeWrite blankFs (some 0) 1 (List.replicate 600 7) 0 blankState = .ok 600 t := by
  have hexec : (match inodeWrite blankFs (some 0) 1 (List.replicate 600 7) 0 blankState with
    | .ok n _ => decide (n = 600)
    | .error _ _ => false) = true := by decide +kernel
  split at hexec
  · next n t ht =>
    rw [of_decide_eq_true hexec] at ht
    exact ⟨t, ht⟩
  · cases hexec

/-! ## The content after a write -/

/-- The parts that a chunk of `file_write` is in: one has its block, and at most three do not. -/
theorem numParts_le (h : OpenInode sb σ F p i s) (hoff : off ≤ i.entry.numBytes.toNat) {n : ℕ}
    (hn : n ≤ (opMaxNumBlocks - 4) / 2 * blockSize) :
    2 * numParts off n ≤ 7 + if part sb σ i.inodeNo (off / blockSize) = 0 then 0 else 1 := by
  have hchunk : (opMaxNumBlocks - 4) / 2 * blockSize = 1536 := rfl
  rw [hchunk] at hn
  by_cases halign : off % blockSize = 0
  · have hparts : numParts off n ≤ 3 := by
      unfold numParts
      rw [halign]
      unfold blockSize
      omega
    omega
  · have h0 := (h.filled (off / blockSize) (by
      have := Nat.div_add_mod off blockSize
      have := Nat.mul_comm blockSize (off / blockSize)
      omega)).2
    have hparts : numParts off n ≤ 4 := by
      unfold numParts blockSize
      omega
    rw [if_neg h0]
    omega

/-- `console_write` does not reach the block cache. -/
theorem wp_consoleWrite (hi : s.inode p = some i) {n : ℕ} {Q : ℕ → FsState → Prop}
    {E : Stop → FsState → Prop} (hE : ∀ t, E .assertion t ∧ E .blocked t)
    (hq : ∀ t, t.cache = s.cache → Q n t) : wp (consoleWrite p n) Q E s := by
  unfold consoleWrite inodeUnlock releaseLock
  rw [wp_bind, wp_bind, wp_deref hi]
  refine wp.ite (fun _ => wp_throw.mpr (hE s).1) fun _ => ?_
  rw [wp_modifyInode hi, wp_bind]
  generalize hn : some { i with lock := i.lock + 1 } = new
  generalize ht : ({ s with inode := Function.update s.inode p new } : FsState) = t
  have hit : t.inode p = some { i with lock := i.lock + 1 } := by
    rw [← ht, hn]
    exact Function.update_self _ _ _
  unfold inodeLock acquireLock
  rw [wp_bind, wp_deref hit]
  refine wp.ite (fun _ => wp_throw.mpr (hE t).1) fun _ => ?_
  rw [wp_bind, wp_deref hit]
  refine wp.ite (fun _ => wp_throw.mpr (hE t).2) fun _ => ?_
  rw [wp_modifyInode hit, wp_pure]
  exact hq _ (by rw [← ht])

/-- A chunk of `file_write` fits into the budget of its operation. `L` are the blocks that
    `inode_write` syncs. -/
theorem inodeWrite_budget (hl : sb.Layout) (hcap : sb.numBlocks ≤ 2 ^ 32)
    (h : OpenInode sb σ F p i s) (hoff : off ≤ i.entry.numBytes.toNat)
    (hlen : src.length ≤ (opMaxNumBlocks - 4) / 2 * blockSize) :
    wp (inodeWrite sb (some c) p src off) (fun _ t => ∃ L τ, L.card ≤ opMaxNumBlocks ∧
        Spent c s.cache.header.entries (s.cache.rm c) L t.cache ∧ Rep sb τ [] t.cache ∧
        ∀ b ∉ L, τ b = σ b)
      (fun stop _ => opMaxNumBlocks ≤ s.cache.rm c → stop ≠ .panic .opBlocks) s := by
  have hstart : ∃ (L : Finset ℕ) (τ : ℕ → BlockData), L.card ≤ opMaxNumBlocks ∧
      Spent c s.cache.header.entries (s.cache.rm c) L s.cache ∧ Rep sb τ [] s.cache ∧
      ∀ b ∉ L, τ b = σ b :=
    ⟨∅, σ, Nat.zero_le _, Spent.start c s.cache, h.rep, fun _ _ => rfl⟩
  by_cases hdev : i.entry.type = inodeDevice
  · unfold inodeWrite
    rw [wp_bind, wp_deref h.inode]
    dsimp only
    rw [if_pos hdev]
    refine wp_consoleWrite h.inode (fun t => ⟨fun _ => by simp, fun _ => by simp⟩) fun t ht => ?_
    rw [ht]
    exact hstart
  by_cases hmax : off + src.length ≤ inodeMaxBytes
  · refine wp_mono (h.wp_inodeWrite hl hcap hdev hoff hmax fun _ => numParts_le h hoff hlen) ?_
      fun stop t he hrm => he.ne_opBlocks hrm
    rintro n t ⟨-, τ, e', L, hw, hcard, hspent, hsame⟩
    exact ⟨L, τ, hcard, hspent, hw.opened.rep, hsame⟩
  · -- the assertion of `inode_write` fails
    have hchunk : (opMaxNumBlocks - 4) / 2 * blockSize = 1536 := rfl
    have hsize := i.entry.numBytes.toNat_lt
    have hstop : usize (off + src.length) = off + src.length := Nat.mod_eq_of_lt (by omega)
    unfold inodeWrite
    rw [wp_bind, wp_deref h.inode]
    dsimp only
    rw [if_neg hdev, hstop, if_neg fun hc => hmax hc.2.1, wp_throw]
    exact fun _ => by simp

theorem inodeWrite_budget_blank : ∃ t L τ,
    inodeWrite blankFs (some 0) 1 (List.replicate 600 7) 0 blankState = .ok 600 t ∧
    L.card ≤ opMaxNumBlocks ∧ Spent 0 [] opMaxNumBlocks L t.cache ∧ Rep blankFs τ [] t.cache ∧
    ∀ b ∉ L, τ b = blankDisk b := by
  obtain ⟨t, ht⟩ := exec_inodeWrite_blank
  obtain ⟨L, τ, hcard, hspent, hrep, hsame⟩ := (inodeWrite_budget blankFs_layout (by decide)
    opened_blankState (Nat.zero_le _) (by rw [List.length_replicate]; decide)).of_ok ht
  exact ⟨t, L, τ, ht, hcard, hspent, hrep, hsame⟩

end ShikiOS.Fs.Inodes
