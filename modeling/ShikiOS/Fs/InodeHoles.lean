import ShikiOS.Fs.FileReadWrite

/-!
# Holes behind the indirect block (`fs/inode.c`, lines 285-407)

Without a context `inode_map` returns 0 for a part of a file that has no block. Line 321 does so
without `cache->release`, where the indirect block has been acquired before: such a part is a
`Hole`.

Results:
* `KeepsBlock`: a block that is held when a call begins is still held when the call ends or stops.
* `wp_inodeMap_none`, `wp_inodeRead_none`, `wp_inodeWrite_none`: without a context these end with
  no block held if they meet no hole, and with the indirect block held otherwise.
-/

namespace ShikiOS.Fs

open ShikiOS.Lib

namespace Bcache

/-! ## A block that is held stays held -/

section Keeps

variable {α : Type} {s : CacheState} {b c : ℕ}

/-- Whoever acquires a block gets another one than `b`. -/
theorem wp_acquire_held (hs : Held s b) :
    wp (cacheAcquire c) (fun _ t => c ≠ b ∧ Held t b) (fun _ t => Held t b) s := by
  rw [wp_cacheAcquire]
  split_ifs with hc
  · exact hs
  · refine ⟨?_, (held_acquire hc).mpr (.inr hs)⟩
    rintro rfl
    exact hc hs

theorem keeps_acquire {f : Unit → M α} (hf : c ≠ b → Preserves (Held · b) (f ())) :
    Preserves (Held · b) (cacheAcquire c >>= f) :=
  fun _ hs => wp_bind.mpr ((wp_acquire_held hs).imp fun _ t ht => hf ht.1 t ht.2)

theorem keeps_release (hc : c ≠ b) : Preserves (Held · b) (cacheRelease c) :=
  fun _ hs => wp_cacheRelease.mpr (held_release.mpr ⟨hc.symm, hs⟩)

theorem keeps_read : Preserves (Held · b) (readBlock c) := fun _ hs => wp_readBlock.mpr hs

theorem keeps_write {d : BlockData} : Preserves (Held · b) (writeBlock c d) := fun s hs =>
  wp_writeBlock.mpr ((held_setBlock (k := { s.block c with data := d }) rfl).mpr hs)

theorem keeps_sync {ctx : Option ℕ} {o : Origin} : Preserves (Held · b) (cacheSync ctx c o) := by
  intro s hs
  cases ctx with
  | none =>
    rw [wp_cacheSync_none]
    exact hs
  | some x =>
    have hpin := (held_setBlock (k := { s.block c with pinned := true }) rfl).mpr hs
    rw [wp_cacheSync_some]
    split
    · exact hpin
    · exact hpin

theorem keeps_cacheAllocFrom {sb : SuperBlock} {ctx : Option ℕ} {n i : ℕ} :
    Preserves (Held · b) (cacheAllocFrom sb ctx n i) := by
  induction n generalizing i with
  | zero => exact preserves_throw _
  | succ n ih =>
    unfold cacheAllocFrom
    refine keeps_acquire fun hne => keeps_read.bind fun d => ?_
    split
    · next k _ =>
      refine keeps_write.bind fun _ => keeps_sync.bind fun _ => (keeps_release hne).bind fun _ => ?_
      refine keeps_acquire fun hne' => keeps_write.bind fun _ => keeps_sync.bind fun _ => ?_
      exact (keeps_release hne').bind fun _ => preserves_pure _
    · exact (keeps_release hne).bind fun _ => ih

end Keeps

end Bcache

namespace Inodes

open Bcache hiding M

section KeepsBlock

variable {α : Type} {sb : SuperBlock} {ctx : Option ℕ} {b c p n i stop : ℕ}

/-- The block `b` stays held. -/
abbrev KeepsBlock (b : ℕ) (x : M α) : Prop := Preserves (fun s => Held s.cache b) x

theorem KeepsBlock.of_cache {x : Bcache.M α} (h : Preserves (Held · b) x) : KeepsBlock b (cache x) :=
  h.zoom fun _ _ => rfl

theorem keepsBlock_acquire {f : Unit → M α} (hf : c ≠ b → KeepsBlock b (f ())) :
    KeepsBlock b (cache (cacheAcquire c) >>= f) := by
  intro s hs
  rw [wp_bind, wp_cache]
  exact (wp_acquire_held hs).imp fun _ c' hc => hf hc.1 _ hc.2

theorem keepsBlock_release (hc : c ≠ b) : KeepsBlock b (cache (cacheRelease c)) :=
  .of_cache (keeps_release hc)

theorem keepsBlock_read : KeepsBlock b (cache (readBlock c)) := .of_cache keeps_read

/-- A block that is written, synced and released. -/
theorem keepsBlock_put {d : BlockData} (hc : c ≠ b) {x : M α} (hx : KeepsBlock b x) :
    KeepsBlock b (do
      cache (writeBlock c d)
      cache (cacheSync ctx c .direct)
      cache (cacheRelease c)
      x) :=
  (KeepsBlock.of_cache keeps_write).bind fun _ => (KeepsBlock.of_cache keeps_sync).bind fun _ =>
    (keepsBlock_release hc).bind fun _ => hx

/-! An invariant that does not look at locks is kept by what does not reach the cache. -/

section Memory

variable {J : FsState → Prop}

/-- `J` does not look at the lock of the inode and at what is typed. -/
structure IgnoresLock (p : ℕ) (J : FsState → Prop) : Prop where
  lock : ∀ s i l, J s → s.inode p = some i →
    J { s with inode := Function.update s.inode p (some { i with lock := l }) }
  input : ∀ s l, J s → J { s with input := l }

theorem preserves_deref : Preserves J (deref p) := by
  unfold deref
  refine preserves_get.bind fun s => ?_
  split
  · exact preserves_pure _
  · exact preserves_throw _

theorem preserves_modifyInode {f : Inode → Inode} (hf : ∀ s i, J s → s.inode p = some i →
    J { s with inode := Function.update s.inode p (some (f i)) }) : Preserves J (modifyInode p f) := by
  intro s hs
  cases hi : s.inode p with
  | none =>
    unfold modifyInode deref
    rw [wp_bind, wp_bind, wp_get, hi]
    exact wp_throw.mpr hs
  | some i => exact (wp_modifyInode hi).mpr (hf s i hs hi)

theorem IgnoresLock.inodeLock (hJ : IgnoresLock p J) : Preserves J (inodeLock p) := by
  unfold Inodes.inodeLock acquireLock
  refine preserves_deref.bind fun _ => .ite (fun _ => preserves_throw _) fun _ => ?_
  refine preserves_deref.bind fun _ => .ite (fun _ => preserves_throw _) fun _ => ?_
  exact preserves_modifyInode fun s i hs hi => hJ.lock s i _ hs hi

theorem IgnoresLock.inodeUnlock (hJ : IgnoresLock p J) : Preserves J (inodeUnlock p) := by
  unfold Inodes.inodeUnlock releaseLock
  refine preserves_deref.bind fun _ => .ite (fun _ => preserves_throw _) fun _ => ?_
  exact preserves_modifyInode fun s i hs hi => hJ.lock s i _ hs hi

theorem IgnoresLock.consoleWrite (hJ : IgnoresLock p J) : Preserves J (consoleWrite p n) := by
  unfold Inodes.consoleWrite
  exact hJ.inodeUnlock.bind fun _ => hJ.inodeLock.bind fun _ => preserves_pure _

theorem IgnoresLock.consoleRead (hJ : IgnoresLock p J) : Preserves J (consoleRead p n) := by
  unfold Inodes.consoleRead
  refine hJ.inodeUnlock.bind fun _ s hs => ?_
  rw [wp_bind, wp_get]
  split
  · exact wp_throw.mpr hs
  · rw [wp_bind, wp_set]
    exact (hJ.inodeLock.bind fun _ => preserves_pure _) _ (hJ.input s _ hs)

end Memory

/-- The blocks that are held have nothing to do with locks. -/
theorem ignoresLock_held : IgnoresLock p fun s => Held s.cache b := ⟨fun _ _ _ hs _ => hs, fun _ _ hs => hs⟩

theorem keepsBlock_modifyInode {f : Inode → Inode} : KeepsBlock b (modifyInode p f) :=
  preserves_modifyInode fun _ _ hs _ => hs

theorem keepsBlock_allocBlock : KeepsBlock b (allocBlock sb ctx) := by
  unfold allocBlock
  refine (KeepsBlock.of_cache keeps_cacheAllocFrom).bind fun c => ?_
  refine .bind (preserves_modify fun s hs => ?_) fun _ => preserves_pure _
  exact hs

theorem keepsBlock_inodeSync {doWrite : Bool} : KeepsBlock b (inodeSync sb ctx p doWrite) := by
  unfold inodeSync
  refine preserves_deref.bind fun i => keepsBlock_acquire fun hne => keepsBlock_read.bind fun d => ?_
  refine .ite (fun _ => ?_) fun _ => ?_
  · refine .ite (fun _ => ?_) fun _ => keepsBlock_release hne
    exact (KeepsBlock.of_cache keeps_write).bind fun _ => (KeepsBlock.of_cache keeps_sync).bind fun _ =>
      keepsBlock_release hne
  · exact keepsBlock_modifyInode.bind fun _ => keepsBlock_release hne

theorem keepsBlock_inodeMapIndirect : KeepsBlock b (inodeMapIndirect sb ctx p i) := by
  unfold inodeMapIndirect
  refine preserves_deref.bind fun o => keepsBlock_acquire fun hne => keepsBlock_read.bind fun d => ?_
  refine .ite (fun _ => ?_) fun _ => (keepsBlock_release hne).bind fun _ => preserves_pure _
  cases ctx with
  | none => exact preserves_pure _
  | some x =>
    exact keepsBlock_allocBlock.bind fun _ => keepsBlock_read.bind fun _ =>
      keepsBlock_put hne (preserves_pure _)

theorem keepsBlock_inodeMap : KeepsBlock b (inodeMap sb ctx p i) := by
  unfold inodeMap
  refine preserves_deref.bind fun o => ?_
  refine .ite (fun _ => .ite (fun _ => preserves_pure _) fun _ => ?_) fun _ => ?_
  · cases ctx with
    | none => exact preserves_pure _
    | some x =>
      exact keepsBlock_allocBlock.bind fun _ => keepsBlock_modifyInode.bind fun _ =>
        keepsBlock_inodeSync.bind fun _ => preserves_pure _
  · refine .ite (fun _ => ?_) fun _ => keepsBlock_inodeMapIndirect
    cases ctx with
    | none => exact preserves_pure _
    | some x =>
      exact keepsBlock_allocBlock.bind fun _ => keepsBlock_modifyInode.bind fun _ =>
        keepsBlock_inodeSync.bind fun _ => keepsBlock_inodeMapIndirect

theorem keepsBlock_inodeReadLoop : KeepsBlock b (inodeReadLoop sb p stop n i) := by
  induction n generalizing i with
  | zero => exact preserves_pure _
  | succ n ih =>
    unfold inodeReadLoop
    refine .ite (fun _ => ?_) fun _ => preserves_pure _
    refine keepsBlock_inodeMap.bind fun c => keepsBlock_acquire fun hne => keepsBlock_read.bind fun d => ?_
    exact (keepsBlock_release hne).bind fun _ => ih.bind fun _ => preserves_pure _

theorem keepsBlock_inodeRead : KeepsBlock b (inodeRead sb p i n) := by
  unfold inodeRead
  refine preserves_deref.bind fun o => .ite (fun _ => ignoresLock_held.consoleRead) fun _ => ?_
  exact .ite (fun _ => keepsBlock_inodeReadLoop) fun _ => preserves_throw _

theorem keepsBlock_growTo : KeepsBlock b (growTo sb ctx p stop) := by
  unfold growTo
  refine preserves_deref.bind fun o => .ite (fun _ => ?_) fun _ => preserves_pure _
  exact keepsBlock_modifyInode.bind fun _ => keepsBlock_inodeSync

theorem keepsBlock_inodeWriteLoop {first : Bool} {src : List UInt8} :
    KeepsBlock b (inodeWriteLoop sb ctx p n first src i) := by
  induction n generalizing first src i with
  | zero => exact preserves_pure _
  | succ n ih =>
    unfold inodeWriteLoop
    refine .ite (fun _ => preserves_pure _) fun _ => ?_
    refine keepsBlock_inodeMap.bind fun c => keepsBlock_acquire fun hne => ?_
    exact keepsBlock_read.bind fun d => keepsBlock_put hne ih

theorem keepsBlock_inodeWrite {src : List UInt8} : KeepsBlock b (inodeWrite sb ctx p src i) := by
  unfold inodeWrite
  refine preserves_deref.bind fun o => .ite (fun _ => ignoresLock_held.consoleWrite) fun _ => ?_
  refine .ite (fun _ => ?_) fun _ => preserves_throw _
  exact keepsBlock_growTo.bind fun _ => keepsBlock_inodeWriteLoop.bind fun _ =>
    keepsBlock_growTo.bind fun _ => preserves_pure _

end KeepsBlock

/-! ## Holes -/

/-- The block that `inode_map` returns without a context, 0 if there is none. -/
def mapped (σ : ℕ → BlockData) (e : InodeEntry) (x : ℕ) : ℕ :=
  if x < inodeNumDirect then (e.addr x).toNat
  else if e.indirect = 0 then 0
  else (IndirectBlock.get (σ e.indirect.toNat) (x - inodeNumDirect)).toNat

/-- A part that has no block, behind an indirect block that there is. -/
def Hole (σ : ℕ → BlockData) (e : InodeEntry) (x : ℕ) : Prop :=
  inodeNumDirect ≤ x ∧ e.indirect ≠ 0 ∧
    IndirectBlock.get (σ e.indirect.toNat) (x - inodeNumDirect) = 0

/-- No byte from `i` on is in a hole, up to `stop`. -/
def NoHole (σ : ℕ → BlockData) (e : InodeEntry) (i stop : ℕ) : Prop :=
  ∀ y, i ≤ y → y < stop → ¬ Hole σ e (y / blockSize)

/-- The blocks of a file are not in the log area, and its indirect block is none of its parts. -/
structure Placed (sb : SuperBlock) (σ : ℕ → BlockData) (e : InodeEntry) : Prop where
  indirect : e.indirect ≠ 0 → ¬ sb.InLog e.indirect.toNat
  block : ∀ x < inodeNumParts, ¬ sb.InLog (mapped σ e x)
  ne : e.indirect ≠ 0 → ∀ x < inodeNumParts, mapped σ e x ≠ e.indirect.toNat

/-- `x` ends in `R` if `C`; otherwise the block `b` is held where it ends. It sleeps only in the
    latter case. -/
abbrev leaksUnless {α : Type} (C : Prop) (b : ℕ) (x : M α) (R : α → FsState → Prop) (s : FsState) :
    Prop :=
  wp x (fun a t => C ∧ R a t ∨ ¬ C ∧ Held t.cache b) (fun e t => e = .blocked → ¬ C ∧ Held t.cache b) s

section Holes

variable {α β : Type} {sb : SuperBlock} {σ σ' : ℕ → BlockData} {e : InodeEntry} {s : FsState}
  {p b i x mid stop n off : ℕ} {src : List UInt8} {C D : Prop}

/-- What has leaked stays so while `f` runs. -/
theorem leaksUnless_bind {y : M α} {f : α → M β} {R : α → FsState → Prop} {R' : β → FsState → Prop}
    (hy : leaksUnless C b y R s) (hk : ∀ a, KeepsBlock b (f a))
    (hf : ∀ a t, R a t → leaksUnless D b (f a) R' t) : leaksUnless (C ∧ D) b (y >>= f) R' s := by
  rw [leaksUnless, wp_bind]
  refine wp_mono hy ?_ fun _ _ he hb => ⟨fun hc => (he hb).1 hc.1, (he hb).2⟩
  rintro a t (⟨hc, hr⟩ | ⟨hc, hheld⟩)
  · refine wp_mono (hf a t hr) ?_ fun _ _ he hb => ⟨fun hcd => (he hb).1 hcd.2, (he hb).2⟩
    rintro a' u (⟨hd, hr'⟩ | ⟨hd, hheld⟩)
    · exact .inl ⟨⟨hc, hd⟩, hr'⟩
    · exact .inr ⟨fun hcd => hd hcd.2, hheld⟩
  · have hnot : ¬ (C ∧ D) := fun hcd => hc hcd.1
    exact wp_mono (hk a t hheld) (fun _ _ hu => .inr ⟨hnot, hu⟩) fun _ _ hu _ => ⟨hnot, hu⟩

theorem noHole_nil (h : stop ≤ i) : NoHole σ e i stop := fun y h1 h2 => by omega

/-- The bytes up to `mid` are in the part of byte `i`. -/
theorem noHole_split (hi : i < stop) (h1 : i ≤ mid) (h2 : mid ≤ (i / blockSize + 1) * blockSize) :
    NoHole σ e i stop ↔ ¬ Hole σ e (i / blockSize) ∧ NoHole σ e mid stop := by
  constructor
  · intro h
    exact ⟨h i le_rfl hi, fun y hy hlt => h y (h1.trans hy) hlt⟩
  · rintro ⟨h, hrest⟩ y hy hlt
    by_cases hmid : mid ≤ y
    · exact hrest y hmid hlt
    · have hpart : y / blockSize = i / blockSize := by
        unfold blockSize at h2 ⊢
        omega
      rw [hpart]
      exact h

/-- The parts are where they were if the indirect block is as it was. -/
theorem Placed.congr (σ' : ℕ → BlockData) (hp : Placed sb σ e)
    (hσ : e.indirect ≠ 0 → σ' e.indirect.toNat = σ e.indirect.toNat) :
    Placed sb σ' e ∧ ∀ i stop, NoHole σ' e i stop ↔ NoHole σ e i stop := by
  have hmap : mapped σ' e = mapped σ e := by
    funext x
    unfold mapped
    split_ifs with h1 h2
    · rfl
    · rfl
    · rw [hσ h2]
  have hhole : ∀ x, Hole σ' e x ↔ Hole σ e x := fun x =>
    and_congr_right fun _ => and_congr_right fun h0 => by rw [hσ h0]
  refine ⟨⟨hp.indirect, ?_, ?_⟩, fun i stop => ?_⟩
  · rw [hmap]
    exact hp.block
  · rw [hmap]
    exact hp.ne
  · unfold NoHole
    simp only [hhole]

/-- The rule of `inode_map` without a context. -/
theorem wp_inodeMap_none (hp : Placed sb σ e) (h : Opened sb σ p e s) :
    leaksUnless (¬ Hole σ e x) e.indirect.toNat (inodeMap sb none p x)
      (fun b t => b = mapped σ e x ∧ ∃ c, t = { s with cache := c } ∧ Opened sb σ p e t) s := by
  obtain ⟨o, ho, rfl⟩ := h.entry
  unfold inodeMap
  rw [leaksUnless, wp_bind, wp_deref ho]
  refine wp.ite (fun hd => ?_) fun hd => ?_
  · have hno : ¬ Hole σ o.entry x := fun hh => absurd hd (not_lt.mpr hh.1)
    have hmap : mapped σ o.entry x = (o.entry.addr x).toNat := if_pos hd
    refine wp.ite (fun h0 => wp_pure.mpr ?_) fun h0 => wp_pure.mpr ?_
    · exact .inl ⟨hno, hmap.symm, s.cache, rfl, h⟩
    · refine .inl ⟨hno, ?_, s.cache, rfl, h⟩
      rw [hmap, not_not.mp h0]
      rfl
  · refine wp.ite (fun h0 => wp_pure.mpr ?_) fun h0 => ?_
    · refine .inl ⟨fun hh => hh.2.1 h0, ?_, s.cache, rfl, h⟩
      rw [mapped, if_neg hd, if_pos h0]
    · have hmap : mapped σ o.entry x =
          (IndirectBlock.get (σ o.entry.indirect.toNat) (x - inodeNumDirect)).toNat := by
        rw [mapped, if_neg hd, if_neg h0]
      unfold inodeMapIndirect
      rw [wp_bind, wp_deref ho]
      simp only [wp_bind]
      refine h.fetch (hp.indirect h0) fun c hc => ?_
      refine wp.ite (fun hget => wp_pure.mpr ?_) fun hget => ?_
      · -- line 321
        exact .inr ⟨not_not.mpr ⟨not_lt.mp hd, h0, hget⟩, hc.head.1⟩
      · rw [wp_bind]
        refine h.release hc fun c' hc' => wp_pure.mpr ?_
        exact .inl ⟨fun hh => hget hh.2.2, hmap.symm, c', rfl, hc'⟩

theorem wp_inodeReadLoop_none (hp : Placed sb σ e) (h : Opened sb σ p e s)
    (hstop : stop ≤ inodeMaxBytes) (hn : stop - i ≤ n) :
    leaksUnless (NoHole σ e i stop) e.indirect.toNat (inodeReadLoop sb p stop n i) (fun bytes t =>
      bytes.length = stop - i ∧ (stop ≤ (i / blockSize + 1) * blockSize →
        bytes = (σ (mapped σ e (i / blockSize))).slice (i % blockSize) (stop - i)) ∧
      ∃ c, t = { s with cache := c } ∧ Opened sb σ p e t) s := by
  have hend : ∀ {i : ℕ} {s : FsState}, Opened sb σ p e s → stop ≤ i →
      leaksUnless (NoHole σ e i stop) e.indirect.toNat (pure []) (fun bytes t =>
        bytes.length = stop - i ∧ (stop ≤ (i / blockSize + 1) * blockSize →
          bytes = (σ (mapped σ e (i / blockSize))).slice (i % blockSize) (stop - i)) ∧
        ∃ c, t = { s with cache := c } ∧ Opened sb σ p e t) s := by
    intro i s h hi
    have h0 : stop - i = 0 := Nat.sub_eq_zero_of_le hi
    rw [h0]
    exact wp_pure.mpr (.inl ⟨noHole_nil hi, rfl, fun _ => rfl, s.cache, rfl, h⟩)
  induction n generalizing i s with
  | zero => exact hend h (by omega)
  | succ n ih =>
    unfold inodeReadLoop
    refine wp.ite (fun hi => ?_) fun hi => hend h (not_lt.mp hi)
    have hx : i / blockSize < inodeNumParts := div_blockSize_lt (by omega)
    have hnext : i < (i / blockSize + 1) * blockSize := by
      unfold blockSize
      omega
    have hsplit := noHole_split (σ := σ) (e := e) hi hnext.le le_rfl
    rw [hsplit]
    refine leaksUnless_bind (wp_inodeMap_none hp h) (fun b => ?_) ?_
    · refine keepsBlock_acquire fun hne => keepsBlock_read.bind fun d => ?_
      exact (keepsBlock_release hne).bind fun _ => keepsBlock_inodeReadLoop.bind fun _ => preserves_pure _
    · rintro b t ⟨rfl, c, rfl, ht⟩
      simp only [leaksUnless, wp_bind, wp_pure]
      refine ht.fetch (hp.block _ hx) fun c1 h1 => ht.release h1 fun c2 h2 => ?_
      refine wp.imp (ih h2 (by omega)) ?_
      rintro rest u (⟨hc, hlen, hrest, c3, rfl, h3⟩ | hleak)
      · refine .inl ⟨hc, ?_, fun hone => ?_, c3, rfl, h3⟩
        · rw [List.length_append, hlen, BlockData.slice, List.length_map, List.length_range]
          unfold blockSize
          omega
        have hmin : min (blockSize - i % blockSize) (stop - i) = stop - i := by
          unfold blockSize at hone ⊢
          omega
        rw [hrest (hone.trans (by unfold blockSize; omega)), hmin, Nat.sub_eq_zero_of_le hone]
        exact List.append_nil _
      · exact .inr hleak

/-- The rule of `inode_read` on an inode that is not a device. -/
theorem wp_inodeRead_none {count : ℕ} (hp : Placed sb σ e) (h : Opened sb σ p e s)
    (hdev : e.type ≠ inodeDevice) (hsize : e.numBytes.toNat ≤ inodeMaxBytes) (hoff : off < 2 ^ 64)
    (hcount : count < 2 ^ 64) :
    leaksUnless (NoHole σ e off (min (off + count) e.numBytes.toNat)) e.indirect.toNat
      (inodeRead sb p off count) (fun bytes t =>
        bytes.length = min (off + count) e.numBytes.toNat - off ∧ (min (off + count) e.numBytes.toNat ≤ (off / blockSize + 1) * blockSize →
          bytes = (σ (mapped σ e (off / blockSize))).slice (off % blockSize)
            (min (off + count) e.numBytes.toNat - off)) ∧
        ∃ c, t = { s with cache := c } ∧ Opened sb σ p e t) s := by
  have hmax : inodeMaxBytes = 71680 := rfl
  obtain ⟨o, ho, rfl⟩ := h.entry
  unfold inodeRead
  rw [leaksUnless, wp_bind, wp_deref ho]
  refine wp.ite (fun hd => absurd hd hdev) fun _ => ?_
  dsimp only
  generalize hcnt : (if usize (count + off) > o.entry.numBytes.toNat
    then usize (o.entry.numBytes.toNat + 2 ^ 64 - off) else count) = cnt
  refine wp.ite (fun hassert => ?_) fun _ => wp_throw.mpr fun he => by cases he
  have hstop : usize (off + cnt) = min (off + count) o.entry.numBytes.toNat := by
    unfold usize at hcnt hassert ⊢
    split_ifs at hcnt with hbig
    · omega
    · omega
  rw [hstop]
  exact wp_inodeReadLoop_none hp h (by omega) le_rfl

/-- The rule of the loop of `inode_write` without a context. -/
theorem wp_inodeWriteLoop_none {first : Bool} (hp : Placed sb σ e) (h : Opened sb σ p e s)
    (hn : src.length ≤ n) (hfirst : first = false → src ≠ [] → off % blockSize = 0)
    (hmax : off + src.length ≤ inodeMaxBytes) :
    leaksUnless (NoHole σ e off (off + src.length)) e.indirect.toNat
      (inodeWriteLoop sb none p n first src off)
      (fun _ t => ∃ c τ, t = { s with cache := c } ∧ Opened sb τ p e t) s := by
  induction n generalizing σ s src off first with
  | zero =>
    obtain rfl := List.length_eq_zero_iff.mp (Nat.le_zero.mp hn)
    exact wp_pure.mpr (.inl ⟨noHole_nil le_rfl, s.cache, σ, rfl, h⟩)
  | succ n ih =>
    unfold inodeWriteLoop
    refine wp.ite (fun hsrc => ?_) fun hsrc => ?_
    · subst hsrc
      exact wp_pure.mpr (.inl ⟨noHole_nil le_rfl, s.cache, σ, rfl, h⟩)
    have hpos := List.length_pos_iff.mpr hsrc
    have hx : off / blockSize < inodeNumParts := div_blockSize_lt (by omega)
    have hstart : (if first = true then off % blockSize else 0) = off % blockSize := by
      cases first with
      | true => rfl
      | false => exact (hfirst rfl hsrc).symm
    obtain ⟨cnt, hcnt⟩ : ∃ cnt, cnt = min (blockSize - off % blockSize) src.length := ⟨_, rfl⟩
    have hmid : cnt ≤ src.length ∧ 0 < cnt ∧ off + cnt ≤ (off / blockSize + 1) * blockSize ∧
        (cnt < src.length → (off + cnt) % blockSize = 0) := by
      unfold blockSize at hcnt ⊢
      omega
    obtain ⟨hle, hcpos, hpart, halign⟩ := hmid
    have hdrop : (src.drop cnt).length = src.length - cnt := List.length_drop
    have hlen : off + cnt + (src.drop cnt).length = off + src.length := by omega
    rw [hstart, noHole_split (by omega) (Nat.le_add_right off cnt) hpart]
    refine leaksUnless_bind (wp_inodeMap_none hp h) (fun b => ?_) ?_
    · exact keepsBlock_acquire fun hne => keepsBlock_read.bind fun d =>
        keepsBlock_put hne keepsBlock_inodeWriteLoop
    · rintro b t ⟨rfl, c, rfl, ht⟩
      simp only [leaksUnless, wp_bind]
      refine ht.fetch (hp.block _ hx) fun c1 h1 => ?_
      rw [← hcnt]
      generalize (σ (mapped σ e (off / blockSize))).copy (off % blockSize) (src.take cnt) = d
      simp only [wp_cache]
      refine h1.wp_write fun c2 h2 => h2.wp_syncRelease (fun _ _ he => by cases he) fun c3 h3 => ?_
      -- the indirect block is none of the parts
      obtain ⟨hp', hhole⟩ := hp.congr (Function.update σ (mapped σ e (off / blockSize)) d)
        fun h0 => Function.update_of_ne (hp.ne h0 _ hx).symm d σ
      have hopen : Opened sb (Function.update σ (mapped σ e (off / blockSize)) d) p e
          { s with cache := c3 } := ⟨h3, ht.entry⟩
      have hrest := @ih _ _ (off + cnt) (src.drop cnt) false hp' hopen (by omega)
        (fun _ hne => halign (by have := List.length_pos_iff.mpr hne; omega)) (by omega)
      rw [hhole, hlen] at hrest
      refine wp.imp hrest ?_
      rintro - u (⟨hc, c4, τ, rfl, h4⟩ | hleak)
      · exact .inl ⟨hc, c4, τ, rfl, h4⟩
      · exact .inr hleak

end Holes

end Inodes

end ShikiOS.Fs
