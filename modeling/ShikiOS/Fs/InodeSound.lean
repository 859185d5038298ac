import ShikiOS.Fs.InodeHoles
import ShikiOS.Fs.InodeRefs

/-!
# Inodes in use (`fs/inode.c`)

`InUse sb σ p i s` says that the inode at `p` has been read and that the blocks in its entry are
allocated data blocks, with no word about other inodes or about the entry on the device.

Results:
* `Sound.link`: a block is allocated and stored in the entry.
* `InUse.awake_inodeMap`, `InUse.awake_inodeWrite`: with a context these do not sleep, and the
  inode stays in use.
-/

namespace ShikiOS.Fs.Inodes

open ShikiOS.Lib Bcache

/-- `x` ends in `Q` and does not sleep. -/
abbrev awake {α : Type} (x : M α) (Q : α → FsState → Prop) (s : FsState) : Prop :=
  wp x Q (fun e _ => e ≠ .blocked) s

/-- The blocks in the slots of an entry are allocated data blocks, and the indirect block is in no
    other slot. -/
structure Sound (sb : SuperBlock) (σ : ℕ → BlockData) (e : InodeEntry) : Prop where
  data : ∀ y, e.slot σ y ≠ 0 → sb.IsData (e.slot σ y)
  used : ∀ y, e.slot σ y ≠ 0 → bit sb σ (e.slot σ y) = true
  ne : ∀ y, e.slot σ y ≠ 0 → e.slot σ y = e.slot σ .indirect → y = .indirect
  metadata : MetadataUsed sb σ

/-- An inode that has been read, with or without holes. -/
structure InUse (sb : SuperBlock) (σ : ℕ → BlockData) (p : ℕ) (i : Inode) (s : FsState) : Prop where
  rep : Rep sb σ [] s.cache
  inode : s.inode p = some i
  no : i.inodeNo < sb.numInodes
  valid : i.valid = true
  sound : Sound sb σ i.entry
  size : i.entry.numBytes.toNat ≤ inodeMaxBytes

variable {α : Type} {sb : SuperBlock} {σ τ : ℕ → BlockData} {H : List (ℕ × BlockData)}
  {e e' : InodeEntry} {s t : FsState} {p b k n x off : ℕ} {i : Inode} {ctx : Option ℕ} {y : Slot}
  {src : List UInt8}

/-! ## Slots -/

theorem slot_congr (h : e.indirect ≠ 0 → τ e.indirect.toNat = σ e.indirect.toNat) (y : Slot) :
    e.slot τ y = e.slot σ y := by
  cases y with
  | direct j => rfl
  | indirect => rfl
  | entry j =>
    simp only [InodeEntry.slot]
    split_ifs with h0
    · rfl
    · rw [h h0]

theorem mapped_eq_slot (hx : x < inodeNumParts) : mapped σ e x = e.slot σ (fileSlot x) := by
  unfold mapped fileSlot
  split_ifs with hd h0
  · rw [InodeEntry.addr, dif_pos hd]
    rfl
  · exact (if_pos h0).symm
  · have hmod : (x - inodeNumDirect) % inodeNumIndirect = x - inodeNumDirect :=
      Nat.mod_eq_of_lt (Nat.sub_lt_left_of_lt_add (not_lt.mp hd) hx)
    simp only [InodeEntry.slot, if_neg h0, hmod]

theorem Sound.indirect (h : Sound sb σ e) (h0 : e.indirect ≠ 0) :
    sb.IsData e.indirect.toNat ∧ bit sb σ e.indirect.toNat = true :=
  ⟨h.data .indirect (toNat_eq_zero.not.mpr h0), h.used .indirect (toNat_eq_zero.not.mpr h0)⟩

theorem Sound.congr (h : Sound sb σ e) (hslot : ∀ y, e'.slot τ y = e.slot σ y)
    (hbit : ∀ c < sb.numBlocks, bit sb τ c = bit sb σ c) : Sound sb τ e' := by
  refine ⟨fun y h0 => ?_, fun y h0 => ?_, fun y h0 heq => ?_, fun c hc hd => ?_⟩
  · rw [hslot] at h0 ⊢
    exact h.data y h0
  · rw [hslot] at h0 ⊢
    rw [hbit _ (h.data y h0).2]
    exact h.used y h0
  · rw [hslot] at h0 heq
    rw [hslot] at heq
    exact h.ne y h0 heq
  · rw [hbit c hc]
    exact h.metadata c hc hd

/-- A block that was free is in the slot `y` now. -/
theorem Sound.link (h : Sound sb σ e) (hb : sb.IsData b) (hclear : bit sb σ b = false)
    (hnew : e'.slot τ y = b) (hsame : ∀ y', y' ≠ y → e'.slot τ y' = e.slot σ y')
    (hbits : ∀ c < sb.numBlocks, bit sb τ c = (bit sb σ c || decide (c = b))) : Sound sb τ e' := by
  have hmono : ∀ c < sb.numBlocks, bit sb σ c = true → bit sb τ c = true := by
    intro c hc hused
    rw [hbits c hc, hused, Bool.true_or]
  -- the new block was in no slot
  have hfresh : ∀ y', e.slot σ y' ≠ 0 → e.slot σ y' ≠ b := by
    rintro y' h0 rfl
    rw [h.used y' h0] at hclear
    cases hclear
  refine ⟨fun y' h0 => ?_, fun y' h0 => ?_, fun y' h0 heq => ?_, fun c hc hd => hmono c hc (h.metadata c hc hd)⟩
  · by_cases hy : y' = y
    · rw [hy, hnew]
      exact hb
    · rw [hsame y' hy] at h0 ⊢
      exact h.data y' h0
  · by_cases hy : y' = y
    · rw [hy, hnew, hbits b hb.2, decide_eq_true rfl, Bool.or_true]
    · rw [hsame y' hy] at h0 ⊢
      exact hmono _ (h.data y' h0).2 (h.used y' h0)
  · by_cases hy : y' = y
    · by_cases hind : Slot.indirect = y
      · exact hy.trans hind.symm
      · rw [hy, hnew] at h0 heq
        rw [hsame _ hind] at heq
        exact absurd heq.symm (hfresh .indirect (heq ▸ h0))
    · rw [hsame y' hy] at h0 heq
      by_cases hind : Slot.indirect = y
      · rw [hind, hnew] at heq
        exact absurd heq (hfresh y' h0)
      · rw [hsame _ hind] at heq
        exact h.ne y' h0 heq

section Blocks

/-- Nothing changes but the block of an inode. -/
theorem Sound.synced (h : Sound sb σ e) (hl : sb.Layout) {no : ℕ} (hno : no < sb.numInodes)
    (hτ : ∀ b, b ≠ sb.toBlockNo no → τ b = σ b) : Sound sb τ e := by
  refine h.congr (slot_congr fun h0 => hτ _ ?_) fun c _ => bit_congr (hτ _ ?_)
  · exact toBlockNo_ne_of_isData hl hno (h.indirect h0).1
  · exact toBlockNo_ne_bitmapBlock hl hno

variable (hcap : sb.numBlocks ≤ 2 ^ 32) (h : Sound sb σ e) (hb : sb.IsData b) (hclear : bit sb σ b = false)
include hcap h hb hclear

/-- `addrs[k]` becomes the new block. -/
theorem Sound.direct (hk : k < inodeNumDirect) :
    Sound sb (allocated sb σ b) (e.setAddr k (UInt32.ofNat b)) := by
  refine h.link (y := .direct ⟨k, hk⟩) hb hclear ?_ (fun y' hne => ?_) fun c hc => bit_allocated hb hc
  · show (if k = k then UInt32.ofNat b else e.addrs ⟨k, hk⟩).toNat = b
    rw [if_pos rfl, toNat_ofNat_block hcap hb]
  · rw [← slot_congr (τ := allocated sb σ b) fun h0 =>
      allocated_of_used hb hclear (h.indirect h0).1 (h.indirect h0).2]
    cases y' with
    | direct j =>
      show (if (j : ℕ) = k then UInt32.ofNat b else e.addrs j).toNat = (e.addrs j).toNat
      rw [if_neg fun e0 => hne (congrArg Slot.direct (Fin.ext e0))]
    | indirect => rfl
    | entry j => rfl

/-- `indirect` becomes the new block, which is zero. -/
theorem Sound.newIndirect (hl : sb.Layout) (hzero : e.indirect = 0) :
    Sound sb (allocated sb σ b) { e with indirect := UInt32.ofNat b } := by
  have hto := toNat_ofNat_block hcap hb
  refine h.link (y := .indirect) hb hclear hto (fun y' hne => ?_) fun c hc => bit_allocated hb hc
  cases y' with
  | direct j => rfl
  | indirect => exact absurd rfl hne
  | entry j =>
    have hnew : UInt32.ofNat b ≠ 0 := fun e0 =>
      IsData.ne_zero hl hb (hto.symm.trans (toNat_eq_zero.mpr e0))
    simp only [InodeEntry.slot]
    rw [if_neg hnew, if_pos hzero, hto, allocated_self, IndirectBlock.get_zeroBlock]
    rfl

/-- The `k`-th address in the indirect block becomes the new block. -/
theorem Sound.entry (hind : e.indirect ≠ 0) (hk : k < inodeNumIndirect) :
    Sound sb (Function.update (allocated sb σ b) e.indirect.toNat
      (IndirectBlock.set (σ e.indirect.toNat) k (UInt32.ofNat b))) e := by
  obtain ⟨hdata, hused⟩ := h.indirect hind
  refine h.link (y := .entry ⟨k, hk⟩) hb hclear ?_ (fun y' hne => ?_) fun c hc => ?_
  · simp only [InodeEntry.slot]
    rw [if_neg hind, Function.update_self, IndirectBlock.get_set _ hk, toNat_ofNat_block hcap hb]
  · cases y' with
    | direct j => rfl
    | indirect => rfl
    | entry j =>
      have hj : (j : ℕ) ≠ k := fun e0 => hne (congrArg Slot.entry (Fin.ext e0))
      simp only [InodeEntry.slot]
      rw [if_neg hind, if_neg hind, Function.update_self, IndirectBlock.get_set_of_ne _ j.isLt hj]
  · rw [← bit_allocated hb hc]
    exact bit_congr (Function.update_of_ne (bitmapBlock_ne_of_isData hc hdata) _ _)

end Blocks

/-- The content of a part of the file changes. -/
theorem Sound.write (h : Sound sb σ e) (hy : y ≠ .indirect) (h0 : e.slot σ y ≠ 0) (d : BlockData) :
    Sound sb (Function.update σ (e.slot σ y) d) e := by
  refine h.congr (slot_congr fun hind => Function.update_of_ne (fun heq => hy (h.ne y h0 heq.symm)) d σ)
    fun c hc => bit_congr (Function.update_of_ne (bitmapBlock_ne_of_isData hc (h.data y h0)) d σ)

/-! ## Rules -/

theorem InUse.opened (h : InUse sb σ p i s) : Opened sb σ p i.entry s := ⟨h.rep, i, h.inode, rfl⟩

theorem InUse.with_cache (h : InUse sb σ p i s) {c : CacheState} (hc : Rep sb σ [] c) :
    InUse sb σ p i { s with cache := c } := ⟨hc, h.inode, h.no, h.valid, h.sound, h.size⟩

/-- An open file without holes, in a file system where no block is stored twice. -/
theorem OpenInode.inUse {F : List ℕ} (h : OpenInode sb σ F p i s) : InUse sb σ p i s := by
  have hstored : ∀ y, i.entry.slot σ y = stored sb σ i.inodeNo y := fun y =>
    (stored_eq h.no h.disk h.type y).symm
  refine ⟨h.rep, h.inode, h.no, h.valid, ⟨fun y h0 => ?_, fun y h0 => ?_, fun y h0 heq => ?_,
    h.owns.metadata⟩, h.size_le⟩
  · rw [hstored] at h0 ⊢
    exact h.owns.data _ _ h0
  · rw [hstored] at h0 ⊢
    exact h.owns.used _ _ h0
  · rw [hstored] at h0 heq
    rw [hstored] at heq
    exact (h.owns.once _ _ _ _ h0 heq).2

section Rules

variable (hl : sb.Layout)
include hl

/-- The rule of `inode_sync` of an inode that has been read. -/
theorem awake_inodeSync {doWrite : Bool} (h : Rep sb σ [] s.cache) (hi : s.inode p = some i)
    (hno : i.inodeNo < sb.numInodes) (hv : i.valid = true) {Q : Unit → FsState → Prop}
    (hq : ∀ c τ, Rep sb τ [] c → (∀ b, b ≠ sb.toBlockNo i.inodeNo → τ b = σ b) →
      Q () { s with cache := c }) : awake (inodeSync sb ctx p doWrite) Q s := by
  unfold inodeSync
  rw [awake, wp_bind, wp_deref hi]
  simp only [wp_bind, wp_cache]
  refine h.wp_acquire (hl.not_inLog_toBlockNo hno) (fun hm => absurd hm List.not_mem_nil) fun c1 h1 =>
    h1.wp_read ?_
  rw [if_pos hv]
  refine wp.ite (fun _ => ?_) fun _ => ?_
  · simp only [wp_bind, wp_cache]
    refine h1.wp_write fun c2 h2 => h2.wp_syncRelease (fun _ _ => by simp) fun c3 h3 => ?_
    exact hq c3 _ h3 fun b hb => Function.update_of_ne hb _ σ
  · rw [wp_cache]
    exact h1.wp_release rfl fun c2 h2 => hq c2 σ h2 fun _ _ => rfl

/-- The entry changes in memory and then on the device. -/
theorem awake_setEntry {f : InodeEntry → InodeEntry} (h : Rep sb σ [] s.cache)
    (hi : s.inode p = some i) (hno : i.inodeNo < sb.numInodes) (hv : i.valid = true)
    {Q : Unit → FsState → Prop}
    (hq : ∀ t τ, Rep sb τ [] t.cache → t.inode p = some { i with entry := f i.entry } →
      (∀ b, b ≠ sb.toBlockNo i.inodeNo → τ b = σ b) → Q () t) :
    awake (modifyEntry p f) (fun _ t => awake (inodeSync sb ctx p true) Q t) s := by
  unfold modifyEntry
  rw [awake, wp_modifyInode hi]
  exact awake_inodeSync hl (s := setInode s p { i with entry := f i.entry }) h (setInode_self ..) hno hv
    fun c τ hc hsame => hq _ τ hc (setInode_self ..) hsame

/-- The rule of `cache->alloc`. -/
theorem awake_allocBlock (h : Rep sb σ H s.cache) (hmeta : MetadataUsed sb σ)
    (hH : ∀ c ∈ H.map Prod.fst, sb.IsData c ∧ bit sb σ c = true) {Q : ℕ → FsState → Prop}
    (hq : ∀ b t, sb.IsData b → bit sb σ b = false → Rep sb (allocated sb σ b) H t.cache →
      t.inode = s.inode → Q b t) : awake (allocBlock sb ctx) Q s := by
  unfold allocBlock
  simp only [awake, wp_bind, wp_cache, wp_modify, wp_pure]
  exact h.wp_cacheAlloc hl hmeta (fun _ _ => by simp) (fun _ => by simp)
    (fun c hc hu => absurd (hH c hc) hu) fun b c hb hclear hc => hq b _ hb hclear hc rfl

/-- A sound entry is written. -/
theorem awake_putEntry {f : InodeEntry → InodeEntry} (h : Rep sb σ [] s.cache)
    (hi : s.inode p = some i) (hno : i.inodeNo < sb.numInodes) (hv : i.valid = true)
    (hsound : Sound sb σ (f i.entry)) (hsize : (f i.entry).numBytes.toNat ≤ inodeMaxBytes)
    {Q : Unit → FsState → Prop} (hq : ∀ t τ, InUse sb τ p { i with entry := f i.entry } t → Q () t) :
    awake (modifyEntry p f) (fun _ t => awake (inodeSync sb ctx p true) Q t) s :=
  awake_setEntry hl h hi hno hv fun t τ ht hi' hsame =>
    hq t τ ⟨ht, hi', hno, hv, hsound.synced hl hno hsame, hsize⟩

/-- Lines 380-384 of `inode_write`. Only the block of the inode changes. -/
theorem awake_growTo (h : Rep sb σ [] s.cache) (hi : s.inode p = some i)
    (hno : i.inodeNo < sb.numInodes) (hv : i.valid = true) {Q : Unit → FsState → Prop}
    (hq : ∀ t τ m, Rep sb τ [] t.cache → t.inode p = some { i with entry := { i.entry with numBytes := m } } →
      m.toNat ≤ max i.entry.numBytes.toNat n → (∀ b, b ≠ sb.toBlockNo i.inodeNo → τ b = σ b) → Q () t) :
    awake (growTo sb ctx p n) Q s := by
  unfold growTo
  rw [awake, wp_bind, wp_deref hi]
  refine wp.ite (fun _ => ?_) fun _ => ?_
  · rw [wp_bind]
    refine awake_setEntry hl h hi hno hv fun t τ ht hi' hsame => hq t τ _ ht hi' ?_ hsame
    rw [UInt32.toNat_ofNat']
    exact le_max_of_le_right (Nat.mod_le _ _)
  · exact wp_pure.mpr (hq s σ _ h hi (le_max_left _ _) fun _ _ => rfl)

theorem InUse.awake_growTo (h : InUse sb σ p i s) (hn : n ≤ inodeMaxBytes) {Q : Unit → FsState → Prop}
    (hq : ∀ t τ m, InUse sb τ p { i with entry := { i.entry with numBytes := m } } t →
      (∀ b, b ≠ sb.toBlockNo i.inodeNo → τ b = σ b) → Q () t) : awake (growTo sb ctx p n) Q s := by
  refine Inodes.awake_growTo hl h.rep h.inode h.no h.valid fun t τ m ht hi hm hsame => hq t τ m ?_ hsame
  have hsound : Sound sb σ { i.entry with numBytes := m } :=
    h.sound.congr (slot_congr fun _ => rfl) fun _ _ => rfl
  exact ⟨ht, hi, h.no, h.valid, hsound.synced hl h.no hsame, hm.trans (max_le h.size hn)⟩

variable (hcap : sb.numBlocks ≤ 2 ^ 32)
include hcap

/-- Lines 319-331 of `inode_map`, with a context. -/
theorem InUse.awake_inodeMapIndirect {c : ℕ} (h : InUse sb σ p i s) (hind : i.entry.indirect ≠ 0)
    (hd : ¬ x < inodeNumDirect) (hx : x < inodeNumParts) {Q : ℕ → FsState → Prop}
    (hq : ∀ t τ, InUse sb τ p i t → mapped τ i.entry x ≠ 0 → Q (mapped τ i.entry x) t) :
    awake (inodeMapIndirect sb (some c) p (x - inodeNumDirect)) Q s := by
  obtain ⟨hdata, hused⟩ := h.sound.indirect hind
  have hk : x - inodeNumDirect < inodeNumIndirect := Nat.sub_lt_left_of_lt_add (not_lt.mp hd) hx
  have hmap : ∀ τ, mapped τ i.entry x =
      (IndirectBlock.get (τ i.entry.indirect.toNat) (x - inodeNumDirect)).toNat := fun τ => by
    rw [mapped, if_neg hd, if_neg hind]
  unfold inodeMapIndirect
  rw [awake, wp_bind, wp_deref h.inode]
  simp only [wp_bind, wp_cache]
  refine h.rep.wp_acquire (hl.not_inLog_of_isData hdata) (fun hm => absurd hm List.not_mem_nil)
    fun c1 h1 => h1.wp_read ?_
  refine wp.ite (fun h0 => ?_) fun h0 => ?_
  · rw [wp_bind]
    refine awake_allocBlock hl h1 h.sound.metadata (by simpa using ⟨hdata, hused⟩)
      fun b t hb hclear ht hinode => ?_
    simp only [wp_bind, wp_cache, wp_pure]
    refine ht.wp_read (ht.wp_write fun c2 h2 => h2.wp_syncRelease (fun _ _ => by simp) fun c3 h3 => ?_)
    have hused' : InUse sb (Function.update (allocated sb σ b) i.entry.indirect.toNat
        (IndirectBlock.set (σ i.entry.indirect.toNat) (x - inodeNumDirect) (UInt32.ofNat b))) p i
        { t with cache := c3 } :=
      ⟨h3, (congrFun hinode p).trans h.inode, h.no, h.valid, h.sound.entry hcap hb hclear hind hk, h.size⟩
    have hnew := hmap (Function.update (allocated sb σ b) i.entry.indirect.toNat
      (IndirectBlock.set (σ i.entry.indirect.toNat) (x - inodeNumDirect) (UInt32.ofNat b)))
    rw [Function.update_self, IndirectBlock.get_set _ hk] at hnew
    rw [← hnew]
    refine hq _ _ hused' ?_
    rw [hnew, toNat_ofNat_block hcap hb]
    exact IsData.ne_zero hl hb
  · simp only [wp_bind, wp_cache, wp_pure]
    refine h1.wp_release rfl fun c2 h2 => ?_
    rw [← hmap σ]
    refine hq _ σ (h.with_cache h2) ?_
    rw [hmap]
    exact toNat_eq_zero.not.mpr h0

/-- The rule of `inode_map` with a context. -/
theorem InUse.awake_inodeMap {c : ℕ} (h : InUse sb σ p i s) (hx : x < inodeNumParts)
    {Q : ℕ → FsState → Prop}
    (hq : ∀ t τ e, InUse sb τ p { i with entry := e } t → mapped τ e x ≠ 0 → Q (mapped τ e x) t) :
    awake (inodeMap sb (some c) p x) Q s := by
  unfold inodeMap
  rw [awake, wp_bind, wp_deref h.inode]
  refine wp.ite (fun hd => ?_) fun hd => ?_
  · have hmap : ∀ τ (e : InodeEntry), mapped τ e x = (e.addr x).toNat := fun _ _ => if_pos hd
    refine wp.ite (fun h0 => wp_pure.mpr ?_) fun h0 => ?_
    · rw [← hmap σ]
      refine hq s σ i.entry h ?_
      rw [hmap]
      exact toNat_eq_zero.not.mpr h0
    · simp only [wp_bind]
      refine awake_allocBlock hl h.rep h.sound.metadata (fun _ hm => absurd hm List.not_mem_nil)
        fun b t hb hclear ht hinode => ?_
      have hto := toNat_ofNat_block hcap hb
      refine awake_putEntry hl ht ((congrFun hinode p).trans h.inode) h.no h.valid
        (h.sound.direct hcap hb hclear hd) h.size fun u τ hu => wp_pure.mpr ?_
      have hnew : mapped τ (i.entry.setAddr x (UInt32.ofNat b)) x = (UInt32.ofNat b).toNat := by
        rw [hmap, InodeEntry.addr, dif_pos hd]
        exact congrArg UInt32.toNat (if_pos rfl)
      rw [← hnew]
      refine hq u τ _ hu ?_
      rw [hnew, hto]
      exact IsData.ne_zero hl hb
  · refine wp.ite (fun hind => ?_) fun hind => ?_
    · simp only [wp_bind]
      refine awake_allocBlock hl h.rep h.sound.metadata (fun _ hm => absurd hm List.not_mem_nil)
        fun b t hb hclear ht hinode => ?_
      have hto := toNat_ofNat_block hcap hb
      refine awake_putEntry hl ht ((congrFun hinode p).trans h.inode) h.no h.valid
        (h.sound.newIndirect hcap hb hclear hl hind) h.size fun u τ hu => ?_
      refine hu.awake_inodeMapIndirect hl hcap (fun h0 => ?_) hd hx fun v υ hv hne => hq v υ _ hv hne
      exact IsData.ne_zero hl hb (hto.symm.trans (toNat_eq_zero.mpr h0))
    · exact h.awake_inodeMapIndirect hl hcap hind hd hx fun v υ hv hne => hq v υ _ hv hne

/-- The loop of `inode_write` with a context. -/
theorem InUse.awake_inodeWriteLoop {c : ℕ} {first : Bool} (h : InUse sb σ p i s)
    (hn : src.length ≤ n) (hmax : off + src.length ≤ inodeMaxBytes) {Q : Unit → FsState → Prop}
    (hq : ∀ t τ e, InUse sb τ p { i with entry := e } t → Q () t) :
    awake (inodeWriteLoop sb (some c) p n first src off) Q s := by
  induction n generalizing σ i s src off first with
  | zero => exact wp_pure.mpr (hq s σ i.entry h)
  | succ n ih =>
    unfold inodeWriteLoop
    refine wp.ite (fun _ => wp_pure.mpr (hq s σ i.entry h)) fun hsrc => ?_
    have hpos := List.length_pos_iff.mpr hsrc
    have hx : off / blockSize < inodeNumParts := div_blockSize_lt (by omega)
    have hmod : off % blockSize < blockSize := Nat.mod_lt _ (by decide)
    simp only [wp_bind]
    refine h.awake_inodeMap hl hcap hx fun t τ e ht hne => ?_
    rw [mapped_eq_slot hx] at hne ⊢
    have hdata := ht.sound.data _ hne
    generalize hcnt : min (blockSize - if first = true then off % blockSize else 0) src.length = cnt
    have hcnt' : 0 < cnt ∧ cnt ≤ src.length := by
      split_ifs at hcnt <;> omega
    simp only [wp_cache]
    refine ht.rep.wp_acquire (hl.not_inLog_of_isData hdata) (fun hm => absurd hm List.not_mem_nil)
      fun c1 h1 => h1.wp_read (h1.wp_write fun c2 h2 => h2.wp_syncRelease (fun _ _ => by simp) fun c3 h3 => ?_)
    have hused : InUse sb (Function.update τ (e.slot τ (fileSlot (off / blockSize))) _) p
        { i with entry := e } { t with cache := c3 } :=
      ⟨h3, ht.inode, ht.no, ht.valid, ht.sound.write (fileSlot_ne_indirect _) hne _, ht.size⟩
    refine ih hused ?_ ?_ fun u υ e' hu => hq u υ e' hu
    · rw [List.length_drop]
      omega
    · rw [List.length_drop]
      omega

/-- The rule of `inode_write` with a context, on an inode that is not a device. -/
theorem InUse.awake_inodeWrite {c : ℕ} (h : InUse sb σ p i s) (hdev : i.entry.type ≠ inodeDevice)
    (hlen : src.length < 2 ^ 64) :
    awake (inodeWrite sb (some c) p src off) (fun _ t => NoneHeld t.cache) s := by
  have hsize := i.entry.numBytes.toNat_lt
  have hmax : inodeMaxBytes = 71680 := rfl
  unfold inodeWrite
  rw [awake, wp_bind, wp_deref h.inode]
  refine wp.ite (fun hd => absurd hd hdev) fun _ => ?_
  refine wp.ite (fun hassert => ?_) fun _ => wp_throw.mpr (by simp)
  have hstop : usize (off + src.length) = off + src.length := by
    unfold usize at hassert ⊢
    omega
  rw [hstop] at hassert ⊢
  simp only [wp_bind]
  refine h.awake_growTo hl hassert.2.1 fun t1 τ1 m h1 _ => ?_
  refine h1.awake_inodeWriteLoop hl hcap le_rfl hassert.2.1 fun t2 τ2 e h2 => ?_
  exact h2.awake_growTo hl hassert.2.1 fun t3 τ3 m' h3 _ => wp_pure.mpr h3.rep.noneHeld

end Rules

end ShikiOS.Fs.Inodes
