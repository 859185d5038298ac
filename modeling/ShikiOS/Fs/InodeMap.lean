import ShikiOS.Fs.FileBlocks
import ShikiOS.Fs.InodeOp

/-!
# `inode_map` with a context (`fs/inode.c`, lines 285-332)

A part of a file that has no block gets one, and before that the inode gets an indirect block
where it needs one. The cost of this is counted: `Within sb k n σ L` says that the operation has
synced at most `n` blocks besides the block of the inode, the indirect block and the bitmap
block that has the bit of the indirect block.

Results:
* `At.wp_inodeMap_hit`, `At.wp_inodeMap_miss`: a part with a block, and one without.
* `At.wp_inodeMap`: both, with the cost of `inode_map` and of a later sync of the block.
-/

namespace ShikiOS.Fs.Inodes

open ShikiOS.Lib Bcache

/-- The blocks are owned, and the entry on the device is the one in memory. -/
structure FileAt (sb : SuperBlock) (k : Op) (σ : ℕ → BlockData) (F : List ℕ) (e : InodeEntry) :
    Prop where
  owns : Owns sb σ F
  disk : diskEntry sb σ k.no = e
  type : e.type ≠ inodeInvalid

/-- Entries that differ in their blocks and in `num_bytes` only. -/
structure SameHead (e e' : InodeEntry) : Prop where
  type : e'.type = e.type
  major : e'.major = e.major
  minor : e'.minor = e.minor
  numLinks : e'.numLinks = e.numLinks

theorem SameHead.refl (e : InodeEntry) : SameHead e e := ⟨rfl, rfl, rfl, rfl⟩

theorem SameHead.trans {e e' e'' : InodeEntry} (h : SameHead e e') (h' : SameHead e' e'') :
    SameHead e e'' :=
  ⟨h'.type.trans h.type, h'.major.trans h.major, h'.minor.trans h.minor,
    h'.numLinks.trans h.numLinks⟩

/-! ## What is synced besides the blocks of the file -/

/-- The block of the inode, the indirect block and its bitmap block. -/
def overhead (sb : SuperBlock) (k : Op) (σ : ℕ → BlockData) : Finset ℕ :=
  if stored sb σ k.no .indirect = 0 then {k.home sb}
  else {k.home sb, stored sb σ k.no .indirect, sb.bitmapBlock (stored sb σ k.no .indirect)}

/-- At most `n` other blocks have been synced. -/
def Within (sb : SuperBlock) (k : Op) (n : ℕ) (σ : ℕ → BlockData) (L : Finset ℕ) : Prop :=
  ∃ D : Finset ℕ, D.card ≤ n ∧ L ⊆ D ∪ overhead sb k σ

variable {sb : SuperBlock} {k : Op} {σ τ : ℕ → BlockData} {F : List ℕ} {L : Finset ℕ}
  {A : List ℕ} {e : InodeEntry} {s : FsState} {b m n N x off : ℕ} {src : List UInt8}

theorem card_overhead_le : (overhead sb k σ).card ≤ 3 := by
  unfold overhead
  split_ifs
  · rw [Finset.card_singleton]
    omega
  · exact Finset.card_le_three

theorem home_mem_overhead : k.home sb ∈ overhead sb k σ := by
  unfold overhead
  split_ifs <;> simp

theorem overhead_mono (h : Wrote sb σ τ k.no off src) : overhead sb k σ ⊆ overhead sb k τ := by
  unfold overhead
  by_cases h0 : stored sb σ k.no .indirect = 0
  · rw [if_pos h0, Finset.singleton_subset_iff]
    exact home_mem_overhead
  · rw [if_neg h0, if_neg (by rw [h.kept _ h0]; exact h0), h.kept _ h0]

theorem Within.start (sb : SuperBlock) (k : Op) (σ : ℕ → BlockData) : Within sb k 0 σ ∅ :=
  ⟨∅, le_rfl, Finset.empty_subset _⟩

theorem Within.card_le (h : Within sb k n σ L) : L.card ≤ n + 3 := by
  obtain ⟨D, hD, hL⟩ := h
  calc L.card ≤ (D ∪ overhead sb k σ).card := Finset.card_le_card hL
    _ ≤ D.card + (overhead sb k σ).card := Finset.card_union_le _ _
    _ ≤ n + 3 := Nat.add_le_add hD card_overhead_le

/-- Without an indirect block less is synced. -/
theorem Within.card_le_of_eq_zero (h : Within sb k n σ L) (h0 : stored sb σ k.no .indirect = 0) :
    L.card ≤ n + 1 := by
  obtain ⟨D, hD, hL⟩ := h
  have hone : (overhead sb k σ).card = 1 := by
    rw [overhead, if_pos h0, Finset.card_singleton]
  calc L.card ≤ (D ∪ overhead sb k σ).card := Finset.card_le_card hL
    _ ≤ D.card + (overhead sb k σ).card := Finset.card_union_le _ _
    _ ≤ n + 1 := Nat.add_le_add hD hone.le

theorem Within.mono (h : Within sb k n σ L) (hn : n ≤ m) : Within sb k m σ L := by
  obtain ⟨D, hD, hL⟩ := h
  exact ⟨D, hD.trans hn, hL⟩

/-- What has been synced stays so while the inode gets more blocks. -/
theorem Within.wrote (h : Within sb k n σ L) (hw : Wrote sb σ τ k.no off src) :
    Within sb k n τ L := by
  obtain ⟨D, hD, hL⟩ := h
  exact ⟨D, hD, hL.trans (Finset.union_subset_union_right (overhead_mono hw))⟩

theorem Within.insert (h : Within sb k n σ L) (b : ℕ) : Within sb k (n + 1) σ (insert b L) := by
  obtain ⟨D, hD, hL⟩ := h
  refine ⟨Insert.insert b D, (Finset.card_insert_le b D).trans (Nat.succ_le_succ hD), ?_⟩
  rw [Finset.insert_union]
  exact Finset.insert_subset_insert b hL

theorem Within.insert_of_mem (h : Within sb k n σ L) (hb : b ∈ overhead sb k σ) :
    Within sb k n σ (Insert.insert b L) := by
  obtain ⟨D, hD, hL⟩ := h
  exact ⟨D, hD, Finset.insert_subset (Finset.mem_union_right D hb) hL⟩

theorem Within.insert_home (h : Within sb k n σ L) :
    Within sb k n σ (Insert.insert (k.home sb) L) := h.insert_of_mem home_mem_overhead

/-- A block is allocated for the file. -/
theorem Within.link (h : Within sb k n σ L) (hw : Wrote sb σ τ k.no off src) (b : ℕ) :
    Within sb k (n + 2) τ (Insert.insert b (Insert.insert (sb.bitmapBlock b) L)) :=
  ((h.wrote hw).insert (sb.bitmapBlock b)).insert b

theorem indirect_mem_overhead (h0 : stored sb σ k.no .indirect ≠ 0) :
    stored sb σ k.no .indirect ∈ overhead sb k σ ∧
      sb.bitmapBlock (stored sb σ k.no .indirect) ∈ overhead sb k σ := by
  unfold overhead
  rw [if_neg h0]
  exact ⟨by simp, by simp⟩

/-! ## Where the parts of the file are -/

section Parts

variable (hno : k.no < sb.numInodes)
include hno

theorem FileAt.part_direct (hf : FileAt sb k σ F e) (hx : x < inodeNumDirect) :
    part sb σ k.no x = (e.addr x).toNat := by
  rw [part, fileSlot, dif_pos hx, stored_eq hno hf.disk hf.type, InodeEntry.addr, dif_pos hx]
  rfl

theorem FileAt.stored_indirect (hf : FileAt sb k σ F e) :
    stored sb σ k.no .indirect = e.indirect.toNat := stored_eq hno hf.disk hf.type _

theorem FileAt.stored_indirect_ne (hf : FileAt sb k σ F e) (hind : e.indirect ≠ 0) :
    stored sb σ k.no .indirect ≠ 0 := by
  rw [hf.stored_indirect hno]
  exact toNat_eq_zero.not.mpr hind

theorem FileAt.part_entry (hf : FileAt sb k σ F e) (hx : ¬ x < inodeNumDirect)
    (hx' : x < inodeNumParts) : part sb σ k.no x = if e.indirect = 0 then 0
      else (IndirectBlock.get (σ e.indirect.toNat) (x - inodeNumDirect)).toNat := by
  have hmod : (x - inodeNumDirect) % inodeNumIndirect = x - inodeNumDirect :=
    Nat.mod_eq_of_lt (Nat.sub_lt_left_of_lt_add (not_lt.mp hx) hx')
  rw [part, fileSlot, dif_neg hx, stored_eq hno hf.disk hf.type]
  simp only [InodeEntry.slot, hmod]

theorem FileAt.indirect_data (hf : FileAt sb k σ F e) (hind : e.indirect ≠ 0) :
    sb.IsData e.indirect.toNat ∧ bit sb σ e.indirect.toNat = true := by
  have h0 := hf.stored_indirect_ne hno hind
  rw [← hf.stored_indirect hno]
  exact ⟨hf.owns.data _ _ h0, hf.owns.used _ _ h0⟩

end Parts

/-! ## The rules -/

section Rules

variable {Q : ℕ → FsState → Prop} (hl : sb.Layout) (hno : k.no < sb.numInodes)
include hl hno

/-- A part that has a block. -/
theorem At.wp_inodeMap_hit (h : At sb k σ [] L A e s) (hf : FileAt sb k σ F e)
    (hx : x < inodeNumParts) (h0 : part sb σ k.no x ≠ 0)
    (hq : ∀ t, At sb k σ [] L A e t → Q (part sb σ k.no x) t) :
    wp (inodeMap sb (some k.ctx) k.p x) Q (fun stop _ => Exhausted k.rm N stop) s := by
  unfold inodeMap
  rw [wp_bind, wp_deref h.deref]
  by_cases hd : x < inodeNumDirect
  · rw [hf.part_direct hno hd] at h0 hq
    rw [if_pos hd, if_pos (toNat_eq_zero.not.mp h0), wp_pure]
    exact hq s h
  · have hind : e.indirect ≠ 0 := fun hind => h0 (by rw [hf.part_entry hno hd hx, if_pos hind])
    rw [hf.part_entry hno hd hx, if_neg hind] at h0 hq
    dsimp only
    rw [if_neg hd, if_neg hind, inodeMapIndirect, wp_bind, wp_deref h.deref]
    simp only [wp_bind]
    refine h.wp_acquire (hl.not_inLog_of_isData (hf.indirect_data hno hind).1) List.not_mem_nil
      fun s1 h1 => h1.wp_read ?_
    rw [if_neg (toNat_eq_zero.not.mp h0), wp_bind]
    exact h1.wp_release rfl fun s2 h2 => wp_pure.mpr (hq s2 h2)

variable (hcap : sb.numBlocks ≤ 2 ^ 32)
include hcap

/-- Lines 319-331: the address in the indirect block is missing. -/
theorem At.wp_inodeMapIndirect_miss (h : At sb k σ [] L A e s) (hf : FileAt sb k σ F e)
    (hd : ¬ x < inodeNumDirect) (hx : x < inodeNumParts) (hind : e.indirect ≠ 0)
    (h0 : part sb σ k.no x = 0) (hw : Within sb k n σ L) (hn : n + 5 ≤ N)
    (hq : ∀ τ b L' t, At sb k τ [] L' (b :: A) e t → Links sb σ τ k.no (fileSlot x) b →
      FileAt sb k τ (b :: F) e → b ∈ L' → Within sb k (n + 2) τ L' → Q b t) :
    wp (inodeMapIndirect sb (some k.ctx) k.p (x - inodeNumDirect)) Q
      (fun stop _ => Exhausted k.rm N stop) s := by
  obtain ⟨hdata, hused⟩ := hf.indirect_data hno hind
  have hcard := hw.card_le
  have hget := hf.part_entry hno hd hx
  rw [h0, if_neg hind] at hget
  have hk : x - inodeNumDirect < inodeNumIndirect := Nat.sub_lt_left_of_lt_add (not_lt.mp hd) hx
  have hslot : fileSlot x = .entry ⟨x - inodeNumDirect, hk⟩ := by
    simp only [fileSlot, dif_neg hd, Nat.mod_eq_of_lt hk]
  have hempty : e.slot σ (.entry ⟨x - inodeNumDirect, hk⟩) = 0 := by
    rw [← stored_eq hno hf.disk hf.type, ← hslot]
    exact h0
  unfold inodeMapIndirect
  rw [wp_bind, wp_deref h.deref]
  simp only [wp_bind]
  refine h.wp_acquire (hl.not_inLog_of_isData hdata) List.not_mem_nil fun s1 h1 => h1.wp_read ?_
  rw [if_pos (toNat_eq_zero.mp hget.symm)]
  simp only [wp_bind]
  refine h1.wp_allocBlock hl hf.owns.metadata (by simpa using ⟨hdata, hused⟩) (by omega)
    fun b s2 hb hbit h2 => h2.wp_read (h2.wp_write fun s3 h3 => ?_)
  have hlinks := hf.owns.links_entry hl hno hf.disk hf.type hcap hb hbit hind hempty
  rw [← hslot, allocated_of_used hb hbit hdata hused] at hlinks
  have hwrote := hlinks.wrote hf.owns 0
  have hmem := (indirect_mem_overhead (hf.stored_indirect_ne hno hind)).1
  rw [hf.stored_indirect hno] at hmem
  have hwith := (hw.link hwrote b).insert_of_mem (overhead_mono hwrote hmem)
  refine h3.wp_syncRelease (hwith.card_le.trans hn) fun s4 h4 => ?_
  rw [wp_pure, toNat_ofNat_block hcap hb]
  refine hq _ b _ s4 h4 hlinks ⟨hlinks.owns hl hf.owns, ?_, hf.type⟩
    (Finset.mem_insert_of_mem (Finset.mem_insert_self b _)) hwith
  rw [diskEntry, Function.update_of_ne (toBlockNo_ne_of_isData hl hno hdata).symm]
  exact (diskEntry_allocated hl hb hno).trans hf.disk

/-- A part that has no block. -/
theorem At.wp_inodeMap_miss (hv : k.inode.valid = true) (h : At sb k σ [] L A e s)
    (hf : FileAt sb k σ F e) (hx : x < inodeNumParts) (h0 : part sb σ k.no x = 0)
    (hw : Within sb k n σ L) (hn : n + 5 ≤ N)
    (hq : ∀ τ b e' L' new t, At sb k τ [] L' (new ++ A) e' t → FileAt sb k τ (new ++ F) e' →
      SameHead e e' → e'.numBytes = e.numBytes → Wrote sb σ τ k.no off [] → part sb τ k.no x = b → b ≠ 0 →
      b ∈ L' → Within sb k (n + 2) τ L' → Q b t) :
    wp (inodeMap sb (some k.ctx) k.p x) Q (fun stop _ => Exhausted k.rm N stop) s := by
  have hcard := hw.card_le
  unfold inodeMap
  rw [wp_bind, wp_deref h.deref]
  by_cases hd : x < inodeNumDirect
  · have haddr : (e.addr x).toNat = 0 := (hf.part_direct hno hd).symm.trans h0
    have hslot : fileSlot x = .direct ⟨x, hd⟩ := dif_pos hd
    have hempty : e.slot σ (.direct ⟨x, hd⟩) = 0 := by
      rw [← stored_eq hno hf.disk hf.type, ← hslot]
      exact h0
    rw [if_pos hd, if_neg (not_not.mpr (toNat_eq_zero.mp haddr))]
    simp only [wp_bind]
    refine h.wp_allocBlock hl hf.owns.metadata (by simp) (by omega) fun b s1 hb hbit h1 =>
      h1.wp_modifyEntry fun s2 h2 => ?_
    have hlinks := hf.owns.links_direct hl hno hf.disk hf.type hcap hb hbit hempty
    rw [← hslot] at hlinks
    have hwith := (hw.link (hlinks.wrote hf.owns 0) b).insert_home
    refine h2.wp_inodeSync hl hno hv List.not_mem_nil (hwith.card_le.trans hn) fun s3 h3 => ?_
    rw [wp_pure, toNat_ofNat_block hcap hb]
    exact hq _ b _ _ [b] s3 h3 ⟨hlinks.owns hl hf.owns, diskEntry_setEntry_self, hf.type⟩
      ⟨rfl, rfl, rfl, rfl⟩ rfl (hlinks.wrote hf.owns off) hlinks.new (IsData.ne_zero hl hb)
      (Finset.mem_insert_of_mem (Finset.mem_insert_self b _)) hwith
  · dsimp only
    rw [if_neg hd]
    split_ifs with hind
    · -- an indirect block comes first
      have hzero : stored sb σ k.no .indirect = 0 := by
        rw [hf.stored_indirect hno, hind]
        rfl
      have hempty : e.slot σ .indirect = 0 := toNat_eq_zero.mpr hind
      have hcard0 := hw.card_le_of_eq_zero hzero
      simp only [wp_bind]
      refine h.wp_allocBlock hl hf.owns.metadata (by simp) (by omega) fun b s1 hb hbit h1 =>
        h1.wp_modifyEntry fun s2 h2 => ?_
      have hlinks := hf.owns.links_indirect hl hno hf.disk hf.type hcap hb hbit hempty
      have hnew := hlinks.new
      have hb0 := IsData.ne_zero hl hb
      have hover := indirect_mem_overhead (by rw [hnew]; exact hb0)
      rw [hnew] at hover
      have hwith := (((hw.wrote (hlinks.wrote hf.owns 0)).insert_of_mem hover.2).insert_of_mem
        hover.1).insert_home
      refine h2.wp_inodeSync hl hno hv List.not_mem_nil (hwith.card_le.trans (by omega))
        fun s3 h3 => ?_
      have hf' : FileAt sb k _ (b :: F) { e with indirect := UInt32.ofNat b } :=
        ⟨hlinks.owns hl hf.owns, diskEntry_setEntry_self, hf.type⟩
      have hind' : UInt32.ofNat b ≠ 0 := fun e0 =>
        hb0 ((toNat_ofNat_block hcap hb).symm.trans (toNat_eq_zero.mpr e0))
      have h0' : part sb _ k.no x = 0 := (hlinks.same k.no (fileSlot x) fun e0 =>
        fileSlot_ne_indirect x (congrArg Prod.snd e0)).trans h0
      refine h3.wp_inodeMapIndirect_miss hl hno hcap hf' hd hx hind' h0' hwith hn
        fun τ c L' t ht hk hfτ hc hwτ => ?_
      exact hq τ c _ L' [c, b] t ht hfτ ⟨rfl, rfl, rfl, rfl⟩ rfl
        ((hlinks.wrote hf.owns 0).trans_nil (hk.wrote hf'.owns 0) off) hk.new
        (IsData.ne_zero hl hk.data) hc hwτ
    · refine h.wp_inodeMapIndirect_miss hl hno hcap hf hd hx hind h0 hw hn
        fun τ c L' t ht hk hfτ hc hwτ => ?_
      exact hq τ c e L' [c] t ht hfτ (SameHead.refl e) rfl (hk.wrote hf.owns off) hk.new
        (IsData.ne_zero hl hk.data) hc hwτ

/-- A part of the file, which has a block then. This and a sync of the block costs one block, or
    two where the part had no block. -/
theorem At.wp_inodeMap (hv : k.inode.valid = true) (h : At sb k σ [] L A e s) (hf : FileAt sb k σ F e)
    (hx : x < inodeNumParts) (hw : Within sb k n σ L)
    (hm : (if part sb σ k.no x = 0 then 2 else 1) ≤ m) (hn : n + m + 3 ≤ N)
    (hq : ∀ τ b e' L' new t, At sb k τ [] L' (new ++ A) e' t → FileAt sb k τ (new ++ F) e' →
      SameHead e e' → e'.numBytes = e.numBytes → Wrote sb σ τ k.no off [] → part sb τ k.no x = b → b ≠ 0 →
      Within sb k (n + m) τ (insert b L') → Q b t) :
    wp (inodeMap sb (some k.ctx) k.p x) Q (fun stop _ => Exhausted k.rm N stop) s := by
  by_cases h0 : part sb σ k.no x = 0
  · rw [if_pos h0] at hm
    refine h.wp_inodeMap_miss hl hno hcap hv hf hx h0 hw (by omega)
      fun τ b e' L' new t ht hf' hhead hbytes (hwrote : Wrote sb σ τ k.no off []) hpart hb0 hb
        hwith => ?_
    refine hq τ b e' L' new t ht hf' hhead hbytes hwrote hpart hb0 ?_
    rw [Finset.insert_eq_of_mem hb]
    exact hwith.mono (by omega)
  · rw [if_neg h0] at hm
    exact h.wp_inodeMap_hit hl hno hf hx h0 fun t ht => hq σ _ e L [] t ht hf (SameHead.refl e) rfl
      (Wrote.refl sb σ k.no off) rfl h0 ((hw.insert _).mono (by omega))

end Rules

end ShikiOS.Fs.Inodes
