import ShikiOS.Fs.BcacheAlloc

/-!
# Who owns which block (`fs/defines.h`)

An inode stores block numbers in its direct addresses, in `indirect` and in the indirect
block. `Owns` says that every block is stored at most once over all inodes and is marked
in the bitmap. Here a device is just a map from block numbers to contents.

Results: changes that the inode layer makes keep `Owns`.
* `Owns.alloc`, `Links.owns`: a block is allocated and then stored in a slot.
* `links_direct`, `links_indirect`, `links_entry`: the three kinds of slots.
* `Owns.write`: the content of a file block changes.
* `Owns.resize`: the entry of an inode changes, but not where its blocks are.
-/

namespace ShikiOS.Fs

open ShikiOS.Lib Bcache

/-- The places of an inode that store block numbers. -/
inductive Slot
  | direct (k : Fin inodeNumDirect)
  | indirect
  | entry (k : Fin inodeNumIndirect)
deriving DecidableEq

variable {sb : SuperBlock} {σ σ' : ℕ → BlockData} {F : List ℕ} {i j b : ℕ} {s : Slot}
  {e : InodeEntry}

/-- The entry of an inode on the device. -/
def diskEntry (sb : SuperBlock) (σ : ℕ → BlockData) (i : ℕ) : InodeEntry :=
  InodeEntry.get (σ (sb.toBlockNo i)) (i % inodePerBlock)

/-- The block number in a slot, where 0 means none. -/
def InodeEntry.slot (e : InodeEntry) (σ : ℕ → BlockData) : Slot → ℕ
  | .direct k => (e.addrs k).toNat
  | .indirect => e.indirect.toNat
  | .entry k => if e.indirect = 0 then 0 else (IndirectBlock.get (σ e.indirect.toNat) k).toNat

/-- The block number in a slot of an inode; the slots of a free inode do not count. -/
def stored (sb : SuperBlock) (σ : ℕ → BlockData) (i : ℕ) (s : Slot) : ℕ :=
  if i < sb.numInodes ∧ (diskEntry sb σ i).type ≠ inodeInvalid then (diskEntry sb σ i).slot σ s
  else 0

/-- Inode `i` owns block `b`. -/
def OwnedBy (sb : SuperBlock) (σ : ℕ → BlockData) (i b : ℕ) : Prop :=
  b ≠ 0 ∧ ∃ s, stored sb σ i s = b

/-- Block ownership. `fresh` are the blocks that were allocated and not freed since. -/
structure Owns (sb : SuperBlock) (σ : ℕ → BlockData) (fresh : List ℕ) : Prop where
  once : ∀ i s j s', stored sb σ i s ≠ 0 → stored sb σ i s = stored sb σ j s' → i = j ∧ s = s'
  used : ∀ i s, stored sb σ i s ≠ 0 → bit sb σ (stored sb σ i s) = true
  owned : ∀ b ∈ fresh, ∃ i, OwnedBy sb σ i b
  data : ∀ i s, stored sb σ i s ≠ 0 → sb.IsData (stored sb σ i s)
  metadata : MetadataUsed sb σ

/-! ## Block numbers -/

theorem toNat_eq_zero {a : UInt32} : a.toNat = 0 ↔ a = 0 :=
  ⟨fun h => UInt32.toNat_inj.mp (h.trans UInt32.toNat_zero.symm), fun h => by rw [h]; rfl⟩

/-- The numbers of the blocks fit into the words that store them. -/
theorem toNat_ofNat_block (hcap : sb.numBlocks ≤ 2 ^ 32) (hb : sb.IsData b) :
    (UInt32.ofNat b).toNat = b := by
  have hlt := hb.2
  rw [UInt32.toNat_ofNat', Nat.mod_eq_of_lt (by omega)]

/-- A block of zeros stores nothing. -/
theorem IndirectBlock.get_zeroBlock (k : ℕ) : IndirectBlock.get zeroBlock k = 0 := by
  have hbytes : ∀ i, zeroBlock.bytes i = 0 := by
    intro i
    unfold BlockData.bytes zeroBlock
    split_ifs <;> rfl
  have hword : getLE zeroBlock.bytes (4 * k) 4 = 0 % 256 ^ 4 :=
    getLE_of_bytes fun i _ => by rw [hbytes, Nat.zero_div]; rfl
  rw [IndirectBlock.get, hword]
  rfl

/-! ## Entries on the device -/

/-- The contents after the entry of inode `i` is written. -/
def setEntry (sb : SuperBlock) (σ : ℕ → BlockData) (i : ℕ) (e : InodeEntry) : ℕ → BlockData :=
  Function.update σ (sb.toBlockNo i) (InodeEntry.put (σ (sb.toBlockNo i)) (i % inodePerBlock) e)

theorem mod_inodePerBlock_lt (i : ℕ) : i % inodePerBlock < inodePerBlock := Nat.mod_lt _ (by decide)

theorem toBlockNo_eq_iff :
    sb.toBlockNo j = sb.toBlockNo i ∧ j % inodePerBlock = i % inodePerBlock ↔ j = i := by
  have hsize : inodePerBlock = 8 := rfl
  unfold SuperBlock.toBlockNo
  rw [hsize]
  constructor
  · rintro ⟨h1, h2⟩; omega
  · rintro rfl; exact ⟨rfl, rfl⟩

theorem diskEntry_setEntry_self : diskEntry sb (setEntry sb σ i e) i = e := by
  rw [diskEntry, setEntry, Function.update_self, InodeEntry.get_put _ (mod_inodePerBlock_lt i)]

theorem diskEntry_setEntry_of_ne (h : j ≠ i) :
    diskEntry sb (setEntry sb σ i e) j = diskEntry sb σ j := by
  unfold diskEntry setEntry
  by_cases hb : sb.toBlockNo j = sb.toBlockNo i
  · have hne : j % inodePerBlock ≠ i % inodePerBlock := fun hm => h (toBlockNo_eq_iff.mp ⟨hb, hm⟩)
    rw [hb, Function.update_self, InodeEntry.get_put_of_ne _ (mod_inodePerBlock_lt j) hne]
  · rw [Function.update_of_ne hb]

theorem setEntry_of_ne (h : b ≠ sb.toBlockNo i) : setEntry sb σ i e b = σ b :=
  Function.update_of_ne h _ _

/-- Two devices on which the inodes and indirect blocks agree. -/
theorem stored_congr (he : i < sb.numInodes → diskEntry sb σ' i = diskEntry sb σ i)
    (hind : stored sb σ i .indirect ≠ 0 →
      σ' (stored sb σ i .indirect) = σ (stored sb σ i .indirect)) :
    stored sb σ' i s = stored sb σ i s := by
  unfold stored at *
  by_cases hi : i < sb.numInodes
  swap
  · rw [if_neg fun h => hi h.1, if_neg fun h => hi h.1]
  rw [he hi]
  split_ifs with h
  · rw [if_pos h] at hind
    cases s with
    | direct k => rfl
    | indirect => rfl
    | entry k =>
      simp only [InodeEntry.slot] at hind ⊢
      by_cases h0 : (diskEntry sb σ i).indirect = 0
      · rw [if_pos h0, if_pos h0]
      · have hne : (diskEntry sb σ i).indirect.toNat ≠ 0 := fun e =>
          h0 (UInt32.toNat_inj.mp (e.trans UInt32.toNat_zero.symm))
        rw [if_neg h0, if_neg h0, hind hne]
  · rfl

/-- `Owns` depends on what is stored and on the bits only. -/
theorem Owns.congr (h : Owns sb σ F) (hs : ∀ i s, stored sb σ' i s = stored sb σ i s)
    (hb : ∀ b, b < sb.numBlocks → bit sb σ' b = bit sb σ b) : Owns sb σ' F := by
  refine ⟨fun i s j s' => ?_, fun i s hne => ?_, fun b hb' => ?_, fun i s hne => ?_,
    fun b hlt hd => ?_⟩
  · rw [hs, hs]; exact h.once i s j s'
  · rw [hs] at hne ⊢
    rw [hb _ (h.data i s hne).2]
    exact h.used i s hne
  · obtain ⟨i, hne, s, rfl⟩ := h.owned b hb'
    exact ⟨i, hne, s, hs i s⟩
  · rw [hs] at hne ⊢
    exact h.data i s hne
  · rw [hb b hlt]
    exact h.metadata b hlt hd

theorem Owns.of_append {F' : List ℕ} (h : Owns sb σ (F' ++ F)) : Owns sb σ F :=
  ⟨h.once, h.used, fun c hc => h.owned c (List.mem_append_right F' hc), h.data, h.metadata⟩

/-! ## Where the areas are -/

section Areas

variable (hl : sb.Layout)
include hl

theorem IsData.ne_zero (hb : sb.IsData b) : b ≠ 0 := by
  have h1 := hl.bitmapStart_ge
  have h2 := hb.ge
  have h3 := hl.log
  omega

theorem toBlockNo_ne_of_isData (hi : i < sb.numInodes) (hb : sb.IsData b) : b ≠ sb.toBlockNo i := by
  have h1 := (hl.toBlockNo_bounds hi).2
  have h2 := hb.ge
  omega

theorem toBlockNo_ne_bitmapBlock (hi : i < sb.numInodes) :
    sb.bitmapBlock b ≠ sb.toBlockNo i := by
  have h1 := (hl.toBlockNo_bounds hi).2
  have h2 : sb.bitmapStart ≤ sb.bitmapBlock b := Nat.le_add_right _ _
  omega

omit hl in
theorem bitmapBlock_ne_of_isData {c : ℕ} (hc : c < sb.numBlocks) (hb : sb.IsData b) :
    sb.bitmapBlock c ≠ b := by
  have h1 := (SuperBlock.Layout.bitmapBlock_bounds hc).2
  have h2 := hb.1
  omega

theorem bit_setEntry (hi : i < sb.numInodes) : bit sb (setEntry sb σ i e) b = bit sb σ b :=
  bit_congr (setEntry_of_ne (toBlockNo_ne_bitmapBlock hl hi))

/-- An entry is written: the other inodes store what they stored. -/
theorem stored_setEntry_of_ne (hi : i < sb.numInodes) (hown : Owns sb σ F) (hj : j ≠ i) :
    stored sb (setEntry sb σ i e) j s = stored sb σ j s :=
  stored_congr (fun _ => diskEntry_setEntry_of_ne hj) fun hne =>
    setEntry_of_ne (toBlockNo_ne_of_isData hl hi (hown.data j _ hne))

omit hl in
/-- What the inode itself stores then. -/
theorem stored_setEntry_self (hi : i < sb.numInodes)
    (hind : e.indirect ≠ 0 → e.indirect.toNat ≠ sb.toBlockNo i) :
    stored sb (setEntry sb σ i e) i s = if e.type ≠ inodeInvalid then e.slot σ s else 0 := by
  unfold stored
  rw [diskEntry_setEntry_self]
  simp only [hi, true_and]
  split_ifs with ht
  · cases s with
    | direct k => rfl
    | indirect => rfl
    | entry k =>
      simp only [InodeEntry.slot]
      split_ifs with h0
      · rfl
      · rw [setEntry_of_ne (hind h0)]
  · rfl

/-! ## Allocation -/

omit hl in
theorem allocated_of_ne {c : ℕ} (h1 : c ≠ b) (h2 : c ≠ sb.bitmapBlock b) :
    allocated sb σ b c = σ c := by
  rw [allocated, Function.update_of_ne h1, setBit, Function.update_of_ne h2]

omit hl in
theorem allocated_self : allocated sb σ b b = zeroBlock := Function.update_self _ _ _

omit hl in
theorem bit_allocated {c : ℕ} (hb : sb.IsData b) (hc : c < sb.numBlocks) :
    bit sb (allocated sb σ b) c = (bit sb σ c || decide (c = b)) := by
  rw [← bit_setBit]
  exact bit_congr (Function.update_of_ne (bitmapBlock_ne_of_isData hc hb) _ _)

theorem diskEntry_allocated (hb : sb.IsData b) (hi : i < sb.numInodes) :
    diskEntry sb (allocated sb σ b) i = diskEntry sb σ i := by
  rw [diskEntry, allocated_of_ne (toBlockNo_ne_of_isData hl hi hb).symm
    (toBlockNo_ne_bitmapBlock hl hi).symm, diskEntry]

/-- A block whose bit is clear is in no slot. -/
theorem Owns.stored_ne (h : Owns sb σ F) (hb : sb.IsData b) (hbit : bit sb σ b = false) (i : ℕ)
    (s : Slot) : stored sb σ i s ≠ b := by
  intro e
  have hused := h.used i s (by rw [e]; exact IsData.ne_zero hl hb)
  rw [e, hbit] at hused
  cases hused

omit hl in
/-- Blocks in use stay as they are. -/
theorem allocated_of_used (hb : sb.IsData b) (hbit : bit sb σ b = false) {c : ℕ}
    (hc : sb.IsData c) (hused : bit sb σ c = true) : allocated sb σ b c = σ c := by
  refine allocated_of_ne ?_ (bitmapBlock_ne_of_isData hb.2 hc).symm
  rintro rfl
  rw [hbit] at hused
  cases hused

theorem Owns.stored_allocated (h : Owns sb σ F) (hb : sb.IsData b) (hbit : bit sb σ b = false)
    (i : ℕ) (s : Slot) : stored sb (allocated sb σ b) i s = stored sb σ i s :=
  stored_congr (fun hi => diskEntry_allocated hl hb hi) fun hne =>
    allocated_of_used hb hbit (h.data i _ hne) (h.used i _ hne)

/-- A block is allocated and not stored yet. -/
theorem Owns.alloc (h : Owns sb σ F) (hb : sb.IsData b) (hbit : bit sb σ b = false) :
    Owns sb (allocated sb σ b) F := by
  have hs := h.stored_allocated hl hb hbit
  have hmono : ∀ c < sb.numBlocks, bit sb σ c = true → bit sb (allocated sb σ b) c = true := by
    intro c hc hused
    rw [bit_allocated hb hc, hused, Bool.true_or]
  refine ⟨fun i s j s' => ?_, fun i s hne => ?_, fun c hc => ?_, fun i s hne => ?_,
    fun c hlt hd => hmono c hlt (h.metadata c hlt hd)⟩
  · rw [hs, hs]
    exact h.once i s j s'
  · rw [hs] at hne ⊢
    exact hmono _ (h.data i s hne).2 (h.used i s hne)
  · obtain ⟨i, hne, s, rfl⟩ := h.owned c hc
    exact ⟨i, hne, s, hs i s⟩
  · rw [hs] at hne ⊢
    exact h.data i s hne

/-! ## A new block in a slot -/

omit hl

/-- From `σ` to `σ'` the unused block `b` has been allocated and stored in the empty slot `s` of
    inode `i`. -/
structure Links (sb : SuperBlock) (σ σ' : ℕ → BlockData) (i : ℕ) (s : Slot) (b : ℕ) : Prop where
  data : sb.IsData b
  clear : bit sb σ b = false
  empty : stored sb σ i s = 0
  new : stored sb σ' i s = b
  same : ∀ j s', (j, s') ≠ (i, s) → stored sb σ' j s' = stored sb σ j s'
  bits : ∀ c < sb.numBlocks, bit sb σ' c = (bit sb σ c || decide (c = b))
  entry : ∀ j < sb.numInodes, j ≠ i → diskEntry sb σ' j = diskEntry sb σ j
  block : ∀ c, sb.IsData c → bit sb σ c = true → c ≠ stored sb σ i .indirect → σ' c = σ c

include hl

theorem Links.owns (hk : Links sb σ σ' i s b) (h : Owns sb σ F) : Owns sb σ' (b :: F) := by
  have hfree := h.stored_ne hl hk.data hk.clear
  have hb0 : b ≠ 0 := IsData.ne_zero hl hk.data
  have hcases : ∀ j s', (j, s') = (i, s) ∨ (j, s') ≠ (i, s) ∧
      stored sb σ' j s' = stored sb σ j s' := fun j s' =>
    (em ((j, s') = (i, s))).imp_right fun e => ⟨e, hk.same j s' e⟩
  have hmono : ∀ c < sb.numBlocks, bit sb σ c = true → bit sb σ' c = true := by
    intro c hc hused
    rw [hk.bits c hc, hused, Bool.true_or]
  refine ⟨fun j s1 j' s2 hne heq => ?_, fun j s' hne => ?_, fun c hc => ?_, fun j s' hne => ?_,
    fun c hlt hd => hmono c hlt (h.metadata c hlt hd)⟩
  · rcases hcases j s1 with e1 | ⟨e1, h1⟩ <;> rcases hcases j' s2 with e2 | ⟨e2, h2⟩
    · obtain ⟨rfl, rfl⟩ := Prod.mk.inj e1
      obtain ⟨rfl, rfl⟩ := Prod.mk.inj e2
      exact ⟨rfl, rfl⟩
    · obtain ⟨rfl, rfl⟩ := Prod.mk.inj e1
      rw [hk.new, h2] at heq
      exact absurd heq.symm (hfree j' s2)
    · obtain ⟨rfl, rfl⟩ := Prod.mk.inj e2
      rw [hk.new, h1] at heq
      exact absurd heq (hfree j s1)
    · rw [h1] at hne
      rw [h1, h2] at heq
      exact h.once j s1 j' s2 hne heq
  · rcases hcases j s' with e | ⟨-, h1⟩
    · obtain ⟨rfl, rfl⟩ := Prod.mk.inj e
      rw [hk.new, hk.bits b hk.data.2, decide_eq_true rfl, Bool.or_true]
    · rw [h1] at hne ⊢
      exact hmono _ (h.data j s' hne).2 (h.used j s' hne)
  · rcases List.mem_cons.mp hc with rfl | hc
    · exact ⟨i, hb0, s, hk.new⟩
    · obtain ⟨j, hne, s', rfl⟩ := h.owned c hc
      refine ⟨j, hne, s', hk.same j s' fun e => hne ?_⟩
      obtain ⟨rfl, rfl⟩ := Prod.mk.inj e
      exact hk.empty
  · rcases hcases j s' with e | ⟨-, h1⟩
    · obtain ⟨rfl, rfl⟩ := Prod.mk.inj e
      rw [hk.new]
      exact hk.data
    · rw [h1] at hne ⊢
      exact h.data j s' hne

section Entry

variable (hi : i < sb.numInodes) (he : diskEntry sb σ i = e) (ht : e.type ≠ inodeInvalid)
include hi he ht

omit hl in
theorem stored_eq (s : Slot) : stored sb σ i s = e.slot σ s := by
  rw [stored, he, if_pos ⟨hi, ht⟩]

/-- The entry of `i` is written after `b` has been allocated, with `b` in the slot `s`. -/
theorem Owns.links_setEntry {e' : InodeEntry} (h : Owns sb σ F) (hb : sb.IsData b)
    (hbit : bit sb σ b = false) (h0 : e.slot σ s = 0) (ht' : e'.type ≠ inodeInvalid)
    (hind : e'.indirect ≠ 0 → e'.indirect.toNat ≠ sb.toBlockNo i)
    (hnew : e'.slot (allocated sb σ b) s = b)
    (hsame : ∀ s', s' ≠ s → e'.slot (allocated sb σ b) s' = e.slot σ s') :
    Links sb σ (setEntry sb (allocated sb σ b) i e') i s b := by
  have halloc := h.alloc hl hb hbit
  have hself : ∀ s', stored sb (setEntry sb (allocated sb σ b) i e') i s' =
      e'.slot (allocated sb σ b) s' := by
    intro s'
    rw [stored_setEntry_self hi hind, if_pos ht']
  refine ⟨hb, hbit, ?_, ?_, fun j s' hne => ?_, fun c hc => ?_, fun j hj hne => ?_,
    fun c hc hused _ => ?_⟩
  · rw [stored_eq hi he ht, h0]
  · rw [hself, hnew]
  · by_cases hj : j = i
    · subst hj
      rw [hself, stored_eq hi he ht, hsame s' fun e => hne (by rw [e])]
    · rw [stored_setEntry_of_ne hl hi halloc hj, h.stored_allocated hl hb hbit]
  · rw [bit_setEntry hl hi, bit_allocated hb hc]
  · rw [diskEntry_setEntry_of_ne hne, diskEntry_allocated hl hb hj]
  · rw [setEntry_of_ne (toBlockNo_ne_of_isData hl hi hc), allocated_of_used hb hbit hc hused]

/-- Slots other than those in the indirect block do not depend on the contents, and the entry of a
    block in use does not change while another block is allocated. -/
theorem Owns.slot_allocated (h : Owns sb σ F) (hb : sb.IsData b) (hbit : bit sb σ b = false)
    (s : Slot) : e.slot (allocated sb σ b) s = e.slot σ s := by
  rw [← stored_eq hi ((diskEntry_allocated hl hb hi).trans he) ht,
    h.stored_allocated hl hb hbit, stored_eq hi he ht]

/-- The indirect block of an inode is not one of the inode blocks. -/
theorem Owns.indirect_ne (h : Owns sb σ F) (h0 : e.indirect ≠ 0) :
    e.indirect.toNat ≠ sb.toBlockNo i := by
  have heq : stored sb σ i .indirect = e.indirect.toNat := stored_eq hi he ht .indirect
  have hne : stored sb σ i .indirect ≠ 0 := fun e0 => h0 (toNat_eq_zero.mp (heq.symm.trans e0))
  rw [← heq]
  exact toBlockNo_ne_of_isData hl hi (h.data i _ hne)

variable (hcap : sb.numBlocks ≤ 2 ^ 32)
include hcap

/-- `addrs[k]` becomes the new block. -/
theorem Owns.links_direct {k : Fin inodeNumDirect} (h : Owns sb σ F) (hb : sb.IsData b)
    (hbit : bit sb σ b = false) (h0 : e.slot σ (.direct k) = 0) :
    Links sb σ (setEntry sb (allocated sb σ b) i (e.setAddr k (UInt32.ofNat b))) i (.direct k) b := by
  have hind : e.indirect ≠ 0 → e.indirect.toNat ≠ sb.toBlockNo i := h.indirect_ne hl hi he ht
  refine h.links_setEntry hl hi he ht hb hbit h0 ht hind ?_ fun s' hne => ?_
  · show (if (k : ℕ) = k then UInt32.ofNat b else e.addrs k).toNat = b
    rw [if_pos rfl, toNat_ofNat_block hcap hb]
  · rw [← h.slot_allocated hl hi he ht hb hbit s']
    cases s' with
    | direct j =>
      show (if (j : ℕ) = k then UInt32.ofNat b else e.addrs j).toNat = (e.addrs j).toNat
      rw [if_neg fun e0 => hne (congrArg Slot.direct (Fin.ext e0))]
    | indirect => rfl
    | entry j => rfl

/-- `indirect` becomes the new block. -/
theorem Owns.links_indirect (h : Owns sb σ F) (hb : sb.IsData b) (hbit : bit sb σ b = false)
    (h0 : e.slot σ .indirect = 0) :
    Links sb σ (setEntry sb (allocated sb σ b) i { e with indirect := UInt32.ofNat b }) i
      .indirect b := by
  have hto := toNat_ofNat_block hcap hb
  refine h.links_setEntry hl hi he ht hb hbit h0 ht (fun _ => ?_) hto fun s' hne => ?_
  · show (UInt32.ofNat b).toNat ≠ sb.toBlockNo i
    rw [hto]
    exact toBlockNo_ne_of_isData hl hi hb
  · cases s' with
    | direct j => rfl
    | indirect => exact absurd rfl hne
    | entry j =>
      -- the new indirect block is zero
      have hzero : e.indirect = 0 := toNat_eq_zero.mp h0
      have hnew : UInt32.ofNat b ≠ 0 := fun e0 =>
        IsData.ne_zero hl hb (hto.symm.trans (toNat_eq_zero.mpr e0))
      simp only [InodeEntry.slot]
      rw [if_neg hnew, if_pos hzero, hto, allocated_self, IndirectBlock.get_zeroBlock]
      rfl

/-- The `k`-th address in the indirect block becomes the new block. -/
theorem Owns.links_entry {k : Fin inodeNumIndirect} (h : Owns sb σ F) (hb : sb.IsData b)
    (hbit : bit sb σ b = false) (hind : e.indirect ≠ 0) (h0 : e.slot σ (.entry k) = 0) :
    Links sb σ (Function.update (allocated sb σ b) e.indirect.toNat
      (IndirectBlock.set (allocated sb σ b e.indirect.toNat) k (UInt32.ofNat b))) i (.entry k) b := by
  have heq : stored sb σ i .indirect = e.indirect.toNat := stored_eq hi he ht .indirect
  have hne : stored sb σ i .indirect ≠ 0 := fun e0 => hind (toNat_eq_zero.mp (heq.symm.trans e0))
  have hdata := h.data i _ hne
  have hused := h.used i _ hne
  rw [heq] at hdata hused
  have hentry : ∀ (τ : BlockData) (j : ℕ), j < sb.numInodes →
      diskEntry sb (Function.update (allocated sb σ b) e.indirect.toNat τ) j = diskEntry sb σ j := by
    intro τ j hj
    rw [diskEntry, Function.update_of_ne (toBlockNo_ne_of_isData hl hj hdata).symm]
    exact diskEntry_allocated hl hb hj
  refine ⟨hb, hbit, ?_, ?_, fun j s' hne' => ?_, fun c hc => ?_, fun j hj _ => hentry _ j hj,
    fun c hc hu hci => ?_⟩
  · rw [stored_eq hi he ht, h0]
  · rw [stored_eq hi ((hentry _ i hi).trans he) ht]
    simp only [InodeEntry.slot]
    rw [if_neg hind, Function.update_self, IndirectBlock.get_set _ k.isLt, toNat_ofNat_block hcap hb]
  · by_cases hj : j = i
    · subst hj
      rw [stored_eq hi ((hentry _ j hi).trans he) ht, stored_eq hi he ht]
      cases s' with
      | direct k' => rfl
      | indirect => rfl
      | entry k' =>
        have hk : (k' : ℕ) ≠ k := fun e0 => hne' (congrArg (fun x => (j, Slot.entry x)) (Fin.ext e0))
        simp only [InodeEntry.slot]
        rw [if_neg hind, if_neg hind, Function.update_self, IndirectBlock.get_set_of_ne _ k'.isLt hk,
          allocated_of_used hb hbit hdata hused]
    · refine stored_congr (fun hj' => hentry _ j hj') fun hne2 => ?_
      rw [Function.update_of_ne, allocated_of_used hb hbit (h.data j _ hne2) (h.used j _ hne2)]
      exact fun e0 => hj (h.once j _ i .indirect hne2 (e0.trans heq.symm)).1
  · rw [← bit_allocated hb hc]
    exact bit_congr (Function.update_of_ne (bitmapBlock_ne_of_isData hc hdata) _ _)
  · rw [Function.update_of_ne (fun e0 => hci (e0.trans heq.symm)), allocated_of_used hb hbit hc hu]

end Entry

/-! ## The contents of the blocks of a file -/

/-- Another content of a block that is stored in a slot other than `indirect`: the inodes store
    what they stored. -/
theorem Owns.stored_write (h : Owns sb σ F) {d : BlockData} (hs : s ≠ .indirect)
    (h0 : stored sb σ i s ≠ 0) (j : ℕ) (s' : Slot) :
    stored sb (Function.update σ (stored sb σ i s) d) j s' = stored sb σ j s' := by
  refine stored_congr (fun hj => ?_) fun hne => Function.update_of_ne (fun e => ?_) _ _
  · rw [diskEntry, Function.update_of_ne (toBlockNo_ne_of_isData hl hj (h.data i s h0)).symm,
      diskEntry]
  · exact hs (h.once j _ i s hne e).2.symm

theorem Owns.write (h : Owns sb σ F) {d : BlockData} (hs : s ≠ .indirect)
    (h0 : stored sb σ i s ≠ 0) : Owns sb (Function.update σ (stored sb σ i s) d) F :=
  h.congr (h.stored_write hl hs h0) fun _ hc =>
    bit_congr (Function.update_of_ne (bitmapBlock_ne_of_isData hc (h.data i s h0)) _ _)

/-- The entry of an inode is replaced by one with the same blocks. -/
theorem Owns.stored_resize (h : Owns sb σ F) (hi : i < sb.numInodes) {e' : InodeEntry}
    (ht : (diskEntry sb σ i).type = e'.type) (ha : (diskEntry sb σ i).addrs = e'.addrs)
    (hind : (diskEntry sb σ i).indirect = e'.indirect) (j : ℕ) (s' : Slot) :
    stored sb (setEntry sb σ i e') j s' = stored sb σ j s' := by
  by_cases hj : j = i
  swap
  · exact stored_setEntry_of_ne hl hi h hj
  subst hj
  have hslot : e'.slot σ s' = (diskEntry sb σ j).slot σ s' := by
    cases s' <;> simp only [InodeEntry.slot, ha, hind]
  by_cases hv : (diskEntry sb σ j).type = inodeInvalid
  · unfold stored
    rw [diskEntry_setEntry_self, if_neg (by rw [← ht]; exact fun hc => hc.2 hv),
      if_neg fun hc => hc.2 hv]
  · have hne : e'.indirect ≠ 0 → e'.indirect.toNat ≠ sb.toBlockNo j := by
      rw [← hind]
      exact h.indirect_ne hl hi rfl hv
    rw [stored_setEntry_self hi hne, if_pos (by rw [← ht]; exact hv), hslot, stored_eq hi rfl hv]

theorem Owns.resize (h : Owns sb σ F) (hi : i < sb.numInodes) {e' : InodeEntry}
    (ht : (diskEntry sb σ i).type = e'.type) (ha : (diskEntry sb σ i).addrs = e'.addrs)
    (hind : (diskEntry sb σ i).indirect = e'.indirect) : Owns sb (setEntry sb σ i e') F :=
  h.congr (h.stored_resize hl hi ht ha hind) fun _ _ => bit_setEntry hl hi

end Areas

end ShikiOS.Fs
