import Mathlib.Data.List.GetD
import ShikiOS.Fs.BlockOwnership

/-!
# The blocks of a file (`fs/defines.h`)

The parts of a file are numbered from 0; part `k` is in the block that the slot `fileSlot k`
stores. `Wrote sb σ τ i off src` says what may have changed between the devices `σ` and `τ` while
`src` was written to inode `i` at `off`: these bytes, and blocks that were not there before.

Results:
* `Wrote.trans`: bytes that are written one after the other.
* `Links.wrote`, `Owns.wrote_copy`, `Owns.wrote_resize`: the three kinds of changes that
  `inode_write` makes.
-/

namespace ShikiOS.Fs

open ShikiOS.Lib Bcache

/-- The number of parts that a file can have. -/
def inodeNumParts : ℕ := inodeNumDirect + inodeNumIndirect

theorem div_blockSize_lt {x : ℕ} (hx : x < inodeMaxBytes) : x / blockSize < inodeNumParts :=
  Nat.div_lt_of_lt_mul ((Nat.mul_comm _ _).symm ▸ hx)

/-- The slot with the block of part `k` of a file. -/
def fileSlot (k : ℕ) : Slot :=
  if h : k < inodeNumDirect then .direct ⟨k, h⟩
  else .entry ⟨(k - inodeNumDirect) % inodeNumIndirect, Nat.mod_lt _ (by decide)⟩

theorem fileSlot_ne_indirect (k : ℕ) : fileSlot k ≠ .indirect := by
  unfold fileSlot
  split_ifs <;> exact Slot.noConfusion

theorem fileSlot_inj {j k : ℕ} (hj : j < inodeNumParts) (hk : k < inodeNumParts)
    (h : fileSlot j = fileSlot k) : j = k := by
  have hsize : inodeNumDirect = 12 ∧ inodeNumIndirect = 128 ∧ inodeNumParts = 140 := ⟨rfl, rfl, rfl⟩
  unfold fileSlot at h
  split_ifs at h with h1 h2 h2
  · exact Fin.mk.inj (Slot.direct.inj h)
  · have hmod : (j - inodeNumDirect) % inodeNumIndirect = (k - inodeNumDirect) % inodeNumIndirect :=
      Fin.mk.inj (Slot.entry.inj h)
    rw [Nat.mod_eq_of_lt (by omega), Nat.mod_eq_of_lt (by omega)] at hmod
    omega

/-- The block of part `k` of inode `i`, where 0 means none. -/
def part (sb : SuperBlock) (σ : ℕ → BlockData) (i k : ℕ) : ℕ := stored sb σ i (fileSlot k)

/-- The byte `x` of inode `i`. -/
def partByte (sb : SuperBlock) (σ : ℕ → BlockData) (i x : ℕ) : UInt8 :=
  (σ (part sb σ i (x / blockSize))).bytes (x % blockSize)

/-- From `σ` to `τ` the bytes `src` were written to inode `i` at `off`. -/
structure Wrote (sb : SuperBlock) (σ τ : ℕ → BlockData) (i off : ℕ) (src : List UInt8) : Prop where
  kept : ∀ s, stored sb σ i s ≠ 0 → stored sb τ i s = stored sb σ i s
  entry : ∀ j < sb.numInodes, j ≠ i → diskEntry sb τ j = diskEntry sb σ j
  other : ∀ j s, j ≠ i → stored sb τ j s = stored sb σ j s
  content : ∀ j s, j ≠ i → stored sb σ j s ≠ 0 → τ (stored sb σ j s) = σ (stored sb σ j s)
  covered : ∀ x, off ≤ x → x < off + src.length → part sb τ i (x / blockSize) ≠ 0
  inside : ∀ x, off ≤ x → x < off + src.length → partByte sb τ i x = src.getD (x - off) 0
  outside : ∀ x < inodeMaxBytes, part sb σ i (x / blockSize) ≠ 0 →
    x < off ∨ off + src.length ≤ x → partByte sb τ i x = partByte sb σ i x

variable {sb : SuperBlock} {σ τ υ : ℕ → BlockData} {F : List ℕ} {i j b off : ℕ} {s : Slot}
  {src l l' : List UInt8}

theorem Wrote.part_ne (h : Wrote sb σ τ i off src) {k : ℕ} (h0 : part sb σ i k ≠ 0) :
    part sb τ i k = part sb σ i k ∧ part sb τ i k ≠ 0 :=
  have heq : part sb τ i k = part sb σ i k := h.kept _ h0
  ⟨heq, heq ▸ h0⟩

/-- A change that writes no byte. -/
theorem Wrote.nil (hk : ∀ s, stored sb σ i s ≠ 0 → stored sb τ i s = stored sb σ i s)
    (he : ∀ j < sb.numInodes, j ≠ i → diskEntry sb τ j = diskEntry sb σ j)
    (ho : ∀ j s, j ≠ i → stored sb τ j s = stored sb σ j s)
    (hc : ∀ j s, stored sb σ j s ≠ 0 → (j, s) ≠ (i, .indirect) →
      τ (stored sb σ j s) = σ (stored sb σ j s)) (off : ℕ) : Wrote sb σ τ i off [] := by
  refine ⟨hk, he, ho, fun j s hj hne => hc j s hne fun e => hj (congrArg Prod.fst e),
    fun x h1 h2 => absurd h2 (not_lt.mpr h1), fun x h1 h2 => absurd h2 (not_lt.mpr h1),
    fun x _ h0 _ => ?_⟩
  have hpart : part sb τ i (x / blockSize) = part sb σ i (x / blockSize) := hk _ h0
  have hdata : τ (part sb σ i (x / blockSize)) = σ (part sb σ i (x / blockSize)) :=
    hc i _ h0 fun e => fileSlot_ne_indirect _ (congrArg Prod.snd e)
  rw [partByte, hpart, hdata, partByte]

theorem Wrote.refl (sb : SuperBlock) (σ : ℕ → BlockData) (i off : ℕ) : Wrote sb σ σ i off [] :=
  .nil (fun _ _ => rfl) (fun _ _ _ => rfl) (fun _ _ _ => rfl) (fun _ _ _ _ => rfl) off

/-- First `l` is written, then `l'` behind it. -/
theorem Wrote.trans (h : Wrote sb σ τ i off l) (h' : Wrote sb τ υ i (off + l.length) l')
    (hmax : off + l.length ≤ inodeMaxBytes) : Wrote sb σ υ i off (l ++ l') := by
  have hlen : off + (l ++ l').length = off + l.length + l'.length := by
    rw [List.length_append, Nat.add_assoc]
  refine ⟨fun s hne => ?_, fun j hj hne => ?_, fun j s hne => ?_, fun j s hne h0 => ?_,
    fun x h1 h2 => ?_, fun x h1 h2 => ?_, fun x h1 h0 h2 => ?_⟩
  · have h1 := h.kept s hne
    rw [h'.kept s (h1 ▸ hne), h1]
  · rw [h'.entry j hj hne, h.entry j hj hne]
  · rw [h'.other j s hne, h.other j s hne]
  · have h1 := h.other j s hne
    have h2 := h'.content j s hne (h1 ▸ h0)
    rw [h1] at h2
    rw [h2, h.content j s hne h0]
  · rw [hlen] at h2
    by_cases hx : x < off + l.length
    · exact (h'.part_ne (h.covered x h1 hx)).2
    · exact h'.covered x (not_lt.mp hx) h2
  · rw [hlen] at h2
    by_cases hx : x < off + l.length
    · rw [h'.outside x (lt_of_lt_of_le hx hmax) (h.covered x h1 hx) (.inl hx), h.inside x h1 hx,
        List.getD_append _ _ _ _ (by omega)]
    · rw [h'.inside x (not_lt.mp hx) h2, List.getD_append_right _ _ _ _ (by omega), Nat.sub_sub]
  · rw [hlen] at h2
    rw [h'.outside x h1 (h.part_ne h0).2 (by omega), h.outside x h1 h0 (by omega)]

theorem Wrote.trans_nil (h : Wrote sb σ τ i 0 []) (h' : Wrote sb τ υ i 0 []) (off : ℕ) :
    Wrote sb σ υ i off [] := by
  obtain ⟨h1, h2, h3, h4, -, -, h5⟩ := h.trans h' (Nat.zero_le _)
  exact ⟨h1, h2, h3, h4, fun x hx hx' => absurd hx' (not_lt.mpr hx),
    fun x hx hx' => absurd hx' (not_lt.mpr hx), fun x hx h0 _ => h5 x hx h0 (.inr (Nat.zero_le x))⟩

/-! ## The changes that `inode_write` makes -/

variable (hl : sb.Layout)

/-- A new block in a slot. -/
theorem Links.wrote (hk : Links sb σ τ i s b) (h : Owns sb σ F) (off : ℕ) :
    Wrote sb σ τ i off [] := by
  refine .nil (fun s' hne => hk.same i s' fun e => hne ?_) hk.entry
    (fun j s' hj => hk.same j s' fun e => hj (congrArg Prod.fst e)) (fun j s' hne hji => ?_) off
  · obtain ⟨-, rfl⟩ := Prod.mk.inj e
    exact hk.empty
  · refine hk.block _ (h.data j s' hne) (h.used j s' hne) fun e => hji ?_
    obtain ⟨rfl, rfl⟩ := h.once j s' i .indirect hne e
    rfl

include hl

/-- The entry of the inode is written, with the same blocks. -/
theorem Owns.wrote_resize (h : Owns sb σ F) (hi : i < sb.numInodes) {e' : InodeEntry}
    (ht : (diskEntry sb σ i).type = e'.type) (ha : (diskEntry sb σ i).addrs = e'.addrs)
    (hind : (diskEntry sb σ i).indirect = e'.indirect) (off : ℕ) :
    Wrote sb σ (setEntry sb σ i e') i off [] := by
  have hs := h.stored_resize hl hi ht ha hind
  exact .nil (fun s _ => hs i s) (fun j _ hj => diskEntry_setEntry_of_ne hj) (fun j s _ => hs j s)
    (fun j s hne _ => setEntry_of_ne (toBlockNo_ne_of_isData hl hi (h.data j s hne))) off

/-- Bytes are copied into one block of the file. -/
theorem Owns.wrote_copy (h : Owns sb σ F) (h0 : part sb σ i (off / blockSize) ≠ 0)
    (hoff : off < inodeMaxBytes) (hsrc : off % blockSize + src.length ≤ blockSize) :
    Wrote sb σ (Function.update σ (part sb σ i (off / blockSize))
      ((σ (part sb σ i (off / blockSize))).copy (off % blockSize) src)) i off src := by
  generalize hd : (σ (part sb σ i (off / blockSize))).copy (off % blockSize) src = d
  have hbyte : ∀ y < blockSize, d.bytes y =
      if off % blockSize ≤ y ∧ y < off % blockSize + src.length
      then src.getD (y - off % blockSize) 0 else (σ (part sb σ i (off / blockSize))).bytes y :=
    fun y hy => hd ▸ BlockData.bytes_ofBytes _ hy
  have hs : ∀ j s, stored sb (Function.update σ (part sb σ i (off / blockSize)) d) j s =
      stored sb σ j s := h.stored_write hl (fileSlot_ne_indirect (off / blockSize)) h0
  have hpart : ∀ k, part sb (Function.update σ (part sb σ i (off / blockSize)) d) i k =
      part sb σ i k := fun k => hs i (fileSlot k)
  have hdata : sb.IsData (part sb σ i (off / blockSize)) := h.data i _ h0
  have hin : ∀ x, off ≤ x → x < off + src.length → x / blockSize = off / blockSize ∧
      x % blockSize = off % blockSize + (x - off) := by
    intro x h1 h2
    unfold blockSize at hsrc ⊢
    omega
  have hmod : ∀ x, x % blockSize < blockSize := fun x => Nat.mod_lt x (by decide)
  refine ⟨fun s _ => hs i s, fun j hj _ => ?_, fun j s _ => hs j s, fun j s hj hne => ?_,
    fun x h1 h2 => ?_, fun x h1 h2 => ?_, fun x h1 hx h2 => ?_⟩
  · rw [diskEntry, Function.update_of_ne (toBlockNo_ne_of_isData hl hj hdata).symm, diskEntry]
  · exact Function.update_of_ne (fun e => hj (h.once j s i _ hne e).1) _ _
  · rw [hpart, (hin x h1 h2).1]
    exact h0
  · obtain ⟨hx1, hx2⟩ := hin x h1 h2
    rw [partByte, hpart, hx1, Function.update_self, hbyte _ (hmod x), hx2,
      if_pos ⟨by omega, by omega⟩, Nat.add_sub_cancel_left]
  · rw [partByte, hpart]
    by_cases heq : x / blockSize = off / blockSize
    · rw [heq, Function.update_self, hbyte _ (hmod x), if_neg, partByte, heq]
      rintro ⟨h3, h4⟩
      have hx1 := Nat.div_add_mod x blockSize
      have hx2 := Nat.div_add_mod off blockSize
      rw [heq] at hx1
      omega
    · -- another block of the file
      rw [Function.update_of_ne, partByte]
      exact fun e => heq (fileSlot_inj (div_blockSize_lt h1) (div_blockSize_lt hoff)
        (h.once i _ i _ hx e).2)

end ShikiOS.Fs
