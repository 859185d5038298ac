import ShikiOS.Fs.Defines

/-!
# Inodes and bitmaps on the device (`fs/defines.h`)

An inode block holds eight inode entries, an indirect block 128 addresses, and a bitmap
block one bit for each of 4096 blocks. All words are little endian.

Results:
* `InodeEntry.get_put`, `InodeEntry.get_put_of_ne`: an entry written to a block is read
  back, and the other entries of the block do not change.
* `IndirectBlock.get_set`, `Bitmap.get_set`: the same for addresses and bits.
-/

namespace ShikiOS.Fs

open ShikiOS.Lib

/-! ## Inode entries -/

/-- `InodeType` (defines.h:31). -/
abbrev InodeType := UInt16

/-- `INODE_INVALID`, `INODE_DIRECTORY`, `INODE_REGULAR` and `INODE_DEVICE`
    (defines.h:24-27). -/
def inodeInvalid : InodeType := 0
def inodeDirectory : InodeType := 1
def inodeRegular : InodeType := 2
def inodeDevice : InodeType := 3

/-- `ROOT_INODE_NO` (defines.h:29). -/
def rootInodeNo : ℕ := 1

/-- `INODE_NUM_DIRECT` (defines.h:14). -/
def inodeNumDirect : ℕ := 12

/-- `INODE_NUM_INDIRECT = BLOCK_SIZE / sizeof(u32)` (defines.h:15). -/
def inodeNumIndirect : ℕ := blockSize / 4

/-- `INODE_MAX_BYTES` (defines.h:17-18). -/
def inodeMaxBytes : ℕ := (inodeNumDirect + inodeNumIndirect) * blockSize

/-- `InodeEntry` (defines.h:51-59). -/
structure InodeEntry where
  type : InodeType
  major : UInt16
  minor : UInt16
  numLinks : UInt16
  numBytes : UInt32
  addrs : Fin inodeNumDirect → UInt32
  indirect : UInt32

namespace InodeEntry

/-- An entry of zero bytes. -/
def zero : InodeEntry := ⟨0, 0, 0, 0, 0, fun _ => 0, 0⟩

/-- The four 16-bit fields at the front of an entry. -/
def half (e : InodeEntry) : ℕ → UInt16
  | 0 => e.type
  | 1 => e.major
  | 2 => e.minor
  | _ => e.numLinks

/-- The 32-bit fields behind them. -/
def word (e : InodeEntry) : ℕ → UInt32
  | 0 => e.numBytes
  | k + 1 => if h : k < inodeNumDirect then e.addrs ⟨k, h⟩ else e.indirect

/-- `addrs[k]`. -/
def addr (e : InodeEntry) (k : ℕ) : UInt32 := if h : k < inodeNumDirect then e.addrs ⟨k, h⟩ else 0

/-- `addrs[k] = a`. -/
def setAddr (e : InodeEntry) (k : ℕ) (a : UInt32) : InodeEntry :=
  { e with addrs := fun j => if (j : ℕ) = k then a else e.addrs j }

/-- The bytes of an entry. -/
def byte (e : InodeEntry) (j : ℕ) : UInt8 :=
  if j < 8 then UInt8.ofNat ((e.half (j / 2)).toNat / 256 ^ (j % 2))
  else UInt8.ofNat ((e.word ((j - 8) / 4)).toNat / 256 ^ ((j - 8) % 4))

/-- The `k`-th entry of an inode block. -/
def get (d : BlockData) (k : ℕ) : InodeEntry where
  type := UInt16.ofNat (getLE d.bytes (64 * k) 2)
  major := UInt16.ofNat (getLE d.bytes (64 * k + 2) 2)
  minor := UInt16.ofNat (getLE d.bytes (64 * k + 4) 2)
  numLinks := UInt16.ofNat (getLE d.bytes (64 * k + 6) 2)
  numBytes := UInt32.ofNat (getLE d.bytes (64 * k + 8) 4)
  addrs := fun i => UInt32.ofNat (getLE d.bytes (64 * k + 12 + 4 * i) 4)
  indirect := UInt32.ofNat (getLE d.bytes (64 * k + 60) 4)

/-- An inode block with a new `k`-th entry. -/
def put (d : BlockData) (k : ℕ) (e : InodeEntry) : BlockData :=
  BlockData.ofBytes fun i =>
    if 64 * k ≤ i ∧ i < 64 * (k + 1) then e.byte (i - 64 * k) else d.bytes i

theorem bytes_put (d : BlockData) (k : ℕ) (e : InodeEntry) {i : ℕ} (h : i < blockSize) :
    (put d k e).bytes i =
      if 64 * k ≤ i ∧ i < 64 * (k + 1) then e.byte (i - 64 * k) else d.bytes i :=
  BlockData.bytes_ofBytes _ h

theorem half_put (d : BlockData) {k : ℕ} (hk : k < inodePerBlock) (e : InodeEntry) {i : ℕ}
    (hi : i < 4) : UInt16.ofNat (getLE (put d k e).bytes (64 * k + 2 * i) 2) = e.half i := by
  have hsize : inodePerBlock = 8 ∧ blockSize = 512 := ⟨rfl, rfl⟩
  have hbytes : getLE (put d k e).bytes (64 * k + 2 * i) 2 = (e.half i).toNat % 256 ^ 2 := by
    refine getLE_of_bytes fun j hj => ?_
    rw [bytes_put _ _ _ (by omega), if_pos ⟨by omega, by omega⟩,
      show 64 * k + 2 * i + j - 64 * k = 2 * i + j by omega, byte, if_pos (by omega),
      show (2 * i + j) / 2 = i by omega, show (2 * i + j) % 2 = j by omega]
  have hpow : 256 ^ 2 = 2 ^ 16 := by norm_num
  rw [hbytes, hpow, Nat.mod_eq_of_lt (e.half i).toNat_lt, UInt16.ofNat_toNat]

theorem word_put (d : BlockData) {k : ℕ} (hk : k < inodePerBlock) (e : InodeEntry) {i : ℕ}
    (hi : i < 14) : UInt32.ofNat (getLE (put d k e).bytes (64 * k + 8 + 4 * i) 4) = e.word i := by
  have hsize : inodePerBlock = 8 ∧ blockSize = 512 := ⟨rfl, rfl⟩
  have hbytes : getLE (put d k e).bytes (64 * k + 8 + 4 * i) 4 = (e.word i).toNat % 256 ^ 4 := by
    refine getLE_of_bytes fun j hj => ?_
    rw [bytes_put _ _ _ (by omega), if_pos ⟨by omega, by omega⟩,
      show 64 * k + 8 + 4 * i + j - 64 * k = 8 + (4 * i + j) by omega, byte,
      if_neg (by omega), show (8 + (4 * i + j) - 8) / 4 = i by omega,
      show (8 + (4 * i + j) - 8) % 4 = j by omega]
  have hpow : 256 ^ 4 = 2 ^ 32 := by norm_num
  rw [hbytes, hpow, Nat.mod_eq_of_lt (e.word i).toNat_lt, UInt32.ofNat_toNat]

/-- An entry written to a block is read back. -/
theorem get_put (d : BlockData) {k : ℕ} (hk : k < inodePerBlock) (e : InodeEntry) :
    get (put d k e) k = e := by
  have haddrs : (get (put d k e) k).addrs = e.addrs := by
    funext i
    have hi : (i : ℕ) < 12 := i.isLt
    have := word_put d hk e (i := i + 1) (by omega)
    rw [show 64 * k + 8 + 4 * ((i : ℕ) + 1) = 64 * k + 12 + 4 * i by omega] at this
    refine this.trans ?_
    simp only [word, i.isLt, dif_pos, Fin.eta]
  have h13 : (get (put d k e) k).indirect = e.indirect := word_put d hk e (i := 13) (by omega)
  have h8 : (get (put d k e) k).numBytes = e.numBytes := word_put d hk e (i := 0) (by omega)
  have h0 : (get (put d k e) k).type = e.type := half_put d hk e (i := 0) (by omega)
  have h2 : (get (put d k e) k).major = e.major := half_put d hk e (i := 1) (by omega)
  have h4 : (get (put d k e) k).minor = e.minor := half_put d hk e (i := 2) (by omega)
  have h6 : (get (put d k e) k).numLinks = e.numLinks := half_put d hk e (i := 3) (by omega)
  cases e
  simp only [get, mk.injEq] at *
  exact ⟨h0, h2, h4, h6, h8, haddrs, h13⟩

/-- The other entries of the block do not change. -/
theorem get_put_of_ne (d : BlockData) {k j : ℕ} (hj : j < inodePerBlock) (hne : j ≠ k)
    (e : InodeEntry) : get (put d k e) j = get d j := by
  have hsize : inodePerBlock = 8 ∧ blockSize = 512 := ⟨rfl, rfl⟩
  have hword : ∀ off n, 64 * j ≤ off → off + n ≤ 64 * (j + 1) →
      getLE (put d k e).bytes off n = getLE d.bytes off n := by
    intro off n h1 h2
    refine getLE_congr fun i h3 h4 => ?_
    rw [bytes_put _ _ _ (by omega), if_neg (by omega)]
  have haddrs : (get (put d k e) j).addrs = (get d j).addrs := by
    funext i
    have hi : (i : ℕ) < 12 := i.isLt
    exact congrArg UInt32.ofNat (hword _ _ (by omega) (by omega))
  simp only [get, mk.injEq] at haddrs ⊢
  refine ⟨?_, ?_, ?_, ?_, ?_, haddrs, ?_⟩ <;> rw [hword _ _ (by omega) (by omega)]

end InodeEntry

/-! ## Bytes -/

/-- `memcpy(data + start, src, src.length)`. -/
def BlockData.copy (d : BlockData) (start : ℕ) (src : List UInt8) : BlockData :=
  BlockData.ofBytes fun i =>
    if start ≤ i ∧ i < start + src.length then src.getD (i - start) 0 else d.bytes i

/-- The `n` bytes at `data + start`. -/
def BlockData.slice (d : BlockData) (start n : ℕ) : List UInt8 :=
  (List.range n).map fun i => d.bytes (start + i)

/-! ## Indirect blocks -/

namespace IndirectBlock

/-- The `i`-th address of an indirect block. -/
def get (d : BlockData) (i : ℕ) : UInt32 := UInt32.ofNat (getLE d.bytes (4 * i) 4)

/-- An indirect block with a new `i`-th address. -/
def set (d : BlockData) (i : ℕ) (a : UInt32) : BlockData :=
  BlockData.ofBytes (putLE d.bytes (4 * i) 4 a.toNat)

theorem getLE_set (d : BlockData) (i : ℕ) (a : UInt32) {j : ℕ} (hj : j < inodeNumIndirect) :
    getLE (set d i a).bytes (4 * j) 4 = getLE (putLE d.bytes (4 * i) 4 a.toNat) (4 * j) 4 := by
  have hsize : inodeNumIndirect = 128 ∧ blockSize = 512 := ⟨rfl, rfl⟩
  exact getLE_congr fun x _ h2 => BlockData.bytes_ofBytes _ (by omega)

theorem get_set (d : BlockData) {i : ℕ} (hi : i < inodeNumIndirect) (a : UInt32) :
    get (set d i a) i = a := by
  have hpow : 256 ^ 4 = 2 ^ 32 := by norm_num
  rw [get, getLE_set d i a hi, getLE_putLE, hpow, Nat.mod_eq_of_lt a.toNat_lt, UInt32.ofNat_toNat]

theorem get_set_of_ne (d : BlockData) {i j : ℕ} (hj : j < inodeNumIndirect) (hne : j ≠ i)
    (a : UInt32) : get (set d i a) j = get d j := by
  rw [get, getLE_set d i a hj, getLE_putLE_of_disjoint _ (by omega), get]

end IndirectBlock

/-! ## Bitmaps -/

namespace Bitmap

/-- Bit `k` of a bitmap block. -/
def get (d : BlockData) (k : ℕ) : Bool := (d.bytes (k / 8)).toNat.testBit (k % 8)

/-- `data[idx] |= 1 << offset` (cache.c:398). -/
def set (d : BlockData) (k : ℕ) : BlockData :=
  BlockData.ofBytes fun i => if i = k / 8 then
    UInt8.ofNat ((d.bytes i).toNat ||| 2 ^ (k % 8)) else d.bytes i

/-- `data[idx] &= ~BIT(offset)` (cache.c:427). -/
def clear (d : BlockData) (k : ℕ) : BlockData :=
  BlockData.ofBytes fun i => if i = k / 8 then
    UInt8.ofNat ((d.bytes i).toNat &&& (255 ^^^ 2 ^ (k % 8))) else d.bytes i

theorem get_set (d : BlockData) (k : ℕ) {j : ℕ} (hj : j < bitPerBlock) :
    get (set d k) j = (get d j || decide (j = k)) := by
  have hsize : bitPerBlock = 4096 ∧ blockSize = 512 := ⟨rfl, rfl⟩
  unfold get set
  rw [BlockData.bytes_ofBytes _ (by omega)]
  split_ifs with h
  · have hlt : (d.bytes (j / 8)).toNat < 2 ^ 8 := (d.bytes (j / 8)).toNat_lt
    have hor : (d.bytes (j / 8)).toNat ||| 2 ^ (k % 8) < 2 ^ 8 :=
      Nat.or_lt_two_pow hlt (Nat.pow_lt_pow_right (by omega) (by omega))
    rw [UInt8.toNat_ofNat', Nat.mod_eq_of_lt hor, Nat.testBit_or, Nat.testBit_two_pow]
    congr 1
    exact decide_eq_decide.mpr ⟨fun e => by omega, fun e => by omega⟩
  · have hne : j ≠ k := fun e => h (e ▸ rfl)
    rw [decide_eq_false hne, Bool.or_false]

theorem get_clear (d : BlockData) (k : ℕ) {j : ℕ} (hj : j < bitPerBlock) :
    get (clear d k) j = (get d j && decide (j ≠ k)) := by
  have hsize : bitPerBlock = 4096 ∧ blockSize = 512 := ⟨rfl, rfl⟩
  unfold get clear
  rw [BlockData.bytes_ofBytes _ (by omega)]
  split_ifs with h
  · have hlt : (d.bytes (j / 8)).toNat < 2 ^ 8 := (d.bytes (j / 8)).toNat_lt
    have hand : (d.bytes (j / 8)).toNat &&& (255 ^^^ 2 ^ (k % 8)) < 2 ^ 8 :=
      lt_of_le_of_lt Nat.and_le_left hlt
    have h255 : Nat.testBit 255 (j % 8) = true := by
      have : Nat.testBit (2 ^ 8 - 1) (j % 8) = decide (j % 8 < 8) := Nat.testBit_two_pow_sub_one 8 _
      rw [show (255 : ℕ) = 2 ^ 8 - 1 by norm_num, this]
      exact decide_eq_true (by omega)
    rw [UInt8.toNat_ofNat', Nat.mod_eq_of_lt hand, Nat.testBit_and, Nat.testBit_xor, h255,
      Nat.testBit_two_pow, Bool.true_xor]
    congr 1
    rw [← decide_not]
    exact decide_eq_decide.mpr ⟨fun e => by omega, fun e => by omega⟩
  · have hne : j ≠ k := fun e => h (e ▸ rfl)
    rw [decide_eq_true hne, Bool.and_true]

/-- The first of the first `n` bits that is clear, in the order of the loops of
    `cache_alloc` (cache.c:391-396). -/
def firstClear (d : BlockData) (n : ℕ) : Option ℕ := (List.range n).find? fun k => !get d k

theorem firstClear_spec {d : BlockData} {n k : ℕ} (h : firstClear d n = some k) :
    k < n ∧ get d k = false := by
  have h1 := List.mem_of_find?_eq_some h
  have h2 := List.find?_some h
  exact ⟨List.mem_range.mp h1, by simpa using h2⟩

/-- The bits before the first one that is clear are set. -/
theorem get_of_lt_firstClear {d : BlockData} {n k j : ℕ} (h : firstClear d n = some k) (hj : j < k) :
    get d j = true := by
  have hall := (List.find?_range_eq_some.mp h).2.2 j hj
  simpa using hall

theorem get_of_firstClear_none {d : BlockData} {n j : ℕ} (h : firstClear d n = none) (hj : j < n) :
    get d j = true := by
  have hall := List.find?_range_eq_none.mp h j hj
  simpa using hall

end Bitmap

end ShikiOS.Fs
