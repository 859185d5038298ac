import Mathlib.Tactic
import ShikiOS.Lib.Bytes

/-!
# On-disk formats (`fs/defines.h`, `fs/cache.h`)

The constants, the super block, the blocks and the log header. A `usize` or `u32` is
a natural number; where a value is stored in a block it is cut to its width.
-/

namespace ShikiOS.Fs

open ShikiOS.Lib

/-- `BLOCK_SIZE` (defines.h:9). -/
def blockSize : ℕ := 512

/-- `LOG_MAX_SIZE = (BLOCK_SIZE - sizeof(usize)) / sizeof(usize)` (defines.h:12). -/
def logMaxSize : ℕ := (blockSize - 8) / 8

/-- `OP_MAX_NUM_BLOCKS` (cache.h:10). -/
def opMaxNumBlocks : ℕ := 10

/-- `EVICTION_THRESHOLD` (cache.h:18). -/
def evictionThreshold : ℕ := 20

theorem logMaxSize_eq : logMaxSize = 63 := rfl

theorem opMaxNumBlocks_eq : opMaxNumBlocks = 10 := rfl

/-- `BIT_PER_BLOCK` (defines.h:33). -/
def bitPerBlock : ℕ := blockSize * 8

/-- `INODE_PER_BLOCK = BLOCK_SIZE / sizeof(InodeEntry)` (defines.h:16). -/
def inodePerBlock : ℕ := blockSize / 64

/-- `SuperBlock` (defines.h:40-48). -/
structure SuperBlock where
  numBlocks : ℕ
  numDataBlocks : ℕ
  numInodes : ℕ
  numLogBlocks : ℕ
  logStart : ℕ
  inodeStart : ℕ
  bitmapStart : ℕ
deriving DecidableEq, Repr

/-- The layout that `mkfs` gives the disk (defines.h:35-36): the MBR and the
    super block, then the log, inode, bitmap and data areas. -/
structure SuperBlock.Layout (sb : SuperBlock) : Prop where
  log : 2 ≤ sb.logStart
  inode : sb.logStart + sb.numLogBlocks ≤ sb.inodeStart
  bitmap : sb.inodeStart + (sb.numInodes + inodePerBlock - 1) / inodePerBlock ≤ sb.bitmapStart
  data : sb.bitmapStart + (sb.numBlocks + bitPerBlock - 1) / bitPerBlock + sb.numDataBlocks ≤
    sb.numBlocks

/-- The blocks of the log area: the header and the log blocks behind it. -/
def SuperBlock.InLog (sb : SuperBlock) (b : ℕ) : Prop :=
  sb.logStart ≤ b ∧ b < sb.logStart + sb.numLogBlocks

instance (sb : SuperBlock) (b : ℕ) : Decidable (sb.InLog b) := inferInstanceAs (Decidable (_ ∧ _))

/-- The block with the bit of block `b` (cache.c:389 and 420). -/
def SuperBlock.bitmapBlock (sb : SuperBlock) (b : ℕ) : ℕ := sb.bitmapStart + b / bitPerBlock

/-- The first block behind the bitmap. -/
def SuperBlock.dataStart (sb : SuperBlock) : ℕ :=
  sb.bitmapStart + (sb.numBlocks + bitPerBlock - 1) / bitPerBlock

/-- The blocks of the data area. -/
def SuperBlock.IsData (sb : SuperBlock) (b : ℕ) : Prop := sb.dataStart ≤ b ∧ b < sb.numBlocks

instance (sb : SuperBlock) (b : ℕ) : Decidable (sb.IsData b) := inferInstanceAs (Decidable (_ ∧ _))

/-- `to_block_no` (inode.c:47-49). -/
def SuperBlock.toBlockNo (sb : SuperBlock) (inodeNo : ℕ) : ℕ := sb.inodeStart + inodeNo / inodePerBlock

/-- The super block of the repository's tests (test/mock/cache.hpp:24-34). -/
def mockSuperBlock : SuperBlock where
  numBlocks := 2000
  numDataBlocks := 1000
  numInodes := 1000
  numLogBlocks := 50
  logStart := 2
  inodeStart := 200
  bitmapStart := 900

theorem SuperBlock.not_inLog_of_ge {sb : SuperBlock} {b : ℕ}
    (hb : sb.logStart + sb.numLogBlocks ≤ b) : ¬ sb.InLog b :=
  fun h => absurd h.2 (not_lt.mpr hb)

theorem SuperBlock.IsData.ge {sb : SuperBlock} {b : ℕ} (hb : sb.IsData b) : sb.bitmapStart ≤ b :=
  le_trans (Nat.le_add_right _ _) hb.1

namespace SuperBlock.Layout

variable {sb : SuperBlock} (hl : sb.Layout)
include hl

theorem toBlockNo_bounds {i : ℕ} (hi : i < sb.numInodes) :
    sb.logStart + sb.numLogBlocks ≤ sb.toBlockNo i ∧ sb.toBlockNo i < sb.bitmapStart := by
  have h1 := hl.inode
  have h2 := hl.bitmap
  have h8 : inodePerBlock = 8 := rfl
  rw [h8] at h2
  unfold toBlockNo
  rw [h8]
  omega

theorem bitmapStart_ge : sb.logStart + sb.numLogBlocks ≤ sb.bitmapStart :=
  le_trans hl.inode (le_trans (Nat.le_add_right _ _) hl.bitmap)

omit hl in
theorem bitmapBlock_bounds {b : ℕ} (hb : b < sb.numBlocks) :
    sb.bitmapStart ≤ sb.bitmapBlock b ∧ sb.bitmapBlock b < sb.dataStart := by
  have h8 : bitPerBlock = 4096 := rfl
  unfold bitmapBlock dataStart
  rw [h8]
  omega

theorem not_inLog_bitmapBlock {b : ℕ} (hb : b < sb.numBlocks) : ¬ sb.InLog (sb.bitmapBlock b) :=
  not_inLog_of_ge (hl.bitmapStart_ge.trans (bitmapBlock_bounds hb).1)

theorem not_inLog_toBlockNo {i : ℕ} (hi : i < sb.numInodes) : ¬ sb.InLog (sb.toBlockNo i) :=
  not_inLog_of_ge (hl.toBlockNo_bounds hi).1

theorem not_inLog_of_isData {b : ℕ} (hb : sb.IsData b) : ¬ sb.InLog b :=
  not_inLog_of_ge (hl.bitmapStart_ge.trans hb.ge)

end SuperBlock.Layout

/-- `LogHeader` (defines.h:72-75). Only the entries below `logMaxSize` of the
    array exist. -/
structure LogHeader where
  numBlocks : ℕ
  blockNo : ℕ → ℕ

namespace LogHeader

/-- A header that lists no block. -/
def empty : LogHeader := ⟨0, fun _ => 0⟩

/-- The block numbers listed by the header. -/
def entries (h : LogHeader) : List ℕ := (List.range h.numBlocks).map h.blockNo

/-- The search of `cache_sync` (cache.c:307-313). -/
def has (h : LogHeader) (b : ℕ) : Bool := (List.range h.numBlocks).any fun i => h.blockNo i == b

/-- `header.block_no[header.num_blocks++] = b` (cache.c:323). -/
def push (h : LogHeader) (b : ℕ) : LogHeader :=
  ⟨h.numBlocks + 1, Function.update h.blockNo h.numBlocks b⟩

/-- `header.num_blocks = 0; memset(header.block_no, 0, LOG_MAX_SIZE)` (cache.c:247-248
    and 373-374). The length is in bytes: it clears seven entries and all but
    the top byte of the eighth. -/
def clear (h : LogHeader) : LogHeader :=
  ⟨0, fun i => if i < logMaxSize / 8 then 0
    else if i = logMaxSize / 8 then h.blockNo i / 2 ^ 56 * 2 ^ 56 else h.blockNo i⟩

@[simp] theorem numBlocks_empty : empty.numBlocks = 0 := rfl

@[simp] theorem entries_empty : empty.entries = [] := rfl

@[simp] theorem numBlocks_push (h : LogHeader) (b : ℕ) : (h.push b).numBlocks = h.numBlocks + 1 :=
  rfl

@[simp] theorem numBlocks_clear (h : LogHeader) : h.clear.numBlocks = 0 := rfl

@[simp] theorem entries_clear (h : LogHeader) : h.clear.entries = [] := rfl

@[simp] theorem length_entries (h : LogHeader) : h.entries.length = h.numBlocks := by
  simp [entries]

theorem take_entries_succ (h : LogHeader) {i : ℕ} (hi : i < h.numBlocks) :
    h.entries.take (i + 1) = h.entries.take i ++ [h.blockNo i] := by
  have hlen : i < h.entries.length := by rwa [length_entries]
  have hget : h.entries[i] = h.blockNo i := by simp [entries]
  rw [← List.take_append_getElem hlen, hget]

theorem drop_entries (h : LogHeader) {i : ℕ} (hi : i < h.numBlocks) :
    h.entries.drop i = h.blockNo i :: h.entries.drop (i + 1) := by
  have hlen : i < h.entries.length := by rwa [length_entries]
  have hget : h.entries[i] = h.blockNo i := by simp [entries]
  rw [List.drop_eq_getElem_cons hlen, hget]

theorem blockNo_mem (h : LogHeader) {i : ℕ} (hi : i < h.numBlocks) : h.blockNo i ∈ h.entries :=
  List.mem_map.mpr ⟨i, List.mem_range.mpr hi, rfl⟩

@[simp] theorem entries_push (h : LogHeader) (b : ℕ) : (h.push b).entries = h.entries ++ [b] := by
  unfold entries push
  rw [List.range_succ, List.map_append, List.map_singleton]
  simp only [Function.update_self]
  congr 1
  apply List.map_congr_left
  intro i hi
  have := List.mem_range.mp hi
  exact Function.update_of_ne (by omega) _ _

theorem has_iff (h : LogHeader) (b : ℕ) : h.has b = true ↔ b ∈ h.entries := by
  simp [has, entries]

end LogHeader

/-! ## Blocks -/

/-- The content of a block. -/
abbrev BlockData := Fin blockSize → UInt8

namespace BlockData

/-- The bytes of a block as an array that is zero behind the block. -/
def bytes (d : BlockData) (i : ℕ) : UInt8 := if h : i < blockSize then d ⟨i, h⟩ else 0

/-- The block with the first bytes of an array. -/
def ofBytes (f : ℕ → UInt8) : BlockData := fun i => f i

theorem bytes_ofBytes (f : ℕ → UInt8) {i : ℕ} (h : i < blockSize) : (ofBytes f).bytes i = f i := by
  simp [bytes, ofBytes, h]

@[simp] theorem ofBytes_bytes (d : BlockData) : ofBytes d.bytes = d := by
  funext i
  simp [bytes, ofBytes]

end BlockData

namespace LogHeader

/-- The header in memory after a header block was read into it. -/
def decode (d : BlockData) : LogHeader :=
  ⟨getLE d.bytes 0 8, fun i => getLE d.bytes (8 * (i + 1)) 8⟩

/-- The words of the header in memory. -/
def word (h : LogHeader) : ℕ → ℕ
  | 0 => h.numBlocks
  | i + 1 => h.blockNo i

/-- The header block that is written from the header in memory. -/
def encode (h : LogHeader) : BlockData :=
  BlockData.ofBytes fun i => UInt8.ofNat (h.word (i / 8) / 256 ^ (i % 8))

theorem getLE_encode (h : LogHeader) {i : ℕ} (hi : i ≤ logMaxSize) :
    getLE h.encode.bytes (8 * i) 8 = h.word i % 2 ^ 64 := by
  have hsize : logMaxSize = 63 ∧ blockSize = 512 := ⟨rfl, rfl⟩
  rw [getLE_of_bytes (v := h.word i)]
  · norm_num
  · intro j hj
    rw [encode, BlockData.bytes_ofBytes _ (by omega), show (8 * i + j) / 8 = i by omega,
      show (8 * i + j) % 8 = j by omega]

theorem numBlocks_decode_encode (h : LogHeader) :
    (decode h.encode).numBlocks = h.numBlocks % 2 ^ 64 := by
  have := getLE_encode h (i := 0) (Nat.zero_le _)
  rwa [Nat.mul_zero] at this

/-- A header written to the device and read back lists the same blocks. -/
theorem entries_decode_encode {h : LogHeader} (hn : h.numBlocks ≤ logMaxSize)
    (hb : ∀ b ∈ h.entries, b < 2 ^ 64) : (decode h.encode).entries = h.entries := by
  have hsize : logMaxSize = 63 := rfl
  have hnum : (decode h.encode).numBlocks = h.numBlocks := by
    rw [numBlocks_decode_encode, Nat.mod_eq_of_lt (by omega)]
  unfold entries
  rw [hnum]
  apply List.map_congr_left
  intro i hi
  have hlt := List.mem_range.mp hi
  have hword : (decode h.encode).blockNo i = h.blockNo i % 2 ^ 64 :=
    getLE_encode h (i := i + 1) (by omega)
  rw [hword, Nat.mod_eq_of_lt (hb _ (List.mem_map.mpr ⟨i, hi, rfl⟩))]

@[simp] theorem entries_decode_clear (h : LogHeader) : (decode h.clear.encode).entries = [] := by
  have hnum : (decode h.clear.encode).numBlocks = 0 := by
    rw [numBlocks_decode_encode]; rfl
  unfold entries
  rw [hnum]
  rfl

end LogHeader

/-- The block numbers `log_start + i` for `i = 1 … n`, in the order in which
    `cache_end_op` (cache.c:350-351) and `init_log` (cache.c:235-236) visit them. -/
def logBlocks (sb : SuperBlock) (n : ℕ) : List ℕ := (List.range n).map fun i => sb.logStart + (i + 1)

theorem mem_logBlocks {sb : SuperBlock} {n b : ℕ} :
    b ∈ logBlocks sb n ↔ sb.logStart < b ∧ b ≤ sb.logStart + n := by
  simp only [logBlocks, List.mem_map, List.mem_range]
  constructor
  · rintro ⟨i, hi, rfl⟩; omega
  · rintro ⟨h1, h2⟩; exact ⟨b - sb.logStart - 1, by omega, by omega⟩

/-- The calls of `PANIC` in the log layer. -/
inductive Panic
  /-- `ctx->rm <= 0` in `cache_sync` (cache.c:317). -/
  | opBlocks
  /-- `header.num_blocks >= LOG_MAX_SIZE` in `cache_sync` (cache.c:321). -/
  | logFull
  /-- `log.committing` at the entry of `cache_end_op` (cache.c:336). -/
  | committing
  /-- The interrupted wait of `cache_end_op` (cache.c:344). -/
  | endOpWait
  /-- An assertion of `sem.c`. -/
  | sem
deriving DecidableEq, Repr

/-- The test of `cache_begin_op` (cache.c:277): the caller has to wait. The
    right-hand side is an `int` that is converted to `usize` for the sum. -/
def beginOpWaits (header : LogHeader) (outstanding : ℤ) (committing : Bool) : Bool :=
  committing || decide (((header.numBlocks : ℤ) + (outstanding + 1) * opMaxNumBlocks) % 2 ^ 64 >
    logMaxSize)

/-- `cache_sync` behind `block->pinned = true` (cache.c:306-324), on the header
    and `ctx->rm`. -/
def logAppend (header : LogHeader) (rm : ℕ) (b : ℕ) : Except Panic (LogHeader × ℕ) :=
  if header.has b then .ok (header, rm)
  else if rm ≤ 0 then .error .opBlocks
  else if header.numBlocks ≥ logMaxSize then .error .logFull
  else .ok (header.push b, rm - 1)

/-- What `cache_sync` does to the log: absorb the block, add it, or PANIC. -/
theorem logAppend_cases (header : LogHeader) (rm b : ℕ) :
    (b ∈ header.entries ∧ logAppend header rm b = .ok (header, rm)) ∨
    (b ∉ header.entries ∧ rm = 0 ∧ logAppend header rm b = .error .opBlocks) ∨
    (b ∉ header.entries ∧ 0 < rm ∧ logMaxSize ≤ header.numBlocks ∧
      logAppend header rm b = .error .logFull) ∨
    (b ∉ header.entries ∧ 0 < rm ∧ header.numBlocks < logMaxSize ∧
      logAppend header rm b = .ok (header.push b, rm - 1)) := by
  unfold logAppend
  simp only [LogHeader.has_iff]
  by_cases h1 : b ∈ header.entries
  · exact .inl ⟨h1, if_pos h1⟩
  rw [if_neg h1]
  by_cases h2 : rm ≤ 0
  · exact .inr (.inl ⟨h1, by omega, if_pos h2⟩)
  rw [if_neg h2]
  by_cases h3 : header.numBlocks ≥ logMaxSize
  · exact .inr (.inr (.inl ⟨h1, by omega, h3, if_pos h3⟩))
  · exact .inr (.inr (.inr ⟨h1, by omega, by omega, if_neg h3⟩))

/-- A header to which `cache_sync` has added a block, or which had it already. -/
structure LogHeader.Appended (h h' : LogHeader) (b : ℕ) : Prop where
  mem : b ∈ h'.entries
  mono : ∀ c ∈ h.entries, c ∈ h'.entries
  only : ∀ c ∈ h'.entries, c ∈ h.entries ∨ c = b
  nodup : h.entries.Nodup → h'.entries.Nodup
  size : h.numBlocks ≤ logMaxSize → h'.numBlocks ≤ logMaxSize

theorem logAppend_ok {header header' : LogHeader} {rm rm' b : ℕ}
    (h : logAppend header rm b = .ok (header', rm')) : header.Appended header' b := by
  rcases logAppend_cases header rm b with ⟨h1, h2⟩ | ⟨-, -, h2⟩ | ⟨-, -, -, h2⟩ | ⟨h1, -, h3, h2⟩
  · rw [h2] at h
    cases h
    exact ⟨h1, fun c hc => hc, fun c hc => .inl hc, id, id⟩
  · rw [h2] at h; cases h
  · rw [h2] at h; cases h
  · rw [h2] at h
    cases h
    refine ⟨by simp, fun c hc => by simp [hc], fun c hc => by simpa using hc, fun hn => ?_,
      fun _ => h3⟩
    rw [LogHeader.entries_push]
    exact List.nodup_append.mpr ⟨hn, List.nodup_singleton b, by
      rintro c hc d hd rfl
      exact h1 (List.mem_singleton.mp hd ▸ hc)⟩

/-- Admission: when `cache_begin_op` goes on and the sum does not wrap, the log
    has room for `OP_MAX_NUM_BLOCKS` blocks of each outstanding operation and
    of the new one. -/
theorem beginOpWaits_eq_false {header : LogHeader} {outstanding : ℤ} {committing : Bool}
    (h : beginOpWaits header outstanding committing = false) (h0 : 0 ≤ outstanding)
    (hlt : outstanding ≤ logMaxSize) (hn : header.numBlocks ≤ logMaxSize) :
    committing = false ∧ header.numBlocks + (outstanding + 1) * opMaxNumBlocks ≤ logMaxSize := by
  simp only [beginOpWaits, Bool.or_eq_false_iff, decide_eq_false_iff_not, not_lt] at h
  obtain ⟨hc, h⟩ := h
  refine ⟨hc, ?_⟩
  rw [logMaxSize_eq] at h hlt hn ⊢
  rw [opMaxNumBlocks_eq] at h ⊢
  rwa [Int.emod_eq_of_lt (by push_cast; omega) (by push_cast; omega)] at h

end ShikiOS.Fs
