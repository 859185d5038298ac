import ShikiOS.Lib.Run
import ShikiOS.Fs.BcacheAlloc

/-!
# Runs of the block allocator (`fs/cache.c`)

`cacheAlloc` looks for the first clear bit of a bitmap block at once. Here `cache_alloc` has its
three loops, over bitmap blocks, bytes and bits, with the bounds of the code, and a run is any
sequence of `cache_alloc` and `cache_free` in operations. `out` has the blocks that were
allocated and not freed since.

Results:
* `cacheAllocLoops_eq`: the three loops find the first clear bit below `num_blocks`.
* `bitmap_allocator`: what each call returns and changes, in every state that a run reaches.
-/

namespace ShikiOS.Fs.Bcache.Allocator

open ShikiOS.Lib

/-! ## The loops -/

/-- The loop over the bits of a byte (cache.c:396-409), whose first bit is the one of the block
    `base`: the first offset whose bit is clear. -/
def bitLoop (numBlocks base : ℕ) (bits : UInt8) : (rounds : ℕ) → (offset : ℕ) → Option ℕ
  | 0, _ => none
  | rounds + 1, offset =>
    if offset < 8 ∧ base + offset < numBlocks then
      if bits.toNat >>> offset &&& 1 = 0 then some offset
      else bitLoop numBlocks base bits rounds (offset + 1)
    else none

/-- The loop over the bytes of a bitmap block (cache.c:391-410). -/
def byteLoop (numBlocks blockCount : ℕ) (d : BlockData) : (rounds : ℕ) → (idx : ℕ) → Option (ℕ × ℕ)
  | 0, _ => none
  | rounds + 1, idx =>
    if idx < blockSize ∧ blockCount + idx * 8 < numBlocks then
      match bitLoop numBlocks (blockCount + idx * 8) (d.bytes idx) 8 0 with
      | some offset => some (idx, offset)
      | none => byteLoop numBlocks blockCount d rounds (idx + 1)
    else none

/-- `data[idx] |= 1 << offset`. -/
def orByte (d : BlockData) (idx offset : ℕ) : BlockData :=
  BlockData.ofBytes fun i =>
    if i = idx then UInt8.ofNat ((d.bytes i).toNat ||| 1 <<< offset) else d.bytes i

/-- The loop over the bitmap blocks (cache.c:387-412). -/
def blockLoop (sb : SuperBlock) (ctx : Option ℕ) : (rounds : ℕ) → (blockCount : ℕ) → M ℕ
  | 0, _ => throw .noFreeBlock
  | rounds + 1, blockCount =>
    if blockCount < sb.numBlocks then do
      let bitmapBlock := sb.bitmapStart + blockCount / (blockSize * 8)
      cacheAcquire bitmapBlock
      let d ← readBlock bitmapBlock
      match byteLoop sb.numBlocks blockCount d blockSize 0 with
      | some (idx, offset) => do
        writeBlock bitmapBlock (orByte d idx offset)
        cacheSync ctx bitmapBlock .direct
        cacheRelease bitmapBlock
        let targetBlock := blockCount + idx * 8 + offset
        cacheAcquire targetBlock
        writeBlock targetBlock zeroBlock
        cacheSync ctx targetBlock .direct
        cacheRelease targetBlock
        return targetBlock
      | none => do
        cacheRelease bitmapBlock
        blockLoop sb ctx rounds (blockCount + blockSize * 8)
    else throw .noFreeBlock

/-- `cache_alloc` (cache.c:383-413), with more rounds than there are bitmap blocks. -/
def cacheAllocLoops (sb : SuperBlock) (ctx : Option ℕ) : M ℕ :=
  blockLoop sb ctx (sb.numBlocks + 1) 0

variable {numBlocks base blockCount rounds offset idx k n i : ℕ} {bits : UInt8} {d : BlockData}

theorem shiftRight_and_one : bits.toNat >>> offset &&& 1 = 0 ↔ bits.toNat.testBit offset = false := by
  rw [Nat.testBit_eq_decide_div_mod_eq, Nat.and_one_is_mod, Nat.shiftRight_eq_div_pow,
    decide_eq_false_iff_not]
  omega

/-- The loop over the bits looks at those below 8 and below `numBlocks`. -/
theorem bitLoop_eq (h : rounds + offset = 8) : bitLoop numBlocks base bits rounds offset =
    (List.range' offset (min 8 (numBlocks - base) - offset)).find?
      fun k => !bits.toNat.testBit k := by
  induction rounds generalizing offset with
  | zero =>
    obtain rfl : offset = 8 := by omega
    rw [show min 8 (numBlocks - base) - 8 = 0 by omega]
    rfl
  | succ rounds ih =>
    rw [bitLoop]
    by_cases hlt : offset < 8 ∧ base + offset < numBlocks
    · obtain ⟨m, hm⟩ : ∃ m, min 8 (numBlocks - base) - offset = m + 1 :=
        ⟨min 8 (numBlocks - base) - offset - 1, by omega⟩
      rw [if_pos hlt, hm, List.range'_succ, List.find?_cons]
      by_cases hbit : bits.toNat >>> offset &&& 1 = 0
      · rw [if_pos hbit, shiftRight_and_one.mp hbit]
        rfl
      · have hset : bits.toNat.testBit offset = true := by
          rwa [shiftRight_and_one, Bool.not_eq_false] at hbit
        rw [if_neg hbit, ih (by omega), hset, show min 8 (numBlocks - base) - (offset + 1) = m by omega]
        rfl
    · rw [if_neg hlt, show min 8 (numBlocks - base) - offset = 0 by omega]
      rfl

/-- The loop over the bytes looks at the bits below 4096 and below `numBlocks`, in order. -/
theorem byteLoop_eq (h : rounds + idx = blockSize) : byteLoop numBlocks blockCount d rounds idx =
    ((List.range' (idx * 8) (min bitPerBlock (numBlocks - blockCount) - idx * 8)).find?
      fun k => !Bitmap.get d k).map fun k => (k / 8, k % 8) := by
  have hsize : blockSize = 512 ∧ bitPerBlock = 4096 := ⟨rfl, rfl⟩
  rw [hsize.1] at h
  rw [hsize.2]
  induction rounds generalizing idx with
  | zero =>
    rw [show min 4096 (numBlocks - blockCount) - idx * 8 = 0 by omega]
    rfl
  | succ rounds ih =>
    rw [byteLoop, hsize.1]
    by_cases hlt : idx < 512 ∧ blockCount + idx * 8 < numBlocks
    · -- the bits of this byte, then the bits of the bytes behind it
      have hsplit : List.range' (idx * 8) (min 4096 (numBlocks - blockCount) - idx * 8) =
          (List.range' 0 (min 8 (numBlocks - (blockCount + idx * 8)) - 0)).map (idx * 8 + ·) ++
            List.range' ((idx + 1) * 8) (min 4096 (numBlocks - blockCount) - (idx + 1) * 8) := by
        rw [List.map_add_range', Nat.add_zero, Nat.sub_zero]
        by_cases h8 : numBlocks - (blockCount + idx * 8) < 8
        · rw [show min 8 (numBlocks - (blockCount + idx * 8)) =
              min 4096 (numBlocks - blockCount) - idx * 8 by omega,
            show min 4096 (numBlocks - blockCount) - (idx + 1) * 8 = 0 by omega]
          simp
        · rw [show min 8 (numBlocks - (blockCount + idx * 8)) = 8 by omega,
            show (idx + 1) * 8 = idx * 8 + 8 by ring, List.range'_append_1]
          congr 1
          omega
      have hfind : (List.range' 0 (min 8 (numBlocks - (blockCount + idx * 8)) - 0)).find?
            ((fun k => !Bitmap.get d k) ∘ (idx * 8 + ·)) =
          bitLoop numBlocks (blockCount + idx * 8) (d.bytes idx) 8 0 := by
        rw [bitLoop_eq (by omega)]
        refine List.find?_congr fun o ho => ?_
        rw [List.mem_range'_1] at ho
        simp only [Function.comp_apply, Bitmap.get]
        rw [show (idx * 8 + o) / 8 = idx by omega, show (idx * 8 + o) % 8 = o by omega]
      rw [if_pos hlt, hsplit, List.find?_append, List.find?_map, hfind, ih (by omega)]
      cases hb : bitLoop numBlocks (blockCount + idx * 8) (d.bytes idx) 8 0 with
      | none => rfl
      | some offset =>
        have hoff : offset < 8 := by
          rw [bitLoop_eq (by omega)] at hb
          have := List.mem_of_find?_eq_some hb
          rw [List.mem_range'_1] at this
          omega
        simp only [Option.map_some, Option.some_or]
        rw [show (idx * 8 + offset) / 8 = idx by omega, show (idx * 8 + offset) % 8 = offset by omega]
    · rw [if_neg hlt, show min 4096 (numBlocks - blockCount) - idx * 8 = 0 by omega]
      rfl

theorem orByte_eq : orByte d (k / 8) (k % 8) = Bitmap.set d k := by
  unfold orByte Bitmap.set
  rw [Nat.one_shiftLeft]

variable {sb : SuperBlock} {ctx : Option ℕ}

theorem blockLoop_eq (hn : i + n = (sb.numBlocks + bitPerBlock - 1) / bitPerBlock) (hr : n < rounds) :
    blockLoop sb ctx rounds (i * bitPerBlock) = cacheAllocFrom sb ctx n i := by
  have hsize : bitPerBlock = 4096 ∧ blockSize * 8 = 4096 := ⟨rfl, rfl⟩
  induction n generalizing rounds i with
  | zero =>
    obtain ⟨rounds, rfl⟩ : ∃ r, rounds = r + 1 := ⟨rounds - 1, by omega⟩
    rw [blockLoop, if_neg, cacheAllocFrom]
    rw [hsize.1] at hn ⊢
    omega
  | succ n ih =>
    obtain ⟨rounds, rfl⟩ : ∃ r, rounds = r + 1 := ⟨rounds - 1, by omega⟩
    have hlt : i * bitPerBlock < sb.numBlocks := by
      rw [hsize.1] at hn ⊢
      omega
    have hdiv : i * bitPerBlock / (blockSize * 8) = i := Nat.mul_div_cancel i (by decide)
    have hnext : i * bitPerBlock + blockSize * 8 = (i + 1) * bitPerBlock := by
      rw [hsize.1, hsize.2]
      ring
    rw [blockLoop, if_pos hlt, cacheAllocFrom, hdiv, hnext, ih (by omega) (by omega)]
    refine bind_congr fun _ => bind_congr fun d => ?_
    rw [byteLoop_eq (by omega), Nat.zero_mul, Nat.sub_zero, ← List.range_eq_range', ← Bitmap.firstClear]
    cases Bitmap.firstClear d (min bitPerBlock (sb.numBlocks - i * bitPerBlock)) with
    | none => rfl
    | some k =>
      have hk : i * bitPerBlock + k / 8 * 8 + k % 8 = i * bitPerBlock + k := by omega
      simp only [Option.map_some, orByte_eq, hk]

/-- The three loops find what `cacheAlloc` finds. -/
theorem cacheAllocLoops_eq : cacheAllocLoops sb ctx = cacheAlloc sb ctx := by
  have hsize : bitPerBlock = 4096 := rfl
  have hn : 0 + (sb.numBlocks + bitPerBlock - 1) / bitPerBlock =
      (sb.numBlocks + bitPerBlock - 1) / bitPerBlock := Nat.zero_add _
  have hr : (sb.numBlocks + bitPerBlock - 1) / bitPerBlock < sb.numBlocks + 1 := by
    rw [hsize]
    omega
  have h : blockLoop sb ctx (sb.numBlocks + 1) (0 * bitPerBlock) = cacheAllocFrom sb ctx _ 0 :=
    blockLoop_eq hn hr
  rwa [Nat.zero_mul] at h

/-! ## The budget of a call -/

/-- The operation of `ctx` may log `n` more blocks, and the header has room for them. -/
def Budget (ctx : Option ℕ) (n : ℕ) (s : CacheState) : Prop :=
  ∀ c, ctx = some c → n ≤ s.rm c ∧ s.header.numBlocks + n ≤ logMaxSize

variable {s t u : CacheState} {b c : ℕ} {o : Origin}

theorem Budget.of_sameLog (h : Budget ctx n s) (hl : SameLog s t) : Budget ctx n t := by
  intro c hc
  rw [hl.rm, hl.header]
  exact h c hc

theorem Budget.wp_acquire (h : Budget ctx n s) :
    wp (cacheAcquire b) (fun _ t => Budget ctx n t) (fun e _ => e = .blocked) s := by
  rw [wp_cacheAcquire]
  split_ifs
  · rfl
  · exact h.of_sameLog (sameLog_acquire s b)

/-- Within the budget `cache_sync` does not PANIC. -/
theorem Budget.wp_sync (h : Budget ctx (n + 1) s) :
    wp (cacheSync ctx b o) (fun _ t => Budget ctx n t) (fun _ _ => False) s := by
  cases ctx with
  | none =>
    rw [wp_cacheSync_none]
    intro c hc
    cases hc
  | some c =>
    obtain ⟨h1, h2⟩ := h c rfl
    rw [wp_cacheSync_some]
    rcases logAppend_cases s.header (s.rm c) b with ⟨-, ha⟩ | ⟨-, h0, -⟩ | ⟨-, -, hfull, -⟩ |
      ⟨-, -, -, ha⟩
    · rw [ha]
      intro c' hc
      cases hc
      simp only [Function.update_self]
      omega
    · omega
    · omega
    · rw [ha]
      intro c' hc
      cases hc
      simp only [Function.update_self, LogHeader.numBlocks_push]
      omega

/-- `cache_sync` of a block within the budget, and its release. -/
theorem Budget.wp_syncRelease (h : Budget ctx (n + 1) s) {Q : Unit → CacheState → Prop}
    {E : Stop → CacheState → Prop} (hq : ∀ t, Budget ctx n t → Q () t) :
    wp (cacheSync ctx b o) (fun _ t => wp (cacheRelease b) Q E t) E s := by
  refine wp_mono h.wp_sync (fun _ s1 h1 => ?_) fun _ _ he => he.elim
  rw [wp_cacheRelease]
  exact hq _ (h1.of_sameLog (sameLog_setBlock s1 b _))

/-- With a budget for two blocks `cache_alloc` stops only if a block is held or none is free. -/
theorem Budget.wp_cacheAlloc (h : Budget ctx (n + 2) s) :
    wp (cacheAlloc sb ctx) (fun _ t => Budget ctx n t)
      (fun e _ => e = .blocked ∨ e = .noFreeBlock) s := by
  unfold Bcache.cacheAlloc
  generalize (sb.numBlocks + bitPerBlock - 1) / bitPerBlock = m
  generalize 0 = i
  induction m generalizing i s with
  | zero => exact wp_throw.mpr (.inr rfl)
  | succ m ih =>
    unfold cacheAllocFrom
    simp only [wp_bind]
    refine wp_mono h.wp_acquire (fun _ s1 h1 => ?_) fun e _ he => .inl he
    rw [wp_readBlock]
    split
    · simp only [wp_bind, wp_pure, wp_writeBlock]
      refine (h1.of_sameLog (sameLog_setBlock s1 _ _)).wp_syncRelease fun s2 h2 => ?_
      refine wp_mono h2.wp_acquire (fun _ s3 h3 => ?_) fun e _ he => .inl he
      exact (h3.of_sameLog (sameLog_setBlock s3 _ _)).wp_syncRelease fun s4 h4 => h4
    · rw [wp_bind, wp_cacheRelease]
      exact ih (h1.of_sameLog (sameLog_setBlock s1 _ _)) (i + 1)

/-- With a budget for one block `cache_free` stops only if the bitmap block is held. -/
theorem Budget.wp_cacheFree (h : Budget ctx (n + 1) s) :
    wp (cacheFree sb ctx b) (fun _ t => Budget ctx n t) (fun e _ => e = .blocked) s := by
  unfold Bcache.cacheFree
  simp only [wp_bind, wp_readBlock, wp_writeBlock]
  refine wp.imp h.wp_acquire fun _ s1 h1 => ?_
  exact (h1.of_sameLog (sameLog_setBlock s1 _ _)).wp_syncRelease fun s2 h2 => h2

/-! ## What the calls do -/

/-- `c` is a block of the bitmap. -/
def IsBitmap (sb : SuperBlock) (c : ℕ) : Prop := sb.bitmapStart ≤ c ∧ c < sb.dataStart

/-- The bit of `c` is in the bitmap. That holds for `c < num_blocks`, and for the bits behind
    those in the last bitmap block. -/
def Mapped (sb : SuperBlock) (c : ℕ) : Prop := sb.bitmapBlock c < sb.dataStart

instance : Decidable (IsBitmap sb c) := inferInstanceAs (Decidable (_ ∧ _))

instance : Decidable (Mapped sb c) := inferInstanceAs (Decidable (_ < _))

/-- `cache_alloc` has returned `b` and led from `s` to `u`. -/
structure Allocates (sb : SuperBlock) (s u : CacheState) (b : ℕ) : Prop where
  lt : b < sb.numBlocks
  clear : bit sb (content s) b = false
  first : ∀ c, c < b → bit sb (content s) c = true
  bits : ∀ c, Mapped sb c → bit sb (content u) c = (bit sb (content s) c || decide (c = b))
  zero : content u b = zeroBlock
  frame : ∀ c, c ≠ b → ¬ IsBitmap sb c → ¬ sb.InLog c → content u c = content s c

/-- `cache_free(b)` has led from `s` to `u`. -/
structure Frees (sb : SuperBlock) (s u : CacheState) (b : ℕ) : Prop where
  bits : ∀ c, Mapped sb c → bit sb (content u) c = (bit sb (content s) c && decide (c ≠ b))
  frame : ∀ c, ¬ IsBitmap sb c → ¬ sb.InLog c → content u c = content s c
  free : bit sb (content s) b = false → ∀ c, ¬ sb.InLog c → content u c = content s c

variable {σ : ℕ → BlockData}

theorem mapped_of_lt (h : c < sb.numBlocks) : Mapped sb c := (SuperBlock.Layout.bitmapBlock_bounds h).2

theorem Mapped.isBitmap (h : Mapped sb c) : IsBitmap sb (sb.bitmapBlock c) :=
  ⟨Nat.le_add_right _ _, h⟩

theorem IsBitmap.not_inLog (h : IsBitmap sb c) (hl : sb.Layout) : ¬ sb.InLog c :=
  SuperBlock.not_inLog_of_ge (hl.bitmapStart_ge.trans h.1)

theorem Mapped.bit_content (h : Mapped sb c) (hl : sb.Layout) (hs : Rep sb σ [] s) :
    bit sb (content s) c = bit sb σ c :=
  bit_congr (hs.content (h.isBitmap.not_inLog hl))

/-- Clearing a bit that is clear changes nothing. -/
theorem clear_of_get {k : ℕ} (h : Bitmap.get d k = false) :
    Bitmap.clear d k = d := by
  have hsize : bitPerBlock = 4096 ∧ blockSize = 512 := ⟨rfl, rfl⟩
  unfold Bitmap.clear
  rw [← BlockData.ofBytes_bytes d]
  congr 1
  funext i
  rw [BlockData.ofBytes_bytes]
  split_ifs with hi
  · have hclear : (d.bytes i).toNat &&& (255 ^^^ 2 ^ (k % 8)) = (d.bytes i).toNat := by
      apply Nat.eq_of_testBit_eq
      intro j
      have hlt : (d.bytes i).toNat < 2 ^ 8 := (d.bytes i).toNat_lt
      rw [Nat.testBit_and, Nat.testBit_xor, Nat.testBit_two_pow, show (255 : ℕ) = 2 ^ 8 - 1 by norm_num,
        Nat.testBit_two_pow_sub_one]
      by_cases hj : j < 8
      · by_cases hjk : k % 8 = j
        · subst hjk
          rw [Bitmap.get, ← hi] at h
          rw [h, Bool.false_and]
        · simp [hj, hjk]
      · rw [Nat.testBit_lt_two_pow (lt_of_lt_of_le hlt (Nat.pow_le_pow_right (by omega) (by omega))),
          Bool.false_and]
    rw [hclear, UInt8.ofNat_toNat]
  · rfl

/-- The bits after an allocation; the block that is zeroed holds none. -/
theorem bit_allocated (hd : sb.IsData b) (hc : Mapped sb c) :
    bit sb (allocated sb σ b) c = (bit sb σ c || decide (c = b)) := by
  have hne : sb.bitmapBlock c ≠ b := by
    rintro rfl
    exact absurd hd.1 (not_le.mpr hc)
  rw [← bit_setBit, allocated]
  exact bit_congr (Function.update_of_ne hne _ _)

theorem allocates_of_rep (hl : sb.Layout) (hs : Rep sb σ [] s) (hd : sb.IsData b)
    (hclear : bit sb σ b = false) (hfirst : ∀ c, c < b → bit sb σ c = true)
    (hu : Rep sb (allocated sb σ b) [] u) : Allocates sb s u b := by
  have hbits : ∀ c, c ≤ b → bit sb (content s) c = bit sb σ c :=
    fun c hc => (mapped_of_lt (hc.trans_lt hd.2)).bit_content hl hs
  refine ⟨hd.2, ?_, fun c hc => ?_, fun c hc => ?_, ?_, fun c hcb hc hlog => ?_⟩
  · rw [hbits b le_rfl, hclear]
  · rw [hbits c hc.le, hfirst c hc]
  · rw [hc.bit_content hl hu, hc.bit_content hl hs, bit_allocated hd hc]
  · rw [hu.content (hl.not_inLog_of_isData hd), allocated, Function.update_self]
  · rw [hu.content hlog, hs.content hlog, allocated, Function.update_of_ne hcb, setBit]
    have hne : c ≠ sb.bitmapBlock b := by
      rintro rfl
      exact hc (mapped_of_lt hd.2).isBitmap
    exact Function.update_of_ne hne _ _

theorem frees_of_rep (hl : sb.Layout) (hs : Rep sb σ [] s) (hb : b < sb.numBlocks)
    (hu : Rep sb (clearBit sb σ b) [] u) : Frees sb s u b := by
  refine ⟨fun c hc => ?_, fun c hc hlog => ?_, fun hclear c hlog => ?_⟩
  · rw [hc.bit_content hl hu, hc.bit_content hl hs, bit_clearBit]
  · rw [hu.content hlog, hs.content hlog, clearBit]
    have hne : c ≠ sb.bitmapBlock b := by
      rintro rfl
      exact hc (mapped_of_lt hb).isBitmap
    exact Function.update_of_ne hne _ _
  · rw [(mapped_of_lt hb).bit_content hl hs] at hclear
    rw [hu.content hlog, hs.content hlog, clearBit, clear_of_get hclear,
      Function.update_eq_self]

/-! ## Runs -/

/-- The calls of a run. -/
inductive Call
  | alloc (ctx : Option ℕ)
  | free (ctx : Option ℕ) (b : ℕ)
  | beginOp (c : ℕ)
  | endOp (c : ℕ)

/-- The cache, and the blocks that were handed out and not freed since. -/
structure Session where
  cache : CacheState
  out : List ℕ

/-- A call that returns. -/
def step (sb : SuperBlock) (s : Session) : Call → Option Session
  | .alloc ctx =>
    match cacheAllocLoops sb ctx s.cache with
    | .ok b t => some ⟨t, b :: s.out⟩
    | .error _ _ => none
  | .free ctx b =>
    match cacheFree sb ctx b s.cache with
    | .ok _ t => some ⟨t, s.out.erase b⟩
    | .error _ _ => none
  | .beginOp c =>
    match cacheBeginOp c s.cache with
    | .ok _ t => some { s with cache := t }
    | .error _ _ => none
  | .endOp c =>
    match cacheEndOp sb c s.cache with
    | .ok _ t => some { s with cache := t }
    | .error _ _ => none

/-- Data blocks are freed, and a commit fits into the log area. -/
def Legal (sb : SuperBlock) (s : Session) : Call → Prop
  | .free _ b => sb.IsData b
  | .endOp _ => s.cache.outstanding ≤ 1 → s.cache.header.numBlocks + 1 ≤ sb.numLogBlocks
  | _ => True

instance (sb : SuperBlock) (s : Session) (a : Call) : Decidable (Legal sb s a) := by
  unfold Legal
  split <;> infer_instance

/-- The bits of the blocks that are out are set, and those behind `num_blocks` are the ones of
    `σ₀`. -/
structure Inv (sb : SuperBlock) (σ₀ : ℕ → BlockData) (s : Session) : Prop where
  rep : ∃ σ, Rep sb σ [] s.cache ∧ MetadataUsed sb σ ∧ (∀ b ∈ s.out, sb.IsData b ∧ bit sb σ b = true) ∧
    ∀ c, sb.numBlocks ≤ c → Mapped sb c → bit sb σ c = bit sb σ₀ c
  nodup : s.out.Nodup

variable {σ₀ : ℕ → BlockData} {v w : Session} {a : Call}

theorem Inv.alloc (h : Inv sb σ₀ v) (hl : sb.Layout) :
    wlp (cacheAlloc sb ctx) (fun b t => Inv sb σ₀ ⟨t, b :: v.out⟩) v.cache := by
  obtain ⟨⟨σ, hrep, hmeta, hout, hlast⟩, hnd⟩ := h
  refine hrep.cacheAlloc hl hmeta fun b t hd hclear ht => ?_
  have hbit : ∀ c, Mapped sb c → bit sb (allocated sb σ b) c = (bit sb σ c || decide (c = b)) :=
    fun c hc => bit_allocated hd hc
  refine ⟨⟨_, ht, fun c hc hcd => ?_, fun c hc => ?_, fun c hc hm => ?_⟩,
    List.nodup_cons.mpr ⟨fun hm => ?_, hnd⟩⟩
  · rw [hbit c (mapped_of_lt hc), hmeta c hc hcd, Bool.true_or]
  · rcases List.mem_cons.mp hc with rfl | hc
    · exact ⟨hd, by rw [hbit c (mapped_of_lt hd.2), decide_eq_true rfl, Bool.or_true]⟩
    · obtain ⟨hdc, hset⟩ := hout c hc
      exact ⟨hdc, by rw [hbit c (mapped_of_lt hdc.2), hset, Bool.true_or]⟩
  · have hne : c ≠ b := by
      rintro rfl
      exact absurd hd.2 (not_lt.mpr hc)
    rw [hbit c hm, decide_eq_false hne, Bool.or_false, hlast c hc hm]
  · rw [(hout b hm).2] at hclear
    cases hclear

theorem Inv.free (h : Inv sb σ₀ v) (hl : sb.Layout) (hb : sb.IsData b) :
    wlp (cacheFree sb ctx b) (fun _ t => Inv sb σ₀ ⟨t, v.out.erase b⟩) v.cache := by
  obtain ⟨⟨σ, hrep, hmeta, hout, hlast⟩, hnd⟩ := h
  refine hrep.cacheFree hl hb.2 fun t ht => ?_
  refine ⟨⟨_, ht, fun c hc hcd => ?_, fun c hc => ?_, fun c hc hm => ?_⟩, hnd.erase b⟩
  · have hne : c ≠ b := by
      rintro rfl
      exact hcd hb
    rw [bit_clearBit, hmeta c hc hcd, decide_eq_true hne, Bool.and_true]
  · obtain ⟨hne, hc⟩ := hnd.mem_erase_iff.mp hc
    obtain ⟨hdc, hset⟩ := hout c hc
    exact ⟨hdc, by rw [bit_clearBit, hset, decide_eq_true hne, Bool.and_true]⟩
  · have hne : c ≠ b := by
      rintro rfl
      exact absurd hb.2 (not_lt.mpr hc)
    rw [bit_clearBit, decide_eq_true hne, Bool.and_true, hlast c hc hm]

theorem Inv.of_rep (h : Inv sb σ₀ v) {t : CacheState} (ht : ∀ σ, Rep sb σ [] v.cache → Rep sb σ [] t) :
    Inv sb σ₀ { v with cache := t } := by
  obtain ⟨⟨σ, hrep, hrest⟩, hnd⟩ := h
  exact ⟨⟨σ, ht σ hrep, hrest⟩, hnd⟩

theorem Inv.step (h : Inv sb σ₀ v) (hl : sb.Layout) (ha : Legal sb v a) (hs : step sb v a = some w) :
    Inv sb σ₀ w := by
  cases a with
  | alloc ctx =>
    simp only [Allocator.step, cacheAllocLoops_eq] at hs
    cases hx : cacheAlloc sb ctx v.cache with
    | ok b t =>
      rw [hx] at hs
      cases hs
      exact (h.alloc hl).of_ok hx
    | error e t => simp [hx] at hs
  | free ctx b =>
    simp only [Allocator.step] at hs
    cases hx : cacheFree sb ctx b v.cache with
    | ok _ t =>
      rw [hx] at hs
      cases hs
      exact (h.free hl ha).of_ok hx
    | error e t => simp [hx] at hs
  | beginOp c =>
    simp only [Allocator.step] at hs
    cases hx : cacheBeginOp c v.cache with
    | ok _ t =>
      rw [hx] at hs
      cases hs
      exact h.of_rep fun σ hrep => (hrep.beginOp (Q := fun _ u => Rep sb σ [] u) fun u hu => hu).of_ok hx
    | error e t => simp [hx] at hs
  | endOp c =>
    simp only [Allocator.step] at hs
    cases hx : cacheEndOp sb c v.cache with
    | ok _ t =>
      rw [hx] at hs
      cases hs
      exact h.of_rep fun σ hrep => (hrep.endOp (Q := fun _ u => Rep sb σ [] u) ha fun u hu => hu).of_ok hx
    | error e t => simp [hx] at hs

theorem Inv.run (h : Inv sb σ₀ v) (hl : sb.Layout) (hrun : Run (Allocator.step sb) (Legal sb) v w) :
    Inv sb σ₀ w :=
  hrun.invariant h fun _ _ _ hi ha hs => hi.step hl ha hs

/-- In every state that allocations and frees lead to: the blocks that are out are pairwise
    distinct and marked, those before the data area stay marked, and the bits at and behind
    `num_blocks` are as they were. A `cache_alloc` with budget for two blocks returns the first block whose bit is clear, and
    stops iff there is none. A `cache_free` with budget for one clears that bit. -/
theorem bitmap_allocator (hl : sb.Layout) (h0 : Rep sb σ [] v.cache) (hmeta : MetadataUsed sb σ)
    (hout : v.out = []) (hrun : Run (Allocator.step sb) (Legal sb) v w) :
    w.out.Nodup ∧ (∀ b ∈ w.out, sb.IsData b ∧ bit sb (content w.cache) b = true) ∧
    MetadataUsed sb (content w.cache) ∧
    (∀ c, sb.numBlocks ≤ c → Mapped sb c →
      bit sb (content w.cache) c = bit sb (content v.cache) c) ∧
    (∀ ctx, Budget ctx 2 w.cache → wp (cacheAllocLoops sb ctx)
      (fun b u => Allocates sb w.cache u b)
      (fun e _ => e = .noFreeBlock ∧ ∀ c, c < sb.numBlocks → bit sb (content w.cache) c = true)
      w.cache) ∧
    ∀ ctx b, sb.IsData b → Budget ctx 1 w.cache →
      ∃ u, cacheFree sb ctx b w.cache = .ok () u ∧ Frees sb w.cache u b := by
  have hinv : Inv sb σ v := ⟨⟨σ, h0, hmeta, by simp [hout], fun _ _ _ => rfl⟩, by simp [hout]⟩
  obtain ⟨⟨σ', hrep, hmeta', hset, hlast⟩, hnd⟩ := hinv.run hl hrun
  refine ⟨hnd, fun b hb => ⟨(hset b hb).1, ?_⟩, fun b hb hd => ?_, fun c hc hm => ?_,
    fun ctx hbud => ?_, fun ctx b hb hbud => ?_⟩
  · rw [(mapped_of_lt (hset b hb).1.2).bit_content hl hrep, (hset b hb).2]
  · rw [(mapped_of_lt hb).bit_content hl hrep, hmeta' b hb hd]
  · rw [hm.bit_content hl hrep, hm.bit_content hl h0, hlast c hc hm]
  · rw [cacheAllocLoops_eq]
    have hrule : wp (cacheAlloc sb ctx) (fun b u => Allocates sb w.cache u b)
        (fun e _ => e ≠ .blocked ∧ (e = .noFreeBlock →
          ∀ c, c < sb.numBlocks → bit sb (content w.cache) c = true)) w.cache := by
      refine hrep.wp_cacheAlloc_first hl hmeta' (fun _ _ => by simp) (fun hall t => ?_)
        (fun b hb => by simp at hb) fun b t hd hclear hfirst ht =>
          allocates_of_rep hl hrep hd hclear hfirst ht
      refine ⟨by simp, fun _ c hc => ?_⟩
      rw [(mapped_of_lt hc).bit_content hl hrep, hall c hc]
    refine wp_mono (hrule.and (hbud.wp_cacheAlloc (n := 0))) (fun b u hu => hu.1) fun e _ he => ?_
    have hfull := he.2.resolve_left he.1.1
    exact ⟨hfull, he.1.2 hfull⟩
  · have hrule : wp (cacheFree sb ctx b) (fun _ u => Frees sb w.cache u b)
        (fun e _ => e ≠ .blocked) w.cache :=
      hrep.wp_cacheFree hl hb.2 (fun _ _ => by simp) (fun hm => by simp at hm) fun t ht =>
        frees_of_rep hl hrep hb.2 ht
    have htotal := wp_mono (hrule.and (hbud.wp_cacheFree (n := 0))) (fun _ u hu => hu.1)
      fun e _ he => he.1 he.2
    obtain ⟨_, u, hu, hf⟩ := htotal.total
    exact ⟨u, hu, hf⟩

/-- Eight blocks, of which 6 and 7 are data blocks. -/
def eightBlocks : SuperBlock := ⟨8, 2, 8, 2, 2, 4, 5⟩

/-- The bits of the first six blocks are set. -/
def eightDisk (b : ℕ) : BlockData := if b = 5 then fun i => if (i : ℕ) = 0 then 0x3f else 0
  else zeroBlock

theorem metadataUsed_eightDisk : MetadataUsed eightBlocks eightDisk := by
  have hbits : ∀ b < 6, bit eightBlocks eightDisk b = true := by decide +kernel
  intro b hb hd
  refine hbits b ?_
  by_contra hlt
  exact hd ⟨not_lt.mp hlt, hb⟩

theorem rep_boot (sb : SuperBlock) (disk : ℕ → BlockData) : Rep sb disk [] (boot disk) :=
  ⟨⟨List.nodup_nil, by simp [boot], by simp [boot], fun _ _ _ => rfl⟩, List.nodup_nil, rfl, rfl,
    by simp, fun _ hc => absurd hc.1 List.not_mem_nil, List.nodup_nil⟩

/-- Two blocks are allocated, the first is freed and allocated again; then no block is free. -/
theorem bitmap_allocator_full : ∃ w : Session, w.out = [6, 7] ∧ w.out.Nodup ∧
    ∃ u, cacheAllocLoops eightBlocks none w.cache = .error .noFreeBlock u := by
  have hl : eightBlocks.Layout := ⟨by decide, by decide, by decide, by decide⟩
  have hexec : (execIf (Allocator.step eightBlocks) (Legal eightBlocks) ⟨boot eightDisk, []⟩
      [.alloc none, .alloc none, .free none 6, .alloc none]).map (fun w => w.out) =
        some [6, 7] := by
    decide +kernel
  obtain ⟨w, hrun, hw⟩ := Run.of_execIf_map hexec
  obtain ⟨hnd, hset, hmeta, -, halloc, -⟩ :=
    bitmap_allocator hl (rep_boot _ _) metadataUsed_eightDisk rfl hrun
  refine ⟨w, hw, hnd, ?_⟩
  have hwp := halloc none fun c hc => by cases hc
  cases hx : cacheAllocLoops eightBlocks none w.cache with
  | error e u => exact ⟨u, by rw [(hwp.of_error hx).1]⟩
  | ok b u =>
    have ha := hwp.of_ok hx
    have hbit : bit eightBlocks (content w.cache) b = true := by
      by_cases hd : eightBlocks.IsData b
      · refine (hset b ?_).2
        obtain ⟨h1, h2⟩ := hd
        have h1 : 6 ≤ b := h1
        have h2 : b < 8 := h2
        rw [hw]
        simp only [List.mem_cons, List.not_mem_nil, or_false]
        omega
      · exact hmeta b ha.lt hd
    rw [ha.clear] at hbit
    cases hbit

end ShikiOS.Fs.Bcache.Allocator
