import ShikiOS.Fs.InodeFormat
import ShikiOS.Fs.BcacheRep

/-!
# Allocation of blocks (`fs/cache.c`)

`cache_alloc` takes the first block whose bit in the bitmap is clear, and `cache_free`
clears a bit.

Results: `Rep.wp_cacheAlloc_first` and `Rep.wp_cacheFree`, the rules of the two.
-/

namespace ShikiOS.Fs.Bcache

open ShikiOS.Lib

/-- A block of zeros. -/
def zeroBlock : BlockData := fun _ => 0

/-- `cache_alloc` from the `i`-th bitmap block on; `n` bitmap blocks are left. -/
def cacheAllocFrom (sb : SuperBlock) (ctx : Option ℕ) : ℕ → ℕ → M ℕ
  | 0, _ => throw .noFreeBlock
  | n + 1, i => do
    let bitmapBlock := sb.bitmapStart + i
    cacheAcquire bitmapBlock
    let d ← readBlock bitmapBlock
    match Bitmap.firstClear d (min bitPerBlock (sb.numBlocks - i * bitPerBlock)) with
    | some k => do
      writeBlock bitmapBlock (Bitmap.set d k)
      cacheSync ctx bitmapBlock .direct
      cacheRelease bitmapBlock
      let targetBlock := i * bitPerBlock + k
      cacheAcquire targetBlock
      writeBlock targetBlock zeroBlock
      cacheSync ctx targetBlock .direct
      cacheRelease targetBlock
      return targetBlock
    | none => do
      cacheRelease bitmapBlock
      cacheAllocFrom sb ctx n (i + 1)

/-- `cache_alloc` (cache.c:383-413). -/
def cacheAlloc (sb : SuperBlock) (ctx : Option ℕ) : M ℕ :=
  cacheAllocFrom sb ctx ((sb.numBlocks + bitPerBlock - 1) / bitPerBlock) 0

/-- `cache_free` (cache.c:417-431). -/
def cacheFree (sb : SuperBlock) (ctx : Option ℕ) (b : ℕ) : M Unit := do
  let bitmapBlock := sb.bitmapBlock b
  cacheAcquire bitmapBlock
  let d ← readBlock bitmapBlock
  writeBlock bitmapBlock (Bitmap.clear d (b % bitPerBlock))
  cacheSync ctx bitmapBlock .direct
  cacheRelease bitmapBlock

/-! ## Bits -/

/-- The bit of a block. -/
def bit (sb : SuperBlock) (σ : ℕ → BlockData) (b : ℕ) : Bool :=
  Bitmap.get (σ (sb.bitmapBlock b)) (b % bitPerBlock)

/-- The contents after the bit of a block is set. -/
def setBit (sb : SuperBlock) (σ : ℕ → BlockData) (b : ℕ) : ℕ → BlockData :=
  Function.update σ (sb.bitmapBlock b) (Bitmap.set (σ (sb.bitmapBlock b)) (b % bitPerBlock))

/-- The contents after the bit of a block is cleared. -/
def clearBit (sb : SuperBlock) (σ : ℕ → BlockData) (b : ℕ) : ℕ → BlockData :=
  Function.update σ (sb.bitmapBlock b) (Bitmap.clear (σ (sb.bitmapBlock b)) (b % bitPerBlock))

variable {sb : SuperBlock} {σ : ℕ → BlockData} {H : List (ℕ × BlockData)} {s : CacheState}
  {b c : ℕ} {ctx : Option ℕ}

theorem bitmapBlock_eq_iff : sb.bitmapBlock c = sb.bitmapBlock b ∧ c % bitPerBlock = b % bitPerBlock ↔
    c = b := by
  have hsize : bitPerBlock = 4096 := rfl
  unfold SuperBlock.bitmapBlock
  rw [hsize]
  constructor
  · rintro ⟨h1, h2⟩; omega
  · rintro rfl; exact ⟨rfl, rfl⟩

theorem mod_bitPerBlock_lt (c : ℕ) : c % bitPerBlock < bitPerBlock := Nat.mod_lt _ (by decide)

theorem bit_setBit : bit sb (setBit sb σ b) c = (bit sb σ c || decide (c = b)) := by
  unfold bit setBit
  by_cases h : sb.bitmapBlock c = sb.bitmapBlock b
  · rw [h, Function.update_self, Bitmap.get_set _ _ (mod_bitPerBlock_lt c)]
    congr 1
    exact decide_eq_decide.mpr ⟨fun e => bitmapBlock_eq_iff.mp ⟨h, e⟩, fun e => by rw [e]⟩
  · have hne : c ≠ b := fun e => h (by rw [e])
    rw [Function.update_of_ne h, decide_eq_false hne, Bool.or_false]

theorem bit_clearBit : bit sb (clearBit sb σ b) c = (bit sb σ c && decide (c ≠ b)) := by
  unfold bit clearBit
  by_cases h : sb.bitmapBlock c = sb.bitmapBlock b
  · rw [h, Function.update_self, Bitmap.get_clear _ _ (mod_bitPerBlock_lt c)]
    congr 1
    exact decide_eq_decide.mpr ⟨fun e e' => e (by rw [e']),
      fun e e' => e (bitmapBlock_eq_iff.mp ⟨h, e'⟩)⟩
  · have hne : c ≠ b := fun e => h (by rw [e])
    rw [Function.update_of_ne h, decide_eq_true hne, Bool.and_true]

/-- The bits are where they were if the bitmap blocks are. -/
theorem bit_congr {σ' : ℕ → BlockData} (h : σ' (sb.bitmapBlock b) = σ (sb.bitmapBlock b)) :
    bit sb σ' b = bit sb σ b := by
  rw [bit, h, bit]

/-- The bits of all blocks outside the data area are set. -/
def MetadataUsed (sb : SuperBlock) (σ : ℕ → BlockData) : Prop :=
  ∀ b, b < sb.numBlocks → ¬ sb.IsData b → bit sb σ b = true

/-! ## Rules -/

/-- The contents after `cache_alloc` has returned a block. -/
def allocated (sb : SuperBlock) (σ : ℕ → BlockData) (b : ℕ) : ℕ → BlockData :=
  Function.update (setBit sb σ b) b zeroBlock

variable {Q : Unit → CacheState → Prop} {E : Stop → CacheState → Prop}

/-- The rule of `cache_free`. -/
theorem Rep.wp_cacheFree (h : Rep sb σ H s) (hl : sb.Layout) (hb : b < sb.numBlocks)
    (hE : ∀ p t, E (.panic p) t) (hblocked : sb.bitmapBlock b ∈ H.map Prod.fst → ∀ t, E .blocked t)
    (hq : ∀ t, Rep sb (clearBit sb σ b) H t → Q () t) : wp (cacheFree sb ctx b) Q E s := by
  have hlog := hl.not_inLog_bitmapBlock hb
  unfold Bcache.cacheFree
  simp only [wp_bind]
  exact h.wp_acquire hlog (fun hm => hblocked hm s) fun s1 h1 =>
    h1.wp_read (h1.wp_write fun s2 h2 => h2.wp_syncRelease hE hq)

theorem Rep.cacheFree (h : Rep sb σ H s) (hl : sb.Layout) (hb : b < sb.numBlocks)
    (hq : ∀ t, Rep sb (clearBit sb σ b) H t → Q () t) : wlp (cacheFree sb ctx b) Q s :=
  h.wp_cacheFree hl hb (fun _ _ => trivial) (fun _ _ => trivial) hq

/-- The rule of `cache_alloc`: it returns the first block whose bit is clear, and stops for want
    of a block only when all bits are set. -/
theorem Rep.wp_cacheAlloc_first (h : Rep sb σ H s) (hl : sb.Layout) (hmeta : MetadataUsed sb σ)
    (hE : ∀ p t, E (.panic p) t)
    (hfull : (∀ b, b < sb.numBlocks → bit sb σ b = true) → ∀ t, E .noFreeBlock t)
    (hblocked : ∀ b ∈ H.map Prod.fst, ¬ (sb.IsData b ∧ bit sb σ b = true) → ∀ t, E .blocked t)
    {Q : ℕ → CacheState → Prop}
    (hq : ∀ b t, sb.IsData b → bit sb σ b = false → (∀ c, c < b → bit sb σ c = true) →
      Rep sb (allocated sb σ b) H t → Q b t) :
    wp (cacheAlloc sb ctx) Q E s := by
  have hsize : bitPerBlock = 4096 := rfl
  unfold Bcache.cacheAlloc
  generalize hn : (sb.numBlocks + bitPerBlock - 1) / bitPerBlock = n
  have hi : 0 + n = (sb.numBlocks + bitPerBlock - 1) / bitPerBlock := by omega
  have hpast : ∀ c, c < 0 * bitPerBlock → c < sb.numBlocks → bit sb σ c = true := by
    intro c hc
    omega
  clear hn
  generalize 0 = i at hi hpast
  induction n generalizing i s with
  | zero =>
    rw [hsize] at hi hpast
    exact wp_throw.mpr (hfull (fun b hb => hpast b (by omega) hb) s)
  | succ n ih =>
    have hlog : ¬ sb.InLog (sb.bitmapStart + i) := by
      have := hl.bitmapStart_ge
      exact SuperBlock.not_inLog_of_ge (by omega)
    have hmap : ¬ (sb.IsData (sb.bitmapStart + i) ∧ bit sb σ (sb.bitmapStart + i) = true) := by
      rintro ⟨hd, -⟩
      have := hd.1
      unfold SuperBlock.dataStart at this
      omega
    -- the bits of this bitmap block
    have hbits : ∀ k, k < bitPerBlock →
        bit sb σ (i * bitPerBlock + k) = Bitmap.get (σ (sb.bitmapStart + i)) k := by
      intro k hk
      rw [hsize] at hk
      unfold bit SuperBlock.bitmapBlock
      rw [hsize, show (i * 4096 + k) / 4096 = i by omega, show (i * 4096 + k) % 4096 = k by omega]
    unfold cacheAllocFrom
    simp only [wp_bind]
    refine h.wp_acquire hlog (fun hm => hblocked _ hm hmap s) fun s1 h1 => h1.wp_read ?_
    split
    · next k hk =>
      obtain ⟨hlt, hclear⟩ := Bitmap.firstClear_spec hk
      rw [hsize] at hlt hi
      -- the bit belongs to the block that is returned
      have hblock : sb.bitmapBlock (i * bitPerBlock + k) = sb.bitmapStart + i := by
        unfold SuperBlock.bitmapBlock
        rw [hsize]
        omega
      have hmod : (i * bitPerBlock + k) % bitPerBlock = k := by
        rw [hsize]
        omega
      have hbit : bit sb σ (i * bitPerBlock + k) = false := by
        rw [hbits k (by omega), hclear]
      have hbefore : ∀ c, c < i * bitPerBlock + k → bit sb σ c = true := by
        intro c hc
        by_cases hci : c < i * bitPerBlock
        · exact hpast c hci (by rw [hsize] at hci; omega)
        · obtain ⟨j, rfl⟩ : ∃ j, c = i * bitPerBlock + j := ⟨c - i * bitPerBlock, by omega⟩
          rw [hbits j (by omega)]
          exact Bitmap.get_of_lt_firstClear hk (by omega)
      have hdata : sb.IsData (i * bitPerBlock + k) := by
        by_contra hc
        rw [hmeta _ (by rw [hsize]; omega) hc] at hbit
        cases hbit
      have hset : setBit sb σ (i * bitPerBlock + k) =
          Function.update σ (sb.bitmapStart + i) (Bitmap.set (σ (sb.bitmapStart + i)) k) := by
        rw [setBit, hblock, hmod]
      have hfree : ¬ (sb.IsData (i * bitPerBlock + k) ∧ bit sb σ (i * bitPerBlock + k) = true) := by
        rw [hbit]
        exact fun hc => Bool.false_ne_true hc.2
      simp only [wp_bind, wp_pure]
      refine h1.wp_write fun s2 h2 => h2.wp_syncRelease hE fun s3 h3 => ?_
      rw [← hset] at h3
      refine h3.wp_acquire (hl.not_inLog_of_isData hdata) (fun hm => hblocked _ hm hfree s3)
        fun s4 h4 => h4.wp_write fun s5 h5 => ?_
      exact h5.wp_syncRelease hE fun s6 h6 => hq _ _ hdata hbit hbefore h6
    · next hnone =>
      simp only [wp_bind]
      refine h1.wp_release rfl fun s2 h2 => ih h2 (i + 1) (by omega) fun c hc hcn => ?_
      by_cases hci : c < i * bitPerBlock
      · exact hpast c hci hcn
      · obtain ⟨k, rfl⟩ : ∃ k, c = i * bitPerBlock + k := ⟨c - i * bitPerBlock, by omega⟩
        rw [hbits k (by rw [hsize] at hc ⊢; omega)]
        exact Bitmap.get_of_firstClear_none hnone (by rw [hsize] at hc hcn ⊢; omega)

/-- The rule of `cache_alloc`: it returns a data block whose bit was clear. -/
theorem Rep.wp_cacheAlloc (h : Rep sb σ H s) (hl : sb.Layout) (hmeta : MetadataUsed sb σ)
    (hE : ∀ p t, E (.panic p) t) (hfull : ∀ t, E .noFreeBlock t)
    (hblocked : ∀ b ∈ H.map Prod.fst, ¬ (sb.IsData b ∧ bit sb σ b = true) → ∀ t, E .blocked t)
    {Q : ℕ → CacheState → Prop}
    (hq : ∀ b t, sb.IsData b → bit sb σ b = false → Rep sb (allocated sb σ b) H t → Q b t) :
    wp (cacheAlloc sb ctx) Q E s :=
  h.wp_cacheAlloc_first hl hmeta hE (fun _ => hfull) hblocked fun b t hd hb _ => hq b t hd hb

theorem Rep.cacheAlloc (h : Rep sb σ H s) (hl : sb.Layout) (hmeta : MetadataUsed sb σ)
    {Q : ℕ → CacheState → Prop}
    (hq : ∀ b t, sb.IsData b → bit sb σ b = false → Rep sb (allocated sb σ b) H t → Q b t) :
    wlp (cacheAlloc sb ctx) Q s :=
  h.wp_cacheAlloc hl hmeta (fun _ _ => trivial) (fun _ => trivial) (fun _ _ _ _ => trivial) hq

end ShikiOS.Fs.Bcache
