import ShikiOS.Fs.BitmapAlloc

/-!
# Freeing an invalid block (`fs/cache.c`)

`cache_free` computes the block that holds the bit from the block number and does not compare it
with the number of bitmap blocks. For a number that is too large it clears a bit of whatever lies
behind the bitmap. The addresses come from the device, so the number may be anything; nothing is
asked of the super block here.

Results:
* `cacheFree_content`: for every number one bit is cleared, in `bitmap_start + b / 4096`.
* `cache_free_harmless_iff`: that is harmless iff the block belongs to the bitmap, or the bit is
  clear already.
-/

namespace ShikiOS.Fs.Bcache.Allocator

open ShikiOS.Lib

variable {sb : SuperBlock} {ctx : Option ℕ} {s t : CacheState} {b c k : ℕ} {d : BlockData} {o : Origin}

/-! ## Contents -/

/-- A cached block that may be dropped is as it is on the device. -/
def Settled (s : CacheState) : Prop :=
  ∀ c ∈ s.list, (s.block c).acquired = false → (s.block c).pinned = false →
    (s.block c).data = s.disk c

theorem settled_boot (disk : ℕ → BlockData) : Settled (boot disk) :=
  fun _ hc => absurd hc List.not_mem_nil

/-- Blocks of the cache that represents `σ` are settled, those of the log area apart. -/
theorem settled_of_rep {σ : ℕ → BlockData} {H : List (ℕ × BlockData)} (h : Rep sb σ H s)
    (hlog : ∀ c ∈ s.list, sb.InLog c → (s.block c).data = s.disk c) : Settled s := by
  intro c hc hacq hpin
  by_cases hcl : sb.InLog c
  · exact hlog c hc hcl
  · have hnot : c ∉ s.header.entries := by
      intro hm
      rw [(h.coh.logged c hm).2] at hpin
      cases hpin
    rw [h.coh.cached c hc hcl hacq, h.coh.disk c hcl hnot]

/-- Acquiring a block changes no content, whatever is evicted for it. -/
theorem content_acquire (hs : Settled s) : content (acquire s b) = content s := by
  funext c
  unfold content acquire
  by_cases hb : b ∈ s.list
  · rw [if_pos hb]
    have hmem : c ∈ b :: s.list.erase b ↔ c ∈ s.list := by
      rw [List.mem_cons]
      by_cases hcb : c = b
      · simp [hcb, hb]
      · simp [hcb, List.mem_erase_of_ne hcb]
    have hdata : ((hit s b).block c).data = (s.block c).data := by
      by_cases hcb : c = b
      · subst hcb
        simp [hit]
      · simp [hit, setBlock_block_of_ne _ _ _ hcb]
    rw [hdata]
    exact if_congr hmem rfl rfl
  · rw [if_neg hb]
    obtain ⟨heq, -, hsub, hkeep⟩ := evict_spec s
    have hblock : (evict s).block = s.block := by rw [heq]
    have hdisk : (evict s).disk = s.disk := by rw [heq]
    by_cases hcb : c = b
    · subst hcb
      rw [if_pos (by simp [load]), if_neg hb]
      simp [load, hdisk]
    · have hdata : ((load (evict s) b).block c).data = (s.block c).data := by
        simp [load, setBlock_block_of_ne _ _ _ hcb, hblock]
      have hmem : c ∈ (load (evict s) b).list ↔ c ∈ (evict s).list := by simp [load, hcb]
      have hd : (load (evict s) b).disk = s.disk := hdisk
      rw [hdata, hd]
      by_cases hc : c ∈ (evict s).list
      · rw [if_pos (hmem.mpr hc), if_pos (hsub c hc)]
      · rw [if_neg fun h => hc (hmem.mp h)]
        split_ifs with hcs
        · -- `c` has been evicted
          have hu : ¬ ((s.block c).acquired = true ∨ (s.block c).pinned = true) :=
            fun hu => hc (hkeep c hcs hu)
          rw [not_or, Bool.not_eq_true, Bool.not_eq_true] at hu
          exact (hs c hcs hu.1 hu.2).symm
        · rfl

theorem content_setBlock {x : Block} (hb : b ∈ s.list) :
    content (setBlock s b x) = Function.update (content s) b x.data := by
  funext c
  unfold content
  by_cases hcb : c = b
  · subst hcb
    rw [Function.update_self, setBlock_list, if_pos hb, setBlock_block_self]
  · rw [Function.update_of_ne hcb, setBlock_list, setBlock_block_of_ne _ _ _ hcb, setBlock_disk]

/-- A cached block covers what is on the device. -/
theorem content_written (hb : b ∈ s.list) : content (written s o b d) = content s := by
  funext c
  show (if c ∈ s.list then (s.block c).data else Function.update s.disk b d c) = content s c
  by_cases hc : c ∈ s.list
  · rw [if_pos hc, content, if_pos hc]
  · have hcb : c ≠ b := by
      rintro rfl
      exact hc hb
    rw [if_neg hc, Function.update_of_ne hcb, content, if_neg hc]

/-- `cache_sync` and `cache_release` of a block in the cache change no content. -/
theorem wp_syncRelease_content (hb : b ∈ s.list) (hbud : Budget ctx 1 s) :
    wp (cacheSync ctx b o) (fun _ t => wp (cacheRelease b) (fun _ u => content u = content s)
      (fun _ _ => False) t) (fun _ _ => False) s := by
  have hsame : ∀ u : CacheState, b ∈ u.list → content u = content s →
      content (Bcache.release u b) = content s := by
    intro u hu he
    have hdata : (u.block b).data = content u b := (if_pos hu).symm
    rw [Bcache.release, content_setBlock hu, hdata, Function.update_eq_self, he]
  cases ctx with
  | none =>
    rw [wp_cacheSync_none, wp_cacheRelease]
    exact hsame _ hb (content_written hb)
  | some c =>
    obtain ⟨h1, h2⟩ := hbud c rfl
    have hpin : content (setBlock s b { s.block b with pinned := true }) = content s := by
      have hdata : (s.block b).data = content s b := (if_pos hb).symm
      rw [content_setBlock hb]
      show Function.update (content s) b (s.block b).data = content s
      rw [hdata, Function.update_eq_self]
    rw [wp_cacheSync_some]
    rcases logAppend_cases s.header (s.rm c) b with ⟨-, ha⟩ | ⟨-, h0, -⟩ | ⟨-, -, hfull, -⟩ |
      ⟨-, -, -, ha⟩
    · rw [ha]
      exact wp_cacheRelease.mpr (hsame _ hb hpin)
    · omega
    · omega
    · rw [ha]
      exact wp_cacheRelease.mpr (hsame _ hb hpin)

/-- `cache_free` returns, and clears one bit of the block that it computes from the number. -/
theorem cacheFree_content (hs : Settled s) (hh : ¬ Held s (sb.bitmapBlock b))
    (hbud : Budget ctx 1 s) :
    ∃ t, cacheFree sb ctx b s = .ok () t ∧ content t = clearBit sb (content s) b := by
  have hmem := mem_acquire_self s (sb.bitmapBlock b)
  have hread : ((acquire s (sb.bitmapBlock b)).block (sb.bitmapBlock b)).data =
      content s (sb.bitmapBlock b) := by
    rw [← content_acquire (b := sb.bitmapBlock b) hs, content, if_pos hmem]
  have hwp : wp (cacheFree sb ctx b) (fun _ t => content t = clearBit sb (content s) b)
      (fun _ _ => False) s := by
    unfold Bcache.cacheFree
    simp only [wp_bind, wp_cacheAcquire, wp_readBlock, wp_writeBlock, if_neg hh]
    have hbud' : Budget ctx 1 (acquire s (sb.bitmapBlock b)) := hbud.of_sameLog (sameLog_acquire s _)
    refine wp.imp (wp_syncRelease_content ?_ (hbud'.of_sameLog (sameLog_setBlock _ _ _)))
      fun _ t ht => ht.imp fun _ u hu => ?_
    · exact hmem
    · rw [hu, content_setBlock hmem, content_acquire hs, hread, clearBit]
  obtain ⟨_, t, ht, hc⟩ := hwp.total
  exact ⟨t, ht, hc⟩

/-! ## When it is harmless -/

/-- Bit `k` of block `c`, in the cache or on the device. -/
def blockBit (s : CacheState) (c k : ℕ) : Bool := Bitmap.get (content s c) k

/-- What the interface promises of `cache_free(b)`: at most one bit changes, in the bitmap, and a
    number that is no block changes nothing that counts. -/
structure Harmless (sb : SuperBlock) (b : ℕ) (s t : CacheState) : Prop where
  one : ∃ c₀ k₀, ∀ c k, k < bitPerBlock → blockBit t c k ≠ blockBit s c k → c = c₀ ∧ k = k₀
  bitmap : ∀ c k, k < bitPerBlock → blockBit t c k ≠ blockBit s c k → IsBitmap sb c
  allocation : sb.numBlocks ≤ b → ∀ c, c < sb.numBlocks →
    bit sb (content t) c = bit sb (content s) c
  others : sb.numBlocks ≤ b → ∀ c, ¬ IsBitmap sb c → content t c = content s c

theorem blockBit_cleared (h : content t = clearBit sb (content s) b) (hk : k < bitPerBlock) :
    blockBit t c k = (blockBit s c k && !decide (c = sb.bitmapBlock b ∧ k = b % bitPerBlock)) := by
  rw [blockBit, blockBit, h, clearBit]
  by_cases hc : c = sb.bitmapBlock b
  · subst hc
    rw [Function.update_self, Bitmap.get_clear _ _ hk]
    simp
  · rw [Function.update_of_ne hc]
    simp [hc]

/-- The bit that changes is the one of `b`, and it was set. -/
theorem blockBit_changed (h : content t = clearBit sb (content s) b) (hk : k < bitPerBlock)
    (hne : blockBit t c k ≠ blockBit s c k) : c = sb.bitmapBlock b ∧ k = b % bitPerBlock := by
  rw [blockBit_cleared h hk] at hne
  by_contra hnot
  simp [hnot] at hne

/-- `cache_free` of any number returns, and it is harmless iff the bit of that number is in the
    bitmap or is clear already. -/
theorem cache_free_harmless_iff (hs : Settled s) (hh : ¬ Held s (sb.bitmapBlock b))
    (hbud : Budget ctx 1 s) :
    ∃ t, cacheFree sb ctx b s = .ok () t ∧
      (Harmless sb b s t ↔ Mapped sb b ∨ bit sb (content s) b = false) := by
  obtain ⟨t, ht, hc⟩ := cacheFree_content hs hh hbud
  refine ⟨t, ht, fun hharm => ?_, fun hcond => ?_⟩
  · by_contra hnot
    rw [not_or, Bool.not_eq_false] at hnot
    have hset : blockBit s (sb.bitmapBlock b) (b % bitPerBlock) = true := hnot.2
    refine hnot.1 (hharm.bitmap _ _ (mod_bitPerBlock_lt b) ?_).2
    rw [blockBit_cleared hc (mod_bitPerBlock_lt b), hset]
    simp
  · have hone : ∀ c k, k < bitPerBlock → blockBit t c k ≠ blockBit s c k →
        c = sb.bitmapBlock b ∧ k = b % bitPerBlock := fun c k hk hne => blockBit_changed hc hk hne
    have hothers : ∀ c, ¬ IsBitmap sb c → content t c = content s c := by
      intro c hcb
      rw [hc, clearBit]
      rcases hcond with hm | hclear
      · have hne : c ≠ sb.bitmapBlock b := by
          rintro rfl
          exact hcb hm.isBitmap
        rw [Function.update_of_ne hne]
      · rw [clear_of_get hclear, Function.update_eq_self]
    refine ⟨⟨_, _, hone⟩, fun c k hk hne => ?_, fun hb c hcn => ?_, fun _ => hothers⟩
    · by_contra hcb
      rw [blockBit, blockBit, hothers c hcb] at hne
      exact hne rfl
    · have hne : c ≠ b := by omega
      rw [hc, bit_clearBit, decide_eq_true hne, Bool.and_true]

theorem cache_free_harmless_iff_ten :
    ∃ t, cacheFree eightBlocks none 10 (boot eightDisk) = .ok () t ∧
      Harmless eightBlocks 10 (boot eightDisk) t := by
  have hbud : Budget none 1 (boot eightDisk) := fun c hc => by cases hc
  have hheld : ¬ Held (boot eightDisk) (eightBlocks.bitmapBlock 10) := by decide
  obtain ⟨t, ht, hiff⟩ := cache_free_harmless_iff (settled_boot eightDisk) hheld hbud
  exact ⟨t, ht, hiff.mpr (.inl (by decide))⟩

/-- A data block with content, behind the only bitmap block. -/
def ownedDisk (b : ℕ) : BlockData := if b = 6 then fun _ => 0xff else eightDisk b

/-- The device has 8 blocks and `cache_free(4096)` clears a bit of the data block 6. -/
theorem cache_free_damages : ∃ t, cacheFree eightBlocks none 4096 (boot ownedDisk) = .ok () t ∧
    ¬ IsBitmap eightBlocks 6 ∧ content t 6 ≠ content (boot ownedDisk) 6 ∧
    ¬ Harmless eightBlocks 4096 (boot ownedDisk) t := by
  have hbud : Budget none 1 (boot ownedDisk) := fun c hc => by cases hc
  have hheld : ¬ Held (boot ownedDisk) (eightBlocks.bitmapBlock 4096) := by decide
  obtain ⟨t, ht, hc⟩ := cacheFree_content (settled_boot ownedDisk) hheld hbud
  have hne : content t 6 ≠ content (boot ownedDisk) 6 := by
    intro he
    have hbit : bit eightBlocks (content t) 4096 = false := by rw [hc, bit_clearBit]; simp
    rw [bit_congr (σ := content (boot ownedDisk)) (by exact he)] at hbit
    revert hbit
    decide +kernel
  have hnot : ¬ IsBitmap eightBlocks 6 := by decide
  exact ⟨t, ht, hnot, hne, fun h => hne (h.others (by decide) 6 hnot)⟩

end ShikiOS.Fs.Bcache.Allocator
