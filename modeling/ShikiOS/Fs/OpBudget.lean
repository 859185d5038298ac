import Mathlib.Data.Finset.Card
import ShikiOS.Fs.BcacheAlloc

/-!
# The budget of an operation (`fs/cache.c`)

`cache_begin_op` sets `ctx->rm` to `OP_MAX_NUM_BLOCKS`, and `cache_sync` takes one from it for
each block that the header does not list yet. `Spent c listed r L s` says that since the header
listed `listed` and `ctx->rm` was `r`, the context `c` has synced the blocks `L`.

Results:
* `Spent.wp_sync`, `Spent.wp_cacheAlloc`, `Spent.wp_cacheFree`: what these add to `L`. They stop
  because of `ctx->rm` only if the blocks synced are more than `r`.
* `Spent.card_new`: at most as many blocks have been added to the header as `L` has.
-/

namespace ShikiOS.Fs.Bcache

open ShikiOS.Lib

/-- The context `c` has synced the blocks `L`, starting from the header `listed` and with
    `ctx->rm = r`. -/
structure Spent (c : ℕ) (listed : List ℕ) (r : ℕ) (L : Finset ℕ) (s : CacheState) : Prop where
  mem : ∀ b ∈ L, b ∈ s.header.entries
  new : ∃ new, s.header.entries = listed ++ new ∧ new.Nodup ∧ (∀ b ∈ new, b ∈ L) ∧
    s.rm c + new.length = r

/-- `cache_sync` of the blocks `n` more than `r` allow, or of more than the header takes. -/
inductive Exhausted (r n : ℕ) : Stop → Prop
  | opBlocks (h : r < n) : Exhausted r n (.panic .opBlocks)
  | logFull : Exhausted r n (.panic .logFull)
  | noFreeBlock : Exhausted r n .noFreeBlock

variable {c : ℕ} {listed : List ℕ} {r m n b : ℕ} {L : Finset ℕ} {s t : CacheState} {e : Stop}

theorem Exhausted.mono (h : Exhausted r m e) (hn : m ≤ n) : Exhausted r n e := by
  cases h with
  | opBlocks h => exact .opBlocks (by omega)
  | logFull => exact .logFull
  | noFreeBlock => exact .noFreeBlock

/-- Within the budget `ctx->rm` suffices. -/
theorem Exhausted.ne_opBlocks (h : Exhausted r n e) (hn : n ≤ r) : e ≠ .panic .opBlocks := by
  rintro rfl
  cases h with
  | opBlocks h => omega

theorem Exhausted.ne_blocked (h : Exhausted r n e) : e ≠ .blocked := by
  rintro rfl
  cases h

theorem Spent.start (c : ℕ) (s : CacheState) : Spent c s.header.entries (s.rm c) ∅ s :=
  ⟨fun b hb => absurd hb (Finset.notMem_empty b), [], (List.append_nil _).symm, List.nodup_nil,
    fun _ hb => absurd hb List.not_mem_nil, rfl⟩

theorem length_le_card {new : List ℕ} (hn : new.Nodup) (hL : ∀ b ∈ new, b ∈ L) :
    new.length ≤ L.card := by
  rw [← List.toFinset_card_of_nodup hn]
  exact Finset.card_le_card fun b hb => hL b (List.mem_toFinset.mp hb)

/-- At most as many blocks have been added to the header as `L` has. -/
theorem Spent.card_new (h : Spent c listed r L s) : ∃ new, s.header.entries = listed ++ new ∧
    new.Nodup ∧ (∀ b ∈ new, b ∈ L) ∧ new.length ≤ L.card ∧ s.rm c + new.length = r := by
  obtain ⟨new, h1, h2, h3, h4⟩ := h.new
  exact ⟨new, h1, h2, h3, length_le_card h2 h3, h4⟩

theorem Spent.le (h : Spent c listed r L s) : r ≤ s.rm c + L.card := by
  obtain ⟨new, -, -, -, h4, h5⟩ := h.card_new
  omega

/-- Calls that do not reach the log spend nothing. -/
theorem Spent.of_sameLog (h : Spent c listed r L s) (hl : SameLog s t) : Spent c listed r L t := by
  obtain ⟨h1, h2⟩ := h
  refine ⟨?_, ?_⟩
  · rw [hl.header]; exact h1
  · rw [hl.header, hl.rm]; exact h2

/-! ## Rules -/

theorem Spent.wp_acquire (h : Spent c listed r L s) :
    wp (cacheAcquire b) (fun _ t => Spent c listed r L t) (fun e _ => e = .blocked) s := by
  rw [wp_cacheAcquire]
  split_ifs
  · rfl
  · exact h.of_sameLog (sameLog_acquire s b)

theorem Spent.wp_release (h : Spent c listed r L s) {E : Stop → CacheState → Prop} :
    wp (cacheRelease b) (fun _ t => Spent c listed r L t) E s := by
  rw [wp_cacheRelease]
  exact h.of_sameLog (sameLog_setBlock s b _)

theorem Spent.wp_write (h : Spent c listed r L s) {d : BlockData} {E : Stop → CacheState → Prop} :
    wp (writeBlock b d) (fun _ t => Spent c listed r L t) E s := by
  rw [wp_writeBlock]
  exact h.of_sameLog (sameLog_setBlock s b _)

/-- The rule of `cache_sync`. -/
theorem Spent.wp_sync (h : Spent c listed r L s) {o : Origin} :
    wp (cacheSync (some c) b o) (fun _ t => Spent c listed r (insert b L) t)
      (fun e _ => Exhausted r (insert b L).card e) s := by
  obtain ⟨new, h1, h2, h3, h4⟩ := h.new
  rw [wp_cacheSync_some]
  rcases logAppend_cases s.header (s.rm c) b with ⟨hb, ha⟩ | ⟨hb, h0, ha⟩ | ⟨-, -, -, ha⟩ |
    ⟨hb, hpos, -, ha⟩
  · -- the block is absorbed
    rw [ha]
    refine ⟨fun x hx => ?_, new, h1, h2, fun x hx => Finset.mem_insert_of_mem (h3 x hx), ?_⟩
    · rcases Finset.mem_insert.mp hx with rfl | hx
      · exact hb
      · exact h.mem x hx
    · show Function.update s.rm c (s.rm c) c + new.length = r
      rwa [Function.update_self]
  · rw [ha]
    have hle := h.le
    rw [h0] at hle
    refine .opBlocks ?_
    rw [Finset.card_insert_of_notMem fun hm => hb (h.mem b hm)]
    omega
  · rw [ha]
    exact .logFull
  · rw [ha]
    rw [h1] at hb
    refine ⟨fun x hx => ?_, new ++ [b], ?_, ?_, fun x hx => ?_, ?_⟩
    · show x ∈ (s.header.push b).entries
      rw [LogHeader.entries_push]
      rcases Finset.mem_insert.mp hx with rfl | hx
      · exact List.mem_append_right _ (List.mem_singleton_self x)
      · exact List.mem_append_left _ (h.mem x hx)
    · show (s.header.push b).entries = listed ++ (new ++ [b])
      rw [LogHeader.entries_push, h1, List.append_assoc]
    · refine List.nodup_append.mpr ⟨h2, List.nodup_singleton b, fun x hx y hy hxy => hb ?_⟩
      rw [← List.mem_singleton.mp hy, ← hxy]
      exact List.mem_append_right _ hx
    · rcases List.mem_append.mp hx with hx | hx
      · exact Finset.mem_insert_of_mem (h3 x hx)
      · rw [List.mem_singleton.mp hx]
        exact Finset.mem_insert_self b L
    · show Function.update s.rm c (s.rm c - 1) c + (new ++ [b]).length = r
      rw [Function.update_self, List.length_append, List.length_singleton]
      omega

/-- The rule of `cache_free`: it syncs a bitmap block. -/
theorem Spent.wp_cacheFree (h : Spent c listed r L s) {sb : SuperBlock} :
    wp (cacheFree sb (some c) b) (fun _ t => Spent c listed r (insert (sb.bitmapBlock b) L) t)
      (fun e _ => e = .blocked ∨ Exhausted r (insert (sb.bitmapBlock b) L).card e) s := by
  unfold Bcache.cacheFree
  simp only [wp_bind]
  refine wp_mono h.wp_acquire (fun _ s1 h1 => ?_) fun e _ he => .inl he
  rw [wp_readBlock]
  refine wp.imp h1.wp_write fun _ s2 h2 => ?_
  refine wp_mono h2.wp_sync (fun _ s3 h3 => ?_) fun e _ he => .inr he
  exact wp.imp h3.wp_release fun _ s4 h4 => h4

/-- The rule of `cache_alloc`: it syncs a bitmap block and the block that it returns. -/
theorem Spent.wp_cacheAlloc (h : Spent c listed r L s) {sb : SuperBlock} :
    wp (cacheAlloc sb (some c))
      (fun b t => Spent c listed r (insert b (insert (sb.bitmapBlock b) L)) t)
      (fun e _ => e = .blocked ∨ Exhausted r (L.card + 2) e) s := by
  have hsize : bitPerBlock = 4096 := rfl
  unfold Bcache.cacheAlloc
  generalize (sb.numBlocks + bitPerBlock - 1) / bitPerBlock = n
  generalize 0 = i
  induction n generalizing i s with
  | zero => exact wp_throw.mpr (.inr .noFreeBlock)
  | succ n ih =>
    unfold cacheAllocFrom
    simp only [wp_bind]
    refine wp_mono h.wp_acquire (fun _ s1 h1 => ?_) fun e _ he => .inl he
    rw [wp_readBlock]
    split
    · next k hk =>
      have hblock : sb.bitmapBlock (i * bitPerBlock + k) = sb.bitmapStart + i := by
        have hlt := (Bitmap.firstClear_spec hk).1
        unfold SuperBlock.bitmapBlock
        rw [hsize] at hlt ⊢
        omega
      rw [← hblock]
      have hcard := Finset.card_insert_le (sb.bitmapBlock (i * bitPerBlock + k)) L
      simp only [wp_bind, wp_pure]
      refine wp.imp h1.wp_write fun _ s2 h2 => ?_
      refine wp_mono h2.wp_sync (fun _ s3 h3 => ?_) fun e _ he => .inr (he.mono (by omega))
      refine wp.imp h3.wp_release fun _ s4 h4 => ?_
      refine wp_mono h4.wp_acquire (fun _ s5 h5 => ?_) fun e _ he => .inl he
      refine wp.imp h5.wp_write fun _ s6 h6 => ?_
      refine wp_mono h6.wp_sync (fun _ s7 h7 => ?_) fun e _ he => .inr (he.mono ?_)
      · exact wp.imp h7.wp_release fun _ s8 h8 => h8
      · have := Finset.card_insert_le (i * bitPerBlock + k)
          (insert (sb.bitmapBlock (i * bitPerBlock + k)) L)
        omega
    · simp only [wp_bind]
      exact wp.imp h1.wp_release fun _ s2 h2 => ih h2 (i + 1)

end ShikiOS.Fs.Bcache
