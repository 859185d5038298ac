import ShikiOS.Fs.BcacheAlloc

/-!
# What an operation writes to the device (`fs/cache.c`)

One operation at a time, on any contents. `Phase sb track w₀ ph s` says that the operation
`ph` is running, or none; that it has logged at most as many blocks as it may; and, if
`track` holds, that the device has taken no write after `w₀` but into the log area and by
the checkpoint. There is one rule for each call.
-/

namespace ShikiOS.Fs.Bcache

open ShikiOS.Lib

/-- After `w₀` the device has taken writes into the log area and checkpoints only. -/
def Logged (sb : SuperBlock) (w₀ : List Write) (s : CacheState) : Prop :=
  ∃ ws, s.writes = w₀ ++ ws ∧ HomeOnly sb ws

/-- The operation `ph` is running, or none. -/
structure Phase (sb : SuperBlock) (track : Prop) (w₀ : List Write) (ph : Option ℕ)
    (s : CacheState) : Prop where
  logged : track → Logged sb w₀ s
  idle : ph = none → s.header.numBlocks = 0 ∧ s.outstanding = 0
  running : ∀ c, ph = some c → s.header.numBlocks + s.rm c ≤ opMaxNumBlocks ∧ s.outstanding = 1

variable {sb : SuperBlock} {track : Prop} {w₀ : List Write} {ph : Option ℕ} {s t : CacheState}
  {b c : ℕ} {d : BlockData}

theorem Logged.written (h : Logged sb w₀ s) {o : Origin} (ho : o = .home ∨ sb.InLog b) :
    Logged sb w₀ (written s o b d) := by
  obtain ⟨ws, hws, hhome⟩ := h
  refine ⟨ws ++ [⟨o, b, d⟩], ?_, hhome.append ?_⟩
  · show s.writes ++ [_] = _
    rw [hws, List.append_assoc]
  · rcases ho with rfl | hb
    · exact homeOnly_home
    · exact homeOnly_log hb

theorem Logged.of_writes (h : Logged sb w₀ s) (hw : t.writes = s.writes) : Logged sb w₀ t := by
  obtain ⟨ws, hws, hhome⟩ := h
  exact ⟨ws, hw.trans hws, hhome⟩

/-- A step that leaves the log layer alone and writes nothing. -/
theorem Phase.same (h : Phase sb track w₀ ph s) (hl : SameLog s t) (hw : t.writes = s.writes) :
    Phase sb track w₀ ph t := by
  refine ⟨fun ht => (h.logged ht).of_writes hw, fun he => ?_, fun c he => ?_⟩
  · rw [hl.header, hl.outstanding]
    exact h.idle he
  · rw [hl.header, hl.outstanding, hl.rm]
    exact h.running c he

theorem Phase.setBlock (h : Phase sb track w₀ ph s) {k : Block} :
    Phase sb track w₀ ph (setBlock s b k) := h.same (sameLog_setBlock s b k) rfl

/-- A call that keeps `P`, and stops with nothing but logged writes. -/
abbrev logs {α : Type} (sb : SuperBlock) (track : Prop) (w₀ : List Write) (x : M α)
    (Q : α → CacheState → Prop) (s : CacheState) : Prop :=
  wp x Q (fun _ t => track → Logged sb w₀ t) s

/-! ## Blocks -/

variable {Q : Unit → CacheState → Prop}

theorem Phase.acquire (h : Phase sb track w₀ ph s)
    (hq : ∀ t, Phase sb track w₀ ph t → Q () t) : logs sb track w₀ (cacheAcquire b) Q s := by
  rw [logs, wp_cacheAcquire]
  split_ifs
  · exact h.logged
  · exact hq _ (h.same (sameLog_acquire s b) (acquire_writes s b))

theorem Phase.release (h : Phase sb track w₀ ph s)
    (hq : ∀ t, Phase sb track w₀ ph t → Q () t) : logs sb track w₀ (cacheRelease b) Q s := by
  rw [logs, wp_cacheRelease]
  exact hq _ h.setBlock

theorem logs_read {R : BlockData → CacheState → Prop} (hq : ∀ d, R d s) : logs sb track w₀ (readBlock b) R s := by
  rw [logs, wp_readBlock]
  exact hq _

theorem Phase.write (h : Phase sb track w₀ ph s)
    (hq : ∀ t, Phase sb track w₀ ph t → Q () t) : logs sb track w₀ (writeBlock b d) Q s := by
  rw [logs, wp_writeBlock]
  exact hq _ h.setBlock

/-- What `logAppend` does to the count of an operation. -/
theorem logAppend_count {header header' : LogHeader} {rm rm' : ℕ}
    (h : logAppend header rm b = .ok (header', rm')) :
    header'.numBlocks + rm' = header.numBlocks + rm := by
  rcases logAppend_cases header rm b with ⟨-, h2⟩ | ⟨-, -, h2⟩ | ⟨-, -, -, h2⟩ | ⟨-, h1, -, h2⟩
  · rw [h2] at h
    cases h
    rfl
  · rw [h2] at h; cases h
  · rw [h2] at h; cases h
  · rw [h2] at h
    cases h
    rw [LogHeader.numBlocks_push]
    omega

/-- `cache_sync` in an operation, or one whose writes nobody tracks. -/
theorem Phase.sync (h : Phase sb track w₀ ph s) {ctx : Option ℕ}
    (hctx : ctx = ph ∧ ph ≠ none ∨ ctx = none ∧ ¬ track)
    (hq : ∀ t, Phase sb track w₀ ph t → Q () t) : logs sb track w₀ (cacheSync ctx b .direct) Q s := by
  rcases hctx with ⟨rfl, hne⟩ | ⟨rfl, ht⟩
  · obtain ⟨c, rfl⟩ := Option.ne_none_iff_exists'.mp hne
    rw [logs, wp_cacheSync_some]
    split
    · exact fun ht => (h.logged ht).of_writes rfl
    next header rm hap =>
    have hcount := logAppend_count hap
    refine hq _ ⟨fun ht => (h.logged ht).of_writes rfl, fun e => (hne e).elim, fun c' e => ?_⟩
    obtain rfl := Option.some.inj e
    have := h.running c rfl
    show header.numBlocks + Function.update s.rm c rm c ≤ _ ∧ _
    rw [Function.update_self]
    exact ⟨by omega, this.2⟩
  · rw [logs, wp_cacheSync_none]
    refine hq _ ⟨fun h' => (ht h').elim, h.idle, h.running⟩

/-! ## Allocation -/

section Sync

variable {ctx : Option ℕ} (hctx : ctx = ph ∧ ph ≠ none ∨ ctx = none ∧ ¬ track)
include hctx

theorem Phase.syncRelease (h : Phase sb track w₀ ph s)
    (hq : ∀ t, Phase sb track w₀ ph t → Q () t) :
    logs sb track w₀ (cacheSync ctx b .direct) (fun _ t => logs sb track w₀ (cacheRelease b) Q t) s :=
  h.sync hctx fun _ ht => ht.release hq

theorem Phase.cacheFree (h : Phase sb track w₀ ph s)
    (hq : ∀ t, Phase sb track w₀ ph t → Q () t) : logs sb track w₀ (cacheFree sb ctx b) Q s := by
  unfold Bcache.cacheFree logs
  simp only [wp_bind]
  exact h.acquire fun s1 h1 => logs_read fun d => h1.write fun s2 h2 => h2.syncRelease hctx hq

theorem Phase.cacheAlloc (h : Phase sb track w₀ ph s) {R : ℕ → CacheState → Prop}
    (hq : ∀ b t, Phase sb track w₀ ph t → R b t) : logs sb track w₀ (cacheAlloc sb ctx) R s := by
  unfold Bcache.cacheAlloc
  generalize (sb.numBlocks + bitPerBlock - 1) / bitPerBlock = n, 0 = i
  induction n generalizing i s with
  | zero => exact wp_throw.mpr h.logged
  | succ n ih =>
    unfold cacheAllocFrom logs
    simp only [wp_bind]
    refine h.acquire fun s1 h1 => logs_read fun d => ?_
    split
    · simp only [wp_bind, wp_pure]
      refine h1.write fun s2 h2 => h2.syncRelease hctx fun s3 h3 => ?_
      exact h3.acquire fun s4 h4 => h4.write fun s5 h5 => h5.syncRelease hctx fun s6 h6 => hq _ _ h6
    · simp only [wp_bind]
      exact h1.release fun s2 h2 => ih h2 (i + 1)

end Sync

/-! ## Operations -/

theorem beginOpLoop_spec (n : ℕ) : wp (beginOpLoop n)
    (fun _ t => t.header = s.header ∧ t.rm = s.rm ∧ t.outstanding = s.outstanding + 1 ∧
      t.writes = s.writes)
    (fun _ t => t.writes = s.writes) s := by
  induction n generalizing s with
  | zero => exact wp_throw.mpr rfl
  | succ n ih =>
    unfold beginOpLoop
    simp only [wp_bind, wp_get]
    split_ifs
    · split
      · next sem _ =>
        simp only [wp_bind, wp_set]
        exact ih (s := { s with sem := sem })
      · simp only [wp_bind, wp_set, wp_throw]
    · exact wp_set.mpr ⟨rfl, rfl, rfl, rfl⟩

/-- The rule of `cache_begin_op`. -/
theorem Phase.beginOp (h : Phase sb track w₀ none s)
    (hq : ∀ t, Phase sb track w₀ (some c) t → Q () t) :
    logs sb track w₀ (cacheBeginOp c) Q s := by
  obtain ⟨hnum, hout⟩ := h.idle rfl
  unfold cacheBeginOp logs
  simp only [wp_bind, wp_modify, wp_get]
  refine wp_mono (beginOpLoop_spec _) ?_ ?_
  · rintro - t ⟨hh, hrm, ho, hw⟩
    refine hq t ⟨fun ht => (h.logged ht).of_writes hw, fun e => ?_, fun c' e => ?_⟩
    · cases e
    obtain rfl := Option.some.inj e
    have hrm' : t.rm c = opMaxNumBlocks := by
      rw [hrm]
      exact Function.update_self _ _ _
    rw [hh, hrm', ho]
    exact ⟨by simpa using hnum.le, by simpa using hout⟩
  · intro e t hw ht
    exact (h.logged ht).of_writes hw

/-- Between the loops of a commit, with `n` blocks in the header. -/
structure Committing (sb : SuperBlock) (track : Prop) (w₀ : List Write) (n : ℕ)
    (s : CacheState) : Prop where
  logged : track → Logged sb w₀ s
  header : s.header.numBlocks = n
  outstanding : s.outstanding = 0

section Commit

variable {n : ℕ} (hfit : track → n + 1 ≤ sb.numLogBlocks)

theorem Committing.same (h : Committing sb track w₀ n s) (hl : SameLog s t)
    (hw : t.writes = s.writes) : Committing sb track w₀ n t :=
  ⟨fun ht => (h.logged ht).of_writes hw, by rw [hl.header]; exact h.header,
    by rw [hl.outstanding]; exact h.outstanding⟩

theorem Committing.written (h : Committing sb track w₀ n s) {o : Origin}
    (ho : track → o = .home ∨ sb.InLog b) : Committing sb track w₀ n (Bcache.written s o b d) :=
  ⟨fun ht => (h.logged ht).written (ho ht), h.header, h.outstanding⟩

theorem Committing.acquire (h : Committing sb track w₀ n s)
    (hq : ∀ t, Committing sb track w₀ n t → Q () t) : logs sb track w₀ (cacheAcquire b) Q s := by
  rw [logs, wp_cacheAcquire]
  split_ifs
  · exact h.logged
  · exact hq _ (h.same (sameLog_acquire s b) (acquire_writes s b))

theorem Committing.release (h : Committing sb track w₀ n s) :
    Committing sb track w₀ n (Bcache.release s b) := h.same (sameLog_setBlock s b _) rfl

include hfit in
theorem inLog_of_le {i : ℕ} (ht : track) (hi : i ≤ n) : sb.InLog (sb.logStart + i) :=
  ⟨Nat.le_add_right _ _, by have := hfit ht; omega⟩

include hfit in
theorem Committing.logBlock (h : Committing sb track w₀ n s) {i : ℕ} (hi : i ≤ n) :
    logs sb track w₀ (logBlock sb i) (fun _ t => Committing sb track w₀ n t) s := by
  unfold Bcache.logBlock logs
  simp only [wp_bind, wp_get]
  refine h.acquire fun s1 h1 => h1.acquire fun s2 h2 => ?_
  simp only [wp_readBlock, wp_writeBlock, wp_cacheSync_none, wp_cacheRelease]
  refine Committing.release (Committing.release (Committing.written ?_ fun ht => .inr ?_))
  · exact h2.same (sameLog_setBlock _ _ _) rfl
  · exact inLog_of_le hfit ht hi

theorem Committing.checkpointBlock (h : Committing sb track w₀ n s) {i : ℕ} :
    logs sb track w₀ (checkpointBlock i) (fun _ t => Committing sb track w₀ n t) s := by
  unfold Bcache.checkpointBlock logs
  simp only [wp_bind, wp_get]
  refine h.acquire fun s1 h1 => ?_
  simp only [wp_cacheSync_none, wp_modify, wp_cacheRelease]
  refine Committing.release (Committing.same ?_ (sameLog_setBlock _ _ _) rfl)
  exact h1.written fun _ => .inl rfl

include hfit in
theorem Committing.writeHeader {k : ℕ} (h : Committing sb track w₀ k s) :
    Committing sb track w₀ k (Bcache.written s .header sb.logStart s.header.encode) :=
  h.written fun ht => .inr (inLog_of_le hfit ht (Nat.zero_le n))

include hfit in
theorem Committing.commit (h : Committing sb track w₀ n s)
    (hq : ∀ t, Phase sb track w₀ none t → Q () t) : logs sb track w₀ (commit sb) Q s := by
  unfold Bcache.commit logs
  simp only [wp_bind, wp_modify, wp_get]
  rw [h.header]
  have h0 : Committing sb track w₀ n { s with committing := true } :=
    ⟨fun ht => (h.logged ht).of_writes rfl, h.header, h.outstanding⟩
  refine (wp_forN (fun _ t => Committing sb track w₀ n t) h0 fun i t _ hi ht =>
    ht.logBlock hfit (by omega)).imp fun _ s1 h1 => ?_
  rw [wp_writeHeader]
  have h2 := h1.writeHeader hfit
  refine (wp_forN (fun _ t => Committing sb track w₀ n t) h2 fun i t _ _ ht =>
    ht.checkpointBlock).imp fun _ s3 h3 => ?_
  rw [wp_writeHeader]
  have h4 : Committing sb track w₀ 0 { s3 with header := s3.header.clear } :=
    ⟨fun ht => (h3.logged ht).of_writes rfl, LogHeader.numBlocks_clear _, h3.outstanding⟩
  have h5 := h4.writeHeader hfit
  split
  · exact wp_throw.mpr fun ht => (h5.logged ht).of_writes rfl
  · refine wp_set.mpr (hq _ ⟨fun ht => (h5.logged ht).of_writes rfl, fun _ => ⟨h5.header, h5.outstanding⟩, ?_⟩)
    intro c e
    cases e

end Commit

/-- The rule of `cache_end_op`. -/
theorem Phase.endOp (h : Phase sb track w₀ (some c) s)
    (hfit : track → opMaxNumBlocks + 1 ≤ sb.numLogBlocks)
    (hq : ∀ t, Phase sb track w₀ none t → Q () t) : logs sb track w₀ (cacheEndOp sb c) Q s := by
  obtain ⟨hle, hout⟩ := h.running c rfl
  have h0 : Committing sb track w₀ s.header.numBlocks { s with outstanding := s.outstanding - 1 } :=
    ⟨fun ht => (h.logged ht).of_writes rfl, rfl, by rw [hout]; rfl⟩
  have hpos : ¬ s.outstanding - 1 > 0 := by omega
  unfold cacheEndOp logs
  simp only [wp_bind, wp_modify, wp_get, if_neg hpos]
  split_ifs
  · exact wp_throw.mpr fun ht => (h.logged ht).of_writes rfl
  · exact h0.commit (fun ht => by have := hfit ht; omega) hq

theorem replayBlock_outstanding {i : ℕ} (h : s.outstanding = 0) :
    wlp (replayBlock sb i) (fun _ t => t.outstanding = 0) s := by
  have hacquire : ∀ {b s}, s.outstanding = 0 → (acquire s b).outstanding = 0 := fun {b s} h =>
    (sameLog_acquire s b).outstanding.trans h
  unfold replayBlock
  simp only [wlp, wp_bind, wp_get, wp_cacheAcquire]
  split
  · trivial
  split
  · trivial
  · simp only [wp_readBlock, wp_writeBlock, wp_cacheSync_none, wp_cacheRelease]
    exact hacquire (hacquire h)

/-- After `init_bcache` the log is empty and no operation is running. -/
theorem initBcache_idle (d : ℕ → BlockData) :
    wlp (initBcache sb) (fun _ t => t.header.numBlocks = 0 ∧ t.outstanding = 0) (boot d) := by
  unfold initBcache initLog readHeader
  simp only [wlp, wp_bind, wp_modify, wp_get]
  refine (wp_forN (fun _ t => t.outstanding = 0) rfl fun _ _ _ _ ht =>
    replayBlock_outstanding ht).imp fun _ s1 h1 => ?_
  rw [wp_writeHeader]
  exact ⟨LogHeader.numBlocks_clear _, h1⟩

end ShikiOS.Fs.Bcache
