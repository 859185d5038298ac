import ShikiOS.Fs.LogInvariant

/-!
# The log area on the device (`fs/cache.c`, `fs/defines.h`)

`cache_end_op` writes the `i`-th block of the header to `log_start + i`, and
`init_log` reads it there. `init_log` stores `num_log_blocks` in `log.size`, but
nothing reads `log.size`: `cache_begin_op` admits operations up to
`LOG_MAX_SIZE`, whatever the super block says.

Results:
* `log_in_area_iff`: the log stays inside its area in every run exactly when the
  area has room for `LOG_MAX_SIZE` blocks and the header.
* `log_overruns_area`: two operations overrun an area of eleven blocks.
-/

namespace ShikiOS.Fs.Log

open ShikiOS.Lib

variable {P : Type*} {sb : SuperBlock} {s t : LogState P} {a : Act P}

/-- A block that a commit writes or a recovery reads for the log is in the log
    area, before the inode, bitmap and data areas. -/
def LogBlocksInArea (sb : SuperBlock) (bs : List ℕ) : Prop :=
  ∀ b ∈ bs, sb.InLog b ∧ b < sb.inodeStart

instance (sb : SuperBlock) (bs : List ℕ) : Decidable (LogBlocksInArea sb bs) :=
  inferInstanceAs (Decidable (∀ b ∈ bs, _))

/-- The header has a log block for each of its entries, and the blocks that
    commits wrote and that `init_log` would read are log blocks. -/
structure InArea (sb : SuperBlock) (s : LogState P) : Prop where
  header : s.header.numBlocks ≤ sb.numLogBlocks - 1
  written : LogBlocksInArea sb s.written
  replayed : LogBlocksInArea sb (logBlocks sb s.diskHeader.numBlocks)

/-- An operation syncs at most `OP_MAX_NUM_BLOCKS` distinct blocks. -/
def WithinBudget (s : LogState P) : Act P → Prop
  | .sync p b => (b :: (s.procs p).synced.map Prod.fst).dedup.length ≤ opMaxNumBlocks
  | _ => True

instance (s : LogState P) : ∀ a : Act P, Decidable (WithinBudget s a)
  | .sync p b => inferInstanceAs (Decidable
      ((b :: (s.procs p).synced.map Prod.fst).dedup.length ≤ opMaxNumBlocks))
  | .beginOp _ | .beginLock _ | .beginWait _ | .beginWake _ | .endOp _ | .endPost _
  | .endWait _ | .endWake _ | .commitLog _ | .commitHome _ | .commitPost _ | .kill _ => inferInstanceAs (Decidable True)

variable [DecidableEq P]

/-! ## The blocks written for the log -/

/-- Only a commit changes the header on the device and writes log blocks. -/
theorem Effect.log_writes (he : Effect sb s a t) :
    (t.written = s.written ∧ t.diskHeader = s.diskHeader) ∨
    (t.written = s.written ++ logBlocks sb s.header.numBlocks ∧ t.diskHeader = s.header) ∨
    (t.written = s.written ∧ t.diskHeader = s.header.clear) := by
  cases he with
  | commitLog => exact .inr (.inl ⟨rfl, rfl⟩)
  | commitHome => exact .inr (.inr ⟨rfl, rfl⟩)
  | _ => exact .inl ⟨rfl, rfl⟩

/-- The log blocks of a header with at most `LOG_MAX_SIZE` entries. -/
theorem logBlocks_in_area (hl : sb.Layout) (hn : logMaxSize < sb.numLogBlocks) {n : ℕ}
    (h : n ≤ logMaxSize) : LogBlocksInArea sb (logBlocks sb n) := by
  intro b hb
  obtain ⟨h1, h2⟩ := mem_logBlocks.mp hb
  have := hl.inode
  exact ⟨⟨by omega, by omega⟩, by omega⟩

/-- With room for `LOG_MAX_SIZE` blocks the log stays in its area. -/
theorem Run.inArea (hl : sb.Layout) (hn : logMaxSize < sb.numLogBlocks)
    {ok : LogState P → Act P → Prop} (h : Run (step sb) ok init s) : InArea sb s := by
  have hdisk : Inv s ∧ LogBlocksInArea sb s.written ∧ s.diskHeader.numBlocks ≤ logMaxSize := by
    refine h.invariant (I := fun s => Inv s ∧ LogBlocksInArea sb s.written ∧
      s.diskHeader.numBlocks ≤ logMaxSize) ⟨inv_init, by simp [init, LogBlocksInArea],
      Nat.zero_le _⟩ ?_
    rintro s a t ⟨hi, hw, hd⟩ - hs
    have hsize := hi.data.size
    refine ⟨hi.step hs, ?_⟩
    rcases (step_effect hi.sem hs).2.log_writes with ⟨h1, h2⟩ | ⟨h1, h2⟩ | ⟨h1, h2⟩
    · rw [h1, h2]; exact ⟨hw, hd⟩
    · rw [h1, h2]
      refine ⟨fun b hb => ?_, hsize⟩
      rcases List.mem_append.mp hb with hb | hb
      · exact hw b hb
      · exact logBlocks_in_area hl hn hsize b hb
    · rw [h1, h2]; exact ⟨hw, Nat.zero_le _⟩
  obtain ⟨hi, hw, hd⟩ := hdisk
  have := hi.data.size
  exact ⟨by omega, hw, logBlocks_in_area hl hn hd⟩

/-! ## A run that fills the log -/

/-- The super block matters only to the step that writes the log. -/
theorem next_congr (sb sb' : SuperBlock) (s : LogState P) (a : Act P) (ha : ∀ p, a ≠ .commitLog p) :
    next sb s a = next sb' s a := by
  cases a with
  | commitLog p => exact absurd rfl (ha p)
  | _ => rfl

/-- Process `p` syncs `n` blocks from block `b` on. -/
def syncs (p b n : ℕ) : List (Act ℕ) := (List.range n).map fun i => .sync p (b + i)

/-- Processes 0 and 1 start an operation. -/
def beginTwo : List (Act ℕ) := [.beginOp 0, .beginLock 0, .beginOp 1, .beginLock 1]

/-- Process 0 ends its operation and takes the unit that it posted itself. -/
def endFirst : List (Act ℕ) := [.endOp 0, .endPost 0, .endWait 0]

/-- Process 0 leaves three blocks in the log. Then six operations run at once,
    and each adds ten more. -/
def fillLog : List (Act ℕ) :=
  [beginTwo, syncs 0 0 3, endFirst,
    (List.range 5).flatMap fun i => [Act.beginOp (i + 2), Act.beginLock (i + 2)],
    (List.range 6).flatMap fun i => syncs (i + 1) (10 * i + 3) 10].flatten

/-- The admission lets the log grow to `LOG_MAX_SIZE` under every super block. -/
theorem exists_run_full (sb : SuperBlock) :
    ∃ s, Run (step sb) WithinBudget (init : LogState ℕ) s ∧ s.header.numBlocks = logMaxSize := by
  have hno : ∀ a ∈ fillLog, ∀ p, a ≠ Act.commitLog p := by
    intro a ha p hp
    subst hp
    simp [fillLog, beginTwo, endFirst, syncs] at ha
  have hrun : (execIf (step mockSuperBlock) WithinBudget init fillLog).map
      (fun s => s.header.numBlocks) = some logMaxSize := by decide +kernel
  have hsame : execIf (step mockSuperBlock) WithinBudget init fillLog =
      execIf (step sb) WithinBudget init fillLog := by
    refine exec_congr fun s a ha => ?_
    rw [step, step, next_congr mockSuperBlock sb s a (hno a ha)]
  rw [hsame] at hrun
  exact Run.of_execIf_map hrun

/-! ## The result -/

/-- For a super block with the layout of `mkfs`, the log stays inside its area in
    every run of operations that each sync at most `OP_MAX_NUM_BLOCKS` blocks if
    and only if the area has `LOG_MAX_SIZE + 1` blocks. -/
theorem log_in_area_iff (hl : sb.Layout) (hn : opMaxNumBlocks + 1 ≤ sb.numLogBlocks) :
    (∀ s : LogState ℕ, Run (step sb) WithinBudget init s → InArea sb s) ↔
      logMaxSize + 1 ≤ sb.numLogBlocks := by
  constructor
  · intro h
    obtain ⟨s, hs, hfull⟩ := exists_run_full sb
    have := (h s hs).header
    omega
  · exact fun hlog s hs => Run.inArea hl hlog hs

/-- A disk whose log area has `OP_MAX_NUM_BLOCKS + 1` blocks. -/
def smallLogSuperBlock : SuperBlock where
  numBlocks := 100
  numDataBlocks := 60
  numInodes := 80
  numLogBlocks := 11
  logStart := 2
  inodeStart := 13
  bitmapStart := 23

/-- Two operations that overlap and sync ten blocks each. -/
def twoOperations : List (Act ℕ) :=
  [beginTwo, syncs 0 40 10, syncs 1 50 10, endFirst, [Act.endOp 1, Act.commitLog 1]].flatten

/-- Their commit writes the log over the inode area. -/
theorem log_overruns_area : ¬ ∀ sb : SuperBlock, sb.Layout → opMaxNumBlocks + 1 ≤ sb.numLogBlocks →
    ∀ s : LogState ℕ, Run (step sb) WithinBudget init s → InArea sb s := by
  intro h
  have hl : smallLogSuperBlock.Layout := ⟨by decide, by decide, by decide, by decide⟩
  have hrun : (execIf (step smallLogSuperBlock) WithinBudget init twoOperations).map
      (fun s => decide (13 ∈ s.written)) = some true := by decide +kernel
  obtain ⟨s, hs, hx⟩ := Run.of_execIf_map hrun
  obtain ⟨-, hlt⟩ := (h smallLogSuperBlock hl (by decide) s hs).written 13 (of_decide_eq_true hx)
  exact absurd hlt (by decide)

/-- The super block of the tests with a log area that is large enough. -/
theorem log_in_area_large : logMaxSize + 1 ≤ 64 ∧ ∀ s : LogState ℕ,
    Run (step { mockSuperBlock with numLogBlocks := 64 }) WithinBudget init s →
      InArea { mockSuperBlock with numLogBlocks := 64 } s := by
  refine ⟨by decide, ?_⟩
  exact (log_in_area_iff ⟨by decide, by decide, by decide, by decide⟩ (by decide)).mpr (by decide)

end ShikiOS.Fs.Log
