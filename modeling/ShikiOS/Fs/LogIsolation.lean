import ShikiOS.Lib.Reservation
import ShikiOS.Fs.LogInvariant

/-!
# Commits are isolated and the log has room (`fs/cache.c`)

`log.outstanding` counts the running operations, and the sum in `cache_begin_op`
reserves `OP_MAX_NUM_BLOCKS` blocks of the log for each of them. Both rest on the
increment at line 289, which the early return of an interrupted wait (line 283)
skips: the caller then runs without having been admitted.

Results, with the log seen as a `Pool` of `LOG_MAX_SIZE` slots:
* `commit_isolation`: when no wait of `cache_begin_op` is interrupted,
  `log.outstanding` is the number of running operations, and none of them runs
  during a commit. `commit_isolation_fails`: an interrupted wait breaks this.
* `log_reservation`: the blocks in the log and the budgets of the running
  operations fit into `LOG_MAX_SIZE`, so `cache_sync` never finds the log full.
-/

namespace ShikiOS.Fs.Log

open ShikiOS.Lib

variable {P : Type*} [DecidableEq P] {sb : SuperBlock} {s t : LogState P} {a : Act P}

/-- No wait of `cache_begin_op` is interrupted. -/
def BeginNotInterrupted (s : LogState P) : Act P → Prop
  | .beginWake p => (s.procs p).up = true
  | _ => True

/-- No wait is interrupted. -/
def NotInterrupted (s : LogState P) : Act P → Prop
  | .beginWake p | .endWake p => (s.procs p).up = true
  | _ => True

instance (s : LogState P) : ∀ a : Act P, Decidable (BeginNotInterrupted s a)
  | .beginWake p => inferInstanceAs (Decidable ((s.procs p).up = true))
  | .beginOp _ | .beginLock _ | .beginWait _ | .sync _ _ | .endOp _ | .endPost _ | .endWait _
  | .endWake _ | .commitLog _ | .commitHome _ | .commitPost _ | .kill _ => inferInstanceAs (Decidable True)

instance (s : LogState P) : ∀ a : Act P, Decidable (NotInterrupted s a)
  | .beginWake p | .endWake p => inferInstanceAs (Decidable ((s.procs p).up = true))
  | .beginOp _ | .beginLock _ | .beginWait _ | .sync _ _ | .endOp _ | .endPost _ | .endWait _
  | .commitLog _ | .commitHome _ | .commitPost _ | .kill _ => inferInstanceAs (Decidable True)

omit [DecidableEq P] in
theorem NotInterrupted.begin (h : NotInterrupted s a) : BeginNotInterrupted s a := by
  cases a with
  | beginWake p => exact h
  | _ => trivial

/-! ## The log as a pool of slots -/

/-- What a process may still add to the log; `none` unless its operation runs. -/
def OpState.budget (o : OpState) : Option ℕ := if o.pc = .running then some o.rm else none

/-- The log seen as a pool that is filled by operations and flushed by commits. -/
def pool (s : LogState P) : Pool P :=
  ⟨s.header.numBlocks, fun p => (s.procs p).budget, s.committing⟩

theorem OpState.budget_of_running {o : OpState} (h : o.pc = .running) : o.budget = some o.rm :=
  if_pos h

theorem OpState.budget_of_ne {o : OpState} (h : o.pc ≠ .running) : o.budget = none := if_neg h

theorem pool_modify (s : LogState P) (p : P) (f : OpState → OpState) :
    pool (s.modify p f) =
      { pool s with budget := Function.update (pool s).budget p (f (s.procs p)).budget } := by
  refine Pool.ext rfl (funext fun q => ?_) rfl
  by_cases hq : q = p
  · subst hq
    simp only [pool, modify_procs_self, Function.update_self]
  · simp only [pool, modify_procs_of_ne s p f hq, Function.update_of_ne hq]

/-- A change that leaves the budget of the process leaves the pool. -/
theorem pool_modify_of_eq {f : OpState → OpState} {p : P}
    (h : (f (s.procs p)).budget = (s.procs p).budget) : pool (s.modify p f) = pool s := by
  rw [pool_modify, h]
  exact Pool.ext rfl (Function.update_eq_self p (pool s).budget) rfl

omit [DecidableEq P] in
theorem pool_wake (s : LogState P) (w : List P) [DecidableEq P] : pool (s.wake w) = pool s := by
  refine Pool.ext rfl (funext fun q => ?_) rfl
  simp only [pool, OpState.budget, wake_pc, wake_rm]

variable [Fintype P]

omit [DecidableEq P] in
theorem mem_running {p : P} : p ∈ (pool s).running ↔ s.pc p = .running := by
  rw [Pool.mem_running]
  simp only [pool, OpState.budget]
  split_ifs with h <;> simp [h]

/-! ## The invariant -/

/-- `log.outstanding` counts the running operations, there are few of them, and
    their reservations fit into the log. -/
structure Iso (s : LogState P) : Prop where
  outstanding : s.outstanding = (pool s).running.card
  few : s.outstanding ≤ logMaxSize
  reserved : (pool s).Inv logMaxSize opMaxNumBlocks

omit [DecidableEq P] in
theorem iso_init : Iso (init : LogState P) where
  outstanding := by simp [Pool.running, pool, init, OpState.budget]
  few := by simp [init]
  reserved := ⟨by simp [pool, init, OpState.budget],
    by simp [Pool.reserved, pool, init, OpState.budget], by simp [pool, init]⟩

omit [DecidableEq P] in
theorem Iso.congr (h : Iso s) (ho : t.outstanding = s.outstanding) (hp : pool t = pool s) :
    Iso t :=
  ⟨by rw [ho, hp]; exact h.outstanding, ho ▸ h.few, hp ▸ h.reserved⟩

omit [DecidableEq P] in
/-- Nobody runs during a commit. -/
theorem Iso.not_running (h : Iso s) (hc : s.committing = true) (p : P) : s.pc p ≠ .running := by
  intro hp
  have := h.reserved.quiet hc p
  rw [show (pool s).budget p = _ from OpState.budget_of_running hp] at this
  cases this

/-- The budget of a process that was not running and does not start to. -/
theorem Iso.move {f : OpState → OpState} {p : P} (h : Iso s) (hp : s.pc p ≠ .running)
    (hf : (f (s.procs p)).pc ≠ .running) : Iso (s.modify p f) :=
  h.congr rfl (pool_modify_of_eq ((OpState.budget_of_ne hf).trans (OpState.budget_of_ne hp).symm))

/-- An operation is admitted. -/
theorem Iso.enter {p : P} (h : Iso s) (hd : DataInv s) (hpc : s.pc p = .beginLock)
    (hw : beginOpWaits s.header s.outstanding s.committing = false) :
    Iso ({ s with outstanding := s.outstanding + 1 }.modify p fun o => { o with pc := .running }) := by
  obtain ⟨hc, hroom⟩ := beginOpWaits_eq_false hw (by rw [h.outstanding]; omega) h.few hd.size
  have hpc' : (s.procs p).pc = .beginLock := hpc
  have hb : (s.procs p).Budget := hd.budget p (by rw [hpc]; decide)
  have hnone : (pool s).budget p = none := OpState.budget_of_ne (by rw [hpc']; decide)
  have hrm : (s.procs p).rm = opMaxNumBlocks := by
    have := hb.spent
    rw [hb.fresh (by rw [hpc']; rfl)] at this
    simpa using this
  have hnot : p ∉ (pool s).running := by
    rw [mem_running, hpc]; decide
  -- the pool of the new state
  have hpool : pool ({ s with outstanding := s.outstanding + 1 }.modify p
      fun o => { o with pc := .running }) =
      { pool s with
        budget := Function.update (pool s).budget p (some opMaxNumBlocks) } := by
    rw [pool_modify, OpState.budget_of_running rfl, ← hrm]
    rfl
  rw [h.outstanding, logMaxSize_eq, opMaxNumBlocks_eq] at hroom
  refine ⟨?_, ?_, ?_⟩
  · rw [hpool, Pool.running_update_some, Finset.card_insert_of_notMem hnot]
    simp only [modify_outstanding, h.outstanding]
    push_cast
    rfl
  · simp only [modify_outstanding, h.outstanding, logMaxSize_eq]
    push_cast
    omega
  · rw [hpool]
    refine Pool.Step.inv (.enter hnone hc ?_) h.reserved
    simp only [pool, logMaxSize_eq, opMaxNumBlocks_eq] at hroom ⊢
    omega

/-- The running operation `p` stops running. -/
theorem Iso.leave {f : OpState → OpState} {p : P} (h : Iso s) (hpc : s.pc p = .running)
    (hf : (f (s.procs p)).pc ≠ .running) :
    Iso ({ s with outstanding := s.outstanding - 1 }.modify p f) := by
  have hmem : p ∈ (pool s).running := mem_running.mpr hpc
  have hpool : pool ({ s with outstanding := s.outstanding - 1 }.modify p f) =
      { pool s with budget := Function.update (pool s).budget p none } := by
    rw [pool_modify, OpState.budget_of_ne hf]
    rfl
  have hcard := Finset.card_erase_of_mem hmem
  have hpos := Finset.card_pos.mpr ⟨p, hmem⟩
  have hfew := h.few
  refine ⟨?_, ?_, ?_⟩
  · rw [hpool, Pool.running_update_none, hcard, modify_outstanding]
    simp only [h.outstanding]
    omega
  · simp only [modify_outstanding]
    omega
  · rw [hpool]
    exact Pool.Step.inv (.leave (OpState.budget_of_running hpc)) h.reserved

/-- The only running operation `p` starts a commit. -/
theorem Iso.close {p : P} (h : Iso s) (hpc : s.pc p = .running) (ho : s.outstanding - 1 ≤ 0) :
    Iso ({ s with outstanding := s.outstanding - 1, committing := true }.modify p
      fun o => { o with pc := .commitLog }) := by
  have hmem : p ∈ (pool s).running := mem_running.mpr hpc
  have hone : (pool s).running = {p} := by
    have hle : (pool s).running.card ≤ 1 := by
      have := h.outstanding
      omega
    exact Finset.eq_singleton_iff_unique_mem.mpr
      ⟨hmem, fun q hq => Finset.card_le_one.mp hle q hq p hmem⟩
  have hl := h.leave (f := fun o => { o with pc := .commitLog }) hpc (by simp)
  have hpool : pool ({ s with outstanding := s.outstanding - 1, committing := true }.modify p
      fun o => { o with pc := .commitLog }) =
      { pool s with
        budget := Function.update (pool s).budget p none, flushing := true } := by
    rw [pool_modify, OpState.budget_of_ne (by simp)]
    rfl
  refine ⟨hl.outstanding, hl.few, ?_⟩
  rw [hpool]
  exact Pool.Step.inv (.close (OpState.budget_of_running hpc) hone) h.reserved

/-- A running operation adds a block to the log. -/
theorem Iso.add {f : OpState → OpState} {p : P} {b : ℕ} {c : ℕ → ℕ} (h : Iso s)
    (hpc : s.pc p = .running) (hrm : 0 < (s.procs p).rm) (hf : (f (s.procs p)).pc = .running)
    (hfrm : (f (s.procs p)).rm = (s.procs p).rm - 1) :
    Iso ({ s with content := c, header := s.header.push b }.modify p f) := by
  have hmem : p ∈ (pool s).running := mem_running.mpr hpc
  have hpool : pool ({ s with content := c, header := s.header.push b }.modify p f) =
      { pool s with
        used := (pool s).used + 1
        budget := Function.update (pool s).budget p (some ((s.procs p).rm - 1)) } := by
    rw [pool_modify, OpState.budget_of_running hf, hfrm]
    rfl
  refine ⟨?_, h.few, ?_⟩
  · have hrun := Pool.running_update_some (pool s) p ((s.procs p).rm - 1)
    rw [Finset.insert_eq_of_mem hmem] at hrun
    rw [hpool]
    exact h.outstanding.trans (congrArg (fun r : Finset P => (r.card : ℤ)) hrun.symm)
  · rw [hpool]
    refine Pool.Step.inv (.take ?_) h.reserved
    rw [show (pool s).budget p = _ from OpState.budget_of_running hpc]
    congr 1
    omega

/-- Every step keeps the invariant, unless it ends an interrupted wait of
    `cache_begin_op`. -/
theorem Iso.effect (h : Iso s) (hd : DataInv s) (hl : LockInv s) (hok : BeginNotInterrupted s a)
    (he : Effect sb s a t) : Iso t := by
  cases he with
  | beginOp hpc => exact h.move (by rw [hpc]; decide) (by simp)
  | beginWaits hpc => exact h.move (by rw [hpc]; decide) (by simp)
  | beginEnters hpc _ hw => exact h.enter hd hpc hw
  | @beginUnit _ sem hpc =>
    have h' : Iso { s with sem := sem } := h.congr rfl rfl
    exact h'.move (by rw [hpc]; decide) (by simp)
  | @beginSleeps _ sem hpc =>
    have h' : Iso { s with sem := sem } := h.congr rfl rfl
    exact h'.move (by rw [hpc]; decide) (by simp)
  | beginWoken hpc => exact h.move (by rw [hpc]; decide) (by simp)
  | beginInterrupted _ hu =>
    rw [show (s.procs _).up = true from hok] at hu
    cases hu
  | syncPanics => exact h.congr rfl rfl
  | syncAbsorbed => exact h.congr rfl (pool_modify_of_eq rfl)
  | syncAdded hpc _ _ hrm => exact h.add hpc hrm hpc rfl
  | endPanics hpc _ hc => exact absurd hpc (h.not_running hc _)
  | @endJoins p hpc =>
    exact (h.leave (f := fun o => { o with pc := .endPost }) hpc (by simp)).congr rfl rfl
  | endCommits hpc _ _ ho => exact h.close hpc ho
  | @endPost _ sem w hpc =>
    have h' : Iso ({ s with sem := sem }.wake w) := h.congr rfl (pool_wake _ w)
    have hw : ({ s with sem := sem }.wake w).pc _ = .endPost := (wake_pc _ _ _).trans hpc
    exact h'.move (by rw [hw]; decide) (by simp)
  | @endUnit _ sem hpc =>
    have h' : Iso { s with sem := sem, lock := none } := h.congr rfl rfl
    exact h'.move (by rw [hpc]; decide) (by simp)
  | @endSleeps _ sem hpc =>
    have h' : Iso { s with sem := sem, lock := none } := h.congr rfl rfl
    exact h'.move (by rw [hpc]; decide) (by simp)
  | endWoken hpc => exact h.move (by rw [hpc]; decide) (by simp)
  | @endInterrupted _ sem hpc =>
    have h' : Iso { s with sem := sem, panic := some .endOpWait } := h.congr rfl rfl
    exact h'.move (by rw [hpc]; decide) (by simp)
  | commitLog hpc =>
    have h' : Iso { s with written := s.written ++ logBlocks sb s.header.numBlocks,
                           diskHeader := s.header } := h.congr rfl rfl
    exact h'.move (by rw [hpc]; decide) (by simp)
  | @commitHome p hpc =>
    have hflush := Pool.Step.inv (.flush (hl.committing p (by rw [hpc]; rfl))) h.reserved
    have h' : Iso { s with
        lock := some p
        home := fun b => if b ∈ s.header.entries then s.content b else s.home b
        header := s.header.clear
        diskHeader := s.header.clear
        committing := false } := ⟨h.outstanding, h.few, hflush⟩
    exact h'.move (by rw [hpc]; decide) (by simp)
  | @commitPost p sem w hpc =>
    have h' : Iso ({ s with sem := sem, lock := none }.wake w) := h.congr rfl (pool_wake _ w)
    have hw : ({ s with sem := sem, lock := none }.wake w).pc p = .commitPost :=
      (wake_pc _ _ _).trans hpc
    exact h'.move (by rw [hw]; decide) (by simp)
  | kill => exact h.congr rfl (pool_modify_of_eq rfl)

theorem Run.iso (h : Run (step sb) BeginNotInterrupted init s) : Inv s ∧ Iso s :=
  h.invariant (I := fun s => Inv s ∧ Iso s) ⟨inv_init, iso_init⟩ fun _ _ _ hi hok hs =>
    ⟨hi.1.step hs, hi.2.effect hi.1.data hi.1.lock hok (step_effect hi.1.sem hs).2⟩

/-! ## Commit isolation -/

/-- When no wait of `cache_begin_op` is interrupted, `log.outstanding` is the
    number of processes between the return of `cache_begin_op` and the entry of
    `cache_end_op`, and there is none during a commit. -/
theorem commit_isolation (h : Run (step sb) BeginNotInterrupted init s) :
    s.outstanding = (Finset.univ.filter fun p => s.pc p = .running).card ∧ 0 ≤ s.outstanding ∧
      (s.committing = true → ∀ p, s.pc p ≠ .running) := by
  obtain ⟨-, hi⟩ := Run.iso h
  have hrun : (pool s).running = Finset.univ.filter fun p => s.pc p = .running := by
    ext p
    rw [mem_running, Finset.mem_filter]
    simp
  refine ⟨hrun ▸ hi.outstanding, ?_, hi.not_running⟩
  rw [hi.outstanding]
  omega

/-- An interrupted wait lets its process run uncounted, and during a commit: process 1 is
    killed while it waits for the commit of process 0. -/
theorem commit_isolation_fails :
    ¬ ∀ s, Run (step mockSuperBlock) anyStep (init : LogState (Fin 2)) s →
      s.outstanding = (Finset.univ.filter fun p => s.pc p = .running).card ∧ 0 ≤ s.outstanding ∧
        (s.committing = true → ∀ p, s.pc p ≠ .running) := by
  intro h
  have hrun : ((exec (step mockSuperBlock) (init : LogState (Fin 2))
      [.beginOp 0, .beginLock 0, .endOp 0, .beginOp 1, .beginLock 1, .beginWait 1, .kill 1,
        .beginWake 1]).map fun s => (s.committing, s.pc 1)) = some (true, .running) := by decide
  obtain ⟨s, hs, hx⟩ := Option.map_eq_some_iff.mp hrun
  have hc := congrArg Prod.fst hx
  have hp := congrArg Prod.snd hx
  exact (h s (Run.of_exec hs)).2.2 hc 1 hp

/-- Process 1 waits for the commit of process 0 and is then admitted. -/
theorem commit_isolation_handover : ∃ s, Run (step mockSuperBlock) BeginNotInterrupted init s ∧
    s.outstanding = 1 ∧
    (s.outstanding = (Finset.univ.filter fun p : Fin 2 => s.pc p = .running).card ∧
      0 ≤ s.outstanding ∧ (s.committing = true → ∀ p, s.pc p ≠ .running)) := by
  have hrun : ((execIf (step mockSuperBlock) BeginNotInterrupted (init : LogState (Fin 2))
      [.beginOp 0, .beginLock 0, .sync 0 100, .endOp 0, .beginOp 1, .beginLock 1, .beginWait 1,
        .commitLog 0, .commitHome 0, .commitPost 0, .beginWake 1, .beginLock 1]).map fun s =>
      s.outstanding) = some 1 := by decide
  obtain ⟨s, hs, hx⟩ := Run.of_execIf_map hrun
  exact ⟨s, hs, hx, commit_isolation hs⟩

/-! ## Log reservation -/

omit [DecidableEq P] in
theorem reserved_pool (s : LogState P) :
    (pool s).reserved = ∑ p with s.pc p = .running, (s.procs p).rm := by
  rw [Pool.reserved, Finset.sum_filter]
  refine Finset.sum_congr rfl fun p _ => ?_
  simp only [pool, OpState.budget]
  split_ifs <;> rfl

omit [DecidableEq P] in
/-- A running operation with budget left finds room in the log. -/
theorem Iso.room {p : P} (h : Iso s) (hpc : s.pc p = .running) (hrm : 0 < (s.procs p).rm) :
    s.header.numBlocks < logMaxSize := by
  have hle : (s.procs p).rm ≤ (pool s).reserved := by
    rw [reserved_pool]
    exact Finset.single_le_sum (f := fun p => (s.procs p).rm) (fun _ _ => Nat.zero_le _)
      (Finset.mem_filter.mpr ⟨Finset.mem_univ p, hpc⟩)
  have hroom : s.header.numBlocks + (pool s).reserved ≤ logMaxSize := h.reserved.room
  omega

omit [DecidableEq P] in
/-- The only way in which a sync stops: a new block without budget. -/
theorem Iso.sync_panic {p : P} {b : ℕ} {e : Panic} (h : Iso s) (hd : DataInv s)
    (hpc : s.pc p = .running) (he : logAppend s.header (s.procs p).rm b = .error e) :
    e = .opBlocks ∧ b ∉ s.header.entries ∧ (s.procs p).added.length = opMaxNumBlocks := by
  rcases logAppend_cases s.header (s.procs p).rm b with ⟨-, hr⟩ | ⟨hb, hrm, hr⟩ |
    ⟨-, hrm, hn, -⟩ | ⟨-, -, -, hr⟩
  · rw [hr] at he; cases he
  · rw [hr] at he
    cases he
    have := (hd.budget p (by rw [hpc]; decide)).spent
    exact ⟨rfl, hb, by omega⟩
  · have := h.room hpc hrm
    omega
  · rw [hr] at he; cases he

/-- The log never fills up. -/
theorem Run.not_logFull (h : Run (step sb) BeginNotInterrupted init s) :
    s.panic ≠ some .logFull := by
  induction h with
  | refl => exact nofun
  | @tail t u a hr hok hs ih =>
    obtain ⟨hi, hiso⟩ := Run.iso hr
    have he := (step_effect hi.sem hs).2
    cases he with
    | syncPanics hpc _ hp =>
      obtain ⟨rfl, -⟩ := hiso.sync_panic hi.data hpc hp
      exact nofun
    | endPanics => exact nofun
    | endInterrupted => exact nofun
    | _ => exact ih

/-- When no wait is interrupted, the blocks in the log and the budgets of the
    running operations fit into `LOG_MAX_SIZE`: the log is never found full, it
    lists no block twice, and a sync stops only an operation that has already
    added `OP_MAX_NUM_BLOCKS` blocks and comes with a new one. -/
theorem log_reservation (h : Run (step sb) NotInterrupted init s) :
    s.header.numBlocks + ∑ p with s.pc p = .running, (s.procs p).rm ≤ logMaxSize ∧
      s.panic ≠ some .logFull ∧ s.header.entries.Nodup ∧
      ∀ p b t e, step sb s (.sync p b) = some t → t.panic = some e →
        e = .opBlocks ∧ b ∉ s.header.entries ∧ (s.procs p).added.length = opMaxNumBlocks := by
  have h' := h.mono fun _ _ => NotInterrupted.begin
  obtain ⟨hi, hiso⟩ := Run.iso h'
  refine ⟨?_, Run.not_logFull h', hi.data.nodup, fun p b t e hs hp => ?_⟩
  · rw [← reserved_pool]
    exact hiso.reserved.room
  · obtain ⟨hn, he⟩ := step_effect hi.sem hs
    cases he with
    | syncPanics hpc _ hl =>
      cases hp
      exact hiso.sync_panic hi.data hpc hl
    | syncAbsorbed => exact absurd (hn.symm.trans hp) nofun
    | syncAdded => exact absurd (hn.symm.trans hp) nofun

/-- Two overlapping operations, the second of which rides on a block of the first. -/
theorem log_reservation_absorption :
    ∃ s, Run (step mockSuperBlock) NotInterrupted (init : LogState (Fin 2)) s ∧
      s.header.entries = [100, 101] ∧
      (s.header.numBlocks + ∑ p with s.pc p = .running, (s.procs p).rm ≤ logMaxSize ∧
        s.panic ≠ some .logFull ∧ s.header.entries.Nodup ∧
        ∀ p b t e, step mockSuperBlock s (.sync p b) = some t → t.panic = some e →
          e = .opBlocks ∧ b ∉ s.header.entries ∧
            (s.procs p).added.length = opMaxNumBlocks) := by
  have hrun : ((execIf (step mockSuperBlock) NotInterrupted (init : LogState (Fin 2))
      [.beginOp 0, .beginLock 0, .beginOp 1, .beginLock 1, .sync 0 100, .sync 1 100,
        .sync 1 101]).map fun s => s.header.entries) = some [100, 101] := by decide
  obtain ⟨s, hs, hx⟩ := Run.of_execIf_map hrun
  exact ⟨s, hs, hx, log_reservation hs⟩

end ShikiOS.Fs.Log
