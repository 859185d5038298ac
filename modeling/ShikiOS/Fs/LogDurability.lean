import ShikiOS.Fs.LogInvariant

/-!
# When `cache_end_op` returns (`fs/cache.c`)

`cache_end_op` "sleeps until all associated blocks are written to disk"
(cache.h:185). The processes that wait for a commit and those that wait for room
in the log share the semaphore `log.sem`, and an operation that is not the last
one posts it (line 340) right before it waits on it (line 343). With no sleeper
it takes its own unit back and returns before any commit; with a sleeper of
`cache_end_op` at the front it wakes that one.

Results:
* `end_op_durable`: when only commits release the waiters of `cache_end_op`, a
  block synced by an operation is on the device once its `cache_end_op` returns.
* `end_op_not_durable`: in general it is not.
-/

namespace ShikiOS.Fs.Log

open ShikiOS.Lib

variable {P : Type*} {sb : SuperBlock} {s t : LogState P} {a : Act P}

/-- The post of `cache_end_op` wakes no process that waits in `cache_end_op`, and
    its wait finds no unit. -/
def ReleasedByCommit (s : LogState P) : Act P → Prop
  | .endPost _ => ∀ q ∈ s.sem.sleeplist.head?, s.pc q ≠ .endSleep
  | .endWait _ => s.sem.val ≤ 0
  | _ => True

instance (s : LogState P) : ∀ a : Act P, Decidable (ReleasedByCommit s a)
  | .endPost _ => inferInstanceAs (Decidable (∀ q ∈ s.sem.sleeplist.head?, s.pc q ≠ .endSleep))
  | .endWait _ => inferInstanceAs (Decidable (s.sem.val ≤ 0))
  | .beginOp _ | .beginLock _ | .beginWait _ | .beginWake _ | .sync _ _ | .endOp _
  | .endWake _ | .commitLog _ | .commitHome _ | .commitPost _ | .kill _ => inferInstanceAs (Decidable True)

/-- The process has left `cache_end_op`, or has been woken to do so. -/
def OpState.Done (o : OpState) : Prop := o.pc = .idle ∨ o.pc = .endSleep ∧ o.up = true

/-- Every version that a process synced is on the device or in the log, and on
    the device if the process is done. -/
structure Durable (s : LogState P) : Prop where
  pending : ∀ p b v, (b, v) ∈ (s.procs p).synced →
    v ≤ s.home b ∨ (b ∈ s.header.entries ∧ v ≤ s.content b)
  done : ∀ p, (s.procs p).Done → ∀ b v, (b, v) ∈ (s.procs p).synced → v ≤ s.home b

theorem durable_init : Durable (init : LogState P) := ⟨by simp [init], by simp [init]⟩

theorem Durable.congr (h : Durable s) (hp : t.procs = s.procs) (hh : t.header = s.header)
    (hc : t.content = s.content) (hm : t.home = s.home) : Durable t := by
  constructor
  · rw [hp, hh, hc, hm]; exact h.pending
  · rw [hp, hm]; exact h.done

variable [DecidableEq P]

/-- A process that keeps its synced versions, and is not done unless it was. -/
theorem Durable.modify {f : OpState → OpState} {p : P} (h : Durable s)
    (hs : (f (s.procs p)).synced = (s.procs p).synced)
    (hd : (f (s.procs p)).Done → (s.procs p).Done) : Durable (s.modify p f) := by
  constructor
  · intro q b v hq
    by_cases hqp : q = p
    · subst hqp
      rw [modify_procs_self, hs] at hq
      exact h.pending q b v hq
    · rw [modify_procs_of_ne s p f hqp] at hq
      exact h.pending q b v hq
  · intro q hq b v hm
    by_cases hqp : q = p
    · subst hqp
      rw [modify_procs_self] at hq hm
      exact h.done q (hd hq) b v (hs ▸ hm)
    · rw [modify_procs_of_ne s p f hqp] at hq hm
      exact h.done q hq b v hm

/-- A process is released while the log is empty. -/
theorem Durable.finish {f : OpState → OpState} {p : P} (h : Durable s)
    (he : s.header.numBlocks = 0) (hs : (f (s.procs p)).synced = (s.procs p).synced) :
    Durable (s.modify p f) := by
  have hnil : s.header.entries = [] := List.eq_nil_of_length_eq_zero (by simpa using he)
  have hall : ∀ q b v, (b, v) ∈ (s.procs q).synced → v ≤ s.home b := by
    intro q b v hq
    rcases h.pending q b v hq with hv | ⟨hb, -⟩
    · exact hv
    · rw [hnil] at hb; cases hb
  have hsame : ∀ q, ((s.modify p f).procs q).synced = (s.procs q).synced := by
    intro q
    by_cases hqp : q = p
    · subst hqp; rw [modify_procs_self, hs]
    · rw [modify_procs_of_ne s p f hqp]
  exact ⟨fun q b v hq => .inl (hall q b v (hsame q ▸ hq)),
    fun q _ b v hq => hall q b v (hsame q ▸ hq)⟩

omit [DecidableEq P] in
/-- A wake-up of processes that do not wait in `cache_end_op`. -/
theorem Durable.wake {w : List P} [DecidableEq P] (h : Durable s)
    (hw : ∀ q ∈ w, s.pc q ≠ .endSleep) : Durable (s.wake w) := by
  constructor
  · intro q b v hq
    rw [wake_synced] at hq
    exact h.pending q b v hq
  · intro q hq b v hm
    rw [wake_synced] at hm
    refine h.done q ?_ b v hm
    rcases hq with hq | ⟨hq, hu⟩
    · rw [wake_pc] at hq; exact .inl hq
    · rw [wake_pc] at hq
      rw [wake_procs, if_neg fun hmem => hw q hmem hq] at hu
      exact .inr ⟨hq, hu⟩

/-- A wake-up of anybody while the log is empty. -/
theorem Durable.wake_of_empty (h : Durable s) (he : s.header.numBlocks = 0) (w : List P) :
    Durable (s.wake w) := by
  have hnil : s.header.entries = [] := List.eq_nil_of_length_eq_zero (by simpa using he)
  have hall : ∀ q b v, (b, v) ∈ ((s.wake w).procs q).synced → v ≤ s.home b := by
    intro q b v hq
    rw [wake_synced] at hq
    rcases h.pending q b v hq with hv | ⟨hb, -⟩
    · exact hv
    · rw [hnil] at hb; cases hb
  exact ⟨fun q b v hq => .inl (hall q b v hq), fun q _ => hall q⟩

/-- Process `p` syncs block `b`, which is in the log afterwards. -/
theorem Durable.sync {f : OpState → OpState} {p : P} {b : ℕ} {header : LogHeader}
    (h : Durable s) (hpc : s.pc p = .running) (hb : b ∈ header.entries)
    (hsub : ∀ c ∈ s.header.entries, c ∈ header.entries)
    (hf : (f (s.procs p)).pc = (s.procs p).pc)
    (hs : (f (s.procs p)).synced = (b, s.content b + 1) :: (s.procs p).synced) :
    Durable ({ s with content := Function.update s.content b (s.content b + 1),
                      header := header }.modify p f) := by
  have hle : ∀ c, s.content c ≤ Function.update s.content b (s.content b + 1) c := by
    intro c
    by_cases hc : c = b
    · subst hc; rw [Function.update_self]; omega
    · rw [Function.update_of_ne hc]
  have hold : ∀ c v, (v ≤ s.home c ∨ (c ∈ s.header.entries ∧ v ≤ s.content c)) →
      v ≤ s.home c ∨ (c ∈ header.entries ∧ v ≤ Function.update s.content b (s.content b + 1) c) := by
    rintro c v (hv | ⟨hc, hv⟩)
    · exact .inl hv
    · exact .inr ⟨hsub c hc, hv.trans (hle c)⟩
  constructor
  · intro q c v hq
    by_cases hqp : q = p
    · subst hqp
      rw [modify_procs_self] at hq
      rcases List.mem_cons.mp (hs ▸ hq) with hq | hq
      · cases hq
        exact .inr ⟨hb, by rw [modify_content]; simp⟩
      · exact hold c v (h.pending q c v hq)
    · rw [modify_procs_of_ne _ p f hqp] at hq
      exact hold c v (h.pending q c v hq)
  · intro q hq c v hm
    by_cases hqp : q = p
    · subst hqp
      rw [modify_procs_self] at hq
      rcases hq with hq | ⟨hq, -⟩ <;>
      · rw [show (f (s.procs q)).pc = .running from hf.trans hpc] at hq
        cases hq
    · rw [modify_procs_of_ne _ p f hqp] at hq hm
      exact h.done q hq c v hm

omit [DecidableEq P] in
/-- A commit brings every block of the header home. -/
theorem Durable.checkpoint (h : Durable s) (hd : DataInv s) {header : LogHeader} :
    Durable { s with
      home := fun b => if b ∈ s.header.entries then s.content b else s.home b
      header := header } := by
  have hhome : ∀ b v, (v ≤ s.home b ∨ (b ∈ s.header.entries ∧ v ≤ s.content b)) →
      v ≤ if b ∈ s.header.entries then s.content b else s.home b := by
    rintro b v (hv | ⟨hb, hv⟩)
    · split_ifs
      · exact hv.trans (hd.home b)
      · exact hv
    · rw [if_pos hb]; exact hv
  exact ⟨fun p b v hm => .inl (hhome b v (h.pending p b v hm)),
    fun p _ b v hm => hhome b v (h.pending p b v hm)⟩

/-- Every step keeps the invariant, as long as only commits release the waiters
    of `cache_end_op`. -/
theorem Durable.effect (h : Durable s) (hi : Inv s) (hok : ReleasedByCommit s a)
    (he : Effect sb s a t) : Durable t := by
  cases he with
  | @beginOp p hpc =>
    constructor
    · intro q b v hq
      by_cases hqp : q = p
      · subst hqp; simp at hq
      · rw [modify_procs_of_ne _ p _ hqp] at hq
        exact h.pending q b v hq
    · intro q hq b v hm
      by_cases hqp : q = p
      · subst hqp; simp at hm
      · rw [modify_procs_of_ne _ p _ hqp] at hq hm
        exact h.done q hq b v hm
  | beginWaits => exact h.modify rfl (by simp [OpState.Done])
  | beginEnters =>
    have h' : Durable { s with outstanding := s.outstanding + 1 } := h.congr rfl rfl rfl rfl
    exact h'.modify rfl (by simp [OpState.Done])
  | @beginUnit _ sem =>
    have h' : Durable { s with sem := sem } := h.congr rfl rfl rfl rfl
    exact h'.modify rfl (by simp [OpState.Done])
  | @beginSleeps _ sem =>
    have h' : Durable { s with sem := sem } := h.congr rfl rfl rfl rfl
    exact h'.modify rfl (by simp [OpState.Done])
  | beginWoken => exact h.modify rfl (by simp [OpState.Done])
  | @beginInterrupted _ sem =>
    have h' : Durable { s with sem := sem } := h.congr rfl rfl rfl rfl
    exact h'.modify rfl (by simp [OpState.Done])
  | @syncPanics p b e =>
    refine ⟨fun q c v hq => ?_, h.done⟩
    rcases h.pending q c v hq with hv | ⟨hc, hv⟩
    · exact .inl hv
    · refine .inr ⟨hc, hv.trans ?_⟩
      by_cases hcb : c = b
      · subst hcb; simp
      · simp [hcb]
  | @syncAbsorbed p b hpc _ hb => exact h.sync hpc hb (fun _ hc => hc) rfl rfl
  | @syncAdded p b hpc => exact h.sync hpc (by simp) (fun c hc => by simp [hc]) rfl rfl
  | endPanics =>
    have h' : Durable { s with outstanding := s.outstanding - 1, panic := some .committing } :=
      h.congr rfl rfl rfl rfl
    exact h'.modify rfl (by simp [OpState.Done])
  | @endJoins p =>
    have h' : Durable { s with outstanding := s.outstanding - 1, lock := some p } :=
      h.congr rfl rfl rfl rfl
    exact h'.modify rfl (by simp [OpState.Done])
  | endCommits =>
    have h' : Durable { s with outstanding := s.outstanding - 1, committing := true } :=
      h.congr rfl rfl rfl rfl
    exact h'.modify rfl (by simp [OpState.Done])
  | @endPost p sem w hpc hpost =>
    have h' : Durable { s with sem := sem } := h.congr rfl rfl rfl rfl
    -- the post wakes at most the first sleeper
    have hw : ∀ q ∈ w, q ∈ s.sem.sleeplist.head? := by
      rcases hi.sem.ok.post_cases with ⟨q, rest, hl, -, hp⟩ | ⟨-, -, hp⟩ <;>
        rw [hp] at hpost <;> cases hpost
      · simp [hl]
      · simp
    exact (h'.wake fun q hq => hok q (hw q hq)).modify rfl (by simp [OpState.Done])
  | @endUnit p sem hpc hd =>
    -- a unit for this wait would have to be there already
    have hval : s.sem.val ≤ 0 := hok
    rw [Sem.down, if_neg (by omega)] at hd
    cases hd
  | @endSleeps _ sem =>
    have h' : Durable { s with sem := sem, lock := none } := h.congr rfl rfl rfl rfl
    exact h'.modify rfl (by simp [OpState.Done])
  | endWoken hpc hu => exact h.modify rfl fun _ => .inr ⟨hpc, hu⟩
  | @endInterrupted _ sem =>
    have h' : Durable { s with sem := sem, panic := some .endOpWait } := h.congr rfl rfl rfl rfl
    exact h'.modify rfl (by simp [OpState.Done])
  | commitLog =>
    have h' : Durable { s with written := s.written ++ logBlocks sb s.header.numBlocks,
                               diskHeader := s.header } := h.congr rfl rfl rfl rfl
    exact h'.modify rfl (by simp [OpState.Done])
  | @commitHome p =>
    have h' : Durable { s with
        lock := some p
        home := fun b => if b ∈ s.header.entries then s.content b else s.home b
        header := s.header.clear
        diskHeader := s.header.clear
        committing := false } := (h.checkpoint hi.data).congr rfl rfl rfl rfl
    exact h'.modify rfl (by simp [OpState.Done])
  | @commitPost p sem w hpc =>
    have hempty := hi.lock.flushed p hpc
    have h' : Durable { s with sem := sem, lock := none } := h.congr rfl rfl rfl rfl
    exact (h'.wake_of_empty hempty w).finish hempty rfl
  | kill => exact h.modify rfl id

/-- When only commits release the waiters of `cache_end_op`, every version that
    an operation synced is on the device once its `cache_end_op` has returned. -/
theorem end_op_durable (h : Run (step sb) ReleasedByCommit init s) (p : P) (hp : s.pc p = .idle) :
    ∀ b v, (b, v) ∈ (s.procs p).synced → v ≤ s.home b := by
  have hI : Inv s ∧ Durable s :=
    h.invariant (I := fun s => Inv s ∧ Durable s) ⟨inv_init, durable_init⟩ fun _ _ _ hi hok hs =>
      ⟨hi.1.step hs, hi.2.effect hi.1 hok (step_effect hi.1.sem hs).2⟩
  exact hI.2.done p (.inl hp)

/-- Process 0 syncs block 5 and ends while process 1 still runs: it returns with
    the unit that it posted itself. -/
theorem end_op_not_durable :
    ¬ ∀ s : LogState (Fin 2), Run (step mockSuperBlock) anyStep init s → ∀ p, s.pc p = .idle →
      ∀ b v, (b, v) ∈ (s.procs p).synced → v ≤ s.home b := by
  intro h
  have hrun : ((exec (step mockSuperBlock) (init : LogState (Fin 2))
      [.beginOp 0, .beginLock 0, .beginOp 1, .beginLock 1, .sync 0 5, .endOp 0, .endPost 0,
        .endWait 0]).map fun s => (s.pc 0, (s.procs 0).synced, s.home 5)) =
      some (.idle, [(5, 1)], 0) := by decide
  obtain ⟨s, hs, hx⟩ := Option.map_eq_some_iff.mp hrun
  simp only [Prod.mk.injEq] at hx
  obtain ⟨hpc, hsync, hhome⟩ := hx
  have := h s (Run.of_exec hs) 0 hpc 5 1 (by rw [hsync]; simp)
  omega

/-- Processes 0, 1 and 2 fill the log so far that 3 and 4 have to wait. Each of
    0 and 1 wakes one of these and sleeps until process 2 commits for all. -/
def joinedOperations : List (Act (Fin 5)) :=
  [[.beginOp 0, .beginLock 0, .beginOp 1, .beginLock 1, .beginOp 2, .beginLock 2],
    (List.range 8).map fun i => Act.sync 0 (5 + i),
    (List.range 8).map fun i => Act.sync 1 (20 + i),
    (List.range 8).map fun i => Act.sync 2 (30 + i),
    [.beginOp 3, .beginLock 3, .beginWait 3, .beginOp 4, .beginLock 4, .beginWait 4],
    [.endOp 0, .endPost 0, .endWait 0, .endOp 1, .endPost 1, .endWait 1],
    [.endOp 2, .commitLog 2, .commitHome 2, .commitPost 2, .endWake 0]].flatten

theorem end_op_durable_joined : ∃ s : LogState (Fin 5),
    Run (step mockSuperBlock) ReleasedByCommit init s ∧ (5, 1) ∈ (s.procs 0).synced ∧
      ∀ b v, (b, v) ∈ (s.procs 0).synced → v ≤ s.home b := by
  have hrun : ((execIf (step mockSuperBlock) ReleasedByCommit init joinedOperations).map
      fun s => (s.pc 0, decide ((5, 1) ∈ (s.procs 0).synced))) = some (.idle, true) := by
    decide +kernel
  obtain ⟨s, hs, hx⟩ := Run.of_execIf_map hrun
  simp only [Prod.mk.injEq, decide_eq_true_eq] at hx
  exact ⟨s, hs, hx.2, end_op_durable hs 0 hx.1⟩

end ShikiOS.Fs.Log
