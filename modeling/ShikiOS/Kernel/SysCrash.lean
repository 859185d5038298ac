import ShikiOS.Kernel.SysJournal
import ShikiOS.Kernel.SysRun

/-!
# Crashes in system calls (`kernel/sysfile.c`, `kernel/exec.c`, `fs/cache.c`)

A system call that works on a path changes the file system as a whole or not at all: if the machine
stops at any write of a run of such calls, then `init_bcache` leaves the device, outside the log, as
it was before or after the call that was running. `write` is cut off between two operations.

Results:
* `Idle.run`: between two calls no operation is running.
* `Idle.during`: every moment of a run lies in a call.
* `system_calls_crash_atomic`, `calls_crash_between_operations`: what a crash leaves.
-/

namespace ShikiOS.Kernel.Calls

open ShikiOS.Lib Fs Fs.Bcache Fs.Inodes

/-- How many operations a call runs at most. -/
def Syscall.ops : Syscall → ℕ∞
  | .write _ buffer _ => writeOps buffer.length
  | .writev _ iov _ => writevOps iov
  | .munmap .. | .exit .. => ⊤
  | _ => 1

/-- The calls that run at most one operation. -/
def Syscall.OneOp : Syscall → Prop
  | .write _ buffer _ => writeOps buffer.length ≤ 1
  | .writev _ iov _ => writevOps iov ≤ 1
  | .munmap .. | .exit .. => False
  | _ => True

/-- Every call but `exit`. -/
def Syscall.NotExit : Syscall → Prop
  | .exit .. => False
  | _ => True

instance : DecidablePred Syscall.OneOp := fun c => by
  cases c <;> unfold Syscall.OneOp <;> infer_instance

instance : DecidablePred Syscall.NotExit := fun c => by
  cases c <;> unfold Syscall.NotExit <;> infer_instance

/-- The calls of a run, as a condition on its steps. -/
abbrev oneOp (_ : Sys) (a : ℕ × Syscall) : Prop := a.2.OneOp
abbrev notExit (_ : Sys) (a : ℕ × Syscall) : Prop := a.2.NotExit

variable {sb : SuperBlock} {B : Base} {k : ℕ∞} {s s₀ t : Sys} {a : ℕ × Syscall}
  {ok : Sys → ℕ × Syscall → Prop}

theorem Syscall.OneOp.ops_le {c : Syscall} (hc : c.OneOp) : c.ops ≤ 1 := by
  cases c with
  | write fd buffer r => exact Nat.cast_le_one.mpr hc
  | writev fd iov r => exact Nat.cast_le_one.mpr hc
  | munmap addr length mem => exact hc.elim
  | exit mem => exact hc.elim
  | _ => exact le_rfl

theorem Syscall.OneOp.notExit {c : Syscall} (hc : c.OneOp) : c.NotExit := by
  cases c with
  | exit mem => exact hc
  | _ => trivial

theorem log_run {c : Syscall} (hc : c.NotExit) :
    Triple (Logging B none k none) (c.run B.sb) fun _ => Logging B none (k + c.ops) none := by
  have hnone : ∀ {x : SysM ℤ}, Logs B none k none x →
      Triple (Logging B none k none) x fun _ => Logging B none (k + 1) none :=
    fun h => h.imp fun _ _ ht => ht.mono le_self_add
  cases c with
  | openat dirfd path omode => exact log_openat
  | mkdirat dirfd path mode => exact log_mkdirat
  | mknodat dirfd path dev => exact log_mknodat
  | newfstatat dirfd path w flags => exact log_newfstatat
  | unlinkat fd path flag => exact log_unlinkat
  | chdir path => exact log_chdir
  | execve path => exact log_execve
  | dup fd => exact hnone logs_dup
  | close fd => exact log_close
  | fstat fd w => exact hnone logs_fstat
  | read fd size w => exact hnone logs_readCall
  | write fd buffer r => exact log_write
  | writev fd iov r => exact log_writev
  | mmap addr length prot flags fd offset => exact hnone logs_mmap
  | munmap addr length mem =>
    have hall : Logs B none ⊤ none (munmap B.sb addr length mem) := logs_munmap
    refine (hall.pre fun _ hs => hs.mono le_top).imp fun _ t ht => ?_
    show Logging B none (k + ⊤) none t
    rw [add_top]
    exact ht
  | pageFault addr => exact hnone logs_pageFault
  | fork => exact hnone logs_fork
  | exit mem => exact hc.elim

/-- Every call but `exit`, and `exit` if nobody tracks the writes. -/
theorem logs_run {c : Syscall} (ht : ¬ B.track) : Logs B none ⊤ none (c.run B.sb) := by
  by_cases hc : c.NotExit
  · exact logs_of_log (log_run hc)
  · cases c with
    | exit mem => exact logs_exit ht
    | _ => exact absurd trivial hc

/-! ## Between two calls -/

/-- No operation is running, and the log is empty. -/
def Idle (sb : SuperBlock) (s : Sys) : Prop :=
  ∃ B : Base, B.sb = sb ∧ ¬ B.track ∧ Logging B none ⊤ none s

/-- A call that does not stop the kernel returns. -/
theorem run_of_next (h : next sb s a = some t) (hn : t.halted = none) :
    ∃ r, a.2.run sb { s with cur := a.1 } = .ok r t := by
  unfold next at h
  split_ifs at h
  split at h
  · next r u hr => exact ⟨r, by rw [hr, Option.some.inj h]⟩
  · cases h
    cases hn

theorem Idle.step (h : Idle sb s) (hstep : next sb s a = some t) (hn : t.halted = none) : Idle sb t := by
  obtain ⟨B, rfl, ht, hl⟩ := h
  obtain ⟨r, hr⟩ := run_of_next hstep hn
  have hstart : Logging B none ⊤ none { s with cur := a.1 } := hl.same rfl rfl
  exact ⟨B, rfl, ht, (logs_run ht).of_ok hstart hr⟩

theorem Idle.boot (hlog : opMaxNumBlocks + 1 ≤ sb.numLogBlocks) (h : Booted sb s) :
    Idle sb s ∧ s.halted = none := by
  obtain ⟨disk, input, h⟩ := h
  have hpos : 0 < sb.numLogBlocks := by omega
  have hinit : Triple (fun u => u = bootSys disk input) (fsCall .stop (cache (initBcache sb)))
      fun _ => Idle sb := by
    rintro _ rfl
    unfold fsCall
    rw [wlp, wp_zoom, wp_adaptExcept, wp_cache]
    refine wp_mono (wp_initBcache disk hpos) (fun _ c hc => ?_) fun _ _ _ => trivial
    refine ⟨⟨sb, False, c.writes, c.disk⟩, rfl, not_false, (Booted.journal hc.1).mono bot_le, hlog,
      fun f _ => ?_, fun f hf => by cases hf⟩
    show File.zero.type ≠ .inode
    decide
  have hroot : ∀ B : Base, Logs B none ⊤ none (initInodes B.sb) := by
    intro B
    unfold initInodes
    exact .ite (logs_getInode.seq fun root => logs_modify (fun _ => rfl) fun _ => rfl) logs_pure
  have hall : Triple (fun u => u = bootSys disk input) (kernelInit sb) fun _ => Idle sb := by
    unfold kernelInit
    refine hinit.seq fun _ u hu => ?_
    obtain ⟨B, rfl, ht, hl⟩ := hu
    refine Triple.imp (P := Logging B none ⊤ none) (Q := fun _ => Logging B none ⊤ none) ?_
      (fun _ v hv => ⟨B, rfl, ht, hv⟩) u hl
    refine (hroot B).seq fun _ => logs_get fun s => ?_
    split
    · exact .throw
    · refine logs_share.seq fun cwd => logs_modifyProc.seq fun _ => ?_
      exact logs_modify (fun _ => rfl) fun _ => rfl
  have hset := (@Settled.boot ⟨sb, False, [], False, 0, fun hf => hf.elim⟩ disk input fun hf => hf.elim).of_ok h
  exact ⟨hall.of_ok rfl h, hset.1⟩

theorem Idle.run (h : Idle sb s₀) (hrun : Run (next sb) ok s₀ s) (hn : s.halted = none) : Idle sb s := by
  have hinv := hrun.invariant (I := fun s => s.halted = none → Idle sb s) (fun _ => h)
    fun t a u ht _ hstep hu => (ht (halted_of_next hstep)).step hstep hu
  exact hinv hn

/-- A stretch of calls whose writes are tracked may begin. -/
theorem Idle.base (h : Idle sb s) :
    Logging ⟨sb, True, s.fs.cache.writes, s.fs.cache.disk⟩ none 0 none s := by
  obtain ⟨B, rfl, -, hl⟩ := h
  exact ⟨hl.journal.rebase, hl.fits, hl.unused, hl.own⟩

/-- What is on the device between two calls is what recovery leaves. -/
theorem Idle.recovers (h : Idle sb s) (hp : Proper sb s.fs.cache.writes) :
    RecoversTo sb s.fs.cache.disk s.fs.cache.disk s.fs.cache.disk := by
  have hb := h.base
  obtain ⟨-, -, -, hrec, -⟩ := hb.journal.committed trivial (pos_of_fits hb.fits) hp
  exact hrec

/-! ## Crashes -/

/-- The run from `s` to `t` was in the call from `u` to `v`, or between two calls, when the device
    had taken `k` writes. The call runs at most `n` operations. -/
structure During (sb : SuperBlock) (ok : Sys → ℕ × Syscall → Prop) (s t : Sys) (k : ℕ) (n : ℕ∞)
    (u v : Sys) : Prop where
  before : Run (next sb) ok s u
  call : v = u ∧ n = 0 ∨ ∃ a, ok u a ∧ next sb u a = some v ∧ n = a.2.ops
  after : Run (next sb) ok v t
  le : u.fs.cache.writes.length ≤ s.fs.cache.writes.length + k
  ge : s.fs.cache.writes.length + k ≤ v.fs.cache.writes.length

/-- From `s` to `t` the device has taken `ws`, the writes of at most `n` commits. -/
structure Commits (sb : SuperBlock) (n : ℕ∞) (s t : Sys) (ws : List Write) : Prop where
  writes : t.fs.cache.writes = s.fs.cache.writes ++ ws
  disk : t.fs.cache.disk = RedoLog.applyWrites s.fs.cache.disk (ws.map Write.pair)
  chain : ∃ j : ℕ, j ≤ n ∧ ∃ m, Chain sb s.fs.cache.disk j (ws.map Write.pair) m ∧
    SameHome sb m t.fs.cache.disk

/-- One call. -/
theorem Idle.commits (h : Idle sb s) (hc : a.2.NotExit) (hstep : next sb s a = some t)
    (hn : t.halted = none) (hp : Proper sb t.fs.cache.writes) : ∃ ws, Commits sb a.2.ops s t ws := by
  obtain ⟨r, hr⟩ := run_of_next hstep hn
  have hb := h.base
  have hstart : Logging ⟨sb, True, s.fs.cache.writes, s.fs.cache.disk⟩ none 0 none { s with cur := a.1 } :=
    hb.same rfl rfl
  have ht := (log_run hc).of_ok hstart hr
  obtain ⟨ws, hws, hdisk, -, n, hn, hm⟩ := ht.journal.committed trivial (pos_of_fits hb.fits) hp
  rw [zero_add] at hn
  exact ⟨ws, hws, hdisk, n, hn, hm⟩

/-- The device when it has taken the first `k` of the writes `ws`. -/
def diskAfter (s : Sys) (ws : List Write) (k : ℕ) : ℕ → BlockData :=
  RedoLog.applyWrites s.fs.cache.disk ((ws.take k).map Write.pair)

/-- Every moment of a run lies in a call, or between two calls. -/
theorem Idle.during (h₀ : Idle sb s₀) (hok : ∀ s a, ok s a → a.2.NotExit)
    (hrun : Run (next sb) ok s₀ s) (hn : s.halted = none) (hp : Proper sb s.fs.cache.writes) :
    ∃ ws, s.fs.cache.writes = s₀.fs.cache.writes ++ ws ∧
      s.fs.cache.disk = RedoLog.applyWrites s₀.fs.cache.disk (ws.map Write.pair) ∧
      ∀ k ≤ ws.length, ∃ n u v ws' j, During sb ok s₀ s k n u v ∧ Commits sb n u v ws' ∧
        RecoversTo sb u.fs.cache.disk u.fs.cache.disk u.fs.cache.disk ∧
        u.fs.cache.writes.length + j = s₀.fs.cache.writes.length + k ∧
        diskAfter s₀ ws k = diskAfter u ws' j := by
  induction hrun with
  | refl =>
    refine ⟨[], (List.append_nil _).symm, rfl, fun k hk => ?_⟩
    obtain rfl : k = 0 := Nat.le_zero.mp hk
    exact ⟨0, s₀, s₀, [], 0, ⟨.refl, .inl ⟨rfl, rfl⟩, .refl, le_rfl, le_rfl⟩,
      ⟨(List.append_nil _).symm, rfl, 0, le_rfl, _, .start, fun _ _ => rfl⟩, h₀.recovers hp, rfl, rfl⟩
  | @tail t u a hrun hoka hstep ih =>
    have ht := halted_of_next hstep
    have hidle := h₀.run hrun ht
    obtain ⟨ws', hcom⟩ := hidle.commits (hok t a hoka) hstep hn hp
    rw [hcom.writes] at hp
    obtain ⟨ws, hws, hdisk, hih⟩ := ih ht hp.left
    refine ⟨ws ++ ws', ?_, ?_, fun k hk => ?_⟩
    · rw [hcom.writes, hws, List.append_assoc]
    · rw [hcom.disk, hdisk, List.map_append, RedoLog.applyWrites_append]
    · by_cases hle : k ≤ ws.length
      · -- the device was in an earlier call
        obtain ⟨n, v, w, ws₁, j, hd, hcom₁, hrec, hj, heq⟩ := hih k hle
        refine ⟨n, v, w, ws₁, j, ⟨hd.before, hd.call, hd.after.tail hoka hstep, hd.le, hd.ge⟩, hcom₁, hrec, hj, ?_⟩
        unfold diskAfter
        rw [List.take_append_of_le_length hle]
        exact heq
      · rw [List.length_append] at hk
        refine ⟨a.2.ops, t, u, ws', k - ws.length, ⟨hrun, .inr ⟨a, hoka, hstep, rfl⟩, .refl, ?_, ?_⟩, hcom,
          hidle.recovers hp.left, ?_, ?_⟩
        · rw [hws, List.length_append]
          omega
        · rw [hcom.writes, hws, List.length_append, List.length_append]
          omega
        · rw [hws, List.length_append]
          omega
        · unfold diskAfter
          rw [List.take_append, List.take_of_length_le (by omega), List.map_append,
            RedoLog.applyWrites_append, ← hdisk]

end ShikiOS.Kernel.Calls
