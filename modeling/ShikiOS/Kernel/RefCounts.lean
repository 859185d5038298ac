import ShikiOS.Kernel.SysRun

/-!
# Reference counts of inodes (`kernel/sysfile.c`, `kernel/proc.c`)

`chdir` puts the new directory and keeps the old one: it drops the reference that it has got
to the new directory and does not drop the one to the old directory. As long as nobody
changes the directory, the count of each `Inode` is the number of references to it.

Results:
* `reference_counts`: no `chdir` leads to another directory, so the counts are right and no
  `Inode` is freed that is still in use.
* `chdir_miscounts`: one `chdir` to another directory, after which they are not.
-/

namespace ShikiOS.Kernel.Calls

open ShikiOS.Lib Fs Fs.Bcache Fs.Inodes

variable {sb : SuperBlock} {s₀ s : Sys}

/-- The argument of a `chdir`. -/
def Syscall.chdirPath : Syscall → Option CString
  | .chdir path => some path
  | _ => none

/-- A `chdir` leads to the directory in which the process works already, or fails. -/
def ChdirStays (sb : SuperBlock) (s : Sys) (a : ℕ × Syscall) : Prop :=
  ∀ path ∈ a.2.chdirPath, ∀ ip ∈ chdirTarget sb path { s with cur := a.1 },
    (s.procs a.1).cwd = some ip

instance (sb : SuperBlock) (s : Sys) (a : ℕ × Syscall) : Decidable (ChdirStays sb s a) :=
  inferInstanceAs (Decidable (∀ path ∈ a.2.chdirPath, ∀ ip ∈ chdirTarget sb path { s with cur := a.1 },
    (s.procs a.1).cwd = some ip))

/-- The counts are the numbers of references. -/
structure Counted (s : Sys) : Prop where
  count : ∀ p i, s.fs.inode p = some i → i.rc = refs s p
  cwd : ∀ q p, s.Live q → (s.procs q).cwd = some p → s.fs.inode p ≠ none
  file : ∀ f p, FileRef (s.files f) p → s.fs.inode p ≠ none
  root : ∀ p, s.root = some p → s.fs.inode p ≠ none

/-- References are accounted for; writes are not tracked. -/
def countEnv (sb : SuperBlock) : Env := ⟨sb, False, [], True, 0, False.elim⟩

theorem Settled.counted (h : Settled (countEnv sb) s) : Counted s := by
  obtain ⟨ρ, hl, hacct⟩ := h.ledger
  have hrc : ∀ p, rcOf s.fs p = refs s p := fun p => by
    have := hacct trivial p
    rw [hl.rc p, this]
    exact add_zero _
  have hin : ∀ p, 0 < refs s p → s.fs.inode p ≠ none := fun p hpos hnone => by
    have := hrc p
    rw [rcOf, hnone] at this
    rw [← this] at hpos
    exact lt_irrefl _ hpos
  refine ⟨fun p i hi => ?_, fun q p hq hc => hin p (refs_pos_of_cwd hq hc),
    fun f p hf => hin p (refs_pos_of_file (h.lt_nfile hf.1) hf), fun p hr => hin p (refs_pos_of_root hr)⟩
  rw [← hrc p, rcOf_some hi]

theorem callOk_of_stays {a : ℕ × Syscall} (h : ChdirStays sb s a) :
    CallOk (countEnv sb) s a.1 a.2 := by
  obtain ⟨q, call⟩ := a
  unfold CallOk
  cases call with
  | chdir path => exact fun _ ip hip => h path rfl ip hip
  | exit mem => exact wp.always (fun _ _ => .inl id) fun _ _ => trivial
  | _ => trivial

/-- In every run in which no `chdir` leads to another directory, the count of each `Inode` in
    memory is the number of references to it, after every call; so none is freed while a
    working directory or an open file points to it. -/
theorem reference_counts (h0 : Booted sb s₀) (hrun : Run (next sb) (ChdirStays sb) s₀ s)
    (hn : s.halted = none) : Counted s := by
  obtain ⟨disk, input, h0⟩ := h0
  have hwp : wp (kernelInit (countEnv sb).sb) (fun _ t => t.halted = none ∧ Settled (countEnv sb) t)
      (fun _ _ => True) (bootSys disk input) := Settled.boot disk input fun ht => ht.elim
  have hboot := hwp.of_ok h0
  have hinv : s.halted = none → Settled (countEnv sb) s := by
    refine hrun.invariant (I := fun s => s.halted = none → Settled (countEnv sb) s)
      (fun _ => hboot.2) fun t a u ht hok hstep => ?_
    exact ((ht (halted_of_next hstep)).step (callOk_of_stays hok) hstep).2
  exact (hinv hn).counted

/-- The first process opens `/d` and forks; the child calls `chdir` with the directory in which
    it works, and exits. -/
theorem reference_counts_fork : ∃ s, Run (next smallFs) (ChdirStays smallFs) smallSys s ∧
    s.halted = none ∧ Counted s := by
  have hexec : (execIf (next smallFs) (ChdirStays smallFs) smallSys
      [(0, .openat atFdCwd dPath 0), (0, .fork), (1, .chdir rootPath), (1, .exit fun _ => 0)]).map
      Sys.halted = some none := by decide +kernel
  obtain ⟨s, hrun, hs⟩ := Run.of_execIf_map hexec
  exact ⟨s, hrun, hs, reference_counts ⟨_, _, booted_small⟩ hrun hs⟩

/-- The first process calls `chdir` with `/d`. It works there afterwards, but the count of the
    directory is 0. -/
theorem chdir_miscounts : ¬ ∀ s₀ s, Booted smallFs s₀ → Run (next smallFs) anyStep s₀ s →
    s.halted = none → Counted s := by
  intro h
  have hexec : (exec (next smallFs) smallSys [(0, .chdir dPath)]).map (fun s =>
      (s.halted, decide (s.Live 0), (s.procs 0).cwd, (s.fs.inode 2).map Inode.rc)) =
      some (none, true, some 2, some 0) := by decide +kernel
  obtain ⟨s, hrun, hs⟩ := Option.map_eq_some_iff.mp hexec
  simp only [Prod.mk.injEq, decide_eq_true_eq, Option.map_eq_some_iff] at hs
  obtain ⟨hn, hlive, hcwd, i, hi, hrc⟩ := hs
  have hcount := (h _ s ⟨_, _, booted_small⟩ (Run.of_exec hrun) hn).count 2 i hi
  have hpos := refs_pos_of_cwd hlive hcwd
  omega

end ShikiOS.Kernel.Calls
