import ShikiOS.Kernel.Descriptors

/-!
# What `pipe2` leaves behind (`kernel/sysfile.c`, `fs/pipe.c`)

`pipe2` takes two entries of the file table and a block for the `Pipe`, and then two
descriptors. `pipe_alloc` gives back what it has taken when it fails. The cleanup of `pipe2`
closes a file only if it has got its descriptor: without two free descriptors the write end, or
both ends, keep their reference, and the block is not freed.

A `System` is the table and the processes, and the pipes in live blocks with their open ends.

Results:
* `pipe2_table`: the descriptors and files are those of `Descriptors.State.pipe2`.
* `pipe2_iff`: a `pipe2` leaves nothing behind if and only if it does not fail for lack of a
  descriptor.
* `blank_of_run`: unused entries of the file table are empty in every reachable state.
-/

namespace ShikiOS.Kernel.Pipe2

open ShikiOS.Lib Fs Calls FileTable Descriptors

/-! ## Model -/

/-- `readopen` and `writeopen` of a `Pipe`. -/
structure Ends where
  readopen : Bool
  writeopen : Bool
deriving DecidableEq

/-- The table and the processes, and the pipes in live blocks of `kalloc`. -/
structure System where
  table : Descriptors.State
  pipes : ℕ → Option Ends

namespace System

/-- `pipe_close` (pipe.c:71-90), as far as the block is concerned. -/
def pipeClose (s : System) (pi : ℕ) (writable : Bool) : System :=
  match s.pipes pi with
  | none => s
  | some e =>
    let e := if writable then { e with writeopen := false } else { e with readopen := false }
    let block := if !e.readopen && !e.writeopen then none else some e
    { s with pipes := Function.update s.pipes pi block }

/-- `file_close` (file.c:62-86). -/
def fileClose (s : System) (f : ℕ) : System :=
  let temp := { s.table.files f with ref := (s.table.files f).ref - 1 }
  let t := { s with table := s.table.fileClose f }
  if temp.ref = 0 then
    match under temp with
    | some (.pipe pi writable) => t.pipeClose pi writable
    | _ => t
  else t

/-- `pipe_alloc` (pipe.c:41-69); `pi` is what `kalloc` returns. -/
def pipeAlloc (s : System) (pi : Option ℕ) : Option (ℕ × ℕ) × System :=
  match s.table.fileAlloc with
  | (none, t) => (none, { s with table := t })
  | (some f0, t) =>
    match t.fileAlloc with
    | (none, t) => (none, { s with table := t }.fileClose f0)
    | (some f1, t) =>
      match pi with
      | none => (none, ({ s with table := t }.fileClose f0).fileClose f1)
      | some pi =>
        let t := t.setFile f0 { t.files f0 with
          type := .pipe, readable := true, writable := false, ip := pi }
        let t := t.setFile f1 { t.files f1 with
          type := .pipe, readable := false, writable := true, ip := pi }
        (some (f0, f1), {
          table := { t with
            made := Function.update (Function.update t.made f0 (some (.pipe pi false))) f1
              (some (.pipe pi true)) }
          pipes := Function.update s.pipes pi (some ⟨true, true⟩) })

/-- `fdalloc` (sysfile.c:50-63). -/
def fdalloc (s : System) (p f : ℕ) : Option ℕ × System :=
  ((s.table.fdalloc p f).1, { s with table := (s.table.fdalloc p f).2 })

/-- `oftable.files[fd] = NULL`. -/
def clearFd (s : System) (p fd : ℕ) : System := { s with table := s.table.setFd p fd none }

/-- `pipe2` (sysfile.c:591-618): what it returns, and the descriptors of `pipefd`. -/
def pipe2 (s : System) (p : ℕ) (pi : Option ℕ) : (ℤ × Option (ℕ × ℕ)) × System :=
  match s.pipeAlloc pi with
  | (none, s) => ((-1, none), s)
  | (some (rf, wf), s) =>
    let (fd0, s) := s.fdalloc p rf
    let (fd1, s) := s.fdalloc p wf
    match fd0, fd1 with
    | some fd0, some fd1 => ((0, some (fd0, fd1)), s)
    | fd0, fd1 =>
      let s := match fd0 with
        | some fd0 => (s.clearFd p fd0).fileClose rf
        | none => s
      let s := match fd1 with
        | some fd1 => (s.clearFd p fd1).fileClose wf
        | none => s
      ((-1, none), s)

end System

/-! ## The part about descriptors and files -/

variable {s t : System} {p f : ℕ} {pi : Option ℕ}

@[simp] theorem pipeClose_table {b : ℕ} {w : Bool} : (s.pipeClose b w).table = s.table := by
  unfold System.pipeClose
  split
  · rfl
  · rfl

@[simp] theorem fileClose_table : (s.fileClose f).table = s.table.fileClose f := by
  unfold System.fileClose
  dsimp only
  split_ifs
  · split
    · exact pipeClose_table
    · rfl
  · rfl

theorem pipeAlloc_table (s : System) (pi : Option ℕ) :
    (s.pipeAlloc pi).1 = (s.table.pipeAlloc pi).1 ∧
      (s.pipeAlloc pi).2.table = (s.table.pipeAlloc pi).2 := by
  unfold System.pipeAlloc State.pipeAlloc
  obtain ⟨r0, t0⟩ := s.table.fileAlloc
  cases r0 with
  | none => exact ⟨rfl, rfl⟩
  | some f0 =>
    dsimp only
    obtain ⟨r1, t1⟩ := t0.fileAlloc
    cases r1 with
    | none => exact ⟨rfl, fileClose_table⟩
    | some f1 =>
      cases pi with
      | none =>
        refine ⟨rfl, ?_⟩
        dsimp only
        rw [fileClose_table, fileClose_table]
      | some b => exact ⟨rfl, rfl⟩

theorem pipe2_table : (s.pipe2 p pi).1 = (s.table.pipe2 p pi).1 ∧
    (s.pipe2 p pi).2.table = (s.table.pipe2 p pi).2 := by
  obtain ⟨h1, h2⟩ := pipeAlloc_table s pi
  unfold System.pipe2 State.pipe2
  rcases hx : s.pipeAlloc pi with ⟨r, t⟩
  rcases hy : s.table.pipeAlloc pi with ⟨r', t'⟩
  rw [hx, hy] at h1 h2
  dsimp only at h1 h2
  subst h1 h2
  cases r with
  | none => exact ⟨rfl, rfl⟩
  | some fs =>
    obtain ⟨rf, wf⟩ := fs
    unfold System.fdalloc
    dsimp only
    obtain ⟨fd0, t0⟩ := t.table.fdalloc p rf
    dsimp only
    obtain ⟨fd1, t1⟩ := t0.fdalloc p wf
    cases fd0 with
    | none =>
      cases fd1 with
      | none => exact ⟨rfl, rfl⟩
      | some fd1 => exact ⟨rfl, fileClose_table⟩
    | some fd0 =>
      cases fd1 with
      | none => exact ⟨rfl, fileClose_table⟩
      | some fd1 => exact ⟨rfl, rfl⟩

/-! ## The state before the call -/

/-- Unused entries of the file table are empty: `file_close` leaves nothing in them. -/
def Blank (s : Descriptors.State) : Prop := ∀ f, (s.files f).ref = 0 → (s.files f).type = .none

/-- `pipe_alloc` finds two entries and a block. -/
def Allocatable (s : System) (pi : Option ℕ) : Prop :=
  pi ≠ none ∧ ∃ f0 < nfile, ∃ f1 < nfile, f0 ≠ f1 ∧
    (s.table.files f0).ref = 0 ∧ (s.table.files f1).ref = 0

/-- The process has two free descriptors. -/
def TwoFds (s : System) (p : ℕ) : Prop :=
  ∃ fd0 < openfile, ∃ fd1 < openfile, fd0 ≠ fd1 ∧
    (s.table.procs p).files fd0 = none ∧ (s.table.procs p).files fd1 = none

/-- All descriptors, all reference counts and all live blocks are the same. -/
structure SameAs (s t : System) : Prop where
  fds : ∀ q fd, (t.table.procs q).files fd = (s.table.procs q).files fd
  refs : ∀ f, (t.table.files f).ref = (s.table.files f).ref
  pipes : t.pipes = s.pipes

/-- Two descriptors of `p` are new, for the two ends of a new pipe. -/
def NewPipe (s t : System) (p fd0 fd1 : ℕ) : Prop :=
  ∃ f0 f1 b, fd0 ≠ fd1 ∧ f0 ≠ f1 ∧
    (s.table.procs p).files fd0 = none ∧ (s.table.procs p).files fd1 = none ∧
    (t.table.procs p).files fd0 = some f0 ∧ (t.table.procs p).files fd1 = some f1 ∧
    (∀ q fd, (q, fd) ≠ (p, fd0) → (q, fd) ≠ (p, fd1) →
      (t.table.procs q).files fd = (s.table.procs q).files fd) ∧
    (s.table.files f0).ref = 0 ∧ (s.table.files f1).ref = 0 ∧
    (t.table.files f0).ref = 1 ∧ under (t.table.files f0) = some (.pipe b false) ∧
    (t.table.files f1).ref = 1 ∧ under (t.table.files f1) = some (.pipe b true) ∧
    (∀ f, f ≠ f0 → f ≠ f1 → t.table.files f = s.table.files f) ∧
    s.pipes b = none ∧ t.pipes = Function.update s.pipes b (some ⟨true, true⟩)

/-- A call that fails leaves no trace, and one that succeeds does all that it should. -/
def AllOrNothing (s : System) (p : ℕ) (pi : Option ℕ) : Prop :=
  ((s.pipe2 p pi).1.1 = -1 → SameAs s (s.pipe2 p pi).2) ∧
    ((s.pipe2 p pi).1.1 = 0 → ∃ fd0 fd1, (s.pipe2 p pi).1.2 = some (fd0, fd1) ∧
      NewPipe s (s.pipe2 p pi).2 p fd0 fd1)

/-! ## `pipe_alloc` -/

theorem findFree_none {files : ℕ → File} {n i : ℕ} (h : findFree files n i = none) :
    ∀ f, i ≤ f → f < i + n → (files f).ref ≠ 0 := by
  induction n generalizing i with
  | zero => intro f h1 h2; omega
  | succ n ih =>
    unfold findFree at h
    split_ifs at h with hi
    intro f h1 h2
    by_cases hf : f = i
    · exact hf ▸ hi
    · exact ih h f (by omega) (by omega)

theorem findFd_none {files : ℕ → Option ℕ} {n i : ℕ} (h : findFd files n i = none) :
    ∀ fd, i ≤ fd → fd < i + n → files fd ≠ none := by
  induction n generalizing i with
  | zero => intro fd h1 h2; omega
  | succ n ih =>
    unfold findFd at h
    split_ifs at h with hi
    intro fd h1 h2
    by_cases hfd : fd = i
    · exact hfd ▸ hi
    · exact ih h fd (by omega) (by omega)

/-- `file_alloc` fails only if no entry is unused. -/
theorem fileAlloc_none {a b : Descriptors.State} (h : a.fileAlloc = (none, b)) :
    ∀ f < nfile, (a.files f).ref ≠ 0 := by
  unfold State.fileAlloc at h
  split at h
  · next hf => exact fun f hlt => findFree_none hf f (Nat.zero_le f) (by omega)
  · cases h

/-- `fdalloc` fails only if no descriptor is free. -/
theorem fdalloc_none {a b : Descriptors.State} (h : a.fdalloc p f = (none, b)) :
    ∀ fd < openfile, (a.procs p).files fd ≠ none := by
  unfold State.fdalloc at h
  split at h
  · next hfd => exact fun fd hlt => findFd_none hfd fd (Nat.zero_le fd) (by omega)
  · cases h

/-- Closing an entry that has just been allocated empties it. -/
theorem fileClose_fresh {a : Descriptors.State} {pipes : ℕ → Option Ends}
    (ht : (a.files f).type = .none) :
    (⟨a.setFile f { a.files f with ref := 1 }, pipes⟩ : System).fileClose f =
      ⟨a.setFile f File.zero, pipes⟩ := by
  unfold System.fileClose
  rw [Descriptors.fileClose_fresh ht]
  have hunder : under { (a.setFile f { a.files f with ref := 1 }).files f with
      ref := ((a.setFile f { a.files f with ref := 1 }).files f).ref - 1 } = none := by
    rw [setFile_self]
    unfold under
    dsimp only
    rw [ht]
  dsimp only
  rw [hunder]
  split_ifs
  · rfl
  · rfl

/-- Closing a file leaves the other entries alone. -/
theorem fileClose_of_ne {a : Descriptors.State} {g : ℕ} (hg : g ≠ f) :
    (a.fileClose f).files g = a.files g := by
  unfold State.fileClose
  dsimp only
  split_ifs
  · unfold State.closeUnder
    split
    · exact (setFile_of_ne hg).trans (setFile_of_ne hg)
    · exact (setFile_of_ne hg).trans (setFile_of_ne hg)
    · exact (setFile_of_ne hg).trans (setFile_of_ne hg)
  · exact setFile_of_ne hg

/-- An unused entry that is emptied is still unused. -/
theorem setFile_zero_ref {a : Descriptors.State} (hz : (a.files f).ref = 0) (g : ℕ) :
    ((a.setFile f File.zero).files g).ref = (a.files g).ref := by
  by_cases e : g = f
  · subst e
    rw [setFile_self, hz]
    rfl
  · rw [setFile_of_ne e]

/-- `pipe_alloc` gives everything back, or has two entries and a block. -/
theorem pipeAlloc_spec (pi : Option ℕ) (hb : Blank s.table) :
    (¬ Allocatable s pi ∧ (s.pipeAlloc pi).1 = none ∧ SameAs s (s.pipeAlloc pi).2) ∨
    ∃ f0 f1 b, pi = some b ∧ Allocatable s pi ∧ f1 ≠ f0 ∧ (s.table.files f0).ref = 0 ∧
      (s.table.files f1).ref = 0 ∧
      s.pipeAlloc pi = (some (f0, f1), ⟨{ (s.table.setFile f0
          (pipeEnd (s.table.files f0) b false)).setFile f1 (pipeEnd (s.table.files f1) b true) with
        made := Function.update (Function.update s.table.made f0 (some (.pipe b false))) f1
          (some (.pipe b true)) }, Function.update s.pipes b (some ⟨true, true⟩)⟩) := by
  unfold System.pipeAlloc
  rcases fileAlloc_cases (s := s.table) with h0 | ⟨f0, hz0, hf0, h0⟩
  · have hnone := fileAlloc_none h0
    rw [h0]
    refine .inl ⟨?_, rfl, fun _ _ => rfl, fun _ => rfl, rfl⟩
    rintro ⟨-, g, hg, -, -, -, hz, -⟩
    exact hnone g hg hz
  rw [h0]
  dsimp only
  rcases fileAlloc_cases (s := s.table.setFile f0 { s.table.files f0 with ref := 1 }) with
    h1 | ⟨f1, hz1, hf1, h1⟩
  · -- the first entry is given back
    have hnone := fileAlloc_none h1
    rw [h1]
    dsimp only
    rw [fileClose_fresh (hb f0 hz0)]
    refine .inl ⟨?_, rfl, fun _ _ => rfl, setFile_zero_ref hz0, rfl⟩
    rintro ⟨-, g, hg, g', hg', hne, hz, hz'⟩
    by_cases e : g = f0
    · have hne' : g' ≠ f0 := fun e' => hne (e.trans e'.symm)
      refine hnone g' hg' ?_
      rwa [setFile_of_ne hne']
    · refine hnone g hg ?_
      rwa [setFile_of_ne e]
  rw [h1]
  dsimp only
  have hne : f1 ≠ f0 := by
    rintro rfl
    rw [setFile_self] at hz1
    cases hz1
  rw [setFile_of_ne hne] at hz1 ⊢
  cases pi with
  | none =>
    -- both entries are given back
    left
    refine ⟨fun h => h.1 rfl, rfl, ?_⟩
    have hcomm : (s.table.setFile f0 { s.table.files f0 with ref := 1 }).setFile f1
        { s.table.files f1 with ref := 1 } =
        (s.table.setFile f1 { s.table.files f1 with ref := 1 }).setFile f0
          { (s.table.setFile f1 { s.table.files f1 with ref := 1 }).files f0 with ref := 1 } := by
      rw [setFile_of_ne hne.symm]
      unfold State.setFile
      rw [Function.update_comm hne]
    have hback : (s.table.setFile f1 { s.table.files f1 with ref := 1 }).setFile f0 File.zero =
        (s.table.setFile f0 File.zero).setFile f1
          { (s.table.setFile f0 File.zero).files f1 with ref := 1 } := by
      rw [setFile_of_ne hne]
      unfold State.setFile
      rw [Function.update_comm hne.symm]
    have ht0 : ((s.table.setFile f1 { s.table.files f1 with ref := 1 }).files f0).type = .none := by
      rw [setFile_of_ne hne.symm]
      exact hb f0 hz0
    have ht1 : ((s.table.setFile f0 File.zero).files f1).type = .none := by
      rw [setFile_of_ne hne]
      exact hb f1 hz1
    dsimp only
    rw [hcomm, fileClose_fresh ht0, hback, fileClose_fresh ht1]
    refine ⟨fun _ _ => rfl, fun g => ?_, rfl⟩
    have hz1' : ((s.table.setFile f0 File.zero).files f1).ref = 0 := by
      rwa [setFile_of_ne hne]
    exact (setFile_zero_ref hz1' g).trans (setFile_zero_ref hz0 g)
  | some b =>
    refine .inr ⟨f0, f1, b, rfl, ⟨nofun, f0, hf0, f1, hf1, hne.symm, hz0, hz1⟩, hne, hz0, hz1, ?_⟩
    simp only [State.setFile, Function.update_self, Function.update_of_ne hne,
      Function.update_of_ne hne.symm]
    rw [Function.update_comm hne, Function.update_idem, Function.update_idem]
    rfl

/-! ## `pipe2` -/

/-- A `pipe2` leaves no trace when it fails, and does all that it should when it succeeds, if and
    only if `pipe_alloc` fails or there are two free descriptors. -/
theorem pipe2_iff (hb : Blank s.table) (hfresh : ∀ b, pi = some b → s.pipes b = none) (p : ℕ) :
    AllOrNothing s p pi ↔ (¬ Allocatable s pi ∨ TwoFds s p) := by
  rcases pipeAlloc_spec pi hb with ⟨hno, hnone, hsame⟩ |
    ⟨f0, f1, b, rfl, hall, hne, hz0, hz1, heq⟩
  · -- `pipe_alloc` fails
    refine ⟨fun _ => .inl hno, fun _ => ?_⟩
    unfold AllOrNothing System.pipe2
    rcases hx : s.pipeAlloc pi with ⟨r, t⟩
    rw [hx] at hnone hsame
    dsimp only at hnone hsame
    subst hnone
    exact ⟨fun _ => hsame, fun h => absurd h (show ¬ (-1 : ℤ) = 0 by decide)⟩
  set a : Descriptors.State := { (s.table.setFile f0
      (pipeEnd (s.table.files f0) b false)).setFile f1 (pipeEnd (s.table.files f1) b true) with
    made := Function.update (Function.update s.table.made f0 (some (.pipe b false))) f1
      (some (.pipe b true)) } with ha
  have hprocs : a.procs = s.table.procs := rfl
  have hf1 : a.files f1 = pipeEnd (s.table.files f1) b true := setFile_self
  have hf0 : a.files f0 = pipeEnd (s.table.files f0) b false :=
    (setFile_of_ne hne.symm).trans setFile_self
  have hother : ∀ g, g ≠ f0 → g ≠ f1 → a.files g = s.table.files g := fun g h0 h1 =>
    (setFile_of_ne h1).trans (setFile_of_ne h0)
  unfold AllOrNothing System.pipe2
  rw [heq]
  unfold System.fdalloc
  dsimp only
  rcases fdalloc_cases (s := a) p f0 with h0 | ⟨fd0, hfree0, hfd0, h0⟩
  · -- no descriptor: both ends keep their reference
    have hno := fdalloc_none h0
    have h1 : a.fdalloc p f1 = (none, a) := by
      rcases fdalloc_cases (s := a) p f1 with h1 | ⟨fd1, hfree1, hfd1, -⟩
      · exact h1
      · exact absurd hfree1 (hno fd1 hfd1)
    rw [h0]
    dsimp only
    rw [h1]
    constructor
    · rintro ⟨hfail, -⟩
      have href := (hfail rfl).refs f1
      rw [hz1, hf1] at href
      cases href
    · rintro (hcon | ⟨fd, hfd, -, -, -, hfree, -⟩)
      · exact absurd hall hcon
      · exact absurd hfree (hno fd hfd)
  · rw [h0]
    dsimp only
    rcases fdalloc_cases (s := a.setFd p fd0 (some f0)) p f1 with h1 | ⟨fd1, hfree1, hfd1, h1⟩
    · -- one descriptor: the write end keeps its reference
      have hno := fdalloc_none h1
      rw [h1]
      constructor
      · rintro ⟨hfail, -⟩
        have href := (hfail rfl).refs f1
        dsimp only [System.clearFd] at href
        rw [fileClose_table, fileClose_of_ne hne, hz1] at href
        have hone : (a.files f1).ref = 0 := href
        rw [hf1] at hone
        cases hone
      · rintro (hcon | ⟨fd, hfd, fd', hfd', hne', hfree, hfree'⟩)
        · exact absurd hall hcon
        · -- one of the two is still free
          by_cases e : fd = fd0
          · refine absurd ?_ (hno fd' hfd')
            rw [setFd_of_ne fun h => hne' (e.trans (Prod.mk.inj h).2.symm)]
            exact hfree'
          · refine absurd ?_ (hno fd hfd)
            rw [setFd_of_ne fun h => e (Prod.mk.inj h).2]
            exact hfree
    · -- two descriptors
      rw [h1]
      have hfd : fd0 ≠ fd1 := by
        rintro rfl
        rw [setFd_self] at hfree1
        cases hfree1
      have hpair : (p, fd1) ≠ (p, fd0) := fun h => hfd (Prod.mk.inj h).2.symm
      have hfree1' : (s.table.procs p).files fd1 = none := by
        rw [setFd_of_ne hpair] at hfree1
        exact hfree1
      constructor
      · intro _
        exact .inr ⟨fd0, hfd0, fd1, hfd1, hfd, hfree0, hfree1'⟩
      · intro _
        refine ⟨fun h => absurd h (show ¬ (0 : ℤ) = -1 by decide), fun _ => ⟨fd0, fd1, rfl, ?_⟩⟩
        refine ⟨f0, f1, b, hfd, hne.symm, hfree0, hfree1', ?_, setFd_self, ?_, hz0, hz1, ?_, ?_, ?_,
          ?_, hother, hfresh b rfl, rfl⟩
        · rw [setFd_of_ne hpair.symm]
          exact setFd_self
        · intro q fd hq0 hq1
          rw [setFd_of_ne hq1, setFd_of_ne hq0, hprocs]
        · exact congrArg File.ref hf0
        · exact congrArg under hf0
        · exact congrArg File.ref hf1
        · exact congrArg under hf1

/-- Process 0 has all descriptors but one, all for a file that process 1 has made. -/
def oneFd : System where
  table := { initState 2 with
    files := Function.update (fun _ => File.zero) 0
      { File.zero with type := .inode, ref := 16, ip := 1, readable := true }
    procs := fun q => ⟨q < 2, fun fd => if q = 0 ∧ fd < openfile - 1 then some 0 else none⟩ }
  pipes := fun _ => none

theorem oneFd_blank : Blank oneFd.table := by
  intro f hf
  by_cases e : f = 0
  · subst e
    cases hf
  · show (Function.update (fun _ => File.zero) 0 _ f : File).type = .none
    rw [Function.update_of_ne e]
    rfl

/-- Process 1 has room for a pipe. -/
theorem pipe2_oneFd : AllOrNothing oneFd 1 (some 7) :=
  (pipe2_iff oneFd_blank (fun _ _ => rfl) 1).mpr
    (.inr ⟨0, by decide, 1, by decide, by decide, rfl, rfl⟩)

/-- Process 0 gets `-1`, and the write end keeps its reference. -/
theorem pipe2_leaks : (oneFd.pipe2 0 (some 7)).1 = (-1, none) ∧
    (oneFd.table.files 2).ref = 0 ∧ ((oneFd.pipe2 0 (some 7)).2.table.files 2).ref = 1 ∧
    (oneFd.pipe2 0 (some 7)).2.pipes 7 = some ⟨false, true⟩ ∧
    ¬ ∀ s p pi, Blank s.table → (∀ b, pi = some b → s.pipes b = none) → AllOrNothing s p pi := by
  have hfail : (oneFd.pipe2 0 (some 7)).1 = (-1, none) := by decide +kernel
  have href : ((oneFd.pipe2 0 (some 7)).2.table.files 2).ref = 1 := by decide +kernel
  refine ⟨hfail, rfl, href, by decide +kernel, fun hall => ?_⟩
  have hsame := (hall oneFd 0 (some 7) oneFd_blank fun _ _ => rfl).1 (congrArg Prod.fst hfail)
  have hkept := hsame.refs 2
  rw [href] at hkept
  cases hkept

/-! ## Unused entries are empty -/

section Blank

variable {a b : Descriptors.State} {x : File} {fd : ℕ}

theorem Blank.setFile (hb : Blank a) (hx : x.ref = 0 → x.type = .none) : Blank (a.setFile f x) := by
  intro g hg
  by_cases e : g = f
  · subst e
    rw [setFile_self] at hg ⊢
    exact hx hg
  · rw [setFile_of_ne e] at hg ⊢
    exact hb g hg

theorem Blank.fileDup (hb : Blank a) : Blank (a.fileDup f) := by
  unfold State.fileDup
  split_ifs with hlt
  · exact hb
  · refine hb.setFile fun hz => ?_
    have hz' : (a.files f).ref + 1 = 0 := hz
    omega

theorem Blank.fileClose (hb : Blank a) : Blank (a.fileClose f) := by
  unfold State.fileClose
  dsimp only
  split_ifs with hz
  · have hzero : Blank ((a.setFile f { a.files f with ref := (a.files f).ref - 1 }).setFile f
        File.zero) := by
      intro g hg
      by_cases e : g = f
      · subst e
        rw [setFile_self]
        rfl
      · rw [setFile_of_ne e, setFile_of_ne e] at hg ⊢
        exact hb g hg
    unfold State.closeUnder
    split
    · exact hzero
    · exact hzero
    · exact hzero
  · refine hb.setFile fun hz' => absurd ?_ hz
    rw [setFile_self]
    exact hz'

/-- `file_alloc` gives out an entry with a reference. -/
theorem Blank.fileAlloc (hb : Blank a) {r : Option ℕ} (h : a.fileAlloc = (r, b)) :
    Blank b ∧ (∀ f, r = some f → (b.files f).ref = 1) ∧
      ∀ g, (b.files g).ref = 0 → (a.files g).ref = 0 := by
  rcases fileAlloc_cases (s := a) with h0 | ⟨f, hz, -, h0⟩
  · rw [h] at h0
    obtain ⟨rfl, rfl⟩ := Prod.mk.inj h0
    exact ⟨hb, nofun, fun _ hg => hg⟩
  · rw [h] at h0
    obtain ⟨rfl, rfl⟩ := Prod.mk.inj h0
    refine ⟨hb.setFile fun hz => absurd hz (show ¬ (1 : ℤ) = 0 by decide), fun g hg => ?_,
      fun g hg => ?_⟩
    · obtain rfl := Option.some.inj hg
      rw [setFile_self]
    · by_cases e : g = f
      · exact e ▸ hz
      · rwa [setFile_of_ne e] at hg

/-- Only processes change. -/
theorem fdalloc_files {r : Option ℕ} (h : a.fdalloc p f = (r, b)) : b.files = a.files := by
  rcases fdalloc_cases (s := a) p f with h0 | ⟨fd, -, -, h0⟩
  · rw [h] at h0
    obtain ⟨-, rfl⟩ := Prod.mk.inj h0
    rfl
  · rw [h] at h0
    obtain ⟨-, rfl⟩ := Prod.mk.inj h0
    rfl

theorem Blank.fdalloc (hb : Blank a) {r : Option ℕ} (h : a.fdalloc p f = (r, b)) : Blank b := by
  intro g
  rw [fdalloc_files h]
  exact hb g

theorem Blank.openat (hb : Blank a) (dirfd : ℤ) (path : CString) (omode : ℕ) (found : Option ℕ) :
    Blank (a.openat p dirfd path omode found).2 := by
  unfold State.openat
  split_ifs
  · exact hb
  · exact hb
  cases found with
  | none => exact hb
  | some ip =>
    dsimp only
    unfold State.openatFile
    have hg : Blank (a.grab ip) := hb
    rcases h0 : (a.grab ip).fileAlloc with ⟨r0, b0⟩
    obtain ⟨hb0, hone, -⟩ := hg.fileAlloc h0
    cases r0 with
    | none => exact hb0
    | some f =>
      dsimp only
      rcases h1 : b0.fdalloc p f with ⟨r1, b1⟩
      have hb1 := hb0.fdalloc h1
      cases r1 with
      | none => exact hb1.fileClose
      | some fd =>
        refine hb1.setFile fun hz => ?_
        have hz' : (b1.files f).ref = 0 := hz
        rw [fdalloc_files h1, hone f rfl] at hz'
        cases hz'

theorem Blank.dup (hb : Blank a) (n : ℤ) : Blank (a.dup p n).2 := by
  unfold State.dup
  split
  · exact hb
  · split
    · next h1 => exact hb.fdalloc h1
    · next h1 => exact (hb.fdalloc h1).fileDup

theorem Blank.close (hb : Blank a) (n : ℤ) : Blank (a.close p n).2 := by
  unfold State.close
  split
  · exact hb
  · exact Blank.fileClose (a := a.setFd p n.toNat none) hb

theorem Blank.pipeAlloc (hb : Blank a) (pi : Option ℕ) : Blank (a.pipeAlloc pi).2 := by
  unfold State.pipeAlloc
  rcases h0 : a.fileAlloc with ⟨r0, b0⟩
  obtain ⟨hb0, hone0, -⟩ := hb.fileAlloc h0
  cases r0 with
  | none => exact hb0
  | some f0 =>
    dsimp only
    rcases h1 : b0.fileAlloc with ⟨r1, b1⟩
    obtain ⟨hb1, hone1, hstay⟩ := hb0.fileAlloc h1
    cases r1 with
    | none => exact hb1.fileClose
    | some f1 =>
      cases pi with
      | none => exact hb1.fileClose.fileClose
      | some pi =>
        have hf0 : (b1.files f0).ref ≠ 0 := by
          intro hz
          have hz' := hstay f0 hz
          rw [hone0 f0 rfl] at hz'
          cases hz'
        refine Blank.setFile (hb1.setFile fun hz => absurd hz hf0) fun hz => ?_
        by_cases e : f1 = f0
        · subst e
          rw [setFile_self] at hz
          exact absurd hz hf0
        · rw [setFile_of_ne e] at hz
          have hz' : (b1.files f1).ref = 0 := hz
          rw [hone1 f1 rfl] at hz'
          cases hz'

theorem Blank.pipe2 (hb : Blank a) (pi : Option ℕ) : Blank (a.pipe2 p pi).2 := by
  have hp := hb.pipeAlloc pi
  unfold State.pipe2
  rcases hx : a.pipeAlloc pi with ⟨r, b⟩
  rw [hx] at hp
  cases r with
  | none => exact hp
  | some fs =>
    obtain ⟨rf, wf⟩ := fs
    dsimp only
    rcases h0 : b.fdalloc p rf with ⟨fd0, b0⟩
    have hb0 : Blank b0 := Blank.fdalloc hp h0
    dsimp only
    rcases h1 : b0.fdalloc p wf with ⟨fd1, b1⟩
    have hb1 : Blank b1 := hb0.fdalloc h1
    cases fd0 with
    | none =>
      cases fd1 with
      | none => exact hb1
      | some fd1 => exact Blank.fileClose (a := b1.setFd p fd1 none) hb1
    | some fd0 =>
      cases fd1 with
      | none => exact Blank.fileClose (a := b1.setFd p fd0 none) hb1
      | some fd1 => exact hb1

theorem Blank.fork (hb : Blank a) (fails : Bool) : Blank (a.fork p fails).2 := by
  unfold State.fork
  split_ifs
  · exact hb
  · refine List.foldlRecOn (motive := Blank) _ _ hb fun b hb i _ => ?_
    unfold State.forkFd
    split
    · exact hb
    · exact Blank.fileDup hb

theorem Blank.exit (hb : Blank a) : Blank (a.exit p) := by
  unfold State.exit
  refine List.foldlRecOn (motive := Blank) _ _ hb fun b hb i _ => ?_
  unfold State.exitFd
  split
  · exact hb
  · exact Blank.fileClose hb

/-- In every reachable state, also after calls that have failed. -/
theorem blank_of_run {n : ℕ} (hrun : Run Descriptors.next anyStep (initState n) a) : Blank a := by
  refine hrun.invariant (fun _ _ => rfl) fun b c d hb _ hnext => ?_
  unfold Descriptors.next at hnext
  split_ifs at hnext
  obtain rfl := Option.some.inj hnext
  obtain ⟨p, call⟩ := c
  cases call with
  | openat dirfd path omode found => exact hb.openat dirfd path omode found
  | dup n => exact hb.dup n
  | close n => exact hb.close n
  | pipe2 pi => exact hb.pipe2 pi
  | fork fails => exact hb.fork fails
  | exit => exact hb.exit

end Blank

end ShikiOS.Kernel.Pipe2
