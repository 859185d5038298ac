import ShikiOS.Kernel.FileTable
import ShikiOS.Lib.Count

/-!
# Descriptors (`fs/file.c`, `kernel/sysfile.c`, `kernel/proc.c`)

Any number of processes call `openat`, `dup`, `close`, `pipe2`, `fork` and `exit`, one call after
the other. A descriptor is an entry of the file table that a slot of `oftable` points to. Of the
file system there is what a path leads to and the counted references on inodes.

Results:
* `descriptors_accounted`: `ref` counts the descriptors of a file, and what lies under it is
  closed in the call that removes the last one, as long as every `pipe2` succeeds.
-/

namespace ShikiOS.Kernel.Descriptors

open ShikiOS.Lib Fs Calls FileTable

/-! ## Model -/

/-- `Proc`, as far as descriptors are concerned. `live` says that the process has been created and
    has not exited. -/
structure Proc where
  live : Bool
  files : ℕ → Option ℕ

/-- `ftable.files`, the processes, numbered as they are created, and the counted references on
    inodes. The rest is only recorded: what the call that made a file put under it, and what
    `file_close` has closed of which file. -/
structure State where
  files : ℕ → File
  procs : ℕ → Proc
  nextPid : ℕ
  inodeRefs : ℕ → ℤ
  made : ℕ → Option Under
  closed : List (ℕ × Under)

/-- `n` processes without descriptors. -/
def initState (n : ℕ) : State where
  files := fun _ => File.zero
  procs := fun p => ⟨p < n, fun _ => none⟩
  nextPid := n
  inodeRefs := fun _ => 0
  made := fun _ => none
  closed := []

namespace State

def setFile (s : State) (f : ℕ) (x : File) : State :=
  { s with files := Function.update s.files f x }

def setProc (s : State) (p : ℕ) (x : Proc) : State :=
  { s with procs := Function.update s.procs p x }

/-- `oftable.files[fd] = x` of process `p`. -/
def setFd (s : State) (p fd : ℕ) (x : Option ℕ) : State :=
  s.setProc p { s.procs p with files := Function.update (s.procs p).files fd x }

/-- A counted reference on an inode is taken, as `namei` and `create` do. -/
def grab (s : State) (ip : ℕ) : State :=
  { s with inodeRefs := Function.update s.inodeRefs ip (s.inodeRefs ip + 1) }

/-- `inodes.put`. -/
def put (s : State) (ip : ℕ) : State :=
  { s with inodeRefs := Function.update s.inodeRefs ip (s.inodeRefs ip - 1) }

/-- `file_alloc` (file.c:28-44). -/
def fileAlloc (s : State) : Option ℕ × State :=
  match findFree s.files nfile 0 with
  | none => (none, s)
  | some f => (some f, s.setFile f { s.files f with ref := 1 })

/-- `file_dup` (file.c:47-59). -/
def fileDup (s : State) (f : ℕ) : State :=
  if (s.files f).ref < 1 then s
  else s.setFile f { s.files f with ref := (s.files f).ref + 1 }

/-- Lines 72-82 of `file_close`: `pipe_close` or `inodes.put`. -/
def closeUnder (s : State) (f : ℕ) (temp : File) : State :=
  match under temp with
  | none => s
  | some (.pipe pi writable) => { s with closed := s.closed ++ [(f, .pipe pi writable)] }
  | some (.inode ip) => { s.put ip with closed := s.closed ++ [(f, .inode ip)] }

/-- `file_close` (file.c:62-86). -/
def fileClose (s : State) (f : ℕ) : State :=
  let s := s.setFile f { s.files f with ref := (s.files f).ref - 1 }
  if (s.files f).ref = 0 then (s.setFile f File.zero).closeUnder f (s.files f) else s

/-- `fdalloc` (sysfile.c:50-63) for process `p`. -/
def fdalloc (s : State) (p f : ℕ) : Option ℕ × State :=
  match findFd (s.procs p).files openfile 0 with
  | none => (none, s)
  | some fd => (some fd, s.setFd p fd (some f))

/-- `fd2file` (sysfile.c:37-44). -/
def fd2file (s : State) (p : ℕ) (fd : ℤ) : Option ℕ :=
  if fd < 0 ∨ fd ≥ openfile then none else (s.procs p).files fd.toNat

/-- Lines 487-503 of `openat`. -/
def openatFile (s : State) (p omode ip : ℕ) : ℤ × State :=
  match s.fileAlloc with
  | (none, s) => (-1, s.put ip)
  | (some f, s) =>
    match s.fdalloc p f with
    | (none, s) => (-1, (s.fileClose f).put ip)
    | (some fd, s) =>
      (fd, { s.setFile f { s.files f with
          type := .inode
          ip := ip
          off := 0
          readable := !hasFlag omode oWronly
          writable := hasFlag omode oWronly || hasFlag omode oRdwr } with
        made := Function.update s.made f (some (.inode ip)) })

/-- `openat` (sysfile.c:456-504); `found` is what `create` or `namei` returns. -/
def openat (s : State) (p : ℕ) (dirfd : ℤ) (path : CString) (omode : ℕ) (found : Option ℕ) :
    ℤ × State :=
  if !userStrlen path then (-1, s)
  else if dirfd ≠ atFdCwd then (-1, s)
  else
    match found with
    | none => (-1, s)
    | some ip => (s.grab ip).openatFile p omode ip

/-- `dup` (sysfile.c:217-227). -/
def dup (s : State) (p : ℕ) (fd : ℤ) : ℤ × State :=
  match s.fd2file p fd with
  | none => (-1, s)
  | some f =>
    match s.fdalloc p f with
    | (none, s) => (-1, s)
    | (some fd, s) => (fd, s.fileDup f)

/-- `close` (sysfile.c:260-271). -/
def close (s : State) (p : ℕ) (fd : ℤ) : ℤ × State :=
  match s.fd2file p fd with
  | none => (-1, s)
  | some f => (0, (s.setFd p fd.toNat none).fileClose f)

/-- `pipe_alloc` (pipe.c:41-69); `pi` is what `kalloc` returns. -/
def pipeAlloc (s : State) (pi : Option ℕ) : Option (ℕ × ℕ) × State :=
  match s.fileAlloc with
  | (none, s) => (none, s)
  | (some f0, s) =>
    match s.fileAlloc with
    | (none, s) => (none, s.fileClose f0)
    | (some f1, s) =>
      match pi with
      | none => (none, (s.fileClose f0).fileClose f1)
      | some pi =>
        let s := s.setFile f0 { s.files f0 with
          type := .pipe, readable := true, writable := false, ip := pi }
        let s := s.setFile f1 { s.files f1 with
          type := .pipe, readable := false, writable := true, ip := pi }
        (some (f0, f1), { s with
          made := Function.update (Function.update s.made f0 (some (.pipe pi false))) f1
            (some (.pipe pi true)) })

/-- `pipe2` (sysfile.c:591-618): what it returns, and the descriptors of `pipefd`. -/
def pipe2 (s : State) (p : ℕ) (pi : Option ℕ) : (ℤ × Option (ℕ × ℕ)) × State :=
  match s.pipeAlloc pi with
  | (none, s) => ((-1, none), s)
  | (some (rf, wf), s) =>
    let (fd0, s) := s.fdalloc p rf
    let (fd1, s) := s.fdalloc p wf
    match fd0, fd1 with
    | some fd0, some fd1 => ((0, some (fd0, fd1)), s)
    | fd0, fd1 =>
      let s := match fd0 with
        | some fd0 => (s.setFd p fd0 none).fileClose rf
        | none => s
      let s := match fd1 with
        | some fd1 => (s.setFd p fd1 none).fileClose wf
        | none => s
      ((-1, none), s)

/-- A round of the loop of `fork` (proc.c:361-365). -/
def forkFd (p child : ℕ) (s : State) (i : ℕ) : State :=
  match (s.procs p).files i with
  | none => s
  | some f => (s.fileDup f).setFd child i (some f)

/-- `fork`, as far as descriptors are concerned. `fails`: `create_proc` or `uvmcopy` fails. -/
def fork (s : State) (p : ℕ) (fails : Bool) : ℤ × State :=
  if fails then (-1, s)
  else
    let child := s.nextPid
    let s := { s.setProc child ⟨true, fun _ => none⟩ with nextPid := s.nextPid + 1 }
    (child, (List.range openfile).foldl (forkFd p child) s)

/-- A round of the loop of `exit` (proc.c:231-238). -/
def exitFd (p : ℕ) (s : State) (i : ℕ) : State :=
  match (s.procs p).files i with
  | none => s
  | some f => (s.fileClose f).setFd p i none

/-- `exit`, as far as descriptors are concerned. -/
def exit (s : State) (p : ℕ) : State :=
  let s := (List.range openfile).foldl (exitFd p) s
  s.setProc p { s.procs p with live := false }

end State

/-- The calls. -/
inductive Call
  | openat (dirfd : ℤ) (path : CString) (omode : ℕ) (found : Option ℕ)
  | dup (fd : ℤ)
  | close (fd : ℤ)
  | pipe2 (pi : Option ℕ)
  | fork (fails : Bool)
  | exit

/-- A call of process `p`. -/
def State.call (s : State) (p : ℕ) : Call → State
  | .openat dirfd path omode found => (s.openat p dirfd path omode found).2
  | .dup fd => (s.dup p fd).2
  | .close fd => (s.close p fd).2
  | .pipe2 pi => (s.pipe2 p pi).2
  | .fork fails => (s.fork p fails).2
  | .exit => s.exit p

/-- A live process makes a call. -/
def next (s : State) (a : ℕ × Call) : Option State :=
  if (s.procs a.1).live then some (s.call a.1 a.2) else none

/-- A `pipe2` succeeds. -/
def PipeOk (s : State) (a : ℕ × Call) : Prop :=
  match a.2 with
  | .pipe2 pi => (s.pipe2 a.1 pi).1.1 = 0
  | _ => True

instance (s : State) (a : ℕ × Call) : Decidable (PipeOk s a) := by
  unfold PipeOk
  split <;> infer_instance

/-! ## What is claimed of it -/

/-- Descriptor `fd` of the live process `p` points to `f`. -/
def Points (procs : ℕ → Proc) (f p fd : ℕ) : Prop :=
  (procs p).live = true ∧ (procs p).files fd = some f

instance (procs : ℕ → Proc) (f p fd : ℕ) : Decidable (Points procs f p fd) :=
  inferInstanceAs (Decidable (_ ∧ _))

/-- The number of the pairs of a live process and a descriptor that points to `f`. -/
def pairs (s : State) (f : ℕ) : ℤ := countPairs s.nextPid openfile (Points s.procs f)

/-- From `s` to `t` exactly that has been closed, once, what lies under the files that have lost
    their last descriptor. -/
structure Closes (s t : State) (new : List (ℕ × Under)) : Prop where
  log : t.closed = s.closed ++ new
  nodup : new.Nodup
  mem : ∀ f u, (f, u) ∈ new ↔ 0 < pairs s f ∧ pairs t f = 0 ∧ s.made f = some u

/-! ## The invariant -/

variable {s t : State} {f g p fd ip : ℕ} {x : File} {u : Under}

/-- `ref` counts the descriptors. An entry without descriptors is empty, and the others are as the
    call that made them left them. -/
structure Inv (s : State) : Prop where
  refs : ∀ f, (s.files f).ref = pairs s f
  empty : ∀ f, (s.files f).ref = 0 → (s.files f).type = .none
  made : ∀ f, 0 < (s.files f).ref → under (s.files f) = s.made f ∧ (s.made f).isSome
  bound : ∀ f, 0 < (s.files f).ref → f < nfile
  unborn : ∀ p, s.nextPid ≤ p → (s.procs p).live = false
  dead : ∀ p fd, (s.procs p).live = false → fd < openfile → (s.procs p).files fd = none
  inodes : ∀ ip, s.inodeRefs ip =
    countIf nfile fun f => 0 < (s.files f).ref ∧ s.made f = some (.inode ip)

theorem Inv.pid_lt (h : Inv s) (hlive : (s.procs p).live = true) : p < s.nextPid := by
  by_contra hle
  rw [h.unborn p (not_lt.mp hle)] at hlive
  cases hlive

theorem pairs_nonneg : 0 ≤ pairs s f := countPairs_nonneg

/-- What a descriptor points to has a reference. -/
theorem Inv.ref_pos (h : Inv s) (hlive : (s.procs p).live = true) (hfd : fd < openfile)
    (hf : (s.procs p).files fd = some f) : 0 < (s.files f).ref := by
  rw [h.refs]
  exact countPairs_pos (h.pid_lt hlive) hfd ⟨hlive, hf⟩

theorem setFd_live {y : Option ℕ} (q : ℕ) : ((s.setFd p fd y).procs q).live = (s.procs q).live := by
  by_cases hq : q = p
  · subst hq
    show (Function.update s.procs q _ q).live = _
    rw [Function.update_self]
  · exact congrArg Proc.live (Function.update_of_ne hq _ _)

theorem setFd_self {y : Option ℕ} : ((s.setFd p fd y).procs p).files fd = y := by
  show (Function.update s.procs p _ p).files fd = y
  rw [Function.update_self]
  exact Function.update_self _ _ _

theorem setFd_of_ne {y : Option ℕ} {q i : ℕ} (hne : (q, i) ≠ (p, fd)) :
    ((s.setFd p fd y).procs q).files i = (s.procs q).files i := by
  by_cases hq : q = p
  · subst hq
    have hi : i ≠ fd := fun e => hne (by rw [e])
    show (Function.update s.procs q _ q).files i = _
    rw [Function.update_self]
    exact Function.update_of_ne hi _ _
  · exact congrArg (fun x : Proc => x.files i) (Function.update_of_ne hq _ _)

theorem setFile_self : (s.setFile f x).files f = x := Function.update_self _ _ _

theorem setFile_of_ne (hg : g ≠ f) : (s.setFile f x).files g = s.files g :=
  Function.update_of_ne hg _ _

/-- One descriptor changes. -/
theorem Inv.pairs_setFd {y : Option ℕ} (h : Inv s) (hlive : (s.procs p).live = true)
    (hfd : fd < openfile) (g : ℕ) :
    pairs (s.setFd p fd y) g =
      pairs s g - (if (s.procs p).files fd = some g then 1 else 0) + if y = some g then 1 else 0 := by
  have hchange := countPairs_change (P := Points s.procs g) (Q := Points (s.setFd p fd y).procs g)
    (h.pid_lt hlive) hfd fun q i hne => by
      unfold Points
      rw [setFd_live, setFd_of_ne hne]
  have hold : Points s.procs g p fd ↔ (s.procs p).files fd = some g := and_iff_right hlive
  have hnew : Points (s.setFd p fd y).procs g p fd ↔ y = some g := by
    unfold Points
    rw [setFd_live, setFd_self]
    exact and_iff_right hlive
  simp only [hold, hnew] at hchange
  exact hchange

/-- One descriptor changes, and with it entries of the file table. -/
theorem Inv.change {y : Option ℕ} (h : Inv s) (hlive : (s.procs p).live = true)
    (hfd : fd < openfile) (hprocs : t.procs = (s.setFd p fd y).procs)
    (hpid : t.nextPid = s.nextPid)
    (hrefs : ∀ g, (t.files g).ref = (s.files g).ref -
      (if (s.procs p).files fd = some g then 1 else 0) + if y = some g then 1 else 0)
    (hempty : ∀ g, (t.files g).ref = 0 → (t.files g).type = .none)
    (hmade : ∀ g, 0 < (t.files g).ref → under (t.files g) = t.made g ∧ (t.made g).isSome)
    (hbound : ∀ g, 0 < (t.files g).ref → g < nfile)
    (hinodes : ∀ ip, t.inodeRefs ip =
      countIf nfile fun g => 0 < (t.files g).ref ∧ t.made g = some (.inode ip)) :
    Inv t ∧ ∀ g, pairs t g = pairs s g - (if (s.procs p).files fd = some g then 1 else 0) +
      if y = some g then 1 else 0 := by
  have hpairs : ∀ g, pairs t g = pairs s g - (if (s.procs p).files fd = some g then 1 else 0) +
      if y = some g then 1 else 0 := by
    intro g
    rw [← h.pairs_setFd hlive hfd g]
    unfold pairs
    rw [hpid, hprocs]
    rfl
  refine ⟨⟨fun g => ?_, hempty, hmade, hbound, fun q hq => ?_, fun q i hq hi => ?_, hinodes⟩, hpairs⟩
  · rw [hpairs, hrefs, h.refs]
  · rw [hprocs, setFd_live]
    exact h.unborn q (by rwa [← hpid])
  · rw [hprocs, setFd_live] at hq
    rw [hprocs, setFd_of_ne]
    · exact h.dead q i hq hi
    · rintro e
      rw [(Prod.mk.inj e).1, hlive] at hq
      cases hq

/-! ## A descriptor more -/

theorem fileDup_of_pos (hpos : 0 < (s.files f).ref) :
    s.fileDup f = s.setFile f { s.files f with ref := (s.files f).ref + 1 } :=
  if_neg (by omega)

/-- `file_dup` counts one more reference and leaves the rest of the table as it is. -/
theorem fileDup_files (hpos : 0 < (s.files f).ref) (g : ℕ) :
    (s.fileDup f).files g =
      { s.files g with ref := (s.files g).ref + if f = g then 1 else 0 } := by
  rw [fileDup_of_pos hpos]
  by_cases hg : g = f
  · subst hg
    rw [if_pos rfl]
    exact Function.update_self _ _ _
  · rw [if_neg fun e => hg e.symm, add_zero]
    exact Function.update_of_ne hg _ _

/-- A free slot and the count of an open file. -/
theorem Inv.add (h : Inv s) (hlive : (s.procs p).live = true) (hfd : fd < openfile)
    (hfree : (s.procs p).files fd = none) (hpos : 0 < (s.files f).ref) :
    Inv ((s.fileDup f).setFd p fd (some f)) ∧
      ∀ g, pairs ((s.fileDup f).setFd p fd (some f)) g = pairs s g + if f = g then 1 else 0 := by
  have hfiles : ∀ g, ((s.fileDup f).setFd p fd (some f)).files g = _ := fileDup_files hpos
  have hsame : ∀ g, 0 < (((s.fileDup f).setFd p fd (some f)).files g).ref ↔
      0 < (s.files g).ref := by
    intro g
    rw [hfiles]
    by_cases hg : f = g
    · subst hg
      rw [if_pos rfl]
      dsimp only
      omega
    · rw [if_neg hg, add_zero]
  have hrest : s.fileDup f = { s with files := (s.fileDup f).files } := by
    rw [fileDup_of_pos hpos]
    rfl
  have hmade : ((s.fileDup f).setFd p fd (some f)).made = s.made := by
    rw [hrest]
    rfl
  have hchange := h.change (t := (s.fileDup f).setFd p fd (some f)) (y := some f) hlive hfd
    (by rw [hrest]; rfl) (by rw [hrest]; rfl) (fun g => ?_) (fun g hg => ?_) (fun g hg => ?_)
    (fun g hg => h.bound g ((hsame g).mp hg)) fun ip => ?_
  · refine ⟨hchange.1, fun g => ?_⟩
    rw [hchange.2, hfree, if_neg (Option.some_ne_none g).symm, sub_zero]
    simp only [Option.some.injEq]
  · rw [hfiles, hfree, if_neg (Option.some_ne_none g).symm, sub_zero]
    simp only [Option.some.injEq]
  · have hle := pairs_nonneg (s := s) (f := g)
    rw [← h.refs] at hle
    rw [hfiles] at hg ⊢
    dsimp only at hg ⊢
    exact h.empty g (by split_ifs at hg <;> omega)
  · rw [hfiles, hmade]
    exact h.made g ((hsame g).mp hg)
  · rw [hmade, show ((s.fileDup f).setFd p fd (some f)).inodeRefs = s.inodeRefs by rw [hrest]; rfl,
      h.inodes]
    exact (countIf_congr fun g _ => by rw [hsame]).symm

/-- A free slot and an entry that is set up. -/
theorem Inv.create (h : Inv s) (hlive : (s.procs p).live = true) (hfd : fd < openfile)
    (hfree : (s.procs p).files fd = none) (hzero : (s.files f).ref = 0) (hf : f < nfile)
    (hx : x.ref = 1) (hu : under x = some u) {r : ℕ → ℤ}
    (hr : ∀ ip, r ip = s.inodeRefs ip + if u = .inode ip then 1 else 0) {c : List (ℕ × Under)} :
    Inv { (s.setFile f x).setFd p fd (some f) with
        made := Function.update s.made f (some u), inodeRefs := r, closed := c } ∧
      ∀ g, pairs { (s.setFile f x).setFd p fd (some f) with
        made := Function.update s.made f (some u), inodeRefs := r, closed := c } g =
        pairs s g + if f = g then 1 else 0 := by
  set t : State := { (s.setFile f x).setFd p fd (some f) with
    made := Function.update s.made f (some u), inodeRefs := r, closed := c } with ht
  have hself : t.files f = x := Function.update_self _ _ _
  have hself' : t.made f = some u := Function.update_self _ _ _
  have hne : ∀ {g}, g ≠ f → t.files g = s.files g ∧ t.made g = s.made g := fun e =>
    ⟨Function.update_of_ne e _ _, Function.update_of_ne e _ _⟩
  have hchange := h.change (t := t) (y := some f) hlive hfd rfl rfl (fun g => ?_) (fun g hg => ?_)
    (fun g hg => ?_) (fun g hg => ?_) fun ip => ?_
  · refine ⟨hchange.1, fun g => ?_⟩
    rw [hchange.2, hfree, if_neg (Option.some_ne_none g).symm, sub_zero]
    simp only [Option.some.injEq]
  · rw [hfree, if_neg (Option.some_ne_none g).symm, sub_zero]
    by_cases e : g = f
    · rw [e, hself, hx, hzero, if_pos rfl, zero_add]
    · rw [(hne e).1, if_neg fun he => e (Option.some.inj he).symm, add_zero]
  · by_cases e : g = f
    · rw [e, hself, hx] at hg
      omega
    · rw [(hne e).1] at hg ⊢
      exact h.empty g hg
  · by_cases e : g = f
    · rw [e, hself, hself']
      exact ⟨hu, rfl⟩
    · rw [(hne e).1] at hg ⊢
      rw [(hne e).2]
      exact h.made g hg
  · by_cases e : g = f
    · rwa [e]
    · rw [(hne e).1] at hg
      exact h.bound g hg
  · have hcount := countIf_change (P := fun g => 0 < (s.files g).ref ∧ s.made g = some (.inode ip))
      (Q := fun g => 0 < (t.files g).ref ∧ t.made g = some (.inode ip)) hf fun g e => by
        rw [(hne e).1, (hne e).2]
    rw [hcount, if_neg fun hc => by omega, sub_zero, hself, hself', hx, ← h.inodes]
    simp only [Option.some.injEq, zero_lt_one, true_and]
    exact hr ip

/-! ## A descriptor less -/

/-- `file_close` of a file with more references. -/
theorem fileClose_more (hpos : 1 < (s.files f).ref) :
    s.fileClose f = s.setFile f { s.files f with ref := (s.files f).ref - 1 } := by
  unfold State.fileClose
  refine if_neg ?_
  show (Function.update s.files f _ f).ref ≠ 0
  rw [Function.update_self]
  dsimp only
  omega

/-- `file_close` of the last reference. -/
theorem fileClose_last (hone : (s.files f).ref = 1) (hu : under (s.files f) = some u) :
    ∃ r : ℕ → ℤ, (∀ ip, r ip = s.inodeRefs ip - if u = .inode ip then 1 else 0) ∧
      s.fileClose f =
        { s.setFile f File.zero with inodeRefs := r, closed := s.closed ++ [(f, u)] } := by
  have heq : s.fileClose f = (s.setFile f File.zero).closeUnder f
      { s.files f with ref := (s.files f).ref - 1 } := by
    unfold State.fileClose
    simp only [State.setFile, Function.update_self, Function.update_idem]
    rw [if_pos (by omega)]
  have hu' : under { s.files f with ref := (s.files f).ref - 1 } = some u := hu
  rw [heq]
  unfold State.closeUnder
  rw [hu']
  cases u with
  | pipe pi writable => exact ⟨s.inodeRefs, fun ip => by simp, rfl⟩
  | inode ip =>
    refine ⟨Function.update s.inodeRefs ip (s.inodeRefs ip - 1), fun jp => ?_, rfl⟩
    by_cases hj : jp = ip
    · subst hj
      rw [Function.update_self, if_pos rfl]
    · rw [Function.update_of_ne hj, if_neg fun e => hj (Under.inode.inj e).symm, sub_zero]

/-- `file_close` and a slot that is cleared. -/
theorem Inv.drop (h : Inv s) (hlive : (s.procs p).live = true) (hfd : fd < openfile)
    (hslot : (s.procs p).files fd = some f) :
    Inv ((s.fileClose f).setFd p fd none) ∧
      (∀ g, pairs ((s.fileClose f).setFd p fd none) g = pairs s g - if f = g then 1 else 0) ∧
      ((s.fileClose f).setFd p fd none).made = s.made ∧
      ∃ new, Closes s ((s.fileClose f).setFd p fd none) new := by
  have hpos := h.ref_pos hlive hfd hslot
  obtain ⟨hunder, hsome⟩ := h.made f hpos
  obtain ⟨u, hu⟩ := Option.isSome_iff_exists.mp hsome
  by_cases hone : (s.files f).ref = 1
  · obtain ⟨r, hr, heq⟩ := fileClose_last hone (hunder.trans hu)
    rw [heq]
    set t : State := State.setFd { s.setFile f File.zero with
      inodeRefs := r, closed := s.closed ++ [(f, u)] } p fd none with ht
    have hself : t.files f = File.zero := Function.update_self _ _ _
    have hne : ∀ {g}, g ≠ f → t.files g = s.files g := fun e => Function.update_of_ne e _ _
    have hgone : ∀ {g}, 0 < (t.files g).ref → g ≠ f := by
      rintro g hg rfl
      rw [hself] at hg
      exact absurd hg (lt_irrefl 0)
    have hchange := h.change (t := t) (y := none) hlive hfd rfl rfl (fun g => ?_) (fun g hg => ?_)
      (fun g hg => ?_) (fun g hg => ?_) fun ip => ?_
    · have hpairs : ∀ g, pairs t g = pairs s g - if f = g then 1 else 0 := by
        intro g
        rw [hchange.2, hslot, if_neg (Option.some_ne_none g).symm, add_zero]
        simp only [Option.some.injEq]
      refine ⟨hchange.1, hpairs, rfl, [(f, u)], rfl, List.nodup_singleton _, fun g v => ?_⟩
      rw [List.mem_singleton, Prod.mk.injEq, hpairs, ← h.refs]
      constructor
      · rintro ⟨rfl, rfl⟩
        rw [hone, if_pos rfl]
        exact ⟨zero_lt_one, sub_self 1, hu⟩
      · rintro ⟨h1, h2, h3⟩
        obtain rfl : g = f := by
          by_contra e
          rw [if_neg fun e' => e e'.symm] at h2
          omega
        exact ⟨rfl, Option.some.inj (h3.symm.trans hu)⟩
    · rw [hslot, if_neg (Option.some_ne_none g).symm, add_zero]
      by_cases e : g = f
      · rw [e, hself, hone, if_pos rfl]
        rfl
      · rw [hne e, if_neg fun he => e (Option.some.inj he).symm, sub_zero]
    · by_cases e : g = f
      · rw [e, hself]
        rfl
      · rw [hne e] at hg ⊢
        exact h.empty g hg
    · have e := hgone hg
      rw [hne e] at hg ⊢
      exact h.made g hg
    · have e := hgone hg
      rw [hne e] at hg
      exact h.bound g hg
    · have hcount := countIf_change (P := fun g => 0 < (s.files g).ref ∧ s.made g = some (.inode ip))
        (Q := fun g => 0 < (t.files g).ref ∧ s.made g = some (.inode ip)) (h.bound f hpos)
        fun g e => by rw [hne e]
      show r ip = countIf nfile fun g => 0 < (t.files g).ref ∧ s.made g = some (.inode ip)
      have hnot : ¬ (0 < (t.files f).ref ∧ s.made f = some (.inode ip)) := fun hc => hgone hc.1 rfl
      rw [hcount, if_neg hnot, add_zero, hr, h.inodes, hone, hu]
      simp only [Option.some.injEq, zero_lt_one, true_and]
  · rw [fileClose_more (by omega)]
    set t : State := State.setFd (s.setFile f { s.files f with ref := (s.files f).ref - 1 }) p fd
      none with ht
    have hfiles : ∀ g, t.files g =
        { s.files g with ref := (s.files g).ref - if f = g then 1 else 0 } := by
      intro g
      by_cases hg : g = f
      · subst hg
        rw [if_pos rfl]
        exact Function.update_self _ _ _
      · rw [if_neg fun e => hg e.symm, sub_zero]
        exact Function.update_of_ne hg _ _
    have hsame : ∀ g, 0 < (t.files g).ref ↔ 0 < (s.files g).ref := by
      intro g
      rw [hfiles]
      by_cases hg : f = g
      · subst hg
        rw [if_pos rfl]
        dsimp only
        omega
      · rw [if_neg hg, sub_zero]
    have hchange := h.change (t := t) (y := none) hlive hfd rfl rfl (fun g => ?_) (fun g hg => ?_)
      (fun g hg => ?_) (fun g hg => h.bound g ((hsame g).mp hg)) fun ip => ?_
    · have hpairs : ∀ g, pairs t g = pairs s g - if f = g then 1 else 0 := by
        intro g
        rw [hchange.2, hslot, if_neg (Option.some_ne_none g).symm, add_zero]
        simp only [Option.some.injEq]
      refine ⟨hchange.1, hpairs, rfl, [], (List.append_nil _).symm, List.nodup_nil, fun g v => ?_⟩
      refine iff_of_false List.not_mem_nil ?_
      rintro ⟨h1, h2, -⟩
      rw [← h.refs] at h1
      rw [← hchange.1.refs] at h2
      exact absurd ((hsame g).mpr h1) (by rw [h2]; exact lt_irrefl 0)
    · rw [hfiles, hslot, if_neg (Option.some_ne_none g).symm, add_zero]
      simp only [Option.some.injEq]
    · have hg' : ¬ 0 < (s.files g).ref := fun hlt => by
        have := (hsame g).mpr hlt
        omega
      have hle := pairs_nonneg (s := s) (f := g)
      rw [← h.refs] at hle
      rw [hfiles]
      exact h.empty g (by omega)
    · rw [hfiles]
      exact h.made g ((hsame g).mp hg)
    · show s.inodeRefs ip = countIf nfile fun g => 0 < (t.files g).ref ∧ s.made g = some (.inode ip)
      rw [h.inodes]
      exact (countIf_congr fun g _ => by rw [hsame]).symm

/-! ## Searches -/

theorem findFd_spec {files : ℕ → Option ℕ} {n i : ℕ} (h : findFd files n i = some fd) :
    files fd = none ∧ i ≤ fd ∧ fd < i + n := by
  induction n generalizing i with
  | zero => cases h
  | succ n ih =>
    unfold findFd at h
    split_ifs at h with hi
    · cases h
      exact ⟨hi, le_rfl, by omega⟩
    · obtain ⟨h1, h2, h3⟩ := ih h
      exact ⟨h1, by omega, by omega⟩

theorem fileAlloc_cases : (s.fileAlloc = (none, s)) ∨ ∃ f, (s.files f).ref = 0 ∧ f < nfile ∧
    s.fileAlloc = (some f, s.setFile f { s.files f with ref := 1 }) := by
  unfold State.fileAlloc
  cases hf : findFree s.files nfile 0 with
  | none => exact .inl rfl
  | some f =>
    obtain ⟨h1, -, h2⟩ := findFree_spec hf
    exact .inr ⟨f, h1, by omega, rfl⟩

theorem fdalloc_cases (p f : ℕ) : (s.fdalloc p f = (none, s)) ∨
    ∃ fd, (s.procs p).files fd = none ∧ fd < openfile ∧
      s.fdalloc p f = (some fd, s.setFd p fd (some f)) := by
  unfold State.fdalloc
  cases hf : findFd (s.procs p).files openfile 0 with
  | none => exact .inl rfl
  | some fd =>
    obtain ⟨h1, -, h2⟩ := findFd_spec hf
    exact .inr ⟨fd, h1, by omega, rfl⟩

theorem fd2file_cases {n : ℤ} (h : s.fd2file p n = some f) :
    n.toNat < openfile ∧ (s.procs p).files n.toNat = some f := by
  unfold State.fd2file at h
  split_ifs at h with hn
  exact ⟨by omega, h⟩

/-! ## The calls -/

/-- Nothing is closed, and no file loses a descriptor. -/
theorem closes_nil (hlog : t.closed = s.closed) (hle : ∀ f, pairs s f ≤ pairs t f) :
    Closes s t [] := by
  refine ⟨by rw [hlog, List.append_nil], List.nodup_nil, fun f u => ?_⟩
  refine iff_of_false List.not_mem_nil ?_
  rintro ⟨h1, h2, -⟩
  have := hle f
  omega

theorem closes_refl : Closes s s [] := closes_nil rfl fun _ => le_rfl

/-- One call after the other, when no file gets a descriptor. -/
theorem Closes.trans {u : State} {new new' : List (ℕ × Under)} (h : Closes s t new)
    (h' : Closes t u new') (hmade : t.made = s.made) (hle : ∀ f, pairs t f ≤ pairs s f)
    (hle' : ∀ f, pairs u f ≤ pairs t f) : Closes s u (new ++ new') := by
  refine ⟨by rw [h'.log, h.log, List.append_assoc], ?_, fun f v => ?_⟩
  · refine List.nodup_append.mpr ⟨h.nodup, h'.nodup, ?_⟩
    rintro ⟨f, v⟩ hv _ hv' rfl
    have h1 := ((h.mem f v).mp hv).2.1
    have h2 := ((h'.mem f v).mp hv').1
    omega
  · have h0 := pairs_nonneg (s := u) (f := f)
    have h1 := hle f
    have h2 := hle' f
    rw [List.mem_append, h.mem, h'.mem, hmade]
    constructor
    · rintro (⟨e1, e2, e3⟩ | ⟨e1, e2, e3⟩)
      · exact ⟨e1, by omega, e3⟩
      · exact ⟨by omega, e2, e3⟩
    · rintro ⟨e1, e2, e3⟩
      by_cases hz : pairs t f = 0
      · exact .inl ⟨e1, hz, e3⟩
      · exact .inr ⟨by omega, e2, e3⟩

/-- What a call does to the descriptors. -/
structure Good (s t : State) : Prop where
  inv : Inv t
  closes : ∃ new, Closes s t new

theorem Inv.same (h : Inv s) : Good s s := ⟨h, [], closes_refl⟩

theorem Inv.dup (h : Inv s) (hlive : (s.procs p).live = true) (n : ℤ) : Good s (s.dup p n).2 := by
  unfold State.dup
  cases hf : s.fd2file p n with
  | none => exact h.same
  | some f =>
    obtain ⟨hn, hslot⟩ := fd2file_cases hf
    dsimp only
    rcases fdalloc_cases (s := s) p f with hnone | ⟨fd, hfree, hfd, heq⟩
    · rw [hnone]
      exact h.same
    · rw [heq]
      have hpos := h.ref_pos hlive hn hslot
      have hcomm : (s.setFd p fd (some f)).fileDup f = (s.fileDup f).setFd p fd (some f) := by
        rw [fileDup_of_pos hpos]
        exact fileDup_of_pos hpos
      obtain ⟨hi, hpairs⟩ := h.add hlive hfd hfree hpos
      dsimp only
      rw [hcomm]
      refine ⟨hi, [], closes_nil ?_ fun g => ?_⟩
      · rw [fileDup_of_pos hpos]
        rfl
      · rw [hpairs]
        split_ifs <;> omega

/-- The slot and the count of a descriptor can be given up in any order. -/
theorem setFd_fileClose {y : Option ℕ} :
    (s.setFd p fd y).fileClose f = (s.fileClose f).setFd p fd y := by
  unfold State.fileClose State.closeUnder
  simp only [State.setFd, State.setProc, State.setFile, Function.update_self]
  split
  · split <;> rfl
  · rfl

theorem Inv.close (h : Inv s) (hlive : (s.procs p).live = true) (n : ℤ) :
    Good s (s.close p n).2 := by
  unfold State.close
  cases hf : s.fd2file p n with
  | none => exact h.same
  | some f =>
    obtain ⟨hn, hslot⟩ := fd2file_cases hf
    dsimp only
    rw [setFd_fileClose]
    obtain ⟨hi, -, -, hnew⟩ := h.drop hlive hn hslot
    exact ⟨hi, hnew⟩

/-! ### `openat` and `pipe2` -/

theorem put_grab (s : State) (ip : ℕ) : (s.grab ip).put ip = s := by
  unfold State.put State.grab
  simp only [Function.update_self, Function.update_idem, add_sub_cancel_right,
    Function.update_eq_self]

/-- An unused entry is zeroed. -/
theorem Inv.zero (h : Inv s) (hzero : (s.files f).ref = 0) : Inv (s.setFile f File.zero) := by
  have href : ∀ g, ((s.setFile f File.zero).files g).ref = (s.files g).ref := by
    intro g
    by_cases e : g = f
    · subst e
      rw [hzero, setFile_self]
      rfl
    · rw [setFile_of_ne e]
  have hne : ∀ {g}, 0 < (s.files g).ref → (s.setFile f File.zero).files g = s.files g := by
    rintro g hg
    refine setFile_of_ne ?_
    rintro rfl
    omega
  refine ⟨fun g => (href g).trans (h.refs g), fun g hg => ?_, fun g hg => ?_, fun g hg => ?_,
    h.unborn, h.dead, fun ip => ?_⟩
  · by_cases e : g = f
    · rw [e, setFile_self]
      rfl
    · rw [setFile_of_ne e] at hg ⊢
      exact h.empty g hg
  · rw [href] at hg
    rw [hne hg]
    exact h.made g hg
  · rw [href] at hg
    exact h.bound g hg
  · rw [show (s.setFile f File.zero).inodeRefs = s.inodeRefs from rfl, h.inodes]
    exact (countIf_congr fun g _ => by rw [href]; rfl).symm

/-- `file_close` of an entry that has just been allocated. -/
theorem fileClose_fresh (ht : (s.files f).type = .none) :
    (s.setFile f { s.files f with ref := 1 }).fileClose f = s.setFile f File.zero := by
  unfold State.fileClose
  simp only [State.setFile, Function.update_self, Function.update_idem]
  rw [if_pos (by omega)]
  unfold State.closeUnder under
  dsimp only
  rw [ht]

theorem Inv.openat (h : Inv s) (hlive : (s.procs p).live = true) (dirfd : ℤ) (path : CString)
    (omode : ℕ) (found : Option ℕ) : Good s (s.openat p dirfd path omode found).2 := by
  unfold State.openat
  split_ifs
  · exact h.same
  · exact h.same
  cases found with
  | none => exact h.same
  | some ip =>
    dsimp only
    unfold State.openatFile
    rcases fileAlloc_cases (s := s.grab ip) with hnone | ⟨f, hzero, hf, heq⟩
    · rw [hnone]
      dsimp only
      rw [put_grab]
      exact h.same
    rw [heq]
    dsimp only
    have hzero : (s.files f).ref = 0 := hzero
    rcases fdalloc_cases (s := (s.grab ip).setFile f { (s.grab ip).files f with ref := 1 }) p f with
      hnone | ⟨fd, hfree, hfd, heq'⟩
    · rw [hnone]
      dsimp only
      rw [fileClose_fresh (s := s.grab ip) (h.empty f hzero)]
      have hput : ((s.grab ip).setFile f File.zero).put ip = s.setFile f File.zero :=
        congrArg (fun x : State => x.setFile f File.zero) (put_grab s ip)
      rw [hput]
      exact ⟨h.zero hzero, [], closes_nil rfl fun _ => le_rfl⟩
    · rw [heq']
      dsimp only
      have hr : ∀ jp, Function.update s.inodeRefs ip (s.inodeRefs ip + 1) jp =
          s.inodeRefs jp + if Under.inode ip = .inode jp then 1 else 0 := by
        intro jp
        by_cases e : jp = ip
        · subst e
          rw [Function.update_self, if_pos rfl]
        · rw [Function.update_of_ne e, if_neg fun e' => e (Under.inode.inj e').symm, add_zero]
      obtain ⟨hi, hpairs⟩ := h.create (x := { s.files f with
          type := .inode, ref := 1, ip := ip, off := 0, readable := !hasFlag omode oWronly,
          writable := hasFlag omode oWronly || hasFlag omode oRdwr }) (u := .inode ip)
        (c := s.closed) hlive hfd hfree hzero hf rfl rfl hr
      convert (⟨hi, [], closes_nil rfl fun g => ?_⟩ : Good s _) using 1
      · simp only [State.setFile, State.setFd, State.setProc, State.grab, Function.update_self,
          Function.update_idem]
      · rw [hpairs]
        split_ifs <;> omega

/-- An entry that `init_read_pipe` or `init_write_pipe` has set up (pipe.c:22-39). -/
def pipeEnd (x : File) (pi : ℕ) (writable : Bool) : File :=
  { x with type := .pipe, ref := 1, readable := !writable, writable := writable, ip := pi }

theorem pipeAlloc_cases (s : State) (pi : Option ℕ) :
    (∃ t, s.pipeAlloc pi = (none, t)) ∨ ∃ f0 f1 pipe, (s.files f0).ref = 0 ∧
      (s.files f1).ref = 0 ∧ f1 ≠ f0 ∧ f0 < nfile ∧ f1 < nfile ∧
      s.pipeAlloc pi = (some (f0, f1),
        { (s.setFile f0 (pipeEnd (s.files f0) pipe false)).setFile f1
            (pipeEnd (s.files f1) pipe true) with
          made := Function.update (Function.update s.made f0 (some (.pipe pipe false))) f1
            (some (.pipe pipe true)) }) := by
  unfold State.pipeAlloc
  rcases fileAlloc_cases (s := s) with h0 | ⟨f0, hz0, hf0, h0⟩
  · rw [h0]
    exact .inl ⟨s, rfl⟩
  rw [h0]
  dsimp only
  rcases fileAlloc_cases (s := s.setFile f0 { s.files f0 with ref := 1 }) with h1 | ⟨f1, hz1, hf1, h1⟩
  · rw [h1]
    exact .inl ⟨_, rfl⟩
  rw [h1]
  dsimp only
  have hne : f1 ≠ f0 := by
    rintro rfl
    rw [setFile_self] at hz1
    cases hz1
  rw [setFile_of_ne hne] at hz1 ⊢
  cases pi with
  | none => exact .inl ⟨_, rfl⟩
  | some pipe =>
    refine .inr ⟨f0, f1, pipe, hz0, hz1, hne, hf0, hf1, ?_⟩
    dsimp only
    simp only [State.setFile, Function.update_self, Function.update_of_ne hne,
      Function.update_of_ne hne.symm]
    rw [Function.update_comm hne, Function.update_idem, Function.update_idem]
    rfl

theorem Inv.pipe2 (h : Inv s) (hlive : (s.procs p).live = true) {pi : Option ℕ}
    (hok : (s.pipe2 p pi).1.1 = 0) : Good s (s.pipe2 p pi).2 := by
  unfold State.pipe2 at hok ⊢
  rcases pipeAlloc_cases s pi with ⟨t, hnone⟩ | ⟨f0, f1, pipe, hz0, hz1, hne, hf0, hf1, heq⟩
  · rw [hnone] at hok
    cases hok
  rw [heq] at hok ⊢
  dsimp only at hok ⊢
  set a : State := { (s.setFile f0 (pipeEnd (s.files f0) pipe false)).setFile f1
      (pipeEnd (s.files f1) pipe true) with
    made := Function.update (Function.update s.made f0 (some (.pipe pipe false))) f1
      (some (.pipe pipe true)) } with ha
  rcases fdalloc_cases (s := a) p f0 with hnone | ⟨fd0, hfree0, hfd0, heq0⟩
  · rw [hnone] at hok
    cases hok
  rw [heq0] at hok ⊢
  dsimp only at hok ⊢
  rcases fdalloc_cases (s := a.setFd p fd0 (some f0)) p f1 with h1 | ⟨fd1, hfree1, hfd1, h1⟩
  · rw [h1] at hok
    cases hok
  rw [h1]
  dsimp only
  -- the read end first, then the write end
  obtain ⟨hi0, hpairs0⟩ := h.create (x := pipeEnd (s.files f0) pipe false) (u := .pipe pipe false)
    (r := s.inodeRefs) (c := s.closed) hlive hfd0 hfree0 hz0 hf0 rfl rfl fun ip => by simp
  set b : State := { (s.setFile f0 (pipeEnd (s.files f0) pipe false)).setFd p fd0 (some f0) with
    made := Function.update s.made f0 (some (.pipe pipe false))
    inodeRefs := s.inodeRefs
    closed := s.closed } with hb
  have hb1 : b.files f1 = s.files f1 := setFile_of_ne hne
  have hblive : (b.procs p).live = true := (setFd_live p).trans hlive
  obtain ⟨hi1, hpairs1⟩ := hi0.create (x := pipeEnd (s.files f1) pipe true)
    (u := .pipe pipe true) (r := s.inodeRefs) (c := s.closed) hblive hfd1 hfree1
    (by rw [hb1]; exact hz1) hf1 rfl rfl fun ip => by simp [hb]
  refine ⟨hi1, [], closes_nil rfl fun g => ?_⟩
  refine le_trans ?_ (hpairs1 g).ge
  rw [hpairs0]
  split_ifs <;> omega

/-! ### `fork` and `exit` -/

theorem setProc_self {y : Proc} : (s.setProc p y).procs p = y := Function.update_self _ _ _

theorem setProc_of_ne {y : Proc} {q : ℕ} (hq : q ≠ p) : (s.setProc p y).procs q = s.procs q :=
  Function.update_of_ne hq _ _

/-- A new process has no descriptors. -/
theorem Inv.newProc (h : Inv s) :
    Inv { s.setProc s.nextPid ⟨true, fun _ => none⟩ with nextPid := s.nextPid + 1 } ∧
      ∀ g, pairs { s.setProc s.nextPid ⟨true, fun _ => none⟩ with nextPid := s.nextPid + 1 } g =
        pairs s g := by
  set t : State := { s.setProc s.nextPid ⟨true, fun _ => none⟩ with nextPid := s.nextPid + 1 } with ht
  have hself : t.procs s.nextPid = ⟨true, fun _ => none⟩ := setProc_self
  have hne : ∀ {q}, q ≠ s.nextPid → t.procs q = s.procs q := fun e => setProc_of_ne e
  have hpairs : ∀ g, pairs t g = pairs s g := by
    intro g
    refine countPairs_extend (by decide) (fun q i hq _ => ?_) fun q i hq => ?_
    · unfold Points
      rw [hne hq.ne]
    · unfold Points
      by_cases e : q = s.nextPid
      · rw [e, hself]
        exact fun hc => Option.some_ne_none g hc.2.symm
      · rw [hne e, h.unborn q hq]
        exact fun hc => Bool.false_ne_true hc.1
  refine ⟨⟨fun g => (h.refs g).trans (hpairs g).symm, h.empty, h.made, h.bound, fun q hq => ?_,
    fun q i hq hi => ?_, h.inodes⟩, hpairs⟩
  · have hle : s.nextPid + 1 ≤ q := hq
    rw [hne (by omega)]
    exact h.unborn q (by omega)
  · by_cases e : q = s.nextPid
    · rw [e, hself] at hq
      cases hq
    · rw [hne e] at hq ⊢
      exact h.dead q i hq hi

/-- The loop of `fork`: the child gets the descriptors of `p`. -/
theorem Inv.forkLoop {child : ℕ} {l : List ℕ} (h : Inv s) (hp : (s.procs p).live = true)
    (hc : (s.procs child).live = true) (hl : l.Nodup)
    (hlt : ∀ i ∈ l, i < openfile) (hfree : ∀ i ∈ l, (s.procs child).files i = none) :
    Inv (l.foldl (State.forkFd p child) s) ∧
      (l.foldl (State.forkFd p child) s).closed = s.closed ∧
      ∀ g, pairs s g ≤ pairs (l.foldl (State.forkFd p child) s) g := by
  induction l generalizing s with
  | nil => exact ⟨h, rfl, fun _ => le_rfl⟩
  | cons i l ih =>
    obtain ⟨hnot, hl⟩ := List.nodup_cons.mp hl
    rw [List.foldl_cons]
    cases hf : (s.procs p).files i with
    | none =>
      rw [show State.forkFd p child s i = s by unfold State.forkFd; rw [hf]]
      exact ih h hp hc hl (fun j hj => hlt j (List.mem_cons_of_mem i hj)) fun j hj =>
        hfree j (List.mem_cons_of_mem i hj)
    | some f =>
      rw [show State.forkFd p child s i = (s.fileDup f).setFd child i (some f) by
        unfold State.forkFd; rw [hf]]
      have hi := hlt i List.mem_cons_self
      have hpos := h.ref_pos hp hi hf
      obtain ⟨hinv, hpairs⟩ := h.add hc hi (hfree i List.mem_cons_self) hpos
      have hprocs : (s.fileDup f).procs = s.procs ∧ (s.fileDup f).closed = s.closed := by
        rw [fileDup_of_pos hpos]
        exact ⟨rfl, rfl⟩
      obtain ⟨h1, h2, h3⟩ := ih hinv (by rw [setFd_live, hprocs.1]; exact hp)
        (by rw [setFd_live, hprocs.1]; exact hc) hl
        (fun j hj => hlt j (List.mem_cons_of_mem i hj)) fun j hj => by
          rw [setFd_of_ne fun e => hnot (by rw [← (Prod.mk.inj e).2]; exact hj), hprocs.1]
          exact hfree j (List.mem_cons_of_mem i hj)
      refine ⟨h1, h2.trans hprocs.2, fun g => le_trans ?_ (h3 g)⟩
      rw [hpairs]
      split_ifs <;> omega

theorem Inv.fork (h : Inv s) (hlive : (s.procs p).live = true) (fails : Bool) :
    Good s (s.fork p fails).2 := by
  unfold State.fork
  split_ifs
  · exact h.same
  have hne : p ≠ s.nextPid := (h.pid_lt hlive).ne
  obtain ⟨hinv, hpairs⟩ := h.newProc
  have hchild : ({ s.setProc s.nextPid ⟨true, fun _ => none⟩ with
      nextPid := s.nextPid + 1 } : State).procs s.nextPid = ⟨true, fun _ => none⟩ := setProc_self
  obtain ⟨h1, h2, h3⟩ := hinv.forkLoop (p := p) (l := List.range openfile)
    ((congrArg Proc.live (setProc_of_ne hne)).trans hlive) (congrArg Proc.live hchild)
    List.nodup_range (fun i hi => List.mem_range.mp hi) fun i _ => by rw [hchild]
  exact ⟨h1, [], closes_nil h2 fun g => (hpairs g).ge.trans (h3 g)⟩

/-- The loop of `exit` gives up all descriptors of `p`. -/
theorem Inv.exitLoop {l : List ℕ} (h : Inv s) (hlive : (s.procs p).live = true)
    (hlt : ∀ i ∈ l, i < openfile) :
    Inv (l.foldl (State.exitFd p) s) ∧ ((l.foldl (State.exitFd p) s).procs p).live = true ∧
      (l.foldl (State.exitFd p) s).made = s.made ∧
      (∃ new, Closes s (l.foldl (State.exitFd p) s) new) ∧
      (∀ g, pairs (l.foldl (State.exitFd p) s) g ≤ pairs s g) ∧
      ∀ i, i ∈ l ∨ (s.procs p).files i = none →
        ((l.foldl (State.exitFd p) s).procs p).files i = none := by
  induction l generalizing s with
  | nil =>
    exact ⟨h, hlive, rfl, ⟨[], closes_refl⟩, fun _ => le_rfl, fun i hi => hi.resolve_left
      List.not_mem_nil⟩
  | cons i l ih =>
    rw [List.foldl_cons]
    have hlt' : ∀ j ∈ l, j < openfile := fun j hj => hlt j (List.mem_cons_of_mem i hj)
    cases hf : (s.procs p).files i with
    | none =>
      rw [show State.exitFd p s i = s by unfold State.exitFd; rw [hf]]
      obtain ⟨h1, h2, h3, h4, h5, h6⟩ := ih h hlive hlt'
      refine ⟨h1, h2, h3, h4, h5, fun j hj => h6 j ?_⟩
      rcases hj with hj | hj
      · rcases List.mem_cons.mp hj with rfl | hj
        · exact .inr hf
        · exact .inl hj
      · exact .inr hj
    | some f =>
      rw [show State.exitFd p s i = (s.fileClose f).setFd p i none by
        unfold State.exitFd; rw [hf]]
      obtain ⟨hinv, hpairs, hmade, new, hnew⟩ := h.drop hlive (hlt i List.mem_cons_self) hf
      have hle : ∀ g, pairs ((s.fileClose f).setFd p i none) g ≤ pairs s g := by
        intro g
        rw [hpairs]
        split_ifs <;> omega
      have hprocs : (s.fileClose f).procs = s.procs := by
        unfold State.fileClose State.closeUnder
        dsimp only
        split
        · split <;> rfl
        · rfl
      obtain ⟨h1, h2, h3, ⟨new', h4⟩, h5, h6⟩ := ih hinv
        (by rw [setFd_live, hprocs]; exact hlive) hlt'
      refine ⟨h1, h2, h3.trans hmade, ⟨new ++ new', hnew.trans h4 hmade hle h5⟩,
        fun g => (h5 g).trans (hle g), fun j hj => h6 j ?_⟩
      by_cases hji : j = i
      · rw [hji]
        exact .inr setFd_self
      · rcases hj with hj | hj
        · exact .inl ((List.mem_cons.mp hj).resolve_left hji)
        · rw [setFd_of_ne fun e => hji (Prod.mk.inj e).2, hprocs]
          exact .inr hj

theorem Inv.exit (h : Inv s) (hlive : (s.procs p).live = true) : Good s (s.exit p) := by
  obtain ⟨hinv, -, -, ⟨new, hnew⟩, -, hnone⟩ := h.exitLoop (l := List.range openfile) hlive
    fun i hi => List.mem_range.mp hi
  unfold State.exit
  dsimp only
  set t := (List.range openfile).foldl (State.exitFd p) s with ht
  have hclear : ∀ i, i < openfile → (t.procs p).files i = none := fun i hi =>
    hnone i (.inl (List.mem_range.mpr hi))
  have hself : (t.setProc p { t.procs p with live := false }).procs p =
      { t.procs p with live := false } := setProc_self
  have hne : ∀ {q}, q ≠ p → (t.setProc p { t.procs p with live := false }).procs q = t.procs q :=
    fun e => setProc_of_ne e
  have hpairs : ∀ g, pairs (t.setProc p { t.procs p with live := false }) g = pairs t g := by
    intro g
    refine countPairs_congr (by decide) fun q i _ hi => ?_
    unfold Points
    by_cases e : q = p
    · rw [e, hself, hclear i hi]
      exact iff_of_false (fun hc => Bool.false_ne_true hc.1) fun hc => Option.some_ne_none g hc.2.symm
    · rw [hne e]
  refine ⟨⟨fun g => (hinv.refs g).trans (hpairs g).symm, hinv.empty, hinv.made, hinv.bound,
    fun q hq => ?_, fun q i hq hi => ?_, hinv.inodes⟩, new, hnew.log, hnew.nodup, fun g u => ?_⟩
  · by_cases e : q = p
    · rw [e, hself]
    · rw [hne e]
      exact hinv.unborn q hq
  · by_cases e : q = p
    · rw [e, hself]
      exact hclear i hi
    · rw [hne e] at hq ⊢
      exact hinv.dead q i hq hi
  · rw [hpairs]
    exact hnew.mem g u

/-! ## Runs -/

theorem inv_initState (n : ℕ) : Inv (initState n) where
  refs f := (countIf_none fun _ _ hc => Option.some_ne_none f hc.2.symm).symm
  empty _ _ := rfl
  made _ hf := absurd hf (lt_irrefl 0)
  bound _ hf := absurd hf (lt_irrefl 0)
  unborn _ hp := decide_eq_false (not_lt.mpr hp)
  dead _ _ _ _ := rfl
  inodes _ := (countIf_none fun _ _ hc => lt_irrefl 0 hc.1).symm

/-- Every call keeps the count, and closes what has lost its last descriptor. -/
theorem Inv.preserved (h : Inv s) {a : ℕ × Call} (hok : PipeOk s a) (hn : next s a = some t) :
    Good s t := by
  unfold Descriptors.next at hn
  split_ifs at hn with hlive
  cases hn
  obtain ⟨p, c⟩ := a
  cases c with
  | openat dirfd path omode found => exact h.openat hlive dirfd path omode found
  | dup fd => exact h.dup hlive fd
  | close fd => exact h.close hlive fd
  | pipe2 pi => exact h.pipe2 hlive hok
  | fork fails => exact h.fork hlive fails
  | exit => exact h.exit hlive

theorem inv_of_run {n : ℕ} (h : Run Descriptors.next PipeOk (initState n) s) : Inv s :=
  h.invariant (inv_initState n) fun _ _ _ hi hok hn => (hi.preserved hok hn).inv

/-- After every call `ref` counts the descriptors, an entry with `ref` 0 has none, every other one
    is open on what its call put under it, and the next call closes exactly what loses its last
    descriptor. -/
theorem descriptors_accounted {n : ℕ} (h : Run next PipeOk (initState n) s) :
    (∀ f, (s.files f).ref = pairs s f) ∧
      (∀ f, (s.files f).ref = 0 → ∀ p fd, fd < openfile → (s.procs p).files fd ≠ some f) ∧
      (∀ f, 0 < pairs s f → under (s.files f) = s.made f ∧ (s.made f).isSome) ∧
      (∀ ip, s.inodeRefs ip = countIf nfile fun f => 0 < pairs s f ∧ s.made f = some (.inode ip)) ∧
      ∀ a t, PipeOk s a → next s a = some t → ∃ new, Closes s t new := by
  have hi := inv_of_run h
  refine ⟨hi.refs, fun f hf p fd hfd hslot => ?_, fun f hf => hi.made f ?_, fun ip => ?_,
    fun a t hok hn => (hi.preserved hok hn).closes⟩
  · cases hlive : (s.procs p).live with
    | true => exact absurd (hi.ref_pos hlive hfd hslot) (by rw [hf]; exact lt_irrefl 0)
    | false =>
      rw [hi.dead p fd hlive hfd] at hslot
      cases hslot
  · rwa [hi.refs]
  · rw [hi.inodes]
    exact countIf_congr fun f _ => by rw [hi.refs]

/-- A file and a pipe, a child, and a file that is closed with its last descriptor. -/
theorem descriptors_accounted_fork : ∃ s, (s.files 0).ref = 0 ∧ (s.files 1).ref = 1 ∧
    s.closed = [(2, .pipe 7 true), (0, .inode 5)] ∧
    (∀ f, (s.files f).ref = pairs s f) ∧
      (∀ f, (s.files f).ref = 0 → ∀ p fd, fd < openfile → (s.procs p).files fd ≠ some f) ∧
      (∀ f, 0 < pairs s f → under (s.files f) = s.made f ∧ (s.made f).isSome) ∧
      (∀ ip, s.inodeRefs ip = countIf nfile fun f => 0 < pairs s f ∧ s.made f = some (.inode ip)) ∧
      ∀ a t, PipeOk s a → next s a = some t → ∃ new, Closes s t new := by
  have hexec : (execIf next PipeOk (initState 1)
      [(0, .openat atFdCwd [] oRdwr (some 5)), (0, .pipe2 (some 7)), (0, .dup 1), (0, .close 2),
        (0, .fork false), (1, .dup 0), (0, .close 0), (0, .close 1), (1, .close 2),
        (1, .close 3), (1, .close 0), (1, .exit)]).map
        (fun s => ((s.files 0).ref, (s.files 1).ref, s.closed)) =
      some (0, 1, [(2, .pipe 7 true), (0, .inode 5)]) := by
    decide +kernel
  obtain ⟨s, hrun, hs⟩ := Run.of_execIf_map hexec
  simp only [Prod.mk.injEq] at hs
  exact ⟨s, hs.1, hs.2.1, hs.2.2, descriptors_accounted hrun⟩

end ShikiOS.Kernel.Descriptors
