import ShikiOS.Kernel.SysSpecs
import ShikiOS.Lib.Run

/-!
# Runs of system calls keep the accounts

Results:
* `Settled.boot`: the accounts are settled when the first process starts.
* `Settled.step`: every system call settles them again. What has to be known of `chdir` and
  of `exit` is a hypothesis.
-/

namespace ShikiOS.Kernel.Calls

open ShikiOS.Lib Fs Fs.Bcache Fs.Inodes

/-- No call is running. -/
def settled : Ghost := ⟨none, fun _ => 0, none, none⟩

variable {env : Env} {s t : Sys}

/-- `Accounts` between two calls. -/
abbrev Settled (env : Env) (s : Sys) : Prop := Accounts env settled s

/-- The same for another process. -/
def Env.at (env : Env) (q : ℕ) : Env := { env with pid := q }

/-- A call of a live process starts. -/
theorem Settled.start (h : Settled env s) {q : ℕ} (hq : s.Live q) :
    Running (env.at q) { settled with cwd := (s.procs q).cwd } { s with cur := q } :=
  ⟨⟨h.ledger, h.unused, h.bound, (fun f hf => by cases hf), h.dead⟩, rfl, hq, rfl⟩

theorem Accounts.settle {g : Ghost} {q : ℕ} (h : Accounts (env.at q) g s) (hp : g.ph = none)
    (hδ : g.δ = fun _ => 0) : Settled env s := by
  obtain ⟨ρ, hl, hacct⟩ := h.ledger
  rw [hp] at hl
  rw [hδ] at hacct
  exact ⟨⟨ρ, hl, hacct⟩, h.unused, h.bound, (fun f hf => by cases hf), h.dead⟩

/-! ## One call -/

/-- The hypothesis on `chdir`. -/
def ChdirOk (env : Env) (s : Sys) (q : ℕ) (path : CString) : Prop :=
  env.acct → ∀ ip, chdirTarget env.sb path { s with cur := q } = some ip → (s.procs q).cwd = some ip

/-- The hypothesis on `exit`: its `inode_put` does not free the working directory, or nobody
    tracks the writes. -/
def ExitOk (env : Env) (s : Sys) (q : ℕ) (mem : ℕ → UInt8) : Prop :=
  wp (exitClose env.sb mem) (fun _ t => ¬ env.track ∨ ∀ ip i, (s.procs q).cwd = some ip →
    t.fs.inode ip = some i → ¬ (i.rc = 1 ∧ i.entry.numLinks = 0)) (fun _ _ => True)
    { s with cur := q }

/-- What is asked of a call. -/
def CallOk (env : Env) (s : Sys) (q : ℕ) : Syscall → Prop
  | .chdir path => ChdirOk env s q path
  | .exit mem => ExitOk env s q mem
  | _ => True

/-- The rule of a system call. -/
theorem wp_syscall {g : Ghost} {q : ℕ} {c : Syscall} (hs : Running (env.at q) g s)
    (hp : g.ph = none) (ho : g.own = none)
    (hchdir : ∀ path, c = .chdir path → env.acct →
      ∀ ip, chdirTarget env.sb path s = some ip → g.cwd = some ip)
    (hexit : ∀ mem, c = .exit mem → wp (exitClose env.sb mem)
      (fun _ t => ¬ env.track ∨ ∀ ip i, g.cwd = some ip → t.fs.inode ip = some i →
        ¬ (i.rc = 1 ∧ i.entry.numLinks = 0)) (fun _ _ => True) s) :
    wp (c.run env.sb) (fun _ t => Accounts (env.at q) g t)
      (fun _ t => env.track → Logged env.sb env.w₀ t.fs.cache) s := by
  have hrule : ∀ {x : SysM ℤ}, Spec (env.at q) x g (fun _ => g) →
      wp x (fun _ t => Accounts (env.at q) g t)
        (fun _ t => env.track → Logged env.sb env.w₀ t.fs.cache) s :=
    fun h => (h s hs).imp fun _ _ ht => ht.toAccounts
  cases c with
  | openat dirfd path omode => exact hrule (spec_openat hp ho)
  | mkdirat dirfd path mode => exact hrule (spec_mkdirat hp)
  | mknodat dirfd path dev => exact hrule (spec_mknodat hp)
  | newfstatat dirfd path w flags => exact hrule (spec_newfstatat hp)
  | unlinkat fd path flag => exact hrule (spec_unlinkat hp)
  | chdir path => exact wp_chdir hs hp (hchdir path rfl)
  | execve path => exact hrule (spec_execve hp)
  | dup fd => exact hrule spec_dup
  | close fd => exact hrule (spec_close hp ho)
  | fstat fd w => exact hrule spec_fstat
  | read fd size w => exact hrule spec_readCall
  | write fd buffer r => exact hrule (spec_writeCall hp)
  | writev fd iov r => exact hrule (spec_writev hp)
  | mmap addr length prot flags fd offset => exact hrule spec_mmap
  | munmap addr length mem => exact hrule (spec_munmap hp ho)
  | pageFault addr => exact hrule spec_pageFault
  | fork => exact hrule spec_fork
  | exit mem => exact wp_exit hs hp ho (hexit mem rfl) fun _ h => h

/-- A kernel that has halted makes no step. -/
theorem halted_of_next {sb : SuperBlock} {a : ℕ × Syscall} (h : next sb s a = some t) :
    s.halted = none := by
  unfold next at h
  split_ifs at h with hs
  exact hs.1

/-- A step of a run, from a state in which the kernel has not halted. -/
theorem Settled.step (h : Settled env s) {a : ℕ × Syscall}
    (hok : CallOk env s a.1 a.2) (hstep : next env.sb s a = some t) :
    (env.track → Logged env.sb env.w₀ t.fs.cache) ∧ (t.halted = none → Settled env t) := by
  unfold next at hstep
  split_ifs at hstep with hlive
  have hcall := wp_syscall (h.start hlive.2) rfl rfl (c := a.2)
    (fun path e => by rw [e] at hok; exact hok) (fun mem e => by rw [e] at hok; exact hok)
  split at hstep
  · next r u hr =>
    obtain rfl := Option.some.inj hstep
    have hu := hcall.of_ok hr
    exact ⟨hu.logged, fun _ => hu.settle rfl rfl⟩
  · next e u hr =>
    obtain rfl := Option.some.inj hstep
    have hu := hcall.of_error hr
    exact ⟨hu, fun hn => by cases hn⟩

/-! ## Boot -/

/-- A change of the file system and the root. -/
theorem Accounts.withFs {g g' : Ghost} (h : Accounts env g s) {fs : FsState} {root : Option ℕ}
    (ho : g'.own = g.own) (hl : ∃ ρ, Inodes.Ledger env.sb env.track env.w₀ known g'.ph ρ fs ∧
      (env.acct → ∀ p, ρ p = refs { s with root := root } p + g'.δ p)) :
    Accounts env g' { s with fs := fs, root := root } :=
  ⟨hl, h.unused, h.bound, ho ▸ h.own, h.dead⟩

/-- Before `init_inodes` there is no `Inode`. -/
theorem accounts_start (disk : ℕ → BlockData) (input : List (List UInt8)) {c : CacheState}
    (hw : env.track → c.writes = env.w₀) (hc : c.header.numBlocks = 0 ∧ c.outstanding = 0) :
    Accounts env settled { bootSys disk input with
      fs := { (bootSys disk input).fs with cache := c } } := by
  have hlogged : env.track → Logged env.sb env.w₀ c := fun ht =>
    ⟨[], by rw [hw ht, List.append_nil], homeOnly_nil⟩
  have hledger : Inodes.Ledger env.sb env.track env.w₀ known none (fun _ => 0)
      { (bootSys disk input).fs with cache := c } :=
    ⟨fun _ => rfl, (fun _ _ hi => by cases hi), (fun _ _ _ hk => by cases hk), fun _ _ => rfl,
      ⟨hlogged, fun _ => hc, fun _ e => by cases e⟩⟩
  refine ⟨⟨_, hledger, fun _ p => ?_⟩, (fun _ _ h => by cases h), fun _ _ => le_rfl,
    (fun _ hf => by cases hf), fun _ _ => rfl⟩
  have hfiles : countIf nfile (fun f => FileRef (File.zero) p) = 0 :=
    countIf_none fun _ _ => not_fileRef (by decide)
  show 0 = countIf 0 _ + countIf nfile (fun f => FileRef (File.zero) p) + 0 + 0
  rw [hfiles, countIf_none fun j hj => absurd hj (Nat.not_lt_zero j)]
  rfl

theorem refs_setRoot {p p' : ℕ} (hr : s.root = none) :
    refs { s with root := some p } p' = refs s p' + if p' = p then 1 else 0 := by
  have hsame : countIf s.nextPid (CwdRef { s with root := some p } p') =
      countIf s.nextPid (CwdRef s p') := countIf_congr fun _ _ => Iff.rfl
  unfold refs
  dsimp only
  rw [hsame, hr, if_neg (Option.some_ne_none p').symm, add_zero]
  simp only [Option.some.injEq, eq_comm]

/-- The root directory gets its reference. -/
theorem wp_initInodes (h : Accounts env settled s) (hr : s.root = none) (hn : s.halted = none)
    (h0 : s.nextPid = 0) : wp (initInodes env.sb)
      (fun _ t => Accounts env settled t ∧ t.halted = none ∧ t.nextPid = 0) (fun _ _ => True) s := by
  unfold initInodes
  refine wp.ite (fun _ => ?_) fun _ => wp_pure.mpr ⟨h, hn, h0⟩
  obtain ⟨ρ, hl, hacct⟩ := h.ledger
  rw [wp_bind]
  show wp (fsCall .stop (inodeGet env.sb rootInodeNo)) _ _ s
  unfold fsCall
  rw [wp_zoom, wp_adaptExcept]
  refine wp_mono (hl.get (fun _ _ => rfl) (R := fun r t => wp (modify fun u => { u with root := r })
    (fun _ t => Accounts env settled t ∧ t.halted = none ∧ t.nextPid = 0) (fun _ _ => True)
    { s with fs := t }) ?_ fun p t ht => ?_) (fun _ _ hq => hq) fun _ _ _ => trivial
  all_goals rw [wp_modify]
  · refine ⟨h.withFs rfl ⟨ρ, hl, fun ha p => ?_⟩, hn, h0⟩
    rw [hacct ha p, ← hr]
  · refine ⟨h.withFs rfl ⟨_, ht, fun ha p' => ?_⟩, hn, h0⟩
    have hp := hacct ha p'
    rw [refs_setRoot hr]
    unfold addRef
    by_cases hpp : p' = p
    · rw [← hpp, Function.update_self, if_pos rfl, hp]
      omega
    · rw [Function.update_of_ne hpp, if_neg hpp, hp]
      omega

/-- The accounts are settled when the first process starts. `w₀` are the writes of
    `init_bcache`. -/
theorem Settled.boot (disk : ℕ → BlockData) (input : List (List UInt8))
    (hw : env.track → ∀ c, initBcache env.sb (Bcache.boot disk) = .ok () c → c.writes = env.w₀) :
    wp (kernelInit env.sb) (fun _ t => t.halted = none ∧ Settled env t) (fun _ _ => True)
      (bootSys disk input) := by
  unfold kernelInit fsCall
  rw [wp_bind, wp_zoom, wp_adaptExcept, wp_cache]
  refine wp_mono (initBcache_idle disk).self (fun _ c hc => ?_) fun _ _ _ => trivial
  have h0 := accounts_start disk input (fun ht => hw ht c hc.2) hc.1
  rw [wp_bind]
  refine (wp_initInodes h0 rfl rfl rfl).imp fun _ s1 h1 => ?_
  obtain ⟨h1, hn1, hp1⟩ := h1
  rw [wp_bind, wp_get]
  split
  · exact wp_throw.mpr trivial
  next root _ =>
  obtain ⟨ρ, hl, hacct⟩ := h1.ledger
  rw [wp_bind]
  show wp (fsCall .stop (inodeShare root)) _ _ s1
  unfold fsCall modifyProc
  rw [wp_zoom, wp_adaptExcept]
  refine wp_mono (hl.share (R := fun r t => Accounts env (settled.add r 1) { s1 with fs := t })
    fun t ht => h1.withFs rfl ⟨_, ht, fun ha p => ?_⟩) (fun cwd t ht => ?_) fun _ _ _ => trivial
  · have hp := hacct ha p
    have hsub := addRef_sub ρ settled.δ root p 1
    show addRef ρ root 1 p = refs s1 p + addRef settled.δ root 1 p
    omega
  · rw [wp_bind, wp_modify, wp_modify]
    have hnew := ht.newProc
    dsimp only at hnew
    rw [hp1] at hnew
    exact ⟨hn1, hnew⟩

/-! ## A small file system -/

/-- A super block with 20 log blocks, 16 inodes and 74 data blocks. -/
def smallFs : SuperBlock := ⟨100, 74, 16, 20, 2, 22, 24⟩

/-- A directory with one data block. -/
def dirInode (numLinks : UInt16) (numBytes addr : UInt32) : InodeEntry :=
  { InodeEntry.zero with
    type := inodeDirectory
    numLinks := numLinks
    numBytes := numBytes
    addrs := fun i => if (i : ℕ) = 0 then addr else 0 }

/-- The block of a directory. -/
def dirBlock (entries : List (ℕ × CString)) : BlockData :=
  zeroBlock.copy 0 (entries.flatMap fun e => (DirEntry.new e.1 e.2).encode)

/-- A device with the directories `/` and `/d`. -/
def smallDisk (b : ℕ) : BlockData :=
  if b = 22 then InodeEntry.put (InodeEntry.put zeroBlock 1 (dirInode 1 48 25)) 2 (dirInode 1 32 26)
  else if b = 24 then zeroBlock.copy 0 [0xff, 0xff, 0xff, 0x07]
  else if b = 25 then dirBlock [(1, [46]), (1, [46, 46]), (2, [100])]
  else if b = 26 then dirBlock [(2, [46]), (1, [46, 46])]
  else zeroBlock

/-- `/` and `/d`. -/
def rootPath : CString := [47]
def dPath : CString := [47, 100]

/-- The kernel after it has booted from this device. -/
def smallSys : Sys :=
  match kernelInit smallFs (bootSys smallDisk []) with
  | .ok _ s => s
  | .error _ s => s

theorem booted_small : kernelInit smallFs (bootSys smallDisk []) = .ok () smallSys := by
  have h : (match kernelInit smallFs (bootSys smallDisk []) with
    | .ok _ _ => true
    | .error _ _ => false) = true := by decide +kernel
  unfold smallSys
  split at h
  · next hs => rw [hs]
  · cases h

end ShikiOS.Kernel.Calls
