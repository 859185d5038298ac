import ShikiOS.Kernel.SysLedger

/-!
# What each system call holds (`kernel/sysfile.c`, `kernel/exec.c`, `kernel/proc.c`)

One rule for each function: a system call gives back every reference that it takes, but for
the ones that it leaves in a working directory or an open file.
-/

namespace ShikiOS.Kernel.Calls

open ShikiOS.Lib Fs Fs.Bcache Fs.Inodes

variable {env : Env} {g g' : Ghost} {c p : ℕ}

/-! ## Paths -/

/-- What `nameiparent` returns: a parent directory, or none. -/
def Ghost.gotParent (g : Ghost) (r : Option (ℕ × CString)) : Ghost := g.got (r.map Prod.fst)

theorem spec_dirSearch {name : CString} {n i : ℕ} {cur : List UInt8} :
    Spec env (dirSearch (services env.sb) p name n i cur) g fun _ => g := by
  induction n generalizing i cur with
  | zero => exact .pure rfl
  | succ n ih =>
    unfold dirSearch
    refine spec_entry.seq fun e => ?_
    split
    · refine spec_read.seq fun bytes => ?_
      dsimp only
      split
      · exact .pure rfl
      · exact ih
    · exact .pure rfl

theorem spec_inodeLookup {name : CString} :
    Spec env (inodeLookup (services env.sb) p name) g fun _ => g := by
  unfold inodeLookup
  exact spec_entry.seq fun e => .ite spec_panic spec_dirSearch

theorem spec_inodeInsert {name : CString} {no : ℕ} (hc : g.ph = some c) :
    Spec env (inodeInsert (services env.sb) (some c) p name no) g fun _ => g := by
  unfold inodeInsert
  refine spec_inodeLookup.seq fun found => ?_
  split
  · exact .pure rfl
  · exact spec_entry.seq fun e => .seq (spec_write hc) fun _ => .pure rfl

theorem spec_namexLoop (hc : g.ph = some c) {parent : Bool} {elems : List CString} :
    Spec env (namexLoop (services env.sb) (some c) parent elems p) (g.add p 1) g.gotParent := by
  induction elems generalizing p with
  | nil =>
    unfold namexLoop
    split
    · exact .seq (spec_put hc) fun _ => .pure (Ghost.add_cancel g p).symm
    · exact .pure rfl
  | cons name rest ih =>
    unfold namexLoop
    refine spec_lock.seq fun _ => spec_entry.seq fun e => .ite ?_ (.ite ?_ ?_)
    · exact spec_unlock.seq fun _ => .seq (spec_put hc) fun _ => .pure (Ghost.add_cancel g p).symm
    · exact spec_unlock.seq fun _ => .pure rfl
    · refine spec_inodeLookup.seq fun found => spec_get.bind fun next => ?_
      cases next with
      | none =>
        exact spec_unlock.seq fun _ => .seq (spec_put hc) fun _ => .pure (Ghost.add_cancel g p).symm
      | some next =>
        refine spec_unlock.seq fun _ => .seq (spec_put hc) fun _ => ?_
        show Spec env _ (((g.add p 1).add next 1).add p (-1)) _
        rw [Ghost.add_cancel']
        exact ih

theorem spec_namex (hc : g.ph = some c) {path : CString} {parent : Bool} :
    Spec env (namex (services env.sb) path parent (some c)) g g.gotParent := by
  unfold namex
  refine .ite (spec_get.bind fun cur => ?_) (spec_cwd.seq fun cwd => spec_share.bind fun cur => ?_)
  · cases cur with
    | none => exact spec_panic
    | some cur => exact spec_namexLoop hc
  · exact spec_namexLoop hc

theorem spec_namei (hc : g.ph = some c) {path : CString} :
    Spec env (namei (services env.sb) path (some c)) g g.got := by
  unfold namei
  exact .bind (spec_namex hc) fun r => .pure rfl

theorem spec_nameiparent (hc : g.ph = some c) {path : CString} :
    Spec env (nameiparent (services env.sb) path (some c)) g g.gotParent := spec_namex hc

/-! ## `unlinkat` and `create` -/

/-- The end of an operation that holds one reference. -/
theorem spec_putEndOp (hc : g.ph = some c) {r : ℤ} (hg : { g with ph := none } = g') :
    Spec env (do
      (services env.sb).put (some c) p
      (services env.sb).endOp c
      return r) (g.add p 1) fun _ => g' :=
  .seq (spec_put hc) fun _ => by
    rw [Ghost.add_cancel]
    exact .seq (spec_endOp hc hg) fun _ => .pure rfl

theorem spec_isdirempty : Spec env (isdirempty (services env.sb) p) g fun _ => g := by
  unfold isdirempty
  generalize dirRounds = n, 2 * dirEntrySize = off
  induction n generalizing off with
  | zero => exact .pure rfl
  | succ n ih =>
    unfold isdiremptyFrom
    refine spec_entry.seq fun e => .ite (spec_read.seq fun de => ?_) (.pure rfl)
    exact .ite spec_panic (.ite (.pure rfl) (ih _))

theorem spec_unlinkatBad (hc : g.ph = some c) (hg : { g with ph := none } = g') :
    Spec env (unlinkatBad (services env.sb) c p) (g.add p 1) fun _ => g' := by
  unfold unlinkatBad
  exact spec_unlock.seq fun _ => spec_putEndOp hc hg

theorem spec_unlinkat {fd : ℤ} {path : CString} {flag : ℤ} (hc : g.ph = none) :
    Spec env (unlinkat (services env.sb) fd path flag) g fun _ => g := by
  have hg : ∀ c, { { g with ph := some c } with ph := none } = g := fun c => by rw [← hc]
  have hremove : ∀ (c dp ip off : ℕ), Spec env (unlinkatRemove (services env.sb) c dp ip off)
      ((({ g with ph := some c } : Ghost).add dp 1).add ip 1) fun _ => g := by
    intro c dp ip off
    unfold unlinkatRemove
    refine .seq (spec_write rfl) fun cnt => .ite spec_panic (spec_entry.seq fun e => ?_)
    refine Spec.seq (u := (({ g with ph := some c } : Ghost).add dp 1).add ip 1) ?_ fun _ => ?_
    · exact .ite (spec_modifyEntry.seq fun _ => spec_sync rfl) (.pure rfl)
    · refine spec_unlock.seq fun _ => .seq (spec_put rfl) fun _ => ?_
      rw [Ghost.add_cancel']
      refine spec_modifyEntry.seq fun _ => .seq (spec_sync rfl) fun _ => spec_unlock.seq fun _ => ?_
      exact spec_putEndOp rfl (hg c)
  have hfound : ∀ (c dp no off : ℕ), Spec env (unlinkatFound (services env.sb) c dp no off)
      (({ g with ph := some c } : Ghost).add dp 1) fun _ => g := by
    intro c dp no off
    unfold unlinkatFound
    refine spec_get.bind fun ip => ?_
    cases ip with
    | none => exact spec_panic
    | some ip =>
      refine spec_lock.seq fun _ => spec_entry.seq fun e => .ite spec_panic ?_
      refine Spec.seq (u := (({ g with ph := some c } : Ghost).add dp 1).add ip 1) ?_ fun empty => ?_
      · exact .ite spec_isdirempty (.pure rfl)
      · refine .ite (spec_unlock.seq fun _ => .seq (spec_put rfl) fun _ => ?_) (hremove c dp ip off)
        rw [Ghost.add_cancel]
        exact spec_unlinkatBad rfl (hg c)
  unfold unlinkat
  refine .ite spec_panic (.ite (.pure rfl) ?_)
  refine .bind (spec_beginOp hc) fun c => .bind (spec_nameiparent rfl) fun dp => ?_
  rcases dp with _ | ⟨dp, name⟩
  · exact .seq (spec_endOp rfl (hg c)) fun _ => .pure rfl
  · refine spec_lock.seq fun _ => .ite (spec_unlinkatBad rfl (hg c)) (spec_inodeLookup.seq fun found => ?_)
    rcases found with _ | ⟨no, off⟩
    · exact spec_unlinkatBad rfl (hg c)
    · exact hfound c dp no off

theorem spec_create (hc : g.ph = some c) {path : CString} {type : InodeType} {major minor : UInt16} :
    Spec env (create (services env.sb) path type major minor (some c)) g g.got := by
  have hnew : ∀ parent name, Spec env
      (createNew (services env.sb) (some c) parent name type major minor) (g.add parent 1) g.got := by
    intro parent name
    unfold createNew
    refine .seq (spec_alloc hc) fun no => spec_get.bind fun ip => ?_
    cases ip with
    | none => exact .seq (spec_put hc) fun _ => .pure (Ghost.add_cancel g parent).symm
    | some ip =>
      refine spec_lock.seq fun _ => spec_modifyEntry.seq fun _ => .seq (spec_sync hc) fun _ => ?_
      refine spec_entry.seq fun e => spec_inodeNo.seq fun ino => ?_
      refine Spec.seq (u := (g.add parent 1).add ip 1) ?_ fun _ => ?_
      · refine .ite (spec_modifyEntry.seq fun _ => .seq (spec_sync hc) fun _ => ?_) (.pure rfl)
        exact .seq (spec_inodeInsert hc) fun _ => spec_inodeNo.seq fun pno =>
          .seq (spec_inodeInsert hc) fun _ => .pure rfl
      · refine .seq (spec_inodeInsert hc) fun _ => spec_unlock.seq fun _ => .seq (spec_put hc) fun _ => ?_
        exact .pure (Ghost.add_cancel' g parent ip).symm
  have hold : ∀ parent ip, Spec env (createExisting (services env.sb) (some c) parent ip type)
      ((g.add parent 1).add ip 1) g.got := by
    intro parent ip
    unfold createExisting
    refine spec_unlock.seq fun _ => .seq (spec_put hc) fun _ => ?_
    rw [Ghost.add_cancel']
    refine spec_lock.seq fun _ => spec_entry.seq fun e => .ite (.pure rfl) ?_
    exact spec_unlock.seq fun _ => .seq (spec_put hc) fun _ => .pure (Ghost.add_cancel g ip).symm
  unfold create
  refine .bind (spec_nameiparent hc) fun parent => ?_
  rcases parent with _ | ⟨parent, name⟩
  · exact .pure rfl
  · refine Spec.seq (u := g.add parent 1) (.pure rfl) fun _ => spec_inodeLookup.seq fun found => ?_
    refine spec_get.bind fun ip => ?_
    cases ip with
    | none => exact hnew parent name
    | some ip => exact hold parent ip

/-! ## Calls on paths -/

theorem spec_createAt (hc : g.ph = none) {path : CString} {type : InodeType} {major minor : UInt16} :
    Spec env (createAt (services env.sb) path type major minor) g fun _ => g := by
  have hg : ∀ c, { { g with ph := some c } with ph := none } = g := fun c => by rw [← hc]
  unfold createAt
  refine .bind (spec_beginOp hc) fun c => .bind (spec_create rfl) fun ip => ?_
  cases ip with
  | none => exact .seq (spec_endOp rfl (hg c)) fun _ => .pure rfl
  | some ip => exact spec_unlock.seq fun _ => spec_putEndOp rfl (hg c)

theorem spec_mkdirat (hc : g.ph = none) {dirfd : ℤ} {path : CString} {mode : ℤ} :
    Spec env (mkdirat (services env.sb) dirfd path mode) g fun _ => g := by
  unfold mkdirat
  exact .ite (.pure rfl) (.ite (.pure rfl) (.ite (.pure rfl) (spec_createAt hc)))

theorem spec_mknodat (hc : g.ph = none) {dirfd : ℤ} {path : CString} {dev : ℕ} :
    Spec env (mknodat (services env.sb) dirfd path dev) g fun _ => g := by
  unfold mknodat
  exact .ite (.pure rfl) (.ite (.pure rfl) (spec_createAt hc))

theorem spec_newfstatat (hc : g.ph = none) {dirfd : ℤ} {path : CString} {w : Bool} {flags : ℤ} :
    Spec env (newfstatat (services env.sb) dirfd path w flags) g fun _ => g := by
  have hg : ∀ c, { { g with ph := some c } with ph := none } = g := fun c => by rw [← hc]
  unfold newfstatat
  refine .ite (.pure rfl) (.ite (.pure rfl) (.ite (.pure rfl) ?_))
  refine .bind (spec_beginOp hc) fun c => .bind (spec_namei rfl) fun ip => ?_
  cases ip with
  | none => exact .seq (spec_endOp rfl (hg c)) fun _ => .pure rfl
  | some ip =>
    exact spec_lock.seq fun _ => spec_entry.seq fun _ => spec_unlock.seq fun _ =>
      spec_putEndOp rfl (hg c)

theorem spec_loadElf : Spec env (loadElf (services env.sb) p) g fun _ => g := by
  have hloop : ∀ (n off sz : ℕ) (first : Bool),
      Spec env (loadSegments (services env.sb) p n off sz first) g fun _ => g := by
    intro n
    induction n with
    | zero => exact fun _ _ _ => .pure rfl
    | succ n ih =>
      intro off sz first
      unfold loadSegments
      refine spec_read.seq fun bytes => .ite (.pure rfl) (.ite (ih _ _ _) (.ite (.pure rfl) ?_))
      refine .ite (.pure rfl) (.ite (.pure rfl) (spec_read.seq fun segment => ?_))
      exact .ite (.pure rfl) (ih _ _ _)
  unfold loadElf
  refine spec_read.seq fun bytes => .ite (.pure rfl) (.ite (.pure rfl) (hloop _ _ _ _))

theorem spec_execve (hc : g.ph = none) {path : CString} :
    Spec env (execve (services env.sb) path) g fun _ => g := by
  have hg : ∀ c, { { g with ph := some c } with ph := none } = g := fun c => by rw [← hc]
  unfold execve
  refine .bind (spec_beginOp hc) fun c => .bind (spec_namei rfl) fun ip => ?_
  cases ip with
  | none => exact .seq (spec_endOp rfl (hg c)) fun _ => .pure rfl
  | some ip =>
    exact spec_lock.seq fun _ => spec_loadElf.seq fun loaded => spec_unlock.seq fun _ =>
      spec_putEndOp rfl (hg c)

theorem Ghost.idle (hc : g.ph = none) (ho : g.own = none) : ⟨none, g.δ, none, g.cwd⟩ = g := by
  obtain ⟨ph, δ, own, cwd⟩ := g
  cases hc
  cases ho
  rfl

theorem spec_openat (hc : g.ph = none) (ho : g.own = none) {dirfd : ℤ} {path : CString}
    {omode : ℕ} : Spec env (openat (services env.sb) dirfd path omode) g fun _ => g := by
  have hg : ∀ c, { { g with ph := some c } with ph := none } = g := fun c => by rw [← hc]
  have hfile : ∀ c ip, Spec env (openatFile (services env.sb) c ip omode)
      (({ g with ph := some c } : Ghost).add ip 1) fun _ => g := by
    intro c ip
    unfold openatFile
    refine spec_fileAlloc.bind fun f => ?_
    cases f with
    | none => exact spec_unlock.seq fun _ => spec_putEndOp rfl (hg c)
    | some f =>
      refine spec_fdAlloc.seq fun fd => ?_
      cases fd with
      | none =>
        refine .seq (spec_closeOwn rfl) fun _ => ?_
        exact spec_unlock.seq fun _ => spec_putEndOp (g := { g with ph := some c, own := none }) rfl
          (Ghost.idle hc ho)
      | some fd =>
        refine spec_unlock.seq fun _ => .seq (spec_endOp rfl rfl) fun _ => ?_
        refine .seq (spec_openFile rfl (fun _ => ⟨rfl, rfl, rfl⟩) ?_) fun _ => .pure rfl
        simp only [Ghost.add, Ghost.owning, addRef_cancel]
        exact Ghost.idle hc ho
  unfold openat
  refine .ite (.pure rfl) (.ite (.pure rfl) ?_)
  refine .bind (spec_beginOp hc) fun c => .ite (.bind (spec_create rfl) fun ip => ?_)
    (.bind (spec_namei rfl) fun ip => ?_)
  · cases ip with
    | none => exact .seq (spec_endOp rfl (hg c)) fun _ => .pure rfl
    | some ip => exact hfile c ip
  · cases ip with
    | none => exact .seq (spec_endOp rfl (hg c)) fun _ => .pure rfl
    | some ip => exact spec_lock.seq fun _ => hfile c ip

/-! ## Calls on descriptors -/

section Descriptors

variable {f v : ℕ}

theorem spec_thisproc : Spec env thisproc g fun _ => g := .get fun _ _ => .pure rfl

theorem spec_getFile : Spec env (getFile f) g fun _ => g := .get fun _ _ => .pure rfl

theorem spec_fd2file {fd : ℤ} : Spec env (fd2file fd) g fun _ => g := by
  unfold fd2file
  exact spec_thisproc.seq fun _ => .ite (.pure rfl) (.pure rfl)

theorem spec_moveOff {k : File → ℕ} :
    Spec env (modifyFile f fun x => { x with off := k x }) g fun _ => g :=
  spec_modifyFile fun _ => ⟨rfl, rfl, Iff.rfl⟩

theorem spec_fileStat : Spec env (fileStat env.sb f) g fun _ => g := by
  unfold fileStat
  refine spec_getFile.seq fun x => .ite (.pure rfl) (.ite ?_ (.pure rfl))
  exact spec_lock.seq fun _ => spec_entry.seq fun _ => spec_unlock.seq fun _ => .pure rfl

theorem spec_fileRead {n : ℕ} : Spec env (fileRead env.sb f n) g fun _ => g := by
  unfold fileRead
  refine spec_getFile.seq fun x => .ite (.pure rfl) (.ite ?_ (.pure rfl))
  exact spec_lock.seq fun _ => spec_read.seq fun _ => spec_moveOff.seq fun _ =>
    spec_unlock.seq fun _ => .pure rfl

theorem spec_fileWrite (hc : g.ph = none) {addr : List UInt8} :
    Spec env (fileWrite env.sb f addr) g fun _ => g := by
  have hg : ∀ c, { { g with ph := some c } with ph := none } = g := fun c => by rw [← hc]
  have hloop : ∀ ip n addr, Spec env (fileWriteLoop env.sb f ip n addr) g fun _ => g := by
    intro ip n
    induction n with
    | zero => exact fun _ => .pure rfl
    | succ n ih =>
      intro addr
      unfold fileWriteLoop
      refine .ite (.pure rfl) (.bind (spec_beginOp hc) fun c => spec_lock.seq fun _ => ?_)
      refine spec_getFile.seq fun x => .seq (spec_write rfl) fun wlen => spec_moveOff.seq fun _ => ?_
      exact spec_unlock.seq fun _ => .seq (spec_endOp rfl (hg c)) fun _ => ih _
  unfold fileWrite
  exact spec_getFile.seq fun x => .ite (.pure rfl) (.ite ((hloop _ _ _).seq fun _ => .pure rfl) (.pure rfl))

theorem spec_dup {fd : ℤ} : Spec env (dup fd) g fun _ => g := by
  unfold dup
  refine spec_fd2file.seq fun f => ?_
  cases f with
  | none => exact .pure rfl
  | some f =>
    refine Spec.seq (y := fdAlloc f) spec_fdAlloc fun fd => ?_
    cases fd with
    | none => exact .pure rfl
    | some fd => exact spec_fileDup.seq fun _ => .pure rfl

theorem spec_readCall {fd size : ℤ} {w : Bool} :
    Spec env (Calls.read env.sb fd size w) g fun _ => g := by
  unfold Calls.read
  refine spec_fd2file.seq fun f => ?_
  cases f with
  | none => exact .pure rfl
  | some f => exact .ite (.pure rfl) spec_fileRead

theorem spec_writeCall (hc : g.ph = none) {fd : ℤ} {buffer : List UInt8} {r : Bool} :
    Spec env (Calls.write env.sb fd buffer r) g fun _ => g := by
  unfold Calls.write
  refine spec_fd2file.seq fun f => ?_
  cases f with
  | none => exact .pure rfl
  | some f => exact .ite (.pure rfl) (spec_fileWrite hc)

theorem spec_writev (hc : g.ph = none) {fd : ℤ} {iov : List (List UInt8 × Bool)} {r : Bool} :
    Spec env (writev env.sb fd iov r) g fun _ => g := by
  have hloop : ∀ f iov tot, Spec env (writevLoop env.sb f iov tot) g fun _ => g := by
    intro f iov
    induction iov with
    | nil => exact fun _ => .pure rfl
    | cons b iov ih =>
      intro tot
      unfold writevLoop
      exact .ite (.pure rfl) (.seq (spec_fileWrite hc) fun n => ih _)
  unfold writev
  refine spec_fd2file.seq fun f => ?_
  cases f with
  | none => exact .pure rfl
  | some f => exact .ite (.pure rfl) (hloop _ _ _)

theorem spec_close (hc : g.ph = none) (ho : g.own = none) {fd : ℤ} :
    Spec env (close env.sb fd) g fun _ => g := by
  unfold close
  refine spec_fd2file.seq fun f => ?_
  cases f with
  | none => exact .pure rfl
  | some f =>
    refine .get fun s _ => spec_setFd.seq fun _ => .seq (spec_fileClose hc) fun _ => .pure ?_
    rw [← ho]

theorem spec_fstat {fd : ℤ} {w : Bool} : Spec env (fstat env.sb fd w) g fun _ => g := by
  unfold fstat
  refine spec_fd2file.seq fun f => ?_
  cases f with
  | none => exact .pure rfl
  | some f => exact .ite (.pure rfl) spec_fileStat

/-! ## Mappings -/

theorem spec_getVma : Spec env (getVma v) g fun _ => g := .get fun _ _ => .pure rfl

theorem spec_modifyVma {k : Vma → Vma} : Spec env (modifyVma v k) g fun _ => g := by
  intro s hs
  unfold modifyVma
  rw [wp_modify]
  exact ⟨⟨hs.ledger, hs.unused, hs.bound, hs.own, hs.dead⟩, hs.cur, hs.alive, hs.cwd⟩

theorem spec_vmaAlloc : Spec env vmaAlloc g fun _ => g := by
  unfold vmaAlloc
  refine .get fun s _ => ?_
  split
  · exact .pure rfl
  · exact .throw

theorem spec_lastVma {n : ℕ} : Spec env (lastVma n v) g fun _ => g := by
  induction n generalizing v with
  | zero => exact .throw
  | succ n ih =>
    unfold lastVma
    refine spec_getVma.seq fun x => ?_
    split
    · exact .pure rfl
    · exact ih

theorem spec_vmaOf {addr n : ℕ} {pre v : Option ℕ} : Spec env (vmaOf addr n pre v) g fun _ => g := by
  induction n generalizing pre v with
  | zero => cases v <;> first | exact .pure rfl | exact .throw
  | succ n ih =>
    cases v with
    | none => exact .pure rfl
    | some v => exact spec_getVma.seq fun x => .ite (.pure rfl) ih

theorem spec_writeback (hc : g.ph = none) {addr : ℕ} {n : ℤ} {mem : ℕ → UInt8} :
    Spec env (writeback env.sb v addr n mem) g fun _ => g := by
  have hg : ∀ c, { { g with ph := some c } with ph := none } = g := fun c => by rw [← hc]
  have hloop : ∀ m i, Spec env (writebackLoop env.sb v addr n mem m i) g fun _ => g := by
    intro m
    induction m with
    | zero => exact fun _ => .pure rfl
    | succ m ih =>
      intro i
      unfold writebackLoop
      refine .ite (spec_getVma.seq fun x => spec_getFile.seq fun f => ?_) (.pure rfl)
      refine .bind (spec_beginOp hc) fun c => spec_lock.seq fun _ => .seq (spec_write rfl) fun r => ?_
      exact spec_unlock.seq fun _ => .seq (spec_endOp rfl (hg c)) fun _ => ih _
  unfold writeback
  exact spec_getVma.seq fun x => .ite (.pure rfl) (.ite .throw (hloop _ _))

theorem spec_placeVma {length : ℤ} : Spec env (placeVma v length) g fun _ => g := by
  have hfirst : ∀ q, Spec env (do
      modifyVma v fun x => { x with start := vmaStart, stop := u64 (vmaStart + u64OfInt length) }
      modifyProc q fun p => { p with vma := some v }) g fun _ => g := fun q =>
    spec_modifyVma.seq fun _ => spec_modifyProc fun _ => ⟨rfl, rfl⟩
  unfold placeVma
  refine .get fun s _ => ?_
  dsimp only
  split
  · exact hfirst _
  · refine .ite (hfirst _) (spec_lastVma.seq fun pv => spec_getVma.seq fun x => ?_)
    exact spec_modifyVma.seq fun _ => spec_modifyVma.seq fun _ => spec_modifyVma

theorem spec_mmap {addr : ℕ} {length : ℤ} {prot flags : ℕ} {fd offset : ℤ} :
    Spec env (mmap addr length prot flags fd offset) g fun _ => g := by
  unfold mmap
  refine .ite .throw (.ite .throw (spec_fd2file.seq fun f => ?_))
  cases f with
  | none => exact .throw
  | some f =>
    refine spec_getFile.seq fun x => .ite (.pure rfl) (.ite (.pure rfl) ?_)
    refine spec_vmaAlloc.seq fun v => spec_modifyVma.seq fun _ => spec_fileDup.seq fun _ => ?_
    exact spec_placeVma.seq fun _ => spec_getVma.seq fun _ => .pure rfl

theorem spec_munmap (hc : g.ph = none) (ho : g.own = none) {addr length : ℕ} {mem : ℕ → UInt8} :
    Spec env (munmap env.sb addr length mem) g fun _ => g := by
  have hclose : ∀ f, Spec env (fileClose (services env.sb) f) g fun _ => g := fun f =>
    (spec_fileClose hc).to fun _ => by rw [← ho]
  have hunmap : ∀ v pre, Spec env (unmap env.sb v pre addr length mem) g fun _ => g := by
    intro v pre
    unfold unmap
    refine spec_getVma.seq fun x => .ite .throw (.ite ?_ ?_)
    · refine .seq (spec_writeback hc) fun _ => spec_getVma.seq fun x => .ite ?_ ?_
      · refine (hclose _).seq fun _ => spec_getVma.seq fun x => ?_
        cases pre with
        | none =>
          exact .get fun s _ => .seq (spec_modifyProc fun _ => ⟨rfl, rfl⟩) fun _ =>
            spec_modifyVma.seq fun _ => .pure rfl
        | some pre =>
          exact spec_modifyVma.seq fun _ => spec_modifyVma.seq fun _ =>
            spec_modifyVma.seq fun _ => .pure rfl
      · exact spec_modifyVma.seq fun _ => .pure rfl
    · exact spec_modifyVma.seq fun _ => .pure rfl
  unfold munmap
  refine spec_thisproc.seq fun p => spec_vmaOf.seq fun found => ?_
  rcases found with _ | ⟨v, pre⟩
  · exact .pure rfl
  · exact hunmap v pre

theorem spec_pageFault {addr : ℕ} : Spec env (pageFault env.sb addr) g fun _ => g := by
  unfold pageFault
  refine spec_thisproc.seq fun p => spec_vmaOf.seq fun found => ?_
  rcases found with _ | ⟨v, pre⟩
  · exact .pure rfl
  · exact spec_getVma.seq fun x => spec_getFile.seq fun f => spec_lock.seq fun _ =>
      spec_read.seq fun _ => spec_unlock.seq fun _ => .pure rfl

end Descriptors

/-! ## `fork` and `exit` -/

theorem Spec.forN {f : ℕ → SysM Unit} (hf : ∀ i, Spec env (f i) g fun _ => g) {a n : ℕ} :
    Spec env (Lib.forN f a n) g fun _ => g := by
  induction n generalizing a with
  | zero => exact .pure rfl
  | succ n ih => exact (hf a).seq fun _ => ih

/-- A new process with a reference to its working directory. -/
theorem refs_newProc {cwd p : ℕ} : refs { s with
    nextPid := s.nextPid + 1
    procs := Function.update s.procs s.nextPid ⟨true, some cwd, fun _ => none, none⟩ } p =
    refs s p + if cwd = p then 1 else 0 := by
  unfold refs
  dsimp only
  rw [countIf_succ]
  have hold : countIf s.nextPid (CwdRef { s with
      nextPid := s.nextPid + 1
      procs := Function.update s.procs s.nextPid ⟨true, some cwd, fun _ => none, none⟩ } p) =
      countIf s.nextPid (CwdRef s p) := countIf_congr fun q hq => by
    unfold CwdRef
    dsimp only
    rw [Function.update_of_ne hq.ne]
  have hnew : CwdRef { s with
      nextPid := s.nextPid + 1
      procs := Function.update s.procs s.nextPid ⟨true, some cwd, fun _ => none, none⟩ } p
      s.nextPid ↔ cwd = p := by
    unfold CwdRef
    dsimp only
    rw [Function.update_self]
    simp
  rw [hold]
  simp only [hnew]
  omega

/-- A new process takes over the reference to its working directory. -/
theorem Accounts.newProc {cwd : ℕ} (h : Accounts env (g.add cwd 1) s) : Accounts env g { s with
    nextPid := s.nextPid + 1
    procs := Function.update s.procs s.nextPid ⟨true, some cwd, fun _ => none, none⟩ } := by
  obtain ⟨ρ, hl, hacct⟩ := h.ledger
  refine ⟨⟨ρ, hl, fun ha p => ?_⟩, h.unused, h.bound, h.own, fun q hq => ?_⟩
  · rw [hacct ha p, refs_newProc]
    show _ + addRef g.δ cwd 1 p = _
    unfold addRef
    by_cases hp : cwd = p
    · rw [hp, Function.update_self, if_pos rfl]
      omega
    · rw [Function.update_of_ne (Ne.symm hp), if_neg hp]
      omega
  · dsimp only at hq ⊢
    rw [Function.update_of_ne (by omega)]
    exact h.dead q (by omega)

theorem Running.newProc {cwd : ℕ} (h : Running env (g.add cwd 1) s) : Running env g { s with
    nextPid := s.nextPid + 1
    procs := Function.update s.procs s.nextPid ⟨true, some cwd, fun _ => none, none⟩ } := by
  have hne : env.pid ≠ s.nextPid := h.alive.1.ne
  refine ⟨h.toAccounts.newProc, h.cur, ⟨h.alive.1.trans (Nat.lt_succ_self _), ?_⟩, ?_⟩
  · dsimp only
    rw [Function.update_of_ne hne]
    exact h.alive.2
  · dsimp only
    rw [Function.update_of_ne hne]
    exact h.cwd

theorem spec_forkVmas {child n : ℕ} {v pre : Option ℕ} :
    Spec env (forkVmas child n v pre) g fun _ => g := by
  induction n generalizing v pre with
  | zero => cases v <;> first | exact .pure rfl | exact .throw
  | succ n ih =>
    cases v with
    | none => exact .pure rfl
    | some pv =>
      unfold forkVmas
      refine spec_vmaAlloc.seq fun v => spec_getVma.seq fun x => spec_modifyVma.seq fun _ => ?_
      refine spec_fileDup.seq fun _ => Spec.seq (u := g) ?_ fun _ => spec_getVma.seq fun x => ih
      cases pre with
      | none => exact spec_modifyProc fun _ => ⟨rfl, rfl⟩
      | some pre => exact spec_modifyVma

theorem spec_fork : Spec env (fork env.sb) g fun _ => g := by
  have hfd : ∀ child fd, Spec env (forkFd child fd) g fun _ => g := by
    intro child fd
    unfold forkFd
    refine spec_thisproc.seq fun p => ?_
    split
    · exact .pure rfl
    · exact spec_fileDup.seq fun _ => spec_setFd
  have hrest : ∀ child, Spec env (do
      forN (forkFd child) 0 openfile
      let p ← thisproc
      forkVmas child (nvma + 1) p.vma none
      return (child : ℤ)) g fun _ => g := fun child =>
    (Spec.forN (hfd child)).seq fun _ => spec_thisproc.seq fun p => spec_forkVmas.seq fun _ => .pure rfl
  have hnew : ∀ cwd, Spec env (do
      let s ← get
      set { s with nextPid := s.nextPid + 1 }
      modifyProc s.nextPid fun _ => ⟨true, some cwd, fun _ => none, none⟩
      forN (forkFd s.nextPid) 0 openfile
      let p ← thisproc
      forkVmas s.nextPid (nvma + 1) p.vma none
      return (s.nextPid : ℤ)) (g.add cwd 1) fun _ => g := by
    intro cwd s hs
    unfold modifyProc
    rw [wp_bind, wp_get, wp_bind, wp_set, wp_bind, wp_modify]
    exact hrest s.nextPid _ hs.newProc
  unfold fork
  exact spec_cwd.seq fun cwd => spec_share.bind fun cwd => hnew cwd

/-- The closing part of `exit`: descriptors, then mappings. -/
theorem spec_exitFd (hc : g.ph = none) (ho : g.own = none) {fd : ℕ} :
    Spec env (exitFd env.sb fd) g fun _ => g := by
  unfold exitFd
  refine .get fun s _ => ?_
  split
  · exact .pure rfl
  · refine .seq (spec_fileClose hc) fun _ => spec_setFd.to fun _ => ?_
    rw [← ho]

theorem spec_exitVmas (hc : g.ph = none) (ho : g.own = none) {mem : ℕ → UInt8} {n : ℕ}
    {v : Option ℕ} : Spec env (exitVmas env.sb mem n v) g fun _ => g := by
  have hclose : ∀ f, Spec env (fileClose (services env.sb) f) g fun _ => g := fun f =>
    (spec_fileClose hc).to fun _ => by rw [← ho]
  induction n generalizing v with
  | zero => cases v <;> first | exact .pure rfl | exact .throw
  | succ n ih =>
    cases v with
    | none => exact .pure rfl
    | some v =>
      exact spec_getVma.seq fun x => .seq (spec_writeback hc) fun _ => (hclose _).seq fun _ =>
        spec_getVma.seq fun x => spec_modifyVma.seq fun _ => ih

/-- The process has no working directory any more. -/
theorem refs_clearCwd {s : Sys} {q ip p : ℕ} (hq : s.Live q) (hc : (s.procs q).cwd = some ip) :
    refs { s with procs := Function.update s.procs q { s.procs q with cwd := none } } p =
      refs s p - if p = ip then 1 else 0 := by
  unfold refs
  have hchange := countIf_change (P := CwdRef s p)
    (Q := CwdRef { s with procs := Function.update s.procs q { s.procs q with cwd := none } } p)
    hq.1 fun j hj => by
      unfold CwdRef
      dsimp only
      rw [Function.update_of_ne hj]
  have hold : CwdRef s p q ↔ p = ip := by
    unfold CwdRef
    rw [hc, Option.some.injEq]
    exact ⟨fun h => h.2.symm, fun h => ⟨hq.2, h.symm⟩⟩
  have hnew : ¬ CwdRef { s with
      procs := Function.update s.procs q { s.procs q with cwd := none } } p q := by
    rintro ⟨-, h⟩
    dsimp only at h
    rw [Function.update_self] at h
    cases h
  simp only [hold, if_neg hnew] at hchange
  dsimp only
  rw [hchange]
  omega

/-- The end of `exit`: the process drops its working directory and dies. Its `inode_put` has no
    context, so it must not free the inode if writes are tracked. -/
theorem wp_exitCwd (hs : Running env g s)
    (hput : ¬ env.track ∨ ∀ ip i, g.cwd = some ip → s.fs.inode ip = some i →
      ¬ (i.rc = 1 ∧ i.entry.numLinks = 0)) :
    wp (exitCwd env.sb) (fun _ t => Running env { g with cwd := none } t)
      (fun _ t => env.track → Logged env.sb env.w₀ t.fs.cache) s := by
  obtain ⟨ρ, hl, hacct⟩ := hs.ledger
  unfold exitCwd modifyProc
  rw [wp_bind, wp_get]
  have hcwd := hs.cwd
  rw [← hs.cur] at hcwd
  split
  · next hnone =>
    rw [hnone] at hcwd
    exact wp_pure.mpr ⟨⟨hs.ledger, hs.unused, hs.bound, hs.own, hs.dead⟩, hs.cur, hs.alive, hs.cwd.trans hcwd.symm⟩
  next ip hip =>
  rw [hip] at hcwd
  rw [wp_bind]
  show wp (fsCall .stop (inodePut env.sb none ip)) _ _ s
  unfold fsCall
  rw [wp_zoom, wp_adaptExcept]
  refine hl.put ?_ fun t ht => ?_
  · rcases hput with h | h
    · exact .inl (.inr ⟨rfl, h⟩)
    · exact .inr fun i hi => h ip i hcwd.symm hi
  · rw [wp_modify]
    have hlive : s.Live s.cur := by
      rw [hs.cur]
      exact hs.alive
    have hsame : ∀ q, (Function.update s.procs s.cur { s.procs s.cur with cwd := none } q).live =
        (s.procs q).live := fun q => by
      by_cases hq : q = s.cur
      · rw [hq, Function.update_self]
      · rw [Function.update_of_ne hq]
    refine ⟨⟨⟨_, ht, fun ha p => ?_⟩, hs.unused, hs.bound, hs.own, fun q hq =>
      (hsame q).trans (hs.dead q hq)⟩, hs.cur, ⟨hs.alive.1, (hsame _).trans hs.alive.2⟩, ?_⟩
    · have hrefs := refs_clearCwd (p := p) hlive hip
      have hfs : refs { s with
          fs := t
          procs := Function.update s.procs s.cur { s.procs s.cur with cwd := none } } p =
          refs { s with
            procs := Function.update s.procs s.cur { s.procs s.cur with cwd := none } } p :=
        refs_congr rfl (fun _ => Iff.rfl) (fun _ => Iff.rfl) rfl
      refine Eq.trans ?_ (congrArg (· + g.δ p) (hfs.trans hrefs)).symm
      unfold addRef
      by_cases hp : p = ip
      · rw [hp, Function.update_self, hacct ha, if_pos rfl]
        omega
      · rw [Function.update_of_ne hp, hacct ha, if_neg hp]
        omega
    · dsimp only
      rw [hs.cur, Function.update_self]

/-- The process dies. -/
theorem Running.die (h : Running env g s) (hc : g.cwd = none) : Accounts env g { s with
    procs := Function.update s.procs s.cur { s.procs s.cur with live := false } } := by
  obtain ⟨ρ, hl, hacct⟩ := h.ledger
  refine ⟨⟨ρ, hl, fun ha p => ?_⟩, h.unused, h.bound, h.own, fun q hq => ?_⟩
  · rw [hacct ha p]
    refine congrArg (· + _) (Eq.symm ?_)
    refine refs_congr rfl (fun q => ?_) (fun _ => Iff.rfl) rfl
    unfold CwdRef
    dsimp only
    by_cases hq : q = s.cur
    · have hnone : (s.procs s.cur).cwd = none := by
        rw [h.cur]
        exact h.cwd.trans hc
      rw [hq, Function.update_self, hnone]
      simp
    · rw [Function.update_of_ne hq]
  · dsimp only at hq ⊢
    by_cases hq' : q = s.cur
    · rw [hq', Function.update_self]
    · rw [Function.update_of_ne hq']
      exact h.dead q hq

/-- Lines 231-253 of `exit`: the files and the mappings are closed. -/
def exitClose (sb : SuperBlock) (mem : ℕ → UInt8) : SysM Unit := do
  forN (exitFd sb) 0 openfile
  let p ← thisproc
  exitVmas sb mem (2 * nvma + 1) p.vma

theorem spec_exitClose (hc : g.ph = none) (ho : g.own = none) {mem : ℕ → UInt8} :
    Spec env (exitClose env.sb mem) g fun _ => g :=
  (Spec.forN fun _ => spec_exitFd hc ho).seq fun _ => spec_thisproc.seq fun _ => spec_exitVmas hc ho

/-- The rule of `exit`. `P` is what else is known before the working directory is put. -/
theorem wp_exit (hs : Running env g s) (hc : g.ph = none) (ho : g.own = none) {mem : ℕ → UInt8}
    {P : Sys → Prop} (hclose : wp (exitClose env.sb mem) (fun _ t => P t) (fun _ _ => True) s)
    (hput : ∀ t, P t → ¬ env.track ∨ ∀ ip i, g.cwd = some ip → t.fs.inode ip = some i →
      ¬ (i.rc = 1 ∧ i.entry.numLinks = 0)) :
    wp (exit env.sb mem) (fun _ t => Accounts env g t)
      (fun _ t => env.track → Logged env.sb env.w₀ t.fs.cache) s := by
  have hexit : exit env.sb mem = (do
      exitClose env.sb mem
      exitCwd env.sb
      let s ← get
      modifyProc s.cur fun p => { p with live := false }
      return 0) := by
    unfold exit exitClose
    simp only [bind_assoc]
  rw [hexit, wp_bind]
  refine wp_mono (hclose.and (spec_exitClose hc ho s hs)) (fun _ t ht => ?_) fun _ _ h => h.2
  rw [wp_bind]
  refine (wp_exitCwd ht.2 (hput t ht.1)).imp fun _ u hu => ?_
  unfold modifyProc
  rw [wp_bind, wp_get, wp_bind, wp_modify, wp_pure]
  have hd := hu.die rfl
  exact ⟨hd.ledger, hd.unused, hd.bound, hd.own, hd.dead⟩

/-! ## `chdir` -/

/-- Lines 567-575 of `chdir`: the inode of the path and its entry, if there is one. -/
def chdirFind (sb : SuperBlock) (path : CString) : SysM (ℕ × Option (ℕ × InodeEntry)) := do
  let ctx ← (services sb).beginOp
  let ip ← namei (services sb) path (some ctx)
  match ip with
  | none => return (ctx, none)
  | some ip => do
    (services sb).lock ip
    let e ← (services sb).entry ip
    return (ctx, some (ip, e))

/-- The directory that `chdir` finds, if there is one. -/
def chdirTarget (sb : SuperBlock) (path : CString) (s : Sys) : Option ℕ :=
  match chdirFind sb path s with
  | .ok (_, some (ip, e)) _ => if e.type = inodeDirectory then some ip else none
  | _ => none

/-- The rest of `chdir`. -/
def chdirRest (sb : SuperBlock) (c : ℕ) : Option (ℕ × InodeEntry) → SysM ℤ
  | none => do
    (services sb).endOp c
    return -1
  | some (ip, e) =>
    if e.type ≠ inodeDirectory then do
      (services sb).unlock ip
      (services sb).put (some c) ip
      (services sb).endOp c
      return -1
    else do
      (services sb).unlock ip
      (services sb).put (some c) ip
      (services sb).endOp c
      (services sb).setCwd ip
      return 0

theorem chdir_eq {sb : SuperBlock} {path : CString} : chdir (services sb) path = (do
    let r ← chdirFind sb path
    chdirRest sb r.1 r.2) := by
  unfold chdir chdirFind
  simp only [bind_assoc]
  congr 1
  funext c
  congr 1
  funext ip
  cases ip with
  | none => rfl
  | some ip => simp only [bind_assoc, pure_bind, chdirRest]

/-- The rule of `chdir`. -/
theorem wp_chdir (hs : Running env g s) (hc : g.ph = none) {path : CString}
    (hcwd : env.acct → ∀ ip, chdirTarget env.sb path s = some ip → g.cwd = some ip) :
    wp (chdir (services env.sb) path) (fun _ t => Accounts env g t)
      (fun _ t => env.track → Logged env.sb env.w₀ t.fs.cache) s := by
  have hg : ∀ c, { { g with ph := some c } with ph := none } = g := fun c => by rw [← hc]
  have hfind : Spec env (chdirFind env.sb path) g
      fun r => ({ g with ph := some r.1 } : Ghost).got (r.2.map Prod.fst) := by
    unfold chdirFind
    refine .bind (spec_beginOp hc) fun c => .bind (spec_namei rfl) fun ip => ?_
    cases ip with
    | none => exact .pure rfl
    | some ip => exact spec_lock.seq fun _ => spec_entry.seq fun e => .pure rfl
  rw [chdir_eq, wp_bind]
  refine (hfind s hs).self.imp fun r t ht => ?_
  obtain ⟨ht, hr⟩ := ht
  rcases r with ⟨c, _ | ⟨ip, e⟩⟩
  · exact (Spec.seq (spec_endOp rfl (hg c)) (fun _ => .pure rfl) t ht).imp fun _ _ h => h.toAccounts
  unfold chdirRest
  refine wp.ite (fun _ => ?_) fun hdir => ?_
  · have hbad : Spec env (do
        (services env.sb).unlock ip
        (services env.sb).put (some c) ip
        (services env.sb).endOp c
        return (-1 : ℤ)) (({ g with ph := some c } : Ghost).add ip 1) fun _ => g :=
      spec_unlock.seq fun _ => spec_putEndOp rfl (hg c)
    exact (hbad t ht).imp fun _ _ h => h.toAccounts
  · have htarget : chdirTarget env.sb path s = some ip := by
      unfold chdirTarget
      rw [hr]
      exact if_pos (not_not.mp hdir)
    have hset : Spec env (do
        (services env.sb).unlock ip
        (services env.sb).put (some c) ip
        (services env.sb).endOp c
        (services env.sb).setCwd ip
        return (0 : ℤ)) (({ g with ph := some c } : Ghost).add ip 1)
        fun _ => { g with cwd := some ip } := by
      refine spec_unlock.seq fun _ => .seq (spec_put rfl) fun _ => ?_
      rw [Ghost.add_cancel]
      refine .seq (spec_endOp rfl (hg c)) fun _ => .seq (spec_setCwd fun ha => ?_) fun _ => .pure rfl
      exact hcwd ha ip htarget
    exact (hset t ht).imp fun _ _ h => ⟨h.ledger, h.unused, h.bound, h.own, h.dead⟩

end ShikiOS.Kernel.Calls
