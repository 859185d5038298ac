import ShikiOS.Fs.InodeJournal
import ShikiOS.Kernel.SysLedger

/-!
# System calls and the log (`kernel/sysfile.c`, `kernel/exec.c`, `kernel/proc.c`)

One rule for each function. A system call that works on a path runs one operation, in which all
its changes to the file system are made. The calls that write to an open file run one operation
after the other.

Results:
* `Logging.fsCall`: no call of the inode layer writes to the device.
* `log_operation`, `log_fileWrite`: a whole operation makes one commit.
-/

namespace ShikiOS.Kernel.Calls

open ShikiOS.Lib Fs Fs.Bcache Fs.Inodes

/-- The operation `ph` is running, or none, and at most `k` commits have been made. `own` is a file
    that the call has allocated and not opened yet. -/
structure Logging (B : Base) (ph : Option ℕ) (k : ℕ∞) (own : Option ℕ) (s : Sys) : Prop where
  journal : Journal B ph k [] s.fs.cache
  fits : opMaxNumBlocks + 1 ≤ B.sb.numLogBlocks
  unused : ∀ f, (s.files f).ref ≤ 0 → (s.files f).type ≠ .inode
  own : ∀ f, own = some f → (s.files f).type ≠ .inode ∧ 0 < (s.files f).ref

/-- `x` begins and ends no operation. -/
abbrev Logs {α : Type} (B : Base) (ph : Option ℕ) (k : ℕ∞) (own : Option ℕ) (x : SysM α) : Prop :=
  Triple (Logging B ph k own) x fun _ => Logging B ph k own

variable {B : Base} {ph ph' own : Option ℕ} {k k' : ℕ∞} {s t : Sys} {α β : Type} {p c f : ℕ}

theorem Logging.mono (h : Logging B ph k own s) (hk : k ≤ k') : Logging B ph k' own s :=
  ⟨h.journal.mono hk, h.fits, h.unused, h.own⟩

/-- A step that touches neither the file system nor the file table. -/
theorem Logging.same (h : Logging B ph k own s) (hfs : t.fs = s.fs) (hf : t.files = s.files) :
    Logging B ph k own t := by
  refine ⟨?_, h.fits, ?_, ?_⟩
  · rw [hfs]
    exact h.journal
  · rw [hf]
    exact h.unused
  · rw [hf]
    exact h.own

theorem logs_pure {a : α} : Logs B ph k own (pure a) := .pure fun _ hs => hs

theorem logs_get {g : Sys → SysM α} (h : ∀ s, Logs B ph k own (g s)) : Logs B ph k own (get >>= g) :=
  .get fun s hs => h s s hs

theorem logs_modify {g : Sys → Sys} (hfs : ∀ s, (g s).fs = s.fs) (hf : ∀ s, (g s).files = s.files) :
    Logs B ph k own (modify g) := .modify fun s hs => hs.same (hfs s) (hf s)

/-! ## Calls of the inode layer -/

/-- The rule of a call of the inode layer. -/
theorem Logging.fsCall {halt : Bcache.Stop → Halt} {x : Inodes.M α}
    (hx : opMaxNumBlocks + 1 ≤ B.sb.numLogBlocks →
      Triple (OnCache (Journal B ph k [])) x fun _ => OnCache (Journal B ph' k' [])) :
    Triple (Logging B ph k own) (fsCall halt x) fun _ => Logging B ph' k' own := by
  intro s hs
  unfold Calls.fsCall
  rw [wlp, wp_zoom, wp_adaptExcept]
  refine (hx hs.fits s.fs hs.journal).imp fun a t ht => ?_
  exact ⟨ht, hs.fits, hs.unused, hs.own⟩

section Services

/-- The log has room for a header and a block. -/
theorem pos_of_fits (h : opMaxNumBlocks + 1 ≤ B.sb.numLogBlocks) : 0 < B.sb.numLogBlocks := by omega

theorem maySync : MaySync B (some c) (some c) := .inl ⟨rfl, Option.some_ne_none c⟩

theorem logs_alloc {type : InodeType} : Logs B (some c) k own ((services B.sb).alloc (some c) type) :=
  Logging.fsCall fun h => journal_alloc (pos_of_fits h) maySync

theorem logs_lock : Logs B ph k own ((services B.sb).lock p) := Logging.fsCall fun _ => keeps_lock

theorem logs_unlock : Logs B ph k own ((services B.sb).unlock p) := Logging.fsCall fun _ => keeps_unlock

theorem logs_sync : Logs B (some c) k own ((services B.sb).sync (some c) p true) :=
  Logging.fsCall fun h => journal_sync (pos_of_fits h) fun _ => maySync

theorem logs_getInode {no : ℕ} : Logs B ph k own ((services B.sb).get no) :=
  Logging.fsCall fun h => journal_get (pos_of_fits h)

theorem logs_share : Logs B ph k own ((services B.sb).share p) := Logging.fsCall fun _ => keeps_share

/-- The rule of `inode_put`. Without a context nobody tracks the writes. -/
theorem logs_putWith {ctx : Option ℕ} (hctx : MaySync B ph ctx) :
    Logs B ph k own ((services B.sb).put ctx p) :=
  Logging.fsCall fun h => journal_put (pos_of_fits h) hctx

theorem logs_put : Logs B (some c) k own ((services B.sb).put (some c) p) := logs_putWith maySync

theorem logs_read {off count : ℕ} : Logs B ph k own ((services B.sb).read p off count) :=
  Logging.fsCall fun h => journal_readInode (pos_of_fits h)

theorem logs_write {src : List UInt8} {off : ℕ} :
    Logs B (some c) k own ((services B.sb).write (some c) p src off) :=
  Logging.fsCall fun h => journal_writeInode (pos_of_fits h) maySync

theorem logs_inodeNo : Logs B ph k own ((services B.sb).inodeNo p) :=
  Logging.fsCall fun _ => keeps_deref.seq fun _ => keeps_pure

theorem logs_entry : Logs B ph k own ((services B.sb).entry p) :=
  Logging.fsCall fun _ => keeps_deref.seq fun _ => keeps_pure

theorem logs_modifyEntry {g : InodeEntry → InodeEntry} :
    Logs B ph k own ((services B.sb).modifyEntry p g) := Logging.fsCall fun _ => keeps_modifyEntry

/-- The end of an operation is the commit. -/
theorem log_endOp : Triple (Logging B (some c) k own) ((services B.sb).endOp c)
    fun _ => Logging B none (k + 1) own :=
  Logging.fsCall fun h => onCache_call (Journal.endOp h c)

theorem log_beginOp : Triple (Logging B none k own) (services B.sb).beginOp
    fun c => Logging B (some c) k own := by
  intro s hs
  show wlp beginOp _ s
  unfold beginOp
  rw [wlp, wp_bind, wp_get, wp_bind]
  refine (Logging.fsCall (fun _ => onCache_call (Journal.beginOp s.cur)) s hs).imp fun _ t ht => ?_
  exact wp_pure.mpr ht

theorem logs_panic : Logs B ph k own ((services B.sb).panic : SysM α) := .throw

theorem logs_thisproc : Logs B ph k own thisproc := logs_get fun _ => logs_pure

theorem logs_cwd : Logs B ph k own (services B.sb).cwd := by
  show Logs B ph k own getCwd
  unfold getCwd
  refine logs_thisproc.seq fun q => ?_
  split
  · exact logs_pure
  · exact .throw

/-- An operation makes one commit. -/
theorem log_operation {body : ℕ → SysM α}
    (hbody : ∀ c, Triple (Logging B (some c) k none) (body c) fun _ => Logging B none (k + 1) none) :
    Triple (Logging B none k none) ((services B.sb).beginOp >>= body) fun _ => Logging B none (k + 1) none :=
  log_beginOp.bind hbody

/-- A call that returns before its operations. -/
theorem log_return {j : ℕ∞} {a : α} :
    Triple (Logging B ph k own) (pure a : SysM α) fun _ => Logging B ph (k + j) own :=
  .pure fun _ hs => hs.mono le_self_add

/-- The end of the operation of a call. -/
theorem log_endReturn {r : α} : Triple (Logging B (some c) k none) (do
    (services B.sb).endOp c
    return r) fun _ => Logging B none (k + 1) none := log_endOp.seq fun _ => logs_pure

theorem log_putReturn {r : α} : Triple (Logging B (some c) k none) (do
    (services B.sb).put (some c) p
    (services B.sb).endOp c
    return r) fun _ => Logging B none (k + 1) none := logs_put.seq fun _ => log_endReturn

theorem log_unlockReturn {r : α} : Triple (Logging B (some c) k none) (do
    (services B.sb).unlock p
    (services B.sb).put (some c) p
    (services B.sb).endOp c
    return r) fun _ => Logging B none (k + 1) none := logs_unlock.seq fun _ => log_putReturn

end Services

/-! ## The file table and the processes -/

/-- A file changes. -/
theorem Logging.withFile (h : Logging B ph k own s) {x : File} {own' : Option ℕ}
    (hx : x.ref ≤ 0 → x.type ≠ .inode) (ho : ∀ j, own' = some j → j ≠ f → own = some j)
    (hown : own' = some f → x.type ≠ .inode ∧ 0 < x.ref) :
    Logging B ph k own' { s with files := Function.update s.files f x } := by
  refine ⟨h.journal, h.fits, fun j hj => ?_, fun j hj => ?_⟩
  all_goals
    dsimp only at hj ⊢
    by_cases hne : j = f
  · subst hne
    rw [Function.update_self] at hj ⊢
    exact hx hj
  · rw [Function.update_of_ne hne] at hj ⊢
    exact h.unused j hj
  · subst hne
    rw [Function.update_self]
    exact hown hj
  · rw [Function.update_of_ne hne]
    exact h.own j (ho j hj hne)

theorem logs_modifyFile {g : File → File}
    (hg : ∀ x, (g x).type = x.type ∧ (0 < (g x).ref ↔ 0 < x.ref)) : Logs B ph k own (modifyFile f g) := by
  apply Triple.modify
  intro s hs
  obtain ⟨htype, href⟩ := hg (s.files f)
  refine hs.withFile (fun hle => ?_) (fun j hj _ => hj) fun ho => ?_
  · rw [htype]
    exact hs.unused f (not_lt.mp fun hpos => absurd (href.mpr hpos) (not_lt.mpr hle))
  · rw [htype, href]
    exact hs.own f ho

theorem logs_fileDup : Logs B ph k own (fileDup f) := by
  apply logs_modifyFile
  intro x
  split_ifs with h
  · exact ⟨rfl, Iff.rfl⟩
  · refine ⟨rfl, ?_⟩
    dsimp only
    omega

theorem logs_moveOff {g : File → ℕ} : Logs B ph k own (modifyFile f fun x => { x with off := g x }) :=
  logs_modifyFile fun _ => ⟨rfl, Iff.rfl⟩

theorem logs_getFile : Logs B ph k own (getFile f) := logs_get fun _ => logs_pure

theorem logs_modifyProc {q : ℕ} {g : Proc → Proc} : Logs B ph k own (modifyProc q g) :=
  logs_modify (fun _ => rfl) fun _ => rfl

/-- The rule of `file_alloc`: the call owns the file that it has got. -/
theorem log_fileAlloc : Triple (Logging B ph k none) (services B.sb).fileAlloc
    fun r => Logging B ph k r := by
  show Triple _ fileAlloc _
  unfold fileAlloc
  apply Triple.get
  intro s hs
  split
  · exact wp_pure.mpr hs
  next f hf =>
  have htype := hs.unused f (findFree_spec hf).1.le
  unfold modifyFile
  rw [wlp, wp_bind, wp_modify, wp_pure]
  refine hs.withFile (fun _ => htype) (fun j hj hne => ?_) fun _ => ⟨htype, Int.one_pos⟩
  cases hj
  exact absurd rfl hne

theorem logs_fdAlloc : Logs B ph k own ((services B.sb).fdAlloc f) := by
  show Logs B ph k own (fdAlloc f)
  unfold fdAlloc
  apply logs_get
  intro s
  split
  · exact logs_pure
  · exact logs_modifyProc.seq fun _ => logs_pure

/-- The rule of lines 66-70 of `file_close`. A file that the call has not opened yet is none with
    an inode. -/
theorem log_dropRef : Triple (Logging B ph k own) ((services B.sb).dropRef f)
    fun r t => Logging B ph k none t ∧ (own = some f → ∀ x, r = some x → x.type ≠ .inode) := by
  intro s hs
  show wlp (dropRef f) _ s
  unfold dropRef modifyFile getFile
  simp only [wlp, wp_bind, wp_modify, wp_get, wp_pure, Function.update_self]
  split_ifs with hzero
  · rw [wp_bind, wp_modify, wp_pure, Function.update_idem]
    refine ⟨hs.withFile (fun _ => by decide) (fun j hj => by cases hj) (fun hj => by cases hj), ?_⟩
    intro ho x hx
    cases hx
    exact (hs.own f ho).1
  · rw [wp_pure]
    refine ⟨hs.withFile (fun hle => ?_) (fun j hj => by cases hj) (fun hj => by cases hj), ?_⟩
    · dsimp only at hle ⊢
      exact hs.unused f (by omega)
    · intro ho x hx
      cases hx

/-- The rule of `file_close` outside an operation. -/
theorem log_fileClose : Triple (Logging B none k none) (fileClose (services B.sb) f)
    fun _ => Logging B none (k + 1) none := by
  unfold fileClose
  refine (log_dropRef.imp fun _ _ ht => ht.1).seq fun r => ?_
  split
  · exact log_operation fun c => logs_put.seq fun _ => log_endOp
  · exact log_return

/-- A file that is not open yet has no inode to put. -/
theorem log_closeOwn : Triple (Logging B ph k (some f)) (fileClose (services B.sb) f)
    fun _ => Logging B ph k none := by
  unfold fileClose
  refine Triple.bind log_dropRef fun r => ?_
  split
  · intro s hs
    exact absurd rfl (hs.2 rfl _ rfl)
  · exact .pure fun _ hs => hs.1

/-- The rule of the assignments of `openat`. -/
theorem log_openFile {g : File → File} (hg : ∀ x, (g x).ref = x.ref) :
    Triple (Logging B ph k (some f)) ((services B.sb).modifyFile f g) fun _ => Logging B ph k none := by
  apply Triple.modify
  intro s hs
  refine hs.withFile (fun hle => ?_) (fun j hj => by cases hj) fun hj => by cases hj
  rw [hg] at hle
  exact absurd (hs.own f rfl).2 (not_lt.mpr hle)

/-! ## Paths -/

theorem logs_dirSearch {name : CString} {n i : ℕ} {cur : List UInt8} :
    Logs B ph k own (dirSearch (services B.sb) p name n i cur) := by
  induction n generalizing i cur with
  | zero => exact logs_pure
  | succ n ih =>
    unfold dirSearch
    exact logs_entry.seq fun e => .ite (logs_read.seq fun bytes => .ite logs_pure ih) logs_pure

theorem logs_inodeLookup {name : CString} : Logs B ph k own (inodeLookup (services B.sb) p name) := by
  unfold inodeLookup
  exact logs_entry.seq fun e => .ite logs_panic logs_dirSearch

theorem logs_inodeInsert {name : CString} {no : ℕ} :
    Logs B (some c) k own (inodeInsert (services B.sb) (some c) p name no) := by
  unfold inodeInsert
  refine logs_inodeLookup.seq fun found => ?_
  split
  · exact logs_pure
  · exact logs_entry.seq fun e => logs_write.seq fun _ => logs_pure

theorem logs_namexLoop {parent : Bool} {elems : List CString} :
    Logs B (some c) k own (namexLoop (services B.sb) (some c) parent elems p) := by
  induction elems generalizing p with
  | nil =>
    unfold namexLoop
    exact .ite (logs_put.seq fun _ => logs_pure) logs_pure
  | cons name rest ih =>
    unfold namexLoop
    refine logs_lock.seq fun _ => logs_entry.seq fun e => .ite ?_ (.ite ?_ ?_)
    · exact logs_unlock.seq fun _ => logs_put.seq fun _ => logs_pure
    · exact logs_unlock.seq fun _ => logs_pure
    · refine logs_inodeLookup.seq fun found => logs_getInode.seq fun next => ?_
      split
      · exact logs_unlock.seq fun _ => logs_put.seq fun _ => logs_pure
      · exact logs_unlock.seq fun _ => logs_put.seq fun _ => ih

theorem logs_namex {path : CString} {parent : Bool} :
    Logs B (some c) k own (namex (services B.sb) path parent (some c)) := by
  unfold namex
  refine .ite (logs_getInode.seq fun cur => ?_) (logs_cwd.seq fun cwd => logs_share.seq fun cur => logs_namexLoop)
  split
  · exact logs_panic
  · exact logs_namexLoop

theorem logs_namei {path : CString} : Logs B (some c) k own (namei (services B.sb) path (some c)) := by
  unfold namei
  exact logs_namex.seq fun r => logs_pure

theorem logs_nameiparent {path : CString} :
    Logs B (some c) k own (nameiparent (services B.sb) path (some c)) := logs_namex

/-! ## `unlinkat` and `create` -/

theorem logs_isdirempty : Logs B ph k own (isdirempty (services B.sb) p) := by
  unfold isdirempty
  generalize dirRounds = n
  generalize 2 * dirEntrySize = off
  induction n generalizing off with
  | zero => exact logs_pure
  | succ n ih =>
    unfold isdiremptyFrom
    refine logs_entry.seq fun e => .ite (logs_read.seq fun de => ?_) logs_pure
    exact .ite logs_panic (.ite logs_pure (ih _))

theorem log_unlinkat {fd : ℤ} {path : CString} {flag : ℤ} :
    Triple (Logging B none k none) (unlinkat (services B.sb) fd path flag)
      fun _ => Logging B none (k + 1) none := by
  have hremove : ∀ c dp ip off, Triple (Logging B (some c) k none)
      (unlinkatRemove (services B.sb) c dp ip off) fun _ => Logging B none (k + 1) none := by
    intro c dp ip off
    unfold unlinkatRemove
    refine logs_write.seq fun cnt => .ite .throw (logs_entry.seq fun e => ?_)
    refine Triple.seq (.ite (logs_modifyEntry.seq fun _ => logs_sync) logs_pure) fun _ => ?_
    refine logs_unlock.seq fun _ => logs_put.seq fun _ => logs_modifyEntry.seq fun _ => ?_
    exact logs_sync.seq fun _ => log_unlockReturn
  have hfound : ∀ c dp no off, Triple (Logging B (some c) k none)
      (unlinkatFound (services B.sb) c dp no off) fun _ => Logging B none (k + 1) none := by
    intro c dp no off
    unfold unlinkatFound
    refine logs_getInode.seq fun ip => ?_
    split
    · exact .throw
    · refine logs_lock.seq fun _ => logs_entry.seq fun e => .ite .throw ?_
      refine Triple.seq (.ite logs_isdirempty logs_pure) fun empty => .ite ?_ (hremove _ _ _ _)
      exact logs_unlock.seq fun _ => logs_put.seq fun _ => log_unlockReturn
  unfold unlinkat
  refine .ite .throw (.ite log_return (log_operation fun c => logs_nameiparent.seq fun dp => ?_))
  split
  · exact log_endReturn
  · refine logs_lock.seq fun _ => .ite log_unlockReturn (logs_inodeLookup.seq fun found => ?_)
    split
    · exact log_unlockReturn
    · exact hfound _ _ _ _

theorem logs_create {path : CString} {type : InodeType} {major minor : UInt16} :
    Logs B (some c) k own (create (services B.sb) path type major minor (some c)) := by
  have hnew : ∀ parent name, Logs B (some c) k own
      (createNew (services B.sb) (some c) parent name type major minor) := by
    intro parent name
    unfold createNew
    refine logs_alloc.seq fun no => logs_getInode.seq fun ip => ?_
    split
    · exact logs_put.seq fun _ => logs_pure
    · refine logs_lock.seq fun _ => logs_modifyEntry.seq fun _ => logs_sync.seq fun _ => ?_
      refine logs_entry.seq fun e => logs_inodeNo.seq fun ino => Triple.seq (.ite ?_ logs_pure) fun _ => ?_
      · refine logs_modifyEntry.seq fun _ => logs_sync.seq fun _ => logs_inodeInsert.seq fun _ => ?_
        exact logs_inodeNo.seq fun pno => logs_inodeInsert.seq fun _ => logs_pure
      · refine logs_inodeInsert.seq fun _ => logs_unlock.seq fun _ => ?_
        exact logs_put.seq fun _ => logs_pure
  have hold : ∀ parent ip, Logs B (some c) k own
      (createExisting (services B.sb) (some c) parent ip type) := by
    intro parent ip
    unfold createExisting
    refine logs_unlock.seq fun _ => logs_put.seq fun _ => logs_lock.seq fun _ => logs_entry.seq fun e => ?_
    exact .ite logs_pure (logs_unlock.seq fun _ => logs_put.seq fun _ => logs_pure)
  unfold create
  refine logs_nameiparent.seq fun parent => ?_
  split
  · exact logs_pure
  · refine (show Logs B (some c) k own (pure ()) from logs_pure).seq fun _ => ?_
    refine logs_inodeLookup.seq fun found => logs_getInode.seq fun ip => ?_
    split
    · exact hold _ _
    · exact hnew _ _

/-! ## Calls on paths -/

theorem log_createAt {path : CString} {type : InodeType} {major minor : UInt16} :
    Triple (Logging B none k none) (createAt (services B.sb) path type major minor)
      fun _ => Logging B none (k + 1) none := by
  unfold createAt
  refine log_operation fun c => logs_create.seq fun ip => ?_
  split
  · exact log_endReturn
  · exact log_unlockReturn

theorem log_mkdirat {dirfd : ℤ} {path : CString} {mode : ℤ} :
    Triple (Logging B none k none) (mkdirat (services B.sb) dirfd path mode)
      fun _ => Logging B none (k + 1) none := by
  unfold mkdirat
  exact .ite log_return (.ite log_return (.ite log_return log_createAt))

theorem log_mknodat {dirfd : ℤ} {path : CString} {dev : ℕ} :
    Triple (Logging B none k none) (mknodat (services B.sb) dirfd path dev)
      fun _ => Logging B none (k + 1) none := by
  unfold mknodat
  exact .ite log_return (.ite log_return log_createAt)

theorem log_newfstatat {dirfd : ℤ} {path : CString} {w : Bool} {flags : ℤ} :
    Triple (Logging B none k none) (newfstatat (services B.sb) dirfd path w flags)
      fun _ => Logging B none (k + 1) none := by
  unfold newfstatat
  refine .ite log_return (.ite log_return (.ite log_return (log_operation fun c => ?_)))
  refine logs_namei.seq fun ip => ?_
  split
  · exact log_endReturn
  · exact logs_lock.seq fun _ => logs_entry.seq fun _ => log_unlockReturn

theorem log_chdir {path : CString} : Triple (Logging B none k none) (chdir (services B.sb) path)
    fun _ => Logging B none (k + 1) none := by
  unfold chdir
  refine log_operation fun c => logs_namei.seq fun ip => ?_
  split
  · exact log_endReturn
  · refine logs_lock.seq fun _ => logs_entry.seq fun e => .ite log_unlockReturn ?_
    refine logs_unlock.seq fun _ => logs_put.seq fun _ => log_endOp.seq fun _ => ?_
    exact (logs_get fun s => logs_modifyProc).seq fun _ => logs_pure

theorem logs_loadElf : Logs B ph k own (loadElf (services B.sb) p) := by
  have hloop : ∀ n off sz first, Logs B ph k own (loadSegments (services B.sb) p n off sz first) := by
    intro n
    induction n with
    | zero => exact fun _ _ _ => logs_pure
    | succ n ih =>
      intro off sz first
      unfold loadSegments
      refine logs_read.seq fun bytes => .ite logs_pure (.ite (ih _ _ _) (.ite logs_pure ?_))
      refine .ite logs_pure (.ite logs_pure (logs_read.seq fun segment => ?_))
      exact .ite logs_pure (ih _ _ _)
  unfold loadElf
  exact logs_read.seq fun bytes => .ite logs_pure (.ite logs_pure (hloop _ _ _ _))

theorem log_execve {path : CString} : Triple (Logging B none k none) (execve (services B.sb) path)
    fun _ => Logging B none (k + 1) none := by
  unfold execve
  refine log_operation fun c => logs_namei.seq fun ip => ?_
  split
  · exact log_endReturn
  · exact logs_lock.seq fun _ => logs_loadElf.seq fun loaded => log_unlockReturn

theorem log_openat {dirfd : ℤ} {path : CString} {omode : ℕ} :
    Triple (Logging B none k none) (openat (services B.sb) dirfd path omode)
      fun _ => Logging B none (k + 1) none := by
  have hfile : ∀ c ip, Triple (Logging B (some c) k none) (openatFile (services B.sb) c ip omode)
      fun _ => Logging B none (k + 1) none := by
    intro c ip
    unfold openatFile
    refine log_fileAlloc.bind fun f => ?_
    cases f with
    | none => exact log_unlockReturn
    | some f =>
      refine logs_fdAlloc.seq fun fd => ?_
      cases fd with
      | none => exact log_closeOwn.seq fun _ => log_unlockReturn
      | some fd =>
        refine logs_unlock.seq fun _ => log_endOp.seq fun _ => ?_
        exact (log_openFile (by intro x; rfl)).seq fun _ => logs_pure
  unfold openat
  refine .ite log_return (.ite log_return (log_operation fun c => ?_))
  refine .ite (logs_create.seq fun ip => ?_) (logs_namei.seq fun ip => ?_)
  · split
    · exact log_endReturn
    · exact hfile _ _
  · split
    · exact log_endReturn
    · exact logs_lock.seq fun _ => hfile _ _

/-! ## Calls on descriptors -/

theorem logs_fd2file {fd : ℤ} : Logs B ph k own (fd2file fd) := by
  unfold fd2file
  exact logs_thisproc.seq fun _ => .ite logs_pure logs_pure

theorem logs_setFd {q fd : ℕ} {f : Option ℕ} : Logs B ph k own (setFd q fd f) := logs_modifyProc

theorem logs_fileStat : Logs B ph k own (fileStat B.sb f) := by
  unfold fileStat
  refine logs_getFile.seq fun x => .ite logs_pure (.ite ?_ logs_pure)
  exact logs_lock.seq fun _ => logs_entry.seq fun _ => logs_unlock.seq fun _ => logs_pure

theorem logs_fileRead {n : ℕ} : Logs B ph k own (fileRead B.sb f n) := by
  unfold fileRead
  refine logs_getFile.seq fun x => .ite logs_pure (.ite ?_ logs_pure)
  refine logs_lock.seq fun _ => logs_read.seq fun _ => logs_moveOff.seq fun _ => ?_
  exact logs_unlock.seq fun _ => logs_pure

theorem logs_dup {fd : ℤ} : Logs B ph k own (dup fd) := by
  unfold dup
  refine logs_fd2file.seq fun f => ?_
  split
  · exact logs_pure
  · refine (show Logs B ph k own (fdAlloc _) from logs_fdAlloc).seq fun fd => ?_
    split
    · exact logs_pure
    · exact logs_fileDup.seq fun _ => logs_pure

theorem logs_readCall {fd size : ℤ} {w : Bool} : Logs B ph k own (Calls.read B.sb fd size w) := by
  unfold Calls.read
  refine logs_fd2file.seq fun f => ?_
  split
  · exact logs_pure
  · exact .ite logs_pure logs_fileRead

theorem logs_fstat {fd : ℤ} {w : Bool} : Logs B ph k own (fstat B.sb fd w) := by
  unfold fstat
  refine logs_fd2file.seq fun f => ?_
  split
  · exact logs_pure
  · exact .ite logs_pure logs_fileStat

theorem log_close {fd : ℤ} : Triple (Logging B none k none) (close B.sb fd)
    fun _ => Logging B none (k + 1) none := by
  unfold close
  refine logs_fd2file.seq fun f => ?_
  split
  · exact log_return
  · refine Triple.get fun s hs => ?_
    exact logs_setFd.seq (fun _ => log_fileClose.seq fun _ => logs_pure) s hs

/-! ## Calls of several operations -/

/-- An operation among others. -/
theorem log_operations {body : ℕ → SysM α}
    (hbody : ∀ c, Triple (Logging B (some c) ⊤ none) (body c) fun _ => Logging B none ⊤ none) :
    Logs B none ⊤ none ((services B.sb).beginOp >>= body) := log_beginOp.bind hbody

theorem log_endOps : Triple (Logging B (some c) ⊤ none) ((services B.sb).endOp c)
    fun _ => Logging B none ⊤ none := log_endOp.imp fun _ _ ht => ht.mono le_top

/-- A call of some operations among others. -/
theorem logs_of_log {x : SysM α} {j : ℕ∞}
    (hx : Triple (Logging B none ⊤ none) x fun _ => Logging B none (⊤ + j) none) :
    Logs B none ⊤ none x := hx.imp fun _ _ ht => ht.mono le_top

/-- The operations in which `file_write` writes `n` bytes. -/
def writeOps (n : ℕ) : ℕ := (n + opMaxBytes - 1) / opMaxBytes

theorem opMaxBytes_pos : 0 < opMaxBytes := by decide

/-- One operation writes `opMaxBytes` bytes, or what is left. -/
theorem writeOps_step {n : ℕ} (hn : 0 < n) : writeOps n = writeOps (n - opMaxBytes) + 1 := by
  unfold writeOps
  by_cases hle : n ≤ opMaxBytes
  · have h1 : n + opMaxBytes - 1 = n - 1 + opMaxBytes := by omega
    have h2 : (0 + opMaxBytes - 1) / opMaxBytes = 0 := by decide
    rw [h1, Nat.add_div_right _ opMaxBytes_pos, Nat.div_eq_of_lt (by omega), Nat.sub_eq_zero_of_le hle, h2]
  · have h1 : n + opMaxBytes - 1 = n - opMaxBytes + opMaxBytes - 1 + opMaxBytes := by omega
    rw [h1, Nat.add_div_right _ opMaxBytes_pos]

theorem log_fileWrite {addr : List UInt8} : Triple (Logging B none k none) (fileWrite B.sb f addr)
    fun _ => Logging B none (k + writeOps addr.length) none := by
  have hloop : ∀ ip n addr k, Triple (Logging B none k none) (fileWriteLoop B.sb f ip n addr)
      fun _ => Logging B none (k + writeOps addr.length) none := by
    intro ip n
    induction n with
    | zero => exact fun _ _ => log_return
    | succ n ih =>
      intro addr k
      unfold fileWriteLoop
      split_ifs with hnil
      · exact log_return
      have hops := writeOps_step (List.length_pos_iff.mpr hnil)
      have hsum : k + (writeOps addr.length : ℕ) = k + 1 + (writeOps (addr.drop opMaxBytes).length : ℕ) := by
        rw [List.length_drop, hops]
        push_cast
        rw [add_assoc, add_comm 1]
      rw [hsum]
      refine log_beginOp.bind fun c => logs_lock.seq fun _ => logs_getFile.seq fun x => ?_
      refine logs_write.seq fun wlen => logs_moveOff.seq fun _ => logs_unlock.seq fun _ => ?_
      exact log_endOp.seq fun _ => ih _ _
  unfold fileWrite
  exact logs_getFile.seq fun x => .ite log_return (.ite ((hloop _ _ _ _).seq fun _ => logs_pure) log_return)

theorem log_write {fd : ℤ} {buffer : List UInt8} {r : Bool} :
    Triple (Logging B none k none) (Calls.write B.sb fd buffer r)
      fun _ => Logging B none (k + writeOps buffer.length) none := by
  unfold Calls.write
  refine logs_fd2file.seq fun f => ?_
  split
  · exact log_return
  · exact .ite log_return log_fileWrite

/-- The operations of `writev`. -/
def writevOps (iov : List (List UInt8 × Bool)) : ℕ := (iov.map fun b => writeOps b.1.length).sum

theorem log_writev {fd : ℤ} {iov : List (List UInt8 × Bool)} {r : Bool} :
    Triple (Logging B none k none) (writev B.sb fd iov r)
      fun _ => Logging B none (k + writevOps iov) none := by
  have hloop : ∀ f iov tot k, Triple (Logging B none k none) (writevLoop B.sb f iov tot)
      fun _ => Logging B none (k + writevOps iov) none := by
    intro f iov
    induction iov with
    | nil => exact fun _ _ => log_return
    | cons b iov ih =>
      intro tot k
      have hsum : k + (writevOps (b :: iov) : ℕ) = k + (writeOps b.1.length : ℕ) + (writevOps iov : ℕ) := by
        unfold writevOps
        rw [List.map_cons, List.sum_cons]
        push_cast
        rw [add_assoc]
      unfold writevLoop
      rw [hsum]
      refine .ite (.pure fun _ hs => hs.mono ?_) (log_fileWrite.seq fun n => ih _ _)
      rw [add_assoc]
      exact le_self_add
  unfold writev
  refine logs_fd2file.seq fun f => ?_
  split
  · exact log_return
  · exact .ite log_return (hloop _ _ _ _)

/-! ## Mappings -/

section Mappings

variable {v : ℕ}

theorem logs_getVma : Logs B ph k own (getVma v) := logs_get fun _ => logs_pure

theorem logs_modifyVma {g : Vma → Vma} : Logs B ph k own (modifyVma v g) :=
  logs_modify (fun _ => rfl) fun _ => rfl

theorem logs_vmaAlloc : Logs B ph k own vmaAlloc := by
  unfold vmaAlloc
  apply logs_get
  intro s
  split
  · exact logs_pure
  · exact .throw

theorem logs_lastVma {n : ℕ} : Logs B ph k own (lastVma n v) := by
  induction n generalizing v with
  | zero => exact .throw
  | succ n ih =>
    unfold lastVma
    refine logs_getVma.seq fun x => ?_
    split
    · exact logs_pure
    · exact ih

theorem logs_vmaOf {addr n : ℕ} {pre v : Option ℕ} : Logs B ph k own (vmaOf addr n pre v) := by
  induction n generalizing pre v with
  | zero => cases v <;> first | exact logs_pure | exact .throw
  | succ n ih =>
    cases v with
    | none => exact logs_pure
    | some v => exact logs_getVma.seq fun x => .ite logs_pure ih

theorem logs_writeback {addr : ℕ} {n : ℤ} {mem : ℕ → UInt8} :
    Logs B none ⊤ none (writeback B.sb v addr n mem) := by
  have hloop : ∀ m i, Logs B none ⊤ none (writebackLoop B.sb v addr n mem m i) := by
    intro m
    induction m with
    | zero => exact fun _ => logs_pure
    | succ m ih =>
      intro i
      unfold writebackLoop
      refine .ite (logs_getVma.seq fun x => logs_getFile.seq fun f => ?_) logs_pure
      refine log_operations fun c => logs_lock.seq fun _ => logs_write.seq fun r => ?_
      exact logs_unlock.seq fun _ => log_endOps.seq fun _ => ih _
  unfold writeback
  exact logs_getVma.seq fun x => .ite logs_pure (.ite .throw (hloop _ _))

theorem logs_placeVma {length : ℤ} : Logs B ph k own (placeVma v length) := by
  unfold placeVma
  apply logs_get
  intro s
  have hfirst : ∀ q, Logs B ph k own (do
      modifyVma v fun x => { x with start := vmaStart, stop := u64 (vmaStart + u64OfInt length) }
      modifyProc q fun p => { p with vma := some v }) :=
    fun q => logs_modifyVma.seq fun _ => logs_modifyProc
  dsimp only
  split
  · exact hfirst _
  · refine .ite (hfirst _) (logs_lastVma.seq fun pv => logs_getVma.seq fun x => ?_)
    exact logs_modifyVma.seq fun _ => logs_modifyVma.seq fun _ => logs_modifyVma

theorem logs_mmap {addr : ℕ} {length : ℤ} {prot flags : ℕ} {fd offset : ℤ} :
    Logs B ph k own (mmap addr length prot flags fd offset) := by
  unfold mmap
  refine .ite .throw (.ite .throw (logs_fd2file.seq fun f => ?_))
  split
  · exact .throw
  · refine logs_getFile.seq fun x => .ite logs_pure (.ite logs_pure (logs_vmaAlloc.seq fun v => ?_))
    refine logs_modifyVma.seq fun _ => logs_fileDup.seq fun _ => logs_placeVma.seq fun _ => ?_
    exact logs_getVma.seq fun x => logs_pure

theorem logs_munmap {addr length : ℕ} {mem : ℕ → UInt8} :
    Logs B none ⊤ none (munmap B.sb addr length mem) := by
  have hunmap : ∀ v pre, Logs B none ⊤ none (unmap B.sb v pre addr length mem) := by
    intro v pre
    unfold unmap
    refine logs_getVma.seq fun x => .ite .throw (.ite ?_ (logs_modifyVma.seq fun _ => logs_pure))
    refine logs_writeback.seq fun _ => logs_getVma.seq fun x => .ite ?_ (logs_modifyVma.seq fun _ => logs_pure)
    refine (logs_of_log log_fileClose).seq fun _ => logs_getVma.seq fun x => ?_
    split
    · exact logs_get fun s => logs_modifyProc.seq fun _ => logs_modifyVma.seq fun _ => logs_pure
    · exact logs_modifyVma.seq fun _ => logs_modifyVma.seq fun _ => logs_modifyVma.seq fun _ => logs_pure
  unfold munmap
  refine logs_thisproc.seq fun p => logs_vmaOf.seq fun found => ?_
  split
  · exact logs_pure
  · exact hunmap _ _

theorem logs_pageFault {addr : ℕ} : Logs B ph k own (pageFault B.sb addr) := by
  unfold pageFault
  refine logs_thisproc.seq fun p => logs_vmaOf.seq fun found => ?_
  split
  · exact logs_pure
  · refine logs_getVma.seq fun x => logs_getFile.seq fun f => logs_lock.seq fun _ => ?_
    exact logs_read.seq fun _ => logs_unlock.seq fun _ => logs_pure

end Mappings

/-! ## `fork` and `exit` -/

theorem logs_forkVmas {child n : ℕ} {v pre : Option ℕ} : Logs B ph k own (forkVmas child n v pre) := by
  induction n generalizing v pre with
  | zero => cases v <;> first | exact logs_pure | exact .throw
  | succ n ih =>
    cases v with
    | none => exact logs_pure
    | some pv =>
      unfold forkVmas
      refine logs_vmaAlloc.seq fun v => logs_getVma.seq fun x => logs_modifyVma.seq fun _ => ?_
      refine logs_fileDup.seq fun _ => Triple.seq (R := Logging B ph k own) ?_ fun _ =>
        logs_getVma.seq fun x => ih
      split
      · exact logs_modifyProc
      · exact logs_modifyVma

theorem logs_fork : Logs B ph k own (fork B.sb) := by
  have hfd : ∀ child fd, Logs B ph k own (forkFd child fd) := by
    intro child fd
    unfold forkFd
    refine logs_thisproc.seq fun p => ?_
    split
    · exact logs_pure
    · exact logs_fileDup.seq fun _ => logs_setFd
  have hrest : ∀ child cwd, Logs B ph k own (do
      modifyProc child fun _ => ⟨true, some cwd, fun _ => none, none⟩
      forN (forkFd child) 0 openfile
      let p ← thisproc
      forkVmas child (nvma + 1) p.vma none
      return (child : ℤ)) := by
    intro child cwd
    refine logs_modifyProc.seq fun _ => (Triple.forN (hfd child) _ _).seq fun _ => ?_
    exact logs_thisproc.seq fun p => logs_forkVmas.seq fun _ => logs_pure
  unfold fork
  refine logs_cwd.seq fun cwd => logs_share.seq fun cwd => Triple.get fun s hs => ?_
  rw [wlp, wp_bind, wp_set]
  exact hrest _ _ _ (hs.same rfl rfl)

theorem logs_exitFd {fd : ℕ} : Logs B none ⊤ none (exitFd B.sb fd) := by
  unfold exitFd
  apply logs_get
  intro s
  split
  · exact logs_pure
  · exact (logs_of_log log_fileClose).seq fun _ => logs_setFd

theorem logs_exitVmas {mem : ℕ → UInt8} {n : ℕ} {v : Option ℕ} :
    Logs B none ⊤ none (exitVmas B.sb mem n v) := by
  induction n generalizing v with
  | zero => cases v <;> first | exact logs_pure | exact .throw
  | succ n ih =>
    cases v with
    | none => exact logs_pure
    | some v =>
      unfold exitVmas
      refine logs_getVma.seq fun x => logs_writeback.seq fun _ => (logs_of_log log_fileClose).seq fun _ => ?_
      exact logs_getVma.seq fun x => logs_modifyVma.seq fun _ => ih

/-- The working directory is put without a context, so nobody tracks the writes. -/
theorem logs_exit (ht : ¬ B.track) {mem : ℕ → UInt8} : Logs B none ⊤ none (exit B.sb mem) := by
  have hcwd : Logs B none ⊤ none (exitCwd B.sb) := by
    unfold exitCwd
    apply logs_get
    intro s
    split
    · exact logs_pure
    · exact (logs_putWith (.inr ⟨rfl, ht⟩)).seq fun _ => logs_modifyProc
  unfold exit
  refine (Triple.forN (fun _ => logs_exitFd) _ _).seq fun _ => logs_thisproc.seq fun p => ?_
  refine logs_exitVmas.seq fun _ => hcwd.seq fun _ => logs_get fun s => ?_
  exact logs_modifyProc.seq fun _ => logs_pure

end ShikiOS.Kernel.Calls
