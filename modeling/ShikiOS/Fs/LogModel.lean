import ShikiOS.Lib.Run
import ShikiOS.Common.Sem
import ShikiOS.Fs.Defines

/-!
# The log layer under concurrency (`fs/cache.c`)

`cache_begin_op`, `cache_sync` and `cache_end_op` as run by any number of
processes at once. A step is a section of the code between two acquisitions of
`log.lock` or of the lock of `log.sem`; the two loops of a commit, which touch
no state that another process can reach at that time, are one step each. A kill
may hit any process at any time.

What the blocks contain does not matter to the log layer, only how new it is:
the content of a block is a version number, and a process that modifies and
syncs a block gives its cached copy the next one.

* `step`: the transition function, `init`: the state that `init_log` leaves.
-/

namespace ShikiOS.Fs.Log

open ShikiOS.Lib

/-- Where a process is in the log layer. -/
inductive Pc
  /-- Outside: its last `cache_end_op` has returned. -/
  | idle
  /-- `cache_begin_op`, line 273 or 285: about to take `log.lock`. -/
  | beginLock
  /-- `cache_begin_op`, line 280: about to wait, `log.lock` released. -/
  | beginWait
  /-- `cache_begin_op`: asleep in `wait_sem`. -/
  | beginSleep
  /-- `cache_begin_op` has returned and `cache_end_op` has not been entered. -/
  | running
  /-- `cache_end_op`, line 340: about to post, holding `log.lock`. -/
  | endPost
  /-- `cache_end_op`, line 341: about to wait, holding `log.lock`. -/
  | endWait
  /-- `cache_end_op`: asleep in `_wait_sem`. -/
  | endSleep
  /-- `cache_end_op`, line 350: about to write the log, `log.lock` released. -/
  | commitLog
  /-- `cache_end_op`, line 362: about to take `log.lock` and checkpoint. -/
  | commitHome
  /-- `cache_end_op`, line 377: about to post all waiters, holding `log.lock`. -/
  | commitPost
  /-- In `PANIC`. -/
  | stopped
deriving DecidableEq, Repr

/-- A process: its program counter, `ctx->rm`, the `up` flag of its waiter and
    its `killed` flag. `added` and `synced` are not in the code: the blocks that
    this operation put into the header, and the versions it synced. -/
structure OpState where
  pc : Pc
  rm : ℕ
  up : Bool
  killed : Bool
  added : List ℕ
  synced : List (ℕ × ℕ)

/-- The state of the log layer. `lock` is the holder of `log.lock`, `content` the
    version of the cached copy of a block, `home` that of the block on the
    device and `diskHeader` the header block on the device. `written` lists the
    blocks that commits wrote for the log area. -/
structure LogState (P : Type*) where
  lock : Option P
  sem : Sem P
  outstanding : ℤ
  committing : Bool
  header : LogHeader
  diskHeader : LogHeader
  content : ℕ → ℕ
  home : ℕ → ℕ
  written : List ℕ
  procs : P → OpState
  panic : Option Panic

/-- The actions of the processes. -/
inductive Act (P : Type*)
  | beginOp (p : P)
  | beginLock (p : P)
  | beginWait (p : P)
  | beginWake (p : P)
  | sync (p : P) (b : ℕ)
  | endOp (p : P)
  | endPost (p : P)
  | endWait (p : P)
  | endWake (p : P)
  | commitLog (p : P)
  | commitHome (p : P)
  | commitPost (p : P)
  | kill (p : P)
deriving DecidableEq, Repr

variable {P : Type*} [DecidableEq P]

/-- The state after `init_log` (cache.c:225-252), with no operation yet. -/
def init : LogState P where
  lock := none
  sem := Sem.init 0
  outstanding := 0
  committing := false
  header := LogHeader.empty
  diskHeader := LogHeader.empty
  content := fun _ => 0
  home := fun _ => 0
  written := []
  procs := fun _ => ⟨.idle, 0, false, false, [], []⟩
  panic := none

namespace LogState

/-- Change the record of one process. -/
def modify (s : LogState P) (p : P) (f : OpState → OpState) : LogState P :=
  { s with procs := Function.update s.procs p (f (s.procs p)) }

/-- Mark the waiters of `woken` as `up`. -/
def wake (s : LogState P) (woken : List P) : LogState P :=
  { s with procs := fun q => if q ∈ woken then { s.procs q with up := true } else s.procs q }

/-- The program counter of a process. -/
abbrev pc (s : LogState P) (p : P) : Pc := (s.procs p).pc

end LogState

/-- When an action can be taken: where the process is, that `log.lock` is free if
    the section starts by taking it, and that a sleeper was woken. -/
def Enabled (s : LogState P) : Act P → Prop
  | .beginOp p => s.pc p = .idle
  | .beginLock p => s.pc p = .beginLock ∧ s.lock = none
  | .beginWait p => s.pc p = .beginWait
  | .beginWake p => s.pc p = .beginSleep ∧ ((s.procs p).up = true ∨ (s.procs p).killed = true)
  | .sync p _ => s.pc p = .running ∧ s.lock = none
  | .endOp p => s.pc p = .running ∧ s.lock = none
  | .endPost p => s.pc p = .endPost
  | .endWait p => s.pc p = .endWait
  | .endWake p => s.pc p = .endSleep ∧ ((s.procs p).up = true ∨ (s.procs p).killed = true)
  | .commitLog p => s.pc p = .commitLog
  | .commitHome p => s.pc p = .commitHome ∧ s.lock = none
  | .commitPost p => s.pc p = .commitPost
  | .kill _ => True

instance (s : LogState P) (a : Act P) : Decidable (Enabled s a) := by
  cases a <;> unfold Enabled <;> infer_instance

/-- The state after an enabled action. -/
def next (sb : SuperBlock) (s : LogState P) : Act P → LogState P
  -- line 271
  | .beginOp p =>
    s.modify p fun o => { o with pc := .beginLock, rm := opMaxNumBlocks, added := [], synced := [] }
  -- lines 277-290, up to the release of the lock
  | .beginLock p =>
    if beginOpWaits s.header s.outstanding s.committing then
      s.modify p fun o => { o with pc := .beginWait }
    else
      { s with outstanding := s.outstanding + 1 }.modify p fun o => { o with pc := .running }
  -- line 280, up to `sched`
  | .beginWait p =>
    match s.sem.down p with
    | (sem, true) => { s with sem := sem }.modify p fun o => { o with pc := .beginLock }
    | (sem, false) =>
      { s with sem := sem }.modify p fun o => { o with pc := .beginSleep, up := false }
  -- line 280 behind `sched`; an interrupted wait returns from `cache_begin_op` (line 283)
  | .beginWake p =>
    if (s.procs p).up then s.modify p fun o => { o with pc := .beginLock }
    else match s.sem.abort p with
      | none => { s with panic := some .sem }
      | some sem => { s with sem := sem }.modify p fun o => { o with pc := .running }
  -- the holder of block `b` has modified it and calls `cache_sync`
  | .sync p b =>
    let s := { s with content := Function.update s.content b (s.content b + 1) }
    match logAppend s.header (s.procs p).rm b with
    | .error e => { s with panic := some e }
    | .ok (header, rm) =>
      { s with header := header }.modify p fun o =>
        { o with
          rm := rm
          added := if s.header.has b then o.added else b :: o.added
          synced := (b, s.content b) :: o.synced }
  -- lines 331-349
  | .endOp p =>
    let s := { s with outstanding := s.outstanding - 1 }
    if s.committing then
      { s with panic := some .committing }.modify p fun o => { o with pc := .stopped }
    else if s.outstanding > 0 then
      { s with lock := some p }.modify p fun o => { o with pc := .endPost }
    else { s with committing := true }.modify p fun o => { o with pc := .commitLog }
  -- line 340
  | .endPost p =>
    match s.sem.post with
    | none => { s with panic := some .sem }
    | some (sem, woken) =>
      ({ s with sem := sem }.wake woken).modify p fun o => { o with pc := .endWait }
  -- lines 341-343, up to `sched`
  | .endWait p =>
    match s.sem.down p with
    | (sem, true) =>
      { s with sem := sem, lock := none }.modify p fun o => { o with pc := .idle }
    | (sem, false) =>
      { s with sem := sem, lock := none }.modify p fun o =>
        { o with pc := .endSleep, up := false }
  -- line 343 behind `sched`; an interrupted wait ends in PANIC
  | .endWake p =>
    if (s.procs p).up then s.modify p fun o => { o with pc := .idle }
    else match s.sem.abort p with
      | none => { s with panic := some .sem }
      | some sem =>
        { s with sem := sem, panic := some .endOpWait }.modify p fun o => { o with pc := .stopped }
  -- lines 350-361: every cached block of the header goes to its log block
  | .commitLog p =>
    { s with
      written := s.written ++ logBlocks sb s.header.numBlocks
      diskHeader := s.header }.modify p fun o => { o with pc := .commitHome }
  -- lines 362-376: every cached block of the header goes home
  | .commitHome p =>
    { s with
      lock := some p
      home := fun b => if b ∈ s.header.entries then s.content b else s.home b
      header := s.header.clear
      diskHeader := s.header.clear
      committing := false }.modify p fun o => { o with pc := .commitPost }
  -- lines 377-379
  | .commitPost p =>
    match s.sem.postAll with
    | none => { s with panic := some .sem }
    | some (sem, woken) =>
      ({ s with sem := sem, lock := none }.wake woken).modify p fun o => { o with pc := .idle }
  -- `dfs_kill` (proc.c:278); the alert only makes the wake-up actions possible
  | .kill p => s.modify p fun o => { o with killed := true }

/-- One step; after a PANIC nothing moves. -/
def step (sb : SuperBlock) (s : LogState P) (a : Act P) : Option (LogState P) :=
  if s.panic = none ∧ Enabled s a then some (next sb s a) else none

theorem step_eq_some {sb : SuperBlock} {s t : LogState P} {a : Act P} :
    step sb s a = some t ↔ (s.panic = none ∧ Enabled s a) ∧ next sb s a = t := by
  simp only [step, Option.ite_none_right_eq_some, Option.some.injEq]

/-! ## Fields after a change of one process -/

section Fields

variable (s : LogState P) (p q : P) (f : OpState → OpState) (w : List P)

@[simp] theorem modify_lock : (s.modify p f).lock = s.lock := rfl
@[simp] theorem modify_sem : (s.modify p f).sem = s.sem := rfl
@[simp] theorem modify_outstanding : (s.modify p f).outstanding = s.outstanding := rfl
@[simp] theorem modify_committing : (s.modify p f).committing = s.committing := rfl
@[simp] theorem modify_header : (s.modify p f).header = s.header := rfl
@[simp] theorem modify_diskHeader : (s.modify p f).diskHeader = s.diskHeader := rfl
@[simp] theorem modify_content : (s.modify p f).content = s.content := rfl
@[simp] theorem modify_home : (s.modify p f).home = s.home := rfl
@[simp] theorem modify_written : (s.modify p f).written = s.written := rfl
@[simp] theorem modify_panic : (s.modify p f).panic = s.panic := rfl

@[simp] theorem modify_procs_self : (s.modify p f).procs p = f (s.procs p) :=
  Function.update_self _ _ _

theorem modify_procs_of_ne {q : P} (h : q ≠ p) : (s.modify p f).procs q = s.procs q :=
  Function.update_of_ne h _ _

@[simp] theorem wake_lock : (s.wake w).lock = s.lock := rfl
@[simp] theorem wake_sem : (s.wake w).sem = s.sem := rfl
@[simp] theorem wake_outstanding : (s.wake w).outstanding = s.outstanding := rfl
@[simp] theorem wake_committing : (s.wake w).committing = s.committing := rfl
@[simp] theorem wake_header : (s.wake w).header = s.header := rfl
@[simp] theorem wake_diskHeader : (s.wake w).diskHeader = s.diskHeader := rfl
@[simp] theorem wake_content : (s.wake w).content = s.content := rfl
@[simp] theorem wake_home : (s.wake w).home = s.home := rfl
@[simp] theorem wake_written : (s.wake w).written = s.written := rfl
@[simp] theorem wake_panic : (s.wake w).panic = s.panic := rfl

theorem wake_procs : (s.wake w).procs q =
    if q ∈ w then { s.procs q with up := true } else s.procs q := rfl

/-- A wake-up changes nothing but the `up` flags. -/
@[simp] theorem wake_pc : ((s.wake w).procs q).pc = (s.procs q).pc := by
  rw [wake_procs]; split_ifs <;> rfl

@[simp] theorem wake_rm : ((s.wake w).procs q).rm = (s.procs q).rm := by
  rw [wake_procs]; split_ifs <;> rfl

@[simp] theorem wake_added : ((s.wake w).procs q).added = (s.procs q).added := by
  rw [wake_procs]; split_ifs <;> rfl

@[simp] theorem wake_synced : ((s.wake w).procs q).synced = (s.procs q).synced := by
  rw [wake_procs]; split_ifs <;> rfl

end Fields

/-! ## What a step can do -/

/-- The process sleeps in a wait on `log.sem` and was not woken by a post. -/
def OpState.Asleep (o : OpState) : Prop := (o.pc = .beginSleep ∨ o.pc = .endSleep) ∧ o.up = false

/-- Process `q` is asleep. -/
abbrev Asleep (s : LogState P) (q : P) : Prop := (s.procs q).Asleep

/-- `log.sem` is consistent and its queue holds exactly the sleepers. -/
def SemInv (s : LogState P) : Prop := s.sem.Tracks (Asleep s)

/-- The outcomes of a step, with the guard and the new state of each. -/
inductive Effect (sb : SuperBlock) (s : LogState P) : Act P → LogState P → Prop
  | beginOp {p : P} : s.pc p = .idle →
      Effect sb s (.beginOp p) (s.modify p fun o =>
        { o with pc := .beginLock, rm := opMaxNumBlocks, added := [], synced := [] })
  | beginWaits {p : P} : s.pc p = .beginLock → s.lock = none →
      Effect sb s (.beginLock p) (s.modify p fun o => { o with pc := .beginWait })
  | beginEnters {p : P} : s.pc p = .beginLock → s.lock = none →
      beginOpWaits s.header s.outstanding s.committing = false →
      Effect sb s (.beginLock p)
        ({ s with outstanding := s.outstanding + 1 }.modify p fun o => { o with pc := .running })
  | beginUnit {p : P} {sem : Sem P} : s.pc p = .beginWait → s.sem.down p = (sem, true) →
      Effect sb s (.beginWait p)
        ({ s with sem := sem }.modify p fun o => { o with pc := .beginLock })
  | beginSleeps {p : P} {sem : Sem P} : s.pc p = .beginWait → s.sem.down p = (sem, false) →
      Effect sb s (.beginWait p)
        ({ s with sem := sem }.modify p fun o => { o with pc := .beginSleep, up := false })
  | beginWoken {p : P} : s.pc p = .beginSleep → (s.procs p).up = true →
      Effect sb s (.beginWake p) (s.modify p fun o => { o with pc := .beginLock })
  | beginInterrupted {p : P} {sem : Sem P} : s.pc p = .beginSleep → (s.procs p).up = false →
      s.sem.abort p = some sem →
      Effect sb s (.beginWake p)
        ({ s with sem := sem }.modify p fun o => { o with pc := .running })
  | syncPanics {p : P} {b : ℕ} {e : Panic} : s.pc p = .running → s.lock = none →
      logAppend s.header (s.procs p).rm b = .error e →
      Effect sb s (.sync p b)
        { s with content := Function.update s.content b (s.content b + 1), panic := some e }
  | syncAbsorbed {p : P} {b : ℕ} : s.pc p = .running → s.lock = none → b ∈ s.header.entries →
      Effect sb s (.sync p b)
        ({ s with content := Function.update s.content b (s.content b + 1) }.modify p fun o =>
          { o with synced := (b, s.content b + 1) :: o.synced })
  | syncAdded {p : P} {b : ℕ} : s.pc p = .running → s.lock = none → b ∉ s.header.entries →
      0 < (s.procs p).rm → s.header.numBlocks < logMaxSize →
      Effect sb s (.sync p b)
        ({ s with content := Function.update s.content b (s.content b + 1),
                  header := s.header.push b }.modify p fun o =>
          { o with rm := o.rm - 1, added := b :: o.added,
                   synced := (b, s.content b + 1) :: o.synced })
  | endPanics {p : P} : s.pc p = .running → s.lock = none → s.committing = true →
      Effect sb s (.endOp p)
        ({ s with outstanding := s.outstanding - 1, panic := some .committing }.modify p fun o =>
          { o with pc := .stopped })
  | endJoins {p : P} : s.pc p = .running → s.lock = none → s.committing = false →
      s.outstanding - 1 > 0 →
      Effect sb s (.endOp p)
        ({ s with outstanding := s.outstanding - 1, lock := some p }.modify p fun o =>
          { o with pc := .endPost })
  | endCommits {p : P} : s.pc p = .running → s.lock = none → s.committing = false →
      s.outstanding - 1 ≤ 0 →
      Effect sb s (.endOp p)
        ({ s with outstanding := s.outstanding - 1, committing := true }.modify p fun o =>
          { o with pc := .commitLog })
  | endPost {p : P} {sem : Sem P} {woken : List P} : s.pc p = .endPost →
      s.sem.post = some (sem, woken) →
      Effect sb s (.endPost p)
        (({ s with sem := sem }.wake woken).modify p fun o => { o with pc := .endWait })
  | endUnit {p : P} {sem : Sem P} : s.pc p = .endWait → s.sem.down p = (sem, true) →
      Effect sb s (.endWait p)
        ({ s with sem := sem, lock := none }.modify p fun o => { o with pc := .idle })
  | endSleeps {p : P} {sem : Sem P} : s.pc p = .endWait → s.sem.down p = (sem, false) →
      Effect sb s (.endWait p)
        ({ s with sem := sem, lock := none }.modify p fun o =>
          { o with pc := .endSleep, up := false })
  | endWoken {p : P} : s.pc p = .endSleep → (s.procs p).up = true →
      Effect sb s (.endWake p) (s.modify p fun o => { o with pc := .idle })
  | endInterrupted {p : P} {sem : Sem P} : s.pc p = .endSleep → (s.procs p).up = false →
      s.sem.abort p = some sem →
      Effect sb s (.endWake p)
        ({ s with sem := sem, panic := some .endOpWait }.modify p fun o => { o with pc := .stopped })
  | commitLog {p : P} : s.pc p = .commitLog →
      Effect sb s (.commitLog p)
        ({ s with written := s.written ++ logBlocks sb s.header.numBlocks,
                  diskHeader := s.header }.modify p fun o => { o with pc := .commitHome })
  | commitHome {p : P} : s.pc p = .commitHome → s.lock = none →
      Effect sb s (.commitHome p)
        ({ s with
            lock := some p
            home := fun b => if b ∈ s.header.entries then s.content b else s.home b
            header := s.header.clear
            diskHeader := s.header.clear
            committing := false }.modify p fun o => { o with pc := .commitPost })
  | commitPost {p : P} {sem : Sem P} {woken : List P} : s.pc p = .commitPost →
      s.sem.postAll = some (sem, woken) →
      Effect sb s (.commitPost p)
        (({ s with sem := sem, lock := none }.wake woken).modify p fun o => { o with pc := .idle })
  | kill {p : P} : Effect sb s (.kill p) (s.modify p fun o => { o with killed := true })

/-- Every step has one of the outcomes; in particular no assertion of `sem.c`
    fails as long as the queue of `log.sem` is right. -/
theorem step_effect {sb : SuperBlock} {s t : LogState P} {a : Act P} (h : SemInv s)
    (hs : step sb s a = some t) : s.panic = none ∧ Effect sb s a t := by
  obtain ⟨⟨hp, ha⟩, rfl⟩ := step_eq_some.mp hs
  refine ⟨hp, ?_⟩
  cases a with
  | beginOp p => exact .beginOp ha
  | beginLock p =>
    simp only [next]
    split_ifs with hw
    · exact .beginWaits ha.1 ha.2
    · exact .beginEnters ha.1 ha.2 (by simpa using hw)
  | beginWait p =>
    simp only [next]
    split
    · next sem hd => exact .beginUnit ha hd
    · next sem hd => exact .beginSleeps ha hd
  | beginWake p =>
    simp only [next]
    split_ifs with hu
    · exact .beginWoken ha.1 hu
    · have hu : (s.procs p).up = false := by simpa using hu
      obtain ⟨sem, hab, -⟩ := h.abort (p := p) ⟨.inl ha.1, hu⟩
      rw [hab]
      exact .beginInterrupted ha.1 hu hab
  | sync p b =>
    simp only [next]
    rcases logAppend_cases s.header (s.procs p).rm b with ⟨hb, hr⟩ | ⟨hb, -, hr⟩ | ⟨hb, -, -, hr⟩ |
      ⟨hb, hrm, hn, hr⟩
    · have : Effect sb s (.sync p b) _ := .syncAbsorbed ha.1 ha.2 hb
      rw [hr]
      simp only [Function.update_self, (LogHeader.has_iff _ _).mpr hb, if_true]
      exact this
    · rw [hr]; exact .syncPanics ha.1 ha.2 hr
    · rw [hr]; exact .syncPanics ha.1 ha.2 hr
    · have : Effect sb s (.sync p b) _ := .syncAdded ha.1 ha.2 hb hrm hn
      have hhas : s.header.has b = false := by
        rw [← Bool.not_eq_true, LogHeader.has_iff]; exact hb
      rw [hr]
      simp only [Function.update_self, hhas]
      exact this
  | endOp p =>
    simp only [next]
    split_ifs with hc ho
    · exact .endPanics ha.1 ha.2 hc
    · exact .endJoins ha.1 ha.2 (by simpa using hc) ho
    · exact .endCommits ha.1 ha.2 (by simpa using hc) (by omega)
  | endPost p =>
    simp only [next]
    obtain ⟨sem, w, hpost, -, -⟩ := Sem.Tracks.post h
    rw [hpost]
    exact .endPost ha hpost
  | endWait p =>
    simp only [next]
    split
    · next sem hd => exact .endUnit ha hd
    · next sem hd => exact .endSleeps ha hd
  | endWake p =>
    simp only [next]
    split_ifs with hu
    · exact .endWoken ha.1 hu
    · have hu : (s.procs p).up = false := by simpa using hu
      obtain ⟨sem, hab, -⟩ := h.abort (p := p) ⟨.inr ha.1, hu⟩
      rw [hab]
      exact .endInterrupted ha.1 hu hab
  | commitLog p => exact .commitLog ha
  | commitHome p => exact .commitHome ha.1 ha.2
  | commitPost p =>
    simp only [next]
    obtain ⟨sem, hpost, -⟩ := Sem.Tracks.postAll h
    rw [hpost]
    exact .commitPost ha hpost
  | kill p => exact .kill

end ShikiOS.Fs.Log
