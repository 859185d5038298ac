import ShikiOS.Common.SemLedger
import ShikiOS.Kernel.SchedInvariant

/-!
# Semaphores on top of the scheduler (`common/sem.c`, `kernel/sched.c`)

Any number of processes wait on and post to any number of semaphores, on `ncpu`
processors. A step is executed by the current process of a processor and goes from
one acquisition of a lock to the next: the spinlock of a semaphore, or the scheduler
lock. `lock s` and `rqlock` name the process that holds such a lock between two
steps. `_wait_sem` that finds no unit takes four steps: it queues with the lock of
the semaphore (`wait`), it takes the scheduler lock and lets the other one go
(`lockSched`), it calls `sched` (`sleep`), and, when it runs again, it takes the lock
of the semaphore and looks whether it was marked up (`wake`). A post that marks a
waiter up keeps the lock of the semaphore until it has activated the waiter.

The other steps are those of the scheduler: processes yield, exit, are created,
started and reaped, and any process can be killed or alerted at any moment. Kernel
code runs with interrupts off, so a process yields only outside of these functions.
An interrupt handler that posts acts as the process it interrupts, which may be an
idle process. `my_wait_sem` and `my_post_sem` are `wait_sem` and `post_sem`.
-/

namespace ShikiOS.Kernel

open ShikiOS.Lib

/-- The callers of `_wait_sem`: `wait_sem` hands the result on, `unalertable_wait_sem`
    asserts it (sem.h:28-30), and `cache_end_op` PANICs when it is `false` (cache.c:343). -/
inductive WaitKind
  | wait | unalertable | endOp
deriving DecidableEq, Repr

/-- The argument `alertable` of `_wait_sem`. -/
def WaitKind.alertable : WaitKind → Bool
  | .wait | .endOp => true
  | .unalertable => false

/-- What the caller does when `_wait_sem` returns `false`. -/
def WaitKind.panics : WaitKind → Bool
  | .wait => false
  | .unalertable | .endOp => true

/-- The state in which a process sleeps (sem.c:74). -/
def WaitKind.sleepState (k : WaitKind) : ProcState :=
  if k.alertable then .sleeping else .deepsleeping

/-- Where a process is in `sem.c`, between two steps. -/
inductive Pc (S : Type*)
  /-- Somewhere else. -/
  | out
  /-- Before `acquire_sched_lock` of `_wait_sem` (sem.c:72). -/
  | queued (s : S) (kind : WaitKind)
  /-- Before `sched` (sem.c:74), with the scheduler lock. -/
  | handed (s : S) (kind : WaitKind)
  /-- Before the second `acquire_spinlock` of `_wait_sem` (sem.c:75). -/
  | asleep (s : S) (kind : WaitKind)
  /-- Before `activate_proc` of `_post_sem` (sem.c:94), called in `post_all_sem` or not. -/
  | posting (s : S) (q : ℕ) (all : Bool)
  /-- Before `_post_sem` in `post_all_sem` (sem.c:56). -/
  | looping (s : S)
deriving DecidableEq, Repr

/-- A failed assertion, or a fault of the scheduler. -/
inductive Stop
  | sched (f : Fault)
  /-- `ASSERT(!_empty_list(&sem->sleeplist))` (sem.c:90). -/
  | sleeplist
  /-- `ASSERT(++sem->val <= 0)` (sem.c:78). -/
  | val
deriving DecidableEq, Repr

/-- The scheduler, the semaphores and their locks, and the processes. `ledger` and the
    tickets of the waiters are only recorded. `panicked`: a caller of `_wait_sem`
    stopped the kernel. -/
structure State (S : Type*) where
  sched : Sched ncpu
  sem : S → Sem ℕ
  lock : S → Option ℕ
  rqlock : Option ℕ
  pc : ℕ → Pc S
  wait : ℕ → Waiter
  ledger : S → Ledger
  panicked : Bool

/-- The steps, by the processor that makes them. -/
inductive Action (S : Type*)
  | sched (a : Sched.Action ncpu)
  | wait (c : Fin ncpu) (s : S) (kind : WaitKind)
  | lockSched (c : Fin ncpu)
  | sleep (c : Fin ncpu)
  | wake (c : Fin ncpu)
  | post (c : Fin ncpu) (s : S)
  | postAll (c : Fin ncpu) (s : S)
  | round (c : Fin ncpu)
  | activate (c : Fin ncpu)
  | get (c : Fin ncpu) (s : S)
  | getAll (c : Fin ncpu) (s : S)
deriving DecidableEq, Repr

variable {S : Type*} [DecidableEq S]

namespace State

/-- `thisproc()` on processor `c`. -/
def thisproc (k : State S) (c : Fin ncpu) : ℕ := (k.sched.cpus c).thisproc

/-- The process at `p` goes on at `v`. -/
def goto (k : State S) (p : ℕ) (v : Pc S) : State S :=
  { k with pc := Function.update k.pc p v }

/-- The lock of `s` is taken by `o` or let go. -/
def setLock (k : State S) (s : S) (o : Option ℕ) : State S :=
  { k with lock := Function.update k.lock s o }

/-- New contents of `s`, and what happened to its units. -/
def setSem (k : State S) (s : S) (m : Sem ℕ) (l : Ledger) : State S :=
  { k with sem := Function.update k.sem s m, ledger := Function.update k.ledger s l }

/-- Store the `WaitData` of the process at `p`. -/
def setWait (k : State S) (p : ℕ) (x : Waiter) : State S :=
  { k with wait := Function.update k.wait p x }

/-- What a call into the scheduler leaves. -/
def setSched (k : State S) (r : Except Fault (Sched ncpu)) : Except Stop (State S) :=
  match r with
  | .ok σ => .ok { k with sched := σ }
  | .error f => .error (.sched f)

/-- `_wait_sem` up to `acquire_sched_lock` (sem.c:62-72), with the lock of `s` just taken. -/
def waitSem (k : State S) (p : ℕ) (s : S) (kind : WaitKind) : State S :=
  let l := k.ledger s
  match (k.sem s).down p with
  | (m, true) => k.setSem s m { l with returned := l.returned + 1 }
  | (m, false) =>
    (((k.setSem s m { l with queued := l.queued + 1 }).setWait p ⟨false, l.queued⟩).setLock s
      (some p)).goto p (.queued s kind)

/-- `_wait_sem` after `sched` (sem.c:75-84). -/
def wakeSem (k : State S) (p : ℕ) (s : S) (kind : WaitKind) : Except Stop (State S) :=
  let l := k.ledger s
  if (k.wait p).up = true then
    .ok ((k.setSem s (k.sem s) { l with returned := l.returned + 1 }).goto p .out)
  else
    match (k.sem s).abort p with
    | none => .error .val
    | some m => .ok { (k.setSem s m l).goto p .out with panicked := k.panicked || kind.panics }

/-- `while (!_get_sem(sem))` of `post_all_sem` (sem.c:57). -/
def loopTest (k : State S) (p : ℕ) (s : S) : State S :=
  let l := k.ledger s
  match (k.sem s).get with
  | (m, true) => ((k.setSem s m { l with taken := l.taken + 1 }).setLock s none).goto p .out
  | (m, false) => ((k.setSem s m l).setLock s (some p)).goto p (.looping s)

/-- What follows `_post_sem`: the loop test of `post_all_sem`, or the end of `post_sem`. -/
def posted (k : State S) (p : ℕ) (s : S) (all : Bool) : State S :=
  if all then k.loopTest p s else (k.setLock s none).goto p .out

/-- `_post_sem` up to `activate_proc` (sem.c:87-94), with the lock of `s` held. -/
def postSem (k : State S) (p : ℕ) (s : S) (all : Bool) : Except Stop (State S) :=
  let l := k.ledger s
  match (k.sem s).post with
  | none => .error .sleeplist
  | some (m, []) => .ok ((k.setSem s m { l with posted := l.posted + 1 }).posted p s all)
  | some (m, q :: _) =>
    .ok ((((k.setSem s m { l with posted := l.posted + 1 }).setWait q
      { k.wait q with up := true }).setLock s (some p)).goto p (.posting s q all))

/-- The state after a step. A step that its process does not stand at changes nothing. -/
def next (k : State S) : Action S → Except Stop (State S)
  | .sched a => k.setSched (k.sched.next a)
  | .wait c s kind => .ok (k.waitSem (k.thisproc c) s kind)
  | .lockSched c =>
    match k.pc (k.thisproc c) with
    | .queued s kind =>
      .ok { (k.setLock s none).goto (k.thisproc c) (.handed s kind) with
        rqlock := some (k.thisproc c) }
    | _ => .ok k
  | .sleep c =>
    match k.pc (k.thisproc c) with
    | .handed s kind =>
      { k.goto (k.thisproc c) (.asleep s kind) with rqlock := none }.setSched
        (k.sched.sleep c kind.alertable)
    | _ => .ok k
  | .wake c =>
    match k.pc (k.thisproc c) with
    | .asleep s kind => k.wakeSem (k.thisproc c) s kind
    | _ => .ok k
  | .post c s => k.postSem (k.thisproc c) s false
  | .postAll c s => k.postSem (k.thisproc c) s true
  | .round c =>
    match k.pc (k.thisproc c) with
    | .looping s => k.postSem (k.thisproc c) s true
    | _ => .ok k
  | .activate c =>
    match k.pc (k.thisproc c) with
    | .posting s q all =>
      match k.sched.activateProc q false with
      | .ok (σ, _) => .ok ({ k with sched := σ }.posted (k.thisproc c) s all)
      | .error f => .error (.sched f)
    | _ => .ok k
  | .get _ s =>
    let l := k.ledger s
    match (k.sem s).get with
    | (m, b) => .ok (k.setSem s m { l with taken := l.taken + b.toNat })
  | .getAll _ s =>
    let l := k.ledger s
    if 0 < (k.sem s).val then
      .ok (k.setSem s ⟨0, (k.sem s).sleeplist⟩
        { l with taken := l.taken + (k.sem s).val.toNat })
    else .ok k

/-- A step of the scheduler is possible. Those that take the scheduler lock find it
    free, a process yields and exits only outside of `sem.c`, sleeps only in
    `_wait_sem`, and is started once. -/
def SchedEnabled (k : State S) (a : Sched.Action ncpu) : Prop :=
  k.sched.Enabled a ∧
    match a with
    | .yield c | .exit c => k.rqlock = none ∧ k.pc (k.thisproc c) = .out
    | .sleep _ _ => False
    | .activate p onalert =>
      k.rqlock = none ∧ (onalert = false → k.sched.state p = some .unused)
    | .wait _ => k.rqlock = none
    | .create _ | .kill _ => True

/-- A step is possible: the kernel runs, the process stands there, and the lock that
    the step begins with is free. -/
def Enabled (k : State S) (a : Action S) : Prop :=
  k.panicked = false ∧
    match a with
    | .sched a => k.SchedEnabled a
    | .wait c s _ => k.pc (k.thisproc c) = .out ∧ k.lock s = none ∧
        k.thisproc c ≠ (k.sched.cpus c).idle
    | .post c s | .postAll c s | .get c s | .getAll c s =>
      k.pc (k.thisproc c) = .out ∧ k.lock s = none
    | .lockSched c =>
      match k.pc (k.thisproc c) with
      | .queued _ _ => k.rqlock = none
      | _ => False
    | .sleep c =>
      match k.pc (k.thisproc c) with
      | .handed _ _ => True
      | _ => False
    | .wake c =>
      match k.pc (k.thisproc c) with
      | .asleep s _ => k.lock s = none
      | _ => False
    | .round c =>
      match k.pc (k.thisproc c) with
      | .looping _ => True
      | _ => False
    | .activate c =>
      match k.pc (k.thisproc c) with
      | .posting _ _ _ => k.rqlock = none
      | _ => False

instance (k : State S) : ∀ a, Decidable (k.SchedEnabled a)
  | .yield c => inferInstanceAs (Decidable (_ ∧ k.rqlock = none ∧ k.pc (k.thisproc c) = .out))
  | .exit c => inferInstanceAs (Decidable (_ ∧ k.rqlock = none ∧ k.pc (k.thisproc c) = .out))
  | .sleep _ _ => inferInstanceAs (Decidable (_ ∧ False))
  | .activate p onalert => inferInstanceAs (Decidable
      (_ ∧ k.rqlock = none ∧ (onalert = false → k.sched.state p = some .unused)))
  | .wait _ => inferInstanceAs (Decidable (_ ∧ k.rqlock = none))
  | .create _ | .kill _ => inferInstanceAs (Decidable (_ ∧ True))

instance (k : State S) (a : Action S) : Decidable (k.Enabled a) := by
  cases a <;> unfold Enabled <;> first | infer_instance | (dsimp only; split <;> infer_instance)

/-- One step of a run. -/
def step (k : State S) (a : Action S) : Option (State S) := (k.next a).toOption

/-- The start: a scheduler that agrees with itself, every process outside of `sem.c`,
    and semaphore `s` initialised with `v s` units. -/
structure Init (k : State S) (v : S → ℤ) : Prop where
  sched : k.sched.Ok
  sem : ∀ s, k.sem s = Sem.init (v s)
  lock : ∀ s, k.lock s = none
  rqlock : k.rqlock = none
  pc : ∀ p, k.pc p = .out
  ledger : ∀ s, k.ledger s = ⟨0, 0, 0, 0⟩
  panicked : k.panicked = false

end State

end ShikiOS.Kernel
