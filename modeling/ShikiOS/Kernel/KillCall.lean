import ShikiOS.Kernel.ProcDfs
import ShikiOS.Kernel.SchedInvariant

/-!
# The call `kill` (`kernel/proc.c`)

`kill` looks for the process under `klock`. Of its three exits only the one for a pid that is not
found releases the lock. The search has marked the process before `kill` looks whether the process
runs user code, so a process that is turned down stays marked.

Left out: the locks of the scheduler, which `is_unused` and `alert_proc` take and release.

Results:
* `kill_of_target`: what a call does when it finds a process.
* `kill_calls_iff`: a sequence of calls does what it should iff none of them finds a process.
-/

namespace ShikiOS.Kernel.KillCall

open ShikiOS.Lib ProcTree

/-- The tree of the processes, what the scheduler knows of them, `ucontext->elr` of each, and
    whether `klock` is held. -/
structure State (n : ℕ) where
  tree : ProcTree.State
  sched : Sched n
  elr : ℕ → UInt64
  klock : Bool

/-- Why a call does not return. -/
inductive Stop
  /-- `acquire_spinlock` finds the lock held and spins. -/
  | blocked
  /-- The search has not come to its end yet. -/
  | searching
  | fault (e : Fault)
deriving DecidableEq, Repr

variable {n : ℕ} {s t : State n} {pid : ℤ} {pids : List ℤ} {k q : ℕ} {r : ℤ}

/-- `is_unused` (sched.c:77-84). -/
def State.isUnused (s : State n) (p : ℕ) : Bool := s.sched.state p = some .unused

/-- `acquire_spinlock(&klock)`. -/
def acquireKlock (s : State n) : Except Stop (State n) :=
  if s.klock then .error .blocked else .ok { s with klock := true }

/-- `release_spinlock(&klock)`. -/
def releaseKlock (s : State n) : State n := { s with klock := false }

/-- `dfs_kill(&root_proc, pid)` (proc.c:274-290). -/
def dfsKill (s : State n) (pid : ℤ) (fuel : ℕ) : Except Stop (State n × Option ℕ) :=
  match walk s.tree (fun p => s.tree.pid p = pid ∧ s.isUnused p = false) fuel rootProc with
  | none => .error .searching
  | some (_, none) => .ok (s, none)
  | some (_, some p) =>
    match s.sched.dfsKill p with
    | .error e => .error (.fault e)
    | .ok sched => .ok ({ s with sched := sched }, some p)

/-- `alert_proc` (sched.h:18). -/
def alertProc (s : State n) (p : ℕ) : Except Stop (State n) :=
  match s.sched.activateProc p true with
  | .error e => .error (.fault e)
  | .ok (sched, _) => .ok { s with sched := sched }

/-- `kill` (proc.c:292-309). -/
def kill (fuel : ℕ) (s : State n) (pid : ℤ) : Except Stop (State n × ℤ) := do
  let s ← acquireKlock s
  let (s, k) ← dfsKill s pid fuel
  match k with
  | some p =>
    if s.elr p >>> 48 = 0 then
      let s ← alertProc s p
      return (s, 0)
    else return (s, -1)
  | none => return (releaseKlock s, -1)

/-! ## What a call should do -/

/-- A process of the tree that is not UNUSED and has the pid. -/
def State.Target (s : State n) (pid : ℤ) (p : ℕ) : Prop :=
  s.tree.Attached p ∧ s.tree.pid p = pid ∧ s.isUnused p = false

/-- The process is in user code. -/
def State.Accepts (s : State n) (p : ℕ) : Prop := s.elr p >>> 48 = 0

instance (s : State n) (p : ℕ) : Decidable (s.Accepts p) := inferInstanceAs (Decidable (_ = _))

/-- From `s` to `t` only `p` has changed: it is marked, and RUNNABLE if it was SLEEPING. -/
structure Killed (s t : State n) (p : ℕ) : Prop where
  tree : t.tree = s.tree
  elr : t.elr = s.elr
  cpus : t.sched.cpus = s.sched.cpus
  other : ∀ q, q ≠ p → t.sched.proc q = s.sched.proc q
  marked : (t.sched.proc p).map Proc.killed = some true
  state : t.sched.state p =
    if s.sched.state p = some .sleeping then some .runnable else s.sched.state p

/-- What a call that returns `r` should have done. -/
structure KillSpec (s : State n) (pid : ℤ) (t : State n) (r : ℤ) : Prop where
  zero_iff : r = 0 ↔ ∃ p, s.Target pid p ∧ s.Accepts p
  killed : r = 0 → ∃ p, s.Target pid p ∧ s.Accepts p ∧ Killed s t p
  rejected : r ≠ 0 → r = -1 ∧ ∀ p, t.sched.proc p = s.sched.proc p
  free : t.klock = false

/-- Every one of the calls returns and has done what it should. -/
def KillsAll : State n → List ℤ → Prop
  | _, [] => True
  | s, pid :: pids => ∃ t r, (∃ f₀, ∀ f, f₀ ≤ f → kill f s pid = .ok (t, r)) ∧
    KillSpec s pid t r ∧ KillsAll t pids

/-- The children lists form a tree. -/
def State.Wf (s : State n) : Prop := ∃ kids rank, Inv kids rank none s.tree

/-! ## The search -/

/-- The search ends. It finds a process iff there is one to find. -/
theorem search_spec (hw : s.Wf) (pid : ℤ) : ∃ found f₀,
    (∀ f, f₀ ≤ f → ∃ visited, walk s.tree (fun p => s.tree.pid p = pid ∧ s.isUnused p = false) f
      rootProc = some (visited, found)) ∧
    (∀ p, found = some p → s.Target pid p) ∧ (found = none → ∀ p, ¬ s.Target pid p) := by
  obtain ⟨kids, rank, h⟩ := hw
  obtain ⟨order, -, hmem, hwalk⟩ := h.walk_root
  obtain ⟨f₀, hf⟩ := hwalk fun p => s.tree.pid p = pid ∧ s.isUnused p = false
  refine ⟨_, f₀, fun f hle => ⟨_, hf f hle⟩, fun p hp => ?_, fun hnone p hp => ?_⟩
  · have hstop := List.find?_some hp
    rw [decide_eq_true_eq] at hstop
    exact ⟨(hmem p).mp (List.mem_of_find?_eq_some hp), hstop⟩
  · have hstop := List.find?_eq_none.mp hnone p ((hmem p).mpr hp.1)
    rw [decide_eq_true_eq] at hstop
    exact hstop hp.2

/-- A call that finds no process changes nothing and returns -1. -/
theorem kill_of_not_target (hw : s.Wf) (hfree : s.klock = false) (hnone : ∀ p, ¬ s.Target pid p) :
    ∃ f₀, ∀ f, f₀ ≤ f → kill f s pid = .ok (s, -1) := by
  have hwl : ({ s with klock := true } : State n).Wf := hw
  obtain ⟨found, f₀, hwalk, htarget, -⟩ := search_spec hwl pid
  refine ⟨f₀, fun f hf => ?_⟩
  obtain ⟨visited, hv⟩ := hwalk f hf
  have hfound : found = none := by
    cases found with
    | none => rfl
    | some p => exact absurd (htarget p rfl) (hnone p)
  have hrel : releaseKlock { s with klock := true } = s := by
    rw [releaseKlock, ← hfree]
  subst hfound
  simp only [kill, acquireKlock, hfree, dfsKill, hv, bind, Except.bind, pure, Except.pure,
    Bool.false_eq_true, if_false, hrel]

/-- A call that finds a process and returns has kept the lock. -/
theorem klock_of_target (hw : s.Wf) (htarget : s.Target pid q)
    (hret : ∃ f₀, ∀ f, f₀ ≤ f → kill f s pid = .ok (t, r)) : t.klock = true := by
  obtain ⟨f₀, hret⟩ := hret
  have hwl : ({ s with klock := true } : State n).Wf := hw
  obtain ⟨found, f₁, hwalk, -, hnone⟩ := search_spec hwl pid
  obtain ⟨visited, hv⟩ := hwalk (max f₀ f₁) (le_max_right _ _)
  have hkill := hret (max f₀ f₁) (le_max_left _ _)
  cases found with
  | none => exact absurd htarget (hnone rfl q)
  | some p =>
    simp only [kill, acquireKlock, bind, Except.bind, pure, Except.pure] at hkill
    split_ifs at hkill with hk
    simp only [dfsKill, hv] at hkill
    cases hd : s.sched.dfsKill p with
    | error e => simp [hd] at hkill
    | ok sched =>
      simp only [hd, alertProc] at hkill
      split_ifs at hkill with he
      · cases ha : sched.activateProc p true with
        | error e => simp [ha] at hkill
        | ok b =>
          simp only [ha] at hkill
          cases hkill
          rfl
      · cases hkill
        rfl

theorem kill_of_klock (h : s.klock = true) (pid : ℤ) (f : ℕ) : kill f s pid = .error .blocked := by
  simp only [kill, acquireKlock, h, if_true, bind, Except.bind]

/-- The state when the search has found the process at `p`. -/
def State.marked (s : State n) (p : ℕ) (x : Proc) : State n :=
  { s with klock := true, sched := s.sched.put p { x with killed := true } }

/-- A call that finds its process marks it. -/
theorem kill_found (hw : s.Wf) (hfree : s.klock = false) {x : Proc} (hx : s.sched.proc k = some x)
    (hk : s.Target pid k) (huniq : ∀ q, s.Target pid q → q = k) :
    ∃ f₀, ∀ f, f₀ ≤ f → kill f s pid =
      if s.Accepts k then (alertProc (s.marked k x) k).map fun t => (t, 0)
      else .ok (s.marked k x, -1) := by
  have hwl : ({ s with klock := true } : State n).Wf := hw
  obtain ⟨found, f₀, hwalk, htarget, hnone⟩ := search_spec hwl pid
  obtain rfl : found = some k := by
    cases found with
    | none => exact absurd hk (hnone rfl k)
    | some p => rw [huniq p (htarget p rfl)]
  refine ⟨f₀, fun f hf => ?_⟩
  obtain ⟨visited, hv⟩ := hwalk f hf
  simp only [kill, acquireKlock, hfree, dfsKill, hv, Sched.dfsKill, Sched.deref_eq hx, bind,
    Except.bind, pure, Except.pure, Bool.false_eq_true, if_false]
  by_cases hacc : s.Accepts k
  · have helr : s.elr k >>> 48 = 0 := hacc
    rw [if_pos hacc, if_pos helr, State.marked]
    cases alertProc _ k <;> rfl
  · have helr : ¬ s.elr k >>> 48 = 0 := hacc
    rw [if_neg hacc, if_neg helr]
    rfl

/-- `alert_proc` on the process that was found. -/
theorem alertProc_marked (hok : s.sched.Ok) {x : Proc} (hx : s.sched.proc k = some x)
    (hk : s.Target pid k) :
    ∃ t, alertProc (s.marked k x) k = .ok t ∧ t.klock = true ∧ Killed s t k := by
  have hmarked : (s.marked k x).sched.proc k = some { x with killed := true } :=
    Sched.put_proc_self
  have hother : ∀ q, q ≠ k → (s.marked k x).sched.proc q = s.sched.proc q :=
    fun q hq => Sched.put_proc_of_ne hq
  have hrq : k ∈ (s.marked k x).sched.rq → x.state = .runnable ∨ x.state = .running := by
    intro hmem
    have := ((hok.queued k).mp hmem).2
    rw [Sched.state_eq hx] at this
    simpa using this
  have hused : x.state ≠ .unused := by
    have := hk.2.2
    rw [State.isUnused, Sched.state_eq hx, decide_eq_false_iff_not] at this
    exact fun h => this (by rw [h])
  rcases Sched.activateProc_cases true hmarked hrq with ⟨he, hstay⟩ | ⟨he, hwake⟩
  · refine ⟨s.marked k x, by rw [alertProc, he], rfl, rfl, rfl, rfl, hother, ?_, ?_⟩
    · rw [hmarked]
      rfl
    · have hns : s.sched.state k ≠ some .sleeping := by
        rw [Sched.state_eq hx, ne_eq, Option.some.injEq]
        intro h
        simp [h] at hstay
      rw [if_neg hns, Sched.state_eq hmarked, Sched.state_eq hx]
  · have hs : x.state = .sleeping := by simpa [hused] using hwake
    have halert : ∃ t, alertProc (s.marked k x) k = .ok t ∧ t = { s.marked k x with sched :=
        { (s.marked k x).sched.put k ⟨true, 0, .runnable⟩ with rq := k :: s.sched.rq } } := by
      rw [alertProc, he]
      exact ⟨_, rfl, rfl⟩
    obtain ⟨t, ht, rfl⟩ := halert
    refine ⟨_, ht, rfl, rfl, rfl, rfl, fun q hq => ?_, ?_, ?_⟩
    · exact (Sched.put_proc_of_ne hq).trans (hother q hq)
    · exact congrArg (Option.map Proc.killed) Sched.put_proc_self
    · rw [if_pos (by rw [Sched.state_eq hx, hs])]
      exact Sched.state_eq Sched.put_proc_self

/-- What a call does that finds a process. If the process is in user code, the call returns 0 and
    has killed it; if not, the call returns -1 and has marked it. It keeps the lock. -/
theorem kill_of_target (hw : s.Wf) (hok : s.sched.Ok) (hfree : s.klock = false) {x : Proc}
    (hx : s.sched.proc k = some x) (hk : s.Target pid k) (huniq : ∀ q, s.Target pid q → q = k) :
    ∃ t r, (∃ f₀, ∀ f, f₀ ≤ f → kill f s pid = .ok (t, r)) ∧ t.klock = true ∧
      (s.Accepts k → r = 0 ∧ Killed s t k) ∧ (¬ s.Accepts k → r = -1 ∧ t = s.marked k x) := by
  obtain ⟨f₀, hkill⟩ := kill_found hw hfree hx hk huniq
  by_cases hacc : s.Accepts k
  · obtain ⟨t, ht, hlock, hkilled⟩ := alertProc_marked hok hx hk
    refine ⟨t, 0, ⟨f₀, fun f hf => ?_⟩, hlock, fun _ => ⟨rfl, hkilled⟩, fun h => absurd hacc h⟩
    rw [hkill f hf, if_pos hacc, ht]
    rfl
  · refine ⟨s.marked k x, -1, ⟨f₀, fun f hf => ?_⟩, rfl, fun h => absurd h hacc,
      fun _ => ⟨rfl, rfl⟩⟩
    rw [hkill f hf, if_neg hacc]

/-- A call that finds no process does what it should. -/
theorem killSpec_of_not_target (hfree : s.klock = false) (hnone : ∀ p, ¬ s.Target pid p) :
    KillSpec s pid s (-1) where
  zero_iff := by
    refine ⟨fun h => absurd h (by decide), fun ⟨p, hp, _⟩ => absurd hp (hnone p)⟩
  killed h := absurd h (by decide)
  rejected _ := ⟨rfl, fun _ => rfl⟩
  free := hfree

/-- All calls of a sequence do what they should iff there is no process that is not UNUSED with
    one of the pids. -/
theorem kill_calls_iff (hw : s.Wf) (hfree : s.klock = false) :
    KillsAll s pids ↔ ∀ pid ∈ pids, ∀ p, ¬ s.Target pid p := by
  induction pids with
  | nil => exact ⟨fun _ pid hpid => absurd hpid List.not_mem_nil, fun _ => trivial⟩
  | cons pid pids ih =>
    rw [List.forall_mem_cons, ← ih]
    constructor
    · rintro ⟨t, r, hret, hspec, hrest⟩
      have hnone : ∀ p, ¬ s.Target pid p := by
        intro p hp
        have hlock := klock_of_target hw hp hret
        rw [hspec.free] at hlock
        cases hlock
      obtain ⟨f₀, hret⟩ := hret
      obtain ⟨f₁, hret'⟩ := kill_of_not_target hw hfree hnone
      have heq := (hret (max f₀ f₁) (le_max_left _ _)).symm.trans
        (hret' (max f₀ f₁) (le_max_right _ _))
      cases heq
      exact ⟨hnone, hrest⟩
    · rintro ⟨hnone, hrest⟩
      exact ⟨s, -1, kill_of_not_target hw hfree hnone, killSpec_of_not_target hfree hnone, hrest⟩

/-- The root process and a child with pid 2, which sleeps. Both are in user code. -/
def forked : State 1 where
  tree := (start.fork 0 1 2).getD start
  sched :=
    { proc := fun p => if p = 0 then some ⟨false, 0, .running⟩
        else if p = 1 then some ⟨false, 0, .sleeping⟩ else none
      rq := [0]
      cpus := fun _ => ⟨0, 1000⟩ }
  elr := fun _ => 0x400000
  klock := false

theorem forked_wf : forked.Wf := by
  have hexec : exec next start [.fork 0 1 2] = some forked.tree := rfl
  exact Inv.run (Run.of_exec hexec)

/-- There is no process with pid 7 or 8. -/
theorem kill_calls_forked : KillsAll forked [7, 8] := by
  refine (kill_calls_iff forked_wf rfl).mpr fun pid hpid p hp => ?_
  have hp1 : forked.tree.pid p = 1 ∨ forked.tree.pid p = 2 := by
    show Function.update (fun _ => (1 : ℤ)) 1 2 p = 1 ∨ Function.update (fun _ => (1 : ℤ)) 1 2 p = 2
    by_cases h : p = 1
    · rw [h, Function.update_self]
      exact .inr rfl
    · rw [Function.update_of_ne h]
      exact .inl rfl
  rw [hp.2.1] at hp1
  simp only [List.mem_cons, List.not_mem_nil, or_false] at hpid
  omega

/-- The first call with pid 2 returns 0 and keeps the lock, and the second one never returns. -/
theorem kill_twice_blocks : ¬ ∀ (s : State 1) (pids : List ℤ), s.Wf → s.klock = false →
    KillsAll s pids := by
  intro h
  obtain ⟨t, r, hret, hspec, u, r', ⟨f₁, hret'⟩, -, -⟩ := h forked [2, 2] forked_wf rfl
  have hmem : (1 : ℕ) ∈ forked.tree.procs ∧ forked.tree.parent 1 = some 0 := by decide +kernel
  have htarget : forked.Target 2 1 := by
    refine ⟨⟨hmem.1, ?_⟩, by decide +kernel, by decide +kernel⟩
    rw [hmem.2]
    exact Option.some_ne_none _
  have hblocked := kill_of_klock (klock_of_target forked_wf htarget hret) 2 f₁
  rw [hret' f₁ le_rfl] at hblocked
  cases hblocked

end ShikiOS.Kernel.KillCall
