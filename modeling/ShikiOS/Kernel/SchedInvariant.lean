import ShikiOS.Lib.Run
import ShikiOS.Kernel.Sched

/-!
# The scheduler invariant

`Sched.Ok` relates the three places in which the scheduler keeps track of a process:
its `state`, its link in the run queue, and the `thisproc` of the processors. The
runs are those of any number of processes on `ncpu` processors. A step is one
critical section of the scheduler lock: a call of `sched` with one of the states
that its callers use, a call of `_activate_proc`, or the part of `wait` that takes
a zombie apart. Processes appear by `create_proc`, and `kill` may mark any of them
at any moment.

Results:
* `Ok.activateProc`, `Ok.sched`: one call keeps the invariant and meets no fault.
* `Ok.step`, `Run.ok`: so does every run.
* `sched_invariant`: what this says about queue, states and processors.
-/

namespace ShikiOS.Kernel

open ShikiOS.Lib

namespace Sched

variable {n : ℕ} {s t : Sched n} {c d : Fin n} {p q : ℕ} {x : Proc} {new : ProcState} {onalert : Bool}

/-- Queue, states and processors agree. -/
structure Ok (s : Sched n) : Prop where
  nodup : s.rq.Nodup
  queued : ∀ p, p ∈ s.rq ↔
    s.NonIdle p ∧ (s.state p = some .runnable ∨ s.state p = some .running)
  distinct : Function.Injective fun c => (s.cpus c).thisproc
  idles : Function.Injective fun c => (s.cpus c).idle
  own : ∀ c d, (s.cpus c).thisproc = (s.cpus d).idle → c = d
  current : ∀ c, s.state (s.cpus c).thisproc = some .running
  running : ∀ p, s.NonIdle p → s.state p = some .running → ∃ c, (s.cpus c).thisproc = p
  idle : ∀ c, (s.cpus c).thisproc ≠ (s.cpus c).idle → s.state (s.cpus c).idle = some .runnable

theorem Ok.idle_notMem (h : s.Ok) (c : Fin n) : (s.cpus c).idle ∉ s.rq := by
  intro hmem
  exact ((h.queued _).mp hmem).1 c rfl

/-- An idle process is awake. -/
theorem Ok.idle_state (h : s.Ok) (c : Fin n) :
    s.state (s.cpus c).idle = some .running ∨ s.state (s.cpus c).idle = some .runnable := by
  by_cases hc : (s.cpus c).thisproc = (s.cpus c).idle
  · exact .inl (hc ▸ h.current c)
  · exact .inr (h.idle c hc)

/-- A process that is neither RUNNING nor RUNNABLE is no idle process. -/
theorem Ok.nonIdle (h : s.Ok) (h1 : s.state p ≠ some .running) (h2 : s.state p ≠ some .runnable) :
    s.NonIdle p := by
  rintro c rfl
  exact (h.idle_state c).elim h1 h2

/-- Only states, queue and processors matter. -/
theorem Ok.congr (h : s.Ok) (hst : t.state = s.state) (hrq : t.rq = s.rq) (hc : t.cpus = s.cpus) :
    t.Ok := by
  have hn : t.NonIdle = s.NonIdle := by unfold NonIdle; rw [hc]
  constructor
  · rw [hrq]; exact h.nodup
  · intro p; rw [hrq, hn, hst]; exact h.queued p
  · rw [hc]; exact h.distinct
  · rw [hc]; exact h.idles
  · rw [hc]; exact h.own
  · rw [hc, hst]; exact h.current
  · intro p; rw [hn, hst, hc]; exact h.running p
  · rw [hc, hst]; exact h.idle

/-- A process that sleeps or is unused changes its state to another such state, or to
    ZOMBIE, or goes away. -/
theorem Ok.update (h : s.Ok) {v : Option ProcState} (h1 : s.state p ≠ some .running)
    (h2 : s.state p ≠ some .runnable) (hv1 : v ≠ some .running) (hv2 : v ≠ some .runnable)
    (hst : t.state = Function.update s.state p v) (hrq : t.rq = s.rq) (hc : t.cpus = s.cpus) :
    t.Ok := by
  have hn : t.NonIdle = s.NonIdle := by unfold NonIdle; rw [hc]
  have hne : ∀ q, s.state q = some .running ∨ s.state q = some .runnable → q ≠ p := by
    rintro q (hq | hq) rfl
    · exact h1 hq
    · exact h2 hq
  constructor
  · rw [hrq]; exact h.nodup
  · intro q
    rw [hrq, hn, hst, h.queued]
    by_cases hq : q = p
    · subst hq
      rw [Function.update_self]
      simp only [h1, h2, hv1, hv2, or_self]
    · rw [Function.update_of_ne hq]
  · rw [hc]; exact h.distinct
  · rw [hc]; exact h.idles
  · rw [hc]; exact h.own
  · intro c
    rw [hc, hst, Function.update_of_ne (hne _ (.inl (h.current c)))]
    exact h.current c
  · intro q hq hr
    rw [hn] at hq
    rw [hst] at hr
    by_cases hqp : q = p
    · subst hqp
      rw [Function.update_self] at hr
      exact absurd hr hv1
    · rw [Function.update_of_ne hqp] at hr
      rw [hc]
      exact h.running q hq hr
  · intro c hcc
    rw [hc] at hcc ⊢
    rw [hst, Function.update_of_ne (hne _ (.inr (h.idle c hcc)))]
    exact h.idle c hcc

/-! ## What one call changes -/

/-- Some processor runs `p`. -/
def Current (s : Sched n) (p : ℕ) : Prop := ∃ c, (s.cpus c).thisproc = p

/-- RUNNING or RUNNABLE. -/
def Awake (st : Option ProcState) : Prop := st = some .running ∨ st = some .runnable

/-- Between `s` and `t` only `p` falls asleep, wakes up or loses its processor. -/
structure Frame (s t : Sched n) (p : ℕ) : Prop where
  nonIdle : ∀ q, t.NonIdle q ↔ s.NonIdle q
  other : ∀ q, q ≠ p → t.state q = s.state q ∨ Awake (s.state q) ∧ Awake (t.state q)
  current : ∀ q, q ≠ p → s.Current q → t.Current q

theorem frame_update {v : Option ProcState} (hst : t.state = Function.update s.state p v)
    (hc : t.cpus = s.cpus) : Frame s t p := by
  refine ⟨fun q => by unfold NonIdle; rw [hc], fun q hq => .inl ?_, fun q _ hq => ?_⟩
  · rw [hst, Function.update_of_ne hq]
  · unfold Current at hq ⊢
    rwa [hc]

theorem Frame.awake (h : Frame s t p) (hq : q ≠ p) (hs : Awake (s.state q)) :
    Awake (t.state q) := by
  rcases h.other q hq with he | ⟨-, hw⟩
  · rwa [he]
  · exact hw

theorem Frame.state_eq (h : Frame s t p) (hq : q ≠ p) (hs : ¬ Awake (s.state q)) :
    t.state q = s.state q :=
  (h.other q hq).resolve_right fun hw => hs hw.1

theorem Ok.awake_of_current (h : s.Ok) (hp : s.Current p) : Awake (s.state p) := by
  obtain ⟨c, rfl⟩ := hp
  exact .inl (h.current c)

/-- `_activate_proc` meets no fault and keeps the invariant. It leaves `p` as it is, or
    makes it RUNNABLE. -/
theorem Ok.activateProc (h : s.Ok) (onalert : Bool) (hx : s.proc p = some x) :
    ∃ t b, s.activateProc p onalert = .ok (t, b) ∧ t.Ok ∧ Frame s t p ∧ t.cpus = s.cpus ∧
      ((t = s ∧ (x.state = .running ∨ x.state = .runnable ∨ x.state = .zombie ∨
        (x.state = .deepsleeping ∧ onalert = true))) ∨
        (t.state p = some .runnable ∧ (x.state = .sleeping ∨ x.state = .unused ∨
          (x.state = .deepsleeping ∧ onalert = false)))) := by
  have hst := Sched.state_eq hx
  have hrq : p ∈ s.rq → x.state = .runnable ∨ x.state = .running := by
    intro hp
    have := ((h.queued p).mp hp).2
    rw [hst] at this
    simpa using this
  rcases activateProc_cases onalert hx hrq with ⟨he, hstay⟩ | ⟨he, hw⟩
  · exact ⟨s, false, he, h, ⟨fun _ => Iff.rfl, fun _ _ => .inl rfl, fun _ _ hq => hq⟩, rfl,
      .inl ⟨rfl, hstay⟩⟩
  have hstate : ({ s.put p { x with state := .runnable, waitTime := 0 } with
      rq := p :: s.rq } : Sched n).state = Function.update s.state p (some .runnable) :=
    state_put (x := { x with state := .runnable, waitTime := 0 })
  refine ⟨_, _, he, ?_, frame_update hstate rfl, rfl, .inr ⟨?_, hw⟩⟩
  swap
  · rw [hstate, Function.update_self]
  have h1 : s.state p ≠ some .running := by
    rw [hst]; rcases hw with hw | hw | ⟨hw, -⟩ <;> rw [hw] <;> decide
  have h2 : s.state p ≠ some .runnable := by
    rw [hst]; rcases hw with hw | hw | ⟨hw, -⟩ <;> rw [hw] <;> decide
  have hni := h.nonIdle h1 h2
  have hout : p ∉ s.rq := fun hp => ((h.queued p).mp hp).2.elim h2 h1
  constructor
  · exact List.nodup_cons.mpr ⟨hout, h.nodup⟩
  · intro q
    rw [hstate]
    by_cases hq : q = p
    · subst hq
      rw [Function.update_self]
      exact ⟨fun _ => ⟨hni, .inl rfl⟩, fun _ => List.mem_cons_self⟩
    · rw [Function.update_of_ne hq, List.mem_cons, h.queued]
      exact ⟨fun hm => hm.resolve_left hq, .inr⟩
  · exact h.distinct
  · exact h.idles
  · exact h.own
  · intro c
    have hne : (s.cpus c).thisproc ≠ p := fun e => h1 (e ▸ h.current c)
    rw [hstate]
    exact (Function.update_of_ne hne _ _).trans (h.current c)
  · intro q hq hr
    rw [hstate] at hr
    by_cases hqp : q = p
    · subst hqp
      rw [Function.update_self] at hr
      cases hr
    · rw [Function.update_of_ne hqp] at hr
      exact h.running q hq hr
  · intro c hc
    rw [hstate]
    exact (Function.update_of_ne (hni c).symm _ _).trans (h.idle c hc)

/-- What `sched` needs of its caller: one of the states that the callers pass, and the
    idle process only yields (core.c:13-26). -/
def Asks (s : Sched n) (c : Fin n) (new : ProcState) : Prop :=
  new ≠ .running ∧ ((s.cpus c).thisproc = (s.cpus c).idle → new = .runnable)

/-- The switch of `sched` keeps the invariant: the current process `p` of `c` gets the
    state `new`, and `c` goes to `next`. -/
theorem Ok.switch (h : s.Ok) {next : ℕ} (hp : (s.cpus c).thisproc = p) (hnew : new ≠ .running)
    (hidle : p = (s.cpus c).idle → new = .runnable)
    (hcpus : t.cpus = Function.update s.cpus c { s.cpus c with thisproc := next })
    (hrq : t.rq = if p ≠ (s.cpus c).idle ∧ new = .runnable then p :: s.rq.erase p
      else s.rq.erase p)
    (hst : t.state = Function.update (Function.update s.state p (some new)) next (some .running))
    (hnext : next = (s.cpus c).idle ∨ next ∈ t.rq)
    (hready : Function.update s.state p (some new) next = some .runnable) : t.Ok := by
  have hrun : s.state p = some .running := hp ▸ h.current c
  have hthis : (t.cpus c).thisproc = next := by rw [hcpus, Function.update_self]
  have hother : ∀ e, e ≠ c → (t.cpus e).thisproc = (s.cpus e).thisproc := fun e he => by
    rw [hcpus, Function.update_of_ne he]
  have hidles : ∀ e, (t.cpus e).idle = (s.cpus e).idle := by
    intro e
    by_cases he : e = c
    · subst he; rw [hcpus, Function.update_self]
    · rw [hcpus, Function.update_of_ne he]
  have hn : ∀ q, t.NonIdle q ↔ s.NonIdle q := fun q => by simp only [NonIdle, hidles]
  have hmem : ∀ q, q ≠ p → (q ∈ t.rq ↔ q ∈ s.rq) := by
    intro q hq
    rw [hrq]
    split_ifs
    · rw [List.mem_cons, h.nodup.mem_erase_iff]
      exact ⟨fun hm => (hm.resolve_left hq).2, fun hm => .inr ⟨hq, hm⟩⟩
    · rw [h.nodup.mem_erase_iff]
      exact ⟨And.right, fun hm => ⟨hq, hm⟩⟩
  have hmemp : p ∈ t.rq ↔ p ≠ (s.cpus c).idle ∧ new = .runnable := by
    rw [hrq]
    split_ifs with hc
    · exact ⟨fun _ => hc, fun _ => List.mem_cons_self⟩
    · exact ⟨fun hm => absurd rfl (h.nodup.mem_erase_iff.mp hm).1, fun hc' => absurd hc' hc⟩
  -- `p` is the process of `c` only, so it is idle only if it is the idle process of `c`
  have hpidle : ∀ e, p = (s.cpus e).idle → e = c := fun e he => (h.own c e (hp.trans he)).symm
  -- the next process was RUNNABLE, so no processor runs it
  have hfresh : ∀ e, e ≠ c → (s.cpus e).thisproc ≠ next := by
    rintro e he rfl
    have hne : (s.cpus e).thisproc ≠ p := fun e' => he (h.distinct (e'.trans hp.symm))
    rw [Function.update_of_ne hne, h.current e] at hready
    cases hready
  have hqueued : ∀ q, q ∈ t.rq ↔
      t.NonIdle q ∧ (t.state q = some .runnable ∨ t.state q = some .running) := by
    intro q
    rw [hn, hst]
    by_cases hq : q = p
    · subst hq
      rw [hmemp]
      have hni : s.NonIdle q ↔ q ≠ (s.cpus c).idle :=
        ⟨fun hi => hi c, fun hi e he => hi (hpidle e he ▸ he)⟩
      rw [hni]
      refine and_congr_right fun _ => ?_
      by_cases hqn : q = next
      · subst hqn
        rw [Function.update_self] at hready ⊢
        simpa using hready
      · rw [Function.update_of_ne hqn, Function.update_self]
        simp [hnew]
    · rw [hmem q hq, h.queued]
      by_cases hqn : q = next
      · subst hqn
        rw [Function.update_of_ne hq] at hready
        rw [Function.update_self, hready]
        simp
      · rw [Function.update_of_ne hqn, Function.update_of_ne hq]
  constructor
  · rw [hrq]
    split_ifs
    · exact List.nodup_cons.mpr ⟨fun hm => (h.nodup.mem_erase_iff.mp hm).1 rfl, h.nodup.erase p⟩
    · exact h.nodup.erase p
  · exact hqueued
  · intro e f hef
    simp only at hef
    by_cases he : e = c <;> by_cases hf : f = c
    · rw [he, hf]
    · rw [he, hthis, hother f hf] at hef
      exact absurd hef.symm (hfresh f hf)
    · rw [hf, hthis, hother e he] at hef
      exact absurd hef (hfresh e he)
    · rw [hother e he, hother f hf] at hef
      exact h.distinct hef
  · intro e f hef
    simp only [hidles] at hef
    exact h.idles hef
  · intro e f hef
    rw [hidles] at hef
    by_cases he : e = c
    · subst he
      rw [hthis] at hef
      rcases hnext with hnext | hnext
      · exact h.idles (hnext.symm.trans hef)
      · exact absurd hef ((hn _).mp ((hqueued _).mp hnext).1 f)
    · rw [hother e he] at hef
      exact h.own e f hef
  · intro e
    rw [hst]
    by_cases he : e = c
    · rw [he, hthis, Function.update_self]
    · have hne : (s.cpus e).thisproc ≠ p := fun e' => he (h.distinct (e'.trans hp.symm))
      rw [hother e he, Function.update_of_ne (hfresh e he), Function.update_of_ne hne]
      exact h.current e
  · intro q hq hr
    rw [hn] at hq
    rw [hst] at hr
    by_cases hqn : q = next
    · exact ⟨c, hthis.trans hqn.symm⟩
    rw [Function.update_of_ne hqn] at hr
    by_cases hqp : q = p
    · rw [hqp, Function.update_self, Option.some.injEq] at hr
      exact absurd hr hnew
    rw [Function.update_of_ne hqp] at hr
    obtain ⟨e, rfl⟩ := h.running q hq hr
    have he : e ≠ c := fun e' => hqp (e' ▸ hp)
    exact ⟨e, hother e he⟩
  · intro e he
    rw [hidles] at he ⊢
    rw [hst]
    by_cases hec : e = c
    · subst hec
      rw [hthis] at he
      rw [Function.update_of_ne he.symm]
      by_cases hpi : (s.cpus e).idle = p
      · rw [hpi, Function.update_self, hidle hpi.symm]
      · rw [Function.update_of_ne hpi]
        exact h.idle e fun e' => hpi (e'.symm.trans hp)
    · rw [hother e hec] at he
      have hnp : (s.cpus e).idle ≠ p := fun e' => hec (hpidle e e'.symm)
      have hnn : (s.cpus e).idle ≠ next := by
        rintro e'
        rcases hnext with hnext | hnext
        · exact hec (h.idles (e'.trans hnext))
        · exact (hn _).mp ((hqueued _).mp hnext).1 e e'.symm
      rw [Function.update_of_ne hnn, Function.update_of_ne hnp]
      exact h.idle e he

/-- `sched` meets no fault and keeps the invariant. It returns at once when the current
    process is killed; otherwise that process gets the state `new`, and then runs again
    only if `new` is RUNNABLE. -/
theorem Ok.sched (h : s.Ok) (ha : s.Asks c new) :
    ∃ t, s.sched c new = .ok t ∧ t.Ok ∧ Frame s t (s.cpus c).thisproc ∧
      ((t = s ∧ (s.proc (s.cpus c).thisproc).map Proc.killed = some true) ∨
        (new ≠ .runnable → t.state (s.cpus c).thisproc = some new)) := by
  obtain ⟨x, hx, hrun⟩ := exists_of_state (h.current c)
  have hidle : Function.update s.state (s.cpus c).thisproc (some new) (s.cpus c).idle =
      some .runnable := by
    by_cases he : (s.cpus c).idle = (s.cpus c).thisproc
    · rw [he, Function.update_self, ha.2 he.symm]
    · rw [Function.update_of_ne he]
      exact h.idle c (Ne.symm he)
  rcases sched_cases rfl hx hrun h.nodup ha.1 (h.idle_notMem c) hidle with
    ⟨hk, he⟩ | ⟨t, next, -, he, hcpus, hrq, hst, -, hnext, hready⟩
  · exact ⟨s, he, h, ⟨fun _ => Iff.rfl, fun _ _ => .inl rfl, fun _ _ hq => hq⟩,
      .inl ⟨rfl, by rw [hx, Option.map_some, hk.1]⟩⟩
  have hidles : ∀ e, (t.cpus e).idle = (s.cpus e).idle := by
    intro e
    by_cases he : e = c
    · subst he; rw [hcpus, Function.update_self]
    · rw [hcpus, Function.update_of_ne he]
  refine ⟨t, he, h.switch rfl ha.1 ha.2 hcpus hrq hst hnext hready, ⟨fun q => ?_, fun q hq => ?_,
    fun q hq hcur => ?_⟩, .inr fun hnew => ?_⟩
  · simp only [NonIdle, hidles]
  · rw [hst]
    by_cases hqn : q = next
    · subst hqn
      rw [Function.update_of_ne hq] at hready
      rw [Function.update_self, hready]
      exact .inr ⟨.inr rfl, .inl rfl⟩
    · rw [Function.update_of_ne hqn, Function.update_of_ne hq]
      exact .inl rfl
  · obtain ⟨d, rfl⟩ := hcur
    have hdc : d ≠ c := fun e => hq (e ▸ rfl)
    exact ⟨d, by rw [hcpus, Function.update_of_ne hdc]⟩
  · have hne : (s.cpus c).thisproc ≠ next := by
      intro e
      rw [← e, Function.update_self, Option.some.injEq] at hready
      exact hnew hready
    rw [hst, Function.update_of_ne hne, Function.update_self]

/-! ## Runs -/

/-- `yield` (sched.h:22), and `sched_timer_handler` (sched.c:42-46). -/
def yield (s : Sched n) (c : Fin n) : Except Fault (Sched n) := s.sched c .runnable

/-- The sleep of `_wait_sem` (sem.c:74). -/
def sleep (s : Sched n) (c : Fin n) (alertable : Bool) : Except Fault (Sched n) :=
  s.sched c (if alertable then .sleeping else .deepsleeping)

/-- The end of `exit` (proc.c:263-268). -/
def exit (s : Sched n) (c : Fin n) : Except Fault (Sched n) := s.sched c .zombie

/-- What `wait` does with a child that is a ZOMBIE (proc.c:171-186): it takes the node
    of the run queue out and frees the `Proc`. -/
def wait (s : Sched n) (p : ℕ) : Sched n :=
  { s.detachRq p with proc := Function.update s.proc p none }

/-- `create_proc` (proc.c:72-103) with the memory at `p`. -/
def createProc (s : Sched n) (p : ℕ) : Sched n := s.put p ⟨false, 0, .unused⟩

/-- `dfs_kill` marks the process it finds (proc.c:277). -/
def dfsKill (s : Sched n) (p : ℕ) : Except Fault (Sched n) := do
  let x ← s.deref p
  return s.put p { x with killed := true }

/-- What can happen between two points at which the scheduler lock is free. -/
inductive Action (n : ℕ)
  | yield (c : Fin n)
  | sleep (c : Fin n) (alertable : Bool)
  | exit (c : Fin n)
  | activate (p : ℕ) (onalert : Bool)
  | wait (p : ℕ)
  | create (p : ℕ)
  | kill (p : ℕ)
deriving DecidableEq, Repr

/-- An action is possible: idle processes only yield, `wait` looks for a ZOMBIE, and
    the memory of a new process is free. -/
def Enabled (s : Sched n) : Action n → Prop
  | .yield _ => True
  | .sleep c _ | .exit c => (s.cpus c).thisproc ≠ (s.cpus c).idle
  | .activate p _ | .kill p => s.proc p ≠ none
  | .wait p => s.state p = some .zombie
  | .create p => s.proc p = none

instance (s : Sched n) (a : Action n) : Decidable (s.Enabled a) := by
  cases a <;> unfold Enabled <;> infer_instance

/-- The state after an action. -/
def next (s : Sched n) : Action n → Except Fault (Sched n)
  | .yield c => s.yield c
  | .sleep c alertable => s.sleep c alertable
  | .exit c => s.exit c
  | .activate p onalert => Prod.fst <$> s.activateProc p onalert
  | .wait p => .ok (s.wait p)
  | .create p => .ok (s.createProc p)
  | .kill p => s.dfsKill p

/-- One step of a run. -/
def step (s : Sched n) (a : Action n) : Option (Sched n) := (s.next a).toOption

/-- The state that `init_sched` leaves (sched.c:18-40): every processor runs its idle
    process, whose `killed` field is whatever the memory held. -/
structure Init (s : Sched n) : Prop where
  rq : s.rq = []
  idles : Function.Injective fun c => (s.cpus c).idle
  current : ∀ c, (s.cpus c).thisproc = (s.cpus c).idle
  running : ∀ c, s.state (s.cpus c).idle = some .running
  absent : ∀ p, s.NonIdle p → s.proc p = none

theorem Init.ok (h : s.Init) : s.Ok := by
  have hstate : ∀ p, s.NonIdle p → s.state p = none := fun p hp => by
    rw [state, h.absent p hp, Option.map_none]
  constructor
  · rw [h.rq]; exact List.nodup_nil
  · intro p
    rw [h.rq]
    refine ⟨fun hp => (List.not_mem_nil hp).elim, ?_⟩
    rintro ⟨hp, hs⟩
    rw [hstate p hp] at hs
    simp at hs
  · intro c d hcd
    simp only [h.current] at hcd
    exact h.idles hcd
  · exact h.idles
  · intro c d hcd
    rw [h.current] at hcd
    exact h.idles hcd
  · intro c
    rw [h.current]
    exact h.running c
  · intro p hp hs
    rw [hstate p hp] at hs
    cases hs
  · intro c hc
    exact absurd (h.current c) hc

/-- The process that an action is about. -/
def subject (s : Sched n) : Action n → ℕ
  | .yield c | .sleep c _ | .exit c => (s.cpus c).thisproc
  | .activate p _ | .wait p | .create p | .kill p => p

/-- Every action meets no fault, keeps the invariant, and changes only its subject. -/
theorem Ok.step (h : s.Ok) {a : Action n} (ha : s.Enabled a) :
    ∃ t, s.next a = .ok t ∧ t.Ok ∧ Frame s t (s.subject a) := by
  cases a with
  | yield c =>
    have hasks : s.Asks c .runnable := ⟨by decide, fun _ => rfl⟩
    obtain ⟨t, ht, hok, hf, -⟩ := h.sched hasks
    exact ⟨t, ht, hok, hf⟩
  | sleep c alertable =>
    have hasks : s.Asks c (if alertable then .sleeping else .deepsleeping) :=
      ⟨by cases alertable <;> decide, fun he => absurd he ha⟩
    obtain ⟨t, ht, hok, hf, -⟩ := h.sched hasks
    exact ⟨t, ht, hok, hf⟩
  | exit c =>
    have hasks : s.Asks c .zombie := ⟨by decide, fun he => absurd he ha⟩
    obtain ⟨t, ht, hok, hf, -⟩ := h.sched hasks
    exact ⟨t, ht, hok, hf⟩
  | activate p onalert =>
    obtain ⟨x, hx⟩ := Option.ne_none_iff_exists'.mp ha
    obtain ⟨t, b, ht, hok, hf, -⟩ := h.activateProc onalert hx
    exact ⟨t, by rw [Sched.next, ht]; rfl, hok, hf⟩
  | wait p =>
    have hz : s.state p = some .zombie := ha
    have h1 : s.state p ≠ some .running := by rw [hz]; decide
    have h2 : s.state p ≠ some .runnable := by rw [hz]; decide
    have hout : p ∉ s.rq := fun hp => ((h.queued p).mp hp).2.elim h2 h1
    have hst : (s.wait p).state = Function.update s.state p none := by
      funext q
      by_cases hq : q = p
      · subst hq
        simp only [Sched.state, Sched.wait, Function.update_self, Option.map_none]
      · simp only [Sched.state, Sched.wait, Function.update_of_ne hq]
    exact ⟨s.wait p, rfl, h.update h1 h2 (by decide) (by decide) hst (List.erase_of_not_mem hout) rfl,
      frame_update hst rfl⟩
  | create p =>
    have hn : s.state p = none := by rw [Sched.state, show s.proc p = none from ha]; rfl
    have h1 : s.state p ≠ some .running := by rw [hn]; decide
    have h2 : s.state p ≠ some .runnable := by rw [hn]; decide
    exact ⟨s.createProc p, rfl, h.update h1 h2 (by decide) (by decide) state_put rfl rfl,
      frame_update state_put rfl⟩
  | kill p =>
    obtain ⟨x, hx⟩ := Option.ne_none_iff_exists'.mp ha
    refine ⟨s.put p { x with killed := true }, ?_, h.congr ?_ rfl rfl, frame_update state_put rfl⟩
    · rw [Sched.next, dfsKill, deref_eq hx]
      rfl
    · rw [state_put]
      exact (congrArg (Function.update s.state p) (Sched.state_eq hx).symm).trans
        (Function.update_eq_self p s.state)

theorem Run.ok (h : Run step Enabled s t) (h0 : s.Ok) : t.Ok := by
  refine h.invariant h0 fun u a v hu ha hs => ?_
  obtain ⟨w, hw, hok, -⟩ := hu.step ha
  rw [step, hw] at hs
  cases hs
  exact hok

/-- At every point at which the scheduler lock is free: a process that is not idle is
    in the run queue exactly once when it is RUNNABLE or RUNNING and not at all
    otherwise; different processors run different processes; a process that is not
    idle is RUNNING exactly when it is the current process of one processor; an idle
    process is RUNNING when it is current on its processor and RUNNABLE otherwise. And
    whatever happens next meets no fault. -/
theorem sched_invariant (h0 : s.Init) (h : Run step Enabled s t) :
    (∀ p, t.NonIdle p → t.rq.count p =
      if t.state p = some .runnable ∨ t.state p = some .running then 1 else 0) ∧
    (∀ c d, c ≠ d → (t.cpus c).thisproc ≠ (t.cpus d).thisproc) ∧
    (∀ p, t.NonIdle p → (t.state p = some .running ↔ ∃! c, (t.cpus c).thisproc = p)) ∧
    (∀ c, (t.state (t.cpus c).idle = some .running ↔ (t.cpus c).thisproc = (t.cpus c).idle) ∧
      ((t.cpus c).thisproc ≠ (t.cpus c).idle → t.state (t.cpus c).idle = some .runnable)) ∧
    ∀ a, t.Enabled a → ∃ u, t.next a = .ok u := by
  have hok := Run.ok h h0.ok
  refine ⟨fun p hp => ?_, fun c d hcd e => hcd (hok.distinct e), fun p hp => ?_, fun c => ?_,
    fun a ha => ?_⟩
  · have hq := hok.queued p
    split_ifs with hs
    · exact List.count_eq_one_of_mem hok.nodup (hq.mpr ⟨hp, hs⟩)
    · exact List.count_eq_zero_of_not_mem fun hm => hs (hq.mp hm).2
  · constructor
    · intro hs
      obtain ⟨c, hc⟩ := hok.running p hp hs
      exact ⟨c, hc, fun d hd => hok.distinct (hd.trans hc.symm)⟩
    · rintro ⟨c, rfl, -⟩
      exact hok.current c
  · refine ⟨⟨fun hs => ?_, fun he => he ▸ hok.current c⟩, hok.idle c⟩
    by_contra hne
    rw [hok.idle c hne] at hs
    cases hs
  · obtain ⟨u, hu, -⟩ := hok.step ha
    exact ⟨u, hu⟩

/-- A state after `init_sched`: the idle process of processor `c` is at `1000 + c`. -/
def boot : Sched ncpu where
  proc p := if 1000 ≤ p ∧ p < 1000 + ncpu then some ⟨false, 0, .running⟩ else none
  rq := []
  cpus c := ⟨1000 + c, 1000 + c⟩

theorem init_boot : boot.Init := by
  refine ⟨rfl, fun c d h => ?_, fun _ => rfl, fun c => ?_, fun p hp => if_neg ?_⟩
  · simp only [boot, Nat.add_left_cancel_iff] at h
    exact Fin.ext h
  · have hc : 1000 ≤ 1000 + (c : ℕ) ∧ 1000 + (c : ℕ) < 1000 + ncpu := by
      have := c.isLt
      omega
    simp only [state, boot, if_pos hc, Option.map_some]
  · rintro ⟨h1, h2⟩
    refine hp ⟨p - 1000, by omega⟩ ?_
    simp only [boot]
    omega

/-- Process 1 runs on processor 0 and sleeps; process 2 runs on processor 1 meanwhile;
    then process 1 is woken by an alert. -/
theorem sched_invariant_wakeup : ∃ t, Run step Enabled boot t ∧ t.state 1 = some .runnable ∧
    t.rq.count 1 = 1 ∧ (∃! c, (t.cpus c).thisproc = 2) ∧
    t.state (t.cpus 0).idle = some .running := by
  have hrun : (execIf step Enabled boot [.create 1, .activate 1 false, .yield 0, .create 2,
      .activate 2 false, .yield 1, .sleep 0 true, .activate 1 true]).map
        (fun t => (t.state 1, t.state 2, (t.cpus 0).idle, (t.cpus 0).thisproc,
          (List.finRange ncpu).map fun c => (t.cpus c).idle)) =
      some (some .runnable, some .running, 1000, 1000, [1000, 1001, 1002, 1003]) := by
    decide +kernel
  obtain ⟨t, ht, hv⟩ := Run.of_execIf_map hrun
  obtain ⟨hcount, -, hcur, hidle, -⟩ := sched_invariant init_boot ht
  simp only [Prod.mk.injEq] at hv
  obtain ⟨h1, h2, hi, hthis, hidles⟩ := hv
  have hni : ∀ p, p < 1000 → t.NonIdle p := by
    rintro p hp c rfl
    have hmem : (t.cpus c).idle ∈ (List.finRange ncpu).map fun c => (t.cpus c).idle :=
      List.mem_map.mpr ⟨c, List.mem_finRange c, rfl⟩
    rw [hidles] at hmem
    simp at hmem
    omega
  refine ⟨t, ht, h1, ?_, (hcur 2 (hni 2 (by omega))).mp h2, (hidle 0).1.mpr (hthis.trans hi.symm)⟩
  rw [hcount 1 (hni 1 (by omega)), h1]
  simp

end Sched

end ShikiOS.Kernel
