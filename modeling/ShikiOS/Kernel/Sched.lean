import Mathlib.Tactic

/-!
# The scheduler (`kernel/sched.c`)

The state is what the scheduler lock protects: the `Proc` objects, the run queue
`rq` and the `struct sched` of each processor. Every function here is called with
that lock held and releases it before it returns, so each is one step. A `Proc` is
named by its address. The run queue is the list of the processes linked behind
`rq.next`, and `_insert_into_list` on a node that is still linked is a fault,
because it would cut the list. `pick_next` also looks at the memory around the list
head as if it were a process; that memory is taken as not RUNNABLE.

Left out: the timers of `update_this_state`, which do not touch this state, and the
contexts that `swtch` saves and loads. After `sched` the processor runs the process
that is its `thisproc`.

Results:
* `activateProc_cases`: what `_activate_proc` does, state by state.
* `pickNext_spec`: `pick_next` changes wait times only, and returns a RUNNABLE
  process of the queue or the idle process.
* `sched_cases`: `sched` returns at once for a killed process, or switches.
-/

namespace ShikiOS.Kernel

/-- `NCPU` (cpu.h:6). -/
def ncpu : ℕ := 4

instance : NeZero ncpu := ⟨by decide⟩

/-- `enum procstate` (proc.h:11). -/
inductive ProcState
  | unused | runnable | running | sleeping | deepsleeping | zombie
deriving DecidableEq, Repr

/-- The fields of `Proc` that the scheduler uses (proc.h:61-82). -/
structure Proc where
  killed : Bool
  waitTime : ℤ
  state : ProcState
deriving DecidableEq, Repr

/-- `struct sched` of a processor (cpu.h:8-12). -/
structure CpuSched where
  thisproc : ℕ
  idle : ℕ
deriving DecidableEq, Repr

/-- `rq`, `cpus[..].sched` and the processes. `proc p = none`: there is no `Proc` at `p`. -/
structure Sched (n : ℕ) where
  proc : ℕ → Option Proc
  rq : List ℕ
  cpus : Fin n → CpuSched

/-- What stops the kernel, or leaves what the model describes. -/
inductive Fault
  /-- `ASSERT(this->state == RUNNING)` (sched.c:180). -/
  | current
  /-- `ASSERT(next->state == RUNNABLE)` (sched.c:190). -/
  | next
  /-- The `PANIC` of `_activate_proc` (sched.c:112). -/
  | panic
  /-- A node that is still in the run queue is inserted. -/
  | linked
  /-- There is no `Proc` at the address. -/
  | noProc
deriving DecidableEq, Repr

namespace Sched

variable {n : ℕ} {s t : Sched n} {c d : Fin n} {p q : ℕ} {x : Proc} {new : ProcState} {onalert : Bool}

/-- The `state` field of the process at `p`. -/
def state (s : Sched n) (p : ℕ) : Option ProcState := (s.proc p).map Proc.state

/-- `p` is the idle process of no processor. -/
def NonIdle (s : Sched n) (p : ℕ) : Prop := ∀ c, p ≠ (s.cpus c).idle

/-- The process at `p`. -/
def deref (s : Sched n) (p : ℕ) : Except Fault Proc :=
  match s.proc p with
  | some x => .ok x
  | none => .error .noProc

/-- Store the fields of the process at `p`. -/
def put (s : Sched n) (p : ℕ) (x : Proc) : Sched n :=
  { s with proc := Function.update s.proc p (some x) }

/-- `_insert_into_list(&rq, &p->schinfo.rq)`: behind the head. -/
def insertRq (s : Sched n) (p : ℕ) : Except Fault (Sched n) :=
  if p ∈ s.rq then .error .linked else .ok { s with rq := p :: s.rq }

/-- `_detach_from_list(&p->schinfo.rq)`; nothing happens to a node that is not linked. -/
def detachRq (s : Sched n) (p : ℕ) : Sched n := { s with rq := s.rq.erase p }

/-- `_activate_proc` (sched.c:86-117). -/
def activateProc (s : Sched n) (p : ℕ) (onalert : Bool) : Except Fault (Sched n × Bool) := do
  let x ← s.deref p
  if x.state = .running ∨ x.state = .runnable ∨ x.state = .zombie ∨
      (x.state = .deepsleeping ∧ onalert = true) then
    return (s, false)
  if x.state = .sleeping ∨ x.state = .unused ∨ (x.state = .deepsleeping ∧ onalert = false) then
    let s ← (s.put p { x with state := .runnable, waitTime := 0 }).insertRq p
    return (s, true)
  throw .panic

/-- `update_this_state` (sched.c:119-139) on processor `c`. -/
def updateThisState (s : Sched n) (c : Fin n) (new : ProcState) : Except Fault (Sched n) := do
  let p := (s.cpus c).thisproc
  let x ← s.deref p
  let s := if p ≠ (s.cpus c).idle ∧ (x.state = .running ∨ x.state = .runnable) then
    s.detachRq p else s
  let s := s.put p { x with state := new }
  if p ≠ (s.cpus c).idle ∧ (new = .running ∨ new = .runnable) then
    (s.put p { x with state := new, waitTime := 0 }).insertRq p
  else return s

/-- The loop of `pick_next` (sched.c:146-158) over the rest of the queue. -/
def pickLoop : List ℕ → (ℕ → Option Proc) → ℤ → Option ℕ → (ℕ → Option Proc) × Option ℕ
  | [], proc, _, chosen => (proc, chosen)
  | p :: rest, proc, maxWaitTime, chosen =>
    match proc p with
    | none => pickLoop rest proc maxWaitTime chosen
    | some x =>
      if x.state = .runnable then
        let x := { x with waitTime := x.waitTime + 1 }
        let proc := Function.update proc p (some x)
        if x.waitTime > maxWaitTime then pickLoop rest proc x.waitTime (some p)
        else pickLoop rest proc maxWaitTime chosen
      else pickLoop rest proc maxWaitTime chosen

/-- `pick_next` (sched.c:141-162). -/
def pickNext (s : Sched n) (c : Fin n) : Sched n × ℕ :=
  match pickLoop s.rq s.proc (-1) none with
  | (proc, chosen) => ({ s with proc := proc }, chosen.getD (s.cpus c).idle)

/-- `update_this_proc` (sched.c:164-171). -/
def updateThisProc (s : Sched n) (c : Fin n) (p : ℕ) : Sched n :=
  { s with cpus := Function.update s.cpus c { s.cpus c with thisproc := p } }

/-- `sched` (sched.c:176-199). -/
def sched (s : Sched n) (c : Fin n) (new : ProcState) : Except Fault (Sched n) := do
  let x ← s.deref (s.cpus c).thisproc
  if x.state ≠ .running then throw .current
  if x.killed ∧ new ≠ .zombie then return s
  let s ← s.updateThisState c new
  let (s, next) := s.pickNext c
  let s := s.updateThisProc c next
  let y ← s.deref next
  if y.state ≠ .runnable then throw .next
  return s.put next { y with state := .running }

/-! ## Reading the state back -/

@[simp] theorem put_rq : (s.put p x).rq = s.rq := rfl
@[simp] theorem put_cpus : (s.put p x).cpus = s.cpus := rfl
@[simp] theorem put_proc_self : (s.put p x).proc p = some x := Function.update_self _ _ _

theorem put_proc_of_ne (h : q ≠ p) : (s.put p x).proc q = s.proc q := Function.update_of_ne h _ _

@[simp] theorem detachRq_proc : (s.detachRq p).proc = s.proc := rfl
@[simp] theorem detachRq_cpus : (s.detachRq p).cpus = s.cpus := rfl
@[simp] theorem updateThisProc_proc : (s.updateThisProc c p).proc = s.proc := rfl
@[simp] theorem updateThisProc_rq : (s.updateThisProc c p).rq = s.rq := rfl

theorem state_eq (h : s.proc p = some x) : s.state p = some x.state := by
  rw [state, h, Option.map_some]

theorem exists_of_state {st : ProcState} (h : s.state p = some st) :
    ∃ x, s.proc p = some x ∧ x.state = st := Option.map_eq_some_iff.mp h

theorem state_put : (s.put p x).state = Function.update s.state p (some x.state) := by
  funext q
  by_cases h : q = p
  · subst h
    rw [Function.update_self, state, put_proc_self, Option.map_some]
  · rw [Function.update_of_ne h, state, put_proc_of_ne h, state]

theorem deref_eq (h : s.proc p = some x) : s.deref p = .ok x := by rw [deref, h]

theorem insertRq_eq (h : p ∉ s.rq) : s.insertRq p = .ok { s with rq := p :: s.rq } := if_neg h

/-! ## What each function does -/

/-- `_activate_proc` leaves a process that is awake, a zombie, or in deep sleep on an
    alert; it makes every other process RUNNABLE and queues it. -/
theorem activateProc_cases (onalert : Bool) (hx : s.proc p = some x)
    (hrq : p ∈ s.rq → x.state = .runnable ∨ x.state = .running) :
    (s.activateProc p onalert = .ok (s, false) ∧
      (x.state = .running ∨ x.state = .runnable ∨ x.state = .zombie ∨
        (x.state = .deepsleeping ∧ onalert = true))) ∨
    (s.activateProc p onalert =
        .ok ({ s.put p { x with state := .runnable, waitTime := 0 } with rq := p :: s.rq }, true) ∧
      (x.state = .sleeping ∨ x.state = .unused ∨ (x.state = .deepsleeping ∧ onalert = false))) := by
  unfold activateProc
  rw [deref_eq hx]
  simp only [bind, Except.bind, pure, Except.pure]
  by_cases hstay : x.state = .running ∨ x.state = .runnable ∨ x.state = .zombie ∨
      (x.state = .deepsleeping ∧ onalert = true)
  · left
    rw [if_pos hstay]
    exact ⟨rfl, hstay⟩
  · right
    have hwake : x.state = .sleeping ∨ x.state = .unused ∨
        (x.state = .deepsleeping ∧ onalert = false) := by
      cases hst : x.state <;> cases onalert <;> simp [hst] at hstay ⊢
    have hnot : p ∉ (s.put p { x with state := .runnable, waitTime := 0 }).rq := fun h =>
      hstay ((hrq h).elim (fun h => .inr (.inl h)) .inl)
    rw [if_neg hstay, if_pos hwake, insertRq_eq hnot]
    exact ⟨rfl, hwake⟩

/-- `update_this_state` takes the current process out of the queue, or puts it in
    front when it stays RUNNABLE. The idle process is never queued. -/
theorem updateThisState_eq (hp : (s.cpus c).thisproc = p) (hx : s.proc p = some x)
    (hrun : x.state = .running) (hnd : s.rq.Nodup) (hnew : new ≠ .running)
    (hidle : p = (s.cpus c).idle → p ∉ s.rq) :
    ∃ t y, s.updateThisState c new = .ok t ∧ t.proc = Function.update s.proc p (some y) ∧
      y.state = new ∧ y.killed = x.killed ∧ t.cpus = s.cpus ∧
      t.rq = if p ≠ (s.cpus c).idle ∧ new = .runnable then p :: s.rq.erase p
        else s.rq.erase p := by
  simp only [updateThisState, hp, deref_eq hx, bind, Except.bind, pure, Except.pure, hrun,
    true_or, and_true]
  by_cases hi : p = (s.cpus c).idle
  · refine ⟨s.put p { x with state := new }, { x with state := new }, ?_, rfl, rfl, rfl, rfl, ?_⟩
    · rw [if_neg (not_not_intro hi), if_neg fun h => h.1 hi]
    · rw [if_neg fun h => h.1 hi, List.erase_of_not_mem (hidle hi)]
      rfl
  · rw [if_pos hi]
    by_cases hn : new = .runnable
    · have hout : p ∉ (((s.detachRq p).put p { x with state := new }).put p
          { x with state := new, waitTime := 0 }).rq := fun h => (hnd.mem_erase_iff.mp h).1 rfl
      refine ⟨{ s.put p { x with state := new, waitTime := 0 } with rq := p :: s.rq.erase p },
        { x with state := new, waitTime := 0 }, ?_, rfl, rfl, rfl, rfl, ?_⟩
      · rw [if_pos ⟨hi, .inr hn⟩, insertRq_eq hout]
        simp only [put, detachRq, Function.update_idem]
      · rw [if_pos ⟨hi, hn⟩]
    · refine ⟨(s.detachRq p).put p { x with state := new }, { x with state := new }, ?_, rfl, rfl,
        rfl, rfl, ?_⟩
      · rw [if_neg fun h => h.2.elim hnew hn]
      · rw [if_neg fun h => hn h.2]
        rfl

/-- The loop changes wait times only, and chooses what it held before or a RUNNABLE
    process of the queue. -/
theorem pickLoop_spec (rq : List ℕ) (proc : ℕ → Option Proc) (m : ℤ) (chosen : Option ℕ) :
    (∀ q, ((pickLoop rq proc m chosen).1 q).map (fun y => (y.killed, y.state)) =
      (proc q).map fun y => (y.killed, y.state)) ∧
    ∀ q, (pickLoop rq proc m chosen).2 = some q →
      chosen = some q ∨ q ∈ rq ∧ (proc q).map Proc.state = some .runnable := by
  induction rq generalizing proc m chosen with
  | nil => exact ⟨fun _ => rfl, fun q h => .inl h⟩
  | cons p rest ih =>
    rw [pickLoop]
    cases hp : proc p with
    | none =>
      refine ⟨(ih proc m chosen).1, fun q h => ?_⟩
      exact ((ih proc m chosen).2 q h).imp_right fun h => ⟨List.mem_cons_of_mem _ h.1, h.2⟩
    | some x =>
      simp only
      by_cases hx : x.state = .runnable
      · rw [if_pos hx]
        have hkeep : ∀ q, (Function.update proc p (some { x with waitTime := x.waitTime + 1 }) q).map
            (fun y => (y.killed, y.state)) = (proc q).map fun y => (y.killed, y.state) := by
          intro q
          by_cases hq : q = p
          · subst hq
            rw [Function.update_self, hp]
            rfl
          · rw [Function.update_of_ne hq]
        have hstate : ∀ q, (Function.update proc p
            (some { x with waitTime := x.waitTime + 1 }) q).map Proc.state =
              (proc q).map Proc.state := by
          intro q
          have := congrArg (Option.map Prod.snd) (hkeep q)
          simpa only [Option.map_map, Function.comp_def] using this
        split_ifs
        · obtain ⟨h1, h2⟩ := ih (Function.update proc p (some { x with waitTime := x.waitTime + 1 }))
            (x.waitTime + 1) (some p)
          refine ⟨fun q => (h1 q).trans (hkeep q), fun q h => .inr ?_⟩
          rcases h2 q h with h | ⟨h, hr⟩
          · cases h
            exact ⟨List.mem_cons_self, by rw [hp, Option.map_some, hx]⟩
          · exact ⟨List.mem_cons_of_mem _ h, (hstate q).symm.trans hr⟩
        · obtain ⟨h1, h2⟩ := ih (Function.update proc p (some { x with waitTime := x.waitTime + 1 }))
            m chosen
          refine ⟨fun q => (h1 q).trans (hkeep q), fun q h => ?_⟩
          exact (h2 q h).imp_right fun h => ⟨List.mem_cons_of_mem _ h.1, (hstate q).symm.trans h.2⟩
      · rw [if_neg hx]
        refine ⟨(ih proc m chosen).1, fun q h => ?_⟩
        exact ((ih proc m chosen).2 q h).imp_right fun h => ⟨List.mem_cons_of_mem _ h.1, h.2⟩

/-- `pick_next` changes wait times only, and returns the idle process or a RUNNABLE
    process of the queue. -/
theorem pickNext_spec {u : Sched n} {next : ℕ} (h : s.pickNext c = (u, next)) :
    u.rq = s.rq ∧ u.cpus = s.cpus ∧ u.state = s.state ∧
      (∀ q, (u.proc q).map Proc.killed = (s.proc q).map Proc.killed) ∧
      (next = (s.cpus c).idle ∨ next ∈ s.rq ∧ s.state next = some .runnable) := by
  obtain ⟨hkeep, hchosen⟩ := pickLoop_spec s.rq s.proc (-1) none
  unfold pickNext at h
  generalize pickLoop s.rq s.proc (-1) none = r at h hkeep hchosen
  obtain ⟨proc, chosen⟩ := r
  cases h
  refine ⟨rfl, rfl, ?_, fun q => ?_, ?_⟩
  · funext q
    have := congrArg (Option.map Prod.snd) (hkeep q)
    simpa only [state, Option.map_map, Function.comp_def] using this
  · have := congrArg (Option.map Prod.fst) (hkeep q)
    simpa only [Option.map_map, Function.comp_def] using this
  · cases chosen with
    | none => exact .inl rfl
    | some q =>
      rcases hchosen q rfl with h | h
      · cases h
      · exact .inr h

/-- `sched` returns at once for a killed process that does not exit. Otherwise the
    current process gets its new state, and the processor goes to a RUNNABLE process
    of the queue or to its idle process. -/
theorem sched_cases (hp : (s.cpus c).thisproc = p) (hx : s.proc p = some x)
    (hrun : x.state = .running) (hnd : s.rq.Nodup) (hnew : new ≠ .running)
    (hout : (s.cpus c).idle ∉ s.rq)
    (hidle : Function.update s.state p (some new) (s.cpus c).idle = some .runnable) :
    ((x.killed = true ∧ new ≠ .zombie) ∧ s.sched c new = .ok s) ∨
    ∃ t next, ¬ (x.killed = true ∧ new ≠ .zombie) ∧ s.sched c new = .ok t ∧
      t.cpus = Function.update s.cpus c { s.cpus c with thisproc := next } ∧
      t.rq = (if p ≠ (s.cpus c).idle ∧ new = .runnable then p :: s.rq.erase p
        else s.rq.erase p) ∧
      t.state = Function.update (Function.update s.state p (some new)) next (some .running) ∧
      (∀ q, (t.proc q).map Proc.killed = (s.proc q).map Proc.killed) ∧
      (next = (s.cpus c).idle ∨ next ∈ t.rq) ∧
      Function.update s.state p (some new) next = some .runnable := by
  simp only [sched, hp, deref_eq hx, bind, Except.bind, pure, Except.pure, hrun, ne_eq,
    not_true_eq_false, if_false]
  by_cases hk : x.killed = true ∧ ¬ new = .zombie
  · exact .inl ⟨hk, if_pos hk⟩
  right
  obtain ⟨u, y, hu, huproc, hy, hyk, hucpus, hurq⟩ := updateThisState_eq hp hx hrun hnd hnew
    fun e => e ▸ hout
  have hustate : u.state = Function.update s.state p (some new) := by
    funext q
    rw [state, huproc]
    by_cases hq : q = p
    · subst hq
      rw [Function.update_self, Function.update_self, Option.map_some, hy]
    · rw [Function.update_of_ne hq, Function.update_of_ne hq, state]
  have hukilled : ∀ q, (u.proc q).map Proc.killed = (s.proc q).map Proc.killed := by
    intro q
    rw [huproc]
    by_cases hq : q = p
    · subst hq
      rw [Function.update_self, hx, Option.map_some, Option.map_some, hyk]
    · rw [Function.update_of_ne hq]
  rw [if_neg hk, hu]
  simp only
  generalize hv : u.pickNext c = r
  obtain ⟨v, next⟩ := r
  obtain ⟨hvrq, hvcpus, hvstate, hvkilled, hnext⟩ := pickNext_spec hv
  have hrunnable : v.state next = some .runnable := by
    rw [hvstate]
    rcases hnext with rfl | ⟨_, h⟩
    · rw [hustate, hucpus]
      exact hidle
    · exact h
  obtain ⟨z, hz, hzst⟩ := exists_of_state hrunnable
  refine ⟨(v.updateThisProc c next).put next { z with state := .running }, next, hk, ?_, ?_, ?_,
    ?_, ?_, ?_, ?_⟩
  · have hd : (v.updateThisProc c next).deref next = .ok z := deref_eq hz
    rw [hd]
    simp [hzst]
  · rw [put_cpus, updateThisProc, hvcpus, hucpus]
  · rw [put_rq, updateThisProc_rq, hvrq, hurq]
  · rw [state_put, ← hustate, ← hvstate]
    rfl
  · intro q
    rw [← hukilled q, ← hvkilled q]
    by_cases hq : q = next
    · subst hq
      rw [put_proc_self, hz]
      rfl
    · rw [put_proc_of_ne hq, updateThisProc_proc]
  · rw [put_rq, updateThisProc_rq, hvrq]
    rw [hucpus] at hnext
    exact hnext.imp_right And.left
  · rw [← hustate, ← hvstate, hrunnable]

end Sched

end ShikiOS.Kernel
