import Mathlib.Data.UInt
import ShikiOS.Lib.Run
import ShikiOS.Lib.Wp

/-!
# The timers of a processor (`kernel/cpu.c`, `kernel/sched.c`)

Each processor has a tree of timers. Two timers are put into it: the one of the scheduler and
the one of `hello`. The tree is the list of its nodes in order. A node that is inserted while
it is in the tree, or erased while it is not, is a fault, because the tree is then no tree.

`timer_clock_handler` is a loop; here each of its rounds is a step, so that other processes
may run while a process that was switched out by the scheduling timer is still in the loop.
What `reset_clock` does to the hardware is left out.

Results:
* `cancel_only_armed`: while the clock handler does not find the scheduling timer due, only
  timers in the tree are cancelled, none is inserted twice, and a timer that was set is in
  the tree exactly while `triggered` is false. The first step outside the condition breaks this.
* `sched_timer_erases_absent`: a scheduling timer that is due is erased twice.
-/

namespace ShikiOS.Kernel.Timers

open ShikiOS.Lib

/-! ## State -/

/-- `sched_timer[i]` and `hello_timer[i]` of the processor `i`. -/
inductive TimerId
  | sched | hello
deriving DecidableEq, Repr

/-- `struct timer` (cpu.h:23-30) without the node and the handler. -/
structure Timer where
  triggered : Bool
  elapse : UInt64
  key : UInt64
  data : UInt64
deriving DecidableEq, Repr

/-- What stops the kernel, or breaks the tree. -/
inductive Fault
  /-- `ASSERT(!timer->triggered)` (cpu.c:77). -/
  | triggered
  /-- `ASSERT(0 == _rb_insert(..))` (cpu.c:71). -/
  | equivalent
  /-- `_rb_erase` of a node that is not in the tree. -/
  | eraseAbsent
  /-- `_rb_insert` of a node that is in the tree. -/
  | insertPresent
deriving DecidableEq, Repr

/-- The timers of a processor and `cpus[i].timer`. The `n`-th call of `get_timestamp_ms`
    returns `clock n`, and `reads` calls have been made. `wasSet` says which timers have been
    passed to `set_cpu_timer`; the code does not have it. -/
structure CpuTimers where
  timer : TimerId → Timer
  tree : List TimerId
  clock : ℕ → UInt64
  reads : ℕ
  wasSet : TimerId → Bool
  fault : Option Fault

/-- A function of the kernel. -/
abbrev M := EStateM Fault CpuTimers

/-! ## `kernel/cpu.c` -/

/-- `lnode < rnode`: `lower` says that `sched_timer[i]` has the lower address. -/
def lowerAddress (lower : Bool) : TimerId → TimerId → Bool
  | .sched, .hello => lower
  | .hello, .sched => !lower
  | _, _ => false

/-- `__timer_cmp` (cpu.c:11-20): the difference of the keys is an `i64`. -/
def timerCmp (lower : Bool) (timer : TimerId → Timer) (l r : TimerId) : Bool :=
  let d := (timer l).key - (timer r).key
  if d ≥ 2 ^ 63 then true
  else if d = 0 then lowerAddress lower l r
  else false

/-- `_rb_insert`, `none` if it returns -1. -/
def rbInsert (cmp : TimerId → TimerId → Bool) (t : TimerId) : List TimerId → Option (List TimerId)
  | [] => some [t]
  | u :: l =>
    if cmp t u then some (t :: u :: l)
    else if cmp u t then (rbInsert cmp t l).map (u :: ·)
    else none

/-- `get_timestamp_ms`. -/
def getTimestampMs : M UInt64 := do
  let s ← get
  set { s with reads := s.reads + 1 }
  return s.clock s.reads

/-- An assignment to `*timer`. -/
def modifyTimer (t : TimerId) (f : Timer → Timer) : M Unit :=
  modify fun s => { s with timer := Function.update s.timer t (f (s.timer t)) }

/-- `__timer_set_clock` (cpu.c:22-35). -/
def timerSetClock : M Unit := do
  let s ← get
  match s.tree with
  | [] => pure ()
  | _ :: _ => do
    let _ ← getTimestampMs
    pure ()

variable (lower : Bool)

/-- `set_cpu_timer` (cpu.c:67-73). -/
def setCpuTimer (t : TimerId) : M Unit := do
  modifyTimer t fun x => { x with triggered := false }
  let now ← getTimestampMs
  modifyTimer t fun x => { x with key := now + x.elapse }
  let s ← get
  if t ∈ s.tree then throw .insertPresent
  else match rbInsert (timerCmp lower s.timer) t s.tree with
    | none => throw .equivalent
    | some tree => do
      set { s with tree := tree, wasSet := Function.update s.wasSet t true }
      timerSetClock

/-- `cancel_cpu_timer` (cpu.c:75-80). -/
def cancelCpuTimer (t : TimerId) : M Unit := do
  let s ← get
  if (s.timer t).triggered then throw .triggered
  else if t ∉ s.tree then throw .eraseAbsent
  else do
    set { s with tree := s.tree.erase t }
    timerSetClock

/-! ## `kernel/sched.c` -/

/-- Lines 134-137 of `update_this_state`. -/
def updateThisState : M Unit := do
  let s ← get
  (if !(s.timer .sched).triggered then cancelCpuTimer .sched else pure ())
  setCpuTimer lower .sched

/-- `sched` (sched.c:176-197), as far as timers are concerned: whether the process is killed,
    and whether its new state is ZOMBIE. -/
def sched (killed zombie : Bool) : M Unit :=
  if killed && !zombie then pure () else updateThisState lower

/-- `sched_timer_handler` (sched.c:38-42), called by a process that may be killed. -/
def schedTimerHandler (killed : Bool) : M Unit := do
  modifyTimer .sched fun x => { x with triggered := false }
  sched lower killed false

/-- `hello` (cpu.c:60-65). -/
def hello : M Unit := do
  modifyTimer .hello fun x => { x with data := x.data + 1 }
  setCpuTimer lower .hello

/-- `timer->handler(timer)`. -/
def handler (killed : Bool) : TimerId → M Unit
  | .sched => schedTimerHandler lower killed
  | .hello => hello lower

/-- One round of the loop of `timer_clock_handler` (cpu.c:40-50). -/
def clockRound (killed : Bool) : M Unit := do
  let s ← get
  match s.tree with
  | [] => pure ()
  | t :: _ => do
    let now ← getTimestampMs
    if now < (s.timer t).key then pure ()
    else do
      cancelCpuTimer t
      modifyTimer t fun x => { x with triggered := true }
      handler lower killed t

/-! ## Runs -/

/-- The calls. -/
inductive Action
  | set (t : TimerId)
  | cancel (t : TimerId)
  /-- A round of `timer_clock_handler`, while a process runs that may be killed. -/
  | round (killed : Bool)
  /-- `sched`, called by a process that may be killed. -/
  | sched (killed zombie : Bool)
deriving DecidableEq, Repr

/-- What a call does. -/
def Action.run : Action → M Unit
  | .set t => setCpuTimer lower t
  | .cancel t => cancelCpuTimer t
  | .round killed => clockRound lower killed
  | .sched killed zombie => Timers.sched lower killed zombie

/-- A step; there is none after a fault. -/
def next (s : CpuTimers) (a : Action) : Option CpuTimers :=
  if s.fault = none then
    match a.run lower s with
    | .ok _ t => some t
    | .error e t => some { t with fault := some e }
  else none

/-- The timers as `init_sched` (sched.c:31-34) and `set_cpu_on` (cpu.c:93-94) fill them in. -/
def start (clock : ℕ → UInt64) (data : UInt64) : CpuTimers where
  timer
    | .sched => ⟨true, 15, 0, data⟩
    | .hello => ⟨false, 5000, 0, 0⟩
  tree := []
  clock := clock
  reads := 0
  wasSet := fun _ => false
  fault := none

/-! ## What the flag says -/

/-- Only nodes in the tree were erased and none was inserted twice; a timer that was set is in
    the tree exactly while its flag is false. -/
def OnlyArmed (s : CpuTimers) : Prop :=
  s.fault ≠ some .eraseAbsent ∧ s.fault ≠ some .insertPresent ∧
    ∀ t, s.wasSet t = true → (t ∈ s.tree ↔ (s.timer t).triggered = false)

/-- Who calls what. `set_cpu_timer` is called for timers that are not armed and
    `cancel_cpu_timer` only by the code above, which is why a direct call must fail its
    assertion. No round of the clock handler takes the scheduling timer. -/
def Ok (s : CpuTimers) : Action → Prop
  | .set t => s.wasSet t = true → (s.timer t).triggered = true
  | .cancel t => (s.timer t).triggered = true
  | .round _ => ∀ t ∈ s.tree.head?, (s.timer t).key ≤ s.clock s.reads → t ≠ .sched
  | .sched _ _ => True

instance (s : CpuTimers) : ∀ a, Decidable (Ok s a)
  | .set t => inferInstanceAs (Decidable (s.wasSet t = true → (s.timer t).triggered = true))
  | .cancel t => inferInstanceAs (Decidable ((s.timer t).triggered = true))
  | .round _ => inferInstanceAs (Decidable (∀ t ∈ s.tree.head?, _ → t ≠ .sched))
  | .sched _ _ => inferInstanceAs (Decidable True)

/-! ## The invariant -/

/-- The state between two steps. -/
structure Inv (s : CpuTimers) : Prop where
  armed : ∀ t, s.wasSet t = true → (t ∈ s.tree ↔ (s.timer t).triggered = false)
  unset : ∀ t, s.wasSet t = false → t ∉ s.tree
  nodup : s.tree.Nodup
  running : s.fault = none
  /-- `update_this_state` never cancels a scheduling timer that was not set. -/
  idle : s.wasSet .sched = false → (s.timer .sched).triggered = true

/-- The state while `u` is out of the tree, whatever its flag says. -/
structure Off (u : TimerId) (s : CpuTimers) : Prop where
  out : u ∉ s.tree
  armed : ∀ t, t ≠ u → s.wasSet t = true → (t ∈ s.tree ↔ (s.timer t).triggered = false)
  unset : ∀ t, t ≠ u → s.wasSet t = false → t ∉ s.tree
  nodup : s.tree.Nodup
  running : s.fault = none
  idle : u ≠ .sched → s.wasSet .sched = false → (s.timer .sched).triggered = true

/-- No fault at all. -/
def Never (_ : Fault) (_ : CpuTimers) : Prop := False

theorem Inv.off {u : TimerId} {s : CpuTimers} (h : Inv s)
    (hu : s.wasSet u = true → (s.timer u).triggered = true) : Off u s where
  out := by
    intro hmem
    cases hw : s.wasSet u with
    | false => exact h.unset u hw hmem
    | true =>
      have hflag := (h.armed u hw).mp hmem
      rw [hu hw] at hflag
      cases hflag
  armed t _ := h.armed t
  unset t _ := h.unset t
  nodup := h.nodup
  running := h.running
  idle _ := h.idle

/-- What is in the tree is armed. -/
theorem Inv.of_mem {t : TimerId} {s : CpuTimers} (h : Inv s) (ht : t ∈ s.tree) :
    s.wasSet t = true ∧ (s.timer t).triggered = false := by
  cases hw : s.wasSet t with
  | false => exact absurd ht (h.unset t hw)
  | true => exact ⟨rfl, (h.armed t hw).mp ht⟩

theorem mem_rbInsert {cmp : TimerId → TimerId → Bool} {t u : TimerId} {l l' : List TimerId}
    (h : rbInsert cmp t l = some l') : u ∈ l' ↔ u = t ∨ u ∈ l := by
  induction l generalizing l' with
  | nil =>
    cases h
    simp
  | cons v l ih =>
    rw [rbInsert] at h
    split_ifs at h with h1 h2
    · cases h
      exact List.mem_cons
    · obtain ⟨k, hk, rfl⟩ := Option.map_eq_some_iff.mp h
      rw [List.mem_cons, ih hk, List.mem_cons]
      tauto

theorem nodup_rbInsert {cmp : TimerId → TimerId → Bool} {t : TimerId} {l l' : List TimerId}
    (h : rbInsert cmp t l = some l') (ht : t ∉ l) (hl : l.Nodup) : l'.Nodup := by
  induction l generalizing l' with
  | nil =>
    cases h
    exact List.nodup_singleton t
  | cons v l ih =>
    rw [rbInsert] at h
    rw [List.nodup_cons] at hl
    rw [List.mem_cons, not_or] at ht
    split_ifs at h with h1 h2
    · cases h
      simp_all
    · obtain ⟨k, hk, rfl⟩ := Option.map_eq_some_iff.mp h
      have hv : v ∉ k := by
        rw [mem_rbInsert hk]
        rintro (rfl | hv)
        · exact ht.1 rfl
        · exact hl.1 hv
      exact List.nodup_cons.mpr ⟨hv, ih hk ht.2 hl.2⟩

/-- Of two timers one comes first, so the insertion finds a place for each of them. -/
theorem timerCmp_total (lower : Bool) (timer : TimerId → Timer) {l r : TimerId} (hlr : l ≠ r) :
    timerCmp lower timer l r = true ∨ timerCmp lower timer r l = true := by
  have haddr : lowerAddress lower l r = true ∨ lowerAddress lower r l = true := by
    cases l <;> cases r <;> cases lower <;> simp_all [lowerAddress]
  have hneg : (timer r).key - (timer l).key = -((timer l).key - (timer r).key) := by grind
  unfold timerCmp
  rw [hneg]
  generalize (timer l).key - (timer r).key = d
  have hmid : ((2 : UInt64) ^ 63).toNat = 2 ^ 63 := by decide +kernel
  by_cases h0 : d = 0
  · subst h0
    have h1 : ¬ (0 : UInt64) ≥ 2 ^ 63 := by decide +kernel
    rw [UInt64.neg_zero]
    simpa only [if_neg h1, if_true] using haddr
  · have hd : d.toNat ≠ 0 := fun h => h0 (UInt64.toNat_inj.mp h)
    have hlt := UInt64.toNat_lt d
    by_cases h1 : d ≥ 2 ^ 63
    · exact .inl (if_pos h1)
    · refine .inr (if_pos ?_)
      show 2 ^ 63 ≤ -d
      rw [ge_iff_le, UInt64.le_iff_toNat_le, hmid] at h1
      rw [UInt64.le_iff_toNat_le, hmid, UInt64.toNat_neg,
        show UInt64.size = 2 ^ 64 from rfl]
      omega

theorem rbInsert_ne_none {cmp : TimerId → TimerId → Bool} {t : TimerId} {l : List TimerId}
    (htotal : ∀ u ∈ l, cmp t u = true ∨ cmp u t = true) : rbInsert cmp t l ≠ none := by
  induction l with
  | nil => exact Option.some_ne_none _
  | cons u l ih =>
    rw [rbInsert]
    split_ifs with h1 h2
    · exact Option.some_ne_none _
    · intro hnone
      exact ih (fun v hv => htotal v (List.mem_cons_of_mem u hv)) (Option.map_eq_none_iff.mp hnone)
    · cases htotal u List.mem_cons_self with
      | inl h => exact absurd h h1
      | inr h => exact absurd h h2

/-! ## The functions -/

/-- Reading the clock changes nothing else. -/
theorem wp_getTimestampMs {Q : UInt64 → CpuTimers → Prop} {E : Fault → CpuTimers → Prop}
    {s : CpuTimers} (h : ∀ now n, Q now { s with reads := n }) : wp getTimestampMs Q E s := by
  unfold getTimestampMs
  simp only [wp_bind, wp_get, wp_set, wp_pure]
  exact h _ _

theorem wp_timerSetClock {P : CpuTimers → Prop} {E : Fault → CpuTimers → Prop} {s : CpuTimers}
    (h : ∀ n, P { s with reads := n }) : wp timerSetClock (fun _ => P) E s := by
  unfold timerSetClock
  rw [wp_bind, wp_get]
  split
  · exact wp_pure.mpr (h s.reads)
  · rw [wp_bind]
    exact wp_getTimestampMs fun _ n => wp_pure.mpr (h n)

section Rules

variable {u : TimerId} {s : CpuTimers} {E : Fault → CpuTimers → Prop}

theorem Off.modifyTimer (h : Off u s) (f : Timer → Timer) :
    Off u { s with timer := Function.update s.timer u (f (s.timer u)) } where
  out := h.out
  armed t ht hw := by
    show t ∈ s.tree ↔ (Function.update s.timer u (f (s.timer u)) t).triggered = false
    rw [Function.update_of_ne ht]
    exact h.armed t ht hw
  unset := h.unset
  nodup := h.nodup
  running := h.running
  idle hu hw := by
    show (Function.update s.timer u (f (s.timer u)) .sched).triggered = true
    rw [Function.update_of_ne hu.symm]
    exact h.idle hu hw

theorem wp_modifyTimer (h : Off u s) (f : Timer → Timer) :
    wp (Timers.modifyTimer u f) (fun _ => Off u) E s := by
  unfold Timers.modifyTimer
  rw [wp_modify]
  exact h.modifyTimer f

/-- The timer comes back into the tree. -/
theorem Off.insert {tree : List TimerId} (h : Off u s) (hflag : (s.timer u).triggered = false)
    {cmp : TimerId → TimerId → Bool} (htree : rbInsert cmp u s.tree = some tree) :
    Inv { s with tree := tree, wasSet := Function.update s.wasSet u true } where
  armed t hw := by
    show t ∈ tree ↔ (s.timer t).triggered = false
    rw [mem_rbInsert htree]
    by_cases ht : t = u
    · subst ht
      exact ⟨fun _ => hflag, fun _ => .inl rfl⟩
    · have hw : s.wasSet t = true := by
        rw [← hw]
        exact (Function.update_of_ne ht _ _).symm
      rw [← h.armed t ht hw]
      tauto
  unset t hw := by
    change Function.update s.wasSet u true t = false at hw
    show t ∉ tree
    have ht : t ≠ u := by
      rintro rfl
      rw [Function.update_self] at hw
      cases hw
    rw [Function.update_of_ne ht] at hw
    rw [mem_rbInsert htree]
    rintro (rfl | hmem)
    · exact ht rfl
    · exact h.unset t ht hw hmem
  nodup := nodup_rbInsert htree h.out h.nodup
  running := h.running
  idle hw := by
    change Function.update s.wasSet u true .sched = false at hw
    have hu : TimerId.sched ≠ u := by
      rintro rfl
      rw [Function.update_self] at hw
      cases hw
    rw [Function.update_of_ne hu] at hw
    exact h.idle hu.symm hw

theorem Inv.reads (h : Inv s) (n : ℕ) : Inv { s with reads := n } :=
  ⟨h.armed, h.unset, h.nodup, h.running, h.idle⟩

theorem Off.reads (h : Off u s) (n : ℕ) : Off u { s with reads := n } :=
  ⟨h.out, h.armed, h.unset, h.nodup, h.running, h.idle⟩

variable (lower : Bool)

/-- `set_cpu_timer` of a timer that is out of the tree. -/
theorem wp_setCpuTimer (h : Off u s) : wp (setCpuTimer lower u) (fun _ => Inv) Never s := by
  unfold setCpuTimer Timers.modifyTimer
  rw [wp_bind, wp_modify, wp_bind]
  refine wp_getTimestampMs fun now n => ?_
  rw [wp_bind, wp_modify, wp_bind, wp_get]
  have hoff := ((h.modifyTimer fun x => { x with triggered := false }).reads n).modifyTimer
    fun x => { x with key := now + x.elapse }
  rw [if_neg hoff.out]
  split
  · next hnone =>
    refine absurd hnone (rbInsert_ne_none fun v hv => timerCmp_total lower _ ?_)
    rintro rfl
    exact hoff.out hv
  · next tree htree =>
    rw [wp_bind, wp_set]
    refine wp_timerSetClock (hoff.insert ?_ htree).reads
    simp

/-- `cancel_cpu_timer` of a timer that is in the tree. -/
theorem wp_cancelCpuTimer (h : Inv s) (hu : u ∈ s.tree) :
    wp (cancelCpuTimer u) (fun _ => Off u) Never s := by
  have hflag : ¬ (s.timer u).triggered = true := by
    rw [(h.of_mem hu).2]
    exact Bool.false_ne_true
  have hoff : Off u { s with tree := s.tree.erase u } :=
    { out := h.nodup.not_mem_erase
      armed := fun t ht hw => (List.mem_erase_of_ne ht).trans (h.armed t hw)
      unset := fun t _ hw hmem => h.unset t hw (List.mem_of_mem_erase hmem)
      nodup := h.nodup.erase u
      running := h.running
      idle := fun _ => h.idle }
  unfold cancelCpuTimer
  rw [wp_bind, wp_get, if_neg hflag, if_neg (not_not_intro hu), wp_bind, wp_set]
  exact wp_timerSetClock hoff.reads

/-- `update_this_state` erases the scheduling timer only while it is armed. -/
theorem wp_updateThisState (h : Inv s) : wp (updateThisState lower) (fun _ => Inv) Never s := by
  unfold updateThisState
  rw [wp_bind, wp_get, wp_bind]
  cases hflag : (s.timer .sched).triggered with
  | true =>
    rw [Bool.not_true, if_neg Bool.false_ne_true, wp_pure]
    exact wp_setCpuTimer lower (h.off fun _ => hflag)
  | false =>
    have hset : s.wasSet .sched = true := by
      by_contra hw
      rw [h.idle (Bool.eq_false_of_not_eq_true hw)] at hflag
      cases hflag
    rw [Bool.not_false, if_pos rfl]
    exact (wp_cancelCpuTimer h ((h.armed .sched hset).mpr hflag)).imp fun _ _ ht =>
      wp_setCpuTimer lower ht

theorem wp_sched (h : Inv s) (killed zombie : Bool) :
    wp (sched lower killed zombie) (fun _ => Inv) Never s := by
  unfold Timers.sched
  split_ifs
  · exact wp_pure.mpr h
  · exact wp_updateThisState lower h

theorem wp_hello (h : Off .hello s) : wp (hello lower) (fun _ => Inv) Never s := by
  unfold hello
  rw [wp_bind]
  exact (wp_modifyTimer h _).imp fun _ _ ht => wp_setCpuTimer lower ht

/-- A round that does not take the scheduling timer. -/
theorem wp_clockRound (h : Inv s) {killed : Bool} (hok : Ok s (.round killed)) :
    wp (clockRound lower killed) (fun _ => Inv) Never s := by
  unfold clockRound getTimestampMs
  simp only [wp_bind, wp_get]
  split
  · exact wp_pure.mpr h
  · next t tree htree =>
    simp only [wp_bind, wp_get, wp_set, wp_pure]
    split_ifs with hlt
    · exact wp_pure.mpr (h.reads _)
    · have ht : t = .hello := by
        have := hok t (by rw [htree]; rfl) (UInt64.not_lt.mp hlt)
        cases t with
        | sched => exact absurd rfl this
        | hello => rfl
      subst ht
      have hmem : TimerId.hello ∈ s.tree := by
        rw [htree]
        exact List.mem_cons_self
      rw [wp_bind]
      refine (wp_cancelCpuTimer (h.reads (s.reads + 1)) hmem).imp fun _ t ht => ?_
      rw [wp_bind]
      exact (wp_modifyTimer ht _).imp fun _ _ ht => wp_hello lower ht

/-- A step under the condition. Only a direct call of `cancel_cpu_timer` fails, and it
    changes nothing. -/
theorem wp_run (h : Inv s) {a : Action} (hok : Ok s a) :
    wp (a.run lower) (fun _ => Inv) (fun e t => e = .triggered ∧ Inv t) s := by
  have of_never {x : M Unit} (hx : wp x (fun _ => Inv) Never s) :
      wp x (fun _ => Inv) (fun e t => e = .triggered ∧ Inv t) s :=
    wp_mono hx (fun _ _ ht => ht) fun _ _ he => he.elim
  cases a with
  | set t => exact of_never (wp_setCpuTimer lower (h.off hok))
  | cancel t =>
    show wp (cancelCpuTimer t) _ _ s
    unfold cancelCpuTimer
    rw [wp_bind, wp_get, if_pos (show (s.timer t).triggered = true from hok)]
    exact wp_throw.mpr ⟨rfl, h⟩
  | round killed => exact of_never (wp_clockRound lower h hok)
  | sched killed zombie => exact of_never (wp_sched lower h killed zombie)

/-! ## Outside the condition -/

/-- `u` was set, its flag is false, and it is not in the tree. -/
def Lost (u : TimerId) (s : CpuTimers) : Prop :=
  s.wasSet u = true ∧ u ∉ s.tree ∧ (s.timer u).triggered = false

/-- A fault that the property excludes. -/
def Harmful (e : Fault) (_ : CpuTimers) : Prop := e = .eraseAbsent ∨ e = .insertPresent

/-- Cancelling an armed timer leaves its flag false. -/
theorem wp_cancelCpuTimer_lost (h : Inv s) (hu : u ∈ s.tree) :
    wp (cancelCpuTimer u) (fun _ => Lost u) Harmful s := by
  have hflag := h.of_mem hu
  unfold cancelCpuTimer
  rw [wp_bind, wp_get, if_neg (by simp [hflag.2]), if_neg (not_not_intro hu), wp_bind, wp_set]
  exact wp_timerSetClock fun _ => ⟨hflag.1, h.nodup.not_mem_erase, hflag.2⟩

theorem wp_setCpuTimer_present (hu : u ∈ s.tree) {Q : Unit → CpuTimers → Prop} :
    wp (setCpuTimer lower u) Q Harmful s := by
  unfold setCpuTimer Timers.modifyTimer
  rw [wp_bind, wp_modify, wp_bind]
  refine wp_getTimestampMs fun now n => ?_
  rw [wp_bind, wp_modify, wp_bind, wp_get, if_pos (show u ∈ _ from hu)]
  exact wp_throw.mpr (.inr rfl)

/-- Whether or not the process is killed, the handler of the scheduling timer goes wrong. -/
theorem wp_schedTimerHandler (hset : s.wasSet .sched = true) (hout : TimerId.sched ∉ s.tree)
    (killed : Bool) : wp (schedTimerHandler lower killed) (fun _ => Lost .sched) Harmful s := by
  unfold schedTimerHandler Timers.modifyTimer Timers.sched
  rw [wp_bind, wp_modify]
  cases killed with
  | true => exact wp_pure.mpr ⟨hset, hout, by simp⟩
  | false =>
    show wp (updateThisState lower) _ _ _
    unfold updateThisState cancelCpuTimer
    simp only [Function.update_self, Bool.not_false, if_true, wp_bind, wp_get, Bool.false_eq_true,
      if_false]
    rw [if_pos hout]
    exact wp_throw.mpr (.inl rfl)

/-- A step outside the condition. -/
theorem wp_run_not_ok (h : Inv s) {a : Action} (hok : ¬ Ok s a) :
    wp (a.run lower) (fun _ t => ∃ u, Lost u t) Harmful s := by
  cases a with
  | set t =>
    obtain ⟨hset, hflag⟩ := Classical.not_imp.mp (show ¬ (_ → _) from hok)
    have hmem := (h.armed t hset).mpr (Bool.eq_false_of_not_eq_true hflag)
    exact wp_setCpuTimer_present lower hmem
  | cancel t =>
    by_cases hmem : t ∈ s.tree
    · exact (wp_cancelCpuTimer_lost h hmem).imp fun _ _ ht => ⟨t, ht⟩
    · show wp (cancelCpuTimer t) _ _ _
      unfold cancelCpuTimer
      rw [wp_bind, wp_get, if_neg (show ¬ (s.timer t).triggered = true from hok), if_pos hmem]
      exact wp_throw.mpr (.inl rfl)
  | round killed =>
    obtain ⟨t, hfirst, hdue, ht⟩ : ∃ t ∈ s.tree.head?, (s.timer t).key ≤ s.clock s.reads ∧
        t = .sched := by
      unfold Ok at hok
      push Not at hok
      exact hok
    subst ht
    have hmem : TimerId.sched ∈ s.tree := List.mem_of_mem_head? hfirst
    show wp (clockRound lower killed) _ _ _
    unfold clockRound getTimestampMs
    simp only [wp_bind, wp_get]
    split
    · next hnil =>
      rw [hnil] at hmem
      cases hmem
    · next t tree htree =>
      have ht : t = .sched := by
        rw [htree] at hfirst
        exact Option.some_inj.mp hfirst
      subst ht
      simp only [wp_bind, wp_get, wp_set, wp_pure]
      rw [if_neg (UInt64.not_lt.mpr hdue), wp_bind]
      refine (wp_cancelCpuTimer_lost (h.reads (s.reads + 1)) hmem).imp fun _ t ht => ?_
      unfold Timers.modifyTimer
      rw [wp_bind, wp_modify]
      refine (wp_schedTimerHandler lower ?_ ?_ killed).imp fun _ _ h => ⟨_, h⟩
      · exact ht.1
      · exact ht.2.1
  | sched killed zombie => exact absurd trivial hok

end Rules

/-! ## Runs -/

variable {lower : Bool} {s s' : CpuTimers} {clock : ℕ → UInt64} {data : UInt64}

theorem Inv.start (clock : ℕ → UInt64) (data : UInt64) : Inv (start clock data) where
  armed _ hw := by cases hw
  unset _ _ := List.not_mem_nil
  nodup := List.nodup_nil
  running := rfl
  idle _ := rfl

theorem Inv.onlyArmed (h : Inv s) : OnlyArmed s := by
  refine ⟨?_, ?_, h.armed⟩
  · rw [h.running]
    exact nofun
  · rw [h.running]
    exact nofun

theorem Lost.not_onlyArmed {u : TimerId} (h : Lost u s) : ¬ OnlyArmed s := fun hs =>
  h.2.1 ((hs.2.2 u h.1).mpr h.2.2)

/-- A step from a state with the invariant keeps the property exactly under the condition. -/
theorem onlyArmed_next_iff (h : Inv s) {a : Action} (hs : next lower s a = some s') :
    OnlyArmed s' ↔ Ok s a := by
  rw [next, if_pos h.running] at hs
  constructor
  · intro harmed
    by_contra hok
    have hrun := wp_run_not_ok lower h hok
    split at hs
    · next t hx =>
      cases hs
      obtain ⟨u, hu⟩ := hrun.of_ok hx
      exact hu.not_onlyArmed harmed
    · next e t hx =>
      cases hs
      cases hrun.of_error hx with
      | inl he => exact harmed.1 (congrArg some he)
      | inr he => exact harmed.2.1 (congrArg some he)
  · intro hok
    have hrun := wp_run lower h hok
    split at hs
    · next t hx =>
      cases hs
      exact (hrun.of_ok hx).onlyArmed
    · next e t hx =>
      cases hs
      obtain ⟨he, ht⟩ := hrun.of_error hx
      subst he
      exact ⟨by simp, by simp, ht.armed⟩

theorem Inv.next (h : Inv s) {a : Action} (hok : Ok s a) (hs : next lower s a = some s') :
    s'.fault = none → Inv s' := by
  intro hnone
  rw [Timers.next, if_pos h.running] at hs
  have hrun := wp_run lower h hok
  split at hs
  · next t hx =>
    cases hs
    exact hrun.of_ok hx
  · cases hs
    cases hnone

/-- There is no step after a fault. -/
theorem running_of_next {a : Action} (hs : next lower s a = some s') : s.fault = none := by
  unfold Timers.next at hs
  split_ifs at hs with h
  exact h

/-- The invariant holds along a run until it stops. -/
theorem Inv.run (hrun : Run (Timers.next lower) Ok (Timers.start clock data) s) :
    s.fault = none → Inv s := by
  refine hrun.invariant (I := fun s => s.fault = none → Inv s) (fun _ => Inv.start clock data)
    fun t a u ht hok hs => ?_
  exact (ht (running_of_next hs)).next hok hs

/-- Only armed timers are cancelled while every step meets the condition, and the first step
    that does not meet it breaks this. -/
theorem cancel_only_armed (lower : Bool) (clock : ℕ → UInt64) (data : UInt64) (s : CpuTimers)
    (hrun : Run (next lower) Ok (start clock data) s) :
    OnlyArmed s ∧ ∀ a s', next lower s a = some s' → (OnlyArmed s' ↔ Ok s a) := by
  refine ⟨?_, fun a s' hs => onlyArmed_next_iff (Inv.run hrun (running_of_next hs)) hs⟩
  cases hrun with
  | refl => exact (Inv.start clock data).onlyArmed
  | tail ht hok hs => exact (onlyArmed_next_iff (Inv.run ht (running_of_next hs)) hs).mpr hok

/-- `hello` is set, two processes give the processor away, and `hello` becomes due. -/
theorem cancel_only_armed_hello :
    ∃ s, Run (next true) Ok
        (start (fun n => if n < 2 then 0 else if n < 7 then 4990 else 5000) 0) s ∧
      OnlyArmed s ∧ s.tree = [.sched, .hello] ∧ (s.timer .hello).data = 1 := by
  have hexec : (execIf (next true) Ok
      (start (fun n => if n < 2 then 0 else if n < 7 then 4990 else 5000) 0)
      [.set .hello, .sched false false, .sched true true, .round false]).map
        (fun s => (s.tree, (s.timer .hello).data)) = some ([.sched, .hello], 1) := by
    decide +kernel
  obtain ⟨s, hrun, hs⟩ := Run.of_execIf_map hexec
  exact ⟨s, hrun, (cancel_only_armed true _ 0 s hrun).1, congrArg Prod.fst hs, congrArg Prod.snd hs⟩

/-- A process gives the processor away, and the next clock interrupt finds its time used up:
    the handler erases the timer again that the clock handler has just erased. -/
theorem sched_timer_erases_absent :
    ∃ s, Run (next true) anyStep (start (fun n => if n < 2 then 0 else 20) 0) s ∧
      s.fault = some .eraseAbsent := by
  have hexec : (exec (next true) (start (fun n => if n < 2 then 0 else 20) 0)
      [.sched false false, .round false]).map (fun s => s.fault) = some (some .eraseAbsent) := by
    decide +kernel
  obtain ⟨s, hs, hfault⟩ := Option.map_eq_some_iff.mp hexec
  exact ⟨s, Run.of_exec hs, hfault⟩

end ShikiOS.Kernel.Timers
