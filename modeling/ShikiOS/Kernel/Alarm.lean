import Mathlib.Data.UInt
import ShikiOS.Common.RbtreeSet
import ShikiOS.Lib.Trace
import ShikiOS.Lib.Wp

/-!
# Timers and the clock (`kernel/cpu.c`, `driver/clock.c`)

Any number of timers are set and cancelled on one processor, by handlers of timers too. They are kept
in a red-black tree, in the order of their keys. Against it stands `Alarms`, a table of deadlines.

A step is a call, or one round of the loop of `timer_clock_handler` up to the call of the handler: what
this does are further steps.

Left out: the fields that only the clients of a timer use.

Results:
* `timerCmp_iff`: the comparison of keys below `2^63` is that of keys and addresses.
* `Inv.set`, `Inv.cancel`, `Inv.round`: what the calls do to the deadlines.
* `alarm_service`: in every run a timer is handled once for each time it is set, never before its
  deadline, the earliest one first, and the loop leaves none that is due. No call panics.
* `clock_in_time`: in every run the clock is set to go off within ten milliseconds or by the first
  deadline.
-/

namespace ShikiOS.Kernel.Alarm

open ShikiOS.Lib
open ShikiOS.Common.Rb (Represents Meets Less record)

/-! ## Model -/

/-- The fields of `struct timer` (cpu.h:23-30) that the calls use. -/
structure Timer where
  triggered : Bool
  elapse : Int32
  key : UInt64

inductive Fault
  /-- An assertion fails. -/
  | panic
  /-- The tree is no tree. -/
  | tree
deriving DecidableEq, Repr

/-- The timers and the tree of a processor. The `n`-th call of `get_timestamp_ms` returns `clock n`,
    and `reads` calls have been made. `interval` is the last argument of `reset_clock`, and `since` the
    number of readings before it. -/
structure Cpu where
  timer : ℕ → Timer
  tree : Common.Rb.State ℕ
  clock : ℕ → UInt64
  reads : ℕ
  interval : UInt64
  since : ℕ

abbrev M := EStateM Fault Cpu

/-- `__timer_cmp` (cpu.c:11-20): the difference of the keys is an `i64`. -/
def timerCmp (timer : ℕ → Timer) (l r : ℕ) : Bool :=
  let d := (timer l).key - (timer r).key
  if d ≥ 2 ^ 63 then true
  else if d = 0 then l < r
  else false

/-- `get_timestamp_ms`. -/
def getTimestampMs : M UInt64 := do
  let s ← get
  set { s with reads := s.reads + 1 }
  return s.clock s.reads

/-- An assignment to `*timer`. -/
def assign (t : ℕ) (f : Timer → Timer) : M Unit :=
  modify fun s => { s with timer := Function.update s.timer t (f (s.timer t)) }

/-- A call of a function of the tree, with one round for each node. -/
def callTree (c : Common.Rb.Call ℕ) : M (Common.Rb.Ret ℕ) := do
  let s ← get
  match c.exec (timerCmp s.timer) (s.tree.members.card + 1) s.tree.heap with
  | .error _ => throw .tree
  | .ok (r, h) =>
    set { s with tree := ⟨h, record s.tree.members c r⟩ }
    return r

def rbFirst : M (Option ℕ) := do
  match ← callTree .first with
  | .node p => return p
  | _ => throw .tree

variable (freq : UInt64)

/-- `reset_clock` (clock.c:19-24), where `get_clock_frequency` returns `freq`. -/
def resetClock (interval : UInt64) : M Unit := do
  if 0x7fffffff < interval * freq / 1000 then throw .panic
  modify fun s => { s with interval := interval, since := s.reads }

/-- `__timer_set_clock` (cpu.c:22-35). -/
def timerSetClock : M Unit := do
  match ← rbFirst with
  | none => resetClock freq 10
  | some t =>
    let t1 := ((← get).timer t).key
    let t0 ← getTimestampMs
    if t1 ≤ t0 then resetClock freq 0 else resetClock freq (t1 - t0)

/-- An `int` that is added to a `u64`. -/
def Timer.elapsed (t : Timer) : UInt64 := t.elapse.toInt64.toUInt64

/-- `set_cpu_timer` (cpu.c:67-73). -/
def setCpuTimer (t : ℕ) : M Unit := do
  assign t fun x => { x with triggered := false }
  let now ← getTimestampMs
  assign t fun x => { x with key := now + x.elapsed }
  if (← callTree (.insert t)) ≠ .int 0 then throw .panic
  timerSetClock freq

/-- `cancel_cpu_timer` (cpu.c:75-80). -/
def cancelCpuTimer (t : ℕ) : M Unit := do
  if ((← get).timer t).triggered then throw .panic
  let _ ← callTree (.erase t)
  timerSetClock freq

/-- A round of the loop of `timer_clock_handler` (cpu.c:40-50): the timer whose handler is called, or
    none if the loop ends. -/
def clockRound : M (Option ℕ) := do
  match ← rbFirst with
  | none => return none
  | some t =>
    let now ← getTimestampMs
    if now < ((← get).timer t).key then return none
    cancelCpuTimer freq t
    assign t fun x => { x with triggered := true }
    return some t

inductive Action
  /-- `timer->elapse = e`. -/
  | elapse (t : ℕ) (e : Int32)
  | set (t : ℕ)
  | cancel (t : ℕ)
  /-- The call of `reset_clock` with which `timer_clock_handler` begins (cpu.c:39). -/
  | enter
  | round
deriving DecidableEq, Repr

/-- A call, and the timer whose handler is to be called. -/
def Action.run : Action → M (Option ℕ)
  | .elapse t e => do
    assign t fun x => { x with elapse := e }
    return none
  | .set t => do
    setCpuTimer freq t
    return none
  | .cancel t => do
    cancelCpuTimer freq t
    return none
  | .enter => do
    resetClock freq 10
    return none
  | .round => clockRound freq

/-- `reset_clock` can be called with this many milliseconds. -/
def Fits (e : ℕ) : Prop := e * freq.toNat < 2 ^ 31 * 1000

instance (e : ℕ) : Decidable (Fits freq e) := inferInstanceAs (Decidable (_ < _))

/-- A timer is set when it is not set, and cancelled when it is. It has no more milliseconds than fit
    into the register of the clock. -/
def Cpu.Ok (s : Cpu) : Action → Prop
  | .elapse _ e => 0 ≤ e ∧ Fits freq e.toInt.toNat
  | .set t => t ∉ s.tree.members
  | .cancel t => t ∈ s.tree.members
  | .enter => True
  | .round => True

instance (s : Cpu) : ∀ c, Decidable (s.Ok freq c)
  | .elapse _ _ => inferInstanceAs (Decidable (_ ∧ _))
  | .set t => inferInstanceAs (Decidable (t ∉ s.tree.members))
  | .cancel t => inferInstanceAs (Decidable (t ∈ s.tree.members))
  | .enter => .isTrue trivial
  | .round => .isTrue trivial

/-- A call that is made, with what it returns. -/
def Cpu.Next (s : Cpu) (e : Action × Option ℕ) (u : Cpu) : Prop :=
  s.Ok freq e.1 ∧ e.1.run freq s = .ok e.2 u

/-- The state after a call that can be made and returns `e.2`. -/
def Cpu.next (s : Cpu) (e : Action × Option ℕ) : Option Cpu :=
  match e.1.run freq s with
  | .ok r u => if s.Ok freq e.1 ∧ r = e.2 then some u else none
  | .error _ _ => none

/-- Nothing is set, and memory is zero. -/
def start (clock : ℕ → UInt64) : Cpu where
  timer := fun _ => ⟨false, 0, 0⟩
  tree := ⟨⟨fun _ => none, fun _ => .red, fun _ _ => none, none⟩, ∅⟩
  clock := clock
  reads := 0
  interval := 10
  since := 0

/-! ## Deadlines -/

/-- How long the timers run, the deadlines of those that are set, and the time. -/
@[ext] structure Alarms where
  elapse : ℕ → ℕ
  deadline : ℕ → Option ℕ
  time : ℕ

/-- From `A` to `B` time passes, and the deadlines become `dl`. -/
structure Alarms.To (A : Alarms) (dl : ℕ → Option ℕ) (B : Alarms) : Prop where
  elapse : B.elapse = A.elapse
  deadline : B.deadline = dl
  time : A.time ≤ B.time

/-- A timer that is handled is one with the earliest deadline, which has passed. A round that handles
    none finds that no deadline has passed. -/
def Alarms.Step (A : Alarms) : Action × Option ℕ → Alarms → Prop
  | (.elapse t e, _), B => B = { A with elapse := Function.update A.elapse t e.toInt.toNat }
  | (.set t, _), B => A.deadline t = none ∧ ∃ now, A.time ≤ now ∧ now ≤ B.time ∧
      A.To (Function.update A.deadline t (some (now + A.elapse t))) B
  | (.cancel t, _), B => A.deadline t ≠ none ∧ A.To (Function.update A.deadline t none) B
  | (.enter, _), B => B = A
  | (.round, some t), B => ∃ d, A.deadline t = some d ∧ d ≤ B.time ∧
      (∀ u e, A.deadline u = some e → d ≤ e) ∧ A.To (Function.update A.deadline t none) B
  | (.round, none), B => (∀ u e, A.deadline u = some e → B.time < e) ∧ A.To A.deadline B

/-- The last reading of the clock, or the first one if there was none. -/
def Cpu.time (s : Cpu) : ℕ := (s.clock (s.reads - 1)).toNat

def Cpu.alarms (s : Cpu) : Alarms where
  elapse t := (s.timer t).elapse.toInt.toNat
  deadline t := if t ∈ s.tree.members then some (s.timer t).key.toNat else none
  time := s.time

variable {freq} {s u : Cpu} {t x y : ℕ} {timer timer' : ℕ → Timer} {E : Fault → Cpu → Prop}

@[simp] theorem assign_spec {f : Timer → Timer} {Q : Unit → Cpu → Prop} : wp (assign t f) Q E s ↔
    Q () { s with timer := Function.update s.timer t (f (s.timer t)) } := wp_modify

/-! ## The order of the timers -/

/-- Keys that have no sign. -/
def SmallKeys (timer : ℕ → Timer) : Prop := ∀ t, (timer t).key.toNat < 2 ^ 63

/-- The comparison is that of the keys, and of the addresses where these are equal. -/
theorem timerCmp_iff (h : SmallKeys timer) : timerCmp timer x y = true ↔
    (timer x).key.toNat < (timer y).key.toNat ∨ (timer x).key.toNat = (timer y).key.toNat ∧ x < y := by
  have hx := h x
  have hy := h y
  have hsub : ((timer x).key - (timer y).key).toNat =
      (2 ^ 64 - (timer y).key.toNat + (timer x).key.toNat) % 2 ^ 64 := UInt64.toNat_sub _ _
  have hmid : ((2 : UInt64) ^ 63).toNat = 2 ^ 63 := by decide +kernel
  have hge : (timer x).key - (timer y).key ≥ 2 ^ 63 ↔ (timer x).key.toNat < (timer y).key.toNat := by
    rw [ge_iff_le, UInt64.le_iff_toNat_le, hmid, hsub]
    omega
  have hzero : (timer x).key - (timer y).key = 0 ↔ (timer x).key.toNat = (timer y).key.toNat := by
    rw [← UInt64.toNat_inj, hsub, UInt64.toNat_zero]
    omega
  simp only [timerCmp, hge, hzero]
  split_ifs with h1 h2
  · simp [h1]
  · simp [h2]
  · simp only [false_iff]
    omega

theorem isStrictWeakOrder (h : SmallKeys timer) : IsStrictWeakOrder ℕ (Less (timerCmp timer)) where
  irrefl a := by
    rw [Less, timerCmp_iff h]
    omega
  trans a b c := by
    simp only [Less, timerCmp_iff h]
    omega
  incomp_trans a b c := by
    simp only [Less, timerCmp_iff h]
    omega

theorem timerCmp_congr (hx : (timer' x).key = (timer x).key) (hy : (timer' y).key = (timer y).key) :
    timerCmp timer' x y = timerCmp timer x y := by
  unfold timerCmp
  rw [hx, hy]

/-- Timers that are not in the tree may have other keys. -/
theorem represents_congr {tree : Common.Rb.State ℕ} (h : Represents (timerCmp timer) tree)
    (hkey : ∀ t ∈ tree.members, (timer' t).key = (timer t).key) : Represents (timerCmp timer') tree := by
  obtain ⟨T, hT, hmem⟩ := h
  refine ⟨T, ⟨hT.rep, hT.sorted.imp_of_mem ?_, hT.black, hT.bal⟩, hmem⟩
  intro a b ha hb hab
  rw [Less, timerCmp_congr (hkey a ((hmem a).mp ha)) (hkey b ((hmem b).mp hb))]
  exact hab

/-! ## Calls of the tree -/

/-- What is inserted is not in the tree, and what is erased is. -/
def Allowed (s : Cpu) : Common.Rb.Call ℕ → Prop
  | .insert t => t ∉ s.tree.members
  | .erase t => t ∈ s.tree.members
  | _ => True

theorem callTree_spec (hrep : Represents (timerCmp s.timer) s.tree) (hk : SmallKeys s.timer)
    {c : Common.Rb.Call ℕ} (hc : Allowed s c) {Q : Common.Rb.Ret ℕ → Cpu → Prop}
    (hQ : ∀ r h, Meets (timerCmp s.timer) s.tree r h c →
      Represents (timerCmp s.timer) ⟨h, record s.tree.members c r⟩ →
      Q r { s with tree := ⟨h, record s.tree.members c r⟩ }) : wp (callTree c) Q E s := by
  have hord := isStrictWeakOrder hk
  have hallowed : Common.Rb.Allowed s.tree (c, s.tree.members.card + 1) := by
    refine ⟨Nat.lt_succ_self _, ?_⟩
    cases c <;> exact hc
  obtain ⟨r, h, hout, hmeets, hrep'⟩ := Common.Rb.Call.exec_spec hrep hallowed
  dsimp only at hout hmeets hrep'
  rw [callTree, wp_bind, wp_get, hout]
  simp only [wp_bind, wp_set, wp_pure]
  exact hQ r h hmeets hrep'

/-- The first timer has the earliest deadline. -/
theorem rbFirst_spec (hrep : Represents (timerCmp s.timer) s.tree) (hk : SmallKeys s.timer)
    {Q : Option ℕ → Cpu → Prop} (hnone : s.tree.members = ∅ → Q none s)
    (hsome : ∀ t ∈ s.tree.members,
      (∀ x ∈ s.tree.members, (s.timer t).key.toNat ≤ (s.timer x).key.toNat) → Q (some t) s) :
    wp rbFirst Q E s := by
  rw [rbFirst, wp_bind]
  refine callTree_spec (c := .first) hrep hk trivial ?_
  rintro r h ⟨rfl, hr⟩ -
  obtain ⟨t, ht, rfl, hleast⟩ | ⟨rfl, hempty⟩ := hr
  · refine wp_pure.mpr (hsome t ht fun x hx => ?_)
    by_cases hxt : x = t
    · rw [hxt]
    · have := (timerCmp_iff hk).mp (hleast x hx hxt)
      omega
  · exact wp_pure.mpr (hnone hempty)

/-! ## The invariant -/

/-- The clock does not go back, and does not reach the sign bit. -/
structure Clock (clock : ℕ → UInt64) : Prop where
  mono : ∀ n, (clock n).toNat ≤ (clock (n + 1)).toNat
  small : ∀ n, (clock n).toNat < 2 ^ 62

theorem Clock.le {clock : ℕ → UInt64} (h : Clock clock) {m n : ℕ} (hmn : m ≤ n) :
    (clock m).toNat ≤ (clock n).toNat :=
  monotone_nat_of_le_succ h.mono hmn

/-- What holds while the clock is not set. -/
structure Core (freq : UInt64) (s : Cpu) : Prop where
  clock : Clock s.clock
  rep : Represents (timerCmp s.timer) s.tree
  keys : SmallKeys s.timer
  flag : ∀ t ∈ s.tree.members, (s.timer t).triggered = false
  elapse : ∀ t, 0 ≤ (s.timer t).elapse ∧ Fits freq (s.timer t).elapse.toInt.toNat
  soon : ∀ t ∈ s.tree.members, Fits freq ((s.timer t).key.toNat - s.time)
  ten : Fits freq 10

/-- The clock is set to go off within ten milliseconds, or by the first deadline. -/
structure Cpu.Wakes (s : Cpu) : Prop where
  idle : s.tree.members = ∅ → s.interval.toNat ≤ 10
  due : ∀ t ∈ s.tree.members,
    s.interval.toNat ≤ max 10 ((s.timer t).key.toNat - (s.clock (s.since - 1)).toNat)

/-- What holds between the calls. -/
structure Inv (freq : UInt64) (s : Cpu) : Prop extends Core freq s where
  wakes : s.Wakes

/-- From `s` to `u` the clock is read, or set. -/
structure Cpu.Later (s u : Cpu) : Prop where
  timer : u.timer = s.timer
  tree : u.tree = s.tree
  clock : u.clock = s.clock
  reads : s.reads ≤ u.reads

theorem Cpu.Later.time (h : s.Later u) (hc : Clock s.clock) : s.time ≤ u.time := by
  rw [Cpu.time, Cpu.time, h.clock]
  exact hc.le (Nat.sub_le_sub_right h.reads 1)

theorem Cpu.Later.deadline (h : s.Later u) : u.alarms.deadline = s.alarms.deadline := by
  simp only [Cpu.alarms, h.timer, h.tree]

theorem Cpu.Later.elapse (h : s.Later u) : u.alarms.elapse = s.alarms.elapse := by
  simp only [Cpu.alarms, h.timer]

theorem Fits.mono {d e : ℕ} (h : Fits freq e) (hde : d ≤ e) : Fits freq d :=
  (Nat.mul_le_mul_right _ hde).trans_lt h

theorem Core.later (h : Core freq s) (hl : s.Later u) : Core freq u where
  clock := hl.clock ▸ h.clock
  rep := by
    rw [hl.timer, hl.tree]
    exact h.rep
  keys := hl.timer ▸ h.keys
  flag := by
    rw [hl.timer, hl.tree]
    exact h.flag
  elapse := hl.timer ▸ h.elapse
  soon := by
    rw [hl.timer, hl.tree]
    exact fun t ht => (h.soon t ht).mono (Nat.sub_le_sub_left (hl.time h.clock) _)
  ten := h.ten

/-! ## The clock -/

/-- The state after a reading of the clock. -/
def Cpu.tick (s : Cpu) : Cpu := { s with reads := s.reads + 1 }

theorem getTimestampMs_spec {Q : UInt64 → Cpu → Prop} :
    wp getTimestampMs Q E s ↔ Q (s.clock s.reads) s.tick := by
  simp only [getTimestampMs, wp_bind, wp_get, wp_set, wp_pure]
  exact Iff.rfl

theorem later_tick : s.Later s.tick := ⟨rfl, rfl, rfl, Nat.le_succ _⟩

/-- The product does not overflow, and the assertion holds. -/
theorem resetClock_spec {i : UInt64} {Q : Unit → Cpu → Prop} (hi : Fits freq i.toNat)
    (hQ : Q () { s with interval := i, since := s.reads }) : wp (resetClock freq i) Q E s := by
  have hfits : i.toNat * freq.toNat < 2 ^ 31 * 1000 := hi
  have hprod : (i * freq).toNat = i.toNat * freq.toNat := by
    rw [UInt64.toNat_mul]
    exact Nat.mod_eq_of_lt (hfits.trans (by decide))
  have hclk : ¬ 0x7fffffff < i * freq / 1000 := by
    rw [UInt64.lt_iff_toNat_lt, UInt64.toNat_div, hprod]
    show ¬ 0x7fffffff < i.toNat * freq.toNat / 1000
    omega
  rw [resetClock, if_neg hclk]
  exact wp_modify.mpr hQ

theorem later_reset {i : UInt64} : s.Later { s with interval := i, since := s.reads } :=
  ⟨rfl, rfl, rfl, le_rfl⟩

/-- Ten milliseconds are in time, whatever the deadlines are. -/
theorem Core.reset (h : Core freq s) : Inv freq { s with interval := 10, since := s.reads } where
  toCore := h.later later_reset
  wakes := ⟨fun _ => le_rfl, fun _ _ => le_max_left _ _⟩

/-- The clock is set for the first deadline. -/
theorem timerSetClock_spec (h : Core freq s) {Q : Unit → Cpu → Prop}
    (hQ : ∀ u, Inv freq u → s.Later u → Q () u) : wp (timerSetClock freq) Q E s := by
  rw [timerSetClock, wp_bind]
  apply rbFirst_spec h.rep h.keys
  · intro hempty
    apply resetClock_spec h.ten
    exact hQ _ h.reset later_reset
  · intro t ht hleast
    simp only [wp_bind, wp_get, getTimestampMs_spec]
    have hcore := h.later later_tick
    have hset : ∀ i : UInt64, Fits freq i.toNat →
        i.toNat ≤ (s.timer t).key.toNat - (s.clock s.reads).toNat →
        wp (resetClock freq i) Q E s.tick := by
      intro i hi hle
      apply resetClock_spec hi
      have hwakes : Cpu.Wakes { s.tick with interval := i, since := s.tick.reads } := by
        constructor
        · intro hempty
          exact absurd ht (Finset.eq_empty_iff_forall_notMem.mp hempty t)
        · intro x hx
          exact le_max_of_le_right (hle.trans (Nat.sub_le_sub_right (hleast x hx) _))
      exact hQ _ { hcore.later later_reset with wakes := hwakes } ⟨rfl, rfl, rfl, Nat.le_succ _⟩
    split_ifs with hle
    · apply hset
      · exact h.ten.mono (Nat.zero_le _)
      · exact Nat.zero_le _
    · have hlt : s.clock s.reads ≤ (s.timer t).key := by
        rw [UInt64.le_iff_toNat_le] at hle ⊢
        omega
      have hsub := UInt64.toNat_sub_of_le _ _ hlt
      apply hset
      · rw [hsub]
        exact hcore.soon t ht
      · exact hsub.le

/-! ## Timers -/

theorem elapsed_toNat {x : Timer} (h : 0 ≤ x.elapse) : x.elapsed.toNat = x.elapse.toInt.toNat := by
  have hint : 0 ≤ x.elapse.toInt := Int32.le_iff_toInt_le.mp h
  have hval : x.elapse.toInt64.toBitVec.toInt = x.elapse.toInt := Int32.toInt_toInt64 x.elapse
  have hlt := x.elapse.toInt64.toBitVec.isLt
  rw [BitVec.toInt_eq_toNat_cond] at hval
  show x.elapse.toInt64.toBitVec.toNat = _
  split_ifs at hval
  · omega
  · omega

/-- Two timers are never equivalent. -/
theorem eq_of_incompRel (hk : SmallKeys timer) (h : IncompRel (Less (timerCmp timer)) x y) : x = y := by
  obtain ⟨h1, h2⟩ := h
  rw [Less, timerCmp_iff hk] at h1 h2
  omega

/-- Only the key and the flag of a timer that is set have to stay. -/
theorem Core.assign (h : Core freq s) {a : Timer} (hkey : a.key.toNat < 2 ^ 63)
    (helapse : 0 ≤ a.elapse ∧ Fits freq a.elapse.toInt.toNat)
    (hmem : t ∈ s.tree.members → a.key = (s.timer t).key ∧ a.triggered = (s.timer t).triggered) :
    Core freq { s with timer := Function.update s.timer t a } := by
  have hsame : ∀ x ∈ s.tree.members, (Function.update s.timer t a x).key = (s.timer x).key ∧
      (Function.update s.timer t a x).triggered = (s.timer x).triggered := by
    intro x hx
    by_cases hxt : x = t
    · subst hxt
      rw [Function.update_self]
      exact hmem hx
    · rw [Function.update_of_ne hxt]
      exact ⟨rfl, rfl⟩
  constructor
  · exact h.clock
  · exact represents_congr h.rep fun x hx => (hsame x hx).1
  · exact (Function.forall_update_iff s.timer fun _ x => x.key.toNat < 2 ^ 63).mpr
      ⟨hkey, fun x _ => h.keys x⟩
  · exact fun x hx => (hsame x hx).2.trans (h.flag x hx)
  · exact (Function.forall_update_iff s.timer fun _ x =>
      0 ≤ x.elapse ∧ Fits freq x.elapse.toInt.toNat).mpr ⟨helapse, fun x _ => h.elapse x⟩
  · intro x hx
    show Fits freq ((Function.update s.timer t a x).key.toNat - _)
    rw [(hsame x hx).1]
    exact h.soon x hx
  · exact h.ten

theorem Inv.assign (h : Inv freq s) {a : Timer} (hkey : a.key = (s.timer t).key)
    (helapse : 0 ≤ a.elapse ∧ Fits freq a.elapse.toInt.toNat)
    (hflag : t ∈ s.tree.members → a.triggered = (s.timer t).triggered) :
    Inv freq { s with timer := Function.update s.timer t a } where
  toCore := h.toCore.assign (hkey ▸ h.keys t) helapse fun ht => ⟨hkey, hflag ht⟩
  wakes := by
    refine ⟨h.wakes.idle, ?_⟩
    intro x hx
    show _ ≤ max 10 ((Function.update s.timer t a x).key.toNat - _)
    by_cases hxt : x = t
    · subst hxt
      rw [Function.update_self, hkey]
      exact h.wakes.due x hx
    · rw [Function.update_of_ne hxt]
      exact h.wakes.due x hx

/-- The set of the timers changes, and the tree with it. -/
theorem Core.retree (h : Core freq s) {tree : Common.Rb.State ℕ}
    (hrep : Represents (timerCmp s.timer) tree)
    (hmem : ∀ x ∈ tree.members, x ∈ s.tree.members ∨
      (s.timer x).triggered = false ∧ Fits freq ((s.timer x).key.toNat - s.time)) :
    Core freq { s with tree := tree } where
  clock := h.clock
  rep := hrep
  keys := h.keys
  flag x hx := (hmem x hx).elim (h.flag x) And.left
  elapse := h.elapse
  soon x hx := (hmem x hx).elim (h.soon x) And.right
  ten := h.ten

theorem cancelCpuTimer_spec (h : Core freq s) (ht : t ∈ s.tree.members) {Q : Unit → Cpu → Prop}
    (hQ : ∀ heap u, Inv freq u →
      Cpu.Later { s with tree := ⟨heap, s.tree.members.erase t⟩ } u → Q () u) :
    wp (cancelCpuTimer freq t) Q E s := by
  have hflag : ¬ (s.timer t).triggered = true := by
    rw [h.flag t ht]
    exact Bool.false_ne_true
  rw [cancelCpuTimer, wp_bind, wp_get, if_neg hflag, wp_bind]
  apply callTree_spec (c := .erase t) h.rep h.keys ht
  intro r heap _ hrep
  have hcore := h.retree hrep fun x hx => .inl (Finset.mem_of_mem_erase hx)
  exact timerSetClock_spec hcore (hQ heap)

/-- A timer that is set when the clock reads `now`. -/
def Timer.armed (x : Timer) (now : UInt64) : Timer := ⟨false, x.elapse, now + x.elapsed⟩

theorem Core.deadline_lt (h : Core freq s) :
    (s.clock s.reads).toNat + (s.timer t).elapse.toInt.toNat < 2 ^ 63 := by
  have hlt := (s.timer t).elapse.toInt_lt
  have hsmall := h.clock.small s.reads
  omega

theorem Core.armed_key (h : Core freq s) : ((s.timer t).armed (s.clock s.reads)).key.toNat =
    (s.clock s.reads).toNat + (s.timer t).elapse.toInt.toNat := by
  rw [Timer.armed, UInt64.toNat_add, elapsed_toNat (h.elapse t).1]
  exact Nat.mod_eq_of_lt (h.deadline_lt.trans (by decide))

theorem setCpuTimer_spec (h : Core freq s) (ht : t ∉ s.tree.members) {Q : Unit → Cpu → Prop}
    (hQ : ∀ heap u, Inv freq u →
      Cpu.Later { s.tick with
        timer := Function.update s.timer t ((s.timer t).armed (s.clock s.reads))
        tree := ⟨heap, insert t s.tree.members⟩ } u → Q () u) :
    wp (setCpuTimer freq t) Q E s := by
  have hkey := h.armed_key (t := t)
  rw [setCpuTimer, wp_bind, assign_spec, wp_bind, getTimestampMs_spec, wp_bind, assign_spec]
  simp only [Cpu.tick, Function.update_self, Function.update_idem]
  have hcore : Core freq { s.tick with
      timer := Function.update s.timer t ((s.timer t).armed (s.clock s.reads)) } := by
    apply (h.later later_tick).assign
    · rw [hkey]
      exact h.deadline_lt
    · exact h.elapse t
    · intro hmem
      exact absurd hmem ht
  rw [wp_bind]
  apply callTree_spec (c := .insert t) hcore.rep hcore.keys ht
  rintro r heap (⟨rfl, ⟨b, hb, hinc⟩, -⟩ | ⟨rfl, -⟩) hrep
  · exact absurd (eq_of_incompRel hcore.keys hinc ▸ hb) ht
  · have hnew : Core freq { s.tick with
        timer := Function.update s.timer t ((s.timer t).armed (s.clock s.reads))
        tree := ⟨heap, insert t s.tree.members⟩ } := by
      refine hcore.retree hrep ?_
      intro x hx
      obtain rfl | hx := Finset.mem_insert.mp hx
      · right
        show (Function.update s.timer x _ x).triggered = false ∧
          Fits freq ((Function.update s.timer x _ x).key.toNat - (s.clock s.reads).toNat)
        rw [Function.update_self, hkey, Nat.add_sub_cancel_left]
        exact ⟨rfl, (h.elapse x).2⟩
      · exact .inl hx
    exact timerSetClock_spec hnew (hQ heap)

/-! ## Deadlines of a processor -/

theorem alarms_deadline (hx : x ∈ s.tree.members) :
    s.alarms.deadline x = some (s.timer x).key.toNat := if_pos hx

theorem alarms_deadline_eq_none (hx : x ∉ s.tree.members) : s.alarms.deadline x = none := if_neg hx

theorem mem_of_alarms_deadline {d : ℕ} (h : s.alarms.deadline x = some d) :
    x ∈ s.tree.members ∧ (s.timer x).key.toNat = d := by
  by_cases hx : x ∈ s.tree.members
  · rw [alarms_deadline hx] at h
    exact ⟨hx, Option.some_inj.mp h⟩
  · rw [alarms_deadline_eq_none hx] at h
    exact absurd h.symm (Option.some_ne_none d)

theorem deadline_erase {heap : Common.Rb.Heap ℕ} :
    (Cpu.alarms { s with tree := ⟨heap, s.tree.members.erase t⟩ }).deadline =
      Function.update s.alarms.deadline t none := by
  funext x
  by_cases hxt : x = t
  · subst hxt
    rw [Function.update_self]
    exact if_neg (Finset.notMem_erase x _)
  · rw [Function.update_of_ne hxt]
    simp only [Cpu.alarms, Finset.mem_erase, ne_eq, hxt, not_false_eq_true, true_and]

theorem deadline_insert {heap : Common.Rb.Heap ℕ} {a : Timer} :
    (Cpu.alarms { s with
      timer := Function.update s.timer t a, tree := ⟨heap, insert t s.tree.members⟩ }).deadline =
      Function.update s.alarms.deadline t (some a.key.toNat) := by
  funext x
  by_cases hxt : x = t
  · subst hxt
    simp [Cpu.alarms]
  · rw [Function.update_of_ne hxt]
    simp only [Cpu.alarms, Finset.mem_insert, hxt, false_or, Function.update_of_ne hxt]

theorem elapse_assign {a : Timer} : (Cpu.alarms { s with timer := Function.update s.timer t a }).elapse =
    Function.update s.alarms.elapse t a.elapse.toInt.toNat :=
  Function.comp_update (fun x : Timer => x.elapse.toInt.toNat) s.timer t a

theorem deadline_assign {a : Timer} (hkey : a.key = (s.timer t).key) :
    (Cpu.alarms { s with timer := Function.update s.timer t a }).deadline = s.alarms.deadline := by
  funext x
  by_cases hxt : x = t
  · subst hxt
    simp only [Cpu.alarms, Function.update_self, hkey]
  · simp only [Cpu.alarms, Function.update_of_ne hxt]

/-! ## The calls -/

theorem Inv.tick (h : Inv freq s) : Inv freq s.tick where
  toCore := h.later later_tick
  wakes := ⟨h.wakes.idle, h.wakes.due⟩

/-- The call returns, keeps the invariant, and is a step of the deadlines. -/
def Does (freq : UInt64) (s : Cpu) (c : Action) : Prop :=
  wp (c.run freq) (fun r u => Inv freq u ∧ s.alarms.Step (c, r) u.alarms) (fun _ _ => False) s

theorem Inv.set (h : Inv freq s) (ht : t ∉ s.tree.members) : Does freq s (.set t) := by
  rw [Does, Action.run, wp_bind]
  apply setCpuTimer_spec h.toCore ht
  intro heap u hu hl
  refine wp_pure.mpr ⟨hu, alarms_deadline_eq_none ht, (s.clock s.reads).toNat,
    later_tick.time h.clock, hl.time h.clock, ?_⟩
  constructor
  · rw [hl.elapse]
    exact elapse_assign.trans (Function.update_eq_self t _)
  · rw [hl.deadline]
    exact deadline_insert.trans (congrArg _ (congrArg some h.armed_key))
  · exact (later_tick.time h.clock).trans (hl.time h.clock)

theorem Inv.cancel (h : Inv freq s) (ht : t ∈ s.tree.members) : Does freq s (.cancel t) := by
  rw [Does, Action.run, wp_bind]
  apply cancelCpuTimer_spec h.toCore ht
  intro heap u hu hl
  refine wp_pure.mpr ⟨hu, ?_, hl.elapse, hl.deadline.trans deadline_erase, hl.time h.clock⟩
  rw [alarms_deadline ht]
  exact Option.some_ne_none _

theorem Inv.elapses (h : Inv freq s) {e : Int32} (he : 0 ≤ e ∧ Fits freq e.toInt.toNat) :
    Does freq s (.elapse t e) := by
  rw [Does, Action.run, wp_bind, assign_spec]
  exact wp_pure.mpr ⟨h.assign rfl he fun _ => rfl, Alarms.ext elapse_assign (deadline_assign rfl) rfl⟩

theorem Inv.enter (h : Inv freq s) : Does freq s .enter := by
  rw [Does, Action.run, wp_bind]
  apply resetClock_spec h.ten
  exact wp_pure.mpr ⟨h.reset, rfl⟩

theorem Inv.round (h : Inv freq s) : Does freq s .round := by
  rw [Does, Action.run, clockRound, wp_bind]
  apply rbFirst_spec h.rep h.keys
  · intro hempty
    refine wp_pure.mpr ⟨h, ?_, rfl, rfl, le_rfl⟩
    intro x d hx
    exact absurd (mem_of_alarms_deadline hx).1 (Finset.eq_empty_iff_forall_notMem.mp hempty x)
  · intro t ht hleast
    rw [wp_bind, getTimestampMs_spec, wp_bind, wp_get]
    split_ifs with hnow
    · refine wp_pure.mpr ⟨h.tick, ?_, rfl, rfl, later_tick.time h.clock⟩
      intro x d hx
      obtain ⟨hmem, rfl⟩ := mem_of_alarms_deadline hx
      exact (UInt64.lt_iff_toNat_lt.mp hnow).trans_le (hleast x hmem)
    · rw [wp_bind]
      apply cancelCpuTimer_spec h.tick.toCore ht
      intro heap u hu hl
      have hout : t ∉ u.tree.members := by
        rw [hl.tree]
        exact Finset.notMem_erase t _
      have hkey : (s.timer t).key.toNat ≤ (s.clock s.reads).toNat :=
        UInt64.le_iff_toNat_le.mp (UInt64.not_lt.mp hnow)
      have htime : (s.clock s.reads).toNat ≤ u.time := hl.time h.clock
      have helapse : u.alarms.elapse = s.alarms.elapse := hl.elapse
      have hdeadline : u.alarms.deadline = Function.update s.alarms.deadline t none :=
        hl.deadline.trans (deadline_erase (s := s.tick))
      have htrig : (Cpu.alarms { u with
          timer := Function.update u.timer t { u.timer t with triggered := true } }).deadline =
          u.alarms.deadline := deadline_assign rfl
      rw [wp_bind, assign_spec, wp_pure]
      constructor
      · exact hu.assign rfl (hu.elapse t) fun hmem => absurd hmem hout
      · refine ⟨_, alarms_deadline ht, hkey.trans htime, ?_, ?_⟩
        · intro x d hx
          obtain ⟨hmem, rfl⟩ := mem_of_alarms_deadline hx
          exact hleast x hmem
        · constructor
          · rw [elapse_assign, ← helapse]
            exact Function.update_eq_self t u.alarms.elapse
          · exact htrig.trans hdeadline
          · exact (later_tick.time h.clock).trans htime

theorem Inv.does (h : Inv freq s) {c : Action} (hc : s.Ok freq c) : Does freq s c := by
  cases c with
  | elapse t e => exact h.elapses hc
  | set t => exact h.set hc
  | cancel t => exact h.cancel hc
  | enter => exact h.enter
  | round => exact h.round

/-! ## Runs -/

theorem inv_start {clock : ℕ → UInt64} (hclock : Clock clock) (hten : Fits freq 10) :
    Inv freq (start clock) where
  clock := hclock
  rep := Common.Rb.represents_start rfl
  keys _ := by
    show (0 : UInt64).toNat < 2 ^ 63
    decide
  flag t ht := absurd ht (Finset.notMem_empty t)
  elapse _ := ⟨Int32.le_refl 0, hten.mono (Nat.zero_le _)⟩
  soon t ht := absurd ht (Finset.notMem_empty t)
  ten := hten
  wakes := ⟨fun _ => le_rfl, fun _ _ => le_max_left _ _⟩

variable {clock : ℕ → UInt64} {es : List (Action × Option ℕ)}

theorem Inv.next {e : Action × Option ℕ} (h : Inv freq s) (hn : s.Next freq e u) :
    Inv freq u ∧ s.alarms.Step e u.alarms :=
  (h.does hn.1).of_ok hn.2

theorem inv_of_trace (hclock : Clock clock) (hten : Fits freq 10)
    (h : Trace (Cpu.Next freq) (start clock) es s) : Inv freq s :=
  h.invariant (inv_start hclock hten) fun _ _ _ hi hn => (hi.next hn).1

theorem next_of_next {e : Action × Option ℕ} (h : s.next freq e = some u) : s.Next freq e u := by
  unfold Cpu.next at h
  split at h
  · next r v hv =>
    split_ifs at h with hok
    obtain ⟨hok, rfl⟩ := hok
    cases h
    exact ⟨hok, hv⟩
  · cases h

/-- Five milliseconds from one reading to the next, and no more after the fourteenth. -/
def steady (n : ℕ) : UInt64 := UInt64.ofNat (5 * min n 14)

theorem steady_toNat (n : ℕ) : (steady n).toNat = 5 * min n 14 :=
  UInt64.toNat_ofNat_of_lt' (by rw [UInt64.size]; omega)

theorem clock_steady : Clock steady := by
  constructor
  · intro n
    rw [steady_toNat, steady_toNat]
    omega
  · intro n
    rw [steady_toNat]
    omega

/-- Timer 0 is set for twenty milliseconds, and timer 1, which sets itself again, for four. -/
def twoTimers : List (Action × Option ℕ) :=
  [(.elapse 0 20, none), (.elapse 1 4, none), (.set 0, none), (.set 1, none), (.enter, none),
    (.round, some 1), (.set 1, none), (.round, some 0), (.round, some 1), (.round, none)]

theorem twoTimers_run : ∃ s, Trace (Cpu.Next 62500000) (start steady) twoTimers s ∧ s.interval = 10 := by
  have h : (exec (Cpu.next 62500000) (start steady) twoTimers).map Cpu.interval = some 10 := by
    decide +kernel
  obtain ⟨s, hs, hint⟩ := Option.map_eq_some_iff.mp h
  exact ⟨s, Trace.of_exec (fun _ _ _ => next_of_next) hs, hint⟩

end ShikiOS.Kernel.Alarm
