import ShikiOS.Lib.Count
import ShikiOS.Lib.FirstMax
import ShikiOS.Kernel.SchedInvariant

/-!
# Waiting in the run queue

`pick_next` makes every RUNNABLE process of the queue older and takes the oldest one, which
starts again at 0 when it comes back. So no process waits for long: `late s k` counts the
RUNNABLE processes of the queue that wait since `k` rounds, and each round moves one of them out.

Results:
* `pickNext_eq`: what `pick_next` does to the wait times, and which process it takes.
* `Run.waits`: while the queue never has more than `N` processes, every RUNNABLE process in it has
  a wait time from 0 to `N`.
-/

namespace ShikiOS.Kernel.Sched

open ShikiOS.Lib

variable {n : ℕ} {s t u : Sched n} {c : Fin n} {p q k N : ℕ} {x : Proc} {new : ProcState}
  {rest done : List ℕ} {m : ℤ} {chosen : Option ℕ}

/-- The process at `p` is RUNNABLE. -/
def Ready (s : Sched n) (p : ℕ) : Prop := s.state p = some .runnable

instance : Decidable (s.Ready p) := inferInstanceAs (Decidable (_ = _))

/-- The `wait_time` of the process at `p`. -/
def waitTime (s : Sched n) (p : ℕ) : ℤ := ((s.proc p).map Proc.waitTime).getD 0

/-- The processes after a round of `pick_next` for each of `ps`. -/
def age (s : Sched n) (ps : List ℕ) (q : ℕ) : Option Proc :=
  if q ∈ ps ∧ s.Ready q then (s.proc q).map fun x => { x with waitTime := x.waitTime + 1 }
  else s.proc q

/-! ## What `pick_next` does -/

theorem waitTime_eq (h : s.proc p = some x) : s.waitTime p = x.waitTime := by
  rw [waitTime, h, Option.map_some, Option.getD_some]

@[simp] theorem age_nil : s.age [] = s.proc := by
  funext q
  simp [age]

theorem age_of_notMem (h : p ∉ done) : s.age done p = s.proc p := if_neg fun hp => h hp.1

theorem age_snoc_of_not (h : ¬ s.Ready p) : s.age (done ++ [p]) = s.age done := by
  funext q
  by_cases hq : q = p
  · subst hq
    rw [age, age, if_neg fun hq => h hq.2, if_neg fun hq => h hq.2]
  · simp only [age, List.mem_append, List.mem_singleton, hq, or_false]

theorem age_snoc (h : s.Ready p) (hp : p ∉ done) (hx : s.proc p = some x) :
    s.age (done ++ [p]) =
      Function.update (s.age done) p (some { x with waitTime := x.waitTime + 1 }) := by
  funext q
  by_cases hq : q = p
  · subst hq
    rw [Function.update_self, age, if_pos ⟨by simp, h⟩, hx, Option.map_some]
  · rw [Function.update_of_ne hq]
    simp only [age, List.mem_append, List.mem_singleton, hq, or_false]

/-- The loop over the rest of the queue makes it older and finds the first one that waits
    longest. -/
theorem pickLoop_best (hb : Best s.Ready (fun p => s.waitTime p + 1) done (-1) m chosen)
    (hnd : (done ++ rest).Nodup) (h0 : ∀ p ∈ rest, s.Ready p → 0 ≤ s.waitTime p) :
    ∃ m', (pickLoop rest (s.age done) m chosen).1 = s.age (done ++ rest) ∧
      Best s.Ready (fun p => s.waitTime p + 1) (done ++ rest) (-1) m'
        (pickLoop rest (s.age done) m chosen).2 := by
  induction rest generalizing done m chosen with
  | nil => exact ⟨m, by simp [pickLoop], by simpa [pickLoop] using hb⟩
  | cons p rest ih =>
    have hp : p ∉ done := fun hm => (List.nodup_append.mp hnd).2.2 p hm p (by simp) rfl
    have hrest : ∀ q ∈ rest, s.Ready q → 0 ≤ s.waitTime q :=
      fun q hq => h0 q (List.mem_cons_of_mem p hq)
    have hsplit : done ++ p :: rest = (done ++ [p]) ++ rest := by simp
    rw [hsplit] at hnd ⊢
    rw [pickLoop, age_of_notMem hp]
    cases hx : s.proc p with
    | none =>
      have hr : ¬ s.Ready p := by simp [Ready, state, hx]
      simpa only [age_snoc_of_not hr] using ih (hb.skip hr) hnd hrest
    | some x =>
      simp only
      by_cases hr : x.state = .runnable
      · have hready : s.Ready p := by simp [Ready, state, hx, hr]
        have hw := waitTime_eq hx
        have hstep := hb.step hready (by have := h0 p (by simp) hready; omega)
        rw [if_pos hr, ← age_snoc hready hp hx, ← hw]
        split_ifs at hstep ⊢
        · exact ih hstep hnd hrest
        · exact ih hstep hnd hrest
      · have hnot : ¬ s.Ready p := by simp [Ready, state, hx, hr]
        rw [if_neg hr, ← age_snoc_of_not hnot]
        exact ih (hb.skip hnot) hnd hrest

/-- `pick_next` makes the RUNNABLE processes of the queue older. It returns the first one that
    waits longest, or the idle process if there is none. -/
theorem pickNext_eq (hnd : s.rq.Nodup) (h0 : ∀ p ∈ s.rq, s.Ready p → 0 ≤ s.waitTime p) :
    ∃ m chosen, s.pickNext c = ({ s with proc := s.age s.rq }, chosen.getD (s.cpus c).idle) ∧
      Best s.Ready (fun p => s.waitTime p + 1) s.rq (-1) m chosen := by
  obtain ⟨m, h1, h2⟩ := pickLoop_best (s := s) Best.nil hnd h0
  rw [age_nil] at h1 h2
  rw [List.nil_append] at h1 h2
  exact ⟨m, _, by rw [pickNext, ← h1], h2⟩

/-- What getting older does to a process of the queue. -/
theorem age_eq (hp : p ∈ s.rq) (ht : t.proc = s.age s.rq) :
    (t.Ready p ↔ s.Ready p) ∧ t.waitTime p = s.waitTime p + if s.Ready p then 1 else 0 := by
  by_cases hr : s.Ready p
  · obtain ⟨x, hx, hst⟩ := exists_of_state hr
    have hproc : t.proc p = some { x with waitTime := x.waitTime + 1 } := by
      rw [ht, age, if_pos ⟨hp, hr⟩, hx, Option.map_some]
    rw [waitTime_eq hproc, waitTime_eq hx, if_pos hr, Ready, Sched.state_eq hproc]
    exact ⟨⟨fun _ => hr, fun _ => by rw [hst]⟩, rfl⟩
  · have hproc : t.proc p = s.proc p := by rw [ht, age, if_neg fun h => hr h.2]
    rw [if_neg hr, add_zero, Ready, Ready, state, state, waitTime, waitTime, hproc]
    exact ⟨Iff.rfl, rfl⟩

/-! ## What `sched` does -/

/-- `sched` returns at once, or takes these steps. -/
theorem sched_steps (h : s.sched c new = .ok t) :
    t = s ∨ ∃ u v next z, s.updateThisState c new = .ok u ∧ u.pickNext c = (v, next) ∧
      v.proc next = some z ∧ z.state = .runnable ∧
      t = (v.updateThisProc c next).put next { z with state := .running } := by
  unfold sched at h
  simp only [bind, Except.bind, pure, Except.pure] at h
  cases hx : s.deref (s.cpus c).thisproc with
  | error e => simp [hx] at h
  | ok x =>
    simp only [hx] at h
    split_ifs at h with hcur hk
    · exact .inl (by cases h; rfl)
    · right
      cases hu : s.updateThisState c new with
      | error e => simp [hu] at h
      | ok u =>
        simp only [hu] at h
        generalize hv : u.pickNext c = r at h
        obtain ⟨v, next⟩ := r
        cases hz : (v.updateThisProc c next).deref next with
        | error e => simp [hz] at h
        | ok z =>
          simp only [hz] at h
          split_ifs at h with hready
          refine ⟨u, v, next, z, rfl, hv, ?_, not_not.mp hready, by cases h; rfl⟩
          unfold deref at hz
          split at hz
          · cases hz
            assumption
          · cases hz

/-- A process that `update_this_state` leaves in the queue is the current one, with wait time 0,
    or has waited there before. -/
theorem updateThisState_queue (h : s.updateThisState c new = .ok u)
    (hidle : (s.cpus c).idle ∉ s.rq) (hrun : s.state (s.cpus c).thisproc = some .running) :
    (u.rq = (s.cpus c).thisproc :: s.rq.erase (s.cpus c).thisproc ∧
        u.waitTime (s.cpus c).thisproc = 0 ∨ u.rq = s.rq.erase (s.cpus c).thisproc) ∧
      ∀ q, q ≠ (s.cpus c).thisproc → u.proc q = s.proc q := by
  obtain ⟨x, hx, hxr⟩ := exists_of_state hrun
  simp only [updateThisState, deref_eq hx, bind, Except.bind, pure, Except.pure, hxr, true_or,
    and_true] at h
  by_cases hi : (s.cpus c).thisproc = (s.cpus c).idle
  · rw [if_neg (not_not_intro hi), if_neg fun h => h.1 hi] at h
    cases h
    refine ⟨.inr ?_, fun q hq => put_proc_of_ne hq⟩
    rw [put_rq, List.erase_of_not_mem (hi ▸ hidle)]
  · rw [if_pos hi] at h
    split_ifs at h with hnew
    · unfold insertRq at h
      split_ifs at h
      cases h
      refine ⟨.inl ⟨rfl, ?_⟩, fun q hq => ?_⟩
      · exact waitTime_eq put_proc_self
      · exact (put_proc_of_ne hq).trans (put_proc_of_ne hq)
    · cases h
      exact ⟨.inr rfl, fun q hq => put_proc_of_ne hq⟩

/-! ## What one step does to the queue -/

theorem ready_congr (h : t.proc p = s.proc p) : t.Ready p ↔ s.Ready p := by
  rw [Ready, Ready, state, state, h]

theorem waitTime_congr (h : t.proc p = s.proc p) : t.waitTime p = s.waitTime p := by
  rw [waitTime, waitTime, h]

/-- From `s` to `t` a process with wait time 0 may come in, and others may leave. Nobody gets
    older. -/
def Queued (s t : Sched n) : Prop :=
  ∃ l : List ℕ, (t.rq = l ∨ ∃ p, t.rq = p :: l ∧ t.waitTime p = 0 ∧ ¬ s.Ready p) ∧
    l.Sublist s.rq ∧ ∀ q ∈ l, t.Ready q → s.Ready q ∧ t.waitTime q = s.waitTime q

/-- From `u` to `t` all get older, and `next`, which has waited longest, goes. -/
structure Round (u t : Sched n) (next : ℕ) : Prop where
  rq : t.rq = u.rq
  gone : ¬ t.Ready next
  older : ∀ q ∈ u.rq, t.Ready q → u.Ready q ∧ t.waitTime q = u.waitTime q + 1
  oldest : ∀ q ∈ u.rq, u.Ready q →
    next ∈ u.rq ∧ u.Ready next ∧ u.waitTime q ≤ u.waitTime next

theorem Queued.refl (s : Sched n) : Queued s s :=
  ⟨s.rq, .inl rfl, List.Sublist.refl _, fun _ _ hr => ⟨hr, rfl⟩⟩

/-- An action that changes only a process outside of the queue. -/
theorem Queued.of_frame (hrq : t.rq = s.rq) (hp : p ∉ s.rq)
    (hproc : ∀ q, q ≠ p → t.proc q = s.proc q) : Queued s t := by
  refine ⟨t.rq, .inl rfl, by rw [hrq], fun q hq hr => ?_⟩
  have hne : q ≠ p := by
    rintro rfl
    exact hp (hrq ▸ hq)
  exact ⟨(ready_congr (hproc q hne)).mp hr, waitTime_congr (hproc q hne)⟩

/-- Who is RUNNABLE in the queue has just come in, or was there with the same wait time. -/
theorem Queued.waitTime (h : Queued s t) (hp : p ∈ t.rq) (hr : t.Ready p) :
    (t.waitTime p = 0 ∧ ¬ s.Ready p) ∨
      (p ∈ s.rq ∧ s.Ready p ∧ t.waitTime p = s.waitTime p) := by
  obtain ⟨l, hl, hsub, heq⟩ := h
  have hin : p ∈ l → p ∈ s.rq ∧ s.Ready p ∧ t.waitTime p = s.waitTime p := by
    intro hp
    exact ⟨hsub.subset hp, heq p hp hr⟩
  rcases hl with rfl | ⟨q, hl, h0, hnew⟩
  · exact .inr (hin hp)
  · rw [hl] at hp
    rcases List.mem_cons.mp hp with rfl | hp
    · exact .inl ⟨h0, hnew⟩
    · exact .inr (hin hp)

/-- No wait time in the queue is negative. -/
def Nonneg (s : Sched n) : Prop := ∀ p ∈ s.rq, s.Ready p → 0 ≤ s.waitTime p

theorem Queued.nonneg (h : Queued s t) (h0 : s.Nonneg) : t.Nonneg := by
  intro p hp hr
  rcases h.waitTime hp hr with ⟨hw, -⟩ | ⟨hp, hr, hw⟩
  · rw [hw]
  · rw [hw]
    exact h0 p hp hr

theorem Round.nonneg (h : Round u t q) (h0 : u.Nonneg) : t.Nonneg := by
  intro p hp hr
  rw [h.rq] at hp
  obtain ⟨hru, hw⟩ := h.older p hp hr
  have := h0 p hp hru
  omega

/-- The round of `pick_next` in `sched`. -/
theorem round_of_pickNext (h0 : u.Nonneg) (hnd : u.rq.Nodup) {v : Sched n} {next : ℕ}
    (hv : u.pickNext c = (v, next)) {z : Proc}
    (ht : t = (v.updateThisProc c next).put next { z with state := .running }) :
    Round u t next := by
  obtain ⟨m, chosen, hpick, hbest⟩ := pickNext_eq (c := c) hnd h0
  rw [hpick] at hv
  obtain ⟨rfl, hnext⟩ := Prod.mk.inj hv
  have hgone : ¬ t.Ready next := by
    intro hr
    rw [ht] at hr
    simp [Ready, state, put_proc_self] at hr
  constructor
  · rw [ht]
    rfl
  · exact hgone
  · intro q hq hr
    have hne : q ≠ next := by
      rintro rfl
      exact hgone hr
    have hproc : t.proc q = u.age u.rq q := by
      rw [ht]
      exact put_proc_of_ne hne
    obtain ⟨hready, hwait⟩ := age_eq (t := { u with proc := u.age u.rq }) hq rfl
    have hru := hready.mp ((ready_congr hproc).mp hr)
    rw [if_pos hru] at hwait
    exact ⟨hru, (waitTime_congr hproc).trans hwait⟩
  · intro q hq hr
    obtain ⟨k, rfl, hmax⟩ := hbest.some_of_exists hq hr
    obtain rfl : k = next := hnext
    have hle := hmax.le hq hr
    exact ⟨hmax.mem, hmax.prop, by omega⟩

/-- `sched` changes the queue, and then comes a round. -/
theorem switch_waits (h0 : s.Nonneg) (hok : s.Ok) (hu : s.updateThisState c new = .ok u)
    {v : Sched n} {next : ℕ} (hv : u.pickNext c = (v, next)) {z : Proc}
    (ht : t = (v.updateThisProc c next).put next { z with state := .running }) :
    Queued s u ∧ u.rq.Nodup ∧ Round u t next := by
  obtain ⟨hrq, hproc⟩ := updateThisState_queue hu (hok.idle_notMem c) (hok.current c)
  have hmem : ∀ q ∈ s.rq.erase (s.cpus c).thisproc, q ≠ (s.cpus c).thisproc :=
    fun q hq => (hok.nodup.mem_erase_iff.mp hq).1
  have hbusy : ¬ s.Ready (s.cpus c).thisproc := by
    rw [Ready, hok.current c]
    decide
  have hqueued : Queued s u := by
    refine ⟨s.rq.erase (s.cpus c).thisproc, ?_, List.erase_sublist, fun q hq hr => ?_⟩
    · rcases hrq with ⟨hrq, h0⟩ | hrq
      · exact .inr ⟨_, hrq, h0, hbusy⟩
      · exact .inl hrq
    · have he := hproc q (hmem q hq)
      exact ⟨(ready_congr he).mp hr, waitTime_congr he⟩
  have hnd : u.rq.Nodup := by
    have herase : (s.rq.erase (s.cpus c).thisproc).Nodup := hok.nodup.erase _
    rcases hrq with ⟨hrq, -⟩ | hrq
    · rw [hrq]
      exact List.nodup_cons.mpr ⟨fun hm => hmem _ hm rfl, herase⟩
    · rwa [hrq]
  exact ⟨hqueued, hnd, round_of_pickNext (hqueued.nonneg h0) hnd hv ht⟩

theorem next_of_step {a : Action n} (hs : step s a = some t) : s.next a = .ok t := by
  unfold Sched.step at hs
  cases hn : s.next a with
  | error e => simp [hn, Except.toOption] at hs
  | ok u =>
    simp only [hn, Except.toOption, Option.some.injEq] at hs
    rw [hs]

/-- The state that an action asks `sched` for. -/
def Action.asked : Action n → Option (Fin n × ProcState)
  | .yield c => some (c, .runnable)
  | .sleep c alertable => some (c, if alertable then .sleeping else .deepsleeping)
  | .exit c => some (c, .zombie)
  | .activate _ _ | .wait _ | .create _ | .kill _ => none

/-- An action that does not call `sched` changes the queue only. -/
theorem queued_of_asked (hok : s.Ok) {a : Action n} (ha : s.Enabled a) (hs : step s a = some t)
    (hnone : a.asked = none) : Queued s t := by
  have hnext := next_of_step hs
  have hout : ∀ p, ¬ Awake (s.state p) → p ∉ s.rq :=
    fun p hp hm => hp ((hok.queued p).mp hm).2.symm
  cases a with
  | yield c => cases hnone
  | sleep c alertable => cases hnone
  | exit c => cases hnone
  | activate p onalert =>
    obtain ⟨x, hx⟩ := Option.ne_none_iff_exists'.mp ha
    have hrq : p ∈ s.rq → x.state = .runnable ∨ x.state = .running := by
      intro hp
      have := ((hok.queued p).mp hp).2
      rw [Sched.state_eq hx] at this
      simpa using this
    rcases activateProc_cases onalert hx hrq with ⟨he, -⟩ | ⟨he, hw⟩
    · rw [Sched.next, he] at hnext
      cases hnext
      exact Queued.refl s
    · rw [Sched.next, he] at hnext
      cases hnext
      have hne : ¬ s.Ready p := by
        intro hr
        rw [Ready, Sched.state_eq hx, Option.some.injEq] at hr
        rw [hr] at hw
        simp at hw
      have hp : p ∉ s.rq := by
        intro hp
        rcases hrq hp with hr | hr <;> rw [hr] at hw <;> simp at hw
      refine ⟨s.rq, .inr ⟨p, rfl, waitTime_eq put_proc_self, hne⟩, List.Sublist.refl _,
        fun q hq hr => ?_⟩
      have he : (s.put p { x with state := .runnable, waitTime := 0 }).proc q = s.proc q := by
        apply put_proc_of_ne
        rintro rfl
        exact hp hq
      exact ⟨(ready_congr he).mp hr, waitTime_congr he⟩
  | wait p =>
    cases hnext
    have hz : s.state p = some .zombie := ha
    have hp : p ∉ s.rq := hout p (by rw [hz, Awake]; decide)
    exact .of_frame (List.erase_of_not_mem hp) hp fun q hq => Function.update_of_ne hq _ _
  | create p =>
    cases hnext
    have hn : s.proc p = none := ha
    have hp : p ∉ s.rq := hout p (by rw [state, hn, Awake]; decide)
    exact .of_frame rfl hp fun q hq => put_proc_of_ne hq
  | kill p =>
    obtain ⟨x, hx⟩ := Option.ne_none_iff_exists'.mp ha
    rw [Sched.next, dfsKill, deref_eq hx] at hnext
    cases hnext
    refine ⟨s.rq, .inl rfl, List.Sublist.refl _, fun q hq hr => ?_⟩
    by_cases hqp : q = p
    · subst hqp
      refine ⟨?_, ?_⟩
      · rw [Ready, state, put_proc_self] at hr
        rw [Ready, Sched.state_eq hx]
        exact hr
      · rw [waitTime_eq put_proc_self, waitTime_eq hx]
    · have he : (s.put p { x with killed := true }).proc q = s.proc q := put_proc_of_ne hqp
      exact ⟨(ready_congr he).mp hr, waitTime_congr he⟩

/-- What a step does: a change of the queue, and a round after it if it came to `pick_next`. -/
theorem step_waits (h0 : s.Nonneg) (hok : s.Ok) {a : Action n} (ha : s.Enabled a)
    (hs : step s a = some t) :
    Queued s t ∨ ∃ u next, Queued s u ∧ u.rq.Nodup ∧ Round u t next := by
  have hsched : ∀ c new, s.sched c new = .ok t →
      Queued s t ∨ ∃ u next, Queued s u ∧ u.rq.Nodup ∧ Round u t next := by
    intro c new hs
    rcases sched_steps hs with rfl | ⟨u, v, next, z, hu, hv, -, -, ht⟩
    · exact .inl (Queued.refl t)
    · exact .inr ⟨u, next, switch_waits h0 hok hu hv ht⟩
  cases a with
  | yield c => exact hsched _ _ (next_of_step hs)
  | sleep c alertable => exact hsched _ _ (next_of_step hs)
  | exit c => exact hsched _ _ (next_of_step hs)
  | _ => exact .inl (queued_of_asked hok ha hs rfl)

/-! ## How many wait for how long -/

/-- The RUNNABLE processes of the queue that have waited for `k` rounds or more. -/
def late (s : Sched n) (k : ℕ) : ℕ := s.rq.countP fun p => decide (s.Ready p ∧ (k : ℤ) ≤ s.waitTime p)

/-- Nobody waits for longer than others are behind. -/
structure Waits (N : ℕ) (s : Sched n) : Prop where
  nonneg : ∀ p ∈ s.rq, s.Ready p → 0 ≤ s.waitTime p
  late : ∀ k, 0 < k → 0 < s.late k → s.late k + k ≤ N

theorem Waits.le (h : s.Waits N) (hp : p ∈ s.rq) (hr : s.Ready p) : s.waitTime p ≤ N := by
  by_cases h0 : s.waitTime p ≤ 0
  · omega
  · have hpos : 0 < s.late (s.waitTime p).toNat :=
      List.countP_pos_iff.mpr ⟨p, hp, by simp [hr]; omega⟩
    have := h.late _ (by omega) hpos
    omega

/-- Processes that have just come in, with wait time 0, are not late. -/
theorem Queued.late_le (h : Queued s t) (hk : 0 < k) : t.late k ≤ s.late k := by
  obtain ⟨l, hl, hsub, heq⟩ := h
  have hrest : l.countP (fun p => decide (t.Ready p ∧ (k : ℤ) ≤ t.waitTime p)) ≤ s.late k := by
    refine le_trans (List.countP_mono_left fun q hq hl => ?_) hsub.countP_le
    simp only [decide_eq_true_eq] at hl ⊢
    obtain ⟨hr, hw⟩ := heq q hq hl.1
    exact ⟨hr, hw ▸ hl.2⟩
  rcases hl with rfl | ⟨p, hl, hp, -⟩
  · exact hrest
  · rw [late, hl, List.countP_cons_of_neg]
    · exact hrest
    · simp only [decide_eq_true_eq, not_and, hp]
      omega

theorem Waits.queue (h : s.Waits N) (hq : Queued s t) : t.Waits N := by
  refine ⟨hq.nonneg h.nonneg, fun k hk hpos => ?_⟩
  have h1 := hq.late_le hk
  have h2 := h.late k hk (by omega)
  omega

/-- The round of `pick_next`: all get older and the one that waits longest goes. -/
theorem Waits.round (h : u.Waits N) (hnd : u.rq.Nodup) (hlen : u.rq.length ≤ N) {next : ℕ}
    (hround : Round u t next) : t.Waits N := by
  refine ⟨hround.nonneg h.nonneg, fun k hk hpos => ?_⟩
  obtain ⟨k, rfl⟩ : ∃ j, k = j + 1 := ⟨k - 1, by omega⟩
  obtain ⟨q, hq, hl⟩ := List.countP_pos_iff.mp hpos
  simp only [decide_eq_true_eq] at hl
  rw [hround.rq] at hq
  obtain ⟨hru, hw⟩ := hround.older q hq hl.1
  -- somebody is late, so the process that goes was late too
  obtain ⟨hmem, hready, hle⟩ := hround.oldest q hq hru
  have hstep : u.late k = u.rq.countP (fun q => decide (q ≠ next ∧ u.Ready q ∧
      (k : ℤ) ≤ u.waitTime q)) + 1 := by
    refine countP_succ hnd hmem (by simp) ?_ fun y hy => by simp [hy]
    simp only [decide_eq_true_eq]
    exact ⟨hready, by omega⟩
  have hlate : t.late (k + 1) ≤ u.rq.countP (fun q => decide (q ≠ next ∧ u.Ready q ∧
      (k : ℤ) ≤ u.waitTime q)) := by
    rw [Sched.late, hround.rq]
    refine List.countP_mono_left fun y hy hl => ?_
    simp only [decide_eq_true_eq] at hl ⊢
    obtain ⟨hry, hwy⟩ := hround.older y hy hl.1
    refine ⟨?_, hry, by omega⟩
    rintro rfl
    exact hround.gone hl.1
  have hcount : u.late k ≤ u.rq.length := List.countP_le_length
  rcases Nat.eq_zero_or_pos k with rfl | hk0
  · omega
  · have := h.late k hk0 (by omega)
    omega

/-! ## Runs -/

theorem Waits.step (h : s.Waits N) (hok : s.Ok) {a : Action n} (ha : s.Enabled a)
    (hs : step s a = some t) (hlen : t.rq.length ≤ N) : t.Waits N := by
  rcases step_waits h.nonneg hok ha hs with hq | ⟨u, next, hq, hnd, hround⟩
  · exact h.queue hq
  · rw [hround.rq] at hlen
    exact (h.queue hq).round hnd hlen hround

/-- A step after which the queue has at most `N` processes. -/
def Fits (N : ℕ) (s : Sched n) (a : Action n) : Prop :=
  s.Enabled a ∧ ∀ t, step s a = some t → t.rq.length ≤ N

/-- A RUNNABLE process of the queue has a wait time from 0 to `N`, in every run in which the
    queue never has more than `N` processes. -/
theorem Run.waits (h0 : s.Init) (h : Run step (Fits N) s t) (hp : p ∈ t.rq) (hr : t.Ready p) :
    0 ≤ t.waitTime p ∧ t.waitTime p ≤ N := by
  have hinit : s.Waits N := ⟨by simp [h0.rq], by simp [Sched.late, h0.rq]⟩
  have hinv : t.Ok ∧ t.Waits N := by
    refine h.invariant (I := fun u => u.Ok ∧ u.Waits N) ⟨h0.ok, hinit⟩ ?_
    rintro u a v ⟨hok, hw⟩ ⟨ha, hlen⟩ hs
    exact ⟨Run.ok (Run.tail Run.refl ha hs) hok, hw.step hok ha hs (hlen v hs)⟩
  exact ⟨hinv.2.nonneg p hp hr, hinv.2.le hp hr⟩

end ShikiOS.Kernel.Sched
