import ShikiOS.Kernel.SchedWait

/-!
# Nobody is overtaken twice (`kernel/sched.c`)

Every round of `pick_next` makes all RUNNABLE processes of the queue older, and who comes in
starts at 0. So once `q` was picked while `p` waited, `p` has a positive wait time, and `q` stays
behind `p` for as long as `p` waits, whatever `q` does in between. The idle processes are not in
the queue: they are RUNNABLE while others run, and are passed over again and again.

Results:
* `Behind.step`: a process that is behind `p` stays behind `p`.
* `overtaken_once`: no process is picked twice while another one waits that is not idle.
* `idle_overtaken`: an idle process is overtaken twice.
-/

namespace ShikiOS.Kernel.Sched

open ShikiOS.Lib

variable {n : ℕ} {s₀ s t u v : Sched n} {c : Fin n} {p q : ℕ} {new : ProcState} {a b : Action n}

/-- The process that `pick_next` returns to `sched` (sched.c:176-188), if it is called. -/
def pickedBySched (s : Sched n) (c : Fin n) (new : ProcState) : Option ℕ :=
  match s.deref (s.cpus c).thisproc with
  | .error _ => none
  | .ok x =>
    if x.state ≠ .running ∨ (x.killed ∧ new ≠ .zombie) then none
    else match s.updateThisState c new with
      | .error _ => none
      | .ok u => some (u.pickNext c).2

/-- The process that an action picks. -/
def picked (s : Sched n) (a : Action n) : Option ℕ :=
  match a.asked with
  | some (c, new) => s.pickedBySched c new
  | none => none

/-- A step in which `p` is RUNNABLE and not picked. -/
def PassedOver (p : ℕ) (s : Sched n) (a : Action n) : Prop :=
  s.Enabled a ∧ s.Ready p ∧ s.picked a ≠ some p

instance (p : ℕ) (s : Sched n) (a : Action n) : Decidable (PassedOver p s a) :=
  inferInstanceAs (Decidable (_ ∧ _ ∧ _))

/-- In a run from `s₀` the process `q` is picked in two steps, and from before the first one to
    after the second one `p` is RUNNABLE and not picked. -/
def OvertakesTwice (s₀ : Sched n) (q p : ℕ) : Prop :=
  ∃ s a t u b v, Run step Enabled s₀ s ∧
    PassedOver p s a ∧ s.picked a = some q ∧ step s a = some t ∧
    Run step (PassedOver p) t u ∧
    PassedOver p u b ∧ u.picked b = some q ∧ step u b = some v ∧ v.Ready p

/-! ## The step that picks -/

/-- If `sched` picks `next`, it goes all the way. -/
theorem sched_of_picked {next : ℕ} (hp : s.pickedBySched c new = some next)
    (hs : s.sched c new = .ok t) :
    ∃ u v, ∃ z : Proc, s.updateThisState c new = .ok u ∧ u.pickNext c = (v, next) ∧
      t = (v.updateThisProc c next).put next { z with state := .running } := by
  unfold pickedBySched at hp
  unfold sched at hs
  simp only [bind, Except.bind, pure, Except.pure] at hs
  cases hx : s.deref (s.cpus c).thisproc with
  | error e => simp [hx] at hp
  | ok x =>
    simp only [hx] at hp hs
    split_ifs at hp with hstop
    rw [not_or, not_not] at hstop
    rw [if_neg (not_not_intro hstop.1), if_neg hstop.2] at hs
    cases hu : s.updateThisState c new with
    | error e => simp [hu] at hp
    | ok u =>
      simp only [hu, Option.some.injEq] at hp hs
      generalize hv : u.pickNext c = r at hp hs
      obtain ⟨v, next'⟩ := r
      obtain rfl : next' = next := hp
      cases hz : (v.updateThisProc c next').deref next' with
      | error e => simp [hz] at hs
      | ok z =>
        simp only [hz] at hs
        split_ifs at hs
        cases hs
        exact ⟨u, v, z, rfl, hv, rfl⟩

/-- A step that picks `q` changes the queue, and then comes the round in which `q` goes. -/
theorem round_of_picked (h0 : s.Nonneg) (hok : s.Ok) (hp : s.picked a = some q)
    (hs : step s a = some t) : ∃ u, Queued s u ∧ u.Nonneg ∧ Round u t q := by
  have hnext := next_of_step hs
  have hsched : ∀ c new, s.pickedBySched c new = some q → s.sched c new = .ok t →
      ∃ u, Queued s u ∧ u.Nonneg ∧ Round u t q := by
    intro c new hp hs
    obtain ⟨u, v, z, hu, hv, ht⟩ := sched_of_picked hp hs
    obtain ⟨hq, -, hround⟩ := switch_waits h0 hok hu hv ht
    exact ⟨u, hq, hq.nonneg h0, hround⟩
  cases a with
  | yield c => exact hsched _ _ hp hnext
  | sleep c alertable => exact hsched _ _ hp hnext
  | exit c => exact hsched _ _ hp hnext
  | _ => cases hp

/-! ## Behind a waiting process -/

/-- `p` has waited for a round, and `q` comes after `p`. -/
structure Behind (p q : ℕ) (s : Sched n) : Prop where
  waited : 0 < s.waitTime p
  after : q ∈ s.rq → s.Ready q → s.waitTime q < s.waitTime p

theorem Behind.queued (h : Behind p q s) (hq : Queued s t) (hs : s.Ready p) (hp : p ∈ t.rq)
    (hr : t.Ready p) : Behind p q t := by
  have hpw : t.waitTime p = s.waitTime p := by
    rcases hq.waitTime hp hr with ⟨-, hnew⟩ | ⟨-, -, hw⟩
    · exact absurd hs hnew
    · exact hw
  constructor
  · rw [hpw]
    exact h.waited
  · intro hqt hqr
    rw [hpw]
    rcases hq.waitTime hqt hqr with ⟨hw, -⟩ | ⟨hqs, hqr', hw⟩
    · rw [hw]
      exact h.waited
    · rw [hw]
      exact h.after hqs hqr'

theorem Behind.round {next : ℕ} (h : Behind p q u) (hround : Round u t next) (hp : p ∈ u.rq)
    (hr : t.Ready p) : Behind p q t := by
  obtain ⟨-, hpw⟩ := hround.older p hp hr
  have hpos := h.waited
  constructor
  · omega
  · intro hqt hqr
    rw [hround.rq] at hqt
    obtain ⟨hqu, hqw⟩ := hround.older q hqt hqr
    have := h.after hqt hqu
    omega

/-- A process that is behind `p` stays behind `p`. -/
theorem Behind.step (h : Behind p q s) (h0 : s.Nonneg) (hok : s.Ok) (ha : s.Enabled a)
    (hs : step s a = some t) (hsr : s.Ready p) (hp : p ∈ t.rq) (hr : t.Ready p) :
    Behind p q t := by
  rcases step_waits h0 hok ha hs with hq | ⟨u, next, hq, -, hround⟩
  · exact h.queued hq hsr hp hr
  · rw [hround.rq] at hp
    exact (h.queued hq hsr hp (hround.older p hp hr).1).round hround hp hr

/-- The process that is picked while `p` waits is behind `p` from then on. -/
theorem Round.behind (h : Round u t q) (h0 : u.Nonneg) (hp : p ∈ u.rq) (hr : t.Ready p) :
    Behind p q t := by
  obtain ⟨hru, hw⟩ := h.older p hp hr
  have hpos := h0 p hp hru
  constructor
  · omega
  · intro _ hqr
    exact absurd hqr h.gone

/-- A process that is behind `p` is not picked while `p` waits. -/
theorem Behind.not_round (h : Behind p q u) (hround : Round u t q) (hp : p ∈ u.rq)
    (hr : t.Ready p) : False := by
  obtain ⟨hru, -⟩ := hround.older p hp hr
  obtain ⟨hq, hqr, hle⟩ := hround.oldest p hp hru
  have := h.after hq hqr
  omega

/-! ## Runs -/

/-- What holds in every run, of a process `p` that is no idle process. -/
structure Fair (p : ℕ) (s : Sched n) : Prop where
  ok : s.Ok
  nonneg : s.Nonneg
  nonIdle : s.NonIdle p

theorem Fair.mem_rq (h : Fair p s) (hr : s.Ready p) : p ∈ s.rq :=
  (h.ok.queued p).mpr ⟨h.nonIdle, .inl hr⟩

theorem Fair.step (h : Fair p s) (ha : s.Enabled a) (hs : step s a = some t) : Fair p t := by
  obtain ⟨w, hw, hok, hframe⟩ := h.ok.step ha
  rw [next_of_step hs] at hw
  cases hw
  refine ⟨hok, ?_, (hframe.nonIdle p).mpr h.nonIdle⟩
  rcases step_waits h.nonneg h.ok ha hs with hq | ⟨u, next, hq, -, hround⟩
  · exact hq.nonneg h.nonneg
  · exact hround.nonneg (hq.nonneg h.nonneg)

theorem Init.fair (h : s.Init) (hp : s.NonIdle p) : Fair p s := by
  refine ⟨h.ok, ?_, hp⟩
  intro q hq
  rw [h.rq] at hq
  exact absurd hq List.not_mem_nil

/-- No process is picked twice while a process waits that is not idle, however long `p` waits
    and whatever `q` does in between. -/
theorem overtaken_once (h0 : s₀.Init) (hp : s₀.NonIdle p) : ¬ OvertakesTwice s₀ q p := by
  rintro ⟨s, a, t, u, b, v, hrun, ⟨ha, hsr, -⟩, hqa, hs, hwait, ⟨hb, hur, -⟩, hqb, hstep, hvr⟩
  have hfs : Fair p s :=
    hrun.invariant (h0.fair hp) fun w a x hw ha hx => hw.step ha hx
  have hft : Fair p t := hfs.step ha hs
  -- while `p` waits, `q` is behind `p`
  have hbehind : Fair p u ∧ (u.Ready p → Behind p q u) := by
    refine hwait.invariant (I := fun w => Fair p w ∧ (w.Ready p → Behind p q w)) ⟨hft, ?_⟩ ?_
    · intro htr
      obtain ⟨w, -, hnn, hround⟩ := round_of_picked hfs.nonneg hfs.ok hqa hs
      have hpw : p ∈ w.rq := hround.rq ▸ hft.mem_rq htr
      exact hround.behind hnn hpw htr
    · rintro w a x ⟨hf, hw⟩ ⟨ha, hwr, -⟩ hx
      have hfx := hf.step ha hx
      refine ⟨hfx, fun hxr => ?_⟩
      exact (hw hwr).step hf.nonneg hf.ok ha hx hwr (hfx.mem_rq hxr) hxr
  obtain ⟨hfu, hbehind⟩ := hbehind
  obtain ⟨w, hq, -, hround⟩ := round_of_picked hfu.nonneg hfu.ok hqb hstep
  have hpw : p ∈ w.rq := hround.rq ▸ (hfu.step hb hstep).mem_rq hvr
  exact ((hbehind hur).queued hq hur hpw (hround.older p hpw hvr).1).not_round hround hpw hvr

/-- Process 1 of four processors is overtaken once at most by process 2. -/
theorem overtaken_once_boot : boot.Init ∧ boot.NonIdle 1 ∧ ¬ OvertakesTwice boot 2 1 := by
  have hp : boot.NonIdle 1 := by
    intro c
    show 1 ≠ 1000 + (c : ℕ)
    omega
  exact ⟨init_boot, hp, overtaken_once init_boot hp⟩

/-- Process 1 yields twice and is picked twice, while the idle process of its processor is
    RUNNABLE. -/
theorem idle_overtaken : ¬ ∀ p q, ¬ OvertakesTwice boot q p := by
  intro h
  have hrun : ((execIf step Enabled boot [.create 1, .activate 1 false, .yield 0]).bind fun s =>
      (step s (.yield 0)).bind fun t => (step t (.yield 0)).map fun v =>
        decide (PassedOver 1000 s (.yield 0) ∧ s.picked (.yield 0) = some 1 ∧
          PassedOver 1000 t (.yield 0) ∧ t.picked (.yield 0) = some 1 ∧ v.Ready 1000)) =
      some true := by
    decide +kernel
  simp only [Option.bind_eq_some_iff, Option.map_eq_some_iff, decide_eq_true_eq] at hrun
  obtain ⟨s, hs, t, ht, v, hv, hps, hqs, hpt, hqt, hvr⟩ := hrun
  exact h 1000 1 ⟨s, .yield 0, t, t, .yield 0, v, Run.of_execIf hs, hps, hqs, ht, Run.refl, hpt,
    hqt, hv, hvr⟩

end ShikiOS.Kernel.Sched
