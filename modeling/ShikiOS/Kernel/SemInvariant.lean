import ShikiOS.Kernel.SemParts

/-!
# The semaphore invariant

`Inv` is the invariant of the processes, the scheduler and all semaphores together.
There is one lemma for each function of `sem.c` that a step runs, and one for the
steps of the scheduler.

Results:
* `Inv.step`, `Run.semInv`: every step meets no fault and keeps the invariant.
* `semaphore_invariant`: counter and queue agree whenever the lock is free, units are
  conserved, posts pick waiters in the order in which they queued, and a waiter that
  was marked up is awake.
-/

namespace ShikiOS.Kernel

open ShikiOS.Lib Sched

variable {S : Type*} [DecidableEq S] {s : S} {p q : ℕ} {pc : ℕ → Pc S} {v : Pc S}
  {kind : WaitKind} {all : Bool}

/-! ## The invariant -/

/-- The invariant of a system in which semaphore `s` was initialised with `u s`. -/
structure Inv (u : S → ℤ) (k : State S) : Prop where
  locks : LockOk k.lock k.pc
  rq : RqOk k.rqlock k.pc
  procs : ProcOk k.sched k.pc
  ups : UpOk k.sched k.pc k.wait
  accounts : AllAccounts u k.sem k.ledger (waiters k.pc k.wait)

variable {u : S → ℤ} {k : State S} {c : Fin ncpu}

theorem inv_init (h : k.Init u) (hu : ∀ s, 0 ≤ u s) : Inv u k := by
  refine ⟨fun s p => ?_, fun p => ?_, ⟨h.sched, fun p hp => ?_, fun p hp => ?_, fun p s kind hp => ?_⟩,
    ⟨fun p s q hp => ?_, fun p s kind hp => ?_, fun p s kind hp => ?_, fun p s kind hp => ?_⟩,
    fun s => ?_⟩
  · rw [h.lock, h.pc]
    simp [Pc.locks]
  · rw [h.rqlock, h.pc]
    simp [Pc.isHanded]
  · rw [h.pc] at hp
    simp [Pc.busy, Pc.locks, Pc.isHanded] at hp
  · rw [h.pc] at hp
    exact absurd rfl hp
  · rw [h.pc] at hp
    cases hp
  · obtain ⟨all, hp⟩ := hp
    rw [h.pc] at hp
    cases hp
  all_goals try (rw [h.pc] at hp; cases hp)
  rw [h.sem, h.ledger]
  have hw : waiters k.pc k.wait s = fun _ => none := by
    funext q
    simp [waiters, h.pc, Pc.waiting]
  rw [hw]
  exact Sem.accounts_init (hu s)

omit [DecidableEq S] in
theorem not_activates_of (hp : pc p = v) (hv : ∀ s q all, v ≠ .posting s q all) (s : S) (q : ℕ) :
    ¬ Activates pc s p q := by
  rintro ⟨all, h⟩
  exact hv s q all (hp.symm.trans h)

/-- Nobody is about to activate a process that does not wait. -/
theorem Inv.not_target (h : Inv u k) (hp : (k.pc p).waiting = none) (r : ℕ) (s : S) :
    ¬ Activates k.pc s r p := by
  intro hr
  have := (h.ups.posting r s p hr).1
  rw [hp] at this
  cases this

/-- While the lock of a semaphore is free, nobody is about to activate one of its waiters. -/
theorem Inv.not_activates (h : Inv u k) (hs : k.lock s = none) (p q : ℕ) :
    ¬ Activates k.pc s p q := by
  rintro ⟨all, hp⟩
  have := (h.locks s p).mpr (by rw [hp]; rfl)
  rw [hs] at this
  cases this

/-- The units of one semaphore change hands without a waiter. -/
theorem Inv.setSem (h : Inv u k) {m : Sem ℕ} {l : Ledger}
    (hs : Sem.Accounts (u s) m l (waiters k.pc k.wait s)) : Inv u (k.setSem s m l) :=
  ⟨h.locks, h.rq, h.procs, h.ups, h.accounts.keep hs⟩

/-- The first part of a wait. -/
theorem Inv.waitSem (h : Inv u k) (hp : k.pc p = .out) (hs : k.lock s = none)
    (hcur : k.sched.Current p) (hni : k.sched.NonIdle p) : Inv u (k.waitSem p s kind) := by
  unfold State.waitSem
  generalize hd : (k.sem s).down p = r
  obtain ⟨m, b⟩ := r
  cases b with
  | true => exact h.setSem ((h.accounts s).take hd)
  | false =>
    have hnone : waiters k.pc k.wait s p = none := by simp [waiters, hp, Pc.waiting]
    refine ⟨h.locks.set (alone_of_out hp hs) (.inl ⟨rfl, rfl⟩), h.rq.move (by rw [hp]; rfl),
      h.procs.move (fun _ => hcur) (fun _ => hni) (fun _ _ hv => by cases hv), ?_, ?_⟩
    · refine (h.ups.setWait hp _).move (not_activates_of hp fun _ _ _ hv => by cases hv)
        (fun _ _ _ hv => by cases hv) (fun r t hr => (h.not_target (by rw [hp]; rfl) r t hr).elim) (fun t kind' _ => ?_)
        (fun _ _ hv => by cases hv) (fun _ _ hv => by cases hv)
      rw [Function.update_self]
    · have hw : waiters (Function.update k.pc p (.queued s kind))
          (Function.update k.wait p ⟨false, (k.ledger s).queued⟩) = _ :=
        waiters_enter (by rw [hp]; rfl) rfl _
      simp only [State.goto, State.setLock, State.setWait, State.setSem, hw]
      exact h.accounts.update ((h.accounts s).enqueue hnone hd)

/-- The scheduler lock is taken, and the lock of the semaphore let go. -/
theorem Inv.lockSched (h : Inv u k) (hp : k.pc p = .queued s kind) (hrq : k.rqlock = none) :
    Inv u { (k.setLock s none).goto p (.handed s kind) with rqlock := some p } := by
  have hcur : k.sched.Current p := h.procs.busy p (.inl (by simp [hp, Pc.locks]))
  have hni : k.sched.NonIdle p := h.procs.nonIdle p (by simp [hp, Pc.waiting])
  have hup := h.ups.queued p s kind hp
  have hrq' := h.rq
  rw [hrq] at hrq'
  have hact := not_activates_of hp fun _ _ _ hv => by cases hv
  refine ⟨h.locks.set (h.locks.alone (by rw [hp]; rfl)) (.inr ⟨rfl, rfl⟩), hrq'.take rfl,
    h.procs.move (fun _ => hcur) (fun _ => hni) (fun _ _ hv => by cases hv), ?_, ?_⟩
  · refine h.ups.move hact (fun _ _ _ hv => by cases hv) (fun r t hr => ?_)
      (fun _ _ _ => hup) (fun _ _ _ hu => ?_) (fun _ _ hv => by cases hv)
    · have := (h.ups.posting r t p hr).2
      rw [hup] at this
      cases this
    · rw [hup] at hu
      cases hu
  · simp only [State.goto, State.setLock]
    rw [waiters_move (by rw [hp]; rfl)]
    exact h.accounts

/-- A step of the scheduler that changes `p` only. -/
theorem Inv.frame (h : Inv u k) {τ : Sched ncpu} (hok : τ.Ok) (hf : Frame k.sched τ p)
    (hb : (k.pc p).busy → τ.Current p)
    (ha : ∀ s kind, k.pc p = .asleep s kind →
      Awake (τ.state p) ∨ (τ.state p = k.sched.state p ∧ ¬ Awake (k.sched.state p))) :
    Inv u { k with sched := τ } := by
  refine ⟨h.locks, h.rq, h.procs.frame hok hf hb fun s kind hp => ?_,
    h.ups.frame hf fun s kind hp hup => ?_, h.accounts⟩
  · refine (ha s kind hp).imp_right fun ⟨he, hn⟩ => ?_
    rw [he]
    exact (h.procs.asleep p s kind hp).resolve_left hn
  · rcases ha s kind hp with hw | ⟨-, hn⟩
    · exact .inl hw
    · exact .inr ((h.ups.asleep p s kind hp hup).resolve_left hn)

/-- `sched` of `_wait_sem`. -/
theorem Inv.sleep (h : Inv u k) (hp : k.pc (k.thisproc c) = .handed s kind) :
    ∃ τ, k.sched.sleep c kind.alertable = .ok τ ∧
      Inv u { k.goto (k.thisproc c) (.asleep s kind) with sched := τ, rqlock := none } ∧
      ((k.sched.proc (k.thisproc c)).map Proc.killed = some true ∨
        τ.state (k.thisproc c) = some kind.sleepState) := by
  have hni : k.sched.NonIdle (k.thisproc c) := h.procs.nonIdle _ (by simp [hp, Pc.waiting])
  have hasks : k.sched.Asks c kind.sleepState :=
    ⟨by cases kind <;> decide, fun he => absurd he (hni c)⟩
  obtain ⟨τ, hτ, hok, hf, hst⟩ := h.procs.ok.sched hasks
  change Frame k.sched τ (k.thisproc c) at hf
  have hhand : (k.pc (k.thisproc c)).isHanded = true := by rw [hp]; rfl
  have hstate : Awake (τ.state (k.thisproc c)) ∨ τ.state (k.thisproc c) = some kind.sleepState := by
    rcases hst with ⟨rfl, -⟩ | hst
    · exact .inl (h.procs.ok.awake_of_current ⟨c, rfl⟩)
    · exact .inr (hst (by cases kind <;> decide))
  -- the process moves first; then only its own state changes
  have hprocs : ProcOk τ (Function.update k.pc (k.thisproc c) (.asleep s kind)) := by
    refine ⟨hok, ?_, ?_, ?_⟩
    · refine (Function.forall_update_iff k.pc fun q v => v.busy → τ.Current q).mpr
        ⟨fun hb => ?_, fun q hq hb => hf.current q hq (h.procs.busy q hb)⟩
      simp [Pc.busy, Pc.locks, Pc.isHanded] at hb
    · exact (Function.forall_update_iff k.pc fun q v => v.waiting ≠ none → τ.NonIdle q).mpr
        ⟨fun _ => (hf.nonIdle _).mpr hni, fun q _ hw => (hf.nonIdle q).mpr (h.procs.nonIdle q hw)⟩
    · refine (Function.forall_update_iff k.pc fun q v => ∀ s kind, v = .asleep s kind →
        Awake (τ.state q) ∨ τ.state q = some kind.sleepState).mpr
        ⟨fun s' kind' hv => ?_, fun q hq s' kind' hv => ?_⟩
      · cases hv
        exact hstate
      · rcases h.procs.asleep q s' kind' hv with hw | he
        · exact .inl (hf.awake hq hw)
        · rcases hf.other q hq with h' | ⟨-, hw⟩
          · exact .inr (h'.trans he)
          · exact .inl hw
  have hups : UpOk τ (Function.update k.pc (k.thisproc c) (.asleep s kind)) k.wait := by
    refine UpOk.move (h.ups.frame hf fun s' kind' hv => ?_)
      (not_activates_of hp fun _ _ _ hv => by cases hv) (fun _ _ _ hv => by cases hv)
      (fun r t hr => ?_) (fun _ _ hv => by cases hv) (fun _ _ hv => by cases hv)
      (fun s' kind' hv hup => ?_)
    · rw [hp] at hv
      cases hv
    · have := (h.ups.posting r t _ hr).1
      rwa [hp] at this
    · cases hv
      exact .inr (h.ups.handed _ s kind hp hup)
  refine ⟨τ, hτ, ⟨h.locks.move (by rw [hp]; rfl), h.rq.drop hhand rfl, hprocs, hups, ?_⟩, ?_⟩
  · simp only [State.goto]
    rw [waiters_move (by rw [hp]; rfl)]
    exact h.accounts
  · rcases hst with ⟨-, hk⟩ | hst
    · exact .inl hk
    · exact .inr (hst (by cases kind <;> decide))

/-- A wait ends, and its `WaitData` is freed. -/
theorem Inv.leave (h : Inv u k) (hp : k.pc p = .asleep s kind) (hs : k.lock s = none)
    {m : Sem ℕ} {l : Ledger}
    (hm : Sem.Accounts (u s) m l (Function.update (waiters k.pc k.wait s) p none)) :
    Inv u ((k.setSem s m l).goto p .out) := by
  refine ⟨h.locks.move (by rw [hp]; rfl), h.rq.move (by rw [hp]; rfl),
    h.procs.move (fun hb => ?_) (fun hw => absurd rfl hw) (fun _ _ hv => by cases hv), ?_, ?_⟩
  · simp [Pc.busy, Pc.locks, Pc.isHanded] at hb
  · refine h.ups.move (not_activates_of hp fun _ _ _ hv => by cases hv) (fun _ _ _ hv => by cases hv)
      (fun r t hr => ?_) (fun _ _ hv => by cases hv) (fun _ _ hv => by cases hv)
      (fun _ _ hv => by cases hv)
    have ht := (h.ups.posting r t p hr).1
    rw [hp] at ht
    cases ht
    exact (h.not_activates hs r p hr).elim
  · have hw : waiters (Function.update k.pc p .out) k.wait = _ :=
      waiters_leave (by rw [hp]; rfl) rfl
    simp only [State.goto, State.setSem, hw]
    exact h.accounts.update hm

/-- The last part of a wait. Its assertion holds. -/
theorem Inv.wakeSem (h : Inv u k) (hp : k.pc p = .asleep s kind) (hs : k.lock s = none) :
    ∃ k', k.wakeSem p s kind = .ok k' ∧ Inv u k' ∧
      ((k.wait p).up = false → k'.panicked = (k.panicked || kind.panics)) ∧
      ((k.wait p).up = true → k'.panicked = k.panicked) := by
  have hw : waiters k.pc k.wait s p = some (k.wait p) := waiters_of_waiting (by rw [hp]; rfl)
  unfold State.wakeSem
  by_cases hup : (k.wait p).up = true
  · rw [if_pos hup]
    refine ⟨_, rfl, h.leave hp hs ((h.accounts s).woken hw hup), fun hf => ?_, fun _ => rfl⟩
    rw [hup] at hf
    cases hf
  · rw [if_neg hup]
    obtain ⟨m, hm, ha⟩ := (h.accounts s).interrupted hw (by simpa using hup)
    rw [hm]
    have hl := h.leave hp hs ha
    exact ⟨_, rfl, ⟨hl.locks, hl.rq, hl.procs, hl.ups, hl.accounts⟩, fun _ => rfl,
      fun hf => absurd hf hup⟩

/-- After a post: the lock is let go, or `post_all_sem` goes on. -/
theorem Inv.posted (h : Inv u k) (ha : Alone k.lock k.pc s p) (hw : (k.pc p).waiting = none)
    (hh : (k.pc p).isHanded = false) (hcur : k.sched.Current p)
    (hup : ∀ v, v.waiting = none → (∀ s q all, v ≠ .posting s q all) →
      UpOk k.sched (Function.update k.pc p v) k.wait) : Inv u (k.posted p s all) := by
  have hout : UpOk k.sched (Function.update k.pc p .out) k.wait :=
    hup .out rfl fun _ _ _ hv => by cases hv
  have hprocs : ProcOk k.sched (Function.update k.pc p .out) := by
    refine h.procs.move (fun hb => ?_) (fun hn => absurd rfl hn) (fun _ _ hv => by cases hv)
    simp [Pc.busy, Pc.locks, Pc.isHanded] at hb
  have hwait : ∀ v : Pc S, v.waiting = none →
      waiters (Function.update k.pc p v) k.wait = waiters k.pc k.wait := fun v hv =>
    waiters_move (hv.trans hw.symm)
  unfold State.posted
  split_ifs
  · unfold State.loopTest
    generalize hg : (k.sem s).get = r
    obtain ⟨m, b⟩ := r
    have hacc := (h.accounts s).get hg
    cases b with
    | true =>
      refine ⟨h.locks.set ha (.inr ⟨rfl, rfl⟩), h.rq.move hh.symm, hprocs, hout, ?_⟩
      simp only [State.goto, State.setLock, State.setSem]
      rw [hwait .out rfl]
      exact h.accounts.keep hacc
    | false =>
      refine ⟨h.locks.set ha (.inl ⟨rfl, rfl⟩), h.rq.move hh.symm,
        h.procs.move (fun _ => hcur) (fun hn => absurd rfl hn) (fun _ _ hv => by cases hv),
        hup (.looping s) rfl (fun _ _ _ hv => by cases hv), ?_⟩
      simp only [State.goto, State.setLock, State.setSem]
      rw [hwait (.looping s) rfl]
      exact h.accounts.keep hacc
  · refine ⟨h.locks.set ha (.inr ⟨rfl, rfl⟩), h.rq.move hh.symm, hprocs, hout, ?_⟩
    simp only [State.goto, State.setLock]
    rw [hwait .out rfl]
    exact h.accounts

/-- `_post_sem` marks the oldest waiter up, or leaves a unit. Its assertion holds. -/
theorem Inv.postSem (h : Inv u k) (ha : Alone k.lock k.pc s p) (hv : k.pc p = v)
    (hw : v.waiting = none) (hh : v.isHanded = false) (hvp : ∀ s q all, v ≠ .posting s q all)
    (hcur : k.sched.Current p) : ∃ k', k.postSem p s all = .ok k' ∧ Inv u k' := by
  have hact := not_activates_of hv hvp
  have hpw : (k.pc p).waiting = none := by rw [hv]; exact hw
  have hph : (k.pc p).isHanded = false := by rw [hv]; exact hh
  unfold State.postSem
  rcases (h.accounts s).ok.post_cases with ⟨q, rest, hl, hneg, hpost⟩ | ⟨hl, hnn, hpost⟩
  · rw [hpost]
    obtain ⟨x, hx, -, hacc⟩ := (h.accounts s).postWakes hpost
    obtain ⟨hq, rfl⟩ := waiters_eq_some.mp hx
    have hnq : ∀ t kind, k.pc q ≠ .queued t kind := by
      intro t kind' hq'
      rw [hq'] at hq
      cases hq
      have hlock := ha.1 q ((h.locks s q).mpr (by rw [hq']; rfl))
      rw [← hlock, hq'] at hpw
      cases hpw
    have hwm : waiters (Function.update k.pc p (.posting s q all))
        (Function.update k.wait q { k.wait q with up := true }) =
          Function.update (waiters k.pc k.wait) s (Function.update (waiters k.pc k.wait s) q
            (some { k.wait q with up := true })) := by
      rw [waiters_move (by rw [hpw]; rfl)]
      exact waiters_mark hq _
    refine ⟨_, rfl, h.locks.set ha (.inl ⟨rfl, rfl⟩), h.rq.move hph.symm,
      h.procs.move (fun _ => hcur) (fun hn => absurd rfl hn) (fun _ _ hv => by cases hv),
      h.ups.mark hact hpw hq hnq, ?_⟩
    simp only [State.goto, State.setLock, State.setWait, State.setSem, hwm]
    exact h.accounts.update hacc
  · rw [hpost]
    have hi := h.setSem ((h.accounts s).postLeaves hpost).1
    refine ⟨_, rfl, hi.posted ha hpw hph hcur fun v' hv1 hv2 => ?_⟩
    refine h.ups.move hact hv2 (fun r t hr => (h.not_target hpw r t hr).elim) ?_ ?_ ?_
    all_goals
      rintro t kind' rfl
      cases hv1

/-- The activation of a waiter that was marked up. -/
theorem Inv.activate (h : Inv u k) (hp : k.pc p = .posting s q all) (hrq : k.rqlock = none)
    (hcur : k.sched.Current p) :
    ∃ τ b, k.sched.activateProc q false = .ok (τ, b) ∧
      Inv u ({ k with sched := τ }.posted p s all) := by
  obtain ⟨hq, hup⟩ := h.ups.posting p s q ⟨all, hp⟩
  have hrq' := h.rq
  rw [hrq] at hrq'
  have hasleep : ∃ kind, k.pc q = .asleep s kind := by
    cases hpc : k.pc q with
    | queued t kind =>
      rw [h.ups.queued q t kind hpc] at hup
      cases hup
    | handed t kind =>
      have := hrq'.not_handed q
      rw [hpc] at this
      cases this
    | asleep t kind =>
      rw [hpc] at hq
      cases hq
      exact ⟨kind, rfl⟩
    | out => rw [hpc] at hq; cases hq
    | posting t r b => rw [hpc] at hq; cases hq
    | looping t => rw [hpc] at hq; cases hq
  obtain ⟨kind, hpc⟩ := hasleep
  have hst : ∃ x, k.sched.proc q = some x ∧
      (x.state = .running ∨ x.state = .runnable ∨ x.state = kind.sleepState) := by
    rcases h.procs.asleep q s kind hpc with (hs | hs) | hs
    all_goals
      obtain ⟨x, hx, hxs⟩ := exists_of_state hs
      exact ⟨x, hx, by simp [hxs]⟩
  obtain ⟨x, hx, hxs⟩ := hst
  obtain ⟨τ, b, hτ, hok, hf, hcpus, hcase⟩ := h.procs.ok.activateProc false hx
  have hawake : Awake (τ.state q) := by
    rcases hcase with ⟨rfl, hstay⟩ | ⟨hrun, -⟩
    · rw [Awake, Sched.state_eq hx]
      have hns : kind.sleepState = .sleeping ∨ kind.sleepState = .deepsleeping := by
        cases kind <;> decide
      rcases hxs with hs | hs | hs
      · exact .inl (congrArg some hs)
      · exact .inr (congrArg some hs)
      · rw [hs] at hstay
        rcases hns with hn | hn <;> simp [hn] at hstay
    · exact .inr hrun
  have hbusy : ¬ (k.pc q).busy := by
    rw [hpc]
    simp [Pc.busy, Pc.locks, Pc.isHanded]
  have hi : Inv u { k with sched := τ } :=
    h.frame hok hf (fun hb => absurd hb hbusy) fun _ _ _ => .inl hawake
  have hcur' : τ.Current p := by
    unfold Current at hcur ⊢
    rwa [hcpus]
  refine ⟨τ, b, hτ, hi.posted (h.locks.alone (by rw [hp]; rfl)) (by simp only [hp]; rfl)
    (by simp only [hp]; rfl) hcur' fun v hv1 hv2 => ?_⟩
  exact hi.ups.finish hp hawake hrq'.not_handed hv1 hv2

/-! ## Steps and runs -/

theorem Inv.busy_of_state (h : Inv u k) (h1 : k.sched.state p ≠ some .running) :
    ¬ (k.pc p).busy := by
  intro hb
  obtain ⟨c, rfl⟩ := h.procs.busy p hb
  exact h1 (h.procs.ok.current c)

/-- A process that waits exists and is no zombie. -/
theorem Inv.asleep_state (h : Inv u k) (hp : k.pc p = .asleep s kind) :
    k.sched.state p ≠ none ∧ k.sched.state p ≠ some .zombie ∧ k.sched.state p ≠ some .unused := by
  have hns : kind.sleepState = .sleeping ∨ kind.sleepState = .deepsleeping := by
    cases kind <;> decide
  rcases h.procs.asleep p s kind hp with (hs | hs) | hs
  · simp [hs]
  · simp [hs]
  · rcases hns with hn | hn <;> simp [hs, hn]

/-- What a step of the scheduler does to the processes in `sem.c`: a waiter stays as it
    is, or is awake afterwards, and then it was alerted. -/
theorem Inv.schedNext (h : Inv u k) {a : Sched.Action ncpu} (ha : k.SchedEnabled a) :
    ∃ τ, k.sched.next a = .ok τ ∧ Inv u { k with sched := τ } ∧
      ∀ q s kind, k.pc q = .asleep s kind →
        τ.state q = k.sched.state q ∨ Awake (k.sched.state q) ∨
          (a = .activate q true ∧ k.sched.state q ≠ some .deepsleeping) := by
  obtain ⟨τ, hτ, hok, hf⟩ := h.procs.ok.step ha.1
  have hothers : ∀ q s kind, q ≠ k.sched.subject a → k.pc q = .asleep s kind →
      τ.state q = k.sched.state q ∨ Awake (k.sched.state q) ∨
        (a = .activate q true ∧ k.sched.state q ≠ some .deepsleeping) := fun q s kind hq _ =>
    (hf.other q hq).imp_right fun hw => .inl hw.1
  have hsub : ((k.pc (k.sched.subject a)).busy → τ.Current (k.sched.subject a)) ∧
      ∀ s kind, k.pc (k.sched.subject a) = .asleep s kind →
        (τ.state (k.sched.subject a) = k.sched.state (k.sched.subject a) ∨
          (Awake (τ.state (k.sched.subject a)) ∧ a = .activate (k.sched.subject a) true ∧
            k.sched.state (k.sched.subject a) ≠ some .deepsleeping)) := by
    cases a with
    | yield c =>
      have hout : k.pc (k.sched.cpus c).thisproc = .out := ha.2.2
      refine ⟨fun hb => ?_, fun s kind hp => ?_⟩
      · simp [Sched.subject, hout, Pc.busy, Pc.locks, Pc.isHanded] at hb
      · simp [Sched.subject, hout] at hp
    | exit c =>
      have hout : k.pc (k.sched.cpus c).thisproc = .out := ha.2.2
      refine ⟨fun hb => ?_, fun s kind hp => ?_⟩
      · simp [Sched.subject, hout, Pc.busy, Pc.locks, Pc.isHanded] at hb
      · simp [Sched.subject, hout] at hp
    | sleep c alertable => exact ha.2.elim
    | activate p onalert =>
      obtain ⟨x, hx⟩ := Option.ne_none_iff_exists'.mp ha.1
      obtain ⟨t, b, ht, -, -, hcpus, hcase⟩ := h.procs.ok.activateProc onalert hx
      have he : τ = t := by
        rw [Sched.next, ht] at hτ
        cases hτ
        rfl
      subst he
      refine ⟨fun hb => ?_, fun s kind hp => ?_⟩
      · have hcur : k.sched.Current p := h.procs.busy p hb
        unfold Current at hcur ⊢
        rwa [hcpus]
      · rcases hcase with ⟨rfl, -⟩ | ⟨hrun, hw⟩
        · exact .inl rfl
        · cases onalert with
          | false => exact absurd (ha.2.2 rfl) (h.asleep_state hp).2.2
          | true =>
            refine .inr ⟨.inr hrun, rfl, ?_⟩
            rw [Sched.subject, Sched.state_eq hx]
            rcases hw with hw | hw | ⟨-, hw⟩
            · simp [hw]
            · simp [hw]
            · cases hw
    | wait p =>
      have hz : k.sched.state p = some .zombie := ha.1
      refine ⟨fun hb => absurd hb (h.busy_of_state (by simp [Sched.subject, hz])), fun s kind hp => ?_⟩
      exact absurd hz (h.asleep_state hp).2.1
    | create p =>
      have hn : k.sched.state p = none := by rw [Sched.state, show k.sched.proc p = none from ha.1]; rfl
      refine ⟨fun hb => absurd hb (h.busy_of_state (by simp [Sched.subject, hn])), fun s kind hp => ?_⟩
      exact absurd hn (h.asleep_state hp).1
    | kill p =>
      obtain ⟨x, hx⟩ := Option.ne_none_iff_exists'.mp ha.1
      have he : τ = k.sched.put p { x with killed := true } := by
        rw [Sched.next, dfsKill, deref_eq hx] at hτ
        cases hτ
        rfl
      subst he
      refine ⟨fun hb => h.procs.busy p hb, fun s kind hp => .inl ?_⟩
      rw [state_put, Sched.subject, Function.update_self, Sched.state_eq hx]
  refine ⟨τ, hτ, h.frame hok hf hsub.1 fun s kind hp => ?_, fun q s kind hq => ?_⟩
  · by_cases hw : Awake (τ.state (k.sched.subject a))
    · exact .inl hw
    · rcases hsub.2 s kind hp with he | ⟨hw', -⟩
      · exact .inr ⟨he, he ▸ hw⟩
      · exact absurd hw' hw
  · by_cases hqs : q = k.sched.subject a
    · subst hqs
      rcases hsub.2 s kind hq with he | ⟨-, ha', hd⟩
      · exact .inl he
      · exact .inr (.inr ⟨ha', hd⟩)
    · exact hothers q s kind hqs hq

/-- Every step meets no fault and keeps the invariant. -/
theorem Inv.step (h : Inv u k) {a : Action S} (ha : k.Enabled a) :
    ∃ k', k.next a = .ok k' ∧ Inv u k' := by
  have hcur : ∀ c, k.sched.Current (k.thisproc c) := fun c => ⟨c, rfl⟩
  obtain ⟨-, ha⟩ := ha
  cases a with
  | sched a =>
    obtain ⟨τ, hτ, hi, -⟩ := h.schedNext ha
    exact ⟨_, by simp only [State.next, State.setSched, hτ], hi⟩
  | wait c s kind =>
    have hni : k.sched.NonIdle (k.thisproc c) := fun d hd => ha.2.2 (by
      rw [h.procs.ok.own c d hd]
      rw [h.procs.ok.own c d hd] at hd
      exact hd)
    exact ⟨_, rfl, h.waitSem ha.1 ha.2.1 (hcur c) hni⟩
  | lockSched c =>
    cases hp : k.pc (k.thisproc c) with
    | queued s kind =>
      simp only [hp] at ha
      exact ⟨_, by simp only [State.next, hp], h.lockSched hp ha⟩
    | _ => simp [hp] at ha
  | sleep c =>
    cases hp : k.pc (k.thisproc c) with
    | handed s kind =>
      obtain ⟨τ, hτ, hi, -⟩ := h.sleep hp
      exact ⟨_, by simp only [State.next, hp, State.setSched, hτ], hi⟩
    | _ => simp [hp] at ha
  | wake c =>
    cases hp : k.pc (k.thisproc c) with
    | asleep s kind =>
      simp only [hp] at ha
      obtain ⟨k', hk, hi, -⟩ := h.wakeSem hp ha
      exact ⟨k', by simp only [State.next, hp, hk], hi⟩
    | _ => simp [hp] at ha
  | post c s =>
    exact h.postSem (alone_of_out ha.1 ha.2) ha.1 rfl rfl (fun _ _ _ hv => by cases hv) (hcur c)
  | postAll c s =>
    exact h.postSem (alone_of_out ha.1 ha.2) ha.1 rfl rfl (fun _ _ _ hv => by cases hv) (hcur c)
  | round c =>
    cases hp : k.pc (k.thisproc c) with
    | looping s =>
      simp only [State.next, hp]
      exact h.postSem (h.locks.alone (by rw [hp]; rfl)) hp rfl rfl (fun _ _ _ hv => by cases hv)
        (hcur c)
    | _ => simp [hp] at ha
  | activate c =>
    cases hp : k.pc (k.thisproc c) with
    | posting s q all =>
      simp only [hp] at ha
      obtain ⟨τ, b, hτ, hi⟩ := h.activate hp ha (hcur c)
      exact ⟨_, by simp only [State.next, hp, hτ], hi⟩
    | _ => simp [hp] at ha
  | get c s =>
    generalize hg : (k.sem s).get = r
    obtain ⟨m, b⟩ := r
    exact ⟨_, by simp only [State.next, hg], h.setSem ((h.accounts s).get hg)⟩
  | getAll c s =>
    simp only [State.next]
    split_ifs with hv
    · exact ⟨_, rfl, h.setSem ((h.accounts s).getAll hv)⟩
    · exact ⟨k, rfl, h⟩

theorem Run.semInv {k₀ : State S} (h : Run State.step State.Enabled k₀ k) (h0 : Inv u k₀) :
    Inv u k := by
  refine h.invariant h0 fun k a k' hk ha hs => ?_
  obtain ⟨k'', hk'', hi⟩ := hk.step ha
  rw [State.step, hk''] at hs
  cases hs
  exact hi

/-- `q` waits on `s` and a post marked it up. -/
def State.MarkedUp (k : State S) (s : S) (q : ℕ) : Prop :=
  (k.pc q).waiting = some s ∧ (k.wait q).up = true

theorem Inv.units (h : Inv u k) (s : S) :
    ((k.ledger s).returned + {q | k.MarkedUp s q}.ncard + (k.ledger s).taken : ℤ) +
      max (k.sem s).val 0 = u s + (k.ledger s).posted := by
  obtain ⟨marked, hm, hu⟩ := (h.accounts s).units
  have hset : {q | k.MarkedUp s q} = (marked : Set ℕ) := by
    ext q
    rw [Finset.mem_coe, hm]
    simp only [Set.mem_ofPred_eq, State.MarkedUp, waiters_eq_some]
    constructor
    · intro hq
      exact ⟨k.wait q, ⟨hq.1, rfl⟩, hq.2⟩
    · rintro ⟨x, ⟨hw, hx⟩, hup⟩
      exact ⟨hw, hx ▸ hup⟩
  rw [hset, Set.ncard_coe_finset]
  exact hu

/-- A waiter that was marked up is awake once its poster let the lock go. -/
theorem Inv.awake (h : Inv u k) (hs : k.lock s = none) (hq : k.MarkedUp s q) :
    Awake (k.sched.state q) := by
  obtain ⟨hw, hup⟩ := hq
  cases hp : k.pc q with
  | queued t kind =>
    rw [h.ups.queued q t kind hp] at hup
    cases hup
  | handed t kind => exact h.procs.ok.awake_of_current (h.procs.busy q (.inr (by rw [hp]; rfl)))
  | asleep t kind =>
    rw [hp] at hw
    cases hw
    rcases h.ups.asleep q s kind hp hup with ha | ⟨p, ha⟩
    · exact ha
    · exact (h.not_activates hs p q ha).elim
  | out => rw [hp] at hw; cases hw
  | posting t r b => rw [hp] at hw; cases hw
  | looping t => rw [hp] at hw; cases hw

theorem loopTest_wait (k : State S) (p : ℕ) (s : S) : (k.loopTest p s).wait = k.wait := by
  unfold State.loopTest
  split <;> rfl

theorem posted_wait (k : State S) (p : ℕ) (s : S) (all : Bool) :
    (k.posted p s all).wait = k.wait := by
  unfold State.posted
  split_ifs
  · exact loopTest_wait k p s
  · rfl

/-- `_post_sem` marks up the waiter that queued first. -/
theorem Inv.postSem_oldest (h : Inv u k) {k' : State S} (hk : k.postSem p s all = .ok k')
    (hq : (k.wait q).up = false) (hq' : (k'.wait q).up = true) :
    (k.pc q).waiting = some s ∧
      ∀ r ∈ (k.sem s).sleeplist, (k.wait q).ticket ≤ (k.wait r).ticket := by
  unfold State.postSem at hk
  rcases (h.accounts s).ok.post_cases with ⟨q', rest, hl, hneg, hpost⟩ | ⟨hl, hnn, hpost⟩
  · rw [hpost] at hk
    cases hk
    have he : q = q' := by
      by_contra hne
      simp only [State.goto, State.setLock, State.setWait, State.setSem] at hq'
      rw [Function.update_of_ne hne, hq] at hq'
      cases hq'
    subst he
    obtain ⟨x, hx, -, -⟩ := (h.accounts s).postWakes hpost
    obtain ⟨hw, rfl⟩ := waiters_eq_some.mp hx
    refine ⟨hw, fun r hr => ?_⟩
    obtain ⟨y, hy, -⟩ := ((h.accounts s).mem r).mp hr
    obtain ⟨-, rfl⟩ := waiters_eq_some.mp hy
    exact (h.accounts s).oldest hpost hx hr hy
  · rw [hpost] at hk
    cases hk
    rw [posted_wait] at hq'
    rw [show (k.setSem s _ _).wait q = k.wait q from rfl, hq] at hq'
    cases hq'

/-- A step that marks a waiter up is a post, and takes the waiter that queued first. -/
theorem Inv.oldest (h : Inv u k) {a : Action S} {k' : State S} (hk : k.next a = .ok k')
    (hq : (k.wait q).up = false) (hq' : (k'.wait q).up = true) :
    ∃ s, (k.pc q).waiting = some s ∧
      ∀ r ∈ (k.sem s).sleeplist, (k.wait q).ticket ≤ (k.wait r).ticket := by
  have hsame : k'.wait = k.wait → False := by
    intro e
    rw [e, hq] at hq'
    cases hq'
  cases a with
  | sched a =>
    refine (hsame ?_).elim
    simp only [State.next, State.setSched] at hk
    split at hk <;> cases hk
    rfl
  | wait c s kind =>
    simp only [State.next, State.waitSem] at hk
    cases hk
    by_cases he : q = k.thisproc c
    · subst he
      split at hq'
      · exact (hsame (by split <;> first | rfl | simp_all)).elim
      · simp only [State.goto, State.setLock, State.setWait, Function.update_self] at hq'
        cases hq'
    · split at hq'
      · rw [show (k.setSem s _ _).wait q = k.wait q from rfl, hq] at hq'
        cases hq'
      · simp only [State.goto, State.setLock, State.setWait, Function.update_of_ne he] at hq'
        rw [show (k.setSem s _ _).wait q = k.wait q from rfl, hq] at hq'
        cases hq'
  | lockSched c =>
    refine (hsame ?_).elim
    simp only [State.next] at hk
    split at hk <;> cases hk <;> rfl
  | sleep c =>
    refine (hsame ?_).elim
    simp only [State.next, State.setSched] at hk
    split at hk
    · split at hk <;> cases hk
      rfl
    · cases hk
      rfl
  | wake c =>
    refine (hsame ?_).elim
    simp only [State.next, State.wakeSem] at hk
    split at hk
    · split_ifs at hk
      · cases hk
        rfl
      · split at hk <;> cases hk
        rfl
    · cases hk
      rfl
  | post c s => exact ⟨s, h.postSem_oldest hk hq hq'⟩
  | postAll c s => exact ⟨s, h.postSem_oldest hk hq hq'⟩
  | round c =>
    simp only [State.next] at hk
    split at hk
    · exact ⟨_, h.postSem_oldest hk hq hq'⟩
    · cases hk
      exact (hsame rfl).elim
  | activate c =>
    refine (hsame ?_).elim
    simp only [State.next] at hk
    split at hk
    · split at hk <;> cases hk
      rw [posted_wait]
    · cases hk
      rfl
  | get c s =>
    refine (hsame ?_).elim
    simp only [State.next] at hk
    cases hk
    rfl
  | getAll c s =>
    refine (hsame ?_).elim
    simp only [State.next] at hk
    split_ifs at hk <;> cases hk <;> rfl

/-- At every point at which the lock of a semaphore is free: it has no sleeper when
    `val ≥ 0` and `-val` sleepers when `val < 0`; what it was initialised with and what
    was posted went to waits that returned `true`, to waiters that are marked up and to
    gets, or is still there; and a waiter that is marked up is RUNNABLE or RUNNING. The
    sleepers stand in the order in which they queued, a step that marks a waiter up
    takes the first of them, and no assertion of `sem.c` fails. -/
theorem semaphore_invariant {k₀ : State S} (hu : ∀ s, 0 ≤ u s) (h0 : k₀.Init u)
    (h : Run State.step State.Enabled k₀ k) :
    (∀ s, k.lock s = none →
      (0 ≤ (k.sem s).val → (k.sem s).sleeplist = []) ∧
      ((k.sem s).val < 0 → ((k.sem s).sleeplist.length : ℤ) = -(k.sem s).val) ∧
      ((k.ledger s).returned + {q | k.MarkedUp s q}.ncard + (k.ledger s).taken : ℤ) +
        max (k.sem s).val 0 = u s + (k.ledger s).posted ∧
      ∀ q, k.MarkedUp s q →
        k.sched.state q = some .runnable ∨ k.sched.state q = some .running) ∧
    (∀ s, (k.sem s).sleeplist.Pairwise fun a b => (k.wait a).ticket < (k.wait b).ticket) ∧
    ∀ a, k.Enabled a → ∃ k', k.next a = .ok k' ∧
      ∀ q, (k.wait q).up = false → (k'.wait q).up = true → ∃ s, (k.pc q).waiting = some s ∧
        ∀ r ∈ (k.sem s).sleeplist, (k.wait q).ticket ≤ (k.wait r).ticket := by
  have hi := Run.semInv h (inv_init h0 hu)
  refine ⟨fun s hs => ⟨(hi.accounts s).ok.nonneg, (hi.accounts s).ok.neg, hi.units s,
    fun q hq => (hi.awake hs hq).symm⟩, fun s => ?_, fun a ha => ?_⟩
  · refine (hi.accounts s).sorted.imp_of_mem fun {a b} ha hb hab => ?_
    obtain ⟨x, hx, -⟩ := ((hi.accounts s).mem a).mp ha
    obtain ⟨y, hy, -⟩ := ((hi.accounts s).mem b).mp hb
    obtain ⟨-, rfl⟩ := waiters_eq_some.mp hx
    obtain ⟨-, rfl⟩ := waiters_eq_some.mp hy
    exact hab _ _ hx hy
  · obtain ⟨k', hk, -⟩ := hi.step ha
    exact ⟨k', hk, fun q hq hq' => hi.oldest hk hq hq'⟩

/-! ## A run -/

/-- One semaphore with `v` units, and no process but the idle ones. -/
def State.boot (v : ℤ) : State Unit where
  sched := Sched.boot
  sem _ := Sem.init v
  lock _ := none
  rqlock := none
  pc _ := .out
  wait _ := ⟨false, 0⟩
  ledger _ := ⟨0, 0, 0, 0⟩
  panicked := false

theorem init_boot (v : ℤ) : (State.boot v).Init fun _ => v :=
  ⟨Sched.init_boot.ok, fun _ => rfl, fun _ => rfl, rfl, fun _ => rfl, fun _ => rfl, rfl⟩

/-- Process 1 runs on processor 0 and process 2 on processor 1. -/
def startTwo : List (Action Unit) :=
  [.sched (.create 1), .sched (.activate 1 false), .sched (.yield 0),
    .sched (.create 2), .sched (.activate 2 false), .sched (.yield 1)]

/-- Process 1 waits and sleeps, and a post of process 2 marks it up: the unit posted is
    with the one waiter that is marked up, and that waiter is awake. -/
theorem semaphore_invariant_post : ∃ k, Run State.step State.Enabled (State.boot 0) k ∧
    (k.ledger ()).posted = 1 ∧ {q | k.MarkedUp () q}.ncard = 1 ∧
    (k.sched.state 1 = some .runnable ∨ k.sched.state 1 = some .running) := by
  have hrun : (execIf State.step State.Enabled (State.boot 0)
      [startTwo, [.wait 0 () .wait, .lockSched 0, .sleep 0, .post 1 (), .activate 1]].flatten).map
        (fun k => (k.lock (), k.sem (), k.ledger (), k.pc 1, (k.wait 1).up)) =
      some (none, ⟨0, []⟩, ⟨1, 0, 0, 1⟩, .asleep () .wait, true) := by
    decide +kernel
  obtain ⟨k, hk, hv⟩ := Run.of_execIf_map hrun
  simp only [Prod.mk.injEq] at hv
  obtain ⟨hlock, hsem, hledger, hpc, hup⟩ := hv
  obtain ⟨-, -, hunits, hawake⟩ :=
    (semaphore_invariant (fun _ => le_rfl) (init_boot 0) hk).1 () hlock
  rw [hsem, hledger] at hunits
  refine ⟨k, hk, by rw [hledger], ?_, hawake 1 ⟨by rw [hpc]; rfl, hup⟩⟩
  simp only at hunits
  omega

end ShikiOS.Kernel
