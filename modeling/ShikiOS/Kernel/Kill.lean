import ShikiOS.Kernel.SemInvariant

/-!
# Killed processes and sleeps that must not fail

`unalertable_wait_sem` asserts that `_wait_sem` returned `true`, and `cache_end_op`
PANICs when it did not. `sched` returns at once for a killed process (sched.c:181-185),
whatever state it was asked for, so a killed process that finds no unit comes straight
back from `_wait_sem` with `false`, also when it is not alertable. And the wait of
`cache_end_op` is alertable, so an alert ends it.

Results:
* `kill_stops_kernel`: a process is killed before it waits for a sleep lock that is
  taken, and the kernel stops.
* `unalertable_wait_succeeds`: no such wait fails in a run in which no killed process
  goes to sleep in one and no sleeper of `cache_end_op` is alerted.
-/

namespace ShikiOS.Kernel

open ShikiOS.Lib Sched

variable {S : Type*} [DecidableEq S] {u : S → ℤ} {k k' k₀ : State S} {s s' : S} {p q : ℕ}
  {kind : WaitKind} {c : Fin ncpu}

/-- No killed process goes to sleep in a wait that must not fail, and no process that
    sleeps in `cache_end_op` is alerted before a post marked it up. -/
def Undisturbed (k : State S) : Action S → Prop
  | .sleep c =>
    match k.pc (k.thisproc c) with
    | .handed _ kind =>
      kind.panics = true → (k.sched.proc (k.thisproc c)).map Proc.killed = some false
    | _ => True
  | .sched (.activate p true) =>
    match k.pc p with
    | .asleep _ .endOp => k.sched.state p = some .sleeping → (k.wait p).up = true
    | _ => True
  | _ => True

instance (k : State S) : ∀ a, Decidable (Undisturbed k a)
  | .sleep c =>
    have dec : ∀ v : Pc S, Decidable (match v with
      | .handed _ kind =>
        kind.panics = true → (k.sched.proc (k.thisproc c)).map Proc.killed = some false
      | _ => True) := fun
      | .handed _ kind => inferInstanceAs (Decidable (kind.panics = true → _))
      | .out | .queued _ _ | .asleep _ _ | .posting _ _ _ | .looping _ =>
        inferInstanceAs (Decidable True)
    dec _
  | .sched (.activate p true) =>
    have dec : ∀ v : Pc S, Decidable (match v with
      | .asleep _ .endOp => k.sched.state p = some .sleeping → (k.wait p).up = true
      | _ => True) := fun
      | .asleep _ .endOp =>
        inferInstanceAs (Decidable (k.sched.state p = some .sleeping → (k.wait p).up = true))
      | .asleep _ .wait | .asleep _ .unalertable | .out | .queued _ _ | .handed _ _
      | .posting _ _ _ | .looping _ => inferInstanceAs (Decidable True)
    dec _
  | .sched (.activate _ false) | .sched (.yield _) | .sched (.exit _) | .sched (.sleep _ _)
  | .sched (.wait _) | .sched (.create _) | .sched (.kill _) | .wait _ _ _ | .lockSched _ | .wake _
  | .post _ _ | .postAll _ _ | .round _ | .activate _ | .get _ _ | .getAll _ _ =>
    inferInstanceAs (Decidable True)

/-- A process in a wait that must not fail sleeps, or was marked up. -/
def Firm (k : State S) : Prop :=
  ∀ p s kind, k.pc p = .asleep s kind → kind.panics = true →
    (k.wait p).up = true ∨ k.sched.state p = some kind.sleepState

theorem not_awake_sleepState (kind : WaitKind) : ¬ Awake (some kind.sleepState) := by
  cases kind <;> simp [Awake, WaitKind.sleepState, WaitKind.alertable]

/-- The process itself does not run again before it is marked up. -/
theorem Firm.up_of_current (h : Firm k) (hi : Inv u k) (hcur : k.sched.Current p)
    (hp : k.pc p = .asleep s kind) (hk : kind.panics = true) : (k.wait p).up = true := by
  refine (h p s kind hp hk).resolve_right fun hs => ?_
  have := hi.procs.ok.awake_of_current hcur
  rw [hs] at this
  exact not_awake_sleepState kind this

omit [DecidableEq S] in
/-- A step that lets the scheduler alone. -/
theorem Firm.move (h : Firm k) (hs : k'.sched = k.sched)
    (hpc : ∀ q s kind, k'.pc q = .asleep s kind → k.pc q = .asleep s kind)
    (hup : ∀ q s kind, k.pc q = .asleep s kind → (k.wait q).up = true → (k'.wait q).up = true) :
    Firm k' := by
  intro q t kind hq hk
  rw [hs]
  exact (h q t kind (hpc q t kind hq) hk).imp_left (hup q t kind (hpc q t kind hq))

omit [DecidableEq S] in
/-- A step of the scheduler after which only processes that were marked up are awake. -/
theorem Firm.frame (h : Firm k) {τ : Sched ncpu}
    (hst : ∀ q s kind, k.pc q = .asleep s kind → kind.panics = true → (k.wait q).up = false →
      ¬ Awake (k.sched.state q) → τ.state q = k.sched.state q) :
    Firm { k with sched := τ } := by
  intro q t kind hq hk
  by_cases hup : (k.wait q).up = true
  · exact .inl hup
  have hs := (h q t kind hq hk).resolve_left hup
  right
  rw [← hs]
  exact hst q t kind hq hk (by simpa using hup) (hs ▸ not_awake_sleepState kind)

omit [DecidableEq S] in
theorem pc_goto_asleep {v : Pc S} (hv : ∀ s kind, v ≠ .asleep s kind) :
    (k.goto p v).pc q = .asleep s kind → k.pc q = .asleep s kind := by
  intro h
  simp only [State.goto] at h
  by_cases hq : q = p
  · rw [hq, Function.update_self] at h
    exact absurd h (hv s kind)
  · rwa [Function.update_of_ne hq] at h

theorem posted_sched (all : Bool) : (k.posted p s all).sched = k.sched := by
  unfold State.posted State.loopTest
  split_ifs
  · split <;> rfl
  · rfl

theorem posted_panicked (all : Bool) : (k.posted p s all).panicked = k.panicked := by
  unfold State.posted State.loopTest
  split_ifs
  · split <;> rfl
  · rfl

theorem postSem_panicked {all : Bool} (hk : k.postSem p s all = .ok k') :
    k'.panicked = k.panicked := by
  unfold State.postSem at hk
  split at hk
  · cases hk
  · cases hk
    rw [posted_panicked]
    rfl
  · cases hk
    rfl

theorem posted_pc (all : Bool) (h : (k.posted p s all).pc q = .asleep s' kind) :
    k.pc q = .asleep s' kind := by
  unfold State.posted State.loopTest at h
  split_ifs at h
  · split at h
    · exact pc_goto_asleep (k := (k.setSem s _ _).setLock s _) (fun _ _ hv => by cases hv) h
    · exact pc_goto_asleep (k := (k.setSem s _ _).setLock s _) (fun _ _ hv => by cases hv) h
  · exact pc_goto_asleep (k := k.setLock s none) (fun _ _ hv => by cases hv) h

theorem Firm.posted (h : Firm k) (all : Bool) : Firm (k.posted p s all) := by
  refine h.move (posted_sched all) (fun q t kind hq => posted_pc all hq) fun q t kind _ hup => ?_
  rwa [posted_wait]

theorem Firm.setSem (h : Firm k) (m : Sem ℕ) (l : Ledger) : Firm (k.setSem s m l) :=
  h.move rfl (fun _ _ _ hq => hq) fun _ _ _ _ hup => hup

theorem Firm.postSem {all : Bool} (h : Firm k) (hk : k.postSem p s all = .ok k') : Firm k' := by
  unfold State.postSem at hk
  split at hk
  · cases hk
  · cases hk
    exact (h.setSem _ _).posted all
  · cases hk
    refine h.move rfl (fun q t kind hq => pc_goto_asleep (fun _ _ hv => by cases hv) hq)
      fun q t kind hq hup => ?_
    rename_i r _ _
    by_cases hqr : q = r
    · simp only [State.goto, State.setLock, State.setWait, hqr, Function.update_self]
    · simp only [State.goto, State.setLock, State.setWait, Function.update_of_ne hqr]
      exact hup

/-- `_activate_proc` reads the process. -/
theorem activateProc_proc {σ τ : Sched ncpu} {onalert b : Bool}
    (h : σ.activateProc p onalert = .ok (τ, b)) : ∃ x, σ.proc p = some x := by
  cases hx : σ.proc p with
  | some x => exact ⟨x, rfl⟩
  | none =>
    rw [Sched.activateProc, Sched.deref, hx] at h
    cases h

/-- Every step that meets the condition keeps the sleeps firm and the kernel running. -/
theorem Firm.step (h : Firm k) (hi : Inv u k) {a : Action S} (ha : k.Enabled a)
    (hu : Undisturbed k a) (hk : k.next a = .ok k') : Firm k' ∧ k'.panicked = false := by
  have hrun := ha.1
  have hcur : ∀ c, k.sched.Current (k.thisproc c) := fun c => ⟨c, rfl⟩
  replace ha := ha.2
  cases a with
  | sched a =>
    obtain ⟨τ, hτ, -, hst⟩ := hi.schedNext ha
    simp only [State.next, State.setSched, hτ] at hk
    cases hk
    refine ⟨h.frame fun q s kind hq hp hup hna => ?_, hrun⟩
    rcases hst q s kind hq with he | hw | ⟨rfl, hd⟩
    · exact he
    · exact absurd hw hna
    · have hs := (hi.procs.asleep q s kind hq).resolve_left hna
      cases kind with
      | wait => cases hp
      | unalertable => exact absurd hs hd
      | endOp =>
        simp only [Undisturbed, hq] at hu
        rw [hu hs] at hup
        cases hup
  | wait c s kind =>
    simp only [State.next, State.waitSem] at hk
    split at hk
    · cases hk
      exact ⟨h.setSem _ _, hrun⟩
    · cases hk
      refine ⟨h.move rfl (fun q t kind hq => pc_goto_asleep (fun _ _ hv => by cases hv) hq)
        fun q t kind hq hup => ?_, hrun⟩
      have hne : q ≠ k.thisproc c := by
        rintro rfl
        rw [ha.1] at hq
        cases hq
      simp only [State.goto, State.setLock, State.setWait, Function.update_of_ne hne]
      exact hup
  | lockSched c =>
    simp only [State.next] at hk
    split at hk <;> cases hk
    · exact ⟨h.move rfl (fun q t kind hq => pc_goto_asleep (fun _ _ hv => by cases hv) hq)
        fun _ _ _ _ hup => hup, hrun⟩
    · exact ⟨h, hrun⟩
  | sleep c =>
    cases hp : k.pc (k.thisproc c) with
    | handed s kind =>
      obtain ⟨τ, hτ, hi', hst⟩ := hi.sleep hp
      simp only [State.next, hp, State.setSched, hτ] at hk
      cases hk
      simp only [Undisturbed, hp] at hu
      refine ⟨fun q t kind' hq hk' => ?_, hrun⟩
      by_cases hqp : q = k.thisproc c
      · subst hqp
        simp only [State.goto, Function.update_self] at hq
        cases hq
        rcases hst with hkill | hs
        · rw [hu hk'] at hkill
          cases hkill
        · exact .inr hs
      · simp only [State.goto, Function.update_of_ne hqp] at hq
        refine (h q t kind' hq hk').imp_right fun hs => ?_
        have hna : ¬ Awake (k.sched.state q) := hs ▸ not_awake_sleepState kind'
        have hasks : k.sched.Asks c kind.sleepState := by
          have hni : k.sched.NonIdle (k.thisproc c) :=
            hi.procs.nonIdle _ (by simp [hp, Pc.waiting])
          exact ⟨by cases kind <;> decide, fun he => absurd he (hni c)⟩
        obtain ⟨τ', hτ', -, hf, -⟩ := hi.procs.ok.sched hasks
        have he : τ = τ' := Except.ok.inj (hτ.symm.trans hτ')
        subst he
        exact (hf.state_eq hqp hna).trans hs
    | _ => simp [hp] at ha
  | wake c =>
    cases hp : k.pc (k.thisproc c) with
    | asleep s kind =>
      simp only [hp] at ha
      obtain ⟨k₁, hk₁, -, hf, ht⟩ := hi.wakeSem hp ha
      simp only [State.next, hp] at hk
      have he : k₁ = k' := Except.ok.inj (hk₁.symm.trans hk)
      subst he
      refine ⟨?_, ?_⟩
      · unfold State.wakeSem at hk₁
        split_ifs at hk₁
        · cases hk₁
          exact h.move rfl (fun q t kind hq => pc_goto_asleep (fun _ _ hv => by cases hv) hq)
            fun _ _ _ _ hup => hup
        · split at hk₁ <;> cases hk₁
          exact h.move rfl (fun q t kind hq => pc_goto_asleep (k := k.setSem s _ _)
            (fun _ _ hv => by cases hv) hq) fun _ _ _ _ hup => hup
      · by_cases hup : (k.wait (k.thisproc c)).up = true
        · rw [ht hup, hrun]
        · have hn : kind.panics = false := by
            by_contra hc
            exact hup (h.up_of_current hi (hcur c) hp (by simpa using hc))
          rw [hf (by simpa using hup), hrun, hn]
          rfl
    | _ => simp [hp] at ha
  | post c s => exact ⟨h.postSem hk, (postSem_panicked hk).trans hrun⟩
  | postAll c s => exact ⟨h.postSem hk, (postSem_panicked hk).trans hrun⟩
  | round c =>
    simp only [State.next] at hk
    split at hk
    · exact ⟨h.postSem hk, (postSem_panicked hk).trans hrun⟩
    · cases hk
      exact ⟨h, hrun⟩
  | activate c =>
    cases hp : k.pc (k.thisproc c) with
    | posting s q all =>
      obtain ⟨hw, hup⟩ := hi.ups.posting (k.thisproc c) s q ⟨all, hp⟩
      simp only [State.next, hp] at hk
      split at hk
      · next τ b hτ =>
        cases hk
        have hf : Frame k.sched τ q := by
          obtain ⟨x, hx⟩ := activateProc_proc hτ
          obtain ⟨τ', b', hτ', -, hf, -⟩ := hi.procs.ok.activateProc false hx
          rw [hτ] at hτ'
          cases hτ'
          exact hf
        have hframe : Firm { k with sched := τ } := by
          refine h.frame fun r t kind' _ _ hr hna => hf.state_eq (fun e : r = q => ?_) hna
          rw [e, hup] at hr
          cases hr
        exact ⟨hframe.posted all, by rw [posted_panicked]; exact hrun⟩
      · cases hk
    | _ => simp [hp] at ha
  | get c s =>
    simp only [State.next] at hk
    cases hk
    exact ⟨h.setSem _ _, hrun⟩
  | getAll c s =>
    simp only [State.next] at hk
    split_ifs at hk
    · cases hk
      exact ⟨h.setSem _ _, hrun⟩
    · cases hk
      exact ⟨h, hrun⟩

theorem Run.firm (h : Run State.step (fun k a => k.Enabled a ∧ Undisturbed k a) k₀ k)
    (h0 : Inv u k₀) (hf : Firm k₀) (hp : k₀.panicked = false) :
    Inv u k ∧ Firm k ∧ k.panicked = false := by
  refine Run.invariant (I := fun k => Inv u k ∧ Firm k ∧ k.panicked = false) h ⟨h0, hf, hp⟩
    fun k a k' hk ha hs => ?_
  obtain ⟨k'', hk'', hi⟩ := hk.1.step ha.1
  rw [State.step, hk''] at hs
  cases hs
  exact ⟨hi, hk.2.1.step hk.1 ha.1 ha.2 hk''⟩

/-- In a run in which no killed process goes to sleep in a wait that must not fail, and
    no sleeper of `cache_end_op` is alerted, a process that comes back from such a wait
    was marked up by a post, and no caller of `_wait_sem` stops the kernel. -/
theorem unalertable_wait_succeeds (hu : ∀ s, 0 ≤ u s) (h0 : k₀.Init u)
    (h : Run State.step (fun k a => k.Enabled a ∧ Undisturbed k a) k₀ k) :
    (∀ c s kind, k.pc (k.thisproc c) = .asleep s kind → kind ≠ .wait →
      (k.wait (k.thisproc c)).up = true) ∧ k.panicked = false := by
  have hfirm : Firm k₀ := by
    intro p s kind hp
    rw [h0.pc] at hp
    cases hp
  obtain ⟨hi, hf, hp⟩ := Run.firm h (inv_init h0 hu) hfirm h0.panicked
  refine ⟨fun c s kind hpc hk => hf.up_of_current hi ⟨c, rfl⟩ hpc ?_, hp⟩
  cases kind with
  | wait => exact absurd rfl hk
  | unalertable => rfl
  | endOp => rfl

/-- A process that is killed while it sleeps for a sleep lock gets the lock. -/
theorem unalertable_wait_succeeds_killed : ∃ k,
    Run State.step (fun k a => k.Enabled a ∧ Undisturbed k a) (State.boot 1) k ∧
    (k.sched.proc (k.thisproc 1)).map Proc.killed = some true ∧
    (k.wait (k.thisproc 1)).up = true := by
  have hrun : (execIf State.step (fun k a => k.Enabled a ∧ Undisturbed k a) (State.boot 1)
      [startTwo, [.wait 0 () .unalertable, .wait 1 () .unalertable, .lockSched 1, .sleep 1,
        .sched (.kill 2), .sched (.activate 2 true), .post 0 (), .activate 0,
        .sched (.yield 1)]].flatten).map
        (fun k => ((k.sched.proc (k.thisproc 1)).map Proc.killed, k.pc (k.thisproc 1))) =
      some (some true, .asleep () .unalertable) := by
    decide +kernel
  obtain ⟨k, hk, hv⟩ := Run.of_execIf_map hrun
  rw [Prod.mk.injEq] at hv
  have hup := (unalertable_wait_succeeds (fun _ => by decide) (init_boot 1) hk).1 1 () .unalertable
    hv.2 (by decide)
  exact ⟨k, hk, hv.1, hup⟩

/-- Process 1 holds a sleep lock. Process 2 is killed and then asks for the lock:
    `sched` sends it straight back, its wait returns `false`, and the assertion of
    `unalertable_wait_sem` stops the kernel. -/
theorem kill_stops_kernel : ∃ k, Run State.step State.Enabled (State.boot 1) k ∧
    k.pc (k.thisproc 1) = .asleep () .unalertable ∧ (k.wait (k.thisproc 1)).up = false ∧
    k.Enabled (.wake 1) ∧ (k.next (.wake 1)).toOption.map State.panicked = some true := by
  have hrun : (execIf State.step State.Enabled (State.boot 1)
      [startTwo, [.wait 0 () .unalertable, .sched (.kill 2), .wait 1 () .unalertable,
        .lockSched 1, .sleep 1]].flatten).map
        (fun k => (k.pc (k.thisproc 1), (k.wait (k.thisproc 1)).up, decide (k.Enabled (.wake 1)),
          (k.next (.wake 1)).toOption.map State.panicked)) =
      some (.asleep () .unalertable, false, true, some true) := by
    decide +kernel
  obtain ⟨k, hk, hv⟩ := Run.of_execIf_map hrun
  simp only [Prod.mk.injEq, decide_eq_true_eq] at hv
  exact ⟨k, hk, hv⟩

end ShikiOS.Kernel
