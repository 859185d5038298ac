import ShikiOS.Kernel.SemModel

/-!
# Locks, waiters and units

The parts of the invariant of `ShikiOS.Kernel.SemModel`, each about a different piece
of the state: who holds which lock (`LockOk`, `RqOk`), where a process can be while
the scheduler has it in which state (`ProcOk`), who is about to activate a waiter that
was marked up (`UpOk`), and the units of each semaphore (`AllAccounts`). For each part
there is a lemma for each way in which a step can change it.

Results:
* `LockOk.set`, `RqOk.take`, `RqOk.drop`: a lock is taken or let go.
* `ProcOk.frame`, `UpOk.frame`: a step of the scheduler.
* `UpOk.mark`, `UpOk.finish`: a post marks a waiter up, and activates it.
* `waiters_enter`, `waiters_mark`, `waiters_leave`: the life of a `WaitData`.
-/

namespace ShikiOS.Kernel

open ShikiOS.Lib Sched

variable {S : Type*} [DecidableEq S]

/-! ## Who holds which lock -/

/-- The semaphore whose lock the process holds. -/
def Pc.locks : Pc S → Option S
  | .queued s _ | .posting s _ _ | .looping s => some s
  | .out | .handed _ _ | .asleep _ _ => none

/-- The process holds the scheduler lock. -/
def Pc.isHanded : Pc S → Bool
  | .handed _ _ => true
  | _ => false

/-- The semaphore that the process waits on, from `_insert_into_list` to `kfree`. -/
def Pc.waiting : Pc S → Option S
  | .queued s _ | .handed s _ | .asleep s _ => some s
  | .out | .posting _ _ _ | .looping _ => none

/-- The process is in the middle of a call and did not give its processor away. -/
def Pc.busy (v : Pc S) : Prop := v.locks ≠ none ∨ v.isHanded = true

variable {lock : S → Option ℕ} {rqlock : Option ℕ} {pc : ℕ → Pc S} {wait : ℕ → Waiter}
  {σ τ : Sched ncpu} {s : S} {p q : ℕ} {v : Pc S} {kind : WaitKind} {all : Bool}

/-- The locks of the semaphores are held by the processes that stand where they are held. -/
def LockOk (lock : S → Option ℕ) (pc : ℕ → Pc S) : Prop :=
  ∀ s p, lock s = some p ↔ (pc p).locks = some s

/-- The same for the scheduler lock. -/
def RqOk (rqlock : Option ℕ) (pc : ℕ → Pc S) : Prop :=
  ∀ p, rqlock = some p ↔ (pc p).isHanded = true

/-- `p` holds no lock but perhaps that of `s`, and nobody else holds that one. -/
def Alone (lock : S → Option ℕ) (pc : ℕ → Pc S) (s : S) (p : ℕ) : Prop :=
  (∀ q, lock s = some q → q = p) ∧ ∀ t, (pc p).locks = some t → t = s

omit [DecidableEq S] in
theorem alone_of_out (hp : pc p = .out) (hs : lock s = none) : Alone lock pc s p := by
  refine ⟨fun q hq => ?_, fun t ht => ?_⟩
  · rw [hs] at hq
    cases hq
  · rw [hp] at ht
    cases ht

omit [DecidableEq S] in
theorem LockOk.alone (h : LockOk lock pc) (hp : (pc p).locks = some s) : Alone lock pc s p := by
  have hs := (h s p).mpr hp
  refine ⟨fun q hq => ?_, fun t ht => ?_⟩
  · rw [hs, Option.some.injEq] at hq
    exact hq.symm
  · rw [hp, Option.some.injEq] at ht
    exact ht.symm

omit [DecidableEq S] in
theorem LockOk.move (h : LockOk lock pc) (hv : v.locks = (pc p).locks) :
    LockOk lock (Function.update pc p v) := by
  intro s q
  by_cases hq : q = p
  · subst hq
    rw [Function.update_self, hv]
    exact h s q
  · rw [Function.update_of_ne hq]
    exact h s q

theorem LockOk.set (h : LockOk lock pc) (ha : Alone lock pc s p) {o : Option ℕ}
    (ho : o = some p ∧ v.locks = some s ∨ o = none ∧ v.locks = none) :
    LockOk (Function.update lock s o) (Function.update pc p v) := by
  intro t q
  by_cases ht : t = s <;> by_cases hq : q = p
  · subst ht; subst hq
    rw [Function.update_self, Function.update_self]
    rcases ho with ⟨rfl, hv⟩ | ⟨rfl, hv⟩ <;> simp [hv]
  · subst ht
    rw [Function.update_self, Function.update_of_ne hq, ← h]
    have hno : lock t ≠ some q := fun hl => hq (ha.1 q hl)
    rcases ho with ⟨rfl, -⟩ | ⟨rfl, -⟩
    · simp [hno, Ne.symm hq]
    · simp [hno]
  · subst hq
    rw [Function.update_of_ne ht, Function.update_self, h]
    have hno : (pc q).locks ≠ some t := fun hl => ht (ha.2 t hl)
    rcases ho with ⟨-, hv⟩ | ⟨-, hv⟩
    · simp [hno, hv, Ne.symm ht]
    · simp [hno, hv]
  · rw [Function.update_of_ne ht, Function.update_of_ne hq]
    exact h t q

omit [DecidableEq S] in
theorem RqOk.move (h : RqOk rqlock pc) (hv : v.isHanded = (pc p).isHanded) :
    RqOk rqlock (Function.update pc p v) := by
  intro q
  by_cases hq : q = p
  · subst hq
    rw [Function.update_self, hv]
    exact h q
  · rw [Function.update_of_ne hq]
    exact h q

omit [DecidableEq S] in
theorem RqOk.take (h : RqOk none pc) (hv : v.isHanded = true) :
    RqOk (some p) (Function.update pc p v) := by
  intro q
  by_cases hq : q = p
  · subst hq
    simp [Function.update_self, hv]
  · rw [Function.update_of_ne hq, ← h]
    simp [Ne.symm hq]

omit [DecidableEq S] in
theorem RqOk.drop (h : RqOk rqlock pc) (hp : (pc p).isHanded = true) (hv : v.isHanded = false) :
    RqOk none (Function.update pc p v) := by
  have hrq := (h p).mpr hp
  intro q
  by_cases hq : q = p
  · subst hq
    simp [Function.update_self, hv]
  · rw [Function.update_of_ne hq, ← h, hrq]
    simp [Ne.symm hq]

omit [DecidableEq S] in
theorem RqOk.not_handed (h : RqOk none pc) (p : ℕ) : (pc p).isHanded = false := by
  by_contra hc
  have := (h p).mpr (by simpa using hc)
  cases this

/-! ## Processes and the scheduler -/

/-- A process in the middle of a call runs, idle processes do not wait, and a waiter is
    awake or sleeps the way it asked for. -/
structure ProcOk (σ : Sched ncpu) (pc : ℕ → Pc S) : Prop where
  ok : σ.Ok
  busy : ∀ p, (pc p).busy → σ.Current p
  nonIdle : ∀ p, (pc p).waiting ≠ none → σ.NonIdle p
  asleep : ∀ p s kind, pc p = .asleep s kind →
    Awake (σ.state p) ∨ σ.state p = some kind.sleepState

omit [DecidableEq S] in
theorem ProcOk.move (h : ProcOk σ pc) (hb : v.busy → σ.Current p)
    (hn : v.waiting ≠ none → σ.NonIdle p)
    (ha : ∀ s kind, v = .asleep s kind → Awake (σ.state p) ∨ σ.state p = some kind.sleepState) :
    ProcOk σ (Function.update pc p v) := by
  refine ⟨h.ok, ?_, ?_, ?_⟩
  · exact (Function.forall_update_iff pc fun q v => v.busy → σ.Current q).mpr
      ⟨hb, fun q _ => h.busy q⟩
  · exact (Function.forall_update_iff pc fun q v => v.waiting ≠ none → σ.NonIdle q).mpr
      ⟨hn, fun q _ => h.nonIdle q⟩
  · exact (Function.forall_update_iff pc fun q v => ∀ s kind, v = .asleep s kind →
      Awake (σ.state q) ∨ σ.state q = some kind.sleepState).mpr ⟨ha, fun q _ => h.asleep q⟩

omit [DecidableEq S] in
/-- A step of the scheduler that changes `p` only. -/
theorem ProcOk.frame (h : ProcOk σ pc) (hok : τ.Ok) (hf : Frame σ τ p)
    (hb : (pc p).busy → τ.Current p)
    (ha : ∀ s kind, pc p = .asleep s kind →
      Awake (τ.state p) ∨ τ.state p = some kind.sleepState) : ProcOk τ pc := by
  refine ⟨hok, fun q hq => ?_, fun q hq => (hf.nonIdle q).mpr (h.nonIdle q hq), fun q s kind hq => ?_⟩
  · by_cases hqp : q = p
    · subst hqp
      exact hb hq
    · exact hf.current q hqp (h.busy q hq)
  · by_cases hqp : q = p
    · subst hqp
      exact ha s kind hq
    · rcases h.asleep q s kind hq with hw | hs
      · exact .inl (hf.awake hqp hw)
      · rcases hf.other q hqp with he | ⟨-, hw⟩
        · exact .inr (he.trans hs)
        · exact .inl hw

/-! ## Waiters that were marked up -/

/-- `p` is about to activate `q`, which it marked up on `s`. -/
def Activates (pc : ℕ → Pc S) (s : S) (p q : ℕ) : Prop := ∃ all, pc p = .posting s q all

/-- A post marks a waiter up and then activates it; until then it holds the lock. -/
structure UpOk (σ : Sched ncpu) (pc : ℕ → Pc S) (wait : ℕ → Waiter) : Prop where
  posting : ∀ p s q, Activates pc s p q → (pc q).waiting = some s ∧ (wait q).up = true
  queued : ∀ p s kind, pc p = .queued s kind → (wait p).up = false
  handed : ∀ q s kind, pc q = .handed s kind → (wait q).up = true → ∃ p, Activates pc s p q
  asleep : ∀ q s kind, pc q = .asleep s kind → (wait q).up = true →
    Awake (σ.state q) ∨ ∃ p, Activates pc s p q

omit [DecidableEq S] in
theorem activates_update_of_ne {r : ℕ} (h : r ≠ p) :
    Activates (Function.update pc p v) s r q ↔ Activates pc s r q := by
  unfold Activates
  rw [Function.update_of_ne h]

omit [DecidableEq S] in
/-- A process that posts neither before nor after moves from one place to another. -/
theorem UpOk.move (h : UpOk σ pc wait) (hp : ∀ s q, ¬ Activates pc s p q)
    (hv : ∀ s q all, v ≠ .posting s q all)
    (hw : ∀ r s, Activates pc s r p → v.waiting = some s)
    (hq : ∀ s kind, v = .queued s kind → (wait p).up = false)
    (hh : ∀ s kind, v = .handed s kind → (wait p).up = true → ∃ r, Activates pc s r p)
    (ha : ∀ s kind, v = .asleep s kind → (wait p).up = true →
      Awake (σ.state p) ∨ ∃ r, Activates pc s r p) :
    UpOk σ (Function.update pc p v) wait := by
  have hact : ∀ s r q, Activates (Function.update pc p v) s r q ↔ Activates pc s r q := by
    intro s r q
    by_cases hr : r = p
    · subst hr
      refine ⟨fun hr => ?_, fun hr => (hp s q hr).elim⟩
      obtain ⟨all, hr⟩ := hr
      rw [Function.update_self] at hr
      exact (hv s q all hr).elim
    · exact activates_update_of_ne hr
  refine ⟨fun r s q hr => ?_, ?_, ?_, ?_⟩
  · rw [hact] at hr
    obtain ⟨h1, h2⟩ := h.posting r s q hr
    refine ⟨?_, h2⟩
    by_cases hqp : q = p
    · subst hqp
      rw [Function.update_self]
      exact hw r s hr
    · rwa [Function.update_of_ne hqp]
  · exact (Function.forall_update_iff pc fun q v => ∀ s kind, v = .queued s kind →
      (wait q).up = false).mpr ⟨hq, fun q _ => h.queued q⟩
  · simp only [hact]
    exact (Function.forall_update_iff pc fun q v => ∀ s kind, v = .handed s kind →
      (wait q).up = true → ∃ r, Activates pc s r q).mpr ⟨hh, fun q _ => h.handed q⟩
  · simp only [hact]
    exact (Function.forall_update_iff pc fun q v => ∀ s kind, v = .asleep s kind →
      (wait q).up = true → Awake (σ.state q) ∨ ∃ r, Activates pc s r q).mpr
        ⟨ha, fun q _ => h.asleep q⟩

omit [DecidableEq S] in
/-- A step of the scheduler after which `p` is awake if it was marked up. -/
theorem UpOk.frame (h : UpOk σ pc wait) (hf : Frame σ τ p)
    (ha : ∀ s kind, pc p = .asleep s kind → (wait p).up = true →
      Awake (τ.state p) ∨ ∃ r, Activates pc s r p) : UpOk τ pc wait := by
  refine ⟨h.posting, h.queued, h.handed, fun q s kind hq hup => ?_⟩
  by_cases hqp : q = p
  · subst hqp
    exact ha s kind hq hup
  · exact (h.asleep q s kind hq hup).imp_left (hf.awake hqp)

omit [DecidableEq S] in
/-- A process outside of `sem.c` has no `WaitData`. -/
theorem UpOk.setWait (h : UpOk σ pc wait) (hp : pc p = .out) (x : Waiter) :
    UpOk σ pc (Function.update wait p x) := by
  have hne : ∀ q, pc q ≠ .out → Function.update wait p x q = wait q := fun q hq =>
    Function.update_of_ne (fun e : q = p => hq (e ▸ hp)) _ _
  refine ⟨fun r s q hr => ?_, fun q s kind hq => ?_, fun q s kind hq => ?_, fun q s kind hq => ?_⟩
  · obtain ⟨h1, h2⟩ := h.posting r s q hr
    rw [hne q fun e => by rw [e] at h1; cases h1]
    exact ⟨h1, h2⟩
  · rw [hne q (by simp [hq])]
    exact h.queued q s kind hq
  · rw [hne q (by simp [hq])]
    exact h.handed q s kind hq
  · rw [hne q (by simp [hq])]
    exact h.asleep q s kind hq

omit [DecidableEq S] in
/-- `p` marks `q` up and is going to activate it. -/
theorem UpOk.mark (h : UpOk σ pc wait) (hp : ∀ s q, ¬ Activates pc s p q)
    (hpw : (pc p).waiting = none) (hq : (pc q).waiting = some s)
    (hnq : ∀ s kind, pc q ≠ .queued s kind) :
    UpOk σ (Function.update pc p (.posting s q all))
      (Function.update wait q { wait q with up := true }) := by
  have hne : q ≠ p := by
    rintro rfl
    rw [hpw] at hq
    cases hq
  have hself : Activates (Function.update pc p (.posting s q all)) s p q :=
    ⟨all, Function.update_self _ _ _⟩
  have hold : ∀ t r u, Activates pc t r u →
      Activates (Function.update pc p (.posting s q all)) t r u := fun t r u hr =>
    (activates_update_of_ne fun e : r = p => hp t u (e ▸ hr)).mpr hr
  have hpc : ∀ r w, w ≠ Pc.posting s q all →
      Function.update pc p (.posting s q all) r = w → r ≠ p ∧ pc r = w := by
    intro r w hw hr
    by_cases hrp : r = p
    · rw [hrp, Function.update_self] at hr
      exact absurd hr.symm hw
    · rw [Function.update_of_ne hrp] at hr
      exact ⟨hrp, hr⟩
  refine ⟨fun r t u hr => ?_, fun r t kind hr => ?_, fun r t kind hr => ?_, fun r t kind hr => ?_⟩
  · by_cases hrp : r = p
    · obtain ⟨all', hr⟩ := hr
      rw [hrp, Function.update_self] at hr
      cases hr
      rw [Function.update_of_ne hne, Function.update_self]
      exact ⟨hq, rfl⟩
    · obtain ⟨h1, h2⟩ := h.posting r t u ((activates_update_of_ne hrp).mp hr)
      have hup : u ≠ p := by
        rintro rfl
        rw [hpw] at h1
        cases h1
      rw [Function.update_of_ne hup]
      refine ⟨h1, ?_⟩
      by_cases huq : u = q
      · rw [huq, Function.update_self]
      · rw [Function.update_of_ne huq]
        exact h2
  · replace hr := (hpc r _ (by simp) hr).2
    rw [Function.update_of_ne fun e : r = q => hnq t kind (e ▸ hr)]
    exact h.queued r t kind hr
  · replace hr := (hpc r _ (by simp) hr).2
    by_cases hrq : r = q
    · subst hrq
      rw [hr] at hq
      cases hq
      exact fun _ => ⟨p, hself⟩
    · rw [Function.update_of_ne hrq]
      intro hup
      obtain ⟨u, hu⟩ := h.handed r t kind hr hup
      exact ⟨u, hold t u r hu⟩
  · replace hr := (hpc r _ (by simp) hr).2
    by_cases hrq : r = q
    · subst hrq
      rw [hr] at hq
      cases hq
      exact fun _ => .inr ⟨p, hself⟩
    · rw [Function.update_of_ne hrq]
      intro hup
      rcases h.asleep r t kind hr hup with hw | ⟨u, hu⟩
      · exact .inl hw
      · exact .inr ⟨u, hold t u r hu⟩

omit [DecidableEq S] in
/-- `p` activated the waiter that it marked up. -/
theorem UpOk.finish (h : UpOk σ pc wait) (hp : pc p = .posting s q all) (hq : Awake (σ.state q))
    (hh : ∀ r, (pc r).isHanded = false) (hv : v.waiting = none)
    (hvp : ∀ s q all, v ≠ .posting s q all) : UpOk σ (Function.update pc p v) wait := by
  have hact : ∀ t r u, r ≠ p → (Activates (Function.update pc p v) t r u ↔ Activates pc t r u) :=
    fun t r u hr => activates_update_of_ne hr
  have hpc : ∀ r w, w.waiting ≠ none → Function.update pc p v r = w → r ≠ p ∧ pc r = w := by
    intro r w hw hr
    by_cases hrp : r = p
    · rw [hrp, Function.update_self] at hr
      exact absurd (hr ▸ hv) hw
    · rw [Function.update_of_ne hrp] at hr
      exact ⟨hrp, hr⟩
  refine ⟨fun r t u hr => ?_, fun r t kind hr => ?_, fun r t kind hr => ?_, fun r t kind hr => ?_⟩
  · have hrp : r ≠ p := by
      rintro rfl
      obtain ⟨all', hr⟩ := hr
      rw [Function.update_self] at hr
      exact hvp t u all' hr
    obtain ⟨h1, h2⟩ := h.posting r t u ((hact t r u hrp).mp hr)
    have hup : u ≠ p := by
      rintro rfl
      rw [hp] at h1
      cases h1
    rw [Function.update_of_ne hup]
    exact ⟨h1, h2⟩
  · exact h.queued r t kind (hpc r _ (by simp [Pc.waiting]) hr).2
  · have := hh r
    rw [(hpc r _ (by simp [Pc.waiting]) hr).2] at this
    cases this
  · intro hup
    replace hr := (hpc r _ (by simp [Pc.waiting]) hr).2
    by_cases hrq : r = q
    · exact .inl (hrq ▸ hq)
    rcases h.asleep r t kind hr hup with hw | ⟨u, hu⟩
    · exact .inl hw
    refine .inr ⟨u, (hact t u r ?_).mpr hu⟩
    rintro rfl
    obtain ⟨all', hu⟩ := hu
    rw [hp] at hu
    cases hu
    exact hrq rfl

/-! ## The units of all semaphores -/

/-- The `WaitData` of the processes that wait on `s`. -/
def waiters (pc : ℕ → Pc S) (wait : ℕ → Waiter) (s : S) (q : ℕ) : Option Waiter :=
  if (pc q).waiting = some s then some (wait q) else none

theorem waiters_of_waiting (h : (pc p).waiting = some s) : waiters pc wait s p = some (wait p) :=
  if_pos h

theorem waiters_eq_some {x : Waiter} :
    waiters pc wait s p = some x ↔ (pc p).waiting = some s ∧ wait p = x := by
  unfold waiters
  split_ifs with h <;> simp [h]

theorem waiters_move (hv : v.waiting = (pc p).waiting) :
    waiters (Function.update pc p v) wait = waiters pc wait := by
  funext t q
  unfold waiters
  by_cases hq : q = p
  · subst hq
    rw [Function.update_self, hv]
  · rw [Function.update_of_ne hq]

/-- `p` gets `WaitData` for `s`. -/
theorem waiters_enter (hp : (pc p).waiting = none) (hv : v.waiting = some s) (x : Waiter) :
    waiters (Function.update pc p v) (Function.update wait p x) =
      Function.update (waiters pc wait) s (Function.update (waiters pc wait s) p (some x)) := by
  funext t q
  by_cases ht : t = s <;> by_cases hq : q = p
  · subst ht; subst hq
    simp only [waiters, Function.update_self, hv, if_true]
  · subst ht
    simp only [waiters, Function.update_self, Function.update_of_ne hq]
  · subst hq
    rw [Function.update_of_ne ht]
    simp [waiters, Function.update_self, hv, hp, Ne.symm ht]
  · rw [Function.update_of_ne ht]
    simp only [waiters, Function.update_of_ne hq]

/-- `p` frees its `WaitData`. -/
theorem waiters_leave (hp : (pc p).waiting = some s) (hv : v.waiting = none) :
    waiters (Function.update pc p v) wait =
      Function.update (waiters pc wait) s (Function.update (waiters pc wait s) p none) := by
  funext t q
  by_cases ht : t = s <;> by_cases hq : q = p
  · subst ht; subst hq
    simp [waiters, Function.update_self, hv]
  · subst ht
    simp only [waiters, Function.update_self, Function.update_of_ne hq]
  · subst hq
    rw [Function.update_of_ne ht]
    simp [waiters, Function.update_self, hv, hp, Ne.symm ht]
  · rw [Function.update_of_ne ht]
    simp only [waiters, Function.update_of_ne hq]

/-- The `WaitData` of `q` changes. -/
theorem waiters_mark (hq : (pc q).waiting = some s) (x : Waiter) :
    waiters pc (Function.update wait q x) =
      Function.update (waiters pc wait) s (Function.update (waiters pc wait s) q (some x)) := by
  funext t r
  by_cases ht : t = s <;> by_cases hr : r = q
  · subst ht; subst hr
    simp only [waiters, Function.update_self, hq, if_true]
  · subst ht
    simp only [waiters, Function.update_self, Function.update_of_ne hr]
  · subst hr
    rw [Function.update_of_ne ht]
    simp [waiters, hq, Ne.symm ht]
  · rw [Function.update_of_ne ht]
    simp only [waiters, Function.update_of_ne hr]

/-- Every semaphore accounts for its units. -/
def AllAccounts (v : S → ℤ) (sem : S → Sem ℕ) (ledger : S → Ledger)
    (w : S → ℕ → Option Waiter) : Prop :=
  ∀ s, Sem.Accounts (v s) (sem s) (ledger s) (w s)

theorem AllAccounts.update {u : S → ℤ} {sem : S → Sem ℕ} {ledger : S → Ledger}
    {w : S → ℕ → Option Waiter} {m : Sem ℕ} {l : Ledger} {w' : ℕ → Option Waiter}
    (h : AllAccounts u sem ledger w) (hs : Sem.Accounts (u s) m l w') :
    AllAccounts u (Function.update sem s m) (Function.update ledger s l)
      (Function.update w s w') := by
  intro t
  by_cases ht : t = s
  · subst ht
    rwa [Function.update_self, Function.update_self, Function.update_self]
  · rw [Function.update_of_ne ht, Function.update_of_ne ht, Function.update_of_ne ht]
    exact h t

theorem AllAccounts.keep {u : S → ℤ} {sem : S → Sem ℕ} {ledger : S → Ledger}
    {w : S → ℕ → Option Waiter} {m : Sem ℕ} {l : Ledger}
    (h : AllAccounts u sem ledger w) (hs : Sem.Accounts (u s) m l (w s)) :
    AllAccounts u (Function.update sem s m) (Function.update ledger s l) w := by
  have := h.update hs
  rwa [Function.update_eq_self] at this

end ShikiOS.Kernel
