import ShikiOS.Fs.LogModel

/-!
# What holds after every run of the log layer

`Inv` holds in every state the processes can reach, whatever is killed:

* `sem`: `log.sem` is consistent and its queue holds exactly the sleepers;
* `lock`: `log.lock` is held by the processes that are between two sections of
  `cache_end_op` that need it, and nobody is ahead of a commit in progress;
* `data`: the header lists at most `LOG_MAX_SIZE` distinct blocks, an operation
  never adds more blocks than its budget, and the device is never ahead of the
  cache.
-/

namespace ShikiOS.Fs.Log

open ShikiOS.Lib

variable {P : Type*} [DecidableEq P] {sb : SuperBlock} {s t : LogState P} {a : Act P}

/-! ## The queue of `log.sem` -/

theorem asleep_modify (s : LogState P) (p q : P) (f : OpState → OpState) :
    Asleep (s.modify p f) q ↔ (q ≠ p ∧ Asleep s q) ∨ (q = p ∧ (f (s.procs p)).Asleep) := by
  by_cases hq : q = p
  · subst hq
    rw [Asleep, modify_procs_self]
    simp
  · rw [Asleep, modify_procs_of_ne s p f hq]
    simp [hq]

theorem asleep_wake (s : LogState P) (w : List P) (q : P) :
    Asleep (s.wake w) q ↔ Asleep s q ∧ q ∉ w := by
  rw [Asleep, wake_procs]
  split_ifs with hq <;> simp [OpState.Asleep, hq]

/-- A process that was not asleep does not fall asleep by this change. -/
theorem SemInv.modify {f : OpState → OpState} {p : P} (h : SemInv s) (hp : ¬ Asleep s p)
    (hf : ¬ (f (s.procs p)).Asleep) : SemInv (s.modify p f) := by
  refine Sem.Tracks.congr h fun q => ?_
  rw [asleep_modify]
  constructor
  · intro hq; exact .inl ⟨fun e => hp (e ▸ hq), hq⟩
  · rintro (⟨_, hq⟩ | ⟨_, hq⟩)
    · exact hq
    · exact absurd hq hf

/-- A process falls asleep. -/
theorem SemInv.sleep {f : OpState → OpState} {p : P} {sem : Sem P} (h : SemInv s)
    (hp : ¬ Asleep s p) (hd : s.sem.down p = (sem, false)) (hf : (f (s.procs p)).Asleep) :
    SemInv ({ s with sem := sem }.modify p f) := by
  refine (Sem.Tracks.down_false h hp hd).congr fun q => ?_
  rw [asleep_modify]
  constructor
  · rintro (hq | rfl)
    · exact .inl ⟨fun e => hp (e ▸ hq), hq⟩
    · exact .inr ⟨rfl, hf⟩
  · rintro (⟨_, hq⟩ | ⟨hq, _⟩)
    · exact .inl hq
    · exact .inr hq

/-- A sleeper leaves the queue because its wait was interrupted. -/
theorem SemInv.interrupt {f : OpState → OpState} {p : P} {sem : Sem P} (h : SemInv s)
    (hp : Asleep s p) (hab : s.sem.abort p = some sem) (hf : ¬ (f (s.procs p)).Asleep) :
    SemInv ({ s with sem := sem }.modify p f) := by
  obtain ⟨sem', hab', htr⟩ := Sem.Tracks.abort h hp
  cases hab.symm.trans hab'
  refine htr.congr fun q => ?_
  rw [asleep_modify]
  constructor
  · rintro ⟨hq, hne⟩; exact .inl ⟨hne, hq⟩
  · rintro (⟨hne, hq⟩ | ⟨-, hq⟩)
    · exact ⟨hq, hne⟩
    · exact absurd hq hf

/-- The processes woken by a post are no longer asleep. -/
theorem semInv_wake {sem : Sem P} {w : List P}
    (hsem : sem.Tracks fun q => Asleep s q ∧ q ∉ w) : SemInv ({ s with sem := sem }.wake w) :=
  hsem.congr fun q => (asleep_wake { s with sem := sem } w q).symm

/-- The process is in a wait on `log.sem`. -/
def Pc.sleeps : Pc → Bool
  | .beginSleep | .endSleep => true
  | _ => false

theorem OpState.not_asleep {o : OpState} {c : Pc} (h : o.pc = c)
    (hc : c.sleeps = false := by rfl) : ¬ o.Asleep := by
  rintro ⟨h' | h', -⟩ <;> rw [← h, h'] at hc <;> cases hc

theorem OpState.not_asleep_of_up {o : OpState} (h : o.up = true) : ¬ o.Asleep := by
  rintro ⟨-, h'⟩
  rw [h] at h'; cases h'

theorem SemInv.effect (h : SemInv s) (he : Effect sb s a t) : SemInv t := by
  cases he with
  | beginOp hpc => exact h.modify (OpState.not_asleep hpc) (OpState.not_asleep rfl)
  | beginWaits hpc => exact h.modify (OpState.not_asleep hpc) (OpState.not_asleep rfl)
  | beginEnters hpc =>
    exact SemInv.modify (s := { s with outstanding := _ }) h (OpState.not_asleep hpc)
      (OpState.not_asleep rfl)
  | beginUnit hpc hd =>
    exact SemInv.modify (s := { s with sem := _ }) (Sem.Tracks.down_true h hd)
      (OpState.not_asleep hpc) (OpState.not_asleep rfl)
  | beginSleeps hpc hd => exact h.sleep (OpState.not_asleep hpc) hd ⟨.inl rfl, rfl⟩
  | beginWoken hpc hu => exact h.modify (OpState.not_asleep_of_up hu) (OpState.not_asleep rfl)
  | beginInterrupted hpc hu hab => exact h.interrupt ⟨.inl hpc, hu⟩ hab (OpState.not_asleep rfl)
  | syncPanics => exact h
  | syncAbsorbed hpc =>
    exact SemInv.modify (s := { s with content := _ }) h (OpState.not_asleep hpc)
      (OpState.not_asleep hpc)
  | syncAdded hpc =>
    exact SemInv.modify (s := { s with content := _, header := _ }) h (OpState.not_asleep hpc)
      (OpState.not_asleep hpc)
  | endPanics hpc =>
    exact SemInv.modify (s := { s with outstanding := _, panic := _ }) h (OpState.not_asleep hpc)
      (OpState.not_asleep rfl)
  | endJoins hpc =>
    exact SemInv.modify (s := { s with outstanding := _, lock := _ }) h (OpState.not_asleep hpc)
      (OpState.not_asleep rfl)
  | endCommits hpc =>
    exact SemInv.modify (s := { s with outstanding := _, committing := _ }) h
      (OpState.not_asleep hpc) (OpState.not_asleep rfl)
  | endPost hpc hpost =>
    obtain ⟨_, _, hpost', -, htr⟩ := Sem.Tracks.post h
    cases hpost.symm.trans hpost'
    exact (semInv_wake htr).modify (OpState.not_asleep ((wake_pc _ _ _).trans hpc))
      (OpState.not_asleep rfl)
  | endUnit hpc hd =>
    exact SemInv.modify (s := { s with sem := _, lock := _ }) (Sem.Tracks.down_true h hd)
      (OpState.not_asleep hpc) (OpState.not_asleep rfl)
  | endSleeps hpc hd =>
    exact SemInv.sleep (s := { s with lock := _ }) h (OpState.not_asleep hpc) hd ⟨.inr rfl, rfl⟩
  | endWoken hpc hu => exact h.modify (OpState.not_asleep_of_up hu) (OpState.not_asleep rfl)
  | endInterrupted hpc hu hab =>
    have := SemInv.interrupt (s := { s with panic := some .endOpWait })
      (f := fun o => { o with pc := .stopped }) h ⟨.inr hpc, hu⟩ hab (OpState.not_asleep rfl)
    exact this
  | commitLog hpc =>
    exact SemInv.modify (s := { s with written := _, diskHeader := _ }) h (OpState.not_asleep hpc)
      (OpState.not_asleep rfl)
  | commitHome hpc =>
    exact SemInv.modify (s := { s with lock := _, home := _, header := _, diskHeader := _,
                                       committing := _ }) h (OpState.not_asleep hpc)
      (OpState.not_asleep rfl)
  | commitPost hpc hpost =>
    obtain ⟨_, hpost', htr⟩ := Sem.Tracks.postAll h
    cases hpost.symm.trans hpost'
    -- everybody who was asleep has been woken
    have htr' : Sem.Tracks _ fun q => Asleep s q ∧ q ∉ s.sem.sleeplist := htr.congr fun q =>
      ⟨False.elim, fun hq => hq.2 ((Sem.Tracks.mem h q).mpr hq.1)⟩
    exact SemInv.modify (s := LogState.wake { s with sem := _, lock := none } _)
      (semInv_wake (s := { s with lock := none }) htr')
      (OpState.not_asleep ((wake_pc _ _ _).trans hpc)) (OpState.not_asleep rfl)
  | @kill p =>
    refine Sem.Tracks.congr h fun q => ?_
    rw [asleep_modify]
    by_cases hq : q = p
    · subst hq; simp [OpState.Asleep]
    · simp [hq]

/-! ## `log.lock` and the commit in progress -/

/-- The process holds `log.lock` between two of its sections. -/
def Pc.holds : Pc → Bool
  | .endPost | .endWait | .commitPost => true
  | _ => false

/-- The process commits and has not taken `log.lock` again. -/
def Pc.commits : Pc → Bool
  | .commitLog | .commitHome => true
  | _ => false

/-- Who holds `log.lock`, and who commits. -/
structure LockInv (s : LogState P) : Prop where
  lock : ∀ q, s.lock = some q ↔ (s.pc q).holds = true
  committing : ∀ q, (s.pc q).commits = true → s.committing = true
  unique : ∀ q r, (s.pc q).commits = true → (s.pc r).commits = true → q = r
  flushed : ∀ q, s.pc q = .commitPost → s.header.numBlocks = 0

omit [DecidableEq P] in
/-- Nothing that the invariant speaks of has changed. -/
theorem LockInv.congr (h : LockInv s) (hl : t.lock = s.lock) (hc : t.committing = s.committing)
    (hp : ∀ q, t.pc q = s.pc q) (hf : ∀ q, s.pc q = .commitPost → t.header.numBlocks = 0) :
    LockInv t := by
  refine ⟨fun q => ?_, fun q hq => ?_, fun q r hq hr => ?_, fun q hq => ?_⟩
  · rw [hl, hp]; exact h.lock q
  · rw [hc]; exact h.committing q (hp q ▸ hq)
  · exact h.unique q r (hp q ▸ hq) (hp r ▸ hr)
  · exact hf q (hp q ▸ hq)

omit [DecidableEq P] in
theorem LockInv.not_holds (h : LockInv s) (hl : s.lock = none) (q : P) : (s.pc q).holds = false := by
  by_contra hq
  have := (h.lock q).mpr (by simpa using hq)
  rw [hl] at this; cases this

omit [DecidableEq P] in
theorem LockInv.not_commits (h : LockInv s) (hc : s.committing = false) (q : P) :
    (s.pc q).commits = false := by
  by_contra hq
  have := h.committing q (by simpa using hq)
  rw [hc] at this; cases this

omit [DecidableEq P] in
theorem LockInv.holds_unique (h : LockInv s) {q r : P} (hq : (s.pc q).holds = true)
    (hr : (s.pc r).holds = true) : q = r := by
  have h1 := (h.lock q).mpr hq
  rw [(h.lock r).mpr hr] at h1
  exact (Option.some.inj h1).symm

theorem pc_modify (s : LogState P) (p q : P) (f : OpState → OpState) :
    (s.modify p f).pc q = if q = p then (f (s.procs p)).pc else s.pc q := by
  split_ifs with hq
  · rw [hq, LogState.pc, modify_procs_self]
  · rw [LogState.pc, modify_procs_of_ne s p f hq]

/-- A process moves between program counters of the same kind. -/
theorem LockInv.modify {f : OpState → OpState} {p : P} (h : LockInv s)
    (h1 : (f (s.procs p)).pc.holds = (s.pc p).holds)
    (h2 : (f (s.procs p)).pc.commits = (s.pc p).commits)
    (h3 : (f (s.procs p)).pc = .commitPost → s.pc p = .commitPost) : LockInv (s.modify p f) := by
  have hpc : ∀ q, ((s.modify p f).pc q).holds = (s.pc q).holds ∧
      ((s.modify p f).pc q).commits = (s.pc q).commits ∧
      ((s.modify p f).pc q = .commitPost → s.pc q = .commitPost) := by
    intro q
    rw [pc_modify]
    split_ifs with hq
    · subst hq; exact ⟨h1, h2, h3⟩
    · exact ⟨rfl, rfl, id⟩
  refine ⟨fun q => ?_, fun q hq => ?_, fun q r hq hr => ?_, fun q hq => ?_⟩
  · rw [(hpc q).1]; exact h.lock q
  · exact h.committing q ((hpc q).2.1 ▸ hq)
  · exact h.unique q r ((hpc q).2.1 ▸ hq) ((hpc r).2.1 ▸ hr)
  · exact h.flushed q ((hpc q).2.2 hq)

/-- The holder of `log.lock` leaves the log layer and releases the lock. -/
theorem LockInv.release {f : OpState → OpState} {p : P} (h : LockInv s)
    (hp : (s.pc p).holds = true) (h1 : (f (s.procs p)).pc.holds = false)
    (h2 : (f (s.procs p)).pc.commits = false) :
    LockInv ({ s with lock := none }.modify p f) := by
  have hne : (f (s.procs p)).pc ≠ .commitPost := fun e => by rw [e] at h1; cases h1
  refine ⟨fun q => ?_, fun q hq => ?_, fun q r hq hr => ?_, fun q hq => ?_⟩ <;>
    rw [pc_modify] at *
  · split_ifs with hqp
    · simp [h1]
    · have : (s.pc q).holds = false := by
        by_contra hq; exact hqp (h.holds_unique (by simpa using hq) hp)
      simp [this]
  · split_ifs at hq
    · rw [h2] at hq; cases hq
    · exact h.committing q hq
  · split_ifs at hq hr
    · rw [h2] at hq; cases hq
    · rw [h2] at hq; cases hq
    · rw [h2] at hr; cases hr
    · exact h.unique q r hq hr
  · split_ifs at hq
    · exact absurd hq hne
    · exact h.flushed q hq

/-- A process takes `log.lock` and keeps it. -/
theorem LockInv.acquire {f : OpState → OpState} {p : P} (h : LockInv s) (hl : s.lock = none)
    (h1 : (f (s.procs p)).pc.holds = true) (h2 : (f (s.procs p)).pc.commits = false)
    (h3 : (f (s.procs p)).pc = .commitPost → s.header.numBlocks = 0) :
    LockInv ({ s with lock := some p }.modify p f) := by
  have hno : ∀ q, (s.pc q).holds = false := h.not_holds hl
  refine ⟨fun q => ?_, fun q hq => ?_, fun q r hq hr => ?_, fun q hq => ?_⟩ <;>
    rw [pc_modify] at *
  · split_ifs with hqp
    · subst hqp; simp [h1]
    · have : p ≠ q := fun e => hqp e.symm
      simp [hno q, this]
  · split_ifs at hq
    · rw [h2] at hq; cases hq
    · exact h.committing q hq
  · split_ifs at hq hr
    · rw [h2] at hq; cases hq
    · rw [h2] at hq; cases hq
    · rw [h2] at hr; cases hr
    · exact h.unique q r hq hr
  · split_ifs at hq
    · exact h3 hq
    · exact h.flushed q hq

/-- The last running operation starts a commit. -/
theorem LockInv.startCommit {f : OpState → OpState} {p : P} (h : LockInv s)
    (hc : s.committing = false) (hp : (s.pc p).holds = false)
    (h1 : (f (s.procs p)).pc = .commitLog) :
    LockInv ({ s with committing := true }.modify p f) := by
  have hno : ∀ q, (s.pc q).commits = false := h.not_commits hc
  refine ⟨fun q => ?_, fun _ _ => rfl, fun q r hq hr => ?_, fun q hq => ?_⟩ <;>
    rw [pc_modify] at *
  · split_ifs with hqp
    · subst hqp
      rw [h1]
      exact (h.lock q).trans (by rw [hp]; exact Iff.rfl)
    · exact h.lock q
  · split_ifs at hq hr with hqp hrp hrp
    · exact hqp.trans hrp.symm
    · exact absurd hr (by simp [hno r])
    · exact absurd hq (by simp [hno q])
    · exact absurd hq (by simp [hno q])
  · split_ifs at hq
    · rw [h1] at hq; cases hq
    · exact h.flushed q hq

/-- The committing process has emptied the header and holds `log.lock` again. -/
theorem LockInv.flush {f : OpState → OpState} {p : P} (h : LockInv s) (hl : s.lock = none)
    (hp : (s.pc p).commits = true) (h1 : (f (s.procs p)).pc = .commitPost)
    (ht : t = s.modify p f) :
    LockInv { t with lock := some p, committing := false, header := s.header.clear } := by
  subst ht
  have hno : ∀ q, (s.pc q).holds = false := h.not_holds hl
  have hone : ∀ q, ((s.modify p f).pc q).commits = false := by
    intro q
    rw [pc_modify]
    split_ifs with hqp
    · rw [h1]; rfl
    · by_contra hq
      exact hqp (h.unique q p (by simpa using hq) hp)
  refine ⟨fun q => ?_, fun q hq => ?_, fun q r hq _ => ?_, fun q _ => rfl⟩
  · change some p = some q ↔ ((s.modify p f).pc q).holds = true
    rw [pc_modify]
    split_ifs with hqp
    · subst hqp; simp [h1, Pc.holds]
    · have : p ≠ q := fun e => hqp e.symm
      simp [hno q, this]
  · exact absurd hq (by simp [hone q])
  · exact absurd hq (by simp [hone q])

theorem LockInv.effect (h : LockInv s) (he : Effect sb s a t) : LockInv t := by
  -- an operation that syncs finds the lock free, so nobody is at `commitPost`
  have hsync : s.lock = none → ∀ q, s.pc q ≠ .commitPost := by
    intro hl q hq
    have := h.not_holds hl q
    rw [hq] at this; cases this
  cases he with
  | beginOp hpc => exact h.modify (by rw [hpc]; rfl) (by rw [hpc]; rfl) nofun
  | beginWaits hpc => exact h.modify (by rw [hpc]; rfl) (by rw [hpc]; rfl) nofun
  | beginEnters hpc =>
    have h' : LockInv { s with outstanding := s.outstanding + 1 } :=
      h.congr rfl rfl (fun _ => rfl) h.flushed
    exact h'.modify (by rw [hpc]; rfl) (by rw [hpc]; rfl) nofun
  | @beginUnit _ sem hpc =>
    have h' : LockInv { s with sem := sem } := h.congr rfl rfl (fun _ => rfl) h.flushed
    exact h'.modify (by rw [hpc]; rfl) (by rw [hpc]; rfl) nofun
  | @beginSleeps _ sem hpc =>
    have h' : LockInv { s with sem := sem } := h.congr rfl rfl (fun _ => rfl) h.flushed
    exact h'.modify (by rw [hpc]; rfl) (by rw [hpc]; rfl) nofun
  | beginWoken hpc => exact h.modify (by rw [hpc]; rfl) (by rw [hpc]; rfl) nofun
  | @beginInterrupted _ sem hpc =>
    have h' : LockInv { s with sem := sem } := h.congr rfl rfl (fun _ => rfl) h.flushed
    exact h'.modify (by rw [hpc]; rfl) (by rw [hpc]; rfl) nofun
  | syncPanics => exact h.congr rfl rfl (fun _ => rfl) h.flushed
  | @syncAbsorbed _ b hpc =>
    have h' : LockInv { s with content := Function.update s.content b (s.content b + 1) } :=
      h.congr rfl rfl (fun _ => rfl) h.flushed
    exact h'.modify rfl rfl id
  | @syncAdded _ b hpc hl =>
    have h' : LockInv { s with content := Function.update s.content b (s.content b + 1),
                               header := s.header.push b } :=
      h.congr rfl rfl (fun _ => rfl) fun q hq => absurd hq (hsync hl q)
    exact h'.modify rfl rfl id
  | endPanics hpc =>
    have h' : LockInv { s with outstanding := s.outstanding - 1, panic := some .committing } :=
      h.congr rfl rfl (fun _ => rfl) h.flushed
    exact h'.modify (by rw [hpc]; rfl) (by rw [hpc]; rfl) nofun
  | endJoins hpc hl =>
    have h' : LockInv { s with outstanding := s.outstanding - 1 } :=
      h.congr rfl rfl (fun _ => rfl) h.flushed
    exact h'.acquire hl rfl rfl nofun
  | endCommits hpc _ hc =>
    have h' : LockInv { s with outstanding := s.outstanding - 1 } :=
      h.congr rfl rfl (fun _ => rfl) h.flushed
    exact h'.startCommit hc (by rw [hpc]; rfl) rfl
  | @endPost _ sem w hpc =>
    have h' : LockInv ({ s with sem := sem }.wake w) :=
      h.congr rfl rfl (fun q => wake_pc _ _ _) h.flushed
    have hw : ({ s with sem := sem }.wake w).pc _ = .endPost := (wake_pc _ _ _).trans hpc
    exact h'.modify (by rw [hw]; rfl) (by rw [hw]; rfl) nofun
  | @endUnit _ sem hpc =>
    have h' : LockInv { s with sem := sem } := h.congr rfl rfl (fun _ => rfl) h.flushed
    exact h'.release (by rw [hpc]; rfl) rfl rfl
  | @endSleeps _ sem hpc =>
    have h' : LockInv { s with sem := sem } := h.congr rfl rfl (fun _ => rfl) h.flushed
    exact h'.release (by rw [hpc]; rfl) rfl rfl
  | endWoken hpc => exact h.modify (by rw [hpc]; rfl) (by rw [hpc]; rfl) nofun
  | @endInterrupted _ sem hpc =>
    have h' : LockInv { s with sem := sem, panic := some .endOpWait } :=
      h.congr rfl rfl (fun _ => rfl) h.flushed
    exact h'.modify (by rw [hpc]; rfl) (by rw [hpc]; rfl) nofun
  | commitLog hpc =>
    have h' : LockInv { s with written := s.written ++ logBlocks sb s.header.numBlocks,
                               diskHeader := s.header } :=
      h.congr rfl rfl (fun _ => rfl) h.flushed
    exact h'.modify (by rw [hpc]; rfl) (by rw [hpc]; rfl) nofun
  | @commitHome p hpc hl =>
    have h' : LockInv { s with home := fun b => if b ∈ s.header.entries then s.content b
                                 else s.home b, diskHeader := s.header.clear } :=
      h.congr rfl rfl (fun _ => rfl) h.flushed
    exact h'.flush hl (by rw [hpc]; rfl) (f := fun o => { o with pc := .commitPost }) rfl rfl
  | @commitPost p sem w hpc =>
    have h' : LockInv ({ s with sem := sem }.wake w) :=
      h.congr rfl rfl (fun q => wake_pc _ _ _) h.flushed
    have hw : ({ s with sem := sem }.wake w).pc p = .commitPost := (wake_pc _ _ _).trans hpc
    exact h'.release (by rw [hw]; rfl) rfl rfl
  | kill => exact h.modify rfl rfl id

/-! ## The header, the budgets and the device -/

/-- The process is inside `cache_begin_op`. -/
def Pc.begins : Pc → Bool
  | .beginLock | .beginWait | .beginSleep => true
  | _ => false

/-- An operation splits its budget between the blocks it added and `ctx->rm`. -/
structure OpState.Budget (o : OpState) : Prop where
  spent : o.rm + o.added.length = opMaxNumBlocks
  fresh : o.pc.begins = true → o.added = []

/-- The header lists distinct blocks, every operation keeps to its budget, and
    the device is not ahead of the cache. -/
structure DataInv (s : LogState P) : Prop where
  nodup : s.header.entries.Nodup
  size : s.header.numBlocks ≤ logMaxSize
  budget : ∀ q, s.pc q ≠ .idle → (s.procs q).Budget
  home : ∀ b, s.home b ≤ s.content b

theorem DataInv.modify {f : OpState → OpState} {p : P} (h : DataInv s)
    (hf : (f (s.procs p)).pc ≠ .idle → (f (s.procs p)).Budget) : DataInv (s.modify p f) := by
  refine ⟨h.nodup, h.size, fun q hq => ?_, h.home⟩
  by_cases hqp : q = p
  · subst hqp
    rw [LogState.pc, modify_procs_self] at hq
    rw [modify_procs_self]
    exact hf hq
  · rw [LogState.pc, modify_procs_of_ne s p f hqp] at hq
    rw [modify_procs_of_ne s p f hqp]
    exact h.budget q hq

/-- A wake-up touches neither the header nor a budget. -/
theorem DataInv.wake (h : DataInv s) (w : List P) : DataInv (s.wake w) := by
  refine ⟨h.nodup, h.size, fun q hq => ?_, h.home⟩
  have hb := h.budget q (by rwa [LogState.pc, wake_pc] at hq)
  constructor
  · rw [wake_rm, wake_added]; exact hb.spent
  · rw [wake_pc, wake_added]; exact hb.fresh

omit [DecidableEq P] in
/-- A sync gives the cached block a new version. -/
theorem DataInv.touch (h : DataInv s) (b : ℕ) :
    DataInv { s with content := Function.update s.content b (s.content b + 1) } := by
  refine ⟨h.nodup, h.size, h.budget, fun c => ?_⟩
  have := h.home c
  by_cases hc : c = b
  · subst hc; simp only [Function.update_self]; omega
  · simp only [Function.update_of_ne hc]; exact this

theorem DataInv.effect (h : DataInv s) (he : Effect sb s a t) : DataInv t := by
  -- a process that stays inside keeps its budget
  have hkeep : ∀ {p : P} {c : Pc}, s.pc p = c → c ≠ .idle → (s.procs p).Budget :=
    fun hpc hc => h.budget _ (hpc ▸ hc)
  have hbegin : ∀ {p : P} {c : Pc}, s.pc p = c → c ≠ .idle → c.begins = true →
      (s.procs p).added = [] :=
    fun hpc hc hb => (hkeep hpc hc).fresh ((congrArg Pc.begins hpc).trans hb)
  cases he with
  | beginOp => exact h.modify fun _ => ⟨rfl, fun _ => rfl⟩
  | beginWaits hpc => exact h.modify fun _ => ⟨(hkeep hpc nofun).spent, fun _ => hbegin hpc nofun rfl⟩
  | beginEnters hpc =>
    have h' : DataInv { s with outstanding := s.outstanding + 1 } := ⟨h.1, h.2, h.3, h.4⟩
    exact h'.modify fun _ => ⟨(hkeep hpc nofun).spent, nofun⟩
  | @beginUnit _ sem hpc =>
    have h' : DataInv { s with sem := sem } := ⟨h.1, h.2, h.3, h.4⟩
    exact h'.modify fun _ => ⟨(hkeep hpc nofun).spent, fun _ => hbegin hpc nofun rfl⟩
  | @beginSleeps _ sem hpc =>
    have h' : DataInv { s with sem := sem } := ⟨h.1, h.2, h.3, h.4⟩
    exact h'.modify fun _ => ⟨(hkeep hpc nofun).spent, fun _ => hbegin hpc nofun rfl⟩
  | beginWoken hpc => exact h.modify fun _ => ⟨(hkeep hpc nofun).spent, fun _ => hbegin hpc nofun rfl⟩
  | @beginInterrupted _ sem hpc =>
    have h' : DataInv { s with sem := sem } := ⟨h.1, h.2, h.3, h.4⟩
    exact h'.modify fun _ => ⟨(hkeep hpc nofun).spent, nofun⟩
  | syncPanics =>
    have h' := h.touch
    exact ⟨h.1, h.2, h.3, (h' _).home⟩
  | @syncAbsorbed p b hpc =>
    have hk := hkeep hpc nofun
    exact (h.touch b).modify fun _ => ⟨hk.spent, hk.fresh⟩
  | @syncAdded p b hpc hl hb hrm hn =>
    have h' : DataInv { s with content := Function.update s.content b (s.content b + 1),
                               header := s.header.push b } := by
      refine ⟨?_, hn, h.budget, (h.touch b).home⟩
      rw [LogHeader.entries_push]
      exact List.Nodup.append h.nodup (List.nodup_singleton b) (by simpa using hb)
    refine h'.modify fun _ => ⟨?_, fun hb => ?_⟩
    · have hk := (hkeep hpc nofun).spent
      simp only [List.length_cons]
      omega
    · have : (s.pc p).begins = true := hb
      rw [hpc] at this; cases this
  | endPanics hpc =>
    have h' : DataInv { s with outstanding := s.outstanding - 1, panic := some .committing } :=
      ⟨h.1, h.2, h.3, h.4⟩
    exact h'.modify fun _ => ⟨(hkeep hpc nofun).spent, nofun⟩
  | @endJoins p hpc =>
    have h' : DataInv { s with outstanding := s.outstanding - 1, lock := some p } :=
      ⟨h.1, h.2, h.3, h.4⟩
    exact h'.modify fun _ => ⟨(hkeep hpc nofun).spent, nofun⟩
  | endCommits hpc =>
    have h' : DataInv { s with outstanding := s.outstanding - 1, committing := true } :=
      ⟨h.1, h.2, h.3, h.4⟩
    exact h'.modify fun _ => ⟨(hkeep hpc nofun).spent, nofun⟩
  | @endPost p sem w hpc =>
    have h' : DataInv { s with sem := sem } := ⟨h.1, h.2, h.3, h.4⟩
    refine (h'.wake w).modify fun _ => ⟨?_, nofun⟩
    simp only [wake_rm, wake_added]
    exact (hkeep hpc nofun).spent
  | @endUnit _ sem =>
    have h' : DataInv { s with sem := sem, lock := none } := ⟨h.1, h.2, h.3, h.4⟩
    exact h'.modify fun hc => absurd rfl hc
  | @endSleeps _ sem hpc =>
    have h' : DataInv { s with sem := sem, lock := none } := ⟨h.1, h.2, h.3, h.4⟩
    exact h'.modify fun _ => ⟨(hkeep hpc nofun).spent, nofun⟩
  | endWoken => exact h.modify fun hc => absurd rfl hc
  | @endInterrupted _ sem hpc =>
    have h' : DataInv { s with sem := sem, panic := some .endOpWait } := ⟨h.1, h.2, h.3, h.4⟩
    exact h'.modify fun _ => ⟨(hkeep hpc nofun).spent, nofun⟩
  | commitLog hpc =>
    have h' : DataInv { s with written := s.written ++ logBlocks sb s.header.numBlocks,
                               diskHeader := s.header } := ⟨h.1, h.2, h.3, h.4⟩
    exact h'.modify fun _ => ⟨(hkeep hpc nofun).spent, nofun⟩
  | @commitHome p hpc =>
    have h' : DataInv { s with
        lock := some p
        home := fun b => if b ∈ s.header.entries then s.content b else s.home b
        header := s.header.clear
        diskHeader := s.header.clear
        committing := false } := by
      refine ⟨List.nodup_nil, Nat.zero_le _, h.budget, fun b => ?_⟩
      simp only
      split_ifs
      · exact le_rfl
      · exact h.home b
    exact h'.modify fun _ => ⟨(hkeep hpc nofun).spent, nofun⟩
  | @commitPost p sem w hpc =>
    have h' : DataInv { s with sem := sem, lock := none } := ⟨h.1, h.2, h.3, h.4⟩
    exact (h'.wake w).modify fun hc => absurd rfl hc
  | kill =>
    refine h.modify fun hc => ?_
    have hb := h.budget _ hc
    exact ⟨hb.spent, hb.fresh⟩

/-! ## All together -/

/-- The invariant of the log layer. -/
structure Inv (s : LogState P) : Prop where
  sem : SemInv s
  lock : LockInv s
  data : DataInv s

omit [DecidableEq P] in
theorem inv_init : Inv (init : LogState P) where
  sem := (Sem.tracks_init le_rfl).congr fun q => by simp [init, Asleep, OpState.Asleep]
  lock := ⟨by simp [init, Pc.holds], by simp [init, Pc.commits], by simp [init, Pc.commits],
    by simp [init]⟩
  data := ⟨List.nodup_nil, Nat.zero_le _, fun _ hq => absurd rfl hq, fun _ => le_rfl⟩

theorem Inv.step (h : Inv s) (hs : step sb s a = some t) : Inv t :=
  have he := (step_effect h.sem hs).2
  ⟨h.sem.effect he, h.lock.effect he, h.data.effect he⟩

/-- The invariant holds after every run. -/
theorem Run.inv {ok : LogState P → Act P → Prop} (h : Run (Log.step sb) ok init s) : Inv s :=
  h.invariant inv_init fun _ _ _ hi _ hs => hi.step hs

end ShikiOS.Fs.Log
