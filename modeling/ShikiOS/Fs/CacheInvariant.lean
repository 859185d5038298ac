import ShikiOS.Fs.CacheModel

/-!
# What holds after every run of the block cache

`Base` holds in every state the processes can reach, in whatever order they take
their steps and whatever is killed:

* `locks`: the sleep lock of a block is consistent, its queue holds exactly the
  sleepers, and it has at most one owner;
* `ptrs`: the pointers in use and in the list were allocated, the list has no
  pointer twice, and a block that is being filled is not in it.

`Effect.uses`, `Effect.fills`, `Effect.list` and the like say once what a step does
to each part of the state.
-/

namespace ShikiOS.Fs.Cache

open ShikiOS.Lib

variable {P : Type*} {s t : CacheState P} {a : Act P}

/-! ## Fields after a change -/

section Fields

variable [DecidableEq P] (s : CacheState P) (p : P) (f : Proc → Proc) (x : ℕ) (k : Block P) (w : List P)

@[simp] theorem modify_heap : (s.modify p f).heap = s.heap := rfl
@[simp] theorem modify_list : (s.modify p f).list = s.list := rfl
@[simp] theorem modify_count : (s.modify p f).cachedBlockCount = s.cachedBlockCount := rfl
@[simp] theorem modify_brk : (s.modify p f).brk = s.brk := rfl
@[simp] theorem modify_freed : (s.modify p f).freed = s.freed := rfl

@[simp] theorem modify_procs_self : (s.modify p f).procs p = f (s.procs p) :=
  Function.update_self _ _ _

theorem modify_procs_of_ne {q : P} (h : q ≠ p) : (s.modify p f).procs q = s.procs q :=
  Function.update_of_ne h _ _

omit [DecidableEq P]

@[simp] theorem setBlock_list : (s.setBlock x k).list = s.list := rfl
@[simp] theorem setBlock_count : (s.setBlock x k).cachedBlockCount = s.cachedBlockCount := rfl
@[simp] theorem setBlock_brk : (s.setBlock x k).brk = s.brk := rfl
@[simp] theorem setBlock_freed : (s.setBlock x k).freed = s.freed := rfl
@[simp] theorem setBlock_procs : (s.setBlock x k).procs = s.procs := rfl

@[simp] theorem setBlock_heap_self : (s.setBlock x k).heap x = k := Function.update_self _ _ _

theorem setBlock_heap_of_ne {y : ℕ} (h : y ≠ x) : (s.setBlock x k).heap y = s.heap y :=
  Function.update_of_ne h _ _

end Fields

/-- Evicting touches neither the blocks nor the processes. -/
theorem evict_eq (s : CacheState P) :
    (victim s = none ∧ evict s = s) ∨
    ∃ x, victim s = some x ∧ evict s = { s with
      list := s.list.erase x
      cachedBlockCount := s.cachedBlockCount - 1
      freed := x :: s.freed } := by
  unfold evict
  cases hv : victim s with
  | none => exact .inl ⟨rfl, rfl⟩
  | some x => exact .inr ⟨x, rfl, rfl⟩

theorem victim_some {x : ℕ} (h : victim s = some x) :
    x ∈ s.list ∧ (s.heap x).acquired = false ∧ (s.heap x).pinned = false ∧
      evictionThreshold ≤ s.cachedBlockCount := by
  unfold victim at h
  split_ifs at h with hc
  have hmem := List.mem_of_find?_eq_some h
  have hp := List.find?_some h
  simp only [Bool.and_eq_true, Bool.not_eq_true'] at hp
  exact ⟨List.mem_reverse.mp hmem, hp.1, hp.2, hc⟩

@[simp] theorem evict_heap (s : CacheState P) : (evict s).heap = s.heap := by
  rcases evict_eq s with ⟨-, h⟩ | ⟨x, -, h⟩ <;> rw [h]

@[simp] theorem evict_procs (s : CacheState P) : (evict s).procs = s.procs := by
  rcases evict_eq s with ⟨-, h⟩ | ⟨x, -, h⟩ <;> rw [h]

@[simp] theorem evict_brk (s : CacheState P) : (evict s).brk = s.brk := by
  rcases evict_eq s with ⟨-, h⟩ | ⟨x, -, h⟩ <;> rw [h]

theorem mem_evict_list {x : ℕ} (h : x ∈ (evict s).list) : x ∈ s.list := by
  rcases evict_eq s with ⟨-, he⟩ | ⟨y, -, he⟩ <;> rw [he] at h
  · exact h
  · exact List.mem_of_mem_erase h

/-! ## Using, filling and owning a block -/

theorem Proc.Fills.owns {o : Proc} {x : ℕ} (h : o.Fills x) : o.Owns x := .inr (.inl h)

theorem Proc.Owns.uses {o : Proc} {x : ℕ} (h : o.Owns x) : o.Uses x := by
  rcases h with h | h | ⟨h, -⟩ | h
  · exact .inl (by rw [h]; rfl)
  · unfold Proc.Fills Pc.fills at h
    split at h
    · next y hpc => cases h; exact .inl (by rw [hpc]; rfl)
    · next y hpc => cases h; exact .inl (by rw [hpc]; rfl)
    · cases h
  · exact .inl (by rw [h]; rfl)
  · exact .inr h

theorem Proc.Asleep.uses {o : Proc} {x : ℕ} (h : o.Asleep x) : o.Uses x :=
  .inl (by rw [h.1]; rfl)

section

variable {o : Proc} {x y : ℕ}

theorem Proc.owns_of_idle (h : o.pc = .idle) : o.Owns y ↔ y ∈ o.held := by
  simp [Proc.Owns, Proc.Fills, Pc.fills, h]

theorem Proc.owns_of_lookedUp (h : o.pc = .lookedUp x) : o.Owns y ↔ y ∈ o.held := by
  simp [Proc.Owns, Proc.Fills, Pc.fills, h]

theorem Proc.owns_of_sleeping (h : o.pc = .sleeping x) :
    o.Owns y ↔ (y = x ∧ o.up = true) ∨ y ∈ o.held := by
  simp [Proc.Owns, Proc.Fills, Pc.fills, h, eq_comm (a := y)]

theorem Proc.owns_of_locked (h : o.pc = .locked x) : o.Owns y ↔ y = x ∨ y ∈ o.held := by
  simp [Proc.Owns, Proc.Fills, Pc.fills, h, eq_comm (a := y)]

theorem Proc.owns_of_filling (h : o.pc = .filling x) : o.Owns y ↔ y = x ∨ y ∈ o.held := by
  simp [Proc.Owns, Proc.Fills, Pc.fills, h, eq_comm (a := y)]

theorem Proc.owns_of_filled (h : o.pc = .filled x) : o.Owns y ↔ y = x ∨ y ∈ o.held := by
  simp [Proc.Owns, Proc.Fills, Pc.fills, h, eq_comm (a := y)]

theorem Proc.not_asleep (h : ∀ z, o.pc ≠ .sleeping z) : ¬ o.Asleep y := fun hs => h y hs.1

end

/-! ## The sleep locks -/

/-- Every sleep lock is consistent, its queue holds exactly the sleepers, and it has
    at most one owner. -/
structure Locks (s : CacheState P) : Prop where
  queue : QueueInv s
  mutex : ∀ x, (s.heap x).lock.Mutex fun q => (s.procs q).Owns x

theorem locks_init : Locks (init : CacheState P) := by
  refine ⟨fun x => (Sem.tracks_init zero_le_one).congr fun q => ?_, fun x => ⟨le_rfl, ?_, ?_⟩⟩
  · simp [init, Proc.Asleep]
  · intro q hq
    rw [Proc.owns_of_idle rfl] at hq
    simp [init] at hq
  · intro q r hq
    rw [Proc.owns_of_idle rfl] at hq
    simp [init] at hq

/-- Only process `p` has changed its part in the lock of block `y`, if at all. -/
theorem part_congr {p : P} {y : ℕ} (hother : ∀ q, q ≠ p → t.procs q = s.procs q)
    (ha : (t.procs p).Asleep y ↔ (s.procs p).Asleep y)
    (ho : (t.procs p).Owns y ↔ (s.procs p).Owns y) (q : P) :
    ((s.procs q).Asleep y ↔ (t.procs q).Asleep y) ∧ ((s.procs q).Owns y ↔ (t.procs q).Owns y) := by
  by_cases hqp : q = p
  · subst hqp; exact ⟨ha.symm, ho.symm⟩
  · rw [hother q hqp]; exact ⟨Iff.rfl, Iff.rfl⟩

/-- A step of process `p` on the lock of block `x`. -/
theorem Locks.change {p : P} {x : ℕ} (h : Locks s)
    (hlock : ∀ y, y ≠ x → (t.heap y).lock = (s.heap y).lock)
    (hother : ∀ q, q ≠ p → t.procs q = s.procs q)
    (hself : ∀ y, y ≠ x → ((t.procs p).Asleep y ↔ (s.procs p).Asleep y) ∧
      ((t.procs p).Owns y ↔ (s.procs p).Owns y))
    (hq : (t.heap x).lock.Tracks fun q => (t.procs q).Asleep x)
    (hm : (t.heap x).lock.Mutex fun q => (t.procs q).Owns x) : Locks t := by
  constructor
  · intro y
    by_cases hy : y = x
    · subst hy; exact hq
    · rw [hlock y hy]
      exact (h.queue y).congr fun q => (part_congr hother (hself y hy).1 (hself y hy).2 q).1
  · intro y
    by_cases hy : y = x
    · subst hy; exact hm
    · rw [hlock y hy]
      exact (h.mutex y).congr fun q => (part_congr hother (hself y hy).1 (hself y hy).2 q).2

/-- A step that changes no lock and nobody's part in one. -/
theorem Locks.same {p : P} (h : Locks s) (hlock : ∀ y, (t.heap y).lock = (s.heap y).lock)
    (hother : ∀ q, q ≠ p → t.procs q = s.procs q)
    (hself : ∀ y, ((t.procs p).Asleep y ↔ (s.procs p).Asleep y) ∧
      ((t.procs p).Owns y ↔ (s.procs p).Owns y)) : Locks t := by
  refine ⟨fun y => ?_, fun y => ?_⟩
  · rw [hlock y]
    exact (h.queue y).congr fun q => (part_congr hother (hself y).1 (hself y).2 q).1
  · rw [hlock y]
    exact (h.mutex y).congr fun q => (part_congr hother (hself y).1 (hself y).2 q).2

/-- A new value of one block with the lock it had. -/
theorem lock_setBlock {x : ℕ} {k : Block P} (hk : k.lock = (s.heap x).lock) (y : ℕ) :
    ((s.setBlock x k).heap y).lock = (s.heap y).lock := by
  by_cases hy : y = x
  · subst hy; rw [setBlock_heap_self, hk]
  · rw [setBlock_heap_of_ne s x k hy]

variable [DecidableEq P]

theorem Locks.lockUnit {p : P} {x : ℕ} {lock : Sem P} (h : Locks s) (hpc : s.pc p = .lookedUp x)
    (hd : (s.heap x).lock.down p = (lock, true)) :
    Locks ((s.setBlock x { s.heap x with lock := lock }).modify p
      fun o => { o with pc := .locked x }) := by
  have hpc' : (s.procs p).pc = .lookedUp x := hpc
  have hother : ∀ q, q ≠ p → ((s.setBlock x { s.heap x with lock := lock }).modify p
      fun o => { o with pc := .locked x }).procs q = s.procs q :=
    fun q hq => modify_procs_of_ne _ p _ hq
  obtain ⟨hnone, hm⟩ := (h.mutex x).down_true hd
  refine h.change (p := p) (x := x) (fun y hy => ?_) hother (fun y hy => ?_) ?_ ?_
  · rw [modify_heap, setBlock_heap_of_ne s x _ hy]
  · simp [Proc.Asleep, Proc.owns_of_lookedUp hpc', Proc.owns_of_locked, hpc', hy]
  · simp only [modify_heap, setBlock_heap_self]
    refine ((h.queue x).down_true hd).congr fun q => ?_
    by_cases hq : q = p
    · subst hq; simp [Proc.Asleep, hpc']
    · rw [hother q hq]
  · simp only [modify_heap, setBlock_heap_self]
    refine hm.congr fun q => ?_
    by_cases hq : q = p
    · subst hq; simp [Proc.owns_of_locked]
    · rw [hother q hq]
      exact ⟨fun e => absurd e hq, fun e => absurd e (hnone q)⟩

theorem Locks.lockSleeps {p : P} {x : ℕ} {lock : Sem P} (h : Locks s)
    (hpc : s.pc p = .lookedUp x) (hd : (s.heap x).lock.down p = (lock, false)) :
    Locks ((s.setBlock x { s.heap x with lock := lock }).modify p
      fun o => { o with pc := .sleeping x, up := false }) := by
  have hpc' : (s.procs p).pc = .lookedUp x := hpc
  have hother : ∀ q, q ≠ p → ((s.setBlock x { s.heap x with lock := lock }).modify p
      fun o => { o with pc := .sleeping x, up := false }).procs q = s.procs q :=
    fun q hq => modify_procs_of_ne _ p _ hq
  have hnot : ¬ (s.procs p).Asleep x := Proc.not_asleep (by simp [hpc'])
  refine h.change (p := p) (x := x) (fun y hy => ?_) hother (fun y hy => ?_) ?_ ?_
  · rw [modify_heap, setBlock_heap_of_ne s x _ hy]
  · have : x ≠ y := fun e => hy e.symm
    simp [Proc.Asleep, Proc.owns_of_lookedUp hpc', Proc.owns_of_sleeping, hpc', this, hy]
  · simp only [modify_heap, setBlock_heap_self]
    refine ((h.queue x).down_false hnot hd).congr fun q => ?_
    by_cases hq : q = p
    · subst hq; simp [Proc.Asleep]
    · rw [hother q hq]; simp [hq]
  · simp only [modify_heap, setBlock_heap_self]
    refine ((h.mutex x).down_false hd).congr fun q => ?_
    by_cases hq : q = p
    · subst hq; simp [Proc.owns_of_lookedUp hpc', Proc.owns_of_sleeping]
    · rw [hother q hq]

theorem Locks.interrupted {p : P} {x : ℕ} {lock : Sem P} (h : Locks s)
    (hpc : s.pc p = .sleeping x) (hu : (s.procs p).up = false)
    (hab : (s.heap x).lock.abort p = some lock) :
    Locks ((s.setBlock x { s.heap x with lock := lock }).modify p
      fun o => { o with pc := .idle }) := by
  have hpc' : (s.procs p).pc = .sleeping x := hpc
  have hother : ∀ q, q ≠ p → ((s.setBlock x { s.heap x with lock := lock }).modify p
      fun o => { o with pc := .idle }).procs q = s.procs q :=
    fun q hq => modify_procs_of_ne _ p _ hq
  obtain ⟨_, hab', htr⟩ := (h.queue x).abort (p := p) ⟨hpc', hu⟩
  cases hab.symm.trans hab'
  refine h.change (p := p) (x := x) (fun y hy => ?_) hother (fun y hy => ?_) ?_ ?_
  · rw [modify_heap, setBlock_heap_of_ne s x _ hy]
  · have : x ≠ y := fun e => hy e.symm
    simp [Proc.Asleep, Proc.owns_of_sleeping hpc', Proc.owns_of_idle, hpc', this, hy]
  · simp only [modify_heap, setBlock_heap_self]
    refine htr.congr fun q => ?_
    by_cases hq : q = p
    · subst hq; simp [Proc.Asleep]
    · rw [hother q hq]; simp [hq]
  · simp only [modify_heap, setBlock_heap_self]
    refine ((h.mutex x).abort hab).congr fun q => ?_
    by_cases hq : q = p
    · subst hq; simp [Proc.owns_of_sleeping hpc', Proc.owns_of_idle, hu]
    · rw [hother q hq]

/-- The owner `p` of block `x` releases it and hands its lock to the process that it
    wakes, if there is one. -/
theorem Locks.handover {p : P} {x : ℕ} {lock : Sem P} {w : List P} (h : Locks s)
    (hpc : (s.procs p).pc = .idle) (hx : x ∈ (s.procs p).held)
    (hpost : (s.heap x).lock.post = some (lock, w)) (hself : (t.heap x).lock = lock)
    (hlock : ∀ y, y ≠ x → (t.heap y).lock = (s.heap y).lock)
    (hp : t.procs p = { s.procs p with held := (s.procs p).held.erase x })
    (hwoken : ∀ q ∈ w, t.procs q = { s.procs q with up := true })
    (hrest : ∀ q, q ∉ w → q ≠ p → t.procs q = s.procs q) : Locks t := by
  have howns : (s.procs p).Owns x := (Proc.owns_of_idle hpc).mpr hx
  obtain ⟨_, _, hpost', hw, htr⟩ := (h.queue x).post
  cases hpost.symm.trans hpost'
  have hm := (h.mutex x).post (h.queue x).ok howns hpost
  have hpw : p ∉ w := fun hp => by
    have := (hw p hp).1
    rw [hpc] at this; cases this
  constructor
  · intro y
    by_cases hy : y = x
    · subst hy
      rw [hself]
      refine htr.congr fun q => ?_
      by_cases hqw : q ∈ w
      · rw [hwoken q hqw]; simp [Proc.Asleep, hqw]
      by_cases hqp : q = p
      · subst hqp; rw [hp]; simp [Proc.Asleep, hpc]
      · rw [hrest q hqw hqp]; simp [hqw]
    · rw [hlock y hy]
      refine (h.queue y).congr fun q => ?_
      by_cases hqw : q ∈ w
      · have : x ≠ y := fun e => hy e.symm
        rw [hwoken q hqw]; simp [Proc.Asleep, (hw q hqw).1, this]
      by_cases hqp : q = p
      · subst hqp; rw [hp]; simp [Proc.Asleep]
      · rw [hrest q hqw hqp]
  · intro y
    by_cases hy : y = x
    · subst hy
      rw [hself]
      refine hm.congr fun q => ?_
      by_cases hqw : q ∈ w
      · rw [hwoken q hqw]
        simp [Proc.owns_of_sleeping, hqw, (hw q hqw).1]
      by_cases hqp : q = p
      · subst hqp; rw [hp]; simp [Proc.owns_of_idle, hpc, hqw]
      · rw [hrest q hqw hqp]
        exact ⟨fun e => absurd e hqw, fun e => absurd ((h.mutex y).unique q p e howns) hqp⟩
    · rw [hlock y hy]
      refine (h.mutex y).congr fun q => ?_
      by_cases hqw : q ∈ w
      · rw [hwoken q hqw]
        simp [Proc.owns_of_sleeping (hw q hqw).1, Proc.owns_of_sleeping, (hw q hqw).1, hy]
      by_cases hqp : q = p
      · subst hqp; rw [hp]; simp [Proc.owns_of_idle, hpc, hy]
      · rw [hrest q hqw hqp]

/-- Every step keeps the locks right, as long as new pointers are new. -/
theorem Locks.effect (h : Locks s) (hbrk : ∀ q x, (s.procs q).Uses x → x < s.brk)
    (he : Effect s a t) : Locks t := by
  cases he with
  | @hit p b x hpc =>
    have hpc' : (s.procs p).pc = .idle := hpc
    refine h.same (p := p) (lock_setBlock rfl) (fun q hq => modify_procs_of_ne _ p _ hq) fun y => ?_
    simp [Proc.Asleep, Proc.owns_of_idle hpc', Proc.owns_of_lookedUp, hpc']
  | @miss p b hpc =>
    have hpc' : (s.procs p).pc = .idle := hpc
    have hnew : ∀ q, ¬ (s.procs q).Uses s.brk := fun q hq => absurd (hbrk q _ hq) (lt_irrefl _)
    have hp : ((alloc (evict s) p b).modify p fun o => { o with pc := .filling (evict s).brk }).procs
        p = { s.procs p with pc := .filling s.brk } := by simp [alloc]
    have hother : ∀ q, q ≠ p → ((alloc (evict s) p b).modify p
        fun o => { o with pc := .filling (evict s).brk }).procs q = s.procs q := by
      intro q hq
      rw [modify_procs_of_ne _ p _ hq]
      simp [alloc]
    refine h.change (p := p) (x := s.brk) (fun y hy => ?_) hother (fun y hy => ?_) ?_ ?_
    · simp [alloc, setBlock_heap_of_ne _ _ _ hy]
    · rw [hp]
      simp [Proc.Asleep, Proc.owns_of_idle hpc', Proc.owns_of_filling, hpc', hy]
    · have hlock : (((alloc (evict s) p b).modify p
          fun o => { o with pc := .filling (evict s).brk }).heap s.brk).lock = Sem.init 0 := by
        simp [alloc, Sem.down, Sem.sleeplock, Sem.init]
      rw [hlock]
      refine (Sem.tracks_init le_rfl).congr fun q => ?_
      by_cases hq : q = p
      · subst hq; rw [hp]; simp [Proc.Asleep]
      · rw [hother q hq]; exact ⟨False.elim, fun ha => hnew q ha.uses⟩
    · have hlock : (((alloc (evict s) p b).modify p
          fun o => { o with pc := .filling (evict s).brk }).heap s.brk).lock = Sem.init 0 := by
        simp [alloc, Sem.down, Sem.sleeplock, Sem.init]
      have honly : ∀ q, (((alloc (evict s) p b).modify p
          fun o => { o with pc := .filling (evict s).brk }).procs q).Owns s.brk → q = p := by
        intro q hq
        by_contra hqp
        rw [hother q hqp] at hq
        exact hnew q hq.uses
      rw [hlock]
      exact ⟨by simp [Sem.init], fun _ _ => le_rfl,
        fun q r hq hr => (honly q hq).trans (honly r hr).symm⟩
  | lockUnit hpc hd => exact h.lockUnit hpc hd
  | lockSleeps hpc hd => exact h.lockSleeps hpc hd
  | @woken p x hpc hu =>
    have hpc' : (s.procs p).pc = .sleeping x := hpc
    refine h.same (p := p) (fun _ => rfl) (fun q hq => modify_procs_of_ne _ p _ hq) fun y => ?_
    simp [Proc.Asleep, Proc.owns_of_sleeping hpc', Proc.owns_of_locked, hu]
  | interrupted hpc hu hab => exact h.interrupted hpc hu hab
  | @touch p x hpc =>
    have hpc' : (s.procs p).pc = .locked x := hpc
    refine h.same (p := p) (fun _ => rfl) (fun q hq => modify_procs_of_ne _ p _ hq) fun y => ?_
    simp [Proc.Asleep, Proc.owns_of_locked hpc', Proc.owns_of_idle, hpc']
  | @read p x hpc =>
    have hpc' : (s.procs p).pc = .filling x := hpc
    refine h.same (p := p) (fun _ => rfl) (fun q hq => modify_procs_of_ne _ p _ hq) fun y => ?_
    simp [Proc.Asleep, Proc.owns_of_filling hpc', Proc.owns_of_filled, hpc']
  | @insert p x hpc =>
    have hpc' : (s.procs p).pc = .filled x := hpc
    refine h.same (p := p) (fun _ => rfl) (fun q hq => modify_procs_of_ne _ p _ hq) fun y => ?_
    simp [Proc.Asleep, Proc.owns_of_filled hpc', Proc.owns_of_idle, hpc']
  | @release p x lock w hpc hx hpost =>
    have hpc' : (s.procs p).pc = .idle := hpc
    obtain ⟨_, _, hpost', hw, -⟩ := (h.queue x).post
    cases hpost.symm.trans hpost'
    have hpw : p ∉ w := fun hp => by
      have := (hw p hp).1
      rw [hpc'] at this; cases this
    refine h.handover hpc' hx hpost ?_ (fun y hy => ?_) ?_ (fun q hq => ?_) fun q hq hqp => ?_
    · simp [CacheState.wake]
    · simp [CacheState.wake, setBlock_heap_of_ne s x _ hy]
    · simp [CacheState.wake, hpw]
    · rw [modify_procs_of_ne _ p _ fun e => hpw (e ▸ hq)]
      simp [CacheState.wake, hq]
    · rw [modify_procs_of_ne _ p _ hqp]
      simp [CacheState.wake, hq]
  | @pin p x => exact h.same (p := p) (lock_setBlock rfl) (fun _ _ => rfl) fun _ => ⟨Iff.rfl, Iff.rfl⟩
  | @unpin p x =>
    exact h.same (p := p) (lock_setBlock rfl) (fun _ _ => rfl) fun _ => ⟨Iff.rfl, Iff.rfl⟩
  | @kill p =>
    refine h.same (p := p) (fun _ => rfl) (fun q hq => modify_procs_of_ne _ p _ hq) fun y => ?_
    simp [Proc.Asleep, Proc.Owns, Proc.Fills]

/-! ## The pointers and the list -/

/-- The block of a pointer that is in use keeps its number. -/
theorem Effect.blockNo (he : Effect s a t) {x : ℕ} (hx : x < s.brk) :
    (t.heap x).blockNo = (s.heap x).blockNo := by
  have hset : ∀ {y : ℕ} {k : Block P}, k.blockNo = (s.heap y).blockNo →
      ((s.setBlock y k).heap x).blockNo = (s.heap x).blockNo := by
    intro y k hk
    by_cases hxy : x = y
    · subst hxy; rw [setBlock_heap_self, hk]
    · rw [setBlock_heap_of_ne s y k hxy]
  cases he with
  | miss =>
    have : x ≠ s.brk := by omega
    simp [alloc, setBlock_heap_of_ne _ _ _ this]
  | hit => exact hset rfl
  | lockUnit => exact hset rfl
  | lockSleeps => exact hset rfl
  | interrupted => exact hset rfl
  | release => exact hset rfl
  | pin => exact hset rfl
  | unpin => exact hset rfl
  | _ => rfl

/-- A process comes to use a block by finding it in the list or by allocating it. -/
theorem Effect.uses (he : Effect s a t) {q : P} {y : ℕ} (hy : (t.procs q).Uses y) :
    (s.procs q).Uses y ∨ (∃ b, a = .acquire q b ∧ lookup s b = some y) ∨
      (y = s.brk ∧ (t.procs q).Fills y) := by
  -- only the process that takes the step can have changed its part
  have hmod : ∀ {p : P} {f : Proc → Proc}, ((f (s.procs p)).Uses y → (s.procs p).Uses y) →
      (Function.update s.procs p (f (s.procs p)) q).Uses y → (s.procs q).Uses y := by
    intro p f hf hq
    by_cases hqp : q = p
    · subst hqp; rw [Function.update_self] at hq; exact hf hq
    · rwa [Function.update_of_ne hqp] at hq
  cases he with
  | @hit p b x hpc hl =>
    by_cases hqp : q = p
    · subst hqp
      simp only [modify_procs_self, setBlock_procs, Proc.Uses, Pc.block] at hy
      rcases hy with hy | hy
      · cases hy; exact .inr (.inl ⟨b, rfl, hl⟩)
      · exact .inl (.inr hy)
    · rw [modify_procs_of_ne _ p _ hqp] at hy; exact .inl hy
  | @miss p b =>
    by_cases hqp : q = p
    · subst hqp
      simp only [modify_procs_self, evict_brk] at hy
      rcases hy with hy | hy
      · cases hy; exact .inr (.inr ⟨rfl, by simp [Proc.Fills, Pc.fills]⟩)
      · simp only [alloc, setBlock_procs, evict_procs] at hy; exact .inl (.inr hy)
    · rw [modify_procs_of_ne _ p _ hqp] at hy
      simp only [alloc, setBlock_procs, evict_procs] at hy
      exact .inl hy
  | @lockUnit p x lock hpc =>
    refine .inl (hmod (f := fun o => { o with pc := .locked x }) ?_ hy)
    simp [Proc.Uses, Pc.block, show (s.procs p).pc = _ from hpc]
  | @lockSleeps p x lock hpc =>
    refine .inl (hmod (f := fun o => { o with pc := .sleeping x, up := false }) ?_ hy)
    simp [Proc.Uses, Pc.block, show (s.procs p).pc = _ from hpc]
  | @woken p x hpc =>
    refine .inl (hmod (f := fun o => { o with pc := .locked x }) ?_ hy)
    simp [Proc.Uses, Pc.block, show (s.procs p).pc = _ from hpc]
  | @interrupted p x lock hpc =>
    refine .inl (hmod (f := fun o => { o with pc := .idle }) ?_ hy)
    simp +contextual [Proc.Uses, Pc.block]
  | @touch p x hpc =>
    refine .inl (hmod (f := fun o => { o with pc := .idle, held := Insert.insert x o.held }) ?_ hy)
    simp [Proc.Uses, Pc.block, show (s.procs p).pc = _ from hpc, eq_comm (a := y)]
  | @read p x hpc =>
    refine .inl (hmod (f := fun o => { o with pc := .filled x }) ?_ hy)
    simp [Proc.Uses, Pc.block, show (s.procs p).pc = _ from hpc]
  | @insert p x hpc =>
    refine .inl (hmod (f := fun o => { o with pc := .idle, held := Insert.insert x o.held }) ?_ hy)
    simp [Proc.Uses, Pc.block, show (s.procs p).pc = _ from hpc, eq_comm (a := y)]
  | @release p x lock w hpc =>
    left
    by_cases hqp : q = p
    · subst hqp
      rw [modify_procs_self] at hy
      rcases hy with hy | hy
      · left
        simp only [CacheState.wake, setBlock_procs] at hy
        split_ifs at hy <;> exact hy
      · right
        simp only [CacheState.wake, setBlock_procs] at hy
        split_ifs at hy <;> exact Finset.mem_of_mem_erase hy
    · rw [modify_procs_of_ne _ p _ hqp] at hy
      simp only [CacheState.wake, setBlock_procs] at hy
      split_ifs at hy <;> exact hy
  | pin => exact .inl hy
  | unpin => exact .inl hy
  | kill => exact .inl (hmod (f := fun o => { o with killed := true }) id hy)

/-- A process that fills a block after a step filled it before, or has just
    allocated it. -/
theorem Effect.fills (he : Effect s a t) {q : P} {y : ℕ} (hy : (t.procs q).Fills y) :
    (s.procs q).Fills y ∨ (y = s.brk ∧ ∃ b, a = .acquire q b ∧ lookup s b = none) := by
  have hmod : ∀ {p : P} {f : Proc → Proc}, ((f (s.procs p)).Fills y → (s.procs p).Fills y) →
      (Function.update s.procs p (f (s.procs p)) q).Fills y → (s.procs q).Fills y := by
    intro p f hf hq
    by_cases hqp : q = p
    · subst hqp; rw [Function.update_self] at hq; exact hf hq
    · rwa [Function.update_of_ne hqp] at hq
  cases he with
  | @hit p b x => exact .inl (hmod (f := fun o => { o with pc := .lookedUp x }) nofun hy)
  | @miss p b hpc hl =>
    by_cases hqp : q = p
    · subst hqp
      simp only [Proc.Fills, modify_procs_self, Pc.fills, Option.some.injEq, evict_brk] at hy
      exact .inr ⟨hy.symm, b, rfl, hl⟩
    · rw [modify_procs_of_ne _ p _ hqp] at hy
      simp only [alloc, setBlock_procs, evict_procs] at hy
      exact .inl hy
  | @lockUnit p x => exact .inl (hmod (f := fun o => { o with pc := .locked x }) nofun hy)
  | @lockSleeps p x =>
    exact .inl (hmod (f := fun o => { o with pc := .sleeping x, up := false }) nofun hy)
  | @woken p x => exact .inl (hmod (f := fun o => { o with pc := .locked x }) nofun hy)
  | @interrupted p x => exact .inl (hmod (f := fun o => { o with pc := .idle }) nofun hy)
  | @touch p x =>
    exact .inl (hmod (f := fun o => { o with pc := .idle, held := Insert.insert x o.held }) nofun hy)
  | @read p x hpc =>
    refine .inl (hmod (f := fun o => { o with pc := .filled x }) ?_ hy)
    simp [Proc.Fills, Pc.fills, show (s.procs p).pc = _ from hpc]
  | @insert p x =>
    exact .inl (hmod (f := fun o => { o with pc := .idle, held := Insert.insert x o.held }) nofun hy)
  | @release p x lock w hpc =>
    left
    by_cases hqp : q = p
    · subst hqp
      rw [modify_procs_self] at hy
      simp only [CacheState.wake, setBlock_procs] at hy
      split_ifs at hy <;> exact hy
    · rw [modify_procs_of_ne _ p _ hqp] at hy
      simp only [CacheState.wake, setBlock_procs] at hy
      split_ifs at hy <;> exact hy
  | pin => exact .inl hy
  | unpin => exact .inl hy
  | kill => exact .inl (hmod (f := fun o => { o with killed := true }) id hy)

/-- A process stops filling a block by putting it into the list. -/
theorem Effect.filled (he : Effect s a t) {q : P} {y : ℕ} (hy : (s.procs q).Fills y) :
    (t.procs q).Fills y ∨ y ∈ t.list := by
  by_cases hf : (t.procs q).Fills y
  · exact .inl hf
  right
  have hmod : ∀ {p : P} {f : Proc → Proc}, ((s.procs p).Fills y → (f (s.procs p)).Fills y) →
      ¬ (Function.update s.procs p (f (s.procs p)) q).Fills y → False := by
    intro p f hfill hq
    apply hq
    by_cases hqp : q = p
    · subst hqp; rw [Function.update_self]; exact hfill hy
    · rwa [Function.update_of_ne hqp]
  cases he with
  | @hit p b x hpc =>
    refine (hmod (f := fun o => { o with pc := .lookedUp x }) ?_ hf).elim
    simp [Proc.Fills, Pc.fills, show (s.procs p).pc = _ from hpc]
  | @miss p b hpc =>
    have hqp : q ≠ p := fun e => by
      subst e
      simp [Proc.Fills, Pc.fills, show (s.procs q).pc = _ from hpc] at hy
    rw [modify_procs_of_ne _ p _ hqp] at hf
    simp only [alloc, setBlock_procs, evict_procs] at hf
    exact absurd hy hf
  | @lockUnit p x lock hpc =>
    refine (hmod (f := fun o => { o with pc := .locked x }) ?_ hf).elim
    simp [Proc.Fills, Pc.fills, show (s.procs p).pc = _ from hpc]
  | @lockSleeps p x lock hpc =>
    refine (hmod (f := fun o => { o with pc := .sleeping x, up := false }) ?_ hf).elim
    simp [Proc.Fills, Pc.fills, show (s.procs p).pc = _ from hpc]
  | @woken p x hpc =>
    refine (hmod (f := fun o => { o with pc := .locked x }) ?_ hf).elim
    simp [Proc.Fills, Pc.fills, show (s.procs p).pc = _ from hpc]
  | @interrupted p x lock hpc =>
    refine (hmod (f := fun o => { o with pc := .idle }) ?_ hf).elim
    simp [Proc.Fills, Pc.fills, show (s.procs p).pc = _ from hpc]
  | @touch p x hpc =>
    refine (hmod (f := fun o => { o with pc := .idle, held := Insert.insert x o.held }) ?_ hf).elim
    simp [Proc.Fills, Pc.fills, show (s.procs p).pc = _ from hpc]
  | @read p x hpc =>
    refine (hmod (f := fun o => { o with pc := .filled x }) ?_ hf).elim
    simp [Proc.Fills, Pc.fills, show (s.procs p).pc = _ from hpc]
  | @insert p x hpc =>
    by_cases hqp : q = p
    · subst hqp
      simp only [Proc.Fills, Pc.fills, show (s.procs q).pc = _ from hpc, Option.some.injEq] at hy
      simp [hy]
    · rw [modify_procs_of_ne _ p _ hqp] at hf; exact absurd hy hf
  | @release p x lock w hpc =>
    exfalso
    apply hf
    by_cases hqp : q = p
    · subst hqp
      simp [Proc.Fills, Pc.fills, show (s.procs q).pc = _ from hpc] at hy
    · rw [modify_procs_of_ne _ p _ hqp]
      simp only [CacheState.wake, setBlock_procs]
      split_ifs <;> exact hy
  | pin => exact absurd hy hf
  | unpin => exact absurd hy hf
  | kill => exact (hmod (f := fun o => { o with killed := true }) id hf).elim

/-- How a step changes the list. -/
theorem Effect.list (he : Effect s a t) :
    (t.list = s.list ∧ ∀ p b, a = .acquire p b → lookup s b ≠ none) ∨
    (∃ p b, a = .acquire p b ∧ lookup s b = none ∧ t.list = (evict s).list) ∨
    (∃ p x, (s.procs p).Owns x ∧ ¬ (s.procs p).Fills x ∧ t.list = x :: s.list.erase x) ∨
    (∃ p x, s.pc p = .filled x ∧ ¬ (t.procs p).Fills x ∧ t.list = x :: s.list) := by
  cases he with
  | hit hpc hl => exact .inl ⟨rfl, by rintro p b ⟨⟩; simp [hl]⟩
  | @miss p b hpc hl => exact .inr (.inl ⟨p, b, rfl, hl, rfl⟩)
  | @touch p x hpc =>
    refine .inr (.inr (.inl ⟨p, x, .inl hpc, ?_, rfl⟩))
    simp [Proc.Fills, Pc.fills, show (s.procs p).pc = _ from hpc]
  | @insert p x hpc => exact .inr (.inr (.inr ⟨p, x, hpc, by simp [Proc.Fills, Pc.fills], rfl⟩))
  | _ => exact .inl ⟨rfl, nofun⟩

/-- The pointers in use and in the list were allocated, the list has no pointer
    twice, and a block that is being filled is not in it. -/
structure Ptrs (s : CacheState P) : Prop where
  brk : ∀ q x, (s.procs q).Uses x → x < s.brk
  list : ∀ x ∈ s.list, x < s.brk
  nodup : s.list.Nodup
  fill : ∀ q x, (s.procs q).Fills x → x ∉ s.list

theorem Effect.brk_le (he : Effect s a t) : s.brk ≤ t.brk := by
  cases he with
  | miss => simp [alloc]
  | _ => exact le_rfl

theorem Effect.brk_of_miss (he : Effect s a t) {p : P} {b : ℕ} (ha : a = .acquire p b)
    (hl : lookup s b = none) : t.brk = s.brk + 1 := by
  cases he with
  | hit _ hl' => cases ha; rw [hl] at hl'; cases hl'
  | miss => simp [alloc]
  | _ => cases ha

theorem Ptrs.effect (h : Ptrs s) (hl : Locks s) (he : Effect s a t) : Ptrs t := by
  have hle := he.brk_le
  have hbrk : ∀ q x, (t.procs q).Uses x → x < t.brk := by
    intro q x hx
    rcases he.uses hx with hu | ⟨b, -, hu⟩ | ⟨hu, hf⟩
    · exact (h.brk q x hu).trans_le hle
    · exact (h.list x (List.mem_of_find?_eq_some hu)).trans_le hle
    · rcases he.fills hf with hf | ⟨-, b, ha, hlook⟩
      · exact (h.brk q x hf.owns.uses).trans_le hle
      · rw [he.brk_of_miss ha hlook]; omega
  have hsub : ∀ q x, (t.procs q).Fills x → x ∉ s.list := by
    intro q x hx
    rcases he.fills hx with hf | ⟨hu, -⟩
    · exact h.fill q x hf
    · exact fun hm => absurd (h.list x hm) (by omega)
  rcases he.list with ⟨hlist, -⟩ | ⟨p, b, ha, hlook, hlist⟩ | ⟨p, x, ho, hnf, hlist⟩ |
    ⟨p, x, hpc, hnf, hlist⟩
  · refine ⟨hbrk, ?_, ?_, ?_⟩ <;> rw [hlist]
    · exact fun x hx => (h.list x hx).trans_le hle
    · exact h.nodup
    · exact hsub
  · refine ⟨hbrk, ?_, ?_, ?_⟩ <;> rw [hlist]
    · exact fun x hx => (h.list x (mem_evict_list hx)).trans_le hle
    · rcases evict_eq s with ⟨-, hev⟩ | ⟨v, -, hev⟩ <;> rw [hev]
      · exact h.nodup
      · exact h.nodup.erase v
    · exact fun q x hx hm => hsub q x hx (mem_evict_list hm)
  · refine ⟨hbrk, ?_, ?_, ?_⟩ <;> rw [hlist]
    · intro y hy
      rcases List.mem_cons.mp hy with rfl | hy
      · exact (h.brk p y ho.uses).trans_le hle
      · exact (h.list y (List.mem_of_mem_erase hy)).trans_le hle
    · exact List.nodup_cons.mpr ⟨fun hm => (h.nodup.mem_erase_iff.mp hm).1 rfl, h.nodup.erase x⟩
    · intro q y hy hm
      rcases List.mem_cons.mp hm with rfl | hm
      · rcases he.fills hy with hf | ⟨hu, -⟩
        · -- only the owner could fill the block
          have hqp := (hl.mutex y).unique q p hf.owns ho
          exact hnf (hqp ▸ hf)
        · exact absurd (h.brk p y ho.uses) (by omega)
      · exact hsub q y hy (List.mem_of_mem_erase hm)
  · have hpf : (s.procs p).Fills x := by simp [Proc.Fills, Pc.fills, show (s.procs p).pc = _ from hpc]
    refine ⟨hbrk, ?_, ?_, ?_⟩ <;> rw [hlist]
    · intro y hy
      rcases List.mem_cons.mp hy with rfl | hy
      · exact (h.brk p y hpf.owns.uses).trans_le hle
      · exact (h.list y hy).trans_le hle
    · exact List.nodup_cons.mpr ⟨h.fill p x hpf, h.nodup⟩
    · intro q y hy hm
      rcases List.mem_cons.mp hm with rfl | hm
      · rcases he.fills hy with hf | ⟨hu, -⟩
        · have hqp := (hl.mutex y).unique q p hf.owns hpf.owns
          exact hnf (hqp ▸ hy)
        · exact absurd (h.brk p y hpf.owns.uses) (by omega)
      · exact hsub q y hy hm

/-- What holds after every run, whatever order the steps are taken in. -/
structure Base (s : CacheState P) : Prop where
  locks : Locks s
  ptrs : Ptrs s

omit [DecidableEq P] in
theorem base_init : Base (init : CacheState P) :=
  ⟨locks_init, by simp [init, Proc.Uses, Pc.block], by simp [init], by simp [init],
    by simp [init, Proc.Fills]⟩

theorem Base.effect (h : Base s) (he : Effect s a t) : Base t :=
  ⟨h.locks.effect h.ptrs.brk he, h.ptrs.effect h.locks he⟩

end ShikiOS.Fs.Cache
