import ShikiOS.Lib.Count
import ShikiOS.Lib.Run

/-!
# Process identifiers (`kernel/proc.c`)

Any number of kernel threads create processes and reap them. A step is one section under
`pidlock`, one read of the list head or of the counter without the lock, one store to the
counter, or one process that enters or leaves the process tree.

A process is known by its pid only: those in the tree are the root, the ones in `live`, and
the zombies whose pid `wait` has already recycled and that it has yet to detach.

Results:
* `pids_unique`: if sections and reads do not meet in three ways, the pids in the tree are
  different, and the recycle list is never popped when it is empty.
* `same_pid_twice`: two threads that increment the counter get the same pid.
-/

namespace ShikiOS.Kernel.Pids

open ShikiOS.Lib

/-! ## State -/

/-- Where a thread is. -/
inductive Phase
  | idle
  /-- In `get_pid`, before its section (proc.c:39). -/
  | pop
  /-- In `get_pid`, before `++pid` reads the counter (proc.c:48). -/
  | read
  /-- In `get_pid`, before `++pid` stores the successor of `c`. -/
  | write (c : ℤ)
  /-- With a new process that is not yet in the tree. -/
  | created (p : ℤ)
  /-- In `wait`, between `recycle_pid` and `_detach_from_list` (proc.c:173-174). -/
  | detach (p : ℤ)
deriving DecidableEq, Repr

/-- `recycled` and `popped` record what was put into the list and taken from it. -/
structure PidState where
  counter : ℤ
  list : List ℤ
  live : List ℤ
  phase : ℕ → Phase
  fault : Bool
  recycled : List ℤ
  popped : List ℤ

/-- The pid of `root_proc`. -/
def rootPid : ℤ := 1

/-- The state after `init_kproc` (proc.c:55-69): `root_proc` has taken the first pid. -/
def start : PidState := ⟨1, [], [], fun _ => .idle, false, [], []⟩

/-- `++pid` for an `int`. -/
def incr (c : ℤ) : ℤ := Int.bmod (c + 1) (2 ^ 32)

/-! ## Steps -/

inductive Action
  /-- `if (pid_recycle_list)` (proc.c:37). -/
  | test
  /-- The section of `get_pid` (proc.c:39-45). -/
  | pop
  | read
  | write
  /-- The new process enters the tree (proc.c:120, 138, 353). -/
  | attach
  /-- The new process is given up (proc.c:338-344). -/
  | abandon
  /-- `recycle_pid` of a zombie (proc.c:26-33). -/
  | recycle (p : ℤ)
  /-- The zombie leaves the tree (proc.c:174). -/
  | detach
deriving DecidableEq, Repr

variable {n : ℕ}

def PidState.setPhase (s : PidState) (t : ℕ) (f : Phase) : PidState :=
  { s with phase := Function.update s.phase t f }

/-- A step of the thread `t`, if it is there. -/
def step (s : PidState) (t : ℕ) : Action → Phase → Option PidState
  | .test, .idle => some (s.setPhase t (if s.list ≠ [] then .pop else .read))
  | .pop, .pop =>
    match s.list with
    | [] => some { s with fault := true }
    | p :: list => some { s.setPhase t (.created p) with list := list, popped := p :: s.popped }
  | .read, .read => some (s.setPhase t (.write s.counter))
  | .write, .write c => some { s.setPhase t (.created (incr c)) with counter := incr c }
  | .attach, .created p => some { s.setPhase t .idle with live := p :: s.live }
  | .abandon, .created _ => some (s.setPhase t .idle)
  | .recycle p, .idle =>
    if p ∈ s.live then
      some { s.setPhase t (.detach p) with
        live := s.live.erase p, list := p :: s.list, recycled := p :: s.recycled }
    else none
  | .detach, .detach _ => some (s.setPhase t .idle)
  | _, _ => none

/-- A step of one of `n` threads; there is none after a fault. -/
def next (n : ℕ) (s : PidState) (a : ℕ × Action) : Option PidState :=
  if s.fault = false ∧ a.1 < n then step s a.1 a.2 (s.phase a.1) else none

/-! ## The property -/

/-- The pid of a zombie that is about to leave the tree. -/
def Phase.detaching : Phase → Option ℤ
  | .detach p => some p
  | _ => none

/-- The pids of the processes in the tree. -/
def PidState.treePids (n : ℕ) (s : PidState) : List ℤ :=
  rootPid :: (s.live ++ (List.range n).filterMap fun t => (s.phase t).detaching)

/-- Pids in the tree are different, the list was never popped when it was empty, and what
    was recycled is in the list or was handed out once. -/
def Unique (n : ℕ) (s : PidState) : Prop :=
  (s.treePids n).Nodup ∧ s.fault = false ∧ s.recycled.Perm (s.popped ++ s.list)

/-- The number of threads that are about to pop. -/
def PidState.poppers (n : ℕ) (s : PidState) : ℤ := countIf n fun t => s.phase t = .pop

/-- Between the read and the store of `++pid`. -/
def Phase.isWrite : Phase → Bool
  | .write _ => true
  | _ => false

/-- The pid of the new process. -/
def Phase.newPid : Phase → Option ℤ
  | .created p => some p
  | _ => none

/-- What the code relies on: enough nodes for all threads that found the list non-empty; one
    thread at a time in `++pid`, which does not overflow; a zombie that has left the tree
    before the next owner of its pid enters it. -/
def Ok (n : ℕ) (s : PidState) : ℕ × Action → Prop
  | (_, .test) => s.list = [] ∨ s.poppers n < s.list.length
  | (_, .read) => s.counter < 2 ^ 31 - 1 ∧ ∀ t < n, (s.phase t).isWrite = false
  | (t, .attach) => ∀ t' < n, ∀ p ∈ (s.phase t).newPid, s.phase t' ≠ .detach p
  | _ => True

instance (n : ℕ) (s : PidState) : ∀ a, Decidable (Ok n s a)
  | (_, .test) => inferInstanceAs (Decidable (s.list = [] ∨ s.poppers n < s.list.length))
  | (_, .read) =>
    inferInstanceAs (Decidable (s.counter < 2 ^ 31 - 1 ∧ ∀ t < n, (s.phase t).isWrite = false))
  | (t, .attach) =>
    inferInstanceAs (Decidable (∀ t' < n, ∀ p ∈ (s.phase t).newPid, s.phase t' ≠ .detach p))
  | (_, .pop) | (_, .write) | (_, .abandon) | (_, .recycle _) | (_, .detach) =>
    inferInstanceAs (Decidable True)

/-! ## The invariant -/

/-- The pids between `2` and the counter are the live ones, those in the list and those of
    new processes, each at most once. The pid of a zombie that is being detached is one of the
    latter two. -/
structure Inv (n : ℕ) (s : PidState) : Prop where
  running : s.fault = false
  balance : s.recycled.Perm (s.popped ++ s.list)
  counter : rootPid ≤ s.counter
  live : s.live.Nodup ∧ ∀ p ∈ s.live, rootPid < p ∧ p ≤ s.counter
  list : s.list.Nodup ∧ ∀ p ∈ s.list, rootPid < p ∧ p ≤ s.counter ∧ p ∉ s.live
  created : ∀ t p, s.phase t = .created p →
    rootPid < p ∧ p ≤ s.counter ∧ p ∉ s.live ∧ p ∉ s.list ∧
      ∀ t', t' ≠ t → s.phase t' ≠ .created p
  detach : ∀ t p, s.phase t = .detach p →
    rootPid < p ∧ p ≤ s.counter ∧ p ∉ s.live ∧ ∀ t', t' ≠ t → s.phase t' ≠ .detach p
  write : ∀ t c, s.phase t = .write c →
    c = s.counter ∧ c < 2 ^ 31 - 1 ∧ ∀ t', t' ≠ t → (s.phase t').isWrite = false
  idle : ∀ t, n ≤ t → s.phase t = .idle
  poppers : s.poppers n ≤ s.list.length

theorem Inv.start : Inv n start where
  running := rfl
  balance := List.Perm.refl _
  counter := le_rfl
  live := ⟨List.nodup_nil, fun _ h => absurd h List.not_mem_nil⟩
  list := ⟨List.nodup_nil, fun _ h => absurd h List.not_mem_nil⟩
  created _ _ h := by cases h
  detach _ _ h := by cases h
  write _ _ h := by cases h
  idle _ _ := rfl
  poppers := by
    show countIf n _ ≤ 0
    rw [countIf_none fun _ _ => nofun]

theorem Inv.unique {s : PidState} (h : Inv n s) : Unique n s := by
  refine ⟨?_, h.running, h.balance⟩
  have hdetach {p : ℤ} (hp : p ∈ (List.range n).filterMap fun t => (s.phase t).detaching) :
      ∃ t, s.phase t = .detach p := by
    obtain ⟨t, -, ht⟩ := List.mem_filterMap.mp hp
    refine ⟨t, ?_⟩
    cases hphase : s.phase t <;> rw [hphase] at ht <;> cases ht
    rfl
  have hnodup : ((List.range n).filterMap fun t => (s.phase t).detaching).Nodup := by
    refine List.nodup_range.filterMap fun t t' p ht ht' => ?_
    by_contra hne
    cases hphase : s.phase t <;> rw [hphase] at ht <;> cases ht
    cases hphase' : s.phase t' <;> rw [hphase'] at ht' <;> cases ht'
    exact (h.detach t p hphase).2.2.2 t' (Ne.symm hne) hphase'
  unfold PidState.treePids
  rw [List.nodup_cons, List.nodup_append]
  refine ⟨?_, h.live.1, hnodup, ?_⟩
  · rw [List.mem_append]
    rintro (hp | hp)
    · exact absurd (h.live.2 _ hp).1 (lt_irrefl _)
    · obtain ⟨t, ht⟩ := hdetach hp
      exact absurd (h.detach t _ ht).1 (lt_irrefl _)
  · rintro p hp q hq rfl
    obtain ⟨t, ht⟩ := hdetach hq
    exact (h.detach t p ht).2.2.1 hp

/-! ## Steps -/

variable {s s' : PidState} {t : ℕ}

/-- Where a thread is after `t` has moved to `f`. -/
theorem phase_moved {φ : ℕ → Phase} {f g : Phase} {t' : ℕ} (h : Function.update φ t f t' = g) :
    t' = t ∧ f = g ∨ t' ≠ t ∧ φ t' = g := by
  by_cases ht : t' = t
  · subst ht
    exact .inl ⟨rfl, by rwa [Function.update_self] at h⟩
  · exact .inr ⟨ht, by rwa [Function.update_of_ne ht] at h⟩

theorem phase_ne {φ : ℕ → Phase} {f g : Phase} {t' : ℕ} (hf : f ≠ g) (h : t' ≠ t → φ t' ≠ g) :
    Function.update φ t f t' ≠ g := by
  intro heq
  rcases phase_moved heq with ⟨-, hfg⟩ | ⟨hne, hφ⟩
  · exact hf hfg
  · exact h hne hφ

theorem poppers_moved (ht : t < n) (φ : ℕ → Phase) (f : Phase) :
    countIf n (fun t' => Function.update φ t f t' = .pop) =
      countIf n (fun t' => φ t' = .pop) - (if φ t = .pop then 1 else 0) +
        if f = .pop then 1 else 0 := by
  have := countIf_change (P := fun t' => φ t' = .pop)
    (Q := fun t' => Function.update φ t f t' = .pop) ht
    fun t' hne => by rw [Function.update_of_ne hne]
  rwa [Function.update_self] at this

/-- A thread moves between phases in which it holds nothing. -/
theorem Inv.move (h : Inv n s) (ht : t < n) {f : Phase} (hnew : f.newPid = none)
    (hdet : f.detaching = none) (hwrite : f.isWrite = false)
    (hpop : (s.setPhase t f).poppers n ≤ s.list.length) : Inv n (s.setPhase t f) where
  running := h.running
  balance := h.balance
  counter := h.counter
  live := h.live
  list := h.list
  created t' p hp := by
    rcases phase_moved hp with ⟨-, rfl⟩ | ⟨-, hφ⟩
    · cases hnew
    · obtain ⟨h1, h2, h3, h4, h5⟩ := h.created t' p hφ
      refine ⟨h1, h2, h3, h4, fun t'' hne => phase_ne ?_ fun _ => h5 t'' hne⟩
      rintro rfl
      cases hnew
  detach t' p hp := by
    rcases phase_moved hp with ⟨-, rfl⟩ | ⟨-, hφ⟩
    · cases hdet
    · obtain ⟨h1, h2, h3, h4⟩ := h.detach t' p hφ
      refine ⟨h1, h2, h3, fun t'' hne => phase_ne ?_ fun _ => h4 t'' hne⟩
      rintro rfl
      cases hdet
  write t' c hc := by
    rcases phase_moved hc with ⟨-, rfl⟩ | ⟨-, hφ⟩
    · cases hwrite
    · obtain ⟨h1, h2, h3⟩ := h.write t' c hφ
      refine ⟨h1, h2, fun t'' hne => ?_⟩
      show (Function.update s.phase t f t'').isWrite = false
      by_cases hup : t'' = t
      · rw [hup, Function.update_self]
        exact hwrite
      · rw [Function.update_of_ne hup]
        exact h3 t'' hne
  idle t' ht' := by
    show Function.update s.phase t f t' = .idle
    rw [Function.update_of_ne (by omega)]
    exact h.idle t' ht'
  poppers := hpop

/-- The thread was not about to pop, and is not now. -/
theorem Inv.poppers_same (h : Inv n s) (ht : t < n) {f : Phase} (hold : s.phase t ≠ .pop)
    (hnew : f ≠ .pop) : (s.setPhase t f).poppers n ≤ s.list.length := by
  have := h.poppers
  unfold PidState.poppers PidState.setPhase at *
  rw [poppers_moved ht, if_neg hold, if_neg hnew]
  omega

theorem Inv.test (h : Inv n s) (ht : t < n) (hphase : s.phase t = .idle)
    (hok : s.list = [] ∨ s.poppers n < s.list.length) :
    Inv n (s.setPhase t (if s.list ≠ [] then .pop else .read)) := by
  have hold : s.phase t ≠ .pop := by
    rw [hphase]
    exact nofun
  by_cases hlist : s.list = []
  · rw [if_neg (not_not_intro hlist)]
    exact h.move ht rfl rfl rfl (h.poppers_same ht hold nofun)
  · rw [if_pos hlist]
    refine h.move ht rfl rfl rfl ?_
    have hlt := hok.resolve_left hlist
    unfold PidState.poppers PidState.setPhase at *
    rw [poppers_moved ht, if_neg hold, if_pos rfl]
    omega

/-- The thread gives up what it holds. -/
theorem Inv.release (h : Inv n s) (ht : t < n) (hold : s.phase t ≠ .pop) :
    Inv n (s.setPhase t .idle) :=
  h.move ht rfl rfl rfl (h.poppers_same ht hold nofun)

theorem Inv.read (h : Inv n s) (ht : t < n) (hphase : s.phase t = .read)
    (hlt : s.counter < 2 ^ 31 - 1) (hone : ∀ t < n, (s.phase t).isWrite = false) :
    Inv n (s.setPhase t (.write s.counter)) where
  running := h.running
  balance := h.balance
  counter := h.counter
  live := h.live
  list := h.list
  created t' p hp := by
    rcases phase_moved hp with ⟨-, hf⟩ | ⟨-, hφ⟩
    · cases hf
    · obtain ⟨h1, h2, h3, h4, h5⟩ := h.created t' p hφ
      exact ⟨h1, h2, h3, h4, fun t'' hne => phase_ne nofun fun _ => h5 t'' hne⟩
  detach t' p hp := by
    rcases phase_moved hp with ⟨-, hf⟩ | ⟨-, hφ⟩
    · cases hf
    · obtain ⟨h1, h2, h3, h4⟩ := h.detach t' p hφ
      exact ⟨h1, h2, h3, fun t'' hne => phase_ne nofun fun _ => h4 t'' hne⟩
  write t' c hc := by
    have hnone : ∀ t, (s.phase t).isWrite = false := by
      intro t
      by_cases htn : t < n
      · exact hone t htn
      · rw [h.idle t (by omega)]
        rfl
    rcases phase_moved hc with ⟨rfl, hf⟩ | ⟨-, hφ⟩
    · cases hf
      refine ⟨rfl, hlt, fun t'' hne => ?_⟩
      show (Function.update s.phase t' _ t'').isWrite = false
      rw [Function.update_of_ne hne]
      exact hnone t''
    · have := hnone t'
      rw [hφ] at this
      cases this
  idle t' ht' := by
    show Function.update s.phase t _ t' = .idle
    rw [Function.update_of_ne (by omega)]
    exact h.idle t' ht'
  poppers := by
    refine h.poppers_same ht ?_ nofun
    rw [hphase]
    exact nofun

/-- A pid that nobody has goes to the thread. -/
theorem Inv.give (h : Inv n s) (ht : t < n) {p counter : ℤ} {list popped : List ℤ}
    (hcounter : s.counter ≤ counter) (hp : rootPid < p ∧ p ≤ counter)
    (hsub : list.Sublist s.list) (hlist : p ∉ list) (hlive : p ∉ s.live)
    (hcreated : ∀ t', s.phase t' ≠ .created p) (hbalance : s.recycled.Perm (popped ++ list))
    (hwrite : ∀ t', t' ≠ t → (s.phase t').isWrite = false ∨ counter = s.counter)
    (hpop : (s.setPhase t (.created p)).poppers n ≤ list.length) :
    Inv n { s.setPhase t (.created p) with counter := counter, list := list, popped := popped } where
  running := h.running
  balance := hbalance
  counter := h.counter.trans hcounter
  live := ⟨h.live.1, fun q hq => ⟨(h.live.2 q hq).1, (h.live.2 q hq).2.trans hcounter⟩⟩
  list := by
    refine ⟨h.list.1.sublist hsub, fun q hq => ?_⟩
    obtain ⟨h1, h2, h3⟩ := h.list.2 q (hsub.subset hq)
    exact ⟨h1, h2.trans hcounter, h3⟩
  created t' q hq := by
    rcases phase_moved hq with ⟨rfl, hf⟩ | ⟨hne, hφ⟩
    · cases hf
      refine ⟨hp.1, hp.2, hlive, hlist, fun t'' hne => ?_⟩
      show Function.update s.phase t' _ t'' ≠ _
      rw [Function.update_of_ne hne]
      exact hcreated t''
    · obtain ⟨h1, h2, h3, h4, h5⟩ := h.created t' q hφ
      refine ⟨h1, h2.trans hcounter, h3, fun hmem => h4 (hsub.subset hmem), fun t'' hne' => ?_⟩
      refine phase_ne ?_ fun _ => h5 t'' hne'
      rintro hf
      cases hf
      exact hcreated t' hφ
  detach t' q hq := by
    rcases phase_moved hq with ⟨-, hf⟩ | ⟨-, hφ⟩
    · cases hf
    · obtain ⟨h1, h2, h3, h4⟩ := h.detach t' q hφ
      exact ⟨h1, h2.trans hcounter, h3, fun t'' hne => phase_ne nofun fun _ => h4 t'' hne⟩
  write t' c hc := by
    rcases phase_moved hc with ⟨-, hf⟩ | ⟨hne, hφ⟩
    · cases hf
    · obtain ⟨h1, h2, h3⟩ := h.write t' c hφ
      have hcount : counter = s.counter := by
        refine (hwrite t' hne).resolve_left ?_
        rw [hφ]
        exact nofun
      refine ⟨h1.trans hcount.symm, h2, fun t'' hne' => ?_⟩
      show (Function.update s.phase t _ t'').isWrite = false
      by_cases hup : t'' = t
      · rw [hup, Function.update_self]
        rfl
      · rw [Function.update_of_ne hup]
        exact h3 t'' hne'
  idle t' ht' := by
    show Function.update s.phase t _ t' = .idle
    rw [Function.update_of_ne (by omega)]
    exact h.idle t' ht'
  poppers := hpop

theorem Inv.pop (h : Inv n s) (ht : t < n) (hphase : s.phase t = .pop) :
    ∃ p list, s.list = p :: list ∧
      Inv n { s.setPhase t (.created p) with list := list, popped := p :: s.popped } := by
  have hpos : 0 < s.poppers n := countIf_pos ht hphase
  have hle := h.poppers
  obtain ⟨p, list, hlist⟩ := List.exists_cons_of_ne_nil (l := s.list) fun hnil => by
    rw [hnil] at hle
    simp only [List.length_nil, Nat.cast_zero] at hle
    omega
  have hnodup := h.list.1
  have hmem := h.list.2 p (by rw [hlist]; exact List.mem_cons_self)
  rw [hlist, List.nodup_cons] at hnodup
  refine ⟨p, list, hlist, h.give ht le_rfl ⟨hmem.1, hmem.2.1⟩ ?_ hnodup.1 hmem.2.2 ?_ ?_ ?_ ?_⟩
  · rw [hlist]
    exact List.sublist_cons_self p list
  · intro t' hcreated
    refine (h.created t' p hcreated).2.2.2.1 ?_
    rw [hlist]
    exact List.mem_cons_self
  · refine h.balance.trans ?_
    rw [hlist]
    exact List.perm_middle
  · exact fun _ _ => .inr rfl
  · have hle := h.poppers
    rw [hlist] at hle
    unfold PidState.poppers PidState.setPhase at *
    rw [poppers_moved ht, if_pos hphase, if_neg nofun]
    simp only [List.length_cons, Nat.cast_add, Nat.cast_one] at hle
    omega

theorem Inv.store (h : Inv n s) (ht : t < n) {c : ℤ} (hphase : s.phase t = .write c) :
    Inv n { s.setPhase t (.created (incr c)) with counter := incr c } := by
  obtain ⟨rfl, hlt, hone⟩ := h.write t c hphase
  have hcounter : 1 ≤ s.counter := h.counter
  have hincr : incr s.counter = s.counter + 1 := by
    unfold incr
    rw [Int.bmod_eq_of_le (by norm_num; omega) (by norm_num; omega)]
  rw [hincr]
  refine h.give ht (by omega) ?_ (List.Sublist.refl _) ?_ ?_ ?_ h.balance ?_ ?_
  · unfold rootPid
    omega
  · intro hmem
    have := (h.list.2 _ hmem).2.1
    omega
  · intro hmem
    have := (h.live.2 _ hmem).2
    omega
  · intro t' hcreated
    have := (h.created t' _ hcreated).2.1
    omega
  · exact fun t' hne => .inl (hone t' hne)
  · refine h.poppers_same ht ?_ nofun
    rw [hphase]
    exact nofun

theorem Inv.attach (h : Inv n s) (ht : t < n) {p : ℤ} (hphase : s.phase t = .created p)
    (hok : ∀ t' < n, s.phase t' ≠ .detach p) :
    Inv n { s.setPhase t .idle with live := p :: s.live } := by
  obtain ⟨h1, h2, h3, h4, h5⟩ := h.created t p hphase
  have hmove := h.release ht (by rw [hphase]; exact nofun)
  exact {
    hmove with
    live := by
      refine ⟨List.nodup_cons.mpr ⟨h3, h.live.1⟩, fun q hq => ?_⟩
      rcases List.mem_cons.mp hq with rfl | hq
      · exact ⟨h1, h2⟩
      · exact h.live.2 q hq
    list := by
      refine ⟨h.list.1, fun q hq => ?_⟩
      obtain ⟨hq1, hq2, hq3⟩ := h.list.2 q hq
      refine ⟨hq1, hq2, ?_⟩
      rw [List.mem_cons, not_or]
      refine ⟨?_, hq3⟩
      rintro rfl
      exact h4 hq
    created := by
      intro t' q hq
      obtain ⟨hq1, hq2, hq3, hq4, hq5⟩ := hmove.created t' q hq
      refine ⟨hq1, hq2, ?_, hq4, hq5⟩
      rw [List.mem_cons, not_or]
      refine ⟨?_, hq3⟩
      rintro rfl
      rcases phase_moved hq with ⟨-, hf⟩ | ⟨hne, hφ⟩
      · cases hf
      · exact h5 t' hne hφ
    detach := by
      intro t' q hq
      obtain ⟨hq1, hq2, hq3, hq4⟩ := hmove.detach t' q hq
      refine ⟨hq1, hq2, ?_, hq4⟩
      rw [List.mem_cons, not_or]
      refine ⟨?_, hq3⟩
      rintro rfl
      rcases phase_moved hq with ⟨-, hf⟩ | ⟨-, hφ⟩
      · cases hf
      · refine hok t' ?_ hφ
        by_contra hn
        rw [h.idle t' (by omega)] at hφ
        cases hφ }

theorem Inv.recycle (h : Inv n s) (ht : t < n) (hphase : s.phase t = .idle) {p : ℤ}
    (hp : p ∈ s.live) :
    Inv n { s.setPhase t (.detach p) with
      live := s.live.erase p, list := p :: s.list, recycled := p :: s.recycled } where
  running := h.running
  balance := ((h.balance.cons p).trans (List.perm_middle).symm)
  counter := h.counter
  live := ⟨h.live.1.erase p, fun q hq => h.live.2 q (List.mem_of_mem_erase hq)⟩
  list := by
    refine ⟨List.nodup_cons.mpr ⟨fun hmem => (h.list.2 p hmem).2.2 hp, h.list.1⟩, fun q hq => ?_⟩
    rcases List.mem_cons.mp hq with rfl | hq
    · exact ⟨(h.live.2 q hp).1, (h.live.2 q hp).2, h.live.1.not_mem_erase⟩
    · obtain ⟨h1, h2, h3⟩ := h.list.2 q hq
      exact ⟨h1, h2, fun hmem => h3 (List.mem_of_mem_erase hmem)⟩
  created t' q hq := by
    rcases phase_moved hq with ⟨-, hf⟩ | ⟨-, hφ⟩
    · cases hf
    · obtain ⟨h1, h2, h3, h4, h5⟩ := h.created t' q hφ
      refine ⟨h1, h2, fun hmem => h3 (List.mem_of_mem_erase hmem), ?_,
        fun t'' hne => phase_ne nofun fun _ => h5 t'' hne⟩
      rw [List.mem_cons, not_or]
      refine ⟨?_, h4⟩
      rintro rfl
      exact h3 hp
  detach t' q hq := by
    rcases phase_moved hq with ⟨rfl, hf⟩ | ⟨hne, hφ⟩
    · cases hf
      refine ⟨(h.live.2 p hp).1, (h.live.2 p hp).2, h.live.1.not_mem_erase, fun t'' hne => ?_⟩
      show Function.update s.phase t' _ t'' ≠ _
      rw [Function.update_of_ne hne]
      exact fun hφ => (h.detach t'' p hφ).2.2.1 hp
    · obtain ⟨h1, h2, h3, h4⟩ := h.detach t' q hφ
      refine ⟨h1, h2, fun hmem => h3 (List.mem_of_mem_erase hmem), fun t'' hne' => ?_⟩
      refine phase_ne ?_ fun _ => h4 t'' hne'
      rintro hf
      cases hf
      exact h3 hp
  write t' c hc := by
    rcases phase_moved hc with ⟨-, hf⟩ | ⟨-, hφ⟩
    · cases hf
    · obtain ⟨h1, h2, h3⟩ := h.write t' c hφ
      refine ⟨h1, h2, fun t'' hne => ?_⟩
      show (Function.update s.phase t _ t'').isWrite = false
      by_cases hup : t'' = t
      · rw [hup, Function.update_self]
        rfl
      · rw [Function.update_of_ne hup]
        exact h3 t'' hne
  idle t' ht' := by
    show Function.update s.phase t _ t' = .idle
    rw [Function.update_of_ne (by omega)]
    exact h.idle t' ht'
  poppers := by
    have := h.poppers_same ht (f := .detach p) (by rw [hphase]; exact nofun) nofun
    simp only [List.length_cons, Nat.cast_add, Nat.cast_one]
    exact this.trans (by omega)

/-- A step under the condition. -/
theorem Inv.step (h : Inv n s) {a : ℕ × Action} (hok : Ok n s a) (hs : next n s a = some s') :
    Inv n s' := by
  obtain ⟨t, a⟩ := a
  unfold next at hs
  split_ifs at hs with hnext
  have ht : t < n := hnext.2
  cases hphase : s.phase t with
  | idle =>
    cases a with
    | test =>
      simp only [hphase, Pids.step, Option.some_inj] at hs
      exact hs ▸ h.test ht hphase hok
    | recycle p =>
      simp only [hphase, Pids.step] at hs
      split_ifs at hs with hp
      exact Option.some_inj.mp hs ▸ h.recycle ht hphase hp
    | _ => simp [hphase, Pids.step] at hs
  | pop =>
    cases a with
    | pop =>
      obtain ⟨p, list, hlist, hinv⟩ := h.pop ht hphase
      simp only [hphase, Pids.step, hlist, Option.some_inj] at hs
      exact hs ▸ hinv
    | _ => simp [hphase, Pids.step] at hs
  | read =>
    cases a with
    | read =>
      simp only [hphase, Pids.step, Option.some_inj] at hs
      exact hs ▸ h.read ht hphase hok.1 hok.2
    | _ => simp [hphase, Pids.step] at hs
  | write c =>
    cases a with
    | write =>
      simp only [hphase, Pids.step, Option.some_inj] at hs
      exact hs ▸ h.store ht hphase
    | _ => simp [hphase, Pids.step] at hs
  | created p =>
    have hold : s.phase t ≠ .pop := by
      rw [hphase]
      exact nofun
    cases a with
    | attach =>
      simp only [hphase, Pids.step, Option.some_inj] at hs
      refine hs ▸ h.attach ht hphase fun t' ht' => hok t' ht' p ?_
      rw [hphase]
      rfl
    | abandon =>
      simp only [hphase, Pids.step, Option.some_inj] at hs
      exact hs ▸ h.release ht hold
    | _ => simp [hphase, Pids.step] at hs
  | detach p =>
    have hold : s.phase t ≠ .pop := by
      rw [hphase]
      exact nofun
    cases a with
    | detach =>
      simp only [hphase, Pids.step, Option.some_inj] at hs
      exact hs ▸ h.release ht hold
    | _ => simp [hphase, Pids.step] at hs

/-! ## Runs -/

/-- In every run under the condition, the pids of the processes in the tree are different, no
    thread takes a node from an empty list, and every recycled pid is still in the list or
    was handed out, once for each time that it was recycled. -/
theorem pids_unique (n : ℕ) (s : PidState) (hrun : Run (next n) (Ok n) start s) : Unique n s :=
  (hrun.invariant (I := Inv n) Inv.start fun _ _ _ h hok hs => h.step hok hs).unique

/-- Two threads: a process is created and reaped, and its pid is used again while the other
    thread creates a process. -/
theorem pids_unique_reuse : ∃ s, Run (next 2) (Ok 2) start s ∧ Unique 2 s ∧
    s.treePids 2 = [1, 3, 2] := by
  have hexec : (execIf (next 2) (Ok 2) start
      [(0, .test), (0, .read), (0, .write), (0, .attach), (1, .test), (0, .recycle 2), (1, .read),
        (0, .detach), (0, .test), (1, .write), (0, .pop), (0, .attach), (1, .attach)]).map
          (fun s => s.treePids 2) = some [1, 3, 2] := by
    decide +kernel
  obtain ⟨s, hrun, hs⟩ := Run.of_execIf_map hexec
  exact ⟨s, hrun, pids_unique 2 s hrun, hs⟩

/-- Two threads find the list empty and increment the counter; both read it before one of
    them stores its successor. -/
theorem same_pid_twice : ∃ s, Run (next 2) anyStep start s ∧ s.treePids 2 = [1, 2, 2] := by
  have hexec : (exec (next 2) start
      [(0, .test), (1, .test), (0, .read), (1, .read), (0, .write), (1, .write), (0, .attach),
        (1, .attach)]).map (fun s => s.treePids 2) = some [1, 2, 2] := by
    decide +kernel
  obtain ⟨s, hs, hpids⟩ := Option.map_eq_some_iff.mp hexec
  exact ⟨s, Run.of_exec hs, hpids⟩

end ShikiOS.Kernel.Pids
