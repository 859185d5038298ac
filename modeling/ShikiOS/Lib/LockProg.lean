import ShikiOS.Lib.Run

/-!
# Programs that take and post locks

A program takes locks, posts them, sets new ones up and drops them, and asks for what it
cannot know: the content of a memory that others change too. `LockState` runs any number
of processes, each of which makes one call after the other; a step is one operation on a
lock or one answer. A lock is the value of a semaphore; a process that finds 0 there
waits. A dropped lock has no value, and no step uses it.

`Balanced x Q h` says that `x`, started with `h p` units of each lock `p`, posts no lock that
it does not have and ends in `Q`.

Results:
* `Mutex.step`, `Mutex.run`: if each call is balanced, then every lock is a mutex as long as
  no lock in use is dropped.
* `Mutex.value_le`, `Mutex.holder`, `Mutex.returns`: what this says.
-/

namespace ShikiOS.Lib

variable {ι A α β : Type}

/-- A program over locks `ι` and answers `A`. -/
inductive LockProg (ι A α : Type)
  /-- It ends with a result. -/
  | ret (a : α)
  /-- It does not go on. -/
  | stop
  | take (p : ι) (k : LockProg ι A α)
  | post (p : ι) (k : LockProg ι A α)
  /-- A new lock with value 1. -/
  | init (k : ι → LockProg ι A α)
  | drop (p : ι) (k : LockProg ι A α)
  | ask (k : A → LockProg ι A α)
  /-- A place that a condition on a run can speak of. -/
  | mark (k : LockProg ι A α)

namespace LockProg

/-- One program after the other. -/
def bind : LockProg ι A α → (α → LockProg ι A β) → LockProg ι A β
  | ret a, f => f a
  | stop, _ => stop
  | take p k, f => take p (k.bind f)
  | post p k, f => post p (k.bind f)
  | init k, f => init fun p => (k p).bind f
  | drop p k, f => drop p (k.bind f)
  | ask k, f => ask fun a => (k a).bind f
  | mark k, f => mark (k.bind f)

instance : Monad (LockProg ι A) where
  pure := ret
  bind := bind

/-! ## Balanced programs -/

section Balanced

variable [DecidableEq ι]

/-- The program posts no lock that it does not have and ends in `Q`. Nothing is said of what
    comes after a mark. -/
def Balanced : LockProg ι A α → (α → (ι → ℕ) → Prop) → (ι → ℕ) → Prop
  | ret a, Q, h => Q a h
  | stop, _, _ => True
  | take p k, Q, h => k.Balanced Q (Function.update h p (h p + 1))
  | post p k, Q, h => 0 < h p ∧ k.Balanced Q (Function.update h p (h p - 1))
  | init k, Q, h => ∀ p, (k p).Balanced Q h
  | drop _ k, Q, h => k.Balanced Q h
  | ask k, Q, h => ∀ a, (k a).Balanced Q h
  | mark _, _, _ => True

variable {x : LockProg ι A α} {f : α → LockProg ι A β} {Q Q' : α → (ι → ℕ) → Prop}
  {R : β → (ι → ℕ) → Prop} {h : ι → ℕ} {p : ι}

theorem Balanced.imp (hx : x.Balanced Q h) (hq : ∀ a h, Q a h → Q' a h) : x.Balanced Q' h := by
  induction x generalizing h with
  | ret a => exact hq a h hx
  | stop => trivial
  | take p k ih => exact ih hx
  | post p k ih => exact ⟨hx.1, ih hx.2⟩
  | init k ih => exact fun p => ih p (hx p)
  | drop p k ih => exact ih hx
  | ask k ih => exact fun a => ih a (hx a)
  | mark k _ => trivial

@[simp] theorem balanced_pure {a : α} : (pure a : LockProg ι A α).Balanced Q h ↔ Q a h := Iff.rfl

@[simp] theorem balanced_bind :
    (x >>= f).Balanced R h ↔ x.Balanced (fun a h => (f a).Balanced R h) h := by
  show (x.bind f).Balanced R h ↔ _
  induction x generalizing h with
  | ret a => exact Iff.rfl
  | stop => exact Iff.rfl
  | take p k ih => exact ih
  | post p k ih => exact and_congr_right fun _ => ih
  | init k ih => exact forall_congr' fun p => ih p
  | drop p k ih => exact ih
  | ask k ih => exact forall_congr' fun a => ih a
  | mark k _ => exact Iff.rfl

theorem Balanced.ite {c : Prop} [Decidable c] {y : LockProg ι A α} (hx : c → x.Balanced Q h)
    (hy : ¬ c → y.Balanced Q h) : (if c then x else y).Balanced Q h := by
  split_ifs with hc
  · exact hx hc
  · exact hy hc

theorem balanced_stop : (stop : LockProg ι A α).Balanced Q h := trivial

theorem balanced_mark {k : LockProg ι A α} : (LockProg.mark k).Balanced Q h := trivial

theorem balanced_ask {k : A → LockProg ι A α} :
    (ask k).Balanced Q h ↔ ∀ a, (k a).Balanced Q h := Iff.rfl

theorem balanced_init {k : ι → LockProg ι A α} :
    (LockProg.init k).Balanced Q h ↔ ∀ p, (k p).Balanced Q h := Iff.rfl

theorem balanced_drop {k : LockProg ι A α} :
    (LockProg.drop p k).Balanced Q h ↔ k.Balanced Q h := Iff.rfl

/-- The program leaves the locks as they were. -/
def Keeps (x : LockProg ι A α) (h : ι → ℕ) : Prop := x.Balanced (fun _ h' => h' = h) h

theorem Keeps.bind (hx : x.Keeps h) (hf : ∀ a, (f a).Balanced R h) : (x >>= f).Balanced R h := by
  rw [balanced_bind]
  refine hx.imp fun a h' e => ?_
  subst e
  exact hf a

theorem keeps_pure {a : α} : (pure a : LockProg ι A α).Keeps h := rfl

/-- One unit more of lock `p`. -/
def more (h : ι → ℕ) (p : ι) : ι → ℕ := Function.update h p (h p + 1)

theorem more_pos (h : ι → ℕ) (p : ι) : 0 < more h p p := by
  rw [more, Function.update_self]
  omega

theorem more_pos_of_pos {p' : ι} (hp : 0 < h p') : 0 < more h p p' := by
  by_cases e : p' = p
  · subst e
    exact more_pos h p'
  · rwa [more, Function.update_of_ne e]

theorem more_of_ne (h : ι → ℕ) {p p' : ι} (hp : p' ≠ p) : more h p p' = h p' :=
  Function.update_of_ne hp _ _

theorem more_comm (h : ι → ℕ) (p p' : ι) : more (more h p) p' = more (more h p') p := by
  by_cases e : p = p'
  · rw [e]
  · unfold more
    rw [Function.update_of_ne e, Function.update_of_ne (Ne.symm e), Function.update_comm e]

/-- The rule of `take`. -/
theorem Balanced.take {k : LockProg ι A α} (hk : k.Balanced Q (more h p)) :
    (LockProg.take p k).Balanced Q h := hk

/-- The rule of `post`. -/
theorem Balanced.post {k : LockProg ι A α} (hk : k.Balanced Q h) :
    (LockProg.post p k).Balanced Q (more h p) := by
  refine ⟨more_pos h p, ?_⟩
  rwa [more, Function.update_self, Function.update_idem, Nat.add_sub_cancel, Function.update_eq_self]

/-- A process that has a unit has got it last. -/
theorem exists_more (hp : 0 < h p) : ∃ h', h = more h' p := by
  refine ⟨Function.update h p (h p - 1), ?_⟩
  rw [more, Function.update_self, Function.update_idem, Nat.sub_add_cancel hp,
    Function.update_eq_self]

end Balanced

end LockProg

/-! ## Processes -/

open LockProg

/-- The locks, and what each process still has to do in its call. `acquired` and `posted`
    count what it has done to each lock in this call. -/
structure LockState (π ι A : Type) where
  value : ι → Option ℕ
  prog : π → Option (LockProg ι A Unit)
  acquired : π → ι → ℕ
  posted : π → ι → ℕ

/-- What a process does next. -/
inductive LockAction (π ι A C : Type)
  /-- It makes a call. -/
  | call (q : π) (c : C)
  /-- It takes, posts or drops the lock that comes next. -/
  | step (q : π)
  /-- It sets up the lock `p`. -/
  | init (q : π) (p : ι)
  /-- It gets an answer. -/
  | answer (q : π) (a : A)
  /-- Its call returns. -/
  | finish (q : π)

namespace LockState

variable {π C : Type} [DecidableEq ι] [DecidableEq π]

/-- Process `q` has got to `x`. -/
def goto (s : LockState π ι A) (q : π) (x : LockProg ι A Unit) : LockState π ι A :=
  { s with prog := Function.update s.prog q (some x) }

def setValue (s : LockState π ι A) (p : ι) (v : Option ℕ) : LockState π ι A :=
  { s with value := Function.update s.value p v }

/-- A function on processes and locks with one more at one place. -/
def count (f : π → ι → ℕ) (q : π) (p : ι) : π → ι → ℕ :=
  Function.update f q (Function.update (f q) p (f q p + 1))

/-- One step; `code` are the programs of the calls. -/
def next (code : C → LockProg ι A Unit) (s : LockState π ι A) :
    LockAction π ι A C → Option (LockState π ι A)
  | .call q c =>
    match s.prog q with
    | none =>
      let acquired := Function.update s.acquired q fun _ => 0
      let posted := Function.update s.posted q fun _ => 0
      some ({ s with acquired := acquired, posted := posted }.goto q (code c))
    | some _ => none
  | .step q =>
    match s.prog q with
    | some (.take p k) =>
      match s.value p with
      | some (v + 1) => some ({ s.setValue p (some v) with acquired := count s.acquired q p }.goto q k)
      | _ => none
    | some (.post p k) =>
      match s.value p with
      | some v => some ({ s.setValue p (some (v + 1)) with posted := count s.posted q p }.goto q k)
      | none => none
    | some (.drop p k) => some ((s.setValue p none).goto q k)
    | some (.mark k) => some (s.goto q k)
    | _ => none
  | .init q p =>
    match s.prog q, s.value p with
    | some (.init k), none => some ((s.setValue p (some 1)).goto q (k p))
    | _, _ => none
  | .answer q a =>
    match s.prog q with
    | some (.ask k) => some (s.goto q (k a))
    | _ => none
  | .finish q =>
    match s.prog q with
    | some (.ret ()) => some { s with prog := Function.update s.prog q none }
    | _ => none

/-- Process `q` is between taking the lock `p` and posting it. -/
def Holds (s : LockState π ι A) (q : π) (p : ι) : Prop := s.posted q p < s.acquired q p

/-- The condition on a step: no mark is passed, and no lock is dropped while a process has
    it. -/
def Enabled (s : LockState π ι A) : LockAction π ι A C → Prop
  | .step q =>
    match s.prog q with
    | some (.mark _) => False
    | some (.drop p _) => s.value p = some 1
    | _ => True
  | _ => True

instance (s : LockState π ι A) (a : LockAction π ι A C) : Decidable (Enabled s a) := by
  unfold Enabled
  split
  · split <;> infer_instance
  · infer_instance

/-! ## Mutual exclusion -/

/-- The units of each lock that a process has. -/
def held (s : LockState π ι A) (q : π) (p : ι) : ℕ := s.acquired q p - s.posted q p

/-- A lock is free, or one process has its only unit. -/
structure Exclusive (value : ι → Option ℕ) (held : π → ι → ℕ) : Prop where
  le_one : ∀ p v, value p = some v → v ≤ 1
  free : ∀ p, value p ≠ some 0 → ∀ q, held q p = 0
  taken : ∀ p, value p = some 0 → ∃ q, held q p = 1 ∧ ∀ q', q' ≠ q → held q' p = 0

section Exclusive

variable {value : ι → Option ℕ} {held : π → ι → ℕ} {p : ι} {q : π} {v : ℕ}

/-- The units of one process change at one lock. -/
theorem update_update_apply (n : ℕ) (q' : π) (p' : ι) :
    Function.update held q (Function.update (held q) p n) q' p' =
      if q' = q ∧ p' = p then n else held q' p' := by
  by_cases hq : q' = q
  · subst hq
    by_cases hp : p' = p
    · subst hp
      simp
    · simp [hp]
  · simp [hq]

/-- A change at one lock. -/
theorem Exclusive.update (h : Exclusive value held) {w : Option ℕ} {n : ℕ}
    (hle : ∀ v, w = some v → v ≤ 1) (hfree : w ≠ some 0 → n = 0 ∧ ∀ q', q' ≠ q → held q' p = 0)
    (htaken : w = some 0 → n = 1 ∧ ∀ q', q' ≠ q → held q' p = 0) :
    Exclusive (Function.update value p w)
      (Function.update held q (Function.update (held q) p n)) := by
  refine ⟨fun p' v hv => ?_, fun p' hv q' => ?_, fun p' hv => ?_⟩
  · by_cases hp : p' = p
    · subst hp
      rw [Function.update_self] at hv
      exact hle v hv
    · rw [Function.update_of_ne hp] at hv
      exact h.le_one p' v hv
  · rw [update_update_apply]
    by_cases hp : p' = p
    · subst hp
      rw [Function.update_self] at hv
      split_ifs with hq
      · exact (hfree hv).1
      · exact (hfree hv).2 q' fun e => hq ⟨e, rfl⟩
    · rw [Function.update_of_ne hp] at hv
      rw [if_neg fun e => hp e.2]
      exact h.free p' hv q'
  · by_cases hp : p' = p
    · subst hp
      rw [Function.update_self] at hv
      refine ⟨q, by rw [update_update_apply, if_pos ⟨rfl, rfl⟩]; exact (htaken hv).1, ?_⟩
      intro q' hq
      rw [update_update_apply, if_neg fun e => hq e.1]
      exact (htaken hv).2 q' hq
    · rw [Function.update_of_ne hp] at hv
      obtain ⟨q0, h1, h2⟩ := h.taken p' hv
      refine ⟨q0, ?_, fun q' hq => ?_⟩
      · rw [update_update_apply, if_neg fun e => hp e.2]
        exact h1
      · rw [update_update_apply, if_neg fun e => hp e.2]
        exact h2 q' hq

theorem Exclusive.take (h : Exclusive value held) (hv : value p = some (v + 1)) :
    Exclusive (Function.update value p (some v))
      (Function.update held q (Function.update (held q) p (held q p + 1))) := by
  have h1 := h.le_one p _ hv
  obtain rfl : v = 0 := by omega
  have h0 := h.free p (by rw [hv]; simp)
  refine h.update (fun v e => ?_) (fun e => absurd rfl e) fun _ => ⟨?_, fun q' _ => h0 q'⟩
  · cases e; omega
  · rw [h0 q]

theorem Exclusive.post (h : Exclusive value held) (hv : value p = some v) (hh : 0 < held q p) :
    Exclusive (Function.update value p (some (v + 1)))
      (Function.update held q (Function.update (held q) p (held q p - 1))) := by
  have h0 : value p = some 0 := by
    by_contra hne
    have := h.free p hne q
    omega
  rw [h0, Option.some.injEq] at hv
  subst hv
  obtain ⟨q0, h1, h2⟩ := h.taken p h0
  obtain rfl : q = q0 := by
    by_contra hne
    have := h2 q hne
    omega
  exact h.update (fun v e => by cases e; omega) (fun _ => ⟨by omega, h2⟩) fun e => by cases e

omit [DecidableEq π] in
/-- A lock that no process has is set up or dropped. -/
theorem Exclusive.setFree (h : Exclusive value held) (hv : value p ≠ some 0) {w : Option ℕ}
    (hw : w = none ∨ w = some 1) : Exclusive (Function.update value p w) held := by
  refine ⟨fun p' v e => ?_, fun p' e => ?_, fun p' e => ?_⟩
  · by_cases hp : p' = p
    · subst hp
      rw [Function.update_self] at e
      rcases hw with rfl | rfl <;> cases e
      omega
    · rw [Function.update_of_ne hp] at e
      exact h.le_one p' v e
  · by_cases hp : p' = p
    · subst hp
      exact h.free p' hv
    · rw [Function.update_of_ne hp] at e
      exact h.free p' e
  · by_cases hp : p' = p
    · subst hp
      rw [Function.update_self] at e
      rcases hw with rfl | rfl <;> cases e
    · rw [Function.update_of_ne hp] at e
      exact h.taken p' e

end Exclusive

/-- Each call does what is balanced, and the locks are exclusive. -/
structure Mutex (s : LockState π ι A) : Prop where
  prog : ∀ q x, s.prog q = some x → x.Balanced (fun _ h => h = 0) (s.held q)
  idle : ∀ q, s.prog q = none → s.held q = 0
  posted_le : ∀ q p, s.posted q p ≤ s.acquired q p
  excl : Exclusive s.value s.held

variable {s t : LockState π ι A} {q : π} {p : ι} {x : LockProg ι A Unit}

omit [DecidableEq ι] in
theorem goto_prog_self : (s.goto q x).prog q = some x := Function.update_self _ _ _

omit [DecidableEq ι] in
theorem goto_prog_of_ne {q' : π} (h : q' ≠ q) : (s.goto q x).prog q' = s.prog q' :=
  Function.update_of_ne h _ _

/-- A step of process `q`: what is to show of it and of the locks. -/
theorem Mutex.goto (h : Mutex s) {value : ι → Option ℕ} {acquired posted : π → ι → ℕ}
    (hx : x.Balanced (fun _ h => h = 0) (acquired q - posted q))
    (hne : ∀ q', q' ≠ q → acquired q' = s.acquired q' ∧ posted q' = s.posted q')
    (hle : ∀ p, posted q p ≤ acquired q p)
    (hexcl : Exclusive value fun q p => acquired q p - posted q p) :
    Mutex (LockState.goto ⟨value, s.prog, acquired, posted⟩ q x) := by
  have hheld : ∀ q', q' ≠ q →
      (LockState.goto ⟨value, s.prog, acquired, posted⟩ q x).held q' = s.held q' := by
    intro q' hq
    funext p
    show acquired q' p - posted q' p = s.acquired q' p - s.posted q' p
    rw [(hne q' hq).1, (hne q' hq).2]
  refine ⟨fun q' y hy => ?_, fun q' hy => ?_, fun q' p => ?_, hexcl⟩
  · by_cases hq : q' = q
    · subst hq
      obtain rfl := Option.some.inj (goto_prog_self.symm.trans hy)
      exact hx
    · rw [hheld q' hq]
      exact h.prog q' y ((goto_prog_of_ne hq).symm.trans hy)
  · by_cases hq : q' = q
    · subst hq
      cases goto_prog_self.symm.trans hy
    · rw [hheld q' hq]
      exact h.idle q' ((goto_prog_of_ne hq).symm.trans hy)
  · by_cases hq : q' = q
    · subst hq
      exact hle p
    · show posted q' p ≤ acquired q' p
      rw [(hne q' hq).1, (hne q' hq).2]
      exact h.posted_le q' p

/-- Process `q` goes on without touching a lock. -/
theorem Mutex.skip (h : Mutex s) (hx : x.Balanced (fun _ h => h = 0) (s.held q)) :
    Mutex (s.goto q x) :=
  h.goto hx (fun _ _ => ⟨rfl, rfl⟩) (h.posted_le q) h.excl

/-- A lock that no process has is set up or dropped. -/
theorem Mutex.setFree (h : Mutex s) (hv : s.value p ≠ some 0) {w : Option ℕ}
    (hw : w = none ∨ w = some 1) (hx : x.Balanced (fun _ h => h = 0) (s.held q)) :
    Mutex ((s.setValue p w).goto q x) :=
  h.goto hx (fun _ _ => ⟨rfl, rfl⟩) (h.posted_le q) (h.excl.setFree hv hw)

theorem count_of_ne (f : π → ι → ℕ) {q' : π} (h : q' ≠ q) : count f q p q' = f q' :=
  Function.update_of_ne h _ _

theorem count_self_apply (f : π → ι → ℕ) (p' : ι) :
    count f q p q p' = if p' = p then f q p + 1 else f q p' := by
  unfold count
  rw [update_update_apply]
  simp only [true_and]

theorem Mutex.take (h : Mutex s) {v : ℕ} (hv : s.value p = some (v + 1))
    {k : LockProg ι A Unit} (hx : s.prog q = some (.take p k)) :
    Mutex ({ s.setValue p (some v) with acquired := count s.acquired q p }.goto q k) := by
  have hle := h.posted_le q
  have hheld : (fun q' p' => count s.acquired q p q' p' - s.posted q' p') =
      Function.update s.held q (Function.update (s.held q) p (s.held q p + 1)) := by
    funext q' p'
    rw [count, update_update_apply, update_update_apply]
    split_ifs with he
    · rw [he.1, he.2, LockState.held]
      have := hle p
      omega
    · rfl
  refine h.goto ?_ (fun q' hq => ⟨count_of_ne _ hq, rfl⟩) (fun p' => ?_) ?_
  · have hbal : k.Balanced (fun _ h => h = 0) (Function.update (s.held q) p (s.held q p + 1)) :=
      h.prog q _ hx
    have hq := congrFun hheld q
    rw [Function.update_self] at hq
    rw [← hq] at hbal
    exact hbal
  · show s.posted q p' ≤ count s.acquired q p q p'
    rw [count_self_apply]
    have := hle p'
    split_ifs with he
    · rw [he] at this ⊢
      omega
    · exact this
  · show Exclusive (Function.update s.value p (some v))
      fun q' p' => count s.acquired q p q' p' - s.posted q' p'
    rw [hheld]
    exact h.excl.take hv

theorem Mutex.post (h : Mutex s) {v : ℕ} (hv : s.value p = some v)
    {k : LockProg ι A Unit} (hx : s.prog q = some (.post p k)) :
    Mutex ({ s.setValue p (some (v + 1)) with posted := count s.posted q p }.goto q k) := by
  have hle := h.posted_le q
  obtain ⟨hpos, hbal⟩ : 0 < s.held q p ∧
    k.Balanced (fun _ h => h = 0) (Function.update (s.held q) p (s.held q p - 1)) := h.prog q _ hx
  have hheld : (fun q' p' => s.acquired q' p' - count s.posted q p q' p') =
      Function.update s.held q (Function.update (s.held q) p (s.held q p - 1)) := by
    funext q' p'
    rw [count, update_update_apply, update_update_apply]
    split_ifs with he
    · rw [he.1, he.2, LockState.held]
      omega
    · rfl
  refine h.goto ?_ (fun q' hq => ⟨rfl, count_of_ne _ hq⟩) (fun p' => ?_) ?_
  · have hq := congrFun hheld q
    rw [Function.update_self] at hq
    rw [← hq] at hbal
    exact hbal
  · show count s.posted q p q p' ≤ s.acquired q p'
    rw [count_self_apply]
    have := hle p'
    split_ifs with he
    · rw [he]
      unfold LockState.held at hpos
      omega
    · exact this
  · show Exclusive (Function.update s.value p (some (v + 1)))
      fun q' p' => s.acquired q' p' - count s.posted q p q' p'
    rw [hheld]
    exact h.excl.post hv hpos

variable {code : C → LockProg ι A Unit} {a : LockAction π ι A C}

/-- Every step keeps the locks exclusive if each call is balanced. -/
theorem Mutex.step (h : Mutex s) (hcode : ∀ c, (code c).Keeps 0) (hok : Enabled s a)
    (hs : next code s a = some t) : Mutex t := by
  unfold next at hs
  cases a with
  | call q c =>
    simp only at hs
    split at hs
    · next hidle =>
      obtain rfl := Option.some.inj hs
      have h0 : s.held q = 0 := h.idle q hidle
      refine h.goto ?_ (fun q' hq => ?_) (fun p => ?_) ?_
      · rw [Function.update_self, Function.update_self]
        exact hcode c
      · exact ⟨Function.update_of_ne hq _ _, Function.update_of_ne hq _ _⟩
      · rw [Function.update_self, Function.update_self]
      · convert h.excl using 1
        funext q' p
        by_cases hq : q' = q
        · subst hq
          rw [Function.update_self, Function.update_self, h0]
          rfl
        · rw [Function.update_of_ne hq, Function.update_of_ne hq]
          rfl
    · cases hs
  | step q =>
    unfold Enabled at hok
    simp only at hs hok
    split at hs
    · next p k hx =>
      split at hs
      · next v hv =>
        obtain rfl := Option.some.inj hs
        exact h.take hv hx
      · cases hs
    · next p k hx =>
      split at hs
      · next v hv =>
        obtain rfl := Option.some.inj hs
        exact h.post hv hx
      · cases hs
    · next p k hx =>
      rw [hx] at hok
      obtain rfl := Option.some.inj hs
      have hbal := h.prog q (.drop p k) hx
      exact h.setFree (by rw [hok]; simp) (.inl rfl) hbal
    · next k hx =>
      rw [hx] at hok
      exact hok.elim
    · cases hs
  | init q p =>
    simp only at hs
    split at hs
    · next k hx hv =>
      obtain rfl := Option.some.inj hs
      exact h.setFree (by rw [hv]; simp) (.inr rfl) (h.prog q _ hx p)
    · cases hs
  | answer q a =>
    simp only at hs
    split at hs
    · next k hx =>
      obtain rfl := Option.some.inj hs
      exact h.skip (h.prog q _ hx a)
    · cases hs
  | finish q =>
    simp only at hs
    split at hs
    · next hx =>
      obtain rfl := Option.some.inj hs
      have h0 : s.held q = 0 := h.prog q _ hx
      refine ⟨fun q' y hy => ?_, fun q' hy => ?_, h.posted_le, h.excl⟩
      · by_cases hq : q' = q
        · subst hq
          simp at hy
        · exact h.prog q' y ((Function.update_of_ne hq _ _).symm.trans hy)
      · by_cases hq : q' = q
        · subst hq
          exact h0
        · exact h.idle q' ((Function.update_of_ne hq _ _).symm.trans hy)
    · cases hs

/-- Nobody is in a call, and every lock is free. -/
structure Idle (s : LockState π ι A) : Prop where
  prog : ∀ q, s.prog q = none
  value : ∀ p, s.value p = none ∨ s.value p = some 1
  acquired : ∀ q p, s.acquired q p = 0
  posted : ∀ q p, s.posted q p = 0

omit [DecidableEq π] in
theorem Idle.mutex (h : Idle s) : Mutex s := by
  have h0 : ∀ q, s.held q = 0 := fun q => by
    funext p
    rw [LockState.held, h.acquired, h.posted]
    rfl
  refine ⟨fun q x hx => ?_, fun q _ => h0 q, fun q p => ?_, fun p v hv => ?_, fun p _ q => ?_,
    fun p hv => ?_⟩
  · rw [h.prog q] at hx; cases hx
  · rw [h.posted, h.acquired]
  · rcases h.value p with e | e <;> rw [hv] at e <;> cases e
    omega
  · rw [h0 q]; rfl
  · rcases h.value p with e | e <;> rw [hv] at e <;> cases e

/-- The invariant over runs. -/
theorem Mutex.run (hcode : ∀ c, (code c).Keeps 0)
    (h : Run (next code) Enabled s t) (h0 : Idle s) : Mutex t :=
  h.invariant h0.mutex fun _ _ _ hi hok hs => hi.step hcode hok hs

/-! ## What exclusive locks mean -/

omit [DecidableEq π] in
theorem Mutex.value_le (h : Mutex s) {v : ℕ} (hv : s.value p = some v) : v ≤ 1 :=
  h.excl.le_one p v hv

omit [DecidableEq ι] [DecidableEq π] in
theorem holds_iff : s.Holds q p ↔ 0 < s.held q p := Nat.sub_pos_iff_lt.symm

theorem Mutex.holder (h : Mutex s) {q' : π} (hq : s.Holds q p) (hq' : s.Holds q' p) : q = q' := by
  rw [holds_iff] at hq hq'
  have h0 : s.value p = some 0 := by
    by_contra hne
    have := h.excl.free p hne q
    omega
  obtain ⟨q0, -, h2⟩ := h.excl.taken p h0
  have heq : ∀ q1, 0 < s.held q1 p → q1 = q0 := by
    intro q1 h1
    by_contra hne
    have := h2 q1 hne
    omega
  rw [heq q hq, heq q' hq']

omit [DecidableEq π] in
/-- A call that is about to return has posted what it acquired. -/
theorem Mutex.returns (h : Mutex s) (hx : s.prog q = some (.ret ())) :
    s.posted q = s.acquired q := by
  funext p
  have h0 : s.acquired q p - s.posted q p = 0 := congrFun (h.prog q _ hx) p
  have := h.posted_le q p
  omega

end LockState

-- Elaboration would otherwise run the program while it looks at the type of a rule.
attribute [irreducible] LockProg.Balanced

end ShikiOS.Lib
