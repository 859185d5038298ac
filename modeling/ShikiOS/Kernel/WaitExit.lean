import ShikiOS.Lib.Count
import ShikiOS.Lib.Run

/-!
# `wait` against `exit` (`kernel/proc.c`)

A parent forks children and calls `wait`, its children call `exit` on other processors. A step
ends at an acquisition or a release of a lock. A process holds a lock exactly in certain
phases, so the locks are read off the phases. The children have no children of their own, and
nobody alerts the parent. The parent's own `plock` is taken by the parent only.

What `exit` does to files, mappings and page tables is left out, but not the locks that it
releases meanwhile.

Results:
* `wait_reaps`: if `wait` never looks at a child that has released its `plock` and is not yet
  a zombie, it finds an exited child whenever it has consumed a unit of `childexit`.
* `wait_misses_child`: if it does, the unit is gone, and the call fails.
-/

namespace ShikiOS.Kernel.WaitExit

open ShikiOS.Lib

/-! ## State -/

/-- Where a child is. -/
inductive Phase
  | running
  /-- `exit` is called (proc.c:220). -/
  | called
  /-- It holds `elock` (proc.c:222). -/
  | elock
  /-- It also holds `plock` (proc.c:225). -/
  | plock
  /-- It closes a file and has released `plock` (proc.c:233). -/
  | closing
  /-- It unmaps its mappings and has released `elock` (proc.c:242). -/
  | unmapping
  /-- It holds both again (proc.c:254). -/
  | both
  /-- `post_sem(&this->parent->childexit)` (proc.c:261). -/
  | posted
  /-- It also holds the scheduler lock (proc.c:263). -/
  | sched
  /-- It has released `plock` (proc.c:265). -/
  | unlocked
  /-- It has released `elock` (proc.c:266). -/
  | inSched
  /-- `update_this_state` has stored `ZOMBIE` (sched.c:129). -/
  | zombie
  /-- The next process has released the scheduler lock (sched.c:196). -/
  | stopped
deriving DecidableEq, Repr

namespace Phase

/-- The phases in which `elock` is held. -/
def holdsElock : Phase → Bool
  | elock | plock | closing | both | posted | sched | unlocked => true
  | _ => false

/-- The phases in which the child holds its own `plock`. -/
def holdsPlock : Phase → Bool
  | plock | unmapping | both | posted | sched => true
  | _ => false

/-- The phases in which the child holds the scheduler lock. -/
def holdsSched : Phase → Bool
  | sched | unlocked | inSched | zombie => true
  | _ => false

/-- `x->state == ZOMBIE`. -/
def isZombie : Phase → Bool
  | zombie | stopped => true
  | _ => false

/-- The child has announced its exit. -/
def hasPosted : Phase → Bool
  | posted | sched | unlocked | inSched | zombie | stopped => true
  | _ => false

/-- The child has stored its exit code (proc.c:229). -/
def hasCode : Phase → Bool
  | running | called | elock => false
  | _ => true

end Phase

/-- Where the parent is. -/
inductive Parent
  | idle
  /-- Before `wait_sem` (proc.c:161). -/
  | sem
  /-- Before it acquires its `plock` (proc.c:166). -/
  | lock
  /-- At the head of the loop with the nodes that are left (proc.c:168). -/
  | scan (rest : List ℕ)
  /-- It holds the `plock` of `x` (proc.c:171). -/
  | look (x : ℕ) (rest : List ℕ)
  /-- `x` is detached (proc.c:175). -/
  | detached (x : ℕ)
  /-- It has read the exit code and released the `plock` of `x` (proc.c:180). -/
  | read (x : ℕ) (code : ℤ)
deriving DecidableEq, Repr

/-- What a call of `wait` returned, with the children of the parent if it failed, and the
    phase of the child if it did not. -/
inductive Returned
  | fail (children : List ℕ)
  | child (x : ℕ) (code : ℤ) (phase : Phase)
deriving DecidableEq, Repr

/-- The children have the numbers below `born`. `own` is what a child has passed to `exit`,
    `exitcode` the field. -/
structure State where
  born : ℕ
  children : List ℕ
  phase : ℕ → Phase
  own : ℕ → ℤ
  exitcode : ℕ → ℤ
  childexit : ℕ
  parent : Parent
  returned : List Returned

/-- A parent that has no children. -/
def start : State := ⟨0, [], fun _ => .running, fun _ => 0, fun _ => 0, 0, .idle, []⟩

namespace State

variable (s : State)

def setPhase (x : ℕ) (f : Phase) : State := { s with phase := Function.update s.phase x f }

/-- `wait` returns. -/
def finish (r : Returned) : State := { s with parent := .idle, returned := r :: s.returned }

/-- The child whose `plock` the parent holds. -/
def held : Option ℕ :=
  match s.parent with
  | .look x _ => some x
  | .detached x => some x
  | _ => none

def elockFree : Prop := ∀ y < s.born, (s.phase y).holdsElock = false

def schedFree : Prop := ∀ y < s.born, (s.phase y).holdsSched = false

def plockFree (x : ℕ) : Prop := (s.phase x).holdsPlock = false ∧ s.held ≠ some x

instance : Decidable s.elockFree := inferInstanceAs (Decidable (∀ y < s.born, _))

instance : Decidable s.schedFree := inferInstanceAs (Decidable (∀ y < s.born, _))

instance (x : ℕ) : Decidable (s.plockFree x) := inferInstanceAs (Decidable (_ ∧ _))

end State

/-! ## Steps -/

/-- The next step of a child. -/
inductive Step
  /-- `exit(code)` is called. -/
  | call (code : ℤ)
  /-- The lock that comes next is acquired or released, or the store that comes next done. -/
  | go
  /-- `plock` is released to close a file. -/
  | close
deriving DecidableEq, Repr

inductive Action
  /-- The parent forks a child, whose node becomes the first (proc.c:353). -/
  | fork
  | parent
  | child (x : ℕ) (step : Step)
deriving DecidableEq, Repr

/-- A step of `exit` (proc.c:220-271) of the child `x`. -/
def childStep (s : State) (x : ℕ) : Step → Phase → Option State
  | .call code, .running =>
    some { s.setPhase x .called with own := Function.update s.own x code }
  | .go, .called => if s.elockFree then some (s.setPhase x .elock) else none
  | .go, .elock =>
    if s.plockFree x then
      some { s.setPhase x .plock with exitcode := Function.update s.exitcode x (s.own x) }
    else none
  | .close, .plock => some (s.setPhase x .closing)
  | .go, .closing => if s.plockFree x then some (s.setPhase x .plock) else none
  | .go, .plock => some (s.setPhase x .unmapping)
  | .go, .unmapping => if s.elockFree then some (s.setPhase x .both) else none
  | .go, .both => some { s.setPhase x .posted with childexit := s.childexit + 1 }
  | .go, .posted => if s.schedFree then some (s.setPhase x .sched) else none
  | .go, .sched => some (s.setPhase x .unlocked)
  | .go, .unlocked => some (s.setPhase x .inSched)
  | .go, .inSched => some (s.setPhase x .zombie)
  | .go, .zombie => some (s.setPhase x .stopped)
  | _, _ => none

/-- A step of `wait` (proc.c:150-192). -/
def parentStep (s : State) : Parent → Option State
  | .idle =>
    if s.children = [] then some (s.finish (.fail s.children)) else some { s with parent := .sem }
  | .sem =>
    if 0 < s.childexit then some { s with parent := .lock, childexit := s.childexit - 1 } else none
  | .lock => some { s with parent := .scan s.children }
  | .scan [] => some (s.finish (.fail s.children))
  | .scan (x :: rest) => if s.plockFree x then some { s with parent := .look x rest } else none
  | .look x rest =>
    if (s.phase x).isZombie then
      some { s with parent := .detached x, children := s.children.erase x }
    else some { s with parent := .scan rest }
  | .detached x => some { s with parent := .read x (s.exitcode x) }
  | .read x code =>
    if s.schedFree then some (s.finish (.child x code (s.phase x))) else none

/-- A step of the system. -/
def next (s : State) : Action → Option State
  | .fork =>
    if s.parent = .idle then
      some { s with born := s.born + 1, children := s.born :: s.children }
    else none
  | .parent => parentStep s s.parent
  | .child x step => if x < s.born then childStep s x step (s.phase x) else none

/-! ## The property -/

/-- The child of a call that did not fail. -/
def Returned.child? : Returned → Option ℕ
  | .fail _ => none
  | .child x _ _ => some x

/-- A call failed only without children, or returned a child that had stopped, with the code
    that the child passed to `exit`. -/
def Returned.Right (own : ℕ → ℤ) : Returned → Prop
  | .fail children => children = []
  | .child x code phase => phase = .stopped ∧ code = own x

/-- The units that calls of `wait` have consumed for a child that they have not yet found. -/
def Parent.pending : Parent → ℕ
  | .lock | .scan _ | .look _ _ => 1
  | _ => 0

/-- All calls returned what they should, no child twice, and there is a unit of `childexit`
    for every child that has announced its exit and was not reaped. -/
def Reaps (s : State) : Prop :=
  (∀ r ∈ s.returned, r.Right s.own) ∧ (s.returned.filterMap Returned.child?).Nodup ∧
    (s.children.filter fun x => (s.phase x).hasPosted).length = s.childexit + s.parent.pending

/-- The child whose state comes next under the eyes of `wait`. -/
def Parent.looksAt : Parent → Option ℕ
  | .look x _ => some x
  | _ => none

/-- `wait` does not look at a child between its release of `plock` and the store of `ZOMBIE`. -/
def Ok (s : State) : Action → Prop
  | .parent => ∀ x ∈ s.parent.looksAt, s.phase x ≠ .unlocked ∧ s.phase x ≠ .inSched
  | _ => True

instance (s : State) : ∀ a, Decidable (Ok s a)
  | .parent => inferInstanceAs
    (Decidable (∀ x ∈ s.parent.looksAt, s.phase x ≠ .unlocked ∧ s.phase x ≠ .inSched))
  | .fork | .child _ _ => inferInstanceAs (Decidable True)

/-! ## The invariant -/

/-- The child is detached, and no call has returned it. -/
structure Taken (s : State) (x : ℕ) : Prop where
  born : x < s.born
  notChild : x ∉ s.children
  notReturned : x ∉ s.returned.filterMap Returned.child?

/-- What the parent knows where it is. In a scan, a child that has announced its exit is
    still ahead. -/
def Knows (s : State) : Parent → Prop
  | .scan rest => (∀ y ∈ rest, y ∈ s.children) ∧ ∃ y ∈ rest, (s.phase y).hasPosted = true
  | .look x rest => (∀ y ∈ x :: rest, y ∈ s.children) ∧ (s.phase x).holdsPlock = false ∧
      ∃ y ∈ x :: rest, (s.phase y).hasPosted = true
  | .detached x => Taken s x
  | .read x code => Taken s x ∧ code = s.own x
  | _ => True

/-- The state between two steps. -/
structure Inv (s : State) : Prop where
  reaps : Reaps s
  knows : Knows s s.parent
  nodup : s.children.Nodup
  born : ∀ x ∈ s.children, x < s.born
  /-- Who is no child any more has exited. -/
  away : ∀ x < s.born, x ∉ s.children → (s.phase x).isZombie = true
  unborn : ∀ x, s.born ≤ x → s.phase x = .running
  code : ∀ x, (s.phase x).hasCode = true → s.exitcode x = s.own x
  gone : ∀ x ∈ s.returned.filterMap Returned.child?, x < s.born ∧ x ∉ s.children

theorem Inv.start : Inv start where
  reaps := ⟨fun _ h => absurd h List.not_mem_nil, List.nodup_nil, rfl⟩
  knows := trivial
  nodup := List.nodup_nil
  born _ h := absurd h List.not_mem_nil
  away _ h := absurd h (Nat.not_lt_zero _)
  unborn _ _ := rfl
  code _ h := by cases h
  gone _ h := absurd h List.not_mem_nil

variable {s t : State} {x : ℕ}

/-- A child that the parent holds does not hold its own lock. -/
theorem Inv.held (h : Inv s) (hx : s.held = some x) : (s.phase x).holdsPlock = false := by
  have hknows := h.knows
  unfold State.held at hx
  split at hx
  · next y rest hparent =>
    cases hx
    rw [hparent] at hknows
    exact hknows.2.1
  · next y hparent =>
    cases hx
    rw [hparent] at hknows
    have := h.away x hknows.born hknows.notChild
    cases hphase : s.phase x <;> rw [hphase] at this <;> cases this <;> rfl
  · cases hx

/-! ## Steps of a child -/

/-- The child `x` goes on to the phase `f`. -/
theorem Inv.move (h : Inv s) (hx : x < s.born) {f : Phase} {own exitcode : ℕ → ℤ} {k : ℕ}
    (hown : ∀ y, y ≠ x → own y = s.own y)
    (hownx : (s.phase x).isZombie = true → own x = s.own x)
    (hexit : ∀ y, y ≠ x → exitcode y = s.exitcode y)
    (hcode : f.hasCode = true → exitcode x = own x)
    (hzombie : (s.phase x).isZombie = true → f.isZombie = true)
    (hposted : (s.phase x).hasPosted = true → f.hasPosted = true)
    (hplock : f.holdsPlock = true → s.held ≠ some x)
    (hcount : (s.children.filter fun y => (Function.update s.phase x f y).hasPosted).length =
      k + s.parent.pending) :
    Inv { s.setPhase x f with own := own, exitcode := exitcode, childexit := k } := by
  have hzom (y : ℕ) (hy : (s.phase y).isZombie = true) :
      (Function.update s.phase x f y).isZombie = true := by
    by_cases hyx : y = x
    · subst hyx
      rw [Function.update_self]
      exact hzombie hy
    · rwa [Function.update_of_ne hyx]
  have hpost (y : ℕ) (hy : (s.phase y).hasPosted = true) :
      (Function.update s.phase x f y).hasPosted = true := by
    by_cases hyx : y = x
    · subst hyx
      rw [Function.update_self]
      exact hposted hy
    · rwa [Function.update_of_ne hyx]
  have howny (y : ℕ) (hy : (s.phase y).isZombie = true) : own y = s.own y := by
    by_cases hyx : y = x
    · subst hyx
      exact hownx hy
    · exact hown y hyx
  exact {
    reaps := by
      refine ⟨fun r hr => ?_, h.reaps.2.1, hcount⟩
      have hright := h.reaps.1 r hr
      cases r with
      | fail children => exact hright
      | child y code phase =>
        have hy := h.gone y (List.mem_filterMap.mpr ⟨_, hr, rfl⟩)
        exact ⟨hright.1, hright.2.trans (howny y (h.away y hy.1 hy.2)).symm⟩
    knows := by
      have hknows := h.knows
      show Knows _ s.parent
      cases hparent : s.parent with
      | scan rest =>
        rw [hparent] at hknows
        obtain ⟨hsub, y, hy, hyp⟩ := hknows
        exact ⟨hsub, y, hy, hpost y hyp⟩
      | look y rest =>
        rw [hparent] at hknows
        obtain ⟨hsub, hfree, z, hz, hzp⟩ := hknows
        refine ⟨hsub, ?_, z, hz, hpost z hzp⟩
        show (Function.update s.phase x f y).holdsPlock = false
        by_cases hyx : y = x
        · subst hyx
          rw [Function.update_self]
          by_contra hlock
          refine hplock (Bool.eq_true_of_not_eq_false hlock) ?_
          unfold State.held
          rw [hparent]
        · rwa [Function.update_of_ne hyx]
      | detached y =>
        rw [hparent] at hknows
        exact ⟨hknows.born, hknows.notChild, hknows.notReturned⟩
      | read y code =>
        rw [hparent] at hknows
        obtain ⟨htaken, rfl⟩ := hknows
        exact ⟨⟨htaken.born, htaken.notChild, htaken.notReturned⟩,
          (howny y (h.away y htaken.born htaken.notChild)).symm⟩
      | _ => trivial
    nodup := h.nodup
    born := h.born
    away := fun y hy hmem => hzom y (h.away y hy hmem)
    unborn := fun y hy => by
      have hyx : y ≠ x := by
        have hy : s.born ≤ y := hy
        omega
      show Function.update s.phase x f y = .running
      rw [Function.update_of_ne hyx]
      exact h.unborn y hy
    code := fun y hy => by
      change (Function.update s.phase x f y).hasCode = true at hy
      show exitcode y = own y
      by_cases hyx : y = x
      · subst hyx
        rw [Function.update_self] at hy
        exact hcode hy
      · rw [Function.update_of_ne hyx] at hy
        rw [hexit y hyx, hown y hyx]
        exact h.code y hy
    gone := h.gone }

/-- Whoever has announced its exit goes on having done so, and nobody else has. -/
theorem Inv.count_same (h : Inv s) {f : Phase} (hf : f.hasPosted = (s.phase x).hasPosted) :
    (s.children.filter fun y => (Function.update s.phase x f y).hasPosted).length =
      s.childexit + s.parent.pending := by
  rw [← h.reaps.2.2]
  refine congrArg List.length (List.filter_congr fun y _ => ?_)
  by_cases hyx : y = x
  · rw [hyx, Function.update_self, hf]
  · rw [Function.update_of_ne hyx]

/-- A step that changes the phase only. -/
theorem Inv.go (h : Inv s) (hx : x < s.born) {f g : Phase} (hphase : s.phase x = g)
    (hcode : f.hasCode = true → g.hasCode = true)
    (hzombie : g.isZombie = true → f.isZombie = true) (hposted : f.hasPosted = g.hasPosted)
    (hplock : f.holdsPlock = true → s.held ≠ some x) : Inv (s.setPhase x f) := by
  subst hphase
  exact h.move hx (fun _ _ => rfl) (fun _ => rfl) (fun _ _ => rfl)
    (fun hf => h.code x (hcode hf)) hzombie (fun hp => hposted.trans hp) hplock
    (h.count_same hposted)

/-- Who holds its own lock is not held by the parent. -/
theorem Inv.not_held (h : Inv s) (hlock : (s.phase x).holdsPlock = true) : s.held ≠ some x := by
  intro hx
  rw [h.held hx] at hlock
  cases hlock

/-- `post_sem(&this->parent->childexit)`. -/
theorem Inv.post (h : Inv s) (hx : x < s.born) (hphase : s.phase x = .both) :
    Inv { s.setPhase x .posted with childexit := s.childexit + 1 } := by
  have hchild : x ∈ s.children := by
    by_contra hmem
    have := h.away x hx hmem
    rw [hphase] at this
    cases this
  refine h.move hx (fun _ _ => rfl) (fun _ => rfl) (fun _ _ => rfl) (fun _ => h.code x ?_) ?_
    (fun _ => rfl) (fun _ => h.not_held ?_) ?_
  · rw [hphase]
    rfl
  · rw [hphase]
    exact nofun
  · rw [hphase]
    rfl
  · have hold : (s.phase x).hasPosted = false := by
      rw [hphase]
      rfl
    have hnew : (Function.update s.phase x .posted x).hasPosted = true := by
      rw [Function.update_self]
      rfl
    have hcount := h.reaps.2.2
    rw [← List.countP_eq_length_filter] at hcount ⊢
    rw [countP_succ h.nodup hchild hold hnew fun y hyx => by rw [Function.update_of_ne hyx], hcount]
    omega

/-- A step of `exit`. -/
theorem Inv.childStep (h : Inv s) (hx : x < s.born) {step : Step}
    (hs : childStep s x step (s.phase x) = some t) : Inv t := by
  have hlock := h.not_held (x := x)
  cases hphase : s.phase x with
  | running =>
    rw [hphase] at hs
    cases step with
    | call code =>
      cases hs
      have hcount : Phase.called.hasPosted = (s.phase x).hasPosted := by
        rw [hphase]
        rfl
      refine h.move hx (fun y hy => Function.update_of_ne hy _ _) ?_ (fun _ _ => rfl) nofun ?_ ?_
        nofun (h.count_same hcount)
      all_goals
        rw [hphase]
        exact nofun
    | _ => cases hs
  | called =>
    rw [hphase] at hs
    cases step with
    | go =>
      simp only [WaitExit.childStep] at hs
      split_ifs at hs with hfree
      cases hs
      exact h.go hx hphase nofun nofun rfl nofun
    | _ => cases hs
  | elock =>
    rw [hphase] at hs
    cases step with
    | go =>
      simp only [WaitExit.childStep] at hs
      split_ifs at hs with hfree
      cases hs
      have hcount : Phase.plock.hasPosted = (s.phase x).hasPosted := by
        rw [hphase]
        rfl
      refine h.move hx (fun _ _ => rfl) (fun _ => rfl) (fun y hy => Function.update_of_ne hy _ _)
        (fun _ => Function.update_self _ _ _) ?_ ?_ (fun _ => hfree.2) (h.count_same hcount)
      all_goals
        rw [hphase]
        exact nofun
    | _ => cases hs
  | plock =>
    rw [hphase] at hs
    rw [hphase] at hlock
    cases step with
    | close =>
      cases hs
      exact h.go hx hphase (fun _ => rfl) nofun rfl nofun
    | go =>
      cases hs
      exact h.go hx hphase (fun _ => rfl) nofun rfl fun _ => hlock rfl
    | _ => cases hs
  | closing =>
    rw [hphase] at hs
    cases step with
    | go =>
      simp only [WaitExit.childStep] at hs
      split_ifs at hs with hfree
      cases hs
      exact h.go hx hphase (fun _ => rfl) nofun rfl fun _ => hfree.2
    | _ => cases hs
  | unmapping =>
    rw [hphase] at hs
    rw [hphase] at hlock
    cases step with
    | go =>
      simp only [WaitExit.childStep] at hs
      split_ifs at hs with hfree
      cases hs
      exact h.go hx hphase (fun _ => rfl) nofun rfl fun _ => hlock rfl
    | _ => cases hs
  | both =>
    rw [hphase] at hs
    cases step with
    | go =>
      cases hs
      exact h.post hx hphase
    | _ => cases hs
  | posted =>
    rw [hphase] at hs
    rw [hphase] at hlock
    cases step with
    | go =>
      simp only [WaitExit.childStep] at hs
      split_ifs at hs with hfree
      cases hs
      exact h.go hx hphase (fun _ => rfl) nofun rfl fun _ => hlock rfl
    | _ => cases hs
  | sched =>
    rw [hphase] at hs
    cases step with
    | go =>
      cases hs
      exact h.go hx hphase (fun _ => rfl) nofun rfl nofun
    | _ => cases hs
  | unlocked =>
    rw [hphase] at hs
    cases step with
    | go =>
      cases hs
      exact h.go hx hphase (fun _ => rfl) nofun rfl nofun
    | _ => cases hs
  | inSched =>
    rw [hphase] at hs
    cases step with
    | go =>
      cases hs
      exact h.go hx hphase (fun _ => rfl) nofun rfl nofun
    | _ => cases hs
  | zombie =>
    rw [hphase] at hs
    cases step with
    | go =>
      cases hs
      exact h.go hx hphase (fun _ => rfl) (fun _ => rfl) rfl nofun
    | _ => cases hs
  | stopped =>
    rw [hphase] at hs
    cases step <;> cases hs

/-! ## Steps of the parent -/

theorem Inv.fork (h : Inv s) (hidle : s.parent = .idle) :
    Inv { s with born := s.born + 1, children := s.born :: s.children } where
  reaps := by
    refine ⟨h.reaps.1, h.reaps.2.1, ?_⟩
    show ((s.born :: s.children).filter _).length = _
    rw [List.filter_cons_of_neg]
    · exact h.reaps.2.2
    · rw [h.unborn s.born le_rfl]
      exact nofun
  knows := by
    show Knows _ s.parent
    rw [hidle]
    trivial
  nodup := List.nodup_cons.mpr ⟨fun hmem => absurd (h.born _ hmem) (lt_irrefl _), h.nodup⟩
  born x hx := by
    show x < s.born + 1
    rcases List.mem_cons.mp hx with rfl | hx
    · omega
    · exact Nat.lt_succ_of_lt (h.born x hx)
  away x hx hmem := by
    change x < s.born + 1 at hx
    rw [List.mem_cons, not_or] at hmem
    exact h.away x (by omega) hmem.2
  unborn x hx := h.unborn x (Nat.le_of_succ_le hx)
  code := h.code
  gone x hx := by
    obtain ⟨hborn, hmem⟩ := h.gone x hx
    refine ⟨Nat.lt_succ_of_lt hborn, ?_⟩
    rw [List.mem_cons, not_or]
    exact ⟨hborn.ne, hmem⟩

/-- The parent moves, and may consume a unit. -/
theorem Inv.parentMove (h : Inv s) {p : Parent} {k : ℕ} (hknows : Knows s p)
    (hcount : k + p.pending = s.childexit + s.parent.pending) :
    Inv { s with parent := p, childexit := k } where
  reaps := ⟨h.reaps.1, h.reaps.2.1, h.reaps.2.2.trans hcount.symm⟩
  knows := by
    show Knows _ p
    cases p with
    | detached x => exact ⟨hknows.born, hknows.notChild, hknows.notReturned⟩
    | read x code =>
      exact ⟨⟨hknows.1.born, hknows.1.notChild, hknows.1.notReturned⟩, hknows.2⟩
    | _ => exact hknows
  nodup := h.nodup
  born := h.born
  away := h.away
  unborn := h.unborn
  code := h.code
  gone := h.gone

/-- A call returns. -/
theorem Inv.finish (h : Inv s) {r : Returned} (hr : r.Right s.own)
    (hnew : ∀ x ∈ r.child?, Taken s x) (hpending : s.parent.pending = 0) : Inv (s.finish r) where
  reaps := by
    refine ⟨fun r' hr' => ?_, ?_, ?_⟩
    · rcases List.mem_cons.mp hr' with rfl | hr'
      · exact hr
      · exact h.reaps.1 r' hr'
    · show ((r :: s.returned).filterMap Returned.child?).Nodup
      cases hchild : r.child? with
      | none =>
        rw [List.filterMap_cons_none hchild]
        exact h.reaps.2.1
      | some x =>
        rw [List.filterMap_cons_some hchild, List.nodup_cons]
        exact ⟨(hnew x hchild).notReturned, h.reaps.2.1⟩
    · have := h.reaps.2.2
      rw [hpending] at this
      exact this
  knows := trivial
  nodup := h.nodup
  born := h.born
  away := h.away
  unborn := h.unborn
  code := h.code
  gone x hx := by
    obtain ⟨r', hr', hx'⟩ := List.mem_filterMap.mp hx
    rcases List.mem_cons.mp hr' with rfl | hr'
    · exact ⟨(hnew x hx').born, (hnew x hx').notChild⟩
    · exact h.gone x (List.mem_filterMap.mpr ⟨r', hr', hx'⟩)

/-- The parent detaches a zombie. -/
theorem Inv.detach (h : Inv s) {rest : List ℕ} (hparent : s.parent = .look x rest)
    (hzombie : (s.phase x).isZombie = true) :
    Inv { s with parent := .detached x, children := s.children.erase x } := by
  have hknows := h.knows
  rw [hparent] at hknows
  have hchild : x ∈ s.children := hknows.1 x List.mem_cons_self
  have hposted : (s.phase x).hasPosted = true := by
    cases hphase : s.phase x <;> rw [hphase] at hzombie <;> cases hzombie <;> rfl
  exact {
    reaps := by
      refine ⟨h.reaps.1, h.reaps.2.1, ?_⟩
      have hcount := h.reaps.2.2
      rw [hparent] at hcount
      have herase := List.countP_erase (fun y => (s.phase y).hasPosted) s.children x
      rw [if_pos ⟨hchild, hposted⟩, List.countP_eq_length_filter,
        List.countP_eq_length_filter, hcount] at herase
      exact herase
    knows :=
      { born := h.born x hchild
        notChild := h.nodup.not_mem_erase
        notReturned := fun hmem => (h.gone x hmem).2 hchild }
    nodup := h.nodup.erase x
    born := fun y hy => h.born y (List.mem_of_mem_erase hy)
    away := fun y hy hmem => by
      by_cases hyx : y = x
      · exact hyx ▸ hzombie
      · exact h.away y hy fun hmem' => hmem ((List.mem_erase_of_ne hyx).mpr hmem')
    unborn := h.unborn
    code := h.code
    gone := fun y hy =>
      ⟨(h.gone y hy).1, fun hmem => (h.gone y hy).2 (List.mem_of_mem_erase hmem)⟩ }

/-- Who has announced its exit and has released `plock` is a zombie, or not to be looked at. -/
theorem isZombie_of_posted {f : Phase} (hposted : f.hasPosted = true)
    (hplock : f.holdsPlock = false) (hok : f ≠ .unlocked ∧ f ≠ .inSched) : f.isZombie = true := by
  cases f with
  | unlocked => exact absurd rfl hok.1
  | inSched => exact absurd rfl hok.2
  | zombie => rfl
  | stopped => rfl
  | posted => cases hplock
  | sched => cases hplock
  | _ => cases hposted

/-- A step of `wait`. -/
theorem Inv.parentStep (h : Inv s) (hok : Ok s .parent) (hs : parentStep s s.parent = some t) :
    Inv t := by
  have hknows := h.knows
  cases hparent : s.parent with
  | idle =>
    simp only [hparent, WaitExit.parentStep] at hs
    split_ifs at hs with hnil
    · cases hs
      refine h.finish hnil (fun _ hx => by cases hx) ?_
      rw [hparent]
      rfl
    · cases hs
      refine h.parentMove (k := s.childexit) trivial ?_
      rw [hparent]
      rfl
  | sem =>
    simp only [hparent, WaitExit.parentStep] at hs
    split_ifs at hs with hunit
    cases hs
    refine h.parentMove trivial ?_
    rw [hparent]
    show s.childexit - 1 + 1 = s.childexit + 0
    omega
  | lock =>
    simp only [hparent, WaitExit.parentStep] at hs
    cases hs
    have hcount := h.reaps.2.2
    rw [hparent] at hcount
    -- The consumed unit stands for a child that has announced its exit.
    obtain ⟨y, hy⟩ : ∃ y, y ∈ s.children.filter fun y => (s.phase y).hasPosted := by
      refine List.exists_mem_of_length_pos ?_
      rw [hcount]
      exact Nat.succ_pos _
    obtain ⟨hchild, hposted⟩ := List.mem_filter.mp hy
    refine h.parentMove (p := .scan s.children) (k := s.childexit)
      ⟨fun _ hz => hz, y, hchild, hposted⟩ ?_
    rw [hparent]
    rfl
  | scan rest =>
    rw [hparent] at hknows
    cases rest with
    | nil =>
      obtain ⟨-, y, hy, -⟩ := hknows
      cases hy
    | cons x rest =>
      simp only [hparent, WaitExit.parentStep] at hs
      split_ifs at hs with hfree
      cases hs
      refine h.parentMove (p := .look x rest) (k := s.childexit) ⟨hknows.1, hfree.1, hknows.2⟩ ?_
      rw [hparent]
      rfl
  | look x rest =>
    rw [hparent] at hknows
    simp only [hparent, WaitExit.parentStep] at hs
    split_ifs at hs with hzombie
    · cases hs
      exact h.detach hparent hzombie
    · cases hs
      obtain ⟨hsub, hplock, y, hy, hposted⟩ := hknows
      have hlook := hok x (by rw [hparent]; rfl)
      have hrest : y ∈ rest := by
        rcases List.mem_cons.mp hy with rfl | hy
        · exact absurd (isZombie_of_posted hposted hplock hlook) hzombie
        · exact hy
      refine h.parentMove (p := .scan rest) (k := s.childexit)
        ⟨fun z hz => hsub z (List.mem_cons_of_mem x hz), y, hrest, hposted⟩ ?_
      rw [hparent]
      rfl
  | detached x =>
    rw [hparent] at hknows
    simp only [hparent, WaitExit.parentStep] at hs
    cases hs
    have hzombie := h.away x hknows.born hknows.notChild
    have hcode : (s.phase x).hasCode = true := by
      cases hphase : s.phase x <;> rw [hphase] at hzombie <;> cases hzombie <;> rfl
    refine h.parentMove (p := .read x _) (k := s.childexit) ⟨hknows, h.code x hcode⟩ ?_
    rw [hparent]
    rfl
  | read x code =>
    rw [hparent] at hknows
    simp only [hparent, WaitExit.parentStep] at hs
    split_ifs at hs with hfree
    cases hs
    have hzombie := h.away x hknows.1.born hknows.1.notChild
    have hsched := hfree x hknows.1.born
    have hstopped : s.phase x = .stopped := by
      cases hphase : s.phase x <;> rw [hphase] at hzombie hsched <;> cases hzombie <;> trivial
    refine h.finish ⟨hstopped, hknows.2⟩ (fun y hy => ?_) ?_
    · cases hy
      exact hknows.1
    · rw [hparent]
      rfl

/-- A step under the condition. -/
theorem Inv.step (h : Inv s) {a : Action} (hok : Ok s a) (hs : next s a = some t) : Inv t := by
  cases a with
  | fork =>
    simp only [next] at hs
    split_ifs at hs with hidle
    cases hs
    exact h.fork hidle
  | parent => exact h.parentStep hok hs
  | child x step =>
    simp only [next] at hs
    split_ifs at hs with hx
    exact h.childStep hx hs

/-! ## Runs -/

/-- In every run in which `wait` looks at no child between its release of `plock` and the
    store of `ZOMBIE`, a call of `wait` fails only without children, and otherwise returns a
    child that has stopped, with its own exit code and no child twice; every child that has
    announced its exit and was not reaped has a unit of `childexit`. -/
theorem wait_reaps (s : State) (hrun : Run next Ok start s) : Reaps s :=
  (hrun.invariant (I := Inv) Inv.start fun _ _ _ h hok hs => h.step hok hs).reaps

/-- The steps of `exit(code)` of `x`, with one open file, up to the call of `sched`. -/
def exitSteps (x : ℕ) (code : ℤ) : List Action :=
  [.child x (.call code), .child x .go, .child x .go, .child x .close] ++
    List.replicate 7 (.child x .go)

/-- Two children exit and are reaped, and a third call finds no children. -/
theorem wait_reaps_two : ∃ s, Run next Ok start s ∧ Reaps s ∧
    s.returned = [.fail [], .child 0 7 .stopped, .child 1 5 .stopped] := by
  have hexec : (execIf next Ok start
      ([.fork, .fork, .parent] ++ exitSteps 0 7 ++ [.child 0 .go, .child 0 .go] ++
        exitSteps 1 5 ++ [.child 1 .go, .child 1 .go] ++ List.replicate 14 .parent)).map
          (fun s => s.returned) =
        some [.fail [], .child 0 7 .stopped, .child 1 5 .stopped] := by
    decide +kernel
  obtain ⟨s, hrun, hs⟩ := Run.of_execIf_map hexec
  exact ⟨s, hrun, wait_reaps s hrun, hs⟩

/-- The only child has announced its exit and released its locks when `wait` looks at it, and
    becomes a zombie only then: the call fails, and the child is left without a unit. -/
theorem wait_misses_child : ∃ s, Run next anyStep start s ∧
    s.returned = [.fail [0]] ∧ s.children = [0] ∧ s.phase 0 = .stopped ∧ s.childexit = 0 := by
  have hexec : (exec next start
      ([.fork, .parent] ++ exitSteps 0 7 ++ List.replicate 5 .parent ++
        [.child 0 .go, .child 0 .go])).map
          (fun s => (s.returned, s.children, s.phase 0, s.childexit)) =
        some ([.fail [0]], [0], .stopped, 0) := by
    decide +kernel
  obtain ⟨s, hs, hend⟩ := Option.map_eq_some_iff.mp hexec
  simp only [Prod.mk.injEq] at hend
  exact ⟨s, Run.of_exec hs, hend⟩

end ShikiOS.Kernel.WaitExit
