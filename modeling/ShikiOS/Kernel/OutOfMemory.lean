import ShikiOS.Kernel.KallocSteps

/-!
# Calls of the allocator that find no page (`kernel/mem.c`)

What holds in every run of processes that call the allocator: who holds which lock, and what a
call has done itself where it is. When `kalloc_page` finds no page, it releases the wrong lock.

Results:
* `tick_cases`, `Balanced.tick`: what one step does to the locks, and to the tally.
* `Run.inv`: the invariant of runs.
* `Run.stuck`: what can happen after a call that found no page.
* `null_return`: what every call that returned `NULL` did.
-/

namespace ShikiOS.Kernel.OutOfMemory

open ShikiOS.Lib

/-! ## What a step does to the locks -/

variable {p q : ℕ} {s t : State} {v w : View} {l : Lock} {a : Action} {f : Frame} {c : Call}

/-- The locks that a process acquired and did not release, going by where it is. -/
def holds : Pc → Lock → Bool
  | .slab _, .mem | .newPage _ _, .mem | .freeBlock _, .mem | .unlockMem _, .mem => true
  | .count k, .mem | .lockPage k, .mem => k.isSome
  | .takePage k, .mem | .noPage k, .mem | .unlockPage k _, .mem => k.isSome
  | .lockPut k _, .mem | .put k _, .mem | .unlockPut k, .mem => k
  | .takePage _, .page | .noPage _, .page | .unlockPage _ _, .page => true
  | .put _ _, .page | .unlockPut _, .page => true
  | _, _ => false

/-- A call is on its way to return `NULL`. -/
def Failing (pc : Pc) : Prop := pc = .giveUp ∨ pc = .returned (some 0)

/-- The results that are on their way are not `NULL`. -/
def Proper : Pc → Prop
  | .unlockPage _ page => page ≠ 0
  | .unlockMem result => result ≠ some 0
  | _ => True

/-- What a call that may still find no page has added to `kalloc_page_cnt`. -/
def early : Pc → Option ℤ
  | .lockKalloc _ | .slab _ | .count _ => some 0
  | .lockPage _ | .takePage _ | .noPage _ => some 1
  | _ => none

/-- The call is not on its way to return `NULL`. -/
def Going (pc : Pc) : Prop := ¬ Failing pc ∧ Proper pc

/-- What a step of process `p` does to the locks. -/
inductive Effect (p : ℕ) (v w : View) : Prop
  | other (hheld : held w.heap = held v.heap) (howner : w.owner = v.owner)
      (hacq : w.tally.acquired = v.tally.acquired) (hrel : w.tally.released = v.tally.released)
      (hholds : holds w.pc = holds v.pc) (hgo : Going w.pc)
  | acquire (l : Lock) (hfree : held v.heap l = false) (hv : holds v.pc l = false)
      (hw : w = v.locked p l w.pc)
      (hholds : holds w.pc = Function.update (holds v.pc) l true) (hgo : Going w.pc)
  | release (l : Lock) (hv : holds v.pc l = true) (hw : w = v.release p l w.pc)
      (hholds : holds w.pc = Function.update (holds v.pc) l false) (hgo : Going w.pc)
  | fail (hv : holds v.pc .page = true) (hearly : early v.pc = some 1)
      (hw : w = v.release p .mem w.pc) (hholds : ∀ l, holds w.pc l = false)
      (hpc : w.pc = if holds v.pc .mem then .giveUp else .returned (some 0))
  | giveUp (hv : v.pc = .giveUp) (hw : w = v.release p .mem (.returned (some 0)))

theorem holds_ext {pc pc' : Pc} (hm : holds pc' .mem = holds pc .mem)
    (hp : holds pc' .page = holds pc .page) : holds pc' = holds pc := by
  funext l
  cases l with
  | mem => exact hm
  | page => exact hp

theorem Effect.of_acquire {pc : Pc} (h : v.acquire p l pc = some w) (hv : holds v.pc l = false)
    (hholds : holds pc = Function.update (holds v.pc) l true) (hpc : Going pc) :
    Effect p v w := by
  obtain ⟨hfree, rfl⟩ := View.acquire_eq_some h
  exact .acquire l hfree hv rfl hholds hpc

theorem Effect.of_store {h : Heap} {pc : Pc} (hq : Quiet v.heap h) (hholds : holds pc = holds v.pc)
    (hpc : Going pc) : Effect p v (v.store h pc) :=
  .other hq.held rfl rfl rfl hholds hpc

theorem Effect.of_goto {pc : Pc} (hholds : holds pc = holds v.pc) (hpc : Going pc) :
    Effect p v (v.goto pc) :=
  .other rfl rfl rfl rfl hholds hpc

theorem Effect.of_addCnt {k : ℤ} {pc : Pc} (hholds : holds pc = holds v.pc)
    (hpc : Going pc) : Effect p v (v.addCnt k pc) := by
  refine .other ?_ rfl rfl rfl hholds hpc
  funext l
  cases l <;> rfl

theorem takeBlock_ne_zero {s : Heap} {i : ℕ} (h : (s.allocators i).freeList ≠ 0) :
    (s.takeBlock i).2 ≠ 0 := by
  unfold Heap.takeBlock
  dsimp only
  split_ifs with h1 h2 h3
  · exact h1
  · exact h
  · exact h
  · exact h

theorem initPage_ne_zero (s : Heap) (i a : ℕ) : (s.initPage i a).2 ≠ 0 := by
  have h : (s.initPage i a).2 = (a + 4 + 7) / 8 * 8 := rfl
  omega

theorem tick_cases (hp : Proper v.pc) (h : tick p v = some w) : Effect p v w := by
  cases hpc : v.pc with
  | lockKalloc _ | lockKfree _ | lockPage _ | lockPut _ _ =>
    simp only [tick, hpc] at h
    refine .of_acquire h (by rw [hpc]; rfl) ?_ (by simp [Going, Failing, Proper])
    rw [hpc]
    funext l
    cases l <;> rfl
  | slab size =>
    by_cases hlist : (v.heap.allocators (v.heap.getAllocatorIndex size)).freeList ≠ 0
    · rw [tick_slab_list hpc hlist] at h
      obtain rfl := Option.some.inj h
      have h0 := takeBlock_ne_zero hlist
      refine .of_store (quiet_takeBlock _ _) ?_ (by simp [Going, Failing, Proper, h0])
      rw [hpc]
      exact holds_ext rfl rfl
    · rw [tick_slab_nil hpc (not_not.mp hlist)] at h
      obtain rfl := Option.some.inj h
      refine .of_goto ?_ (by simp [Going, Failing, Proper])
      rw [hpc]
      exact holds_ext rfl rfl
  | count k =>
    simp only [tick, hpc] at h
    obtain rfl := Option.some.inj h
    refine .of_addCnt ?_ (by simp [Going, Failing, Proper])
    rw [hpc]
    exact holds_ext rfl rfl
  | takePage k =>
    by_cases h0 : v.heap.freePages = 0
    · rw [tick_takePage_nil hpc h0] at h
      obtain rfl := Option.some.inj h
      refine .of_goto ?_ (by simp [Going, Failing, Proper])
      rw [hpc]
      exact holds_ext rfl rfl
    · rw [tick_takePage_list hpc h0] at h
      obtain rfl := Option.some.inj h
      refine .of_store (quiet_takeFreePage _) ?_ (by simp [Going, Failing, Proper, h0])
      rw [hpc]
      exact holds_ext rfl rfl
  | noPage k =>
    simp only [tick, hpc] at h
    obtain rfl := Option.some.inj h
    refine .fail (by rw [hpc]; rfl) (by rw [hpc]; rfl) rfl ?_ ?_
    · intro l
      cases k <;> cases l <;> rfl
    · rw [hpc]
      cases k <;> rfl
  | unlockPage k page =>
    simp only [tick, hpc] at h
    obtain rfl := Option.some.inj h
    rw [hpc] at hp
    refine .release .page (by rw [hpc]; rfl) rfl ?_ ?_
    · rw [hpc]
      funext l
      cases k with
      | none => cases l <;> rfl
      | some i =>
        show holds (afterPage (some i) page) l = _
        rw [afterPage, if_neg hp]
        cases l <;> rfl
    · cases k with
      | none => simpa [View.release, afterPage, Going, Failing, Proper] using hp
      | some i =>
        show Going (afterPage (some i) page)
        rw [afterPage, if_neg hp]
        simp [Going, Failing, Proper]
  | newPage i page =>
    simp only [tick, hpc] at h
    obtain rfl := Option.some.inj h
    have h0 := initPage_ne_zero v.heap i page
    refine .of_store (quiet_initPage _ _ _) ?_ (by simp [Going, Failing, Proper, h0])
    rw [hpc]
    exact holds_ext rfl rfl
  | giveUp =>
    simp only [tick, hpc] at h
    exact .giveUp hpc (Option.some.inj h).symm
  | freeBlock ptr =>
    rw [tick_freeBlock hpc] at h
    dsimp only at h
    split_ifs at h with hbig hfull
    · obtain rfl := Option.some.inj h
      refine .of_goto ?_ (by simp [Going, Failing, Proper])
      rw [hpc]
      exact holds_ext rfl rfl
    · obtain ⟨x, hx, rfl⟩ := Option.map_eq_some_iff.mp h
      refine .of_store ?_ ?_ (by simp [Going, Failing, Proper])
      · refine ((quiet_putBlock _ _ _ _).trans (quiet_unlinkLoop hx)).trans ?_
        exact quiet_of_eq rfl rfl rfl
      · rw [hpc]
        exact holds_ext rfl rfl
    · obtain rfl := Option.some.inj h
      refine .of_store (quiet_putBlock _ _ _ _) ?_ (by simp [Going, Failing, Proper])
      rw [hpc]
      exact holds_ext rfl rfl
  | put k page =>
    simp only [tick, hpc] at h
    obtain rfl := Option.some.inj h
    refine .other ?_ rfl rfl rfl ?_ ?_
    · rw [← (quiet_putFreePage v.heap page).held]
      funext l
      cases l <;> rfl
    · rw [hpc]
      exact holds_ext rfl rfl
    · simp [Going, Failing, Proper, View.addCnt]
  | unlockPut k =>
    simp only [tick, hpc] at h
    obtain rfl := Option.some.inj h
    refine .release .page (by rw [hpc]; rfl) rfl ?_ ?_
    · rw [hpc]
      funext l
      cases k <;> cases l <;> rfl
    · cases k <;> simp [View.release, afterPut, Going, Failing, Proper]
  | unlockMem r =>
    simp only [tick, hpc] at h
    obtain rfl := Option.some.inj h
    rw [hpc] at hp
    refine .release .mem (by rw [hpc]; rfl) rfl ?_ ?_
    · rw [hpc]
      funext l
      cases l <;> rfl
    · simpa [View.release, Going, Failing, Proper] using hp
  | returned r => simp [tick, hpc] at h

/-! ## The tally of a call -/

/-- The tally of a call that returned `NULL`. -/
structure Failed (t : Tally) : Prop where
  page_acquired : t.acquired .page = 1
  page_released : t.released .page = 0
  mem_released : t.released .mem = t.acquired .mem + 1
  counted : t.counted = 1
  wrote : t.wrote = false
  foreign : t.foreign = true

/-- What a tally says of where a call is. -/
structure Balanced (pc : Pc) (t : Tally) : Prop where
  even : ¬ Failing pc → ∀ l, t.released l + (holds pc l).toNat = t.acquired l
  early : ∀ k, early pc = some k → t.counted = k ∧ t.wrote = false ∧ ∀ l, t.released l = 0
  giveUp : pc = .giveUp → t.acquired .page = 1 ∧ t.released .page = 0 ∧
    t.released .mem = t.acquired .mem ∧ t.counted = 1 ∧ t.wrote = false
  failed : pc = .returned (some 0) → Failed t
  proper : Proper pc

theorem holds_entry (c : Call) (l : Lock) : holds (entry c) l = false := by
  cases c <;> simp only [entry] <;> try split_ifs
  all_goals cases l <;> rfl

theorem not_failing_entry (c : Call) : ¬ Failing (entry c) := by
  cases c <;> simp only [entry, Failing] <;> try split_ifs
  all_goals simp

theorem balanced_entry (c : Call) : Balanced (entry c) Tally.zero := by
  have hfail := not_failing_entry c
  refine ⟨fun _ l => by rw [holds_entry]; rfl, ?_, fun h => absurd (.inl h) hfail,
    fun h => absurd (.inr h) hfail, ?_⟩
  · intro k hk
    refine ⟨?_, rfl, fun _ => rfl⟩
    cases c <;> simp only [entry] at hk
    case kfree p => split_ifs at hk <;> cases hk
    all_goals cases hk <;> rfl
  · cases c <;> simp only [entry] <;> try split_ifs
    all_goals exact trivial

/-- A call that may find no page could do so before the step. -/
theorem early_tick {k : ℤ} (h : tick p v = some w) (hk : early w.pc = some k) :
    ∃ k', early v.pc = some k' ∧ w.tally.counted - k = v.tally.counted - k' ∧
      w.tally.wrote = v.tally.wrote ∧ w.tally.released = v.tally.released := by
  cases hpc : v.pc with
  | lockKalloc _ | lockPage _ =>
    simp only [tick, hpc] at h
    obtain ⟨-, rfl⟩ := View.acquire_eq_some h
    cases hk
    exact ⟨_, rfl, rfl, rfl, rfl⟩
  | lockKfree _ | lockPut _ _ =>
    simp only [tick, hpc] at h
    obtain ⟨-, rfl⟩ := View.acquire_eq_some h
    cases hk
  | slab size =>
    by_cases hlist : (v.heap.allocators (v.heap.getAllocatorIndex size)).freeList ≠ 0
    · rw [tick_slab_list hpc hlist] at h
      obtain rfl := Option.some.inj h
      cases hk
    · rw [tick_slab_nil hpc (not_not.mp hlist)] at h
      obtain rfl := Option.some.inj h
      cases hk
      exact ⟨_, rfl, rfl, rfl, rfl⟩
  | count k =>
    simp only [tick, hpc] at h
    obtain rfl := Option.some.inj h
    cases hk
    refine ⟨_, rfl, ?_, rfl, rfl⟩
    show v.tally.counted + 1 - 1 = v.tally.counted - 0
    ring
  | takePage k =>
    by_cases h0 : v.heap.freePages = 0
    · rw [tick_takePage_nil hpc h0] at h
      obtain rfl := Option.some.inj h
      cases hk
      exact ⟨_, rfl, rfl, rfl, rfl⟩
    · rw [tick_takePage_list hpc h0] at h
      obtain rfl := Option.some.inj h
      cases hk
  | noPage k | unlockPage k _ =>
    simp only [tick, hpc] at h
    obtain rfl := Option.some.inj h
    simp only [View.release, afterPage] at hk
    cases k with
    | none => cases hk
    | some i =>
      simp only at hk
      split_ifs at hk <;> cases hk
  | unlockPut k =>
    simp only [tick, hpc] at h
    obtain rfl := Option.some.inj h
    cases k <;> cases hk
  | freeBlock ptr =>
    rw [tick_freeBlock hpc] at h
    dsimp only at h
    split_ifs at h
    · obtain rfl := Option.some.inj h
      cases hk
    · obtain ⟨x, hx, rfl⟩ := Option.map_eq_some_iff.mp h
      cases hk
    · obtain rfl := Option.some.inj h
      cases hk
  | newPage _ _ | giveUp | put _ _ | unlockMem _ =>
    simp only [tick, hpc] at h
    obtain rfl := Option.some.inj h
    cases hk
  | returned r => simp [tick, hpc] at h

theorem failing_tick (ht : tick p v = some w) (hv : Failing v.pc) : Failing w.pc := by
  rcases hv with hv | hv
  · simp only [tick, hv] at ht
    obtain rfl := Option.some.inj ht
    exact .inr rfl
  · simp [tick, hv] at ht

theorem not_failing (ht : tick p v = some w) (hw : Going w.pc) : ¬ Failing v.pc :=
  fun hv => hw.1 (failing_tick ht hv)

/-- Every step keeps the tally in order. The process does not hold a lock that its place in the
    code does not say. -/
theorem Balanced.tick (h : Balanced v.pc v.tally)
    (hown : v.owner .mem = some p → holds v.pc .mem = true) (ht : tick p v = some w) :
    Balanced w.pc w.tally := by
  have hearly : ∀ k, OutOfMemory.early w.pc = some k →
      w.tally.counted = k ∧ w.tally.wrote = false ∧ ∀ l, w.tally.released l = 0 := by
    intro k hk
    obtain ⟨k', hk', h1, h2, h3⟩ := early_tick ht hk
    obtain ⟨h4, h5, h6⟩ := h.early k' hk'
    exact ⟨by omega, h2.trans h5, fun l => by rw [h3]; exact h6 l⟩
  have hgoing : Going w.pc → (∀ l, w.tally.released l + (holds w.pc l).toNat = w.tally.acquired l) →
      Balanced w.pc w.tally := fun hw heven =>
    ⟨fun _ => heven, hearly, fun hg => absurd (.inl hg) hw.1, fun hf => absurd (.inr hf) hw.1, hw.2⟩
  cases tick_cases h.proper ht with
  | other hheld howner hacq hrel hholds hgo =>
    refine hgoing hgo fun l => ?_
    rw [hacq, hrel, hholds]
    exact h.even (not_failing ht hgo) l
  | acquire l hfree hv hw hholds hgo =>
    refine hgoing hgo fun l' => ?_
    have hev := h.even (not_failing ht hgo) l'
    rw [hholds, hw]
    by_cases hl : l' = l
    · subst hl
      rw [hv] at hev
      simp only [View.locked, Function.update_self]
      exact congrArg (· + 1) hev
    · simpa only [View.locked, Function.update_of_ne hl] using hev
  | release l hv hw hholds hgo =>
    refine hgoing hgo fun l' => ?_
    have hev := h.even (not_failing ht hgo) l'
    rw [hholds, hw]
    by_cases hl : l' = l
    · subst hl
      rw [hv] at hev
      simpa only [View.release, Function.update_self, Bool.toNat_true, Bool.toNat_false,
        Nat.add_zero] using hev
    · simpa only [View.release, Function.update_of_ne hl] using hev
  | fail hv he hw hholds hpc =>
    obtain ⟨h1, h2, h3⟩ := h.early 1 he
    have hnot : ¬ Failing v.pc := by
      rintro (hf | hf) <;> rw [hf] at he <;> cases he
    have hpage := h.even hnot .page
    have hmem := h.even hnot .mem
    rw [hv, h3] at hpage
    rw [h3] at hmem
    have hfail : Failing w.pc := by
      rw [hpc]
      split_ifs
      · exact .inl rfl
      · exact .inr rfl
    have hrel : w.tally.released .mem = 1 := by
      rw [hw]
      simp only [View.release, Function.update_self, h3]
    have hrelp : w.tally.released .page = 0 := by
      rw [hw]
      simpa only [View.release, ne_eq, reduceCtorEq, not_false_eq_true, Function.update_of_ne]
        using h3 .page
    have hacq : w.tally.acquired = v.tally.acquired := by rw [hw]; rfl
    have hcnt : w.tally.counted = 1 := by rw [hw]; exact h1
    have hwr : w.tally.wrote = false := by rw [hw]; exact h2
    refine ⟨fun hn => absurd hfail hn, hearly, fun hg => ?_, fun hr => ?_, ?_⟩
    · -- `kalloc` called, and its lock was released for the first time
      have hin : holds v.pc .mem = true := by
        by_contra hin
        rw [hpc, if_neg hin] at hg
        cases hg
      rw [hin] at hmem
      rw [hacq, hrel, hrelp, ← hpage, ← hmem]
      exact ⟨rfl, rfl, rfl, hcnt, hwr⟩
    · -- nobody called, and the process released a lock that it never acquired
      have hin : holds v.pc .mem = false := by
        by_contra hin
        rw [hpc, if_pos (Bool.eq_true_of_not_eq_false hin)] at hr
        cases hr
      rw [hin] at hmem
      have hne : v.owner .mem ≠ some p := fun ho => by
        rw [hown ho] at hin
        cases hin
      refine ⟨by rw [hacq, ← hpage]; rfl, hrelp, by rw [hacq, hrel, ← hmem]; rfl, hcnt, hwr, ?_⟩
      rw [hw]
      simp [View.release, hne]
    · rw [hpc]
      split_ifs
      · exact trivial
      · exact trivial
  | giveUp hv hw =>
    obtain ⟨h1, h2, h3, h4, h5⟩ := h.giveUp hv
    have hne : v.owner .mem ≠ some p := fun ho => by
      have hin := hown ho
      rw [hv] at hin
      cases hin
    subst hw
    refine ⟨fun hn => absurd (.inr rfl) hn, hearly, fun hg => (by cases hg), fun _ => ?_, trivial⟩
    refine ⟨h1, h2, ?_, h4, h5, ?_⟩
    · simpa only [View.release, Function.update_self] using congrArg (· + 1) h3
    · simp [View.release, hne]

/-! ## Runs -/

/-- A call returned `NULL` or is on its way to. -/
def Lost (s : State) : Prop :=
  (∃ p f, s.frame p = some f ∧ Failing f.pc) ∨ ∃ r ∈ s.log, r.result = some 0

/-- What every run keeps. -/
structure Inv (s : State) : Prop where
  balanced : ∀ p f, s.frame p = some f → Balanced f.pc f.tally
  failed : ∀ r ∈ s.log, r.result = some 0 → Failed r.tally
  even : ∀ r ∈ s.log, r.result ≠ some 0 → r.tally.released = r.tally.acquired
  owner : ∀ p, s.owner .mem = some p → ∃ f, s.frame p = some f ∧ holds f.pc .mem = true
  page : ∀ p f, s.frame p = some f → holds f.pc .page = true →
    s.owner .page = some p ∧ s.heap.pageLock = true
  lost : Lost s → s.heap.pageLock = true ∧ ∀ p f, s.frame p = some f → holds f.pc .page = false

theorem Start.inv (h : Start s) : Inv s := by
  have hframe : ∀ {p f}, s.frame p ≠ some f := fun hf => by
    rw [h.idle] at hf
    cases hf
  have hlog : ∀ {r}, r ∉ s.log := by simp [h.log]
  refine ⟨fun p f hf => absurd hf hframe, fun r hr => absurd hr hlog, fun r hr => absurd hr hlog,
    fun p hp => ?_, fun p f hf => absurd hf hframe, ?_⟩
  · rw [h.owner] at hp
    cases hp
  · rintro (⟨p, f, hf, -⟩ | ⟨r, hr, -⟩)
    · exact absurd hf hframe
    · exact absurd hr hlog

/-- The steps of a process in a call: it goes on, or it returns. -/
theorem tickFrame_cases (h : tickFrame s p f = some t) :
    (∃ w, tick p ⟨s.heap, s.owner, f.pc, f.tally⟩ = some w ∧
      t = { s.setFrame p (some ⟨f.call, w.pc, w.tally⟩) with heap := w.heap, owner := w.owner }) ∨
    ∃ result, f.pc = .returned result ∧
      t = { s.setFrame p none with log := ⟨p, f.call, result, f.tally⟩ :: s.log } := by
  cases hpc : f.pc with
  | returned result =>
    simp only [tickFrame, hpc] at h
    exact .inr ⟨result, rfl, (Option.some.inj h).symm⟩
  | _ =>
    simp only [tickFrame, hpc] at h
    obtain ⟨w, hw, ht⟩ := Option.map_eq_some_iff.mp h
    exact .inl ⟨w, hw, ht.symm⟩

theorem setFrame_some {x : Option Frame} (h : (s.setFrame p x).frame q = some f) :
    (q = p ∧ x = some f) ∨ (q ≠ p ∧ s.frame q = some f) := by
  rw [State.setFrame] at h
  by_cases hq : q = p
  · subst hq
    exact .inl ⟨rfl, by simpa using h⟩
  · exact .inr ⟨hq, by simpa [Function.update_of_ne hq] using h⟩

section Tick

variable (h : Inv s) (hf : s.frame p = some f) (he : Effect p ⟨s.heap, s.owner, f.pc, f.tally⟩ w)

include h

theorem Inv.idle_of_free (hl : s.heap.pageLock = false) :
    ¬ Lost s ∧ ∀ q f, s.frame q = some f → holds f.pc .page = false := by
  constructor
  · intro hlost
    rw [(h.lost hlost).1] at hl
    cases hl
  · intro q f hq
    by_contra hp
    rw [(h.page q f hq (Bool.eq_true_of_not_eq_false hp)).2] at hl
    cases hl

include hf he

/-- The owner of the lock of the allocators is in its section after a step of `p`. -/
theorem Inv.tick_owner (ho : w.owner .mem = some q) :
    (q = p ∧ holds w.pc .mem = true) ∨ (q ≠ p ∧ s.owner .mem = some q) := by
  have hkeep : w.owner .mem = s.owner .mem → holds w.pc .mem = holds f.pc .mem →
      (q = p ∧ holds w.pc .mem = true) ∨ (q ≠ p ∧ s.owner .mem = some q) := by
    intro h1 h2
    rw [h1] at ho
    by_cases hq : q = p
    · subst hq
      obtain ⟨f', hf', hin⟩ := h.owner q ho
      rw [hf] at hf'
      obtain rfl := Option.some.inj hf'
      exact .inl ⟨rfl, h2.trans hin⟩
    · exact .inr ⟨hq, ho⟩
  cases he with
  | other hheld howner hacq hrel hholds hgo => exact hkeep (by rw [howner]) (by rw [hholds])
  | acquire l hfree hv hw hholds hgo =>
    cases l with
    | mem =>
      rw [hw] at ho
      obtain rfl : p = q := by simpa [View.locked] using ho
      exact .inl ⟨rfl, by rw [hholds]; rfl⟩
    | page => exact hkeep (by rw [hw]; rfl) (by rw [hholds]; rfl)
  | release l hv hw hholds hgo =>
    cases l with
    | mem =>
      rw [hw] at ho
      cases ho
    | page => exact hkeep (by rw [hw]; rfl) (by rw [hholds]; rfl)
  | fail hv he hw hholds hpc =>
    rw [hw] at ho
    cases ho
  | giveUp hv hw =>
    rw [hw] at ho
    cases ho

/-- Whoever is in the section of the page lock holds it after a step of `p`. -/
theorem Inv.tick_page : (holds w.pc .page = true → w.owner .page = some p ∧ w.heap.pageLock = true) ∧
    ∀ q f, q ≠ p → s.frame q = some f → holds f.pc .page = true →
      w.owner .page = some q ∧ w.heap.pageLock = true := by
  have hkeep : w.owner .page = s.owner .page → w.heap.pageLock = s.heap.pageLock →
      (holds w.pc .page = true → holds f.pc .page = true) →
      (holds w.pc .page = true → w.owner .page = some p ∧ w.heap.pageLock = true) ∧
      ∀ q f, q ≠ p → s.frame q = some f → holds f.pc .page = true →
        w.owner .page = some q ∧ w.heap.pageLock = true := by
    intro h1 h2 h3
    rw [h1, h2]
    exact ⟨fun hp => h.page p f hf (h3 hp), fun q f _ hq hp => h.page q f hq hp⟩
  cases he with
  | other hheld howner hacq hrel hholds hgo =>
    exact hkeep (by rw [howner]) (congrFun hheld .page) (by rw [hholds]; exact id)
  | acquire l hfree hv hw hholds hgo =>
    cases l with
    | mem =>
      refine hkeep (by rw [hw]; rfl) (by rw [hw]; rfl) ?_
      rw [hholds]
      exact id
    | page =>
      refine ⟨fun _ => by rw [hw]; exact ⟨rfl, rfl⟩, fun q f _ hq hp => ?_⟩
      rw [(h.idle_of_free hfree).2 q f hq] at hp
      cases hp
  | release l hv hw hholds hgo =>
    cases l with
    | mem =>
      refine hkeep (by rw [hw]; rfl) (by rw [hw]; rfl) ?_
      rw [hholds]
      exact id
    | page =>
      refine ⟨fun hp => ?_, fun q f' hne hq hp => ?_⟩
      · rw [hholds] at hp
        cases hp
      · have h1 := (h.page p f hf hv).1
        rw [(h.page q f' hq hp).1] at h1
        exact absurd (Option.some.inj h1) hne
  | fail hv he hw hholds hpc =>
    refine hkeep (by rw [hw]; rfl) (by rw [hw]; rfl) fun hp => ?_
    rw [hholds] at hp
    cases hp
  | giveUp hv hw =>
    refine hkeep (by rw [hw]; rfl) (by rw [hw]; rfl) fun hp => ?_
    rw [hw] at hp
    cases hp

/-- When a call found no page, the page lock stays locked and nobody gets into its section. -/
theorem Inv.tick_lost (hlost : Failing w.pc ∨ Lost s) : w.heap.pageLock = true ∧
    holds w.pc .page = false ∧ ∀ q f, q ≠ p → s.frame q = some f → holds f.pc .page = false := by
  have hkeep : Lost s → w.heap.pageLock = s.heap.pageLock →
      (holds f.pc .page = false → holds w.pc .page = false) →
      w.heap.pageLock = true ∧ holds w.pc .page = false ∧
        ∀ q f, q ≠ p → s.frame q = some f → holds f.pc .page = false := by
    intro h1 h2 h3
    obtain ⟨h4, h5⟩ := h.lost h1
    exact ⟨h2.trans h4, h3 (h5 p f hf), fun q f _ hq => h5 q f hq⟩
  cases he with
  | other hheld howner hacq hrel hholds hgo =>
    refine hkeep (hlost.resolve_left hgo.1) (congrFun hheld .page) ?_
    rw [hholds]
    exact id
  | acquire l hfree hv hw hholds hgo =>
    cases l with
    | mem =>
      refine hkeep (hlost.resolve_left hgo.1) (by rw [hw]; rfl) ?_
      rw [hholds]
      exact id
    | page => exact absurd (hlost.resolve_left hgo.1) (h.idle_of_free hfree).1
  | release l hv hw hholds hgo =>
    cases l with
    | mem =>
      refine hkeep (hlost.resolve_left hgo.1) (by rw [hw]; rfl) ?_
      rw [hholds]
      exact id
    | page =>
      rw [(h.lost (hlost.resolve_left hgo.1)).2 p f hf] at hv
      cases hv
  | fail hv he hw hholds hpc =>
    obtain ⟨h1, h2⟩ := h.page p f hf hv
    refine ⟨by rw [hw]; exact h2, hholds .page, fun q f' hne hq => ?_⟩
    by_contra hp
    have h3 := (h.page q f' hq (Bool.eq_true_of_not_eq_false hp)).1
    rw [h1] at h3
    exact absurd (Option.some.inj h3).symm hne
  | giveUp hv hw =>
    have hgone : Lost s := .inl ⟨p, f, hf, .inl hv⟩
    refine hkeep hgone (by rw [hw]; rfl) fun _ => ?_
    rw [hw]
    rfl

end Tick

theorem Inv.tick (h : Inv s) (hf : s.frame p = some f)
    (ht : tick p ⟨s.heap, s.owner, f.pc, f.tally⟩ = some w) :
    Inv { s.setFrame p (some ⟨f.call, w.pc, w.tally⟩) with heap := w.heap, owner := w.owner } := by
  have hb := h.balanced p f hf
  have he := tick_cases hb.proper ht
  have hown : s.owner .mem = some p → holds f.pc .mem = true := by
    intro ho
    obtain ⟨f', hf', hin⟩ := h.owner p ho
    rw [hf] at hf'
    rwa [Option.some.inj hf']
  refine ⟨?_, h.failed, h.even, ?_, ?_, ?_⟩
  · intro q f' hq
    rcases setFrame_some hq with ⟨rfl, hx⟩ | ⟨-, hx⟩
    · rw [← Option.some.inj hx]
      exact Balanced.tick hb hown ht
    · exact h.balanced q f' hx
  · intro q ho
    rcases h.tick_owner hf he ho with ⟨rfl, hin⟩ | ⟨hne, hq⟩
    · exact ⟨_, Function.update_self .., hin⟩
    · obtain ⟨f', hf', hin⟩ := h.owner q hq
      exact ⟨f', (Function.update_of_ne hne ..).trans hf', hin⟩
  · intro q f' hq hp
    rcases setFrame_some hq with ⟨rfl, hx⟩ | ⟨hne, hx⟩
    · rw [← Option.some.inj hx] at hp
      exact (h.tick_page hf he).1 hp
    · exact (h.tick_page hf he).2 q f' hne hx hp
  · intro hlost
    have hpre : Failing w.pc ∨ Lost s := by
      rcases hlost with ⟨q, f', hq, hfail⟩ | hlog
      · rcases setFrame_some hq with ⟨rfl, hx⟩ | ⟨-, hx⟩
        · rw [← Option.some.inj hx] at hfail
          exact .inl hfail
        · exact .inr (.inl ⟨q, f', hx, hfail⟩)
      · exact .inr (.inr hlog)
    obtain ⟨h1, h2, h3⟩ := h.tick_lost hf he hpre
    refine ⟨h1, fun q f' hq => ?_⟩
    rcases setFrame_some hq with ⟨rfl, hx⟩ | ⟨hne, hx⟩
    · rw [← Option.some.inj hx]
      exact h2
    · exact h3 q f' hne hx

theorem Inv.returned {result : Option ℕ} (h : Inv s) (hf : s.frame p = some f)
    (hpc : f.pc = .returned result) :
    Inv { s.setFrame p none with log := ⟨p, f.call, result, f.tally⟩ :: s.log } := by
  have hb := h.balanced p f hf
  have hframe : ∀ {q f'}, (s.setFrame p none).frame q = some f' → s.frame q = some f' := by
    intro q f' hq
    rcases setFrame_some hq with ⟨-, hx⟩ | ⟨-, hx⟩
    · cases hx
    · exact hx
  refine ⟨fun q f' hq => h.balanced q f' (hframe hq), ?_, ?_, ?_,
    fun q f' hq => h.page q f' (hframe hq), ?_⟩
  · refine List.forall_mem_cons.mpr ⟨fun h0 => hb.failed ?_, h.failed⟩
    rw [hpc]
    exact congrArg Pc.returned h0
  · refine List.forall_mem_cons.mpr ⟨fun h0 => ?_, h.even⟩
    have hgo : ¬ Failing f.pc := by
      rw [hpc]
      rintro (hx | hx)
      · cases hx
      · exact h0 (Pc.returned.inj hx)
    funext l
    have hl := hb.even hgo l
    rwa [hpc] at hl
  · intro q hq
    obtain ⟨f', hf', hin⟩ := h.owner q hq
    have hne : q ≠ p := by
      rintro rfl
      rw [hf] at hf'
      rw [← Option.some.inj hf', hpc] at hin
      cases hin
    exact ⟨f', (Function.update_of_ne hne ..).trans hf', hin⟩
  · intro hlost
    have hpre : Lost s := by
      rcases hlost with ⟨q, f', hq, hfail⟩ | ⟨r, hr, h0⟩
      · exact .inl ⟨q, f', hframe hq, hfail⟩
      · rcases List.mem_cons.mp hr with rfl | hr
        · exact .inl ⟨p, f, hf, .inr (hpc.trans (congrArg Pc.returned h0))⟩
        · exact .inr ⟨r, hr, h0⟩
    exact ⟨(h.lost hpre).1, fun q f' hq => (h.lost hpre).2 q f' (hframe hq)⟩

theorem Inv.call (h : Inv s) (hp : s.frame p = none) :
    Inv (s.setFrame p (some ⟨c, entry c, Tally.zero⟩)) := by
  have hframe : ∀ {q f'}, (s.setFrame p (some ⟨c, entry c, Tally.zero⟩)).frame q = some f' →
      (f'.pc = entry c ∧ f'.tally = Tally.zero) ∨ s.frame q = some f' := by
    intro q f' hq
    rcases setFrame_some hq with ⟨-, hx⟩ | ⟨-, hx⟩
    · rw [← Option.some.inj hx]
      exact .inl ⟨rfl, rfl⟩
    · exact .inr hx
  refine ⟨fun q f' hq => ?_, h.failed, h.even, fun q hq => ?_, fun q f' hq hin => ?_,
    fun hlost => ?_⟩
  · rcases hframe hq with ⟨h1, h2⟩ | hx
    · rw [h1, h2]
      exact balanced_entry c
    · exact h.balanced q f' hx
  · obtain ⟨f', hf', hin⟩ := h.owner q hq
    have hne : q ≠ p := by
      rintro rfl
      rw [hp] at hf'
      cases hf'
    exact ⟨f', (Function.update_of_ne hne ..).trans hf', hin⟩
  · rcases hframe hq with ⟨h1, -⟩ | hx
    · rw [h1, holds_entry] at hin
      cases hin
    · exact h.page q f' hx hin
  · have hpre : Lost s := by
      rcases hlost with ⟨q, f', hq, hfail⟩ | hlog
      · rcases hframe hq with ⟨h1, -⟩ | hx
        · rw [h1] at hfail
          exact absurd hfail (not_failing_entry c)
        · exact .inl ⟨q, f', hx, hfail⟩
      · exact .inr hlog
    refine ⟨(h.lost hpre).1, fun q f' hq => ?_⟩
    rcases hframe hq with ⟨h1, -⟩ | hx
    · rw [h1]
      exact holds_entry c .page
    · exact (h.lost hpre).2 q f' hx

theorem step_call (h : step s (.call p c) = some t) :
    s.frame p = none ∧ t = s.setFrame p (some ⟨c, entry c, Tally.zero⟩) := by
  simp only [step] at h
  cases hp : s.frame p with
  | none =>
    rw [hp] at h
    exact ⟨rfl, (Option.some.inj h).symm⟩
  | some f =>
    rw [hp] at h
    cases h

theorem Inv.step (h : Inv s) (hs : step s a = some t) : Inv t := by
  cases a with
  | call p c =>
    obtain ⟨hp, rfl⟩ := step_call hs
    exact h.call hp
  | tick p =>
    obtain ⟨f, hf, ht⟩ := Option.bind_eq_some_iff.mp hs
    rcases tickFrame_cases ht with ⟨w, hw, rfl⟩ | ⟨result, hpc, rfl⟩
    · exact h.tick hf hw
    · exact h.returned hf hpc
  | write x b =>
    obtain rfl := Option.some.inj hs
    exact ⟨h.balanced, h.failed, h.even, h.owner, h.page, h.lost⟩

theorem Run.inv (hs : Start s) (hrun : Run step anyStep s t) : Inv t :=
  hrun.invariant hs.inv fun _ _ _ hi _ ht => hi.step ht

/-! ## After a call that returned `NULL` -/

/-- The calls that go through the section of the page lock themselves. -/
def Call.pages : Call → Bool
  | .kallocPage | .kfreePage _ => true
  | .kalloc _ | .kfree _ => false

/-- The call has not got past the page lock. -/
def Waiting : Pc → Prop
  | .count _ | .lockPage _ | .lockPut _ _ => True
  | _ => False

/-- From `s` on, in a run to `t`, the calls that go through the page lock wait for it. -/
structure Stuck (s t : State) : Prop where
  lost : Lost t
  log : ∃ new, t.log = new ++ s.log ∧ ∀ r ∈ new, s.frame r.pid = none → r.call.pages = false
  waiting : ∀ p f, s.frame p = none → t.frame p = some f → f.call.pages = true → Waiting f.pc

theorem tick_waiting (hl : v.heap.pageLock = true) (hv : Waiting v.pc) (h : tick p v = some w) :
    Waiting w.pc := by
  cases hpc : v.pc with
  | count k =>
    simp only [tick, hpc] at h
    obtain rfl := Option.some.inj h
    exact trivial
  | lockPage _ | lockPut _ _ =>
    simp only [tick, hpc] at h
    have hfree := (View.acquire_eq_some h).1
    rw [show held v.heap .page = true from hl] at hfree
    cases hfree
  | _ =>
    rw [hpc] at hv
    exact hv.elim

theorem Lost.step (h : Lost s) (hs : step s a = some t) : Lost t := by
  cases a with
  | call p c =>
    obtain ⟨hp, rfl⟩ := step_call hs
    rcases h with ⟨q, f, hq, hfail⟩ | hlog
    · have hne : q ≠ p := by
        rintro rfl
        rw [hp] at hq
        cases hq
      exact .inl ⟨q, f, (Function.update_of_ne hne ..).trans hq, hfail⟩
    · exact .inr hlog
  | tick p =>
    obtain ⟨f, hf, ht⟩ := Option.bind_eq_some_iff.mp hs
    rcases h with ⟨q, f', hq, hfail⟩ | ⟨r, hr, h0⟩
    · by_cases hne : q = p
      · subst hne
        rw [hf] at hq
        obtain rfl := Option.some.inj hq
        rcases tickFrame_cases ht with ⟨w, hw, rfl⟩ | ⟨result, hpc, rfl⟩
        · exact .inl ⟨q, _, Function.update_self .., failing_tick hw hfail⟩
        · refine .inr ⟨_, List.mem_cons_self, ?_⟩
          rw [hpc] at hfail
          rcases hfail with hfail | hfail
          · cases hfail
          · exact Pc.returned.inj hfail
      · rcases tickFrame_cases ht with ⟨w, hw, rfl⟩ | ⟨result, hpc, rfl⟩
        · exact .inl ⟨q, f', (Function.update_of_ne hne ..).trans hq, hfail⟩
        · exact .inl ⟨q, f', (Function.update_of_ne hne ..).trans hq, hfail⟩
    · rcases tickFrame_cases ht with ⟨w, hw, rfl⟩ | ⟨result, hpc, rfl⟩
      · exact .inr ⟨r, hr, h0⟩
      · exact .inr ⟨r, List.mem_cons_of_mem _ hr, h0⟩
  | write x b =>
    obtain rfl := Option.some.inj hs
    exact h

theorem waiting_entry (hc : c.pages = true) : Waiting (entry c) := by
  cases c with
  | kallocPage => exact trivial
  | kfreePage page => exact trivial
  | kalloc size => cases hc
  | kfree ptr => cases hc

theorem Stuck.refl (h : Lost s) : Stuck s s := by
  refine ⟨h, ⟨[], rfl, by simp⟩, fun p f hp hf => ?_⟩
  rw [hp] at hf
  cases hf

theorem Stuck.step {u : State} (h : Stuck s t) (hi : Inv t) (ht : step t a = some u) :
    Stuck s u := by
  refine ⟨h.lost.step ht, ?_, ?_⟩
  · obtain ⟨new, hlog, hnew⟩ := h.log
    cases a with
    | call p c =>
      obtain ⟨-, rfl⟩ := step_call ht
      exact ⟨new, hlog, hnew⟩
    | tick p =>
      obtain ⟨f, hf, ht⟩ := Option.bind_eq_some_iff.mp ht
      rcases tickFrame_cases ht with ⟨w, hw, rfl⟩ | ⟨result, hpc, rfl⟩
      · exact ⟨new, hlog, hnew⟩
      · refine ⟨⟨p, f.call, result, f.tally⟩ :: new, congrArg _ hlog, ?_⟩
        refine List.forall_mem_cons.mpr ⟨fun hp => ?_, hnew⟩
        by_contra hc
        have hw := h.waiting p f hp hf (Bool.eq_true_of_not_eq_false hc)
        rw [hpc] at hw
        exact hw
    | write x b =>
      obtain rfl := Option.some.inj ht
      exact ⟨new, hlog, hnew⟩
  · intro p f hp hf hc
    cases a with
    | call q c =>
      obtain ⟨-, rfl⟩ := step_call ht
      rcases setFrame_some hf with ⟨-, hx⟩ | ⟨-, hx⟩
      · rw [← Option.some.inj hx] at hc ⊢
        exact waiting_entry hc
      · exact h.waiting p f hp hx hc
    | tick q =>
      obtain ⟨f', hf', ht⟩ := Option.bind_eq_some_iff.mp ht
      rcases tickFrame_cases ht with ⟨w, hw, rfl⟩ | ⟨result, hpc, rfl⟩
      · rcases setFrame_some hf with ⟨rfl, hx⟩ | ⟨-, hx⟩
        · rw [← Option.some.inj hx] at hc ⊢
          exact tick_waiting (hi.lost h.lost).1 (h.waiting p f' hp hf' hc) hw
        · exact h.waiting p f hp hx hc
      · rcases setFrame_some hf with ⟨-, hx⟩ | ⟨-, hx⟩
        · cases hx
        · exact h.waiting p f hp hx hc
    | write x b =>
      obtain rfl := Option.some.inj ht
      exact h.waiting p f hp hf hc

theorem Run.stuck (hi : Inv s) (hlost : Lost s) (hrun : Run step anyStep s t) : Stuck s t := by
  have h : Inv t ∧ Stuck s t := by
    refine hrun.invariant (I := fun t => Inv t ∧ Stuck s t) ⟨hi, .refl hlost⟩ ?_
    intro t a u ht _ hs
    exact ⟨ht.1.step hs, ht.2.step ht.1 hs⟩
  exact h.2

/-- What is wanted of a call that returns `NULL`: it counted and wrote nothing in the end, and
    released the locks that it acquired and no others. -/
structure Intact (t : Tally) : Prop where
  counted : t.counted = 0
  wrote : t.wrote = false
  released : t.released = t.acquired
  foreign : t.foreign = false

theorem Failed.not_intact {y : Tally} (h : Failed y) : ¬ Intact y := by
  intro hy
  have h1 := h.counted
  rw [hy.counted] at h1
  cases h1

theorem Failed.not_even {y : Tally} (h : Failed y) : y.released ≠ y.acquired := by
  intro hy
  have h1 := h.mem_released
  rw [hy] at h1
  omega

/-- In every run, from any state of the allocators: the calls that returned `NULL` are those that
    did not release what they acquired. Each has raised `kalloc_page_cnt` by one, keeps the page
    lock, and released the lock of the allocators without holding it. Afterwards the page lock is
    never free again, and no process that calls `kalloc_page` or `kfree_page` comes back. -/
theorem null_return (hs : Start s) (hrun : Run step anyStep s t) :
    (∀ r ∈ t.log, r.result ≠ some 0 ↔ r.tally.released = r.tally.acquired) ∧
    ∀ r ∈ t.log, r.result = some 0 → ¬ Intact r.tally ∧ Failed r.tally ∧
      ∀ u, Run step anyStep t u → u.heap.pageLock = true ∧
        ∃ new, u.log = new ++ t.log ∧
          ∀ x ∈ new, t.frame x.pid = none → x.call.pages = false := by
  have hi := Run.inv hs hrun
  refine ⟨fun r hr => ⟨hi.even r hr, fun he h0 => (hi.failed r hr h0).not_even he⟩, ?_⟩
  intro r hr h0
  have hf := hi.failed r hr h0
  refine ⟨hf.not_intact, hf, fun u hu => ?_⟩
  have hlost : Lost t := .inr ⟨r, hr, h0⟩
  have hst := Run.stuck hi hlost hu
  have hinv : Inv u := hu.invariant hi fun _ _ _ hv _ hw => hv.step hw
  exact ⟨(hinv.lost hst.lost).1, hst.log⟩

/-- Nobody is in a call, and there is neither a block nor a page to give. -/
def emptyState : State :=
  { heap := { Kalloc.zeroHeap with allocators := fun i => ⟨size i, 0, false⟩ }
    owner := fun _ => none
    frame := fun _ => none
    log := [] }

theorem start_emptyState : Start emptyState :=
  ⟨fun _ => rfl, rfl, fun l => by cases l <;> rfl, rfl⟩

/-- A `kalloc` that returns `NULL`. -/
theorem null_return_kalloc : ∃ t : State, t.log.map (fun r => (r.call, r.result)) =
      [(.kalloc 8, some 0)] ∧ ∀ r ∈ t.log, r.result = some 0 → ¬ Intact r.tally := by
  have hexec : (exec step emptyState (.call 0 (.kalloc 8) :: List.replicate 8 (.tick 0))).map
      (fun t => t.log.map fun r => (r.call, r.result)) = some [(.kalloc 8, some 0)] := by
    decide +kernel
  obtain ⟨t, ht, hlog⟩ := Option.map_eq_some_iff.mp hexec
  exact ⟨t, hlog, fun r hr h0 => ((null_return start_emptyState (Run.of_exec ht)).2 r hr h0).1⟩

/-- While the page lock is locked, a `kfree_page` does not get past its first step. -/
theorem kfreePage_waits {page : ℕ} (hl : s.heap.pageLock = true) (hp : s.frame p = none) :
    exec step s [.call p (.kfreePage page), .tick p] = none := by
  have hacq : ∀ pc, View.acquire ⟨s.heap, s.owner, .lockPut false page, Tally.zero⟩ p .page pc =
      none := fun pc => if_pos hl
  simp only [exec, step, hp, State.setFrame, Function.update_self, Option.bind_some, tickFrame,
    entry, tick, hacq, Option.map_none]

/-- While process 0 is in `kalloc`, a `kalloc_page` of process 1 returns `NULL`. It has counted a
    page, and it released the lock that process 0 holds: process 2 gets into the same section.
    Then no page can be given back. -/
theorem kalloc_page_breaks_in : ∃ t, Run step anyStep emptyState t ∧ t.heap.freePages = 0 ∧
    t.heap.kallocPageCnt = 1 ∧
    t.log.map (fun r => (r.pid, r.result, r.tally.foreign)) = [(1, some 0, true)] ∧
    (∀ r ∈ t.log, r.result = some 0 ∧ ¬ Intact r.tally) ∧
    (t.frame 0).map Frame.pc = some (.slab 8) ∧ (t.frame 2).map Frame.pc = some (.slab 16) ∧
    ∀ q, exec step t [.call 3 (.kfreePage q), .tick 3] = none := by
  let acts : List Action := [.call 0 (.kalloc 8), .tick 0, .call 1 .kallocPage] ++
    List.replicate 5 (.tick 1) ++ [.call 2 (.kalloc 16), .tick 2]
  have hheap : (exec step emptyState acts).map (fun t => (t.heap.freePages, t.heap.kallocPageCnt,
      t.heap.pageLock, (t.frame 3).isNone)) = some (0, 1, true, true) := by
    decide +kernel
  have hpcs : (exec step emptyState acts).map (fun t => ((t.frame 0).map Frame.pc,
      (t.frame 2).map Frame.pc)) = some (some (.slab 8), some (.slab 16)) := by
    decide +kernel
  have hlog : (exec step emptyState acts).map (fun t => (
      t.log.map (fun r => (r.pid, r.result, r.tally.foreign)),
      t.log.map (fun r => (r.result, r.tally.counted)))) =
      some ([(1, some 0, true)], [(some 0, 1)]) := by
    decide +kernel
  obtain ⟨t, ht, hheap⟩ := Option.map_eq_some_iff.mp hheap
  rw [ht] at hpcs hlog
  simp only [Option.map_some, Option.some.injEq, Prod.mk.injEq] at hheap hpcs hlog
  obtain ⟨hfree, hcnt, hlock, hidle⟩ := hheap
  refine ⟨t, Run.of_exec ht, hfree, hcnt, hlog.1, fun r hr => ?_, hpcs.1, hpcs.2,
    fun q => kfreePage_waits hlock (Option.isNone_iff_eq_none.mp hidle)⟩
  have hmem := List.mem_map_of_mem (f := fun r : Record => (r.result, r.tally.counted)) hr
  rw [hlog.2, List.mem_singleton, Prod.mk.injEq] at hmem
  refine ⟨hmem.1, fun hi => ?_⟩
  have h0 := hi.counted
  rw [hmem.2] at h0
  cases h0

end ShikiOS.Kernel.OutOfMemory
