import ShikiOS.Kernel.KallocRun

/-!
# The allocator step by step (`kernel/mem.c`)

In `Mem` a function of the allocator is one whole call. Here any number of processes call them,
and a step is what one process does up to its next operation on a lock, that operation, or a
store of a caller to memory. Every call has a tally of what it did itself: which locks it
acquired and released, what it added to `kalloc_page_cnt`, and whether it wrote anything else.
When a call returns, its tally goes to a log.

Results:
* `solo_kallocPage`, `solo_kfreePage`, `solo_kalloc`, `solo_kfree`: the steps of one call without
  others in between are the whole call of `Mem`.
* `tick_heap`: what the tally says is what the step did.
-/

namespace ShikiOS.Kernel.OutOfMemory

open ShikiOS.Lib

/-- `mem_lock` and `page_lock` (mem.c:47-48). -/
inductive Lock
  | mem
  | page
deriving DecidableEq

inductive Call
  | kallocPage
  | kfreePage (page : ℕ)
  | kalloc (size : ℕ)
  | kfree (ptr : ℕ)
deriving DecidableEq

/-- Where a process is in a call. `caller` is the allocator of the `kalloc` that called
    `kalloc_page`, if one did, and `inKfree` tells whether a `kfree` called `kfree_page`. -/
inductive Pc
  | lockKalloc (size : ℕ)
  | slab (size : ℕ)
  | count (caller : Option ℕ)
  | lockPage (caller : Option ℕ)
  | takePage (caller : Option ℕ)
  | noPage (caller : Option ℕ)
  | unlockPage (caller : Option ℕ) (page : ℕ)
  | newPage (index page : ℕ)
  | giveUp
  | lockKfree (ptr : ℕ)
  | freeBlock (ptr : ℕ)
  | lockPut (inKfree : Bool) (page : ℕ)
  | put (inKfree : Bool) (page : ℕ)
  | unlockPut (inKfree : Bool)
  | unlockMem (result : Option ℕ)
  | returned (result : Option ℕ)
deriving DecidableEq

/-- What a call did itself. `foreign` is set when it released a lock that it did not hold. -/
structure Tally where
  acquired : Lock → ℕ
  released : Lock → ℕ
  counted : ℤ
  wrote : Bool
  foreign : Bool

/-- The tally of a call that did nothing. -/
def Tally.zero : Tally := ⟨fun _ => 0, fun _ => 0, 0, false, false⟩

structure Frame where
  call : Call
  pc : Pc
  tally : Tally

/-- A call that returned. The result is `some 0` where the code returns `NULL`. -/
structure Record where
  pid : ℕ
  call : Call
  result : Option ℕ
  tally : Tally

/-- The allocator and its callers. `owner` has the process that acquired a lock last, as long as
    nobody released it. -/
structure State where
  heap : Heap
  owner : Lock → Option ℕ
  frame : ℕ → Option Frame
  log : List Record

/-! ## Steps -/

def held (h : Heap) : Lock → Bool
  | .mem => h.memLock
  | .page => h.pageLock

def setHeld (h : Heap) (b : Bool) : Lock → Heap
  | .mem => { h with memLock := b }
  | .page => { h with pageLock := b }

/-- What a step of a process reads and changes. -/
structure View where
  heap : Heap
  owner : Lock → Option ℕ
  pc : Pc
  tally : Tally

/-- The view with lock `l` taken by process `p`. -/
def View.locked (v : View) (p : ℕ) (l : Lock) (pc : Pc) : View :=
  { heap := setHeld v.heap true l
    owner := Function.update v.owner l (some p)
    pc := pc
    tally := { v.tally with
      acquired := Function.update v.tally.acquired l (v.tally.acquired l + 1) } }

/-- `acquire_spinlock`: there is a step only when the lock is free. -/
def View.acquire (v : View) (p : ℕ) (l : Lock) (pc : Pc) : Option View :=
  if held v.heap l then none else some (v.locked p l pc)

/-- `release_spinlock`: the lock is free afterwards, whoever held it. -/
def View.release (v : View) (p : ℕ) (l : Lock) (pc : Pc) : View :=
  { heap := setHeld v.heap false l
    owner := Function.update v.owner l none
    pc := pc
    tally := { v.tally with
      released := Function.update v.tally.released l (v.tally.released l + 1)
      foreign := v.tally.foreign || decide (v.owner l ≠ some p) } }

def View.goto (v : View) (pc : Pc) : View := { v with pc := pc }

/-- The process writes to lists or headers. -/
def View.store (v : View) (h : Heap) (pc : Pc) : View :=
  { v with heap := h, pc := pc, tally := { v.tally with wrote := true } }

/-- `increment_rc` and `decrement_rc` of `kalloc_page_cnt`. -/
def View.addCnt (v : View) (k : ℤ) (pc : Pc) : View :=
  { v with
    heap := { v.heap with kallocPageCnt := v.heap.kallocPageCnt + k }
    pc := pc
    tally := { v.tally with counted := v.tally.counted + k } }

/-- The first free page is taken (mem.c:114-123). -/
def takeFreePage (s : Heap) : Heap :=
  let page := s.freePages
  let s := { s with freePages := s.link page }.setPrev 0
  { s with pageCnt := Function.update s.pageCnt (pageIndex page) 0 }

/-- A page is put before the free pages (mem.c:131-136). -/
def putFreePage (s : Heap) (page : ℕ) : Heap :=
  let s := (s.setLink page s.freePages).setPrev page
  { s with freePages := page }

/-- Where `kalloc_page` returns to, with the test of `kalloc` (mem.c:215). -/
def afterPage (caller : Option ℕ) (page : ℕ) : Pc :=
  match caller with
  | none => .returned (some page)
  | some index => if page = 0 then .giveUp else .newPage index page

/-- Where `kfree_page` returns to. -/
def afterPut (inKfree : Bool) : Pc := if inKfree then .unlockMem none else .returned none

/-- A step of process `p` in a call. -/
def tick (p : ℕ) (v : View) : Option View :=
  match v.pc with
  | .lockKalloc size => v.acquire p .mem (.slab size)
  | .slab size =>
    let index := v.heap.getAllocatorIndex size
    if (v.heap.allocators index).freeList ≠ 0 then
      let (h, block) := v.heap.takeBlock index
      some (v.store h (.unlockMem (some block)))
    else some (v.goto (.count (some index)))
  | .count caller => some (v.addCnt 1 (.lockPage caller))
  | .lockPage caller => v.acquire p .page (.takePage caller)
  | .takePage caller =>
    if v.heap.freePages = 0 then some (v.goto (.noPage caller))
    else some (v.store (takeFreePage v.heap) (.unlockPage caller v.heap.freePages))
  | .noPage caller => some (v.release p .mem (afterPage caller 0))
  | .unlockPage caller page => some (v.release p .page (afterPage caller page))
  | .newPage index page =>
    let (h, block) := v.heap.initPage index page
    some (v.store h (.unlockMem (some block)))
  | .giveUp => some (v.release p .mem (.returned (some 0)))
  | .lockKfree ptr => v.acquire p .mem (.freeBlock ptr)
  | .freeBlock ptr =>
    let page := pageBase ptr
    if v.heap.blockSize page > 2040 then some (v.goto (.unlockMem none))
    else
      let index := v.heap.getAllocatorIndex (v.heap.blockSize page)
      let s := v.heap.putBlock index page ptr
      if s.blockCount page = (pageSize - sizeofHeader) / s.blockSize page then
        (Heap.unlinkLoop index page (2 ^ 64 + 1) s 0 (s.allocators index).freeList).map fun s =>
          v.store (s.setSlabs index ((s.slabs index).erase page)) (.lockPut true page)
      else some (v.store s (.unlockMem none))
  | .lockPut inKfree page => v.acquire p .page (.put inKfree page)
  | .put inKfree page =>
    some ((v.store (putFreePage v.heap page) v.pc).addCnt (-1) (.unlockPut inKfree))
  | .unlockPut inKfree => some (v.release p .page (afterPut inKfree))
  | .unlockMem result => some (v.release p .mem (.returned result))
  | .returned _ => none

/-- The first statement of a call. A `kfree` of `NULL` returns at once. -/
def entry : Call → Pc
  | .kallocPage => .count none
  | .kfreePage page => .lockPut false page
  | .kalloc size => .lockKalloc size
  | .kfree ptr => if ptr = 0 then .returned none else .lockKfree ptr

inductive Action
  | call (pid : ℕ) (c : Call)
  | tick (pid : ℕ)
  | write (addr : ℕ) (byte : UInt8)
deriving DecidableEq

def State.setFrame (s : State) (p : ℕ) (f : Option Frame) : State :=
  { s with frame := Function.update s.frame p f }

/-- The state after a step of process `p`, which is in `f`. -/
def tickFrame (s : State) (p : ℕ) (f : Frame) : Option State :=
  match f.pc with
  | .returned result =>
    some { s.setFrame p none with log := ⟨p, f.call, result, f.tally⟩ :: s.log }
  | pc => (tick p ⟨s.heap, s.owner, pc, f.tally⟩).map fun v =>
      { s.setFrame p (some ⟨f.call, v.pc, v.tally⟩) with heap := v.heap, owner := v.owner }

def step (s : State) : Action → Option State
  | .call p c =>
    match s.frame p with
    | none => some (s.setFrame p (some ⟨c, entry c, Tally.zero⟩))
    | some _ => none
  | .tick p => (s.frame p).bind (tickFrame s p)
  | .write a b => some { s with heap := { s.heap with mem := Function.update s.heap.mem a b } }

/-- Nobody is in a call and the locks are free. -/
structure Start (s : State) : Prop where
  idle : ∀ p, s.frame p = none
  owner : s.owner = fun _ => none
  free : ∀ l, held s.heap l = false
  log : s.log = []

/-! ## One call without others in between -/

section Solo

variable {p n : ℕ} {v w : View} {u : Heap} {q : ℕ}

/-- `n` steps of process `p` in a call. -/
def ticks (p : ℕ) : ℕ → View → Option View
  | 0, v => some v
  | n + 1, v => (tick p v).bind (ticks p n)

theorem ticks_add {m : ℕ} (h : ticks p n v = some w) :
    ticks p (n + m) v = ticks p m w := by
  induction n generalizing v with
  | zero =>
    cases h
    rw [Nat.zero_add]
  | succ n ih =>
    rw [ticks] at h
    obtain ⟨x, hx, hxw⟩ := Option.bind_eq_some_iff.mp h
    rw [Nat.add_right_comm, ticks, hx]
    exact ih hxw

theorem ticks_succ {x : View} (h : tick p v = some x) : ticks p (n + 1) v = ticks p n x := by
  rw [ticks, h]
  rfl

theorem acquire_free {l : Lock} {pc : Pc} (h : held v.heap l = false) :
    v.acquire p l pc = some (v.locked p l pc) := by
  rw [View.acquire, h]
  rfl

theorem tick_slab_list {size : ℕ} (hpc : v.pc = .slab size)
    (h : (v.heap.allocators (v.heap.getAllocatorIndex size)).freeList ≠ 0) :
    tick p v = some (v.store (v.heap.takeBlock (v.heap.getAllocatorIndex size)).1
      (.unlockMem (some (v.heap.takeBlock (v.heap.getAllocatorIndex size)).2))) := by
  simp only [tick, hpc]
  exact if_pos h

theorem tick_slab_nil {size : ℕ} (hpc : v.pc = .slab size)
    (h : (v.heap.allocators (v.heap.getAllocatorIndex size)).freeList = 0) :
    tick p v = some (v.goto (.count (some (v.heap.getAllocatorIndex size)))) := by
  simp only [tick, hpc]
  exact if_neg (not_not.mpr h)

theorem tick_takePage_nil {caller : Option ℕ} (hpc : v.pc = .takePage caller)
    (h : v.heap.freePages = 0) : tick p v = some (v.goto (.noPage caller)) := by
  simp only [tick, hpc]
  exact if_pos h

theorem tick_takePage_list {caller : Option ℕ} (hpc : v.pc = .takePage caller)
    (h : v.heap.freePages ≠ 0) : tick p v =
      some (v.store (takeFreePage v.heap) (.unlockPage caller v.heap.freePages)) := by
  simp only [tick, hpc]
  exact if_neg h

theorem tick_freeBlock {ptr : ℕ} (hpc : v.pc = .freeBlock ptr) : tick p v =
    let page := pageBase ptr
    if v.heap.blockSize page > 2040 then some (v.goto (.unlockMem none)) else
    let index := v.heap.getAllocatorIndex (v.heap.blockSize page)
    let s := v.heap.putBlock index page ptr
    if s.blockCount page = (pageSize - sizeofHeader) / s.blockSize page then
      (Heap.unlinkLoop index page (2 ^ 64 + 1) s 0 (s.allocators index).freeList).map fun s =>
        v.store (s.setSlabs index ((s.slabs index).erase page)) (.lockPut true page)
    else some (v.store s (.unlockMem none)) := by
  simp only [tick, hpc]

/-- The last step of a call that holds the lock of the allocators. -/
theorem ticks_unlockMem {r : Option ℕ} (hpc : v.pc = .unlockMem r) :
    ∃ w, ticks p 1 v = some w ∧ w.heap = setHeld v.heap false .mem ∧ w.pc = .returned r := by
  have h : tick p v = some (v.release p .mem (.returned r)) := by simp only [tick, hpc]
  rw [ticks_succ h]
  exact ⟨_, rfl, rfl, rfl⟩

theorem kallocPage_eq (s : Heap) : s.kallocPage =
    if s.pageLock then none else
      let s := { s with kallocPageCnt := s.kallocPageCnt + 1, pageLock := true }
      if s.freePages = 0 then some (s.releaseMem, 0)
      else some ((takeFreePage s).releasePage, s.freePages) := by
  cases hl : s.pageLock with
  | true => simp [Heap.kallocPage, Heap.acquirePage, hl]
  | false =>
    simp only [Heap.kallocPage, Heap.acquirePage, hl, Bool.false_eq_true, if_false,
      Option.bind_eq_bind, Option.bind_some]
    rfl

/-- The steps of `kalloc_page` are the whole call. -/
theorem solo_kallocPage {caller : Option ℕ} (hpc : v.pc = .count caller)
    (h : v.heap.kallocPage = some (u, q)) :
    ∃ w, ticks p 4 v = some w ∧ w.heap = u ∧ w.pc = afterPage caller q := by
  obtain ⟨x, o, pc, tally⟩ := v
  obtain rfl : pc = _ := hpc
  rw [kallocPage_eq] at h
  split_ifs at h with hl
  have hfree : held x .page = false := by simpa [held] using hl
  have h1 : ticks p 4 ⟨x, o, .count caller, tally⟩ = ticks p 2
      (View.locked (View.addCnt ⟨x, o, .count caller, tally⟩ 1 (.lockPage caller)) p .page
        (.takePage caller)) := by
    rw [ticks_succ rfl, ticks_succ (x := View.locked _ p .page (.takePage caller))]
    exact acquire_free hfree
  rw [h1]
  by_cases h0 : x.freePages = 0
  · obtain ⟨h2, rfl⟩ := Prod.mk.inj (Option.some.inj ((if_pos h0).symm.trans h))
    rw [ticks_succ (tick_takePage_nil rfl h0), ticks_succ rfl]
    exact ⟨_, rfl, h2, rfl⟩
  · obtain ⟨h2, h3⟩ := Prod.mk.inj (Option.some.inj ((if_neg h0).symm.trans h))
    rw [ticks_succ (tick_takePage_list rfl h0), ticks_succ rfl]
    exact ⟨_, rfl, h2, by rw [← h3]; rfl⟩

/-- The steps of `kfree_page` are the whole call. -/
theorem solo_kfreePage {inKfree : Bool} (hpc : v.pc = .lockPut inKfree q)
    (h : v.heap.kfreePage q = some u) :
    ∃ w, ticks p 3 v = some w ∧ w.heap = u ∧ w.pc = afterPut inKfree := by
  obtain ⟨x, o, pc, tally⟩ := v
  obtain rfl : pc = _ := hpc
  cases hl : x.pageLock with
  | true => simp [Heap.kfreePage, Heap.acquirePage, hl] at h
  | false =>
    simp only [Heap.kfreePage, Heap.acquirePage, hl, Bool.false_eq_true, if_false,
      Option.bind_eq_bind, Option.bind_some] at h
    have h1 : tick p ⟨x, o, .lockPut inKfree q, tally⟩ = some (View.locked _ p .page _) :=
      acquire_free hl
    rw [ticks_succ h1, ticks_succ rfl, ticks_succ rfl]
    exact ⟨_, rfl, Option.some.inj h, rfl⟩

theorem kalloc_eq (s : Heap) (size : ℕ) : s.kalloc size =
    if s.memLock then none else
      let s := setHeld s true .mem
      let index := s.getAllocatorIndex size
      if (s.allocators index).freeList ≠ 0 then
        some (setHeld (s.takeBlock index).1 false .mem, (s.takeBlock index).2)
      else
        s.kallocPage.bind fun (s, page) =>
          if page = 0 then some (setHeld s false .mem, 0)
          else some (setHeld (s.initPage index page).1 false .mem, (s.initPage index page).2) := by
  cases hl : s.memLock with
  | true => simp [Heap.kalloc, Heap.acquireMem, hl]
  | false =>
    have hacq : s.acquireMem = some (setHeld s true .mem) := by
      rw [Heap.acquireMem, hl]
      rfl
    simp only [Heap.kalloc, hacq, Bool.false_eq_true, if_false, Option.bind_eq_bind,
      Option.bind_some]
    generalize setHeld s true .mem = w
    generalize w.getAllocatorIndex size = index
    rfl

/-- The steps of `kalloc` are the whole call. -/
theorem solo_kalloc {size : ℕ} (hpc : v.pc = .lockKalloc size)
    (h : v.heap.kalloc size = some (u, q)) :
    ∃ n w, ticks p n v = some w ∧ w.heap = u ∧ w.pc = .returned (some q) := by
  rw [kalloc_eq] at h
  split_ifs at h with hl
  have h1 : tick p v = some (v.locked p .mem (.slab size)) := by
    simp only [tick, hpc]
    exact acquire_free (by simpa [held] using hl)
  generalize hw : v.locked p .mem (.slab size) = w at h1
  have hwh : setHeld v.heap true .mem = w.heap := by rw [← hw]; rfl
  have hwpc : w.pc = .slab size := by rw [← hw]; rfl
  rw [hwh] at h
  by_cases hlist : (w.heap.allocators (w.heap.getAllocatorIndex size)).freeList ≠ 0
  · have h2 := tick_slab_list (p := p) hwpc hlist
    simp only [if_pos hlist] at h
    obtain ⟨h3, h4⟩ := Prod.mk.inj (Option.some.inj h)
    rw [h4] at h2
    generalize (w.heap.takeBlock (w.heap.getAllocatorIndex size)).1 = y at h2 h3
    obtain ⟨x, h5, h6, h7⟩ := ticks_unlockMem (p := p) (v := w.store y (.unlockMem (some q))) rfl
    refine ⟨3, x, ?_, h6.trans h3, h7⟩
    rw [ticks_succ h1, ticks_succ h2, h5]
  · have h2 := tick_slab_nil (p := p) hwpc (not_not.mp hlist)
    simp only [if_neg hlist] at h
    obtain ⟨⟨y, page⟩, hy, hrest⟩ := Option.bind_eq_some_iff.mp h
    obtain ⟨x, h3, h4, h5⟩ := solo_kallocPage (p := p) 
      (v := w.goto (.count (some (w.heap.getAllocatorIndex size)))) rfl hy
    have h6 : ticks p 6 v = some x := by
      rw [ticks_succ h1, ticks_succ h2]
      exact h3
    simp only at hrest
    split_ifs at hrest with hpage
    · obtain ⟨h7, h8⟩ := Prod.mk.inj (Option.some.inj hrest)
      have hgive : tick p x = some (x.release p .mem (.returned (some 0))) := by
        simp only [tick, h5, hpage, afterPage, if_true]
      refine ⟨6 + 1, x.release p .mem (.returned (some 0)), ?_, ?_, by rw [← h8]; rfl⟩
      · rw [ticks_add h6, ticks_succ hgive]
        rfl
      · rw [← h7, ← h4]
        rfl
    · obtain ⟨h7, h8⟩ := Prod.mk.inj (Option.some.inj hrest)
      have hnew : tick p x = some (x.store (y.initPage (w.heap.getAllocatorIndex size) page).1
          (.unlockMem (some q))) := by
        simp only [tick, h5, afterPage, if_neg hpage]
        rw [h4, ← h8]
      generalize (y.initPage (w.heap.getAllocatorIndex size) page).1 = y' at h7 hnew
      obtain ⟨z, h9, h10, h11⟩ := ticks_unlockMem (p := p)
        (v := x.store y' (.unlockMem (some q))) rfl
      refine ⟨6 + 2, z, ?_, h10.trans h7, h11⟩
      rw [ticks_add h6, ticks_succ hnew, h9]

theorem kfree_eq (s : Heap) {ptr : ℕ} (h0 : ptr ≠ 0) : s.kfree ptr =
    if s.memLock then none else
      let s := setHeld s true .mem
      let page := pageBase ptr
      if s.blockSize page > 2040 then some (setHeld s false .mem) else
      let index := s.getAllocatorIndex (s.blockSize page)
      let s := s.putBlock index page ptr
      if s.blockCount page = (pageSize - sizeofHeader) / s.blockSize page then
        (Heap.unlinkLoop index page (2 ^ 64 + 1) s 0 (s.allocators index).freeList).bind fun s =>
          ((s.setSlabs index ((s.slabs index).erase page)).kfreePage page).map fun s =>
            setHeld s false .mem
      else some (setHeld s false .mem) := by
  cases hl : s.memLock with
  | true => simp [Heap.kfree, Heap.acquireMem, hl, h0]
  | false =>
    have hacq : s.acquireMem = some (setHeld s true .mem) := by
      rw [Heap.acquireMem, hl]
      rfl
    simp only [Heap.kfree, h0, hacq, Bool.false_eq_true, if_false, Option.bind_eq_bind,
      Option.bind_some]
    generalize setHeld s true .mem = w
    generalize w.getAllocatorIndex (w.blockSize (pageBase ptr)) = index
    generalize w.putBlock index (pageBase ptr) ptr = y
    split_ifs
    · rfl
    · congr 1
      funext z
      cases (z.setSlabs index ((z.slabs index).erase (pageBase ptr))).kfreePage (pageBase ptr)
      · rfl
      · rfl
    · rfl

/-- The steps of `kfree` are the whole call. -/
theorem solo_kfree {ptr : ℕ} (h0 : ptr ≠ 0) (hpc : v.pc = .lockKfree ptr)
    (h : v.heap.kfree ptr = some u) :
    ∃ n w, ticks p n v = some w ∧ w.heap = u ∧ w.pc = .returned none := by
  rw [kfree_eq _ h0] at h
  split_ifs at h with hl
  have h1 : tick p v = some (v.locked p .mem (.freeBlock ptr)) := by
    simp only [tick, hpc]
    exact acquire_free (by simpa [held] using hl)
  generalize hw : v.locked p .mem (.freeBlock ptr) = w at h1
  have hwh : setHeld v.heap true .mem = w.heap := by rw [← hw]; rfl
  have hwpc : w.pc = .freeBlock ptr := by rw [← hw]; rfl
  simp only [hwh] at h
  have h2 := tick_freeBlock (p := p) hwpc
  dsimp only at h2
  by_cases hbig : w.heap.blockSize (pageBase ptr) > 2040
  · rw [if_pos hbig] at h h2
    obtain ⟨x, h3, h4, h5⟩ := ticks_unlockMem (p := p) (v := w.goto (.unlockMem none)) rfl
    refine ⟨3, x, ?_, h4.trans (Option.some.inj h), h5⟩
    rw [ticks_succ h1, ticks_succ h2, h3]
  · rw [if_neg hbig] at h h2
    generalize w.heap.getAllocatorIndex (w.heap.blockSize (pageBase ptr)) = index at h h2
    generalize w.heap.putBlock index (pageBase ptr) ptr = y at h h2
    by_cases hfull : y.blockCount (pageBase ptr) =
        (pageSize - sizeofHeader) / y.blockSize (pageBase ptr)
    · rw [if_pos hfull] at h h2
      obtain ⟨z, hz, hrest⟩ := Option.bind_eq_some_iff.mp h
      obtain ⟨u', hu', hu⟩ := Option.map_eq_some_iff.mp hrest
      rw [hz, Option.map_some] at h2
      generalize z.setSlabs index ((z.slabs index).erase (pageBase ptr)) = z' at h2 hu'
      obtain ⟨x, h3, h4, h5⟩ := solo_kfreePage (p := p)
        (v := w.store z' (.lockPut true (pageBase ptr))) rfl hu'
      obtain ⟨x', h6, h7, h8⟩ := ticks_unlockMem (p := p) h5
      refine ⟨5 + 1, x', ?_, ?_, h8⟩
      · rw [ticks_add (w := x), h6]
        rw [ticks_succ h1, ticks_succ h2, h3]
      · rw [h7, h4, hu]
    · rw [if_neg hfull] at h h2
      obtain ⟨x, h3, h4, h5⟩ := ticks_unlockMem (p := p) (v := w.store y (.unlockMem none)) rfl
      refine ⟨3, x, ?_, h4.trans (Option.some.inj h), h5⟩
      rw [ticks_succ h1, ticks_succ h2, h3]

end Solo

/-! ## What a step changes -/

/-- The locks and the counter of pages stay as they are. -/
structure Quiet (s t : Heap) : Prop where
  held : held t = held s
  count : t.kallocPageCnt = s.kallocPageCnt

theorem Quiet.trans {s t u : Heap} (h : Quiet s t) (h' : Quiet t u) : Quiet s u :=
  ⟨h'.held.trans h.held, h'.count.trans h.count⟩

theorem quiet_of_eq {s t : Heap} (h1 : t.memLock = s.memLock) (h2 : t.pageLock = s.pageLock)
    (h3 : t.kallocPageCnt = s.kallocPageCnt) : Quiet s t := by
  refine ⟨?_, h3⟩
  funext l
  cases l with
  | mem => exact h1
  | page => exact h2

theorem setPrev_eq (s : Heap) (a : ℕ) : ∃ m, s.setPrev a = { s with mem := m } := by
  unfold Heap.setPrev
  split_ifs
  · exact ⟨_, rfl⟩
  · exact ⟨s.mem, rfl⟩

theorem quiet_takeBlock (s : Heap) (i : ℕ) : Quiet s (s.takeBlock i).1 := by
  unfold Heap.takeBlock
  dsimp only
  split_ifs <;> exact quiet_of_eq rfl rfl rfl

theorem quiet_initPage (s : Heap) (i a : ℕ) : Quiet s (s.initPage i a).1 :=
  quiet_of_eq rfl rfl rfl

theorem quiet_putBlock (s : Heap) (i a b : ℕ) : Quiet s (s.putBlock i a b) := by
  unfold Heap.putBlock
  dsimp only
  split_ifs <;> exact quiet_of_eq rfl rfl rfl

theorem quiet_unlinkLoop {i a n prev cur : ℕ} {s t : Heap}
    (h : Heap.unlinkLoop i a n s prev cur = some t) : Quiet s t := by
  induction n generalizing s prev cur with
  | zero => cases h
  | succ n ih =>
    rw [Heap.unlinkLoop] at h
    dsimp only at h
    split_ifs at h with h1 h2 h3
    · cases h
      exact ⟨rfl, rfl⟩
    · refine Quiet.trans ?_ (ih h)
      exact quiet_of_eq rfl rfl rfl
    · refine Quiet.trans ?_ (ih h)
      exact quiet_of_eq rfl rfl rfl
    · exact ih h

theorem quiet_takeFreePage (s : Heap) : Quiet s (takeFreePage s) := by
  obtain ⟨m, hm⟩ := setPrev_eq { s with freePages := s.link s.freePages } 0
  unfold takeFreePage
  simp only [hm]
  exact quiet_of_eq rfl rfl rfl

theorem quiet_putFreePage (s : Heap) (a : ℕ) : Quiet s (putFreePage s a) := by
  obtain ⟨m, hm⟩ := setPrev_eq (s.setLink a s.freePages) a
  unfold putFreePage
  simp only [hm]
  exact quiet_of_eq rfl rfl rfl

/-- The lists, the headers and the counters of pages are the same. -/
def SameLists (s t : Heap) : Prop :=
  t.mem = s.mem ∧ t.allocators = s.allocators ∧ t.freePages = s.freePages ∧ t.pageCnt = s.pageCnt

/-- What the tally says that a step did is what the step did. -/
structure Tallied (v w : View) : Prop where
  count : w.heap.kallocPageCnt - v.heap.kallocPageCnt = w.tally.counted - v.tally.counted
  lists : w.tally.wrote = true ∨ (SameLists v.heap w.heap ∧ w.tally.wrote = v.tally.wrote)

variable {p : ℕ} {v w : View} {l : Lock} {pc : Pc}

theorem tallied_setHeld {b : Bool} (hheap : w.heap = setHeld v.heap b l)
    (hcnt : w.tally.counted = v.tally.counted) (hwr : w.tally.wrote = v.tally.wrote) :
    Tallied v w := by
  refine ⟨?_, .inr ⟨?_, hwr⟩⟩
  · rw [hheap, hcnt, sub_self]
    cases l <;> exact sub_self _
  · rw [hheap]
    cases l <;> exact ⟨rfl, rfl, rfl, rfl⟩

theorem View.acquire_eq_some (h : v.acquire p l pc = some w) :
    held v.heap l = false ∧ w = v.locked p l pc := by
  unfold View.acquire at h
  split_ifs at h with hl
  exact ⟨Bool.eq_false_iff.mpr hl, (Option.some.inj h).symm⟩

theorem tallied_acquire (h : v.acquire p l pc = some w) : Tallied v w := by
  obtain ⟨-, rfl⟩ := View.acquire_eq_some h
  exact tallied_setHeld rfl rfl rfl

theorem tallied_release : Tallied v (v.release p l pc) := tallied_setHeld rfl rfl rfl

theorem tallied_goto : Tallied v (v.goto pc) :=
  ⟨(sub_self _).trans (sub_self _).symm, .inr ⟨⟨rfl, rfl, rfl, rfl⟩, rfl⟩⟩

theorem tallied_store {h : Heap} (hq : Quiet v.heap h) : Tallied v (v.store h pc) := by
  refine ⟨?_, .inl rfl⟩
  show h.kallocPageCnt - v.heap.kallocPageCnt = v.tally.counted - v.tally.counted
  rw [hq.count, sub_self, sub_self]

theorem tallied_addCnt {k : ℤ} : Tallied v (v.addCnt k pc) := by
  refine ⟨?_, .inr ⟨⟨rfl, rfl, rfl, rfl⟩, rfl⟩⟩
  show v.heap.kallocPageCnt + k - v.heap.kallocPageCnt = v.tally.counted + k - v.tally.counted
  omega

/-- The tally of a call tells what its steps did to `kalloc_page_cnt` and whether they wrote. -/
theorem tick_heap (h : tick p v = some w) : Tallied v w := by
  cases hpc : v.pc with
  | lockKalloc _ | lockKfree _ | lockPage _ | lockPut _ _ =>
    simp only [tick, hpc] at h
    exact tallied_acquire h
  | noPage _ | unlockPage _ _ | giveUp | unlockPut _ | unlockMem _ =>
    simp only [tick, hpc] at h
    obtain rfl := Option.some.inj h
    exact tallied_release
  | slab size =>
    by_cases hlist : (v.heap.allocators (v.heap.getAllocatorIndex size)).freeList ≠ 0
    · rw [tick_slab_list hpc hlist] at h
      obtain rfl := Option.some.inj h
      exact tallied_store (quiet_takeBlock _ _)
    · rw [tick_slab_nil hpc (not_not.mp hlist)] at h
      obtain rfl := Option.some.inj h
      exact tallied_goto
  | count k =>
    simp only [tick, hpc] at h
    obtain rfl := Option.some.inj h
    exact tallied_addCnt
  | takePage k =>
    by_cases h0 : v.heap.freePages = 0
    · rw [tick_takePage_nil hpc h0] at h
      obtain rfl := Option.some.inj h
      exact tallied_goto
    · rw [tick_takePage_list hpc h0] at h
      obtain rfl := Option.some.inj h
      exact tallied_store (quiet_takeFreePage _)
  | newPage i page =>
    simp only [tick, hpc] at h
    obtain rfl := Option.some.inj h
    exact tallied_store (quiet_initPage _ _ _)
  | freeBlock ptr =>
    rw [tick_freeBlock hpc] at h
    dsimp only at h
    split_ifs at h with hbig hfull
    · obtain rfl := Option.some.inj h
      exact tallied_goto
    · obtain ⟨x, hx, rfl⟩ := Option.map_eq_some_iff.mp h
      refine tallied_store (((quiet_putBlock _ _ _ _).trans (quiet_unlinkLoop hx)).trans ?_)
      exact quiet_of_eq rfl rfl rfl
    · obtain rfl := Option.some.inj h
      exact tallied_store (quiet_putBlock _ _ _ _)
  | put k page =>
    simp only [tick, hpc] at h
    obtain rfl := Option.some.inj h
    have hcnt := (quiet_putFreePage v.heap page).count
    refine ⟨?_, .inl rfl⟩
    show (putFreePage v.heap page).kallocPageCnt + -1 - v.heap.kallocPageCnt =
      v.tally.counted + -1 - v.tally.counted
    omega
  | returned r => simp [tick, hpc] at h

end ShikiOS.Kernel.OutOfMemory
