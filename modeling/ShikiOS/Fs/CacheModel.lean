import ShikiOS.Lib.Run
import ShikiOS.Common.Sem
import ShikiOS.Fs.Defines

/-!
# The block cache under concurrency (`fs/cache.c`)

`cache_acquire` and `cache_release` as run by any number of processes at once. A
step is a section of the code between two operations on the cache spinlock, the
device or a sleep lock, so the spinlock is free between two steps. A block is a
cell of the heap under a pointer; a freed cell keeps its content, and `kalloc`
never hands out the same pointer twice. The data of the blocks plays no part.

* `step`: the transition function, `init`: the state that `init_bcache` leaves.
-/

namespace ShikiOS.Fs.Cache

open ShikiOS.Lib

/-- `Block` (cache.h:25-82), without the list node, the data and the test flag. -/
structure Block (P : Type*) where
  blockNo : ℕ
  acquired : Bool
  pinned : Bool
  lock : Sem P

/-- Where a process is in `cache_acquire`; the argument is the pointer `block`. -/
inductive Pc
  /-- Outside. -/
  | idle
  /-- Line 162: the block was found and marked, the sleep lock not yet taken. -/
  | lookedUp (x : ℕ)
  /-- Line 162: asleep on the sleep lock. -/
  | sleeping (x : ℕ)
  /-- Line 167: about to move the block to the front. -/
  | locked (x : ℕ)
  /-- Line 205: about to read the new block from the device. -/
  | filling (x : ℕ)
  /-- Line 206: about to put the new block into the list. -/
  | filled (x : ℕ)
deriving DecidableEq, Repr

/-- A process: its program counter, the `up` flag of its waiter, its `killed` flag,
    and the blocks that its calls of `cache_acquire` returned and that it has not
    released. -/
structure Proc where
  pc : Pc
  up : Bool
  killed : Bool
  held : Finset ℕ

/-- The state of the block cache. `list` holds the pointers from `head.next` on,
    `brk` is the next pointer of `kalloc`, and `freed` the pointers given to
    `kfree`. `failed` is a failed assertion of `sem.c`. -/
structure CacheState (P : Type*) where
  heap : ℕ → Block P
  list : List ℕ
  cachedBlockCount : ℕ
  brk : ℕ
  freed : List ℕ
  procs : P → Proc
  failed : Bool

/-- The actions of the processes. -/
inductive Act (P : Type*)
  | acquire (p : P) (b : ℕ)
  | lock (p : P)
  | wake (p : P)
  | touch (p : P)
  | read (p : P)
  | insert (p : P)
  | release (p : P) (x : ℕ)
  | pin (p : P) (x : ℕ)
  | unpin (p : P) (x : ℕ)
  | kill (p : P)
deriving DecidableEq, Repr

variable {P : Type*} [DecidableEq P]

/-- The state after `init_bcache` of a disk with an empty log (cache.c:254-266). -/
def init : CacheState P where
  heap := fun _ => ⟨0, false, false, Sem.sleeplock⟩
  list := []
  cachedBlockCount := 0
  brk := 0
  freed := []
  procs := fun _ => ⟨.idle, false, false, ∅⟩
  failed := false

namespace CacheState

/-- Change the record of one process. -/
def modify (s : CacheState P) (p : P) (f : Proc → Proc) : CacheState P :=
  { s with procs := Function.update s.procs p (f (s.procs p)) }

/-- Mark the waiters of `woken` as `up`. -/
def wake (s : CacheState P) (woken : List P) : CacheState P :=
  { s with procs := fun q => if q ∈ woken then { s.procs q with up := true } else s.procs q }

/-- Write the block under a pointer. -/
def setBlock (s : CacheState P) (x : ℕ) (k : Block P) : CacheState P :=
  { s with heap := Function.update s.heap x k }

/-- The program counter of a process. -/
abbrev pc (s : CacheState P) (p : P) : Pc := (s.procs p).pc

end CacheState

/-- The search of `cache_acquire` (lines 147-156). -/
def lookup (s : CacheState P) (b : ℕ) : Option ℕ := s.list.find? fun x => (s.heap x).blockNo = b

/-- The block that `cache_acquire` evicts (lines 175-190): from the tail on, the
    first one that is neither acquired nor pinned. -/
def victim (s : CacheState P) : Option ℕ :=
  if s.cachedBlockCount ≥ evictionThreshold then
    s.list.reverse.find? fun x => !(s.heap x).acquired && !(s.heap x).pinned
  else none

/-- Lines 175-190. -/
def evict (s : CacheState P) : CacheState P :=
  match victim s with
  | none => s
  | some x =>
    { s with
      list := s.list.erase x
      cachedBlockCount := s.cachedBlockCount - 1
      freed := x :: s.freed }

/-- Lines 191-202: a new block under the pointer `s.brk`. The caller takes the
    sleep lock at once, since nobody else knows the block. -/
def alloc (s : CacheState P) (p : P) (b : ℕ) : CacheState P :=
  { s.setBlock s.brk ⟨b, true, false, (Sem.sleeplock.down p).1⟩ with
    brk := s.brk + 1
    cachedBlockCount := s.cachedBlockCount + 1 }

/-- One step; `none` when the process is not there or still has to sleep. -/
def step (s : CacheState P) : Act P → Option (CacheState P)
  -- lines 145-161, or 145-156 and 174-204
  | .acquire p b =>
    match s.pc p with
    | .idle =>
      match lookup s b with
      | some x =>
        some ((s.setBlock x { s.heap x with acquired := true }).modify p
          fun o => { o with pc := .lookedUp x })
      | none =>
        let s := evict s
        some ((alloc s p b).modify p fun o => { o with pc := .filling s.brk })
    | _ => none
  -- line 162, up to `sched`
  | .lock p =>
    match s.pc p with
    | .lookedUp x =>
      match (s.heap x).lock.down p with
      | (lock, true) =>
        some ((s.setBlock x { s.heap x with lock := lock }).modify p
          fun o => { o with pc := .locked x })
      | (lock, false) =>
        some ((s.setBlock x { s.heap x with lock := lock }).modify p
          fun o => { o with pc := .sleeping x, up := false })
    | _ => none
  -- line 162 behind `sched`; an interrupted wait makes `cache_acquire` return NULL
  | .wake p =>
    match s.pc p with
    | .sleeping x =>
      if (s.procs p).up then some (s.modify p fun o => { o with pc := .locked x })
      else if (s.procs p).killed then
        match (s.heap x).lock.abort p with
        | none => some { s with failed := true }
        | some lock =>
          some ((s.setBlock x { s.heap x with lock := lock }).modify p
            fun o => { o with pc := .idle })
      else none
    | _ => none
  -- lines 167-171
  | .touch p =>
    match s.pc p with
    | .locked x =>
      some ({ s with list := x :: s.list.erase x }.modify p
        fun o => { o with pc := .idle, held := insert x o.held })
    | _ => none
  -- line 205
  | .read p =>
    match s.pc p with
    | .filling x => some (s.modify p fun o => { o with pc := .filled x })
    | _ => none
  -- lines 206-210
  | .insert p =>
    match s.pc p with
    | .filled x =>
      some ({ s with list := x :: s.list }.modify p
        fun o => { o with pc := .idle, held := insert x o.held })
    | _ => none
  -- lines 217-221
  | .release p x =>
    if s.pc p = .idle ∧ x ∈ (s.procs p).held then
      match (s.heap x).lock.post with
      | none => some { s with failed := true }
      | some (lock, woken) =>
        some (((s.setBlock x { s.heap x with acquired := false, lock := lock }).wake woken).modify p
          fun o => { o with held := o.held.erase x })
    else none
  -- `block->pinned = true` in `cache_sync` (line 305)
  | .pin p x =>
    if s.pc p = .idle ∧ x ∈ (s.procs p).held then
      some (s.setBlock x { s.heap x with pinned := true })
    else none
  -- `block->pinned = false` in `cache_end_op` (line 369)
  | .unpin p x =>
    if s.pc p = .idle ∧ x ∈ (s.procs p).held then
      some (s.setBlock x { s.heap x with pinned := false })
    else none
  -- the alert of `dfs_kill` (proc.c:278)
  | .kill p => some (s.modify p fun o => { o with killed := true })

/-! ## What a step can do -/

/-- The pointer that `cache_acquire` is working on. -/
def Pc.block : Pc → Option ℕ
  | .idle => none
  | .lookedUp x | .sleeping x | .locked x | .filling x | .filled x => some x

/-- The process is filling this block: it is not yet in the list. -/
def Pc.fills : Pc → Option ℕ
  | .filling x | .filled x => some x
  | _ => none

/-- The process uses the block: it looked it up, waits for it, was handed its
    lock, is filling it or holds it. -/
def Proc.Uses (o : Proc) (x : ℕ) : Prop := o.pc.block = some x ∨ x ∈ o.held

/-- The process sleeps on the lock of the block. -/
def Proc.Asleep (o : Proc) (x : ℕ) : Prop := o.pc = .sleeping x ∧ o.up = false

/-- The process is filling the block. -/
def Proc.Fills (o : Proc) (x : ℕ) : Prop := o.pc.fills = some x

/-- The process has the lock of the block, or was handed it while it slept. -/
def Proc.Owns (o : Proc) (x : ℕ) : Prop :=
  o.pc = .locked x ∨ o.Fills x ∨ (o.pc = .sleeping x ∧ o.up = true) ∨ x ∈ o.held

/-- The outcomes of a step, with the guard and the new state of each. -/
inductive Effect (s : CacheState P) : Act P → CacheState P → Prop
  | hit {p : P} {b x : ℕ} : s.pc p = .idle → lookup s b = some x →
      Effect s (.acquire p b) ((s.setBlock x { s.heap x with acquired := true }).modify p
        fun o => { o with pc := .lookedUp x })
  | miss {p : P} {b : ℕ} : s.pc p = .idle → lookup s b = none →
      Effect s (.acquire p b)
        ((alloc (evict s) p b).modify p fun o => { o with pc := .filling (evict s).brk })
  | lockUnit {p : P} {x : ℕ} {lock : Sem P} : s.pc p = .lookedUp x →
      (s.heap x).lock.down p = (lock, true) →
      Effect s (.lock p) ((s.setBlock x { s.heap x with lock := lock }).modify p
        fun o => { o with pc := .locked x })
  | lockSleeps {p : P} {x : ℕ} {lock : Sem P} : s.pc p = .lookedUp x →
      (s.heap x).lock.down p = (lock, false) →
      Effect s (.lock p) ((s.setBlock x { s.heap x with lock := lock }).modify p
        fun o => { o with pc := .sleeping x, up := false })
  | woken {p : P} {x : ℕ} : s.pc p = .sleeping x → (s.procs p).up = true →
      Effect s (.wake p) (s.modify p fun o => { o with pc := .locked x })
  | interrupted {p : P} {x : ℕ} {lock : Sem P} : s.pc p = .sleeping x →
      (s.procs p).up = false → (s.heap x).lock.abort p = some lock →
      Effect s (.wake p) ((s.setBlock x { s.heap x with lock := lock }).modify p
        fun o => { o with pc := .idle })
  | touch {p : P} {x : ℕ} : s.pc p = .locked x →
      Effect s (.touch p) ({ s with list := x :: s.list.erase x }.modify p
        fun o => { o with pc := .idle, held := insert x o.held })
  | read {p : P} {x : ℕ} : s.pc p = .filling x →
      Effect s (.read p) (s.modify p fun o => { o with pc := .filled x })
  | insert {p : P} {x : ℕ} : s.pc p = .filled x →
      Effect s (.insert p) ({ s with list := x :: s.list }.modify p
        fun o => { o with pc := .idle, held := insert x o.held })
  | release {p : P} {x : ℕ} {lock : Sem P} {w : List P} : s.pc p = .idle →
      x ∈ (s.procs p).held → (s.heap x).lock.post = some (lock, w) →
      Effect s (.release p x)
        (((s.setBlock x { s.heap x with acquired := false, lock := lock }).wake w).modify p
          fun o => { o with held := o.held.erase x })
  | pin {p : P} {x : ℕ} : s.pc p = .idle → x ∈ (s.procs p).held →
      Effect s (.pin p x) (s.setBlock x { s.heap x with pinned := true })
  | unpin {p : P} {x : ℕ} : s.pc p = .idle → x ∈ (s.procs p).held →
      Effect s (.unpin p x) (s.setBlock x { s.heap x with pinned := false })
  | kill {p : P} : Effect s (.kill p) (s.modify p fun o => { o with killed := true })

/-- Every lock is consistent and its queue holds exactly the sleepers. -/
def QueueInv (s : CacheState P) : Prop :=
  ∀ x, (s.heap x).lock.Tracks fun q => (s.procs q).Asleep x

/-- Every step has one of the outcomes; in particular no assertion of `sem.c`
    fails as long as the queues of the sleep locks are right. -/
theorem step_effect {s t : CacheState P} {a : Act P} (h : QueueInv s) (hs : step s a = some t) :
    Effect s a t := by
  cases a with
  | acquire p b =>
    simp only [step] at hs
    split at hs
    · next hpc =>
      split at hs
      · next x hx => cases hs; exact .hit hpc hx
      · next hx => cases hs; exact .miss hpc hx
    · cases hs
  | lock p =>
    simp only [step] at hs
    split at hs
    · next x hpc =>
      split at hs
      · next lock hd => cases hs; exact .lockUnit hpc hd
      · next lock hd => cases hs; exact .lockSleeps hpc hd
    · cases hs
  | wake p =>
    simp only [step] at hs
    split at hs
    · next x hpc =>
      split_ifs at hs with hu hk
      · cases hs; exact .woken hpc hu
      · have hu : (s.procs p).up = false := by simpa using hu
        obtain ⟨lock, hab, -⟩ := (h x).abort (p := p) ⟨hpc, hu⟩
        rw [hab] at hs
        cases hs
        exact .interrupted hpc hu hab
    · cases hs
  | touch p =>
    simp only [step] at hs
    split at hs
    · next x hpc => cases hs; exact .touch hpc
    · cases hs
  | read p =>
    simp only [step] at hs
    split at hs
    · next x hpc => cases hs; exact .read hpc
    · cases hs
  | insert p =>
    simp only [step] at hs
    split at hs
    · next x hpc => cases hs; exact .insert hpc
    · cases hs
  | release p x =>
    simp only [step] at hs
    split_ifs at hs with hp
    obtain ⟨lock, w, hpost, -, -⟩ := (h x).post
    rw [hpost] at hs
    cases hs
    exact .release hp.1 hp.2 hpost
  | pin p x =>
    simp only [step] at hs
    split_ifs at hs with hp
    cases hs
    exact .pin hp.1 hp.2
  | unpin p x =>
    simp only [step] at hs
    split_ifs at hs with hp
    cases hs
    exact .unpin hp.1 hp.2
  | kill p =>
    cases hs
    exact .kill

end ShikiOS.Fs.Cache
