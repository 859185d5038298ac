import ShikiOS.Lib.Recency
import ShikiOS.Fs.BcacheRun

/-!
# The history of the block cache (`fs/cache.c`)

The functions that acquire blocks once more, with a history that the code does not have: for every
`cache_acquire`, those of the commit included, the cache before and after it, and whether the
block was read from the device. The other functions are those of `Bcache`.

Results:
* `erases_init`, `erases_run`: without the history the functions are those of `Bcache`.
* `Erases.exists_ok`: every call that returns has its history.
-/

namespace ShikiOS.Fs.Bcache.Trace

open ShikiOS.Lib

/-- A `cache_acquire` that has returned. `read` says that it called `device_read`. -/
structure Acquired where
  blockNo : ℕ
  before : CacheState
  after : CacheState
  read : Bool

/-- The cache and the history, last first. -/
structure Traced where
  cache : CacheState
  acquires : List Acquired

abbrev M := EStateM Stop Traced

/-! ## The functions -/

/-- A function that does not acquire. -/
def untraced {α : Type} (x : Bcache.M α) : M α :=
  zoom Traced.cache (fun c s => { s with cache := c }) x

/-- `cache_acquire` (cache.c:142-212). -/
def cacheAcquire (b : ℕ) : M Unit := do
  let s ← get
  if b ∈ s.cache.list then
    if (s.cache.block b).acquired then throw .blocked
    else set (⟨hit s.cache b, ⟨b, s.cache, hit s.cache b, false⟩ :: s.acquires⟩ : Traced)
  else set (⟨load (evict s.cache) b, ⟨b, s.cache, load (evict s.cache) b, true⟩ :: s.acquires⟩ : Traced)

/-- The body of the loop of `init_log` (lines 236-244). -/
def replayBlock (sb : SuperBlock) (i : ℕ) : M Unit := do
  let s ← untraced get
  let b := s.header.blockNo (i - 1)
  cacheAcquire (sb.logStart + i)
  cacheAcquire b
  untraced do
    let d ← readBlock (sb.logStart + i)
    writeBlock b d
    cacheSync none b .replay
    cacheRelease (sb.logStart + i)
    cacheRelease b

/-- `init_log` (cache.c:225-252). -/
def initLog (sb : SuperBlock) : M Unit := do
  untraced (modify fun s => { s with outstanding := 0, committing := false, sem := Sem.init 0 })
  untraced (readHeader sb)
  let s ← untraced get
  forN (replayBlock sb) 1 s.header.numBlocks
  untraced do
    modify fun s => { s with header := s.header.clear }
    writeHeader sb

/-- `init_bcache` (cache.c:254-266). -/
def initBcache (sb : SuperBlock) : M Unit := do
  untraced (modify fun s => { s with list := [], cachedBlockCount := 0 })
  initLog sb

/-- The body of the first loop of `cache_end_op` (lines 351-358). -/
def logBlock (sb : SuperBlock) (i : ℕ) : M Unit := do
  let s ← untraced get
  let b := s.header.blockNo (i - 1)
  cacheAcquire (sb.logStart + i)
  cacheAcquire b
  untraced do
    let d ← readBlock b
    writeBlock (sb.logStart + i) d
    cacheSync none (sb.logStart + i) .log
    cacheRelease (sb.logStart + i)
    cacheRelease b

/-- The body of the second loop of `cache_end_op` (lines 366-370). -/
def checkpointBlock (i : ℕ) : M Unit := do
  let s ← untraced get
  let b := s.header.blockNo i
  cacheAcquire b
  untraced do
    cacheSync none b .home
    modify fun s => setBlock s b { s.block b with pinned := false }
    cacheRelease b

/-- The end of a commit (lines 372-378). -/
def finish (sb : SuperBlock) : Bcache.M Unit := do
  modify fun s => { s with header := s.header.clear }
  writeHeader sb
  modify fun s => { s with committing := false }
  let s ← get
  match s.sem.postAll with
  | none => throw (.panic .sem)
  | some (sem, _) => set { s with sem := sem }

/-- `cache_end_op` from line 347 on. -/
def commit (sb : SuperBlock) : M Unit := do
  untraced (modify fun s => { s with committing := true })
  let s ← untraced get
  forN (logBlock sb) 1 s.header.numBlocks
  untraced (writeHeader sb)
  forN checkpointBlock 0 s.header.numBlocks
  untraced (finish sb)

/-- `cache_end_op` (cache.c:330-380). -/
def cacheEndOp (sb : SuperBlock) (_ctx : ℕ) : M Unit := do
  untraced (modify fun s => { s with outstanding := s.outstanding - 1 })
  let s ← untraced get
  if s.committing then throw (.panic .committing)
  else if s.outstanding > 0 then untraced postAndWait
  else commit sb

/-- The calls of `BcacheRun`. -/
def run (sb : SuperBlock) : Call → M Unit
  | .acquire b => cacheAcquire b
  | .endOp c => cacheEndOp sb c
  | .store b d => untraced (writeBlock b d)
  | .sync ctx b => untraced (cacheSync ctx b .direct)
  | .release b => untraced (cacheRelease b)
  | .beginOp c => untraced (cacheBeginOp c)

/-- A call that returns. -/
def step (sb : SuperBlock) (s : Traced) (a : Call) : Option Traced :=
  match run sb a s with
  | .ok _ t => some t
  | .error _ _ => none

/-! ## Without the history -/

/-- `x'` does with the cache what `x` does. -/
def Erases {α : Type} (x' : M α) (x : Bcache.M α) : Prop :=
  ∀ s, wp x' (fun a t => x s.cache = .ok a t.cache) (fun e t => x s.cache = .error e t.cache) s

variable {α β : Type} {x' : M α} {x : Bcache.M α} {f' : α → M β} {f : α → Bcache.M β}
  {g' : ℕ → M Unit} {g : ℕ → Bcache.M Unit} {sb : SuperBlock}

theorem erases_untraced (x : Bcache.M α) : Erases (untraced x) x := by
  intro s
  unfold untraced
  rw [wp_zoom]
  unfold wp
  split
  · next a t hx => exact hx
  · next e t hx => exact hx

theorem Erases.bind (h : Erases x' x) (hf : ∀ a, Erases (f' a) (f a)) :
    Erases (x' >>= f') (x >>= f) := by
  intro s
  rw [wp_bind]
  refine wp_mono (h s) (fun a t ht => ?_) fun e t ht => ?_
  · have hbind : (x >>= f) s.cache = f a t.cache := by
      show EStateM.bind x f s.cache = _
      rw [EStateM.bind, ht]
    rw [hbind]
    exact hf a t
  · show EStateM.bind x f s.cache = _
    rw [EStateM.bind, ht]

theorem erases_pure (a : α) : Erases (pure a) (pure a) := fun _ => wp_pure.mpr rfl

theorem erases_throw (e : Stop) : Erases (throw e : M α) (throw e) := fun _ => wp_throw.mpr rfl

theorem erases_forN (h : ∀ i, Erases (g' i) (g i)) (a n : ℕ) : Erases (forN g' a n) (forN g a n) := by
  induction n generalizing a with
  | zero => exact erases_pure ()
  | succ n ih => exact (h a).bind fun _ => ih (a + 1)

theorem erases_acquire (b : ℕ) : Erases (cacheAcquire b) (Bcache.cacheAcquire b) := by
  intro s
  unfold cacheAcquire Bcache.cacheAcquire
  have hget : ∀ f : CacheState → Bcache.M Unit, (get >>= f) s.cache = f s.cache s.cache :=
    fun _ => rfl
  rw [wp_bind, wp_get]
  by_cases hb : b ∈ s.cache.list
  · by_cases ha : (s.cache.block b).acquired = true
    · rw [if_pos hb, if_pos ha, wp_throw, hget, if_pos hb, if_pos ha]
      rfl
    · rw [if_pos hb, if_neg ha, wp_set, hget, if_pos hb, if_neg ha]
      rfl
  · rw [if_neg hb, wp_set, hget, if_neg hb]
    rfl

theorem erases_replayBlock (i : ℕ) : Erases (replayBlock sb i) (Bcache.replayBlock sb i) :=
  (erases_untraced _).bind fun _ => (erases_acquire _).bind fun _ => (erases_acquire _).bind fun _ =>
    erases_untraced _

/-- `init_bcache` does with the cache what it does in `Bcache`. -/
theorem erases_init : Erases (initBcache sb) (Bcache.initBcache sb) :=
  (erases_untraced _).bind fun _ => (erases_untraced _).bind fun _ => (erases_untraced _).bind fun _ =>
    (erases_untraced _).bind fun _ => (erases_forN erases_replayBlock _ _).bind fun _ => erases_untraced _

theorem erases_logBlock (i : ℕ) : Erases (logBlock sb i) (Bcache.logBlock sb i) :=
  (erases_untraced _).bind fun _ => (erases_acquire _).bind fun _ => (erases_acquire _).bind fun _ =>
    erases_untraced _

theorem erases_checkpointBlock (i : ℕ) : Erases (checkpointBlock i) (Bcache.checkpointBlock i) :=
  (erases_untraced _).bind fun _ => (erases_acquire _).bind fun _ => erases_untraced _

theorem erases_commit : Erases (commit sb) (Bcache.commit sb) :=
  (erases_untraced _).bind fun _ => (erases_untraced _).bind fun _ =>
    (erases_forN erases_logBlock _ _).bind fun _ => (erases_untraced _).bind fun _ =>
      (erases_forN erases_checkpointBlock _ _).bind fun _ => erases_untraced _

theorem erases_endOp (c : ℕ) : Erases (cacheEndOp sb c) (Bcache.cacheEndOp sb c) := by
  refine (erases_untraced _).bind fun _ => (erases_untraced _).bind fun s => ?_
  dsimp only
  by_cases hc : s.committing = true
  · rw [if_pos hc, if_pos hc]
    exact fun _ => wp_throw.mpr rfl
  · rw [if_neg hc, if_neg hc]
    by_cases ho : s.outstanding > 0
    · rw [if_pos ho, if_pos ho]
      exact erases_untraced _
    · rw [if_neg ho, if_neg ho]
      exact erases_commit

/-- So do the calls of a run. -/
theorem erases_run (a : Call) : Erases (run sb a) (a.run sb) := by
  cases a with
  | acquire b => exact erases_acquire b
  | endOp c => exact erases_endOp c
  | store b d => exact erases_untraced _
  | sync ctx b => exact erases_untraced _
  | release b => exact erases_untraced _
  | beginOp c => exact erases_untraced _

/-- Every call of the cache that returns has its history. -/
theorem Erases.exists_ok (h : Erases x' x) {s : Traced} {a : α} {t : CacheState}
    (hx : x s.cache = .ok a t) : ∃ u, x' s = .ok a u ∧ u.cache = t := by
  cases hx' : x' s with
  | ok b u =>
    have hok : x s.cache = .ok b u.cache := (h s).of_ok hx'
    rw [hx] at hok
    cases hok
    exact ⟨u, rfl, rfl⟩
  | error e u =>
    have herr : x s.cache = .error e u.cache := (h s).of_error hx'
    rw [hx] at herr
    cases herr

end ShikiOS.Fs.Bcache.Trace
