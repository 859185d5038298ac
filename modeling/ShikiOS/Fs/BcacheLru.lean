import ShikiOS.Fs.BcacheTrace

/-!
# Which blocks are cached (`fs/cache.c`, lines 142-212 and 330-380)

The list of the cached blocks is in order of last acquisition, and a miss drops the block that was
not acquired for the longest time among those that are neither acquired nor pinned. `History` says
so of a whole history, where the acquires of the commits count.

Results:
* `History.recent`: the list is in order of last acquisition.
* `cache_list`: what holds at every point between calls, for every sequence of calls.
-/

namespace ShikiOS.Fs.Bcache.Trace

open ShikiOS.Lib

/-! ## Histories -/

/-- A block that is neither acquired nor pinned. -/
def Free (s : CacheState) (b : ℕ) : Prop := (s.block b).acquired = false ∧ (s.block b).pinned = false

instance (s : CacheState) (b : ℕ) : Decidable (Free s b) := inferInstanceAs (Decidable (_ ∧ _))

/-- How many cached blocks are acquired or pinned. -/
def busy (s : CacheState) : ℕ := (s.list.filter fun b => decide (¬ Free s b)).length

/-- An acquire of a cached block moves it to the front. Any other one reads the block from the device
    and drops at most one block: of the free ones that with the oldest acquisition in `h`. -/
structure Lru (h : List ℕ) (x : Acquired) : Prop where
  hit : x.blockNo ∈ x.before.list →
    x.read = false ∧ x.after.list = x.blockNo :: x.before.list.erase x.blockNo
  miss : x.blockNo ∉ x.before.list → x.read = true ∧
    (x.after.list = x.blockNo :: x.before.list ∨
      ∃ e ∈ x.before.list, Free x.before e ∧
        (∀ c ∈ x.before.list, Free x.before c → h.idxOf c ≤ h.idxOf e) ∧
        x.after.list = x.blockNo :: x.before.list.erase e)

/-- The acquires, last first, and the list of the cached blocks behind them. Nothing but acquires
    changes the list. -/
inductive History : List Acquired → List ℕ → Prop
  | nil : History [] []
  | cons {h : List Acquired} {x : Acquired} : History h x.before.list →
      Lru (h.map Acquired.blockNo) x → History (x :: h) x.after.list

/-- The largest number of blocks that were acquired or pinned at a miss. -/
def mostBusy (h : List Acquired) : ℕ :=
  ((h.filter fun x => decide (x.blockNo ∉ x.before.list)).map fun x => busy x.before).foldr max 0

variable {h : List Acquired} {l : List ℕ} {x : Acquired} {s t : CacheState} {b : ℕ}

/-- The list is in order of last acquisition. -/
theorem History.recent (hh : History h l) : Recent (h.map Acquired.blockNo) l := by
  induction hh with
  | nil => exact Recent.nil
  | @cons h x _ hx ih =>
    rw [List.map_cons]
    by_cases hb : x.blockNo ∈ x.before.list
    · rw [(hx.hit hb).2]
      exact ih.touch
    · obtain ⟨-, hlist | ⟨e, -, -, -, hlist⟩⟩ := hx.miss hb
      · rw [hlist]
        exact ih.cons hb
      · rw [hlist]
        exact (ih.sublist List.erase_sublist).cons fun hm => hb (List.mem_of_mem_erase hm)

theorem mostBusy_cons : mostBusy (x :: h) =
    if x.blockNo ∈ x.before.list then mostBusy h else max (busy x.before) (mostBusy h) := by
  unfold mostBusy
  by_cases hb : x.blockNo ∈ x.before.list <;> simp [hb]

/-! ## One acquire -/

/-- What `evict` does. -/
theorem evict_cases (s : CacheState) : evict s = s ∧ s.cachedBlockCount < evictionThreshold ∨
    evict s = s ∧ busy s = s.list.length ∨
    ∃ e, s.list.reverse.find? (fun b => decide (Free s b)) = some e ∧
      evict s = { s with list := s.list.erase e, cachedBlockCount := s.cachedBlockCount - 1 } := by
  have hfree : (fun b => !(s.block b).acquired && !(s.block b).pinned) = fun b => decide (Free s b) := by
    funext b
    rw [Bool.eq_iff_iff, decide_eq_true_iff, Free]
    simp
  unfold evict
  rw [hfree]
  by_cases hn : s.cachedBlockCount ≥ evictionThreshold
  · rw [if_pos hn]
    cases hf : s.list.reverse.find? fun b => decide (Free s b) with
    | none =>
      refine .inr (.inl ⟨rfl, ?_⟩)
      have hnone := List.find?_eq_none.mp hf
      rw [busy, List.filter_eq_self.mpr fun b hb => ?_]
      simpa using hnone b (List.mem_reverse.mpr hb)
    | some e => exact .inr (.inr ⟨e, rfl, rfl⟩)
  · rw [if_neg hn]
    exact .inl ⟨rfl, not_le.mp hn⟩

/-- What holds between calls. -/
structure Inv (s : Traced) : Prop where
  history : History s.acquires s.cache.list
  count : s.cache.cachedBlockCount = s.cache.list.length
  bound : s.cache.cachedBlockCount ≤ max evictionThreshold (1 + mostBusy s.acquires)

variable {v w : Traced} {sb : SuperBlock}

theorem Inv.acquireHit (hi : Inv w) (hb : b ∈ w.cache.list) :
    Inv ⟨hit w.cache b, ⟨b, w.cache, hit w.cache b, false⟩ :: w.acquires⟩ := by
  refine ⟨.cons hi.history ⟨fun _ => ⟨rfl, rfl⟩, fun hm => absurd hb hm⟩, ?_, ?_⟩
  · have hlen := List.length_erase_of_mem hb
    have hpos := List.length_pos_of_mem hb
    have hcount := hi.count
    show w.cache.cachedBlockCount = (b :: w.cache.list.erase b).length
    rw [List.length_cons]
    omega
  · rw [mostBusy_cons, if_pos hb]
    exact hi.bound

theorem Inv.acquireMiss (hi : Inv w) (hb : b ∉ w.cache.list) :
    Inv ⟨load (evict w.cache) b, ⟨b, w.cache, load (evict w.cache) b, true⟩ :: w.acquires⟩ := by
  have hcount := hi.count
  have hbound := hi.bound
  have hbusy := mostBusy_cons (x := ⟨b, w.cache, load (evict w.cache) b, true⟩) (h := w.acquires)
  rw [if_neg hb] at hbusy
  rcases evict_cases w.cache with ⟨he, hlt⟩ | ⟨he, hall⟩ | ⟨e, hf, he⟩
  · rw [he] at hbusy ⊢
    refine ⟨.cons hi.history ⟨fun hm => absurd hm hb, fun _ => ⟨rfl, .inl rfl⟩⟩, ?_, ?_⟩
    · show w.cache.cachedBlockCount + 1 = (b :: w.cache.list).length
      rw [List.length_cons, hcount]
    · exact le_max_of_le_left hlt
  · rw [he] at hbusy ⊢
    refine ⟨.cons hi.history ⟨fun hm => absurd hm hb, fun _ => ⟨rfl, .inl rfl⟩⟩, ?_, ?_⟩
    · show w.cache.cachedBlockCount + 1 = (b :: w.cache.list).length
      rw [List.length_cons, hcount]
    · show w.cache.cachedBlockCount + 1 ≤ _
      rw [hbusy]
      dsimp only
      omega
  · obtain ⟨hm, hfree, hold⟩ := hi.history.recent.find_reverse hf
    have hlen := List.length_erase_of_mem hm
    have hpos := List.length_pos_of_mem hm
    rw [he] at hbusy ⊢
    refine ⟨.cons hi.history ⟨fun hm => absurd hm hb, fun _ => ⟨rfl, .inr ⟨e, hm, ?_, fun c hc hcf => ?_,
      rfl⟩⟩⟩, ?_, ?_⟩
    · exact of_decide_eq_true hfree
    · exact hold c hc (decide_eq_true hcf)
    · show w.cache.cachedBlockCount - 1 + 1 = (b :: w.cache.list.erase e).length
      rw [List.length_cons]
      omega
    · show w.cache.cachedBlockCount - 1 + 1 ≤ _
      rw [hbusy]
      dsimp only
      omega

theorem Inv.acquire (hi : Inv w) : wlp (cacheAcquire b) (fun _ u => Inv u) w := by
  unfold cacheAcquire
  rw [wlp, wp_bind, wp_get]
  refine wp.ite (fun hb => wp.ite (fun _ => wp_throw.mpr trivial) fun _ => ?_) fun hb => ?_
  · exact wp_set.mpr (hi.acquireHit hb)
  · exact wp_set.mpr (hi.acquireMiss hb)

/-! ## The other functions -/

/-- A function that does not change which blocks are cached. -/
def KeepsList {α : Type} (x : Bcache.M α) : Prop :=
  ∀ s, wlp x (fun _ t => t.list = s.list ∧ t.cachedBlockCount = s.cachedBlockCount) s

variable {α β : Type} {y : Bcache.M α} {f : α → Bcache.M β}

theorem KeepsList.bind (hy : KeepsList y) (hf : ∀ a, KeepsList (f a)) : KeepsList (y >>= f) := by
  intro s
  rw [wlp, wp_bind]
  refine wp.imp (hy s) fun a t ht => wp.imp (hf a t) fun _ u hu => ?_
  exact ⟨hu.1.trans ht.1, hu.2.trans ht.2⟩

theorem keepsList_pure (a : α) : KeepsList (pure a) := fun _ => wp_pure.mpr ⟨rfl, rfl⟩

theorem keepsList_throw (e : Stop) : KeepsList (throw e : Bcache.M α) := fun _ => wp_throw.mpr trivial

theorem keepsList_get : KeepsList (get : Bcache.M CacheState) := fun _ => wp_get.mpr ⟨rfl, rfl⟩

theorem keepsList_modify {g : CacheState → CacheState}
    (hg : ∀ s, (g s).list = s.list ∧ (g s).cachedBlockCount = s.cachedBlockCount) :
    KeepsList (modify g) := fun s => wp_modify.mpr (hg s)

theorem keepsList_sync (ctx : Option ℕ) (b : ℕ) (o : Origin) : KeepsList (cacheSync ctx b o) := by
  intro s
  cases ctx with
  | none => exact wp_cacheSync_none.mpr ⟨rfl, rfl⟩
  | some c =>
    rw [wlp, wp_cacheSync_some]
    split
    · trivial
    · exact ⟨rfl, rfl⟩

theorem keepsList_release (b : ℕ) : KeepsList (cacheRelease b) :=
  keepsList_modify (by exact fun _ => ⟨rfl, rfl⟩)

theorem keepsList_read (b : ℕ) : KeepsList (readBlock b) :=
  keepsList_get.bind fun _ => keepsList_pure _

theorem keepsList_write (b : ℕ) (d : BlockData) : KeepsList (writeBlock b d) :=
  keepsList_modify (by exact fun _ => ⟨rfl, rfl⟩)

theorem keepsList_writeHeader : KeepsList (writeHeader sb) :=
  keepsList_get.bind fun _ => keepsList_modify (by exact fun _ => ⟨rfl, rfl⟩)

theorem keepsList_beginOp (c : ℕ) : KeepsList (cacheBeginOp c) := by
  refine (keepsList_modify (by exact fun _ => ⟨rfl, rfl⟩)).bind fun _ => keepsList_get.bind fun s => ?_
  generalize s.sem.val.toNat + 1 = units
  induction units with
  | zero => exact keepsList_throw _
  | succ units ih =>
    intro t
    unfold beginOpLoop
    rw [wlp, wp_bind, wp_get]
    refine wp.ite (fun _ => ?_) fun _ => wp_set.mpr ⟨rfl, rfl⟩
    split
    · next sem _ =>
      rw [wp_bind, wp_set]
      exact ih { t with sem := sem }
    · rw [wp_bind, wp_set]
      exact wp_throw.mpr trivial

theorem keepsList_postAndWait : KeepsList postAndWait := by
  intro s
  unfold postAndWait
  rw [wlp, wp_bind, wp_get]
  split
  · exact wp_throw.mpr trivial
  · split
    · exact wp_set.mpr ⟨rfl, rfl⟩
    · rw [wp_bind, wp_set]
      exact wp_throw.mpr trivial

theorem keepsList_finish : KeepsList (finish sb) := by
  refine (keepsList_modify (by exact fun _ => ⟨rfl, rfl⟩)).bind fun _ => keepsList_writeHeader.bind fun _ =>
    (keepsList_modify (by exact fun _ => ⟨rfl, rfl⟩)).bind fun _ s => ?_
  rw [wlp, wp_bind, wp_get]
  split
  · exact wp_throw.mpr trivial
  · exact wp_set.mpr ⟨rfl, rfl⟩

theorem Inv.untraced (hi : Inv w) (hy : KeepsList y) : wlp (untraced y) (fun _ u => Inv u) w := by
  unfold Trace.untraced
  rw [wlp, wp_zoom]
  refine wp.imp (hy w.cache) fun _ t ht => ⟨?_, ?_, ?_⟩
  · show History w.acquires t.list
    rw [ht.1]
    exact hi.history
  · show t.cachedBlockCount = t.list.length
    rw [ht.1, ht.2, hi.count]
  · show t.cachedBlockCount ≤ _
    rw [ht.2]
    exact hi.bound

/-! ## Runs -/

/-- A traced program that keeps the invariant. -/
def Keeps {α : Type} (x : M α) : Prop := ∀ w, Inv w → wlp x (fun _ u => Inv u) w

theorem Keeps.bind {x : M α} {g : α → M β} (hx : Keeps x) (hg : ∀ a, Keeps (g a)) : Keeps (x >>= g) := by
  intro w hw
  rw [wlp, wp_bind]
  exact wp.imp (hx w hw) fun a u hu => hg a u hu

theorem keeps_untraced (hy : KeepsList y) : Keeps (untraced y) := fun _ hw => hw.untraced hy

theorem keeps_acquire (b : ℕ) : Keeps (cacheAcquire b) := fun _ hw => hw.acquire

theorem keeps_forN {g : ℕ → M Unit} (hg : ∀ i, Keeps (g i)) (a n : ℕ) : Keeps (forN g a n) :=
  fun _ hw => wp_forN (fun _ u => Inv u) hw fun i u _ _ hu => hg i u hu

theorem keeps_replayBlock (i : ℕ) : Keeps (replayBlock sb i) :=
  (keeps_untraced keepsList_get).bind fun _ => (keeps_acquire _).bind fun _ => (keeps_acquire _).bind
    fun _ => keeps_untraced ((keepsList_read _).bind fun _ => (keepsList_write _ _).bind fun _ =>
      (keepsList_sync _ _ _).bind fun _ => (keepsList_release _).bind fun _ => keepsList_release _)

theorem keeps_initLog : Keeps (initLog sb) :=
  (keeps_untraced (keepsList_modify (by exact fun _ => ⟨rfl, rfl⟩))).bind fun _ =>
    (keeps_untraced (keepsList_modify (by exact fun _ => ⟨rfl, rfl⟩))).bind fun _ =>
      (keeps_untraced keepsList_get).bind fun _ => (keeps_forN keeps_replayBlock _ _).bind fun _ =>
        keeps_untraced ((keepsList_modify (by exact fun _ => ⟨rfl, rfl⟩)).bind fun _ => keepsList_writeHeader)

theorem keeps_logBlock (i : ℕ) : Keeps (logBlock sb i) :=
  (keeps_untraced keepsList_get).bind fun _ => (keeps_acquire _).bind fun _ => (keeps_acquire _).bind
    fun _ => keeps_untraced ((keepsList_read _).bind fun _ => (keepsList_write _ _).bind fun _ =>
      (keepsList_sync _ _ _).bind fun _ => (keepsList_release _).bind fun _ => keepsList_release _)

theorem keeps_checkpointBlock (i : ℕ) : Keeps (checkpointBlock i) :=
  (keeps_untraced keepsList_get).bind fun _ => (keeps_acquire _).bind fun _ =>
    keeps_untraced ((keepsList_sync _ _ _).bind fun _ =>
      (keepsList_modify (by exact fun _ => ⟨rfl, rfl⟩)).bind fun _ => keepsList_release _)

theorem keeps_commit : Keeps (commit sb) :=
  (keeps_untraced (keepsList_modify (by exact fun _ => ⟨rfl, rfl⟩))).bind fun _ =>
    (keeps_untraced keepsList_get).bind fun _ => (keeps_forN keeps_logBlock _ _).bind fun _ =>
      (keeps_untraced keepsList_writeHeader).bind fun _ =>
        (keeps_forN keeps_checkpointBlock _ _).bind fun _ => keeps_untraced keepsList_finish

theorem keeps_endOp (c : ℕ) : Keeps (cacheEndOp sb c) := by
  refine (keeps_untraced (keepsList_modify (by exact fun _ => ⟨rfl, rfl⟩))).bind fun _ =>
    (keeps_untraced keepsList_get).bind fun s => ?_
  intro w hw
  refine wp.ite (fun _ => wp_throw.mpr trivial) fun _ => wp.ite (fun _ => ?_) fun _ => ?_
  · exact hw.untraced keepsList_postAndWait
  · exact keeps_commit w hw

theorem keeps_run (a : Call) : Keeps (run sb a) := by
  cases a with
  | acquire b => exact keeps_acquire b
  | endOp c => exact keeps_endOp c
  | store b d => exact keeps_untraced (keepsList_write b d)
  | sync ctx b => exact keeps_untraced (keepsList_sync ctx b .direct)
  | release b => exact keeps_untraced (keepsList_release b)
  | beginOp c => exact keeps_untraced (keepsList_beginOp c)

theorem Inv.step {a : Call} (hi : Inv v) (hs : step sb v a = some w) : Inv w := by
  unfold Trace.step at hs
  split at hs
  · next u hu =>
    obtain rfl := Option.some.inj hs
    exact (keeps_run a v hi).of_ok hu
  · cases hs

/-- `init_bcache` starts with no block cached. -/
theorem inv_init {s₀ : CacheState} (h0 : initBcache sb ⟨s₀, []⟩ = .ok () v) : Inv v := by
  have hwlp : wlp (initBcache sb) (fun _ u => Inv u) ⟨s₀, []⟩ := by
    unfold initBcache Trace.untraced
    rw [wlp, wp_bind, wp_zoom, wp_modify]
    exact keeps_initLog _ ⟨.nil, rfl, Nat.zero_le _⟩
  exact hwlp.of_ok h0

/-- For every sequence of calls after `init_bcache`, the acquires of the commits among them: no block
    is on the list twice, and the list is in order of last acquisition; its length is the count; a
    miss drops at most one block, the least recently acquired one that is free, and only a block
    that is not cached is read; and the count is bounded by the threshold and by what was acquired
    or pinned at the misses. -/
theorem cache_list {s₀ : CacheState} (h0 : initBcache sb ⟨s₀, []⟩ = .ok () v)
    (hrun : Run (step sb) anyStep v w) :
    w.cache.list.Nodup ∧ Recent (w.acquires.map Acquired.blockNo) w.cache.list ∧
    w.cache.cachedBlockCount = w.cache.list.length ∧ History w.acquires w.cache.list ∧
    w.cache.cachedBlockCount ≤ max evictionThreshold (1 + mostBusy w.acquires) := by
  have hinv := hrun.invariant (inv_init h0) fun _ _ _ hi _ hs => hi.step hs
  have hrecent := hinv.history.recent
  exact ⟨hrecent.nodup, hrecent, hinv.count, hinv.history, hinv.bound⟩

/-- The cache after `init_bcache` on an empty device. -/
def emptyStart : Traced :=
  match initBcache mockSuperBlock ⟨boot fun _ _ => 0, []⟩ with
  | .ok _ t => t
  | .error _ t => t

theorem initBcache_empty : initBcache mockSuperBlock ⟨boot fun _ _ => 0, []⟩ = .ok () emptyStart := by
  have hok : (match initBcache mockSuperBlock ⟨boot fun _ _ => 0, []⟩ with
    | .ok _ _ => true
    | .error _ _ => false) = true := by decide +kernel
  unfold emptyStart
  split
  · next h => rw [h]
  · next h =>
    rw [h] at hok
    cases hok

/-- Of 21 blocks the first is still held when the last one comes; the second is dropped. -/
theorem cache_list_evict : ∃ w : Traced, w.cache.list = 50 :: (List.range' 32 18).reverse ++ [30] ∧
    w.cache.cachedBlockCount = w.cache.list.length ∧ w.cache.cachedBlockCount ≤ 20 := by
  have hexec : (exec (step mockSuperBlock) emptyStart (.acquire 30 ::
      (List.range' 31 19).flatMap (fun b => [.acquire b, .release b]) ++ [.acquire 50])).map
        (fun w => (w.cache.list, mostBusy w.acquires)) =
      some (50 :: (List.range' 32 18).reverse ++ [30], 1) := by
    decide +kernel
  obtain ⟨w, hw, hl⟩ := Option.map_eq_some_iff.mp hexec
  obtain ⟨hlist, hmost⟩ := Prod.mk.inj hl
  obtain ⟨-, -, hcount, -, hbound⟩ := cache_list initBcache_empty (Run.of_exec hw)
  rw [hmost] at hbound
  exact ⟨w, hlist, hcount, hbound⟩

end ShikiOS.Fs.Bcache.Trace
