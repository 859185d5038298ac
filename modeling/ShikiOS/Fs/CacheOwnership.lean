import ShikiOS.Fs.CacheInvariant

/-!
# Blocks in use and copies of a block (`fs/cache.c`)

Whether a block is in use is recorded twice: in its sleep lock and in the flag
`acquired`, which alone the eviction loop reads. `cache_release` clears the flag
even when it hands the lock to a waiter (lines 218-220). A miss links the new block
into the list only after the spinlock was free for the device read (lines 204-207).

Results:
* `in_use_not_evicted`: a block in use is not evicted, as long as no block is
  released while another process has looked it up. `evicts_in_use` in general.
* `one_copy_per_block`: a block has one copy and one holder, as long as no process
  misses a block that another one is filling, and the blocks in use are flagged
  when a block is evicted. `two_copies` without the first condition.
-/

namespace ShikiOS.Fs.Cache

open ShikiOS.Lib

variable {P : Type*} {s t : CacheState P} {a : Act P}

/-- No block is released while a process is between finding it and locking it. -/
def QuietRelease (s : CacheState P) : Act P → Prop
  | .release _ x => ∀ q, (s.pc q).block ≠ some x
  | _ => True

instance [Fintype P] (s : CacheState P) (a : Act P) : Decidable (QuietRelease s a) := by
  cases a <;> unfold QuietRelease <;> infer_instance

/-- A block in use is flagged as acquired. -/
def Flagged (s : CacheState P) : Prop := ∀ q x, (s.procs q).Uses x → (s.heap x).acquired = true

theorem flagged_init : Flagged (init : CacheState P) := by
  simp [Flagged, init, Proc.Uses, Pc.block]

variable [DecidableEq P]

/-! ## Eviction -/

/-- Only `cache_release` clears the flag of a block. -/
theorem Effect.acquired (he : Effect s a t) {x : ℕ} (hx : x < s.brk)
    (h : (s.heap x).acquired = true) :
    (t.heap x).acquired = true ∨ ∃ p, a = .release p x ∧ x ∈ (s.procs p).held := by
  have hset : ∀ {y : ℕ} {k : Block P}, (x = y → k.acquired = true) →
      ((s.setBlock y k).heap x).acquired = true := by
    intro y k hk
    by_cases hxy : x = y
    · subst hxy; rw [setBlock_heap_self]; exact hk rfl
    · rwa [setBlock_heap_of_ne s y k hxy]
  cases he with
  | miss =>
    have : x ≠ s.brk := by omega
    simp [alloc, setBlock_heap_of_ne _ _ _ this, h]
  | hit => exact .inl (hset fun _ => rfl)
  | lockUnit => exact .inl (hset fun e => e ▸ h)
  | lockSleeps => exact .inl (hset fun e => e ▸ h)
  | interrupted => exact .inl (hset fun e => e ▸ h)
  | @release p y lock w hpc hy =>
    by_cases hxy : x = y
    · subst hxy; exact .inr ⟨p, rfl, hy⟩
    · left
      simp [CacheState.wake, setBlock_heap_of_ne s y _ hxy, h]
  | pin => exact .inl (hset fun e => e ▸ h)
  | unpin => exact .inl (hset fun e => e ▸ h)
  | _ => exact .inl h

/-- The processes that still use a block after its owner has released it. -/
theorem Effect.uses_of_release (he : Effect s a t) {p q : P} {x : ℕ} (ha : a = .release p x)
    (hx : (t.procs q).Uses x) :
    (s.pc q).block = some x ∨ (q ≠ p ∧ x ∈ (s.procs q).held) := by
  cases he with
  | @release p' y lock w hpc hy =>
    cases ha
    by_cases hqp : q = p
    · subst hqp
      rw [modify_procs_self] at hx
      rcases hx with hx | hx
      · left
        simp only [CacheState.wake, setBlock_procs] at hx
        split_ifs at hx <;> exact hx
      · simp at hx
    · rw [modify_procs_of_ne _ p _ hqp] at hx
      simp only [CacheState.wake, setBlock_procs] at hx
      split_ifs at hx
      · exact hx.imp id fun hm => ⟨hqp, hm⟩
      · exact hx.imp id fun hm => ⟨hqp, hm⟩
  | _ => cases ha

/-- A process that has just found or allocated a block has flagged it. -/
theorem Effect.flags_new (he : Effect s a t) {q : P} {x : ℕ} (hx : (t.procs q).Uses x)
    (hnew : ¬ (s.procs q).Uses x) : (t.heap x).acquired = true := by
  obtain ⟨b, rfl⟩ : ∃ b, a = .acquire q b := by
    rcases he.uses hx with hu | ⟨b, ha, -⟩ | ⟨-, hf⟩
    · exact absurd hu hnew
    · exact ⟨b, ha⟩
    · rcases he.fills hf with hf | ⟨-, b, ha, -⟩
      · exact absurd hf.owns.uses hnew
      · exact ⟨b, ha⟩
  cases he with
  | @hit _ _ y hpc hl =>
    rw [modify_procs_self] at hx
    rcases hx with hx | hx
    · cases hx; simp
    · exact absurd (.inr hx) hnew
  | miss hpc hl =>
    rw [modify_procs_self] at hx
    rcases hx with hx | hx
    · cases hx; simp [alloc]
    · simp only [alloc, setBlock_procs, evict_procs] at hx
      exact absurd (.inr hx) hnew

/-- The flags stay right unless a block is released while another process is
    about to lock it. -/
theorem Flagged.effect (h : Flagged s) (hb : Base s) (hok : QuietRelease s a)
    (he : Effect s a t) : Flagged t := by
  intro q x hx
  by_cases hold : (s.procs q).Uses x
  · rcases he.acquired (hb.ptrs.brk q x hold) (h q x hold) with hacq | ⟨p, ha, hp⟩
    · exact hacq
    · rcases he.uses_of_release ha hx with hpc | ⟨hne, hq⟩
      · subst ha
        exact absurd hpc (hok q)
      · -- two owners
        exact absurd ((hb.locks.mutex x).unique q p (.inr (.inr (.inr hq)))
          (.inr (.inr (.inr hp)))) hne
  · exact he.flags_new hx hold

/-- Only the eviction loop frees a block. -/
theorem Effect.freed (he : Effect s a t) :
    t.freed = s.freed ∨ ∃ x, victim s = some x ∧ t.freed = x :: s.freed := by
  cases he with
  | miss =>
    rcases evict_eq s with ⟨-, he⟩ | ⟨x, hv, he⟩
    · exact .inl (by simp [alloc, he])
    · exact .inr ⟨x, hv, by simp [alloc, he]⟩
  | _ => exact .inl rfl

/-- As long as no block is released while another process has looked it up, a step
    never frees a block that a process uses, nor one that is pinned. -/
theorem in_use_not_evicted (h : Run step QuietRelease init s) (hs : step s a = some t) :
    ∀ x ∈ t.freed, x ∉ s.freed →
      (s.heap x).pinned = false ∧ ∀ q, ¬ (s.procs q).Uses x := by
  obtain ⟨hb, hf⟩ : Base s ∧ Flagged s :=
    h.invariant (I := fun s => Base s ∧ Flagged s) ⟨base_init, flagged_init⟩
      fun _ _ _ hi hok hs =>
        have he := step_effect hi.1.locks.queue hs
        ⟨hi.1.effect he, hi.2.effect hi.1 hok he⟩
  intro x hx hnew
  rcases (step_effect hb.locks.queue hs).freed with hfr | ⟨y, hv, hfr⟩
  · rw [hfr] at hx; exact absurd hx hnew
  · rw [hfr] at hx
    rcases List.mem_cons.mp hx with rfl | hx
    · obtain ⟨-, hacq, hpin, -⟩ := victim_some hv
      refine ⟨hpin, fun q hq => ?_⟩
      rw [hf q x hq] at hacq
      cases hacq
    · exact absurd hx hnew

/-- Process `p` acquires a block that is not cached and releases it again; the new
    block gets the pointer `x`. -/
def visit (p : Fin 2) (b x : ℕ) : List (Act (Fin 2)) :=
  [.acquire p b, .read p, .insert p, .release p x]

/-- Process 1 waits for block 7, and process 0 hands it over and then reads in
    nineteen other blocks. -/
def handover : List (Act (Fin 2)) :=
  [[.acquire 0 7, .read 0, .insert 0, .acquire 1 7, .lock 1, .release 0 0],
    (List.range 19).flatMap fun i => visit 0 (100 + i) (i + 1)].flatten

/-- The next acquire of process 0 frees the block that process 1 was handed. -/
theorem evicts_in_use : ¬ ∀ (s t : CacheState (Fin 2)) (a : Act (Fin 2)),
    Run step anyStep init s → step s a = some t → ∀ x ∈ t.freed, x ∉ s.freed →
      (s.heap x).pinned = false ∧ ∀ q, ¬ (s.procs q).Uses x := by
  intro h
  have hrun : (exec step init handover).map (fun s => (decide (s.pc 1 = .sleeping 0), s.freed,
      (step s (.acquire 0 200)).map fun t => t.freed)) = some (true, [], some [0]) := by
    decide +kernel
  obtain ⟨s, hs, hx⟩ := Option.map_eq_some_iff.mp hrun
  simp only [Prod.mk.injEq, decide_eq_true_eq] at hx
  obtain ⟨hpc, hnone, hnext⟩ := hx
  obtain ⟨t, ht, hfreed⟩ := Option.map_eq_some_iff.mp hnext
  refine (h s t _ (Run.of_exec hs) ht 0 (by simp [hfreed]) (by simp [hnone])).2 1 (.inl ?_)
  rw [show (s.procs 1).pc = _ from hpc]
  rfl

/-- Twenty blocks are read in and released; the next acquire frees the oldest one. -/
theorem in_use_not_evicted_lru : ∃ s t : CacheState (Fin 2),
    Run step QuietRelease init s ∧ step s (.acquire 1 200) = some t ∧ t.freed = [0] ∧
      ∀ x ∈ t.freed, x ∉ s.freed → (s.heap x).pinned = false ∧ ∀ q, ¬ (s.procs q).Uses x := by
  have hrun : (execIf step QuietRelease init
      ((List.range 20).flatMap fun i => visit 0 (100 + i) i)).map
      (fun s => (step s (.acquire 1 200)).map fun t => t.freed) = some (some [0]) := by
    decide +kernel
  obtain ⟨s, hs, hx⟩ := Run.of_execIf_map hrun
  obtain ⟨t, ht, hfreed⟩ := Option.map_eq_some_iff.mp hx
  exact ⟨s, t, hs, ht, hfreed, in_use_not_evicted hs ht⟩

/-! ## Copies -/

section Careful

variable [Fintype P]

/-- A miss finds nobody filling a block of the same number, and when it has to evict,
    every listed block in use is flagged. -/
def Careful (s : CacheState P) : Act P → Prop
  | .acquire _ b => lookup s b = none →
      (∀ q, ∀ x ∈ (s.pc q).fills, (s.heap x).blockNo ≠ b) ∧
      (evictionThreshold ≤ s.cachedBlockCount → ∀ q, ∀ x ∈ s.list,
        ((s.pc q).block = some x ∨ x ∈ (s.procs q).held) →
          (s.heap x).acquired = true ∨ (s.heap x).pinned = true)
  | _ => True

instance (s : CacheState P) (a : Act P) : Decidable (Careful s a) := by
  cases a <;> unfold Careful <;> infer_instance

end Careful

/-- A block that is in the list or being filled. -/
def Live (s : CacheState P) (x : ℕ) : Prop := x ∈ s.list ∨ ∃ q, (s.procs q).Fills x

/-- A block in use is in the list unless it is being filled, and the blocks in the list
    or being filled have distinct numbers. -/
structure OneCopy (s : CacheState P) : Prop where
  here : ∀ q x, (s.procs q).Uses x → ¬ (s.procs q).Fills x → x ∈ s.list
  numbers : ∀ x y, Live s x → Live s y → (s.heap x).blockNo = (s.heap y).blockNo → x = y

omit [DecidableEq P] in
theorem oneCopy_init : OneCopy (init : CacheState P) :=
  ⟨by simp [init, Proc.Uses, Pc.block], by simp [Live, init, Proc.Fills, Pc.fills]⟩

omit [DecidableEq P] in
theorem lookup_eq_none {b : ℕ} (h : lookup s b = none) :
    ∀ x ∈ s.list, (s.heap x).blockNo ≠ b := by
  intro x hx
  have := List.find?_eq_none.mp h x hx
  simpa using this

omit [DecidableEq P] in
theorem Live.lt (h : Ptrs s) {x : ℕ} (hx : Live s x) : x < s.brk := by
  rcases hx with hx | ⟨q, hx⟩
  · exact h.list x hx
  · exact h.brk q x hx.owns.uses

theorem Effect.brk_of_ne_miss (he : Effect s a t)
    (h : ∀ p b, a = .acquire p b → lookup s b ≠ none) : t.brk = s.brk := by
  cases he with
  | @miss p b _ hl => exact absurd hl (h p b rfl)
  | _ => rfl

/-- The number of the block that a miss allocates. -/
theorem Effect.blockNo_new (he : Effect s a t) {p : P} {b : ℕ} (ha : a = .acquire p b)
    (hl : lookup s b = none) : (t.heap s.brk).blockNo = b := by
  cases he with
  | hit _ hl' => cases ha; rw [hl] at hl'; cases hl'
  | miss => cases ha; simp [alloc]
  | _ => cases ha

omit [DecidableEq P] in
/-- A block in use is not evicted by a careful miss. -/
theorem Careful.not_victim [Fintype P] {p : P} {b x : ℕ} (hok : Careful s (.acquire p b))
    (hl : lookup s b = none) (hv : victim s = some x) (q : P) : ¬ (s.procs q).Uses x := by
  intro hq
  obtain ⟨hmem, hacq, hpin, hcount⟩ := victim_some hv
  rcases (hok hl).2 hcount q x hmem hq with h | h
  · rw [h] at hacq; cases hacq
  · rw [h] at hpin; cases hpin

/-- A block leaves the list only by eviction. -/
theorem Effect.mem_list (he : Effect s a t) {x : ℕ} (hx : x ∈ s.list) :
    x ∈ t.list ∨ ∃ p b, a = .acquire p b ∧ lookup s b = none ∧ victim s = some x := by
  rcases he.list with ⟨hlist, -⟩ | ⟨p, b, ha, hl, hlist⟩ | ⟨p, y, -, -, hlist⟩ |
    ⟨p, y, -, -, hlist⟩ <;> rw [hlist]
  · exact .inl hx
  · rcases evict_eq s with ⟨-, hev⟩ | ⟨v, hv, hev⟩ <;> rw [hev]
    · exact .inl hx
    · by_cases hxv : x = v
      · subst hxv; exact .inr ⟨p, b, ha, hl, hv⟩
      · exact .inl ((List.mem_erase_of_ne hxv).mpr hx)
  · by_cases hxy : x = y
    · exact .inl (by simp [hxy])
    · exact .inl (List.mem_cons_of_mem y ((List.mem_erase_of_ne hxy).mpr hx))
  · exact .inl (List.mem_cons_of_mem y hx)

/-- A block becomes live only by a miss, which allocates it. -/
theorem OneCopy.live (h : OneCopy s) (he : Effect s a t) {x : ℕ} (hx : Live t x) :
    Live s x ∨ (x = s.brk ∧ ∃ p b, a = .acquire p b ∧ lookup s b = none) := by
  rcases hx with hx | ⟨q, hx⟩
  · left
    rcases he.list with ⟨hlist, -⟩ | ⟨p, b, -, -, hlist⟩ | ⟨p, y, ho, hnf, hlist⟩ |
      ⟨p, y, hpc, -, hlist⟩ <;> rw [hlist] at hx
    · exact .inl hx
    · exact .inl (mem_evict_list hx)
    · rcases List.mem_cons.mp hx with rfl | hx
      · exact .inl (h.here p x ho.uses hnf)
      · exact .inl (List.mem_of_mem_erase hx)
    · rcases List.mem_cons.mp hx with rfl | hx
      · exact .inr ⟨p, by simp [Proc.Fills, Pc.fills, show (s.procs p).pc = _ from hpc]⟩
      · exact .inl hx
  · rcases he.fills hx with hf | ⟨hu, b, ha, hl⟩
    · exact .inl (.inr ⟨q, hf⟩)
    · exact .inr ⟨hu, q, b, ha, hl⟩

/-- A careful step keeps one copy of each block. -/
theorem OneCopy.effect [Fintype P] (h : OneCopy s) (hb : Base s) (hok : Careful s a)
    (he : Effect s a t) : OneCopy t := by
  constructor
  · intro q x hx hnf
    -- a block that was in the list is still there: it is in use, so it is no victim
    have hstay : x ∈ s.list → (s.procs q).Uses x ∨ (∃ b, a = .acquire q b ∧ lookup s b = some x) →
        x ∈ t.list := by
      intro hmem huse
      rcases he.mem_list hmem with hmem | ⟨p, b, rfl, hl, hv⟩
      · exact hmem
      · rcases huse with hu | ⟨b', ha, hl'⟩
        · exact absurd hu (Careful.not_victim hok hl hv q)
        · cases ha; rw [hl] at hl'; cases hl'
    rcases he.uses hx with hu | ⟨b, ha, hl⟩ | ⟨-, hf⟩
    · by_cases hf : (s.procs q).Fills x
      · exact (he.filled hf).resolve_left hnf
      · exact hstay (h.here q x hu hf) (.inl hu)
    · exact hstay (List.mem_of_find?_eq_some hl) (.inr ⟨b, ha, hl⟩)
    · exact absurd hf hnf
  · -- the new block differs from every block that was live
    have hnew : ∀ {p b x}, a = .acquire p b → lookup s b = none → Live s x →
        (t.heap x).blockNo ≠ (t.heap s.brk).blockNo := by
      intro p b x ha hl hx
      rw [he.blockNo_new ha hl, he.blockNo (hx.lt hb.ptrs)]
      subst ha
      rcases hx with hx | ⟨q, hx⟩
      · exact lookup_eq_none hl x hx
      · exact (hok hl).1 q x hx
    intro x y hx hy hxy
    rcases h.live he hx with hx | ⟨rfl, p, b, ha, hl⟩
    · rcases h.live he hy with hy | ⟨rfl, p, b, ha, hl⟩
      · rw [he.blockNo (hx.lt hb.ptrs), he.blockNo (hy.lt hb.ptrs)] at hxy
        exact h.numbers x y hx hy hxy
      · exact absurd hxy (hnew ha hl hx)
    · rcases h.live he hy with hy | ⟨rfl, -⟩
      · exact absurd hxy.symm (hnew ha hl hy)
      · rfl

/-! ## The count -/

section Count

variable [Fintype P]

/-- The processes that are filling a block. -/
def fillers (s : CacheState P) : Finset P := Finset.univ.filter fun q => (s.pc q).fills.isSome

omit [DecidableEq P] in
theorem mem_fillers {q : P} : q ∈ fillers s ↔ (s.pc q).fills.isSome = true := by
  simp [fillers]

theorem fillers_modify {u : CacheState P} {p : P} {f : Proc → Proc} (hu : u.procs = s.procs) :
    fillers (u.modify p f) =
      if (f (s.procs p)).pc.fills.isSome then insert p (fillers s) else (fillers s).erase p := by
  ext q
  by_cases hqp : q = p
  · subst hqp
    rw [mem_fillers, CacheState.pc, modify_procs_self, hu]
    split_ifs with h <;> simp [h]
  · rw [mem_fillers, CacheState.pc, modify_procs_of_ne u p f hqp, hu]
    split_ifs <;> simp [hqp, mem_fillers]

/-- A process that does not fill a block, and does not start to. -/
theorem fillers_modify_none {u : CacheState P} {p : P} {f : Proc → Proc} (hu : u.procs = s.procs)
    (hp : (s.pc p).fills = none) (hf : (f (s.procs p)).pc.fills = none) :
    fillers (u.modify p f) = fillers s := by
  rw [fillers_modify hu, hf, if_neg (by simp)]
  exact Finset.erase_eq_of_notMem (by simp [mem_fillers, hp])

/-- A process that fills a block, and goes on. -/
theorem fillers_modify_some {u : CacheState P} {p : P} {f : Proc → Proc} (hu : u.procs = s.procs)
    (hp : (s.pc p).fills.isSome = true) (hf : (f (s.procs p)).pc.fills.isSome = true) :
    fillers (u.modify p f) = fillers s := by
  rw [fillers_modify hu, if_pos hf]
  exact Finset.insert_eq_of_mem (mem_fillers.mpr hp)

/-- `cached_block_count` counts the blocks of the list and those being filled. -/
def Counted (s : CacheState P) : Prop := s.cachedBlockCount = s.list.length + (fillers s).card

/-- A step of a process that does not fill a block. -/
theorem Counted.move {u : CacheState P} {p : P} {f : Proc → Proc} (h : Counted s)
    (hc : u.cachedBlockCount = s.cachedBlockCount) (hl : u.list.length = s.list.length)
    (hu : u.procs = s.procs) (hp : (s.pc p).fills = none) (hf : (f (s.procs p)).pc.fills = none) :
    Counted (u.modify p f) := by
  unfold Counted at h ⊢
  rw [fillers_modify_none hu hp hf, modify_count, modify_list, hc, hl, h]

omit [DecidableEq P] in
theorem counted_init : Counted (init : CacheState P) := by
  simp [Counted, init, fillers, Pc.fills]

omit [DecidableEq P] [Fintype P] in
/-- Evicting takes one block off the list and off the count. -/
theorem evict_count (s : CacheState P) :
    ((evict s).cachedBlockCount = s.cachedBlockCount ∧ (evict s).list.length = s.list.length) ∨
    ((evict s).cachedBlockCount + 1 = s.cachedBlockCount ∧
      (evict s).list.length + 1 = s.list.length) := by
  rcases evict_eq s with ⟨-, he⟩ | ⟨x, hv, he⟩ <;> rw [he]
  · exact .inl ⟨rfl, rfl⟩
  · obtain ⟨hmem, -, -, hcount⟩ := victim_some hv
    have hlen := List.length_erase_of_mem hmem
    have hpos := List.length_pos_of_mem hmem
    have hthr : evictionThreshold = 20 := rfl
    right
    constructor
    · simp only
      omega
    · simp only
      omega

theorem Counted.effect (h : Counted s) (ho : OneCopy s) (he : Effect s a t) : Counted t := by
  cases he with
  | hit hpc => exact h.move rfl rfl rfl (by rw [hpc]; rfl) rfl
  | @miss p b hpc =>
    unfold Counted at h ⊢
    have hnot : p ∉ fillers s := by rw [mem_fillers, hpc]; simp [Pc.fills]
    have hf : fillers ((alloc (evict s) p b).modify p
        fun o => { o with pc := .filling (evict s).brk }) = insert p (fillers s) :=
      fillers_modify (s := s) (by simp [alloc])
    rw [hf, Finset.card_insert_of_notMem hnot]
    simp only [alloc, modify_count, modify_list, setBlock_list]
    rcases evict_count s with ⟨hc, hl⟩ | ⟨hc, hl⟩
    · omega
    · omega
  | lockUnit hpc => exact h.move rfl rfl rfl (by rw [hpc]; rfl) rfl
  | lockSleeps hpc => exact h.move rfl rfl rfl (by rw [hpc]; rfl) rfl
  | woken hpc => exact h.move rfl rfl rfl (by rw [hpc]; rfl) rfl
  | interrupted hpc => exact h.move rfl rfl rfl (by rw [hpc]; rfl) rfl
  | @touch p x hpc =>
    -- the block that moves to the front was in the list
    have hmem : x ∈ s.list := by
      refine ho.here p x (.inl (by rw [show (s.procs p).pc = _ from hpc]; rfl)) ?_
      simp [Proc.Fills, Pc.fills, show (s.procs p).pc = _ from hpc]
    have hlen := List.length_erase_of_mem hmem
    have hpos := List.length_pos_of_mem hmem
    refine h.move rfl ?_ rfl (by rw [hpc]; rfl) rfl
    simp only [List.length_cons]
    omega
  | @read p x hpc =>
    unfold Counted at h ⊢
    have hf : fillers (s.modify p fun o => { o with pc := .filled x }) = fillers s :=
      fillers_modify_some rfl (by rw [hpc]; rfl) rfl
    rw [hf]
    exact h
  | @insert p x hpc =>
    unfold Counted at h ⊢
    have hmem : p ∈ fillers s := by rw [mem_fillers, hpc]; rfl
    have hf : fillers ({ s with list := x :: s.list }.modify p
        fun o => { o with pc := .idle, held := insert x o.held }) = (fillers s).erase p :=
      fillers_modify (s := s) rfl
    have hcard := Finset.card_erase_of_mem hmem
    have hpos := Finset.card_pos.mpr ⟨p, hmem⟩
    rw [hf]
    simp only [modify_count, modify_list, List.length_cons]
    omega
  | @release p x lock w hpc =>
    unfold Counted at h ⊢
    have hf : fillers (((s.setBlock x { s.heap x with acquired := false, lock := lock }).wake
        w).modify p fun o => { o with held := o.held.erase x }) = fillers s := by
      ext q
      rw [mem_fillers, mem_fillers]
      by_cases hqp : q = p
      · subst hqp
        simp only [CacheState.pc, modify_procs_self, CacheState.wake, setBlock_procs]
        split_ifs <;> rfl
      · rw [CacheState.pc, modify_procs_of_ne _ p _ hqp]
        simp only [CacheState.wake, setBlock_procs]
        split_ifs <;> rfl
    rw [hf]
    exact h
  | pin => exact h
  | unpin => exact h
  | @kill p =>
    unfold Counted at h ⊢
    have hf : fillers (s.modify p fun o => { o with killed := true }) = fillers s := by
      by_cases hp : (s.pc p).fills.isSome = true
      · exact fillers_modify_some rfl hp hp
      · have hp : (s.pc p).fills = none := by simpa using hp
        exact fillers_modify_none rfl hp hp
    rw [hf]
    exact h

end Count

/-- As long as no process misses a block that another one is filling, and the blocks
    in use are flagged when a miss has to evict, the blocks in the list have distinct
    numbers, `cached_block_count` is the length of the list whenever no miss is being
    filled, and no two processes hold a block of the same number. -/
theorem one_copy_per_block [Fintype P] (h : Run step Careful init s) :
    (s.list.map fun x => (s.heap x).blockNo).Nodup ∧
      ((∀ q x, ¬ (s.procs q).Fills x) → s.cachedBlockCount = s.list.length) ∧
      ∀ q r x y, q ≠ r → x ∈ (s.procs q).held → y ∈ (s.procs r).held →
        (s.heap x).blockNo ≠ (s.heap y).blockNo := by
  obtain ⟨hb, ho, hc⟩ : Base s ∧ OneCopy s ∧ Counted s :=
    h.invariant (I := fun s => Base s ∧ OneCopy s ∧ Counted s)
      ⟨base_init, oneCopy_init, counted_init⟩ fun _ _ _ hi hok hs =>
        have he := step_effect hi.1.locks.queue hs
        ⟨hi.1.effect he, hi.2.1.effect hi.1 hok he, hi.2.2.effect hi.2.1 he⟩
  have hlive : ∀ q x, x ∈ (s.procs q).held → Live s x := by
    intro q x hx
    by_cases hf : (s.procs q).Fills x
    · exact .inr ⟨q, hf⟩
    · exact .inl (ho.here q x (.inr hx) hf)
  refine ⟨?_, fun hno => ?_, fun q r x y hne hx hy hxy => ?_⟩
  · refine List.Nodup.map_on (fun x hx y hy hxy => ?_) hb.ptrs.nodup
    exact ho.numbers x y (.inl hx) (.inl hy) hxy
  · have hempty : fillers s = ∅ := by
      refine Finset.eq_empty_of_forall_notMem fun q hq => ?_
      obtain ⟨x, hx⟩ := Option.isSome_iff_exists.mp (mem_fillers.mp hq)
      exact hno q x hx
    rw [hc, hempty, Finset.card_empty, add_zero]
  · have he := ho.numbers x y (hlive q x hx) (hlive r y hy) hxy
    subst he
    exact hne ((hb.locks.mutex x).unique q r (.inr (.inr (.inr hx))) (.inr (.inr (.inr hy))))

/-- Two processes miss block 7 at the same time, and each inserts and holds a copy. -/
theorem two_copies : ¬ ∀ s : CacheState (Fin 2), Run step anyStep init s →
    (s.list.map fun x => (s.heap x).blockNo).Nodup ∧
      ((∀ q x, ¬ (s.procs q).Fills x) → s.cachedBlockCount = s.list.length) ∧
      ∀ q r x y, q ≠ r → x ∈ (s.procs q).held → y ∈ (s.procs r).held →
        (s.heap x).blockNo ≠ (s.heap y).blockNo := by
  intro h
  have hrun : (exec step (init : CacheState (Fin 2)) [.acquire 0 7, .acquire 1 7, .read 0, .read 1,
      .insert 0, .insert 1]).map (fun s => s.list.map fun x => (s.heap x).blockNo) =
      some [7, 7] := by decide
  obtain ⟨s, hs, hx⟩ := Option.map_eq_some_iff.mp hrun
  have hnodup := (h s (Run.of_exec hs)).1
  rw [hx] at hnodup
  exact absurd hnodup (by decide)

/-- Process 1 waits for block 7 of process 0 and then holds the same copy. -/
theorem one_copy_per_block_shared : ∃ s : CacheState (Fin 2),
    Run step Careful init s ∧ (s.procs 1).held = {0} ∧
      (s.list.map fun x => (s.heap x).blockNo).Nodup ∧
      ((∀ q x, ¬ (s.procs q).Fills x) → s.cachedBlockCount = s.list.length) ∧
      ∀ q r x y, q ≠ r → x ∈ (s.procs q).held → y ∈ (s.procs r).held →
        (s.heap x).blockNo ≠ (s.heap y).blockNo := by
  have hrun : (execIf step Careful (init : CacheState (Fin 2)) [.acquire 0 7, .read 0, .insert 0,
      .acquire 1 7, .lock 1, .release 0 0, .wake 1, .touch 1]).map
      (fun s => (s.procs 1).held) = some {0} := by decide
  obtain ⟨s, hs, hx⟩ := Run.of_execIf_map hrun
  exact ⟨s, hs, hx, one_copy_per_block hs⟩

end ShikiOS.Fs.Cache
