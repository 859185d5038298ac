import ShikiOS.Fs.BcacheCommit

/-!
# Programs over the block cache (`fs/cache.c`)

The callers of the cache acquire blocks, change them, sync and release them. `Rep sb σ H s`
says that the cache represents `σ` while the blocks `H` are held, each with the content
given there. There is one rule for each call: `Rep.wp_acquire` and the like say also when
the call stops, `Rep.acquire` and the like only what it does when it returns.
-/

namespace ShikiOS.Fs.Bcache

open ShikiOS.Lib

/-- The cache represents `σ`, and the blocks `H` are held with the content given. -/
structure Rep (sb : SuperBlock) (σ : ℕ → BlockData) (H : List (ℕ × BlockData))
    (s : CacheState) : Prop where
  coh : Coh sb σ s.header.entries s
  nodup : s.header.entries.Nodup
  committing : s.committing = false
  sem : s.sem = Sem.init 0
  held : ∀ x ∈ H, Held s x.1 ∧ (s.block x.1).data = x.2
  only : ∀ c, Held s c → c ∈ H.map Prod.fst
  distinct : (H.map Prod.fst).Nodup

variable {sb : SuperBlock} {σ : ℕ → BlockData} {H : List (ℕ × BlockData)} {s t : CacheState}
  {b : ℕ} {d : BlockData}

theorem Rep.head (h : Rep sb σ ((b, d) :: H) s) : Held s b ∧ (s.block b).data = d :=
  h.held (b, d) List.mem_cons_self

/-- The block held last is not among the others. -/
theorem Rep.ne_of_mem (h : Rep sb σ ((b, d) :: H) s) {x : ℕ × BlockData} (hx : x ∈ H) : x.1 ≠ b :=
  fun e => (List.nodup_cons.mp h.distinct).1 (List.mem_map.mpr ⟨x, hx, e⟩)

theorem Rep.noneHeld (h : Rep sb σ [] s) : NoneHeld s :=
  fun c hc => List.not_mem_nil (h.only c hc)

variable {Q : Unit → CacheState → Prop} {E : Stop → CacheState → Prop}

/-- The rule of `cache_acquire`. -/
theorem Rep.wp_acquire (h : Rep sb σ H s) (hb : ¬ sb.InLog b)
    (hE : b ∈ H.map Prod.fst → E .blocked s) (hq : ∀ t, Rep sb σ ((b, σ b) :: H) t → Q () t) :
    wp (cacheAcquire b) Q E s := by
  rw [wp_cacheAcquire]
  split_ifs with hheld
  · exact hE (h.only b hheld)
  have hl := sameLog_acquire s b
  refine hq _ ⟨?_, ?_, hl.committing.trans h.committing, hl.sem.trans h.sem, fun x hx => ?_,
    fun c hc => ?_, List.nodup_cons.mpr ⟨fun hm => ?_, h.distinct⟩⟩
  · rw [hl.header]; exact h.coh.acquire hheld
  · rw [hl.header]; exact h.nodup
  · rcases List.mem_cons.mp hx with rfl | hx
    · exact ⟨(held_acquire hheld).mpr (.inl rfl), h.coh.acquire_data hb hheld⟩
    · obtain ⟨h1, h2⟩ := h.held x hx
      have hne : x.1 ≠ b := fun e => hheld (e ▸ h1)
      exact ⟨(held_acquire hheld).mpr (.inr h1), by rw [acquire_block_of_ne s hne, h2]⟩
  · rcases (held_acquire hheld).mp hc with rfl | hc
    · exact List.mem_cons_self
    · exact List.mem_cons_of_mem _ (h.only c hc)
  · obtain ⟨x, hx, rfl⟩ := List.mem_map.mp hm
    exact hheld (h.held x hx).1

theorem Rep.acquire (h : Rep sb σ H s) (hb : ¬ sb.InLog b)
    (hq : ∀ t, Rep sb σ ((b, σ b) :: H) t → Q () t) : wlp (cacheAcquire b) Q s :=
  h.wp_acquire hb (fun _ => trivial) hq

/-- The rule of a read of `block->data`. -/
theorem Rep.wp_read (h : Rep sb σ ((b, d) :: H) s) {Q : BlockData → CacheState → Prop}
    (hq : Q d s) : wp (readBlock b) Q E s := by
  rw [wp_readBlock, h.head.2]
  exact hq

theorem Rep.read (h : Rep sb σ ((b, d) :: H) s) {Q : BlockData → CacheState → Prop} (hq : Q d s) :
    wlp (readBlock b) Q s := h.wp_read hq

/-- The rule of an assignment to `block->data`. -/
theorem Rep.wp_write (h : Rep sb σ ((b, d) :: H) s) {d' : BlockData}
    (hq : ∀ t, Rep sb σ ((b, d') :: H) t → Q () t) : wp (writeBlock b d') Q E s := by
  rw [wp_writeBlock]
  have hk : ∀ c, Held (setBlock s b { s.block b with data := d' }) c ↔ Held s c :=
    fun c => held_setBlock (k := { s.block b with data := d' }) rfl
  refine hq _ ⟨?_, h.nodup, h.committing, h.sem, fun x hx => ?_, fun c hc => ?_, h.distinct⟩
  · exact h.coh.setBlock h.head.1.2 fun he => (h.coh.logged b he).2
  · rcases List.mem_cons.mp hx with rfl | hx
    · exact ⟨(hk b).mpr h.head.1, by rw [setBlock_block_self]⟩
    · obtain ⟨h1, h2⟩ := h.held x (List.mem_cons_of_mem _ hx)
      exact ⟨(hk x.1).mpr h1, by rw [setBlock_block_of_ne _ _ _ (h.ne_of_mem hx), h2]⟩
  · exact h.only c ((hk c).mp hc)

theorem Rep.write (h : Rep sb σ ((b, d) :: H) s) {d' : BlockData}
    (hq : ∀ t, Rep sb σ ((b, d') :: H) t → Q () t) : wlp (writeBlock b d') Q s := h.wp_write hq

/-- The rule of `cache_sync`. -/
theorem Rep.wp_sync (h : Rep sb σ ((b, d) :: H) s) {ctx : Option ℕ}
    (hE : ∀ p t, E (.panic p) t)
    (hq : ∀ t, Rep sb (Function.update σ b d) ((b, d) :: H) t → Q () t) :
    wp (cacheSync ctx b .direct) Q E s := by
  have hd := h.head.2
  cases ctx with
  | none =>
    rw [wp_cacheSync_none, hd]
    have hcoh := h.coh.written (o := .direct) h.head.1
    rw [hd] at hcoh
    exact hq _ ⟨hcoh, h.nodup, h.committing, h.sem, h.held, h.only, h.distinct⟩
  | some c =>
    rw [wp_cacheSync_some]
    split
    · exact hE _ _
    next header rm hap =>
    have ha := logAppend_ok hap
    have hk : ∀ c, Held (setBlock s b { s.block b with pinned := true }) c ↔ Held s c :=
      fun c => held_setBlock (k := { s.block b with pinned := true }) rfl
    have hcoh := h.coh.sync h.head.1 ha.mono ha.only ha.mem
    rw [hd] at hcoh
    refine hq _ ⟨hcoh.of_eq rfl rfl rfl, ha.nodup h.nodup, h.committing, h.sem, fun x hx => ?_,
      fun c hc => h.only c ((hk c).mp hc), h.distinct⟩
    obtain ⟨h1, h2⟩ := h.held x hx
    refine ⟨(hk x.1).mpr h1, ?_⟩
    show ((setBlock s b _).block x.1).data = x.2
    rcases List.mem_cons.mp hx with rfl | hx
    · rw [setBlock_block_self]; exact h2
    · rw [setBlock_block_of_ne _ _ _ (h.ne_of_mem hx), h2]

theorem Rep.sync (h : Rep sb σ ((b, d) :: H) s) {ctx : Option ℕ}
    (hq : ∀ t, Rep sb (Function.update σ b d) ((b, d) :: H) t → Q () t) :
    wlp (cacheSync ctx b .direct) Q s := h.wp_sync (fun _ _ => trivial) hq

/-- The rule of `cache_release`. -/
theorem Rep.wp_release (h : Rep sb σ ((b, d) :: H) s) (hd : d = σ b)
    (hq : ∀ t, Rep sb σ H t → Q () t) : wp (cacheRelease b) Q E s := by
  rw [wp_cacheRelease]
  refine hq _ ⟨h.coh.release fun _ => h.head.2.trans hd, h.nodup, h.committing, h.sem,
    fun x hx => ?_, fun c hc => ?_, (List.nodup_cons.mp h.distinct).2⟩
  · obtain ⟨h1, h2⟩ := h.held x (List.mem_cons_of_mem _ hx)
    refine ⟨held_release.mpr ⟨h.ne_of_mem hx, h1⟩, ?_⟩
    rw [Bcache.release, setBlock_block_of_ne _ _ _ (h.ne_of_mem hx), h2]
  · obtain ⟨hcb, hc⟩ := held_release.mp hc
    exact (List.mem_cons.mp (h.only c hc)).resolve_left hcb

theorem Rep.release (h : Rep sb σ ((b, d) :: H) s) (hd : d = σ b)
    (hq : ∀ t, Rep sb σ H t → Q () t) : wlp (cacheRelease b) Q s := h.wp_release hd hq

/-- A block that is synced and released represents what it was synced with. -/
theorem Rep.wp_syncRelease (h : Rep sb σ ((b, d) :: H) s) {ctx : Option ℕ}
    (hE : ∀ p t, E (.panic p) t) (hq : ∀ t, Rep sb (Function.update σ b d) H t → Q () t) :
    wp (cacheSync ctx b .direct) (fun _ t => wp (cacheRelease b) Q E t) E s := by
  refine h.wp_sync hE fun t ht => ht.wp_release ?_ hq
  rw [Function.update_self]

theorem Rep.syncRelease (h : Rep sb σ ((b, d) :: H) s) {ctx : Option ℕ}
    (hq : ∀ t, Rep sb (Function.update σ b d) H t → Q () t) :
    wlp (cacheSync ctx b .direct) (fun _ t => wlp (cacheRelease b) Q t) s :=
  h.wp_syncRelease (fun _ _ => trivial) hq

/-- The rule of `cache_begin_op`. -/
theorem Rep.beginOp (h : Rep sb σ [] s) {c : ℕ}
    (hq : ∀ t, Rep sb σ [] t → Q () t) : wlp (cacheBeginOp c) Q s := by
  refine wp_mono (wp_cacheBeginOp h.sem) ?_ fun _ _ _ => trivial
  rintro - t rfl
  exact hq _ ⟨h.coh.of_eq rfl rfl rfl, h.nodup, h.committing, h.sem, h.held, h.only, h.distinct⟩

/-- The rule of `cache_end_op`. -/
theorem Rep.endOp (h : Rep sb σ [] s) {c : ℕ}
    (hn : s.outstanding ≤ 1 → s.header.numBlocks + 1 ≤ sb.numLogBlocks) (hq : ∀ t, Rep sb σ [] t → Q () t) :
    wlp (cacheEndOp sb c) Q s := by
  refine wp_mono (wp_cacheEndOp h.coh h.nodup hn h.sem h.committing) ?_ fun _ _ _ => trivial
  rintro - t ⟨ws, -, -, he⟩
  unfold EndOp at he
  split_ifs at he
  · obtain ⟨rfl, -⟩ := he
    exact hq _ ⟨h.coh.of_eq rfl rfl rfl, h.nodup, h.committing, h.sem, h.held, h.only, h.distinct⟩
  · obtain ⟨hcom, -⟩ := he
    have hnil : t.header.entries = [] := by rw [hcom.header, LogHeader.entries_clear]
    refine hq _ ⟨?_, ?_, hcom.committing, hcom.sem.trans h.sem, fun x hx => (List.not_mem_nil hx).elim,
      fun c hc => ?_, List.nodup_nil⟩
    · rw [hnil]; exact hcom.coh
    · rw [hnil]; exact List.nodup_nil
    · exact h.only c ((hcom.held c).mp hc)

/-! ## Contents -/

/-- The content of a block as `cache_acquire` would return it. -/
def content (s : CacheState) (b : ℕ) : BlockData :=
  if b ∈ s.list then (s.block b).data else s.disk b

theorem Rep.content (h : Rep sb σ [] s) (hb : ¬ sb.InLog b) : Bcache.content s b = σ b := by
  have hn : ¬ Held s b := h.noneHeld b
  rw [Bcache.content, ← Bcache.acquire_data]
  exact h.coh.acquire_data hb hn

theorem Rep.congr {σ' : ℕ → BlockData} (h : Rep sb σ H s) (hσ : ∀ c, ¬ sb.InLog c → σ c = σ' c) :
    Rep sb σ' H s :=
  ⟨h.coh.congr hσ, h.nodup, h.committing, h.sem, h.held, h.only, h.distinct⟩

theorem Booted.rep (h : Booted sb t) : Rep sb t.disk [] t := by
  have hnil : t.header.entries = [] := by rw [LogHeader.entries, h.header]; rfl
  refine ⟨?_, ?_, h.committing, h.sem, fun x hx => (List.not_mem_nil hx).elim, fun c hc => absurd hc (h.held c),
    List.nodup_nil⟩
  · rw [hnil]; exact h.coh
  · rw [hnil]; exact List.nodup_nil

end ShikiOS.Fs.Bcache
