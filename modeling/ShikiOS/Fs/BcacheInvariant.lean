import ShikiOS.Lib.RedoLog
import ShikiOS.Fs.Bcache

/-!
# The cache and the device as one map (`fs/cache.c`)

`Coh sb σ es s` says that the cached blocks and the device of `s` together represent
the map `σ` outside the log area: a block that nobody holds is cached with its content
in `σ` or not at all, and the device has that content except for the blocks `es`, which
are pinned in the cache until they are written home.

Results: every function of the cache keeps `Coh`, with `σ` changed by `cache_sync` only.
-/

namespace ShikiOS.Fs.Bcache

open ShikiOS.Lib

/-- Cache and device represent `σ`; the blocks `es` are safe in the cache only. -/
structure Coh (sb : SuperBlock) (σ : ℕ → BlockData) (es : List ℕ) (s : CacheState) : Prop where
  nodup : s.list.Nodup
  logged : ∀ b ∈ es, b ∈ s.list ∧ (s.block b).pinned = true
  cached : ∀ b ∈ s.list, ¬ sb.InLog b → (s.block b).acquired = false → (s.block b).data = σ b
  disk : ∀ b, ¬ sb.InLog b → b ∉ es → s.disk b = σ b

variable {sb : SuperBlock} {σ : ℕ → BlockData} {es : List ℕ} {s t : CacheState} {b : ℕ}

/-! ## Single blocks -/

/-- What `cache_acquire` returns. -/
theorem Coh.acquire_data (h : Coh sb σ es s) (hb : ¬ sb.InLog b) (hh : ¬ Held s b) :
    ((acquire s b).block b).data = σ b := by
  rw [Bcache.acquire_data]
  split_ifs with hm
  · exact h.cached b hm hb (by simpa [Held, hm] using hh)
  · exact h.disk b hb fun he => hm (h.logged b he).1

theorem Coh.acquire (h : Coh sb σ es s) (hh : ¬ Held s b) : Coh sb σ es (acquire s b) := by
  refine ⟨nodup_acquire h.nodup b, fun c hc => ?_, fun c hc hlog hacq => ?_, fun c hlog hc => ?_⟩
  · obtain ⟨h1, h2⟩ := h.logged c hc
    refine ⟨mem_acquire_of_mem h1 (.inr h2), ?_⟩
    by_cases hcb : c = b
    · subst hcb; rw [acquire_pinned s h1, h2]
    · rw [acquire_block_of_ne s hcb, h2]
  · have hcb : c ≠ b := by
      rintro rfl
      rw [acquire_acquired] at hacq
      cases hacq
    rw [acquire_block_of_ne s hcb] at hacq ⊢
    exact h.cached c ((mem_of_mem_acquire hc).resolve_left hcb) hlog hacq
  · rw [acquire_disk]
    exact h.disk c hlog hc

/-- A held block may change. -/
theorem Coh.setBlock {k : Block} (h : Coh sb σ es s) (ha : k.acquired = true)
    (hp : b ∈ es → k.pinned = true) : Coh sb σ es (setBlock s b k) := by
  refine ⟨h.nodup, fun c hc => ?_, fun c hc hlog hacq => ?_, h.disk⟩
  · obtain ⟨h1, h2⟩ := h.logged c hc
    refine ⟨h1, ?_⟩
    by_cases hcb : c = b
    · subst hcb; rw [setBlock_block_self]; exact hp hc
    · rw [setBlock_block_of_ne s b k hcb, h2]
  · by_cases hcb : c = b
    · subst hcb
      rw [setBlock_block_self, ha] at hacq
      cases hacq
    · rw [setBlock_block_of_ne s b k hcb] at hacq ⊢
      exact h.cached c hc hlog hacq

/-- A block is released with its content in `σ`. -/
theorem Coh.release (h : Coh sb σ es s) (hd : ¬ sb.InLog b → (s.block b).data = σ b) :
    Coh sb σ es (release s b) := by
  refine ⟨h.nodup, fun c hc => ?_, fun c hc hlog hacq => ?_, h.disk⟩
  · obtain ⟨h1, h2⟩ := h.logged c hc
    refine ⟨h1, ?_⟩
    unfold Bcache.release
    by_cases hcb : c = b
    · subst hcb; rw [setBlock_block_self, ← h2]
    · rw [setBlock_block_of_ne s b _ hcb, h2]
  · unfold Bcache.release at hacq ⊢
    by_cases hcb : c = b
    · subst hcb; rw [setBlock_block_self]; exact hd hlog
    · rw [setBlock_block_of_ne s b _ hcb] at hacq ⊢
      exact h.cached c hc hlog hacq

/-- A write to the log area. -/
theorem Coh.written_log {o : Origin} {d : BlockData} (h : Coh sb σ es s) (hb : sb.InLog b) :
    Coh sb σ es (written s o b d) := by
  refine ⟨h.nodup, h.logged, h.cached, fun c hlog hc => ?_⟩
  have hcb : c ≠ b := fun e => hlog (e ▸ hb)
  simp only [written, Function.update_of_ne hcb]
  exact h.disk c hlog hc

/-- `cache_sync` without a context of a held block. -/
theorem Coh.written {o : Origin} (h : Coh sb σ es s) (hh : Held s b) :
    Coh sb (Function.update σ b (s.block b).data) es (written s o b (s.block b).data) := by
  refine ⟨h.nodup, h.logged, fun c hc hlog hacq => ?_, fun c hlog hc => ?_⟩
  · have hcb : c ≠ b := by
      rintro rfl
      have := hh.2
      rw [show (s.block c).acquired = false from hacq] at this
      cases this
    rw [Function.update_of_ne hcb]
    exact h.cached c hc hlog hacq
  · by_cases hcb : c = b
    · subst hcb; simp [Bcache.written]
    · simp only [Bcache.written, Function.update_of_ne hcb]
      exact h.disk c hlog hc

/-- A held block joins the blocks that are safe in the cache only. -/
theorem Coh.sync {es' : List ℕ} (h : Coh sb σ es s) (hh : Held s b) (hsub : ∀ c ∈ es, c ∈ es')
    (hsup : ∀ c ∈ es', c ∈ es ∨ c = b) (hb : b ∈ es') :
    Coh sb (Function.update σ b (s.block b).data) es'
      (Bcache.setBlock s b { s.block b with pinned := true }) := by
  refine ⟨h.nodup, fun c hc => ?_, fun c hc hlog hacq => ?_, fun c hlog hc => ?_⟩
  · by_cases hcb : c = b
    · subst hcb; exact ⟨hh.1, by rw [setBlock_block_self]⟩
    · rw [setBlock_block_of_ne s b _ hcb]
      exact h.logged c ((hsup c hc).resolve_right hcb)
  · by_cases hcb : c = b
    · subst hcb
      rw [setBlock_block_self] at hacq
      have := hh.2
      rw [show (s.block c).acquired = false from hacq] at this
      cases this
    · rw [setBlock_block_of_ne s b _ hcb] at hacq ⊢
      rw [Function.update_of_ne hcb]
      exact h.cached c hc hlog hacq
  · have hcb : c ≠ b := fun e => hc (e ▸ hb)
    rw [setBlock_disk, Function.update_of_ne hcb]
    exact h.disk c hlog fun he => hc (hsub c he)

/-- A listed block is written home and leaves the list. -/
theorem Coh.home {bs : List ℕ} (h : Coh sb σ (b :: bs) s) (hd : ¬ sb.InLog b → s.disk b = σ b) :
    Coh sb σ bs s := by
  refine ⟨h.nodup, fun c hc => h.logged c (List.mem_cons_of_mem b hc), h.cached,
    fun c hlog hc => ?_⟩
  by_cases hcb : c = b
  · subst hcb; exact hd hlog
  · exact h.disk c hlog fun hm => hc ((List.mem_cons.mp hm).resolve_left hcb)

/-- Only the blocks outside the log area matter. -/
theorem Coh.congr {σ' : ℕ → BlockData} (h : Coh sb σ es s) (hσ : ∀ c, ¬ sb.InLog c → σ c = σ' c) :
    Coh sb σ' es s :=
  ⟨h.nodup, h.logged, fun c hc hlog hacq => (h.cached c hc hlog hacq).trans (hσ c hlog),
    fun c hlog hc => (h.disk c hlog hc).trans (hσ c hlog)⟩

/-! ## Who holds what, and what is written -/

/-- Nobody holds a block. -/
def NoneHeld (s : CacheState) : Prop := ∀ c, ¬ Held s c

/-- The same blocks are held. -/
def SameHeld (s t : CacheState) : Prop := ∀ c, Held t c ↔ Held s c

theorem SameHeld.refl (s : CacheState) : SameHeld s s := fun _ => Iff.rfl

theorem SameHeld.trans {u : CacheState} (h : SameHeld s t) (h' : SameHeld t u) : SameHeld s u :=
  fun c => (h' c).trans (h c)

theorem SameHeld.noneHeld (h : SameHeld s t) (hn : NoneHeld s) : NoneHeld t :=
  fun c hc => hn c ((h c).mp hc)

/-- From `s` to `t` the device takes the writes `ws`. -/
structure Trace (s t : CacheState) (ws : List Write) : Prop where
  writes : t.writes = s.writes ++ ws
  disk : t.disk = RedoLog.applyWrites s.disk (ws.map Write.pair)

theorem Trace.nil (hw : t.writes = s.writes) (hd : t.disk = s.disk) : Trace s t [] :=
  ⟨by rw [hw, List.append_nil], hd⟩

theorem Trace.refl (s : CacheState) : Trace s s [] := Trace.nil rfl rfl

theorem Trace.trans {u : CacheState} {ws ws' : List Write} (h : Trace s t ws)
    (h' : Trace t u ws') : Trace s u (ws ++ ws') :=
  ⟨by rw [h'.writes, h.writes, List.append_assoc],
    by rw [h'.disk, h.disk, List.map_append, RedoLog.applyWrites_append]⟩

theorem trace_written (s : CacheState) (o : Origin) (b : ℕ) (d : BlockData) :
    Trace s (written s o b d) [⟨o, b, d⟩] :=
  ⟨rfl, rfl⟩

end ShikiOS.Fs.Bcache
