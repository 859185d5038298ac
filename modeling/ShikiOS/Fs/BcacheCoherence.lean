import ShikiOS.Fs.BcacheRun

/-!
# Coherence of the block cache (`fs/cache.c`)

For one process, cache and device behave as a plain map from block numbers to contents:
`cache_acquire` returns what was last synced, whatever was evicted in between, and
`cache_end_op` makes the device agree. The latter takes a commit, and the end of an
operation that is not the last one returns without a commit.

Results:
* `cache_coherent`: coherence in all runs in which every end of an operation with
  something to write is the end of the only operation, and the log area has room.
* `cache_not_coherent`: two operations of one process.
-/

namespace ShikiOS.Fs.Bcache

open ShikiOS.Lib

/-- An operation that ends while the header lists blocks is the only one, and the log
    area has room for these blocks. -/
def EndsAlone (sb : SuperBlock) (s : Session) : Call → Prop
  | .endOp c => s.cache.header.numBlocks = 0 ∨
      s.running = [c] ∧ s.cache.header.numBlocks + 1 ≤ sb.numLogBlocks
  | _ => True

instance (sb : SuperBlock) (s : Session) : ∀ a, Decidable (EndsAlone sb s a)
  | .endOp c => inferInstanceAs (Decidable (s.cache.header.numBlocks = 0 ∨
      s.running = [c] ∧ s.cache.header.numBlocks + 1 ≤ sb.numLogBlocks))
  | .acquire _ | .store _ _ | .sync _ _ | .release _ | .beginOp _ =>
    inferInstanceAs (Decidable True)

variable {sb : SuperBlock} {s u : Session} {a : Call}

theorem EndsAlone.commitFits (h : EndsAlone sb s a) (hpos : 0 < sb.numLogBlocks) :
    CommitFits sb s a := by
  cases a with
  | endOp c =>
    intro _
    rcases h with h | ⟨-, h⟩
    · rw [h]
      exact hpos
    · exact h
  | _ => trivial

/-- What `cache_acquire` returns in a session. -/
theorem Inv.acquire_data (h : Inv sb s) {b : ℕ} (hb : ¬ sb.InLog b) (hn : ¬ Held s.cache b) :
    ∃ t, cacheAcquire b s.cache = .ok () t ∧ (t.block b).data = s.last b := by
  have hwp : wp (cacheAcquire b) (fun _ t => (t.block b).data = s.last b) (fun _ _ => False)
      s.cache := by
    rw [wp_cacheAcquire, if_neg hn]
    exact h.coh.acquire_data hb hn
  obtain ⟨⟨⟩, t, ht, hd⟩ := hwp.total
  exact ⟨t, ht, hd⟩

/-- What the device holds after the end of an operation. -/
theorem Inv.endOp_disk (h : Inv sb s) {c : ℕ} (hpos : 0 < sb.numLogBlocks)
    (hc : EndsAlone sb s (.endOp c)) (hs : Bcache.step sb s (.endOp c) = some u) {b : ℕ}
    (hb : ¬ sb.InLog b) : u.cache.disk b = u.last b := by
  obtain ⟨hl, t, ht, rfl⟩ := step_eq hs
  obtain ⟨ws, -, -, he⟩ := (h.wp_endOp (hc.commitFits hpos)).of_ok ht
  show t.disk b = s.last b
  unfold EndOp at he
  split_ifs at he with ho
  · -- another operation is running, so the header lists nothing
    obtain ⟨rfl, -⟩ := he
    rcases hc with hzero | ⟨hone, -⟩
    · have hnot : b ∉ s.cache.header.entries := by
        rw [LogHeader.entries, hzero]
        exact List.not_mem_nil
      exact h.coh.disk b hb hnot
    · have hout := h.outstanding
      rw [hone, List.length_singleton] at hout
      omega
  · exact he.1.coh.disk b hb List.not_mem_nil

/-- Cache and device refine a map: `cache_acquire` returns the content last synced, and
    the device holds it when an operation has ended. -/
theorem cache_coherent {d : ℕ → BlockData} {t₀ : CacheState} (hpos : 0 < sb.numLogBlocks)
    (h0 : initBcache sb (boot d) = .ok () t₀)
    (h : Run (step sb) (EndsAlone sb) (.start t₀) s) :
    (∀ b, ¬ sb.InLog b → ¬ Held s.cache b →
      ∃ t, cacheAcquire b s.cache = .ok () t ∧ (t.block b).data = s.last b) ∧
    ∀ c u, EndsAlone sb s (.endOp c) → step sb s (.endOp c) = some u →
      ∀ b, ¬ sb.InLog b → u.cache.disk b = u.last b := by
  have hboot : Booted sb t₀ := ((wp_initBcache d hpos).of_ok h0).1
  have hinv := Run.inv h hboot.inv fun _ _ ha => ha.commitFits hpos
  exact ⟨fun b hb hn => hinv.acquire_data hb hn, fun c u hc hs b hb => hinv.endOp_disk hpos hc hs hb⟩

/-- The session after `init_bcache` on a device and a list of calls. -/
def sessionAfter (sb : SuperBlock) (d : ℕ → BlockData) (ok : Session → Call → Prop)
    [∀ s a, Decidable (ok s a)] (as : List Call) : Option Session :=
  match initBcache sb (boot d) with
  | .ok _ t => execIf (step sb) ok (.start t) as
  | .error _ _ => none

theorem run_of_sessionAfter {d : ℕ → BlockData} {ok : Session → Call → Prop}
    [∀ s a, Decidable (ok s a)] {as : List Call} (h : sessionAfter sb d ok as = some s) :
    ∃ t₀, initBcache sb (boot d) = .ok () t₀ ∧ Run (step sb) ok (.start t₀) s := by
  unfold sessionAfter at h
  split at h
  · next t ht => exact ⟨t, ht, Run.of_execIf h⟩
  · cases h

/-- A device of zeros. -/
def zeroDisk : ℕ → BlockData := fun _ _ => 0

/-- A block of ones. -/
def ones : BlockData := fun _ => 1

/-- Block 600 is changed by an operation and evicted as far as that goes: twenty-five
    other blocks are read in. -/
def changeAndEvict : List Call :=
  [[.beginOp 0, .acquire 600, .store 600 ones, .sync (some 0) 600, .release 600],
    (List.range 25).flatMap fun i => [Call.acquire (700 + i), .release (700 + i)]].flatten

theorem cache_coherent_evict : ∃ s u, step mockSuperBlock s (.endOp 0) = some u ∧
    (s.last 600).bytes 0 = 1 ∧ 700 ∉ s.cache.list ∧
    (∃ t, cacheAcquire 600 s.cache = .ok () t ∧ (t.block 600).data = s.last 600) ∧
    u.cache.disk 600 = u.last 600 := by
  have hrun : ((sessionAfter mockSuperBlock zeroDisk (EndsAlone mockSuperBlock)
      changeAndEvict).bind fun s => (step mockSuperBlock s (.endOp 0)).map fun _ =>
        decide ((s.last 600).bytes 0 = 1 ∧ 700 ∉ s.cache.list ∧ ¬ Held s.cache 600 ∧
          EndsAlone mockSuperBlock s (.endOp 0))) = some true := by
    decide +kernel
  obtain ⟨s, hs, hx⟩ := Option.bind_eq_some_iff.mp hrun
  obtain ⟨u, hu, hx⟩ := Option.map_eq_some_iff.mp hx
  obtain ⟨hlast, hout, hheld, hends⟩ := of_decide_eq_true hx
  obtain ⟨t₀, h0, hr⟩ := run_of_sessionAfter hs
  obtain ⟨hacq, hend⟩ := cache_coherent (by decide) h0 hr
  exact ⟨s, u, hu, hlast, hout, hacq 600 (by decide) hheld, hend 0 u hends hu 600 (by decide)⟩

/-- Operation 0 changes block 600 and ends while operation 1 of the same process has
    begun: `cache_end_op` returns, and block 600 of the device is still the old one. -/
theorem cache_not_coherent : ¬ ∀ (d : ℕ → BlockData) (t₀ : CacheState) (s : Session),
    initBcache mockSuperBlock (boot d) = .ok () t₀ →
    Run (step mockSuperBlock) anyStep (.start t₀) s →
    ∀ c u, step mockSuperBlock s (.endOp c) = some u →
      ∀ b, ¬ mockSuperBlock.InLog b → u.cache.disk b = u.last b := by
  intro h
  have hrun : ((sessionAfter mockSuperBlock zeroDisk (fun _ _ => True)
      [.beginOp 0, .beginOp 1, .acquire 600, .store 600 ones, .sync (some 0) 600,
        .release 600]).bind fun s => (step mockSuperBlock s (.endOp 0)).map fun u =>
          ((u.cache.disk 600).bytes 0, (u.last 600).bytes 0)) = some (0, 1) := by
    decide +kernel
  obtain ⟨s, hs, hx⟩ := Option.bind_eq_some_iff.mp hrun
  obtain ⟨u, hu, hx⟩ := Option.map_eq_some_iff.mp hx
  obtain ⟨t₀, h0, hr⟩ := run_of_sessionAfter hs
  simp only [Prod.mk.injEq] at hx
  have heq := h zeroDisk t₀ s h0 hr 0 u hu 600 (by decide)
  rw [heq, hx.2] at hx
  exact absurd hx.1 (by decide)

end ShikiOS.Fs.Bcache
