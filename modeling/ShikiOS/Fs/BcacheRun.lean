import ShikiOS.Lib.Run
import ShikiOS.Fs.BcacheCommit

/-!
# Runs of the block cache (`fs/cache.c`)

Sequences of calls that do not interleave, by one caller or by operations that take
turns. A `Session` is the cache together with what its callers have done: the content
last synced for each block, and the content that the last completed commit left.

Results: `Run.inv`, the invariant of all runs whose commits fit into the log area.
-/

namespace ShikiOS.Fs.Bcache

open ShikiOS.Lib

/-! ## Calls -/

/-- The calls of the interface, and a change of the data of a block. -/
inductive Call
  | acquire (b : ℕ)
  | store (b : ℕ) (d : BlockData)
  | sync (ctx : Option ℕ) (b : ℕ)
  | release (b : ℕ)
  | beginOp (ctx : ℕ)
  | endOp (ctx : ℕ)

def Call.run (sb : SuperBlock) : Call → M Unit
  | .acquire b => cacheAcquire b
  | .store b d => writeBlock b d
  | .sync ctx b => cacheSync ctx b .direct
  | .release b => cacheRelease b
  | .beginOp c => cacheBeginOp c
  | .endOp c => cacheEndOp sb c

/-- The cache and the history of the calls: the content last synced for each block, the
    content as of the last completed commit, the operations that have begun and not
    ended, and the blocks changed since they were synced. -/
structure Session where
  cache : CacheState
  last : ℕ → BlockData
  durable : ℕ → BlockData
  running : List ℕ
  changed : ℕ → Bool

/-- The session right after `init_bcache` has returned in `t`. -/
def Session.start (t : CacheState) : Session := ⟨t, t.disk, t.disk, [], fun _ => false⟩

/-- The session after a call that has returned in `t`. The end of the last operation is
    the end of a commit. -/
def Session.record (s : Session) (t : CacheState) : Call → Session
  | .acquire _ => { s with cache := t }
  | .store b _ => { s with cache := t, changed := Function.update s.changed b true }
  | .sync _ b => { s with
      cache := t
      last := Function.update s.last b (s.cache.block b).data
      changed := Function.update s.changed b false }
  | .release _ => { s with cache := t }
  | .beginOp c => { s with cache := t, running := c :: s.running }
  | .endOp c => { s with
      cache := t
      running := s.running.erase c
      durable := if s.running.erase c = [] then s.last else s.durable }

theorem noneHeld_iff (s : CacheState) :
    NoneHeld s ↔ ∀ b ∈ s.list, (s.block b).acquired = false := by
  simp only [NoneHeld, Held, not_and, Bool.not_eq_true]

instance (s : CacheState) : Decidable (NoneHeld s) := decidable_of_iff _ (noneHeld_iff s).symm

/-- How the cache is used: a block that is held is not acquired again, a changed block is
    synced before it is released, an operation stays within its budget, and no block is
    held at the end of an operation. Block numbers are 64-bit words. -/
def Legal (s : Session) : Call → Prop
  | .acquire b => b < 2 ^ 64 ∧ ¬ Held s.cache b
  | .store b _ => Held s.cache b
  | .sync none b => Held s.cache b
  | .sync (some c) b => b < 2 ^ 64 ∧ Held s.cache b ∧ c ∈ s.running ∧
      (b ∈ s.cache.header.entries ∨ 0 < s.cache.rm c)
  | .release b => Held s.cache b ∧ s.changed b = false
  | .beginOp c => c ∉ s.running
  | .endOp c => c ∈ s.running ∧ NoneHeld s.cache

instance (s : Session) (a : Call) : Decidable (Legal s a) := by
  unfold Legal
  split <;> infer_instance

/-- A call that is legal and returns. -/
def step (sb : SuperBlock) (s : Session) (a : Call) : Option Session :=
  if Legal s a then
    match a.run sb s.cache with
    | .ok _ t => some (s.record t a)
    | .error _ _ => none
  else none

variable {sb : SuperBlock} {s u : Session} {a : Call}

theorem step_eq (h : step sb s a = some u) :
    Legal s a ∧ ∃ t, a.run sb s.cache = .ok () t ∧ u = s.record t a := by
  unfold step at h
  split_ifs at h with hl
  split at h
  · next t ht => exact ⟨hl, t, ht, (Option.some.inj h).symm⟩
  · cases h

/-- Every commit of the run fits into the log area. -/
def CommitFits (sb : SuperBlock) (s : Session) : Call → Prop
  | .endOp _ => s.cache.outstanding ≤ 1 → s.cache.header.numBlocks + 1 ≤ sb.numLogBlocks
  | _ => True

/-! ## The invariant -/

/-- Cache and device represent the content last synced, and the log layer is between two
    calls. -/
structure Inv (sb : SuperBlock) (s : Session) : Prop where
  coh : Coh sb s.last s.cache.header.entries s.cache
  held : ∀ b, Held s.cache b → ¬ sb.InLog b → s.changed b = false →
    (s.cache.block b).data = s.last b
  nodup : s.cache.header.entries.Nodup
  size : s.cache.header.numBlocks ≤ logMaxSize
  words : ∀ b ∈ s.cache.header.entries, b < 2 ^ 64
  running : s.running.Nodup
  outstanding : s.cache.outstanding = s.running.length
  committing : s.cache.committing = false
  sem : s.cache.sem = Sem.init 0

theorem Booted.inv {t : CacheState} (h : Booted sb t) : Inv sb (.start t) := by
  have hnil : t.header.entries = [] := by rw [LogHeader.entries, h.header]; rfl
  refine ⟨?_, fun b hb => absurd hb (h.held b), ?_, ?_, ?_, List.nodup_nil, h.outstanding,
    h.committing, h.sem⟩
  · show Coh sb t.disk t.header.entries t
    rw [hnil]
    exact h.coh
  · show t.header.entries.Nodup
    rw [hnil]
    exact List.nodup_nil
  · show t.header.numBlocks ≤ logMaxSize
    rw [h.header]
    exact Nat.zero_le _
  · show ∀ b ∈ t.header.entries, b < 2 ^ 64
    rw [hnil]
    exact fun b hb => (List.not_mem_nil hb).elim

theorem Inv.acquire {b : ℕ} (h : Inv sb s) (hb : ¬ Held s.cache b) :
    Inv sb { s with cache := Bcache.acquire s.cache b } := by
  have hl := sameLog_acquire s.cache b
  refine ⟨?_, fun c hc hlog hch => ?_, ?_, ?_, ?_, h.running, hl.outstanding.trans h.outstanding,
    hl.committing.trans h.committing, hl.sem.trans h.sem⟩
  · show Coh sb s.last (Bcache.acquire s.cache b).header.entries _
    rw [hl.header]
    exact h.coh.acquire hb
  · by_cases hcb : c = b
    · subst hcb
      exact h.coh.acquire_data hlog hb
    · show ((Bcache.acquire s.cache b).block c).data = s.last c
      rw [acquire_block_of_ne _ hcb]
      exact h.held c (((held_acquire hb).mp hc).resolve_left hcb) hlog hch
  all_goals simp only [hl.header]
  exacts [h.nodup, h.size, h.words]

theorem Inv.store {b : ℕ} {d : BlockData} (h : Inv sb s) (hb : Held s.cache b) :
    Inv sb { s with
      cache := setBlock s.cache b { s.cache.block b with data := d }
      changed := Function.update s.changed b true } := by
  refine ⟨h.coh.setBlock hb.2 fun he => (h.coh.logged b he).2, fun c hc hlog hch => ?_, h.nodup,
    h.size, h.words, h.running, h.outstanding, h.committing, h.sem⟩
  by_cases hcb : c = b
  · subst hcb
    simp at hch
  · show ((setBlock s.cache b _).block c).data = s.last c
    rw [setBlock_block_of_ne _ _ _ hcb]
    have hc' : Held s.cache c :=
      (held_setBlock (k := { s.cache.block b with data := d }) rfl).mp hc
    exact h.held c hc' hlog ((Function.update_of_ne hcb _ _).symm.trans hch)

theorem Inv.release {b : ℕ} (h : Inv sb s) (hb : Held s.cache b) (hch : s.changed b = false) :
    Inv sb { s with cache := Bcache.release s.cache b } := by
  refine ⟨h.coh.release fun hlog => h.held b hb hlog hch, fun c hc hlog hch' => ?_, h.nodup,
    h.size, h.words, h.running, h.outstanding, h.committing, h.sem⟩
  obtain ⟨hcb, hc'⟩ := held_release.mp hc
  show ((Bcache.release s.cache b).block c).data = s.last c
  rw [Bcache.release, setBlock_block_of_ne _ _ _ hcb]
  exact h.held c hc' hlog hch'

/-- After a sync a block is as it was last synced. -/
theorem Inv.held_sync {b : ℕ} (h : Inv sb s) {c : ℕ} (hc : Held s.cache c) (hlog : ¬ sb.InLog c)
    (hch : Function.update s.changed b false c = false) :
    (s.cache.block c).data = Function.update s.last b (s.cache.block b).data c := by
  by_cases hcb : c = b
  · subst hcb; rw [Function.update_self]
  · rw [Function.update_of_ne hcb] at hch ⊢
    exact h.held c hc hlog hch

theorem Inv.syncNone {b : ℕ} (h : Inv sb s) (hb : Held s.cache b) :
    Inv sb { s with
      cache := written s.cache .direct b (s.cache.block b).data
      last := Function.update s.last b (s.cache.block b).data
      changed := Function.update s.changed b false } :=
  ⟨h.coh.written hb, fun _ hc hlog hch => h.held_sync hc hlog hch, h.nodup, h.size, h.words,
    h.running, h.outstanding, h.committing, h.sem⟩

theorem Inv.syncSome {b : ℕ} {header : LogHeader} {rm : ℕ → ℕ} (h : Inv sb s)
    (hb : Held s.cache b) (hlt : b < 2 ^ 64) (ha : s.cache.header.Appended header b) :
    Inv sb { s with
      cache := { setBlock s.cache b { s.cache.block b with pinned := true } with
        header := header
        rm := rm }
      last := Function.update s.last b (s.cache.block b).data
      changed := Function.update s.changed b false } := by
  refine ⟨(h.coh.sync hb ha.mono ha.only ha.mem).of_eq rfl rfl rfl, fun c hc hlog hch => ?_,
    ha.nodup h.nodup, ha.size h.size, fun c hc => ?_, h.running, h.outstanding, h.committing,
    h.sem⟩
  · have hc' : Held s.cache c :=
      (held_setBlock (k := { s.cache.block b with pinned := true }) rfl).mp hc
    refine Eq.trans ?_ (h.held_sync hc' hlog hch)
    show ((setBlock s.cache b _).block c).data = _
    by_cases hcb : c = b
    · subst hcb; rw [setBlock_block_self]
    · rw [setBlock_block_of_ne _ _ _ hcb]
  · rcases ha.only c hc with hc | rfl
    · exact h.words c hc
    · exact hlt

theorem Inv.beginOp {c : ℕ} {rm : ℕ → ℕ} (h : Inv sb s) (hc : c ∉ s.running) :
    Inv sb { s with
      cache := { s.cache with rm := rm, outstanding := s.cache.outstanding + 1 }
      running := c :: s.running } := by
  refine ⟨h.coh.of_eq rfl rfl rfl, h.held, h.nodup, h.size, h.words,
    List.nodup_cons.mpr ⟨hc, h.running⟩, ?_, h.committing, h.sem⟩
  show s.cache.outstanding + 1 = _
  rw [h.outstanding, List.length_cons]
  push_cast
  rfl

/-- The end of an operation, with or without a commit. -/
theorem Inv.endOp {c : ℕ} {t : CacheState} {ws : List Write} (h : Inv sb s) (hc : c ∈ s.running)
    (hn : NoneHeld s.cache) (he : EndOp sb s.last s.cache t ws) :
    Inv sb (s.record t (.endOp c)) := by
  have hpos := List.length_pos_of_mem hc
  have hlen := List.length_erase_of_mem hc
  have hout := h.outstanding
  have hcount : s.cache.outstanding - 1 = ((s.running.erase c).length : ℤ) := by
    rw [hlen, hout]
    omega
  unfold EndOp at he
  split_ifs at he with ho
  · obtain ⟨rfl, -⟩ := he
    exact ⟨h.coh.of_eq rfl rfl rfl, h.held, h.nodup, h.size, h.words, h.running.erase c, hcount,
      h.committing, h.sem⟩
  · obtain ⟨hcom, -⟩ := he
    have hnil : t.header.entries = [] := by rw [hcom.header, LogHeader.entries_clear]
    refine ⟨?_, fun b hb => absurd hb (hcom.held.noneHeld hn b), ?_, ?_, ?_, h.running.erase c,
      hcom.outstanding.trans hcount, hcom.committing, hcom.sem.trans h.sem⟩
    · show Coh sb s.last t.header.entries t
      rw [hnil]
      exact hcom.coh
    · show t.header.entries.Nodup
      rw [hnil]
      exact List.nodup_nil
    · show t.header.numBlocks ≤ logMaxSize
      rw [hcom.header]
      exact Nat.zero_le _
    · show ∀ b ∈ t.header.entries, b < 2 ^ 64
      rw [hnil]
      exact fun b hb => (List.not_mem_nil hb).elim

/-! ## Runs -/

/-- What `cache_end_op` does in a session. -/
theorem Inv.wp_endOp {c : ℕ} (h : Inv sb s) (hfits : CommitFits sb s (.endOp c)) :
    wp (cacheEndOp sb c)
      (fun _ t => ∃ ws, Trace s.cache t ws ∧ HomeOnly sb ws ∧ EndOp sb s.last s.cache t ws)
      (fun _ t => ∃ ws, Trace s.cache t ws ∧ HomeOnly sb ws ∧ s.cache.outstanding ≤ 1 ∧
        ¬ (NoneHeld s.cache ∧ Outside sb s.cache.header.entries)) s.cache :=
  wp_cacheEndOp h.coh h.nodup hfits h.sem h.committing

theorem Inv.step (h : Inv sb s) (hfits : CommitFits sb s a) (hs : step sb s a = some u) :
    Inv sb u := by
  obtain ⟨hl, t, ht, rfl⟩ := step_eq hs
  cases a with
  | acquire b =>
    have hwp : wp (cacheAcquire b) (fun _ t => t = Bcache.acquire s.cache b) (fun _ _ => False)
        s.cache := by
      rw [wp_cacheAcquire, if_neg hl.2]
    rw [hwp.of_ok ht]
    exact h.acquire hl.2
  | store b d =>
    cases ht
    exact h.store hl
  | sync ctx b =>
    cases ctx with
    | none =>
      cases ht
      exact h.syncNone hl
    | some c =>
      obtain ⟨hlt, hb, -⟩ := hl
      have hwp : wp (cacheSync (some c) b .direct) (fun _ t => Inv sb (s.record t (.sync (some c) b)))
          (fun _ _ => True) s.cache := by
        rw [wp_cacheSync_some]
        split
        · trivial
        · next header rm hap => exact h.syncSome hb hlt (logAppend_ok hap)
      exact hwp.of_ok ht
  | release b =>
    cases ht
    exact h.release hl.1 hl.2
  | beginOp c =>
    rw [(wp_cacheBeginOp h.sem).of_ok ht]
    exact h.beginOp hl
  | endOp c =>
    obtain ⟨ws, -, -, he⟩ := (h.wp_endOp hfits).of_ok ht
    exact h.endOp hl.1 hl.2 he

theorem Run.inv {ok : Session → Call → Prop} {s₀ : Session} (h : Run (step sb) ok s₀ s)
    (h0 : Inv sb s₀) (hok : ∀ s a, ok s a → CommitFits sb s a) : Inv sb s :=
  h.invariant h0 fun _ _ _ hi ha hs => hi.step (hok _ _ ha) hs

end ShikiOS.Fs.Bcache
