import ShikiOS.Fs.BcacheCoherence

/-!
# Crash atomicity of the log (`fs/cache.c`)

Operations overlap, each of their calls runs as a whole, and every change goes through
the log. The device stops after any number of the writes of a `cache_end_op`, and
`init_bcache` runs on what is left, itself stopped any number of times.

Results:
* `wp_initBcache` makes every recovery of a recoverable device a recovery of a redo log
  (`initWrites_eq`).
* `crash_atomicity`: the blocks outside the log area end up as of the last completed
  commit, or all as of the commit that was cut off.
-/

namespace ShikiOS.Fs.Bcache

open ShikiOS.Lib

/-- All changes go through the log, and a commit finds a block list that fits the log
    area and names blocks outside it. -/
def Journaled (sb : SuperBlock) (s : Session) : Call → Prop
  | .sync none _ => False
  | .endOp _ => s.cache.outstanding ≤ 1 → Replayable sb s.cache.header
  | _ => True

instance (sb : SuperBlock) (h : LogHeader) : Decidable (Replayable sb h) :=
  inferInstanceAs (Decidable (_ ∧ ∀ b ∈ h.entries, ¬ sb.InLog b))

instance (sb : SuperBlock) (s : Session) : ∀ a, Decidable (Journaled sb s a)
  | .sync none _ => inferInstanceAs (Decidable False)
  | .endOp _ => inferInstanceAs (Decidable
      (s.cache.outstanding ≤ 1 → Replayable sb s.cache.header))
  | .sync (some _) _ | .acquire _ | .store _ _ | .release _ | .beginOp _ =>
    inferInstanceAs (Decidable True)

/-- The writes of `init_bcache` on a device. -/
def initWrites (sb : SuperBlock) (d : ℕ → BlockData) : List (ℕ × BlockData) :=
  match initBcache sb (boot d) with
  | .ok _ t => t.writes.map Write.pair
  | .error _ t => t.writes.map Write.pair

variable {sb : SuperBlock} {s u : Session} {a : Call} {d : ℕ → BlockData}

theorem Journaled.commitFits (h : Journaled sb s a) : CommitFits sb s a := by
  cases a with
  | endOp c => exact fun ho => (h ho).1
  | _ => trivial

/-! ## Recovery -/

/-- A device that a redo log can recover has a header that `init_log` can replay. -/
theorem replayable_of_recoverable (hpos : 0 < sb.numLogBlocks)
    (h : (redoLog sb).Recoverable d) : Replayable sb (LogHeader.decode (d sb.logStart)) := by
  obtain ⟨m, hs | ⟨es, hl⟩⟩ := h
  · have hnil : (LogHeader.decode (d sb.logStart)).entries = [] := by
      rw [← redoLog_entries sb]
      exact hs.empty
    have hlen := LogHeader.length_entries (LogHeader.decode (d sb.logStart))
    rw [hnil, List.length_nil] at hlen
    refine ⟨by omega, fun b hb => ?_⟩
    rw [hnil] at hb
    cases hb
  · have hes : (LogHeader.decode (d sb.logStart)).entries = es := by
      rw [← redoLog_entries sb]
      exact hl.entries
    have hlen := LogHeader.length_entries (LogHeader.decode (d sb.logStart))
    have hsize : es.length ≤ sb.numLogBlocks - 1 := hl.size
    rw [hes] at hlen
    refine ⟨by omega, fun b hb => ?_⟩
    rw [hes] at hb
    exact fun hin => hl.outside b hb ((inArea_iff hpos b).mpr hin)

/-- On a recoverable device `init_bcache` returns, and it writes what a redo log writes. -/
theorem init_of_recoverable (hpos : 0 < sb.numLogBlocks) (h : (redoLog sb).Recoverable d) :
    ∃ t, initBcache sb (boot d) = .ok () t ∧ Booted sb t ∧
      t.writes.map Write.pair = (redoLog sb).recoverWrites d ∧
      t.disk = RedoLog.applyWrites d ((redoLog sb).recoverWrites d) := by
  have hr := replayable_of_recoverable hpos h
  have hwp := wp_mono (wp_initBcache d hpos) (fun _ _ hq => hq) fun _ _ he => he hr
  obtain ⟨⟨⟩, t, ht, hb, hw⟩ := hwp.total
  exact ⟨t, ht, hb, hw hr⟩

theorem initWrites_eq (hpos : 0 < sb.numLogBlocks) (h : (redoLog sb).Recoverable d) :
    initWrites sb d = (redoLog sb).recoverWrites d := by
  obtain ⟨t, ht, -, hw, -⟩ := init_of_recoverable hpos h
  unfold initWrites
  rw [ht]
  exact hw

/-! ## The device between commits -/

/-- The device holds the blocks of the last completed commit and an empty header, and
    only blocks of the header have changed since. -/
structure Durable (sb : SuperBlock) (s : Session) : Prop where
  settled : (redoLog sb).Settled s.cache.disk s.durable
  unchanged : ∀ b, b ∉ s.cache.header.entries → s.last b = s.durable b

theorem Booted.durable {t : CacheState} (h : Booted sb t) : Durable sb (.start t) := by
  refine ⟨⟨?_, fun _ _ => rfl⟩, fun _ _ => rfl⟩
  rw [redoLog_entries]
  show (LogHeader.decode (t.disk sb.logStart)).entries = []
  rw [LogHeader.entries, h.diskHeader]
  rfl

/-- Nothing that `Durable` looks at has changed. -/
theorem Durable.of_eq (h : Durable sb s) (hd : u.cache.disk = s.cache.disk)
    (he : u.cache.header = s.cache.header) (hl : u.last = s.last) (hm : u.durable = s.durable) :
    Durable sb u :=
  ⟨by rw [hd, hm]; exact h.settled, by rw [he, hl, hm]; exact h.unchanged⟩

/-- A commit that is not cut off leaves the blocks of the commit and an empty header. -/
theorem settled_of_commit {σ : ℕ → BlockData} {t : CacheState} {ws : List Write}
    (hpos : 0 < sb.numLogBlocks) (hcoh : Coh sb σ [] t) (htr : Trace s.cache t ws)
    (hws : ws.map Write.pair = (redoLog sb).commitWrites σ s.cache.header.entries
      s.cache.header.encode s.cache.header.clear.encode) :
    (redoLog sb).Settled t.disk σ := by
  constructor
  · have hhead : t.disk (redoLog sb).header = s.cache.header.clear.encode := by
      rw [htr.disk, hws, RedoLog.Format.commitWrites, RedoLog.applyWrites_append,
        RedoLog.applyWrites_cons, RedoLog.applyWrites_append, RedoLog.applyWrites_cons,
        RedoLog.applyWrites_nil]
      exact Function.update_self _ _ _
    rw [hhead, redoLog_entries, LogHeader.entries_decode_clear]
  · intro b hb
    exact hcoh.disk b (fun hin => hb ((inArea_iff hpos b).mpr hin)) List.not_mem_nil

/-- The end of an operation is the end of a commit exactly if no other one is running. -/
theorem Inv.erase_eq_nil (h : Inv sb s) {c : ℕ} (hc : c ∈ s.running) :
    s.running.erase c = [] ↔ ¬ s.cache.outstanding - 1 > 0 := by
  have hpos := List.length_pos_of_mem hc
  have hlen := List.length_erase_of_mem hc
  have hout := h.outstanding
  rw [← List.length_eq_zero_iff]
  omega

theorem Durable.endOp {c : ℕ} {t : CacheState} {ws : List Write} (h : Durable sb s)
    (hi : Inv sb s) (hpos : 0 < sb.numLogBlocks) (hc : c ∈ s.running)
    (hr : s.cache.outstanding ≤ 1 → Replayable sb s.cache.header) (htr : Trace s.cache t ws)
    (he : EndOp sb s.last s.cache t ws) : Durable sb (s.record t (.endOp c)) := by
  have hnil := hi.erase_eq_nil hc
  unfold EndOp at he
  split_ifs at he with ho
  · obtain ⟨rfl, -⟩ := he
    have hne : s.running.erase c ≠ [] := fun e => hnil.mp e ho
    exact h.of_eq rfl rfl rfl (if_neg hne)
  · obtain ⟨hcom, hws⟩ := he
    have hm : (s.record t (.endOp c)).durable = s.last := if_pos (hnil.mpr ho)
    have hset := settled_of_commit hpos hcom.coh htr (hws (hr (by omega)).2)
    exact ⟨by rw [hm]; exact hset, fun b _ => by rw [hm]; rfl⟩

theorem Durable.step (h : Durable sb s) (hi : Inv sb s) (hpos : 0 < sb.numLogBlocks)
    (hj : Journaled sb s a) (hs : Bcache.step sb s a = some u) : Durable sb u := by
  obtain ⟨hl, t, ht, rfl⟩ := step_eq hs
  cases a with
  | acquire b =>
    have hwp : wp (cacheAcquire b) (fun _ t => t = acquire s.cache b) (fun _ _ => False)
        s.cache := by
      rw [wp_cacheAcquire, if_neg hl.2]
    rw [hwp.of_ok ht]
    exact h.of_eq (acquire_disk _ b) (sameLog_acquire _ b).header rfl rfl
  | store b d =>
    cases ht
    exact h.of_eq rfl rfl rfl rfl
  | sync ctx b =>
    cases ctx with
    | none => exact hj.elim
    | some c =>
      have hwp : wp (cacheSync (some c) b .direct)
          (fun _ t => t.disk = s.cache.disk ∧ s.cache.header.Appended t.header b)
          (fun _ _ => True) s.cache := by
        rw [wp_cacheSync_some]
        split
        · trivial
        · next header rm hap => exact ⟨rfl, logAppend_ok hap⟩
      obtain ⟨hd, hap⟩ := hwp.of_ok ht
      refine ⟨?_, fun x hx => ?_⟩
      · show (redoLog sb).Settled t.disk s.durable
        rw [hd]
        exact h.settled
      · have hxb : x ≠ b := fun e => hx (e ▸ hap.mem)
        exact (Function.update_of_ne hxb _ _).trans (h.unchanged x fun hm => hx (hap.mono x hm))
  | release b =>
    cases ht
    exact h.of_eq rfl rfl rfl rfl
  | beginOp c =>
    rw [(wp_cacheBeginOp hi.sem).of_ok ht]
    exact h.of_eq rfl rfl rfl rfl
  | endOp c =>
    obtain ⟨ws, htr, -, he⟩ := (hi.wp_endOp hj.commitFits).of_ok ht
    exact h.endOp hi hpos hl.1 hj htr he

/-! ## Crashes -/

/-- What a complete recovery of a device leaves, if the redo log settles it at `m`. -/
theorem init_settled {m : ℕ → BlockData} (hpos : 0 < sb.numLogBlocks)
    (hr : (redoLog sb).Recoverable d)
    (hm : (redoLog sb).Settled (RedoLog.applyWrites d (initWrites sb d)) m) :
    ∃ t, initBcache sb (boot d) = .ok () t ∧
      (LogHeader.decode (t.disk sb.logStart)).numBlocks = 0 ∧ ∀ b, ¬ sb.InLog b → t.disk b = m b := by
  obtain ⟨t, ht, hb, -, hd⟩ := init_of_recoverable hpos hr
  rw [initWrites_eq hpos hr, ← hd] at hm
  exact ⟨t, ht, hb.diskHeader, fun b hlog =>
    hm.content b fun hin => hlog ((inArea_iff hpos b).mp hin)⟩

/-- A crash during a `cache_end_op` leaves a device from which any number of recoveries,
    all but the last one cut off, reach the last completed commit or the one in progress. -/
theorem Durable.crash {k : ℕ} {t : CacheState} {ws : List Write} (h : Durable sb s)
    (hi : Inv sb s) (hpos : 0 < sb.numLogBlocks)
    (hr : s.cache.outstanding ≤ 1 → Replayable sb s.cache.header)
    (he : EndOp sb s.last s.cache t ws)
    (hcut : RedoLog.Format.CutRecoveries (initWrites sb)
      (RedoLog.applyWrites s.cache.disk ((ws.map Write.pair).take k)) d) :
    (redoLog sb).Recoverable d ∧
      ((redoLog sb).Settled (RedoLog.applyWrites d (initWrites sb d)) s.durable ∨
        (redoLog sb).Settled (RedoLog.applyWrites d (initWrites sb d)) s.last) := by
  have hrec : ∀ d, (redoLog sb).Recoverable d → initWrites sb d = (redoLog sb).recoverWrites d :=
    fun d hd => initWrites_eq hpos hd
  unfold EndOp at he
  split_ifs at he with ho
  · obtain ⟨-, rfl⟩ := he
    rw [List.map_nil, List.take_nil, RedoLog.applyWrites_nil] at hcut
    have hset := hcut.settled hrec h.settled
    refine ⟨⟨_, .inl hset⟩, .inl ?_⟩
    rw [hrec d ⟨_, .inl hset⟩]
    exact hset.recover
  · obtain ⟨-, hws⟩ := he
    obtain ⟨hn, hout⟩ := hr (by omega)
    rw [hws hout] at hcut
    have hlen := LogHeader.length_entries s.cache.header
    have hentries : (redoLog sb).entries s.cache.header.encode = s.cache.header.entries := by
      rw [redoLog_entries, LogHeader.entries_decode_encode hi.size hi.words]
    have hclear : (redoLog sb).entries s.cache.header.clear.encode = [] := by
      rw [redoLog_entries, LogHeader.entries_decode_clear]
    have hsize : s.cache.header.entries.length ≤ (redoLog sb).capacity := by
      show _ ≤ sb.numLogBlocks - 1
      omega
    exact RedoLog.Format.crash_atomic hrec h.settled hsize
      (fun b hb hin => hout b hb ((inArea_iff hpos b).mp hin)) h.unchanged hentries hclear k hcut

/-- Crash atomicity: in every run, `cache_end_op` returns, and if the device takes only
    the first `k` of its writes, then any number of recoveries that are cut off and a last
    one that is not leave all blocks as of the last completed commit, or all as of the
    commit in progress. -/
theorem crash_atomicity {d₀ : ℕ → BlockData} {t₀ : CacheState} (hpos : 0 < sb.numLogBlocks)
    (h0 : initBcache sb (boot d₀) = .ok () t₀)
    (h : Run (step sb) (Journaled sb) (.start t₀) s) {c : ℕ} (hl : Legal s (.endOp c))
    (hj : Journaled sb s (.endOp c)) :
    ∃ t ws, cacheEndOp sb c s.cache = .ok () t ∧ t.writes = s.cache.writes ++ ws ∧
      t.disk = RedoLog.applyWrites s.cache.disk (ws.map Write.pair) ∧
      ∀ k d, RedoLog.Format.CutRecoveries (initWrites sb)
          (RedoLog.applyWrites s.cache.disk ((ws.map Write.pair).take k)) d →
        ∃ u, initBcache sb (boot d) = .ok () u ∧
          (LogHeader.decode (u.disk sb.logStart)).numBlocks = 0 ∧
          ((∀ b, ¬ sb.InLog b → u.disk b = s.durable b) ∨
            ∀ b, ¬ sb.InLog b → u.disk b = s.last b) ∧
          ∀ b, ¬ sb.InLog b → b ∉ s.cache.header.entries → u.disk b = s.cache.disk b := by
  have hboot : Booted sb t₀ := ((wp_initBcache d₀ hpos).of_ok h0).1
  obtain ⟨hi, hd⟩ : Inv sb s ∧ Durable sb s :=
    h.invariant (I := fun s => Inv sb s ∧ Durable sb s) ⟨hboot.inv, hboot.durable⟩
      fun _ _ _ hI hj hs => ⟨hI.1.step hj.commitFits hs, hI.2.step hI.1 hpos hj hs⟩
  have hwp := wp_mono (hi.wp_endOp hj.commitFits) (fun _ _ hq => hq)
    fun _ _ ⟨_, _, _, ho, hstop⟩ => hstop ⟨hl.2, (hj ho).2⟩
  obtain ⟨⟨⟩, t, ht, ws, htr, -, he⟩ := hwp.total
  refine ⟨t, ws, ht, htr.writes, htr.disk, fun k d hcut => ?_⟩
  -- blocks that the header does not list are the same in both outcomes
  have hsame : ∀ b, ¬ sb.InLog b → b ∉ s.cache.header.entries →
      s.cache.disk b = s.durable b ∧ s.last b = s.durable b := fun b hlog hb =>
    ⟨hd.settled.content b fun hin => hlog ((inArea_iff hpos b).mp hin), hd.unchanged b hb⟩
  obtain ⟨hrec, hm | hm⟩ := hd.crash hi hpos hj he hcut
  · obtain ⟨u, hu, hzero, hall⟩ := init_settled hpos hrec hm
    exact ⟨u, hu, hzero, .inl hall, fun b hlog hb =>
      (hall b hlog).trans (hsame b hlog hb).1.symm⟩
  · obtain ⟨u, hu, hzero, hall⟩ := init_settled hpos hrec hm
    exact ⟨u, hu, hzero, .inr hall, fun b hlog hb =>
      (hall b hlog).trans ((hsame b hlog hb).2.trans (hsame b hlog hb).1.symm)⟩

/-- Operations 0 and 1 overlap and change blocks 600 and 601; the end of 1 commits both. -/
def overlappingOperations : List Call :=
  [.beginOp 0, .acquire 600, .beginOp 1, .store 600 ones, .sync (some 0) 600, .acquire 601,
    .release 600, .store 601 ones, .sync (some 1) 601, .release 601, .endOp 0]

theorem crash_atomicity_overlapping : ∃ (s : Session) (t : CacheState) (ws : List Write),
    s.cache.header.entries = [600, 601] ∧
    (s.durable 600).bytes 0 = 0 ∧ (s.last 600).bytes 0 = 1 ∧
    cacheEndOp mockSuperBlock 1 s.cache = .ok () t ∧ t.writes = s.cache.writes ++ ws ∧
    ∀ k d, RedoLog.Format.CutRecoveries (initWrites mockSuperBlock)
        (RedoLog.applyWrites s.cache.disk ((ws.map Write.pair).take k)) d →
      ∃ u, initBcache mockSuperBlock (boot d) = .ok () u ∧
        (u.disk 600 = s.durable 600 ∧ u.disk 601 = s.durable 601 ∨
          u.disk 600 = s.last 600 ∧ u.disk 601 = s.last 601) := by
  have hrun : ((sessionAfter mockSuperBlock zeroDisk (Journaled mockSuperBlock)
      overlappingOperations).map fun s =>
        decide (s.cache.header.entries = [600, 601] ∧ (s.durable 600).bytes 0 = 0 ∧
          (s.last 600).bytes 0 = 1 ∧ Legal s (.endOp 1) ∧
          Journaled mockSuperBlock s (.endOp 1))) = some true := by
    decide +kernel
  obtain ⟨s, hs, hx⟩ := Option.map_eq_some_iff.mp hrun
  obtain ⟨hentries, hold, hnew, hlegal, hj⟩ := of_decide_eq_true hx
  obtain ⟨t₀, h0, hr⟩ := run_of_sessionAfter hs
  obtain ⟨t, ws, ht, hw, -, hcrash⟩ := crash_atomicity (by decide) h0 hr hlegal hj
  refine ⟨s, t, ws, hentries, hold, hnew, ht, hw, fun k d hcut => ?_⟩
  obtain ⟨u, hu, -, hall, -⟩ := hcrash k d hcut
  have h600 : ¬ mockSuperBlock.InLog 600 := by decide
  have h601 : ¬ mockSuperBlock.InLog 601 := by decide
  exact ⟨u, hu, hall.imp (fun h => ⟨h 600 h600, h 601 h601⟩) fun h => ⟨h 600 h600, h 601 h601⟩⟩

end ShikiOS.Fs.Bcache
