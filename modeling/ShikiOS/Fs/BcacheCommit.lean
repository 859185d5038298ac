import ShikiOS.Fs.BcacheInvariant

/-!
# Commit and recovery (`fs/cache.c`)

The loops of `cache_end_op` and `init_log` acquire blocks like any caller, so they may
evict blocks and may find a block held. The log area is a redo log in the sense of
`Lib.RedoLog`.

Results:
* `wp_commit`: a commit empties the header and keeps the map that cache and device
  represent. Outside the log area it writes in the checkpoint only, and when all listed
  blocks are outside, its writes are those of a redo log.
* `wp_initBcache`: recovery leaves a cache that agrees with the device, and replays a
  recoverable log as a redo log does.
-/

namespace ShikiOS.Fs.Bcache

open ShikiOS.Lib

/-- The log area as a redo log: the header block and one slot behind it for each entry. -/
def redoLog (sb : SuperBlock) : RedoLog.Format ℕ BlockData where
  header := sb.logStart
  slot i := sb.logStart + (i + 1)
  capacity := sb.numLogBlocks - 1
  entries d := (LogHeader.decode d).entries
  clear d := (LogHeader.decode d).clear.encode
  entries_clear _ := LogHeader.entries_decode_clear _
  slot_inj i j _ _ h := by omega
  slot_ne i _ h := by omega

@[simp] theorem redoLog_header (sb : SuperBlock) : (redoLog sb).header = sb.logStart := rfl

@[simp] theorem redoLog_entries (sb : SuperBlock) (x : BlockData) :
    (redoLog sb).entries x = (LogHeader.decode x).entries := by simp only [redoLog]

@[simp] theorem redoLog_clear (sb : SuperBlock) (x : BlockData) :
    (redoLog sb).clear x = (LogHeader.decode x).clear.encode := by simp only [redoLog]

theorem inArea_iff {sb : SuperBlock} (h : 0 < sb.numLogBlocks) (b : ℕ) :
    (redoLog sb).InArea b ↔ sb.InLog b := by
  unfold RedoLog.Format.InArea SuperBlock.InLog
  simp only [redoLog]
  constructor
  · rintro (rfl | ⟨i, hi, rfl⟩) <;> omega
  · rintro ⟨h1, h2⟩
    by_cases hb : b = sb.logStart
    · exact .inl hb
    · exact .inr ⟨b - sb.logStart - 1, by omega, by omega⟩

variable {sb : SuperBlock} {σ : ℕ → BlockData} {es : List ℕ} {s t : CacheState} {b : ℕ}

/-- Outside the log area the device is written by checkpoints only. -/
def HomeOnly (sb : SuperBlock) (ws : List Write) : Prop :=
  ∀ w ∈ ws, ¬ sb.InLog w.blockNo → w.origin = .home

theorem HomeOnly.append {ws ws' : List Write} (h : HomeOnly sb ws) (h' : HomeOnly sb ws') :
    HomeOnly sb (ws ++ ws') := by
  intro w hw
  rcases List.mem_append.mp hw with hw | hw
  · exact h w hw
  · exact h' w hw

theorem homeOnly_nil : HomeOnly sb [] := fun _ h => by cases h

theorem homeOnly_log {o : Origin} {d : BlockData} (h : sb.InLog b) : HomeOnly sb [⟨o, b, d⟩] := by
  intro w hw hn
  rw [List.mem_singleton.mp hw] at hn
  exact absurd h hn

theorem homeOnly_home {d : BlockData} : HomeOnly sb [⟨.home, b, d⟩] := by
  intro w hw _
  rw [List.mem_singleton.mp hw]

/-- All blocks listed are outside the log area. -/
def Outside (sb : SuperBlock) (es : List ℕ) : Prop := ∀ b ∈ es, ¬ sb.InLog b

/-! ## The loops of a commit -/

/-- One round of the first loop: the log block `i + 1` is written with the content of
    the `i`-th entry. -/
theorem wp_logBlock {i : ℕ} (h : Coh sb σ es s) (hlog : sb.InLog (sb.logStart + (i + 1))) :
    wp (logBlock sb (i + 1))
      (fun _ t => Coh sb σ es t ∧ SameHeld s t ∧ SameLog s t ∧
        ∃ d, Trace s t [⟨.log, sb.logStart + (i + 1), d⟩] ∧
          (¬ sb.InLog (s.header.blockNo i) → d = σ (s.header.blockNo i)))
      (fun _ t => Trace s t [] ∧ (NoneHeld s → sb.InLog (s.header.blockNo i))) s := by
  unfold logBlock
  simp only [wp_bind, wp_get, wp_cacheAcquire, Nat.add_sub_cancel]
  generalize hL : sb.logStart + (i + 1) = L at hlog
  generalize s.header.blockNo i = b
  split_ifs with h1 h2
  · exact ⟨Trace.refl s, fun hn => absurd h1 (hn L)⟩
  · refine ⟨Trace.nil (acquire_writes s L) (acquire_disk s L), fun hn => ?_⟩
    rcases (held_acquire h1).mp h2 with rfl | h2
    · exact hlog
    · exact absurd h2 (hn b)
  have hbL : b ≠ L := fun e => h2 ((held_acquire h1).mpr (.inl e))
  have hsb : ¬ Held s b := fun hb => h2 ((held_acquire h1).mpr (.inr hb))
  have hL2 : Held (acquire (acquire s L) b) L :=
    (held_acquire h2).mpr (.inr ((held_acquire h1).mpr (.inl rfl)))
  have hc2 : Coh sb σ es (acquire (acquire s L) b) := (h.acquire h1).acquire h2
  have hd2 : ¬ sb.InLog b → ((acquire (acquire s L) b).block b).data = σ b :=
    fun hb => (h.acquire h1).acquire_data hb h2
  simp only [wp_readBlock, wp_writeBlock, wp_cacheSync_none, wp_cacheRelease, setBlock_block_self]
  generalize hd : ((acquire (acquire s L) b).block b).data = d at hd2
  generalize hs2 : acquire (acquire s L) b = s2 at hL2 hc2 hd
  have hheld2 : ∀ c, Held s2 c ↔ c = b ∨ c = L ∨ Held s c := by
    intro c
    rw [← hs2, held_acquire h2, held_acquire h1]
  have hc3 : Coh sb σ es (Bcache.setBlock s2 L { s2.block L with data := d }) :=
    hc2.setBlock hL2.2 fun he => (hc2.logged L he).2
  refine ⟨((hc3.written_log hlog).release fun hn => absurd hlog hn).release fun hn => ?_,
    fun c => ?_, ?_, d, ?_, hd2⟩
  · rw [Bcache.release, setBlock_block_of_ne _ _ _ hbL]
    show ((Bcache.setBlock s2 L _).block b).data = σ b
    rw [setBlock_block_of_ne _ _ _ hbL, hd, hd2 hn]
  · rw [held_release, held_release]
    show c ≠ b ∧ c ≠ L ∧ Held (Bcache.setBlock s2 L _) c ↔ Held s c
    rw [held_setBlock (k := { s2.block L with data := d }) rfl, hheld2]
    constructor
    · rintro ⟨hcb, hcL, rfl | rfl | hc⟩
      · exact absurd rfl hcb
      · exact absurd rfl hcL
      · exact hc
    · intro hc
      exact ⟨fun e => hsb (e ▸ hc), fun e => h1 (e ▸ hc), .inr (.inr hc)⟩
  · have h12 : SameLog s s2 := by
      rw [← hs2]
      exact (sameLog_acquire s L).trans (sameLog_acquire _ b)
    exact h12.trans ⟨rfl, rfl, rfl, rfl, rfl⟩
  · have hw : s2.writes = s.writes ∧ s2.disk = s.disk := by
      rw [← hs2]
      simp only [acquire_writes, acquire_disk, and_self]
    constructor
    · show s2.writes ++ _ = _
      rw [hw.1]
    · show Function.update s2.disk L d = _
      rw [hw.2]
      rfl

/-- One round of the second loop: the `i`-th entry is written home. -/
theorem wp_checkpointBlock {i : ℕ} (h : Coh sb σ (s.header.blockNo i :: es) s)
    (hnotMem : s.header.blockNo i ∉ es) :
    wp (checkpointBlock i)
      (fun _ t => Coh sb σ es t ∧ SameHeld s t ∧ SameLog s t ∧
        ∃ d, Trace s t [⟨.home, s.header.blockNo i, d⟩] ∧
          (¬ sb.InLog (s.header.blockNo i) → d = σ (s.header.blockNo i)))
      (fun _ t => Trace s t [] ∧ ¬ NoneHeld s) s := by
  unfold checkpointBlock
  simp only [wp_bind, wp_get, wp_cacheAcquire]
  generalize s.header.blockNo i = b at h hnotMem
  split_ifs with h1
  · exact ⟨Trace.refl s, fun hn => hn b h1⟩
  have hheld : ∀ c, Held (acquire s b) c ↔ c = b ∨ Held s c := fun c => held_acquire h1
  have hc : Coh sb σ (b :: es) (acquire s b) := h.acquire h1
  have hd : ¬ sb.InLog b → ((acquire s b).block b).data = σ b := fun hb => h.acquire_data hb h1
  simp only [wp_cacheSync_none, wp_modify, wp_cacheRelease]
  generalize hk : ((acquire s b).block b).data = d at hd
  have hw : Coh sb σ (b :: es) (written (acquire s b) .home b d) := by
    by_cases hb : sb.InLog b
    · exact hc.written_log hb
    · have := hc.written (o := .home) ((hheld b).mpr (.inl rfl))
      have hσ : Function.update σ b d = σ := by rw [hd hb, Function.update_eq_self]
      rwa [hk, hσ] at this
  refine ⟨?_, fun c => ?_, ?_, d, ?_, hd⟩
  · have hhome : Coh sb σ es (written (acquire s b) .home b d) := by
      refine hw.home fun hb => ?_
      rw [← hd hb]
      exact Function.update_self _ _ _
    have hunpin := hhome.setBlock (k := { (acquire s b).block b with pinned := false })
      (acquire_acquired s b) fun he => absurd he hnotMem
    refine hunpin.release fun hb => ?_
    rw [setBlock_block_self]
    exact hk.trans (hd hb)
  · have hset : Held (Bcache.setBlock (written (acquire s b) .home b d) b
        { (acquire s b).block b with pinned := false }) c ↔ Held (acquire s b) c :=
      held_setBlock (s := written (acquire s b) .home b d) rfl
    refine held_release.trans ((and_congr_right fun _ => hset).trans ?_)
    rw [hheld]
    constructor
    · rintro ⟨hcb, rfl | hc⟩
      · exact absurd rfl hcb
      · exact hc
    · intro hc
      exact ⟨fun e => h1 (e ▸ hc), .inr hc⟩
  · exact (sameLog_acquire s b).trans ⟨rfl, rfl, rfl, rfl, rfl⟩
  · constructor
    · show (acquire s b).writes ++ _ = _
      rw [acquire_writes]
    · show Function.update (acquire s b).disk b d = _
      rw [acquire_disk]
      rfl

/-- What a part of a commit leaves: cache and device still represent `σ`, the same blocks
    are held, and the log layer is the same. -/
structure Kept (sb : SuperBlock) (σ : ℕ → BlockData) (es : List ℕ) (s t : CacheState) : Prop where
  coh : Coh sb σ es t
  held : SameHeld s t
  log : SameLog s t

/-- The first loop: the listed blocks go to the log. -/
theorem wp_logLoop (h : Coh sb σ es s) (hn : s.header.numBlocks + 1 ≤ sb.numLogBlocks) :
    wp (forN (logBlock sb) 1 s.header.numBlocks)
      (fun _ t => Kept sb σ es s t ∧ ∃ ws, Trace s t ws ∧ HomeOnly sb ws ∧
        (Outside sb s.header.entries →
          ws.map Write.pair = (redoLog sb).slotWrites σ 0 s.header.entries))
      (fun _ t => ∃ ws, Trace s t ws ∧ HomeOnly sb ws ∧
        (NoneHeld s → ¬ Outside sb s.header.entries)) s := by
  have hloop := wp_forN (f := logBlock sb) (a := 1) (n := s.header.numBlocks) (s := s)
    (E := fun _ t => ∃ ws, Trace s t ws ∧ HomeOnly sb ws ∧
      (NoneHeld s → ¬ Outside sb s.header.entries))
    (fun i t => Kept sb σ es s t ∧ ∃ ws, Trace s t ws ∧ HomeOnly sb ws ∧
      (Outside sb s.header.entries →
        ws.map Write.pair = (redoLog sb).slotWrites σ 0 (s.header.entries.take (i - 1))))
    ⟨⟨h, SameHeld.refl s, SameLog.refl s⟩, [], Trace.refl s, homeOnly_nil, fun _ => rfl⟩ ?_
  · refine hloop.imp fun _ t ht => ?_
    rwa [Nat.add_sub_cancel_left, List.take_of_length_le (by rw [LogHeader.length_entries])] at ht
  intro i t h1 h2 ⟨hk, ws, htr, hhome, hws⟩
  obtain ⟨i, rfl⟩ : ∃ j, i = j + 1 := ⟨i - 1, by omega⟩
  have hlog : sb.InLog (sb.logStart + (i + 1)) := ⟨by omega, by omega⟩
  have hi : i < s.header.numBlocks := by omega
  have hmem := s.header.blockNo_mem hi
  refine wp_mono (wp_logBlock hk.coh hlog) ?_ ?_
  · rintro - u ⟨hc, hh, hl, d, hw, hd⟩
    rw [hk.log.header] at hd
    refine ⟨⟨hc, hk.held.trans hh, hk.log.trans hl⟩, _, htr.trans hw, hhome.append
      (homeOnly_log hlog), fun hout => ?_⟩
    have hlen : (s.header.entries.take i).length = i := by
      rw [List.length_take, LogHeader.length_entries]
      omega
    rw [List.map_append, hws hout, Nat.add_sub_cancel, Nat.add_sub_cancel,
      s.header.take_entries_succ hi, RedoLog.Format.slotWrites_concat, hlen, hd (hout _ hmem),
      Nat.zero_add]
    rfl
  · rintro - u ⟨hw, hin⟩
    rw [hk.log.header] at hin
    refine ⟨_, htr.trans hw, hhome.append homeOnly_nil, fun hn hout => ?_⟩
    exact hout _ hmem (hin (hk.held.noneHeld hn))

/-- The second loop: the listed blocks go home. -/
theorem wp_checkpointLoop (h : Coh sb σ s.header.entries s) (hnodup : s.header.entries.Nodup) :
    wp (forN checkpointBlock 0 s.header.numBlocks)
      (fun _ t => Kept sb σ [] s t ∧ ∃ ws, Trace s t ws ∧ HomeOnly sb ws ∧
        (Outside sb s.header.entries →
          ws.map Write.pair = RedoLog.Format.homeWrites σ s.header.entries))
      (fun _ t => ∃ ws, Trace s t ws ∧ HomeOnly sb ws ∧ ¬ NoneHeld s) s := by
  have hloop := wp_forN (f := checkpointBlock) (a := 0) (n := s.header.numBlocks) (s := s)
    (E := fun _ t => ∃ ws, Trace s t ws ∧ HomeOnly sb ws ∧ ¬ NoneHeld s)
    (fun i t => Kept sb σ (s.header.entries.drop i) s t ∧ ∃ ws, Trace s t ws ∧ HomeOnly sb ws ∧
      (Outside sb s.header.entries →
        ws.map Write.pair = RedoLog.Format.homeWrites σ (s.header.entries.take i)))
    ⟨⟨h, SameHeld.refl s, SameLog.refl s⟩, [], Trace.refl s, homeOnly_nil, fun _ => rfl⟩ ?_
  · refine hloop.imp fun _ t ht => ?_
    have hlen : s.header.entries.length ≤ 0 + s.header.numBlocks := by
      rw [LogHeader.length_entries, Nat.zero_add]
    rwa [List.take_of_length_le hlen, List.drop_of_length_le hlen] at ht
  intro i t _ h2 ⟨hk, ws, htr, hhome, hws⟩
  have hi : i < s.header.numBlocks := by omega
  have hmem := s.header.blockNo_mem hi
  have hdrop := s.header.drop_entries hi
  have hnot : s.header.blockNo i ∉ s.header.entries.drop (i + 1) := by
    have := (List.drop_sublist i _).nodup hnodup
    rw [hdrop] at this
    exact (List.nodup_cons.mp this).1
  have hcoh := hk.coh
  rw [hdrop] at hcoh
  rw [← hk.log.header] at hcoh hnot
  refine wp_mono (wp_checkpointBlock hcoh hnot) ?_ ?_
  · rintro - u ⟨hc, hh, hl, d, hw, hd⟩
    rw [hk.log.header] at hc hw hd
    refine ⟨⟨hc, hk.held.trans hh, hk.log.trans hl⟩, _, htr.trans hw, hhome.append homeOnly_home,
      fun hout => ?_⟩
    rw [List.map_append, hws hout, s.header.take_entries_succ hi, RedoLog.Format.homeWrites,
      RedoLog.Format.homeWrites, List.map_append, hd (hout _ hmem)]
    rfl
  · rintro - u ⟨hw, hn⟩
    exact ⟨_, htr.trans hw, hhome.append homeOnly_nil, fun hs => hn (hk.held.noneHeld hs)⟩

/-! ## The commit -/

/-- What a commit leaves. -/
structure Committed (sb : SuperBlock) (σ : ℕ → BlockData) (s t : CacheState) : Prop where
  coh : Coh sb σ [] t
  held : SameHeld s t
  header : t.header = s.header.clear
  outstanding : t.outstanding = s.outstanding
  committing : t.committing = false
  sem : t.sem = s.sem
  rm : t.rm = s.rm

/-- Fields that `Coh` does not look at may change. -/
theorem Coh.of_eq (h : Coh sb σ es s) (hl : t.list = s.list) (hb : t.block = s.block)
    (hd : t.disk = s.disk) : Coh sb σ es t := by
  refine ⟨by rw [hl]; exact h.nodup, ?_, ?_, ?_⟩
  · rw [hl, hb]; exact h.logged
  · rw [hl, hb]; exact h.cached
  · rw [hd]; exact h.disk

/-- A commit writes what a redo log writes, and the cached blocks are safe on the device
    afterwards. It can stop only at a block that is held or in the log area. -/
theorem wp_commit (h : Coh sb σ s.header.entries s) (hnodup : s.header.entries.Nodup)
    (hn : s.header.numBlocks + 1 ≤ sb.numLogBlocks) (hsem : s.sem = Sem.init 0) :
    wp (commit sb)
      (fun _ t => Committed sb σ s t ∧ ∃ ws, Trace s t ws ∧ HomeOnly sb ws ∧
        (Outside sb s.header.entries → ws.map Write.pair =
          (redoLog sb).commitWrites σ s.header.entries s.header.encode s.header.clear.encode))
      (fun _ t => ∃ ws, Trace s t ws ∧ HomeOnly sb ws ∧
        ¬ (NoneHeld s ∧ Outside sb s.header.entries)) s := by
  have hstart : sb.InLog sb.logStart := ⟨le_rfl, by omega⟩
  unfold commit
  simp only [wp_bind, wp_modify, wp_get]
  have h0 : Coh sb σ s.header.entries { s with committing := true } := h.of_eq rfl rfl rfl
  refine wp_mono (wp_logLoop h0 hn) ?_ ?_
  · rintro - t1 ⟨k1, ws1, tr1, ho1, hw1⟩
    have tr1 : Trace s t1 ws1 := ⟨tr1.writes, tr1.disk⟩
    simp only [wp_writeHeader]
    -- the header is on the device
    have hhead1 : t1.header = s.header := k1.log.header
    have h2 : Coh sb σ s.header.entries (written t1 .header sb.logStart t1.header.encode) :=
      k1.coh.written_log hstart
    have tr2 := tr1.trans (trace_written t1 .header sb.logStart t1.header.encode)
    have ho2 := ho1.append (homeOnly_log (o := .header) (d := t1.header.encode) hstart)
    generalize ht2 : written t1 .header sb.logStart t1.header.encode = t2 at h2 tr2
    have hhead2 : t2.header = s.header := by rw [← ht2]; exact hhead1
    have hl2 : SameLog { s with committing := true } t2 := by
      rw [← ht2]; exact k1.log.trans (sameLog_written _ _ _ _)
    have hh2 : SameHeld s t2 := by rw [← ht2]; exact k1.held
    rw [← hhead2] at h2 hnodup
    have hloop := wp_checkpointLoop h2 hnodup
    rw [hhead2] at hloop
    refine wp_mono hloop ?_ ?_
    · rintro - t3 ⟨k3, ws3, tr3, ho3, hw3⟩
      have hl3 := hl2.trans k3.log
      have hsem3 : t3.sem = Sem.init 0 := hl3.sem.trans hsem
      have hpost : (Sem.init 0 : Sem Unit).postAll = some (Sem.init 0, []) := by decide
      simp only [written, hsem3, hpost, wp_set]
      have hwr : Coh sb σ [] (written t3 .header sb.logStart t3.header.clear.encode) :=
        k3.coh.written_log hstart
      refine ⟨⟨hwr.of_eq rfl rfl rfl, hh2.trans k3.held, ?_, hl3.outstanding, rfl, hsem.symm,
        hl3.rm⟩, _, (tr2.trans tr3).trans ⟨rfl, rfl⟩, (ho2.append ho3).append
          (homeOnly_log (o := .header) (d := t3.header.clear.encode) hstart), fun hout => ?_⟩
      · show t3.header.clear = _
        rw [hl3.header]
      · simp only [List.map_append, hw1 hout, hw3 hout, RedoLog.Format.commitWrites,
          List.append_assoc, List.map_cons, List.map_nil, Write.pair, hhead1, hl3.header]
        rfl
    · rintro - t3 ⟨ws3, tr3, ho3, hnone⟩
      exact ⟨_, tr2.trans tr3, ho2.append ho3, fun hc => hnone (hh2.noneHeld hc.1)⟩
  · rintro - t1 ⟨ws1, tr1, ho1, hnone⟩
    exact ⟨ws1, ⟨tr1.writes, tr1.disk⟩, ho1, fun hc => hnone hc.1 hc.2⟩

/-! ## Operations -/

/-- `cache_begin_op` either returns with one more operation, or it would sleep. -/
theorem wp_cacheBeginOp {c : ℕ} (hsem : s.sem = Sem.init 0) :
    wp (cacheBeginOp c)
      (fun _ t => t = { s with
        rm := Function.update s.rm c opMaxNumBlocks
        outstanding := s.outstanding + 1 })
      (fun e t => e = .blocked ∧ Trace s t []) s := by
  have hval : s.sem.val.toNat + 1 = 1 := by rw [hsem]; rfl
  unfold cacheBeginOp
  simp only [wp_bind, wp_modify, wp_get]
  rw [hval, beginOpLoop]
  simp only [wp_bind, wp_get]
  split_ifs with hw
  · have hdown : s.sem.down () = (⟨-1, [()]⟩, false) := by rw [hsem]; rfl
    simp only [hdown, wp_bind, wp_set, wp_throw]
    exact ⟨trivial, Trace.nil rfl rfl⟩
  · exact wp_set.mpr rfl

/-- The early return of `cache_end_op`: it takes the unit that it has just posted. -/
theorem wp_postAndWait {Q : Unit → CacheState → Prop} {E : Stop → CacheState → Prop}
    (hsem : s.sem = Sem.init 0) : wp postAndWait Q E s ↔ Q () s := by
  have hpost : s.sem.post = some (⟨1, []⟩, []) := by rw [hsem]; rfl
  have hdown : (⟨1, []⟩ : Sem Unit).down () = (Sem.init 0, true) := rfl
  unfold postAndWait
  simp only [wp_bind, wp_get, hpost, hdown, wp_set, ← hsem]

/-- What `cache_end_op` does to `s` when it returns in `t`: it commits if no other
    operation is running, and else it leaves everything to the last one. -/
def EndOp (sb : SuperBlock) (σ : ℕ → BlockData) (s t : CacheState) (ws : List Write) : Prop :=
  if s.outstanding - 1 > 0 then t = { s with outstanding := s.outstanding - 1 } ∧ ws = []
  else Committed sb σ { s with outstanding := s.outstanding - 1 } t ∧
    (Outside sb s.header.entries → ws.map Write.pair =
      (redoLog sb).commitWrites σ s.header.entries s.header.encode s.header.clear.encode)

theorem wp_cacheEndOp {c : ℕ} (h : Coh sb σ s.header.entries s) (hnodup : s.header.entries.Nodup)
    (hn : s.outstanding ≤ 1 → s.header.numBlocks + 1 ≤ sb.numLogBlocks)
    (hsem : s.sem = Sem.init 0) (hcom : s.committing = false) :
    wp (cacheEndOp sb c)
      (fun _ t => ∃ ws, Trace s t ws ∧ HomeOnly sb ws ∧ EndOp sb σ s t ws)
      (fun _ t => ∃ ws, Trace s t ws ∧ HomeOnly sb ws ∧ s.outstanding ≤ 1 ∧
        ¬ (NoneHeld s ∧ Outside sb s.header.entries)) s := by
  unfold cacheEndOp EndOp
  simp only [wp_bind, wp_modify, wp_get]
  rw [if_neg (by rw [hcom]; exact Bool.false_ne_true)]
  by_cases ho : s.outstanding - 1 > 0
  · simp only [if_pos ho]
    refine (wp_postAndWait (s := { s with outstanding := s.outstanding - 1 }) hsem).mpr ?_
    exact ⟨[], Trace.nil rfl rfl, homeOnly_nil, rfl, rfl⟩
  · simp only [if_neg ho]
    have h' : Coh sb σ s.header.entries { s with outstanding := s.outstanding - 1 } :=
      h.of_eq rfl rfl rfl
    refine wp_mono (wp_commit h' hnodup (hn (by omega)) hsem) ?_ ?_
    · rintro - t ⟨hc, ws, htr, ho, hws⟩
      exact ⟨ws, ⟨htr.writes, htr.disk⟩, ho, hc, hws⟩
    · rintro - t ⟨ws, htr, hho, hnot⟩
      exact ⟨ws, ⟨htr.writes, htr.disk⟩, hho, by omega, hnot⟩

/-! ## Recovery -/

/-- A super block without a log area: then all blocks have to agree with the device. -/
def noLog (sb : SuperBlock) : SuperBlock := { sb with numLogBlocks := 0 }

theorem not_inLog_noLog (b : ℕ) : ¬ (noLog sb).InLog b := by
  rintro ⟨h1, h2⟩
  exact absurd h2 (not_lt.mpr h1)

/-- The cached blocks agree with the device, those of the log area too. -/
def Clean (sb : SuperBlock) (s : CacheState) : Prop := Coh (noLog sb) s.disk [] s

theorem Clean.coh (h : Clean sb s) : Coh sb s.disk [] s :=
  ⟨h.nodup, h.logged, fun c hc _ => h.cached c hc (not_inLog_noLog c), fun _ _ _ => rfl⟩

/-- One round of the loop of `init_log`: the `i`-th entry gets the content of the log
    block `i + 1`. -/
theorem wp_replayBlock {i : ℕ} (h : Clean sb s) (hn : NoneHeld s) :
    wp (replayBlock sb (i + 1))
      (fun _ t => Clean sb t ∧ NoneHeld t ∧ SameLog s t ∧
        Trace s t [⟨.replay, s.header.blockNo i, s.disk (sb.logStart + (i + 1))⟩])
      (fun _ _ => s.header.blockNo i = sb.logStart + (i + 1)) s := by
  unfold replayBlock
  simp only [wp_bind, wp_get, wp_cacheAcquire, Nat.add_sub_cancel]
  generalize sb.logStart + (i + 1) = L
  generalize s.header.blockNo i = b
  rw [if_neg (hn L)]
  have hheld1 : ∀ c, Held (acquire s L) c ↔ c = L := by
    intro c
    rw [held_acquire (hn L)]
    exact ⟨fun hc => hc.resolve_right (hn c), .inl⟩
  split_ifs with h2
  · exact (hheld1 b).mp h2
  have hbL : b ≠ L := fun e => h2 ((hheld1 b).mpr e)
  have hheld2 : ∀ c, Held (acquire (acquire s L) b) c ↔ c = b ∨ c = L := by
    intro c
    rw [held_acquire h2, hheld1]
  have hc2 : Coh (noLog sb) s.disk [] (acquire (acquire s L) b) :=
    (Coh.acquire h (hn L)).acquire h2
  have hd2 : ((acquire (acquire s L) b).block L).data = s.disk L := by
    rw [acquire_block_of_ne _ hbL.symm]
    exact Coh.acquire_data h (not_inLog_noLog L) (hn L)
  have hw2 : (acquire (acquire s L) b).writes = s.writes ∧
      (acquire (acquire s L) b).disk = s.disk := by
    simp only [acquire_writes, acquire_disk, and_self]
  have hl2 : SameLog s (acquire (acquire s L) b) :=
    (sameLog_acquire s L).trans (sameLog_acquire _ b)
  simp only [wp_readBlock, wp_writeBlock, wp_cacheSync_none, wp_cacheRelease, setBlock_block_self,
    hd2]
  generalize acquire (acquire s L) b = s2 at hheld2 hc2 hd2 hw2 hl2
  have hheld3 : ∀ c, Held (Bcache.setBlock s2 b { s2.block b with data := s.disk L }) c ↔
      c = b ∨ c = L := fun c =>
    (held_setBlock (k := { s2.block b with data := s.disk L }) rfl).trans (hheld2 c)
  have hc3 : Coh (noLog sb) s.disk [] (Bcache.setBlock s2 b { s2.block b with data := s.disk L }) :=
    hc2.setBlock ((hheld2 b).mpr (.inl rfl)).2 fun he => (List.not_mem_nil he).elim
  have hc4 := hc3.written (o := .replay) ((hheld3 b).mpr (.inl rfl))
  rw [setBlock_block_self] at hc4
  refine ⟨?_, fun c hc => ?_, hl2.trans ⟨rfl, rfl, rfl, rfl, rfl⟩, ?_⟩
  · have hdisk : Function.update s.disk b (s.disk L) = Function.update s2.disk b (s.disk L) := by
      rw [hw2.2]
    unfold Clean
    show Coh _ (Function.update s2.disk b (s.disk L)) _ _
    rw [← hdisk]
    refine (hc4.release fun _ => ?_).release fun _ => ?_
    · show ((Bcache.setBlock s2 b _).block L).data = _
      rw [setBlock_block_of_ne _ _ _ hbL.symm, Function.update_of_ne hbL.symm, hd2]
    · rw [Bcache.release, setBlock_block_of_ne _ _ _ hbL, Function.update_self]
      show ((Bcache.setBlock s2 b _).block b).data = _
      rw [setBlock_block_self]
  · obtain ⟨hcb, hc⟩ := held_release.mp hc
    obtain ⟨hcL, hc⟩ := held_release.mp hc
    exact ((hheld3 c).mp hc).elim hcb hcL
  · constructor
    · show s2.writes ++ _ = _
      rw [hw2.1]
    · show Function.update s2.disk b (s.disk L) = _
      rw [hw2.2]
      rfl

/-- A log that `init_log` can replay: there is a log block for each entry, and the
    entries are outside the log area. -/
def Replayable (sb : SuperBlock) (h : LogHeader) : Prop :=
  h.numBlocks + 1 ≤ sb.numLogBlocks ∧ Outside sb h.entries

theorem clean_boot (d : ℕ → BlockData) : Clean sb (boot d) :=
  ⟨List.nodup_nil, fun _ h => (List.not_mem_nil h).elim, fun _ h => (List.not_mem_nil h).elim,
    fun _ _ _ => rfl⟩

theorem noneHeld_boot (d : ℕ → BlockData) : NoneHeld (boot d) :=
  fun _ h => List.not_mem_nil h.1

/-- What `init_bcache` leaves. -/
structure Booted (sb : SuperBlock) (t : CacheState) : Prop where
  coh : Coh sb t.disk [] t
  held : NoneHeld t
  header : t.header.numBlocks = 0
  diskHeader : (LogHeader.decode (t.disk sb.logStart)).numBlocks = 0
  outstanding : t.outstanding = 0
  committing : t.committing = false
  sem : t.sem = Sem.init 0

/-- The loop of `init_log`. -/
theorem wp_replayLoop (h : Clean sb s) (hn : NoneHeld s) :
    wp (forN (replayBlock sb) 1 s.header.numBlocks)
      (fun _ t => Clean sb t ∧ NoneHeld t ∧ SameLog s t ∧ ∃ ws, Trace s t ws ∧
        (Replayable sb s.header →
          ws.map Write.pair = (redoLog sb).replayWrites s.disk 0 s.header.entries))
      (fun _ _ => ¬ Replayable sb s.header) s := by
  have hloop := wp_forN (f := replayBlock sb) (a := 1) (n := s.header.numBlocks) (s := s)
    (E := fun _ _ => ¬ Replayable sb s.header)
    (fun i t => Clean sb t ∧ NoneHeld t ∧ SameLog s t ∧ ∃ ws, Trace s t ws ∧
      (Replayable sb s.header → ws.map Write.pair =
        (redoLog sb).replayWrites s.disk 0 (s.header.entries.take (i - 1))))
    ⟨h, hn, SameLog.refl s, [], Trace.refl s, fun _ => rfl⟩ ?_
  · refine hloop.imp fun _ t ht => ?_
    rwa [Nat.add_sub_cancel_left, List.take_of_length_le (by rw [LogHeader.length_entries])] at ht
  intro i t h1 h2 ⟨hc, hnone, hl, ws, htr, hws⟩
  obtain ⟨i, rfl⟩ : ∃ j, i = j + 1 := ⟨i - 1, by omega⟩
  have hi : i < s.header.numBlocks := by omega
  have hmem := s.header.blockNo_mem hi
  refine wp_mono (wp_replayBlock hc hnone) ?_ ?_
  · rintro - u ⟨hc', hn', hl', hw⟩
    rw [hl.header] at hw
    refine ⟨hc', hn', hl.trans hl', _, htr.trans hw, fun hr => ?_⟩
    have hlen : (s.header.entries.take i).length = i := by
      rw [List.length_take, LogHeader.length_entries]
      omega
    -- the log blocks are not among the entries, so they are still as at the start
    have hslot : t.disk (sb.logStart + (i + 1)) = s.disk (sb.logStart + (i + 1)) := by
      rw [htr.disk, hws hr, RedoLog.applyWrites_of_notMem]
      intro w hw e
      have hin := List.mem_of_mem_take (RedoLog.Format.mem_replayWrites hw)
      rw [e] at hin
      have := hr.1
      exact hr.2 _ hin ⟨by omega, by omega⟩
    rw [List.map_append, hws hr, Nat.add_sub_cancel, Nat.add_sub_cancel,
      s.header.take_entries_succ hi, RedoLog.Format.replayWrites_concat, hlen, hslot, Nat.zero_add]
    rfl
  · rintro - u hu hr
    rw [hl.header] at hu
    have := hr.1
    refine hr.2 _ hmem ?_
    rw [hu]
    exact ⟨by omega, by omega⟩

/-- Recovery: whatever it finds, the cache agrees with the device afterwards; a log that
    can be replayed is replayed as a redo log does. -/
theorem wp_initBcache (d : ℕ → BlockData) (hpos : 0 < sb.numLogBlocks) :
    wp (initBcache sb)
      (fun _ t => Booted sb t ∧ (Replayable sb (LogHeader.decode (d sb.logStart)) →
        t.writes.map Write.pair = (redoLog sb).recoverWrites d ∧
        t.disk = RedoLog.applyWrites d ((redoLog sb).recoverWrites d)))
      (fun _ _ => ¬ Replayable sb (LogHeader.decode (d sb.logStart))) (boot d) := by
  unfold initBcache initLog readHeader
  simp only [wp_bind, wp_modify, wp_get, boot]
  generalize hhd : LogHeader.decode (d sb.logStart) = hd
  have h0 : Clean sb { boot d with header := hd } := Coh.of_eq (clean_boot d) rfl rfl rfl
  refine (wp_replayLoop h0 (noneHeld_boot d)).imp ?_
  rintro - t ⟨hc, hn, hl, ws, htr, hws⟩
  simp only [wp_writeHeader]
  have htr' : Trace (boot d) t ws := ⟨htr.writes, htr.disk⟩
  have hhead : t.header = hd := hl.header
  have hlast := htr'.trans (trace_written t .header sb.logStart t.header.clear.encode)
  constructor
  · have hin : sb.InLog sb.logStart := ⟨le_rfl, by omega⟩
    have hcoh : Coh sb t.disk [] (written t .header sb.logStart t.header.clear.encode) :=
      hc.coh.written_log hin
    have hdisk : (written t .header sb.logStart t.header.clear.encode).disk sb.logStart =
        t.header.clear.encode := Function.update_self _ _ _
    have hzero : (LogHeader.decode t.header.clear.encode).numBlocks = 0 := by
      rw [LogHeader.numBlocks_decode_encode]
      rfl
    refine ⟨?_, hn, rfl, ?_, hl.outstanding, hl.committing, hl.sem⟩
    · have hcoh' : Coh sb (written t .header sb.logStart t.header.clear.encode).disk []
          (written t .header sb.logStart t.header.clear.encode) := by
        refine hcoh.congr fun c hlog => ?_
        have hne : c ≠ sb.logStart := fun e => hlog (e ▸ hin)
        exact (Function.update_of_ne hne _ _).symm
      exact hcoh'.of_eq rfl rfl rfl
    · rw [← hdisk] at hzero
      exact hzero
  · intro hr
    have hpairs : (ws ++ [Write.mk .header sb.logStart t.header.clear.encode]).map Write.pair =
        (redoLog sb).recoverWrites d := by
      have hws' : ws.map Write.pair = (redoLog sb).replayWrites d 0 hd.entries := hws hr
      rw [List.map_append, hws', hhead, RedoLog.Format.recoverWrites, redoLog_entries,
        redoLog_clear, redoLog_header, hhd]
      rfl
    refine ⟨?_, ?_⟩
    · rw [← hpairs]
      exact congrArg (List.map Write.pair) hlast.writes
    · rw [← hpairs]
      exact hlast.disk

end ShikiOS.Fs.Bcache
