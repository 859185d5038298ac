import ShikiOS.Lib.Triple
import ShikiOS.Fs.BcacheCrash
import ShikiOS.Fs.BcachePhase

/-!
# Operations and crashes (`fs/cache.c`)

Programs over the block cache that run one operation at a time, on any contents. `Journal B ph n H s`
says that the operation `ph` is running, or none, that the program holds the blocks `H` as they were
last synced, and that the device has taken nothing but commits, at most `n` of them, since it was
`B.disk`.

Results:
* `Journal.acquire` and the like: one rule for each call.
* `Journal.committed`: recovery leaves the content before or after the commit that a crash cuts off.
-/

namespace ShikiOS.Fs.Bcache

open ShikiOS.Lib

/-! ## Crashes -/

/-- Block numbers fit a word, and only the log layer writes into the log area. -/
def Proper (sb : SuperBlock) (ws : List Write) : Prop :=
  ∀ w ∈ ws, w.blockNo < 2 ^ 64 ∧ (w.origin = .home ∨ w.origin = .direct → ¬ sb.InLog w.blockNo)

instance (sb : SuperBlock) (ws : List Write) : Decidable (Proper sb ws) :=
  inferInstanceAs (Decidable (∀ w ∈ ws, _ ∧ (_ → _)))

/-- The blocks outside the log area are the same. -/
def SameHome (sb : SuperBlock) (d m : ℕ → BlockData) : Prop := ∀ b, ¬ sb.InLog b → d b = m b

/-- Recovery of `d`, cut off any number of times before, leaves the content `m` or `m'`. -/
def RecoversTo (sb : SuperBlock) (d m m' : ℕ → BlockData) : Prop :=
  ∀ d', RedoLog.Format.CutRecoveries (initWrites sb) d d' → ∃ u, initBcache sb (boot d') = .ok () u ∧
    (LogHeader.decode (u.disk sb.logStart)).numBlocks = 0 ∧
    (SameHome sb u.disk m ∨ SameHome sb u.disk m')

/-- `n` commits took the device `d` to the content `m` with the writes `ws`. A crash in one of them
    leaves the content before it or the one after it. -/
inductive Chain (sb : SuperBlock) (d : ℕ → BlockData) : ℕ → List (ℕ × BlockData) → (ℕ → BlockData) → Prop
  | start : Chain sb d 0 [] d
  | commit {n : ℕ} {ws ws' : List (ℕ × BlockData)} {m m' : ℕ → BlockData} (h : Chain sb d n ws m)
      (hc : ∀ k, RecoversTo sb (RedoLog.applyWrites (RedoLog.applyWrites d ws) (ws'.take k)) m m') :
      Chain sb d (n + 1) (ws ++ ws') m'

variable {sb : SuperBlock} {d m m' : ℕ → BlockData} {n : ℕ} {ws ws' : List (ℕ × BlockData)}

theorem Proper.left {ws ws' : List Write} (h : Proper sb (ws ++ ws')) : Proper sb ws :=
  fun w hw => h w (List.mem_append_left ws' hw)

theorem Proper.right {ws ws' : List Write} (h : Proper sb (ws ++ ws')) : Proper sb ws' :=
  fun w hw => h w (List.mem_append_right ws hw)

theorem SameHome.trans {m₁ m₂ : ℕ → BlockData} (h : SameHome sb d m₁) (h' : SameHome sb m₁ m₂) :
    SameHome sb d m₂ := fun b hb => (h b hb).trans (h' b hb)

theorem RecoversTo.congr {m₁ m₂ : ℕ → BlockData} (h : RecoversTo sb d m m') (h₁ : SameHome sb m m₁)
    (h₂ : SameHome sb m' m₂) : RecoversTo sb d m₁ m₂ := by
  intro d' hd
  obtain ⟨u, hu, hzero, hm⟩ := h d' hd
  exact ⟨u, hu, hzero, hm.imp (·.trans h₁) (·.trans h₂)⟩

/-- A settled device keeps its content. -/
theorem recovers_of_settled (hpos : 0 < sb.numLogBlocks) (h : (redoLog sb).Settled d m) :
    RecoversTo sb d m m := by
  intro d' hcut
  have hrec : ∀ d, (redoLog sb).Recoverable d → initWrites sb d = (redoLog sb).recoverWrites d :=
    fun d hd => initWrites_eq hpos hd
  have hset := hcut.settled hrec h
  have hm : (redoLog sb).Settled (RedoLog.applyWrites d' (initWrites sb d')) m := by
    rw [hrec d' ⟨m, .inl hset⟩]
    exact hset.recover
  obtain ⟨u, hu, hzero, hall⟩ := init_settled hpos ⟨m, .inl hset⟩ hm
  exact ⟨u, hu, hzero, .inl hall⟩

/-- Where at most one commit was made, a crash leaves the content before it or the one after it. -/
theorem Chain.atomic (h : Chain sb d n ws m) (hn : n ≤ 1) (hd : RecoversTo sb d d d) (k : ℕ) :
    RecoversTo sb (RedoLog.applyWrites d (ws.take k)) d m := by
  cases h with
  | start =>
    rw [List.take_nil, RedoLog.applyWrites_nil]
    exact hd
  | @commit n ws ws' m m' h hc =>
    obtain rfl : n = 0 := by omega
    cases h
    rw [List.nil_append]
    exact hc k

/-- The writes `ws` are those of `n` commits. When the device had taken the first `k` of them, `i` were
    done and at most one more was running, and recovery leaves the content before or after that one. -/
def CutOff (sb : SuperBlock) (d : ℕ → BlockData) (n : ℕ) (ws : List (ℕ × BlockData)) (k : ℕ) : Prop :=
  ∃ i j ws₁ ws₂ m₁ m₂, i ≤ j ∧ j ≤ i + 1 ∧ j ≤ n ∧ Chain sb d i ws₁ m₁ ∧ Chain sb d j ws₂ m₂ ∧
    ws₁ <+: ws ∧ ws₂ <+: ws ∧ ws₁.length ≤ k ∧ k ≤ ws₂.length ∧
    RecoversTo sb (RedoLog.applyWrites d (ws.take k)) m₁ m₂

theorem Chain.cutOff (h : Chain sb d n ws m) (hd : RecoversTo sb d d d) {k : ℕ} (hk : k ≤ ws.length) :
    CutOff sb d n ws k := by
  induction h with
  | start =>
    refine ⟨0, 0, [], [], d, d, le_rfl, zero_le_one, le_rfl, .start, .start, List.nil_prefix,
      List.nil_prefix, zero_le, hk, ?_⟩
    rw [List.take_nil, RedoLog.applyWrites_nil]
    exact hd
  | @commit n ws ws' m m' h hc ih =>
    by_cases hle : k ≤ ws.length
    · -- an earlier commit was running
      obtain ⟨i, j, ws₁, ws₂, m₁, m₂, h1, h2, h3, hc1, hc2, hp1, hp2, hk1, hk2, hrec⟩ := ih hle
      refine ⟨i, j, ws₁, ws₂, m₁, m₂, h1, h2, h3.trans (Nat.le_succ n), hc1, hc2,
        hp1.trans (List.prefix_append ws ws'), hp2.trans (List.prefix_append ws ws'), hk1, hk2, ?_⟩
      rw [List.take_append_of_le_length hle]
      exact hrec
    · refine ⟨n, n + 1, ws, ws ++ ws', m, m', Nat.le_succ n, le_rfl, le_rfl, h, h.commit hc,
        List.prefix_append ws ws', List.prefix_rfl, by omega, hk, ?_⟩
      rw [List.take_append, List.take_of_length_le (by omega), RedoLog.applyWrites_append]
      exact hc (k - ws.length)

/-! ## The writes of a commit -/

/-- Since `w₀` the blocks `bs` have been written home, and the header is `h`. -/
structure WroteHome (h : LogHeader) (w₀ : List Write) (bs : List ℕ) (s : CacheState) : Prop where
  header : s.header = h
  writes : ∃ ws, s.writes = w₀ ++ ws ∧ ∀ b ∈ bs, ∃ w ∈ ws, w.origin = .home ∧ w.blockNo = b

section WroteHome

variable {h : LogHeader} {w₀ : List Write} {bs : List ℕ} {s t : CacheState}

theorem WroteHome.same (hs : WroteHome h w₀ bs s) (hh : t.header = s.header) (hw : t.writes = s.writes) :
    WroteHome h w₀ bs t := ⟨hh.trans hs.header, by rw [hw]; exact hs.writes⟩

theorem WroteHome.setBlock (hs : WroteHome h w₀ bs s) {b : ℕ} {k : Block} :
    WroteHome h w₀ bs (setBlock s b k) := hs.same rfl rfl

theorem WroteHome.acquire (hs : WroteHome h w₀ bs s) (b : ℕ) : WroteHome h w₀ bs (acquire s b) :=
  hs.same (sameLog_acquire s b).header (acquire_writes s b)

theorem WroteHome.written (hs : WroteHome h w₀ bs s) (o : Origin) (b : ℕ) (x : BlockData) :
    WroteHome h w₀ bs (written s o b x) := by
  obtain ⟨ws, hws, hbs⟩ := hs.writes
  refine ⟨hs.header, ws ++ [⟨o, b, x⟩], ?_, fun b' hb => ?_⟩
  · show s.writes ++ [_] = _
    rw [hws, List.append_assoc]
  · obtain ⟨w, hw, hwb⟩ := hbs b' hb
    exact ⟨w, List.mem_append_left _ hw, hwb⟩

theorem WroteHome.home (hs : WroteHome h w₀ bs s) (b : ℕ) (x : BlockData) :
    WroteHome h w₀ (bs ++ [b]) (Bcache.written s .home b x) := by
  obtain ⟨ws, hws, hbs⟩ := hs.writes
  refine ⟨hs.header, ws ++ [⟨.home, b, x⟩], ?_, fun b' hb => ?_⟩
  · show s.writes ++ [_] = _
    rw [hws, List.append_assoc]
  · rcases List.mem_append.mp hb with hb | hb
    · obtain ⟨w, hw, hwb⟩ := hbs b' hb
      exact ⟨w, List.mem_append_left _ hw, hwb⟩
    · exact ⟨_, List.mem_append_right _ (List.mem_singleton_self _), rfl, (List.mem_singleton.mp hb).symm⟩

theorem WroteHome.logBlock (i : ℕ) :
    Triple (WroteHome h w₀ bs) (logBlock sb i) fun _ => WroteHome h w₀ bs := by
  intro s hs
  unfold Bcache.logBlock
  simp only [wlp, wp_bind, wp_get, wp_cacheAcquire]
  split_ifs
  simp only [wp_readBlock, wp_writeBlock, wp_cacheSync_none, wp_cacheRelease]
  have h2 := (hs.acquire (sb.logStart + i)).acquire (s.header.blockNo (i - 1))
  exact (h2.setBlock.written .log _ _).setBlock.setBlock

theorem WroteHome.checkpointBlock {s : CacheState} {i : ℕ} (hs : WroteHome h w₀ (h.entries.take i) s)
    (hi : i < h.numBlocks) :
    wlp (checkpointBlock i) (fun _ t => WroteHome h w₀ (h.entries.take (i + 1)) t) s := by
  unfold Bcache.checkpointBlock
  simp only [wlp, wp_bind, wp_get, wp_cacheAcquire]
  split_ifs
  simp only [wp_cacheSync_none, wp_modify, wp_cacheRelease]
  rw [h.take_entries_succ hi, hs.header]
  exact ((hs.acquire _).home _ _).setBlock.setBlock

/-- A commit that returns has written every block of the header home. -/
theorem endOp_writesHome {s : CacheState} {c : ℕ} (ho : s.outstanding ≤ 1) :
    wlp (cacheEndOp sb c) (fun _ t => ∃ ws, t.writes = s.writes ++ ws ∧
      ∀ b ∈ s.header.entries, ∃ w ∈ ws, w.origin = .home ∧ w.blockNo = b) s := by
  have h0 : WroteHome s.header s.writes [] { s with outstanding := s.outstanding - 1, committing := true } :=
    ⟨rfl, [], (List.append_nil _).symm, fun _ hb => absurd hb List.not_mem_nil⟩
  have hpos : ¬ s.outstanding - 1 > 0 := by omega
  unfold cacheEndOp commit
  simp only [wlp, wp_bind, wp_modify, wp_get, if_neg hpos]
  split_ifs
  · exact wp_throw.mpr trivial
  simp only [wp_bind, wp_modify, wp_get]
  refine (Triple.forN WroteHome.logBlock 1 s.header.numBlocks _ h0).imp fun _ s1 h1 => ?_
  rw [wp_writeHeader]
  have h2 := h1.written .header sb.logStart s1.header.encode
  refine (wp_forN (a := 0) (fun i t => WroteHome s.header s.writes (s.header.entries.take i) t) h2
    fun i t _ hi ht => ht.checkpointBlock (by omega)).imp fun _ s3 h3 => ?_
  rw [wp_writeHeader]
  have hall : s.header.entries.take (0 + s.header.numBlocks) = s.header.entries :=
    List.take_of_length_le (by rw [LogHeader.length_entries, Nat.zero_add])
  rw [hall] at h3
  have h4 : WroteHome s3.header.clear s.writes s.header.entries { s3 with header := s3.header.clear } :=
    ⟨rfl, h3.writes⟩
  have h5 := (h4.written .header sb.logStart s3.header.clear.encode).writes
  split
  · exact wp_throw.mpr trivial
  · exact wp_set.mpr h5

end WroteHome

/-! ## The invariant -/

/-- Where a stretch of calls begins: the writes of the device and its content then. With `track`
    nothing is synced without a context. -/
structure Base where
  sb : SuperBlock
  track : Prop
  writes : List Write
  disk : ℕ → BlockData

/-- What the device has taken since. Block `b` is on the device as in `σ`, unless it is listed. -/
structure Past (B : Base) (n : ℕ∞) (σ : ℕ → BlockData) (s : CacheState) (ws : List Write)
    (m : ℕ → BlockData) : Prop where
  settled : (redoLog B.sb).Settled s.disk m
  unchanged : ∀ b, b ∉ s.header.entries → σ b = m b
  chain : B.track → s.disk = RedoLog.applyWrites B.disk (ws.map Write.pair) ∧
    ∃ k : ℕ, k ≤ n ∧ ∃ m', Chain B.sb B.disk k (ws.map Write.pair) m' ∧ SameHome B.sb m m'

/-- The cache represents `σ`, and the blocks `H` are held and are as in `σ`. -/
structure Represents (B : Base) (H : List ℕ) (σ : ℕ → BlockData) (s : CacheState) : Prop where
  coh : Coh B.sb σ s.header.entries s
  nodup : s.header.entries.Nodup
  committing : s.committing = false
  sem : s.sem = Sem.init 0
  held : ∀ b ∈ H, Held s b ∧ (¬ B.sb.InLog b → (s.block b).data = σ b)
  distinct : H.Nodup

structure Journal (B : Base) (ph : Option ℕ) (n : ℕ∞) (H : List ℕ) (s : CacheState) : Prop where
  phase : Phase B.sb False [] ph s
  past : ∃ σ, Represents B H σ s ∧ ∃ ws, s.writes = B.writes ++ ws ∧
    (Proper B.sb s.writes → ∃ m, Past B n σ s ws m)

/-- The caller has changed the block that it acquired last. -/
structure Changed (B : Base) (ph : Option ℕ) (n : ℕ∞) (b : ℕ) (H : List ℕ) (s : CacheState) : Prop where
  journal : Journal B ph n H s
  held : Held s b
  new : b ∉ H

variable {B : Base} {ph ctx : Option ℕ} {k : ℕ∞} {σ : ℕ → BlockData} {H : List ℕ} {s t : CacheState}
  {b c : ℕ}

/-- Nothing that is said of the past has changed. -/
theorem Past.same {ws : List Write} (h : Past B k σ s ws m) (hd : t.disk = s.disk) (hh : t.header = s.header) :
    Past B k σ t ws m :=
  ⟨by rw [hd]; exact h.settled, by rw [hh]; exact h.unchanged, by rw [hd]; exact h.chain⟩

/-- A step that writes nothing to the device. -/
theorem Journal.same {H' : List ℕ} (h : Journal B ph k H s) (hl : SameLog s t) (hw : t.writes = s.writes)
    (hd : t.disk = s.disk) (hr : ∀ σ, Represents B H σ s → Represents B H' σ t) : Journal B ph k H' t := by
  obtain ⟨σ, hσ, ws, hws, hpast⟩ := h.past
  refine ⟨h.phase.same hl hw, σ, hr σ hσ, ws, hw.trans hws, fun hp => ?_⟩
  rw [hw] at hp
  obtain ⟨m, hm⟩ := hpast hp
  exact ⟨m, hm.same hd hl.header⟩

/-- More commits may have been made. -/
theorem Journal.mono {k' : ℕ∞} (h : Journal B ph k H s) (hk : k ≤ k') : Journal B ph k' H s := by
  obtain ⟨σ, hσ, ws, hws, hpast⟩ := h.past
  refine ⟨h.phase, σ, hσ, ws, hws, fun hp => ?_⟩
  obtain ⟨m, hm⟩ := hpast hp
  refine ⟨m, hm.settled, hm.unchanged, fun ht => ?_⟩
  obtain ⟨hd, n, hn, hchain⟩ := hm.chain ht
  exact ⟨hd, n, hn.trans hk, hchain⟩

/-- The caller may forget what it holds. -/
theorem Journal.forget {H' : List ℕ} (h : Journal B ph k H s) (hsub : H'.Sublist H) :
    Journal B ph k H' s :=
  h.same (SameLog.refl s) rfl rfl fun _ hσ => ⟨hσ.coh, hσ.nodup, hσ.committing, hσ.sem,
    fun b hb => hσ.held b (hsub.subset hb), hsub.nodup hσ.distinct⟩

theorem Journal.acquire (b : ℕ) :
    Triple (Journal B ph k H) (cacheAcquire b) fun _ => Journal B ph k (b :: H) := by
  intro s h
  rw [wlp, wp_cacheAcquire]
  split_ifs with hheld
  have hl := sameLog_acquire s b
  refine h.same hl (acquire_writes s b) (acquire_disk s b) fun σ hσ => ⟨?_, ?_,
    hl.committing.trans hσ.committing, hl.sem.trans hσ.sem, fun x hx => ?_,
    List.nodup_cons.mpr ⟨fun hm => hheld (hσ.held b hm).1, hσ.distinct⟩⟩
  · rw [hl.header]
    exact hσ.coh.acquire hheld
  · rw [hl.header]
    exact hσ.nodup
  · rcases List.mem_cons.mp hx with rfl | hx
    · exact ⟨(held_acquire hheld).mpr (.inl rfl), fun hlog => hσ.coh.acquire_data hlog hheld⟩
    · obtain ⟨h1, h2⟩ := hσ.held x hx
      have hne : x ≠ b := fun e => hheld (e ▸ h1)
      rw [acquire_block_of_ne s hne]
      exact ⟨(held_acquire hheld).mpr (.inr h1), h2⟩

theorem Journal.read (b : ℕ) : Triple (Journal B ph k H) (readBlock b) fun _ => Journal B ph k H := by
  intro s h
  rw [wlp, wp_readBlock]
  exact h

theorem Journal.write (b : ℕ) (d : BlockData) :
    Triple (Journal B ph k (b :: H)) (writeBlock b d) fun _ => Changed B ph k b H := by
  intro s h
  rw [wlp, wp_writeBlock]
  obtain ⟨σ, hσ, -⟩ := h.past
  have hb := (hσ.held b List.mem_cons_self).1
  have hnew := (List.nodup_cons.mp hσ.distinct).1
  have hk : ∀ c, Held (setBlock s b { s.block b with data := d }) c ↔ Held s c :=
    fun c => held_setBlock (k := { s.block b with data := d }) rfl
  refine ⟨h.same (sameLog_setBlock _ _ _) rfl rfl fun σ hσ => ⟨?_, hσ.nodup, hσ.committing, hσ.sem,
    fun x hx => ?_, (List.nodup_cons.mp hσ.distinct).2⟩, (hk b).mpr hb, hnew⟩
  · exact hσ.coh.setBlock hb.2 fun he => (hσ.coh.logged b he).2
  · obtain ⟨h1, h2⟩ := hσ.held x (List.mem_cons_of_mem b hx)
    have hne : x ≠ b := fun e => hnew (e ▸ hx)
    rw [setBlock_block_of_ne _ _ _ hne]
    exact ⟨(hk x).mpr h1, h2⟩

theorem Journal.release (b : ℕ) :
    Triple (Journal B ph k (b :: H)) (cacheRelease b) fun _ => Journal B ph k H := by
  intro s h
  rw [wlp, wp_cacheRelease]
  refine h.same (sameLog_setBlock _ _ _) rfl rfl fun σ hσ => ⟨?_, hσ.nodup, hσ.committing, hσ.sem,
    fun x hx => ?_, (List.nodup_cons.mp hσ.distinct).2⟩
  · exact hσ.coh.release (hσ.held b List.mem_cons_self).2
  · obtain ⟨h1, h2⟩ := hσ.held x (List.mem_cons_of_mem b hx)
    have hne : x ≠ b := fun e => (List.nodup_cons.mp hσ.distinct).1 (e ▸ hx)
    rw [Bcache.release, setBlock_block_of_ne _ _ _ hne]
    exact ⟨held_release.mpr ⟨hne, h1⟩, h2⟩

/-- What is known of the blocks held after block `b` has been synced. -/
theorem Represents.held_sync (h : Represents B H σ s) (hheld : Held s b) (hnew : b ∉ H)
    (hblock : ∀ x, (t.block x).data = (s.block x).data) (hh : ∀ x, Held t x ↔ Held s x) :
    ∀ x ∈ b :: H, Held t x ∧ (¬ B.sb.InLog x → (t.block x).data =
      Function.update σ b (s.block b).data x) := by
  intro x hx
  rw [hblock, hh]
  rcases List.mem_cons.mp hx with rfl | hx
  · rw [Function.update_self]
    exact ⟨hheld, fun _ => rfl⟩
  · have hne : x ≠ b := fun e => hnew (e ▸ hx)
    rw [Function.update_of_ne hne]
    exact h.held x hx

/-- The context that may be passed on: the running one, or none if nobody tracks the writes. -/
def MaySync (B : Base) (ph ctx : Option ℕ) : Prop := ctx = ph ∧ ph ≠ none ∨ ctx = none ∧ ¬ B.track

/-- `cache_sync` in an operation. -/
theorem Changed.syncSome (h : Changed B ph k b H s) (hph : ph = some c) :
    wlp (cacheSync (some c) b .direct) (fun _ t => Journal B ph k (b :: H) t) s := by
  have hphase : wp (cacheSync (some c) b .direct) (fun _ t => Phase B.sb False [] ph t)
      (fun _ t => False → Logged B.sb [] t) s :=
    h.journal.phase.sync (.inl ⟨hph.symm, by rw [hph]; exact Option.some_ne_none c⟩) fun _ ht => ht
  have hrest : wlp (cacheSync (some c) b .direct) (fun _ t => ∃ σ, Represents B (b :: H) σ t ∧
      ∃ ws, t.writes = B.writes ++ ws ∧ (Proper B.sb t.writes → ∃ m, Past B k σ t ws m)) s := by
    rw [wlp, wp_cacheSync_some]
    split
    · trivial
    next header rm hap =>
    have ha := logAppend_ok hap
    obtain ⟨σ, hσ, ws, hws, hpast⟩ := h.journal.past
    refine ⟨Function.update σ b (s.block b).data, ⟨?_, ha.nodup hσ.nodup, hσ.committing, hσ.sem, ?_,
      List.nodup_cons.mpr ⟨h.new, hσ.distinct⟩⟩, ws, hws, fun hp => ?_⟩
    · exact (hσ.coh.sync h.held ha.mono ha.only ha.mem).of_eq rfl rfl rfl
    · refine hσ.held_sync h.held h.new (fun x => ?_) fun x => ?_
      · show ((setBlock s b _).block x).data = _
        by_cases hx : x = b
        · rw [hx, setBlock_block_self]
        · rw [setBlock_block_of_ne _ _ _ hx]
      · exact held_setBlock (k := { s.block b with pinned := true }) rfl
    · obtain ⟨m, hm⟩ := hpast hp
      refine ⟨m, hm.settled, fun x hx => ?_, hm.chain⟩
      have hne : x ≠ b := fun e => hx (e ▸ ha.mem)
      rw [Function.update_of_ne hne]
      exact hm.unchanged x fun hmem => hx (ha.mono x hmem)
  exact wp_mono (hphase.and hrest) (fun _ t ht => ⟨ht.1, ht.2⟩) fun _ _ _ => trivial

/-- `cache_sync` without a context. -/
theorem Changed.syncNone (h : Changed B ph k b H s) (hpos : 0 < B.sb.numLogBlocks) (ht : ¬ B.track) :
    wlp (cacheSync none b .direct) (fun _ t => Journal B ph k (b :: H) t) s := by
  rw [wlp, wp_cacheSync_none]
  obtain ⟨σ, hσ, ws, hws, hpast⟩ := h.journal.past
  refine ⟨⟨fun hf => hf.elim, h.journal.phase.idle, h.journal.phase.running⟩,
    Function.update σ b (s.block b).data, ⟨hσ.coh.written h.held, hσ.nodup, hσ.committing, hσ.sem,
      hσ.held_sync h.held h.new (fun _ => rfl) (fun _ => Iff.rfl), List.nodup_cons.mpr ⟨h.new, hσ.distinct⟩⟩,
    ws ++ [⟨.direct, b, (s.block b).data⟩], ?_, fun hp => ?_⟩
  · show s.writes ++ [_] = _
    rw [hws, List.append_assoc]
  · obtain ⟨m, hm⟩ := hpast hp.left
    have hlog : ¬ B.sb.InLog b := (hp.right _ (List.mem_singleton_self _)).2 (.inr rfl)
    have hhead : B.sb.logStart ≠ b := fun e => hlog (e ▸ ⟨le_rfl, by omega⟩)
    refine ⟨Function.update m b (s.block b).data, ⟨?_, fun x hx => ?_⟩, fun x hx => ?_, fun hf => (ht hf).elim⟩
    · show (redoLog B.sb).entries (Function.update s.disk b _ B.sb.logStart) = []
      rw [Function.update_of_ne hhead]
      exact hm.settled.empty
    · show Function.update s.disk b _ x = _
      rw [Function.update_apply, Function.update_apply, hm.settled.content x hx]
    · rw [Function.update_apply, Function.update_apply, hm.unchanged x hx]

theorem Journal.sync (hpos : 0 < B.sb.numLogBlocks) (hctx : MaySync B ph ctx) :
    Triple (Changed B ph k b H) (cacheSync ctx b .direct) fun _ => Journal B ph k (b :: H) := by
  intro s h
  rcases hctx with ⟨rfl, hne⟩ | ⟨rfl, ht⟩
  · obtain ⟨c, rfl⟩ := Option.ne_none_iff_exists'.mp hne
    exact h.syncSome rfl
  · exact h.syncNone hpos ht

/-! ## Operations -/

theorem Journal.beginOp (c : ℕ) :
    Triple (Journal B none k []) (cacheBeginOp c) fun _ => Journal B (some c) k [] := by
  intro s h
  have hphase : wp (cacheBeginOp c) (fun _ t => Phase B.sb False [] (some c) t)
      (fun _ t => False → Logged B.sb [] t) s := h.phase.beginOp fun _ ht => ht
  obtain ⟨σ, hσ, ws, hws, hpast⟩ := h.past
  refine wp_mono (hphase.and (wp_cacheBeginOp hσ.sem)) ?_ fun _ _ _ => trivial
  rintro - t ⟨hphase, rfl⟩
  refine ⟨hphase, σ, ⟨hσ.coh.of_eq rfl rfl rfl, hσ.nodup, hσ.committing, hσ.sem, hσ.held, hσ.distinct⟩, ws, hws,
    fun hp => ?_⟩
  obtain ⟨m, hm⟩ := hpast hp
  exact ⟨m, hm.same rfl rfl⟩

/-- The session of an operation that runs alone. -/
def alone (s : CacheState) (σ m : ℕ → BlockData) (c : ℕ) : Session := ⟨s, σ, m, [c], fun _ => true⟩

theorem Represents.inv (h : Represents B H σ s) (hph : Phase B.sb False [] (some c) s)
    (hw : ∀ b ∈ s.header.entries, b < 2 ^ 64) (m : ℕ → BlockData) : Inv B.sb (alone s σ m c) := by
  obtain ⟨hle, hout⟩ := hph.running c rfl
  have hmax : opMaxNumBlocks ≤ logMaxSize := by decide
  refine ⟨h.coh, fun b _ _ hb => ?_, h.nodup, ?_, hw, List.nodup_singleton c, hout, h.committing, h.sem⟩
  · cases hb
  · show s.header.numBlocks ≤ logMaxSize
    omega

/-- The commit of an operation that runs alone: recovery leaves the content before or after it. -/
theorem Past.commit {ws ws' : List Write} (h : Past B k σ s ws m) (hσ : Represents B [] σ s)
    (hph : Phase B.sb False [] (some c) s) (hlog : opMaxNumBlocks + 1 ≤ B.sb.numLogBlocks)
    (hout : ∀ b ∈ s.header.entries, b < 2 ^ 64 ∧ ¬ B.sb.InLog b) (htr : Trace s t ws')
    (he : EndOp B.sb σ s t ws') : Past B (k + 1) σ t (ws ++ ws') σ := by
  have hpos : 0 < B.sb.numLogBlocks := by omega
  have hi := hσ.inv hph (fun b hb => (hout b hb).1) m
  have hd : Durable B.sb (alone s σ m c) := ⟨h.settled, h.unchanged⟩
  obtain ⟨hle, -⟩ := hph.running c rfl
  have hr : s.outstanding ≤ 1 → Replayable B.sb s.header := fun _ => ⟨by omega, fun b hb => (hout b hb).2⟩
  have hdur := hd.endOp hi hpos (List.mem_singleton_self c) hr htr he
  have hrun : ((alone s σ m c).record t (.endOp c)).durable = σ :=
    if_pos (List.erase_cons_head (a := c) (l := []))
  refine ⟨?_, fun _ _ => rfl, fun ht => ?_⟩
  · have := hdur.settled
    rw [hrun] at this
    exact this
  · obtain ⟨hdisk, j, hj, m', hchain, hsame⟩ := h.chain ht
    rw [List.map_append]
    refine ⟨?_, j + 1, ?_, σ, hchain.commit fun i => ?_, fun _ _ => rfl⟩
    · rw [RedoLog.applyWrites_append, ← hdisk]
      exact htr.disk
    · push_cast
      exact add_le_add_left hj 1
    · rw [← hdisk]
      intro d' hcut
      obtain ⟨hrec, hm⟩ := hd.crash hi hpos hr he hcut
      have hdone : ∀ m'', (redoLog B.sb).Settled (RedoLog.applyWrites d' (initWrites B.sb d')) m'' →
          ∃ u, initBcache B.sb (boot d') = .ok () u ∧
            (LogHeader.decode (u.disk B.sb.logStart)).numBlocks = 0 ∧ SameHome B.sb u.disk m'' :=
        fun m'' => init_settled hpos hrec
      rcases hm with hm | hm
      · obtain ⟨u, hu, hzero, hall⟩ := hdone m hm
        exact ⟨u, hu, hzero, .inl (hall.trans hsame)⟩
      · obtain ⟨u, hu, hzero, hall⟩ := hdone σ hm
        exact ⟨u, hu, hzero, .inr hall⟩

theorem Journal.endOp (hlog : opMaxNumBlocks + 1 ≤ B.sb.numLogBlocks) (c : ℕ) :
    Triple (Journal B (some c) k []) (cacheEndOp B.sb c) fun _ => Journal B none (k + 1) [] := by
  intro s h
  have hphase : wp (cacheEndOp B.sb c) (fun _ t => Phase B.sb False [] none t)
      (fun _ t => False → Logged B.sb [] t) s := h.phase.endOp (fun hf => hf.elim) fun _ ht => ht
  obtain ⟨hle, ho⟩ := h.phase.running c rfl
  obtain ⟨σ, hσ, ws, hws, hpast⟩ := h.past
  have hend := wp_cacheEndOp (c := c) hσ.coh hσ.nodup (fun _ => by omega) hσ.sem hσ.committing
  refine wp_mono (hphase.and (hend.and (@endOp_writesHome B.sb _ c ho.le))) ?_ fun _ _ _ => trivial
  rintro - t ⟨hphase', ⟨ws', htr, -, he⟩, ws'', hws'', hhome⟩
  obtain rfl : ws'' = ws' := List.append_cancel_left (hws''.symm.trans htr.writes)
  have hcom := he
  unfold EndOp at hcom
  rw [if_neg (by omega)] at hcom
  have hnil : t.header.entries = [] := by rw [hcom.1.header, LogHeader.entries_clear]
  refine ⟨hphase', σ, ⟨?_, ?_, hcom.1.committing, hcom.1.sem.trans hσ.sem,
    fun b hb => absurd hb List.not_mem_nil, List.nodup_nil⟩, ws ++ ws'', ?_, fun hp => ?_⟩
  · rw [hnil]
    exact hcom.1.coh
  · rw [hnil]
    exact List.nodup_nil
  · rw [htr.writes, hws, List.append_assoc]
  · rw [htr.writes] at hp
    obtain ⟨m, hm⟩ := hpast hp.left
    refine ⟨σ, hm.commit hσ h.phase hlog (fun b hb => ?_) htr he⟩
    obtain ⟨w, hw, horigin, rfl⟩ := hhome b hb
    obtain ⟨hlt, hlogw⟩ := hp.right w hw
    exact ⟨hlt, hlogw (.inl horigin)⟩

/-! ## Allocation -/

section Alloc

variable (hpos : 0 < B.sb.numLogBlocks) (hctx : MaySync B ph ctx)
include hpos hctx

theorem Journal.cacheFree (b : ℕ) :
    Triple (Journal B ph k H) (cacheFree B.sb ctx b) fun _ => Journal B ph k H := by
  unfold Bcache.cacheFree
  refine (Journal.acquire _).seq fun _ => (Journal.read _).seq fun d => ?_
  exact (Journal.write _ _).seq fun _ => (Journal.sync hpos hctx).seq fun _ => Journal.release _

theorem Journal.cacheAlloc : Triple (Journal B ph k H) (cacheAlloc B.sb ctx) fun _ => Journal B ph k H := by
  unfold Bcache.cacheAlloc
  generalize (B.sb.numBlocks + bitPerBlock - 1) / bitPerBlock = n, 0 = i
  induction n generalizing i with
  | zero => exact Triple.throw
  | succ n ih =>
    unfold cacheAllocFrom
    refine (Journal.acquire _).seq fun _ => (Journal.read _).seq fun d => ?_
    split
    · refine (Journal.write _ _).seq fun _ => (Journal.sync hpos hctx).seq fun _ => ?_
      refine (Journal.release _).seq fun _ => (Journal.acquire _).seq fun _ => (Journal.write _ _).seq fun _ => ?_
      exact (Journal.sync hpos hctx).seq fun _ => (Journal.release _).seq fun _ => Triple.pure fun _ hs => hs
    · exact (Journal.release _).seq fun _ => ih (i + 1)

end Alloc

/-! ## Stretches of calls -/

/-- A stretch of calls begins while no operation is running. -/
theorem Journal.rebase (h : Journal B none k [] s) {track : Prop} :
    Journal ⟨B.sb, track, s.writes, s.disk⟩ none 0 [] s := by
  obtain ⟨σ, hσ, ws, hws, hpast⟩ := h.past
  have hnil : s.header.entries = [] := by
    rw [← List.length_eq_zero_iff, LogHeader.length_entries]
    exact (h.phase.idle rfl).1
  have hcoh : Coh B.sb s.disk s.header.entries s := by
    refine hσ.coh.congr fun b hb => (hσ.coh.disk b hb ?_).symm
    rw [hnil]
    exact List.not_mem_nil
  refine ⟨h.phase, s.disk, ⟨hcoh, hσ.nodup, hσ.committing, hσ.sem, fun b hb => absurd hb List.not_mem_nil,
    List.nodup_nil⟩, [], (List.append_nil _).symm, fun hp => ?_⟩
  obtain ⟨m, hm⟩ := hpast hp
  have hsettled : (redoLog B.sb).Settled s.disk s.disk := ⟨hm.settled.empty, fun _ _ => rfl⟩
  exact ⟨s.disk, hsettled, fun _ _ => rfl, fun _ => ⟨rfl, 0, bot_le, s.disk, .start, fun _ _ => rfl⟩⟩

/-- What a stretch of calls has done to the device when no operation is running any more. -/
theorem Journal.committed (h : Journal B none k [] s) (ht : B.track) (hpos : 0 < B.sb.numLogBlocks)
    (hp : Proper B.sb s.writes) :
    ∃ ws, s.writes = B.writes ++ ws ∧ s.disk = RedoLog.applyWrites B.disk (ws.map Write.pair) ∧
      RecoversTo B.sb s.disk s.disk s.disk ∧
      ∃ n : ℕ, n ≤ k ∧ ∃ m, Chain B.sb B.disk n (ws.map Write.pair) m ∧ SameHome B.sb m s.disk := by
  obtain ⟨σ, hσ, ws, hws, hpast⟩ := h.past
  obtain ⟨m, hm⟩ := hpast hp
  obtain ⟨hdisk, n, hn, m', hchain, hsame⟩ := hm.chain ht
  have hhome : SameHome B.sb m s.disk := fun b hb =>
    (hm.settled.content b fun hin => hb ((inArea_iff hpos b).mp hin)).symm
  exact ⟨ws, hws, hdisk, (recovers_of_settled hpos hm.settled).congr hhome hhome, n, hn, m', hchain,
    fun b hb => (hsame b hb).symm.trans (hhome b hb)⟩

/-- Right after `init_bcache`. -/
theorem Booted.journal (h : Booted sb t) {track : Prop} : Journal ⟨sb, track, t.writes, t.disk⟩ none 0 [] t := by
  have hnil : t.header.entries = [] := by rw [LogHeader.entries, h.header]; rfl
  have hr := h.rep
  have hsettled : (redoLog sb).Settled t.disk t.disk := h.durable.settled
  refine ⟨⟨fun hf => hf.elim, fun _ => ⟨by rw [h.header], h.outstanding⟩, fun c hc => by cases hc⟩, t.disk,
    ⟨hr.coh, hr.nodup, h.committing, h.sem, fun b hb => absurd hb List.not_mem_nil, List.nodup_nil⟩, [],
    (List.append_nil _).symm, fun _ => ⟨t.disk, hsettled, fun _ _ => rfl,
      fun _ => ⟨rfl, 0, bot_le, t.disk, .start, fun _ _ => rfl⟩⟩⟩

end ShikiOS.Fs.Bcache
