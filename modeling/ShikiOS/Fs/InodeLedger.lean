import ShikiOS.Fs.BcachePhase
import ShikiOS.Fs.Inode

/-!
# What the inode layer does to reference counts (`fs/inode.c`)

`Ledger sb track w₀ K ph ρ s` says that the reference count of each `Inode` in memory is what
`ρ` says, 0 where there is none, and that the cache is in the phase `ph`. There is one rule
for each function: `inode_get` and `inode_share` add one reference, `inode_put` takes one
away, and the others leave the counts.
-/

namespace ShikiOS.Fs.Inodes

open ShikiOS.Lib Bcache

/-- The reference count of an `Inode`, 0 if there is none. -/
def rcOf (s : FsState) (p : ℕ) : ℤ :=
  match s.inode p with
  | some i => i.rc
  | none => 0

/-- The reference counts are `ρ`, and the operation `ph` is running. -/
structure Ledger (sb : SuperBlock) (track : Prop) (w₀ : List Write)
    (K : ℕ → Bool → UInt16 → Prop) (ph : Option ℕ) (ρ : ℕ → ℤ) (s : FsState) : Prop where
  rc : ∀ p, rcOf s p = ρ p
  known : ∀ p i, s.inode p = some i → K p i.valid i.entry.numLinks
  reread : ∀ p n n', K p false n → K p true n'
  fresh : ∀ p, s.nextPtr ≤ p → s.inode p = none
  phase : Phase sb track w₀ ph s.cache

/-- A context that may be passed on: the running one, or none if nobody tracks the writes. -/
def CtxOk (track : Prop) (ph ctx : Option ℕ) : Prop := ctx = ph ∧ ph ≠ none ∨ ctx = none ∧ ¬ track

/-- `x` ends in `Q`, or stops with nothing but logged writes. -/
abbrev books {α : Type} (sb : SuperBlock) (track : Prop) (w₀ : List Write) (x : M α)
    (Q : α → FsState → Prop) (s : FsState) : Prop :=
  wp x Q (fun _ t => track → Logged sb w₀ t.cache) s

variable {sb : SuperBlock} {track : Prop} {w₀ : List Write}
  {K : ℕ → Bool → UInt16 → Prop} {ph ctx : Option ℕ} {ρ : ℕ → ℤ}
  {s t : FsState} {α : Type} {p b : ℕ} {i : Inode} {Q : Unit → FsState → Prop}

/-- One more reference to `p`, or `d` more. -/
def addRef (ρ : ℕ → ℤ) (p : ℕ) (d : ℤ) : ℕ → ℤ := Function.update ρ p (ρ p + d)

theorem rcOf_some (h : s.inode p = some i) : rcOf s p = i.rc := by
  rw [rcOf, h]

theorem Ledger.logged (h : Ledger sb track w₀ K ph ρ s) : track → Logged sb w₀ s.cache :=
  h.phase.logged

theorem books_throw (h : Ledger sb track w₀ K ph ρ s) {R : α → FsState → Prop} {e : Stop} :
    books sb track w₀ (throw e) R s := wp_throw.mpr h.logged

/-! ## Calls of the cache -/

theorem Ledger.withCache (h : Ledger sb track w₀ K ph ρ s) {ph' : Option ℕ} {c : CacheState}
    (hc : Phase sb track w₀ ph' c) : Ledger sb track w₀ K ph' ρ { s with cache := c } :=
  ⟨h.rc, h.known, h.reread, h.fresh, hc⟩

theorem Ledger.acquireSame (h : Ledger sb track w₀ K ph ρ s)
    (hq : ∀ t, t.inode = s.inode → Ledger sb track w₀ K ph ρ t → Q () t) :
    books sb track w₀ (cache (cacheAcquire b)) Q s :=
  wp_cache.mpr (h.phase.acquire fun _ hc => hq _ rfl (h.withCache hc))

theorem Ledger.acquire (h : Ledger sb track w₀ K ph ρ s)
    (hq : ∀ t, Ledger sb track w₀ K ph ρ t → Q () t) :
    books sb track w₀ (cache (cacheAcquire b)) Q s :=
  h.acquireSame fun t _ ht => hq t ht

theorem Ledger.release (h : Ledger sb track w₀ K ph ρ s)
    (hq : ∀ t, Ledger sb track w₀ K ph ρ t → Q () t) :
    books sb track w₀ (cache (cacheRelease b)) Q s :=
  wp_cache.mpr (h.phase.release fun _ hc => hq _ (h.withCache hc))

theorem books_read {R : BlockData → FsState → Prop} (hq : ∀ d, R d s) :
    books sb track w₀ (cache (readBlock b)) R s :=
  wp_cache.mpr (logs_read fun d => hq d)

theorem Ledger.write (h : Ledger sb track w₀ K ph ρ s) {d : BlockData}
    (hq : ∀ t, Ledger sb track w₀ K ph ρ t → Q () t) :
    books sb track w₀ (cache (writeBlock b d)) Q s :=
  wp_cache.mpr (h.phase.write fun _ hc => hq _ (h.withCache hc))

theorem Ledger.syncRelease (h : Ledger sb track w₀ K ph ρ s) (hctx : CtxOk track ph ctx)
    (hq : ∀ t, Ledger sb track w₀ K ph ρ t → Q () t) :
    books sb track w₀ (cache (cacheSync ctx b .direct))
      (fun _ t => books sb track w₀ (cache (cacheRelease b)) Q t) s :=
  wp_cache.mpr (h.phase.sync hctx fun _ hc => (h.withCache hc).release hq)

theorem Ledger.freeBlock (h : Ledger sb track w₀ K ph ρ s) (hctx : CtxOk track ph ctx)
    (hq : ∀ t, Ledger sb track w₀ K ph ρ t → Q () t) :
    books sb track w₀ (freeBlock sb ctx b) Q s := by
  unfold Inodes.freeBlock books
  rw [wp_bind, wp_cache]
  refine h.phase.cacheFree hctx fun c hc => ?_
  rw [wp_modify]
  exact hq _ ⟨h.rc, h.known, h.reread, h.fresh, hc⟩

theorem Ledger.allocBlock (h : Ledger sb track w₀ K ph ρ s) (hctx : CtxOk track ph ctx)
    {R : ℕ → FsState → Prop} (hq : ∀ b t, Ledger sb track w₀ K ph ρ t → R b t) :
    books sb track w₀ (allocBlock sb ctx) R s := by
  unfold Inodes.allocBlock books
  rw [wp_bind, wp_cache]
  refine h.phase.cacheAlloc hctx fun b c hc => ?_
  simp only [wp_bind, wp_modify, wp_pure]
  exact hq _ _ ⟨h.rc, h.known, h.reread, h.fresh, hc⟩

/-! ## One inode -/

theorem Ledger.deref (h : Ledger sb track w₀ K ph ρ s) {R : Inode → FsState → Prop}
    (hq : ∀ i, s.inode p = some i → R i s) : books sb track w₀ (deref p) R s := by
  cases hp : s.inode p with
  | none =>
    unfold Inodes.deref books
    simp only [wp_bind, wp_get, hp]
    exact books_throw h
  | some i => exact (wp_deref hp).mpr (hq i hp)

/-- An `Inode` changes, and its count by `d`. -/
theorem Ledger.modifyInode (h : Ledger sb track w₀ K ph ρ s) {f : Inode → Inode} (d : ℤ)
    (hf : ∀ i, (f i).rc = i.rc + d)
    (hK : ∀ i, s.inode p = some i → K p i.valid i.entry.numLinks →
      K p (f i).valid (f i).entry.numLinks)
    (hq : ∀ i t, s.inode p = some i → t.inode p = some (f i) →
      Ledger sb track w₀ K ph (addRef ρ p d) t → Q () t) :
    books sb track w₀ (modifyInode p f) Q s := by
  cases hp : s.inode p with
  | none =>
    unfold Inodes.modifyInode books
    rw [wp_bind]
    exact h.deref fun i hi => by rw [hp] at hi; cases hi
  | some i =>
    refine (wp_modifyInode hp).mpr (hq i _ hp (Function.update_self _ _ _)
      ⟨fun p' => ?_, fun p' j hj => ?_, h.reread, ?_, h.phase⟩)
    · by_cases hne : p' = p
      · subst hne
        have hrc := h.rc p'
        rw [rcOf_some hp] at hrc
        rw [rcOf_some (Function.update_self _ _ _), addRef, Function.update_self, hf, hrc]
      · rw [addRef, Function.update_of_ne hne, ← h.rc p', rcOf, rcOf]
        dsimp only
        rw [Function.update_of_ne hne]
    · change Function.update s.inode p _ p' = _ at hj
      by_cases hne : p' = p
      · subst hne
        rw [Function.update_self, Option.some.injEq] at hj
        subst hj
        exact hK i hp (h.known p' i hp)
      · rw [Function.update_of_ne hne] at hj
        exact h.known p' j hj
    · intro p' hle
      have hne : p' ≠ p := by
        rintro rfl
        rw [h.fresh p' hle] at hp
        cases hp
      show Function.update s.inode p _ p' = none
      rw [Function.update_of_ne hne]
      exact h.fresh p' hle

theorem addRef_zero : addRef ρ p 0 = ρ := by
  rw [addRef, add_zero, Function.update_eq_self]

/-- A change that leaves the count. -/
theorem Ledger.keepRc (h : Ledger sb track w₀ K ph ρ s) {f : Inode → Inode}
    (hf : ∀ i, (f i).rc = i.rc)
    (hK : ∀ i, s.inode p = some i → K p i.valid i.entry.numLinks →
      K p (f i).valid (f i).entry.numLinks)
    (hq : ∀ i t, s.inode p = some i → t.inode p = some (f i) → Ledger sb track w₀ K ph ρ t → Q () t) :
    books sb track w₀ (Inodes.modifyInode p f) Q s := by
  refine h.modifyInode 0 (fun i => by rw [hf, add_zero]) hK fun i t hi ht hl => ?_
  rw [addRef_zero] at hl
  exact hq i t hi ht hl

theorem Ledger.modifyEntry (h : Ledger sb track w₀ K ph ρ s) {f : InodeEntry → InodeEntry}
    (hK : (∀ e, (f e).numLinks = e.numLinks) ∨ ∀ v n n', K p v n → K p v n')
    (hq : ∀ t, Ledger sb track w₀ K ph ρ t → Q () t) :
    books sb track w₀ (modifyEntry p f) Q s := by
  refine h.keepRc (fun _ => rfl) (fun i _ hi => ?_) fun _ t _ _ ht => hq t ht
  rcases hK with hf | hK
  · show K p i.valid (f i.entry).numLinks
    rw [hf]
    exact hi
  · exact hK _ _ _ hi

theorem Ledger.acquireLock (h : Ledger sb track w₀ K ph ρ s)
    (hq : ∀ i t, s.inode p = some i → t.inode p = some { i with lock := i.lock - 1 } →
      Ledger sb track w₀ K ph ρ t → Q () t) :
    books sb track w₀ (acquireLock p) Q s := by
  unfold Inodes.acquireLock books
  rw [wp_bind]
  refine h.deref fun i _ => ?_
  split_ifs
  · exact books_throw h
  · exact h.keepRc (fun _ => rfl) (fun _ _ hi => hi) hq

theorem Ledger.releaseLock (h : Ledger sb track w₀ K ph ρ s)
    (hq : ∀ t, Ledger sb track w₀ K ph ρ t → Q () t) :
    books sb track w₀ (releaseLock p) Q s :=
  h.keepRc (fun _ => rfl) (fun _ _ hi => hi) fun _ t _ _ ht => hq t ht

/-- The rule of `inode_lock`. -/
theorem Ledger.lock (h : Ledger sb track w₀ K ph ρ s)
    (hq : ∀ i t, s.inode p = some i → t.inode p = some { i with lock := i.lock - 1 } →
      Ledger sb track w₀ K ph ρ t → Q () t) :
    books sb track w₀ (inodeLock p) Q s := by
  unfold inodeLock books
  rw [wp_bind]
  refine h.deref fun i _ => ?_
  split_ifs
  · exact books_throw h
  · exact h.acquireLock hq

/-- The rule of `inode_unlock`. -/
theorem Ledger.unlock (h : Ledger sb track w₀ K ph ρ s)
    (hq : ∀ t, Ledger sb track w₀ K ph ρ t → Q () t) :
    books sb track w₀ (inodeUnlock p) Q s := by
  unfold inodeUnlock books
  rw [wp_bind]
  refine h.deref fun i _ => ?_
  split_ifs
  · exact books_throw h
  · exact h.releaseLock hq

/-- `K`, and `p` has been read. -/
def hasRead (K : ℕ → Bool → UInt16 → Prop) (p q : ℕ) (v : Bool) (n : UInt16) : Prop :=
  K q v n ∧ (q = p → v = true)

theorem Ledger.weaken (h : Ledger sb track w₀ K ph ρ s) {K' : ℕ → Bool → UInt16 → Prop}
    (hK : ∀ q v n, K q v n → K' q v n) (hK' : ∀ q n n', K' q false n → K' q true n') :
    Ledger sb track w₀ K' ph ρ s :=
  ⟨h.rc, fun p i hi => hK _ _ _ (h.known p i hi), hK', h.fresh, h.phase⟩

theorem hasRead_reread (h : Ledger sb track w₀ K ph ρ s) (q : ℕ) (n n' : UInt16) :
    hasRead K p q false n → hasRead K p q true n' :=
  fun hk => ⟨h.reread q n n' hk.1, fun _ => rfl⟩

/-- The rule of `inode_sync`; a read needs no context. -/
theorem Ledger.syncRead (h : Ledger sb track w₀ K ph ρ s) {doWrite : Bool}
    (hctx : doWrite = true → CtxOk track ph ctx)
    (hq : ∀ t, Ledger sb track w₀ (hasRead K p) ph ρ t → Q () t) :
    books sb track w₀ (inodeSync sb ctx p doWrite) Q s := by
  -- once the `Inode` is marked as read, the rest keeps this
  have hread : ∀ {t}, Ledger sb track w₀ K ph ρ t → (∀ i, t.inode p = some i → i.valid = true) →
      Ledger sb track w₀ (hasRead K p) ph ρ t := fun {t} ht hv =>
    ⟨ht.rc, fun q i hi => ⟨ht.known q i hi, fun e => hv i (e ▸ hi)⟩, hasRead_reread h, ht.fresh,
      ht.phase⟩
  unfold inodeSync books
  rw [wp_bind]
  refine h.deref fun i hi => ?_
  by_cases hv : i.valid = true
  · have h0 := hread h fun j hj => by rw [hi, Option.some.injEq] at hj; exact hj ▸ hv
    simp only [wp_bind, hv, if_true]
    refine h0.acquire fun s1 h1 => books_read fun d => ?_
    split
    · next hw =>
      simp only [wp_bind]
      exact h1.write fun s2 h2 => h2.syncRelease (hctx hw) hq
    · exact h1.release hq
  · simp only [wp_bind, if_neg hv]
    refine h.acquireSame fun s1 he h1 => books_read fun d => ?_
    rw [← he] at hi
    refine h1.keepRc (fun _ => rfl) (fun j hj hk => ?_) fun j s2 _ hj2 h2 => ?_
    · rw [hi, Option.some.injEq] at hj
      subst hj
      rw [Bool.not_eq_true] at hv
      rw [hv] at hk
      exact h1.reread _ _ _ hk
    · refine (hread h2 fun j' hj' => ?_).release hq
      rw [hj2, Option.some.injEq] at hj'
      rw [← hj']

theorem Ledger.sync (h : Ledger sb track w₀ K ph ρ s) {doWrite : Bool}
    (hctx : doWrite = true → CtxOk track ph ctx)
    (hq : ∀ t, Ledger sb track w₀ K ph ρ t → Q () t) :
    books sb track w₀ (inodeSync sb ctx p doWrite) Q s :=
  h.syncRead hctx fun t ht => hq t (ht.weaken (fun _ _ _ hk => hk.1) h.reread)

/-- The rule of `inode_share`. -/
theorem Ledger.share (h : Ledger sb track w₀ K ph ρ s) {R : ℕ → FsState → Prop}
    (hq : ∀ t, Ledger sb track w₀ K ph (addRef ρ p 1) t → R p t) :
    books sb track w₀ (inodeShare p) R s := by
  unfold inodeShare books
  rw [wp_bind]
  refine h.modifyInode 1 (fun _ => rfl) (fun _ _ hi => hi) fun _ t _ _ ht => ?_
  rw [wp_pure]
  exact hq t ht

/-- The rule of `inode_get`. -/
theorem Ledger.get (h : Ledger sb track w₀ K ph ρ s) (hK : ∀ p n, K p true n) {no : ℕ}
    {R : Option ℕ → FsState → Prop}
    (hnone : R none s)
    (hsome : ∀ p t, Ledger sb track w₀ K ph (addRef ρ p 1) t → R (some p) t) :
    books sb track w₀ (inodeGet sb no) R s := by
  unfold inodeGet books
  split_ifs
  · exact wp_pure.mpr hnone
  · exact books_throw h
  simp only [wp_bind, wp_get]
  split
  · simp only [wp_bind, wp_pure]
    exact h.modifyInode 1 (fun _ => rfl) (fun _ _ hi => hi) fun _ t _ _ ht => hsome _ t ht
  · simp only [wp_bind, wp_set, wp_modify, wp_pure]
    -- the new `Inode` has no references yet
    have hnew : Ledger sb track w₀ (fun q v n => q = s.nextPtr ∨ K q v n) ph ρ { s with
        inode := Function.update s.inode s.nextPtr (some ⟨1, 0, no, false, InodeEntry.zero⟩)
        nextPtr := s.nextPtr + 1 } := by
      refine ⟨fun p => ?_, fun p i hi => ?_, fun _ n _ _ => .inr (hK _ _), fun p hle => ?_, h.phase⟩
      · rw [← h.rc p, rcOf, rcOf]
        dsimp only
        by_cases hne : p = s.nextPtr
        · rw [hne, Function.update_self, h.fresh _ le_rfl]
        · rw [Function.update_of_ne hne]
      · by_cases hne : p = s.nextPtr
        · exact .inl hne
        · change Function.update s.inode s.nextPtr _ p = _ at hi
          rw [Function.update_of_ne hne] at hi
          exact .inr (h.known p i hi)
      · have hne : p ≠ s.nextPtr := by
          rintro rfl
          simp at hle
        show Function.update s.inode s.nextPtr _ p = none
        rw [Function.update_of_ne hne]
        exact h.fresh p (le_trans (Nat.le_succ _) hle)
    refine hnew.modifyInode 1 (fun _ => rfl) (fun _ _ hi => hi) fun _ t1 _ _ h1 => ?_
    refine h1.lock fun _ t2 _ _ h2 => h2.syncRead (fun e => by cases e) fun t3 h3 => ?_
    refine h3.unlock fun t4 h4 => hsome _ _ ?_
    have h5 : Ledger sb track w₀ K ph (addRef ρ s.nextPtr 1) t4 := by
      refine h4.weaken (fun q v n hk => ?_) h.reread
      rcases hk with ⟨rfl | hk, hv⟩
      · rw [hv rfl]
        exact hK _ _
      · exact hk
    exact ⟨h5.rc, h5.known, h5.reread, h5.fresh, h5.phase⟩

/-- The rule of `inode_alloc`. -/
theorem Ledger.alloc (h : Ledger sb track w₀ K ph ρ s) (hctx : CtxOk track ph ctx)
    {type : InodeType} {R : ℕ → FsState → Prop}
    (hq : ∀ no t, Ledger sb track w₀ K ph ρ t → R no t) :
    books sb track w₀ (inodeAlloc sb ctx type) R s := by
  unfold inodeAlloc books
  split_ifs
  · exact books_throw h
  generalize sb.numInodes - 1 = n
  generalize 1 = no
  induction n generalizing no s with
  | zero => exact books_throw h
  | succ n ih =>
    unfold inodeAllocFrom
    simp only [wp_bind]
    refine h.acquire fun s1 h1 => books_read fun d => ?_
    split_ifs
    · simp only [wp_bind, wp_pure]
      exact h1.write fun s2 h2 => h2.syncRelease hctx fun s3 h3 => hq _ _ h3
    · rw [wp_bind]
      exact h1.release fun s2 h2 => ih h2 _

/-! ## Freeing -/

theorem Ledger.clear (h : Ledger sb track w₀ K ph ρ s) (hctx : CtxOk track ph ctx)
    (hq : ∀ t, Ledger sb track w₀ K ph ρ t → Q () t) :
    books sb track w₀ (inodeClear sb ctx p) Q s := by
  have hindirect : ∀ {s} (k b : ℕ), Ledger sb track w₀ K ph ρ s →
      books sb track w₀ (freeIndirect sb ctx b k) (fun _ t => Ledger sb track w₀ K ph ρ t) s := by
    intro s k b h
    unfold freeIndirect books
    rw [wp_bind]
    refine books_read fun d => ?_
    split_ifs
    · exact h.freeBlock hctx fun _ ht => ht
    · exact wp_pure.mpr h
  have hdirect : ∀ {s} (k : ℕ), Ledger sb track w₀ K ph ρ s →
      books sb track w₀ (freeDirect sb ctx p k) (fun _ t => Ledger sb track w₀ K ph ρ t) s := by
    intro s k h
    unfold freeDirect books
    rw [wp_bind]
    refine h.deref fun i _ => ?_
    split_ifs
    · rw [wp_bind]
      exact h.freeBlock hctx fun t ht => ht.modifyEntry (.inl fun _ => rfl) fun _ hu => hu
    · exact wp_pure.mpr h
  have hrest : ∀ s, Ledger sb track w₀ K ph ρ s → books sb track w₀ (do
      forN (freeDirect sb ctx p) 0 inodeNumDirect
      Inodes.modifyEntry p fun e => { e with numBytes := 0 }
      inodeSync sb ctx p true) Q s := by
    intro s h
    unfold books
    simp only [wp_bind]
    refine (wp_forN (fun _ t => Ledger sb track w₀ K ph ρ t) h fun i t _ _ ht =>
      hdirect i ht).imp fun _ s1 h1 => ?_
    exact h1.modifyEntry (.inl fun _ => rfl) fun s2 h2 => h2.sync (fun _ => hctx) hq
  unfold inodeClear clearIndirect books
  simp only [wp_bind]
  refine h.deref fun i _ => ?_
  split_ifs
  · simp only [wp_bind]
    refine h.acquire fun s1 h1 => ?_
    refine (wp_forN (fun _ t => Ledger sb track w₀ K ph ρ t) h1 fun k t _ _ ht =>
      hindirect k _ ht).imp fun _ s2 h2 => ?_
    refine h2.release fun s3 h3 => h3.freeBlock hctx fun s4 h4 =>
      h4.modifyEntry (.inl fun _ => rfl) fun s5 h5 => ?_
    simpa only [books, wp_bind] using hrest s5 h5
  · simpa only [books, wp_bind, wp_pure] using hrest s h

/-- The rule of `inode_put`. Without a context it must not free the inode, or nobody tracks
    the writes. -/
theorem Ledger.put (h : Ledger sb track w₀ K ph ρ s)
    (hctx : CtxOk track ph ctx ∨
      ∀ i, s.inode p = some i → ¬ (i.rc = 1 ∧ i.entry.numLinks = 0))
    (hq : ∀ t, Ledger sb track w₀ K ph (addRef ρ p (-1)) t → Q () t) :
    books sb track w₀ (inodePut sb ctx p) Q s := by
  unfold inodePut books
  rw [wp_bind]
  refine h.acquireLock fun i s1 hi hi1 h1 => ?_
  rw [wp_bind]
  refine h1.modifyInode (-1) (fun _ => rfl) (fun _ _ hi => hi) fun i1 s2 he1 he2 h2 => ?_
  rw [he1, Option.some.injEq] at hi1
  subst hi1
  rw [wp_bind]
  refine h2.deref fun i2 hi2 => ?_
  rw [he2, Option.some.injEq] at hi2
  subst hi2
  split_ifs with hfree
  · have hctx' : CtxOk track ph ctx := hctx.resolve_right fun hn =>
      hn i hi ⟨by have := hfree.1; dsimp only at this; omega, hfree.2⟩
    have h0 : addRef ρ p (-1) p = 0 := by
      rw [← h2.rc p, rcOf_some he2]
      exact hfree.1
    simp only [wp_bind]
    refine h2.modifyEntry (.inl fun _ => rfl) fun s3 h3 => h3.clear hctx' fun s4 h4 => ?_
    refine h4.sync (fun _ => hctx') fun s5 h5 => ?_
    rw [wp_modify]
    have h6 : Ledger sb track w₀ K ph (addRef ρ p (-1)) { s5 with list := s5.list.erase p } :=
      ⟨h5.rc, h5.known, h5.reread, h5.fresh, h5.phase⟩
    refine h6.releaseLock fun s7 h7 => ?_
    rw [wp_modify]
    refine hq _ ⟨fun p' => ?_, fun p' j hj => ?_, h7.reread, fun p' hle => ?_, h7.phase⟩
    · rw [rcOf]
      dsimp only
      by_cases hne : p' = p
      · rw [hne, Function.update_self, h0]
      · rw [Function.update_of_ne hne]
        exact h7.rc p'
    · change Function.update s7.inode p none p' = some j at hj
      by_cases hne : p' = p
      · rw [hne, Function.update_self] at hj
        cases hj
      · rw [Function.update_of_ne hne] at hj
        exact h7.known p' j hj
    · show Function.update s7.inode p none p' = none
      by_cases hne : p' = p
      · rw [hne, Function.update_self]
      · rw [Function.update_of_ne hne]
        exact h7.fresh p' hle
  · exact h2.releaseLock hq

/-! ## Contents -/

/-- The rule of `inode_map`; without a context it allocates nothing. -/
theorem Ledger.map (h : Ledger sb track w₀ K ph ρ s) (hctx : ctx = none ∨ CtxOk track ph ctx)
    {off : ℕ} {R : ℕ → FsState → Prop} (hq : ∀ b t, Ledger sb track w₀ K ph ρ t → R b t) :
    books sb track w₀ (inodeMap sb ctx p off) R s := by
  have hindirect : ∀ {s} (off : ℕ), Ledger sb track w₀ K ph ρ s →
      books sb track w₀ (inodeMapIndirect sb ctx p off) R s := by
    intro s off h
    unfold inodeMapIndirect books
    simp only [wp_bind]
    refine h.deref fun i _ => h.acquire fun s1 h1 => books_read fun d => ?_
    split_ifs
    · cases ctx with
      | none => exact wp_pure.mpr (hq _ _ h1)
      | some c =>
        have hctx' := hctx.resolve_left fun e => by cases e
        simp only [wp_bind, wp_pure]
        refine h1.allocBlock hctx' fun b s2 h2 => books_read fun d => ?_
        exact h2.write fun s3 h3 => h3.syncRelease hctx' fun s4 h4 => hq _ _ h4
    · simp only [wp_bind, wp_pure]
      exact h1.release fun s2 h2 => hq _ _ h2
  unfold inodeMap books
  rw [wp_bind]
  refine h.deref fun i _ => ?_
  split_ifs
  · exact wp_pure.mpr (hq _ _ h)
  · cases ctx with
    | none => exact wp_pure.mpr (hq _ _ h)
    | some c =>
      have hctx' := hctx.resolve_left fun e => by cases e
      simp only [wp_bind, wp_pure]
      refine h.allocBlock hctx' fun b s1 h1 => h1.modifyEntry (.inl fun _ => rfl) fun s2 h2 => ?_
      exact h2.sync (fun _ => hctx') fun s3 h3 => hq _ _ h3
  · cases ctx with
    | none => exact wp_pure.mpr (hq _ _ h)
    | some c =>
      have hctx' := hctx.resolve_left fun e => by cases e
      simp only [wp_bind]
      refine h.allocBlock hctx' fun b s1 h1 => h1.modifyEntry (.inl fun _ => rfl) fun s2 h2 => ?_
      exact h2.sync (fun _ => hctx') fun s3 h3 => hindirect _ h3
  · exact hindirect _ h

theorem Ledger.consoleRead (h : Ledger sb track w₀ K ph ρ s) {count : ℕ}
    {R : List UInt8 → FsState → Prop} (hq : ∀ l t, Ledger sb track w₀ K ph ρ t → R l t) :
    books sb track w₀ (consoleRead p count) R s := by
  unfold Inodes.consoleRead books
  rw [wp_bind]
  refine h.unlock fun s1 h1 => ?_
  rw [wp_bind, wp_get]
  split
  · exact books_throw h1
  · simp only [wp_bind, wp_set, wp_pure]
    have h2 : Ledger sb track w₀ K ph ρ { s1 with input := ‹List (List UInt8)› } :=
      ⟨h1.rc, h1.known, h1.reread, h1.fresh, h1.phase⟩
    exact h2.lock fun _ s3 _ _ h3 => hq _ _ h3

/-- The rule of `inode_read`. -/
theorem Ledger.readInode (h : Ledger sb track w₀ K ph ρ s) {off count : ℕ}
    {R : List UInt8 → FsState → Prop} (hq : ∀ l t, Ledger sb track w₀ K ph ρ t → R l t) :
    books sb track w₀ (inodeRead sb p off count) R s := by
  have hloop : ∀ (n stop i : ℕ) {s} {R : List UInt8 → FsState → Prop},
      Ledger sb track w₀ K ph ρ s → (∀ l t, Ledger sb track w₀ K ph ρ t → R l t) →
      books sb track w₀ (inodeReadLoop sb p stop n i) R s := by
    intro n
    induction n with
    | zero => exact fun stop i s R h hq => wp_pure.mpr (hq _ _ h)
    | succ n ih =>
      intro stop i s R h hq
      unfold inodeReadLoop books
      split_ifs
      · simp only [wp_bind, wp_pure]
        refine h.map (.inl rfl) fun b s1 h1 => h1.acquire fun s2 h2 => books_read fun d => ?_
        exact h2.release fun s3 h3 => ih _ _ h3 fun l t ht => hq _ _ ht
      · exact wp_pure.mpr (hq _ _ h)
  unfold inodeRead books
  rw [wp_bind]
  refine h.deref fun i _ => ?_
  split
  · exact h.consoleRead hq
  dsimp only
  generalize usize (off + _) = stop
  split
  · exact hloop _ _ _ h hq
  · exact books_throw h

theorem Ledger.growTo (h : Ledger sb track w₀ K ph ρ s) (hctx : CtxOk track ph ctx) {stop : ℕ}
    (hq : ∀ t, Ledger sb track w₀ K ph ρ t → Q () t) :
    books sb track w₀ (growTo sb ctx p stop) Q s := by
  unfold Inodes.growTo books
  rw [wp_bind]
  refine h.deref fun i _ => ?_
  split_ifs
  · rw [wp_bind]
    exact h.modifyEntry (.inl fun _ => rfl) fun s1 h1 => h1.sync (fun _ => hctx) hq
  · exact wp_pure.mpr (hq _ h)

/-- The rule of `inode_write`. -/
theorem Ledger.writeInode (h : Ledger sb track w₀ K ph ρ s) (hctx : CtxOk track ph ctx)
    {src : List UInt8} {off : ℕ} {R : ℕ → FsState → Prop}
    (hq : ∀ n t, Ledger sb track w₀ K ph ρ t → R n t) :
    books sb track w₀ (inodeWrite sb ctx p src off) R s := by
  have hloop : ∀ (n : ℕ) (first : Bool) (src : List UInt8) (off : ℕ) {s},
      Ledger sb track w₀ K ph ρ s → books sb track w₀ (inodeWriteLoop sb ctx p n first src off)
        (fun _ t => Ledger sb track w₀ K ph ρ t) s := by
    intro n
    induction n with
    | zero => exact fun first src off s h => wp_pure.mpr h
    | succ n ih =>
      intro first src off s h
      unfold inodeWriteLoop books
      split_ifs
      · exact wp_pure.mpr h
      · simp only [wp_bind]
        refine h.map (.inr hctx) fun b s1 h1 => h1.acquire fun s2 h2 => books_read fun d => ?_
        exact h2.write fun s3 h3 => h3.syncRelease hctx fun s4 h4 => ih _ _ _ h4
      · simp only [wp_bind]
        refine h.map (.inr hctx) fun b s1 h1 => h1.acquire fun s2 h2 => books_read fun d => ?_
        exact h2.write fun s3 h3 => h3.syncRelease hctx fun s4 h4 => ih _ _ _ h4
  unfold inodeWrite consoleWrite books
  rw [wp_bind]
  refine h.deref fun i _ => ?_
  dsimp only
  split_ifs
  · simp only [wp_bind, wp_pure]
    exact h.unlock fun s1 h1 => h1.lock fun _ s2 _ _ h2 => hq _ _ h2
  · simp only [wp_bind, wp_pure]
    refine h.growTo hctx fun s1 h1 => (hloop _ _ _ _ h1).imp fun _ s2 h2 => ?_
    exact h2.growTo hctx fun s3 h3 => hq _ _ h3
  · exact books_throw h

end ShikiOS.Fs.Inodes
