import ShikiOS.Fs.FileContent
import ShikiOS.Fs.BlockOwnership

/-!
# References to inodes (`fs/inode.c`, lines 127-261)

`Refs sb σ ρ busy s` says that the inodes in memory are those on the device, that `ρ` counts the
references to each inode number, and that no lock is taken but that of `busy`.

Results: one rule for each of `inode_get`, `inode_share`, `inode_put`, `inode_lock` and
`inode_unlock`, with what it does to `ρ` and to `busy`.
-/

namespace ShikiOS.Fs.Inodes

open ShikiOS.Lib Bcache

/-- `q` is the inode `no` in memory. -/
def Holds (s : FsState) (q no : ℕ) : Prop := q ∈ s.list ∧ ∃ i, s.inode q = some i ∧ i.inodeNo = no

/-- `n` more references to inode `no`. -/
def bump (ρ : ℕ → ℤ) (no : ℕ) (n : ℤ) : ℕ → ℤ := Function.update ρ no (ρ no + n)

/-- An inode that is in memory. -/
def image (sb : SuperBlock) (σ : ℕ → BlockData) (ρ : ℕ → ℤ) (busy : Option ℕ) (q no : ℕ) : Inode :=
  ⟨if busy = some q then 0 else 1, ρ no, no, true, diskEntry sb σ no⟩

structure Refs (sb : SuperBlock) (σ : ℕ → BlockData) (ρ : ℕ → ℤ) (busy : Option ℕ) (s : FsState) :
    Prop where
  rep : Rep sb σ [] s.cache
  loaded : ∀ q ∈ s.list, ∃ no, s.inode q = some (image sb σ ρ busy q no)
  once : ∀ q q' no, Holds s q no → Holds s q' no → q = q'
  absent : ∀ no, (∀ q, ¬ Holds s q no) → ρ no = 0
  nonneg : ∀ no, 0 ≤ ρ no
  below : ∀ q ∈ s.list, q < s.nextPtr

/-- The state after an assignment to `*q`. -/
def setInode (s : FsState) (q : ℕ) (i : Inode) : FsState :=
  { s with inode := Function.update s.inode q (some i) }

theorem setInode_self (s : FsState) (q : ℕ) (i : Inode) : (setInode s q i).inode q = some i :=
  Function.update_self ..

/-- The inodes that were in memory are still there, and what is not on the list is as it was. -/
structure Kept (s t : FsState) : Prop where
  holds : ∀ q no, Holds s q no → Holds t q no
  list : ∀ q ∈ t.list, q ∈ s.list ∨ s.nextPtr ≤ q
  nextPtr : s.nextPtr ≤ t.nextPtr
  rest : ∀ q, q ∉ s.list → q < s.nextPtr → t.inode q = s.inode q

variable {sb : SuperBlock} {σ : ℕ → BlockData} {ρ : ℕ → ℤ} {busy : Option ℕ} {s t u : FsState}
  {q no : ℕ} {n m : ℤ}

@[simp] theorem bump_self : bump ρ no n no = ρ no + n := Function.update_self ..

theorem bump_of_ne {no' : ℕ} (h : no' ≠ no) : bump ρ no n no' = ρ no' := Function.update_of_ne h ..

@[simp] theorem bump_zero : bump ρ no 0 = ρ := by
  rw [bump, add_zero, Function.update_eq_self]

theorem bump_bump : bump (bump ρ no n) no m = bump ρ no (n + m) := by
  rw [bump, bump_self, bump, Function.update_idem, add_assoc, ← bump]

theorem bump_comm {no' : ℕ} : bump (bump ρ no n) no' m = bump (bump ρ no' m) no n := by
  by_cases h : no' = no
  · rw [h, bump_bump, bump_bump, add_comm]
  · rw [bump, bump_of_ne h, bump, bump, bump_of_ne (Ne.symm h), bump, Function.update_comm (Ne.symm h)]

theorem Kept.refl (s : FsState) : Kept s s :=
  ⟨fun _ _ h => h, fun _ h => .inl h, le_rfl, fun _ _ _ => rfl⟩

theorem Kept.trans (h : Kept s t) (h' : Kept t u) : Kept s u := by
  refine ⟨fun q no hq => h'.holds q no (h.holds q no hq), fun q hq => ?_, h.nextPtr.trans h'.nextPtr,
    fun q hq hlt => ?_⟩
  · rcases h'.list q hq with hq | hge
    · exact h.list q hq
    · exact .inr (h.nextPtr.trans hge)
  · have hnot : q ∉ t.list := fun hm => (h.list q hm).elim hq (not_le.mpr hlt)
    rw [h'.rest q hnot (hlt.trans_le h.nextPtr), h.rest q hq hlt]

/-- Only blocks are cached anew. -/
theorem Kept.of_cache {c : CacheState} : Kept s { s with cache := c } :=
  ⟨fun _ _ h => h, fun _ h => .inl h, le_rfl, fun _ _ _ => rfl⟩

theorem Refs.of_rep (h : Refs sb σ ρ busy s) {c : CacheState} (hc : Rep sb σ [] c) :
    Refs sb σ ρ busy { s with cache := c } :=
  ⟨hc, h.loaded, h.once, h.absent, h.nonneg, h.below⟩

theorem Refs.inode (h : Refs sb σ ρ busy s) (hq : Holds s q no) :
    s.inode q = some (image sb σ ρ busy q no) := by
  obtain ⟨hm, i, hi, rfl⟩ := hq
  obtain ⟨no, hno⟩ := h.loaded q hm
  obtain rfl := Option.some.inj (hi.symm.trans hno)
  exact hno

/-- The count and the lock of one inode change. -/
theorem Refs.set (h : Refs sb σ ρ busy s) (hq : Holds s q no) (n : ℤ) (busy' : Option ℕ)
    (hn : 0 ≤ ρ no + n) (hb : ∀ q', q' ≠ q → (busy' = some q' ↔ busy = some q')) :
    Refs sb σ (bump ρ no n) busy' (setInode s q (image sb σ (bump ρ no n) busy' q no)) ∧
      Kept s (setInode s q (image sb σ (bump ρ no n) busy' q no)) := by
  generalize ht : setInode s q (image sb σ (bump ρ no n) busy' q no) = t
  have hlist : t.list = s.list := ht ▸ rfl
  have hself : t.inode q = some (image sb σ (bump ρ no n) busy' q no) := by
    rw [← ht]
    exact Function.update_self ..
  have hother : ∀ q', q' ≠ q → t.inode q' = s.inode q' := fun q' hne => by
    rw [← ht]
    exact Function.update_of_ne hne ..
  have hholds : ∀ q' no', Holds t q' no' ↔ Holds s q' no' := by
    intro q' no'
    unfold Holds
    rw [hlist]
    by_cases hne : q' = q
    · subst hne
      rw [hself, h.inode hq]
      simp [image]
    · rw [hother q' hne]
  refine ⟨⟨by rw [← ht]; exact h.rep, fun q' hq' => ?_, fun q' q'' no' h1 h2 => ?_, fun no' habs => ?_,
    fun no' => ?_, fun q' hq' => ?_⟩, fun q' no' h' => (hholds q' no').mpr h',
    fun q' hq' => .inl (hlist ▸ hq'), ht ▸ le_rfl, fun q' hq' _ => ?_⟩
  · by_cases hne : q' = q
    · exact ⟨no, hne ▸ hself⟩
    · rw [hlist] at hq'
      obtain ⟨no', hno'⟩ := h.loaded q' hq'
      have hno : no' ≠ no := by
        rintro rfl
        exact hne (h.once q' q no' ⟨hq', _, hno', rfl⟩ hq)
      refine ⟨no', ?_⟩
      rw [hother q' hne, hno', image, image, bump_of_ne hno]
      simp only [hb q' hne]
  · exact h.once q' q'' no' ((hholds _ _).mp h1) ((hholds _ _).mp h2)
  · have hno : no' ≠ no := by
      rintro rfl
      exact habs q ((hholds q no').mpr hq)
    rw [bump_of_ne hno]
    exact h.absent no' fun q' hq' => habs q' ((hholds q' no').mpr hq')
  · by_cases hne : no' = no
    · rw [hne, bump_self]
      exact hn
    · rw [bump_of_ne hne]
      exact h.nonneg no'
  · rw [hlist] at hq'
    have := h.below q' hq'
    rw [← ht]
    exact this
  · refine hother q' fun hne => hq' ?_
    rw [hne]
    exact hq.1

/-! ## Rules -/

variable {E : Stop → FsState → Prop} {ctx : Option ℕ}

theorem Refs.wp_change (h : Refs sb σ ρ busy s) (hq : Holds s q no) {f : Inode → Inode} (n : ℤ)
    (busy' : Option ℕ) (hn : 0 ≤ ρ no + n) (hb : ∀ q', q' ≠ q → (busy' = some q' ↔ busy = some q'))
    (hf : f (image sb σ ρ busy q no) = image sb σ (bump ρ no n) busy' q no) {Q : Unit → FsState → Prop}
    (hQ : ∀ t, Refs sb σ (bump ρ no n) busy' t → Kept s t → Q () t) : wp (modifyInode q f) Q E s := by
  rw [wp_modifyInode (h.inode hq), hf]
  obtain ⟨h1, h2⟩ := h.set hq n busy' hn hb
  exact hQ _ h1 h2

theorem Refs.wp_acquireLock (h : Refs sb σ ρ none s) (hq : Holds s q no) {Q : Unit → FsState → Prop}
    (hQ : ∀ t, Refs sb σ ρ (some q) t → Kept s t → Q () t) : wp (acquireLock q) Q E s := by
  unfold acquireLock
  rw [wp_bind, wp_deref (h.inode hq)]
  refine wp.ite (fun hlock => ?_) fun _ => ?_
  · exact absurd hlock (by simp [image])
  · have hnon := h.nonneg no
    refine h.wp_change hq 0 (some q) (by omega) (fun q' hne => ?_) (by simp [image]) fun t ht hk => ?_
    · exact iff_of_false (fun he => hne (Option.some.inj he).symm) (by simp)
    · rw [bump_zero] at ht
      exact hQ t ht hk

theorem Refs.wp_releaseLock (h : Refs sb σ ρ (some q) s) (hq : Holds s q no)
    {Q : Unit → FsState → Prop} (hQ : ∀ t, Refs sb σ ρ none t → Kept s t → Q () t) :
    wp (releaseLock q) Q E s := by
  have hnon := h.nonneg no
  refine h.wp_change hq 0 none (by omega) (fun q' hne => ?_) (by simp [image]) fun t ht hk => ?_
  · exact iff_of_false (by simp) fun he => hne (Option.some.inj he).symm
  · rw [bump_zero] at ht
    exact hQ t ht hk

/-- The rule of `inode_lock`. -/
theorem Refs.wp_lock (h : Refs sb σ ρ none s) (hq : Holds s q no) (hpos : 0 < ρ no)
    {Q : Unit → FsState → Prop} (hQ : ∀ t, Refs sb σ ρ (some q) t → Kept s t → Q () t) :
    wp (inodeLock q) Q E s := by
  unfold inodeLock
  rw [wp_bind, wp_deref (h.inode hq)]
  refine wp.ite (fun hrc => absurd hrc (not_le.mpr hpos)) fun _ => h.wp_acquireLock hq hQ

/-- The rule of `inode_unlock`. -/
theorem Refs.wp_unlock (h : Refs sb σ ρ (some q) s) (hq : Holds s q no) (hpos : 0 < ρ no)
    {Q : Unit → FsState → Prop} (hQ : ∀ t, Refs sb σ ρ none t → Kept s t → Q () t) :
    wp (inodeUnlock q) Q E s := by
  unfold inodeUnlock
  rw [wp_bind, wp_deref (h.inode hq)]
  refine wp.ite (fun hrc => absurd hrc (not_le.mpr hpos)) fun _ => h.wp_releaseLock hq hQ

/-- The rule of `inode_share`. -/
theorem Refs.wp_share (h : Refs sb σ ρ busy s) (hq : Holds s q no) {Q : ℕ → FsState → Prop}
    (hQ : ∀ t, Refs sb σ (bump ρ no 1) busy t → Kept s t → Q q t) : wp (inodeShare q) Q E s := by
  have hnon := h.nonneg no
  unfold inodeShare
  rw [wp_bind]
  refine h.wp_change hq 1 busy (by omega) (fun _ _ => Iff.rfl) (by simp [image]) fun t ht hk => ?_
  exact wp_pure.mpr (hQ t ht hk)

/-- The rule of `inode_put`, where it is not the last reference to an inode without links. -/
theorem Refs.wp_put (h : Refs sb σ ρ none s) (hq : Holds s q no) (hpos : 0 < ρ no)
    (hkeep : (diskEntry sb σ no).numLinks ≠ 0 ∨ 1 < ρ no) {Q : Unit → FsState → Prop}
    (hQ : ∀ t, Refs sb σ (bump ρ no (-1)) none t → Kept s t → Q () t) :
    wp (inodePut sb ctx q) Q E s := by
  unfold inodePut
  rw [wp_bind]
  refine h.wp_acquireLock hq fun t1 h1 k1 => ?_
  rw [wp_bind]
  refine h1.wp_change (k1.holds q no hq) (-1) (some q) (by omega) (fun _ _ => Iff.rfl)
    (by simp [image, sub_eq_add_neg]) fun t2 h2 k2 => ?_
  have hq2 := k2.holds q no (k1.holds q no hq)
  rw [wp_bind, wp_deref (h2.inode hq2)]
  refine wp.ite (fun hfree => ?_) fun _ => ?_
  · have hrc : ρ no + -1 = 0 := bump_self.symm.trans hfree.1
    rcases hkeep with hlinks | hmore
    · exact absurd hfree.2 hlinks
    · omega
  · exact h2.wp_releaseLock hq2 fun t3 h3 k3 => hQ t3 h3 ((k1.trans k2).trans k3)

/-! ## `inode_get` -/

theorem holds_of_findInode (h : findInode s no = some q) : Holds s q no := by
  refine ⟨List.mem_of_find?_eq_some h, ?_⟩
  have hno := List.find?_some h
  split at hno
  · next i hi => exact ⟨i, hi, beq_iff_eq.mp hno⟩
  · cases hno

theorem not_holds_of_findInode (h : findInode s no = none) : ¬ Holds s q no := by
  rintro ⟨hm, i, hi, hno⟩
  have hne := List.find?_eq_none.mp h q hm
  rw [hi] at hne
  exact hne (beq_iff_eq.mpr hno)

@[simp] theorem wp_deref_set {i : Inode} {Q : Inode → FsState → Prop} :
    wp (deref q) Q E (setInode s q i) ↔ Q i (setInode s q i) :=
  wp_deref (Function.update_self ..)

@[simp] theorem wp_modify_set {i : Inode} {f : Inode → Inode} {Q : Unit → FsState → Prop} :
    wp (modifyInode q f) Q E (setInode s q i) ↔ Q () (setInode s q (f i)) := by
  rw [wp_modifyInode (Function.update_self ..)]
  have hset : ({ setInode s q i with
      inode := Function.update (setInode s q i).inode q (some (f i)) } : FsState) =
        setInode s q (f i) := by
    unfold setInode
    dsimp only
    rw [Function.update_idem]
  rw [hset]

/-- The state after a new inode is put on the list. -/
def addInode (s : FsState) (i : Inode) : FsState :=
  { setInode s s.nextPtr i with list := s.nextPtr :: s.list, nextPtr := s.nextPtr + 1 }

theorem Refs.add (h : Refs sb σ ρ busy s) (hno : ∀ q, ¬ Holds s q no)
    (hbusy : ∀ q, busy = some q → q < s.nextPtr) {c : CacheState} (hc : Rep sb σ [] c) :
    Holds (addInode { s with cache := c } ⟨1, 1, no, true, diskEntry sb σ no⟩) s.nextPtr no ∧
    Refs sb σ (bump ρ no 1) busy (addInode { s with cache := c } ⟨1, 1, no, true, diskEntry sb σ no⟩) ∧
    Kept s (addInode { s with cache := c } ⟨1, 1, no, true, diskEntry sb σ no⟩) := by
  generalize hi : (⟨1, 1, no, true, diskEntry sb σ no⟩ : Inode) = i
  generalize ht : addInode { s with cache := c } i = t
  have hlist : t.list = s.nextPtr :: s.list := ht ▸ rfl
  have hnext : t.nextPtr = s.nextPtr + 1 := ht ▸ rfl
  have hself : t.inode s.nextPtr = some i := by
    rw [← ht]
    exact Function.update_self ..
  have hother : ∀ q, q ≠ s.nextPtr → t.inode q = s.inode q := fun q hne => by
    rw [← ht]
    exact Function.update_of_ne hne ..
  have hnew : ∀ q ∈ s.list, q ≠ s.nextPtr := fun q hq => Nat.ne_of_lt (h.below q hq)
  have hadd : Holds t s.nextPtr no := ⟨hlist ▸ List.mem_cons_self, i, hself, hi ▸ rfl⟩
  have hkeep : ∀ q no', Holds s q no' → Holds t q no' := by
    rintro q no' ⟨hq, i', hi', hno'⟩
    exact ⟨hlist ▸ List.mem_cons_of_mem _ hq, i', (hother q (hnew q hq)).trans hi', hno'⟩
  have hback : ∀ q no', Holds t q no' → q = s.nextPtr ∧ no' = no ∨ Holds s q no' := by
    rintro q no' ⟨hq, i', hi', hno'⟩
    rw [hlist] at hq
    rcases List.mem_cons.mp hq with rfl | hq
    · obtain rfl := Option.some.inj (hself.symm.trans hi')
      exact .inl ⟨rfl, by rw [← hno', ← hi]⟩
    · exact .inr ⟨hq, i', (hother q (hnew q hq)).symm.trans hi', hno'⟩
  refine ⟨hadd, ⟨by rw [← ht]; exact hc, fun q hq => ?_, fun q q' no' h1 h2 => ?_, fun no' habs => ?_,
    fun no' => ?_, fun q hq => ?_⟩, hkeep, fun q hq => ?_, hnext ▸ Nat.le_succ _,
    fun q _ hlt => hother q (Nat.ne_of_lt hlt)⟩
  · rw [hlist] at hq
    rcases List.mem_cons.mp hq with rfl | hq
    · refine ⟨no, ?_⟩
      have hfree : ¬ busy = some s.nextPtr := fun hb => lt_irrefl _ (hbusy _ hb)
      rw [hself, ← hi, image, if_neg hfree, bump_self, h.absent no hno, zero_add]
    · obtain ⟨no', hno'⟩ := h.loaded q hq
      have hne : no' ≠ no := by
        rintro rfl
        exact hno q ⟨hq, _, hno', rfl⟩
      exact ⟨no', by rw [hother q (hnew q hq), hno', image, image, bump_of_ne hne]⟩
  · rcases hback q no' h1 with ⟨rfl, rfl⟩ | h1
    · rcases hback q' no' h2 with ⟨rfl, -⟩ | h2
      · rfl
      · exact absurd h2 (hno q')
    · rcases hback q' no' h2 with ⟨-, rfl⟩ | h2
      · exact absurd h1 (hno q)
      · exact h.once q q' no' h1 h2
  · have hne : no' ≠ no := by
      rintro rfl
      exact habs _ hadd
    rw [bump_of_ne hne]
    exact h.absent no' fun q hq => habs q (hkeep q no' hq)
  · have hnon := h.nonneg no'
    by_cases hne : no' = no
    · subst hne
      rw [bump_self]
      omega
    · rwa [bump_of_ne hne]
  · rw [hlist] at hq
    rw [hnext]
    rcases List.mem_cons.mp hq with rfl | hq
    · exact Nat.lt_succ_self _
    · exact (h.below q hq).trans (Nat.lt_succ_self _)
  · rw [hlist] at hq
    rcases List.mem_cons.mp hq with rfl | hq
    · exact .inr le_rfl
    · exact .inl hq

/-- The rule of `inode_get` where the inode is not in memory: its entry is read. -/
theorem wp_inodeGet_new (hl : sb.Layout) (h : Rep sb σ [] s.cache) (h0 : no ≠ 0) (hlt : no < sb.numInodes)
    (hf : findInode s no = none) {Q : Option ℕ → FsState → Prop}
    (hQ : ∀ c, Rep sb σ [] c → Q (some s.nextPtr)
      (addInode { s with cache := c } ⟨1, 1, no, true, diskEntry sb σ no⟩)) :
    wp (inodeGet sb no) Q E s := by
  unfold inodeGet
  rw [if_neg h0, if_neg (not_le.mpr hlt), wp_bind, wp_get, hf]
  dsimp only
  rw [wp_bind, wp_set]
  -- the new inode is not on the list until its entry has been read
  change wp _ Q E (setInode { s with nextPtr := s.nextPtr + 1 } s.nextPtr
    ⟨1, 0, no, false, InodeEntry.zero⟩)
  generalize hp : s.nextPtr = p
  generalize hs' : ({ s with nextPtr := p + 1 } : FsState) = s'
  have hcache : s'.cache = s.cache := hs' ▸ rfl
  have hopen : ∀ (i : Inode), Opened sb σ p i.entry (setInode s' p i) := fun i =>
    ⟨by rw [setInode, hcache]; exact h, i, Function.update_self .., rfl⟩
  unfold inodeLock inodeUnlock acquireLock releaseLock inodeSync
  simp only [wp_bind, wp_modify_set, wp_deref_set]
  rw [if_neg (by norm_num), wp_bind, wp_deref_set, if_neg (by norm_num), wp_modify_set, wp_deref_set]
  refine (hopen _).fetch (hl.not_inLog_toBlockNo hlt) fun c1 hc1 => ?_
  dsimp only
  rw [if_neg (by simp), wp_bind]
  change wp _ _ E (setInode { s' with cache := c1 } p _)
  rw [wp_modify_set]
  refine (hopen ⟨_, _, _, _, _⟩).release hc1 fun c2 hc2 => ?_
  change wp _ _ E (setInode { s' with cache := c2 } p _)
  rw [wp_deref_set, if_neg (by norm_num), wp_modify_set, wp_modify, wp_pure]
  subst hs' hp
  exact hQ c2 hc2.rep

/-- The rule of `inode_get`. -/
theorem Refs.wp_inodeGet (hl : sb.Layout) (h : Refs sb σ ρ busy s) (h0 : no ≠ 0) (hlt : no < sb.numInodes)
    (hbusy : ∀ q, busy = some q → q < s.nextPtr) {Q : Option ℕ → FsState → Prop}
    (hQ : ∀ q t, Holds t q no → Refs sb σ (bump ρ no 1) busy t → Kept s t → Q (some q) t) :
    wp (inodeGet sb no) Q E s := by
  cases hf : findInode s no with
  | some q =>
    have hq := holds_of_findInode hf
    have hnon := h.nonneg no
    unfold inodeGet
    rw [if_neg h0, if_neg (not_le.mpr hlt), wp_bind, wp_get, hf]
    dsimp only
    rw [wp_bind]
    refine h.wp_change hq 1 busy (by omega) (fun _ _ => Iff.rfl) (by simp [image]) fun t ht hk => ?_
    exact wp_pure.mpr (hQ q t (hk.holds q no hq) ht hk)
  | none =>
    refine wp_inodeGet_new hl h.rep h0 hlt hf fun c hc => ?_
    obtain ⟨h1, h2, h3⟩ := h.add (fun q => not_holds_of_findInode hf) hbusy hc
    exact hQ _ _ h1 h2 h3

/-! ## What a caller sees -/

/-- The reference count of an inode number; it is 0 where the inode is not in memory. -/
def refs (s : FsState) (no : ℕ) : ℤ :=
  match findInode s no with
  | some q =>
    match s.inode q with
    | some i => i.rc
    | none => 0
  | none => 0

theorem Refs.refs_eq (h : Refs sb σ ρ busy s) : refs s = ρ := by
  funext no
  unfold refs
  cases hf : findInode s no with
  | some q =>
    dsimp only
    rw [h.inode (holds_of_findInode hf)]
    rfl
  | none => exact (h.absent no fun q => not_holds_of_findInode hf).symm

/-- A call that returns `r` has taken one reference to it and none to any other inode. The locks are
    as they were, and those of the inodes that were read into memory are free. -/
structure OneRef (s : FsState) (r : Option ℕ) (t : FsState) : Prop where
  old : ∀ q i, q < s.nextPtr → s.inode q = some i →
    t.inode q = some { i with rc := i.rc + if r = some q then 1 else 0 }
  new : ∀ q ∈ t.list, q ∉ s.list →
    ∃ i, t.inode q = some i ∧ i.lock = 1 ∧ i.rc = if r = some q then 1 else 0

/-- The counts before and after, where `r` is `target` in memory. -/
theorem Refs.oneRef {ρ' : ℕ → ℤ} {r : Option ℕ} (target : Option ℕ) (h : Refs sb σ ρ none s)
    (h' : Refs sb σ ρ' none t) (hk : Kept s t)
    (hρ : ∀ no, ρ' no = ρ no + if target = some no then 1 else 0)
    (hr : ∀ q no, Holds t q no → (r = some q ↔ target = some no)) (hlist : ∀ q, r = some q → q ∈ t.list) :
    OneRef s r t := by
  have hcount : ∀ q no, Holds t q no → ρ' no = ρ no + if r = some q then 1 else 0 := by
    intro q no hq
    rw [hρ no]
    simp only [hr q no hq]
  refine ⟨fun q i hlt hi => ?_, fun q hq hnot => ?_⟩
  · by_cases hq : q ∈ s.list
    · obtain ⟨no, hno⟩ := h.loaded q hq
      obtain rfl := Option.some.inj (hi.symm.trans hno)
      have ht := hk.holds q no ⟨hq, _, hi, rfl⟩
      rw [h'.inode ht, image, hcount q no ht]
      rfl
    · have hne : r ≠ some q := fun he => (hk.list q (hlist q he)).elim hq (not_le.mpr hlt)
      rw [if_neg hne, add_zero, hk.rest q hq hlt, hi]
  · obtain ⟨no, hno⟩ := h'.loaded q hq
    have ht : Holds t q no := ⟨hq, _, hno, rfl⟩
    have habs : ρ no = 0 := by
      refine h.absent no fun q' hq' => hnot ?_
      rw [h'.once q q' no ht (hk.holds q' no hq')]
      exact hq'.1
    exact ⟨_, hno, rfl, by rw [image, hcount q no ht, habs, zero_add]⟩

end ShikiOS.Fs.Inodes
