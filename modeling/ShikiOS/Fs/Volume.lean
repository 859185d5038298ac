import ShikiOS.Fs.FileReadWrite
import ShikiOS.Fs.InodeClear
import ShikiOS.Fs.InodeRefs
import ShikiOS.Fs.Store

/-!
# The inode layer is a store of files (`fs/inode.c`)

`view sb σ s` is the store that a caller of the inode layer sees: the files are read off the blocks
`σ` that the cache represents, the pointers off the inodes in memory. `Volume sb σ ρ busy s` is what
holds between two calls, and while the lock of `busy` is taken: every inode in memory is a file, no
block is stored twice, and no file has holes.

Results:
* `Volume.change`: a change of one file is one in the view.
* `Volume.wp_alloc`, `Volume.wp_get`, `Volume.wp_share`, `Volume.wp_read`, `Volume.wp_write`,
  `Volume.wp_setLinks`, `Volume.wp_clear`, `Volume.wp_put`: each call does to the view what the store
  does, and neither sleeps nor uses memory that was freed.
-/

namespace ShikiOS.Fs.Inodes

open ShikiOS.Lib Bcache

/-- Inode `no` is a file. -/
def Allocated (sb : SuperBlock) (σ : ℕ → BlockData) (no : ℕ) : Prop :=
  no ≠ 0 ∧ no < sb.numInodes ∧ (diskEntry sb σ no).type ≠ inodeInvalid

instance (sb : SuperBlock) (σ : ℕ → BlockData) (no : ℕ) : Decidable (Allocated sb σ no) :=
  inferInstanceAs (Decidable (_ ∧ _ ∧ _))

/-- Inode `no` has the blocks of all its parts. -/
def Whole (sb : SuperBlock) (σ : ℕ → BlockData) (no : ℕ) : Prop :=
  ∀ x, x * blockSize < (diskEntry sb σ no).numBytes.toNat → x < inodeNumParts ∧ part sb σ no x ≠ 0

/-- The file that inode `no` is. -/
def viewFile (sb : SuperBlock) (σ : ℕ → BlockData) (no : ℕ) : Option FileData :=
  if Allocated sb σ no then
    some ⟨(diskEntry sb σ no).type, (diskEntry sb σ no).numLinks, fileContent σ (diskEntry sb σ no)⟩
  else none

/-- The number and the reference count of what `p` points to. -/
def viewHandle (s : FsState) (p : ℕ) : Option (ℕ × ℤ) := (s.inode p).map fun i => (i.inodeNo, i.rc)

def view (sb : SuperBlock) (σ : ℕ → BlockData) (s : FsState) : Store := ⟨viewFile sb σ, viewHandle s⟩

structure Volume (sb : SuperBlock) (σ : ℕ → BlockData) (ρ : ℕ → ℤ) (busy : Option ℕ) (s : FsState) :
    Prop where
  refs : Refs sb σ ρ busy s
  owns : Owns sb σ s.fresh
  whole : ∀ no, Allocated sb σ no → Whole sb σ no
  live : ∀ q no, Holds s q no → Allocated sb σ no
  dead : ∀ q, s.inode q ≠ none → q ∈ s.list
  nodup : s.list.Nodup

variable {sb : SuperBlock} {σ τ : ℕ → BlockData} {ρ : ℕ → ℤ} {busy : Option ℕ} {s t : FsState}
  {q no j c : ℕ} {F : List ℕ} {e : InodeEntry}

/-! ## The view -/

theorem viewFile_of (h : Allocated sb σ no) : viewFile sb σ no =
    some ⟨(diskEntry sb σ no).type, (diskEntry sb σ no).numLinks, fileContent σ (diskEntry sb σ no)⟩ :=
  if_pos h

theorem viewFile_eq_none : viewFile sb σ no = none ↔ ¬ Allocated sb σ no := by
  unfold viewFile
  split_ifs with h <;> simp [h]

theorem Holds.unique {no' : ℕ} (h : Holds s q no) (h' : Holds s q no') : no = no' := by
  obtain ⟨-, i, hi, rfl⟩ := h
  obtain ⟨-, i', hi', rfl⟩ := h'
  rw [Option.some.inj (hi.symm.trans hi')]

/-- A file may be taken to be open. -/
theorem opened_file (hr : Rep sb σ [] s.cache) (ho : Owns sb σ F) (ha : Allocated sb σ no)
    (hw : Whole sb σ no) :
    OpenInode sb σ F 0 ⟨1, 1, no, true, diskEntry sb σ no⟩ (setInode s 0 ⟨1, 1, no, true, diskEntry sb σ no⟩) :=
  ⟨hr, setInode_self s 0 _, ha.2.1, rfl, ha.2.2, rfl, ho, hw⟩

theorem Volume.opened (h : Volume sb σ ρ busy s) (hq : Holds s q no) :
    OpenInode sb σ s.fresh q (image sb σ ρ busy q no) s := by
  have ha := h.live q no hq
  exact ⟨h.refs.rep, h.refs.inode hq, ha.2.1, rfl, ha.2.2, rfl, h.owns, h.whole no ha⟩

theorem SameInode.part_eq (h : SameInode sb σ τ j) (x : ℕ) : part sb τ j x = part sb σ j x :=
  h.slots (fileSlot x)

theorem SameInode.allocated (h : SameInode sb σ τ j) : Allocated sb τ j ↔ Allocated sb σ j := by
  unfold Allocated
  rw [h.entry]

theorem SameInode.whole (h : SameInode sb σ τ j) (hw : Whole sb σ j) : Whole sb τ j := by
  intro x hx
  rw [h.entry] at hx
  rw [h.part_eq]
  exact hw x hx

/-- A file whose size and whose blocks are the same has the same bytes. -/
theorem content_same {c d : CacheState} {F' : List ℕ} (hσ : Rep sb σ [] c) (hτ : Rep sb τ [] d)
    (ho : Owns sb σ F) (ho' : Owns sb τ F') (ha : Allocated sb σ j) (ha' : Allocated sb τ j) (hw : Whole sb σ j)
    (hsize : (diskEntry sb τ j).numBytes = (diskEntry sb σ j).numBytes)
    (hslots : ∀ x, stored sb τ j x = stored sb σ j x)
    (hblocks : ∀ x, stored sb σ j x ≠ 0 → τ (stored sb σ j x) = σ (stored sb σ j x)) :
    Whole sb τ j ∧ fileContent τ (diskEntry sb τ j) = fileContent σ (diskEntry sb σ j) := by
  have hpart : ∀ x, part sb τ j x = part sb σ j x := fun x => hslots (fileSlot x)
  have hw' : Whole sb τ j := by
    intro x hx
    rw [hsize] at hx
    rw [hpart]
    exact hw x hx
  have hopen := opened_file (s := ⟨c, [], fun _ => none, 0, [], []⟩) hσ ho ha hw
  have hopen' := opened_file (s := ⟨d, [], fun _ => none, 0, [], []⟩) hτ ho' ha' hw'
  refine ⟨hw', ?_⟩
  rw [fileContent, fileContent, hsize]
  refine fileBytes_congr fun x _ hx => ?_
  rw [Nat.zero_add] at hx
  have h1 := hopen.fileByte_eq hx
  have h2 := hopen'.fileByte_eq (x := x) (by rw [hsize]; exact hx)
  dsimp only at h1 h2
  have h0 := (hw (x / blockSize) ((Nat.div_mul_le_self x blockSize).trans_lt hx)).2
  have hblock : τ (part sb σ j (x / blockSize)) = σ (part sb σ j (x / blockSize)) := hblocks _ h0
  rw [h1, h2, partByte, partByte, hpart, hblock]

/-- An inode with the same entry and the same blocks is the same file. -/
theorem SameInode.viewFile {c d : CacheState} {F' : List ℕ} (h : SameInode sb σ τ j) (hσ : Rep sb σ [] c)
    (hτ : Rep sb τ [] d) (ho : Owns sb σ F) (ho' : Owns sb τ F') (hw : Allocated sb σ j → Whole sb σ j) :
    viewFile sb τ j = viewFile sb σ j := by
  by_cases ha : Allocated sb σ j
  · have ha' := h.allocated.mpr ha
    have hsize : (diskEntry sb τ j).numBytes = (diskEntry sb σ j).numBytes := by rw [h.entry]
    obtain ⟨-, hbytes⟩ := content_same hσ hτ ho ho' ha ha' (hw ha) hsize h.slots h.blocks
    rw [viewFile_of ha, viewFile_of ha', hbytes, h.entry]
  · rw [viewFile_eq_none.mpr ha, viewFile_eq_none.mpr (h.allocated.not.mpr ha)]

/-- The inodes other than `no` are the same on both devices. -/
def OthersSame (sb : SuperBlock) (σ τ : ℕ → BlockData) (no : ℕ) : Prop :=
  ∀ j < sb.numInodes, j ≠ no → SameInode sb σ τ j

theorem OthersSame.trans {υ : ℕ → BlockData} (h : OthersSame sb σ τ no) (h' : OthersSame sb τ υ no) :
    OthersSame sb σ υ no := by
  intro j hj hne
  obtain ⟨he, hs, hb⟩ := h j hj hne
  obtain ⟨he', hs', hb'⟩ := h' j hj hne
  refine ⟨he'.trans he, fun x => (hs' x).trans (hs x), fun x h0 => ?_⟩
  have h1 := hb' x (by rw [hs]; exact h0)
  rw [hs] at h1
  exact h1.trans (hb x h0)

theorem OthersSame.allocated (h : OthersSame sb σ τ no) (hj : j ≠ no) :
    Allocated sb τ j ↔ Allocated sb σ j := by
  by_cases hlt : j < sb.numInodes
  · exact (h j hlt hj).allocated
  · exact iff_of_false (fun hc => hlt hc.2.1) fun hc => hlt hc.2.1

/-- Only the file `no` may have changed. -/
theorem OthersSame.viewFile {c d : CacheState} {F' : List ℕ} (h : OthersSame sb σ τ no) (hσ : Rep sb σ [] c)
    (hτ : Rep sb τ [] d) (ho : Owns sb σ F) (ho' : Owns sb τ F') (hw : ∀ j, Allocated sb σ j → Whole sb σ j) :
    viewFile sb τ = Function.update (viewFile sb σ) no (viewFile sb τ no) := by
  funext j
  by_cases hj : j = no
  · rw [hj, Function.update_self]
  · rw [Function.update_of_ne hj]
    by_cases hlt : j < sb.numInodes
    · exact (h j hlt hj).viewFile hσ hτ ho ho' (hw j)
    · rw [viewFile_eq_none.mpr fun hc => hlt hc.2.1, viewFile_eq_none.mpr fun hc => hlt hc.2.1]

/-- No file has holes, if the file `no` has none. -/
theorem OthersSame.whole (h : OthersSame sb σ τ no) (hw : ∀ j, Allocated sb σ j → Whole sb σ j)
    (hno : Allocated sb τ no → Whole sb τ no) : ∀ j, Allocated sb τ j → Whole sb τ j := by
  intro j hj
  by_cases hne : j = no
  · rw [hne] at hj ⊢
    exact hno hj
  · have hold := (h.allocated hne).mp hj
    exact (h j hold.2.1 hne).whole (hw j hold)

@[simp] theorem viewHandle_setInode {i : Inode} :
    viewHandle (setInode s q i) = Function.update (viewHandle s) q (some (i.inodeNo, i.rc)) := by
  funext p
  show Option.map _ (Function.update s.inode q (some i) p) = _
  by_cases hp : p = q
  · rw [hp, Function.update_self, Function.update_self]
    rfl
  · rw [Function.update_of_ne hp, Function.update_of_ne hp]
    rfl

/-- Blocks are cached or written anew. -/
theorem Volume.of_rep (h : Volume sb σ ρ busy s) {d : CacheState} (hd : Rep sb σ [] d) :
    Volume sb σ ρ busy { s with cache := d } :=
  ⟨h.refs.of_rep hd, h.owns, h.whole, h.live, h.dead, h.nodup⟩

theorem Volume.handle (h : Volume sb σ ρ busy s) (hq : Holds s q no) :
    (view sb σ s).handle q = some (no, ρ no) := by
  show viewHandle s q = _
  unfold viewHandle
  rw [h.refs.inode hq]
  rfl

theorem Volume.file (h : Volume sb σ ρ busy s) (hq : Holds s q no) : (view sb σ s).files no =
    some ⟨(diskEntry sb σ no).type, (diskEntry sb σ no).numLinks, fileContent σ (diskEntry sb σ no)⟩ :=
  viewFile_of (h.live q no hq)

/-- A pointer in the view is one to an inode in memory. -/
theorem Volume.holds (h : Volume sb σ ρ busy s) {n : ℤ} (hq : (view sb σ s).handle q = some (no, n)) :
    Holds s q no ∧ n = ρ no := by
  have hq' : viewHandle s q = some (no, n) := hq
  unfold viewHandle at hq'
  obtain ⟨i, hi, heq⟩ := Option.map_eq_some_iff.mp hq'
  rw [Prod.mk.injEq] at heq
  have hm : q ∈ s.list := h.dead q (by rw [hi]; exact Option.some_ne_none i)
  have hold : Holds s q no := ⟨hm, i, hi, heq.1⟩
  refine ⟨hold, ?_⟩
  rw [← heq.2, Option.some.inj (hi.symm.trans (h.refs.inode hold))]
  rfl

/-! ## What a change does to the view -/

/-- The other inodes in memory are still those on the device. -/
theorem Volume.loaded_of_ne (h : Volume sb σ ρ busy s) (hq : Holds s q no) (hother : OthersSame sb σ τ no)
    {p : ℕ} (hp : p ∈ s.list) (hpq : p ≠ q) :
    ∃ m, m ≠ no ∧ Holds s p m ∧ s.inode p = some (image sb τ ρ busy p m) := by
  obtain ⟨m, hm⟩ := h.refs.loaded p hp
  have hold : Holds s p m := ⟨hp, _, hm, rfl⟩
  have hmno : m ≠ no := by
    rintro rfl
    exact hpq (h.refs.once p q m hold hq)
  refine ⟨m, hmno, hold, ?_⟩
  rw [hm, image, image, (hother m (h.live p m hold).2.1 hmno).entry]

/-- One inode and its blocks are changed. -/
theorem Volume.change (h : Volume sb σ ρ busy s) (hq : Holds s q no) (hr : Rep sb τ [] t.cache)
    (hinode : t.inode = Function.update s.inode q
      (some { image sb σ ρ busy q no with entry := diskEntry sb τ no }))
    (hlist : t.list = s.list) (hnext : t.nextPtr = s.nextPtr)
    (ht : (diskEntry sb τ no).type ≠ inodeInvalid) (ho : Owns sb τ t.fresh) (hw : Whole sb τ no)
    (hother : OthersSame sb σ τ no) :
    Volume sb τ ρ busy t ∧ Holds t q no ∧ view sb τ t = (view sb σ s).setFile no (viewFile sb τ no) := by
  have ha := h.live q no hq
  have hself : t.inode q = some (image sb τ ρ busy q no) := by
    rw [hinode]
    exact Function.update_self ..
  have hne : ∀ p, p ≠ q → t.inode p = s.inode p := fun p hp => by
    rw [hinode]
    exact Function.update_of_ne hp ..
  have hholds : ∀ p m, Holds t p m ↔ Holds s p m := by
    intro p m
    unfold Holds
    rw [hlist]
    by_cases hp : p = q
    · subst hp
      rw [hself, h.refs.inode hq]
      simp [image]
    · rw [hne p hp]
  refine ⟨⟨⟨hr, fun p hp => ?_, fun p p' m h1 h2 => ?_, fun m habs => ?_, h.refs.nonneg, fun p hp => ?_⟩, ho,
    hother.whole h.whole fun _ => hw, fun p m hp => ?_, fun p hp => ?_, hlist ▸ h.nodup⟩, (hholds q no).mpr hq, ?_⟩
  · by_cases hpq : p = q
    · exact ⟨no, hpq ▸ hself⟩
    · rw [hlist] at hp
      obtain ⟨m, -, -, hm⟩ := h.loaded_of_ne hq hother hp hpq
      exact ⟨m, by rw [hne p hpq, hm]⟩
  · exact h.refs.once p p' m ((hholds p m).mp h1) ((hholds p' m).mp h2)
  · exact h.refs.absent m fun p hp => habs p ((hholds p m).mpr hp)
  · rw [hlist] at hp
    rw [hnext]
    exact h.refs.below p hp
  · have hold := h.live p m ((hholds p m).mp hp)
    by_cases hm : m = no
    · rw [hm]
      exact ⟨ha.1, ha.2.1, ht⟩
    · exact (hother.allocated hm).mpr hold
  · rw [hlist]
    by_cases hpq : p = q
    · rw [hpq]
      exact hq.1
    · rw [hne p hpq] at hp
      exact h.dead p hp
  · have hhandle : viewHandle t = viewHandle s := by
      funext p
      unfold viewHandle
      by_cases hp : p = q
      · rw [hp, hself, h.refs.inode hq]
        rfl
      · rw [hne p hp]
    show Store.mk _ _ = Store.mk _ _
    rw [hhandle, hother.viewFile h.refs.rep hr h.owns ho h.whole, Function.update_self]
    rfl

/-- A file goes away with the last pointer to it. -/
theorem Volume.remove (h : Volume sb σ ρ busy s) (hq : Holds s q no) (hρ : ρ no = 0)
    (hbusy : ∀ p, busy = some p → p = q) (hr : Rep sb τ [] t.cache)
    (hinode : t.inode = Function.update s.inode q none) (hlist : t.list = s.list.erase q)
    (hnext : t.nextPtr = s.nextPtr) (ht : (diskEntry sb τ no).type = inodeInvalid) (ho : Owns sb τ t.fresh)
    (hother : OthersSame sb σ τ no) :
    Volume sb τ ρ none t ∧ view sb τ t = ((view sb σ s).setFile no none).setHandle q none := by
  have hfree : ¬ Allocated sb τ no := fun hc => hc.2.2 ht
  have hne : ∀ p, p ≠ q → t.inode p = s.inode p := fun p hp => by
    rw [hinode]
    exact Function.update_of_ne hp ..
  have hmem : ∀ p, p ∈ t.list ↔ p ≠ q ∧ p ∈ s.list := fun p => by
    rw [hlist]
    exact h.nodup.mem_erase_iff
  have hholds : ∀ p m, Holds t p m ↔ p ≠ q ∧ Holds s p m := by
    intro p m
    unfold Holds
    rw [hmem, and_assoc]
    refine and_congr_right fun hp => ?_
    rw [hne p hp]
  refine ⟨⟨⟨hr, fun p hp => ?_, fun p p' m h1 h2 => ?_, fun m habs => ?_, h.refs.nonneg, fun p hp => ?_⟩, ho,
    hother.whole h.whole fun hc => absurd hc hfree, fun p m hp => ?_, fun p hp => ?_, ?_⟩, ?_⟩
  · obtain ⟨hpq, hp⟩ := (hmem p).mp hp
    obtain ⟨m, -, -, hm⟩ := h.loaded_of_ne hq hother hp hpq
    refine ⟨m, ?_⟩
    rw [hne p hpq, hm, image, image, if_neg fun hb => hpq (hbusy p hb), if_neg (by simp)]
  · exact h.refs.once p p' m ((hholds p m).mp h1).2 ((hholds p' m).mp h2).2
  · by_cases hm : m = no
    · rw [hm]
      exact hρ
    · refine h.refs.absent m fun p hp => habs p ((hholds p m).mpr ⟨?_, hp⟩)
      rintro rfl
      exact hm (hp.unique hq)
  · rw [hnext]
    exact h.refs.below p ((hmem p).mp hp).2
  · obtain ⟨hpq, hp⟩ := (hholds p m).mp hp
    have hm : m ≠ no := by
      rintro rfl
      exact hpq (h.refs.once p q m hp hq)
    exact (hother.allocated hm).mpr (h.live p m hp)
  · refine (hmem p).mpr ?_
    by_cases hpq : p = q
    · rw [hinode, hpq, Function.update_self] at hp
      exact absurd rfl hp
    · rw [hne p hpq] at hp
      exact ⟨hpq, h.dead p hp⟩
  · rw [hlist]
    exact h.nodup.erase q
  · have hhandle : viewHandle t = Function.update (viewHandle s) q none := by
      funext p
      by_cases hp : p = q
      · rw [hp, Function.update_self, viewHandle, hinode, Function.update_self]
        rfl
      · rw [Function.update_of_ne hp, viewHandle, hne p hp, viewHandle]
    show Store.mk _ _ = Store.mk _ _
    rw [hhandle, hother.viewFile h.refs.rep hr h.owns ho h.whole, viewFile_eq_none.mpr hfree]
    rfl

/-- The count and the lock of one inode in memory change. -/
theorem Volume.set (h : Volume sb σ ρ busy s) (hq : Holds s q no) (n : ℤ) (busy' : Option ℕ)
    (hn : 0 ≤ ρ no + n) (hb : ∀ q', q' ≠ q → (busy' = some q' ↔ busy = some q')) :
    Volume sb σ (bump ρ no n) busy' (setInode s q (image sb σ (bump ρ no n) busy' q no)) ∧
      view sb σ (setInode s q (image sb σ (bump ρ no n) busy' q no)) =
        (view sb σ s).setHandle q (some (no, ρ no + n)) := by
  obtain ⟨hrefs, hkept⟩ := h.refs.set hq n busy' hn hb
  have hself : ∀ i, setInode s q i = { s with inode := Function.update s.inode q (some i) } := fun i => rfl
  refine ⟨⟨hrefs, h.owns, h.whole, fun p m hp => ?_, fun p hp => ?_, h.nodup⟩, ?_⟩
  · obtain ⟨m', hm'⟩ := h.refs.loaded p hp.1
    have hold : Holds s p m' := ⟨hp.1, _, hm', rfl⟩
    rw [hp.unique (hkept.holds p m' hold)]
    exact h.live p m' hold
  · show p ∈ s.list
    by_cases hpq : p = q
    · rw [hpq]
      exact hq.1
    · have hp' : Function.update s.inode q _ p ≠ none := hp
      rw [Function.update_of_ne hpq] at hp'
      exact h.dead p hp'
  · show Store.mk _ _ = Store.mk _ _
    rw [viewHandle_setInode, image, bump_self]
    rfl

/-- An inode is read into memory. -/
theorem Volume.add (h : Volume sb σ ρ none s) (hno : ∀ q, ¬ Holds s q no) (ha : Allocated sb σ no)
    {d : CacheState} (hd : Rep sb σ [] d) :
    Volume sb σ (bump ρ no 1) none (addInode { s with cache := d } ⟨1, 1, no, true, diskEntry sb σ no⟩) ∧
      view sb σ (addInode { s with cache := d } ⟨1, 1, no, true, diskEntry sb σ no⟩) =
        (view sb σ s).setHandle s.nextPtr (some (no, 1)) := by
  obtain ⟨hold, hrefs, hkept⟩ := h.refs.add hno (fun q hq => by cases hq) hd
  refine ⟨⟨hrefs, h.owns, h.whole, fun p m hp => ?_, fun p hp => ?_, List.nodup_cons.mpr ⟨fun hm => ?_, h.nodup⟩⟩, ?_⟩
  · rcases List.mem_cons.mp hp.1 with rfl | hm
    · rw [hp.unique hold]
      exact ha
    · obtain ⟨m', hm'⟩ := h.refs.loaded p hm
      have hs : Holds s p m' := ⟨hm, _, hm', rfl⟩
      rw [hp.unique (hkept.holds p m' hs)]
      exact h.live p m' hs
  · by_cases hpn : p = s.nextPtr
    · rw [hpn]
      exact List.mem_cons_self
    · have hp' : Function.update s.inode s.nextPtr _ p ≠ none := hp
      rw [Function.update_of_ne hpn] at hp'
      exact List.mem_cons_of_mem _ (h.dead p hp')
  · exact lt_irrefl _ (h.refs.below _ hm)
  · show Store.mk _ _ = Store.mk _ _
    exact congrArg (Store.mk _) viewHandle_setInode

section Rules

variable {E : Stop → FsState → Prop}

theorem Volume.wp_change (h : Volume sb σ ρ busy s) (hq : Holds s q no) {f : Inode → Inode} (n : ℤ)
    (busy' : Option ℕ) (hn : 0 ≤ ρ no + n) (hb : ∀ q', q' ≠ q → (busy' = some q' ↔ busy = some q'))
    (hf : f (image sb σ ρ busy q no) = image sb σ (bump ρ no n) busy' q no) {Q : Unit → FsState → Prop}
    (hQ : ∀ t, Volume sb σ (bump ρ no n) busy' t → Holds t q no →
      view sb σ t = (view sb σ s).setHandle q (some (no, ρ no + n)) → Q () t) : wp (modifyInode q f) Q E s := by
  rw [wp_modifyInode (h.refs.inode hq), hf]
  obtain ⟨hv, hview⟩ := h.set hq n busy' hn hb
  exact hQ _ hv ⟨hq.1, _, setInode_self s q _, rfl⟩ hview

/-- A lock is taken or released. -/
theorem Volume.wp_lockChange (h : Volume sb σ ρ busy s) (hq : Holds s q no) {f : Inode → Inode}
    (busy' : Option ℕ) (hb : ∀ q', q' ≠ q → (busy' = some q' ↔ busy = some q'))
    (hf : f (image sb σ ρ busy q no) = image sb σ ρ busy' q no) {Q : Unit → FsState → Prop}
    (hQ : ∀ t, Volume sb σ ρ busy' t → Holds t q no → view sb σ t = view sb σ s → Q () t) :
    wp (modifyInode q f) Q E s := by
  have hnon := h.refs.nonneg no
  refine h.wp_change hq 0 busy' (by omega) hb (by rw [hf, bump_zero]) fun t ht hold hview => ?_
  rw [bump_zero] at ht
  refine hQ t ht hold ?_
  rw [hview, add_zero, Store.setHandle, ← h.handle hq, Function.update_eq_self]

theorem Volume.wp_acquireLock (h : Volume sb σ ρ none s) (hq : Holds s q no) {Q : Unit → FsState → Prop}
    (hQ : ∀ t, Volume sb σ ρ (some q) t → Holds t q no → view sb σ t = view sb σ s → Q () t) :
    wp (acquireLock q) Q E s := by
  unfold acquireLock
  rw [wp_bind, wp_deref (h.refs.inode hq)]
  refine wp.ite (fun hlock => absurd hlock (by simp [image])) fun _ => ?_
  refine h.wp_lockChange hq (some q) (fun q' hne => ?_) (by simp [image]) hQ
  exact iff_of_false (fun he => hne (Option.some.inj he).symm) (by simp)

theorem Volume.wp_releaseLock (h : Volume sb σ ρ (some q) s) (hq : Holds s q no) {Q : Unit → FsState → Prop}
    (hQ : ∀ t, Volume sb σ ρ none t → Holds t q no → view sb σ t = view sb σ s → Q () t) :
    wp (releaseLock q) Q E s := by
  refine h.wp_lockChange hq none (fun q' hne => ?_) (by simp [image]) hQ
  exact iff_of_false (by simp) fun he => hne (Option.some.inj he).symm

/-- The rule of `inode_lock`. -/
theorem Volume.wp_lock (h : Volume sb σ ρ none s) (hq : Holds s q no) (hpos : 0 < ρ no)
    {Q : Unit → FsState → Prop} (hQ : ∀ t, Volume sb σ ρ (some q) t → Holds t q no →
      view sb σ t = view sb σ s → Q () t) : wp (inodeLock q) Q E s := by
  unfold inodeLock
  rw [wp_bind, wp_deref (h.refs.inode hq)]
  exact wp.ite (fun hrc => absurd hrc (not_le.mpr hpos)) fun _ => h.wp_acquireLock hq hQ

/-- The rule of `inode_unlock`. -/
theorem Volume.wp_unlock (h : Volume sb σ ρ (some q) s) (hq : Holds s q no) (hpos : 0 < ρ no)
    {Q : Unit → FsState → Prop} (hQ : ∀ t, Volume sb σ ρ none t → view sb σ t = view sb σ s → Q () t) :
    wp (inodeUnlock q) Q E s := by
  unfold inodeUnlock
  rw [wp_bind, wp_deref (h.refs.inode hq)]
  refine wp.ite (fun hrc => absurd hrc (not_le.mpr hpos)) fun _ => ?_
  exact h.wp_releaseLock hq fun t ht _ hview => hQ t ht hview

end Rules

/-! ## The calls -/

/-- The calls of a user as calls of the inode layer; `ctx` is the context of the operation. -/
def Request.call (sb : SuperBlock) (ctx : Option ℕ) : Request → M Reply
  | .alloc type => do
    let no ← inodeAlloc sb ctx type
    return .number no
  | .get no => do
    let p ← inodeGet sb no
    return .pointer p
  | .share p => do
    let p ← inodeShare p
    return .pointer (some p)
  | .read p off count => do
    inodeLock p
    let l ← inodeRead sb p off count
    inodeUnlock p
    return .bytes l
  | .write p src off => do
    inodeLock p
    let n ← inodeWrite sb ctx p src off
    inodeUnlock p
    return .count n
  | .setLinks p n => do
    inodeLock p
    modifyEntry p fun e => { e with numLinks := n }
    inodeSync sb ctx p true
    inodeUnlock p
    return .done
  | .clear p => do
    inodeLock p
    inodeClear sb ctx p
    inodeUnlock p
    return .done
  | .put p => do
    inodePut sb ctx p
    return .done

/-- The space or the budget of the operation does not suffice. -/
def NoSpace (stop : Stop) : Prop :=
  stop = .panic .opBlocks ∨ stop = .panic .logFull ∨ stop = .noFreeBlock ∨ stop = .noFreeInode

/-- A call answers `a` to `r` as the store does. It frees exactly the blocks of a file that goes away. -/
def Answers (sb : SuperBlock) (σ : ℕ → BlockData) (s : FsState) (r : Request) (a : Reply) (t : FsState) : Prop :=
  ∃ τ ρ', Volume sb τ ρ' none t ∧ Store.Step sb.numInodes (view sb σ s) r a (view sb τ t) ∧
    ∀ no, r.frees (view sb σ s) = some no → ∀ b < sb.numBlocks,
      bit sb τ b = true ↔ bit sb σ b = true ∧ ¬ OwnedBy sb σ no b

theorem answers_of_keeps {r : Request} {a : Reply} (h : Volume sb τ ρ none t)
    (hstep : Store.Step sb.numInodes (view sb σ s) r a (view sb τ t)) (hfree : r.frees (view sb σ s) = none) :
    Answers sb σ s r a t := by
  refine ⟨τ, ρ, h, hstep, fun no hno => ?_⟩
  rw [hfree] at hno
  cases hno

theorem noSpace_of_exhausted {r n : ℕ} {stop : Stop} (h : Exhausted r n stop) : NoSpace stop := by
  cases h with
  | opBlocks h => exact .inl rfl
  | logFull => exact .inr (.inl rfl)
  | noFreeBlock => exact .inr (.inr (.inl rfl))

/-- The file that a reference is to. -/
theorem Volume.target (h : Volume sb σ ρ busy s) {f : FileData} (hf : (view sb σ s).target q = some f) :
    ∃ no, Holds s q no ∧ 0 < ρ no ∧ viewFile sb σ no = some f := by
  obtain ⟨no, n, hq, hn, hfile⟩ := Store.target_eq_some.mp hf
  obtain ⟨hold, rfl⟩ := h.holds hq
  exact ⟨no, hold, hn, hfile⟩

theorem Volume.target_ne (h : Volume sb σ ρ busy s) (hf : (view sb σ s).target q ≠ none) :
    ∃ no, Holds s q no ∧ 0 < ρ no := by
  obtain ⟨f, hf⟩ := Option.ne_none_iff_exists'.mp hf
  obtain ⟨no, hold, hpos, -⟩ := h.target hf
  exact ⟨no, hold, hpos⟩

theorem Volume.share (h : Volume sb σ ρ none s) (hq : (view sb σ s).target q ≠ none) {ctx : Option ℕ}
    {E : Stop → FsState → Prop} :
    wp ((Request.share q).call sb ctx) (Answers sb σ s (.share q)) E s := by
  obtain ⟨no, hold, hpos⟩ := h.target_ne hq
  unfold Request.call inodeShare
  simp only [wp_bind]
  refine h.wp_change hold 1 none (by omega) (fun _ _ => Iff.rfl) (by simp [image]) fun t ht _ hview => ?_
  rw [wp_pure, wp_pure]
  refine answers_of_keeps ht ?_ rfl
  rw [hview]
  exact .share (h.handle hold)

theorem Volume.read (hl : sb.Layout) (h : Volume sb σ ρ none s) {off count : ℕ} {f : FileData}
    (hf : (view sb σ s).target q = some f) (hdev : f.type ≠ inodeDevice) (hoff : off ≤ f.bytes.length)
    (hcount : off + count < 2 ^ 64) {ctx : Option ℕ} {E : Stop → FsState → Prop} :
    wp ((Request.read q off count).call sb ctx) (Answers sb σ s (.read q off count)) E s := by
  obtain ⟨no, hold, hpos, hfile⟩ := h.target hf
  rw [viewFile_of (h.live q no hold), Option.some.injEq] at hfile
  subst hfile
  rw [fileContent, length_fileBytes] at hoff
  unfold Request.call
  simp only [wp_bind]
  refine h.wp_lock hold hpos fun s1 h1 hold1 hview1 => ?_
  refine wp_mono ((h1.opened hold1).wp_inodeRead hl hdev hoff hcount) ?_ fun _ _ hf => hf.elim
  rintro dest s2 ⟨rfl, -, cache, rfl, hopen⟩
  have h2 : Volume sb σ ρ (some q) { s1 with cache := cache } := h1.of_rep hopen.rep
  refine h2.wp_unlock hold1 hpos fun s3 h3 hview3 => ?_
  rw [wp_pure]
  have hview : view sb σ s3 = view sb σ s := hview3.trans hview1
  refine answers_of_keeps h3 ?_ rfl
  rw [hview]
  exact .read hf

/-- A file without holes has none after a write. -/
theorem whole_of_wrote {off : ℕ} {src : List UInt8} (hw : Wrote sb σ τ no off src) (h : Whole sb σ no)
    (hsize : (diskEntry sb τ no).numBytes.toNat = max (diskEntry sb σ no).numBytes.toNat (off + src.length))
    (hoff : off ≤ (diskEntry sb σ no).numBytes.toNat) (hmax : off + src.length ≤ inodeMaxBytes) :
    Whole sb τ no := by
  intro x hx
  by_cases hold : x * blockSize < (diskEntry sb σ no).numBytes.toNat
  · obtain ⟨hlt, h0⟩ := h x hold
    exact ⟨hlt, (hw.part_ne h0).2⟩
  · have hnew : x * blockSize < off + src.length := by
      rw [hsize] at hx
      exact (lt_max_iff.mp hx).resolve_left hold
    have hcov := hw.covered (x * blockSize) (by omega) hnew
    have hlt := div_blockSize_lt (x := x * blockSize) (by omega)
    rw [Nat.mul_div_cancel x (by decide)] at hcov hlt
    exact ⟨hlt, hcov⟩

/-! ### Calls that change an entry -/

/-- An entry with the same blocks is written. -/
theorem othersSame_resize (hl : sb.Layout) (h : Owns sb σ F) (hi : no < sb.numInodes)
    (ht : (diskEntry sb σ no).type = e.type) (ha : (diskEntry sb σ no).addrs = e.addrs)
    (hind : (diskEntry sb σ no).indirect = e.indirect) : OthersSame sb σ (setEntry sb σ no e) no :=
  fun j _ hne => ⟨diskEntry_setEntry_of_ne hne, fun x => h.stored_resize hl hi ht ha hind j x,
    fun x h0 => setEntry_of_ne (toBlockNo_ne_of_isData hl hi (h.data j x h0))⟩

/-- An entry with another number of links. -/
def relinked (e : InodeEntry) (n : UInt16) : InodeEntry := { e with numLinks := n }

/-- Only the links of the file have changed. -/
theorem Volume.relink (hl : sb.Layout) (h : Volume sb σ ρ busy s) (ha : Allocated sb σ no) {n : UInt16}
    (hr : Rep sb (setEntry sb σ no (relinked (diskEntry sb σ no) n)) [] t.cache) (hfresh : t.fresh = s.fresh) :
    Owns sb (setEntry sb σ no (relinked (diskEntry sb σ no) n)) t.fresh ∧
      Whole sb (setEntry sb σ no (relinked (diskEntry sb σ no) n)) no ∧
      OthersSame sb σ (setEntry sb σ no (relinked (diskEntry sb σ no) n)) no ∧
      viewFile sb (setEntry sb σ no (relinked (diskEntry sb σ no) n)) no =
        some ⟨(diskEntry sb σ no).type, n, fileContent σ (diskEntry sb σ no)⟩ := by
  generalize he : relinked (diskEntry sb σ no) n = e at hr
  have hsame : (diskEntry sb σ no).type = e.type ∧ (diskEntry sb σ no).addrs = e.addrs ∧
      (diskEntry sb σ no).indirect = e.indirect ∧ (diskEntry sb σ no).numBytes = e.numBytes ∧ n = e.numLinks := by
    rw [← he]
    exact ⟨rfl, rfl, rfl, rfl, rfl⟩
  have hown := h.owns.resize hl ha.2.1 hsame.1 hsame.2.1 hsame.2.2.1
  have hdisk : diskEntry sb (setEntry sb σ no e) no = e := diskEntry_setEntry_self
  have ha' : Allocated sb (setEntry sb σ no e) no := ⟨ha.1, ha.2.1, by rw [hdisk, ← hsame.1]; exact ha.2.2⟩
  obtain ⟨hwhole, hbytes⟩ := content_same h.refs.rep hr h.owns hown ha ha' (h.whole no ha)
    (by rw [hdisk, hsame.2.2.2.1]) (fun x => h.owns.stored_resize hl ha.2.1 hsame.1 hsame.2.1 hsame.2.2.1 no x)
    fun x h0 => setEntry_of_ne (toBlockNo_ne_of_isData hl ha.2.1 (h.owns.data no x h0))
  refine ⟨hfresh.symm ▸ hown, hwhole, othersSame_resize hl h.owns ha.2.1 hsame.1 hsame.2.1 hsame.2.2.1, ?_⟩
  rw [viewFile_of ha', hbytes, hdisk, ← hsame.1, ← hsame.2.2.2.2]

/-- The blocks of an inode are freed. -/
theorem othersSame_freed {D : ℕ → Prop} (hl : sb.Layout) (hf : Frees sb σ τ D) (h : Owns sb σ F)
    (hi : no < sb.numInodes) : OthersSame sb σ (setEntry sb τ no (clearedEntry e)) no := by
  intro j hj hne
  refine ⟨?_, fun x => hf.stored_of_ne hl hi h hne, fun x h0 => ?_⟩
  · rw [diskEntry_setEntry_of_ne hne, diskEntry, diskEntry,
      hf.same _ fun b _ => (toBlockNo_ne_bitmapBlock hl hj).symm]
  · have hdata := h.data j x h0
    rw [setEntry_of_ne (toBlockNo_ne_of_isData hl hi hdata), hf.data hdata]

theorem stores_iff_owned (ha : Allocated sb σ no) {b : ℕ} :
    Stores σ (diskEntry sb σ no) b ↔ OwnedBy sb σ no b := by
  refine and_congr_right fun _ => exists_congr fun x => ?_
  rw [stored_eq ha.2.1 rfl ha.2.2]

/-- The operation of a call on an inode in memory. -/
def Volume.op (_ : Volume sb σ ρ busy s) (q no c : ℕ) : Op :=
  ⟨c, σ, s.cache.header.entries, s.cache.rm c, q, s.inode, image sb σ ρ busy q no, s.list, s.nextPtr⟩

theorem Volume.no_op (h : Volume sb σ ρ busy s) (hq : Holds s q no) (c : ℕ) :
    (h.op q no c).no < sb.numInodes := (h.live q no hq).2.1

theorem Volume.at_op (h : Volume sb σ ρ busy s) (hq : Holds s q no) (c : ℕ) :
    At sb (h.op q no c) σ [] ∅ s.fresh (diskEntry sb σ no) s := (h.opened hq).at_op c

theorem Volume.fileAt (h : Volume sb σ ρ busy s) (hq : Holds s q no) (c : ℕ) :
    FileAt sb (h.op q no c) σ s.fresh (diskEntry sb σ no) := (h.opened hq).fileAt c

theorem Volume.write (hl : sb.Layout) (hcap : sb.numBlocks ≤ 2 ^ 32) (h : Volume sb σ ρ none s) {off : ℕ}
    {src : List UInt8} {f : FileData} (hf : (view sb σ s).target q = some f) (hdev : f.type ≠ inodeDevice)
    (hoff : off ≤ f.bytes.length) (hmax : off + src.length ≤ inodeMaxBytes) :
    wp ((Request.write q src off).call sb (some c)) (Answers sb σ s (.write q src off))
      (fun stop _ => NoSpace stop) s := by
  obtain ⟨no, hold, hpos, hfile⟩ := h.target hf
  have hfiles : (view sb σ s).files no = some f := hfile
  rw [viewFile_of (h.live q no hold), Option.some.injEq] at hfile
  subst hfile
  rw [fileContent, length_fileBytes] at hoff
  unfold Request.call
  simp only [wp_bind]
  refine h.wp_lock hold hpos fun s1 h1 hold1 hview1 => ?_
  refine wp_mono ((h1.at_op hold1 c).wp_inodeWrite hl (h1.no_op hold1 c) rfl hcap (h1.fileAt hold1 c)
    (Within.start sb _ σ) hdev hoff hmax (fun _ => Nat.le_add_right _ _) le_rfl
    (Q := fun n t => n = src.length ∧ ∃ τ, Volume sb τ ρ (some q) t ∧ Holds t q no ∧
      view sb τ t = (view sb σ s1).setFile no (viewFile sb τ no) ∧
      viewFile sb τ no = some (FileData.write ⟨(diskEntry sb σ no).type, (diskEntry sb σ no).numLinks,
        fileContent σ (diskEntry sb σ no)⟩ off src))
    fun τ e' L new t hat hfat hhead hsize (hwrote : Wrote sb σ τ no off src) _ => ⟨rfl, τ, ?_⟩)
    (fun n s2 h2 => ?_) fun _ _ => noSpace_of_exhausted
  · have hdisk : diskEntry sb τ no = e' := hfat.disk
    subst hdisk
    have hwhole := whole_of_wrote hwrote (h1.whole no (h1.live q no hold1)) hsize hoff hmax
    obtain ⟨hv, hold2, hview⟩ := h1.change hold1 hat.rep hat.inode hat.list hat.nextPtr hfat.type
      (hat.fresh.symm ▸ hfat.owns) hwhole
      (fun j hj hne => ⟨hwrote.entry j hj hne, fun x => hwrote.other j x hne, fun x => hwrote.content j x hne⟩)
    refine ⟨hv, hold2, hview, ?_⟩
    have hopen : OpenInode sb τ s1.fresh q { image sb σ ρ (some q) q no with entry := diskEntry sb τ no } t :=
      ⟨hat.rep, hat.deref, h1.no_op hold1 c, rfl, hfat.type, rfl, hfat.owns.of_append, hwhole⟩
    have hbytes := (h1.opened hold1).content_wrote hopen hwrote rfl hoff hsize
    rw [viewFile_of (hv.live q no hold2), hhead.type, hhead.numLinks]
    exact congrArg (fun l => some (FileData.mk _ _ l)) hbytes
  · obtain ⟨rfl, τ, hv, hold2, hview, hnew⟩ := h2
    refine hv.wp_unlock hold2 hpos fun s3 h3 hview3 => ?_
    rw [wp_pure]
    refine answers_of_keeps h3 ?_ rfl
    rw [hview3, hview, hview1, hnew]
    exact .write (h.handle hold) hfiles

theorem Volume.setLinks (hl : sb.Layout) (h : Volume sb σ ρ none s) {n : UInt16}
    (hf : (view sb σ s).target q ≠ none) :
    wp ((Request.setLinks q n).call sb (some c)) (Answers sb σ s (.setLinks q n))
      (fun stop _ => NoSpace stop) s := by
  obtain ⟨no, hold, hpos⟩ := h.target_ne hf
  unfold Request.call
  simp only [wp_bind]
  refine h.wp_lock hold hpos fun s1 h1 hold1 hview1 => ?_
  refine (h1.at_op hold1 c).wp_modifyEntry fun s2 h2 => ?_
  refine wp_mono (h2.wp_inodeSync hl (h1.no_op hold1 c) rfl List.not_mem_nil le_rfl (Q := fun _ t =>
    ∃ L, At sb (h1.op q no c) (setEntry sb σ no (relinked (diskEntry sb σ no) n)) [] L s1.fresh
      (relinked (diskEntry sb σ no) n) t) fun t ht => ⟨_, ht⟩) (fun _ s3 h3 => ?_) fun _ _ => noSpace_of_exhausted
  obtain ⟨L, h3⟩ := h3
  have ha := h1.live q no hold1
  obtain ⟨hown, hwhole, hother, hfile⟩ := h1.relink hl ha h3.rep h3.fresh
  have hdisk : diskEntry sb (setEntry sb σ no (relinked (diskEntry sb σ no) n)) no =
    relinked (diskEntry sb σ no) n := diskEntry_setEntry_self
  obtain ⟨hv, hold2, hview⟩ := h1.change hold1 h3.rep (by rw [hdisk]; exact h3.inode) h3.list h3.nextPtr
    (by rw [hdisk]; exact ha.2.2) hown hwhole hother
  refine hv.wp_unlock hold2 hpos fun s4 h4 hview4 => ?_
  rw [wp_pure]
  refine answers_of_keeps h4 ?_ rfl
  rw [hview4, hview, hview1, hfile]
  exact .setLinks (h.handle hold) (h.file hold)

/-- What `inode_clear` leaves, when it has freed the blocks of an inode. -/
structure Cleared (sb : SuperBlock) (k : Op) (σ : ℕ → BlockData) (no : ℕ) (e : InodeEntry)
    (τ : ℕ → BlockData) (A : List ℕ) (t : FsState) : Prop where
  at_op : ∃ L ⊆ insert (k.home sb) (∅ ∪ bitmaps sb), At sb k τ [] L A e t
  disk : diskEntry sb τ no = e
  owns : Owns sb τ A
  freed : ∀ b < sb.numBlocks, bit sb τ b = true ↔ bit sb σ b = true ∧ ¬ OwnedBy sb σ no b
  others : OthersSame sb σ τ no

/-- The rule of `inode_clear`. The type may have been changed before. -/
theorem Volume.wp_inodeClear (hl : sb.Layout) (h : Volume sb σ ρ busy s) (hq : Holds s q no)
    (hat : At sb (h.op q no c) σ [] ∅ s.fresh e t) (haddrs : e.addrs = (diskEntry sb σ no).addrs)
    (hind : e.indirect = (diskEntry sb σ no).indirect) {n : ℕ}
    (hn : (insert ((h.op q no c).home sb) (∅ ∪ bitmaps sb)).card ≤ n) :
    wp (inodeClear sb (some c) q) (fun _ u => ∃ τ A, Cleared sb (h.op q no c) σ no (clearedEntry e) τ A u)
      (fun stop _ => Exhausted (s.cache.rm c) n stop) t := by
  have ha := h.live q no hq
  have hslot : ∀ x, e.slot σ x = (diskEntry sb σ no).slot σ x := by
    intro x
    cases x <;> simp only [InodeEntry.slot, haddrs, hind]
  have hstores : ∀ b, Stores σ e b ↔ OwnedBy sb σ no b := by
    intro b
    rw [← stores_iff_owned ha]
    refine and_congr_right fun _ => exists_congr fun x => ?_
    rw [hslot x]
  refine hat.wp_inodeClear hl (h.no_op hq c) rfl (fun b hb => ?_) hn fun τ L' A' u hu hL hf hrem => ?_
  · obtain ⟨h0, x, rfl⟩ := (hstores b).mp hb
    exact h.owns.data no x h0
  · have hf' := hf.congr hstores
    refine ⟨_, A', ⟨L', hL, hu⟩, diskEntry_setEntry_self, hf'.owns hl ha.2.1 h.owns fun b hb => ?_,
      fun b hb => (Bool.eq_iff_iff.mp (bit_setEntry hl ha.2.1)).trans (hf'.bits b hb), othersSame_freed hl hf' h.owns ha.2.1⟩
    obtain ⟨hb, hnot⟩ := (hrem b).mp hb
    exact ⟨hb, fun hc => hnot ((hstores b).mpr hc)⟩

theorem fileContent_empty (h : e.numBytes = 0) : fileContent σ e = [] := by
  rw [fileContent, h]
  rfl

theorem Volume.clear (hl : sb.Layout) (h : Volume sb σ ρ none s) (hf : (view sb σ s).target q ≠ none) :
    wp ((Request.clear q).call sb (some c)) (Answers sb σ s (.clear q)) (fun stop _ => NoSpace stop) s := by
  obtain ⟨no, hold, hpos⟩ := h.target_ne hf
  unfold Request.call
  simp only [wp_bind]
  refine h.wp_lock hold hpos fun s1 h1 hold1 hview1 => ?_
  refine wp_mono (h1.wp_inodeClear hl hold1 (h1.at_op hold1 c) rfl rfl le_rfl) (fun _ s2 h2 => ?_)
    fun _ _ => noSpace_of_exhausted
  obtain ⟨τ, A, h2⟩ := h2
  obtain ⟨L, -, hat⟩ := h2.at_op
  have ha := h1.live q no hold1
  have hdisk := h2.disk
  have ha' : Allocated sb τ no := ⟨ha.1, ha.2.1, by rw [hdisk]; exact ha.2.2⟩
  have hwhole : Whole sb τ no := by
    intro x hx
    rw [hdisk] at hx
    exact absurd hx (Nat.not_lt_zero _)
  obtain ⟨hv, hold2, hview⟩ := h1.change hold1 hat.rep (by rw [hdisk]; exact hat.inode) hat.list hat.nextPtr
    ha'.2.2 (hat.fresh.symm ▸ h2.owns) hwhole h2.others
  refine hv.wp_unlock hold2 hpos fun s3 h3 hview3 => ?_
  rw [wp_pure]
  refine ⟨τ, ρ, h3, ?_, fun no' hno => ?_⟩
  · rw [hview3, hview, hview1, viewFile_of ha', hdisk, fileContent_empty rfl]
    exact .clear (h.handle hold) (h.file hold)
  · rw [Request.frees, h.handle hold] at hno
    obtain rfl := Option.some.inj hno
    exact h2.freed

/-- The last pointer to a file without links is given back. -/
theorem Volume.wp_discard (hl : sb.Layout) (h : Volume sb σ ρ (some q) s) (hq : Holds s q no) (hρ : ρ no = 0) :
    wp (do
      modifyEntry q fun e => { e with type := inodeInvalid }
      inodeClear sb (some c) q
      inodeSync sb (some c) q true
      modify fun s => { s with list := s.list.erase q }
      releaseLock q
      modify fun s => { s with inode := Function.update s.inode q none })
      (fun _ t => ∃ τ, Volume sb τ ρ none t ∧ view sb τ t = ((view sb σ s).setFile no none).setHandle q none ∧
        ∀ b < sb.numBlocks, bit sb τ b = true ↔ bit sb σ b = true ∧ ¬ OwnedBy sb σ no b)
      (fun stop _ => NoSpace stop) s := by
  have ha := h.live q no hq
  simp only [wp_bind]
  refine (h.at_op hq c).wp_modifyEntry fun s1 h1 => ?_
  generalize he : ({ diskEntry sb σ no with type := inodeInvalid } : InodeEntry) = e at h1
  refine wp_mono (h.wp_inodeClear hl hq h1 (by rw [← he]) (by rw [← he]) le_rfl) (fun _ s2 h2 => ?_)
    fun _ _ => noSpace_of_exhausted
  obtain ⟨τ, A, h2⟩ := h2
  obtain ⟨L, -, hat⟩ := h2.at_op
  refine wp_mono (hat.wp_inodeSync hl (h.no_op hq c) rfl List.not_mem_nil le_rfl (Q := fun _ t =>
    ∃ L, At sb (h.op q no c) (setEntry sb τ no (clearedEntry e)) [] L A (clearedEntry e) t) fun t ht => ⟨_, ht⟩)
    (fun _ s3 h3 => ?_) fun _ _ => noSpace_of_exhausted
  obtain ⟨L', h3⟩ := h3
  have hdisk := h2.disk
  have hsame : ∀ {α : Type} (f : InodeEntry → α), f (diskEntry sb τ no) = f (clearedEntry e) := fun f => by
    rw [hdisk]
  have hother := h2.others.trans (othersSame_resize hl h2.owns ha.2.1 (hsame _) (hsame _) (hsame _))
  have hown := h2.owns.resize hl ha.2.1 (hsame InodeEntry.type) (hsame _) (hsame _)
  have hderef : ({ s3 with list := s3.list.erase q } : FsState).inode q = _ := h3.deref
  unfold releaseLock
  rw [wp_modify, wp_modifyInode hderef, wp_modify]
  generalize ht : FsState.mk _ _ _ _ _ _ = t
  have htype : (diskEntry sb (setEntry sb τ no (clearedEntry e)) no).type = inodeInvalid := by
    rw [diskEntry_setEntry_self, ← he]
    rfl
  have hinode : t.inode = Function.update s.inode q none := by
    rw [← ht]
    show Function.update (Function.update s3.inode _ _) q none = _
    rw [h3.inode]
    exact (Function.update_idem ..).trans (Function.update_idem ..)
  obtain ⟨hv, hview⟩ := h.remove hq hρ (fun p hp => (Option.some.inj hp).symm) (ht ▸ h3.rep) hinode
    (ht ▸ congrArg (List.erase · q) h3.list) (ht ▸ h3.nextPtr) htype (ht ▸ h3.fresh.symm ▸ hown) hother
  exact ⟨_, hv, hview, fun b hb => (Bool.eq_iff_iff.mp (bit_setEntry hl ha.2.1)).trans (h2.freed b hb)⟩

theorem Volume.put (hl : sb.Layout) (h : Volume sb σ ρ none s) (hf : (view sb σ s).target q ≠ none) :
    wp ((Request.put q).call sb (some c)) (Answers sb σ s (.put q)) (fun stop _ => NoSpace stop) s := by
  obtain ⟨no, hold, hpos⟩ := h.target_ne hf
  unfold Request.call inodePut
  simp only [wp_bind]
  refine h.wp_acquireLock hold fun s1 h1 hold1 hview1 => ?_
  refine h1.wp_change hold1 (-1) (some q) (by omega) (fun _ _ => Iff.rfl) (by simp [image, sub_eq_add_neg])
    fun s2 h2 hold2 hview2 => ?_
  rw [wp_deref (h2.refs.inode hold2)]
  have hrc : (image sb σ (bump ρ no (-1)) (some q) q no).rc = ρ no + -1 := bump_self
  refine wp.ite (fun hlast => ?_) fun hkeep => ?_
  · have hone : ρ no = 1 := by
      have := hrc.symm.trans hlast.1
      omega
    refine wp.imp (h2.wp_discard hl hold2 hlast.1) fun _ t ht => ?_
    obtain ⟨τ, hv, hview, hfreed⟩ := ht
    rw [wp_pure]
    refine ⟨τ, _, hv, ?_, fun no' hno => ?_⟩
    · have hview' : view sb τ t = ((view sb σ s).setFile no none).setHandle q none := by
        rw [hview, hview2, hview1]
        show Store.mk _ _ = Store.mk _ _
        exact congrArg (Store.mk _) (Function.update_idem ..)
      rw [hview']
      exact .putLast (by rw [h.handle hold, hone]) (h.file hold) hlast.2
    · rw [Request.frees, h.handle hold] at hno
      dsimp only at hno
      split_ifs at hno
      obtain rfl := Option.some.inj hno
      exact hfreed
  · refine h2.wp_releaseLock hold2 fun t ht _ hview => ?_
    have hnot : ¬ (ρ no = 1 ∧ (diskEntry sb σ no).numLinks = 0) := by
      intro hc
      exact hkeep ⟨by rw [hrc]; omega, hc.2⟩
    rw [wp_pure]
    refine answers_of_keeps ht ?_ ?_
    · rw [hview, hview2, hview1, ← sub_eq_add_neg]
      exact .putKeep (h.handle hold) (h.file hold) hnot
    · rw [Request.frees, h.handle hold]
      dsimp only
      rw [if_neg]
      intro hc
      rw [h.file hold, Option.map_some, Option.some.injEq] at hc
      exact hnot hc

/-! ### Calls that look for an inode -/

/-- The rule of `inode_get`. -/
theorem Volume.get (hl : sb.Layout) (h : Volume sb σ ρ none s) (hf : no = 0 ∨ (view sb σ s).files no ≠ none)
    {ctx : Option ℕ} {E : Stop → FsState → Prop} :
    wp ((Request.get no).call sb ctx) (Answers sb σ s (.get no)) E s := by
  unfold Request.call
  rw [wp_bind]
  by_cases h0 : no = 0
  · subst h0
    unfold inodeGet
    rw [if_pos rfl, wp_pure, wp_pure]
    exact answers_of_keeps h .getNone rfl
  have ha : Allocated sb σ no := by
    by_contra hc
    exact hf.resolve_left h0 (viewFile_eq_none.mpr hc)
  cases hfind : findInode s no with
  | some q =>
    have hq := holds_of_findInode hfind
    have hnon := h.refs.nonneg no
    unfold inodeGet
    rw [if_neg h0, if_neg (not_le.mpr ha.2.1), wp_bind, wp_get, hfind]
    dsimp only
    rw [wp_bind]
    refine h.wp_change hq 1 none (by omega) (fun _ _ => Iff.rfl) (by simp [image]) fun t ht _ hview => ?_
    rw [wp_pure, wp_pure]
    refine answers_of_keeps ht ?_ rfl
    rw [hview]
    exact .getOld (h.handle hq)
  | none =>
    have hno : ∀ q, ¬ Holds s q no := fun q => not_holds_of_findInode hfind
    refine wp_inodeGet_new hl h.refs.rep h0 ha.2.1 hfind fun d hd => ?_
    obtain ⟨hv, hview⟩ := h.add hno ha hd
    rw [wp_pure]
    refine answers_of_keeps hv ?_ rfl
    rw [hview]
    refine .getNew (fun p n hp => hno p (h.holds hp).1) ?_
    by_contra hp
    have hlive : s.inode s.nextPtr ≠ none := fun hnone => hp (by
      show viewHandle s s.nextPtr = none
      rw [viewHandle, hnone]
      rfl)
    exact lt_irrefl _ (h.refs.below _ (h.dead _ hlive))

/-- A free inode becomes an empty file. -/
theorem Volume.create (hl : sb.Layout) (h : Volume sb σ ρ none s) (h0 : no ≠ 0) (hlt : no < sb.numInodes)
    (hfree : (diskEntry sb σ no).type = inodeInvalid) {type : InodeType} (ht : type ≠ inodeInvalid)
    {d : CacheState} (hd : Rep sb (setEntry sb σ no { InodeEntry.zero with type := type }) [] d) :
    Volume sb (setEntry sb σ no { InodeEntry.zero with type := type }) ρ none { s with cache := d } ∧
      view sb (setEntry sb σ no { InodeEntry.zero with type := type }) { s with cache := d } =
        (view sb σ s).setFile no (some ⟨type, 0, []⟩) := by
  generalize he : ({ InodeEntry.zero with type := type } : InodeEntry) = e at hd
  have hdisk : diskEntry sb (setEntry sb σ no e) no = e := diskEntry_setEntry_self
  have hind : e.indirect = 0 := by rw [← he]; rfl
  have hnot : ¬ Allocated sb σ no := fun hc => hc.2.2 hfree
  have hslot : ∀ x, e.slot σ x = 0 := by
    intro x
    rw [← he]
    cases x <;> rfl
  have hstored : ∀ j x, stored sb (setEntry sb σ no e) j x = stored sb σ j x := by
    intro j x
    by_cases hj : j = no
    · rw [hj, stored_setEntry_self hlt fun hi => absurd hind hi, hslot, ite_self, stored, if_neg fun hc => hc.2 hfree]
    · exact stored_setEntry_of_ne hl hlt h.owns hj
  have hown : Owns sb (setEntry sb σ no e) s.fresh := h.owns.congr hstored fun _ _ => bit_setEntry hl hlt
  have hother : OthersSame sb σ (setEntry sb σ no e) no := fun j _ hne =>
    ⟨diskEntry_setEntry_of_ne hne, hstored j, fun x hx => setEntry_of_ne (toBlockNo_ne_of_isData hl hlt (h.owns.data j x hx))⟩
  have ha : Allocated sb (setEntry sb σ no e) no := ⟨h0, hlt, by rw [hdisk, ← he]; exact ht⟩
  have hsize : e.numBytes = 0 := by rw [← he]; rfl
  have hne : ∀ p m, Holds s p m → m ≠ no := by
    rintro p m hp rfl
    exact hnot (h.live p m hp)
  refine ⟨⟨⟨hd, fun p hp => ?_, h.refs.once, h.refs.absent, h.refs.nonneg, h.refs.below⟩, hown,
    hother.whole h.whole fun _ x hx => ?_, fun p m hp => ?_, h.dead, h.nodup⟩, ?_⟩
  · obtain ⟨m, hm⟩ := h.refs.loaded p hp
    have hold : Holds s p m := ⟨hp, _, hm, rfl⟩
    refine ⟨m, ?_⟩
    show s.inode p = _
    rw [hm, image, image, (hother m (h.live p m hold).2.1 (hne p m hold)).entry]
  · rw [hdisk, hsize] at hx
    exact absurd hx (Nat.not_lt_zero _)
  · exact (hother.allocated (hne p m hp)).mpr (h.live p m hp)
  · show Store.mk _ _ = Store.mk _ _
    rw [hother.viewFile h.refs.rep hd h.owns hown h.whole, viewFile_of ha, hdisk, fileContent_empty hsize, ← he]
    rfl

theorem wp_cacheSync_noSpace {ctx : Option ℕ} {b : ℕ} {d : CacheState} :
    wp (cacheSync ctx b .direct) (fun _ _ => True) (fun stop _ => NoSpace stop) d := by
  cases ctx with
  | none => exact wp_cacheSync_none.mpr trivial
  | some c => exact wp_mono (Spent.start c d).wp_sync (fun _ _ _ => trivial) fun _ _ => noSpace_of_exhausted

/-- The rule of the loop of `inode_alloc`. The inodes below `m` are not free. -/
theorem Volume.wp_allocFrom (hl : sb.Layout) (h : Volume sb σ ρ none s) {type : InodeType}
    (ht : type ≠ inodeInvalid) {ctx : Option ℕ} {n m : ℕ} (h0 : m ≠ 0) (hn : n = sb.numInodes - m)
    (hfirst : ∀ j < m, j ≠ 0 → Allocated sb σ j) :
    wp (inodeAllocFrom sb ctx type n m) (fun no t => Answers sb σ s (.alloc type) (.number no) t)
      (fun stop _ => NoSpace stop) s := by
  induction n generalizing m s with
  | zero => exact wp_throw.mpr (.inr (.inr (.inr rfl)))
  | succ n ih =>
    have hlt : m < sb.numInodes := by omega
    have hlog := hl.not_inLog_toBlockNo hlt
    unfold inodeAllocFrom
    simp only [wp_bind, wp_cache]
    refine h.refs.rep.wp_acquire hlog (fun hm => absurd hm List.not_mem_nil) fun d1 h1 => h1.wp_read ?_
    refine wp.ite (fun hfree => ?_) fun hused => ?_
    · simp only [wp_bind, wp_cache]
      refine h1.wp_write fun d2 h2 => ?_
      refine wp_mono ((h2.wp_sync (E := fun _ _ => True) (Q := fun _ => Rep sb (Function.update σ _ _) _)
        (fun _ _ => trivial) fun t ht => ht).and wp_cacheSync_noSpace) (fun _ d3 h3 => ?_) fun _ _ hs => hs.2
      refine h3.1.wp_release (by rw [Function.update_self]) fun d4 h4 => ?_
      obtain ⟨hv, hview⟩ := h.create hl h0 hlt hfree ht h4
      rw [wp_pure]
      refine answers_of_keeps hv ?_ rfl
      rw [hview]
      exact .alloc h0 hlt (viewFile_eq_none.mpr fun hc => hc.2.2 hfree) fun j hj hj0 =>
        viewFile_eq_none.not.mpr (not_not.mpr (hfirst j hj hj0))
    · simp only [wp_bind, wp_cache]
      refine h1.wp_release rfl fun d2 h2 => ?_
      refine ih (h.of_rep h2) (Nat.succ_ne_zero m) (by omega) fun j hj hj0 => ?_
      by_cases hjm : j = m
      · rw [hjm]
        exact ⟨h0, hlt, hused⟩
      · exact hfirst j (by omega) hj0

/-- The rule of `inode_alloc`. -/
theorem Volume.alloc (hl : sb.Layout) (h : Volume sb σ ρ none s) {type : InodeType}
    (ht : type ≠ inodeInvalid) {ctx : Option ℕ} :
    wp ((Request.alloc type).call sb ctx) (Answers sb σ s (.alloc type)) (fun stop _ => NoSpace stop) s := by
  unfold Request.call inodeAlloc
  rw [wp_bind, if_neg ht]
  refine wp.imp (h.wp_allocFrom hl ht one_ne_zero rfl fun j hj hj0 => absurd (Nat.lt_one_iff.mp hj) hj0) fun no t ht => ?_
  exact wp_pure.mpr ht

/-- A call that keeps to the rules does what the store does. It stops only where space runs out. -/
theorem Volume.call (hl : sb.Layout) (hcap : sb.numBlocks ≤ 2 ^ 32) (h : Volume sb σ ρ none s)
    {ctx : Option ℕ} {r : Request} (hr : r.Valid (view sb σ s) (ctx ≠ none)) :
    wp (r.call sb ctx) (Answers sb σ s r) (fun stop _ => NoSpace stop) s := by
  cases r with
  | alloc type => exact h.alloc hl hr.2
  | get no => exact h.get hl hr
  | share p => exact h.share hr
  | read p off count =>
    obtain ⟨f, hf, hdev, hoff, hcount⟩ := hr
    exact h.read hl hf hdev hoff hcount
  | write p src off =>
    obtain ⟨hctx, f, hf, hdev, hoff, hmax⟩ := hr
    obtain ⟨c, rfl⟩ := Option.ne_none_iff_exists'.mp hctx
    exact h.write hl hcap hf hdev hoff hmax
  | setLinks p n =>
    obtain ⟨c, rfl⟩ := Option.ne_none_iff_exists'.mp hr.1
    exact h.setLinks hl hr.2
  | clear p =>
    obtain ⟨c, rfl⟩ := Option.ne_none_iff_exists'.mp hr.1
    exact h.clear hl hr.2
  | put p =>
    obtain ⟨c, rfl⟩ := Option.ne_none_iff_exists'.mp hr.1
    exact h.put hl hr.2

end ShikiOS.Fs.Inodes
