import ShikiOS.Fs.InodeSound

/-!
# Which blocks the inode layer returns (`fs/inode.c`)

The functions of the inode layer as holders of cache blocks. They begin with no block held, so
whatever is held when one of them ends is what it has not returned, and one that sleeps on a block
sleeps on a block that it holds itself.

Results:
* `InUse.leaks_inodeMap`, `InUse.leaks_inodeRead`, `InUse.leaks_inodeWrite`: no block is held in the
  end if no hole is met, and the indirect block otherwise.
* `InUse.awake_inodeClear`, `InUse.returnsAll_inodePut`, `awake_inodeGet`, `awake_inodeAlloc`: no
  block is held in the end.
-/

namespace ShikiOS.Fs.Inodes

open ShikiOS.Lib Bcache

/-- Where `x` ends or sleeps, no block is held. -/
abbrev returnsAll {α : Type} (x : M α) (s : FsState) : Prop :=
  wp x (fun _ t => NoneHeld t.cache) (fun e t => e = .blocked → NoneHeld t.cache) s

/-- Where `x` ends or sleeps, no block is held if and only if `C`. -/
abbrev releasesIff {α : Type} (C : Prop) (x : M α) (s : FsState) : Prop :=
  wp x (fun _ t => NoneHeld t.cache ↔ C) (fun e t => e = .blocked → (NoneHeld t.cache ↔ C)) s

variable {α β : Type} {sb : SuperBlock} {σ τ : ℕ → BlockData} {H : List (ℕ × BlockData)}
  {e : InodeEntry} {s t : FsState} {p b n x off : ℕ} {i : Inode} {ctx : Option ℕ} {C : Prop}
  {src : List UInt8} {y : M α}

theorem releasesIff_of_leaks {R : α → FsState → Prop} (hy : leaksUnless C b y R s)
    (hR : ∀ a t, R a t → NoneHeld t.cache) : releasesIff C y s := by
  refine wp_mono hy ?_ fun _ t he hb => iff_of_false (fun hn => hn b (he hb).2) (he hb).1
  rintro a t (⟨hc, hr⟩ | ⟨hc, hheld⟩)
  · exact iff_of_true (hR a t hr) hc
  · exact iff_of_false (fun hn => hn b hheld) hc

theorem releasesIff_of_returnsAll (hC : C) (hy : returnsAll y s) : releasesIff C y s :=
  wp_mono hy (fun _ _ ht => iff_of_true ht hC) fun _ _ he hb => iff_of_true (he hb) hC

theorem returnsAll_of_awake (hy : awake y (fun _ t => NoneHeld t.cache) s) : returnsAll y s :=
  wp_mono hy (fun _ _ ht => ht) fun _ _ he hb => absurd hb he

theorem leaksUnless_imp {D : Prop} {R R' : α → FsState → Prop} (hy : leaksUnless C b y R s)
    (hC : C ↔ D) (hR : ∀ a t, R a t → R' a t) : leaksUnless D b y R' s := by
  rw [← hC]
  refine wp.imp hy ?_
  rintro a t (⟨hc, hr⟩ | hleak)
  · exact .inl ⟨hc, hR a t hr⟩
  · exact .inr hleak

theorem leaksUnless_of_awake {R : α → FsState → Prop} (hC : C) (hy : awake y R s) :
    leaksUnless C b y R s :=
  wp_mono hy (fun _ _ hr => .inl ⟨hC, hr⟩) fun _ _ he hb => absurd hb he

/-- What follows on a call that may leak does not leak. -/
theorem leaksUnless_then {f : α → M β} {R : α → FsState → Prop}
    {R' : β → FsState → Prop} (hy : leaksUnless C b y R s) (hk : ∀ a, KeepsBlock b (f a))
    (hf : ∀ a t, R a t → awake (f a) R' t) : leaksUnless C b (y >>= f) R' s :=
  leaksUnless_imp (leaksUnless_bind (D := True) hy hk fun a t hr => leaksUnless_of_awake trivial (hf a t hr))
    (and_true _).to_iff fun _ _ hr => hr

theorem awake_bind_leaks {f : α → M β} {R : β → FsState → Prop}
    (hy : awake y (fun a t => leaksUnless C b (f a) R t) s) : leaksUnless C b (y >>= f) R s := by
  rw [leaksUnless, wp_bind]
  exact wp_mono hy (fun _ _ hf => hf) fun _ _ he hb => absurd hb he

/-- An address is gone, or it is what it was. -/
theorem addr_setAddr_zero (e : InodeEntry) (k j : ℕ) :
    (e.setAddr k 0).addr j = 0 ∨ (e.setAddr k 0).addr j = e.addr j := by
  unfold InodeEntry.addr InodeEntry.setAddr
  dsimp only
  split_ifs
  · exact .inl rfl
  · exact .inr rfl
  · exact .inl rfl

/-! ## Calls that look at no hole -/

section Rules

variable (hl : sb.Layout)
include hl

/-- The rule of `cache->free`. -/
theorem awake_freeBlock (h : Rep sb σ H s.cache) (hb : b < sb.numBlocks)
    (hH : sb.bitmapBlock b ∉ H.map Prod.fst) {Q : Unit → FsState → Prop}
    (hq : ∀ t, Rep sb (clearBit sb σ b) H t.cache → t.inode = s.inode → Q () t) :
    awake (freeBlock sb ctx b) Q s := by
  unfold freeBlock
  rw [awake, wp_bind, wp_cache]
  refine h.wp_cacheFree hl hb (fun _ _ => by simp) (fun hm => absurd hm hH) fun c hc => ?_
  exact wp_modify.mpr (hq _ hc rfl)

/-- `inode_sync`, also of an inode that has not been read yet. -/
theorem awake_inodeSync_any {doWrite : Bool} (h : Rep sb σ [] s.cache) (hi : s.inode p = some i)
    (hno : i.inodeNo < sb.numInodes) :
    awake (inodeSync sb ctx p doWrite) (fun _ t => NoneHeld t.cache) s := by
  by_cases hv : i.valid = true
  · exact awake_inodeSync hl h hi hno hv fun _ _ hc _ => hc.noneHeld
  · unfold inodeSync
    rw [awake, wp_bind, wp_deref hi]
    simp only [wp_bind, wp_cache]
    refine h.wp_acquire (hl.not_inLog_toBlockNo hno) (fun hm => absurd hm List.not_mem_nil) fun c1 h1 =>
      h1.wp_read ?_
    rw [if_neg hv, wp_bind, wp_modifyInode (s := { s with cache := c1 }) hi, wp_cache]
    exact h1.wp_release rfl fun c2 h2 => h2.noneHeld

/-- Lines 209-223 of `inode_clear`. -/
theorem InUse.awake_clearIndirect (h : InUse sb σ p i s) {Q : Unit → FsState → Prop}
    (hq : ∀ t τ e, Rep sb τ [] t.cache → t.inode p = some { i with entry := e } →
      (∀ k, e.addr k = i.entry.addr k) → Q () t) :
    awake (clearIndirect sb ctx p) Q s := by
  unfold clearIndirect
  rw [awake, wp_bind, wp_deref h.inode]
  dsimp only
  refine wp.ite (fun h0 => ?_) fun _ => wp_pure.mpr (hq s σ i.entry h.rep h.inode fun _ => rfl)
  have hind := (h.sound.indirect h0).1
  simp only [wp_bind, wp_cache]
  refine h.rep.wp_acquire (hl.not_inLog_of_isData hind) (fun hm => absurd hm List.not_mem_nil) fun c1 h1 => ?_
  -- the bits of the blocks change, but not the indirect block
  refine wp.imp (wp_forN (fun _ t => ∃ τ, Rep sb τ [(i.entry.indirect.toNat, σ i.entry.indirect.toNat)]
    t.cache ∧ τ i.entry.indirect.toNat = σ i.entry.indirect.toNat ∧ t.inode = s.inode) ⟨σ, h1, rfl, rfl⟩
    fun k t _ hk ht => ?_) ?_
  · obtain ⟨τ, hrep, hsame, hinode⟩ := ht
    unfold freeIndirect
    rw [wp_bind, wp_cache]
    refine hrep.wp_read ?_
    refine wp.ite (fun hk0 => ?_) fun _ => wp_pure.mpr ⟨τ, hrep, hsame, hinode⟩
    have hk' : k < inodeNumIndirect := by omega
    have hslot : i.entry.slot σ (.entry ⟨k, hk'⟩) =
        (IndirectBlock.get (σ i.entry.indirect.toNat) k).toNat := if_neg h0
    have hb := h.sound.data (.entry ⟨k, hk'⟩) (by rw [hslot]; exact toNat_eq_zero.not.mpr hk0)
    rw [hslot] at hb
    have hne := bitmapBlock_ne_of_isData hb.2 hind
    refine awake_freeBlock hl hrep hb.2 (by simpa using hne) fun u hu hinode' => ⟨_, hu, ?_, ?_⟩
    · rw [clearBit, Function.update_of_ne hne.symm, hsame]
    · rw [hinode', hinode]
  · rintro - t ⟨τ, hrep, hsame, hinode⟩
    refine hrep.wp_release hsame.symm fun c2 h2 => ?_
    refine awake_freeBlock hl h2 hind.2 List.not_mem_nil fun u hu hinode' => ?_
    have hp : u.inode p = some i := by
      rw [hinode']
      exact (congrFun hinode p).trans h.inode
    unfold modifyEntry
    rw [wp_modifyInode hp]
    exact hq _ _ _ hu (Function.update_self _ _ _) fun _ => rfl

/-- Lines 225-230 of `inode_clear`. -/
theorem awake_freeDirects (h : Rep sb σ [] s.cache) (hi : s.inode p = some i)
    (hdata : ∀ k < inodeNumDirect, i.entry.addr k ≠ 0 → sb.IsData (i.entry.addr k).toNat)
    {Q : Unit → FsState → Prop}
    (hq : ∀ t τ e, Rep sb τ [] t.cache → t.inode p = some { i with entry := e } → Q () t) :
    awake (forN (freeDirect sb ctx p) 0 inodeNumDirect) Q s := by
  refine wp.imp (wp_forN (fun _ t => ∃ τ e, Rep sb τ [] t.cache ∧ t.inode p = some { i with entry := e } ∧
    ∀ k, e.addr k = 0 ∨ e.addr k = i.entry.addr k) ⟨σ, i.entry, h, hi, fun _ => .inr rfl⟩
    fun k t _ hk ht => ?_) ?_
  · obtain ⟨τ, e, hrep, hinode, haddr⟩ := ht
    unfold freeDirect
    rw [wp_bind, wp_deref hinode]
    refine wp.ite (fun h0 => ?_) fun _ => wp_pure.mpr ⟨τ, e, hrep, hinode, haddr⟩
    have hk' : e.addr k = i.entry.addr k := (haddr k).resolve_left h0
    have hb : sb.IsData (e.addr k).toNat := by
      rw [hk'] at h0 ⊢
      exact hdata k (by omega) h0
    rw [wp_bind]
    refine awake_freeBlock hl hrep hb.2 List.not_mem_nil fun u hu hinode' => ?_
    unfold modifyEntry
    rw [wp_modifyInode (by rw [hinode', hinode])]
    exact ⟨_, _, hu, Function.update_self _ _ _, fun j =>
      (addr_setAddr_zero e k j).elim .inl fun hj => hj ▸ haddr j⟩
  · rintro - t ⟨τ, e, hrep, hinode, -⟩
    exact hq t τ e hrep hinode

/-- The rule of `inode_clear`. -/
theorem InUse.awake_inodeClear (h : InUse sb σ p i s) {Q : Unit → FsState → Prop}
    (hq : ∀ t τ e, Rep sb τ [] t.cache → t.inode p = some { i with entry := e } → Q () t) :
    awake (inodeClear sb ctx p) Q s := by
  unfold inodeClear
  simp only [awake, wp_bind]
  refine h.awake_clearIndirect hl fun t1 τ e h1 hi1 haddr => ?_
  refine awake_freeDirects hl h1 hi1 (fun k hk h0 => ?_) fun t2 τ' e' h2 hi2 => ?_
  · have hslot : i.entry.slot σ (.direct ⟨k, hk⟩) = (e.addr k).toNat := by
      rw [haddr, InodeEntry.addr, dif_pos hk]
      rfl
    have hb := h.sound.data (.direct ⟨k, hk⟩) (by rw [hslot]; exact toNat_eq_zero.not.mpr h0)
    rwa [hslot] at hb
  · exact awake_setEntry hl h2 hi2 h.no h.valid fun t τ'' ht hi3 _ => hq t τ'' _ ht hi3

/-- Lines 252-258 of `inode_put`: the last reference to an inode without links is gone. -/
theorem InUse.awake_drop (h : InUse sb σ p i s) :
    awake (do
      inodeClear sb ctx p
      inodeSync sb ctx p true
      modify fun s => { s with list := s.list.erase p }
      releaseLock p
      modify fun s => { s with inode := Function.update s.inode p none })
      (fun _ t => NoneHeld t.cache) s := by
  simp only [awake, wp_bind]
  refine h.awake_inodeClear hl fun t1 τ e h1 hi1 => ?_
  refine awake_inodeSync hl h1 hi1 h.no h.valid fun c τ' hc _ => ?_
  unfold releaseLock
  rw [wp_modify, wp_modifyInode (s := { t1 with cache := c, list := t1.list.erase p }) hi1, wp_modify]
  exact hc.noneHeld

/-- `inode_put` may sleep on the lock of the inode. -/
theorem InUse.returnsAll_inodePut (h : InUse sb σ p i s) : returnsAll (inodePut sb ctx p) s := by
  unfold inodePut acquireLock
  rw [returnsAll, wp_bind, wp_bind, wp_deref h.inode]
  refine wp.ite (fun _ => wp_throw.mpr fun _ => h.rep.noneHeld) fun _ => ?_
  rw [wp_modifyInode h.inode]
  change wp _ _ _ (setInode s p _)
  rw [wp_bind, wp_modify_set, wp_bind, wp_deref_set]
  refine wp.ite (fun _ => ?_) fun _ => ?_
  · have hsound : Sound sb σ { i.entry with type := inodeInvalid } :=
      h.sound.congr (slot_congr fun _ => rfl) fun _ _ => rfl
    unfold modifyEntry
    rw [wp_bind, wp_modify_set]
    exact returnsAll_of_awake (InUse.awake_drop hl
      ⟨h.rep, setInode_self .., h.no, h.valid, hsound, h.size⟩)
  · unfold releaseLock
    rw [wp_modify_set]
    exact h.rep.noneHeld

/-- The rule of `inode_alloc`. -/
theorem awake_inodeAlloc (h : Rep sb σ [] s.cache) {type : InodeType} :
    awake (inodeAlloc sb ctx type) (fun _ t => NoneHeld t.cache) s := by
  unfold inodeAlloc
  refine wp.ite (fun _ => wp_throw.mpr (by simp)) fun _ => ?_
  have hbound : ∀ {n no : ℕ} {s : FsState}, no + n ≤ max 1 sb.numInodes → 0 < no → Rep sb σ [] s.cache →
      awake (inodeAllocFrom sb ctx type n no) (fun _ t => NoneHeld t.cache) s := by
    intro n
    induction n with
    | zero => exact fun _ _ _ => wp_throw.mpr (by simp)
    | succ n ih =>
      intro no s hle hpos h
      unfold inodeAllocFrom
      simp only [awake, wp_bind, wp_cache]
      refine h.wp_acquire (hl.not_inLog_toBlockNo (by omega)) (fun hm => absurd hm List.not_mem_nil)
        fun c1 h1 => h1.wp_read ?_
      refine wp.ite (fun _ => ?_) fun _ => ?_
      · simp only [wp_bind, wp_cache, wp_pure]
        exact h1.wp_write fun c2 h2 => h2.wp_syncRelease (fun _ _ => by simp) fun c3 h3 => h3.noneHeld
      · simp only [wp_bind, wp_cache]
        exact h1.wp_release rfl fun c2 h2 => ih (by omega) (by omega) h2
  exact hbound (by omega) one_pos h

/-- The rule of `inode_get`. -/
theorem awake_inodeGet (h : Rep sb σ [] s.cache) {no : ℕ} :
    awake (inodeGet sb no) (fun _ t => NoneHeld t.cache) s := by
  by_cases h0 : no = 0
  · unfold inodeGet
    rw [if_pos h0]
    exact wp_pure.mpr h.noneHeld
  by_cases hlt : no < sb.numInodes
  · cases hf : findInode s no with
    | some q =>
      obtain ⟨-, i, hi, -⟩ := holds_of_findInode hf
      unfold inodeGet
      rw [if_neg h0, if_neg (not_le.mpr hlt), awake, wp_bind, wp_get, hf]
      dsimp only
      rw [wp_bind, wp_modifyInode hi, wp_pure]
      exact h.noneHeld
    | none => exact wp_inodeGet_new hl h h0 hlt hf fun c hc => hc.noneHeld
  · unfold inodeGet
    rw [if_neg h0, if_pos (not_lt.mp hlt)]
    exact wp_throw.mpr (by simp)

end Rules

/-! ## Devices -/

/-- The inode at `p` is a device, and no block is held. -/
def IsDevice (p : ℕ) (s : FsState) : Prop :=
  NoneHeld s.cache ∧ ∃ o, s.inode p = some o ∧ o.entry.type = inodeDevice

theorem ignoresLock_isDevice : IgnoresLock p (IsDevice p) := by
  refine ⟨fun s o l hs ho => ⟨hs.1, _, Function.update_self .., ?_⟩, fun s l hs => hs⟩
  obtain ⟨-, o', ho', hdev⟩ := hs
  obtain rfl := Option.some.inj (ho.symm.trans ho')
  exact hdev

theorem preserves_inodeRead_device : Preserves (IsDevice p) (inodeRead sb p off n) := by
  intro s hs
  obtain ⟨-, o, ho, hdev⟩ := id hs
  unfold inodeRead
  rw [wp_bind, wp_deref ho, if_pos hdev]
  exact ignoresLock_isDevice.consoleRead s hs

theorem preserves_inodeWrite_device : Preserves (IsDevice p) (inodeWrite sb ctx p src off) := by
  intro s hs
  obtain ⟨-, o, ho, hdev⟩ := id hs
  unfold inodeWrite
  rw [wp_bind, wp_deref ho]
  dsimp only
  rw [if_pos hdev]
  exact ignoresLock_isDevice.consoleWrite s hs

/-- What keeps to the console looks at no hole. -/
theorem releasesIff_of_isDevice {y : M α} (h : Preserves (IsDevice p) y) (hs : IsDevice p s) (hC : C) :
    releasesIff C y s :=
  releasesIff_of_returnsAll hC (wp_mono (h s hs) (fun _ _ ht => ht.1) fun _ _ ht _ => ht.1)

/-! ## Calls that look for blocks -/

theorem InUse.isDevice (h : InUse sb σ p i s) (hdev : i.entry.type = inodeDevice) : IsDevice p s :=
  ⟨h.rep.noneHeld, i, h.inode, hdev⟩

section Holes

variable (hl : sb.Layout)
include hl

theorem InUse.placed (h : InUse sb σ p i s) : Placed sb σ i.entry := by
  refine ⟨fun h0 => hl.not_inLog_of_isData (h.sound.indirect h0).1, fun x hx => ?_, fun h0 x hx heq => ?_⟩
  · rw [mapped_eq_slot hx]
    by_cases hzero : i.entry.slot σ (fileSlot x) = 0
    · -- block 0 is in front of the log
      have hlog := hl.log
      rw [hzero]
      exact fun hin => absurd hin.1 (by omega)
    · exact hl.not_inLog_of_isData (h.sound.data _ hzero)
  · rw [mapped_eq_slot hx] at heq
    have hne : i.entry.slot σ (fileSlot x) ≠ 0 := by
      rw [heq]
      exact toNat_eq_zero.not.mpr h0
    exact fileSlot_ne_indirect x (h.sound.ne _ hne heq)

/-- `inode_read` of an inode that is not a device. -/
theorem InUse.leaks_inodeRead (h : InUse sb σ p i s) (hdev : i.entry.type ≠ inodeDevice)
    (hoff : off < 2 ^ 64) (hn : n < 2 ^ 64) :
    leaksUnless (NoHole σ i.entry off (min (off + n) i.entry.numBytes.toNat)) i.entry.indirect.toNat
      (inodeRead sb p off n) (fun bytes t =>
        bytes.length = min (off + n) i.entry.numBytes.toNat - off ∧
        (min (off + n) i.entry.numBytes.toNat ≤ (off / blockSize + 1) * blockSize →
          bytes = (σ (mapped σ i.entry (off / blockSize))).slice (off % blockSize)
            (min (off + n) i.entry.numBytes.toNat - off)) ∧
        ∃ c, t = { s with cache := c } ∧ InUse sb σ p i t) s := by
  refine leaksUnless_imp (wp_inodeRead_none (h.placed hl) h.opened hdev h.size hoff hn) Iff.rfl ?_
  rintro bytes t ⟨hlen, hbytes, c, rfl, ht⟩
  exact ⟨hlen, hbytes, c, rfl, h.with_cache ht.rep⟩

variable (hcap : sb.numBlocks ≤ 2 ^ 32)
include hcap

/-- `inode_map`. -/
theorem InUse.leaks_inodeMap (h : InUse sb σ p i s) (hx : x < inodeNumParts) :
    leaksUnless (ctx = none → ¬ Hole σ i.entry x) i.entry.indirect.toNat (inodeMap sb ctx p x)
      (fun _ t => NoneHeld t.cache) s := by
  cases ctx with
  | none =>
    refine leaksUnless_imp (wp_inodeMap_none (h.placed hl) h.opened) (by simp) ?_
    rintro b t ⟨-, c, rfl, ht⟩
    exact ht.rep.noneHeld
  | some c =>
    refine leaksUnless_of_awake (fun hc => by cases hc) ?_
    exact h.awake_inodeMap hl hcap hx fun t τ e ht _ => ht.rep.noneHeld

/-- `inode_write` to an inode that is not a device. -/
theorem InUse.leaks_inodeWrite (h : InUse sb σ p i s) (hdev : i.entry.type ≠ inodeDevice)
    (hlen : src.length < 2 ^ 64) :
    leaksUnless (ctx = none → NoHole σ i.entry off (off + src.length)) i.entry.indirect.toNat
      (inodeWrite sb ctx p src off) (fun _ t => NoneHeld t.cache) s := by
  have hsize := i.entry.numBytes.toNat_lt
  have hmax : inodeMaxBytes = 71680 := rfl
  cases ctx with
  | some c =>
    exact leaksUnless_of_awake (fun hc => by cases hc) (h.awake_inodeWrite hl hcap hdev hlen)
  | none =>
    unfold inodeWrite
    rw [leaksUnless, wp_bind, wp_deref h.inode]
    refine wp.ite (fun hd => absurd hd hdev) fun _ => ?_
    refine wp.ite (fun hassert => ?_) fun _ => wp_throw.mpr fun he => by cases he
    have hstop : usize (off + src.length) = off + src.length := by
      unfold usize at hassert ⊢
      omega
    rw [hstop] at hassert ⊢
    refine awake_bind_leaks (h.awake_growTo hl hassert.2.1 fun t τ m ht hsame => ?_)
    -- what has been written is not the indirect block
    obtain ⟨-, hhole⟩ := (h.placed hl).congr τ
      fun h0 => hsame _ (toBlockNo_ne_of_isData hl h.no (h.sound.indirect h0).1)
    have hfirst : true = false → src ≠ [] → off % blockSize = 0 := fun hc => by cases hc
    have hloop := wp_inodeWriteLoop_none (ht.placed hl) ht.opened (le_refl src.length) hfirst hassert.2.1
    have hnone : NoHole τ { i.entry with numBytes := m } off (off + src.length) ↔
        ((none : Option ℕ) = none → NoHole σ i.entry off (off + src.length)) :=
      ⟨fun hn _ => (hhole off _).mp hn, fun hn => (hhole off _).mpr (hn rfl)⟩
    rw [← hnone]
    refine leaksUnless_then hloop (fun _ => keepsBlock_growTo.bind fun _ => preserves_pure _) ?_
    rintro - u ⟨c, υ, rfl, hu⟩
    rw [awake, wp_bind]
    exact Inodes.awake_growTo hl hu.rep ht.inode h.no h.valid fun _ _ _ hc _ _ _ => wp_pure.mpr hc.noneHeld

end Holes

end ShikiOS.Fs.Inodes
