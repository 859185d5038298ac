import Mathlib.Data.Finset.Card
import ShikiOS.Fs.InodeMap

/-!
# `inode_clear` (`fs/inode.c`, lines 206-234)

`inode_clear` frees the blocks that an entry stores, one after the other, and writes the entry
without them.

Results:
* `At.wp_freeBlock`: the rule of `cache->free`.
* `At.wp_inodeClear`: the bits of exactly the blocks in the slots of the entry are cleared, and no
  other content changes but the entry.
* `Frees.owns`: afterwards every block is still stored at most once and marked.
-/

namespace ShikiOS.Fs.Inodes

open ShikiOS.Lib Bcache

/-- The blocks of the bitmap. -/
def bitmaps (sb : SuperBlock) : Finset ℕ :=
  (Finset.range ((sb.numBlocks + bitPerBlock - 1) / bitPerBlock)).image (sb.bitmapStart + ·)

/-- From `σ` to `τ` the blocks `D` were freed. -/
structure Frees (sb : SuperBlock) (σ τ : ℕ → BlockData) (D : ℕ → Prop) : Prop where
  same : ∀ c, (∀ b < sb.numBlocks, c ≠ sb.bitmapBlock b) → τ c = σ c
  bits : ∀ c < sb.numBlocks, bit sb τ c = true ↔ bit sb σ c = true ∧ ¬ D c

/-- An entry without blocks. -/
def clearedEntry (e : InodeEntry) : InodeEntry :=
  { e with numBytes := 0, addrs := fun _ => 0, indirect := 0 }

variable {sb : SuperBlock} {k : Op} {σ τ : ℕ → BlockData} {F : List ℕ} {H : List (ℕ × BlockData)}
  {L : Finset ℕ} {A : List ℕ} {e : InodeEntry} {s : FsState} {b i n N : ℕ} {D : ℕ → Prop}

theorem bitmapBlock_mem (hb : b < sb.numBlocks) : sb.bitmapBlock b ∈ bitmaps sb := by
  have hsize : bitPerBlock = 4096 := rfl
  refine Finset.mem_image.mpr ⟨b / bitPerBlock, Finset.mem_range.mpr ?_, rfl⟩
  rw [hsize]
  omega

theorem Frees.refl (sb : SuperBlock) (σ : ℕ → BlockData) : Frees sb σ σ fun _ => False :=
  ⟨fun _ _ => rfl, fun _ _ => by simp⟩

theorem Frees.congr {D' : ℕ → Prop} (h : Frees sb σ τ D) (hD : ∀ c, D c ↔ D' c) :
    Frees sb σ τ D' := ⟨h.same, fun c hc => by rw [← hD]; exact h.bits c hc⟩

/-- One more block is freed. -/
theorem Frees.step (h : Frees sb σ τ D) (hb : b < sb.numBlocks) :
    Frees sb σ (clearBit sb τ b) fun c => D c ∨ c = b := by
  refine ⟨fun c hc => ?_, fun c hc => ?_⟩
  · rw [clearBit, Function.update_of_ne (hc b hb), h.same c hc]
  · rw [bit_clearBit, Bool.and_eq_true, h.bits c hc, decide_eq_true_eq, not_or, and_assoc]

/-- Data blocks do not change. -/
theorem Frees.data (h : Frees sb σ τ D) (hb : sb.IsData b) : τ b = σ b :=
  h.same b fun _ hc => (bitmapBlock_ne_of_isData hc hb).symm

/-- The list of fresh blocks after the blocks `D` have been freed. -/
def Remain (A A' : List ℕ) (D : ℕ → Prop) : Prop := ∀ c, c ∈ A' ↔ c ∈ A ∧ ¬ D c

theorem Remain.step {A A' : List ℕ} (h : Remain A A' D) (b : ℕ) :
    Remain A (A'.filter (· ≠ b)) fun c => D c ∨ c = b := by
  intro c
  rw [List.mem_filter, h c, decide_eq_true_eq, not_or, and_assoc]

theorem Remain.congr {A A' : List ℕ} {D' : ℕ → Prop} (h : Remain A A' D) (hD : ∀ c, D c ↔ D' c) :
    Remain A A' D' := fun c => by rw [← hD]; exact h c

/-- The numbers other than 0 among the first `i` values of `f`. -/
def Among (f : ℕ → ℕ) (i c : ℕ) : Prop := c ≠ 0 ∧ ∃ j < i, f j = c

theorem among_succ {f : ℕ → ℕ} {c : ℕ} (h0 : f i ≠ 0) :
    Among f (i + 1) c ↔ Among f i c ∨ c = f i := by
  unfold Among
  rw [Nat.exists_lt_succ_right, and_or_left]
  refine or_congr Iff.rfl ⟨fun h => h.2.symm, ?_⟩
  rintro rfl
  exact ⟨h0, rfl⟩

theorem among_succ_of_eq_zero {f : ℕ → ℕ} {c : ℕ} (h0 : f i = 0) :
    Among f (i + 1) c ↔ Among f i c := by
  unfold Among
  rw [Nat.exists_lt_succ_right, and_or_left, h0]
  exact or_iff_left fun h => h.1 h.2.symm

section Rules

variable (hl : sb.Layout)
include hl

/-- The rule of `cache->free`. -/
theorem At.wp_freeBlock (h : At sb k σ H L A e s) (hb : b < sb.numBlocks)
    (hH : sb.bitmapBlock b ∉ H.map Prod.fst) (hn : (insert (sb.bitmapBlock b) L).card ≤ n)
    {Q : Unit → FsState → Prop}
    (hq : ∀ t, At sb k (clearBit sb σ b) H (insert (sb.bitmapBlock b) L) (A.filter (· ≠ b)) e t →
      Q () t) :
    wp (freeBlock sb (some k.ctx) b) Q (fun stop _ => Exhausted k.rm n stop) s := by
  unfold freeBlock
  simp only [wp_bind, wp_modify]
  have hrep : wp (cacheFree sb (some k.ctx) b) (fun _ c => Rep sb (clearBit sb σ b) H c)
      (fun stop _ => stop ≠ .blocked) s.cache :=
    h.rep.wp_cacheFree hl hb (fun _ _ => by simp) (fun hm => absurd hm hH) fun _ hc => hc
  refine wp_cache_and hrep h.spent.wp_cacheFree (fun _ c h1 h2 => ?_) fun stop c h1 h2 => ?_
  · refine hq _ ⟨h1, h2, fun x hx => ?_, h.inode, congrArg (List.filter _) h.fresh, h.list,
      h.nextPtr⟩
    simp only [Finset.mem_insert, not_or] at hx
    rw [clearBit, Function.update_of_ne hx.1, h.unsynced x hx.2]
  · exact (h2.resolve_left h1).mono hn

/-- The blocks `D` have been freed since the device was `σ`. -/
def Freeing (sb : SuperBlock) (k : Op) (σ : ℕ → BlockData) (L : Finset ℕ) (A : List ℕ)
    (H : List (ℕ × BlockData)) (e : InodeEntry) (D : ℕ → Prop) (t : FsState) : Prop :=
  ∃ τ L' A', At sb k τ H L' A' e t ∧ L' ⊆ L ∪ bitmaps sb ∧ Frees sb σ τ D ∧ Remain A A' D

theorem Freeing.wp_freeBlock (h : Freeing sb k σ L A H e D s) (hb : b < sb.numBlocks)
    (hH : sb.bitmapBlock b ∉ H.map Prod.fst) (hn : (L ∪ bitmaps sb).card ≤ n)
    {Q : Unit → FsState → Prop}
    (hq : ∀ t, Freeing sb k σ L A H e (fun c => D c ∨ c = b) t → Q () t) :
    wp (freeBlock sb (some k.ctx) b) Q (fun stop _ => Exhausted k.rm n stop) s := by
  obtain ⟨τ, L', A', hat, hL, hfrees, hremain⟩ := h
  have hL' : insert (sb.bitmapBlock b) L' ⊆ L ∪ bitmaps sb :=
    Finset.insert_subset (Finset.mem_union_right L (bitmapBlock_mem hb)) hL
  exact hat.wp_freeBlock hl hb hH ((Finset.card_le_card hL').trans hn) fun t ht =>
    hq t ⟨_, _, _, ht, hL', hfrees.step hb, hremain.step b⟩

omit hl in
theorem Freeing.congr {D' : ℕ → Prop} (h : Freeing sb k σ L A H e D s) (hD : ∀ c, D c ↔ D' c) :
    Freeing sb k σ L A H e D' s := by
  obtain ⟨τ, L', A', hat, hL, hfrees, hremain⟩ := h
  exact ⟨τ, L', A', hat, hL, hfrees.congr hD, hremain.congr hD⟩

/-- The `j`-th number in an indirect block. -/
def indirectNo (d : BlockData) (j : ℕ) : ℕ := (IndirectBlock.get d j).toNat

/-- The loop over the indirect block. -/
theorem Freeing.wp_freeIndirects {d : BlockData} (h : Freeing sb k σ L A ((b, d) :: H) e D s)
    (hdata : ∀ j < inodeNumIndirect, indirectNo d j ≠ 0 → sb.IsData (indirectNo d j))
    (hH : ∀ c < sb.numBlocks, sb.bitmapBlock c ∉ ((b, d) :: H).map Prod.fst)
    (hn : (L ∪ bitmaps sb).card ≤ n) {Q : Unit → FsState → Prop}
    (hq : ∀ t, Freeing sb k σ L A ((b, d) :: H) e
      (fun c => D c ∨ Among (indirectNo d) inodeNumIndirect c) t → Q () t) :
    wp (forN (freeIndirect sb (some k.ctx) b) 0 inodeNumIndirect) Q
      (fun stop _ => Exhausted k.rm n stop) s := by
  have hloop := wp_forN (f := freeIndirect sb (some k.ctx) b)
    (E := fun stop _ => Exhausted k.rm n stop) (a := 0) (n := inodeNumIndirect) (s := s)
    (fun i t => Freeing sb k σ L A ((b, d) :: H) e (fun c => D c ∨ Among (indirectNo d) i c) t)
    ?_ fun i t _ hi ht => ?_
  · exact wp.imp hloop fun _ t ht => hq t (by simpa only [Nat.zero_add] using ht)
  · exact h.congr fun c => by simp [Among]
  · have hf := ht
    obtain ⟨τ, L', A', hat, -⟩ := ht
    unfold freeIndirect
    rw [wp_bind]
    refine hat.wp_read ?_
    split_ifs with h0
    · have h0' : indirectNo d i ≠ 0 := toNat_eq_zero.not.mpr h0
      have hb := hdata i (by omega) h0'
      refine hf.wp_freeBlock hl hb.2 (hH _ hb.2) hn fun u hu => hu.congr fun c => ?_
      rw [or_assoc, among_succ h0']
    · rw [wp_pure]
      exact hf.congr fun c => by
        rw [among_succ_of_eq_zero (toNat_eq_zero.mpr (not_not.mp h0) : indirectNo d i = 0)]

/-- The `j`-th address of an entry. -/
def directNo (e : InodeEntry) (j : ℕ) : ℕ := (e.addr j).toNat

/-- An entry whose first `i` addresses are gone. -/
def withoutDirect (e : InodeEntry) (i : ℕ) : InodeEntry :=
  { e with addrs := fun j => if (j : ℕ) < i then 0 else e.addrs j }

/-- The block numbers in the slots of an entry. -/
def Stores (σ : ℕ → BlockData) (e : InodeEntry) (c : ℕ) : Prop := c ≠ 0 ∧ ∃ x, e.slot σ x = c

/-- Those in the indirect block and in `indirect`. -/
def StoresIndirect (σ : ℕ → BlockData) (e : InodeEntry) (c : ℕ) : Prop :=
  e.indirect ≠ 0 ∧ (Among (indirectNo (σ e.indirect.toNat)) inodeNumIndirect c ∨
    c = e.indirect.toNat)

omit hl in
theorem stores_iff {c : ℕ} :
    Stores σ e c ↔ StoresIndirect σ e c ∨ Among (directNo e) inodeNumDirect c := by
  have haddr : ∀ j : Fin inodeNumDirect, directNo e j = (e.addrs j).toNat := fun j => by
    rw [directNo, InodeEntry.addr, dif_pos j.isLt]
  constructor
  · rintro ⟨hc, x, rfl⟩
    cases x with
    | direct j => exact .inr ⟨hc, j, j.isLt, haddr j⟩
    | indirect => exact .inl ⟨toNat_eq_zero.not.mp hc, .inr rfl⟩
    | entry j =>
      by_cases h0 : e.indirect = 0
      · exact absurd (if_pos h0) hc
      · exact .inl ⟨h0, .inl ⟨hc, j, j.isLt, (if_neg h0).symm⟩⟩
  · rintro (⟨h0, ⟨hc, j, hj, rfl⟩ | rfl⟩ | ⟨hc, j, hj, rfl⟩)
    · exact ⟨hc, .entry ⟨j, hj⟩, if_neg h0⟩
    · exact ⟨toNat_eq_zero.not.mpr h0, .indirect, rfl⟩
    · exact ⟨hc, .direct ⟨j, hj⟩, (haddr ⟨j, hj⟩).symm⟩

/-- Lines 209-223. -/
theorem At.wp_clearIndirect (h : At sb k σ [] L A e s)
    (hdata : ∀ c, Stores σ e c → sb.IsData c) (hn : (L ∪ bitmaps sb).card ≤ n)
    {Q : Unit → FsState → Prop}
    (hq : ∀ t, Freeing sb k σ L A [] { e with indirect := 0 } (StoresIndirect σ e) t → Q () t) :
    wp (clearIndirect sb (some k.ctx) k.p) Q (fun stop _ => Exhausted k.rm n stop) s := by
  have hstart : ∀ {H : List (ℕ × BlockData)} {t : FsState}, At sb k σ H L A e t →
      Freeing sb k σ L A H e (fun _ => False) t := fun ht =>
    ⟨σ, L, A, ht, Finset.subset_union_left, Frees.refl sb σ, fun c => by simp⟩
  unfold clearIndirect
  rw [wp_bind, wp_deref h.deref]
  dsimp only
  split_ifs with h0
  · have hind : sb.IsData e.indirect.toNat := hdata _ (stores_iff.mpr (.inl ⟨h0, .inr rfl⟩))
    simp only [wp_bind]
    refine h.wp_acquire (hl.not_inLog_of_isData hind) List.not_mem_nil fun s1 h1 => ?_
    refine (hstart h1).wp_freeIndirects hl (fun j hj hne => ?_) (fun c hc hm => ?_) hn
      fun s2 h2 => ?_
    · exact hdata _ (stores_iff.mpr (.inl ⟨h0, .inl ⟨hne, j, hj, rfl⟩⟩))
    · exact bitmapBlock_ne_of_isData hc hind (by simpa using hm)
    · obtain ⟨τ, L', A', hat, hL, hfrees, hremain⟩ := h2
      refine hat.wp_release (hfrees.data hind).symm fun s3 h3 => ?_
      have hf3 : Freeing sb k σ L A [] e _ s3 := ⟨τ, L', A', h3, hL, hfrees, hremain⟩
      refine hf3.wp_freeBlock hl hind.2 List.not_mem_nil hn fun s4 h4 => ?_
      obtain ⟨τ', L'', A'', hat', hrest⟩ := h4
      refine hat'.wp_modifyEntry fun s5 h5 =>
        hq s5 (Freeing.congr ⟨τ', L'', A'', h5, hrest⟩ fun c => ?_)
      rw [false_or, StoresIndirect, and_iff_right h0]
  · rw [wp_pure]
    have heq : ({ e with indirect := 0 } : InodeEntry) = e := by
      rw [← not_not.mp h0]
    rw [heq] at hq
    exact hq s ((hstart h).congr fun c => ⟨False.elim, fun hc => h0 hc.1⟩)

omit hl in
theorem directNo_withoutDirect (hi : i < inodeNumDirect) :
    (withoutDirect e i).addr i = e.addr i := by
  rw [InodeEntry.addr, dif_pos hi, InodeEntry.addr, dif_pos hi]
  exact if_neg (lt_irrefl i)

omit hl in
theorem setAddr_withoutDirect : (withoutDirect e i).setAddr i 0 = withoutDirect e (i + 1) := by
  unfold withoutDirect InodeEntry.setAddr
  congr 1
  funext j
  dsimp only
  split_ifs <;> first | rfl | omega

omit hl in
theorem withoutDirect_succ (hi : i < inodeNumDirect) (h0 : e.addr i = 0) :
    withoutDirect e (i + 1) = withoutDirect e i := by
  unfold withoutDirect
  congr 1
  funext j
  split_ifs with h1 h2 h2
  · rfl
  · obtain rfl : (j : ℕ) = i := by omega
    rw [← h0, InodeEntry.addr, dif_pos hi]
  · omega
  · rfl

/-- Lines 225-230: the loop over the direct addresses. -/
theorem Freeing.wp_freeDirects (h : Freeing sb k σ L A [] e D s)
    (hdata : ∀ j < inodeNumDirect, directNo e j ≠ 0 → sb.IsData (directNo e j))
    (hn : (L ∪ bitmaps sb).card ≤ n) {Q : Unit → FsState → Prop}
    (hq : ∀ t, Freeing sb k σ L A [] (withoutDirect e inodeNumDirect)
      (fun c => D c ∨ Among (directNo e) inodeNumDirect c) t → Q () t) :
    wp (forN (freeDirect sb (some k.ctx) k.p) 0 inodeNumDirect) Q
      (fun stop _ => Exhausted k.rm n stop) s := by
  have hloop := wp_forN (f := freeDirect sb (some k.ctx) k.p)
    (E := fun stop _ => Exhausted k.rm n stop) (a := 0) (n := inodeNumDirect) (s := s)
    (fun i t => Freeing sb k σ L A [] (withoutDirect e i)
      (fun c => D c ∨ Among (directNo e) i c) t) ?_ fun i t _ hi ht => ?_
  · exact wp.imp hloop fun _ t ht => hq t (by simpa only [Nat.zero_add] using ht)
  · have h0 : withoutDirect e 0 = e := rfl
    rw [h0]
    exact h.congr fun c => by simp [Among]
  · have hlt : i < inodeNumDirect := by omega
    have hf := ht
    obtain ⟨τ, L', A', hat, -⟩ := ht
    unfold freeDirect
    rw [wp_bind, wp_deref hat.deref]
    dsimp only
    rw [directNo_withoutDirect hlt]
    split_ifs with h0
    · have h0' : directNo e i ≠ 0 := toNat_eq_zero.not.mpr h0
      have hb := hdata i hlt h0'
      rw [wp_bind]
      refine hf.wp_freeBlock hl hb.2 List.not_mem_nil hn fun u hu => ?_
      obtain ⟨τ', L'', A'', hat', hrest⟩ := hu
      refine hat'.wp_modifyEntry fun v hv => ?_
      rw [setAddr_withoutDirect] at hv
      refine Freeing.congr ⟨τ', L'', A'', hv, hrest⟩ fun c => ?_
      rw [or_assoc, among_succ h0']
    · rw [wp_pure, withoutDirect_succ hlt (not_not.mp h0)]
      exact hf.congr fun c => by
        rw [among_succ_of_eq_zero (toNat_eq_zero.mpr (not_not.mp h0) : directNo e i = 0)]

/-- The rule of `inode_clear`: it frees the blocks that the entry stores. -/
theorem At.wp_inodeClear (hno : k.no < sb.numInodes) (hv : k.inode.valid = true)
    (h : At sb k σ [] L A e s) (hdata : ∀ c, Stores σ e c → sb.IsData c)
    (hn : (insert (k.home sb) (L ∪ bitmaps sb)).card ≤ n) {Q : Unit → FsState → Prop}
    (hq : ∀ τ L' A' t, At sb k (setEntry sb τ k.no (clearedEntry e)) [] L' A' (clearedEntry e) t →
      L' ⊆ insert (k.home sb) (L ∪ bitmaps sb) → Frees sb σ τ (Stores σ e) →
      Remain A A' (Stores σ e) → Q () t) :
    wp (inodeClear sb (some k.ctx) k.p) Q (fun stop _ => Exhausted k.rm n stop) s := by
  have hn' : (L ∪ bitmaps sb).card ≤ n :=
    (Finset.card_le_card (Finset.subset_insert _ _)).trans hn
  unfold inodeClear
  simp only [wp_bind]
  refine h.wp_clearIndirect hl hdata hn' fun s1 h1 => ?_
  refine h1.wp_freeDirects hl (fun j hj hne => ?_) hn' fun s2 h2 => ?_
  · exact hdata _ (stores_iff.mpr (.inr ⟨hne, j, hj, rfl⟩))
  obtain ⟨τ, L', A', hat, hL, hfrees, hremain⟩ := h2.congr fun c => stores_iff.symm
  have hclear : ({ withoutDirect { e with indirect := 0 } inodeNumDirect with numBytes := 0 } :
      InodeEntry) = clearedEntry e := by
    have haddrs : (withoutDirect { e with indirect := 0 } inodeNumDirect).addrs = fun _ => 0 :=
      funext fun j => if_pos j.isLt
    dsimp only
    rw [haddrs]
    rfl
  refine hat.wp_modifyEntry fun s3 h3 => ?_
  rw [hclear] at h3
  have hL' := Finset.insert_subset_insert (k.home sb) hL
  exact h3.wp_inodeSync hl hno hv List.not_mem_nil ((Finset.card_le_card hL').trans hn)
    fun s4 h4 => hq τ _ A' s4 h4 hL' hfrees hremain

end Rules

/-! ## What is left -/

section Cleared

variable {j : ℕ} {x : Slot} (hl : sb.Layout) (hi : i < sb.numInodes)

theorem clearedEntry_slot : (clearedEntry e).slot σ x = 0 := by
  cases x with
  | direct k => rfl
  | indirect => rfl
  | entry k =>
    have h0 : (clearedEntry e).indirect = 0 := rfl
    rw [InodeEntry.slot, if_pos h0]

include hi

theorem stored_cleared : stored sb (setEntry sb τ i (clearedEntry e)) i x = 0 := by
  rw [stored_setEntry_self hi fun h0 => absurd rfl h0, clearedEntry_slot, ite_self]

include hl

/-- The other inodes store what they stored. -/
theorem Frees.stored_of_ne (hf : Frees sb σ τ D) (h : Owns sb σ F) (hj : j ≠ i) :
    stored sb (setEntry sb τ i (clearedEntry e)) j x = stored sb σ j x := by
  refine stored_congr (fun hjn => ?_) fun hne => ?_
  · rw [diskEntry_setEntry_of_ne hj, diskEntry, diskEntry,
      hf.same _ fun b _ => (toBlockNo_ne_bitmapBlock hl hjn).symm]
  · have hdata := h.data j _ hne
    rw [setEntry_of_ne (toBlockNo_ne_of_isData hl hi hdata), hf.data hdata]

/-- The blocks of the inode are free, and the others are owned as before. -/
theorem Frees.owns (hf : Frees sb σ τ (OwnedBy sb σ i)) (h : Owns sb σ F) {F' : List ℕ}
    (hF : ∀ c ∈ F', c ∈ F ∧ ¬ OwnedBy sb σ i c) :
    Owns sb (setEntry sb τ i (clearedEntry e)) F' := by
  have hother : ∀ j x, stored sb (setEntry sb τ i (clearedEntry e)) j x ≠ 0 →
      j ≠ i ∧ stored sb (setEntry sb τ i (clearedEntry e)) j x = stored sb σ j x := by
    intro j x hne
    have hj : j ≠ i := by
      rintro rfl
      exact hne (stored_cleared hi)
    exact ⟨hj, hf.stored_of_ne hl hi h hj⟩
  have hbit : ∀ c < sb.numBlocks, bit sb (setEntry sb τ i (clearedEntry e)) c = true ↔
      bit sb σ c = true ∧ ¬ OwnedBy sb σ i c := by
    intro c hc
    rw [bit_setEntry hl hi]
    exact hf.bits c hc
  refine ⟨fun j x j' x' hne heq => ?_, fun j x hne => ?_, fun c hc => ?_, fun j x hne => ?_,
    fun c hlt hd => ?_⟩
  · obtain ⟨-, h1⟩ := hother j x hne
    obtain ⟨-, h2⟩ := hother j' x' (heq ▸ hne)
    rw [h1] at hne
    rw [h1, h2] at heq
    exact h.once j x j' x' hne heq
  · obtain ⟨hj, h1⟩ := hother j x hne
    rw [h1] at hne ⊢
    refine (hbit _ (h.data j x hne).2).mpr ⟨h.used j x hne, ?_⟩
    rintro ⟨-, x', heq⟩
    exact hj (h.once j x i x' hne heq.symm).1
  · obtain ⟨hcF, hnot⟩ := hF c hc
    obtain ⟨j, h0, x, rfl⟩ := h.owned c hcF
    have hj : j ≠ i := by
      rintro rfl
      exact hnot ⟨h0, x, rfl⟩
    exact ⟨j, h0, x, hf.stored_of_ne hl hi h hj⟩
  · obtain ⟨-, h1⟩ := hother j x hne
    rw [h1] at hne ⊢
    exact h.data j x hne
  · refine (hbit c hlt).mpr ⟨h.metadata c hlt hd, ?_⟩
    rintro ⟨h0, x, rfl⟩
    exact hd (h.data i x h0)

end Cleared

end ShikiOS.Fs.Inodes
