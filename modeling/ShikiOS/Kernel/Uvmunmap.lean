import ShikiOS.Kernel.AddressSpace
import ShikiOS.Kernel.FreeForeign

/-!
# `uvmunmap` (`kernel/pt.c`)

`uvmunmap` stops the kernel at the first page that is not mapped. It frees the pages of file mappings
with `kfree`, which takes their first bytes for the header of a slab. `Resident` says of the pages with
numbers in `D` that those of them that are mapped were entered by a fault in a file mapping.

Results:
* `unmapPage_spec`: a mapped page is unmapped, and the others stay.
* `unmapLoop_spec`, `unmapLoop_stops`: a range of pages, if all of them are mapped, or if one is not.
-/

namespace ShikiOS.Kernel.Paging

open ShikiOS.Lib
open UserPtr (pteValid pteAddress p2k)

/-! ## Model -/

/-- `PTE_FLAGS` (mmu.h:64). -/
def pteFlags (pte : UInt64) : UInt64 := pte &&& 0xFFFF000000000FFF

/-- The body of the loop (pt.c:247-263). -/
def unmapPage (pd : ℕ) (a : UInt64) (doFree : Bool) : M Unit := do
  match ← getPte pd a false with
  | none => throw .panic
  | some pte =>
    if ¬ Valid (← load pte) then throw .panic
    if pteFlags (← load pte) = pteValid then throw .panic
    if doFree then kfree (← load pte).toNat
    store pte 0

/-- The loop up to `stop`, in at most `n` rounds. -/
def unmapLoop (pd : ℕ) (stop : UInt64) (doFree : Bool) : ℕ → UInt64 → M Unit
  | 0, _ => return
  | n + 1, a => do
    if a < stop then
      unmapPage pd a doFree
      unmapLoop pd stop doFree n (a + 0x1000)

/-- `uvmunmap` (pt.c:238-264). -/
def uvmunmap (pd : ℕ) (va npages : UInt64) (doFree : Bool) : M Unit := do
  if va % 0x1000 ≠ 0 then throw .panic
  unmapLoop pd (va + npages * 0x1000) doFree npages.toNat va

/-- What `mappages` enters for a page of a file mapping: its kernel address, with the permission
    `PTE_USER_DATA` that `mmap` gives every mapping. -/
def mapEntry (q : ℕ) : UInt64 := UInt64.ofNat q ||| pteUserData ||| pteValid

/-- The address of page `n`. -/
def pageAddr (n : ℕ) : UInt64 := UInt64.ofNat (n * 2 ^ 12)

variable {s t : Vm} {h : Heap} {fr fr' S : List ℕ} {T : Tree} {D : ℕ → Prop} {pd n m q x : ℕ}
  {va : UInt64} {E : Stop → Vm → Prop}

/-! ## Entries of file mappings -/

theorem add_flags (hq : pageSize ∣ q) : q ||| 0x647 = q + 0x647 := by
  obtain ⟨k, rfl⟩ := hq
  rw [show pageSize * k = k <<< 12 by rw [Nat.shiftLeft_eq, mul_comm]; rfl]
  exact (Nat.shiftLeft_add_eq_or_of_lt (by decide) k).symm

theorem mapEntry_toNat (hq : KernelPage q) : (mapEntry q).toNat = q + 0x647 := by
  rw [mapEntry, UInt64.toNat_or, UInt64.toNat_or, UInt64.toNat_ofNat_of_lt' hq.lt]
  show (q ||| 0x647) ||| 1 = q + 0x647
  rw [Nat.or_assoc]
  exact add_flags hq.aligned

theorem valid_mapEntry (hq : KernelPage q) : Valid (mapEntry q) := by
  intro h0
  have hn := congrArg UInt64.toNat h0
  rw [UInt64.toNat_and, mapEntry_toNat hq] at hn
  change (q + 0x647) &&& 1 = 0 at hn
  obtain ⟨k, rfl⟩ := hq.aligned
  rw [Nat.and_one_is_mod] at hn
  unfold pageSize at hn
  omega

/-- It is a leaf. -/
theorem mapEntry_flags (hq : KernelPage q) : pteFlags (mapEntry q) ≠ pteValid := by
  intro h0
  have hn := congrArg (fun pte => pte.toNat.testBit 6) h0
  rw [pteFlags, UInt64.toNat_and, mapEntry_toNat hq, Nat.testBit_and] at hn
  have hbit : (q + 0x647).testBit 6 = true := by
    obtain ⟨k, rfl⟩ := hq.aligned
    rw [Nat.testBit_eq_decide_div_mod_eq, decide_eq_true_eq]
    unfold pageSize
    omega
  rw [hbit] at hn
  exact absurd hn (by decide)

/-- An entry leads back to its page. -/
theorem pageOf_mapEntry (hq : KernelPage q) : pageOf (mapEntry q) = q := by
  have hlt := hq.lt
  have hbase := hq.base
  have hd : pageSize ∣ q - kernelBase := Nat.dvd_sub hq.aligned (by decide)
  have hmod : (q + 0x647) % 2 ^ 48 = (q - kernelBase) ||| 0x647 := by
    rw [add_flags hd]
    obtain ⟨k, hk⟩ := hd
    unfold kernelBase pageSize at *
    omega
  have hsmall : q - kernelBase < 2 ^ 48 := by
    unfold kernelBase at *
    omega
  have hmask : (pteAddress (mapEntry q)).toNat = q - kernelBase := by
    rw [pteAddress, UInt64.toNat_and, mapEntry_toNat hq]
    show (q + 0x647) &&& 0xFFFFFFFFF000 = _
    have hle : (q + 0x647) &&& 0xFFFFFFFFF000 < 2 ^ 48 :=
      lt_of_le_of_lt Nat.and_le_right (by decide)
    rw [← Nat.mod_eq_of_lt hle, Nat.and_mod_two_pow, hmod, Nat.and_or_distrib_right]
    rw [show (0xFFFFFFFFF000 : ℕ) % 2 ^ 48 = 0xFFFFFFFFF000 from rfl, and_pageMask hd hsmall]
    exact Nat.or_zero _
  rw [pageOf, p2k, UInt64.toNat_add, hmask]
  show (q - kernelBase + kernelBase) % 2 ^ 64 = q
  rw [Nat.sub_add_cancel hbase, Nat.mod_eq_of_lt hlt]

/-! ## Pages of file mappings -/

/-- The mapped pages with numbers in `D` are pages of their own, entered by a fault in a file mapping.
    The blocks in the lists of the allocators lie in the pages of `S`. -/
structure Resident (s : Vm) (pd : ℕ) (fr : List ℕ) (T : Tree) (S : List ℕ) (D : ℕ → Prop) : Prop where
  dir : PageDir s pd fr T
  lists : ∃ ns, FreeLists s.heap ns S
  unlocked : s.heap.memLock = false
  apart : ∀ q ∈ S, q ∉ fr ∧ ∀ l, T l ≠ some q
  lt : ∀ n, D n → n < 2 ^ 36
  page : ∀ n q, D n → pageAt s T n = some q → KernelPage q ∧ q ∉ fr ∧ q ∉ S ∧ ∀ l, T l ≠ some q
  entry : ∀ n x, D n → slotOf T n = some x → Valid (s.heap.word x) →
    s.heap.word x = mapEntry (pageOf (s.heap.word x))
  inj : ∀ n m q, D n → D m → pageAt s T n = some q → pageAt s T m = some q → n = m

/-- The first page that is not mapped stops the kernel. -/
theorem unmapPage_stops {b : Bool} (hd : PageDir s pd fr T) (hn : pageAt s T (vpn va) = none) :
    wp (unmapPage pd va b) (fun _ _ => False) (fun e _ => e = .panic) s := by
  rw [unmapPage, wp_bind, wp_lookup hd]
  cases hx : slotOf T (vpn va) with
  | none => exact wp_throw.mpr rfl
  | some x =>
    have hv : ¬ Valid (s.heap.word x) := by
      intro hv
      rw [pageAt_of_slot hx, if_pos hv] at hn
      cases hn
    simp only [wp_bind, wp_load, if_pos hv, wp_throw]

/-- The argument of `kfree`. -/
theorem foreign_mapEntry (hq : KernelPage q) (hS : q ∉ S) : Foreign S (mapEntry q).toNat ∧
    pageBase (mapEntry q).toNat = q := by
  have hbase : pageBase (q + 0x647) = q := pageBase_add hq.aligned (by decide)
  have hmod : (q + 0x647) % pageSize = 0x647 := by
    obtain ⟨k, rfl⟩ := hq.aligned
    rw [Nat.mul_add_mod]
    rfl
  rw [mapEntry_toNat hq]
  refine ⟨⟨?_, ?_, ?_, ?_⟩, hbase⟩
  · rw [hbase]
    exact hq.toGoodPage
  · rwa [hbase]
  · rw [hmod]
    decide
  · rw [hmod]
    decide

/-- Other free pages, none of them a table. -/
theorem Tables.refree (ht : Tables h fr T) (hfr : ∀ q ∈ fr', ∀ l, T l ≠ some q) : Tables h fr' T :=
  ⟨ht.page, fun l a ha hm => hfr a hm l ha, ht.inj, ht.short, ht.parent, ht.entry⟩

/-- The page is freed, and its entry is cleared. -/
theorem Resident.free (h : Resident s pd fr T S D) (hn : D n) (hx : slotOf T n = some x)
    (hv : Valid (s.heap.word x)) :
    ∃ t fr' S', s.heap.kfree (s.heap.word x).toNat = some t ∧
      Resident { s with heap := t.setWord x 0 } pd fr' T S' D ∧
      pageAt { s with heap := t.setWord x 0 } T n = none ∧
      ∀ m < 2 ^ 36, m ≠ n →
        pageAt { s with heap := t.setWord x 0 } T m = pageAt s T m := by
  obtain ⟨ns, hlists⟩ := h.lists
  have hpage : pageAt s T n = some (pageOf (s.heap.word x)) := by
    rw [pageAt_of_slot hx, if_pos hv]
  obtain ⟨hq, hqf, hqS, hqT⟩ := h.page n _ hn hpage
  rw [h.entry n x hn hx hv]
  generalize pageOf (s.heap.word x) = q at *
  obtain ⟨hforeign, hbase⟩ := foreign_mapEntry hq hqS
  obtain ⟨t, ns', S', fr', ht, hfreed⟩ := kfree_foreign hlists h.dir.free.pages h.unlocked
    h.dir.free.unlocked (fun q hS => (h.apart q hS).1) hforeign (by rwa [hbase])
  have hfr' : ∀ p ∈ fr', p = q ∨ p ∈ fr := by
    intro p hp
    rw [← hbase]
    exact hfreed.free p hp
  have hS' : ∀ p ∈ S', p = q ∨ p ∈ S := by
    intro p hp
    rw [← hbase]
    exact hfreed.listed p hp
  -- The tables are left as they are.
  have htable : ∀ y l, T l = some (pageBase y) → t.mem y = s.heap.mem y := by
    intro y l hl
    refine hfreed.mem y ?_ ?_ ?_
    · rw [hbase]
      exact fun he => hqT l (he ▸ hl)
    · exact fun hS => (h.apart _ hS).2 l hl
    · exact h.dir.tables.used l _ hl
  have hdir : PageDir { s with heap := t } pd fr' T := by
    refine ⟨⟨hfreed.pages, hfreed.pageUnlocked, fun p hp => ?_⟩, ?_, h.dir.root⟩
    · rcases hfr' p hp with rfl | hp
      · exact hq.base
      · exact h.dir.free.kernel p hp
    · refine (h.dir.tables.frame (fun _ hp => hp) fun y l _ hl => htable y l hl).refree fun p hp l hl => ?_
      rcases hfr' p hp with rfl | hp
      · exact hqT l hl
      · exact h.dir.tables.used l p hl hp
  have hstore : ∀ y, T (tablePath n) ≠ some (pageBase y) → (t.setWord x 0).mem y = t.mem y :=
    fun y hy => mem_store (s := { s with heap := t }) hdir.tables hx hy
  have hother : ∀ m < 2 ^ 36, m ≠ n →
      pageAt { s with heap := t.setWord x 0 } T m = pageAt s T m := by
    intro m hm hne
    refine Eq.trans ?_ (pageAt_frame (t := { s with heap := t }) h.dir.tables m htable)
    exact pageAt_store_of_ne (s := { s with heap := t }) hdir.tables (h.lt n hn) hm hx hne
  have hself : pageAt { s with heap := t.setWord x 0 } T n = none := by
    exact (pageAt_store_self (s := { s with heap := t }) hx).trans (if_neg not_valid_zero)
  have hkeep : ∀ m p, D m → pageAt { s with heap := t.setWord x 0 } T m = some p →
      m ≠ n ∧ pageAt s T m = some p := by
    intro m p hm hp
    have hne : m ≠ n := by
      rintro rfl
      rw [hself] at hp
      cases hp
    exact ⟨hne, (hother m (h.lt m hm) hne).symm.trans hp⟩
  refine ⟨t, fr', S', ht, ⟨hdir.store hx, ⟨ns', ?_⟩, ?_, fun p hp => ⟨hfreed.disjoint p hp, ?_⟩, h.lt, ?_, ?_, ?_⟩,
    hself, hother⟩
  · refine hfreed.lists.frame (fun _ _ => rfl) fun y hy => hstore y fun hl => ?_
    rcases hS' _ hy with he | hS
    · exact hqT _ (he ▸ hl)
    · exact (h.apart _ hS).2 _ hl
  · exact hfreed.memLock.trans h.unlocked
  · intro l hl
    rcases hS' p hp with rfl | hS
    · exact hqT l hl
    · exact (h.apart p hS).2 l hl
  · intro m p hm hp
    obtain ⟨hne, hpm⟩ := hkeep m p hm hp
    obtain ⟨hkp, hpf, hpS, hpT⟩ := h.page m p hm hpm
    have hpq : p ≠ q := by
      rintro rfl
      exact hne (h.inj m n p hm hn hpm hpage)
    exact ⟨hkp, fun hp' => (hfr' p hp').elim hpq hpf, fun hp' => (hS' p hp').elim hpq hpS, hpT⟩
  · intro m y hm hy hvy
    have hyx : y ≠ x := by
      rintro rfl
      rw [word_setWord] at hvy
      exact not_valid_zero hvy
    have hword : (t.setWord x 0).word y = s.heap.word y := by
      rw [word_setWord_of_ne (slot_dvd hdir.tables hx) (slot_dvd hdir.tables hy) hyx]
      obtain ⟨b, hb, -, hbase⟩ := slot_page h.dir.tables hy
      exact word_congr fun z h1 h2 => htable z _ (by rw [hbase z h1 h2]; exact hb)
    dsimp only at hvy ⊢
    rw [hword] at hvy ⊢
    exact h.entry m y hm hy hvy
  · intro m₁ m₂ p h₁ h₂ hp₁ hp₂
    exact h.inj m₁ m₂ p h₁ h₂ (hkeep m₁ p h₁ hp₁).2 (hkeep m₂ p h₂ hp₂).2

/-- A mapped page is unmapped, and the others stay. -/
theorem unmapPage_spec (h : Resident s pd fr T S D) (hn : D (vpn va))
    (hp : pageAt s T (vpn va) ≠ none) :
    wp (unmapPage pd va true) (fun _ t => ∃ fr' S', Resident t pd fr' T S' D ∧
      pageAt t T (vpn va) = none ∧ ∀ m < 2 ^ 36, m ≠ vpn va → pageAt t T m = pageAt s T m) E s := by
  obtain ⟨q, hq⟩ := Option.ne_none_iff_exists'.mp hp
  obtain ⟨x, hx, hv, -⟩ := pageAt_eq_some.mp hq
  have hflags : ¬ pteFlags (s.heap.word x) = pteValid := by
    rw [h.entry _ x hn hx hv]
    exact mapEntry_flags (h.page _ _ hn (by rw [pageAt_of_slot hx, if_pos hv])).1
  obtain ⟨t, fr', S', ht, hres, hself, hother⟩ := h.free hn hx hv
  rw [unmapPage, wp_bind, wp_lookup h.dir, hx]
  simp only [wp_bind, wp_load, not_not.mpr hv, if_false, hflags, if_true]
  rw [kfree, wp_bind, wp_get, ht]
  simp only [wp_modify, wp_store]
  exact ⟨fr', S', hres, hself, hother⟩

/-! ## A range of pages -/

theorem vpn_pageAddr (hn : n < 2 ^ 36) : vpn (pageAddr n) = n := vpn_ofNat hn

theorem pageAddr_toNat (hn : n ≤ 2 ^ 36) : (pageAddr n).toNat = n * 2 ^ 12 :=
  UInt64.toNat_ofNat_of_lt' (by rw [UInt64.size]; omega)

theorem pageAddr_succ (hn : n < 2 ^ 36) : pageAddr n + 0x1000 = pageAddr (n + 1) := by
  apply UInt64.toNat_inj.mp
  rw [UInt64.toNat_add, pageAddr_toNat hn.le, pageAddr_toNat hn]
  show (n * 2 ^ 12 + 4096) % 2 ^ 64 = _
  omega

theorem pageAddr_lt (hm : m ≤ 2 ^ 36) (hnm : n < m) : pageAddr n < pageAddr m := by
  rw [UInt64.lt_iff_toNat_lt, pageAddr_toNat (by omega), pageAddr_toNat hm]
  omega

/-- `unmapPage_spec` for the page with a number. -/
theorem unmapPage_at (h : Resident s pd fr T S D) (hm : m < 2 ^ 36) (hD : D m)
    (hp : pageAt s T m ≠ none) :
    wp (unmapPage pd (pageAddr m) true) (fun _ t => ∃ fr' S', Resident t pd fr' T S' D ∧
      pageAt t T m = none ∧ ∀ k < 2 ^ 36, k ≠ m → pageAt t T k = pageAt s T k) E s := by
  have hvpn := vpn_pageAddr hm
  refine (unmapPage_spec h (by rwa [hvpn]) (by rwa [hvpn])).imp ?_
  rw [hvpn]
  exact fun _ _ ht => ht

/-- If all pages of a range are mapped, they are unmapped, and the others stay. -/
theorem unmapLoop_spec (h : Resident s pd fr T S D) (hm : m + n ≤ 2 ^ 36)
    (hD : ∀ k, m ≤ k → k < m + n → D k) (hp : ∀ k, m ≤ k → k < m + n → pageAt s T k ≠ none) :
    wp (unmapLoop pd (pageAddr (m + n)) true n (pageAddr m)) (fun _ t => ∃ fr' S',
      Resident t pd fr' T S' D ∧ (∀ k, m ≤ k → k < m + n → pageAt t T k = none) ∧
      ∀ k < 2 ^ 36, k < m ∨ m + n ≤ k → pageAt t T k = pageAt s T k) E s := by
  induction n generalizing m s fr S with
  | zero => exact wp_pure.mpr ⟨fr, S, h, fun k h1 h2 => by omega, fun k _ _ => rfl⟩
  | succ n ih =>
    have hm36 : m < 2 ^ 36 := by omega
    rw [unmapLoop, if_pos (pageAddr_lt hm (by omega)), wp_bind]
    refine (unmapPage_at h hm36 (hD m le_rfl (by omega)) (hp m le_rfl (by omega))).imp ?_
    rintro - t ⟨fr', S', hres, hself, hother⟩
    rw [pageAddr_succ hm36, show m + (n + 1) = m + 1 + n by omega]
    refine (ih hres (by omega) (fun k h1 h2 => hD k (by omega) (by omega)) fun k h1 h2 => ?_).imp ?_
    · rw [hother k (by omega) (by omega)]
      exact hp k (by omega) (by omega)
    · rintro - u ⟨fr'', S'', hres', hnone, hsame⟩
      refine ⟨fr'', S'', hres', fun k h1 h2 => ?_, fun k hk hout => ?_⟩
      · by_cases hkm : k = m
        · subst hkm
          rw [hsame k hm36 (by omega), hself]
        · exact hnone k (by omega) h2
      · rw [hsame k hk (by omega), hother k hk (by omega)]

/-- If one page of a range is not mapped, the kernel stops. -/
theorem unmapLoop_stops (h : Resident s pd fr T S D) (hm : m + n ≤ 2 ^ 36)
    (hD : ∀ k, m ≤ k → k < m + n → D k) (hp : ∃ k, m ≤ k ∧ k < m + n ∧ pageAt s T k = none) :
    wp (unmapLoop pd (pageAddr (m + n)) true n (pageAddr m)) (fun _ _ => False)
      (fun e _ => e = .panic) s := by
  induction n generalizing m s fr S with
  | zero =>
    obtain ⟨k, h1, h2, -⟩ := hp
    omega
  | succ n ih =>
    have hm36 : m < 2 ^ 36 := by omega
    rw [unmapLoop, if_pos (pageAddr_lt hm (by omega)), wp_bind]
    by_cases hnone : pageAt s T m = none
    · exact (unmapPage_stops h.dir (by rwa [vpn_pageAddr hm36])).imp fun _ _ hf => hf.elim
    · refine (unmapPage_at h hm36 (hD m le_rfl (by omega)) hnone).imp ?_
      rintro - t ⟨fr', S', hres, -, hother⟩
      obtain ⟨k, h1, h2, hk⟩ := hp
      have hkm : k ≠ m := by
        rintro rfl
        exact hnone hk
      rw [pageAddr_succ hm36, show m + (n + 1) = m + 1 + n by omega]
      refine ih hres (by omega) (fun k h1 h2 => hD k (by omega) (by omega)) ⟨k, by omega, by omega, ?_⟩
      rw [hother k (by omega) hkm]
      exact hk

end ShikiOS.Kernel.Paging
