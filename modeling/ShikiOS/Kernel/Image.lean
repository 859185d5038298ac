import ShikiOS.Kernel.PageFault

/-!
# The memory image of a process (`kernel/pt.c`)

`Image` says of a page directory that everything it uses was taken from the free pages `F`, and that
what was not in them is as it was. `byteAt` is what the process reads at an address. Taking pages and
filling tables changes no byte that it reads, and a write changes those that it writes to.

Results:
* `Prepared.fills`: a page that was taken is mapped, and nothing else changes.
* `Grows.image`, `Grows.byteAt`: new tables leave an image as it is.
* `Image.putBytes_byteAt`: a write to a mapped page changes the bytes that it writes to.
-/

namespace ShikiOS.Kernel.Paging

open ShikiOS.Lib
open UserPtr (pteRo)

variable {s t u : Vm} {fr fr' fr'' : List ℕ} {T T' T'' : Tree} {pd n m k q x a b c : ℕ}
  {va pte : UInt64} {m₀ : ℕ → UInt8} {F : Set ℕ}

/-! ## Pages that are mapped -/

/-- From `s` to `t` the page `q` was taken, and tables may have been. -/
structure Prepared (s : Vm) (pd : ℕ) (fr : List ℕ) (T : Tree) (q : ℕ) (t : Vm) (fr' : List ℕ)
    (T' : Tree) : Prop where
  dir : PageDir t pd fr' T'
  shorter : fr'.length < fr.length
  sub : fr' ⊆ fr
  fresh : q ∈ fr ∧ q ∉ fr'
  notTable : ∀ l, T' l ≠ some q
  table : ∀ l a, T' l = some a → T l = some a ∨ a ∈ fr
  word : ∀ m x, slotOf T' m = some x →
    (slotOf T m = some x ∧ t.heap.word x = s.heap.word x) ∨ (slotOf T m = none ∧ t.heap.word x = 0)
  ext : ∀ m x, slotOf T m = some x → slotOf T' m = some x
  pt : t.pt = s.pt
  mem : ∀ y, pageBase y ∉ fr → (∀ l, T l ≠ some (pageBase y)) → t.heap.mem y = s.heap.mem y

/-- What new tables do to the entries. -/
theorem Grows.word_cases (hg : Grows s fr T t fr' T') (ht : Tables s.heap fr T)
    (hx : Paging.slotOf T' m = some x) :
    (Paging.slotOf T m = some x ∧ t.heap.word x = s.heap.word x) ∨
      (Paging.slotOf T m = none ∧ t.heap.word x = 0) := by
  cases hT : Paging.slotOf T m with
  | none => exact .inr ⟨rfl, hg.word_new hx hT⟩
  | some y =>
    have hy := hg.slotOf hT
    rw [hx] at hy
    cases hy
    exact .inl ⟨rfl, hg.word_slot ht hT⟩

/-- The page is taken first, and filled. -/
theorem Prepared.tables {s₁ : Vm} (hd : PageDir s pd (q :: fr) T) (hd₁ : PageDir s₁ pd fr T)
    (hpt : s₁.pt = s.pt) (hmem : ∀ y, pageBase y ∉ q :: fr → s₁.heap.mem y = s.heap.mem y)
    (hg : Grows s₁ fr T t fr' T') : Prepared s pd (q :: fr) T q t fr' T' := by
  have hq : q ∉ fr := (List.nodup_cons.mp hd.free.pages.nodup).1
  have hsub : fr' ⊆ fr := hg.suffix.subset
  refine ⟨hg.pageDir hd₁, ?_, fun b hb => List.mem_cons_of_mem q (hsub hb),
    ⟨List.mem_cons_self, fun hm => hq (hsub hm)⟩, fun l hl => ?_, fun l a ha => ?_, fun m x hx => ?_,
    fun m x hx => hg.slotOf hx, hg.pt.trans hpt, fun y hy hT => ?_⟩
  · exact Nat.lt_succ_of_le hg.suffix.length_le
  · exact (hg.table hl).elim (fun hl => hd.tables.used l q hl List.mem_cons_self) hq
  · exact (hg.table ha).imp_right (List.mem_cons_of_mem q)
  · refine (hg.word_cases hd₁.tables hx).imp_left fun ⟨hx', hw⟩ => ⟨hx', hw.trans ?_⟩
    exact word_slot_congr hd.tables hx' hmem
  · exact (hg.mem y (fun hm => hy (List.mem_cons_of_mem q hm)) fun l _ => hT l).trans (hmem y hy)

/-- The tables come first. -/
theorem Prepared.page {t₁ : Vm} (hd : PageDir s pd fr T) (hg : Grows s fr T t₁ (q :: fr') T')
    (hd₁ : PageDir t pd fr' T') (hpt : t.pt = t₁.pt)
    (hmem : ∀ y, pageBase y ∉ q :: fr' → t.heap.mem y = t₁.heap.mem y) :
    Prepared s pd fr T q t fr' T' := by
  have hdir := hg.pageDir hd
  have hsub : q :: fr' ⊆ fr := hg.suffix.subset
  have hnd := List.nodup_cons.mp hdir.free.pages.nodup
  refine ⟨hd₁, ?_, fun b hb => hsub (List.mem_cons_of_mem q hb), ⟨hsub List.mem_cons_self, hnd.1⟩,
    fun l hl => hdir.tables.used l q hl List.mem_cons_self, fun l a ha => hg.table ha, fun m x hx => ?_,
    fun m x hx => hg.slotOf hx, hpt.trans hg.pt, fun y hy hT => ?_⟩
  · have := hg.suffix.length_le
    rw [List.length_cons] at this
    omega
  · rw [word_slot_congr hdir.tables hx hmem]
    exact hg.word_cases hd.tables hx
  · rw [hmem y fun hm => hy (hsub hm)]
    exact hg.mem y hy fun l _ => hT l

/-! ## Images -/

/-- The tables and the mapped pages of a directory are pages of their own. All that changed since the
    memory was `m₀` lies in the pages `F`. -/
structure Image (m₀ : ℕ → UInt8) (F : Set ℕ) (s : Vm) (pd : ℕ) (fr : List ℕ) (T : Tree) : Prop where
  dir : PageDir s pd fr T
  free : ∀ q ∈ fr, q ∈ F
  mem : ∀ y, pageBase y ∉ F → s.heap.mem y = m₀ y
  table : ∀ l a, T l = some a → a ∈ F
  page : ∀ n q, n < 2 ^ 36 → pageAt s T n = some q → q ∈ F ∧ q ∉ fr ∧ ∀ l, T l ≠ some q
  inj : ∀ n m q, n < 2 ^ 36 → m < 2 ^ 36 → pageAt s T n = some q → pageAt s T m = some q → n = m

/-- The entry is empty, or leads to a page that may be written. -/
def PlainEntry (pte : UInt64) : Prop := pte = 0 ∨ (Valid pte ∧ pte &&& pteRo = 0)

/-- All entries are empty, or lead to pages that may be written. -/
def Plain (s : Vm) (T : Tree) : Prop :=
  ∀ n x, n < 2 ^ 36 → slotOf T n = some x → PlainEntry (s.heap.word x)

/-- The byte at the address `k`, if it is mapped. -/
def byteAt (s : Vm) (T : Tree) (k : ℕ) : Option UInt8 :=
  (pageAt s T (k / 2 ^ 12)).map fun q => s.heap.mem (q + k % 2 ^ 12)

theorem byteAt_congr (hp : pageAt t T' (k / 2 ^ 12) = pageAt s T (k / 2 ^ 12))
    (hm : ∀ q y, pageAt s T (k / 2 ^ 12) = some q → pageBase y = q → t.heap.mem y = s.heap.mem y) :
    byteAt t T' k = byteAt s T k := by
  rw [byteAt, byteAt, hp]
  cases hq : pageAt s T (k / 2 ^ 12) with
  | none => rfl
  | some q =>
    rw [Option.map_some, Option.map_some]
    exact congrArg some (hm q _ hq (pageBase_add (pageAt_dvd hq) (Nat.mod_lt _ (by decide))))

/-- From `s` to `t` the pages from `a` to `b` were mapped to free pages. The bytes of the others are as
    before, and the directory is an image if it was one. -/
structure Fills (s : Vm) (pd : ℕ) (fr : List ℕ) (T : Tree) (a b : ℕ) (t : Vm) (fr' : List ℕ) (T' : Tree) :
    Prop where
  dir : PageDir t pd fr' T'
  sub : fr' ⊆ fr
  count : fr'.length + (b - a) ≤ fr.length
  self : ∀ n, a ≤ n → n < b → ∃ q, pageAt t T' n = some q ∧ q ∈ fr ∧ q ∉ fr'
  inj : ∀ n m q, a ≤ n → n < b → a ≤ m → m < b → pageAt t T' n = some q → pageAt t T' m = some q → n = m
  other : ∀ m < 2 ^ 36, ¬ (a ≤ m ∧ m < b) → pageAt t T' m = pageAt s T m
  word : ∀ m < 2 ^ 36, ¬ (a ≤ m ∧ m < b) → ∀ y, slotOf T m = some y →
    slotOf T' m = some y ∧ t.heap.word y = s.heap.word y
  plain : Plain s T → Plain t T'
  image : ∀ m₀ F, Image m₀ F s pd fr T → Image m₀ F t pd fr' T'
  byte : ∀ m₀ F, Image m₀ F s pd fr T → ∀ k < 2 ^ 48, ¬ (a ≤ k / 2 ^ 12 ∧ k / 2 ^ 12 < b) →
    byteAt t T' k = byteAt s T k
  pt : t.pt = s.pt

theorem Fills.refl (hd : PageDir s pd fr T) : Fills s pd fr T a a s fr T where
  dir := hd
  sub := List.Subset.refl fr
  count := by omega
  self n h1 h2 := by omega
  inj n m q h1 h2 := by omega
  other m hm hout := rfl
  word m hm hout y hy := ⟨hy, rfl⟩
  plain h := h
  image m₀ F h := h
  byte m₀ F h k hk hout := rfl
  pt := rfl

theorem Fills.trans (h₁ : Fills s pd fr T a b t fr' T') (h₂ : Fills t pd fr' T' b c u fr'' T'')
    (hab : a ≤ b) (hbc : b ≤ c) (hc : c ≤ 2 ^ 36) : Fills s pd fr T a c u fr'' T'' := by
  have hold : ∀ n q, a ≤ n → n < b → pageAt u T'' n = some q → q ∈ fr ∧ q ∉ fr' ∧ pageAt t T' n = some q := by
    intro n q h1 h2 hq
    rw [h₂.other n (by omega) (by omega)] at hq
    obtain ⟨q', hq', hmem⟩ := h₁.self n h1 h2
    rw [hq] at hq'
    cases hq'
    exact ⟨hmem.1, hmem.2, hq⟩
  have hnew : ∀ n q, b ≤ n → n < c → pageAt u T'' n = some q → q ∈ fr' := by
    intro n q h1 h2 hq
    obtain ⟨q', hq', hmem⟩ := h₂.self n h1 h2
    rw [hq] at hq'
    cases hq'
    exact hmem.1
  refine ⟨h₂.dir, fun q hq => h₁.sub (h₂.sub hq), ?_, ?_, ?_, ?_, ?_, fun h => h₂.plain (h₁.plain h),
    fun m₀ F h => h₂.image m₀ F (h₁.image m₀ F h), ?_, h₂.pt.trans h₁.pt⟩
  · have := h₁.count
    have := h₂.count
    omega
  · intro n h1 h2
    by_cases hnb : n < b
    · obtain ⟨q, hq, hin, hout⟩ := h₁.self n h1 hnb
      refine ⟨q, ?_, hin, fun hm => hout (h₂.sub hm)⟩
      rw [h₂.other n (by omega) (by omega), hq]
    · obtain ⟨q, hq, hin, hout⟩ := h₂.self n (by omega) h2
      exact ⟨q, hq, h₁.sub hin, hout⟩
  · intro n m q hn1 hn2 hm1 hm2 hn hm
    by_cases hnb : n < b
    · obtain ⟨-, hout, hn'⟩ := hold n q hn1 hnb hn
      by_cases hmb : m < b
      · exact h₁.inj n m q hn1 hnb hm1 hmb hn' (hold m q hm1 hmb hm).2.2
      · exact absurd (hnew m q (by omega) hm2 hm) hout
    · by_cases hmb : m < b
      · exact absurd (hnew n q (by omega) hn2 hn) (hold m q hm1 hmb hm).2.1
      · exact h₂.inj n m q (by omega) hn2 (by omega) hm2 hn hm
  · intro m hm hout
    rw [h₂.other m hm (by omega), h₁.other m hm (by omega)]
  · intro m hm hout y hy
    obtain ⟨hy₁, hw₁⟩ := h₁.word m hm (by omega) y hy
    obtain ⟨hy₂, hw₂⟩ := h₂.word m hm (by omega) y hy₁
    exact ⟨hy₂, hw₂.trans hw₁⟩
  · intro m₀ F h k hk hout
    rw [h₂.byte m₀ F (h₁.image m₀ F h) k hk (by omega), h₁.byte m₀ F h k hk (by omega)]

/-! ## A page that was taken is mapped -/

section Taken

variable (hp : Prepared s pd fr T q t fr' T') (hn : n < 2 ^ 36) (hx : slotOf T' n = some x)
include hp hn hx

theorem Prepared.word_other (hm : m < 2 ^ 36) (hne : m ≠ n) {y : ℕ} (hy : slotOf T' m = some y) :
    (t.heap.setWord x pte).word y = t.heap.word y := by
  have ht := hp.dir.tables
  refine word_setWord_of_ne (slot_dvd ht hx) (slot_dvd ht hy) ?_
  rintro rfl
  exact hne (ht.slot_inj hm hn hy hx)

theorem Prepared.pageAt_other (hm : m < 2 ^ 36) (hne : m ≠ n) :
    pageAt { t with heap := t.heap.setWord x pte } T' m = pageAt s T m := by
  cases hy : slotOf T' m with
  | none =>
    have hT : slotOf T m = none := by
      by_contra hsome
      obtain ⟨y, hy'⟩ := Option.ne_none_iff_exists'.mp hsome
      rw [hp.ext m y hy'] at hy
      cases hy
    rw [pageAt_of_none hy, pageAt_of_none hT]
  | some y =>
    rw [pageAt_of_slot hy]
    dsimp only
    rw [hp.word_other hn hx hm hne hy]
    rcases hp.word m y hy with ⟨hT, hw⟩ | ⟨hT, hw⟩
    · rw [pageAt_of_slot hT, hw]
    · rw [pageAt_of_none hT, hw, if_neg not_valid_zero]

theorem Prepared.plain (hz : Plain s T) (hv : PlainEntry pte) :
    Plain { t with heap := t.heap.setWord x pte } T' := by
  intro m y hm hy
  dsimp only
  by_cases hmn : m = n
  · subst hmn
    rw [hx] at hy
    cases hy
    rwa [word_setWord]
  · rw [hp.word_other hn hx hm hmn hy]
    rcases hp.word m y hy with ⟨hy', hw⟩ | ⟨-, hw⟩
    · rw [hw]
      exact hz m y hm hy'
    · exact .inl hw

omit hn in
theorem Prepared.mem_store {y : ℕ} (hy : pageBase y ∉ fr) (hT : ∀ l, T l ≠ some (pageBase y)) :
    (t.heap.setWord x pte).mem y = s.heap.mem y := by
  refine (Paging.mem_store hp.dir.tables hx fun hl => ?_).trans (hp.mem y hy hT)
  exact (hp.table _ _ hl).elim (hT _) hy

theorem Prepared.image (h : Image m₀ F s pd fr T) (hv : Valid pte) (hpte : pageOf pte = q) :
    Image m₀ F { t with heap := t.heap.setWord x pte } pd fr' T' := by
  have hcase : ∀ m a, m < 2 ^ 36 → pageAt { t with heap := t.heap.setWord x pte } T' m = some a →
      (m = n ∧ a = q) ∨ (m ≠ n ∧ pageAt s T m = some a) := by
    intro m a hm ha
    by_cases hmn : m = n
    · subst hmn
      rw [pageAt_store_self hx, if_pos hv, hpte] at ha
      exact .inl ⟨rfl, (Option.some.inj ha).symm⟩
    · exact .inr ⟨hmn, (hp.pageAt_other hn hx hm hmn).symm.trans ha⟩
  have hold : ∀ m a, m < 2 ^ 36 → pageAt s T m = some a → a ≠ q := by
    rintro m a hm ha rfl
    exact (h.page m a hm ha).2.1 hp.fresh.1
  refine ⟨hp.dir.store hx, fun b hb => h.free b (hp.sub hb), ?_, ?_, ?_, ?_⟩
  · intro y hy
    rw [← h.mem y hy]
    exact hp.mem_store hx (fun hm => hy (h.free _ hm)) fun l hl => hy (h.table l _ hl)
  · intro l a ha
    exact (hp.table l a ha).elim (h.table l a) fun hm => h.free a hm
  · intro m a hm ha
    rcases hcase m a hm ha with ⟨-, rfl⟩ | ⟨-, ha⟩
    · exact ⟨h.free a hp.fresh.1, hp.fresh.2, hp.notTable⟩
    · obtain ⟨hF, hfr, hT⟩ := h.page m a hm ha
      exact ⟨hF, fun hm => hfr (hp.sub hm), fun l hl => (hp.table l a hl).elim (hT l) hfr⟩
  · intro m₁ m₂ a h₁ h₂ ha₁ ha₂
    rcases hcase m₁ a h₁ ha₁ with ⟨hm₁, hq₁⟩ | ⟨-, hp₁⟩
    · rcases hcase m₂ a h₂ ha₂ with ⟨hm₂, -⟩ | ⟨-, hp₂⟩
      · rw [hm₁, hm₂]
      · exact absurd hq₁ (hold m₂ a h₂ hp₂)
    · rcases hcase m₂ a h₂ ha₂ with ⟨-, hq₂⟩ | ⟨-, hp₂⟩
      · exact absurd hq₂ (hold m₁ a h₁ hp₁)
      · exact h.inj m₁ m₂ a h₁ h₂ hp₁ hp₂

theorem Prepared.fills (hv : Valid pte) (hpte : pageOf pte = q) (hro : pte &&& pteRo = 0) :
    Fills s pd fr T n (n + 1) { t with heap := t.heap.setWord x pte } fr' T' := by
  refine ⟨hp.dir.store hx, hp.sub, ?_, ?_, ?_, ?_, ?_, fun hz => hp.plain hn hx hz (.inr ⟨hv, hro⟩),
    fun m₀ F h => hp.image hn hx h hv hpte, ?_, hp.pt⟩
  · have := hp.shorter
    omega
  · intro m h1 h2
    obtain rfl : m = n := by omega
    refine ⟨q, ?_, hp.fresh⟩
    rw [pageAt_store_self hx, if_pos hv, hpte]
  · intro m₁ m₂ a h1 h2 h3 h4 _ _
    omega
  · intro m hm hout
    exact hp.pageAt_other hn hx hm (by omega)
  · intro m hm hout y hy
    have hy' := hp.ext m y hy
    refine ⟨hy', (hp.word_other hn hx hm (by omega) hy').trans ?_⟩
    rcases hp.word m y hy' with ⟨-, hw⟩ | ⟨hnone, -⟩
    · exact hw
    · rw [hy] at hnone
      cases hnone
  · intro m₀ F h k hk hout
    refine byteAt_congr (hp.pageAt_other hn hx (by omega) (by omega)) fun a y ha hy => ?_
    obtain ⟨-, hfr, hT⟩ := h.page _ a (by omega) ha
    exact hp.mem_store hx (hy ▸ hfr) fun l => hy ▸ hT l

end Taken

/-! ## New pages -/

/-- The entries of new pages are not read-only. -/
theorem user_writable (hq : KernelPage q) : entryOf q pteUserData &&& pteRo = 0 := by
  obtain ⟨k, hk⟩ : pageSize ∣ q - kernelBase := Nat.dvd_sub hq.aligned (by decide)
  have hbit : (q - kernelBase) &&& 2 ^ 7 = 0 := by
    apply Nat.eq_of_testBit_eq
    intro i
    rw [hk, mul_comm, show pageSize = 2 ^ 12 from rfl, ← Nat.shiftLeft_eq, Nat.testBit_and,
      Nat.testBit_shiftLeft, Nat.testBit_two_pow, Nat.zero_testBit]
    by_cases hi : 7 = i
    · subst hi
      rfl
    · rw [decide_eq_false hi, Bool.and_false]
  apply UInt64.toNat_inj.mp
  rw [entryOf, UInt64.toNat_and, UInt64.toNat_or, hq.k2p_toNat, Nat.and_or_distrib_right]
  exact (congrArg (· ||| (pteUserData.toNat &&& pteRo.toNat)) hbit).trans (by decide)

/-- A directory with the same root. -/
theorem PageDir.congr {pd' : ℕ} (h : PageDir s pd fr T) (hpt : s.pt pd' = s.pt pd) :
    PageDir s pd' fr T := ⟨h.free, h.tables, hpt ▸ h.root⟩

theorem Image.congr {pd' : ℕ} (h : Image m₀ F s pd fr T) (hpt : s.pt pd' = s.pt pd) :
    Image m₀ F s pd' fr T := { h with dir := h.dir.congr hpt }

/-- The root of another directory is set. -/
theorem Image.setPt {pd' : ℕ} (h : Image m₀ F s pd fr T) (hne : pd ≠ pd') :
    Image m₀ F { s with pt := Function.update s.pt pd' a } pd fr T :=
  { h with dir := ⟨h.dir.free, h.dir.tables, h.dir.root.trans (congrArg some (Function.update_of_ne hne ..).symm)⟩ }

/-- What `setPte` does, with its tables. -/
theorem setPte_grows (hd : PageDir s pd fr T) :
    wp (setPte pd va pte) (fun _ t => ∃ u fr' T' x, Grows s fr T u fr' T' ∧
      slotOf T' (vpn va) = some x ∧ t = { u with heap := u.heap.setWord x pte }) NoPage s := by
  rw [setPte, wp_bind]
  refine (getPte_spec hd fun _ => rfl).imp ?_
  rintro r u ⟨fr', T', hg, rfl, hnone, -, -⟩
  cases hx : slotOf T' (vpn va) with
  | none => exact absurd (hnone hx) (by decide)
  | some x => exact wp_store.mpr ⟨u, fr', T', x, hg, hx, rfl⟩

/-- The entry that `get_pte` returned gets a page. -/
theorem freshEntry_fills (hd : PageDir s pd fr T) (hg : Grows s fr T t fr' T') (hn : n < 2 ^ 36)
    (hx : slotOf T' n = some x) :
    wp kallocPage (fun q u => ∃ fr'', Fills s pd fr T n (n + 1)
      { u with heap := u.heap.setWord x (entryOf q pteUserData) } fr'' T' ∧
      pageAt { u with heap := u.heap.setWord x (entryOf q pteUserData) } T' n = some q) NoPage t := by
  refine (kallocPage_dir (hg.pageDir hd)).imp ?_
  rintro q u ⟨fr'', rfl, hdir, hpt, -, -, hmem⟩
  have hq : KernelPage q := hg.free.kernelPage List.mem_cons_self
  refine ⟨fr'', (Prepared.page hd hg hdir hpt fun y hy => ?_).fills hn hx valid_user (pageOf_user hq)
    (user_writable hq), ?_⟩
  · exact hmem y fun hm => hy (List.mem_cons_of_mem q hm)
  · rw [pageAt_store_self hx, if_pos valid_user, pageOf_user hq]

/-- The entry of a page that is not mapped is empty, also if its table is new. -/
theorem Plain.word_eq (hz : Plain s T) (ht : Tables s.heap fr T) (hg : Grows s fr T t fr' T')
    (hn : n < 2 ^ 36) (hnone : pageAt s T n = none) (hx : slotOf T' n = some x) : t.heap.word x = 0 := by
  rcases hg.word_cases ht hx with ⟨hT, hw⟩ | ⟨-, hw⟩
  · rw [hw]
    refine (hz n x hn hT).resolve_right fun hpte => ?_
    rw [pageAt_of_slot hT, if_pos hpte.1] at hnone
    cases hnone
  · exact hw

/-- A fault outside of the mappings of files. -/
theorem anonFault_fills {p : ℕ} {addr : UInt64} {iss : ℤ} (hd : PageDir s (pgdirOf p) fr T)
    (hz : Plain s T) (hnone : pageAt s T (vpn addr) = none) :
    wp (anonFault p addr iss) (fun _ t => ∃ fr' T',
      Fills s (pgdirOf p) fr T (vpn addr) (vpn addr + 1) t fr' T') NoPage s := by
  rw [anonFault, wp_bind]
  refine (getPte_spec hd fun _ => rfl).imp ?_
  rintro r t ⟨fr', T', hg, rfl, hsome, -, -⟩
  cases hx : slotOf T' (vpn addr) with
  | none => exact absurd (hsome hx) (by decide)
  | some x =>
    dsimp only
    rw [wp_bind, wp_load, hz.word_eq hd.tables hg vpn_lt hnone hx, if_pos rfl]
    simp only [wp_bind, wp_pure]
    refine (freshEntry_fills hd hg vpn_lt hx).imp ?_
    rintro q u ⟨fr'', hf, -⟩
    exact wp_store.mpr ⟨fr'', T', hf⟩

/-! ## New tables, and bytes that are written -/

theorem Grows.plain (hg : Grows s fr T t fr' T') (ht : Tables s.heap fr T) (hz : Plain s T) :
    Plain t T' := by
  intro n x hn hx
  rcases hg.word_cases ht hx with ⟨hT, hw⟩ | ⟨-, hw⟩
  · rw [hw]
    exact hz n x hn hT
  · exact .inl hw

theorem Grows.image (hg : Grows s fr T t fr' T') (h : Image m₀ F s pd fr T) : Image m₀ F t pd fr' T' := by
  have hpage : ∀ n, Paging.pageAt t T' n = Paging.pageAt s T n := fun n => hg.pageAt h.dir.tables n
  refine ⟨hg.pageDir h.dir, fun q hq => h.free q (hg.suffix.subset hq), fun y hy => ?_, fun l a ha => ?_,
    fun n q hn hq => ?_, fun n m q hn hm hnq hmq => ?_⟩
  · rw [← h.mem y hy]
    exact hg.mem y (fun hm => hy (h.free _ hm)) fun l _ hl => hy (h.table l _ hl)
  · exact (hg.table ha).elim (h.table l a) (h.free a)
  · rw [hpage] at hq
    obtain ⟨hF, hfr, hT⟩ := h.page n q hn hq
    exact ⟨hF, fun hm => hfr (hg.suffix.subset hm), fun l hl => (hg.table hl).elim (hT l) hfr⟩
  · rw [hpage] at hnq hmq
    exact h.inj n m q hn hm hnq hmq

theorem Grows.byteAt (hg : Grows s fr T t fr' T') (h : Image m₀ F s pd fr T) (hk : k < 2 ^ 48) :
    byteAt t T' k = byteAt s T k := by
  refine byteAt_congr (hg.pageAt h.dir.tables _) fun q y hq hy => ?_
  obtain ⟨-, hfr, hT⟩ := h.page _ q (by omega) hq
  exact hg.mem y (hy ▸ hfr) fun l _ => hy ▸ hT l

section Written

variable {l : List UInt8} {o : ℕ} (h : Image m₀ F s pd fr T) (hn : n < 2 ^ 36)
  (hq : pageAt s T n = some q) (ho : o + l.length ≤ 2 ^ 12)
include h hn hq ho

omit h hn in
/-- What is written to a mapped page is written to none else. -/
theorem mem_putBytes {y : ℕ} (hy : pageBase y ≠ q) :
    (s.heap.putBytes (q + o) l).mem y = s.heap.mem y := by
  refine if_neg fun hin => hy (pageBase_eq (pageAt_dvd hq) (by omega) ?_)
  unfold pageSize
  omega

theorem Image.putBytes_table {y : ℕ} {l' : List ℕ} (hl : T l' = some (pageBase y)) :
    (s.heap.putBytes (q + o) l).mem y = s.heap.mem y :=
  mem_putBytes hq ho fun he => (h.page n q hn hq).2.2 l' (he ▸ hl)

theorem Image.putBytes_word {m y : ℕ} (hy : slotOf T m = some y) :
    (s.heap.putBytes (q + o) l).word y = s.heap.word y := by
  obtain ⟨b, hb, -, hbase⟩ := slot_page h.dir.tables hy
  exact word_congr fun z h1 h2 => h.putBytes_table hn hq ho (by rw [hbase z h1 h2]; exact hb)

theorem Image.putBytes_pageAt (m : ℕ) :
    pageAt { s with heap := s.heap.putBytes (q + o) l } T m = pageAt s T m :=
  pageAt_frame h.dir.tables m fun _ _ hl => h.putBytes_table hn hq ho hl

theorem Image.putBytes : Image m₀ F { s with heap := s.heap.putBytes (q + o) l } pd fr T := by
  obtain ⟨hqF, hqfr, hqT⟩ := h.page n q hn hq
  refine ⟨h.dir.frame ?_ (List.Subset.refl fr) rfl fun y l' _ hl => h.putBytes_table hn hq ho hl,
    h.free, fun y hy => ?_, h.table, fun m a hm ha => ?_, fun m₁ m₂ a h₁ h₂ ha₁ ha₂ => ?_⟩
  · exact h.dir.free.frame rfl rfl fun y hy => mem_putBytes hq ho fun he => hqfr (he ▸ hy)
  · rw [← h.mem y hy]
    exact mem_putBytes hq ho fun he => hy (he ▸ hqF)
  · rw [h.putBytes_pageAt hn hq ho] at ha
    exact h.page m a hm ha
  · rw [h.putBytes_pageAt hn hq ho] at ha₁ ha₂
    exact h.inj m₁ m₂ a h₁ h₂ ha₁ ha₂

theorem Image.putBytes_plain (hz : Plain s T) :
    Plain { s with heap := s.heap.putBytes (q + o) l } T := by
  intro m y hm hy
  dsimp only
  rw [h.putBytes_word hn hq ho hy]
  exact hz m y hm hy

/-- The bytes that the process reads after a write. -/
theorem Image.putBytes_byteAt (hk : k < 2 ^ 48) :
    byteAt { s with heap := s.heap.putBytes (q + o) l } T k =
      if n * 2 ^ 12 + o ≤ k ∧ k < n * 2 ^ 12 + o + l.length then some (l.getD (k - (n * 2 ^ 12 + o)) 0)
      else byteAt s T k := by
  by_cases hkn : k / 2 ^ 12 = n
  · have hdiv : k = n * 2 ^ 12 + k % 2 ^ 12 := by omega
    rw [Paging.byteAt, Paging.byteAt, h.putBytes_pageAt hn hq ho, hkn, hq, Option.map_some, Option.map_some]
    dsimp only [Heap.putBytes]
    rw [apply_ite some]
    refine ite_congr (propext ⟨fun hin => by omega, fun hin => by omega⟩) (fun hin => ?_) fun _ => rfl
    rw [show q + k % 2 ^ 12 - (q + o) = k - (n * 2 ^ 12 + o) by omega]
  · rw [if_neg (by omega)]
    refine byteAt_congr (h.putBytes_pageAt hn hq ho _) fun a y ha hy => mem_putBytes hq ho ?_
    rintro rfl
    obtain rfl := hy
    exact hkn (h.inj _ _ _ (by omega) hn ha hq)

end Written

end ShikiOS.Kernel.Paging
