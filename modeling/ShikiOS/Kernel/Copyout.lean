import ShikiOS.Kernel.Image

/-!
# `uvmalloc` and `copyout` (`kernel/pt.c`)

`uvmalloc` maps new pages, `copyout` writes to the memory of a process and maps the pages that are
missing. The result of `uvmalloc` is an `int`, in which a size from `2^31` on does not fit.

Results:
* `uvmalloc_iff`: `uvmalloc` maps its pages, and reports sizes below `2^31` only.
* `copyout_spec`: `copyout` changes the bytes of its range, and no others.
-/

namespace ShikiOS.Kernel.Paging

open ShikiOS.Lib

/-! ## Model -/

/-- An `int` that is set to `v`. -/
def intOf (v : UInt64) : ℤ :=
  let r : ℕ := v.toNat % 2 ^ 32
  if r < 2 ^ 31 then r else r - 2 ^ 32

/-- The body of the loop of `uvmalloc` (pt.c:229-232). -/
def allocPage (pd : ℕ) (addr : UInt64) : M Unit := do
  setPte pd addr (entryOf (← kallocPage) pteUserData)

/-- The loop of `uvmalloc` (pt.c:227-233), in at most `n` rounds. -/
def uvmallocLoop (pd : ℕ) (newsz : UInt64) : ℕ → UInt64 → M Unit
  | 0, addr => if addr < newsz then throw .spin else return
  | n + 1, addr => do
    if addr < newsz then
      allocPage pd addr
      uvmallocLoop pd newsz n (addr + 0x1000)

/-- `uvmalloc` (pt.c:221-236). -/
def uvmalloc (pd : ℕ) (oldsz newsz : UInt64) : M ℤ := do
  if newsz < oldsz then return intOf oldsz
  let addr := (oldsz + 0x1000 - 1) / 0x1000 * 0x1000
  uvmallocLoop pd newsz ((newsz.toNat + 0xFFF - addr.toNat) / 0x1000) addr
  return intOf newsz

/-- The calls of `execve` for segments that end at `ends` (exec.c:82). The result is its next size. -/
def uvmallocAll (pd : ℕ) : UInt64 → List UInt64 → M (List ℤ)
  | _, [] => return []
  | sz, newsz :: ends => do
    let r ← uvmalloc pd sz newsz
    let rs ← uvmallocAll pd (UInt64.ofInt r) ends
    return r :: rs

/-- What `copyout` reads: nothing for NULL, memory of the kernel from `p` on, or bytes of the caller
    that stay as they are. -/
inductive Source
  | null
  | kernel (p : ℕ)
  | user (l : List UInt8)

/-- Byte `i` of the source, which is zero for NULL. -/
def Source.byte (m : ℕ → UInt8) (i : ℕ) : Source → UInt8
  | .null => 0
  | .kernel p => m (p + i)
  | .user l => l.getD i 0

/-- The bytes from `i` on. -/
def Source.read (b : Source) (i n : ℕ) : M (List UInt8) := do
  let s ← get
  return (List.range n).map fun j => b.byte s.heap.mem (i + j)

/-- The page for `va` (pt.c:137-149), or `none` for NULL. -/
def pageFor (pd : ℕ) (va : UInt64) : M (Option ℕ) := do
  match ← getPte pd va true with
  | none => return none
  | some pte =>
    if Valid (← load pte) then return some (pageOf (← load pte))
    let page ← kallocPage
    store pte (entryOf page pteUserData)
    return some page

/-- The loop of `copyout` (pt.c:133-159) from byte `i` of the source on, in at most `n` rounds. -/
def copyoutLoop (pd : ℕ) (p : Source) : ℕ → UInt64 → ℕ → ℕ → M ℤ
  | 0, _, _, _ => return 0
  | n + 1, va, i, len => do
    if len = 0 then return 0
    match ← pageFor pd va with
    | none => return -1
    | some page =>
      let offset := va.toNat % pageSize
      let n1 := min (pageSize - offset) len
      readPage (page + offset) (← p.read i n1)
      copyoutLoop pd p n (va + UInt64.ofNat n1) (i + n1) (len - n1)

/-- `USERTOP` (defines.h:110). -/
def userTop : UInt64 := 0x0001000000000000

/-- `copyout` (pt.c:125-162). -/
def copyout (pd : ℕ) (va : UInt64) (p : Source) (len : UInt64) : M ℤ := do
  if userTop < va + len then return -1
  copyoutLoop pd p len.toNat va 0 len.toNat

variable {s t u : Vm} {fr fr' fr'' : List ℕ} {T T' T'' : Tree} {pd n m k q x a b c i len : ℕ}
  {va oldsz newsz : UInt64} {ends : List UInt64} {m₀ : ℕ → UInt8} {F : Set ℕ} {p : Source}
  {f : ℕ → UInt8}

/-! ## `uvmalloc` -/

/-- A new page for an address. -/
theorem allocPage_spec (hd : PageDir s pd fr T) :
    wp (allocPage pd va) (fun _ t => ∃ fr' T', Fills s pd fr T (vpn va) (vpn va + 1) t fr' T')
      NoPage s := by
  rw [allocPage, wp_bind]
  refine (kallocPage_dir hd).imp ?_
  rintro q t ⟨fr₁, rfl, hdir, hpt, -, -, hmem⟩
  have hq : KernelPage q := hd.free.kernelPage List.mem_cons_self
  refine (setPte_grows hdir).imp ?_
  rintro - - ⟨u, fr', T', x, hg, hx, rfl⟩
  refine ⟨fr', T', (Prepared.tables hd hdir hpt (fun y hy => ?_) hg).fills vpn_lt hx valid_user
    (pageOf_user hq) (user_writable hq)⟩
  exact hmem y fun hm => hy (List.mem_cons_of_mem q hm)

/-- The number of the first page from `v` on. -/
def pageUp (v : UInt64) : ℕ := (v.toNat + 0xFFF) / 0x1000

theorem pageUp_le (hle : oldsz ≤ newsz) : pageUp oldsz ≤ pageUp newsz := by
  have hle' : oldsz.toNat ≤ newsz.toNat := hle
  unfold pageUp
  omega

theorem pageUp_top (htop : newsz ≤ userTop) : pageUp newsz ≤ 2 ^ 36 := pageUp_le htop

theorem uvmallocLoop_spec (hd : PageDir s pd fr T) (hva : va.toNat = a * 2 ^ 12)
    (htop : newsz ≤ userTop) (hab : a ≤ pageUp newsz) (hn : pageUp newsz ≤ a + n) :
    wp (uvmallocLoop pd newsz n va) (fun _ t => ∃ fr' T', Fills s pd fr T a (pageUp newsz) t fr' T')
      NoPage s := by
  have htop' : newsz.toNat ≤ 2 ^ 48 := htop
  have hup := pageUp_top htop
  have hlt : va < newsz ↔ a < pageUp newsz := by
    rw [UInt64.lt_iff_toNat_lt, hva]
    unfold pageUp
    omega
  induction n generalizing a va s fr T with
  | zero =>
    have hstop : ¬ va < newsz := fun hlt' => by
      have := hlt.mp hlt'
      omega
    obtain rfl : a = pageUp newsz := by omega
    rw [uvmallocLoop, if_neg hstop]
    exact wp_pure.mpr ⟨fr, T, Fills.refl hd⟩
  | succ n ih =>
    rw [uvmallocLoop]
    split_ifs with hva'
    · have ha := hlt.mp hva'
      have hvpn : vpn va = a := by
        rw [vpn, hva]
        omega
      have hnext : (va + 0x1000).toNat = (a + 1) * 2 ^ 12 := by
        rw [UInt64.toNat_add, hva]
        show (a * 2 ^ 12 + 4096) % 2 ^ 64 = _
        omega
      rw [wp_bind]
      refine (allocPage_spec hd).imp ?_
      rintro - u ⟨fr₁, T₁, hf⟩
      rw [hvpn] at hf
      refine (ih hf.dir hnext (by omega) (by omega) ?_).imp ?_
      · rw [UInt64.lt_iff_toNat_lt, hnext]
        unfold pageUp
        omega
      · rintro - t ⟨fr', T', hf'⟩
        exact ⟨fr', T', hf.trans hf' (by omega) (by omega) hup⟩
    · obtain rfl : a = pageUp newsz := by
        have := hlt.not.mp hva'
        omega
      exact wp_pure.mpr ⟨fr, T, Fills.refl hd⟩

/-- The pages from `oldsz` to `newsz` are mapped. -/
theorem uvmalloc_spec (hd : PageDir s pd fr T) (hle : oldsz ≤ newsz) (htop : newsz ≤ userTop) :
    wp (uvmalloc pd oldsz newsz) (fun r t => r = intOf newsz ∧ ∃ fr' T',
      Fills s pd fr T (pageUp oldsz) (pageUp newsz) t fr' T') NoPage s := by
  have htop' : newsz.toNat ≤ 2 ^ 48 := htop
  have hle' : oldsz.toNat ≤ newsz.toNat := hle
  have haddr : ((oldsz + 0x1000 - 1) / 0x1000 * 0x1000).toNat = pageUp oldsz * 2 ^ 12 := by
    have hadd : (oldsz + 0x1000 - 1).toNat = oldsz.toNat + 0xFFF := by
      rw [UInt64.toNat_sub_of_le]
      · rw [UInt64.toNat_add]
        show (oldsz.toNat + 4096) % 2 ^ 64 - 1 = _
        omega
      · rw [UInt64.le_iff_toNat_le, UInt64.toNat_add]
        show 1 ≤ (oldsz.toNat + 4096) % 2 ^ 64
        omega
    rw [UInt64.toNat_mul, UInt64.toNat_div, hadd, pageUp]
    show (oldsz.toNat + 0xFFF) / 4096 * 4096 % 2 ^ 64 = _
    omega
  have hab := pageUp_le hle
  have hnlt : ¬ newsz < oldsz := UInt64.not_lt.mpr hle
  rw [uvmalloc, if_neg hnlt, wp_bind]
  refine (uvmallocLoop_spec hd haddr htop hab ?_).imp fun _ t hf => wp_pure.mpr ⟨rfl, hf⟩
  rw [haddr]
  unfold pageUp
  omega

theorem intOf_eq_iff : intOf newsz = newsz.toNat ↔ newsz.toNat < 2 ^ 31 := by
  have := newsz.toNat_lt
  rw [intOf]
  split_ifs
  · omega
  · omega

theorem intOf_lt : intOf newsz < 2 ^ 31 := by
  rw [intOf]
  split_ifs
  · omega
  · omega

theorem ofInt_natCast : UInt64.ofInt (newsz.toNat : ℤ) = newsz := by
  apply UInt64.toNat_inj.mp
  have := newsz.toNat_lt
  rw [UInt64.ofInt, UInt64.toNat_ofNat']
  omega

/-! ## The size that `uvmalloc` reports -/

/-- The calls return the sizes, which the next calls get, and every page up to the last one is mapped
    to a page of its own. -/
structure Reports (s : Vm) (pd : ℕ) (fr : List ℕ) (T : Tree) (oldsz : UInt64) (ends : List UInt64)
    (rs : List ℤ) (t : Vm) : Prop where
  returns : rs = ends.map fun newsz => (newsz.toNat : ℤ)
  sizes : rs.map UInt64.ofInt = ends
  maps : ∃ fr' T', Fills s pd fr T (pageUp oldsz) (pageUp (ends.getLastD oldsz)) t fr' T'

theorem le_last (hasc : (oldsz :: ends).IsChain (· ≤ ·)) : oldsz ≤ ends.getLastD oldsz := by
  induction ends generalizing oldsz with
  | nil => exact UInt64.le_refl oldsz
  | cons newsz ends ih =>
    obtain ⟨hle, hasc⟩ := List.isChain_cons_cons.mp hasc
    rw [List.getLastD_cons]
    exact UInt64.le_trans hle (ih hasc)

theorem last_le (hle : oldsz ≤ userTop) (htop : ∀ newsz ∈ ends, newsz < userTop) :
    ends.getLastD oldsz ≤ userTop := by
  rcases List.mem_cons.mp (List.getLastD_mem_cons (l := ends) (a := oldsz)) with h | h
  · rw [h]
    exact hle
  · exact UInt64.le_of_lt (htop _ h)

/-- Sizes below `2^31` are passed on, and the pages between them are mapped. -/
theorem uvmallocAll_reports (hd : PageDir s pd fr T) (hasc : (oldsz :: ends).IsChain (· ≤ ·))
    (htop : ∀ newsz ∈ ends, newsz < userTop) (hsmall : ∀ newsz ∈ ends, newsz.toNat < 2 ^ 31) :
    wp (uvmallocAll pd oldsz ends) (fun rs t => Reports s pd fr T oldsz ends rs t) NoPage s := by
  induction ends generalizing oldsz s fr T with
  | nil => exact wp_pure.mpr ⟨rfl, rfl, fr, T, Fills.refl hd⟩
  | cons newsz ends ih =>
    obtain ⟨hle, hasc⟩ := List.isChain_cons_cons.mp hasc
    have htop' := UInt64.le_of_lt (htop newsz List.mem_cons_self)
    have hends : ∀ e ∈ ends, e < userTop := fun e he => htop e (List.mem_cons_of_mem newsz he)
    have hr : intOf newsz = newsz.toNat := intOf_eq_iff.mpr (hsmall newsz List.mem_cons_self)
    rw [uvmallocAll, wp_bind]
    refine (uvmalloc_spec hd hle htop').imp ?_
    rintro - u ⟨rfl, fr₁, T₁, hf⟩
    rw [hr, ofInt_natCast, wp_bind]
    refine (ih hf.dir hasc hends fun e he => hsmall e (List.mem_cons_of_mem newsz he)).imp
      fun rs t hrs => wp_pure.mpr ?_
    obtain ⟨fr', T', hf'⟩ := hrs.maps
    refine ⟨?_, ?_, fr', T', ?_⟩
    · rw [hrs.returns, List.map_cons]
    · rw [List.map_cons, ofInt_natCast, hrs.sizes]
    · rw [List.getLastD_cons]
      exact hf.trans hf' (pageUp_le hle) (pageUp_le (le_last hasc)) (pageUp_top (last_le htop' hends))

/-- The result is an `int`. -/
theorem uvmallocAll_int : wp (uvmallocAll pd oldsz ends) (fun rs _ => ∀ r ∈ rs, r < 2 ^ 31)
    (fun _ _ => True) s := by
  induction ends generalizing oldsz s with
  | nil => exact wp_pure.mpr fun r hr => absurd hr List.not_mem_nil
  | cons newsz ends ih =>
    have hr : wp (uvmalloc pd oldsz newsz) (fun r _ => r < 2 ^ 31) (fun _ _ => True) s := by
      rw [uvmalloc]
      split_ifs
      · exact wp_pure.mpr intOf_lt
      · rw [wp_bind]
        exact wp.always (fun _ _ => wp_pure.mpr intOf_lt) fun _ _ => trivial
    rw [uvmallocAll, wp_bind]
    refine hr.imp fun r u hr => ?_
    rw [wp_bind]
    exact ih.imp fun rs t hrs => wp_pure.mpr (List.forall_mem_cons.mpr ⟨hr, hrs⟩)

/-- The calls report what they mapped if, and only if, the sizes fit into an `int`. -/
theorem uvmalloc_iff {rs : List ℤ} (hd : PageDir s pd fr T) (hasc : (oldsz :: ends).IsChain (· ≤ ·))
    (htop : ∀ newsz ∈ ends, newsz < userTop) (hr : uvmallocAll pd oldsz ends s = .ok rs t) :
    Reports s pd fr T oldsz ends rs t ↔ ∀ newsz ∈ ends, newsz.toNat < 2 ^ 31 := by
  constructor
  · intro h newsz hm
    have hlt := (uvmallocAll_int (s := s)).of_ok hr newsz.toNat (by rw [h.returns]; exact List.mem_map_of_mem hm)
    omega
  · intro hsmall
    exact (uvmallocAll_reports hd hasc htop hsmall).of_ok hr

/-- The second page, for a size in the middle of the page before. -/
theorem uvmalloc_reports_page : ∃ s fr T rs t, PageDir s 1 fr T ∧
    uvmallocAll 1 0x1800 [0x3000] s = .ok rs t ∧
    (Reports s 1 fr T 0x1800 [0x3000] rs t ↔ ∀ newsz ∈ [(0x3000 : UInt64)], newsz.toNat < 2 ^ 31) := by
  have h : (Caller.build 1 smallVm []).map (fun c => decide (wp (uvmallocAll 1 0x1800 [0x3000])
      (fun rs _ => rs = [0x3000]) (fun _ _ => False) c.vm)) = some true := by
    decide +kernel
  obtain ⟨c, hb, hc⟩ := Built.of_calls h
  rw [decide_eq_true_eq] at hc
  obtain ⟨fr, T, hinv⟩ := hb.inv smallVm_free
  obtain ⟨rs, t, ht, -⟩ := hc.total
  have hle : (0x1800 : UInt64) ≤ 0x3000 := by decide
  have hlt : (0x3000 : UInt64) < userTop := by decide
  exact ⟨c.vm, fr, T, rs, t, hinv.dir, ht, uvmalloc_iff hinv.dir
    (List.isChain_cons_cons.mpr ⟨hle, List.isChain_singleton _⟩) (List.forall_mem_singleton.mpr hlt) ht⟩

/-- Two segments from 2 GiB on: the size turns negative, and the second one gets no page. -/
theorem uvmalloc_loses_segment : ∃ s fr T rs t, PageDir s 1 fr T ∧
    uvmallocAll 1 0x80000000 [0x80000000, 0x80001000] s = .ok rs t ∧
    rs = [-0x80000000, -0x80000000] ∧ translate t 1 0x80000000 = none ∧
    ¬ Reports s 1 fr T 0x80000000 [0x80000000, 0x80001000] rs t := by
  have h : (Caller.build 1 smallVm []).map (fun c => decide (wp
      (uvmallocAll 1 0x80000000 [0x80000000, 0x80001000])
      (fun rs t => rs = [-0x80000000, -0x80000000] ∧ translate t 1 0x80000000 = none)
      (fun _ _ => False) c.vm)) = some true := by
    decide +kernel
  obtain ⟨c, hb, hc⟩ := Built.of_calls h
  rw [decide_eq_true_eq] at hc
  obtain ⟨fr, T, hinv⟩ := hb.inv smallVm_free
  obtain ⟨rs, t, ht, hrs, hnone⟩ := hc.total
  refine ⟨c.vm, fr, T, rs, t, hinv.dir, ht, hrs, hnone, fun hrep => ?_⟩
  have := hrep.returns
  rw [hrs] at this
  exact absurd this (by decide)

/-! ## `copyout` -/

/-- From `s` to `t` bytes from `a` to `c` were written, and pages in this range were mapped. -/
structure Keeps (m₀ : ℕ → UInt8) (F : Set ℕ) (s : Vm) (pd : ℕ) (fr : List ℕ) (T : Tree) (a c : ℕ) (t : Vm)
    (fr' : List ℕ) (T' : Tree) : Prop where
  image : Image m₀ F t pd fr' T'
  sub : fr' ⊆ fr
  plain : Plain s T → Plain t T'
  byte : ∀ k v, k < 2 ^ 48 → ¬ (a ≤ k ∧ k < c) → byteAt s T k = some v → byteAt t T' k = some v
  word : ∀ n x, n < 2 ^ 36 → slotOf T n = some x → Valid (s.heap.word x) →
    slotOf T' n = some x ∧ t.heap.word x = s.heap.word x
  fresh : ∀ n q, n < 2 ^ 36 → pageAt s T n = none → pageAt t T' n = some q →
    q ∈ fr ∧ ∃ k, a ≤ k ∧ k < c ∧ k / 2 ^ 12 = n
  pt : t.pt = s.pt

theorem Keeps.pageAt (h : Keeps m₀ F s pd fr T a c t fr' T') (hn : n < 2 ^ 36)
    (hq : Paging.pageAt s T n = some q) : Paging.pageAt t T' n = some q := by
  obtain ⟨x, hx, hv, rfl⟩ := pageAt_eq_some.mp hq
  obtain ⟨hx', hw⟩ := h.word n x hn hx hv
  exact pageAt_eq_some.mpr ⟨x, hx', by rwa [hw], by rw [hw]⟩

theorem Keeps.refl (h : Image m₀ F s pd fr T) : Keeps m₀ F s pd fr T a c s fr T where
  image := h
  sub := List.Subset.refl fr
  plain hz := hz
  byte k v hk hout hv := hv
  word n x hn hx hv := ⟨hx, rfl⟩
  fresh n q hn hnone hq := by
    rw [hnone] at hq
    cases hq
  pt := rfl

theorem Keeps.mono (h : Keeps m₀ F s pd fr T a b t fr' T') {a' b' : ℕ} (ha : a' ≤ a) (hb : b ≤ b') :
    Keeps m₀ F s pd fr T a' b' t fr' T' where
  image := h.image
  sub := h.sub
  plain := h.plain
  byte k v hk hout hv := h.byte k v hk (by omega) hv
  word := h.word
  fresh n q hn hnone hq := by
    obtain ⟨hin, k, h1, h2, h3⟩ := h.fresh n q hn hnone hq
    exact ⟨hin, k, by omega, by omega, h3⟩
  pt := h.pt

/-- A directory with the same root. -/
theorem Keeps.congr (h : Keeps m₀ F s pd fr T a c t fr' T') {pd' : ℕ} (hpt : s.pt pd' = s.pt pd) :
    Keeps m₀ F s pd' fr T a c t fr' T' :=
  { h with image := h.image.congr (by rw [h.pt]; exact hpt) }

theorem Keeps.trans (h₁ : Keeps m₀ F s pd fr T a c t fr' T') (h₂ : Keeps m₀ F t pd fr' T' a c u fr'' T'') :
    Keeps m₀ F s pd fr T a c u fr'' T'' where
  image := h₂.image
  sub q hq := h₁.sub (h₂.sub hq)
  plain hz := h₂.plain (h₁.plain hz)
  byte k v hk hout hv := h₂.byte k v hk hout (h₁.byte k v hk hout hv)
  word n x hn hx hv := by
    obtain ⟨hx₁, hw₁⟩ := h₁.word n x hn hx hv
    obtain ⟨hx₂, hw₂⟩ := h₂.word n x hn hx₁ (by rwa [hw₁])
    exact ⟨hx₂, hw₂.trans hw₁⟩
  fresh n q hn hnone hq := by
    cases hq₁ : Paging.pageAt t T' n with
    | none =>
      obtain ⟨hin, hk⟩ := h₂.fresh n q hn hq₁ hq
      exact ⟨h₁.sub hin, hk⟩
    | some q₁ =>
      rw [h₂.pageAt hn hq₁] at hq
      cases hq
      exact h₁.fresh n _ hn hnone hq₁
  pt := h₂.pt.trans h₁.pt

/-- New tables. -/
theorem Grows.keeps (hg : Grows s fr T t fr' T') (h : Image m₀ F s pd fr T) :
    Keeps m₀ F s pd fr T a c t fr' T' where
  image := hg.image h
  sub := hg.suffix.subset
  plain := hg.plain h.dir.tables
  byte k v hk hout hv := (hg.byteAt h hk).trans hv
  word n x hn hx hv := ⟨hg.slotOf hx, hg.word_slot h.dir.tables hx⟩
  fresh n q hn hnone hq := by
    rw [hg.pageAt h.dir.tables, hnone] at hq
    cases hq
  pt := hg.pt

/-- A new page in the range. -/
theorem Fills.keeps (hf : Fills s pd fr T n (n + 1) t fr' T') (h : Image m₀ F s pd fr T) (hn : n < 2 ^ 36)
    (hnone : Paging.pageAt s T n = none) (hk : a ≤ k) (hkc : k < c) (hkn : k / 2 ^ 12 = n) :
    Keeps m₀ F s pd fr T a c t fr' T' where
  image := hf.image m₀ F h
  sub := hf.sub
  plain := hf.plain
  byte j v hj hout hv := by
    by_cases hjn : j / 2 ^ 12 = n
    · rw [byteAt, hjn, hnone] at hv
      cases hv
    · rw [hf.byte m₀ F h j hj (by omega), hv]
  word m x hm hx hv := by
    by_cases hmn : m = n
    · subst hmn
      rw [pageAt_of_slot hx, if_pos hv] at hnone
      cases hnone
    · exact hf.word m hm (by omega) x hx
  fresh m q hm hnone' hq := by
    by_cases hmn : m = n
    · subst hmn
      obtain ⟨q', hq', hin, -⟩ := hf.self m (by omega) (by omega)
      rw [hq] at hq'
      cases hq'
      exact ⟨hin, k, hk, hkc, hkn⟩
    · rw [hf.other m hm (by omega), hnone'] at hq
      cases hq
  pt := hf.pt

/-- The page of an address in the range. -/
theorem pageFor_spec (h : Image m₀ F s pd fr T) (hva : va.toNat < 2 ^ 48) (ha : a ≤ va.toNat)
    (hc : va.toNat < c) :
    wp (pageFor pd va) (fun r t => ∃ q fr' T', r = some q ∧ Keeps m₀ F s pd fr T a c t fr' T' ∧
      pageAt t T' (vpn va) = some q) NoPage s := by
  have hvpn := vpn_eq hva
  rw [pageFor, wp_bind]
  refine (getPte_spec h.dir fun _ => rfl).imp ?_
  rintro r t ⟨fr', T', hg, rfl, hnone, -, -⟩
  cases hx : slotOf T' (vpn va) with
  | none => exact absurd (hnone hx) (by decide)
  | some x =>
    dsimp only
    rw [wp_bind, wp_load]
    split_ifs with hv
    · rw [wp_bind, wp_load, wp_pure]
      refine ⟨_, fr', T', rfl, hg.keeps h, ?_⟩
      rw [pageAt_of_slot hx, if_pos hv]
    · have hempty : pageAt s T (vpn va) = none := by
        rw [← hg.pageAt h.dir.tables, pageAt_of_slot hx, if_neg hv]
      rw [wp_bind]
      refine (freshEntry_fills h.dir hg vpn_lt hx).imp ?_
      rintro q u ⟨fr'', hf, hq⟩
      rw [wp_bind, wp_store, wp_pure]
      exact ⟨q, fr'', T', rfl, hf.keeps h vpn_lt hempty ha hc hvpn.symm, hq⟩

/-- Bytes that are written to a mapped page of the range. -/
theorem Image.keeps {l : List UInt8} {o : ℕ} (h : Image m₀ F s pd fr T) (hn : n < 2 ^ 36)
    (hq : Paging.pageAt s T n = some q) (ho : o + l.length ≤ 2 ^ 12) (ha : a ≤ n * 2 ^ 12 + o)
    (hc : n * 2 ^ 12 + o + l.length ≤ c) :
    Keeps m₀ F s pd fr T a c { s with heap := s.heap.putBytes (q + o) l } fr T where
  image := h.putBytes hn hq ho
  sub := List.Subset.refl fr
  plain := h.putBytes_plain hn hq ho
  byte k v hk hout hv := by
    rw [h.putBytes_byteAt hn hq ho hk, if_neg (by omega), hv]
  word m x hm hx hv := ⟨hx, h.putBytes_word hn hq ho hx⟩
  fresh m q' hm hnone hq' := by
    rw [h.putBytes_pageAt hn hq ho, hnone] at hq'
    cases hq'
  pt := rfl

/-- The bytes of the source lie outside of the pages `F`. -/
def Source.Outside (F : Set ℕ) (len : ℕ) : Source → Prop
  | .kernel p => ∀ i < len, pageBase (p + i) ∉ F
  | _ => True

theorem Source.Outside.byte (hp : p.Outside F len) (h : Image m₀ F s pd fr T) (hi : i < len) :
    p.byte s.heap.mem i = p.byte m₀ i := by
  cases p with
  | null => rfl
  | kernel p => exact h.mem _ (hp i hi)
  | user l => rfl

/-- The loop copies the bytes from `i` to `i + len` to `va`. -/
theorem copyoutLoop_spec (h : Image m₀ F s pd fr T) (hp : p.Outside F (i + len))
    (hva : va.toNat + len ≤ 2 ^ 48) (hn : len ≤ n) (ha : a + i = va.toNat) (hc : va.toNat + len = c) :
    wp (copyoutLoop pd p n va i len) (fun r t => r = 0 ∧ ∃ fr' T',
      Keeps m₀ F s pd fr T va.toNat c t fr' T' ∧
      ∀ k, va.toNat ≤ k → k < c → byteAt t T' k = some (p.byte m₀ (k - a))) NoPage s := by
  induction n generalizing va i len s fr T with
  | zero =>
    refine wp_pure.mpr ⟨rfl, fr, T, Keeps.refl h, fun k h1 h2 => ?_⟩
    omega
  | succ n ih =>
    rw [copyoutLoop]
    split_ifs with hlen
    · refine wp_pure.mpr ⟨rfl, fr, T, Keeps.refl h, fun k h1 h2 => ?_⟩
      omega
    · have h48 : va.toNat < 2 ^ 48 := by omega
      have hvpn : vpn va * 2 ^ 12 + va.toNat % pageSize = va.toNat := by
        rw [vpn_eq h48]
        unfold pageSize
        omega
      rw [wp_bind]
      refine (pageFor_spec h h48 le_rfl (c := c) (by omega)).imp ?_
      rintro - t ⟨q, fr₁, T₁, rfl, hk₁, hq⟩
      -- `n1` bytes go to the page `q`.
      obtain ⟨n1, hn1⟩ : ∃ n1, n1 = min (pageSize - va.toNat % pageSize) len := ⟨_, rfl⟩
      have hpos : 0 < n1 ∧ n1 ≤ len ∧ va.toNat % pageSize + n1 ≤ 2 ^ 12 := by
        have := Nat.mod_lt va.toNat (show 0 < pageSize by decide)
        unfold pageSize at *
        omega
      obtain ⟨l, hl⟩ : ∃ l, l = (List.range n1).map fun j => p.byte t.heap.mem (i + j) := ⟨_, rfl⟩
      have hlen' : l.length = n1 := by rw [hl, List.length_map, List.length_range]
      have hbyte : ∀ j < n1, l.getD j 0 = p.byte m₀ (i + j) := by
        intro j hj
        rw [hl, List.getD_eq_getElem?_getD, List.getElem?_map, List.getElem?_range hj, Option.map_some,
          Option.getD_some, hp.byte hk₁.image (by omega)]
      have ho : va.toNat % pageSize + l.length ≤ 2 ^ 12 := by omega
      have hk₂ := hk₁.image.keeps vpn_lt hq ho (a := va.toNat) (c := c) (by omega) (by omega)
      have hnext : (va + UInt64.ofNat n1).toNat = va.toNat + n1 := by
        rw [UInt64.toNat_add, UInt64.toNat_ofNat']
        omega
      simp only [Source.read, readPage, wp_bind, wp_get, wp_pure, wp_modify, ← hn1, ← hl]
      have hp' : p.Outside F (i + n1 + (len - n1)) := by
        rwa [show i + n1 + (len - n1) = i + len by omega]
      refine (ih hk₂.image hp' (by omega) (by omega) (by omega) (by omega)).imp ?_
      rintro r u ⟨rfl, fr', T', hk₃, hbytes⟩
      rw [hnext] at hk₃ hbytes
      refine ⟨rfl, fr', T', (hk₁.trans hk₂).trans (hk₃.mono (by omega) le_rfl), fun k h1 h2 => ?_⟩
      by_cases hk : k < va.toNat + n1
      · refine hk₃.byte k _ (by omega) (by omega) ?_
        rw [hk₁.image.putBytes_byteAt vpn_lt hq ho (by omega), if_pos (by omega), hbyte _ (by omega)]
        rw [show i + (k - (vpn va * 2 ^ 12 + va.toNat % pageSize)) = k - a by omega]
      · exact hbytes k (by omega) h2

theorem copyout_image (h : Image m₀ F s pd fr T) {len : UInt64} (hp : p.Outside F len.toNat)
    (hlen : va.toNat + len.toNat ≤ userTop.toNat) :
    wp (copyout pd va p len) (fun r t => r = 0 ∧ ∃ fr' T',
      Keeps m₀ F s pd fr T va.toNat (va.toNat + len.toNat) t fr' T' ∧
      ∀ k, va.toNat ≤ k → k < va.toNat + len.toNat → byteAt t T' k = some (p.byte m₀ (k - va.toNat)))
      NoPage s := by
  have hlen' : va.toNat + len.toNat ≤ 2 ^ 48 := hlen
  have hle : ¬ userTop < va + len := by
    rw [UInt64.lt_iff_toNat_lt, UInt64.toNat_add]
    omega
  rw [copyout, if_neg hle]
  exact copyoutLoop_spec h (by rwa [Nat.zero_add]) hlen' le_rfl (Nat.add_zero _) rfl

/-- The byte that the process reads at `w`. -/
def userByte (s : Vm) (pd : ℕ) (w : UInt64) : Option UInt8 := (translate s pd w).map s.heap.mem

theorem userByte_eq (hd : PageDir s pd fr T) {w : UInt64} (hw : w.toNat < 2 ^ 48) :
    userByte s pd w = byteAt s T w.toNat := by
  rw [userByte, translate_eq hd, vpn_eq hw, Option.map_map]
  rfl

/-- The pages that a directory uses, and the free ones. -/
def usedPages (s : Vm) (fr : List ℕ) (T : Tree) : Set ℕ :=
  {q | q ∈ fr ∨ (∃ l, T l = some q) ∨ ∃ n < 2 ^ 36, pageAt s T n = some q}

/-- `len` bytes of `p` were written to `va`, and pages were mapped where there were none. -/
structure CopiedOut (s : Vm) (pd : ℕ) (fr : List ℕ) (T : Tree) (va : UInt64) (p : Source) (len : ℕ) (t : Vm)
    (T' : Tree) : Prop where
  written : ∀ w : UInt64, va.toNat ≤ w.toNat → w.toNat < va.toNat + len →
    userByte t pd w = some (p.byte s.heap.mem (w.toNat - va.toNat))
  kept : ∀ w : UInt64, w < userTop → ¬ (va.toNat ≤ w.toNat ∧ w.toNat < va.toNat + len) →
    ∀ v, userByte s pd w = some v → userByte t pd w = some v
  entry : ∀ n x, n < 2 ^ 36 → slotOf T n = some x → Valid (s.heap.word x) →
    slotOf T' n = some x ∧ t.heap.word x = s.heap.word x
  added : ∀ n < 2 ^ 36, pageAt s T n = none →
    (pageAt t T' n ≠ none ↔ ∃ k, va.toNat ≤ k ∧ k < va.toNat + len ∧ k / 2 ^ 12 = n)
  fresh : ∀ n q, n < 2 ^ 36 → pageAt s T n = none → pageAt t T' n = some q →
    q ∈ fr ∧ ∀ m < 2 ^ 36, pageAt t T' m = some q → m = n

/-- `copyout` writes exactly its range. -/
theorem copyout_spec (hd : PageDir s pd fr T)
    (hown : ∀ n q, n < 2 ^ 36 → pageAt s T n = some q → q ∉ fr ∧ ∀ l, T l ≠ some q)
    (hinj : ∀ n m q, n < 2 ^ 36 → m < 2 ^ 36 → pageAt s T n = some q → pageAt s T m = some q → n = m)
    {len : UInt64} (hlen : va.toNat + len.toNat ≤ userTop.toNat)
    (hp : p.Outside (usedPages s fr T) len.toNat) :
    wp (copyout pd va p len) (fun r t => r = 0 ∧ ∃ fr' T', PageDir t pd fr' T' ∧
      CopiedOut s pd fr T va p len.toNat t T') NoPage s := by
  have himage : Image s.heap.mem (usedPages s fr T) s pd fr T :=
    ⟨hd, fun q hq => .inl hq, fun y _ => rfl, fun l a ha => .inr (.inl ⟨l, ha⟩),
      fun n q hn hq => ⟨.inr (.inr ⟨n, hn, hq⟩), hown n q hn hq⟩, hinj⟩
  have hlen' : va.toNat + len.toNat ≤ 2 ^ 48 := hlen
  refine (copyout_image himage hp hlen).imp ?_
  rintro r t ⟨rfl, fr', T', hk, hbytes⟩
  have hd' := hk.image.dir
  refine ⟨rfl, fr', T', hd', ⟨fun w h1 h2 => ?_, fun w hw hout v hv => ?_, hk.word, fun n hn hnone => ?_,
    fun n q hn hnone hq => ?_⟩⟩
  · rw [userByte_eq hd' (by omega)]
    exact hbytes _ h1 h2
  · have hw' : w.toNat < 2 ^ 48 := hw
    rw [userByte_eq hd hw'] at hv
    rw [userByte_eq hd' hw']
    exact hk.byte _ v hw' hout hv
  · constructor
    · intro hne
      obtain ⟨q, hq⟩ := Option.ne_none_iff_exists'.mp hne
      exact (hk.fresh n q hn hnone hq).2
    · rintro ⟨k, h1, h2, rfl⟩ hnone'
      have hb := hbytes k h1 h2
      rw [byteAt, hnone'] at hb
      cases hb
  · exact ⟨(hk.fresh n q hn hnone hq).1, fun m hm hmq => hk.image.inj m n q hm hn hmq hq⟩

/-- Four bytes of the kernel behind one page that is mapped and one that is not. -/
theorem copyout_across : ∃ s fr T, PageDir s 1 fr T ∧ translate s 1 0x1FFE = some 0xFFFF00007FFFBFFE ∧
    translate s 1 0x2000 = none ∧
    wp (copyout 1 0x1FFE (.kernel 0xFFFF000000100000) 4) (fun r t => r = 0 ∧ ∃ fr' T', PageDir t 1 fr' T' ∧
      CopiedOut s 1 fr T 0x1FFE (.kernel 0xFFFF000000100000) 4 t T') NoPage s := by
  have h : (Caller.build 1 smallVm [.getPte 0x1000 true, .page,
      .store 0xFFFF00007FFFC008 0x7FFFB647]).map (fun c => (c.slots,
        c.vm.heap.word 0xFFFF00007FFFC008, translate c.vm 1 0x1FFE, translate c.vm 1 0x2000,
        decide (c.tables = smallPages.take 4 ∧
          Chain c.vm.heap.link c.vm.heap.freePages (smallPages.drop 5)))) =
      some ([0xFFFF00007FFFC008], 0x7FFFB647, some 0xFFFF00007FFFBFFE, none, true) := by
    decide +kernel
  obtain ⟨c, hb, hc⟩ := Built.of_calls h
  simp only [Prod.mk.injEq, decide_eq_true_eq] at hc
  obtain ⟨hslots, hword, htrans, hnone, htables, hchain⟩ := hc
  obtain ⟨fr, T, hinv⟩ := hb.inv smallVm_free
  have hfr : fr = smallPages.drop 5 := hinv.dir.free.pages.chain.unique hchain
  have hT : ∀ l a, T l = some a → a ∈ smallPages.take 4 := fun l a ha => by
    rw [← htables]
    exact (hinv.tables a).mpr ⟨l, ha⟩
  have hslot : ∀ n q, pageAt c.vm T n = some q →
      slotOf T n = some 0xFFFF00007FFFC008 ∧ q = 0xFFFF00007FFFB000 := by
    intro n q hq
    obtain ⟨x, hx, hv, rfl⟩ := pageAt_eq_some.mp hq
    have hmem : x ∈ c.slots := by
      by_contra hnot
      rw [hinv.empty n x hx hnot] at hv
      exact not_valid_zero hv
    rw [hslots, List.mem_singleton] at hmem
    subst hmem
    refine ⟨hx, ?_⟩
    rw [hword]
    decide
  refine ⟨c.vm, fr, T, hinv.dir, htrans, hnone, copyout_spec hinv.dir ?_ ?_ (by decide) ?_⟩
  · intro n q _ hq
    rw [(hslot n q hq).2, hfr]
    exact ⟨by decide, fun l hl => absurd (hT l _ hl) (by decide)⟩
  · intro n m q hn hm hnq hmq
    exact hinv.dir.tables.slot_inj hn hm (hslot n q hnq).1 (hslot m q hmq).1
  · intro i hi
    have hbase : pageBase (0xFFFF000000100000 + i) = 0xFFFF000000100000 := by
      have hi' : i < 4 := hi
      exact pageBase_add (by decide) (by unfold pageSize; omega)
    rw [hbase]
    rintro (hm | ⟨l, hl⟩ | ⟨n, -, hq⟩)
    · rw [hfr] at hm
      exact absurd hm (by decide)
    · exact absurd (hT l _ hl) (by decide)
    · exact absurd (hslot n _ hq).2 (by decide)

end ShikiOS.Kernel.Paging
