import ShikiOS.Kernel.Exec
import ShikiOS.Kernel.LazyMapping

/-!
# Accesses of `execve` to the new memory (`kernel/exec.c`)

`execve` writes to the memory of the process through `ttbr0`. An access to a page that is not mapped
faults, and the fault maps a new page in the directory of the process.

Results:
* `copyToUser_spec`: what is copied arrives, and a fault is taken if, and only if, a page was missing.
* `loadSegment_wp`: what is mapped when the bytes of a segment are read.
-/

namespace ShikiOS.Kernel.Exec

open ShikiOS.Lib Paging
open UserPtr (pteRo)

variable {c : Call} {s t : State} {v w : Vm} {m₀ : ℕ → UInt8} {F : Set ℕ} {fr fr' fr₁ : List ℕ} {T T' T₁ : Tree}
  {pgdir pd q n k a b : ℕ} {va : UInt64} {write : Bool} {l file : List UInt8} {E : Paging.Stop → State → Prop}

/-- A program may stop. -/
theorem wp_partial {α : Type} {x : X α} {Q : α → State → Prop} (h : wp x Q E s) : wlp x Q s :=
  wp_mono h (fun _ _ hq => hq) fun _ _ _ => trivial

/-- The directory at `pgdir` has the root of that of the process. -/
structure Loading (m₀ : ℕ → UInt8) (F : Set ℕ) (c : Call) (pgdir : ℕ) (s : State) (fr : List ℕ) (T : Tree) :
    Prop where
  image : Image m₀ F s.vm pgdir fr T
  plain : Plain s.vm T
  proc : s.vm.pt (pgdirOf c.proc) = s.vm.pt pgdir

/-- It is attached, too. -/
structure Attached (m₀ : ℕ → UInt8) (F : Set ℕ) (c : Call) (pgdir : ℕ) (s : State) (fr : List ℕ) (T : Tree) :
    Prop extends Loading m₀ F c pgdir s fr T where
  attached : s.vm.pt ttbr0 = s.vm.pt pgdir

theorem Loading.keeps (h : Loading m₀ F c pgdir s fr T)
    (hk : Keeps m₀ F s.vm pgdir fr T a b t.vm fr' T') : Loading m₀ F c pgdir t fr' T' :=
  ⟨hk.image, hk.plain h.plain, by rw [hk.pt]; exact h.proc⟩

theorem Attached.keeps (h : Attached m₀ F c pgdir s fr T)
    (hk : Keeps m₀ F s.vm pgdir fr T a b t.vm fr' T') : Attached m₀ F c pgdir t fr' T' :=
  ⟨h.toLoading.keeps hk, by rw [hk.pt]; exact h.attached⟩

/-- Another table is attached. -/
theorem Loading.attach {r : ℕ} (h : Loading m₀ F c pgdir s fr T) (hne : pgdir ≠ ttbr0) :
    Loading m₀ F c pgdir { s with vm := { s.vm with pt := Function.update s.vm.pt ttbr0 r } } fr T := by
  have hproc : pgdirOf c.proc ≠ ttbr0 := Nat.succ_ne_zero _
  refine ⟨h.image.setPt hne, h.plain, ?_⟩
  dsimp only
  rw [Function.update_of_ne hproc, Function.update_of_ne hne]
  exact h.proc

/-! ## Faults in mappings -/

/-- Entries of mappings are not read-only. -/
theorem map_writable (hq : KernelPage q) : mapEntry q &&& pteRo = 0 := by
  have hbit : q &&& 2 ^ 7 = 0 := by
    obtain ⟨k, rfl⟩ := hq.aligned
    apply Nat.eq_of_testBit_eq
    intro i
    rw [mul_comm, show pageSize = 2 ^ 12 from rfl, ← Nat.shiftLeft_eq, Nat.testBit_and, Nat.testBit_shiftLeft,
      Nat.testBit_two_pow, Nat.zero_testBit]
    by_cases hi : 7 = i
    · subst hi
      rfl
    · rw [decide_eq_false hi, Bool.and_false]
  apply UInt64.toNat_inj.mp
  rw [UInt64.toNat_and, mapEntry_toNat hq, ← add_flags hq.aligned, Nat.and_or_distrib_right]
  exact (congrArg (· ||| (0x647 &&& pteRo.toNat)) hbit).trans (by decide)

/-- A page that was mapped is filled. -/
theorem fillPage_keeps {o : ℕ} (hk : Keeps m₀ F v pd fr T a b w fr' T') (hn : n < 2 ^ 36)
    (hnone : pageAt v T n = none) (hq : pageAt w T' n = some q) (ho : o + l.length ≤ 2 ^ 12) :
    Keeps m₀ F v pd fr T a b { w with heap := w.heap.putBytes (q + o) l } fr' T' where
  image := hk.image.putBytes hn hq ho
  sub := hk.sub
  plain hp := hk.image.putBytes_plain hn hq ho (hk.plain hp)
  byte k r hk' hout hr := by
    have hkn : k / 2 ^ 12 ≠ n := by
      rintro rfl
      rw [byteAt, hnone] at hr
      cases hr
    rw [hk.image.putBytes_byteAt hn hq ho hk', if_neg (by omega)]
    exact hk.byte k r hk' hout hr
  word m x hm hx hv := by
    obtain ⟨hx', hw⟩ := hk.word m x hm hx hv
    exact ⟨hx', (hk.image.putBytes_word hn hq ho hx').trans hw⟩
  fresh m q' hm hnone' hq' := by
    rw [hk.image.putBytes_pageAt hn hq ho] at hq'
    exact hk.fresh m q' hm hnone' hq'
  pt := hk.pt

/-- A fault in a mapping maps a page of its own, and fills it. -/
theorem mapFault_fills {m : Mapping} (hd : PageDir v pd fr T) (hm : Made m) (hva : va.toNat < 2 ^ 48) :
    wp (mapFault pd m va) (fun _ t => ∃ u fr' T' q, Fills v pd fr T (vpn va) (vpn va + 1) u fr' T' ∧
      pageAt u T' (vpn va) = some q ∧
      t = { u with heap := u.heap.putBytes q (m.read (pageBaseU64 va)) }) NoPage v := by
  rw [mapFault, wp_bind]
  refine (kallocPage_dir hd).imp ?_
  rintro q w ⟨fr₁, rfl, hdir, hpt, -, -, hmem⟩
  have hq : KernelPage q := hd.free.kernelPage List.mem_cons_self
  have hnd : q ∉ fr₁ := (List.nodup_cons.mp hd.free.pages.nodup).1
  have hqT : ∀ l, T l ≠ some q := fun l hl => hd.tables.used l q hl List.mem_cons_self
  have hclear := hdir.clear hq hnd hqT
  rw [wp_bind, wp_clearPage, wp_bind, pageBaseU64_eq hva]
  refine (mappages_spec (I := fun _ => True) hclear (fun _ _ => wp.always (fun _ _ => trivial) fun _ _ => trivial)
    trivial vpn_lt).imp ?_
  rintro - x ⟨rfl, u, fr', T', y, hg, -, hy, rfl⟩
  have hp : Prepared v pd (q :: fr₁) T q u fr' T' := by
    refine Prepared.tables hd hclear hpt (fun y hy => ?_) hg
    rw [List.mem_cons, not_or] at hy
    exact (mem_zeroPage hq.aligned hy.1).trans (hmem y hy.2)
  have hf := hp.fills vpn_lt hy (valid_mapEntry hq) (pageOf_mapEntry hq) (map_writable hq)
  have hself : pageAt { u with heap := u.heap.setWord y (mapEntry q) } T' (vpn va) = some q := by
    rw [pageAt_store_self hy, if_pos (valid_mapEntry hq), pageOf_mapEntry hq]
  rw [hm.1, if_neg (not_not.mpr rfl), wp_bind, readPage, wp_modify, wp_pure]
  exact ⟨_, fr', T', q, hf, hself, rfl⟩

/-! ## One access -/

theorem wp_lookup_page {Q : Option ℕ → Vm → Prop} {E : Paging.Stop → Vm → Prop} (hd : PageDir v ttbr0 fr T)
    (hp : Plain v T) (hQ : Q ((pageAt v T (vpn va)).map (· + va.toNat % pageSize)) v) :
    wp (lookup write va) Q E v := by
  rw [lookup, wp_bind, wp_lookup hd]
  cases hx : slotOf T (vpn va) with
  | none =>
    rw [pageAt_of_none hx] at hQ
    exact wp_pure.mpr hQ
  | some x =>
    rw [pageAt_of_slot hx] at hQ
    dsimp only
    rw [wp_bind, wp_load]
    by_cases hv : Valid (v.heap.word x)
    · have hro : v.heap.word x &&& pteRo = 0 := by
        refine ((hp _ x vpn_lt hx).resolve_left fun h0 => ?_).2
        rw [h0] at hv
        exact not_valid_zero hv
      rw [if_pos ⟨hv, fun h => h.2 hro⟩, wp_pure]
      rwa [if_pos hv] at hQ
    · rw [if_neg fun h => hv h.1, wp_pure]
      rwa [if_neg hv] at hQ

/-- A fault maps the page of the address. -/
theorem fault_spec (h : Attached m₀ F c pgdir s fr T) (hva : va.toNat < 2 ^ 48)
    (hnone : pageAt s.vm T (vpn va) = none) :
    wlp (fault c va) (fun _ t => ∃ fr' T', Keeps m₀ F s.vm pgdir fr T va.toNat (va.toNat + 1) t.vm fr' T' ∧
      (∃ q, pageAt t.vm T' (vpn va) = some q) ∧ t.nested = true) s := by
  have hproc := h.image.congr h.proc
  rw [fault, wlp, wp_bind, wp_modify, wp_bind, wp_memory, pgfaultHandler]
  cases hfind : c.vmas.find? fun v => v.Covers va with
  | some m =>
    refine wp_mono (mapFault_fills hproc.dir (c.made m (List.mem_of_find?_eq_some hfind)) hva) ?_ fun _ _ _ => trivial
    rintro - _ ⟨u, fr', T', q, hf, hq, rfl⟩
    have hk := hf.keeps hproc vpn_lt hnone le_rfl (Nat.lt_succ_self _) (vpn_eq hva).symm
    have hlen : 0 + (m.read (pageBaseU64 va)).length ≤ 2 ^ 12 := by
      have := (c.made m (List.mem_of_find?_eq_some hfind)).2 (pageBaseU64 va)
      unfold pageSize at this
      omega
    have hk' := (fillPage_keeps hk vpn_lt hnone hq hlen).congr h.proc.symm
    rw [Option.isNone_some, if_neg Bool.false_ne_true, wp_pure]
    refine ⟨fr', T', hk', ⟨q, ?_⟩, rfl⟩
    rw [← hq]
    exact hk.image.putBytes_pageAt vpn_lt hq hlen _
  | none =>
    refine wp_mono (anonFault_fills hproc.dir h.plain hnone) ?_ fun _ _ _ => trivial
    rintro - u ⟨fr', T', hf⟩
    have hk := (hf.keeps hproc vpn_lt hnone le_rfl (Nat.lt_succ_self _) (vpn_eq hva).symm).congr h.proc.symm
    have hpt : Function.update u.pt ttbr0 (u.pt (pgdirOf c.proc)) = u.pt := by
      refine Function.update_eq_self_iff.mpr ?_
      rw [hk.pt, h.proc, h.attached]
    obtain ⟨q, hq, -⟩ := hf.self (vpn va) le_rfl (Nat.lt_succ_self _)
    rw [Option.isNone_none, if_pos rfl, wp_memory, wp_attachPgdir, hpt]
    exact ⟨fr', T', hk, ⟨q, hq⟩, rfl⟩

theorem access_lookup {Q : ℕ → State → Prop} (h : Attached m₀ F c pgdir s fr T) (hva : va.toNat < 2 ^ 48)
    (hsome : ∀ q, pageAt s.vm T (vpn va) = some q → Q (q + va.toNat % pageSize) s)
    (hnone : pageAt s.vm T (vpn va) = none → wp (accessAgain c write va) Q E s) :
    wp (access c write va) Q E s := by
  have hk : ¬ kernelBase ≤ va.toNat := by
    unfold kernelBase
    omega
  have hu : ¬ userTop ≤ va := by
    rw [UInt64.not_le, UInt64.lt_iff_toNat_lt]
    exact hva
  rw [access, if_neg hk, if_neg hu, wp_bind, wp_memory]
  refine wp_lookup_page (h.image.congr h.attached).dir h.plain ?_
  cases hq : pageAt s.vm T (vpn va) with
  | some q => exact wp_pure.mpr (hsome q hq)
  | none => exact hnone hq

/-- The place of an address, whose page is mapped if it was not. -/
theorem access_spec (h : Attached m₀ F c pgdir s fr T) (hva : va.toNat < 2 ^ 48) :
    wlp (access c write va) (fun r t => ∃ q fr' T', r = q + va.toNat % pageSize ∧
      Keeps m₀ F s.vm pgdir fr T va.toNat (va.toNat + 1) t.vm fr' T' ∧ pageAt t.vm T' (vpn va) = some q ∧
      (t.nested = true ↔ s.nested = true ∨ pageAt s.vm T (vpn va) = none)) s := by
  refine access_lookup h hva (fun q hq => ⟨q, fr, T, rfl, Keeps.refl h.image, hq, ?_⟩) fun hq => ?_
  · simp [hq]
  · rw [accessAgain, wp_bind]
    refine (fault_spec h hva hq).imp ?_
    rintro - t ⟨fr', T', hk, ⟨q, hq'⟩, hn⟩
    have ht := h.keeps hk
    rw [wp_bind, wp_memory]
    refine wp_lookup_page (ht.image.congr ht.attached).dir ht.plain ?_
    rw [hq']
    refine wp_pure.mpr ⟨q, fr', T', rfl, hk, hq', ?_⟩
    simp [hn, hq]

/-! ## Bytes that are written -/

/-- The process reads the bytes `l` from `a` on. -/
def HasBytes (v : Vm) (T : Tree) (a : ℕ) (l : List UInt8) : Prop :=
  ∀ i < l.length, byteAt v T (a + i) = some (l.getD i 0)

theorem HasBytes.mono (h : HasBytes v T n l) {w : Vm}
    (hk : ∀ k r, n ≤ k → k < n + l.length → byteAt v T k = some r → byteAt w T' k = some r) : HasBytes w T' n l :=
  fun i hi => hk (n + i) _ (by omega) (by omega) (h i hi)

theorem HasBytes.keeps (h : HasBytes v T n l) {w : Vm} (hk : Keeps m₀ F v pgdir fr T a b w fr' T')
    (hout : n + l.length ≤ a ∨ b ≤ n) (htop : n + l.length ≤ 2 ^ 48) : HasBytes w T' n l :=
  h.mono fun k r _ _ => hk.byte k r (by omega) (by omega)

/-- A page with one of the addresses from `a` to `b` is not mapped. -/
def Missing (v : Vm) (T : Tree) (a b : ℕ) : Prop := ∃ k, a ≤ k ∧ k < b ∧ pageAt v T (k / 2 ^ 12) = none

theorem not_missing_self : ¬ Missing v T a a := by
  rintro ⟨k, h1, h2, -⟩
  omega

/-- The page of the first address was mapped, if it was not, and the rest of the range is looked at. -/
theorem missing_split {w : Vm} (hk : Keeps m₀ F v pgdir fr T a b w fr' T') (hpage : (b - 1) / 2 ^ 12 = a / 2 ^ 12)
    (hab : a < b) (hn : b ≤ n) (hrest : b = n ∨ b % 2 ^ 12 = 0) (htop : n ≤ 2 ^ 48) :
    Missing v T a n ↔ pageAt v T (a / 2 ^ 12) = none ∨ Missing w T' b n := by
  constructor
  · rintro ⟨k, h1, h2, hnone⟩
    by_cases hka : k / 2 ^ 12 = a / 2 ^ 12
    · exact .inl (hka ▸ hnone)
    · refine .inr ⟨k, by omega, h2, ?_⟩
      by_contra hsome
      obtain ⟨q, hq'⟩ := Option.ne_none_iff_exists'.mp hsome
      obtain ⟨-, j, h3, h4, h5⟩ := hk.fresh _ q (by omega) hnone hq'
      omega
  · rintro (hnone | ⟨k, h1, h2, hnone⟩)
    · exact ⟨a, le_rfl, by omega, hnone⟩
    · refine ⟨k, by omega, h2, ?_⟩
      by_contra hsome
      obtain ⟨q, hq'⟩ := Option.ne_none_iff_exists'.mp hsome
      rw [hk.pageAt (by omega) hq'] at hnone
      cases hnone

/-- Bytes that go to one page. -/
theorem write_spec (h : Attached m₀ F c pgdir s fr T) (hva : va.toNat + l.length ≤ 2 ^ 48) (hl : l ≠ [])
    (hpage : va.toNat % 2 ^ 12 + l.length ≤ 2 ^ 12) :
    wlp (do
      let a ← access c true va
      memory (readPage a l)) (fun _ t => ∃ fr' T',
        Keeps m₀ F s.vm pgdir fr T va.toNat (va.toNat + l.length) t.vm fr' T' ∧ HasBytes t.vm T' va.toNat l ∧
        (t.nested = true ↔ s.nested = true ∨ pageAt s.vm T (vpn va) = none)) s := by
  have hpos : 0 < l.length := List.length_pos_iff.mpr hl
  have h48 : va.toNat < 2 ^ 48 := by omega
  have hvpn := vpn_eq h48
  rw [wlp, wp_bind]
  refine (access_spec h h48).imp ?_
  rintro - t ⟨q, fr', T', rfl, hk, hq, hn⟩
  have hput := hk.image.keeps vpn_lt hq hpage (a := va.toNat) (c := va.toNat + l.length)
    (by omega) (by omega)
  rw [wp_memory, readPage, wp_modify]
  refine ⟨fr', T', (hk.mono le_rfl (by omega)).trans hput, fun i hi => ?_, hn⟩
  refine (hk.image.putBytes_byteAt vpn_lt hq hpage (by omega)).trans ?_
  rw [if_pos (by omega), show va.toNat + i - (vpn va * 2 ^ 12 + va.toNat % 2 ^ 12) = i by omega]

/-- The bytes that are copied arrive, and nothing else changes. A fault is taken if, and only if, a page
    was missing. -/
theorem copyToUser_spec (h : Attached m₀ F c pgdir s fr T) (hva : va.toNat + l.length ≤ 2 ^ 48)
    (hn : l.length ≤ n) : wlp (copyToUser c n va l) (fun _ t => ∃ fr' T',
      Keeps m₀ F s.vm pgdir fr T va.toNat (va.toNat + l.length) t.vm fr' T' ∧ HasBytes t.vm T' va.toNat l ∧
      (t.nested = true ↔ s.nested = true ∨ Missing s.vm T va.toNat (va.toNat + l.length))) s := by
  induction n generalizing va l s fr T with
  | zero =>
    obtain rfl : l = [] := List.length_eq_zero_iff.mp (by omega)
    refine wp_pure.mpr ⟨fr, T, Keeps.refl h.image, fun i hi => absurd hi i.not_lt_zero, ?_⟩
    simp [not_missing_self]
  | succ n ih =>
    rw [copyToUser]
    refine wp.ite (fun hl => ?_) fun hl => ?_
    · subst hl
      refine wp_pure.mpr ⟨fr, T, Keeps.refl h.image, fun i hi => absurd hi i.not_lt_zero, ?_⟩
      simp [not_missing_self]
    have hpos : 0 < l.length := List.length_pos_iff.mpr hl
    -- The first piece has `k` bytes.
    obtain ⟨k, hk⟩ : ∃ k, k = min (pageSize - va.toNat % pageSize) l.length := ⟨_, rfl⟩
    have hmod := Nat.mod_lt va.toNat (show 0 < pageSize by decide)
    have hpiece : 0 < k ∧ k ≤ l.length ∧ va.toNat % 2 ^ 12 + k ≤ 2 ^ 12 ∧
        (va.toNat + k = va.toNat + l.length ∨ (va.toNat + k) % 2 ^ 12 = 0) := by
      unfold pageSize at *
      omega
    have htake : (l.take k).length = k := by
      rw [List.length_take]
      omega
    have hdrop : (l.drop k).length = l.length - k := List.length_drop
    have hnext : (va + UInt64.ofNat k).toNat = va.toNat + k := by
      rw [UInt64.toNat_add, UInt64.toNat_ofNat']
      omega
    have hlen : va.toNat < 2 ^ 48 ∧ va.toNat + (l.take k).length ≤ 2 ^ 48 := by omega
    have hvpn := vpn_eq hlen.1
    dsimp only
    rw [← hk, wp_bind]
    have hne : l.take k ≠ [] := List.length_pos_iff.mp (by omega)
    have hw := write_spec h hlen.2 hne (by omega)
    rw [wlp, wp_bind] at hw
    refine hw.imp fun a u ha => ?_
    rw [wp_bind]
    refine ha.imp ?_
    rintro - t ⟨fr₁, T₁, hk₁, hb₁, hn₁⟩
    rw [htake] at hk₁
    have hsplit := missing_split (n := va.toNat + l.length) hk₁ (by omega) (by omega) (by omega) hpiece.2.2.2 hva
    refine (ih (h.keeps hk₁) (by omega) (by omega)).imp ?_
    rw [hnext, hdrop, show va.toNat + k + (l.length - k) = va.toNat + l.length by omega]
    rintro - u ⟨fr', T', hk₂, hb₂, hn₂⟩
    refine ⟨fr', T', (hk₁.mono le_rfl (by omega)).trans (hk₂.mono (by omega) le_rfl), fun i hi => ?_, ?_⟩
    · by_cases hik : i < k
      · have := (hb₁.keeps hk₂ (.inl (by omega)) (by omega)) i (by omega)
        rwa [List.getD_eq_getElem?_getD, List.getElem?_take_of_lt hik, ← List.getD_eq_getElem?_getD] at this
      · have := hb₂ (i - k) (by omega)
        rwa [show va.toNat + k + (i - k) = va.toNat + i by omega, List.getD_eq_getElem?_getD,
          List.getElem?_drop, show k + (i - k) = i by omega, ← List.getD_eq_getElem?_getD] at this
    · rw [hn₂, hn₁, hsplit, hvpn, or_assoc]

/-! ## One segment -/

variable {ph : ProgramHeader} {old sz : UInt64} {f : Bool} {M : ℕ → Prop}

/-- The size that `execve` keeps after `uvmalloc`. -/
def nextSize (old stop : UInt64) : UInt64 := UInt64.ofInt (intOf (if stop < old then old else stop))

theorem uvmalloc_fills {pd : ℕ} {stop : UInt64} (hd : PageDir v pd fr T) (htop : stop ≤ userTop) :
    wp (Paging.uvmalloc pd old stop) (fun r w => UInt64.ofInt r = nextSize old stop ∧ ∃ fr' T',
      Fills v pd fr T (pageUp old) (max (pageUp old) (pageUp stop)) w fr' T') NoPage v := by
  by_cases hlt : stop < old
  · have hmax : max (pageUp old) (pageUp stop) = pageUp old := max_eq_left (pageUp_le (UInt64.le_of_lt hlt))
    rw [Paging.uvmalloc, if_pos hlt, hmax, nextSize, if_pos hlt]
    exact wp_pure.mpr ⟨rfl, fr, T, Fills.refl hd⟩
  · have hle := UInt64.not_lt.mp hlt
    refine (uvmalloc_spec hd hle htop).imp ?_
    rintro - w ⟨rfl, hf⟩
    rw [max_eq_right (pageUp_le hle), nextSize, if_neg hlt]
    exact ⟨rfl, hf⟩

/-- `p_vaddr`, and `p_vaddr + p_memsz`. -/
def startOf (ph : ProgramHeader) : UInt64 := UInt64.ofNat ph.vaddr
def stopOf (ph : ProgramHeader) : UInt64 := startOf ph + UInt64.ofNat ph.memsz

theorem startOf_toNat (htop : ph.vaddr + ph.memsz ≤ 2 ^ 48) : (startOf ph).toNat = ph.vaddr := by
  rw [startOf, UInt64.toNat_ofNat']
  omega

theorem stopOf_toNat (htop : ph.vaddr + ph.memsz ≤ 2 ^ 48) : (stopOf ph).toNat = ph.vaddr + ph.memsz := by
  rw [stopOf, UInt64.toNat_add, startOf_toNat htop, UInt64.toNat_ofNat']
  omega

/-- A segment is loaded: its pages are mapped, and its bytes copied. -/
theorem loadSegment_wp {Q : Option UInt64 → State → Prop} (h : Loading m₀ F c pgdir s fr T) (hne : pgdir ≠ ttbr0)
    (htop : ph.vaddr + ph.memsz ≤ 2 ^ 48) (hold : old = if f then startOf ph else sz) (hnone : ∀ t, Q none t)
    (hcopy : ∀ v u fr₁ T₁ l, Fills s.vm pgdir fr T (pageUp old) (max (pageUp old) (pageUp (stopOf ph))) v fr₁ T₁ →
      readFile file ph.offset ph.filesz = some l → l.length = ph.filesz → ph.filesz ≤ ph.memsz →
      u.vm.heap = v.heap → Attached m₀ F c pgdir u fr₁ T₁ → u.nested = s.nested →
      wlp (copyToUser c l.length (startOf ph) l) (fun _ t => Q (some (nextSize old (stopOf ph))) t) u) :
    wlp (loadSegment c pgdir file ph sz f) Q s := by
  have hstop : stopOf ph ≤ userTop := by
    rw [UInt64.le_iff_toNat_le, stopOf_toNat htop]
    exact htop
  rw [loadSegment]
  refine wp.ite (fun _ => wp_pure.mpr (hnone s)) fun hsz => wp.ite (fun _ => wp_pure.mpr (hnone s)) fun _ => ?_
  rw [wp_bind, wp_memory]
  show wp (Paging.uvmalloc pgdir (if f then startOf ph else sz) (stopOf ph)) _ _ _
  rw [← hold]
  refine wp_mono (uvmalloc_fills h.image.dir hstop) ?_ fun _ _ _ => trivial
  rintro r v ⟨hr, fr₁, T₁, hf⟩
  rw [hr]
  refine wp.ite (fun _ => wp_pure.mpr (hnone _)) fun _ => ?_
  rw [wp_bind, wp_memory, wp_attachPgdir]
  have hatt : Attached m₀ F c pgdir { s with vm := { v with pt := Function.update v.pt ttbr0 (v.pt pgdir) } }
      fr₁ T₁ := by
    have hv : Loading m₀ F c pgdir { s with vm := v } fr₁ T₁ :=
      ⟨hf.image m₀ F h.image, hf.plain h.plain, by rw [hf.pt]; exact h.proc⟩
    refine ⟨hv.attach hne, ?_⟩
    dsimp only
    rw [Function.update_self, Function.update_of_ne hne]
  cases hl : readFile file ph.offset ph.filesz with
  | none => exact wp_throw.mpr trivial
  | some l =>
    dsimp only
    rw [wp_bind]
    by_cases hlen : l.length = ph.filesz
    · refine (hcopy v _ fr₁ T₁ l hf hl hlen (not_lt.mp hsz) rfl hatt rfl).imp fun _ t ht => ?_
      rw [if_neg (not_not.mpr hlen)]
      exact wp_pure.mpr ht
    · refine wp.always (fun _ t => ?_) fun _ _ => trivial
      rw [if_pos hlen]
      exact wp_pure.mpr (hnone t)

theorem pageAt_heap (h : w.heap = v.heap) : pageAt w T n = pageAt v T n := by
  rw [pageAt, pageAt, h]

/-- The bytes that are read, if they are as many as there should be. -/
theorem readFile_eq {offset count : ℕ} (hl : readFile file offset count = some l) (hlen : l.length = count) :
    l = (file.drop offset).take count := by
  obtain ⟨m, hm⟩ : ∃ m, (file.drop offset).take m = l := by
    rw [readFile] at hl
    split_ifs at hl
    · exact ⟨_, Option.some.inj hl⟩
    · exact ⟨_, Option.some.inj hl⟩
  subst hm
  rw [← hlen, List.length_take, ← List.take_take, List.take_length]

/-- What loading a segment does: the pages from `old` on are mapped, and the bytes are copied. -/
structure SegmentLoaded (m₀ : ℕ → UInt8) (F : Set ℕ) (c : Call) (pgdir : ℕ) (file : List UInt8) (ph : ProgramHeader)
    (old : UInt64) (s : State) (fr : List ℕ) (T : Tree) (t : State) (fr' : List ℕ) (T' : Tree) : Prop
    extends Loading m₀ F c pgdir t fr' T' where
  count : fr'.length + (pageUp (stopOf ph) - pageUp old) ≤ fr.length
  size : ph.filesz ≤ ph.memsz
  length : ((file.drop ph.offset).take ph.filesz).length = ph.filesz
  bytes : HasBytes t.vm T' ph.vaddr ((file.drop ph.offset).take ph.filesz)
  byte : ∀ k r, k < 2 ^ 48 → ¬ (pageUp old ≤ k / 2 ^ 12 ∧ k / 2 ^ 12 < pageUp (stopOf ph)) →
    ¬ (ph.vaddr ≤ k ∧ k < ph.vaddr + ph.filesz) → byteAt s.vm T k = some r → byteAt t.vm T' k = some r
  nested : t.nested = true ↔ s.nested = true ∨ ∃ k, ph.vaddr ≤ k ∧ k < ph.vaddr + ph.filesz ∧
    pageAt s.vm T (k / 2 ^ 12) = none ∧ ¬ (pageUp old ≤ k / 2 ^ 12 ∧ k / 2 ^ 12 < pageUp (stopOf ph))
  mapped : ∀ n < 2 ^ 36, pageAt t.vm T' n ≠ none ↔ pageAt s.vm T n ≠ none ∨
    (pageUp old ≤ n ∧ n < pageUp (stopOf ph)) ∨ ∃ k, ph.vaddr ≤ k ∧ k < ph.vaddr + ph.filesz ∧ k / 2 ^ 12 = n

theorem loadSegment_spec (h : Loading m₀ F c pgdir s fr T) (hne : pgdir ≠ ttbr0)
    (htop : ph.vaddr + ph.memsz ≤ 2 ^ 48) (hold : old = if f then startOf ph else sz) :
    wlp (loadSegment c pgdir file ph sz f) (fun r t => ∀ sz', r = some sz' → sz' = nextSize old (stopOf ph) ∧
      ∃ fr' T', SegmentLoaded m₀ F c pgdir file ph old s fr T t fr' T') s := by
  refine loadSegment_wp h hne htop hold (fun _ _ h => by cases h) ?_
  intro v u fr₁ T₁ l hf hl hlen hle hheap hatt hn
  have hstart := startOf_toNat htop
  have hpage : ∀ n, pageAt u.vm T₁ n = pageAt v T₁ n := fun n => pageAt_heap hheap
  have hbyte : ∀ k, byteAt u.vm T₁ k = byteAt v T₁ k := by
    intro k
    rw [byteAt, byteAt, hpage, hheap]
  have hin : ∀ n, pageUp old ≤ n ∧ n < pageUp (stopOf ph) → pageAt u.vm T₁ n ≠ none := by
    intro n h1
    obtain ⟨q, hq, -⟩ := hf.self n h1.1 (by omega)
    rw [hpage, hq]
    exact Option.some_ne_none q
  have hout : ∀ n < 2 ^ 36, ¬ (pageUp old ≤ n ∧ n < pageUp (stopOf ph)) → pageAt u.vm T₁ n = pageAt s.vm T n := by
    intro n h1 h2
    rw [hpage]
    exact hf.other n h1 (by omega)
  refine (copyToUser_spec hatt (by omega) le_rfl).imp ?_
  rintro - t ⟨fr', T', hk, hb, hn'⟩ sz' hsz
  rw [hstart, hlen] at hk hn'
  rw [hstart] at hb
  have heq := readFile_eq hl hlen
  have hcount := hf.count
  have hless : fr'.length ≤ fr₁.length := (hk.image.dir.free.pages.nodup.subperm hk.sub).length_le
  have hmiss : ∀ k, ph.vaddr ≤ k → k < ph.vaddr + ph.filesz → (pageAt u.vm T₁ (k / 2 ^ 12) = none ↔
      pageAt s.vm T (k / 2 ^ 12) = none ∧ ¬ (pageUp old ≤ k / 2 ^ 12 ∧ k / 2 ^ 12 < pageUp (stopOf ph))) := by
    intro k h1 h2
    by_cases hr : pageUp old ≤ k / 2 ^ 12 ∧ k / 2 ^ 12 < pageUp (stopOf ph)
    · exact iff_of_false (hin _ hr) fun h => h.2 hr
    · rw [hout _ (by omega) hr]
      exact (and_iff_left hr).symm
  refine ⟨(Option.some.inj hsz).symm, fr', T', hatt.toLoading.keeps hk, by omega, hle, heq ▸ hlen, heq ▸ hb, ?_,
    ?_, ?_⟩
  · intro k r h48 h1 h2 hr
    refine hk.byte k r h48 h2 ?_
    rw [hbyte, hf.byte m₀ F h.image k h48 (by omega)]
    exact hr
  · rw [hn', hn]
    refine or_congr Iff.rfl (exists_congr fun k => and_congr_right fun h1 => and_congr_right fun h2 => hmiss k h1 h2)
  · intro n h36
    constructor
    · intro hsome
      obtain ⟨q, hq⟩ := Option.ne_none_iff_exists'.mp hsome
      by_cases hr : pageUp old ≤ n ∧ n < pageUp (stopOf ph)
      · exact .inr (.inl hr)
      · by_cases hnone : pageAt s.vm T n = none
        · exact .inr (.inr (hk.fresh n q h36 ((hout n h36 hr).trans hnone) hq).2)
        · exact .inl hnone
    · have hkept : pageAt u.vm T₁ n ≠ none → pageAt t.vm T' n ≠ none := by
        intro hsome
        obtain ⟨q, hq⟩ := Option.ne_none_iff_exists'.mp hsome
        rw [hk.pageAt h36 hq]
        exact Option.some_ne_none q
      rintro (hsome | hr | ⟨k, h1, h2, rfl⟩)
      · by_cases hr : pageUp old ≤ n ∧ n < pageUp (stopOf ph)
        · exact hkept (hin n hr)
        · refine hkept ?_
          rwa [hout n h36 hr]
      · exact hkept (hin n hr)
      · intro hnone
        have := hb (k - ph.vaddr) (by omega)
        rw [show ph.vaddr + (k - ph.vaddr) = k by omega, byteAt, hnone] at this
        cases this

/-! ## All segments -/

/-- The headers that are `PT_LOAD` among the `n` from `off` on. -/
def segmentsFrom (file : List UInt8) : ℕ → UInt64 → List ProgramHeader
  | 0, _ => []
  | n + 1, off =>
    match readFile file off.toNat programHeaderSize with
    | none => []
    | some bytes =>
      let ph := ProgramHeader.decode bytes
      if ph.type = ptLoad then ph :: segmentsFrom file n (off + 56) else segmentsFrom file n (off + 56)

/-- The segments of a file. -/
def segments (file : List UInt8) : List ProgramHeader :=
  match readFile file 0 elfHeaderSize with
  | none => []
  | some bytes => segmentsFrom file (ElfHeader.decode bytes).phnum (UInt64.ofNat (ElfHeader.decode bytes).phoff)

/-- The loop over the segments, by its rule for one of them. -/
theorem loadSegments_wp {off : UInt64} {Q : Bool → State → Prop}
    (I : List ProgramHeader → UInt64 → Bool → State → Prop) (hfalse : ∀ t, Q false t)
    (hnil : ∀ sz f t, I [] sz f t → Q true t)
    (hstep : ∀ ph phs sz f t, I (ph :: phs) sz f t → wlp (loadSegment c pgdir file ph sz f)
      (fun r u => ∀ sz', r = some sz' → I phs sz' false u) t)
    (h : I (segmentsFrom file n off) sz f s) : wlp (loadSegments c pgdir file n off sz f) Q s := by
  induction n generalizing off sz f s with
  | zero => exact wp_pure.mpr (hnil sz f s h)
  | succ n ih =>
    rw [segmentsFrom] at h
    rw [loadSegments]
    cases hb : readFile file off.toNat programHeaderSize with
    | none => exact wp_throw.mpr trivial
    | some bytes =>
      rw [hb] at h
      dsimp only at h ⊢
      refine wp.ite (fun _ => wp_pure.mpr (hfalse s)) fun _ => wp.ite (fun ht => ?_) fun ht => ?_
      · rw [if_neg ht] at h
        exact ih h
      · rw [if_pos (not_not.mp ht)] at h
        rw [wp_bind]
        refine (hstep _ _ _ _ _ h).imp fun r u hu => ?_
        cases r with
        | none => exact wp_pure.mpr (hfalse u)
        | some sz' => exact ih (hu sz' rfl)

/-! ## Segments that are in place -/

/-- When the bytes of a segment are read, `uvmalloc` has mapped all the pages that they go to. The pages
    `M` are mapped so far, and `sz` is the size, if there is one. -/
def InPlace : Option UInt64 → (ℕ → Prop) → List ProgramHeader → Prop
  | _, _, [] => True
  | sz, M, ph :: phs =>
    let old := sz.getD (startOf ph)
    let M' := fun n => M n ∨ (pageUp old ≤ n ∧ n < pageUp (stopOf ph))
    (∀ k, ph.vaddr ≤ k → k < ph.vaddr + ph.filesz → M' (k / 2 ^ 12)) ∧
      InPlace (some (nextSize old (stopOf ph))) M' phs

/-- The pages `M` are mapped, and no fault was taken. -/
structure Unfaulted (m₀ : ℕ → UInt8) (F : Set ℕ) (c : Call) (pgdir : ℕ) (M : ℕ → Prop) (s : State) (fr : List ℕ)
    (T : Tree) : Prop extends Loading m₀ F c pgdir s fr T where
  mapped : ∀ n < 2 ^ 36, pageAt s.vm T n ≠ none ↔ M n
  unfaulted : s.nested = false

/-- A segment that is in place is loaded without a fault, and one that is not faults. -/
theorem Unfaulted.next (h : Unfaulted m₀ F c pgdir M s fr T)
    (ht : SegmentLoaded m₀ F c pgdir file ph old s fr T t fr' T') (htop : ph.vaddr + ph.memsz ≤ 2 ^ 48)
    (hsize : ph.filesz ≤ ph.memsz) {M' : ℕ → Prop}
    (hM' : ∀ n, M' n ↔ M n ∨ (pageUp old ≤ n ∧ n < pageUp (stopOf ph))) :
    (∀ k, ph.vaddr ≤ k → k < ph.vaddr + ph.filesz → M' (k / 2 ^ 12)) ∧ Unfaulted m₀ F c pgdir M' t fr' T' ∨
      (¬ ∀ k, ph.vaddr ≤ k → k < ph.vaddr + ph.filesz → M' (k / 2 ^ 12)) ∧ t.nested = true := by
  by_cases hall : ∀ k, ph.vaddr ≤ k → k < ph.vaddr + ph.filesz → M' (k / 2 ^ 12)
  · refine .inl ⟨hall, ht.toLoading, fun n hn => ?_, ?_⟩
    · rw [ht.mapped n hn, h.mapped n hn, ← or_assoc, ← hM']
      refine or_iff_left_of_imp ?_
      rintro ⟨k, h1, h2, rfl⟩
      exact hall k h1 h2
    · rw [← Bool.not_eq_true, ht.nested, h.unfaulted]
      rintro (hn | ⟨k, h1, h2, hnone, hout⟩)
      · exact Bool.false_ne_true hn
      · rcases (hM' _).mp (hall k h1 h2) with hm | hm
        · exact (h.mapped _ (by omega)).mpr hm hnone
        · exact hout hm
  · refine .inr ⟨hall, ht.nested.mpr (.inr ?_)⟩
    push Not at hall
    obtain ⟨k, h1, h2, hk⟩ := hall
    rw [hM', not_or, ← h.mapped _ (by omega), not_not] at hk
    exact ⟨k, h1, h2, hk⟩

/-- The segments are loaded without a fault if, and only if, they are in place. -/
theorem loadSegments_inPlace {off : UInt64} (h : Unfaulted m₀ F c pgdir M s fr T) (hne : pgdir ≠ ttbr0)
    (htop : ∀ ph ∈ segmentsFrom file n off, ph.vaddr + ph.memsz ≤ 2 ^ 48) :
    wlp (loadSegments c pgdir file n off 0 true) (fun r t => r = true →
      (t.nested = false ↔ InPlace none M (segmentsFrom file n off)) ∧ ∃ fr' T', Loading m₀ F c pgdir t fr' T') s := by
  obtain ⟨P, hP⟩ : ∃ P, P = InPlace none M (segmentsFrom file n off) := ⟨_, rfl⟩
  rw [← hP]
  -- `P` depends on the segments that are left, until there is a fault.
  let I (phs : List ProgramHeader) (sz : UInt64) (f : Bool) (t : State) : Prop :=
    (∀ ph ∈ phs, ph.vaddr + ph.memsz ≤ 2 ^ 48) ∧ ((∃ fr' T' M', Unfaulted m₀ F c pgdir M' t fr' T' ∧
      (P ↔ InPlace (if f then none else some sz) M' phs)) ∨
      ¬ P ∧ t.nested = true ∧ ∃ fr' T', Loading m₀ F c pgdir t fr' T')
  refine loadSegments_wp I (fun t h => by cases h) ?_ ?_ ⟨htop, .inl ⟨fr, T, M, h, by rw [hP]; rfl⟩⟩
  · rintro sz f t ⟨-, ⟨fr', T', M', ht, hiff⟩ | ⟨hnot, hn, hl⟩⟩ -
    · exact ⟨iff_of_true ht.unfaulted (hiff.mpr trivial), fr', T', ht.toLoading⟩
    · refine ⟨iff_of_false (fun hf => ?_) hnot, hl⟩
      rw [hn] at hf
      cases hf
  · rintro ph phs sz f t ⟨htop, hcase⟩
    obtain ⟨hph, htop⟩ := List.forall_mem_cons.mp htop
    rcases hcase with ⟨fr', T', M', ht, hiff⟩ | ⟨hnot, hn, fr', T', hl⟩
    · have hold : (if f then none else some sz).getD (startOf ph) = if f then startOf ph else sz := by
        cases f with
        | true => rfl
        | false => rfl
      refine (loadSegment_spec ht.toLoading hne hph hold).imp ?_
      rintro r u hu sz' rfl
      obtain ⟨rfl, fr'', T'', hu⟩ := hu sz' rfl
      rcases ht.next hu hph hu.size (fun _ => Iff.rfl) with ⟨hall, hnext⟩ | ⟨hall, hn⟩
      · exact ⟨htop, .inl ⟨fr'', T'', _, hnext, hiff.trans (and_iff_right hall)⟩⟩
      · exact ⟨htop, .inr ⟨fun hp => hall (hiff.mp hp).1, hn, fr'', T'', hu.toLoading⟩⟩
    · refine (loadSegment_spec hl hne hph rfl).imp ?_
      rintro r u hu sz' rfl
      obtain ⟨-, fr'', T'', hu⟩ := hu sz' rfl
      exact ⟨htop, .inr ⟨hnot, hu.nested.mpr (.inl hn), fr'', T'', hu.toLoading⟩⟩

end ShikiOS.Kernel.Exec
