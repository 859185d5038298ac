import ShikiOS.Kernel.AddressSpace

/-!
# Copying an address space (`uvmcopy`)

Four nested loops visit the pages of the parent by their numbers, in ascending order. `Copying` says
that the child has copies of the pages with numbers below `k`.

Results:
* `copyPage_spec`, `copyLoops_spec`: the loops copy the pages of their range.
* `uvmcopy_copies`: what the child maps, that the parent keeps what it had, and that no write of one
  reaches what the other reads.
-/

namespace ShikiOS.Kernel.Paging

open ShikiOS.Lib

variable {s t : Vm} {h : Heap} {fr fr' : List ℕ} {T T' : Tree} {pd newpd n m k k' x q a N : ℕ}
  {va pte : UInt64} {p : List ℕ}

/-- The child maps copies of the pages of the parent with numbers below `k`. The parent is as in `s`. -/
structure Copying (s : Vm) (pd : ℕ) (fr : List ℕ) (T : Tree) (newpd k : ℕ) (t : Vm) (fr' : List ℕ)
    (T' : Tree) : Prop where
  dir : PageDir t newpd fr' T'
  sub : fr' ⊆ fr
  mem : ∀ x, pageBase x ∉ fr → t.heap.mem x = s.heap.mem x
  pt : ∀ d, d ≠ newpd → t.pt d = s.pt d
  table : ∀ p a, T' p = some a → a ∈ fr
  page : ∀ n q, n < 2 ^ 36 → pageAt t T' n = some q → q ∈ fr ∧ q ∉ fr' ∧ ∀ p, T' p ≠ some q
  inj : ∀ n m q, n < 2 ^ 36 → m < 2 ^ 36 → pageAt t T' n = some q → pageAt t T' m = some q → n = m
  dom : ∀ n, n < 2 ^ 36 → (pageAt t T' n ≠ none ↔ n < k ∧ pageAt s T n ≠ none)
  bytes : ∀ n q a, n < 2 ^ 36 → pageAt t T' n = some q → pageAt s T n = some a →
    ∀ o < pageSize, t.heap.mem (q + o) = s.heap.mem (a + o)

/-- Pages that the parent does not map are passed over. -/
theorem Copying.skip (hc : Copying s pd fr T newpd k t fr' T') (hk : k ≤ k')
    (hnone : ∀ n, k ≤ n → n < k' → pageAt s T n = none) :
    Copying s pd fr T newpd k' t fr' T' := by
  refine { hc with dom := fun n hn => ?_ }
  rw [hc.dom n hn]
  constructor
  · rintro ⟨h1, h2⟩
    exact ⟨by omega, h2⟩
  · rintro ⟨h1, h2⟩
    refine ⟨?_, h2⟩
    by_contra hle
    exact h2 (hnone n (by omega) h1)

/-! ## One page -/

theorem mem_movePage {dst src y : ℕ} (hd : pageSize ∣ dst) (hy : pageBase y ≠ dst) :
    (h.movePage dst src).mem y = h.mem y :=
  if_neg fun hin => hy (pageBase_eq hd hin.1 hin.2)

theorem mem_movePage_self {dst src o : ℕ} (ho : o < pageSize) :
    (h.movePage dst src).mem (dst + o) = h.mem (src + o) := by
  show (if _ then _ else _) = _
  rw [if_pos ⟨by omega, by omega⟩, Nat.add_sub_cancel_left]

/-- The page with number `k` is copied. -/
theorem copyPage_spec (hc : Copying s pd fr T newpd k t fr' T') (hk : vpn va = k)
    (ha : pageAt s T k = some a) (hused : a ∉ fr) :
    wp (copyPage newpd va a) (fun _ u => ∃ fr'' T'', Copying s pd fr T newpd (k + 1) u fr'' T'')
      NoPage t := by
  have hk36 : k < 2 ^ 36 := hk ▸ vpn_lt
  rw [copyPage, wp_bind]
  refine (kallocPage_dir hc.dir).imp ?_
  rintro q t₁ ⟨fr₁, rfl, hdir₁, hpt₁, -, -, hmem₁⟩
  have hq : KernelPage q := hc.dir.free.kernelPage List.mem_cons_self
  have hqnd : q ∉ fr₁ := (List.nodup_cons.mp hc.dir.free.pages.nodup).1
  have hqT : ∀ p, T' p ≠ some q := fun p hp => hc.dir.tables.used p q hp List.mem_cons_self
  have hqfr : q ∈ fr := hc.sub List.mem_cons_self
  rw [wp_bind, wp_movePage]
  -- What was not free is as before but for the page `q`, which holds the bytes of `a`.
  have hmem₂ : ∀ y, pageBase y ∉ q :: fr₁ → (t₁.heap.movePage q a).mem y = t.heap.mem y := by
    intro y hy
    rw [List.mem_cons, not_or] at hy
    rw [mem_movePage hq.aligned hy.1, hmem₁ y hy.2]
  have hdir₂ : PageDir { t₁ with heap := t₁.heap.movePage q a } newpd fr₁ T' := by
    refine hdir₁.frame ?_ (List.Subset.refl fr₁) rfl fun y p _ hT => mem_movePage hq.aligned ?_
    · refine hdir₁.free.frame rfl rfl fun y hy => mem_movePage hq.aligned ?_
      rintro rfl
      exact hqnd hy
    · rintro rfl
      exact hqT p hT
  have hat : ∀ m, pageAt { t₁ with heap := t₁.heap.movePage q a } T' m = pageAt t T' m := fun m =>
    pageAt_frame hc.dir.tables m fun y p hT => hmem₂ y (hc.dir.tables.used p _ hT)
  refine (setPte_spec hdir₂).imp ?_
  rintro - u ⟨fr'', T'', hs⟩
  rw [hk] at hs
  have hsub : fr'' ⊆ fr₁ := hs.suffix.subset
  have hself : pageAt u T'' k = some q := by rw [hs.self, if_pos valid_user, pageOf_user hq]
  have hother : ∀ m, m < 2 ^ 36 → m ≠ k → pageAt u T'' m = pageAt t T' m := fun m hm hne => by
    rw [hs.other m hm hne, hat]
  have hcase : ∀ m b, m < 2 ^ 36 → pageAt u T'' m = some b →
      (m = k ∧ b = q) ∨ (m ≠ k ∧ pageAt t T' m = some b) := by
    intro m b hm hb
    by_cases hmk : m = k
    · rw [hmk, hself] at hb
      exact .inl ⟨hmk, (Option.some.inj hb).symm⟩
    · rw [hother m hm hmk] at hb
      exact .inr ⟨hmk, hb⟩
  -- The pages that the child had are neither `q` nor free.
  have hold : ∀ m b, m < 2 ^ 36 → pageAt t T' m = some b → b ≠ q ∧ b ∉ fr₁ := by
    intro m b hm hb
    have := (hc.page m b hm hb).2.1
    rwa [List.mem_cons, not_or] at this
  refine ⟨fr'', T'', hs.dir, ?_, ?_, ?_, ?_, ?_, ?_, ?_, ?_⟩
  · exact fun b hb => hc.sub (List.mem_cons_of_mem q (hsub hb))
  · intro y hy
    have hnf : pageBase y ∉ q :: fr₁ := fun hm => hy (hc.sub hm)
    rw [hs.mem y (fun hm => hnf (List.mem_cons_of_mem q hm)) fun p hT => hy (hc.table p _ hT)]
    exact (hmem₂ y hnf).trans (hc.mem y hy)
  · intro d hd
    rw [hs.pt]
    exact (congrFun hpt₁ d).trans (hc.pt d hd)
  · intro p b hb
    rcases hs.table p b hb with hb | hb
    · exact hc.table p b hb
    · exact hc.sub (List.mem_cons_of_mem q hb)
  · intro m b hm hb
    rcases hcase m b hm hb with ⟨-, rfl⟩ | ⟨-, hb⟩
    · refine ⟨hqfr, fun hf => hqnd (hsub hf), fun p hT => ?_⟩
      exact (hs.table p b hT).elim (hqT p) hqnd
    · obtain ⟨h1, h2, h3⟩ := hc.page m b hm hb
      refine ⟨h1, fun hf => h2 (List.mem_cons_of_mem q (hsub hf)), fun p hT => ?_⟩
      exact (hs.table p b hT).elim (h3 p) fun hf => h2 (List.mem_cons_of_mem q hf)
  · intro m m' b hm hm' hb hb'
    rcases hcase m b hm hb with ⟨rfl, rfl⟩ | ⟨-, hb⟩ <;>
      rcases hcase m' b hm' hb' with ⟨rfl, hbq⟩ | ⟨-, hb'⟩
    · rfl
    · exact absurd rfl (hold m' b hm' hb').1
    · exact absurd hbq (hold m b hm hb).1
    · exact hc.inj m m' b hm hm' hb hb'
  · intro m hm
    by_cases hmk : m = k
    · subst hmk
      rw [hself, ha]
      simp
    · rw [hother m hm hmk, hc.dom m hm]
      refine and_congr_left' ?_
      omega
  · intro m b c hm hb hac o ho
    have hbase : pageBase (b + o) = b := pageBase_add (pageAt_dvd hb) ho
    rcases hcase m b hm hb with ⟨rfl, rfl⟩ | ⟨-, hb⟩
    · rw [ha] at hac
      cases hac
      have hbase' : pageBase (a + o) = a := pageBase_add (pageAt_dvd ha) ho
      rw [hs.mem _ (by rwa [hbase]) (by rwa [hbase]), ← hc.mem _ (by rwa [hbase'])]
      refine (mem_movePage_self ho).trans (hmem₁ _ ?_)
      rw [hbase']
      exact fun hf => hused (hc.sub (List.mem_cons_of_mem b hf))
    · obtain ⟨-, hbf, hbT⟩ := hc.page m b hm hb
      rw [hs.mem _ (by rw [hbase]; exact (hold m b hm hb).2) (by rwa [hbase]),
        ← hc.bytes m b c hm hb hac o ho]
      exact hmem₂ _ (by rwa [hbase])

/-! ## The loops -/

/-- The path to the table with the number `N` among those of its level. -/
def pathOf : ℕ → ℕ → List ℕ
  | 0, _ => []
  | l + 1, N => N % 2 ^ 9 :: pathOf l (N / 2 ^ 9)

/-- `a` is the table with number `N` over `n` levels, or the page with this number if `n = 0`. -/
def Leads (s : Vm) (T : Tree) : ℕ → ℕ → ℕ → Prop
  | 0, N, a => pageAt s T N = some a
  | n + 1, N, a => T (pathOf (3 - n) N) = some a

theorem pathOf_three (n : ℕ) : pathOf 3 (n / 2 ^ 9) = tablePath n := by
  simp only [pathOf, tablePath, Nat.div_div_eq_div_mul]
  rfl

/-- The path of a table goes through the tables above it. -/
theorem pathOf_append (l i N : ℕ) : pathOf i N ++ pathOf l (N / 2 ^ (9 * i)) = pathOf (i + l) N := by
  induction i generalizing N with
  | zero => simp [pathOf]
  | succ i ih =>
    rw [pathOf, List.cons_append, Nat.succ_add, pathOf, ← ih (N / 2 ^ 9), Nat.div_div_eq_div_mul,
      ← pow_add, show 9 + 9 * i = 9 * (i + 1) by ring]

theorem length_pathOf (l N : ℕ) : (pathOf l N).length = l := by
  induction l generalizing N with
  | zero => rfl
  | succ l ih => rw [pathOf, List.length_cons, ih]

theorem pathOf_child {l i : ℕ} (hi : i < nPtePerTable) :
    pathOf (l + 1) (N * 2 ^ 9 + i) = i :: pathOf l N := by
  unfold nPtePerTable at hi
  rw [pathOf, show (N * 2 ^ 9 + i) % 2 ^ 9 = i by omega, show (N * 2 ^ 9 + i) / 2 ^ 9 = N by omega]

/-- The entry `i` of a table of the last level. -/
theorem slotOf_leaf {i : ℕ} (ha : T (pathOf 3 N) = some a) (hi : i < nPtePerTable) :
    slotOf T (N * 2 ^ 9 + i) = some (entryAddr a i) := by
  unfold nPtePerTable at hi
  refine slotOf_eq_some.mpr ⟨a, ?_, ?_⟩
  · rw [← pathOf_three, show (N * 2 ^ 9 + i) / 2 ^ 9 = N by omega, ha]
  · rw [show (N * 2 ^ 9 + i) % 2 ^ 9 = i by omega]

/-- The entry `i` of an upper table. -/
theorem word_upper (ht : Tables s.heap fr T) (ha : T (pathOf (2 - n) N) = some a) (hn : n ≤ 2)
    {i : ℕ} (hi : i < nPtePerTable) :
    s.heap.word (entryAddr a i) = tableEntry (T (pathOf (3 - n) (N * 2 ^ 9 + i))) := by
  rw [show 3 - n = 2 - n + 1 by omega, pathOf_child hi]
  exact ht.entry _ a i ha (by rw [length_pathOf]; omega) hi

/-- What the entry `i` of a table leads to. -/
theorem leads_entry (ht : Tables s.heap fr T) (ha : Leads s T (n + 1) N a) (hn : n ≤ 3) {i : ℕ}
    (hi : i < nPtePerTable) (hv : Valid (s.heap.word (entryAddr a i))) :
    Leads s T n (N * 2 ^ 9 + i) (pageOf (s.heap.word (entryAddr a i))) := by
  cases n with
  | zero => exact pageAt_eq_some.mpr ⟨_, slotOf_leaf ha hi, hv, rfl⟩
  | succ n =>
    rw [Leads, show 3 - (n + 1) = 2 - n by omega] at ha
    have hw := word_upper ht ha (by omega) hi
    rw [hw] at hv ⊢
    cases hc : T (pathOf (3 - n) (N * 2 ^ 9 + i)) with
    | none =>
      rw [hc] at hv
      exact absurd hv not_valid_tableEntry
    | some c => rw [Leads, hc, pageOf_tableEntry (ht.page _ c hc)]

/-- No page is behind an entry that is not valid. -/
theorem pageAt_entry (ht : Tables s.heap fr T) (ha : Leads s T (n + 1) N a) (hn : n ≤ 3) {i : ℕ}
    (hi : i < nPtePerTable) (hv : ¬ Valid (s.heap.word (entryAddr a i)))
    (hm : m / 2 ^ (9 * n) = N * 2 ^ 9 + i) : pageAt s T m = none := by
  cases n with
  | zero =>
    rw [Nat.mul_zero, pow_zero, Nat.div_one] at hm
    rw [hm, pageAt_of_slot (slotOf_leaf ha hi), if_neg hv]
  | succ n =>
    rw [Leads, show 3 - (n + 1) = 2 - n by omega] at ha
    have hw := word_upper ht ha (by omega) hi
    have hnone : T (pathOf (3 - n) (N * 2 ^ 9 + i)) = none := by
      cases hc : T (pathOf (3 - n) (N * 2 ^ 9 + i)) with
      | none => rfl
      | some c =>
        rw [hw, hc] at hv
        exact absurd valid_tableEntry hv
    have hpath : tablePath m = pathOf n (m / 2 ^ 9) ++ pathOf (3 - n) (N * 2 ^ 9 + i) := by
      rw [← hm, show 9 * (n + 1) = 9 + 9 * n by ring, pow_add, ← Nat.div_div_eq_div_mul,
        pathOf_append, ← pathOf_three, show n + (3 - n) = 3 by omega]
    refine pageAt_of_none ?_
    rw [slotOf, hpath, ht.below hnone, Option.map_none]

/-- The address of the entry `i` is put together from its parts. -/
theorem va_entry {i : ℕ} (hi : i < nPtePerTable) (hn : n ≤ 3)
    (hva : va.toNat = N * 2 ^ (12 + 9 * (n + 1))) :
    (va ||| UInt64.ofNat i <<< UInt64.ofNat (12 + 9 * n)).toNat =
      (N * 2 ^ 9 + i) * 2 ^ (12 + 9 * n) := by
  have hi' : i < 2 ^ 9 := hi
  have hshift : (UInt64.ofNat (12 + 9 * n)).toNat % 64 = 12 + 9 * n := by
    rw [UInt64.toNat_ofNat_of_lt' (by rw [UInt64.size]; omega)]
    omega
  have hlow : i * 2 ^ (12 + 9 * n) < 2 ^ (12 + 9 * (n + 1)) := by
    rw [show 12 + 9 * (n + 1) = 9 + (12 + 9 * n) by ring, pow_add 2 9]
    exact Nat.mul_lt_mul_of_pos_right hi' (Nat.two_pow_pos _)
  have hmod : i * 2 ^ (12 + 9 * n) < 2 ^ 64 :=
    hlow.trans_le (Nat.pow_le_pow_right (by omega) (by omega))
  rw [UInt64.toNat_or, UInt64.toNat_shiftLeft, hshift,
    UInt64.toNat_ofNat_of_lt' (by rw [UInt64.size]; omega), Nat.shiftLeft_eq, Nat.mod_eq_of_lt hmod, hva, mul_comm N, ← Nat.two_pow_add_eq_or_of_lt hlow,
    show 12 + 9 * (n + 1) = 9 + (12 + 9 * n) by ring, pow_add]
  ring

/-- The loops copy the pages of their range. -/
theorem copyLoops_spec (ht : Tables s.heap fr T)
    (hused : ∀ n q, n < 2 ^ 36 → pageAt s T n = some q → q ∉ fr)
    (hc : Copying s pd fr T newpd (N * 2 ^ (9 * n)) t fr' T') (hn : n ≤ 4)
    (hN : N < 2 ^ (9 * (4 - n))) (hva : va.toNat = N * 2 ^ (12 + 9 * n)) (ha : Leads s T n N a) :
    wp (copyLoops newpd n va a) (fun _ u => ∃ fr'' T'',
      Copying s pd fr T newpd ((N + 1) * 2 ^ (9 * n)) u fr'' T'') NoPage t := by
  induction n generalizing N va a t fr' T' with
  | zero =>
    rw [Nat.mul_zero, pow_zero, Nat.mul_one] at hc ⊢
    have hvpn : vpn va = N := by
      rw [vpn, hva]
      omega
    exact copyPage_spec hc hvpn ha (hused N a (by omega) ha)
  | succ n ih =>
    rw [copyLoops]
    have hfirst : N * 2 ^ (9 * (n + 1)) = (N * 2 ^ 9 + 0) * 2 ^ (9 * n) := by ring
    have hlast : (N + 1) * 2 ^ (9 * (n + 1)) = (N * 2 ^ 9 + (0 + nPtePerTable)) * 2 ^ (9 * n) := by
      rw [nPtePerTable]
      ring
    rw [hfirst] at hc
    rw [hlast]
    refine wp_forN (fun i u => ∃ fr'' T'',
      Copying s pd fr T newpd ((N * 2 ^ 9 + i) * 2 ^ (9 * n)) u fr'' T'') ⟨fr', T', hc⟩ ?_
    rintro i u - hi ⟨fr₁, T₁, hu⟩
    have hi' : i < nPtePerTable := by omega
    have hw : u.heap.word (entryAddr a i) = s.heap.word (entryAddr a i) := by
      refine word_entry_congr (ht.page _ a ha).aligned hi' fun x hx => hu.mem x ?_
      rw [hx]
      exact ht.used _ a ha
    rw [wp_bind, wp_load, hw]
    by_cases hv : Valid (s.heap.word (entryAddr a i))
    · rw [if_pos hv]
      have hsum : N * 2 ^ 9 + i + 1 = N * 2 ^ 9 + (i + 1) := add_assoc _ _ _
      rw [← hsum]
      refine ih (N := N * 2 ^ 9 + i) hu (by omega) ?_ (va_entry hi' (by omega) hva)
        (leads_entry ht ha (by omega) hi' hv)
      rw [show 9 * (4 - n) = 9 * (4 - (n + 1)) + 9 by omega, pow_add]
      unfold nPtePerTable at hi'
      omega
    · rw [if_neg hv, wp_pure]
      refine ⟨fr₁, T₁, hu.skip (Nat.mul_le_mul_right _ (by omega)) fun m h1 h2 => ?_⟩
      refine pageAt_entry ht ha (by omega) hi' hv ?_
      exact Nat.div_eq_of_lt_le h1 (by rwa [add_assoc])

/-! ## `uvmcopy` -/

/-- After `init_pgdir` the child maps nothing. -/
theorem copying_start (hd : PageDir s pd fr T) (hne : pd ≠ newpd) :
    wp (initPgdir newpd) (fun _ t => t.pt pd = s.pt pd ∧
      ∃ fr' T', Copying s pd fr T newpd 0 t fr' T') NoPage s := by
  refine (initPgdir_spec hd.free).imp ?_
  rintro - t ⟨q, fr', rfl, hdir, hpt, -, -, hmem⟩
  have hnone : ∀ n, pageAt t (rootTree q) n = none := fun n => pageAt_of_none slotOf_rootTree
  refine ⟨by rw [hpt, Function.update_of_ne hne], fr', rootTree q, hdir, List.subset_cons_self q fr',
    hmem, fun d hd => by rw [hpt, Function.update_of_ne hd], fun p a ha => ?_, fun n b _ hb => ?_,
    fun n m b _ _ hb _ => ?_, fun n _ => ?_, fun n b a _ hb _ => ?_⟩
  · rw [(rootTree_eq_some ha).2]
    exact List.mem_cons_self
  · rw [hnone] at hb
    cases hb
  · rw [hnone] at hb
    cases hb
  · rw [hnone]
    exact iff_of_false (fun h => h rfl) fun h => absurd h.1 (Nat.not_lt_zero n)
  · rw [hnone] at hb
    cases hb

/-- All pages of the parent are copied. -/
theorem uvmcopy_spec (hd : PageDir s pd fr T) (hne : pd ≠ newpd) (hnew : newpd ≠ 0)
    (hused : ∀ n q, n < 2 ^ 36 → pageAt s T n = some q → q ∉ fr) :
    wp (uvmcopy pd newpd) (fun r t => r = newpd ∧ t.pt pd = s.pt pd ∧
      ∃ fr' T', Copying s pd fr T newpd (2 ^ 36) t fr' T') NoPage s := by
  rw [uvmcopy, if_neg hnew, wp_bind]
  refine (copying_start hd hne).imp ?_
  rintro - t ⟨hpt, fr', T', hc⟩
  rw [wp_bind, wp_get, hpt, wp_bind]
  have hroot : Leads s T 4 0 (s.pt pd) := hd.root
  have hstart : Copying s pd fr T newpd (0 * 2 ^ (9 * 4)) t fr' T' := by rwa [Nat.zero_mul]
  refine (copyLoops_spec hd.tables hused hstart le_rfl (by decide) (by decide) hroot).imp ?_
  rintro - u ⟨fr'', T'', hu⟩
  rw [wp_pure]
  exact ⟨rfl, hu.pt pd hne, fr'', T'', hu⟩

/-! ## Who reads and writes what -/

/-- A page of an address space: one of its tables, or a page that it maps. -/
def Owns (s : Vm) (pd : ℕ) (T : Tree) (q : ℕ) : Prop :=
  (∃ p, T p = some q) ∨ ∃ va a, translate s pd va = some a ∧ pageBase a = q

/-- A byte that the parent or the child writes. -/
structure Write where
  child : Bool
  va : UInt64
  byte : UInt8

/-- Memory after a sequence of writes, each through the mapping that its process has in `t`. -/
def writeAll (t : Vm) (dir : Bool → ℕ) : List Write → (ℕ → UInt8) → ℕ → UInt8
  | [], mem => mem
  | w :: ws, mem => writeAll t dir ws <|
      match translate t (dir w.child) w.va with
      | none => mem
      | some a => Function.update mem a w.byte

/-- Writes of the other process that do not reach the byte at `y` can be left out. -/
theorem writeAll_filter {dir : Bool → ℕ} {who : Bool} {y : ℕ} {ws : List Write}
    (hother : ∀ va, translate t (dir !who) va ≠ some y) {mem mem' : ℕ → UInt8}
    (hmem : mem y = mem' y) :
    writeAll t dir ws mem y = writeAll t dir (ws.filter fun w => w.child = who) mem' y := by
  induction ws generalizing mem mem' with
  | nil => exact hmem
  | cons w ws ih =>
    by_cases hw : w.child = who
    · rw [List.filter_cons_of_pos (by simpa using hw), writeAll, writeAll]
      apply ih
      cases translate t (dir w.child) w.va with
      | none => exact hmem
      | some a =>
        dsimp only
        by_cases hy : y = a
        · rw [hy, Function.update_self, Function.update_self]
        · rw [Function.update_of_ne hy, Function.update_of_ne hy, hmem]
    · rw [List.filter_cons_of_neg (by simpa using hw), writeAll]
      apply ih
      have hdir : w.child = !who := by
        cases hc : w.child <;> cases who <;> simp_all
      cases ht : translate t (dir w.child) w.va with
      | none => exact hmem
      | some a =>
        dsimp only
        rw [Function.update_of_ne, hmem]
        rintro rfl
        rw [hdir] at ht
        exact hother w.va ht

/-- The page directories of the two processes. -/
def dirs (pd newpd : ℕ) (child : Bool) : ℕ := if child then newpd else pd

/-- What a copy of an address space should be: the child maps the same addresses as the parent, to
    pages of its own that hold the same bytes; the parent keeps its tables and pages. After any
    writes of both each of the two finds in its tables and pages what it would find after its own
    writes alone. -/
structure Copied (s : Vm) (pd : ℕ) (T : Tree) (newpd : ℕ) (t : Vm) (T' : Tree) : Prop where
  maps : ∀ va, translate t newpd va = none ↔ translate s pd va = none
  bytes : ∀ va a b, translate s pd va = some a → translate t newpd va = some b →
    t.heap.mem b = s.heap.mem a
  distinct : ∀ va va' b b', va.toNat < 2 ^ 48 → va'.toNat < 2 ^ 48 →
    translate t newpd va = some b → translate t newpd va' = some b' →
    pageBase b = pageBase b' → va >>> 12 = va' >>> 12
  fresh : ∀ va b, translate t newpd va = some b → ¬ Owns s pd T (pageBase b)
  mapping : ∀ va, translate t pd va = translate s pd va
  kept : ∀ y, Owns s pd T (pageBase y) → t.heap.mem y = s.heap.mem y
  parent : ∀ ws y, Owns s pd T (pageBase y) → writeAll t (dirs pd newpd) ws t.heap.mem y =
    writeAll t (dirs pd newpd) (ws.filter fun w => w.child = false) t.heap.mem y
  child : ∀ ws y, Owns t newpd T' (pageBase y) → writeAll t (dirs pd newpd) ws t.heap.mem y =
    writeAll t (dirs pd newpd) (ws.filter fun w => w.child = true) t.heap.mem y

/-- `uvmcopy` copies memory and isolates it. -/
theorem uvmcopy_copies (hd : PageDir s pd fr T) (hne : pd ≠ newpd) (hnew : newpd ≠ 0)
    (hused : ∀ va a, translate s pd va = some a → pageBase a ∉ fr) :
    wp (uvmcopy pd newpd) (fun r t => r = newpd ∧
      ∃ fr' T', PageDir t newpd fr' T' ∧ Copied s pd T newpd t T') NoPage s := by
  have hused' : ∀ n q, n < 2 ^ 36 → pageAt s T n = some q → q ∉ fr := by
    intro n q hn hq
    have hva : translate s pd (UInt64.ofNat (n * 2 ^ 12)) =
        some (q + (UInt64.ofNat (n * 2 ^ 12)).toNat % pageSize) :=
      (translate_eq_some hd).mpr ⟨q, by rw [vpn_ofNat hn, hq], rfl⟩
    have := hused _ _ hva
    rwa [pageBase_translate hq] at this
  refine (uvmcopy_spec hd hne hnew hused').imp ?_
  rintro r t ⟨rfl, hpt, fr', T', hc⟩
  have hdp : PageDir t pd fr' T := by
    refine ⟨hc.dir.free, hd.tables.frame (fun _ hq => hc.sub hq) fun x p _ hT => hc.mem x ?_, ?_⟩
    · exact hd.tables.used p _ hT
    · rw [hpt]
      exact hd.root
  have hold : ∀ q, Owns s pd T q → q ∉ fr := by
    rintro q (⟨p, hp⟩ | ⟨va, a, ha, rfl⟩)
    · exact hd.tables.used p q hp
    · exact hused va a ha
  have hchild : ∀ va b, translate t r va = some b → pageBase b ∈ fr := by
    intro va b hb
    obtain ⟨q, hq, rfl⟩ := (translate_eq_some hc.dir).mp hb
    rw [pageBase_translate hq]
    exact (hc.page _ q vpn_lt hq).1
  have hnewp : ∀ q, Owns t r T' q → q ∈ fr := by
    rintro q (⟨p, hp⟩ | ⟨va, a, ha, rfl⟩)
    · exact hc.table p q hp
    · exact hchild va a ha
  have hsame : ∀ va, translate t pd va = translate s pd va := by
    intro va
    rw [translate_eq hdp, translate_eq hd,
      pageAt_frame hd.tables _ fun x p hT => hc.mem x (hd.tables.used p _ hT)]
  refine ⟨rfl, fr', T', hc.dir, ?_⟩
  constructor
  · intro va
    have hdom := hc.dom (vpn va) vpn_lt
    rw [translate_eq hc.dir, translate_eq hd, Option.map_eq_none_iff, Option.map_eq_none_iff]
    rw [and_iff_right vpn_lt] at hdom
    exact not_iff_not.mp hdom
  · intro va a b ha hb
    obtain ⟨q, hq, rfl⟩ := (translate_eq_some hd).mp ha
    obtain ⟨q', hq', rfl⟩ := (translate_eq_some hc.dir).mp hb
    exact hc.bytes _ q' q vpn_lt hq' hq _ (Nat.mod_lt _ (by decide))
  · intro va va' b b' hva hva' hb hb' he
    obtain ⟨q, hq, rfl⟩ := (translate_eq_some hc.dir).mp hb
    obtain ⟨q', hq', rfl⟩ := (translate_eq_some hc.dir).mp hb'
    rw [pageBase_translate hq, pageBase_translate hq'] at he
    subst he
    exact (vpn_eq_iff hva hva').mp (hc.inj _ _ q vpn_lt vpn_lt hq hq')
  · intro va b hb ho
    exact hold _ ho (hchild va b hb)
  · exact hsame
  · intro y ho
    exact hc.mem y (hold _ ho)
  · intro ws y ho
    exact writeAll_filter (fun va hva => hold _ ho (hchild va y hva)) rfl
  · intro ws y ho
    refine writeAll_filter (fun va hva => ?_) rfl
    have hs : translate s pd va = some y := (hsame va).symm.trans hva
    exact hused va y hs (hnewp _ ho)

/-- A parent with one page, which its caller took. -/
theorem uvmcopy_copies_small : ∃ s fr T, PageDir s 1 fr T ∧
    translate s 1 0x1234 = some 0xFFFF00007FFFB234 ∧
    wp (uvmcopy 1 2) (fun r t => r = 2 ∧ ∃ fr' T', PageDir t 2 fr' T' ∧ Copied s 1 T 2 t T')
      NoPage s := by
  have h : (Caller.build 1 smallVm [.getPte 0x1000 true, .page,
      .store 0xFFFF00007FFFC008 0x7FFFB647]).map (fun c => (c.slots,
        c.vm.heap.word 0xFFFF00007FFFC008, translate c.vm 1 0x1234,
        decide (Chain c.vm.heap.link c.vm.heap.freePages (smallPages.drop 5)))) =
      some ([0xFFFF00007FFFC008], 0x7FFFB647, some 0xFFFF00007FFFB234, true) := by
    decide +kernel
  obtain ⟨c, hb, hc⟩ := Built.of_calls h
  rw [Prod.mk.injEq, Prod.mk.injEq, Prod.mk.injEq] at hc
  obtain ⟨hslots, hword, htrans, hchain⟩ := hc
  obtain ⟨fr, T, hinv⟩ := hb.inv smallVm_free
  have hfr : fr = smallPages.drop 5 :=
    hinv.dir.free.pages.chain.unique (of_decide_eq_true hchain)
  refine ⟨c.vm, fr, T, hinv.dir, htrans, uvmcopy_copies hinv.dir (by decide) (by decide) ?_⟩
  intro va a ha
  obtain ⟨q, hq, rfl⟩ := (translate_eq_some hinv.dir).mp ha
  rw [pageBase_translate hq, hfr]
  obtain ⟨x, hx, hv, rfl⟩ := pageAt_eq_some.mp hq
  have hmem : x ∈ c.slots := by
    by_contra hnot
    rw [hinv.empty _ x hx hnot] at hv
    exact not_valid_zero hv
  rw [hslots, List.mem_singleton] at hmem
  rw [hmem, hword]
  decide

end ShikiOS.Kernel.Paging
