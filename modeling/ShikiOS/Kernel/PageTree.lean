import ShikiOS.Kernel.PageTable

/-!
# The tree of tables behind a page directory

A table is named by the indices that lead to it, the last one first; the root is `[]`, and the
tables with three indices hold the entries of pages. `Tables h fr T` says that the words of the
upper levels make up the tree `T` and that its tables are different pages, none of them free.

Results:
* `Tables.insert`: a free page of zeros becomes a new table.
* `descend_spec`, `getPte_spec`: what `get_pte` finds, and how the tree grows.
-/

namespace ShikiOS.Kernel.Paging

open ShikiOS.Lib
open UserPtr (pteValid pteAddress p2k vaPart0 vaPart1 vaPart2 vaPart3 vaPart0_toNat vaPart1_toNat
  vaPart2_toNat vaPart3_toNat)

/-- The table at the end of a path. -/
abbrev Tree := List ℕ → Option ℕ

/-- The word of an upper table that leads to a table of the next level, or to none. -/
def tableEntry : Option ℕ → UInt64
  | none => 0
  | some q => entryOf q pteTable

/-- The tables of a page directory. -/
structure Tables (h : Heap) (fr : List ℕ) (T : Tree) : Prop where
  page : ∀ p a, T p = some a → KernelPage a
  used : ∀ p a, T p = some a → a ∉ fr
  inj : ∀ p p' a, T p = some a → T p' = some a → p = p'
  short : ∀ p a, T p = some a → p.length ≤ 3
  parent : ∀ i p a, T (i :: p) = some a → i < nPtePerTable ∧ ∃ b, T p = some b
  entry : ∀ p a i, T p = some a → p.length < 3 → i < nPtePerTable →
    h.word (entryAddr a i) = tableEntry (T (i :: p))

variable {s t u : Vm} {h h' : Heap} {fr fr' fr'' : List ℕ} {T T' T'' : Tree} {p p' : List ℕ}
  {a b c i q pd : ℕ} {alloc : Bool} {va va' pte : UInt64} {E : Stop → Vm → Prop}

theorem pageOf_tableEntry (hq : KernelPage q) : pageOf (tableEntry (some q)) = q :=
  pageOf_entryOf hq rfl

theorem valid_tableEntry : Valid (tableEntry (some q)) := valid_entryOf rfl

theorem not_valid_tableEntry : ¬ Valid (tableEntry none) := not_valid_zero

/-- A change outside of the upper tables. -/
theorem Tables.frame (ht : Tables h fr T) (hfr : ∀ q ∈ fr', q ∈ fr)
    (hm : ∀ x p, p.length < 3 → T p = some (pageBase x) → h'.mem x = h.mem x) :
    Tables h' fr' T := by
  refine ⟨ht.page, fun p a ha hm => ht.used p a ha (hfr a hm), ht.inj, ht.short, ht.parent, ?_⟩
  intro p a i ha hp hi
  rw [← ht.entry p a i ha hp hi]
  refine word_entry_congr (ht.page p a ha).aligned hi fun x hx => hm x p hp ?_
  rw [hx, ha]

/-- Entries of different tables, or of one table at different indices. -/
theorem entryAddr_ne {j : ℕ} (ha : pageSize ∣ a) (hb : pageSize ∣ b) (hi : i < nPtePerTable)
    (hj : j < nPtePerTable) (hne : a ≠ b ∨ i ≠ j) : entryAddr a i ≠ entryAddr b j := by
  intro heq
  have hab : a = b := by
    rw [← pageBase_entry ha hi le_rfl (Nat.lt_add_of_pos_right (by decide)), heq]
    exact pageBase_entry hb hj le_rfl (Nat.lt_add_of_pos_right (by decide))
  subst hab
  rcases hne with hne | hne
  · exact hne rfl
  · unfold entryAddr at heq
    omega

/-- A page of zeros becomes the table behind the entry `i` of the table `a`. -/
theorem Tables.insert (ht : Tables h (q :: fr) T) (hq : KernelPage q) (hnd : q ∉ fr)
    (ha : T p = some a) (hp : p.length < 3) (hi : i < nPtePerTable) (hnone : T (i :: p) = none)
    (hmem : ∀ x, pageBase x ∉ q :: fr → h'.mem x = h.mem x)
    (hzero : ∀ j, j < nPtePerTable → h'.word (entryAddr q j) = 0) :
    Tables (h'.setWord (entryAddr a i) (entryOf q pteTable)) fr
      (Function.update T (i :: p) (some q)) := by
  have hd : pageSize ∣ a := (ht.page p a ha).aligned
  have hqT : ∀ p', T p' ≠ some q := fun p' hp' => ht.used p' q hp' List.mem_cons_self
  have haq : q ≠ a := by
    rintro rfl
    exact hqT p ha
  have hchild : ∀ j, T (j :: i :: p) = none := by
    intro j
    by_contra hne
    obtain ⟨b, hb⟩ := Option.ne_none_iff_exists'.mp hne
    obtain ⟨-, c, hc⟩ := ht.parent j (i :: p) b hb
    rw [hnone] at hc
    cases hc
  have hnew : ∀ p' b, Function.update T (i :: p) (some q) p' = some b →
      (p' = i :: p ∧ b = q) ∨ (p' ≠ i :: p ∧ T p' = some b) := by
    intro p' b hb
    by_cases hp' : p' = i :: p
    · subst hp'
      rw [Function.update_self] at hb
      exact .inl ⟨rfl, (Option.some.inj hb).symm⟩
    · rw [Function.update_of_ne hp'] at hb
      exact .inr ⟨hp', hb⟩
  constructor
  · intro p' b hb
    rcases hnew p' b hb with ⟨-, rfl⟩ | ⟨-, hb⟩
    · exact hq
    · exact ht.page p' b hb
  · intro p' b hb
    rcases hnew p' b hb with ⟨-, rfl⟩ | ⟨-, hb⟩
    · exact hnd
    · exact fun hm => ht.used p' b hb (List.mem_cons_of_mem q hm)
  · intro p₁ p₂ b h₁ h₂
    rcases hnew p₁ b h₁ with ⟨rfl, rfl⟩ | ⟨-, h₁⟩ <;> rcases hnew p₂ b h₂ with ⟨rfl, hb⟩ | ⟨-, h₂⟩
    · rfl
    · exact absurd h₂ (hqT p₂)
    · rw [hb] at h₁
      exact absurd h₁ (hqT p₁)
    · exact ht.inj p₁ p₂ b h₁ h₂
  · intro p' b hb
    rcases hnew p' b hb with ⟨rfl, -⟩ | ⟨-, hb⟩
    · exact hp
    · exact ht.short p' b hb
  · intro j p' b hb
    have hkeep : ∀ c, T p' = some c → ∃ c, Function.update T (i :: p) (some q) p' = some c := by
      intro c hc
      by_cases hp' : p' = i :: p
      · exact ⟨q, by rw [hp', Function.update_self]⟩
      · exact ⟨c, by rw [Function.update_of_ne hp', hc]⟩
    rcases hnew _ b hb with ⟨he, -⟩ | ⟨-, hb⟩
    · obtain ⟨rfl, rfl⟩ := List.cons.inj he
      exact ⟨hi, hkeep a ha⟩
    · obtain ⟨hj, c, hc⟩ := ht.parent j p' b hb
      exact ⟨hj, hkeep c hc⟩
  · intro p' b j hb hp' hj
    rcases hnew p' b hb with ⟨rfl, rfl⟩ | ⟨-, hT⟩
    · have hj' : j :: i :: p ≠ i :: p := fun he => by
        have := congrArg List.length he
        simp at this
      rw [Function.update_of_ne hj', hchild j]
      rw [word_setWord_of_ne (eight_dvd_entry hd) (eight_dvd_entry hq.aligned)
        (entryAddr_ne hq.aligned hd hj hi (.inl haq))]
      exact hzero j hj
    · have hbd : pageSize ∣ b := (ht.page p' b hT).aligned
      by_cases hji : j :: p' = i :: p
      · obtain ⟨rfl, rfl⟩ := List.cons.inj hji
        rw [ha] at hT
        cases hT
        rw [Function.update_self, word_setWord]
        rfl
      · have haddr : b ≠ a ∨ j ≠ i := by
          by_contra hcon
          rw [not_or, not_not, not_not] at hcon
          obtain ⟨rfl, rfl⟩ := hcon
          exact hji (by rw [ht.inj p' p b hT ha])
        rw [Function.update_of_ne hji, word_setWord_of_ne (eight_dvd_entry hd)
          (eight_dvd_entry hbd) (entryAddr_ne hbd hd hj hi haddr), ← ht.entry p' b j hT hp' hj]
        refine word_entry_congr hbd hj fun x hx => hmem x ?_
        rw [hx]
        exact ht.used p' b hT

/-! ## How a tree grows -/

/-- From `s` to `t` free pages have become tables. Nothing else has changed but entries of the
    upper tables. -/
structure Grows (s : Vm) (fr : List ℕ) (T : Tree) (t : Vm) (fr' : List ℕ) (T' : Tree) : Prop where
  free : FreeList t.heap fr'
  tables : Tables t.heap fr' T'
  taken : ∃ l, fr = l ++ fr' ∧ t.taken = s.taken ++ l
  ext : ∀ p a, T p = some a → T' p = some a
  fresh : ∀ p a, T' p = some a → T p = none → a ∈ fr
  gone : ∀ a ∈ fr, a ∉ fr' → ∃ p, T' p = some a
  zero : ∀ p a i, T' p = some a → T p = none → p.length = 3 → i < nPtePerTable →
    t.heap.word (entryAddr a i) = 0
  pt : t.pt = s.pt
  freed : t.freed = s.freed
  mem : ∀ x, pageBase x ∉ fr → (∀ p, p.length < 3 → T p ≠ some (pageBase x)) →
    t.heap.mem x = s.heap.mem x

theorem Grows.suffix (hg : Grows s fr T t fr' T') : fr' <:+ fr := by
  obtain ⟨l, rfl, -⟩ := hg.taken
  exact List.suffix_append l fr'

theorem Grows.refl (hf : FreeList s.heap fr) (ht : Tables s.heap fr T) : Grows s fr T s fr T where
  free := hf
  tables := ht
  taken := ⟨[], rfl, (List.append_nil _).symm⟩
  ext _ _ ha := ha
  fresh p a ha hnone := by
    rw [hnone] at ha
    cases ha
  gone a ha hna := absurd ha hna
  zero p a i ha hnone := by
    rw [hnone] at ha
    cases ha
  pt := rfl
  freed := rfl
  mem _ _ _ := rfl

/-- The entries of a page table of the last level stay as they are. -/
theorem Grows.word (hg : Grows s fr T t fr' T') (ht : Tables s.heap fr T) (ha : T p = some a)
    (hp : p.length = 3) (hi : i < nPtePerTable) :
    t.heap.word (entryAddr a i) = s.heap.word (entryAddr a i) := by
  refine word_entry_congr (ht.page p a ha).aligned hi fun x hx => hg.mem x ?_ fun p' hp' he => ?_
  · rw [hx]
    exact ht.used p a ha
  · rw [hx] at he
    rw [ht.inj p' p a he ha] at hp'
    omega

theorem Grows.trans (h₁ : Grows s fr T t fr' T') (h₂ : Grows t fr' T' u fr'' T'') :
    Grows s fr T u fr'' T'' where
  free := h₂.free
  tables := h₂.tables
  taken := by
    obtain ⟨l, rfl, hl⟩ := h₁.taken
    obtain ⟨l', rfl, hl'⟩ := h₂.taken
    exact ⟨l ++ l', (List.append_assoc l l' fr'').symm, by rw [hl', hl, List.append_assoc]⟩
  ext p a ha := h₂.ext p a (h₁.ext p a ha)
  fresh p a ha hnone := by
    cases hp : T' p with
    | none => exact h₁.suffix.subset (h₂.fresh p a ha hp)
    | some b =>
      rw [h₂.ext p b hp] at ha
      cases ha
      exact h₁.fresh p _ hp hnone
  gone a ha hna := by
    by_cases hm : a ∈ fr'
    · exact h₂.gone a hm hna
    · obtain ⟨p, hp⟩ := h₁.gone a ha hm
      exact ⟨p, h₂.ext p a hp⟩
  zero p a i ha hnone hp hi := by
    cases hp' : T' p with
    | none => exact h₂.zero p a i ha hp' hp hi
    | some b =>
      rw [h₂.ext p b hp'] at ha
      cases ha
      rw [h₂.word h₁.tables hp' hp hi]
      exact h₁.zero p _ i hp' hnone hp hi
  pt := h₂.pt.trans h₁.pt
  freed := h₂.freed.trans h₁.freed
  mem x hx hT := by
    rw [← h₁.mem x hx hT]
    refine h₂.mem x (fun hm => hx (h₁.suffix.subset hm)) fun p hp he => ?_
    cases hp' : T p with
    | none => exact hx (h₁.fresh p _ he hp')
    | some b =>
      rw [h₁.ext p b hp'] at he
      cases he
      exact hT p hp hp'

/-! ## `get_pte` -/

/-- The table at the end of the path was found. It is missing only if nothing may be allocated.
    Nothing is allocated then, nor if the table existed. New are tables on the path at most. -/
def Reaches (alloc : Bool) (path : List ℕ) (s : Vm) (fr : List ℕ) (T : Tree) (r : Option ℕ)
    (t : Vm) : Prop :=
  ∃ fr' T', Grows s fr T t fr' T' ∧ r = T' path ∧ (r = none → alloc = false) ∧
    (alloc = false ∨ T path ≠ none → t = s ∧ T' = T) ∧
    ∀ p a, T' p = some a → T p = some a ∨ p <:+ path

theorem Reaches.refl (hf : FreeList s.heap fr) (ht : Tables s.heap fr T)
    (hnone : T p = none → alloc = false) : Reaches alloc p s fr T (T p) s :=
  ⟨fr, T, Grows.refl hf ht, rfl, hnone, fun _ => ⟨rfl, rfl⟩, fun _ _ ha => .inl ha⟩

/-- What one level finds: the table behind the entry; without one, none if it must not allocate. -/
theorem nextTable_spec (hf : FreeList s.heap fr) (ht : Tables s.heap fr T) (ha : T p = some a)
    (hp : p.length < 3) (hi : i < nPtePerTable) (hE : alloc = true → E = NoPage) :
    wp (nextTable alloc a i) (Reaches alloc (i :: p) s fr T) E s := by
  rw [nextTable, wp_bind, wp_load, ht.entry p a i ha hp hi]
  cases hc : T (i :: p) with
  | some c =>
    have hcp := ht.page _ c hc
    rw [if_pos valid_tableEntry, wp_bind, wp_load, wp_pure, ht.entry p a i ha hp hi, hc,
      pageOf_tableEntry hcp]
    rw [← hc]
    exact Reaches.refl hf ht fun hnone => by rw [hc] at hnone; cases hnone
  | none =>
    rw [if_neg not_valid_tableEntry]
    cases alloc with
    | false =>
      rw [if_pos rfl, wp_pure]
      rw [← hc]
      exact Reaches.refl hf ht fun _ => rfl
    | true =>
      obtain rfl := hE rfl
      rw [if_neg Bool.noConfusion, wp_bind]
      refine newTable_spec hf fun q fr' h' hfr hfree hmem hzero => ?_
      rw [wp_bind, wp_store, wp_bind, wp_load, wp_pure, word_setWord]
      subst hfr
      have hq : KernelPage q := hf.kernelPage List.mem_cons_self
      have hnd : q ∉ fr' := (List.nodup_cons.mp hf.pages.nodup).1
      have hd : pageSize ∣ a := (ht.page p a ha).aligned
      have htables := ht.insert hq hnd ha hp hi hc hmem hzero
      have hset : ∀ x, pageBase x ≠ a →
          (h'.setWord (entryAddr a i) (entryOf q pteTable)).mem x = h'.mem x := by
        intro x hx
        refine mem_setWord ?_
        by_contra hcon
        exact hx (pageBase_entry hd hi (by omega) (by omega))
      have hnew : ∀ p' b, Function.update T (i :: p) (some q) p' = some b → T p' = none →
          p' = i :: p ∧ b = q := by
        intro p' b hb hnone
        by_cases hp' : p' = i :: p
        · subst hp'
          rw [Function.update_self] at hb
          exact ⟨rfl, (Option.some.inj hb).symm⟩
        · rw [Function.update_of_ne hp', hnone] at hb
          cases hb
      refine ⟨fr', _, ⟨?_, htables, ⟨[q], rfl, rfl⟩, ?_, ?_, ?_, ?_, rfl, rfl, ?_⟩, ?_, nofun,
        fun h => absurd hc (h.resolve_left Bool.noConfusion), ?_⟩
      · refine hfree.frame rfl rfl fun x hx => hset x ?_
        rintro rfl
        exact ht.used p _ ha (List.mem_cons_of_mem q hx)
      · intro p' b hb
        rw [Function.update_of_ne]
        · exact hb
        · rintro rfl
          rw [hc] at hb
          cases hb
      · intro p' b hb hnone
        rw [(hnew p' b hb hnone).2]
        exact List.mem_cons_self
      · intro b hb hnb
        obtain rfl := (List.mem_cons.mp hb).resolve_right hnb
        exact ⟨i :: p, Function.update_self _ _ _⟩
      · intro p' b j hb hnone hp' hj
        obtain ⟨rfl, rfl⟩ := hnew p' b hb hnone
        have hba : b ≠ a := by
          rintro rfl
          exact ht.used p b ha List.mem_cons_self
        rw [word_setWord_of_ne (eight_dvd_entry hd) (eight_dvd_entry hq.aligned)
          (entryAddr_ne hq.aligned hd hj hi (.inl hba))]
        exact hzero j hj
      · intro x hx hT
        rw [hset x fun he => hT p hp (he ▸ ha)]
        exact hmem x hx
      · rw [Function.update_self]
        exact congrArg some (pageOf_tableEntry hq)
      · intro p' b hb
        cases hT : T p' with
        | none => exact .inr ((hnew p' b hb hT).1 ▸ List.suffix_rfl)
        | some c =>
          rw [Function.update_of_ne, hT] at hb
          · exact .inl hb
          · rintro rfl
            rw [hc] at hT
            cases hT

/-- Nothing is below a table that is missing. -/
theorem Tables.below (ht : Tables h fr T) (hnone : T p = none) (l : List ℕ) : T (l ++ p) = none := by
  induction l with
  | nil => exact hnone
  | cons i l ih =>
    by_contra hne
    obtain ⟨a, ha⟩ := Option.ne_none_iff_exists'.mp hne
    obtain ⟨-, b, hb⟩ := ht.parent i (l ++ p) a ha
    rw [ih] at hb
    cases hb

/-- What the loop finds: the table at the end of the path. -/
theorem descend_spec {idxs : List ℕ} (hf : FreeList s.heap fr) (ht : Tables s.heap fr T)
    (ha : T p = some a) (hp : p.length + idxs.length ≤ 3) (hi : ∀ i ∈ idxs, i < nPtePerTable)
    (hE : alloc = true → E = NoPage) :
    wp (descend alloc idxs a) (Reaches alloc (idxs.reverse ++ p) s fr T) E s := by
  induction idxs generalizing s fr T p a with
  | nil =>
    rw [descend, wp_pure, ← ha]
    exact Reaches.refl hf ht fun hnone => by rw [List.reverse_nil, List.nil_append, ha] at hnone; cases hnone
  | cons i idxs ih =>
    rw [List.length_cons] at hp
    rw [descend, wp_bind]
    refine (nextTable_spec hf ht ha (by omega) (hi i List.mem_cons_self) hE).imp ?_
    rintro r t ⟨fr', T', hg, rfl, hnone, hsame, honly⟩
    have hpath : (i :: idxs).reverse ++ p = idxs.reverse ++ i :: p := by simp
    have hsub : i :: p <:+ idxs.reverse ++ i :: p := List.suffix_append _ _
    rw [hpath]
    cases hc : T' (i :: p) with
    | none =>
      have hfalse := hnone hc
      rw [wp_pure]
      exact ⟨fr', T', hg, (hg.tables.below hc _).symm, fun _ => hfalse, fun _ => hsame (.inl hfalse),
        fun p' b hb => (honly p' b hb).imp_right fun h => h.trans hsub⟩
    | some c =>
      refine (ih hg.free hg.tables hc (by rw [List.length_cons]; omega)
        fun j hj => hi j (List.mem_cons_of_mem i hj)).imp ?_
      rintro r u ⟨fr'', T'', hg', hr, hnone', hsame', honly'⟩
      refine ⟨fr'', T'', hg.trans hg', hr, hnone', fun hold => ?_, fun p' b hb => ?_⟩
      · obtain ⟨rfl, rfl⟩ := hsame (hold.imp_right fun hne hn => hne (ht.below hn _))
        exact hsame' hold
      · rcases honly' p' b hb with hb | hs
        · exact (honly p' b hb).imp_right fun h => h.trans hsub
        · exact .inr hs

/-! ## Page numbers -/

/-- The number of the page of a 48-bit address. -/
def vpn (va : UInt64) : ℕ := va.toNat / 2 ^ 12 % 2 ^ 36

/-- The path to the table with the entry of a page. -/
def tablePath (n : ℕ) : List ℕ := [n / 2 ^ 9 % 2 ^ 9, n / 2 ^ 18 % 2 ^ 9, n / 2 ^ 27 % 2 ^ 9]

/-- The address of the entry of a page. -/
def slotOf (T : Tree) (n : ℕ) : Option ℕ := (T (tablePath n)).map fun a => entryAddr a (n % 2 ^ 9)

theorem vpn_lt : vpn va < 2 ^ 36 := Nat.mod_lt _ (by decide)

theorem index_lt {n : ℕ} : n % 2 ^ 9 < nPtePerTable := Nat.mod_lt _ (by decide)

theorem path_vpn : [(vaPart0 va).toNat, (vaPart1 va).toNat, (vaPart2 va).toNat].reverse ++ [] =
    tablePath (vpn va) := by
  simp only [vaPart0_toNat, vaPart1_toNat, vaPart2_toNat, vpn, tablePath, List.reverse_cons,
    List.reverse_nil, List.nil_append, List.cons_append, List.append_nil, List.cons.injEq, and_true]
  omega

theorem vaPart3_vpn : (vaPart3 va).toNat = vpn va % 2 ^ 9 := by
  rw [vaPart3_toNat, vpn]
  omega

/-- The path and the index make up the number of a page. -/
theorem eq_of_path {n m : ℕ} (hn : n < 2 ^ 36) (hm : m < 2 ^ 36) (hp : tablePath n = tablePath m)
    (hi : n % 2 ^ 9 = m % 2 ^ 9) : n = m := by
  simp only [tablePath, List.cons.injEq, and_true] at hp
  omega

/-- The tree behind a page directory. -/
structure PageDir (s : Vm) (pd : ℕ) (fr : List ℕ) (T : Tree) : Prop where
  free : FreeList s.heap fr
  tables : Tables s.heap fr T
  root : T [] = some (s.pt pd)

/-- `get_pte` finds the entry of a page, and makes it if it may. -/
theorem getPte_spec (hd : PageDir s pd fr T) (hE : alloc = true → E = NoPage) :
    wp (getPte pd va alloc) (fun r t => ∃ fr' T', Grows s fr T t fr' T' ∧
      r = slotOf T' (vpn va) ∧ (r = none → alloc = false) ∧
      (alloc = false ∨ slotOf T (vpn va) ≠ none → t = s ∧ T' = T) ∧ ∀ p a, T' p = some a → T p = some a ∨ p <:+ tablePath (vpn va)) E s := by
  have hpt : s.pt pd ≠ 0 := (hd.tables.page [] _ hd.root).ne_zero
  rw [getPte, wp_bind, rootTable, wp_bind, wp_get]
  dsimp only
  rw [if_pos hpt, wp_pure, wp_bind]
  have hi : ∀ i ∈ [(vaPart0 va).toNat, (vaPart1 va).toNat, (vaPart2 va).toNat], i < nPtePerTable := by
    intro i hi
    simp only [List.mem_cons, List.not_mem_nil, or_false, vaPart0_toNat, vaPart1_toNat,
      vaPart2_toNat] at hi
    unfold nPtePerTable
    omega
  refine (descend_spec hd.free hd.tables hd.root (by simp) hi hE).imp ?_
  rintro r t ⟨fr', T', hg, rfl, hnone, hsame, honly⟩
  rw [path_vpn] at hnone hsame honly ⊢
  have hsame' : alloc = false ∨ slotOf T (vpn va) ≠ none → t = s ∧ T' = T := fun h =>
    hsame (h.imp_right fun hne hn => hne (Option.map_eq_none_iff.mpr hn))
  cases hc : T' (tablePath (vpn va)) with
  | none =>
    rw [wp_pure]
    exact ⟨fr', T', hg, by rw [slotOf, hc, Option.map_none], fun _ => hnone hc, hsame', honly⟩
  | some c =>
    rw [wp_pure]
    exact ⟨fr', T', hg, by rw [slotOf, hc, Option.map_some, vaPart3_vpn], nofun, hsame', honly⟩

theorem Grows.pageDir (hg : Grows s fr T t fr' T') (hd : PageDir s pd fr T) : PageDir t pd fr' T' :=
  ⟨hg.free, hg.tables, by rw [hg.pt]; exact hg.ext [] _ hd.root⟩

/-! ## Entries of pages -/

theorem slotOf_eq_some {n x : ℕ} :
    slotOf T n = some x ↔ ∃ a, T (tablePath n) = some a ∧ entryAddr a (n % 2 ^ 9) = x :=
  Option.map_eq_some_iff

theorem Grows.slotOf (hg : Grows s fr T t fr' T') {n x : ℕ} (hx : slotOf T n = some x) :
    slotOf T' n = some x := by
  obtain ⟨a, ha, rfl⟩ := slotOf_eq_some.mp hx
  exact slotOf_eq_some.mpr ⟨a, hg.ext _ a ha, rfl⟩

/-- An entry that existed is not changed. -/
theorem Grows.word_slot (hg : Grows s fr T t fr' T') (ht : Tables s.heap fr T) {n x : ℕ}
    (hx : Paging.slotOf T n = some x) : t.heap.word x = s.heap.word x := by
  obtain ⟨a, ha, rfl⟩ := slotOf_eq_some.mp hx
  exact hg.word ht ha rfl index_lt

/-- An entry that did not exist is empty. -/
theorem Grows.word_new (hg : Grows s fr T t fr' T') {n x : ℕ}
    (hx : Paging.slotOf T' n = some x) (hnone : Paging.slotOf T n = none) : t.heap.word x = 0 := by
  obtain ⟨a, ha, rfl⟩ := slotOf_eq_some.mp hx
  exact hg.zero _ a _ ha (Option.map_eq_none_iff.mp hnone) rfl index_lt

/-- Different pages have different entries. -/
theorem Tables.slot_inj (ht : Tables h fr T) {n m x : ℕ} (hn : n < 2 ^ 36) (hm : m < 2 ^ 36)
    (h1 : slotOf T n = some x) (h2 : slotOf T m = some x) : n = m := by
  obtain ⟨a, ha, rfl⟩ := slotOf_eq_some.mp h1
  obtain ⟨b, hb, heq⟩ := slotOf_eq_some.mp h2
  have hda := (ht.page _ a ha).aligned
  have hdb := (ht.page _ b hb).aligned
  by_contra hne
  refine entryAddr_ne hdb hda index_lt index_lt ?_ heq
  by_contra hcon
  rw [not_or, not_not, not_not] at hcon
  obtain ⟨rfl, hi⟩ := hcon
  exact hne (eq_of_path hn hm (ht.inj _ _ b ha hb) hi.symm)

end ShikiOS.Kernel.Paging
