import ShikiOS.Kernel.PageMap

/-!
# Freeing a page directory (`free_pgdir`)

Entries of pages look like those that lead to tables. `free_pagetable` tells them apart by the level
of the table it reads.

Results:
* `freePagetable_spec`: the tables below a table are freed, each of them once.
* `free_pgdir_frees`: `free_pgdir` frees the tables of a directory and leaves all other pages.
* `leaf_table_freed`: an entry may point to a table, and then the page it points to is freed.
-/

namespace ShikiOS.Kernel.Paging

open ShikiOS.Lib

variable {s s₀ t u : Vm} {h : Heap} {fr fr₀ l : List ℕ} {T : Tree} {p : List ℕ}
  {pd a i n q x : ℕ} {c : Caller} {E : Stop → Vm → Prop}

/-- From `s` to `t` the tables `l` were freed. -/
structure Freeing (s : Vm) (fr : List ℕ) (T : Tree) (l : List ℕ) (t : Vm) : Prop where
  free : FreeList t.heap (l.reverse ++ fr)
  table : ∀ a ∈ l, ∃ p, T p = some a
  freed : t.freed = s.freed ++ l
  taken : t.taken = s.taken
  pt : t.pt = s.pt
  mem : ∀ x, pageBase x ∉ l → pageBase x ∉ fr → t.heap.mem x = s.heap.mem x

theorem Freeing.refl (hf : FreeList s.heap fr) : Freeing s fr T [] s where
  free := hf
  table _ ha := by cases ha
  freed := (List.append_nil _).symm
  taken := rfl
  pt := rfl
  mem _ _ _ := rfl

/-- One more table is freed. -/
theorem Freeing.kfreePage (hf : Freeing s fr T l t) (ht : Tables s.heap fr T) (ha : T p = some a)
    (hnew : a ∉ l) : wp (kfreePage a) (fun _ u => Freeing s fr T (l ++ [a]) u) E t := by
  have hfree : a ∉ l.reverse ++ fr := by
    rw [List.mem_append, List.mem_reverse, not_or]
    exact ⟨hnew, ht.used p a ha⟩
  refine kfreePage_spec hf.free (ht.page p a ha) hfree fun h' hl hmem => ?_
  refine ⟨?_, ?_, ?_, hf.taken, hf.pt, fun x hx hfr => ?_⟩
  · rwa [List.reverse_append, List.reverse_singleton, List.append_assoc, List.singleton_append]
  · intro b hb
    rcases List.mem_append.mp hb with hb | hb
    · exact hf.table b hb
    · rw [List.mem_singleton] at hb
      exact ⟨p, hb ▸ ha⟩
  · rw [hf.freed, List.append_assoc]
  · rw [List.mem_append, List.mem_singleton, not_or] at hx
    rw [← hf.mem x hx.1 hfr]
    refine hmem x ?_
    rw [List.mem_cons, List.mem_append, List.mem_reverse, not_or, not_or]
    exact ⟨hx.2, hx.1, hfr⟩

/-- A table that was not freed has its entries. -/
theorem Freeing.word (hf : Freeing s fr T l t) (ht : Tables s.heap fr T) (ha : T p = some a)
    (hnew : a ∉ l) (hi : i < nPtePerTable) :
    t.heap.word (entryAddr a i) = s.heap.word (entryAddr a i) := by
  refine word_entry_congr (ht.page p a ha).aligned hi fun x hx => hf.mem x ?_ ?_
  · rwa [hx]
  · rw [hx]
    exact ht.used p a ha

theorem tableEntry_bits : tableEntry (some q) &&& pteTable = pteTable := by
  show (k2p (UInt64.ofNat q) ||| pteTable) &&& pteTable = pteTable
  apply UInt64.toNat_inj.mp
  rw [UInt64.toNat_and, UInt64.toNat_or]
  apply Nat.eq_of_testBit_eq
  intro i
  rw [Nat.testBit_and, Nat.testBit_or]
  cases pteTable.toNat.testBit i with
  | false => rw [Bool.and_false]
  | true => rw [Bool.or_true, Bool.and_true]

/-! ## The tables below a table -/

/-- `b` is a table behind one of the first `k` entries of the table at the end of `p`. -/
def Below (T : Tree) (p : List ℕ) (k b : ℕ) : Prop :=
  ∃ i < k, ∃ p', i :: p <:+ p' ∧ T p' = some b

variable {k b : ℕ} {p' : List ℕ}

theorem below_succ :
    Below T p (k + 1) b ↔ Below T p k b ∨ ∃ p', k :: p <:+ p' ∧ T p' = some b := by
  constructor
  · rintro ⟨i, hi, hb⟩
    rcases Nat.lt_succ_iff_lt_or_eq.mp hi with hi | rfl
    · exact .inl ⟨i, hi, hb⟩
    · exact .inr hb
  · rintro (⟨i, hi, hb⟩ | hb)
    · exact ⟨i, by omega, hb⟩
    · exact ⟨k, by omega, hb⟩

/-- Nothing is behind an empty entry. -/
theorem below_succ_of_none (ht : Tables h fr T) (hnone : T (k :: p) = none) :
    Below T p (k + 1) b ↔ Below T p k b := by
  rw [below_succ, or_iff_left]
  rintro ⟨p', ⟨l, rfl⟩, hb⟩
  rw [ht.below hnone l] at hb
  cases hb

/-- The tables from the one at the end of `p` on. -/
theorem suffix_iff_below (ht : Tables h fr T) (ha : T p = some a) :
    (∃ p', p <:+ p' ∧ T p' = some b) ↔ b = a ∨ Below T p nPtePerTable b := by
  constructor
  · rintro ⟨p', ⟨l, rfl⟩, hb⟩
    rcases List.eq_nil_or_concat l with rfl | ⟨l, i, rfl⟩
    · rw [List.nil_append, ha] at hb
      exact .inl (Option.some.inj hb).symm
    · rw [List.concat_eq_append, List.append_assoc, List.singleton_append] at hb
      have hne : T (i :: p) ≠ none := fun hnone => by
        rw [ht.below hnone l] at hb
        cases hb
      obtain ⟨c, hc⟩ := Option.ne_none_iff_exists'.mp hne
      exact .inr ⟨i, (ht.parent i p c hc).1, _, List.suffix_append l _, hb⟩
  · rintro (rfl | ⟨i, -, p', hs, hb⟩)
    · exact ⟨p, List.suffix_rfl, ha⟩
    · exact ⟨p', (List.suffix_cons i p).trans hs, hb⟩

/-- Different entries lead to different tables. -/
theorem not_below (ht : Tables h fr T) (hs : k :: p <:+ p') (hb : T p' = some b) :
    ¬ Below T p k b := by
  rintro ⟨i, hi, p'', hs', hb'⟩
  rw [ht.inj p'' p' b hb' hb] at hs'
  have heq := (List.suffix_of_suffix_length_le hs hs' le_rfl).eq_of_length rfl
  have := (List.cons.inj heq).1
  omega

/-- A table is not below itself. -/
theorem not_below_self (ht : Tables h fr T) (ha : T p = some a) : ¬ Below T p k a := by
  rintro ⟨i, -, p', hs, hb⟩
  rw [ht.inj p' p a hb ha] at hs
  have := hs.length_le
  rw [List.length_cons] at this
  omega

/-! ## `free_pagetable` -/

/-- The tables behind the first `k` entries of the table at the end of `p` are freed, after `l`. -/
def Freed (s : Vm) (fr : List ℕ) (T : Tree) (l p : List ℕ) (k : ℕ) (u : Vm) : Prop :=
  ∃ l', Freeing s fr T (l ++ l') u ∧ l'.Nodup ∧ ∀ b, b ∈ l' ↔ Below T p k b

theorem Freed.zero (hf : Freeing s fr T l t) : Freed s fr T l p 0 t := by
  refine ⟨[], by rwa [List.append_nil], List.nodup_nil, fun b => ?_⟩
  refine iff_of_false List.not_mem_nil ?_
  rintro ⟨i, hi, -⟩
  exact absurd hi i.not_lt_zero

/-- The tables below the table at the end of `p` are freed. -/
theorem freePagetable_spec (ht : Tables s.heap fr T) (ha : T p = some a) (hp : p.length + n = 3)
    (hf : Freeing s fr T l t) (hnew : ∀ p' b, p <:+ p' → T p' = some b → b ∉ l) :
    wp (freePagetable (n + 1) a) (fun _ u => Freed s fr T l p nPtePerTable u) E t := by
  induction n generalizing p a l t with
  | zero =>
    rw [freePagetable]
    refine (wp_forN (Freed s fr T l p) (Freed.zero hf) ?_).imp fun _ u hu => by
      rwa [Nat.zero_add] at hu
    rintro k u - hk ⟨l', hfu, hnd, hl'⟩
    have hnone : T (k :: p) = none := by
      by_contra hne
      obtain ⟨c, hc⟩ := Option.ne_none_iff_exists'.mp hne
      have := ht.short _ c hc
      rw [List.length_cons] at this
      omega
    have hnext : Freed s fr T l p (k + 1) u :=
      ⟨l', hfu, hnd, fun b => (hl' b).trans (below_succ_of_none ht hnone).symm⟩
    rw [wp_bind, wp_load]
    refine wp.ite (fun _ => wp.ite (fun _ => ?_) fun _ => wp_pure.mpr hnext) fun _ => wp_pure.mpr hnext
    rw [freePagetable, wp_bind, wp_pure, if_neg (by decide), wp_pure]
    exact hnext
  | succ n ih =>
    rw [freePagetable]
    refine (wp_forN (Freed s fr T l p) (Freed.zero hf) ?_).imp fun _ u hu => by
      rwa [Nat.zero_add] at hu
    rintro k u - hk ⟨l', hfu, hnd, hl'⟩
    have hold : ∀ p' b, k :: p <:+ p' → T p' = some b → b ∉ l ++ l' := by
      intro p' b hs hb hm
      rcases List.mem_append.mp hm with hm | hm
      · exact hnew p' b ((List.suffix_cons k p).trans hs) hb hm
      · exact not_below ht hs hb ((hl' b).mp hm)
    have ha' : a ∉ l ++ l' := by
      intro hm
      rcases List.mem_append.mp hm with hm | hm
      · exact hnew p a List.suffix_rfl ha hm
      · exact not_below_self ht ha ((hl' a).mp hm)
    rw [wp_bind, wp_load, hfu.word ht ha ha' (by omega), ht.entry p a k ha (by omega) (by omega)]
    cases hc : T (k :: p) with
    | none =>
      rw [if_neg not_valid_tableEntry, wp_pure]
      exact ⟨l', hfu, hnd, fun b => (hl' b).trans (below_succ_of_none ht hc).symm⟩
    | some c =>
      rw [if_pos valid_tableEntry, if_pos tableEntry_bits, pageOf_tableEntry (ht.page _ c hc), wp_bind]
      refine (ih hc (by rw [List.length_cons]; omega) hfu hold).imp ?_
      rintro _ v ⟨l'', hfv, hnd', hl''⟩
      rw [if_pos (by omega)]
      have hcnew : c ∉ (l ++ l') ++ l'' := by
        intro hm
        rcases List.mem_append.mp hm with hm | hm
        · exact hold _ c List.suffix_rfl hc hm
        · exact not_below_self ht hc ((hl'' c).mp hm)
      refine (hfv.kfreePage ht hc hcnew).imp fun _ w hw => ⟨l' ++ (l'' ++ [c]), ?_, ?_, fun b => ?_⟩
      · rwa [List.append_assoc, List.append_assoc] at hw
      · have hcl : c ∉ l'' := fun hm => hcnew (List.mem_append_right _ hm)
        have hnd'' : (l'' ++ [c]).Nodup :=
          List.nodup_append'.mpr ⟨hnd', List.nodup_singleton c, List.disjoint_singleton.mpr hcl⟩
        refine List.nodup_append'.mpr ⟨hnd, hnd'', fun b hb hm => ?_⟩
        rw [List.mem_append, List.mem_singleton, hl'' b, or_comm] at hm
        obtain ⟨p', hs, hb'⟩ := (suffix_iff_below ht hc).mpr hm
        exact hold p' b hs hb' (List.mem_append_right l hb)
      · rw [List.mem_append, List.mem_append, List.mem_singleton, hl' b, hl'' b, below_succ,
          suffix_iff_below ht hc, or_comm (a := b = c)]

/-! ## `free_pgdir` -/

/-- All the tables of a directory are freed, each of them once. -/
theorem freePgdir_spec (hd : PageDir s pd fr T) :
    wp (freePgdir pd) (fun _ t => ∃ l, Freeing s fr T l { t with pt := s.pt } ∧ l.Nodup ∧
      (∀ a, a ∈ l ↔ ∃ p, T p = some a) ∧ t.pt = Function.update s.pt pd 0) E s := by
  have hpt : s.pt pd ≠ 0 := (hd.tables.page [] _ hd.root).ne_zero
  have ht := hd.tables
  rw [freePgdir, wp_bind, wp_get, if_neg hpt, wp_bind, wp_get, wp_bind]
  refine (freePagetable_spec ht hd.root rfl (Freeing.refl hd.free) fun _ _ _ _ => List.not_mem_nil).imp ?_
  rintro - t ⟨l, hft, hnd, hl⟩
  rw [List.nil_append] at hft
  have hroot : s.pt pd ∉ l := fun hm => not_below_self ht hd.root ((hl _).mp hm)
  rw [wp_bind, wp_get, hft.pt, wp_bind]
  refine (hft.kfreePage ht hd.root hroot).imp fun _ u hu => ?_
  rw [wp_setPt]
  refine ⟨l ++ [s.pt pd], ?_, ?_, fun a => ?_, by rw [hu.pt]⟩
  · exact { hu with pt := rfl }
  · exact List.nodup_append'.mpr ⟨hnd, List.nodup_singleton _, List.disjoint_singleton.mpr hroot⟩
  · rw [List.mem_append, List.mem_singleton, hl a, or_comm, ← suffix_iff_below ht hd.root]
    exact ⟨fun ⟨p, _, hp⟩ => ⟨p, hp⟩, fun ⟨p, hp⟩ => ⟨p, List.nil_suffix, hp⟩⟩

/-- The page is one of the free pages. -/
def IsFree (h : Heap) (q : ℕ) : Prop := ∃ fr, FreePages h fr ∧ q ∈ fr

theorem isFree_iff (hf : FreeList h fr) : IsFree h q ↔ q ∈ fr := by
  constructor
  · rintro ⟨fr', hf', hq⟩
    rwa [← hf'.chain.unique hf.pages.chain]
  · intro hq
    exact ⟨fr, hf.pages, hq⟩

/-- `free_pgdir` calls `kfree_page` once for every page that `init_pgdir` and `get_pte` took, and for
    no other page. A page that an entry points to keeps its content and stays allocated, if it is
    not itself one of the tables. -/
theorem free_pgdir_frees (h₀ : FreeList s₀.heap fr₀) (hb : Built pd s₀ c) :
    ∃ t l, freePgdir pd c.vm = .ok () t ∧ t.freed = c.vm.freed ++ l ∧ l.Nodup ∧
      l.Perm c.tables ∧ t.pt pd = 0 ∧
      ∀ x ∈ c.slots, pageOf (c.vm.heap.word x) ∉ c.tables →
        pageOf (c.vm.heap.word x) ∉ l ∧
        (¬ IsFree c.vm.heap (pageOf (c.vm.heap.word x)) →
          ¬ IsFree t.heap (pageOf (c.vm.heap.word x)) ∧
          ∀ y, pageBase y = pageOf (c.vm.heap.word x) → t.heap.mem y = c.vm.heap.mem y) := by
  obtain ⟨fr, T, h⟩ := hb.inv h₀
  obtain ⟨⟨⟩, t, ht, l, hf, hnd, hl, hpt⟩ := (freePgdir_spec h.dir).total
  have hperm : l.Perm c.tables :=
    (List.perm_ext_iff_of_nodup hnd h.nodup).mpr fun a => (hl a).trans (h.tables a).symm
  refine ⟨t, l, ht, hf.freed, hnd, hperm, by rw [hpt, Function.update_self], fun x _ hx => ?_⟩
  have hxl : pageOf (c.vm.heap.word x) ∉ l := fun hm => hx (hperm.mem_iff.mp hm)
  refine ⟨hxl, fun hfree => ?_⟩
  rw [isFree_iff h.dir.free] at hfree
  refine ⟨?_, fun y hy => hf.mem y (hy ▸ hxl) (hy ▸ hfree)⟩
  rw [isFree_iff hf.free, List.mem_append, List.mem_reverse, not_or]
  exact ⟨hxl, hfree⟩

/-- The second page of a directory is a page of the caller; the entry of the third is empty. -/
theorem free_pgdir_frees_small : ∃ c, Built 1 smallVm c ∧
    c.slots = [0xFFFF00007FFFC010, 0xFFFF00007FFFC008] ∧
    ∃ t l, freePgdir 1 c.vm = .ok () t ∧ t.freed = c.vm.freed ++ l ∧ l.Nodup ∧
      l.Perm c.tables ∧ t.pt 1 = 0 ∧
      ∀ x ∈ c.slots, pageOf (c.vm.heap.word x) ∉ c.tables →
        pageOf (c.vm.heap.word x) ∉ l ∧
        (¬ IsFree c.vm.heap (pageOf (c.vm.heap.word x)) →
          ¬ IsFree t.heap (pageOf (c.vm.heap.word x)) ∧
          ∀ y, pageBase y = pageOf (c.vm.heap.word x) → t.heap.mem y = c.vm.heap.mem y) := by
  have h : (Caller.build 1 smallVm [.getPte 0x1000 true, .page,
      .store 0xFFFF00007FFFC008 0x7FFFB647, .getPte 0x2000 false]).map Caller.slots =
      some [0xFFFF00007FFFC010, 0xFFFF00007FFFC008] := by
    decide +kernel
  obtain ⟨c, hb, hc⟩ := Built.of_calls h
  exact ⟨c, hb, hc, free_pgdir_frees smallVm_free hb⟩

/-- The entry of the second page points to the table of the first level. That page is freed, although
    an entry points to it. -/
theorem leaf_table_freed : ∃ c x t, Built 1 smallVm c ∧ x ∈ c.slots ∧
    freePgdir 1 c.vm = .ok () t ∧ pageOf (c.vm.heap.word x) ∉ c.vm.freed ∧
    pageOf (c.vm.heap.word x) ∈ t.freed ∧ IsFree t.heap (pageOf (c.vm.heap.word x)) := by
  have h : (Caller.build 1 smallVm [.getPte 0x1000 true,
      .store 0xFFFF00007FFFC008 0x7FFFF647]).map
      (fun c => (c.slots, c.vm.pt 1, c.vm.freed, pageOf (c.vm.heap.word 0xFFFF00007FFFC008))) =
      some ([0xFFFF00007FFFC008], 0xFFFF00007FFFF000, [], 0xFFFF00007FFFF000) := by
    decide +kernel
  obtain ⟨c, hb, hc⟩ := Built.of_calls h
  rw [Prod.mk.injEq, Prod.mk.injEq, Prod.mk.injEq] at hc
  obtain ⟨hslots, hpt, hfreed, hpage⟩ := hc
  obtain ⟨fr, T, hinv⟩ := hb.inv smallVm_free
  obtain ⟨⟨⟩, t, ht, l, hf, -, hl, -⟩ := (freePgdir_spec hinv.dir).total
  have hroot : 0xFFFF00007FFFF000 ∈ l := by
    rw [hl]
    exact ⟨[], hpt ▸ hinv.dir.root⟩
  refine ⟨c, 0xFFFF00007FFFC008, t, hb, by rw [hslots]; exact List.mem_singleton_self _, ht, ?_⟩
  rw [hpage]
  refine ⟨by rw [hfreed]; exact List.not_mem_nil, ?_, ?_⟩
  · have hft : t.freed = c.vm.freed ++ l := hf.freed
    rw [hft]
    exact List.mem_append_right _ hroot
  · exact (isFree_iff hf.free).mpr (List.mem_append_left _ (List.mem_reverse.mpr hroot))

end ShikiOS.Kernel.Paging
