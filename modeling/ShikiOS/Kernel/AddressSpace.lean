import ShikiOS.Kernel.PageMap

/-!
# What a page directory maps

`translate` is the walk of the tables that the hardware makes for an address, and `pageAt` is the page
with a number, in terms of the tree of the tables.

Results:
* `translate_eq`: the walk finds the page of the number.
* `Grows.pageAt`: new tables map nothing.
* `setPte_spec`: an entry that is stored maps its page, and the rest is as before.
-/

namespace ShikiOS.Kernel.Paging

open ShikiOS.Lib
open UserPtr (pteAddress p2k)

variable {s t : Vm} {h : Heap} {fr fr' : List ℕ} {T T' : Tree} {pd n m x q a : ℕ} {va pte : UInt64}
  {p : List ℕ}

/-- Where an address leads, if it is mapped. -/
def translate (s : Vm) (pd : ℕ) (va : UInt64) : Option ℕ :=
  match getPte pd va false s with
  | .ok (some slot) _ =>
    if Valid (s.heap.word slot) then some (pageOf (s.heap.word slot) + va.toNat % pageSize) else none
  | _ => none

/-- The page with number `n`, if it is mapped. -/
def pageAt (s : Vm) (T : Tree) (n : ℕ) : Option ℕ :=
  (slotOf T n).bind fun x => if Valid (s.heap.word x) then some (pageOf (s.heap.word x)) else none

theorem wp_lookup {E : Stop → Vm → Prop} {Q : Option ℕ → Vm → Prop} (hd : PageDir s pd fr T) :
    wp (getPte pd va false) Q E s ↔ Q (slotOf T (vpn va)) s := by
  unfold wp
  rw [lookup_eq hd va]

theorem translate_eq (hd : PageDir s pd fr T) (va : UInt64) :
    translate s pd va = (pageAt s T (vpn va)).map (· + va.toNat % pageSize) := by
  rw [translate, lookup_eq hd va, pageAt]
  cases slotOf T (vpn va) with
  | none => rfl
  | some x =>
    dsimp only
    rw [Option.bind_some]
    split_ifs with hv
    · rfl
    · rfl

theorem pageAt_eq_some :
    pageAt s T n = some q ↔ ∃ x, slotOf T n = some x ∧ Valid (s.heap.word x) ∧
      pageOf (s.heap.word x) = q := by
  rw [pageAt, Option.bind_eq_some_iff]
  refine exists_congr fun x => and_congr_right fun _ => ?_
  rw [Option.ite_none_right_eq_some, Option.some.injEq]

theorem pageAt_of_slot (hx : slotOf T n = some x) :
    pageAt s T n = if Valid (s.heap.word x) then some (pageOf (s.heap.word x)) else none := by
  rw [pageAt, hx, Option.bind_some]

theorem pageAt_of_none (hx : slotOf T n = none) : pageAt s T n = none := by
  rw [pageAt, hx, Option.bind_none]

/-! ## Pages are aligned -/

theorem pageMask_dvd (n : ℕ) : pageSize ∣ n &&& 0xFFFFFFFFF000 := by
  have h : n &&& 0xFFFFFFFFF000 = ((n >>> 12) &&& (2 ^ 36 - 1)) <<< 12 := by
    apply Nat.eq_of_testBit_eq
    intro i
    rw [Nat.testBit_and, show (0xFFFFFFFFF000 : ℕ) = (2 ^ 36 - 1) <<< 12 from rfl,
      Nat.testBit_shiftLeft, Nat.testBit_shiftLeft, Nat.testBit_and, Nat.testBit_shiftRight]
    by_cases hi : 12 ≤ i
    · simp [hi]
    · simp [hi]
  rw [h, Nat.shiftLeft_eq]
  exact Dvd.intro_left _ rfl

theorem pageOf_dvd (pte : UInt64) : pageSize ∣ pageOf pte := by
  rw [pageOf, p2k, UInt64.toNat_add]
  have h1 : pageSize ∣ (pteAddress pte).toNat := by
    rw [pteAddress, UInt64.toNat_and]
    exact pageMask_dvd _
  have h2 : pageSize ∣ (0xFFFF000000000000 : UInt64).toNat := by decide
  have h3 : pageSize ∣ 2 ^ 64 := by decide
  exact (Nat.dvd_mod_iff h3).mpr (dvd_add h1 h2)

theorem pageAt_dvd (hq : pageAt s T n = some q) : pageSize ∣ q := by
  obtain ⟨x, -, -, rfl⟩ := pageAt_eq_some.mp hq
  exact pageOf_dvd _

theorem pageBase_add (hq : pageSize ∣ q) {o : ℕ} (ho : o < pageSize) : pageBase (q + o) = q :=
  pageBase_eq hq (by omega) (by omega)

theorem translate_eq_some (hd : PageDir s pd fr T) :
    translate s pd va = some a ↔
      ∃ q, pageAt s T (vpn va) = some q ∧ q + va.toNat % pageSize = a := by
  rw [translate_eq hd, Option.map_eq_some_iff]

theorem pageBase_translate {va : UInt64} (hq : pageAt s T n = some q) :
    pageBase (q + va.toNat % pageSize) = q :=
  pageBase_add (pageAt_dvd hq) (Nat.mod_lt _ (by decide))

theorem vpn_ofNat (hn : n < 2 ^ 36) : vpn (UInt64.ofNat (n * 2 ^ 12)) = n := by
  rw [vpn, UInt64.toNat_ofNat_of_lt' (by rw [UInt64.size]; omega)]
  omega

/-! ## Changes of the mapping -/

theorem pageOf_user (hq : KernelPage q) : pageOf (entryOf q pteUserData) = q :=
  pageOf_entryOf hq (by decide)

theorem valid_user : Valid (entryOf q pteUserData) := valid_entryOf (by decide)

/-- Changes outside of the tables of the last level. -/
theorem pageAt_congr (h : ∀ x, slotOf T n = some x → t.heap.word x = s.heap.word x) :
    pageAt t T n = pageAt s T n := by
  cases hx : slotOf T n with
  | none => rw [pageAt_of_none hx, pageAt_of_none hx]
  | some x => rw [pageAt_of_slot hx, pageAt_of_slot hx, h x hx]

/-- Changes outside of the tables. -/
theorem pageAt_frame (ht : Tables h fr T) (n : ℕ)
    (hm : ∀ x p, T p = some (pageBase x) → t.heap.mem x = s.heap.mem x) :
    pageAt t T n = pageAt s T n := by
  refine pageAt_congr fun x hx => ?_
  obtain ⟨a, ha, rfl⟩ := slotOf_eq_some.mp hx
  refine word_entry_congr (ht.page _ a ha).aligned index_lt fun y hy => hm y (tablePath n) ?_
  rw [hy]
  exact ha

/-- New tables map nothing. -/
theorem Grows.pageAt (hg : Grows s fr T t fr' T') (ht : Tables s.heap fr T) (n : ℕ) :
    Paging.pageAt t T' n = Paging.pageAt s T n := by
  cases hx : Paging.slotOf T n with
  | some x => rw [pageAt_of_slot hx, pageAt_of_slot (hg.slotOf hx), hg.word_slot ht hx]
  | none =>
    rw [pageAt_of_none hx]
    cases hx' : Paging.slotOf T' n with
    | none => exact pageAt_of_none hx'
    | some x => rw [pageAt_of_slot hx', hg.word_new hx' hx, if_neg not_valid_zero]

/-- An entry is stored. -/
theorem pageAt_store_self (hx : slotOf T n = some x) :
    pageAt { s with heap := s.heap.setWord x pte } T n =
      if Valid pte then some (pageOf pte) else none := by
  rw [pageAt_of_slot hx, word_setWord]

theorem pageAt_store_of_ne (ht : Tables h fr T) (hn : n < 2 ^ 36) (hm : m < 2 ^ 36)
    (hx : slotOf T n = some x) (hne : m ≠ n) :
    pageAt { s with heap := s.heap.setWord x pte } T m = pageAt s T m := by
  refine pageAt_congr fun y hy => ?_
  refine word_setWord_of_ne (slot_dvd ht hx) (slot_dvd ht hy) ?_
  rintro rfl
  exact hne (ht.slot_inj hm hn hy hx)

/-- A store changes its table only. -/
theorem mem_store (ht : Tables h fr T) (hx : slotOf T n = some x) {y : ℕ}
    (hy : T (tablePath n) ≠ some (pageBase y)) : (s.heap.setWord x pte).mem y = s.heap.mem y := by
  obtain ⟨a, ha, -, hpage⟩ := slot_page ht hx
  apply mem_setWord
  by_contra hcon
  rw [hpage y (by omega) (by omega)] at hy
  exact hy ha

/-- From `s` to `u` the entry of page `n` became `pte`. -/
structure Sets (s : Vm) (pd : ℕ) (fr : List ℕ) (T : Tree) (n : ℕ) (pte : UInt64) (u : Vm)
    (fr' : List ℕ) (T' : Tree) : Prop where
  dir : PageDir u pd fr' T'
  suffix : fr' <:+ fr
  self : pageAt u T' n = if Valid pte then some (pageOf pte) else none
  other : ∀ m, m < 2 ^ 36 → m ≠ n → pageAt u T' m = pageAt s T m
  table : ∀ p a, T' p = some a → T p = some a ∨ a ∈ fr
  mem : ∀ y, pageBase y ∉ fr → (∀ p, T p ≠ some (pageBase y)) → u.heap.mem y = s.heap.mem y
  pt : u.pt = s.pt
  freed : u.freed = s.freed

theorem Grows.table (hg : Grows s fr T t fr' T') (ha : T' p = some a) : T p = some a ∨ a ∈ fr := by
  cases hT : T p with
  | none => exact .inr (hg.fresh p a ha hT)
  | some b =>
    rw [hg.ext p b hT] at ha
    exact .inl ha

theorem Grows.sets (hg : Grows s fr T t fr' T') (hd : PageDir s pd fr T) (hn : n < 2 ^ 36)
    (hx : Paging.slotOf T' n = some x) :
    Sets s pd fr T n pte { t with heap := t.heap.setWord x pte } fr' T' := by
  refine ⟨(hg.pageDir hd).store hx, hg.suffix, pageAt_store_self hx, fun m hm hne => ?_,
    fun p a ha => hg.table ha, fun y hy hT => ?_, hg.pt, hg.freed⟩
  · rw [pageAt_store_of_ne hg.tables hn hm hx hne, hg.pageAt hd.tables]
  · rw [← hg.mem y hy fun p _ => hT p]
    refine mem_store hg.tables hx fun ha => ?_
    rcases hg.table ha with ha | ha
    · exact hT _ ha
    · exact hy ha

/-- The entry of an address is stored. -/
theorem setPte_spec (hd : PageDir s pd fr T) :
    wp (setPte pd va pte) (fun _ u => ∃ fr' T', Sets s pd fr T (vpn va) pte u fr' T') NoPage s := by
  rw [setPte, wp_bind]
  refine (getPte_spec hd fun _ => rfl).imp ?_
  rintro r t ⟨fr', T', hg, rfl, hnone, -, -⟩
  cases hx : slotOf T' (vpn va) with
  | none => exact absurd (hnone hx) (by decide)
  | some x =>
    rw [wp_store]
    exact ⟨fr', T', hg.sets hd vpn_lt hx⟩

end ShikiOS.Kernel.Paging
