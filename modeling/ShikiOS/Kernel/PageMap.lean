import ShikiOS.Kernel.KallocRun
import ShikiOS.Kernel.PageTree

/-!
# Page tables as finite maps

The caller of `get_pte` keeps the slots that it returned, stores entries through them, and takes
pages of its own from `kalloc_page`. `Caller` records this beside the memory, and `Built` says that
a page directory was built by `init_pgdir` and then used in this way.

Results:
* `Built.inv`: the invariant of these runs.
* `page_map`: `get_pte` after any of these runs.
-/

namespace ShikiOS.Kernel.Paging

open ShikiOS.Lib
open Kalloc (zeroHeap)

/-- The memory, the slots that `get_pte` returned, the addresses it was called with to allocate,
    and the pages that `init_pgdir` and `get_pte` took. -/
structure Caller where
  vm : Vm
  slots : List ℕ
  made : List UInt64
  tables : List ℕ

inductive Call
  | getPte (va : UInt64) (alloc : Bool)
  /-- `*slot = pte`. -/
  | store (slot : ℕ) (pte : UInt64)
  /-- `kalloc_page`, for a page of the caller. -/
  | page
deriving DecidableEq, Repr

variable {pd q n m x a : ℕ} {s s₀ t : Vm} {c c' : Caller} {fr fr' fr₀ : List ℕ} {T T' : Tree}
  {va va' pte : UInt64} {alloc : Bool} {r : Option ℕ}
  {E : Stop → Vm → Prop}

/-- After `get_pte(pd, va, alloc)` has returned `r`. -/
def Caller.got (c : Caller) (va : UInt64) (alloc : Bool) (r : Option ℕ) (t : Vm) : Caller where
  vm := t
  slots := r.toList ++ c.slots
  made := if alloc then va :: c.made else c.made
  tables := c.tables ++ t.taken.drop c.vm.taken.length

def Caller.step (pd : ℕ) (c : Caller) : Call → Option Caller
  | .getPte va alloc =>
    match getPte pd va alloc c.vm with
    | .ok r t => some (c.got va alloc r t)
    | .error _ _ => none
  | .store slot pte =>
    match store slot pte c.vm with
    | .ok _ t => some { c with vm := t }
    | .error _ _ => none
  | .page =>
    match kallocPage c.vm with
    | .ok _ t => some { c with vm := t }
    | .error _ _ => none

/-- Entries are stored through slots that `get_pte` returned. -/
def Caller.Allowed (c : Caller) : Call → Prop
  | .getPte _ _ => True
  | .store slot _ => slot ∈ c.slots
  | .page => True

instance (c : Caller) : ∀ a, Decidable (c.Allowed a)
  | .getPte _ _ => inferInstanceAs (Decidable True)
  | .store slot _ => inferInstanceAs (Decidable (slot ∈ c.slots))
  | .page => inferInstanceAs (Decidable True)

abbrev CallRun (pd : ℕ) : Caller → Caller → Prop := Run (Caller.step pd) Caller.Allowed

/-- After `init_pgdir`. -/
def Caller.start (s₀ t : Vm) : Caller where
  vm := t
  slots := []
  made := []
  tables := t.taken.drop s₀.taken.length

/-- The page directory `pd` was built in `s₀` and then used. -/
def Built (pd : ℕ) (s₀ : Vm) (c : Caller) : Prop :=
  ∃ t, initPgdir pd s₀ = .ok () t ∧ CallRun pd (Caller.start s₀ t) c

/-- The caller after `init_pgdir` and the calls of a list. -/
def Caller.build (pd : ℕ) (s₀ : Vm) (calls : List Call) : Option Caller :=
  match initPgdir pd s₀ with
  | .ok _ t => execIf (Caller.step pd) Caller.Allowed (Caller.start s₀ t) calls
  | .error _ _ => none

theorem Built.of_calls {calls : List Call} {β : Type} {f : Caller → β} {b : β}
    (h : (Caller.build pd s₀ calls).map f = some b) : ∃ c, Built pd s₀ c ∧ f c = b := by
  unfold Caller.build at h
  split at h
  · next t ht =>
    obtain ⟨c, hr, hf⟩ := Run.of_execIf_map h
    exact ⟨c, ⟨t, ht, hr⟩, hf⟩
  · cases h

/-- A machine with eight free pages. -/
def smallVm : Vm where
  heap := zeroHeap.kinit (physTop - 8 * pageSize)
  pt := fun _ => 0
  taken := []
  freed := []

def smallPages : List ℕ := (List.range 8).map fun i => physTop - pageSize - i * pageSize

theorem smallVm_free : FreeList smallVm.heap smallPages := by
  have hchain : Chain smallVm.heap.link smallVm.heap.freePages smallPages := by
    decide +kernel
  have hpage : ∀ q ∈ smallPages, (pageSize ∣ q ∧ q ≠ 0 ∧ q + pageSize ≤ 2 ^ 64) ∧
      kernelBase ≤ q := by
    decide +kernel
  exact ⟨⟨hchain, fun q hq => ⟨(hpage q hq).1.1, (hpage q hq).1.2.1, (hpage q hq).1.2.2⟩,
    by decide +kernel⟩, rfl, fun q hq => (hpage q hq).2⟩

/-- `get_pte` was called to allocate for an address with the same table of the last level. -/
def Caller.Covers (c : Caller) (va : UInt64) : Prop := ∃ w ∈ c.made, vpn w / 2 ^ 9 = vpn va / 2 ^ 9

/-! ## The invariant -/

/-- `T` is the tree behind the directory. -/
structure Caller.Inv (c : Caller) (pd : ℕ) (fr : List ℕ) (T : Tree) : Prop where
  dir : PageDir c.vm pd fr T
  slot : ∀ x ∈ c.slots, ∃ n, slotOf T n = some x
  empty : ∀ n x, slotOf T n = some x → x ∉ c.slots → c.vm.heap.word x = 0
  made : ∀ n, n < 2 ^ 36 → (T (tablePath n) ≠ none ↔ ∃ w ∈ c.made, vpn w / 2 ^ 9 = n / 2 ^ 9)
  tables : ∀ a, a ∈ c.tables ↔ ∃ p, T p = some a
  nodup : c.tables.Nodup

/-- A change outside of the free pages and the upper tables. -/
theorem PageDir.frame (hd : PageDir s pd fr T) (hfree : FreeList t.heap fr') (hfr : fr' ⊆ fr)
    (hpt : t.pt = s.pt)
    (hm : ∀ x p, p.length < 3 → T p = some (pageBase x) → t.heap.mem x = s.heap.mem x) :
    PageDir t pd fr' T :=
  ⟨hfree, hd.tables.frame (fun _ hq => hfr hq) hm, by rw [hpt]; exact hd.root⟩

theorem slot_page {h : Heap} (ht : Tables h fr T) (hx : slotOf T n = some x) :
    ∃ a, T (tablePath n) = some a ∧ 8 ∣ x ∧ ∀ y, x ≤ y → y < x + 8 → pageBase y = a := by
  obtain ⟨a, ha, rfl⟩ := slotOf_eq_some.mp hx
  have hd := (ht.page _ a ha).aligned
  exact ⟨a, ha, eight_dvd_entry hd, fun y h1 h2 => pageBase_entry hd index_lt h1 h2⟩

/-- An entry of a page is stored. -/
theorem PageDir.store (hd : PageDir s pd fr T) (hx : slotOf T n = some x) :
    PageDir { s with heap := s.heap.setWord x pte } pd fr T := by
  obtain ⟨a, ha, -, hpage⟩ := slot_page hd.tables hx
  have hmem : ∀ y, pageBase y ≠ a → (s.heap.setWord x pte).mem y = s.heap.mem y := by
    intro y hy
    apply mem_setWord
    by_contra hcon
    exact hy (hpage y (by omega) (by omega))
  refine hd.frame ?_ (List.Subset.refl fr) rfl fun y p hp hT => hmem y ?_
  · refine hd.free.frame rfl rfl fun y hy => hmem y ?_
    rintro rfl
    exact hd.tables.used _ _ ha hy
  · rintro rfl
    rw [hd.tables.inj p _ _ hT ha] at hp
    exact absurd hp (lt_irrefl 3)

/-- A page is taken from the free ones. -/
theorem kallocPage_dir (hd : PageDir s pd fr T) :
    wp kallocPage (fun q t => ∃ fr', fr = q :: fr' ∧ PageDir t pd fr' T ∧ t.pt = s.pt ∧
      t.freed = s.freed ∧ t.taken = s.taken ++ [q] ∧
      ∀ x, pageBase x ∉ fr' → t.heap.mem x = s.heap.mem x) NoPage s := by
  refine kallocPage_spec hd.free fun q fr' h' hfr hfree hmem => ?_
  subst hfr
  refine ⟨fr', rfl, ?_, rfl, rfl, rfl, hmem⟩
  refine hd.frame hfree (List.subset_cons_self q fr') rfl fun x p _ hT => hmem x fun hx => ?_
  exact hd.tables.used p _ hT (List.mem_cons_of_mem q hx)

/-- A directory without tables but for its root. -/
def rootTree (q : ℕ) : Tree := Function.update (fun _ => none) [] (some q)

theorem rootTree_eq_some {p : List ℕ} (h : rootTree q p = some a) : p = [] ∧ a = q := by
  by_cases hp : p = []
  · subst hp
    rw [rootTree, Function.update_self] at h
    exact ⟨rfl, (Option.some.inj h).symm⟩
  · rw [rootTree, Function.update_of_ne hp] at h
    cases h

/-- `init_pgdir` takes a page for the root. -/
theorem initPgdir_spec (h : FreeList s.heap fr) :
    wp (initPgdir pd) (fun _ t => ∃ q fr', fr = q :: fr' ∧
      PageDir t pd fr' (rootTree q) ∧
      t.pt = Function.update s.pt pd q ∧ t.freed = s.freed ∧ t.taken = s.taken ++ [q] ∧
      ∀ x, pageBase x ∉ fr → t.heap.mem x = s.heap.mem x) NoPage s := by
  rw [initPgdir, wp_bind]
  refine kallocPage_spec h fun q fr' h' hfr hfree hmem => ?_
  rw [wp_bind, wp_setPt, wp_clearPage]
  subst hfr
  have hq : KernelPage q := h.kernelPage List.mem_cons_self
  have hnd : q ∉ fr' := (List.nodup_cons.mp h.pages.nodup).1
  refine ⟨q, fr', rfl, ⟨?_, ?_, ?_⟩, rfl, rfl, rfl, fun x hx => ?_⟩
  · refine hfree.frame rfl rfl fun x hx => mem_zeroPage hq.aligned ?_
    rintro rfl
    exact hnd hx
  · constructor
    · intro p a ha
      rwa [(rootTree_eq_some ha).2]
    · intro p a ha
      rwa [(rootTree_eq_some ha).2]
    · intro p p' a ha ha'
      rw [(rootTree_eq_some ha).1, (rootTree_eq_some ha').1]
    · intro p a ha
      rw [(rootTree_eq_some ha).1]
      exact Nat.zero_le 3
    · intro i p a ha
      exact absurd (rootTree_eq_some ha).1 (List.cons_ne_nil i p)
    · intro p a i ha _ hi
      rw [(rootTree_eq_some ha).2, rootTree, Function.update_of_ne (List.cons_ne_nil i p)]
      exact word_zeroPage hi
  · show some q = some (Function.update s.pt pd q pd)
    rw [Function.update_self]
  · rw [List.mem_cons, not_or] at hx
    exact (mem_zeroPage hq.aligned hx.1).trans (hmem x hx.2)

theorem slotOf_rootTree : slotOf (rootTree q) n = none := by
  rw [slotOf, rootTree, tablePath, Function.update_of_ne (List.cons_ne_nil _ _), Option.map_none]

/-- The invariant holds after `init_pgdir`. -/
theorem start_inv (h₀ : FreeList s₀.heap fr₀) (ht : initPgdir pd s₀ = .ok () t) :
    ∃ fr T, (Caller.start s₀ t).Inv pd fr T := by
  obtain ⟨q, fr, rfl, hdir, -, -, htaken, -⟩ := (initPgdir_spec h₀).of_ok ht
  have htables : (Caller.start s₀ t).tables = [q] := by
    rw [Caller.start, htaken, List.drop_left]
  refine ⟨fr, rootTree q, hdir, fun x hx => ?_, fun n x hx => ?_, fun n _ => ?_, fun a => ?_, ?_⟩
  · cases hx
  · rw [slotOf_rootTree] at hx
    cases hx
  · refine iff_of_false (fun hne => ?_) fun ⟨w, hw, _⟩ => ?_
    · exact hne (Option.map_eq_none_iff.mp slotOf_rootTree)
    · cases hw
  · rw [htables, List.mem_singleton]
    constructor
    · rintro rfl
      exact ⟨[], Function.update_self _ _ _⟩
    · rintro ⟨p, hp⟩
      exact (rootTree_eq_some hp).2
  · rw [htables]
    exact List.nodup_singleton q

/-- The table of the last level is the same for addresses of one region. -/
theorem tablePath_eq_iff (hn : n < 2 ^ 36) (hm : m < 2 ^ 36) :
    tablePath n = tablePath m ↔ n / 2 ^ 9 = m / 2 ^ 9 := by
  simp only [tablePath, List.cons.injEq, and_true]
  omega

/-- A slot that was not reached before is empty. -/
theorem Caller.Inv.word_fresh (h : c.Inv pd fr T) (hg : Grows c.vm fr T t fr' T')
    (hx : slotOf T' n = some x) (hnot : x ∉ c.slots) : t.heap.word x = 0 := by
  cases hT : slotOf T n with
  | none => exact hg.word_new hx hT
  | some y =>
    rw [hg.slotOf hT] at hx
    cases hx
    rw [hg.word_slot h.dir.tables hT]
    exact h.empty n _ hT hnot

/-- `get_pte` keeps the invariant. -/
theorem getPte_inv (h : c.Inv pd fr T) (hE : alloc = true → E = NoPage) :
    wp (getPte pd va alloc) (fun r t => ∃ fr' T', (c.got va alloc r t).Inv pd fr' T' ∧
      Grows c.vm fr T t fr' T' ∧ r = slotOf T' (vpn va) ∧ (r = none → alloc = false) ∧
      (alloc = false → t = c.vm ∧ T' = T)) E c.vm := by
  refine (getPte_spec h.dir hE).imp ?_
  rintro r t ⟨fr', T', hg, rfl, hnone, hsame, honly⟩
  obtain ⟨l, rfl, hl⟩ := hg.taken
  have hnew : (c.got va alloc (slotOf T' (vpn va)) t).tables = c.tables ++ l := by
    rw [Caller.got, hl, List.drop_left]
  have hnodup := List.nodup_append.mp h.dir.free.pages.nodup
  refine ⟨fr', T', ⟨hg.pageDir h.dir, ?_, ?_, ?_, ?_, ?_⟩, hg, rfl, hnone, fun he => hsame (.inl he)⟩
  · intro x hx
    rcases List.mem_append.mp hx with hx | hx
    · exact ⟨vpn va, Option.mem_toList.mp hx⟩
    · obtain ⟨n, hn⟩ := h.slot x hx
      exact ⟨n, hg.slotOf hn⟩
  · intro n x hx hnot
    exact h.word_fresh hg hx fun hm => hnot (List.mem_append_right _ hm)
  · intro n hn
    have hmono : T (tablePath n) ≠ none → T' (tablePath n) ≠ none := by
      intro hne
      obtain ⟨a, ha⟩ := Option.ne_none_iff_exists'.mp hne
      rw [hg.ext _ a ha]
      exact Option.some_ne_none a
    cases alloc with
    | false =>
      rw [(hsame (.inl rfl)).2]
      exact h.made n hn
    | true =>
      have hva : T' (tablePath (vpn va)) ≠ none :=
        fun he => absurd (hnone (Option.map_eq_none_iff.mpr he)) (by decide)
      constructor
      · intro hne
        obtain ⟨a, ha⟩ := Option.ne_none_iff_exists'.mp hne
        rcases honly _ a ha with hT | hsuf
        · obtain ⟨w, hw, he⟩ := (h.made n hn).mp (by rw [hT]; exact Option.some_ne_none a)
          exact ⟨w, List.mem_cons_of_mem va hw, he⟩
        · have hpath : tablePath n = tablePath (vpn va) := hsuf.eq_of_length rfl
          exact ⟨va, List.mem_cons_self, ((tablePath_eq_iff hn vpn_lt).mp hpath).symm⟩
      · rintro ⟨w, hw, he⟩
        rcases List.mem_cons.mp hw with rfl | hw
        · rwa [(tablePath_eq_iff hn vpn_lt).mpr he.symm]
        · exact hmono ((h.made n hn).mpr ⟨w, hw, he⟩)
  · intro a
    rw [hnew, List.mem_append, h.tables a]
    constructor
    · rintro (⟨p, hp⟩ | ha)
      · exact ⟨p, hg.ext p a hp⟩
      · exact hg.gone a (List.mem_append_left fr' ha) fun hm => hnodup.2.2 a ha a hm rfl
    · rintro ⟨p, hp⟩
      cases hT : T p with
      | some b =>
        rw [hg.ext p b hT] at hp
        cases hp
        exact .inl ⟨p, hT⟩
      | none =>
        have hm := hg.fresh p a hp hT
        exact .inr ((List.mem_append.mp hm).resolve_right (hg.tables.used p a hp))
  · rw [hnew, List.nodup_append]
    refine ⟨h.nodup, hnodup.1, fun a ha b hb he => ?_⟩
    obtain ⟨p, hp⟩ := (h.tables a).mp ha
    exact h.dir.tables.used p a hp (List.mem_append_left fr' (he ▸ hb))

theorem slot_dvd {h : Heap} (ht : Tables h fr T) (hx : slotOf T n = some x) : 8 ∣ x := by
  obtain ⟨a, -, hd, -⟩ := slot_page ht hx
  exact hd

/-- A store keeps the invariant. -/
theorem store_inv (h : c.Inv pd fr T) (hx : x ∈ c.slots) :
    ({ c with vm := { c.vm with heap := c.vm.heap.setWord x pte } } : Caller).Inv pd fr T := by
  obtain ⟨n, hn⟩ := h.slot x hx
  refine ⟨h.dir.store hn, h.slot, fun m y hy hnot => ?_, h.made, h.tables, h.nodup⟩
  have hne : y ≠ x := by
    rintro rfl
    exact hnot hx
  show (c.vm.heap.setWord x pte).word y = 0
  rw [word_setWord_of_ne (slot_dvd h.dir.tables hn) (slot_dvd h.dir.tables hy) hne]
  exact h.empty m y hy hnot

/-- The last tables are not changed by what changes free pages only. -/
theorem word_slot_congr (ht : Tables s.heap fr T) (hx : slotOf T n = some x)
    (hm : ∀ y, pageBase y ∉ fr → t.heap.mem y = s.heap.mem y) : t.heap.word x = s.heap.word x := by
  obtain ⟨a, ha, -, hpage⟩ := slot_page ht hx
  refine word_congr fun y h1 h2 => hm y ?_
  rw [hpage y h1 h2]
  exact ht.used _ a ha

/-- A page for the caller keeps the invariant. -/
theorem page_inv (h : c.Inv pd fr T) : wp kallocPage (fun _ t => ∃ fr',
    ({ c with vm := t } : Caller).Inv pd fr' T) NoPage c.vm := by
  refine (kallocPage_dir h.dir).imp ?_
  rintro q t ⟨fr', rfl, hdir, -, -, -, hmem⟩
  refine ⟨fr', hdir, h.slot, fun n x hx hnot => ?_, h.made, h.tables, h.nodup⟩
  have hkeep : t.heap.word x = c.vm.heap.word x :=
    word_slot_congr h.dir.tables hx fun y hy => hmem y fun hm => hy (List.mem_cons_of_mem q hm)
  exact hkeep.trans (h.empty n x hx hnot)

/-- Every step keeps the invariant; what `get_pte` found is found again. -/
theorem step_inv {a : Call} (h : c.Inv pd fr T) (hok : c.Allowed a) (hs : c.step pd a = some c') :
    ∃ fr' T', c'.Inv pd fr' T' ∧ ∀ n x, slotOf T n = some x → slotOf T' n = some x := by
  cases a with
  | getPte va alloc =>
    rw [Caller.step] at hs
    split at hs
    · next r t hr =>
      cases hs
      obtain ⟨fr', T', hinv, hg, -⟩ := (getPte_inv h fun _ => rfl).of_ok hr
      exact ⟨fr', T', hinv, fun n x hx => hg.slotOf hx⟩
    · cases hs
  | store slot pte =>
    cases hs
    exact ⟨fr, T, store_inv h hok, fun n x hx => hx⟩
  | page =>
    rw [Caller.step] at hs
    split at hs
    · next r t hr =>
      cases hs
      obtain ⟨fr', hinv⟩ := (page_inv h).of_ok hr
      exact ⟨fr', T, hinv, fun n x hx => hx⟩
    · cases hs

theorem run_inv (h : c.Inv pd fr T) (hr : CallRun pd c c') :
    ∃ fr' T', c'.Inv pd fr' T' ∧ ∀ n x, slotOf T n = some x → slotOf T' n = some x := by
  induction hr with
  | refl => exact ⟨fr, T, h, fun n x hx => hx⟩
  | tail _ hok hs ih =>
    obtain ⟨fr', T', hinv, hkeep⟩ := ih
    obtain ⟨fr'', T'', hinv', hkeep'⟩ := step_inv hinv hok hs
    exact ⟨fr'', T'', hinv', fun n x hx => hkeep' n x (hkeep n x hx)⟩

theorem Built.inv (h₀ : FreeList s₀.heap fr₀) (hb : Built pd s₀ c) : ∃ fr T, c.Inv pd fr T := by
  obtain ⟨t, ht, hr⟩ := hb
  obtain ⟨fr, T, h⟩ := start_inv h₀ ht
  obtain ⟨fr', T', h', -⟩ := run_inv h hr
  exact ⟨fr', T', h'⟩

/-! ## What `get_pte` returns -/

/-- A lookup changes nothing. -/
theorem lookup_eq (h : PageDir s pd fr T) (va : UInt64) :
    getPte pd va false s = .ok (slotOf T (vpn va)) s := by
  have hs : wp (getPte pd va false) (fun r t => r = slotOf T (vpn va) ∧ t = s) (fun _ _ => False) s := by
    refine (getPte_spec h fun he => Bool.noConfusion he).imp ?_
    rintro r t ⟨fr', T', -, rfl, -, hsame, -⟩
    obtain ⟨rfl, rfl⟩ := hsame (.inl rfl)
    exact ⟨rfl, rfl⟩
  obtain ⟨r, t, heq, rfl, rfl⟩ := hs.total
  exact heq

/-- A lookup finds no slot iff an intermediate table is missing. -/
theorem slotOf_eq_none (h : c.Inv pd fr T) : slotOf T (vpn va) = none ↔ ¬ c.Covers va := by
  rw [slotOf, Option.map_eq_none_iff, Caller.Covers, ← h.made (vpn va) vpn_lt, not_not]

theorem vpn_eq (hva : va.toNat < 2 ^ 48) : vpn va = va.toNat / 2 ^ 12 := by
  rw [vpn, Nat.mod_eq_of_lt (by omega)]

theorem vpn_eq_iff (hva : va.toNat < 2 ^ 48) (hva' : va'.toNat < 2 ^ 48) :
    vpn va = vpn va' ↔ va >>> 12 = va' >>> 12 := by
  rw [vpn_eq hva, vpn_eq hva', ← UInt64.toNat_inj, UInt64.toNat_shiftRight, UInt64.toNat_shiftRight,
    Nat.shiftRight_eq_div_pow, Nat.shiftRight_eq_div_pow]
  rfl

/-- Page tables are finite maps. After any calls of `get_pte` and stores of entries a lookup of `va`
    changes nothing, and finds nothing iff an intermediate table is missing. A call that may
    allocate changes no entry that existed and returns a slot, which is empty if it is a new one.
    Whatever the caller does next, `va` keeps this slot, and another address has the same slot iff
    it is in the same page. -/
theorem page_map (h₀ : FreeList s₀.heap fr₀) (hb : Built pd s₀ c) (hva : va.toNat < 2 ^ 48) :
    (∃ r, getPte pd va false c.vm = .ok r c.vm ∧ (r = none ↔ ¬ c.Covers va)) ∧
    wp (getPte pd va true) (fun r t => ∃ slot, r = some slot ∧
      (∀ w x, getPte pd w false c.vm = .ok (some x) c.vm → t.heap.word x = c.vm.heap.word x) ∧
      (slot ∉ c.slots → t.heap.word slot = 0) ∧
      ∀ c', CallRun pd (c.got va true r t) c' →
        getPte pd va false c'.vm = .ok (some slot) c'.vm ∧
        ∀ va' : UInt64, va'.toNat < 2 ^ 48 → wp (getPte pd va' true) (fun r' _ => ∃ slot',
          r' = some slot' ∧ (slot = slot' ↔ va >>> 12 = va' >>> 12)) NoPage c'.vm) NoPage c.vm := by
  obtain ⟨fr, T, h⟩ := hb.inv h₀
  refine ⟨⟨_, lookup_eq h.dir va, slotOf_eq_none h⟩, ?_⟩
  refine (getPte_inv h fun _ => rfl).imp ?_
  rintro r t ⟨fr', T', h', hg, rfl, hnone, -⟩
  obtain ⟨slot, hslot⟩ := Option.ne_none_iff_exists'.mp fun he => Bool.noConfusion (hnone he)
  refine ⟨slot, hslot, fun w x hx => ?_, fun hnot => ?_, fun c' hr => ?_⟩
  · rw [lookup_eq h.dir w, EStateM.Result.ok.injEq] at hx
    exact hg.word_slot h.dir.tables hx.1
  · exact h.word_fresh hg hslot hnot
  · obtain ⟨fr'', T'', h'', hkeep⟩ := run_inv h' hr
    have hslot' := hkeep _ slot hslot
    refine ⟨by rw [lookup_eq h''.dir va, hslot'], fun va' hva' => ?_⟩
    refine (getPte_inv h'' fun _ => rfl).imp ?_
    rintro r' u ⟨fr₃, T₃, h₃, hg₃, rfl, hnone₃, -⟩
    obtain ⟨slot', hs'⟩ := Option.ne_none_iff_exists'.mp fun he => Bool.noConfusion (hnone₃ he)
    refine ⟨slot', hs', ?_⟩
    rw [← vpn_eq_iff hva hva']
    constructor
    · rintro rfl
      exact h₃.dir.tables.slot_inj vpn_lt vpn_lt (hg₃.slotOf hslot') hs'
    · intro he
      have := hg₃.slotOf hslot'
      rw [he, hs'] at this
      exact (Option.some.inj this).symm

/-- After an entry was stored for the second page, and another page taken, the third page gets a
    slot of its own. -/
theorem page_map_small : ∃ c, Built 1 smallVm c ∧ c.slots = [0xFFFF00007FFFC008] ∧
    wp (getPte 1 0x2000 true) (fun r t => ∃ slot, r = some slot ∧
      (∀ w x, getPte 1 w false c.vm = .ok (some x) c.vm → t.heap.word x = c.vm.heap.word x) ∧
      (slot ∉ c.slots → t.heap.word slot = 0) ∧
      ∀ c', CallRun 1 (c.got 0x2000 true r t) c' →
        getPte 1 0x2000 false c'.vm = .ok (some slot) c'.vm ∧
        ∀ va' : UInt64, va'.toNat < 2 ^ 48 → wp (getPte 1 va' true) (fun r' _ => ∃ slot',
          r' = some slot' ∧ (slot = slot' ↔ (0x2000 : UInt64) >>> 12 = va' >>> 12))
          NoPage c'.vm) NoPage c.vm := by
  have h : (Caller.build 1 smallVm [.getPte 0x1000 true, .page,
      .store 0xFFFF00007FFFC008 0x40003747]).map Caller.slots = some [0xFFFF00007FFFC008] := by
    decide +kernel
  obtain ⟨c, hb, hc⟩ := Built.of_calls h
  exact ⟨c, hb, hc, (page_map smallVm_free hb (by decide)).2⟩

end ShikiOS.Kernel.Paging
