import ShikiOS.Kernel.Unlink

/-!
# Freeing a block

`kfree` puts a block behind the first node of the list, or makes it the list. When the
page of the block has no live block left, a walk over the list takes the nodes of that
page out, wherever they stand, and the page leaves the allocator.

Results:
* `Slab.insert`, `Slab.insertFirst`: the block joins the list.
* `unlinkLoop_spec`: the walk keeps the other nodes, in their order.
* `Slab.dropPage`: the allocator without the page.
-/

namespace ShikiOS.Kernel

open ShikiOS.Lib

variable {a p q x i : ℕ} {s t : Heap} {live nodes fresh rest : List ℕ}

/-- The headers after `page->block_count++` for a live block that joins `nodes ++ fresh`. -/
theorem Slab.header_inc (h : Slab s i (a :: live) nodes fresh) (hi : i < 30)
    {nodes' : List ℕ} {u : Heap} (hperm : nodes'.Perm (a :: nodes))
    (hu : ∀ q ∈ s.slabs i, Heap.Agree s u q)
    (hq : q ∈ s.slabs i) :
    (u.setBlockCount (pageBase a) (u.blockCount (pageBase a) + 1)).blockSize q = size i ∧
      (u.setBlockCount (pageBase a) (u.blockCount (pageBase a) + 1)).blockCount q =
        (nodes' ++ fresh).countP (inPage q) := by
  have hcnt : (nodes' ++ fresh).countP (inPage q) = (a :: (nodes ++ fresh)).countP (inPage q) :=
    (hperm.append_right fresh).countP_eq _
  by_cases hqa : q = pageBase a
  · subst hqa
    rw [Heap.blockSize_setBlockCount, Heap.blockCount_setBlockCount, (hu _ hq).blockSize,
      (hu _ hq).blockCount]
    refine ⟨(h.header _ hq).1, ?_⟩
    have hle := h.blockCount_le hi hq
    have hin : inPage (pageBase a) a = true := by simp [inPage]
    rw [List.countP_cons_of_pos hin, ← (h.header _ hq).2] at hcnt
    omega
  · have hag : Heap.Agree u (u.setBlockCount (pageBase a) (u.blockCount (pageBase a) + 1)) q :=
      Heap.agree_setBlockCount (eight_dvd_page (pageBase_dvd a))
        (eight_dvd_page (h.page q hq).aligned) hqa
    rw [hag.blockSize, hag.blockCount, (hu q hq).blockSize, (hu q hq).blockCount, hcnt]
    have hin : ¬ inPage q a = true := by simp [inPage, Ne.symm hqa]
    rw [List.countP_cons_of_neg hin]
    exact h.header q hq

/-- A live block `a` joins the list: `u` is the heap with the new list, in which the
    counter of the page is still to be changed. -/
theorem Slab.put (h : Slab s i (a :: live) nodes fresh) (hi : i < 30) {nodes' : List ℕ} {u : Heap}
    (hperm : nodes'.Perm (a :: nodes))
    (hbs : (u.allocators i).blockSize = size i) (hs : u.slabs i = s.slabs i)
    (hu : ∀ q ∈ s.slabs i, Heap.Agree s u q)
    (hchain : Chain u.link (u.allocators i).freeList nodes')
    (hbump : fresh = [] ∨ (u.allocators i).head = true ∧ ∃ q k rest, q ∈ s.slabs i ∧
      nodes' = (q + 8 + k * size i) :: rest ∧ fresh = slotsFrom (size i) q (k + 1)) :
    Slab (u.setBlockCount (pageBase a) (u.blockCount (pageBase a) + 1)) i live nodes' fresh := by
  have hsub : ∀ x ∈ nodes', x ∈ a :: live ++ nodes ++ fresh := by
    intro x hx
    rcases List.mem_cons.mp (hperm.mem_iff.mp hx) with rfl | hx <;> simp [*]
  refine ⟨hbs, ?_, ?_, by rw [Heap.setBlockCount_slabs, hs]; exact h.nodup, ?_, ?_, ?_⟩
  · refine hchain.congr fun x hx => Heap.Agree.link ?_
    exact Heap.agree_setBlockCount (eight_dvd_page (pageBase_dvd a)) (h.addr hi (hsub x hx)).2.1
      (h.ne_page hi (hsub x hx) (pageBase_dvd a))
  · rw [Heap.setBlockCount_slabs, hs]
    refine List.Perm.trans ?_ h.perm
    refine List.Perm.append_right fresh ?_
    exact (hperm.append_left live).trans List.perm_middle
  · intro q hq
    rw [Heap.setBlockCount_slabs, hs] at hq
    exact h.page q hq
  · intro q hq
    rw [Heap.setBlockCount_slabs, hs] at hq
    exact h.header_inc hi hperm hu hq
  · rw [Heap.setBlockCount_slabs, hs]
    exact hbump

/-- The block becomes the second node (mem.c:262-267). -/
theorem Slab.insert (h : Slab s i (a :: live) (x :: rest) fresh) (hi : i < 30) :
    Slab (((s.setLink a (s.link x)).setLink x a).setBlockCount (pageBase a)
        (((s.setLink a (s.link x)).setLink x a).blockCount (pageBase a) + 1)) i
      live (x :: a :: rest) fresh := by
  obtain ⟨hx, hx0, hrest⟩ := h.chain
  have hnd := h.nodup_blocks hi
  have hnn := h.nodup_nodes hi
  have ha := h.addr hi (a := a) (by simp)
  have hx' := h.addr_node hi (a := x) (by simp)
  have hax : a ≠ x := by
    rintro rfl
    simp at hnd
  refine h.put hi (List.Perm.swap a x _) h.blockSize rfl ?_ ?_ ?_
  · intro q hq
    have hqa := (h.page q hq).aligned
    refine Heap.Agree.trans (t := s.setLink a (s.link x)) ?_ ?_
    · exact Heap.agree_setLink ha.2.1 (eight_dvd_page hqa) (h.ne_page hi (by simp) hqa).symm
    · exact Heap.agree_setLink hx'.2.1 (eight_dvd_page hqa) (h.ne_page hi (by simp) hqa).symm
  · refine ⟨hx, hx0, ?_⟩
    rw [Heap.link_setLink ha.2.2.2.2.1]
    refine ⟨rfl, ha.2.2.2.2.2, ?_⟩
    rw [(Heap.agree_setLink hx'.2.1 ha.2.1 hax).link, Heap.link_setLink (getLE_lt _ _ _)]
    refine Chain.congr hrest fun y hy => ?_
    have hy8 := (h.addr_node hi (List.mem_cons_of_mem x hy)).2.1
    rw [(Heap.agree_setLink hx'.2.1 hy8 ?_).link, (Heap.agree_setLink ha.2.1 hy8 ?_).link]
    · rintro rfl
      simp [hy] at hnd
    · rintro rfl
      simp [hy] at hnn
  · refine h.bump.imp_right ?_
    rintro ⟨hh, q, k, rest', hq, hn, hf⟩
    exact ⟨hh, q, k, a :: rest, hq, by rw [(List.cons.inj hn).1], hf⟩

/-- The block becomes the only node (mem.c:268-273). -/
theorem Slab.insertFirst (h : Slab s i (a :: live) [] []) (hi : i < 30) :
    Slab ((((s.setHead i false).setLink a 0).setFreeList i a).setBlockCount (pageBase a)
        ((((s.setHead i false).setLink a 0).setFreeList i a).blockCount (pageBase a) + 1)) i
      live [a] [] := by
  have ha := h.addr hi (a := a) (by simp)
  refine h.put hi (List.Perm.refl _) ?_ rfl ?_ ?_ (.inl rfl)
  · simpa using h.blockSize
  · intro q hq
    have hqa := (h.page q hq).aligned
    exact Heap.agree_setLink (s := s.setHead i false) ha.2.1 (eight_dvd_page hqa)
      (h.ne_page hi (by simp) hqa).symm
  · simp only [Heap.setFreeList_allocators, Heap.setFreeList_link]
    exact ⟨rfl, ha.2.2.2.2.2, Heap.link_setLink (by norm_num)⟩

/-! ## The walk over the list -/

/-- `t` is `s` with another list of allocator `i`, whose links stand at the nodes `l`. -/
structure ListEdit (i : ℕ) (l : List ℕ) (s t : Heap) : Prop where
  eq : ∃ f, t = { s.setFreeList i f with mem := t.mem }
  agree : ∀ c, 8 ∣ c → c ∉ l → Heap.Agree s t c

/-- Nodes at aligned addresses. -/
theorem WalkEdit.listEdit (h : WalkEdit i rest s t) (h8 : ∀ x ∈ rest, 8 ∣ x) : ListEdit i rest s t := by
  refine ⟨h.eq, fun c hc hcl y h1 h2 => h.mem y fun x hx => ?_⟩
  have h8 := h8 x hx
  have hne : x ≠ c := fun he => hcl (he ▸ hx)
  omega

/-- The walk over the list (mem.c:283-303) from its first node on. -/
theorem unlinkLoop_spec {index fuel : ℕ} (page : ℕ) (hfuel : rest.length < fuel)
    (hrest : Chain s.link (s.allocators index).freeList rest) (hnd : rest.Nodup)
    (h8 : ∀ x ∈ rest, 8 ∣ x) :
    ∃ t, Heap.unlinkLoop index page fuel s 0 (s.allocators index).freeList = some t ∧
      Chain t.link (t.allocators index).freeList (rest.filter fun x => !inPage page x) ∧
      ListEdit index rest s t := by
  obtain ⟨t, h1, h2, h3⟩ := unlinkLoop_apart page [] hfuel rfl hrest (pairwise_apart h8 hnd)
    (.inl ⟨rfl, rfl⟩)
  exact ⟨t, h1, h2, h3.listEdit h8⟩

/-! ## The allocator without a page -/

/-- The slots of some pages, less those of one page. -/
theorem filter_pages {b : ℕ} (h8 : 8 ∣ b) (hb : 0 < b) {pages : List ℕ}
    (hp : ∀ q ∈ pages, pageSize ∣ q) :
    (pages.flatMap (slots b)).filter (fun x => !inPage q x) =
      (pages.filter (· != q)).flatMap (slots b) := by
  induction pages with
  | nil => rfl
  | cons p ps ih =>
    have hin : ∀ x ∈ slots b p, pageBase x = p := fun x hx =>
      (mem_slots h8 hb (hp p List.mem_cons_self) hx).2.2.2
    rw [List.flatMap_cons, List.filter_append, ih fun q hq => hp q (List.mem_cons_of_mem p hq)]
    by_cases h : p = q
    · subst h
      rw [List.filter_eq_nil_iff.mpr fun x hx => by simp [inPage, hin x hx], List.nil_append,
        List.filter_cons_of_neg (by simp)]
    · rw [List.filter_eq_self.mpr fun x hx => by simp [inPage, hin x hx, h],
        List.filter_cons_of_pos (by simp [h]), List.flatMap_cons]

/-- The page `q` without live blocks leaves the allocator: `t` is the heap with its nodes
    out of the list. -/
theorem Slab.dropPage (h : Slab s i live nodes fresh) (hi : i < 30)
    (hfree : live.countP (inPage q) = 0) (hedit : ListEdit i nodes s t)
    (hchain : Chain t.link (t.allocators i).freeList (nodes.filter fun x => !inPage q x)) :
    Slab (t.setSlabs i ((t.slabs i).erase q)) i live (nodes.filter fun x => !inPage q x)
      (fresh.filter fun x => !inPage q x) := by
  obtain ⟨h8, hb, -⟩ := size_spec hi
  obtain ⟨f, hf⟩ := hedit.eq
  have hslabs : t.slabs i = s.slabs i := by rw [hf]; rfl
  have halloc : t.allocators i = { s.allocators i with freeList := f } := by
    rw [hf]
    simp
  have herase : (s.slabs i).erase q = (s.slabs i).filter (· != q) := h.nodup.erase_eq_filter q
  have hmem : ∀ p, p ∈ (s.slabs i).erase q → p ∈ s.slabs i ∧ p ≠ q := by
    intro p hp
    rw [herase, List.mem_filter] at hp
    exact ⟨hp.1, by simpa using hp.2⟩
  refine ⟨?_, hchain, ?_, ?_, ?_, ?_, ?_⟩
  · rw [Heap.setSlabs_allocators, halloc]
    exact h.blockSize
  · rw [Heap.setSlabs_slabs, hslabs, herase,
      ← filter_pages h8 (by omega) fun q hq => (h.page q hq).aligned]
    have hp := h.perm.filter fun x => !inPage q x
    have hl : live.filter (fun x => !inPage q x) = live :=
      List.filter_eq_self.mpr fun x hx => by simpa using List.countP_eq_zero.mp hfree x hx
    rwa [List.filter_append, List.filter_append, hl] at hp
  · rw [Heap.setSlabs_slabs, hslabs]
    exact h.nodup.erase q
  · intro p hp
    rw [Heap.setSlabs_slabs, hslabs] at hp
    exact h.page p (hmem p hp).1
  · intro p hp
    rw [Heap.setSlabs_slabs, hslabs] at hp
    obtain ⟨hp, hpq⟩ := hmem p hp
    have hag := hedit.agree p (eight_dvd_page (h.page p hp).aligned) fun hn =>
      h.ne_page_node hi hn (h.page p hp).aligned rfl
    rw [Heap.setSlabs_blockSize, Heap.setSlabs_blockCount, hag.blockSize, hag.blockCount,
      (h.header p hp).1, (h.header p hp).2, ← List.filter_append, List.countP_filter]
    refine ⟨rfl, List.countP_congr fun x _ => ?_⟩
    simp only [inPage, decide_eq_true_eq, Bool.and_eq_true, Bool.not_eq_true',
      decide_eq_false_iff_not]
    constructor
    · rintro rfl
      exact ⟨rfl, hpq⟩
    · exact fun h => h.1
  · rw [Heap.setSlabs_allocators, Heap.setSlabs_slabs, hslabs, halloc]
    rcases h.bump with hfr | ⟨hh, p, k, rest, hp, rfl, hfr⟩
    · exact .inl (by rw [hfr, List.filter_nil])
    · by_cases hk : k + 1 < capacity (size i)
      swap
      · left
        rw [hfr, slotsFrom, show capacity (size i) - (k + 1) = 0 by omega]
        rfl
      have hin : ∀ x ∈ fresh, pageBase x = p := by
        intro x hx
        rw [hfr] at hx
        exact (mem_slots h8 (by omega) (h.page p hp).aligned (slotsFrom_subset hx)).2.2.2
      by_cases hpq : p = q
      · subst hpq
        exact .inl (List.filter_eq_nil_iff.mpr fun x hx => by simp [inPage, hin x hx])
      · right
        have hfirst : pageBase (p + 8 + k * size i) = p := by
          have hslot : p + 8 + k * size i ∈ slots (size i) p :=
            mem_slotsFrom.mpr ⟨k, Nat.zero_le _, by omega, rfl⟩
          exact (mem_slots h8 (by omega) (h.page p hp).aligned hslot).2.2.2
        refine ⟨hh, p, k, rest.filter fun x => !inPage q x, ?_, ?_, ?_⟩
        · rw [herase]
          simpa [hpq] using hp
        · rw [List.filter_cons_of_pos]
          simp [inPage, hfirst, hpq]
        · rw [← hfr, List.filter_eq_self]
          intro x hx
          simp [inPage, hin x hx, hpq]

/-! ## What `kfree` does to an allocator -/

/-- A live block goes into the list. -/
theorem Slab.putBlock (h : Slab s i (a :: live) nodes fresh) (hi : i < 30) :
    ∃ nodes', Slab (s.putBlock i (pageBase a) a) i live nodes' fresh ∧
      (s.putBlock i (pageBase a) a).slabs = s.slabs ∧
      ClassEdit i (s.slabs i) s (s.putBlock i (pageBase a) a) := by
  have ha := h.addr hi (a := a) (by simp)
  cases nodes with
  | cons x rest =>
    have hx := h.addr_node hi (a := x) (by simp)
    have hput : s.putBlock i (pageBase a) a =
        ((s.setLink a (s.link x)).setLink x a).setBlockCount (pageBase a)
          (((s.setLink a (s.link x)).setLink x a).blockCount (pageBase a) + 1) := by
      simp only [Heap.putBlock, h.chain.1, ne_eq, h.chain.2.1, not_false_eq_true, if_true]
    rw [hput]
    refine ⟨_, h.insert hi, rfl, ?_⟩
    exact (((ClassEdit.refl i _ s).setLink ha.2.1 ha.1).setLink hx.2.1 hx.1).setBlockCount ha.1
  | nil =>
    obtain rfl : fresh = [] := by
      rcases h.bump with hf | ⟨-, q, k, r, -, hn, -⟩
      · exact hf
      · exact absurd hn.symm (List.cons_ne_nil _ _)
    have h0 : (s.allocators i).freeList = 0 := h.chain
    have hput : s.putBlock i (pageBase a) a =
        (((s.setHead i false).setLink a 0).setFreeList i a).setBlockCount (pageBase a)
          ((((s.setHead i false).setLink a 0).setFreeList i a).blockCount (pageBase a) + 1) := by
      simp only [Heap.putBlock, h0, ne_eq, not_true_eq_false, if_false]
    rw [hput]
    refine ⟨_, h.insertFirst hi, rfl, ?_⟩
    exact ((((ClassEdit.refl i _ s).setHead).setLink ha.2.1 ha.1).setFreeList).setBlockCount ha.1

/-- The nodes are addresses below `2^64`. -/
theorem Slab.length_nodes (h : Slab s i live nodes fresh) (hi : i < 30) :
    nodes.length < 2 ^ 64 + 1 := by
  have hsub : nodes.toFinset ⊆ Finset.range (2 ^ 64) := by
    intro x hx
    rw [List.mem_toFinset] at hx
    exact Finset.mem_range.mpr (h.addr_node hi hx).2.2.2.2.1
  have hcard := Finset.card_le_card hsub
  rw [List.toFinset_card_of_nodup (h.nodup_nodes hi), Finset.card_range] at hcard
  omega

/-- The page `q` without live blocks is taken out of the allocator (mem.c:279-303). -/
theorem Slab.releasePage (h : Slab s i live nodes fresh) (hi : i < 30)
    (hfree : live.countP (inPage q) = 0) :
    ∃ t nodes' fresh', Heap.unlinkLoop i q (2 ^ 64 + 1) s 0 (s.allocators i).freeList = some t ∧
      t.slabs = s.slabs ∧
      Slab (t.setSlabs i ((t.slabs i).erase q)) i live nodes' fresh' ∧
      ClassEdit i (s.slabs i) s (t.setSlabs i ((t.slabs i).erase q)) := by
  have h8 : ∀ x ∈ nodes, 8 ∣ x := fun x hx => (h.addr_node hi hx).2.1
  obtain ⟨t, h1, h2, h3⟩ := unlinkLoop_spec q (h.length_nodes hi) h.chain (h.nodup_nodes hi) h8
  obtain ⟨f, hf⟩ := h3.eq
  have hslabs : t.slabs = s.slabs := by rw [hf]; rfl
  refine ⟨t, _, _, h1, hslabs, h.dropPage hi hfree h3 h2, ClassEdit.setSlabs ?_⟩
  refine ⟨fun j hj => ?_, fun j _ => by rw [hslabs], by rw [hf]; rfl, by rw [hf]; rfl,
    by rw [hf]; rfl, by rw [hf]; rfl, fun c hc hcl => h3.agree c hc fun hn => ?_⟩
  · rw [hf]
    exact Heap.setFreeList_allocators_of_ne hj
  · exact hcl (h.addr_node hi hn).1

end ShikiOS.Kernel
