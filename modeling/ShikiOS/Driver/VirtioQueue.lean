import ShikiOS.Driver.VirtioBlk

/-!
# The descriptors of the queue (`driver/virtio_blk.c`, lines 17-58)

The descriptors are the free chain and the chains of three of the requests in flight. The
number of free descriptors is 16 less a multiple of 3, so it is 0 only in the middle of an
allocation that PANICs, and the chain never gets a stale end.

Results:
* `Queue.submit`: a request gets three free descriptors; `Queue.submit_none`: or the driver
  PANICs.
* `Queue.finish`: they go back to the free chain.
-/

namespace ShikiOS.Driver.Virtio

variable {desc desc' : ℕ → Desc} {q q' : Virtq} {free heads : List ℕ} {a b d d0 d1 d2 h n : ℕ}

/-! ## Links -/

/-- The descriptor `a` goes on with `b`. -/
def Link (desc : ℕ → Desc) (a b : ℕ) : Prop := (desc a).hasNext = true ∧ (desc a).next = b

/-- A chain of three. -/
structure Triple (desc : ℕ → Desc) (d0 d1 d2 : ℕ) : Prop where
  fst : Link desc d0 d1
  snd : Link desc d1 d2
  last : (desc d2).hasNext = false

theorem Triple.walk (h : Triple desc d0 d1 d2) : walk desc 3 d0 = [d0, d1, d2] := by
  rw [Virtio.walk, Virtio.walk, Virtio.walk, Virtio.walk, h.fst.2, h.snd.2]

theorem Triple.congr (h : Triple desc d0 d1 d2) (h0 : desc' d0 = desc d0)
    (h1 : desc' d1 = desc d1) (h2 : desc' d2 = desc d2) : Triple desc' d0 d1 d2 := by
  refine ⟨?_, ?_, ?_⟩
  · unfold Link
    rw [h0]
    exact h.fst
  · unfold Link
    rw [h1]
    exact h.snd
  · rw [h2]
    exact h.last

theorem Triple.unique (h : Triple desc d0 d1 d2) (h' : Triple desc d0 a b) : a = d1 ∧ b = d2 := by
  obtain rfl : a = d1 := h'.fst.2.symm.trans h.fst.2
  exact ⟨rfl, h'.snd.2.symm.trans h.snd.2⟩

/-- The links along a list. -/
theorem walk_eq (hl : free.IsChain (Link desc)) (hh : free.head? = some d) :
    walk desc free.length d = free := by
  induction free generalizing d with
  | nil => cases hh
  | cons a l ih =>
    obtain rfl : a = d := Option.some.inj hh
    cases l with
    | nil => rfl
    | cons b l =>
      rw [List.isChain_cons_cons] at hl
      rw [List.length_cons, Virtio.walk, hl.1.2, ih hl.2 rfl]

theorem isChain_congr (hl : free.IsChain (Link desc)) (hd : ∀ a ∈ free, desc' a = desc a) :
    free.IsChain (Link desc') := by
  refine hl.imp_of_mem_imp fun a b ha _ hab => ?_
  unfold Link
  rw [hd a ha]
  exact hab

/-! ## The invariant of the queue -/

/-- The chains of some requests, one behind the other. -/
def chains (desc : ℕ → Desc) (heads : List ℕ) : List ℕ := heads.flatMap (walk desc 3)

/-- `free` is the free chain, and `heads` are the heads of the chains of the requests; together
    they are all descriptors. -/
structure Queue (q : Virtq) (free heads : List ℕ) : Prop where
  parts : (free ++ chains q.desc heads).Perm (List.range nqueue)
  head : free.head? = some q.freeHead
  link : free.IsChain (Link q.desc)
  nfree : q.nfree = free.length
  triple : ∀ h ∈ heads, ∃ d1 d2, Triple q.desc h d1 d2

theorem length_walk : (walk desc n d).length = n := by
  induction n generalizing d with
  | zero => rfl
  | succ n ih => rw [walk, List.length_cons, ih]

theorem length_chains : (chains desc heads).length = 3 * heads.length := by
  unfold chains
  induction heads with
  | nil => rfl
  | cons h l ih =>
    rw [List.flatMap_cons, List.length_append, ih, length_walk, List.length_cons]
    omega

theorem Queue.length (h : Queue q free heads) : free.length + 3 * heads.length = 16 := by
  have := h.parts.length_eq
  rwa [List.length_append, length_chains, List.length_range] at this

theorem Queue.nodup (h : Queue q free heads) : (free ++ chains q.desc heads).Nodup :=
  h.parts.nodup_iff.mpr List.nodup_range

/-- The requests can be put in another order. -/
theorem Queue.perm {heads' : List ℕ} (h : Queue q free heads) (hp : heads'.Perm heads) :
    Queue q free heads' :=
  ⟨((hp.flatMap_right _).append_left free).trans h.parts, h.head, h.link, h.nfree,
    fun x hx => h.triple x (hp.mem_iff.mp hx)⟩

/-- Only the descriptors and the free chain matter. -/
theorem Queue.congr (h : Queue q free heads) (hd : q'.desc = q.desc)
    (hf : q'.freeHead = q.freeHead) (hn : q'.nfree = q.nfree) : Queue q' free heads :=
  ⟨hd ▸ h.parts, hf ▸ h.head, hd ▸ h.link, hn ▸ h.nfree, hd ▸ h.triple⟩

theorem mem_chains (hh : h ∈ heads) : h ∈ chains desc heads :=
  List.mem_flatMap.mpr ⟨h, hh, List.mem_cons_self⟩

theorem nodup_of_chains (hn : (chains desc heads).Nodup) : heads.Nodup := by
  induction heads with
  | nil => exact List.nodup_nil
  | cons h l ih =>
    unfold chains at hn
    rw [List.flatMap_cons, List.nodup_append] at hn
    refine List.nodup_cons.mpr ⟨fun hm => ?_, ih hn.2.1⟩
    exact hn.2.2 h List.mem_cons_self h (mem_chains hm) rfl

theorem Queue.heads_nodup (h : Queue q free heads) : heads.Nodup :=
  nodup_of_chains (List.nodup_append.mp h.nodup).2.1

theorem Queue.free_eq (h : Queue q free heads) : walk q.desc q.nfree q.freeHead = free := by
  rw [h.nfree]
  exact walk_eq h.link h.head

theorem walk_congr (hd : ∀ a ∈ walk desc n d, desc' a = desc a) :
    walk desc' n d = walk desc n d := by
  induction n generalizing d with
  | zero => rfl
  | succ n ih =>
    rw [walk, walk, hd d List.mem_cons_self, ih fun a ha => hd a (List.mem_cons_of_mem _ ha)]

theorem mem_chains_of_mem_walk (hh : h ∈ heads) (hd : d ∈ walk desc 3 h) :
    d ∈ chains desc heads :=
  List.mem_flatMap.mpr ⟨h, hh, hd⟩

/-- Only the descriptors of the chains matter to them. -/
theorem chains_congr (desc' : ℕ → Desc) (ht : ∀ h ∈ heads, ∃ d1 d2, Triple desc h d1 d2)
    (hd : ∀ d ∈ chains desc heads, desc' d = desc d) :
    chains desc' heads = chains desc heads ∧ ∀ h ∈ heads, ∃ d1 d2, Triple desc' h d1 d2 := by
  have htriple : ∀ h ∈ heads, ∃ d1 d2, Triple desc h d1 d2 ∧ Triple desc' h d1 d2 := by
    intro h hh
    obtain ⟨d1, d2, h3⟩ := ht h hh
    have hmem : ∀ d ∈ [h, d1, d2], desc' d = desc d := by
      intro d hm
      refine hd d (mem_chains_of_mem_walk hh ?_)
      rwa [h3.walk]
    exact ⟨d1, d2, h3, h3.congr (hmem h (by simp)) (hmem d1 (by simp)) (hmem d2 (by simp))⟩
  refine ⟨?_, fun h hh => ?_⟩
  · refine List.flatMap_congr fun h hh => ?_
    obtain ⟨d1, d2, h3, h3'⟩ := htriple h hh
    rw [h3.walk, h3'.walk]
  · obtain ⟨d1, d2, -, h3'⟩ := htriple h hh
    exact ⟨d1, d2, h3'⟩

/-! ## A new request -/

variable {p : ℕ} {write : Bool}

/-- What `submit` does with three descriptors. -/
structure Submitted (q q' : Virtq) (p d0 d1 d2 : ℕ) : Prop where
  triple : Triple q'.desc d0 d1 d2
  addr : (q'.desc d0).addr = .hdr p ∧ (q'.desc d1).addr = .data p ∧ (q'.desc d2).addr = .status d0
  desc : ∀ d, d ≠ d0 → d ≠ d1 → d ≠ d2 → q'.desc d = q.desc d
  avail : q'.avail = q.avail.push d0
  used : q'.used = q.used
  lastUsedIdx : q'.lastUsedIdx = q.lastUsedIdx
  info : q'.info = Function.update q.info d0 { q.info d0 with buf := some p }

/-- `alloc_desc` on a free chain with more than one descriptor. -/
theorem allocDesc_eq (hn : q.nfree ≠ 0) (hl : Link q.desc q.freeHead b) :
    q.allocDesc = some (q.freeHead, { q with freeHead := b, nfree := q.nfree - 1 }) := by
  unfold Virtq.allocDesc
  dsimp only
  rw [if_neg hn, if_pos hl.1, hl.2]

/-- The descriptors of a new request are the first three of the free chain. -/
theorem submit_eq {d3 : ℕ} {rest : List ℕ} (p : ℕ) (write : Bool)
    (hf : free = d0 :: d1 :: d2 :: d3 :: rest)
    (hh : free.head? = some q.freeHead) (hl : free.IsChain (Link q.desc))
    (hn : q.nfree = free.length) (hd : free.Nodup) :
    ∃ q', q.submit p write = some (d0, q') ∧ Submitted q q' p d0 d1 d2 ∧ q'.freeHead = d3 ∧
      q'.nfree = q.nfree - 3 := by
  subst hf
  obtain rfl : d0 = q.freeHead := Option.some.inj hh
  simp only [List.isChain_cons_cons] at hl
  obtain ⟨h01, h12, h23, -⟩ := hl
  simp only [List.nodup_cons, List.mem_cons, not_or] at hd
  obtain ⟨⟨n01, n02, -⟩, ⟨n12, -⟩, -⟩ := hd
  simp only [List.length_cons] at hn
  have h1 : q.allocDesc = some (q.freeHead, { q with freeHead := d1, nfree := q.nfree - 1 }) :=
    allocDesc_eq (by omega) h01
  unfold Virtq.submit
  rw [h1]
  simp only [Option.bind_eq_bind, Option.bind_some, Virtq.setDesc]
  rw [allocDesc_eq (b := d2) (by dsimp only; omega)]
  swap
  · unfold Link
    dsimp only
    rw [Function.update_of_ne (Ne.symm n01)]
    exact h12
  simp only [Option.bind_some]
  rw [allocDesc_eq (b := d3) (by dsimp only; omega)]
  swap
  · unfold Link
    dsimp only
    rw [Function.update_of_ne (Ne.symm n12), Function.update_of_ne (Ne.symm n02),
      Function.update_of_ne (Ne.symm n02)]
    exact h23
  simp only [Option.bind_some, Virtq.setInfo]
  refine ⟨_, rfl, ⟨⟨?_, ?_, ?_⟩, ⟨?_, ?_, ?_⟩, fun d e0 e1 e2 => ?_, rfl, rfl, rfl, rfl⟩, rfl, ?_⟩
  · unfold Link Desc.hasNext
    simp only [Function.update_of_ne n01, Function.update_of_ne n02, Function.update_self]
    exact ⟨by decide, trivial⟩
  · unfold Link Desc.hasNext
    simp only [Function.update_of_ne n12, Function.update_self]
    exact ⟨by cases write <;> decide, trivial⟩
  · unfold Desc.hasNext
    simp only [Function.update_self]
    decide
  · simp [Function.update_of_ne n01, Function.update_of_ne n02]
  · simp [Function.update_of_ne n12]
  · simp
  · simp [Function.update_of_ne e0, Function.update_of_ne e1, Function.update_of_ne e2]
  · dsimp only
    omega

/-- A new request takes three descriptors from the free chain. -/
theorem Queue.submit (h : Queue q free heads) (hlen : 4 ≤ free.length) (p : ℕ) (write : Bool) :
    ∃ d0 d1 d2 rest q', free = d0 :: d1 :: d2 :: rest ∧ q.submit p write = some (d0, q') ∧
      Submitted q q' p d0 d1 d2 ∧ Queue q' rest (d0 :: heads) ∧
      ∀ d ∈ chains q.desc heads, q'.desc d = q.desc d := by
  match hf : free, hlen with
  | d0 :: d1 :: d2 :: d3 :: rest, _ =>
  have hnd := h.nodup
  obtain ⟨hfree, -, hdisj⟩ := List.nodup_append.mp hnd
  obtain ⟨q', hq', hs, hhead, hnfree⟩ := submit_eq p write rfl h.head h.link h.nfree hfree
  -- the descriptors that stay are not among the three
  have hold : ∀ d, d ∈ (d3 :: rest) ++ chains q.desc heads → q'.desc d = q.desc d := by
    intro d hd
    have hne : ∀ x ∈ [d0, d1, d2], d ≠ x := by
      rintro x hx rfl
      rcases List.mem_append.mp hd with hd | hd
      · have : [d0, d1, d2].Disjoint (d3 :: rest) :=
          List.disjoint_of_nodup_append (show ([d0, d1, d2] ++ d3 :: rest).Nodup from hfree)
        exact this hx hd
      · exact hdisj d (List.mem_append_left (d3 :: rest) hx) d hd rfl
    exact hs.desc d (hne d0 (by simp)) (hne d1 (by simp)) (hne d2 (by simp))
  obtain ⟨hchains, htriple⟩ := chains_congr q'.desc h.triple fun d hd =>
    hold d (List.mem_append_right _ hd)
  refine ⟨d0, d1, d2, d3 :: rest, q', rfl, hq', hs, ⟨?_, ?_, ?_, ?_, ?_⟩, fun d hd =>
    hold d (List.mem_append_right _ hd)⟩
  · refine List.Perm.trans ?_ h.parts
    unfold chains at hchains ⊢
    rw [List.flatMap_cons, hchains, hs.triple.walk]
    exact List.perm_append_comm_assoc (d3 :: rest) [d0, d1, d2] _
  · rw [hhead]
    rfl
  · refine isChain_congr ?_ fun a ha => hold a (List.mem_append_left _ ha)
    have := h.link
    simp only [List.isChain_cons_cons] at this
    exact this.2.2.2
  · rw [hnfree, h.nfree]
    rfl
  · intro x hx
    rcases List.mem_cons.mp hx with rfl | hx
    · exact ⟨d1, d2, hs.triple⟩
    · exact htriple x hx

/-- With less than three free descriptors the driver PANICs. -/
theorem Queue.submit_none (h : Queue q free heads) (hlen : free.length < 3) (p : ℕ)
    (write : Bool) : q.submit p write = none := by
  have hone : q.nfree = 1 := by
    have := h.length
    have := h.nfree
    omega
  have h1 : ∃ d q1, q.allocDesc = some (d, q1) ∧ q1.nfree = 0 := by
    unfold Virtq.allocDesc
    rw [if_neg (by omega)]
    exact ⟨_, _, rfl, by dsimp only; omega⟩
  obtain ⟨d, q1, hq1, hn1⟩ := h1
  unfold Virtq.submit
  rw [hq1]
  simp only [Option.bind_eq_bind, Option.bind_some]
  rw [show (q1.setDesc d _).allocDesc = none from if_pos hn1]
  rfl

/-! ## A request that is done -/

/-- What `finish` does with a chain of three. -/
structure Finished (q q' : Virtq) (d0 d2 : ℕ) : Prop where
  last : Link q'.desc d2 q.freeHead
  addr : (q'.desc d2).addr = (q.desc d2).addr
  desc : ∀ d, d ≠ d2 → q'.desc d = q.desc d
  freeHead : q'.freeHead = d0
  nfree : q'.nfree = q.nfree + 3
  avail : q'.avail = q.avail
  used : q'.used = q.used
  lastUsedIdx : q'.lastUsedIdx = q.lastUsedIdx
  info : q'.info = Function.update q.info d0 { q.info d0 with done := false }

/-- `free_desc` walks along the chain. -/
theorem chainEnd_eq (ht : Triple q.desc d0 d1 d2) : q.chainEnd nqueue d0 = some (d2, 3) := by
  show q.chainEnd 16 d0 = _
  rw [Virtq.chainEnd, if_pos ht.fst.1, ht.fst.2, Virtq.chainEnd, if_pos ht.snd.1, ht.snd.2,
    Virtq.chainEnd, if_neg (by rw [ht.last]; decide)]
  rfl

/-- The chain of a request is put before the free one. -/
theorem finish_eq (ht : Triple q.desc d0 d1 d2) (hn : q.nfree ≠ 0) :
    ∃ q', q.finish d0 = some q' ∧ Finished q q' d0 d2 := by
  have hend := chainEnd_eq (q := q.setInfo d0 fun i => { i with done := false }) ht
  unfold Virtq.finish Virtq.freeDesc
  rw [hend]
  refine ⟨_, rfl, ⟨⟨?_, ?_⟩, ?_, fun d hd => Function.update_of_ne hd _ _, rfl, rfl, rfl, rfl, rfl,
    rfl⟩⟩
  · unfold Desc.hasNext
    simp only [Virtq.setDesc, Function.update_self]
    decide
  · simp only [Virtq.setDesc, Function.update_self]
    exact if_neg hn
  · simp only [Virtq.setDesc, Function.update_self]
    rfl

/-- A finished request gives its descriptors back to the free chain. -/
theorem Queue.finish (h : Queue q free heads) (hd0 : d0 ∈ heads) :
    ∃ d1 d2 q', walk q.desc 3 d0 = [d0, d1, d2] ∧ q.finish d0 = some q' ∧ Finished q q' d0 d2 ∧
      Queue q' (d0 :: d1 :: d2 :: free) (heads.erase d0) ∧
      ∀ d ∈ chains q.desc (heads.erase d0), q'.desc d = q.desc d := by
  obtain ⟨d1, d2, ht⟩ := h.triple d0 hd0
  have hne : q.nfree ≠ 0 := by
    have := h.length
    have := h.nfree
    omega
  have hq := h.perm (List.perm_cons_erase hd0).symm
  have hnd := hq.nodup
  unfold chains at hnd
  rw [List.flatMap_cons, ht.walk] at hnd
  obtain ⟨-, hnd', hdisj⟩ := List.nodup_append.mp hnd
  obtain ⟨h3, -, hdisj'⟩ := List.nodup_append.mp hnd'
  simp only [List.nodup_cons, List.mem_cons, not_or, List.not_mem_nil, or_false] at h3
  obtain ⟨⟨n01, n02⟩, n12, -⟩ := h3
  obtain ⟨q', hq', hfin⟩ := finish_eq ht hne
  have hfree : ∀ d ∈ free, q'.desc d = q.desc d := fun d hd =>
    hfin.desc d (hdisj d hd d2 (by simp))
  have hrest : ∀ d ∈ chains q.desc (heads.erase d0), q'.desc d = q.desc d := by
    refine fun d hd => hfin.desc d ?_
    rintro rfl
    exact hdisj' d (by simp) d hd rfl
  obtain ⟨hchains, htriple⟩ := chains_congr q'.desc
    (fun x hx => h.triple x (List.mem_of_mem_erase hx)) hrest
  refine ⟨d1, d2, q', ht.walk, hq', hfin, ⟨?_, ?_, ?_, ?_, htriple⟩, hrest⟩
  · refine List.Perm.trans ?_ hq.parts
    unfold chains at hchains ⊢
    rw [hchains, List.flatMap_cons, ht.walk]
    exact (List.perm_append_comm_assoc free [d0, d1, d2] _).symm
  · rw [hfin.freeHead]
    rfl
  · have hlink : ∀ {a b}, a ≠ d2 → Link q.desc a b → Link q'.desc a b := by
      intro a b ha hab
      unfold Link
      rw [hfin.desc a ha]
      exact hab
    have hold := isChain_congr h.link hfree
    refine List.isChain_cons_cons.mpr ⟨hlink n02 ht.fst, List.isChain_cons_cons.mpr
      ⟨hlink n12 ht.snd, ?_⟩⟩
    have hhead := h.head
    cases free with
    | nil => cases hhead
    | cons a l =>
      obtain rfl : a = q.freeHead := Option.some.inj hhead
      exact List.isChain_cons_cons.mpr ⟨hfin.last, hold⟩
  · rw [hfin.nfree, h.nfree]
    rfl

end ShikiOS.Driver.Virtio
