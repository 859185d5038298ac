import ShikiOS.Driver.VirtioInvariant

/-!
# What the block device driver guarantees (`driver/virtio_blk.c`)

While no waiter is killed, every descriptor is free or in the chain of one request, and every
completion posts the caller of its request, once. A waiter that is killed leaves its
descriptors, its header and its Buf to the device.

Results:
* `requests_owned`: the descriptors and the completions of every run without kills.
* `no_request_outlives_caller`: also without starvation, no call leaves anything behind.
* `request_outlives_killed_caller`: a killed one does.
-/

namespace ShikiOS.Driver.Virtio

open ShikiOS.Lib

variable {s t : State} {free avail used done : List ℕ} {p h d0 : ℕ} {a : Action}

/-! ## Requests and their descriptors -/

/-- The free chain and the chains of the requests in flight are disjoint, and are all
    descriptors. -/
structure Owned (s : State) : Prop where
  parts : ∃ heads : List ℕ, (∀ d0, d0 ∈ heads ↔ ∃ p, s.InFlight p d0) ∧
    (s.free ++ heads.flatMap s.chain).Perm (List.range nqueue)
  triple : ∀ p d0, s.InFlight p d0 → ∃ d1 d2, Triple s.q.desc d0 d1 d2
  caller : ∀ p q d0, s.InFlight p d0 → s.InFlight q d0 → p = q
  alloc : ∀ d q, s.q.allocDesc = some (d, q) → d ∈ s.free
  submit : ∀ p write, s.pc p = some (.submit write) → (s.submit p write).panicked = false →
    ∃ d0, (s.submit p write).pc p = some (.wait d0) ∧ ∀ d ∈ (s.submit p write).chain d0, d ∈ s.free

/-- Completions go to the callers of their requests, and each caller is posted once. -/
structure Delivered (s : State) : Prop where
  buf : s.misdelivered = false
  intr : ∃ t, s.intr = some t ∧ t.panicked = false ∧ t.misdelivered = false ∧
    ∀ p d0, s.InFlight p d0 → t.woken p = t.reported p
  once : ∀ p d0, s.InFlight p d0 → s.woken p ≤ s.reported p ∧ s.reported p ≤ 1
  asleep : ∀ p d0, s.pc p = some (.asleep d0) → (p ∈ (s.sem p).sleeplist ↔ s.woken p = 0)
  finish : ∀ p d0, s.pc p = some (.finish d0) →
    s.woken p = 1 ∧ s.reported p = 1 ∧ (s.finish p d0).isSome
  returned : ∀ p r, s.pc p = some (.returned r) → s.woken p = 1 ∧ s.reported p = 1

/-- The requests in flight are those in the rings and the device. -/
theorem Inv.mem_iff (hi : Inv s free avail used done) :
    d0 ∈ avail ++ s.inDevice ++ used ++ done ↔ ∃ p, s.InFlight p d0 := by
  constructor
  · intro hd
    obtain ⟨r, b, p, hc⟩ := hi.caller hd
    exact ⟨p, hc.inFlight⟩
  · rintro ⟨p, hp⟩
    exact (hi.flight p d0 hp).1

theorem Inv.owned (hi : Inv s free avail used done) : Owned s where
  parts := by
    refine ⟨avail ++ s.inDevice ++ used ++ done, fun d0 => hi.mem_iff, ?_⟩
    unfold State.free
    rw [hi.queue.free_eq]
    exact hi.queue.parts
  triple p d0 hp := hi.queue.triple d0 (hi.flight p d0 hp).1
  caller p q d0 hp hq :=
    Option.some.inj ((hi.flight p d0 hp).2.symm.trans (hi.flight q d0 hq).2)
  alloc d q hd := by
    unfold Virtq.allocDesc at hd
    split_ifs at hd with hn
    obtain rfl : s.q.freeHead = d := congrArg Prod.fst (Option.some.inj hd)
    unfold State.free
    rw [hi.queue.free_eq]
    exact List.mem_of_mem_head? hi.queue.head
  submit p write hpc hp := by
    have hlen : 4 ≤ free.length := by
      by_contra hlt
      have hnfree := hi.starved_iff.mpr hlt
      rw [hi.queue.nfree] at hnfree
      unfold State.submit at hp
      rw [hi.queue.submit_none (by omega)] at hp
      cases hp
    obtain ⟨d0, d1, d2, rest, hfree, hchain, -, hwait, -⟩ := hi.enqueue hpc hlen
    refine ⟨d0, hwait, fun d hd => ?_⟩
    rw [hchain] at hd
    unfold State.free
    rw [hi.queue.free_eq, hfree]
    exact List.mem_append_left rest hd

/-- Who waits in `wait_sem` sleeps as long as it has not been posted. -/
theorem Caller.asleep {r : ℕ} {b : Bool} (hc : Caller s r b p h)
    (hpc : s.pc p = some (.asleep h)) : p ∈ (s.sem p).sleeplist ↔ s.woken p = 0 := by
  rcases hc.waits with ⟨e, -⟩ | ⟨-, hsem⟩ | ⟨e, -⟩
  · rw [hpc] at e
    cases e
  · rw [hsem, hc.woken]
    cases b <;> simp
  · rw [hpc] at e
    cases e

/-- Only what is in the used ring has been reported and not handled. -/
theorem Inv.counts (hi : Inv s free avail used done) (hd : s.InFlight p d0) :
    s.woken p ≤ s.reported p ∧ s.reported p ≤ 1 ∧ (d0 ∉ used → s.woken p = s.reported p) := by
  obtain ⟨hmem, hown⟩ := hi.flight p d0 hd
  have hself : ∀ {r b q}, Caller s r b q d0 → s.reported p = r ∧ s.woken p = b.toNat := by
    intro r b q hc
    obtain rfl : q = p := Option.some.inj (hc.owner.symm.trans hown)
    exact ⟨hc.reported, hc.woken⟩
  rcases List.mem_append.mp hmem with hmem | hmem
  · rcases List.mem_append.mp hmem with hmem | hmem
    · obtain ⟨q, hc⟩ := hi.waiting d0 hmem
      obtain ⟨hrep, hwok⟩ := hself hc
      rw [hrep, hwok]
      exact ⟨le_rfl, Nat.zero_le 1, fun _ => rfl⟩
    · obtain ⟨q, hc⟩ := hi.reported d0 hmem
      obtain ⟨hrep, hwok⟩ := hself hc
      rw [hrep, hwok]
      exact ⟨Nat.zero_le 1, le_rfl, fun hnot => absurd hmem hnot⟩
  · obtain ⟨q, hc⟩ := hi.woken d0 hmem
    obtain ⟨hrep, hwok⟩ := hself hc
    rw [hrep, hwok]
    exact ⟨le_rfl, le_rfl, fun _ => rfl⟩

theorem Inv.delivered_ok (hi : Inv s free avail used done) (hp : s.panicked = false) :
    Delivered s where
  buf := hi.delivered
  intr := by
    obtain ⟨t, ht, hpt, hpc, hi'⟩ := hi.intr hp
    refine ⟨t, ht, hpt, hi'.delivered, fun p d0 hd => ?_⟩
    have hd' : t.InFlight p d0 := by
      unfold State.InFlight
      rw [hpc]
      exact hd
    exact (hi'.counts hd').2.2 List.not_mem_nil
  once p d0 hd := ⟨(hi.counts hd).1, (hi.counts hd).2.1⟩
  asleep p d0 hpc := by
    obtain ⟨r, b, hc⟩ := hi.caller_of (.inr (.inl hpc))
    exact hc.asleep hpc
  finish p d0 hpc := by
    obtain ⟨d1, d2, t, -, ht, -, hrep, hwok, -⟩ := hi.reclaim hpc
    exact ⟨hwok, hrep, Option.isSome_of_mem ht⟩
  returned p r hpc := (hi.returned p r hpc).symm

/-- In every run without kills the descriptors belong to the requests and the completions to
    their callers; it PANICs only for lack of descriptors. -/
theorem requests_owned (h : Run next NoKill initState s) (hp : s.panicked = false) :
    Owned s ∧ Delivered s ∧
      ∀ a t, NoKill s a → next s a = some t → t.panicked = true → ¬ Supplied s a := by
  obtain ⟨-, free, avail, used, done, hi⟩ := ordered_of_run h hp
  refine ⟨hi.owned, hi.delivered_ok hp, fun a t hk ht hpt => ?_⟩
  rcases hi.preserved hp hk ht with ⟨hpt', -⟩ | ⟨-, hstarved⟩
  · rw [hpt] at hpt'
    cases hpt'
  · exact hstarved

/-- Two requests, of which the second is completed first. -/
theorem requests_owned_two : ∃ s, s.pc 0 = some (.asleep 0) ∧ s.pc 1 = some (.returned 0) ∧
    s.free.length = 13 ∧ Owned s ∧ Delivered s ∧
      ∀ a t, NoKill s a → next s a = some t → t.panicked = true → ¬ Supplied s a := by
  have hexec : (execIf next NoKill initState
      [.call 0 true 7, .call 1 false 8, .step 0, .step 1, .step 0, .step 1, .take, .take, .report 3,
        .intr, .step 1, .step 1]).map (fun s => (s.pc 0, s.pc 1, s.free.length, s.panicked)) =
      some (some (.asleep 0), some (.returned 0), 13, false) := by
    decide +kernel
  obtain ⟨s, hrun, hs⟩ := Run.of_execIf_map hexec
  simp only [Prod.mk.injEq] at hs
  exact ⟨s, hs.1, hs.2.1, hs.2.2.1, requests_owned hrun hs.2.2.2⟩

/-! ## Requests and their callers -/

/-- The device and the driver do not know the header and the Buf of process `p`. -/
structure Released (s : State) (p : ℕ) : Prop where
  desc : ∀ d < nqueue, d ∉ s.free → (s.q.desc d).addr ≠ .hdr p ∧ (s.q.desc d).addr ≠ .data p
  info : ∀ d, (s.q.info d).buf ≠ some p

/-- No PANIC, and nothing is left of the calls that have returned. -/
structure NoneOutlives (s : State) : Prop where
  panicked : s.panicked = false
  released : ∀ p, (¬ ∃ d0, s.InFlight p d0) → Released s p

/-- A call that returns has given its three descriptors back. -/
def GivesBack (s t : State) : Prop :=
  ∀ p d0 r, s.InFlight p d0 → t.pc p = some (.returned r) → ∀ d ∈ s.chain d0, d ∈ t.free

/-- No wait is interrupted, and no request begins without descriptors for it. -/
def Fair (s : State) (a : Action) : Prop := NoKill s a ∧ Supplied s a

instance (s : State) (a : Action) : Decidable (Fair s a) :=
  inferInstanceAs (Decidable (_ ∧ _))

theorem Inv.released (hi : Inv s free avail used done) (hp : ¬ ∃ d0, s.InFlight p d0) :
    Released s p where
  desc d hd hfree := by
    unfold State.free at hfree
    rw [hi.queue.free_eq] at hfree
    have hmem := hi.queue.parts.mem_iff.mpr (List.mem_range.mpr hd)
    obtain ⟨d0, hd0, hchain⟩ := List.mem_flatMap.mp ((List.mem_append.mp hmem).resolve_left hfree)
    obtain ⟨r, b, q, hc⟩ := hi.caller hd0
    have hne : q ≠ p := by
      rintro rfl
      exact hp ⟨d0, hc.inFlight⟩
    rcases hc.addr d hchain with e | e | e <;> rw [e] <;> simp [hne]
  info d hbuf := by
    have hd0 : d ∈ avail ++ s.inDevice ++ used ++ done := List.mem_append_left _ (hi.buf d p hbuf)
    obtain ⟨r, b, q, hc⟩ := hi.caller hd0
    have hq := hc.buf.symm.trans hbuf
    cases b with
    | true => cases hq
    | false =>
      obtain rfl : q = p := Option.some.inj hq
      exact hp ⟨d, hc.inFlight⟩

/-- A step of one process leaves the others where they are. -/
theorem step_pc_of_ne {q : ℕ} (hq : q ≠ p) (ht : s.step p = some t) : t.pc q = s.pc q := by
  unfold State.step at ht
  split at ht
  next => cases ht
  next =>
    cases ht
    unfold State.submit
    split
    · rfl
    · exact goto_pc_of_ne hq _
  next =>
    cases ht
    unfold State.wait
    split <;> exact goto_pc_of_ne hq _
  next =>
    split_ifs at ht
    cases ht
    exact goto_pc_of_ne hq _
  next =>
    unfold State.finish at ht
    obtain ⟨q', -, rfl⟩ := Option.map_eq_some_iff.mp ht
    exact goto_pc_of_ne hq _
  next =>
    cases ht
    exact goto_pc_of_ne hq _

/-- A request in flight whose caller returns with its step has been finished. -/
theorem Inv.givesBack_step (hi : Inv s free avail used done) (hd : s.InFlight p d0)
    {r : ℤ} (ht : s.step p = some t) (hr : t.pc p = some (.returned r)) :
    ∀ d ∈ s.chain d0, d ∈ t.free := by
  rcases hd with hpc | hpc | hpc <;> unfold State.step at ht <;> rw [hpc] at ht <;> dsimp only at ht
  · cases ht
    unfold State.wait at hr
    split at hr <;> rw [goto_pc_self] at hr <;> cases hr
  · split_ifs at ht
    cases ht
    rw [goto_pc_self] at hr
    cases hr
  · obtain ⟨d1, d2, u, hchain, hu, -, -, -, -, -, hi'⟩ := hi.reclaim hpc
    obtain rfl : u = t := Option.some.inj (hu.symm.trans ht)
    intro d hd
    rw [hchain] at hd
    unfold State.free
    rw [hi'.queue.free_eq]
    exact List.mem_append_left free hd

theorem Inv.givesBack (hi : Inv s free avail used done) (hp : s.panicked = false)
    (hk : NoKill s a) (ht : next s a = some t) : GivesBack s t := by
  intro p d0 r hd hr
  have hstay : t.pc p ≠ s.pc p := fun e => hd.pc_ne_returned (e.symm.trans hr)
  unfold next at ht
  rw [hp, if_neg Bool.false_ne_true] at ht
  cases a with
  | call q dirty blockNo =>
    dsimp only at ht
    split_ifs at ht with hnone
    cases ht
    refine absurd (goto_pc_of_ne ?_ _) hstay
    rintro rfl
    exact hd.pc_ne_none (Option.isNone_iff_eq_none.mp hnone)
  | step q =>
    by_cases e : p = q
    · subst e
      exact hi.givesBack_step hd ht hr
    · exact absurd (step_pc_of_ne e ht) hstay
  | kill q => exact hk.elim
  | take =>
    dsimp only at ht
    split_ifs at ht
    cases ht
    exact absurd rfl hstay
  | report d =>
    dsimp only at ht
    split_ifs at ht
    cases ht
    exact absurd rfl hstay
  | intr =>
    obtain ⟨u, hu, -, hpc, -⟩ := hi.intr hp
    obtain rfl : u = t := Option.some.inj (hu.symm.trans ht)
    exact absurd (congrFun hpc p) hstay

theorem ordered_of_fair (h : Run next Fair initState s) : Ordered s := by
  refine h.invariant ⟨rfl, _, _, _, _, inv_initState⟩ fun s a t hs ha ht => ?_
  obtain ⟨hp, free, avail, used, done, hi⟩ := hs
  exact (hi.preserved hp ha.1 ht).resolve_right fun hbad => hbad.2 ha.2

/-- As long as no wait is interrupted and there are descriptors for every request that begins,
    no request outlives its caller. -/
theorem no_request_outlives_caller (h : Run next Fair initState s) :
    NoneOutlives s ∧ ∀ a t, Fair s a → next s a = some t → GivesBack s t := by
  obtain ⟨hp, free, avail, used, done, hi⟩ := ordered_of_fair h
  exact ⟨⟨hp, fun p hout => hi.released hout⟩, fun a t ha ht => hi.givesBack hp ha.1 ht⟩

theorem no_request_outlives_caller_one : ∃ s, s.pc 0 = some (.returned 0) ∧ NoneOutlives s ∧
    ∀ a t, Fair s a → next s a = some t → GivesBack s t := by
  have hexec : (execIf next Fair initState
      [.call 0 true 7, .step 0, .step 0, .take, .report 0, .intr, .step 0, .step 0]).map
        (fun s => s.pc 0) = some (some (.returned 0)) := by
    decide +kernel
  obtain ⟨s, hrun, hs⟩ := Run.of_execIf_map hexec
  exact ⟨s, hs, no_request_outlives_caller hrun⟩

/-- A caller is killed while the device has its request. -/
theorem request_outlives_killed_caller : ¬ ∀ s, Run next anyStep initState s →
    NoneOutlives s ∧ ∀ a t, next s a = some t → GivesBack s t := by
  intro h
  have hexec : (exec next initState [.call 0 true 7, .step 0, .step 0, .take, .kill 0]).map
      (fun s => (s.pc 0, (s.q.info 0).buf)) = some (some (.returned (-1)), some 0) := by
    decide +kernel
  obtain ⟨s, hrun, hs⟩ := Option.map_eq_some_iff.mp hexec
  simp only [Prod.mk.injEq] at hs
  obtain ⟨hpc, hbuf⟩ := hs
  refine ((h s (Run.of_exec hrun)).1.released 0 ?_).info 0 hbuf
  rintro ⟨d0, hd⟩
  exact hd.pc_ne_returned hpc

end ShikiOS.Driver.Virtio
