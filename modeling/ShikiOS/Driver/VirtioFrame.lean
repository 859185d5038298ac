import ShikiOS.Driver.VirtioRequests

/-!
# What the steps of the block device driver leave alone (`driver/virtio_blk.c`)

A request is what the device finds along the chain of a caller: the header, the data and the
direction of the transfer.

Results:
* `Inv.request_submit`: a new chain describes the request of its caller.
* `Inv.step_untouched`, `intr_untouched`: the steps leave the requests of others as they are.
-/

namespace ShikiOS.Driver.Virtio

open ShikiOS.Lib

variable {s t u : State} {free avail used done : List ℕ} {p q h d0 d1 d2 : ℕ} {write : Bool}

/-! ## Requests -/

/-- The chain with head `h` is a request of process `p` to write, or to read: its header, the data
    of its Buf, which the device may write if it is to be read. -/
structure Request (s : State) (p h : ℕ) (write : Bool) : Prop where
  hdr : (s.q.desc h).addr = .hdr p
  data : (s.q.desc (s.q.desc h).next).addr = .data p
  writable : ((s.q.desc (s.q.desc h).next).flags &&& descFWrite != 0) = !write
  type : (s.hdr p).type = if write then blkTOut else blkTIn

theorem Request.frame (hr : Request s p h write) (h0 : t.q.desc h = s.q.desc h)
    (h1 : t.q.desc (s.q.desc h).next = s.q.desc (s.q.desc h).next) (hh : t.hdr p = s.hdr p) :
    Request t p h write := by
  refine ⟨?_, ?_, ?_, ?_⟩
  · rw [h0, hr.hdr]
  · rw [h0, h1, hr.data]
  · rw [h0, h1, hr.writable]
  · rw [hh, hr.type]

/-- The data descriptor that `submit` makes. -/
theorem submit_flags {d3 : ℕ} {rest : List ℕ} {v v' : Virtq} (hf : free = d0 :: d1 :: d2 :: d3 :: rest)
    (hh : free.head? = some v.freeHead) (hl : free.IsChain (Link v.desc))
    (hn : v.nfree = free.length) (hd : free.Nodup) (hs : v.submit p write = some (d0, v')) :
    (v'.desc d1).flags = if write then descFNext else descFNext ||| descFWrite := by
  subst hf
  obtain rfl : d0 = v.freeHead := Option.some.inj hh
  simp only [List.isChain_cons_cons] at hl
  obtain ⟨h01, h12, h23, -⟩ := hl
  simp only [List.nodup_cons, List.mem_cons, not_or] at hd
  obtain ⟨⟨n01, n02, -⟩, ⟨n12, -⟩, -⟩ := hd
  simp only [List.length_cons] at hn
  unfold Virtq.submit at hs
  rw [allocDesc_eq (by omega) h01] at hs
  simp only [Option.bind_eq_bind, Option.bind_some, Virtq.setDesc] at hs
  rw [allocDesc_eq (b := d2) (by dsimp only; omega)] at hs
  swap
  · unfold Link
    dsimp only
    rw [Function.update_of_ne (Ne.symm n01)]
    exact h12
  simp only [Option.bind_some] at hs
  rw [allocDesc_eq (b := d3) (by dsimp only; omega)] at hs
  swap
  · unfold Link
    dsimp only
    rw [Function.update_of_ne (Ne.symm n12), Function.update_of_ne (Ne.symm n02),
      Function.update_of_ne (Ne.symm n02)]
    exact h23
  simp only [Option.bind_some, Virtq.setInfo] at hs
  obtain ⟨-, rfl⟩ := Prod.mk.inj (Option.some.inj hs)
  simp only [Function.update_of_ne n12, Function.update_self]

/-- What a new chain is, and that the chains of the others stay. -/
theorem Inv.submit_spec (hi : Inv s free avail used done) (hpc : s.pc p = some (.submit write))
    (hpt : (s.submit p write).panicked = false) :
    ∃ d0, (s.submit p write).pc p = some (.wait d0) ∧ d0 ∉ s.inDevice ∧
      ((s.hdr p).type = (if write then blkTOut else blkTIn) → Request (s.submit p write) p d0 write) ∧
      ∀ q k, s.InFlight q k → ∀ d ∈ walk s.q.desc 3 k, (s.submit p write).q.desc d = s.q.desc d := by
  have hlen : 4 ≤ free.length := by
    by_contra hlt
    have hnfree := hi.starved_iff.mpr hlt
    rw [hi.queue.nfree] at hnfree
    unfold State.submit at hpt
    rw [hi.queue.submit_none (by omega)] at hpt
    cases hpt
  obtain ⟨d0, d1, d2, rest, q', hfree, hq', hs, hqueue, hold⟩ := hi.queue.submit hlen p write
  have heq : s.submit p write =
      { s with q := q', owner := Function.update s.owner d0 (some p) }.goto p (some (.wait d0)) := by
    unfold State.submit
    rw [hq']
  rw [heq]
  refine ⟨d0, goto_pc_self _, fun hd0 => ?_, fun htype => ?_, fun q k hk d hd => ?_⟩
  · apply (List.nodup_cons.mp hqueue.heads_nodup).1
    exact mem_flight_of_waiting (List.mem_append_right _ hd0)
  · obtain ⟨d3, rest', rfl⟩ : ∃ d3 rest', rest = d3 :: rest' := by
      rw [hfree] at hlen
      cases rest with
      | nil => simp at hlen
      | cons d3 rest' => exact ⟨d3, rest', rfl⟩
    have hflags := submit_flags hfree hi.queue.head hi.queue.link hi.queue.nfree
      (List.nodup_append.mp hi.queue.nodup).1 hq'
    have hnext : (q'.desc d0).next = d1 := hs.triple.fst.2
    refine ⟨hs.addr.1, ?_, ?_, htype⟩
    · show (q'.desc (q'.desc d0).next).addr = _
      rw [hnext, hs.addr.2.1]
    · show ((q'.desc (q'.desc d0).next).flags &&& descFWrite != 0) = _
      rw [hnext, hflags]
      cases write <;> decide
  · exact hold d (mem_chains_of_mem_walk (hi.flight q k hk).1 hd)

/-! ## Steps -/

/-- What a step of another process leaves. -/
structure Untouched (s t : State) (q : ℕ) : Prop where
  pc : t.pc q = s.pc q
  hdr : t.hdr q = s.hdr q
  reported : t.reported q = s.reported q
  request : ∀ k write, s.InFlight q k → Request s q k write → Request t q k write

theorem Untouched.inFlight (h : Untouched s t q) {k : ℕ} : t.InFlight q k ↔ s.InFlight q k := by
  unfold State.InFlight
  rw [h.pc]

/-- A chain that stays is the same request. -/
theorem Untouched.of_desc (hpc : t.pc q = s.pc q) (hhdr : t.hdr q = s.hdr q)
    (hrep : t.reported q = s.reported q)
    (hdesc : ∀ k, s.InFlight q k → ∀ d ∈ walk s.q.desc 3 k, t.q.desc d = s.q.desc d) :
    Untouched s t q := by
  refine ⟨hpc, hhdr, hrep, fun k write hk hr => hr.frame ?_ ?_ hhdr⟩
  · exact hdesc k hk k (by simp [walk])
  · exact hdesc k hk _ (by simp [walk])

/-- What a call sets up before it submits. -/
structure Begun (s t : State) (p : ℕ) (dirty : Bool) (blockNo : ℕ) : Prop where
  pc : t.pc p = some (.submit dirty)
  hdr : t.hdr p = ⟨if dirty then blkTOut else blkTIn, 0, blockNo⟩
  reported : t.reported p = 0
  inDevice : t.inDevice = s.inDevice
  others : ∀ q, q ≠ p → Untouched s t q

theorem begin_spec (s : State) (p : ℕ) (dirty : Bool) (blockNo : ℕ) :
    Begun s (s.begin p dirty blockNo) p dirty blockNo where
  pc := goto_pc_self _
  hdr := Function.update_self ..
  reported := Function.update_self ..
  inDevice := rfl
  others _ hq := .of_desc (goto_pc_of_ne hq _) (Function.update_of_ne hq ..) (Function.update_of_ne hq ..)
    fun _ _ _ _ => rfl

/-- What a step of a process does to its own request, and that the rest stays. -/
theorem Inv.step_cases (hi : Inv s free avail used done) (h : s.step p = some t)
    (hpt : t.panicked = false) :
    (t.inDevice = s.inDevice ∧ t.hdr = s.hdr ∧ t.reported = s.reported) ∧
      (∀ q, q ≠ p → Untouched s t q) ∧
      ((∃ write d0, s.pc p = some (.submit write) ∧ t.pc p = some (.wait d0) ∧ d0 ∉ s.inDevice ∧
          ((s.hdr p).type = (if write then blkTOut else blkTIn) → Request t p d0 write)) ∨
        (∃ k, s.InFlight p k ∧ t.InFlight p k ∧ t.q = s.q) ∨
        (∃ k, s.pc p = some (.finish k) ∧ s.reported p = 1 ∧ t.pc p = some (.returned 0)) ∨
        ∃ x, s.pc p = some (.returned x) ∧ t.pc p = none) := by
  have hother : ∀ q, q ≠ p → t.pc q = s.pc q := fun q hq => step_pc_of_ne hq h
  unfold State.step at h
  split at h
  next => cases h
  next write hpc =>
    cases h
    obtain ⟨d0, hwait, hnew, hreq, hold⟩ := hi.submit_spec hpc hpt
    have hrest : (s.submit p write).inDevice = s.inDevice ∧ (s.submit p write).hdr = s.hdr ∧
        (s.submit p write).reported = s.reported := by
      unfold State.submit
      split <;> exact ⟨rfl, rfl, rfl⟩
    refine ⟨hrest, fun q hq => ?_, .inl ⟨write, d0, hpc, hwait, hnew, hreq⟩⟩
    exact .of_desc (hother q hq) (congrFun hrest.2.1 q) (congrFun hrest.2.2 q) (hold q)
  next k hpc =>
    cases h
    have hrest : (s.wait p k).inDevice = s.inDevice ∧ (s.wait p k).hdr = s.hdr ∧
        (s.wait p k).reported = s.reported ∧ (s.wait p k).q = s.q ∧ (s.wait p k).InFlight p k := by
      unfold State.wait State.InFlight
      split
      · exact ⟨rfl, rfl, rfl, rfl, .inr (.inr (goto_pc_self _))⟩
      · exact ⟨rfl, rfl, rfl, rfl, .inr (.inl (goto_pc_self _))⟩
    obtain ⟨hdev, hhdr, hrep, hq, hfl⟩ := hrest
    refine ⟨⟨hdev, hhdr, hrep⟩, fun q hne => ?_, .inr (.inl ⟨k, .inl hpc, hfl, hq⟩)⟩
    exact .of_desc (hother q hne) (congrFun hhdr q) (congrFun hrep q) fun _ _ _ _ => by rw [hq]
  next k hpc =>
    split_ifs at h
    cases h
    refine ⟨⟨rfl, rfl, rfl⟩, fun q hne => ?_,
      .inr (.inl ⟨k, .inr (.inl hpc), .inr (.inr (goto_pc_self _)), rfl⟩)⟩
    exact .of_desc (hother q hne) rfl rfl fun _ _ _ _ => rfl
  next k hpc =>
    obtain ⟨d1, d2, u, -, hu, -, hrep, -, hret, hdone, -⟩ := hi.reclaim hpc
    obtain rfl : u = t := Option.some.inj (hu.symm.trans h)
    obtain ⟨q', hq', rfl⟩ := Option.map_eq_some_iff.mp h
    obtain ⟨_, _, v, -, hv, -, -, hold⟩ := hi.queue.finish (List.mem_append_right _ hdone)
    obtain rfl : v = q' := Option.some.inj (hv.symm.trans hq')
    refine ⟨⟨rfl, rfl, rfl⟩, fun q hne => ?_, .inr (.inr (.inl ⟨k, hpc, hrep, hret⟩))⟩
    refine .of_desc (hother q hne) rfl rfl fun k' hk' d hd => hold d (mem_chains_of_mem_walk ?_ hd)
    obtain ⟨hmem, hown⟩ := hi.flight q k' hk'
    refine (hi.nodup.mem_erase_iff).mpr ⟨?_, hmem⟩
    rintro rfl
    exact hne (Option.some.inj (hown.symm.trans (hi.flight p k' (.inr (.inr hpc))).2))
  next x hpc =>
    cases h
    refine ⟨⟨rfl, rfl, rfl⟩, fun q hne => ?_, .inr (.inr (.inr ⟨x, hpc, goto_pc_self _⟩))⟩
    exact .of_desc (hother q hne) rfl rfl fun _ _ _ _ => rfl

/-- The interrupt handler leaves what the device works on. -/
structure Quiet (s t : State) : Prop where
  pc : t.pc = s.pc
  hdr : t.hdr = s.hdr
  reported : t.reported = s.reported
  inDevice : t.inDevice = s.inDevice
  desc : t.q.desc = s.q.desc

theorem Quiet.untouched (h : Quiet s t) (q : ℕ) : Untouched s t q :=
  .of_desc (congrFun h.pc q) (congrFun h.hdr q) (congrFun h.reported q) fun _ _ d _ => congrFun h.desc d

theorem Quiet.trans (h : Quiet s t) (h' : Quiet t u) : Quiet s u :=
  ⟨h'.pc.trans h.pc, h'.hdr.trans h.hdr, h'.reported.trans h.reported, h'.inDevice.trans h.inDevice,
    h'.desc.trans h.desc⟩

theorem intrRound_quiet (h : s.intrRound = some t) : Quiet s t := by
  unfold State.intrRound at h
  dsimp only at h
  split_ifs at h
  · cases h
    exact ⟨rfl, rfl, rfl, rfl, rfl⟩
  · obtain ⟨u, hu, rfl⟩ := Option.map_eq_some_iff.mp h
    split at hu
    · cases hu
      exact ⟨rfl, rfl, rfl, rfl, rfl⟩
    · obtain ⟨m, -, rfl⟩ := Option.map_eq_some_iff.mp hu
      exact ⟨rfl, rfl, rfl, rfl, rfl⟩

theorem intrLoop_quiet {n : ℕ} (h : State.intrLoop n s = some t) : Quiet s t := by
  induction n generalizing s with
  | zero =>
    cases h
    exact ⟨rfl, rfl, rfl, rfl, rfl⟩
  | succ n ih =>
    rw [State.intrLoop] at h
    split at h
    next => cases h
    next u hu =>
      split_ifs at h
      · cases h
        exact intrRound_quiet hu
      · exact (intrRound_quiet hu).trans (ih h)

theorem intr_quiet (h : s.intr = some t) : Quiet s t := intrLoop_quiet h

end ShikiOS.Driver.Virtio
