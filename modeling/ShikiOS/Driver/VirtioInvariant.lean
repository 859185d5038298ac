import ShikiOS.Driver.VirtioQueue
import ShikiOS.Lib.RingBuffer

/-!
# Requests in flight (`driver/virtio_blk.c`)

A request goes from the avail ring to the device, from there to the used ring, and is then
done. As long as no waiter is killed, every step of a process, of the device and of the
interrupt handler keeps the rings, the descriptors and the callers in accord.

Results:
* `Inv`: where the requests are, and what their callers wait for.
* `Inv.preserved`: a step that does not kill keeps it, or PANICs for lack of descriptors.
-/

namespace ShikiOS.Driver.Virtio

open ShikiOS.Lib RingBuffer

variable {s t : State} {free avail used done : List ℕ} {p p' h h' d0 r : ℕ} {b : Bool}

/-! ## Callers -/

/-- Process `p` waits for the chain with head `h`; `b`: its semaphore has been posted. -/
def Waits (s : State) (p h : ℕ) (b : Bool) : Prop :=
  (s.pc p = some (.wait h) ∧ s.sem p = ⟨b.toNat, []⟩) ∨
  (s.pc p = some (.asleep h) ∧ s.sem p = if b then ⟨0, []⟩ else ⟨-1, [p]⟩) ∨
  (s.pc p = some (.finish h) ∧ s.sem p = ⟨0, []⟩ ∧ b = true)

/-- The request of process `p` with head `h` has been reported `r` times; `b`: its caller has
    been posted, once. -/
structure Caller (s : State) (r : ℕ) (b : Bool) (p h : ℕ) : Prop where
  owner : s.owner h = some p
  buf : (s.q.info h).buf = if b then none else some p
  reported : s.reported p = r
  woken : s.woken p = b.toNat
  waits : Waits s p h b
  addr : ∀ d ∈ walk s.q.desc 3 h, (s.q.desc d).addr = .hdr p ∨ (s.q.desc d).addr = .data p ∨
    (s.q.desc d).addr = .status h

theorem Caller.inFlight (hc : Caller s r b p h) : s.InFlight p h :=
  hc.waits.imp And.left (Or.imp And.left And.left)

theorem State.InFlight.unique (hp : s.InFlight p h) (hp' : s.InFlight p h') : h = h' := by
  unfold State.InFlight at hp hp'
  rcases hp with e | e | e <;> rw [e] at hp' <;> simpa using hp'

theorem State.InFlight.pc_ne_submit (hp : s.InFlight p h) {write : Bool} :
    s.pc p ≠ some (.submit write) := by
  intro hpc
  unfold State.InFlight at hp
  rw [hpc] at hp
  rcases hp with e | e | e <;> cases e

theorem State.InFlight.pc_ne_returned (hp : s.InFlight p h) {x : ℤ} :
    s.pc p ≠ some (.returned x) := by
  intro hpc
  unfold State.InFlight at hp
  rw [hpc] at hp
  rcases hp with e | e | e <;> cases e

theorem State.InFlight.pc_ne_none (hp : s.InFlight p h) : s.pc p ≠ none := by
  intro hpc
  unfold State.InFlight at hp
  rw [hpc] at hp
  rcases hp with e | e | e <;> cases e

/-- What a caller depends on is the same. -/
structure Same (s t : State) (p h : ℕ) : Prop where
  owner : t.owner h = s.owner h
  buf : (t.q.info h).buf = (s.q.info h).buf
  reported : t.reported p = s.reported p
  woken : t.woken p = s.woken p
  pc : t.pc p = s.pc p
  sem : t.sem p = s.sem p

theorem Caller.frame (hc : Caller s r b p h) (hs : Same s t p h)
    (ha : ∀ d ∈ walk s.q.desc 3 h, t.q.desc d = s.q.desc d) : Caller t r b p h := by
  refine ⟨hs.owner.trans hc.owner, hs.buf.trans hc.buf, hs.reported.trans hc.reported,
    hs.woken.trans hc.woken, ?_, fun d hm => ?_⟩
  · unfold Waits
    rw [hs.pc, hs.sem]
    exact hc.waits
  · rw [walk_congr ha] at hm
    rw [ha d hm]
    exact hc.addr d hm

theorem Caller.unique {r' : ℕ} {b' : Bool} (hc : Caller s r b p h) (hc' : Caller s r' b' p' h) :
    p' = p ∧ r' = r ∧ b' = b := by
  obtain rfl : p' = p := Option.some.inj (hc'.owner.symm.trans hc.owner)
  refine ⟨rfl, hc'.reported.symm.trans hc.reported, ?_⟩
  have hb := hc'.woken.symm.trans hc.woken
  cases b <;> cases b' <;> first | rfl | cases hb

/-! ## The invariant -/

/-- The requests in flight: in the avail ring, in the device, in the used ring, and done. -/
structure Inv (s : State) (free avail used done : List ℕ) : Prop where
  queue : Queue s.q free (avail ++ s.inDevice ++ used ++ done)
  availRing : ∃ n, Holds s.q.avail.ring nqueue n avail ∧ s.taken = .ofNat 16 n ∧
    s.q.avail.idx = .ofNat 16 (n + avail.length)
  usedRing : ∃ n, Holds s.q.used.ring nqueue n used ∧ s.q.lastUsedIdx = .ofNat 16 n ∧
    s.q.used.idx = .ofNat 16 (n + used.length)
  status : ∀ d, (s.q.info d).status = 0
  waiting : ∀ h ∈ avail ++ s.inDevice, ∃ p, Caller s 0 false p h
  reported : ∀ h ∈ used, ∃ p, Caller s 1 false p h
  woken : ∀ h ∈ done, ∃ p, Caller s 1 true p h
  flight : ∀ p h, s.InFlight p h → h ∈ avail ++ s.inDevice ++ used ++ done ∧ s.owner h = some p
  buf : ∀ d p, (s.q.info d).buf = some p → d ∈ avail ++ s.inDevice ++ used
  submit : ∀ p write, s.pc p = some (.submit write) →
    s.sem p = .init 0 ∧ s.reported p = 0 ∧ s.woken p = 0
  returned : ∀ p x, s.pc p = some (.returned x) → s.reported p = 1 ∧ s.woken p = 1
  delivered : s.misdelivered = false

theorem nqueue_dvd : nqueue ∣ 2 ^ 16 := by decide

theorem Inv.length_le (hi : Inv s free avail used done) :
    free.length + 3 * (avail.length + s.inDevice.length + used.length + done.length) = 16 := by
  have := hi.queue.length
  simp only [List.length_append] at this
  exact this

/-- Every request in flight has its caller. -/
theorem Inv.caller (hi : Inv s free avail used done)
    (hh : h ∈ avail ++ s.inDevice ++ used ++ done) : ∃ r b p, Caller s r b p h := by
  rcases List.mem_append.mp hh with hh | hh
  · rcases List.mem_append.mp hh with hh | hh
    · obtain ⟨p, hp⟩ := hi.waiting h hh
      exact ⟨0, false, p, hp⟩
    · obtain ⟨p, hp⟩ := hi.reported h hh
      exact ⟨1, false, p, hp⟩
  · obtain ⟨p, hp⟩ := hi.woken h hh
    exact ⟨1, true, p, hp⟩

/-- The caller of a request in flight. -/
theorem Inv.caller_of (hi : Inv s free avail used done) (hp : s.InFlight p h) :
    ∃ r b, Caller s r b p h := by
  obtain ⟨hmem, hown⟩ := hi.flight p h hp
  obtain ⟨r, b, p', hc⟩ := hi.caller hmem
  obtain rfl : p' = p := Option.some.inj (hc.owner.symm.trans hown)
  exact ⟨r, b, hc⟩

/-- A step that leaves the queue, the device and the owners alone. -/
theorem Inv.of_same (hi : Inv s free avail used done) (hq : t.q = s.q)
    (hdev : t.inDevice = s.inDevice) (htaken : t.taken = s.taken) (hown : t.owner = s.owner)
    (hmis : t.misdelivered = s.misdelivered)
    (hc : ∀ r b p h, Caller s r b p h → Caller t r b p h)
    (hf : ∀ p h, t.InFlight p h → s.InFlight p h)
    (hsub : ∀ p write, t.pc p = some (.submit write) →
      t.sem p = .init 0 ∧ t.reported p = 0 ∧ t.woken p = 0)
    (hret : ∀ p x, t.pc p = some (.returned x) → t.reported p = 1 ∧ t.woken p = 1) :
    Inv t free avail used done := by
  refine ⟨?_, ?_, ?_, ?_, ?_, ?_, ?_, ?_, ?_, hsub, hret, ?_⟩
  · rw [hq, hdev]
    exact hi.queue
  · rw [hq, htaken]
    exact hi.availRing
  · rw [hq]
    exact hi.usedRing
  · rw [hq]
    exact hi.status
  · rw [hdev]
    exact fun h hh => (hi.waiting h hh).imp fun p => hc 0 false p h
  · exact fun h hh => (hi.reported h hh).imp fun p => hc 1 false p h
  · exact fun h hh => (hi.woken h hh).imp fun p => hc 1 true p h
  · rw [hdev, hown]
    exact fun p h hp => hi.flight p h (hf p h hp)
  · rw [hq, hdev]
    exact hi.buf
  · rw [hmis]
    exact hi.delivered

theorem goto_pc_self (x : Option Pc) : (s.goto p x).pc p = x := Function.update_self _ _ _

theorem goto_pc_of_ne (hp : p' ≠ p) (x : Option Pc) : (s.goto p x).pc p' = s.pc p' :=
  Function.update_of_ne hp _ _

theorem setSem_sem_self (m : Sem ℕ) : (s.setSem p m).sem p = m := Function.update_self _ _ _

theorem setSem_sem_of_ne (hp : p' ≠ p) (m : Sem ℕ) : (s.setSem p m).sem p' = s.sem p' :=
  Function.update_of_ne hp _ _

/-! ## Steps of a process -/

/-- A caller in flight goes on with the same request. -/
theorem Inv.move (hi : Inv s free avail used done) (hc : Caller s r b p h) {m : Sem ℕ} {x : Pc}
    (hx : x = .wait h ∨ x = .asleep h ∨ x = .finish h)
    (hw : Waits ((s.setSem p m).goto p (some x)) p h b) :
    Inv ((s.setSem p m).goto p (some x)) free avail used done := by
  have hp := hc.inFlight
  refine hi.of_same rfl rfl rfl rfl rfl (fun r' b' q k hc' => ?_) (fun q k hq => ?_)
    (fun q write hq => ?_) fun q y hq => ?_
  · by_cases e : q = p
    · subst e
      obtain rfl := hc'.inFlight.unique hp
      obtain ⟨-, rfl, rfl⟩ := hc.unique hc'
      exact ⟨hc'.owner, hc'.buf, hc'.reported, hc'.woken, hw, hc'.addr⟩
    · exact hc'.frame ⟨rfl, rfl, rfl, rfl, goto_pc_of_ne e _, setSem_sem_of_ne e m⟩
        fun _ _ => rfl
  · by_cases e : q = p
    · subst e
      have hk : k = h := by
        unfold State.InFlight at hq
        rw [goto_pc_self] at hq
        rcases hx with rfl | rfl | rfl <;> simpa [eq_comm] using hq
      rw [hk]
      exact hp
    · unfold State.InFlight at hq ⊢
      rwa [goto_pc_of_ne e] at hq
  · by_cases e : q = p
    · subst e
      rw [goto_pc_self] at hq
      rcases hx with rfl | rfl | rfl <;> cases hq
    · rw [goto_pc_of_ne e] at hq
      show (s.setSem p m).sem q = _ ∧ _
      rw [setSem_sem_of_ne e]
      exact hi.submit q write hq
  · by_cases e : q = p
    · subst e
      rw [goto_pc_self] at hq
      rcases hx with rfl | rfl | rfl <;> cases hq
    · rw [goto_pc_of_ne e] at hq
      exact hi.returned q y hq

/-- `wait_sem` takes the unit of a completion, or sleeps. -/
theorem Inv.wait (hi : Inv s free avail used done) (hpc : s.pc p = some (.wait h)) :
    Inv (s.wait p h) free avail used done := by
  obtain ⟨r, b, hc⟩ := hi.caller_of (.inl hpc)
  have hsem : s.sem p = ⟨b.toNat, []⟩ := by
    rcases hc.waits with ⟨-, e⟩ | ⟨e, -⟩ | ⟨e, -⟩
    · exact e
    · rw [hpc] at e
      cases e
    · rw [hpc] at e
      cases e
  unfold State.wait
  rw [hsem]
  cases b with
  | true =>
    refine hi.move hc (.inr (.inr rfl)) (.inr (.inr ⟨goto_pc_self _, ?_, rfl⟩))
    exact setSem_sem_self _
  | false =>
    refine hi.move hc (.inr (.inl rfl)) (.inr (.inl ⟨goto_pc_self _, ?_⟩))
    exact setSem_sem_self _

/-- A caller that was woken goes on. -/
theorem Inv.wake (hi : Inv s free avail used done) (hpc : s.pc p = some (.asleep h))
    (hup : p ∉ (s.sem p).sleeplist) : Inv (s.goto p (some (.finish h))) free avail used done := by
  obtain ⟨r, b, hc⟩ := hi.caller_of (.inr (.inl hpc))
  have hsem : s.sem p = if b then ⟨0, []⟩ else ⟨-1, [p]⟩ := by
    rcases hc.waits with ⟨e, -⟩ | ⟨-, e⟩ | ⟨e, -⟩
    · rw [hpc] at e
      cases e
    · exact e
    · rw [hpc] at e
      cases e
  cases b with
  | false =>
    rw [hsem] at hup
    exact absurd List.mem_cons_self hup
  | true =>
    have hself : s.setSem p (s.sem p) = s := by
      unfold State.setSem
      rw [Function.update_eq_self]
    have hmove := hi.move (m := s.sem p) (x := .finish h) hc (.inr (.inr rfl))
      (.inr (.inr ⟨goto_pc_self _, (setSem_sem_self _).trans hsem, rfl⟩))
    rwa [hself] at hmove

/-- A call begins. -/
theorem Inv.begin (hi : Inv s free avail used done) (hpc : s.pc p = none) (dirty : Bool)
    (blockNo : ℕ) : Inv (s.begin p dirty blockNo) free avail used done := by
  have hout : ∀ {q k}, s.InFlight q k → q ≠ p := by
    rintro q k hq rfl
    exact hq.pc_ne_none hpc
  refine hi.of_same rfl rfl rfl rfl rfl (fun r b q k hc => ?_) (fun q k hq => ?_)
    (fun q write hq => ?_) fun q y hq => ?_
  · have e := hout hc.inFlight
    exact hc.frame ⟨rfl, rfl, Function.update_of_ne e _ _, Function.update_of_ne e _ _,
      goto_pc_of_ne e _, setSem_sem_of_ne e _⟩ fun _ _ => rfl
  · by_cases e : q = p
    · subst e
      unfold State.InFlight at hq
      rw [show (s.begin q dirty blockNo).pc q = _ from goto_pc_self _] at hq
      rcases hq with e | e | e <;> cases e
    · unfold State.InFlight at hq ⊢
      rwa [show (s.begin p dirty blockNo).pc q = _ from goto_pc_of_ne e _] at hq
  · by_cases e : q = p
    · subst e
      exact ⟨setSem_sem_self _, Function.update_self _ _ _, Function.update_self _ _ _⟩
    · rw [show (s.begin p dirty blockNo).pc q = _ from goto_pc_of_ne e _] at hq
      obtain ⟨h1, h2, h3⟩ := hi.submit q write hq
      exact ⟨(setSem_sem_of_ne e _).trans h1, (Function.update_of_ne e _ _).trans h2,
        (Function.update_of_ne e _ _).trans h3⟩
  · by_cases e : q = p
    · subst e
      rw [show (s.begin q dirty blockNo).pc q = _ from goto_pc_self _] at hq
      cases hq
    · rw [show (s.begin p dirty blockNo).pc q = _ from goto_pc_of_ne e _] at hq
      obtain ⟨h1, h2⟩ := hi.returned q y hq
      exact ⟨(Function.update_of_ne e _ _).trans h1, (Function.update_of_ne e _ _).trans h2⟩

/-- A call ends. -/
theorem Inv.ret (hi : Inv s free avail used done) {x : ℤ} (hpc : s.pc p = some (.returned x)) :
    Inv (s.goto p none) free avail used done := by
  have hout : ∀ {q k}, s.InFlight q k → q ≠ p := by
    rintro q k hq rfl
    exact hq.pc_ne_returned hpc
  have hpc' : ∀ {q y}, (s.goto p none).pc q = some y → q ≠ p ∧ s.pc q = some y := by
    intro q y hq
    by_cases e : q = p
    · subst e
      rw [goto_pc_self] at hq
      cases hq
    · exact ⟨e, (goto_pc_of_ne e _).symm.trans hq⟩
  refine hi.of_same rfl rfl rfl rfl rfl (fun r b q k hc => ?_) (fun q k hq => ?_)
    (fun q write hq => hi.submit q write (hpc' hq).2) fun q y hq => hi.returned q y (hpc' hq).2
  · exact hc.frame ⟨rfl, rfl, rfl, rfl, goto_pc_of_ne (hout hc.inFlight) _, rfl⟩ fun _ _ => rfl
  · exact hq.imp (fun e => (hpc' e).2) (Or.imp (fun e => (hpc' e).2) fun e => (hpc' e).2)

/-- The heads of the requests are different. -/
theorem Inv.nodup (hi : Inv s free avail used done) :
    (avail ++ s.inDevice ++ used ++ done).Nodup := hi.queue.heads_nodup

theorem mem_flight_of_waiting (hh : h ∈ avail ++ s.inDevice) :
    h ∈ avail ++ s.inDevice ++ used ++ done :=
  List.mem_append_left _ (List.mem_append_left _ hh)

theorem mem_flight_of_used (hh : h ∈ used) : h ∈ avail ++ s.inDevice ++ used ++ done :=
  List.mem_append_left _ (List.mem_append_right _ hh)

/-- What has been handled by the interrupt is done. -/
theorem Inv.mem_done (hi : Inv s free avail used done) (hc : Caller s r true p h) :
    h ∈ done ∧ r = 1 := by
  rcases List.mem_append.mp (hi.flight p h hc.inFlight).1 with hh | hh
  · rcases List.mem_append.mp hh with hh | hh
    · obtain ⟨p', hc'⟩ := hi.waiting h hh
      exact absurd (hc.unique hc').2.2 Bool.false_ne_true
    · obtain ⟨p', hc'⟩ := hi.reported h hh
      exact absurd (hc.unique hc').2.2 Bool.false_ne_true
  · obtain ⟨p', hc'⟩ := hi.woken h hh
    exact ⟨hh, (hc.unique hc').2.1.symm⟩

/-- A new request goes to the avail ring. -/
theorem Inv.enqueue (hi : Inv s free avail used done) {write : Bool}
    (hpc : s.pc p = some (.submit write)) (hlen : 4 ≤ free.length) :
    ∃ d0 d1 d2 rest, free = d0 :: d1 :: d2 :: rest ∧
      (s.submit p write).chain d0 = [d0, d1, d2] ∧ (s.submit p write).panicked = s.panicked ∧
      (s.submit p write).pc p = some (.wait d0) ∧
      Inv (s.submit p write) rest (avail ++ [d0]) used done := by
  obtain ⟨d0, d1, d2, rest, q', hfree, hq', hs, hqueue, hold⟩ := hi.queue.submit hlen p write
  have heq : s.submit p write =
      { s with q := q', owner := Function.update s.owner d0 (some p) }.goto p (some (.wait d0)) := by
    unfold State.submit
    rw [hq']
  refine ⟨d0, d1, d2, rest, hfree, ?_, ?_, ?_, ?_⟩
  · rw [heq]
    exact hs.triple.walk
  · rw [heq]
    rfl
  · rw [heq]
    exact goto_pc_self _
  rw [heq]
  -- the other requests and their callers
  have hne : ∀ k ∈ avail ++ s.inDevice ++ used ++ done, k ≠ d0 := by
    rintro k hk rfl
    exact (List.nodup_cons.mp hqueue.heads_nodup).1 hk
  have hout : ∀ {q k}, s.InFlight q k → q ≠ p := by
    rintro q k hq rfl
    exact hq.pc_ne_submit hpc
  have hframe : ∀ {r b q k}, k ∈ avail ++ s.inDevice ++ used ++ done → Caller s r b q k →
      Caller ({ s with q := q', owner := Function.update s.owner d0 (some p) }.goto p
        (some (.wait d0))) r b q k := by
    intro r b q k hk hc
    refine hc.frame ⟨Function.update_of_ne (hne k hk) _ _, ?_, rfl, rfl,
      goto_pc_of_ne (hout hc.inFlight) _, rfl⟩ fun d hd => hold d (mem_chains_of_mem_walk hk hd)
    show (q'.info k).buf = _
    rw [hs.info, Function.update_of_ne (hne k hk)]
  have hsub : ∀ k ∈ avail ++ s.inDevice ++ used ++ done,
      k ∈ avail ++ [d0] ++ s.inDevice ++ used ++ done := by
    intro k hk
    simp only [List.mem_append] at hk ⊢
    tauto
  obtain ⟨hsem, hrep, hwok⟩ := hi.submit p write hpc
  have hlen' := hi.length_le
  have hnq : nqueue = 16 := rfl
  refine ⟨hqueue.perm ?_, ?_, ?_, fun d => ?_, fun h hh => ?_, fun h hh => ?_, fun h hh => ?_,
    fun q k hq => ?_, fun d q hb => ?_, fun q write' hq => ?_, fun q x hq => ?_, hi.delivered⟩
  · exact List.perm_iff_count.mpr fun a => by
      simp only [State.goto, List.count_append, List.count_cons, List.count_nil]
      omega
  · obtain ⟨n, hring, htaken, hidx⟩ := hi.availRing
    refine ⟨n, ?_, htaken, ?_⟩
    · show Holds q'.avail.ring _ _ _
      rw [hs.avail]
      show Holds (Function.update s.q.avail.ring (s.q.avail.idx.toNat % nqueue) d0) _ _ _
      rw [hidx, ofNat_toNat_mod nqueue_dvd]
      exact hring.push (by omega)
    · show q'.avail.idx = _
      rw [hs.avail]
      show s.q.avail.idx + 1 = _
      rw [hidx, ofNat_succ, List.length_append, List.length_singleton, Nat.add_assoc]
  · obtain ⟨n, hring, hlast, hidx⟩ := hi.usedRing
    show ∃ n, Holds q'.used.ring _ _ _ ∧ q'.lastUsedIdx = _ ∧ q'.used.idx = _
    rw [hs.used, hs.lastUsedIdx]
    exact ⟨n, hring, hlast, hidx⟩
  · show (q'.info d).status = 0
    rw [hs.info, Function.update_apply]
    split
    · exact hi.status d0
    · exact hi.status d
  · by_cases e : h = d0
    · subst e
      have hinfo : (q'.info h).buf = some p := by
        rw [hs.info, Function.update_self]
      refine ⟨p, Function.update_self _ _ _, hinfo, hrep, hwok, .inl ⟨goto_pc_self _, hsem⟩, ?_⟩
      show ∀ d ∈ walk q'.desc 3 h, _
      rw [hs.triple.walk]
      rintro d hd
      simp only [List.mem_cons, List.not_mem_nil, or_false] at hd
      rcases hd with rfl | rfl | rfl
      · exact .inl hs.addr.1
      · exact .inr (.inl hs.addr.2.1)
      · exact .inr (.inr hs.addr.2.2)
    · have hh' : h ∈ avail ++ s.inDevice := by
        rcases List.mem_append.mp hh with hh | hh
        · rcases List.mem_append.mp hh with hh | hh
          · exact List.mem_append_left _ hh
          · exact absurd (List.mem_singleton.mp hh) e
        · exact List.mem_append_right _ hh
      obtain ⟨q, hc⟩ := hi.waiting h hh'
      exact ⟨q, hframe (mem_flight_of_waiting hh') hc⟩
  · obtain ⟨q, hc⟩ := hi.reported h hh
    exact ⟨q, hframe (mem_flight_of_used hh) hc⟩
  · obtain ⟨q, hc⟩ := hi.woken h hh
    exact ⟨q, hframe (List.mem_append_right _ hh) hc⟩
  · by_cases e : q = p
    · subst e
      obtain rfl : k = d0 := by
        unfold State.InFlight at hq
        rw [goto_pc_self] at hq
        simpa [eq_comm] using hq
      refine ⟨?_, Function.update_self _ _ _⟩
      exact mem_flight_of_waiting (List.mem_append_left _ (List.mem_append_right _
        List.mem_cons_self))
    · unfold State.InFlight at hq
      rw [goto_pc_of_ne e] at hq
      obtain ⟨hmem, hown⟩ := hi.flight q k hq
      exact ⟨hsub k hmem, (Function.update_of_ne (hne k hmem) _ _).trans hown⟩
  · have hb : (q'.info d).buf = some q := hb
    rw [hs.info, Function.update_apply] at hb
    split at hb
    next e =>
      subst e
      simp
    next e =>
      have := hi.buf d q hb
      simp only [List.mem_append] at this
      simp only [List.mem_append, State.goto]
      tauto
  · have e : q ≠ p := by
      rintro rfl
      rw [goto_pc_self] at hq
      cases hq
    rw [goto_pc_of_ne e] at hq
    exact hi.submit q write' hq
  · have e : q ≠ p := by
      rintro rfl
      rw [goto_pc_self] at hq
      cases hq
    rw [goto_pc_of_ne e] at hq
    exact hi.returned q x hq

/-- Two lists of requests with one request less. -/
theorem perm_erase_done (flight : List ℕ) (hd : h ∈ done) :
    (flight ++ done.erase h).Perm ((flight ++ done).erase h) := by
  refine (List.perm_cons h).mp (List.Perm.trans ?_ (List.perm_cons_erase
    (List.mem_append_right flight hd)))
  exact List.perm_middle.symm.trans ((List.perm_cons_erase hd).symm.append_left flight)

/-- A caller that has been woken gives its descriptors back and returns. -/
theorem Inv.reclaim (hi : Inv s free avail used done) (hpc : s.pc p = some (.finish h)) :
    ∃ d1 d2 t, s.chain h = [h, d1, d2] ∧ s.finish p h = some t ∧ t.panicked = s.panicked ∧
      s.reported p = 1 ∧ s.woken p = 1 ∧ t.pc p = some (.returned 0) ∧ h ∈ done ∧
      Inv t (h :: d1 :: d2 :: free) avail used (done.erase h) := by
  obtain ⟨r, b, hc⟩ := hi.caller_of (.inr (.inr hpc))
  obtain rfl : b = true := by
    rcases hc.waits with ⟨e, -⟩ | ⟨e, -⟩ | ⟨-, -, e⟩
    · rw [hpc] at e
      cases e
    · rw [hpc] at e
      cases e
    · exact e
  obtain ⟨hdone, rfl⟩ := hi.mem_done hc
  obtain ⟨d1, d2, q', hwalk, hq', hf, hqueue, hold⟩ := hi.queue.finish
    (List.mem_append_right _ hdone)
  refine ⟨d1, d2, { s with q := q', owner := Function.update s.owner h none }.goto p
    (some (.returned 0)), hwalk, by rw [State.finish, hq']; rfl, rfl, hc.reported, hc.woken,
    goto_pc_self _, hdone, ?_⟩
  have hperm := perm_erase_done (avail ++ s.inDevice ++ used) hdone
  have hne : ∀ k ∈ avail ++ s.inDevice ++ used ++ done.erase h, k ≠ h := by
    rintro k hk rfl
    exact (hi.nodup.mem_erase_iff.mp (hperm.mem_iff.mp hk)).1 rfl
  have hflight : ∀ {q k}, q ≠ p → s.InFlight q k →
      k ∈ avail ++ s.inDevice ++ used ++ done.erase h ∧ s.owner k = some q := by
    intro q k e hq
    obtain ⟨hmem, hown⟩ := hi.flight q k hq
    refine ⟨hperm.mem_iff.mpr (hi.nodup.mem_erase_iff.mpr ⟨?_, hmem⟩), hown⟩
    rintro rfl
    exact e (Option.some.inj (hown.symm.trans hc.owner))
  have hframe : ∀ {r b q k}, k ∈ avail ++ s.inDevice ++ used ++ done.erase h → Caller s r b q k →
      Caller ({ s with q := q', owner := Function.update s.owner h none }.goto p
        (some (.returned 0))) r b q k := by
    intro r b q k hk hc'
    have e : q ≠ p := by
      rintro rfl
      exact hne k hk (hc'.inFlight.unique hc.inFlight)
    refine hc'.frame ⟨Function.update_of_ne (hne k hk) _ _, ?_, rfl, rfl, goto_pc_of_ne e _, rfl⟩
      fun d hd => hold d (mem_chains_of_mem_walk (hperm.mem_iff.mp hk) hd)
    show (q'.info k).buf = _
    rw [hf.info, Function.update_of_ne (hne k hk)]
  refine ⟨hqueue.perm hperm, ?_, ?_, fun d => ?_, fun k hk => ?_, fun k hk => ?_, fun k hk => ?_,
    fun q k hq => ?_, fun d q hb => ?_, fun q write hq => ?_, fun q x hq => ?_, hi.delivered⟩
  · show ∃ n, Holds q'.avail.ring _ _ _ ∧ _ ∧ q'.avail.idx = _
    rw [hf.avail]
    exact hi.availRing
  · show ∃ n, Holds q'.used.ring _ _ _ ∧ q'.lastUsedIdx = _ ∧ q'.used.idx = _
    rw [hf.used, hf.lastUsedIdx]
    exact hi.usedRing
  · show (q'.info d).status = 0
    rw [hf.info, Function.update_apply]
    split
    · exact hi.status h
    · exact hi.status d
  · obtain ⟨q, hc'⟩ := hi.waiting k hk
    exact ⟨q, hframe (mem_flight_of_waiting hk) hc'⟩
  · obtain ⟨q, hc'⟩ := hi.reported k hk
    exact ⟨q, hframe (mem_flight_of_used hk) hc'⟩
  · obtain ⟨q, hc'⟩ := hi.woken k (List.mem_of_mem_erase hk)
    exact ⟨q, hframe (List.mem_append_right _ hk) hc'⟩
  · have e : q ≠ p := by
      rintro rfl
      unfold State.InFlight at hq
      rw [goto_pc_self] at hq
      rcases hq with e | e | e <;> cases e
    unfold State.InFlight at hq
    rw [goto_pc_of_ne e] at hq
    obtain ⟨hmem, hown⟩ := hflight e hq
    exact ⟨hmem, (Function.update_of_ne (hne k hmem) _ _).trans hown⟩
  · have hb : (q'.info d).buf = some q := hb
    rw [hf.info, Function.update_apply] at hb
    split at hb
    next e =>
      subst e
      exact hi.buf d q hb
    next e => exact hi.buf d q hb
  · have e : q ≠ p := by
      rintro rfl
      rw [goto_pc_self] at hq
      cases hq
    rw [goto_pc_of_ne e] at hq
    exact hi.submit q write hq
  · by_cases e : q = p
    · rw [e]
      exact ⟨hc.reported, hc.woken⟩
    · rw [goto_pc_of_ne e] at hq
      exact hi.returned q x hq

/-! ## Steps of the device -/

/-- The device takes the first request of the avail ring. -/
theorem Inv.take (hi : Inv s free avail used done) (hne : s.taken ≠ s.q.avail.idx) :
    ∃ d avail', avail = d :: avail' ∧ Inv s.take free avail' used done := by
  obtain ⟨n, hring, htaken, hidx⟩ := hi.availRing
  cases avail with
  | nil => exact absurd (htaken.trans hidx.symm) hne
  | cons d avail' =>
    obtain ⟨hat, hring'⟩ := hring.pop
    have hdev : s.take.inDevice = s.inDevice ++ [d] := by
      have : s.q.avail.at s.taken = d := by
        unfold Ring.at
        rw [htaken, ofNat_toNat_mod nqueue_dvd]
        exact hat
      show _ ++ [s.q.avail.at s.taken] = _
      rw [this]
    have hperm : (avail' ++ s.take.inDevice).Perm (d :: avail' ++ s.inDevice) := by
      rw [hdev]
      exact List.perm_iff_count.mpr fun a => by
        simp only [List.count_append, List.count_cons, List.count_nil]
        omega
    have hflight := (hperm.append_right used).append_right done
    refine ⟨d, avail', rfl, hi.queue.perm hflight, ⟨n + 1, hring', ?_, ?_⟩, hi.usedRing, hi.status,
      fun h hh => (hi.waiting h (hperm.mem_iff.mp hh)).imp fun p hc => ?_,
      fun h hh => (hi.reported h hh).imp fun p hc => ?_,
      fun h hh => (hi.woken h hh).imp fun p hc => ?_, fun q k hq => ?_,
      fun a q hb => (hperm.append_right used).mem_iff.mpr (hi.buf a q hb), hi.submit, hi.returned,
      hi.delivered⟩
    · show s.taken + 1 = _
      rw [htaken, ofNat_succ]
    · show s.q.avail.idx = _
      rw [hidx, List.length_cons, Nat.add_assoc, Nat.add_comm 1]
    · exact hc.frame ⟨rfl, rfl, rfl, rfl, rfl, rfl⟩ fun _ _ => rfl
    · exact hc.frame ⟨rfl, rfl, rfl, rfl, rfl, rfl⟩ fun _ _ => rfl
    · exact hc.frame ⟨rfl, rfl, rfl, rfl, rfl, rfl⟩ fun _ _ => rfl
    · obtain ⟨hmem, hown⟩ := hi.flight q k hq
      exact ⟨hflight.mem_iff.mpr hmem, hown⟩

/-- The device reports a request. -/
theorem Inv.report (hi : Inv s free avail used done) (hd : h ∈ s.inDevice) :
    Inv (s.report h) free avail (used ++ [h]) done := by
  obtain ⟨n, hring, hlast, hidx⟩ := hi.usedRing
  obtain ⟨p, hc⟩ := hi.waiting h (List.mem_append_right _ hd)
  have hflight : (avail ++ s.inDevice.erase h ++ (used ++ [h]) ++ done).Perm
      (avail ++ s.inDevice ++ used ++ done) := by
    refine List.perm_iff_count.mpr fun a => ?_
    have := (List.perm_cons_erase hd).count_eq a
    simp only [List.count_append, List.count_cons, List.count_nil] at this ⊢
    omega
  have hlen := hi.length_le
  have hpos := List.length_pos_of_mem hd
  have hnq : nqueue = 16 := rfl
  have hbuf : ∀ a, ((s.report h).q.info a).buf = (s.q.info a).buf := by
    intro a
    show (Function.update s.q.info h _ a).buf = _
    rw [Function.update_apply]
    split
    next e => rw [e]
    next e => rfl
  have hrep : (s.report h).reported = Function.update s.reported p (s.reported p + 1) := by
    unfold State.report
    dsimp only
    rw [hc.owner]
  have hrest : ∀ a ∈ avail ++ s.inDevice.erase h, a ∈ avail ++ s.inDevice := fun a ha =>
    (List.mem_append.mp ha).elim (List.mem_append_left _)
      fun ha => List.mem_append_right _ (List.mem_of_mem_erase ha)
  -- only the owner of the request has a new report
  have hframe : ∀ {r b q k}, k ≠ h → Caller s r b q k → Caller (s.report h) r b q k := by
    intro r b q k hk hc'
    have e : q ≠ p := by
      rintro rfl
      exact hk (hc'.inFlight.unique hc.inFlight)
    refine hc'.frame ⟨rfl, hbuf k, ?_, rfl, rfl, rfl⟩ fun _ _ => rfl
    rw [hrep]
    exact Function.update_of_ne e _ _
  have hnd := hi.nodup
  refine ⟨(hi.queue.perm hflight).congr rfl rfl rfl, hi.availRing, ⟨n, ?_, hlast, ?_⟩, fun a => ?_, fun k hk => ?_,
    fun k hk => ?_, fun k hk => ?_, fun q k hq => ?_, fun a q hb => ?_, fun q write hq => ?_,
    fun q x hq => ?_, hi.delivered⟩
  · show Holds (Function.update s.q.used.ring (s.q.used.idx.toNat % nqueue) h) _ _ _
    rw [hidx, ofNat_toNat_mod nqueue_dvd]
    exact hring.push (by omega)
  · show s.q.used.idx + 1 = _
    rw [hidx, ofNat_succ, List.length_append, List.length_singleton, Nat.add_assoc]
  · show (Function.update s.q.info h _ a).status = 0
    rw [Function.update_apply]
    split
    · rfl
    · exact hi.status a
  · have e : k ≠ h := by
      rintro rfl
      have hc1 := hflight.nodup_iff.mpr hnd
      rw [List.append_assoc, List.nodup_append] at hc1
      refine hc1.2.2 k hk k ?_ rfl
      exact List.mem_append_left _ (List.mem_append_right _ List.mem_cons_self)
    obtain ⟨q, hc'⟩ := hi.waiting k (hrest k hk)
    exact ⟨q, hframe e hc'⟩
  · rcases List.mem_append.mp hk with hk | hk
    · obtain ⟨q, hc'⟩ := hi.reported k hk
      refine ⟨q, hframe ?_ hc'⟩
      rintro rfl
      exact absurd (hc.unique hc').2.1 (by decide)
    · obtain rfl := List.mem_singleton.mp hk
      refine ⟨p, hc.owner, (hbuf k).trans hc.buf, ?_, hc.woken, hc.waits, hc.addr⟩
      rw [hrep, Function.update_self, hc.reported]
  · obtain ⟨q, hc'⟩ := hi.woken k hk
    refine ⟨q, hframe ?_ hc'⟩
    rintro rfl
    exact absurd (hc.unique hc').2.1 (by decide)
  · obtain ⟨hmem, hown⟩ := hi.flight q k hq
    exact ⟨hflight.mem_iff.mpr hmem, hown⟩
  · rw [hbuf] at hb
    have hsplit : a ∈ s.inDevice → a ∈ h :: s.inDevice.erase h :=
      (List.perm_cons_erase hd).mem_iff.mp
    have hmem := hi.buf a q hb
    simp only [List.mem_append] at hmem
    simp only [State.report, List.mem_append, List.mem_singleton]
    rcases hmem with (hmem | hmem) | hmem
    · exact .inl (.inl hmem)
    · rcases List.mem_cons.mp (hsplit hmem) with e | e
      · exact .inr (.inr e)
      · exact .inl (.inr e)
    · exact .inr (.inl hmem)
  · have e : q ≠ p := by
      rintro rfl
      exact hc.inFlight.pc_ne_submit hq
    rw [hrep, Function.update_of_ne e]
    exact hi.submit q write hq
  · have e : q ≠ p := by
      rintro rfl
      exact hc.inFlight.pc_ne_returned hq
    rw [hrep, Function.update_of_ne e]
    exact hi.returned q x hq

/-! ## The interrupt -/

/-- The state after a round of the interrupt for head `d`, whose caller `p` is posted. -/
def State.handled (s : State) (d p : ℕ) (m : Sem ℕ) : State :=
  { s.setSem p m with
    q := { s.q with
      info := Function.update s.q.info d ⟨0, true, none⟩
      lastUsedIdx := s.q.lastUsedIdx + 1 }
    woken := Function.update s.woken p (s.woken p + 1) }

theorem intrRound_eq {d : ℕ} {m : Sem ℕ} {w : List ℕ} (hat : s.q.used.at s.q.lastUsedIdx = d)
    (hst : (s.q.info d).status = 0) (hbuf : (s.q.info d).buf = some p)
    (hown : s.owner d = some p) (hm : s.misdelivered = false)
    (hpost : (s.sem p).post = some (m, w)) : s.intrRound = some (s.handled d p m) := by
  unfold State.intrRound
  dsimp only
  rw [hat, if_neg (not_not.mpr hst), hbuf, hown]
  dsimp only
  unfold State.post
  dsimp only
  rw [hpost]
  simp only [Option.map_some, State.handled, State.setSem, Virtq.setInfo, Function.update_self,
    Function.update_idem, hst, hm, bne_self_eq_false, Option.isNone_some,
    Bool.or_false]

/-- A caller in flight whose request has been reported is posted. -/
theorem Waits.post (hw : Waits s p h false) :
    ∃ m w, (s.sem p).post = some (m, w) ∧ ∀ t : State, t.pc p = s.pc p → t.sem p = m →
      Waits t p h true := by
  rcases hw with ⟨hpc, hsem⟩ | ⟨hpc, hsem⟩ | ⟨-, -, hb⟩
  · refine ⟨⟨1, []⟩, [], by rw [hsem]; rfl, fun t htpc ht => .inl ⟨htpc.trans hpc, ht⟩⟩
  · refine ⟨⟨0, []⟩, [p], by rw [hsem]; rfl, fun t htpc ht => .inr (.inl ⟨htpc.trans hpc, ht⟩)⟩
  · cases hb

/-- A round of the interrupt posts the caller of the first reported request. -/
theorem Inv.intrRound {d : ℕ} (hi : Inv s free avail (d :: used) done) :
    ∃ t, s.intrRound = some t ∧ t.panicked = s.panicked ∧ t.pc = s.pc ∧
      Inv t free avail used (done ++ [d]) := by
  obtain ⟨n, hring, hlast, hidx⟩ := hi.usedRing
  obtain ⟨hcell, hring'⟩ := hring.pop
  have hat : s.q.used.at s.q.lastUsedIdx = d := by
    unfold Ring.at
    rw [hlast, ofNat_toNat_mod nqueue_dvd]
    exact hcell
  obtain ⟨p, hc⟩ := hi.reported d List.mem_cons_self
  obtain ⟨m, w, hpost, hwaits⟩ := hc.waits.post
  refine ⟨s.handled d p m, intrRound_eq hat (hi.status d) hc.buf hc.owner hi.delivered hpost, rfl,
    rfl, ?_⟩
  have hflight : (avail ++ s.inDevice ++ used ++ (done ++ [d])).Perm
      (avail ++ s.inDevice ++ d :: used ++ done) :=
    List.perm_iff_count.mpr fun a => by
      simp only [List.count_append, List.count_cons, List.count_nil]
      omega
  have hnd := hi.nodup
  have hout : ∀ {q}, q ≠ p → (s.handled d p m).sem q = s.sem q ∧
      (s.handled d p m).woken q = s.woken q := fun e =>
    ⟨setSem_sem_of_ne e m, Function.update_of_ne e _ _⟩
  have hframe : ∀ {r b q k}, k ≠ d → Caller s r b q k → Caller (s.handled d p m) r b q k := by
    intro r b q k hk hc'
    have e : q ≠ p := by
      rintro rfl
      exact hk (hc'.inFlight.unique hc.inFlight)
    refine hc'.frame ⟨rfl, ?_, rfl, (hout e).2, rfl, (hout e).1⟩ fun _ _ => rfl
    exact congrArg Info.buf (Function.update_of_ne hk _ _)
  refine ⟨(hi.queue.perm hflight).congr rfl rfl rfl, hi.availRing, ⟨n + 1, hring', ?_, ?_⟩,
    fun a => ?_, fun k hk => ?_, fun k hk => ?_, fun k hk => ?_, fun q k hq => ?_,
    fun a q hb => ?_, fun q write hq => ?_, fun q x hq => ?_, hi.delivered⟩
  · show s.q.lastUsedIdx + 1 = _
    rw [hlast, ofNat_succ]
  · show s.q.used.idx = _
    rw [hidx, List.length_cons, Nat.add_assoc, Nat.add_comm 1]
  · show (Function.update s.q.info d _ a).status = 0
    rw [Function.update_apply]
    split
    · rfl
    · exact hi.status a
  · obtain ⟨q, hc'⟩ := hi.waiting k hk
    refine ⟨q, hframe ?_ hc'⟩
    rintro rfl
    exact absurd (hc.unique hc').2.1 (by decide)
  · obtain ⟨q, hc'⟩ := hi.reported k (List.mem_cons_of_mem _ hk)
    refine ⟨q, hframe ?_ hc'⟩
    rintro rfl
    rw [List.append_assoc, List.nodup_append, List.cons_append, List.nodup_cons] at hnd
    exact hnd.2.1.1 (List.mem_append_left _ hk)
  · rcases List.mem_append.mp hk with hk | hk
    · obtain ⟨q, hc'⟩ := hi.woken k hk
      refine ⟨q, hframe ?_ hc'⟩
      rintro rfl
      exact absurd (hc.unique hc').2.2 (by decide)
    · obtain rfl := List.mem_singleton.mp hk
      refine ⟨p, hc.owner, ?_, hc.reported, ?_, hwaits _ rfl (setSem_sem_self m), hc.addr⟩
      · show (Function.update s.q.info k ⟨0, true, none⟩ k).buf = none
        rw [Function.update_self]
      show Function.update s.woken p (s.woken p + 1) p = 1
      rw [Function.update_self, hc.woken]
      rfl
  · obtain ⟨hmem, hown⟩ := hi.flight q k hq
    exact ⟨hflight.mem_iff.mpr hmem, hown⟩
  · have hb : (Function.update s.q.info d ⟨0, true, none⟩ a).buf = some q := hb
    by_cases e : a = d
    · rw [e, Function.update_self] at hb
      cases hb
    · rw [Function.update_of_ne e] at hb
      have := hi.buf a q hb
      simp only [List.mem_append, List.mem_cons] at this
      simp only [State.handled, State.setSem, List.mem_append]
      tauto
  · have e : q ≠ p := by
      rintro rfl
      exact hc.inFlight.pc_ne_submit hq
    rw [(hout e).1, (hout e).2]
    exact hi.submit q write hq
  · have e : q ≠ p := by
      rintro rfl
      exact hc.inFlight.pc_ne_returned hq
    rw [(hout e).2]
    exact hi.returned q x hq

/-- The interrupt handles all reported requests. -/
theorem Inv.intrLoop (hi : Inv s free avail used done) (hp : s.panicked = false) :
    ∃ t, State.intrLoop used.length s = some t ∧ t.panicked = false ∧ t.pc = s.pc ∧
      Inv t free avail [] (done ++ used) := by
  induction used generalizing s done with
  | nil =>
    rw [List.append_nil]
    exact ⟨s, rfl, hp, rfl, hi⟩
  | cons d used ih =>
    obtain ⟨t, ht, htp, hpc, hi'⟩ := hi.intrRound
    have hp' := htp.trans hp
    obtain ⟨u, hu, hup, hupc, hi''⟩ := ih hi' hp'
    refine ⟨u, ?_, hup, hupc.trans hpc, ?_⟩
    · rw [List.length_cons, State.intrLoop, ht]
      dsimp only
      rw [hp', if_neg Bool.false_ne_true, hu]
    · rwa [List.append_assoc] at hi''

theorem Inv.intr (hi : Inv s free avail used done) (hp : s.panicked = false) :
    ∃ t, s.intr = some t ∧ t.panicked = false ∧ t.pc = s.pc ∧
      Inv t free avail [] (done ++ used) := by
  obtain ⟨n, -, hlast, hidx⟩ := hi.usedRing
  have hlen := hi.length_le
  have hrounds : (s.q.used.idx - s.q.lastUsedIdx).toNat = used.length := by
    rw [hidx, hlast, toNat_ofNat_sub (by omega) (by omega)]
    omega
  unfold State.intr
  rw [hrounds]
  exact hi.intrLoop hp

/-! ## All steps -/

theorem inv_initState : Inv initState (List.range nqueue) [] [] [] where
  queue := by
    refine ⟨?_, rfl, ?_, rfl, fun h hh => by cases hh⟩
    · show (List.range nqueue ++ []).Perm _
      rw [List.append_nil]
    · unfold Link
      decide +kernel
  availRing := ⟨0, holds_nil, rfl, rfl⟩
  usedRing := ⟨0, holds_nil, rfl, rfl⟩
  status _ := rfl
  waiting _ hh := by cases hh
  reported _ hh := by cases hh
  woken _ hh := by cases hh
  flight _ _ hp := by rcases hp with e | e | e <;> cases e
  buf _ _ hb := by cases hb
  submit _ _ hp := by cases hp
  returned _ _ hp := by cases hp
  delivered := rfl

/-- The wait of no process is interrupted. -/
def NoKill (_ : State) (a : Action) : Prop :=
  match a with
  | .kill _ => False
  | _ => True

instance (s : State) (a : Action) : Decidable (NoKill s a) := by
  cases a <;> unfold NoKill <;> infer_instance

/-- The state is in order, with some requests in flight. -/
def Ordered (s : State) : Prop :=
  s.panicked = false ∧ ∃ free avail used done, Inv s free avail used done

/-- A request begins with three free descriptors. -/
def Supplied (s : State) (a : Action) : Prop :=
  match a with
  | .step p =>
    match s.pc p with
    | some (.submit _) => 3 ≤ s.q.nfree
    | _ => True
  | _ => True

instance (s : State) (a : Action) : Decidable (Supplied s a) := by
  unfold Supplied
  split
  · split <;> infer_instance
  · infer_instance

/-- The number of free descriptors is 1 more than a multiple of 3. -/
theorem Inv.starved_iff (hi : Inv s free avail used done) : ¬ 3 ≤ s.q.nfree ↔ ¬ 4 ≤ free.length := by
  have := hi.length_le
  have := hi.queue.nfree
  omega

theorem Inv.step (hi : Inv s free avail used done) (hp : s.panicked = false)
    (h : s.step p = some t) : Ordered t ∨ t.panicked = true ∧ ¬ Supplied s (.step p) := by
  unfold State.step at h
  split at h
  next => cases h
  next write hpc =>
    cases h
    by_cases hlen : 4 ≤ free.length
    · obtain ⟨d0, d1, d2, rest, -, -, hp', -, hi'⟩ := hi.enqueue hpc hlen
      exact .inl ⟨hp'.trans hp, rest, avail ++ [d0], used, done, hi'⟩
    · have hnfree := hi.starved_iff.mpr hlen
      refine .inr ⟨?_, ?_⟩
      · rw [hi.queue.nfree] at hnfree
        unfold State.submit
        rw [hi.queue.submit_none (by omega)]
      · unfold Supplied
        dsimp only
        rw [hpc]
        exact hnfree
  next d0 hpc =>
    cases h
    refine .inl ⟨?_, free, avail, used, done, hi.wait hpc⟩
    unfold State.wait
    split <;> exact hp
  next d0 hpc =>
    split_ifs at h with hup
    cases h
    exact .inl ⟨hp, free, avail, used, done, hi.wake hpc hup⟩
  next d0 hpc =>
    obtain ⟨d1, d2, u, -, hu, hp', -, -, -, -, hi'⟩ := hi.reclaim hpc
    obtain rfl : u = t := Option.some.inj (hu.symm.trans h)
    exact .inl ⟨hp'.trans hp, d0 :: d1 :: d2 :: free, avail, used, done.erase d0, hi'⟩
  next x hpc =>
    cases h
    exact .inl ⟨hp, free, avail, used, done, hi.ret hpc⟩

/-- A step that does not kill keeps the order, or PANICs for lack of descriptors. -/
theorem Inv.preserved {a : Action} (hi : Inv s free avail used done) (hp : s.panicked = false)
    (hk : NoKill s a) (h : next s a = some t) :
    Ordered t ∨ t.panicked = true ∧ ¬ Supplied s a := by
  unfold Virtio.next at h
  rw [hp, if_neg Bool.false_ne_true] at h
  cases a with
  | call p dirty blockNo =>
    dsimp only at h
    split_ifs at h with hpc
    cases h
    exact .inl ⟨hp, free, avail, used, done, hi.begin (Option.isNone_iff_eq_none.mp hpc) _ _⟩
  | step p => exact hi.step hp h
  | kill p => exact hk.elim
  | take =>
    dsimp only at h
    split_ifs at h with hne
    cases h
    obtain ⟨d, avail', -, hi'⟩ := hi.take hne
    exact .inl ⟨hp, free, avail', used, done, hi'⟩
  | report d =>
    dsimp only at h
    split_ifs at h with hd
    cases h
    exact .inl ⟨hp, free, avail, used ++ [d], done, hi.report hd⟩
  | intr =>
    obtain ⟨u, hu, hp', -, hi'⟩ := hi.intr hp
    obtain rfl : u = t := Option.some.inj (hu.symm.trans h)
    exact .inl ⟨hp', free, avail, [], done ++ used, hi'⟩

/-- Without kills every state that has not PANICked is in order. -/
theorem ordered_of_run (h : Run next NoKill initState s) (hp : s.panicked = false) :
    Ordered s := by
  refine h.invariant (I := fun s => s.panicked = false → Ordered s)
    (fun _ => ⟨rfl, _, _, _, _, inv_initState⟩) (fun s a t hs hk ht hp' => ?_) hp
  have hp : s.panicked = false := by
    by_contra hne
    unfold Virtio.next at ht
    rw [if_pos (by simpa using hne)] at ht
    cases ht
  obtain ⟨-, free, avail, used, done, hi⟩ := hs hp
  rcases hi.preserved hp hk ht with ho | ⟨hpt, -⟩
  · exact ho
  · rw [hp'] at hpt
    cases hpt

end ShikiOS.Driver.Virtio
