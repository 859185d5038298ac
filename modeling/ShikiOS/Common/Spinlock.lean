import ShikiOS.Lib.Run
import ShikiOS.Lib.Serial

/-!
# Spin locks (`common/spinlock.c`)

Any number of callers take one lock, run a program on what the lock protects and release it. A
step is one access to `locked` or one step of the program, so `try_acquire_spinlock` is two
steps: the test of `locked` and the test and set. A caller is a processor, or an interrupt
handler on a processor; one that interrupts the holder spins. What the programs put out goes to a
line that others use too, without the lock.

Results:
* `Serial.step`, `Serial.run`: at every moment the programs have run one after the other in the
  order in which the lock was taken, the last one perhaps not to its end.
* `sections_serial`: what this says about the line and the order of the calls.
-/

namespace ShikiOS.SpinLock

open ShikiOS.Lib

variable {π C δ ε : Type}

/-! ## Model -/

/-- Where a caller is. -/
inductive Pc (C δ ε : Type)
  | idle
  /-- Before the test of `locked` (line 11). -/
  | test (c : C)
  /-- Before the test and set (line 12). -/
  | testAndSet (c : C)
  /-- With the lock, and what is left of its program. -/
  | inside (c : C) (k : Code δ ε)

/-- The lock, what it protects, the callers and the line. `called` and `entered` record the calls
    and the moments in which the lock was taken. -/
structure State (π C δ ε : Type) where
  locked : Bool
  data : δ
  pc : π → Pc C δ ε
  line : List (Option π × ε)
  called : List (π × C)
  entered : List (π × C)

/-- `init_spinlock` (lines 4-7), and nobody has called. -/
def init (d : δ) : State π C δ ε := ⟨false, d, fun _ => .idle, [], [], []⟩

/-- A call, a step of a caller, or something that others put on the line. -/
inductive Action (π C ε : Type)
  | call (p : π) (c : C)
  | step (p : π)
  | other (e : ε)

variable [DecidableEq π]

def State.goto (s : State π C δ ε) (p : π) (x : Pc C δ ε) : State π C δ ε :=
  { s with pc := Function.update s.pc p x }

/-- `try_acquire_spinlock` (lines 9-17), in a loop (lines 19-23): a test that fails is made again,
    and so is a test and set that finds the lock taken. -/
def tryAcquireSpinlock (code : C → Code δ ε) (s : State π C δ ε) (p : π) (c : C) (set : Bool) :
    State π C δ ε :=
  if set then
    if s.locked then { s.goto p (.test c) with locked := true }
    else { s.goto p (.inside c (code c)) with locked := true, entered := s.entered ++ [(p, c)] }
  else if s.locked then s.goto p (.test c) else s.goto p (.testAndSet c)

/-- `release_spinlock` (lines 25-28). -/
def releaseSpinlock (s : State π C δ ε) (p : π) : State π C δ ε :=
  { s.goto p .idle with locked := false }

/-- One step of a caller. -/
def stepOf (code : C → Code δ ε) (s : State π C δ ε) (p : π) : Option (State π C δ ε) :=
  match s.pc p with
  | .idle => none
  | .test c => some (tryAcquireSpinlock code s p c false)
  | .testAndSet c => some (tryAcquireSpinlock code s p c true)
  | .inside _ .ret => some (releaseSpinlock s p)
  | .inside _ .stop => none
  | .inside c (.put e k) => some { s.goto p (.inside c k) with line := s.line ++ [(some p, e)] }
  | .inside c (.act f k) => some { s.goto p (.inside c (k s.data)) with data := f s.data }

def next (code : C → Code δ ε) (s : State π C δ ε) : Action π C ε → Option (State π C δ ε)
  | .call p c =>
    match s.pc p with
    | .idle => some { s.goto p (.test c) with called := s.called ++ [(p, c)] }
    | _ => none
  | .step p => stepOf code s p
  | .other e => some { s with line := s.line ++ [(none, e)] }

/-- What the callers have put on the line. -/
def State.printed (s : State π C δ ε) : List (π × ε) :=
  s.line.filterMap fun x => x.1.map fun p => (p, x.2)

/-- The calls of `p` in a record. -/
def callsOf (p : π) (es : List (π × C)) : List C := (es.filter fun x => x.1 = p).map (·.2)

/-- The call with which a caller waits for the lock. -/
def Pc.waiting : Pc C δ ε → List C
  | test c => [c]
  | testAndSet c => [c]
  | _ => []

def Pc.IsInside : Pc C δ ε → Prop
  | inside _ _ => True
  | _ => False

instance : DecidablePred (Pc.IsInside : Pc C δ ε → Prop)
  | .idle => isFalse fun h => h
  | .test _ => isFalse fun h => h
  | .testAndSet _ => isFalse fun h => h
  | .inside _ _ => isTrue trivial

variable {code : C → Code δ ε} {s t : State π C δ ε} {d : δ} {p q : π} {c : C} {k : Code δ ε}

@[simp] theorem goto_pc_self (x : Pc C δ ε) : (s.goto p x).pc p = x := Function.update_self ..

theorem goto_pc_of_ne (x : Pc C δ ε) (h : q ≠ p) : (s.goto p x).pc q = s.pc q :=
  Function.update_of_ne h ..

/-! ## The invariant -/

/-- `p` has the lock and `k` is left of its program: all programs before it have run, and it has
    put out what `k` will not put out. -/
structure Within (code : C → Code δ ε) (d : δ) (s : State π C δ ε) (p : π) (c : C) (k : Code δ ε)
    (es : List (π × C)) (pre : List ε) : Prop where
  pc : s.pc p = .inside c k
  single : ∀ q, (s.pc q).IsInside → q = p
  locked : s.locked = true
  entered : s.entered = es ++ [(p, c)]
  printed : s.printed = (replay code d es).1 ++ pre.map (p, ·)
  output : (code c).output (replay code d es).2 = pre ++ k.output s.data
  final : (code c).final (replay code d es).2 = k.final s.data
  finishes : (code c).Finishes (replay code d es).2 ↔ k.Finishes s.data

/-- Nobody has the lock and every program has run. -/
structure Free (code : C → Code δ ε) (d : δ) (s : State π C δ ε) : Prop where
  outside : ∀ q, ¬ (s.pc q).IsInside
  unlocked : s.locked = false
  replay : (s.printed, s.data) = replay code d s.entered

/-- The calls of each caller have taken the lock in their order, but for the one it waits with. -/
def Ordered (s : State π C δ ε) : Prop :=
  ∀ p, callsOf p s.called = callsOf p s.entered ++ (s.pc p).waiting

/-- The programs have run one after the other. -/
structure Serial (code : C → Code δ ε) (d : δ) (s : State π C δ ε) : Prop where
  ordered : Ordered s
  phase : Free code d s ∨ ∃ p c k es pre, Within code d s p c k es pre

theorem serial_init : Serial code d (init d : State π C δ ε) :=
  ⟨fun _ => rfl, .inl ⟨fun _ h => h, rfl, rfl⟩⟩

theorem callsOf_concat_self (es : List (π × C)) : callsOf p (es ++ [(p, c)]) = callsOf p es ++ [c] := by
  simp [callsOf]

theorem callsOf_concat_of_ne (es : List (π × C)) (h : q ≠ p) :
    callsOf q (es ++ [(p, c)]) = callsOf q es := by
  simp [callsOf, Ne.symm h]

/-- A step that moves one caller, and what it has to say about that caller's calls. -/
theorem Ordered.goto (h : Ordered s) {x : Pc C δ ε} (hpc : ∀ q, t.pc q = (s.goto p x).pc q)
    (hp : callsOf p t.called = callsOf p t.entered ++ x.waiting)
    (hc : ∀ q, q ≠ p → callsOf q t.called = callsOf q s.called)
    (he : ∀ q, q ≠ p → callsOf q t.entered = callsOf q s.entered) : Ordered t := by
  intro q
  rw [hpc]
  by_cases hq : q = p
  · subst hq
    rw [goto_pc_self, hp]
  · rw [goto_pc_of_ne x hq, hc q hq, he q hq]
    exact h q

/-- A step that leaves the records. -/
theorem Ordered.move (h : Ordered s) {x : Pc C δ ε} (hpc : ∀ q, t.pc q = (s.goto p x).pc q)
    (hw : x.waiting = (s.pc p).waiting) (hc : t.called = s.called) (he : t.entered = s.entered) :
    Ordered t := by
  apply h.goto hpc
  · rw [hc, he, hw]
    exact h p
  · exact fun q _ => by rw [hc]
  · exact fun q _ => by rw [he]

/-- A step of a caller without the lock, to a place without the lock. -/
theorem Serial.outside (h : Serial code d s) {x : Pc C δ ε} (hpc : ∀ q, t.pc q = (s.goto p x).pc q)
    (hp : ¬ (s.pc p).IsInside) (hx : ¬ x.IsInside) (hl : t.locked = s.locked) (hd : t.data = s.data)
    (ho : t.printed = s.printed) (he : t.entered = s.entered) (hord : Ordered t) :
    Serial code d t := by
  have hin : ∀ q, (t.pc q).IsInside → (s.pc q).IsInside := by
    intro q hq
    rw [hpc] at hq
    by_cases hqp : q = p
    · subst hqp
      rw [goto_pc_self] at hq
      exact absurd hq hx
    · rwa [goto_pc_of_ne x hqp] at hq
  refine ⟨hord, ?_⟩
  obtain hf | ⟨p', c, k, es, pre, hw⟩ := h.phase
  · left
    exact ⟨fun q hq => hf.outside q (hin q hq), hl.trans hf.unlocked, by rw [ho, hd, he, hf.replay]⟩
  · right
    have hne : p' ≠ p := by
      rintro rfl
      apply hp
      rw [hw.pc]
      trivial
    exact ⟨p', c, k, es, pre, by rw [hpc, goto_pc_of_ne x hne, hw.pc], fun q hq => hw.single q (hin q hq),
      hl.trans hw.locked, he.trans hw.entered, ho.trans hw.printed, by rw [hd]; exact hw.output,
      by rw [hd]; exact hw.final, by rw [hd]; exact hw.finishes⟩

/-- The test and set that takes the lock. -/
theorem Serial.enter (h : Serial code d s) (hpc : s.pc p = .testAndSet c) (hl : s.locked = false) :
    Serial code d { s.goto p (.inside c (code c)) with locked := true, entered := s.entered ++ [(p, c)] } := by
  have hf : Free code d s := by
    obtain hf | ⟨_, _, _, _, _, hw⟩ := h.phase
    · exact hf
    · rw [hw.locked] at hl
      cases hl
  refine ⟨?_, .inr ⟨p, c, code c, s.entered, [], goto_pc_self _, ?_, rfl, rfl, ?_, ?_, ?_, ?_⟩⟩
  · refine h.ordered.goto (fun _ => rfl) ?_ ?_ ?_
    · show callsOf p s.called = callsOf p (s.entered ++ [(p, c)]) ++ []
      rw [callsOf_concat_self, List.append_nil, h.ordered p, hpc]
      rfl
    · exact fun _ _ => rfl
    · exact fun q hq => callsOf_concat_of_ne s.entered hq
  · intro q hq
    by_contra hne
    exact hf.outside q (by rwa [← goto_pc_of_ne (.inside c (code c)) hne])
  · rw [← hf.replay]
    exact (List.append_nil _).symm
  · rw [← hf.replay]
    rfl
  · rw [← hf.replay]
    rfl
  · rw [← hf.replay]
    rfl

/-- The caller that is with the lock is the one that the invariant speaks of. -/
theorem Serial.within (h : Serial code d s) (hpc : s.pc p = .inside c k) :
    ∃ es pre, Within code d s p c k es pre := by
  obtain hf | ⟨p', c', k', es, pre, hw⟩ := h.phase
  · refine absurd ?_ (hf.outside p)
    rw [hpc]
    trivial
  · obtain rfl : p = p' := hw.single p (by rw [hpc]; trivial)
    obtain ⟨rfl, rfl⟩ := Pc.inside.inj (hpc.symm.trans hw.pc)
    exact ⟨es, pre, hw⟩

/-- The release: the program of the caller has run. -/
theorem Serial.leave (h : Serial code d s) (hpc : s.pc p = .inside c .ret) :
    Serial code d (releaseSpinlock s p) := by
  obtain ⟨es, pre, hw⟩ := h.within hpc
  refine ⟨h.ordered.move (fun _ => rfl) (by rw [hpc]; rfl) rfl rfl, .inl ⟨?_, rfl, ?_⟩⟩
  · intro q hq
    by_cases hqp : q = p
    · subst hqp
      rwa [releaseSpinlock, goto_pc_self] at hq
    · rw [releaseSpinlock, goto_pc_of_ne _ hqp] at hq
      exact hqp (hw.single q hq)
  · have hout : (code c).output (replay code d es).2 = pre := hw.output.trans (List.append_nil pre)
    have hfin : (code c).final (replay code d es).2 = s.data := hw.final
    show (s.printed, s.data) = replay code d s.entered
    rw [hw.entered, replay_concat, hout, hfin, hw.printed]

/-- A step of the program of the caller with the lock. -/
theorem Serial.run_step (h : Serial code d s) (hpc : s.pc p = .inside c k) {k' : Code δ ε} (out : List ε)
    (hpc' : ∀ q, t.pc q = (s.goto p (.inside c k')).pc q) (hl : t.locked = s.locked)
    (hc : t.called = s.called) (he : t.entered = s.entered)
    (hprinted : t.printed = s.printed ++ out.map (p, ·))
    (hout : k.output s.data = out ++ k'.output t.data) (hfin : k.final s.data = k'.final t.data)
    (hends : k.Finishes s.data ↔ k'.Finishes t.data) :
    Serial code d t := by
  obtain ⟨es, pre, hw⟩ := h.within hpc
  refine ⟨h.ordered.move hpc' (by rw [hpc]; rfl) hc he, .inr ⟨p, c, k', es, pre ++ out, ?_, ?_,
    hl.trans hw.locked, he.trans hw.entered, ?_, ?_, ?_, hw.finishes.trans hends⟩⟩
  · rw [hpc', goto_pc_self]
  · intro q hq
    by_contra hne
    rw [hpc', goto_pc_of_ne _ hne] at hq
    exact hne (hw.single q hq)
  · rw [hprinted, hw.printed, List.map_append, List.append_assoc]
  · rw [hw.output, hout, List.append_assoc]
  · rw [hw.final, hfin]

omit [DecidableEq π] in
theorem printed_put (x : State π C δ ε) (e : ε) :
    State.printed { x with line := s.line ++ [(some p, e)] } = s.printed ++ [(p, e)] := by
  simp [State.printed]

omit [DecidableEq π] in
theorem printed_other (x : State π C δ ε) (e : ε) :
    State.printed { x with line := s.line ++ [(none, e)] } = s.printed := by
  simp [State.printed]

theorem Serial.step_of (h : Serial code d s) (hs : stepOf code s p = some t) : Serial code d t := by
  unfold stepOf at hs
  split at hs
  · cases hs
  · rename_i c hpc
    cases hs
    have hp : ¬ (s.pc p).IsInside := by simp [hpc, Pc.IsInside]
    cases hl : s.locked with
    | true =>
      rw [tryAcquireSpinlock, if_neg Bool.false_ne_true, if_pos hl]
      exact h.outside (fun _ => rfl) hp (fun h => h) rfl rfl rfl rfl
        (h.ordered.move (fun _ => rfl) (by rw [hpc]) rfl rfl)
    | false =>
      rw [tryAcquireSpinlock, if_neg Bool.false_ne_true, if_neg (by simp [hl])]
      exact h.outside (fun _ => rfl) hp (fun h => h) rfl rfl rfl rfl
        (h.ordered.move (fun _ => rfl) (by rw [hpc]; rfl) rfl rfl)
  · rename_i c hpc
    cases hs
    have hp : ¬ (s.pc p).IsInside := by simp [hpc, Pc.IsInside]
    cases hl : s.locked with
    | true =>
      rw [tryAcquireSpinlock, if_pos rfl, if_pos hl]
      exact h.outside (fun _ => rfl) hp (fun h => h) hl.symm rfl rfl rfl
        (h.ordered.move (fun _ => rfl) (by rw [hpc]; rfl) rfl rfl)
    | false =>
      rw [tryAcquireSpinlock, if_pos rfl, if_neg (by simp [hl])]
      exact h.enter hpc hl
  · rename_i c hpc
    cases hs
    exact h.leave hpc
  · cases hs
  · rename_i c e k hpc
    cases hs
    exact h.run_step hpc [e] (fun _ => rfl) rfl rfl rfl (printed_put _ e) rfl rfl Iff.rfl
  · rename_i c f k hpc
    cases hs
    exact h.run_step hpc [] (fun _ => rfl) rfl rfl rfl (List.append_nil _).symm rfl rfl Iff.rfl

theorem Serial.step (h : Serial code d s) {a : Action π C ε} (hs : next code s a = some t) :
    Serial code d t := by
  cases a with
  | call p c =>
    rw [next] at hs
    split at hs
    · rename_i hpc
      cases hs
      refine h.outside (fun _ => rfl) (by simp [hpc, Pc.IsInside]) (fun h => h) rfl rfl rfl rfl ?_
      refine h.ordered.goto (fun _ => rfl) ?_ ?_ ?_
      · show callsOf p (s.called ++ [(p, c)]) = callsOf p s.entered ++ [c]
        rw [callsOf_concat_self, h.ordered p, hpc]
        simp [Pc.waiting]
      · exact fun q hq => callsOf_concat_of_ne s.called hq
      · exact fun _ _ => rfl
    · cases hs
  | step p => exact h.step_of hs
  | other e =>
    cases hs
    refine ⟨h.ordered, ?_⟩
    obtain hf | ⟨p, c, k, es, pre, hw⟩ := h.phase
    · left
      exact ⟨hf.outside, hf.unlocked, by rw [printed_other]; exact hf.replay⟩
    · right
      exact ⟨p, c, k, es, pre, hw.pc, hw.single, hw.locked, hw.entered,
        by rw [printed_other]; exact hw.printed, hw.output, hw.final, hw.finishes⟩

theorem Serial.run (h : Run (next code) anyStep (init d) s) : Serial code d s :=
  h.invariant serial_init fun _ _ _ ht _ hs => ht.step hs

theorem run_step (hs : stepOf code s p = some t) : Run (next code) (fun _ a => a = .step p) s t :=
  Run.tail (a := Action.step p) Run.refl rfl hs

/-- The steps of the caller with the lock lead to its release, if its program ends. -/
theorem releases (hpc : s.pc p = .inside c k) (hk : k.Finishes s.data) :
    ∃ t, Run (next code) (fun _ a => a = .step p) s t ∧ t.pc p = .idle ∧ t.locked = false := by
  induction k generalizing s with
  | ret =>
    refine ⟨releaseSpinlock s p, run_step ?_, goto_pc_self _, rfl⟩
    rw [stepOf, hpc]
  | stop => exact hk.elim
  | put e k ih =>
    obtain ⟨t, hrun, ht⟩ := ih (s := { s.goto p (.inside c k) with line := s.line ++ [(some p, e)] })
      (goto_pc_self _) hk
    refine ⟨t, (run_step ?_).trans hrun, ht⟩
    rw [stepOf, hpc]
  | act f k ih =>
    obtain ⟨t, hrun, ht⟩ := ih s.data (s := { s.goto p (.inside c (k s.data)) with data := f s.data })
      (goto_pc_self _) hk
    refine ⟨t, (run_step ?_).trans hrun, ht⟩
    rw [stepOf, hpc]

/-- A caller that is not with the lock waits for it with its last call, or all its calls are over. -/
theorem Serial.left (h : Serial code d s) (hpc : s.pc p = .idle) :
    callsOf p s.called = callsOf p s.entered := by
  rw [h.ordered p, hpc]
  exact List.append_nil _

theorem Serial.free (h : Serial code d s) (ho : ∀ p, ¬ (s.pc p).IsInside) : Free code d s := by
  obtain hf | ⟨p, _, _, _, _, hw⟩ := h.phase
  · exact hf
  · refine absurd ?_ (ho p)
    rw [hw.pc]
    trivial

/-- Whatever the callers do with the lock, and in whatever order they test and set it: they have
    run one after the other in the order in which they took it, each with all its calls in its own
    order; the last one has perhaps not put out everything. -/
theorem sections_serial (h : Run (next code) anyStep (init d) s) :
    (∀ p q, (s.pc p).IsInside → (s.pc q).IsInside → p = q) ∧
      (∀ p, callsOf p s.called = callsOf p s.entered ++ (s.pc p).waiting) ∧
      ((∀ p, ¬ (s.pc p).IsInside) → (s.printed, s.data) = replay code d s.entered) ∧
      ∀ p c k, s.pc p = .inside c k → ∃ es pre, s.entered = es ++ [(p, c)] ∧
        s.printed = (replay code d es).1 ++ pre.map (p, ·) ∧
        (code c).output (replay code d es).2 = pre ++ k.output s.data := by
  have hserial := Serial.run h
  refine ⟨?_, hserial.ordered, fun ho => (hserial.free ho).replay, ?_⟩
  · intro p q hp hq
    obtain hf | ⟨r, _, _, _, _, hw⟩ := hserial.phase
    · exact absurd hp (hf.outside p)
    · exact (hw.single p hp).trans (hw.single q hq).symm
  · intro p c k hpc
    obtain ⟨es, pre, hw⟩ := hserial.within hpc
    exact ⟨es, pre, hw.entered, hw.printed, hw.output⟩

/-- A program that adds `n` to the value and puts out what the value was. -/
def addAndPut (n : ℕ) : Code ℕ ℕ := .act (· + n) fun d => .put d .ret

/-- Two callers find the lock free; the second takes it, and the first spins. -/
theorem sections_serial_two : ∃ s : State (Fin 2) ℕ ℕ ℕ,
    Run (next addAndPut) anyStep (init 10) s ∧ s.printed = [(1, 10), (0, 17)] ∧ s.data = 22 := by
  have hexec : ((exec (next addAndPut) (init 10) [.call 0 5, .call 1 7, .step 0, .step 1, .step 1,
      .step 0, .other 3, .step 1, .step 0, .step 1, .step 1, .step 0, .step 0, .step 0, .step 0,
      .step 0] : Option (State (Fin 2) ℕ ℕ ℕ))).map
      (fun s => (s.entered, decide (∀ p, ¬ (s.pc p).IsInside))) = some ([(1, 7), (0, 5)], true) := by
    decide +kernel
  obtain ⟨s, hs, hx⟩ := Option.map_eq_some_iff.mp hexec
  obtain ⟨hentered, hout⟩ := Prod.mk.inj hx
  have hrun := Run.of_exec hs
  have hreplay := (sections_serial hrun).2.2.1 (of_decide_eq_true hout)
  rw [hentered] at hreplay
  exact ⟨s, hrun, congrArg Prod.fst hreplay, congrArg Prod.snd hreplay⟩

end ShikiOS.SpinLock
