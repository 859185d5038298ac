import ShikiOS.Lib.Chain
import ShikiOS.Kernel.SchedWait

/-!
# `pick_next` in memory (`kernel/sched.c`)

`Sched.pickNext` works on the list of the queued processes. The C function walks over the
links with `_for_in_list`, and that macro delivers the list head `rq` as its last node.
`container_of` then makes a process of the memory before `rq`, which no code has written as
one. Here the memory is words at addresses, and the walk reads `wait_time`, `state` and the
links from it.

Results:
* `pick_next_from_queue`: `pick_next` returns, having looked at every process of the queue and
  at the memory before `rq`. It ages and chooses processes of the queue only, iff the word where
  that memory would have its `state` is not RUNNABLE.
* `pickNext_agrees`: then it computes what `Sched.pickNext` does.
-/

namespace ShikiOS.Kernel.PickNext

open ShikiOS.Lib

/-! ## Memory -/

/-- The words of memory, at addresses that are multiples of 4. -/
structure Memory where
  word : ℕ → BitVec 32

/-- `offset_of(struct Proc, wait_time)` (proc.h:66). -/
def waitTimeOffset : ℕ := 12

/-- `offset_of(struct Proc, state)` (proc.h:67). -/
def stateOffset : ℕ := 16

/-- `offset_of(struct Proc, schinfo.rq)` (proc.h:73). -/
def rqOffset : ℕ := 96

/-- `sizeof(Proc)`. -/
def procSize : ℕ := 312

/-- `RUNNABLE` (proc.h:11). -/
def runnable : BitVec 32 := 1

/-- `container_of(p, struct Proc, schinfo.rq)`. -/
def containerOf (p : ℕ) : ℕ := p - rqOffset

namespace Memory

def store (m : Memory) (a : ℕ) (v : BitVec 32) : Memory := ⟨Function.update m.word a v⟩

/-- `proc->wait_time`, an `int`. -/
def waitTime (m : Memory) (proc : ℕ) : ℤ := (m.word (proc + waitTimeOffset)).toInt

/-- `proc->state`. -/
def state (m : Memory) (proc : ℕ) : BitVec 32 := m.word (proc + stateOffset)

/-- `node->next`, the second pointer of a `ListNode`. -/
def next (m : Memory) (node : ℕ) : ℕ :=
  (m.word (node + 8)).toNat + 2 ^ 32 * (m.word (node + 12)).toNat

end Memory

/-! ## The function -/

/-- Memory and the variables of `pick_next`, where `chosenProc = 0` is `NULL`. `visited` has
    the processes whose `state` was read, `aged` those whose `wait_time` was raised and compared. -/
structure Locals where
  mem : Memory
  maxWaitTime : ℤ
  chosenProc : ℕ
  visited : List ℕ
  aged : List ℕ

/-- The body of the loop (sched.c:147-157) for the node `p`. -/
def visit (s : Locals) (p : ℕ) : Locals :=
  let proc := containerOf p
  let s := { s with visited := s.visited ++ [proc] }
  if s.mem.state proc = runnable then
    let a := proc + waitTimeOffset
    let s := { s with mem := s.mem.store a (s.mem.word a + 1), aged := s.aged ++ [proc] }
    if s.mem.waitTime proc > s.maxWaitTime then
      { s with maxWaitTime := s.mem.waitTime proc, chosenProc := proc }
    else s
  else s

/-- `_for_in_list(p, list)` (list.h:27-29) around that body; `fuel` bounds its rounds. -/
def forInList (list : ℕ) : (fuel : ℕ) → (valptr : ℕ) → Locals → Option Locals
  | 0, _, _ => none
  | fuel + 1, valptr, s =>
    if valptr = 0 then some s
    else
      let s := visit s valptr
      forInList list fuel (if valptr = list then 0 else s.mem.next valptr) s

/-- `pick_next` (sched.c:141-162) for a list head at `rq`: what it leaves, and the process that
    it returns. -/
def pickNext (fuel : ℕ) (m : Memory) (rq idle : ℕ) : Option (Locals × ℕ) :=
  (forInList rq fuel (m.next rq) ⟨m, -1, 0, [], []⟩).map fun s =>
    (s, if s.chosenProc ≠ 0 then s.chosenProc else idle)

/-! ## The queue -/

/-- The processes `procs` are linked behind the list head `rq`. `Proc` objects and the head do
    not overlap. A RUNNABLE process waits since its insertion, which has set its `wait_time` to 0
    (sched.c:104, 131), and by `Sched.Run.waits` for no more rounds than processes can be in the
    queue, so the `int` does not overflow. -/
structure RunQueue (m : Memory) (rq : ℕ) (procs : List ℕ) : Prop where
  linked : Seg m.next (m.next rq) (procs.map (· + rqOffset)) rq
  apart : procs.Pairwise fun p q => p + procSize ≤ q ∨ q + procSize ≤ p
  head : ∀ p ∈ procs, p + procSize ≤ rq ∨ rq + 16 ≤ p
  pos : ∀ p ∈ procs, 0 < p
  rq_pos : rqOffset < rq
  waits : ∀ p ∈ procs, m.state p = runnable → 0 ≤ m.waitTime p ∧ m.waitTime p + 1 < 2 ^ 31

/-- The process at `p` is RUNNABLE. -/
def Memory.Ready (m : Memory) (p : ℕ) : Prop := m.state p = runnable

instance (m : Memory) (p : ℕ) : Decidable (m.Ready p) := inferInstanceAs (Decidable (_ = _))

/-- A call on `m` that left `s` and returned `r` dealt with the processes of the queue only. -/
structure FromQueue (m : Memory) (procs : List ℕ) (idle : ℕ) (s : Locals) (r : ℕ) : Prop where
  aged : ∀ p, p ∈ s.aged ↔ p ∈ procs ∧ m.Ready p
  waitTime : ∀ p ∈ s.aged, s.mem.waitTime p = m.waitTime p + 1
  frame : ∀ a, (∀ p ∈ procs, m.Ready p → a ≠ p + waitTimeOffset) → s.mem.word a = m.word a
  chosen : (∃ p ∈ procs, m.Ready p) → IsFirstMax m.Ready m.waitTime procs r
  idle : (∀ p ∈ procs, ¬ m.Ready p) → r = idle

variable {m : Memory} {rq idle fuel p q a r : ℕ} {procs done rest : List ℕ} {s : Locals}

@[simp] theorem containerOf_add : containerOf (p + rqOffset) = p := Nat.add_sub_cancel p rqOffset

@[simp] theorem store_word_self {v : BitVec 32} : (m.store a v).word a = v :=
  Function.update_self _ _ _

theorem store_word_of_ne {v : BitVec 32} {b : ℕ} (h : b ≠ a) : (m.store a v).word b = m.word b :=
  Function.update_of_ne h _ _

/-- A wait time that is no negative number and not the largest `int` goes up by one. -/
theorem toInt_succ {w : BitVec 32} (h0 : 0 ≤ w.toInt) (h1 : w.toInt + 1 < 2 ^ 31) :
    (w + 1).toInt = w.toInt + 1 := by
  have h : (1 : BitVec 32).toInt = 1 := by decide
  rw [BitVec.toInt_add, h, Int.bmod_eq_of_le_mul_two] <;> omega

theorem RunQueue.distinct (h : RunQueue m rq procs) (hp : p ∈ procs) (hq : q ∈ procs)
    (hne : p ≠ q) : p + procSize ≤ q ∨ q + procSize ≤ p := by
  have : Std.Symm fun p q : ℕ => p + procSize ≤ q ∨ q + procSize ≤ p := ⟨fun _ _ => Or.symm⟩
  exact h.apart.forall hp hq hne

theorem RunQueue.nodup (h : RunQueue m rq procs) : procs.Nodup := by
  refine h.apart.imp ?_
  rintro p q (hpq | hpq) rfl <;> simp [procSize] at hpq

/-- The fake process before the list head is not one of the queue. -/
theorem RunQueue.fake_notMem (h : RunQueue m rq procs) : containerOf rq ∉ procs := by
  intro hmem
  have h1 := h.head _ hmem
  have h2 := h.rq_pos
  simp only [containerOf, procSize, rqOffset] at h1 h2
  omega

/-! ## One round -/

/-- `s` is the state after the rounds for the processes of `done`. -/
structure After (m : Memory) (done : List ℕ) (s : Locals) : Prop where
  visited : s.visited = done
  aged : s.aged = done.filter fun p => m.Ready p
  word : ∀ p ∈ done, m.Ready p →
    s.mem.word (p + waitTimeOffset) = m.word (p + waitTimeOffset) + 1
  frame : ∀ a, (∀ p ∈ done, m.Ready p → a ≠ p + waitTimeOffset) → s.mem.word a = m.word a
  best : ∃ chosen : Option ℕ, s.chosenProc = chosen.getD 0 ∧
    Best m.Ready (fun p => m.waitTime p + 1) done (-1) s.maxWaitTime chosen

theorem After.start : After m [] ⟨m, -1, 0, [], []⟩ where
  visited := rfl
  aged := rfl
  word := by simp
  frame := fun _ _ => rfl
  best := ⟨none, rfl, Best.nil⟩

/-- The states and links of the queue are not wait times of it. -/
theorem RunQueue.off (h : RunQueue m rq procs) (hp : p ∈ procs) (hq : q ∈ procs) :
    q + stateOffset ≠ p + waitTimeOffset ∧ q + rqOffset + 8 ≠ p + waitTimeOffset ∧
      q + rqOffset + 12 ≠ p + waitTimeOffset := by
  simp only [stateOffset, waitTimeOffset, rqOffset]
  by_cases hpq : p = q
  · omega
  · have := h.distinct hp hq hpq
    simp only [procSize] at this
    omega

/-- A wait time that no round has raised is the one of `m`. -/
theorem After.waitTime_of_notMem (hs : After m done s) (hq : q ∉ done) :
    s.mem.waitTime q = m.waitTime q := by
  rw [Memory.waitTime, hs.frame, Memory.waitTime]
  intro p hp _ he
  obtain rfl : q = p := by omega
  exact hq hp

variable (h : RunQueue m rq procs)
include h

theorem After.state_eq (hs : After m done s) (hd : ∀ p ∈ done, p ∈ procs) (hq : q ∈ procs) :
    s.mem.state q = m.state q :=
  hs.frame _ fun _ hp _ => (h.off (hd _ hp) hq).1

theorem After.next_eq (hs : After m done s) (hd : ∀ p ∈ done, p ∈ procs) (hq : q ∈ procs) :
    s.mem.next (q + rqOffset) = m.next (q + rqOffset) := by
  rw [Memory.next, Memory.next, hs.frame _ fun _ hp _ => (h.off (hd _ hp) hq).2.1,
    hs.frame _ fun _ hp _ => (h.off (hd _ hp) hq).2.2]

/-- One round for a RUNNABLE process of the queue. -/
theorem After.visit_of_ready (hs : After m done s) (hd : ∀ p ∈ done, p ∈ procs)
    (hq : q ∈ procs) (hnew : q ∉ done) (hr : m.Ready q) :
    visit s (q + rqOffset) =
      { mem := s.mem.store (q + waitTimeOffset) (m.word (q + waitTimeOffset) + 1)
        maxWaitTime := if m.waitTime q + 1 > s.maxWaitTime then m.waitTime q + 1 else s.maxWaitTime
        chosenProc := if m.waitTime q + 1 > s.maxWaitTime then q else s.chosenProc
        visited := s.visited ++ [q]
        aged := s.aged ++ [q] } := by
  have hst : s.mem.state q = runnable := (hs.state_eq h hd hq).trans hr
  have hold : s.mem.word (q + waitTimeOffset) = m.word (q + waitTimeOffset) := by
    refine hs.frame _ fun p hp _ he => hnew ?_
    obtain rfl : q = p := by omega
    exact hp
  have hwait : (s.mem.store (q + waitTimeOffset) (m.word (q + waitTimeOffset) + 1)).waitTime q =
      m.waitTime q + 1 := by
    rw [Memory.waitTime, store_word_self]
    exact toInt_succ (h.waits q hq hr).1 (h.waits q hq hr).2
  simp only [visit, containerOf_add, if_pos hst, hold, hwait]
  split_ifs <;> rfl

theorem After.visit_of_not (hs : After m done s) (hd : ∀ p ∈ done, p ∈ procs)
    (hq : q ∈ procs) (hr : ¬ m.Ready q) :
    visit s (q + rqOffset) = { s with visited := s.visited ++ [q] } := by
  have hst : s.mem.state q ≠ runnable := fun he => hr ((hs.state_eq h hd hq).symm.trans he)
  simp only [visit, containerOf_add, if_neg hst]

/-- One round for the process `q` of the queue. -/
theorem After.visit (hs : After m done s) (hd : ∀ p ∈ done, p ∈ procs) (hq : q ∈ procs)
    (hnew : q ∉ done) : After m (done ++ [q]) (visit s (q + rqOffset)) := by
  obtain ⟨chosen, hchosen, hbest⟩ := hs.best
  by_cases hr : m.Ready q
  · rw [hs.visit_of_ready h hd hq hnew hr]
    constructor
    · rw [hs.visited]
    · rw [List.filter_append, hs.aged]
      simp [hr]
    · intro p hp hpr
      rcases List.mem_append.mp hp with hdone | hlast
      · have hne : p + waitTimeOffset ≠ q + waitTimeOffset := by
          intro he
          obtain rfl : p = q := by omega
          exact hnew hdone
        rw [store_word_of_ne hne, hs.word p hdone hpr]
      · obtain rfl := List.mem_singleton.mp hlast
        exact store_word_self
    · intro a ha
      rw [store_word_of_ne (ha q (by simp) hr)]
      exact hs.frame a fun p hp => ha p (List.mem_append_left _ hp)
    · have hpos := (h.waits q hq hr).1
      refine ⟨if m.waitTime q + 1 > s.maxWaitTime then some q else chosen, ?_,
        hbest.step hr (by omega)⟩
      simp only [hchosen]
      split_ifs <;> rfl
  · rw [hs.visit_of_not h hd hq hr]
    constructor
    · rw [hs.visited]
    · rw [List.filter_append, hs.aged]
      simp [hr]
    · intro p hp hpr
      rcases List.mem_append.mp hp with hp | hp
      · exact hs.word p hp hpr
      · exact absurd (List.mem_singleton.mp hp ▸ hpr) hr
    · exact fun a ha => hs.frame a fun p hp => ha p (List.mem_append_left _ hp)
    · exact ⟨chosen, hchosen, hbest.skip hr⟩

/-! ## The walk -/

/-- The rounds for the processes of `rest`. -/
def visitAll (rest : List ℕ) (s : Locals) : Locals :=
  rest.foldl (fun s p => visit s (p + rqOffset)) s

omit h in
theorem mem_of_split (hsplit : done ++ q :: rest = procs) :
    q ∈ procs ∧ ∀ p ∈ done ++ [q], p ∈ procs := by
  subst hsplit
  refine ⟨by simp, fun p hp => ?_⟩
  simp only [List.mem_append, List.mem_cons] at hp ⊢
  tauto

theorem RunQueue.notMem_of_split (hsplit : done ++ q :: rest = procs) : q ∉ done := by
  have := h.nodup
  rw [← hsplit, List.nodup_append] at this
  exact fun hm => this.2.2 q hm q (by simp) rfl

theorem After.visitAll (hs : After m done s) (hsplit : done ++ rest = procs) :
    After m procs (visitAll rest s) := by
  induction rest generalizing done s with
  | nil =>
    rw [List.append_nil] at hsplit
    exact hsplit ▸ hs
  | cons q rest ih =>
    obtain ⟨hq, hd⟩ := mem_of_split hsplit
    have hvisit := hs.visit h (fun p hp => hd p (List.mem_append_left _ hp)) hq
      (h.notMem_of_split hsplit)
    exact ih hvisit (by simpa using hsplit)

/-- The walk from the first process of `rest` ends with a round for the list head. -/
theorem forInList_eq (hs : After m done s) (hsplit : done ++ rest = procs) {cur : ℕ}
    (hl : Seg m.next cur (rest.map (· + rqOffset)) rq) (hf : rest.length + 2 ≤ fuel) :
    forInList rq fuel cur s = some (visit (PickNext.visitAll rest s) rq) := by
  induction rest generalizing done s cur fuel with
  | nil =>
    obtain rfl : cur = rq := hl
    obtain ⟨fuel, rfl⟩ : ∃ f, fuel = f + 2 := ⟨fuel - 2, by simp at hf; omega⟩
    have hpos : cur ≠ 0 := by
      have := h.rq_pos
      omega
    simp [forInList, hpos, PickNext.visitAll]
  | cons q rest ih =>
    obtain ⟨rfl, hpos, hl⟩ := hl
    obtain ⟨fuel, rfl⟩ : ∃ f, fuel = f + 1 := ⟨fuel - 1, by simp at hf; omega⟩
    obtain ⟨hq, hd⟩ := mem_of_split hsplit
    have hne : q + rqOffset ≠ rq := by
      have := h.head q hq
      simp only [procSize, rqOffset] at this ⊢
      omega
    have hvisit := hs.visit h (fun p hp => hd p (List.mem_append_left _ hp)) hq
      (h.notMem_of_split hsplit)
    change q + rqOffset ≠ 0 at hpos
    change Seg m.next (m.next (q + rqOffset)) _ rq at hl
    rw [forInList, if_neg hpos]
    simp only [if_neg hne, hvisit.next_eq h hd hq]
    apply ih hvisit (by simpa using hsplit) hl
    simp only [List.length_cons] at hf
    omega

theorem pickNext_eq (hf : procs.length + 2 ≤ fuel) {t : Locals}
    (ht : t = visit (PickNext.visitAll procs ⟨m, -1, 0, [], []⟩) rq) :
    pickNext fuel m rq idle = some (t, if t.chosenProc ≠ 0 then t.chosenProc else idle) := by
  rw [pickNext, forInList_eq h After.start (List.nil_append procs) h.linked hf, Option.map_some, ht]

theorem after_visitAll : After m procs (PickNext.visitAll procs ⟨m, -1, 0, [], []⟩) :=
  After.start.visitAll h (List.nil_append procs)

theorem After.state_fake (hs : After m procs s) :
    s.mem.state (containerOf rq) = m.state (containerOf rq) := by
  apply hs.frame
  intro p hp _ he
  have h1 := h.head p hp
  have h2 := h.rq_pos
  simp only [containerOf, stateOffset, waitTimeOffset, procSize, rqOffset] at h1 h2 he
  omega

/-- A last round that finds no RUNNABLE process changes nothing. -/
theorem visit_fake_of_not (hs : After m procs s) (hr : m.state (containerOf rq) ≠ runnable) :
    visit s rq = { s with visited := procs ++ [containerOf rq] } := by
  simp only [visit, hs.state_fake h, if_neg hr, hs.visited]

/-- A last round that finds a RUNNABLE process ages the memory before the list head. -/
theorem visit_fake_of_runnable (hs : After m procs s) (hr : m.state (containerOf rq) = runnable) :
    containerOf rq ∈ (visit s rq).aged := by
  simp only [visit, hs.state_fake h, if_pos hr]
  split_ifs <;> simp

omit h in
/-- The fake process is looked at in every call. -/
theorem visited_fake (hs : After m procs s) :
    (visit s rq).visited = procs ++ [containerOf rq] := by
  simp only [visit, hs.visited]
  split_ifs <;> rfl

theorem After.waitTime_eq (hs : After m procs s) (hp : p ∈ procs) (hr : m.Ready p) :
    s.mem.waitTime p = m.waitTime p + 1 := by
  rw [Memory.waitTime, hs.word p hp hr]
  exact toInt_succ (h.waits p hp hr).1 (h.waits p hp hr).2

omit h in
theorem After.waitTime_of_not (hs : After m procs s) (hr : ¬ m.Ready p) :
    s.mem.waitTime p = m.waitTime p := by
  rw [Memory.waitTime, hs.frame, Memory.waitTime]
  intro q hq hrq he
  obtain rfl : p = q := by omega
  exact hr hrq

omit h in
theorem After.mem_aged (hs : After m procs s) : p ∈ s.aged ↔ p ∈ procs ∧ m.Ready p := by
  rw [hs.aged]
  simp

/-- `chosen_proc ? chosen_proc : idle` is never fooled by a process at the null address. -/
theorem chosen_eq {chosen : Option ℕ} {max : ℤ} {key : ℕ → ℤ}
    (hb : Best m.Ready key procs (-1) max chosen) :
    (if chosen.getD 0 ≠ 0 then chosen.getD 0 else idle) = chosen.getD idle := by
  rcases hb with ⟨rfl, -, -⟩ | ⟨c, rfl, hc, -⟩
  · rfl
  · have hpos := h.pos c hc.mem
    rw [Option.getD_some, Option.getD_some, if_pos (by omega)]

/-- What the walk has found before it comes to the list head is what the caller may get. -/
theorem After.fromQueue (hs : After m procs s) :
    FromQueue m procs idle s (if s.chosenProc ≠ 0 then s.chosenProc else idle) := by
  obtain ⟨chosen, hchosen, hbest⟩ := hs.best
  rw [hchosen, chosen_eq h hbest]
  refine ⟨fun p => hs.mem_aged, fun p hp => ?_, hs.frame, ?_, ?_⟩
  · exact hs.waitTime_eq h (hs.mem_aged.mp hp).1 (hs.mem_aged.mp hp).2
  · rintro ⟨p, hp, hr⟩
    obtain ⟨c, rfl, hc⟩ := hbest.some_of_exists hp hr
    have hmono : StrictMono fun x : ℤ => x + 1 := fun x y hxy => by simpa using hxy
    exact (IsFirstMax.comp_iff hmono).mp hc
  · intro hnone
    rw [hbest.eq_none hnone]
    rfl

/-- `pick_next` returns. It looks at the processes of the queue and at the memory before the
    list head, and it deals with the queue only iff the `state` it finds there is not
    RUNNABLE. -/
theorem pick_next_from_queue (hf : procs.length + 2 ≤ fuel) :
    ∃ s r, pickNext fuel m rq idle = some (s, r) ∧ s.visited = procs ++ [containerOf rq] ∧
      (FromQueue m procs idle s r ↔ m.state (containerOf rq) ≠ runnable) := by
  have ht := after_visitAll h
  refine ⟨_, _, pickNext_eq h hf rfl, visited_fake ht, fun hq hr => ?_, fun hr => ?_⟩
  · have hmem := (hq.aged _).mp (visit_fake_of_runnable h ht hr)
    exact h.fake_notMem hmem.1
  · rw [visit_fake_of_not h ht hr]
    obtain ⟨h1, h2, h3, h4, h5⟩ := ht.fromQueue h
    exact ⟨h1, h2, h3, h4, h5⟩

omit h

/-- The process at 2000 in a queue whose head is at 1000. -/
def oneMemory : Memory where
  word
    | 1008 => 2096
    | 2104 => 1000
    | 2016 => 1
    | _ => 0

theorem runQueue_oneMemory : RunQueue oneMemory 1000 [2000] := by
  refine ⟨?_, by simp, ?_, by simp, by decide, ?_⟩
  · exact ⟨rfl, by decide, rfl⟩
  · simp [procSize]
  · intro p hp _
    obtain rfl := List.mem_singleton.mp hp
    decide

theorem pick_next_from_queue_one : ∃ s r, pickNext 3 oneMemory 1000 5000 = some (s, r) ∧
    s.visited = [2000, 904] ∧ FromQueue oneMemory [2000] 5000 s r := by
  have hf : [2000].length + 2 ≤ 3 := by decide
  obtain ⟨s, r, he, hv, hiff⟩ := pick_next_from_queue runQueue_oneMemory hf
  exact ⟨s, r, he, hv, hiff.mpr (by decide)⟩

/-- An empty queue whose head is at 1000, in a memory with a 1 at 920, which is the place of
    `state` in a `Proc` at 904. -/
def fakeMemory : Memory where
  word
    | 1008 => 1000
    | 920 => 1
    | _ => 0

theorem runQueue_fakeMemory : RunQueue fakeMemory 1000 [] :=
  ⟨rfl, by simp, by simp, by simp, by decide, by simp⟩

/-- The queue is empty and `pick_next` returns a process that no code has made. It has changed
    the word at 916. -/
theorem pick_next_takes_fake : RunQueue fakeMemory 1000 [] ∧
    ∃ s, pickNext 2 fakeMemory 1000 5000 = some (s, 904) ∧ s.aged = [904] ∧
      s.mem.word 916 = 1 ∧ ¬ FromQueue fakeMemory [] 5000 s 904 := by
  refine ⟨runQueue_fakeMemory, _, rfl, by decide, by decide, fun h => ?_⟩
  have := h.idle (by simp)
  omega

/-! ## The list-level model -/

/-- `s` describes the processes of the queue as they are in memory. -/
def Agrees {n : ℕ} (m : Memory) (s : Sched n) : Prop :=
  ∀ p ∈ s.rq, s.waitTime p = m.waitTime p ∧ (s.Ready p ↔ m.Ready p)

/-- When no RUNNABLE process seems to lie before the list head, `pick_next` in memory chooses
    what `Sched.pickNext` chooses, and leaves the same wait times. -/
theorem pickNext_agrees {n : ℕ} {s : Sched n} {c : Fin n} (h : RunQueue m rq s.rq) (ha : Agrees m s)
    (hr : m.state (containerOf rq) ≠ runnable) (hf : s.rq.length + 2 ≤ fuel) :
    ∃ t, pickNext fuel m rq (s.cpus c).idle = some (t, (s.pickNext c).2) ∧
      Agrees t.mem (s.pickNext c).1 := by
  obtain ⟨w, hw, hafter⟩ : ∃ w, w = visitAll s.rq ⟨m, -1, 0, [], []⟩ ∧ After m s.rq w :=
    ⟨_, rfl, after_visitAll h⟩
  obtain ⟨chosen, hchosen, hbest⟩ := hafter.best
  have hwaits : ∀ p ∈ s.rq, s.Ready p → 0 ≤ s.waitTime p := by
    intro p hp hready
    rw [(ha p hp).1]
    exact (h.waits p hp ((ha p hp).2.mp hready)).1
  obtain ⟨max, chosen', hpick, hbest'⟩ := Sched.pickNext_eq (c := c) h.nodup hwaits
  have hready : ∀ p ∈ s.rq, m.Ready p ↔ s.Ready p := fun p hp => (ha p hp).2.symm
  have hkey : ∀ p ∈ s.rq, m.waitTime p + 1 = s.waitTime p + 1 := fun p hp => by rw [(ha p hp).1]
  obtain rfl : chosen' = chosen := (hbest'.congr hready hkey).unique hbest
  have hlast := visit_fake_of_not h hafter hr
  refine ⟨visit w rq, ?_, fun p hp => ?_⟩
  · rw [pickNext_eq h hf rfl, ← hw, hlast, hpick]
    simp only [hchosen, chosen_eq h hbest]
  · rw [hpick] at hp ⊢
    change p ∈ s.rq at hp
    obtain ⟨h1, h2⟩ := Sched.age_eq (t := { s with proc := s.age s.rq }) hp rfl
    have h3 := hafter.state_eq h (fun _ hp => hp) hp
    rw [hlast, Memory.Ready, h3]
    refine ⟨?_, h1.trans (ha p hp).2⟩
    by_cases hrp : s.Ready p
    · rw [h2, if_pos hrp, hafter.waitTime_eq h hp ((ha p hp).2.mp hrp), (ha p hp).1]
    · rw [h2, if_neg hrp, add_zero, (ha p hp).1, hafter.waitTime_of_not]
      exact fun hm => hrp ((ha p hp).2.mpr hm)

end ShikiOS.Kernel.PickNext
