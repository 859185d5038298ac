import ShikiOS.Common.CircularList
import ShikiOS.Common.Sem

/-!
# Waking every sleeper (`common/sem.c`)

A semaphore with its waiters as they are linked in memory. The sleeplist is the circular list
of the node in the `Semaphore`, and a waiter is the `WaitData` around the node it is linked by.
`_wait_sem` puts a waiter at `sleeplist.next` and `_post_sem` takes the one at
`sleeplist.prev`, so the queue is the list read backwards.

`post_all_sem` posts until `_get_sem` finds a unit, which is the one posted last. It is taken
back, and its round makes up for `ret` starting at `-1`. `val` and `ret` stay between the old
`val` and one more than its final value, and between `-1` and the number of sleepers.

Results:
* `postSem_spec`: what a post does to the list.
* `postAllSem_spec`: `post_all_sem` ends, wakes every sleeper once and in order, and counts them.
* `postAllSem_refines`, `queueWait_toSem`: the queue is that of the semaphore without links.
-/

namespace ShikiOS

open Lib Lib.Links CircularList

/-- A `Semaphore` (sem.h:13-17) with the node `sleeplist` elsewhere, the `up` fields of the
    waiters and the calls of `activate_proc` so far. -/
structure SemHeap (α P : Type*) where
  val : ℤ
  links : Links α
  up : α → Bool
  activated : List P

namespace SemHeap

variable {α P : Type*} [DecidableEq α] {sleeplist : α} {proc : α → P} {s : SemHeap α P}
  {l : List α} {n : α}

/-! ## Model -/

/-- `_post_sem` (sem.c:87-96). `none` is a failure of `ASSERT(!_empty_list(&sem->sleeplist))`. -/
def postSem (sleeplist : α) (proc : α → P) (s : SemHeap α P) : Option (SemHeap α P) :=
  let s := { s with val := s.val + 1 }
  if s.val ≤ 0 then
    if s.links.next sleeplist = sleeplist then none
    else
      let wait := s.links.prev sleeplist
      some { s with
        up := Function.update s.up wait true
        links := (detachFromList s.links wait).1
        activated := s.activated ++ [proc wait] }
  else some s

/-- `_get_sem` (sem.c:24-32). -/
def getSem (s : SemHeap α P) : SemHeap α P × Bool :=
  if s.val > 0 then ({ s with val := s.val - 1 }, true) else (s, false)

/-- The `do ... while (!_get_sem(sem))` loop of `post_all_sem` (sem.c:55-57) in at most `fuel`
    rounds: the semaphore and `ret`. -/
def postAllLoop (sleeplist : α) (proc : α → P) :
    ℕ → SemHeap α P → ℤ → Option (SemHeap α P × ℤ)
  | 0, _, _ => none
  | fuel + 1, s, ret =>
    match postSem sleeplist proc s with
    | none => none
    | some s =>
      match s.getSem with
      | (s, true) => some (s, ret + 1)
      | (s, false) => postAllLoop sleeplist proc fuel s (ret + 1)

/-- `post_all_sem` (sem.c:51-60). -/
def postAllSem (sleeplist : α) (proc : α → P) (fuel : ℕ) (s : SemHeap α P) :
    Option (SemHeap α P × ℤ) :=
  postAllLoop sleeplist proc fuel s (-1)

/-- `_insert_into_list(&sem->sleeplist, &wait->slnode)` with `wait->up = false` (sem.c:69-71). -/
def queueWait (sleeplist : α) (s : SemHeap α P) (wait : α) : SemHeap α P :=
  { s with
    up := Function.update s.up wait false
    links := (insertIntoList s.links (some sleeplist) wait).1 }

/-- The counter and the processes of the waiters `l`, the oldest first. -/
def toSem (proc : α → P) (s : SemHeap α P) (l : List α) : Sem P := ⟨s.val, l.reverse.map proc⟩

/-! ## The queue -/

/-- A new waiter comes last. -/
theorem queueWait_toSem (hr : Ring s.links sleeplist l) (hn : n ∉ sleeplist :: l) :
    Ring (s.queueWait sleeplist n).links sleeplist (n :: l) ∧
      ((s.queueWait sleeplist n).toSem proc (n :: l)).sleeplist =
        (s.toSem proc l).sleeplist ++ [proc n] := by
  refine ⟨hr.insert hn, ?_⟩
  simp [toSem]

omit [DecidableEq α] in
/-- The invariant of the semaphore, in terms of the linked waiters. -/
theorem ok_toSem_iff : (s.toSem proc l).Ok ↔
    (0 ≤ s.val → l = []) ∧ (s.val < 0 → (l.length : ℤ) = -s.val) := by
  constructor
  · intro hok
    refine ⟨fun hv => ?_, fun hv => ?_⟩
    · simpa [toSem] using hok.nonneg hv
    · simpa [toSem] using hok.neg hv
  · intro hok
    refine ⟨fun hv => ?_, fun hv => ?_⟩
    · simpa [toSem] using hok.1 hv
    · simpa [toSem] using hok.2 hv

/-- What a post can do: wake the oldest waiter, or leave one unit more. -/
theorem postSem_spec (hr : Ring s.links sleeplist l) (hok : (s.toSem proc l).Ok) :
    (∃ l' wait, l = l' ++ [wait] ∧ s.val < 0 ∧
      postSem sleeplist proc s = some ⟨s.val + 1, s.links.detach wait,
        Function.update s.up wait true, s.activated ++ [proc wait]⟩) ∨
    (l = [] ∧ 0 ≤ s.val ∧ postSem sleeplist proc s = some { s with val := s.val + 1 }) := by
  obtain ⟨hnonneg, hneg⟩ := ok_toSem_iff.mp hok
  by_cases hv : 0 ≤ s.val
  · right
    refine ⟨hnonneg hv, hv, ?_⟩
    unfold postSem
    rw [if_neg (show ¬ s.val + 1 ≤ 0 by omega)]
  · left
    have hl : l ≠ [] := by
      intro hl
      have hlen := hneg (by omega)
      rw [hl, List.length_nil] at hlen
      omega
    have hprev : s.links.prev sleeplist = l.getLast hl := by
      rw [hr.prev_head, List.getLast_cons hl]
    have hnext : s.links.next sleeplist ≠ sleeplist := by
      intro hnext
      rw [hr.next_head, List.head_append_of_ne_nil hl] at hnext
      exact (List.nodup_cons.mp hr.nodup).1 (hnext ▸ List.head_mem hl)
    refine ⟨l.dropLast, l.getLast hl, (List.dropLast_append_getLast hl).symm, by omega, ?_⟩
    unfold postSem
    rw [if_pos (show s.val + 1 ≤ 0 by omega), if_neg hnext, hprev]
    rfl

/-! ## The loop -/

/-- Everyone in `l` was woken between `s` and `s'`, the oldest first, and alone. -/
structure Woken (sleeplist : α) (proc : α → P) (s s' : SemHeap α P) (l : List α) : Prop where
  val : s'.val = max s.val 0
  empty : Ring s'.links sleeplist []
  up : ∀ n, s'.up n = (s.up n || decide (n ∈ l))
  activated : s'.activated = s.activated ++ l.reverse.map proc
  single : ∀ n ∈ l, Ring s'.links n []
  others : KeepsOthers s.links s'.links [sleeplist]

/-- One round with a waiter, before those that wake the others. -/
theorem Woken.round {s' : SemHeap α P} (hr : Ring s.links sleeplist (l ++ [n])) (hv : s.val < 0)
    (hw : Woken sleeplist proc ⟨s.val + 1, s.links.detach n, Function.update s.up n true,
      s.activated ++ [proc n]⟩ s' l) : Woken sleeplist proc s s' (l ++ [n]) := by
  have hn : n ∈ l ++ [n] := List.mem_append_right l (List.mem_singleton_self n)
  have hne : sleeplist ≠ n := by
    rintro rfl
    exact (List.nodup_cons.mp hr.nodup).1 hn
  refine ⟨?_, hw.empty, ?_, ?_, ?_, ?_⟩
  · rw [hw.val]
    show max (s.val + 1) 0 = max s.val 0
    omega
  · intro m
    rw [hw.up m]
    by_cases hmn : m = n
    · subst hmn
      simp
    · simp [hmn]
  · rw [hw.activated]
    simp
  · intro m hm
    rcases List.mem_append.mp hm with hm | hm
    · exact hw.single m hm
    · -- the rounds that follow leave the list of this waiter alone
      rw [List.mem_singleton] at hm
      subst hm
      refine hw.others m [] ring_detach_self fun a ha => ?_
      rw [List.mem_singleton] at ha ⊢
      exact ha ▸ hne
  · intro h l' hr' hS
    have hout : n ∉ h :: l' :=
      hr'.disjoint hr (hS sleeplist List.mem_cons_self) (List.mem_cons_of_mem _ hn)
    exact hw.others h l' (hr.detach_other hn hr' hout) hS

/-- The loop ends after one round for each waiter and one more. -/
theorem postAllLoop_spec (fuel : ℕ) (ret : ℤ) (hr : Ring s.links sleeplist l)
    (hok : (s.toSem proc l).Ok) (hf : l.length < fuel) :
    ∃ s' : SemHeap α P, postAllLoop sleeplist proc fuel s ret = some (s', ret + l.length + 1) ∧
      Woken sleeplist proc s s' l := by
  induction fuel generalizing s l ret with
  | zero => exact absurd hf (Nat.not_lt_zero _)
  | succ fuel ih =>
    unfold postAllLoop
    obtain ⟨l', wait, rfl, hv, hpost⟩ | ⟨rfl, hv, hpost⟩ := postSem_spec hr hok
    · rw [hpost]
      simp only [getSem, if_neg (show ¬ s.val + 1 > 0 by omega)]
      have hlen := (ok_toSem_iff.mp hok).2 hv
      rw [List.length_append, List.length_singleton] at hlen hf
      push_cast at hlen
      have hr' : Ring (s.links.detach wait) sleeplist l' := by
        have hdetach := hr.detach
        rwa [List.append_nil] at hdetach
      obtain ⟨s', hloop, hw⟩ := ih (s := ⟨s.val + 1, s.links.detach wait,
        Function.update s.up wait true, s.activated ++ [proc wait]⟩) (l := l') (ret + 1) hr'
        (ok_toSem_iff.mpr ⟨fun hv' => List.eq_nil_of_length_eq_zero (by simp at hv'; omega),
          fun _ => by simp; omega⟩) (by omega)
      refine ⟨s', ?_, hw.round hr hv⟩
      rw [hloop, List.length_append, List.length_singleton]
      push_cast
      congr 2
      ring
    · -- the unit just posted is taken back
      rw [hpost]
      simp only [getSem, if_pos (show s.val + 1 > 0 by omega), add_sub_cancel_right]
      refine ⟨s, by simp, ?_, hr, by simp, by simp, by simp, fun h l hr' _ => hr'⟩
      omega

/-- `post_all_sem` ends. It marks every sleeper up, activates each once, the oldest first, and
    returns how many there were. The sleeplist is empty afterwards, with the units of before. -/
theorem postAllSem_spec (hr : Ring s.links sleeplist l) (hok : (s.toSem proc l).Ok) (fuel : ℕ)
    (hf : l.length < fuel) :
    ∃ s' : SemHeap α P, postAllSem sleeplist proc fuel s = some (s', (l.length : ℤ)) ∧
      s'.val = max s.val 0 ∧ Ring s'.links sleeplist [] ∧
      (∀ n, s'.up n = (s.up n || decide (n ∈ l))) ∧ l.reverse.Nodup ∧
      s'.activated = s.activated ++ l.reverse.map proc ∧ (∀ n ∈ l, Ring s'.links n []) ∧
      KeepsOthers s.links s'.links [sleeplist] := by
  obtain ⟨s', hloop, hw⟩ := postAllLoop_spec fuel (-1) hr hok hf
  refine ⟨s', ?_, hw.val, hw.empty, hw.up, ?_, hw.activated, hw.single, hw.others⟩
  · unfold postAllSem
    rw [hloop]
    congr 2
    ring
  · exact List.nodup_reverse.mpr (List.nodup_cons.mp hr.nodup).2

/-- A semaphore that two waiters sleep on, the node `1` since longer. -/
def twoWaiters : SemHeap (Fin 4) ℕ :=
  ⟨-2, ⟨![2, 0, 1, 3], ![1, 2, 0, 3]⟩, fun _ => false, []⟩

theorem postAllSem_twoWaiters :
    Ring twoWaiters.links 0 [2, 1] ∧ (twoWaiters.toSem (fun n => n.val + 10) [2, 1]).Ok ∧
      ∃ s' : SemHeap (Fin 4) ℕ,
        postAllSem 0 (fun n => n.val + 10) 3 twoWaiters = some (s', 2) ∧
        s'.activated = [11, 12] := by
  have hr : Ring twoWaiters.links 0 [2, 1] := ⟨by unfold Links.Link; decide, by decide⟩
  have hok : (twoWaiters.toSem (fun n => n.val + 10) [2, 1]).Ok :=
    ok_toSem_iff.mpr ⟨by decide, by decide⟩
  obtain ⟨s', hpost, _, _, _, _, hact, _⟩ := postAllSem_spec hr hok 3 (by decide)
  exact ⟨hr, hok, s', hpost, hact⟩

/-- The semaphore without links goes through the same change. -/
theorem postAllSem_refines {s' : SemHeap α P} {ret : ℤ} (hr : Ring s.links sleeplist l)
    (hok : (s.toSem proc l).Ok) (fuel : ℕ) (hf : l.length < fuel)
    (hrun : postAllSem sleeplist proc fuel s = some (s', ret)) :
    (s.toSem proc l).postAll = some (s'.toSem proc [], (s.toSem proc l).sleeplist) := by
  obtain ⟨s'', hpost, hval, _⟩ := postAllSem_spec hr hok fuel hf
  rw [hrun] at hpost
  obtain ⟨rfl, _⟩ := Prod.mk.inj (Option.some.inj hpost)
  rw [Sem.postAll_eq hok]
  show some (_, _) = some ((⟨s'.val, _⟩ : Sem P), _)
  rw [hval]
  rfl

end SemHeap

end ShikiOS
