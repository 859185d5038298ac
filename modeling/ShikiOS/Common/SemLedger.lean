import ShikiOS.Common.Sem

/-!
# The units of a semaphore

A semaphore says how many units it has or owes, but not where the units went. The
`Ledger` counts what was posted, what waits and gets took away, and how many waiters
queued up; a `Waiter` is the `WaitData` of a process between its `_insert_into_list`
and its `kfree`, with the place in which it queued. `Accounts` says that semaphore,
ledger and waiters agree, and there is one lemma for each thing that can happen to
the semaphore.

Results:
* `Accounts.enqueue`, `Accounts.postWakes`, `Accounts.woken`, `Accounts.interrupted`:
  the life of a waiter, with the post and the alert in either order.
* `Accounts.take`, `Accounts.postLeaves`, `Accounts.get`, `Accounts.getAll`: units
  that no waiter is involved in.
* `Accounts.oldest`: a post wakes the waiter that queued first.
-/

namespace ShikiOS

/-- `WaitData` (sem.h:7-11) of a process that waits; `ticket` counts the waiters that
    queued before it. -/
structure Waiter where
  up : Bool
  ticket : ℕ
deriving DecidableEq, Repr

/-- What happened to the units of a semaphore: units posted, waits that returned `true`,
    units taken by `_get_sem` and `get_all_sem`; and how many waiters queued. -/
structure Ledger where
  posted : ℕ
  returned : ℕ
  taken : ℕ
  queued : ℕ
deriving DecidableEq, Repr

namespace Sem

variable {P : Type*}

/-- `m` started with `v` units, and `l` and the waiters `w` account for all of them. -/
structure Accounts (v : ℤ) (m : Sem P) (l : Ledger) (w : P → Option Waiter) : Prop where
  ok : m.Ok
  nodup : m.sleeplist.Nodup
  mem : ∀ q, q ∈ m.sleeplist ↔ ∃ x, w q = some x ∧ x.up = false
  sorted : m.sleeplist.Pairwise fun a b =>
    ∀ x y, w a = some x → w b = some y → x.ticket < y.ticket
  bound : ∀ q x, w q = some x → x.ticket < l.queued
  units : ∃ marked : Finset P, (∀ q, q ∈ marked ↔ ∃ x, w q = some x ∧ x.up = true) ∧
    (l.returned + marked.card + l.taken : ℤ) + max m.val 0 = v + l.posted

variable {v : ℤ} {m m' : Sem P} {l : Ledger} {w : P → Option Waiter} {p q : P} {x : Waiter}

theorem accounts_init (hv : 0 ≤ v) : Accounts v (init v : Sem P) ⟨0, 0, 0, 0⟩ fun _ => none := by
  refine ⟨ok_init hv, List.nodup_nil, fun q => by simp [init], List.Pairwise.nil,
    fun q x h => by simp at h, ∅, fun q => by simp, ?_⟩
  simp [init, hv]

theorem Accounts.notMem (h : Accounts v m l w) (hp : w p = none) : p ∉ m.sleeplist := by
  intro hm
  obtain ⟨x, hx, -⟩ := (h.mem p).mp hm
  rw [hp] at hx
  cases hx

/-- A wait takes a unit at once. -/
theorem Accounts.take (h : Accounts v m l w) (hd : m.down p = (m', true)) :
    Accounts v m' { l with returned := l.returned + 1 } w := by
  have hok := h.ok.down p
  rw [hd] at hok
  unfold Sem.down at hd
  split_ifs at hd with hv
  · cases hd
    obtain ⟨marked, hm, hu⟩ := h.units
    refine ⟨hok, h.nodup, h.mem, h.sorted, h.bound, marked, hm, ?_⟩
    simp only
    push_cast
    omega
  · cases hd

/-- A wait finds no unit and queues. -/
theorem Accounts.enqueue [DecidableEq P] (h : Accounts v m l w) (hp : w p = none)
    (hd : m.down p = (m', false)) :
    Accounts v m' { l with queued := l.queued + 1 }
      (Function.update w p (some ⟨false, l.queued⟩)) := by
  have hout := h.notMem hp
  have hok := h.ok.down p
  rw [hd] at hok
  unfold Sem.down at hd
  split_ifs at hd with hv
  · cases hd
  cases hd
  have hne : ∀ a ∈ m.sleeplist, a ≠ p := fun a ha e => hout (e ▸ ha)
  obtain ⟨marked, hm, hu⟩ := h.units
  refine ⟨hok, ?_, fun q => ?_, ?_, fun q x hx => ?_, marked, fun q => ?_, ?_⟩
  · refine List.nodup_append.mpr ⟨h.nodup, List.nodup_singleton p, ?_⟩
    intro a ha b hb
    rw [List.mem_singleton.mp hb]
    exact hne a ha
  · rw [List.mem_append, List.mem_singleton]
    by_cases hq : q = p
    · subst hq
      simp [Function.update_self]
    · rw [Function.update_of_ne hq, ← h.mem]
      exact ⟨fun hm => hm.resolve_right hq, .inl⟩
  · rw [List.pairwise_append]
    refine ⟨h.sorted.imp_of_mem fun ha hb hab => ?_, List.pairwise_singleton _ _, ?_⟩
    · rw [Function.update_of_ne (hne _ ha), Function.update_of_ne (hne _ hb)]
      exact hab
    · intro a ha b hb x y hx hy
      rw [List.mem_singleton.mp hb, Function.update_self] at hy
      rw [Function.update_of_ne (hne a ha)] at hx
      cases hy
      exact h.bound a x hx
  · by_cases hq : q = p
    · subst hq
      rw [Function.update_self] at hx
      cases hx
      exact Nat.lt_succ_self _
    · rw [Function.update_of_ne hq] at hx
      exact (h.bound q x hx).trans (Nat.lt_succ_self _)
  · rw [hm]
    by_cases hq : q = p
    · subst hq
      rw [Function.update_self, hp]
      simp
    · rw [Function.update_of_ne hq]
  · simp only
    omega

/-- A post marks the oldest waiter. -/
theorem Accounts.postWakes [DecidableEq P] (h : Accounts v m l w) (hp : m.post = some (m', [q])) :
    ∃ x, w q = some x ∧ x.up = false ∧ Accounts v m' { l with posted := l.posted + 1 }
      (Function.update w q (some { x with up := true })) := by
  rcases h.ok.post_cases with ⟨r, rest, hl, hneg, hp'⟩ | ⟨-, -, hp'⟩
  swap
  · rw [hp'] at hp
    simp at hp
  rw [hp'] at hp
  simp only [Option.some.injEq, Prod.mk.injEq, List.cons.injEq, and_true] at hp
  obtain ⟨rfl, rfl⟩ := hp
  have hnd := h.nodup
  rw [hl, List.nodup_cons] at hnd
  have hmem : r ∈ m.sleeplist := by rw [hl]; exact List.mem_cons_self
  obtain ⟨x, hx, hup⟩ := (h.mem r).mp hmem
  refine ⟨x, hx, hup, h.ok.tail hl, hnd.2, fun q => ?_, ?_, fun q y hy => ?_, ?_⟩
  · by_cases hq : q = r
    · subst hq
      rw [Function.update_self]
      simp [hnd.1]
    · rw [Function.update_of_ne hq, ← h.mem, hl, List.mem_cons]
      exact ⟨.inr, fun hm => hm.resolve_left hq⟩
  · have hs := h.sorted
    rw [hl, List.pairwise_cons] at hs
    refine hs.2.imp_of_mem fun {a b} ha hb hab => ?_
    rw [Function.update_of_ne fun e : a = r => hnd.1 (e ▸ ha),
      Function.update_of_ne fun e : b = r => hnd.1 (e ▸ hb)]
    exact hab
  · by_cases hq : q = r
    · subst hq
      rw [Function.update_self] at hy
      cases hy
      exact h.bound q x hx
    · rw [Function.update_of_ne hq] at hy
      exact h.bound q y hy
  · obtain ⟨marked, hm, hu⟩ := h.units
    have hr : r ∉ marked := by
      rw [hm]
      rintro ⟨y, hy, hyu⟩
      rw [hx, Option.some.injEq] at hy
      rw [← hy, hup] at hyu
      cases hyu
    refine ⟨insert r marked, fun q => ?_, ?_⟩
    · by_cases hq : q = r
      · subst hq
        simp [Function.update_self]
      · rw [Function.update_of_ne hq, Finset.mem_insert, ← hm]
        exact ⟨fun h => h.resolve_left hq, .inr⟩
    · rw [Finset.card_insert_of_notMem hr]
      simp only
      push_cast
      omega

/-- A post that finds no sleeper leaves a unit. -/
theorem Accounts.postLeaves (h : Accounts v m l w) (hp : m.post = some (m', [])) :
    Accounts v m' { l with posted := l.posted + 1 } w ∧ 0 < m'.val := by
  rcases h.ok.post_cases with ⟨r, rest, -, -, hp'⟩ | ⟨hl, hv, hp'⟩
  · rw [hp'] at hp
    simp at hp
  rw [hp'] at hp
  simp only [Option.some.injEq, Prod.mk.injEq, and_true] at hp
  subst hp
  have hmem := h.mem
  rw [hl] at hmem
  obtain ⟨marked, hm, hu⟩ := h.units
  refine ⟨⟨⟨fun _ => rfl, fun h' => ?_⟩, List.nodup_nil, hmem, List.Pairwise.nil, h.bound, marked,
    hm, ?_⟩, ?_⟩
  · simp only at h'
    omega
  · simp only
    push_cast
    omega
  · simp only
    omega

/-- A waiter that was marked returns. -/
theorem Accounts.woken [DecidableEq P] (h : Accounts v m l w) (hx : w p = some x)
    (hup : x.up = true) :
    Accounts v m { l with returned := l.returned + 1 } (Function.update w p none) := by
  have hout : p ∉ m.sleeplist := by
    rw [h.mem]
    rintro ⟨y, hy, hyu⟩
    rw [hx, Option.some.injEq] at hy
    rw [← hy, hup] at hyu
    cases hyu
  have hne : ∀ a ∈ m.sleeplist, a ≠ p := fun a ha e => hout (e ▸ ha)
  refine ⟨h.ok, h.nodup, fun q => ?_, h.sorted.imp_of_mem fun ha hb hab => ?_, fun q y hy => ?_, ?_⟩
  · by_cases hq : q = p
    · subst hq
      simp [Function.update_self, hout]
    · rw [Function.update_of_ne hq, h.mem]
  · rw [Function.update_of_ne (hne _ ha), Function.update_of_ne (hne _ hb)]
    exact hab
  · by_cases hq : q = p
    · subst hq
      rw [Function.update_self] at hy
      cases hy
    · rw [Function.update_of_ne hq] at hy
      exact h.bound q y hy
  · obtain ⟨marked, hm, hu⟩ := h.units
    have hp : p ∈ marked := (hm p).mpr ⟨x, hx, hup⟩
    refine ⟨marked.erase p, fun q => ?_, ?_⟩
    · by_cases hq : q = p
      · subst hq
        simp [Function.update_self]
      · rw [Function.update_of_ne hq, Finset.mem_erase, ← hm]
        exact ⟨And.right, fun h => ⟨hq, h⟩⟩
    · have hc := Finset.card_erase_add_one hp
      simp only
      push_cast
      omega

/-- A waiter that was not marked gives up; the assertion of `_wait_sem` holds. -/
theorem Accounts.interrupted [DecidableEq P] (h : Accounts v m l w) (hx : w p = some x)
    (hup : x.up = false) :
    ∃ m', m.abort p = some m' ∧ Accounts v m' l (Function.update w p none) := by
  have hp : p ∈ m.sleeplist := (h.mem p).mpr ⟨x, hx, hup⟩
  obtain ⟨he, hok⟩ := h.ok.abort hp
  have hv : m.val < 0 := by
    by_contra hc
    rw [h.ok.nonneg (by omega)] at hp
    cases hp
  have hne : ∀ a ∈ m.sleeplist.erase p, a ≠ p := fun a ha => (h.nodup.mem_erase_iff.mp ha).1
  refine ⟨_, he, hok, h.nodup.erase p, fun q => ?_, ?_, fun q y hy => ?_, ?_⟩
  · rw [h.nodup.mem_erase_iff]
    by_cases hq : q = p
    · subst hq
      simp [Function.update_self]
    · rw [Function.update_of_ne hq, ← h.mem]
      exact ⟨And.right, fun h => ⟨hq, h⟩⟩
  · refine (h.sorted.sublist List.erase_sublist).imp_of_mem fun ha hb hab => ?_
    rw [Function.update_of_ne (hne _ ha), Function.update_of_ne (hne _ hb)]
    exact hab
  · by_cases hq : q = p
    · subst hq
      rw [Function.update_self] at hy
      cases hy
    · rw [Function.update_of_ne hq] at hy
      exact h.bound q y hy
  · obtain ⟨marked, hm, hu⟩ := h.units
    refine ⟨marked, fun q => ?_, ?_⟩
    · rw [hm]
      by_cases hq : q = p
      · subst hq
        rw [Function.update_self, hx]
        simp [hup]
      · rw [Function.update_of_ne hq]
    · simp only
      omega

/-- `_get_sem`. -/
theorem Accounts.get (h : Accounts v m l w) {b : Bool} (hg : m.get = (m', b)) :
    Accounts v m' { l with taken := l.taken + b.toNat } w := by
  unfold Sem.get at hg
  obtain ⟨marked, hm, hu⟩ := h.units
  split_ifs at hg with hv
  · cases hg
    refine ⟨⟨fun _ => h.ok.nonneg (by omega), fun h' => ?_⟩, h.nodup, h.mem, h.sorted, h.bound,
      marked, hm, ?_⟩
    · simp only at h'
      omega
    · simp only [Bool.toNat_true]
      push_cast
      omega
  · cases hg
    simpa using h

/-- `get_all_sem`. -/
theorem Accounts.getAll (h : Accounts v m l w) (hv : 0 < m.val) :
    Accounts v ⟨0, m.sleeplist⟩ { l with taken := l.taken + m.val.toNat } w := by
  obtain ⟨marked, hm, hu⟩ := h.units
  refine ⟨⟨fun _ => h.ok.nonneg (by omega), fun h' => absurd h' (by simp)⟩, h.nodup, h.mem,
    h.sorted, h.bound, marked, hm, ?_⟩
  simp only
  push_cast
  omega

/-- A post wakes the waiter that queued first. -/
theorem Accounts.oldest (h : Accounts v m l w) (hp : m.post = some (m', [q])) {y : Waiter}
    (hx : w q = some x) (hq : p ∈ m.sleeplist) (hy : w p = some y) : x.ticket ≤ y.ticket := by
  rcases h.ok.post_cases with ⟨r, rest, hl, -, hp'⟩ | ⟨-, -, hp'⟩
  swap
  · rw [hp'] at hp
    simp at hp
  rw [hp'] at hp
  simp only [Option.some.injEq, Prod.mk.injEq, List.cons.injEq, and_true] at hp
  obtain ⟨-, rfl⟩ := hp
  rw [hl, List.mem_cons] at hq
  rcases hq with rfl | hq
  · rw [hx, Option.some.injEq] at hy
    rw [hy]
  · have hs := h.sorted
    rw [hl, List.pairwise_cons] at hs
    exact (hs.1 p hq x y hx hy).le

end Sem

end ShikiOS
