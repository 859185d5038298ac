import Mathlib.Tactic

/-!
# Counting semaphores (`common/sem.c`)

A `Semaphore` is a counter `val` and a list of sleeping processes. `_post_sem`
takes the waiter at `sleeplist.prev`, and `_insert_into_list` puts a new one at
`sleeplist.next`, so the list is a queue. It is modelled oldest waiter first.

A wait that finds no unit is split where the process sleeps: `down` is the part
of `_wait_sem` up to `sched`, and `abort` is what the part after `sched` does
when the process was woken by something other than a post. Every function runs
with the lock of the semaphore held, so each is one step.

Results:
* `Sem.Ok.post`, `Sem.Ok.down`, `Sem.Ok.abort`: the counter and the queue stay
  consistent, and no assertion of `sem.c` fails.
* `Sem.postAll_eq`: `post_all_sem` wakes every sleeper, in queueing order.
* `Sem.Tracks`: the queue holds exactly the processes that are asleep on the
  semaphore, and how each function changes that set.
* `Sem.Mutex`: a semaphore used as a sleep lock has at most one owner.
-/

namespace ShikiOS

variable {P : Type*}

/-- `Semaphore` (sem.h:13-17); `sleeplist` holds the processes of the waiters. -/
structure Sem (P : Type*) where
  val : ℤ
  sleeplist : List P
deriving DecidableEq, Repr

namespace Sem

/-- `init_sem` (sem.c:7-12). -/
def init (val : ℤ) : Sem P := ⟨val, []⟩

/-- `_post_sem` (sem.c:87-96): the new state and the process whose waiter was
    marked `up`. `none` is a failure of `ASSERT(!_empty_list(&sem->sleeplist))`. -/
def post (s : Sem P) : Option (Sem P × List P) :=
  if s.val + 1 ≤ 0 then
    match s.sleeplist with
    | [] => none
    | p :: rest => some (⟨s.val + 1, rest⟩, [p])
  else some (⟨s.val + 1, s.sleeplist⟩, [])

/-- `_get_sem` (sem.c:24-32). -/
def get (s : Sem P) : Sem P × Bool :=
  if s.val > 0 then (⟨s.val - 1, s.sleeplist⟩, true) else (s, false)

/-- `_wait_sem` up to the call of `sched` (sem.c:62-74): `true` when a unit was
    taken, `false` when `p` was put on the sleeplist. -/
def down (s : Sem P) (p : P) : Sem P × Bool :=
  if s.val - 1 ≥ 0 then (⟨s.val - 1, s.sleeplist⟩, true)
  else (⟨s.val - 1, s.sleeplist ++ [p]⟩, false)

/-- `_wait_sem` after `sched` when the waiter is not `up` (sem.c:76-80). `none`
    is a failure of `ASSERT(++sem->val <= 0)`. -/
def abort [DecidableEq P] (s : Sem P) (p : P) : Option (Sem P) :=
  if s.val + 1 ≤ 0 then some ⟨s.val + 1, s.sleeplist.erase p⟩ else none

/-- The `do ... while (!_get_sem(sem))` loop of `post_all_sem` (sem.c:55-57),
    with the processes woken so far; at most `fuel` rounds. -/
def postAllLoop : ℕ → Sem P → List P → Option (Sem P × List P)
  | 0, _, _ => none
  | fuel + 1, s, woken =>
    match s.post with
    | none => none
    | some (s, w) =>
      match s.get with
      | (s, true) => some (s, woken ++ w)
      | (s, false) => postAllLoop fuel s (woken ++ w)

/-- `post_all_sem` (sem.c:51-60): the new state and the processes woken. Every
    round adds one to `val`, and the loop stops at the first positive `val`. -/
def postAll (s : Sem P) : Option (Sem P × List P) :=
  postAllLoop ((1 - s.val).toNat + 1) s []

/-! ## The semaphore invariant -/

/-- The counter and the queue agree: no sleeper when `val ≥ 0`, and `-val`
    sleepers when `val < 0`. -/
structure Ok (s : Sem P) : Prop where
  nonneg : 0 ≤ s.val → s.sleeplist = []
  neg : s.val < 0 → (s.sleeplist.length : ℤ) = -s.val

theorem ok_init {val : ℤ} (h : 0 ≤ val) : (init val : Sem P).Ok :=
  ⟨fun _ => rfl, fun h' => absurd h' (by simp only [init]; omega)⟩

/-- What a post can do: wake the oldest sleeper, or leave one unit more. -/
theorem Ok.post_cases {s : Sem P} (h : s.Ok) :
    (∃ p rest, s.sleeplist = p :: rest ∧ s.val < 0 ∧ s.post = some (⟨s.val + 1, rest⟩, [p])) ∨
    (s.sleeplist = [] ∧ 0 ≤ s.val ∧ s.post = some (⟨s.val + 1, []⟩, [])) := by
  by_cases hv : 0 ≤ s.val
  · right
    have hnil := h.nonneg hv
    refine ⟨hnil, hv, ?_⟩
    rw [post, if_neg (by omega), hnil]
  · left
    have hlen := h.neg (by omega)
    cases hl : s.sleeplist with
    | nil => rw [hl] at hlen; simp only [List.length_nil] at hlen; omega
    | cons p rest =>
      refine ⟨p, rest, rfl, by omega, ?_⟩
      rw [post, if_pos (by omega), hl]

theorem Ok.tail {s : Sem P} (h : s.Ok) {p : P} {rest : List P} (hl : s.sleeplist = p :: rest) :
    (⟨s.val + 1, rest⟩ : Sem P).Ok := by
  have hv : s.val < 0 := by
    by_contra hc
    have := h.nonneg (by omega)
    rw [hl] at this; cases this
  have hlen := h.neg hv
  rw [hl, List.length_cons] at hlen
  push_cast at hlen
  constructor
  · intro h0
    simp only at h0 ⊢
    exact List.eq_nil_of_length_eq_zero (by omega)
  · intro _
    simp only
    omega

/-- A post keeps the invariant, and its assertion holds. -/
theorem Ok.post {s : Sem P} (h : s.Ok) : ∃ s' w, s.post = some (s', w) ∧ s'.Ok := by
  rcases h.post_cases with ⟨p, rest, hl, _, hp⟩ | ⟨_, hv, hp⟩
  · exact ⟨_, _, hp, h.tail hl⟩
  · exact ⟨_, _, hp, fun _ => rfl, fun h' => absurd h' (by simp only; omega)⟩

theorem Ok.down {s : Sem P} (h : s.Ok) (p : P) : (s.down p).1.Ok := by
  unfold Sem.down
  split_ifs with hv
  · exact ⟨fun _ => h.nonneg (by omega), fun h' => absurd h' (by simp only; omega)⟩
  · constructor
    · intro h'; simp only at h'; omega
    · intro _
      simp only [List.length_append, List.length_cons, List.length_nil, Nat.zero_add]
      push_cast
      by_cases h0 : 0 ≤ s.val
      · rw [h.nonneg h0]; simp only [List.length_nil, Nat.cast_zero]; omega
      · rw [h.neg (by omega)]; omega

/-- A sleeper that was not woken by a post leaves the queue, and its assertion
    holds. -/
theorem Ok.abort [DecidableEq P] {s : Sem P} (h : s.Ok) {p : P} (hp : p ∈ s.sleeplist) :
    s.abort p = some ⟨s.val + 1, s.sleeplist.erase p⟩ ∧
      (⟨s.val + 1, s.sleeplist.erase p⟩ : Sem P).Ok := by
  have hv : s.val < 0 := by
    by_contra hc
    have := h.nonneg (by omega)
    rw [this] at hp; cases hp
  have hlen := h.neg hv
  have herase := List.length_erase_of_mem hp
  have hpos : 0 < s.sleeplist.length := List.length_pos_of_mem hp
  refine ⟨by rw [Sem.abort, if_pos (by omega)], ?_, ?_⟩
  · intro h0
    simp only at h0 ⊢
    exact List.eq_nil_of_length_eq_zero (by omega)
  · intro _
    simp only
    omega

/-! ## `post_all_sem` -/

theorem postAllLoop_eq : ∀ (fuel : ℕ) (s : Sem P) (woken : List P), s.Ok →
    (1 - s.val).toNat < fuel →
    postAllLoop fuel s woken = some (⟨max s.val 0, []⟩, woken ++ s.sleeplist) := by
  intro fuel
  induction fuel with
  | zero => intro s woken _ hf; omega
  | succ fuel ih =>
    intro s woken h hf
    rw [postAllLoop]
    rcases h.post_cases with ⟨p, rest, hl, hv, hp⟩ | ⟨hl, hv, hp⟩
    · -- a sleeper is woken; the counter is still not positive
      rw [hp]
      simp only [Sem.get, if_neg (show ¬ s.val + 1 > 0 by omega)]
      rw [ih _ _ (h.tail hl) (by simp only; omega), hl]
      simp only [List.append_assoc, List.cons_append, List.nil_append]
      rw [max_eq_right (show s.val ≤ 0 by omega), max_eq_right (show s.val + 1 ≤ 0 by omega)]
    · -- nobody sleeps: the unit just posted is taken back
      rw [hp, hl]
      simp only [Sem.get, if_pos (show s.val + 1 > 0 by omega), List.append_nil,
        add_sub_cancel_right]
      rw [max_eq_left hv]

/-- `post_all_sem` terminates, wakes every sleeper in queueing order and leaves
    the units that were there. -/
theorem postAll_eq {s : Sem P} (h : s.Ok) :
    s.postAll = some (⟨max s.val 0, []⟩, s.sleeplist) := by
  rw [postAll, postAllLoop_eq _ _ _ h (by omega), List.nil_append]

/-! ## The processes asleep on a semaphore -/

/-- `s` is consistent and its queue holds exactly the processes that are asleep
    on it, each once. -/
structure Tracks (s : Sem P) (asleep : P → Prop) : Prop where
  ok : s.Ok
  nodup : s.sleeplist.Nodup
  mem : ∀ q, q ∈ s.sleeplist ↔ asleep q

theorem tracks_init {val : ℤ} (h : 0 ≤ val) : (init val : Sem P).Tracks fun _ => False :=
  ⟨ok_init h, List.nodup_nil, fun _ => by simp [init]⟩

section Tracks

variable {s s' : Sem P} {asleep asleep' : P → Prop} {p : P} {w : List P}

theorem Tracks.congr (h : s.Tracks asleep) (ha : ∀ q, asleep q ↔ asleep' q) : s.Tracks asleep' :=
  ⟨h.ok, h.nodup, fun q => (h.mem q).trans (ha q)⟩

/-- A wait that takes a unit puts nobody to sleep. -/
theorem Tracks.down_true (h : s.Tracks asleep) (hd : s.down p = (s', true)) : s'.Tracks asleep := by
  have hok := h.ok.down p
  rw [hd] at hok
  unfold Sem.down at hd
  split_ifs at hd
  · cases hd; exact ⟨hok, h.nodup, h.mem⟩
  · cases hd

/-- A wait that finds no unit puts the caller to sleep. -/
theorem Tracks.down_false (h : s.Tracks asleep) (hp : ¬ asleep p) (hd : s.down p = (s', false)) :
    s'.Tracks fun q => asleep q ∨ q = p := by
  have hok := h.ok.down p
  rw [hd] at hok
  unfold Sem.down at hd
  split_ifs at hd
  · cases hd
  · cases hd
    refine ⟨hok, ?_, fun q => by simp [h.mem]⟩
    refine List.nodup_append.mpr ⟨h.nodup, List.nodup_singleton p, ?_⟩
    rintro a ha b hb rfl
    exact hp ((h.mem p).mp (List.mem_singleton.mp hb ▸ ha))

/-- A post succeeds, and exactly the processes it woke leave the queue. -/
theorem Tracks.post (h : s.Tracks asleep) :
    ∃ s' w, s.post = some (s', w) ∧ (∀ q ∈ w, asleep q) ∧ s'.Tracks fun q => asleep q ∧ q ∉ w := by
  obtain ⟨s', w, hp, hok⟩ := h.ok.post
  rcases h.ok.post_cases with ⟨p, rest, hl, _, hp'⟩ | ⟨hl, _, hp'⟩
  · rw [hp'] at hp
    cases hp
    have hnd := h.nodup
    rw [hl, List.nodup_cons] at hnd
    refine ⟨_, _, hp', ?_, hok, hnd.2, ?_⟩
    · intro q hq
      rw [List.mem_singleton] at hq
      exact (h.mem q).mp (by rw [hl, hq]; exact List.mem_cons_self)
    · intro q
      rw [← h.mem, hl, List.mem_cons, List.mem_singleton]
      constructor
      · intro hq; exact ⟨Or.inr hq, fun e => hnd.1 (e ▸ hq)⟩
      · rintro ⟨rfl | hq, hne⟩
        · exact absurd rfl hne
        · exact hq
  · rw [hp'] at hp
    cases hp
    refine ⟨_, _, hp', by simp, hok, List.nodup_nil, fun q => ?_⟩
    rw [← h.mem, hl]
    simp

/-- A sleeper whose wait is interrupted leaves the queue. -/
theorem Tracks.abort [DecidableEq P] (h : s.Tracks asleep) (hp : asleep p) :
    ∃ s', s.abort p = some s' ∧ s'.Tracks fun q => asleep q ∧ q ≠ p := by
  obtain ⟨he, hok⟩ := h.ok.abort ((h.mem p).mpr hp)
  refine ⟨_, he, hok, h.nodup.erase p, fun q => ?_⟩
  rw [h.nodup.mem_erase_iff, h.mem, and_comm]

/-- `post_all_sem` wakes everybody. -/
theorem Tracks.postAll (h : s.Tracks asleep) :
    ∃ s', s.postAll = some (s', s.sleeplist) ∧ s'.Tracks fun _ => False := by
  refine ⟨_, postAll_eq h.ok, ⟨fun _ => rfl, ?_⟩, List.nodup_nil, by simp⟩
  intro hv
  simp only at hv
  omega

end Tracks

/-! ## Sleep locks -/

/-- `init_sleeplock` (sem.h:43). -/
def sleeplock : Sem P := init 1

/-- `s` is used as a sleep lock and `owns` is its owner: there is at most one, and
    no unit is left while there is one. -/
structure Mutex (s : Sem P) (owns : P → Prop) : Prop where
  le : s.val ≤ 1
  taken : ∀ q, owns q → s.val ≤ 0
  unique : ∀ q r, owns q → owns r → q = r

section Mutex

variable {s s' : Sem P} {owns owns' : P → Prop} {p : P} {w : List P}

theorem Mutex.congr (h : s.Mutex owns) (ho : ∀ q, owns q ↔ owns' q) : s.Mutex owns' :=
  ⟨h.le, fun q hq => h.taken q ((ho q).mpr hq),
    fun q r hq hr => h.unique q r ((ho q).mpr hq) ((ho r).mpr hr)⟩

/-- The caller takes a free lock. -/
theorem Mutex.down_true (h : s.Mutex owns) (hd : s.down p = (s', true)) :
    (∀ q, ¬ owns q) ∧ s'.Mutex fun q => q = p := by
  unfold Sem.down at hd
  split_ifs at hd with hv
  · cases hd
    have hle := h.le
    refine ⟨fun q hq => ?_, by simp only; omega, fun q _ => by simp only; omega, ?_⟩
    · have := h.taken q hq
      omega
    · rintro q r rfl rfl
      rfl
  · cases hd

/-- The caller goes to sleep; the owner stays. -/
theorem Mutex.down_false (h : s.Mutex owns) (hd : s.down p = (s', false)) : s'.Mutex owns := by
  unfold Sem.down at hd
  split_ifs at hd with hv
  · cases hd
  · cases hd
    have hle := h.le
    refine ⟨by simp only; omega, fun q hq => ?_, h.unique⟩
    have := h.taken q hq
    simp only
    omega

/-- A sleeper gives up; the owner stays. -/
theorem Mutex.abort [DecidableEq P] (h : s.Mutex owns) (ha : s.abort p = some s') :
    s'.Mutex owns := by
  unfold Sem.abort at ha
  split_ifs at ha with hv
  cases ha
  exact ⟨by simp only; omega, fun _ _ => hv, h.unique⟩

/-- The owner hands the lock to the process that its post wakes, if there is one. -/
theorem Mutex.post (h : s.Mutex owns) (hok : s.Ok) (hp : owns p) (hpost : s.post = some (s', w)) :
    s'.Mutex fun q => q ∈ w := by
  have hv := h.taken p hp
  rcases hok.post_cases with ⟨q, rest, -, hneg, hp'⟩ | ⟨-, hnn, hp'⟩
  · rw [hp'] at hpost
    cases hpost
    refine ⟨by simp only; omega, fun _ _ => by simp only; omega, fun q r hq hr => ?_⟩
    rw [List.mem_singleton] at hq hr
    rw [hq, hr]
  · rw [hp'] at hpost
    cases hpost
    exact ⟨by simp only; omega, fun q hq => absurd hq (by simp), fun q _ hq => absurd hq (by simp)⟩

end Mutex

end Sem

end ShikiOS
