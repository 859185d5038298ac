import Mathlib.Tactic
import Mathlib.Algebra.BigOperators.Fin

/-!
# Admission by reservation

A resource of `cap` slots is filled by clients and emptied as a whole (a log, a
ring, a batch). A client is admitted only while every client that is running
could still take `share` slots, and it then takes at most `share` of them. The
resource is flushed only by the last client that leaves.

Results:
* `Pool.Step.inv`: the slots in use and the budgets of the running clients
  never exceed `cap`, and nobody runs during a flush.
-/

namespace ShikiOS.Lib

variable {P : Type*}

/-- The slots in use, the slots each running client may still take (`none`: not
    running), and whether a flush is going on. -/
@[ext] structure Pool (P : Type*) where
  used : ℕ
  budget : P → Option ℕ
  flushing : Bool

namespace Pool

variable [Fintype P]

/-- The running clients. -/
def running (s : Pool P) : Finset P := Finset.univ.filter fun p => (s.budget p).isSome

/-- The slots that the running clients may still take. -/
def reserved (s : Pool P) : ℕ := ∑ p, (s.budget p).getD 0

theorem mem_running {s : Pool P} {p : P} : p ∈ s.running ↔ ∃ k, s.budget p = some k := by
  simp [running, Option.isSome_iff_exists]

variable [DecidableEq P]

/-- The moves of a pool of `cap` slots with `share` slots for each client. -/
inductive Step (cap share : ℕ) : Pool P → Pool P → Prop
  | enter {s : Pool P} {p : P} : s.budget p = none → s.flushing = false →
      s.used + (s.running.card + 1) * share ≤ cap →
      Step cap share s { s with budget := Function.update s.budget p (some share) }
  | take {s : Pool P} {p : P} {k : ℕ} : s.budget p = some (k + 1) →
      Step cap share s
        { s with used := s.used + 1, budget := Function.update s.budget p (some k) }
  | leave {s : Pool P} {p : P} {k : ℕ} : s.budget p = some k →
      Step cap share s { s with budget := Function.update s.budget p none }
  | close {s : Pool P} {p : P} {k : ℕ} : s.budget p = some k → s.running = {p} →
      Step cap share s
        { s with budget := Function.update s.budget p none, flushing := true }
  | flush {s : Pool P} : s.flushing = true →
      Step cap share s { s with used := 0, flushing := false }

/-- What the reservations guarantee. -/
structure Inv (cap share : ℕ) (s : Pool P) : Prop where
  leShare : ∀ p k, s.budget p = some k → k ≤ share
  room : s.used + s.reserved ≤ cap
  quiet : s.flushing = true → ∀ p, s.budget p = none

/-! ## The running clients and their budgets after an update -/

theorem running_update_some (s : Pool P) (p : P) (k : ℕ) :
    ({ s with budget := Function.update s.budget p (some k) } : Pool P).running =
      insert p s.running := by
  ext q
  rw [Finset.mem_insert, mem_running, mem_running]
  by_cases hq : q = p
  · subst hq; simp
  · simp [hq]

theorem running_update_none (s : Pool P) (p : P) :
    ({ s with budget := Function.update s.budget p none } : Pool P).running =
      s.running.erase p := by
  ext q
  rw [Finset.mem_erase, mem_running, mem_running]
  by_cases hq : q = p
  · subst hq; simp
  · simp [hq]

theorem reserved_update (s : Pool P) (p : P) (o : Option ℕ) :
    ({ s with budget := Function.update s.budget p o } : Pool P).reserved + (s.budget p).getD 0 =
      s.reserved + o.getD 0 := by
  unfold reserved
  have h := Finset.sum_update_of_mem (Finset.mem_univ p) (fun q => (s.budget q).getD 0) (o.getD 0)
  have h' := Finset.add_sum_erase Finset.univ (fun q => (s.budget q).getD 0) (Finset.mem_univ p)
  have he : (fun q => (Function.update s.budget p o q).getD 0) =
      Function.update (fun q => (s.budget q).getD 0) p (o.getD 0) := by
    funext q
    by_cases hq : q = p
    · subst hq; simp
    · simp [hq]
  rw [Finset.sdiff_singleton_eq_erase] at h
  simp only at h' ⊢
  rw [he, h]
  omega

theorem Inv.reserved_le {cap share : ℕ} {s : Pool P} (h : s.Inv cap share) :
    s.reserved ≤ s.running.card * share := by
  have hle : ∀ p, (s.budget p).getD 0 ≤ if p ∈ s.running then share else 0 := by
    intro p
    cases hb : s.budget p with
    | none => simp
    | some k =>
      rw [if_pos (mem_running.mpr ⟨k, hb⟩)]
      exact h.leShare p k hb
  calc s.reserved ≤ ∑ p, if p ∈ s.running then share else 0 := Finset.sum_le_sum fun p _ => hle p
    _ = s.running.card * share := by
      rw [Finset.sum_ite_mem, Finset.univ_inter, Finset.sum_const, smul_eq_mul]

theorem Inv.leShare_update {cap share : ℕ} {s : Pool P} (h : s.Inv cap share) {p : P}
    {o : Option ℕ} (ho : ∀ k, o = some k → k ≤ share) :
    ∀ q k, Function.update s.budget p o q = some k → k ≤ share := by
  intro q k hq
  by_cases hqp : q = p
  · rw [hqp, Function.update_self] at hq; exact ho k hq
  · rw [Function.update_of_ne hqp] at hq; exact h.leShare q k hq

/-! ## The invariant -/

/-- Every move keeps the guarantee. -/
theorem Step.inv {cap share : ℕ} {s t : Pool P} (hs : Step cap share s t) (h : s.Inv cap share) :
    t.Inv cap share := by
  have hres := h.reserved_le
  have hroom := h.room
  -- nobody is admitted or leaves during a flush
  have hbusy : ∀ {p k}, s.budget p = some k → s.flushing = false := by
    intro p k hb
    by_contra hf
    have := h.quiet (by simpa using hf) p
    rw [hb] at this; cases this
  cases hs with
  | @enter p hb hf hcap =>
    have hup := reserved_update s p (some share)
    rw [hb, Option.getD_none, Option.getD_some] at hup
    rw [add_mul, one_mul] at hcap
    refine ⟨h.leShare_update (by rintro k ⟨⟩; exact le_rfl), ?_, fun hf' => ?_⟩
    · simp only; omega
    · simp only [hf] at hf'; cases hf'
  | @take p k hb =>
    have hup := reserved_update s p (some k)
    rw [hb, Option.getD_some, Option.getD_some] at hup
    have hk := h.leShare p _ hb
    refine ⟨h.leShare_update (by rintro k' ⟨⟩; omega), ?_, fun hf => ?_⟩
    · change s.used + 1 + ({ s with budget := Function.update s.budget p (some k) } : Pool P).reserved
        ≤ cap
      omega
    · simp only [hbusy hb] at hf; cases hf
  | @leave p k hb =>
    have hup := reserved_update s p none
    rw [hb, Option.getD_none, Option.getD_some] at hup
    refine ⟨h.leShare_update (by rintro k' ⟨⟩), by simp only; omega, fun hf => ?_⟩
    simp only [hbusy hb] at hf; cases hf
  | @close p k hb hone =>
    have hup := reserved_update s p none
    rw [hb, Option.getD_none, Option.getD_some] at hup
    refine ⟨h.leShare_update (by rintro k' ⟨⟩), ?_, fun _ q => ?_⟩
    · change s.used + ({ s with budget := Function.update s.budget p none } : Pool P).reserved ≤ cap
      omega
    · by_cases hqp : q = p
      · simp [hqp]
      · simp only [Function.update_of_ne hqp]
        by_contra hq
        obtain ⟨k', hq⟩ := Option.ne_none_iff_exists'.mp hq
        have := mem_running.mpr ⟨k', hq⟩
        rw [hone, Finset.mem_singleton] at this
        exact hqp this
  | flush hf =>
    refine ⟨h.leShare, ?_, fun hf' => by cases hf'⟩
    change 0 + s.reserved ≤ cap
    omega

end Pool

end ShikiOS.Lib
