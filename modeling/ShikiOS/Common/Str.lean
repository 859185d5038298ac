import Mathlib.Data.List.TakeWhile
import Mathlib.Tactic

/-!
# Strings in buffers (`common/string.c`)

A buffer is the list of the bytes from an address up to the end of the object there. A
function returns `none` when it would read a byte behind that end.

Results:
* `strlen_eq_some`: the length is that of the part before the first NUL.
* `strncpy_of_strlen`: a copy of a string that fits ends with a NUL.
* `memcmp_strings`: two strings compared over the longer of their lengths are equal exactly
  when nothing differs.
-/

namespace ShikiOS

/-- `strlen` (string.c:86-93). -/
def strlen : List UInt8 → Option ℕ
  | [] => none
  | c :: s => if c = 0 then some 0 else (strlen s).map (· + 1)

/-- `memcmp` of `n` bytes (string.c:19-30). -/
def memcmp : ℕ → List UInt8 → List UInt8 → Option ℤ
  | 0, _, _ => some 0
  | n + 1, a :: s1, b :: s2 =>
    if a ≠ b then some ((a.toNat : ℤ) - b.toNat) else memcmp n s1 s2
  | _ + 1, _, _ => none

/-- `strncmp` of at most `n` bytes (string.c:74-84). -/
def strncmp : ℕ → List UInt8 → List UInt8 → Option ℤ
  | 0, _, _ => some 0
  | n + 1, a :: s1, b :: s2 =>
    if a ≠ b then some ((a.toNat : ℤ) - b.toNat)
    else if a = 0 ∨ b = 0 then some 0 else strncmp n s1 s2
  | _ + 1, _, _ => none

/-- The `n` bytes that `strncpy` writes (string.c:52-61). -/
def strncpy : ℕ → List UInt8 → Option (List UInt8)
  | 0, _ => some []
  | _ + 1, [] => none
  | n + 1, c :: s => if c = 0 then some (List.replicate (n + 1) 0) else (strncpy n s).map (c :: ·)

/-- The string in a buffer. -/
def cstr (s : List UInt8) : List UInt8 := s.takeWhile (· ≠ 0)

variable {s s1 s2 : List UInt8} {n m : ℕ}

theorem strlen_eq_some : strlen s = some n ↔ (∃ rest, s = cstr s ++ 0 :: rest) ∧ (cstr s).length = n := by
  induction s generalizing n with
  | nil => simp [strlen, cstr]
  | cons c s ih =>
    by_cases hc : c = 0
    · subst hc
      simp [strlen, cstr, eq_comm]
    · rw [strlen, if_neg hc, cstr, List.takeWhile_cons_of_pos (by simpa using hc), ← cstr]
      cases n with
      | zero => simp
      | succ n =>
        rw [Option.map_eq_some_iff]
        constructor
        · rintro ⟨k, hk, hkn⟩
          obtain ⟨⟨rest, h1⟩, h2⟩ := ih.mp hk
          exact ⟨⟨rest, by rw [List.cons_append, ← h1]⟩, by rw [List.length_cons, h2, hkn]⟩
        · rintro ⟨⟨rest, h1⟩, h2⟩
          refine ⟨n, ih.mpr ⟨⟨rest, ?_⟩, ?_⟩, rfl⟩
          · exact (List.cons.inj h1).2
          · exact Nat.succ.inj h2

theorem strlen_lt (h : strlen s = some n) : n < s.length := by
  obtain ⟨⟨rest, hr⟩, rfl⟩ := strlen_eq_some.mp h
  have hlen := congrArg List.length hr
  rw [List.length_append, List.length_cons] at hlen
  omega

/-- A buffer without a NUL. -/
theorem strlen_eq_none (h : ∀ c ∈ s, c ≠ 0) : strlen s = none := by
  induction s with
  | nil => rfl
  | cons c s ih =>
    rw [List.forall_mem_cons] at h
    rw [strlen, if_neg h.1, ih h.2, Option.map_none]

/-- A string that is followed by a NUL. -/
theorem strlen_append (h : ∀ c ∈ s, c ≠ 0) (rest : List UInt8) :
    strlen (s ++ 0 :: rest) = some s.length := by
  induction s with
  | nil => rfl
  | cons c s ih =>
    rw [List.forall_mem_cons] at h
    rw [List.cons_append, strlen, if_neg h.1, ih h.2, Option.map_some, List.length_cons]

theorem cstr_append (h : ∀ c ∈ s, c ≠ 0) (rest : List UInt8) : cstr (s ++ 0 :: rest) = s := by
  rw [cstr, List.takeWhile_append_of_pos (by simpa using h)]
  simp

theorem cstr_ne_zero : ∀ c ∈ cstr s, c ≠ 0 := by
  intro c hc
  simpa using List.mem_takeWhile_imp hc

/-- A string shorter than the buffer it is copied to is padded with NULs. -/
theorem strncpy_append (h : ∀ c ∈ s, c ≠ 0) (rest : List UInt8) (hn : s.length < n) :
    strncpy n (s ++ 0 :: rest) = some (s ++ List.replicate (n - s.length) 0) := by
  induction s generalizing n with
  | nil =>
    obtain ⟨n, rfl⟩ := Nat.exists_eq_succ_of_ne_zero (Nat.ne_of_gt hn)
    rfl
  | cons c s ih =>
    rw [List.forall_mem_cons] at h
    obtain ⟨n, rfl⟩ := Nat.exists_eq_succ_of_ne_zero (Nat.ne_of_gt (Nat.zero_lt_of_lt hn))
    rw [List.length_cons] at hn
    rw [List.cons_append, strncpy, if_neg h.1, ih h.2 (by omega), Option.map_some, List.length_cons,
      Nat.succ_sub_succ, List.cons_append]

/-- A copy that ends fills the buffer. -/
theorem length_strncpy {t : List UInt8} (h : strncpy n s = some t) : t.length = n := by
  induction n generalizing s t with
  | zero =>
    obtain rfl := Option.some.inj h
    rfl
  | succ n ih =>
    cases s with
    | nil => cases h
    | cons c s =>
      rw [strncpy] at h
      split_ifs at h with hc
      · obtain rfl := Option.some.inj h
        exact List.length_replicate
      · obtain ⟨u, hu, rfl⟩ := Option.map_eq_some_iff.mp h
        rw [List.length_cons, ih hu]

/-- Two strings compared over the longer of their lengths, which stops at the NUL of the shorter
    one at the latest. -/
theorem memcmp_append (h1 : ∀ c ∈ s1, c ≠ 0) (h2 : ∀ c ∈ s2, c ≠ 0) (r1 r2 : List UInt8) :
    ∃ x, memcmp (max s1.length s2.length) (s1 ++ 0 :: r1) (s2 ++ 0 :: r2) = some x ∧
      (x = 0 ↔ s1 = s2) := by
  have hdiff : ∀ {a b : UInt8}, a ≠ b → (a.toNat : ℤ) - b.toNat ≠ 0 := by
    intro a b hab h0
    exact hab (UInt8.toNat_inj.mp (by omega))
  induction s1 generalizing s2 with
  | nil =>
    cases s2 with
    | nil => exact ⟨0, rfl, by simp⟩
    | cons b s2 =>
      rw [List.forall_mem_cons] at h2
      refine ⟨_, ?_, iff_of_false (hdiff (Ne.symm h2.1)) (by simp)⟩
      rw [List.length_nil, List.length_cons, Nat.zero_max, List.nil_append, List.cons_append, memcmp,
        if_pos (Ne.symm h2.1)]
  | cons a s1 ih =>
    rw [List.forall_mem_cons] at h1
    cases s2 with
    | nil =>
      refine ⟨_, ?_, iff_of_false (hdiff h1.1) (by simp)⟩
      rw [List.length_nil, List.length_cons, Nat.max_zero, List.nil_append, List.cons_append, memcmp,
        if_pos h1.1]
    | cons b s2 =>
      rw [List.forall_mem_cons] at h2
      rw [List.length_cons, List.length_cons, Nat.succ_max_succ, List.cons_append, List.cons_append,
        memcmp]
      by_cases hab : a = b
      · subst hab
        obtain ⟨x, hx, hx0⟩ := ih h1.2 h2.2
        exact ⟨x, by rw [if_neg (not_not.mpr rfl)]; exact hx, by simp [hx0]⟩
      · exact ⟨_, if_pos hab, iff_of_false (hdiff hab) (by simp [hab])⟩

/-- Two strings in buffers compared over the longer of their lengths are the same exactly when
    nothing differs. -/
theorem memcmp_strings (h1 : strlen s1 = some n) (h2 : strlen s2 = some m) :
    ∃ x, memcmp (max n m) s1 s2 = some x ∧ (x = 0 ↔ cstr s1 = cstr s2) := by
  obtain ⟨⟨r1, hr1⟩, rfl⟩ := strlen_eq_some.mp h1
  obtain ⟨⟨r2, hr2⟩, rfl⟩ := strlen_eq_some.mp h2
  have h := @memcmp_append (cstr s1) (cstr s2) cstr_ne_zero cstr_ne_zero r1 r2
  rwa [← hr1, ← hr2] at h

/-- The copy of a string that fits has the same string, and a NUL behind it. -/
theorem strncpy_of_strlen (h : strlen s = some m) (hm : m < n) :
    ∃ t, strncpy n s = some t ∧ t.length = n ∧ strlen t = some m ∧ cstr t = cstr s := by
  obtain ⟨⟨rest, hr⟩, rfl⟩ := strlen_eq_some.mp h
  have hc := strncpy_append (s := cstr s) cstr_ne_zero rest hm
  rw [← hr] at hc
  obtain ⟨k, hk⟩ : ∃ k, n - (cstr s).length = k + 1 := ⟨n - (cstr s).length - 1, by omega⟩
  rw [hk, List.replicate_succ] at hc
  refine ⟨_, hc, ?_, strlen_append cstr_ne_zero _, cstr_append cstr_ne_zero _⟩
  rw [List.length_append, List.length_cons, List.length_replicate]
  omega

end ShikiOS
