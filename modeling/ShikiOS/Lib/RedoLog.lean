import Mathlib.Tactic

/-!
# Redo logs

A disk maps addresses to blocks and takes writes one by one. A transaction is
committed in four phases: its blocks go to the slots of the log, a header that lists
their home addresses is written, the blocks go home, and the header is cleared.
Recovery copies the slots of a header it finds to the addresses that the header
lists, and clears the header.

A crash leaves a disk on which only the first writes of a commit, or of a recovery,
have been made. Such a disk is `Settled` (no header; the blocks are those of one
transaction) or `Logged` (a header; the listed blocks are safe in their slots).

Results:
* `commit_prefix`: what any number of writes of a commit leave.
* `crash_atomic`: after a crash in a commit and any number of interrupted recoveries,
  a complete recovery leaves all blocks as before the commit or all as after it.
-/

namespace ShikiOS.Lib.RedoLog

variable {A D : Type*} [DecidableEq A]

/-- Apply writes in order. -/
def applyWrites (d : A → D) (ws : List (A × D)) : A → D :=
  ws.foldl (fun d w => Function.update d w.1 w.2) d

@[simp] theorem applyWrites_nil (d : A → D) : applyWrites d [] = d := rfl

@[simp] theorem applyWrites_cons (d : A → D) (w : A × D) (ws : List (A × D)) :
    applyWrites d (w :: ws) = applyWrites (Function.update d w.1 w.2) ws := rfl

@[simp] theorem applyWrites_append (d : A → D) (ws ws' : List (A × D)) :
    applyWrites d (ws ++ ws') = applyWrites (applyWrites d ws) ws' := List.foldl_append

/-- An address that is not written keeps its block. -/
theorem applyWrites_of_notMem {d : A → D} {ws : List (A × D)} {a : A} (h : ∀ w ∈ ws, w.1 ≠ a) :
    applyWrites d ws a = d a := by
  induction ws generalizing d with
  | nil => rfl
  | cons w ws ih =>
    rw [applyWrites_cons, ih fun w' hw' => h w' (List.mem_cons_of_mem w hw'),
      Function.update_of_ne (h w List.mem_cons_self).symm]

/-- Where the log lives, how a header block lists addresses, and how it is cleared. -/
structure Format (A D : Type*) where
  header : A
  slot : ℕ → A
  capacity : ℕ
  entries : D → List A
  clear : D → D
  entries_clear : ∀ x, entries (clear x) = []
  slot_inj : ∀ i j, i < capacity → j < capacity → slot i = slot j → i = j
  slot_ne : ∀ i, i < capacity → slot i ≠ header

namespace Format

variable (F : Format A D)

/-- The addresses of the log. -/
def InArea (a : A) : Prop := a = F.header ∨ ∃ i, i < F.capacity ∧ a = F.slot i

/-- The writes of the log blocks, from slot `i` on. -/
def slotWrites (m : A → D) : ℕ → List A → List (A × D)
  | _, [] => []
  | i, a :: as => (F.slot i, m a) :: slotWrites m (i + 1) as

/-- The writes of the blocks at home. -/
def homeWrites (m : A → D) (es : List A) : List (A × D) := es.map fun a => (a, m a)

/-- The writes of a commit of the blocks `es`, whose new content is `m`, with the
    header block `H` and the cleared header block `C`. -/
def commitWrites (m : A → D) (es : List A) (H C : D) : List (A × D) :=
  F.slotWrites m 0 es ++ (F.header, H) :: (homeWrites m es ++ [(F.header, C)])

/-- The writes that copy the slots from `i` on to the addresses of `es`. -/
def replayWrites (d : A → D) : ℕ → List A → List (A × D)
  | _, [] => []
  | i, a :: as => (a, d (F.slot i)) :: replayWrites d (i + 1) as

/-- The writes of a recovery. -/
def recoverWrites (d : A → D) : List (A × D) :=
  F.replayWrites d 0 (F.entries (d F.header)) ++ [(F.header, F.clear (d F.header))]

/-- The header lists nothing, and the blocks outside the log are those of `m`. -/
structure Settled (d m : A → D) : Prop where
  empty : F.entries (d F.header) = []
  content : ∀ a, ¬ F.InArea a → d a = m a

/-- The header lists `es`, whose blocks of `m` are in the slots, and the other blocks
    outside the log are those of `m`. -/
structure Logged (d : A → D) (es : List A) (m : A → D) : Prop where
  entries : F.entries (d F.header) = es
  size : es.length ≤ F.capacity
  outside : ∀ a ∈ es, ¬ F.InArea a
  slots : ∀ i (h : i < es.length), d (F.slot i) = m es[i]
  content : ∀ a, ¬ F.InArea a → a ∉ es → d a = m a

variable {F} {d m m' : A → D} {es : List A} {H C : D}

/-! ## The slots -/

omit [DecidableEq A] in
theorem slotWrites_concat (i : ℕ) (a : A) :
    F.slotWrites m i (es ++ [a]) = F.slotWrites m i es ++ [(F.slot (i + es.length), m a)] := by
  induction es generalizing i with
  | nil => rfl
  | cons b bs ih =>
    rw [List.cons_append, slotWrites, slotWrites, ih, List.cons_append, List.length_cons,
      Nat.add_right_comm, Nat.add_assoc i]

omit [DecidableEq A] in
theorem replayWrites_concat (i : ℕ) (a : A) :
    F.replayWrites d i (es ++ [a]) = F.replayWrites d i es ++ [(a, d (F.slot (i + es.length)))] := by
  induction es generalizing i with
  | nil => rfl
  | cons b bs ih =>
    rw [List.cons_append, replayWrites, replayWrites, ih, List.cons_append, List.length_cons,
      Nat.add_right_comm, Nat.add_assoc i]

omit [DecidableEq A] in
theorem mem_replayWrites {i : ℕ} {w : A × D} (h : w ∈ F.replayWrites d i es) : w.1 ∈ es := by
  induction es generalizing i with
  | nil => cases h
  | cons a as ih =>
    rcases List.mem_cons.mp h with rfl | h
    · exact List.mem_cons_self
    · exact List.mem_cons_of_mem a (ih h)

omit [DecidableEq A] in
theorem mem_slotWrites {i : ℕ} {w : A × D} (h : w ∈ F.slotWrites m i es) :
    ∃ j, i ≤ j ∧ j < i + es.length ∧ w.1 = F.slot j := by
  induction es generalizing i with
  | nil => cases h
  | cons a as ih =>
    rcases List.mem_cons.mp h with rfl | h
    · exact ⟨i, le_rfl, by simp, rfl⟩
    · obtain ⟨j, h1, h2, h3⟩ := ih h
      exact ⟨j, by omega, by rw [List.length_cons]; omega, h3⟩

/-- Writing slots disturbs neither the header nor the blocks outside the log. -/
theorem Settled.slots (h : F.Settled d m) {m' : A → D} (hsize : es.length ≤ F.capacity) (k : ℕ) :
    F.Settled (applyWrites d ((F.slotWrites m' 0 es).take k)) m := by
  have hslot : ∀ w ∈ (F.slotWrites m' 0 es).take k, ∃ j, j < F.capacity ∧ w.1 = F.slot j := by
    intro w hw
    obtain ⟨j, -, h2, h3⟩ := mem_slotWrites (List.mem_of_mem_take hw)
    exact ⟨j, by omega, h3⟩
  constructor
  · rw [applyWrites_of_notMem]
    · exact h.empty
    · intro w hw
      obtain ⟨j, hj, hw⟩ := hslot w hw
      rw [hw]; exact F.slot_ne j hj
  · intro a ha
    rw [applyWrites_of_notMem]
    · exact h.content a ha
    · rintro w hw rfl
      obtain ⟨j, hj, hw⟩ := hslot w hw
      exact ha (.inr ⟨j, hj, hw⟩)

theorem applyWrites_slotWrites (i : ℕ) (hsize : i + es.length ≤ F.capacity) (j : ℕ)
    (hj : j < es.length) : applyWrites d (F.slotWrites m i es) (F.slot (i + j)) = m es[j] := by
  induction es generalizing d i j with
  | nil => cases hj
  | cons a as ih =>
    rw [List.length_cons] at hsize hj
    rw [slotWrites, applyWrites_cons]
    cases j with
    | zero =>
      rw [applyWrites_of_notMem]
      · simp
      · intro w hw e
        obtain ⟨j, h1, h2, h3⟩ := mem_slotWrites hw
        rw [h3] at e
        have := F.slot_inj j i (by omega) (by omega) e
        omega
    | succ j =>
      have := ih (d := Function.update d (F.slot i) (m a)) (i + 1) (by omega) j (by omega)
      rw [show i + (j + 1) = i + 1 + j by omega, this]
      rfl

/-- Writing the header makes the transaction durable. -/
theorem Settled.logged (h : F.Settled d m) (hsize : es.length ≤ F.capacity)
    (hout : ∀ a ∈ es, ¬ F.InArea a) (hm : ∀ a, a ∉ es → m' a = m a) (hH : F.entries H = es) :
    F.Logged (Function.update (applyWrites d (F.slotWrites m' 0 es)) F.header H) es m' := by
  have hs : F.Settled (applyWrites d (F.slotWrites m' 0 es)) m := by
    have : F.Settled (applyWrites d ((F.slotWrites m' 0 es).take (F.slotWrites m' 0 es).length)) m :=
      h.slots hsize _
    rwa [List.take_length] at this
  refine ⟨by rw [Function.update_self, hH], hsize, hout, fun i hi => ?_, fun a ha hae => ?_⟩
  · rw [Function.update_of_ne (F.slot_ne i (by omega))]
    have := applyWrites_slotWrites (F := F) (d := d) (m := m') 0 (by omega) i hi
    rwa [Nat.zero_add] at this
  · have hne : a ≠ F.header := fun e => ha (.inl e)
    rw [Function.update_of_ne hne, hs.content a ha, hm a hae]

/-! ## Going home -/

/-- A listed block goes home. -/
theorem Logged.home (h : F.Logged d es m) {a : A} (ha : a ∈ es) :
    F.Logged (Function.update d a (m a)) es m := by
  have hout := h.outside a ha
  refine ⟨?_, h.size, h.outside, fun i hi => ?_, fun b hb hbe => ?_⟩
  · rw [Function.update_of_ne fun e => hout (.inl e.symm)]
    exact h.entries
  · have hsize := h.size
    rw [Function.update_of_ne fun e => hout (.inr ⟨i, by omega, e.symm⟩)]
    exact h.slots i hi
  · have hne : b ≠ a := fun e => hbe (e ▸ ha)
    rw [Function.update_of_ne hne]
    exact h.content b hb hbe

theorem Logged.homes (h : F.Logged d es m) {as : List A} (has : ∀ a ∈ as, a ∈ es) :
    F.Logged (applyWrites d (homeWrites m as)) es m ∧
      ∀ a, (a ∈ as ∨ d a = m a) → applyWrites d (homeWrites m as) a = m a := by
  induction as generalizing d with
  | nil => exact ⟨h, fun a ha => ha.resolve_left (by simp)⟩
  | cons b bs ih =>
    obtain ⟨h1, h2⟩ := ih (h.home (has b List.mem_cons_self)) fun a ha =>
      has a (List.mem_cons_of_mem b ha)
    refine ⟨h1, fun a ha => h2 a ?_⟩
    by_cases hab : a = b
    · subst hab; exact .inr (Function.update_self _ _ _)
    · rw [Function.update_of_ne hab]
      exact ha.imp_left fun hm => (List.mem_cons.mp hm).resolve_left hab

/-- Clearing the header after all listed blocks went home. -/
theorem Logged.cleared (h : F.Logged d es m) (hC : F.entries C = []) :
    F.Settled (applyWrites d (homeWrites m es ++ [(F.header, C)])) m := by
  have hall : ∀ a ∈ es, a ∈ es := fun _ ha => ha
  obtain ⟨h1, h2⟩ := h.homes hall
  rw [applyWrites_append, applyWrites_cons, applyWrites_nil]
  refine ⟨by rw [Function.update_self, hC], fun a ha => ?_⟩
  have hne : a ≠ F.header := fun e => ha (.inl e)
  rw [Function.update_of_ne hne]
  by_cases hae : a ∈ es
  · exact h2 a (.inl hae)
  · exact h1.content a ha hae

/-- Any number of the writes that bring the listed blocks home and clear the header. -/
theorem Logged.finish (h : F.Logged d es m) (hC : F.entries C = []) (k : ℕ) :
    F.Logged (applyWrites d ((homeWrites m es ++ [(F.header, C)]).take k)) es m ∨
      F.Settled (applyWrites d ((homeWrites m es ++ [(F.header, C)]).take k)) m := by
  by_cases hk : k ≤ (homeWrites m es).length
  · left
    rw [List.take_append_of_le_length hk]
    have hmap : (homeWrites m es).take k = homeWrites m (es.take k) := by
      rw [homeWrites, homeWrites, List.map_take]
    rw [hmap]
    exact (h.homes fun a ha => List.mem_of_mem_take ha).1
  · right
    rw [List.take_of_length_le (by rw [List.length_append, List.length_singleton]; omega)]
    exact h.cleared hC

/-! ## Commit and recovery -/

/-- Any number of writes of a commit leave the old blocks, a durable transaction, or
    the new blocks. -/
theorem commit_prefix (h : F.Settled d m) (hsize : es.length ≤ F.capacity)
    (hout : ∀ a ∈ es, ¬ F.InArea a) (hm : ∀ a, a ∉ es → m' a = m a) (hH : F.entries H = es)
    (hC : F.entries C = []) (k : ℕ) :
    F.Settled (applyWrites d ((F.commitWrites m' es H C).take k)) m ∨
      F.Logged (applyWrites d ((F.commitWrites m' es H C).take k)) es m' ∨
      F.Settled (applyWrites d ((F.commitWrites m' es H C).take k)) m' := by
  unfold commitWrites
  by_cases hk : k ≤ (F.slotWrites m' 0 es).length
  · left
    rw [List.take_append_of_le_length hk]
    exact h.slots hsize k
  · right
    obtain ⟨j, rfl⟩ : ∃ j, k = (F.slotWrites m' 0 es).length + (j + 1) :=
      ⟨k - (F.slotWrites m' 0 es).length - 1, by omega⟩
    rw [List.take_length_add_append, List.take_succ_cons, applyWrites_append, applyWrites_cons]
    exact (h.logged hsize hout hm hH).finish hC j

omit [DecidableEq A] in
theorem Logged.replayWrites_eq (h : F.Logged d es m) : ∀ (as : List A) (i : ℕ),
    es.drop i = as → F.replayWrites d i as = homeWrites m as := by
  intro as
  induction as with
  | nil => intro i _; rfl
  | cons a as ih =>
    intro i hi
    have hlt : i < es.length := by
      by_contra hc
      rw [List.drop_eq_nil_of_le (by omega)] at hi
      cases hi
    have hget : es[i] = a := by
      have := List.drop_eq_getElem_cons hlt
      rw [hi] at this
      exact (List.cons.inj this).1.symm
    have hdrop : es.drop (i + 1) = as := by
      have := List.drop_eq_getElem_cons hlt
      rw [hi] at this
      exact (List.cons.inj this).2.symm
    rw [replayWrites, ih (i + 1) hdrop, h.slots i hlt, hget]
    rfl

omit [DecidableEq A] in
theorem Logged.recoverWrites_eq (h : F.Logged d es m) :
    F.recoverWrites d = homeWrites m es ++ [(F.header, F.clear (d F.header))] := by
  rw [recoverWrites, h.entries, h.replayWrites_eq es 0 List.drop_zero]

omit [DecidableEq A] in
theorem Settled.recoverWrites_eq (h : F.Settled d m) :
    F.recoverWrites d = [(F.header, F.clear (d F.header))] := by
  rw [recoverWrites, h.empty]
  rfl

/-- A write of a cleared header changes nothing else. -/
theorem Settled.clear (h : F.Settled d m) (hC : F.entries C = []) :
    F.Settled (Function.update d F.header C) m := by
  refine ⟨by rw [Function.update_self, hC], fun a ha => ?_⟩
  have hne : a ≠ F.header := fun e => ha (.inl e)
  rw [Function.update_of_ne hne]
  exact h.content a ha

theorem Settled.recover_prefix (h : F.Settled d m) (k : ℕ) :
    F.Settled (applyWrites d ((F.recoverWrites d).take k)) m := by
  rw [h.recoverWrites_eq]
  cases k with
  | zero => exact h
  | succ k =>
    rw [List.take_succ_cons, List.take_nil, applyWrites_cons, applyWrites_nil]
    exact h.clear (F.entries_clear _)

theorem Logged.recover_prefix (h : F.Logged d es m) (k : ℕ) :
    F.Logged (applyWrites d ((F.recoverWrites d).take k)) es m ∨
      F.Settled (applyWrites d ((F.recoverWrites d).take k)) m := by
  rw [h.recoverWrites_eq]
  exact h.finish (F.entries_clear _) k

theorem Settled.recover (h : F.Settled d m) : F.Settled (applyWrites d (F.recoverWrites d)) m := by
  have := h.recover_prefix (F.recoverWrites d).length
  rwa [List.take_length] at this

theorem Logged.recover (h : F.Logged d es m) : F.Settled (applyWrites d (F.recoverWrites d)) m := by
  rw [h.recoverWrites_eq]
  exact h.cleared (F.entries_clear _)

/-! ## Crashes -/

/-- Any number of recoveries by `rec`, each cut off after some of its writes. -/
inductive CutRecoveries (rec : (A → D) → List (A × D)) (d : A → D) : (A → D) → Prop
  | refl : CutRecoveries rec d d
  | tail {d' : A → D} (k : ℕ) : CutRecoveries rec d d' →
      CutRecoveries rec d (applyWrites d' ((rec d').take k))

/-- A disk from which a recovery can start. -/
def Recoverable (F : Format A D) (d : A → D) : Prop :=
  ∃ m, F.Settled d m ∨ ∃ es, F.Logged d es m

section Recoveries

variable {rec : (A → D) → List (A × D)} {d' : A → D}

theorem CutRecoveries.settled (hrec : ∀ d, F.Recoverable d → rec d = F.recoverWrites d)
    (hc : CutRecoveries rec d d') (h : F.Settled d m) : F.Settled d' m := by
  induction hc with
  | refl => exact h
  | @tail d' k _ ih =>
    rw [hrec d' ⟨m, .inl ih⟩]
    exact ih.recover_prefix k

theorem CutRecoveries.logged (hrec : ∀ d, F.Recoverable d → rec d = F.recoverWrites d)
    (hc : CutRecoveries rec d d') (h : F.Logged d es m) : F.Logged d' es m ∨ F.Settled d' m := by
  induction hc with
  | refl => exact .inl h
  | @tail d' k _ ih =>
    rcases ih with ih | ih
    · rw [hrec d' ⟨m, .inr ⟨es, ih⟩⟩]
      exact ih.recover_prefix k
    · rw [hrec d' ⟨m, .inl ih⟩]
      exact .inr (ih.recover_prefix k)

/-- Crash atomicity: the writes of a commit are cut off after `k` of them; after any
    number of recoveries that are cut off too, the disk can be recovered, and that
    leaves the old blocks or the new ones. -/
theorem crash_atomic (hrec : ∀ d, F.Recoverable d → rec d = F.recoverWrites d)
    (h : F.Settled d m) (hsize : es.length ≤ F.capacity) (hout : ∀ a ∈ es, ¬ F.InArea a)
    (hm : ∀ a, a ∉ es → m' a = m a) (hH : F.entries H = es) (hC : F.entries C = []) (k : ℕ)
    (hc : CutRecoveries rec (applyWrites d ((F.commitWrites m' es H C).take k)) d') :
    F.Recoverable d' ∧ (F.Settled (applyWrites d' (rec d')) m ∨
      F.Settled (applyWrites d' (rec d')) m') := by
  rcases commit_prefix h hsize hout hm hH hC k with h | h | h
  · have h' := hc.settled hrec h
    refine ⟨⟨m, .inl h'⟩, .inl ?_⟩
    rw [hrec d' ⟨m, .inl h'⟩]
    exact h'.recover
  · rcases hc.logged hrec h with h' | h'
    · refine ⟨⟨m', .inr ⟨es, h'⟩⟩, .inr ?_⟩
      rw [hrec d' ⟨m', .inr ⟨es, h'⟩⟩]
      exact h'.recover
    · refine ⟨⟨m', .inl h'⟩, .inr ?_⟩
      rw [hrec d' ⟨m', .inl h'⟩]
      exact h'.recover
  · have h' := hc.settled hrec h
    refine ⟨⟨m', .inl h'⟩, .inr ?_⟩
    rw [hrec d' ⟨m', .inl h'⟩]
    exact h'.recover

end Recoveries

end Format

end ShikiOS.Lib.RedoLog
