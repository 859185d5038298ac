import ShikiOS.Lib.RingBuffer

/-!
# The console (`kernel/console.c`)

`console_intr` edits a line in a ring of 128 characters, and `console_read` takes characters
from the part of it that is committed. Here each of them runs alone; the functions stop where a
reader waits.

Results:
* `Editor`: the line editor that the console stands for.
* `console_refines_editor`: for every sequence of characters and of reads that need not wait,
  the reads return what the editor returns, and the indices are running counters in their order.
* `console_indices_wrap`: after `2 ^ 64` characters the indices themselves are not.
-/

namespace ShikiOS.Kernel.Tty

open ShikiOS.Lib RingBuffer

/-! ## Model -/

/-- `IBUF_SIZE` (console.h:5). -/
def ibufSize : ℕ := 128

/-- `C(x)` (console.h:6) for the letters that the console knows, and other characters. -/
def ctrlC : UInt8 := 3
def ctrlD : UInt8 := 4
def ctrlH : UInt8 := 8
def newline : UInt8 := 10
def ret : UInt8 := 13
def ctrlU : UInt8 := 21
def ctrlX : UInt8 := 24
def delete : UInt8 := 127

/-- `struct console` (console.h:8-15) without the lock and the semaphore, and what has been
    put out on the UART. -/
structure Console where
  buf : ℕ → UInt8
  readIdx : BitVec 64
  writeIdx : BitVec 64
  editIdx : BitVec 64
  out : List UInt8

/-- The console at the start. -/
def initConsole : Console := ⟨fun _ => 0, 0, 0, 0, []⟩

namespace Console

/-- `consputc` (console.c:21-29). -/
def consputc (d : Console) (c : UInt8) : Console := { d with out := d.out ++ [c] }

/-- `consputc(BACKSPACE)`. -/
def backspace (d : Console) : Console := { d with out := d.out ++ [8, 32, 8] }

/-- Lines 115-116 and 108-109: the last character is removed. -/
def erase (d : Console) : Console := { d with editIdx := d.editIdx - 1 }.backspace

/-- The loop of `Ctrl-U` (lines 104-110), at most `n` rounds. -/
def killLine : ℕ → Console → Console
  | 0, d => d
  | n + 1, d =>
    if d.editIdx ≠ d.writeIdx ∧ d.buf ((d.editIdx - 1).toNat % ibufSize) ≠ newline then
      killLine n d.erase
    else d

/-- Lines 121-125 of `Ctrl-C`. The process that runs is killed too (lines 120-122). -/
def reset (d : Console) : Console :=
  { d with buf := fun _ => 0, readIdx := 0, writeIdx := 0, editIdx := 0,
           out := d.out ++ [94, 67, 10, 36] }

/-- Whether line 137 commits the line behind the character `c`. -/
def commits (d : Console) (c : UInt8) : Bool :=
  c == newline || c == ctrlD || d.editIdx - d.readIdx == BitVec.ofNat 64 ibufSize

/-- Lines 132-140: a character is put into the ring, and whether it commits the line. -/
def insert (d : Console) (c : UInt8) : Console × Bool :=
  let c := if c = ret then newline else c
  let d := d.consputc c
  let d := { d with buf := Function.update d.buf (d.editIdx.toNat % ibufSize) c,
                    editIdx := d.editIdx + 1 }
  if d.commits c then ({ d with writeIdx := d.editIdx }, true) else (d, false)

/-- `console_intr` (console.c:97-146), and whether it posts the semaphore. `procdump` (line 128)
    leaves the console alone. -/
def intr (d : Console) (c : UInt8) : Console × Bool :=
  if c = ctrlU then (killLine (d.editIdx - d.writeIdx).toNat d, false)
  else if c = ctrlH ∨ c = delete then
    if d.editIdx ≠ d.writeIdx then (d.erase, false) else (d, false)
  else if c = ctrlC then (d.reset, false)
  else if c = ctrlX then (d, false)
  else if c ≠ 0 ∧ (d.editIdx - d.readIdx).toNat < ibufSize then d.insert c
  else (d, false)

/-- The next character, and the console behind it. -/
def peek (d : Console) : UInt8 := d.buf (d.readIdx.toNat % ibufSize)
def advance (d : Console) : Console := { d with readIdx := d.readIdx + 1 }

end Console

/-- Where the loops of `console_read` stop: behind them, or where nothing is committed, with
    `n` characters still wanted. -/
inductive ReadStop
  | done (d : Console) (dst : List UInt8)
  | empty (d : Console) (n : ℕ) (dst : List UInt8)

/-- The loops of `console_read` (lines 64-88) with `n` characters wanted and `dst` read. -/
def readLoop (target : ℤ) : ℕ → Console → List UInt8 → ReadStop
  | 0, d, dst => .done d dst
  | n + 1, d, dst =>
    if d.readIdx = d.writeIdx then .empty d (n + 1) dst
    else
      let c := d.peek
      if c = ctrlD then
        -- line 78 compares what is wanted with what was wanted at the beginning
        .done (if (n + 1 : ℤ) < target then d else d.advance) dst
      else if c = newline then .done d.advance (dst ++ [c])
      else readLoop target n d.advance (dst ++ [c])

/-- The value of an `isize` in an `int` (line 63). -/
def intOf (n : ℤ) : ℤ := Int.bmod n (2 ^ 32)

/-- `console_read` (console.c:58-94) with `n` characters wanted: the console, what is returned and
    what is stored at `dst`. `none`: the reader waits. -/
def consoleRead (d : Console) (n : ℤ) : Option (Console × ℤ × List UInt8) :=
  match readLoop (intOf n) n.toNat d [] with
  | .done d dst => some (d, intOf n - (n - dst.length), dst)
  | .empty _ _ _ => none

/-! ## The line editor -/

/-- A line editor: what has been committed and not been read, and the pending line. -/
structure Editor where
  committed : List UInt8
  pending : List UInt8

namespace Editor

/-- The characters that the editor holds. -/
def length (e : Editor) : ℕ := e.committed.length + e.pending.length

/-- A character is added to the pending line, which it may commit. -/
def insert (e : Editor) (c : UInt8) : Editor :=
  let c := if c = ret then newline else c
  let line := e.pending ++ [c]
  if c = newline ∨ c = ctrlD ∨ (e.committed ++ line).length = ibufSize then
    ⟨e.committed ++ line, []⟩
  else ⟨e.committed, line⟩

/-- A character is typed. -/
def key (e : Editor) (c : UInt8) : Editor :=
  if c = ctrlU then { e with pending := [] }
  else if c = ctrlH ∨ c = delete then { e with pending := e.pending.dropLast }
  else if c ≠ 0 ∧ e.length < ibufSize then e.insert c
  else e

/-- At most `n` characters up to a newline, which is taken, or a `Ctrl-D`, which is not; and
    what is left. -/
def takeLine : ℕ → List UInt8 → List UInt8 × List UInt8
  | 0, l => ([], l)
  | _ + 1, [] => ([], [])
  | n + 1, c :: l =>
    if c = ctrlD then ([], c :: l)
    else if c = newline then ([c], l)
    else (c :: (takeLine n l).1, (takeLine n l).2)

/-- A read of `n` characters. A `Ctrl-D` that comes first is taken and ends the read. -/
def read (e : Editor) (n : ℤ) : Editor × List UInt8 :=
  if 0 < n ∧ e.committed.head? = some ctrlD then ({ e with committed := e.committed.tail }, [])
  else ({ e with committed := (takeLine n.toNat e.committed).2 },
    (takeLine n.toNat e.committed).1)

/-- A read of `n` characters need not wait. -/
def Ready (e : Editor) (n : ℤ) : Prop :=
  newline ∈ e.committed ∨ ctrlD ∈ e.committed ∨ n ≤ e.committed.length

instance (e : Editor) (n : ℤ) : Decidable (e.Ready n) := inferInstanceAs (Decidable (_ ∨ _ ∨ _))

end Editor

/-! ## Sequences -/

/-- What happens at the console. -/
inductive Event
  | key (c : UInt8)
  | read (n : ℤ)

/-- The console, and what each read returns and stores. -/
def runConsole : Console → List Event → Option (Console × List (ℤ × List UInt8))
  | d, [] => some (d, [])
  | d, .key c :: l => runConsole (d.intr c).1 l
  | d, .read n :: l =>
    match consoleRead d n with
    | none => none
    | some (d, r) => (runConsole d l).map fun x => (x.1, r :: x.2)

/-- The editor, and what each read returns. -/
def runEditor : Editor → List Event → Editor × List (List UInt8)
  | e, [] => (e, [])
  | e, .key c :: l => runEditor (e.key c) l
  | e, .read n :: l =>
    let r := e.read n
    ((runEditor r.1 l).1, r.2 :: (runEditor r.1 l).2)

/-- Neither `Ctrl-C` nor `Ctrl-X` is typed, every read is of an `int` and need not wait. -/
def Allowed : Editor → List Event → Prop
  | _, [] => True
  | e, .key c :: l => c ≠ ctrlC ∧ c ≠ ctrlX ∧ Allowed (e.key c) l
  | e, .read n :: l => -2 ^ 31 ≤ n ∧ n < 2 ^ 31 ∧ e.Ready n ∧ Allowed (e.read n).1 l

instance decidableAllowed : ∀ (e : Editor) (l : List Event), Decidable (Allowed e l)
  | _, [] => isTrue trivial
  | e, .key c :: l =>
    have := decidableAllowed (e.key c) l
    inferInstanceAs (Decidable (_ ∧ _ ∧ _))
  | e, .read n :: l =>
    have := decidableAllowed (e.read n).1 l
    inferInstanceAs (Decidable (_ ∧ _ ∧ _ ∧ _))

/-! ## The console stands for the editor -/

/-- The ring holds what is committed and what is pending from position `r` on, and the indices
    count the positions. -/
structure Shows (d : Console) (r : ℕ) (e : Editor) : Prop where
  ring : Holds d.buf ibufSize r (e.committed ++ e.pending)
  readIdx : d.readIdx = BitVec.ofNat 64 r
  writeIdx : d.writeIdx = BitVec.ofNat 64 (r + e.committed.length)
  editIdx : d.editIdx = BitVec.ofNat 64 (r + e.committed.length + e.pending.length)
  pending : newline ∉ e.pending

theorem ibufSize_dvd : ibufSize ∣ 2 ^ 64 := by decide

variable {d : Console} {e : Editor} {r : ℕ} {l : List UInt8} {x c : UInt8}

theorem shows_initConsole : Shows initConsole 0 ⟨[], []⟩ :=
  ⟨holds_nil, rfl, rfl, rfl, List.not_mem_nil⟩

theorem Shows.length_le (h : Shows d r e) : e.committed.length + e.pending.length ≤ 128 := by
  have := h.ring.1
  rwa [List.length_append] at this

theorem Shows.read_eq_write (h : Shows d r e) : d.readIdx = d.writeIdx ↔ e.committed = [] := by
  have := h.length_le
  rw [h.readIdx, h.writeIdx, ofNat_inj_of_le (by omega) (by omega), ← List.length_eq_zero_iff]
  omega

theorem Shows.edit_eq_write (h : Shows d r e) : d.editIdx = d.writeIdx ↔ e.pending = [] := by
  have := h.length_le
  rw [h.editIdx, h.writeIdx, eq_comm, ofNat_inj_of_le (by omega) (by omega),
    ← List.length_eq_zero_iff]
  omega

theorem Shows.pending_length (h : Shows d r e) :
    (d.editIdx - d.writeIdx).toNat = e.pending.length := by
  have := h.length_le
  rw [h.editIdx, h.writeIdx, toNat_ofNat_sub (by omega) (by omega)]
  omega

theorem Shows.used (h : Shows d r e) :
    (d.editIdx - d.readIdx).toNat = e.length := by
  have := h.length_le
  unfold Editor.length
  rw [h.editIdx, h.readIdx, toNat_ofNat_sub (by omega) (by omega)]
  omega

/-! ### Editing -/

/-- The last pending character is in the cell before `edit_idx` and is removed by `erase`. -/
theorem Shows.erase (h : Shows d r ⟨l, e.pending ++ [x]⟩) :
    d.buf ((d.editIdx - 1).toNat % ibufSize) = x ∧ x ≠ newline ∧ Shows d.erase r ⟨l, e.pending⟩ := by
  obtain ⟨hring, hr, hw, he, hp⟩ := h
  dsimp only at hring hw he hp
  rw [← List.append_assoc] at hring
  rw [List.length_append, List.length_singleton, ← Nat.add_assoc] at he
  obtain ⟨hring, hx⟩ := hring.concat
  rw [List.length_append, ← Nat.add_assoc] at hx
  have hpred : d.editIdx - 1 = BitVec.ofNat 64 (r + l.length + e.pending.length) := by
    rw [he, ofNat_succ_sub_one]
  refine ⟨?_, ?_, hring, hr, hw, hpred, fun hm => hp (List.mem_append_left [x] hm)⟩
  · rw [hpred, ofNat_toNat_mod ibufSize_dvd, hx]
  · rintro rfl
    exact hp (List.mem_append_right e.pending List.mem_cons_self)

theorem Shows.edit_ne_write (h : Shows d r ⟨l, e.pending ++ [x]⟩) : d.editIdx ≠ d.writeIdx :=
  fun he => List.append_ne_nil_of_right_ne_nil e.pending (List.cons_ne_nil x []) (h.edit_eq_write.mp he)

/-- `Ctrl-U` removes all that is pending. -/
theorem Shows.killLine (h : Shows d r e) :
    Shows (Console.killLine e.pending.length d) r ⟨e.committed, []⟩ := by
  obtain ⟨l, p⟩ := e
  induction p using List.reverseRecOn generalizing d with
  | nil => exact h
  | append_singleton p x ih =>
    have hne := Shows.edit_ne_write (e := ⟨l, p⟩) h
    obtain ⟨hx, hnl, h'⟩ := Shows.erase (e := ⟨l, p⟩) h
    rw [List.length_append, List.length_singleton, Console.killLine, hx, if_pos ⟨hne, hnl⟩]
    exact ih h'

/-- Backspace removes the last pending character. -/
theorem Shows.back (h : Shows d r e) :
    Shows (if d.editIdx ≠ d.writeIdx then d.erase else d) r ⟨e.committed, e.pending.dropLast⟩ := by
  obtain ⟨l, p⟩ := e
  rcases List.eq_nil_or_concat p with rfl | ⟨p, x, hx⟩
  · rw [if_neg (not_not_intro (h.edit_eq_write.mpr rfl))]
    exact h
  · rw [List.concat_eq_append] at hx
    subst hx
    rw [if_pos (Shows.edit_ne_write (e := ⟨l, p⟩) h), List.dropLast_concat]
    exact (Shows.erase (e := ⟨l, p⟩) h).2.2

theorem Shows.out (h : Shows d r e) (o : List UInt8) : Shows { d with out := o } r e :=
  ⟨h.ring, h.readIdx, h.writeIdx, h.editIdx, h.pending⟩

/-- A character that is not a newline becomes pending. -/
theorem Shows.append (h : Shows d r e) (hlt : e.length < ibufSize) :
    Holds (Function.update d.buf (d.editIdx.toNat % ibufSize) c) ibufSize r
        (e.committed ++ (e.pending ++ [c])) ∧
      d.editIdx + 1 = BitVec.ofNat 64 (r + (e.committed ++ (e.pending ++ [c])).length) := by
  have hlen : r + e.committed.length + e.pending.length = r + (e.committed ++ e.pending).length := by
    rw [List.length_append, Nat.add_assoc]
  constructor
  · rw [h.editIdx, ofNat_toNat_mod ibufSize_dvd, hlen, ← List.append_assoc]
    exact h.ring.push (by rwa [List.length_append])
  · have hc : (e.committed ++ e.pending ++ [c]).length = (e.committed ++ e.pending).length + 1 := by
      rw [List.length_append, List.length_singleton]
    rw [h.editIdx, ofNat_succ, hlen, ← List.append_assoc, hc]
    rfl

theorem Shows.insert (h : Shows d r e) (hlt : e.length < ibufSize) :
    Shows (d.insert c).1 r (e.insert c) := by
  unfold Console.insert Editor.insert
  generalize (if c = ret then newline else c) = c
  obtain ⟨hring, hedit⟩ := h.append (c := c) hlt
  have hle := hring.1
  dsimp only [Console.consputc]
  -- the code compares the counters, the editor the lengths
  have hcommits : ∀ d' : Console, d'.editIdx = d.editIdx + 1 → d'.readIdx = d.readIdx →
      (d'.commits c = true ↔ c = newline ∨ c = ctrlD ∨
        (e.committed ++ (e.pending ++ [c])).length = ibufSize) := by
    intro d' he hr
    unfold Console.commits
    rw [he, hr, hedit, h.readIdx, ofNat_sub_ofNat (by omega), Nat.add_sub_cancel_left]
    simp only [Bool.or_eq_true, beq_iff_eq, or_assoc]
    rw [ofNat_inj_of_le hle (by unfold ibufSize; omega)]
  by_cases hc : c = newline ∨ c = ctrlD ∨
      (e.committed ++ (e.pending ++ [c])).length = ibufSize
  · rw [if_pos ((hcommits _ (by rfl) (by rfl)).mpr hc), if_pos hc]
    refine ⟨?_, h.readIdx, hedit, hedit, List.not_mem_nil⟩
    rw [List.append_nil]
    exact hring
  · rw [if_neg fun hd => hc ((hcommits _ (by rfl) (by rfl)).mp hd), if_neg hc]
    refine ⟨hring, h.readIdx, h.writeIdx, ?_, fun hm => ?_⟩
    · dsimp only
      rw [hedit, List.length_append, Nat.add_assoc]
    · rw [List.mem_append, List.mem_singleton] at hm
      exact hm.elim h.pending fun e => hc (.inl e.symm)

/-- A character does to the console what it does to the editor. -/
theorem Shows.key (h : Shows d r e) (hC : c ≠ ctrlC) (hX : c ≠ ctrlX) :
    Shows (d.intr c).1 r (e.key c) := by
  have hback := h.back
  unfold Console.intr Editor.key
  rw [if_neg hC, if_neg hX, h.used]
  by_cases hU : c = ctrlU
  · rw [if_pos hU, if_pos hU, h.pending_length]
    exact h.killLine
  rw [if_neg hU, if_neg hU]
  by_cases hH : c = ctrlH ∨ c = delete
  · rw [if_pos hH, if_pos hH]
    split_ifs at hback ⊢ with hne
    · exact hback
    · exact hback
  rw [if_neg hH, if_neg hH]
  split_ifs with hlt
  · exact h.insert hlt.2
  · exact h

/-! ### Reading -/

/-- A committed character is read. -/
theorem Shows.advance (h : Shows d r ⟨c :: l, e.pending⟩) :
    d.peek = c ∧ d.readIdx ≠ d.writeIdx ∧ Shows d.advance (r + 1) ⟨l, e.pending⟩ := by
  have hne : d.readIdx ≠ d.writeIdx := fun he => List.cons_ne_nil c l (h.read_eq_write.mp he)
  obtain ⟨hring, hr, hw, he, hp⟩ := h
  have hpop := Holds.pop hring
  dsimp only [List.length_cons] at hw he
  refine ⟨?_, hne, hpop.2, ?_, ?_, ?_, hp⟩
  · unfold Console.peek
    rw [hr, ofNat_toNat_mod ibufSize_dvd]
    exact hpop.1
  · show d.readIdx + 1 = _
    rw [hr, ofNat_succ]
  · show d.writeIdx = _
    rw [hw]
    congr 1
    dsimp only
    omega
  · show d.editIdx = _
    rw [he]
    congr 1
    dsimp only
    omega

/-- The loops of `console_read` behind a first character, or when no `Ctrl-D` comes first. -/
theorem readLoop_eq {target : ℤ} {n : ℕ} {dst : List UInt8} (h : Shows d r e)
    (hn : (n : ℤ) ≤ target) (hD : (n : ℤ) < target ∨ e.committed.head? ≠ some ctrlD)
    (hready : e.Ready n) : ∃ d' r', Shows d' r' ⟨(Editor.takeLine n e.committed).2, e.pending⟩ ∧
      r' + (Editor.takeLine n e.committed).2.length = r + e.committed.length ∧
      readLoop target n d dst = .done d' (dst ++ (Editor.takeLine n e.committed).1) := by
  obtain ⟨l, p⟩ := e
  induction n generalizing d r l dst with
  | zero =>
    refine ⟨d, r, h, rfl, ?_⟩
    rw [readLoop, Editor.takeLine, List.append_nil]
  | succ n ih =>
    cases l with
    | nil =>
      unfold Editor.Ready at hready
      simp only [List.not_mem_nil, List.length_nil, false_or] at hready
      omega
    | cons c l =>
      obtain ⟨hpeek, hne, hadv⟩ := Shows.advance (e := ⟨l, p⟩) h
      unfold readLoop Editor.takeLine
      dsimp only
      rw [if_neg hne, hpeek]
      by_cases hc : c = ctrlD
      · have hlt : ((n + 1 : ℕ) : ℤ) < target := by
          refine hD.resolve_right fun hD => hD ?_
          rw [hc]
          rfl
        push_cast at hlt
        rw [if_pos hc, if_pos hc, if_pos hlt]
        exact ⟨d, r, h, rfl, by rw [List.append_nil]⟩
      rw [if_neg hc, if_neg hc]
      by_cases hnl : c = newline
      · rw [if_pos hnl, if_pos hnl]
        exact ⟨d.advance, r + 1, hadv, by dsimp only [List.length_cons]; omega, rfl⟩
      rw [if_neg hnl, if_neg hnl]
      push_cast at hn
      have hready' : Editor.Ready ⟨l, p⟩ n := by
        unfold Editor.Ready at hready ⊢
        simp only [List.mem_cons, List.length_cons] at hready ⊢
        rcases hready with hm | hm | hm
        · exact .inl (hm.resolve_left fun e => hnl e.symm)
        · exact .inr (.inl (hm.resolve_left fun e => hc e.symm))
        · exact .inr (.inr (by push_cast at hm; omega))
      obtain ⟨d', r', hd', hr', hloop⟩ := ih (by omega) l hadv (.inl (by omega)) hready'
      refine ⟨d', r', hd', by dsimp only [List.length_cons] at hr' ⊢; omega, ?_⟩
      rw [hloop, List.append_assoc]
      rfl

theorem intOf_eq {n : ℤ} (hlo : -2 ^ 31 ≤ n) (hhi : n < 2 ^ 31) : intOf n = n := by
  unfold intOf
  rw [Int.bmod_eq_of_le (by norm_num at hlo ⊢; omega) (by norm_num at hhi ⊢; omega)]

/-- A read that need not wait returns what the editor returns. -/
theorem consoleRead_eq {n : ℤ} (h : Shows d r e) (hlo : -2 ^ 31 ≤ n) (hhi : n < 2 ^ 31)
    (hready : e.Ready n) : ∃ d' r', Shows d' r' (e.read n).1 ∧
      r' + (e.read n).1.length = r + e.length ∧
      consoleRead d n = some (d', ((e.read n).2.length : ℤ), (e.read n).2) := by
  unfold consoleRead Editor.read
  rw [intOf_eq hlo hhi]
  by_cases hD : 0 < n ∧ e.committed.head? = some ctrlD
  · -- the reader takes the `Ctrl-D` and has read nothing
    obtain ⟨l, p⟩ := e
    obtain ⟨hpos, hhead⟩ := hD
    obtain ⟨l, rfl⟩ : ∃ l', l = ctrlD :: l' := List.head?_eq_some_iff.mp hhead
    obtain ⟨hpeek, hne, hadv⟩ := Shows.advance (e := ⟨l, p⟩) h
    obtain ⟨m, hm⟩ : ∃ m, n.toNat = m + 1 := ⟨n.toNat - 1, by omega⟩
    refine ⟨d.advance, r + 1, ?_, ?_, ?_⟩
    · rw [if_pos ⟨hpos, hhead⟩]
      exact hadv
    · rw [if_pos ⟨hpos, hhead⟩]
      unfold Editor.length
      simp only [List.tail_cons, List.length_cons]
      omega
    · rw [if_pos ⟨hpos, hhead⟩, hm, readLoop, if_neg hne]
      dsimp only
      rw [if_pos hpeek, if_neg (by omega)]
      simp
  · rw [if_neg hD]
    by_cases hpos : 0 < n
    · have hn : (n.toNat : ℤ) = n := Int.toNat_of_nonneg hpos.le
      obtain ⟨d', r', hd', hr', hloop⟩ := readLoop_eq h hn.le
        (.inr fun hhead => hD ⟨hpos, hhead⟩) (by rwa [hn])
      refine ⟨d', r', hd', by unfold Editor.length; dsimp only; omega, ?_⟩
      rw [hloop]
      dsimp only
      rw [List.nil_append, sub_sub_cancel]
    · have h0 : n.toNat = 0 := by omega
      refine ⟨d, r, ?_, ?_, ?_⟩
      · rw [h0]
        exact h
      · rw [h0]
        rfl
      · rw [h0, readLoop, Editor.takeLine]
        dsimp only
        rw [List.length_nil, sub_sub_cancel]

/-! ## Results -/

/-- What a read returns: the number of characters, and the characters. -/
def results (outs : List (List UInt8)) : List (ℤ × List UInt8) :=
  outs.map fun o => ((o.length : ℤ), o)

/-- The indices count positions in their order, at most `IBUF_SIZE` apart; `k` characters have
    been typed. -/
def IndicesOk (d : Console) (k : ℕ) : Prop :=
  ∃ r w e : ℕ, d.readIdx = BitVec.ofNat 64 r ∧ d.writeIdx = BitVec.ofNat 64 w ∧
    d.editIdx = BitVec.ofNat 64 e ∧ r ≤ w ∧ w ≤ e ∧ e ≤ r + ibufSize ∧ e ≤ k

/-- The indices themselves are in their order. -/
def InOrder (d : Console) : Prop :=
  d.readIdx.toNat ≤ d.writeIdx.toNat ∧ d.writeIdx.toNat ≤ d.editIdx.toNat ∧
    d.editIdx.toNat ≤ d.readIdx.toNat + ibufSize

theorem Shows.indicesOk {k : ℕ} (h : Shows d r e) (hk : r + e.length ≤ k) : IndicesOk d k := by
  have := h.length_le
  unfold Editor.length at hk
  refine ⟨r, _, _, h.readIdx, h.writeIdx, h.editIdx, by omega, by omega, ?_, by omega⟩
  unfold ibufSize
  omega

/-- As long as no more characters are typed than the indices can count, they are in order. -/
theorem IndicesOk.inOrder {k : ℕ} (h : IndicesOk d k) (hk : k < 2 ^ 64) : InOrder d := by
  obtain ⟨r, w, e, hr, hw, he, hrw, hwe, her, hek⟩ := h
  unfold InOrder
  rw [hr, hw, he, BitVec.toNat_ofNat, BitVec.toNat_ofNat, BitVec.toNat_ofNat,
    Nat.mod_eq_of_lt (by omega), Nat.mod_eq_of_lt (by omega), Nat.mod_eq_of_lt (by omega)]
  exact ⟨hrw, hwe, her⟩

theorem length_insert (e : Editor) (c : UInt8) : (e.insert c).length = e.length + 1 := by
  unfold Editor.insert Editor.length
  generalize (if c = ret then newline else c) = c
  dsimp only
  split_ifs
  · simp only [List.length_append, List.length_singleton, List.length_nil]
    omega
  · simp only [List.length_append, List.length_singleton]
    omega

/-- A character makes the editor hold at most one more. -/
theorem length_key (e : Editor) (c : UInt8) : (e.key c).length ≤ e.length + 1 := by
  unfold Editor.key
  split_ifs
  · unfold Editor.length
    simp only [List.length_nil]
    omega
  · unfold Editor.length
    simp only [List.length_dropLast]
    omega
  · exact (length_insert e c).le
  · omega

/-- The characters typed. -/
def typed : List Event → ℕ
  | [] => 0
  | .key _ :: l => typed l + 1
  | .read _ :: l => typed l

/-- A sequence of characters and reads does the same to the console and to the editor. -/
theorem runConsole_eq {l : List Event} (h : Shows d r e) (hl : Allowed e l) :
    ∃ d' r', Shows d' r' (runEditor e l).1 ∧
      r' + (runEditor e l).1.length ≤ r + e.length + typed l ∧
      runConsole d l = some (d', results (runEditor e l).2) := by
  induction l generalizing d r e with
  | nil => exact ⟨d, r, h, le_rfl, rfl⟩
  | cons a l ih =>
    cases a with
    | key c =>
      obtain ⟨hC, hX, hl⟩ := hl
      obtain ⟨d', r', hd', hlen, hrun⟩ := ih (h.key hC hX) hl
      refine ⟨d', r', hd', ?_, hrun⟩
      have := length_key e c
      unfold typed runEditor
      omega
    | read n =>
      obtain ⟨hlo, hhi, hready, hl⟩ := hl
      obtain ⟨d₁, r₁, hd₁, hr₁, hread⟩ := consoleRead_eq h hlo hhi hready
      obtain ⟨d', r', hd', hlen, hrun⟩ := ih hd₁ hl
      refine ⟨d', r', hd', ?_, ?_⟩
      · unfold typed runEditor
        dsimp only
        omega
      · rw [runConsole, hread]
        dsimp only
        rw [hrun]
        rfl

/-- The editor at the start. -/
def initEditor : Editor := ⟨[], []⟩

/-- The reads return what the editor returns, and the indices are running counters in order. -/
theorem console_refines_editor {l : List Event} (h : Allowed initEditor l) :
    ∃ d, runConsole initConsole l = some (d, results (runEditor initEditor l).2) ∧
      IndicesOk d (typed l) ∧ (typed l < 2 ^ 64 → InOrder d) := by
  obtain ⟨d, r, hd, hlen, hrun⟩ := runConsole_eq shows_initConsole h
  have hidx : IndicesOk d (typed l) := hd.indicesOk (by
    have : Editor.length ⟨[], []⟩ = 0 := rfl
    omega)
  exact ⟨d, hrun, hidx, hidx.inOrder⟩

/-- `a`, delete, `b`, `Ctrl-D`: a read gets the `b`, and the next one the end of the input. -/
def typeAndRead : List Event :=
  [.key 97, .key delete, .key 98, .key ctrlD, .read 5, .read 5]

theorem console_refines_editor_ctrlD : ∃ d,
    runConsole initConsole typeAndRead = some (d, [(1, [98]), (0, [])]) ∧
      IndicesOk d 4 ∧ (4 < 2 ^ 64 → InOrder d) :=
  console_refines_editor (l := typeAndRead) (by decide)

/-- A newline is typed and read, `k` times. -/
def lines : ℕ → List Event
  | 0 => []
  | k + 1 => .key newline :: .read 1 :: lines k

theorem allowed_lines (k : ℕ) : Allowed initEditor (lines k ++ [.key newline]) := by
  induction k with
  | zero => decide
  | succ k ih => exact ⟨by decide, by decide, by decide, by decide, by decide, ih⟩

/-- Every round moves the indices on by one. -/
theorem runConsole_lines (k : ℕ) (h : Shows d r initEditor) : ∃ d' outs,
    runConsole d (lines k ++ [.key newline]) = some (d', outs) ∧
      Shows d' (r + k) ⟨[newline], []⟩ := by
  induction k generalizing d r with
  | zero => exact ⟨_, _, rfl, h.key (c := newline) (by decide) (by decide)⟩
  | succ k ih =>
    obtain ⟨d₁, r₁, hd₁, hr₁, hread⟩ := consoleRead_eq (n := 1)
      (h.key (c := newline) (by decide) (by decide)) (by decide) (by decide) (by decide)
    obtain rfl : r₁ = r + 1 := hr₁
    obtain ⟨d', outs, hrun, hd'⟩ := ih hd₁
    refine ⟨d', (1, [newline]) :: outs, ?_, ?_⟩
    · rw [lines, List.cons_append, List.cons_append, runConsole, runConsole, hread]
      dsimp only
      rw [hrun]
      rfl
    · rwa [Nat.add_assoc, Nat.add_comm 1 k] at hd'

/-- With the last of `2 ^ 64` newlines `write_idx` wraps around and `read_idx` has not yet. -/
theorem console_indices_wrap : ¬ ∀ l, Allowed initEditor l →
    ∃ d, runConsole initConsole l = some (d, results (runEditor initEditor l).2) ∧ InOrder d := by
  intro h
  obtain ⟨d, hrun, horder⟩ := h _ (allowed_lines (2 ^ 64 - 1))
  obtain ⟨d', outs, hrun', hshow⟩ := runConsole_lines (2 ^ 64 - 1) shows_initConsole
  rw [hrun] at hrun'
  obtain ⟨rfl, -⟩ := Prod.mk.inj (Option.some.inj hrun')
  have hle := horder.1
  rw [hshow.readIdx, hshow.writeIdx, BitVec.toNat_ofNat, BitVec.toNat_ofNat] at hle
  norm_num at hle

end ShikiOS.Kernel.Tty
