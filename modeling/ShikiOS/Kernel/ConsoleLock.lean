import ShikiOS.Common.Sem
import ShikiOS.Kernel.Console
import ShikiOS.Lib.Monitor

/-!
# The console among processes (`kernel/console.c`)

Any number of processes call `console_read` and `console_write` with the lock of an inode, and
interrupts call `console_intr`. A step goes from one acquisition or release of `cons.lock`, post
or wait to the next. An interrupt acts as a process of its own.

A reader that finds nothing lets `cons.lock` go, sleeps and tests again after it was woken,
without taking the lock again (lines 66-74).

Results:
* `console_ok`: as long as no reader lets the lock go to sleep, or fails with characters that it
  has taken, the console is only worked on by the holder of its lock, the reads return the
  committed characters once and in order, and both functions return with the lock of the inode.
* `console_broken`: a run in which a woken reader works on the console during an interrupt.
-/

namespace ShikiOS.Kernel.Tty.Locked

open ShikiOS.Lib RingBuffer

/-! ## Model -/

/-- The console with its semaphore and the sleep locks of the inodes. The rest is only recorded:
    the processes that have the lock of each inode, the characters that have been committed and
    that reads have stored since the last `Ctrl-C`, and those that reads had stored that failed. -/
structure Cons where
  cons : Console
  sem : Sem ℕ
  lock : ℕ → Sem ℕ
  holders : ℕ → List ℕ
  stream : List UInt8
  stored : List UInt8
  lost : List UInt8

/-- After `console_init`. -/
def initCons : Cons where
  cons := initConsole
  sem := .init 0
  lock := fun _ => .init 1
  holders := fun _ => []
  stream := []
  stored := []
  lost := []

/-- The points of the code. -/
inductive Pc
  /-- `console_read`: before line 61, before line 62, and in lines 64-88 with `n` characters
      wanted and `dst` read. -/
  | read (ip : ℕ) (n : ℤ)
  | readLock (ip : ℕ) (n : ℤ)
  | readLoop (ip : ℕ) (size : ℤ) (n : ℕ) (dst : List UInt8)
  | readFail (ip : ℕ) (dst : List UInt8)
  | readUnlock (ip : ℕ) (size : ℤ) (n : ℕ) (dst : List UInt8)
  | readWait (ip : ℕ) (size : ℤ) (n : ℕ) (dst : List UInt8)
  | readAsleep (ip : ℕ) (size : ℤ) (n : ℕ) (dst : List UInt8)
  | readRelease (ip : ℕ) (r : ℤ) (dst : List UInt8)
  /-- `console_write`: before lines 41, 42, 43 and 46. -/
  | write (ip : ℕ) (buf : ℕ → UInt8) (n : ℤ)
  | writeLock (ip : ℕ) (buf : ℕ → UInt8) (n : ℤ)
  | writeOut (ip : ℕ) (buf : ℕ → UInt8) (n : ℤ)
  | writeRelease (ip : ℕ) (n : ℤ)
  /-- Before `inodes.lock(ip)` (lines 69, and 47 and 91), and asleep in it. -/
  | relockFail (ip : ℕ) (dst : List UInt8)
  | relock (ip : ℕ) (r : ℤ) (dst : List UInt8)
  | relockAsleep (ip : ℕ) (r : ℤ) (dst : List UInt8)
  /-- `console_intr`: before lines 101, 102, 139 and 144. -/
  | intr (c : UInt8)
  | intrEdit (c : UInt8)
  | intrPost
  | intrRelease
  /-- `inodes.lock` and `inodes.unlock`, which the callers make. -/
  | lockInode (ip : ℕ)
  | lockAsleep (ip : ℕ)
  | unlockInode (ip : ℕ)
  /-- The call returns. -/
  | returned (ip : ℕ) (r : ℤ) (dst : List UInt8)
  | done

namespace Cons

/-- The characters between the old and the new `write_idx`. -/
def committed (d d' : Console) : List UInt8 :=
  (List.range (d'.writeIdx - d.writeIdx).toNat).map fun i =>
    d'.buf ((d.writeIdx.toNat + i) % ibufSize)

/-- Lines 102-143 of `console_intr`. -/
def intrEdit (d : Cons) (c : UInt8) : Cons × Pc :=
  let r := d.cons.intr c
  if c = ctrlC then ({ d with cons := r.1, stream := [], stored := [] }, .intrRelease)
  else ({ d with cons := r.1, stream := d.stream ++ committed d.cons r.1 },
    if r.2 then .intrPost else .intrRelease)

/-- `console_read` in its loops, up to where it lets the lock go. -/
def readLoop (killed : Bool) (d : Cons) (ip : ℕ) (size : ℤ) (n : ℕ) (dst : List UInt8) :
    Cons × Pc :=
  match Tty.readLoop (intOf size) n d.cons dst with
  | .done cons dst' =>
    ({ d with cons := cons, stored := d.stored ++ dst'.drop dst.length },
      .readRelease ip (intOf size - (size - dst'.length)) dst')
  | .empty cons n dst' =>
    ({ d with cons := cons, stored := d.stored ++ dst'.drop dst.length },
      if killed then .readFail ip dst' else .readUnlock ip size n dst')

/-- Lines 43-45 of `console_write`. -/
def writeOut (d : Cons) (buf : ℕ → UInt8) (n : ℤ) : Cons :=
  { d with cons := (List.range n.toNat).foldl (fun c i => c.consputc (buf i)) d.cons }

/-- Process `p` has got the lock of the inode. -/
def hold (d : Cons) (p ip : ℕ) : Cons :=
  { d with holders := Function.update d.holders ip (p :: d.holders ip) }

/-- `inodes.lock(ip)` up to `sched`. -/
def lockInode (d : Cons) (p ip : ℕ) (go sleep : Pc) : Cons × Pc :=
  match (d.lock ip).down p with
  | (s, true) => ({ d with lock := Function.update d.lock ip s }.hold p ip, go)
  | (s, false) => ({ d with lock := Function.update d.lock ip s }, sleep)

/-- The rest of `inodes.lock(ip)` when the process has been woken. -/
def lockWoken (d : Cons) (p ip : ℕ) (go : Pc) : Option (Cons × Pc) :=
  if p ∈ (d.lock ip).sleeplist then none else some (d.hold p ip, go)

/-- `inodes.unlock(ip)`. -/
def unlockInode (d : Cons) (p ip : ℕ) (go : Pc) : Option (Cons × Pc) :=
  match (d.lock ip).post with
  | some (s, _) =>
    some ({ d with lock := Function.update d.lock ip s,
                   holders := Function.update d.holders ip ((d.holders ip).erase p) }, go)
  | none => none

end Cons

/-- The code. The answer says whether the process has been killed. -/
def code : Pc → MonitorOp Cons Bool Pc
  | .read ip n => .act fun p _ d => d.unlockInode p ip (.readLock ip n)
  | .readLock ip n => .acquire (.readLoop ip n n.toNat [])
  | .readLoop ip size n dst => .access fun _ killed d => some (d.readLoop killed ip size n dst)
  | .readFail ip dst => .release (.relockFail ip dst)
  | .readUnlock ip size n dst => .release (.readWait ip size n dst)
  | .readWait ip size n dst => .act fun p _ d =>
    match d.sem.down p with
    | (s, true) => some ({ d with sem := s }, .readLoop ip size n dst)
    | (s, false) => some ({ d with sem := s }, .readAsleep ip size n dst)
  | .readAsleep ip size n dst => .act fun p _ d =>
    if p ∈ d.sem.sleeplist then none else some (d, .readLoop ip size n dst)
  | .readRelease ip r dst => .release (.relock ip r dst)
  | .write ip buf n => .act fun p _ d => d.unlockInode p ip (.writeLock ip buf n)
  | .writeLock ip buf n => .acquire (.writeOut ip buf n)
  | .writeOut ip buf n => .access fun _ _ d => some (d.writeOut buf n, .writeRelease ip n)
  | .writeRelease ip n => .release (.relock ip n [])
  | .relockFail ip dst => .act fun p _ d =>
    some ({ d with lost := d.lost ++ dst }.lockInode p ip (.returned ip (-1) [])
      (.relockAsleep ip (-1) []))
  | .relock ip r dst => .act fun p _ d =>
    some (d.lockInode p ip (.returned ip r dst) (.relockAsleep ip r dst))
  | .relockAsleep ip r dst => .act fun p _ d => d.lockWoken p ip (.returned ip r dst)
  | .intr c => .acquire (.intrEdit c)
  | .intrEdit c => .access fun _ _ d => some (d.intrEdit c)
  | .intrPost => .act fun _ _ d =>
    match d.sem.postAll with
    | some (s, _) => some ({ d with sem := s }, .intrRelease)
    | none => none
  | .intrRelease => .release .done
  | .lockInode ip => .act fun p _ d => some (d.lockInode p ip .done (.lockAsleep ip))
  | .lockAsleep ip => .act fun p _ d => d.lockWoken p ip .done
  | .unlockInode ip => .act fun p _ d => d.unlockInode p ip .done
  | .returned _ _ _ | .done => .ret

/-- The calls. -/
inductive Call
  | consoleRead (ip : ℕ) (n : ℤ)
  | consoleWrite (ip : ℕ) (buf : ℕ → UInt8) (n : ℤ)
  | consoleIntr (c : UInt8)
  | lockInode (ip : ℕ)
  | unlockInode (ip : ℕ)

def start : Call → Pc
  | .consoleRead ip n => .read ip n
  | .consoleWrite ip buf n => .write ip buf n
  | .consoleIntr c => .intr c
  | .lockInode ip => .lockInode ip
  | .unlockInode ip => .unlockInode ip

/-- A process reads and writes with the lock of the inode, which it has taken once. -/
def may (d : Cons) (p : ℕ) : Call → Bool
  | .consoleRead ip _ | .consoleWrite ip _ _ | .unlockInode ip => p ∈ d.holders ip
  | .consoleIntr _ => true
  | .lockInode ip => p ∉ d.holders ip

/-- The processes at the console. -/
def console : Monitor Cons Bool Pc Call := ⟨code, start, may⟩

/-! ## What is claimed of it -/

/-- The points where a process should have `cons.lock`. -/
def inside : Pc → Bool
  | .readLoop _ _ _ _ | .readFail _ _ | .readUnlock _ _ _ _ | .readWait _ _ _ _
  | .readAsleep _ _ _ _ | .readRelease _ _ _ | .writeOut _ _ _ | .writeRelease _ _
  | .intrEdit _ | .intrPost | .intrRelease => true
  | _ => false

/-- The release before the wait of `console_read` (line 72), and that of a killed reader that
    has taken characters (line 68). -/
def releaseToSleep : Pc → Bool
  | .readUnlock _ _ _ _ => true
  | .readFail _ dst => !dst.isEmpty
  | _ => false

/-- A reader that sleeps on `cons.sem` and has not been woken. -/
def ReaderAsleep (s : MonitorState Cons Pc) (p : ℕ) : Prop :=
  (∃ ip size n dst, s.pc p = some (.readAsleep ip size n dst)) ∧ p ∈ s.data.sem.sleeplist

/-- Some process other than `p` is in a call and does not sleep on `cons.sem`, or has been
    woken. -/
def OtherActive (s : MonitorState Cons Pc) (p : ℕ) : Prop :=
  ∃ q, q ≠ p ∧ s.pc q ≠ none ∧ ¬ ReaderAsleep s q

/-- What the reads have stored since the last `Ctrl-C` is what has been committed before
    `read_idx`, without the `Ctrl-D`s, and no failed read had stored anything. -/
def Delivered (d : Cons) : Prop :=
  d.lost = [] ∧ ∃ taken left, d.stream = taken ++ left ∧
    d.cons.readIdx = BitVec.ofNat 64 taken.length ∧ d.stored = taken.filter (· ≠ ctrlD)

/-- Only the holder of the lock has worked on the console and let the lock go, every committed
    character is delivered once, nobody sleeps for ever, and a call returns with the lock of its
    inode. -/
structure Ok (s : MonitorState Cons Pc) : Prop where
  access : s.badAccess = false
  release : s.badRelease = false
  delivered : Delivered s.data
  reader : ∀ p, ReaderAsleep s p → s.data.cons.readIdx ≠ s.data.cons.writeIdx → OtherActive s p
  inode : ∀ p ip r dst, s.pc p = some (.returned ip r dst) → p ∈ s.data.holders ip

/-! ## The characters -/

variable {d d' : Console} {e e' : Editor} {r : ℕ} {l : List UInt8} {c : UInt8}

/-- The characters that become committed are those between the write indices. -/
theorem committed_eq (h : Shows d r e) (h' : Shows d' r e') (hl : e'.committed = e.committed ++ l) :
    Cons.committed d d' = l := by
  have hle := h'.length_le
  have hlen : e'.committed.length = e.committed.length + l.length := by
    rw [hl, List.length_append]
  have hcount : (d'.writeIdx - d.writeIdx).toNat = l.length := by
    rw [h'.writeIdx, h.writeIdx, toNat_ofNat_sub (by omega) (by omega)]
    omega
  refine List.ext_getElem ?_ fun i hi _ => ?_
  · rw [Cons.committed, List.length_map, List.length_range, hcount]
  · rw [Cons.committed, List.length_map, List.length_range, hcount] at hi
    have hcell := h'.ring.2 (e.committed.length + i) (by rw [List.length_append]; omega)
    have hpos : (d.writeIdx.toNat + i) % ibufSize = (r + (e.committed.length + i)) % ibufSize := by
      rw [Nat.add_mod, h.writeIdx, ofNat_toNat_mod ibufSize_dvd, ← Nat.add_mod, Nat.add_assoc]
    simp only [Cons.committed, List.getElem_map, List.getElem_range]
    rw [hpos, hcell]
    simp only [hl, List.append_assoc]
    rw [List.getElem_append_right (by omega), List.getElem_append_left (by omega)]
    congr 1
    omega

/-- A character only adds to what is committed. -/
theorem key_committed (e : Editor) (c : UInt8) : ∃ l, (e.key c).committed = e.committed ++ l := by
  have hself : ∃ l, e.committed = e.committed ++ l := ⟨[], (List.append_nil _).symm⟩
  unfold Editor.key Editor.insert
  dsimp only
  split_ifs
  all_goals first
    | exact hself
    | exact ⟨_, rfl⟩

theorem shows_reset (d : Console) : Shows d.reset 0 ⟨[], []⟩ :=
  ⟨holds_nil, rfl, rfl, rfl, List.not_mem_nil⟩

theorem shows_consputc (h : Shows d r e) (l : List ℕ) (buf : ℕ → UInt8) :
    Shows (l.foldl (fun d i => d.consputc (buf i)) d) r e := by
  induction l generalizing d with
  | nil => exact h
  | cons i l ih => exact ih (h.out _)

/-- The characters that a stopped reader has taken: it has stored them without the `Ctrl-D`. -/
theorem readLoop_taken (target : ℤ) (n : ℕ) (dst : List UInt8) (h : Shows d r e) :
    ∃ d' chunk left, Shows d' (r + chunk.length) ⟨left, e.pending⟩ ∧ e.committed = chunk ++ left ∧
      (readLoop target n d dst = .done d' (dst ++ chunk.filter (· ≠ ctrlD)) ∨
        ∃ n', readLoop target n d dst = .empty d' n' (dst ++ chunk.filter (· ≠ ctrlD))) := by
  obtain ⟨l, p⟩ := e
  have hnone : ∀ l : List UInt8, l ++ List.filter (· ≠ ctrlD) [] = l := List.append_nil
  induction n generalizing d r l dst with
  | zero => exact ⟨d, [], l, h, rfl, .inl (by rw [hnone, readLoop])⟩
  | succ n ih =>
    unfold readLoop
    cases l with
    | nil =>
      rw [if_pos (h.read_eq_write.mpr rfl)]
      exact ⟨d, [], [], h, rfl, .inr ⟨n + 1, by rw [hnone]⟩⟩
    | cons c l =>
      obtain ⟨hpeek, hne, hadv⟩ := Shows.advance (e := ⟨l, p⟩) h
      dsimp only
      rw [if_neg hne, hpeek]
      by_cases hc : c = ctrlD
      · rw [if_pos hc]
        split_ifs
        · exact ⟨d, [], c :: l, h, rfl, .inl (by rw [hnone])⟩
        · exact ⟨d.advance, [c], l, hadv, rfl, .inl (by rw [List.filter_singleton, hc]; simp)⟩
      have hkeep : ∀ l, List.filter (· ≠ ctrlD) (c :: l) = c :: List.filter (· ≠ ctrlD) l :=
        fun l => List.filter_cons_of_pos (by simpa using hc)
      rw [if_neg hc]
      by_cases hnl : c = newline
      · rw [if_pos hnl]
        exact ⟨d.advance, [c], l, hadv, rfl, .inl (by rw [hkeep, List.filter_nil])⟩
      rw [if_neg hnl]
      obtain ⟨d', chunk, left, hd', hl, hstop⟩ := ih (dst ++ [c]) l hadv
      refine ⟨d', c :: chunk, left, ?_, congrArg (c :: ·) hl, ?_⟩
      · rwa [List.length_cons, Nat.add_comm chunk.length 1, ← Nat.add_assoc]
      · rw [hkeep, List.append_cons dst c (chunk.filter _)]
        exact hstop

/-- The ring holds the characters that have been committed and not taken, and the rest of the
    characters has been stored. -/
def Content (d : Cons) : Prop :=
  d.lost = [] ∧ ∃ e taken, Shows d.cons taken.length e ∧ d.stream = taken ++ e.committed ∧
    d.stored = taken.filter (· ≠ ctrlD)

theorem content_initCons : Content initCons := ⟨rfl, ⟨[], []⟩, [], shows_initConsole, rfl, rfl⟩

theorem Content.delivered {d : Cons} (h : Content d) : Delivered d := by
  obtain ⟨hlost, e, taken, hshow, hstream, hstored⟩ := h
  exact ⟨hlost, taken, e.committed, hstream, hshow.readIdx, hstored⟩

theorem Content.intrEdit {d : Cons} (h : Content d) (c : UInt8) : Content (d.intrEdit c).1 := by
  obtain ⟨hlost, e, taken, hshow, hstream, hstored⟩ := h
  unfold Cons.intrEdit
  dsimp only
  by_cases hC : c = ctrlC
  · rw [if_pos hC]
    refine ⟨hlost, ⟨[], []⟩, [], ?_, rfl, rfl⟩
    have hreset : d.cons.intr c = (d.cons.reset, false) := by
      rw [hC]
      rfl
    show Shows (d.cons.intr c).1 _ _
    rw [hreset]
    exact shows_reset d.cons
  · rw [if_neg hC]
    by_cases hX : c = ctrlX
    · have hnone : d.cons.intr c = (d.cons, false) := by
        rw [hX]
        rfl
      refine ⟨hlost, e, taken, ?_, ?_, hstored⟩
      · show Shows (d.cons.intr c).1 _ _
        rwa [hnone]
      · show d.stream ++ Cons.committed d.cons (d.cons.intr c).1 = _
        rw [hnone, committed_eq hshow hshow (List.append_nil _).symm, hstream, List.append_nil]
    · obtain ⟨l, hl⟩ := key_committed e c
      have hkey := hshow.key hC hX
      refine ⟨hlost, e.key c, taken, hkey, ?_, hstored⟩
      show d.stream ++ Cons.committed d.cons (d.cons.intr c).1 = _
      rw [committed_eq hshow hkey hl, hstream, hl, List.append_assoc]

theorem Content.readLoop {d : Cons} (h : Content d) (killed : Bool) (ip : ℕ) (size : ℤ) (n : ℕ)
    (dst : List UInt8) : Content (d.readLoop killed ip size n dst).1 := by
  obtain ⟨hlost, e, taken, hshow, hstream, hstored⟩ := h
  obtain ⟨cons, chunk, left, hcons, hl, hstop⟩ := readLoop_taken (intOf size) n dst hshow
  have hnew : d.stored ++ (dst ++ chunk.filter (· ≠ ctrlD)).drop dst.length =
      (taken ++ chunk).filter (· ≠ ctrlD) := by
    rw [List.drop_left, hstored, List.filter_append]
  rw [hl, ← List.append_assoc] at hstream
  rw [← List.length_append] at hcons
  unfold Cons.readLoop
  rcases hstop with hstop | ⟨n', hstop⟩
  · rw [hstop]
    exact ⟨hlost, ⟨left, e.pending⟩, taken ++ chunk, hcons, hstream, hnew⟩
  · rw [hstop]
    exact ⟨hlost, ⟨left, e.pending⟩, taken ++ chunk, hcons, hstream, hnew⟩

theorem Content.writeOut {d : Cons} (h : Content d) (buf : ℕ → UInt8) (n : ℤ) :
    Content (d.writeOut buf n) := by
  obtain ⟨hlost, e, taken, hshow, hstream, hstored⟩ := h
  exact ⟨hlost, e, taken, shows_consputc hshow _ buf, hstream, hstored⟩

/-! ## The points -/

/-- The points of the wait of `console_read`. -/
def sleeping : Pc → Bool
  | .readWait _ _ _ _ | .readAsleep _ _ _ _ => true
  | _ => false

theorem readLoop_point (d : Cons) (killed : Bool) (ip : ℕ) (size : ℤ) (n : ℕ) (dst : List UInt8) :
    ∃ k, (d.readLoop killed ip size n dst).2 = k ∧ inside k = true ∧
      ((∃ r l, k = .readRelease ip r l) ∨ (∃ l, k = .readFail ip l) ∨
        ∃ n l, k = .readUnlock ip size n l) := by
  unfold Cons.readLoop
  split
  · exact ⟨_, rfl, rfl, .inl ⟨_, _, rfl⟩⟩
  · split_ifs
    · exact ⟨_, rfl, rfl, .inr (.inl ⟨_, rfl⟩)⟩
    · exact ⟨_, rfl, rfl, .inr (.inr ⟨_, _, rfl⟩)⟩

theorem intrEdit_point (d : Cons) (c : UInt8) :
    (d.intrEdit c).2 = .intrPost ∨ (d.intrEdit c).2 = .intrRelease := by
  unfold Cons.intrEdit
  dsimp only
  split_ifs
  · exact .inr rfl
  · exact .inl rfl
  · exact .inr rfl

/-! ## The locks of the inodes -/

variable {a a' : Cons} {p q ip : ℕ}

/-- A step of process `p` on the lock of an inode: the console is left alone, and so are the
    other processes that have a lock. -/
structure OnInode (p : ℕ) (a a' : Cons) : Prop where
  cons : a'.cons = a.cons
  stream : a'.stream = a.stream
  stored : a'.stored = a.stored
  lost : a'.lost = a.lost
  keep : ∀ q ip, q ≠ p → q ∈ a.holders ip → q ∈ a'.holders ip

theorem OnInode.content (h : OnInode p a a') (ha : Content a) : Content a' := by
  unfold Content
  rw [h.cons, h.stream, h.stored, h.lost]
  exact ha

theorem OnInode.hold (a : Cons) (p ip : ℕ) : OnInode p a (a.hold p ip) := by
  refine ⟨rfl, rfl, rfl, rfl, fun q jp _ hq => ?_⟩
  show q ∈ Function.update a.holders ip (p :: a.holders ip) jp
  by_cases hj : jp = ip
  · subst hj
    rw [Function.update_self]
    exact List.mem_cons_of_mem p hq
  · rwa [Function.update_of_ne hj]

theorem mem_hold (a : Cons) (p ip : ℕ) : p ∈ (a.hold p ip).holders ip := by
  show p ∈ Function.update a.holders ip (p :: a.holders ip) ip
  rw [Function.update_self]
  exact List.mem_cons_self

theorem lockInode_cases (a : Cons) (p ip : ℕ) (go sleep : Pc) :
    OnInode p a (a.lockInode p ip go sleep).1 ∧
      ((a.lockInode p ip go sleep).2 = go ∧ p ∈ (a.lockInode p ip go sleep).1.holders ip ∨
        (a.lockInode p ip go sleep).2 = sleep) := by
  unfold Cons.lockInode
  split
  · next s _ =>
    have h := OnInode.hold { a with lock := Function.update a.lock ip s } p ip
    exact ⟨⟨h.cons, h.stream, h.stored, h.lost, h.keep⟩, .inl ⟨rfl, mem_hold _ p ip⟩⟩
  · exact ⟨⟨rfl, rfl, rfl, rfl, fun _ _ _ h => h⟩, .inr rfl⟩

theorem lockWoken_cases {go k : Pc} (h : a.lockWoken p ip go = some (a', k)) :
    OnInode p a a' ∧ k = go ∧ p ∈ a'.holders ip := by
  unfold Cons.lockWoken at h
  split_ifs at h
  obtain ⟨rfl, rfl⟩ := Prod.mk.inj (Option.some.inj h)
  exact ⟨.hold a p ip, rfl, mem_hold a p ip⟩

theorem unlockInode_cases {go k : Pc} (h : a.unlockInode p ip go = some (a', k)) :
    OnInode p a a' ∧ k = go := by
  unfold Cons.unlockInode at h
  split at h
  · obtain ⟨rfl, rfl⟩ := Prod.mk.inj (Option.some.inj h)
    refine ⟨⟨rfl, rfl, rfl, rfl, fun q jp hq hmem => ?_⟩, rfl⟩
    show q ∈ Function.update a.holders ip ((a.holders ip).erase p) jp
    by_cases hj : jp = ip
    · subst hj
      rw [Function.update_self]
      exact (List.mem_erase_of_ne hq).mpr hmem
    · rwa [Function.update_of_ne hj]
  · cases h

/-! ## The invariant -/

theorem disciplined : Monitor.Disciplined console inside releaseToSleep := by
  refine ⟨fun c => by cases c <;> rfl, fun c hbad => ?_⟩
  cases c with
  | readUnlock ip size n dst => cases hbad
  | readLoop ip size n dst =>
    refine ⟨rfl, fun p killed d r h => ?_⟩
    obtain rfl := Option.some.inj h
    obtain ⟨k, hk, hin, -⟩ := readLoop_point d killed ip size n dst
    rw [hk]
    exact hin
  | writeOut ip buf n =>
    refine ⟨rfl, fun p _ d r h => ?_⟩
    obtain rfl := Option.some.inj h
    rfl
  | intrEdit c =>
    refine ⟨rfl, fun p _ d r h => ?_⟩
    obtain rfl := Option.some.inj h
    rcases intrEdit_point d c with hk | hk <;> rw [hk] <;> rfl
  | read ip n | write ip buf n | unlockInode ip =>
    intro p _ d r h
    obtain ⟨-, hk⟩ := unlockInode_cases (show _ = some (r.1, r.2) from h)
    rw [hk]
    rfl
  | relockFail ip dst =>
    intro p _ d r h
    obtain rfl := Option.some.inj h
    rcases (lockInode_cases { d with lost := d.lost ++ dst } p ip (.returned ip (-1) [])
      (.relockAsleep ip (-1) [])).2 with ⟨hk, -⟩ | hk <;> rw [hk] <;> rfl
  | relock ip r dst =>
    intro p _ d x h
    obtain rfl := Option.some.inj h
    rcases (lockInode_cases d p ip (.returned ip r dst) (.relockAsleep ip r dst)).2 with
      ⟨hk, -⟩ | hk <;> rw [hk] <;> rfl
  | lockInode ip =>
    intro p _ d x h
    obtain rfl := Option.some.inj h
    rcases (lockInode_cases d p ip .done (.lockAsleep ip)).2 with ⟨hk, -⟩ | hk <;> rw [hk] <;> rfl
  | relockAsleep ip r dst | lockAsleep ip =>
    intro p _ d x h
    obtain ⟨-, hk, -⟩ := lockWoken_cases (show _ = some (x.1, x.2) from h)
    rw [hk]
    rfl
  | readWait ip size n dst =>
    intro p _ d r h
    dsimp only [console, code] at h
    split at h <;> obtain rfl := Option.some.inj h <;> rfl
  | readAsleep ip size n dst =>
    intro p _ d r h
    dsimp only [console, code] at h
    split_ifs at h
    obtain rfl := Option.some.inj h
    rfl
  | intrPost =>
    intro p _ d r h
    dsimp only [console, code] at h
    split at h
    · obtain rfl := Option.some.inj h
      rfl
    · cases h
  | returned ip r dst | done => rfl
  | _ => exact ⟨rfl, rfl⟩

/-- A process does not wait at the console, a failed read has stored nothing, and a call returns
    with the lock of its inode. -/
structure Each (p : ℕ) (d : Cons) (x : Option Pc) : Prop where
  awake : ∀ c, x = some c → sleeping c = false
  fail : ∀ ip dst, x = some (.relockFail ip dst) → dst = []
  inode : ∀ ip r dst, x = some (.returned ip r dst) → p ∈ d.holders ip

/-- The points with nothing to show. -/
def plain : Pc → Bool
  | .readWait _ _ _ _ | .readAsleep _ _ _ _ | .relockFail _ _ | .returned _ _ _ => false
  | _ => true

theorem each_plain {d : Cons} {c : Pc} (h : plain c = true) : Each p d (some c) := by
  refine ⟨fun c' e => ?_, fun ip dst e => ?_, fun ip r dst e => ?_⟩
  · obtain rfl := Option.some.inj e
    cases c <;> first | rfl | cases h
  · obtain rfl := Option.some.inj e
    cases h
  · obtain rfl := Option.some.inj e
    cases h

theorem each_none {d : Cons} : Each p d none :=
  ⟨(fun _ e => nomatch e), (fun _ _ e => nomatch e), fun _ _ _ e => nomatch e⟩

theorem each_returned {d : Cons} {r : ℤ} {dst : List UInt8} (h : p ∈ d.holders ip) :
    Each p d (some (.returned ip r dst)) := by
  refine ⟨fun c e => ?_, (fun _ _ e => nomatch e), fun jp r' dst' e => ?_⟩
  · rw [← Option.some.inj e]
    rfl
  · cases e
    exact h

theorem Each.other {d d' : Cons} {x : Option Pc} (h : Each q d x)
    (hk : ∀ ip, q ∈ d.holders ip → q ∈ d'.holders ip) : Each q d' x :=
  ⟨h.awake, h.fail, fun ip r dst e => hk ip (h.inode ip r dst e)⟩

/-- The end of a call: the lock of the inode is there, or the process sleeps. -/
theorem each_lockInode (a : Cons) (p ip : ℕ) (r : ℤ) (dst : List UInt8) :
    Each p (a.lockInode p ip (.returned ip r dst) (.relockAsleep ip r dst)).1
      (some (a.lockInode p ip (.returned ip r dst) (.relockAsleep ip r dst)).2) := by
  rcases (lockInode_cases a p ip (.returned ip r dst) (.relockAsleep ip r dst)).2 with
    ⟨hk, hmem⟩ | hk
  · rw [hk]
    exact each_returned hmem
  · rw [hk]
    exact each_plain rfl

/-- As long as nobody lets the lock go to sleep, the invariant is kept. -/
theorem rely : Monitor.Rely console inside releaseToSleep Content Each := by
  refine ⟨fun p c d _ _ _ => ?_, fun p c k d hbad hcode _ _ => ?_,
    fun p c g a d d' k _ hcode hg hd _ => ?_, fun p c g a d d' k _ hcode hg hd h => ?_,
    fun p c d _ _ _ _ => each_none⟩
  · cases c <;> exact each_plain rfl
  · cases c with
    | readUnlock ip size n dst => cases hbad
    | readFail ip dst =>
      rcases hcode with hcode | hcode <;> cases hcode
      obtain rfl : dst = [] := by simpa [releaseToSleep] using hbad
      refine ⟨fun c e => ?_, fun jp dst e => ?_, fun _ _ _ e => nomatch e⟩
      · rw [← Option.some.inj e]
        rfl
      · cases e
        rfl
    | readLock ip n | readRelease ip r dst | writeLock ip buf n | writeRelease ip n | intr c
    | intrRelease =>
      rcases hcode with hcode | hcode <;> cases hcode
      exact each_plain rfl
    | _ => rcases hcode with hcode | hcode <;> cases hcode
  · have hres : Content d' ∧ d'.holders = d.holders ∧ Each p d' (some k) := by
      cases c with
      | readLoop ip size n dst =>
        cases hcode
        have hc := hd.readLoop a ip size n dst
        obtain ⟨k', hk, -, hpoint⟩ := readLoop_point d a ip size n dst
        have hh : (d.readLoop a ip size n dst).1.holders = d.holders := by
          unfold Cons.readLoop
          split <;> rfl
        rw [Option.some.inj hg] at hc hk hh
        refine ⟨hc, hh, ?_⟩
        have hk : k = k' := hk
        rcases hpoint with ⟨r, l, e⟩ | ⟨l, e⟩ | ⟨m, l, e⟩ <;> rw [hk, e] <;>
          exact each_plain rfl
      | writeOut ip buf n =>
        cases hcode
        obtain ⟨rfl, rfl⟩ := Prod.mk.inj (Option.some.inj hg)
        exact ⟨hd.writeOut buf n, rfl, each_plain rfl⟩
      | intrEdit c =>
        cases hcode
        have hc := hd.intrEdit c
        have hk := intrEdit_point d c
        have hh : (d.intrEdit c).1.holders = d.holders := by
          unfold Cons.intrEdit
          dsimp only
          split_ifs <;> rfl
        rw [Option.some.inj hg] at hc hk hh
        refine ⟨hc, hh, ?_⟩
        rcases hk with e | e <;> dsimp only at e <;> rw [e] <;>
          exact each_plain rfl
      | _ => cases hcode
    refine ⟨hres.1, hres.2.2, fun q x _ _ hx => hx.other fun ip hq => ?_⟩
    rw [hres.2.1]
    exact hq
  · have hres : Content d' ∧ Each p d' (some k) ∧
        ∀ q ip, q ≠ p → q ∈ d.holders ip → q ∈ d'.holders ip := by
      cases c with
      | readWait ip size n dst | readAsleep ip size n dst => cases h.awake _ rfl
      | read ip n | write ip buf n | unlockInode ip =>
        cases hcode
        obtain ⟨hon, rfl⟩ := unlockInode_cases hg
        exact ⟨hon.content hd, each_plain rfl, hon.keep⟩
      | relockFail ip dst =>
        cases hcode
        obtain rfl := h.fail ip dst rfl
        dsimp only at hg
        rw [List.append_nil] at hg
        have hon := (lockInode_cases d p ip (.returned ip (-1) []) (.relockAsleep ip (-1) [])).1
        have he := each_lockInode d p ip (-1) []
        rw [Option.some.inj hg] at hon he
        exact ⟨hon.content hd, he, hon.keep⟩
      | relock ip r dst =>
        cases hcode
        have hon := (lockInode_cases d p ip (.returned ip r dst) (.relockAsleep ip r dst)).1
        have he := each_lockInode d p ip r dst
        rw [Option.some.inj hg] at hon he
        exact ⟨hon.content hd, he, hon.keep⟩
      | relockAsleep ip r dst =>
        cases hcode
        obtain ⟨hon, rfl, hmem⟩ := lockWoken_cases hg
        exact ⟨hon.content hd, each_returned hmem, hon.keep⟩
      | lockInode ip =>
        cases hcode
        obtain ⟨hon, hk⟩ := lockInode_cases d p ip .done (.lockAsleep ip)
        rw [Option.some.inj hg] at hon hk
        refine ⟨hon.content hd, ?_, hon.keep⟩
        rcases hk with ⟨e, -⟩ | e <;> dsimp only at e <;> rw [e] <;> exact each_plain rfl
      | lockAsleep ip =>
        cases hcode
        obtain ⟨hon, rfl, -⟩ := lockWoken_cases hg
        exact ⟨hon.content hd, each_plain rfl, hon.keep⟩
      | intrPost =>
        cases hcode
        dsimp only at hg
        split at hg
        · obtain ⟨rfl, rfl⟩ := Prod.mk.inj (Option.some.inj hg)
          exact ⟨hd, each_plain rfl, fun _ _ _ hq => hq⟩
        · cases hg
      | _ => cases hcode
    exact ⟨hres.1, hres.2.1, fun q x hq hx => hx.other fun ip => hres.2.2 q ip hq⟩

/-! ## Runs -/

variable {t : MonitorState Cons Pc}

/-- As long as no reader lets the lock go to sleep, or fails with characters that it has taken,
    the console is right. -/
theorem console_ok
    (h : Run console.next (Monitor.Avoids releaseToSleep) (Monitor.initial initCons) t) : Ok t := by
  have hinv := Monitor.Inv.run h disciplined rely content_initCons fun _ => each_none
  refine ⟨hinv.clean.2, hinv.clean.1, hinv.data.delivered, fun p hp => ?_,
    fun p ip r dst hp => (hinv.each p).inode ip r dst hp⟩
  obtain ⟨⟨ip, size, n, dst, hn⟩, -⟩ := hp
  cases (hinv.each p).awake _ hn

/-- A line is typed and read. -/
theorem console_ok_line : ∃ t : MonitorState Cons Pc,
    t.data.stored = [97, newline] ∧ t.data.holders 5 = [1] ∧ Ok t := by
  have hexec : (execIf console.next (Monitor.Avoids releaseToSleep) (Monitor.initial initCons)
      [.call 0 (.consoleIntr 97), .step 0 false, .step 0 false, .step 0 false, .step 0 false,
        .call 0 (.consoleIntr ret), .step 0 false, .step 0 false, .step 0 false, .step 0 false,
        .step 0 false, .call 1 (.lockInode 5), .step 1 false, .step 1 false,
        .call 1 (.consoleRead 5 9), .step 1 false, .step 1 false, .step 1 false, .step 1 false,
        .step 1 false]).map (fun t => (t.data.stored, t.data.holders 5)) =
      some ([97, newline], [1]) := by
    decide +kernel
  obtain ⟨t, hrun, ht⟩ := Run.of_execIf_map hexec
  simp only [Prod.mk.injEq] at ht
  exact ⟨t, ht.1, ht.2, console_ok hrun⟩

/-- A reader sleeps and is woken by an interrupt, and goes on while the next interrupt has the
    lock. -/
theorem console_broken : ¬ ∀ t : MonitorState Cons Pc,
    Run console.next anyStep (Monitor.initial initCons) t → Ok t := by
  intro h
  have hexec : (exec console.next (Monitor.initial initCons)
      [.call 1 (.lockInode 5), .step 1 false, .step 1 false,
        .call 1 (.consoleRead 5 9), .step 1 false, .step 1 false, .step 1 false, .step 1 false,
        .step 1 false,
        .call 0 (.consoleIntr newline), .step 0 false, .step 0 false, .step 0 false,
        .step 1 false, .step 1 false]).map (fun t => (t.badAccess, t.holder)) =
      some (true, some 0) := by
    decide +kernel
  obtain ⟨t, hrun, ht⟩ := Option.map_eq_some_iff.mp hexec
  simp only [Prod.mk.injEq] at ht
  have := (h t (Run.of_exec hrun)).access
  rw [ht.1] at this
  cases this

end ShikiOS.Kernel.Tty.Locked
