import ShikiOS.Common.Sem
import ShikiOS.Lib.Monitor
import ShikiOS.Lib.RingBuffer

/-!
# Pipes among processes (`fs/pipe.c`)

Any number of processes call `pipe_read`, `pipe_write` and `pipe_close` on one pipe. A step
goes from one acquisition or release of `pi->lock`, post or wait to the next.

Both loops let the lock go before they sleep and test again after they were woken, without
taking the lock again (lines 106-107 and 128-129).

Results:
* `pipe_ok`: as long as no process lets the lock go to sleep, the pipe is only worked on by the
  holder of its lock, the bytes come out in the order in which they went in, and nobody is left
  asleep.
* `pipe_broken`: a run in which a woken reader works on the pipe while a writer has the lock.
-/

namespace ShikiOS.Fs.Pipes

open ShikiOS.Lib RingBuffer

/-! ## Model -/

/-- `PIPE_SIZE` (pipe.h:8). -/
def pipeSize : ℕ := 1024

/-- `Pipe` (pipe.h:10-18) without the lock. `freed` says that it has been given back. The bytes
    that all writes have stored and all reads have returned, in order, are only recorded. -/
structure Pipe where
  data : ℕ → UInt8
  nread : BitVec 32
  nwrite : BitVec 32
  readopen : Bool
  writeopen : Bool
  wlock : Sem ℕ
  rlock : Sem ℕ
  freed : Bool
  stored : List UInt8
  returned : List UInt8

/-- `init_pipe` (pipe.c:7-19). -/
def initPipe : Pipe where
  data := fun _ => 0
  nread := 0
  nwrite := 0
  readopen := true
  writeopen := true
  wlock := .init 0
  rlock := .init 0
  freed := false
  stored := []
  returned := []

/-- The points of the code. -/
inductive Pc
  /-- `pipe_close`: before line 74, in lines 75-82 and 83, and after the release. -/
  | close (writable : Bool)
  | closeEnd (writable : Bool)
  | closePost (writable : Bool)
  | closeTest
  | closeRelease (free : Bool)
  | closeFree
  /-- `pipe_write`: before line 98, and with `i` bytes stored and `rest` to be stored. -/
  | write (src : List UInt8)
  | writeLoop (i : ℕ) (rest : List UInt8)
  | writeFail
  | writePost (i : ℕ) (rest : List UInt8)
  | writeUnlock (i : ℕ) (rest : List UInt8)
  | writeWait (i : ℕ) (rest : List UInt8)
  | writeAsleep (i : ℕ) (rest : List UInt8)
  | writeDone (i : ℕ)
  | writeRelease (i : ℕ)
  /-- `pipe_read`: before line 122, in lines 123-135, and behind the loops. -/
  | read (n : ℤ)
  | readLoop (n : ℤ)
  | readFail
  | readUnlock (n : ℤ)
  | readWait (n : ℤ)
  | readAsleep (n : ℤ)
  | readRelease (dst : List UInt8)
  | readPost (dst : List UInt8)
  /-- The call returns. -/
  | closed
  | written (r : ℤ)
  | bytesRead (r : Option (List UInt8))

namespace Pipe

/-- `pi->nwrite == pi->nread + PIPE_SIZE`. -/
def full (d : Pipe) : Bool := d.nwrite == d.nread + BitVec.ofNat 32 pipeSize

/-- `pi->nread == pi->nwrite`. -/
def empty (d : Pipe) : Bool := d.nread == d.nwrite

/-- Line 109 of `pipe_write`. -/
def store (d : Pipe) (b : UInt8) : Pipe :=
  { d with
    data := Function.update d.data (d.nwrite.toNat % pipeSize) b
    nwrite := d.nwrite + 1
    stored := d.stored ++ [b] }

/-- The byte and the counter of line 134 of `pipe_read`. -/
def fetch (d : Pipe) : UInt8 × Pipe :=
  let b := d.data (d.nread.toNat % pipeSize)
  (b, { d with nread := d.nread + 1, returned := d.returned ++ [b] })

/-- The loop of `pipe_write` (lines 99-110) up to where it lets the lock go. -/
def writeLoop (killed : Bool) (d : Pipe) : ℕ → List UInt8 → Pipe × Pc
  | i, [] => (d, .writeDone i)
  | i, b :: rest =>
    if d.full then
      if !d.readopen || killed then (d, .writeFail) else (d, .writePost i (b :: rest))
    else writeLoop killed (d.store b) (i + 1) rest

/-- The second loop of `pipe_read` (lines 132-135), `n` rounds. -/
def copyLoop (d : Pipe) : ℕ → List UInt8 → Pipe × Pc
  | 0, dst => (d, .readRelease dst)
  | n + 1, dst =>
    if d.empty then (d, .readRelease dst)
    else copyLoop d.fetch.2 n (dst ++ [d.fetch.1])

/-- `pipe_read` from the test of line 123 on, up to where it lets the lock go. -/
def readLoop (killed : Bool) (d : Pipe) (n : ℤ) : Pipe × Pc :=
  if d.empty && d.writeopen then
    if killed then (d, .readFail) else (d, .readUnlock n)
  else copyLoop d n.toNat []

/-- Lines 75-76 and 79-80 of `pipe_close`. -/
def closeEnd (d : Pipe) (writable : Bool) : Pipe :=
  if writable then { d with writeopen := false } else { d with readopen := false }

end Pipe

/-- A post to a semaphore; a failed assertion stops the process. -/
def semPost (post : Sem ℕ → Option (Sem ℕ × List ℕ)) (s : Sem ℕ) : Option (Sem ℕ) :=
  (post s).map Prod.fst

/-- A wait up to `sched`, and whether a unit was there. -/
def waitAt (s : Sem ℕ) (p : ℕ) (go sleep : Pc) : Sem ℕ × Pc :=
  match s.down p with
  | (s, true) => (s, go)
  | (s, false) => (s, sleep)

/-- The code of the three functions. The answer says whether the process has been killed. -/
def code : Pc → MonitorOp Pipe Bool Pc
  | .close w => .acquire (.closeEnd w)
  | .closeEnd w => .access fun _ _ d => some (d.closeEnd w, .closePost w)
  | .closePost w => .act fun _ _ d =>
    if w then (semPost Sem.postAll d.rlock).map fun s => ({ d with rlock := s }, .closeTest)
    else (semPost Sem.postAll d.wlock).map fun s => ({ d with wlock := s }, .closeTest)
  | .closeTest => .access fun _ _ d => some (d, .closeRelease (!d.readopen && !d.writeopen))
  | .closeRelease free => .release (if free then .closeFree else .closed)
  | .closeFree => .act fun _ _ d => some ({ d with freed := true }, .closed)
  | .write src => .acquire (.writeLoop 0 src)
  | .writeLoop i rest => .access fun _ killed d => some (d.writeLoop killed i rest)
  | .writeFail => .release (.written (-1))
  | .writePost i rest => .act fun _ _ d =>
    (semPost Sem.post d.rlock).map fun s => ({ d with rlock := s }, .writeUnlock i rest)
  | .writeUnlock i rest => .release (.writeWait i rest)
  | .writeWait i rest => .act fun p _ d =>
    let r := waitAt d.wlock p (.writeLoop i rest) (.writeAsleep i rest)
    some ({ d with wlock := r.1 }, r.2)
  | .writeAsleep i rest => .act fun p _ d =>
    if p ∈ d.wlock.sleeplist then none else some (d, .writeLoop i rest)
  | .writeDone i => .act fun _ _ d =>
    (semPost Sem.postAll d.rlock).map fun s => ({ d with rlock := s }, .writeRelease i)
  | .writeRelease i => .release (.written i)
  | .read n => .acquire (.readLoop n)
  | .readLoop n => .access fun _ killed d => some (d.readLoop killed n)
  | .readFail => .release (.bytesRead none)
  | .readUnlock n => .release (.readWait n)
  | .readWait n => .act fun p _ d =>
    let r := waitAt d.rlock p (.readLoop n) (.readAsleep n)
    some ({ d with rlock := r.1 }, r.2)
  | .readAsleep n => .act fun p _ d =>
    if p ∈ d.rlock.sleeplist then none else some (d, .readLoop n)
  | .readRelease dst => .release (.readPost dst)
  | .readPost dst => .act fun _ _ d =>
    (semPost Sem.postAll d.wlock).map fun s => ({ d with wlock := s }, .bytesRead (some dst))
  | .closed | .written _ | .bytesRead _ => .ret

/-- The calls. A write gets its bytes, none if `n` is not positive. -/
inductive Call
  | pipeRead (n : ℤ)
  | pipeWrite (src : List UInt8)
  | pipeClose (writable : Bool)

def start : Call → Pc
  | .pipeRead n => .read n
  | .pipeWrite src => .write src
  | .pipeClose w => .close w

/-- The processes on a pipe. -/
def pipe : Monitor Pipe Bool Pc Call := ⟨code, start, fun _ _ _ => true⟩

/-! ## What is claimed of it -/

/-- The points where a process should have the lock. -/
def inside : Pc → Bool
  | .close _ | .closeFree | .write _ | .read _ | .readPost _ | .closed | .written _
  | .bytesRead _ => false
  | _ => true

/-- The releases before a wait. -/
def releaseToSleep : Pc → Bool
  | .writeUnlock _ _ | .readUnlock _ => true
  | _ => false

/-- A reader that sleeps and has not been woken. -/
def ReaderAsleep (s : MonitorState Pipe Pc) (p : ℕ) : Prop :=
  (∃ n, s.pc p = some (.readAsleep n)) ∧ p ∈ s.data.rlock.sleeplist

/-- A writer that sleeps and has not been woken. -/
def WriterAsleep (s : MonitorState Pipe Pc) (p : ℕ) : Prop :=
  (∃ i rest, s.pc p = some (.writeAsleep i rest)) ∧ p ∈ s.data.wlock.sleeplist

/-- Some process other than `p` is in a call and does not sleep, or has been woken. -/
def OtherActive (s : MonitorState Pipe Pc) (p : ℕ) : Prop :=
  ∃ q, q ≠ p ∧ s.pc q ≠ none ∧ ¬ ReaderAsleep s q ∧ ¬ WriterAsleep s q

/-- Only the holder of the lock has worked on the pipe and let the lock go, the bytes come out
    in order, the pipe holds at most `PIPE_SIZE` of them, and nobody sleeps for ever. -/
structure Ok (s : MonitorState Pipe Pc) : Prop where
  access : s.badAccess = false
  release : s.badRelease = false
  order : s.data.returned <+: s.data.stored
  bound : (s.data.nwrite - s.data.nread).toNat ≤ pipeSize
  reader : ∀ p, ReaderAsleep s p → s.data.empty = false ∨ s.data.writeopen = false →
    OtherActive s p
  writer : ∀ p, WriterAsleep s p → s.data.full = false ∨ s.data.readopen = false →
    OtherActive s p

/-! ## The content -/

/-- The bytes that went in and have not come out are in the ring. -/
def Content (d : Pipe) : Prop :=
  ∃ l, d.stored = d.returned ++ l ∧ Holds d.data pipeSize d.returned.length l ∧
    d.nread = BitVec.ofNat 32 d.returned.length ∧ d.nwrite = BitVec.ofNat 32 d.stored.length

theorem pipeSize_dvd : pipeSize ∣ 2 ^ 32 := by decide

variable {d : Pipe}

theorem content_initPipe : Content initPipe := ⟨[], rfl, holds_nil, rfl, rfl⟩

theorem full_iff {l : List UInt8} (hl : d.stored = d.returned ++ l) (hle : l.length ≤ pipeSize)
    (hr : d.nread = BitVec.ofNat 32 d.returned.length)
    (hw : d.nwrite = BitVec.ofNat 32 d.stored.length) : d.full = true ↔ l.length = pipeSize := by
  unfold Pipe.full
  rw [hr, hw, hl, ← BitVec.ofNat_add, beq_iff_eq, List.length_append,
    ofNat_inj_of_le (by omega) (by unfold pipeSize; omega)]
  omega

theorem empty_iff {l : List UInt8} (hl : d.stored = d.returned ++ l) (hle : l.length ≤ pipeSize)
    (hr : d.nread = BitVec.ofNat 32 d.returned.length)
    (hw : d.nwrite = BitVec.ofNat 32 d.stored.length) : d.empty = true ↔ l = [] := by
  unfold Pipe.empty
  unfold pipeSize at hle
  rw [hr, hw, hl, beq_iff_eq, List.length_append, ofNat_inj_of_le (by omega) (by omega),
    ← List.length_eq_zero_iff]
  omega

theorem Content.bound (h : Content d) : (d.nwrite - d.nread).toNat ≤ pipeSize := by
  obtain ⟨l, hl, hring, hr, hw⟩ := h
  have hle := hring.1
  have hlen : d.stored.length = d.returned.length + l.length := by rw [hl, List.length_append]
  rw [hr, hw, toNat_ofNat_sub (by omega) (by unfold pipeSize at hle; omega)]
  omega

/-- A byte goes in. -/
theorem Content.store (h : Content d) (hfull : d.full = false) (b : UInt8) :
    Content (d.store b) := by
  obtain ⟨l, hl, hring, hr, hw⟩ := h
  have hlt : l.length < pipeSize := by
    refine lt_of_le_of_ne hring.1 fun e => ?_
    rw [(full_iff hl hring.1 hr hw).mpr e] at hfull
    cases hfull
  have hlen : d.stored.length = d.returned.length + l.length := by rw [hl, List.length_append]
  refine ⟨l ++ [b], ?_, ?_, hr, ?_⟩
  · show d.stored ++ [b] = d.returned ++ (l ++ [b])
    rw [hl, List.append_assoc]
  · show Holds (Function.update d.data (d.nwrite.toNat % pipeSize) b) pipeSize _ _
    rw [hw, ofNat_toNat_mod pipeSize_dvd, hlen]
    exact hring.push hlt
  · show d.nwrite + 1 = BitVec.ofNat 32 (d.stored ++ [b]).length
    rw [hw, ofNat_succ, List.length_append, List.length_singleton]

/-- A byte comes out. -/
theorem Content.fetch (h : Content d) (hempty : d.empty = false) : Content d.fetch.2 := by
  obtain ⟨l, hl, hring, hr, hw⟩ := h
  cases l with
  | nil =>
    rw [(empty_iff hl hring.1 hr hw).mpr rfl] at hempty
    cases hempty
  | cons b l =>
    have hb : d.fetch.1 = b := by
      show d.data (d.nread.toNat % pipeSize) = b
      rw [hr, ofNat_toNat_mod pipeSize_dvd]
      exact hring.pop.1
    have hret : d.fetch.2.returned = d.returned ++ [b] := congrArg (d.returned ++ [·]) hb
    refine ⟨l, ?_, ?_, ?_, hw⟩
    · show d.stored = d.fetch.2.returned ++ l
      rw [hret, hl, List.append_assoc, List.singleton_append]
    · rw [hret, List.length_append, List.length_singleton]
      exact hring.pop.2
    · show d.nread + 1 = _
      rw [hr, ofNat_succ, hret, List.length_append, List.length_singleton]

/-- The points of a wait. -/
def sleeping : Pc → Bool
  | .writeWait _ _ | .writeAsleep _ _ | .readWait _ | .readAsleep _ => true
  | _ => false

/-- A part of the code leaves the content right and the process awake. -/
def Kept (r : Pipe × Pc) : Prop := Content r.1 ∧ sleeping r.2 = false

theorem writeLoop_kept (killed : Bool) (h : Content d) (i : ℕ) (rest : List UInt8) :
    Kept (d.writeLoop killed i rest) := by
  induction rest generalizing d i with
  | nil => exact ⟨h, rfl⟩
  | cons b rest ih =>
    unfold Pipe.writeLoop
    split_ifs with hfull
    · exact ⟨h, rfl⟩
    · exact ⟨h, rfl⟩
    · exact ih (h.store (by simpa using hfull) b) (i + 1)

theorem copyLoop_kept (h : Content d) (n : ℕ) (dst : List UInt8) : Kept (d.copyLoop n dst) := by
  induction n generalizing d dst with
  | zero => exact ⟨h, rfl⟩
  | succ n ih =>
    unfold Pipe.copyLoop
    split_ifs with hempty
    · exact ⟨h, rfl⟩
    · exact ih (h.fetch (by simpa using hempty)) _

theorem readLoop_kept (killed : Bool) (h : Content d) (n : ℤ) : Kept (d.readLoop killed n) := by
  unfold Pipe.readLoop
  split_ifs
  · exact ⟨h, rfl⟩
  · exact ⟨h, rfl⟩
  · exact copyLoop_kept h n.toNat []

theorem closeEnd_kept (h : Content d) (w : Bool) : Content (d.closeEnd w) := by
  unfold Pipe.closeEnd
  split_ifs
  · exact h
  · exact h

/-! ## The invariant -/

theorem writeLoop_inside (d : Pipe) (killed : Bool) (i : ℕ) (rest : List UInt8) :
    inside (d.writeLoop killed i rest).2 = true := by
  induction rest generalizing d i with
  | nil => rfl
  | cons b rest ih =>
    unfold Pipe.writeLoop
    split_ifs
    · rfl
    · rfl
    · exact ih _ _

theorem copyLoop_inside (d : Pipe) (n : ℕ) (dst : List UInt8) :
    inside (d.copyLoop n dst).2 = true := by
  induction n generalizing d dst with
  | zero => rfl
  | succ n ih =>
    unfold Pipe.copyLoop
    split_ifs
    · rfl
    · exact ih _ _

theorem readLoop_inside (d : Pipe) (killed : Bool) (n : ℤ) :
    inside (d.readLoop killed n).2 = true := by
  unfold Pipe.readLoop
  split_ifs
  · rfl
  · rfl
  · exact copyLoop_inside d n.toNat []

theorem waitAt_inside (s : Sem ℕ) (p : ℕ) {go sleep : Pc} (hgo : inside go = true)
    (hsleep : inside sleep = true) : inside (waitAt s p go sleep).2 = true := by
  unfold waitAt
  split
  · exact hgo
  · exact hsleep

theorem disciplined : Monitor.Disciplined pipe inside releaseToSleep := by
  refine ⟨fun c => by cases c <;> rfl, fun c hbad => ?_⟩
  cases c with
  | writeUnlock i rest | readUnlock n => cases hbad
  | closeEnd w | closeTest =>
    refine ⟨rfl, fun p a d r h => ?_⟩
    obtain rfl := Option.some.inj h
    rfl
  | writeLoop i rest =>
    refine ⟨rfl, fun p a d r h => ?_⟩
    obtain rfl := Option.some.inj h
    exact writeLoop_inside d a i rest
  | readLoop n =>
    refine ⟨rfl, fun p a d r h => ?_⟩
    obtain rfl := Option.some.inj h
    exact readLoop_inside d a n
  | closePost w =>
    intro p a d r h
    dsimp only [pipe, code] at h
    split_ifs at h
    · obtain ⟨s, -, rfl⟩ := Option.map_eq_some_iff.mp h
      rfl
    · obtain ⟨s, -, rfl⟩ := Option.map_eq_some_iff.mp h
      rfl
  | writePost i rest | writeDone i | readPost dst =>
    intro p a d r h
    obtain ⟨s, -, rfl⟩ := Option.map_eq_some_iff.mp h
    rfl
  | writeWait i rest | readWait n =>
    intro p a d r h
    obtain rfl := Option.some.inj h
    exact waitAt_inside _ p rfl rfl
  | writeAsleep i rest | readAsleep n =>
    intro p a d r h
    dsimp only [pipe, code] at h
    split_ifs at h
    obtain rfl := Option.some.inj h
    rfl
  | closeFree =>
    intro p a d r h
    obtain rfl := Option.some.inj h
    rfl
  | closeRelease free =>
    refine ⟨rfl, ?_⟩
    cases free <;> rfl
  | closed | written r | bytesRead r => rfl
  | _ => exact ⟨rfl, rfl⟩

/-- The process does not wait. -/
def Awake (_ : ℕ) (_ : Pipe) (x : Option Pc) : Prop := ∀ c, x = some c → sleeping c = false

theorem awake_some {p : ℕ} {c : Pc} (h : sleeping c = false) : Awake p d (some c) := by
  intro c' e
  obtain rfl := Option.some.inj e
  exact h

/-- As long as nobody lets the lock go to sleep, the content stays right and nobody waits. -/
theorem rely : Monitor.Rely pipe inside releaseToSleep Content Awake := by
  refine ⟨fun p c d _ _ _ => ?_, fun p c k d hbad hcode _ _ => ?_,
    fun p c g a d d' k _ hcode hg hd _ => ?_, fun p c g a d d' k _ hcode hg hd h => ?_,
    fun p c d _ _ _ _ => fun _ e => nomatch e⟩
  · cases c <;> exact awake_some rfl
  · cases c with
    | writeUnlock i rest | readUnlock n => cases hbad
    | closeRelease free =>
      rcases hcode with hcode | hcode <;> cases hcode
      cases free <;> exact awake_some rfl
    | close w | write src | read n | writeFail | writeRelease i | readFail | readRelease dst =>
      rcases hcode with hcode | hcode <;> cases hcode
      exact awake_some rfl
    | _ => rcases hcode with hcode | hcode <;> cases hcode
  · have hres : Content d' ∧ sleeping k = false := by
      cases c with
      | closeEnd w =>
        cases hcode
        obtain ⟨rfl, rfl⟩ := Prod.mk.inj (Option.some.inj hg)
        exact ⟨closeEnd_kept hd w, rfl⟩
      | closeTest =>
        cases hcode
        obtain ⟨rfl, rfl⟩ := Prod.mk.inj (Option.some.inj hg)
        exact ⟨hd, rfl⟩
      | writeLoop i rest =>
        cases hcode
        have hk := writeLoop_kept a hd i rest
        rw [Option.some.inj hg] at hk
        exact hk
      | readLoop n =>
        cases hcode
        have hk := readLoop_kept a hd n
        rw [Option.some.inj hg] at hk
        exact hk
      | _ => cases hcode
    exact ⟨hres.1, awake_some hres.2, fun q x _ _ hx => hx⟩
  · have hres : Content d' ∧ sleeping k = false := by
      cases c with
      | writeWait i rest | writeAsleep i rest | readWait n | readAsleep n =>
        cases h _ rfl
      | closePost w =>
        cases hcode
        split_ifs at hg
        · obtain ⟨s, -, hs⟩ := Option.map_eq_some_iff.mp hg
          obtain ⟨rfl, rfl⟩ := Prod.mk.inj hs
          exact ⟨hd, rfl⟩
        · obtain ⟨s, -, hs⟩ := Option.map_eq_some_iff.mp hg
          obtain ⟨rfl, rfl⟩ := Prod.mk.inj hs
          exact ⟨hd, rfl⟩
      | writePost i rest | writeDone i | readPost dst =>
        cases hcode
        obtain ⟨s, -, hs⟩ := Option.map_eq_some_iff.mp hg
        obtain ⟨rfl, rfl⟩ := Prod.mk.inj hs
        exact ⟨hd, rfl⟩
      | closeFree =>
        cases hcode
        obtain ⟨rfl, rfl⟩ := Prod.mk.inj (Option.some.inj hg)
        exact ⟨hd, rfl⟩
      | _ => cases hcode
    exact ⟨hres.1, awake_some hres.2, fun q x _ hx => hx⟩

/-! ## Runs -/

variable {t : MonitorState Pipe Pc}

/-- As long as no process lets the lock go to sleep, the pipe is right. -/
theorem pipe_ok (h : Run pipe.next (Monitor.Avoids releaseToSleep) (Monitor.initial initPipe) t) :
    Ok t := by
  have hinv := Monitor.Inv.run h disciplined rely content_initPipe fun _ _ e => nomatch e
  obtain ⟨l, hl, -⟩ := hinv.data
  refine ⟨hinv.clean.2, hinv.clean.1, ⟨l, hl.symm⟩, hinv.data.bound, fun p hp => ?_,
    fun p hp => ?_⟩
  · obtain ⟨⟨n, hn⟩, -⟩ := hp
    cases hinv.each p _ hn
  · obtain ⟨⟨i, rest, hn⟩, -⟩ := hp
    cases hinv.each p _ hn

/-- A write of three bytes and a read of two by another process. -/
theorem pipe_ok_read : ∃ t : MonitorState Pipe Pc,
    t.data.stored = [1, 2, 3] ∧ t.data.returned = [1, 2] ∧ Ok t := by
  have hexec : (execIf pipe.next (Monitor.Avoids releaseToSleep) (Monitor.initial initPipe)
      [.call 0 (.pipeWrite [1, 2, 3]), .step 0 false, .step 0 false, .step 0 false, .step 0 false,
        .call 1 (.pipeRead 2), .step 1 false, .step 1 false]).map
      (fun t => (t.data.stored, t.data.returned)) = some ([1, 2, 3], [1, 2]) := by
    decide +kernel
  obtain ⟨t, hrun, ht⟩ := Run.of_execIf_map hexec
  simp only [Prod.mk.injEq] at ht
  exact ⟨t, ht.1, ht.2, pipe_ok hrun⟩

/-- A reader sleeps, a writer that has the lock wakes it, and it goes on without the lock. -/
theorem pipe_broken : ¬ ∀ t : MonitorState Pipe Pc,
    Run pipe.next anyStep (Monitor.initial initPipe) t → Ok t := by
  intro h
  have hexec : (exec pipe.next (Monitor.initial initPipe)
      [.call 0 (.pipeRead 1), .step 0 false, .step 0 false, .step 0 false, .step 0 false,
        .call 1 (.pipeWrite [7]), .step 1 false, .step 1 false, .step 1 false, .step 0 false,
        .step 0 false]).map (fun t => (t.badAccess, t.holder)) = some (true, some 1) := by
    decide +kernel
  obtain ⟨t, hrun, ht⟩ := Option.map_eq_some_iff.mp hexec
  simp only [Prod.mk.injEq] at ht
  have := (h t (Run.of_exec hrun)).access
  rw [ht.1] at this
  cases this

end ShikiOS.Fs.Pipes
