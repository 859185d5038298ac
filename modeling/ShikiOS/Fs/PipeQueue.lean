import ShikiOS.Fs.Pipe

/-!
# A pipe as a bounded queue of bytes (`fs/pipe.c`)

Calls on a pipe that do not overlap, where no call has to sleep: a write finds room for its
bytes, and a read finds a byte or the write end closed. `content` are the stored bytes as the
two counters show them. The counters are 32 bits wide and may wrap around any number of times,
which does no harm since `PIPE_SIZE` divides `2^32`.

Results:
* `content_eq`: the bytes that went in and have not come out are the stored ones.
* `call_write`, `call_read`, `call_close`: what each call does.
* `pipe_queue`: after any sequence of calls what was read is a prefix of what was written, and
  the rest is stored; every further call returns what it should.
-/

namespace ShikiOS.Fs.Pipes

open ShikiOS.Lib RingBuffer

namespace Pipe

/-- The number of stored bytes. -/
def count (d : Pipe) : ℕ := (d.nwrite - d.nread).toNat

/-- The stored bytes, the oldest first. -/
def content (d : Pipe) : List UInt8 :=
  (List.range d.count).map fun i => d.data ((d.nread.toNat + i) % pipeSize)

end Pipe

/-- The pipe between the calls of the processes, what the calls of `pipe_write` have written so
    far and what those of `pipe_read` have read. -/
structure Session where
  state : MonitorState Pipe Pc
  written : List UInt8
  read : List UInt8

/-- The bytes that a call has written, by what it returns. -/
def sent : Call → Pc → List UInt8
  | .pipeWrite src, .written r => src.take r.toNat
  | _, _ => []

/-- The bytes that a call has read. -/
def received : Pc → List UInt8
  | .bytesRead (some dst) => dst
  | _ => []

/-- Process `p`, killed or not, makes a call, and nobody makes one until it returns. -/
def Session.call (s : Session) (p : ℕ) (killed : Bool) (c : Call) : Option (Session × Pc) :=
  (pipe.callAlone 8 p killed c s.state).map fun r =>
    (⟨r.1, s.written ++ sent c r.2, s.read ++ received r.2⟩, r.2)

/-- A call, and who makes it. -/
abbrev By : Type := ℕ × Bool × Call

def Session.next (s : Session) (b : By) : Option Session :=
  (s.call b.1 b.2.1 b.2.2).map Prod.fst

/-- The call need not sleep, and does not give the pipe back. -/
def Fitting (d : Pipe) : Call → Prop
  | .pipeWrite src => src.length ≤ pipeSize - d.count
  | .pipeRead n => 0 ≤ n ∧ (0 < d.count ∨ d.writeopen = false)
  | .pipeClose w => (if w then d.readopen else d.writeopen) = true

instance (d : Pipe) (c : Call) : Decidable (Fitting d c) :=
  match c with
  | .pipeWrite src => inferInstanceAs (Decidable (src.length ≤ pipeSize - d.count))
  | .pipeRead n => inferInstanceAs (Decidable (0 ≤ n ∧ (0 < d.count ∨ d.writeopen = false)))
  | .pipeClose w => inferInstanceAs (Decidable ((if w then d.readopen else d.writeopen) = true))

def Fits (s : Session) (b : By) : Prop := Fitting s.state.data b.2.2

instance (s : Session) (b : By) : Decidable (Fits s b) :=
  inferInstanceAs (Decidable (Fitting s.state.data b.2.2))

/-- A new pipe. -/
def newSession : Session := ⟨Monitor.initial initPipe, [], []⟩

/-! ## The stored bytes -/

variable {d d' : Pipe}

@[simp] theorem content_length : d.content.length = d.count := by simp [Pipe.content]

/-- What went in and has not come out is stored. -/
theorem content_eq (h : Content d) : d.stored = d.returned ++ d.content := by
  obtain ⟨l, hl, hring, hr, hw⟩ := h
  have hlen : d.stored.length = d.returned.length + l.length := by rw [hl, List.length_append]
  have hcount : d.count = l.length := by
    have hle := hring.1
    unfold pipeSize at hle
    unfold Pipe.count
    rw [hr, hw, toNat_ofNat_sub (by omega) (by omega)]
    omega
  have hcontent : d.content = l := by
    refine List.ext_getElem (by rw [content_length, hcount]) fun i hi hi' => ?_
    simp only [Pipe.content, List.getElem_map, List.getElem_range]
    rw [← hring.2 i hi', Nat.add_mod, hr, ofNat_toNat_mod pipeSize_dvd, ← Nat.add_mod]
  rw [hcontent]
  exact hl

theorem Content.count_le (h : Content d) : d.count ≤ pipeSize := h.bound

theorem content_full_iff (h : Content d) : d.full = true ↔ d.count = pipeSize := by
  have hc := content_eq h
  obtain ⟨l, hl, hring, hr, hw⟩ := h
  rw [full_iff hl hring.1 hr hw, ← content_length, List.append_cancel_left (hc.symm.trans hl)]

theorem content_empty_iff (h : Content d) : d.empty = true ↔ d.content = [] := by
  have hc := content_eq h
  obtain ⟨l, hl, hring, hr, hw⟩ := h
  rw [empty_iff hl hring.1 hr hw, List.append_cancel_left (hc.symm.trans hl)]

/-- A byte goes in behind the others. -/
theorem content_store (h : Content d) (hfull : d.full = false) (b : UInt8) :
    (d.store b).content = d.content ++ [b] := by
  have hnew := content_eq (h.store hfull b)
  have hold : (d.store b).stored = (d.store b).returned ++ (d.content ++ [b]) := by
    show d.stored ++ [b] = d.returned ++ (d.content ++ [b])
    rw [content_eq h, List.append_assoc]
  exact List.append_cancel_left (hnew.symm.trans hold)

/-- The oldest byte comes out. -/
theorem content_fetch (h : Content d) (hempty : d.empty = false) :
    d.content = d.fetch.1 :: d.fetch.2.content := by
  have hnew := content_eq (h.fetch hempty)
  have hold : d.fetch.2.stored = d.returned ++ d.content := content_eq h
  have hret : d.fetch.2.returned = d.returned ++ [d.fetch.1] := rfl
  rw [hret, List.append_assoc] at hnew
  exact List.append_cancel_left (hold.symm.trans hnew)

/-! ## The loops -/

/-- Everything but the bytes and the counters is as before. -/
structure SameEnds (d d' : Pipe) : Prop where
  readopen : d'.readopen = d.readopen
  writeopen : d'.writeopen = d.writeopen
  wlock : d'.wlock = d.wlock
  rlock : d'.rlock = d.rlock
  freed : d'.freed = d.freed

theorem SameEnds.refl (d : Pipe) : SameEnds d d := ⟨rfl, rfl, rfl, rfl, rfl⟩

/-- With room for all bytes the loop of `pipe_write` stores them. -/
theorem writeLoop_room (killed : Bool) (h : Content d) (i : ℕ) (rest : List UInt8)
    (hroom : rest.length ≤ pipeSize - d.count) :
    ∃ d', d.writeLoop killed i rest = (d', .writeDone (i + rest.length)) ∧ Content d' ∧
      d'.stored = d.stored ++ rest ∧ d'.returned = d.returned ∧ SameEnds d d' := by
  induction rest generalizing d i with
  | nil => exact ⟨d, rfl, h, (List.append_nil _).symm, rfl, .refl d⟩
  | cons b rest ih =>
    rw [List.length_cons] at hroom
    have hfull : d.full = false := by
      rw [← Bool.not_eq_true, content_full_iff h]
      omega
    have hcount : (d.store b).count = d.count + 1 := by
      rw [← content_length, content_store h hfull, List.length_append, content_length]
      rfl
    obtain ⟨d', hloop, hd', hstored, hret, hsame⟩ := ih (h.store hfull b) (i + 1) (by omega)
    refine ⟨d', ?_, hd', ?_, hret, ?_⟩
    · unfold Pipe.writeLoop
      rw [if_neg (by simp [hfull]), hloop, List.length_cons]
      congr 2
      omega
    · rw [hstored]
      show (d.stored ++ [b]) ++ rest = _
      rw [List.append_assoc, List.singleton_append]
    · exact ⟨hsame.readopen, hsame.writeopen, hsame.wlock, hsame.rlock, hsame.freed⟩

/-- The second loop of `pipe_read` takes the oldest bytes, at most `n`. -/
theorem copyLoop_takes (h : Content d) (n : ℕ) (dst : List UInt8) :
    ∃ d', d.copyLoop n dst = (d', .readRelease (dst ++ d.content.take n)) ∧ Content d' ∧
      d'.stored = d.stored ∧ d'.returned = d.returned ++ d.content.take n ∧ SameEnds d d' := by
  induction n generalizing d dst with
  | zero => exact ⟨d, by simp [Pipe.copyLoop], h, rfl, by simp, .refl d⟩
  | succ n ih =>
    unfold Pipe.copyLoop
    by_cases hempty : d.empty = true
    · have hnil := (content_empty_iff h).mp hempty
      rw [if_pos hempty, hnil]
      exact ⟨d, by simp, h, rfl, by simp, .refl d⟩
    · have hempty' : d.empty = false := by simpa using hempty
      obtain ⟨d', hloop, hd', hstored, hret, hsame⟩ := ih (h.fetch hempty') (dst ++ [d.fetch.1])
      rw [if_neg hempty, content_fetch h hempty', List.take_succ_cons]
      refine ⟨d', ?_, hd', hstored, ?_, ?_⟩
      · rw [hloop, List.append_assoc, List.singleton_append]
      · rw [hret]
        show (d.returned ++ [d.fetch.1]) ++ _ = _
        rw [List.append_assoc, List.singleton_append]
      · exact ⟨hsame.readopen, hsame.writeopen, hsame.wlock, hsame.rlock, hsame.freed⟩

/-- With a byte stored, or the write end closed, `pipe_read` does not sleep. -/
theorem readLoop_takes (killed : Bool) (h : Content d) (n : ℤ)
    (hready : 0 < d.count ∨ d.writeopen = false) :
    ∃ d', d.readLoop killed n = (d', .readRelease (d.content.take n.toNat)) ∧ Content d' ∧
      d'.stored = d.stored ∧ d'.returned = d.returned ++ d.content.take n.toNat ∧
      SameEnds d d' := by
  have hgo : (d.empty && d.writeopen) = false := by
    rcases hready with hcount | hclosed
    · have hempty : d.empty = false := by
        rw [← Bool.not_eq_true, content_empty_iff h, ← List.length_eq_zero_iff, content_length]
        omega
      rw [hempty, Bool.false_and]
    · rw [hclosed, Bool.and_false]
  unfold Pipe.readLoop
  rw [hgo, if_neg Bool.false_ne_true]
  exact copyLoop_takes h n.toNat []

/-! ## The calls -/

/-- Between two calls: nobody is in a call or has the lock, and bytes and semaphores are right. -/
structure Idle (s : Session) (d : Pipe) : Prop where
  state : s.state = Monitor.initial d
  content : Content d
  rlock : d.rlock.Ok
  wlock : d.wlock.Ok
  written : s.written = d.stored
  read : s.read = d.returned

theorem idle_newSession : Idle newSession initPipe :=
  ⟨rfl, content_initPipe, Sem.ok_init (le_refl 0), Sem.ok_init (le_refl 0), rfl, rfl⟩

/-- `post_all_sem` leaves the semaphore as it should be. -/
theorem semPost_postAll {s : Sem ℕ} (h : s.Ok) :
    ∃ s', semPost Sem.postAll s = some s' ∧ s'.Ok := by
  refine ⟨⟨max s.val 0, []⟩, ?_, fun _ => rfl, fun hneg => ?_⟩
  · unfold semPost
    rw [Sem.postAll_eq h]
    rfl
  · have hv : max s.val 0 < 0 := hneg
    omega

variable {s : Session}

theorem call_write (h : Idle s d) (p : ℕ) (killed : Bool) (src : List UInt8)
    (hroom : src.length ≤ pipeSize - d.count) :
    ∃ s' d', s.call p killed (.pipeWrite src) = some (s', .written src.length) ∧ Idle s' d' ∧
      s'.written = s.written ++ src ∧ s'.read = s.read := by
  obtain ⟨d₁, hloop, hd₁, hstored, hret, hsame⟩ :=
    writeLoop_room killed h.content 0 src hroom
  obtain ⟨r, hpost, hr⟩ := semPost_postAll (hsame.rlock ▸ h.rlock)
  rw [Nat.zero_add] at hloop
  have hcall : pipe.callAlone 8 p killed (.pipeWrite src) s.state =
      some (Monitor.initial { d₁ with rlock := r }, .written src.length) := by
    rw [h.state, Monitor.callAlone_eq rfl]
    show Monitor.finish pipe p killed 8 (Monitor.busy d p none (.write src)) = _
    rw [Monitor.finish_acquire rfl, Monitor.finish_access rfl (congrArg some hloop),
      Monitor.finish_act rfl (congrArg (Option.map _) hpost), Monitor.finish_release rfl,
      Monitor.finish_ret rfl]
  refine ⟨⟨Monitor.initial { d₁ with rlock := r }, s.written ++ src, s.read⟩,
    { d₁ with rlock := r }, ?_, ⟨rfl, hd₁, hr, hsame.wlock ▸ h.wlock, ?_, ?_⟩, rfl, rfl⟩
  · unfold Session.call
    rw [hcall]
    simp [sent, received]
  · rw [h.written]
    exact hstored.symm
  · rw [h.read]
    exact hret.symm

theorem call_read (h : Idle s d) (p : ℕ) (killed : Bool) (n : ℤ)
    (hready : 0 < d.count ∨ d.writeopen = false) :
    ∃ s' d', s.call p killed (.pipeRead n) =
        some (s', .bytesRead (some (d.content.take n.toNat))) ∧ Idle s' d' ∧
      s'.written = s.written ∧ s'.read = s.read ++ d.content.take n.toNat := by
  obtain ⟨d₁, hloop, hd₁, hstored, hret, hsame⟩ :=
    readLoop_takes killed h.content n hready
  obtain ⟨w, hpost, hw⟩ := semPost_postAll (hsame.wlock ▸ h.wlock)
  have hcall : pipe.callAlone 8 p killed (.pipeRead n) s.state =
      some (Monitor.initial { d₁ with wlock := w },
        .bytesRead (some (d.content.take n.toNat))) := by
    rw [h.state, Monitor.callAlone_eq rfl]
    show Monitor.finish pipe p killed 8 (Monitor.busy d p none (.read n)) = _
    rw [Monitor.finish_acquire rfl, Monitor.finish_access rfl (congrArg some hloop),
      Monitor.finish_release rfl, Monitor.finish_act rfl (congrArg (Option.map _) hpost),
      Monitor.finish_ret rfl]
  refine ⟨⟨Monitor.initial { d₁ with wlock := w }, s.written, s.read ++ d.content.take n.toNat⟩,
    { d₁ with wlock := w }, ?_, ⟨rfl, hd₁, hsame.rlock ▸ h.rlock, hw, ?_, ?_⟩, rfl, rfl⟩
  · unfold Session.call
    rw [hcall]
    simp [sent, received]
  · rw [h.written]
    exact hstored.symm
  · show s.read ++ _ = d₁.returned
    rw [h.read]
    exact hret.symm

/-- Closing one end while the other is open. -/
theorem call_close (h : Idle s d) (p : ℕ) (killed w : Bool)
    (hopen : (if w then d.readopen else d.writeopen) = true) :
    ∃ s' d', s.call p killed (.pipeClose w) = some (s', .closed) ∧ Idle s' d' ∧
      s'.written = s.written ∧ s'.read = s.read := by
  have hkept : Content (d.closeEnd w) := closeEnd_kept h.content w
  cases w with
  | true =>
    obtain ⟨r, hpost, hr⟩ := semPost_postAll h.rlock
    have hcall : pipe.callAlone 8 p killed (.pipeClose true) s.state =
        some (Monitor.initial { d.closeEnd true with rlock := r }, .closed) := by
      rw [h.state, Monitor.callAlone_eq rfl]
      show Monitor.finish pipe p killed 8 (Monitor.busy d p none (.close true)) = _
      have hopen' : d.readopen = true := hopen
      rw [Monitor.finish_acquire rfl, Monitor.finish_access rfl rfl,
        Monitor.finish_act rfl (congrArg (Option.map _) hpost), Monitor.finish_access rfl rfl]
      simp only [Pipe.closeEnd, if_true, hopen', Bool.not_true, Bool.false_and]
      rw [Monitor.finish_release rfl, Monitor.finish_ret rfl]
      rfl
    refine ⟨⟨Monitor.initial { d.closeEnd true with rlock := r }, s.written, s.read⟩,
      { d.closeEnd true with rlock := r }, ?_, ⟨rfl, hkept, hr, h.wlock, h.written, h.read⟩,
      rfl, rfl⟩
    unfold Session.call
    rw [hcall]
    simp [sent, received]
  | false =>
    obtain ⟨r, hpost, hr⟩ := semPost_postAll h.wlock
    have hcall : pipe.callAlone 8 p killed (.pipeClose false) s.state =
        some (Monitor.initial { d.closeEnd false with wlock := r }, .closed) := by
      rw [h.state, Monitor.callAlone_eq rfl]
      show Monitor.finish pipe p killed 8 (Monitor.busy d p none (.close false)) = _
      have hopen' : d.writeopen = true := hopen
      rw [Monitor.finish_acquire rfl, Monitor.finish_access rfl rfl,
        Monitor.finish_act rfl (congrArg (Option.map _) hpost), Monitor.finish_access rfl rfl]
      simp only [Pipe.closeEnd, Bool.false_eq_true, if_false, hopen', Bool.not_true, Bool.and_false]
      rw [Monitor.finish_release rfl, Monitor.finish_ret rfl]
      rfl
    refine ⟨⟨Monitor.initial { d.closeEnd false with wlock := r }, s.written, s.read⟩,
      { d.closeEnd false with wlock := r }, ?_, ⟨rfl, hkept, h.rlock, hr, h.written, h.read⟩,
      rfl, rfl⟩
    unfold Session.call
    rw [hcall]
    simp [sent, received]

/-! ## Runs -/

/-- A call that fits returns and keeps the pipe right. -/
theorem Idle.next {b : By} {s' : Session} (h : Idle s d) (hfit : Fits s b)
    (hnext : s.next b = some s') : ∃ d', Idle s' d' := by
  obtain ⟨p, killed, c⟩ := b
  have hdata : s.state.data = d := by rw [h.state]; rfl
  have hfit' : Fitting d c := hdata ▸ hfit
  obtain ⟨r, hr, rfl⟩ := Option.map_eq_some_iff.mp hnext
  cases c with
  | pipeWrite src =>
    obtain ⟨s', d', hcall, hd', -⟩ := call_write h p killed src hfit'
    obtain rfl := Option.some.inj (hcall.symm.trans hr)
    exact ⟨d', hd'⟩
  | pipeRead n =>
    obtain ⟨s', d', hcall, hd', -⟩ := call_read h p killed n hfit'.2
    obtain rfl := Option.some.inj (hcall.symm.trans hr)
    exact ⟨d', hd'⟩
  | pipeClose w =>
    obtain ⟨s', d', hcall, hd', -⟩ := call_close h p killed w hfit'
    obtain rfl := Option.some.inj (hcall.symm.trans hr)
    exact ⟨d', hd'⟩

theorem idle_run (hrun : Run Session.next Fits newSession s) : ∃ d, Idle s d := by
  refine hrun.invariant (I := fun s => ∃ d, Idle s d) ⟨initPipe, idle_newSession⟩ ?_
  intro t b u ht hfit hnext
  obtain ⟨d, hd⟩ := ht
  exact hd.next hfit hnext

/-- The pipe is a bounded queue: after any sequence of calls that do not overlap and need not
    sleep, what was read and then what is stored is what was written, and each further call
    returns what the queue says. -/
theorem pipe_queue (hrun : Run Session.next Fits newSession s) :
    s.written = s.read ++ s.state.data.content ∧ s.state.data.content.length ≤ pipeSize ∧
    (∀ p killed src, src.length ≤ pipeSize - s.state.data.content.length →
      ∃ s', s.call p killed (.pipeWrite src) = some (s', .written src.length) ∧
        s'.written = s.written ++ src ∧ s'.read = s.read) ∧
    (∀ p killed n, 0 ≤ n →
      0 < s.state.data.content.length ∨ s.state.data.writeopen = false →
      ∃ s' dst, s.call p killed (.pipeRead n) = some (s', .bytesRead (some dst)) ∧
        (dst.length : ℤ) = min n s.state.data.content.length ∧
        s'.written = s.written ∧ s'.read = s.read ++ dst ∧
        (0 < n → dst = [] →
          s.state.data.content = [] ∧ s.state.data.writeopen = false)) := by
  obtain ⟨d, h⟩ := idle_run hrun
  have hdata : s.state.data = d := by rw [h.state]; rfl
  rw [hdata]
  refine ⟨?_, ?_, ?_, ?_⟩
  · rw [h.written, h.read]
    exact content_eq h.content
  · rw [content_length]
    exact h.content.count_le
  · intro p killed src hroom
    rw [content_length] at hroom
    obtain ⟨s', -, hcall, -, hwritten, hread⟩ := call_write h p killed src hroom
    exact ⟨s', hcall, hwritten, hread⟩
  · intro p killed n hn hready
    rw [content_length] at hready
    obtain ⟨s', -, hcall, -, hwritten, hread⟩ := call_read h p killed n hready
    refine ⟨s', _, hcall, ?_, hwritten, hread, fun hpos hnil => ?_⟩
    · rw [List.length_take]
      omega
    · have hempty : d.content = [] := by
        rcases List.take_eq_nil_iff.mp hnil with hzero | hempty
        · omega
        · exact hempty
      refine ⟨hempty, ?_⟩
      rw [← content_length, hempty] at hready
      exact hready.resolve_left (Nat.lt_irrefl 0)

/-- Two bytes of three are read, the write end is closed, and the last byte is read. -/
theorem pipe_queue_three : ∃ s : Session, Run Session.next Fits newSession s ∧
    s.written = [1, 2, 3] ∧ s.written = s.read ++ s.state.data.content := by
  have hexec : (execIf Session.next Fits newSession [(0, false, .pipeWrite [1, 2, 3]),
      (1, false, .pipeRead 2), (0, false, .pipeClose true), (1, true, .pipeRead 5)]).map
      (fun s => s.written) = some [1, 2, 3] := by
    decide +kernel
  obtain ⟨s, hrun, hs⟩ := Run.of_execIf_map hexec
  exact ⟨s, hrun, hs, (pipe_queue hrun).1⟩

end ShikiOS.Fs.Pipes
