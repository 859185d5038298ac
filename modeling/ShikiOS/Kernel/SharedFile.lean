import ShikiOS.Fs.FileReadWrite
import ShikiOS.Kernel.System
import ShikiOS.Lib.Run

/-!
# Writing to a shared file (`fs/file.c`, lines 138-167)

`file_write` writes its bytes in chunks, each in an operation of its own. Between the calls of a chunk
other processes that have the same `File` may run. The offset is shared; how far a call has come is its
own.

A call that would sleep is one that cannot be made yet, and where the kernel stops there is no step.

Results:
* `step_inv`: what each of these calls leaves behind.
* `fileWrite_shared`: the chunks of all calls follow each other in the file.
-/

namespace ShikiOS.Kernel.SharedFile

open ShikiOS.Lib Fs Fs.Bcache Fs.Inodes
open Calls (opMaxBytes)

variable {P : Type*} [DecidableEq P]

/-! ## Model -/

/-- Where a call of `file_write` is (file.c:149-163): at the test of the loop, or in front of the
    function named. `wlen` is what `inodes.write` returned. -/
inductive Pc
  | test
  | lock
  | write
  | advance (wlen : ℕ)
  | unlock (wlen : ℕ)
  | endOp (wlen : ℕ)

/-- A call of `file_write` for the bytes at `addr`. -/
structure Call where
  addr : List UInt8
  cur : ℕ
  pc : Pc

/-- The `len` bytes at `addr + cur`. -/
def Call.src (c : Call) : List UInt8 := (c.addr.drop c.cur).take opMaxBytes

/-- The call has the lock of the inode. -/
def Call.inside (c : Call) : Bool :=
  match c.pc with
  | .write | .advance _ | .unlock _ => true
  | _ => false

/-- The call is about to end its operation. -/
def Call.ends (c : Call) : Bool :=
  match c.pc with
  | .endOp _ => true
  | _ => false

/-- What a call of `inodes.write` has written. -/
structure Chunk (P : Type*) where
  writer : P
  off : ℕ
  bytes : List UInt8

/-- A call that has returned. -/
structure Return (P : Type*) where
  writer : P
  addr : List UInt8
  result : ℤ

/-- The file system, `f->off`, and the calls of `file_write` on `f`. The code does not have the lists
    of what was written and returned. -/
structure System (P : Type*) where
  fs : FsState
  off : ℕ
  call : P → Option Call
  written : List (Chunk P)
  returned : List (Return P)

def System.goto (s : System P) (w : P) (c : Call) : System P :=
  { s with call := Function.update s.call w (some c) }

/-- A call of the file system. -/
def System.run {α : Type} (s : System P) (x : Inodes.M α) (k : System P → α → System P) : Option (System P) :=
  match x s.fs with
  | .ok a fs => some (k { s with fs := fs } a)
  | .error _ _ => none

/-- The next step of the call `c` of `w`. The inode of the file is `p`, and `ctx` is the operation
    context of each process. -/
def System.next (sb : SuperBlock) (p : ℕ) (ctx : P → ℕ) (s : System P) (w : P) (c : Call) :
    Option (System P) :=
  match c.pc with
  | .test =>
    if c.cur < c.addr.length then
      s.run (cache (cacheBeginOp (ctx w))) fun s _ => s.goto w { c with pc := .lock }
    else
      let result := if c.cur = c.addr.length then (c.addr.length : ℤ) else -1
      some { s with
        call := Function.update s.call w none
        returned := s.returned ++ [⟨w, c.addr, result⟩] }
  | .lock => s.run (inodeLock p) fun s _ => s.goto w { c with pc := .write }
  | .write => s.run (inodeWrite sb (some (ctx w)) p c.src s.off) fun s wlen =>
    let s : System P := { s with written := s.written ++ [⟨w, s.off, c.src.take wlen⟩] }
    s.goto w { c with pc := .advance wlen }
  | .advance wlen =>
    let s : System P := { s with off := if wlen > 0 then usize (s.off + wlen) else s.off }
    some (s.goto w { c with pc := .unlock wlen })
  | .unlock wlen => s.run (inodeUnlock p) fun s _ => s.goto w { c with pc := .endOp wlen }
  | .endOp wlen => s.run (cache (cacheEndOp sb (ctx w))) fun s _ =>
    s.goto w { c with cur := c.cur + wlen, pc := .test }

/-- A process calls `file_write`, or goes on with its call. -/
inductive Act (P : Type*)
  | call (w : P) (addr : List UInt8)
  | go (w : P)

def System.step (sb : SuperBlock) (p : ℕ) (ctx : P → ℕ) (s : System P) : Act P → Option (System P)
  | .call w addr =>
    if (s.call w).isNone ∧ addr ≠ [] then some (s.goto w ⟨addr, 0, .test⟩) else none
  | .go w => (s.call w).bind fun c => s.next sb p ctx w c

/-- A commit fits into the log area. -/
def Fits (sb : SuperBlock) (s : System P) : Act P → Prop
  | .call _ _ => True
  | .go w => (s.call w).any Call.ends = true → s.fs.cache.outstanding ≤ 1 →
    s.fs.cache.header.numBlocks + 1 ≤ sb.numLogBlocks

instance (sb : SuperBlock) (s : System P) : ∀ a : Act P, Decidable (Fits sb s a)
  | .call _ _ => inferInstanceAs (Decidable True)
  | .go _ => inferInstanceAs (Decidable (_ → _ → _))

/-! ## What has been written -/

/-- `src` in the place of the bytes from `off` on. -/
def splice (l : List UInt8) (off : ℕ) (src : List UInt8) : List UInt8 :=
  l.take off ++ src ++ l.drop (off + src.length)

theorem splice_nil (l : List UInt8) (off : ℕ) : splice l off [] = l := by
  rw [splice, List.append_nil, List.length_nil, Nat.add_zero, List.take_append_drop]

theorem length_splice {l src : List UInt8} {off : ℕ} (h : off ≤ l.length) :
    off + src.length ≤ (splice l off src).length := by
  rw [splice, List.length_append, List.length_append, List.length_take]
  omega

/-- Two pieces behind each other. -/
theorem splice_splice {l a b : List UInt8} {off : ℕ} (h : off ≤ l.length) :
    splice (splice l off a) (off + a.length) b = splice l off (a ++ b) := by
  have hfront : (l.take off ++ a).length = off + a.length := by
    rw [List.length_append, List.length_take]
    omega
  have htake : (splice l off a).take (off + a.length) = l.take off ++ a := by
    rw [splice, ← hfront, List.take_left]
  have hdrop : (splice l off a).drop (off + a.length + b.length) =
      l.drop (off + (a ++ b).length) := by
    rw [splice, List.drop_append, hfront, List.drop_eq_nil_of_le (by rw [hfront]; omega), List.nil_append,
      List.drop_drop, List.length_append]
    congr 1
    omega
  rw [splice, htake, hdrop, splice, List.append_assoc (l.take off)]

/-- The bytes of the chunks. -/
def bytesOf (l : List (Chunk P)) : List UInt8 := l.flatMap Chunk.bytes

/-- Each chunk begins where the one before it ends, the first one at `off`. -/
def Consecutive : ℕ → List (Chunk P) → Prop
  | _, [] => True
  | off, c :: l => c.off = off ∧ Consecutive (off + c.bytes.length) l

omit [DecidableEq P] in
theorem bytesOf_append (l : List (Chunk P)) (c : Chunk P) :
    bytesOf (l ++ [c]) = bytesOf l ++ c.bytes := by
  rw [bytesOf, List.flatMap_append, List.flatMap_singleton]
  rfl

omit [DecidableEq P] in
theorem consecutive_append {l : List (Chunk P)} {c : Chunk P} {off : ℕ} :
    Consecutive off (l ++ [c]) ↔ Consecutive off l ∧ c.off = off + (bytesOf l).length := by
  induction l generalizing off with
  | nil => simp [Consecutive, bytesOf]
  | cons d l ih =>
    simp only [List.cons_append, Consecutive, ih, bytesOf, List.flatMap_cons, List.length_append,
      and_assoc, Nat.add_assoc]

/-- What `w` has written. -/
def chunksOf (w : P) (l : List (Chunk P)) : List UInt8 := bytesOf (l.filter (·.writer = w))

/-- What `w` has passed to the calls that have returned. -/
def passed (w : P) (l : List (Return P)) : List UInt8 := (l.filter (·.writer = w)).flatMap Return.addr

theorem chunksOf_append (w : P) (l : List (Chunk P)) (c : Chunk P) :
    chunksOf w (l ++ [c]) = chunksOf w l ++ if c.writer = w then c.bytes else [] := by
  rw [chunksOf, List.filter_append, bytesOf, List.flatMap_append, chunksOf, bytesOf]
  by_cases h : c.writer = w <;> simp [h]

theorem passed_append (w : P) (l : List (Return P)) (r : Return P) :
    passed w (l ++ [r]) = passed w l ++ if r.writer = w then r.addr else [] := by
  rw [passed, List.filter_append, List.flatMap_append, passed]
  by_cases h : r.writer = w <;> simp [h]

/-- Every element belongs to one process. -/
theorem sum_filter [Fintype P] {α : Type*} (f : α → P) (g : α → List UInt8) (l : List α) :
    ∑ w, ((l.filter (f · = w)).flatMap g).length = (l.flatMap g).length := by
  induction l with
  | nil => simp
  | cons a l ih =>
    have hcons : ∀ w, (((a :: l).filter (f · = w)).flatMap g).length =
        (if f a = w then (g a).length else 0) + ((l.filter (f · = w)).flatMap g).length := by
      intro w
      by_cases h : f a = w <;> simp [h]
    rw [Finset.sum_congr rfl fun w _ => hcons w, Finset.sum_add_distrib, ih, Finset.sum_ite_eq,
      if_pos (Finset.mem_univ _), List.flatMap_cons, List.length_append]

/-! ## The invariant -/

/-- `wlen`, once `inodes.write` has returned. -/
def Call.wlen (c : Call) : Option ℕ :=
  match c.pc with
  | .advance wlen | .unlock wlen | .endOp wlen => some wlen
  | _ => none

/-- The bytes that the call has written. -/
def Call.done (c : Call) : ℕ := c.cur + c.wlen.getD 0

/-- What has been written and not been added to `f->off` yet. -/
def Call.lag (c : Call) : ℕ :=
  match c.pc with
  | .advance wlen => wlen
  | _ => 0

/-- `inodes.write` writes all of a chunk. -/
structure Call.Ok (c : Call) : Prop where
  cur : c.cur ≤ c.addr.length
  wlen : ∀ n, c.wlen = some n → n = c.src.length

theorem Call.length_src (c : Call) : c.src.length = min opMaxBytes (c.addr.length - c.cur) := by
  rw [Call.src, List.length_take, List.length_drop]

theorem Call.take_src (c : Call) : c.addr.take c.cur ++ c.src = c.addr.take (c.cur + c.src.length) := by
  rw [List.take_add, Call.src, List.length_take, List.take_eq_take_min (i := min _ _)]
  simp

/-- The inode is open, and is locked by the process in `h` if there is one. `l₀` is the content of
    the file and `off₀` the offset before the first call. -/
structure Holds (sb : SuperBlock) (p : ℕ) (l₀ : List UInt8) (off₀ : ℕ) (s : System P)
    (σ : ℕ → BlockData) (F : List ℕ) (i : Inode) (h : Option P) : Prop where
  opened : OpenInode sb σ F p i s.fs
  type : i.entry.type = inodeRegular
  lock : i.lock = if h = none then 1 else 0
  inside : ∀ w c, s.call w = some c → (c.inside = true ↔ h = some w)
  holder : ∀ w, h = some w → s.call w ≠ none
  ok : ∀ w c, s.call w = some c → c.Ok
  off : s.off + (h.bind s.call).elim 0 Call.lag = off₀ + (bytesOf s.written).length
  content : fileContent σ i.entry = splice l₀ off₀ (bytesOf s.written)
  consecutive : Consecutive off₀ s.written
  order : ∀ w, chunksOf w s.written =
    passed w s.returned ++ (s.call w).elim [] fun c => c.addr.take c.done
  result : ∀ r ∈ s.returned, r.result = r.addr.length

variable {sb : SuperBlock} {p : ℕ} {ctx : P → ℕ} {l₀ : List UInt8} {off₀ : ℕ} {s t : System P}
  {σ : ℕ → BlockData} {F : List ℕ} {i i' : Inode} {h h' : Option P} {w : P} {c c' : Call} {fs' : FsState}
  {off' : ℕ} {α : Type}

theorem goto_call (v : P) : (s.goto w c).call v = if v = w then some c else s.call v :=
  Function.update_apply s.call w (some c) v

theorem goto_cases {v : P} {d : Call} (hv : (s.goto w c).call v = some d) :
    (v = w ∧ d = c) ∨ (v ≠ w ∧ s.call v = some d) := by
  rw [goto_call] at hv
  split_ifs at hv with hvw
  · exact .inl ⟨hvw, (Option.some.inj hv).symm⟩
  · exact .inr ⟨hvw, hv⟩

/-- A step that writes nothing: the call of `w` goes on to `c'`. -/
theorem Holds.move (hi : Holds sb p l₀ off₀ s σ F i h) (hc : s.call w = some c)
    (ho : OpenInode sb σ F p i' fs') (he : i'.entry = i.entry) (hl : i'.lock = if h' = none then 1 else 0)
    (hin : c'.inside = true ↔ h' = some w) (hh : ∀ v ≠ w, h' = some v ↔ h = some v) (hok : c'.Ok)
    (ha : c'.addr = c.addr) (hd : c'.done = c.done)
    (hoff : off' + (h'.bind fun v => if v = w then some c' else s.call v).elim 0 Call.lag =
      s.off + (h.bind s.call).elim 0 Call.lag) :
    Holds sb p l₀ off₀ ({ s with fs := fs', off := off' }.goto w c') σ F i' h' := by
  refine ⟨ho, by rw [he]; exact hi.type, hl, fun v d hv => ?_, fun v hv => ?_, fun v d hv => ?_, ?_,
    by rw [he]; exact hi.content, hi.consecutive, fun v => ?_, hi.result⟩
  · rcases goto_cases hv with ⟨rfl, rfl⟩ | ⟨hne, hv⟩
    · exact hin
    · rw [hi.inside v d hv, hh v hne]
  · rw [goto_call]
    split_ifs with hvw
    · exact Option.some_ne_none c'
    · exact hi.holder v ((hh v hvw).mp hv)
  · rcases goto_cases hv with ⟨-, rfl⟩ | ⟨-, hv⟩
    · exact hok
    · exact hi.ok v d hv
  · have hfun : (({ s with fs := fs', off := off' } : System P).goto w c').call =
        fun v => if v = w then some c' else s.call v := funext goto_call
    rw [hfun]
    exact hoff.trans hi.off
  · rw [goto_call]
    refine (hi.order v).trans ?_
    split_ifs with hvw
    · subst hvw
      rw [hc, Option.elim_some, Option.elim_some, ha, hd]
      rfl
    · rfl

/-! ## The steps -/

omit [DecidableEq P] in
theorem run_eq {x : Inodes.M α} {k : System P → α → System P} (h : s.run x k = some t) :
    ∃ a fs, x s.fs = .ok a fs ∧ t = k { s with fs := fs } a := by
  rw [System.run] at h
  split at h
  · next a fs hx => exact ⟨a, fs, hx, (Option.some.inj h).symm⟩
  · cases h

theorem Holds.not_inside (hi : Holds sb p l₀ off₀ s σ F i h) (hc : s.call w = some c)
    (hin : c.inside = false) : h ≠ some w := by
  intro hw
  have := (hi.inside w c hc).mpr hw
  rw [hin] at this
  cases this

omit [DecidableEq P] in
theorem Holds.of_inside [DecidableEq P] (hi : Holds sb p l₀ off₀ s σ F i h) (hc : s.call w = some c)
    (hin : c.inside = true) : h = some w := (hi.inside w c hc).mp hin

/-- The call of the process with the lock stays as it is. -/
theorem bind_other (hw : h ≠ some w) :
    (h.bind fun v => if v = w then some c' else s.call v) = h.bind s.call := by
  cases h with
  | none => rfl
  | some v =>
    rw [Option.bind_some, Option.bind_some, if_neg]
    rintro rfl
    exact hw rfl

/-- The offset lies in the file. -/
theorem Holds.end_le (hi : Holds sb p l₀ off₀ s σ F i h) (h0 : off₀ ≤ l₀.length) :
    off₀ + (bytesOf s.written).length ≤ i.entry.numBytes.toNat := by
  have hlen : (fileContent σ i.entry).length = i.entry.numBytes.toNat := length_fileBytes _ _
  rw [← hlen, hi.content]
  exact length_splice h0

theorem Holds.begins (hi : Holds sb p l₀ off₀ s σ F i h) (hc : s.call w = some c) (hpc : c.pc = .test)
    (ht : (s.run (cache (cacheBeginOp (ctx w))) fun s _ => s.goto w { c with pc := .lock }) = some t) :
    Holds sb p l₀ off₀ t σ F i h := by
  obtain ⟨_, fs, hx, rfl⟩ := run_eq ht
  have hout : c.inside = false := by rw [Call.inside, hpc]
  have hw := hi.not_inside hc hout
  have hok := hi.ok w c hc
  refine hi.move hc (hi.opened.beginOp.of_ok hx) rfl hi.lock (iff_of_false (by simp [Call.inside]) hw)
    (fun _ _ => Iff.rfl) ⟨hok.cur, fun n hn => ?_⟩ rfl ?_ ?_
  · cases hn
  · rw [Call.done, Call.done, Call.wlen, Call.wlen, hpc]
  · rw [bind_other hw]

theorem Holds.acquire (hi : Holds sb p l₀ off₀ s σ F i h) (hc : s.call w = some c) (hpc : c.pc = .lock)
    (ht : (s.run (inodeLock p) fun s _ => s.goto w { c with pc := .write }) = some t) :
    Holds sb p l₀ off₀ t σ F { i with lock := i.lock - 1 } (some w) := by
  obtain ⟨_, fs, hx, rfl⟩ := run_eq ht
  obtain ⟨hpos, hopen⟩ := hi.opened.wp_lock.of_ok hx
  have hnone : h = none := by
    by_contra hne
    have hl := hi.lock
    rw [if_neg hne] at hl
    omega
  subst hnone
  have hl : i.lock = 1 := hi.lock
  have hok := hi.ok w c hc
  refine hi.move hc hopen rfl (by rw [hl]; rfl) (iff_of_true rfl rfl) (fun v hv => ?_)
    ⟨hok.cur, fun n hn => ?_⟩ rfl ?_ ?_
  · exact iff_of_false (fun he => hv (Option.some.inj he).symm) (by simp)
  · cases hn
  · rw [Call.done, Call.done, Call.wlen, Call.wlen, hpc]
  · rw [Option.bind_some, if_pos rfl]
    rfl

theorem Holds.advance {n : ℕ} (hi : Holds sb p l₀ off₀ s σ F i h) (h0 : off₀ ≤ l₀.length)
    (hc : s.call w = some c) (hpc : c.pc = .advance n) :
    Holds sb p l₀ off₀ ({ s with off := if n > 0 then usize (s.off + n) else s.off }.goto w
      { c with pc := .unlock n }) σ F i h := by
  obtain rfl := hi.of_inside hc (by rw [Call.inside, hpc])
  have hok := hi.ok w c hc
  have hlag : c.lag = n := by rw [Call.lag, hpc]
  have hoff := hi.off
  rw [Option.bind_some, hc, Option.elim_some, hlag] at hoff
  have hsize := hi.end_le h0
  have hlt := i.entry.numBytes.toNat_lt
  refine hi.move hc hi.opened rfl hi.lock (iff_of_true rfl rfl) (fun _ _ => Iff.rfl)
    ⟨hok.cur, fun m hm => hok.wlen m (by rw [Call.wlen, hpc]; exact hm)⟩ rfl ?_ ?_
  · rw [Call.done, Call.done, Call.wlen, Call.wlen, hpc]
  · rw [Option.bind_some, if_pos rfl, Option.bind_some, hc, Option.elim_some, Option.elim_some, hlag]
    show (if n > 0 then usize (s.off + n) else s.off) + 0 = s.off + n
    split_ifs with hn
    · exact Nat.mod_eq_of_lt (by omega)
    · omega

theorem Holds.release {n : ℕ} (hi : Holds sb p l₀ off₀ s σ F i h) (hc : s.call w = some c)
    (hpc : c.pc = .unlock n)
    (ht : (s.run (inodeUnlock p) fun s _ => s.goto w { c with pc := .endOp n }) = some t) :
    Holds sb p l₀ off₀ t σ F { i with lock := i.lock + 1 } none := by
  obtain ⟨_, fs, hx, rfl⟩ := run_eq ht
  obtain rfl := hi.of_inside hc (by rw [Call.inside, hpc])
  have hl : i.lock = 0 := hi.lock
  have hok := hi.ok w c hc
  refine hi.move hc (hi.opened.wp_unlock.of_ok hx) rfl (by rw [hl]; rfl)
    (iff_of_false (by simp [Call.inside]) (by simp)) (fun v hv => ?_)
    ⟨hok.cur, fun m hm => hok.wlen m (by rw [Call.wlen, hpc]; exact hm)⟩ rfl ?_ ?_
  · exact iff_of_false (by simp) fun he => hv (Option.some.inj he).symm
  · rw [Call.done, Call.done, Call.wlen, Call.wlen, hpc]
  · rw [Option.bind_some, hc, Option.elim_some, Call.lag, hpc]
    rfl

theorem Holds.ends {n : ℕ} (hi : Holds sb p l₀ off₀ s σ F i h) (hc : s.call w = some c)
    (hpc : c.pc = .endOp n)
    (hn : s.fs.cache.outstanding ≤ 1 → s.fs.cache.header.numBlocks + 1 ≤ sb.numLogBlocks)
    (ht : (s.run (cache (cacheEndOp sb (ctx w))) fun s _ =>
      s.goto w { c with cur := c.cur + n, pc := .test }) = some t) :
    Holds sb p l₀ off₀ t σ F i h := by
  obtain ⟨_, fs, hx, rfl⟩ := run_eq ht
  have hw := hi.not_inside hc (by rw [Call.inside, hpc])
  have hok := hi.ok w c hc
  have hlen := hok.wlen n (by rw [Call.wlen, hpc])
  have hsrc := c.length_src
  have hcur := hok.cur
  refine hi.move hc ((hi.opened.endOp hn).of_ok hx) rfl hi.lock (iff_of_false (by simp [Call.inside]) hw)
    (fun _ _ => Iff.rfl) ⟨?_, fun m hm => ?_⟩ rfl ?_ ?_
  · show c.cur + n ≤ c.addr.length
    omega
  · cases hm
  · rw [Call.done, Call.done, Call.wlen, Call.wlen, hpc]
    rfl
  · rw [bind_other hw]

/-- `inodes.write` writes a chunk behind the last one. -/
theorem Holds.write (hi : Holds sb p l₀ off₀ s σ F i h) (h0 : off₀ ≤ l₀.length) (hl : sb.Layout)
    (hcap : sb.numBlocks ≤ 2 ^ 32) (hc : s.call w = some c) (hpc : c.pc = .write)
    (ht : s.next sb p ctx w c = some t) : ∃ τ i', Holds sb p l₀ off₀ t τ F i' h := by
  rw [System.next, hpc] at ht
  obtain ⟨wlen, fs, hx, rfl⟩ := run_eq ht
  obtain rfl := hi.of_inside hc (by rw [Call.inside, hpc])
  have hok := hi.ok w c hc
  have hdone : c.done = c.cur := by rw [Call.done, Call.wlen, hpc]; rfl
  have hsrc := c.length_src
  have hchunk : opMaxBytes = 1536 := rfl
  have hoff : s.off = off₀ + (bytesOf s.written).length := by
    have hoff := hi.off
    rwa [Option.bind_some, hc, Option.elim_some, Call.lag, hpc] at hoff
  have hsize := hi.end_le h0
  have hlt := i.entry.numBytes.toNat_lt
  have hdev : i.entry.type ≠ inodeDevice := by
    rw [hi.type]
    decide
  have hmax := (hi.opened.wlp_inodeWrite_fits hdev (by omega)).of_ok hx
  obtain ⟨rfl, τ, e', -, hw, -⟩ :=
    (hi.opened.wp_inodeWrite hl hcap hdev (by omega) hmax fun _ => Nat.le_add_right _ _).of_ok hx
  refine ⟨τ, { i with entry := e' }, hw.opened, hw.head.type.trans hi.type, hi.lock, fun v d hv => ?_,
    fun v hv => ?_, fun v d hv => ?_, ?_, ?_, ?_, fun v => ?_, hi.result⟩
  · rcases goto_cases hv with ⟨rfl, rfl⟩ | ⟨hne, hv⟩
    · exact iff_of_true rfl rfl
    · exact hi.inside v d hv
  · rw [goto_call]
    split_ifs with hvw
    · exact Option.some_ne_none _
    · exact hi.holder v hv
  · rcases goto_cases hv with ⟨-, rfl⟩ | ⟨-, hv⟩
    · exact ⟨hok.cur, fun n hn => (Option.some.inj hn).symm⟩
    · exact hi.ok v d hv
  · rw [Option.bind_some, goto_call, if_pos rfl, Option.elim_some]
    show s.off + c.src.length = off₀ + (bytesOf (s.written ++ [_])).length
    rw [bytesOf_append, List.take_length, List.length_append]
    show s.off + c.src.length = off₀ + ((bytesOf s.written).length + c.src.length)
    omega
  · show fileContent τ e' = splice l₀ off₀ (bytesOf (s.written ++ [_]))
    rw [hw.content, bytesOf_append, List.take_length, ← splice_splice h0, ← hi.content, ← hoff]
    rfl
  · exact consecutive_append.mpr ⟨hi.consecutive, hoff⟩
  · show chunksOf v (s.written ++ [_]) = _
    rw [chunksOf_append, hi.order v, goto_call, List.take_length]
    by_cases hvw : v = w
    · subst hvw
      rw [if_pos rfl, if_pos rfl, hc, Option.elim_some, Option.elim_some, List.append_assoc, hdone, c.take_src]
      rfl
    · rw [if_neg (Ne.symm hvw), if_neg hvw, List.append_nil]
      rfl

/-- A call that has written everything returns. -/
theorem Holds.returns (hi : Holds sb p l₀ off₀ s σ F i h) (hc : s.call w = some c) (hpc : c.pc = .test)
    (hcur : ¬ c.cur < c.addr.length) (ht : s.next sb p ctx w c = some t) :
    Holds sb p l₀ off₀ t σ F i h := by
  rw [System.next, hpc] at ht
  dsimp only at ht
  rw [if_neg hcur] at ht
  obtain rfl := Option.some.inj ht
  have hok := hi.ok w c hc
  have hw := hi.not_inside hc (by rw [Call.inside, hpc])
  have hall : c.cur = c.addr.length := by
    have := hok.cur
    omega
  have hcall : ∀ v d, Function.update s.call w none v = some d → v ≠ w ∧ s.call v = some d := by
    intro v d hv
    rw [Function.update_apply] at hv
    split_ifs at hv with hvw
    exact ⟨hvw, hv⟩
  refine ⟨hi.opened, hi.type, hi.lock, fun v d hv => hi.inside v d (hcall v d hv).2, fun v hv => ?_,
    fun v d hv => hi.ok v d (hcall v d hv).2, ?_, hi.content, hi.consecutive, fun v => ?_, fun r hr => ?_⟩
  · show Function.update s.call w none v ≠ none
    rw [Function.update_of_ne (by rintro rfl; exact hw hv)]
    exact hi.holder v hv
  · refine (congrArg (s.off + Option.elim · 0 Call.lag) ?_).trans hi.off
    cases h with
    | none => rfl
    | some v => exact Function.update_of_ne (fun he => hw (congrArg some he)) _ _
  · show chunksOf v s.written = passed v (s.returned ++ [_]) ++ (Function.update s.call w none v).elim [] _
    rw [hi.order v, passed_append]
    by_cases hvw : v = w
    · subst hvw
      have hdone : c.done = c.addr.length := by rw [Call.done, Call.wlen, hpc]; exact hall
      rw [if_pos rfl, Function.update_self, hc, Option.elim_some, Option.elim_none, hdone, List.take_length,
        List.append_nil]
    · rw [if_neg (Ne.symm hvw), Function.update_of_ne hvw, List.append_nil]
  · rcases List.mem_append.mp hr with hr | hr
    · exact hi.result r hr
    · rw [List.mem_singleton.mp hr]
      exact if_pos hall

/-- A new call. -/
theorem Holds.call {addr : List UInt8} (hi : Holds sb p l₀ off₀ s σ F i h) (hc : s.call w = none) :
    Holds sb p l₀ off₀ (s.goto w ⟨addr, 0, .test⟩) σ F i h := by
  have hw : h ≠ some w := fun hw => hi.holder w hw hc
  refine ⟨hi.opened, hi.type, hi.lock, fun v d hv => ?_, fun v hv => ?_, fun v d hv => ?_, ?_, hi.content,
    hi.consecutive, fun v => ?_, hi.result⟩
  · rcases goto_cases hv with ⟨rfl, rfl⟩ | ⟨-, hv⟩
    · exact iff_of_false (by simp [Call.inside]) hw
    · exact hi.inside v d hv
  · rw [goto_call]
    split_ifs with hvw
    · exact Option.some_ne_none _
    · exact hi.holder v hv
  · rcases goto_cases hv with ⟨-, rfl⟩ | ⟨-, hv⟩
    · exact ⟨Nat.zero_le _, fun n hn => by cases hn⟩
    · exact hi.ok v d hv
  · have hfun : (s.goto w ⟨addr, 0, .test⟩).call = fun v => if v = w then some ⟨addr, 0, .test⟩ else s.call v :=
      funext goto_call
    rw [hfun, bind_other hw]
    exact hi.off
  · rw [goto_call]
    refine (hi.order v).trans ?_
    split_ifs with hvw
    · subst hvw
      rw [hc, Option.elim_none, Option.elim_some, Call.done, Call.wlen]
      rfl
    · rfl

/-- The inode is open, and is locked by at most one of the calls. -/
def Inv (sb : SuperBlock) (p : ℕ) (l₀ : List UInt8) (off₀ : ℕ) (s : System P) : Prop :=
  ∃ σ F i h, Holds sb p l₀ off₀ s σ F i h

theorem step_inv {a : Act P} (h0 : off₀ ≤ l₀.length) (hl : sb.Layout) (hcap : sb.numBlocks ≤ 2 ^ 32)
    (hi : Inv sb p l₀ off₀ s) (hfit : Fits sb s a) (ht : s.step sb p ctx a = some t) :
    Inv sb p l₀ off₀ t := by
  obtain ⟨σ, F, i, h, hi⟩ := hi
  cases a with
  | call w addr =>
    rw [System.step] at ht
    split_ifs at ht with hc
    obtain rfl := Option.some.inj ht
    exact ⟨σ, F, i, h, hi.call (Option.isNone_iff_eq_none.mp hc.1)⟩
  | go w =>
    rw [System.step] at ht
    obtain ⟨c, hc, ht⟩ := Option.bind_eq_some_iff.mp ht
    cases hpc : c.pc with
    | test =>
      by_cases hcur : c.cur < c.addr.length
      · rw [System.next, hpc] at ht
        dsimp only at ht
        rw [if_pos hcur] at ht
        exact ⟨σ, F, i, h, hi.begins hc hpc ht⟩
      · exact ⟨σ, F, i, h, hi.returns hc hpc hcur ht⟩
    | lock =>
      rw [System.next, hpc] at ht
      exact ⟨σ, F, _, _, hi.acquire hc hpc ht⟩
    | write =>
      obtain ⟨τ, i', hi'⟩ := hi.write h0 hl hcap hc hpc ht
      exact ⟨τ, F, i', h, hi'⟩
    | advance n =>
      rw [System.next, hpc] at ht
      obtain rfl := Option.some.inj ht
      exact ⟨σ, F, i, h, hi.advance h0 hc hpc⟩
    | unlock n =>
      rw [System.next, hpc] at ht
      exact ⟨σ, F, _, _, hi.release hc hpc ht⟩
    | endOp n =>
      rw [System.next, hpc] at ht
      refine ⟨σ, F, i, h, hi.ends hc hpc (hfit ?_) ht⟩
      rw [hc, Option.any_some, Call.ends, hpc]

/-! ## Runs -/

/-- The bytes of the file, as they are read through the cache. -/
def System.content (s : System P) (p : ℕ) : List UInt8 :=
  (s.fs.inode p).elim [] fun i => fileContent (Bcache.content s.fs.cache) i.entry

/-- No process is in `file_write`. -/
def Idle (s : System P) : Prop := ∀ w, s.call w = none

/-- What the calls since `s₀` have done: each returned the number of its bytes; the chunks follow each
    other from the offset on, those of a process in its order; and when all calls have returned, the
    offset is behind them. -/
structure Shared (p : ℕ) (s₀ s : System P) : Prop where
  result : ∀ r ∈ s.returned, r.result = r.addr.length
  consecutive : Consecutive s₀.off s.written
  order : ∀ w, chunksOf w s.written =
    passed w s.returned ++ (s.call w).elim [] fun c => c.addr.take c.done
  content : s.content p = splice (s₀.content p) s₀.off (bytesOf s.written)
  off : Idle s → s.off = s₀.off + (s.returned.map fun r => r.addr.length).sum
  single : Idle s → ∀ w, (∀ c ∈ s.written, c.writer = w) →
    s.content p = splice (s₀.content p) s₀.off (passed w s.returned)

theorem Holds.shared [Fintype P] {s₀ : System P} (hl : sb.Layout)
    (hi : Holds sb p (s₀.content p) s₀.off s σ F i h) : Shared p s₀ s := by
  have hcontent : s.content p = splice (s₀.content p) s₀.off (bytesOf s.written) := by
    rw [System.content, hi.opened.inode, Option.elim_some, hi.opened.content_cache hl, hi.content]
  have hown : Idle s → ∀ w, chunksOf w s.written = passed w s.returned := by
    intro hidle w
    rw [hi.order w, hidle w, Option.elim_none, List.append_nil]
  refine ⟨hi.result, hi.consecutive, hi.order, hcontent, fun hidle => ?_, fun hidle w hw => ?_⟩
  · have hnone : h = none := by
      cases h with
      | none => rfl
      | some w => exact absurd (hidle w) (hi.holder w rfl)
    have htotal : (bytesOf s.written).length = (s.returned.flatMap Return.addr).length := by
      rw [bytesOf, ← sum_filter Chunk.writer, ← sum_filter Return.writer]
      exact Finset.sum_congr rfl fun w _ => congrArg List.length (hown hidle w)
    have hoff := hi.off
    rw [hnone] at hoff
    rw [← List.length_flatMap, ← htotal]
    exact hoff
  · have hall : chunksOf w s.written = bytesOf s.written := by
      rw [chunksOf, List.filter_eq_self.mpr fun c hc => decide_eq_true (hw c hc)]
    rw [hcontent, ← hall, hown hidle w]

/-- The chunks of all calls follow each other in the file, as long as each commit fits into the log
    area. -/
theorem fileWrite_shared [Fintype P] {s₀ : System P} (hl : sb.Layout) (hcap : sb.numBlocks ≤ 2 ^ 32)
    (ho : OpenInode sb σ F p i s₀.fs) (ht : i.entry.type = inodeRegular) (hlock : i.lock = 1)
    (hoff : s₀.off ≤ i.entry.numBytes.toNat) (hidle : Idle s₀) (hw : s₀.written = [])
    (hr : s₀.returned = []) (hrun : Run (System.step sb p ctx) (Fits sb) s₀ s) : Shared p s₀ s := by
  have hcontent : s₀.content p = fileContent σ i.entry := by
    rw [System.content, ho.inode, Option.elim_some, ho.content_cache hl]
  have h0 : s₀.off ≤ (s₀.content p).length := by
    rw [hcontent]
    exact hoff.trans_eq (length_fileBytes _ _).symm
  have hstart : Inv sb p (s₀.content p) s₀.off s₀ := by
    refine ⟨σ, F, i, none, ho, ht, hlock, fun w c hc => ?_, fun w he => ?_, fun w c hc => ?_, ?_, ?_, ?_,
      fun w => ?_, fun r hm => ?_⟩
    · rw [hidle w] at hc
      cases hc
    · cases he
    · rw [hidle w] at hc
      cases hc
    · rw [hw]
      rfl
    · rw [hw, hcontent]
      exact (splice_nil _ _).symm
    · rw [hw]
      trivial
    · rw [hw, hr, hidle w]
      rfl
    · rw [hr] at hm
      cases hm
  obtain ⟨τ, F', i', h, hi⟩ := hrun.invariant hstart fun _ _ _ hi hfit hs => step_inv h0 hl hcap hi hfit hs
  exact hi.shared hl

/-! ## A log area of eleven blocks -/

/-- The log area is as large as an operation needs; 15 and the blocks behind it are data blocks. -/
def tightFs : SuperBlock := ⟨40, 25, 8, 11, 2, 13, 14⟩

/-- Inode 1 is an empty file, and nothing else is on the device. -/
def tightDisk (b : ℕ) : BlockData :=
  if b = 13 then InodeEntry.put zeroBlock 1 emptyFile
  else if b = 14 then zeroBlock.copy 0 [0xff, 0x7f]
  else zeroBlock

def tightInode : Inode := ⟨1, 1, 1, true, emptyFile⟩

/-- Four processes share the file. -/
def tightSystem : System (Fin 4) where
  fs :=
    { cache := Bcache.boot tightDisk
      list := [1]
      inode := Function.update (fun _ => none) 1 (some tightInode)
      nextPtr := 2
      fresh := []
      input := [] }
  off := 0
  call := fun _ => none
  written := []
  returned := []

theorem tightFs_layout : tightFs.Layout := ⟨by decide, by decide, by decide, by decide⟩

theorem opened_tightSystem : OpenInode tightFs tightDisk [] 1 tightInode tightSystem.fs := by
  have hbits : ∀ b < 15, bit tightFs tightDisk b = true := by decide +kernel
  refine opened_blank rfl rfl (by decide) rfl (by decide) (InodeEntry.get_put zeroBlock (by decide) emptyFile)
    (fun _ => rfl) rfl rfl (by decide +kernel) fun b hlt hdata => hbits b ?_
  by_contra hb
  exact hdata ⟨not_lt.mp hb, hlt⟩

/-- `n` steps of `w`. -/
def steps (w : Fin 4) (n : ℕ) : List (Act (Fin 4)) := List.replicate n (.go w)

/-- One process writes 1540 bytes, and between its two chunks another one writes two bytes. -/
theorem fileWrite_shared_two : ∃ s, Run (System.step tightFs 1 Fin.val) (Fits tightFs) tightSystem s ∧
    s.written.map (fun c => (c.writer, c.off, c.bytes.length)) = [(0, 0, 1536), (1, 1536, 2), (0, 1538, 4)] ∧
    Shared 1 tightSystem s := by
  have h : (execIf (System.step tightFs 1 Fin.val) (Fits tightFs) tightSystem
      ([.call 0 (List.replicate 1540 7), .call 1 [8, 9]] ++ steps 0 6 ++ steps 1 7 ++ steps 0 7)).map
        (fun s => s.written.map fun c => (c.writer, c.off, c.bytes.length)) =
      some [(0, 0, 1536), (1, 1536, 2), (0, 1538, 4)] := by
    decide +kernel
  obtain ⟨s, hrun, hs⟩ := Run.of_execIf_map h
  exact ⟨s, hrun, hs, fileWrite_shared tightFs_layout (by decide) opened_tightSystem rfl rfl (Nat.zero_le _)
    (fun _ => rfl) rfl rfl hrun⟩

/-- Each process writes 1536 bytes, and the last one to end its operation commits 14 blocks. The last
    of them overwrite the inode and the first blocks of the file. -/
theorem fileWrite_overruns_log : ∃ s, Run (System.step tightFs 1 Fin.val) anyStep tightSystem s ∧
    Idle s ∧ (bytesOf s.written)[0]? = some 1 ∧ (s.content 1)[0]? = some 4 ∧ ¬ Shared 1 tightSystem s := by
  have h : (exec (System.step tightFs 1 Fin.val) tightSystem
      ((List.finRange 4).map (fun w => .call w (List.replicate 1536 (UInt8.ofNat (w + 1)))) ++
        (List.finRange 4).flatMap (steps · 1) ++ (List.finRange 4).flatMap (steps · 4) ++
        (List.finRange 4).flatMap (steps · 1) ++ (List.finRange 4).flatMap (steps · 1))).map
        (fun s => ((List.finRange 4).all fun w => (s.call w).isNone, (bytesOf s.written)[0]?,
          (s.content 1)[0]?)) = some (true, some 1, some 4) := by
    decide +kernel
  obtain ⟨s, hexec, hs⟩ := Option.map_eq_some_iff.mp h
  rw [Prod.mk.injEq, Prod.mk.injEq, List.all_eq_true] at hs
  obtain ⟨hidle, hbytes, hcontent⟩ := hs
  refine ⟨s, Run.of_exec hexec, fun w => Option.isNone_iff_eq_none.mp (hidle w (List.mem_finRange w)),
    hbytes, hcontent, fun hshared => ?_⟩
  have hfirst := hcontent
  rw [hshared.content, splice, show tightSystem.off = 0 from rfl, List.take_zero, List.nil_append,
    List.getElem?_append_left (List.getElem?_eq_some_iff.mp hbytes).1, hbytes] at hfirst
  cases hfirst

end ShikiOS.Kernel.SharedFile
