import Mathlib.Tactic

/-!
# Checks of user pointers (`kernel/syscall.c`, `kernel/sysfile.c`)

`user_writeable` walks the page table of the process from `start` to `start + size` with a
stride of `BLOCK_SIZE`; `user_readable` accepts everything. The page table is read through
`mem`, the 64-bit words of the kernel's memory. All addresses are `u64` and wrap.

A call is modelled by the ranges that it hands to the file layer after its checks, which then
reads or writes them with the rights of the kernel.

Results:
* `writeable_iff`: when `user_writeable` protects the kernel.
* `user_pointers_iff`: the same for the other checks and for the calls.
* `user_writeable_wraps`: a range at the end of the address space is accepted.
-/

namespace ShikiOS.Kernel.UserPtr

/-! ## The page table -/

/-- `PTE_VALID` (mmu.h:25). -/
def pteValid : UInt64 := 0x1

/-- `PTE_RO` (mmu.h:33). -/
def pteRo : UInt64 := 0x80

/-- `PTE_ADDRESS` (mmu.h:63). -/
def pteAddress (pte : UInt64) : UInt64 := pte &&& ~~~0xFFFF000000000FFF

/-- `P2K` (mmu.h:50). -/
def p2k (addr : UInt64) : UInt64 := addr + 0xFFFF000000000000

/-- `VA_PART0` (mmu.h:68). -/
def vaPart0 (va : UInt64) : UInt64 := (va &&& 0xFF8000000000) >>> 39

/-- `VA_PART1` (mmu.h:69). -/
def vaPart1 (va : UInt64) : UInt64 := (va &&& 0x7FC0000000) >>> 30

/-- `VA_PART2` (mmu.h:70). -/
def vaPart2 (va : UInt64) : UInt64 := (va &&& 0x3FE00000) >>> 21

/-- `VA_PART3` (mmu.h:71). -/
def vaPart3 (va : UInt64) : UInt64 := (va &&& 0x1FF000) >>> 12

/-- `&pgtbl[idx]`. -/
def entryAddr (pgtbl idx : UInt64) : UInt64 := pgtbl + 8 * idx

/-- One level of `get_pte` without `alloc` (pt.c:30-47): the next table. -/
def nextTable (mem : UInt64 → UInt64) (pgtbl idx : UInt64) : Option UInt64 :=
  let pte := mem (entryAddr pgtbl idx)
  if pte &&& pteValid = 0 then none else some (p2k (pteAddress pte))

/-- `get_pte(pgdir, va, false)` (pt.c:8-51), with `pgdir->pt`: the address of the entry. -/
def getPte (mem : UInt64 → UInt64) (pt va : UInt64) : Option UInt64 := do
  if pt = 0 then none
  let pgtbl ← nextTable mem pt (vaPart0 va)
  let pgtbl ← nextTable mem pgtbl (vaPart1 va)
  let pgtbl ← nextTable mem pgtbl (vaPart2 va)
  return entryAddr pgtbl (vaPart3 va)

/-! ## The checks -/

/-- `user_readable` (syscall.c:54-60). -/
def userReadable (_start _size : UInt64) : Bool := true

/-- The loop of `user_writeable` (syscall.c:70-77) from `i`; `none` if it is still running after
    `fuel` rounds. -/
def writeableLoop (mem : UInt64 → UInt64) (pt stop : UInt64) : ℕ → UInt64 → Option Bool
  | 0, _ => none
  | fuel + 1, i =>
    if i < stop then
      match getPte mem pt i with
      | none => some false
      | some pte =>
        if mem pte &&& pteRo ≠ 0 then some false
        else writeableLoop mem pt stop fuel ((i / 512 + 1) * 512)
    else some true

/-- `user_writeable` (syscall.c:67-79) returns true. -/
def UserWriteable (mem : UInt64 → UInt64) (pt start size : UInt64) : Prop :=
  ∃ fuel, writeableLoop mem pt (start + size) fuel start = some true

/-- `user_strlen` (syscall.c:85-94), from the `i`-th character on, of which `n` may be read.
    `char` is the memory as the kernel sees it. -/
def strlenLoop (char : UInt64 → UInt8) (str : UInt64) : ℕ → UInt64 → UInt64
  | 0, _ => 0
  | n + 1, i =>
    if userReadable (str + i) 1 then
      if char (str + i) = 0 then i + 1 else strlenLoop char str n (i + 1)
    else 0

def userStrlen (char : UInt64 → UInt8) (str maxlen : UInt64) : UInt64 :=
  strlenLoop char str maxlen.toNat 0

/-! ## What the checks are for -/

/-- `USERTOP` (defines.h:110). -/
def userTop : ℕ := 0x0001000000000000

/-- The bytes of the range do not wrap and are all addresses of a user. -/
def Below (start size : UInt64) : Prop := start.toNat + size.toNat ≤ userTop

/-- The byte at `a` lies in the range. -/
def InRange (start size a : UInt64) : Prop :=
  start.toNat ≤ a.toNat ∧ a.toNat < start.toNat + size.toNat

/-- There is an entry for `a`, and it is not read-only; it may be empty. -/
def EntryOk (mem : UInt64 → UInt64) (pt a : UInt64) : Prop :=
  ∃ pte, getPte mem pt a = some pte ∧ mem pte &&& pteRo = 0

/-- What `user_writeable` promises. -/
def Protected (mem : UInt64 → UInt64) (pt start size : UInt64) : Prop :=
  start.toNat + size.toNat < 2 ^ 64 ∧ Below start size ∧
    ∀ a, InRange start size a → EntryOk mem pt a

/-- The range is one of a user; or it does not wrap and the check cannot succeed, because
    the counter of its loop wraps or an entry in the range is missing or read-only. -/
def WriteGuard (mem : UInt64 → UInt64) (pt start size : UInt64) : Prop :=
  Below start size ∨ (start.toNat + size.toNat < 2 ^ 64 ∧
    (2 ^ 64 - 512 < start.toNat + size.toNat ∨ ∃ a, InRange start size a ∧ ¬ EntryOk mem pt a))

/-! ## Addresses of one page -/

variable {mem : UInt64 → UInt64} {pt start size stop i a b : UInt64}

/-- A field of `n` bits at bit `k`. -/
theorem field_toNat (va : UInt64) {m s : UInt64} {k n : ℕ} (hs : s.toNat % 64 = k)
    (hm : m.toNat >>> k = 2 ^ n - 1) : ((va &&& m) >>> s).toNat = va.toNat / 2 ^ k % 2 ^ n := by
  rw [UInt64.toNat_shiftRight, UInt64.toNat_and, hs, Nat.shiftRight_and_distrib, hm,
    Nat.and_two_pow_sub_one_eq_mod, Nat.shiftRight_eq_div_pow]

theorem vaPart0_toNat (va : UInt64) : (vaPart0 va).toNat = va.toNat / 2 ^ 39 % 2 ^ 9 :=
  field_toNat va rfl rfl

theorem vaPart1_toNat (va : UInt64) : (vaPart1 va).toNat = va.toNat / 2 ^ 30 % 2 ^ 9 :=
  field_toNat va rfl rfl

theorem vaPart2_toNat (va : UInt64) : (vaPart2 va).toNat = va.toNat / 2 ^ 21 % 2 ^ 9 :=
  field_toNat va rfl rfl

theorem vaPart3_toNat (va : UInt64) : (vaPart3 va).toNat = va.toNat / 2 ^ 12 % 2 ^ 9 :=
  field_toNat va rfl rfl

/-- The entry of an address is that of its page. -/
theorem getPte_page (hab : a.toNat / 4096 = b.toNat / 4096) :
    getPte mem pt a = getPte mem pt b := by
  have h0 : vaPart0 a = vaPart0 b := by
    apply UInt64.toNat_inj.mp
    rw [vaPart0_toNat, vaPart0_toNat]
    omega
  have h1 : vaPart1 a = vaPart1 b := by
    apply UInt64.toNat_inj.mp
    rw [vaPart1_toNat, vaPart1_toNat]
    omega
  have h2 : vaPart2 a = vaPart2 b := by
    apply UInt64.toNat_inj.mp
    rw [vaPart2_toNat, vaPart2_toNat]
    omega
  have h3 : vaPart3 a = vaPart3 b := by
    apply UInt64.toNat_inj.mp
    rw [vaPart3_toNat, vaPart3_toNat]
    omega
  unfold getPte
  rw [h0, h1, h2, h3]

theorem EntryOk.page (h : EntryOk mem pt b) (hab : a.toNat / 4096 = b.toNat / 4096) :
    EntryOk mem pt a := by
  obtain ⟨pte, hpte, hro⟩ := h
  exact ⟨pte, (getPte_page hab).trans hpte, hro⟩

/-! ## The loop -/

/-- The next multiple of 512, which may be that of the next turn of the address space. -/
theorem stride_toNat (i : UInt64) :
    ((i / 512 + 1) * 512).toNat = (i.toNat / 512 + 1) * 512 % 2 ^ 64 := by
  have hi := UInt64.toNat_lt i
  rw [UInt64.toNat_mul, UInt64.toNat_add, UInt64.toNat_div]
  show ((i.toNat / 512 + 1) % 2 ^ 64) * 512 % 2 ^ 64 = _
  omega

theorem writeableLoop_succ (fuel : ℕ) (i : UInt64) :
    writeableLoop mem pt stop (fuel + 1) i = some true ↔
      ¬ i < stop ∨ EntryOk mem pt i ∧
        writeableLoop mem pt stop fuel ((i / 512 + 1) * 512) = some true := by
  rw [writeableLoop]
  by_cases hi : i < stop
  · rw [if_pos hi]
    simp only [not_true, hi, false_or]
    cases hpte : getPte mem pt i with
    | none => simp [EntryOk, hpte]
    | some pte =>
      by_cases hro : mem pte &&& pteRo = 0
      · simp [EntryOk, hpte, hro]
      · simp [EntryOk, hpte, hro]
  · simp [hi]

/-- What the loop has accepted is mapped: it looks at every page between `i` and `stop`. -/
theorem entryOk_of_loop {fuel : ℕ} (h : writeableLoop mem pt stop fuel i = some true) :
    ∀ a, i.toNat ≤ a.toNat → a.toNat < stop.toNat → EntryOk mem pt a := by
  induction fuel generalizing i with
  | zero => cases h
  | succ fuel ih =>
    intro a h1 h2
    have hi := UInt64.toNat_lt i
    have ha := UInt64.toNat_lt a
    rcases (writeableLoop_succ fuel i).mp h with hstop | ⟨hok, hrest⟩
    · rw [UInt64.lt_iff_toNat_lt] at hstop
      omega
    · by_cases hpage : a.toNat / 512 = i.toNat / 512
      · exact hok.page (by omega)
      · refine ih hrest a ?_ h2
        rw [stride_toNat]
        omega

/-- If the last block of the address space belongs to the range, the counter wraps and the
    loop has no end but a bad entry. -/
theorem loop_wraps (hstop : 2 ^ 64 - 512 < stop.toNat) {fuel : ℕ} (hi : i.toNat < stop.toNat) :
    writeableLoop mem pt stop fuel i ≠ some true := by
  induction fuel generalizing i with
  | zero => exact nofun
  | succ fuel ih =>
    rw [Ne, writeableLoop_succ, not_or]
    refine ⟨not_not_intro (UInt64.lt_iff_toNat_lt.mpr hi), fun hrest => ih ?_ hrest.2⟩
    rw [stride_toNat]
    omega

/-- Otherwise the loop succeeds if all entries are there. -/
theorem exists_loop (hstop : stop.toNat ≤ 2 ^ 64 - 512)
    (hok : ∀ a, i.toNat ≤ a.toNat → a.toNat < stop.toNat → EntryOk mem pt a) :
    ∃ fuel, writeableLoop mem pt stop fuel i = some true := by
  induction hn : stop.toNat - i.toNat using Nat.strong_induction_on generalizing i with
  | _ n ih =>
    by_cases hi : i.toNat < stop.toNat
    · have hnext : ((i / 512 + 1) * 512).toNat = (i.toNat / 512 + 1) * 512 := by
        rw [stride_toNat]
        omega
      obtain ⟨fuel, hfuel⟩ := ih (stop.toNat - ((i / 512 + 1) * 512).toNat) (by omega)
        (fun a h1 h2 => hok a (by omega) h2) rfl
      exact ⟨fuel + 1, (writeableLoop_succ fuel i).mpr (.inr ⟨hok i le_rfl hi, hfuel⟩)⟩
    · refine ⟨1, (writeableLoop_succ 0 i).mpr (.inl ?_)⟩
      rw [UInt64.lt_iff_toNat_lt]
      omega

/-- A range that is accepted and does not reach beyond the user's addresses is guarded. -/
theorem WriteGuard.of_below (h : UserWriteable mem pt start size → Below start size) :
    WriteGuard mem pt start size := by
  have h1 := UInt64.toNat_lt start
  have h2 := UInt64.toNat_lt size
  have hadd : (start + size).toNat = (start.toNat + size.toNat) % 2 ^ 64 := UInt64.toNat_add ..
  by_contra hguard
  unfold WriteGuard at hguard
  push Not at hguard
  obtain ⟨htop, hrange⟩ := hguard
  apply htop
  apply h
  by_cases hwrap : start.toNat + size.toNat < 2 ^ 64
  · obtain ⟨hlast, hok⟩ := hrange hwrap
    refine exists_loop (by omega) fun a ha1 ha2 => hok a ⟨ha1, ?_⟩
    omega
  · refine ⟨1, (writeableLoop_succ 0 start).mpr (.inl ?_)⟩
    rw [UInt64.lt_iff_toNat_lt]
    omega

theorem WriteGuard.protected (hsize : 0 < size) (h : WriteGuard mem pt start size)
    (hacc : UserWriteable mem pt start size) : Protected mem pt start size := by
  have hpos : 0 < size.toNat := UInt64.lt_iff_toNat_lt.mp hsize
  have hadd : (start + size).toNat = (start.toNat + size.toNat) % 2 ^ 64 := UInt64.toNat_add ..
  obtain ⟨fuel, hloop⟩ := hacc
  have hok := entryOk_of_loop hloop
  rcases h with hbelow | ⟨hwrap, hlast | ⟨a, ha, hbad⟩⟩
  · have htop : start.toNat + size.toNat ≤ 0x0001000000000000 := hbelow
    refine ⟨by omega, hbelow, fun a ha => hok a ha.1 ?_⟩
    have := ha.2
    omega
  · exact absurd hloop (loop_wraps (by omega) (by omega))
  · refine absurd (hok a ha.1 ?_) hbad
    have := ha.2
    omega

/-- `user_writeable` keeps its promise exactly for these ranges. -/
theorem writeable_iff (hsize : 0 < size) :
    (UserWriteable mem pt start size → Protected mem pt start size) ↔
      WriteGuard mem pt start size :=
  ⟨fun h => .of_below fun hacc => (h hacc).2.1, fun h => h.protected hsize⟩

/-! ## Strings -/

/-- The string at `str` has `n` characters before its end. -/
def EndsAt (char : UInt64 → UInt8) (str : UInt64) (n : ℕ) : Prop :=
  char (str + UInt64.ofNat n) = 0 ∧ ∀ j < n, char (str + UInt64.ofNat j) ≠ 0

variable {char : UInt64 → UInt8} {str : UInt64}

theorem strlenLoop_spec {k n : ℕ} (hk : k + n < 2 ^ 64)
    (hbefore : ∀ j < k, char (str + UInt64.ofNat j) ≠ 0) :
    (∃ m < k + n, EndsAt char str m ∧
      (strlenLoop char str n (UInt64.ofNat k)).toNat = m + 1) ∨
    (∀ m < k + n, ¬ EndsAt char str m) ∧ strlenLoop char str n (UInt64.ofNat k) = 0 := by
  induction n generalizing k with
  | zero => exact .inr ⟨fun m hm hend => hbefore m hm hend.1, rfl⟩
  | succ n ih =>
    have hnext : UInt64.ofNat k + 1 = UInt64.ofNat (k + 1) := by
      rw [UInt64.ofNat_add]
      rfl
    rw [strlenLoop, userReadable, if_pos rfl, hnext]
    by_cases hchar : char (str + UInt64.ofNat k) = 0
    · refine .inl ⟨k, by omega, ⟨hchar, hbefore⟩, ?_⟩
      rw [if_pos hchar, UInt64.toNat_ofNat', Nat.mod_eq_of_lt (by omega)]
    · rw [if_neg hchar, show k + (n + 1) = k + 1 + n by omega]
      refine ih (by omega) fun j hj => ?_
      rcases Nat.lt_succ_iff_lt_or_eq.mp hj with hj | rfl
      · exact hbefore j hj
      · exact hchar

/-- `user_strlen` finds the end of the string, if it has one soon enough. -/
theorem userStrlen_spec (char : UInt64 → UInt8) (str maxlen : UInt64) :
    (∃ m < maxlen.toNat, EndsAt char str m ∧ (userStrlen char str maxlen).toNat = m + 1) ∨
    (∀ m < maxlen.toNat, ¬ EndsAt char str m) ∧ userStrlen char str maxlen = 0 := by
  have hlt : 0 + maxlen.toNat < 2 ^ 64 := by
    have := UInt64.toNat_lt maxlen
    omega
  have hspec := @strlenLoop_spec char str 0 maxlen.toNat hlt fun j hj =>
    absurd hj (Nat.not_lt_zero j)
  rwa [Nat.zero_add] at hspec

/-- The characters that are read one after the other, at most `limit`, lie below the top
    exactly if their addresses do, counted from the first. -/
theorem chars_below_iff {limit : ℕ} :
    (∀ i < limit, (∀ j < i, char (str + UInt64.ofNat j) ≠ 0) → Below (str + UInt64.ofNat i) 1) ↔
      ∀ i < limit, (∀ j < i, char (str + UInt64.ofNat j) ≠ 0) → str.toNat + i < userTop := by
  have hstr := UInt64.toNat_lt str
  have haddr {i : ℕ} (hi : str.toNat + i < 2 ^ 64) :
      (str + UInt64.ofNat i).toNat = str.toNat + i := by
    rw [UInt64.toNat_add, UInt64.toNat_ofNat']
    omega
  constructor
  · intro h i hi
    induction i with
    | zero =>
      intro hchars
      have : (str + UInt64.ofNat 0).toNat + 1 ≤ userTop := h 0 hi hchars
      rw [haddr (by omega)] at this
      omega
    | succ i ih =>
      intro hchars
      have hprev := ih (by omega) fun j hj => hchars j (by omega)
      have : (str + UInt64.ofNat (i + 1)).toNat + 1 ≤ userTop := h (i + 1) hi hchars
      unfold userTop at this hprev ⊢
      rw [haddr (by omega)] at this
      omega
  · intro h i hi hchars
    have htop := h i hi hchars
    show (str + UInt64.ofNat i).toNat + 1 ≤ userTop
    unfold userTop at htop ⊢
    rw [haddr (by omega)]
    omega

/-! ## The calls -/

/-- The calls with pointers of the user. `file` says whether `fd2file` finds a file. -/
inductive Call
  | read (file : Bool) (buffer : UInt64) (size : Int32)
  | write (file : Bool) (buffer : UInt64) (size : Int32)
  | writev (file : Bool) (iov : UInt64) (iovcnt : Int32)
  | fstat (file : Bool) (st : UInt64)
  | newfstatat (path st : UInt64)
  | unlinkat (path : UInt64)
  | openat (path : UInt64)
  | mkdirat (path : UInt64)
  | mknodat (path : UInt64)
  | execve (path : UInt64)
  | chdir (path : UInt64)
deriving DecidableEq, Repr

/-- The path that a call passes to `user_strlen(path, 256)` (sysfile.c:284-535, sysproc.c:50). -/
def Call.path : Call → Option UInt64
  | .newfstatat path _ | .unlinkat path | .openat path | .mkdirat path | .mknodat path
  | .execve path => some path
  | _ => none

/-- An `int` as a `usize`. -/
def usize (n : Int32) : UInt64 := n.toInt64.toUInt64

/-- `p->iov_base` of the `k`-th `struct iovec` (sysfile.c:29-32). -/
def iovBase (mem : UInt64 → UInt64) (iov : UInt64) (k : ℕ) : UInt64 :=
  mem (iov + 16 * UInt64.ofNat k)

/-- `p->iov_len` of the `k`-th `struct iovec`. -/
def iovLen (mem : UInt64 → UInt64) (iov : UInt64) (k : ℕ) : UInt64 :=
  mem (iov + 16 * UInt64.ofNat k + 8)

/-- The call `c` gets the `n` bytes at `a` read or written after its checks. `statSize` is
    `sizeof(struct stat)`. -/
inductive Hands (mem : UInt64 → UInt64) (char : UInt64 → UInt8) (pt statSize : UInt64) :
    Call → UInt64 → UInt64 → Prop
  /-- sysfile.c:229-235. -/
  | read {buffer : UInt64} {size : Int32} (hsize : 0 < size)
      (hcheck : UserWriteable mem pt buffer (usize size)) :
      Hands mem char pt statSize (.read true buffer size) buffer (usize size)
  /-- sysfile.c:237-243. -/
  | write {buffer : UInt64} {size : Int32} (hsize : 0 < size)
      (hcheck : userReadable buffer (usize size) = true) :
      Hands mem char pt statSize (.write true buffer size) buffer (usize size)
  /-- `p->iov_base` and `p->iov_len` are read (sysfile.c:249-253). -/
  | iovec {iov : UInt64} {iovcnt : Int32} {k : ℕ} (hcnt : 0 < iovcnt)
      (hcheck : userReadable iov (16 * usize iovcnt) = true)
      (hround : iov < iov + 16 * usize iovcnt) (hk : k < (usize iovcnt).toNat) :
      Hands mem char pt statSize (.writev true iov iovcnt) (iov + 16 * UInt64.ofNat k) 16
  /-- sysfile.c:252-256. -/
  | writev {iov : UInt64} {iovcnt : Int32} {k : ℕ} (hcnt : 0 < iovcnt)
      (hcheck : userReadable iov (16 * usize iovcnt) = true)
      (hround : iov < iov + 16 * usize iovcnt) (hk : k < (usize iovcnt).toNat)
      (hbase : userReadable (iovBase mem iov k) (iovLen mem iov k) = true) :
      Hands mem char pt statSize (.writev true iov iovcnt) (iovBase mem iov k) (iovLen mem iov k)
  /-- sysfile.c:273-279. -/
  | fstat {st : UInt64} (hcheck : UserWriteable mem pt st statSize) :
      Hands mem char pt statSize (.fstat true st) st statSize
  /-- sysfile.c:281-303. -/
  | newfstatat {path st : UInt64} (hpath : userStrlen char path 256 ≠ 0)
      (hcheck : UserWriteable mem pt st statSize) :
      Hands mem char pt statSize (.newfstatat path st) st statSize
  /-- `user_strlen` reads the path; what `namei` reads of it later lies in the same range. -/
  | path {c : Call} {path : UInt64} {i : ℕ} (hpath : c.path = some path) (hi : i < 256)
      (hchars : ∀ j < i, char (path + UInt64.ofNat j) ≠ 0) :
      Hands mem char pt statSize c (path + UInt64.ofNat i) 1
  /-- `chdir` does not check its path (sysfile.c:556-589). -/
  | chdir {path : UInt64} {i : ℕ} (hchars : ∀ j < i, char (path + UInt64.ofNat j) ≠ 0) :
      Hands mem char pt statSize (.chdir path) (path + UInt64.ofNat i) 1

/-- The arguments for which a call stays below the top: it gives up, or every range that it
    passes on is one of the user. -/
def Safe (mem : UInt64 → UInt64) (char : UInt64 → UInt8) (pt statSize : UInt64) (c : Call) : Prop :=
  (∀ path, c.path = some path → ∀ i < 256, (∀ j < i, char (path + UInt64.ofNat j) ≠ 0) →
    path.toNat + i < userTop) ∧
  match c with
  | .read file buffer size => file = true → 0 < size → WriteGuard mem pt buffer (usize size)
  | .write file buffer size => file = true → 0 < size → Below buffer (usize size)
  | .writev file iov iovcnt => file = true → 0 < iovcnt →
      iov.toNat + 16 * (usize iovcnt).toNat < 2 ^ 64 →
        iov.toNat + 16 * (usize iovcnt).toNat ≤ userTop ∧
          ∀ k < (usize iovcnt).toNat, 0 < iovLen mem iov k →
            Below (iovBase mem iov k) (iovLen mem iov k)
  | .fstat file st => file = true → WriteGuard mem pt st statSize
  | .newfstatat path st => (∃ n < 256, EndsAt char path n) → WriteGuard mem pt st statSize
  | .chdir path => ∀ i, (∀ j < i, char (path + UInt64.ofNat j) ≠ 0) → path.toNat + i < userTop
  | _ => True

variable {statSize : UInt64}

/-- An `int` that is not negative keeps its value. -/
theorem usize_toNat {n : Int32} (hn : 0 < n) : 0 < (usize n).toNat ∧ (usize n).toNat < 2 ^ 31 := by
  have hpos : 0 < n.toInt := Int32.lt_iff_toInt_lt.mp hn
  have hlt := Int32.toInt_lt n
  have hbits : n.toInt64.toBitVec.toInt = n.toInt := by
    rw [Int64.toInt_toBitVec, Int32.toInt_toInt64]
  rw [BitVec.toInt_eq_toNat_cond] at hbits
  have := n.toInt64.toBitVec.isLt
  show 0 < n.toInt64.toBitVec.toNat ∧ n.toInt64.toBitVec.toNat < 2 ^ 31
  split_ifs at hbits
  · omega
  · omega

theorem usize_pos {n : Int32} (hn : 0 < n) : 0 < usize n :=
  UInt64.lt_iff_toNat_lt.mpr (usize_toNat hn).1

/-- The loop of `writev` has a round exactly if the vector does not wrap. -/
theorem iov_lt_iff {iov : UInt64} {n : Int32} (hn : 0 < n) :
    iov < iov + 16 * usize n ↔ iov.toNat + 16 * (usize n).toNat < 2 ^ 64 := by
  have hpos := usize_toNat hn
  have hiov := UInt64.toNat_lt iov
  rw [UInt64.lt_iff_toNat_lt, UInt64.toNat_add, UInt64.toNat_mul]
  show iov.toNat < (iov.toNat + 16 * (usize n).toNat % 2 ^ 64) % 2 ^ 64 ↔ _
  omega

/-- The vector lies below the top exactly if each of its elements does. -/
theorem iovec_below_iff {iov cnt : UInt64} (hcnt : 0 < cnt.toNat)
    (hwrap : iov.toNat + 16 * cnt.toNat < 2 ^ 64) :
    (∀ k < cnt.toNat, Below (iov + 16 * UInt64.ofNat k) 16) ↔
      iov.toNat + 16 * cnt.toNat ≤ userTop := by
  have haddr {k : ℕ} (hk : k < cnt.toNat) :
      (iov + 16 * UInt64.ofNat k).toNat = iov.toNat + 16 * k := by
    rw [UInt64.toNat_add, UInt64.toNat_mul, UInt64.toNat_ofNat']
    show (iov.toNat + 16 * (k % 2 ^ 64) % 2 ^ 64) % 2 ^ 64 = _
    omega
  constructor
  · intro h
    have hlast : (iov + 16 * UInt64.ofNat (cnt.toNat - 1)).toNat + 16 ≤ userTop :=
      h (cnt.toNat - 1) (by omega)
    rw [haddr (by omega)] at hlast
    omega
  · intro h k hk
    show (iov + 16 * UInt64.ofNat k).toNat + 16 ≤ userTop
    rw [haddr hk]
    omega

/-- A call stays below the top exactly for these arguments. -/
theorem hands_below_iff (hstat : 0 < statSize) (c : Call) :
    (∀ a n, Hands mem char pt statSize c a n → 0 < n → Below a n) ↔
      Safe mem char pt statSize c := by
  constructor
  · intro h
    refine ⟨fun path hpath => chars_below_iff.mp fun i hi hchars =>
      h _ _ (.path hpath hi hchars) (by decide), ?_⟩
    cases c with
    | read file buffer size =>
      rintro rfl hsize
      exact .of_below fun hacc => h _ _ (.read hsize hacc) (usize_pos hsize)
    | write file buffer size =>
      rintro rfl hsize
      exact h _ _ (.write hsize rfl) (usize_pos hsize)
    | writev file iov iovcnt =>
      rintro rfl hcnt hwrap
      have hpos := usize_toNat hcnt
      have hround := (iov_lt_iff hcnt).mpr hwrap
      refine ⟨(iovec_below_iff hpos.1 hwrap).mp fun k hk => ?_, fun k hk hlen => ?_⟩
      · exact h _ _ (.iovec hcnt rfl hround hk) (by decide)
      · exact h _ _ (.writev hcnt rfl hround hk rfl) hlen
    | fstat file st =>
      rintro rfl
      exact .of_below fun hacc => h _ _ (.fstat hacc) hstat
    | newfstatat path st =>
      rintro ⟨n, hn, hend⟩
      refine .of_below fun hacc => h _ _ (.newfstatat ?_ hacc) hstat
      rcases userStrlen_spec char path 256 with ⟨m, -, -, hm⟩ | ⟨hnone, -⟩
      · intro h0
        rw [h0] at hm
        cases hm
      · exact absurd hend (hnone n hn)
    | chdir path =>
      intro i
      exact chars_below_iff.mp (fun i _ hchars => h _ _ (.chdir hchars) (by decide)) i
        (Nat.lt_succ_self i)
    | _ => trivial
  · rintro ⟨hpath, hargs⟩ a n hhands hn
    cases hhands with
    | read hsize hcheck => exact ((hargs rfl hsize).protected hn hcheck).2.1
    | write hsize hcheck => exact hargs rfl hsize
    | iovec hcnt hcheck hround hk =>
      have hwrap := (iov_lt_iff hcnt).mp hround
      exact (iovec_below_iff (usize_toNat hcnt).1 hwrap).mpr (hargs rfl hcnt hwrap).1 _ hk
    | writev hcnt hcheck hround hk hbase =>
      exact (hargs rfl hcnt ((iov_lt_iff hcnt).mp hround)).2 _ hk hn
    | fstat hcheck => exact ((hargs rfl).protected hn hcheck).2.1
    | @newfstatat path st hstr hcheck =>
      rcases userStrlen_spec char path 256 with ⟨m, hm, hend, -⟩ | ⟨-, h0⟩
      · exact ((hargs ⟨m, hm, hend⟩).protected hn hcheck).2.1
      · exact absurd h0 hstr
    | path hc hi hchars => exact chars_below_iff.mpr (hpath _ hc) _ hi hchars
    | chdir hchars =>
      exact chars_below_iff.mpr (fun i _ => hargs i) _ (Nat.lt_succ_self _) hchars

/-- `user_strlen` accepts only strings of the user exactly if the end that it finds is one. -/
theorem strlen_below_iff (maxlen : UInt64) :
    (userStrlen char str maxlen ≠ 0 → Below str (userStrlen char str maxlen)) ↔
      ∀ n < maxlen.toNat, EndsAt char str n → str.toNat + (n + 1) ≤ userTop := by
  unfold Below
  rcases userStrlen_spec char str maxlen with ⟨m, hm, hend, hlen⟩ | ⟨hnone, h0⟩
  · rw [hlen]
    constructor
    · intro h n hn hn'
      have hnm : n = m := by
        rcases lt_trichotomy n m with hlt | heq | hgt
        · exact absurd hn'.1 (hend.2 n hlt)
        · exact heq
        · exact absurd hend.1 (hn'.2 m hgt)
      subst hnm
      refine h fun h0 => ?_
      rw [h0] at hlen
      cases hlen
    · intro h _
      exact h m hm hend
  · exact ⟨fun _ n hn hend => absurd hend (hnone n hn), fun _ hne => absurd h0 hne⟩

/-- When the checks keep users away from the kernel: `user_writeable` for the ranges that
    `WriteGuard` describes, `user_readable` and `user_strlen` for what lies below the top
    anyway, and the calls accordingly. -/
theorem user_pointers_iff (mem : UInt64 → UInt64) (char : UInt64 → UInt8) (pt : UInt64) :
    (∀ start size, 0 < size →
      ((UserWriteable mem pt start size → Protected mem pt start size) ↔
        WriteGuard mem pt start size) ∧
      ((userReadable start size = true → Below start size) ↔ Below start size)) ∧
    (∀ str maxlen, (userStrlen char str maxlen ≠ 0 → Below str (userStrlen char str maxlen)) ↔
      ∀ n < maxlen.toNat, EndsAt char str n → str.toNat + (n + 1) ≤ userTop) ∧
    ∀ statSize, 0 < statSize → ∀ c,
      (∀ a n, Hands mem char pt statSize c a n → 0 < n → Below a n) ↔
        Safe mem char pt statSize c := by
  refine ⟨fun start size hsize => ⟨writeable_iff hsize, ?_⟩, fun _ => strlen_below_iff, ?_⟩
  · exact ⟨fun h => h rfl, fun h _ => h⟩
  · exact fun statSize hstat c => hands_below_iff hstat c

/-- Every entry is present and writeable: a kilobyte of a user is protected, and reading into
    the last sixteen bytes of the address space is not safe. -/
theorem user_pointers_iff_page :
    (UserWriteable (fun _ => 3) 0x1000 0x1000 1024 → Protected (fun _ => 3) 0x1000 0x1000 1024) ∧
      ¬ ∀ a n, Hands (fun _ => 3) (fun _ => 0) 0x1000 128 (.read true 0xFFFFFFFFFFFFFFF0 16) a n →
        0 < n → Below a n := by
  have hall := user_pointers_iff (fun _ => 3) (fun _ => 0) 0x1000
  have hbelow : Below 0x1000 1024 := by
    unfold Below
    decide
  refine ⟨(hall.1 0x1000 1024 (by decide)).1.mpr (.inl hbelow), fun h => ?_⟩
  rcases ((hall.2.2 128 (by decide) _).mp h).2 rfl (by decide) with htop | ⟨hwrap, -⟩
  · exact absurd htop (by unfold Below; decide)
  · exact absurd hwrap (by decide)

/-- `read` into the last sixteen bytes of the address space: the end of the range is 0, the
    loop has no round, and the file layer gets a range of the kernel. -/
theorem user_writeable_wraps :
    UserWriteable (fun _ => 0) 0 0xFFFFFFFFFFFFFFF0 16 ∧
      ¬ Protected (fun _ => 0) 0 0xFFFFFFFFFFFFFFF0 16 ∧
      Hands (fun _ => 0) (fun _ => 0) 0 128 (.read true 0xFFFFFFFFFFFFFFF0 16)
        0xFFFFFFFFFFFFFFF0 16 := by
  have hacc : UserWriteable (fun _ => 0) 0 0xFFFFFFFFFFFFFFF0 16 := ⟨1, by decide⟩
  refine ⟨hacc, fun h => absurd h.1 (by decide), ?_⟩
  exact @Hands.read _ _ _ _ _ 16 (by decide) hacc

end ShikiOS.Kernel.UserPtr
