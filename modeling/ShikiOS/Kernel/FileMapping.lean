import ShikiOS.Kernel.VmaLists
import ShikiOS.Fs.FileContent

/-!
# What a file mapping shows (`kernel/sysfile.c`, `kernel/paging.c`)

A process maps a regular file with `MAP_PRIVATE`, touches pages and unmaps page-aligned parts
from the front and from the back. `munmap` of a front part does not move `start`: the part
stays covered, and the pages behind it show a later part of the file. A fault in a page that
lies behind the end of the file stops in `inode_read`.

What a fault does to the page table is left out, and so is a fault for which there is no free
page.
-/

namespace ShikiOS.Kernel.Vmas

open ShikiOS.Lib Fs Fs.Bcache Fs.Inodes Calls

/-! ## Faults -/

variable (sb : SuperBlock)

/-- `pgfault_handler` (paging.c:146-190) with the page that it fills: zeros, and on them what
    `inode_read` returns. -/
def faultPage (addr : ℕ) : SysM (Option (List UInt8)) := do
  let p ← thisproc
  let found ← vmaOf addr nvma none p.vma
  match found with
  | none => return none
  | some (v, _) => do
    let x ← getVma v
    let f ← getFile x.file
    (services sb).lock f.ip
    let buf ← (services sb).read f.ip (u64 (x.off + pageBaseOf addr + 2 ^ 64 - x.start)) pageBytes
    (services sb).unlock f.ip
    return some (buf ++ List.replicate (pageBytes - buf.length) 0)

/-- It does what the system call interface sees of it. -/
theorem pageFault_eq (addr : ℕ) : pageFault sb addr = (do
    let _ ← faultPage sb addr
    return 0) := by
  unfold pageFault faultPage
  simp only [bind_assoc]
  refine bind_congr fun p => bind_congr fun found => ?_
  rcases found with _ | ⟨v, _⟩
  · rfl
  · simp only [bind_assoc, pure_bind]

/-- The page of a file from `i` on, with zeros behind the end of the file. -/
def filePage (σ : ℕ → BlockData) (e : InodeEntry) (i : ℕ) : List UInt8 :=
  (List.range pageBytes).map fun j =>
    if i + j < e.numBytes.toNat then fileByte σ e (i + j) else 0

variable {sb} {σ : ℕ → BlockData} {e : InodeEntry} {s : Sys} {p : ℕ}

theorem filePage_eq (i : ℕ) : filePage σ e i =
    fileBytes σ e i (min pageBytes (e.numBytes.toNat - i)) ++
      List.replicate (pageBytes - min pageBytes (e.numBytes.toNat - i)) 0 := by
  refine List.ext_getElem ?_ fun k hk _ => ?_
  · rw [filePage, List.length_map, List.length_range, List.length_append, length_fileBytes,
      List.length_replicate]
    omega
  · have hk : k < pageBytes := by
      rwa [filePage, List.length_map, List.length_range] at hk
    simp only [filePage, fileBytes, List.getElem_append, List.length_map, List.length_range,
      List.getElem_map, List.getElem_range, List.getElem_replicate]
    split_ifs <;> first | rfl | omega

/-! ## What is left of a mapping -/

/-- The kernel, and the addresses that have not been unmapped. -/
structure View where
  sys : Sys
  lo : ℕ
  hi : ℕ

/-- What the process does with a mapping: it touches an address, or unmaps the first or the
    last `n` bytes. -/
inductive Use
  | fault (addr : ℕ)
  | front (n : ℕ) (mem : ℕ → UInt8)
  | back (n : ℕ) (mem : ℕ → UInt8)

/-- The state after a call, with the addresses that are left. -/
def View.after {α : Type} (lo hi : ℕ) : EStateM.Result Halt Sys α → View
  | .ok _ t => ⟨t, lo, hi⟩
  | .error e t => ⟨{ t with halted := some e }, lo, hi⟩

variable (sb) (q : ℕ)

/-- Process `q` uses the mapping. The parts that it unmaps are page-aligned and not empty. -/
def useNext (w : View) : Use → Option View
  | .fault addr =>
    if w.sys.halted = none ∧ w.lo ≤ addr ∧ addr < w.hi then
      some (View.after w.lo w.hi (faultPage sb addr { w.sys with cur := q }))
    else none
  | .front n mem =>
    if w.sys.halted = none ∧ 0 < n ∧ w.lo + n ≤ w.hi ∧ (pageBytes ∣ n ∨ w.lo + n = w.hi) then
      some (View.after (w.lo + n) w.hi (munmap sb w.lo n mem { w.sys with cur := q }))
    else none
  | .back n mem =>
    if w.sys.halted = none ∧ 0 < n ∧ w.lo + n ≤ w.hi ∧ pageBytes ∣ w.hi - n then
      some (View.after w.lo (w.hi - n) (munmap sb (w.hi - n) n mem { w.sys with cur := q }))
    else none

/-- No mapping of `q` covers the address. -/
def Uncovered (s : Sys) (q addr : ℕ) : Prop :=
  ∀ v ∈ follow (fun v => (s.vmas v).next) nvma (s.procs q).vma,
    ¬ ((s.vmas v).start ≤ addr ∧ addr < (s.vmas v).stop)

instance (s : Sys) (q addr : ℕ) : Decidable (Uncovered s q addr) :=
  inferInstanceAs (Decidable (∀ v ∈ follow (fun v => (s.vmas v).next) nvma (s.procs q).vma, _))

/-- A fault at `addr` yields the page with what the file has there, if the mapping starts at
    `o`. -/
def Yields (σ : ℕ → BlockData) (e : InodeEntry) (s : Sys) (o addr : ℕ) : Prop :=
  ∃ t, faultPage sb addr { s with cur := q } = .ok (some (filePage σ e (pageBaseOf addr - o))) t

/-! ## The invariant -/

/-- The cache represents `σ`, and nobody has locked the inode `p`, whose entry is `e`. -/
structure Ready (σ : ℕ → BlockData) (p : ℕ) (e : InodeEntry) (fs : FsState) : Prop where
  rep : Rep sb σ [] fs.cache
  inode : ∃ i, fs.inode p = some i ∧ i.entry = e ∧ i.lock = 1 ∧ 0 < i.rc

variable {sb} {q}

/-- The inode is locked, read and unlocked. -/
theorem Ready.read {off : ℕ} (h : Ready sb σ p e s.fs) (hs : Stored sb σ e)
    (hoff : off ≤ e.numBytes.toNat) {Q : List UInt8 → Sys → Prop} {E : Halt → Sys → Prop}
    (hQ : ∀ fs, Ready sb σ p e fs →
      Q (fileBytes σ e off (min pageBytes (e.numBytes.toNat - off))) { s with fs := fs }) :
    wp ((services sb).lock p) (fun _ t => wp ((services sb).read p off pageBytes) (fun buf t =>
      wp ((services sb).unlock p) (fun _ t => Q buf t) E t) E t) E s := by
  obtain ⟨i, hi, he, hlock, hrc⟩ := h.inode
  have hsum : off + pageBytes < 2 ^ 64 := by
    have := e.numBytes.toNat_lt
    have hpage : pageBytes = 4096 := rfl
    omega
  -- The inode while it is locked.
  have hopen : Opened sb σ p e
      { s.fs with inode := Function.update s.fs.inode p (some { i with lock := i.lock - 1 }) } :=
    ⟨h.rep, _, Function.update_self p _ _, he⟩
  show wp (fsCall .stop (inodeLock p)) _ _ _
  unfold fsCall inodeLock acquireLock
  rw [wp_zoom, wp_adaptExcept, wp_bind, wp_deref hi, if_neg (by omega), wp_bind, wp_deref hi,
    if_neg (by omega), wp_modifyInode hi]
  show wp (fsCall .read (inodeRead sb p off pageBytes)) _ _ _
  unfold fsCall
  rw [wp_zoom, wp_adaptExcept]
  refine wp_inodeRead hopen hs.filled (by rw [hs.type]; decide) hoff hsum fun c hc => ?_
  show wp (fsCall .stop (inodeUnlock p)) _ _ _
  unfold fsCall inodeUnlock releaseLock
  have hself : Function.update s.fs.inode p (some { i with lock := i.lock - 1 }) p =
      some { i with lock := i.lock - 1 } := Function.update_self p _ _
  rw [wp_zoom, wp_adaptExcept, wp_bind, wp_deref hself, if_neg (by dsimp only; omega),
    wp_modifyInode hself]
  refine hQ _ ⟨hc.rep, _, Function.update_self p _ _, he, ?_, hrc⟩
  dsimp only
  omega

/-- A read behind the end of the file stops. -/
theorem Ready.read_beyond {off : ℕ} (h : Ready sb σ p e s.fs) (ht : e.type = inodeRegular)
    (hoff : e.numBytes.toNat < off) {Q : List UInt8 → Sys → Prop} :
    wp ((services sb).lock p) (fun _ t => wp ((services sb).read p off pageBytes) Q
      (fun e _ => e = .read .assertion) t) (fun e _ => e = .read .assertion) s := by
  obtain ⟨i, hi, he, hlock, hrc⟩ := h.inode
  have hopen : Opened sb σ p e
      { s.fs with inode := Function.update s.fs.inode p (some { i with lock := i.lock - 1 }) } :=
    ⟨h.rep, _, Function.update_self p _ _, he⟩
  show wp (fsCall .stop (inodeLock p)) _ _ _
  unfold fsCall inodeLock acquireLock
  rw [wp_zoom, wp_adaptExcept, wp_bind, wp_deref hi, if_neg (by omega), wp_bind, wp_deref hi,
    if_neg (by omega), wp_modifyInode hi]
  show wp (fsCall .read (inodeRead sb p off pageBytes)) _ _ _
  unfold fsCall
  rw [wp_zoom, wp_adaptExcept]
  exact wp_inodeRead_beyond hopen ht hoff rfl

/-- The mapping in the slot `v` of process `q`, at first of `len` bytes from `o` on. Nothing has
    been unmapped from the front, or everything has been unmapped. -/
structure Shown (sb : SuperBlock) (σ : ℕ → BlockData) (p : ℕ) (e : InodeEntry) (q v o len : ℕ)
    (w : View) : Prop where
  live : (w.sys.procs q).live = true
  running : w.sys.halted = none
  bound : o ≤ w.lo ∧ w.hi ≤ o + len ∧ o + len < 2 ^ 64
  lists : ∃ L, Inv (head w.sys.procs) L w.sys ∧ (w.lo < w.hi → v ∈ L q) ∧
    ∀ u ∈ L q, (u = v → w.lo < w.hi) ∧
      (u ≠ v → (w.sys.vmas u).stop ≤ o ∨ o + len ≤ (w.sys.vmas u).start)
  slot : w.lo < w.hi → w.lo = o ∧ pageBytes ∣ o ∧ (w.sys.vmas v).start = o ∧
    (w.sys.vmas v).stop = w.hi ∧ (w.sys.vmas v).length = w.hi - o ∧ (w.sys.vmas v).off = 0 ∧
    hasFlag (w.sys.vmas v).flags mapPrivate = true ∧ (w.sys.files (w.sys.vmas v).file).ip = p
  ready : w.lo < w.hi → Ready sb σ p e w.sys.fs

variable {v o len : ℕ} {w : View}

/-- Where a walk through the list of the process ends. -/
theorem Shown.walk {addr : ℕ} (h : Shown sb σ p e q v o len w) (h1 : w.lo ≤ addr) (h2 : addr < w.hi)
    {Q : Option (ℕ × Option ℕ) → Sys → Prop} {E : Halt → Sys → Prop}
    (hQ : ∀ L l l', Inv (head w.sys.procs) L w.sys → L q = l ++ v :: l' →
      (∀ u ∈ L q, u ≠ v → (w.sys.vmas u).stop ≤ o ∨ o + len ≤ (w.sys.vmas u).start) →
      Q (some (v, l.getLast?)) { w.sys with cur := q }) :
    wp (vmaOf addr nvma none (w.sys.procs q).vma) Q E { w.sys with cur := q } := by
  obtain ⟨L, hL, hv, hother⟩ := h.lists
  obtain ⟨hlo, -, hstart, hstop, -⟩ := h.slot (by omega)
  obtain ⟨hb1, hb2, hb3⟩ := h.bound
  have hcur := hL.lists.linked q
  rw [show head w.sys.procs q = (w.sys.procs q).vma from if_pos h.live] at hcur
  refine wp_vmaOf (s := { w.sys with cur := q }) hcur (hL.lists.length_le q) (fun hnone => ?_)
    fun u l l' hl hu1 hu2 => ?_
  · refine absurd ?_ (hnone v (hv (by omega)))
    dsimp only
    omega
  · have huv : u = v := by
      by_contra hne
      have := (hother u (by rw [hl]; exact List.mem_append_right l List.mem_cons_self)).2 hne
      dsimp only at hu1 hu2
      omega
    subst huv
    rw [Option.or_none]
    exact hQ L l l' hL hl fun u hu => (hother u hu).2

/-- A fault that does not lie behind the end of the file yields the page. -/
theorem Shown.wp_fault {addr : ℕ} (h : Shown sb σ p e q v o len w) (hs : Stored sb σ e)
    (h1 : w.lo ≤ addr) (h2 : addr < w.hi) (hoff : pageBaseOf addr - o ≤ e.numBytes.toNat)
    {E : Halt → Sys → Prop} : wp (faultPage sb addr) (fun r t =>
      r = some (filePage σ e (pageBaseOf addr - o)) ∧ ∃ fs, Ready sb σ p e fs ∧
        t = { w.sys with cur := q, fs := fs }) E { w.sys with cur := q } := by
  obtain ⟨hlo, hdvd, hstart, hstop, hlen, hoff0, -, hip⟩ := h.slot (by omega)
  obtain ⟨hb1, hb2, hb3⟩ := h.bound
  unfold faultPage
  rw [wp_bind, wp_thisproc, wp_bind]
  refine h.walk h1 h2 fun L l l' _ _ _ => ?_
  simp only [wp_bind, wp_getVma, wp_getFile, wp_pure]
  have hbase : o ≤ pageBaseOf addr := by
    obtain ⟨c, rfl⟩ := hdvd
    unfold pageBaseOf pageBytes at *
    omega
  have hu64 : u64 ((w.sys.vmas v).off + pageBaseOf addr + 2 ^ 64 - (w.sys.vmas v).start) =
      pageBaseOf addr - o := by
    rw [hoff0, hstart]
    unfold u64 pageBaseOf pageBytes at *
    omega
  rw [hu64, hip]
  refine Ready.read (s := { w.sys with cur := q }) (h.ready (by omega)) hs hoff fun fs hfs => ?_
  rw [length_fileBytes, ← filePage_eq]
  exact ⟨rfl, fs, hfs, rfl⟩

/-- A fault behind the end of the file stops. -/
theorem Shown.wp_fault_beyond {addr : ℕ} (h : Shown sb σ p e q v o len w) (hs : Stored sb σ e)
    (h1 : w.lo ≤ addr) (h2 : addr < w.hi) (hoff : e.numBytes.toNat < pageBaseOf addr - o)
    {Q : Option (List UInt8) → Sys → Prop} :
    wp (faultPage sb addr) Q (fun e _ => e = .read .assertion) { w.sys with cur := q } := by
  obtain ⟨hlo, hdvd, hstart, hstop, hlen, hoff0, -, hip⟩ := h.slot (by omega)
  obtain ⟨hb1, hb2, hb3⟩ := h.bound
  unfold faultPage
  rw [wp_bind, wp_thisproc, wp_bind]
  refine h.walk h1 h2 fun L l l' _ _ _ => ?_
  simp only [wp_bind, wp_getVma, wp_getFile, wp_pure]
  have hu64 : u64 ((w.sys.vmas v).off + pageBaseOf addr + 2 ^ 64 - (w.sys.vmas v).start) =
      pageBaseOf addr - o := by
    rw [hoff0, hstart]
    unfold u64 pageBaseOf pageBytes at *
    omega
  rw [hu64, hip]
  exact Ready.read_beyond (s := { w.sys with cur := q }) (h.ready (by omega)) hs.type hoff

/-- The fault yields the right page just when it does not lie behind the end of the file. -/
theorem Shown.yields_iff {addr : ℕ} (h : Shown sb σ p e q v o len w) (hs : Stored sb σ e)
    (h1 : w.lo ≤ addr) (h2 : addr < w.hi) :
    Yields sb q σ e w.sys o addr ↔ pageBaseOf addr - o ≤ e.numBytes.toNat := by
  constructor
  · rintro ⟨t, ht⟩
    by_contra hoff
    have hw := (h.wp_fault_beyond hs h1 h2 (not_le.mp hoff) (Q := fun _ _ => False)).of_ok ht
    exact hw
  · intro hoff
    obtain ⟨r, t, hr, rfl, -⟩ := (h.wp_fault hs h1 h2 hoff (E := fun _ _ => False)).total
    exact ⟨t, hr⟩

/-- What has been unmapped is not covered. -/
theorem Shown.uncovered {addr : ℕ} (h : Shown sb σ p e q v o len w) (h1 : o ≤ addr)
    (h2 : addr < o + len) (h3 : ¬ (w.lo ≤ addr ∧ addr < w.hi)) : Uncovered w.sys q addr := by
  obtain ⟨L, hL, hv, hother⟩ := h.lists
  have hcur := hL.lists.linked q
  rw [show head w.sys.procs q = (w.sys.procs q).vma from if_pos h.live] at hcur
  unfold Uncovered
  rw [hcur.follow_eq (hL.lists.length_le q)]
  intro u hu hin
  by_cases huv : u = v
  · subst huv
    obtain ⟨hlo, -, hstart, hstop, -⟩ := h.slot ((hother u hu).1 rfl)
    omega
  · have := (hother u hu).2 huv
    omega

/-! ## Steps -/

/-- A mapping gets shorter. -/
theorem Lists.shrink {vmas : ℕ → Vma} {hd : ℕ → Option ℕ} {L : ℕ → List ℕ} {b n : ℕ}
    (h : Lists vmas hd L) (hv : v ∈ L q) (hn : 0 < n) (hb : (vmas v).start < b)
    (hle : b ≤ (vmas v).stop) :
    Lists (Function.update vmas v { vmas v with length := n, stop := b }) hd L := by
  have hkeep : ∀ u, (Function.update vmas v { vmas v with length := n, stop := b } u).next =
        (vmas u).next ∧
      (Function.update vmas v { vmas v with length := n, stop := b } u).start = (vmas u).start ∧
      (Function.update vmas v { vmas v with length := n, stop := b } u).stop ≤ (vmas u).stop := by
    intro u
    by_cases hu : u = v
    · rw [hu, Function.update_self]
      exact ⟨rfl, rfl, hle⟩
    · rw [Function.update_of_ne hu]
      exact ⟨rfl, rfl, le_rfl⟩
  refine ⟨fun p => (h.linked p).congr fun u _ => (hkeep u).1, fun p u hu => ?_, h.own, fun u hu hlen => ?_,
    fun p => (h.order p).imp fun {a c} hac => ?_⟩
  · have hslot := h.slot p u hu
    by_cases huv : u = v
    · subst huv
      rw [Function.update_self]
      exact ⟨hslot.1, hn, hb⟩
    · rw [Function.update_of_ne huv]
      exact hslot
  · by_cases huv : u = v
    · exact ⟨q, huv ▸ hv⟩
    · rw [Function.update_of_ne huv] at hlen
      exact h.used u hu hlen
  · rw [(hkeep c).2.1]
    exact (hkeep a).2.2.trans hac

/-- A mapping gets shorter and keeps its file. -/
theorem Inv.shrink {hd : ℕ → Option ℕ} {L : ℕ → List ℕ} {b n : ℕ} (h : Inv hd L s) (hv : v ∈ L q)
    (hn : 0 < n) (hb : (s.vmas v).start < b) (hle : b ≤ (s.vmas v).stop) :
    Inv hd L { s with vmas := Function.update s.vmas v { s.vmas v with length := n, stop := b } } := by
  refine ⟨h.lists.shrink hv hn hb hle, fun f => ?_, h.unborn, h.running⟩
  have hsame : vmaRefs (Function.update s.vmas v { s.vmas v with length := n, stop := b }) f =
      vmaRefs s.vmas f := by
    refine countIf_congr fun u _ => ?_
    by_cases huv : u = v
    · have hlen := (h.lists.slot q v hv).2.1
      rw [huv, Function.update_self]
      exact and_congr_left fun _ => iff_of_true hn hlen
    · rw [Function.update_of_ne huv]
  rw [hsame]
  exact h.refs f

/-- What is left of the mapping is unmapped. -/
theorem Shown.wp_whole {mem : ℕ → UInt8} {lo hi : ℕ} (h : Shown sb σ p e q v o len w)
    (hlt : w.lo < w.hi) (h1 : o ≤ lo) (h2 : hi ≤ o + len) (h3 : hi ≤ lo) :
    wp (munmap sb w.lo (w.hi - w.lo) mem) (fun _ t => Shown sb σ p e q v o len ⟨t, lo, hi⟩)
      (fun _ _ => True) { w.sys with cur := q } := by
  obtain ⟨hlo, -, hstart, -, hlen, -, -, -⟩ := h.slot hlt
  unfold munmap
  rw [wp_bind, wp_thisproc, wp_bind]
  refine h.walk le_rfl hlt fun L l l' hL hl hother => ?_
  have haddr : w.lo = (w.sys.vmas v).start := by rw [hstart, hlo]
  have hn : w.hi - w.lo = (w.sys.vmas v).length := by rw [hlen, hlo]
  dsimp only
  rw [hn, haddr]
  have hq : Inv (head w.sys.procs) L { w.sys with cur := q } :=
    ⟨hL.lists, hL.refs, hL.unborn, hL.running⟩
  refine wp_mono (wp_unmap (s := { w.sys with cur := q }) hq h.live hl) (fun _ t ht => ?_) fun _ _ _ => trivial
  obtain ⟨hinv, hfds, hplaces⟩ := ht
  dsimp only at hinv
  refine ⟨(hfds q).1.trans h.live, hinv.running, ⟨h1, h2, h.bound.2.2⟩,
    ⟨_, hinv, fun hlt => absurd hlt (not_lt.mpr h3), fun u hu => ?_⟩,
    fun hlt => absurd hlt (not_lt.mpr h3), fun hlt => absurd hlt (not_lt.mpr h3)⟩
  have hnd := (hL.lists.linked q).nodup
  rw [hl] at hnd
  rw [Function.update_self] at hu
  have huv : u ≠ v := ne_of_mem_of_not_mem hu (List.nodup_middle.mp hnd).notMem
  refine ⟨fun e => absurd e huv, fun _ => ?_⟩
  rw [(hplaces u huv).1, (hplaces u huv).2]
  refine hother u ?_ huv
  rw [hl]
  exact ((List.sublist_cons_self v l').append_left l).subset hu

/-- The last `n` bytes are unmapped, and something is left. -/
theorem Shown.wp_back {mem : ℕ → UInt8} {n : ℕ} (h : Shown sb σ p e q v o len w) (hn : 0 < n)
    (hlt : w.lo + n < w.hi) :
    wp (munmap sb (w.hi - n) n mem) (fun _ t => Shown sb σ p e q v o len ⟨t, w.lo, w.hi - n⟩)
      (fun _ _ => True) { w.sys with cur := q } := by
  obtain ⟨hlo, hdvd, hstart, hstop, hlen, hoff, hflags, hip⟩ := h.slot (by omega)
  obtain ⟨hb1, hb2, hb3⟩ := h.bound
  unfold munmap
  rw [wp_bind, wp_thisproc, wp_bind]
  refine h.walk (by omega) (by omega) fun L l l' hL hl hother => ?_
  have hvL : v ∈ L q := by
    rw [hl]
    exact List.mem_append_right l List.mem_cons_self
  have hstop' : u64 (w.hi - n + n) = w.hi := by
    rw [Nat.sub_add_cancel (by omega)]
    exact u64_of_lt (by omega)
  have hl1 : u64 ((w.sys.vmas v).length + 2 ^ 64 - n) = w.hi - n - o := by
    rw [hlen]
    unfold u64
    omega
  have hl2 : u64 ((w.sys.vmas v).stop + 2 ^ 64 - n) = w.hi - n := by
    rw [hstop]
    unfold u64
    omega
  dsimp only
  unfold unmap
  rw [wp_bind, wp_getVma, if_neg fun hc => hc.2 (hstop'.trans hstop.symm), if_neg (by rw [hstart]; omega),
    wp_bind, wp_modifyVma, wp_pure]
  dsimp only
  rw [hl1, hl2]
  have hinv := Inv.shrink (s := { w.sys with cur := q }) (q := q) (v := v) (L := L) (b := w.hi - n)
    (n := w.hi - n - o) ⟨hL.lists, hL.refs, hL.unborn, hL.running⟩ hvL (by omega)
    (by dsimp only; omega) (by dsimp only; omega)
  refine ⟨h.live, h.running, ⟨hb1, by dsimp only; omega, hb3⟩,
    ⟨L, hinv, fun _ => hvL, fun u hu => ⟨fun _ => by dsimp only; omega, fun huv => ?_⟩⟩, fun _ => ?_,
    fun _ => h.ready (by omega)⟩
  · dsimp only
    rw [Function.update_of_ne huv]
    exact hother u hu huv
  · dsimp only
    rw [Function.update_self]
    exact ⟨hlo, hdvd, hstart, rfl, rfl, hoff, hflags, hip⟩

/-- Nothing but the whole rest is unmapped from the front. -/
def NoFront (w : View) : Use → Prop
  | .front n _ => w.lo + n = w.hi
  | _ => True

instance (w : View) : ∀ a, Decidable (NoFront w a)
  | .front n _ => inferInstanceAs (Decidable (w.lo + n = w.hi))
  | .fault _ | .back _ _ => isTrue trivial

/-- The state after a call that came back. -/
theorem View.after_ok {α : Type} {lo hi : ℕ} {x : SysM α} {I : View → Prop} {E : Halt → Sys → Prop}
    (h : wp x (fun _ t => I ⟨t, lo, hi⟩) E s) (hn : (View.after lo hi (x s)).sys.halted = none) :
    I (View.after lo hi (x s)) := by
  unfold View.after at hn ⊢
  split at hn
  · next hx => exact h.of_ok hx
  · cases hn

theorem Shown.step {a : Use} {w' : View} (h : Shown sb σ p e q v o len w) (hs : Stored sb σ e)
    (hok : NoFront w a) (hstep : useNext sb q w a = some w') (hn : w'.sys.halted = none) :
    Shown sb σ p e q v o len w' := by
  obtain ⟨hb1, hb2, hb3⟩ := h.bound
  cases a with
  | fault addr =>
    rw [useNext] at hstep
    split_ifs at hstep with hc
    obtain rfl := Option.some.inj hstep
    refine View.after_ok ?_ hn (E := fun _ _ => True)
    by_cases hoff : pageBaseOf addr - o ≤ e.numBytes.toNat
    · refine (h.wp_fault hs hc.2.1 hc.2.2 hoff).imp fun r t ht => ?_
      obtain ⟨-, fs, hfs, rfl⟩ := ht
      obtain ⟨L, hL, hlist⟩ := h.lists
      exact ⟨h.live, h.running, h.bound, ⟨L, ⟨hL.lists, hL.refs, hL.unborn, hL.running⟩, hlist⟩, h.slot,
        fun _ => hfs⟩
    · exact wp_mono (h.wp_fault_beyond hs hc.2.1 hc.2.2 (not_le.mp hoff) (Q := fun _ _ => False))
        (fun _ _ hf => hf.elim) fun _ _ _ => trivial
  | front n mem =>
    rw [useNext] at hstep
    split_ifs at hstep with hc
    obtain rfl := Option.some.inj hstep
    refine View.after_ok ?_ hn (E := fun _ _ => True)
    have hwhole : w.lo + n = w.hi := hok
    rw [show n = w.hi - w.lo by omega]
    exact h.wp_whole (by omega) (by omega) hb2 (by omega)
  | back n mem =>
    rw [useNext] at hstep
    split_ifs at hstep with hc
    obtain rfl := Option.some.inj hstep
    refine View.after_ok ?_ hn (E := fun _ _ => True)
    by_cases hlt : w.lo + n < w.hi
    · exact h.wp_back hc.2.1 hlt
    · have hwhole : wp (munmap sb w.lo (w.hi - w.lo) mem)
          (fun _ t => Shown sb σ p e q v o len ⟨t, w.lo, w.hi - n⟩) (fun _ _ => True)
          { w.sys with cur := q } := h.wp_whole (by omega) hb1 (by omega) (by omega)
      rw [show w.hi - w.lo = n by omega] at hwhole
      rw [show w.hi - n = w.lo by omega] at hwhole ⊢
      exact hwhole

/-- `mmap` makes such a mapping. -/
theorem Shown.of_mmap {t : Sys} {L : ℕ → List ℕ} {r length fd : ℤ} {prot flags f : ℕ}
    (h : Inv (head s.procs) L s) (hq : s.Live q) (hf : (s.procs q).files fd.toNat = some f)
    (hip : (s.files f).ip = p) (hready : Ready sb σ p e s.fs)
    (hflags : hasFlag flags mapPrivate = true)
    (hok : Maps s q 0 prot flags fd 0 → MmapOk s q length)
    (hmap : mmap 0 length prot flags fd 0 { s with cur := q } = .ok r t) (hr : r ≠ -1) :
    ∃ v, Shown sb σ p e q v r.toNat length.toNat ⟨t, r.toNat, r.toNat + length.toNat⟩ := by
  have hw := (wp_mmap (s := { s with cur := q }) ⟨h.lists, h.refs, h.unborn, h.running⟩ hq.2 hok).of_ok
    hmap
  rcases hw with ⟨he, -⟩ | ⟨v, g, hg, hlen, hstart, hplaced, hips⟩
  · exact absurd he hr
  obtain rfl := Option.some.inj (hf.symm.trans hg)
  obtain ⟨start, hdvd, hend, hslot⟩ := hplaced.slot
  have hu64 := u64OfInt_pos hlen (by omega)
  rw [hslot] at hstart
  dsimp only at hstart
  have hor : r.toNat = start := by rw [hstart, Int.toNat_natCast]
  have hlast : Function.update L q (L q ++ [v]) q = L q ++ [v] := Function.update_self _ _ _
  have hord := hplaced.inv.lists.order q
  dsimp only at hord
  rw [hlast, List.pairwise_append] at hord
  have hready' : Ready sb σ p e t.fs := by
    rw [hplaced.fs]
    exact hready
  refine ⟨v, (hplaced.fds q).1.trans hq.2, hplaced.inv.running, ?_, ⟨_, hplaced.inv, fun _ => ?_,
    fun u hu => ⟨fun _ => ?_, fun huv => ?_⟩⟩, fun _ => ?_, fun _ => hready'⟩
  · dsimp only
    omega
  · dsimp only
    rw [hlast]
    exact List.mem_append_right (L q) List.mem_cons_self
  · dsimp only
    omega
  · dsimp only at hu
    rw [hlast, List.mem_append, List.mem_singleton] at hu
    have hle := hord.2.2 u (hu.resolve_right huv) v List.mem_cons_self
    rw [hslot] at hle
    dsimp only at hle ⊢
    omega
  · dsimp only
    rw [hslot]
    dsimp only
    rw [hips f]
    refine ⟨rfl, hor ▸ hdvd, hor.symm, ?_, ?_, ?_, hflags, hip⟩
    · omega
    · omega
    · rfl

/-! ## Runs -/

/-- What the process sees of a mapping of `len` bytes that `mmap` has put at `o`. -/
structure Shows (sb : SuperBlock) (σ : ℕ → BlockData) (e : InodeEntry) (q o len : ℕ) (w : View) :
    Prop where
  page : ∀ addr, w.lo ≤ addr → addr < w.hi → Yields sb q σ e w.sys o addr
  gone : ∀ addr, o ≤ addr → addr < o + len → ¬ (w.lo ≤ addr ∧ addr < w.hi) →
    Uncovered w.sys q addr

/-- A device whose blocks hold their own number. -/
def fileDisk (b : ℕ) : BlockData := fun _ => UInt8.ofNat b

/-- A file of 5000 bytes in the blocks from 30 on. -/
def fileEntry : InodeEntry :=
  { InodeEntry.zero with
    type := inodeRegular
    numLinks := 1
    numBytes := 5000
    addrs := fun i => UInt32.ofNat (30 + i) }

/-- The first process has the file open, and nothing is cached. -/
def fileSys : Sys :=
  oneFile ⟨Bcache.boot fileDisk, [1], Function.update (fun _ => none) 1 (some ⟨1, 1, 2, true, fileEntry⟩),
    2, [], []⟩ 1

/-- It has mapped 8192 bytes. -/
def mappedSys : Sys :=
  match mmap 0 8192 protRead mapPrivate 0 0 { fileSys with cur := 0 } with
  | .ok _ t => t
  | .error _ t => t

theorem mmap_mappedSys :
    mmap 0 8192 protRead mapPrivate 0 0 { fileSys with cur := 0 } = .ok vmaStart mappedSys := by
  have h : (match mmap 0 8192 protRead mapPrivate 0 0 { fileSys with cur := 0 } with
    | .ok r _ => decide (r = vmaStart)
    | .error _ _ => false) = true := by decide +kernel
  unfold mappedSys
  split at h
  · next hs =>
    rw [hs, of_decide_eq_true h]
  · cases h

theorem ready_fileSys : Ready smallFs fileDisk 1 fileEntry fileSys.fs := by
  refine ⟨⟨⟨List.nodup_nil, fun _ hb => absurd hb List.not_mem_nil, fun _ hb => absurd hb List.not_mem_nil,
    fun _ _ _ => rfl⟩, List.nodup_nil, rfl, rfl, fun _ hx => absurd hx List.not_mem_nil,
    fun _ hc => absurd hc.1 List.not_mem_nil, List.nodup_nil⟩,
    ⟨1, 1, 2, true, fileEntry⟩, rfl, rfl, rfl, Int.one_pos⟩

theorem stored_fileEntry : Stored smallFs fileDisk fileEntry := by
  have hblocks : ∀ k < 10, fileBlock fileDisk fileEntry k ≠ 0 ∧
      ¬ smallFs.InLog (fileBlock fileDisk fileEntry k) := by decide +kernel
  have hsize : fileEntry.numBytes.toNat = 5000 := rfl
  refine ⟨rfl, fun k hk => hblocks k ?_, fun h => ?_⟩
  · rw [hsize] at hk
    unfold blockSize at hk
    omega
  · rw [hsize] at h
    exact absurd h (by decide)

end ShikiOS.Kernel.Vmas
