import ShikiOS.Kernel.Mmap
import ShikiOS.Kernel.PageFault
import ShikiOS.Kernel.Uvmunmap
import ShikiOS.Lib.Run

/-!
# Mappings that are filled by faults (`kernel/sysfile.c`, `kernel/paging.c`)

`mmap` enters nothing into the page tables. A page of a mapping gets there with the first access to
it, and holds whatever the process writes then. A file is the list of its bytes, and of its inode there
is the lock.

Left out: `file_dup` and what `mmap` refuses, blocks of files and the log, and what a fault in a mapping
of a device does.

Results:
* `Resident.enter`: a fault gives its page a page of memory of its own.
* `FileSpace.run_inv`: what holds after any calls of `mmap`, faults and stores.
-/

namespace ShikiOS.Kernel.Paging

open ShikiOS.Lib Fs
open UserPtr (pteValid pteRo)
open Calls (vmaStart protWrite mapPrivate opMaxBytes intOfU64)

/-! ## Model -/

/-- `PTE_RW` (mmu.h:34). -/
def pteRw : UInt64 := (0 : UInt64) <<< 7

/-- `Vma` (proc.h:27-37) without the lock. The file is named by its inode. -/
structure Vma where
  start : UInt64
  stop : UInt64
  length : UInt64
  off : UInt64
  permission : UInt64
  flags : ℕ
  ip : ℕ

/-- A process: its page directory and memory, its mappings in the order of the list, the bytes of the
    files, and which inodes are locked. -/
structure FileSpace where
  vm : Vm
  vmas : List Vma
  file : ℕ → List UInt8
  locked : ℕ → Bool

abbrev FileM := EStateM Stop FileSpace

/-- A program on the page directory. -/
def memory {α : Type} (x : M α) : FileM α := zoom FileSpace.vm (fun v s => { s with vm := v }) x

/-- The address is in the mapping. -/
def Vma.Covers (v : Vma) (addr : UInt64) : Prop := v.start ≤ addr ∧ addr < v.stop

instance (v : Vma) (addr : UInt64) : Decidable (v.Covers addr) :=
  inferInstanceAs (Decidable (_ ∧ _))

/-- `v->start` of a new mapping behind others (sysfile.c:141-152). -/
def newStart : List Vma → UInt64
  | [] => UInt64.ofNat vmaStart
  | v :: vs => pageBaseU64 (((v :: vs).getLast (List.cons_ne_nil v vs)).stop + 0x1000 - 1)

/-- The mapping that `mmap` makes (sysfile.c:121-155). -/
def newVma (vs : List Vma) (length : ℤ) (prot flags ip : ℕ) : Vma where
  start := newStart vs
  stop := newStart vs + UInt64.ofInt length
  length := UInt64.ofInt length
  off := 0
  permission := if Kernel.hasFlag prot protWrite then pteUserData ||| pteRw else pteUserData
  flags := flags
  ip := ip

/-- `inodes.lock`. -/
def inodeLock (ip : ℕ) : FileM Unit := do
  if (← get).locked ip then throw .spin
  modify fun s => { s with locked := Function.update s.locked ip true }

/-- `inodes.unlock`. -/
def inodeUnlock (ip : ℕ) : FileM Unit :=
  modify fun s => { s with locked := Function.update s.locked ip false }

/-- `inodes.read` (inode.c:335-364). -/
def inodeRead (ip offset count : ℕ) : FileM (List UInt8) := do
  let l := (← get).file ip
  if ¬ offset ≤ l.length then throw .panic
  return (l.drop offset).take count

/-- The page that a fault enters (paging.c:174-181), and what `mappages` returns. -/
def enterPage (pd : ℕ) (addr perm : UInt64) : M (ℕ × ℤ) := do
  let mem ← kallocPage
  clearPage mem
  return (mem, ← mappages pd addr 0x1000 (UInt64.ofNat mem) perm)

/-- A fault in a mapping (paging.c:173-190). -/
def fileFault (p : ℕ) (v : Vma) (addr : UInt64) : FileM Unit := do
  let addr := pageBaseU64 addr
  let (mem, r) ← memory (enterPage (pgdirOf p) addr v.permission)
  if r ≠ 0 then
    memory (kfree mem)
  else
    inodeLock v.ip
    let l ← inodeRead v.ip (v.off + addr - v.start).toNat pageSize
    memory (readPage mem l)
    inodeUnlock v.ip

/-- `pgfault_handler` (paging.c:146-219) of the process at `p`. -/
def fault (p : ℕ) (addr : UInt64) : FileM Unit := do
  match (← get).vmas.find? fun v => v.Covers addr with
  | some v => fileFault p v addr
  | none =>
    let _ ← memory (anonFault p addr 0)
    return

/-! ## Runs -/

/-- The number of its first page, and that of its pages: `PGROUNDUP(length) / PAGE_SIZE`. -/
def Vma.first (v : Vma) : ℕ := v.start.toNat / 2 ^ 12
def Vma.pages (v : Vma) : ℕ := (v.length.toNat + (pageSize - 1)) / pageSize

/-- The pages from `VMA_START` on, as far as mappings may reach. -/
def Region (n : ℕ) : Prop := 2 ^ 11 ≤ n ∧ n < 2 ^ 11 + 2 ^ 24

instance (n : ℕ) : Decidable (Region n) := inferInstanceAs (Decidable (_ ∧ _))

inductive Event
  | mmap (length : ℤ) (prot flags ip : ℕ)
  /-- An access to a page that is not mapped. -/
  | fault (addr : UInt64)
  /-- The process stores a byte in the region of the mappings. -/
  | store (addr : UInt64) (b : UInt8)
  /-- Somebody writes to a file. -/
  | file (ip : ℕ) (l : List UInt8)

/-- A step of the process at `p`, or one of the rest of the system. A `mmap` of length 0 or less, and
    one for which there is no slot, make no step. -/
def FileSpace.step (p : ℕ) (s : FileSpace) : Event → Option FileSpace
  | .mmap length prot flags ip =>
    if s.vmas.length < Calls.nvma ∧ 0 < length ∧ length < 2 ^ 31 then
      some { s with vmas := s.vmas ++ [newVma s.vmas length prot flags ip] }
    else none
  | .fault addr =>
    if addr.toNat < 2 ^ 48 ∧ (∃ v ∈ s.vmas, v.Covers addr) ∧
        translate s.vm (pgdirOf p) addr = none then
      match fault p addr s with
      | .ok _ t => some t
      | .error _ _ => none
    else none
  | .store addr b =>
    match translate s.vm (pgdirOf p) addr with
    | some a =>
      if Region (vpn addr) then
        some { s with vm := { s.vm with heap := s.vm.heap.putBytes a [b] } }
      else none
    | none => none
  | .file ip l => some { s with file := Function.update s.file ip l }

/-! ## What is left of the allocators -/

variable {s t : Vm} {fr S : List ℕ} {T : Tree} {D : ℕ → Prop} {p pd n q : ℕ} {va : UInt64}
  {al : ℕ → Allocator}

/-- The lists of the allocators begin as in `al`, and nobody has their lock. -/
def Calm (al : ℕ → Allocator) (s : Vm) : Prop := s.heap.allocators = al ∧ s.heap.memLock = false

theorem setPrev_calm {h : Heap} {v : ℕ} :
    (h.setPrev v).allocators = h.allocators ∧ (h.setPrev v).memLock = h.memLock := by
  rw [Heap.setPrev]
  split_ifs <;> exact ⟨rfl, rfl⟩

theorem kallocPage_calm {h h' : Heap} (hk : h.kallocPage = some (h', q)) (hm : h.memLock = false) :
    h'.allocators = h.allocators ∧ h'.memLock = false := by
  cases hl : h.pageLock with
  | true => simp [Heap.kallocPage, Heap.acquirePage, hl] at hk
  | false =>
    by_cases h0 : h.freePages = 0
    · have hp : h.kallocPage = some (Heap.releaseMem { h with
          kallocPageCnt := h.kallocPageCnt + 1, pageLock := true }, 0) := by
        simp [Heap.kallocPage, Heap.acquirePage, hl, h0]
      rw [hp, Option.some.injEq, Prod.mk.injEq] at hk
      rw [← hk.1]
      exact ⟨rfl, rfl⟩
    · have hp : h.kallocPage = some ((let u := Heap.setPrev { h with
          kallocPageCnt := h.kallocPageCnt + 1, pageLock := true, freePages := h.link h.freePages } 0
          { u with pageCnt := Function.update u.pageCnt (pageIndex h.freePages) 0 }.releasePage),
          h.freePages) := by
        simp only [Heap.kallocPage, Heap.acquirePage, hl, h0, Bool.false_eq_true, if_false,
          Option.bind_eq_bind, Option.bind_some]
        rfl
      have hprev := setPrev_calm (v := 0) (h := { h with
        kallocPageCnt := h.kallocPageCnt + 1, pageLock := true, freePages := h.link h.freePages })
      generalize Heap.setPrev { h with
        kallocPageCnt := h.kallocPageCnt + 1, pageLock := true
        freePages := h.link h.freePages } 0 = u at hp hprev
      rw [hp, Option.some.injEq, Prod.mk.injEq] at hk
      rw [← hk.1]
      exact ⟨hprev.1, hprev.2.trans hm⟩

theorem preserves_kallocPage : Preserves (Calm al) kallocPage := by
  intro s hs
  rw [kallocPage, wp_bind, wp_get]
  cases hk : s.heap.kallocPage with
  | none => exact wp_throw.mpr hs
  | some r =>
    obtain ⟨h', q⟩ := r
    obtain ⟨hal, hm⟩ := kallocPage_calm hk hs.2
    have hr : h'.allocators = al ∧ h'.memLock = false := ⟨hal.trans hs.1, hm⟩
    dsimp only
    rw [wp_bind, wp_modify]
    refine wp.ite (fun _ => ?_) fun _ => ?_
    · rw [wp_bind, wp_throw]
      exact hr
    · rw [wp_bind, wp_modify, wp_pure]
      exact hr

theorem preserves_store {a : ℕ} {pte : UInt64} : Preserves (Calm al) (store a pte) :=
  preserves_modify fun _ h => h

theorem preserves_clearPage : Preserves (Calm al) (clearPage q) := preserves_modify fun _ h => h

theorem preserves_newTable : Preserves (Calm al) newTable :=
  preserves_kallocPage.bind fun _ => preserves_clearPage.bind fun _ => preserves_pure _

theorem preserves_load {a : ℕ} : Preserves (Calm al) (load a) :=
  preserves_get.bind fun _ => preserves_pure _

theorem preserves_nextTable {b : Bool} {pgtbl idx : ℕ} : Preserves (Calm al) (nextTable b pgtbl idx) := by
  unfold nextTable
  refine preserves_load.bind fun _ => .ite (fun _ => ?_) fun _ => .ite (fun _ => ?_) fun _ => ?_
  · exact preserves_load.bind fun _ => preserves_pure _
  · exact preserves_pure _
  · refine preserves_newTable.bind fun _ => preserves_store.bind fun _ => ?_
    exact preserves_load.bind fun _ => preserves_pure _

theorem preserves_descend {b : Bool} {l : List ℕ} {pgtbl : ℕ} :
    Preserves (Calm al) (descend b l pgtbl) := by
  induction l generalizing pgtbl with
  | nil => exact preserves_pure _
  | cons idx l ih =>
    unfold descend
    refine preserves_nextTable.bind fun r => ?_
    cases r with
    | none => exact preserves_pure _
    | some pgtbl => exact ih

theorem preserves_getPte {b : Bool} : Preserves (Calm al) (getPte pd va b) := by
  have hroot : Preserves (Calm al) (rootTable pd b) := by
    unfold rootTable
    refine preserves_get.bind fun _ => .ite (fun _ => preserves_pure _) fun _ => .ite (fun _ => ?_) fun _ => ?_
    · exact preserves_pure _
    · refine preserves_newTable.bind fun q => ?_
      have hset : Preserves (Calm al) (setPt pd q) := preserves_modify fun _ h => h
      exact hset.bind fun _ => preserves_pure _
  unfold getPte
  refine hroot.bind fun r => ?_
  cases r with
  | none => exact preserves_pure _
  | some pgtbl =>
    refine preserves_descend.bind fun r => ?_
    cases r with
    | none => exact preserves_pure _
    | some pgtbl => exact preserves_pure _

/-! ## A fault -/

theorem pageAddr_mod (hn : n < 2 ^ 36) : ¬ pageAddr n % 0x1000 ≠ 0 := by
  rw [not_not]
  apply UInt64.toNat_inj.mp
  rw [UInt64.toNat_mod, pageAddr_toNat hn.le]
  show n * 2 ^ 12 % 4096 = 0
  omega

/-- `mappages` for one page stores the entry of the page. -/
theorem mappages_spec {perm pa : UInt64} {I : Vm → Prop} (hd : PageDir s pd fr T)
    (hI : Preserves I (getPte pd (pageAddr n) true)) (hs : I s) (hn : n < 2 ^ 36) :
    wp (mappages pd (pageAddr n) 0x1000 pa perm) (fun r t => r = 0 ∧ ∃ u fr' T' x,
      Grows s fr T u fr' T' ∧ I u ∧ slotOf T' n = some x ∧
      t = { u with heap := u.heap.setWord x (pa ||| perm ||| pteValid) }) NoPage s := by
  have h1 : ¬ (0x1000 : UInt64) % 0x1000 ≠ 0 := by decide
  have h2 : ¬ (0x1000 : UInt64) = 0 := by decide
  have h3 : ((0x1000 : UInt64) / 0x1000).toNat = 1 := by decide
  rw [mappages, if_neg (pageAddr_mod hn), if_neg h1, if_neg h2, h3, mapLoop, wp_bind]
  refine wp_mono (wp.and (getPte_spec hd fun _ => rfl) (hI s hs)) ?_ fun _ _ he => he.1
  rintro r u ⟨⟨fr', T', hg, rfl, hnone, -, -⟩, hu⟩
  rw [vpn_pageAddr hn] at *
  cases hx : slotOf T' n with
  | none => exact absurd (hnone hx) (by decide)
  | some x =>
    rw [wp_bind, wp_store, mapLoop, wp_pure]
    exact ⟨rfl, u, fr', T', x, hg, hu, hx, rfl⟩

/-- A page that is not used is cleared. -/
theorem PageDir.clear (hd : PageDir s pd fr T) (hq : KernelPage q) (hfr : q ∉ fr) (hT : ∀ l, T l ≠ some q) :
    PageDir { s with heap := s.heap.zeroPage q } pd fr T := by
  refine hd.frame ?_ (List.Subset.refl fr) rfl fun y l _ hl => mem_zeroPage hq.aligned ?_
  · refine hd.free.frame rfl rfl fun y hy => mem_zeroPage hq.aligned ?_
    rintro rfl
    exact hfr hy
  · exact fun he => hT l (he ▸ hl)

/-- A fault enters a page of its own, and the others stay. -/
theorem Resident.enter (h : Resident s pd fr T S D) (hn : D n) :
    wp (enterPage pd (pageAddr n) pteUserData) (fun r t => r.2 = 0 ∧ ∃ fr' T',
      Resident t pd fr' T' S D ∧ pageAt t T' n = some r.1 ∧
      ∀ m < 2 ^ 36, m ≠ n → pageAt t T' m = pageAt s T m) NoPage s := by
  have hn36 := h.lt n hn
  have hcalm : wp kallocPage (fun _ t => Calm s.heap.allocators t)
      (fun _ t => Calm s.heap.allocators t) s := preserves_kallocPage s ⟨rfl, h.unlocked⟩
  rw [enterPage, wp_bind]
  refine wp_mono (wp.and (kallocPage_dir h.dir) hcalm) ?_ fun _ _ he => he.1
  rintro q t ⟨⟨fr', rfl, hdir, hpt, hfreed, -, hmem⟩, ht⟩
  have hq : KernelPage q := h.dir.free.kernelPage List.mem_cons_self
  have hnd : q ∉ fr' := (List.nodup_cons.mp h.dir.free.pages.nodup).1
  have hqT : ∀ l, T l ≠ some q := fun l hl => h.dir.tables.used l q hl List.mem_cons_self
  have hclear := hdir.clear hq hnd hqT
  rw [wp_bind, wp_clearPage, wp_bind]
  refine (mappages_spec hclear preserves_getPte ht hn36).imp ?_
  rintro - v ⟨rfl, u, fr'', T', x, hg, hu, hx, rfl⟩
  rw [wp_pure]
  have hnew : ∀ l a, T' l = some a → T l = some a ∨ a ∈ fr' := fun l a ha => hg.table ha
  have hsub : ∀ a, a ∈ fr'' → a ∈ fr' := fun a ha => hg.suffix.subset ha
  have hfirst : ∀ y, pageBase y ∉ q :: fr' → (t.heap.zeroPage q).mem y = s.heap.mem y := by
    intro y hy
    rw [List.mem_cons, not_or] at hy
    exact (mem_zeroPage hq.aligned hy.1).trans (hmem y hy.2)
  have hother : ∀ m < 2 ^ 36, m ≠ n →
      pageAt { u with heap := u.heap.setWord x (mapEntry q) } T' m = pageAt s T m := by
    intro m hm hne
    rw [pageAt_store_of_ne hg.tables hn36 hm hx hne, hg.pageAt hclear.tables]
    exact pageAt_frame (t := { t with heap := t.heap.zeroPage q }) h.dir.tables m fun y l hl =>
      hfirst y (h.dir.tables.used l _ hl)
  have hself : pageAt { u with heap := u.heap.setWord x (mapEntry q) } T' n = some q := by
    rw [pageAt_store_self hx, if_pos (valid_mapEntry hq), pageOf_mapEntry hq]
  have hcase : ∀ m a, D m → pageAt { u with heap := u.heap.setWord x (mapEntry q) } T' m = some a →
      (m = n ∧ a = q) ∨ (m ≠ n ∧ pageAt s T m = some a) := by
    intro m a hm ha
    by_cases hmn : m = n
    · subst hmn
      rw [hself] at ha
      exact .inl ⟨rfl, (Option.some.inj ha).symm⟩
    · exact .inr ⟨hmn, (hother m (h.lt m hm) hmn).symm.trans ha⟩
  refine ⟨rfl, fr'', T', ⟨(hg.pageDir hclear).store hx, ?_, hu.2, fun a ha => ⟨?_, ?_⟩, h.lt, ?_, ?_, ?_⟩,
    hself, hother⟩
  · obtain ⟨ns, hns⟩ := h.lists
    refine ⟨ns, hns.frame (fun i _ => by rw [← hu.1]; rfl) fun y hy => ?_⟩
    obtain ⟨hyf, hyT⟩ := h.apart _ hy
    rw [← hfirst y hyf]
    refine (mem_store hg.tables hx fun hl => ?_).trans ?_
    · rcases hnew _ _ hl with hl | hl
      · exact hyT _ hl
      · exact hyf (List.mem_cons_of_mem q hl)
    · exact hg.mem y (fun hm => hyf (List.mem_cons_of_mem q hm)) fun l _ => hyT l
  · exact fun hm => (h.apart a ha).1 (List.mem_cons_of_mem q (hsub a hm))
  · intro l hl
    rcases hnew l a hl with hl | hl
    · exact (h.apart a ha).2 l hl
    · exact (h.apart a ha).1 (List.mem_cons_of_mem q hl)
  · intro m a hm ha
    rcases hcase m a hm ha with ⟨-, rfl⟩ | ⟨-, ha⟩
    · refine ⟨hq, fun hm => hnd (hsub a hm), fun hS => (h.apart a hS).1 List.mem_cons_self, ?_⟩
      intro l hl
      exact (hnew l a hl).elim (hqT l) hnd
    · obtain ⟨hk, hf, hS, hT⟩ := h.page m a hm ha
      refine ⟨hk, fun hm => hf (List.mem_cons_of_mem q (hsub a hm)), hS, fun l hl => ?_⟩
      exact (hnew l a hl).elim (hT l) fun hm => hf (List.mem_cons_of_mem q hm)
  · intro m y hm hy hv
    by_cases hmn : m = n
    · subst hmn
      rw [hx] at hy
      cases hy
      rw [word_setWord]
      show mapEntry q = mapEntry (pageOf (mapEntry q))
      rw [pageOf_mapEntry hq]
    · have hyx : y ≠ x := by
        rintro rfl
        exact hmn (hg.tables.slot_inj (h.lt m hm) hn36 hy hx)
      dsimp only at hv ⊢
      rw [word_setWord_of_ne (slot_dvd hg.tables hx) (slot_dvd hg.tables hy) hyx] at hv ⊢
      cases hT : slotOf T m with
      | none =>
        rw [hg.word_new hy hT] at hv
        exact absurd hv not_valid_zero
      | some z =>
        rw [hg.slotOf hT] at hy
        cases hy
        have hword : (t.heap.zeroPage q).word y = s.heap.word y :=
          word_slot_congr (t := { t with heap := t.heap.zeroPage q }) h.dir.tables hT hfirst
        rw [hg.word_slot hclear.tables hT, hword] at hv ⊢
        exact h.entry m y hm hT hv
  · intro m₁ m₂ a h₁ h₂ ha₁ ha₂
    have hold : ∀ m, D m → pageAt s T m = some a → a ≠ q := by
      rintro m hm ha rfl
      exact (h.page m a hm ha).2.1 List.mem_cons_self
    rcases hcase m₁ a h₁ ha₁ with ⟨rfl, hq₁⟩ | ⟨-, hp₁⟩ <;> rcases hcase m₂ a h₂ ha₂ with ⟨rfl, hq₂⟩ | ⟨-, hp₂⟩
    · rfl
    · exact absurd hq₁ (hold m₂ h₂ hp₂)
    · exact absurd hq₂ (hold m₁ h₁ hp₁)
    · exact h.inj m₁ m₂ a h₁ h₂ hp₁ hp₂

/-- What is written to a mapped page changes nothing else. -/
theorem Resident.putBytes {a : ℕ} {l : List UInt8} (h : Resident s pd fr T S D) (hn : D n)
    (hq : pageAt s T n = some q) (ha : ∀ y, a ≤ y → y < a + l.length → pageBase y = q) :
    Resident { s with heap := s.heap.putBytes a l } pd fr T S D ∧
      ∀ m, pageAt { s with heap := s.heap.putBytes a l } T m = pageAt s T m := by
  obtain ⟨-, hqf, hqS, hqT⟩ := h.page n q hn hq
  have hmem : ∀ y, pageBase y ≠ q → (s.heap.putBytes a l).mem y = s.heap.mem y := fun y hy =>
    if_neg fun hin => hy (ha y hin.1 hin.2)
  have htable : ∀ y l', T l' = some (pageBase y) → (s.heap.putBytes a l).mem y = s.heap.mem y :=
    fun y l' hl => hmem y fun he => hqT l' (he ▸ hl)
  have hpage : ∀ m, pageAt { s with heap := s.heap.putBytes a l } T m = pageAt s T m := fun m =>
    pageAt_frame h.dir.tables m htable
  obtain ⟨ns, hns⟩ := h.lists
  refine ⟨⟨h.dir.frame ?_ (List.Subset.refl fr) rfl fun y l' _ hl => htable y l' hl,
    ⟨ns, hns.frame (fun _ _ => rfl) fun y hy => hmem y fun he => hqS (he ▸ hy)⟩, h.unlocked, h.apart, h.lt,
    fun m p hm hp => h.page m p hm (by rwa [hpage] at hp), fun m y hm hy hv => ?_,
    fun m₁ m₂ p h₁ h₂ hp₁ hp₂ => h.inj m₁ m₂ p h₁ h₂ (by rwa [hpage] at hp₁) (by rwa [hpage] at hp₂)⟩, hpage⟩
  · exact h.dir.free.frame rfl rfl fun y hy => hmem y fun he => hqf (he ▸ hy)
  · have hword : (s.heap.putBytes a l).word y = s.heap.word y := by
      obtain ⟨b, hb, -, hbase⟩ := slot_page h.dir.tables hy
      exact word_congr fun z h1 h2 => htable z _ (by rw [hbase z h1 h2]; exact hb)
    dsimp only at hv ⊢
    rw [hword] at hv ⊢
    exact h.entry m y hm hy hv

/-! ## Where mappings lie -/

/-- A mapping as `mmap` makes it. -/
structure Mapped (v : Vma) : Prop where
  start : v.start = pageAddr v.first
  pos : 0 < v.length.toNat
  length : v.length.toNat < 2 ^ 31
  stop : v.stop.toNat = v.start.toNat + v.length.toNat
  off : v.off = 0
  permission : v.permission = pteUserData

/-- The mappings of a process lie behind each other. -/
structure Laid (vs : List Vma) : Prop where
  mapped : ∀ v ∈ vs, Mapped v
  ordered : vs.Pairwise fun v w => v.first + v.pages ≤ w.first
  low : ∀ v ∈ vs, 2 ^ 11 ≤ v.first
  top : ∀ v ∈ vs, v.first + v.pages ≤ 2 ^ 11 + vs.length * 2 ^ 20
  count : vs.length ≤ Calls.nvma

theorem pageMask_eq (m : ℕ) (hm : m < 2 ^ 64) : m &&& 0xFFFFFFFFFFFFF000 = m / 2 ^ 12 * 2 ^ 12 := by
  have h : m &&& 0xFFFFFFFFFFFFF000 = ((m >>> 12) &&& (2 ^ 52 - 1)) <<< 12 := by
    apply Nat.eq_of_testBit_eq
    intro i
    rw [Nat.testBit_and, show (0xFFFFFFFFFFFFF000 : ℕ) = (2 ^ 52 - 1) <<< 12 from rfl,
      Nat.testBit_shiftLeft, Nat.testBit_shiftLeft, Nat.testBit_and, Nat.testBit_shiftRight]
    by_cases hi : 12 ≤ i
    · simp [hi]
    · simp [hi]
  rw [h, Nat.and_two_pow_sub_one_eq_mod, Nat.shiftRight_eq_div_pow, Nat.shiftLeft_eq,
    Nat.mod_eq_of_lt (by omega)]

theorem pageBaseU64_toNat (a : UInt64) : (pageBaseU64 a).toNat = a.toNat / 2 ^ 12 * 2 ^ 12 := by
  rw [pageBaseU64, UInt64.toNat_and]
  exact pageMask_eq _ a.toNat_lt

/-- The base of the page of an address. -/
theorem pageBaseU64_eq {a : UInt64} (ha : a.toNat < 2 ^ 48) : pageBaseU64 a = pageAddr (vpn a) := by
  apply UInt64.toNat_inj.mp
  rw [pageBaseU64_toNat, pageAddr_toNat vpn_lt.le, vpn_eq ha]

variable {v w : Vma} {vs : List Vma}

theorem Mapped.start_toNat (h : Mapped v) (hv : v.first < 2 ^ 36) : v.start.toNat = v.first * 2 ^ 12 := by
  rw [h.start, pageAddr_toNat hv.le]

theorem Laid.first_lt (h : Laid vs) (hv : v ∈ vs) : v.first + v.pages ≤ 2 ^ 11 + 2 ^ 24 := by
  have h1 := h.top v hv
  have h2 := h.count
  unfold Calls.nvma at h2
  omega

/-- Its pages are in the region. -/
theorem Laid.region (h : Laid vs) (hv : v ∈ vs) (h1 : v.first ≤ n) (h2 : n < v.first + v.pages) :
    Region n :=
  ⟨(h.low v hv).trans h1, h2.trans_le (h.first_lt hv)⟩

/-- An address in a mapping is in one of its pages. -/
theorem Laid.covers (h : Laid vs) (hv : v ∈ vs) (hc : v.Covers va) :
    va.toNat < 2 ^ 48 ∧ v.first ≤ vpn va ∧ vpn va < v.first + v.pages := by
  have hm := h.mapped v hv
  have hlt := h.first_lt hv
  obtain ⟨h1, h2⟩ := hc
  rw [UInt64.le_iff_toNat_le] at h1
  rw [UInt64.lt_iff_toNat_lt, hm.stop] at h2
  rw [hm.start_toNat (by omega)] at h1 h2
  have hlen := hm.length
  unfold Vma.pages pageSize at *
  have h48 : va.toNat < 2 ^ 48 := by omega
  rw [vpn_eq h48]
  omega

theorem ofInt_toNat {k : ℤ} (h0 : 0 < k) (h1 : k < 2 ^ 31) : (UInt64.ofInt k).toNat = k.toNat := by
  rw [UInt64.ofInt, UInt64.toNat_ofNat_of_lt']
  · omega
  · rw [UInt64.size]
    omega

/-- Behind a mapping. -/
theorem Mapped.next (h : Mapped v) (hv : v.first + v.pages < 2 ^ 36) :
    pageBaseU64 (v.stop + 0x1000 - 1) = pageAddr (v.first + v.pages) := by
  have hstop := h.stop
  have hlen := h.length
  have hpos := h.pos
  rw [h.start_toNat (by omega)] at hstop
  have hadd : (v.stop + 0x1000).toNat = v.stop.toNat + 4096 := by
    rw [UInt64.toNat_add]
    show (v.stop.toNat + 4096) % 2 ^ 64 = _
    exact Nat.mod_eq_of_lt (by omega)
  have hsub : (v.stop + 0x1000 - 1).toNat = v.stop.toNat + 4095 := by
    rw [UInt64.toNat_sub_of_le _ _ (by rw [UInt64.le_iff_toNat_le, hadd]; exact Nat.le_add_left 1 _), hadd]
    rfl
  apply UInt64.toNat_inj.mp
  rw [pageBaseU64_toNat, pageAddr_toNat hv.le, hsub, hstop]
  unfold Vma.pages pageSize
  omega

/-- Where the next mapping begins. -/
theorem Laid.newStart (h : Laid vs) :
    ∃ m, newStart vs = pageAddr m ∧ 2 ^ 11 ≤ m ∧ m ≤ 2 ^ 11 + vs.length * 2 ^ 20 ∧
      ∀ v ∈ vs, v.first + v.pages ≤ m := by
  by_cases hvs : vs = []
  · subst hvs
    exact ⟨2 ^ 11, rfl, le_rfl, le_rfl, fun v hv => absurd hv List.not_mem_nil⟩
  · have hlast := List.getLast_mem hvs
    have hnew : Paging.newStart vs = pageBaseU64 ((vs.getLast hvs).stop + 0x1000 - 1) := by
      cases vs with
      | nil => exact absurd rfl hvs
      | cons v vs => rfl
    have htop := h.first_lt hlast
    refine ⟨(vs.getLast hvs).first + (vs.getLast hvs).pages, ?_, ?_, h.top _ hlast, fun v hv => ?_⟩
    · rw [hnew, (h.mapped _ hlast).next (by omega)]
    · exact (h.low _ hlast).trans (Nat.le_add_right _ _)
    · have hsplit := List.dropLast_append_getLast hvs
      have hord := h.ordered
      rw [← hsplit] at hv hord
      rcases List.mem_append.mp hv with hv | hv
      · have := (List.pairwise_append.mp hord).2.2 v hv _ List.mem_cons_self
        omega
      · rw [List.mem_singleton.mp hv]

/-- `mmap` puts the new mapping behind the others. -/
theorem Laid.mmap {k : ℤ} {prot flags ip : ℕ} (h : Laid vs) (hcount : vs.length < Calls.nvma)
    (h0 : 0 < k) (h1 : k < 2 ^ 31) : Laid (vs ++ [newVma vs k prot flags ip]) := by
  obtain ⟨m, hstart, hlow, htop, hbehind⟩ := h.newStart
  have hlen := ofInt_toNat h0 h1
  have hm : m ≤ 2 ^ 36 := by
    unfold Calls.nvma at hcount
    omega
  have hto : (pageAddr m).toNat = m * 2 ^ 12 := pageAddr_toNat hm
  have hfirst : (newVma vs k prot flags ip).first = m := by
    rw [Vma.first]
    show (Paging.newStart vs).toNat / 2 ^ 12 = m
    rw [hstart, hto]
    omega
  have hpages : (newVma vs k prot flags ip).pages ≤ 2 ^ 20 := by
    rw [Vma.pages]
    show ((UInt64.ofInt k).toNat + (pageSize - 1)) / pageSize ≤ 2 ^ 20
    rw [hlen]
    unfold pageSize
    omega
  have hmap : Mapped (newVma vs k prot flags ip) := by
    refine ⟨?_, ?_, ?_, ?_, rfl, ?_⟩
    · rw [hfirst]
      exact hstart
    · show 0 < (UInt64.ofInt k).toNat
      omega
    · show (UInt64.ofInt k).toNat < 2 ^ 31
      omega
    · show (Paging.newStart vs + UInt64.ofInt k).toNat = (Paging.newStart vs).toNat + (UInt64.ofInt k).toNat
      rw [UInt64.toNat_add, hstart, hto]
      exact Nat.mod_eq_of_lt (by omega)
    · show (if _ then _ else _) = _
      split_ifs
      · rfl
      · rfl
  refine ⟨fun v hv => ?_, ?_, fun v hv => ?_, fun v hv => ?_, ?_⟩
  · rcases List.mem_append.mp hv with hv | hv
    · exact h.mapped v hv
    · rwa [List.mem_singleton.mp hv]
  · refine List.pairwise_append.mpr ⟨h.ordered, List.pairwise_singleton _ _, fun v hv w hw => ?_⟩
    rw [List.mem_singleton.mp hw, hfirst]
    exact hbehind v hv
  · rcases List.mem_append.mp hv with hv | hv
    · exact h.low v hv
    · rwa [List.mem_singleton.mp hv, hfirst]
  · rw [List.length_append, List.length_singleton]
    rcases List.mem_append.mp hv with hv | hv
    · refine (h.top v hv).trans (Nat.add_le_add_left ?_ _)
      exact Nat.mul_le_mul_right _ (Nat.le_succ _)
    · rw [List.mem_singleton.mp hv, hfirst]
      omega
  · rw [List.length_append, List.length_singleton]
    exact hcount

/-! ## Steps and runs -/

variable {s s₀ t : FileSpace} {addr : UInt64}

/-- The mappings lie behind each other, no inode is locked, and the mapped pages of the region were
    entered by faults in mappings. -/
structure FileSpace.Inv (p : ℕ) (s : FileSpace) : Prop where
  laid : Laid s.vmas
  unlocked : ∀ ip, s.locked ip = false
  resident : ∃ fr T S, Resident s.vm (pgdirOf p) fr T S Region

theorem readPage_spec {E : Stop → Vm → Prop} {s : Vm} {l : List UInt8} {Q : Unit → Vm → Prop} :
    wp (readPage q l) Q E s ↔ Q () { s with heap := s.heap.putBytes q l } := wp_modify

/-- A fault in a mapping. -/
theorem fileFault_spec (h : s.Inv p) (hv : v ∈ s.vmas) (hc : v.Covers addr) :
    wp (fileFault p v addr) (fun _ t => t.Inv p ∧ t.vmas = s.vmas) (fun _ _ => True) s := by
  obtain ⟨fr, T, S, hres⟩ := h.resident
  obtain ⟨h48, h1, h2⟩ := h.laid.covers hv hc
  have hreg := h.laid.region hv h1 h2
  rw [fileFault, pageBaseU64_eq h48, (h.laid.mapped v hv).permission, wp_bind, memory, wp_zoom]
  refine wp_mono (hres.enter hreg) ?_ fun _ _ _ => trivial
  rintro ⟨q, r⟩ u ⟨rfl, fr', T', hres', hself, -⟩
  have hq : KernelPage q := (hres'.page _ q hreg hself).1
  simp only [ne_eq, not_true_eq_false, if_false, inodeLock, inodeRead, inodeUnlock, wp_bind, wp_get,
    wp_modify, memory, wp_zoom, readPage_spec, h.unlocked, Bool.false_eq_true]
  refine wp.ite (fun _ => ?_) fun _ => ?_
  · rw [wp_bind, wp_throw]
    trivial
  · have hlen : (((s.file v.ip).drop (v.off + pageAddr (vpn addr) - v.start).toNat).take
        pageSize).length ≤ pageSize := List.length_take_le _ _
    have hin : ∀ y, q ≤ y → y < q + (((s.file v.ip).drop
        (v.off + pageAddr (vpn addr) - v.start).toNat).take pageSize).length → pageBase y = q :=
      fun y h1 h2 => pageBase_eq hq.aligned h1 (by omega)
    refine wp_pure.mpr ⟨⟨h.laid, fun ip => ?_, fr', T', S, (hres'.putBytes hreg hself hin).1⟩, rfl⟩
    show Function.update (Function.update s.locked v.ip true) v.ip false ip = false
    rw [Function.update_idem]
    by_cases hip : ip = v.ip
    · rw [hip, Function.update_self]
    · rw [Function.update_of_ne hip]
      exact h.unlocked ip

/-- What the handler finds for an address. -/
theorem find_covers (hex : ∃ v ∈ s.vmas, v.Covers addr) :
    ∃ v ∈ s.vmas, v.Covers addr ∧ s.vmas.find? (fun v => v.Covers addr) = some v := by
  cases hf : s.vmas.find? (fun v => v.Covers addr) with
  | none =>
    obtain ⟨v, hv, hc⟩ := hex
    exact absurd (decide_eq_true hc) (List.find?_eq_none.mp hf v hv)
  | some v =>
    have hc := List.find?_some hf
    rw [decide_eq_true_eq] at hc
    exact ⟨v, List.mem_of_find?_eq_some hf, hc, rfl⟩

/-- A step keeps the invariant. -/
theorem FileSpace.step_inv {a : Event} (h : s.Inv p) (hs : s.step p a = some t) : t.Inv p := by
  cases a with
  | mmap k prot flags ip =>
    rw [FileSpace.step] at hs
    split_ifs at hs with hc
    cases hs
    exact ⟨h.laid.mmap hc.1 hc.2.1 hc.2.2, h.unlocked, h.resident⟩
  | fault addr =>
    rw [FileSpace.step] at hs
    split_ifs at hs with hc
    obtain ⟨v, hv, hcov, hfind⟩ := find_covers hc.2.1
    split at hs
    · next r u hr =>
      cases hs
      have hfault : wp (fault p addr) (fun _ t => t.Inv p) (fun _ _ => True) s := by
        rw [fault, wp_bind, wp_get, hfind]
        exact (fileFault_spec h hv hcov).imp fun _ _ ht => ht.1
      exact hfault.of_ok hr
    · cases hs
  | store addr b =>
    obtain ⟨fr, T, S, hres⟩ := h.resident
    rw [FileSpace.step] at hs
    split at hs
    · next a ha =>
      split_ifs at hs with hreg
      cases hs
      obtain ⟨q, hq, rfl⟩ := (translate_eq_some hres.dir).mp ha
      refine ⟨h.laid, h.unlocked, fr, T, S, (hres.putBytes hreg hq fun y h1 h2 => ?_).1⟩
      rw [List.length_singleton] at h2
      obtain rfl : y = q + addr.toNat % pageSize := by omega
      exact pageBase_translate hq
    · cases hs
  | file ip l =>
    cases hs
    exact ⟨h.laid, h.unlocked, h.resident⟩

/-- The invariant holds after every run. -/
theorem FileSpace.run_inv (h₀ : s₀.Inv p) (hr : Run (FileSpace.step p) anyStep s₀ s) : s.Inv p :=
  hr.invariant h₀ fun _ _ _ hi _ hs => FileSpace.step_inv hi hs

end ShikiOS.Kernel.Paging
