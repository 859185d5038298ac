import ShikiOS.Kernel.Copyout
import ShikiOS.Kernel.FreePgdir
import ShikiOS.Kernel.Sbrk
import ShikiOS.Kernel.UvmCopy
import ShikiOS.Lib.Trace

/-!
# Memories of processes (`kernel/pt.c`, `kernel/paging.c`)

The page directories of all processes, their tables and the pages that they map come from one list of
free pages. `Machine` is all of it, with the bounds of the heap sections. Against it stands
`Memories`, where every process has bytes of its own: an event of one process has no access to those
of another.

Left out: mappings of files, whose removal frees what is not a page, and the locks.

Results:
* `Frames.step`: a change of one directory that stays in the free pages and in its own ones keeps the
  pages of all directories apart, and leaves the bytes of the others.
* `memories_private`: in every run the processes find what they would find in memories of their own.
* `frames_exclusive`: in every run no page is mapped twice, and none that is mapped is free.
-/

namespace ShikiOS.Kernel.Paging

open ShikiOS.Lib

/-! ## Model -/

/-- Memory with the page directories, and the bounds of the heap section of each. -/
structure Machine where
  vm : Vm
  begin : ℕ → UInt64
  stop : ℕ → UInt64

/-- What happens to one directory. -/
inductive DirEvent
  /-- `uvmalloc`. -/
  | alloc (oldsz newsz : UInt64)
  | copyout (va : UInt64) (p : Source) (len : UInt64)
  /-- A page fault. -/
  | fault (addr : UInt64)
  | sbrk (size : ℤ)
  /-- The process writes the byte `b`. -/
  | store (w : UInt64) (b : UInt8)
  /-- The process reads the byte `b`. -/
  | load (w : UInt64) (b : UInt8)

inductive MachineEvent
  /-- `init_pgdir`. -/
  | init (d : ℕ)
  /-- `uvmcopy`, where `kalloc` returns `e`. -/
  | fork (d e : ℕ)
  | on (d : ℕ) (a : DirEvent)
  /-- `free_pgdir`. -/
  | free (d : ℕ)

/-- Memory after a call, if it returns. -/
def Machine.call {α : Type} (s : Machine) (x : M α) : Option Machine :=
  match x s.vm with
  | .ok _ v => some { s with vm := v }
  | .error _ _ => none

/-- `init_sections`. -/
def Machine.initSections (s : Machine) (d : ℕ) : Machine :=
  { s with begin := Function.update s.begin d 0, stop := Function.update s.stop d 0 }

/-- An event of the directory `d`. A fault is one of the process whose directory it is. -/
def Machine.on (s : Machine) (d : ℕ) : DirEvent → Option Machine
  | .alloc oldsz newsz => s.call (uvmalloc d oldsz newsz)
  | .copyout va p len => s.call (Paging.copyout d va p len)
  | .fault addr => s.call (pgfaultHandler (d - 112) [] addr 0)
  | .sbrk size =>
    match Paging.sbrk d size ⟨s.vm, s.begin d, s.stop d⟩ with
    | .ok _ t => some { s with vm := t.vm, stop := Function.update s.stop d t.stop }
    | .error _ _ => none
  | .store w b => (translate s.vm d w).map fun a =>
      { s with vm := { s.vm with heap := s.vm.heap.putBytes a [b] } }
  | .load w b => if userByte s.vm d w = some b then some s else none

def Machine.step (s : Machine) : MachineEvent → Option Machine
  | .init d => (s.call (initPgdir d)).map fun t => t.initSections d
  | .fork d e => (s.call (uvmcopy d e)).map fun t => t.initSections e
  | .on d a => s.on d a
  | .free d => s.call (freePgdir d)

/-- When an event of the directory `d` may happen. What `copyout` reads is neither free nor in the
    directory it writes to; a fault is at an address that is not mapped. -/
def Machine.DirOk (s : Machine) (d : ℕ) : DirEvent → Prop
  | .alloc oldsz newsz => oldsz ≤ newsz ∧ newsz ≤ userTop
  | .copyout va p len => va.toNat + len.toNat ≤ userTop.toNat ∧
      ∀ fr T, PageDir s.vm d fr T → p.Outside (usedPages s.vm fr T) len.toNat
  | .fault addr => 112 ≤ d ∧ addr < userTop ∧ translate s.vm d addr = none
  | .sbrk _ => True
  | .store w _ => w < userTop
  | .load w _ => w < userTop

/-- When an event may happen: directories are set up before they are used, and not twice. -/
def Machine.Ok (s : Machine) : MachineEvent → Prop
  | .init d => s.vm.pt d = 0
  | .fork d e => s.vm.pt d ≠ 0 ∧ s.vm.pt e = 0 ∧ e ≠ 0
  | .on d a => s.vm.pt d ≠ 0 ∧ s.DirOk d a
  | .free d => s.vm.pt d ≠ 0

/-- An event that may happen leads from `s` to `t`. -/
def Machine.Next (s : Machine) (a : MachineEvent) (t : Machine) : Prop := s.Ok a ∧ s.step a = some t

/-! ## Memories of their own -/

/-- The bytes that a process finds, and the end of its heap. -/
structure PrivateMemory where
  byte : UInt64 → Option UInt8
  stop : UInt64

abbrev Memories := ℕ → Option PrivateMemory

/-- What an event does to the memory of its process. -/
def PrivateMemory.Does (m : PrivateMemory) : DirEvent → PrivateMemory → Prop
  | .alloc oldsz newsz, m' => m'.stop = m.stop ∧ ∀ w < userTop,
      if pageUp oldsz ≤ vpn w ∧ vpn w < pageUp newsz then m'.byte w ≠ none else m'.byte w = m.byte w
  | .copyout va p len, m' => m'.stop = m.stop ∧
      (∃ kernel, ∀ w : UInt64, va.toNat ≤ w.toNat → w.toNat < va.toNat + len.toNat →
        m'.byte w = some (p.byte kernel (w.toNat - va.toNat))) ∧
      ∀ w < userTop, ¬ (va.toNat ≤ w.toNat ∧ w.toNat < va.toNat + len.toNat) →
        (∀ b, m.byte w = some b → m'.byte w = some b) ∧
        (m.byte w = none → m'.byte w ≠ none →
          ∃ k, va.toNat ≤ k ∧ k < va.toNat + len.toNat ∧ k / 2 ^ 12 = vpn w)
  | .fault addr, m' => m'.stop = m.stop ∧ ∀ w < userTop,
      if vpn w = vpn addr then m'.byte w ≠ none else m'.byte w = m.byte w
  | .sbrk size, m' => m'.stop = m.stop + UInt64.ofInt (size * 4096) ∧ ∀ w < userTop,
      if ∃ i < (-size).toNat, vpn (m.stop + UInt64.ofNat (i * 4096)) = vpn w then m'.byte w = none
      else m'.byte w = m.byte w
  | .store w b, m' => m'.stop = m.stop ∧ m.byte w ≠ none ∧ ∀ v < userTop,
      m'.byte v = if v = w then some b else m.byte v
  | .load w b, m' => m' = m ∧ m.byte w = some b

/-- An event changes the memory of its process, and no other. -/
def Memories.Step (M : Memories) : MachineEvent → Memories → Prop
  | .init d, N => M d = none ∧ N = Function.update M d (some ⟨fun _ => none, 0⟩)
  | .fork d e, N => ∃ m, M d = some m ∧ M e = none ∧ N = Function.update M e (some ⟨m.byte, 0⟩)
  | .on d a, N => ∃ m m', M d = some m ∧ m.Does a m' ∧ N = Function.update M d (some m')
  | .free d, N => M d ≠ none ∧ N = Function.update M d none

/-- What the processes find. -/
def Machine.memories (s : Machine) : Memories := fun d =>
  if s.vm.pt d = 0 then none else some ⟨userByte s.vm d, s.stop d⟩

variable {s t : Vm} {fr fr' : List ℕ} {T T' U : Tree} {F : Set ℕ} {d e n q x : ℕ} {w va : UInt64}
  {L : ℕ → Option Tree} {m₀ : ℕ → UInt8}

/-! ## One directory -/

/-- `q` is a table of the directory, or a page that it maps. -/
def Uses (s : Vm) (T : Tree) (q : ℕ) : Prop :=
  (∃ l, T l = some q) ∨ ∃ n < 2 ^ 36, pageAt s T n = some q

/-- A directory whose pages are pages of its own. -/
structure Holds (s : Vm) (d : ℕ) (fr : List ℕ) (T : Tree) : Prop where
  dir : PageDir s d fr T
  plain : Plain s T
  page : ∀ n q, n < 2 ^ 36 → pageAt s T n = some q → KernelPage q ∧ q ∉ fr ∧ ∀ l, T l ≠ some q
  inj : ∀ n m q, n < 2 ^ 36 → m < 2 ^ 36 → pageAt s T n = some q → pageAt s T m = some q → n = m

theorem Holds.kernelPage (h : Holds s d fr T) (hq : Uses s T q) : KernelPage q := by
  obtain ⟨l, hl⟩ | ⟨n, hn, hq⟩ := hq
  · exact h.dir.tables.page l q hl
  · exact (h.page n q hn hq).1

theorem Holds.notMem (h : Holds s d fr T) (hq : Uses s T q) : q ∉ fr := by
  obtain ⟨l, hl⟩ | ⟨n, hn, hq⟩ := hq
  · exact h.dir.tables.used l q hl
  · exact (h.page n q hn hq).2.1

/-- The free pages and those of the directory. -/
theorem Holds.image (h : Holds s d fr T) : Image s.heap.mem (usedPages s fr T) s d fr T where
  dir := h.dir
  free _ hq := .inl hq
  mem _ _ := rfl
  table l _ ha := .inr (.inl ⟨l, ha⟩)
  page n q hn hq := ⟨.inr (.inr ⟨n, hn, hq⟩), (h.page n q hn hq).2⟩
  inj := h.inj

theorem Holds.kernel (h : Holds s d fr T) : ∀ q ∈ usedPages s fr T, KernelPage q := by
  rintro q (hq | hq)
  · exact h.dir.free.kernelPage hq
  · exact h.kernelPage hq

theorem Image.uses (h : Image m₀ F s d fr T) (hq : Uses s T q) : q ∈ F := by
  obtain ⟨l, hl⟩ | ⟨n, hn, hq⟩ := hq
  · exact h.table l q hl
  · exact (h.page n q hn hq).1

theorem Image.holds (h : Image m₀ F s d fr T) (hF : ∀ q ∈ F, KernelPage q) (hz : Plain s T) :
    Holds s d fr T where
  dir := h.dir
  plain := hz
  page n q hn hq := ⟨hF q (h.page n q hn hq).1, (h.page n q hn hq).2⟩
  inj := h.inj

/-- From `s` to `t` only the pages `F` changed, and no directory but `d`. The free pages are then
    `fr'`, all of them in `F`. -/
structure ChangesOnly (s : Vm) (F : Set ℕ) (d : ℕ) (t : Vm) (fr' : List ℕ) : Prop where
  free : FreeList t.heap fr'
  sub : ∀ q ∈ fr', q ∈ F
  mem : ∀ y, pageBase y ∉ F → t.heap.mem y = s.heap.mem y
  pt : ∀ e, e ≠ d → t.pt e = s.pt e

theorem Image.changesOnly (h : Image s.heap.mem F t d fr' T') (hpt : ∀ e, e ≠ d → t.pt e = s.pt e) :
    ChangesOnly s F d t fr' := ⟨h.dir.free, h.free, h.mem, hpt⟩

/-- The free pages may be others as long as they are not tables. -/
theorem Tables.frame_free {h h' : Heap} (ht : Tables h fr T) (hT : ∀ l a, T l = some a → a ∉ fr')
    (hm : ∀ x l, T l = some (pageBase x) → h'.mem x = h.mem x) : Tables h' fr' T :=
  { (ht.frame (List.forall_mem_nil _) fun x l _ => hm x l : Tables h' [] T) with used := hT }

theorem userByte_page (hd : PageDir s d fr T) :
    userByte s d w = (pageAt s T (vpn w)).map fun q => s.heap.mem (q + w.toNat % pageSize) := by
  rw [userByte, translate_eq hd, Option.map_map]
  rfl

section Frame

variable (h : Holds s e fr U) (hb : ChangesOnly s F d t fr') (hF : ∀ q, Uses s U q → q ∉ F)
include h hb hF

theorem Holds.pageAt_frame (n : ℕ) : pageAt t U n = pageAt s U n :=
  Paging.pageAt_frame h.dir.tables n fun x l hl => hb.mem x (hF _ (.inl ⟨l, hl⟩))

/-- A directory whose pages are not among those that changed. -/
theorem Holds.frame (hne : e ≠ d) : Holds t e fr' U := by
  have hat := h.pageAt_frame hb hF
  have hfr : ∀ q, Uses s U q → q ∉ fr' := fun q hq hm => hF q hq (hb.sub q hm)
  refine ⟨⟨hb.free, h.dir.tables.frame_free (fun l a ha => hfr a (.inl ⟨l, ha⟩)) fun x l hl => ?_, ?_⟩,
    fun n x hn hx => ?_, fun n q hn hq => ?_, fun n m q hn hm hnq hmq => ?_⟩
  · exact hb.mem x (hF _ (.inl ⟨l, hl⟩))
  · rw [hb.pt e hne]
    exact h.dir.root
  · have hw : t.heap.word x = s.heap.word x := by
      obtain ⟨a, ha, -, hpage⟩ := slot_page h.dir.tables hx
      exact word_congr fun y h1 h2 => hb.mem y (by rw [hpage y h1 h2]; exact hF a (.inl ⟨_, ha⟩))
    rw [hw]
    exact h.plain n x hn hx
  · rw [hat] at hq
    obtain ⟨hk, -, hT⟩ := h.page n q hn hq
    exact ⟨hk, hfr q (.inr ⟨n, hn, hq⟩), hT⟩
  · rw [hat] at hnq hmq
    exact h.inj n m q hn hm hnq hmq

theorem Holds.uses_frame : Uses t U q ↔ Uses s U q := by
  simp only [Uses, h.pageAt_frame hb hF]

/-- Its process finds what it found before. -/
theorem Holds.userByte_frame (hne : e ≠ d) : userByte t e = userByte s e := by
  funext w
  rw [userByte_page (h.frame hb hF hne).dir, userByte_page h.dir, h.pageAt_frame hb hF]
  refine Option.map_congr fun q hq => hb.mem _ ?_
  rw [pageBase_translate hq]
  exact hF q (.inr ⟨_, vpn_lt, hq⟩)

end Frame

/-! ## All directories -/

/-- Every directory has pages of its own, and the free pages belong to none. -/
structure Frames (s : Vm) (fr : List ℕ) (L : ℕ → Option Tree) : Prop where
  free : FreeList s.heap fr
  live : ∀ d, L d = none ↔ s.pt d = 0
  holds : ∀ d T, L d = some T → Holds s d fr T
  apart : ∀ d e T U q, L d = some T → L e = some U → Uses s T q → Uses s U q → d = e

theorem Frames.tree (h : Frames s fr L) (hd : s.pt d ≠ 0) : ∃ T, L d = some T ∧ Holds s d fr T := by
  obtain ⟨T, hT⟩ := Option.ne_none_iff_exists'.mp fun hn => hd ((h.live d).mp hn)
  exact ⟨T, hT, h.holds d T hT⟩

/-- The free pages and those of one directory belong to no other. -/
theorem Frames.outside (h : Frames s fr L) (hT : L d = some T) (hU : L e = some U) (hne : e ≠ d)
    (hq : Uses s U q) : q ∉ usedPages s fr T := by
  rintro (hm | hm)
  · exact (h.holds e U hU).notMem hq hm
  · exact hne (h.apart e d U T q hU hT hq hm)

/-- A change of one directory that stays in pages which the others do not use. -/
theorem Frames.step (h : Frames s fr L) (hb : ChangesOnly s F d t fr')
    (hF : ∀ e U q, e ≠ d → L e = some U → Uses s U q → q ∉ F) {X : Option Tree}
    (hX : X = none ↔ t.pt d = 0) (hd : ∀ T, X = some T → Holds t d fr' T ∧ ∀ q, Uses t T q → q ∈ F) :
    Frames t fr' (Function.update L d X) := by
  have hcase : ∀ e U, Function.update L d X e = some U →
      (e = d ∧ X = some U) ∨ (e ≠ d ∧ L e = some U) := by
    intro e U hU
    by_cases he : e = d
    · subst he
      rw [Function.update_self] at hU
      exact .inl ⟨rfl, hU⟩
    · rw [Function.update_of_ne he] at hU
      exact .inr ⟨he, hU⟩
  have hold : ∀ e U q, e ≠ d → L e = some U → Uses t U q → q ∉ F := by
    intro e U q he hU hq
    have hFe := fun q => hF e U q he hU
    exact hF e U q he hU (((h.holds e U hU).uses_frame hb hFe).mp hq)
  refine ⟨hb.free, fun e => ?_, fun e U hU => ?_, fun e e' U U' q hU hU' hq hq' => ?_⟩
  · by_cases he : e = d
    · subst he
      rwa [Function.update_self]
    · rw [Function.update_of_ne he, hb.pt e he]
      exact h.live e
  · obtain ⟨rfl, hX'⟩ | ⟨he, hL⟩ := hcase e U hU
    · exact (hd U hX').1
    · exact (h.holds e U hL).frame hb (fun q => hF e U q he hL) he
  · obtain ⟨rfl, hX'⟩ | ⟨he, hL⟩ := hcase e U hU
    · obtain ⟨rfl, -⟩ | ⟨he', hL'⟩ := hcase e' U' hU'
      · rfl
      · exact absurd ((hd U hX').2 q hq) (hold e' U' q he' hL' hq')
    · obtain ⟨rfl, hX'⟩ | ⟨he', hL'⟩ := hcase e' U' hU'
      · exact absurd ((hd U' hX').2 q hq') (hold e U q he hL hq)
      · have hFe := fun q => hF e U q he hL
        have hFe' := fun q => hF e' U' q he' hL'
        exact h.apart e e' U U' q hL hL' (((h.holds e U hL).uses_frame hb hFe).mp hq)
          (((h.holds e' U' hL').uses_frame hb hFe').mp hq')

/-! ## Events of one directory -/

theorem userByte_eq_none (hd : PageDir s d fr T) : userByte s d w = none ↔ pageAt s T (vpn w) = none := by
  rw [userByte_page hd, Option.map_eq_none_iff]

/-- What an event of the directory `d` changes, and what its process finds then. -/
structure Acts (s : Machine) (d : ℕ) (fr : List ℕ) (T : Tree) (a : DirEvent) (t : Machine) (fr' : List ℕ)
    (T' : Tree) : Prop where
  image : Image s.vm.heap.mem (usedPages s.vm fr T) t.vm d fr' T'
  plain : Plain t.vm T'
  pt : t.vm.pt = s.vm.pt
  stop : ∀ e, e ≠ d → t.stop e = s.stop e
  does : PrivateMemory.Does ⟨userByte s.vm d, s.stop d⟩ a ⟨userByte t.vm d, t.stop d⟩

/-- Pages that are mapped. -/
theorem Fills.userByte {a b : ℕ} (hf : Fills s d fr T a b t fr' T') (h : Holds s d fr T)
    (hw : w < userTop) :
    if a ≤ vpn w ∧ vpn w < b then userByte t d w ≠ none else userByte t d w = userByte s d w := by
  have hw' : w.toNat < 2 ^ 48 := hw
  have hvpn := vpn_eq hw'
  split_ifs with hin
  · obtain ⟨q, hq, -⟩ := hf.self _ hin.1 hin.2
    rw [ne_eq, userByte_eq_none hf.dir, hq]
    exact Option.some_ne_none q
  · rw [userByte_eq hf.dir hw', userByte_eq h.dir hw']
    exact hf.byte _ _ h.image _ hw' (by rwa [← hvpn])

theorem Machine.call_eq_some {α : Type} {m m' : Machine} {x : M α} (h : m.call x = some m') :
    ∃ r v, x m.vm = .ok r v ∧ m' = { m with vm := v } := by
  rw [Machine.call] at h
  split at h
  · next r v hx => exact ⟨r, v, hx, (Option.some.inj h).symm⟩
  · cases h

section Events

variable {m m' : Machine} (h : Holds m.vm d fr T)
include h

theorem alloc_acts {oldsz newsz : UInt64} (hle : oldsz ≤ newsz) (htop : newsz ≤ userTop)
    (hs : m.on d (.alloc oldsz newsz) = some m') :
    ∃ fr' T', Acts m d fr T (.alloc oldsz newsz) m' fr' T' := by
  obtain ⟨r, v, hx, rfl⟩ := Machine.call_eq_some hs
  obtain ⟨-, fr', T', hf⟩ := (uvmalloc_spec h.dir hle htop).of_ok hx
  exact ⟨fr', T', hf.image _ _ h.image, hf.plain h.plain, hf.pt, fun e _ => rfl, rfl,
    fun w hw => hf.userByte h hw⟩

theorem copyout_acts {p : Source} {len : UInt64} (hlen : va.toNat + len.toNat ≤ userTop.toNat)
    (hp : p.Outside (usedPages m.vm fr T) len.toNat) (hs : m.on d (.copyout va p len) = some m') :
    ∃ fr' T', Acts m d fr T (.copyout va p len) m' fr' T' := by
  obtain ⟨r, v, hx, rfl⟩ := Machine.call_eq_some hs
  obtain ⟨-, fr', T', hk, hbytes⟩ := (copyout_image h.image hp hlen).of_ok hx
  have hd := hk.image.dir
  have hlen' : va.toNat + len.toNat ≤ 2 ^ 48 := hlen
  refine ⟨fr', T', hk.image, hk.plain h.plain, hk.pt, fun e _ => rfl, rfl,
    ⟨m.vm.heap.mem, fun w h1 h2 => ?_⟩, fun w hw hout => ?_⟩
  · exact (userByte_eq hd (by omega)).trans (hbytes _ h1 h2)
  · have hw' : w.toNat < 2 ^ 48 := hw
    constructor
    · intro b hb
      exact (userByte_eq hd hw').trans (hk.byte _ b hw' hout ((userByte_eq h.dir hw').symm.trans hb))
    · intro hnone hsome
      obtain ⟨q, hq⟩ := Option.ne_none_iff_exists'.mp ((userByte_eq_none hd).not.mp hsome)
      exact (hk.fresh _ q vpn_lt ((userByte_eq_none h.dir).mp hnone) hq).2

theorem fault_acts {addr : UInt64} (hd : 112 ≤ d) (hnone : translate m.vm d addr = none)
    (hs : m.on d (.fault addr) = some m') : ∃ fr' T', Acts m d fr T (.fault addr) m' fr' T' := by
  obtain ⟨r, v, hx, rfl⟩ := Machine.call_eq_some hs
  have hpd : pgdirOf (d - 112) = d := Nat.sub_add_cancel hd
  rw [pgfaultHandler_eq (List.forall_mem_nil _)] at hx
  have hpage : pageAt m.vm T (vpn addr) = none := by
    rwa [translate_eq h.dir, Option.map_eq_none_iff] at hnone
  have hdir : PageDir m.vm (pgdirOf (d - 112)) fr T := by
    rw [hpd]
    exact h.dir
  obtain ⟨fr', T', hf⟩ := (anonFault_fills hdir h.plain hpage).of_ok hx
  rw [hpd] at hf
  refine ⟨fr', T', hf.image _ _ h.image, hf.plain h.plain, hf.pt, fun e _ => rfl, rfl, fun w hw => ?_⟩
  have hiff : vpn addr ≤ vpn w ∧ vpn w < vpn addr + 1 ↔ vpn w = vpn addr := by omega
  simpa only [hiff] using hf.userByte h hw

theorem store_acts {b : UInt8} (hw : w < userTop) (hs : m.on d (.store w b) = some m') :
    ∃ fr' T', Acts m d fr T (.store w b) m' fr' T' := by
  have hw' : w.toNat < 2 ^ 48 := hw
  obtain ⟨a, ha, rfl⟩ := Option.map_eq_some_iff.mp hs
  obtain ⟨q, hq, rfl⟩ := (translate_eq_some h.dir).mp ha
  have ho : w.toNat % pageSize + [b].length ≤ 2 ^ 12 := Nat.mod_lt _ (by decide)
  have himage := h.image.putBytes vpn_lt hq ho
  have hplace : vpn w * 2 ^ 12 + w.toNat % pageSize = w.toNat := by
    rw [vpn_eq hw']
    unfold pageSize
    omega
  refine ⟨fr, T, himage, h.image.putBytes_plain vpn_lt hq ho h.plain, rfl, fun e _ => rfl, rfl, ?_,
    fun v hv => ?_⟩
  · rw [ne_eq, userByte_eq_none h.dir, hq]
    exact Option.some_ne_none q
  · have hv' : v.toNat < 2 ^ 48 := hv
    show userByte { m.vm with heap := m.vm.heap.putBytes (q + w.toNat % pageSize) [b] } d v =
      if v = w then some b else userByte m.vm d v
    rw [userByte_eq himage.dir hv', userByte_eq h.dir hv', h.image.putBytes_byteAt vpn_lt hq ho hv',
      hplace]
    have hiff : w.toNat ≤ v.toNat ∧ v.toNat < w.toNat + [b].length ↔ v = w := by
      rw [← UInt64.toNat_inj, List.length_singleton]
      omega
    refine ite_congr (propext hiff) (fun hvw => ?_) fun _ => rfl
    rw [hvw, Nat.sub_self]
    rfl

theorem load_acts {b : UInt8} (hs : m.on d (.load w b) = some m') :
    ∃ fr' T', Acts m d fr T (.load w b) m' fr' T' := by
  rw [Machine.on] at hs
  split_ifs at hs with hb
  cases hs
  exact ⟨fr, T, h.image, h.plain, rfl, fun e _ => rfl, rfl, hb⟩

end Events

/-! ## `sbrk` -/

/-- From `s` to `t` the pages with the numbers `A` were unmapped. -/
structure Drops (m₀ : ℕ → UInt8) (F : Set ℕ) (s : Vm) (d : ℕ) (T : Tree) (A : Set ℕ) (t : Vm)
    (fr' : List ℕ) : Prop where
  image : Image m₀ F t d fr' T
  plain : Plain t T
  pt : t.pt = s.pt
  gone : ∀ n < 2 ^ 36, n ∈ A → pageAt t T n = none
  other : ∀ n < 2 ^ 36, n ∉ A → pageAt t T n = pageAt s T n
  byte : ∀ k < 2 ^ 48, k / 2 ^ 12 ∉ A → byteAt t T k = byteAt s T k

variable {u : Vm} {fr'' : List ℕ} {A B : Set ℕ}

theorem Drops.refl (h : Image m₀ F s d fr T) (hz : Plain s T)
    (hA : ∀ n < 2 ^ 36, n ∈ A → pageAt s T n = none) : Drops m₀ F s d T A s fr :=
  ⟨h, hz, rfl, hA, fun _ _ _ => rfl, fun _ _ _ => rfl⟩

theorem Drops.trans (h₁ : Drops m₀ F s d T A t fr') (h₂ : Drops m₀ F t d T B u fr'') :
    Drops m₀ F s d T (A ∪ B) u fr'' := by
  refine ⟨h₂.image, h₂.plain, h₂.pt.trans h₁.pt, fun n hn hm => ?_, fun n hn hm => ?_, fun k hk hm => ?_⟩
  · by_cases hB : n ∈ B
    · exact h₂.gone n hn hB
    · rw [h₂.other n hn hB]
      exact h₁.gone n hn (hm.resolve_right hB)
  · rw [Set.mem_union, not_or] at hm
    rw [h₂.other n hn hm.2, h₁.other n hn hm.1]
  · rw [Set.mem_union, not_or] at hm
    rw [h₂.byte k hk hm.2, h₁.byte k hk hm.1]

/-- A page is freed, and its entry cleared. -/
theorem Image.drop (h : Image m₀ F s d fr T) (hz : Plain s T) (hn : n < 2 ^ 36)
    (hx : slotOf T n = some x) (hq : pageAt s T n = some q) {h' : Heap} {l : List ℕ}
    (hfree : FreeList h' (q :: fr))
    (hmem : ∀ y, pageBase y ∉ q :: fr → h'.mem y = s.heap.mem y) :
    Drops m₀ F s d T {n} { s with heap := h'.setWord x 0, freed := l } (q :: fr) := by
  obtain ⟨hqF, hqfr, hqT⟩ := h.page n q hn hq
  have hT : ∀ l a, T l = some a → a ∉ q :: fr := by
    intro l a ha hm
    rcases List.mem_cons.mp hm with rfl | hm
    · exact hqT l ha
    · exact h.dir.tables.used l a ha hm
  have hkeep : ∀ y l, T l = some (pageBase y) → h'.mem y = s.heap.mem y := fun y l hl =>
    hmem y (hT l _ hl)
  have hd : PageDir { s with heap := h', freed := l } d (q :: fr) T :=
    ⟨hfree, h.dir.tables.frame_free hT hkeep, h.dir.root⟩
  have hother : ∀ m < 2 ^ 36, m ≠ n →
      pageAt { s with heap := h'.setWord x 0, freed := l } T m = pageAt s T m := by
    intro m hm hne
    refine (pageAt_store_of_ne (s := { s with heap := h', freed := l }) hd.tables hn hm hx hne).trans ?_
    exact Paging.pageAt_frame h.dir.tables m hkeep
  have hself : pageAt { s with heap := h'.setWord x 0, freed := l } T n = none :=
    (pageAt_store_self (s := { s with heap := h', freed := l }) hx).trans (if_neg not_valid_zero)
  have hcase : ∀ m a, m < 2 ^ 36 → pageAt { s with heap := h'.setWord x 0, freed := l } T m = some a →
      m ≠ n ∧ pageAt s T m = some a := by
    intro m a hm ha
    have hne : m ≠ n := by
      rintro rfl
      rw [hself] at ha
      cases ha
    exact ⟨hne, (hother m hm hne).symm.trans ha⟩
  have hset : ∀ y, pageBase y ∉ q :: fr → (∀ l, T l ≠ some (pageBase y)) →
      (h'.setWord x 0).mem y = s.heap.mem y := fun y hy hTy =>
    (mem_store (s := { s with heap := h', freed := l }) hd.tables hx (hTy _)).trans (hmem y hy)
  refine ⟨⟨hd.store hx, ?_, fun y hy => ?_, h.table, fun m a hm ha => ?_,
    fun m₁ m₂ a h₁ h₂ ha₁ ha₂ => ?_⟩, fun m y hm hy => ?_, rfl, ?_, fun m hm hne => hother m hm hne,
    fun k hk hne => ?_⟩
  · exact List.forall_mem_cons.mpr ⟨hqF, h.free⟩
  · rw [← h.mem y hy]
    refine hset y ?_ fun l hl => hy (h.table l _ hl)
    exact fun hm => hy ((List.forall_mem_cons.mpr ⟨hqF, h.free⟩) _ hm)
  · obtain ⟨hne, ha'⟩ := hcase m a hm ha
    obtain ⟨haF, hafr, haT⟩ := h.page m a hm ha'
    refine ⟨haF, fun hmem => ?_, haT⟩
    rcases List.mem_cons.mp hmem with rfl | hmem
    · exact hne (h.inj m n a hm hn ha' hq)
    · exact hafr hmem
  · exact h.inj m₁ m₂ a h₁ h₂ (hcase m₁ a h₁ ha₁).2 (hcase m₂ a h₂ ha₂).2
  · by_cases hxy : y = x
    · subst hxy
      exact .inl word_setWord
    · have hw : (h'.setWord x 0).word y = s.heap.word y := by
        rw [word_setWord_of_ne (slot_dvd hd.tables hx) (slot_dvd hd.tables hy) hxy]
        obtain ⟨a, ha, -, hpage⟩ := slot_page hd.tables hy
        exact word_congr fun z h1 h2 => hkeep z _ (by rw [hpage z h1 h2]; exact ha)
      show PlainEntry ((h'.setWord x 0).word y)
      rw [hw]
      exact hz m y hm hy
  · rintro m - rfl
    exact hself
  · refine byteAt_congr (hother _ (by omega) hne) fun a y ha hy => hset y ?_ ?_
    · obtain ⟨-, hafr, -⟩ := h.page _ a (by omega) ha
      rw [hy, List.mem_cons, not_or]
      refine ⟨?_, hafr⟩
      rintro rfl
      exact hne (h.inj _ n a (by omega) hn ha hq)
    · rw [hy]
      exact (h.page _ a (by omega) ha).2.2

/-- The page of an address is given back if it is mapped. -/
theorem freeHeapPage_drops {E : Stop → Vm → Prop} (h : Image m₀ F s d fr T)
    (hF : ∀ q ∈ F, KernelPage q) (hz : Plain s T) :
    wp (freeHeapPage d va) (fun _ t => ∃ fr', Drops m₀ F s d T {vpn va} t fr') E s := by
  rw [freeHeapPage, wp_bind, wp_lookup h.dir]
  cases hx : slotOf T (vpn va) with
  | none =>
    refine wp_pure.mpr ⟨fr, Drops.refl h hz ?_⟩
    rintro n - rfl
    exact pageAt_of_none hx
  | some x =>
    dsimp only
    rw [wp_bind, wp_load]
    split_ifs with hv
    · have hq : pageAt s T (vpn va) = some (pageOf (s.heap.word x)) := by
        rw [pageAt_of_slot hx, if_pos hv]
      obtain ⟨hqF, hqfr, -⟩ := h.page _ _ vpn_lt hq
      rw [wp_bind, wp_load, wp_bind]
      refine kfreePage_spec h.dir.free (hF _ hqF) hqfr fun h' hfree hmem => ?_
      exact wp_store.mpr ⟨_, h.drop hz vpn_lt hx hq hfree hmem⟩
    · refine wp_pure.mpr ⟨fr, Drops.refl h hz ?_⟩
      rintro n - rfl
      rw [pageAt_of_slot hx, if_neg hv]

/-- The numbers of the first `k` pages from the address `stop` on. -/
def pagesFrom (stop : UInt64) (k : ℕ) : Set ℕ := {n | ∃ i < k, vpn (stop + UInt64.ofNat (i * 4096)) = n}

theorem pagesFrom_succ (stop : UInt64) (k : ℕ) :
    pagesFrom stop (k + 1) = pagesFrom stop k ∪ {vpn (stop + UInt64.ofNat (k * 4096))} := by
  ext n
  constructor
  · rintro ⟨i, hi, hn⟩
    rcases Nat.lt_succ_iff_lt_or_eq.mp hi with hi | rfl
    · exact .inl ⟨i, hi, hn⟩
    · exact .inr hn.symm
  · rintro (⟨i, hi, hn⟩ | hn)
    · exact ⟨i, by omega, hn⟩
    · exact ⟨k, by omega, hn.symm⟩

/-- A call gives back the mapped ones of the pages that it walks over. -/
theorem sbrk_drops {E : Stop → Space → Prop} {m : Space} (size : ℤ) (h : Image m₀ F m.vm d fr T)
    (hF : ∀ q ∈ F, KernelPage q) (hz : Plain m.vm T) :
    wp (sbrk d size) (fun _ t => t.stop = m.stop + UInt64.ofInt (size * 4096) ∧
      ∃ fr', Drops m₀ F m.vm d T (pagesFrom m.stop (-size).toNat) t.vm fr') E m := by
  have hstart : Drops m₀ F m.vm d T (pagesFrom m.stop 0) m.vm fr := by
    refine Drops.refl h hz ?_
    rintro n - ⟨i, hi, -⟩
    exact absurd hi i.not_lt_zero
  rw [sbrk, wp_bind, wp_get, wp_bind, wp_modify]
  by_cases hneg : size < 0
  · rw [if_pos hneg, wp_bind, onVm, wp_zoom]
    refine (wp_forN (fun i u => ∃ fr', Drops m₀ F m.vm d T (pagesFrom m.stop i) u fr')
      ⟨fr, hstart⟩ ?_).imp fun _ u hu => ?_
    · rintro i u - - ⟨fr', hu⟩
      refine (freeHeapPage_drops hu.image hF hu.plain).imp ?_
      rintro - v ⟨fr'', hv⟩
      rw [pagesFrom_succ]
      exact ⟨fr'', hu.trans hv⟩
    · rw [Nat.zero_add] at hu
      exact wp_pure.mpr ⟨rfl, hu⟩
  · rw [if_neg hneg]
    have hzero : (-size).toNat = 0 := by omega
    rw [hzero]
    exact wp_pure.mpr ⟨rfl, fr, hstart⟩

theorem sbrk_acts {m m' : Machine} {size : ℤ} (h : Holds m.vm d fr T)
    (hs : m.on d (.sbrk size) = some m') : ∃ fr' T', Acts m d fr T (.sbrk size) m' fr' T' := by
  rw [Machine.on] at hs
  split at hs
  · next r u hr =>
    cases hs
    have hspec := sbrk_drops (E := fun _ _ => True) (m := ⟨m.vm, m.begin d, m.stop d⟩) size h.image
      h.kernel h.plain
    obtain ⟨hstop, fr', hdr⟩ := hspec.of_ok hr
    refine ⟨fr', T, hdr.image, hdr.plain, hdr.pt, fun e he => Function.update_of_ne he _ _, ?_,
      fun w hw => ?_⟩
    · exact (Function.update_self ..).trans hstop
    · have hw' : w.toNat < 2 ^ 48 := hw
      have hvpn := vpn_eq hw'
      split_ifs with hin
      · exact (userByte_eq_none hdr.image.dir).mpr (hdr.gone _ vpn_lt hin)
      · show userByte u.vm d w = userByte m.vm d w
        rw [userByte_eq hdr.image.dir hw', userByte_eq h.dir hw']
        exact hdr.byte _ hw' (by rwa [← hvpn])
  · cases hs

/-! ## `uvmcopy` -/

/-- The entries of a directory do not depend on how its tree is described. -/
theorem Plain.congr (hz : Plain s T) (hd : PageDir s d fr T) (hd' : PageDir s d fr' T') : Plain s T' := by
  intro n x hn hx
  refine hz n x hn ?_
  have heq := lookup_eq hd (UInt64.ofNat (n * 2 ^ 12))
  rw [lookup_eq hd', EStateM.Result.ok.injEq, vpn_ofNat hn] at heq
  rw [← heq.1, hx]

/-- The entries of the child, while it grows. -/
def Growing (e : ℕ) (t : Vm) : Prop := ∃ fr T, PageDir t e fr T ∧ Plain t T

theorem copyPage_growing {a : ℕ} (h : Growing e t) :
    wp (copyPage e va a) (fun _ u => Growing e u) NoPage t := by
  obtain ⟨fr, T, hd, hz⟩ := h
  rw [copyPage, wp_bind]
  refine (kallocPage_dir hd).imp ?_
  rintro q t₁ ⟨fr₁, rfl, hdir, hpt, -, -, hmem⟩
  have hq : KernelPage q := hd.free.kernelPage List.mem_cons_self
  have hqnd : q ∉ fr₁ := (List.nodup_cons.mp hd.free.pages.nodup).1
  have hqT : ∀ l, T l ≠ some q := fun l hl => hd.tables.used l q hl List.mem_cons_self
  rw [wp_bind, wp_movePage]
  have hdir₂ : PageDir { t₁ with heap := t₁.heap.movePage q a } e fr₁ T := by
    refine hdir.frame ?_ (List.Subset.refl fr₁) rfl fun y l _ hl => mem_movePage hq.aligned ?_
    · refine hdir.free.frame rfl rfl fun y hy => mem_movePage hq.aligned ?_
      rintro rfl
      exact hqnd hy
    · rintro rfl
      exact hqT l hl
  refine (setPte_grows hdir₂).imp ?_
  rintro - - ⟨u, fr', T', x, hg, hx, rfl⟩
  have hp : Prepared t e (q :: fr₁) T q u fr' T' := by
    refine Prepared.tables hd hdir₂ hpt (fun y hy => ?_) hg
    rw [List.mem_cons, not_or] at hy
    exact (mem_movePage hq.aligned hy.1).trans (hmem y hy.2)
  exact ⟨fr', T', hp.dir.store hx, hp.plain vpn_lt hx hz (.inr ⟨valid_user, user_writable hq⟩)⟩

theorem copyLoops_growing {k a : ℕ} (h : Growing e t) :
    wp (copyLoops e k va a) (fun _ u => Growing e u) NoPage t := by
  induction k generalizing va a t with
  | zero => exact copyPage_growing h
  | succ k ih =>
    rw [copyLoops]
    refine wp_forN (fun _ u => Growing e u) h ?_
    intro i u _ _ hu
    rw [wp_bind, wp_load]
    exact wp.ite (fun _ => ih hu) fun _ => wp_pure.mpr hu

/-- No entry of the child is read-only. -/
theorem uvmcopy_growing (hf : FreeList s.heap fr) (he : e ≠ 0) :
    wp (uvmcopy d e) (fun _ t => Growing e t) NoPage s := by
  rw [uvmcopy, if_neg he, wp_bind]
  refine (initPgdir_spec hf).imp ?_
  rintro - t ⟨q, fr', -, hdir, -⟩
  have hz : Plain t (rootTree q) := fun n x _ hx => by
    rw [slotOf_rootTree] at hx
    cases hx
  rw [wp_bind, wp_get, wp_bind]
  exact (copyLoops_growing ⟨fr', _, hdir, hz⟩).imp fun _ u hu => wp_pure.mpr hu

/-! ## Steps -/

variable {m k : Machine}

/-- What the processes find after a change of one directory. -/
theorem Frames.memories_step (h : Frames m.vm fr L) (hb : ChangesOnly m.vm F d k.vm fr')
    (hF : ∀ e U q, e ≠ d → L e = some U → Uses m.vm U q → q ∉ F)
    (hstop : ∀ e, e ≠ d → k.stop e = m.stop e) {Y : Option PrivateMemory} (hY : k.memories d = Y) :
    k.memories = Function.update m.memories d Y := by
  funext e
  by_cases he : e = d
  · subst he
    rw [Function.update_self, hY]
  · rw [Function.update_of_ne he, Machine.memories, Machine.memories, hb.pt e he, hstop e he]
    split_ifs with hpt
    · rfl
    · obtain ⟨U, hU, hH⟩ := h.tree hpt
      rw [hH.userByte_frame hb (fun q => hF e U q he hU) he]

theorem Machine.memories_eq_none (hd : m.vm.pt d = 0) : m.memories d = none := if_pos hd

theorem Machine.memories_eq_some (hd : m.vm.pt d ≠ 0) :
    m.memories d = some ⟨userByte m.vm d, m.stop d⟩ := if_neg hd

theorem PageDir.pt_ne (hd : PageDir s d fr T) : s.pt d ≠ 0 := (hd.tables.page [] _ hd.root).ne_zero

/-- What is left to show of a step that leaves the directory `d` with the tree `T'`. -/
theorem Frames.next (h : Frames m.vm fr L) (hi : Image m.vm.heap.mem F k.vm d fr' T')
    (hF : ∀ q ∈ F, KernelPage q) (hout : ∀ e U q, e ≠ d → L e = some U → Uses m.vm U q → q ∉ F)
    (hz : Plain k.vm T') (hpt : ∀ e, e ≠ d → k.vm.pt e = m.vm.pt e)
    (hstop : ∀ e, e ≠ d → k.stop e = m.stop e) :
    k.memories = Function.update m.memories d (some ⟨userByte k.vm d, k.stop d⟩) ∧
      ∃ fr' L', Frames k.vm fr' L' := by
  have hb := hi.changesOnly hpt
  have hne := hi.dir.pt_ne
  refine ⟨h.memories_step hb hout hstop (Machine.memories_eq_some hne), fr', _,
    h.step hb hout (X := some T') (iff_of_false (Option.some_ne_none _) hne) ?_⟩
  rintro U hU
  obtain rfl := Option.some.inj hU
  exact ⟨hi.holds hF hz, fun q hq => hi.uses hq⟩

/-- An event of one directory. -/
theorem Frames.on (h : Frames m.vm fr L) {a : DirEvent} (hd : m.vm.pt d ≠ 0) (hok : m.DirOk d a)
    (hs : m.on d a = some k) :
    m.memories.Step (.on d a) k.memories ∧ ∃ fr' L', Frames k.vm fr' L' := by
  obtain ⟨T, hT, hH⟩ := h.tree hd
  have hacts : ∃ fr' T', Acts m d fr T a k fr' T' := by
    cases a with
    | alloc oldsz newsz => exact alloc_acts hH hok.1 hok.2 hs
    | copyout va p len => exact copyout_acts hH hok.1 (hok.2 fr T hH.dir) hs
    | fault addr => exact fault_acts hH hok.1 hok.2.2 hs
    | sbrk size => exact sbrk_acts hH hs
    | store w b => exact store_acts hH hok hs
    | load w b => exact load_acts hH hs
  obtain ⟨fr', T', ha⟩ := hacts
  have hout : ∀ e U q, e ≠ d → L e = some U → Uses m.vm U q → q ∉ usedPages m.vm fr T :=
    fun e U q he hU hq => h.outside hT hU he hq
  obtain ⟨hmem, hframes⟩ := h.next ha.image hH.kernel hout ha.plain (fun e _ => congrFun ha.pt e) ha.stop
  exact ⟨⟨_, _, Machine.memories_eq_some hd, ha.does, hmem⟩, hframes⟩

/-- The free pages belong to no directory. -/
theorem Frames.outside_free (h : Frames m.vm fr L) (hU : L e = some U) (hq : Uses m.vm U q) :
    q ∉ {q | q ∈ fr} := (h.holds e U hU).notMem hq

theorem Frames.init (h : Frames m.vm fr L) (hd : m.vm.pt d = 0) (hs : m.step (.init d) = some k) :
    m.memories.Step (.init d) k.memories ∧ ∃ fr' L', Frames k.vm fr' L' := by
  obtain ⟨m₁, hcall, rfl⟩ := Option.map_eq_some_iff.mp hs
  obtain ⟨r, v, hx, rfl⟩ := Machine.call_eq_some hcall
  obtain ⟨q, fr', rfl, hdir, hpt, -, -, hmem⟩ := (initPgdir_spec h.free).of_ok hx
  have hnone : ∀ n, pageAt v (rootTree q) n = none := fun n => pageAt_of_none slotOf_rootTree
  have hi : Image m.vm.heap.mem {b | b ∈ q :: fr'} v d fr' (rootTree q) := by
    refine ⟨hdir, fun b hb => List.mem_cons_of_mem q hb, hmem, fun l a ha => ?_, fun n b _ hb => ?_,
      fun n i b _ _ hb _ => ?_⟩
    · rw [(rootTree_eq_some ha).2]
      exact List.mem_cons_self
    · rw [hnone] at hb
      cases hb
    · rw [hnone] at hb
      cases hb
  have hz : Plain v (rootTree q) := fun n x _ hx => by
    rw [slotOf_rootTree] at hx
    cases hx
  obtain ⟨hmem', hframes⟩ := h.next (k := Machine.initSections { m with vm := v } d) hi
    (fun b hb => h.free.kernelPage hb) (fun e U b _ hU hb => h.outside_free hU hb) hz
    (fun e he => by rw [show (Machine.initSections { m with vm := v } d).vm = v from rfl, hpt,
      Function.update_of_ne he])
    fun e he => Function.update_of_ne he _ _
  refine ⟨⟨Machine.memories_eq_none hd, hmem'.trans ?_⟩, hframes⟩
  have hbyte : userByte v d = fun _ => none := by
    funext w
    exact (userByte_eq_none hdir).mpr (hnone _)
  show Function.update m.memories d (some ⟨userByte v d, Function.update m.stop d 0 d⟩) = _
  rw [hbyte, Function.update_self]

theorem Frames.fork (h : Frames m.vm fr L) (hd : m.vm.pt d ≠ 0) (he : m.vm.pt e = 0) (he0 : e ≠ 0)
    (hs : m.step (.fork d e) = some k) :
    m.memories.Step (.fork d e) k.memories ∧ ∃ fr' L', Frames k.vm fr' L' := by
  obtain ⟨m₁, hcall, rfl⟩ := Option.map_eq_some_iff.mp hs
  obtain ⟨r, v, hx, rfl⟩ := Machine.call_eq_some hcall
  obtain ⟨T, hT, hH⟩ := h.tree hd
  have hne : d ≠ e := by
    rintro rfl
    exact hd he
  obtain ⟨-, -, fr', T', hc⟩ := (uvmcopy_spec hH.dir hne he0 fun n q hn hq =>
    (hH.page n q hn hq).2.1).of_ok hx
  obtain ⟨fr₁, T₁, hd₁, hz₁⟩ := (uvmcopy_growing (d := d) h.free he0).of_ok hx
  have hi : Image m.vm.heap.mem {q | q ∈ fr} v e fr' T' := ⟨hc.dir, hc.sub, hc.mem, hc.table, hc.page, hc.inj⟩
  obtain ⟨hmem, hframes⟩ := h.next (k := Machine.initSections { m with vm := v } e) hi
    (fun b hb => h.free.kernelPage hb) (fun e U b _ hU hb => h.outside_free hU hb)
    (hz₁.congr hd₁ hc.dir) hc.pt fun e' he' => Function.update_of_ne he' _ _
  refine ⟨⟨_, Machine.memories_eq_some hd, Machine.memories_eq_none he, hmem.trans ?_⟩, hframes⟩
  have hbyte : userByte v e = userByte m.vm d := by
    funext w
    rw [userByte_page hc.dir, userByte_page hH.dir]
    have hdom := hc.dom (vpn w) vpn_lt
    cases hq : pageAt m.vm T (vpn w) with
    | none =>
      have hnone : pageAt v T' (vpn w) = none := by
        by_contra hsome
        exact (hdom.mp hsome).2 hq
      rw [hnone, Option.map_none, Option.map_none]
    | some a =>
      obtain ⟨b, hb⟩ := Option.ne_none_iff_exists'.mp
        (hdom.mpr ⟨vpn_lt, by rw [hq]; exact Option.some_ne_none a⟩)
      rw [hb, Option.map_some, Option.map_some, hc.bytes _ b a vpn_lt hb hq _ (Nat.mod_lt _ (by decide))]
  show Function.update m.memories e (some ⟨userByte v e, Function.update m.stop e 0 e⟩) = _
  rw [hbyte, Function.update_self]

theorem Frames.release (h : Frames m.vm fr L) (hd : m.vm.pt d ≠ 0) (hs : m.step (.free d) = some k) :
    m.memories.Step (.free d) k.memories ∧ ∃ fr' L', Frames k.vm fr' L' := by
  obtain ⟨r, v, hx, rfl⟩ := Machine.call_eq_some hs
  obtain ⟨T, hT, hH⟩ := h.tree hd
  obtain ⟨l, hfr, -, hl, hpt⟩ := (freePgdir_spec (E := fun _ _ => True) hH.dir).of_ok hx
  have hb : ChangesOnly m.vm (usedPages m.vm fr T) d v (l.reverse ++ fr) := by
    refine ⟨hfr.free, fun q hq => ?_, fun y hy => hfr.mem y (fun hm => ?_) fun hm => hy (.inl hm),
      fun e he => by rw [hpt, Function.update_of_ne he]⟩
    · rcases List.mem_append.mp hq with hq | hq
      · exact .inr (.inl ((hl q).mp (List.mem_reverse.mp hq)))
      · exact .inl hq
    · exact hy (.inr (.inl ((hl _).mp hm)))
  have hout : ∀ e U q, e ≠ d → L e = some U → Uses m.vm U q → q ∉ usedPages m.vm fr T :=
    fun e U q he hU hq => h.outside hT hU he hq
  have hzero : v.pt d = 0 := by rw [hpt, Function.update_self]
  have hmem : ({ m with vm := v } : Machine).memories = Function.update m.memories d none :=
    h.memories_step (k := { m with vm := v }) hb hout (fun _ _ => rfl) (if_pos hzero)
  refine ⟨⟨?_, hmem⟩, _, _, h.step hb hout (X := none) (iff_of_true rfl hzero) fun U hU => ?_⟩
  · rw [Machine.memories_eq_some hd]
    exact Option.some_ne_none _
  · cases hU

/-- One step. -/
theorem Machine.Next.step {a : MachineEvent} (h : m.Next a k) (hf : ∃ fr L, Frames m.vm fr L) :
    m.memories.Step a k.memories ∧ ∃ fr L, Frames k.vm fr L := by
  obtain ⟨hok, hs⟩ := h
  obtain ⟨fr, L, hf⟩ := hf
  cases a with
  | init d => exact hf.init hok hs
  | fork d e => exact hf.fork hok.1 hok.2.1 hok.2.2 hs
  | on d a => exact hf.on hok.1 hok.2 hs
  | free d => exact hf.release hok hs

/-! ## Runs -/

/-- Before the first process there are free pages only. -/
theorem frames_start (hf : FreeList s.heap fr) (hpt : ∀ d, s.pt d = 0) :
    Frames s fr fun _ => none where
  free := hf
  live d := iff_of_true rfl (hpt d)
  holds d T hT := by cases hT
  apart d e T U q hT := by cases hT

variable {m₀ : Machine} {es : List MachineEvent}

/-- Eight free pages, and no process. -/
def smallMachine : Machine := ⟨smallVm, fun _ => 0, fun _ => 0⟩

/-- The events of two processes: the first one touches a page and writes to it. -/
def smallEvents : List MachineEvent :=
  [.init 112, .on 112 (.fault 0x1000), .init 113, .on 112 (.store 0x1000 5)]

theorem smallEvents_run : ∃ m, Trace Machine.Next smallMachine smallEvents m ∧
    translate m.vm 112 0x1000 = some 0xFFFF00007FFFB000 ∧ userByte m.vm 112 0x1000 = some 5 ∧
    userByte m.vm 113 0x1000 = none := by
  have h : ((smallMachine.step (.init 112)).bind fun s₁ =>
      (s₁.step (.on 112 (.fault 0x1000))).bind fun s₂ => (s₂.step (.init 113)).bind fun s₃ =>
      (s₃.step (.on 112 (.store 0x1000 5))).map fun s₄ => decide (s₁.vm.pt 112 ≠ 0 ∧
        translate s₁.vm 112 0x1000 = none ∧ s₂.vm.pt 113 = 0 ∧ s₃.vm.pt 112 ≠ 0 ∧
        translate s₄.vm 112 0x1000 = some 0xFFFF00007FFFB000 ∧ userByte s₄.vm 112 0x1000 = some 5 ∧
        userByte s₄.vm 113 0x1000 = none)) = some true := by
    decide +kernel
  obtain ⟨s₁, h₁, h⟩ := Option.bind_eq_some_iff.mp h
  obtain ⟨s₂, h₂, h⟩ := Option.bind_eq_some_iff.mp h
  obtain ⟨s₃, h₃, h⟩ := Option.bind_eq_some_iff.mp h
  obtain ⟨s₄, h₄, h⟩ := Option.map_eq_some_iff.mp h
  obtain ⟨hp₁, hnone, hp₂, hp₃, htrans, hbyte, hother⟩ := of_decide_eq_true h
  have hlow : (0x1000 : UInt64) < userTop := by decide
  have ht₁ : Trace Machine.Next smallMachine [.init 112] s₁ := .one ⟨rfl, h₁⟩
  have hn₂ : s₁.Next (.on 112 (.fault 0x1000)) s₂ := ⟨⟨hp₁, le_rfl, hlow, hnone⟩, h₂⟩
  have hn₃ : s₂.Next (.init 113) s₃ := ⟨hp₂, h₃⟩
  have hn₄ : s₃.Next (.on 112 (.store 0x1000 5)) s₄ := ⟨⟨hp₃, hlow⟩, h₄⟩
  exact ⟨s₄, ((ht₁.snoc hn₂).snoc hn₃).snoc hn₄, htrans, hbyte, hother⟩

theorem frames_run (hf : FreeList m₀.vm.heap fr) (hpt : ∀ d, m₀.vm.pt d = 0)
    (h : Trace Machine.Next m₀ es m) : ∃ fr L, Frames m.vm fr L :=
  h.invariant (I := fun m => ∃ fr L, Frames m.vm fr L) ⟨fr, _, frames_start hf hpt⟩
    fun _ _ _ ht hs => (hs.step ht).2

/-- A directory that was not set up maps nothing. -/
theorem translate_none (hd : s.pt d = 0) : translate s d w = none := by
  have hlook : wp (getPte d w false) (fun r t => r = none ∧ t = s) (fun _ _ => False) s := by
    rw [getPte, wp_bind, rootTable, wp_bind, wp_get]
    dsimp only
    rw [if_neg (not_not.mpr hd), if_pos rfl, wp_pure]
    exact wp_pure.mpr ⟨rfl, rfl⟩
  obtain ⟨r, t, hrun, rfl, -⟩ := hlook.total
  rw [translate, hrun]

end ShikiOS.Kernel.Paging
