import ShikiOS.Kernel.PageFault
import ShikiOS.Lib.Run

/-!
# The heap of a process (`sbrk`)

The heap section of a process has its bounds, and its pages appear with page faults. A call with a
negative argument should give back the pages behind the new end, but it walks upwards from the old
end.

Left out: the search for the heap section, which `init_sections` makes for every page directory, and
the registers.

Results:
* `sbrk_spec`: what a call does if it finds no page, and none is to be given back.
* `sbrk_runs`: all calls of a run are right as long as this holds of each of them.
* `sbrk_keeps_page`: otherwise a call leaves a page mapped that it should give back.
-/

namespace ShikiOS.Kernel.Paging

open ShikiOS.Lib

/-! ## Model -/

/-- The page directory and memory, and the heap section. -/
structure Space where
  vm : Vm
  begin : UInt64
  stop : UInt64

/-- A program on the page directory. -/
def onVm {α : Type} (x : M α) : EStateM Stop Space α := zoom Space.vm (fun v s => { s with vm := v }) x

/-- The body of the loop (paging.c:100-106). -/
def freeHeapPage (pd : ℕ) (va : UInt64) : M Unit := do
  match ← getPte pd va false with
  | none => return
  | some pte =>
    if Valid (← load pte) then
      kfreePage (pageOf (← load pte))
      store pte 0

/-- `sbrk` (paging.c:61-113). -/
def sbrk (pd : ℕ) (size : ℤ) : EStateM Stop Space UInt64 := do
  let oldEnd := (← get).stop
  modify fun s => { s with stop := s.stop + UInt64.ofInt (size * 4096) }
  if size < 0 then
    onVm (forN (fun i => freeHeapPage pd (oldEnd + UInt64.ofNat (i * 4096))) 0 (-size).toNat)
  return oldEnd

/-! ## What a call should do -/

variable {s s₀ t : Space} {p pd : ℕ} {size : ℤ} {fr : List ℕ} {T : Tree} {va : UInt64} {r : UInt64}

/-- The address lies between the new end and the old one. -/
def GivenBack (s : Space) (size : ℤ) (va : UInt64) : Prop :=
  va.toNat < 2 ^ 48 ∧ va.toNat < s.stop.toNat ∧ s.stop.toNat + size * 4096 ≤ va.toNat

/-- What a call that returns `r` should do: it returns the old end. The pages between the new end and
    the old one are unmapped, and those of them that were mapped are freed. All others stay mapped
    where they are, with their content. -/
structure SbrkSpec (s : Space) (pd : ℕ) (size : ℤ) (r : UInt64) (t : Space) : Prop where
  returns : r = s.stop
  stop : t.stop = s.stop + UInt64.ofInt (size * 4096)
  begin : t.begin = s.begin
  ordered : t.begin ≤ t.stop
  unmapped : ∀ va, GivenBack s size va → translate t.vm pd va = none
  freed : ∃ l, t.vm.freed = s.vm.freed ++ l ∧ l.Nodup ∧ ∀ q, q ∈ l ↔
    ∃ va a, GivenBack s size va ∧ translate s.vm pd va = some a ∧ pageBase a = q
  mapping : ∀ va, va.toNat < 2 ^ 48 → ¬ GivenBack s size va →
    translate t.vm pd va = translate s.vm pd va
  content : ∀ va a, va.toNat < 2 ^ 48 → ¬ GivenBack s size va → translate s.vm pd va = some a →
    t.vm.heap.mem a = s.vm.heap.mem a

/-- The call finds no page in the part it walks over, there is none to be given back, and the end does
    not fall below the beginning. -/
def Harmless (s : Space) (pd : ℕ) (size : ℤ) : Prop :=
  s.begin ≤ s.stop + UInt64.ofInt (size * 4096) ∧
  (size < 0 → (∀ i < (-size).toNat, translate s.vm pd (s.stop + UInt64.ofNat (i * 4096)) = none) ∧
    ∀ va, GivenBack s size va → translate s.vm pd va = none)

/-! ## One call -/

theorem freeHeapPage_spec {v : Vm} {E : Stop → Vm → Prop} (hd : PageDir v pd fr T)
    (hnone : translate v pd va = none) : wp (freeHeapPage pd va) (fun _ u => u = v) E v := by
  have hlook : wp (getPte pd va false) (fun r t => r = slotOf T (vpn va) ∧ t = v) E v := by
    refine (getPte_spec hd fun he => Bool.noConfusion he).imp ?_
    rintro r t ⟨fr', T', -, rfl, -, hsame, -⟩
    obtain ⟨rfl, rfl⟩ := hsame (.inl rfl)
    exact ⟨rfl, rfl⟩
  rw [translate_eq hd, Option.map_eq_none_iff] at hnone
  rw [freeHeapPage, wp_bind]
  refine hlook.imp ?_
  rintro r t ⟨rfl, rfl⟩
  cases hx : slotOf T (vpn va) with
  | none => exact wp_pure.mpr rfl
  | some x =>
    have hv : ¬ Valid (t.heap.word x) := fun hv => by
      rw [pageAt_of_slot hx, if_pos hv] at hnone
      cases hnone
    dsimp only
    rw [wp_bind, wp_load, if_neg hv, wp_pure]

/-- A call that finds no page changes the end only. -/
theorem sbrk_eq {E : Stop → Space → Prop} (hd : PageDir s.vm pd fr T) (hs : Harmless s pd size) :
    wp (sbrk pd size) (fun r t => r = s.stop ∧
      t = { s with stop := s.stop + UInt64.ofInt (size * 4096) }) E s := by
  rw [sbrk, wp_bind, wp_get, wp_bind, wp_modify]
  by_cases hneg : size < 0
  · rw [if_pos hneg, wp_bind, onVm, wp_zoom]
    refine (wp_forN (fun _ u => u = s.vm) rfl ?_).imp fun _ u hu => ?_
    · rintro i u - hi rfl
      rw [Nat.zero_add] at hi
      exact freeHeapPage_spec hd ((hs.2 hneg).1 i hi)
    · rw [wp_pure, hu]
      exact ⟨rfl, rfl⟩
  · rw [if_neg hneg]
    exact wp_pure.mpr ⟨rfl, rfl⟩

/-- A call that finds no page does what it should, if there is none to be given back. -/
theorem sbrk_spec {E : Stop → Space → Prop} (hd : PageDir s.vm pd fr T) (hs : Harmless s pd size) :
    wp (sbrk pd size) (fun r t => SbrkSpec s pd size r t) E s := by
  refine (sbrk_eq hd hs).imp ?_
  rintro r t ⟨rfl, rfl⟩
  have hnone : ∀ va, GivenBack s size va → translate s.vm pd va = none := by
    intro va hva
    refine (hs.2 ?_).2 va hva
    obtain ⟨-, h1, h2⟩ := hva
    omega
  refine ⟨rfl, rfl, rfl, hs.1, hnone, ⟨[], (List.append_nil _).symm, List.nodup_nil, fun q => ?_⟩,
    fun va _ _ => rfl, fun va a _ _ _ => rfl⟩
  refine iff_of_false List.not_mem_nil ?_
  rintro ⟨va, a, hva, ha, -⟩
  rw [hnone va hva] at ha
  cases ha

/-! ## Runs -/

inductive HeapCall
  | sbrk (size : ℤ)
  /-- A page fault at `addr`. -/
  | fault (addr : UInt64)
deriving DecidableEq, Repr

/-- A call of the process at `p`, or a fault outside of its mappings of files. -/
def Space.step (p : ℕ) (s : Space) : HeapCall → Option Space
  | .sbrk size =>
    match sbrk (pgdirOf p) size s with
    | .ok _ t => some t
    | .error _ _ => none
  | .fault addr =>
    match onVm (pgfaultHandler p [] addr 0) s with
    | .ok _ t => some t
    | .error _ _ => none

/-- The calls are harmless, and no fault is on a read-only page. -/
def Space.Ok (p : ℕ) (s : Space) : HeapCall → Prop
  | .sbrk size => Harmless s (pgdirOf p) size
  | .fault addr => ∀ x t, getPte (pgdirOf p) addr false s.vm = .ok (some x) t →
      s.vm.heap.word x &&& UserPtr.pteRo = 0

/-- There is a page directory, and the heap section is in order. -/
def Space.Inv (p : ℕ) (s : Space) : Prop :=
  s.begin ≤ s.stop ∧ ∃ fr T, PageDir s.vm (pgdirOf p) fr T

theorem Space.step_inv {a : HeapCall} (h : s.Inv p) (hok : s.Ok p a) (hs : s.step p a = some t) :
    t.Inv p := by
  obtain ⟨hle, fr, T, hd⟩ := h
  cases a with
  | sbrk size =>
    rw [Space.step] at hs
    split at hs
    · next r u hr =>
      cases hs
      obtain ⟨-, rfl⟩ := (sbrk_eq (E := fun _ _ => True) hd hok).of_ok hr
      exact ⟨hok.1, fr, T, hd⟩
    · cases hs
  | fault addr =>
    rw [Space.step] at hs
    split at hs
    · next r u hr =>
      cases hs
      have hro : ∀ x, ¬ ReadOnly s.vm T addr x := fun x hx =>
        hx.2 (hok x s.vm (by rw [lookup_eq hd addr, hx.1]))
      have hfault : wp (onVm (pgfaultHandler p [] addr 0)) (fun _ t => t.Inv p)
          (fun _ _ => True) s := by
        rw [onVm, wp_zoom, pgfaultHandler_eq (List.forall_mem_nil _)]
        refine wp_mono (anonFault_fresh hd hro) (fun _ v hv => ?_) fun _ _ _ => trivial
        obtain ⟨q, fr', T', -, -, -, hsets⟩ := hv
        exact ⟨hle, fr', T', hsets.dir⟩
      exact hfault.of_ok hr
    · cases hs

/-- As long as the calls are harmless, and no fault is on a read-only page, the heap section is in
    order, and the next such call does what it should. -/
theorem sbrk_runs (h₀ : s₀.Inv p) (h : Run (Space.step p) (Space.Ok p) s₀ s) :
    s.begin ≤ s.stop ∧ ∀ size, Harmless s (pgdirOf p) size →
      wp (sbrk (pgdirOf p) size) (fun r t => SbrkSpec s (pgdirOf p) size r t) (fun _ _ => False) s := by
  obtain ⟨hle, fr, T, hd⟩ := h.invariant h₀ fun _ _ _ hi hok hs => Space.step_inv hi hok hs
  exact ⟨hle, fun size hs => sbrk_spec hd hs⟩

/-- The process at `p` after `init_pgdir` and the calls of a list. -/
def heapAfter (p : ℕ) (calls : List HeapCall) : Option Space :=
  match initPgdir (pgdirOf p) smallVm with
  | .ok _ v => exec (Space.step p) ⟨v, 0, 0⟩ calls
  | .error _ _ => none

theorem heapAfter_eq_some {calls : List HeapCall} (h : heapAfter p calls = some s) :
    ∃ v, initPgdir (pgdirOf p) smallVm = .ok () v ∧ (∃ fr q, PageDir v (pgdirOf p) fr (rootTree q)) ∧
      exec (Space.step p) ⟨v, 0, 0⟩ calls = some s := by
  rw [heapAfter] at h
  split at h
  · next v hv =>
    obtain ⟨q, fr, -, hd, -⟩ := (initPgdir_spec smallVm_free).of_ok hv
    exact ⟨v, hv, ⟨fr, q, hd⟩, h⟩
  · cases h

/-- With three pages, of which only the second was touched, the third is given back. -/
theorem sbrk_runs_untouched : ∃ v s, initPgdir (pgdirOf 0xFFFF000000100000) smallVm = .ok () v ∧
    Run (Space.step 0xFFFF000000100000) (Space.Ok 0xFFFF000000100000) ⟨v, 0, 0⟩ s ∧
    s.stop = 0x3000 ∧ translate s.vm (pgdirOf 0xFFFF000000100000) 0x1000 ≠ none ∧
    wp (sbrk (pgdirOf 0xFFFF000000100000) (-1))
      (fun r t => SbrkSpec s (pgdirOf 0xFFFF000000100000) (-1) r t) (fun _ _ => False) s := by
  have h : (heapAfter 0xFFFF000000100000 [.sbrk 3, .fault 0x1000]).map (fun s => decide (s.begin = 0 ∧
      s.stop = 0x3000 ∧ translate s.vm (pgdirOf 0xFFFF000000100000) 0x1000 ≠ none ∧
      translate s.vm (pgdirOf 0xFFFF000000100000) 0x2000 = none ∧
      translate s.vm (pgdirOf 0xFFFF000000100000) 0x3000 = none)) = some true := by
    decide +kernel
  obtain ⟨s, hs, hf⟩ := Option.map_eq_some_iff.mp h
  obtain ⟨hbegin, hstop, h1, h2, h3⟩ := of_decide_eq_true hf
  obtain ⟨v, hv, ⟨fr, q, hd⟩, hexec⟩ := heapAfter_eq_some hs
  have hinv : Space.Inv 0xFFFF000000100000 ⟨v, 0, 0⟩ := ⟨UInt64.le_refl 0, fr, _, hd⟩
  have hok : Space.Ok 0xFFFF000000100000 ⟨v, 0, 0⟩ (.sbrk 3) := by
    refine ⟨?_, fun hneg => absurd hneg (by decide)⟩
    show (0 : UInt64) ≤ 0 + UInt64.ofInt (3 * 4096)
    decide
  simp only [exec] at hexec
  split at hexec
  · next s₁ hs₁ =>
    split at hexec
    · next s₂ hs₂ =>
      cases hexec
      have heq : s₁ = ⟨v, 0, 0 + UInt64.ofInt (3 * 4096)⟩ := by
        have hcall := hs₁
        rw [Space.step] at hcall
        split at hcall
        · next r u hu =>
          cases hcall
          exact ((sbrk_eq (E := fun _ _ => True) hd hok).of_ok hu).2
        · cases hcall
      have hok₂ : Space.Ok 0xFFFF000000100000 s₁ (.fault 0x1000) := by
        rw [heq]
        intro x t hx
        rw [lookup_eq hd, slotOf_rootTree] at hx
        cases hx
      have hrun : Run (Space.step 0xFFFF000000100000) (Space.Ok 0xFFFF000000100000) ⟨v, 0, 0⟩ s :=
        .tail (.tail .refl hok hs₁) hok₂ hs₂
      obtain ⟨-, fr', T, hd'⟩ := hrun.invariant hinv fun _ _ _ hi hok hs => Space.step_inv hi hok hs
      refine ⟨v, s, hv, hrun, hstop, h1, (sbrk_runs hinv hrun).2 (-1) ⟨?_, fun _ => ⟨?_, ?_⟩⟩⟩
      · rw [hbegin, hstop]
        decide
      · intro i hi
        obtain rfl : i = 0 := Nat.lt_one_iff.mp hi
        rw [hstop]
        exact h3
      · rintro va ⟨-, hlt, hge⟩
        rw [hstop] at hlt hge
        change va.toNat < 0x3000 at hlt
        change (0x3000 : ℤ) + -1 * 4096 ≤ va.toNat at hge
        have hvpn : vpn va = vpn 0x2000 := by
          rw [vpn, show vpn 0x2000 = 2 from rfl]
          omega
        rw [translate_eq hd', hvpn, Option.map_eq_none_iff]
        rwa [translate_eq hd', Option.map_eq_none_iff] at h2
    · cases hexec
  · cases hexec

/-- Both pages of the heap were touched. The call that should give back the second one leaves it where
    it is. -/
theorem sbrk_keeps_page : ∃ v s t, initPgdir (pgdirOf 0xFFFF000000100000) smallVm = .ok () v ∧
    Run (Space.step 0xFFFF000000100000) anyStep ⟨v, 0, 0⟩ s ∧ s.stop = 0x2000 ∧
    sbrk (pgdirOf 0xFFFF000000100000) (-1) s = .ok 0x2000 t ∧ t.stop = 0x1000 ∧
    translate t.vm (pgdirOf 0xFFFF000000100000) 0x1000 ≠ none ∧
    ¬ SbrkSpec s (pgdirOf 0xFFFF000000100000) (-1) 0x2000 t := by
  have h : (heapAfter 0xFFFF000000100000 [.sbrk 2, .fault 0, .fault 0x1000]).map (fun s =>
      decide (s.stop = 0x2000 ∧ wp (sbrk (pgdirOf 0xFFFF000000100000) (-1))
        (fun r t => r = 0x2000 ∧ t.stop = 0x1000 ∧
          translate t.vm (pgdirOf 0xFFFF000000100000) 0x1000 ≠ none) (fun _ _ => False) s)) =
      some true := by
    decide +kernel
  obtain ⟨s, hs, hf⟩ := Option.map_eq_some_iff.mp h
  obtain ⟨hstop, hw⟩ := of_decide_eq_true hf
  obtain ⟨v, hv, -, hexec⟩ := heapAfter_eq_some hs
  obtain ⟨r, t, ht, rfl, htop, hmapped⟩ := hw.total
  refine ⟨v, s, t, hv, Run.of_exec hexec, hstop, ht, htop, hmapped, fun hspec => hmapped ?_⟩
  refine hspec.unmapped 0x1000 ⟨by decide, ?_, ?_⟩
  · rw [hstop]
    decide
  · rw [hstop]
    decide

end ShikiOS.Kernel.Paging
