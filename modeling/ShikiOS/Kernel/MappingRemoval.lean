import ShikiOS.Kernel.LazyMapping

/-!
# Removing a mapping (`kernel/sysfile.c`, `kernel/proc.c`)

`munmap` and `exit` write a shared mapping back, and unmap its pages. `uvmunmap` stops the kernel at a
page that no fault has entered. While `writeback` copies such a page, the kernel takes the fault, and
waits for the inode that it has locked itself. `munmap` leaves out a last page that the mapping does
not fill.

Left out: `file_close`, the log, in `munmap` what happens to the list, and in `exit` what is not about
mappings.

Results:
* `munmap_iff`: when `munmap` of a whole mapping removes it.
* `exit_spec`, `exit_stops`: what `exit` does with the mappings.
* `removal_iff`: when both do what they should.
* `exit_untouched_panics`: a process that has not touched its mapping stops the kernel as it exits.
-/

namespace ShikiOS.Kernel.Paging

open ShikiOS.Lib Fs
open UserPtr (pteRo)
open Calls (mapPrivate opMaxBytes intOfU64)

/-! ## Model -/

/-- What an access of the kernel to user memory reads, if the page is there. -/
def peek (p : ℕ) (va : UInt64) : FileM (Option UInt8) := do
  let s ← get
  return (translate s.vm (pgdirOf p) va).map s.vm.heap.mem

/-- An access of the kernel to user memory, with its fault. -/
def readByte (p : ℕ) (va : UInt64) : FileM UInt8 := do
  match ← peek p va with
  | some b => return b
  | none =>
    fault p va
    match ← peek p va with
    | some b => return b
    -- It faults for ever.
    | none => throw .spin

def readBytes (p : ℕ) : ℕ → UInt64 → FileM (List UInt8)
  | 0, _ => return []
  | n + 1, va => do
    let b ← readByte p va
    let l ← readBytes p n (va + 1)
    return b :: l

/-- `inodes.write` (inode.c:366-407) of user memory. -/
def inodeWrite (p ip : ℕ) (src : UInt64) (offset count : ℕ) : FileM ℕ := do
  let s ← get
  if ¬ (offset ≤ (s.file ip).length ∧ offset + count ≤ inodeMaxBytes) then throw .panic
  let l ← readBytes p count src
  modify fun s =>
    let old := s.file ip
    { s with file := Function.update s.file ip (old.take offset ++ l ++ old.drop (offset + count)) }
  return count

/-- The loop of `writeback` (sysfile.c:80-94), in at most `m` rounds. -/
def writebackLoop (p : ℕ) (v : Vma) (addr : UInt64) (n : ℕ) : ℕ → ℕ → FileM Unit
  | 0, _ => return
  | m + 1, i => do
    if i < n then
      inodeLock v.ip
      let r ← inodeWrite p v.ip (addr + UInt64.ofNat i)
        (v.off + v.start - addr + UInt64.ofNat i).toNat (min (n - i) opMaxBytes)
      inodeUnlock v.ip
      writebackLoop p v addr n m (i + r)

/-- The mapping is written back. -/
def Shared (v : Vma) : Prop := ¬ (v.permission &&& pteRo ≠ 0 ∨ Kernel.hasFlag v.flags mapPrivate = true)

instance (v : Vma) : Decidable (Shared v) := inferInstanceAs (Decidable (¬ (_ ∨ _)))

/-- `writeback` (sysfile.c:64-95). -/
def writeback (p : ℕ) (v : Vma) (addr : UInt64) (n : ℤ) : FileM Unit := do
  if Shared v then
    if addr % 0x1000 ≠ 0 then throw .panic
    writebackLoop p v addr n.toNat n.toNat 0

/-- The part of `munmap` (sysfile.c:165-215) up to the list. -/
def munmap (p : ℕ) (addr length : UInt64) : FileM ℤ := do
  match (← get).vmas.find? fun v => v.Covers addr with
  | none => return -1
  | some v =>
    if addr ≠ v.start ∧ addr + length ≠ v.stop then throw .panic
    if addr = v.start then
      writeback p v addr (intOfU64 length.toNat)
      memory (uvmunmap (pgdirOf p) addr (length / 0x1000) true)
    return 0

/-- The body of the loop of `exit` (proc.c:244-245). -/
def exitVma (p : ℕ) (v : Vma) : FileM Unit := do
  writeback p v v.start (intOfU64 v.length.toNat)
  memory (uvmunmap (pgdirOf p) v.start (pageBaseU64 (v.length + 0x1000 - 1) / 0x1000) true)

/-- The list after a round of the loop (proc.c:247-251). The first mapping stays in the list of the
    process, and has lost the others in the first round. -/
def cutVmas : List Vma → List Vma
  | [] => []
  | v :: _ => [{ v with length := 0 }]

/-- The loop of `exit` (proc.c:243-253). -/
def exitVmas (p : ℕ) : List Vma → FileM Unit
  | [] => return
  | v :: vs => do
    exitVma p v
    modify fun s => { s with vmas := cutVmas s.vmas }
    exitVmas p vs

def exit (p : ℕ) : FileM Unit := do exitVmas p (← get).vmas

/-! ## Accesses to user memory -/

variable {s s₀ t : FileSpace} {p n m : ℕ} {fr S : List ℕ} {T : Tree} {v w : Vma} {vs : List Vma}
  {E : Stop → FileSpace → Prop}

theorem vpn_byte (hm : m < 2 ^ 48) : vpn (UInt64.ofNat m) = m / 2 ^ 12 := by
  have h := UInt64.toNat_ofNat_of_lt' (show m < UInt64.size by rw [UInt64.size]; omega)
  rw [vpn_eq (by rwa [h]), h]

theorem wp_peek {Q : Option UInt8 → FileSpace → Prop} {va : UInt64} :
    wp (peek p va) Q E s ↔ Q ((translate s.vm (pgdirOf p) va).map s.vm.heap.mem) s := by
  rw [peek, wp_bind, wp_get, wp_pure]

theorem translate_ne_none {s : Vm} {pd : ℕ} {va : UInt64} (hd : PageDir s pd fr T) :
    translate s pd va ≠ none ↔ pageAt s T (vpn va) ≠ none := by
  rw [translate_eq hd, ne_eq, ne_eq, Option.map_eq_none_iff]

/-- A mapped page is read. -/
theorem readByte_spec {va : UInt64} (hd : PageDir s.vm (pgdirOf p) fr T)
    (hp : pageAt s.vm T (vpn va) ≠ none) : wp (readByte p va) (fun _ t => t = s) E s := by
  obtain ⟨a, ha⟩ := Option.ne_none_iff_exists'.mp ((translate_ne_none hd).mpr hp)
  rw [readByte, wp_bind, wp_peek, ha, Option.map_some]
  exact wp_pure.mpr rfl

theorem readByte_stops {va : UInt64} (hd : PageDir s.vm (pgdirOf p) fr T)
    (hp : pageAt s.vm T (vpn va) = none)
    (hf : wp (fault p va) (fun _ _ => False) (fun _ _ => True) s) :
    wp (readByte p va) (fun _ _ => False) (fun _ _ => True) s := by
  have hnone : translate s.vm (pgdirOf p) va = none := by
    rw [translate_eq hd, hp, Option.map_none]
  rw [readByte, wp_bind, wp_peek, hnone, Option.map_none]
  dsimp only
  rw [wp_bind]
  exact hf.imp fun _ _ hf => hf.elim

theorem ofNat_succ : UInt64.ofNat m + 1 = UInt64.ofNat (m + 1) := by
  rw [UInt64.ofNat_add]
  rfl

theorem readBytes_spec (hd : PageDir s.vm (pgdirOf p) fr T) (hm : m + n ≤ 2 ^ 48)
    (hp : ∀ j, m ≤ j → j < m + n → pageAt s.vm T (j / 2 ^ 12) ≠ none) :
    wp (readBytes p n (UInt64.ofNat m)) (fun l t => t = s ∧ l.length = n) E s := by
  induction n generalizing m with
  | zero => exact wp_pure.mpr ⟨rfl, rfl⟩
  | succ n ih =>
    rw [readBytes, wp_bind]
    refine (readByte_spec hd ?_).imp ?_
    · rw [vpn_byte (by omega)]
      exact hp m le_rfl (by omega)
    · rintro b t rfl
      rw [wp_bind, ofNat_succ]
      refine (ih (by omega) fun j h1 h2 => hp j (by omega) (by omega)).imp ?_
      rintro l t ⟨rfl, hl⟩
      rw [wp_pure, List.length_cons, hl]
      exact ⟨rfl, rfl⟩

theorem readBytes_stops (hd : PageDir s.vm (pgdirOf p) fr T) (hm : m + n ≤ 2 ^ 48)
    (hp : ∃ j, m ≤ j ∧ j < m + n ∧ pageAt s.vm T (j / 2 ^ 12) = none)
    (hf : ∀ j, m ≤ j → j < m + n →
      wp (fault p (UInt64.ofNat j)) (fun _ _ => False) (fun _ _ => True) s) :
    wp (readBytes p n (UInt64.ofNat m)) (fun _ _ => False) (fun _ _ => True) s := by
  induction n generalizing m with
  | zero =>
    obtain ⟨j, h1, h2, -⟩ := hp
    omega
  | succ n ih =>
    rw [readBytes, wp_bind]
    by_cases hnone : pageAt s.vm T (m / 2 ^ 12) = none
    · refine (readByte_stops hd ?_ (hf m le_rfl (by omega))).imp fun _ _ hf => hf.elim
      rwa [vpn_byte (by omega)]
    · refine (readByte_spec hd ?_).imp ?_
      · rwa [vpn_byte (by omega)]
      · rintro b t rfl
        rw [wp_bind, ofNat_succ]
        obtain ⟨j, h1, h2, hj⟩ := hp
        have hjm : j ≠ m := by
          rintro rfl
          exact hnone hj
        refine (ih (by omega) ⟨j, by omega, by omega, hj⟩ fun j h1 h2 => hf j (by omega) (by omega)).imp ?_
        exact fun _ _ hf => hf.elim

/-! ## A fault while the inode is locked -/

/-- Neither mapping reaches into the other. -/
def Beside (v w : Vma) : Prop := v.first + v.pages ≤ w.first ∨ w.first + w.pages ≤ v.first

instance : Std.Symm Beside := ⟨fun _ _ h => h.symm⟩

theorem Laid.beside (h : Laid vs) (hv : v ∈ vs) (hw : w ∈ vs) (hne : v ≠ w) : Beside v w :=
  (h.ordered.imp (S := Beside) fun hvw => .inl hvw).forall hv hw hne

/-- An address is in one mapping. -/
theorem Laid.unique {va : UInt64} (h : Laid vs) (hv : v ∈ vs) (hw : w ∈ vs) (hcv : v.Covers va)
    (hcw : w.Covers va) : v = w := by
  by_contra hne
  obtain ⟨-, h1, h2⟩ := h.covers hv hcv
  obtain ⟨-, h3, h4⟩ := h.covers hw hcw
  rcases h.beside hv hw hne with hlt | hlt
  · omega
  · omega

/-- The kernel waits for itself. -/
theorem fault_locked {va : UInt64} (h : Resident s.vm (pgdirOf p) fr T S Region) (hl : Laid s.vmas)
    (hv : v ∈ s.vmas) (hc : v.Covers va) (hlock : s.locked v.ip = true) :
    wp (fault p va) (fun _ _ => False) (fun _ _ => True) s := by
  obtain ⟨w, hw, hcw, hfind⟩ := find_covers ⟨v, hv, hc⟩
  obtain rfl := hl.unique hv hw hc hcw
  obtain ⟨h48, h1, h2⟩ := hl.covers hv hc
  rw [fault, wp_bind, wp_get, hfind]
  show wp (fileFault p v va) _ _ s
  rw [fileFault, pageBaseU64_eq h48, (hl.mapped v hv).permission, wp_bind, memory, wp_zoom]
  refine wp_mono (h.enter (hl.region hv h1 h2)) ?_ fun _ _ _ => trivial
  rintro ⟨q, r⟩ u ⟨rfl, -⟩
  simp only [ne_eq, not_true_eq_false, if_false, inodeLock, wp_bind, wp_get, hlock, if_true, wp_throw]

/-! ## `writeback` -/

theorem inodeWrite_spec {offset : ℕ} (hd : PageDir s.vm (pgdirOf p) fr T) (hm : m + n ≤ 2 ^ 48)
    (hp : ∀ j, m ≤ j → j < m + n → pageAt s.vm T (j / 2 ^ 12) ≠ none)
    (hoff : offset ≤ (s.file v.ip).length) (hmax : offset + n ≤ inodeMaxBytes) :
    wp (inodeWrite p v.ip (UInt64.ofNat m) offset n) (fun r t => r = n ∧ t.vm = s.vm ∧
      t.vmas = s.vmas ∧ t.locked = s.locked ∧ offset + n ≤ (t.file v.ip).length) E s := by
  have hc : ¬ ¬ (offset ≤ (s.file v.ip).length ∧ offset + n ≤ inodeMaxBytes) :=
    not_not.mpr ⟨hoff, hmax⟩
  rw [inodeWrite, wp_bind, wp_get, if_neg hc, wp_bind]
  refine (readBytes_spec hd hm hp).imp ?_
  rintro l t ⟨rfl, hl⟩
  rw [wp_bind, wp_modify, wp_pure]
  refine ⟨rfl, rfl, rfl, rfl, ?_⟩
  dsimp only
  rw [Function.update_self, List.length_append, List.length_append, List.length_take, hl]
  omega

theorem inodeWrite_stops {ip offset : ℕ}
    (h : ¬ (offset ≤ (s.file ip).length ∧ offset + n ≤ inodeMaxBytes) ∨
      wp (readBytes p n (UInt64.ofNat m)) (fun _ _ => False) (fun _ _ => True) s) :
    wp (inodeWrite p ip (UInt64.ofNat m) offset n) (fun _ _ => False) (fun _ _ => True) s := by
  rw [inodeWrite, wp_bind, wp_get]
  refine wp.ite (fun _ => ?_) fun hc => ?_
  · rw [wp_bind, wp_throw]
    trivial
  · rw [wp_bind]
    exact (h.resolve_left hc).imp fun _ _ hf => hf.elim

/-- The address and the place in the file of byte `i` of a mapping. -/
theorem Mapped.byte {i : ℕ} (h : Mapped v) (hlt : v.first < 2 ^ 36) (hi : i < 2 ^ 31) :
    v.start + UInt64.ofNat i = UInt64.ofNat (v.first * 2 ^ 12 + i) ∧
      (v.off + v.start - v.start + UInt64.ofNat i).toNat = i := by
  have hsub : v.off + v.start - v.start + UInt64.ofNat i = UInt64.ofNat i := by
    rw [h.off, UInt64.zero_add, UInt64.sub_self, UInt64.zero_add]
  rw [hsub, UInt64.ofNat_add, h.start, pageAddr, Vma.first, h.start, pageAddr_toNat hlt.le,
    Nat.mul_div_cancel _ (by decide)]
  exact ⟨rfl, UInt64.toNat_ofNat_of_lt' (by rw [UInt64.size]; omega)⟩

theorem Mapped.covers {i : ℕ} (h : Mapped v) (hlt : v.first < 2 ^ 36) (hi : i < v.length.toNat) :
    v.Covers (UInt64.ofNat (v.first * 2 ^ 12 + i)) := by
  have hlen := h.length
  have hto : (UInt64.ofNat (v.first * 2 ^ 12 + i)).toNat = v.first * 2 ^ 12 + i :=
    UInt64.toNat_ofNat_of_lt' (by rw [UInt64.size]; omega)
  rw [Vma.Covers, UInt64.le_iff_toNat_le, UInt64.lt_iff_toNat_lt, h.stop, h.start_toNat hlt, hto]
  omega

theorem lock_unlock {ip : ℕ} (h : s.locked ip = false) :
    Function.update (Function.update s.locked ip true) ip false = s.locked := by
  rw [Function.update_idem, ← h, Function.update_eq_self]

/-- The pages of a mapping are there, so it is written back. -/
theorem writebackLoop_spec {i : ℕ} (hv : Mapped v) (hlt : v.first < 2 ^ 35) (hn : n < 2 ^ 31)
    (hd : PageDir s.vm (pgdirOf p) fr T) (hu : s.locked v.ip = false)
    (hp : ∀ j < n, pageAt s.vm T ((v.first * 2 ^ 12 + j) / 2 ^ 12) ≠ none) (hmax : n ≤ inodeMaxBytes)
    (hi : i ≤ (s.file v.ip).length) (hm : n ≤ i + m) :
    wp (writebackLoop p v v.start n m i)
      (fun _ t => t.vm = s.vm ∧ t.vmas = s.vmas ∧ t.locked = s.locked) E s := by
  induction m generalizing s i with
  | zero => exact wp_pure.mpr ⟨rfl, rfl, rfl⟩
  | succ m ih =>
    rw [writebackLoop]
    refine wp.ite (fun hin => ?_) fun _ => wp_pure.mpr ⟨rfl, rfl, rfl⟩
    obtain ⟨haddr, hoff⟩ := hv.byte (i := i) (by omega) (by omega)
    have hpos : 0 < opMaxBytes := by decide +kernel
    have hmin : min (n - i) opMaxBytes ≤ n - i := Nat.min_le_left _ _
    rw [haddr, hoff, inodeLock, wp_bind, wp_bind, wp_get, hu]
    simp only [Bool.false_eq_true, if_false, wp_modify]
    rw [wp_bind]
    refine (inodeWrite_spec (s := { s with locked := Function.update s.locked v.ip true }) hd (by omega)
      (fun j h1 h2 => ?_) hi (by omega)).imp ?_
    · have hj := hp (j - v.first * 2 ^ 12) (by omega)
      rwa [Nat.add_sub_cancel' (le_trans (Nat.le_add_right _ i) h1)] at hj
    · rintro r t ⟨rfl, hvm, hvmas, hlocked, hlen⟩
      rw [wp_bind, inodeUnlock, wp_modify]
      have hback : Function.update t.locked v.ip false = s.locked := by
        rw [hlocked]
        exact lock_unlock hu
      rw [hback]
      refine (ih (s := { t with locked := s.locked }) ?_ hu ?_ hlen (by omega)).imp ?_
      · exact hvm ▸ hd
      · exact hvm ▸ hp
      · rintro - u ⟨h1, h2, h3⟩
        exact ⟨h1.trans hvm, h2.trans hvmas, h3⟩

/-- A page of the mapping is not there, or the mapping is longer than files get. -/
theorem writebackLoop_stops {i : ℕ} (hv : v ∈ s.vmas) (hn : n = v.length.toNat) (hl : Laid s.vmas)
    (hr : Resident s.vm (pgdirOf p) fr T S Region) (hu : s.locked v.ip = false)
    (hi : i ≤ inodeMaxBytes) (hm : n ≤ i + m)
    (hbad : inodeMaxBytes < n ∨
      ∃ j, i ≤ j ∧ j < n ∧ pageAt s.vm T ((v.first * 2 ^ 12 + j) / 2 ^ 12) = none) :
    wp (writebackLoop p v v.start n m i) (fun _ _ => False) (fun _ _ => True) s := by
  have hmap := hl.mapped v hv
  have hlen := hmap.length
  have hlt := hl.first_lt hv
  induction m generalizing s i with
  | zero =>
    rcases hbad with hbad | ⟨j, h1, h2, -⟩
    · omega
    · omega
  | succ m ih =>
    have hin : i < n := by
      rcases hbad with hbad | ⟨j, h1, h2, -⟩
      · omega
      · omega
    obtain ⟨haddr, hoff⟩ := hmap.byte (i := i) (by omega) (by omega)
    have hmax : 0 < opMaxBytes := by decide +kernel
    obtain ⟨k, hk⟩ : ∃ k, min (n - i) opMaxBytes = k := ⟨_, rfl⟩
    have hpos : 0 < k ∧ k ≤ n - i := by omega
    rw [writebackLoop, if_pos hin, haddr, hoff, hk, inodeLock, wp_bind, wp_bind, wp_get, hu]
    simp only [Bool.false_eq_true, if_false, wp_modify]
    rw [wp_bind]
    -- The round fails, or it is over before the byte that stops the kernel.
    by_cases hok : i ≤ (s.file v.ip).length ∧ i + k ≤ inodeMaxBytes
    · by_cases hround : ∃ j, v.first * 2 ^ 12 + i ≤ j ∧ j < v.first * 2 ^ 12 + i + k ∧
          pageAt s.vm T (j / 2 ^ 12) = none
      · refine (inodeWrite_stops (.inr ?_)).imp fun _ _ hf => hf.elim
        refine readBytes_stops (s := { s with locked := _ }) hr.dir (by omega) hround fun j h1 h2 => ?_
        have hc := hmap.covers (i := j - v.first * 2 ^ 12) (by omega) (by omega)
        rw [Nat.add_sub_cancel' (le_trans (Nat.le_add_right _ i) h1)] at hc
        exact fault_locked (s := { s with locked := _ }) hr hl hv hc (Function.update_self _ _ _)
      · have hthere : ∀ j, v.first * 2 ^ 12 + i ≤ j → j < v.first * 2 ^ 12 + i + k →
            pageAt s.vm T (j / 2 ^ 12) ≠ none := fun j h1 h2 hj => hround ⟨j, h1, h2, hj⟩
        refine (inodeWrite_spec (s := { s with locked := Function.update s.locked v.ip true }) hr.dir
          (by omega) hthere hok.1 hok.2).imp ?_
        rintro r t ⟨rfl, hvm, hvmas, hlocked, -⟩
        have hback : Function.update t.locked v.ip false = s.locked := by
          rw [hlocked]
          exact lock_unlock hu
        rw [wp_bind, inodeUnlock, wp_modify, hback]
        refine ih (s := { t with locked := s.locked }) (hvmas ▸ hv) (hvmas ▸ hl) (hvm ▸ hr) hu hok.2
          (by omega) ?_
        rcases hbad with hbad | ⟨j, h1, h2, hj⟩
        · exact .inl hbad
        · refine .inr ⟨j, ?_, h2, hvm ▸ hj⟩
          by_contra hlow
          exact hthere (v.first * 2 ^ 12 + j) (by omega) (by omega) hj
    · exact (inodeWrite_stops (s := { s with locked := Function.update s.locked v.ip true })
        (.inl hok)).imp fun _ _ hf => hf.elim

theorem intOfU64_length (h : v.length.toNat < 2 ^ 31) : (intOfU64 v.length.toNat).toNat = v.length.toNat := by
  have hmod : v.length.toNat % 2 ^ 32 = v.length.toNat := Nat.mod_eq_of_lt (by omega)
  rw [intOfU64, hmod, if_pos h]
  omega

theorem writeback_eq (hv : Mapped v) (hlt : v.first < 2 ^ 36) :
    writeback p v v.start (intOfU64 v.length.toNat) =
      if Shared v then writebackLoop p v v.start v.length.toNat v.length.toNat 0 else pure () := by
  have hmod : ¬ v.start % 0x1000 ≠ 0 := by
    rw [hv.start]
    exact pageAddr_mod hlt
  rw [writeback, if_neg hmod, intOfU64_length hv.length]

/-- The pages of the first `n` bytes of a mapping are mapped. -/
def Filled (s : Vm) (T : Tree) (v : Vma) (n : ℕ) : Prop :=
  ∀ j < n, pageAt s T ((v.first * 2 ^ 12 + j) / 2 ^ 12) ≠ none

theorem writeback_spec (hv : Mapped v) (hlt : v.first < 2 ^ 35) (hd : PageDir s.vm (pgdirOf p) fr T)
    (hu : s.locked v.ip = false) (hp : Shared v → Filled s.vm T v v.length.toNat)
    (hmax : Shared v → v.length.toNat ≤ inodeMaxBytes) :
    wp (writeback p v v.start (intOfU64 v.length.toNat))
      (fun _ t => t.vm = s.vm ∧ t.vmas = s.vmas ∧ t.locked = s.locked) E s := by
  rw [writeback_eq hv (by omega)]
  refine wp.ite (fun hs => ?_) fun _ => wp_pure.mpr ⟨rfl, rfl, rfl⟩
  exact writebackLoop_spec hv hlt hv.length hd hu (hp hs) (hmax hs) (Nat.zero_le _) (by omega)

theorem writeback_stops (hv : v ∈ s.vmas) (hl : Laid s.vmas)
    (hr : Resident s.vm (pgdirOf p) fr T S Region) (hu : s.locked v.ip = false) (hs : Shared v)
    (hbad : inodeMaxBytes < v.length.toNat ∨ ¬ Filled s.vm T v v.length.toNat) :
    wp (writeback p v v.start (intOfU64 v.length.toNat)) (fun _ _ => False) (fun _ _ => True) s := by
  have hlt := hl.first_lt hv
  rw [writeback_eq (hl.mapped v hv) (by omega), if_pos hs]
  refine writebackLoop_stops hv rfl hl hr hu (Nat.zero_le _) (by omega) (hbad.imp_right fun hf => ?_)
  rw [Filled] at hf
  push Not at hf
  obtain ⟨j, hj, hnone⟩ := hf
  exact ⟨j, Nat.zero_le j, hj, hnone⟩

/-! ## `uvmunmap` -/

/-- Page `n` belongs to the mapping. -/
def Vma.Has (v : Vma) (n : ℕ) : Prop := v.first ≤ n ∧ n < v.first + v.pages

theorem filled_iff {k : ℕ} : Filled s.vm T v k ↔
    ∀ n, v.first ≤ n → n < v.first + (k + (pageSize - 1)) / pageSize → pageAt s.vm T n ≠ none := by
  unfold Filled pageSize
  constructor
  · intro h n h1 h2
    have hn := h ((n - v.first) * 2 ^ 12) (by omega)
    rwa [← Nat.add_mul, Nat.add_sub_cancel' h1, Nat.mul_div_cancel _ (by decide)] at hn
  · intro h j hj
    exact h _ (by omega) (by omega)

theorem uvmunmap_eq {pd : ℕ} {npages : UInt64} {b : Bool} (hk : npages.toNat = n) (hm : m < 2 ^ 36)
    (hmn : m + n ≤ 2 ^ 36) :
    uvmunmap pd (pageAddr m) npages b = unmapLoop pd (pageAddr (m + n)) b n (pageAddr m) := by
  have hstop : pageAddr m + npages * 0x1000 = pageAddr (m + n) := by
    apply UInt64.toNat_inj.mp
    rw [UInt64.toNat_add, UInt64.toNat_mul, hk, pageAddr_toNat hm.le, pageAddr_toNat hmn]
    show (m * 2 ^ 12 + n * 4096 % 2 ^ 64) % 2 ^ 64 = _
    omega
  rw [uvmunmap, if_neg (pageAddr_mod hm), hstop, hk]

/-- The pages of `munmap`. -/
theorem length_div : (v.length / 0x1000).toNat = v.length.toNat / pageSize := UInt64.toNat_div _ _

/-- The pages of `exit`. -/
theorem length_roundup (h : v.length.toNat < 2 ^ 31) :
    (pageBaseU64 (v.length + 0x1000 - 1) / 0x1000).toNat = v.pages := by
  have hadd : (v.length + 0x1000).toNat = v.length.toNat + 4096 := by
    rw [UInt64.toNat_add]
    exact Nat.mod_eq_of_lt (show v.length.toNat + 4096 < 2 ^ 64 by omega)
  have hsub : (v.length + 0x1000 - 1).toNat = v.length.toNat + 4095 := by
    rw [UInt64.toNat_sub_of_le _ _ (by rw [UInt64.le_iff_toNat_le, hadd]; exact Nat.le_add_left 1 _), hadd]
    rfl
  rw [UInt64.toNat_div, pageBaseU64_toNat, hsub]
  exact Nat.mul_div_cancel _ (by decide)

/-- A range of pages of the region, all of them mapped. -/
theorem memory_uvmunmap_spec {npages : UInt64} (h : Resident s.vm (pgdirOf p) fr T S Region)
    (hk : npages.toNat = n) (hm : m < 2 ^ 35) (hn : n < 2 ^ 35)
    (hD : ∀ k, m ≤ k → k < m + n → Region k) (hp : ∀ k, m ≤ k → k < m + n → pageAt s.vm T k ≠ none) :
    wp (memory (uvmunmap (pgdirOf p) (pageAddr m) npages true)) (fun _ t => t.vmas = s.vmas ∧
      t.locked = s.locked ∧ ∃ fr' S', Resident t.vm (pgdirOf p) fr' T S' Region ∧
      (∀ k, m ≤ k → k < m + n → pageAt t.vm T k = none) ∧
      ∀ k < 2 ^ 36, k < m ∨ m + n ≤ k → pageAt t.vm T k = pageAt s.vm T k) E s := by
  rw [memory, wp_zoom, uvmunmap_eq hk (by omega) (by omega)]
  exact (unmapLoop_spec h (by omega) hD hp).imp fun _ _ ht => ⟨rfl, rfl, ht⟩

/-- A range of pages of the region, one of them not mapped. -/
theorem memory_uvmunmap_stops {npages : UInt64} (h : Resident s.vm (pgdirOf p) fr T S Region)
    (hk : npages.toNat = n) (hm : m < 2 ^ 35) (hn : n < 2 ^ 35)
    (hD : ∀ k, m ≤ k → k < m + n → Region k) (hp : ∃ k, m ≤ k ∧ k < m + n ∧ pageAt s.vm T k = none) :
    wp (memory (uvmunmap (pgdirOf p) (pageAddr m) npages true)) (fun _ _ => False)
      (fun _ _ => True) s := by
  rw [memory, wp_zoom, uvmunmap_eq hk (by omega) (by omega)]
  exact wp_mono (unmapLoop_stops h (by omega) hD hp) (fun _ _ hf => hf) fun _ _ _ => trivial

/-! ## `munmap` -/

/-- Page `n` is mapped. -/
def Present (p n : ℕ) (s : FileSpace) : Prop := translate s.vm (pgdirOf p) (pageAddr n) ≠ none

instance (p n : ℕ) (s : FileSpace) : Decidable (Present p n s) :=
  inferInstanceAs (Decidable (_ ≠ _))

theorem present_iff (hd : PageDir s.vm (pgdirOf p) fr T) (hn : n < 2 ^ 36) :
    Present p n s ↔ pageAt s.vm T n ≠ none := by
  rw [Present, translate_ne_none hd, vpn_pageAddr hn]

/-- `munmap` of a whole mapping. -/
theorem wp_munmap {Q : ℤ → FileSpace → Prop} (hl : Laid s.vmas) (hv : v ∈ s.vmas) :
    wp (munmap p v.start v.length) Q E s ↔
      wp (writeback p v v.start (intOfU64 v.length.toNat)) (fun _ t =>
        wp (memory (uvmunmap (pgdirOf p) v.start (v.length / 0x1000) true)) (fun _ u => Q 0 u) E t) E s := by
  have hmap := hl.mapped v hv
  have hlt := hl.first_lt hv
  have hc : v.Covers v.start := by
    have hc := hmap.covers (i := 0) (by omega) hmap.pos
    rw [Nat.add_zero] at hc
    rw [hmap.start]
    exact hc
  obtain ⟨w, hw, hcw, hfind⟩ := find_covers ⟨v, hv, hc⟩
  obtain rfl := hl.unique hv hw hc hcw
  have hne : ¬ (v.start ≠ v.start ∧ v.start + v.length ≠ v.stop) := fun h => h.1 rfl
  rw [munmap, wp_bind, wp_get, hfind]
  dsimp only
  rw [if_neg hne, if_pos rfl]
  simp only [wp_bind, wp_pure]

/-- The last page, if the mapping does not fill it. -/
theorem Vma.pages_eq (v : Vma) : v.length.toNat / pageSize ≤ v.pages ∧
    (pageSize ∣ v.length.toNat ↔ v.pages = v.length.toNat / pageSize) := by
  unfold Vma.pages pageSize
  omega

theorem munmap_spec (hl : Laid s.vmas) (hv : v ∈ s.vmas)
    (hr : Resident s.vm (pgdirOf p) fr T S Region) (hu : ∀ ip, s.locked ip = false)
    (hp : ∀ n, v.first ≤ n → n < v.first + v.length.toNat / pageSize → pageAt s.vm T n ≠ none)
    (hs : Shared v → v.length.toNat ≤ inodeMaxBytes ∧ Filled s.vm T v v.length.toNat) :
    wp (munmap p v.start v.length) (fun r t => r = 0 ∧ ∃ fr' S',
      Resident t.vm (pgdirOf p) fr' T S' Region ∧
      (∀ n, v.first ≤ n → n < v.first + v.length.toNat / pageSize → pageAt t.vm T n = none) ∧
      ∀ n < 2 ^ 36, n < v.first ∨ v.first + v.length.toNat / pageSize ≤ n →
        pageAt t.vm T n = pageAt s.vm T n) E s := by
  have hmap := hl.mapped v hv
  have hlt := hl.first_lt hv
  have hle := v.pages_eq.1
  rw [wp_munmap hl hv]
  refine (writeback_spec hmap (by omega) hr.dir (hu _) (fun h => (hs h).2) fun h => (hs h).1).imp ?_
  rintro - t ⟨hvm, -, -⟩
  rw [hmap.start]
  refine (memory_uvmunmap_spec (hvm ▸ hr) length_div (by omega) (by omega)
    (fun n h1 h2 => hl.region hv h1 (by omega)) (hvm ▸ hp)).imp ?_
  rintro - u ⟨-, -, fr', S', hres, hnone, hsame⟩
  exact ⟨rfl, fr', S', hres, hnone, hvm ▸ hsame⟩

theorem munmap_stops (hl : Laid s.vmas) (hv : v ∈ s.vmas)
    (hr : Resident s.vm (pgdirOf p) fr T S Region) (hu : ∀ ip, s.locked ip = false)
    (h : (∃ n, v.first ≤ n ∧ n < v.first + v.length.toNat / pageSize ∧ pageAt s.vm T n = none) ∨
      Shared v ∧ ¬ (v.length.toNat ≤ inodeMaxBytes ∧ Filled s.vm T v v.length.toNat)) :
    wp (munmap p v.start v.length) (fun _ _ => False) (fun _ _ => True) s := by
  have hmap := hl.mapped v hv
  have hlt := hl.first_lt hv
  have hle := v.pages_eq.1
  rw [wp_munmap hl hv]
  by_cases hbad : Shared v ∧ ¬ (v.length.toNat ≤ inodeMaxBytes ∧ Filled s.vm T v v.length.toNat)
  · refine (writeback_stops hv hl hr (hu _) hbad.1 ?_).imp fun _ _ hf => hf.elim
    rw [not_and_or, not_le] at hbad
    exact hbad.2
  · have hok : Shared v → v.length.toNat ≤ inodeMaxBytes ∧ Filled s.vm T v v.length.toNat := by
      intro hs
      by_contra hn
      exact hbad ⟨hs, hn⟩
    refine (writeback_spec hmap (by omega) hr.dir (hu _) (fun h => (hok h).2) fun h => (hok h).1).imp ?_
    rintro - t ⟨hvm, -, -⟩
    rw [hmap.start]
    exact memory_uvmunmap_stops (hvm ▸ hr) length_div (by omega) (by omega)
      (fun n h1 h2 => hl.region hv h1 (by omega)) (hvm ▸ h.resolve_right hbad)

/-- None of its pages is mapped. -/
def Gone (p : ℕ) (v : Vma) (s : FileSpace) : Prop := ∀ n, v.Has n → ¬ Present p n s

/-- `munmap` of the whole mapping returns 0, and has removed it. -/
def Unmaps (p : ℕ) (v : Vma) (s : FileSpace) : Prop :=
  wp (munmap p v.start v.length) (fun r t => r = 0 ∧ Gone p v t) (fun _ _ => False) s

/-- All pages that the mapping fills are mapped, and no other. What is written back ends with a page,
    and is not longer than files get. -/
structure Unmappable (p : ℕ) (v : Vma) (s : FileSpace) : Prop where
  full : ∀ n, v.first ≤ n → n < v.first + v.length.toNat / pageSize → Present p n s
  part : ∀ n, v.first + v.length.toNat / pageSize ≤ n → n < v.first + v.pages → ¬ Present p n s
  shared : Shared v → pageSize ∣ v.length.toNat ∧ v.length.toNat ≤ inodeMaxBytes

theorem not_wp_of_stops {α : Type} {x : FileM α} {Q : α → FileSpace → Prop}
    (h : wp x (fun _ _ => False) (fun _ _ => True) s) : ¬ wp x Q (fun _ _ => False) s := by
  intro hx
  obtain ⟨a, t, hr, -⟩ := hx.total
  exact h.of_ok hr

theorem munmap_iff (h : s.Inv p) (hv : v ∈ s.vmas) : Unmaps p v s ↔ Unmappable p v s := by
  obtain ⟨fr, T, S, hr⟩ := h.resident
  have hlt := h.laid.first_lt hv
  obtain ⟨hle, hdvd⟩ := v.pages_eq
  have hpres : ∀ n, n < v.first + v.pages → (Present p n s ↔ pageAt s.vm T n ≠ none) := fun n hn =>
    present_iff hr.dir (by omega)
  constructor
  · intro hun
    have hfull : ∀ n, v.first ≤ n → n < v.first + v.length.toNat / pageSize →
        pageAt s.vm T n ≠ none := by
      intro n h1 h2 hnone
      exact not_wp_of_stops (munmap_stops h.laid hv hr h.unlocked (.inl ⟨n, h1, h2, hnone⟩)) hun
    have hshared : Shared v → v.length.toNat ≤ inodeMaxBytes ∧ Filled s.vm T v v.length.toNat := by
      intro hs
      by_contra hbad
      exact not_wp_of_stops (munmap_stops h.laid hv hr h.unlocked (.inr ⟨hs, hbad⟩)) hun
    have hspec := munmap_spec (E := fun _ _ => False) h.laid hv hr h.unlocked hfull hshared
    obtain ⟨r, t, hrun, -, hgone⟩ := hun.total
    obtain ⟨-, fr', S', hres, -, hsame⟩ := hspec.of_ok hrun
    have hpart : ∀ n, v.first + v.length.toNat / pageSize ≤ n → n < v.first + v.pages →
        ¬ Present p n s := by
      intro n h1 h2
      rw [hpres n h2, ← hsame n (by omega) (.inr h1), ← present_iff hres.dir (by omega)]
      exact hgone n ⟨(Nat.le_add_right _ _).trans h1, h2⟩
    refine ⟨fun n h1 h2 => (hpres n (by omega)).mpr (hfull n h1 h2), hpart, fun hs => ⟨?_, (hshared hs).1⟩⟩
    -- The last page is written back, so it is mapped.
    rw [hdvd]
    by_contra hne
    refine hpart (v.first + v.length.toNat / pageSize) le_rfl (by omega) ?_
    rw [hpres _ (by omega)]
    exact filled_iff.mp (hshared hs).2 _ (Nat.le_add_right _ _) (show _ < v.first + v.pages by omega)
  · rintro ⟨hfull, hpart, hshared⟩
    have hall : ∀ n, v.first ≤ n → n < v.first + v.length.toNat / pageSize → pageAt s.vm T n ≠ none :=
      fun n h1 h2 => (hpres n (by omega)).mp (hfull n h1 h2)
    refine (munmap_spec h.laid hv hr h.unlocked hall fun hs => ⟨(hshared hs).2, ?_⟩).imp ?_
    · refine filled_iff.mpr fun n h1 h2 => hall n h1 ?_
      rwa [← hdvd.mp (hshared hs).1]
    · rintro r t ⟨rfl, fr', S', hres, hnone, hsame⟩
      refine ⟨rfl, fun n hn hpn => ?_⟩
      obtain ⟨h1, h2⟩ := hn
      rw [present_iff hres.dir (by omega)] at hpn
      by_cases hlow : n < v.first + v.length.toNat / pageSize
      · exact hpn (hnone n h1 hlow)
      · rw [hsame n (by omega) (.inr (by omega)), ← hpres n h2] at hpn
        exact hpart n (by omega) h2 hpn

/-! ## `exit` -/

/-- All its pages are mapped, and what is written back is not longer than files get. -/
structure Removable (s : Vm) (T : Tree) (v : Vma) : Prop where
  full : ∀ n, v.Has n → pageAt s T n ≠ none
  shared : Shared v → v.length.toNat ≤ inodeMaxBytes

/-- Its pages are in the region. -/
structure Placed (v : Vma) : Prop extends Mapped v where
  region : ∀ n, v.first ≤ n → n < v.first + v.pages → Region n
  top : v.first + v.pages ≤ 2 ^ 25

theorem Laid.placed (h : Laid vs) (hv : v ∈ vs) : Placed v :=
  ⟨h.mapped v hv, fun _ h1 h2 => h.region hv h1 h2, (h.first_lt hv).trans (by decide)⟩

theorem exitVma_spec (hv : Placed v) (hr : Resident s.vm (pgdirOf p) fr T S Region)
    (hu : s.locked v.ip = false) (hok : Removable s.vm T v) :
    wp (exitVma p v) (fun _ t => t.vmas = s.vmas ∧ t.locked = s.locked ∧ ∃ fr' S',
      Resident t.vm (pgdirOf p) fr' T S' Region ∧ (∀ n, v.Has n → pageAt t.vm T n = none) ∧
      ∀ n < 2 ^ 36, ¬ v.Has n → pageAt t.vm T n = pageAt s.vm T n) E s := by
  have htop := hv.top
  rw [exitVma, wp_bind]
  refine (writeback_spec hv.toMapped (by omega) hr.dir hu
    (fun _ => filled_iff.mpr fun n h1 h2 => hok.full n ⟨h1, h2⟩) hok.shared).imp ?_
  rintro - t ⟨hvm, hvmas, hlocked⟩
  rw [hv.start]
  refine (memory_uvmunmap_spec (hvm ▸ hr) (length_roundup hv.length) (by omega) (by omega) hv.region
    (hvm ▸ fun n h1 h2 => hok.full n ⟨h1, h2⟩)).imp ?_
  rintro - u ⟨h1, h2, fr', S', hres, hnone, hsame⟩
  refine ⟨h1.trans hvmas, h2.trans hlocked, fr', S', hres, fun n hn => hnone n hn.1 hn.2, fun n hn hout => ?_⟩
  rw [hsame n hn ?_, hvm]
  rw [Vma.Has] at hout
  omega

theorem exitVma_stops (hv : Placed v) (hr : Resident s.vm (pgdirOf p) fr T S Region)
    (hs : ¬ Shared v) (hn : v.Has n) (hnone : pageAt s.vm T n = none) :
    wp (exitVma p v) (fun _ _ => False) (fun _ _ => True) s := by
  have htop := hv.top
  rw [exitVma, wp_bind, writeback_eq hv.toMapped (by omega), if_neg hs, wp_pure, hv.start]
  exact memory_uvmunmap_stops hr (length_roundup hv.length) (by omega) (by omega) hv.region
    ⟨n, hn.1, hn.2, hnone⟩

/-- The pages of the mappings behind a mapping are others. -/
theorem not_has_behind (hv : ∀ w ∈ v :: vs, Placed w)
    (ho : (v :: vs).Pairwise fun v w => v.first + v.pages ≤ w.first) (hw : w ∈ vs) (hn : w.Has n) :
    n < 2 ^ 36 ∧ ¬ v.Has n := by
  have h1 := (List.pairwise_cons.mp ho).1 w hw
  have h2 := (hv w (List.mem_cons_of_mem v hw)).top
  unfold Vma.Has at *
  omega

theorem exitVmas_spec (hr : Resident s.vm (pgdirOf p) fr T S Region) (hu : ∀ ip, s.locked ip = false)
    (hv : ∀ v ∈ vs, Placed v) (ho : vs.Pairwise fun v w => v.first + v.pages ≤ w.first)
    (hok : ∀ v ∈ vs, Removable s.vm T v) :
    wp (exitVmas p vs) (fun _ t => ∃ fr' S', Resident t.vm (pgdirOf p) fr' T S' Region ∧
      (∀ v ∈ vs, ∀ n, v.Has n → pageAt t.vm T n = none) ∧
      ∀ n < 2 ^ 36, (∀ v ∈ vs, ¬ v.Has n) → pageAt t.vm T n = pageAt s.vm T n) E s := by
  induction vs generalizing s fr S with
  | nil => exact wp_pure.mpr ⟨fr, S, hr, fun v hv => absurd hv List.not_mem_nil, fun _ _ _ => rfl⟩
  | cons v vs ih =>
    have hhead : v ∈ v :: vs := List.mem_cons_self
    have htail : ∀ w ∈ vs, w ∈ v :: vs := fun w hw => List.mem_cons_of_mem v hw
    rw [exitVmas, wp_bind]
    refine (exitVma_spec (hv v hhead) hr (hu _) (hok v hhead)).imp ?_
    rintro - t ⟨-, hlocked, fr', S', hres, hnone, hsame⟩
    rw [wp_bind, wp_modify]
    refine (ih (s := { t with vmas := cutVmas t.vmas }) hres (fun ip => hlocked ▸ hu ip)
      (fun w hw => hv w (htail w hw)) (List.pairwise_cons.mp ho).2
      fun w hw => ⟨fun n hn => ?_, (hok w (htail w hw)).shared⟩).imp ?_
    · obtain ⟨hn36, hout⟩ := not_has_behind hv ho hw hn
      dsimp only
      rw [hsame n hn36 hout]
      exact (hok w (htail w hw)).full n hn
    · rintro - u ⟨fr'', S'', hres', hnone', hsame'⟩
      refine ⟨fr'', S'', hres', fun w hw n hn => ?_, fun n hn hout => ?_⟩
      · rcases List.mem_cons.mp hw with rfl | hw
        · have hn36 : n < 2 ^ 36 := hn.2.trans_le ((hv w hhead).top.trans (by decide))
          rw [hsame' n hn36 fun x hx hxn => (not_has_behind hv ho hx hxn).2 hn]
          exact hnone n hn
        · exact hnone' w hw n hn
      · rw [hsame' n hn fun w hw => hout w (htail w hw)]
        exact hsame n hn (hout v hhead)

theorem exitVmas_stops (hr : Resident s.vm (pgdirOf p) fr T S Region) (hu : ∀ ip, s.locked ip = false)
    (hv : ∀ v ∈ vs, Placed v) (ho : vs.Pairwise fun v w => v.first + v.pages ≤ w.first)
    (hs : ∀ v ∈ vs, Shared v → Removable s.vm T v)
    (hnone : ∃ v ∈ vs, ∃ n, v.Has n ∧ pageAt s.vm T n = none) :
    wp (exitVmas p vs) (fun _ _ => False) (fun _ _ => True) s := by
  induction vs generalizing s fr S with
  | nil =>
    obtain ⟨v, hv, -⟩ := hnone
    exact absurd hv List.not_mem_nil
  | cons v vs ih =>
    have hhead : v ∈ v :: vs := List.mem_cons_self
    have htail : ∀ w ∈ vs, w ∈ v :: vs := fun w hw => List.mem_cons_of_mem v hw
    rw [exitVmas, wp_bind]
    by_cases hfirst : ∃ n, v.Has n ∧ pageAt s.vm T n = none
    · obtain ⟨n, hn, hnone⟩ := hfirst
      have hshared : ¬ Shared v := fun h => (hs v hhead h).full n hn hnone
      exact (exitVma_stops (hv v hhead) hr hshared hn hnone).imp fun _ _ hf => hf.elim
    · have hok : Removable s.vm T v :=
        ⟨fun n hn hnone => hfirst ⟨n, hn, hnone⟩, fun h => (hs v hhead h).shared h⟩
      refine (exitVma_spec (hv v hhead) hr (hu _) hok).imp ?_
      rintro - t ⟨-, hlocked, fr', S', hres, -, hsame⟩
      rw [wp_bind, wp_modify]
      refine ih (s := { t with vmas := cutVmas t.vmas }) hres (fun ip => hlocked ▸ hu ip)
        (fun w hw => hv w (htail w hw)) (List.pairwise_cons.mp ho).2
        (fun w hw h => ⟨fun n hn => ?_, (hs w (htail w hw) h).shared⟩) ?_
      · obtain ⟨hn36, hout⟩ := not_has_behind hv ho hw hn
        dsimp only
        rw [hsame n hn36 hout]
        exact (hs w (htail w hw) h).full n hn
      · obtain ⟨w, hw, n, hn, hnone⟩ := hnone
        rcases List.mem_cons.mp hw with rfl | hw
        · exact absurd ⟨n, hn, hnone⟩ hfirst
        · obtain ⟨hn36, hout⟩ := not_has_behind hv ho hw hn
          exact ⟨w, hw, n, hn, (hsame n hn36 hout).trans hnone⟩

/-- `exit` ends with none of the pages of the mappings mapped. -/
def Exits (p : ℕ) (s : FileSpace) : Prop :=
  wp (exit p) (fun _ t => ∀ v ∈ s.vmas, Gone p v t) (fun _ _ => False) s

theorem exit_spec (h : s.Inv p) (hok : ∀ v ∈ s.vmas, (∀ n, v.Has n → Present p n s) ∧
    (Shared v → v.length.toNat ≤ inodeMaxBytes)) : Exits p s := by
  obtain ⟨fr, T, S, hr⟩ := h.resident
  have hplaced : ∀ v ∈ s.vmas, Placed v := fun v hv => h.laid.placed hv
  have hlt : ∀ v ∈ s.vmas, ∀ n, v.Has n → n < 2 ^ 36 := fun v hv n hn =>
    hn.2.trans_le ((hplaced v hv).top.trans (by decide))
  rw [Exits, exit, wp_bind, wp_get]
  refine (exitVmas_spec hr h.unlocked hplaced h.laid.ordered fun v hv =>
    ⟨fun n hn => (present_iff hr.dir (hlt v hv n hn)).mp ((hok v hv).1 n hn), (hok v hv).2⟩).imp ?_
  rintro - t ⟨fr', S', hres, hnone, -⟩ v hv n hn hp
  exact (present_iff hres.dir (hlt v hv n hn)).mp hp (hnone v hv n hn)

/-- `exit` stops at a page that is not mapped, if all that is written back is there. -/
theorem exit_stops (h : s.Inv p) (hs : ∀ v ∈ s.vmas, Shared v →
      (∀ n, v.Has n → Present p n s) ∧ v.length.toNat ≤ inodeMaxBytes)
    (hnone : ∃ v ∈ s.vmas, ∃ n, v.Has n ∧ ¬ Present p n s) : ¬ Exits p s := by
  obtain ⟨fr, T, S, hr⟩ := h.resident
  have hplaced : ∀ v ∈ s.vmas, Placed v := fun v hv => h.laid.placed hv
  have hlt : ∀ v ∈ s.vmas, ∀ n, v.Has n → n < 2 ^ 36 := fun v hv n hn =>
    hn.2.trans_le ((hplaced v hv).top.trans (by decide))
  obtain ⟨v, hv, n, hn, hp⟩ := hnone
  rw [present_iff hr.dir (hlt v hv n hn), not_not] at hp
  apply not_wp_of_stops
  rw [exit, wp_bind, wp_get]
  exact exitVmas_stops hr h.unlocked hplaced h.laid.ordered (fun v hv hs' =>
    ⟨fun n hn => (present_iff hr.dir (hlt v hv n hn)).mp ((hs v hv hs').1 n hn), fun _ => (hs v hv hs').2⟩)
    ⟨v, hv, n, hn, hp⟩

/-! ## When mappings are removed -/

/-- The pages of a mapping are mapped, and it fills them. What is written back is not longer than files
    get. -/
structure Whole (p : ℕ) (s : FileSpace) (v : Vma) : Prop where
  full : ∀ n, v.Has n → Present p n s
  aligned : pageSize ∣ v.length.toNat
  shared : Shared v → v.length.toNat ≤ inodeMaxBytes

/-- After any calls of `mmap`, faults and stores, `munmap` of each mapping and `exit` remove what is
    mapped if and only if every page of every mapping has been touched. -/
theorem removal_iff (h₀ : s₀.Inv p) (hr : Run (FileSpace.step p) anyStep s₀ s) :
    (∀ v ∈ s.vmas, Unmaps p v s) ∧ Exits p s ↔ ∀ v ∈ s.vmas, Whole p s v := by
  have h := FileSpace.run_inv h₀ hr
  constructor
  · rintro ⟨hun, hexit⟩
    have hall : ∀ v ∈ s.vmas, Unmappable p v s := fun v hv => (munmap_iff h hv).mp (hun v hv)
    have hshared : ∀ v ∈ s.vmas, Shared v →
        (∀ n, v.Has n → Present p n s) ∧ v.length.toNat ≤ inodeMaxBytes := by
      intro v hv hs
      obtain ⟨hdvd, hmax⟩ := (hall v hv).shared hs
      rw [v.pages_eq.2] at hdvd
      exact ⟨fun n hn => (hall v hv).full n hn.1 (hdvd ▸ hn.2), hmax⟩
    have hfull : ∀ v ∈ s.vmas, ∀ n, v.Has n → Present p n s := by
      intro v hv n hn
      by_contra hp
      exact exit_stops h hshared ⟨v, hv, n, hn, hp⟩ hexit
    intro v hv
    refine ⟨hfull v hv, ?_, fun hs => (hshared v hv hs).2⟩
    -- `munmap` wants the last page away, and `exit` wants it there.
    rw [v.pages_eq.2]
    by_contra hne
    have hlast : v.Has (v.first + v.length.toNat / pageSize) := by
      have hle := v.pages_eq.1
      exact ⟨Nat.le_add_right _ _, by omega⟩
    exact (hall v hv).part _ le_rfl hlast.2 (hfull v hv _ hlast)
  · intro hw
    refine ⟨fun v hv => (munmap_iff h hv).mpr ?_, exit_spec h fun v hv => ⟨(hw v hv).full, (hw v hv).shared⟩⟩
    have hpages := v.pages_eq.2.mp (hw v hv).aligned
    refine ⟨fun n h1 h2 => (hw v hv).full n ⟨h1, hpages ▸ h2⟩, fun n h1 h2 => ?_, fun hs =>
      ⟨(hw v hv).aligned, (hw v hv).shared hs⟩⟩
    rw [hpages] at h2
    omega

/-- The process at `p` after `init_pgdir` and the steps of a list. The files are empty. -/
def fileSpaceAfter (p : ℕ) (as : List Event) : Option FileSpace :=
  match initPgdir (pgdirOf p) smallVm with
  | .ok _ v => exec (FileSpace.step p) ⟨v, [], fun _ => [], fun _ => false⟩ as
  | .error _ _ => none

theorem preserves_initPgdir {al : ℕ → Allocator} {pd : ℕ} : Preserves (Calm al) (initPgdir pd) := by
  refine preserves_kallocPage.bind fun q => ?_
  have hset : Preserves (Calm al) (setPt pd q) := preserves_modify fun _ h => h
  exact hset.bind fun _ => preserves_clearPage

theorem fileSpaceAfter_eq_some {as : List Event} (h : fileSpaceAfter p as = some s) :
    ∃ s₀ : FileSpace, s₀.Inv p ∧ s₀.vmas = [] ∧ Run (FileSpace.step p) anyStep s₀ s := by
  rw [fileSpaceAfter] at h
  split at h
  · next v hv =>
    obtain ⟨q, fr, -, hd, -⟩ := (initPgdir_spec smallVm_free).of_ok hv
    have hsmall : Calm smallVm.heap.allocators smallVm := ⟨rfl, by decide +kernel⟩
    have hcalm : Calm smallVm.heap.allocators v := (preserves_initPgdir smallVm hsmall).of_ok hv
    have hpage : ∀ n, pageAt v (rootTree q) n = none := fun n => pageAt_of_none slotOf_rootTree
    have hlist : ∀ i < numAllocators, (smallVm.heap.allocators i).freeList = 0 := by
      decide +kernel
    refine ⟨⟨v, [], fun _ => [], fun _ => false⟩, ⟨?_, fun _ => rfl, fr, rootTree q, [], ?_⟩, rfl, Run.of_exec h⟩
    · exact ⟨by simp, List.Pairwise.nil, by simp, by simp, Nat.zero_le _⟩
    · refine ⟨hd, ⟨fun _ => [], ?_, by simp, by simp, by simp⟩, hcalm.2, by simp, fun n hn => ?_, ?_, ?_, ?_⟩
      · intro i hi
        rw [hcalm.1, hlist i hi]
        rfl
      · unfold Region at hn
        omega
      · intro n q' _ hq
        rw [hpage] at hq
        cases hq
      · intro n x _ hx
        rw [slotOf_rootTree] at hx
        cases hx
      · intro n m q' _ _ hq
        rw [hpage] at hq
        cases hq
  · cases h

/-- Two pages of a shared mapping that have been touched. -/
theorem removal_touched : ∃ s₀ s : FileSpace, s₀.Inv 0xFFFF000000100000 ∧
    Run (FileSpace.step 0xFFFF000000100000) anyStep s₀ s ∧ (∃ v ∈ s.vmas, Shared v ∧ v.length = 0x2000) ∧
    (∀ v ∈ s.vmas, Unmaps 0xFFFF000000100000 v s) ∧ Exits 0xFFFF000000100000 s := by
  have h : (fileSpaceAfter 0xFFFF000000100000 [.mmap 0x2000 3 1 0, .fault 0x800000,
      .file 0 (List.replicate 0x1000 7), .fault 0x801fff]).map (fun s => decide ((∃ v ∈ s.vmas, Shared v) ∧
        (∀ v ∈ s.vmas, v.first = 0x800 ∧ v.length = 0x2000) ∧
        Present 0xFFFF000000100000 0x800 s ∧ Present 0xFFFF000000100000 0x801 s)) = some true := by
    decide +kernel
  obtain ⟨s, hs, hf⟩ := Option.map_eq_some_iff.mp h
  obtain ⟨⟨v, hv, hshared⟩, hall, h1, h2⟩ := of_decide_eq_true hf
  obtain ⟨s₀, h₀, -, hr⟩ := fileSpaceAfter_eq_some hs
  refine ⟨s₀, s, h₀, hr, ⟨v, hv, hshared, (hall v hv).2⟩, (removal_iff h₀ hr).mpr fun w hw => ?_⟩
  obtain ⟨hfirst, hlen⟩ := hall w hw
  have hpages : w.pages = 2 := by
    rw [Vma.pages, hlen]
    rfl
  refine ⟨fun n hn => ?_, ?_, fun _ => ?_⟩
  · rw [Vma.Has, hfirst, hpages] at hn
    obtain rfl | rfl : n = 0x800 ∨ n = 0x801 := by omega
    · exact h1
    · exact h2
  · rw [hlen]
    decide
  · rw [hlen]
    decide +kernel

/-- A process maps a page, and does not touch it. Neither `munmap` nor `exit` removes the mapping. -/
theorem exit_untouched_panics : ∃ s₀ s : FileSpace, s₀.Inv 0xFFFF000000100000 ∧ s₀.vmas = [] ∧
    Run (FileSpace.step 0xFFFF000000100000) anyStep s₀ s ∧ (∃ v ∈ s.vmas, v.length = 0x1000) ∧
    wp (exit 0xFFFF000000100000) (fun _ _ => False) (fun e _ => e = .panic) s ∧
    (∀ v ∈ s.vmas, wp (munmap 0xFFFF000000100000 v.start v.length) (fun _ _ => False)
      (fun e _ => e = .panic) s) ∧
    ¬ ((∀ v ∈ s.vmas, Unmaps 0xFFFF000000100000 v s) ∧ Exits 0xFFFF000000100000 s) := by
  have h : (fileSpaceAfter 0xFFFF000000100000 [.mmap 0x1000 3 2 0]).map (fun s => decide (
      (∃ v ∈ s.vmas, v.length = 0x1000) ∧
      wp (exit 0xFFFF000000100000) (fun _ _ => False) (fun e _ => e = .panic) s ∧
      ∀ v ∈ s.vmas, wp (munmap 0xFFFF000000100000 v.start v.length) (fun _ _ => False)
        (fun e _ => e = .panic) s)) = some true := by
    decide +kernel
  obtain ⟨s, hs, hf⟩ := Option.map_eq_some_iff.mp h
  obtain ⟨hlen, hexit, hun⟩ := of_decide_eq_true hf
  obtain ⟨s₀, h₀, hvmas, hr⟩ := fileSpaceAfter_eq_some hs
  refine ⟨s₀, s, h₀, hvmas, hr, hlen, hexit, hun, fun hok => ?_⟩
  exact not_wp_of_stops (wp_mono hexit (fun _ _ hf => hf) fun _ _ _ => trivial) hok.2

end ShikiOS.Kernel.Paging
