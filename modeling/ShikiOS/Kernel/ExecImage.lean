import ShikiOS.Kernel.ExecRun

/-!
# The image of the new program (`kernel/exec.c`)

The size that `execve` keeps between two segments goes through the `int` that `uvmalloc` returns. When it
comes back wrong, either nothing more is mapped, or more pages than there are.

Results:
* `SegmentLoaded.others`: a segment leaves the bytes of those before it.
* `execve_loads`: the bytes of the file are there, and zeros behind them if there are none.
-/

namespace ShikiOS.Kernel.Exec

open ShikiOS.Lib Paging

variable {c : Call} {s t : State} {v : Vm} {m₀ : ℕ → UInt8} {F : Set ℕ} {fr fr' fr₀ : List ℕ} {T T' T₀ : Tree}
  {pgdir pd last a : ℕ} {old stop : UInt64} {file l : List UInt8} {ph : ProgramHeader}
  {argv envp : List (List UInt8)}

/-! ## The size between two segments -/

/-- A size that was an `int`. -/
def WasInt (sz : UInt64) : Prop := sz.toNat < 2 ^ 31 ∨ 2 ^ 64 - 2 ^ 31 ≤ sz.toNat

/-- The size lies behind the last segment, or it lost some of its upper bits. -/
def Behind (last : ℕ) (sz : UInt64) : Prop := last ≤ sz.toNat ∨ sz.toNat + 2 ^ 32 ≤ last

theorem ofInt_intOf {x : UInt64} : (UInt64.ofInt (intOf x)).toNat =
    if x.toNat % 2 ^ 32 < 2 ^ 31 then x.toNat % 2 ^ 32 else 2 ^ 64 - 2 ^ 32 + x.toNat % 2 ^ 32 := by
  rw [intOf, UInt64.ofInt, UInt64.toNat_ofNat']
  split_ifs
  · omega
  · omega

theorem nextSize_wasInt : WasInt (nextSize old stop) := by
  rw [WasInt, nextSize, ofInt_intOf]
  split_ifs
  all_goals omega

theorem nextSize_behind (h : old ≤ stop ∨ WasInt old) (hstop : stop.toNat ≤ 2 ^ 48) :
    Behind stop.toNat (nextSize old stop) := by
  have hold : ¬ stop < old → old.toNat ≤ stop.toNat := fun h => UInt64.le_iff_toNat_le.mp (UInt64.not_lt.mp h)
  have hlt64 := old.toNat_lt
  rw [Behind, nextSize, ofInt_intOf]
  by_cases hlt : stop < old
  · have hold' := h.resolve_left (UInt64.not_le.mpr hlt)
    rw [UInt64.lt_iff_toNat_lt] at hlt
    rw [WasInt] at hold'
    rw [if_pos (UInt64.lt_iff_toNat_lt.mpr hlt)]
    split_ifs
    all_goals omega
  · rw [if_neg hlt]
    split_ifs
    all_goals omega

/-! ## Bytes that stay -/

/-- The free pages lie below `PHYSTOP`. -/
def Physical (fr : List ℕ) : Prop := ∀ q ∈ fr, q < physTop

/-- There are at most `2^19` of them. -/
theorem Physical.length_le {h : Heap} (hp : Physical fr) (hf : FreeList h fr) : fr.length ≤ 2 ^ 19 := by
  have hnum : ∀ q ∈ fr, q = kernelBase + (q - kernelBase) / pageSize * pageSize ∧
      (q - kernelBase) / pageSize < 2 ^ 19 := by
    intro q hq
    have hk := hf.kernelPage hq
    have hbase := hk.base
    have htop := hp q hq
    obtain ⟨n, hn⟩ := hk.aligned
    unfold kernelBase physTop pageSize at *
    omega
  have hinj : (fr.map fun q => (q - kernelBase) / pageSize).Nodup := by
    refine hf.pages.nodup.map_on fun a ha b hb hab => ?_
    rw [(hnum a ha).1, (hnum b hb).1, hab]
  have hsub : (fr.map fun q => (q - kernelBase) / pageSize) ⊆ List.range (2 ^ 19) := by
    intro n hn
    obtain ⟨q, hq, rfl⟩ := List.mem_map.mp hn
    exact List.mem_range.mpr (hnum q hq).2
  have hle := (hinj.subperm hsub).length_le
  rwa [List.length_map, List.length_range] at hle

/-- What was loaded below stays: no page of it is mapped again. -/
theorem SegmentLoaded.others {n : ℕ} (h : SegmentLoaded m₀ F c pgdir file ph old s fr T t fr' T')
    (hlen : fr.length ≤ 2 ^ 19) (htop : ph.vaddr + ph.memsz ≤ 2 ^ 48) (hlast : last ≤ ph.vaddr)
    (hold : Behind last old) (hl : HasBytes s.vm T n l) (hn : n + l.length ≤ last) : HasBytes t.vm T' n l := by
  have hstop := stopOf_toNat htop
  have hcount := h.count
  refine hl.mono fun k r h1 h2 hr => h.byte k r (by omega) (fun hin => ?_) (by omega) hr
  unfold Behind at hold
  unfold pageUp at *
  omega

/-! ## The bytes of the segments -/

/-- What the process should read of a segment: the bytes of the file, and zeros behind them. -/
structure HasSegment (v : Vm) (pd : ℕ) (file : List UInt8) (ph : ProgramHeader) : Prop where
  bytes : ∀ i < ph.filesz, userByte v pd (UInt64.ofNat (ph.vaddr + i)) = file[ph.offset + i]?
  zeros : ∀ i, ph.filesz ≤ i → i < ph.memsz → userByte v pd (UInt64.ofNat (ph.vaddr + i)) = some 0

/-- The bytes of the file are in the memory. -/
structure Copied (v : Vm) (T : Tree) (file : List UInt8) (ph : ProgramHeader) : Prop where
  size : ph.filesz ≤ ph.memsz
  length : ((file.drop ph.offset).take ph.filesz).length = ph.filesz
  bytes : HasBytes v T ph.vaddr ((file.drop ph.offset).take ph.filesz)

theorem Copied.mono {w : Vm} (h : Copied v T file ph)
    (hk : ∀ k r, k < ph.vaddr + ph.filesz → byteAt v T k = some r → byteAt w T' k = some r) :
    Copied w T' file ph := by
  refine ⟨h.size, h.length, h.bytes.mono fun k r _ h2 => hk k r ?_⟩
  rwa [h.length] at h2

theorem Copied.userByte (hd : PageDir v pd fr T) (h : Copied v T file ph) (htop : ph.vaddr + ph.memsz ≤ 2 ^ 48) :
    ∀ i < ph.filesz, Paging.userByte v pd (UInt64.ofNat (ph.vaddr + i)) = file[ph.offset + i]? := by
  intro i hi
  have hsize := h.size
  have hva : (UInt64.ofNat (ph.vaddr + i)).toNat = ph.vaddr + i := by
    rw [UInt64.toNat_ofNat']
    omega
  have hlt : i < ((file.drop ph.offset).take ph.filesz).length := by rwa [h.length]
  rw [userByte_eq hd (by omega), hva, h.bytes i hlt, List.getD_eq_getElem?_getD, List.getElem?_eq_getElem hlt,
    Option.getD_some, List.getElem_take, List.getElem_drop, List.getElem?_eq_getElem]

/-- The loop copies the bytes of all segments, if they are in order. -/
theorem loadSegments_copies {n : ℕ} {off : UInt64} (h : Loaded c s fr₀ pgdir fr T t) (hf : FreeList s.vm.heap fr₀)
    (hp : Physical fr₀)
    (htop : ∀ ph ∈ segmentsFrom file n off, ph.vaddr + ph.memsz ≤ 2 ^ 48)
    (hasc : (segmentsFrom file n off).Pairwise fun p q => p.vaddr + p.memsz ≤ q.vaddr) :
    wlp (loadSegments c pgdir file n off 0 true) (fun r u => r = true → ∃ fr' T',
      Loading s.vm.heap.mem {q | q ∈ fr₀} c pgdir u fr' T' ∧
      ∀ ph ∈ segmentsFrom file n off, Copied u.vm T' file ph) t := by
  -- The segments up to the address `last` are loaded.
  let I (phs : List ProgramHeader) (sz : UInt64) (f : Bool) (u : State) : Prop := ∃ fr' T' last,
    Loading s.vm.heap.mem {q | q ∈ fr₀} c pgdir u fr' T' ∧
    (∀ ph ∈ segmentsFrom file n off, ph ∈ phs ∨ Copied u.vm T' file ph ∧ ph.vaddr + ph.memsz ≤ last) ∧
    (∀ ph ∈ phs, last ≤ ph.vaddr ∧ ph.vaddr + ph.memsz ≤ 2 ^ 48) ∧
    phs.Pairwise (fun p q => p.vaddr + p.memsz ≤ q.vaddr) ∧
    (if f then last = 0 else WasInt sz ∧ Behind last sz)
  refine loadSegments_wp I (fun t h => by cases h) ?_ ?_
    ⟨fr, T, 0, h.toLoading, fun ph hph => .inl hph, fun ph hph => ⟨Nat.zero_le _, htop ph hph⟩, hasc, rfl⟩
  · rintro sz f u ⟨fr', T', last, hu, hall, -⟩ -
    exact ⟨fr', T', hu, fun ph hph => ((hall ph hph).resolve_left List.not_mem_nil).1⟩
  · rintro ph phs sz f u ⟨fr', T', last, hu, hall, hin, hasc, hsz⟩
    obtain ⟨⟨hlast, hph⟩, hin⟩ := List.forall_mem_cons.mp hin
    obtain ⟨hnext, hasc⟩ := List.pairwise_cons.mp hasc
    have hstart := startOf_toNat hph
    have hstop := stopOf_toNat hph
    have hlen : fr'.length ≤ 2 ^ 19 :=
      ((hu.image.dir.free.pages.nodup.subperm hu.image.free).length_le).trans (hp.length_le hf)
    obtain ⟨old, hold⟩ : ∃ old, old = if f then startOf ph else sz := ⟨_, rfl⟩
    have hbehind : Behind last old ∧ (old ≤ stopOf ph ∨ WasInt old) := by
      cases f with
      | true =>
        obtain rfl : last = 0 := hsz
        rw [hold, if_pos rfl]
        refine ⟨.inl (Nat.zero_le _), .inl ?_⟩
        rw [UInt64.le_iff_toNat_le]
        omega
      | false =>
        obtain ⟨hint, hb⟩ : WasInt sz ∧ Behind last sz := hsz
        rw [hold, if_neg Bool.false_ne_true]
        exact ⟨hb, .inr hint⟩
    refine (loadSegment_spec hu h.ne_ttbr0 hph hold).imp ?_
    rintro r w hw sz' rfl
    obtain ⟨rfl, fr'', T'', hw⟩ := hw sz' rfl
    have hcopied : Copied w.vm T'' file ph := ⟨hw.size, hw.length, hw.bytes⟩
    have hb := nextSize_behind hbehind.2 (by omega)
    rw [hstop] at hb
    refine ⟨fr'', T'', ph.vaddr + ph.memsz, hw.toLoading, fun p hp => ?_, fun p hp => ⟨hnext p hp, (hin p hp).2⟩,
      hasc, nextSize_wasInt, hb⟩
    rcases hall p hp with hmem | ⟨hc, hle⟩
    · rcases List.mem_cons.mp hmem with rfl | hmem
      · exact .inr ⟨hcopied, le_rfl⟩
      · exact .inl hmem
    · have hsize := hc.size
      have hl := hc.length
      exact .inr ⟨⟨hsize, hl, hw.others hlen hph hlast hbehind.1 hc.bytes (by omega)⟩, by omega⟩

/-- The bytes of the segments are in the memory that is built. -/
theorem prepare_copied (hf : FreeList s.vm.heap fr₀) (hp : Physical fr₀)
    (hasc : (segments file).Pairwise fun p q => p.vaddr + p.memsz ≤ q.vaddr)
    (hbelow : ImageBelow file (argv.take maxArg) (envp.take maxArg)) (hnul : ∀ str ∈ argv ++ envp, 0 ∉ str) :
    wlp (prepare c file argv envp) (fun x u => ∀ e, x.2 = some e → ∃ fr T,
      Built c s fr₀ (argv.take maxArg) (envp.take maxArg) x.1 e.2 fr T u ∧
      ∀ ph ∈ segments file, Copied u.vm T file ph) s := by
  obtain ⟨hfit, hbelow⟩ := hbelow
  obtain ⟨hlow, hroom, hbottom, -⟩ := hfit.layout
  refine prepare_rule (L := fun pgdir w => ∃ fr T, Loaded c s fr₀ pgdir fr T w ∧
      ∀ ph ∈ segments file, Copied w.vm T file ph)
    (R := fun pgdir sp u => ∃ fr T, Built c s fr₀ (argv.take maxArg) (envp.take maxArg) pgdir sp fr T u ∧
      ∀ ph ∈ segments file, Copied u.vm T file ph) hf ?_ ?_
  · intro pgdir n off u fr T hseg hu hnone hnu hframe
    have hstable : Stable c.saved fun w => w.vm.pt c.saved = s.vm.pt (pgdirOf c.proc) :=
      ⟨fun w v hw hv => hv.trans hw, fun w hw => hw⟩
    have hload := loadSegments_copies hu hf hp (fun ph hph => ?_) (hseg ▸ hasc)
    · rw [hseg] at hload
      refine wp_mono (wp.and hload (hstable.loadSegments hu.ne_saved u hu.saved)) ?_ fun _ _ _ => trivial
      rintro r w ⟨hw, hsaved⟩ hr
      obtain ⟨fr', T', hl, hc⟩ := hw hr
      exact ⟨fr', T', ⟨hl, hu.ne_ttbr0, hu.ne_saved, hsaved⟩, hc⟩
    · have := hbelow ph (hseg ▸ hph)
      omega
  · rintro pgdir w o r k ⟨fr, T, hw, hc⟩
    have hw' : Loaded c s fr₀ pgdir fr T { w with ops := o, refs := r, locked := k } :=
      ⟨⟨hw.image, hw.plain, hw.proc⟩, hw.ne_ttbr0, hw.ne_saved, hw.saved⟩
    refine (build_spec hw' hfit (nul_take hnul)).imp ?_
    rintro sp u ⟨fr', T', hu, -, -, hkept⟩
    refine ⟨fr', T', hu, fun ph hph => (hc ph hph).mono fun k r hk hr => ?_⟩
    have hsize := (hc ph hph).size
    have := hbelow ph hph
    exact hkept k r (by omega) hr

/-- After a call that succeeds the bytes of the file are in the memory, if the segments are in order and
    lie below the stack. Nothing clears what is behind them. -/
theorem execve_loads (hd : PageDir s.vm (pgdirOf c.proc) fr₀ T₀) (hp : Physical fr₀) (hfile : c.file = some file)
    (hasc : (segments file).Pairwise fun p q => p.vaddr + p.memsz ≤ q.vaddr)
    (hbelow : ImageBelow file (argv.take maxArg) (envp.take maxArg)) (hnul : ∀ str ∈ argv ++ envp, 0 ∉ str) :
    wlp (execve c argv envp) (fun r t => r = 0 → ∀ ph ∈ segments file,
      (∀ i < ph.filesz, userByte t.vm (pgdirOf c.proc) (UInt64.ofNat (ph.vaddr + i)) = file[ph.offset + i]?) ∧
      (ph.memsz = ph.filesz → HasSegment t.vm (pgdirOf c.proc) file ph)) s := by
  refine execve_rule hfile ((prepare_copied hd.free hp hasc hbelow hnul).imp fun x u hu e he => ?_)
  obtain ⟨fr, T, hb, hc⟩ := hu e he
  refine (commit_spec hb.toLoading hd hb.saved).imp ?_
  rintro - t ⟨⟨fr', hdir⟩, hbyte, -⟩ ph hph
  have hsize := (hc ph hph).size
  have htop : ph.vaddr + ph.memsz ≤ 2 ^ 48 := by
    have := hbelow.2 ph hph
    obtain ⟨hlow, hroom, hbottom, -⟩ := hbelow.1.layout
    omega
  have hcopied : Copied t.vm T file ph := (hc ph hph).mono fun k r hk hr => by
    rw [hbyte k (by omega)]
    exact hr
  have hbytes := hcopied.userByte hdir htop
  refine ⟨hbytes, fun hbss => ⟨hbytes, fun i h1 h2 => ?_⟩⟩
  omega

/-- A segment without bytes behind those of the file. -/
theorem execve_loads_segment : ∃ t, execve (smallCall (some unalignedFile)) [] [] dirtyState = .ok 0 t ∧
    ∀ ph ∈ segments unalignedFile, HasSegment t.vm (pgdirOf 0xFFFF000000200000) unalignedFile ph := by
  obtain ⟨fr, T, hd, hsub⟩ := dirtyState_dir
  obtain ⟨hbelow, ph, hseg, -, -, hsize, hmem⟩ := unalignedFile_below
  have hn : dirtyState.nested = false := rfl
  have hfile : (smallCall (some unalignedFile)).file = some unalignedFile := rfl
  have hnul : ∀ str ∈ ([] ++ [] : List (List UInt8)), 0 ∉ str := fun str hstr => absurd hstr List.not_mem_nil
  have hpages : ∀ q ∈ dirtyPages, q < physTop := by decide +kernel
  have hp : Physical fr := fun q hq => hpages q (hsub hq)
  have hasc : (segments unalignedFile).Pairwise fun p q => p.vaddr + p.memsz ≤ q.vaddr := by
    rw [hseg]
    exact List.pairwise_singleton ..
  have hrun := execve_runs hd hn hfile hbelow hnul unalignedFile_prepared
  obtain ⟨t, -, -, -, -, ht, -⟩ := hrun
  have hloads := (execve_loads hd hp hfile hasc hbelow hnul).of_ok ht rfl
  refine ⟨t, ht, ?_⟩
  rw [hseg, List.forall_mem_singleton] at hloads ⊢
  exact hloads.2 (hmem.trans hsize.symm)

/-- What was in the page before is behind the bytes of the file. -/
theorem execve_keeps_data : ∃ t, execve (smallCall (some alignedFile)) [[97]] [[]] dirtyState = .ok 0 t ∧
    userByte t.vm (pgdirOf 0xFFFF000000200000) 0x400010 = some 0xFF ∧
    ∃ ph ∈ segments alignedFile, ¬ HasSegment t.vm (pgdirOf 0xFFFF000000200000) alignedFile ph := by
  obtain ⟨fr, T, hd, -⟩ := dirtyState_dir
  obtain ⟨hbelow, ph, hseg, -, hva, hsize, hmem⟩ := alignedFile_below
  have hn : dirtyState.nested = false := rfl
  have hfile : (smallCall (some alignedFile)).file = some alignedFile := rfl
  have hnul : ∀ str ∈ [[(97 : UInt8)]] ++ [[]], 0 ∉ str := by decide
  have hrun := execve_runs hd hn hfile hbelow hnul alignedFile_prepared
  obtain ⟨t, u, fr₁, fr₂, T', ht, hdata, hb, hdir, hbyte, -⟩ := hrun
  have hdir' : PageDir t.vm (pgdirOf 0xFFFF000000200000) fr₂ T' := hdir
  have hend : userByte t.vm (pgdirOf 0xFFFF000000200000) 0x400010 = some 0xFF := by
    rw [userByte_eq hb.image.dir (by decide)] at hdata
    rw [userByte_eq hdir' (by decide), hbyte _ (by decide)]
    exact hdata
  refine ⟨t, ht, hend, ph, hseg ▸ List.mem_singleton_self ph, fun h => ?_⟩
  have hzero := h.zeros 16 (by omega) (by omega)
  rw [hva] at hzero
  exact absurd (hend.symm.trans hzero) (by decide)

end ShikiOS.Kernel.Exec
