import ShikiOS.Kernel.ExecStack

/-!
# Successful runs of `execve` (`kernel/exec.c`)

Results:
* `commit_spec`: the old directory is freed, and the process has the new one.
* `execve_stack`: what is on the stack of the new program, and when it gets its stack pointer.
-/

namespace ShikiOS.Kernel.Exec

open ShikiOS.Lib Paging
open Kalloc (zeroHeap)

variable {c : Call} {s t u : State} {v : Vm} {m₀ : ℕ → UInt8} {fr fr₀ : List ℕ} {T T₀ : Tree} {pgdir pd top : ℕ}
  {sp entry : UInt64} {file str : List UInt8} {l argv envp : List (List UInt8)} {ps qs ws : List UInt64}

/-! ## The new directory -/

/-- The new directory maps nothing, and the old one is saved. -/
structure Started (c : Call) (s : State) (fr₀ : List ℕ) (pgdir : ℕ) (t : State) : Prop where
  ne_ttbr0 : pgdir ≠ ttbr0
  ne_saved : c.saved ≠ pgdir
  ne_proc : pgdirOf c.proc ≠ pgdir
  saved : t.vm.pt c.saved = s.vm.pt (pgdirOf c.proc)
  frame : t.frame = s.frame
  nested : t.nested = s.nested
  image : ∃ fr T, Image s.vm.heap.mem {q | q ∈ fr₀} t.vm pgdir fr T ∧ ∀ n, slotOf T n = none

theorem newPgdir_started (hf : FreeList s.vm.heap fr₀) : wlp (newPgdir c) (Started c s fr₀) s := by
  rw [newPgdir, wlp, wp_bind, wp_memory, wp_copyPgdir, wp_bind]
  refine kalloc_spec fun hne => ?_
  rw [wp_bind, wp_memory]
  refine wp_mono (initPgdir_spec hf) ?_ fun _ _ _ => trivial
  rintro - w ⟨q, fr, rfl, hdir, hpt, -, -, hmem⟩
  have hsaved := c.saved_ne.2.2 s.blocks
  rw [wp_bind]
  refine kalloc_spec fun _ => ?_
  refine wp_pure.mpr ⟨hne, hsaved, c.proc_ne s.blocks, ?_, rfl, rfl, fr, rootTree q, ?_, fun _ => slotOf_rootTree⟩
  · dsimp only
    rw [hpt, Function.update_of_ne hsaved]
    exact Function.update_self ..
  · have hnone : ∀ n, pageAt w (rootTree q) n = none := fun n => pageAt_of_none slotOf_rootTree
    refine ⟨hdir, fun a ha => List.mem_cons_of_mem q ha, hmem, fun p a ha => ?_, fun n a _ ha => ?_,
      fun n m a _ _ ha _ => ?_⟩
    · rw [(rootTree_eq_some ha).2]
      exact List.mem_cons_self
    · rw [hnone] at ha
      cases ha
    · rw [hnone] at ha
      cases ha

/-! ## The new memory -/

/-- The tables of the old directory are as they were. -/
theorem Image.oldDir {s₀ : Vm} (h : Image s₀.heap.mem {q | q ∈ fr₀} v pgdir fr T) (hd : PageDir s₀ pd fr₀ T₀)
    {a : ℕ} (ha : v.pt a = s₀.pt pd) : PageDir v a fr T₀ := by
  refine ⟨h.dir.free, hd.tables.frame (fun q hq => h.free q hq) fun x p _ hx => h.mem x fun hm => ?_, ?_⟩
  · exact hd.tables.used p _ hx hm
  · rw [ha]
    exact hd.root

/-- The tables of the old directory are freed, and the new memory is as it was. -/
theorem freeOld_spec {s₀ : Vm} {a : ℕ} {E : Paging.Stop → Vm → Prop} (h : Image s₀.heap.mem {q | q ∈ fr₀} v pgdir fr T)
    (hd : PageDir s₀ pd fr₀ T₀) (ha : v.pt a = s₀.pt pd) (hne : pgdir ≠ a) :
    wp (freePgdir a) (fun _ w => (∃ fr', PageDir w pgdir fr' T) ∧ ∀ k < 2 ^ 48, byteAt w T k = byteAt v T k) E v := by
  refine (freePgdir_spec (Image.oldDir h hd ha)).imp ?_
  rintro - w ⟨l, hf, -, hl, hpt⟩
  -- No page of the new image is a table of the old one.
  have hnot : ∀ q ∈ fr₀, q ∉ l := by
    intro q hq hm
    obtain ⟨p, hp⟩ := (hl q).mp hm
    exact hd.tables.used p q hp hq
  have htable : ∀ p q, T p = some q → q ∉ l.reverse ++ fr := by
    intro p q hq hm
    rcases List.mem_append.mp hm with hm | hm
    · exact hnot q (h.table p q hq) (List.mem_reverse.mp hm)
    · exact h.dir.tables.used p q hq hm
  have hmem : ∀ x p, T p = some (pageBase x) → w.heap.mem x = v.heap.mem x := by
    intro x p hx
    exact hf.mem x (hnot _ (h.table p _ hx)) (h.dir.tables.used p _ hx)
  have ht := h.dir.tables
  have hroot : w.pt pgdir = v.pt pgdir := by rw [hpt, Function.update_of_ne hne]
  refine ⟨⟨l.reverse ++ fr, hf.free, ⟨ht.page, htable, ht.inj, ht.short, ht.parent, ?_⟩, ?_⟩, fun k hk => ?_⟩
  · intro p q i hq hp hi
    rw [← ht.entry p q i hq hp hi]
    exact word_entry_congr (ht.page p q hq).aligned hi fun x hx => hmem x p (hx ▸ hq)
  · rw [hroot]
    exact h.dir.root
  · refine byteAt_congr (pageAt_frame ht _ hmem) fun q y hq hy => ?_
    obtain ⟨hF, hfr, -⟩ := h.page _ q (by omega) hq
    exact hf.mem y (hy ▸ hnot q hF) (hy ▸ hfr)

/-- The process gets the new directory, and the frame if it is still the one of the system call. -/
theorem commit_spec {s₀ : Vm} {E : Paging.Stop → State → Prop} (h : Loading s₀.heap.mem {q | q ∈ fr₀} c pgdir s fr T)
    (hd : PageDir s₀ (pgdirOf c.proc) fr₀ T₀) (hsaved : s.vm.pt c.saved = s₀.pt (pgdirOf c.proc)) :
    wp (commit c pgdir entry sp) (fun _ t => (∃ fr', PageDir t.vm (pgdirOf c.proc) fr' T) ∧
      (∀ k < 2 ^ 48, byteAt t.vm T k = byteAt s.vm T k) ∧
      t.frame = if s.nested = false then ⟨entry, sp⟩ else s.frame) E s := by
  have hpt : Function.update s.vm.pt (pgdirOf c.proc) (s.vm.pt pgdir) = s.vm.pt := by
    rw [← h.proc]
    exact Function.update_eq_self ..
  have hfree (E : Paging.Stop → Vm → Prop) := freeOld_spec (E := E) (h.image.congr h.proc) hd hsaved c.saved_ne.1.symm
  rw [commit, wp_bind, wp_memory, wp_copyPgdir, hpt, wp_bind, wp_get]
  refine wp.ite (fun hn => ?_) fun hn => ?_
  · rw [wp_bind, wp_modify, wp_memory]
    refine (hfree _).imp fun _ w hw => ⟨hw.1, hw.2, ?_⟩
    rw [if_pos hn]
  · rw [wp_memory]
    refine (hfree _).imp fun _ w hw => ⟨hw.1, hw.2, ?_⟩
    rw [if_neg hn]

/-! ## The stack of the new program -/

/-- The process reads the string at `p`, with its terminator. -/
def UserString (v : Vm) (pd : ℕ) (p : UInt64) (str : List UInt8) : Prop :=
  ∀ i ≤ str.length, userByte v pd (p + UInt64.ofNat i) = (str ++ [0])[i]?

/-- The number of the arguments, the pointers `ps` to them and `qs` to the environment, and the strings,
    which lie above, each below the one before. -/
structure InitialStack (v : Vm) (pd : ℕ) (sp : UInt64) (argv envp : List (List UInt8)) (ps qs : List UInt64) :
    Prop where
  aligned : sp.toNat % 16 = 0
  words : ∀ i < ps.length + qs.length + 3, userWord v pd (sp + 8 * UInt64.ofNat i) =
    (UInt64.ofNat argv.length :: (ps ++ (0 :: (qs ++ [0]))))[i]?
  args : List.Forall₂ (UserString v pd) ps argv
  envs : List.Forall₂ (UserString v pd) qs envp
  top : sp.toNat + 8 * (ps.length + qs.length + 3) ≤ userTop.toNat
  above : ∀ x ∈ (ps ++ qs).zip (argv ++ envp), sp.toNat + 8 * (ps.length + qs.length + 3) ≤ x.1.toNat ∧
    x.1.toNat + (x.2.length + 1) ≤ userTop.toNat
  apart : ((ps ++ qs).zip (argv ++ envp)).Pairwise fun x y => y.1.toNat + (y.2.length + 1) ≤ x.1.toNat

theorem HasWords.get {a i : ℕ} {x : UInt64} (h : HasWords v T a ws) (hi : ws[i]? = some x) :
    HasBytes v T (a + 8 * i) (wordBytes x) := by
  induction ws generalizing a i with
  | nil =>
    rw [List.getElem?_nil] at hi
    cases hi
  | cons y ws ih =>
    cases i with
    | zero =>
      rw [List.getElem?_cons_zero, Option.some.injEq] at hi
      exact hi ▸ h.1
    | succ i =>
      rw [List.getElem?_cons_succ] at hi
      rw [show a + 8 * (i + 1) = a + 8 + 8 * i by omega]
      exact ih h.2 hi

theorem HasBytes.userString {p : UInt64} (hd : PageDir v pd fr T) (h : HasBytes v T p.toNat (str ++ [0]))
    (htop : p.toNat + (str.length + 1) ≤ 2 ^ 48) : UserString v pd p str := by
  intro i hi
  have hlen : i < (str ++ [0]).length := by
    rw [List.length_append, List.length_singleton]
    omega
  have hp : (p + UInt64.ofNat i).toNat = p.toNat + i := by
    rw [UInt64.toNat_add, UInt64.toNat_ofNat']
    omega
  rw [userByte_eq hd (by omega), hp, h i hlen, List.getD_eq_getElem?_getD, List.getElem?_eq_getElem hlen,
    Option.getD_some]

theorem HasStrings.userStrings (hd : PageDir v pd fr T) (h : HasStrings v T top l) (hsize : stringsSize l ≤ top)
    (htop : top ≤ 2 ^ 48) : List.Forall₂ (UserString v pd) (addrs top l) l := by
  induction l generalizing top with
  | nil => exact .nil
  | cons str l ih =>
    rw [stringsSize] at hsize
    have hp : (UInt64.ofNat (top - (str.length + 1))).toNat = top - (str.length + 1) := by
      rw [UInt64.toNat_ofNat']
      omega
    refine .cons (HasBytes.userString hd ?_ (by omega)) (ih h.2 (by omega) (by omega))
    rw [hp]
    exact h.1

/-- The strings lie where they should. -/
theorem addrs_within (hsize : stringsSize l ≤ top) (htop : top ≤ 2 ^ 48) : ∀ x ∈ (addrs top l).zip l,
    top - stringsSize l ≤ x.1.toNat ∧ x.1.toNat + (x.2.length + 1) ≤ top := by
  induction l generalizing top with
  | nil => exact fun x hx => absurd hx List.not_mem_nil
  | cons str l ih =>
    rw [stringsSize] at hsize ⊢
    rw [addrs, List.zip_cons_cons, List.forall_mem_cons]
    have hp : (UInt64.ofNat (top - (str.length + 1))).toNat = top - (str.length + 1) := by
      rw [UInt64.toNat_ofNat']
      omega
    refine ⟨?_, fun x hx => ?_⟩
    · dsimp only
      omega
    · have := ih (by omega) (by omega) x hx
      omega

theorem addrs_apart (hsize : stringsSize l ≤ top) (htop : top ≤ 2 ^ 48) :
    ((addrs top l).zip l).Pairwise fun x y => y.1.toNat + (y.2.length + 1) ≤ x.1.toNat := by
  induction l generalizing top with
  | nil => exact .nil
  | cons str l ih =>
    rw [stringsSize] at hsize
    have hp : (UInt64.ofNat (top - (str.length + 1))).toNat = top - (str.length + 1) := by
      rw [UInt64.toNat_ofNat']
      omega
    refine .cons (fun y hy => ?_) (ih (by omega) (by omega))
    dsimp only
    rw [hp]
    exact (addrs_within (by omega) (by omega) y hy).2

theorem initialStack_of (hd : PageDir v pd fr T) (hfit : Fits argv envp) (hsp : sp.toNat = initialSp argv envp)
    (hwords : HasWords v T (initialSp argv envp) (stackWords argv envp))
    (hstrs : HasStrings v T (2 ^ 48) (argv ++ envp)) :
    InitialStack v pd sp argv envp (addrs (2 ^ 48) argv) (addrs (2 ^ 48 - stringsSize argv) envp) := by
  obtain ⟨-, hroom, hbottom, h16, -⟩ := hfit.layout
  have hsize : stringsSize (argv ++ envp) = stringsSize argv + stringsSize envp := stringsSize_append
  have htop : userTop.toNat = 2 ^ 48 := rfl
  obtain ⟨hargv, henvp⟩ := hasStrings_append.mp hstrs
  have hlen : (stackWords argv envp).length = argv.length + envp.length + 3 := by
    simp only [stackWords, List.length_cons, List.length_append, addrs_length, List.length_nil]
    omega
  refine ⟨by omega, fun i hi => ?_, hargv.userStrings hd (by omega) le_rfl,
    henvp.userStrings hd (by omega) (by omega), ?_, fun x hx => ?_, ?_⟩
  · rw [addrs_length, addrs_length, ← hlen] at hi
    have hx := List.getElem?_eq_getElem hi
    have hva : (sp + 8 * UInt64.ofNat i).toNat = initialSp argv envp + 8 * i := by
      rw [UInt64.toNat_add, UInt64.toNat_mul, UInt64.toNat_ofNat', hsp]
      show (initialSp argv envp + 8 * (i % 2 ^ 64) % 2 ^ 64) % 2 ^ 64 = _
      omega
    refine (userWord_eq hd (by omega) (by omega) ?_).trans hx.symm
    rw [hva]
    exact hwords.get hx
  · rw [addrs_length, addrs_length]
    omega
  · rw [← addrs_append] at hx
    rw [addrs_length, addrs_length]
    have := addrs_within (by omega) le_rfl x hx
    unfold stringsBottom at hroom
    omega
  · rw [← addrs_append]
    exact addrs_apart (by omega) le_rfl

/-! ## The run -/

/-- The new directory while the file is loaded. -/
structure Loaded (c : Call) (s : State) (fr₀ : List ℕ) (pgdir : ℕ) (fr : List ℕ) (T : Tree) (u : State) : Prop
    extends Loading s.vm.heap.mem {q | q ∈ fr₀} c pgdir u fr T where
  ne_ttbr0 : pgdir ≠ ttbr0
  ne_saved : c.saved ≠ pgdir
  saved : u.vm.pt c.saved = s.vm.pt (pgdirOf c.proc)

theorem bad_negative {ip : Bool} : wlp (bad c pgdir ip) (fun r _ => r = -1) s := by
  have hend : ∀ u, wlp (do memory (copyPgdir (pgdirOf c.proc) c.saved); return -1 : X ℤ) (fun r _ => r = -1) u :=
    fun u => wlp_after fun _ _ => wp_pure.mpr rfl
  refine wlp_after fun _ _ => wp.ite (fun _ => ?_) fun _ => hend _
  exact wlp_after fun _ _ => wlp_after fun _ u => hend u

/-- The segments are loaded to a directory that maps nothing. -/
theorem loadElf_rule {L : State → Prop} (ht : Started c s fr₀ pgdir t)
    (hload : ∀ n off u fr T, segmentsFrom file n off = segments file → Loaded c s fr₀ pgdir fr T u →
      (∀ m, slotOf T m = none) → u.nested = s.nested → u.frame = s.frame →
      wlp (loadSegments c pgdir file n off 0 true) (fun r w => r = true → L w) u) :
    wlp (loadElf c pgdir file) (fun r w => r ≠ none → L w) t := by
  rw [loadElf]
  cases hb : readFile file 0 elfHeaderSize with
  | none => exact wp_throw.mpr trivial
  | some bytes =>
    refine wp.ite (fun _ => wp_pure.mpr fun h => absurd rfl h) fun _ =>
      wp.ite (fun _ => wp_pure.mpr fun h => absurd rfl h) fun _ => ?_
    obtain ⟨fr, T, himage, hnone⟩ := ht.image
    have hseg : segmentsFrom file (ElfHeader.decode bytes).phnum (UInt64.ofNat (ElfHeader.decode bytes).phoff) =
        segments file := by rw [segments, hb]
    have hproc : pgdirOf c.proc ≠ pgdir := ht.ne_proc
    have hL : Loaded c s fr₀ pgdir fr T { t with
        vm := { t.vm with pt := Function.update t.vm.pt (pgdirOf c.proc) (t.vm.pt pgdir) } } := by
      refine ⟨⟨himage.setPt hproc.symm, fun m x _ hx => ?_, ?_⟩, ht.ne_ttbr0, ht.ne_saved, ?_⟩
      · rw [hnone] at hx
        cases hx
      · dsimp only
        rw [Function.update_self, Function.update_of_ne hproc.symm]
      · dsimp only
        rw [Function.update_of_ne c.saved_ne.1]
        exact ht.saved
    rw [wp_bind, wp_memory, wp_copyPgdir, wp_bind]
    refine (hload _ _ _ fr T hseg hL hnone ht.nested ht.frame).imp fun r w hw => ?_
    cases r with
    | true => exact wp_pure.mpr fun _ => hw rfl
    | false => exact wp_pure.mpr fun h => absurd rfl h

/-- What `execve` does before it commits (exec.c:24-139): the new directory, and the entry and the stack
    pointer, if the file can be loaded. -/
def prepare (c : Call) (file : List UInt8) (argv envp : List (List UInt8)) : X (ℕ × Option (UInt64 × UInt64)) := do
  let pgdir ← newPgdir c
  beginOp
  openInode
  match ← loadElf c pgdir file with
  | none => return (pgdir, none)
  | some entry =>
    closeInode
    endOp
    let sp ← buildStack c pgdir (argv.take maxArg) (envp.take maxArg)
    return (pgdir, some (entry, sp))

/-- What it does then. -/
def finish (c : Call) (pgdir : ℕ) : Option (UInt64 × UInt64) → X ℤ
  | none => bad c pgdir true
  | some x => do
    commit c pgdir x.1 x.2
    return 0

theorem execve_eq (hfile : c.file = some file) :
    execve c argv envp = prepare c file argv envp >>= fun x => finish c x.1 x.2 := by
  rw [execve, prepare, hfile]
  simp only [bind_assoc]
  refine bind_congr fun pgdir => bind_congr fun _ => bind_congr fun _ => bind_congr fun r => ?_
  cases r with
  | none => rw [pure_bind, finish]
  | some entry => simp only [bind_assoc, pure_bind, finish]

/-- A call that succeeds commits what it has prepared. -/
theorem execve_rule {Q : State → Prop} (hfile : c.file = some file)
    (h : wlp (prepare c file argv envp) (fun x u => ∀ e, x.2 = some e →
      wlp (commit c x.1 e.1 e.2) (fun _ t => Q t) u) s) :
    wlp (execve c argv envp) (fun r t => r = 0 → Q t) s := by
  rw [execve_eq hfile, wlp, wp_bind]
  refine h.imp fun x u hu => ?_
  cases hx : x.2 with
  | none =>
    refine bad_negative.imp fun r t hr h0 => ?_
    rw [hr] at h0
    exact absurd h0 (by decide)
  | some e =>
    rw [finish, wp_bind]
    exact (hu e hx).imp fun _ t ht => wp_pure.mpr fun _ => ht

/-- It succeeds if it can be prepared and committed. -/
theorem execve_total {Q : State → Prop} (hfile : c.file = some file)
    (h : wp (prepare c file argv envp) (fun x u => ∃ e, x.2 = some e ∧
      wp (commit c x.1 e.1 e.2) (fun _ t => Q t) (fun _ _ => False) u) (fun _ _ => False) s) :
    wp (execve c argv envp) (fun r t => r = 0 ∧ Q t) (fun _ _ => False) s := by
  rw [execve_eq hfile, wp_bind]
  refine h.imp ?_
  rintro x u ⟨e, hx, hu⟩
  rw [hx, finish, wp_bind]
  exact hu.imp fun _ t ht => wp_pure.mpr ⟨rfl, ht⟩

/-- The segments are loaded, and the stack is built. -/
theorem prepare_rule {L : ℕ → State → Prop} {R : ℕ → UInt64 → State → Prop} (hf : FreeList s.vm.heap fr₀)
    (hload : ∀ pgdir n off u fr T, segmentsFrom file n off = segments file → Loaded c s fr₀ pgdir fr T u →
      (∀ m, slotOf T m = none) → u.nested = s.nested → u.frame = s.frame →
      wlp (loadSegments c pgdir file n off 0 true) (fun r w => r = true → L pgdir w) u)
    (hbuild : ∀ pgdir w o r k, L pgdir w → wlp (buildStack c pgdir (argv.take maxArg) (envp.take maxArg))
      (R pgdir) { w with ops := o, refs := r, locked := k }) :
    wlp (prepare c file argv envp) (fun x u => ∀ e, x.2 = some e → R x.1 e.2 u) s := by
  rw [prepare, wlp, wp_bind]
  refine (newPgdir_started hf).imp fun pgdir u hu => ?_
  rw [beginOp, wp_bind, wp_modify, openInode, wp_bind, wp_modify, wp_bind]
  have hstart : Started c s fr₀ pgdir { u with ops := u.ops + 1, refs := u.refs + 1, locked := true } :=
    ⟨hu.ne_ttbr0, hu.ne_saved, hu.ne_proc, hu.saved, hu.frame, hu.nested, hu.image⟩
  refine (loadElf_rule hstart fun n off => hload pgdir n off).imp fun r w hw => ?_
  cases r with
  | none => exact wp_pure.mpr fun e he => by cases he
  | some entry =>
    rw [closeInode, endOp, wp_bind, wp_modify, wp_bind, wp_modify, wp_bind]
    refine (hbuild pgdir w (w.ops - 1) (w.refs - 1) false (hw (Option.some_ne_none entry))).imp fun sp x hx => ?_
    refine wp_pure.mpr fun e he => ?_
    obtain rfl := Option.some.inj he
    exact hx

/-- The new memory before `execve` commits. -/
structure Built (c : Call) (s : State) (fr₀ : List ℕ) (argv envp : List (List UInt8)) (pgdir : ℕ) (sp : UInt64)
    (fr : List ℕ) (T : Tree) (u : State) : Prop extends Loaded c s fr₀ pgdir fr T u where
  sp_eq : sp.toNat = initialSp argv envp
  words : HasWords u.vm T (initialSp argv envp) (stackWords argv envp)
  strings : HasStrings u.vm T (2 ^ 48) (argv ++ envp)

theorem build_spec (h : Loaded c s fr₀ pgdir fr T u) (hfit : Fits argv envp) (hnul : ∀ str ∈ argv ++ envp, 0 ∉ str) :
    wlp (buildStack c pgdir argv envp) (fun sp t => ∃ fr' T', Built c s fr₀ argv envp pgdir sp fr' T' t ∧
      t.nested = u.nested ∧ t.frame = u.frame ∧
      ∀ k r, k < stackBottom argv envp → byteAt u.vm T k = some r → byteAt t.vm T' k = some r) u := by
  have hkeep : Preserves (fun w : State => w.frame = u.frame) (buildStack c pgdir argv envp) :=
    preserves_buildStack (fun _ _ h => h) fun _ h => h
  refine wp_mono (wp.and (buildStack_spec h.toLoading h.ne_ttbr0 hfit hnul) (hkeep u rfl)) ?_ fun _ _ h => h.1
  rintro sp t ⟨⟨hsp, fr', T', ht, hwords, hstrs, hn, hpt, hbytes⟩, hframe⟩
  have hsaved : t.vm.pt c.saved = s.vm.pt (pgdirOf c.proc) := (hpt _ c.saved_ne.2.1).trans h.saved
  exact ⟨fr', T', ⟨⟨ht, h.ne_ttbr0, h.ne_saved, hsaved⟩, hsp, hwords, hstrs⟩, hn, hframe, hbytes⟩

/-- The stack of the program that is committed. -/
theorem Built.stack (h : Built c s fr₀ argv envp pgdir sp fr T u) (hfit : Fits argv envp)
    (hd : PageDir v pd fr' T) (hbyte : ∀ k < 2 ^ 48, byteAt v T k = byteAt u.vm T k) :
    InitialStack v pd sp argv envp (addrs (2 ^ 48) argv) (addrs (2 ^ 48 - stringsSize argv) envp) := by
  obtain ⟨hlow, hroom, hbottom, -⟩ := hfit.layout
  have hsize : stringsSize (argv ++ envp) = stringsSize argv + stringsSize envp := stringsSize_append
  have hlen : (stackWords argv envp).length = argv.length + envp.length + 3 := by
    simp only [stackWords, List.length_cons, List.length_append, addrs_length, List.length_nil]
    omega
  refine initialStack_of hd hfit h.sp_eq (h.words.mono fun k r _ hk hr => ?_) (h.strings.mono (by omega) fun k r _ hk hr => ?_)
  · rw [hbyte k (by omega)]
    exact hr
  · rw [hbyte k hk]
    exact hr

/-- The strings, the pointers and the stack fit below `USERTOP`, and the image of the program lies below
    them. -/
def ImageBelow (file : List UInt8) (argv envp : List (List UInt8)) : Prop :=
  Fits argv envp ∧ ∀ ph ∈ segments file, ph.vaddr + ph.memsz ≤ stackBottom argv envp

theorem nul_take (hnul : ∀ str ∈ argv ++ envp, 0 ∉ str) : ∀ str ∈ argv.take maxArg ++ envp.take maxArg, 0 ∉ str := by
  intro str hstr
  refine hnul str ?_
  rw [List.mem_append] at hstr ⊢
  exact hstr.imp List.mem_of_mem_take List.mem_of_mem_take

/-- The memory is built in any case, and without a fault if the segments are in place. -/
theorem prepare_built (hf : FreeList s.vm.heap fr₀) (hn : s.nested = false)
    (hbelow : ImageBelow file (argv.take maxArg) (envp.take maxArg)) (hnul : ∀ str ∈ argv ++ envp, 0 ∉ str) :
    wlp (prepare c file argv envp) (fun x u => ∀ e, x.2 = some e → u.frame = s.frame ∧
      (u.nested = false ↔ InPlace none (fun _ => False) (segments file)) ∧
      ∃ fr T, Built c s fr₀ (argv.take maxArg) (envp.take maxArg) x.1 e.2 fr T u) s := by
  obtain ⟨hfit, hbelow⟩ := hbelow
  obtain ⟨hlow, hroom, hbottom, -⟩ := hfit.layout
  refine prepare_rule (L := fun pgdir w => (w.nested = false ↔ InPlace none (fun _ => False) (segments file)) ∧
    w.frame = s.frame ∧ ∃ fr T, Loaded c s fr₀ pgdir fr T w)
    (R := fun pgdir sp u => u.frame = s.frame ∧ (u.nested = false ↔ InPlace none (fun _ => False) (segments file)) ∧
      ∃ fr T, Built c s fr₀ (argv.take maxArg) (envp.take maxArg) pgdir sp fr T u) hf ?_ ?_
  · intro pgdir n off u fr T hseg hu hnone hnu hframe
    have hun : Unfaulted s.vm.heap.mem {q | q ∈ fr₀} c pgdir (fun _ => False) u fr T := by
      refine ⟨hu.toLoading, fun m _ => ?_, hnu.trans hn⟩
      rw [pageAt_of_none (hnone m)]
      exact iff_of_false (fun h => h rfl) id
    have hstable : Stable c.saved fun w => w.vm.pt c.saved = s.vm.pt (pgdirOf c.proc) ∧ w.frame = s.frame :=
      ⟨fun w v hw hv => ⟨hv.trans hw.1, hw.2⟩, fun w hw => hw⟩
    have hload := loadSegments_inPlace hun hu.ne_ttbr0 fun ph hph => by
      have := hbelow ph (hseg ▸ hph)
      omega
    rw [hseg] at hload
    refine wp_mono (wp.and hload (hstable.loadSegments hu.ne_saved u ⟨hu.saved, hframe⟩)) ?_ fun _ _ _ => trivial
    rintro r w ⟨hw, hsaved, hframe⟩ hr
    obtain ⟨hiff, fr', T', hl⟩ := hw hr
    exact ⟨hiff, hframe, fr', T', hl, hu.ne_ttbr0, hu.ne_saved, hsaved⟩
  · rintro pgdir w o r k ⟨hiff, hframe, fr, T, hw⟩
    have hw' : Loaded c s fr₀ pgdir fr T { w with ops := o, refs := r, locked := k } :=
      ⟨⟨hw.image, hw.plain, hw.proc⟩, hw.ne_ttbr0, hw.ne_saved, hw.saved⟩
    refine (build_spec hw' hfit (nul_take hnul)).imp ?_
    rintro sp u ⟨fr', T', hu, hnu, hfu, -⟩
    refine ⟨hfu.trans hframe, ?_, fr', T', hu⟩
    rw [hnu]
    exact hiff

/-- What is prepared for the file is there in the end. -/
theorem execve_runs {x : UInt64 × UInt64} {P : State → Prop} (hd : PageDir s.vm (pgdirOf c.proc) fr₀ T₀)
    (hn : s.nested = false) (hfile : c.file = some file)
    (hbelow : ImageBelow file (argv.take maxArg) (envp.take maxArg)) (hnul : ∀ str ∈ argv ++ envp, 0 ∉ str)
    (hprep : wp (prepare c file argv envp) (fun y u => y = (pgdir, some x) ∧ P u) (fun _ _ => False) s) :
    ∃ t u fr fr' T, execve c argv envp s = .ok 0 t ∧ P u ∧
      Built c s fr₀ (argv.take maxArg) (envp.take maxArg) pgdir x.2 fr T u ∧
      PageDir t.vm (pgdirOf c.proc) fr' T ∧ (∀ k < 2 ^ 48, byteAt t.vm T k = byteAt u.vm T k) ∧
      t.frame = if u.nested = false then ⟨x.1, x.2⟩ else s.frame := by
  let Q (t : State) : Prop := ∃ u fr fr' T, P u ∧
    Built c s fr₀ (argv.take maxArg) (envp.take maxArg) pgdir x.2 fr T u ∧
    PageDir t.vm (pgdirOf c.proc) fr' T ∧ (∀ k < 2 ^ 48, byteAt t.vm T k = byteAt u.vm T k) ∧
    t.frame = if u.nested = false then ⟨x.1, x.2⟩ else s.frame
  have hrun : wp (execve c argv envp) (fun r t => r = 0 ∧ Q t) (fun _ _ => False) s := by
    refine execve_total hfile (wp_mono (wp.and hprep (prepare_built hd.free hn hbelow hnul)) ?_ fun _ _ h => h.1)
    rintro - u ⟨⟨rfl, hp⟩, hu⟩
    obtain ⟨hframe, -, fr, T, hb⟩ := hu x rfl
    refine ⟨x, rfl, (commit_spec hb.toLoading hd hb.saved).imp ?_⟩
    rintro - t ⟨⟨fr', hdir⟩, hbyte, hft⟩
    rw [hframe] at hft
    exact ⟨u, fr, fr', T, hp, hb, hdir, hbyte, hft⟩
  obtain ⟨-, t, ht, rfl, u, fr, fr', T, h⟩ := hrun.total
  exact ⟨t, u, fr, fr', T, ht, h⟩

/-- A machine with 18 free pages, which hold old data. -/
def dirtyVm : Vm where
  heap := Heap.kinit { zeroHeap with mem := fun _ => 0xFF } (physTop - 18 * pageSize)
  pt := fun _ => 0
  taken := []
  freed := []

def dirtyPages : List ℕ := (List.range 18).map fun i => physTop - pageSize - i * pageSize

theorem dirtyVm_free : FreeList dirtyVm.heap dirtyPages := by
  have hchain : Chain dirtyVm.heap.link dirtyVm.heap.freePages dirtyPages := by
    decide +kernel
  have hpage : ∀ q ∈ dirtyPages, (pageSize ∣ q ∧ q ≠ 0 ∧ q + pageSize ≤ 2 ^ 64) ∧ kernelBase ≤ q := by
    decide +kernel
  exact ⟨⟨hchain, fun q hq => ⟨(hpage q hq).1.1, (hpage q hq).1.2.1, (hpage q hq).1.2.2⟩,
    by decide +kernel⟩, rfl, fun q hq => (hpage q hq).2⟩

/-- The process has an empty page directory. -/
def dirtyState : State := { smallState with
  vm := match initPgdir (pgdirOf 0xFFFF000000200000) dirtyVm with
    | .ok _ v => v
    | .error _ v => v }

theorem dirtyState_dir : ∃ fr T, PageDir dirtyState.vm (pgdirOf 0xFFFF000000200000) fr T ∧ fr ⊆ dirtyPages := by
  have hinit : wp (initPgdir (pgdirOf 0xFFFF000000200000)) (fun _ _ => True) (fun _ _ => False) dirtyVm := by
    decide +kernel
  obtain ⟨⟨⟩, v, hv, -⟩ := hinit.total
  obtain ⟨q, fr, hfr, hd, -⟩ := (initPgdir_spec dirtyVm_free).of_ok hv
  have hvm : dirtyState.vm = v := by rw [dirtyState, hv]
  refine ⟨fr, rootTree q, hvm ▸ hd, ?_⟩
  rw [hfr]
  exact List.subset_cons_self q fr

/-- A file with one segment, which has four bytes. -/
def oneSegment (vaddr memsz : ℕ) : List UInt8 := fileOf 128 [(0, 4, 0x464c457f), (24, 8, vaddr), (32, 8, 64),
  (56, 2, 1), (64, 4, 1), (72, 8, 120), (80, 8, vaddr), (96, 8, 4), (104, 8, memsz), (120, 8, 0x1122334455667788)]

/-- The segment is found, and lies below the stack. -/
theorem oneSegment_below {vaddr memsz : ℕ} (hfit : Fits argv envp)
    (h : (segments (oneSegment vaddr memsz)).map (fun ph => (ph.offset, ph.vaddr, ph.filesz, ph.memsz)) =
      [(120, vaddr, 4, memsz)]) (hle : vaddr + memsz ≤ stackBottom argv envp) :
    ImageBelow (oneSegment vaddr memsz) argv envp ∧ ∃ ph, segments (oneSegment vaddr memsz) = [ph] ∧
      ph.offset = 120 ∧ ph.vaddr = vaddr ∧ ph.filesz = 4 ∧ ph.memsz = memsz := by
  obtain ⟨ph, hseg, hph⟩ := List.map_eq_singleton_iff.mp h
  rw [Prod.mk.injEq, Prod.mk.injEq, Prod.mk.injEq] at hph
  refine ⟨⟨hfit, ?_⟩, ph, hseg, hph⟩
  rw [hseg, List.forall_mem_singleton, hph.2.1, hph.2.2.2]
  exact hle

/-- The segment starts at a page, and has bytes behind those of the file. -/
def alignedFile : List UInt8 := oneSegment 0x400000 32

theorem alignedFile_below : ImageBelow alignedFile ([[97]].take maxArg) ([[]].take maxArg) ∧
    ∃ ph, segments alignedFile = [ph] ∧ ph.offset = 120 ∧ ph.vaddr = 0x400000 ∧ ph.filesz = 4 ∧ ph.memsz = 32 := by
  have hfit : Fits [[97]] [[]] := by
    unfold Fits
    decide
  have hbottom : stackBottom ([[97]].take maxArg) ([[]].take maxArg) = 0xFFFFFFFF8000 := rfl
  exact oneSegment_below hfit (by decide +kernel) (by omega)

/-- It is loaded, and page 0x400 keeps its old data. -/
theorem alignedFile_prepared : wp (prepare (smallCall (some alignedFile)) alignedFile [[97]] [[]])
    (fun x u => x = (0xFFFF000000400040, some (0x400000, 0xFFFFFFFFFFC0)) ∧
      userByte u.vm 0xFFFF000000400040 0x400010 = some 0xFF) (fun _ _ => False) dirtyState := by
  decide +kernel

/-- The segment does not start at a page. -/
def unalignedFile : List UInt8 := oneSegment 0x400010 4

theorem unalignedFile_below : ImageBelow unalignedFile ([].take maxArg) ([].take maxArg) ∧
    ∃ ph, segments unalignedFile = [ph] ∧ ph.offset = 120 ∧ ph.vaddr = 0x400010 ∧ ph.filesz = 4 ∧ ph.memsz = 4 := by
  have hfit : Fits [] [] := by
    unfold Fits
    decide
  have hbottom : stackBottom ([].take maxArg) ([].take maxArg) = 0xFFFFFFFF8000 := rfl
  exact oneSegment_below hfit (by decide +kernel) (by omega)

/-- It is loaded with a fault. Page 2 is not mapped. -/
theorem unalignedFile_prepared : wp (prepare (smallCall (some unalignedFile)) unalignedFile [] [])
    (fun x u => x = (0xFFFF000000400040, some (0x400010, 0xFFFFFFFFFFE0)) ∧ u.nested = true ∧
      translate u.vm 0xFFFF000000400040 0x2000 = none) (fun _ _ => False) dirtyState := by
  decide +kernel

/-- After a call that succeeds the arguments and the environment are on the stack that was built. If all
    segments were in place, the program starts on it. Else there was a fault, and the program goes on
    where it was, with the stack pointer that it had. -/
theorem execve_stack (hd : PageDir s.vm (pgdirOf c.proc) fr₀ T₀) (hn : s.nested = false)
    (hfile : c.file = some file) (hbelow : ImageBelow file (argv.take maxArg) (envp.take maxArg))
    (hnul : ∀ str ∈ argv ++ envp, 0 ∉ str) :
    wlp (execve c argv envp) (fun r t => r = 0 → ∃ sp ps qs,
      InitialStack t.vm (pgdirOf c.proc) sp (argv.take maxArg) (envp.take maxArg) ps qs ∧
      (InPlace none (fun _ => False) (segments file) → t.frame.sp = sp) ∧
      (¬ InPlace none (fun _ => False) (segments file) → t.frame = s.frame)) s := by
  refine execve_rule hfile ((prepare_built hd.free hn hbelow hnul).imp ?_)
  intro x u hu e he
  obtain ⟨hframe, hiff, fr, T, hb⟩ := hu e he
  refine (commit_spec hb.toLoading hd hb.saved).imp ?_
  rintro - t ⟨⟨fr', hdir⟩, hbyte, hft⟩
  refine ⟨e.2, _, _, hb.stack hbelow.1 hdir hbyte, fun hp => ?_, fun hp => ?_⟩
  · rw [hft, if_pos (hiff.mpr hp)]
  · rw [hft, if_neg fun h => hp (hiff.mp h)]
    exact hframe

/-- With an argument, and an empty variable. -/
theorem execve_stack_args : ∃ t, execve (smallCall (some alignedFile)) [[97]] [[]] dirtyState = .ok 0 t ∧
    ∃ ps qs, InitialStack t.vm (pgdirOf 0xFFFF000000200000) t.frame.sp [[97]] [[]] ps qs := by
  obtain ⟨fr, T, hd, -⟩ := dirtyState_dir
  obtain ⟨hbelow, ph, hseg, -, hva, hsize, hmem⟩ := alignedFile_below
  have hn : dirtyState.nested = false := rfl
  have hfile : (smallCall (some alignedFile)).file = some alignedFile := rfl
  have hnul : ∀ str ∈ [[(97 : UInt8)]] ++ [[]], 0 ∉ str := by decide
  have hrun := execve_runs hd hn hfile hbelow hnul alignedFile_prepared
  obtain ⟨t, -, -, -, -, ht, -⟩ := hrun
  obtain ⟨sp, ps, qs, hstack, hplace, -⟩ := (execve_stack hd hn hfile hbelow hnul).of_ok ht rfl
  refine ⟨t, ht, ps, qs, ?_⟩
  have hstart : startOf ph = 0x400000 := by
    rw [startOf, hva]
    rfl
  have hstop : stopOf ph = 0x400020 := by
    rw [stopOf, hstart, hmem]
    rfl
  rw [hplace]
  · exact hstack
  · rw [hseg]
    refine ⟨fun k h1 h2 => .inr ?_, trivial⟩
    rw [hva] at h1 h2
    rw [hsize] at h2
    rw [Option.getD_none, hstart, hstop]
    show 0x400 ≤ k / 2 ^ 12 ∧ k / 2 ^ 12 < 0x401
    omega

/-- The program goes on with the stack pointer of the old one, where nothing is mapped. -/
theorem execve_keeps_sp : ∃ t, execve (smallCall (some unalignedFile)) [] [] dirtyState = .ok 0 t ∧
    t.frame = dirtyState.frame ∧
    ¬ ∃ ps qs, InitialStack t.vm (pgdirOf 0xFFFF000000200000) t.frame.sp [] [] ps qs := by
  obtain ⟨fr, T, hd, -⟩ := dirtyState_dir
  have hn : dirtyState.nested = false := rfl
  have hfile : (smallCall (some unalignedFile)).file = some unalignedFile := rfl
  have hnul : ∀ str ∈ ([] ++ [] : List (List UInt8)), 0 ∉ str := fun str hstr => absurd hstr List.not_mem_nil
  have hrun := execve_runs hd hn hfile unalignedFile_below.1 hnul unalignedFile_prepared
  obtain ⟨t, u, fr₁, fr₂, T', ht, ⟨hnested, htrans⟩, hb, hdir, hbyte, hframe⟩ := hrun
  rw [hnested, if_neg Bool.noConfusion] at hframe
  refine ⟨t, ht, hframe, ?_⟩
  rintro ⟨ps, qs, h⟩
  -- Freeing the old tables maps nothing.
  have hpage : pageAt u.vm T' (vpn 0x2000) = none := by
    rwa [translate_eq hb.image.dir, Option.map_eq_none_iff] at htrans
  have hnone : byteAt t.vm T' 0x2000 = none := by
    rw [hbyte _ (by decide), byteAt, Option.map_eq_none_iff]
    exact hpage
  have hdir' : PageDir t.vm (pgdirOf 0xFFFF000000200000) fr₂ T' := hdir
  have hpage' : pageAt t.vm T' (vpn 0x2000) = none := by
    rwa [byteAt, Option.map_eq_none_iff] at hnone
  have hsp : t.frame.sp + 8 * UInt64.ofNat 0 = 0x2000 := by
    rw [hframe]
    rfl
  have hword := h.words 0 (Nat.succ_pos _)
  rw [hsp, userWord, translate_eq hdir', hpage'] at hword
  cases hword

end ShikiOS.Kernel.Exec
