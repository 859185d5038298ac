import Mathlib
import ShikiOS.Kernel.SysRun
import ShikiOS.Lib.Linked

/-!
# The mappings of the processes (`kernel/sysfile.c`, `kernel/proc.c`)

Every process has a list of mappings through the slots of `vma_list`. A slot is free when its
`length` is 0; what its `next` was then stays. `mmap` clears the `next` of a slot only if the
process has a mapping already, so the first mapping of a process may come with an old link.

Results:
* `Lists.append`, `Lists.remove`: a slot enters and leaves the list of a process.
* `vma_lists`: as long as no first mapping gets a slot with an old link, and no mapping is
  empty or reaches `2 ^ 64`, the lists are right after every call.
* `vma_lists_shared`: a run after which a slot is in the lists of two processes.
-/

namespace ShikiOS.Kernel.Vmas

open ShikiOS.Lib Fs Fs.Bcache Fs.Inodes Calls

/-! ## The lists -/

/-- The mappings of the processes are the lists `L`, whose first slots are `hd`. -/
structure Lists (vmas : ℕ → Vma) (hd : ℕ → Option ℕ) (L : ℕ → List ℕ) : Prop where
  linked : ∀ q, Linked (fun v => (vmas v).next) (hd q) (L q)
  slot : ∀ q, ∀ v ∈ L q, v < nvma ∧ 0 < (vmas v).length ∧ (vmas v).start < (vmas v).stop
  own : ∀ q q' v, v ∈ L q → v ∈ L q' → q = q'
  used : ∀ v < nvma, 0 < (vmas v).length → ∃ q, v ∈ L q
  order : ∀ q, (L q).Pairwise fun v w => (vmas v).stop ≤ (vmas w).start

variable {vmas vmas' : ℕ → Vma} {hd hd' : ℕ → Option ℕ} {L : ℕ → List ℕ} {q v : ℕ}

theorem Lists.length_le (h : Lists vmas hd L) (q : ℕ) : (L q).length ≤ nvma := by
  have hsub : L q ⊆ List.range nvma := fun v hv => List.mem_range.mpr (h.slot q v hv).1
  have hle := (List.subperm_of_subset (h.linked q).nodup hsub).length_le
  rwa [List.length_range] at hle

theorem Lists.not_mem (h : Lists vmas hd L) (hfree : (vmas v).length = 0) : v ∉ L q := by
  intro hv
  have := (h.slot q v hv).2.1
  omega

/-- The last mapping has the highest end. -/
theorem Lists.stop_le (h : Lists vmas hd L) {a w : ℕ} (ha : a ∈ L q) (hw : w ∈ (L q).getLast?) :
    (vmas a).stop ≤ (vmas w).stop := by
  obtain ⟨l, hl⟩ := List.getLast?_eq_some_iff.mp hw
  have hord := h.order q
  have hslot := h.slot q w (List.mem_of_getLast? hw)
  rw [hl] at ha hord
  rcases List.mem_append.mp ha with ha | ha
  · have := (List.pairwise_append.mp hord).2.2 a ha w List.mem_cons_self
    omega
  · rw [List.mem_singleton.mp ha]

/-- The slot `v` is written, and the link of the slot before it becomes `x`. -/
structure Edit (vmas vmas' : ℕ → Vma) (v : ℕ) (pre x : Option ℕ) : Prop where
  link : ∀ w ∈ pre, vmas' w = { vmas w with next := x }
  rest : ∀ w, w ≠ v → w ∉ pre → vmas' w = vmas w

theorem Edit.same {pre x : Option ℕ} (he : Edit vmas vmas' v pre x) {w : ℕ} (hw : w ≠ v) :
    vmas' w = { vmas w with next := (vmas' w).next } := by
  by_cases hl : w ∈ pre
  · rw [he.link w hl]
  · rw [he.rest w hw hl]

/-- Neither the order nor the places of the other mappings change. -/
theorem Edit.order {pre x : Option ℕ} (he : Edit vmas vmas' v pre x) {l : List ℕ} (hv : v ∉ l)
    (hl : l.Pairwise fun v w => (vmas v).stop ≤ (vmas w).start) :
    l.Pairwise fun v w => (vmas' v).stop ≤ (vmas' w).start := by
  refine hl.imp_of_mem fun {a b} ha hb hab => ?_
  rw [he.same (ne_of_mem_of_not_mem ha hv), he.same (ne_of_mem_of_not_mem hb hv)]
  exact hab

theorem Edit.linked {pre x h : Option ℕ} (he : Edit vmas vmas' v pre x) {l : List ℕ} (hv : v ∉ l)
    (hp : ∀ w ∈ pre, w ∉ l) (hl : Linked (fun v => (vmas v).next) h l) :
    Linked (fun v => (vmas' v).next) h l := by
  refine hl.congr fun w hw => ?_
  rw [he.rest w (ne_of_mem_of_not_mem hw hv) fun hm => hp w hm hw]

/-- The slot `v` becomes the last mapping of `q`. -/
theorem Lists.append (h : Lists vmas hd L) (hv : v < nvma) (hfree : (vmas v).length = 0)
    (hlen : 0 < (vmas' v).length) (hne : (vmas' v).start < (vmas' v).stop)
    (hnext : (vmas' v).next = none) (hafter : ∀ w ∈ L q, (vmas w).stop ≤ (vmas' v).start)
    (he : Edit vmas vmas' v (L q).getLast? (some v))
    (hhd : hd' q = if L q = [] then some v else hd q) (hhd' : ∀ p, p ≠ q → hd' p = hd p) :
    Lists vmas' hd' (Function.update L q (L q ++ [v])) := by
  have hnot : ∀ p, v ∉ L p := fun p => h.not_mem hfree
  have hmem : ∀ p w, w ∈ Function.update L q (L q ++ [v]) p → w = v ∧ p = q ∨ w ≠ v ∧ w ∈ L p := by
    intro p w hw
    by_cases hp : p = q
    · subst hp
      rw [Function.update_self, List.mem_append, List.mem_singleton] at hw
      rcases hw with hw | rfl
      · refine .inr ⟨?_, hw⟩
        rintro rfl
        exact hnot p hw
      · exact .inl ⟨rfl, rfl⟩
    · rw [Function.update_of_ne hp] at hw
      refine .inr ⟨?_, hw⟩
      rintro rfl
      exact hnot p hw
  refine ⟨fun p => ?_, fun p w hw => ?_, fun p p' w hw hw' => ?_, fun w hw hpos => ?_, fun p => ?_⟩
  · by_cases hp : p = q
    · subst hp
      rw [Function.update_self, hhd]
      rcases List.eq_nil_or_concat (L p) with hnil | ⟨l, b, hl⟩
      · rw [hnil, if_pos rfl]
        exact ⟨rfl, hnext⟩
      · have hlp := h.linked p
        rw [List.concat_eq_append] at hl
        rw [if_neg (by rw [hl]; exact List.append_ne_nil_of_right_ne_nil l (List.cons_ne_nil b []))]
        rw [hl] at hlp he ⊢
        rw [List.getLast?_concat] at he
        have hnd := hlp.nodup
        refine hlp.append (by rw [he.link b rfl]) hnext fun c hc => ?_
        have hcb : c ≠ b := by
          rintro rfl
          exact (List.nodup_append.mp hnd).2.2 c hc c List.mem_cons_self rfl
        have hcv : c ≠ v := by
          rintro rfl
          exact hnot p (by rw [hl]; exact List.mem_append_left [b] hc)
        rw [he.rest c hcv fun hm => hcb (Option.some.inj hm).symm]
    · rw [Function.update_of_ne hp, hhd' p hp]
      exact he.linked (hnot p) (fun w hm hw => hp (h.own p q w hw (List.mem_of_getLast? hm)))
        (h.linked p)
  · rcases hmem p w hw with ⟨rfl, rfl⟩ | ⟨hwv, hw⟩
    · exact ⟨hv, hlen, hne⟩
    · rw [he.same hwv]
      exact h.slot p w hw
  · rcases hmem p w hw with ⟨rfl, rfl⟩ | ⟨hwv, hw⟩
    · rcases hmem p' w hw' with ⟨-, rfl⟩ | ⟨hwv, -⟩
      · rfl
      · exact absurd rfl hwv
    · rcases hmem p' w hw' with ⟨hwv', -⟩ | ⟨-, hw'⟩
      · exact absurd hwv' hwv
      · exact h.own p p' w hw hw'
  · by_cases hwv : w = v
    · refine ⟨q, ?_⟩
      rw [hwv, Function.update_self]
      exact List.mem_append_right (L q) List.mem_cons_self
    · rw [he.same hwv] at hpos
      obtain ⟨p, hp⟩ := h.used w hw hpos
      refine ⟨p, ?_⟩
      by_cases hpq : p = q
      · subst hpq
        rw [Function.update_self]
        exact List.mem_append_left [v] hp
      · rw [Function.update_of_ne hpq]
        exact hp
  · have hold := he.order (hnot p) (h.order p)
    by_cases hp : p = q
    · subst hp
      rw [Function.update_self, List.pairwise_append]
      refine ⟨hold, List.pairwise_singleton _ v, fun a ha b hb => ?_⟩
      rw [List.mem_singleton] at hb
      rw [hb, he.same (ne_of_mem_of_not_mem ha (hnot p))]
      exact hafter a ha
    · rw [Function.update_of_ne hp]
      exact hold

/-- The slot `v` leaves the list of `q`. -/
theorem Lists.remove (h : Lists vmas hd L) {l l' : List ℕ} (hL : L q = l ++ v :: l')
    (hzero : (vmas' v).length = 0)
    (he : Edit vmas vmas' v l.getLast? (vmas v).next)
    (hhd : hd' q = if l = [] then (vmas v).next else hd q) (hhd' : ∀ p, p ≠ q → hd' p = hd p) :
    Lists vmas' hd' (Function.update L q (l ++ l')) := by
  have hnd : (l ++ v :: l').Nodup := hL ▸ (h.linked q).nodup
  have hvL : v ∈ L q := by
    rw [hL]
    exact List.mem_append_right l List.mem_cons_self
  have hvl : v ∉ l ++ l' := (List.nodup_middle.mp hnd).notMem
  have hsub : (l ++ l').Sublist (L q) := by
    rw [hL]
    exact (List.sublist_cons_self v l').append_left l
  have hmem : ∀ p w, w ∈ Function.update L q (l ++ l') p → w ≠ v ∧ w ∈ L p := by
    intro p w hw
    by_cases hp : p = q
    · subst hp
      rw [Function.update_self] at hw
      exact ⟨fun e => hvl (e ▸ hw), hsub.subset hw⟩
    · rw [Function.update_of_ne hp] at hw
      exact ⟨fun e => hp (h.own p q v (e ▸ hw) hvL), hw⟩
  refine ⟨fun p => ?_, fun p w hw => ?_, fun p p' w hw hw' => ?_, fun w hw hpos => ?_, fun p => ?_⟩
  · by_cases hp : p = q
    · subst hp
      have hlp := h.linked p
      rw [hL] at hlp
      rw [Function.update_self, hhd]
      rcases List.eq_nil_or_concat l with rfl | ⟨l₁, b, hl⟩
      · rw [if_pos rfl]
        refine Linked.congr hlp.2 fun c hc => ?_
        rw [he.rest c (fun e => hvl (e ▸ hc)) (Option.not_mem_none c)]
      · rw [List.concat_eq_append] at hl
        subst hl
        rw [List.getLast?_concat] at he
        rw [if_neg (List.append_ne_nil_of_right_ne_nil l₁ (List.cons_ne_nil b []))]
        refine hlp.remove (by rw [he.link b rfl]) fun c hc => ?_
        have hcv : c ≠ v := by
          rintro rfl
          refine hvl ?_
          rw [List.mem_append] at hc ⊢
          exact hc.imp (List.mem_append_left [b]) id
        have hcb : c ≠ b := by
          rintro rfl
          have hnd' : (l₁ ++ c :: l').Nodup := by
            have := (List.nodup_middle.mp hnd).of_cons
            rwa [List.append_assoc] at this
          exact (List.nodup_middle.mp hnd').notMem hc
        rw [he.rest c hcv fun hm => hcb (Option.some.inj hm).symm]
    · rw [Function.update_of_ne hp, hhd' p hp]
      refine he.linked (fun hv => hp (h.own p q v hv hvL)) (fun w hm hw => ?_) (h.linked p)
      exact hp (h.own p q w hw (hsub.subset (List.mem_append_left l' (List.mem_of_getLast? hm))))
  · obtain ⟨hwv, hw⟩ := hmem p w hw
    rw [he.same hwv]
    exact h.slot p w hw
  · exact h.own p p' w (hmem p w hw).2 (hmem p' w hw').2
  · have hwv : w ≠ v := by
      rintro rfl
      omega
    rw [he.same hwv] at hpos
    obtain ⟨p, hp⟩ := h.used w hw hpos
    refine ⟨p, ?_⟩
    by_cases hpq : p = q
    · subst hpq
      rw [Function.update_self]
      rw [hL, List.mem_append, List.mem_cons] at hp
      rw [List.mem_append]
      exact hp.imp id fun hp => hp.resolve_left hwv
    · rw [Function.update_of_ne hpq]
      exact hp
  · refine he.order (fun hv => (hmem p v hv).1 rfl) ?_
    by_cases hp : p = q
    · subst hp
      rw [Function.update_self]
      exact (h.order p).sublist hsub
    · rw [Function.update_of_ne hp]
      exact h.order p

/-! ## References to files -/

/-- The descriptor `fd` of process `q` is open on the file `f`. -/
def FdRef (s : Sys) (f q fd : ℕ) : Prop := (s.procs q).live = true ∧ (s.procs q).files fd = some f

instance (s : Sys) (f q fd : ℕ) : Decidable (FdRef s f q fd) := inferInstanceAs (Decidable (_ ∧ _))

/-- The number of descriptors that are open on the file `f`. -/
def fdRefs (s : Sys) (f : ℕ) : ℤ :=
  countIf (s.nextPid * openfile) fun i => FdRef s f (i / openfile) (i % openfile)

/-- The number of mappings of the file `f`. -/
def vmaRefs (vmas : ℕ → Vma) (f : ℕ) : ℤ :=
  countIf nvma fun v => 0 < (vmas v).length ∧ (vmas v).file = f

variable {s t : Sys} {f fd : ℕ}

theorem fdRefs_congr (hn : t.nextPid = s.nextPid)
    (h : ∀ q fd, FdRef t f q fd ↔ FdRef s f q fd) : fdRefs t f = fdRefs s f := by
  unfold fdRefs
  rw [hn]
  exact countIf_congr fun i _ => h _ _

/-- One descriptor changes. -/
theorem fdRefs_change (hn : t.nextPid = s.nextPid) (hq : q < s.nextPid) (hfd : fd < openfile)
    (h : ∀ q' fd', (q', fd') ≠ (q, fd) → (FdRef t f q' fd' ↔ FdRef s f q' fd')) :
    fdRefs t f = fdRefs s f - (if FdRef s f q fd then 1 else 0) +
      if FdRef t f q fd then 1 else 0 := by
  unfold openfile at hfd
  have hi : q * openfile + fd < s.nextPid * openfile := by
    have := Nat.mul_le_mul_right openfile hq
    unfold openfile at this ⊢
    omega
  have hdiv : (q * openfile + fd) / openfile = q := by
    unfold openfile
    omega
  have hmod : (q * openfile + fd) % openfile = fd := by
    unfold openfile
    omega
  have hchange := countIf_change (P := fun i => FdRef s f (i / openfile) (i % openfile))
    (Q := fun i => FdRef t f (i / openfile) (i % openfile)) hi fun j hj => h _ _ fun e => hj ?_
  · rw [hdiv, hmod] at hchange
    unfold fdRefs
    rw [hn]
    exact hchange
  · obtain ⟨e1, e2⟩ := Prod.mk.inj e
    rw [← e1, ← e2, Nat.mul_comm]
    exact (Nat.div_add_mod j openfile).symm

/-- A new process has no descriptors. -/
theorem fdRefs_extend (hn : t.nextPid = s.nextPid + 1)
    (h : ∀ q fd, q < s.nextPid → (FdRef t f q fd ↔ FdRef s f q fd))
    (hnew : ∀ q fd, s.nextPid ≤ q → ¬ FdRef t f q fd) : fdRefs t f = fdRefs s f := by
  unfold fdRefs
  rw [hn, Nat.succ_mul, countIf_extend fun j hj => hnew _ _ ?_]
  · refine countIf_congr fun j hj => h _ _ ?_
    exact Nat.div_lt_of_lt_mul (by rwa [Nat.mul_comm] at hj)
  · exact (Nat.le_div_iff_mul_le (by decide)).mpr hj

/-- The slot `v` is rewritten, and the other mappings keep their files. -/
theorem Edit.vmaRefs {pre x : Option ℕ} (he : Edit vmas vmas' v pre x) (hv : v < nvma) (f : ℕ) :
    vmaRefs vmas' f = vmaRefs vmas f - (if 0 < (vmas v).length ∧ (vmas v).file = f then 1 else 0) +
      if 0 < (vmas' v).length ∧ (vmas' v).file = f then 1 else 0 := by
  unfold Vmas.vmaRefs
  refine countIf_change hv fun w hw => ?_
  rw [he.same hw]

theorem vmaRefs_pos (hv : v < nvma) (hlen : 0 < (vmas v).length) : 0 < vmaRefs vmas (vmas v).file :=
  countIf_pos hv ⟨hlen, rfl⟩

theorem fdRefs_nonneg : 0 ≤ fdRefs s f := countIf_nonneg

theorem vmaRefs_nonneg : 0 ≤ vmaRefs vmas f := countIf_nonneg

/-! ## What the calls leave alone -/

/-- A program does not stop because of a cycle. -/
def NoLoop (e : Halt) (_ : Sys) : Prop := e ≠ .loops

variable {sb : SuperBlock} {α : Type}

@[simp] theorem wp_getVma {Q : Vma → Sys → Prop} {E : Halt → Sys → Prop} :
    wp (getVma v) Q E s ↔ Q (s.vmas v) s := by
  unfold getVma
  rw [wp_bind, wp_get, wp_pure]

@[simp] theorem wp_getFile {Q : File → Sys → Prop} {E : Halt → Sys → Prop} :
    wp (getFile f) Q E s ↔ Q (s.files f) s := by
  unfold getFile
  rw [wp_bind, wp_get, wp_pure]

@[simp] theorem wp_thisproc {Q : Calls.Proc → Sys → Prop} {E : Halt → Sys → Prop} :
    wp thisproc Q E s ↔ Q (s.procs s.cur) s := by
  unfold thisproc
  rw [wp_bind, wp_get, wp_pure]

@[simp] theorem wp_modifyVma {k : Vma → Vma} {Q : Unit → Sys → Prop} {E : Halt → Sys → Prop} :
    wp (modifyVma v k) Q E s ↔
      Q () { s with vmas := Function.update s.vmas v (k (s.vmas v)) } := by
  unfold modifyVma
  exact wp_modify

@[simp] theorem wp_modifyProc {k : Calls.Proc → Calls.Proc} {Q : Unit → Sys → Prop} {E : Halt → Sys → Prop} :
    wp (modifyProc q k) Q E s ↔
      Q () { s with procs := Function.update s.procs q (k (s.procs q)) } := by
  unfold modifyProc
  exact wp_modify

/-- A call of the inode layer changes the file system only. -/
theorem wp_fs {halt : Bcache.Stop → Halt} (hh : ∀ e, halt e ≠ .loops) {x : Inodes.M α}
    {Q : α → Sys → Prop} (hQ : ∀ a fs, Q a { s with fs := fs }) :
    wp (fsCall halt x) Q NoLoop s := by
  unfold fsCall
  rw [wp_zoom, wp_adaptExcept]
  exact wp.always (fun a fs => hQ a fs) fun e _ => hh e

theorem wp_stop {x : Inodes.M α} {Q : α → Sys → Prop} (hQ : ∀ a fs, Q a { s with fs := fs }) :
    wp (fsCall .stop x) Q NoLoop s := wp_fs (fun _ h => by cases h) hQ

theorem wp_beginOp {Q : ℕ → Sys → Prop} (hQ : ∀ fs, Q s.cur { s with fs := fs }) :
    wp beginOp Q NoLoop s := by
  unfold beginOp
  rw [wp_bind, wp_get, wp_bind]
  exact wp_stop fun _ fs => wp_pure.mpr (hQ fs)

theorem wp_writebackLoop {addr m i : ℕ} {n : ℤ} {mem : ℕ → UInt8} {Q : Unit → Sys → Prop}
    (hQ : ∀ fs, Q () { s with fs := fs }) : wp (writebackLoop sb v addr n mem m i) Q NoLoop s := by
  induction m generalizing s i with
  | zero => exact wp_pure.mpr (hQ s.fs)
  | succ m ih =>
    unfold writebackLoop
    refine wp.ite (fun _ => ?_) fun _ => wp_pure.mpr (hQ s.fs)
    simp only [wp_bind, wp_getVma, wp_getFile]
    refine wp_beginOp fun _ => wp_stop fun _ _ => ?_
    refine wp_fs (fun _ h => by cases h) fun _ _ => wp_stop fun _ _ => wp_stop fun _ _ => ?_
    exact ih fun fs => hQ fs

theorem wp_writeback {addr : ℕ} {n : ℤ} {mem : ℕ → UInt8} {Q : Unit → Sys → Prop}
    (hQ : ∀ fs, Q () { s with fs := fs }) : wp (writeback sb v addr n mem) Q NoLoop s := by
  unfold writeback
  rw [wp_bind, wp_getVma]
  refine wp.ite (fun _ => wp_pure.mpr (hQ s.fs)) fun _ => wp.ite (fun _ => ?_) fun _ => ?_
  · exact wp_throw.mpr fun h => by cases h
  · exact wp_writebackLoop hQ

/-- `file_close` takes one reference away. -/
theorem wp_fileClose {Q : Unit → Sys → Prop} (hQ : ∀ fs x, x.ref = (s.files f).ref - 1 →
      Q () { s with fs := fs, files := Function.update s.files f x }) :
    wp (fileClose (services sb) f) Q NoLoop s := by
  unfold fileClose
  rw [wp_bind]
  show wp (dropRef f) _ _ s
  refine wp_dropRef (fun h1 => ?_) fun _ => ?_
  · have h0 : File.zero.ref = (s.files f).ref - 1 := by
      rw [h1]
      rfl
    split
    · rw [wp_bind]
      refine wp_beginOp fun _ => ?_
      rw [wp_bind]
      exact wp_stop fun _ _ => wp_stop fun _ fs => hQ fs _ h0
    · exact wp_pure.mpr (hQ s.fs _ h0)
  · exact wp_pure.mpr (hQ s.fs _ rfl)

theorem wp_fileDup {Q : Unit → Sys → Prop} {E : Halt → Sys → Prop} (hpos : 0 < (s.files f).ref)
    (hQ : ∀ x, x.ref = (s.files f).ref + 1 → x.ip = (s.files f).ip →
      Q () { s with files := Function.update s.files f x }) : wp (fileDup f) Q E s := by
  unfold fileDup modifyFile
  rw [wp_modify]
  dsimp only
  rw [if_neg (by omega)]
  exact hQ _ rfl rfl

/-! ## The walks through a list -/

theorem findVma_spec {n a : ℕ} (h : findVma vmas n a = some v) :
    v < a + n ∧ (vmas v).length = 0 := by
  induction n generalizing a with
  | zero => cases h
  | succ n ih =>
    rw [findVma] at h
    split_ifs at h with ha
    · cases h
      exact ⟨by omega, ha⟩
    · have := ih h
      exact ⟨by omega, this.2⟩

theorem wp_vmaAlloc {Q : ℕ → Sys → Prop}
    (hQ : ∀ v, findVma s.vmas nvma 0 = some v → v < nvma → (s.vmas v).length = 0 → Q v s) :
    wp vmaAlloc Q NoLoop s := by
  unfold vmaAlloc
  rw [wp_bind, wp_get]
  split
  · next v hv =>
    obtain ⟨h1, h2⟩ := findVma_spec hv
    exact wp_pure.mpr (hQ v hv (by omega) h2)
  · exact wp_throw.mpr fun h => by cases h

/-- The walk of `mmap` ends at the last mapping. -/
theorem wp_lastVma {n w : ℕ} {l : List ℕ} {Q : ℕ → Sys → Prop}
    (hl : Linked (fun v => (s.vmas v).next) (some v) l) (hn : l.length ≤ n)
    (hw : l.getLast? = some w) (hQ : Q w s) : wp (lastVma n v) Q NoLoop s := by
  induction n generalizing v l with
  | zero =>
    obtain ⟨l', rfl, -⟩ := hl.exists_cons
    exact absurd hn (Nat.not_succ_le_zero l'.length)
  | succ n ih =>
    obtain ⟨l', rfl, hl'⟩ := hl.exists_cons
    unfold lastVma
    rw [wp_bind, wp_getVma]
    cases hx : (s.vmas v).next with
    | none =>
      rw [hx] at hl'
      rw [hl'.eq_nil, List.getLast?_singleton] at hw
      obtain rfl := Option.some.inj hw
      exact wp_pure.mpr hQ
    | some v' =>
      rw [hx] at hl'
      obtain ⟨l, rfl, -⟩ := hl'.exists_cons
      rw [List.length_cons] at hn
      rw [List.getLast?_cons_cons] at hw
      exact ih hl' (by omega) hw

/-- The walk of `munmap` finds a mapping of the list with the address, if there is one. -/
theorem wp_vmaOf {addr n : ℕ} {pre h : Option ℕ} {l : List ℕ}
    {Q : Option (ℕ × Option ℕ) → Sys → Prop} (hl : Linked (fun v => (s.vmas v).next) h l)
    (hn : l.length ≤ n)
    (hnone : (∀ v ∈ l, ¬ ((s.vmas v).start ≤ addr ∧ addr < (s.vmas v).stop)) → Q none s)
    (hQ : ∀ v l₁ l₂, l = l₁ ++ v :: l₂ → (s.vmas v).start ≤ addr → addr < (s.vmas v).stop →
      Q (some (v, l₁.getLast?.or pre)) s) {E : Halt → Sys → Prop} :
    wp (vmaOf addr n pre h) Q E s := by
  induction n generalizing h l pre with
  | zero =>
    obtain rfl := List.eq_nil_of_length_eq_zero (Nat.le_zero.mp hn)
    rw [linked_nil] at hl
    subst hl
    exact wp_pure.mpr (hnone fun v hv => absurd hv List.not_mem_nil)
  | succ n ih =>
    cases l with
    | nil =>
      rw [linked_nil] at hl
      subst hl
      exact wp_pure.mpr (hnone fun v hv => absurd hv List.not_mem_nil)
    | cons v l =>
      obtain ⟨rfl, hl⟩ := hl
      rw [List.length_cons] at hn
      unfold vmaOf
      rw [wp_bind, wp_getVma]
      refine wp.ite (fun hin => ?_) fun hout =>
        ih hl (by omega) (fun hl => hnone ?_) fun w l₁ l₂ he h1 h2 => ?_
      · exact wp_pure.mpr (hQ v [] l rfl hin.1 hin.2)
      · intro w hw
        rcases List.mem_cons.mp hw with rfl | hw
        · exact hout
        · exact hl w hw
      · have hw := hQ w (v :: l₁) l₂ (by rw [he, List.cons_append]) h1 h2
        cases l₁ with
        | nil => exact hw
        | cons a l₁ =>
          rw [List.getLast?_cons_cons] at hw
          rw [List.getLast?_cons] at hw ⊢
          exact hw

/-! ## The invariant -/

/-- Where the list of a process starts. -/
def head (procs : ℕ → Calls.Proc) (q : ℕ) : Option ℕ := if (procs q).live then (procs q).vma else none

/-- The lists start at `hd`, and the files have their references. -/
structure Inv (hd : ℕ → Option ℕ) (L : ℕ → List ℕ) (s : Sys) : Prop where
  lists : Lists s.vmas hd L
  refs : ∀ f, (s.files f).ref = fdRefs s f + vmaRefs s.vmas f
  unborn : ∀ q, s.nextPid ≤ q → (s.procs q).live = false
  running : s.halted = none

theorem Inv.withFs (h : Inv hd L s) (fs : FsState) : Inv hd L { s with fs := fs } :=
  ⟨h.lists, h.refs, h.unborn, h.running⟩

theorem Inv.of_head (h : Inv hd L s) (he : hd' = hd) : Inv hd' L s := he ▸ h

theorem Inv.pid_lt (h : Inv hd L s) (hq : (s.procs q).live = true) : q < s.nextPid := by
  by_contra hle
  rw [h.unborn q (by omega)] at hq
  exact Bool.false_ne_true hq

theorem Inv.ref_of_fd (h : Inv hd L s) (hfd : fd < openfile) (hf : FdRef s f q fd) :
    0 < (s.files f).ref := by
  have hq := h.pid_lt hf.1
  have hlt : q * openfile + fd < s.nextPid * openfile := by
    have := Nat.mul_le_mul_right openfile hq
    unfold openfile at this hfd ⊢
    omega
  have hdiv : (q * openfile + fd) / openfile = q := by
    unfold openfile at hfd ⊢
    omega
  have hmod : (q * openfile + fd) % openfile = fd := by
    unfold openfile at hfd ⊢
    omega
  have hpos : 0 < fdRefs s f := countIf_pos hlt (by rw [hdiv, hmod]; exact hf)
  have hnonneg : 0 ≤ vmaRefs s.vmas f := vmaRefs_nonneg
  have := h.refs f
  omega

theorem Inv.ref_of_vma (h : Inv hd L s) (hv : v ∈ L q) : 0 < (s.files (s.vmas v).file).ref := by
  have hslot := h.lists.slot q v hv
  have hpos := vmaRefs_pos hslot.1 hslot.2.1
  have hnonneg : 0 ≤ fdRefs s (s.vmas v).file := fdRefs_nonneg
  have := h.refs (s.vmas v).file
  omega

/-- A call that keeps who is live and the descriptors. -/
def SameFds (procs procs' : ℕ → Calls.Proc) : Prop :=
  ∀ p, (procs' p).live = (procs p).live ∧ (procs' p).files = (procs p).files

theorem SameFds.update {procs : ℕ → Calls.Proc} {k : Calls.Proc → Calls.Proc}
    (hk : ∀ x, (k x).live = x.live ∧ (k x).files = x.files) :
    SameFds procs (Function.update procs q (k (procs q))) := by
  intro p
  by_cases hp : p = q
  · rw [hp, Function.update_self]
    exact hk (procs q)
  · rw [Function.update_of_ne hp]
    exact ⟨rfl, rfl⟩

theorem SameFds.fdRefs {files : ℕ → File} {procs : ℕ → Calls.Proc} (hp : SameFds s.procs procs) (f : ℕ) :
    fdRefs { s with files := files, procs := procs, vmas := vmas } f = fdRefs s f := by
  refine fdRefs_congr rfl fun p fd => ?_
  unfold FdRef
  rw [(hp p).1, (hp p).2]

/-- A slot becomes the last mapping of `q`, and its file gets a reference. -/
theorem Inv.append {x : File} {procs : ℕ → Calls.Proc} (h : Inv hd L s) (hv : v < nvma)
    (hfree : (s.vmas v).length = 0) (hlen : 0 < (vmas v).length)
    (hne : (vmas v).start < (vmas v).stop) (hnext : (vmas v).next = none)
    (hafter : ∀ w ∈ L q, (s.vmas w).stop ≤ (vmas v).start)
    (he : Edit s.vmas vmas v (L q).getLast? (some v))
    (hhd : hd' q = if L q = [] then some v else hd q) (hhd' : ∀ p, p ≠ q → hd' p = hd p)
    (hf : (vmas v).file = f) (hx : x.ref = (s.files f).ref + 1) (hp : SameFds s.procs procs) :
    Inv hd' (Function.update L q (L q ++ [v]))
      { s with files := Function.update s.files f x, procs := procs, vmas := vmas } := by
  refine ⟨h.lists.append hv hfree hlen hne hnext hafter he hhd hhd', fun g => ?_, fun p hpid => ?_,
    h.running⟩
  · have hold := h.refs g
    have hnew := he.vmaRefs hv g
    rw [if_neg (by omega), sub_zero, hf] at hnew
    dsimp only
    rw [hp.fdRefs, hnew]
    by_cases hg : g = f
    · rw [hg, Function.update_self, hx, if_pos ⟨hlen, rfl⟩]
      rw [hg] at hold
      omega
    · rw [Function.update_of_ne hg, if_neg fun e => hg e.2.symm]
      omega
  · rw [(hp p).1]
    exact h.unborn p hpid

/-- A slot leaves the list of `q`, and its file loses a reference. -/
theorem Inv.remove {x : File} {procs : ℕ → Calls.Proc} {l l' : List ℕ} (h : Inv hd L s)
    (hL : L q = l ++ v :: l') (hzero : (vmas v).length = 0)
    (he : Edit s.vmas vmas v l.getLast? (s.vmas v).next)
    (hhd : hd' q = if l = [] then (s.vmas v).next else hd q) (hhd' : ∀ p, p ≠ q → hd' p = hd p)
    (hf : (s.vmas v).file = f) (hx : x.ref = (s.files f).ref - 1) (hp : SameFds s.procs procs) :
    Inv hd' (Function.update L q (l ++ l'))
      { s with files := Function.update s.files f x, procs := procs, vmas := vmas } := by
  have hv := h.lists.slot q v (by rw [hL]; exact List.mem_append_right l List.mem_cons_self)
  refine ⟨h.lists.remove hL hzero he hhd hhd', fun g => ?_, fun p hpid => ?_, h.running⟩
  · have hold := h.refs g
    have hnew := he.vmaRefs hv.1 g
    have hgone : ¬ (0 < (vmas v).length ∧ (vmas v).file = g) := by omega
    rw [if_neg hgone, add_zero, hf] at hnew
    dsimp only
    rw [hp.fdRefs, hnew]
    by_cases hg : g = f
    · rw [hg, Function.update_self, hx, if_pos ⟨hv.2.1, rfl⟩]
      rw [hg] at hold
      omega
    · rw [Function.update_of_ne hg, if_neg fun e => hg e.2.symm]
      omega
  · rw [(hp p).1]
    exact h.unborn p hpid

/-! ## `mmap` and `munmap` -/

/-- `mmap` gets as far as `vma_alloc`. -/
def Maps (s : Sys) (q addr prot flags : ℕ) (fd offset : ℤ) : Prop :=
  addr = 0 ∧ offset = 0 ∧ 0 ≤ fd ∧ fd < openfile ∧ ∃ f ∈ (s.procs q).files fd.toNat,
    ¬ (hasFlag prot protWrite && !(s.files f).writable && !hasFlag flags mapPrivate) ∧
    ¬ (hasFlag prot protRead && !(s.files f).readable)

/-- The slot `v` fits behind the list from `h` on: it has no old link if it is the first mapping
    of the process, and the end of the mapping is below `2 ^ 64`. -/
def Fits (vmas : ℕ → Vma) (v : ℕ) (length : ℤ) : Option ℕ → Prop
  | none => (vmas v).next = none ∧ vmaStart + length < 2 ^ 64
  | some pv => ∀ w ∈ follow (fun v => (vmas v).next) nvma (some pv),
      pageBaseOf ((vmas w).stop + pageBytes - 1) + length < 2 ^ 64

/-- The mapping is not empty and fits. -/
def MmapOk (s : Sys) (q : ℕ) (length : ℤ) : Prop :=
  ∀ v ∈ findVma s.vmas nvma 0, 0 < length ∧ Fits s.vmas v length (s.procs q).vma

/-- `munmap` is for a whole mapping. -/
def WholeUnmap (s : Sys) (q addr length : ℕ) : Prop :=
  ∀ w ∈ follow (fun v => (s.vmas v).next) nvma (s.procs q).vma,
    (s.vmas w).start ≤ addr → addr < (s.vmas w).stop →
      addr = (s.vmas w).start ∧ length = (s.vmas w).length

theorem u64OfInt_pos {n : ℤ} (h0 : 0 < n) (h : n < 2 ^ 64) : (u64OfInt n : ℤ) = n := by
  unfold u64OfInt
  omega

theorem pageBaseOf_le (a : ℕ) : a ≤ pageBaseOf (a + pageBytes - 1) := by
  unfold pageBaseOf pageBytes
  omega

theorem pageBytes_dvd_pageBaseOf (a : ℕ) : pageBytes ∣ pageBaseOf a :=
  Nat.dvd_mul_left pageBytes (a / pageBytes)

theorem pageBaseOf_lt {a : ℕ} (h : pageBaseOf a < 2 ^ 64) : a < 2 ^ 64 := by
  unfold pageBaseOf pageBytes at h
  omega

theorem u64_of_lt {a : ℕ} (h : a < 2 ^ 64) : u64 a = a := Nat.mod_eq_of_lt h

/-- The list of a live process gets another head. -/
theorem head_update {procs : ℕ → Calls.Proc} {x : Calls.Proc} (hx : x.live = true) (p : ℕ) :
    head (Function.update procs q x) p = if p = q then x.vma else head procs p := by
  unfold head
  by_cases hp : p = q
  · simp only [hp, Function.update_self, hx, if_true]
  · simp only [Function.update_of_ne hp, if_neg hp]

theorem wp_fd2file {fd : ℤ} {Q : Option ℕ → Sys → Prop} {E : Halt → Sys → Prop} (hnone : Q none s)
    (hsome : ∀ f, 0 ≤ fd → fd < openfile → (s.procs s.cur).files fd.toNat = some f → Q (some f) s) :
    wp (fd2file fd) Q E s := by
  unfold fd2file
  rw [wp_bind, wp_thisproc]
  refine wp.ite (fun _ => wp_pure.mpr hnone) fun hfd => ?_
  rw [wp_pure]
  cases hf : (s.procs s.cur).files fd.toNat with
  | none => exact hnone
  | some f => exact hsome f (by omega) (by omega) hf

/-- The slot `v` has become the last mapping of the process, with the rest of `y`. -/
structure Placed (s t : Sys) (L : ℕ → List ℕ) (v : ℕ) (y : Vma) (length : ℤ) : Prop where
  inv : Inv (head t.procs) (Function.update L s.cur (L s.cur ++ [v])) t
  slot : ∃ start, pageBytes ∣ start ∧ start + length < 2 ^ 64 ∧
    t.vmas v = { y with start := start, stop := start + u64OfInt length, next := none }
  fds : SameFds s.procs t.procs
  fs : t.fs = s.fs
  cur : t.cur = s.cur

/-- The mapping `v` has been filled in and its file has a new reference. -/
theorem wp_placeVma {y : Vma} {x : File} {length : ℤ} (h : Inv (head s.procs) L s)
    (hlive : (s.procs s.cur).live = true) (hv : v < nvma) (hfree : (s.vmas v).length = 0)
    (hy : y.next = (s.vmas v).next) (hylen : y.length = u64OfInt length)
    (hx : x.ref = (s.files y.file).ref + 1) (hpos : 0 < length)
    (hok : Fits s.vmas v length (s.procs s.cur).vma) :
    wp (placeVma v length) (fun _ t => Placed s t L v y length ∧
      t.files = Function.update s.files y.file x) NoLoop { s with
        files := Function.update s.files y.file x
        vmas := Function.update s.vmas v y } := by
  have hhead : head s.procs s.cur = (s.procs s.cur).vma := if_pos hlive
  have hcur := h.lists.linked s.cur
  rw [hhead] at hcur
  have hnot : v ∉ L s.cur := h.lists.not_mem hfree
  unfold placeVma
  rw [wp_bind, wp_get]
  dsimp only
  cases hvma : (s.procs s.cur).vma with
  | none =>
    rw [hvma] at hcur hok
    obtain ⟨hnext, hend⟩ := hok
    have hnil := hcur.eq_nil
    have hlen := u64OfInt_pos hpos (by omega)
    simp only [wp_bind, wp_modifyVma, wp_modifyProc, Function.update_self, Function.update_idem]
    have hstop : u64 (vmaStart + u64OfInt length) = vmaStart + u64OfInt length :=
      u64_of_lt (by omega)
    have hp : SameFds s.procs (Function.update s.procs s.cur { s.procs s.cur with vma := some v }) :=
      SameFds.update (k := fun p => { p with vma := some v }) fun _ => ⟨rfl, rfl⟩
    refine ⟨⟨h.append (q := s.cur) hv hfree ?_ ?_ ?_ ?_ ⟨?_, fun w hw _ => ?_⟩ ?_ (fun p hp => ?_) ?_ hx
      hp, ⟨vmaStart, by decide, hend, ?_⟩, hp, rfl, rfl⟩, trivial⟩
    · rw [Function.update_self, hylen]
      omega
    · rw [Function.update_self, hstop]
      dsimp only
      omega
    · rw [Function.update_self, hy]
      exact hnext
    · rw [hnil]
      exact fun w hw => absurd hw List.not_mem_nil
    · rw [hnil]
      exact fun w hw => absurd hw (Option.not_mem_none w)
    · exact Function.update_of_ne hw _ _
    · rw [head_update (x := { s.procs s.cur with vma := some v }) hlive, if_pos rfl, if_pos hnil]
    · rw [head_update (x := { s.procs s.cur with vma := some v }) hlive, if_neg hp]
    · rw [Function.update_self]
    · dsimp only
      rw [Function.update_self, hstop, ← hnext, ← hy]
  | some pv =>
    rw [hvma] at hcur hok
    obtain ⟨l, hl, -⟩ := hcur.exists_cons
    have hpv := h.lists.slot s.cur pv (by rw [hl]; exact List.mem_cons_self)
    have hpvv : pv ≠ v := ne_of_mem_of_not_mem (by rw [hl]; exact List.mem_cons_self) hnot
    rw [Fits, hcur.follow_eq (h.lists.length_le s.cur)] at hok
    obtain ⟨w, hw⟩ : ∃ w, (L s.cur).getLast? = some w := by
      rw [hl]
      exact ⟨_, List.getLast?_cons⟩
    have hwL := List.mem_of_getLast? hw
    have hwv : w ≠ v := ne_of_mem_of_not_mem hwL hnot
    have hend := hok w hwL
    dsimp only
    refine wp.ite (fun h0 => ?_) fun _ => ?_
    · rw [Function.update_of_ne hpvv] at h0
      omega
    rw [wp_bind]
    refine wp_lastVma (l := L s.cur) (w := w) ?_ (h.lists.length_le s.cur) hw ?_
    · refine hcur.congr fun a ha => ?_
      show (Function.update s.vmas v y a).next = _
      rw [Function.update_of_ne (ne_of_mem_of_not_mem ha hnot)]
    have hstart : pageBaseOf (u64 ((s.vmas w).stop + pageBytes - 1)) =
        pageBaseOf ((s.vmas w).stop + pageBytes - 1) := by
      rw [u64_of_lt (pageBaseOf_lt (by omega))]
    have hlen := u64OfInt_pos hpos (by omega)
    have hstop : u64 (pageBaseOf ((s.vmas w).stop + pageBytes - 1) + u64OfInt length) =
        pageBaseOf ((s.vmas w).stop + pageBytes - 1) + u64OfInt length := u64_of_lt (by omega)
    simp only [wp_bind, wp_getVma, wp_modifyVma, Function.update_self, Function.update_of_ne hwv,
      Function.update_of_ne hwv.symm, Function.update_idem, hstart, hstop]
    refine ⟨⟨h.append (q := s.cur) hv hfree ?_ ?_ ?_ ?_ ⟨?_, fun a hav hal => ?_⟩ ?_ (fun p hp => ?_)
      ?_ hx fun _ => ⟨rfl, rfl⟩, ⟨_, pageBytes_dvd_pageBaseOf _, hend, Function.update_self v _ _⟩,
      fun _ => ⟨rfl, rfl⟩, rfl, rfl⟩, trivial⟩
    · rw [Function.update_self, hylen]
      omega
    · rw [Function.update_self]
      dsimp only
      omega
    · rw [Function.update_self]
    · intro a ha
      have h1 := h.lists.stop_le ha hw
      have h2 := pageBaseOf_le (s.vmas w).stop
      rw [Function.update_self]
      dsimp only
      omega
    · intro a ha
      obtain rfl := Option.some.inj (hw.symm.trans ha)
      rw [Function.update_of_ne hwv, Function.update_self]
    · have haw : a ≠ w := fun e => hal (e ▸ hw)
      rw [Function.update_of_ne hav, Function.update_of_ne haw, Function.update_of_ne hav]
    · rw [if_neg (List.ne_nil_of_mem hwL)]
    · rfl
    · rw [Function.update_self]

/-- `mmap` under its condition: it fails, or there is a new mapping at the address returned. -/
theorem wp_mmap {addr prot flags : ℕ} {length fd offset : ℤ} (h : Inv (head s.procs) L s)
    (hlive : (s.procs s.cur).live = true)
    (hok : Maps s s.cur addr prot flags fd offset → MmapOk s s.cur length) :
    wp (mmap addr length prot flags fd offset) (fun r t => (r = -1 ∧ t = s) ∨ ∃ v f,
      (s.procs s.cur).files fd.toNat = some f ∧ 0 < length ∧ r = (t.vmas v).start ∧
      Placed s t L v ⟨(s.vmas v).start, (s.vmas v).stop, u64OfInt length, u64OfInt offset, flags, f,
        (s.vmas v).next⟩ length ∧ ∀ g, (t.files g).ip = (s.files g).ip) NoLoop s := by
  unfold mmap
  refine wp.ite (fun _ => wp_throw.mpr fun h => by cases h) fun haddr => ?_
  refine wp.ite (fun _ => wp_throw.mpr fun h => by cases h) fun hoff => ?_
  rw [wp_bind]
  refine wp_fd2file (wp_throw.mpr fun h => by cases h) fun f h0 h1 hf => ?_
  dsimp only
  rw [wp_bind, wp_getFile]
  refine wp.ite (fun _ => wp_pure.mpr (.inl ⟨rfl, rfl⟩)) fun hw => ?_
  refine wp.ite (fun _ => wp_pure.mpr (.inl ⟨rfl, rfl⟩)) fun hr => ?_
  have hok := hok ⟨not_not.mp haddr, not_not.mp hoff, h0, h1, f, hf, hw, hr⟩
  have hpos := h.ref_of_fd (show fd.toNat < openfile by omega) ⟨hlive, hf⟩
  rw [wp_bind]
  refine wp_vmaAlloc fun v hfind hv hfree => ?_
  obtain ⟨hlen, hok⟩ := hok v hfind
  rw [wp_bind, wp_modifyVma, wp_bind]
  refine wp_fileDup hpos fun x hx hip => ?_
  rw [wp_bind]
  refine (wp_placeVma h hlive hv hfree (y := ⟨(s.vmas v).start, (s.vmas v).stop, u64OfInt length,
    u64OfInt offset, flags, f, (s.vmas v).next⟩) rfl rfl hx hlen hok).imp fun _ t ht => ?_
  rw [wp_bind, wp_getVma, wp_pure]
  refine .inr ⟨v, f, hf, hlen, rfl, ht.1, fun g => ?_⟩
  rw [ht.2]
  by_cases hg : g = f
  · rw [hg, Function.update_self, hip]
  · rw [Function.update_of_ne hg]

/-- The mappings other than `v` stay where they are. -/
def SamePlaces (v : ℕ) (s t : Sys) : Prop :=
  ∀ w, w ≠ v → (t.vmas w).start = (s.vmas w).start ∧ (t.vmas w).stop = (s.vmas w).stop

theorem Edit.samePlaces {pre x : Option ℕ} (he : Edit s.vmas t.vmas v pre x) : SamePlaces v s t := by
  intro w hw
  rw [he.same hw]
  exact ⟨rfl, rfl⟩

/-- Lines 188-206 of `munmap`, for a whole mapping. -/
theorem wp_unmap {l l' : List ℕ} {mem : ℕ → UInt8} (h : Inv (head s.procs) L s)
    (hlive : (s.procs s.cur).live = true) (hL : L s.cur = l ++ v :: l') :
    wp (unmap sb v l.getLast? (s.vmas v).start (s.vmas v).length mem)
      (fun _ t => Inv (head t.procs) (Function.update L s.cur (l ++ l')) t ∧
        SameFds s.procs t.procs ∧ SamePlaces v s t) NoLoop s := by
  have hhead : head s.procs s.cur = (s.procs s.cur).vma := if_pos hlive
  unfold unmap
  rw [wp_bind, wp_getVma, if_neg fun hc => hc.1 rfl, if_pos rfl, wp_bind]
  refine wp_writeback fun _ => ?_
  rw [wp_bind, wp_getVma, if_pos rfl, wp_bind]
  refine wp_fileClose fun fs x hx => ?_
  rw [wp_bind, wp_getVma]
  have h := h.withFs fs
  rcases hl : l.getLast? with _ | pre
  · rw [List.getLast?_eq_none_iff] at hl
    subst hl
    simp only [wp_bind, wp_get, wp_modifyProc, wp_modifyVma, wp_pure]
    have hedit : Edit s.vmas (Function.update s.vmas v { s.vmas v with length := 0 }) v
        (List.getLast? []) (s.vmas v).next :=
      ⟨fun w hw => absurd hw (Option.not_mem_none w), fun w hw _ => Function.update_of_ne hw _ _⟩
    have hp : SameFds s.procs (Function.update s.procs s.cur
        { s.procs s.cur with vma := (s.vmas v).next }) :=
      SameFds.update (k := fun p => { p with vma := (s.vmas v).next }) fun _ => ⟨rfl, rfl⟩
    refine ⟨h.remove (q := s.cur) hL ?_ hedit ?_ (fun p hp => ?_) rfl hx hp, hp, hedit.samePlaces⟩
    · rw [Function.update_self]
    · rw [head_update (x := { s.procs s.cur with vma := (s.vmas v).next }) hlive, if_pos rfl, if_pos rfl]
    · rw [head_update (x := { s.procs s.cur with vma := (s.vmas v).next }) hlive, if_neg hp]
  · have hprel : pre ∈ l := List.mem_of_getLast? hl
    have hnd := (h.lists.linked s.cur).nodup
    rw [hL] at hnd
    have hpv : pre ≠ v := ne_of_mem_of_not_mem (List.mem_append_left l' hprel)
      (List.nodup_middle.mp hnd).notMem
    simp only [wp_bind, wp_modifyVma, wp_pure]
    have hedit : ∀ x : Vma, Edit s.vmas (Function.update (Function.update s.vmas pre
        { s.vmas pre with next := (s.vmas v).next }) v x) v l.getLast? (s.vmas v).next := by
      refine fun x => ⟨fun w hw => ?_, fun w hw hwl => ?_⟩
      · obtain rfl := Option.some.inj (hl.symm.trans hw)
        rw [Function.update_of_ne hpv, Function.update_self]
      · have hwp : w ≠ pre := fun e => hwl (e ▸ hl)
        rw [Function.update_of_ne hw, Function.update_of_ne hwp]
    rw [Function.update_idem]
    refine ⟨h.remove (q := s.cur) hL ?_ (hedit _) ?_ (fun _ _ => rfl) rfl hx fun _ => ⟨rfl, rfl⟩,
      fun _ => ⟨rfl, rfl⟩, (hedit _).samePlaces⟩
    · rw [Function.update_self]
    · rw [if_neg (List.ne_nil_of_mem hprel)]

theorem wp_munmap {addr length : ℕ} {mem : ℕ → UInt8} (h : Inv (head s.procs) L s)
    (hlive : (s.procs s.cur).live = true) (hok : WholeUnmap s s.cur addr length) :
    wp (munmap sb addr length mem) (fun _ t => ∃ L, Inv (head t.procs) L t) NoLoop s := by
  have hcur := h.lists.linked s.cur
  rw [show head s.procs s.cur = (s.procs s.cur).vma from if_pos hlive] at hcur
  unfold WholeUnmap at hok
  rw [hcur.follow_eq (h.lists.length_le s.cur)] at hok
  unfold munmap
  rw [wp_bind, wp_thisproc, wp_bind]
  refine wp_vmaOf hcur (h.lists.length_le s.cur) (fun _ => wp_pure.mpr ⟨L, h⟩) fun v l l' hL h1 h2 => ?_
  obtain ⟨rfl, rfl⟩ := hok v (by rw [hL]; exact List.mem_append_right l List.mem_cons_self) h1 h2
  rw [Option.or_none]
  exact (wp_unmap h hlive hL).imp fun _ t ht => ⟨_, ht.1⟩

theorem wp_pageFault {addr : ℕ} (h : Inv (head s.procs) L s) (hlive : (s.procs s.cur).live = true) :
    wp (pageFault sb addr) (fun _ t => ∃ L, Inv (head t.procs) L t) NoLoop s := by
  have hcur := h.lists.linked s.cur
  rw [show head s.procs s.cur = (s.procs s.cur).vma from if_pos hlive] at hcur
  unfold pageFault
  rw [wp_bind, wp_thisproc, wp_bind]
  refine wp_vmaOf hcur (h.lists.length_le s.cur) (fun _ => wp_pure.mpr ⟨L, h⟩) fun v l l' hL h1 h2 => ?_
  simp only [wp_bind, wp_getVma, wp_getFile, wp_pure]
  refine wp_stop fun _ _ => wp_fs (fun _ h => by cases h) fun _ _ => wp_stop fun _ fs => ?_
  exact ⟨L, h.withFs fs⟩

/-! ## `fork` -/

theorem Inv.withProcs {procs : ℕ → Calls.Proc} (h : Inv hd L s)
    (hfd : ∀ f q fd, FdRef { s with procs := procs } f q fd ↔ FdRef s f q fd)
    (hu : ∀ q, s.nextPid ≤ q → (procs q).live = false) : Inv hd L { s with procs := procs } := by
  refine ⟨h.lists, fun f => ?_, hu, h.running⟩
  have hsame := fdRefs_congr (s := s) (t := { s with procs := procs }) rfl (hfd f)
  rw [hsame]
  exact h.refs f

/-- One descriptor of a live process changes, and with it the count of a file. -/
theorem Inv.setFd {x : File} {g : Option ℕ} (h : Inv hd L s) (hq : (s.procs q).live = true)
    (hfd : fd < openfile) (hx : x.ref = (s.files f).ref -
      (if (s.procs q).files fd = some f then 1 else 0) + if g = some f then 1 else 0)
    (hg : ∀ f', f' ≠ f → ((s.procs q).files fd = some f' ↔ g = some f')) :
    Inv hd L { s with
      files := Function.update s.files f x
      procs := Function.update s.procs q
        { s.procs q with files := Function.update (s.procs q).files fd g } } := by
  refine ⟨h.lists, fun f' => ?_, fun p hp => ?_, h.running⟩
  · have hold := h.refs f'
    have hchange := fdRefs_change (s := s) (t := { s with
      files := Function.update s.files f x
      procs := Function.update s.procs q
        { s.procs q with files := Function.update (s.procs q).files fd g } }) (f := f') rfl
      (h.pid_lt hq) hfd fun q' fd' hne => ?_
    · rw [hchange]
      have h1 : FdRef s f' q fd ↔ (s.procs q).files fd = some f' := and_iff_right hq
      have h2 : FdRef { s with
          files := Function.update s.files f x
          procs := Function.update s.procs q
            { s.procs q with files := Function.update (s.procs q).files fd g } } f' q fd ↔
          g = some f' := by
        unfold FdRef
        dsimp only
        rw [Function.update_self]
        dsimp only
        rw [Function.update_self]
        exact and_iff_right hq
      simp only [h1, h2]
      by_cases hf : f' = f
      · rw [hf, Function.update_self, hx]
        rw [hf] at hold
        omega
      · rw [Function.update_of_ne hf]
        simp only [hg f' hf]
        omega
    · unfold FdRef
      dsimp only
      by_cases hqq : q' = q
      · rw [hqq, Function.update_self]
        dsimp only
        rw [Function.update_of_ne fun e => hne (by rw [hqq, e])]
      · rw [Function.update_of_ne hqq]
  · have hpq : p ≠ q := by
      rintro rfl
      exact absurd (h.pid_lt hq) (not_lt.mpr hp)
    exact (congrArg Calls.Proc.live (Function.update_of_ne hpq _ _)).trans (h.unborn p hp)

/-- Neither who is live nor a list changes. -/
theorem head_sameVma {procs : ℕ → Calls.Proc} {x : Calls.Proc} (hx : x.live = (procs q).live)
    (hv : x.vma = (procs q).vma) : head (Function.update procs q x) = head procs := by
  funext p
  unfold head
  by_cases hp : p = q
  · simp only [hp, Function.update_self, hx, hv]
  · simp only [Function.update_of_ne hp]

/-- One round of the loop of `fork` over the descriptors. -/
theorem wp_forkFd {child : ℕ} (h : Inv (head s.procs) L s) (hlive : (s.procs s.cur).live = true)
    (hchild : (s.procs child).live = true) (hfd : fd < openfile)
    (hnone : (s.procs child).files fd = none) {Q : Unit → Sys → Prop} (hQ : ∀ files g,
      Inv (head s.procs) L { s with
        files := files
        procs := Function.update s.procs child
          { s.procs child with files := Function.update (s.procs child).files fd g } } →
      Q () { s with
        files := files
        procs := Function.update s.procs child
          { s.procs child with files := Function.update (s.procs child).files fd g } }) :
    wp (forkFd child fd) Q NoLoop s := by
  unfold forkFd
  rw [wp_bind, wp_thisproc]
  cases hf : (s.procs s.cur).files fd with
  | none =>
    have hsame : Function.update s.procs child
        { s.procs child with files := Function.update (s.procs child).files fd none } = s.procs := by
      rw [← hnone, Function.update_eq_self, Function.update_eq_self]
    have hq := hQ s.files none
    rw [hsame] at hq
    exact wp_pure.mpr (hq h)
  | some f =>
    dsimp only
    rw [wp_bind]
    refine wp_fileDup (h.ref_of_fd hfd ⟨hlive, hf⟩) fun x hx _ => ?_
    unfold setFd
    rw [wp_modifyProc]
    refine hQ _ (some f) (h.setFd hchild hfd ?_ fun f' hne => ?_)
    · rw [hnone, if_neg (Option.some_ne_none f).symm, if_pos rfl, hx]
      omega
    · rw [hnone]
      exact iff_of_false (Option.some_ne_none f').symm fun e => hne (Option.some.inj e).symm

/-- The loop of `fork` over the mappings: the child has got copies of `l`, and `l'` is left. -/
theorem wp_forkVmas {child n : ℕ} {l l' : List ℕ} {pre : Option ℕ} (h : Inv (head s.procs) L s)
    (hlive : (s.procs s.cur).live = true) (hchild : (s.procs child).live = true)
    (hne : child ≠ s.cur) (hL : L s.cur = l ++ l')
    (hcopy : (L child).map (fun v => ((s.vmas v).start, (s.vmas v).stop)) =
      l.map fun v => ((s.vmas v).start, (s.vmas v).stop))
    (hpre : pre = (L child).getLast?) (hn : l'.length ≤ n) :
    wp (forkVmas child n l'.head? pre) (fun _ t => ∃ L, Inv (head t.procs) L t) NoLoop s := by
  induction n generalizing s L l l' pre with
  | zero =>
    obtain rfl := List.eq_nil_of_length_eq_zero (Nat.le_zero.mp hn)
    exact wp_pure.mpr ⟨L, h⟩
  | succ n ih =>
    cases l' with
    | nil => exact wp_pure.mpr ⟨L, h⟩
    | cons pv l' =>
      have hpvL : pv ∈ L s.cur := by
        rw [hL]
        exact List.mem_append_right l List.mem_cons_self
      have hslot := h.lists.slot s.cur pv hpvL
      have hnext : (s.vmas pv).next = l'.head? := by
        have hcur := h.lists.linked s.cur
        rw [hL] at hcur
        exact hcur.suffix.head?_eq
      show wp (forkVmas child (n + 1) (some pv) pre) _ _ _
      unfold forkVmas
      rw [wp_bind]
      refine wp_vmaAlloc fun v _ hv hfree => ?_
      rw [wp_bind, wp_getVma, wp_bind, wp_modifyVma, wp_bind]
      refine wp_fileDup (h.ref_of_vma hpvL) fun x hx _ => ?_
      have hpvv : pv ≠ v := ne_of_mem_of_not_mem hpvL (h.lists.not_mem hfree)
      have hafter : ∀ w ∈ L child, (s.vmas w).stop ≤ (s.vmas pv).start := by
        intro w hw
        have hmem := List.mem_map_of_mem (f := fun v => ((s.vmas v).start, (s.vmas v).stop)) hw
        rw [hcopy] at hmem
        obtain ⟨a, ha, hiv⟩ := List.mem_map.mp hmem
        have hord := h.lists.order s.cur
        rw [hL] at hord
        rw [← (Prod.mk.inj hiv).2]
        exact (List.pairwise_append.mp hord).2.2 a ha pv List.mem_cons_self
      -- What is left to do once the copy has its place.
      have hrest : ∀ procs vmas, Edit s.vmas vmas v (L child).getLast? (some v) →
          vmas v = { s.vmas pv with next := none } → SameFds s.procs procs →
          (∀ p, head procs p = if p = child ∧ L child = [] then some v else head s.procs p) →
          wp (do
            let x ← getVma pv
            forkVmas child n x.next (some v)) (fun _ t => ∃ L, Inv (head t.procs) L t) NoLoop
            { s with
              files := Function.update s.files (s.vmas pv).file x, procs := procs, vmas := vmas } := by
        intro procs vmas he hvv hp hhead
        have hvL : ∀ q, v ∉ L q := fun q => h.lists.not_mem hfree
        have hpvlast : pv ∉ (L child).getLast? := fun hm =>
          hne (h.lists.own child s.cur pv (List.mem_of_getLast? hm) hpvL)
        have hinv : Inv (head procs) (Function.update L child (L child ++ [v]))
            { s with
              files := Function.update s.files (s.vmas pv).file x, procs := procs, vmas := vmas } :=
          h.append hv hfree (by rw [hvv]; exact hslot.2.1) (by rw [hvv]; exact hslot.2.2)
            (by rw [hvv]) (by rw [hvv]; exact hafter) he (by rw [hhead]; simp only [true_and])
            (fun p hpc => by rw [hhead, if_neg fun e => hpc e.1]) (by rw [hvv]) hx hp
        have hiv : ∀ l : List ℕ, v ∉ l → l.map (fun v => ((vmas v).start, (vmas v).stop)) =
            l.map fun v => ((s.vmas v).start, (s.vmas v).stop) := by
          intro l hl
          refine List.map_congr_left fun w hw => ?_
          rw [he.same (ne_of_mem_of_not_mem hw hl)]
        have hvl : v ∉ l := fun hm => hvL s.cur (by rw [hL]; exact List.mem_append_left (pv :: l') hm)
        rw [wp_bind, wp_getVma]
        dsimp only
        rw [he.rest pv hpvv hpvlast, hnext]
        refine ih (l := l ++ [pv]) hinv ((hp s.cur).1.trans hlive) ((hp child).1.trans hchild) hne ?_ ?_
          ?_ (Nat.le_of_succ_le_succ hn)
        · rw [Function.update_of_ne hne.symm, hL, List.append_assoc, List.singleton_append]
        · dsimp only
          rw [Function.update_self, List.map_append, List.map_append, hiv _ (hvL child), hiv _ hvl, hcopy,
            List.map_singleton, List.map_singleton, hvv, he.rest pv hpvv hpvlast]
        · rw [Function.update_self, List.getLast?_concat]
      rw [wp_bind]
      rcases hlast : (L child).getLast? with _ | w
      · rw [hlast] at hpre
        subst hpre
        rw [List.getLast?_eq_none_iff] at hlast
        rw [wp_modifyProc]
        refine hrest _ _ ⟨fun w hw => ?_, fun w hw _ => Function.update_of_ne hw _ _⟩
          (Function.update_self v _ _)
          (SameFds.update (k := fun p => { p with vma := some v }) fun _ => ⟨rfl, rfl⟩) fun p => ?_
        · rw [hlast] at hw
          exact absurd hw (Option.not_mem_none w)
        · rw [head_update (x := { s.procs child with vma := some v }) hchild]
          simp only [hlast, and_true]
      · rw [hlast] at hpre
        subst hpre
        have hwL := List.mem_of_getLast? hlast
        have hwv : w ≠ v := ne_of_mem_of_not_mem hwL (h.lists.not_mem hfree)
        rw [wp_modifyVma]
        refine hrest _ _ ⟨fun a ha => ?_, fun a hav hal => ?_⟩ ?_ (fun _ => ⟨rfl, rfl⟩) fun p => ?_
        · obtain rfl := Option.some.inj (hlast.symm.trans ha)
          dsimp only
          rw [Function.update_self, Function.update_of_ne hwv]
        · have haw : a ≠ w := fun e => hal (e ▸ hlast)
          dsimp only
          rw [Function.update_of_ne haw, Function.update_of_ne hav]
        · dsimp only
          rw [Function.update_of_ne hwv.symm, Function.update_self]
        · rw [if_neg fun e => List.ne_nil_of_mem hwL e.2]

/-- A new process has neither descriptors nor mappings. -/
theorem Inv.newProc {cwd : Option ℕ} (h : Inv (head s.procs) L s) (fs : FsState) :
    Inv (head (Function.update s.procs s.nextPid ⟨true, cwd, fun _ => none, none⟩)) L { s with
      fs := fs
      nextPid := s.nextPid + 1
      procs := Function.update s.procs s.nextPid ⟨true, cwd, fun _ => none, none⟩ } := by
  have hhead : head (Function.update s.procs s.nextPid ⟨true, cwd, fun _ => none, none⟩) =
      head s.procs := by
    funext p
    rw [head_update (x := ⟨true, cwd, fun _ => none, none⟩) rfl]
    split_ifs with hp
    · rw [hp]
      exact (if_neg (by rw [h.unborn s.nextPid le_rfl]; exact Bool.false_ne_true)).symm
    · rfl
  refine ⟨hhead ▸ h.lists, fun f => ?_, fun p hp => ?_, h.running⟩
  · have hfd := fdRefs_extend (s := s) (f := f) (t := { s with
      fs := fs
      nextPid := s.nextPid + 1
      procs := Function.update s.procs s.nextPid ⟨true, cwd, fun _ => none, none⟩ }) rfl
      (fun q fd hq => ?_) fun q fd hq hf => ?_
    · rw [hfd]
      exact h.refs f
    · unfold FdRef
      dsimp only
      rw [Function.update_of_ne (by omega)]
    · obtain ⟨h1, h2⟩ := hf
      dsimp only at h1 h2
      by_cases hqn : q = s.nextPid
      · rw [hqn, Function.update_self] at h2
        cases h2
      · rw [Function.update_of_ne hqn, h.unborn q hq] at h1
        cases h1
  · dsimp only at hp ⊢
    rw [Function.update_of_ne (by omega)]
    exact h.unborn p (by omega)

/-- `fork` gives the child copies of the mappings. -/
theorem wp_fork (h : Inv (head s.procs) L s) (hlive : (s.procs s.cur).live = true) :
    wp (fork sb) (fun _ t => ∃ L, Inv (head t.procs) L t) NoLoop s := by
  have hcur : s.nextPid ≠ s.cur := by
    have := h.pid_lt hlive
    omega
  unfold fork getCwd
  rw [wp_bind, wp_bind, wp_thisproc]
  split
  swap
  · exact wp_throw.mpr fun h => by cases h
  rw [wp_pure, wp_bind]
  refine wp_stop fun cwd fs => ?_
  rw [wp_bind, wp_get, wp_bind, wp_set, wp_bind, wp_modifyProc, wp_bind]
  have hL : L s.nextPid = [] := by
    have hl := h.lists.linked s.nextPid
    unfold head at hl
    rw [h.unborn s.nextPid le_rfl, if_neg Bool.false_ne_true] at hl
    exact hl.eq_nil
  -- The descriptors from `i` on are still closed.
  have hfds := wp_forN (f := forkFd s.nextPid) (E := NoLoop) (a := 0) (n := openfile)
    (fun i t => Inv (head t.procs) L t ∧ t.cur = s.cur ∧ (t.procs s.cur).live = true ∧
      (t.procs s.nextPid).live = true ∧ ∀ fd, i ≤ fd → (t.procs s.nextPid).files fd = none)
    (s := { s with
      fs := fs
      nextPid := s.nextPid + 1
      procs := Function.update s.procs s.nextPid ⟨true, some cwd, fun _ => none, none⟩ })
    ⟨h.newProc fs, rfl, ?_, ?_, fun fd _ => ?_⟩ fun i t _ hi ht => ?_
  · refine hfds.imp fun _ t ht => ?_
    obtain ⟨ht, hc, hl, hchild, -⟩ := ht
    rw [wp_bind, wp_thisproc, wp_bind]
    have hvma : (t.procs t.cur).vma = (L t.cur).head? := by
      have hlinked := ht.lists.linked t.cur
      unfold head at hlinked
      rw [hc, if_pos hl] at hlinked
      rw [hc]
      exact hlinked.head?_eq
    rw [hvma]
    refine (wp_forkVmas (l := []) ht (hc ▸ hl) hchild (hc ▸ hcur) rfl ?_ ?_ ?_).imp fun _ u hu =>
      wp_pure.mpr hu
    · rw [hL]
    · rw [hL]
      rfl
    · exact (ht.lists.length_le t.cur).trans (Nat.le_succ nvma)
  · dsimp only
    rw [Function.update_of_ne hcur.symm]
    exact hlive
  · dsimp only
    rw [Function.update_self]
  · dsimp only
    rw [Function.update_self]
  · obtain ⟨ht, hc, hl, hchild, hnone⟩ := ht
    refine wp_forkFd ht (hc ▸ hl) hchild (by omega) (hnone i le_rfl) fun files g hinv => ?_
    refine ⟨?_, hc, ?_, ?_, fun fd hfd => ?_⟩
    · exact hinv.of_head (head_sameVma rfl rfl)
    · dsimp only
      rw [Function.update_of_ne hcur.symm]
      exact hl
    · dsimp only
      rw [Function.update_self]
      exact hchild
    · dsimp only
      rw [Function.update_self]
      dsimp only
      rw [Function.update_of_ne (by omega)]
      exact hnone fd (by omega)

/-! ## `exit` -/

/-- One round of the loop of `exit` over the descriptors. -/
theorem wp_exitFd (h : Inv (head s.procs) L s) (hlive : (s.procs s.cur).live = true)
    (hfd : fd < openfile) {Q : Unit → Sys → Prop} (hQ : ∀ fs files,
      Inv (head s.procs) L { s with
        fs := fs
        files := files
        procs := Function.update s.procs s.cur
          { s.procs s.cur with files := Function.update (s.procs s.cur).files fd none } } →
      Q () { s with
        fs := fs
        files := files
        procs := Function.update s.procs s.cur
          { s.procs s.cur with files := Function.update (s.procs s.cur).files fd none } }) :
    wp (exitFd sb fd) Q NoLoop s := by
  unfold exitFd
  rw [wp_bind, wp_get]
  cases hf : (s.procs s.cur).files fd with
  | none =>
    have hsame : Function.update s.procs s.cur
        { s.procs s.cur with files := Function.update (s.procs s.cur).files fd none } = s.procs := by
      rw [← hf, Function.update_eq_self, Function.update_eq_self]
    have hq := hQ s.fs s.files
    rw [hsame] at hq
    exact wp_pure.mpr (hq h)
  | some f =>
    dsimp only
    rw [wp_bind]
    refine wp_fileClose fun fs x hx => ?_
    unfold setFd
    rw [wp_modifyProc]
    refine hQ fs _ ((h.withFs fs).setFd hlive hfd ?_ fun f' hne => ?_)
    · rw [hf, if_pos rfl, if_neg (Option.some_ne_none f).symm, hx, add_zero]
    · rw [hf]
      exact iff_of_false (fun e => hne (Option.some.inj e).symm) (Option.some_ne_none f').symm

/-- The loop of `exit` over the mappings. -/
theorem wp_exitVmas {mem : ℕ → UInt8} {n : ℕ} (h : Inv hd L s) (hn : (L s.cur).length ≤ n)
    {Q : Unit → Sys → Prop} (hQ : ∀ L fs files vmas,
      Inv (Function.update hd s.cur none) L { s with fs := fs, files := files, vmas := vmas } →
      Q () { s with fs := fs, files := files, vmas := vmas }) :
    wp (exitVmas sb mem n (hd s.cur)) Q NoLoop s := by
  induction n generalizing hd L s with
  | zero =>
    have hnil := List.eq_nil_of_length_eq_zero (Nat.le_zero.mp hn)
    have hlinked := h.lists.linked s.cur
    rw [hnil, linked_nil] at hlinked
    rw [hlinked]
    refine wp_pure.mpr (hQ L s.fs s.files s.vmas ?_)
    rw [← hlinked, Function.update_eq_self]
    exact h
  | succ n ih =>
    have hlinked := h.lists.linked s.cur
    cases hL : L s.cur with
    | nil =>
      rw [hL, linked_nil] at hlinked
      rw [hlinked]
      refine wp_pure.mpr (hQ L s.fs s.files s.vmas ?_)
      rw [← hlinked, Function.update_eq_self]
      exact h
    | cons v l =>
      rw [hL] at hlinked hn
      rw [hlinked.1]
      unfold exitVmas
      rw [wp_bind, wp_getVma, wp_bind]
      refine wp_writeback fun fs => ?_
      rw [wp_bind]
      refine wp_fileClose fun fs' x hx => ?_
      rw [wp_bind, wp_getVma, wp_bind, wp_modifyVma]
      have hinv : Inv (Function.update hd s.cur (s.vmas v).next) (Function.update L s.cur ([] ++ l))
          { s with
            fs := fs'
            files := Function.update s.files (s.vmas v).file x
            vmas := Function.update s.vmas v { s.vmas v with next := none, length := 0 } } :=
        (h.withFs fs').remove hL ?_ ⟨fun w hw => ?_, fun w hw _ => Function.update_of_ne hw _ _⟩ ?_
          (fun p hp => ?_) rfl hx fun _ => ⟨rfl, rfl⟩
      · have hnext := ih hinv ?_ fun L fs files vmas hi => hQ L fs files vmas ?_
        · rw [Function.update_self] at hnext
          exact hnext
        · rw [Function.update_self]
          exact Nat.le_of_succ_le_succ hn
        · rw [Function.update_idem] at hi
          exact hi
      · rw [Function.update_self]
      · exact absurd hw (Option.not_mem_none w)
      · rw [Function.update_self, if_pos rfl]
      · exact Function.update_of_ne hp _ _

/-- The process has neither descriptors nor mappings, and dies. -/
theorem Inv.die {x : Calls.Proc} (h : Inv (Function.update (head s.procs) q none) L s)
    (hfds : ∀ fd, fd < openfile → (s.procs q).files fd = none) (hq : q < s.nextPid)
    (hx : x.live = false) : Inv (head (Function.update s.procs q x)) L
      { s with procs := Function.update s.procs q x } := by
  have hhead : head (Function.update s.procs q x) = Function.update (head s.procs) q none := by
    funext p
    unfold head
    by_cases hp : p = q
    · simp only [hp, Function.update_self, hx, Bool.false_eq_true, if_false]
    · simp only [Function.update_of_ne hp]
  refine Inv.of_head ⟨h.lists, fun f => ?_, fun p hp => ?_, h.running⟩ hhead
  · have hsame : fdRefs { s with procs := Function.update s.procs q x } f = fdRefs s f := by
      unfold fdRefs
      refine countIf_congr fun i _ => ?_
      unfold FdRef
      dsimp only
      by_cases hi : i / openfile = q
      · have hnone := hfds (i % openfile) (Nat.mod_lt i (by decide))
        rw [hi, Function.update_self, hx, hnone]
        exact iff_of_false (fun e => Bool.false_ne_true e.1) fun e => Option.some_ne_none f e.2.symm
      · rw [Function.update_of_ne hi]
    rw [hsame]
    exact h.refs f
  · dsimp only at hp ⊢
    rw [Function.update_of_ne (by omega)]
    exact h.unborn p hp

theorem wp_exitCwd {Q : Unit → Sys → Prop} (hQ : ∀ fs cwd, Q () { s with
      fs := fs
      procs := Function.update s.procs s.cur { s.procs s.cur with cwd := cwd } }) :
    wp (exitCwd sb) Q NoLoop s := by
  unfold exitCwd
  rw [wp_bind, wp_get]
  split
  · next hc =>
    have hq := hQ s.fs none
    have hsame : Function.update s.procs s.cur { s.procs s.cur with cwd := none } = s.procs := by
      rw [← hc, Function.update_eq_self]
    rw [hsame] at hq
    exact wp_pure.mpr hq
  · rw [wp_bind]
    refine wp_stop fun _ fs => ?_
    rw [wp_modifyProc]
    exact hQ fs none

/-- `exit` takes every mapping and every descriptor of the process away. -/
theorem wp_exit {mem : ℕ → UInt8} (h : Inv (head s.procs) L s)
    (hlive : (s.procs s.cur).live = true) :
    wp (exit sb mem) (fun _ t => ∃ L, Inv (head t.procs) L t) NoLoop s := by
  unfold exit
  rw [wp_bind]
  -- The descriptors below `i` are closed.
  refine (wp_forN (f := exitFd sb) (E := NoLoop) (a := 0) (n := openfile)
    (fun i t => Inv (head t.procs) L t ∧ t.cur = s.cur ∧ (t.procs s.cur).live = true ∧
      ∀ fd, fd < i → (t.procs s.cur).files fd = none)
    ⟨h, rfl, hlive, fun fd hfd => absurd hfd (Nat.not_lt_zero fd)⟩ fun i t _ hi ht => ?_).imp
    fun _ t ht => ?_
  · obtain ⟨ht, hc, hl, hnone⟩ := ht
    refine wp_exitFd ht (hc ▸ hl) (by omega) fun fs files hinv => ?_
    refine ⟨hinv.of_head (head_sameVma rfl rfl), hc, ?_, fun fd hfd => ?_⟩
    · dsimp only
      rw [hc, Function.update_self]
      exact hl
    · dsimp only
      rw [hc, Function.update_self]
      dsimp only
      by_cases hfi : fd = i
      · rw [hfi, Function.update_self]
      · rw [Function.update_of_ne hfi]
        exact hnone fd (by omega)
  · obtain ⟨ht, hc, hl, hnone⟩ := ht
    rw [Nat.zero_add] at hnone
    rw [wp_bind, wp_thisproc, wp_bind]
    have hhead : (t.procs t.cur).vma = head t.procs t.cur := (if_pos (hc ▸ hl)).symm
    rw [hhead]
    refine wp_exitVmas ht ((ht.lists.length_le t.cur).trans (by decide)) fun L fs files vmas hinv => ?_
    rw [wp_bind]
    refine wp_exitCwd fun fs' cwd => ?_
    rw [wp_bind, wp_get, wp_bind, wp_modifyProc, wp_pure]
    have hend := Inv.die (s := { t with fs := fs', files := files, vmas := vmas }) (q := t.cur)
      (x := { t.procs t.cur with live := false, cwd := cwd }) (hinv.withFs fs') (fun fd hfd => by rw [hc]; exact hnone fd hfd) (ht.pid_lt (hc ▸ hl)) rfl
    refine ⟨L, ?_⟩
    dsimp only
    rw [Function.update_idem, Function.update_self]
    exact hend

/-! ## Runs -/

/-- The mappings of the live processes are the lists `L`: no list has a cycle or a free slot,
    every slot in use is in one list, the mappings of a process are disjoint, and the count of a
    file is the number of descriptors and mappings that refer to it. -/
structure VmaLists (s : Sys) (L : ℕ → List ℕ) : Prop where
  linked : ∀ q, s.Live q → Linked (fun v => (s.vmas v).next) (s.procs q).vma (L q)
  nodup : ∀ q, s.Live q → (L q).Nodup
  slot : ∀ q, s.Live q → ∀ v ∈ L q, v < nvma ∧ 0 < (s.vmas v).length
  owner : ∀ v < nvma, 0 < (s.vmas v).length → ∃! q, s.Live q ∧ v ∈ L q
  disjoint : ∀ q, s.Live q → ∀ v ∈ L q, ∀ w ∈ L q, v ≠ w →
    Disjoint (Set.Ico (s.vmas v).start (s.vmas v).stop) (Set.Ico (s.vmas w).start (s.vmas w).stop)
  refs : ∀ f, (s.files f).ref = fdRefs s f + vmaRefs s.vmas f

/-- No process has a mapping, and the files have the references of their descriptors. What the
    `next` pointers of the slots are does not matter. -/
structure NoMappings (s : Sys) : Prop where
  running : s.halted = none
  unborn : ∀ q, s.nextPid ≤ q → (s.procs q).live = false
  vma : ∀ q, s.Live q → (s.procs q).vma = none
  free : ∀ v, (s.vmas v).length = 0
  refs : ∀ f, (s.files f).ref = fdRefs s f

/-- The calls of a run: `mmap`, `munmap` of whole mappings, the faults of the pages, `fork` and
    `exit`. -/
def VmaCall (s : Sys) (a : ℕ × Syscall) : Prop :=
  match a.2 with
  | .mmap .. => True
  | .munmap addr length _ => WholeUnmap s a.1 addr length
  | .pageFault _ => True
  | .fork => True
  | .exit _ => True
  | _ => False

/-- The condition on `mmap`. -/
def FreshMmap (s : Sys) (a : ℕ × Syscall) : Prop :=
  match a.2 with
  | .mmap addr length prot flags fd offset =>
    Maps s a.1 addr prot flags fd offset → MmapOk s a.1 length
  | _ => True

instance (s : Sys) (q addr prot flags : ℕ) (fd offset : ℤ) :
    Decidable (Maps s q addr prot flags fd offset) := inferInstanceAs (Decidable (_ ∧ _))

instance (vmas : ℕ → Vma) (v : ℕ) (length : ℤ) : ∀ h, Decidable (Fits vmas v length h)
  | none => inferInstanceAs (Decidable (_ ∧ _))
  | some _ => inferInstanceAs (Decidable (∀ _ ∈ _, _))

instance (s : Sys) (q : ℕ) (length : ℤ) : Decidable (MmapOk s q length) :=
  inferInstanceAs (Decidable (∀ v ∈ findVma s.vmas nvma 0, 0 < length ∧ Fits s.vmas v length _))

instance (s : Sys) (q addr length : ℕ) : Decidable (WholeUnmap s q addr length) :=
  inferInstanceAs (Decidable (∀ w ∈ follow (fun v => (s.vmas v).next) nvma (s.procs q).vma, _))

instance (s : Sys) : ∀ a, Decidable (VmaCall s a)
  | (_, .munmap ..) => inferInstanceAs (Decidable (WholeUnmap ..))
  | (_, .mmap ..) | (_, .pageFault _) | (_, .fork) | (_, .exit _) => isTrue trivial
  | (_, .openat ..) | (_, .mkdirat ..) | (_, .mknodat ..) | (_, .newfstatat ..) | (_, .unlinkat ..)
  | (_, .chdir _) | (_, .execve _) | (_, .dup _) | (_, .close _) | (_, .fstat ..) | (_, .read ..)
  | (_, .write ..) | (_, .writev ..) => isFalse id

instance (s : Sys) : ∀ a, Decidable (FreshMmap s a)
  | (_, .mmap ..) => inferInstanceAs (Decidable (Maps .. → MmapOk ..))
  | (_, .munmap ..) | (_, .pageFault _) | (_, .fork) | (_, .exit _) | (_, .openat ..)
  | (_, .mkdirat ..) | (_, .mknodat ..) | (_, .newfstatat ..) | (_, .unlinkat ..) | (_, .chdir _)
  | (_, .execve _) | (_, .dup _) | (_, .close _) | (_, .fstat ..) | (_, .read ..) | (_, .write ..)
  | (_, .writev ..) => isTrue trivial

/-- The invariant gives the property. -/
theorem Inv.vmaLists (h : Inv (head s.procs) L s) : VmaLists s L := by
  have hhead : ∀ q, s.Live q → head s.procs q = (s.procs q).vma := fun q hq => if_pos hq.2
  refine ⟨fun q hq => hhead q hq ▸ h.lists.linked q, fun q _ => (h.lists.linked q).nodup,
    fun q _ v hv => ⟨(h.lists.slot q v hv).1, (h.lists.slot q v hv).2.1⟩, fun v hv hlen => ?_,
    fun q _ v hv w hw hne => ?_, h.refs⟩
  · obtain ⟨q, hq⟩ := h.lists.used v hv hlen
    have hlive : (s.procs q).live = true := by
      by_contra hdead
      have hlinked := h.lists.linked q
      unfold head at hlinked
      rw [if_neg hdead] at hlinked
      rw [hlinked.eq_nil] at hq
      exact List.not_mem_nil hq
    exact ⟨q, ⟨⟨h.pid_lt hlive, hlive⟩, hq⟩, fun p hp => h.lists.own p q v hp.2 hq⟩
  · have hdisj : (L q).Pairwise fun v w => Disjoint (Set.Ico (s.vmas v).start (s.vmas v).stop)
        (Set.Ico (s.vmas w).start (s.vmas w).stop) := by
      refine (h.lists.order q).imp fun {a b} hab => ?_
      rw [Set.Ico_disjoint_Ico]
      omega
    have hsymm : Std.Symm fun v w => Disjoint (Set.Ico (s.vmas v).start (s.vmas v).stop)
        (Set.Ico (s.vmas w).start (s.vmas w).stop) := ⟨fun _ _ hab => hab.symm⟩
    exact hdisj.forall hv hw hne

theorem NoMappings.inv (h : NoMappings s) : Inv (head s.procs) (fun _ => []) s := by
  refine ⟨⟨fun q => ?_, fun _ _ hv => absurd hv List.not_mem_nil, fun _ _ _ hv => absurd hv List.not_mem_nil,
    fun v _ hlen => ?_, fun _ => List.Pairwise.nil⟩, fun f => ?_, h.unborn, h.running⟩
  · rw [linked_nil]
    unfold head
    split_ifs with hlive
    · refine h.vma q ⟨?_, hlive⟩
      by_contra hle
      rw [h.unborn q (by omega)] at hlive
      exact Bool.false_ne_true hlive
    · rfl
  · have := h.free v
    omega
  · have hnone : vmaRefs s.vmas f = 0 := countIf_none fun v _ hv => by
      have := h.free v
      omega
    rw [hnone, add_zero]
    exact h.refs f

/-- One call under its condition. -/
theorem wp_call {c : Syscall} (h : Inv (head s.procs) L s) (hlive : (s.procs s.cur).live = true)
    (hcall : VmaCall s (s.cur, c)) (hok : FreshMmap s (s.cur, c)) :
    wp (c.run sb) (fun _ t => ∃ L, Inv (head t.procs) L t) NoLoop s := by
  cases c with
  | mmap addr length prot flags fd offset =>
    refine (wp_mmap h hlive hok).imp fun r t ht => ?_
    rcases ht with ⟨-, rfl⟩ | ⟨v, f, -, -, -, ht, -⟩
    · exact ⟨L, h⟩
    · exact ⟨_, ht.inv⟩
  | munmap addr length mem => exact wp_munmap h hlive hcall
  | pageFault addr => exact wp_pageFault h hlive
  | fork => exact wp_fork h hlive
  | exit mem => exact wp_exit h hlive
  | _ => exact hcall.elim

/-- In every run in which no first mapping of a process gets a slot with an old link, and no
    mapping is empty or reaches `2 ^ 64`, the lists of mappings are right after every call, and no
    call runs into a cycle. -/
theorem vma_lists {s₀ : Sys} (h0 : NoMappings s₀)
    (hrun : Run (next sb) (fun s a => VmaCall s a ∧ FreshMmap s a) s₀ s) :
    s.halted ≠ some .loops ∧ (s.halted = none → ∃ L, VmaLists s L) := by
  have hinv : s.halted ≠ some .loops ∧ (s.halted = none → ∃ L, Inv (head s.procs) L s) := by
    refine hrun.invariant (I := fun s => s.halted ≠ some .loops ∧
      (s.halted = none → ∃ L, Inv (head s.procs) L s)) ⟨?_, fun _ => ⟨_, h0.inv⟩⟩
      fun t a u ht hok hstep => ?_
    · rw [h0.running]
      exact (Option.some_ne_none _).symm
    · obtain ⟨L, hL⟩ := ht.2 (halted_of_next hstep)
      unfold next at hstep
      split_ifs at hstep with hlive
      have hcur : Inv (head t.procs) L { t with cur := a.1 } :=
        ⟨hL.lists, hL.refs, hL.unborn, hL.running⟩
      have hcall : wp (a.2.run sb) (fun _ u => ∃ L, Inv (head u.procs) L u) NoLoop
          { t with cur := a.1 } := wp_call hcur hlive.2.2 hok.1 hok.2
      split at hstep
      · next hr =>
        obtain rfl := Option.some.inj hstep
        obtain ⟨L', hL'⟩ := hcall.of_ok hr
        rw [hL'.running]
        exact ⟨(Option.some_ne_none _).symm, fun _ => ⟨L', hL'⟩⟩
      · next e _ hr =>
        obtain rfl := Option.some.inj hstep
        have he := hcall.of_error hr
        exact ⟨fun h => he (Option.some.inj h), fun h => by cases h⟩
  exact ⟨hinv.1, fun hn => (hinv.2 hn).imp fun _ h => h.vmaLists⟩

/-! ## A small run -/

/-- The file system after the first process has opened `/d`. -/
def openFs : FsState :=
  match exec (next smallFs) smallSys [(0, .openat atFdCwd dPath 0)] with
  | some s => s.fs
  | none => smallSys.fs

/-- The first process has the inode `ip` open for reading, with descriptor 0. -/
def oneFile (fs : FsState) (ip : ℕ) : Sys where
  fs := fs
  root := some 1
  files := Function.update (fun _ => File.zero) 0 ⟨.inode, 1, true, false, ip, 0⟩
  procs := fun q => if q = 0 then ⟨true, some 1, fun fd => if fd = 0 then some 0 else none, none⟩
    else ⟨false, none, fun _ => none, none⟩
  nextPid := 1
  vmas := fun _ => ⟨0, 0, 0, 0, 0, 0, none⟩
  cur := 0
  halted := none

/-- The first process has opened `/d`. -/
def mapSys : Sys := oneFile openFs 2

theorem fdRefs_oneFile (fs : FsState) (ip f : ℕ) :
    fdRefs (oneFile fs ip) f = if f = 0 then 1 else 0 := by
  have hfd : ∀ i < openfile, FdRef (oneFile fs ip) f (i / openfile) (i % openfile) ↔
      i = 0 ∧ f = 0 := by
    intro i hi
    rw [Nat.div_eq_of_lt hi, Nat.mod_eq_of_lt hi]
    show true = true ∧ (if i = 0 then some 0 else none) = some f ↔ _
    split_ifs with h0
    · simp only [h0, true_and, Option.some.injEq, eq_comm]
    · simp only [h0, false_and, and_false]
  have hcount : fdRefs (oneFile fs ip) f = countIf openfile fun i => i = 0 ∧ f = 0 :=
    countIf_congr hfd
  rw [hcount]
  split_ifs with hf
  · subst hf
    decide +kernel
  · exact countIf_none fun _ _ h => hf h.2

theorem noMappings_oneFile (fs : FsState) (ip : ℕ) : NoMappings (oneFile fs ip) := by
  refine ⟨rfl, fun q hq => ?_, fun q hq => ?_, fun _ => rfl, fun f => ?_⟩
  · exact congrArg Calls.Proc.live (if_neg (Nat.ne_of_gt hq))
  · have hq0 : q = 0 := Nat.lt_one_iff.mp hq.1
    rw [hq0]
    rfl
  · rw [fdRefs_oneFile]
    show (Function.update (fun _ => File.zero) 0 _ f).ref = _
    split_ifs with hf
    · rw [hf, Function.update_self]
    · rw [Function.update_of_ne hf]
      rfl

/-- One page of the file, mapped for reading. -/
def mapPage : Syscall := .mmap 0 4096 protRead mapPrivate 0 0

/-- Two processes map and unmap pages, from the front and from the back of their lists. -/
theorem vma_lists_fork : ∃ s,
    Run (next smallFs) (fun s a => VmaCall s a ∧ FreshMmap s a) mapSys s ∧
    s.halted = none ∧ ∃ L, VmaLists s L := by
  have hexec : (execIf (next smallFs) (fun s a => VmaCall s a ∧ FreshMmap s a) mapSys
      [(0, mapPage), (0, mapPage), (0, .pageFault vmaStart), (0, .fork),
        (0, .munmap vmaStart 4096 fun _ => 0), (1, .munmap (vmaStart + 4096) 4096 fun _ => 0),
        (0, mapPage), (1, mapPage), (1, .exit fun _ => 0)]).map Sys.halted = some none := by
    decide +kernel
  obtain ⟨s, hrun, hs⟩ := Run.of_execIf_map hexec
  exact ⟨s, hrun, hs, (vma_lists (noMappings_oneFile openFs 2) hrun).2 hs⟩

/-- The child maps a page after its parent has mapped two and unmapped the first. It gets the
    slot of that page, whose link still leads to the second page of the parent. -/
theorem vma_lists_shared : ¬ ∀ s₀ s, NoMappings s₀ → Run (next smallFs) VmaCall s₀ s →
    s.halted = none → ∃ L, VmaLists s L := by
  intro h
  have hexec : (execIf (next smallFs) VmaCall mapSys
      [(0, .fork), (0, mapPage), (0, mapPage), (0, .pageFault vmaStart),
        (0, .pageFault (vmaStart + 4096)), (0, .munmap vmaStart 4096 fun _ => 0),
        (1, mapPage)]).map (fun s => (s.halted, decide (s.Live 0), decide (s.Live 1),
      [(s.procs 0).vma, (s.procs 1).vma, (s.vmas 0).next])) =
      some (none, true, true, [some 1, some 0, some 1]) := by decide +kernel
  obtain ⟨s, hrun, hs⟩ := Run.of_execIf_map hexec
  simp only [Prod.mk.injEq, decide_eq_true_eq, List.cons.injEq, and_true] at hs
  obtain ⟨hn, h0, h1, hv0, hv1, hnext⟩ := hs
  obtain ⟨L, hL⟩ := h mapSys s (noMappings_oneFile openFs 2) hrun hn
  have hlist0 := hL.linked 0 h0
  have hlist1 := hL.linked 1 h1
  rw [hv0] at hlist0
  rw [hv1] at hlist1
  obtain ⟨l0, hl0, -⟩ := hlist0.exists_cons
  obtain ⟨l1, hl1, hrest⟩ := hlist1.exists_cons
  rw [hnext] at hrest
  obtain ⟨l2, hl2, -⟩ := hrest.exists_cons
  have hmem0 : 1 ∈ L 0 := by
    rw [hl0]
    exact List.mem_cons_self
  have hmem1 : 1 ∈ L 1 := by
    rw [hl1, hl2]
    exact List.mem_cons_of_mem 0 List.mem_cons_self
  obtain ⟨q, -, hq⟩ := hL.owner 1 (hL.slot 0 h0 1 hmem0).1 (hL.slot 0 h0 1 hmem0).2
  exact Nat.zero_ne_one ((hq 0 ⟨h0, hmem0⟩).trans (hq 1 ⟨h1, hmem1⟩).symm)

end ShikiOS.Kernel.Vmas
