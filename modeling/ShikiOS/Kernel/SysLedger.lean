import ShikiOS.Fs.InodeLedger
import ShikiOS.Kernel.Syscalls
import ShikiOS.Lib.Count

/-!
# References to inodes across system calls

`refs s p` counts the references to an `Inode` that outlive a system call: working
directories of live processes, open files and `inodes.root`. While a call runs it holds
references of its own. `Running env g s` says that the call of the process `env.pid` holds
the references in `g`, and that together with `refs` they are the reference counts, if
`env.acct` holds. `Spec env x g Q` says that `x` takes a call from `g` to `Q`; there is one
rule for each of the `Services` and one for each call made of them.
-/

namespace ShikiOS.Kernel.Calls

open ShikiOS.Lib Fs Fs.Bcache Fs.Inodes

/-! ## References -/

/-- The process `q` is live and works in the directory `p`. -/
def CwdRef (s : Sys) (p q : ℕ) : Prop := (s.procs q).live = true ∧ (s.procs q).cwd = some p

/-- An open file of type `FD_INODE` on `p`. -/
def FileRef (x : File) (p : ℕ) : Prop := 0 < x.ref ∧ x.type = .inode ∧ x.ip = p

instance (s : Sys) (p : ℕ) : DecidablePred (CwdRef s p) := fun _ => inferInstanceAs (Decidable (_ ∧ _))

instance (x : File) (p : ℕ) : Decidable (FileRef x p) := inferInstanceAs (Decidable (_ ∧ _ ∧ _))

/-- The references to `p` that outlive a call. -/
def refs (s : Sys) (p : ℕ) : ℤ :=
  countIf s.nextPid (CwdRef s p) + countIf nfile (fun f => FileRef (s.files f) p) +
    if s.root = some p then 1 else 0

theorem refs_pos_of_cwd {s : Sys} {p q : ℕ} (hq : s.Live q) (hc : (s.procs q).cwd = some p) :
    0 < refs s p := by
  have h1 : 0 < countIf s.nextPid (CwdRef s p) := countIf_pos hq.1 ⟨hq.2, hc⟩
  have h2 := countIf_nonneg (n := nfile) (P := fun f => FileRef (s.files f) p)
  unfold refs
  split_ifs <;> omega

theorem refs_pos_of_file {s : Sys} {p f : ℕ} (hf : f < nfile) (hr : FileRef (s.files f) p) :
    0 < refs s p := by
  have h1 : 0 < countIf nfile (fun f => FileRef (s.files f) p) := countIf_pos hf hr
  have h2 := countIf_nonneg (n := s.nextPid) (P := CwdRef s p)
  unfold refs
  split_ifs <;> omega

theorem refs_pos_of_root {s : Sys} {p : ℕ} (hr : s.root = some p) : 0 < refs s p := by
  have h1 := countIf_nonneg (n := nfile) (P := fun f => FileRef (s.files f) p)
  have h2 := countIf_nonneg (n := s.nextPid) (P := CwdRef s p)
  unfold refs
  rw [if_pos hr]
  omega

/-- A step that leaves the holders of references alone. -/
theorem refs_congr {s t : Sys} {p : ℕ} (hn : t.nextPid = s.nextPid)
    (hc : ∀ q, CwdRef t p q ↔ CwdRef s p q) (hf : ∀ f, FileRef (t.files f) p ↔ FileRef (s.files f) p)
    (hr : t.root = s.root) : refs t p = refs s p := by
  unfold refs
  rw [hn, hr, countIf_congr fun q _ => hc q, countIf_congr fun f _ => hf f]

/-! ## A call that runs -/

/-- What is fixed while a call runs: the process, whether writes to the device are tracked,
    and whether the references are. -/
structure Env where
  sb : SuperBlock
  track : Prop
  w₀ : List Write
  acct : Prop
  pid : ℕ
  fits : track → opMaxNumBlocks + 1 ≤ sb.numLogBlocks

/-- What the call holds: an operation, references to inodes, and a file that it has
    allocated and not opened yet. `cwd` is the working directory of the process. -/
structure Ghost where
  ph : Option ℕ
  δ : ℕ → ℤ
  own : Option ℕ
  cwd : Option ℕ

/-- `d` more references to `p`. -/
def Ghost.add (g : Ghost) (p : ℕ) (d : ℤ) : Ghost := { g with δ := addRef g.δ p d }

/-- The call has got a reference, or none. -/
def Ghost.got (g : Ghost) : Option ℕ → Ghost
  | none => g
  | some p => g.add p 1

theorem addRef_comm (ρ : ℕ → ℤ) (p q : ℕ) (c d : ℤ) :
    addRef (addRef ρ p c) q d = addRef (addRef ρ q d) p c := by
  unfold addRef
  by_cases h : p = q
  · subst h
    simp only [Function.update_self, Function.update_idem]
    congr 1
    omega
  · rw [Function.update_of_ne h, Function.update_of_ne (Ne.symm h), Function.update_comm h]

theorem addRef_cancel (ρ : ℕ → ℤ) (p : ℕ) (d : ℤ) : addRef (addRef ρ p d) p (-d) = ρ := by
  unfold addRef
  rw [Function.update_self, Function.update_idem, add_neg_cancel_right, Function.update_eq_self]

@[simp] theorem Ghost.add_cancel (g : Ghost) (p : ℕ) : (g.add p 1).add p (-1) = g := by
  unfold Ghost.add
  rw [addRef_cancel]

/-- The reference that was held first is given back first. -/
@[simp] theorem Ghost.add_cancel' (g : Ghost) (p q : ℕ) :
    ((g.add p 1).add q 1).add p (-1) = g.add q 1 := by
  unfold Ghost.add
  dsimp only
  rw [addRef_comm (addRef g.δ p 1) q p, addRef_cancel]

@[simp] theorem Ghost.add_ph (g : Ghost) (p : ℕ) (d : ℤ) : (g.add p d).ph = g.ph := rfl
@[simp] theorem Ghost.add_own (g : Ghost) (p : ℕ) (d : ℤ) : (g.add p d).own = g.own := rfl
@[simp] theorem Ghost.add_cwd (g : Ghost) (p : ℕ) (d : ℤ) : (g.add p d).cwd = g.cwd := rfl

/-- All that is known of an `Inode` between calls: it has been read. -/
def known (_ : ℕ) (valid : Bool) (_ : UInt16) : Prop := valid = true

/-- The file system, the file table and the processes agree, but for what a call holds. -/
structure Accounts (env : Env) (g : Ghost) (s : Sys) : Prop where
  ledger : ∃ ρ, Inodes.Ledger env.sb env.track env.w₀ known g.ph ρ s.fs ∧
    (env.acct → ∀ p, ρ p = refs s p + g.δ p)
  unused : ∀ f, (s.files f).ref ≤ 0 → (s.files f).type ≠ .inode
  bound : ∀ f, nfile ≤ f → (s.files f).ref ≤ 0
  own : ∀ f, g.own = some f → (s.files f).type ≠ .inode ∧ 0 < (s.files f).ref
  dead : ∀ q, s.nextPid ≤ q → (s.procs q).live = false

/-- A call of the process `env.pid` holds `g`. -/
structure Running (env : Env) (g : Ghost) (s : Sys) : Prop extends Accounts env g s where
  cur : s.cur = env.pid
  alive : s.Live env.pid
  cwd : (s.procs env.pid).cwd = g.cwd

/-- `x` takes a call that holds `g` to one that holds `Q`, or stops with nothing but logged
    writes. -/
def Spec {α : Type} (env : Env) (x : SysM α) (g : Ghost) (Q : α → Ghost) : Prop :=
  ∀ s, Running env g s → wp x (fun a t => Running env (Q a) t)
    (fun _ t => env.track → Logged env.sb env.w₀ t.fs.cache) s

variable {env : Env} {g g' : Ghost} {s t : Sys} {α β : Type} {x : SysM α} {f : α → SysM β}
  {Q : α → Ghost} {R : β → Ghost}

theorem Accounts.logged (h : Accounts env g s) : env.track → Logged env.sb env.w₀ s.fs.cache := by
  obtain ⟨ρ, hl, -⟩ := h.ledger
  exact hl.logged

theorem Spec.to {Q' : α → Ghost} (h : Spec env x g Q) (hQ : ∀ a, Q a = Q' a) : Spec env x g Q' := by
  obtain rfl : Q = Q' := funext hQ
  exact h

theorem Spec.pure {a : α} (h : Q a = g) : Spec env (pure a) g Q := by
  intro s hs
  rw [wp_pure, h]
  exact hs

theorem Spec.bind (hx : Spec env x g Q) (hf : ∀ a, Spec env (f a) (Q a) R) :
    Spec env (x >>= f) g R := by
  intro s hs
  rw [wp_bind]
  exact (hx s hs).imp fun a t ht => hf a t ht

/-- A step whose result does not matter. -/
theorem Spec.seq {u : Ghost} {y : SysM β} {f : β → SysM α} (hy : Spec env y g fun _ => u)
    (hf : ∀ b, Spec env (f b) u Q) : Spec env (y >>= f) g Q := hy.bind hf

theorem Spec.throw {e : Halt} : Spec env (throw e : SysM α) g Q := fun _ hs => wp_throw.mpr hs.logged

theorem Spec.ite {c : Prop} [Decidable c] {y : SysM α} (hx : Spec env x g Q) (hy : Spec env y g Q) :
    Spec env (if c then x else y) g Q := by
  split_ifs
  · exact hx
  · exact hy

/-! ## Calls of the inode layer -/

/-- A change of the file system only. -/
theorem Running.withFs (h : Running env g s) {fs : FsState} (ho : g'.own = g.own)
    (hc : g'.cwd = g.cwd)
    (hl : ∃ ρ, Inodes.Ledger env.sb env.track env.w₀ known g'.ph ρ fs ∧
      (env.acct → ∀ p, ρ p = refs s p + g'.δ p)) :
    Running env g' { s with fs := fs } :=
  ⟨⟨hl, h.unused, h.bound, ho ▸ h.own, h.dead⟩, h.cur, h.alive, h.cwd.trans hc.symm⟩

/-- The rule of a call of the inode layer. -/
theorem Spec.fsCall {halt : Bcache.Stop → Halt} {x : Inodes.M α}
    (ho : ∀ a, (Q a).own = g.own ∧ (Q a).cwd = g.cwd)
    (hx : ∀ ρ s, Inodes.Ledger env.sb env.track env.w₀ known g.ph ρ s →
      books env.sb env.track env.w₀ x (fun a t => ∃ ρ',
        Inodes.Ledger env.sb env.track env.w₀ known (Q a).ph ρ' t ∧
          ∀ p, ρ' p - (Q a).δ p = ρ p - g.δ p) s) :
    Spec env (fsCall halt x) g Q := by
  intro s hs
  obtain ⟨ρ, hl, hacct⟩ := hs.ledger
  unfold Calls.fsCall
  rw [wp_zoom, wp_adaptExcept]
  refine (hx ρ s.fs hl).imp fun a t ht => ?_
  obtain ⟨ρ', hl', hρ⟩ := ht
  refine hs.withFs (ho a).1 (ho a).2 ⟨ρ', hl', fun ha p => ?_⟩
  have h1 := hacct ha p
  have h2 := hρ p
  omega

/-- A call that leaves the counts and the phase. -/
theorem Spec.fsKeep {halt : Bcache.Stop → Halt} {x : Inodes.M α}
    (hx : ∀ ρ s, Inodes.Ledger env.sb env.track env.w₀ known g.ph ρ s →
      books env.sb env.track env.w₀ x
        (fun _ t => Inodes.Ledger env.sb env.track env.w₀ known g.ph ρ t) s) :
    Spec env (Calls.fsCall halt x) g fun _ => g :=
  .fsCall (fun _ => ⟨rfl, rfl⟩) fun ρ s h => (hx ρ s h).imp fun _ _ ht => ⟨ρ, ht, fun _ => rfl⟩

/-- A call that adds `d` references. -/
theorem addRef_sub (ρ δ : ℕ → ℤ) (p q : ℕ) (d : ℤ) :
    addRef ρ p d q - addRef δ p d q = ρ q - δ q := by
  unfold addRef
  by_cases h : q = p
  · subst h
    rw [Function.update_self, Function.update_self]
    omega
  · rw [Function.update_of_ne h, Function.update_of_ne h]

section Services

variable {p : ℕ} {c : ℕ}

/-- The operation whose context a call passes on is running. -/
theorem ctxOk (hc : g.ph = some c) : CtxOk env.track g.ph (some c) :=
  .inl ⟨hc.symm, by rw [hc]; exact Option.some_ne_none c⟩

theorem spec_alloc {type : InodeType} (hc : g.ph = some c) :
    Spec env ((services env.sb).alloc (some c) type) g fun _ => g :=
  .fsKeep fun _ _ h => h.alloc (ctxOk hc) fun _ _ ht => ht

theorem spec_lock : Spec env ((services env.sb).lock p) g fun _ => g :=
  .fsKeep fun _ _ h => h.lock fun _ _ _ _ ht => ht

theorem spec_unlock : Spec env ((services env.sb).unlock p) g fun _ => g :=
  .fsKeep fun _ _ h => h.unlock fun _ ht => ht

theorem spec_sync (hc : g.ph = some c) :
    Spec env ((services env.sb).sync (some c) p true) g fun _ => g :=
  .fsKeep fun _ _ h => h.sync (fun _ => ctxOk hc) fun _ ht => ht

theorem spec_get {no : ℕ} : Spec env ((services env.sb).get no) g g.got :=
  .fsCall (fun a => by cases a <;> exact ⟨rfl, rfl⟩) fun ρ _ h =>
    h.get (fun _ _ => rfl) ⟨ρ, h, fun _ => rfl⟩ fun _ _ ht => ⟨_, ht, fun _ => addRef_sub _ _ _ _ _⟩

theorem spec_share : Spec env ((services env.sb).share p) g fun p' => g.add p' 1 :=
  .fsCall (fun _ => ⟨rfl, rfl⟩) fun _ _ h =>
    h.share fun _ ht => ⟨_, ht, fun _ => addRef_sub _ _ _ _ _⟩

theorem spec_put (hc : g.ph = some c) :
    Spec env ((services env.sb).put (some c) p) g fun _ => g.add p (-1) :=
  .fsCall (fun _ => ⟨rfl, rfl⟩) fun _ _ h =>
    h.put (.inl (ctxOk hc)) fun _ ht => ⟨_, ht, fun _ => addRef_sub _ _ _ _ _⟩

theorem spec_read {off count : ℕ} :
    Spec env ((services env.sb).read p off count) g fun _ => g :=
  .fsKeep fun _ _ h => h.readInode fun _ _ ht => ht

theorem spec_write (hc : g.ph = some c) {src : List UInt8} {off : ℕ} :
    Spec env ((services env.sb).write (some c) p src off) g fun _ => g :=
  .fsKeep fun _ _ h => h.writeInode (ctxOk hc) fun _ _ ht => ht

theorem spec_inodeNo : Spec env ((services env.sb).inodeNo p) g fun _ => g := by
  refine .fsKeep fun _ _ h => ?_
  simp only [books, wp_bind, wp_pure]
  exact h.deref fun _ _ => h

theorem spec_entry : Spec env ((services env.sb).entry p) g fun _ => g := by
  refine .fsKeep fun _ _ h => ?_
  simp only [books, wp_bind, wp_pure]
  exact h.deref fun _ _ => h

theorem spec_modifyEntry {f : InodeEntry → InodeEntry} :
    Spec env ((services env.sb).modifyEntry p f) g fun _ => g :=
  .fsKeep fun _ _ h => h.modifyEntry (.inr fun _ _ _ hk => hk) fun _ ht => ht

theorem spec_endOp (hc : g.ph = some c) (hg : { g with ph := none } = g') :
    Spec env ((services env.sb).endOp c) g fun _ => g' := by
  subst hg
  refine .fsCall (fun _ => ⟨rfl, rfl⟩) fun ρ s h => ?_
  rw [books, wp_cache]
  exact (hc ▸ h.phase).endOp env.fits fun _ hp => ⟨ρ, h.withCache hp, fun _ => rfl⟩

theorem spec_beginOp (hc : g.ph = none) :
    Spec env (services env.sb).beginOp g fun c => { g with ph := some c } := by
  intro s hs
  show wp beginOp _ _ s
  unfold beginOp
  simp only [wp_bind, wp_get, wp_pure]
  refine Spec.fsCall (g := g) (Q := fun _ => { g with ph := some s.cur }) (fun _ => ⟨rfl, rfl⟩)
    (fun ρ s h => ?_) s hs
  rw [books, wp_cache]
  exact (hc ▸ h.phase).beginOp fun _ hp => ⟨ρ, h.withCache hp, fun _ => rfl⟩

theorem spec_panic : Spec env ((services env.sb).panic : SysM α) g Q := .throw

theorem spec_cwd : Spec env (services env.sb).cwd g fun _ => g := by
  intro s hs
  show wp getCwd _ _ s
  unfold getCwd thisproc
  simp only [wp_bind, wp_get, wp_pure]
  split
  · exact wp_pure.mpr hs
  · exact wp_throw.mpr hs.logged

end Services

/-! ## The file table and the processes -/

/-- A change of the files, with the references that it makes to `p`. -/
theorem refs_updateFile {f p : ℕ} {x : File} (hf : f < nfile) :
    refs { s with files := Function.update s.files f x } p =
      refs s p - (if FileRef (s.files f) p then 1 else 0) + if FileRef x p then 1 else 0 := by
  unfold refs
  have hchange := countIf_change (P := fun f => FileRef (s.files f) p)
    (Q := fun j => FileRef (Function.update s.files f x j) p) hf
    fun j hj => by rw [Function.update_of_ne hj]
  simp only [Function.update_self] at hchange
  rw [hchange]
  have hcwd : countIf s.nextPid (CwdRef { s with files := Function.update s.files f x } p) =
      countIf s.nextPid (CwdRef s p) := countIf_congr fun _ _ => Iff.rfl
  rw [hcwd]
  dsimp only
  omega

/-- An open file is in the table. -/
theorem Accounts.lt_nfile (h : Accounts env g s) {f : ℕ} (hf : 0 < (s.files f).ref) : f < nfile :=
  not_le.mp fun hle => absurd hf (not_lt.mpr (h.bound f hle))

/-- A file changes, outside the references that it makes. -/
theorem Running.withFile (h : Running env g s) {f : ℕ} {x : File}
    (ho : ∀ j, g'.own = some j → j ≠ f → g.own = some j) (hc : g'.cwd = g.cwd)
    (hph : g'.ph = g.ph)
    (hδ : ∀ p, refs { s with files := Function.update s.files f x } p + g'.δ p = refs s p + g.δ p)
    (hu : x.ref ≤ 0 → x.type ≠ .inode) (hb : 0 < x.ref → f < nfile)
    (hown : g'.own = some f → x.type ≠ .inode ∧ 0 < x.ref) :
    Running env g' { s with files := Function.update s.files f x } := by
  obtain ⟨ρ, hl, hacct⟩ := h.ledger
  refine ⟨⟨⟨ρ, hph ▸ hl, fun ha p => (hacct ha p).trans (hδ p).symm⟩, fun j hj => ?_, fun j hj => ?_,
    fun j hj => ?_, h.dead⟩, h.cur, h.alive, h.cwd.trans hc.symm⟩
  all_goals
    dsimp only at hj ⊢
    by_cases hne : j = f
  · subst hne
    rw [Function.update_self] at hj ⊢
    exact hu hj
  · rw [Function.update_of_ne hne] at hj ⊢
    exact h.unused j hj
  · subst hne
    rw [Function.update_self]
    exact not_lt.mp fun hpos => absurd (hb hpos) (not_lt.mpr hj)
  · rw [Function.update_of_ne hne]
    exact h.bound j hj
  · subst hne
    rw [Function.update_self]
    exact hown hj
  · rw [Function.update_of_ne hne]
    exact h.own j (ho j hj hne)

theorem spec_modifyFile {f : ℕ} {k : File → File}
    (hk : ∀ x, (k x).type = x.type ∧ (k x).ip = x.ip ∧ (0 < (k x).ref ↔ 0 < x.ref)) :
    Spec env (modifyFile f k) g fun _ => g := by
  intro s hs
  unfold modifyFile
  rw [wp_modify]
  obtain ⟨htype, hip, href⟩ := hk (s.files f)
  have hiff : ∀ p, FileRef (k (s.files f)) p ↔ FileRef (s.files f) p := fun p => by
    unfold FileRef
    rw [htype, hip, href]
  refine hs.withFile (fun _ hj _ => hj) rfl rfl (fun p => ?_) (fun hle => ?_)
    (fun hpos => hs.lt_nfile (href.mp hpos)) fun ho => ?_
  · congr 1
    refine refs_congr rfl (fun _ => Iff.rfl) (fun j => ?_) rfl
    dsimp only
    by_cases hj : j = f
    · rw [hj, Function.update_self]
      exact hiff p
    · rw [Function.update_of_ne hj]
  · rw [htype]
    exact hs.unused f (not_lt.mp fun hpos => absurd (href.mpr hpos) (not_lt.mpr hle))
  · have := hs.own f ho
    rw [htype]
    exact ⟨this.1, href.mpr this.2⟩

theorem spec_fileDup {f : ℕ} : Spec env (fileDup f) g fun _ => g := by
  refine spec_modifyFile fun x => ?_
  split_ifs
  · exact ⟨rfl, rfl, Iff.rfl⟩
  · refine ⟨rfl, rfl, ?_⟩
    dsimp only
    omega

theorem findFree_spec {files : ℕ → File} {n i f : ℕ} (h : findFree files n i = some f) :
    (files f).ref = 0 ∧ i ≤ f ∧ f < i + n := by
  induction n generalizing i with
  | zero => cases h
  | succ n ih =>
    unfold findFree at h
    split_ifs at h with hi
    · cases h
      exact ⟨hi, le_rfl, by omega⟩
    · obtain ⟨h1, h2, h3⟩ := ih h
      exact ⟨h1, by omega, by omega⟩

theorem not_fileRef {x : File} {p : ℕ} (h : x.type ≠ .inode) : ¬ FileRef x p := fun hr => h hr.2.1

/-- The call has allocated a file, or none. -/
def Ghost.owning (g : Ghost) : Option ℕ → Ghost
  | none => g
  | some f => { g with own := some f }

/-- The rule of `file_alloc`. -/
theorem spec_fileAlloc : Spec env (services env.sb).fileAlloc g g.owning := by
  intro s hs
  show wp fileAlloc _ _ s
  unfold fileAlloc
  rw [wp_bind, wp_get]
  split
  · exact wp_pure.mpr hs
  next f hf =>
  obtain ⟨href, -, hlt⟩ := findFree_spec hf
  rw [Nat.zero_add] at hlt
  have htype := hs.unused f href.le
  unfold modifyFile
  rw [wp_bind, wp_modify, wp_pure]
  refine hs.withFile (fun j hj hne => ?_) rfl rfl (fun p => ?_) (fun _ => htype) (fun _ => hlt)
    fun _ => ⟨htype, Int.one_pos⟩
  · cases hj
    exact absurd rfl hne
  · rw [refs_updateFile hlt, if_neg (not_fileRef htype), if_neg (not_fileRef (by exact htype)),
      sub_zero, add_zero]
    rfl

/-- What a call holds after it has closed a file. -/
def Ghost.closed (g : Ghost) : Option File → Ghost
  | some ⟨.inode, _, _, _, ip, _⟩ => { g.add ip 1 with own := none }
  | _ => { g with own := none }

theorem Ghost.closed_δ {x : File} (p : ℕ) : (g.closed (some x)).δ p =
    g.δ p + if x.type = .inode ∧ x.ip = p then 1 else 0 := by
  obtain ⟨type, ref, r, w, ip, off⟩ := x
  cases type
  · simp [closed]
  · simp [closed]
  · simp only [closed, add, addRef, true_and]
    by_cases h : p = ip
    · rw [h, Function.update_self, if_pos rfl]
    · rw [Function.update_of_ne h, if_neg fun e => h e.symm, add_zero]

theorem Ghost.closed_rest {r : Option File} :
    (g.closed r).ph = g.ph ∧ (g.closed r).own = none ∧ (g.closed r).cwd = g.cwd := by
  unfold closed
  split <;> exact ⟨rfl, rfl, rfl⟩

/-- What `dropRef` does: with the last reference the file is closed. -/
theorem wp_dropRef {f : ℕ} {Q : Option File → Sys → Prop} {E : Halt → Sys → Prop}
    (hlast : (s.files f).ref = 1 → Q (some { s.files f with ref := 0 })
      { s with files := Function.update s.files f File.zero })
    (hother : (s.files f).ref ≠ 1 → Q none
      { s with files := Function.update s.files f { s.files f with ref := (s.files f).ref - 1 } }) :
    wp (dropRef f) Q E s := by
  unfold dropRef modifyFile getFile
  simp only [wp_bind, wp_modify, wp_get, wp_pure, Function.update_self]
  split_ifs with h
  · have h1 : (s.files f).ref = 1 := by omega
    have h2 := hlast h1
    rw [wp_bind, wp_modify, wp_pure, Function.update_idem]
    rw [h1]
    exact h2
  · exact wp_pure.mpr (hother (by omega))

theorem spec_dropRef {f : ℕ} : Spec env ((services env.sb).dropRef f) g g.closed := by
  intro s hs
  refine wp_dropRef (fun h1 => ?_) fun h1 => ?_
  · obtain ⟨hph, hown, hcwd⟩ := Ghost.closed_rest (g := g) (r := some { s.files f with ref := 0 })
    have hpos : 0 < (s.files f).ref := by rw [h1]; exact Int.one_pos
    refine hs.withFile (fun j hj => by rw [hown] at hj; cases hj) hcwd hph (fun p => ?_) (fun _ => by decide)
      (fun _ => hs.lt_nfile hpos) fun ho => by rw [hown] at ho; cases ho
    rw [refs_updateFile (hs.lt_nfile hpos), Ghost.closed_δ, if_neg (not_fileRef (p := p) (by decide : File.zero.type ≠ _))]
    have hiff : FileRef (s.files f) p ↔ (s.files f).type = .inode ∧ (s.files f).ip = p :=
      ⟨fun h => h.2, fun h => ⟨hpos, h⟩⟩
    simp only [hiff]
    split_ifs <;> omega
  · refine hs.withFile (fun _ hj => by cases hj) rfl rfl (fun p => ?_) (fun hle => ?_)
      (fun hpos => hs.lt_nfile (by dsimp only at hpos; omega)) fun ho => by cases ho
    · congr 1
      refine refs_congr rfl (fun _ => Iff.rfl) (fun j => ?_) rfl
      dsimp only
      by_cases hj : j = f
      · rw [hj, Function.update_self]
        by_cases hpos : 0 < (s.files f).ref
        · unfold FileRef
          dsimp only
          have : 0 < (s.files f).ref - 1 ↔ 0 < (s.files f).ref := by omega
          rw [this]
        · have htype := hs.unused f (by omega)
          exact iff_of_false (not_fileRef htype) (not_fileRef htype)
      · rw [Function.update_of_ne hj]
    · dsimp only at hle ⊢
      exact hs.unused f (by omega)

theorem Ghost.closed_other {r : Option File} (h : ∀ x, r = some x → x.type ≠ .inode) :
    g.closed r = { g with own := none } := by
  unfold Ghost.closed
  split
  · exact absurd rfl (h _ rfl)
  · rfl

/-- The rule of `file_close` outside an operation. -/
theorem spec_fileClose {f : ℕ} (hc : g.ph = none) :
    Spec env (fileClose (services env.sb) f) g fun _ => { g with own := none } := by
  have hput : ∀ ip, Spec env (do
      let ctx ← (services env.sb).beginOp
      (services env.sb).put (some ctx) ip
      (services env.sb).endOp ctx) { g.add ip 1 with own := none } fun _ => { g with own := none } := by
    intro ip
    refine (spec_beginOp (by exact hc)).bind fun c => (spec_put rfl).seq fun _ => ?_
    refine spec_endOp rfl ?_
    simp only [Ghost.add, addRef_cancel, hc]
  unfold fileClose
  refine spec_dropRef.bind fun r => ?_
  split
  · exact hput _
  · next hne => exact .pure (Ghost.closed_other fun x hx ht => hne _ _ _ _ _ (by rw [hx, ← ht])).symm

/-- A file that is not open yet has no inode to put. -/
theorem spec_closeOwn {f : ℕ} (ho : g.own = some f) :
    Spec env (fileClose (services env.sb) f) g fun _ => { g with own := none } := by
  intro s hs
  have htype := (hs.own f ho).1
  have hdrop : wp ((services env.sb).dropRef f) (fun r _ => ∀ x, r = some x → x.type ≠ .inode)
      (fun _ _ => True) s :=
    wp_dropRef (fun _ x hx => by cases hx; exact htype) fun _ x hx => by cases hx
  unfold fileClose
  rw [wp_bind]
  refine wp_mono (hdrop.and (spec_dropRef s hs)) (fun r t ht => ?_) fun _ _ h => h.2
  obtain ⟨hr, ht⟩ := ht
  rw [Ghost.closed_other hr] at ht
  split
  · exact absurd rfl (hr _ rfl)
  · exact wp_pure.mpr ht

/-- The rule of the assignments of `openat`. -/
theorem spec_openFile {f ip : ℕ} (ho : g.own = some f) {k : File → File}
    (hk : ∀ x, (k x).type = .inode ∧ (k x).ip = ip ∧ (k x).ref = x.ref)
    (hg : { g.add ip (-1) with own := none } = g') :
    Spec env ((services env.sb).modifyFile f k) g fun _ => g' := by
  intro s hs
  subst hg
  obtain ⟨htype, hpos⟩ := hs.own f ho
  obtain ⟨hktype, hkip, hkref⟩ := hk (s.files f)
  have hlt := hs.lt_nfile hpos
  show wp (modifyFile f k) _ _ s
  unfold modifyFile
  rw [wp_modify]
  refine hs.withFile (fun _ hj => by cases hj) rfl rfl (fun p => ?_) (fun hle => ?_) (fun _ => hlt)
    fun hj => by cases hj
  · have hiff : FileRef (k (s.files f)) p ↔ p = ip := by
      unfold FileRef
      rw [hkref, hktype, hkip]
      exact ⟨fun h => h.2.2.symm, fun h => ⟨hpos, rfl, h.symm⟩⟩
    rw [refs_updateFile hlt, if_neg (not_fileRef htype), sub_zero]
    simp only [hiff]
    show _ + addRef g.δ ip (-1) p = _
    unfold addRef
    by_cases hp : p = ip
    · rw [hp, if_pos rfl, Function.update_self]
      omega
    · rw [if_neg hp, Function.update_of_ne hp, add_zero]
  · rw [hkref] at hle
    exact absurd hpos (not_lt.mpr hle)

/-- A change of a process that leaves whether it is live and where it works. -/
theorem Running.withProcs (h : Running env g s) {procs : ℕ → Proc}
    (hp : ∀ q, (procs q).live = (s.procs q).live ∧ (procs q).cwd = (s.procs q).cwd) :
    Running env g { s with procs := procs } := by
  obtain ⟨ρ, hl, hacct⟩ := h.ledger
  have hrefs : ∀ p, refs { s with procs := procs } p = refs s p := fun p => by
    refine refs_congr rfl (fun q => ?_) (fun _ => Iff.rfl) rfl
    unfold CwdRef
    dsimp only
    rw [(hp q).1, (hp q).2]
  refine ⟨⟨⟨ρ, hl, fun ha p => by rw [hrefs]; exact hacct ha p⟩, h.unused, h.bound, h.own,
    fun q hq => (hp q).1.trans (h.dead q hq)⟩, h.cur, ⟨h.alive.1, (hp _).1.trans h.alive.2⟩,
    (hp _).2.trans h.cwd⟩

theorem spec_modifyProc {q : ℕ} {k : Proc → Proc}
    (hk : ∀ x, (k x).live = x.live ∧ (k x).cwd = x.cwd) :
    Spec env (modifyProc q k) g fun _ => g := by
  intro s hs
  unfold modifyProc
  rw [wp_modify]
  refine hs.withProcs fun j => ?_
  by_cases hj : j = q
  · rw [hj, Function.update_self]
    exact hk _
  · rw [Function.update_of_ne hj]
    exact ⟨rfl, rfl⟩

theorem spec_setFd {q fd : ℕ} {f : Option ℕ} : Spec env (setFd q fd f) g fun _ => g :=
  spec_modifyProc fun _ => ⟨rfl, rfl⟩

/-- A step of a program that only looks at the state. -/
theorem Spec.get {k : Sys → SysM α} (h : ∀ s, Running env g s → Spec env (k s) g Q) :
    Spec env (MonadState.get >>= k) g Q := by
  intro s hs
  rw [wp_bind]
  exact wp_get.mpr (h s hs s hs)

theorem spec_fdAlloc {f : ℕ} : Spec env ((services env.sb).fdAlloc f) g fun _ => g := by
  show Spec env (fdAlloc f) g _
  unfold fdAlloc
  refine .get fun s _ => ?_
  split
  · exact .pure rfl
  · exact spec_setFd.seq fun _ => .pure rfl

/-- The rule of the assignment to `thisproc()->cwd`: it drops the old one and counts the
    new one, so nothing changes only if they are the same. -/
theorem spec_setCwd {p : ℕ} (h : env.acct → g.cwd = some p) :
    Spec env ((services env.sb).setCwd p) g fun _ => { g with cwd := some p } := by
  intro s hs
  show wp (do let s ← MonadState.get; modifyProc s.cur fun x => { x with cwd := some p }) _ _ s
  unfold modifyProc
  rw [wp_bind, wp_get, wp_modify]
  obtain ⟨ρ, hl, hacct⟩ := hs.ledger
  have hupd : ∀ q, (Function.update s.procs s.cur { s.procs s.cur with cwd := some p } q).live =
      (s.procs q).live := fun q => by
    by_cases hq : q = s.cur
    · rw [hq, Function.update_self]
    · rw [Function.update_of_ne hq]
  refine ⟨⟨⟨ρ, hl, fun ha p' => ?_⟩, hs.unused, hs.bound, hs.own, fun q hq =>
    (hupd q).trans (hs.dead q hq)⟩, hs.cur, ⟨hs.alive.1, (hupd _).trans hs.alive.2⟩, ?_⟩
  · rw [hacct ha p']
    refine congrArg (· + _) (Eq.symm ?_)
    refine refs_congr rfl (fun q => ?_) (fun _ => Iff.rfl) rfl
    unfold CwdRef
    dsimp only
    rw [hupd]
    by_cases hq : q = s.cur
    · rw [hq, Function.update_self, hs.cur, hs.cwd, h ha]
    · rw [Function.update_of_ne hq]
  · dsimp only
    rw [hs.cur, Function.update_self]

end ShikiOS.Kernel.Calls
