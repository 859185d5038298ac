import ShikiOS.Kernel.SysLedger
import ShikiOS.Lib.Monitor

/-!
# The file table among processes (`fs/file.c`)

Any number of processes call `file_alloc`, `file_dup` and `file_close`; a step goes from one
acquisition or release of `ftable.lock` to the next. A process makes the last two with a
reference that it owns. Owners also set the fields of an entry, as `openat` and
`init_read_pipe` do, and hand references on, as `fork` does.

`file_close` lets the lock go early when it has dropped the last reference, closes what lies
under the file, and then lets the lock go again at the common exit (lines 71 and 84).

Results:
* `file_table_ok`: until a process gets to that second release, the lock is let go by its
  holder only, and references, entries and what lies under them are accounted for.
* `file_table_broken`: a run after which two processes are between acquire and release.
-/

namespace ShikiOS.Kernel.FileTable

open ShikiOS.Lib Fs Calls

/-! ## Model -/

/-- What lies under a file: the end of a pipe, or an inode. -/
inductive Under
  | pipe (pi : ℕ) (writable : Bool)
  | inode (ip : ℕ)
deriving DecidableEq

/-- What `file_close` closes (lines 72-82). -/
def under (temp : File) : Option Under :=
  match temp.type with
  | .none => none
  | .pipe => some (.pipe temp.ip temp.writable)
  | .inode => some (.inode temp.ip)

/-- `ftable.files`. The rest is only recorded: for each entry the processes that own its
    references, and for each process what it has dropped the last reference to and what it has
    closed. -/
structure Table where
  files : ℕ → File
  owners : ℕ → List ℕ
  dropped : List (ℕ × Under)
  closed : List (ℕ × Under)

/-- The points of the code. -/
inductive Pc
  /-- Before `acquire_spinlock` (lines 31, 49 and 66). -/
  | alloc
  | dup (f : ℕ)
  | close (f : ℕ)
  /-- The locked parts (lines 32-40, 50-55 and 67-70). -/
  | allocFind
  | dupTest (f : ℕ)
  | closeDrop (f : ℕ)
  /-- Before `release_spinlock` (lines 36 and 41, 52 and 56, 71, and 84). -/
  | allocRelease (r : Option ℕ)
  | dupRelease
  | closeEarly (temp : File)
  | closeExit (early : Bool)
  /-- Lines 72-82 of `file_close`. -/
  | closeUnder (temp : File)
  /-- The owner of a reference sets the fields of the entry. -/
  | setFields (f : ℕ) (x : File)
  /-- The owner of a reference hands it to another process. -/
  | give (f q : ℕ)
  /-- The call returns. -/
  | allocReturn (r : Option ℕ)
  | done

/-- The calls. -/
inductive Call
  | fileAlloc
  | fileDup (f : ℕ)
  | fileClose (f : Option ℕ)
  | setFields (f : ℕ) (x : File)
  | give (f q : ℕ)

namespace Table

def setFile (d : Table) (f : ℕ) (x : File) : Table :=
  { d with files := Function.update d.files f x }

def setOwners (d : Table) (f : ℕ) (l : List ℕ) : Table :=
  { d with owners := Function.update d.owners f l }

/-- Process `p` has a new reference to `f`. -/
def own (d : Table) (p f : ℕ) : Table := d.setOwners f (p :: d.owners f)

/-- Process `p` has a reference to `f` less. -/
def disown (d : Table) (p f : ℕ) : Table := d.setOwners f ((d.owners f).erase p)

/-- Lines 32-40 of `file_alloc`. -/
def allocFind (d : Table) (p : ℕ) : Table × Pc :=
  match findFree d.files nfile 0 with
  | none => (d, .allocRelease none)
  | some f => ((d.setFile f { d.files f with ref := 1 }).own p f, .allocRelease (some f))

/-- Lines 50-55 of `file_dup`. -/
def dupTest (d : Table) (p f : ℕ) : Table × Pc :=
  if (d.files f).ref < 1 then (d, .dupRelease)
  else ((d.setFile f { d.files f with ref := (d.files f).ref + 1 }).own p f, .dupRelease)

/-- Process `p` has dropped the last reference to what `temp` says. -/
def drop (d : Table) (p : ℕ) (temp : File) : Table :=
  { d with dropped := (under temp).toList.map (Prod.mk p) ++ d.dropped }

/-- Lines 67-70 of `file_close`. -/
def closeDrop (d : Table) (p f : ℕ) : Table × Pc :=
  let x := { d.files f with ref := (d.files f).ref - 1 }
  let d := d.disown p f
  if x.ref = 0 then ((d.setFile f File.zero).drop p x, .closeEarly x)
  else (d.setFile f x, .closeExit false)

/-- Lines 72-82 of `file_close`. -/
def closeUnder (d : Table) (p : ℕ) (temp : File) : Table :=
  { d with closed := (under temp).toList.map (Prod.mk p) ++ d.closed }

end Table

/-- The code of the three functions. -/
def code : Pc → MonitorOp Table Unit Pc
  | .alloc => .acquire .allocFind
  | .allocFind => .access fun p _ d => some (d.allocFind p)
  | .allocRelease r => .release (.allocReturn r)
  | .dup f => .acquire (.dupTest f)
  | .dupTest f => .access fun p _ d => some (d.dupTest p f)
  | .dupRelease => .release .done
  | .close f => .acquire (.closeDrop f)
  | .closeDrop f => .access fun p _ d => some (d.closeDrop p f)
  | .closeEarly temp => .release (.closeUnder temp)
  | .closeUnder temp => .act fun p _ d => some (d.closeUnder p temp, .closeExit true)
  | .closeExit _ => .release .done
  | .setFields f x => .act fun _ _ d => some (d.setFile f { x with ref := (d.files f).ref }, .done)
  | .give f q => .act fun p _ d => some ((d.disown p f).own q f, .done)
  | .allocReturn _ | .done => .ret

/-- Where a call starts. `file_close(NULL)` returns at once (lines 64-65). -/
def start : Call → Pc
  | .fileAlloc => .alloc
  | .fileDup f => .dup f
  | .fileClose none => .done
  | .fileClose (some f) => .close f
  | .setFields f x => .setFields f x
  | .give f q => .give f q

/-- A process uses only references that it owns. -/
def may (d : Table) (p : ℕ) : Call → Bool
  | .fileAlloc | .fileClose none => true
  | .fileDup f | .fileClose (some f) | .setFields f _ | .give f _ => p ∈ d.owners f

/-- The processes on the file table. -/
def ftable : Monitor Table Unit Pc Call := ⟨code, start, may⟩

/-- The table after `init_ftable`, which is all zero. -/
def initTable : Table := ⟨fun _ => File.zero, fun _ => [], [], []⟩

/-! ## What is claimed of it -/

/-- Between `acquire_spinlock` and the first `release_spinlock` after it. -/
def between : Pc → Bool
  | .allocFind | .dupTest _ | .closeDrop _ | .allocRelease _ | .dupRelease | .closeEarly _
  | .closeExit false => true
  | _ => false

/-- The second release of a `file_close` that dropped the last reference. -/
def secondRelease : Pc → Bool
  | .closeExit true => true
  | _ => false

/-- What a process has dropped the last reference to and not closed yet. -/
def closing : Option Pc → Option Under
  | some (.closeEarly temp) | some (.closeUnder temp) => under temp
  | _ => none

/-- Only its holder has let the lock go, at most one process is between acquire and release, a
    new entry belongs to its process alone, `ref` counts the references, and each process has
    closed once what it dropped the last reference to, unless it is just doing so. -/
structure Ok (s : MonitorState Table Pc) : Prop where
  release : s.badRelease = false
  one : ∀ p q, Monitor.Inside between s p → Monitor.Inside between s q → p = q
  alloc : ∀ p f, s.pc p = some (.allocReturn (some f)) → ∀ q, q ∈ s.data.owners f → q = p
  ref : ∀ f, (s.data.files f).ref = (s.data.owners f).length
  closed : ∀ p u, s.data.dropped.count (p, u) =
    s.data.closed.count (p, u) + if closing (s.pc p) = some u then 1 else 0

/-! ## The invariant -/

theorem disciplined : Monitor.Disciplined ftable between secondRelease := by
  refine ⟨fun c => ?_, fun c hbad => ?_⟩
  · cases c with
    | fileClose f => cases f <;> rfl
    | _ => rfl
  · cases c with
    | allocFind =>
      refine ⟨rfl, fun p _ d r h => ?_⟩
      obtain rfl := Option.some.inj h
      unfold Table.allocFind
      split <;> rfl
    | dupTest f =>
      refine ⟨rfl, fun p _ d r h => ?_⟩
      obtain rfl := Option.some.inj h
      unfold Table.dupTest
      split_ifs <;> rfl
    | closeDrop f =>
      refine ⟨rfl, fun p _ d r h => ?_⟩
      obtain rfl := Option.some.inj h
      unfold Table.closeDrop
      dsimp only
      split_ifs <;> rfl
    | closeUnder temp | setFields f x | give f q =>
      intro p _ d r h
      obtain rfl := Option.some.inj h
      rfl
    | closeExit early =>
      cases early with
      | true => cases hbad
      | false => exact ⟨rfl, rfl⟩
    | allocReturn | done => rfl
    | _ => exact ⟨rfl, rfl⟩

/-- The file whose reference a process is about to use. -/
def uses : Pc → Option ℕ
  | .dup f | .dupTest f | .close f | .closeDrop f | .setFields f _ | .give f _ => some f
  | _ => none

/-- The entry that a process has just been given. -/
def fresh : Pc → Option ℕ
  | .allocRelease r | .allocReturn r => r
  | _ => none

/-- `ref` counts the owners. -/
def Counted (d : Table) : Prop := ∀ f, (d.files f).ref = (d.owners f).length

/-- A process owns what it uses, its new entry is its own, and it has closed what it dropped. -/
structure Each (p : ℕ) (d : Table) (x : Option Pc) : Prop where
  uses : ∀ f, x.bind uses = some f → p ∈ d.owners f
  fresh : ∀ f, x.bind fresh = some f → d.owners f = [p]
  closed : ∀ u, d.dropped.count (p, u) =
    d.closed.count (p, u) + if closing x = some u then 1 else 0

variable {d d' : Table} {p q f : ℕ} {x : Option Pc}

/-- What a step of process `p` leaves of the others. -/
structure Other (p : ℕ) (d d' : Table) : Prop where
  keep : ∀ q f, q ≠ p → q ∈ d.owners f → q ∈ d'.owners f
  fresh : ∀ q f, q ≠ p → d.owners f = [q] → d'.owners f = [q]
  dropped : ∀ q u, q ≠ p → d'.dropped.count (q, u) = d.dropped.count (q, u)
  closed : ∀ q u, q ≠ p → d'.closed.count (q, u) = d.closed.count (q, u)

theorem Each.other (h : Each q d x) (hd : Other p d d') (hq : q ≠ p) : Each q d' x :=
  ⟨fun f hf => hd.keep q f hq (h.uses f hf), fun f hf => hd.fresh q f hq (h.fresh f hf),
    fun u => by rw [hd.dropped q u hq, hd.closed q u hq]; exact h.closed u⟩

theorem Other.refl : Other p d d :=
  ⟨fun _ _ _ h => h, fun _ _ _ h => h, fun _ _ _ => rfl, fun _ _ _ => rfl⟩

theorem Other.setFile (h : Other p d d') {y : File} : Other p d (d'.setFile f y) :=
  ⟨h.keep, h.fresh, h.dropped, h.closed⟩

/-- The owners of `f` change, of which `p` is one, or there were none. -/
theorem Other.setOwners (h : p ∈ d.owners f ∨ d.owners f = []) {l : List ℕ}
    (hl : ∀ q, q ≠ p → q ∈ d.owners f → q ∈ l) : Other p d (d.setOwners f l) := by
  refine ⟨fun q g hq hmem => ?_, fun q g hq hown => ?_, fun _ _ _ => rfl, fun _ _ _ => rfl⟩
  · show q ∈ Function.update d.owners f l g
    by_cases hg : g = f
    · subst hg
      rw [Function.update_self]
      exact hl q hq hmem
    · rw [Function.update_of_ne hg]
      exact hmem
  · show Function.update d.owners f l g = [q]
    by_cases hg : g = f
    · subst hg
      rw [hown] at h
      simp only [List.mem_singleton, List.cons_ne_self, or_false] at h
      exact absurd h.symm hq
    · rw [Function.update_of_ne hg]
      exact hown

theorem Other.own (h : p ∈ d.owners f ∨ d.owners f = []) : Other p d (d.own p f) :=
  .setOwners h fun _ _ hmem => List.mem_cons_of_mem p hmem

theorem Other.disown (h : p ∈ d.owners f) : Other p d (d.disown p f) :=
  .setOwners (.inl h) fun _ hq hmem => (List.mem_erase_of_ne hq).mpr hmem

/-- Records of process `p` are not those of another. -/
theorem count_record (hq : q ≠ p) (temp : File) (l : List (ℕ × Under)) (u : Under) :
    ((under temp).toList.map (Prod.mk p) ++ l).count (q, u) = l.count (q, u) := by
  rw [List.count_append, List.count_eq_zero_of_not_mem, Nat.zero_add]
  rw [List.mem_map]
  rintro ⟨v, -, hv⟩
  exact hq (Prod.mk.inj hv).1.symm

theorem count_record_self (temp : File) (l : List (ℕ × Under)) (u : Under) :
    ((under temp).toList.map (Prod.mk p) ++ l).count (p, u) =
      l.count (p, u) + if under temp = some u then 1 else 0 := by
  rw [List.count_append, Nat.add_comm]
  congr 1
  cases under temp with
  | none => simp
  | some v =>
    simp only [Option.toList_some, List.map_cons, List.map_nil, Option.some.injEq]
    by_cases hv : v = u
    · subst hv
      simp
    · rw [if_neg hv, List.count_eq_zero_of_not_mem]
      simpa using Ne.symm hv

theorem Other.drop (h : Other p d d') (temp : File) : Other p d (d'.drop p temp) :=
  ⟨h.keep, h.fresh, fun q u hq => (count_record hq temp _ u).trans (h.dropped q u hq), h.closed⟩

theorem Other.closeUnder (h : Other p d d') (temp : File) : Other p d (d'.closeUnder p temp) :=
  ⟨h.keep, h.fresh, h.dropped, fun q u hq => (count_record hq temp _ u).trans (h.closed q u hq)⟩

/-- A process that is not about to use an entry and has not just got one. -/
theorem Each.of_closed {k : Pc} (hu : FileTable.uses k = none) (hf : FileTable.fresh k = none)
    (hc : ∀ u, d.dropped.count (p, u) =
      d.closed.count (p, u) + if closing (some k) = some u then 1 else 0) : Each p d (some k) := by
  refine ⟨fun f e => ?_, fun f e => ?_, hc⟩
  · rw [Option.bind_some, hu] at e
    cases e
  · rw [Option.bind_some, hf] at e
    cases e

theorem Each.rest {k : Pc} (h : Each p d x) (hc : closing (some k) = closing x)
    (hu : FileTable.uses k = none) (hf : FileTable.fresh k = none) : Each p d (some k) :=
  .of_closed hu hf (by rw [hc]; exact h.closed)

theorem Each.setFile {y : File} (h : Each p d x) : Each p (d.setFile f y) x :=
  ⟨h.uses, h.fresh, h.closed⟩

/-- `ref` and the owners of one entry change alike. -/
theorem Counted.update (h : Counted d) {y : File} {l : List ℕ} (hl : y.ref = l.length) :
    Counted ((d.setOwners f l).setFile f y) := by
  intro g
  show (Function.update d.files f y g).ref = ((Function.update d.owners f l g).length : ℤ)
  by_cases hg : g = f
  · subst hg
    rw [Function.update_self, Function.update_self, hl]
  · rw [Function.update_of_ne hg, Function.update_of_ne hg]
    exact h g

/-! ## What each part keeps -/

/-- What a part of the code does to the invariant when process `p` runs it. -/
def Kept (p : ℕ) (d : Table) (r : Table × Pc) : Prop :=
  Counted r.1 ∧ Each p r.1 (some r.2) ∧ Other p d r.1

theorem allocFind_kept (hd : Counted d) (h : Each p d (some .allocFind)) :
    Kept p d (d.allocFind p) := by
  unfold Table.allocFind
  split
  · exact ⟨hd, h.rest rfl rfl rfl, .refl⟩
  next f hf =>
  have hnil : d.owners f = [] := by
    have := hd f
    rw [(findFree_spec hf).1] at this
    exact List.eq_nil_of_length_eq_zero (by omega)
  refine ⟨hd.update (d := d) ?_, ⟨fun g hg => ?_, fun g hg => ?_, h.closed⟩,
    (Other.own (.inr hnil)).setFile⟩
  · show (1 : ℤ) = ((p :: d.owners f).length : ℤ)
    rw [hnil]
    rfl
  · cases hg
  · obtain rfl := Option.some.inj hg
    show Function.update d.owners f (p :: d.owners f) f = [p]
    rw [Function.update_self, hnil]

theorem dupTest_kept (hd : Counted d) (h : Each p d (some (.dupTest f))) :
    Kept p d (d.dupTest p f) := by
  have hmem := h.uses f rfl
  unfold Table.dupTest
  split_ifs
  · exact ⟨hd, h.rest rfl rfl rfl, .refl⟩
  · refine ⟨hd.update (d := d) ?_, ?_, (Other.own (.inl hmem)).setFile⟩
    · show (d.files f).ref + 1 = ((p :: d.owners f).length : ℤ)
      rw [hd f, List.length_cons]
      push_cast
      rfl
    · exact .of_closed rfl rfl h.closed

theorem closeDrop_kept (hd : Counted d) (h : Each p d (some (.closeDrop f))) :
    Kept p d (d.closeDrop p f) := by
  have hmem := h.uses f rfl
  have hlen : (d.files f).ref - 1 = (((d.owners f).erase p).length : ℤ) := by
    have hpos := List.length_pos_of_mem hmem
    rw [List.length_erase_of_mem hmem, hd f]
    omega
  have hother := Other.disown (d := d) hmem
  unfold Table.closeDrop
  dsimp only
  split_ifs with h0
  · refine ⟨?_, .of_closed rfl rfl fun u => ?_,
      (hother.setFile).drop _⟩
    · refine Counted.update (d := d) hd (y := File.zero) ?_
      rw [← hlen, h0]
      rfl
    · refine (count_record_self _ d.dropped u).trans ?_
      have := h.closed u
      rw [if_neg (by rintro ⟨⟩), Nat.add_zero] at this
      exact congrArg (· + _) this
  · refine ⟨hd.update (d := d) hlen, ?_, hother.setFile⟩
    exact .of_closed rfl rfl h.closed

theorem closeUnder_kept {temp : File} (hd : Counted d) (h : Each p d (some (.closeUnder temp))) :
    Kept p d (d.closeUnder p temp, .closeExit true) := by
  refine ⟨hd, .of_closed rfl rfl fun u => ?_,
    Other.refl.closeUnder temp⟩
  rw [if_neg (by rintro ⟨⟩), Nat.add_zero]
  exact (h.closed u).trans (count_record_self temp d.closed u).symm

theorem setFields_kept {y : File} (hd : Counted d) (h : Each p d (some (.setFields f y))) :
    Kept p d (d.setFile f { y with ref := (d.files f).ref }, .done) := by
  have hown : Function.update d.owners f (d.owners f) = d.owners := Function.update_eq_self f _
  have hdone : Each p d (some .done) := h.rest rfl rfl rfl
  refine ⟨?_, hdone.setFile, Other.refl.setFile⟩
  have := hd.update (d := d) (f := f) (y := { y with ref := (d.files f).ref }) (hd f)
  unfold Table.setOwners at this
  rwa [hown] at this

theorem give_kept (hd : Counted d) (h : Each p d (some (.give f q))) :
    Kept p d ((d.disown p f).own q f, .done) := by
  have hmem := h.uses f rfl
  have hset : (d.disown p f).own q f = d.setOwners f (q :: (d.owners f).erase p) := by
    unfold Table.disown Table.own Table.setOwners
    dsimp only
    rw [Function.update_self, Function.update_idem]
  rw [hset]
  refine ⟨fun g => ?_, .of_closed rfl rfl h.closed,
    .setOwners (.inl hmem) fun r hr hr' => ?_⟩
  · show (d.files g).ref = ((Function.update d.owners f (q :: (d.owners f).erase p) g).length : ℤ)
    by_cases hg : g = f
    · subst hg
      rw [Function.update_self, hd g, List.length_cons, List.length_erase_of_mem hmem]
      have := List.length_pos_of_mem hmem
      omega
    · rw [Function.update_of_ne hg]
      exact hd g
  · exact List.mem_cons_of_mem q ((List.mem_erase_of_ne hr).mpr hr')

/-- The invariant is kept by every step of every process. -/
theorem rely : Monitor.Rely ftable between secondRelease Counted Each := by
  have hkept : ∀ {p : ℕ} {d d' : Table} {k : Pc} {r : Table × Pc}, Kept p d r →
      some r = some (d', k) → Counted d' ∧ Each p d' (some k) ∧ Other p d d' := by
    intro p d d' k r h hr
    obtain rfl := Option.some.inj hr
    exact h
  refine ⟨fun p c d _ hmay h => ?_, fun p c k d hbad hcode _ h => ?_,
    fun p c g a d d' k _ hcode hg hd h => ?_, fun p c g a d d' k _ hcode hg hd h => ?_,
    fun p c d _ hcode _ h => ?_⟩
  · have huse : ∀ f, (some (start c)).bind uses = some f → p ∈ d.owners f := by
      intro f hf
      cases c with
      | fileAlloc => cases hf
      | fileClose g =>
        cases g with
        | none => cases hf
        | some g =>
          obtain rfl := Option.some.inj hf
          exact of_decide_eq_true hmay
      | fileDup g | setFields g y | give g q =>
        obtain rfl := Option.some.inj hf
        exact of_decide_eq_true hmay
    refine ⟨huse, fun f hf => ?_, fun u => ?_⟩
    · cases c with
      | fileClose g => cases g <;> cases hf
      | _ => cases hf
    · have hclosing : closing (some (start c)) = none := by
        cases c with
        | fileClose g => cases g <;> rfl
        | _ => rfl
      show _ = _ + if closing (some (start c)) = some u then 1 else 0
      rw [hclosing]
      exact h.closed u
  · -- the next point uses, has and closes what this one does
    cases c with
    | alloc | dupRelease | closeEarly temp | closeExit early =>
      rcases hcode with hcode | hcode <;> cases hcode
      exact h.rest rfl rfl rfl
    | dup f | close f | allocRelease r =>
      rcases hcode with hcode | hcode <;> cases hcode
      exact ⟨h.uses, h.fresh, h.closed⟩
    | _ => rcases hcode with hcode | hcode <;> cases hcode
  · have hres : Counted d' ∧ Each p d' (some k) ∧ Other p d d' := by
      cases c with
      | allocFind => cases hcode; exact hkept (allocFind_kept hd h) hg
      | dupTest f => cases hcode; exact hkept (dupTest_kept hd h) hg
      | closeDrop f => cases hcode; exact hkept (closeDrop_kept hd h) hg
      | _ => cases hcode
    exact ⟨hres.1, hres.2.1, fun q x hq _ hx => hx.other hres.2.2 hq⟩
  · have hres : Counted d' ∧ Each p d' (some k) ∧ Other p d d' := by
      cases c with
      | closeUnder temp => cases hcode; exact hkept (closeUnder_kept hd h) hg
      | setFields f y => cases hcode; exact hkept (setFields_kept hd h) hg
      | give f q => cases hcode; exact hkept (give_kept hd h) hg
      | _ => cases hcode
    exact ⟨hres.1, hres.2.1, fun q x hq hx => hx.other hres.2.2 hq⟩
  · refine ⟨(fun _ hf => nomatch hf), (fun _ hf => nomatch hf), fun u => ?_⟩
    cases c with
    | allocReturn r | done => exact h.closed u
    | _ => cases hcode

/-! ## Runs -/

variable {t : MonitorState Table Pc}

theorem inv_of_run (h : Run ftable.next (Monitor.Avoids secondRelease) (Monitor.initial initTable) t) :
    Monitor.Inv between Counted Each t :=
  Monitor.Inv.run h disciplined rely (fun _ => rfl) fun _ =>
    ⟨(fun _ hf => nomatch hf), (fun _ hf => nomatch hf), fun _ => rfl⟩

/-- As long as no `file_close` that dropped the last reference makes its second release, the
    file table is right. -/
theorem file_table_ok
    (h : Run ftable.next (Monitor.Avoids secondRelease) (Monitor.initial initTable) t) : Ok t := by
  have hinv := inv_of_run h
  refine ⟨hinv.clean.1, fun p q hp hq => ?_, fun p f hpc q hq => ?_, hinv.data,
    fun p => (hinv.each p).closed⟩
  · have := (hinv.excl p).mp hp
    rw [(hinv.excl q).mp hq] at this
    exact (Option.some.inj this).symm
  · have hp := hinv.each p
    rw [hpc] at hp
    rw [hp.fresh f rfl] at hq
    exact List.mem_singleton.mp hq

/-- Process 0 allocates an entry, makes an inode file of it and closes it, up to its second
    release; then process 1 takes the lock. -/
def closeOnce : List (MonitorAction Unit Call) :=
  [.call 0 .fileAlloc, .step 0 (), .step 0 (), .step 0 (), .step 0 (),
    .call 0 (.setFields 0 ⟨.inode, 0, true, false, 7, 0⟩), .step 0 (), .step 0 (),
    .call 0 (.fileClose (some 0)), .step 0 (), .step 0 (), .step 0 (), .step 0 (),
    .call 1 .fileAlloc, .step 1 ()]

theorem file_table_ok_closed : ∃ t : MonitorState Table Pc,
    t.data.closed = [(0, Under.inode 7)] ∧ t.holder = some 1 ∧ Ok t := by
  have hexec : (execIf ftable.next (Monitor.Avoids secondRelease) (Monitor.initial initTable)
      closeOnce).map (fun t => (t.data.closed, t.holder)) = some ([(0, .inode 7)], some 1) := by
    decide +kernel
  obtain ⟨t, hrun, ht⟩ := Run.of_execIf_map hexec
  simp only [Prod.mk.injEq] at ht
  exact ⟨t, ht.1, ht.2, file_table_ok hrun⟩

/-- Process 0 lets the lock of process 1 go, and process 2 takes it too. -/
theorem file_table_broken : ¬ ∀ t : MonitorState Table Pc,
    Run ftable.next anyStep (Monitor.initial initTable) t → Ok t := by
  intro h
  have hexec : (exec ftable.next (Monitor.initial initTable)
      (closeOnce ++ [.step 0 (), .call 2 .fileAlloc, .step 2 ()])).map
      (fun t => (t.badRelease, (t.pc 1).any between, (t.pc 2).any between)) =
      some (true, true, true) := by
    decide +kernel
  obtain ⟨t, hrun, ht⟩ := Option.map_eq_some_iff.mp hexec
  simp only [Prod.mk.injEq] at ht
  have hin : ∀ p, (t.pc p).any between = true → Monitor.Inside between t p := fun p hp =>
    (Option.any_eq_true between (t.pc p)).mp hp
  have := (h t (Run.of_exec hrun)).one 1 2 (hin 1 ht.2.1) (hin 2 ht.2.2)
  omega

end ShikiOS.Kernel.FileTable
