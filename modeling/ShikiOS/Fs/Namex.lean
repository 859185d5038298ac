import Mathlib.Data.List.DropRight
import ShikiOS.Fs.InodeRefs
import ShikiOS.Fs.DirOps
import ShikiOS.Fs.BitmapAlloc

/-!
# Path resolution (`fs/inode.c`, lines 514-625)

`Directory` has `namex` over the calls that it makes, with the elements of the path as a list. Here
it runs on the inode layer, with the path and the name in their buffers. A `DirTree` is what a
file system looks like from above: which inodes are directories, and what names in them stand for.

Results:
* `skipelemTo_short`: a call of `skipelem` on a path with short components.
* `DirTree.resolve_cons`: the way along a path, a component at a time.
* `namexLoop_spec`: the loop of `namex`, with its locks and references.
* `path_resolution`: what `namex` returns for every tree and every path.
-/

namespace ShikiOS.Fs.Dir

open ShikiOS.Lib Bcache
open Inodes hiding M

/-! ## The functions -/

/-- The loop of `namex` (lines 575-604) and what is behind it, in at most `n` rounds. `path` is what
    `skipelem` has returned, and `name` the buffer behind it. -/
def namexLoop (sb : SuperBlock) (ctx : Option ℕ) (nameiparent : Bool) :
    (n : ℕ) → (path : Skip) → (name : List UInt8) → (cur : ℕ) → Inodes.M (Option ℕ × List UInt8)
  | _, .null, name, cur =>
    if nameiparent then do
      inodePut sb ctx cur
      return (none, name)
    else return (some cur, name)
  | n + 1, .elem path name, _, cur => do
    inodeLock cur
    let i ← deref cur
    if i.entry.type ≠ inodeDirectory then do
      inodeUnlock cur
      inodePut sb ctx cur
      return (none, name)
    else if nameiparent = true ∧ path = [] then do
      inodeUnlock cur
      return (some cur, name)
    else do
      let (no, _) ← inodeLookup sb cur name none
      let next ← inodeGet sb no
      match next with
      | none => do
        inodeUnlock cur
        inodePut sb ctx cur
        return (none, name)
      | some next => do
        inodeUnlock cur
        inodePut sb ctx cur
        namexLoop sb ctx nameiparent n (skipelemTo path name) name next
  | _, _, _, _ => throw .freed

/-- Where a path starts (lines 562-569). -/
def namexStart (sb : SuperBlock) (cwd : ℕ) (path : CString) : Inodes.M (Option ℕ) :=
  if path.head? = some slash then inodeGet sb rootInodeNo else some <$> inodeShare cwd

/-- `namex` (inode.c:556-616): the inode, and `name` behind it. `cwd` is `thisproc()->cwd`. The loop
    takes a component of the path in each round. -/
def namex (sb : SuperBlock) (cwd : ℕ) (path : CString) (nameiparent : Bool) (name : List UInt8)
    (ctx : Option ℕ) : Inodes.M (Option ℕ × List UInt8) := do
  let cur ← namexStart sb cwd path
  match cur with
  | none => throw .freed
  | some cur => namexLoop sb ctx nameiparent path.length (skipelemTo path name) name cur

/-- `namei` (inode.c:618-621), with what is in the local `name` at first. -/
def namei (sb : SuperBlock) (cwd : ℕ) (path : CString) (name : List UInt8) (ctx : Option ℕ) :
    Inodes.M (Option ℕ) := do
  let r ← namex sb cwd path false name ctx
  return r.1

/-- `nameiparent` (inode.c:623-625). -/
def nameiparent (sb : SuperBlock) (cwd : ℕ) (path : CString) (name : List UInt8) (ctx : Option ℕ) :
    Inodes.M (Option ℕ × List UInt8) :=
  namex sb cwd path true name ctx

/-! ## Trees -/

/-- A file system from above. -/
structure DirTree where
  isDir : ℕ → Bool
  child : ℕ → CString → Option ℕ

namespace DirTree

/-- The inode that the names lead to, one after the other. Each of them is looked up in a
    directory. -/
def walk (T : DirTree) : ℕ → List CString → Option ℕ
  | a, [] => some a
  | a, c :: cs => if T.isDir a then (T.child a c).bind fun b => T.walk b cs else none

/-- What a path stands for; with `parent` it is the directory that its last component is in. -/
def resolve (T : DirTree) (parent : Bool) (a : ℕ) (cs : List CString) : Option ℕ :=
  if parent then if cs = [] then none else (T.walk a cs.dropLast).filter T.isDir
  else T.walk a cs

variable {T : DirTree} {parent : Bool} {a : ℕ} {c : CString} {cs : List CString}

theorem resolve_nil : T.resolve parent a [] = if parent then none else some a := by
  cases parent <;> rfl

theorem resolve_cons : T.resolve parent a (c :: cs) =
    if T.isDir a then
      if parent = true ∧ cs = [] then some a else (T.child a c).bind fun b => T.resolve parent b cs
    else none := by
  unfold resolve
  cases parent with
  | false => simp [walk]
  | true =>
    cases cs with
    | nil => cases hd : T.isDir a <;> simp [walk, hd]
    | cons d cs =>
      have hlast : (c :: d :: cs).dropLast = c :: (d :: cs).dropLast := rfl
      simp only [hlast, walk]
      cases hd : T.isDir a with
      | false => simp
      | true => cases T.child a c <;> simp

end DirTree

/-- The tree on a device. -/
def treeOf (sb : SuperBlock) (σ : ℕ → BlockData) : DirTree where
  isDir a := (diskEntry sb σ a).type = inodeDirectory
  child a c := (searchFrom (entriesOf (fileContent σ (diskEntry sb σ a))) c 0).map Prod.fst

/-- The inodes `D` form a tree: the directories have all their blocks, and entries that are in use
    name inodes of `D` that have a link. -/
structure Dirs (sb : SuperBlock) (σ : ℕ → BlockData) (D : ℕ → Prop) : Prop where
  bound : ∀ no, D no → no ≠ 0 ∧ no < sb.numInodes
  entries : ∀ no, D no → (diskEntry sb σ no).type = inodeDirectory → ∃ ds,
    Filled sb σ (diskEntry sb σ no) ∧ fileContent σ (diskEntry sb σ no) = bytesOf ds ∧ Terminated ds ∧
    ∀ d ∈ ds, d.inodeNo ≠ 0 → D d.inodeNo.toNat ∧ (diskEntry sb σ d.inodeNo.toNat).numLinks ≠ 0

/-! ## The components of a path -/

variable {path rest : CString} {name : List UInt8}

/-- What `skipelem` returns begins with no slash. -/
theorem skipelemTo_rest {x : Option (List UInt8)} (h : skipelemTo path name = .copied rest x) :
    rest = [] ∨ components rest ≠ [] ∨ x = none := by
  cases x with
  | none => exact .inr (.inr rfl)
  | some x =>
    unfold skipelemTo at h
    split at h
    · cases h
    next c s hd =>
    generalize hcopy : copyElem ((c :: s).takeWhile (· ≠ slash)) name = y at h
    cases y with
    | none => cases h
    | some y =>
      injection h with hrest
      have hidem : rest.dropWhile (· = slash) = rest := by
        rw [← hrest, List.dropWhile_idempotent]
      rw [components_eq, hidem]
      cases rest with
      | nil => exact .inl rfl
      | cons c rest => exact .inr (.inl (List.cons_ne_nil _ _))

/-- A call of `skipelem` on a path with short components. -/
theorem skipelemTo_short (h0 : ∀ c ∈ path, c ≠ 0) (hname : name.length = fileNameMaxLength)
    (hshort : ∀ c ∈ components path, c.length < fileNameMaxLength) :
    (components path = [] ∧ skipelemTo path name = .null) ∨
    ∃ c rest name', components path = c :: components rest ∧ skipelemTo path name = .elem rest name' ∧
      name'.length = fileNameMaxLength ∧ (∃ n, strlen name' = some n) ∧ cstr name' = c ∧
      rest.length < path.length ∧ (∀ x ∈ rest, x ≠ 0) ∧ (rest = [] ↔ components rest = []) := by
  rcases skipelemTo_cases h0 name with h | ⟨c, rest, hc, hc0, hrest, hlt, hs⟩
  · exact .inl h
  · have hclt := hshort c (hc ▸ List.mem_cons_self)
    obtain ⟨name', hcopy, hgood⟩ := good_of_lt hc0 hname ((Nat.mod_le _ _).trans_lt hclt)
    refine .inr ⟨c, rest, name', hc, ?_, hgood.length, hgood.terminated, hgood.cut.2 hclt, hlt, hrest, ?_⟩
    · rw [hs, hcopy]
      rfl
    · constructor
      · rintro rfl
        rfl
      · intro hnil
        rcases skipelemTo_rest hs with h | h | h
        · exact h
        · exact absurd hnil h
        · rw [hcopy] at h
          cases h

/-! ## The loop -/

variable {sb : SuperBlock} {σ : ℕ → BlockData} {D : ℕ → Prop} {ρ : ℕ → ℤ} {busy ctx : Option ℕ}
  {s t : FsState} {q no n : ℕ} {parent : Bool} {cs : List CString}

/-- What the names in a directory of the tree stand for. -/
theorem Dirs.wp_lookup (hD : Dirs sb σ D) (hno : D no) (ht : (diskEntry sb σ no).type = inodeDirectory)
    (h : Refs sb σ ρ busy s) (hq : Holds s q no) (hn : strlen name = some n) :
    wp (inodeLookup sb q name none) (fun r t =>
      (match (treeOf sb σ).child no (cstr name) with
        | some b => r.1 = b ∧ D b ∧ (diskEntry sb σ b).numLinks ≠ 0
        | none => r.1 = 0) ∧
      Refs sb σ ρ busy t ∧ Kept s t) (fun _ _ => False) s := by
  obtain ⟨ds, hfill, hcontent, hterm, hentries⟩ := hD.entries no hno ht
  have hread : ReadDir sb σ q (diskEntry sb σ no) ds s :=
    ⟨⟨h.rep, _, h.inode hq, rfl⟩, hfill, ht, hcontent, hterm⟩
  refine wp.imp (hread.wp_inodeLookup hn) ?_
  rintro r t ⟨rfl, c, rfl, -, hc⟩
  refine ⟨?_, h.of_rep hc, Kept.of_cache⟩
  have hchild : (treeOf sb σ).child no (cstr name) = (searchFrom ds (cstr name) 0).map Prod.fst := by
    unfold treeOf
    dsimp only
    rw [hcontent, entriesOf_bytesOf hterm]
  rw [hchild]
  cases hs : searchFrom ds (cstr name) 0 with
  | none => rfl
  | some r =>
    obtain ⟨d, hd, h0, hno⟩ := searchFrom_mem (j := r.2) hs
    obtain ⟨h1, h2⟩ := hentries d hd h0
    rw [hno] at h1 h2
    exact ⟨rfl, h1, h2⟩

/-- What `namex` leaves: the inode of the path with one more reference, or no inode. -/
def Resolved (sb : SuperBlock) (σ : ℕ → BlockData) (ρ : ℕ → ℤ) (target : Option ℕ) (s : FsState)
    (r : Option ℕ) (t : FsState) : Prop :=
  Kept s t ∧ match target with
    | some no => ∃ q, r = some q ∧ Holds t q no ∧ Refs sb σ (bump ρ no 1) none t
    | none => r = none ∧ Refs sb σ ρ none t

theorem Resolved.of_kept {target r : Option ℕ} {u : FsState} (hk : Kept s t)
    (h : Resolved sb σ ρ target t r u) : Resolved sb σ ρ target s r u := ⟨hk.trans h.1, h.2⟩

/-- The directory is left without a result. -/
theorem wp_leave {Q : Option ℕ × List UInt8 → FsState → Prop} {E : Stop → FsState → Prop}
    (h : Refs sb σ (bump ρ no 1) (some q) s) (hq : Holds s q no) (hpos : 0 ≤ ρ no)
    (hkeep : (diskEntry sb σ no).numLinks ≠ 0 ∨ 0 < ρ no) {x : Inodes.M (Option ℕ × List UInt8)}
    (hQ : ∀ t, Refs sb σ ρ none t → Kept s t → wp x Q E t) :
    wp (do inodeUnlock q; inodePut sb ctx q; x) Q E s := by
  rw [wp_bind]
  refine h.wp_unlock hq (by rw [bump_self]; omega) fun t1 h1 k1 => ?_
  rw [wp_bind]
  refine h1.wp_put (k1.holds q no hq) (by rw [bump_self]; omega) ?_ fun t2 h2 k2 => ?_
  · rw [bump_self]
    exact hkeep.imp_right fun hlt => by omega
  · rw [bump_bump, show (1 : ℤ) + -1 = 0 by norm_num, bump_zero] at h2
    exact hQ t2 h2 (k1.trans k2)

theorem namexLoop_null : namexLoop sb ctx parent n .null name q =
    if parent then (do inodePut sb ctx q; return (none, name)) else return (some q, name) := by
  cases n <;> rfl

/-- Behind the last component. -/
theorem wp_namexLoop_null (h : Refs sb σ (bump ρ no 1) none s) (hq : Holds s q no) (hpos : 0 ≤ ρ no)
    (hkeep : (diskEntry sb σ no).numLinks ≠ 0 ∨ 0 < ρ no) (hc : components path = []) :
    wp (namexLoop sb ctx parent n .null name q) (fun r t =>
      Resolved sb σ ρ ((treeOf sb σ).resolve parent no (components path)) s r.1 t ∧
      (parent = true → r.1 ≠ none → (components path).getLast? = some (cstr r.2)))
      (fun _ _ => False) s := by
  rw [namexLoop_null, hc, DirTree.resolve_nil]
  cases parent with
  | false =>
    rw [if_neg Bool.false_ne_true, if_neg Bool.false_ne_true, wp_pure]
    exact ⟨⟨Kept.refl s, q, rfl, hq, h⟩, fun hp => absurd hp Bool.false_ne_true⟩
  | true =>
    rw [if_pos rfl, if_pos rfl, wp_bind]
    refine h.wp_put hq (by rw [bump_self]; omega) ?_ fun t ht hk => ?_
    · rw [bump_self]
      exact hkeep.imp_right fun hlt => by omega
    · rw [bump_bump, show (1 : ℤ) + -1 = 0 by norm_num, bump_zero] at ht
      exact wp_pure.mpr ⟨⟨hk, rfl, ht⟩, fun _ hne => absurd rfl hne⟩

/-- The loop of `namex` from a directory that it has a reference to. -/
theorem namexLoop_spec (hl : sb.Layout) (hD : Dirs sb σ D) (hpos : ∀ x, 0 ≤ ρ x)
    (h : Refs sb σ (bump ρ no 1) none s) (hq : Holds s q no) (hno : D no)
    (hkeep : (diskEntry sb σ no).numLinks ≠ 0 ∨ 0 < ρ no) (h0 : ∀ c ∈ path, c ≠ 0)
    (hname : name.length = fileNameMaxLength)
    (hshort : ∀ c ∈ components path, c.length < fileNameMaxLength) (hn : path.length ≤ n) :
    wp (namexLoop sb ctx parent n (skipelemTo path name) name q) (fun r t =>
      Resolved sb σ ρ ((treeOf sb σ).resolve parent no (components path)) s r.1 t ∧
      (parent = true → r.1 ≠ none → (components path).getLast? = some (cstr r.2)))
      (fun _ _ => False) s := by
  induction n generalizing s q no path name with
  | zero =>
    obtain rfl := List.length_eq_zero_iff.mp (Nat.le_zero.mp hn)
    exact wp_namexLoop_null h hq (hpos no) hkeep rfl
  | succ n ih =>
    rcases skipelemTo_short h0 hname hshort with ⟨hc, hs⟩ |
      ⟨c, rest, name', hc, hs, hlen, ⟨m, hm⟩, hstr, hlt, hrest, hnil⟩
    · rw [hs]
      exact wp_namexLoop_null h hq (hpos no) hkeep hc
    have hone : 0 < bump ρ no 1 no := by
      have := hpos no
      rw [bump_self]
      omega
    rw [hc, hs, DirTree.resolve_cons, namexLoop, wp_bind]
    refine h.wp_lock hq hone fun t1 h1 k1 => ?_
    have hq1 := k1.holds q no hq
    rw [wp_bind, wp_deref (h1.inode hq1)]
    by_cases htype : (diskEntry sb σ no).type = inodeDirectory
    swap
    · -- a file in the middle
      have hdir : ¬ (treeOf sb σ).isDir no = true := by simpa [treeOf] using htype
      rw [if_pos (show (image sb σ (bump ρ no 1) (some q) q no).entry.type ≠ inodeDirectory from htype),
        if_neg hdir]
      refine wp_leave h1 hq1 (hpos no) hkeep fun t2 h2 k2 => wp_pure.mpr ⟨⟨k1.trans k2, rfl, h2⟩, ?_⟩
      exact fun _ hne => absurd rfl hne
    have hdir : (treeOf sb σ).isDir no = true := by simpa [treeOf] using htype
    rw [if_neg (show ¬ (image sb σ (bump ρ no 1) (some q) q no).entry.type ≠ inodeDirectory from
      not_not.mpr htype), if_pos hdir]
    by_cases hlast : parent = true ∧ rest = []
    · rw [if_pos hlast, if_pos (hlast.imp_right hnil.mp), wp_bind]
      refine h1.wp_unlock hq1 hone fun t2 h2 k2 => ?_
      refine wp_pure.mpr ⟨⟨k1.trans k2, q, rfl, k2.holds q no hq1, h2⟩, fun _ _ => ?_⟩
      rw [hlast.2, hstr]
      rfl
    rw [if_neg hlast, if_neg fun hl => hlast (hl.imp_right hnil.mpr), wp_bind]
    refine wp.imp (hD.wp_lookup hno htype h1 hq1 hm) ?_
    rintro ⟨no', index⟩ t2 ⟨hchild, h2, k2⟩
    have hq2 := k2.holds q no hq1
    rw [hstr] at hchild
    dsimp only
    rw [wp_bind]
    cases hb : (treeOf sb σ).child no c with
    | none =>
      rw [hb] at hchild
      obtain rfl : no' = 0 := hchild
      unfold inodeGet
      rw [if_pos rfl, wp_pure]
      refine wp_leave h2 hq2 (hpos no) hkeep fun t3 h3 k3 =>
        wp_pure.mpr ⟨⟨(k1.trans k2).trans k3, rfl, h3⟩, fun _ hne => absurd rfl hne⟩
    | some b =>
      rw [hb] at hchild
      obtain ⟨hno', hDb, hlinks⟩ := hchild
      obtain rfl : no' = b := hno'
      obtain ⟨hb0, hblt⟩ := hD.bound no' hDb
      have hbusy : ∀ q', some q = some q' → q' < t2.nextPtr := by
        rintro q' hq'
        rw [← Option.some.inj hq']
        exact h2.below q hq2.1
      refine h2.wp_inodeGet hl hb0 hblt hbusy fun next t3 hnext h3 k3 => ?_
      have hq3 := k3.holds q no hq2
      rw [bump_comm] at h3
      have hge : ∀ x, ρ x ≤ bump ρ no' 1 x := by
        intro x
        by_cases hx : x = no'
        · rw [hx, bump_self]
          omega
        · rw [bump_of_ne hx]
      dsimp only
      refine wp_leave h3 hq3 ((hpos no).trans (hge no)) (hkeep.imp_right fun hlt => hlt.trans_le (hge no))
        fun t4 h4 k4 => ?_
      refine wp.imp (ih h4 (k4.holds next no' hnext) hDb (.inl hlinks) hrest hlen
        (fun d hd => hshort d (hc ▸ List.mem_cons_of_mem _ hd)) (by omega)) ?_
      rintro r u ⟨hr, hname'⟩
      refine ⟨hr.of_kept (((k1.trans k2).trans k3).trans k4), fun hp hne => ?_⟩
      have hmore : components rest ≠ [] := fun hnil' => hlast ⟨hp, hnil.mpr hnil'⟩
      rw [List.getLast?_cons_of_ne_nil hmore]
      exact hname' hp hne

/-! ## Paths -/

theorem Resolved.oneRef {target r : Option ℕ} (h : Refs sb σ ρ none s)
    (hr : Resolved sb σ ρ target s r t) : OneRef s r t := by
  obtain ⟨hk, hr⟩ := hr
  cases target with
  | none =>
    obtain ⟨rfl, ht⟩ := hr
    exact h.oneRef none ht hk (by simp) (by simp) (by simp)
  | some no =>
    obtain ⟨q, rfl, hq, ht⟩ := hr
    refine h.oneRef (some no) ht hk (fun no' => ?_) (fun q' no' hq' => ?_) fun q' he => ?_
    · by_cases hne : no' = no
      · rw [hne, bump_self, if_pos rfl]
      · rw [bump_of_ne hne, if_neg fun he => hne (Option.some.inj he).symm, add_zero]
    · constructor
      · intro he
        obtain rfl := Option.some.inj he
        obtain ⟨-, i, hi, rfl⟩ := hq
        obtain ⟨-, i', hi', rfl⟩ := hq'
        rw [Option.some.inj (hi.symm.trans hi')]
      · intro he
        obtain rfl := Option.some.inj he
        rw [ht.once q q' no hq hq']
    · rw [← Option.some.inj he]
      exact hq.1

/-- A directory tree, where the process has the inode `cwdNo` as its working directory. The root has
    a link or is held. -/
structure Tree (sb : SuperBlock) (σ : ℕ → BlockData) (D : ℕ → Prop) (cwd cwdNo : ℕ) (s : FsState) :
    Prop where
  refs : Refs sb σ (refs s) none s
  dirs : Dirs sb σ D
  root : D rootInodeNo
  rootKept : (diskEntry sb σ rootInodeNo).numLinks ≠ 0 ∨ 0 < Inodes.refs s rootInodeNo
  work : D cwdNo
  workHeld : Holds s cwd cwdNo ∧ 0 < Inodes.refs s cwdNo

/-- For every tree and every path whose components are shorter than `FILE_NAME_MAX_LENGTH`, `namex`
    returns the inode that the path stands for, or `NULL` if there is none. It has taken one
    reference to this inode and none to any other, and no lock. For a parent, the last component
    is in `name`. -/
theorem path_resolution {cwd cwdNo : ℕ} (hl : sb.Layout) (h : Tree sb σ D cwd cwdNo s)
    (h0 : ∀ c ∈ path, c ≠ 0) (hname : name.length = fileNameMaxLength)
    (hshort : ∀ c ∈ components path, c.length < fileNameMaxLength) :
    wp (namex sb cwd path parent name ctx) (fun r t =>
      (match (treeOf sb σ).resolve parent (if path.head? = some slash then rootInodeNo else cwdNo)
          (components path) with
        | some no => (∃ q, r.1 = some q ∧ Holds t q no) ∧
            (parent = true → (components path).getLast? = some (cstr r.2))
        | none => r.1 = none) ∧
      OneRef s r.1 t) (fun _ _ => False) s := by
  have hloop : ∀ {q no t}, Refs sb σ (bump (refs s) no 1) none t → Holds t q no → D no →
      ((diskEntry sb σ no).numLinks ≠ 0 ∨ 0 < refs s no) → Kept s t →
      wp (namexLoop sb ctx parent path.length (skipelemTo path name) name q) (fun r u =>
        (match (treeOf sb σ).resolve parent no (components path) with
          | some no => (∃ q, r.1 = some q ∧ Holds u q no) ∧
              (parent = true → (components path).getLast? = some (cstr r.2))
          | none => r.1 = none) ∧
        OneRef s r.1 u) (fun _ _ => False) t := by
    intro q no t ht hq hno hkeep hk
    refine wp.imp (namexLoop_spec hl h.dirs h.refs.nonneg ht hq hno hkeep h0 hname hshort le_rfl) ?_
    rintro r u ⟨hr, hlast⟩
    refine ⟨?_, (hr.of_kept hk).oneRef h.refs⟩
    obtain ⟨-, hr⟩ := hr
    cases hres : (treeOf sb σ).resolve parent no (components path) with
    | none =>
      rw [hres] at hr
      exact hr.1
    | some b =>
      rw [hres] at hr
      obtain ⟨q', hq', hb, -⟩ := hr
      exact ⟨⟨q', hq', hb⟩, fun hp => hlast hp (by rw [hq']; exact Option.some_ne_none q')⟩
  unfold namex namexStart
  rw [wp_bind]
  by_cases habs : path.head? = some slash
  · rw [if_pos habs, if_pos habs]
    obtain ⟨hr0, hrlt⟩ := h.dirs.bound rootInodeNo h.root
    exact h.refs.wp_inodeGet hl hr0 hrlt (fun q hq => by cases hq) fun q t hq ht hk =>
      hloop ht hq h.root h.rootKept hk
  · rw [if_neg habs, if_neg habs, wp_map]
    exact h.refs.wp_share h.workHeld.1 fun t ht hk =>
      hloop ht (hk.holds _ _ h.workHeld.1) h.work (.inr h.workHeld.2) hk

/-! ## A small tree -/

/-- A directory with one entry, in block `b`. -/
def dirEntry (b : ℕ) : InodeEntry :=
  { InodeEntry.zero with
    type := inodeDirectory
    numLinks := 1
    numBytes := 16
    addrs := fun k => if (k : ℕ) = 0 then UInt32.ofNat b else 0 }

/-- The root has a directory `a`, inode 2, and this has an empty file `b`, inode 3. -/
def treeDisk (b : ℕ) : BlockData :=
  if b = 22 then
    InodeEntry.put (InodeEntry.put (InodeEntry.put zeroBlock 1 (dirEntry 25)) 2 (dirEntry 26)) 3 emptyFile
  else if b = 24 then zeroBlock.copy 0 [0xff, 0xff, 0xff, 0x07]
  else if b = 25 then zeroBlock.copy 0 (DirEntry.new 2 [97]).encode
  else if b = 26 then zeroBlock.copy 0 (DirEntry.new 3 [98]).encode
  else zeroBlock

/-- The root is in memory, and it is the working directory. -/
def treeState : FsState where
  cache := Bcache.boot treeDisk
  list := [1]
  inode := Function.update (fun _ => none) 1 (some ⟨1, 2, 1, true, dirEntry 25⟩)
  nextPtr := 2
  fresh := []
  input := []

theorem diskEntry_treeDisk : diskEntry blankFs treeDisk 1 = dirEntry 25 ∧
    diskEntry blankFs treeDisk 2 = dirEntry 26 ∧ diskEntry blankFs treeDisk 3 = emptyFile := by
  have hblock : treeDisk 22 = InodeEntry.put (InodeEntry.put (InodeEntry.put zeroBlock 1 (dirEntry 25)) 2
    (dirEntry 26)) 3 emptyFile := rfl
  have hget : ∀ i < 8, diskEntry blankFs treeDisk i = InodeEntry.get (treeDisk 22) i := by
    intro i hi
    have hno : blankFs.toBlockNo i = 22 := congrArg (22 + ·) (Nat.div_eq_of_lt hi)
    rw [diskEntry, hno, Nat.mod_eq_of_lt (show i < inodePerBlock from hi)]
  refine ⟨?_, ?_, ?_⟩
  · rw [hget 1 (by decide), hblock, InodeEntry.get_put_of_ne _ (by decide) (by decide),
      InodeEntry.get_put_of_ne _ (by decide) (by decide), InodeEntry.get_put _ (by decide)]
  · rw [hget 2 (by decide), hblock, InodeEntry.get_put_of_ne _ (by decide) (by decide),
      InodeEntry.get_put _ (by decide)]
  · rw [hget 3 (by decide), hblock, InodeEntry.get_put _ (by decide)]

/-- A directory of one entry in one block. -/
theorem filled_dirEntry {σ : ℕ → BlockData} {b : ℕ} (hb : 25 ≤ b) (hlt : b < 100) :
    Filled blankFs σ (dirEntry b) := by
  have haddr : (UInt32.ofNat b).toNat = b := by
    rw [UInt32.toNat_ofNat', Nat.mod_eq_of_lt (by omega)]
  have hnum : (dirEntry b).numBytes.toNat = 16 := rfl
  refine ⟨fun k hk => ?_, fun hsize => absurd hsize (not_lt.mpr (by rw [hnum]; decide))⟩
  obtain rfl : k = 0 := by
    rw [hnum] at hk
    unfold blockSize at hk
    omega
  have hblock : fileBlock σ (dirEntry b) 0 = b := haddr
  rw [hblock]
  exact ⟨by omega, blankFs_layout.not_inLog_of_isData ⟨hb, hlt⟩⟩

theorem tree_treeState : Tree blankFs treeDisk (fun no => no = 1 ∨ no = 2 ∨ no = 3) 1 1 treeState := by
  obtain ⟨h1, h2, h3⟩ := diskEntry_treeDisk
  have hholds : Holds treeState 1 1 := ⟨List.mem_singleton_self 1, _, rfl, rfl⟩
  have hrefs : refs treeState = Function.update (fun _ => 0) 1 2 := by
    funext no
    by_cases hno : no = 1
    · subst hno
      rfl
    · rw [Function.update_of_ne hno]
      unfold refs
      have hnone : findInode treeState no = none := by
        refine List.find?_eq_none.mpr fun q hq => ?_
        obtain rfl := List.mem_singleton.mp hq
        exact fun he => hno (beq_iff_eq.mp he).symm
      rw [hnone]
  have hmem : ∀ q no, Holds treeState q no → q = 1 ∧ no = 1 := by
    rintro q no ⟨hq, i, hi, rfl⟩
    obtain rfl := List.mem_singleton.mp hq
    exact ⟨rfl, by rw [← Option.some.inj hi]⟩
  refine ⟨⟨?_, fun q hq => ?_, fun q q' no hq hq' => ?_, fun no habs => ?_, fun no => ?_,
    fun q hq => ?_⟩, ⟨fun no hno => ?_, fun no hno ht => ?_⟩, .inl rfl, ?_, .inl rfl, hholds, ?_⟩
  · exact Allocator.rep_boot blankFs treeDisk
  · obtain rfl := List.mem_singleton.mp hq
    refine ⟨1, ?_⟩
    rw [image, h1, hrefs]
    rfl
  · rw [(hmem q no hq).1, (hmem q' no hq').1]
  · have hne : no ≠ 1 := by
      rintro rfl
      exact habs 1 hholds
    rw [hrefs, Function.update_of_ne hne]
  · rw [hrefs]
    by_cases hne : no = 1
    · rw [hne, Function.update_self]
      norm_num
    · rw [Function.update_of_ne hne]
  · rw [List.mem_singleton.mp hq]
    decide
  · rcases hno with rfl | rfl | rfl <;> decide
  · rcases hno with rfl | rfl | rfl
    · refine ⟨[.new 2 [97]], ?_, ?_, ?_, ?_⟩
      · rw [h1]
        exact filled_dirEntry (by decide) (by decide)
      · rw [h1]
        decide +kernel
      · intro d hd
        rw [List.mem_singleton.mp hd]
        exact ⟨rfl, 1, rfl⟩
      · intro d hd _
        rw [List.mem_singleton.mp hd]
        refine ⟨.inr (.inl rfl), ?_⟩
        change (diskEntry blankFs treeDisk 2).numLinks ≠ 0
        rw [h2]
        decide
    · refine ⟨[.new 3 [98]], ?_, ?_, ?_, ?_⟩
      · rw [h2]
        exact filled_dirEntry (by decide) (by decide)
      · rw [h2]
        decide +kernel
      · intro d hd
        rw [List.mem_singleton.mp hd]
        exact ⟨rfl, 1, rfl⟩
      · intro d hd _
        rw [List.mem_singleton.mp hd]
        refine ⟨.inr (.inr rfl), ?_⟩
        change (diskEntry blankFs treeDisk 3).numLinks ≠ 0
        rw [h3]
        decide
    · rw [h3] at ht
      cases ht
  · rw [hrefs]
    exact .inr (by decide)
  · rw [hrefs]
    decide

/-- The path `/a//b/` and its parent. -/
theorem path_resolution_ab :
    (∃ q name t, namex blankFs 1 [47, 97, 47, 47, 98, 47] false (List.replicate 14 0) none treeState =
      .ok (some q, name) t ∧ Holds t q 3 ∧ OneRef treeState (some q) t) ∧
    ∃ q name t, namex blankFs 1 [47, 97, 47, 47, 98, 47] true (List.replicate 14 0) none treeState =
      .ok (some q, name) t ∧ Holds t q 2 ∧ cstr name = [98] := by
  have h0 : ∀ c ∈ ([47, 97, 47, 47, 98, 47] : CString), c ≠ 0 := by simp
  have hname : (List.replicate 14 (0 : UInt8)).length = fileNameMaxLength := by decide
  have hshort : ∀ c ∈ components [47, 97, 47, 47, 98, 47], c.length < fileNameMaxLength := by decide
  have hrun := fun parent => (@path_resolution _ _ _ _ _ none _ parent _ _ blankFs_layout
    tree_treeState h0 hname hshort).total
  have h3 : (treeOf blankFs treeDisk).resolve false rootInodeNo [[97], [98]] = some 3 := by decide +kernel
  have h2 : (treeOf blankFs treeDisk).resolve true rootInodeNo [[97], [98]] = some 2 := by decide +kernel
  have hcomp : components [47, 97, 47, 47, 98, 47] = [[97], [98]] := by decide
  constructor
  · obtain ⟨⟨r, name⟩, t, hok, hres, hone⟩ := hrun false
    rw [if_pos (by rfl), hcomp, h3] at hres
    obtain ⟨⟨q, rfl, hq⟩, -⟩ := hres
    exact ⟨q, name, t, hok, hq, hone⟩
  · obtain ⟨⟨r, name⟩, t, hok, hres, -⟩ := hrun true
    rw [if_pos (by rfl), hcomp, h2] at hres
    obtain ⟨⟨q, rfl, hq⟩, hlast⟩ := hres
    exact ⟨q, name, t, hok, hq, (Option.some.inj (hlast rfl)).symm⟩

end ShikiOS.Fs.Dir
