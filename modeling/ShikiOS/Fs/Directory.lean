import ShikiOS.Fs.InodeFormat

/-!
# Directories and paths (`fs/inode.c`, lines 409-625)

A directory is a file of 16-byte entries. A path is a C string, here the list of the bytes
before its NUL, and a name is an element of a path cut to 14 bytes. Where the code reads
past the end of a 14-byte buffer without a NUL, it is taken to find one there.

The functions are written over `Services`, the calls that they and the system calls make.
A module that runs them says what the calls do: with the state of the file system, or as
the steps of a process among others.

Results:
* `skipelem_length`: `skipelem` reads at least one byte of the path.
* `pathElems_eq`: `pathElems` is what repeated calls of `skipelem` return.
-/

namespace ShikiOS.Fs

open ShikiOS.Lib

/-- A C string without its NUL. -/
abbrev CString := List UInt8

/-! ## Directory entries -/

/-- `FILE_NAME_MAX_LENGTH` (defines.h:21). -/
def fileNameMaxLength : ℕ := 14

/-- `sizeof(DirEntry)`. -/
def dirEntrySize : ℕ := 16

/-- `DirEntry` (defines.h:67-70). -/
structure DirEntry where
  inodeNo : UInt16
  name : List UInt8

namespace DirEntry

/-- The entry in a buffer of 16 bytes. -/
def decode (l : List UInt8) : DirEntry where
  inodeNo := UInt16.ofNat (getLE (fun i => l.getD i 0) 0 2)
  name := (l.drop 2).take fileNameMaxLength

/-- The bytes of an entry. -/
def encode (d : DirEntry) : List UInt8 :=
  UInt8.ofNat d.inodeNo.toNat :: UInt8.ofNat (d.inodeNo.toNat / 256) :: d.name

/-- An entry with the number and the name that `inode_insert` stores (lines 468-470). -/
def new (inodeNo : ℕ) (name : CString) : DirEntry where
  inodeNo := UInt16.ofNat inodeNo
  name := (name ++ List.replicate fileNameMaxLength 0).take fileNameMaxLength

/-- The string in `name`. -/
def cName (d : DirEntry) : CString := d.name.takeWhile (· ≠ 0)

end DirEntry

/-! ## Paths -/

/-- The byte `/`. -/
def slash : UInt8 := 47

/-- `skipelem` (inode.c:514-535): the next element of the path and the path behind it. -/
def skipelem (path : CString) : Option (CString × CString) :=
  match path.dropWhile (· = slash) with
  | [] => none
  | c :: s => some (((c :: s).takeWhile (· ≠ slash)).take fileNameMaxLength,
      ((c :: s).dropWhile (· ≠ slash)).dropWhile (· = slash))

/-- The elements that at most `n` calls of `skipelem` read. -/
def pathElemsFrom : ℕ → CString → List CString
  | 0, _ => []
  | n + 1, path =>
    match skipelem path with
    | none => []
    | some (name, rest) => name :: pathElemsFrom n rest

/-- The elements of a path. -/
def pathElems (path : CString) : List CString := pathElemsFrom path.length path

theorem length_dropWhile_le (p : UInt8 → Bool) (l : List UInt8) :
    (l.dropWhile p).length ≤ l.length := (List.dropWhile_suffix p).length_le

theorem skipelem_length {path name rest : CString} (h : skipelem path = some (name, rest)) :
    rest.length < path.length := by
  unfold skipelem at h
  split at h
  · cases h
  next c s hd =>
  simp only [Option.some.injEq, Prod.mk.injEq] at h
  obtain ⟨-, rfl⟩ := h
  have hc : c ≠ slash := by
    have := List.head_dropWhile_not (fun x : UInt8 => decide (x = slash)) (by rw [hd]; simp)
    simpa [hd] using this
  have h1 : ((c :: s).dropWhile (· ≠ slash)).length ≤ s.length := by
    rw [List.dropWhile_cons_of_pos (by simpa using hc)]
    exact length_dropWhile_le _ s
  have h2 := length_dropWhile_le (· = slash) ((c :: s).dropWhile (· ≠ slash))
  have h3 := length_dropWhile_le (· = slash) path
  rw [hd, List.length_cons] at h3
  omega

/-- More calls than the path has bytes read nothing more. -/
theorem pathElemsFrom_congr {n n' : ℕ} {path : CString} (h : path.length ≤ n)
    (h' : path.length ≤ n') : pathElemsFrom n path = pathElemsFrom n' path := by
  induction n generalizing path n' with
  | zero =>
    obtain rfl := List.length_eq_zero_iff.mp (Nat.le_zero.mp h)
    cases n' <;> rfl
  | succ n ih =>
    cases n' with
    | zero =>
      obtain rfl := List.length_eq_zero_iff.mp (Nat.le_zero.mp h')
      rfl
    | succ n' =>
      rw [pathElemsFrom, pathElemsFrom]
      split
      · rfl
      next name rest hs =>
      have hlt := skipelem_length hs
      rw [ih (by omega) (by omega : rest.length ≤ n')]

theorem pathElems_eq (path : CString) : pathElems path =
    match skipelem path with
    | none => []
    | some (name, rest) => name :: pathElems rest := by
  rw [pathElems, pathElemsFrom_congr le_rfl (Nat.le_succ path.length), pathElemsFrom]
  split
  · rfl
  next name rest hs =>
  rw [pathElems, pathElemsFrom_congr (skipelem_length hs).le le_rfl]

/-! ## The calls that the file system code makes -/

/-- `File` (file.h:16-32). `pipe` and `ip` share their place. -/
inductive FileType
  | none
  | pipe
  | inode
deriving DecidableEq

structure File where
  type : FileType
  ref : ℤ
  readable : Bool
  writable : Bool
  ip : ℕ
  off : ℕ

/-- An entry of the file table after `memset(f, 0, sizeof(File))`. -/
def File.zero : File := ⟨.none, 0, false, false, 0, 0⟩

/-- The calls: the operations of `InodeTree` (inode.h:67-252) up to `write`, the members of
    an `Inode`, and the rest of the kernel. -/
structure Services (m : Type → Type) where
  alloc : Option ℕ → InodeType → m ℕ
  lock : ℕ → m Unit
  unlock : ℕ → m Unit
  sync : Option ℕ → ℕ → Bool → m Unit
  get : ℕ → m (Option ℕ)
  share : ℕ → m ℕ
  put : Option ℕ → ℕ → m Unit
  read : ℕ → ℕ → ℕ → m (List UInt8)
  write : Option ℕ → ℕ → List UInt8 → ℕ → m ℕ
  /-- `ip->inode_no`. -/
  inodeNo : ℕ → m ℕ
  /-- `ip->entry`. -/
  entry : ℕ → m InodeEntry
  /-- An assignment to `ip->entry`. -/
  modifyEntry : ℕ → (InodeEntry → InodeEntry) → m Unit
  /-- `bcache.begin_op` of a new context. -/
  beginOp : m ℕ
  /-- `bcache.end_op`. -/
  endOp : ℕ → m Unit
  /-- A PANIC or a failed ASSERT. -/
  panic : {α : Type} → m α
  /-- `thisproc()->cwd`. -/
  cwd : m ℕ
  setCwd : ℕ → m Unit
  /-- `file_alloc`. -/
  fileAlloc : m (Option ℕ)
  /-- `fdalloc`. -/
  fdAlloc : ℕ → m (Option ℕ)
  /-- Lines 66-70 of `file_close`: the closed file if the count has reached 0. -/
  dropRef : ℕ → m (Option File)
  /-- An assignment to `*f`. -/
  modifyFile : ℕ → (File → File) → m Unit
  /-- Does nothing. `create` calls it when it has found the parent directory, so that a
      condition on a run can speak of this place. -/
  parentFound : m Unit

/-! ## Directories -/

variable {m : Type → Type} [Monad m] (k : Services m)

/-- The loops of `inode_lookup` and `lookup` (lines 417-426 and 439-448) from index `i` on,
    in at most `n` rounds: the number and the index of the entry that they find. `cur` holds
    what the last round has read. -/
def dirSearch (p : ℕ) (name : CString) : ℕ → ℕ → List UInt8 → m (Option (ℕ × ℕ))
  | 0, _, _ => return none
  | n + 1, i, cur => do
    let e ← k.entry p
    if i < e.numBytes.toNat then do
      let bytes ← k.read p i dirEntrySize
      let cur := bytes ++ cur.drop bytes.length
      let d := DirEntry.decode cur
      if d.inodeNo ≠ 0 ∧ d.cName = name then return some (d.inodeNo.toNat, i)
      else dirSearch p name n (i + dirEntrySize) cur
    else return none

/-- The loops over a directory end: `num_bytes` is a `u32`, and each round adds 16. -/
def dirRounds : ℕ := 2 ^ 28

/-- `inode_lookup` (inode.c:410-430) and `lookup` (inode.c:432-453): the number and the index
    of the entry. If there is none, `lookup` sets the index to `num_bytes`. -/
def inodeLookup (p : ℕ) (name : CString) : m (Option (ℕ × ℕ)) := do
  let e ← k.entry p
  if e.type ≠ inodeDirectory then k.panic
  else dirSearch k p name dirRounds 0 (List.replicate dirEntrySize 0)

/-- `inode_insert` (inode.c:456-473). -/
def inodeInsert (ctx : Option ℕ) (p : ℕ) (name : CString) (inodeNo : ℕ) : m ℤ := do
  let found ← inodeLookup k p name
  match found with
  | some _ => return -1
  | none => do
    let e ← k.entry p
    let _ ← k.write ctx p (DirEntry.new inodeNo name).encode e.numBytes.toNat
    return 0

/-! ## Paths to inodes -/

/-- The loop of `namex` (lines 575-604) over the elements that are left. -/
def namexLoop (ctx : Option ℕ) (nameiparent : Bool) :
    List CString → ℕ → m (Option (ℕ × CString))
  | [], cur =>
    if nameiparent then do
      k.put ctx cur
      return none
    else return some (cur, [])
  | name :: rest, cur => do
    k.lock cur
    let e ← k.entry cur
    if e.type ≠ inodeDirectory then do
      k.unlock cur
      k.put ctx cur
      return none
    else if nameiparent = true ∧ rest = [] then do
      k.unlock cur
      return some (cur, name)
    else do
      let found ← inodeLookup k cur name
      let next ← k.get (match found with | some (no, _) => no | none => 0)
      match next with
      | none => do
        k.unlock cur
        k.put ctx cur
        return none
      | some next => do
        k.unlock cur
        k.put ctx cur
        namexLoop ctx nameiparent rest next

/-- `namex` (inode.c:556-616): the inode, and the last name if `nameiparent` is set. -/
def namex (path : CString) (nameiparent : Bool) (ctx : Option ℕ) :
    m (Option (ℕ × CString)) := do
  if path.head? = some slash then do
    let cur ← k.get rootInodeNo
    match cur with
    | none => k.panic
    | some cur => namexLoop k ctx nameiparent (pathElems path) cur
  else do
    let cwd ← k.cwd
    let cur ← k.share cwd
    namexLoop k ctx nameiparent (pathElems path) cur

/-- `namei` (inode.c:618-621). -/
def namei (path : CString) (ctx : Option ℕ) : m (Option ℕ) := do
  let r ← namex k path false ctx
  return r.map Prod.fst

/-- `nameiparent` (inode.c:623-625). -/
def nameiparent (path : CString) (ctx : Option ℕ) : m (Option (ℕ × CString)) :=
  namex k path true ctx

end ShikiOS.Fs
