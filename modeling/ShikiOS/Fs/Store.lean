import ShikiOS.Fs.Inode

/-!
# What the inode layer is for (`fs/inode.h`)

The inode layer is a store of files under numbers. A caller gets a pointer to a file with
`inode_get` or `inode_share` and gives it back with `inode_put`; a file without links goes away
with its last pointer. There are no blocks here, no bitmap and no cache.
-/

namespace ShikiOS.Fs.Inodes

/-- A file. -/
structure FileData where
  type : InodeType
  links : UInt16
  bytes : List UInt8

/-- The files by number, and the pointers to them with their reference counts. -/
structure Store where
  files : ℕ → Option FileData
  handle : ℕ → Option (ℕ × ℤ)

/-- The bytes after `src` has been written at `off`. -/
def FileData.write (f : FileData) (off : ℕ) (src : List UInt8) : FileData :=
  { f with bytes := f.bytes.take off ++ src ++ f.bytes.drop (off + src.length) }

def Store.setFile (A : Store) (no : ℕ) (f : Option FileData) : Store :=
  { A with files := Function.update A.files no f }

def Store.setHandle (A : Store) (p : ℕ) (h : Option (ℕ × ℤ)) : Store :=
  { A with handle := Function.update A.handle p h }

/-- The calls of a user. A pointer is locked for as long as a call needs it. -/
inductive Request
  | alloc (type : InodeType)
  | get (no : ℕ)
  | share (p : ℕ)
  | read (p off count : ℕ)
  | write (p : ℕ) (src : List UInt8) (off : ℕ)
  | setLinks (p : ℕ) (n : UInt16)
  | clear (p : ℕ)
  | put (p : ℕ)
deriving DecidableEq

/-- What a call returns. -/
inductive Reply
  | done
  | number (no : ℕ)
  | pointer (p : Option ℕ)
  | bytes (l : List UInt8)
  | count (n : ℕ)
deriving DecidableEq

/-- The file that a reference at `p` is to. -/
def Store.target (A : Store) (p : ℕ) : Option FileData :=
  match A.handle p with
  | some (no, c) => if 0 < c then A.files no else none
  | none => none

/-- What a user must keep to. `running` says that an operation is running: only then may a call change
    files. A pointer may be used as long as it has not been given back. -/
def Request.Valid (A : Store) (running : Prop) : Request → Prop
  | .alloc type => running ∧ type ≠ inodeInvalid
  | .get no => no = 0 ∨ A.files no ≠ none
  | .share p => A.target p ≠ none
  | .read p off count => ∃ f, A.target p = some f ∧ f.type ≠ inodeDevice ∧ off ≤ f.bytes.length ∧
      off + count < 2 ^ 64
  | .write p src off => running ∧ ∃ f, A.target p = some f ∧ f.type ≠ inodeDevice ∧ off ≤ f.bytes.length ∧
      off + src.length ≤ inodeMaxBytes
  | .setLinks p _ => running ∧ A.target p ≠ none
  | .clear p => running ∧ A.target p ≠ none
  | .put p => running ∧ A.target p ≠ none

instance (A : Store) (p : ℕ) (P : FileData → Prop) [DecidablePred P] :
    Decidable (∃ f, A.target p = some f ∧ P f) :=
  match h : A.target p with
  | none => isFalse (by simp)
  | some f => decidable_of_iff (P f) (by simp)

instance (A : Store) (running : Prop) [Decidable running] : (r : Request) → Decidable (r.Valid A running)
  | .alloc type => inferInstanceAs (Decidable (running ∧ type ≠ inodeInvalid))
  | .get no => inferInstanceAs (Decidable (no = 0 ∨ A.files no ≠ none))
  | .share p => inferInstanceAs (Decidable (A.target p ≠ none))
  | .read p off count => inferInstanceAs (Decidable (∃ f, A.target p = some f ∧ f.type ≠ inodeDevice ∧
      off ≤ f.bytes.length ∧ off + count < 2 ^ 64))
  | .write p src off => inferInstanceAs (Decidable (running ∧ ∃ f, A.target p = some f ∧ f.type ≠ inodeDevice ∧
      off ≤ f.bytes.length ∧ off + src.length ≤ inodeMaxBytes))
  | .setLinks p _ => inferInstanceAs (Decidable (running ∧ A.target p ≠ none))
  | .clear p => inferInstanceAs (Decidable (running ∧ A.target p ≠ none))
  | .put p => inferInstanceAs (Decidable (running ∧ A.target p ≠ none))

/-- The file whose blocks a call frees. -/
def Request.frees (A : Store) : Request → Option ℕ
  | .clear p => (A.handle p).map Prod.fst
  | .put p =>
    match A.handle p with
    | some (no, c) => if c = 1 ∧ (A.files no).map FileData.links = some 0 then some no else none
    | none => none
  | _ => none

/-- The calls on a store of the numbers below `n`. -/
inductive Store.Step (n : ℕ) : Store → Request → Reply → Store → Prop
  | alloc {A : Store} {type : InodeType} {no : ℕ} (h0 : no ≠ 0) (hlt : no < n) (hfree : A.files no = none)
      (hfirst : ∀ m < no, m ≠ 0 → A.files m ≠ none) :
      Step n A (.alloc type) (.number no) (A.setFile no (some ⟨type, 0, []⟩))
  | getNone {A : Store} : Step n A (.get 0) (.pointer none) A
  | getOld {A : Store} {no p : ℕ} {c : ℤ} (h : A.handle p = some (no, c)) :
      Step n A (.get no) (.pointer (some p)) (A.setHandle p (some (no, c + 1)))
  | getNew {A : Store} {no p : ℕ} (hno : ∀ q c, A.handle q ≠ some (no, c)) (hp : A.handle p = none) :
      Step n A (.get no) (.pointer (some p)) (A.setHandle p (some (no, 1)))
  | share {A : Store} {no p : ℕ} {c : ℤ} (h : A.handle p = some (no, c)) :
      Step n A (.share p) (.pointer (some p)) (A.setHandle p (some (no, c + 1)))
  | read {A : Store} {p off count : ℕ} {f : FileData} (hf : A.target p = some f) :
      Step n A (.read p off count) (.bytes ((f.bytes.drop off).take count)) A
  | write {A : Store} {no p off : ℕ} {c : ℤ} {f : FileData} {src : List UInt8} (h : A.handle p = some (no, c))
      (hf : A.files no = some f) :
      Step n A (.write p src off) (.count src.length) (A.setFile no (some (f.write off src)))
  | setLinks {A : Store} {no p : ℕ} {c : ℤ} {f : FileData} {l : UInt16} (h : A.handle p = some (no, c))
      (hf : A.files no = some f) :
      Step n A (.setLinks p l) .done (A.setFile no (some { f with links := l }))
  | clear {A : Store} {no p : ℕ} {c : ℤ} {f : FileData} (h : A.handle p = some (no, c))
      (hf : A.files no = some f) :
      Step n A (.clear p) .done (A.setFile no (some { f with bytes := [] }))
  | putKeep {A : Store} {no p : ℕ} {c : ℤ} {f : FileData} (h : A.handle p = some (no, c))
      (hf : A.files no = some f) (hkeep : ¬ (c = 1 ∧ f.links = 0)) :
      Step n A (.put p) .done (A.setHandle p (some (no, c - 1)))
  | putLast {A : Store} {no p : ℕ} {f : FileData} (h : A.handle p = some (no, 1)) (hf : A.files no = some f)
      (hlinks : f.links = 0) : Step n A (.put p) .done ((A.setFile no none).setHandle p none)

variable {A : Store} {p : ℕ} {f : FileData}

theorem Store.target_eq_some :
    A.target p = some f ↔ ∃ no c, A.handle p = some (no, c) ∧ 0 < c ∧ A.files no = some f := by
  unfold target
  cases hp : A.handle p with
  | none => simp
  | some h =>
    obtain ⟨no, c⟩ := h
    by_cases hc : 0 < c <;> simp [hc]

end ShikiOS.Fs.Inodes
