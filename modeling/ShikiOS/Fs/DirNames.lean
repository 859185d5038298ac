import ShikiOS.Common.Str
import ShikiOS.Fs.Directory

/-!
# Names in buffers (`fs/inode.c`, lines 409-535)

`Directory` has the elements of a path as strings. Here they are in the buffers of the code:
`skipelem` copies an element into a buffer of `FILE_NAME_MAX_LENGTH` bytes, and the lookups
compare that buffer with the name of a `DirEntry`. A directory is the list of its entries.

Results:
* `components_eq`, `handed_components`: the calls of `skipelem` go through the components of a path.
* `copyElem_of_lt`, `copyElem_of_ge`: what is left in the buffer.
* `entryMatches_eq`, `lookupFrom_eq`: lookups of terminated names compare strings.
* `long_components`: names are as wanted exactly when no component is too long.
-/

namespace ShikiOS.Fs.Dir

/-! ## The elements of a path -/

/-- `len` as an `int`. -/
def toInt (n : ℕ) : ℤ :=
  if n % 2 ^ 32 < 2 ^ 31 then (n % 2 ^ 32 : ℕ) else (n % 2 ^ 32 : ℕ) - 2 ^ 32

/-- What `skipelem` leaves in `name` for an element (inode.c:525-531). A negative length is a
    `memmove` over nearly all of memory. -/
def copyElem (elem name : List UInt8) : Option (List UInt8) :=
  let len := toInt elem.length
  if len ≥ fileNameMaxLength then
    some (elem.take fileNameMaxLength ++ name.drop fileNameMaxLength)
  else if len < 0 then none
  else some ((elem.take len.toNat ++ name.drop len.toNat).set len.toNat 0)

/-- What a call of `skipelem` comes to. -/
inductive Skip
  | null
  | elem (rest : CString) (name : List UInt8)
  | overrun
deriving DecidableEq

/-- The result of `skipelem` after the copy. -/
def Skip.copied (rest : CString) : Option (List UInt8) → Skip
  | none => .overrun
  | some name => .elem rest name

/-- `skipelem` with its buffer (inode.c:514-535). -/
def skipelemTo (path : CString) (name : List UInt8) : Skip :=
  match path.dropWhile (· = slash) with
  | [] => .null
  | c :: s => .copied (((c :: s).dropWhile (· ≠ slash)).dropWhile (· = slash))
      (copyElem ((c :: s).takeWhile (· ≠ slash)) name)

/-- The buffers that `n` calls of `skipelem` one after the other leave. -/
def handedFrom : ℕ → CString → List UInt8 → List (Option (List UInt8))
  | 0, _, _ => []
  | n + 1, path, name =>
    match skipelemTo path name with
    | .null => []
    | .overrun => [none]
    | .elem rest name => some name :: handedFrom n rest name

/-- The buffers that are handed on for a path, one for each component. -/
def handed (path : CString) (name : List UInt8) : List (Option (List UInt8)) :=
  handedFrom path.length path name

/-- The components of a path: what stands between its slashes. -/
def components (path : CString) : List CString :=
  (path.splitOnP fun c => decide (c = slash)).filter fun c => decide (c ≠ [])

/-! ## Lookups on entries -/

/-- The test of `inode_lookup` and `lookup` (inode.c:421, 443). -/
def entryMatches (d : DirEntry) (name : List UInt8) : Option Bool :=
  if d.inodeNo = 0 then some false
  else do
    let m ← strlen name
    let n ← strlen d.name
    let r ← memcmp (max m n) d.name name
    return r = 0

/-- The loops of `inode_lookup` and `lookup` over the entries from index `i` on. -/
def lookupFrom : List DirEntry → List UInt8 → ℕ → Option (Option (ℕ × ℕ))
  | [], _, _ => some none
  | d :: ds, name, i => do
    if ← entryMatches d name then return some (d.inodeNo.toNat, i)
    else lookupFrom ds name (i + dirEntrySize)

/-- `inode_insert` (inode.c:456-473). -/
def insertEntry (ds : List DirEntry) (name : List UInt8) (inodeNo : ℕ) :
    Option (List DirEntry × ℤ) := do
  match ← lookupFrom ds name 0 with
  | some _ => return (ds, -1)
  | none => do
    let new ← strncpy fileNameMaxLength name
    return (ds ++ [⟨UInt16.ofNat inodeNo, new⟩], 0)

/-- The names of all entries end with a NUL inside of the entry. -/
def Terminated (ds : List DirEntry) : Prop :=
  ∀ d ∈ ds, d.name.length = fileNameMaxLength ∧ ∃ n, strlen d.name = some n

/-- What is wanted of the buffer that is handed on for a component: it has the component, cut if
    it is too long, and a NUL; lookups and inserts read and write inside of buffers and entries
    only; an entry that was made under the component is found under it. -/
structure Good (c : CString) (name : List UInt8) : Prop where
  length : name.length = fileNameMaxLength
  terminated : ∃ n, strlen name = some n
  cut : cstr name <+: c ∧ (c.length < fileNameMaxLength → cstr name = c)
  lookup : ∀ ds, Terminated ds → ∃ r, lookupFrom ds name 0 = some r
  insert : ∀ ds no, Terminated ds → ∃ ds' r, insertEntry ds name no = some (ds', r) ∧ Terminated ds'
  found : ∀ ds ds' no, Terminated ds → 0 < no → no < 65536 →
    insertEntry ds name no = some (ds', 0) →
    ∀ buf name', buf.length = fileNameMaxLength → copyElem c buf = some name' →
      ∃ i, lookupFrom ds' name' 0 = some (some (no, i))

/-- The buffers that are handed on for a path, whatever was in the buffer before. -/
def Handled (path : CString) : Prop :=
  ∀ buf, buf.length = fileNameMaxLength →
    List.Forall₂ (fun c x => ∃ name, x = some name ∧ Good c name) (components path) (handed path buf)

variable {path elem rest c : CString} {name buf : List UInt8} {d : DirEntry} {ds : List DirEntry}
  {n m : ℕ}

/-! ## Components -/

theorem components_slash (path : CString) : components (slash :: path) = components path := by
  have hp : (fun c : UInt8 => decide (c = slash)) slash = true := decide_eq_true rfl
  have h := List.splitOnP_append_cons (p := fun c : UInt8 => decide (c = slash)) [] path hp
  rw [components, ← List.nil_append (slash :: path), h]
  rfl

theorem components_dropWhile (path : CString) :
    components (path.dropWhile (· = slash)) = components path := by
  induction path with
  | nil => rfl
  | cons c path ih =>
    by_cases hc : c = slash
    · subst hc
      rw [List.dropWhile_cons_of_pos (by simp), ih, components_slash]
    · rw [List.dropWhile_cons_of_neg (by simpa using hc)]

/-- The first component is what stands before the next slash. -/
theorem components_elem (he : ∀ c ∈ elem, c ≠ slash) (h0 : elem ≠ [])
    (hr : rest = [] ∨ ∃ r, rest = slash :: r) :
    components (elem ++ rest) = elem :: components rest := by
  have hsingle : elem.splitOnP (fun c => decide (c = slash)) = [elem] :=
    List.splitOnP_eq_singleton fun c hc => by simpa using he c hc
  rcases hr with rfl | ⟨r, rfl⟩
  · rw [List.append_nil, components, hsingle]
    simp [components, h0]
  · rw [components, List.splitOnP_append_cons elem r (by simp), hsingle, components_slash]
    simp [components, h0]

theorem dropWhile_ne_slash (path : CString) : path.dropWhile (· ≠ slash) = [] ∨
    ∃ r, path.dropWhile (· ≠ slash) = slash :: r := by
  induction path with
  | nil => exact .inl rfl
  | cons c path ih =>
    by_cases hc : c = slash
    · subst hc
      exact .inr ⟨path, List.dropWhile_cons_of_neg (by simp)⟩
    · rw [List.dropWhile_cons_of_pos (by simpa using hc)]
      exact ih

/-- The components as the code finds them. -/
theorem components_eq (path : CString) : components path =
    match path.dropWhile (· = slash) with
    | [] => []
    | c :: s => (c :: s).takeWhile (· ≠ slash) ::
        components (((c :: s).dropWhile (· ≠ slash)).dropWhile (· = slash)) := by
  rw [← components_dropWhile path]
  cases hd : path.dropWhile (· = slash) with
  | nil => rfl
  | cons c s =>
    have hc : c ≠ slash := by
      have h := List.head_dropWhile_not (fun x : UInt8 => decide (x = slash)) (l := path)
        (by rw [hd]; exact List.cons_ne_nil c s)
      simpa [hd] using h
    have h0 : (c :: s).takeWhile (· ≠ slash) ≠ [] := by
      rw [List.takeWhile_cons_of_pos (by simpa using hc)]
      exact List.cons_ne_nil _ _
    have h := components_elem (fun x hx => by simpa using List.mem_takeWhile_imp hx) h0
      (dropWhile_ne_slash (c :: s))
    rw [List.takeWhile_append_dropWhile] at h
    exact h.trans (congrArg _ (components_dropWhile _).symm)

/-! ## What is left in the buffer -/

theorem toInt_eq (h : n % 2 ^ 32 < 2 ^ 31) : toInt n = (n % 2 ^ 32 : ℕ) :=
  if_pos h

theorem toInt_neg (h : ¬ n % 2 ^ 32 < 2 ^ 31) : toInt n < 0 := by
  rw [toInt, if_neg h]
  omega

/-- An element that is short enough (going by the `int` that has its length) is copied with a NUL
    behind it. -/
theorem copyElem_of_lt (hbuf : buf.length = fileNameMaxLength)
    (hlt : elem.length % 2 ^ 32 < fileNameMaxLength) : copyElem elem buf =
      some (elem.take (elem.length % 2 ^ 32) ++ 0 :: buf.drop (elem.length % 2 ^ 32 + 1)) := by
  unfold fileNameMaxLength at hlt hbuf
  have hint := toInt_eq (n := elem.length) (by omega)
  have hle : elem.length % 2 ^ 32 ≤ elem.length := Nat.mod_le _ _
  generalize elem.length % 2 ^ 32 = k at hlt hint hle ⊢
  have hk : k < buf.length := by omega
  rw [copyElem, hint, if_neg (by unfold fileNameMaxLength; omega), if_neg (by omega), Int.toNat_natCast,
    List.set_append_right _ _ (by rw [List.length_take]; omega), List.length_take, min_eq_left hle,
    Nat.sub_self, List.drop_eq_getElem_cons hk, List.set_cons_zero]

/-- A longer one fills the buffer, or more than the buffer. -/
theorem copyElem_of_ge (hbuf : buf.length = fileNameMaxLength)
    (hge : ¬ elem.length % 2 ^ 32 < fileNameMaxLength) :
    copyElem elem buf = none ∨ copyElem elem buf = some (elem.take fileNameMaxLength) := by
  by_cases hint : elem.length % 2 ^ 32 < 2 ^ 31
  · have hlen : toInt elem.length ≥ fileNameMaxLength := by
      rw [toInt_eq hint]
      exact_mod_cast not_lt.mp hge
    rw [copyElem, if_pos hlen, List.drop_eq_nil_of_le hbuf.le, List.append_nil]
    exact .inr rfl
  · have hneg := toInt_neg hint
    have hlen : ¬ toInt elem.length ≥ fileNameMaxLength := by omega
    rw [copyElem, if_neg hlen, if_pos hneg]
    exact .inl rfl

/-! ## Lookups of terminated names -/

/-- The entry that has a string as its name. -/
def searchFrom : List DirEntry → CString → ℕ → Option (ℕ × ℕ)
  | [], _, _ => none
  | d :: ds, name, i =>
    if d.inodeNo ≠ 0 ∧ d.cName = name then some (d.inodeNo.toNat, i)
    else searchFrom ds name (i + dirEntrySize)

theorem entryMatches_eq (hn : strlen name = some n) (hd : strlen d.name = some m) :
    entryMatches d name = some (decide (d.inodeNo ≠ 0 ∧ d.cName = cstr name)) := by
  unfold entryMatches
  by_cases h0 : d.inodeNo = 0
  · simp [h0]
  · obtain ⟨x, hx, hx0⟩ := memcmp_strings hd hn
    rw [max_comm] at hx
    simp only [if_neg h0, hn, hd, hx, Option.bind_eq_bind, Option.bind_some]
    simp [h0, hx0, DirEntry.cName, cstr]

theorem lookupFrom_eq (hds : Terminated ds) (hn : strlen name = some n) (i : ℕ) :
    lookupFrom ds name i = some (searchFrom ds (cstr name) i) := by
  induction ds generalizing i with
  | nil => rfl
  | cons d ds ih =>
    obtain ⟨⟨-, m, hm⟩, hds⟩ := List.forall_mem_cons.mp hds
    simp only [lookupFrom, searchFrom, entryMatches_eq hn hm, Option.bind_eq_bind, Option.bind_some,
      decide_eq_true_eq]
    split_ifs
    · rfl
    · exact ih hds _

theorem searchFrom_append (es : List DirEntry) (x : CString) (i : ℕ) :
    searchFrom (ds ++ es) x i =
      (searchFrom ds x i).or (searchFrom es x (i + dirEntrySize * ds.length)) := by
  induction ds generalizing i with
  | nil => rfl
  | cons d ds ih =>
    rw [List.cons_append, searchFrom, searchFrom]
    split_ifs
    · rfl
    · rw [ih, List.length_cons, Nat.mul_add, Nat.mul_one, Nat.add_assoc, Nat.add_comm dirEntrySize]

/-- What an insert under a terminated name comes to. -/
theorem insertEntry_eq (hds : Terminated ds) (hlen : name.length = fileNameMaxLength)
    (hn : strlen name = some n) (no : ℕ) :
    ∃ new, new.length = fileNameMaxLength ∧ strlen new = some n ∧ cstr new = cstr name ∧
      insertEntry ds name no = some (match searchFrom ds (cstr name) 0 with
        | some _ => (ds, -1)
        | none => (ds ++ [⟨UInt16.ofNat no, new⟩], 0)) := by
  obtain ⟨new, hcopy, hnew, hstr, hc⟩ := strncpy_of_strlen hn (hlen ▸ strlen_lt hn)
  refine ⟨new, hnew, hstr, hc, ?_⟩
  rw [insertEntry, lookupFrom_eq hds hn]
  cases searchFrom ds (cstr name) 0 with
  | some r => rfl
  | none =>
    simp only [Option.bind_eq_bind, Option.bind_some, hcopy]
    rfl

theorem Terminated.append (hds : Terminated ds) (hlen : d.name.length = fileNameMaxLength)
    (hn : strlen d.name = some n) : Terminated (ds ++ [d]) := by
  intro e he
  rcases List.mem_append.mp he with he | he
  · exact hds e he
  · rw [List.mem_singleton.mp he]
    exact ⟨hlen, n, hn⟩

/-- The buffer for a component that is short enough. -/
theorem good_of_lt (h0 : ∀ x ∈ c, x ≠ 0) (hbuf : buf.length = fileNameMaxLength)
    (hlt : c.length % 2 ^ 32 < fileNameMaxLength) : ∃ name, copyElem c buf = some name ∧ Good c name := by
  have hcopy : ∀ {buf : List UInt8}, buf.length = fileNameMaxLength → ∃ name,
      copyElem c buf = some name ∧ name.length = fileNameMaxLength ∧ (∃ n, strlen name = some n) ∧
      cstr name = c.take (c.length % 2 ^ 32) := by
    intro buf hbuf
    have htake : ∀ x ∈ c.take (c.length % 2 ^ 32), x ≠ 0 := fun x hx => h0 x (List.mem_of_mem_take hx)
    refine ⟨_, copyElem_of_lt hbuf hlt, ?_, ⟨_, strlen_append htake _⟩, cstr_append htake _⟩
    have hle : c.length % 2 ^ 32 ≤ c.length := Nat.mod_le _ _
    rw [List.length_append, List.length_cons, List.length_take, List.length_drop]
    omega
  obtain ⟨name, hname, hlen, ⟨n, hn⟩, hc⟩ := hcopy hbuf
  refine ⟨name, hname, hlen, ⟨n, hn⟩, ⟨?_, fun h => ?_⟩, fun ds hds => ⟨_, lookupFrom_eq hds hn 0⟩, ?_, ?_⟩
  · rw [hc]
    exact List.take_prefix _ _
  · have hsmall : c.length < 2 ^ 32 := by
      unfold fileNameMaxLength at h
      omega
    rw [hc, Nat.mod_eq_of_lt hsmall, List.take_length]
  · intro ds no hds
    obtain ⟨new, hnew, hstr, -, hins⟩ := insertEntry_eq hds hlen hn no
    rw [hins]
    cases searchFrom ds (cstr name) 0 with
    | some r => exact ⟨_, _, rfl, hds⟩
    | none => exact ⟨_, _, rfl, hds.append hnew hstr⟩
  · intro ds ds' no hds hpos hno hins buf' name' hbuf' hname'
    obtain ⟨x, hx, -, ⟨m, hm⟩, hcx⟩ := hcopy hbuf'
    obtain rfl : x = name' := Option.some.inj (hx.symm.trans hname')
    obtain ⟨new, hnew, hstr, hcn, hins'⟩ := insertEntry_eq hds hlen hn no
    rw [hins'] at hins
    cases hs : searchFrom ds (cstr name) 0 with
    | some r =>
      rw [hs] at hins
      cases hins
    | none =>
      rw [hs] at hins
      obtain rfl := (Prod.mk.inj (Option.some.inj hins)).1
      refine ⟨0 + dirEntrySize * ds.length, ?_⟩
      have hno0 : UInt16.ofNat no ≠ 0 := by
        intro h0
        have := congrArg UInt16.toNat h0
        rw [UInt16.toNat_ofNat', Nat.mod_eq_of_lt hno] at this
        exact Nat.ne_of_gt hpos this
      have hlast : searchFrom [⟨UInt16.ofNat no, new⟩] (cstr name) (0 + dirEntrySize * ds.length) =
          some (no, 0 + dirEntrySize * ds.length) := by
        rw [searchFrom, if_pos ⟨hno0, hcn⟩, UInt16.toNat_ofNat', Nat.mod_eq_of_lt hno]
      rw [lookupFrom_eq (hds.append hnew hstr) hm, hcx, ← hc, searchFrom_append, hs, hlast]
      rfl

/-- The buffer for a component that is too long. -/
theorem not_good_of_ge (h0 : ∀ x ∈ c, x ≠ 0) (hbuf : buf.length = fileNameMaxLength)
    (hge : ¬ c.length % 2 ^ 32 < fileNameMaxLength) (hname : copyElem c buf = some name) :
    ¬ Good c name := by
  intro h
  obtain ⟨n, hn⟩ := h.terminated
  rcases copyElem_of_ge hbuf hge with hnone | hcopy
  · rw [hnone] at hname
    cases hname
  · rw [hcopy] at hname
    obtain rfl := Option.some.inj hname
    rw [strlen_eq_none fun x hx => h0 x (List.mem_of_mem_take hx)] at hn
    cases hn

/-! ## The calls of `skipelem` for a path -/

theorem skipelemTo_cases (h : ∀ c ∈ path, c ≠ 0) (buf : List UInt8) :
    (components path = [] ∧ skipelemTo path buf = .null) ∨
    ∃ c rest, components path = c :: components rest ∧ (∀ x ∈ c, x ≠ 0) ∧ (∀ x ∈ rest, x ≠ 0) ∧
      rest.length < path.length ∧ skipelemTo path buf = .copied rest (copyElem c buf) := by
  rw [components_eq, skipelemTo]
  cases hd : path.dropWhile (· = slash) with
  | nil => exact .inl ⟨rfl, rfl⟩
  | cons c s =>
    have hsub : ∀ x ∈ c :: s, x ≠ 0 := fun x hx =>
      h x ((List.dropWhile_sublist (· = slash) (l := path)).subset (hd ▸ hx))
    have hskip : skipelem path = some (((c :: s).takeWhile (· ≠ slash)).take fileNameMaxLength,
        ((c :: s).dropWhile (· ≠ slash)).dropWhile (· = slash)) := by
      rw [skipelem, hd]
    have helem : ∀ x ∈ (c :: s).takeWhile (· ≠ slash), x ≠ 0 := fun x hx =>
      hsub x ((List.takeWhile_sublist (· ≠ slash)).subset hx)
    have hrest : ∀ x ∈ ((c :: s).dropWhile (· ≠ slash)).dropWhile (· = slash), x ≠ 0 := fun x hx =>
      hsub x ((List.dropWhile_sublist (· ≠ slash)).subset
        ((List.dropWhile_sublist (· = slash)).subset hx))
    exact .inr ⟨_, _, rfl, helem, hrest, skipelem_length hskip, rfl⟩

/-- For paths with short components the buffer has what `skipelem` on strings returns. -/
theorem skipelemTo_eq (h : ∀ c ∈ path, c ≠ 0) (hbuf : buf.length = fileNameMaxLength)
    (hlt : ∀ c ∈ components path, c.length < fileNameMaxLength) :
    (skipelem path = none ∧ skipelemTo path buf = .null) ∨
    ∃ name rest, skipelem path = some (cstr name, rest) ∧ skipelemTo path buf = .elem rest name ∧
      name.length = fileNameMaxLength ∧ components path = cstr name :: components rest := by
  have hc := components_eq path
  rw [skipelem, skipelemTo]
  cases hd : path.dropWhile (· = slash) with
  | nil => exact .inl ⟨rfl, rfl⟩
  | cons c s =>
    rw [hd] at hc
    have hshort := hlt _ (by rw [hc]; exact List.mem_cons_self)
    have h0 : ∀ x ∈ (c :: s).takeWhile (· ≠ slash), x ≠ 0 := fun x hx =>
      h x ((List.dropWhile_sublist (· = slash) (l := path)).subset
        (hd ▸ (List.takeWhile_sublist (· ≠ slash)).subset hx))
    have hmod : ((c :: s).takeWhile (· ≠ slash)).length % 2 ^ 32 < fileNameMaxLength :=
      (Nat.mod_le _ _).trans_lt hshort
    obtain ⟨name, hname, hgood⟩ := good_of_lt h0 hbuf hmod
    have hcopied : ∀ r, Skip.copied r (copyElem ((c :: s).takeWhile (· ≠ slash)) buf) =
        .elem r name := fun r => by rw [hname]; rfl
    refine .inr ⟨name, _, ?_, hcopied _, hgood.length, ?_⟩
    · rw [hgood.cut.2 hshort]
      exact congrArg (fun x => some (x, _)) (List.take_of_length_le hshort.le)
    · rw [hgood.cut.2 hshort, hc]

/-- The names of a path are as wanted exactly when no component is too long, going by the low 32
    bits of its length. -/
theorem handedFrom_good (h : ∀ c ∈ path, c ≠ 0) (hbuf : buf.length = fileNameMaxLength)
    (hn : path.length ≤ n) :
    List.Forall₂ (fun c x => ∃ name, x = some name ∧ Good c name) (components path)
      (handedFrom n path buf) ↔ ∀ c ∈ components path, c.length % 2 ^ 32 < fileNameMaxLength := by
  induction n generalizing path buf with
  | zero =>
    obtain rfl := List.length_eq_zero_iff.mp (Nat.le_zero.mp hn)
    exact iff_of_true List.Forall₂.nil (by simp [components])
  | succ n ih =>
    rcases skipelemTo_cases h buf with ⟨hc, hs⟩ | ⟨c, rest, hc, h0, hrest, hlt, hs⟩
    · rw [hc, handedFrom, hs]
      exact iff_of_true List.Forall₂.nil (by simp)
    · rw [hc, handedFrom, hs, List.forall_mem_cons]
      by_cases hlen : c.length % 2 ^ 32 < fileNameMaxLength
      · obtain ⟨name, hname, hgood⟩ := good_of_lt h0 hbuf hlen
        rw [hname, Skip.copied]
        dsimp only
        rw [List.forall₂_cons, ih hrest hgood.length (by omega)]
        exact and_congr (iff_of_true ⟨name, rfl, hgood⟩ hlen) Iff.rfl
      · refine iff_of_false (fun hall => ?_) fun hall => hlen hall.1
        cases hname : copyElem c buf with
        | none =>
          rw [hname] at hall
          obtain ⟨⟨name, hx, -⟩, -⟩ := List.forall₂_cons.mp hall
          cases hx
        | some name =>
          rw [hname] at hall
          obtain ⟨⟨x, hx, hgood⟩, -⟩ := List.forall₂_cons.mp hall
          obtain rfl := Option.some.inj hx
          exact not_good_of_ge h0 hbuf hlen hname hgood

/-- The names that are handed on for a path are as wanted exactly when no component is too long,
    going by the low 32 bits of its length. -/
theorem long_components (h : ∀ c ∈ path, c ≠ 0) :
    Handled path ↔ ∀ c ∈ components path, c.length % 2 ^ 32 < fileNameMaxLength := by
  constructor
  · intro hall
    exact (handedFrom_good h (List.length_replicate ..) le_rfl).mp
      (hall (List.replicate fileNameMaxLength 0) (List.length_replicate ..))
  · intro hlt buf hbuf
    exact (handedFrom_good h hbuf le_rfl).mpr hlt

/-- The path `/usr/init`. -/
theorem long_components_init : Handled [47, 117, 115, 114, 47, 105, 110, 105, 116] :=
  (long_components (by simp)).mpr (by decide)

/-- A component of 14 bytes fills the buffer: no NUL is in it, and a lookup of it in a directory with
    one entry reads past the end. -/
theorem long_components_fail : ¬ Handled (List.replicate 14 97) ∧
    handed (List.replicate 14 97) (List.replicate 14 0) = [some (List.replicate 14 97)] ∧
    strlen (List.replicate 14 97) = none ∧
    lookupFrom [.new 5 [97]] (List.replicate 14 97) 0 = none := by
  refine ⟨fun h => ?_, by decide, by decide, by decide⟩
  have hlt := (handedFrom_good (by simp) (List.length_replicate ..) le_rfl).mp
    (h (List.replicate fileNameMaxLength 0) (List.length_replicate ..))
  revert hlt
  decide

end ShikiOS.Fs.Dir
