import ShikiOS.Fs.DirNames
import ShikiOS.Fs.FileReadWrite

/-!
# Directory operations on the device (`fs/inode.c`, lines 409-482)

The functions of a directory as they run on the inode layer, with names in buffers and with the
two copies of the loop over the entries. `name` is the memory from a pointer to a name on, up to
the end of the object it points to.

Results:
* `entriesOf_bytesOf`: entries are read back from their bytes.
* `ReadDir.wp_inodeLookup`, `ReadDir.wp_lookup`: the loops over the entries find what `searchFrom`
  finds.
* `OpenDir.wp_inodeInsert`, `OpenDir.wp_inodeRemove`: what becomes of the list of the entries.
-/

namespace ShikiOS.Fs.Dir

open ShikiOS.Lib Bcache
open Inodes hiding M

/-! ## The functions -/

/-- The loop of `inode_lookup` (lines 417-426) from index `i` on, in at most `n` rounds: the number
    and the index of the entry found. `cur` holds what the last round has read. -/
def inodeLookupLoop (sb : SuperBlock) (p : ℕ) (name : List UInt8) :
    ℕ → ℕ → List UInt8 → Inodes.M (Option (ℕ × ℕ))
  | 0, _, _ => return none
  | n + 1, i, cur => do
    let inode ← deref p
    if i < inode.entry.numBytes.toNat then do
      let bytes ← inodeRead sb p i dirEntrySize
      let cur := bytes ++ cur.drop bytes.length
      let d := DirEntry.decode cur
      match entryMatches d name with
      | none => throw .freed
      | some true => return some (d.inodeNo.toNat, i)
      | some false => inodeLookupLoop sb p name n (i + dirEntrySize) cur
    else return none

/-- `inode_lookup` (inode.c:410-430): the number found, and `*index` afterwards if `index` is not
    `NULL`. -/
def inodeLookup (sb : SuperBlock) (p : ℕ) (name : List UInt8) (index : Option ℕ) :
    Inodes.M (ℕ × Option ℕ) := do
  let inode ← deref p
  if inode.entry.type ≠ inodeDirectory then throw .assertion
  else do
    let found ← inodeLookupLoop sb p name dirRounds 0 (List.replicate dirEntrySize 0)
    match found with
    | some (no, i) => return (no, index.map fun _ => i)
    | none => return (0, index)

/-- `lookup` (inode.c:432-453). Its loop (lines 439-448) is the text of the one above; behind it
    `*index` is set to the end. -/
def lookup (sb : SuperBlock) (p : ℕ) (name : List UInt8) (index : Option ℕ) :
    Inodes.M (ℕ × Option ℕ) := do
  let inode ← deref p
  if inode.entry.type ≠ inodeDirectory then throw .assertion
  else do
    let found ← inodeLookupLoop sb p name dirRounds 0 (List.replicate dirEntrySize 0)
    match found with
    | some (no, i) => return (no, index.map fun _ => i)
    | none => do
      let inode ← deref p
      return (0, index.map fun _ => inode.entry.numBytes.toNat)

/-- `inode_insert` (inode.c:456-473). -/
def inodeInsert (sb : SuperBlock) (ctx : Option ℕ) (p : ℕ) (name : List UInt8) (inodeNo : ℕ) :
    Inodes.M ℤ := do
  let inode ← deref p
  if inode.entry.type ≠ inodeDirectory then throw .assertion
  else do
    let (found, index) ← lookup sb p name (some 0)
    if found ≠ 0 then return -1
    else
      match strncpy fileNameMaxLength name with
      | none => throw .freed
      | some new => do
        let _ ← inodeWrite sb ctx p (DirEntry.encode ⟨UInt16.ofNat inodeNo, new⟩) (index.getD 0)
        return 0

/-- `inode_remove` (inode.c:476-482). -/
def inodeRemove (sb : SuperBlock) (ctx : Option ℕ) (p index : ℕ) : Inodes.M Unit := do
  let bytes ← inodeRead sb p index dirEntrySize
  let now := DirEntry.decode (bytes ++ List.replicate (dirEntrySize - bytes.length) 0)
  let _ ← inodeWrite sb ctx p (DirEntry.encode { now with inodeNo := 0 }) index
  return ()

/-! ## Entries and bytes -/

variable {d : DirEntry} {ds es : List DirEntry} {l : List UInt8} {n i : ℕ}

theorem length_encode (hd : d.name.length = fileNameMaxLength) : d.encode.length = dirEntrySize := by
  simp [DirEntry.encode, hd, fileNameMaxLength, dirEntrySize]

/-- An entry at the beginning of a buffer is read back. -/
theorem decode_encode (hd : d.name.length = fileNameMaxLength) (l : List UInt8) :
    DirEntry.decode (d.encode ++ l) = d := by
  have hname : ((d.encode ++ l).drop 2).take fileNameMaxLength = d.name := by
    simp [DirEntry.encode, ← hd]
  have hno : getLE (fun i => (d.encode ++ l).getD i 0) 0 2 = d.inodeNo.toNat := by
    have hlt := d.inodeNo.toNat_lt
    simp only [getLE, DirEntry.encode, List.cons_append, List.getD_cons_zero, List.getD_cons_succ,
      UInt8.toNat_ofNat']
    omega
  rw [DirEntry.decode, hname, hno, UInt16.ofNat_toNat]

/-- The bytes of entries one after the other. -/
def bytesOf (ds : List DirEntry) : List UInt8 := ds.flatMap DirEntry.encode

/-- The entries in the bytes of a directory. -/
def entriesOf (l : List UInt8) : List DirEntry :=
  (List.range (l.length / dirEntrySize)).map fun k => DirEntry.decode (l.drop (dirEntrySize * k))

theorem bytesOf_append : bytesOf (ds ++ es) = bytesOf ds ++ bytesOf es := List.flatMap_append ..

theorem bytesOf_cons : bytesOf (d :: ds) = d.encode ++ bytesOf ds := List.flatMap_cons ..

theorem Terminated.of_append (h : Terminated (ds ++ es)) : Terminated ds ∧ Terminated es :=
  ⟨fun d hd => h d (List.mem_append_left _ hd), fun d hd => h d (List.mem_append_right _ hd)⟩

theorem length_bytesOf (h : Terminated ds) : (bytesOf ds).length = dirEntrySize * ds.length := by
  induction ds with
  | nil => rfl
  | cons d ds ih =>
    obtain ⟨hd, hds⟩ := List.forall_mem_cons.mp h
    rw [bytesOf_cons, List.length_append, length_encode hd.1, ih hds, List.length_cons, Nat.mul_succ,
      Nat.add_comm]

theorem drop_bytesOf (h : Terminated ds) :
    (bytesOf (ds ++ es)).drop (dirEntrySize * ds.length) = bytesOf es := by
  rw [bytesOf_append, List.drop_left' (length_bytesOf h)]

theorem take_bytesOf (h : Terminated ds) :
    (bytesOf (ds ++ es)).take (dirEntrySize * ds.length) = bytesOf ds := by
  rw [bytesOf_append, List.take_left' (length_bytesOf h)]

theorem entriesOf_bytesOf (h : Terminated ds) : entriesOf (bytesOf ds) = ds := by
  have hlen : (bytesOf ds).length / dirEntrySize = ds.length := by
    rw [length_bytesOf h]
    exact Nat.mul_div_cancel_left _ (by decide)
  refine List.ext_getElem (by rw [entriesOf, List.length_map, List.length_range, hlen]) fun k h1 h2 => ?_
  have hsplit : ds.take k ++ ds.drop k = ds := List.take_append_drop k ds
  have hk : (ds.take k).length = k := List.length_take_of_le h2.le
  have hdrop := @drop_bytesOf _ (ds.drop k) (hsplit ▸ h).of_append.1
  rw [hsplit, hk, List.drop_eq_getElem_cons h2, bytesOf_cons] at hdrop
  simp only [entriesOf, List.getElem_map, List.getElem_range]
  rw [hdrop, decode_encode (h _ (List.getElem_mem h2)).1]

/-! ## Reading -/

/-- The inode at `p` is a directory with the entries `ds`, none of whose blocks is missing. -/
structure ReadDir (sb : SuperBlock) (σ : ℕ → BlockData) (p : ℕ) (e : InodeEntry)
    (ds : List DirEntry) (s : FsState) : Prop where
  opened : Opened sb σ p e s
  filled : Filled sb σ e
  type : e.type = inodeDirectory
  content : fileContent σ e = bytesOf ds
  terminated : Terminated ds

variable {sb : SuperBlock} {σ : ℕ → BlockData} {F : List ℕ} {p c : ℕ} {e : InodeEntry} {o : Inode}
  {s : FsState} {name cur : List UInt8} {index : Option ℕ}

theorem ReadDir.size (h : ReadDir sb σ p e ds s) : e.numBytes.toNat = dirEntrySize * ds.length := by
  rw [← length_bytesOf h.terminated, ← h.content, fileContent, length_fileBytes]

theorem ReadDir.ne_device (h : ReadDir sb σ p e ds s) : e.type ≠ inodeDevice := by
  rw [h.type]
  decide

theorem ReadDir.of_rep (h : ReadDir sb σ p e ds s) {c : CacheState} (hc : Rep sb σ [] c) :
    ReadDir sb σ p e ds { s with cache := c } :=
  ⟨⟨hc, h.opened.entry⟩, h.filled, h.type, h.content, h.terminated⟩

/-- An entry is read. -/
theorem ReadDir.wp_read (h : ReadDir sb σ p e (ds ++ d :: es) s) :
    wp (inodeRead sb p (dirEntrySize * ds.length) dirEntrySize) (fun bytes t => bytes = d.encode ∧
      ∃ c, t = { s with cache := c } ∧ Rep sb σ [] c) (fun _ _ => False) s := by
  have hsize := h.size
  have hnum := e.numBytes.toNat_lt
  rw [List.length_append, List.length_cons] at hsize
  unfold dirEntrySize at hsize
  refine Inodes.wp_inodeRead h.opened h.filled h.ne_device (by unfold dirEntrySize; omega)
    (by unfold dirEntrySize; omega) fun c hc => ⟨?_, c, rfl, hc.rep⟩
  obtain ⟨hds, hes⟩ := h.terminated.of_append
  rw [← fileBytes_take, ← fileBytes_drop, ← fileContent, h.content, drop_bytesOf hds, bytesOf_cons]
  exact List.take_left' (length_encode (hes d List.mem_cons_self).1)

/-- The loop over the entries finds what a search through the list finds. -/
theorem ReadDir.wp_lookupLoop (hn : strlen name = some n) {rounds : ℕ}
    (h : ReadDir sb σ p e (ds ++ es) s) (hr : es.length ≤ rounds) :
    wp (inodeLookupLoop sb p name rounds (dirEntrySize * ds.length) cur) (fun r t =>
      r = searchFrom es (cstr name) (dirEntrySize * ds.length) ∧
      ∃ c, t = { s with cache := c } ∧ Rep sb σ [] c) (fun _ _ => False) s := by
  induction rounds generalizing ds es s cur with
  | zero =>
    obtain rfl := List.length_eq_zero_iff.mp (Nat.le_zero.mp hr)
    exact wp_pure.mpr ⟨rfl, s.cache, rfl, h.opened.rep⟩
  | succ rounds ih =>
    have hsize := h.size
    rw [List.length_append] at hsize
    unfold dirEntrySize at hsize
    obtain ⟨o, ho, rfl⟩ := h.opened.entry
    unfold inodeLookupLoop
    rw [wp_bind, wp_deref ho]
    refine wp.ite (fun hlt => ?_) fun hge => ?_
    · cases es with
      | nil =>
        rw [List.length_nil] at hsize
        unfold dirEntrySize at hlt
        omega
      | cons d es =>
        rw [wp_bind]
        refine wp.imp h.wp_read ?_
        rintro bytes t ⟨rfl, c, rfl, hc⟩
        obtain ⟨hlen, m, hm⟩ := (h.terminated.of_append.2) d List.mem_cons_self
        dsimp only
        rw [decode_encode hlen, entryMatches_eq hn hm, searchFrom]
        by_cases hd : d.inodeNo ≠ 0 ∧ d.cName = cstr name
        · rw [decide_eq_true hd, if_pos hd]
          exact wp_pure.mpr ⟨rfl, c, rfl, hc⟩
        · rw [decide_eq_false hd, if_neg hd]
          -- the entry belongs to those that have been looked at
          have hsnoc : ds ++ d :: es = (ds ++ [d]) ++ es := List.append_cons ds d es
          have hnext : dirEntrySize * ds.length + dirEntrySize = dirEntrySize * (ds ++ [d]).length := by
            rw [List.length_append]
            rfl
          have ht := h.of_rep hc
          rw [hsnoc] at ht
          rw [hnext]
          refine wp.imp (ih ht (by rw [List.length_cons] at hr; omega)) ?_
          rintro r u ⟨hres, c', rfl, hu⟩
          exact ⟨hres, c', rfl, hu⟩
    · obtain rfl : es = [] := by
        rw [← List.length_eq_zero_iff]
        unfold dirEntrySize at hge
        omega
      exact wp_pure.mpr ⟨rfl, s.cache, rfl, h.opened.rep⟩

/-! ## Reading leaves the log as it is -/

section Log

variable {b : ℕ} {Q : Unit → FsState → Prop}

theorem log_acquire (hq : ∀ c, SameLog s.cache c → Q () { s with cache := c }) :
    wlp (cache (cacheAcquire b)) Q s := by
  rw [wlp, wp_cache, wp_cacheAcquire]
  refine ite_prop_iff_and.mpr ⟨fun _ => trivial, fun _ => hq _ (sameLog_acquire s.cache b)⟩

theorem log_release (hq : ∀ c, SameLog s.cache c → Q () { s with cache := c }) :
    wlp (cache (cacheRelease b)) Q s := by
  rw [wlp, wp_cache, wp_cacheRelease]
  exact hq _ (sameLog_setBlock s.cache b _)

theorem log_inodeMap (hi : s.inode p = some o) {k : ℕ} {Q : ℕ → FsState → Prop}
    (hq : ∀ b c, SameLog s.cache c → Q b { s with cache := c }) : wlp (inodeMap sb none p k) Q s := by
  unfold inodeMap
  rw [wlp, wp_bind, wp_deref hi]
  refine wp.ite (fun _ => ?_) fun _ => ?_
  · refine wp.ite (fun _ => ?_) fun _ => ?_
    · exact wp_pure.mpr (hq _ s.cache (SameLog.refl _))
    · exact wp_pure.mpr (hq _ s.cache (SameLog.refl _))
  · refine wp.ite (fun _ => wp_pure.mpr (hq _ s.cache (SameLog.refl _))) fun _ => ?_
    unfold inodeMapIndirect
    rw [wp_bind, wp_deref hi]
    dsimp only
    rw [wp_bind]
    refine log_acquire fun c1 h1 => ?_
    rw [wp_bind, wp_cache, wp_readBlock]
    refine wp.ite (fun _ => wp_pure.mpr (hq _ c1 h1)) fun _ => ?_
    rw [wp_bind]
    refine log_release fun c2 h2 => ?_
    exact wp_pure.mpr (hq _ c2 (h1.trans h2))

theorem log_inodeReadLoop {stop n i : ℕ} (hi : s.inode p = some o) {Q : List UInt8 → FsState → Prop}
    (hq : ∀ a c, SameLog s.cache c → Q a { s with cache := c }) :
    wlp (inodeReadLoop sb p stop n i) Q s := by
  induction n generalizing i s Q with
  | zero => exact wp_pure.mpr (hq _ s.cache (SameLog.refl _))
  | succ n ih =>
    unfold inodeReadLoop
    refine wp.ite (fun _ => ?_) fun _ => wp_pure.mpr (hq _ s.cache (SameLog.refl _))
    simp only [wp_bind, wp_pure]
    refine log_inodeMap hi fun b c1 h1 => ?_
    refine log_acquire fun c2 h2 => ?_
    rw [wp_cache, wp_readBlock]
    refine log_release fun c3 h3 => ?_
    exact ih (s := { s with cache := c3 }) hi fun a c4 h4 => hq _ c4 (((h1.trans h2).trans h3).trans h4)

theorem log_inodeRead {offset count : ℕ} (hi : s.inode p = some o) (ht : o.entry.type ≠ inodeDevice)
    {Q : List UInt8 → FsState → Prop} (hq : ∀ a c, SameLog s.cache c → Q a { s with cache := c }) :
    wlp (inodeRead sb p offset count) Q s := by
  unfold inodeRead
  rw [wlp, wp_bind, wp_deref hi, if_neg ht]
  exact wp.ite (fun _ => log_inodeReadLoop hi hq) fun _ => wp_throw.mpr trivial

theorem log_lookupLoop {rounds i : ℕ} (hi : s.inode p = some o) (ht : o.entry.type ≠ inodeDevice)
    {Q : Option (ℕ × ℕ) → FsState → Prop} (hq : ∀ a c, SameLog s.cache c → Q a { s with cache := c }) :
    wlp (inodeLookupLoop sb p name rounds i cur) Q s := by
  induction rounds generalizing i s cur Q with
  | zero => exact wp_pure.mpr (hq _ s.cache (SameLog.refl _))
  | succ rounds ih =>
    unfold inodeLookupLoop
    rw [wlp, wp_bind, wp_deref hi]
    refine wp.ite (fun _ => ?_) fun _ => wp_pure.mpr (hq _ s.cache (SameLog.refl _))
    rw [wp_bind]
    refine log_inodeRead hi ht fun bytes c1 h1 => ?_
    dsimp only
    split
    · exact wp_throw.mpr trivial
    · exact wp_pure.mpr (hq _ c1 h1)
    · exact ih (s := { s with cache := c1 }) hi fun a c2 h2 => hq a c2 (h1.trans h2)

end Log

/-! ## Lookups -/

/-- All rounds of the loop. -/
theorem ReadDir.wp_search (hn : strlen name = some n) (h : ReadDir sb σ p e ds s) :
    wp (inodeLookupLoop sb p name dirRounds 0 cur) (fun r t => r = searchFrom ds (cstr name) 0 ∧
      ∃ c, t = { s with cache := c } ∧ SameLog s.cache c ∧ Rep sb σ [] c) (fun _ _ => False) s := by
  have hrounds : ds.length ≤ dirRounds := by
    have hsize := h.size
    have hnum := e.numBytes.toNat_lt
    unfold dirEntrySize at hsize
    unfold dirRounds
    omega
  obtain ⟨o, ho, he⟩ := h.opened.entry
  have hlog : wlp (inodeLookupLoop sb p name dirRounds 0 cur) (fun _ t => SameLog s.cache t.cache) s :=
    log_lookupLoop ho (by rw [he]; exact h.ne_device) fun _ _ hc => hc
  have hloop : wp (inodeLookupLoop sb p name dirRounds 0 cur) (fun r t =>
      r = searchFrom ds (cstr name) 0 ∧ ∃ c, t = { s with cache := c } ∧ Rep sb σ [] c)
      (fun _ _ => False) s :=
    @ReadDir.wp_lookupLoop [] ds n sb σ p e s name cur hn dirRounds h hrounds
  refine wp_mono (hloop.and hlog) ?_ fun _ _ hf => hf.1
  rintro r t ⟨⟨hr, c, rfl, ht⟩, hc⟩
  exact ⟨hr, c, rfl, hc, ht⟩

/-- What `inode_lookup` returns, and `*index` behind it. -/
def lookupResult (found : Option (ℕ × ℕ)) (index : Option ℕ) : ℕ × Option ℕ :=
  match found with
  | some (no, i) => (no, index.map fun _ => i)
  | none => (0, index)

/-- The rule of `inode_lookup`. -/
theorem ReadDir.wp_inodeLookup (hn : strlen name = some n) (h : ReadDir sb σ p e ds s) :
    wp (inodeLookup sb p name index) (fun r t => r = lookupResult (searchFrom ds (cstr name) 0) index ∧
      ∃ c, t = { s with cache := c } ∧ SameLog s.cache c ∧ Rep sb σ [] c) (fun _ _ => False) s := by
  obtain ⟨o, ho, rfl⟩ := h.opened.entry
  unfold inodeLookup
  rw [wp_bind, wp_deref ho]
  refine wp.ite (fun ht => absurd h.type ht) fun _ => ?_
  rw [wp_bind]
  refine wp.imp (h.wp_search hn) ?_
  rintro r t ⟨rfl, c, rfl, hc, ht⟩
  cases searchFrom ds (cstr name) 0 with
  | none => exact wp_pure.mpr ⟨rfl, c, rfl, hc, ht⟩
  | some r => exact wp_pure.mpr ⟨rfl, c, rfl, hc, ht⟩

/-- The rule of `lookup`: where nothing is found, `*index` is the end of the directory. -/
theorem ReadDir.wp_lookup (hn : strlen name = some n) (h : ReadDir sb σ p e ds s) :
    wp (lookup sb p name index) (fun r t => r = (match searchFrom ds (cstr name) 0 with
        | some (no, i) => (no, index.map fun _ => i)
        | none => (0, index.map fun _ => dirEntrySize * ds.length)) ∧
      ∃ c, t = { s with cache := c } ∧ SameLog s.cache c ∧ Rep sb σ [] c) (fun _ _ => False) s := by
  obtain ⟨o, ho, rfl⟩ := h.opened.entry
  unfold lookup
  rw [wp_bind, wp_deref ho]
  refine wp.ite (fun ht => absurd h.type ht) fun _ => ?_
  rw [wp_bind]
  refine wp.imp (h.wp_search hn) ?_
  rintro r t ⟨rfl, c, rfl, hc, ht⟩
  cases searchFrom ds (cstr name) 0 with
  | none =>
    dsimp only
    rw [wp_bind, wp_deref (s := { s with cache := c }) ho, wp_pure, h.size]
    exact ⟨rfl, c, rfl, hc, ht⟩
  | some r => exact wp_pure.mpr ⟨rfl, c, rfl, hc, ht⟩

/-- The number that is found is that of an entry in use. -/
theorem searchFrom_mem {x : CString} {no j : ℕ} (h : searchFrom ds x i = some (no, j)) :
    ∃ d ∈ ds, d.inodeNo ≠ 0 ∧ d.inodeNo.toNat = no := by
  induction ds generalizing i with
  | nil => cases h
  | cons d ds ih =>
    rw [searchFrom] at h
    split_ifs at h with hd
    · exact ⟨d, List.mem_cons_self, hd.1, (Prod.mk.inj (Option.some.inj h)).1⟩
    · obtain ⟨e, he, h0, hno⟩ := ih h
      exact ⟨e, List.mem_cons_of_mem _ he, h0, hno⟩

theorem searchFrom_ne_zero {x : CString} {no j : ℕ} (h : searchFrom ds x i = some (no, j)) : no ≠ 0 := by
  obtain ⟨d, -, h0, rfl⟩ := searchFrom_mem h
  exact fun hno => h0 (UInt16.toNat_inj.mp hno)

/-! ## Writing -/

/-- An open directory with the entries `ds`. -/
structure OpenDir (sb : SuperBlock) (σ : ℕ → BlockData) (F : List ℕ) (p : ℕ) (i : Inode)
    (ds : List DirEntry) (s : FsState) : Prop where
  opened : OpenInode sb σ F p i s
  type : i.entry.type = inodeDirectory
  content : fileContent σ i.entry = bytesOf ds
  terminated : Terminated ds

theorem OpenDir.readDir (hl : sb.Layout) (h : OpenDir sb σ F p o ds s) :
    ReadDir sb σ p o.entry ds s :=
  ⟨⟨h.opened.rep, o, h.opened.inode, rfl⟩, h.opened.filled_blocks hl, h.type, h.content, h.terminated⟩

theorem OpenDir.of_rep (h : OpenDir sb σ F p o ds s) {c : CacheState} (hc : Rep sb σ [] c) :
    OpenDir sb σ F p o ds { s with cache := c } := by
  obtain ⟨-, h2, h3, h4, h5, h6, h7, h8⟩ := h.opened
  exact ⟨⟨hc, h2, h3, h4, h5, h6, h7, h8⟩, h.type, h.content, h.terminated⟩

theorem numParts_entry {k : ℕ} : numParts (dirEntrySize * k) dirEntrySize = 1 := by
  unfold numParts dirEntrySize blockSize
  omega

/-- What `inode_write` of an entry leaves, where there was an entry or at the end. -/
theorem OpenDir.wp_write (hl : sb.Layout) (hcap : sb.numBlocks ≤ 2 ^ 32) (d' : DirEntry)
    (h : OpenDir sb σ F p o (ds ++ es) s) (hd : d'.name.length = fileNameMaxLength)
    (hd0 : ∃ n, strlen d'.name = some n) (hmax : dirEntrySize * ds.length + dirEntrySize ≤ inodeMaxBytes) :
    wp (inodeWrite sb (some c) p d'.encode (dirEntrySize * ds.length)) (fun _ t => ∃ τ e',
        OpenDir sb τ F p { o with entry := e' } (ds ++ d' :: es.tail) t ∧
        (∀ j < sb.numInodes, j ≠ o.inodeNo → SameInode sb σ τ j) ∧ ∀ q ≠ p, t.inode q = s.inode q)
      (fun stop _ => Exhausted (s.cache.rm c) 5 stop) s := by
  have hread := h.readDir hl
  have hsize := hread.size
  have hlen := length_encode hd
  rw [List.length_append] at hsize
  obtain ⟨hds, hes⟩ := h.terminated.of_append
  refine wp.imp (h.opened.wp_inodeWrite (m := 2) hl hcap hread.ne_device (by unfold dirEntrySize at *; omega)
    (by rw [hlen]; exact hmax) (fun _ => by rw [hlen, numParts_entry]; omega)) ?_
  rintro n t ⟨-, τ, e', L, hw, -, -, -⟩
  have hterm : Terminated (ds ++ d' :: es.tail) := by
    intro d hd'
    rcases List.mem_append.mp hd' with hm | hm
    · exact hds d hm
    · rcases List.mem_cons.mp hm with rfl | hm
      · exact ⟨hd, hd0⟩
      · exact hes d (List.mem_of_mem_tail hm)
  refine ⟨τ, e', ⟨hw.opened, hw.head.type.trans h.type, ?_, hterm⟩, hw.others, hw.inodes⟩
  have htail : (bytesOf (ds ++ es)).drop (dirEntrySize * ds.length + dirEntrySize) = bytesOf es.tail := by
    rw [← List.drop_drop, drop_bytesOf hds]
    cases es with
    | nil => rfl
    | cons d es =>
      rw [bytesOf_cons, List.drop_left' (length_encode (hes d List.mem_cons_self).1)]
      rfl
  rw [hw.content, h.content, hlen, take_bytesOf hds, htail, bytesOf_append, bytesOf_cons, List.append_assoc]

/-- The rule of `inode_insert`. -/
theorem OpenDir.wp_inodeInsert (hl : sb.Layout) (hcap : sb.numBlocks ≤ 2 ^ 32)
    (hn : strlen name = some n) (hshort : n < fileNameMaxLength) (no : ℕ)
    (h : OpenDir sb σ F p o ds s) :
    wp (inodeInsert sb (some c) p name no) (fun r t =>
      (searchFrom ds (cstr name) 0 ≠ none → r = -1 ∧
        ∃ c, t = { s with cache := c } ∧ SameLog s.cache c ∧ Rep sb σ [] c) ∧
      (searchFrom ds (cstr name) 0 = none → r = 0 ∧ ∃ τ e' new, cstr new = cstr name ∧
        OpenDir sb τ F p { o with entry := e' } (ds ++ [⟨UInt16.ofNat no, new⟩]) t ∧
        (∀ j < sb.numInodes, j ≠ o.inodeNo → SameInode sb σ τ j) ∧ ∀ q ≠ p, t.inode q = s.inode q))
      (fun stop _ => searchFrom ds (cstr name) 0 = none ∧ (Exhausted (s.cache.rm c) 5 stop ∨
        inodeMaxBytes < dirEntrySize * ds.length + dirEntrySize)) s := by
  obtain ⟨new, hcopy, hlen, hstr, hc⟩ := strncpy_of_strlen hn hshort
  unfold inodeInsert
  rw [wp_bind, wp_deref h.opened.inode]
  refine wp.ite (fun ht => absurd h.type ht) fun _ => ?_
  rw [wp_bind]
  refine wp_mono ((h.readDir hl).wp_lookup hn) ?_ fun _ _ he => he.elim
  rintro r t ⟨rfl, c1, rfl, hlog, hc1⟩
  have ht := h.of_rep hc1
  cases hs : searchFrom ds (cstr name) 0 with
  | some found =>
    have hno : found.1 ≠ 0 := searchFrom_ne_zero hs
    dsimp only
    rw [if_pos hno, wp_pure]
    exact ⟨fun _ => ⟨rfl, c1, rfl, hlog, hc1⟩, fun h0 => by cases h0⟩
  | none =>
    dsimp only
    rw [if_neg (not_not.mpr rfl), hcopy]
    dsimp only
    simp only [wp_bind, wp_pure, Option.map_some, Option.getD_some]
    by_cases hmax : dirEntrySize * ds.length + dirEntrySize ≤ inodeMaxBytes
    · rw [← List.append_nil ds] at ht
      refine wp_mono (ht.wp_write hl hcap ⟨UInt16.ofNat no, new⟩ hlen ⟨n, hstr⟩ hmax) ?_ ?_
      · rintro - u ⟨τ, e', hu, hothers, hinodes⟩
        exact ⟨fun h0 => absurd rfl h0, fun _ => ⟨trivial, τ, e', new, hc, hu, hothers, hinodes⟩⟩
      · intro stop u he
        rw [hlog.rm] at he
        exact ⟨trivial, .inl he⟩
    · -- the assertion of `inode_write` fails
      have hsize := (h.readDir hl).size
      have hnum := o.entry.numBytes.toNat_lt
      have hlen' : (DirEntry.encode ⟨UInt16.ofNat no, new⟩).length = dirEntrySize := length_encode hlen
      have hstop : usize (dirEntrySize * ds.length + dirEntrySize) =
          dirEntrySize * ds.length + dirEntrySize := Nat.mod_eq_of_lt (by
        unfold dirEntrySize at *
        omega)
      unfold inodeWrite
      rw [wp_bind, wp_deref ht.opened.inode, hlen', hstop]
      dsimp only
      rw [if_neg (h.readDir hl).ne_device, if_neg fun hcond => hmax hcond.2.1, wp_throw]
      exact ⟨trivial, .inr (not_le.mp hmax)⟩

/-- The rule of `inode_remove` of an entry. -/
theorem OpenDir.wp_inodeRemove (hl : sb.Layout) (hcap : sb.numBlocks ≤ 2 ^ 32)
    (h : OpenDir sb σ F p o (ds ++ d :: es) s) :
    wp (inodeRemove sb (some c) p (dirEntrySize * ds.length)) (fun _ t => ∃ τ e',
        OpenDir sb τ F p { o with entry := e' } (ds ++ { d with inodeNo := 0 } :: es) t ∧
        (∀ j < sb.numInodes, j ≠ o.inodeNo → SameInode sb σ τ j) ∧ ∀ q ≠ p, t.inode q = s.inode q)
      (fun stop _ => Exhausted (s.cache.rm c) 5 stop) s := by
  obtain ⟨hlen, hstr⟩ := h.terminated.of_append.2 d List.mem_cons_self
  have hmax : dirEntrySize * ds.length + dirEntrySize ≤ inodeMaxBytes := by
    have hsize := (h.readDir hl).size
    rw [List.length_append, List.length_cons] at hsize
    have hle := h.opened.size_le
    unfold dirEntrySize at *
    omega
  unfold inodeRemove
  rw [wp_bind]
  have hlog : wlp (inodeRead sb p (dirEntrySize * ds.length) dirEntrySize)
      (fun _ t => SameLog s.cache t.cache) s :=
    log_inodeRead h.opened.inode (h.readDir hl).ne_device fun _ _ hc => hc
  refine wp_mono ((h.readDir hl).wp_read.and hlog) ?_ fun _ _ he => he.1.elim
  rintro bytes t ⟨⟨rfl, c1, rfl, hc1⟩, hc⟩
  have ht := h.of_rep hc1
  dsimp only
  rw [decode_encode hlen]
  simp only [wp_bind, wp_pure]
  refine wp_mono (ht.wp_write hl hcap { d with inodeNo := 0 } hlen hstr hmax) ?_ ?_
  · rintro - u ⟨τ, e', hu, hothers, hinodes⟩
    exact ⟨τ, e', hu, hothers, hinodes⟩
  · intro stop u he
    rwa [hc.rm] at he

end ShikiOS.Fs.Dir
