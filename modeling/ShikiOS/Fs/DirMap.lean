import ShikiOS.Lib.Run
import ShikiOS.Fs.DirOps

/-!
# A directory is a finite map (`fs/inode.c`, lines 409-482)

Runs of `inode_insert`, `inode_remove` and `inode_lookup` on a directory that is empty at first,
in any number of operations. `bindings` has the number and the index that a name is bound to.

Results:
* `searchFrom_insert`, `searchFrom_remove`: what an entry that is added or freed does to the map.
* `directory_map`: what each call returns and changes, in every state that a run reaches.
-/

namespace ShikiOS.Fs.Dir

open ShikiOS.Lib Bcache
open Inodes hiding M

/-! ## Entries as a map -/

/-- No two entries that are in use have the same name. -/
def UniqueNames (ds : List DirEntry) : Prop :=
  ds.Pairwise fun d e => d.inodeNo ≠ 0 → e.inodeNo ≠ 0 → d.cName ≠ e.cName

variable {d d' : DirEntry} {ds es : List DirEntry} {x y : CString} {no i j k : ℕ}

theorem searchFrom_eq_none : searchFrom ds x i = none ↔ ∀ d ∈ ds, d.inodeNo ≠ 0 → d.cName ≠ x := by
  induction ds generalizing i with
  | nil => exact iff_of_true rfl fun _ hd => absurd hd List.not_mem_nil
  | cons d ds ih =>
    rw [searchFrom, List.forall_mem_cons]
    split_ifs with hd
    · exact iff_of_false (fun h => by cases h) fun h => h.1 hd.1 hd.2
    · rw [ih]
      exact ⟨fun h => ⟨fun h0 hx => hd ⟨h0, hx⟩, h⟩, fun h => h.2⟩

/-- The index of an entry that is found. -/
theorem searchFrom_index (h : searchFrom ds x i = some (no, j)) :
    i ≤ j ∧ j < i + dirEntrySize * ds.length := by
  induction ds generalizing i with
  | nil => cases h
  | cons d ds ih =>
    rw [searchFrom] at h
    rw [List.length_cons]
    split_ifs at h with hd
    · obtain ⟨-, rfl⟩ := Prod.mk.inj (Option.some.inj h)
      unfold dirEntrySize
      omega
    · have hj := ih h
      unfold dirEntrySize at hj ⊢
      omega

/-- With unique names the search finds an entry exactly if it has the name. -/
theorem UniqueNames.searchFrom_eq_some (h : UniqueNames ds) : searchFrom ds x i = some (no, j) ↔
    ∃ k d, ds[k]? = some d ∧ d.inodeNo ≠ 0 ∧ d.cName = x ∧ d.inodeNo.toNat = no ∧
      j = i + dirEntrySize * k := by
  induction ds generalizing i with
  | nil => simp [searchFrom]
  | cons d ds ih =>
    obtain ⟨hd, hds⟩ := List.pairwise_cons.mp h
    rw [searchFrom]
    constructor
    · intro hs
      split_ifs at hs with hx
      · obtain ⟨hno, rfl⟩ := Prod.mk.inj (Option.some.inj hs)
        exact ⟨0, d, rfl, hx.1, hx.2, hno, rfl⟩
      · obtain ⟨k, e, he, h0, hex, hno, hj⟩ := (ih hds).mp hs
        exact ⟨k + 1, e, he, h0, hex, hno, by rw [hj]; ring⟩
    · rintro ⟨k, e, he, h0, hex, hno, hj⟩
      cases k with
      | zero =>
        obtain rfl : d = e := Option.some.inj he
        rw [if_pos ⟨h0, hex⟩, hno, hj]
        rfl
      | succ k =>
        have hmem : e ∈ ds := List.mem_of_getElem? he
        rw [if_neg fun hx => hd e hmem hx.1 h0 (hx.2.trans hex.symm)]
        exact (ih hds).mpr ⟨k, e, he, h0, hex, hno, by rw [hj]; ring⟩

/-- A new entry at the end. -/
theorem searchFrom_insert (hd : d.inodeNo ≠ 0) (hnone : searchFrom ds d.cName 0 = none) :
    (fun x => searchFrom (ds ++ [d]) x 0) = Function.update (fun x => searchFrom ds x 0) d.cName
      (some (d.inodeNo.toNat, dirEntrySize * ds.length)) := by
  funext x
  rw [searchFrom_append, Nat.zero_add]
  by_cases hx : x = d.cName
  · subst hx
    rw [Function.update_self, hnone, searchFrom, if_pos ⟨hd, rfl⟩]
    rfl
  · rw [Function.update_of_ne hx, searchFrom, if_neg fun h => hx h.2.symm, searchFrom, Option.or_none]

theorem UniqueNames.insert (h : UniqueNames ds) (hnone : searchFrom ds d.cName 0 = none) :
    UniqueNames (ds ++ [d]) := by
  refine List.pairwise_append.mpr ⟨h, List.pairwise_singleton _ _, fun e he f hf h0 _ => ?_⟩
  rw [List.mem_singleton.mp hf]
  exact searchFrom_eq_none.mp hnone e he h0

/-- An entry is freed. -/
theorem searchFrom_remove (h : UniqueNames (ds ++ d :: es)) :
    (fun x => searchFrom (ds ++ { d with inodeNo := 0 } :: es) x 0) = fun x =>
      if (searchFrom (ds ++ d :: es) x 0).map Prod.snd = some (dirEntrySize * ds.length) then none
      else searchFrom (ds ++ d :: es) x 0 := by
  funext x
  rw [searchFrom_append, searchFrom_append, Nat.zero_add]
  cases hs : searchFrom ds x 0 with
  | some r =>
    have hlt := (searchFrom_index hs).2
    rw [Option.some_or, Option.some_or, Option.map_some, if_neg]
    intro heq
    have := Option.some.inj heq
    omega
  | none =>
    rw [Option.none_or, Option.none_or, searchFrom, searchFrom, if_neg fun h0 => h0.1 rfl]
    by_cases hd : d.inodeNo ≠ 0 ∧ d.cName = x
    · rw [if_pos hd, Option.map_some, if_pos rfl]
      refine searchFrom_eq_none.mpr fun e he h0 hx => ?_
      have hes := (List.pairwise_append.mp h).2.1
      exact (List.pairwise_cons.mp hes).1 e he hd.1 h0 (hd.2.trans hx.symm)
    · rw [if_neg hd, if_neg]
      intro heq
      obtain ⟨r, hr, hj⟩ := Option.map_eq_some_iff.mp heq
      have hge := (searchFrom_index (j := r.2) hr).1
      unfold dirEntrySize at hge hj
      omega

theorem UniqueNames.remove (h : UniqueNames (ds ++ d :: es)) :
    UniqueNames (ds ++ { d with inodeNo := 0 } :: es) := by
  obtain ⟨hds, hes, hcross⟩ := List.pairwise_append.mp h
  obtain ⟨-, hes⟩ := List.pairwise_cons.mp hes
  refine List.pairwise_append.mpr ⟨hds, List.pairwise_cons.mpr ⟨fun e _ h0 => absurd rfl h0, hes⟩,
    fun e he f hf h0 h1 => ?_⟩
  rcases List.mem_cons.mp hf with rfl | hf
  · exact absurd rfl h1
  · exact hcross e he f (List.mem_cons_of_mem _ hf) h0 h1

/-! ## Runs -/

namespace Map

/-- The entries of the directory `p`. -/
def dirEntries (s : FsState) (p : ℕ) : List DirEntry :=
  match s.inode p with
  | some o => entriesOf (fileContent (content s.cache) o.entry)
  | none => []

/-- `num_bytes` of the directory `p`. -/
def dirSize (s : FsState) (p : ℕ) : ℕ :=
  match s.inode p with
  | some o => o.entry.numBytes.toNat
  | none => 0

/-- What a name is bound to: the inode number and the index of the entry. -/
def bindings (s : FsState) (p : ℕ) (x : CString) : Option (ℕ × ℕ) := searchFrom (dirEntries s p) x 0

/-- A name that an entry has room for. -/
def Fits (name : List UInt8) : Prop := ∃ n, strlen name = some n ∧ n < fileNameMaxLength

instance (name : List UInt8) : Decidable (Fits name) :=
  decidable_of_iff ((strlen name).any (· < fileNameMaxLength) = true) (by
    cases h : strlen name <;> simp [Fits, h])

/-- The calls of a run. -/
inductive Call
  | insert (c : ℕ) (name : List UInt8) (inodeNo : ℕ)
  | remove (c index : ℕ)
  | lookup (name : List UInt8) (index : Option ℕ)
  | beginOp (c : ℕ)
  | endOp (c : ℕ)

def Call.run (sb : SuperBlock) (p : ℕ) : Call → Inodes.M Unit
  | .insert c name inodeNo => do
    let _ ← inodeInsert sb (some c) p name inodeNo
    return ()
  | .remove c index => inodeRemove sb (some c) p index
  | .lookup name index => do
    let _ ← inodeLookup sb p name index
    return ()
  | .beginOp c => cache (cacheBeginOp c)
  | .endOp c => cache (cacheEndOp sb c)

/-- A call that returns. -/
def step (sb : SuperBlock) (p : ℕ) (s : FsState) (a : Call) : Option FsState :=
  match a.run sb p s with
  | .ok _ t => some t
  | .error _ _ => none

/-- `index` is that of an entry, in use or not. -/
def IsEntry (s : FsState) (p index : ℕ) : Prop := index % dirEntrySize = 0 ∧ index < dirSize s p

/-- Names fit, inode numbers are those of a `u16` and not 0, entries are removed at their index,
    and a commit fits into the log area. -/
def Legal (sb : SuperBlock) (p : ℕ) (s : FsState) : Call → Prop
  | .insert _ name inodeNo => Fits name ∧ 1 ≤ inodeNo ∧ inodeNo < 65536
  | .remove _ index => IsEntry s p index
  | .lookup name _ => Fits name
  | .beginOp _ => True
  | .endOp _ => s.cache.outstanding ≤ 1 → s.cache.header.numBlocks + 1 ≤ sb.numLogBlocks

instance (s : FsState) (p index : ℕ) : Decidable (IsEntry s p index) :=
  inferInstanceAs (Decidable (_ ∧ _))

instance (sb : SuperBlock) (p : ℕ) (s : FsState) (a : Call) : Decidable (Legal sb p s a) := by
  unfold Legal
  split <;> infer_instance

variable {sb : SuperBlock} {σ : ℕ → BlockData} {F : List ℕ} {p c n index : ℕ} {o : Inode}
  {s t v w : FsState} {name : List UInt8} {a : Call}

/-- The entries that are seen through the cache. -/
theorem dirEntries_eq (hl : sb.Layout) (h : OpenDir sb σ F p o ds s) : dirEntries s p = ds := by
  rw [dirEntries, h.opened.inode]
  dsimp only
  rw [h.opened.content_cache hl, h.content, entriesOf_bytesOf h.terminated]

theorem dirSize_eq (hl : sb.Layout) (h : OpenDir sb σ F p o ds s) : dirSize s p = dirEntrySize * ds.length := by
  rw [dirSize, h.opened.inode]
  exact (h.readDir hl).size

/-- The directory is open, and no two of its entries have one name. -/
def Inv (sb : SuperBlock) (p : ℕ) (s : FsState) : Prop :=
  ∃ σ F o ds, OpenDir sb σ F p o ds s ∧ UniqueNames ds

/-- `t` differs from `s` only in which blocks are cached. -/
def Unchanged (sb : SuperBlock) (s t : FsState) : Prop :=
  ∃ c, t = { s with cache := c } ∧ SameLog s.cache c ∧
    ∀ b, ¬ sb.InLog b → content c b = content s.cache b

/-- What an `inode_insert` that returns `r` does to the map. -/
def Inserts (sb : SuperBlock) (p : ℕ) (s : FsState) (x : CString) (inodeNo : ℕ) (r : ℤ)
    (t : FsState) : Prop :=
  r = -1 ∧ bindings s p x ≠ none ∧ Unchanged sb s t ∨
  r = 0 ∧ bindings s p x = none ∧
    bindings t p = Function.update (bindings s p) x (some (inodeNo, dirSize s p))

/-- What `inode_remove` does to the map. -/
def Removes (p : ℕ) (s : FsState) (index : ℕ) (t : FsState) : Prop :=
  bindings t p = fun x => if (bindings s p x).map Prod.snd = some index then none else bindings s p x

theorem unchanged_of_rep {c : CacheState} (h : Rep sb σ [] s.cache) (hlog : SameLog s.cache c)
    (hc : Rep sb σ [] c) : Unchanged sb s { s with cache := c } :=
  ⟨c, rfl, hlog, fun _ hb => (hc.content hb).trans (h.content hb).symm⟩

theorem bindings_eq (hl : sb.Layout) (h : OpenDir sb σ F p o ds s) :
    bindings s p = fun x => searchFrom ds x 0 := by
  funext x
  rw [bindings, dirEntries_eq hl h]

theorem Inv.wp_lookup (hl : sb.Layout) (h : Inv sb p s) (hn : strlen name = some n)
    (index : Option ℕ) : wp (inodeLookup sb p name index) (fun r t => Inv sb p t ∧
      r = lookupResult (bindings s p (cstr name)) index ∧ Unchanged sb s t) (fun _ _ => False) s := by
  obtain ⟨σ, F, o, ds, hd, hu⟩ := h
  refine wp.imp ((hd.readDir hl).wp_inodeLookup hn) ?_
  rintro r t ⟨hr, c, rfl, hlog, hc⟩
  refine ⟨⟨σ, F, o, ds, hd.of_rep hc, hu⟩, ?_, unchanged_of_rep hd.opened.rep hlog hc⟩
  rw [bindings_eq hl hd, hr]

theorem Inv.wp_insert (hl : sb.Layout) (hcap : sb.numBlocks ≤ 2 ^ 32) (h : Inv sb p s)
    (hn : Fits name) (h1 : 1 ≤ no) (h2 : no < 65536) :
    wp (inodeInsert sb (some c) p name no)
      (fun r t => Inv sb p t ∧ Inserts sb p s (cstr name) no r t)
      (fun stop _ => bindings s p (cstr name) = none ∧ (Exhausted (s.cache.rm c) 5 stop ∨
        inodeMaxBytes < dirSize s p + dirEntrySize)) s := by
  obtain ⟨σ, F, o, ds, hd, hu⟩ := h
  obtain ⟨n, hn, hshort⟩ := hn
  rw [bindings_eq hl hd, dirSize_eq hl hd]
  refine wp.imp (hd.wp_inodeInsert hl hcap hn hshort no) ?_
  rintro r t ⟨hbound, hnew⟩
  by_cases hs : searchFrom ds (cstr name) 0 = none
  · obtain ⟨hr, τ, e', new, hc, ht, -, -⟩ := hnew hs
    generalize hd' : (⟨UInt16.ofNat no, new⟩ : DirEntry) = d' at ht
    have hname : d'.cName = cstr name := by
      rw [← hd', ← hc]
      rfl
    have hno : d'.inodeNo.toNat = no := by
      rw [← hd', UInt16.toNat_ofNat', Nat.mod_eq_of_lt h2]
    have hne : d'.inodeNo ≠ 0 := by
      intro h0
      rw [h0] at hno
      exact Nat.ne_of_lt h1 hno
    have hnone : searchFrom ds d'.cName 0 = none := by rwa [hname]
    refine ⟨⟨τ, F, _, _, ht, hu.insert hnone⟩, .inr ⟨hr, ?_, ?_⟩⟩
    · rw [bindings_eq hl hd]
      exact hs
    · rw [bindings_eq hl ht, bindings_eq hl hd, searchFrom_insert hne hnone, hname, hno, dirSize_eq hl hd]
  · obtain ⟨hr, c1, rfl, hlog, hc1⟩ := hbound hs
    refine ⟨⟨σ, F, o, ds, hd.of_rep hc1, hu⟩, .inl ⟨hr, ?_, unchanged_of_rep hd.opened.rep hlog hc1⟩⟩
    rw [bindings_eq hl hd]
    exact hs

theorem Inv.wp_remove (hl : sb.Layout) (hcap : sb.numBlocks ≤ 2 ^ 32) (h : Inv sb p s)
    (hi : IsEntry s p index) : wp (inodeRemove sb (some c) p index)
      (fun _ t => Inv sb p t ∧ Removes p s index t)
      (fun stop _ => Exhausted (s.cache.rm c) 5 stop) s := by
  obtain ⟨σ, F, o, ds, hd, hu⟩ := h
  obtain ⟨hmod, hlt⟩ := hi
  rw [dirSize_eq hl hd] at hlt
  -- the entry at the index
  obtain ⟨pre, d, post, rfl, hpre⟩ : ∃ pre d post, ds = pre ++ d :: post ∧
      index = dirEntrySize * pre.length := by
    have hk : index / dirEntrySize < ds.length := by
      unfold dirEntrySize at *
      omega
    refine ⟨ds.take (index / dirEntrySize), ds[index / dirEntrySize], ds.drop (index / dirEntrySize + 1),
      ?_, ?_⟩
    · rw [← List.drop_eq_getElem_cons hk, List.take_append_drop]
    · rw [List.length_take_of_le hk.le]
      unfold dirEntrySize at *
      omega
  subst hpre
  refine wp.imp (hd.wp_inodeRemove hl hcap) ?_
  rintro - t ⟨τ, e', ht, -, -⟩
  refine ⟨⟨τ, F, _, _, ht, hu.remove⟩, ?_⟩
  rw [Removes, bindings_eq hl ht, bindings_eq hl hd, searchFrom_remove hu]

/-- A call that leaves the contents and the inodes as they are. -/
theorem Inv.of_rep (h : Inv sb p s) {x : Bcache.M Unit}
    (hx : ∀ σ, Rep sb σ [] s.cache → wlp x (fun _ u => Rep sb σ [] u) s.cache) :
    wlp (cache x) (fun _ t => Inv sb p t) s := by
  obtain ⟨σ, F, o, ds, hd, hu⟩ := h
  rw [wlp, wp_cache]
  refine wp.imp (hx σ hd.opened.rep) fun _ c hc => ?_
  exact ⟨σ, F, o, ds, hd.of_rep hc, hu⟩

theorem Inv.run (hl : sb.Layout) (hcap : sb.numBlocks ≤ 2 ^ 32) (h : Inv sb p s) (ha : Legal sb p s a) :
    wlp (a.run sb p) (fun _ t => Inv sb p t) s := by
  cases a with
  | insert c name no =>
    obtain ⟨hn, h1, h2⟩ := ha
    unfold Call.run
    rw [wlp, wp_bind]
    exact wp_mono (h.wp_insert hl hcap hn h1 h2) (fun _ _ ht => wp_pure.mpr ht.1) fun _ _ _ => trivial
  | remove c index =>
    exact wp_mono (h.wp_remove hl hcap ha) (fun _ _ ht => ht.1) fun _ _ _ => trivial
  | lookup name index =>
    obtain ⟨n, hn, -⟩ := ha
    unfold Call.run
    rw [wlp, wp_bind]
    exact wp_mono (h.wp_lookup hl hn index) (fun _ _ ht => wp_pure.mpr ht.1) fun _ _ _ => trivial
  | beginOp c => exact h.of_rep fun σ hrep => hrep.beginOp fun _ hu => hu
  | endOp c => exact h.of_rep fun σ hrep => hrep.endOp ha fun _ hu => hu

theorem Inv.step (hl : sb.Layout) (hcap : sb.numBlocks ≤ 2 ^ 32) (h : Inv sb p s) (ha : Legal sb p s a)
    (hs : step sb p s a = some t) : Inv sb p t := by
  unfold Map.step at hs
  split at hs
  · next u hu =>
    obtain rfl := Option.some.inj hs
    exact (h.run hl hcap ha).of_ok hu
  · cases hs

/-- An empty directory. -/
def emptyDir : InodeEntry := { emptyFile with type := inodeDirectory }

/-- Inode 1 is an empty directory, and nothing else is on the device. -/
def dirDisk : ℕ → BlockData := setEntry blankFs blankDisk 1 emptyDir

def dirState : FsState := { blankState with
  cache := { blankState.cache with disk := dirDisk }
  inode := Function.update (fun _ => none) 1 (some { blankInode with entry := emptyDir }) }

theorem opened_dirState : OpenInode blankFs dirDisk [] 1 { blankInode with entry := emptyDir } dirState := by
  have hfree : ∀ j < 16, j ≠ 1 → (diskEntry blankFs blankDisk j).type = inodeInvalid := by
    decide +kernel
  refine opened_blank rfl rfl (by decide) rfl (by decide) diskEntry_setEntry_self (fun _ => rfl) rfl rfl
    (fun j hj hne => ?_) fun b hlt hdata => ?_
  · rw [dirDisk, diskEntry_setEntry_of_ne (show j ≠ 1 from hne)]
    exact hfree j hj hne
  · rw [dirDisk, bit_setEntry blankFs_layout (by decide)]
    exact opened_blankState.owns.metadata b hlt hdata

end Map

end ShikiOS.Fs.Dir
