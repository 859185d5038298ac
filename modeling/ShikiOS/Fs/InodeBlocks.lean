import ShikiOS.Fs.DirOps
import ShikiOS.Fs.InodeRelease

/-!
# Every block is returned, but for a hole (`fs/inode.c`)

A `Call` is a call of one of the functions of the inode layer. It begins with no block held. One
that looks for a block without a context and finds a `Hole` keeps the indirect block: it ends with
this block held, or it acquires the block once more and sleeps for ever.

Results:
* `leaks_lookupLoop`, `leaks_inodeInsert`, `leaks_inodeRemove`: the calls on directories.
* `Call.releases_iff`: where a call ends or sleeps, no block is held if and only if it meets no
  hole.
* `inodeMap_leak`: a run in which `inode_map` leaks, and then waits for its own block.
-/

namespace ShikiOS.Fs.Dir

open ShikiOS.Lib Bcache
open Inodes hiding M

/-! ## What the lookups read -/

/-- `cur` in the loop of the lookups, after `k` rounds. -/
def lookupBuffer (σ : ℕ → BlockData) (e : InodeEntry) : ℕ → List UInt8
  | 0 => List.replicate dirEntrySize 0
  | k + 1 =>
    let i := dirEntrySize * k
    let bytes := (σ (mapped σ e (i / blockSize))).slice (i % blockSize)
      (min (i + dirEntrySize) e.numBytes.toNat - i)
    bytes ++ (lookupBuffer σ e k).drop bytes.length

/-- The entry that round `k` reads is not the one that is looked for. -/
def Passes (σ : ℕ → BlockData) (e : InodeEntry) (name : List UInt8) (k : ℕ) : Prop :=
  entryMatches (DirEntry.decode (lookupBuffer σ e (k + 1))) name = some false

/-- No entry from `k` on is the one that is looked for. -/
def Absent (σ : ℕ → BlockData) (e : InodeEntry) (name : List UInt8) (k : ℕ) : Prop :=
  ∀ j, k ≤ j → dirEntrySize * j < e.numBytes.toNat → Passes σ e name j

/-- From round `k` on, no entry that is read is in a hole. -/
def Searched (σ : ℕ → BlockData) (e : InodeEntry) (name : List UInt8) (k : ℕ) : Prop :=
  ∀ m, k ≤ m → dirEntrySize * m < e.numBytes.toNat → (∀ j, k ≤ j → j < m → Passes σ e name j) →
    ¬ Hole σ e (dirEntrySize * m / blockSize)

variable {sb : SuperBlock} {σ : ℕ → BlockData} {s : FsState} {p k b : ℕ} {i : Inode}
  {e : InodeEntry} {name : List UInt8} {ctx : Option ℕ}

/-- An entry is in one part of the file. -/
theorem noHole_entry (hk : dirEntrySize * k < e.numBytes.toNat) :
    NoHole σ e (dirEntrySize * k) (min (dirEntrySize * k + dirEntrySize) e.numBytes.toNat) ↔
      ¬ Hole σ e (dirEntrySize * k / blockSize) := by
  have hend : min (dirEntrySize * k + dirEntrySize) e.numBytes.toNat ≤
      (dirEntrySize * k / blockSize + 1) * blockSize := by
    unfold dirEntrySize blockSize
    omega
  have hlt : dirEntrySize * k < min (dirEntrySize * k + dirEntrySize) e.numBytes.toNat := by
    unfold dirEntrySize at *
    omega
  rw [noHole_split hlt hlt.le hend]
  exact and_iff_left (noHole_nil le_rfl)

theorem searched_succ (hk : dirEntrySize * k < e.numBytes.toNat) :
    Searched σ e name k ↔
      NoHole σ e (dirEntrySize * k) (min (dirEntrySize * k + dirEntrySize) e.numBytes.toNat) ∧
        (Passes σ e name k → Searched σ e name (k + 1)) := by
  rw [noHole_entry hk]
  constructor
  · intro h
    refine ⟨h k le_rfl hk fun j h1 h2 => by omega, fun hpass m hm hlt hbefore => ?_⟩
    refine h m (by omega) hlt fun j h1 h2 => ?_
    rcases Nat.eq_or_lt_of_le h1 with rfl | h1
    · exact hpass
    · exact hbefore j h1 h2
  · rintro ⟨hhole, hrest⟩ m hm hlt hbefore
    rcases Nat.eq_or_lt_of_le hm with rfl | hm
    · exact hhole
    · exact hrest (hbefore k le_rfl hm) m hm hlt fun j h1 h2 => hbefore j (by omega) h2

theorem absent_succ (hk : dirEntrySize * k < e.numBytes.toNat) :
    Absent σ e name k ↔ Passes σ e name k ∧ Absent σ e name (k + 1) := by
  constructor
  · intro h
    exact ⟨h k le_rfl hk, fun j hj => h j (by omega)⟩
  · rintro ⟨hpass, hrest⟩ j hj hlt
    rcases Nat.eq_or_lt_of_le hj with rfl | hj
    · exact hpass
    · exact hrest j hj hlt

theorem keepsBlock_lookupLoop {rounds k : ℕ} {cur : List UInt8} :
    KeepsBlock b (inodeLookupLoop sb p name rounds k cur) := by
  induction rounds generalizing k cur with
  | zero => exact preserves_pure _
  | succ rounds ih =>
    unfold inodeLookupLoop
    refine preserves_deref.bind fun o => .ite (fun _ => ?_) fun _ => preserves_pure _
    refine keepsBlock_inodeRead.bind fun bytes => ?_
    dsimp only
    split
    · exact preserves_throw _
    · exact preserves_pure _
    · exact ih

/-- An entry that matches is in use. -/
theorem ne_zero_of_matches {d : DirEntry} (h : entryMatches d name = some true) : d.inodeNo.toNat ≠ 0 := by
  intro h0
  rw [entryMatches, if_pos (UInt16.toNat_inj.mp h0)] at h
  cases h

section Rules

variable (hl : sb.Layout)
include hl

/-- The loop of the lookups. -/
theorem leaks_lookupLoop {rounds : ℕ} (h : InUse sb σ p i s) (hdir : i.entry.type = inodeDirectory)
    (hr : i.entry.numBytes.toNat ≤ dirEntrySize * (k + rounds)) :
    leaksUnless (Searched σ i.entry name k) i.entry.indirect.toNat
      (inodeLookupLoop sb p name rounds (dirEntrySize * k) (lookupBuffer σ i.entry k)) (fun r t =>
        (r = none ↔ Absent σ i.entry name k) ∧ (∀ found, r = some found → found.1 ≠ 0) ∧
        ∃ c, t = { s with cache := c } ∧ InUse sb σ p i t) s := by
  have hend : ∀ {k : ℕ} {s : FsState}, InUse sb σ p i s → i.entry.numBytes.toNat ≤ dirEntrySize * k →
      leaksUnless (Searched σ i.entry name k) i.entry.indirect.toNat (pure none) (fun r t =>
        (r = none ↔ Absent σ i.entry name k) ∧ (∀ found : ℕ × ℕ, r = some found → found.1 ≠ 0) ∧
        ∃ c, t = { s with cache := c } ∧ InUse sb σ p i t) s := by
    intro k s h hk
    have hno : ∀ j, k ≤ j → ¬ dirEntrySize * j < i.entry.numBytes.toNat := by
      intro j hj hlt
      unfold dirEntrySize at *
      omega
    refine wp_pure.mpr (.inl ⟨fun m hm hlt => absurd hlt (hno m hm), ?_, ?_, s.cache, rfl, h⟩)
    · exact iff_of_true rfl fun j hj hlt => absurd hlt (hno j hj)
    · intro found hf
      cases hf
  induction rounds generalizing k s with
  | zero => exact hend h hr
  | succ rounds ih =>
    unfold inodeLookupLoop
    rw [leaksUnless, wp_bind, wp_deref h.inode]
    refine wp.ite (fun hk => ?_) fun hk => hend h (not_lt.mp hk)
    have hdev : i.entry.type ≠ inodeDevice := by
      rw [hdir]
      decide
    have hnum := i.entry.numBytes.toNat_lt
    rw [searched_succ hk]
    refine leaksUnless_bind (h.leaks_inodeRead hl hdev (by omega) (by decide)) (fun bytes => ?_) ?_
    · dsimp only
      split
      · exact preserves_throw _
      · exact preserves_pure _
      · exact keepsBlock_lookupLoop
    · rintro bytes t ⟨-, hbytes, c, rfl, ht⟩
      have hbuf : bytes ++ (lookupBuffer σ i.entry k).drop bytes.length =
          lookupBuffer σ i.entry (k + 1) := by
        rw [hbytes (by unfold dirEntrySize blockSize; omega)]
        rfl
      dsimp only
      rw [hbuf, absent_succ hk]
      cases hm : entryMatches (DirEntry.decode (lookupBuffer σ i.entry (k + 1))) name with
      | none => exact wp_throw.mpr fun he => by cases he
      | some r =>
        cases r with
        | true =>
          have hnot : ¬ Passes σ i.entry name k := by
            rw [Passes, hm]
            simp
          refine wp_pure.mpr (.inl ⟨fun hp => absurd hp hnot, ?_, ?_, c, rfl, ht⟩)
          · exact iff_of_false (by simp) fun hp => hnot hp.1
          · rintro found hf
            obtain rfl := Option.some.inj hf
            exact ne_zero_of_matches hm
        | false =>
          have hpass : Passes σ i.entry name k := hm
          have hnext : dirEntrySize * k + dirEntrySize = dirEntrySize * (k + 1) := (Nat.mul_succ ..).symm
          dsimp only
          rw [hnext]
          have hr' : i.entry.numBytes.toNat ≤ dirEntrySize * (k + 1 + rounds) := by
            rw [Nat.add_right_comm]
            exact hr
          refine leaksUnless_imp (ih ht hr') ?_ ?_
          · exact ⟨fun hs _ => hs, fun hs => hs hpass⟩
          · rintro r t ⟨habs, hfound, c', rfl, ht'⟩
            exact ⟨habs.trans ⟨fun ha => ⟨hpass, ha⟩, fun ha => ha.2⟩, hfound, c', rfl, ht'⟩

/-- All rounds of the loop. -/
theorem leaks_search (h : InUse sb σ p i s) (hdir : i.entry.type = inodeDirectory) :
    leaksUnless (Searched σ i.entry name 0) i.entry.indirect.toNat
      (inodeLookupLoop sb p name dirRounds 0 (List.replicate dirEntrySize 0)) (fun r t =>
        (r = none ↔ Absent σ i.entry name 0) ∧ (∀ found, r = some found → found.1 ≠ 0) ∧
        ∃ c, t = { s with cache := c } ∧ InUse sb σ p i t) s := by
  have hnum := i.entry.numBytes.toNat_lt
  exact leaks_lookupLoop hl (k := 0) h hdir (by unfold dirEntrySize dirRounds; omega)

/-- `inode_lookup`. -/
theorem leaks_inodeLookup (h : InUse sb σ p i s) (index : Option ℕ) :
    leaksUnless (Searched σ i.entry name 0) i.entry.indirect.toNat (inodeLookup sb p name index)
      (fun _ t => NoneHeld t.cache) s := by
  unfold inodeLookup
  rw [leaksUnless, wp_bind, wp_deref h.inode]
  refine wp.ite (fun _ => wp_throw.mpr fun he => by cases he) fun hdir => ?_
  refine leaksUnless_then (leaks_search hl h (not_not.mp hdir)) (fun r => ?_) ?_
  · split
    · exact preserves_pure _
    · exact preserves_pure _
  · rintro r t ⟨-, -, c, rfl, ht⟩
    cases r with
    | none => exact wp_pure.mpr ht.rep.noneHeld
    | some found => exact wp_pure.mpr ht.rep.noneHeld

/-- `lookup`: where it finds nothing, `*index` is the end of the directory. -/
theorem leaks_lookup (h : InUse sb σ p i s) (index : Option ℕ) :
    leaksUnless (Searched σ i.entry name 0) i.entry.indirect.toNat (lookup sb p name index) (fun r t =>
      (Absent σ i.entry name 0 → r = (0, index.map fun _ => i.entry.numBytes.toNat)) ∧
      (¬ Absent σ i.entry name 0 → r.1 ≠ 0) ∧ ∃ c, t = { s with cache := c } ∧ InUse sb σ p i t) s := by
  unfold lookup
  rw [leaksUnless, wp_bind, wp_deref h.inode]
  refine wp.ite (fun _ => wp_throw.mpr fun he => by cases he) fun hdir => ?_
  refine leaksUnless_then (leaks_search hl h (not_not.mp hdir)) (fun r => ?_) ?_
  · split
    · exact preserves_pure _
    · exact preserves_deref.bind fun _ => preserves_pure _
  · rintro r t ⟨habs, hfound, c, rfl, ht⟩
    cases r with
    | none =>
      dsimp only
      rw [awake, wp_bind, wp_deref ht.inode, wp_pure]
      exact ⟨fun _ => rfl, fun hn => absurd (habs.mp rfl) hn, c, rfl, ht⟩
    | some found =>
      refine wp_pure.mpr ⟨fun ha => ?_, fun _ => hfound found rfl, c, rfl, ht⟩
      exact absurd (habs.mpr ha) (by simp)

/-- `inode_insert`. -/
theorem leaks_inodeInsert (hcap : sb.numBlocks ≤ 2 ^ 32) (h : InUse sb σ p i s) (no : ℕ) :
    leaksUnless (Searched σ i.entry name 0 ∧ (ctx = none → Absent σ i.entry name 0 →
        NoHole σ i.entry i.entry.numBytes.toNat (i.entry.numBytes.toNat + dirEntrySize)))
      i.entry.indirect.toNat (inodeInsert sb ctx p name no) (fun _ t => NoneHeld t.cache) s := by
  unfold inodeInsert
  rw [leaksUnless, wp_bind, wp_deref h.inode]
  refine wp.ite (fun _ => wp_throw.mpr fun he => by cases he) fun hdir => ?_
  have hdev : i.entry.type ≠ inodeDevice := by
    rw [not_not.mp hdir]
    decide
  refine leaksUnless_bind (leaks_lookup hl h (some 0)) (fun r => ?_) ?_
  · refine .ite (fun _ => preserves_pure _) fun _ => ?_
    split
    · exact preserves_throw _
    · exact keepsBlock_inodeWrite.bind fun _ => preserves_pure _
  · rintro ⟨found, index⟩ t ⟨habs, hfound, c, rfl, ht⟩
    by_cases ha : Absent σ i.entry name 0
    · obtain ⟨rfl, rfl⟩ := Prod.mk.inj (habs ha)
      dsimp only
      rw [if_neg (not_not.mpr rfl)]
      cases hcopy : strncpy fileNameMaxLength name with
      | none => exact wp_throw.mpr fun he => by cases he
      | some new =>
        have hlen : (DirEntry.encode ⟨UInt16.ofNat no, new⟩).length = dirEntrySize :=
          length_encode (length_strncpy hcopy)
        have hsrc : (DirEntry.encode ⟨UInt16.ofNat no, new⟩).length < 2 ^ 64 := by
          rw [hlen]
          decide
        have hwrite := @InUse.leaks_inodeWrite sb σ _ p i.entry.numBytes.toNat i ctx _ hl hcap ht hdev hsrc
        rw [hlen] at hwrite
        refine leaksUnless_then (leaksUnless_imp hwrite ?_ fun _ _ hr => hr)
          (fun _ => preserves_pure _) fun _ _ hr => wp_pure.mpr hr
        exact ⟨fun hw hc _ => hw hc, fun hw hc => hw hc ha⟩
    · dsimp only
      rw [if_pos (hfound ha)]
      exact wp_pure.mpr (.inl ⟨fun _ hn => absurd hn ha, ht.rep.noneHeld⟩)

/-- `inode_remove` in an inode that is not a device. -/
theorem leaks_inodeRemove (hcap : sb.numBlocks ≤ 2 ^ 32) (h : InUse sb σ p i s)
    (hdev : i.entry.type ≠ inodeDevice) {index : ℕ} (hindex : index < 2 ^ 64) :
    leaksUnless (NoHole σ i.entry index (min (index + dirEntrySize) i.entry.numBytes.toNat) ∧
        (ctx = none → NoHole σ i.entry index (index + dirEntrySize)))
      i.entry.indirect.toNat (inodeRemove sb ctx p index) (fun _ t => NoneHeld t.cache) s := by
  unfold inodeRemove
  refine leaksUnless_bind (h.leaks_inodeRead hl hdev hindex (by decide)) (fun bytes => ?_) ?_
  · exact keepsBlock_inodeWrite.bind fun _ => preserves_pure _
  · rintro bytes t ⟨hbytes, -, c, rfl, ht⟩
    generalize hnow : DirEntry.decode (bytes ++ List.replicate (dirEntrySize - bytes.length) 0) = now
    have hname : now.name.length = fileNameMaxLength := by
      rw [← hnow, DirEntry.decode]
      simp only [List.length_take, List.length_drop, List.length_append, List.length_replicate, hbytes]
      unfold dirEntrySize fileNameMaxLength
      omega
    have hlen : (DirEntry.encode { now with inodeNo := 0 }).length = dirEntrySize := length_encode hname
    have hsrc : (DirEntry.encode { now with inodeNo := 0 }).length < 2 ^ 64 := by
      rw [hlen]
      decide
    have hwrite := @InUse.leaks_inodeWrite sb σ _ p index i ctx _ hl hcap ht hdev hsrc
    rw [hlen] at hwrite
    exact leaksUnless_then hwrite (fun _ => preserves_pure _) fun _ _ hr => wp_pure.mpr hr

end Rules

/-! ## All calls -/

/-- A call of the inode layer, with the pointer to the inode it works on. A buffer fits into the
    memory, and `inode_map` gets the number of a block that a file can have. -/
inductive Call
  | map (ctx : Option ℕ) (inode : ℕ) (offset : Fin inodeNumParts)
  | read (inode : ℕ) (offset count : UInt64)
  | write (ctx : Option ℕ) (inode : ℕ) (src : { l : List UInt8 // l.length < 2 ^ 64 }) (offset : UInt64)
  | lookup (inode : ℕ) (name : List UInt8) (index : Option ℕ)
  | insert (ctx : Option ℕ) (inode : ℕ) (name : List UInt8) (inodeNo : ℕ)
  | remove (ctx : Option ℕ) (inode : ℕ) (index : UInt64)
  | clear (ctx : Option ℕ) (inode : ℕ)
  | sync (ctx : Option ℕ) (inode : ℕ) (doWrite : Bool)
  | get (inodeNo : ℕ)
  | alloc (ctx : Option ℕ) (type : InodeType)
  | put (ctx : Option ℕ) (inode : ℕ)

namespace Call

/-- The call, without its result. -/
def run (sb : SuperBlock) : Call → Inodes.M Unit
  | map ctx inode offset => (fun _ => ()) <$> inodeMap sb ctx inode offset
  | read inode offset count => (fun _ => ()) <$> inodeRead sb inode offset.toNat count.toNat
  | write ctx inode src offset => (fun _ => ()) <$> inodeWrite sb ctx inode src offset.toNat
  | lookup inode name index => (fun _ => ()) <$> inodeLookup sb inode name index
  | insert ctx inode name inodeNo => (fun _ => ()) <$> inodeInsert sb ctx inode name inodeNo
  | remove ctx inode index => inodeRemove sb ctx inode index.toNat
  | clear ctx inode => inodeClear sb ctx inode
  | sync ctx inode doWrite => inodeSync sb ctx inode doWrite
  | get inodeNo => (fun _ => ()) <$> inodeGet sb inodeNo
  | alloc ctx type => (fun _ => ()) <$> inodeAlloc sb ctx type
  | put ctx inode => inodePut sb ctx inode

/-- The inode that the call works on. -/
def inode : Call → Option ℕ
  | map _ p _ | read p _ _ | write _ p _ _ | lookup p _ _ | insert _ p _ _ | remove _ p _
  | clear _ p | sync _ p _ | put _ p => some p
  | get _ | alloc _ _ => none

/-- The inode that the call works on is in use. `inode_sync` may be the call that reads it. -/
def Ready (sb : SuperBlock) (σ : ℕ → BlockData) (s : FsState) : Call → Prop
  | map _ p _ | read p _ _ | write _ p _ _ | lookup p _ _ | insert _ p _ _ | remove _ p _
  | clear _ p | put _ p => ∃ i, InUse sb σ p i s
  | sync _ p _ => ∃ i, s.inode p = some i ∧ i.inodeNo < sb.numInodes
  | get _ | alloc _ _ => True

/-- The call meets no hole in the inode with the entry `e`. -/
def MeetsNoHole (σ : ℕ → BlockData) (e : InodeEntry) : Call → Prop
  | map ctx _ offset => ctx = none → ¬ Hole σ e offset
  | read _ offset count => e.type ≠ inodeDevice →
    NoHole σ e offset.toNat (min (offset.toNat + count.toNat) e.numBytes.toNat)
  | write ctx _ src offset => e.type ≠ inodeDevice → ctx = none →
    NoHole σ e offset.toNat (offset.toNat + src.1.length)
  | lookup _ name _ => Searched σ e name 0
  | insert ctx _ name _ => Searched σ e name 0 ∧ (ctx = none → Absent σ e name 0 →
    NoHole σ e e.numBytes.toNat (e.numBytes.toNat + dirEntrySize))
  | remove ctx _ index => e.type ≠ inodeDevice →
    NoHole σ e index.toNat (min (index.toNat + dirEntrySize) e.numBytes.toNat) ∧
      (ctx = none → NoHole σ e index.toNat (index.toNat + dirEntrySize))
  | clear _ _ | sync _ _ _ | get _ | alloc _ _ | put _ _ => True

/-- The entry of the inode that the call works on. -/
def entry (s : FsState) (a : Call) : InodeEntry :=
  match a.inode.bind s.inode with
  | some i => i.entry
  | none => InodeEntry.zero

end Call

theorem Call.entry_eq {a : Call} (hp : a.inode = some p) (hi : s.inode p = some i) :
    a.entry s = i.entry := by
  rw [Call.entry, hp, Option.bind_some, hi]

theorem preserves_inodeRemove_device {index : ℕ} :
    Preserves (IsDevice p) (inodeRemove sb ctx p index) := by
  unfold inodeRemove
  exact preserves_inodeRead_device.bind fun _ => preserves_inodeWrite_device.bind fun _ => preserves_pure _

/-- Where a call ends or sleeps, no block is held if and only if it meets no hole. -/
theorem Call.releases_iff (hl : sb.Layout) (hcap : sb.numBlocks ≤ 2 ^ 32) (hrep : Rep sb σ [] s.cache)
    (a : Call) (ha : a.Ready sb σ s) :
    releasesIff (a.MeetsNoHole σ (a.entry s)) (a.run sb) s := by
  cases a with
  | map ctx p x =>
    obtain ⟨i, h⟩ := ha
    rw [Call.entry_eq rfl h.inode, Call.run, releasesIff, wp_map]
    exact releasesIff_of_leaks (h.leaks_inodeMap hl hcap x.isLt) fun _ _ ht => ht
  | read p off n =>
    obtain ⟨i, h⟩ := ha
    rw [Call.entry_eq rfl h.inode, Call.run, releasesIff, wp_map]
    by_cases hdev : i.entry.type = inodeDevice
    · exact releasesIff_of_isDevice preserves_inodeRead_device (h.isDevice hdev) fun hn => absurd hdev hn
    · rw [Call.MeetsNoHole, imp_iff_right hdev]
      refine releasesIff_of_leaks (h.leaks_inodeRead hl hdev off.toNat_lt n.toNat_lt) ?_
      rintro bytes t ⟨-, -, c, rfl, ht⟩
      exact ht.rep.noneHeld
  | write ctx p src off =>
    obtain ⟨i, h⟩ := ha
    rw [Call.entry_eq rfl h.inode, Call.run, releasesIff, wp_map]
    by_cases hdev : i.entry.type = inodeDevice
    · exact releasesIff_of_isDevice preserves_inodeWrite_device (h.isDevice hdev) fun hn => absurd hdev hn
    · rw [Call.MeetsNoHole, imp_iff_right hdev]
      exact releasesIff_of_leaks (h.leaks_inodeWrite hl hcap hdev src.2) fun _ _ ht => ht
  | lookup p name index =>
    obtain ⟨i, h⟩ := ha
    rw [Call.entry_eq rfl h.inode, Call.run, releasesIff, wp_map]
    exact releasesIff_of_leaks (leaks_inodeLookup hl h index) fun _ _ ht => ht
  | insert ctx p name no =>
    obtain ⟨i, h⟩ := ha
    rw [Call.entry_eq rfl h.inode, Call.run, releasesIff, wp_map]
    exact releasesIff_of_leaks (leaks_inodeInsert hl hcap h no) fun _ _ ht => ht
  | remove ctx p index =>
    obtain ⟨i, h⟩ := ha
    rw [Call.entry_eq rfl h.inode, Call.run]
    by_cases hdev : i.entry.type = inodeDevice
    · exact releasesIff_of_isDevice preserves_inodeRemove_device (h.isDevice hdev) fun hn => absurd hdev hn
    · rw [Call.MeetsNoHole, imp_iff_right hdev]
      exact releasesIff_of_leaks (leaks_inodeRemove hl hcap h hdev index.toNat_lt) fun _ _ ht => ht
  | clear ctx p =>
    obtain ⟨i, h⟩ := ha
    exact releasesIff_of_returnsAll trivial (returnsAll_of_awake
      (h.awake_inodeClear hl fun _ _ _ hc _ => hc.noneHeld))
  | sync ctx p doWrite =>
    obtain ⟨i, hi, hno⟩ := ha
    exact releasesIff_of_returnsAll trivial (returnsAll_of_awake (awake_inodeSync_any hl hrep hi hno))
  | get no =>
    rw [Call.run, releasesIff, wp_map]
    exact releasesIff_of_returnsAll trivial (returnsAll_of_awake (awake_inodeGet hl hrep))
  | alloc ctx type =>
    rw [Call.run, releasesIff, wp_map]
    exact releasesIff_of_returnsAll trivial (returnsAll_of_awake (awake_inodeAlloc hl hrep))
  | put ctx p =>
    obtain ⟨i, h⟩ := ha
    exact releasesIff_of_returnsAll trivial (h.returnsAll_inodePut hl)

/-- 600 bytes are written to an empty file. -/
theorem Call.releases_iff_blank : ∃ t,
    inodeWrite blankFs (some 0) 1 (List.replicate 600 7) 0 blankState = .ok 600 t ∧ NoneHeld t.cache := by
  obtain ⟨t, ht⟩ := exec_inodeWrite_blank
  have hrun := Call.releases_iff blankFs_layout (by decide) opened_blankState.rep
    (.write (some 0) 1 ⟨List.replicate 600 7, by rw [List.length_replicate]; decide⟩ 0)
    ⟨blankInode, opened_blankState.inUse⟩
  rw [Call.run, releasesIff, wp_map] at hrun
  exact ⟨t, ht, (hrun.of_ok ht).mpr fun _ hc => by cases hc⟩

/-- Part 12 of an empty file gets a block, and the file an indirect block, block 25. Without a
    context `inode_map` then returns 0 for part 13 and still holds block 25, and when it is called
    once more, it waits for this block. -/
theorem inodeMap_leak : ∃ σ i s t u,
    (Call.map (some 0) 1 ⟨12, by decide⟩).run blankFs blankState = .ok () s ∧
    InUse blankFs σ 1 i s ∧ (Call.map none 1 ⟨13, by decide⟩).run blankFs s = .ok () t ∧
    Held t.cache 25 ∧ (Call.map none 1 ⟨13, by decide⟩).run blankFs t = .error .blocked u ∧
    ¬ returnsAll ((Call.map none 1 ⟨13, by decide⟩).run blankFs) s := by
  have hexec : wp ((Call.map (some 0) 1 ⟨12, by decide⟩).run blankFs) (fun _ s =>
      wp ((Call.map none 1 ⟨13, by decide⟩).run blankFs) (fun _ t => Held t.cache 25 ∧
        wp ((Call.map none 1 ⟨13, by decide⟩).run blankFs) (fun _ _ => False)
          (fun e _ => e = .blocked) t) (fun _ _ => False) s) (fun _ _ => False) blankState := by
    decide +kernel
  obtain ⟨_, s, hs, hexec⟩ := hexec.total
  obtain ⟨_, t, ht, hheld, hexec⟩ := hexec.total
  have hused : wp ((Call.map (some 0) 1 ⟨12, by decide⟩).run blankFs) (fun _ t => ∃ τ e,
      InUse blankFs τ 1 { blankInode with entry := e } t) (fun e _ => e ≠ .blocked) blankState := by
    rw [Call.run, wp_map]
    exact opened_blankState.inUse.awake_inodeMap blankFs_layout (by decide) (by decide)
      fun t τ e ht _ => ⟨τ, e, ht⟩
  obtain ⟨σ, e, hs'⟩ := hused.of_ok hs
  cases hu : (Call.map none 1 ⟨13, by decide⟩).run blankFs t with
  | ok _ u => exact (hexec.of_ok hu).elim
  | error e u =>
    obtain rfl := hexec.of_error hu
    exact ⟨σ, _, s, t, u, hs, hs', ht, hheld, hu, fun hret => hret.of_ok ht 25 hheld⟩

end ShikiOS.Fs.Dir
