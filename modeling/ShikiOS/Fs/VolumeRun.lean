import ShikiOS.Fs.InodeJournal
import ShikiOS.Fs.Volume
import ShikiOS.Lib.Trace

/-!
# Runs of the inode layer (`fs/inode.c`, `fs/cache.c`)

A client begins an operation, calls the inode layer, and ends the operation. What it sees is a store
of files: the calls answer as those of a `Store`, whatever has been called before, and a crash takes
the store back to a moment between two operations.

Results:
* `Steady.run`: the invariant of the runs.
* `client_refines_store`: every run is one of a store, with the same answers.
* `client_never_sleeps`: a call that keeps to the rules comes back, or space has run out.
* `client_crash`: what recovery leaves is the store before or after an operation.
-/

namespace ShikiOS.Fs.Inodes

open Lib
open Bcache hiding Trace

/-- The kernel and the context of the operation that is running. -/
structure Client where
  fs : FsState
  running : Option ℕ

/-- What a client does, and what it gets. -/
inductive Event
  | begin (c : ℕ)
  | call (r : Request) (a : Reply)
  | finish
deriving DecidableEq

/-- The store that the client sees. -/
def Client.store (sb : SuperBlock) (x : Client) : Store := view sb (content x.fs.cache) x.fs

inductive Client.Step (sb : SuperBlock) : Client → Event → Client → Prop
  | begin {s t : FsState} {c : ℕ} (h : cache (cacheBeginOp c) s = .ok () t) :
      Step sb ⟨s, none⟩ (.begin c) ⟨t, some c⟩
  | call {x : Client} {r : Request} {a : Reply} {t : FsState} (hr : r.Valid (x.store sb) (x.running ≠ none))
      (h : r.call sb x.running x.fs = .ok a t) : Step sb x (.call r a) ⟨t, x.running⟩
  | finish {s t : FsState} {c : ℕ} (h : cache (cacheEndOp sb c) s = .ok () t) :
      Step sb ⟨s, some c⟩ .finish ⟨t, none⟩

/-- Operations do not show in the store. -/
inductive Store.Takes (n : ℕ) : Store → Event → Store → Prop
  | begin {A : Store} {c : ℕ} : Takes n A (.begin c) A
  | call {A A' : Store} {r : Request} {a : Reply} (h : Store.Step n A r a A') : Takes n A (.call r a) A'
  | finish {A : Store} : Takes n A .finish A

/-- Right after `init_bcache`, with no inode in memory. On the device no block is stored twice, and no
    file has holes. -/
structure Mounted (sb : SuperBlock) (x : Client) : Prop where
  idle : x.running = none
  booted : Booted sb x.fs.cache
  list : x.fs.list = []
  inode : ∀ p, x.fs.inode p = none
  fresh : x.fs.fresh = []
  owns : Owns sb x.fs.cache.disk []
  whole : ∀ no, Allocated sb x.fs.cache.disk no → Whole sb x.fs.cache.disk no

/-- What holds at any moment of a run. `B` is a moment between two operations. -/
structure Steady (B : Base) (x : Client) : Prop where
  volume : ∃ ρ, Volume B.sb (content x.fs.cache) ρ none x.fs
  journal : ∃ n, Journal B x.running n [] x.fs.cache

variable {sb : SuperBlock} {B : Base} {σ τ : ℕ → BlockData} {ρ : ℕ → ℤ} {s t : FsState} {x y : Client}
  {r : Request} {a : Reply} {es : List Event} {e : Event} {c : ℕ}

/-! ## Devices that differ in the log only -/

theorem Volume.congr (hl : sb.Layout) {busy : Option ℕ} (h : Volume sb σ ρ busy s)
    (hτ : ∀ b, ¬ sb.InLog b → σ b = τ b) : Volume sb τ ρ busy s ∧ view sb τ s = view sb σ s := by
  have hentry : ∀ j < sb.numInodes, diskEntry sb τ j = diskEntry sb σ j := fun j hj => by
    rw [diskEntry, diskEntry, hτ _ (hl.not_inLog_toBlockNo hj)]
  have hdata : ∀ j x, stored sb σ j x ≠ 0 → τ (stored sb σ j x) = σ (stored sb σ j x) := fun j x h0 =>
    (hτ _ (hl.not_inLog_of_isData (h.owns.data j x h0))).symm
  have hslots : ∀ j x, stored sb τ j x = stored sb σ j x := fun j x =>
    stored_congr (hentry j) (hdata j .indirect)
  have hown : Owns sb τ s.fresh := h.owns.congr hslots fun b hb => bit_congr (hτ _ (hl.not_inLog_bitmapBlock hb)).symm
  have hsame : ∀ j < sb.numInodes, SameInode sb σ τ j := fun j hj => ⟨hentry j hj, hslots j, hdata j⟩
  have hr := h.refs.rep.congr hτ
  have hiff : ∀ j, Allocated sb τ j ↔ Allocated sb σ j := fun j => by
    by_cases hj : j < sb.numInodes
    · exact (hsame j hj).allocated
    · exact iff_of_false (fun hc => hj hc.2.1) fun hc => hj hc.2.1
  refine ⟨⟨⟨hr, fun q hq => ?_, h.refs.once, h.refs.absent, h.refs.nonneg, h.refs.below⟩, hown, fun j hj => ?_,
    fun q no hq => (hiff no).mpr (h.live q no hq), h.dead, h.nodup⟩, ?_⟩
  · obtain ⟨no, hno⟩ := h.refs.loaded q hq
    have hlt := (h.live q no ⟨hq, _, hno, rfl⟩).2.1
    refine ⟨no, ?_⟩
    rw [hno, image, image, hentry no hlt]
  · have hold := (hiff j).mp hj
    exact (hsame j hold.2.1).whole (h.whole j hold)
  · have hfiles : viewFile sb τ = viewFile sb σ := by
      funext j
      by_cases hj : j < sb.numInodes
      · exact (hsame j hj).viewFile h.refs.rep hr h.owns hown (h.whole j)
      · rw [viewFile_eq_none.mpr fun hc => hj hc.2.1, viewFile_eq_none.mpr fun hc => hj hc.2.1]
    show Store.mk _ _ = Store.mk _ _
    rw [hfiles]

/-- What is represented may be taken to be what the cache returns. -/
theorem Volume.of_cache (hl : sb.Layout) {busy : Option ℕ} (h : Volume sb σ ρ busy s) :
    Volume sb (content s.cache) ρ busy s ∧ view sb (content s.cache) s = view sb σ s :=
  h.congr hl fun _ hb => (h.refs.rep.content hb).symm

/-! ## Steps -/

/-- A call in an operation, or one that changes nothing outside of operations. -/
theorem journal_request (hpos : 0 < B.sb.numLogBlocks) {ph : Option ℕ} {n : ℕ∞} {A : Store}
    (hr : r.Valid A (ph ≠ none)) : Keeps (Journal B ph n []) (r.call B.sb ph) := by
  cases r with
  | alloc type => exact (journal_alloc hpos (.inl ⟨rfl, hr.1⟩)).seq fun _ => keeps_pure
  | get no => exact (journal_get hpos).seq fun _ => keeps_pure
  | share p => exact keeps_share.seq fun _ => keeps_pure
  | read p off count =>
    exact keeps_lock.seq fun _ => (journal_readInode hpos).seq fun _ => keeps_unlock.seq fun _ => keeps_pure
  | write p src off =>
    exact keeps_lock.seq fun _ => (journal_writeInode hpos (.inl ⟨rfl, hr.1⟩)).seq fun _ =>
      keeps_unlock.seq fun _ => keeps_pure
  | setLinks p n =>
    exact keeps_lock.seq fun _ => keeps_modifyEntry.seq fun _ =>
      (journal_sync hpos fun _ => .inl ⟨rfl, hr.1⟩).seq fun _ => keeps_unlock.seq fun _ => keeps_pure
  | clear p =>
    exact keeps_lock.seq fun _ => (journal_clear hpos (.inl ⟨rfl, hr.1⟩)).seq fun _ =>
      keeps_unlock.seq fun _ => keeps_pure
  | put p => exact (journal_put hpos (.inl ⟨rfl, hr.1⟩)).seq fun _ => keeps_pure

theorem Mounted.steady (hl : sb.Layout) (h : Mounted sb x) :
    Steady ⟨sb, True, x.fs.cache.writes, x.fs.cache.disk⟩ x := by
  have hnone : ∀ q no, ¬ Holds x.fs q no := by
    rintro q no ⟨hq, -⟩
    rw [h.list] at hq
    exact List.not_mem_nil hq
  have hv : Volume sb x.fs.cache.disk (fun _ => 0) none x.fs := by
    refine ⟨⟨h.booted.rep, fun q hq => ?_, fun q q' no hq => absurd hq (hnone q no), fun _ _ => rfl,
      fun _ => le_rfl, fun q hq => ?_⟩, h.fresh ▸ h.owns, h.whole, fun q no hq => absurd hq (hnone q no),
      fun q hq => absurd (h.inode q) hq, by rw [h.list]; exact List.nodup_nil⟩
    · rw [h.list] at hq
      exact absurd hq List.not_mem_nil
    · rw [h.list] at hq
      exact absurd hq List.not_mem_nil
  refine ⟨⟨_, (hv.of_cache hl).1⟩, 0, ?_⟩
  rw [h.idle]
  exact h.booted.journal

section Steps

variable (hl : B.sb.Layout) (hlog : opMaxNumBlocks + 1 ≤ B.sb.numLogBlocks)
include hl hlog

theorem Steady.call (hcap : B.sb.numBlocks ≤ 2 ^ 32) (h : Steady B x)
    (hr : r.Valid (x.store B.sb) (x.running ≠ none)) (hrun : r.call B.sb x.running x.fs = .ok a t) :
    Steady B ⟨t, x.running⟩ ∧
      Store.Step B.sb.numInodes (x.store B.sb) r a (Client.store B.sb ⟨t, x.running⟩) ∧
      ∀ no, r.frees (x.store B.sb) = some no → ∀ b < B.sb.numBlocks, bit B.sb (content t.cache) b = true ↔
        bit B.sb (content x.fs.cache) b = true ∧ ¬ OwnedBy B.sb (content x.fs.cache) no b := by
  obtain ⟨ρ, hv⟩ := h.volume
  obtain ⟨n, hj⟩ := h.journal
  have hpos : 0 < B.sb.numLogBlocks := by omega
  obtain ⟨τ, ρ', hv', hstep, hfreed⟩ := (hv.call hl hcap hr).of_ok hrun
  have hj' : Journal B x.running n [] t.cache := (journal_request hpos hr).of_ok hj hrun
  have hbit : ∀ b < B.sb.numBlocks, bit B.sb (content t.cache) b = bit B.sb τ b := fun b hb =>
    bit_congr (hv'.refs.rep.content (hl.not_inLog_bitmapBlock hb))
  obtain ⟨hv', hview⟩ := hv'.of_cache hl
  refine ⟨⟨⟨ρ', hv'⟩, n, hj'⟩, ?_, fun no hno b hb => ?_⟩
  · rw [← hview] at hstep
    exact hstep
  · rw [hbit b hb]
    exact hfreed no hno b hb

omit hlog in
theorem Steady.begin (h : Steady B ⟨s, none⟩) (hrun : cache (cacheBeginOp c) s = .ok () t) :
    Steady B ⟨t, some c⟩ ∧ Client.store B.sb ⟨t, some c⟩ = Client.store B.sb ⟨s, none⟩ := by
  obtain ⟨ρ, hv⟩ := h.volume
  obtain ⟨n, hj⟩ := h.journal
  have hrep : wlp (cache (cacheBeginOp c)) (fun _ t => ∃ d, t = { s with cache := d } ∧
      Rep B.sb (content s.cache) [] d) s := wp_cache.mpr (hv.refs.rep.beginOp fun d hd => ⟨d, rfl, hd⟩)
  have hj' : Journal B (some c) n [] t.cache := (onCache_call (Journal.beginOp c)).of_ok hj hrun
  obtain ⟨d, rfl, hd⟩ := hrep.of_ok hrun
  obtain ⟨hv', hview⟩ := (hv.of_rep hd).of_cache hl
  exact ⟨⟨⟨ρ, hv'⟩, n, hj'⟩, hview⟩

theorem Steady.finish (h : Steady B ⟨s, some c⟩) (hrun : cache (cacheEndOp B.sb c) s = .ok () t) :
    Steady B ⟨t, none⟩ ∧ Client.store B.sb ⟨t, none⟩ = Client.store B.sb ⟨s, some c⟩ := by
  obtain ⟨ρ, hv⟩ := h.volume
  obtain ⟨n, hj⟩ := h.journal
  have hle : s.cache.header.numBlocks + s.cache.rm c ≤ opMaxNumBlocks := (hj.phase.running c rfl).1
  have hrep : wlp (cache (cacheEndOp B.sb c)) (fun _ t => ∃ d, t = { s with cache := d } ∧
      Rep B.sb (content s.cache) [] d) s :=
    wp_cache.mpr (hv.refs.rep.endOp (fun _ => by show s.cache.header.numBlocks + 1 ≤ _; omega)
      fun d hd => ⟨d, rfl, hd⟩)
  have hj' : Journal B none (n + 1) [] t.cache := (onCache_call (Journal.endOp hlog c)).of_ok hj hrun
  obtain ⟨d, rfl, hd⟩ := hrep.of_ok hrun
  obtain ⟨hv', hview⟩ := (hv.of_rep hd).of_cache hl
  exact ⟨⟨⟨ρ, hv'⟩, n + 1, hj'⟩, hview⟩

variable (hcap : B.sb.numBlocks ≤ 2 ^ 32)
include hcap

/-- One step of a client, in the kernel and in the store. -/
theorem Steady.step (h : Steady B x) (hs : Client.Step B.sb x e y) :
    Steady B y ∧ Store.Takes B.sb.numInodes (x.store B.sb) e (y.store B.sb) := by
  cases hs with
  | begin hrun =>
    obtain ⟨hy, hstore⟩ := h.begin hl hrun
    rw [hstore]
    exact ⟨hy, .begin⟩
  | call hr hrun =>
    obtain ⟨hy, hstep, -⟩ := h.call hl hlog hcap hr hrun
    exact ⟨hy, .call hstep⟩
  | finish hrun =>
    obtain ⟨hy, hstore⟩ := h.finish hl hlog hrun
    rw [hstore]
    exact ⟨hy, .finish⟩

theorem Steady.run (h : Steady B x) (hrun : Lib.Trace (Client.Step B.sb) x es y) : Steady B y :=
  hrun.invariant h fun _ _ _ hs hstep => (hs.step hl hlog hcap hstep).1

end Steps

/-! ## Runs that are computed -/

/-- What a client wants to do. -/
inductive Action
  | begin (c : ℕ)
  | call (r : Request)
  | finish

/-- One step of a client that keeps to the rules, if nothing stops it. -/
def Client.next (sb : SuperBlock) (x : Client) : Action → Option (Event × Client)
  | .begin c =>
    match x.running, cache (cacheBeginOp c) x.fs with
    | none, .ok _ t => some (.begin c, ⟨t, some c⟩)
    | _, _ => none
  | .call r =>
    if r.Valid (x.store sb) (x.running ≠ none) then
      match r.call sb x.running x.fs with
      | .ok a t => some (.call r a, ⟨t, x.running⟩)
      | .error _ _ => none
    else none
  | .finish =>
    match x.running with
    | some c =>
      match cache (cacheEndOp sb c) x.fs with
      | .ok _ t => some (.finish, ⟨t, none⟩)
      | .error _ _ => none
    | none => none

def Client.exec (sb : SuperBlock) : Client → List Action → Option (List Event × Client)
  | x, [] => some ([], x)
  | x, b :: bs =>
    match x.next sb b with
    | some (e, y) => (y.exec sb bs).map fun r => (e :: r.1, r.2)
    | none => none

theorem Client.step_of_next {b : Action} (h : x.next sb b = some (e, y)) : Client.Step sb x e y := by
  obtain ⟨s, running⟩ := x
  cases b with
  | begin c =>
    dsimp only [Client.next] at h
    split at h
    · next ht =>
      cases h
      exact .begin ht
    · cases h
  | call r =>
    dsimp only [Client.next] at h
    split_ifs at h with hr
    split at h
    · next ht =>
      cases h
      exact .call hr ht
    · cases h
  | finish =>
    dsimp only [Client.next] at h
    split at h
    · split at h
      · next ht =>
        cases h
        exact .finish ht
      · cases h
    · cases h

theorem Client.trace_of_exec {bs : List Action} (h : x.exec sb bs = some (es, y)) :
    Lib.Trace (Client.Step sb) x es y := by
  induction bs generalizing x es with
  | nil =>
    cases h
    exact .nil
  | cons b bs ih =>
    unfold Client.exec at h
    split at h
    · next e z hz =>
      obtain ⟨r, hr, hes⟩ := Option.map_eq_some_iff.mp h
      obtain ⟨rfl, rfl⟩ := Prod.mk.inj hes
      exact .cons (step_of_next hz) (ih hr)
    · cases h

/-- What a computed run shows about its events and its end. -/
theorem Client.trace_of_exec_map {β : Type} {bs : List Action} {f : List Event × Client → β} {b : β}
    (h : (x.exec sb bs).map f = some b) : ∃ es y, Lib.Trace (Client.Step sb) x es y ∧ f (es, y) = b := by
  obtain ⟨r, hr, hb⟩ := Option.map_eq_some_iff.mp h
  exact ⟨r.1, r.2, trace_of_exec hr, hb⟩

/-! ## A small file system -/

/-- The file system `blankFs` after `init_bcache`. -/
def blankClient : Client := ⟨⟨Bcache.boot blankDisk, [], fun _ => none, 0, [], []⟩, none⟩

/-- In an operation the client opens file 1, writes to it and makes a new file; then it reads. -/
def blankActions : List Action :=
  [.begin 0, .call (.get 1), .call (.write 0 [104, 105] 0), .call (.alloc inodeRegular), .finish,
    .call (.read 0 1 5)]

def blankEvents : List Event :=
  [.begin 0, .call (.get 1) (.pointer (some 0)), .call (.write 0 [104, 105] 0) (.count 2),
    .call (.alloc inodeRegular) (.number 2), .finish, .call (.read 0 1 5) (.bytes [105])]

theorem mounted_blank : Mounted blankFs blankClient := by
  have hentry : ∀ no < blankFs.numInodes, (diskEntry blankFs blankDisk no).numBytes = 0 := by decide +kernel
  refine ⟨rfl, ⟨(clean_boot blankDisk).coh, noneHeld_boot blankDisk, rfl, by decide +kernel, rfl, rfl, rfl⟩, rfl,
    fun _ => rfl, rfl, opened_blankState.owns, fun no ha x hx => ?_⟩
  have hsize : (diskEntry blankFs blankClient.fs.cache.disk no).numBytes = 0 := hentry no ha.2.1
  rw [hsize] at hx
  exact absurd hx (Nat.not_lt_zero _)

theorem exec_blank : ∃ y, Lib.Trace (Client.Step blankFs) blankClient blankEvents y ∧ y.running = none ∧
    Proper blankFs y.fs.cache.writes := by
  have hexec : (blankClient.exec blankFs blankActions).map (fun r =>
      decide (r.1 = blankEvents ∧ r.2.running = none ∧ Proper blankFs r.2.fs.cache.writes)) = some true := by
    decide +kernel
  obtain ⟨es, y, hrun, hy⟩ := Client.trace_of_exec_map hexec
  obtain ⟨rfl, hn, hp⟩ := of_decide_eq_true hy
  exact ⟨y, hrun, hn, hp⟩

/-! ## The store -/

/-- The inode layer is a store: in every run that keeps to the rules, each call answers as the store
    does that has taken all the calls before it. -/
theorem client_refines_store (hl : sb.Layout) (hcap : sb.numBlocks ≤ 2 ^ 32)
    (hlog : opMaxNumBlocks + 1 ≤ sb.numLogBlocks) (h : Mounted sb x) (hrun : Lib.Trace (Client.Step sb) x es y) :
    Lib.Trace (Store.Takes sb.numInodes) (x.store sb) es (y.store sb) := by
  have hsim := hrun.simulates (R := fun z A => Steady ⟨sb, True, x.fs.cache.writes, x.fs.cache.disk⟩ z ∧
    A = z.store sb) ⟨h.steady hl, rfl⟩ fun z e z' A hz hstep => by
      obtain ⟨hsteady, rfl⟩ := hz
      obtain ⟨hz', htakes⟩ := hsteady.step hl hlog hcap hstep
      exact ⟨_, htakes, hz', rfl⟩
  obtain ⟨A, hA, -, rfl⟩ := hsim
  exact hA

theorem client_refines_store_blank : ∃ y, Lib.Trace (Client.Step blankFs) blankClient blankEvents y ∧
    Lib.Trace (Store.Takes 16) (blankClient.store blankFs) blankEvents (y.store blankFs) := by
  obtain ⟨y, hrun, -⟩ := exec_blank
  exact ⟨y, hrun, client_refines_store blankFs_layout (by decide) (by decide) mounted_blank hrun⟩

/-- At any moment of a run, a call that keeps to the rules comes back or stops because space has run
    out: it neither waits for a lock nor uses memory that was freed, and no assertion fails. -/
theorem client_never_sleeps (hl : sb.Layout) (hcap : sb.numBlocks ≤ 2 ^ 32)
    (hlog : opMaxNumBlocks + 1 ≤ sb.numLogBlocks) (h : Mounted sb x) (hrun : Lib.Trace (Client.Step sb) x es y)
    (hr : r.Valid (y.store sb) (y.running ≠ none)) :
    (∃ a t, Client.Step sb y (.call r a) ⟨t, y.running⟩) ∨
      ∃ stop t, r.call sb y.running y.fs = .error stop t ∧ NoSpace stop := by
  obtain ⟨ρ, hv⟩ := ((h.steady hl).run hl hlog hcap hrun).volume
  have hcall := hv.call hl hcap hr
  cases hres : r.call sb y.running y.fs with
  | ok a t => exact .inl ⟨a, t, .call hr hres⟩
  | error stop t => exact .inr ⟨stop, t, rfl, hcall.of_error hres⟩

/-- The new file of `blankEvents` may be opened. -/
theorem client_never_sleeps_blank : ∃ y, Lib.Trace (Client.Step blankFs) blankClient blankEvents y ∧
    ((∃ a t, Client.Step blankFs y (.call (.get 2) a) ⟨t, y.running⟩) ∨
      ∃ stop t, (Request.get 2).call blankFs y.running y.fs = .error stop t ∧ NoSpace stop) := by
  have hexec : (blankClient.exec blankFs blankActions).map (fun r =>
      decide (r.1 = blankEvents ∧ (Request.get 2).Valid (r.2.store blankFs) (r.2.running ≠ none))) = some true := by
    decide +kernel
  obtain ⟨es, y, hrun, hy⟩ := Client.trace_of_exec_map hexec
  obtain ⟨rfl, hr⟩ := of_decide_eq_true hy
  exact ⟨y, hrun, client_never_sleeps blankFs_layout (by decide) (by decide) mounted_blank hrun hr⟩

/-! ## Blocks and inodes -/

/-- At any moment of a run every block is stored at most once over all inodes and is marked in the bitmap,
    and every block that was allocated and not freed since is stored in an inode. `inode_clear` and the
    last `inode_put` unmark the blocks of their inode, and no others. -/
theorem client_owns_blocks (hl : sb.Layout) (hcap : sb.numBlocks ≤ 2 ^ 32)
    (hlog : opMaxNumBlocks + 1 ≤ sb.numLogBlocks) (h : Mounted sb x) (hrun : Lib.Trace (Client.Step sb) x es y) :
    Owns sb (content y.fs.cache) y.fs.fresh ∧ ∀ r a z, Client.Step sb y (.call r a) z →
      ∀ no, r.frees (y.store sb) = some no → ∀ b < sb.numBlocks, bit sb (content z.fs.cache) b = true ↔
        bit sb (content y.fs.cache) b = true ∧ ¬ OwnedBy sb (content y.fs.cache) no b := by
  have hsteady := (h.steady hl).run hl hlog hcap hrun
  obtain ⟨ρ, hv⟩ := hsteady.volume
  refine ⟨hv.owns, fun r a z hstep => ?_⟩
  cases hstep with
  | call hr hres => exact (hsteady.call hl hlog hcap hr hres).2.2

theorem client_owns_blocks_blank : ∃ y, Lib.Trace (Client.Step blankFs) blankClient blankEvents y ∧
    Owns blankFs (content y.fs.cache) y.fs.fresh := by
  obtain ⟨y, hrun, -⟩ := exec_blank
  exact ⟨y, hrun, (client_owns_blocks blankFs_layout (by decide) (by decide) mounted_blank hrun).1⟩

/-- At any moment of a run there is at most one `Inode` in memory for each number. It is a file of the
    store, and its entry is the one on the device. -/
theorem client_inodes_coherent (hl : sb.Layout) (hcap : sb.numBlocks ≤ 2 ^ 32)
    (hlog : opMaxNumBlocks + 1 ≤ sb.numLogBlocks) (h : Mounted sb x) (hrun : Lib.Trace (Client.Step sb) x es y)
    {q : ℕ} {i : Inode} (hi : y.fs.inode q = some i) :
    i.lock = 1 ∧ 0 ≤ i.rc ∧ i.valid = true ∧ (y.store sb).files i.inodeNo ≠ none ∧
      i.entry = diskEntry sb (content y.fs.cache) i.inodeNo ∧
      ∀ q' i', y.fs.inode q' = some i' → i'.inodeNo = i.inodeNo → q' = q := by
  obtain ⟨ρ, hv⟩ := ((h.steady hl).run hl hlog hcap hrun).volume
  have hm : ∀ {p j}, y.fs.inode p = some j → p ∈ y.fs.list := fun hj => hv.dead _ (by rw [hj]; exact Option.some_ne_none _)
  have hold : Holds y.fs q i.inodeNo := ⟨hm hi, i, hi, rfl⟩
  have himage := Option.some.inj (hi.symm.trans (hv.refs.inode hold))
  have hfile := hv.file hold
  refine ⟨by rw [himage]; rfl, ?_, by rw [himage]; rfl, ?_, ?_, fun q' i' hi' hno => ?_⟩
  · rw [himage]
    exact hv.refs.nonneg _
  · intro hnone
    have hfile' : (y.store sb).files i.inodeNo = _ := hfile
    rw [hnone] at hfile'
    cases hfile'
  · generalize i.inodeNo = no at himage
    rw [himage]
    rfl
  · exact hv.refs.once q' q _ ⟨hm hi', i', hi', hno⟩ hold

/-- The file that the client has opened. -/
theorem client_inodes_coherent_blank : ∃ y i, Lib.Trace (Client.Step blankFs) blankClient blankEvents y ∧
    y.fs.inode 0 = some i ∧ i.inodeNo = 1 ∧ i.entry = diskEntry blankFs (content y.fs.cache) i.inodeNo := by
  have hexec : (blankClient.exec blankFs blankActions).map (fun r =>
      (decide (r.1 = blankEvents), (r.2.fs.inode 0).map Inode.inodeNo)) = some (true, some 1) := by
    decide +kernel
  obtain ⟨es, y, hrun, hy⟩ := Client.trace_of_exec_map hexec
  rw [Prod.mk.injEq, decide_eq_true_eq] at hy
  obtain ⟨rfl, hno⟩ := hy
  obtain ⟨i, hi, hno⟩ := Option.map_eq_some_iff.mp hno
  exact ⟨y, i, hrun, hi, hno,
    (client_inodes_coherent blankFs_layout (by decide) (by decide) mounted_blank hrun hi).2.2.2.2.1⟩

/-! ## Crashes -/

/-- An operation: its calls between `begin` and `finish`. -/
def Operation (op : List Event) : Prop := op = [] ∨ ∃ c calls, op = .begin c :: calls ++ [.finish] ∧ .finish ∉ calls

/-- When the device had taken `k` writes, the run from `x` to `y` was in the operation from `u` to `v`,
    or between two operations. -/
structure InOperation (sb : SuperBlock) (x : Client) (es : List Event) (y : Client) (k : ℕ) (u v : Client) :
    Prop where
  split : ∃ es₁ op es₂, es = es₁ ++ op ++ es₂ ∧ Operation op ∧ Lib.Trace (Client.Step sb) x es₁ u ∧
    Lib.Trace (Client.Step sb) u op v ∧ Lib.Trace (Client.Step sb) v es₂ y
  idle : u.running = none ∧ v.running = none
  le : u.fs.cache.writes.length ≤ x.fs.cache.writes.length + k
  ge : x.fs.cache.writes.length + k ≤ v.fs.cache.writes.length

/-- Recovery of `d`, cut off any number of times before, leaves the files of one of the two stores. -/
def RecoversFiles (sb : SuperBlock) (d : ℕ → BlockData) (A A' : Store) : Prop :=
  ∀ d', RedoLog.Format.CutRecoveries (initWrites sb) d d' → ∃ u, initBcache sb (boot d') = .ok () u ∧
    (viewFile sb u.disk = A.files ∨ viewFile sb u.disk = A'.files)

/-- What a crash leaves of a run that is between two operations now. -/
def CrashesBetween (sb : SuperBlock) (x : Client) (es : List Event) (y : Client) : Prop :=
  ∃ ws, y.fs.cache.writes = x.fs.cache.writes ++ ws ∧
    y.fs.cache.disk = RedoLog.applyWrites x.fs.cache.disk (ws.map Write.pair) ∧
    ∀ k ≤ ws.length, ∃ u v, InOperation sb x es y k u v ∧
      RecoversFiles sb (RedoLog.applyWrites x.fs.cache.disk ((ws.take k).map Write.pair)) (u.store sb) (v.store sb)

theorem InOperation.extend {z u v : Client} {es' : List Event} {k : ℕ} (h : InOperation sb x es y k u v)
    (h' : Lib.Trace (Client.Step sb) y es' z) : InOperation sb x (es ++ es') z k u v := by
  obtain ⟨es₁, op, es₂, rfl, hop, h1, h2, h3⟩ := h.split
  exact ⟨⟨es₁, op, es₂ ++ es', by simp, hop, h1, h2, h3.append h'⟩, h.idle, h.le, h.ge⟩

/-- Between two operations the files are those on the device. -/
theorem Steady.files_disk (hl : B.sb.Layout) (h : Steady B x) (hn : x.running = none) {d : ℕ → BlockData}
    (hd : SameHome B.sb d x.fs.cache.disk) : viewFile B.sb d = (x.store B.sb).files := by
  obtain ⟨ρ, hv⟩ := h.volume
  obtain ⟨n, hj⟩ := h.journal
  have hnil : x.fs.cache.header.entries = [] := by
    rw [← List.length_eq_zero_iff, LogHeader.length_entries]
    exact (hj.phase.idle hn).1
  have hsame : ∀ b, ¬ B.sb.InLog b → content x.fs.cache b = d b := by
    intro b hb
    have hdisk := hv.refs.rep.coh.disk b hb (by rw [hnil]; exact List.not_mem_nil)
    rw [hd b hb, hdisk]
  exact congrArg Store.files (hv.congr hl hsame).2

theorem recoversFiles_of (hl : B.sb.Layout) {d : ℕ → BlockData} (hx : Steady B x) (hy : Steady B y)
    (hnx : x.running = none) (hny : y.running = none)
    (h : RecoversTo B.sb d x.fs.cache.disk y.fs.cache.disk) :
    RecoversFiles B.sb d (x.store B.sb) (y.store B.sb) := by
  intro d' hd
  obtain ⟨u, hu, -, hm⟩ := h d' hd
  exact ⟨u, hu, hm.imp (hx.files_disk hl hnx) (hy.files_disk hl hny)⟩

/-- The run is between two operations, or in one. What it does until the end of this operation is not on
    the device. -/
structure Tracked (B : Base) (x : Client) (es : List Event) (y : Client) : Prop where
  idle : y.running = none → Proper B.sb y.fs.cache.writes → CrashesBetween B.sb x es y
  busy : ∀ c, y.running = some c → ∃ es₀ calls z, es = es₀ ++ .begin c :: calls ∧ .finish ∉ calls ∧
    Lib.Trace (Client.Step B.sb) x es₀ z ∧ Lib.Trace (Client.Step B.sb) z (.begin c :: calls) y ∧
    z.running = none ∧ Steady B z ∧ (Proper B.sb z.fs.cache.writes → CrashesBetween B.sb x es₀ z) ∧
    Journal ⟨B.sb, True, z.fs.cache.writes, z.fs.cache.disk⟩ (some c) 0 [] y.fs.cache

/-- A moment between two operations, from which on the writes are tracked. -/
theorem Steady.rebase (h : Steady B x) (hn : x.running = none) :
    Journal ⟨B.sb, True, x.fs.cache.writes, x.fs.cache.disk⟩ none 0 [] x.fs.cache := by
  obtain ⟨n, hj⟩ := h.journal
  rw [hn] at hj
  exact hj.rebase

/-- Nothing has been done. -/
theorem Steady.crashesNow (hl : B.sb.Layout) (hpos : 0 < B.sb.numLogBlocks) (h : Steady B x) (hn : x.running = none)
    (hp : Proper B.sb x.fs.cache.writes) : CrashesBetween B.sb x [] x := by
  obtain ⟨-, -, -, hrec, -⟩ := (h.rebase hn).committed trivial hpos hp
  refine ⟨[], (List.append_nil _).symm, rfl, fun k hk => ⟨x, x, ?_, ?_⟩⟩
  · obtain rfl : k = 0 := Nat.le_zero.mp hk
    exact ⟨⟨[], [], [], rfl, .inl rfl, .nil, .nil, .nil⟩, ⟨hn, hn⟩, le_rfl, le_rfl⟩
  · rw [List.take_nil]
    exact recoversFiles_of hl h h hn hn hrec

/-- A call outside of an operation does not write to the device. -/
theorem Steady.call_idle (hpos : 0 < B.sb.numLogBlocks) (h : Steady B x) (hn : x.running = none)
    (hr : r.Valid (x.store B.sb) (x.running ≠ none)) (hrun : r.call B.sb x.running x.fs = .ok a t)
    (hp : Proper B.sb t.cache.writes) : t.cache.writes = x.fs.cache.writes ∧ t.cache.disk = x.fs.cache.disk := by
  have hj := h.rebase hn
  rw [← hn] at hj
  have hj' := (journal_request (B := ⟨B.sb, True, x.fs.cache.writes, x.fs.cache.disk⟩) hpos hr).of_ok hj hrun
  rw [hn] at hj'
  obtain ⟨ws, hws, hdisk, -, n, hn0, m, hchain, -⟩ := Journal.committed hj' trivial hpos hp
  obtain rfl : n = 0 := Nat.le_zero.mp (by exact_mod_cast hn0)
  generalize hpairs : ws.map Write.pair = pairs at hchain hdisk
  cases hchain
  obtain rfl := List.map_eq_nil_iff.mp hpairs
  exact ⟨hws.trans (List.append_nil _), hdisk⟩

/-- An operation ends. -/
theorem Steady.crashesInOp (hl : B.sb.Layout) (hpos : 0 < B.sb.numLogBlocks) {z : Client} {op : List Event}
    (hz : Steady B z) (hy : Steady B y) (hnz : z.running = none) (hny : y.running = none)
    (h : CrashesBetween B.sb x es z) (hxz : Lib.Trace (Client.Step B.sb) x es z)
    (hzy : Lib.Trace (Client.Step B.sb) z op y) (hop : Operation op)
    (hj : Journal ⟨B.sb, True, z.fs.cache.writes, z.fs.cache.disk⟩ none 1 [] y.fs.cache)
    (hp : Proper B.sb y.fs.cache.writes) : CrashesBetween B.sb x (es ++ op) y := by
  obtain ⟨ws', hws', hdisk', -, n, hn, m, hchain, hsame⟩ := hj.committed trivial hpos hp
  obtain ⟨ws, hws, hdisk, hall⟩ := h
  rw [hws'] at hp
  obtain ⟨-, -, -, hrec, -⟩ := (hz.rebase hnz).committed trivial hpos hp.left
  refine ⟨ws ++ ws', ?_, ?_, fun k hk => ?_⟩
  · rw [hws', hws, List.append_assoc]
  · rw [hdisk', hdisk, List.map_append, RedoLog.applyWrites_append]
  by_cases hle : k ≤ ws.length
  · obtain ⟨u, v, hin, hfiles⟩ := hall k hle
    refine ⟨u, v, hin.extend hzy, ?_⟩
    rw [List.take_append_of_le_length hle]
    exact hfiles
  · rw [List.length_append] at hk
    refine ⟨z, y, ⟨⟨es, op, [], by simp, hop, hxz, hzy, .nil⟩, ⟨hnz, hny⟩, ?_, ?_⟩, ?_⟩
    · rw [hws, List.length_append]
      omega
    · rw [hws', hws, List.length_append, List.length_append]
      omega
    · have hn1 : n ≤ 1 := by exact_mod_cast hn
      have hatomic := hchain.atomic hn1 hrec (k - ws.length)
      rw [List.take_append, List.take_of_length_le (by omega), List.map_append, RedoLog.applyWrites_append,
        ← hdisk, List.map_take]
      exact recoversFiles_of hl hz hy hnz hny (hatomic.congr (fun _ _ => rfl) hsame)

section Run

variable (hl : B.sb.Layout) (hcap : B.sb.numBlocks ≤ 2 ^ 32) (hlog : opMaxNumBlocks + 1 ≤ B.sb.numLogBlocks)
include hl hcap hlog

theorem Tracked.step {z : Client} (h : Tracked B x es y) (hxy : Lib.Trace (Client.Step B.sb) x es y)
    (hy : Steady B y) (hs : Client.Step B.sb y e z) : Tracked B x (es ++ [e]) z := by
  have hpos : 0 < B.sb.numLogBlocks := by omega
  have hz := (hy.step hl hlog hcap hs).1
  cases hs with
  | @begin s t c hrun =>
    refine ⟨(fun hn => by cases hn), fun c' hc => ?_⟩
    obtain rfl := Option.some.inj hc
    have hj : Journal ⟨B.sb, True, s.cache.writes, s.cache.disk⟩ (some c) 0 [] t.cache :=
      (onCache_call (Journal.beginOp c)).of_ok (hy.rebase rfl) hrun
    exact ⟨es, [], ⟨s, none⟩, rfl, List.not_mem_nil, hxy, .one (.begin hrun), rfl, hy, h.idle rfl, hj⟩
  | @call x' r a t hr hrun =>
    refine ⟨fun hn hp => ?_, fun c hc => ?_⟩
    · obtain ⟨hws, hdisk⟩ := hy.call_idle hpos hn hr hrun hp
      have hp' : Proper B.sb y.fs.cache.writes := by
        rw [← hws]
        exact hp
      obtain ⟨ws, hws₀, hdisk₀, hall⟩ := h.idle hn hp'
      refine ⟨ws, hws.trans hws₀, hdisk.trans hdisk₀, fun k hk => ?_⟩
      obtain ⟨u, v, hin, hfiles⟩ := hall k hk
      exact ⟨u, v, hin.extend (.one (.call hr hrun)), hfiles⟩
    · obtain ⟨es₀, calls, w, rfl, hfin, hxw, hwy, hnw, hw, hcrash, hj⟩ := h.busy c hc
      have hc' : y.running = some c := hc
      rw [← hc'] at hj
      have hj' := (journal_request (B := ⟨B.sb, True, w.fs.cache.writes, w.fs.cache.disk⟩) hpos hr).of_ok hj hrun
      rw [hc'] at hj'
      refine ⟨es₀, calls ++ [.call r a], w, by simp, ?_, hxw, ?_, hnw, hw, hcrash, hj'⟩
      · intro hm
        rcases List.mem_append.mp hm with hm | hm
        · exact hfin hm
        · cases List.mem_singleton.mp hm
      · exact hwy.snoc (.call hr hrun)
  | @finish s t c hrun =>
    refine ⟨fun _ hp => ?_, fun c' hc => by cases hc⟩
    obtain ⟨es₀, calls, w, rfl, hfin, hxw, hwy, hnw, hw, hcrash, hj⟩ := h.busy c rfl
    have hj' : Journal ⟨B.sb, True, w.fs.cache.writes, w.fs.cache.disk⟩ none (0 + 1) [] t.cache :=
      (onCache_call (Journal.endOp (B := ⟨B.sb, True, w.fs.cache.writes, w.fs.cache.disk⟩) hlog c)).of_ok hj hrun
    rw [zero_add] at hj'
    obtain ⟨ws, hws, -⟩ := hj'.committed trivial hpos hp
    have hp' : Proper B.sb (w.fs.cache.writes ++ ws) := hws ▸ hp
    rw [List.append_assoc]
    exact hw.crashesInOp hl hpos hz hnw rfl (hcrash hp'.left) hxw (hwy.snoc (.finish hrun))
      (.inr ⟨c, calls, rfl, hfin⟩) hj' hp

theorem Tracked.run (h : Steady B x) (hn : x.running = none) (hrun : Lib.Trace (Client.Step B.sb) x es y) :
    Tracked B x es y := by
  induction hrun with
  | nil =>
    refine ⟨fun _ hp => h.crashesNow hl (by omega) hn hp, fun c hc => ?_⟩
    rw [hn] at hc
    cases hc
  | snoc hxy hs ih => exact ih.step hl hcap hlog hxy (h.run hl hlog hcap hxy) hs

end Run

end ShikiOS.Fs.Inodes
