import ShikiOS.Common.Sem
import ShikiOS.Lib.Run

/-!
# The block device driver (`driver/virtio_blk.c`)

Any number of processes call `virtio_blk_rw`, the device takes requests and reports them, and
its interrupt is handled. A step is one part of the driver with `disk.lk`, one wait, or one
action of the device. What lies on the stack of a caller is named after its process.

Results:
* `Virtq.allocDesc`, `Virtq.freeDesc`: the free chain through the descriptors.
* `next`: the driver, the device and the callers as one step function.
-/

namespace ShikiOS.Driver.Virtio

open ShikiOS.Lib

/-! ## The queue -/

/-- `NQUEUE` (virtio.h:7), `VIRTQ_DESC_F_NEXT` and `VIRTQ_DESC_F_WRITE` (virtio.h:59-60). -/
def nqueue : ℕ := 16
def descFNext : BitVec 16 := 1
def descFWrite : BitVec 16 := 2

/-- `VIRTIO_BLK_T_IN` and `VIRTIO_BLK_T_OUT` (virtio.h:103-104). -/
def blkTIn : ℕ := 0
def blkTOut : ℕ := 1

/-- What a descriptor points to: the header or the data of a caller, or a status byte. -/
inductive Addr
  | null
  | hdr (p : ℕ)
  | data (p : ℕ)
  | status (d : ℕ)
deriving DecidableEq

/-- `struct virtq_desc` (virtio.h:62-67). -/
structure Desc where
  addr : Addr
  len : ℕ
  flags : BitVec 16
  next : ℕ

/-- `flags & VIRTQ_DESC_F_NEXT`. -/
def Desc.hasNext (d : Desc) : Bool := d.flags &&& descFNext != 0

/-- A ring of the queue with its running index (virtio.h:70-86). -/
structure Ring where
  idx : BitVec 16
  ring : ℕ → ℕ

/-- `ring[idx % NQUEUE] = d; idx++`. -/
def Ring.push (r : Ring) (d : ℕ) : Ring :=
  ⟨r.idx + 1, Function.update r.ring (r.idx.toNat % nqueue) d⟩

/-- `ring[i % NQUEUE]`. -/
def Ring.at (r : Ring) (i : BitVec 16) : ℕ := r.ring (i.toNat % nqueue)

/-- The member `info` of `struct virtq`; `buf` points to the data of a caller or is null. -/
structure Info where
  status : ℕ
  done : Bool
  buf : Option ℕ

/-- `struct virtq` (virtio.h:88-101). -/
structure Virtq where
  desc : ℕ → Desc
  avail : Ring
  used : Ring
  freeHead : ℕ
  nfree : ℕ
  lastUsedIdx : BitVec 16
  info : ℕ → Info

/-- `desc_init` (lines 17-25) on descriptors that are all zero. -/
def descInit (i : ℕ) : Desc :=
  if i < nqueue - 1 then ⟨.null, 0, descFNext, i + 1⟩ else ⟨.null, 0, 0, 0⟩

/-- `virtq_init` (lines 162-181). -/
def virtqInit : Virtq where
  desc := descInit
  avail := ⟨0, fun _ => 0⟩
  used := ⟨0, fun _ => 0⟩
  freeHead := 0
  nfree := nqueue
  lastUsedIdx := 0
  info := fun _ => ⟨0, false, none⟩

namespace Virtq

def setDesc (q : Virtq) (d : ℕ) (f : Desc → Desc) : Virtq :=
  { q with desc := Function.update q.desc d (f (q.desc d)) }

def setInfo (q : Virtq) (d : ℕ) (f : Info → Info) : Virtq :=
  { q with info := Function.update q.info d (f (q.info d)) }

/-- `alloc_desc` (lines 27-40). `none` is its PANIC. -/
def allocDesc (q : Virtq) : Option (ℕ × Virtq) :=
  if q.nfree = 0 then none
  else
    let d := q.freeHead
    let head := if (q.desc d).hasNext then (q.desc d).next else q.freeHead
    some (d, { q with freeHead := head, nfree := q.nfree - 1 })

/-- The loop of `free_desc` (lines 50-52) from `n` on, at most `fuel` rounds: the last
    descriptor and the number of descriptors. -/
def chainEnd (q : Virtq) : ℕ → ℕ → Option (ℕ × ℕ)
  | 0, _ => none
  | fuel + 1, n =>
    if (q.desc n).hasNext then (q.chainEnd fuel (q.desc n).next).map fun r => (r.1, r.2 + 1)
    else some (n, 1)

/-- `free_desc` (lines 42-58). `none`: the chain does not end. -/
def freeDesc (q : Virtq) (n : ℕ) : Option Virtq :=
  (q.chainEnd nqueue n).map fun (last, count) =>
    let next := if q.nfree = 0 then (q.desc last).next else q.freeHead
    { q.setDesc last fun d => { d with flags := descFNext, next := next } with
      nfree := q.nfree + count
      freeHead := n }

/-- The first locked part of `virtio_blk_rw` (lines 80-120) for process `p`: the head of the new
    chain. `none` is a PANIC of `alloc_desc`. -/
def submit (q : Virtq) (p : ℕ) (write : Bool) : Option (ℕ × Virtq) := do
  let (d0, q) ← q.allocDesc
  let q := q.setDesc d0 fun d => { d with addr := .hdr p, len := 16, flags := descFNext }
  let (d1, q) ← q.allocDesc
  let q := q.setDesc d0 fun d => { d with next := d1 }
  let flags := if write then descFNext else descFNext ||| descFWrite
  let q := q.setDesc d1 fun d => { d with addr := .data p, len := 512, flags := flags }
  let (d2, q) ← q.allocDesc
  let q := q.setDesc d1 fun d => { d with next := d2 }
  let q := q.setDesc d2 fun _ => ⟨.status d0, 1, descFWrite, 0⟩
  let q := { q with avail := q.avail.push d0 }
  return (d0, q.setInfo d0 fun i => { i with buf := some p })

/-- The second locked part of `virtio_blk_rw` (lines 126-127). -/
def finish (q : Virtq) (d0 : ℕ) : Option Virtq :=
  (q.setInfo d0 fun i => { i with done := false }).freeDesc d0

end Virtq

/-! ## The system -/

/-- `struct virtio_blk_req_hdr` (virtio.h:108-112). -/
structure Hdr where
  type : ℕ
  reserved : ℕ
  sector : ℕ

/-- Where a process is in `virtio_blk_rw`; `d0` is its local variable. -/
inductive Pc
  /-- Before `acquire_spinlock` (line 80), with the operation. -/
  | submit (write : Bool)
  /-- Before `wait_sem` (line 121), and asleep in it. -/
  | wait (d0 : ℕ)
  | asleep (d0 : ℕ)
  /-- Before the second `acquire_spinlock` (line 123). -/
  | finish (d0 : ℕ)
  /-- It returns. -/
  | returned (r : ℤ)
deriving DecidableEq

/-- The queue, the callers with the semaphores and headers on their stacks, and the device: what
    it has taken from the avail ring, and which of these it has not reported. The rest is only
    recorded: who has submitted the chain of each head, and how often the current request of
    each process has been reported and its caller posted; whether a completion has not gone to
    the process whose request it was. -/
structure State where
  q : Virtq
  sem : ℕ → Sem ℕ
  hdr : ℕ → Hdr
  pc : ℕ → Option Pc
  taken : BitVec 16
  inDevice : List ℕ
  owner : ℕ → Option ℕ
  reported : ℕ → ℕ
  woken : ℕ → ℕ
  misdelivered : Bool
  panicked : Bool

/-- After `virtio_init`. -/
def initState : State where
  q := virtqInit
  sem := fun _ => .init 0
  hdr := fun _ => ⟨0, 0, 0⟩
  pc := fun _ => none
  taken := 0
  inDevice := []
  owner := fun _ => none
  reported := fun _ => 0
  woken := fun _ => 0
  misdelivered := false
  panicked := false

/-- The steps. `step p`: process `p` goes on; `kill p`: its wait is interrupted; the device takes a
    request or reports the one with head `d`; the interrupt is handled. -/
inductive Action
  | call (p : ℕ) (dirty : Bool) (blockNo : ℕ)
  | step (p : ℕ)
  | kill (p : ℕ)
  | take
  | report (d : ℕ)
  | intr

namespace State

def goto (s : State) (p : ℕ) (x : Option Pc) : State :=
  { s with pc := Function.update s.pc p x }

def setSem (s : State) (p : ℕ) (m : Sem ℕ) : State :=
  { s with sem := Function.update s.sem p m }

/-- `virtio_blk_rw` up to line 79. -/
def begin (s : State) (p : ℕ) (dirty : Bool) (blockNo : ℕ) : State :=
  let hdr : Hdr := ⟨if dirty then blkTOut else blkTIn, 0, blockNo⟩
  { (s.setSem p (.init 0)).goto p (some (.submit dirty)) with
    hdr := Function.update s.hdr p hdr
    reported := Function.update s.reported p 0
    woken := Function.update s.woken p 0 }

/-- Lines 80-120. -/
def submit (s : State) (p : ℕ) (write : Bool) : State :=
  match s.q.submit p write with
  | none => { s with panicked := true }
  | some (d0, q) =>
    { s with q := q, owner := Function.update s.owner d0 (some p) }.goto p (some (.wait d0))

/-- `wait_sem(&b->sem)` up to `sched`. -/
def wait (s : State) (p d0 : ℕ) : State :=
  match (s.sem p).down p with
  | (m, true) => (s.setSem p m).goto p (some (.finish d0))
  | (m, false) => (s.setSem p m).goto p (some (.asleep d0))

/-- Lines 123-128. -/
def finish (s : State) (p d0 : ℕ) : Option State :=
  (s.q.finish d0).map fun q =>
    { s with q := q, owner := Function.update s.owner d0 none }.goto p (some (.returned 0))

/-- `post_sem(&b->sem)` of the Buf that `buf` points into. -/
def post (s : State) (p : ℕ) : Option State :=
  ((s.sem p).post).map fun (m, _) =>
    { s.setSem p m with woken := Function.update s.woken p (s.woken p + 1) }

/-- One round of the loop of `virtio_blk_intr` (lines 141-156). -/
def intrRound (s : State) : Option State :=
  let d0 := s.q.used.at s.q.lastUsedIdx
  if (s.q.info d0).status ≠ 0 then some { s with panicked := true }
  else
    let buf := (s.q.info d0).buf
    let s := { s with misdelivered := s.misdelivered || buf != s.owner d0 || buf.isNone }
    let s := match buf with
      | none => some s
      | some p => { s with q := s.q.setInfo d0 fun i => { i with done := true } }.post p
    s.map fun s =>
      let q := s.q.setInfo d0 fun i => { i with buf := none }
      { s with q := { q with lastUsedIdx := q.lastUsedIdx + 1 } }

/-- The loop of `virtio_blk_intr` (lines 140-157), `n` rounds. -/
def intrLoop : ℕ → State → Option State
  | 0, s => some s
  | n + 1, s =>
    match s.intrRound with
    | none => none
    | some s => if s.panicked then some s else intrLoop n s

/-- `virtio_blk_intr` (lines 132-160). -/
def intr (s : State) : Option State := intrLoop (s.q.used.idx - s.q.lastUsedIdx).toNat s

/-- The device takes the next entry of the avail ring. -/
def take (s : State) : State :=
  { s with taken := s.taken + 1, inDevice := s.inDevice ++ [s.q.avail.at s.taken] }

/-- The device reports the request with head `d`, with status 0. -/
def report (s : State) (d : ℕ) : State :=
  let q := s.q.setInfo d fun i => { i with status := 0 }
  { s with
    q := { q with used := q.used.push d }
    inDevice := s.inDevice.erase d
    reported := match s.owner d with
      | some p => Function.update s.reported p (s.reported p + 1)
      | none => s.reported }

/-- The next step of process `p`. -/
def step (s : State) (p : ℕ) : Option State :=
  match s.pc p with
  | none => none
  | some (.submit write) => some (s.submit p write)
  | some (.wait d0) => some (s.wait p d0)
  | some (.asleep d0) =>
    if p ∈ (s.sem p).sleeplist then none else some (s.goto p (some (.finish d0)))
  | some (.finish d0) => s.finish p d0
  | some (.returned _) => some (s.goto p none)

/-- The wait of process `p` is interrupted: `wait_sem` returns false. -/
def kill (s : State) (p : ℕ) : Option State :=
  match s.pc p with
  | some (.asleep _) =>
    if p ∈ (s.sem p).sleeplist then
      ((s.sem p).abort p).map fun m => (s.setSem p m).goto p (some (.returned (-1)))
    else none
  | _ => none

end State

/-- One step. Nothing happens after a PANIC. -/
def next (s : State) (a : Action) : Option State :=
  if s.panicked then none
  else
    match a with
    | .call p dirty blockNo => if (s.pc p).isNone then some (s.begin p dirty blockNo) else none
    | .step p => s.step p
    | .kill p => s.kill p
    | .take => if s.taken ≠ s.q.avail.idx then some s.take else none
    | .report d => if d ∈ s.inDevice then some (s.report d) else none
    | .intr => s.intr

/-! ## What is claimed of it -/

/-- The `n` descriptors along `next` from `d` on. -/
def walk (desc : ℕ → Desc) : ℕ → ℕ → List ℕ
  | 0, _ => []
  | n + 1, d => d :: walk desc n (desc d).next

namespace State

/-- The free chain: the first `nfree` descriptors from `free_head` on. -/
def free (s : State) : List ℕ := walk s.q.desc s.q.nfree s.q.freeHead

/-- The chain of three descriptors with head `d0`. -/
def chain (s : State) (d0 : ℕ) : List ℕ := walk s.q.desc 3 d0

/-- The request of process `p` with head `d0` is in flight. -/
def InFlight (s : State) (p d0 : ℕ) : Prop :=
  s.pc p = some (.wait d0) ∨ s.pc p = some (.asleep d0) ∨ s.pc p = some (.finish d0)

end State

end ShikiOS.Driver.Virtio
