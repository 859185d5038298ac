import ShikiOS.Driver.VirtioFrame

/-!
# The block device (`fs/block_device.c`)

Any number of processes call `read` and `write` of `block_device`. Each call has a Buf on its stack,
copies the data into it or out of it, and makes a request of it with `virtio_blk_rw`. The device
transfers the data of a request at one moment between taking and reporting it, in any order: it
follows the chain of descriptors to the header and to the data.

Results:
* `Data.step`: what each step keeps.
* `block_device_linearizable`: the calls take effect one at a time on an array of blocks, each
  between its beginning and its end.
-/

namespace ShikiOS.Fs.Device

open ShikiOS.Lib ShikiOS.Driver.Virtio

variable {β : Type}

/-! ## Model -/

/-- `SBLOCK_OFFSET` (line 10). -/
def sblockOffset : BitVec 32 := 0x20800

/-- A call of `sd_read` or `sd_write` with its arguments. -/
inductive Op (β : Type)
  | read (blockNo : ℕ)
  | write (blockNo : ℕ) (buffer : β)
deriving DecidableEq

namespace Op

def blockNo : Op β → ℕ
  | read b => b
  | write b _ => b

/-- `b.flags & B_DIRTY`. -/
def isDirty : Op β → Bool
  | read _ => false
  | write _ _ => true

/-- `(u32)block_no`. -/
def key (x : Op β) : BitVec 32 := .ofNat 32 x.blockNo

/-- `b.block_no` (lines 19 and 34), a `u32`. -/
def sector (x : Op β) : ℕ := (x.key + sblockOffset).toNat

/-- `b.data` before the request: what is on the stack, or a copy of the buffer (line 36). -/
def fill (stack : β) : Op β → β
  | read _ => stack
  | write _ v => v

end Op

/-- The driver, the data of the Buf of each process, the sectors of the disk, the call in which
    each process is, and the requests in the device whose data is transferred. The rest is only
    recorded: the calls, the transfers with the data, and the returns with what is in the Buf. -/
structure DiskState (β : Type) where
  base : Driver.Virtio.State
  data : ℕ → β
  disk : ℕ → β
  cur : ℕ → Option (Op β)
  performed : List ℕ
  called : List (ℕ × Op β)
  history : List (ℕ × Op β × β)
  returned : List (ℕ × Op β × β)

/-- The steps: a call, with what is on its stack; a step of a process in the driver, an interrupted
    wait, the device and the interrupt as in the driver; the device transfers the data of the
    request with head `d`. -/
inductive DiskAction (β : Type)
  | call (p : ℕ) (x : Op β) (stack : β)
  | step (p : ℕ)
  | kill (p : ℕ)
  | take
  | transfer (d : ℕ)
  | report (d : ℕ)
  | intr

namespace DiskState

/-- `sd_read` (lines 17-23) and `sd_write` (lines 31-37) up to the request. -/
def call (s : DiskState β) (p : ℕ) (x : Op β) (stack : β) (b : Driver.Virtio.State) : DiskState β :=
  { s with
    base := b
    data := Function.update s.data p (x.fill stack)
    cur := Function.update s.cur p (some x)
    called := s.called ++ [(p, x)] }

/-- A step of a process; when `virtio_blk_rw` returns, the call ends with what is in its Buf. -/
def step (s : DiskState β) (p : ℕ) (b : Driver.Virtio.State) : DiskState β :=
  match s.base.pc p, s.cur p with
  | some (.returned _), some x =>
    { s with
      base := b
      cur := Function.update s.cur p none
      returned := s.returned ++ [(p, x, s.data p)] }
  | _, _ => { s with base := b }

/-- The transfer of `v` for process `p`. -/
def record (s : DiskState β) (d p : ℕ) (v : β) : DiskState β :=
  { s with
    performed := d :: s.performed
    history := s.history ++ (s.cur p).toList.map fun x => (p, x, v) }

/-- The device reads the header at the head of the chain and the data descriptor behind it. `none`:
    these do not describe a request. -/
def transfer (s : DiskState β) (d : ℕ) : Option (DiskState β) :=
  let head := s.base.q.desc d
  let body := s.base.q.desc head.next
  match head.addr, body.addr with
  | .hdr p, .data p' =>
    let hdr := s.base.hdr p
    if hdr.type = blkTIn ∧ (body.flags &&& descFWrite != 0) then
      let v := s.disk hdr.sector
      some { s.record d p v with data := Function.update s.data p' v }
    else if hdr.type = blkTOut ∧ ¬ (body.flags &&& descFWrite != 0) then
      let v := s.data p'
      some { s.record d p v with disk := Function.update s.disk hdr.sector v }
    else none
  | _, _ => none

end DiskState

def next (s : DiskState β) : DiskAction β → Option (DiskState β)
  | .call p x stack =>
    (Driver.Virtio.next s.base (.call p x.isDirty x.sector)).map (s.call p x stack)
  | .step p => (Driver.Virtio.next s.base (.step p)).map (s.step p)
  | .kill p => (Driver.Virtio.next s.base (.kill p)).map (s.step p)
  | .take => (Driver.Virtio.next s.base .take).map fun b => { s with base := b }
  | .transfer d =>
    if s.base.panicked = false ∧ d ∈ s.base.inDevice ∧ d ∉ s.performed then s.transfer d else none
  | .report d =>
    if d ∈ s.performed then
      (Driver.Virtio.next s.base (.report d)).map fun b =>
        { s with base := b, performed := s.performed.erase d }
    else none
  | .intr => (Driver.Virtio.next s.base .intr).map fun b => { s with base := b }

/-- After `virtio_init`, with some disk and some stacks. -/
def init (disk data : ℕ → β) : DiskState β := ⟨initState, data, disk, fun _ => none, [], [], [], []⟩

/-- No wait is interrupted. -/
def NoKill (_ : DiskState β) : DiskAction β → Prop
  | .kill _ => False
  | _ => True

instance (s : DiskState β) : DecidablePred (NoKill s)
  | .kill _ => isFalse fun h => h
  | .call _ _ _ => isTrue trivial
  | .step _ => isTrue trivial
  | .take => isTrue trivial
  | .transfer _ => isTrue trivial
  | .report _ => isTrue trivial
  | .intr => isTrue trivial

/-! ## The array of blocks -/

/-- The blocks that the numbers stand for. -/
def blocks (disk : ℕ → β) (k : BitVec 32) : β := disk (k + sblockOffset).toNat

/-- The calls one after the other on an array: a read gives what the block holds, a write sets it. -/
inductive Legal (a : BitVec 32 → β) : List (ℕ × Op β × β) → (BitVec 32 → β) → Prop
  | nil : Legal a [] a
  | read {es : List (ℕ × Op β × β)} {c : BitVec 32 → β} (p b : ℕ) (h : Legal a es c) :
      Legal a (es ++ [(p, .read b, c (.ofNat 32 b))]) c
  | write {es : List (ℕ × Op β × β)} {c : BitVec 32 → β} (p b : ℕ) (v : β) (h : Legal a es c) :
      Legal a (es ++ [(p, .write b v, v)]) (Function.update c (.ofNat 32 b) v)

/-- What a record says of process `p`. -/
def ofProc {γ : Type} (p : ℕ) (es : List (ℕ × γ)) : List γ := (es.filter fun e => e.1 = p).map (·.2)

variable {γ : Type} {s t u : DiskState β} {p q d h : ℕ} {x : Op β} {v : β} {a a₀ : ℕ → β}

theorem ofProc_concat_self (es : List (ℕ × γ)) (y : γ) :
    ofProc p (es ++ [(p, y)]) = ofProc p es ++ [y] := by
  simp [ofProc]

theorem ofProc_concat_of_ne (es : List (ℕ × γ)) (y : γ) (hq : q ≠ p) :
    ofProc q (es ++ [(p, y)]) = ofProc q es := by
  simp [ofProc, Ne.symm hq]

theorem blocks_sector (a : ℕ → β) (x : Op β) : a x.sector = blocks a x.key := rfl

theorem blocks_update (x : Op β) (v : β) :
    blocks (Function.update a x.sector v) = Function.update (blocks a) x.key v := by
  funext k
  by_cases hk : k = x.key
  · subst hk
    rw [Function.update_self]
    exact Function.update_self ..
  · rw [Function.update_of_ne hk]
    apply Function.update_of_ne
    intro h
    exact hk (by simpa using BitVec.eq_of_toNat_eq h)

/-! ## The invariant -/

/-- The data of the request of process `p` has been transferred. -/
def Served (s : DiskState β) (p : ℕ) : Prop :=
  0 < s.base.reported p ∨ ∃ h ∈ s.performed, s.base.InFlight p h

/-- What process `p` is doing, and what has been recorded of it. -/
structure Client (s : DiskState β) (p : ℕ) : Prop where
  idle : s.cur p = none ↔ s.base.pc p = none
  type : ∀ x, s.cur p = some x → (s.base.hdr p).type = if x.isDirty then blkTOut else blkTIn
  sector : ∀ x, s.cur p = some x → (s.base.hdr p).sector = x.sector
  submit : ∀ x w, s.cur p = some x → s.base.pc p = some (.submit w) → w = x.isDirty
  request : ∀ x h, s.cur p = some x → s.base.InFlight p h → Request s.base p h x.isDirty
  buffer : ∀ b v, s.cur p = some (.write b v) → s.data p = v
  called : ofProc p s.called = (ofProc p s.returned).map Prod.fst ++ (s.cur p).toList
  served : ∀ x, s.cur p = some x → Served s p →
    ofProc p s.history = ofProc p s.returned ++ [(x, s.data p)]
  unserved : (∀ x, s.cur p = some x → ¬ Served s p) → ofProc p s.history = ofProc p s.returned

/-- The requests in the device, and the array of blocks. -/
structure Data (a₀ : ℕ → β) (s : DiskState β) : Prop where
  client : ∀ p, Client s p
  performed : ∀ h ∈ s.performed, h ∈ s.base.inDevice
  nodup : s.performed.Nodup
  legal : Legal (blocks a₀) s.history (blocks s.disk)

/-- A process that goes on with the same call, with nothing recorded. -/
structure Same (s t : DiskState β) (p : ℕ) : Prop where
  idle : t.base.pc p = none ↔ s.base.pc p = none
  hdr : t.base.hdr p = s.base.hdr p
  submit : ∀ w, t.base.pc p = some (.submit w) → s.base.pc p = some (.submit w)
  request : ∀ x h, s.cur p = some x → t.base.InFlight p h → Request t.base p h x.isDirty
  cur : t.cur p = s.cur p
  data : t.data p = s.data p
  served : Served t p ↔ Served s p
  called : ofProc p t.called = ofProc p s.called
  history : ofProc p t.history = ofProc p s.history
  returned : ofProc p t.returned = ofProc p s.returned

theorem Client.frame (hc : Client s p) (hs : Same s t p) : Client t p where
  idle := by
    rw [hs.cur, hs.idle]
    exact hc.idle
  type := by
    rw [hs.cur, hs.hdr]
    exact hc.type
  sector := by
    rw [hs.cur, hs.hdr]
    exact hc.sector
  submit := by
    rw [hs.cur]
    exact fun x w hx hw => hc.submit x w hx (hs.submit w hw)
  request := by
    rw [hs.cur]
    exact hs.request
  buffer := by
    rw [hs.cur, hs.data]
    exact hc.buffer
  called := by
    rw [hs.called, hs.returned, hs.cur]
    exact hc.called
  served := by
    rw [hs.cur, hs.served, hs.history, hs.returned, hs.data]
    exact hc.served
  unserved := by
    rw [hs.cur, hs.served, hs.history, hs.returned]
    exact hc.unserved

/-- A process is served as before if its reports are the same and so are the requests in the device
    that are its own. -/
theorem served_congr (hb : Untouched s.base t.base p)
    (hp : ∀ h, s.base.InFlight p h → (h ∈ t.performed ↔ h ∈ s.performed)) : Served t p ↔ Served s p := by
  unfold Served
  rw [hb.reported]
  refine or_congr Iff.rfl ⟨?_, ?_⟩
  · rintro ⟨h, hm, hf⟩
    have hf' := hb.inFlight.mp hf
    exact ⟨h, (hp h hf').mp hm, hf'⟩
  · rintro ⟨h, hm, hf⟩
    exact ⟨h, (hp h hf).mpr hm, hb.inFlight.mpr hf⟩

/-- A process that the step does not touch. -/
theorem Client.untouched (hc : Client s p) (hb : Untouched s.base t.base p)
    (hp : ∀ h, s.base.InFlight p h → (h ∈ t.performed ↔ h ∈ s.performed)) (hcur : t.cur p = s.cur p)
    (hdata : t.data p = s.data p) (hcalled : ofProc p t.called = ofProc p s.called)
    (hhist : ofProc p t.history = ofProc p s.history)
    (hret : ofProc p t.returned = ofProc p s.returned) : Client t p := by
  refine hc.frame ⟨by rw [hb.pc], hb.hdr, fun w => by rw [hb.pc]; exact id, ?_, hcur, hdata,
    served_congr hb hp, hcalled, hhist, hret⟩
  intro x h hx hf
  have hf' := hb.inFlight.mp hf
  exact hb.request h _ hf' (hc.request x h hx hf')

/-- A step of the driver that touches no process. -/
theorem Data.quiet (hd : Data a₀ s) {b : Driver.Virtio.State} (hb : ∀ p, Untouched s.base b p)
    (hdev : ∀ h ∈ s.base.inDevice, h ∈ b.inDevice) : Data a₀ { s with base := b } where
  client p := (hd.client p).untouched (hb p) (fun _ _ => Iff.rfl) rfl rfl rfl rfl rfl
  performed h hh := hdev h (hd.performed h hh)
  nodup := hd.nodup
  legal := hd.legal

/-! ## Calls -/

theorem not_inFlight_of_submit {b : Driver.Virtio.State} {w : Bool} (hpc : b.pc p = some (.submit w)) :
    ¬ b.InFlight p h := fun hf => hf.pc_ne_submit hpc

/-- A call begins. -/
theorem Data.call (hd : Data a₀ s) {b : Driver.Virtio.State} (hpc : s.base.pc p = none) (stack : β)
    (hb : Begun s.base b p x.isDirty x.sector) : Data a₀ (s.call p x stack b) := by
  have hc := hd.client p
  have hcur : s.cur p = none := hc.idle.mpr hpc
  refine ⟨fun q => ?_, fun h hh => hb.inDevice ▸ hd.performed h hh, hd.nodup, hd.legal⟩
  by_cases hq : q = p
  · subst hq
    have hcur' : (s.call q x stack b).cur q = some x := Function.update_self ..
    have hsome : ∀ {y}, (s.call q x stack b).cur q = some y → y = x := by
      intro y hy
      exact (Option.some.inj (hcur'.symm.trans hy)).symm
    have hserved : ¬ Served (s.call q x stack b) q := by
      rintro (hrep | ⟨h, -, hf⟩)
      · have hrep : 0 < b.reported q := hrep
        rw [hb.reported] at hrep
        omega
      · exact not_inFlight_of_submit hb.pc hf
    refine ⟨iff_of_false ?_ ?_, fun y hy => ?_, fun y hy => ?_, fun y w hy hw => ?_, fun y h hy hf => ?_,
      fun c v hy => ?_, ?_, fun y hy hs => absurd hs hserved, fun _ => ?_⟩
    · rw [hcur']
      simp
    · show b.pc q ≠ none
      rw [hb.pc]
      simp
    · obtain rfl := hsome hy
      show (b.hdr q).type = _
      rw [hb.hdr]
    · obtain rfl := hsome hy
      show (b.hdr q).sector = _
      rw [hb.hdr]
    · rw [hsome hy]
      simpa [eq_comm] using hb.pc.symm.trans hw
    · exact absurd hf (not_inFlight_of_submit hb.pc)
    · obtain rfl := hsome hy
      exact Function.update_self ..
    · rw [hcur']
      show ofProc q (s.called ++ [(q, x)]) = (ofProc q s.returned).map Prod.fst ++ [x]
      rw [ofProc_concat_self, hc.called, hcur]
      simp
    · exact hc.unserved fun y hy => absurd (hcur.symm.trans hy) (by simp)
  · exact (hd.client q).untouched (hb.others q hq) (fun _ _ => Iff.rfl) (Function.update_of_ne hq ..)
      (Function.update_of_ne hq ..) (ofProc_concat_of_ne _ _ hq) rfl rfl

/-! ## Steps of a process -/

theorem step_eq {b : Driver.Virtio.State} (hpc : ∀ r, s.base.pc p ≠ some (.returned r)) :
    s.step p b = { s with base := b } := by
  unfold DiskState.step
  split
  next r x hr _ => exact absurd hr (hpc r)
  next => rfl

theorem step_returned {b : Driver.Virtio.State} {r : ℤ} (hpc : s.base.pc p = some (.returned r))
    (hcur : s.cur p = some x) : s.step p b =
      { s with
        base := b
        cur := Function.update s.cur p none
        returned := s.returned ++ [(p, x, s.data p)] } := by
  unfold DiskState.step
  rw [hpc, hcur]

/-- The call in which a process is. -/
theorem Client.exists_cur (hc : Client s p) (hpc : s.base.pc p ≠ none) : ∃ x, s.cur p = some x := by
  cases hx : s.cur p with
  | none => exact absurd (hc.idle.mp hx) hpc
  | some x => exact ⟨x, rfl⟩

/-- A step in which a process goes on with its call. -/
theorem Data.advance (hd : Data a₀ s) {b : Driver.Virtio.State} (hdev : b.inDevice = s.base.inDevice)
    (hother : ∀ q, q ≠ p → Untouched s.base b q) (hp : Same s { s with base := b } p) :
    Data a₀ { s with base := b } := by
  refine ⟨fun q => ?_, fun h hh => hdev ▸ hd.performed h hh, hd.nodup, hd.legal⟩
  by_cases hq : q = p
  · subst hq
    exact (hd.client q).frame hp
  · exact (hd.client q).untouched (hother q hq) (fun _ _ => Iff.rfl) rfl rfl rfl rfl rfl

/-- A call ends with what is in its Buf. -/
theorem Data.finish (hd : Data a₀ s) {b : Driver.Virtio.State} (hdev : b.inDevice = s.base.inDevice)
    (hother : ∀ q, q ≠ p → Untouched s.base b q) (hpc : b.pc p = none) (hcur : s.cur p = some x)
    (hserved : Served s p) :
    Data a₀
      { s with
        base := b
        cur := Function.update s.cur p none
        returned := s.returned ++ [(p, x, s.data p)] } := by
  refine ⟨fun q => ?_, fun h hh => hdev ▸ hd.performed h hh, hd.nodup, hd.legal⟩
  by_cases hq : q = p
  · subst hq
    have hc := hd.client q
    have hnone : ∀ {y : Op β}, Function.update s.cur q none q ≠ some y := by simp
    refine ⟨iff_of_true (Function.update_self ..) hpc, fun y hy => absurd hy hnone,
      fun y hy => absurd hy hnone, fun y w hy => absurd hy hnone, fun y h hy => absurd hy hnone,
      fun c v hy => absurd hy hnone, ?_, fun y hy => absurd hy hnone, fun _ => ?_⟩
    · show ofProc q s.called = (ofProc q (s.returned ++ [(q, x, s.data q)])).map Prod.fst ++
        (Function.update s.cur q none q).toList
      rw [ofProc_concat_self, Function.update_self, hc.called, hcur]
      simp
    · show ofProc q s.history = ofProc q (s.returned ++ [(q, x, s.data q)])
      rw [ofProc_concat_self]
      exact hc.served x hcur hserved
  · exact (hd.client q).untouched (hother q hq) (fun _ _ => Iff.rfl) (Function.update_of_ne hq ..) rfl rfl rfl
      (ofProc_concat_of_ne _ _ hq)

theorem Data.step_proc (hd : Data a₀ s) {b : Driver.Virtio.State} {free avail used done : List ℕ}
    (hi : Inv s.base free avail used done) (hs : s.base.step p = some b) (hpb : b.panicked = false) :
    Data a₀ (s.step p b) := by
  obtain ⟨⟨hdev, hhdr, hrep⟩, hother, hcases⟩ := hi.step_cases hs hpb
  have hc := hd.client p
  obtain ⟨w, d0, hpc, hwait, hnew, hreq⟩ | ⟨k, hf, hf', hq⟩ | ⟨k, hpc, hone, hret⟩ | ⟨r, hpc, hnone⟩ := hcases
  · have hfresh : ∀ {h}, b.InFlight p h → h = d0 := fun hf => hf.unique (.inl hwait)
    rw [step_eq (by rw [hpc]; simp)]
    refine hd.advance hdev hother ⟨iff_of_false ?_ ?_, congrFun hhdr p, fun w' hw' => ?_, fun x h hx hf => ?_,
      rfl, rfl, ⟨?_, ?_⟩, rfl, rfl, rfl⟩
    · show b.pc p ≠ none
      rw [hwait]
      simp
    · rw [hpc]
      simp
    · have hw' : b.pc p = some (.submit w') := hw'
      rw [hwait] at hw'
      simp at hw'
    · obtain rfl := hfresh hf
      obtain rfl := hc.submit x w hx hpc
      exact hreq (hc.type x hx)
    · rintro (h | ⟨h, hm, hf⟩)
      · exact .inl (congrFun hrep p ▸ h)
      · exact absurd (hfresh hf ▸ hd.performed h hm) hnew
    · rintro (h | ⟨h, hm, hf⟩)
      · left
        show 0 < b.reported p
        rw [hrep]
        exact h
      · exact absurd hf (not_inFlight_of_submit hpc)
  · have hiff : ∀ {h}, b.InFlight p h ↔ s.base.InFlight p h := by
      intro h
      constructor
      · exact fun hh => hh.unique hf' ▸ hf
      · exact fun hh => hh.unique hf ▸ hf'
    rw [step_eq fun r hr => hf.pc_ne_returned hr]
    refine hd.advance hdev hother ⟨iff_of_false hf'.pc_ne_none hf.pc_ne_none, congrFun hhdr p,
      fun w' hw' => absurd hw' hf'.pc_ne_submit, fun x h hx hh => ?_, rfl, rfl, ?_, rfl, rfl, rfl⟩
    · exact (hc.request x h hx (hiff.mp hh)).frame (by rw [hq]) (by rw [hq]) (congrFun hhdr p)
    · refine or_congr (by rw [hrep]) (exists_congr fun h => and_congr Iff.rfl hiff)
  · have hout : ∀ {h}, ¬ b.InFlight p h := fun hh => hh.pc_ne_returned hret
    rw [step_eq (by rw [hpc]; simp)]
    refine hd.advance hdev hother ⟨iff_of_false ?_ ?_, congrFun hhdr p, fun w' hw' => ?_,
      fun x h hx hh => absurd hh hout, rfl, rfl, iff_of_true (.inl ?_) (.inl (by omega)), rfl, rfl, rfl⟩
    · show b.pc p ≠ none
      rw [hret]
      simp
    · rw [hpc]
      simp
    · have hw' : b.pc p = some (.submit w') := hw'
      rw [hret] at hw'
      simp at hw'
    · show 0 < b.reported p
      rw [hrep]
      omega
  · obtain ⟨x, hx⟩ := hc.exists_cur (by rw [hpc]; simp)
    rw [step_returned hpc hx]
    refine hd.finish hdev hother hnone hx (.inl ?_)
    rw [(hi.returned p r hpc).1]
    omega

/-! ## Steps of the device -/

/-- The request in the device whose data has not been transferred. -/
structure Pending (s : DiskState β) (d p : ℕ) (x : Op β) : Prop where
  flight : s.base.InFlight p d
  cur : s.cur p = some x
  only : ∀ q, s.base.InFlight q d → q = p
  unserved : ¬ Served s p

theorem Data.pending (hd : Data a₀ s) {free avail used done : List ℕ} (hi : Inv s.base free avail used done)
    (hdev : d ∈ s.base.inDevice) (hnew : d ∉ s.performed) : ∃ p x, Pending s d p x := by
  obtain ⟨p, hc⟩ := hi.waiting d (List.mem_append_right _ hdev)
  have hf := hc.inFlight
  obtain ⟨x, hx⟩ := (hd.client p).exists_cur hf.pc_ne_none
  refine ⟨p, x, hf, hx, fun q hq => ?_, ?_⟩
  · exact Option.some.inj ((hi.flight q d hq).2.symm.trans hc.owner)
  · rintro (hrep | ⟨h, hm, hf'⟩)
    · rw [hc.reported] at hrep
      omega
    · exact hnew (hf'.unique hf ▸ hm)

theorem transfer_read (hr : Request s.base p d false) :
    s.transfer d = some { s.record d p (s.disk (s.base.hdr p).sector) with
      data := Function.update s.data p (s.disk (s.base.hdr p).sector) } := by
  have hw := hr.writable
  unfold DiskState.transfer
  dsimp only
  rw [hr.hdr, hr.data]
  exact if_pos ⟨hr.type, hw⟩

theorem transfer_write (hr : Request s.base p d true) :
    s.transfer d = some { s.record d p (s.data p) with
      disk := Function.update s.disk (s.base.hdr p).sector (s.data p) } := by
  have hw : ¬ ((s.base.q.desc (s.base.q.desc d).next).flags &&& descFWrite != 0) = true := by
    rw [hr.writable]
    decide
  unfold DiskState.transfer
  dsimp only
  rw [hr.hdr, hr.data]
  dsimp only
  rw [if_neg fun h => hw h.2]
  exact if_pos ⟨hr.type, hw⟩

theorem transfer_base (ht : s.transfer d = some t) : t.base = s.base ∧ s.history <+: t.history := by
  unfold DiskState.transfer at ht
  dsimp only at ht
  split at ht
  · split_ifs at ht <;> cases ht <;> exact ⟨rfl, List.prefix_append _ _⟩
  · cases ht

/-- A transfer for process `p`, whose Buf then has the data. -/
theorem Data.record (hd : Data a₀ s) (hp : Pending s d p x) (hdev : d ∈ s.base.inDevice)
    (hnew : d ∉ s.performed) {data disk : ℕ → β} {ps : List ℕ} {es : List (ℕ × Op β × β)}
    (hps : ps = d :: s.performed) (hes : es = s.history ++ [(p, x, v)])
    (hother : ∀ q, q ≠ p → data q = s.data q) (hself : data p = v)
    (hbuf : ∀ b w, x = .write b w → v = w) (hlegal : Legal (blocks a₀) es (blocks disk)) :
    Data a₀ { s with data := data, disk := disk, performed := ps, history := es } := by
  subst hps hes
  refine ⟨fun q => ?_, ?_, List.nodup_cons.mpr ⟨hnew, hd.nodup⟩, hlegal⟩
  · by_cases hq : q = p
    · subst hq
      have hc := hd.client q
      refine ⟨hc.idle, hc.type, hc.sector, hc.submit, hc.request, fun b w hy => ?_, hc.called,
        fun y hy _ => ?_, fun hno => ?_⟩
      · exact hself.trans (hbuf b w (Option.some.inj (hp.cur.symm.trans hy)))
      · obtain rfl : x = y := Option.some.inj (hp.cur.symm.trans hy)
        show ofProc q (s.history ++ [(q, x, v)]) = ofProc q s.returned ++ [(x, data q)]
        rw [ofProc_concat_self, hself, hc.unserved fun _ _ => hp.unserved]
      · exact absurd (.inr ⟨d, List.mem_cons_self, hp.flight⟩) (hno x hp.cur)
    · refine (hd.client q).untouched (.of_desc rfl rfl rfl fun _ _ _ _ => rfl) (fun h hf => ?_) rfl
        (hother q hq) rfl (ofProc_concat_of_ne _ _ hq) rfl
      have hne : h ≠ d := by
        rintro rfl
        exact hq (hp.only q hf)
      simp [hne]
  · intro h hh
    obtain rfl | hh := List.mem_cons.mp hh
    · exact hdev
    · exact hd.performed h hh

/-- The device finds the request and transfers its data. -/
theorem Data.transfer (hd : Data a₀ s) {free avail used done : List ℕ}
    (hi : Inv s.base free avail used done) (hdev : d ∈ s.base.inDevice) (hnew : d ∉ s.performed) :
    ∃ t, s.transfer d = some t ∧ Data a₀ t := by
  obtain ⟨p, x, hp⟩ := hd.pending hi hdev hnew
  have hc := hd.client p
  have hr := hc.request x d hp.cur hp.flight
  have hsector := hc.sector x hp.cur
  have hes : ∀ v, s.history ++ (s.cur p).toList.map (fun y => (p, y, v)) = s.history ++ [(p, x, v)] := by
    intro v
    rw [hp.cur]
    rfl
  cases x with
  | read b =>
    refine ⟨_, transfer_read hr, hd.record hp hdev hnew rfl (hes _) (fun q hq => Function.update_of_ne hq ..)
      (Function.update_self ..) (fun _ _ h => by cases h) ?_⟩
    show Legal _ (s.history ++ (s.cur p).toList.map _) _
    rw [hes, hsector, blocks_sector s.disk]
    exact hd.legal.read p b
  | write b w =>
    have hdata : s.data p = w := hc.buffer b w hp.cur
    refine ⟨_, transfer_write hr, hd.record hp hdev hnew rfl (hes _) (fun _ _ => rfl) rfl
      (fun _ _ h => by cases h; exact hdata) ?_⟩
    show Legal _ (s.history ++ (s.cur p).toList.map _) _
    rw [hes, hsector, hdata, blocks_update]
    exact hd.legal.write p b w

/-- The device reports a request whose data it has transferred. -/
theorem Data.report (hd : Data a₀ s) {free avail used done : List ℕ}
    (hi : Inv s.base free avail used done) (hdone : d ∈ s.performed) :
    Data a₀ { s with base := s.base.report d, performed := s.performed.erase d } := by
  obtain ⟨p, hc⟩ := hi.waiting d (List.mem_append_right _ (hd.performed d hdone))
  have hf := hc.inFlight
  have hrep : (s.base.report d).reported = Function.update s.base.reported p (s.base.reported p + 1) := by
    unfold Driver.Virtio.State.report
    dsimp only
    rw [hc.owner]
  have hmem : ∀ h, h ∈ s.performed.erase d ↔ h ≠ d ∧ h ∈ s.performed := fun h => hd.nodup.mem_erase_iff
  refine ⟨fun q => ?_, fun h hh => ?_, hd.nodup.erase d, hd.legal⟩
  · by_cases hq : q = p
    · subst hq
      refine (hd.client q).frame ⟨Iff.rfl, rfl, fun _ h => h, fun x h hx hh => ?_, rfl, rfl,
        iff_of_true (.inl ?_) (.inr ⟨d, hdone, hf⟩), rfl, rfl, rfl⟩
      · exact ((hd.client q).request x h hx hh).frame rfl rfl rfl
      · show 0 < (s.base.report d).reported q
        rw [hrep, Function.update_self]
        omega
    · refine (hd.client q).untouched (.of_desc rfl rfl ?_ fun _ _ _ _ => rfl) (fun h hh => ?_) rfl rfl rfl rfl
        rfl
      · show (s.base.report d).reported q = _
        rw [hrep, Function.update_of_ne hq]
      · have hne : h ≠ d := by
          rintro rfl
          exact hq (Option.some.inj ((hi.flight q h hh).2.symm.trans hc.owner))
        rw [hmem]
        exact and_iff_right hne
  · obtain ⟨hne, hh⟩ := (hmem h).mp hh
    exact (List.mem_erase_of_ne hne).mpr (hd.performed h hh)

/-! ## Runs -/

/-- The driver is in order, and the data is. -/
def InOrder (a₀ : ℕ → β) (s : DiskState β) : Prop := Ordered s.base ∧ Data a₀ s

theorem data_init (a₀ data : ℕ → β) : Data a₀ (init a₀ data) where
  client p := by
    have hout : ∀ {h}, ¬ initState.InFlight p h := by
      rintro h (e | e | e) <;> cases e
    refine ⟨iff_of_true rfl rfl, fun x hx => ?_, fun x hx => ?_, fun x w hx => ?_, fun x h hx => ?_,
      fun b v hx => ?_, rfl, fun x hx => ?_, fun _ => rfl⟩ <;> cases hx
  performed h hh := by cases hh
  nodup := List.nodup_nil
  legal := .nil

theorem ordered_next {b c : Driver.Virtio.State} {y : Action} (ho : Ordered b)
    (h : Driver.Virtio.next b y = some c) (hk : Driver.Virtio.NoKill b y) (hp : c.panicked = false) :
    Ordered c := by
  obtain ⟨hpb, free, avail, used, done, hi⟩ := ho
  obtain h | ⟨hpc, -⟩ := hi.preserved hpb hk h
  · exact h
  · rw [hp] at hpc
    cases hpc

theorem step_base {b : Driver.Virtio.State} : (s.step p b).base = b := by
  unfold DiskState.step
  split <;> rfl

/-- A step without kills keeps the order, unless it PANICs. -/
theorem InOrder.step (hs : InOrder a₀ s) {y : DiskAction β} (hk : NoKill s y) (ht : next s y = some t)
    (hpt : t.base.panicked = false) : InOrder a₀ t := by
  obtain ⟨ho, hd⟩ := hs
  obtain ⟨hp, free, avail, used, done, hi⟩ := id ho
  cases y with
  | call p x stack =>
    obtain ⟨b, hb, rfl⟩ := Option.map_eq_some_iff.mp ht
    refine ⟨ordered_next ho hb trivial hpt, ?_⟩
    unfold Driver.Virtio.next at hb
    rw [hp, if_neg Bool.false_ne_true] at hb
    dsimp only at hb
    split_ifs at hb with hpc
    cases hb
    exact hd.call (Option.isNone_iff_eq_none.mp hpc) stack (begin_spec s.base p x.isDirty x.sector)
  | step p =>
    obtain ⟨b, hb, rfl⟩ := Option.map_eq_some_iff.mp ht
    rw [step_base] at hpt
    refine ⟨by rw [step_base]; exact ordered_next ho hb trivial hpt, ?_⟩
    unfold Driver.Virtio.next at hb
    rw [hp, if_neg Bool.false_ne_true] at hb
    exact hd.step_proc hi hb hpt
  | kill p => exact hk.elim
  | take =>
    obtain ⟨b, hb, rfl⟩ := Option.map_eq_some_iff.mp ht
    refine ⟨ordered_next ho hb trivial hpt, ?_⟩
    unfold Driver.Virtio.next at hb
    rw [hp, if_neg Bool.false_ne_true] at hb
    dsimp only at hb
    split_ifs at hb
    cases hb
    exact hd.quiet (fun _ => .of_desc rfl rfl rfl fun _ _ _ _ => rfl) fun h hh => List.mem_append_left _ hh
  | transfer d =>
    rw [next] at ht
    split_ifs at ht with hcond
    obtain ⟨u, hu, hd'⟩ := hd.transfer hi hcond.2.1 hcond.2.2
    obtain rfl : u = t := Option.some.inj (hu.symm.trans ht)
    refine ⟨?_, hd'⟩
    rw [(transfer_base hu).1]
    exact ho
  | report d =>
    rw [next] at ht
    split_ifs at ht with hdone
    obtain ⟨b, hb, rfl⟩ := Option.map_eq_some_iff.mp ht
    refine ⟨ordered_next ho hb trivial hpt, ?_⟩
    unfold Driver.Virtio.next at hb
    rw [hp, if_neg Bool.false_ne_true] at hb
    dsimp only at hb
    split_ifs at hb
    cases hb
    exact hd.report hi hdone
  | intr =>
    obtain ⟨b, hb, rfl⟩ := Option.map_eq_some_iff.mp ht
    refine ⟨ordered_next ho hb trivial hpt, ?_⟩
    unfold Driver.Virtio.next at hb
    rw [hp, if_neg Bool.false_ne_true] at hb
    have hq := intr_quiet hb
    exact hd.quiet hq.untouched fun h hh => hq.inDevice ▸ hh

/-- Nothing happens after a PANIC. -/
theorem not_panicked_of_next {y : DiskAction β} (ht : next s y = some t) : s.base.panicked = false := by
  have hbase : ∀ {z b}, Driver.Virtio.next s.base z = some b → s.base.panicked = false := by
    intro z b hb
    by_contra hne
    unfold Driver.Virtio.next at hb
    rw [if_pos (by simpa using hne)] at hb
    cases hb
  cases y with
  | transfer d =>
    rw [next] at ht
    split_ifs at ht with hcond
    exact hcond.1
  | report d =>
    rw [next] at ht
    split_ifs at ht
    obtain ⟨b, hb, -⟩ := Option.map_eq_some_iff.mp ht
    exact hbase hb
  | _ =>
    obtain ⟨b, hb, -⟩ := Option.map_eq_some_iff.mp ht
    exact hbase hb

theorem inOrder_of_run {data : ℕ → β} (h : Run next NoKill (init a₀ data) s)
    (hp : s.base.panicked = false) : InOrder a₀ s := by
  refine h.invariant (I := fun s => s.base.panicked = false → InOrder a₀ s)
    (fun _ => ⟨⟨rfl, _, _, _, _, inv_initState⟩, data_init a₀ data⟩) (fun s y t hs hk ht hpt => ?_) hp
  exact (hs (not_panicked_of_next ht)).step hk ht hpt

/-- What has been transferred stays transferred. -/
theorem history_extends {y : DiskAction β} (ht : next s y = some t) : s.history <+: t.history := by
  have hstep : ∀ p b, (s.step p b).history = s.history := by
    intro p b
    unfold DiskState.step
    split <;> rfl
  cases y with
  | transfer d =>
    rw [next] at ht
    split_ifs at ht
    exact (transfer_base ht).2
  | report d =>
    rw [next] at ht
    split_ifs at ht
    obtain ⟨b, -, rfl⟩ := Option.map_eq_some_iff.mp ht
    exact List.prefix_refl _
  | step p =>
    obtain ⟨b, -, rfl⟩ := Option.map_eq_some_iff.mp ht
    rw [hstep]
  | kill p =>
    obtain ⟨b, -, rfl⟩ := Option.map_eq_some_iff.mp ht
    rw [hstep]
  | _ =>
    obtain ⟨b, -, rfl⟩ := Option.map_eq_some_iff.mp ht
    exact List.prefix_refl _

/-- Whatever the processes call and in whatever order the device works, as long as no wait is
    interrupted: the calls take effect one at a time on an array of `2 ^ 32` blocks, each once,
    after it begins and before it returns, and a call that has read returns what it read then. The
    device never finds anything but a request. -/
theorem block_device_linearizable {disk data : ℕ → β} (h : Run next NoKill (init disk data) s)
    (h' : Run next NoKill s t) (hp : t.base.panicked = false) :
    s.history <+: t.history ∧ Legal (blocks disk) t.history (blocks t.disk) ∧
      (∀ p, ofProc p t.called = (ofProc p t.returned).map Prod.fst ++ (t.cur p).toList) ∧
      (∀ p, ofProc p t.history = ofProc p t.returned ∨ ∃ x v, t.cur p = some x ∧
        ofProc p t.history = ofProc p t.returned ++ [(x, v)]) ∧
      ∀ d ∈ t.base.inDevice, d ∉ t.performed → (t.transfer d).isSome := by
  obtain ⟨⟨-, free, avail, used, done, hi⟩, hd⟩ := inOrder_of_run (h.trans h') hp
  refine ⟨?_, hd.legal, fun p => (hd.client p).called, fun p => ?_, fun d hdev hnew => ?_⟩
  · refine h'.invariant (I := fun u => s.history <+: u.history) (List.prefix_refl _) ?_
    exact fun _ _ _ hu _ hs => hu.trans (history_extends hs)
  · have hc := hd.client p
    by_cases hserved : ∃ x, t.cur p = some x ∧ Served t p
    · obtain ⟨x, hx, hs⟩ := hserved
      exact .inr ⟨x, _, hx, hc.served x hx hs⟩
    · exact .inl (hc.unserved fun x hx hs => hserved ⟨x, hx, hs⟩)
  · obtain ⟨u, hu, -⟩ := hd.transfer hi hdev hnew
    exact Option.isSome_of_mem hu

/-- A write and a read of the same block; the device works on the later one first. -/
theorem block_device_linearizable_two : ∃ s : DiskState ℕ,
    Run next NoKill (init (fun _ => 0) fun _ => 9) s ∧ Legal (blocks fun _ => 0) s.history (blocks s.disk) ∧
      s.history = [(1, .read 5, 0), (0, .write 5 7, 7)] ∧
      s.returned = [(0, .write 5 7, 7), (1, .read 5, 0)] := by
  have hexec : (execIf next NoKill (init (fun _ => 0) fun _ => 9 : DiskState ℕ)
      [.call 0 (.write 5 7) 9, .call 1 (.read 5) 9, .step 0, .step 1, .step 0, .step 1, .take, .take, .transfer 3,
        .transfer 0, .report 0, .report 3, .intr, .step 0, .step 0, .step 0, .step 1, .step 1, .step 1]).map
      (fun s => decide (s.base.panicked = false ∧ s.history = [(1, .read 5, 0), (0, .write 5 7, 7)] ∧
        s.returned = [(0, .write 5 7, 7), (1, .read 5, 0)])) = some true := by
    decide +kernel
  obtain ⟨s, hrun, hs⟩ := Run.of_execIf_map hexec
  obtain ⟨hp, hhist, hret⟩ := of_decide_eq_true hs
  exact ⟨s, hrun, (block_device_linearizable hrun Run.refl hp).2.1, hhist, hret⟩

end ShikiOS.Fs.Device
