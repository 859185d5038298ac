import ShikiOS.Fs.InodeMap

/-!
# `inode_write` (`fs/inode.c`, lines 366-407)

`inode_write` walks over the parts of a file and copies a piece of the source into the block
of each.

Results:
* `At.wp_inodeWriteLoop`: the loop, for a source that fits into the file and any cost `m` that
  suffices for the parts it visits.
* `At.wp_inodeWrite`: the whole of `inode_write`.
-/

namespace ShikiOS.Fs.Inodes

open ShikiOS.Lib Bcache

variable {sb : SuperBlock} {k : Op} {σ τ : ℕ → BlockData} {F : List ℕ} {L : Finset ℕ}
  {A : List ℕ} {e : InodeEntry} {s : FsState} {m n N off stop : ℕ} {src : List UInt8}

/-- The number of parts of a file that `n` bytes at `off` are in. -/
def numParts (off n : ℕ) : ℕ := (off % blockSize + n + blockSize - 1) / blockSize

section Rules

variable (hl : sb.Layout) (hno : k.no < sb.numInodes) (hv : k.inode.valid = true)
include hl hno

/-- The content of a block of the file changes. -/
theorem FileAt.write (hf : FileAt sb k σ F e) {x : ℕ} (h0 : part sb σ k.no x ≠ 0) (d : BlockData) :
    FileAt sb k (Function.update σ (part sb σ k.no x) d) F e := by
  have hdata : sb.IsData (part sb σ k.no x) := hf.owns.data _ _ h0
  refine ⟨hf.owns.write hl (fileSlot_ne_indirect x) h0, ?_, hf.type⟩
  rw [diskEntry, Function.update_of_ne (toBlockNo_ne_of_isData hl hno hdata).symm]
  exact hf.disk

include hv

/-- The rule of lines 380-384. -/
theorem At.wp_growTo (h : At sb k σ [] L A e s) (hf : FileAt sb k σ F e) (hw : Within sb k n σ L)
    (hN : n + 3 ≤ N) (hstop : stop ≤ inodeMaxBytes) {Q : Unit → FsState → Prop}
    (hq : ∀ τ e' L' t, At sb k τ [] L' A e' t → FileAt sb k τ F e' → SameHead e e' →
      e'.numBytes.toNat = max e.numBytes.toNat stop → Wrote sb σ τ k.no off [] →
      Within sb k n τ L' → Q () t) :
    wp (growTo sb (some k.ctx) k.p stop) Q (fun stop _ => Exhausted k.rm N stop) s := by
  have hsize : inodeMaxBytes = 71680 := rfl
  unfold growTo
  rw [wp_bind, wp_deref h.deref]
  dsimp only
  split_ifs with hlt
  · have hto : (UInt32.ofNat stop).toNat = stop := by
      rw [UInt32.toNat_ofNat', Nat.mod_eq_of_lt (by omega)]
    rw [wp_bind]
    refine h.wp_modifyEntry fun s1 h1 => ?_
    have hsame : (diskEntry sb σ k.no).type = ({ e with numBytes := UInt32.ofNat stop } :
        InodeEntry).type := by rw [hf.disk]
    have hwrote : Wrote sb σ (setEntry sb σ k.no { e with numBytes := UInt32.ofNat stop }) k.no off [] :=
      hf.owns.wrote_resize hl hno hsame (by rw [hf.disk]) (by rw [hf.disk]) off
    have hwith := (hw.wrote hwrote).insert_home
    refine h1.wp_inodeSync hl hno hv List.not_mem_nil (hwith.card_le.trans hN) fun s2 h2 => ?_
    refine hq _ _ _ s2 h2 ⟨hf.owns.resize hl hno hsame (by rw [hf.disk]) (by rw [hf.disk]),
      diskEntry_setEntry_self, hf.type⟩ ⟨rfl, rfl, rfl, rfl⟩ ?_ hwrote hwith
    rw [max_eq_right hlt.le]
    exact hto
  · rw [wp_pure]
    exact hq σ e L s h hf (SameHead.refl e) (max_eq_left (not_lt.mp hlt)).symm
      (Wrote.refl sb σ k.no off) hw

variable (hcap : sb.numBlocks ≤ 2 ^ 32)
include hcap

/-- The rule of the loop of `inode_write`. -/
theorem At.wp_inodeWriteLoop {fuel : ℕ} {first : Bool} (h : At sb k σ [] L A e s)
    (hf : FileAt sb k σ F e) (hw : Within sb k n σ L) (hfuel : src.length ≤ fuel)
    (hfirst : first = false → src ≠ [] → off % blockSize = 0)
    (hmax : off + src.length ≤ inodeMaxBytes)
    (hm : src ≠ [] → 2 * numParts off src.length ≤
      m + if part sb σ k.no (off / blockSize) = 0 then 0 else 1)
    (hN : n + m + 3 ≤ N) {Q : Unit → FsState → Prop}
    (hq : ∀ τ e' L' new t, At sb k τ [] L' (new ++ A) e' t → FileAt sb k τ (new ++ F) e' →
      SameHead e e' → e'.numBytes = e.numBytes → Wrote sb σ τ k.no off src → Within sb k (n + m) τ L' → Q () t) :
    wp (inodeWriteLoop sb (some k.ctx) k.p fuel first src off) Q
      (fun stop _ => Exhausted k.rm N stop) s := by
  induction fuel generalizing σ e L A F s n m off src first Q with
  | zero =>
    obtain rfl : src = [] := List.length_eq_zero_iff.mp (Nat.le_zero.mp hfuel)
    exact wp_pure.mpr (hq σ e L [] s h hf (SameHead.refl e) rfl (Wrote.refl sb σ k.no off)
      (hw.mono (Nat.le_add_right n m)))
  | succ fuel ih =>
    unfold inodeWriteLoop
    by_cases hsrc : src = []
    · subst hsrc
      rw [if_pos rfl]
      exact wp_pure.mpr (hq σ e L [] s h hf (SameHead.refl e) rfl (Wrote.refl sb σ k.no off)
        (hw.mono (Nat.le_add_right n m)))
    rw [if_neg hsrc]
    have hstart : (if first = true then off % blockSize else 0) = off % blockSize := by
      cases first with
      | true => rfl
      | false => exact (hfirst rfl hsrc).symm
    have hpos := List.length_pos_iff.mpr hsrc
    have hmod : off % blockSize < blockSize := Nat.mod_lt _ (by decide)
    have hx : off / blockSize < inodeNumParts := div_blockSize_lt (by omega)
    -- the cost of this round, and what is left for the others
    obtain ⟨c, hc⟩ : ∃ c, c = if part sb σ k.no (off / blockSize) = 0 then 2 else 1 := ⟨_, rfl⟩
    have hcost : c ≤ m ∧ 2 * numParts off src.length ≤ m - c + 2 := by
      have hm' := hm hsrc
      have hparts : 1 ≤ numParts off src.length := by
        unfold numParts blockSize
        omega
      rw [hc]
      split_ifs at hm' ⊢ <;> omega
    simp only [wp_bind]
    refine h.wp_inodeMap hl hno hcap hv hf hx hw hc.symm.le (by omega)
      fun τ b e1 L1 new s1 h1 hf1 hhead hbytes (hwrote : Wrote sb σ τ k.no off []) hpart hb0
        hwith => ?_
    have hdata : sb.IsData b := by
      rw [← hpart] at hb0 ⊢
      exact hf1.owns.data _ _ hb0
    refine h1.wp_acquire (hl.not_inLog_of_isData hdata) List.not_mem_nil fun s2 h2 => h2.wp_read ?_
    rw [hstart]
    generalize hcnt : min (blockSize - off % blockSize) src.length = cnt
    refine h2.wp_write fun s3 h3 => h3.wp_syncRelease (hwith.card_le.trans (by omega)) fun s4 h4 => ?_
    have hlen : (src.take cnt).length = cnt := by
      rw [List.length_take]
      omega
    subst hpart
    have hcopy := hf1.owns.wrote_copy hl hb0 (by omega)
      (show off % blockSize + (src.take cnt).length ≤ blockSize by omega)
    have hdrop : (src.drop cnt).length = src.length - cnt := List.length_drop
    -- behind a part that is not the last one the offset is aligned
    have halign : src.drop cnt ≠ [] → cnt = blockSize - off % blockSize ∧
        (off + cnt) % blockSize = 0 := by
      intro hne
      have := List.length_pos_iff.mpr hne
      unfold blockSize at hcnt hmod ⊢
      omega
    refine ih h4 (hf1.write hl hno hb0 _) (hwith.wrote hcopy) (m := m - c) (by omega)
      (fun _ hne => (halign hne).2) (by omega) (fun hne => ?_) (by omega)
      fun υ e2 L2 new2 t ht hf2 hhead2 hbytes2 hwrote2 hwith2 => ?_
    · obtain ⟨hfull, haligned⟩ := halign hne
      have hparts : numParts (off + cnt) (src.drop cnt).length + 1 = numParts off src.length := by
        have := List.length_pos_iff.mpr hne
        unfold numParts
        rw [haligned, hdrop, hfull]
        unfold blockSize at hmod ⊢
        omega
      omega
    · have hall := (hwrote.trans hcopy (by rw [List.length_nil]; omega)).trans (by rwa [List.nil_append, hlen])
        (by rw [List.nil_append, hlen]; omega)
      rw [List.nil_append, List.take_append_drop] at hall
      rw [show n + c + (m - c) = n + m by omega] at hwith2
      rw [← List.append_assoc] at ht hf2
      exact hq υ e2 L2 (new2 ++ new) t ht hf2 (hhead.trans hhead2) (hbytes2.trans hbytes) hall hwith2

/-- The rule of `inode_write`. -/
theorem At.wp_inodeWrite (h : At sb k σ [] L A e s) (hf : FileAt sb k σ F e)
    (hw : Within sb k n σ L) (htype : e.type ≠ inodeDevice) (hoff : off ≤ e.numBytes.toNat)
    (hmax : off + src.length ≤ inodeMaxBytes)
    (hm : src ≠ [] → 2 * numParts off src.length ≤
      m + if part sb σ k.no (off / blockSize) = 0 then 0 else 1)
    (hN : n + m + 3 ≤ N) {Q : ℕ → FsState → Prop}
    (hq : ∀ τ e' L' new t, At sb k τ [] L' (new ++ A) e' t → FileAt sb k τ (new ++ F) e' →
      SameHead e e' → e'.numBytes.toNat = max e.numBytes.toNat (off + src.length) →
      Wrote sb σ τ k.no off src → Within sb k (n + m) τ L' → Q src.length t) :
    wp (inodeWrite sb (some k.ctx) k.p src off) Q (fun stop _ => Exhausted k.rm N stop) s := by
  have hsize : inodeMaxBytes = 71680 := rfl
  have hstop : usize (off + src.length) = off + src.length := Nat.mod_eq_of_lt (by omega)
  unfold inodeWrite
  rw [wp_bind, wp_deref h.deref]
  dsimp only
  rw [if_neg htype, hstop, if_pos ⟨hoff, hmax, Nat.le_add_right off _⟩]
  simp only [wp_bind]
  refine h.wp_growTo hl hno hv hf hw (by omega) hmax
    fun τ e1 L1 s1 h1 hf1 hhead1 hbytes1 (hwrote1 : Wrote sb σ τ k.no off []) hwith1 => ?_
  refine h1.wp_inodeWriteLoop hl hno hv hcap hf1 hwith1 le_rfl (fun hc _ => absurd hc (by decide)) hmax
    (fun hne => (hm hne).trans ?_) hN
    fun υ e2 L2 new s2 h2 hf2 hhead2 hbytes2 hwrote2 hwith2 => ?_
  · by_cases h0 : part sb σ k.no (off / blockSize) = 0
    · rw [if_pos h0]
      omega
    · rw [if_neg h0, if_neg (hwrote1.part_ne h0).2]
  · refine h2.wp_growTo hl hno hv hf2 hwith2 hN hmax
      fun φ e3 L3 s3 h3 hf3 hhead3 hbytes3
        (hwrote3 : Wrote sb υ φ k.no (off + src.length) []) hwith3 => wp_pure.mpr ?_
    have hall := (hwrote1.trans hwrote2 (by rw [List.length_nil]; omega)).trans hwrote3 hmax
    rw [List.append_nil] at hall
    refine hq φ e3 L3 new s3 h3 hf3 (hhead1.trans (hhead2.trans hhead3)) ?_ hall hwith3
    rw [hbytes3, hbytes2, hbytes1, max_assoc, max_self]

end Rules

end ShikiOS.Fs.Inodes
