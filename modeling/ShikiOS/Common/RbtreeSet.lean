import ShikiOS.Common.RbtreeErase
import ShikiOS.Common.RbtreeInsert
import ShikiOS.Lib.Run

/-!
# A red-black tree is a sorted set (`common/rbtree.c`)

Runs of calls of the four functions from an empty root. `members` are the nodes inserted and not
erased: a call of `_rb_insert` that returns 0 adds its node, a call of `_rb_erase` removes its own.

Results:
* `rbLookup_spec`, `rbFirst_spec`: what the searches find.
* `Call.exec_spec`: every call returns, as the call on a sorted set does, and keeps the invariant.
* `tree_is_sorted_set`: so it is in every run.
-/

namespace ShikiOS.Common.Rb

open ShikiOS.Lib ShikiOS.Lib.RedBlack RbTree

variable {α : Type} {h : Heap α} {t : RbTree α} {p : Option α} {a b : α} {cmp : α → α → Bool}
  {fuel : ℕ}

/-! ## Searches -/

theorem lookupLoop_spec [IsStrictOrder α (Less cmp)] (hr : Rep h p t) (hs : Sorted (Less cmp) t)
    (hfuel : t.inorder.length ≤ fuel) :
    (∃ b ∈ t.inorder, h.lookupLoop cmp a fuel t.root = .ok (some b) ∧
        IncompRel (Less cmp) a b) ∨
      h.lookupLoop cmp a fuel t.root = .ok none ∧ ∀ b ∈ t.inorder, ¬ IncompRel (Less cmp) a b := by
  induction t generalizing p fuel with
  | leaf =>
    refine .inr ⟨?_, nofun⟩
    cases fuel <;> rfl
  | node c l y r ihl ihr =>
    have hlen : (node c l y r).inorder.length = l.inorder.length + (r.inorder.length + 1) := by
      rw [RbTree.inorder, List.length_append, List.length_cons]
    obtain ⟨fuel, rfl⟩ := Nat.exists_eq_add_of_le' (show 1 ≤ fuel by omega)
    obtain ⟨-, -, hl, hrr, hrl, hrr'⟩ := hr
    have hsl : Sorted (Less cmp) l := (List.pairwise_append.mp hs).1
    have hsr : Sorted (Less cmp) r := (List.pairwise_cons.mp (List.pairwise_append.mp hs).2.1).2
    have hfl : l.inorder.length ≤ fuel := by omega
    have hfr : r.inorder.length ≤ fuel := by omega
    show (∃ b ∈ _, h.lookupLoop cmp a (fuel + 1) (some y) = _ ∧ _) ∨
      h.lookupLoop cmp a (fuel + 1) (some y) = _ ∧ _
    rw [Heap.lookupLoop, hl, hrr]
    split_ifs with hay hya
    · rcases ihl hrl hsl hfl with ⟨b, hb, hout, hinc⟩ | ⟨hout, hnone⟩
      · exact .inl ⟨b, List.mem_append_left _ hb, hout, hinc⟩
      · refine .inr ⟨hout, fun x hx hinc => ?_⟩
        rcases List.mem_append.mp hx with hx | hx
        · exact hnone x hx hinc
        rcases List.mem_cons.mp hx with rfl | hx
        · exact hinc.1 hay
        · exact hinc.1 (IsTrans.trans a y x hay (hs.lt_right hx))
    · rcases ihr hrr' hsr hfr with ⟨b, hb, hout, hinc⟩ | ⟨hout, hnone⟩
      · exact .inl ⟨b, List.mem_append_right _ (List.mem_cons_of_mem _ hb), hout, hinc⟩
      · refine .inr ⟨hout, fun x hx hinc => ?_⟩
        rcases List.mem_append.mp hx with hx | hx
        · exact hinc.2 (IsTrans.trans x y a (hs.lt_left hx) hya)
        rcases List.mem_cons.mp hx with rfl | hx
        · exact hinc.2 hya
        · exact hnone x hx hinc
    · exact .inl ⟨y, List.mem_append_right _ List.mem_cons_self, rfl, hay, hya⟩

theorem firstLoop_spec (hr : Rep h p t) (hs : Sorted (Less cmp) t) (ha : t.root = some a)
    (hfuel : t.inorder.length ≤ fuel) :
    ∃ b ∈ t.inorder, h.firstLoop fuel a = .ok b ∧ ∀ x ∈ t.inorder, x ≠ b → Less cmp b x := by
  induction t generalizing p fuel a with
  | leaf => cases ha
  | node c l y r ihl =>
    cases ha
    have hlen : (node c l y r).inorder.length = l.inorder.length + (r.inorder.length + 1) := by
      rw [RbTree.inorder, List.length_append, List.length_cons]
    obtain ⟨fuel, rfl⟩ := Nat.exists_eq_add_of_le' (show 1 ≤ fuel by omega)
    obtain ⟨-, -, hl, -, hrl, -⟩ := hr
    cases l with
    | leaf =>
      refine ⟨y, List.mem_cons_self, ?_, fun x hx hne => ?_⟩
      · rw [Heap.firstLoop, hl]
        rfl
      · rcases List.mem_cons.mp hx with rfl | hx
        · exact absurd rfl hne
        · exact hs.lt_right hx
    | node cl ll z lr =>
      have hsl : Sorted (Less cmp) (node cl ll z lr) := (List.pairwise_append.mp hs).1
      have hfuel' : (node cl ll z lr).inorder.length ≤ fuel := by omega
      obtain ⟨b, hb, hout, hleast⟩ := ihl hrl hsl rfl hfuel'
      refine ⟨b, List.mem_append_left _ hb, ?_, fun x hx hne => ?_⟩
      · rw [Heap.firstLoop, hl]
        exact hout
      · rcases List.mem_append.mp hx with hx | hx
        · exact hleast x hx hne
        · exact (List.pairwise_append.mp hs).2.2 b hb x hx

/-! ## Calls -/

inductive Call (α : Type)
  | insert (a : α)
  | erase (a : α)
  | lookup (a : α)
  | first
deriving Repr

/-- What a call returns. -/
inductive Ret (α : Type)
  | int (r : ℤ)
  | void
  | node (p : Option α)
deriving DecidableEq, Repr

variable [DecidableEq α]

/-- A call with the bound `fuel` on the rounds of each loop. -/
def Call.exec (cmp : α → α → Bool) (fuel : ℕ) (h : Heap α) : Call α → Except Fault (Ret α × Heap α)
  | insert a => do
    let (r, h) ← h.rbInsert cmp fuel a
    return (.int r, h)
  | erase a => do return (.void, ← h.rbErase fuel a)
  | lookup a => do return (.node (← h.rbLookup cmp fuel a), h)
  | first => do return (.node (← h.rbFirst fuel), h)

/-- The memory, and the nodes inserted and not erased. -/
structure State (α : Type) where
  heap : Heap α
  members : Finset α

/-- The nodes inserted and not erased, after a call that returned `r`. -/
def record (S : Finset α) : Call α → Ret α → Finset α
  | .insert a, .int 0 => insert a S
  | .erase a, _ => S.erase a
  | _, _ => S

/-- A node that is inserted is not in the tree, one that is erased is. The loops may take one
    round for each node. -/
def Allowed (s : State α) (c : Call α × ℕ) : Prop :=
  s.members.card < c.2 ∧
    match c.1 with
    | .insert a => a ∉ s.members
    | .erase a => a ∈ s.members
    | .lookup _ => True
    | .first => True

instance (s : State α) (c : Call α × ℕ) : Decidable (Allowed s c) := by
  rcases c with ⟨_ | _ | _ | _, fuel⟩ <;> exact inferInstanceAs (Decidable (_ ∧ _))

def next (cmp : α → α → Bool) (s : State α) (c : Call α × ℕ) : Option (State α) :=
  match c.1.exec cmp c.2 s.heap with
  | .ok (r, h) => some ⟨h, record s.members c.1 r⟩
  | .error _ => none

/-! ## What the calls do -/

/-- The memory holds a sorted and balanced tree of the members. -/
def Represents (cmp : α → α → Bool) (s : State α) : Prop :=
  ∃ t, IsTree cmp s.heap t ∧ ∀ a, a ∈ t.inorder ↔ a ∈ s.members

/-- What the call returns, and what it leaves as it was. -/
def Meets (cmp : α → α → Bool) (s : State α) (r : Ret α) (h : Heap α) : Call α → Prop
  | .insert a =>
    (r = .int (-1) ∧ (∃ b ∈ s.members, IncompRel (Less cmp) a b) ∧ h.root = s.heap.root ∧
        ∀ b ∈ s.members, SameNode s.heap h b) ∨
      (r = .int 0 ∧ ∀ b ∈ s.members, ¬ IncompRel (Less cmp) a b)
  | .erase _ => r = .void
  | .lookup a => h = s.heap ∧
    ((∃ b ∈ s.members, r = .node (some b) ∧ IncompRel (Less cmp) a b ∧
        ∀ x ∈ s.members, IncompRel (Less cmp) a x → x = b) ∨
      (r = .node none ∧ ∀ b ∈ s.members, ¬ IncompRel (Less cmp) a b))
  | .first => h = s.heap ∧
    ((∃ b ∈ s.members, r = .node (some b) ∧ ∀ x ∈ s.members, x ≠ b → Less cmp b x) ∨
      (r = .node none ∧ s.members = ∅))

/-- The members that are equivalent to a node are one at most. -/
theorem incompRel_unique [IsStrictWeakOrder α (Less cmp)] (hs : Sorted (Less cmp) t)
    (ha : a ∈ t.inorder) (hb : b ∈ t.inorder) {x : α} (hxa : IncompRel (Less cmp) x a)
    (hxb : IncompRel (Less cmp) x b) : b = a := by
  have hab : IncompRel (Less cmp) a b :=
    IsStrictWeakOrder.incomp_trans a x b ⟨hxa.2, hxa.1⟩ hxb
  by_contra hne
  have hcmp : t.inorder.Pairwise fun x y => Less cmp x y ∨ Less cmp y x := hs.imp Or.inl
  have : Std.Symm fun x y => Less cmp x y ∨ Less cmp y x := ⟨fun _ _ => Or.symm⟩
  rcases hcmp.forall ha hb (Ne.symm hne) with h | h
  · exact hab.1 h
  · exact hab.2 h

/-- Every call that is allowed returns, does what it does on the set of the members, and leaves a
    tree of the new members. -/
theorem Call.exec_spec [IsStrictWeakOrder α (Less cmp)] {s : State α} {c : Call α × ℕ}
    (hs : Represents cmp s) (hc : Allowed s c) :
    ∃ r h, c.1.exec cmp c.2 s.heap = .ok (r, h) ∧ Meets cmp s r h c.1 ∧
      Represents cmp ⟨h, record s.members c.1 r⟩ := by
  obtain ⟨c, fuel⟩ := c
  obtain ⟨t, ht, hmem⟩ := hs
  obtain ⟨hfuel, hc⟩ := hc
  have hcard : t.inorder.length = s.members.card := by
    rw [← List.toFinset_card_of_nodup (nodup_of_sorted ht.sorted)]
    congr 1
    ext a
    rw [List.mem_toFinset, hmem]
  rw [← hcard] at hfuel
  have hroot : s.heap.root = t.root := ht.rep.path
  cases c with
  | insert a =>
    have ha : a ∉ t.inorder := fun hcon => hc ((hmem a).mp hcon)
    rcases rbInsert_spec ht ha hfuel with ⟨hout, b, hb, hinc⟩ | ⟨h, t', hout, hnone, ht', hmem'⟩
    · refine ⟨.int (-1), s.heap.clearNode a, ?_, .inl ⟨rfl, ⟨b, (hmem b).mp hb, hinc⟩, rfl, ?_⟩, t,
        ⟨clearNode_repAt ht.rep ha, ht.sorted, ht.black, ht.bal⟩, hmem⟩
      · simp only [Call.exec, hout, bind, Except.bind, pure, Except.pure]
      · intro x hx
        have hxa : x ≠ a := fun heq => hc (heq ▸ hx)
        exact ((sameNode_setChild hxa).trans (sameNode_setChild hxa)).trans
          (sameNode_setParentColor hxa)
    · refine ⟨.int 0, h, ?_, .inr ⟨rfl, fun b hb => hnone b ((hmem b).mpr hb)⟩, t', ht', ?_⟩
      · simp only [Call.exec, hout, bind, Except.bind, pure, Except.pure]
      · intro x
        rw [hmem', hmem]
        exact Finset.mem_insert.symm
  | erase a =>
    obtain ⟨h, t', hout, ht', hmem'⟩ := rbErase_spec ht ((hmem a).mpr hc) hfuel.le
    refine ⟨.void, h, ?_, rfl, t', ht', ?_⟩
    · simp only [Call.exec, hout, bind, Except.bind, pure, Except.pure]
    · intro x
      rw [hmem', hmem]
      exact Finset.mem_erase.symm
  | lookup a =>
    rcases lookupLoop_spec (a := a) ht.rep.sub ht.sorted hfuel.le with
      ⟨b, hb, hout, hinc⟩ | ⟨hout, hnone⟩
    · refine ⟨.node (some b), s.heap, ?_, ⟨rfl, .inl ⟨b, (hmem b).mp hb, rfl, hinc, ?_⟩⟩, t, ht,
        hmem⟩
      · simp only [Call.exec, Heap.rbLookup, hroot, hout, bind, Except.bind, pure, Except.pure]
      · exact fun x hx hincx => incompRel_unique ht.sorted hb ((hmem x).mpr hx) hinc hincx
    · refine ⟨.node none, s.heap, ?_, ⟨rfl, .inr ⟨rfl, fun b hb => hnone b ((hmem b).mpr hb)⟩⟩, t,
        ht, hmem⟩
      simp only [Call.exec, Heap.rbLookup, hroot, hout, bind, Except.bind, pure, Except.pure]
  | first =>
    obtain rfl | ⟨c, l, b, r, rfl⟩ := eq_mk .left t
    · refine ⟨.node none, s.heap, ?_, ⟨rfl, .inr ⟨rfl, ?_⟩⟩, .leaf, ht, hmem⟩
      · simp only [Call.exec, Heap.rbFirst, hroot, root_leaf, bind, Except.bind, pure, Except.pure]
      · exact Finset.card_eq_zero.mp hcard.symm
    · obtain ⟨x, hx, hout, hleast⟩ := firstLoop_spec ht.rep.sub ht.sorted root_mk hfuel.le
      refine ⟨.node (some x), s.heap, ?_, ⟨rfl, .inl ⟨x, (hmem x).mp hx, rfl, ?_⟩⟩, _, ht, hmem⟩
      · simp only [Call.exec, Heap.rbFirst, hroot, root_mk, hout, bind, Except.bind, pure,
          Except.pure, Functor.map, Except.map]
      · exact fun y hy hne => hleast y ((hmem y).mpr hy) hne

omit [DecidableEq α] in
theorem represents_start (hroot : h.root = none) : Represents cmp ⟨h, ∅⟩ :=
  ⟨.leaf, ⟨⟨hroot, trivial⟩, List.Pairwise.nil, rfl, 0, rfl⟩, fun a => by simp⟩

theorem Represents.next [IsStrictWeakOrder α (Less cmp)] {s s' : State α} {c : Call α × ℕ}
    (hs : Represents cmp s) (hc : Allowed s c) (hn : next cmp s c = some s') :
    Represents cmp s' := by
  obtain ⟨r, h, hout, -, hs'⟩ := Call.exec_spec hs hc
  rw [Rb.next, hout] at hn
  cases hn
  exact hs'

/-- In every run from the empty root the tree is the sorted set of the nodes inserted and not
    erased, and every call does what it does on that set. -/
theorem tree_is_sorted_set [IsStrictWeakOrder α (Less cmp)] (hroot : h.root = none) (s : State α)
    (hrun : Run (next cmp) Allowed ⟨h, ∅⟩ s) :
    Represents cmp s ∧ ∀ c, Allowed s c →
      ∃ r h', c.1.exec cmp c.2 s.heap = .ok (r, h') ∧ Meets cmp s r h' c.1 ∧
        Represents cmp ⟨h', record s.members c.1 r⟩ := by
  have hs : Represents cmp s :=
    hrun.invariant (represents_start hroot) fun _ _ _ hs hc hn => hs.next hc hn
  exact ⟨hs, fun c hc => Call.exec_spec hs hc⟩

/-- The nodes `2 * k` and `2 * k + 1` have the key `k`. -/
def keyCmp (a b : ℕ) : Bool := a / 2 < b / 2

instance : IsStrictWeakOrder ℕ (Less keyCmp) where
  irrefl a h := by simp [Less, keyCmp] at h
  trans a b c hab hbc := by
    simp only [Less, keyCmp, decide_eq_true_eq] at hab hbc ⊢
    omega
  incomp_trans a b c hab hbc := by
    simp only [Less, keyCmp, decide_eq_true_eq] at hab hbc ⊢
    omega

/-- Six nodes are inserted, of which one is equivalent to another, and two are erased. The next
    call looks for a node with the key of 14. -/
theorem tree_is_sorted_set_keys : ∃ s r h', Run (next keyCmp) Allowed
      ⟨⟨fun _ => none, fun _ => .red, fun _ _ => none, none⟩, ∅⟩ s ∧ s.members = {2, 15, 16} ∧
    Represents keyCmp s ∧ (Call.lookup 14).exec keyCmp 4 s.heap = .ok (r, h') ∧
    Meets keyCmp s r h' (.lookup 14) := by
  have hexec : (execIf (next keyCmp) Allowed
      ⟨⟨fun _ => none, fun _ => .red, fun _ _ => none, none⟩, ∅⟩
      [(.insert 4, 9), (.insert 2, 9), (.insert 8, 9), (.insert 5, 9), (.insert 16, 9),
        (.insert 15, 9), (.erase 8, 9), (.erase 4, 9)]).map State.members = some {2, 15, 16} := by
    decide +kernel
  obtain ⟨s, hrun, hs⟩ := Run.of_execIf_map hexec
  obtain ⟨hrep, hcalls⟩ := tree_is_sorted_set rfl s hrun
  obtain ⟨r, h', hout, hmeets, -⟩ := hcalls (.lookup 14, 4) ⟨by rw [hs]; decide, trivial⟩
  exact ⟨s, r, h', hrun, hs, hrep, hout, hmeets⟩

end ShikiOS.Common.Rb
