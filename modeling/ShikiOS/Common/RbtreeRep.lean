import ShikiOS.Common.Rbtree

/-!
# What the memory says about a tree

`Rep h p t` says that the fields of the nodes of `t` are those of the tree `t` below `p`, and
`RepPath` says the same about a path. The whole tree is a subtree with its path: `RepAt`.

Results:
* `rep_setChild`, `rep_setParentColor`, ...: a write to a node outside changes nothing.
* `Rep.setParentColorIf`, `Rep.setParentIf`: a subtree gets a new parent.
* `RepPath.changeChild`, `rotateSetParents_spec`: the two writes that change where the path leads.
-/

namespace ShikiOS.Common.Rb

open ShikiOS.Lib.RedBlack RbTree

variable {α : Type}

/-- The fields of the nodes of a subtree whose root has the parent `p`. -/
def Rep (h : Heap α) : Option α → RbTree α → Prop
  | _, .leaf => True
  | p, .node c l a r => h.parent a = p ∧ h.color a = c ∧ h.child .left a = l.root ∧
      h.child .right a = r.root ∧ Rep h (some a) l ∧ Rep h (some a) r

/-- The fields of the nodes of a path that leads down to `p`. -/
def RepPath (h : Heap α) : Option α → Path α → Prop
  | p, [] => h.root = p
  | p, f :: k => h.parent f.node = top k ∧ h.color f.node = f.color ∧
      h.child f.side f.node = p ∧ h.child f.side.other f.node = f.sibling.root ∧
      Rep h (some f.node) f.sibling ∧ RepPath h (some f.node) k

/-- The tree is the subtree `t` in its place at the end of the path `k`. -/
structure RepAt (h : Heap α) (k : Path α) (t : RbTree α) : Prop where
  path : RepPath h t.root k
  sub : Rep h (top k) t

/-- The order that the comparison function `cmp` computes. -/
abbrev Less (cmp : α → α → Bool) (a b : α) : Prop := cmp a b = true

/-- The tree in memory, sorted and balanced. -/
structure IsTree (cmp : α → α → Bool) (h : Heap α) (t : RbTree α) : Prop where
  rep : RepAt h [] t
  sorted : Sorted (Less cmp) t
  black : t.color = .black
  bal : ∃ n, Bal n t

/-- The tree in memory, in whatever order: the fields are those of a tree with a black root,
    no red child of a red node and as many black nodes on every way down. -/
structure IsRedBlack (h : Heap α) (t : RbTree α) : Prop where
  rep : RepAt h [] t
  nodup : t.inorder.Nodup
  black : t.color = .black
  bal : ∃ n, Bal n t

variable {h h' : Heap α} {p q : Option α} {t u v : RbTree α} {k : Path α} {d e : Side}
  {c c' : Color} {a b : α}

theorem IsTree.isRedBlack {cmp : α → α → Bool} [IsStrictOrder α (Less cmp)]
    (ht : IsTree cmp h t) : IsRedBlack h t :=
  ⟨ht.rep, nodup_of_sorted ht.sorted, ht.black, ht.bal⟩

theorem IsRedBlack.isTree {cmp : α → α → Bool} (ht : IsRedBlack h t)
    (hs : Sorted (Less cmp) t) : IsTree cmp h t :=
  ⟨ht.rep, hs, ht.black, ht.bal⟩

/-- A tree of `n` nodes is at most `2 * log₂ (n + 1)` high. -/
theorem IsRedBlack.height_le (ht : IsRedBlack h t) :
    height t ≤ 2 * Nat.log 2 (t.inorder.length + 1) := by
  obtain ⟨n, hn⟩ := ht.bal
  exact hn.height_le_log ht.black

/-- A black root with a red child on the left. -/
def pairHeap : Heap (Fin 3) where
  parent := ![some 1, none, none]
  color := ![.red, .black, .red]
  child
    | .left => ![none, some 0, none]
    | .right => ![none, none, none]
  root := some 1

def pairTree : RbTree (Fin 3) := .node .black (.node .red .leaf 0 .leaf) 1 .leaf

theorem pairHeap_isRedBlack : IsRedBlack pairHeap pairTree where
  rep := ⟨rfl, rfl, rfl, rfl, rfl, ⟨rfl, rfl, rfl, rfl, trivial, trivial⟩, trivial⟩
  nodup := by decide
  black := rfl
  bal := ⟨1, nofun, 0, rfl, ⟨fun _ => ⟨rfl, rfl⟩, 0, rfl, rfl, rfl⟩, rfl⟩

@[simp] theorem rep_leaf : Rep h p .leaf := trivial

theorem rep_mk : Rep h p (mk d c t a u) ↔ h.parent a = p ∧ h.color a = c ∧
    h.child d a = t.root ∧ h.child d.other a = u.root ∧ Rep h (some a) t ∧ Rep h (some a) u := by
  cases d with
  | left => exact Iff.rfl
  | right =>
    show _ ∧ _ ∧ h.child .left a = u.root ∧ h.child .right a = t.root ∧ Rep h _ u ∧ Rep h _ t ↔
      _ ∧ _ ∧ h.child .right a = t.root ∧ h.child .left a = u.root ∧ _
    tauto

@[simp] theorem repPath_nil : RepPath h p [] ↔ h.root = p := Iff.rfl

theorem repPath_cons : RepPath h p (⟨d, c, a, t⟩ :: k) ↔ h.parent a = top k ∧ h.color a = c ∧
    h.child d a = p ∧ h.child d.other a = t.root ∧ Rep h (some a) t ∧
    RepPath h (some a) k := Iff.rfl

theorem Rep.color_root (hr : Rep h p t) (ha : t.root = some a) : h.color a = t.color := by
  cases t with
  | leaf => cases ha
  | node c l b r =>
    cases ha
    exact hr.2.1

theorem Rep.isRed (hr : Rep h p t) : h.IsRed t.root ↔ t.color = .red := by
  cases t with
  | leaf => simp [Heap.IsRed]
  | node c l a r => simp [Heap.IsRed, RbTree.root, RbTree.color, hr.2.1]

/-- The same tree, seen from one step up. -/
theorem repAt_cons {f : Step α} :
    RepAt h (f :: k) t ↔ RepAt h k (mk f.side f.color t f.node f.sibling) := by
  obtain ⟨d, c, a, s⟩ := f
  constructor
  · rintro ⟨⟨h1, h2, h3, h4, h5, h6⟩, h7⟩
    exact ⟨by rwa [root_mk], rep_mk.mpr ⟨h1, h2, h3, h4, h7, h5⟩⟩
  · rintro ⟨hp, hs⟩
    obtain ⟨h1, h2, h3, h4, h7, h5⟩ := rep_mk.mp hs
    rw [root_mk] at hp
    exact ⟨⟨h1, h2, h3, h4, h5, hp⟩, h7⟩

/-- The same tree, seen from further up. -/
theorem repAt_append {k' : Path α} : RepAt h (k' ++ k) t ↔ RepAt h k (plug k' t) := by
  induction k' generalizing t with
  | nil => exact Iff.rfl
  | cons f k' ih =>
    rw [plug_cons, ← ih]
    exact repAt_cons

/-- The same tree, seen from its root. -/
theorem repAt_plug : RepAt h k t ↔ RepAt h [] (plug k t) := by
  rw [← repAt_append, List.append_nil]

/-! ## Writes outside -/

/-- The fields of a node are the same in both heaps. -/
def SameNode (h h' : Heap α) (a : α) : Prop :=
  h'.parent a = h.parent a ∧ h'.color a = h.color a ∧ ∀ d, h'.child d a = h.child d a

theorem SameNode.trans {g : Heap α} (h₁ : SameNode h h' a) (h₂ : SameNode h' g a) :
    SameNode h g a :=
  ⟨h₂.1.trans h₁.1, h₂.2.1.trans h₁.2.1, fun d => (h₂.2.2 d).trans (h₁.2.2 d)⟩

theorem rep_congr (heq : ∀ a ∈ t.inorder, SameNode h h' a) : Rep h' p t ↔ Rep h p t := by
  induction t generalizing p with
  | leaf => exact Iff.rfl
  | node c l a r ihl ihr =>
    have hl : ∀ b ∈ l.inorder, SameNode h h' b := fun b hb =>
      heq b (List.mem_append_left _ hb)
    have hr : ∀ b ∈ r.inorder, SameNode h h' b := fun b hb =>
      heq b (List.mem_append_right _ (List.mem_cons_of_mem _ hb))
    obtain ⟨h1, h2, h3⟩ := heq a (List.mem_append_right _ List.mem_cons_self)
    simp only [Rep, h1, h2, h3, ihl hl, ihr hr]

theorem repPath_congr (heq : ∀ a ∈ nodes k, SameNode h h' a) (hroot : h'.root = h.root) :
    RepPath h' p k ↔ RepPath h p k := by
  induction k generalizing p with
  | nil => rw [repPath_nil, repPath_nil, hroot]
  | cons f k ih =>
    have hs : ∀ b ∈ f.sibling.inorder, SameNode h h' b := fun b hb =>
      heq b (List.mem_cons_of_mem _ (List.mem_append_left _ hb))
    have hk : ∀ b ∈ nodes k, SameNode h h' b := fun b hb =>
      heq b (List.mem_cons_of_mem _ (List.mem_append_right _ hb))
    obtain ⟨h1, h2, h3⟩ := heq f.node List.mem_cons_self
    simp only [RepPath, h1, h2, h3, rep_congr hs, ih hk]

@[simp] theorem rep_setRoot {x : Option α} : Rep (h.setRoot x) p t ↔ Rep h p t :=
  rep_congr fun _ _ => ⟨rfl, rfl, fun _ => rfl⟩

variable [DecidableEq α] {x : Option α}

@[simp] theorem setChild_parent : (h.setChild d a x).parent = h.parent := rfl

@[simp] theorem setChild_color : (h.setChild d a x).color = h.color := rfl

@[simp] theorem setChild_root : (h.setChild d a x).root = h.root := rfl

theorem setChild_child : (h.setChild d a x).child e b =
    if e = d ∧ b = a then x else h.child e b := by
  by_cases he : e = d
  · subst he
    by_cases hb : b = a
    · subst hb
      simp [Heap.setChild]
    · simp [Heap.setChild, hb]
  · simp [Heap.setChild, he]

@[simp] theorem setParentColorIf_root :
    (h.setParentColorIf x p c).root = h.root := by cases x <;> rfl

@[simp] theorem setParentColorIf_child :
    (h.setParentColorIf x p c).child = h.child := by cases x <;> rfl

@[simp] theorem setParentIf_root : (h.setParentIf x p).root = h.root := by cases x <;> rfl

@[simp] theorem setParentIf_child : (h.setParentIf x p).child = h.child := by cases x <;> rfl

@[simp] theorem setParentColor_child : (h.setParentColor a p c).child = h.child := rfl

@[simp] theorem setParentColor_root : (h.setParentColor a p c).root = h.root := rfl

theorem setParentColor_parent : (h.setParentColor a p c).parent b =
    if b = a then p else h.parent b := Function.update_apply ..

theorem setParentColor_color : (h.setParentColor a p c).color b =
    if b = a then c else h.color b := Function.update_apply ..

theorem sameNode_setChild (hne : b ≠ a) : SameNode h (h.setChild d a x) b :=
  ⟨rfl, rfl, fun e => by rw [setChild_child, if_neg fun he => hne he.2]⟩

theorem sameNode_setParentColor (hne : b ≠ a) : SameNode h (h.setParentColor a p c) b :=
  ⟨by rw [setParentColor_parent, if_neg hne], by rw [setParentColor_color, if_neg hne],
    fun _ => rfl⟩

theorem setParent_eq : h.setParent a p = h.setParentColor a p (h.color a) := by
  simp [Heap.setParent, Heap.setParentColor]

theorem setBlack_eq : h.setBlack a = h.setParentColor a (h.parent a) .black := by
  simp [Heap.setBlack, Heap.setParentColor]

@[simp] theorem rep_setChild (ha : a ∉ t.inorder) : Rep (h.setChild d a x) p t ↔ Rep h p t :=
  rep_congr fun _ hb => sameNode_setChild fun heq => ha (heq ▸ hb)

@[simp] theorem rep_setParentColor (ha : a ∉ t.inorder) :
    Rep (h.setParentColor a q c) p t ↔ Rep h p t :=
  rep_congr fun _ hb => sameNode_setParentColor fun heq => ha (heq ▸ hb)

@[simp] theorem repPath_setChild (ha : a ∉ nodes k) :
    RepPath (h.setChild d a x) p k ↔ RepPath h p k :=
  repPath_congr (fun _ hb => sameNode_setChild fun heq => ha (heq ▸ hb)) rfl

@[simp] theorem repPath_setParentColor (ha : a ∉ nodes k) :
    RepPath (h.setParentColor a q c) p k ↔ RepPath h p k :=
  repPath_congr (fun _ hb => sameNode_setParentColor fun heq => ha (heq ▸ hb)) rfl

/-- A write to the root of a tree, if it has one, is the write `setParentColor`. -/
theorem setParentColorIf_some (hx : x = some a) :
    h.setParentColorIf x q c = h.setParentColor a q c := by
  subst hx
  rfl

/-! ## Writes to the root of a subtree -/

/-- A subtree gets a new parent and color. -/
theorem Rep.setParentColor (hr : Rep h p (mk d c t a u)) (hnd : (mk d c t a u).inorder.Nodup) :
    Rep (h.setParentColor a q c') q (mk d c' t a u) := by
  have hnd' := inorder_mk_perm.nodup_iff.mp hnd
  simp only [List.nodup_cons, List.mem_append, not_or] at hnd'
  obtain ⟨⟨hat, hau⟩, -⟩ := hnd'
  obtain ⟨-, -, ht, hu, hrt, hru⟩ := rep_mk.mp hr
  refine rep_mk.mpr ⟨?_, ?_, ht, hu, (rep_setParentColor hat).mpr hrt,
    (rep_setParentColor hau).mpr hru⟩
  · rw [setParentColor_parent, if_pos rfl]
  · rw [setParentColor_color, if_pos rfl]

theorem Rep.setParentColorIf (hr : Rep h p t) (hnd : t.inorder.Nodup) :
    Rep (h.setParentColorIf t.root q c) q (t.setColor c) := by
  cases t with
  | leaf => exact trivial
  | node c' l a r => exact Rep.setParentColor (d := .left) hr hnd

theorem Rep.setParentIf (hr : Rep h p t) (hnd : t.inorder.Nodup) :
    Rep (h.setParentIf t.root q) q t := by
  cases t with
  | leaf => exact trivial
  | node c l a r =>
    show Rep (h.setParent a q) q _
    rw [setParent_eq, hr.2.1]
    exact Rep.setParentColor (d := .left) hr hnd

theorem sameNode_setParentColorIf (hb : b ∉ t.inorder) :
    SameNode h (h.setParentColorIf t.root q c) b := by
  cases t with
  | leaf => exact ⟨rfl, rfl, fun _ => rfl⟩
  | node c' l a r => exact sameNode_setParentColor fun heq => hb (heq ▸ mem_of_root rfl)

theorem sameNode_setParentIf (hb : b ∉ t.inorder) : SameNode h (h.setParentIf t.root q) b := by
  cases t with
  | leaf => exact ⟨rfl, rfl, fun _ => rfl⟩
  | node c' l a r =>
    show SameNode h (h.setParent a q) b
    rw [setParent_eq]
    exact sameNode_setParentColor fun heq => hb (heq ▸ mem_of_root rfl)

/-! ## Writes that change where the path leads -/

/-- The parent of the subtree is not in the subtree, nor further up. -/
theorem changeChild_sameNode (hb : top k ≠ some b) :
    SameNode h (h.changeChild a x (top k)) b := by
  cases k with
  | nil => exact ⟨rfl, rfl, fun _ => rfl⟩
  | cons f k =>
    have hne : b ≠ f.node := fun heq => hb (heq ▸ rfl)
    show SameNode h (if _ then _ else _) b
    split_ifs with hif
    · exact sameNode_setChild hne
    · exact sameNode_setChild hne

theorem rep_changeChild (hb : ∀ b ∈ t.inorder, b ∉ nodes k) :
    Rep (h.changeChild a x (top k)) p t ↔ Rep h p t :=
  rep_congr fun b hmem => changeChild_sameNode fun htop => hb b hmem (mem_of_top htop)

/-- `__rb_change_child` on the path to `a`. -/
theorem RepPath.changeChild (hp : RepPath h (some a) k) (hnd : (a :: nodes k).Nodup) :
    RepPath (h.changeChild a x (top k)) x k := by
  cases k with
  | nil => rfl
  | cons f k =>
    obtain ⟨d, c, b, s⟩ := f
    simp only [nodes_cons, List.nodup_cons, List.nodup_append, List.mem_cons, List.mem_append,
      not_or] at hnd
    obtain ⟨⟨hab, has, hak⟩, ⟨hbs, hbk⟩, -, -, -⟩ := hnd
    obtain ⟨h1, h2, h3, h4, h5, h6⟩ := hp
    have hleft : (if h.child .left b = some a then h.setChild .left b x
        else h.setChild .right b x) = h.setChild d b x := by
      cases d with
      | left => rw [if_pos h3]
      | right =>
        have hne : h.child .left b ≠ some a := by
          rw [show h.child .left b = s.root from h4]
          exact fun heq => has (mem_of_root heq)
        rw [if_neg hne]
    show RepPath (if _ then _ else _) x _
    rw [hleft]
    refine ⟨h1, h2, ?_, ?_, (rep_setChild hbs).mpr h5, (repPath_setChild hbk).mpr h6⟩
    · rw [setChild_child, if_pos ⟨rfl, rfl⟩]
    · rw [setChild_child, if_neg fun he => Side.other_ne d he.1]
      exact h4

/-- `__rb_rotate_set_parents`: `b` is already the parent of `a` in the one direction, and goes
    to the place of `a`, which becomes a child of `b`. -/
theorem rotateSetParents_spec (hp : RepPath h (some a) k) (hap : h.parent a = top k)
    (hac : h.color a = c) (hau : h.child d a = u.root) (hav : h.child d.other a = v.root)
    (hbt : h.child d b = t.root) (hba : h.child d.other b = some a) (ht : Rep h (some b) t)
    (hu : Rep h (some a) u) (hv : Rep h (some a) v)
    (hnd : (plug k (mk d c t b (mk d c' u a v))).inorder.Nodup) :
    RepAt (h.rotateSetParents a b c') k (mk d c t b (mk d c' u a v)) := by
  have hnd' := nodup_mk_mk.mp hnd
  simp only [List.nodup_cons, List.nodup_append, List.mem_cons, List.mem_append, not_or] at hnd'
  obtain ⟨⟨hba', hbt', hbu, hbv, hbk⟩, ⟨hat, hau', hav', hak⟩, hdisj⟩ := hnd'
  have hkt : ∀ x ∈ t.inorder, x ∉ nodes k := by grind
  have hku : ∀ x ∈ u.inorder, x ∉ nodes k := by grind
  have hkv : ∀ x ∈ v.inorder, x ∉ nodes k := by grind
  have htopa : top k ≠ some a := fun heq => hak (mem_of_top heq)
  have htopb : top k ≠ some b := fun heq => hbk (mem_of_top heq)
  set g := (h.setParentColor b (h.parent a) (h.color a)).setParentColor a (some b) c' with hg
  have heq : h.rotateSetParents a b c' = g.changeChild a (some b) (top k) := by
    rw [hg, Heap.rotateSetParents, hap]
  obtain ⟨ha1, ha2, ha3⟩ : SameNode g (g.changeChild a (some b) (top k)) a :=
    changeChild_sameNode htopa
  obtain ⟨hb1, hb2, hb3⟩ : SameNode g (g.changeChild a (some b) (top k)) b :=
    changeChild_sameNode htopb
  have hpath : RepPath g (some a) k := by
    rw [hg, repPath_setParentColor hak, repPath_setParentColor hbk]
    exact hp
  have hnda : (a :: nodes k).Nodup := by grind
  rw [heq]
  refine ⟨?_, ?_⟩
  · rw [root_mk]
    exact hpath.changeChild hnda
  · have hga : g.parent a = some b ∧ g.color a = c' := by
      simp [hg, setParentColor_parent, setParentColor_color]
    have hgb : g.parent b = top k ∧ g.color b = c := by
      simp [hg, setParentColor_parent, setParentColor_color, hba', hap, hac]
    refine rep_mk.mpr ⟨hb1.trans hgb.1, hb2.trans hgb.2, (hb3 d).trans hbt, ?_, ?_, ?_⟩
    · rw [hb3, root_mk]
      exact hba
    · rw [rep_changeChild hkt, hg, rep_setParentColor hat, rep_setParentColor hbt']
      exact ht
    · refine rep_mk.mpr ⟨ha1.trans hga.1, ha2.trans hga.2, (ha3 d).trans hau,
        (ha3 _).trans hav, ?_, ?_⟩
      · rw [rep_changeChild hku, hg, rep_setParentColor hau', rep_setParentColor hbu]
        exact hu
      · rw [rep_changeChild hkv, hg, rep_setParentColor hav', rep_setParentColor hbv]
        exact hv

end ShikiOS.Common.Rb
