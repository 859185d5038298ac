import Mathlib.Order.Comparable
import Mathlib.Tactic

/-!
# Red-black trees and the path to a subtree

A tree is taken apart into a subtree and the `Path` from it up to the root. `mk d` builds a node
whose child on the side `d` is named first, so that one statement serves both mirror images.

Results:
* `inorder_plug`, `nodes_perm`: the nodes of a tree are those of the subtree and of the path.
* `Bal.plug`, `Bal.focus`: a tree is balanced iff the subtree fits the path.
* `Bal.height_le_log`: a balanced tree is not high.
* `nodup_of_sorted`, `lt_of_before`, `lt_of_after`: what order says about the nodes.
-/

namespace ShikiOS.Lib.RedBlack

/-- The two children of a node. -/
inductive Side
  | left | right
deriving DecidableEq, Repr

/-- The opposite side. -/
def Side.other : Side → Side
  | .left => .right
  | .right => .left

@[simp] theorem Side.other_other (d : Side) : d.other.other = d := by cases d <;> rfl

@[simp] theorem Side.other_ne (d : Side) : d.other ≠ d := by cases d <;> decide

@[simp] theorem Side.ne_other (d : Side) : d ≠ d.other := by cases d <;> decide

inductive Color
  | red | black
deriving DecidableEq, Repr

/-- What a node adds to the black height. -/
def Color.weight : Color → ℕ
  | .red => 0
  | .black => 1

@[simp] theorem Color.weight_red : Color.red.weight = 0 := rfl

@[simp] theorem Color.weight_black : Color.black.weight = 1 := rfl

/-- A color that is not red is black. -/
theorem Color.eq_black {c : Color} (h : c ≠ .red) : c = .black := by
  cases c with
  | red => exact absurd rfl h
  | black => rfl

inductive RbTree (α : Type*)
  | leaf
  | node (c : Color) (l : RbTree α) (a : α) (r : RbTree α)

variable {α : Type*}

/-! ## Trees -/

namespace RbTree

/-- A leaf counts as black. -/
def color : RbTree α → Color
  | leaf => .black
  | node c _ _ _ => c

def root : RbTree α → Option α
  | leaf => none
  | node _ _ a _ => some a

def inorder : RbTree α → List α
  | leaf => []
  | node _ l a r => l.inorder ++ a :: r.inorder

def setColor (c : Color) : RbTree α → RbTree α
  | leaf => leaf
  | node _ l a r => node c l a r

/-- The node `a` with the child `t` on the side `d` and the child `u` on the other. -/
def mk (d : Side) (c : Color) (t : RbTree α) (a : α) (u : RbTree α) : RbTree α :=
  match d with
  | .left => node c t a u
  | .right => node c u a t

variable {d : Side} {c : Color} {t u : RbTree α} {a b : α}

@[simp] theorem color_leaf : (leaf : RbTree α).color = .black := rfl

@[simp] theorem root_leaf : (leaf : RbTree α).root = none := rfl

@[simp] theorem inorder_leaf : (leaf : RbTree α).inorder = [] := rfl

@[simp] theorem color_mk : (mk d c t a u).color = c := by cases d <;> rfl

@[simp] theorem root_mk : (mk d c t a u).root = some a := by cases d <;> rfl

@[simp] theorem setColor_mk {c' : Color} : (mk d c t a u).setColor c' = mk d c' t a u := by
  cases d <;> rfl

@[simp] theorem root_setColor : (t.setColor c).root = t.root := by cases t <;> rfl

@[simp] theorem inorder_setColor : (t.setColor c).inorder = t.inorder := by cases t <;> rfl

theorem setColor_of_color (h : t.color = c) : t.setColor c = t := by
  cases t with
  | leaf => rfl
  | node c' l a r => rw [← show c' = c from h]; rfl

theorem mk_other : mk d.other c t a u = mk d c u a t := by cases d <;> rfl

/-- A tree is a leaf or a node, seen from either side. -/
theorem eq_mk (d : Side) (t : RbTree α) : t = leaf ∨ ∃ c u a v, t = mk d c u a v := by
  cases t with
  | leaf => exact .inl rfl
  | node c l a r =>
    right
    cases d with
    | left => exact ⟨c, l, a, r, rfl⟩
    | right => exact ⟨c, r, a, l, rfl⟩

theorem inorder_mk_perm : (mk d c t a u).inorder.Perm (a :: (t.inorder ++ u.inorder)) := by
  cases d with
  | left => exact List.perm_middle
  | right => exact List.perm_middle.trans (List.Perm.cons _ List.perm_append_comm)

@[simp] theorem mem_mk : b ∈ (mk d c t a u).inorder ↔ b = a ∨ b ∈ t.inorder ∨ b ∈ u.inorder := by
  rw [inorder_mk_perm.mem_iff, List.mem_cons, List.mem_append]

/-- Colors, and the shapes of the children, do not matter for the order of the nodes. -/
theorem inorder_mk_congr {t' u' : RbTree α} {c' : Color} (ht : t.inorder = t'.inorder)
    (hu : u.inorder = u'.inorder) : (mk d c t a u).inorder = (mk d c' t' a u').inorder := by
  cases d with
  | left => simp [mk, inorder, ht, hu]
  | right => simp [mk, inorder, ht, hu]

/-- The root is one of the nodes. -/
theorem mem_of_root (h : t.root = some a) : a ∈ t.inorder := by
  cases t with
  | leaf => cases h
  | node c l b r =>
    cases h
    exact List.mem_append_right _ List.mem_cons_self

theorem root_ne_none (h : t.root ≠ none) : t ≠ leaf := by
  rintro rfl
  exact h rfl

/-- A rotation keeps the nodes in order. -/
theorem inorder_rotate {v : RbTree α} {c₁ c₂ c₃ c₄ : Color} :
    (mk d c₁ t a (mk d c₂ u b v)).inorder =
      (mk d c₃ (mk d c₄ t a u) b v).inorder := by
  cases d with
  | left => simp [mk, inorder]
  | right => simp [mk, inorder]

/-- Two rotations, the first of them below. -/
theorem inorder_rotate_twice {s v : RbTree α} {g : α} {c₁ c₂ c₃ c₄ c₅ c₆ : Color} :
    (mk d c₁ (mk d c₂ s b t) a (mk d c₃ u g v)).inorder =
      (mk d c₄ (mk d c₅ s b (mk d c₆ t a u)) g v).inorder := by
  cases d with
  | left => simp [mk, inorder]
  | right => simp [mk, inorder]

/-- The same from the other side. -/
theorem inorder_rotate_twice' {s v : RbTree α} {g : α} {c₁ c₂ c₃ c₄ c₅ c₆ : Color} :
    (mk d c₁ (mk d c₂ s b t) a (mk d c₃ u g v)).inorder =
      (mk d c₄ s b (mk d c₅ (mk d c₆ t a u) g v)).inorder := by
  cases d with
  | left => simp [mk, inorder]
  | right => simp [mk, inorder]

end RbTree

open RbTree

/-! ## Paths -/

/-- One step up: the subtree is the child on the side `side` of `node`, whose other child is
    `sibling`. -/
structure Step (α : Type*) where
  side : Side
  color : Color
  node : α
  sibling : RbTree α

/-- From the parent of the subtree up to the root. -/
abbrev Path (α : Type*) := List (Step α)

/-- The tree with the subtree in its place. -/
def plug : Path α → RbTree α → RbTree α
  | [], t => t
  | f :: k, t => plug k (mk f.side f.color t f.node f.sibling)

/-- The parent of the subtree. -/
def top : Path α → Option α
  | [] => none
  | f :: _ => some f.node

/-- The nodes left of the subtree, in order. -/
def before : Path α → List α
  | [] => []
  | ⟨.left, _, _, _⟩ :: k => before k
  | ⟨.right, _, a, s⟩ :: k => before k ++ s.inorder ++ [a]

/-- The nodes right of the subtree, in order. -/
def after : Path α → List α
  | [] => []
  | ⟨.left, _, a, s⟩ :: k => a :: s.inorder ++ after k
  | ⟨.right, _, _, _⟩ :: k => after k

/-- The nodes outside the subtree. -/
def nodes : Path α → List α
  | [] => []
  | f :: k => f.node :: (f.sibling.inorder ++ nodes k)

variable {k : Path α} {f : Step α} {t u : RbTree α} {d : Side} {c : Color} {a b : α} {n : ℕ}

@[simp] theorem top_nil : top ([] : Path α) = none := rfl

@[simp] theorem top_cons : top (f :: k) = some f.node := rfl

@[simp] theorem nodes_nil : nodes ([] : Path α) = [] := rfl

@[simp] theorem nodes_cons : nodes (f :: k) = f.node :: (f.sibling.inorder ++ nodes k) := rfl

@[simp] theorem plug_nil : plug [] t = t := rfl

@[simp] theorem plug_cons : plug (f :: k) t = plug k (mk f.side f.color t f.node f.sibling) := rfl

theorem plug_append {k' : Path α} : plug (k' ++ k) t = plug k (plug k' t) := by
  induction k' generalizing t with
  | nil => rfl
  | cons f k' ih => exact ih

theorem nodes_append {k' : Path α} : nodes (k' ++ k) = nodes k' ++ nodes k := by
  induction k' with
  | nil => rfl
  | cons f k' ih => rw [List.cons_append, nodes_cons, nodes_cons, ih, List.cons_append,
      List.append_assoc]

theorem before_append {k' : Path α} : before (k' ++ k) = before k ++ before k' := by
  induction k' with
  | nil => exact (List.append_nil _).symm
  | cons f k' ih =>
    obtain ⟨d, c, a, s⟩ := f
    cases d with
    | left => exact ih
    | right => simp only [List.cons_append, before, ih, List.append_assoc]

/-- Where nothing is left of the subtree, the path never leads to the right. -/
theorem left_of_before (h : before (f :: k) = []) : f.side = .left := by
  obtain ⟨d, c, a, s⟩ := f
  cases d with
  | left => rfl
  | right => simp [before] at h

/-- The root of a tree does not depend on what is further down. -/
theorem root_plug_congr (h : t.root = u.root) : (plug k t).root = (plug k u).root := by
  cases k with
  | nil => exact h
  | cons f k =>
    rw [plug_cons, plug_cons]
    suffices hall : ∀ v w : RbTree α, v.root = w.root → (plug k v).root = (plug k w).root from
      hall _ _ (by rw [root_mk, root_mk])
    clear h
    induction k with
    | nil => exact fun _ _ hvw => hvw
    | cons g k ih => exact fun v w _ => ih _ _ (by rw [root_mk, root_mk])

theorem root_plug_concat : (plug (k ++ [f]) t).root = some f.node := by
  rw [plug_append]
  exact root_mk

theorem inorder_plug : (plug k t).inorder = before k ++ t.inorder ++ after k := by
  induction k generalizing t with
  | nil => exact (List.append_nil _).symm
  | cons f k ih =>
    obtain ⟨d, c, a, s⟩ := f
    rw [plug_cons, ih]
    cases d with
    | left => simp [mk, RbTree.inorder, before, after]
    | right => simp [mk, RbTree.inorder, before, after]

/-- Only the order of the nodes of the subtree matters for that of the tree. -/
theorem inorder_plug_congr (h : t.inorder = u.inorder) :
    (plug k t).inorder = (plug k u).inorder := by
  rw [inorder_plug, inorder_plug, h]

theorem nodes_perm : (plug k t).inorder.Perm (t.inorder ++ nodes k) := by
  induction k generalizing t with
  | nil => exact List.Perm.of_eq (List.append_nil _).symm
  | cons f k ih =>
    rw [plug_cons, nodes_cons]
    have hmk : (mk f.side f.color t f.node f.sibling).inorder.Perm
        (t.inorder ++ f.node :: f.sibling.inorder) :=
      inorder_mk_perm.trans List.perm_middle.symm
    have hall := ih.trans (hmk.append_right (nodes k))
    rwa [List.append_assoc, List.cons_append] at hall

theorem mem_plug : a ∈ (plug k t).inorder ↔ a ∈ t.inorder ∨ a ∈ nodes k := by
  rw [nodes_perm.mem_iff, List.mem_append]

/-- A node, a child of it, and the three subtrees below them. -/
theorem nodup_mk_mk {v : RbTree α} {c' : Color} :
    (plug k (mk d c t b (mk d c' u a v))).inorder.Nodup ↔
      (b :: a :: (t.inorder ++ (u.inorder ++ (v.inorder ++ nodes k)))).Nodup := by
  refine List.Perm.nodup_iff (nodes_perm.trans ?_)
  refine (inorder_mk_perm.append_right _).trans (List.Perm.cons _ ?_)
  refine ((inorder_mk_perm.append_left _).append_right _).trans ?_
  rw [List.append_assoc, List.cons_append, List.append_assoc]
  exact List.perm_middle

theorem mem_of_top (h : top k = some a) : a ∈ nodes k := by
  cases k with
  | nil => cases h
  | cons f k =>
    cases h
    exact List.mem_cons_self

theorem length_le_nodes : k.length ≤ (nodes k).length := by
  induction k with
  | nil => exact le_rfl
  | cons f k ih =>
    simp only [nodes_cons, List.length_cons, List.length_append]
    omega

/-- A path is no longer than the tree has nodes. -/
theorem length_le_plug : k.length ≤ (plug k t).inorder.length := by
  rw [nodes_perm.length_eq, List.length_append]
  have := length_le_nodes (k := k)
  omega

theorem mem_of_before (h : a ∈ before k) : a ∈ nodes k := by
  induction k with
  | nil => exact h
  | cons f k ih =>
    obtain ⟨d, c, b, s⟩ := f
    cases d with
    | left => exact List.mem_cons_of_mem _ (List.mem_append_right _ (ih h))
    | right =>
      simp only [before, List.mem_append, List.mem_singleton] at h
      simp only [nodes_cons, List.mem_cons, List.mem_append]
      tauto

theorem mem_of_after (h : a ∈ after k) : a ∈ nodes k := by
  induction k with
  | nil => exact h
  | cons f k ih =>
    obtain ⟨d, c, b, s⟩ := f
    cases d with
    | left =>
      simp only [after, List.mem_append, List.mem_cons] at h
      simp only [nodes_cons, List.mem_cons, List.mem_append]
      tauto
    | right => exact List.mem_cons_of_mem _ (List.mem_append_right _ (ih h))

/-- The nodes outside the subtree are left or right of it. -/
theorem before_or_after (h : a ∈ nodes k) : a ∈ before k ∨ a ∈ after k := by
  have hmem : a ∈ (plug k .leaf).inorder := mem_plug.mpr (.inr h)
  rwa [inorder_plug, inorder_leaf, List.append_nil, List.mem_append] at hmem

/-- A node of the tree is the root of one of its subtrees. -/
theorem exists_path (h : a ∈ t.inorder) : ∃ k c l r, t = plug k (node c l a r) := by
  suffices hall : ∀ k : Path α, ∃ k' c l r, plug k t = plug k' (node c l a r) from hall []
  induction t with
  | leaf => cases h
  | node c l b r ihl ihr =>
    intro k
    rcases List.mem_append.mp h with hl | hr
    · exact ihl hl (⟨.left, c, b, r⟩ :: k)
    · rcases List.mem_cons.mp hr with rfl | hr
      · exact ⟨k, c, l, r, rfl⟩
      · exact ihr hr (⟨.right, c, b, l⟩ :: k)

/-! ## Balance -/

/-- No red node has a red child, and `n` black nodes are on every way down. -/
def Bal : ℕ → RbTree α → Prop
  | n, .leaf => n = 0
  | n, .node c l _ r => (c = .red → l.color = .black ∧ r.color = .black) ∧
      ∃ m, n = m + c.weight ∧ Bal m l ∧ Bal m r

/-- A tree of color `c` and black height `n` fits at the end of the path. The root is black. -/
def Fits : Color → ℕ → Path α → Prop
  | c, _, [] => c = .black
  | c, n, f :: k => (f.color = .red → c = .black ∧ f.sibling.color = .black) ∧
      Bal n f.sibling ∧ Fits f.color (n + f.color.weight) k

@[simp] theorem bal_leaf : Bal n (.leaf : RbTree α) ↔ n = 0 := Iff.rfl

theorem bal_mk : Bal n (mk d c t a u) ↔ (c = .red → t.color = .black ∧ u.color = .black) ∧
    ∃ m, n = m + c.weight ∧ Bal m t ∧ Bal m u := by
  cases d with
  | left => exact Iff.rfl
  | right =>
    show (_ → u.color = .black ∧ t.color = .black) ∧ (∃ m, _ ∧ Bal m u ∧ Bal m t) ↔ _
    simp only [and_comm]

@[simp] theorem bal_red :
    Bal n (mk d .red t a u) ↔ t.color = .black ∧ u.color = .black ∧ Bal n t ∧ Bal n u := by
  simp [bal_mk, and_assoc]

@[simp] theorem bal_black : Bal (n + 1) (mk d .black t a u) ↔ Bal n t ∧ Bal n u := by
  simp [bal_mk]

theorem bal_black_iff : Bal n (mk d .black t a u) ↔ ∃ m, n = m + 1 ∧ Bal m t ∧ Bal m u := by
  simp [bal_mk]

/-- A tree with a black node on every way down is not a leaf. -/
theorem Bal.ne_leaf (h : Bal (n + 1) t) : t ≠ .leaf := by
  rintro rfl
  exact absurd h (Nat.succ_ne_zero n)

/-- A red tree may be recolored. -/
theorem Bal.setBlack (h : Bal n t) (hc : t.color = .red) : Bal (n + 1) (t.setColor .black) := by
  cases t with
  | leaf => cases hc
  | node c l a r =>
    cases hc
    exact bal_black (d := .left).mpr (bal_red (d := .left).mp h).2.2

@[simp] theorem fits_nil : Fits c n ([] : Path α) ↔ c = .black := Iff.rfl

@[simp] theorem fits_red {s : RbTree α} : Fits c n (⟨d, .red, a, s⟩ :: k) ↔
    c = .black ∧ s.color = .black ∧ Bal n s ∧ Fits .red n k := by
  simp [Fits, and_assoc]

@[simp] theorem fits_black {s : RbTree α} : Fits c n (⟨d, .black, a, s⟩ :: k) ↔
    Bal n s ∧ Fits .black (n + 1) k := by
  simp [Fits]

/-- Where a red tree fits, a black one does. -/
theorem Fits.black (h : Fits c n k) : Fits .black n k := by
  cases k with
  | nil => rfl
  | cons f k => exact ⟨fun hc => ⟨rfl, (h.1 hc).2⟩, h.2⟩

/-- A red tree fits below a black node only. -/
theorem Fits.exists_black (h : Fits .red n k) :
    ∃ d a s k', k = ⟨d, .black, a, s⟩ :: k' ∧ Bal n s ∧ Fits .black (n + 1) k' := by
  cases k with
  | nil => cases h
  | cons f k =>
    obtain ⟨d, c, a, s⟩ := f
    cases c with
    | red => cases (fits_red.mp h).1
    | black => exact ⟨d, a, s, k, rfl, fits_black.mp h⟩

/-- The nodes themselves do not matter for the balance. -/
theorem Fits.node {k' : Path α} {c' : Color} (h : Fits c n (k' ++ ⟨d, c', a, t⟩ :: k)) :
    Fits c n (k' ++ ⟨d, c', b, t⟩ :: k) := by
  induction k' generalizing c n with
  | nil => exact h
  | cons f k' ih => exact ⟨h.1, h.2.1, ih h.2.2⟩

theorem Fits.plug (h : Fits t.color n k) (ht : Bal n t) :
    (plug k t).color = .black ∧ ∃ m, Bal m (plug k t) := by
  induction k generalizing t n with
  | nil => exact ⟨h, n, ht⟩
  | cons f k ih =>
    obtain ⟨hred, hs, hk⟩ := h
    refine ih ?_ (bal_mk.mpr ⟨hred, n, rfl, ht, hs⟩)
    rw [color_mk]
    exact hk

/-- A subtree of a balanced tree is balanced and fits its path. -/
theorem Fits.of_plug (hc : (RedBlack.plug k t).color = .black) (h : Bal n (RedBlack.plug k t)) :
    ∃ m, Bal m t ∧ Fits t.color m k := by
  induction k generalizing t with
  | nil => exact ⟨n, h, hc⟩
  | cons f k ih =>
    obtain ⟨m, hbal, hfits⟩ := ih hc h
    obtain ⟨hred, m', rfl, ht, hs⟩ := bal_mk.mp hbal
    rw [color_mk] at hfits
    exact ⟨m', ht, hred, hs, hfits⟩

/-! ## Height -/

/-- The number of nodes on the longest way down. -/
def height : RbTree α → ℕ
  | .leaf => 0
  | .node _ l _ r => max (height l) (height r) + 1

/-- A balanced tree has many nodes, -/
theorem Bal.two_pow_le (h : Bal n t) : 2 ^ n ≤ t.inorder.length + 1 := by
  induction t generalizing n with
  | leaf =>
    rw [bal_leaf.mp h]
    exact Nat.le_refl 1
  | node c l a r ihl ihr =>
    obtain ⟨-, m, rfl, hl, hr⟩ := h
    have hlen : (node c l a r).inorder.length = l.inorder.length + (r.inorder.length + 1) := by
      rw [RbTree.inorder, List.length_append, List.length_cons]
    have hl' := ihl hl
    have hr' := ihr hr
    cases c with
    | red =>
      rw [Color.weight_red, Nat.add_zero]
      omega
    | black =>
      rw [Color.weight_black, Nat.pow_succ]
      omega

/-- and at most every other node on a way down is red. -/
theorem Bal.height_le (h : Bal n t) : height t + t.color.weight ≤ 2 * n + 1 := by
  induction t generalizing n with
  | leaf =>
    rw [bal_leaf.mp h]
    exact Nat.le_refl 1
  | node c l a r ihl ihr =>
    obtain ⟨hred, m, rfl, hl, hr⟩ := h
    have hl' := ihl hl
    have hr' := ihr hr
    show max (height l) (height r) + 1 + c.weight ≤ 2 * (m + c.weight) + 1
    cases c with
    | red =>
      obtain ⟨hlc, hrc⟩ := hred rfl
      rw [hlc, Color.weight_black] at hl'
      rw [hrc, Color.weight_black] at hr'
      rw [Color.weight_red]
      omega
    | black =>
      rw [Color.weight_black]
      omega

theorem Bal.height_le_log (h : Bal n t) (hc : t.color = .black) :
    height t ≤ 2 * Nat.log 2 (t.inorder.length + 1) := by
  have hn : n ≤ Nat.log 2 (t.inorder.length + 1) := Nat.le_log_of_pow_le Nat.one_lt_two h.two_pow_le
  have hheight := h.height_le
  rw [hc, Color.weight_black] at hheight
  omega

/-! ## Order -/

/-- The nodes are in strictly increasing order. -/
def Sorted (lt : α → α → Prop) (t : RbTree α) : Prop := t.inorder.Pairwise lt

section Order

variable {lt : α → α → Prop}

theorem nodup_of_sorted [Std.Irrefl lt] (h : Sorted lt t) : t.inorder.Nodup := by
  refine List.Pairwise.imp (fun {x y} hxy => ?_) h
  rintro rfl
  exact Std.Irrefl.irrefl x hxy

theorem Sorted.sub (h : Sorted lt (plug k t)) : Sorted lt t := by
  rw [Sorted, inorder_plug, List.pairwise_append, List.pairwise_append] at h
  exact h.1.2.1

theorem Sorted.lt_left {l r : RbTree α} (h : Sorted lt (.node c l a r)) (hb : b ∈ l.inorder) :
    lt b a :=
  (List.pairwise_append.mp h).2.2 b hb a List.mem_cons_self

theorem Sorted.lt_right {l r : RbTree α} (h : Sorted lt (.node c l a r)) (hb : b ∈ r.inorder) :
    lt a b :=
  (List.pairwise_cons.mp (List.pairwise_append.mp h).2.1).1 b hb

theorem lt_of_before (h : Sorted lt (plug k t)) (ha : a ∈ before k) (hb : b ∈ t.inorder) :
    lt a b := by
  rw [Sorted, inorder_plug, List.append_assoc, List.pairwise_append] at h
  exact h.2.2 a ha b (List.mem_append_left _ hb)

theorem lt_of_after (h : Sorted lt (plug k t)) (ha : a ∈ t.inorder) (hb : b ∈ after k) :
    lt a b := by
  rw [Sorted, inorder_plug, List.pairwise_append] at h
  exact h.2.2 a (List.mem_append_right _ ha) b hb

/-- A node goes where the nodes on its left are smaller and those on its right greater. -/
theorem sorted_insert (h : Sorted lt (plug k .leaf)) (hbefore : ∀ b ∈ before k, lt b a)
    (hafter : ∀ b ∈ after k, lt a b) : (before k ++ [a] ++ after k).Pairwise lt := by
  rw [Sorted, inorder_plug, inorder_leaf, List.append_nil] at h
  obtain ⟨hb, ha, hba⟩ := List.pairwise_append.mp h
  rw [List.append_assoc, List.pairwise_append, List.singleton_append, List.pairwise_cons]
  refine ⟨hb, ⟨hafter, ha⟩, fun x hx y hy => ?_⟩
  rcases List.mem_cons.mp hy with rfl | hy
  · exact hbefore x hx
  · exact hba x hx y hy

end Order

end ShikiOS.Lib.RedBlack
