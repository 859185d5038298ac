import ShikiOS.Lib.RedBlack

/-!
# Red-black trees in place (`common/rbtree.c`)

A node is known by its address, of any type. Nodes are aligned to 8 bytes, so the word
`__rb_parent_color` is a pair of a parent and a color. Each loop has a bound `fuel` on its
rounds. The two branches of `__rb_insert_fix` and of `__rb_erase_fix` are mirror images and
are one definition with a side.

This module is the code: `rbInsert`, `rbErase`, `rbLookup` and `rbFirst`.
-/

namespace ShikiOS.Common.Rb

open ShikiOS.Lib.RedBlack

variable {α : Type} [DecidableEq α]

/-! ## Memory -/

/-- The fields of every `struct rb_node_`, and `rb_node` of the root. -/
structure Heap (α : Type) where
  parent : α → Option α
  color : α → Color
  child : Side → α → Option α
  root : Option α

/-- Why a call does not return: a null pointer is dereferenced, a pointer is dereferenced with
    the color still in it, or a loop is out of `fuel`. -/
inductive Fault
  | null | tagged | fuel
deriving DecidableEq, Repr

/-- The node at an address that must not be `NULL`. -/
def deref : Option α → Except Fault α
  | none => .error .null
  | some a => .ok a

namespace Heap

variable (h : Heap α)

def setRoot (p : Option α) : Heap α := { h with root := p }

/-- `a->rb_left = v` or `a->rb_right = v`. -/
def setChild (d : Side) (a : α) (v : Option α) : Heap α :=
  { h with child := Function.update h.child d (Function.update (h.child d) a v) }

/-- `rb_set_black` (rbtree.c:13-16). -/
def setBlack (a : α) : Heap α := { h with color := Function.update h.color a .black }

/-- `rb_red_parent` (rbtree.c:17-20): the word of a red node is its parent. -/
def redParent (a : α) : Except Fault (Option α) :=
  if h.color a = .red then .ok (h.parent a) else .error .tagged

/-- `rb_set_parent` (rbtree.c:21-24). -/
def setParent (a : α) (p : Option α) : Heap α :=
  { h with parent := Function.update h.parent a p }

/-- `rb_set_parent_color` (rbtree.c:25-28). -/
def setParentColor (a : α) (p : Option α) (c : Color) : Heap α :=
  { h with parent := Function.update h.parent a p, color := Function.update h.color a c }

/-- `if (tmp) rb_set_parent(tmp, p)`. -/
def setParentIf (tmp : Option α) (p : Option α) : Heap α :=
  match tmp with
  | none => h
  | some a => h.setParent a p

/-- `if (tmp) rb_set_parent_color(tmp, p, c)`. -/
def setParentColorIf (tmp : Option α) (p : Option α) (c : Color) : Heap α :=
  match tmp with
  | none => h
  | some a => h.setParentColor a p c

/-- `__rb_change_child` (rbtree.c:29-39). -/
def changeChild (old : α) (new parent : Option α) : Heap α :=
  match parent with
  | some p =>
    if h.child .left p = some old then h.setChild .left p new else h.setChild .right p new
  | none => h.setRoot new

/-- `__rb_rotate_set_parents` (rbtree.c:40-47). -/
def rotateSetParents (old new : α) (color : Color) : Heap α :=
  let parent := h.parent old
  ((h.setParentColor new (h.parent old) (h.color old)).setParentColor old (some new) color).changeChild
    old (some new) parent

/-- `tmp && rb_is_red(tmp)`. -/
def IsRed (tmp : Option α) : Prop := ∃ a ∈ tmp, h.color a = .red

instance (tmp : Option α) : Decidable (h.IsRed tmp) :=
  match tmp with
  | none => .isFalse (by rintro ⟨a, ha, -⟩; cases ha)
  | some a => decidable_of_iff (h.color a = .red) (by simp [IsRed])

/-! ## Insertion -/

/-- Case 3 of `__rb_insert_fix` (rbtree.c:82-86, 110-114). -/
def insertCase3 (d : Side) (parent gparent : α) (tmp : Option α) : Heap α :=
  let h := h.setChild d gparent tmp
  let h := h.setParentColorIf tmp (some gparent) .black
  let h := h.setChild d.other parent (some gparent)
  h.rotateSetParents gparent parent .red

/-- Cases 2 and 3, where the uncle is black (rbtree.c:71-86, 99-114). -/
def insertRotate (d : Side) (node parent gparent : α) : Heap α :=
  let tmp := h.child d.other parent
  if some node = tmp then
    let tmp := h.child d node
    let h := h.setChild d.other parent tmp
    let h := h.setParentColorIf tmp (some parent) .black
    let h := h.setChild d node (some parent)
    let h := h.setParentColor parent (some node) .red
    h.insertCase3 d node gparent (h.child d.other node)
  else h.insertCase3 d parent gparent tmp

/-- The loop of `__rb_insert_fix` (rbtree.c:51-117). -/
def insertFixLoop : ℕ → Heap α → α → Option α → Except Fault (Heap α)
  | 0, _, _, _ => .error .fuel
  | _ + 1, h, node, none => .ok ((h.setParentColor node none .black).setRoot (some node))
  | fuel + 1, h, node, some parent =>
    if h.color parent = .black then .ok h
    else do
      let gparent ← deref (← h.redParent parent)
      -- `parent != gparent->rb_right` is the first branch.
      let d : Side := if some parent ≠ h.child .right gparent then .left else .right
      let tmp := h.child d.other gparent
      if h.IsRed tmp then
        let tmp ← deref tmp
        let h := h.setParentColor tmp (some gparent) .black
        let h := h.setParentColor parent (some gparent) .black
        let parent := h.parent gparent
        let h := h.setParentColor gparent parent .red
        insertFixLoop fuel h gparent parent
      else .ok (h.insertRotate d node parent gparent)

/-- `__rb_insert_fix` (rbtree.c:48-118). -/
def insertFix (fuel : ℕ) (node : α) : Except Fault (Heap α) := do
  insertFixLoop fuel h node (← h.redParent node)

/-- The loop of `_rb_insert` (rbtree.c:266-282): `none` where an equivalent node is found. -/
def insertLoop (cmp : α → α → Bool) (node : α) :
    ℕ → Heap α → Option α → Except Fault (Option (Heap α))
  | _, h, none => .ok (some h)
  | 0, _, some _ => .error .fuel
  | fuel + 1, h, some nw =>
    if cmp node nw then
      match h.child .left nw with
      | none =>
        let h := h.setChild .left nw (some node)
        insertLoop cmp node fuel (h.setParentColor node (some nw) .red) none
      | some next => insertLoop cmp node fuel h (some next)
    else if cmp nw node then
      match h.child .right nw with
      | none =>
        let h := h.setChild .right nw (some node)
        insertLoop cmp node fuel (h.setParentColor node (some nw) .red) none
      | some next => insertLoop cmp node fuel h (some next)
    else .ok none

/-- `node->rb_left = node->rb_right = NULL; node->__rb_parent_color = 0`
    (rbtree.c:264-265). -/
def clearNode (node : α) : Heap α :=
  ((h.setChild .right node none).setChild .left node none).setParentColor node none .red

/-- `_rb_insert` (rbtree.c:260-285). -/
def rbInsert (cmp : α → α → Bool) (fuel : ℕ) (node : α) : Except Fault (ℤ × Heap α) := do
  let nw := h.root
  let h := h.clearNode node
  match ← insertLoop cmp node fuel h nw with
  | none => return (-1, h)
  | some h => return (0, ← h.insertFix fuel node)

/-! ## Removal -/

/-- The loop that looks for the successor (rbtree.c:145-149): its parent, and it. -/
def successorLoop : ℕ → α → α → Except Fault (α × α)
  | 0, _, _ => .error .fuel
  | fuel + 1, successor, tmp =>
    match h.child .left tmp with
    | none => .ok (successor, tmp)
    | some next => successorLoop fuel tmp next

/-- The successor takes the place of `node` (rbtree.c:154-167). -/
def replaceBySuccessor (node parent successor : α) (child2 : Option α) :
    Except Fault (Heap α × Option α) := do
  let tmp := h.child .left node
  let h := h.setChild .left successor tmp
  let h := h.setParent (← deref tmp) (some successor)
  let tmp := h.parent node
  let color := h.color node
  let h := h.changeChild node (some successor) tmp
  match child2 with
  | some child2 =>
    let h := h.setParentColor successor tmp color
    return (h.setParentColor child2 (some parent) .black, none)
  | none =>
    let color2 := h.color successor
    let h := h.setParentColor successor tmp color
    return (h, if color2 = .black then some parent else none)

/-- `__rb_erase` (rbtree.c:119-170): the node below which a black node is missing. -/
def eraseNode (fuel : ℕ) (node : α) : Except Fault (Heap α × Option α) :=
  let child := h.child .right node
  let tmp := h.child .left node
  let parent := h.parent node
  let color := h.color node
  match tmp, child with
  | none, some child =>
    let h := h.changeChild node (some child) parent
    .ok (h.setParentColor child parent color, none)
  | none, none =>
    .ok (h.changeChild node none parent, if color = .black then parent else none)
  | some tmp, none =>
    let h := h.setParentColor tmp parent color
    .ok (h.changeChild node (some tmp) parent, none)
  | some _, some child =>
    match h.child .left child with
    | none => h.replaceBySuccessor node child child (h.child .right child)
    | some tmp => do
      let (parent, successor) ← h.successorLoop fuel child tmp
      let child2 := h.child .right successor
      let h := h.setChild .left parent child2
      let h := h.setChild .right successor (some child)
      let h := h.setParent child (some successor)
      h.replaceBySuccessor node parent successor child2

/-- Case 1 of `__rb_erase_fix`: a red sibling goes up (rbtree.c:178-182, 219-223). The new
    sibling. -/
def eraseCase1 (d : Side) (parent sibling : α) : Except Fault (Heap α × α) := do
  let tmp1 := h.child d sibling
  let h := h.setChild d.other parent tmp1
  let tmp1 ← deref tmp1
  let h := h.setParentColor tmp1 (some parent) .black
  let h := h.setChild d sibling (some parent)
  return (h.rotateSetParents parent sibling .red, tmp1)

/-- The end of the loop of `__rb_erase_fix` (rbtree.c:209-214, 250-255). -/
def eraseCase4 (d : Side) (parent sibling tmp1 : α) : Heap α :=
  let tmp2 := h.child d sibling
  let h := h.setChild d.other parent tmp2
  let h := h.setParentIf tmp2 (some parent)
  let h := h.setChild d sibling (some parent)
  let h := h.setParentColor tmp1 (some sibling) .black
  h.rotateSetParents parent sibling .black

/-- Case 3 of `__rb_erase_fix`, and the end of the loop (rbtree.c:200-214, 241-255). -/
def eraseCase3 (d : Side) (parent sibling tmp2 : α) : Heap α :=
  let tmp1 := h.child d.other tmp2
  let h := h.setChild d sibling tmp1
  let h := h.setParentColorIf tmp1 (some sibling) .black
  let h := h.setChild d.other tmp2 (some sibling)
  let h := h.setChild d.other parent (some tmp2)
  h.eraseCase4 d parent tmp2 sibling

/-- Cases 2 to 4 of `__rb_erase_fix`, where the sibling is black (rbtree.c:184-215, 225-256): the
    parent for the next round, if there is one. -/
def eraseCases (d : Side) (parent sibling : α) : Except Fault (Heap α × Option α) := do
  let tmp1 := h.child d.other sibling
  if h.IsRed tmp1 then
    return (h.eraseCase4 d parent sibling (← deref tmp1), none)
  else
    let tmp2 := h.child d sibling
    if h.IsRed tmp2 then
      return (h.eraseCase3 d parent sibling (← deref tmp2), none)
    else
      let h := h.setParentColor sibling (some parent) .red
      if h.color parent = .red then return (h.setBlack parent, none)
      else return (h, h.parent parent)

/-- The loop of `__rb_erase_fix` (rbtree.c:174-258). -/
def eraseFixLoop : ℕ → Heap α → Option α → α → Except Fault (Heap α)
  | 0, _, _, _ => .error .fuel
  | fuel + 1, h, node, parent => do
    -- `node != parent->rb_right` is the first branch.
    let d : Side := if node ≠ h.child .right parent then .left else .right
    let sibling ← deref (h.child d.other parent)
    let (h, sibling) ←
      if h.color sibling = .red then h.eraseCase1 d parent sibling else .ok (h, sibling)
    match ← h.eraseCases d parent sibling with
    | (h, some gparent) => eraseFixLoop fuel h (some parent) gparent
    | (h, none) => return h

/-- `_rb_erase` (rbtree.c:286-292), with `__rb_erase_fix` (rbtree.c:171-259). -/
def rbErase (fuel : ℕ) (node : α) : Except Fault (Heap α) := do
  let (h, rebalance) ← h.eraseNode fuel node
  match rebalance with
  | some parent => h.eraseFixLoop fuel none parent
  | none => return h

/-! ## Reading -/

/-- The loop of `_rb_lookup` (rbtree.c:297-305). -/
def lookupLoop (cmp : α → α → Bool) (node : α) : ℕ → Option α → Except Fault (Option α)
  | _, none => .ok none
  | 0, some _ => .error .fuel
  | fuel + 1, some nw =>
    if cmp node nw then lookupLoop cmp node fuel (h.child .left nw)
    else if cmp nw node then lookupLoop cmp node fuel (h.child .right nw)
    else .ok (some nw)

/-- `_rb_lookup` (rbtree.c:293-306). -/
def rbLookup (cmp : α → α → Bool) (fuel : ℕ) (node : α) : Except Fault (Option α) :=
  h.lookupLoop cmp node fuel h.root

/-- The loop of `_rb_first` (rbtree.c:313-314). -/
def firstLoop : ℕ → α → Except Fault α
  | 0, _ => .error .fuel
  | fuel + 1, n =>
    match h.child .left n with
    | none => .ok n
    | some next => firstLoop fuel next

/-- `_rb_first` (rbtree.c:307-316). -/
def rbFirst (fuel : ℕ) : Except Fault (Option α) :=
  match h.root with
  | none => .ok none
  | some n => some <$> h.firstLoop fuel n

end Heap

end ShikiOS.Common.Rb
