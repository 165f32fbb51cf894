import LinuxStm32.Base.Loop
import LinuxStm32.Base.RedBlack

/-!
# Red-black trees in memory

Model of `lib/rbtree.c:26-341` and `include/linux/rbtree.h`. A node holds its parent's address
and its colour in one word, and the addresses of its children. Following a `NULL` pointer fails.
The source writes every case twice, once for each side; here the side is a parameter and a
mirrored pair is one definition, taken at both sides. The loops are run with a bound on their
rounds.
-/

namespace LinuxStm32.Lib

open Base RedBlack

/-- The address of a node, or `NULL`. -/
abbrev Ptr := BitVec 32

/-- `struct rb_node`. -/
structure RbNode where
  rbParentColor : BitVec 32
  rbRight : Ptr
  rbLeft : Ptr
  deriving DecidableEq, Repr

/-- `rb_left` or `rb_right`. -/
def RbNode.child (n : RbNode) : Side → Ptr
  | .left => n.rbLeft
  | .right => n.rbRight

/-- Store to `rb_left` or `rb_right`. -/
def RbNode.setChild (n : RbNode) : Side → Ptr → RbNode
  | .left, q => { n with rbLeft := q }
  | .right, q => { n with rbRight := q }

/-- The nodes by their addresses, and `root->rb_node`. -/
structure RbMem where
  node : Ptr → RbNode
  rbNode : Ptr

/-- Code that works on nodes. -/
abbrev RbM := StateT RbMem Option

/-- Change one node. -/
def RbMem.modify (m : RbMem) (p : Ptr) (f : RbNode → RbNode) : RbMem :=
  { m with node := Function.update m.node p (f (m.node p)) }

/-- Read a node. -/
def load (p : Ptr) : RbM RbNode := fun m => if p = 0#32 then none else some (m.node p, m)

/-- Write to a node. -/
def update (p : Ptr) (f : RbNode → RbNode) : RbM Unit := fun m =>
  if p = 0#32 then none else some ((), m.modify p f)

/-- `root->rb_node`. -/
def getRoot : RbM Ptr := fun m => some (m.rbNode, m)

/-- Store to `root->rb_node`. -/
def setRoot (p : Ptr) : RbM Unit := fun m => some ((), { m with rbNode := p })

/-! ### `rbtree.h` -/

/-- `RB_RED` and `RB_BLACK`. -/
def colorBit : Color → BitVec 32
  | .red => 0
  | .black => 1

/-- `p->rb_left` or `p->rb_right`. -/
def rbChild (s : Side) (p : Ptr) : RbM Ptr := do return (← load p).child s

/-- `p->rb_left = q` or `p->rb_right = q`. -/
def rbSetChild (s : Side) (p q : Ptr) : RbM Unit := update p (·.setChild s q)

/-- `rb_parent`. -/
def rbParent (p : Ptr) : RbM Ptr := do return (← load p).rbParentColor &&& ~~~3#32

/-- `rb_color`. -/
def rbColor (p : Ptr) : RbM (BitVec 32) := do return (← load p).rbParentColor &&& 1#32

/-- `rb_is_red`. -/
def rbIsRed (p : Ptr) : RbM Bool := do return (← rbColor p) = 0#32

/-- `p && rb_is_red(p)`; `!p || rb_is_black(p)` is its negation. -/
def rbTestRed (p : Ptr) : RbM Bool := if p = 0#32 then pure false else rbIsRed p

/-- `rb_set_red`. -/
def rbSetRed (p : Ptr) : RbM Unit :=
  update p fun n => { n with rbParentColor := n.rbParentColor &&& ~~~1#32 }

/-- `rb_set_black`. -/
def rbSetBlack (p : Ptr) : RbM Unit :=
  update p fun n => { n with rbParentColor := n.rbParentColor ||| 1#32 }

/-- `rb_set_parent`. -/
def rbSetParent (p q : Ptr) : RbM Unit :=
  update p fun n => { n with rbParentColor := (n.rbParentColor &&& 3#32) ||| q }

/-- `rb_set_color`. -/
def rbSetColor (p : Ptr) (color : BitVec 32) : RbM Unit :=
  update p fun n => { n with rbParentColor := (n.rbParentColor &&& ~~~1#32) ||| color }

/-- Where a pointer to a node is kept: `&root->rb_node`, `&p->rb_left` or `&p->rb_right`. -/
inductive RbLink
  | root
  | child (s : Side) (p : Ptr)
  deriving DecidableEq, Repr

/-- `*link = p`. -/
def RbLink.set (p : Ptr) : RbLink → RbM Unit
  | .root => setRoot p
  | .child s q => rbSetChild s q p

/-- `rb_link_node`. -/
def rbLinkNode (node parent : Ptr) (link : RbLink) : RbM Unit := do
  update node fun _ => ⟨parent, 0#32, 0#32⟩
  link.set node

/-! ### Insertion -/

/-- `if (child) rb_set_parent(child, parent)`. -/
def rbAdopt (child parent : Ptr) : RbM Unit :=
  if child = 0#32 then pure () else rbSetParent child parent

/-- Let the pointer to `node`, from `parent` or from the root, point to `other`; the child on the
side `s` is tested. -/
def rbReplaceChild (s : Side) (parent node other : Ptr) : RbM Unit :=
  if parent = 0#32 then setRoot other
  else do
    let child ← rbChild s parent
    if node = child then rbSetChild s parent other else rbSetChild s.flip parent other

/-- A rotation towards the side `s`. -/
def rbRotate (s : Side) (node : Ptr) : RbM Unit := do
  let right ← rbChild s.flip node
  let parent ← rbParent node
  let inner ← rbChild s right
  rbSetChild s.flip node inner
  rbAdopt inner node
  rbSetChild s right node
  rbSetParent right parent
  rbReplaceChild s parent node right
  rbSetParent node right

/-- `__rb_rotate_left`. -/
def rbRotateLeft : Ptr → RbM Unit := rbRotate .left

/-- `__rb_rotate_right`. -/
def rbRotateRight : Ptr → RbM Unit := rbRotate .right

/-- The body of the loop of `rb_insert_color` where `parent` is the child of `gparent` on the
side `s`; the new value of `node`. -/
def rbInsertFix (s : Side) (node parent gparent : Ptr) : RbM Ptr := do
  let uncle ← rbChild s.flip gparent
  if ← rbTestRed uncle then
    rbSetBlack uncle
    rbSetBlack parent
    rbSetRed gparent
    return gparent
  else
    let (node, parent) ← if (← rbChild s.flip parent) = node then do
        rbRotate s parent
        pure (parent, node)
      else pure (node, parent)
    rbSetBlack parent
    rbSetRed gparent
    rbRotate s.flip gparent
    return node

/-- One round of the loop of `rb_insert_color`. -/
def rbInsertRound (node : Ptr) : RbM (Ptr ⊕ Unit) := do
  let parent ← rbParent node
  if ← rbTestRed parent then
    let gparent ← rbParent parent
    if parent = (← rbChild .left gparent) then return .inl (← rbInsertFix .left node parent gparent)
    else return .inl (← rbInsertFix .right node parent gparent)
  else return .inr ()

/-- `rb_insert_color`. -/
def rbInsertColor (fuel : Nat) (node : Ptr) : RbM Unit := do
  loopM rbInsertRound fuel node
  rbSetBlack (← getRoot)

/-! ### Removal -/

/-- The end of the body, where the far child of `other` is red: lines 171-176 and 205-210. -/
def rbEraseTurn (s : Side) (parent other : Ptr) : RbM ((Ptr × Ptr) ⊕ Ptr) := do
  rbSetColor other (← rbColor parent)
  rbSetBlack parent
  rbSetBlack (← rbChild s.flip other)
  rbRotate s parent
  return .inr (← getRoot)

/-- The body from where `other` is black: lines 155-177 and 189-211. -/
def rbEraseBlack (s : Side) (parent other : Ptr) : RbM ((Ptr × Ptr) ⊕ Ptr) := do
  let left ← rbTestRed (← rbChild .left other)
  let right ← rbTestRed (← rbChild .right other)
  if !left && !right then
    rbSetRed other
    return .inl (parent, ← rbParent parent)
  else if ← rbTestRed (← rbChild s.flip other) then rbEraseTurn s parent other
  else
    rbSetBlack (← rbChild s other)
    rbSetRed other
    rbRotate s.flip other
    rbEraseTurn s parent (← rbChild s.flip parent)

/-- The body of the loop of `__rb_erase_color` where `node` is the child of `parent` on the
side `s`: the next values of `node` and `parent`, or the value of `node` at the `break`. -/
def rbEraseFix (s : Side) (parent : Ptr) : RbM ((Ptr × Ptr) ⊕ Ptr) := do
  let other ← rbChild s.flip parent
  if ← rbIsRed other then
    rbSetBlack other
    rbSetRed parent
    rbRotate s parent
    rbEraseBlack s parent (← rbChild s.flip parent)
  else rbEraseBlack s parent other

/-- One round of the loop of `__rb_erase_color`, on `node` and `parent`. -/
def rbEraseRound : Ptr × Ptr → RbM ((Ptr × Ptr) ⊕ Ptr)
  | (node, parent) => do
    if !(← rbTestRed node) ∧ node ≠ (← getRoot) then
      if (← rbChild .left parent) = node then rbEraseFix .left parent
      else rbEraseFix .right parent
    else return .inr node

/-- `__rb_erase_color`. -/
def rbEraseColor (fuel : Nat) (node parent : Ptr) : RbM Unit := do
  let node ← loopM rbEraseRound fuel (node, parent)
  if node ≠ 0#32 then rbSetBlack node

/-- One round of `while ((left = node->rb_left) != NULL)`. -/
def rbLeftRound (node : Ptr) : RbM (Ptr ⊕ Ptr) := do
  let left ← rbChild .left node
  if left ≠ 0#32 then return .inl left else return .inr node

/-- Lines 243-256: take the successor `node` of `old` out of the tree below `old`, if it is not
the child of `old`. The node above the gap. -/
def rbEraseDetach (old node : Ptr) : RbM Ptr := do
  let child ← rbChild .right node
  let parent ← rbParent node
  if parent = old then return node
  else
    rbAdopt child parent
    rbSetChild .left parent child
    rbSetChild .right node (← rbChild .right old)
    rbSetParent (← rbChild .right old) node
    return parent

/-- Lines 229-262: put the successor of a node with two children into its place. The child and
the parent from which the repair starts, and the colour that is lost. -/
def rbEraseInner (fuel : Nat) (old : Ptr) : RbM (Ptr × Ptr × BitVec 32) := do
  let node ← loopM rbLeftRound fuel (← rbChild .right old)
  rbReplaceChild .left (← rbParent old) old node
  let child ← rbChild .right node
  let color ← rbColor node
  let parent ← rbEraseDetach old node
  let pc := (← load old).rbParentColor
  update node fun n => { n with rbParentColor := pc }
  rbSetChild .left node (← rbChild .left old)
  rbSetParent (← rbChild .left old) node
  return (child, parent, color)

/-- Lines 265-278: take out a node whose only child may be `child`. -/
def rbEraseOuter (node child : Ptr) : RbM (Ptr × Ptr × BitVec 32) := do
  let parent ← rbParent node
  let color ← rbColor node
  rbAdopt child parent
  rbReplaceChild .left parent node child
  return (child, parent, color)

/-- `rb_erase`. -/
def rbErase (fuel : Nat) (node : Ptr) : RbM Unit := do
  let left ← rbChild .left node
  let right ← rbChild .right node
  let (child, parent, color) ←
    if left = 0#32 then rbEraseOuter node right
    else if right = 0#32 then rbEraseOuter node left
    else rbEraseInner fuel node
  if color = 1#32 then rbEraseColor fuel child parent

/-! ### Walking -/

/-- `rb_first`. -/
def rbFirst (fuel : Nat) : RbM Ptr := do
  let n ← getRoot
  if n = 0#32 then return 0#32 else loopM rbLeftRound fuel n

/-- One round of `while ((parent = rb_parent(node)) && node == parent->rb_right)`. -/
def rbUpRound (node : Ptr) : RbM (Ptr ⊕ Ptr) := do
  let parent ← rbParent node
  if parent = 0#32 then return .inr parent
  else if node = (← rbChild .right parent) then return .inl parent
  else return .inr parent

/-- `rb_next`. -/
def rbNext (fuel : Nat) (node : Ptr) : RbM Ptr := do
  if (← rbParent node) = node then return 0#32
  else
    let right ← rbChild .right node
    if right ≠ 0#32 then loopM rbLeftRound fuel right else loopM rbUpRound fuel node

/-- One round of `for (n = rb_first(root); n; n = rb_next(n))`, with the nodes seen so far. -/
def rbWalkRound (fuel : Nat) : Ptr × List Ptr → RbM ((Ptr × List Ptr) ⊕ List Ptr)
  | (n, seen) => do
    if n = 0#32 then return .inr seen else return .inl (← rbNext fuel n, seen ++ [n])

/-- The nodes that `for (n = rb_first(root); n; n = rb_next(n))` visits. -/
def rbWalk (fuel : Nat) : RbM (List Ptr) := do
  loopM (rbWalkRound fuel) fuel (← rbFirst fuel, [])

end LinuxStm32.Lib
