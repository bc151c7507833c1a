import LinuxSummer.RedBlack
import LinuxSummer.STreeModel

/-! The red-black tree of hw1/treeint/rbtree.c and rbtree.h, and the functions of
hw1/treeint/treeint_rb.c over it. Pointers, failures and `fuel` are those of the S-tree's model.
The augment callbacks are left out: `rb_insert_color` and `rb_erase` pass dummies. -/
namespace LinuxSummer.Rbtree
open STree

/-- `struct rb_node` within its container `struct treeint_rb`. The word `__rb_parent_color` is
the parent pointer and the color. -/
structure Node (A : Type) extends Links A where
  color : Color
  value : ℤ

/-- The allocated nodes. -/
abbrev Heap (A : Type) := A → Option (Node A)

/-- `struct rb_root`, and the memory it lives in. -/
structure Root (A : Type) where
  node : Option A
  heap : Heap A

variable {A : Type} [DecidableEq A]

namespace Heap

def child (d : Side) (h : Heap A) (p : Option A) : Option (Option A) :=
  (p.bind h).map (·.child d)

def parent (h : Heap A) (p : Option A) : Option (Option A) :=
  (p.bind h).map (·.parent)

def color (h : Heap A) (p : Option A) : Option Color :=
  (p.bind h).map (·.color)

def value (h : Heap A) (p : Option A) : Option ℤ :=
  (p.bind h).map (·.value)

def modify (h : Heap A) (p : Option A) (f : Node A → Node A) : Option (Heap A) :=
  p.bind fun a => (h a).map fun n => Function.update h a (some (f n))

def setChild (d : Side) (h : Heap A) (p x : Option A) : Option (Heap A) :=
  h.modify p fun n => { n with toLinks := n.toLinks.setChild d x }

end Heap

def rbSetParent (h : Heap A) (rb p : Option A) : Option (Heap A) :=
  h.modify rb fun n => { n with parent := p }

def rbSetParentColor (h : Heap A) (rb p : Option A) (color : Color) : Option (Heap A) :=
  h.modify rb fun n => { n with parent := p, color := color }

/-- The addition of `RB_BLACK`, which only fits a red node. -/
def rbSetBlack (h : Heap A) (rb : Option A) : Option (Heap A) := do
  if (← h.color rb) = .red then
    h.modify rb fun n => { n with color := .black }
  else
    none

/-- The whole word as a pointer, which it only is for a red node. -/
def rbRedParent (h : Heap A) (red : Option A) : Option (Option A) := do
  if (← h.color red) = .red then
    h.parent red
  else
    none

/-- `n && rb_is_red(n)` -/
def isRed (h : Heap A) (n : Option A) : Option Bool :=
  if n.isSome then (h.color n).map fun x => decide (x = .red) else pure false

/-- `if (n) rb_set_parent_color(n, p, color);` -/
def setColored (h : Heap A) (n p : Option A) (color : Color) : Option (Heap A) :=
  if n.isSome then rbSetParentColor h n p color else pure h

/-- `if (n) rb_set_parent(n, p);` -/
def setParentIf (h : Heap A) (n p : Option A) : Option (Heap A) :=
  if n.isSome then rbSetParent h n p else pure h

/-- `__rb_change_child` -/
def rbChangeChild (t : Root A) (old new parent : Option A) : Option (Root A) := do
  if parent.isSome then
    if (← t.heap.child .left parent) = old then
      pure ⟨t.node, ← t.heap.setChild .left parent new⟩
    else
      pure ⟨t.node, ← t.heap.setChild .right parent new⟩
  else
    pure ⟨new, t.heap⟩

/-- `__rb_rotate_set_parents` -/
def rbRotateSetParents (t : Root A) (old new : Option A) (color : Color) : Option (Root A) := do
  let parent ← t.heap.parent old
  let h ← rbSetParentColor t.heap new parent (← t.heap.color old)
  let h ← rbSetParentColor h old new color
  rbChangeChild ⟨t.node, h⟩ old new parent

/-! ### Insertion. The parent is the child on side `d` of `gparent`. -/

/-- Case 1 of `__rb_insert`, with the next `parent`; the next `node` is `gparent`. -/
def insertCase1 (h : Heap A) (parent gparent tmp : Option A) : Option (Option A × Heap A) := do
  let h ← rbSetParentColor h tmp gparent .black
  let h ← rbSetParentColor h parent gparent .black
  let parent ← h.parent gparent
  pure (parent, ← rbSetParentColor h gparent parent .red)

/-- Case 2 of `__rb_insert`. -/
def insertCase2 (d : Side) (h : Heap A) (node parent : Option A) : Option (Heap A) := do
  let tmp ← h.child d node
  let h ← h.setChild d.flip parent tmp
  let h ← h.setChild d node parent
  let h ← setColored h tmp parent .black
  rbSetParentColor h parent node .red

/-- Case 3 of `__rb_insert`. -/
def insertCase3 (d : Side) (t : Root A) (parent gparent tmp : Option A) : Option (Root A) := do
  let h ← t.heap.setChild d gparent tmp
  let h ← h.setChild d.flip parent gparent
  let h ← setColored h tmp gparent .black
  rbRotateSetParents ⟨t.node, h⟩ gparent parent .red

/-- The rest of a turn of `__rb_insert` when the uncle is black. -/
def insertRotate (d : Side) (t : Root A) (node parent gparent : Option A) : Option (Root A) := do
  let tmp ← t.heap.child d.flip parent
  if node = tmp then
    let h ← insertCase2 d t.heap node parent
    insertCase3 d ⟨t.node, h⟩ node gparent (← h.child d.flip node)
  else
    insertCase3 d t parent gparent tmp

/-- The loop of `__rb_insert`. -/
def rbInsert : ℕ → Root A → Option A → Option A → Option (Root A)
  | 0, _, _, _ => none
  | fuel + 1, t, node, parent => do
    if parent.isNone then
      return ⟨t.node, ← rbSetParentColor t.heap node none .black⟩
    if (← t.heap.color parent) = .black then
      return t
    let gparent ← rbRedParent t.heap parent
    let d : Side := if parent ≠ (← t.heap.child .right gparent) then .left else .right
    let tmp ← t.heap.child d.flip gparent
    if ← isRed t.heap tmp then
      let (parent, h) ← insertCase1 t.heap parent gparent tmp
      rbInsert fuel ⟨t.node, h⟩ gparent parent
    else
      insertRotate d t node parent gparent

def rbInsertColor (fuel : ℕ) (t : Root A) (node : Option A) : Option (Root A) := do
  rbInsert fuel t node (← rbRedParent t.heap node)

/-! ### Removal -/

/-- The loop of case 3 of `__rb_erase_augmented`, with the last `parent` and `successor`. -/
def leftmost (h : Heap A) : ℕ → Option A → Option A → Option (Option A × Option A)
  | 0, _, _ => none
  | fuel + 1, successor, tmp => do
    let parent := successor
    let successor := tmp
    let tmp ← h.child .left tmp
    if tmp.isSome then
      leftmost h fuel successor tmp
    else
      pure (parent, successor)

/-- Cases 2 and 3 of `__rb_erase_augmented`: `successor`, `parent` and `child2`. -/
def takeSuccessor (fuel : ℕ) (h : Heap A) (child : Option A) :
    Option (Option A × Option A × Option A × Heap A) := do
  let tmp ← h.child .left child
  if tmp.isNone then
    pure (child, child, ← h.child .right child, h)
  else
    let (parent, successor) ← leftmost h fuel child tmp
    let child2 ← h.child .right successor
    let h ← h.setChild .left parent child2
    let h ← h.setChild .right successor child
    let h ← rbSetParent h child successor
    pure (successor, parent, child2, h)

/-- What `__rb_erase_augmented` does with a node that has two children. -/
def eraseInner (fuel : ℕ) (t : Root A) (node child : Option A) : Option (Option A × Root A) := do
  let (successor, parent, child2, h) ← takeSuccessor fuel t.heap child
  let tmp ← h.child .left node
  let h ← h.setChild .left successor tmp
  let h ← rbSetParent h tmp successor
  let pcParent ← h.parent node
  let pcColor ← h.color node
  let t ← rbChangeChild ⟨t.node, h⟩ node successor pcParent
  if child2.isSome then
    let h ← rbSetParentColor t.heap child2 parent .black
    pure (none, ⟨t.node, ← rbSetParentColor h successor pcParent pcColor⟩)
  else
    let rebalance := if (← t.heap.color successor) = .black then parent else none
    pure (rebalance, ⟨t.node, ← rbSetParentColor t.heap successor pcParent pcColor⟩)

/-- `__rb_erase_augmented`, with the node at which to rebalance. -/
def rbEraseAugmented (fuel : ℕ) (t : Root A) (node : Option A) : Option (Option A × Root A) := do
  let child ← t.heap.child .right node
  let tmp ← t.heap.child .left node
  if tmp.isNone then
    -- case 1
    let parent ← t.heap.parent node
    let color ← t.heap.color node
    let t ← rbChangeChild t node child parent
    if child.isSome then
      pure (none, ⟨t.node, ← rbSetParentColor t.heap child parent color⟩)
    else
      pure (if color = .black then parent else none, t)
  else if child.isNone then
    -- still case 1, but with the left child
    let parent ← t.heap.parent node
    let h ← rbSetParentColor t.heap tmp parent (← t.heap.color node)
    pure (none, ← rbChangeChild ⟨t.node, h⟩ node tmp parent)
  else
    eraseInner fuel t node child

/-- Case 1 of `____rb_erase_color`, with the new sibling of the child on side `d`. -/
def eraseCase1 (d : Side) (t : Root A) (parent sibling : Option A) :
    Option (Option A × Root A) := do
  let tmp1 ← t.heap.child d sibling
  let h ← t.heap.setChild d.flip parent tmp1
  let h ← h.setChild d sibling parent
  let h ← rbSetParentColor h tmp1 parent .black
  pure (tmp1, ← rbRotateSetParents ⟨t.node, h⟩ parent sibling .red)

/-- Case 3 of `____rb_erase_color`. -/
def eraseCase3 (d : Side) (h : Heap A) (parent sibling tmp2 : Option A) : Option (Heap A) := do
  let tmp1 ← h.child d.flip tmp2
  let h ← h.setChild d sibling tmp1
  let h ← h.setChild d.flip tmp2 sibling
  let h ← h.setChild d.flip parent tmp2
  setColored h tmp1 sibling .black

/-- Case 4 of `____rb_erase_color`. -/
def eraseCase4 (d : Side) (t : Root A) (parent sibling tmp1 : Option A) : Option (Root A) := do
  let tmp2 ← t.heap.child d sibling
  let h ← t.heap.setChild d.flip parent tmp2
  let h ← h.setChild d sibling parent
  let h ← rbSetParentColor h tmp1 sibling .black
  let h ← setParentIf h tmp2 parent
  rbRotateSetParents ⟨t.node, h⟩ parent sibling .black

/-- Cases 2 to 4 of `____rb_erase_color`, where the sibling is black, and whether the loop goes on
at `parent`. -/
def eraseBlack (d : Side) (t : Root A) (parent sibling : Option A) : Option (Bool × Root A) := do
  let tmp1 ← t.heap.child d.flip sibling
  if ← isRed t.heap tmp1 then
    pure (false, ← eraseCase4 d t parent sibling tmp1)
  else
    let tmp2 ← t.heap.child d sibling
    if ← isRed t.heap tmp2 then
      let h ← eraseCase3 d t.heap parent sibling tmp2
      pure (false, ← eraseCase4 d ⟨t.node, h⟩ parent tmp2 sibling)
    else
      -- case 2
      let h ← rbSetParentColor t.heap sibling parent .red
      if (← h.color parent) = .red then
        pure (false, ⟨t.node, ← rbSetBlack h parent⟩)
      else
        pure (true, ⟨t.node, h⟩)

/-- The loop of `____rb_erase_color`. -/
def rbEraseColor : ℕ → Root A → Option A → Option A → Option (Root A)
  | 0, _, _, _ => none
  | fuel + 1, t, parent, node => do
    let d : Side := if node ≠ (← t.heap.child .right parent) then .left else .right
    let sibling ← t.heap.child d.flip parent
    let (sibling, t) ←
      if (← t.heap.color sibling) = .red then eraseCase1 d t parent sibling
      else pure (sibling, t)
    let (again, t) ← eraseBlack d t parent sibling
    if again then
      let node := parent
      let parent ← t.heap.parent node
      if parent.isSome then
        rbEraseColor fuel t parent node
      else
        pure t
    else
      pure t

def rbErase (fuel : ℕ) (t : Root A) (node : Option A) : Option (Root A) := do
  let (rebalance, t) ← rbEraseAugmented fuel t node
  if rebalance.isSome then
    rbEraseColor fuel t rebalance none
  else
    pure t

/-! ### treeint_rb.c -/

/-- What a `struct rb_node **` of `__treeint_rb_insert` points to. -/
inductive Place (A : Type) where
  | root
  | child (d : Side) (n : Option A)

def Place.get (t : Root A) : Place A → Option (Option A)
  | .root => some t.node
  | .child d n => t.heap.child d n

def Place.set (t : Root A) (x : Option A) : Place A → Option (Root A)
  | .root => some ⟨x, t.heap⟩
  | .child d n => (t.heap.setChild d n x).map fun h => ⟨t.node, h⟩

def rbLinkNode (t : Root A) (node parent : Option A) (rbLink : Place A) : Option (Root A) := do
  let h ← rbSetParentColor t.heap node parent .red
  let h ← h.setChild .left node none
  let h ← h.setChild .right node none
  rbLink.set ⟨t.node, h⟩ node

def treeintRbInit : Root A := ⟨none, fun _ => none⟩

/-- The loop of `__treeint_rb_insert`: the last `p` and `n`, or `none` when the value is there. -/
def insertPlace (a : ℤ) (t : Root A) : ℕ → Option A → Place A → Option (Option (Option A × Place A))
  | 0, _, _ => none
  | fuel + 1, p, n => do
    if (← n.get t).isNone then
      return some (p, n)
    let p ← n.get t
    let value ← t.heap.value p
    if a = value then
      pure none
    else if a < value then
      insertPlace a t fuel p (.child .left p)
    else
      insertPlace a t fuel p (.child .right p)

/-- `calloc` returns the zeroed block `new`, which is not in use, and it gets the value `a`. -/
def callocNode (h : Heap A) (a : ℤ) (new : A) : Option (Heap A) :=
  if (h new).isSome then none
  else some (Function.update h new (some ⟨⟨none, none, none⟩, .red, a⟩))

def freeNode (h : Heap A) (n : Option A) : Option (Heap A) :=
  n.bind fun a => (h a).map fun _ => Function.update h a none

def treeintRbInsert (fuel : ℕ) (t : Root A) (a : ℤ) (new : A) : Option (ℤ × Root A) := do
  if let some (p, n) ← insertPlace a t fuel none .root then
    let h ← callocNode t.heap a new
    let t ← rbLinkNode ⟨t.node, h⟩ (some new) p n
    pure (0, ← rbInsertColor fuel t (some new))
  else
    pure (-1, t)

/-- The loop of `treeint_rb_find`, from `n` on. -/
def findFrom (a : ℤ) (h : Heap A) : ℕ → Option A → Option (Option A)
  | 0, _ => none
  | _ + 1, none => some none
  | fuel + 1, some n => do
    let value ← h.value (some n)
    if a = value then
      pure (some n)
    else if a < value then
      findFrom a h fuel (← h.child .left (some n))
    else
      findFrom a h fuel (← h.child .right (some n))

def treeintRbFind (fuel : ℕ) (t : Root A) (a : ℤ) : Option (Option A) :=
  findFrom a t.heap fuel t.node

def treeintRbRemove (fuel : ℕ) (t : Root A) (a : ℤ) : Option (ℤ × Root A) := do
  let entry ← treeintRbFind fuel t a
  if entry.isNone then
    return (-1, t)
  let t ← rbErase fuel t entry
  pure (0, ⟨t.node, ← freeNode t.heap entry⟩)

/-- A call through `rbtree_ops`. -/
def rbCall (fuel : ℕ) (t : Root A) : Op A ℤ → Option (Res A × Root A)
  | .insert a new => (treeintRbInsert fuel t a new).map fun r => (.code r.1, r.2)
  | .remove a => (treeintRbRemove fuel t a).map fun r => (.code r.1, r.2)
  | .find a => (treeintRbFind fuel t a).map fun n => (.node n, t)

/-- A sequence of calls, with what each of them returned. -/
def rbCalls (fuel : ℕ) (t : Root A) : List (Op A ℤ) → Option (List (Res A) × Root A)
  | [] => some ([], t)
  | op :: ops => do
    let (r, t) ← rbCall fuel t op
    let (rs, t) ← rbCalls fuel t ops
    pure (r :: rs, t)

end LinuxSummer.Rbtree
