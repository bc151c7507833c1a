import Mathlib.Data.Int.Notation
import Mathlib.Order.Lattice
import Mathlib.Logic.Function.Basic
import LinuxSummer.LinkedTree

/-! The S-tree of hw1/treeint/s_tree.c, with the node type, the creation and destruction of
nodes and the tree dump of hw1/treeint/treeint_st.c. Pointers are `Option A`, `none` is NULL,
and a function returns `none` when it follows a NULL or dangling pointer, fails an assertion,
or needs more than `fuel` turns of a loop or nested calls. -/
namespace LinuxSummer.STree

/-- `struct st_node` within its container `struct treeint_st`. -/
structure Node (A K : Type) extends Links A where
  hint : ℤ
  key : K

/-- The allocated nodes. -/
abbrev Heap (A K : Type) := A → Option (Node A K)

/-- `struct st_tree` without its function pointers, and the memory it lives in. -/
structure Tree (A K : Type) where
  root : Option A
  heap : Heap A K

variable {A K : Type} [DecidableEq A]

namespace Heap

def child (d : Side) (h : Heap A K) (p : Option A) : Option (Option A) :=
  (p.bind h).map (·.child d)

def parent (h : Heap A K) (p : Option A) : Option (Option A) :=
  (p.bind h).map (·.parent)

def hint (h : Heap A K) (p : Option A) : Option ℤ :=
  (p.bind h).map (·.hint)

def modify (h : Heap A K) (p : Option A) (f : Node A K → Node A K) : Option (Heap A K) :=
  p.bind fun a => (h a).map fun n => Function.update h a (some (f n))

def setChild (d : Side) (h : Heap A K) (p x : Option A) : Option (Heap A K) :=
  h.modify p fun n => { n with toLinks := n.toLinks.setChild d x }

def setParent (h : Heap A K) (p x : Option A) : Option (Heap A K) :=
  h.modify p fun n => { n with parent := x }

def setHint (h : Heap A K) (p : Option A) (z : ℤ) : Option (Heap A K) :=
  h.modify p fun n => { n with hint := z }

end Heap

def stCreate : Tree A K := ⟨none, fun _ => none⟩

/-- `st_first` for the left side and `st_last` for the right one. -/
def stEnd (d : Side) (h : Heap A K) : ℕ → Option A → Option (Option A)
  | 0, _ => none
  | fuel + 1, n => do
    if (← h.child d n).isNone then
      pure n
    else
      stEnd d h fuel (← h.child d n)

def stFirst : Heap A K → ℕ → Option A → Option (Option A) := stEnd .left
def stLast : Heap A K → ℕ → Option A → Option (Option A) := stEnd .right

/-- `if (st_left(p) == n) st_left(p) = x; else st_right(p) = x;` -/
def setChildOf (h : Heap A K) (p n x : Option A) : Option (Heap A K) := do
  if (← h.child .left p) = n then
    h.setChild .left p x
  else
    h.setChild .right p x

/-- The same where `p` may be NULL, and then nothing is done. -/
def repoint (h : Heap A K) (p n x : Option A) : Option (Heap A K) :=
  if p.isSome then setChildOf h p n x else pure h

/-- `if (n) st_parent(n) = p;` -/
def reparent (h : Heap A K) (n p : Option A) : Option (Heap A K) :=
  if n.isSome then h.setParent n p else pure h

/-- `st_rotate_left` and `st_rotate_right`: the child on side `d` takes the place of `n`. -/
def stRotate (d : Side) (h : Heap A K) (n : Option A) : Option (Heap A K) := do
  let l ← h.child d n
  let p ← h.parent n
  let h ← h.setParent l (← h.parent n)
  let h ← h.setChild d n (← h.child d.flip l)
  let h ← h.setParent n l
  let h ← h.setChild d.flip l n
  let h ← repoint h p n l
  reparent h (← h.child d n) n

def stRotateLeft : Heap A K → Option A → Option (Heap A K) := stRotate .left
def stRotateRight : Heap A K → Option A → Option (Heap A K) := stRotate .right

/-- The hint of the child on side `d` plus one, or 0 without such a child. -/
def sideHint (d : Side) (h : Heap A K) (n : Option A) : Option ℤ := do
  if (← h.child d n).isSome then
    pure ((← h.hint (← h.child d n)) + 1)
  else
    pure 0

def stBalance (h : Heap A K) (n : Option A) : Option ℤ := do
  let l ← sideHint .left h n
  let r ← sideHint .right h n
  pure (l - r)

def stMaxHint (h : Heap A K) (n : Option A) : Option ℤ := do
  let l ← sideHint .left h n
  let r ← sideHint .right h n
  pure (if l > r then l else r)

/-- A branch of `st_update`: the child on side `d` takes the place of `n`. -/
def promote (d : Side) (t : Tree A K) (n : Option A) : Option (Tree A K) := do
  let root ← if n = t.root then t.heap.child d n else pure t.root
  pure ⟨root, ← stRotate d t.heap n⟩

/-- `narrow` is the conversion from `int` to the type of `hint`. -/
def stUpdate (narrow : ℤ → ℤ) : ℕ → Tree A K → Option A → Option (Tree A K)
  | 0, _, _ => none
  | fuel + 1, t, n => do
    if n.isNone then
      return t
    let b ← stBalance t.heap n
    let prevHint ← t.heap.hint n
    let p ← t.heap.parent n
    let t ←
      if b < -1 then promote .right t n  -- leaning to the right
      else if b > 1 then promote .left t n  -- leaning to the left
      else pure t
    let h ← t.heap.setHint n (narrow (← stMaxHint t.heap n))
    if (← h.hint n) = 0 ∨ (← h.hint n) ≠ prevHint then
      stUpdate narrow fuel ⟨t.root, h⟩ p
    else
      pure ⟨t.root, h⟩

/-- The loop of `__st_find`, from `n` on. It returns the node that holds `key` or NULL, and
what `*p` and `*d` then are; `none` is `NONE`. -/
def stFindFrom (cmp : K → K → ℤ) (key : K) (h : Heap A K) :
    ℕ → Option A → Option A → Option Side → Option (Option A × Option A × Option Side)
  | 0, _, _, _ => none
  | _ + 1, none, p, d => some (none, p, d)
  | fuel + 1, some n, p, d => do
    let c := cmp (← h n).key key
    if c = 0 then
      pure (some n, p, d)
    else if c > 0 then
      stFindFrom cmp key h fuel (← h.child .left (some n)) (some n) (some .left)
    else
      stFindFrom cmp key h fuel (← h.child .right (some n)) (some n) (some .right)

/-- The loop of `__st_find2`, from `n` on. -/
def stFind2From (cmp : K → K → ℤ) (key : K) (h : Heap A K) : ℕ → Option A → Option (Option A)
  | 0, _ => none
  | _ + 1, none => some none
  | fuel + 1, some n => do
    let c := cmp (← h n).key key
    if c = 0 then
      pure (some n)
    else if c > 0 then
      stFind2From cmp key h fuel (← h.child .left (some n))
    else
      stFind2From cmp key h fuel (← h.child .right (some n))

def stFind (cmp : K → K → ℤ) (fuel : ℕ) (t : Tree A K) (key : K) : Option (Option A) :=
  stFind2From cmp key t.heap fuel t.root

/-- `treeint_st_node_create`, where `calloc` returns the block `n`. It never returns a block
that is in use. -/
def createNode (h : Heap A K) (key : K) (n : A) : Option (Heap A K) :=
  if (h n).isSome then none else some (Function.update h n (some ⟨⟨none, none, none⟩, 0, key⟩))

def destroyNode (h : Heap A K) (n : Option A) : Option (Heap A K) :=
  n.bind fun a => (h a).map fun _ => Function.update h a none

/-- `__st_insert` -/
def stInsertAt (narrow : ℤ → ℤ) (fuel : ℕ) (t : Tree A K) (p n : Option A) (d : Option Side) :
    Option (Tree A K) := do
  let h ←
    if d = some .left then t.heap.setChild .left p n
    else t.heap.setChild .right p n
  let h ← h.setParent n p
  stUpdate narrow fuel ⟨t.root, h⟩ n

def stInsert (narrow : ℤ → ℤ) (cmp : K → K → ℤ) (fuel : ℕ) (t : Tree A K) (key : K) (new : A) :
    Option (ℤ × Tree A K) := do
  let (n, p, d) ← stFindFrom cmp key t.heap fuel t.root none none
  if n.isSome then
    return (-1, t)
  let h ← createNode t.heap key new
  if t.root.isSome then
    if d.isNone then
      none  -- assert(d != NONE)
    else
      pure (0, ← stInsertAt narrow fuel ⟨t.root, h⟩ p (some new) d)
  else
    pure (0, ⟨some new, h⟩)

/-- `st_replace_right` and `st_replace_left`: `r`, which is the node of the subtree on side `d`
of `n` next to `n` in order, takes the place of `n`. -/
def stReplace (d : Side) (h : Heap A K) (n r : Option A) : Option (Heap A K) := do
  let p ← h.parent n
  let rp ← h.parent r
  let h ←
    if (← h.child d.flip rp) = r then do
      let h ← h.setChild d.flip rp (← h.child d r)
      reparent h (← h.child d r) rp
    else pure h
  let h ← if (← h.parent rp) = n then h.setParent rp r else pure h
  let h ← h.setParent r p
  let h ← h.setChild d.flip r (← h.child d.flip n)
  let h ←
    if (← h.child d n) ≠ r then do
      let h ← h.setChild d r (← h.child d n)
      h.setParent (← h.child d n) r
    else pure h
  let h ← repoint h p n r
  reparent h (← h.child d.flip n) r

def stReplaceRight : Heap A K → Option A → Option A → Option (Heap A K) := stReplace .right
def stReplaceLeft : Heap A K → Option A → Option A → Option (Heap A K) := stReplace .left

/-- A branch of `__st_remove`: `r` takes the place of `del`, which has a child on side `d`. -/
def replaceAndUpdate (narrow : ℤ → ℤ) (fuel : ℕ) (d : Side) (t : Tree A K) (del : Option A) :
    Option (Tree A K) := do
  let r ← stEnd d.flip t.heap fuel (← t.heap.child d del)
  let root := if del = t.root then r else t.root
  let h ← stReplace d t.heap del r
  stUpdate narrow fuel ⟨root, h⟩ (← h.child d r)

/-- `__st_remove` -/
def stRemoveNode (narrow : ℤ → ℤ) (fuel : ℕ) (t : Tree A K) (del : Option A) :
    Option (Tree A K) := do
  if (← t.heap.child .right del).isSome then
    replaceAndUpdate narrow fuel .right t del
  else if (← t.heap.child .left del).isSome then
    replaceAndUpdate narrow fuel .left t del
  else if del = t.root then
    pure ⟨none, t.heap⟩
  else
    -- empty node
    let parent ← t.heap.parent del
    let h ← setChildOf t.heap parent del none
    stUpdate narrow fuel ⟨t.root, h⟩ parent

def stRemove (narrow : ℤ → ℤ) (cmp : K → K → ℤ) (fuel : ℕ) (t : Tree A K) (key : K) :
    Option (ℤ × Tree A K) := do
  let n ← stFind cmp fuel t key
  if n.isNone then
    return (-1, t)
  let t ← stRemoveNode narrow fuel t n
  pure (0, ⟨t.root, ← destroyNode t.heap n⟩)

/-- `treeint_st_dump_preorder`, which lists the nodes in order. -/
def dumpPreorder (h : Heap A K) : ℕ → Option A → Option (List A)
  | 0, _ => none
  | _ + 1, none => some []
  | fuel + 1, some n => do
    let l ← dumpPreorder h fuel (← h.child .left (some n))
    let r ← dumpPreorder h fuel (← h.child .right (some n))
    pure (l ++ n :: r)

/-- `treeint_st_height`: how many nodes the longest path from `n` down has. -/
def treeintStHeight (h : Heap A K) : ℕ → Option A → Option ℕ
  | 0, _ => none
  | _ + 1, none => some 0
  | fuel + 1, some n => do
    let lheight ← treeintStHeight h fuel (← h.child .left (some n))
    let rheight ← treeintStHeight h fuel (← h.child .right (some n))
    pure (if lheight > rheight then lheight + 1 else rheight + 1)

inductive Op (A K : Type) where
  /-- `new` is the block that `create_node` gets if it is called. -/
  | insert (key : K) (new : A)
  | remove (key : K)
  | find (key : K)

/-- What a call returns. -/
inductive Res (A : Type) where
  | code (c : ℤ)
  | node (n : Option A)
deriving DecidableEq

def call (narrow : ℤ → ℤ) (cmp : K → K → ℤ) (fuel : ℕ) (t : Tree A K) :
    Op A K → Option (Res A × Tree A K)
  | .insert key new => (stInsert narrow cmp fuel t key new).map fun r => (.code r.1, r.2)
  | .remove key => (stRemove narrow cmp fuel t key).map fun r => (.code r.1, r.2)
  | .find key => (stFind cmp fuel t key).map fun n => (.node n, t)

/-- A sequence of calls, with what each of them returned. -/
def calls (narrow : ℤ → ℤ) (cmp : K → K → ℤ) (fuel : ℕ) (t : Tree A K) :
    List (Op A K) → Option (List (Res A) × Tree A K)
  | [] => some ([], t)
  | op :: ops => do
    let (r, t) ← call narrow cmp fuel t op
    let (rs, t) ← calls narrow cmp fuel t ops
    pure (r :: rs, t)

end LinuxSummer.STree
