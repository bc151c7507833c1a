import LinuxSummer.STreeDepth
import LinuxSummer.STreeHints
import LinuxSummer.TreeintRb

/-! The two back ends of hw1/treeint/treeint.c side by side: `st_ops`, whose comparator subtracts
keys, and `rbtree_ops`, which compares them. -/
set_option linter.unusedSectionVars false

namespace LinuxSummer.Treeint
open STree TreeintRb

variable {A B : Type} [DecidableEq A] [DecidableEq B]

/-- The conversion to `int`, modulo 2^32. -/
def toInt32 (z : ℤ) : ℤ := (BitVec.ofInt 32 z).toInt

/-- `treeint_st_cmp`, with the value of the node and the key. -/
def treeintStCmp (value key : ℤ) : ℤ := toInt32 (value - key)

/-- A call through `struct treeint_ops`, with the block that `calloc` gives to either back end when
it creates a node. -/
inductive TreeOp (A B : Type) where
  | insert (a : ℤ) (st : A) (rb : B)
  | find (a : ℤ)
  | remove (a : ℤ)

def TreeOp.st : TreeOp A B → Op A ℤ
  | .insert a st _ => .insert a st
  | .find a => .find a
  | .remove a => .remove a

def TreeOp.rb : TreeOp A B → Op B ℤ
  | .insert a _ rb => .insert a rb
  | .find a => .find a
  | .remove a => .remove a

/-- What a caller can tell of a result. -/
inductive Answer where
  | code (c : ℤ)
  | found (b : Bool)
deriving DecidableEq

def answer : Res A → Answer
  | .code c => .code c
  | .node n => .found n.isSome

/-- The answers of `st_ops` to calls on a fresh tree. -/
def stAnswers (fuel : ℕ) (ops : List (TreeOp A B)) : Option (List Answer) :=
  (calls toShort treeintStCmp fuel stCreate (ops.map TreeOp.st)).map fun r => r.1.map answer

/-- The answers of `rbtree_ops` to calls on a fresh tree. -/
def rbAnswers (R : Rebalance B) (ops : List (TreeOp A B)) : List Answer :=
  (rbCalls R .nil (ops.map TreeOp.rb)).1.map answer

/-- The values that `__st_find` and `__st_find2` compare with `key`, from `n` on. -/
def compared (key : ℤ) (h : Heap A ℤ) : ℕ → Option A → List ℤ
  | 0, _ => []
  | _ + 1, none => []
  | fuel + 1, some n => match h n with
    | none => []
    | some nd => nd.key ::
      if treeintStCmp nd.key key = 0 then []
      else if treeintStCmp nd.key key > 0 then compared key h fuel (nd.child .left)
      else compared key h fuel (nd.child .right)

/-- No subtraction of a search for `key` wraps. -/
def NoWrap (fuel : ℕ) (t : Tree A ℤ) (key : ℤ) : Prop :=
  ∀ v ∈ compared key t.heap fuel t.root, -2 ^ 31 ≤ v - key ∧ v - key < 2 ^ 31

def key : Op A ℤ → ℤ
  | .insert a _ => a
  | .find a => a
  | .remove a => a

/-- Neither a subtraction nor a hint of the call leaves the range of its type. -/
structure StepFits (fuel : ℕ) (t : Tree A ℤ) (op : Op A ℤ) : Prop where
  noWrap : NoWrap fuel t (key op)
  hints : ∀ r t', call id treeintStCmp fuel t op = some (r, t') → HintsFit toShort t'

/-- Every call of the sequence is such a call, in the tree as it then is. -/
def RunFits (fuel : ℕ) : Tree A ℤ → List (Op A ℤ) → Prop
  | _, [] => True
  | t, op :: ops => StepFits fuel t op ∧
    ∀ r t', call toShort treeintStCmp fuel t op = some (r, t') → RunFits fuel t' ops

/-! ### The S-tree -/

variable {t t' : Tree A ℤ} {M : Contents A ℤ} {T : BinaryTree A} {fuel : ℕ}

theorem cmp_eq {v k : ℤ} (h : -2 ^ 31 ≤ v - k ∧ v - k < 2 ^ 31) : treeintStCmp v k = v - k := by
  rw [treeintStCmp, toInt32, BitVec.toInt_ofInt]
  exact Int.bmod_eq_of_le (by omega) (by omega)

theorem findFrom_eq {h : Heap A ℤ} {k : ℤ} (fuel : ℕ) (n p : Option A) (d : Option Side)
    (hfit : ∀ v ∈ compared k h fuel n, -2 ^ 31 ≤ v - k ∧ v - k < 2 ^ 31) :
    stFindFrom treeintStCmp k h fuel n p d = stFindFrom (fun a b => a - b) k h fuel n p d := by
  induction fuel generalizing n p d with
  | zero => rfl
  | succ fuel ih =>
    cases n with
    | none => rfl
    | some n =>
      cases hn : h n with
      | none => simp [stFindFrom, hn]
      | some nd =>
        simp only [compared, hn, List.mem_cons, forall_eq_or_imp] at hfit
        have hcmp := cmp_eq hfit.1
        simp only [stFindFrom, hn, Option.bind_eq_bind, Option.bind_some, hcmp] at hfit ⊢
        have hchild (d : Side) : h.child d (some n) = some (nd.child d) := by
          simp [Heap.links, hn]
        simp only [hchild, Option.bind_some]
        split
        · rfl
        · rename_i hne
          rw [if_neg hne] at hfit
          split
          · rename_i hgt
            rw [if_pos hgt] at hfit
            exact ih _ _ _ hfit.2
          · rename_i hgt
            rw [if_neg hgt] at hfit
            exact ih _ _ _ hfit.2

/-- Without a wrap the call is that with the exact difference. -/
theorem call_eq {narrow : ℤ → ℤ} {op : Op A ℤ} (h : NoWrap fuel t (key op)) :
    call narrow treeintStCmp fuel t op = call narrow (fun a b => a - b) fuel t op := by
  have hfrom := findFrom_eq fuel t.root none none h
  have hfind : stFind treeintStCmp fuel t (key op) = stFind (fun a b => a - b) fuel t (key op) := by
    rw [stFind, stFind, stFind2From_eq (p := none) (e := none), hfrom, ← stFind2From_eq]
  cases op with
  | insert a new =>
    simp only [key] at hfrom
    simp only [call, stInsert, hfrom]
  | remove a =>
    simp only [key] at hfind
    simp only [call, stRemove, hfind]
  | find a =>
    simp only [key] at hfind
    simp only [call, hfind]

/-- Calls that fit do to the S-tree what they do to the set. -/
theorem calls_fit (ops : List (Op A ℤ)) (ht : Stores t T M) (hneg : t.heap.NonNeg)
    (hfresh : Fresh M ops) (hfuel : (LinkedTree.inorder T).length + ops.length < fuel)
    (hfits : RunFits fuel t ops) :
    ∃ t', calls toShort treeintStCmp fuel t ops = some ((setCalls M ops).1, t') := by
  induction ops generalizing t T M with
  | nil => exact ⟨t, rfl⟩
  | cons op ops ih =>
    rw [List.length_cons] at hfuel
    obtain ⟨hstep, hrest⟩ := hfits
    rcases call_spec id fuel agrees_sub ht op hfresh.1 (by omega) with
      ⟨t₁, T₁, e, ht₁, hlen, hneg₁⟩ | ⟨-, hbad⟩
    · have hfit : HintsFit toShort t₁ := hstep.hints _ _ ((call_eq hstep.noWrap).trans e)
      have hcall : call toShort treeintStCmp fuel t op = some ((setCall M op).1, t₁) :=
        (call_eq hstep.noWrap).trans
          (call_fits agrees_sub ht op hfresh.1 (by omega) e hfit)
      obtain ⟨t', hcalls⟩ := ih ht₁ (hneg₁ (fun _ hz => hz) hneg) hfresh.2 (by omega)
        (hrest _ _ hcall)
      exact ⟨t', by simp [calls, hcall, hcalls, setCalls]⟩
    · exact absurd ⟨fun _ hz => hz, hneg⟩ hbad

/-! ### Both -/

/-- The answers of a set do not depend on the blocks that hold its elements. -/
theorem setCalls_answer {M : Contents A ℤ} {M' : Contents B ℤ}
    (h : ∀ k, (M k).isSome = (M' k).isSome) (ops : List (TreeOp A B)) :
    (setCalls M (ops.map TreeOp.st)).1.map answer = (setCalls M' (ops.map TreeOp.rb)).1.map answer := by
  induction ops generalizing M M' with
  | nil => rfl
  | cons op ops ih =>
    have hstep : answer (setCall M op.st).1 = answer (setCall M' op.rb).1 ∧
        ∀ k, ((setCall M op.st).2 k).isSome = ((setCall M' op.rb).2 k).isSome := by
      cases op with
      | insert a st rb =>
        simp only [TreeOp.st, TreeOp.rb, setCall, h a]
        split
        · exact ⟨rfl, h⟩
        · refine ⟨rfl, fun k => ?_⟩
          by_cases hk : k = a
          · simp [hk]
          · simp [hk, h k]
      | find a => exact ⟨congrArg Answer.found (h a), h⟩
      | remove a =>
        simp only [TreeOp.st, TreeOp.rb, setCall, h a]
        split
        · refine ⟨rfl, fun k => ?_⟩
          by_cases hk : k = a
          · simp [hk]
          · simp [hk, h k]
        · exact ⟨rfl, h⟩
    simp only [List.map_cons, setCalls, hstep.1, ih hstep.2]

/-- As long as no subtraction and no hint wraps, the two back ends give the same answers. -/
theorem back_ends_agree (R : Rebalance B) (ops : List (TreeOp A B))
    (hst : Fresh (fun _ => none) (ops.map TreeOp.st))
    (hrb : Fresh (fun _ => none) (ops.map TreeOp.rb)) (fuel : ℕ) (hfuel : ops.length < fuel)
    (hfits : RunFits fuel stCreate (ops.map TreeOp.st)) :
    stAnswers fuel ops = some (rbAnswers R ops) := by
  have hneg : (stCreate : Tree A ℤ).heap.NonNeg := fun a => by
    simp [stCreate, Heap.hintAt, Heap.data]
  obtain ⟨t', hcalls⟩ := calls_fit (ops.map TreeOp.st) stCreate_stores hneg hst
    (by simpa using hfuel) hfits
  have hanswer : (setCalls (fun _ => none) (ops.map TreeOp.st)).1.map answer =
      (setCalls (fun _ => none) (ops.map TreeOp.rb)).1.map answer :=
    setCalls_answer (fun _ => show (none : Option A).isSome = (none : Option B).isSome from rfl) ops
  rw [stAnswers, hcalls, Option.map_some, rbAnswers, rbCalls_spec rbStores_nil _ hrb, hanswer]

/-- Two keys that are 2^31 apart, and one between them. -/
def farKeys : List (TreeOp ℕ ℕ) :=
  [.insert (-2 ^ 30) 0 0, .insert (2 ^ 30) 1 1, .insert 0 2 2, .find (-2 ^ 30)]

/-- The rotation that the third insertion leads to puts -2^30 below 2^30. There the search does
not find it, as 2^30 + 2^30 wraps. -/
theorem far_key_lost :
    stAnswers 8 farKeys = some [.code 0, .code 0, .code 0, .found false] ∧
      ∀ R : Rebalance ℕ, rbAnswers R farKeys = [.code 0, .code 0, .code 0, .found true] := by
  refine ⟨by decide +kernel, fun R => ?_⟩
  have hfresh : Fresh (fun _ => none) (farKeys.map TreeOp.rb) := by
    simp [farKeys, TreeOp.rb, Fresh, FreshFor, setCall, Function.update_apply]
    grind
  rw [rbAnswers, rbCalls_spec rbStores_nil _ hfresh]
  decide +kernel

/-- `r` hangs below the last node of the first tree. -/
def graft {A : Type} : RbTree A → RbTree A → RbTree A
  | .nil, r => r
  | .node x a b, r => .node x a (graft b r)

theorem inorder_graft (l r : RbTree A) :
    LinkedTree.inorder (graft l r) = LinkedTree.inorder l ++ LinkedTree.inorder r := by
  induction l with
  | nil => rfl
  | node x a b _ ihb => simp [graft, ihb]

def eraseNode (n : A) : RbTree A → RbTree A
  | .nil => .nil
  | .node x l r =>
    if x.1 = n then graft (eraseNode n l) (eraseNode n r)
    else .node x (eraseNode n l) (eraseNode n r)

theorem inorder_eraseNode (n : A) (T : RbTree A) :
    LinkedTree.inorder (eraseNode n T) = (LinkedTree.inorder T).filter fun x => x.1 ≠ n := by
  induction T with
  | nil => rfl
  | node x l r ihl ihr =>
    rw [eraseNode]
    split
    · rename_i hx
      simp [inorder_graft, ihl, ihr, hx]
    · rename_i hx
      simp [ihl, ihr, hx]

/-- Insertion and removal where nothing has to be rotated. -/
def unrotated : Rebalance ℕ where
  rbInsertColor _ T := T
  rbErase := eraseNode
  inorder_insertColor _ _ := rfl
  inorder_erase := inorder_eraseNode

theorem back_ends_agree_leaf :
    stAnswers 8 [.insert 5 0 0, .insert 3 1 1, .remove 3, .find 5] =
      some (rbAnswers unrotated [.insert 5 0 0, .insert 3 1 1, .remove 3, .find 5]) := by
  have hfits : RunFits 8 (stCreate : Tree ℕ ℤ)
      [.insert 5 0, .insert 3 1, .remove 3, .find 5] := by
    refine ⟨⟨?_, fun r t' h => ?_⟩, fun r t' h => ?_⟩
    · unfold NoWrap
      decide +kernel
    · cases h
      intro a n hn
      rcases a with _ | a <;> cases hn
      rfl
    cases h
    refine ⟨⟨?_, fun r t' h => ?_⟩, fun r t' h => ?_⟩
    · unfold NoWrap
      decide +kernel
    · cases h
      intro a n hn
      rcases a with _ | _ | a <;> cases hn <;> rfl
    cases h
    refine ⟨⟨?_, fun r t' h => ?_⟩, fun r t' h => ?_⟩
    · unfold NoWrap
      decide +kernel
    · cases h
      intro a n hn
      rcases a with _ | _ | a <;> cases hn
      rfl
    cases h
    refine ⟨⟨?_, fun r t' h => ?_⟩, fun r t' h => trivial⟩
    · unfold NoWrap
      decide +kernel
    · cases h
      intro a n hn
      rcases a with _ | _ | a <;> cases hn
      rfl
  refine back_ends_agree (A := ℕ) unrotated _ ?_ ?_ 8 (by decide) hfits
  · simp [TreeOp.st, Fresh, FreshFor, setCall, Function.update_apply]
  · simp [TreeOp.rb, Fresh, FreshFor, setCall, Function.update_apply]

end LinuxSummer.Treeint
