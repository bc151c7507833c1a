import Mathlib.Data.List.Pairwise
import LinuxSummer.STreeSet

/-! The red-black back end of hw1/treeint/treeint_rb.c. A tree is given with its nodes and their
values; `rb_insert_color` and `rb_erase`, of which only what they do to the order of the nodes is
used, are parameters. -/
set_option linter.unusedSectionVars false

namespace LinuxSummer.TreeintRb
open BinaryTree LinkedTree STree
open scoped List

variable {A : Type} [DecidableEq A]

/-- The nodes `struct treeint_rb` below a `struct rb_node *`, each with its address. -/
abbrev RbTree (A : Type) := BinaryTree (A × ℤ)

/-- The functions of the Linux red-black tree. -/
structure Rebalance (A : Type) [DecidableEq A] where
  rbInsertColor : A → RbTree A → RbTree A
  rbErase : A → RbTree A → RbTree A
  inorder_insertColor : ∀ n T, inorder (rbInsertColor n T) = inorder T
  inorder_erase : ∀ n T, inorder (rbErase n T) = (inorder T).filter fun x => x.1 ≠ n

/-- `__treeint_rb_insert`, where `calloc` returns the block `new`; `none` is NULL. -/
def treeintRbInsertNode (a : ℤ) (new : A) : RbTree A → Option (RbTree A)
  | .nil => some (.node (new, a) .nil .nil)
  | .node entry l r =>
    if a = entry.2 then none
    else if a < entry.2 then (treeintRbInsertNode a new l).map fun l => .node entry l r
    else (treeintRbInsertNode a new r).map fun r => .node entry l r

def treeintRbInsert (R : Rebalance A) (T : RbTree A) (a : ℤ) (new : A) : ℤ × RbTree A :=
  match treeintRbInsertNode a new T with
  | none => (-1, T)
  | some T => (0, R.rbInsertColor new T)

def treeintRbFind (a : ℤ) : RbTree A → Option A
  | .nil => none
  | .node entry l r =>
    if a = entry.2 then some entry.1
    else if a < entry.2 then treeintRbFind a l
    else treeintRbFind a r

def treeintRbRemove (R : Rebalance A) (T : RbTree A) (a : ℤ) : ℤ × RbTree A :=
  match treeintRbFind a T with
  | none => (-1, T)
  | some entry => (0, R.rbErase entry T)

/-- A call through `rbtree_ops`. -/
def rbCall (R : Rebalance A) (T : RbTree A) : Op A ℤ → Res A × RbTree A
  | .insert a new => ((.code (treeintRbInsert R T a new).1), (treeintRbInsert R T a new).2)
  | .remove a => ((.code (treeintRbRemove R T a).1), (treeintRbRemove R T a).2)
  | .find a => (.node (treeintRbFind a T), T)

def rbCalls (R : Rebalance A) (T : RbTree A) : List (Op A ℤ) → List (Res A) × RbTree A
  | [] => ([], T)
  | op :: ops =>
    let r := rbCall R T op
    let rs := rbCalls R r.2 ops
    (r.1 :: rs.1, rs.2)

/-- The tree is in the order of the values, no two nodes have one address, and the values are
those of `M`. -/
structure RbStores (T : RbTree A) (M : Contents A ℤ) : Prop where
  sorted : (inorder T).Pairwise fun x y => x.2 < y.2
  nodup : ((inorder T).map Prod.fst).Nodup
  contents : ∀ k a, M k = some a ↔ (a, k) ∈ inorder T

variable {R : Rebalance A} {T T' : RbTree A} {M : Contents A ℤ} {a : ℤ} {new : A}

/-- The search follows the order. -/
theorem find_spec (hs : (inorder T).Pairwise fun x y => x.2 < y.2) (n : A) :
    treeintRbFind a T = some n ↔ (n, a) ∈ inorder T := by
  induction T with
  | nil => simp [treeintRbFind]
  | node entry l r ihl ihr =>
    rw [inorder_node, List.pairwise_append, List.pairwise_cons] at hs
    obtain ⟨hl, ⟨hentry, hr⟩, hlr⟩ := hs
    have hbelow (h : (n, a) ∈ inorder l) : a < entry.2 := hlr _ h _ (List.mem_cons_self ..)
    have habove (h : (n, a) ∈ inorder r) : entry.2 < a := hentry _ h
    rw [treeintRbFind, inorder_node, List.mem_append, List.mem_cons]
    split
    · rename_i heq
      constructor
      · intro h
        cases h
        exact Or.inr (Or.inl (by rw [heq]))
      · rintro (h | h | h)
        · have hlt := hbelow h
          omega
        · rw [← h]
        · have hlt := habove h
          omega
    · rename_i hne
      have hself : (n, a) ≠ entry := fun h => hne (congrArg Prod.snd h)
      split
      · rename_i hlt
        rw [ihl hl]
        constructor
        · exact Or.inl
        · rintro (h | h | h)
          · exact h
          · exact absurd h hself
          · have hgt := habove h
            omega
      · rename_i hge
        rw [ihr hr]
        constructor
        · exact fun h => Or.inr (Or.inr h)
        · rintro (h | h | h)
          · have hlt := hbelow h
            omega
          · exact absurd h hself
          · exact h

/-- A value that is missing is put in its place, and one that is there is not put a second time. -/
theorem insertNode_spec (new : A) (a : ℤ) (hs : (inorder T).Pairwise fun x y => x.2 < y.2) :
    (treeintRbInsertNode a new T = none ∧ ∃ n, (n, a) ∈ inorder T) ∨
    ∃ T', treeintRbInsertNode a new T = some T' ∧ (∀ n, (n, a) ∉ inorder T) ∧
      (inorder T').Pairwise (fun x y => x.2 < y.2) ∧
      (inorder T').Perm ((new, a) :: inorder T) := by
  induction T with
  | nil => exact Or.inr ⟨_, rfl, by simp, by simp, by simp⟩
  | node entry l r ihl ihr =>
    rw [inorder_node, List.pairwise_append, List.pairwise_cons] at hs
    obtain ⟨hl, ⟨hentry, hr⟩, hlr⟩ := hs
    rw [treeintRbInsertNode]
    split
    · rename_i heq
      exact Or.inl ⟨rfl, entry.1, by simp [heq]⟩
    · rename_i hne
      split
      · rename_i hlt
        rcases ihl hl with ⟨e, n, hn⟩ | ⟨l', e, hno, hs', hperm⟩
        · exact Or.inl ⟨by rw [e, Option.map_none], n, by simp [hn]⟩
        · refine Or.inr ⟨_, by rw [e, Option.map_some], fun n hn => ?_, ?_, ?_⟩
          · rw [inorder_node, List.mem_append, List.mem_cons] at hn
            rcases hn with hn | hn | hn
            · exact hno n hn
            · exact hne (congrArg Prod.snd hn)
            · have hgt := hentry _ hn
              omega
          · rw [inorder_node, List.pairwise_append, List.pairwise_cons]
            refine ⟨hs', ⟨hentry, hr⟩, fun x hx y hy => ?_⟩
            rcases List.mem_cons.mp (hperm.mem_iff.mp hx) with rfl | hx
            · rcases List.mem_cons.mp hy with rfl | hy
              · exact hlt
              · exact lt_trans hlt (hentry y hy)
            · exact hlr x hx y hy
          · exact hperm.append_right _
      · rename_i hge
        have hgt : entry.2 < a := by omega
        rcases ihr hr with ⟨e, n, hn⟩ | ⟨r', e, hno, hs', hperm⟩
        · exact Or.inl ⟨by rw [e, Option.map_none], n, by simp [hn]⟩
        · refine Or.inr ⟨_, by rw [e, Option.map_some], fun n hn => ?_, ?_, ?_⟩
          · rw [inorder_node, List.mem_append, List.mem_cons] at hn
            rcases hn with hn | hn | hn
            · have hlt := hlr _ hn _ (List.mem_cons_self ..)
              simp only at hlt
              omega
            · exact hne (congrArg Prod.snd hn)
            · exact hno n hn
          · rw [inorder_node, List.pairwise_append, List.pairwise_cons]
            refine ⟨hl, ⟨fun y hy => ?_, hs'⟩, fun x hx y hy => ?_⟩
            · rcases List.mem_cons.mp (hperm.mem_iff.mp hy) with rfl | hy
              · exact hgt
              · exact hentry y hy
            · rcases List.mem_cons.mp hy with rfl | hy
              · exact hlr x hx _ (List.mem_cons_self ..)
              · have hlt := hlr x hx entry (List.mem_cons_self ..)
                rcases List.mem_cons.mp (hperm.mem_iff.mp hy) with rfl | hy
                · exact lt_trans hlt hgt
                · exact lt_trans hlt (hentry y hy)
          · calc inorder l ++ entry :: inorder r'
              ~ inorder l ++ entry :: (new, a) :: inorder r := (hperm.cons entry).append_left _
            _ ~ inorder l ++ (new, a) :: entry :: inorder r :=
              (List.Perm.swap (new, a) entry _).append_left _
            _ ~ (new, a) :: (inorder l ++ entry :: inorder r) := List.perm_middle

theorem rbStores_nil : RbStores (.nil : RbTree A) fun _ => none :=
  ⟨List.Pairwise.nil, List.nodup_nil, by simp⟩

theorem find_eq (h : RbStores T M) (a : ℤ) : treeintRbFind a T = M a := by
  apply Option.ext
  intro n
  rw [find_spec h.sorted, h.contents]

theorem insert_spec (h : RbStores T M) (hfresh : FreshFor M (.insert a new)) :
    (rbCall R T (.insert a new)).1 = (setCall M (.insert a new)).1 ∧
      RbStores (rbCall R T (.insert a new)).2 (setCall M (.insert a new)).2 := by
  simp only [rbCall, treeintRbInsert]
  rcases insertNode_spec new a h.sorted with
    ⟨e, n, hn⟩ | ⟨T', e, hno, hs, hperm⟩
  · have hM : M a = some n := (h.contents a n).mpr hn
    simp only [e, setCall, hM, Option.isSome_some, if_true]
    exact ⟨trivial, h⟩
  · have hM : M a = none := by
      by_contra hne
      obtain ⟨n, hn⟩ := Option.ne_none_iff_exists'.mp hne
      exact hno n ((h.contents a n).mp hn)
    have hnew : new ∉ (inorder T).map Prod.fst := by
      intro hmem
      obtain ⟨⟨n, k⟩, hx, rfl⟩ := List.mem_map.mp hmem
      exact hfresh hM k ((h.contents k _).mpr hx)
    simp only [e, setCall, hM, Option.isSome_none, Bool.false_eq_true, if_false]
    refine ⟨trivial, ?_, ?_, fun k n => ?_⟩
    · rw [R.inorder_insertColor]
      exact hs
    · rw [R.inorder_insertColor, (hperm.map Prod.fst).nodup_iff, List.map_cons, List.nodup_cons]
      exact ⟨hnew, h.nodup⟩
    · rw [R.inorder_insertColor, hperm.mem_iff, List.mem_cons, ← h.contents]
      by_cases hk : k = a
      · subst hk
        simp [hM, eq_comm]
      · simp [hk]

theorem remove_spec (h : RbStores T M) :
    (rbCall R T (.remove a)).1 = (setCall M (.remove a)).1 ∧
      RbStores (rbCall R T (.remove a)).2 (setCall M (.remove a)).2 := by
  simp only [rbCall, treeintRbRemove, find_eq h]
  cases hM : M a with
  | none =>
    simp only [setCall, hM, Option.isSome_none, Bool.false_eq_true, if_false]
    exact ⟨trivial, h⟩
  | some n =>
    simp only [setCall, hM, Option.isSome_some, if_true]
    refine ⟨trivial, ?_, ?_, fun k b => ?_⟩
    · rw [R.inorder_erase]
      exact h.sorted.filter _
    · rw [R.inorder_erase]
      exact h.nodup.sublist (List.filter_sublist.map Prod.fst)
    · rw [R.inorder_erase, List.mem_filter, ← h.contents]
      by_cases hk : k = a
      · subst hk
        rw [Function.update_self, hM]
        constructor
        · intro hnone
          cases hnone
        · rintro ⟨hb, hne⟩
          exact absurd (Option.some.inj hb).symm (of_decide_eq_true hne)
      · rw [Function.update_of_ne hk]
        refine ⟨fun hb => ⟨hb, decide_eq_true ?_⟩, And.left⟩
        rintro rfl
        -- one node has one value
        have heq := List.inj_on_of_nodup_map h.nodup ((h.contents k _).mp hb)
          ((h.contents a _).mp hM) rfl
        exact hk (congrArg Prod.snd heq)

/-- A call through `rbtree_ops` does to the tree what it does to the set. -/
theorem rbCall_spec (h : RbStores T M) (op : Op A ℤ) (hfresh : FreshFor M op) :
    (rbCall R T op).1 = (setCall M op).1 ∧ RbStores (rbCall R T op).2 (setCall M op).2 := by
  cases op with
  | insert a new => exact insert_spec h hfresh
  | remove a => exact remove_spec h
  | find a =>
    simp only [rbCall, find_eq h, setCall]
    exact ⟨trivial, h⟩

/-- The red-black back end refines a finite set. -/
theorem rbCalls_spec (h : RbStores T M) (ops : List (Op A ℤ)) (hfresh : Fresh M ops) :
    (rbCalls R T ops).1 = (setCalls M ops).1 := by
  induction ops generalizing T M with
  | nil => rfl
  | cons op ops ih =>
    obtain ⟨hres, hstores⟩ := rbCall_spec (R := R) h op hfresh.1
    simp only [rbCalls, setCalls, hres, ih hstores hfresh.2]

end LinuxSummer.TreeintRb
