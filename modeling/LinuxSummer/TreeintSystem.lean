import LinuxSummer.RbSet
import LinuxSummer.TreeintBackEnds

/-! The two back ends of hw1/treeint/treeint.c with the red-black tree of rbtree.c: they give the
same answers, the red-black tree stays shallow, and `destroy` frees every node of either exactly
once. -/
set_option linter.unusedSectionVars false

namespace LinuxSummer.Treeint
open BinaryTree LinkedTree STree Rbtree

variable {A B N K : Type} [DecidableEq A] [DecidableEq B]

/-! ### Answers -/

/-- The answers of `rbtree_ops` to calls on a fresh tree. -/
def rbtreeAnswers (fuel : ℕ) (ops : List (TreeOp A B)) : Option (List Answer) :=
  (rbCalls fuel treeintRbInit (ops.map TreeOp.rb)).map fun r => r.1.map answer

/-- As long as no subtraction and no hint of the S-tree wraps, the two back ends give the same
answers. -/
theorem ops_agree (ops : List (TreeOp A B)) (hst : Fresh (fun _ => none) (ops.map TreeOp.st))
    (hrb : Fresh (fun _ => none) (ops.map TreeOp.rb)) (fuel : ℕ) (hfuel : ops.length < fuel)
    (hfits : RunFits fuel stCreate (ops.map TreeOp.st)) (rbFuel : ℕ)
    (hrbFuel : 2 * Nat.log 2 (ops.length + 1) < rbFuel) :
    ∃ answers, stAnswers fuel ops = some answers ∧ rbtreeAnswers rbFuel ops = some answers := by
  have hneg : (stCreate : Tree A ℤ).heap.NonNeg := fun a => by
    simp [stCreate, STree.Heap.hintAt, STree.Heap.data]
  obtain ⟨t, hcalls⟩ := calls_fit (ops.map TreeOp.st) stCreate_stores hneg hst
    (by simpa using hfuel) hfits
  obtain ⟨t', T, hrbCalls, -, -⟩ := rbCalls_stores (ops.map TreeOp.rb) treeintRbInit_stores hrb
    (by simpa using hrbFuel)
  have hanswer : (setCalls (fun _ => none) (ops.map TreeOp.st)).1.map answer =
      (setCalls (fun _ => none) (ops.map TreeOp.rb)).1.map answer :=
    setCalls_answer (fun _ => show (none : Option A).isSome = (none : Option B).isSome from rfl) ops
  refine ⟨_, by rw [stAnswers, hcalls, Option.map_some], ?_⟩
  rw [rbtreeAnswers, hrbCalls, Option.map_some, hanswer]

theorem ops_agree_one :
    ∃ answers, stAnswers 4 ([.insert 5 0 0, .remove 5, .find 5] : List (TreeOp ℕ ℕ)) =
        some answers ∧
      rbtreeAnswers 5 ([.insert 5 0 0, .remove 5, .find 5] : List (TreeOp ℕ ℕ)) = some answers := by
  have hfits : RunFits 4 (stCreate : Tree ℕ ℤ) [.insert 5 0, .remove 5, .find 5] := by
    refine ⟨⟨?_, fun r t' h => ?_⟩, fun r t' h => ?_⟩
    · unfold NoWrap
      decide
    · cases h
      intro a n hn
      rcases a with _ | a <;> cases hn
      rfl
    cases h
    refine ⟨⟨?_, fun r t' h => ?_⟩, fun r t' h => ?_⟩
    · unfold NoWrap
      decide
    · cases h
      intro a n hn
      rcases a with _ | a <;> cases hn
    cases h
    refine ⟨⟨?_, fun r t' h => ?_⟩, fun r t' h => trivial⟩
    · unfold NoWrap
      decide
    · cases h
      intro a n hn
      rcases a with _ | a <;> cases hn
  refine ops_agree _ ?_ ?_ 4 (by decide) hfits 5 (by decide)
  · simp [TreeOp.st, Fresh, FreshFor]
  · simp [TreeOp.rb, Fresh, FreshFor]

/-! ### Depth -/

/-- `treeint_rb_height`: how many nodes the longest path from `n` down has. -/
def treeintRbHeight (h : Rbtree.Heap A) : ℕ → Option A → Option ℕ
  | 0, _ => none
  | _ + 1, none => some 0
  | fuel + 1, some n => do
    let lheight ← treeintRbHeight h fuel (← h.child .left (some n))
    let rheight ← treeintRbHeight h fuel (← h.child .right (some n))
    pure (if lheight > rheight then lheight + 1 else rheight + 1)

theorem treeintRbHeight_spec {h : Rbtree.Heap A} {par : Option A} {T : BinaryTree A} (fuel : ℕ)
    (hr : Rep h.links par T) (hfuel : T.height < fuel) :
    treeintRbHeight h fuel (top T) = some T.height := by
  induction T generalizing par fuel with
  | nil =>
    cases fuel with
    | zero => cases hfuel
    | succ fuel => rfl
  | node a l r ihl ihr =>
    rw [height] at hfuel
    obtain ⟨ha, hl, hr⟩ := hr
    cases fuel with
    | zero => omega
    | succ fuel =>
      have hleft := ihl fuel hl (by omega)
      have hright := ihr fuel hr (by omega)
      simp only [treeintRbHeight, top_node, Rbtree.Heap.child_some, ha, Option.map_some,
        Links.child, Option.bind_eq_bind, Option.bind_some, hleft, hright, Option.pure_def,
        Option.some.injEq, height]
      split <;> omega

/-- The nodes of a tree are those of the contents. -/
theorem ncard_contents {t : Root A} {T : BinaryTree A} {M : Contents A ℤ}
    (ht : RbStores t T M) : {k | (M k).isSome}.ncard = (inorder T).length := by
  have himage : {a | ∃ k, M k = some a} = ↑(inorder T).toFinset := by
    ext a
    simp only [Set.mem_ofPred_eq, List.coe_toFinset, ht.stores.live, ht.stores.contents]
  rw [← List.toFinset_card_of_nodup ht.tree.nodup, ← Set.ncard_coe_finset, ← himage]
  apply Set.ncard_congr fun k hk => (M k).get (show (M k).isSome from hk)
  · intro k hk
    exact ⟨k, (Option.some_get hk).symm⟩
  · intro k l hk hl heq
    have hk' := (ht.stores.contents k _).mp (Option.some_get hk).symm
    have hl' := (ht.stores.contents l _).mp (Option.some_get hl).symm
    rw [heq] at hk'
    exact Option.some.inj (hk'.symm.trans hl')
  · rintro a ⟨k, hk⟩
    exact ⟨k, Option.isSome_iff_exists.mpr ⟨a, hk⟩, Option.get_of_eq_some _ hk⟩

/-- After any calls the red-black tree is at most twice as deep as a perfect tree with as many
values as it then has. -/
theorem rb_height_le_log (ops : List (Op A ℤ)) (hfresh : Fresh (fun _ => none) ops) (fuel : ℕ)
    (hfuel : 2 * Nat.log 2 (ops.length + 1) < fuel) :
    ∃ t d, rbCalls fuel treeintRbInit ops = some ((setCalls (fun _ => none) ops).1, t) ∧
      treeintRbHeight t.heap fuel t.node = some d ∧
      d ≤ 2 * Nat.log 2 ({k | ((setCalls (fun _ => none) ops).2 k).isSome}.ncard + 1) := by
  obtain ⟨t, T, e, ht, hlen⟩ := rbCalls_stores ops treeintRbInit_stores hfresh
    (by simpa using hfuel)
  rw [inorder_nil, List.length_nil, Nat.zero_add] at hlen
  have hheight := length_le_log (c := []) ht.tree rfl
  rw [List.length_nil, Nat.zero_add] at hheight
  have hmono : Nat.log 2 ((inorder T).length + 1) ≤ Nat.log 2 (ops.length + 1) :=
    Nat.log_mono_right (by omega)
  refine ⟨t, T.height, e, ?_, by rwa [ncard_contents ht]⟩
  rw [ht.tree.root]
  exact treeintRbHeight_spec fuel ht.tree.rep (by omega)

theorem rb_height_le_log_three :
    ∃ t d, rbCalls 5 (treeintRbInit : Root ℕ) [.insert 1 0, .insert 2 1, .insert 3 2] =
        some ((setCalls (fun _ => none) [.insert 1 0, .insert 2 1, .insert 3 2]).1, t) ∧
      treeintRbHeight t.heap 5 t.node = some d ∧
      d ≤ 2 * Nat.log 2 ({k | ((setCalls (fun _ => none)
        ([.insert 1 0, .insert 2 1, .insert 3 2] : List (Op ℕ ℤ))).2 k).isSome}.ncard + 1) :=
  rb_height_le_log _ (by
    simp [Fresh, FreshFor, setCall, Function.update_apply]
    grind) 5 (by decide)

/-! ### Destruction -/

/-- `free`, which fails for a node that is not allocated. -/
def free (h : A → Option N) (n : Option A) : Option (A → Option N) :=
  n.bind fun a => (h a).map fun _ => Function.update h a none

/-- `__treeint_rb_destroy` and `__st_destroy`, for nodes with the pointers `links`. -/
def destroyFrom (links : N → Links A) : ℕ → (A → Option N) → Option A → Option (A → Option N)
  | 0, _, _ => none
  | fuel + 1, h, n => do
    let left := (links (← n.bind h)).left
    let h ← (if left.isSome then destroyFrom links fuel h left else pure h)
    let right := (links (← n.bind h)).right
    let h ← (if right.isSome then destroyFrom links fuel h right else pure h)
    free h n

/-- The nodes that `treeint_rb_destroy` leaves allocated. -/
def treeintRbDestroy (fuel : ℕ) (t : Root A) : Option (Rbtree.Heap A) :=
  if t.node.isSome then destroyFrom (·.toLinks) fuel t.heap t.node else pure t.heap

/-- The nodes that `st_destroy` leaves allocated. -/
def stDestroy (fuel : ℕ) (t : Tree A K) : Option (STree.Heap A K) :=
  if t.root.isSome then destroyFrom (·.toLinks) fuel t.heap t.root else pure t.heap

section Destroy
variable {links : N → Links A} {h : A → Option N} {par : Option A} {T : BinaryTree A} {fuel : ℕ}

/-- The walk frees the nodes of its tree and no others. -/
theorem destroyFrom_spec (hr : Rep (fun a => (h a).map links) par T) (hnd : (inorder T).Nodup)
    (hfuel : T.height ≤ fuel) :
    ∃ h', (if (top T).isSome then destroyFrom links fuel h (top T) else pure h) = some h' ∧
      (∀ a ∈ inorder T, h' a = none) ∧ ∀ a, a ∉ inorder T → h' a = h a := by
  induction T generalizing h par fuel with
  | nil => exact ⟨h, rfl, nofun, fun _ _ => rfl⟩
  | node n l r ihl ihr =>
    obtain ⟨hn, hl, hr⟩ := hr
    obtain ⟨nd, hnode, hlinks⟩ := Option.map_eq_some_iff.mp hn
    rw [height] at hfuel
    cases fuel with
    | zero => omega
    | succ fuel =>
      simp only [inorder_node, List.nodup_append, List.nodup_cons, List.mem_cons] at hnd ⊢
      obtain ⟨h₁, e₁, hnone₁, hframe₁⟩ := ihl hl hnd.1 (show l.height ≤ fuel by omega)
      have hr₁ : Rep (fun a => (h₁ a).map links) (some n) r := by
        refine rep_frame hr fun a ha => ?_
        show (h₁ a).map links = (h a).map links
        rw [hframe₁ a (by grind)]
      obtain ⟨h₂, e₂, hnone₂, hframe₂⟩ := ihr hr₁ hnd.2.1.2 (show r.height ≤ fuel by omega)
      -- the node itself is still there when its subtrees are gone
      have hnode₁ : h₁ n = some nd := (hframe₁ n (by grind)).trans hnode
      have hnode₂ : h₂ n = some nd := (hframe₂ n (by grind)).trans hnode₁
      refine ⟨Function.update h₂ n none, ?_, ?_, ?_⟩
      · simp only [top_node, Option.isSome_some, if_true, destroyFrom, Option.bind_some, hnode,
          hlinks, e₁, hnode₁, e₂, free, hnode₂, Option.map_some, Option.bind_eq_bind]
      · intro a ha
        rw [List.mem_append, List.mem_cons] at ha
        by_cases han : a = n
        · rw [han, Function.update_self]
        · rw [Function.update_of_ne han]
          rcases ha with ha | ha | ha
          · rw [hframe₂ a (by grind), hnone₁ a ha]
          · exact absurd ha han
          · exact hnone₂ a ha
      · intro a ha
        rw [List.mem_append, List.mem_cons] at ha
        rw [Function.update_of_ne (by grind), hframe₂ a (by grind), hframe₁ a (by grind)]

/-- When nothing is allocated but the nodes of the tree, nothing is left. -/
theorem destroy_all (hr : Rep (fun a => (h a).map links) par T) (hnd : (inorder T).Nodup)
    (hlive : ∀ a, a ∉ inorder T → h a = none) (hfuel : T.height ≤ fuel) :
    (if (top T).isSome then destroyFrom links fuel h (top T) else pure h) =
      some fun _ => none := by
  obtain ⟨h', e, hnone, hframe⟩ := destroyFrom_spec hr hnd hfuel
  rw [e, Option.some_inj]
  funext a
  by_cases ha : a ∈ inorder T
  · exact hnone a ha
  · rw [hframe a ha, hlive a ha]

end Destroy

/-- After any calls from `treeint_rb_init` on, `treeint_rb_destroy` frees every node exactly once
and follows no pointer to a node that is freed. -/
theorem rb_destroy_frees_all (ops : List (Op A ℤ)) (hfresh : Fresh (fun _ => none) ops) (fuel : ℕ)
    (hfuel : 2 * Nat.log 2 (ops.length + 1) < fuel) :
    ∃ t, rbCalls fuel treeintRbInit ops = some ((setCalls (fun _ => none) ops).1, t) ∧
      treeintRbDestroy fuel t = some fun _ => none := by
  obtain ⟨t, T, e, ht, hlen⟩ := rbCalls_stores ops treeintRbInit_stores hfresh
    (by simpa using hfuel)
  rw [inorder_nil, List.length_nil, Nat.zero_add] at hlen
  refine ⟨t, e, ?_⟩
  have hheight := length_le_log (c := []) ht.tree rfl
  rw [List.length_nil, Nat.zero_add] at hheight
  have hmono : Nat.log 2 ((inorder T).length + 1) ≤ Nat.log 2 (ops.length + 1) :=
    Nat.log_mono_right (by omega)
  rw [treeintRbDestroy, ht.tree.root]
  refine destroy_all ht.tree.rep ht.tree.nodup (fun a ha => ?_) (by omega)
  by_contra hne
  obtain ⟨nd, hnd⟩ := Option.ne_none_iff_exists'.mp hne
  apply ha
  rw [ht.stores.live, Root.forget, keys_forget]
  exact ⟨nd.value, by simp [Rbtree.Heap.values, hnd]⟩

theorem rb_destroy_frees_all_three :
    ∃ t, rbCalls 5 (treeintRbInit : Root ℕ) [.insert 1 0, .insert 2 1, .insert 3 2] =
        some ((setCalls (fun _ => none) [.insert 1 0, .insert 2 1, .insert 3 2]).1, t) ∧
      treeintRbDestroy 5 t = some fun _ => none :=
  rb_destroy_frees_all _ (by
    simp [Fresh, FreshFor, setCall, Function.update_apply]
    grind) 5 (by decide)

/-- The same for the S-tree, whose hints are unbounded integers here. -/
theorem st_destroy_frees_all [LinearOrder K] (cmp : K → K → ℤ) (hcmp : Agrees cmp)
    (ops : List (Op A K)) (hfresh : Fresh (fun _ => none) ops) (fuel : ℕ)
    (hfuel : ops.length < fuel) :
    ∃ t, calls id cmp fuel stCreate ops = some ((setCalls (fun _ => none) ops).1, t) ∧
      stDestroy fuel t = some fun _ => none := by
  have hneg : (stCreate : Tree A K).heap.NonNeg := fun a => by
    simp [stCreate, STree.Heap.hintAt, STree.Heap.data]
  rcases calls_spec id hcmp ops stCreate_stores hfresh (by simpa using hfuel) with
    ⟨t, T, e, ht, hlen⟩ | ⟨-, hbad⟩
  · rw [inorder_nil, List.length_nil, Nat.zero_add] at hlen
    have hheight := height_le_numNodes T
    rw [← length_inorder] at hheight
    refine ⟨t, e, ?_⟩
    rw [stDestroy, ht.holds.root]
    refine destroy_all ht.holds.rep ht.holds.nodup (fun a ha => ?_) (by omega)
    by_contra hne
    obtain ⟨nd, hnd⟩ := Option.ne_none_iff_exists'.mp hne
    exact ha ((ht.live a).mpr ⟨nd.key, by simp [STree.Heap.keys, STree.Heap.data, hnd]⟩)
  · exact absurd ⟨fun _ hz => hz, hneg⟩ hbad

theorem st_destroy_frees_all_three :
    ∃ t, calls id (fun a b : ℤ => a - b) 5 (stCreate : Tree ℕ ℤ)
        [.insert 1 0, .insert 2 1, .insert 3 2] =
        some ((setCalls (fun _ => none) [.insert 1 0, .insert 2 1, .insert 3 2]).1, t) ∧
      stDestroy 5 t = some fun _ => none :=
  st_destroy_frees_all _ agrees_sub _ (by
    simp [Fresh, FreshFor, setCall, Function.update_apply]
    grind) 5 (by decide)

end LinuxSummer.Treeint
