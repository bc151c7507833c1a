import LinuxSummer.RbInsert
import LinuxSummer.RbRemove
import LinuxSummer.STreeDepth

/-! The functions of treeint_rb.c over rbtree.c refine a finite set of integers. Without its colors
a red-black tree is a search tree like the S-tree, whose lemmas on contents apply to it. -/
set_option linter.unusedSectionVars false

namespace LinuxSummer.Rbtree
open BinaryTree LinkedTree RedBlack STree

variable {A : Type} [DecidableEq A] {t t' : Root A} {h : Heap A} {M : Contents A ℤ}
  {T : BinaryTree A} {c : Ctx A} {s : BinaryTree A} {new n : A} {a : ℤ} {fuel : ℕ}

/-- The nodes without their colors. -/
def Heap.forget (h : Heap A) : STree.Heap A ℤ :=
  fun a => (h a).map fun n => ⟨n.toLinks, 0, n.value⟩

def Root.forget (t : Root A) : Tree A ℤ := ⟨t.node, t.heap.forget⟩

theorem links_forget : STree.Heap.links h.forget = h.links := by
  funext a
  simp [STree.Heap.links, Heap.links, Heap.forget, Function.comp_def]

theorem keys_forget : STree.Heap.keys h.forget = h.values := by
  funext a
  simp [STree.Heap.keys, STree.Heap.data, Heap.values, Heap.forget, Function.comp_def]

theorem nonNeg_forget : STree.Heap.NonNeg h.forget := by
  intro a
  cases ha : h a <;> simp [STree.Heap.hintAt, STree.Heap.data, Heap.forget, ha]

theorem Holds.forget (ht : Holds t T) : STree.Holds t.forget T :=
  ⟨ht.root, by rw [Root.forget, links_forget]; exact ht.rep, ht.nodup⟩

/-- The root pointer and the heap hold the red-black tree `T`, and the search tree that it is
without its colors has the contents `M`. -/
structure RbStores (t : Root A) (T : BinaryTree A) (M : Contents A ℤ) : Prop where
  tree : RbHolds t T
  stores : Stores t.forget T M

/-! ### The searches -/

theorem findFrom_eq (n : Option A) :
    findFrom a h fuel n = stFind2From (fun v k => v - k) a h.forget fuel n := by
  induction fuel generalizing n with
  | zero => rfl
  | succ fuel ih =>
    cases n with
    | none => rfl
    | some n =>
      cases hn : h n with
      | none => simp [findFrom, stFind2From, Heap.forget, Heap.values, hn]
      | some nd =>
        have heq : a = nd.value ↔ nd.value - a = 0 := by omega
        have hlt : a < nd.value ↔ 0 < nd.value - a := by omega
        simp only [findFrom, stFind2From, Heap.forget, Heap.value_some, Heap.values, hn, ih, heq,
          hlt, Option.map_some, Option.bind_eq_bind, Option.bind_some, Heap.child_some,
          Heap.links, STree.Heap.child_some, STree.Heap.links, gt_iff_lt]

/-- The child pointer on side `d` of `p`, or the root pointer. -/
def placeAt (p : Option A) : Option Side → Place A
  | none => .root
  | some d => .child d p

/-- `__treeint_rb_insert` searches as `__st_find` does, and remembers the place instead of the
side. -/
theorem insertPlace_eq (fuel : ℕ) (n p : Option A) (e : Option Side)
    (hn : (placeAt p e).get t = some n) :
    insertPlace a t fuel p (placeAt p e) =
      (stFindFrom (fun v k => v - k) a t.heap.forget fuel n p e).map fun r =>
        if r.1.isSome then none else some (r.2.1, placeAt r.2.1 r.2.2) := by
  induction fuel generalizing n p e with
  | zero => rfl
  | succ fuel ih =>
    cases n with
    | none => simp [insertPlace, stFindFrom, hn]
    | some n =>
      cases hnd : t.heap n with
      | none => simp [insertPlace, stFindFrom, Heap.forget, Heap.values, hn, hnd]
      | some nd =>
        have heq : a = nd.value ↔ nd.value - a = 0 := by omega
        have hlt : a < nd.value ↔ 0 < nd.value - a := by omega
        have hchild (d : Side) : (placeAt (some n) (some d)).get t = some (nd.child d) := by
          simp [placeAt, Place.get, Heap.links, hnd]
        have hleft := ih _ _ _ (hchild .left)
        have hright := ih _ _ _ (hchild .right)
        simp only [placeAt] at hleft hright
        simp only [insertPlace, hn, Option.isNone_some, Bool.false_eq_true, if_false,
          Option.bind_eq_bind, Option.bind_some, Heap.value_some, Heap.values, hnd,
          Option.map_some, stFindFrom, Heap.forget, heq, hlt, hleft, hright,
          STree.Heap.child_some, STree.Heap.links, gt_iff_lt, Option.pure_def]
        split
        · rfl
        · split <;> rfl

/-! ### Insertion -/

/-- `rb_link_node` hangs the new node, which is red, in the place where its value is missing. -/
theorem rbLinkNode_spec (a : ℤ) (ht : Holds t (plug c .nil)) (hnew : t.heap new = none) :
    ∃ h t', callocNode t.heap a new = some h ∧
      rbLinkNode ⟨t.node, h⟩ (some new) (parentOf none c)
        (placeAt (parentOf none c) (sideOf none c)) = some t' ∧
      Holds t' (plug c (.node new .nil .nil)) ∧
      t'.heap.colors = Function.update t.heap.colors new (some .red) ∧
      t'.heap.values = Function.update t.heap.values new (some a) := by
  obtain ⟨hc, -⟩ := rep_plug.mp ht.rep
  have hnd : (addrs c).Nodup := by
    simpa only [inorder_nil, List.append_nil] using nodup_plug.mp ht.nodup
  have hmem : new ∉ addrs c := by
    intro hmem
    have hin : new ∈ inorder (plug c (.nil : BinaryTree A)) := mem_plug.mpr (Or.inl hmem)
    obtain ⟨k, hk⟩ := rep_live ht.rep hin
    simp [Heap.links, hnew] at hk
  let h₁ : Heap A := Function.update t.heap new
    (some ⟨⟨parentOf none c, none, none⟩, .red, a⟩)
  have hframe₁ : ∀ u, u ≠ new → h₁.links u = t.heap.links u := by
    intro u hu
    simp [h₁, Heap.links, hu]
  have hnew₁ : h₁.links new = some ⟨parentOf none c, none, none⟩ := by simp [h₁, Heap.links]
  have hcol₁ : h₁.colors = Function.update t.heap.colors new (some .red) := by
    funext u
    by_cases hu : u = new
    · simp [h₁, Heap.colors, hu]
    · simp [h₁, Heap.colors, hu]
  have hval₁ : h₁.values = Function.update t.heap.values new (some a) := by
    funext u
    by_cases hu : u = new
    · simp [h₁, Heap.values, hu]
    · simp [h₁, Heap.values, hu]
  have hnd' : (inorder (plug c (.node new .nil .nil))).Nodup := by
    rw [nodup_plug, List.nodup_append]
    simp only [inorder_node, inorder_nil, List.nil_append, List.nodup_cons, List.not_mem_nil,
      not_false_eq_true, List.nodup_nil, and_self, List.mem_singleton, true_and]
    refine ⟨hnd, fun u hu v hv huv => hmem ?_⟩
    rwa [← hv, ← huv]
  have hlink : ∃ h, callocNode t.heap a new = some h ∧
      rbLinkNode ⟨t.node, h⟩ (some new) (parentOf none c)
        (placeAt (parentOf none c) (sideOf none c)) =
      (placeAt (parentOf none c) (sideOf none c)).set ⟨t.node, h₁⟩ (some new) := by
    refine ⟨Function.update t.heap new (some ⟨⟨none, none, none⟩, .red, a⟩),
      by simp [callocNode, hnew], ?_⟩
    simp [rbLinkNode, rbSetParentColor, Heap.setChild, Heap.modify, Links.setChild, h₁]
  obtain ⟨h, e, elink⟩ := hlink
  cases c with
  | nil =>
    refine ⟨h, ⟨some new, h₁⟩, e, elink, ⟨rfl, ?_, hnd'⟩, hcol₁, hval₁⟩
    exact ⟨hnew₁, trivial, trivial⟩
  | cons f c =>
    have hne : f.addr ≠ new := fun hf => hmem (hf ▸ List.mem_cons_self ..)
    have hf₁ := (hframe₁ f.addr hne).trans hc.1
    let h₂ := h₁.write f.addr (·.setChild f.dir (some new)) id
    have hframe₂ : ∀ u, u ≠ f.addr → h₂.links u = h₁.links u :=
      fun u hu => Heap.links_write_of_ne _ _ hu
    have hc₁ : RepCtx h₁.links none (f :: c) none :=
      repCtx_frame hc fun u hu => hframe₁ u fun h => hmem (h ▸ hu)
    refine ⟨h, ⟨t.node, h₂⟩, e, ?_, ⟨?_, ?_, hnd'⟩, by simp [h₂, hcol₁], by simp [h₂, hval₁]⟩
    · rw [elink]
      simp only [parentOf_cons, sideOf, placeAt, Place.set, Heap.setChild_some, hf₁,
        Option.map_some, h₂]
    · exact ht.root.trans (top_plug (List.cons_ne_nil f c) _ _)
    · refine rep_plug.mpr ⟨repCtx_rewire hc₁ hnd ?_ hframe₂, ?_, trivial, trivial⟩
      · simp [h₂, hf₁]
      · exact (hframe₂ new hne.symm).trans hnew₁

theorem length_le_log {T : BinaryTree A} (ht : RbHolds t T) (hT : T = plug c s) :
    c.length + s.height ≤ 2 * Nat.log 2 ((inorder T).length + 1) := by
  obtain ⟨m, hbal⟩ := ht.balanced
  rw [length_inorder]
  exact (hT ▸ length_le_height c s).trans hbal.height_le_log

/-- `treeint_rb_insert` of a value that is missing. -/
theorem treeintRbInsert_absent (ht : RbStores t (plug c .nil) M)
    (hc : ∀ f ∈ c, OnPath t.forget.heap a f) (hM : M a = none) (hnew : t.heap new = none)
    (hfind : stFindFrom (fun v k => v - k) a t.forget.heap fuel t.forget.root none none =
      some (none, parentOf none c, sideOf none c)) (hfuel : c.length < 2 * fuel) :
    ∃ t' T', treeintRbInsert fuel t a new = some (0, t') ∧
      RbStores t' T' (Function.update M a (some new)) ∧
      (inorder T').length = (inorder (plug c (.nil : BinaryTree A))).length + 1 := by
  obtain ⟨h, t₁, e, e₁, ht₁, hcol₁, hval₁⟩ := rbLinkNode_spec a ht.tree.toHolds hnew
  obtain ⟨m, hbal⟩ := ht.tree.balanced
  obtain ⟨x, i, k, hnil, hcol, hfit⟩ := hbal.unplug
  cases hnil
  have hmem : ∀ u ∈ addrs c, u ≠ new := by
    rintro u hu rfl
    have hin : u ∈ inorder (plug c (.nil : BinaryTree A)) := mem_plug.mpr (Or.inl hu)
    obtain ⟨k, hk⟩ := rep_live ht.tree.rep hin
    simp [Heap.links, hnew] at hk
  have hred : Balanced t₁.heap.colors (.node new .nil .nil) .red 0 :=
    .red (by rw [hcol₁, Function.update_self]) .nil .nil
  have haround : Around t₁.heap.colors c i 0 :=
    hcol.congr fun u hu => by rw [hcol₁, Function.update_of_ne (hmem u hu)]
  obtain ⟨t', T', e', hrb, hin, hval⟩ := rbInsert_spec fuel ht₁ hred haround hfuel
  have hplace : insertPlace a t fuel none .root =
      some (some (parentOf none c, placeAt (parentOf none c) (sideOf none c))) := by
    have hsearch := insertPlace_eq (a := a) fuel t.node none none
      (t := t) rfl
    exact hsearch.trans (by rw [show stFindFrom _ a t.heap.forget fuel t.node none none = _ from hfind]; rfl)
  have hparent : rbRedParent t₁.heap (some new) = some (parentOf none c) := by
    have hlinks := (rep_plug.mp ht₁.rep).2.1
    simp [rbRedParent, hcol₁, hlinks]
  refine ⟨t', T', ?_, ⟨hrb, ?_⟩, ?_⟩
  · rw [top_node] at e'
    simp [treeintRbInsert, hplace, e, e₁, rbInsertColor, hparent, e']
  · refine stores_insert ht.stores hc hM ?_ hrb.forget hin ?_
    · simp [Root.forget, Heap.forget, hnew]
    · rw [Root.forget, Root.forget, keys_forget, keys_forget, hval, hval₁]
  · rw [hin]
    simp only [inorder_plug, inorder_node, inorder_nil, List.length_append, List.length_cons]
    simp only [List.length_nil]
    omega

/-! ### Removal -/

/-- Freeing a node that is not in the tree leaves the tree as it is. -/
theorem RbHolds.free (ht : RbHolds t T) (hn : n ∉ inorder T) :
    RbHolds ⟨t.node, Function.update t.heap n none⟩ T := by
  have hne : ∀ u ∈ inorder T, u ≠ n := by
    rintro u hu rfl
    exact hn hu
  obtain ⟨m, hbal⟩ := ht.balanced
  refine ⟨⟨ht.root, rep_frame ht.rep fun u hu => ?_, ht.nodup⟩, m, hbal.congr fun u hu => ?_⟩
  · simp [Heap.links, hne u hu]
  · simp [Heap.colors, hne u hu]

/-- `treeint_rb_remove` of a value that is there. -/
theorem treeintRbRemove_present {x y : BinaryTree A} (ht : RbStores t (plug c (.node n x y)) M)
    (hM : M a = some n) (hfind : treeintRbFind fuel t a = some (some n))
    (hfuel : (plug c (.node n x y)).height ≤ fuel) :
    ∃ t' T', treeintRbRemove fuel t a = some (0, t') ∧
      RbStores t' T' (Function.update M a none) ∧
      (inorder T').length ≤ (inorder (plug c (.node n x y))).length := by
  obtain ⟨t₁, T', e₁, hrb, hin, hval⟩ := rbErase_spec ht.tree hfuel
  have hu : Updated id t.forget t₁.forget (before c ++ (inorder x ++ inorder y) ++ after c) T' :=
    ⟨hrb.forget, hin, by rw [Root.forget, Root.forget, keys_forget, keys_forget, hval],
      fun _ _ => nonNeg_forget⟩
  obtain ⟨h', e', hstores, -⟩ := stores_remove ht.stores hM hu
  have hmem : n ∉ inorder T' := by
    have hnd := ht.tree.nodup
    rw [inorder_plug, inorder_node] at hnd
    rw [hin]
    grind [List.nodup_append, List.nodup_cons]
  obtain ⟨nd, hnd⟩ : ∃ nd, t₁.heap n = some nd := by
    have hkey := (ht.stores.contents a n).mp hM
    rw [Root.forget, keys_forget, ← hval] at hkey
    obtain ⟨nd, hnd, -⟩ := Option.map_eq_some_iff.mp hkey
    exact ⟨nd, hnd⟩
  have hforget : Heap.forget (Function.update t₁.heap n none) = h' := by
    have hfree : destroyNode t₁.forget.heap (some n) =
        some (Heap.forget (Function.update t₁.heap n none)) := by
      have hupd : Function.update t₁.forget.heap n none =
          Heap.forget (Function.update t₁.heap n none) := by
        funext u
        by_cases hun : u = n
        · simp [Heap.forget, hun]
        · simp [Heap.forget, Root.forget, hun]
      simp [destroyNode, Root.forget, Heap.forget, hnd, ← hupd]
    exact Option.some.inj (hfree.symm.trans e')
  refine ⟨⟨t₁.node, Function.update t₁.heap n none⟩, T', ?_, ⟨hrb.free hmem, ?_⟩, ?_⟩
  · simp [treeintRbRemove, hfind, e₁, freeNode, hnd]
  · rw [Root.forget, hforget]
    exact hstores
  · rw [hin, inorder_plug, inorder_node]
    simp only [List.length_append, List.length_cons]
    omega

/-! ### Calls -/

theorem treeintRbInit_stores : RbStores (treeintRbInit : Root A) .nil fun _ => none := by
  refine ⟨⟨⟨rfl, trivial, List.nodup_nil⟩, 0, .nil⟩, ?_⟩
  exact stCreate_stores

theorem treeintRbFind_spec (fuel : ℕ) (ht : RbStores t T M) (a : ℤ) (hfuel : T.height < fuel) :
    treeintRbFind fuel t a = some (M a) := by
  rw [treeintRbFind, findFrom_eq, stFind2From_eq (p := none) (e := none)]
  obtain ⟨c, s, rfl, -, ⟨-, hM, hfind⟩ | ⟨n, x, y, -, hM, hfind⟩⟩ :=
    stFind_place ht.stores agrees_sub a
  all_goals
    have hlen := length_le_height c s
    have hsearch := hfind fuel (by omega)
    rw [show stFindFrom _ a t.heap.forget fuel t.node none none = _ from hsearch, hM,
      Option.map_some]

/-- One call does to the tree what it does to the set, and needs at most as many turns of a loop as
the logarithm allows. -/
theorem rbCall_stores (ht : RbStores t T M) (op : Op A ℤ) (hfresh : FreshFor M op)
    (hfuel : 2 * Nat.log 2 ((inorder T).length + 1) < fuel) :
    ∃ t' T', rbCall fuel t op = some ((setCall M op).1, t') ∧
      RbStores t' T' (setCall M op).2 ∧ (inorder T').length ≤ (inorder T).length + 1 := by
  have hheight := length_le_log (c := []) ht.tree rfl
  rw [List.length_nil, Nat.zero_add] at hheight
  cases op with
  | insert a new =>
    obtain ⟨c, s, rfl, hc, ⟨rfl, hM, hfind⟩ | ⟨n, x, y, rfl, hM, hfind⟩⟩ :=
      stFind_place ht.stores agrees_sub a
    · have hlen := length_le_height c (.nil : BinaryTree A)
      have hnew : t.heap new = none := by
        have hnone := heap_none ht.stores (hfresh hM)
        simpa [Root.forget, Heap.forget] using hnone
      obtain ⟨t', T', e, hstores, hlength⟩ := treeintRbInsert_absent ht hc hM hnew
        (hfind fuel (by omega)) (by omega)
      refine ⟨t', T', ?_, ?_, by omega⟩
      · simp [rbCall, e, setCall, hM]
      · simpa [setCall, hM] using hstores
    · have hlen := length_le_height c (.node n x y)
      rw [height] at hlen
      have hsearch := insertPlace_eq (a := a) (t := t) fuel t.node none none rfl
      rw [show stFindFrom _ a t.heap.forget fuel t.node none none = _ from hfind fuel (by omega)]
        at hsearch
      have hinsert : treeintRbInsert fuel t a new = some (-1, t) := by
        simp only [placeAt, Option.map_some, Option.isSome_some, if_true] at hsearch
        simp [treeintRbInsert, hsearch]
      refine ⟨t, _, ?_, ?_, Nat.le_succ _⟩
      · simp [rbCall, hinsert, setCall, hM]
      · simpa [setCall, hM] using ht
  | remove a =>
    have hfind := treeintRbFind_spec fuel ht a (by omega)
    obtain ⟨c, s, rfl, hc, ⟨rfl, hM, -⟩ | ⟨n, x, y, rfl, hM, -⟩⟩ :=
      stFind_place ht.stores agrees_sub a
    · refine ⟨t, _, ?_, ?_, Nat.le_succ _⟩
      · simp [rbCall, treeintRbRemove, hfind, setCall, hM]
      · simpa [setCall, hM] using ht
    · obtain ⟨t', T', e, hstores, hlength⟩ :=
        treeintRbRemove_present ht hM (hM ▸ hfind) (by omega)
      refine ⟨t', T', ?_, ?_, by omega⟩
      · simp [rbCall, e, setCall, hM]
      · simpa [setCall, hM] using hstores
  | find a =>
    have hfind := treeintRbFind_spec fuel ht a (by omega)
    exact ⟨t, T, by simp [rbCall, hfind, setCall], ht, Nat.le_succ _⟩

/-- A sequence of calls does to the tree what it does to the set. -/
theorem rbCalls_stores (ops : List (Op A ℤ)) (ht : RbStores t T M) (hfresh : Fresh M ops)
    (hfuel : 2 * Nat.log 2 ((inorder T).length + ops.length + 1) < fuel) :
    ∃ t' T', rbCalls fuel t ops = some ((setCalls M ops).1, t') ∧
      RbStores t' T' (setCalls M ops).2 ∧
      (inorder T').length ≤ (inorder T).length + ops.length := by
  induction ops generalizing t T M with
  | nil => exact ⟨t, T, rfl, ht, Nat.le_refl _⟩
  | cons op ops ih =>
    rw [List.length_cons] at hfuel
    have hmono : ∀ k, k ≤ (inorder T).length + (ops.length + 1) + 1 →
        2 * Nat.log 2 k < fuel := fun k hk =>
      lt_of_le_of_lt (Nat.mul_le_mul_left 2 (Nat.log_mono_right hk)) hfuel
    obtain ⟨t₁, T₁, e₁, ht₁, hlen₁⟩ := rbCall_stores ht op hfresh.1 (hmono _ (by omega))
    obtain ⟨t', T', e, ht', hlen⟩ := ih ht₁ hfresh.2 (hmono _ (by omega))
    refine ⟨t', T', by simp [rbCalls, e₁, e, setCalls], ht', ?_⟩
    rw [List.length_cons]
    omega

/-- The back end refines a finite set: after any calls from `treeint_rb_init` on, the results are
those of the set, no pointer followed was NULL or dangling, the heap holds a red-black tree, and it
is a well-formed search tree with the contents of the set. No loop of any call makes more turns
than twice the binary logarithm of the number of calls, plus one. -/
theorem rb_refines_set (ops : List (Op A ℤ)) (hfresh : Fresh (fun _ => none) ops) (fuel : ℕ)
    (hfuel : 2 * Nat.log 2 (ops.length + 1) < fuel) :
    ∃ t T, rbCalls fuel treeintRbInit ops = some ((setCalls (fun _ => none) ops).1, t) ∧
      RbHolds t T ∧ (inorder T).length ≤ ops.length ∧
      SearchTree (ops.length + 1) t.forget (setCalls (fun _ => none) ops).2 := by
  obtain ⟨t, T, e, ht, hlen⟩ := rbCalls_stores ops treeintRbInit_stores hfresh
    (by simpa using hfuel)
  rw [inorder_nil, List.length_nil, Nat.zero_add] at hlen
  exact ⟨t, T, e, ht.tree, hlen, searchTree_of_stores ht.stores (by omega)⟩

/-- Two rotations at the insertions, and a removal at the root that rebalances at its successor's
old place. -/
theorem rb_refines_set_seven :
    ∃ t T, rbCalls 7 (treeintRbInit : Root ℕ)
        [.insert 4 0, .insert 1 1, .insert 2 2, .insert 9 3, .remove 2, .remove 5, .find 9] =
        some ([.code 0, .code 0, .code 0, .code 0, .code 0, .code (-1), .node (some 3)], t) ∧
      RbHolds t T ∧ (inorder T).length ≤ 7 ∧
      SearchTree 8 t.forget (setCalls (fun _ => none)
        [.insert 4 0, .insert 1 1, .insert 2 2, .insert 9 3, .remove 2, .remove 5, .find 9]).2 :=
  rb_refines_set _ (by
    simp [Fresh, FreshFor, setCall, Function.update_apply]
    grind) 7 (by decide)

end LinuxSummer.Rbtree
