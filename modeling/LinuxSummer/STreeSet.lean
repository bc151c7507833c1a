import Mathlib.Data.Int.Order.Basic
import LinuxSummer.STreeInsert
import LinuxSummer.STreeRemove

/-! The S-tree refines a finite set of keys: sequences of `st_insert`, `st_remove` and `st_find`
calls from `st_create` on. -/
set_option linter.unusedSectionVars false

namespace LinuxSummer.STree
open BinaryTree LinkedTree

variable {A K : Type} [DecidableEq A] [LinearOrder K] {t t' : Tree A K} {M : Contents A K}
  {T : BinaryTree A} {cmp : K → K → ℤ} {narrow : ℤ → ℤ} {fuel : ℕ}

/-- What a call returns and does to a finite map from keys to nodes. -/
def setCall (M : Contents A K) : Op A K → Res A × Contents A K
  | .insert key new =>
    if (M key).isSome then (.code (-1), M) else (.code 0, Function.update M key (some new))
  | .remove key =>
    if (M key).isSome then (.code 0, Function.update M key none) else (.code (-1), M)
  | .find key => (.node (M key), M)

def setCalls (M : Contents A K) : List (Op A K) → List (Res A) × Contents A K
  | [] => ([], M)
  | op :: ops =>
    let r := setCall M op
    let rs := setCalls r.2 ops
    (r.1 :: rs.1, rs.2)

/-- When this call creates a node, the block it gets is not in use. -/
def FreshFor (M : Contents A K) : Op A K → Prop
  | .insert key new => M key = none → ∀ k, M k ≠ some new
  | .remove _ => True
  | .find _ => True

/-- `create_node` never gets a block that is in use. -/
def Fresh (M : Contents A K) : List (Op A K) → Prop
  | [] => True
  | op :: ops => FreshFor M op ∧ Fresh (setCall M op).2 ops

theorem stCreate_stores : Stores (stCreate : Tree A K) .nil (fun _ => none) :=
  ⟨⟨rfl, trivial, List.nodup_nil⟩, List.Pairwise.nil, by simp [stCreate, Heap.keys, Heap.data],
    by simp [stCreate, Heap.keys, Heap.data]⟩

theorem heap_none (ht : Stores t T M) {n : A} (hn : ∀ k, M k ≠ some n) : t.heap n = none := by
  by_contra h
  obtain ⟨nd, hnd⟩ := Option.ne_none_iff_exists'.mp h
  exact hn nd.key ((ht.contents nd.key n).mpr (by simp [Heap.keys, Heap.data, hnd]))

theorem Ends.map {R S : Type} {o : Option (R × Tree A K)} {r : R} (f : R → S)
    (h : Ends narrow t T o r M) : Ends narrow t T (o.map fun r => (f r.1, r.2)) (f r) M := by
  rcases h with ⟨t', T', rfl, h⟩ | ⟨rfl, h⟩
  · exact Or.inl ⟨t', T', rfl, h⟩
  · exact Or.inr ⟨rfl, h⟩

/-- One call does to the tree what it does to the set. -/
theorem call_spec (narrow : ℤ → ℤ) (fuel : ℕ) (hcmp : Agrees cmp) (ht : Stores t T M) (op : Op A K) (hfresh : FreshFor M op)
    (hfuel : (inorder T).length + 2 ≤ fuel) :
    Ends narrow t T (call narrow cmp fuel t op) (setCall M op).1 (setCall M op).2 := by
  cases op with
  | insert key new =>
    obtain ⟨c, s, rfl, hc, ⟨rfl, hM, hfind⟩ | ⟨n, x, y, rfl, hM, hfind⟩⟩ :=
      stFind_place ht hcmp key
    · have hlen := length_ctx_le c (.nil : BinaryTree A)
      simp only [setCall, hM, Option.isSome_none, Bool.false_eq_true, if_false]
      exact (stInsert_absent narrow ht hc hM (heap_none ht (hfresh hM)) (hfind fuel (by omega))
        (by omega)).map Res.code
    · have hlen := length_ctx_le c (.node n x y)
      have hcall : stInsert narrow cmp fuel t key new = some (-1, t) := by
        simp [stInsert, hfind fuel (by omega)]
      simp only [setCall, hM, Option.isSome_some, if_true, call, hcall]
      exact (ends_same ht).map Res.code
  | remove key =>
    have hfind : stFind cmp fuel t key = some (M key) := stFind_spec ht hcmp key (by omega)
    obtain ⟨c, s, rfl, hc, ⟨rfl, hM, -⟩ | ⟨n, x, y, rfl, hM, -⟩⟩ := stFind_place ht hcmp key
    · have hcall : stRemove narrow cmp fuel t key = some (-1, t) := by
        simp [stRemove, hfind, hM]
      simp only [setCall, hM, Option.isSome_none, Bool.false_eq_true, if_false, call, hcall]
      exact (ends_same ht).map Res.code
    · simp only [setCall, hM, Option.isSome_some, if_true]
      exact (stRemove_present narrow ht hM (hM ▸ hfind) hfuel).map Res.code
  | find key =>
    have hfind : stFind cmp fuel t key = some (M key) := stFind_spec ht hcmp key (by omega)
    simp only [setCall, call, hfind]
    exact ends_same ht

/-- A sequence of calls does to the tree what it does to the set, unless a call fails on a
negative hint. -/
theorem calls_spec (narrow : ℤ → ℤ) (hcmp : Agrees cmp) (ops : List (Op A K)) (ht : Stores t T M)
    (hfresh : Fresh M ops) (hfuel : (inorder T).length + ops.length < fuel) :
    (∃ t' T', calls narrow cmp fuel t ops = some ((setCalls M ops).1, t') ∧
      Stores t' T' (setCalls M ops).2 ∧
      (inorder T').length ≤ (inorder T).length + ops.length) ∨
    (calls narrow cmp fuel t ops = none ∧ ¬ ((∀ z, 0 ≤ z → 0 ≤ narrow z) ∧ t.heap.NonNeg)) := by
  induction ops generalizing t T M with
  | nil => exact Or.inl ⟨t, T, rfl, ht, Nat.le_refl _⟩
  | cons op ops ih =>
    rw [List.length_cons] at hfuel
    rcases call_spec narrow fuel hcmp ht op hfresh.1 (by omega) with
      ⟨t₁, T₁, e, ht₁, hlen, hneg₁⟩ | ⟨e, hneg⟩
    · rcases ih ht₁ hfresh.2 (by omega) with ⟨t', T', e', ht', hlen'⟩ | ⟨e', hneg⟩
      · refine Or.inl ⟨t', T', by simp [calls, e, e', setCalls], ht', ?_⟩
        rw [List.length_cons]
        omega
      · exact Or.inr ⟨by simp [calls, e, e'], fun h => hneg ⟨h.1, hneg₁ h.1 h.2⟩⟩
    · exact Or.inr ⟨by simp [calls, e], hneg⟩

/-- The walk of the dump lists the nodes in order. -/
theorem dumpPreorder_spec {h : Heap A K} {par : Option A} (fuel : ℕ) (hr : Rep h.links par T)
    (hfuel : (inorder T).length < fuel) : dumpPreorder h fuel (top T) = some (inorder T) := by
  induction T generalizing par fuel with
  | nil =>
    cases fuel with
    | zero => cases hfuel
    | succ fuel => rfl
  | node a l r ihl ihr =>
    simp only [inorder_node, List.length_append, List.length_cons] at hfuel
    obtain ⟨ha, hl, hr⟩ := hr
    cases fuel with
    | zero => omega
    | succ fuel =>
      simp [dumpPreorder, ha, Links.child, ihl fuel hl (by omega),
        ihr fuel hr (by omega)]

/-- A well-formed search tree with the contents `M`: the walk from the root meets the keys in
strictly increasing order and lists all allocated nodes, these are the nodes of `M`, the root has
no parent, and the parent pointer of a child is its parent. -/
structure SearchTree (fuel : ℕ) (t : Tree A K) (M : Contents A K) : Prop where
  walk : ∃ l, dumpPreorder t.heap fuel t.root = some l ∧
    (l.Pairwise fun a b => ∃ na nb, t.heap a = some na ∧ t.heap b = some nb ∧ na.key < nb.key) ∧
    l.Nodup ∧ ∀ a, a ∈ l ↔ (t.heap a).isSome
  contents : ∀ k a, M k = some a ↔ ∃ n, t.heap a = some n ∧ n.key = k
  root : ∀ a, t.root = some a → ∃ n, t.heap a = some n ∧ n.parent = none
  child : ∀ a n d u, t.heap a = some n → n.child d = some u →
    ∃ m, t.heap u = some m ∧ m.parent = some a

theorem searchTree_of_stores (ht : Stores t T M) (hfuel : (inorder T).length < fuel) :
    SearchTree fuel t M := by
  have hlive : ∀ a, a ∈ inorder T ↔ (t.heap a).isSome := by
    intro a
    rw [ht.live, Option.isSome_iff_exists]
    simp [Heap.keys, Heap.data]
  have hnode : ∀ {a k}, t.heap.links a = some k → ∃ n, t.heap a = some n ∧ n.toLinks = k :=
    fun {a k} hk => Option.map_eq_some_iff.mp hk
  refine ⟨⟨inorder T, ?_, ?_, ht.holds.nodup, hlive⟩, ?_, ?_, ?_⟩
  · rw [ht.holds.root]
    exact dumpPreorder_spec fuel ht.holds.rep hfuel
  · refine ht.sorted.imp_of_mem fun {a b} ha hb hab => ?_
    obtain ⟨na, hna⟩ := Option.isSome_iff_exists.mp ((hlive a).mp ha)
    obtain ⟨nb, hnb⟩ := Option.isSome_iff_exists.mp ((hlive b).mp hb)
    refine ⟨na, nb, hna, hnb, hab _ _ ?_ ?_⟩ <;> simp [Heap.keys, Heap.data, hna, hnb]
  · intro k a
    rw [ht.contents]
    simp [Heap.keys, Heap.data]
  · intro a ha
    rw [ht.holds.root] at ha
    cases T with
    | nil => cases ha
    | node b l r =>
      cases Option.some.inj ha
      obtain ⟨n, hn, hk⟩ := hnode ht.holds.rep.1
      exact ⟨n, hn, congrArg Links.parent hk⟩
  · intro a n d u hn hu
    have hmem : a ∈ inorder T := (hlive a).mpr (by simp [hn])
    obtain ⟨k, -, hk, hpar⟩ := rep_parent ht.holds.rep hmem (k := n.toLinks)
      (by simp [Heap.links, hn]) hu
    obtain ⟨m, hm, rfl⟩ := hnode hk
    exact ⟨m, hm, hpar⟩

/-- The S-tree refines a finite set: after any calls from `st_create` on, the results are those
of the set, no pointer followed was NULL or dangling, and the tree is a well-formed search tree
with the contents of the set. Hints are unbounded integers. -/
theorem st_refines_set (cmp : K → K → ℤ) (hcmp : Agrees cmp) (ops : List (Op A K))
    (hfresh : Fresh (fun _ => none) ops) (fuel : ℕ) (hfuel : ops.length < fuel) :
    ∃ t, calls id cmp fuel stCreate ops = some ((setCalls (fun _ => none) ops).1, t) ∧
      SearchTree fuel t (setCalls (fun _ => none) ops).2 := by
  have hneg : (stCreate : Tree A K).heap.NonNeg := fun a => by
    simp [stCreate, Heap.hintAt, Heap.data]
  rcases calls_spec id hcmp ops stCreate_stores hfresh (by simpa using hfuel) with
    ⟨t, T, e, ht, hlen⟩ | ⟨-, hbad⟩
  · rw [inorder_nil, List.length_nil, Nat.zero_add] at hlen
    exact ⟨t, e, searchTree_of_stores ht (by omega)⟩
  · exact absurd ⟨fun _ hz => hz, hneg⟩ hbad

theorem agrees_sub : Agrees fun a b : ℤ => a - b :=
  ⟨fun a b => by omega, fun a b => by omega⟩

/-- A removal with a successor deep in the right subtree, and a node that takes over the block of
a removed one. -/
theorem st_refines_set_six :
    ∃ t, calls id (fun a b : ℤ => a - b) 12 (stCreate : Tree ℕ ℤ)
        [.insert 4 0, .insert 1 1, .insert 9 2, .insert 7 3, .insert 4 4, .remove 4, .remove 5,
          .insert 3 0, .find 9] =
        some ([.code 0, .code 0, .code 0, .code 0, .code (-1), .code 0, .code (-1), .code 0,
          .node (some 2)], t) ∧
      SearchTree 12 t (setCalls (fun _ => none)
        [.insert 4 0, .insert 1 1, .insert 9 2, .insert 7 3, .insert 4 4, .remove 4, .remove 5,
          .insert 3 0, .find 9]).2 :=
  st_refines_set _ agrees_sub _ (by
    simp [Fresh, FreshFor, setCall, Function.update_apply]
    grind) 12 (by decide)

end LinuxSummer.STree
