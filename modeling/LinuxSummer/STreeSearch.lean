import Mathlib.Order.Defs.LinearOrder
import LinuxSummer.STreeUpdate

/-! The contents of an S-tree, and how `st_find` and `__st_find` walk to a key. -/
set_option linter.unusedSectionVars false

namespace LinuxSummer.STree
open BinaryTree LinkedTree
open scoped List

variable {A K : Type} [DecidableEq A] [LinearOrder K]

/-- The sign of the comparator agrees with the order of the keys. -/
structure Agrees (cmp : K → K → ℤ) : Prop where
  lt : ∀ a b, cmp a b < 0 ↔ a < b
  eq : ∀ a b, cmp a b = 0 ↔ a = b

/-- Which node holds which key. -/
abbrev Contents (A K : Type) := K → Option A

/-- The tree object holds `T`, in the order of the keys; no other node is allocated, and the
keys are those of `M`. -/
structure Stores (t : Tree A K) (T : BinaryTree A) (M : Contents A K) : Prop where
  holds : Holds t T
  sorted : (inorder T).Pairwise fun a b =>
    ∀ ka kb, t.heap.keys a = some ka → t.heap.keys b = some kb → ka < kb
  live : ∀ a, a ∈ inorder T ↔ ∃ k, t.heap.keys a = some k
  contents : ∀ k a, M k = some a ↔ t.heap.keys a = some k

/-- The key looked for lies on the side of the frame's node where the frame's hole is. -/
def OnPath (h : Heap A K) (key : K) (f : Frame A) : Prop :=
  ∃ k, h.keys f.addr = some k ∧ match f.dir with
    | .left => key < k
    | .right => k < key

variable {t t' : Tree A K} {h : Heap A K} {M : Contents A K} {T s x y : BinaryTree A} {n a : A}
  {c : Ctx A} {d : Side} {par p : Option A} {e : Option Side} {key : K} {cmp : K → K → ℤ}
  {narrow : ℤ → ℤ} {fuel : ℕ}

theorem keys_some {k : K} (hk : h.keys n = some k) :
    ∃ nd, h n = some nd ∧ nd.key = k := by
  simpa [Heap.keys, Heap.data, Option.map_eq_some_iff] using hk

/-- A turn of the loop of `__st_find` at a node that does not hold the key. -/
theorem stFindFrom_step {f : Frame A} {q₁ q₂ : Option A} (hcmp : Agrees cmp) (hf : OnPath h key f)
    (hn : h.links f.addr = some (.of f.dir par p q₁)) :
    stFindFrom cmp key h (fuel + 1) (some f.addr) q₂ e =
      stFindFrom cmp key h fuel p (some f.addr) (some f.dir) := by
  obtain ⟨d, a, s⟩ := f
  obtain ⟨k, hk, hlt⟩ := hf
  obtain ⟨nd, hnd, rfl⟩ := keys_some hk
  have heq := hcmp.eq nd.key key
  have hlt' := hcmp.lt nd.key key
  cases d with
  | left =>
    have h₁ : cmp nd.key key ≠ 0 := fun h => (ne_of_gt hlt) (heq.mp h)
    have h₂ : cmp nd.key key > 0 := by
      have : ¬ cmp nd.key key < 0 := fun h => lt_asymm hlt (hlt'.mp h)
      omega
    simp [stFindFrom, hnd, h₁, h₂, hn, Links.of, Links.child]
  | right =>
    have h₁ : cmp nd.key key ≠ 0 := fun h => (ne_of_lt hlt) (heq.mp h)
    have h₂ : ¬ cmp nd.key key > 0 := by
      have := hlt'.mpr hlt
      omega
    simp [stFindFrom, hnd, h₁, h₂, hn, Links.of, Links.child]

theorem stFindFrom_hit (hcmp : Agrees cmp) (hk : h.keys n = some key) :
    stFindFrom cmp key h (fuel + 1) (some n) p e = some (some n, p, e) := by
  obtain ⟨nd, hnd, rfl⟩ := keys_some hk
  simp [stFindFrom, hnd, (hcmp.eq nd.key nd.key).mpr rfl]

/-- The loop of `__st_find` walks down a path that the key lies on. -/
theorem stFindFrom_path (hcmp : Agrees cmp) (c : Ctx A) (s : BinaryTree A) (fuel : ℕ)
    (hr : Rep h.links none (plug c s)) (hc : ∀ f ∈ c, OnPath h key f) :
    stFindFrom cmp key h (c.length + fuel) (top (plug c s)) p e =
      stFindFrom cmp key h fuel (top s) (parentOf p c) (sideOf e c) := by
  induction c generalizing s fuel with
  | nil => simp [plug, parentOf, sideOf]
  | cons f c ih =>
    have hf := (rep_plug.mp hr).1.1
    have hlen : (f :: c).length + fuel = c.length + (fuel + 1) := by
      simp only [List.length_cons]
      omega
    rw [hlen, plug, ih _ _ hr fun g hg => hc g (List.mem_cons_of_mem _ hg), top_join,
      stFindFrom_step hcmp (hc f (List.mem_cons_self ..)) hf]
    rfl

/-- `__st_find2` finds the same node. -/
theorem stFind2From_eq (n : Option A) :
    stFind2From cmp key h fuel n = (stFindFrom cmp key h fuel n p e).map (·.1) := by
  induction fuel generalizing n p e with
  | zero => rfl
  | succ fuel ih =>
    cases n with
    | none => rfl
    | some n =>
      cases hn : h n with
      | none => simp [stFind2From, stFindFrom, hn]
      | some nd =>
        simp only [stFind2From, stFindFrom, hn, Option.bind_eq_bind, Option.bind_some]
        split
        · rfl
        · split
          · simp only [Option.map_bind, Function.comp_def, ← ih]
          · simp only [Option.map_bind, Function.comp_def, ← ih]

/-- From the root a path that the key lies on leads to its node or to where it is missing. -/
theorem exists_path (key : K) (hlive : ∀ a ∈ inorder T, ∃ k, h.keys a = some k) :
    ∃ c s, T = plug c s ∧ (∀ f ∈ c, OnPath h key f) ∧
      (s = .nil ∨ ∃ n x y, s = .node n x y ∧ h.keys n = some key) := by
  suffices H : ∀ (s : BinaryTree A) (c : Ctx A), (∀ a ∈ inorder s, ∃ k, h.keys a = some k) →
      (∀ f ∈ c, OnPath h key f) → ∃ c' s', plug c s = plug c' s' ∧
        (∀ f ∈ c', OnPath h key f) ∧ (s' = .nil ∨ ∃ n x y, s' = .node n x y ∧ h.keys n = some key) by
    exact H T [] hlive (by simp)
  intro s
  induction s with
  | nil => exact fun c _ hc => ⟨c, .nil, rfl, hc, Or.inl rfl⟩
  | node a l r ihl ihr =>
    intro c hlive hc
    simp only [inorder_node, List.mem_append, List.mem_cons] at hlive
    obtain ⟨k, hk⟩ := hlive a (by simp)
    rcases lt_trichotomy key k with hlt | heq | hgt
    · refine ihl (⟨.left, a, r⟩ :: c) (fun u hu => hlive u (by simp [hu])) ?_
      exact List.forall_mem_cons.mpr ⟨⟨k, hk, hlt⟩, hc⟩
    · exact ⟨c, _, rfl, hc, Or.inr ⟨a, l, r, rfl, heq ▸ hk⟩⟩
    · refine ihr (⟨.right, a, l⟩ :: c) (fun u hu => hlive u (by simp [hu])) ?_
      exact List.forall_mem_cons.mpr ⟨⟨k, hk, hgt⟩, hc⟩

/-- Along such a path the key separates the nodes before the subtree from those after it. -/
theorem path_between (hc : ∀ f ∈ c, OnPath h key f)
    (hs : (inorder (plug c s)).Pairwise fun a b =>
      ∀ ka kb, h.keys a = some ka → h.keys b = some kb → ka < kb) :
    (∀ a ∈ before c, ∀ k, h.keys a = some k → k < key) ∧
      ∀ a ∈ after c, ∀ k, h.keys a = some k → key < k := by
  induction c generalizing s with
  | nil => simp [before, after]
  | cons f c ih =>
    obtain ⟨⟨kf, hkf, hlt⟩, hc⟩ := List.forall_mem_cons.mp hc
    obtain ⟨hb, ha⟩ := ih hc hs
    obtain ⟨d, b, sib⟩ := f
    rw [plug, inorder_plug, List.pairwise_append, List.pairwise_append] at hs
    obtain ⟨⟨-, hmid, -⟩, -, -⟩ := hs
    cases d with
    | left =>
      refine ⟨hb, fun u hu k hk => ?_⟩
      simp only [join, inorder_node, List.pairwise_append, List.pairwise_cons] at hmid
      simp only [after, List.cons_append, List.mem_cons, List.mem_append] at hu
      rcases hu with rfl | hu | hu
      · cases hkf.symm.trans hk
        exact hlt
      · exact lt_trans hlt (hmid.2.1.1 u hu kf k hkf hk)
      · exact ha u hu k hk
    | right =>
      refine ⟨fun u hu k hk => ?_, ha⟩
      simp only [join, inorder_node, List.pairwise_append] at hmid
      simp only [before, List.mem_append, List.mem_singleton] at hu
      rcases hu with (hu | hu) | rfl
      · exact hb u hu k hk
      · exact lt_trans (hmid.2.2 u hu b (List.mem_cons_self ..) k kf hk hkf) hlt
      · cases hkf.symm.trans hk
        exact hlt

/-- What `__st_find` does on a tree that is in order: it finds the node that holds the key, or
the place where the key is missing. -/
theorem stFind_place (ht : Stores t T M) (hcmp : Agrees cmp) (key : K) :
    ∃ c s, T = plug c s ∧ (∀ f ∈ c, OnPath t.heap key f) ∧
      ((s = .nil ∧ M key = none ∧ ∀ fuel, c.length < fuel →
          stFindFrom cmp key t.heap fuel t.root none none =
            some (none, parentOf none c, sideOf none c)) ∨
        ∃ n x y, s = .node n x y ∧ M key = some n ∧ ∀ fuel, c.length < fuel →
          stFindFrom cmp key t.heap fuel t.root none none =
            some (some n, parentOf none c, sideOf none c)) := by
  obtain ⟨c, s, rfl, hc, hs⟩ := exists_path key fun a ha => (ht.live a).mp ha
  refine ⟨c, s, rfl, hc, ?_⟩
  have hloop : ∀ fuel, c.length < fuel → ∃ k, stFindFrom cmp key t.heap fuel t.root none none =
      stFindFrom cmp key t.heap (k + 1) (top s) (parentOf none c) (sideOf none c) := by
    intro fuel hfuel
    refine ⟨fuel - c.length - 1, ?_⟩
    rw [ht.holds.root, ← stFindFrom_path hcmp c s _ ht.holds.rep hc]
    congr 1
    omega
  rcases hs with rfl | ⟨n, x, y, rfl, hn⟩
  · refine Or.inl ⟨rfl, ?_, fun fuel hfuel => ?_⟩
    · by_contra hM
      obtain ⟨a, ha⟩ := Option.ne_none_iff_exists'.mp hM
      have hka := (ht.contents key a).mp ha
      have hmem := (ht.live a).mpr ⟨key, hka⟩
      obtain ⟨hb, ha'⟩ := path_between hc ht.sorted
      rw [inorder_plug, inorder_nil, List.append_nil, List.mem_append] at hmem
      rcases hmem with hmem | hmem
      · exact lt_irrefl key (hb a hmem key hka)
      · exact lt_irrefl key (ha' a hmem key hka)
    · obtain ⟨k, hk⟩ := hloop fuel hfuel
      exact hk
  · refine Or.inr ⟨n, x, y, rfl, (ht.contents key n).mpr hn, fun fuel hfuel => ?_⟩
    obtain ⟨k, hk⟩ := hloop fuel hfuel
    exact hk.trans (stFindFrom_hit hcmp hn)

theorem length_ctx_le (c : Ctx A) (s : BinaryTree A) :
    c.length + (inorder s).length ≤ (inorder (plug c s)).length := by
  rw [(inorder_plug_perm c s).length_eq, List.length_append]
  refine Nat.add_le_add_right ?_ _
  induction c with
  | nil => exact Nat.le_refl 0
  | cons f c ih =>
    simp only [addrs, List.length_append, List.length_cons]
    omega

/-- `st_find` returns the node that holds the key. -/
theorem stFind_spec (ht : Stores t T M) (hcmp : Agrees cmp) (key : K) (hfuel : (inorder T).length < fuel) :
    stFind cmp fuel t key = some (M key) := by
  obtain ⟨c, s, rfl, -, ⟨-, hM, hfind⟩ | ⟨n, x, y, -, hM, hfind⟩⟩ := stFind_place ht hcmp key
  all_goals
    have hlen := length_ctx_le c s
    rw [stFind, stFind2From_eq, hfind fuel (by omega), hM, Option.map_some]

/-- How a call ends: it returns `r` and leaves the contents `M'`, or it fails on a negative
hint. -/
def Ends (narrow : ℤ → ℤ) (t : Tree A K) (T : BinaryTree A) {R : Type}
    (o : Option (R × Tree A K)) (r : R) (M' : Contents A K) : Prop :=
  (∃ t' T', o = some (r, t') ∧ Stores t' T' M' ∧ (inorder T').length ≤ (inorder T).length + 1 ∧
    ((∀ z, 0 ≤ z → 0 ≤ narrow z) → t.heap.NonNeg → t'.heap.NonNeg)) ∨
  (o = none ∧ ¬ ((∀ z, 0 ≤ z → 0 ≤ narrow z) ∧ t.heap.NonNeg))

theorem ends_same {R : Type} {r : R} (ht : Stores t T M) :
    Ends narrow t T (some (r, t)) r M :=
  Or.inl ⟨t, T, rfl, ht, Nat.le_succ _, fun _ hh => hh⟩

/-- Contents only depend on the order of the nodes and on their keys. -/
theorem stores_updated {t₁ : Tree A K} {T' : BinaryTree A} (ht : Holds t' T')
    (hkeys : t'.heap.keys = t₁.heap.keys)
    (hsorted : (inorder T').Pairwise fun a b =>
      ∀ ka kb, t₁.heap.keys a = some ka → t₁.heap.keys b = some kb → ka < kb)
    (hlive : ∀ a, a ∈ inorder T' ↔ ∃ k, t₁.heap.keys a = some k)
    (hcontents : ∀ k a, M k = some a ↔ t₁.heap.keys a = some k) : Stores t' T' M :=
  ⟨ht, by simpa only [hkeys] using hsorted, by simpa only [hkeys] using hlive,
    by simpa only [hkeys] using hcontents⟩

end LinuxSummer.STree
