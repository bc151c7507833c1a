import Mathlib.Analysis.SpecialFunctions.Log.Base
import Mathlib.Order.Monotone.Basic
import LinuxSummer.STreeSet

/-! How deep an S-tree gets by insertions: an order of insertion that makes it a chain. -/
set_option linter.unusedSectionVars false

namespace LinuxSummer.STree
open BinaryTree LinkedTree

variable {A K : Type} [DecidableEq A] [LinearOrder K] {t t' : Tree A K} {h : Heap A K}
  {M : Contents A K} {T s : BinaryTree A} {par : Option A} {cmp : K → K → ℤ} {narrow : ℤ → ℤ}
  {fuel : ℕ}

/-- The conversion from `int` to `short`. -/
def toShort (z : ℤ) : ℤ := (BitVec.ofInt 16 z).toInt

/-- The calls that insert `kas`, keys with the blocks for their nodes. -/
def inserts (kas : List (K × A)) : List (Op A K) := kas.map fun ka => .insert ka.1 ka.2

theorem treeintStHeight_spec (fuel : ℕ) (hr : Rep h.links par T) (hfuel : T.height < fuel) :
    treeintStHeight h fuel (top T) = some T.height := by
  induction T generalizing par fuel with
  | nil =>
    cases fuel with
    | zero => cases hfuel
    | succ fuel => rfl
  | node a l r ihl ihr =>
    rw [height] at hfuel
    obtain ⟨ha, hl, hr⟩ := hr
    cases fuel with
    | zero => omega
    | succ fuel =>
      simp only [treeintStHeight, top_node, Heap.child_some, ha, Option.map_some, Links.child,
        Option.bind_eq_bind, Option.bind_some, ihl fuel hl (by omega), ihr fuel hr (by omega),
        Option.pure_def, Option.some.injEq, height]
      split <;> omega

theorem length_inorder (T : BinaryTree A) : (inorder T).length = T.numNodes := by
  induction T with
  | nil => rfl
  | node a l r ihl ihr =>
    simp only [inorder_node, List.length_append, List.length_cons, ihl, ihr, numNodes]
    omega

theorem height_le_size (ht : Stores t T M) (fuel : ℕ) (hfuel : (inorder T).length < fuel) :
    ∃ d, treeintStHeight t.heap fuel t.root = some d ∧ d ≤ (inorder T).length := by
  have hle := height_le_numNodes T
  rw [← length_inorder] at hle
  refine ⟨T.height, ?_, hle⟩
  rw [ht.holds.root]
  exact treeintStHeight_spec fuel ht.holds.rep (by omega)

theorem calls_append (xs ys : List (Op A K)) : calls narrow cmp fuel t (xs ++ ys) =
    (calls narrow cmp fuel t xs).bind fun r => (calls narrow cmp fuel r.2 ys).map fun q =>
      (r.1 ++ q.1, q.2) := by
  induction xs generalizing t with
  | nil => simp [calls]
  | cons op ops ih =>
    cases hc : call narrow cmp fuel t op with
    | none => simp [calls, hc]
    | some r =>
      cases hx : calls narrow cmp fuel r.2 ops with
      | none => simp [calls, hc, hx, ih]
      | some q => cases hy : calls narrow cmp fuel q.2 ys <;> simp [calls, hc, hx, hy, ih]

section Chain
variable (key : ℕ → K) (addr : ℕ → A) (m : ℕ)

/-- The largest key first, the others in ascending order. -/
def chainOrder (key : ℕ → K) (addr : ℕ → A) : ℕ → List (K × A)
  | 0 => []
  | m + 1 => (key m, addr m) :: (List.range m).map fun i => (key i, addr i)

/-- `j` nodes that hang to the right of each other, each without a left child. -/
def spine (addr : ℕ → A) : ℕ → Ctx A
  | 0 => []
  | j + 1 => ⟨.right, addr j, .nil⟩ :: spine addr j

/-- The tree after the keys `m`, 0, …, `j`: the nodes 0, …, `j - 1` each right of the one before,
then the node `m`, and the node `j` left of it. -/
def chain (addr : ℕ → A) (m j : ℕ) : BinaryTree A :=
  plug (spine addr j) (.node (addr m) (.node (addr j) .nil .nil) .nil)

theorem height_spine (j : ℕ) : (plug (spine addr j) s).height = s.height + j := by
  induction j generalizing s with
  | zero => rfl
  | succ j ih =>
    simp only [spine, plug, join, ih, height]
    omega

theorem height_chain (j : ℕ) : (chain addr m j).height = j + 2 := by
  simp only [chain, height_spine, height]
  omega

/-- The tree object after the keys `m`, 0, …, `j`. -/
structure IsChain (t : Tree A K) (j : ℕ) : Prop where
  holds : Holds t (chain addr m j)
  key_max : t.heap.keys (addr m) = some (key m)
  keys : ∀ i, i ≤ j → t.heap.keys (addr i) = some (key i)
  free : ∀ i, j < i → i < m → t.heap.keys (addr i) = none
  hint_max : t.heap.hintAt (addr m) = 1
  hint_last : t.heap.hintAt (addr j) = 0

variable {key addr m}

theorem spine_onPath {j : ℕ} {k : K} (hkeys : ∀ i, i < j → h.keys (addr i) = some (key i))
    (hlt : ∀ i, i < j → key i < k) : ∀ f ∈ spine addr j, OnPath h k f := by
  induction j with
  | zero => simp [spine]
  | succ j ih =>
    refine List.forall_mem_cons.mpr ⟨⟨key j, hkeys j (by omega), hlt j (by omega)⟩, ?_⟩
    exact ih (fun i hi => hkeys i (by omega)) fun i hi => hlt i (by omega)

theorem keys_none {a : A} (hk : h.keys a = none) : h a = none := by
  simpa [Heap.keys, Heap.data] using hk

theorem length_spine (j : ℕ) : (spine addr j).length = j := by
  induction j with
  | zero => rfl
  | succ j ih => rw [spine, List.length_cons, ih]

/-- Inserting the next key: the rotation at the node `m` turns the chain into a longer one. -/
theorem chain_insert (hcmp : Agrees cmp) (hkey : StrictMono key) (haddr : Function.Injective addr)
    (h₀ : narrow 0 = 0) (h₁ : narrow 1 = 1) {j : ℕ} (hj : j + 1 < m) (ht : IsChain key addr m t j)
    (hfuel : m + 2 ≤ fuel) :
    ∃ t', stInsert narrow cmp fuel t (key (j + 1)) (addr (j + 1)) = some (0, t') ∧
      IsChain key addr m t' (j + 1) := by
  let c : Ctx A := ⟨.right, addr j, .nil⟩ :: ⟨.left, addr m, .nil⟩ :: spine addr j
  have hT : Holds t (plug c .nil) := ht.holds
  have hpath : ∀ f ∈ c, OnPath t.heap (key (j + 1)) f := by
    refine List.forall_mem_cons.mpr ⟨⟨_, ht.keys j (Nat.le_refl j), hkey (Nat.lt_succ_self j)⟩, ?_⟩
    refine List.forall_mem_cons.mpr ⟨⟨_, ht.key_max, hkey hj⟩, ?_⟩
    exact spine_onPath (fun i hi => ht.keys i (by omega)) fun i hi => hkey (by omega)
  have hlen : c.length = j + 2 := by simp [c, length_spine]
  have hfind : stFindFrom cmp (key (j + 1)) t.heap fuel t.root none none =
      some (none, parentOf none c, sideOf none c) := by
    obtain ⟨f, rfl⟩ : ∃ f, fuel = c.length + (f + 1) := ⟨fuel - c.length - 1, by omega⟩
    rw [ht.holds.root]
    exact stFindFrom_path hcmp c .nil (f + 1) hT.rep hpath
  obtain ⟨t₁, hT₁, hkeys₁, hhint₁, ⟨hc, -⟩ | ⟨-, hexec⟩⟩ :=
    stInsert_link _ hT (keys_none (ht.free (j + 1) (by omega) hj)) hfind
  · exact absurd hc (List.cons_ne_nil _ _)
  have hjm : addr j ≠ addr m := fun h => by
    have := haddr h
    omega
  have hnj : addr (j + 1) ≠ addr j := fun h => by
    have := haddr h
    omega
  have hnm : addr (j + 1) ≠ addr m := fun h => by
    have := haddr h
    omega
  obtain ⟨f, rfl⟩ : ∃ f, fuel = f + 3 := ⟨fuel - 3, by omega⟩
  -- the new leaf, then its parent, which only store their hints
  let t₂ := t₁.rehint (addr (j + 1)) 0
  let t₃ := t₂.rehint (addr j) 1
  have hT₂ : Holds t₂ (plug (⟨.left, addr m, .nil⟩ :: spine addr j)
      (.node (addr j) .nil (.node (addr (j + 1)) .nil .nil))) := hT₁.rehint _ _
  have hT₃ : Holds t₃ (plug (spine addr j) (join .left (addr m)
      (join .left (addr j) .nil (.node (addr (j + 1)) .nil .nil)) .nil)) := hT₂.rehint _ _
  have hn₂ : t₂.heap.hintAt (addr (j + 1)) = 0 :=
    Heap.hintAt_rehint_self (rep_plug.mp hT₁.rep).2.1
  have hj₂ : t₂.heap.hintAt (addr j) = 0 := by
    rw [← ht.hint_last, ← Function.update_of_ne hnj.symm 0 t.heap.hintAt, ← hhint₁]
    exact Heap.hintAt_rehint_of_ne hnj.symm
  have hm₂ : t₂.heap.hintAt (addr m) = 1 := by
    rw [← ht.hint_max, ← Function.update_of_ne hnm.symm 0 t.heap.hintAt, ← hhint₁]
    exact Heap.hintAt_rehint_of_ne hnm.symm
  have hn₃ : t₃.heap.hintAt (addr (j + 1)) = 0 :=
    (Heap.hintAt_rehint_of_ne hnj).trans hn₂
  have hj₃ : t₃.heap.hintAt (addr j) = 1 :=
    Heap.hintAt_rehint_self (rep_plug.mp hT₂.rep).2.1
  have hm₃ : t₃.heap.hintAt (addr m) = 1 :=
    (Heap.hintAt_rehint_of_ne hjm.symm).trans hm₂
  have hturn₁ : stUpdate narrow (f + 3) t₁ (some (addr (j + 1))) =
      stUpdate narrow (f + 2) t₂ (some (addr j)) := by
    rw [stUpdate_level hT₁ (by simp) (by simp)]
    simp [settle, level, h₀, t₂, c]
  have hturn₂ : stUpdate narrow (f + 2) t₂ (some (addr j)) =
      stUpdate narrow (f + 1) t₃ (some (addr m)) := by
    rw [stUpdate_level hT₂ (by simp [level, hn₂]) (by simp [level, hn₂])]
    simp [settle, level, hn₂, hj₂, h₁, t₃]
  -- the rotation at the node with the largest key
  obtain ⟨t₄, hT₄, hd₄, hturn₃⟩ := stUpdate_rotate hT₃ (by simp [level, join, hj₃])
  have hend : stUpdate narrow (f + 1) t₃ (some (addr m)) = some (t₄.rehint (addr m) 1) := by
    rw [hturn₃]
    simp [settle, level, hn₃, hm₃, h₁]
  have hkeys : (t₄.rehint (addr m) 1).heap.keys =
      Function.update t.heap.keys (addr (j + 1)) (some (key (j + 1))) := by
    rw [← hkeys₁]
    simp [Tree.rehint, Heap.keys_congr hd₄, t₃, t₂]
  refine ⟨t₄.rehint (addr m) 1, ?_, hT₄.rehint _ _, ?_, fun i hi => ?_, fun i hji him => ?_, ?_, ?_⟩
  · rw [hexec, hturn₁, hturn₂, hend, Option.map_some]
  · rw [hkeys, Function.update_of_ne hnm.symm, ht.key_max]
  · rw [hkeys]
    rcases Nat.lt_or_eq_of_le hi with hi | rfl
    · rw [Function.update_of_ne fun h => absurd (haddr h) (by omega), ht.keys i (by omega)]
    · rw [Function.update_self]
  · rw [hkeys, Function.update_of_ne fun h => absurd (haddr h) (by omega),
      ht.free i (by omega) him]
  · exact Heap.hintAt_rehint_self (rep_plug.mp hT₄.rep).2.2.2.1
  · exact (Heap.hintAt_rehint_of_ne hnm).trans (by rw [Heap.hintAt_congr hd₄, hn₃])

/-- The first call: a tree of one node. -/
theorem first_insert (narrow : ℤ → ℤ) (cmp : K → K → ℤ) (fuel : ℕ) (k : K) (a : A) (hfuel : 0 < fuel) :
    ∃ t, stInsert narrow cmp fuel stCreate k a = some (0, t) ∧ Holds t (.node a .nil .nil) ∧
      t.heap.keys = Function.update (fun _ => none) a (some k) ∧
      t.heap.hintAt = fun _ => 0 := by
  have hfind : stFindFrom cmp k (stCreate : Tree A K).heap fuel (stCreate : Tree A K).root none
      none = some (none, none, none) := by
    obtain ⟨f, rfl⟩ : ∃ f, fuel = f + 1 := ⟨fuel - 1, by omega⟩
    rfl
  obtain ⟨t, hT, hkeys, hhint, ⟨-, hexec⟩ | ⟨hc, -⟩⟩ :=
    stInsert_link (c := []) a stCreate_stores.holds rfl hfind
  · refine ⟨t, hexec narrow, hT, hkeys.trans rfl, hhint.trans ?_⟩
    exact Function.update_eq_self (f := fun _ : A => (0 : ℤ)) a
  · exact absurd rfl hc

/-- The second call: the smallest key goes left of the largest one. -/
theorem chain_start (hcmp : Agrees cmp) (hkey : StrictMono key) (haddr : Function.Injective addr)
    (h₀ : narrow 0 = 0) (h₁ : narrow 1 = 1) (hm : 0 < m) (hfuel : m + 2 ≤ fuel)
    (hT : Holds t (.node (addr m) .nil .nil))
    (hkeys : t.heap.keys = Function.update (fun _ => none) (addr m) (some (key m)))
    (hhint : t.heap.hintAt = fun _ => 0) :
    ∃ t', stInsert narrow cmp fuel t (key 0) (addr 0) = some (0, t') ∧ IsChain key addr m t' 0 := by
  let c : Ctx A := [⟨.left, addr m, .nil⟩]
  have hT' : Holds t (plug c .nil) := hT
  have hpath : ∀ f ∈ c, OnPath t.heap (key 0) f :=
    List.forall_mem_cons.mpr ⟨⟨key m, by simp [hkeys], hkey hm⟩, by simp⟩
  have hfind : stFindFrom cmp (key 0) t.heap fuel t.root none none =
      some (none, parentOf none c, sideOf none c) := by
    obtain ⟨f, rfl⟩ : ∃ f, fuel = c.length + (f + 1) := ⟨fuel - c.length - 1, by simp [c]; omega⟩
    rw [hT.root]
    exact stFindFrom_path hcmp c .nil (f + 1) hT'.rep hpath
  have hne : addr 0 ≠ addr m := fun h => by
    have := haddr h
    omega
  obtain ⟨t₁, hT₁, hkeys₁, hhint₁, ⟨hc, -⟩ | ⟨-, hexec⟩⟩ :=
    stInsert_link (addr 0) hT' (keys_none (by simp [hkeys, hne])) hfind
  · exact absurd hc (List.cons_ne_nil _ _)
  obtain ⟨f, rfl⟩ : ∃ f, fuel = f + 3 := ⟨fuel - 3, by omega⟩
  let t₂ := t₁.rehint (addr 0) 0
  let t₃ := t₂.rehint (addr m) 1
  have hT₂ : Holds t₂ (plug [] (.node (addr m) (.node (addr 0) .nil .nil) .nil)) := hT₁.rehint _ _
  have hn₂ : t₂.heap.hintAt (addr 0) = 0 := Heap.hintAt_rehint_self (rep_plug.mp hT₁.rep).2.1
  have hm₂ : t₂.heap.hintAt (addr m) = 0 := by
    refine (Heap.hintAt_rehint_of_ne hne.symm).trans ?_
    rw [hhint₁, Function.update_of_ne hne.symm, hhint]
  have hturn₁ : stUpdate narrow (f + 3) t₁ (some (addr 0)) =
      stUpdate narrow (f + 2) t₂ (some (addr m)) := by
    rw [stUpdate_level hT₁ (by simp) (by simp)]
    simp [settle, level, h₀, t₂, c]
  have hturn₂ : stUpdate narrow (f + 2) t₂ (some (addr m)) = some t₃ := by
    rw [stUpdate_level hT₂ (by simp [level, hn₂]) (by simp [level, hn₂])]
    simp [settle, level, hn₂, hm₂, h₁, t₃, stUpdate, parentOf]
  have hkeys₃ : t₃.heap.keys = Function.update t.heap.keys (addr 0) (some (key 0)) := by
    rw [← hkeys₁]
    simp [t₃, t₂, Tree.rehint]
  refine ⟨t₃, ?_, hT₂.rehint _ _, ?_, fun i hi => ?_, fun i hji him => ?_, ?_, ?_⟩
  · rw [hexec, hturn₁, hturn₂, Option.map_some]
  · rw [hkeys₃, Function.update_of_ne hne.symm, hkeys, Function.update_self]
  · obtain rfl : i = 0 := by omega
    rw [hkeys₃, Function.update_self]
  · rw [hkeys₃, Function.update_of_ne fun h => absurd (haddr h) (by omega), hkeys,
      Function.update_of_ne fun h => absurd (haddr h) (by omega)]
  · exact Heap.hintAt_rehint_self (rep_plug.mp hT₂.rep).2.1
  · exact (Heap.hintAt_rehint_of_ne hne).trans hn₂

/-- The whole run: every insertion makes the chain one node longer. -/
theorem chain_run (hcmp : Agrees cmp) (hkey : StrictMono key) (haddr : Function.Injective addr)
    (h₀ : narrow 0 = 0) (h₁ : narrow 1 = 1) (hfuel : m + 2 ≤ fuel) {j : ℕ} (hj : j < m) :
    ∃ t, calls narrow cmp fuel stCreate (inserts ((key m, addr m) ::
        (List.range (j + 1)).map fun i => (key i, addr i))) =
        some (List.replicate (j + 2) (.code 0), t) ∧ IsChain key addr m t j := by
  induction j with
  | zero =>
    obtain ⟨t₁, e₁, hT₁, hkeys₁, hhint₁⟩ :=
      first_insert narrow cmp fuel (key m) (addr m) (by omega)
    obtain ⟨t, e, ht⟩ := chain_start hcmp hkey haddr h₀ h₁ hj hfuel hT₁ hkeys₁ hhint₁
    exact ⟨t, by simp [inserts, calls, call, e₁, e], ht⟩
  | succ j ih =>
    obtain ⟨t₁, e₁, ht₁⟩ := ih (by omega)
    obtain ⟨t, e, ht⟩ := chain_insert hcmp hkey haddr h₀ h₁ hj ht₁ hfuel
    refine ⟨t, ?_, ht⟩
    have hsplit : inserts ((key m, addr m) :: (List.range (j + 1 + 1)).map fun i => (key i, addr i)) =
        inserts ((key m, addr m) :: (List.range (j + 1)).map fun i => (key i, addr i)) ++
          [.insert (key (j + 1)) (addr (j + 1))] := by
      simp [inserts, List.range_succ]
    rw [hsplit, calls_append, e₁]
    simp [calls, call, e, List.replicate_succ']

/-- For every number of insertions the order `chainOrder` makes the tree a chain. -/
theorem chain_depth (addr : ℕ → A) (cmp : K → K → ℤ) (hcmp : Agrees cmp) (hkey : StrictMono key)
    (haddr : Function.Injective addr) (n fuel : ℕ) (hfuel : n + 1 < fuel) :
    ∃ t, calls toShort cmp fuel stCreate (inserts (chainOrder key addr n)) =
        some (List.replicate n (.code 0), t) ∧
      treeintStHeight t.heap fuel t.root = some n := by
  have h₀ : toShort 0 = 0 := by decide
  have h₁ : toShort 1 = 1 := by decide
  cases n with
  | zero =>
    obtain ⟨f, rfl⟩ : ∃ f, fuel = f + 1 := ⟨fuel - 1, by omega⟩
    exact ⟨stCreate, rfl, rfl⟩
  | succ m =>
    cases m with
    | zero =>
      obtain ⟨t, e, hT, -⟩ := first_insert toShort cmp fuel (key 0) (addr 0) (by omega)
      refine ⟨t, by simp [chainOrder, inserts, calls, call, e], ?_⟩
      rw [hT.root]
      exact treeintStHeight_spec fuel hT.rep (by simp [height]; omega)
    | succ m =>
      obtain ⟨t, e, ht⟩ := chain_run hcmp hkey haddr h₀ h₁ (m := m + 1) (by omega : m + 1 + 2 ≤ fuel)
        (Nat.lt_succ_self m)
      refine ⟨t, e, ?_⟩
      have hheight := height_chain addr (m + 1) m
      rw [ht.holds.root, treeintStHeight_spec fuel ht.holds.rep (by omega), hheight]

end Chain

/-- How deep insertions make a tree: the longest path has at most as many nodes as were inserted,
and for every number of insertions some order of them makes the tree a chain. -/
theorem st_insert_depth (cmp : K → K → ℤ) (hcmp : Agrees cmp) :
    (∀ (kas : List (K × A)) (fuel : ℕ) (t : Tree A K), Fresh (fun _ => none) (inserts kas) →
      kas.length < fuel →
      calls toShort cmp fuel stCreate (inserts kas) =
        some (List.replicate kas.length (.code 0), t) →
      ∃ d, treeintStHeight t.heap fuel t.root = some d ∧ d ≤ kas.length) ∧
    ∀ (key : ℕ → K) (addr : ℕ → A), StrictMono key → Function.Injective addr →
      ∀ n fuel, n + 1 < fuel →
        ∃ t, calls toShort cmp fuel stCreate (inserts (chainOrder key addr n)) =
            some (List.replicate n (.code 0), t) ∧
          treeintStHeight t.heap fuel t.root = some n := by
  constructor
  · intro kas fuel t hfresh hfuel hrun
    have hlen : (inserts kas).length = kas.length := List.length_map _
    rcases calls_spec toShort hcmp (inserts kas) stCreate_stores hfresh
      (by simpa [hlen] using hfuel) with ⟨t', T, e, ht, hT⟩ | ⟨e, -⟩
    · obtain ⟨-, rfl⟩ := Prod.mk.inj (Option.some.inj (e.symm.trans hrun))
      rw [hlen, inorder_nil, List.length_nil, Nat.zero_add] at hT
      obtain ⟨d, hd, hle⟩ := height_le_size ht fuel (by omega)
      exact ⟨d, hd, Nat.le_trans hle hT⟩
    · rw [e] at hrun
      cases hrun
  · intro key addr hkey haddr n fuel hfuel
    exact chain_depth addr cmp hcmp hkey haddr n fuel hfuel

theorem st_insert_depth_int :
    ∃ t, calls toShort (fun a b : ℤ => a - b) 18 (stCreate : Tree ℕ ℤ)
        (inserts (chainOrder (fun i => (i : ℤ)) id 16)) = some (List.replicate 16 (.code 0), t) ∧
      treeintStHeight t.heap 18 t.root = some 16 :=
  (st_insert_depth _ agrees_sub).2 _ _ Int.natCast_strictMono Function.injective_id 16 18
    (by decide)

/-- Blocks that are all different and not in use are fresh. -/
theorem fresh_inserts (kas : List (K × A)) (hnd : (kas.map Prod.snd).Nodup)
    (hM : ∀ ka ∈ kas, ∀ k, M k ≠ some ka.2) : Fresh M (inserts kas) := by
  induction kas generalizing M with
  | nil => trivial
  | cons ka kas ih =>
    rw [List.map_cons, List.nodup_cons] at hnd
    obtain ⟨hka, hM⟩ := List.forall_mem_cons.mp hM
    refine ⟨fun _ => hka, ih hnd.2 fun kb hkb k => ?_⟩
    simp only [setCall]
    split
    · exact hM kb hkb k
    · change Function.update M ka.1 (some ka.2) k ≠ some kb.2
      by_cases hk : k = ka.1
      · rw [hk, Function.update_self]
        intro h
        exact hnd.1 (List.mem_map.mpr ⟨kb, hkb, (Option.some.inj h).symm⟩)
      · rw [Function.update_of_ne hk]
        exact hM kb hkb k

/-- Twice the logarithm, the bound that a red-black tree has, fails for a chain of 16 nodes. -/
theorem st_insert_not_logarithmic : ¬ ∀ (kas : List (ℤ × ℕ)) (t : Tree ℕ ℤ) (d : ℕ),
    Fresh (fun _ => none) (inserts kas) →
    calls toShort (fun a b : ℤ => a - b) (kas.length + 2) stCreate (inserts kas) =
      some (List.replicate kas.length (.code 0), t) →
    treeintStHeight t.heap (kas.length + 2) t.root = some d →
    (d : ℝ) ≤ 2 * Real.logb 2 (kas.length + 1) + 2 := by
  intro hbound
  have hkey : StrictMono fun i : ℕ => (i : ℤ) := Int.natCast_strictMono
  obtain ⟨t, e, hd⟩ := chain_depth id (fun a b : ℤ => a - b) agrees_sub hkey
    Function.injective_id 16 18 (by omega)
  have hle := hbound (chainOrder (fun i => (i : ℤ)) id 16) t 16
    (fresh_inserts _ (by decide) (by simp)) e hd
  have hlog : Real.logb 2 17 < 7 := by
    rw [Real.logb_lt_iff_lt_rpow (by norm_num) (by norm_num)]
    norm_num
  have hlen : (chainOrder (fun i => (i : ℤ)) id 16).length = 16 := rfl
  rw [hlen] at hle
  norm_num at hle
  linarith

end LinuxSummer.STree
