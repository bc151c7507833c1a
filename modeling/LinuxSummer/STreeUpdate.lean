import LinuxSummer.STreeHeap

/-! The update phase of the S-tree: rotations chosen from the hints never change the order of
the nodes, and with non-negative hints they never lack the child they promote. -/
set_option linter.unusedSectionVars false

namespace LinuxSummer.STree
open BinaryTree LinkedTree

variable {A K : Type} [DecidableEq A]

namespace Heap

def keys (h : Heap A K) (a : A) : Option K := (h.data a).map (·.2)

/-- The hint of a node, 0 where there is none. -/
def hintAt (h : Heap A K) (a : A) : ℤ := ((h.data a).map (·.1)).getD 0

def NonNeg (h : Heap A K) : Prop := ∀ a, 0 ≤ h.hintAt a

/-- The heap after a write to the hint of `a`. -/
def rehint (h : Heap A K) (a : A) (z : ℤ) : Heap A K :=
  Function.update h a ((h a).map fun n => { n with hint := z })

variable {h : Heap A K} {a b : A} {z : ℤ}

@[simp] theorem setHint_some :
    h.setHint (some a) z = (h.links a).map fun _ => h.rehint a z := by
  cases ha : h a <;> simp [setHint, modify, links, rehint, ha]

@[simp] theorem links_rehint : (h.rehint a z).links = h.links := by
  funext b
  by_cases hb : b = a
  · subst hb
    simp [links, rehint, Function.comp_def]
  · simp [links, rehint, hb]

@[simp] theorem keys_rehint : (h.rehint a z).keys = h.keys := by
  funext b
  by_cases hb : b = a
  · subst hb
    simp [keys, data, rehint, Function.comp_def]
  · simp [keys, data, rehint, hb]

theorem hintAt_rehint_of_ne (hb : b ≠ a) : (h.rehint a z).hintAt b = h.hintAt b := by
  simp [hintAt, data, rehint, hb]

theorem hintAt_rehint_self {k : Links A} (hk : h.links a = some k) :
    (h.rehint a z).hintAt a = z := by
  obtain ⟨n, hn, -⟩ := Option.map_eq_some_iff.mp hk
  simp [hintAt, data, rehint, hn]

theorem hint_live {k : Links A} (hk : h.links a = some k) :
    h.hint (some a) = some (h.hintAt a) := by
  obtain ⟨n, hn, -⟩ := Option.map_eq_some_iff.mp hk
  simp [hintAt, data, hn]

theorem nonNeg_rehint (hh : h.NonNeg) (hz : 0 ≤ z) : (h.rehint a z).NonNeg := by
  intro b
  by_cases hb : b = a
  · subst hb
    cases hk : h b with
    | none => simp [hintAt, data, rehint, hk]
    | some n =>
      rw [hintAt_rehint_self (k := n.toLinks) (by simp [links, hk])]
      exact hz
  · rw [hintAt_rehint_of_ne hb]
    exact hh b

theorem keys_congr {h' : Heap A K} (hd : h'.data = h.data) : h'.keys = h.keys := by
  funext a
  simp only [keys, hd]

theorem hintAt_congr {h' : Heap A K} (hd : h'.data = h.data) : h'.hintAt = h.hintAt := by
  funext a
  simp only [hintAt, hd]

theorem nonNeg_congr {h' : Heap A K} (hd : h'.data = h.data) (hh : h.NonNeg) : h'.NonNeg := by
  intro a
  rw [hintAt_congr hd]
  exact hh a

end Heap

/-- The tree object `t` holds the binary tree `T`. -/
structure Holds (t : Tree A K) (T : BinaryTree A) : Prop where
  root : t.root = top T
  rep : Rep t.heap.links none T
  nodup : (inorder T).Nodup

/-- What the balance of a node counts for a subtree. -/
def level (h : Heap A K) : BinaryTree A → ℤ
  | .nil => 0
  | .node a _ _ => h.hintAt a + 1

variable {t t' : Tree A K} {h : Heap A K} {n l : A} {d : Side} {c : Ctx A} {par : Option A}
  {s x y z : BinaryTree A} {narrow : ℤ → ℤ} {fuel : ℕ}

theorem level_nil : level h (.nil : BinaryTree A) = 0 := rfl

theorem level_nonneg (hh : h.NonNeg) (s : BinaryTree A) : 0 ≤ level h s := by
  cases s with
  | nil => exact Int.le_refl 0
  | node a l r =>
    have := hh a
    simp only [level]
    omega

theorem level_pos (hh : h.NonNeg) : 0 < level h s ↔ s ≠ .nil := by
  cases s with
  | nil => simp [level]
  | node a l r =>
    have := hh a
    simp only [level, ne_eq, reduceCtorEq, not_false_eq_true, iff_true]
    omega

theorem sideHint_spec (hr : Rep h.links par (join d n s z)) :
    sideHint d h (some n) = some (level h s) := by
  obtain ⟨hn, hs, -⟩ := rep_join.mp hr
  cases s with
  | nil => simp [sideHint, hn, level]
  | node a l r => simp [sideHint, hn, level, Heap.hint_live hs.1, -Heap.hint_some]

theorem stBalance_spec (hr : Rep h.links par (.node n x y)) :
    stBalance h (some n) = some (level h x - level h y) := by
  have hx := sideHint_spec (d := .left) hr
  have hy := sideHint_spec (d := .right) (s := y) (z := x) hr
  simp only [stBalance, hx, hy, Option.bind_eq_bind, Option.bind_some, Option.pure_def]

theorem stMaxHint_spec (hr : Rep h.links par (.node n x y)) :
    stMaxHint h (some n) = some (max (level h x) (level h y)) := by
  have hx := sideHint_spec (d := .left) hr
  have hy := sideHint_spec (d := .right) (s := y) (z := x) hr
  simp only [stMaxHint, hx, hy, Option.bind_eq_bind, Option.bind_some, Option.pure_def,
    Option.some.injEq]
  split <;> omega

/-- A node is the root of the tree only if nothing is around it. -/
theorem root_iff (ht : Holds t (plug c s)) (hs : top s = some n) : t.root = some n ↔ c = [] := by
  rw [ht.root]
  constructor
  · intro h
    by_contra hc
    have hnd := nodup_plug.mp ht.nodup
    exact (List.nodup_append.mp hnd).2.2 n (top_plug_mem hc h) n (top_mem hs) rfl
  · rintro rfl
    exact hs

/-- The pointer that the tree object is given when `s` takes the place of a subtree. -/
theorem root_replace (ht : Holds t (plug c x)) (hx : top x = some n) (s : BinaryTree A) :
    (if some n = t.root then top s else t.root) = top (plug c s) := by
  by_cases hc : c = []
  · rw [if_pos ((root_iff ht hx).mpr hc).symm, hc, plug]
  · rw [if_neg fun h => hc ((root_iff ht hx).mp h.symm), ht.root, top_plug hc]

theorem inorder_rotate : inorder (join d l x (join d.flip n z y)) =
    inorder (join d n (join d l x y) z) := by
  cases d <;> simp [join, Side.flip]

theorem inorder_plug_congr (h : inorder x = inorder y) : inorder (plug c x) = inorder (plug c y) := by
  rw [inorder_plug, inorder_plug, h]

/-- Rotation of a node with a child on the promoted side. -/
theorem promote_spec (ht : Holds t (plug c (join d n (join d l x y) z))) :
    ∃ t', promote d t (some n) = some t' ∧
      Holds t' (plug c (join d l x (join d.flip n z y))) ∧ t'.heap.data = t.heap.data := by
  obtain ⟨h', e, hr, hd⟩ := stRotate_spec ht.rep ht.nodup
  have hn := (rep_join.mp (rep_plug.mp ht.rep).2).1
  rw [top_join] at hn
  have hroot := root_replace ht top_join (join d l x (join d.flip n z y))
  rw [top_join] at hroot
  refine ⟨⟨top (plug c (join d l x (join d.flip n z y))), h'⟩, ?_, ⟨rfl, hr, ?_⟩, hd⟩
  · rw [← hroot]
    by_cases hc : some n = t.root <;> simp [promote, hc, e]
    · simp [← hc, hn, e]
  · rw [inorder_plug_congr inorder_rotate]
    exact ht.nodup

/-- Rotation of a node without a child on the promoted side follows a NULL pointer. -/
theorem promote_nil (ht : Holds t (plug c (join d n .nil z))) : promote d t (some n) = none := by
  have hn := (rep_join.mp (rep_plug.mp ht.rep).2).1
  have hrot : stRotate d t.heap (some n) = none := by simp [stRotate, hn]
  by_cases hc : some n = t.root
  · simp [promote, ← hc, hn, hrot]
  · simp [promote, hc, hrot]

/-- Storing a hint leaves the tree as it is. -/
def Tree.rehint (t : Tree A K) (n : A) (z : ℤ) : Tree A K := ⟨t.root, t.heap.rehint n z⟩

theorem Holds.rehint {T : BinaryTree A} (ht : Holds t T) (n : A) (z : ℤ) :
    Holds (t.rehint n z) T :=
  ⟨ht.root, by simpa only [Tree.rehint, Heap.links_rehint] using ht.rep, ht.nodup⟩

/-- What `st_update` does after the rotation. -/
def storeHint (narrow : ℤ → ℤ) (fuel : ℕ) (t : Tree A K) (n : A) (prevHint : ℤ) (p : Option A) :
    Option (Tree A K) := do
  let h ← t.heap.setHint (some n) (narrow (← stMaxHint t.heap (some n)))
  if (← h.hint (some n)) = 0 ∨ (← h.hint (some n)) ≠ prevHint then
    stUpdate narrow fuel ⟨t.root, h⟩ p
  else
    pure ⟨t.root, h⟩

/-- The same when the new hint is `m` before its conversion. -/
def settle (narrow : ℤ → ℤ) (fuel : ℕ) (t : Tree A K) (n : A) (prevHint m : ℤ) (p : Option A) :
    Option (Tree A K) :=
  if narrow m = 0 ∨ narrow m ≠ prevHint then stUpdate narrow fuel (t.rehint n (narrow m)) p
  else some (t.rehint n (narrow m))

theorem store_hint (ht : Holds t (plug c (.node n x y))) (prevHint : ℤ) (p : Option A) :
    storeHint narrow fuel t n prevHint p =
      settle narrow fuel t n prevHint (max (level t.heap x) (level t.heap y)) p := by
  have hr := (rep_plug.mp ht.rep).2
  have hn := hr.1
  have hhint : (t.heap.rehint n (narrow (max (level t.heap x) (level t.heap y)))).hint (some n) =
      some (narrow (max (level t.heap x) (level t.heap y))) := by
    rw [Heap.hint_live (k := ⟨parentOf none c, top x, top y⟩) (by simpa using hn),
      Heap.hintAt_rehint_self hn]
  simp [storeHint, stMaxHint_spec hr, hn, hhint, settle, Tree.rehint, -Heap.hint_some]

/-- `st_update` of a node that does not lean. -/
theorem stUpdate_level (ht : Holds t (plug c (.node n x y)))
    (hle : ¬ level t.heap x - level t.heap y < -1) (hge : ¬ level t.heap x - level t.heap y > 1) :
    stUpdate narrow (fuel + 1) t (some n) = settle narrow fuel t n (t.heap.hintAt n)
      (max (level t.heap x) (level t.heap y)) (parentOf none c) := by
  have hr := (rep_plug.mp ht.rep).2
  have hn := hr.1
  rw [← store_hint ht]
  simp [stUpdate, storeHint, stBalance_spec hr, Heap.hint_live hn, hn, hle, hge, -Heap.hint_some]

/-- `st_update` of a node that leans to side `d`. -/
theorem stUpdate_lean (ht : Holds t (plug c (join d n s z)))
    (hlean : level t.heap s - level t.heap z > 1) :
    stUpdate narrow (fuel + 1) t (some n) = (promote d t (some n)).bind fun t' =>
      storeHint narrow fuel t' n (t.heap.hintAt n) (parentOf none c) := by
  have hr := (rep_plug.mp ht.rep).2
  cases d with
  | left =>
    have hb := stBalance_spec hr
    have hle : ¬ level t.heap s - level t.heap z < -1 := by omega
    simp [stUpdate, storeHint, hb, Heap.hint_live hr.1, hr.1, hle, hlean, -Heap.hint_some]
  | right =>
    have hb := stBalance_spec hr
    have hle : level t.heap z - level t.heap s < -1 := by omega
    simp [stUpdate, storeHint, hb, Heap.hint_live hr.1, hr.1, hle, -Heap.hint_some]

theorem join_flip : join d.flip n x y = join d n y x := by cases d <;> rfl

theorem level_congr {h' : Heap A K} (hh : h'.hintAt = h.hintAt) : level h' s = level h s := by
  cases s with
  | nil => rfl
  | node a l r => simp only [level, hh]

/-- A leaning node that has the child to promote is rotated. -/
theorem stUpdate_rotate (ht : Holds t (plug c (join d n (join d l x y) z)))
    (hlean : level t.heap (join d l x y) - level t.heap z > 1) :
    ∃ t', Holds t' (plug c (join d l x (join d.flip n z y))) ∧ t'.heap.data = t.heap.data ∧
      ∀ narrow fuel, stUpdate narrow (fuel + 1) t (some n) = settle narrow fuel t' n
        (t.heap.hintAt n) (max (level t.heap z) (level t.heap y)) (parentOf none c) := by
  obtain ⟨t', e, ht', hd⟩ := promote_spec ht
  have hh := Heap.hintAt_congr hd
  refine ⟨t', ht', hd, fun narrow fuel => ?_⟩
  rw [stUpdate_lean ht hlean, e, Option.bind_some, ← level_congr hh (s := z),
    ← level_congr hh (s := y)]
  cases d with
  | left =>
    have ht₁ : Holds t' (plug (⟨.right, l, x⟩ :: c) (.node n y z)) := ht'
    rw [Int.max_comm, store_hint ht₁]
  | right =>
    have ht₁ : Holds t' (plug (⟨.left, l, x⟩ :: c) (.node n z y)) := ht'
    rw [store_hint ht₁]

/-- What the update phase keeps: it fails only on a negative hint, or without enough fuel. -/
structure Updated (narrow : ℤ → ℤ) (t t' : Tree A K) (l : List A) (T : BinaryTree A) : Prop where
  holds : Holds t' T
  order : inorder T = l
  keys : t'.heap.keys = t.heap.keys
  nonNeg : (∀ z, 0 ≤ z → 0 ≤ narrow z) → t.heap.NonNeg → t'.heap.NonNeg

theorem settle_cases {T : BinaryTree A} (narrow : ℤ → ℤ) (fuel : ℕ) (n : A) (m prevHint : ℤ)
    (p : Option A) (ht' : Holds t' T) (hd : t'.heap.data = t.heap.data) (hm : t.heap.NonNeg → 0 ≤ m) :
    ∃ t₁, Updated narrow t t₁ (inorder T) T ∧
      (settle narrow fuel t' n prevHint m p = some t₁ ∨
        settle narrow fuel t' n prevHint m p = stUpdate narrow fuel t₁ p) := by
  refine ⟨t'.rehint n (narrow m), ⟨ht'.rehint _ _, rfl, ?_, fun hnarrow hh => ?_⟩, ?_⟩
  · simp only [Tree.rehint, Heap.keys_rehint, Heap.keys_congr hd]
  · exact Heap.nonNeg_rehint (Heap.nonNeg_congr hd hh) (hnarrow m (hm hh))
  · unfold settle
    split
    · exact Or.inr rfl
    · exact Or.inl rfl

/-- One call of `st_update` without its recursive call: only the subtree changes, unless the call
fails on a negative hint. -/
def Turn (narrow : ℤ → ℤ) (fuel : ℕ) (t : Tree A K) (c : Ctx A) (n : A) (l : List A) : Prop :=
  (∃ t₁ s, Updated narrow t t₁ l (plug c s) ∧
    (stUpdate narrow (fuel + 1) t (some n) = some t₁ ∨
      stUpdate narrow (fuel + 1) t (some n) = stUpdate narrow fuel t₁ (parentOf none c))) ∨
  (stUpdate narrow (fuel + 1) t (some n) = none ∧ ¬ t.heap.NonNeg)

theorem exists_join (d : Side) (hs : s ≠ .nil) : ∃ l x y, s = join d l x y := by
  cases s with
  | nil => exact absurd rfl hs
  | node a u v =>
    cases d with
    | left => exact ⟨a, u, v, rfl⟩
    | right => exact ⟨a, v, u, rfl⟩

theorem turn_lean (ht : Holds t (plug c (join d n s z)))
    (hlean : level t.heap s - level t.heap z > 1) :
    Turn narrow fuel t c n (inorder (plug c (join d n s z))) := by
  by_cases hs : s = .nil
  · right
    subst hs
    refine ⟨by rw [stUpdate_lean ht hlean, promote_nil ht, Option.bind_none], fun hh => ?_⟩
    have := level_nonneg hh z
    rw [level_nil] at hlean
    omega
  · obtain ⟨l, x, y, rfl⟩ := exists_join d hs
    left
    obtain ⟨t', ht', hd, e⟩ := stUpdate_rotate ht hlean
    obtain ⟨t₁, hu, hcall⟩ := settle_cases narrow fuel n (max (level t.heap z) (level t.heap y))
      (t.heap.hintAt n) (parentOf none c) ht' hd
      fun hh => Int.le_trans (level_nonneg hh z) (Int.le_max_left _ _)
    rw [inorder_plug_congr inorder_rotate] at hu
    exact ⟨t₁, _, hu, by rwa [e]⟩

theorem stUpdate_turn (narrow : ℤ → ℤ) (fuel : ℕ) (ht : Holds t (plug c (.node n x y))) :
    Turn narrow fuel t c n (inorder (plug c (.node n x y))) := by
  by_cases hle : level t.heap x - level t.heap y < -1
  · exact turn_lean (d := .right) (s := y) (z := x) ht (by omega)
  by_cases hge : level t.heap x - level t.heap y > 1
  · exact turn_lean (d := .left) ht hge
  · left
    obtain ⟨t₁, hu, hcall⟩ := settle_cases narrow fuel n (max (level t.heap x) (level t.heap y))
      (t.heap.hintAt n) (parentOf none c) ht rfl
      fun hh => Int.le_trans (level_nonneg hh x) (Int.le_max_left _ _)
    exact ⟨t₁, _, hu, by rwa [stUpdate_level ht hle hge]⟩

theorem Updated.trans {t₁ t₂ : Tree A K} {l : List A} {T T' : BinaryTree A}
    (h₁ : Updated narrow t t₁ l T) (h₂ : Updated narrow t₁ t₂ (inorder T) T') :
    Updated narrow t t₂ l T' :=
  ⟨h₂.holds, h₂.order.trans h₁.order, h₂.keys.trans h₁.keys,
    fun hnarrow hh => h₂.nonNeg hnarrow (h₁.nonNeg hnarrow hh)⟩

/-- The update phase climbs from a subtree to the root. It keeps the order of the nodes, and it
fails only for want of fuel or on a negative hint. -/
theorem stUpdate_run (narrow : ℤ → ℤ) (c : Ctx A) (fuel : ℕ) {t : Tree A K} {s : BinaryTree A}
    (ht : Holds t (plug c s)) :
    (∃ t' T, stUpdate narrow fuel t (top s) = some t' ∧
      Updated narrow t t' (inorder (plug c s)) T) ∨
    (stUpdate narrow fuel t (top s) = none ∧
      (fuel < c.length + 2 ∨ ¬ ((∀ z, 0 ≤ z → 0 ≤ narrow z) ∧ t.heap.NonNeg))) := by
  induction c generalizing fuel t s with
  | nil =>
    cases fuel with
    | zero => exact Or.inr ⟨rfl, Or.inl (by simp)⟩
    | succ fuel =>
      cases s with
      | nil => exact Or.inl ⟨t, _, rfl, ht, rfl, rfl, fun _ hh => hh⟩
      | node n x y =>
        rcases stUpdate_turn narrow fuel (c := []) ht with ⟨t₁, s₁, hu, e | e⟩ | ⟨e, hneg⟩
        · exact Or.inl ⟨t₁, _, e, hu⟩
        · cases fuel with
          | zero => exact Or.inr ⟨e, Or.inl (by simp)⟩
          | succ fuel => exact Or.inl ⟨t₁, _, e, hu⟩
        · exact Or.inr ⟨e, Or.inr fun h => hneg h.2⟩
  | cons f c ih =>
    cases fuel with
    | zero => exact Or.inr ⟨rfl, Or.inl (by simp)⟩
    | succ fuel =>
      cases s with
      | nil => exact Or.inl ⟨t, _, rfl, ht, rfl, rfl, fun _ hh => hh⟩
      | node n x y =>
        rcases stUpdate_turn narrow fuel ht with ⟨t₁, s₁, hu, e | e⟩ | ⟨e, hneg⟩
        · exact Or.inl ⟨t₁, _, e, hu⟩
        · have hjoin : Holds t₁ (plug c (join f.dir f.addr s₁ f.sib)) := hu.holds
          have htop : parentOf none (f :: c) = top (join f.dir f.addr s₁ f.sib) := top_join.symm
          rw [top_node, e, htop]
          rcases ih fuel hjoin with ⟨t₂, T, e₂, hu₂⟩ | ⟨e₂, hfail⟩
          · exact Or.inl ⟨t₂, T, e₂, hu.trans hu₂⟩
          · refine Or.inr ⟨e₂, ?_⟩
            rcases hfail with hfuel | hneg
            · exact Or.inl (by simp only [List.length_cons]; omega)
            · exact Or.inr fun h => hneg ⟨h.1, hu.nonNeg h.1 h.2⟩
        · exact Or.inr ⟨e, Or.inr fun h => hneg h.2⟩

end LinuxSummer.STree
