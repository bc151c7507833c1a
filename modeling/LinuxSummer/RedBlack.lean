import Mathlib.Algebra.Order.Group.Nat
import Mathlib.Data.Nat.Log
import LinuxSummer.LinkedTree

/-! Red-black trees whose nodes have their colors in a heap: balanced trees, balanced
surroundings of a subtree, and how deep such a tree is. -/
namespace LinuxSummer

inductive Color where
  | red
  | black
deriving DecidableEq

namespace RedBlack
open BinaryTree LinkedTree

variable {A : Type*}

/-- No red node has a red child, and every path from the root down has `n` black nodes. The root
has the color `x`, and NULL counts as black. -/
inductive Balanced (col : A → Option Color) : BinaryTree A → Color → ℕ → Prop
  | nil : Balanced col .nil .black 0
  | red {a : A} {l r : BinaryTree A} {n : ℕ} (ha : col a = some .red)
      (hl : Balanced col l .black n) (hr : Balanced col r .black n) :
      Balanced col (.node a l r) .red n
  | black {a : A} {l r : BinaryTree A} {x y : Color} {n : ℕ} (ha : col a = some .black)
      (hl : Balanced col l x n) (hr : Balanced col r y n) :
      Balanced col (.node a l r) .black (n + 1)

/-- The surroundings lack a subtree whose paths have `n` black nodes. With `p` black its root must
be black, since the node above is red or there is none. -/
inductive Around (col : A → Option Color) : Ctx A → Color → ℕ → Prop
  | root {n : ℕ} : Around col [] .black n
  | red {f : Frame A} {c : Ctx A} {n : ℕ} (hf : col f.addr = some .red)
      (hs : Balanced col f.sib .black n) (hc : Around col c .red n) : Around col (f :: c) .black n
  | black {f : Frame A} {c : Ctx A} {p y : Color} {n : ℕ} (hf : col f.addr = some .black)
      (hs : Balanced col f.sib y n) (hc : Around col c p (n + 1)) : Around col (f :: c) .red n

variable {col col' : A → Option Color} {a b : A} {d : Side} {t s l r : BinaryTree A}
  {c c' : Ctx A} {f : Frame A} {x y p q : Color} {n m : ℕ}

/-- A subtree with a root of color `x` may stand where `p` is asked for. -/
def Fits (x p : Color) : Prop := x = .black ∨ p = .red

theorem fits_black (p : Color) : Fits .black p := Or.inl rfl
theorem fits_red (x : Color) : Fits x .red := Or.inr rfl

/-- The color of the root of a balanced tree. -/
theorem Balanced.top_color (h : Balanced col t x n) (ha : top t = some a) : col a = some x := by
  cases h with
  | nil => cases ha
  | red hb => exact Option.some.inj ha ▸ hb
  | black hb => exact Option.some.inj ha ▸ hb

theorem Balanced.join_red (ha : col a = some .red) (ht : Balanced col t .black n)
    (hs : Balanced col s .black n) : Balanced col (join d a t s) .red n := by
  cases d with
  | left => exact .red ha ht hs
  | right => exact .red ha hs ht

theorem Balanced.join_black (ha : col a = some .black) (ht : Balanced col t x n)
    (hs : Balanced col s y n) : Balanced col (join d a t s) .black (n + 1) := by
  cases d with
  | left => exact .black ha ht hs
  | right => exact .black ha hs ht

/-- What a balanced tree says of its root and its subtrees. -/
theorem Balanced.of_join (h : Balanced col (join d a t s) x n) :
    (x = .red ∧ col a = some .red ∧ Balanced col t .black n ∧ Balanced col s .black n) ∨
      ∃ m y z, x = .black ∧ n = m + 1 ∧ col a = some .black ∧ Balanced col t y m ∧
        Balanced col s z m := by
  cases d with
  | left =>
    cases h with
    | red ha hl hr => exact Or.inl ⟨rfl, ha, hl, hr⟩
    | black ha hl hr => exact Or.inr ⟨_, _, _, rfl, rfl, ha, hl, hr⟩
  | right =>
    cases h with
    | red ha hl hr => exact Or.inl ⟨rfl, ha, hr, hl⟩
    | black ha hl hr => exact Or.inr ⟨_, _, _, rfl, rfl, ha, hr, hl⟩

theorem Balanced.of_join_red (h : Balanced col (join d a t s) .red n) :
    col a = some .red ∧ Balanced col t .black n ∧ Balanced col s .black n := by
  rcases h.of_join with ⟨-, h⟩ | ⟨m, y, z, hx, -⟩
  · exact h
  · cases hx

theorem Balanced.of_join_black (h : Balanced col (join d a t s) .black n) :
    ∃ m y z, n = m + 1 ∧ col a = some .black ∧ Balanced col t y m ∧ Balanced col s z m := by
  rcases h.of_join with ⟨hx, -⟩ | ⟨m, y, z, -, h⟩
  · cases hx
  · exact ⟨m, y, z, h⟩

/-- A tree whose paths have a black node, or whose root is red, has a root. -/
theorem Balanced.exists_join (d : Side) (h : Balanced col t x n) (hn : x = .red ∨ 0 < n) :
    ∃ a l r, t = join d a l r := by
  cases t with
  | nil =>
    cases h
    rcases hn with hn | hn
    · cases hn
    · exact absurd hn (Nat.lt_irrefl 0)
  | node a l r =>
    cases d with
    | left => exact ⟨a, l, r, rfl⟩
    | right => exact ⟨a, r, l, rfl⟩

/-- Frame rule: balance only depends on the colors of the tree's nodes. -/
theorem Balanced.congr (h : Balanced col t x n) (hcol : ∀ a ∈ inorder t, col' a = col a) :
    Balanced col' t x n := by
  induction h with
  | nil => exact .nil
  | red ha hl hr ihl ihr =>
    simp only [inorder_node, List.mem_append, List.mem_cons] at hcol
    apply Balanced.red
    · exact (hcol _ (by simp)).trans ha
    · exact ihl fun u hu => hcol u (Or.inl hu)
    · exact ihr fun u hu => hcol u (Or.inr (Or.inr hu))
  | black ha hl hr ihl ihr =>
    simp only [inorder_node, List.mem_append, List.mem_cons] at hcol
    apply Balanced.black
    · exact (hcol _ (by simp)).trans ha
    · exact ihl fun u hu => hcol u (Or.inl hu)
    · exact ihr fun u hu => hcol u (Or.inr (Or.inr hu))

/-- The same for surroundings. -/
theorem Around.congr (h : Around col c p n) (hcol : ∀ a ∈ addrs c, col' a = col a) :
    Around col' c p n := by
  induction h with
  | root => exact .root
  | red hf hs hc ih =>
    simp only [addrs, List.mem_append, List.mem_cons] at hcol
    apply Around.red
    · exact (hcol _ (by simp)).trans hf
    · exact hs.congr fun u hu => hcol u (Or.inl (Or.inr hu))
    · exact ih fun u hu => hcol u (Or.inr hu)
  | black hf hs hc ih =>
    simp only [addrs, List.mem_append, List.mem_cons] at hcol
    apply Around.black
    · exact (hcol _ (by simp)).trans hf
    · exact hs.congr fun u hu => hcol u (Or.inl (Or.inr hu))
    · exact ih fun u hu => hcol u (Or.inr hu)

/-- Painting a red root black adds a black node to every path. -/
theorem Balanced.blacken (h : Balanced col t .red n) (hnd : (inorder t).Nodup)
    (htop : ∀ a, top t = some a → col' a = some .black)
    (hother : ∀ a ∈ inorder t, top t ≠ some a → col' a = col a) :
    Balanced col' t .black (n + 1) := by
  cases h with
  | red ha hl hr =>
    rename_i a l r
    have hkeep : ∀ u, u ∈ inorder l ∨ u ∈ inorder r → col' u = col u := by
      intro u hu
      apply hother u
      · rw [inorder_node, List.mem_append, List.mem_cons]
        tauto
      · rintro ⟨⟩
        exact (List.nodup_cons.mp (List.nodup_middle.mp hnd)).1 (List.mem_append.mpr hu)
    apply Balanced.black
    · exact htop a rfl
    · exact hl.congr fun u hu => hkeep u (Or.inl hu)
    · exact hr.congr fun u hu => hkeep u (Or.inr hu)

/-- A subtree that fits its surroundings makes a balanced tree with a black root. -/
theorem Around.plug (h : Around col c p n) (ht : Balanced col t x n) (hfit : Fits x p) :
    ∃ m, Balanced col (plug c t) .black m := by
  induction h generalizing t x with
  | root =>
    rcases hfit with rfl | hfit
    · exact ⟨_, ht⟩
    · cases hfit
  | red hf hs hc ih =>
    rcases hfit with rfl | hfit
    · exact ih (.join_red hf ht hs) (fits_red _)
    · cases hfit
  | black hf hs hc ih => exact ih (.join_black hf ht hs) (fits_black _)

/-- A balanced tree is a balanced subtree in balanced surroundings. -/
theorem Balanced.unplug (h : Balanced col (LinkedTree.plug c t) .black m) :
    ∃ x p n, Balanced col t x n ∧ Around col c p n ∧ Fits x p := by
  induction c generalizing t with
  | nil => exact ⟨.black, .black, m, h, .root, fits_black _⟩
  | cons f c ih =>
    obtain ⟨x, p, n, hj, hc, hfit⟩ := ih h
    rcases hj.of_join with ⟨rfl, hf, ht, hs⟩ | ⟨k, y, z, rfl, rfl, hf, ht, hs⟩
    · rcases hfit with hfit | rfl
      · cases hfit
      · exact ⟨.black, .black, n, ht, .red hf hs hc, fits_black _⟩
    · exact ⟨y, .red, k, ht, .black hf hs hc, fits_red y⟩

/-- The black nodes on a path that goes through a node of the color `x` first. -/
def levels (x : Color) (n : ℕ) : ℕ := if x = .black then n + 1 else n

theorem Balanced.join_any (ha : col a = some x) (ht : Balanced col t .black n)
    (hs : Balanced col s .black n) : Balanced col (join d a t s) x (levels x n) := by
  cases x with
  | red => exact .join_red ha ht hs
  | black => exact .join_black ha ht hs

/-- What balanced surroundings say of the node above the subtree. -/
theorem Around.of_cons (h : Around col (f :: c) p n) :
    ∃ x y q, col f.addr = some x ∧ Balanced col f.sib y n ∧ Fits y (if x = .red then .black else .red) ∧
      Around col c q (levels x n) ∧ Fits x q := by
  cases h with
  | red hf hs hc => exact ⟨.red, .black, .red, hf, hs, fits_black _, hc, fits_red _⟩
  | black hf hs hc => exact ⟨.black, _, _, hf, hs, fits_red _, hc, fits_black _⟩

/-- Another node may take the place and the color of one of the nodes around a subtree. -/
theorem Around.replace (h : Around col (c ++ f :: c') p n)
    (hf : col' b = col f.addr) (hc : ∀ a ∈ addrs c, col' a = col a)
    (hs : ∀ a ∈ inorder f.sib, col' a = col a) (hc' : ∀ a ∈ addrs c', col' a = col a) :
    Around col' (c ++ ⟨f.dir, b, f.sib⟩ :: c') p n := by
  induction c generalizing p n with
  | nil =>
    cases h with
    | red hfc hsb hca => exact .red (hf.trans hfc) (hsb.congr hs) (hca.congr hc')
    | black hfc hsb hca => exact .black (hf.trans hfc) (hsb.congr hs) (hca.congr hc')
  | cons g c ih =>
    simp only [addrs, List.mem_append, List.mem_cons] at hc
    have hg : col' g.addr = col g.addr := hc _ (by simp)
    have hgs : ∀ a ∈ inorder g.sib, col' a = col a := fun a ha => hc a (Or.inl (Or.inr ha))
    have hgc : ∀ a ∈ addrs c, col' a = col a := fun a ha => hc a (Or.inr ha)
    cases h with
    | red hfc hsb hca => exact .red (hg.trans hfc) (hsb.congr hgs) (ih hca hgc)
    | black hfc hsb hca => exact .black (hg.trans hfc) (hsb.congr hgs) (ih hca hgc)

/-! ### Depth -/

/-- Red nodes at most double the length of a path. -/
theorem Balanced.height_le (h : Balanced col t x n) :
    t.height ≤ 2 * n + if x = .red then 1 else 0 := by
  induction h with
  | nil => exact Nat.zero_le _
  | red ha hl hr ihl ihr =>
    simp only [reduceCtorEq, if_false, if_true, height] at ihl ihr ⊢
    omega
  | black ha hl hr ihl ihr =>
    simp only [reduceCtorEq, if_false, height]
    split at ihl <;> split at ihr <;> omega

theorem Balanced.two_pow_le (h : Balanced col t x n) : 2 ^ n ≤ t.numNodes + 1 := by
  induction h with
  | nil => exact Nat.le_refl 1
  | red ha hl hr ihl ihr =>
    simp only [numNodes]
    omega
  | black ha hl hr ihl ihr =>
    simp only [numNodes, pow_succ]
    omega

/-- A balanced tree with a black root is at most twice as deep as a perfect one of its size. -/
theorem Balanced.height_le_log (h : Balanced col t .black n) :
    t.height ≤ 2 * Nat.log 2 (t.numNodes + 1) := by
  have hlog : n ≤ Nat.log 2 (t.numNodes + 1) := Nat.le_log_of_pow_le (by omega) h.two_pow_le
  have hheight := h.height_le
  simp only [reduceCtorEq, if_false] at hheight
  omega

/-- A path down is no longer than the tree is high. -/
theorem length_le_height (c : Ctx A) (t : BinaryTree A) :
    c.length + t.height ≤ (LinkedTree.plug c t).height := by
  induction c generalizing t with
  | nil => exact Nat.le_of_eq (Nat.zero_add _)
  | cons f c ih =>
    obtain ⟨d, a, s⟩ := f
    have hjoin : t.height + 1 ≤ (join d a t s).height := by
      cases d <;> simp only [join, height] <;> omega
    calc (⟨d, a, s⟩ :: c : Ctx A).length + t.height
        = c.length + (t.height + 1) := by rw [List.length_cons]; omega
      _ ≤ c.length + (join d a t s).height := Nat.add_le_add_left hjoin _
      _ ≤ (LinkedTree.plug (⟨d, a, s⟩ :: c) t).height := ih _

end RedBlack
end LinuxSummer
