import Mathlib.Data.Tree.Basic
import Mathlib.Data.List.Nodup
import Mathlib.Data.List.Perm.Basic

/-! Binary trees linked by child and parent pointers in a heap: when a heap holds a given
tree, what is left of it around a subtree, and how it changes under pointer writes. -/
namespace LinuxSummer

inductive Side where
  | left
  | right
deriving DecidableEq

def Side.flip : Side → Side
  | .left => .right
  | .right => .left

@[simp] theorem Side.flip_flip (d : Side) : d.flip.flip = d := by cases d <;> rfl

/-- The pointers of a node. `none` is the NULL pointer. -/
structure Links (A : Type*) where
  parent : Option A
  left : Option A
  right : Option A
deriving DecidableEq

namespace Links
variable {A : Type*}

def child : Side → Links A → Option A
  | .left, k => k.left
  | .right, k => k.right

def setChild : Side → Links A → Option A → Links A
  | .left, k, x => { k with left := x }
  | .right, k, x => { k with right := x }

/-- A node whose child on side `d` is `x` and whose other child is `y`. -/
def of : Side → Option A → Option A → Option A → Links A
  | .left, p, x, y => ⟨p, x, y⟩
  | .right, p, x, y => ⟨p, y, x⟩

variable (d : Side) (p x y z : Option A)

@[simp] theorem parent_of : (of d p x y).parent = p := by cases d <;> rfl
@[simp] theorem child_of : (of d p x y).child d = x := by cases d <;> rfl
@[simp] theorem child_flip_of : (of d p x y).child d.flip = y := by cases d <;> rfl
@[simp] theorem setChild_of : (of d p x y).setChild d z = of d p z y := by cases d <;> rfl
@[simp] theorem setChild_flip_of : (of d p x y).setChild d.flip z = of d p x z := by
  cases d <;> rfl
@[simp] theorem setParent_of : { of d p x y with parent := z } = of d z x y := by
  cases d <;> rfl
theorem of_flip : of d.flip p x y = of d p y x := by cases d <;> rfl

end Links

namespace LinkedTree
open BinaryTree
open scoped List
variable {A : Type*}

/-- The pointer to the root of a tree. -/
def top : BinaryTree A → Option A
  | .nil => none
  | .node a _ _ => some a

def inorder : BinaryTree A → List A
  | .nil => []
  | .node a l r => inorder l ++ a :: inorder r

/-- The tree with root `a` whose subtree on side `d` is `t` and whose other one is `s`. -/
def join : Side → A → BinaryTree A → BinaryTree A → BinaryTree A
  | .left, a, t, s => .node a t s
  | .right, a, t, s => .node a s t

/-- One step up from a subtree: it hangs on side `dir` of `addr`, beside `sib`. -/
structure Frame (A : Type*) where
  dir : Side
  addr : A
  sib : BinaryTree A

/-- The surroundings of a subtree, from the subtree upwards. -/
abbrev Ctx (A : Type*) := List (Frame A)

def plug : Ctx A → BinaryTree A → BinaryTree A
  | [], t => t
  | f :: c, t => plug c (join f.dir f.addr t f.sib)

/-- The parent of a subtree: the innermost node around it, or `par` when it is outermost. -/
def parentOf (par : Option A) : Ctx A → Option A
  | [] => par
  | f :: _ => some f.addr

/-- The side of its parent on which a subtree hangs. -/
def sideOf (d : Option Side) : Ctx A → Option Side
  | [] => d
  | f :: _ => some f.dir

def before : Ctx A → List A
  | [] => []
  | ⟨.left, _, _⟩ :: c => before c
  | ⟨.right, a, s⟩ :: c => before c ++ inorder s ++ [a]

def after : Ctx A → List A
  | [] => []
  | ⟨.left, a, s⟩ :: c => a :: inorder s ++ after c
  | ⟨.right, _, _⟩ :: c => after c

/-- The nodes around a subtree. -/
def addrs : Ctx A → List A
  | [] => []
  | f :: c => f.addr :: inorder f.sib ++ addrs c

attribute [local simp] plug before after

variable {L L' : A → Option (Links A)} {par x : Option A} {a b : A} {d : Side}
  {c c' : Ctx A} {t t' s : BinaryTree A}

@[simp] theorem top_join : top (join d a t s) = some a := by cases d <;> rfl
@[simp] theorem parentOf_cons (f : Frame A) : parentOf par (f :: c) = some f.addr := rfl
@[simp] theorem top_node : top (.node a t s) = some a := rfl
@[simp] theorem top_nil : top (.nil : BinaryTree A) = none := rfl
@[simp] theorem inorder_nil : inorder (.nil : BinaryTree A) = [] := rfl
@[simp] theorem inorder_node : inorder (.node a t s) = inorder t ++ a :: inorder s := rfl

theorem join_ne_nil : join d a t s ≠ .nil := by cases d <;> simp [join]

theorem inorder_join_perm : (inorder (join d a t s)).Perm (a :: inorder t ++ inorder s) := by
  cases d with
  | left => exact List.perm_middle
  | right => exact List.perm_middle.trans (List.Perm.cons a List.perm_append_comm)

theorem plug_append (c c' : Ctx A) (t : BinaryTree A) : plug (c ++ c') t = plug c' (plug c t) := by
  induction c generalizing t with
  | nil => rfl
  | cons f c ih => exact ih _

theorem inorder_plug (c : Ctx A) (t : BinaryTree A) :
    inorder (plug c t) = before c ++ inorder t ++ after c := by
  induction c generalizing t with
  | nil => simp
  | cons f c ih =>
    obtain ⟨d, a, s⟩ := f
    cases d <;> simp [ih, join]

theorem addrs_perm (c : Ctx A) : (addrs c).Perm (before c ++ after c) := by
  induction c with
  | nil => exact List.Perm.refl _
  | cons f c ih =>
    obtain ⟨d, a, s⟩ := f
    refine (ih.append_left (a :: inorder s)).trans ?_
    cases d with
    | left =>
      simp only [before, after]
      exact List.perm_append_comm_assoc _ _ _
    | right =>
      simp only [before, after, List.append_assoc, List.cons_append]
      calc a :: (inorder s ++ (before c ++ after c))
          ~ a :: (before c ++ (inorder s ++ after c)) :=
            (List.perm_append_comm_assoc _ _ _).cons a
        _ ~ before c ++ a :: (inorder s ++ after c) := List.perm_middle.symm
        _ ~ before c ++ (inorder s ++ a :: after c) := List.perm_middle.symm.append_left _

theorem inorder_plug_perm (c : Ctx A) (t : BinaryTree A) :
    (inorder (plug c t)).Perm (addrs c ++ inorder t) := by
  rw [inorder_plug]
  calc before c ++ inorder t ++ after c
      ~ before c ++ after c ++ inorder t := by
        simpa only [List.append_assoc] using List.perm_append_comm.append_left (before c)
    _ ~ addrs c ++ inorder t := (addrs_perm c).symm.append_right _

theorem nodup_plug : (inorder (plug c t)).Nodup ↔ (addrs c ++ inorder t).Nodup :=
  (inorder_plug_perm c t).nodup_iff

theorem nodup_join : (inorder (join d a t s)).Nodup ↔ (a :: inorder t ++ inorder s).Nodup :=
  inorder_join_perm.nodup_iff

theorem mem_join {u : A} :
    u ∈ inorder (join d a t s) ↔ u = a ∨ u ∈ inorder t ∨ u ∈ inorder s := by
  rw [inorder_join_perm.mem_iff]
  simp only [List.cons_append, List.mem_cons, List.mem_append]

theorem mem_plug {u : A} : u ∈ inorder (plug c t) ↔ u ∈ addrs c ∨ u ∈ inorder t := by
  rw [(inorder_plug_perm c t).mem_iff, List.mem_append]

theorem top_mem (h : top t = some a) : a ∈ inorder t := by
  cases t with
  | nil => cases h
  | node b l r =>
    cases Option.some.inj h
    simp only [inorder_node, List.mem_append, List.mem_cons, true_or, or_true]

/-- Below the top the root of the whole tree does not depend on the subtree. -/
theorem top_plug (hc : c ≠ []) (t t' : BinaryTree A) : top (plug c t) = top (plug c t') := by
  induction c generalizing t t' with
  | nil => exact absurd rfl hc
  | cons f c ih =>
    cases c with
    | nil => simp only [plug, top_join]
    | cons g c => exact ih (List.cons_ne_nil g c) _ _

theorem top_plug_isSome (hc : c ≠ []) (t : BinaryTree A) : (top (plug c t)).isSome := by
  induction c generalizing t with
  | nil => exact absurd rfl hc
  | cons f c ih =>
    cases c with
    | nil => simp only [plug, top_join, Option.isSome_some]
    | cons g c => exact ih (List.cons_ne_nil g c) _

/-- The root of the whole tree is a node of the surroundings when there are any. -/
theorem top_plug_mem (hc : c ≠ []) (h : top (plug c t) = some a) : a ∈ addrs c := by
  rw [top_plug hc t .nil] at h
  simpa only [inorder_nil, mem_plug, List.not_mem_nil, or_false] using top_mem h

theorem parentOf_mem (h : parentOf par c = some a) : par = some a ∨ a ∈ addrs c := by
  cases c with
  | nil => exact Or.inl h
  | cons f c => exact Or.inr (List.mem_cons.mpr (Or.inl (Option.some.inj h).symm))

/-- The heap `L` holds the tree `t`, whose root has the parent pointer `par`. -/
def Rep (L : A → Option (Links A)) : Option A → BinaryTree A → Prop
  | _, .nil => True
  | par, .node a l r => L a = some ⟨par, top l, top r⟩ ∧ Rep L (some a) l ∧ Rep L (some a) r

/-- The heap `L` holds the surroundings `c` of a subtree with root pointer `x`. -/
def RepCtx (L : A → Option (Links A)) (par : Option A) : Ctx A → Option A → Prop
  | [], _ => True
  | f :: c, x => L f.addr = some (.of f.dir (parentOf par c) x (top f.sib)) ∧
      Rep L (some f.addr) f.sib ∧ RepCtx L par c (some f.addr)

theorem rep_join : Rep L par (join d a t s) ↔
    L a = some (.of d par (top t) (top s)) ∧ Rep L (some a) t ∧ Rep L (some a) s := by
  cases d with
  | left => exact Iff.rfl
  | right => exact and_congr_right fun _ => and_comm

/-- A heap holds a tree if and only if it holds a subtree and its surroundings. -/
theorem rep_plug : Rep L par (plug c t) ↔ RepCtx L par c (top t) ∧ Rep L (parentOf par c) t := by
  induction c generalizing t with
  | nil => simp only [plug, RepCtx, parentOf, true_and]
  | cons f c ih =>
    simp only [plug, ih, top_join, rep_join, RepCtx, parentOf]
    tauto

theorem rep_live (h : Rep L par t) (ha : a ∈ inorder t) : ∃ k, L a = some k := by
  induction t generalizing par with
  | nil => cases ha
  | node b l r ihl ihr =>
    obtain ⟨hb, hl, hr⟩ := h
    rcases List.mem_append.mp ha with ha | ha
    · exact ihl hl ha
    · rcases List.mem_cons.mp ha with rfl | ha
      · exact ⟨_, hb⟩
      · exact ihr hr ha

/-- Frame rule: a tree does not see writes to other nodes. -/
theorem rep_frame (h : Rep L par t) (hL : ∀ a ∈ inorder t, L' a = L a) : Rep L' par t := by
  induction t generalizing par with
  | nil => trivial
  | node a l r ihl ihr =>
    obtain ⟨ha, hl, hr⟩ := h
    simp only [inorder_node, List.mem_append, List.mem_cons] at hL
    exact ⟨(hL a (by simp)).trans ha, ihl hl fun u hu => hL u (by simp [hu]),
      ihr hr fun u hu => hL u (by simp [hu])⟩

/-- Frame rule for the surroundings of a subtree. -/
theorem repCtx_frame (h : RepCtx L par c x) (hL : ∀ a ∈ addrs c, L' a = L a) :
    RepCtx L' par c x := by
  induction c generalizing x with
  | nil => trivial
  | cons f c ih =>
    obtain ⟨ha, hs, hc⟩ := h
    simp only [addrs, List.mem_append, List.mem_cons] at hL
    exact ⟨(hL _ (by simp)).trans ha, rep_frame hs fun u hu => hL u (by simp [hu]),
      ih hc fun u hu => hL u (by simp [hu])⟩

/-- Writing the parent pointer of its root gives a tree another parent. -/
theorem rep_reparent {q : Option A} (h : Rep L par t) (hnd : (inorder t).Nodup)
    (hroot : ∀ a k, top t = some a → L a = some k → L' a = some { k with parent := q })
    (hL : ∀ a ∈ inorder t, top t ≠ some a → L' a = L a) : Rep L' q t := by
  cases t with
  | nil => trivial
  | node a l r =>
    obtain ⟨ha, hl, hr⟩ := h
    simp only [inorder_node] at hnd hL
    have hne : ∀ u ∈ inorder l ++ inorder r, some a ≠ some u := by
      rintro u hu ⟨⟩
      exact (List.nodup_cons.mp (List.nodup_middle.mp hnd)).1 hu
    refine ⟨hroot a _ rfl ha, rep_frame hl fun u hu => ?_, rep_frame hr fun u hu => ?_⟩
    · exact hL u (by simp [hu]) (hne u (by simp [hu]))
    · exact hL u (by simp [hu]) (hne u (by simp [hu]))

theorem parentOf_append (par : Option A) (c c' : Ctx A) :
    parentOf par (c ++ c') = parentOf (parentOf par c') c := by
  cases c with
  | nil => rfl
  | cons f c => rfl

/-- The same for the outermost node around a subtree. -/
theorem repCtx_reparent {q : Option A} (h : RepCtx L par c x) (hnd : (addrs c).Nodup)
    (hroot : ∀ a k, top (plug c .nil) = some a → L a = some k → L' a = some { k with parent := q })
    (hL : ∀ a ∈ addrs c, top (plug c .nil) ≠ some a → L' a = L a) : RepCtx L' q c x := by
  induction c generalizing x with
  | nil => trivial
  | cons f c ih =>
    obtain ⟨hf, hs, hc⟩ := h
    simp only [addrs, List.cons_append, List.nodup_cons, List.nodup_append, List.mem_append,
      not_or] at hnd
    obtain ⟨⟨hfs, hfc⟩, -, hndc, hdisj⟩ := hnd
    simp only [addrs, List.mem_append, List.mem_cons] at hL
    cases c with
    | nil =>
      simp only [plug, top_join, Option.some_inj] at hroot hL
      refine ⟨?_, rep_frame hs fun u hu => hL u (Or.inl (Or.inr hu)) ?_, trivial⟩
      · rw [hroot _ _ rfl hf, Links.setParent_of]
        rfl
      · rintro ⟨⟩
        exact hfs hu
    | cons g c =>
      have htop : top (plug (f :: g :: c) .nil) = top (plug (g :: c) .nil) :=
        top_plug (List.cons_ne_nil g c) _ _
      have hin : ∀ a, top (plug (g :: c) .nil) = some a → a ∈ addrs (g :: c) :=
        fun a ha => top_plug_mem (List.cons_ne_nil g c) ha
      rw [htop] at hroot hL
      refine ⟨?_, rep_frame hs fun u hu => hL u (Or.inl (Or.inr hu)) ?_, ?_⟩
      · exact (hL f.addr (Or.inl (Or.inl rfl)) fun h => hfc (hin _ h)).trans hf
      · exact fun h => hdisj u hu u (hin u h) rfl
      · exact ih hc hndc hroot fun a ha => hL a (Or.inr ha)

/-- Writing a child pointer of the parent puts another root in the place of a subtree. -/
theorem repCtx_rewire {y : Option A} {f : Frame A} (h : RepCtx L par (f :: c) x)
    (hnd : (addrs (f :: c)).Nodup)
    (hL : L' f.addr = some (.of f.dir (parentOf par c) y (top f.sib)))
    (hother : ∀ a, a ≠ f.addr → L' a = L a) : RepCtx L' par (f :: c) y := by
  obtain ⟨-, hs, hc⟩ := h
  simp only [addrs, List.cons_append, List.nodup_cons, List.mem_append] at hnd
  refine ⟨hL, rep_frame hs fun u hu => hother u ?_, repCtx_frame hc fun u hu => hother u ?_⟩
  · rintro rfl
    exact hnd.1 (Or.inl hu)
  · rintro rfl
    exact hnd.1 (Or.inr hu)

/-- Every node of a represented tree but its root is the child its parent pointer names. -/
theorem rep_parent {k : Links A} {u : A} (h : Rep L par t) (ha : a ∈ inorder t)
    (hk : L a = some k) (hu : k.child d = some u) :
    ∃ k', u ∈ inorder t ∧ L u = some k' ∧ k'.parent = some a := by
  have htop : ∀ {l : BinaryTree A}, Rep L (some a) l → top l = some u →
      ∃ k', u ∈ inorder l ∧ L u = some k' ∧ k'.parent = some a := by
    intro l hl htop
    cases l with
    | nil => cases htop
    | node b l r =>
      cases Option.some.inj htop
      exact ⟨_, top_mem rfl, hl.1, rfl⟩
  induction t generalizing par with
  | nil => cases ha
  | node b l r ihl ihr =>
    obtain ⟨hb, hl, hr⟩ := h
    simp only [inorder_node, List.mem_append, List.mem_cons] at ha ⊢
    rcases ha with ha | rfl | ha
    · obtain ⟨k', hm, hk'⟩ := ihl hl ha
      exact ⟨k', Or.inl hm, hk'⟩
    · cases Option.some.inj (hb.symm.trans hk)
      cases d with
      | left =>
        obtain ⟨k', hm, hk'⟩ := htop hl hu
        exact ⟨k', Or.inl hm, hk'⟩
      | right =>
        obtain ⟨k', hm, hk'⟩ := htop hr hu
        exact ⟨k', Or.inr (Or.inr hm), hk'⟩
    · obtain ⟨k', hm, hk'⟩ := ihr hr ha
      exact ⟨k', Or.inr (Or.inr hm), hk'⟩

/-- The way down side `d` from the root of a tree to the node without a child there. -/
theorem exists_end (d : Side) (t : BinaryTree A) (ht : t ≠ .nil) :
    ∃ c a s, t = plug c (join d a .nil s) ∧ ∀ f ∈ c, f.dir = d := by
  suffices h : ∀ (t : BinaryTree A) (c : Ctx A), t ≠ .nil → (∀ f ∈ c, f.dir = d) →
      ∃ c' a s, plug c t = plug c' (join d a .nil s) ∧ ∀ f ∈ c', f.dir = d by
    exact h t [] ht (by simp)
  intro t
  induction t with
  | nil => exact fun _ h => absurd rfl h
  | node a l r ihl ihr =>
    intro c _ hc
    have hcons : ∀ s, ∀ f ∈ (⟨d, a, s⟩ :: c : Ctx A), f.dir = d := by
      intro s f hf
      rcases List.mem_cons.mp hf with rfl | hf
      · rfl
      · exact hc f hf
    cases d with
    | left =>
      by_cases hl : l = .nil
      · exact ⟨c, a, r, by rw [hl, join], hc⟩
      · exact ihl (⟨.left, a, r⟩ :: c) hl (hcons r)
    | right =>
      by_cases hr : r = .nil
      · exact ⟨c, a, l, by rw [hr, join], hc⟩
      · exact ihr (⟨.right, a, l⟩ :: c) hr (hcons l)

theorem before_left (h : ∀ f ∈ c, f.dir = .left) : before c = [] := by
  induction c with
  | nil => rfl
  | cons f c ih =>
    obtain ⟨d, a, s⟩ := f
    cases h _ (List.mem_cons_self ..)
    exact ih fun f hf => h f (List.mem_cons_of_mem _ hf)

theorem after_right (h : ∀ f ∈ c, f.dir = .right) : after c = [] := by
  induction c with
  | nil => rfl
  | cons f c ih =>
    obtain ⟨d, a, s⟩ := f
    cases h _ (List.mem_cons_self ..)
    exact ih fun f hf => h f (List.mem_cons_of_mem _ hf)

end LinkedTree
end LinuxSummer
