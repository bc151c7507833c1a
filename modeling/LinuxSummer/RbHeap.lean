import LinuxSummer.RbModel

/-! What the pointer writes of the red-black tree do to the tree that the heap holds, and to the
colors of its nodes. -/
set_option linter.unusedSectionVars false

namespace LinuxSummer.Rbtree
open BinaryTree LinkedTree RedBlack
open scoped List

variable {A : Type} [DecidableEq A]

namespace Heap

/-- The pointers of the allocated nodes. -/
def links (h : Heap A) (a : A) : Option (Links A) := (h a).map Node.toLinks

def colors (h : Heap A) (a : A) : Option Color := (h a).map (·.color)

def values (h : Heap A) (a : A) : Option ℤ := (h a).map (·.value)

/-- The heap after a write to the pointers and the color of `a`. -/
def write (h : Heap A) (a : A) (f : Links A → Links A) (g : Color → Color) : Heap A :=
  Function.update h a
    ((h a).map fun n => { n with toLinks := f n.toLinks, color := g n.color })

variable {h : Heap A} {a b : A} {d : Side} {p x : Option A} {y : Color}

@[simp] theorem child_some : h.child d (some a) = (h.links a).map (·.child d) := by
  simp [child, links, Function.comp_def]

@[simp] theorem parent_some : h.parent (some a) = (h.links a).map (·.parent) := by
  simp [parent, links, Function.comp_def]

@[simp] theorem color_some : h.color (some a) = h.colors a := rfl

@[simp] theorem value_some : h.value (some a) = h.values a := rfl

@[simp] theorem setChild_some :
    h.setChild d (some a) x = (h.links a).map fun _ => h.write a (·.setChild d x) id := by
  cases ha : h a <;> simp [setChild, modify, links, write, ha]

@[simp] theorem rbSetParent_some :
    rbSetParent h (some a) x =
      (h.links a).map fun _ => h.write a (fun k => { k with parent := x }) id := by
  cases ha : h a <;> simp [rbSetParent, modify, links, write, ha]

@[simp] theorem rbSetParentColor_some :
    rbSetParentColor h (some a) x y =
      (h.links a).map fun _ => h.write a (fun k => { k with parent := x }) fun _ => y := by
  cases ha : h a <;> simp [rbSetParentColor, modify, links, write, ha]

variable (f : Links A → Links A) (g : Color → Color)

@[simp] theorem links_write_self : (h.write a f g).links a = (h.links a).map f := by
  simp [links, write, Function.comp_def]

theorem links_write_of_ne (hb : b ≠ a) : (h.write a f g).links b = h.links b := by
  simp [links, write, hb]

@[simp] theorem colors_write_id : (h.write a f id).colors = h.colors := by
  funext b
  by_cases hb : b = a
  · subst hb
    simp [colors, write, Function.comp_def]
  · simp [colors, write, hb]

theorem colors_write {k : Links A} (hk : h.links a = some k) (y : Color) :
    (h.write a f fun _ => y).colors = Function.update h.colors a (some y) := by
  obtain ⟨n, hn, -⟩ := Option.map_eq_some_iff.mp hk
  funext b
  by_cases hb : b = a
  · subst hb
    simp [colors, write, hn]
  · simp [colors, write, hb]

@[simp] theorem values_write : (h.write a f g).values = h.values := by
  funext b
  by_cases hb : b = a
  · subst hb
    simp [values, write, Function.comp_def]
  · simp [values, write, hb]

theorem colors_live {k : Links A} (hk : h.links a = some k) : ∃ y, h.colors a = some y := by
  obtain ⟨n, hn, -⟩ := Option.map_eq_some_iff.mp hk
  exact ⟨n.color, by simp [colors, hn]⟩

end Heap

/-- The root pointer and the heap hold the binary tree `T`. -/
structure Holds (t : Root A) (T : BinaryTree A) : Prop where
  root : t.node = top T
  rep : Rep t.heap.links none T
  nodup : (inorder T).Nodup

/-- The tree is balanced as well, and its root is black. -/
structure RbHolds (t : Root A) (T : BinaryTree A) : Prop extends Holds t T where
  balanced : ∃ n, Balanced t.heap.colors T .black n

variable {t : Root A} {h : Heap A} {a n l : A} {d e : Side} {par q : Option A} {c : Ctx A}
  {s s' x y z : BinaryTree A} {b : Color}

theorem isRed_spec {k : ℕ} (hs : Balanced h.colors s b k) :
    isRed h (top s) = some (decide (b = .red)) := by
  cases hs with
  | nil => rfl
  | red ha => simp [isRed, ha]
  | black ha => simp [isRed, ha]

/-- The comparison with the right child tells on which side a child hangs. -/
theorem side_eq {x y : Option A} (par : Option A) (hxy : x ≠ y) :
    (if x = (Links.of e par x y).child .right then Side.right else .left) = e := by
  cases e with
  | left => exact if_neg hxy
  | right => exact if_pos rfl

theorem side_cases (d e : Side) : e = d ∨ e = d.flip := by
  cases d <;> cases e <;> simp [Side.flip]

/-- A write of the parent that the node has already only changes its color. -/
theorem rbSetParentColor_same {k : Links A} (hk : h.links a = some k) (color : Color) :
    ∃ h', rbSetParentColor h (some a) k.parent color = some h' ∧ h'.links = h.links ∧
      h'.colors = Function.update h.colors a (some color) ∧ h'.values = h.values := by
  refine ⟨h.write a (fun j => { j with parent := k.parent }) fun _ => color, by simp [hk], ?_,
    Heap.colors_write _ hk _, Heap.values_write _ _⟩
  funext u
  by_cases hu : u = a
  · rw [hu, Heap.links_write_self, hk, Option.map_some]
  · exact Heap.links_write_of_ne _ _ hu

/-- `if (n) rb_set_parent_color(n, q, color);` gives a subtree another parent and its root that
color. -/
theorem setColored_spec (hr : Rep h.links par y) (hnd : (inorder y).Nodup) (q : Option A)
    (color : Color) :
    ∃ h', setColored h (top y) q color = some h' ∧ Rep h'.links q y ∧
      (∀ a, a ∉ inorder y → h'.links a = h.links a) ∧
      (∀ a, top y ≠ some a → h'.colors a = h.colors a) ∧
      (∀ a, top y = some a → h'.colors a = some color) ∧ h'.values = h.values := by
  cases y with
  | nil => exact ⟨h, rfl, trivial, fun _ _ => rfl, fun _ _ => rfl, nofun, rfl⟩
  | node a l r =>
    refine ⟨h.write a (fun k => { k with parent := q }) fun _ => color, ?_, ?_, ?_, ?_, ?_,
      Heap.values_write _ _⟩
    · simp [setColored, hr.1]
    · apply rep_reparent hr hnd
      · rintro u k ⟨⟩ hk
        simp [hk]
      · intro u _ hu
        exact Heap.links_write_of_ne _ _ fun hua => hu (by simp [hua])
    · intro u hu
      exact Heap.links_write_of_ne _ _ fun hua => hu (by simp [hua])
    · intro u hu
      have hne : u ≠ a := fun hua => hu (by simp [hua])
      simp [Heap.colors_write _ hr.1, hne]
    · rintro u ⟨⟩
      simp [Heap.colors_write _ hr.1]

/-- A black root stays black. -/
theorem setColored_black (hr : Rep h.links par y) (hnd : (inorder y).Nodup)
    (hy : ∀ a, top y = some a → h.colors a = some .black) (q : Option A) :
    ∃ h', setColored h (top y) q .black = some h' ∧ Rep h'.links q y ∧
      (∀ a, a ∉ inorder y → h'.links a = h.links a) ∧ h'.colors = h.colors ∧
      h'.values = h.values := by
  obtain ⟨h', e, hy', hframe, hother, htop, hv⟩ := setColored_spec hr hnd q .black
  refine ⟨h', e, hy', hframe, ?_, hv⟩
  funext a
  by_cases ha : top y = some a
  · rw [htop a ha, hy a ha]
  · exact hother a ha

/-- The child pointer above a subtree, or the root pointer, gets another tree. -/
theorem rbChangeChild_spec (ht : t.node = top (plug c s))
    (hc : RepCtx t.heap.links none c (some n)) (hnd : (addrs c).Nodup) (hn : n ∉ addrs c)
    (s' : BinaryTree A) :
    ∃ t', rbChangeChild t (some n) (top s') (parentOf none c) = some t' ∧
      t'.node = top (plug c s') ∧ RepCtx t'.heap.links none c (top s') ∧
      (∀ a, a ∉ addrs c → t'.heap.links a = t.heap.links a) ∧
      t'.heap.colors = t.heap.colors ∧ t'.heap.values = t.heap.values := by
  cases c with
  | nil =>
    exact ⟨⟨top s', t.heap⟩, by simp [rbChangeChild, parentOf], rfl, trivial, fun _ _ => rfl, rfl,
      rfl⟩
  | cons f c =>
    have hroot : t.node = top (plug (f :: c) s') :=
      ht.trans (top_plug (List.cons_ne_nil f c) s s')
    let h₁ := t.heap.write f.addr (·.setChild f.dir (top s')) id
    have hframe : ∀ a, a ≠ f.addr → h₁.links a = t.heap.links a :=
      fun a ha => Heap.links_write_of_ne _ _ ha
    refine ⟨⟨t.node, h₁⟩, ?_, hroot, ?_, ?_, by simp [h₁], by simp [h₁]⟩
    · obtain ⟨d, a, sib⟩ := f
      have hk := hc.1
      cases d with
      | left => simp_all [rbChangeChild, Links.of, Links.child, h₁]
      | right =>
        have hsib : top sib ≠ some n := fun h => hn (by simp [addrs, top_mem h])
        simp_all [rbChangeChild, Links.of, Links.child, h₁]
    · apply repCtx_rewire hc hnd
      · simp [h₁, hc.1]
      · exact hframe
    · intro u hu
      apply hframe
      rintro rfl
      exact hu (List.mem_cons_self ..)

/-- The nodes of a rotated subtree and of its surroundings. -/
theorem rotated_perm : inorder (plug c (join d l x (join e n z y))) ~
    addrs c ++ (n :: l :: (inorder x ++ inorder y ++ inorder z)) := by
  apply (inorder_plug_perm _ _).trans
  apply List.Perm.append_left
  calc inorder (join d l x (join e n z y))
      ~ l :: inorder x ++ inorder (join e n z y) := inorder_join_perm
    _ ~ l :: inorder x ++ (n :: inorder z ++ inorder y) := inorder_join_perm.append_left _
    _ ~ n :: (l :: inorder x ++ (inorder z ++ inorder y)) := List.perm_middle
    _ ~ n :: l :: (inorder x ++ inorder y ++ inorder z) := by
      rw [List.cons_append, List.append_assoc]
      exact ((List.perm_append_comm.append_left _).cons l).cons n

/-- The end of a rotation. `l` already has `n` below it, with `y` moved from `l` to `n`, and takes
the place and the color of `n`. -/
theorem rbRotateSetParents_spec (ht : t.node = top (plug c s))
    (hc : RepCtx t.heap.links none c (some n))
    (hn : t.heap.links n = some (.of e (parentOf none c) (top y) (top z)))
    (hl : t.heap.links l = some (.of e q (top x) (some n))) (hx : Rep t.heap.links (some l) x)
    (hy : Rep t.heap.links (some n) y) (hz : Rep t.heap.links (some n) z)
    (hnd : (addrs c ++ (n :: l :: (inorder x ++ inorder y ++ inorder z))).Nodup)
    (hb : t.heap.colors n = some b) (color : Color) :
    ∃ t', rbRotateSetParents t (some n) (some l) color = some t' ∧
      Holds t' (plug c (join e l x (join e.flip n z y))) ∧
      t'.heap.colors = Function.update (Function.update t.heap.colors l (some b)) n (some color) ∧
      t'.heap.values = t.heap.values := by
  have hnd' := hnd
  simp only [List.nodup_append, List.nodup_cons, List.mem_append, List.mem_cons] at hnd
  have hnl : n ≠ l := by grind
  let h₁ := (t.heap.write l (fun k => { k with parent := parentOf none c }) fun _ => b).write n
    (fun k => { k with parent := some l }) fun _ => color
  have hn₁ : h₁.links n = some (.of e (some l) (top y) (top z)) := by
    simp [h₁, hn, hnl, Heap.links_write_of_ne]
  have hl₁ : h₁.links l = some (.of e (parentOf none c) (top x) (some n)) := by
    simp [h₁, hl, hnl.symm, Heap.links_write_of_ne]
  have hframe₁ : ∀ a, a ≠ n → a ≠ l → h₁.links a = t.heap.links a := by
    intro a han hal
    simp [h₁, han, hal, Heap.links_write_of_ne]
  have hcol₁ : h₁.colors =
      Function.update (Function.update t.heap.colors l (some b)) n (some color) := by
    have hn' : (t.heap.write l (fun k => { k with parent := parentOf none c })
        fun _ => b).links n = some (.of e (parentOf none c) (top y) (top z)) := by
      rw [Heap.links_write_of_ne _ _ hnl, hn]
    rw [Heap.colors_write _ hn', Heap.colors_write _ hl]
  obtain ⟨t', e', hroot, hc', hframe', hcol', hval'⟩ := rbChangeChild_spec (t := ⟨t.node, h₁⟩) ht
    (repCtx_frame hc fun a ha => hframe₁ a (by grind) (by grind)) (by grind) (by grind)
    (join e l x (join e.flip n z y))
  rw [top_join] at e' hc'
  have hframe : ∀ a, a ∉ addrs c → a ≠ n → a ≠ l → t'.heap.links a = t.heap.links a :=
    fun a hac han hal => (hframe' a hac).trans (hframe₁ a han hal)
  refine ⟨t', ?_, ⟨hroot, ?_, rotated_perm.nodup_iff.mpr hnd'⟩, hcol'.trans hcol₁, ?_⟩
  · simp [rbRotateSetParents, hn, hl, hb, hnl, Heap.links_write_of_ne]
    exact e'
  · rw [rep_plug, rep_join, rep_join, top_join, top_join, Links.of_flip]
    refine ⟨hc', (hframe' l (by grind)).trans hl₁, ?_, (hframe' n (by grind)).trans hn₁, ?_, ?_⟩
    · exact rep_frame hx fun a ha => hframe a (by grind) (by grind) (by grind)
    · exact rep_frame hz fun a ha => hframe a (by grind) (by grind) (by grind)
    · exact rep_frame hy fun a ha => hframe a (by grind) (by grind) (by grind)
  · rw [hval']
    simp [h₁]

end LinuxSummer.Rbtree
