import LinuxSummer.RbHeap
import LinuxSummer.STreeUpdate

/-! `__rb_insert` keeps the order of the nodes and makes the tree balanced again. -/
set_option linter.unusedSectionVars false

namespace LinuxSummer.Rbtree
open BinaryTree LinkedTree RedBlack
open scoped List

variable {A : Type} [DecidableEq A] {t : Root A} {h : Heap A} {a g n : A} {d : Side}
  {par q r : Option A} {c : Ctx A} {s w x y z : BinaryTree A}

/-- Case 3: `y` moves from the parent to the grandparent, whose place the parent takes. -/
theorem insertCase3_spec {p : A} (ht : t.node = top (plug c s))
    (hc : RepCtx t.heap.links none c (some g))
    (hg : t.heap.links g = some (.of d (parentOf none c) r (top z)))
    (hp : t.heap.links p = some (.of d q (top x) (top y))) (hx : Rep t.heap.links (some p) x)
    (hy : Rep t.heap.links (some p) y) (hz : Rep t.heap.links (some g) z)
    (hnd : (addrs c ++ (g :: p :: (inorder x ++ inorder y ++ inorder z))).Nodup)
    (hblack : ∀ a, top y = some a → t.heap.colors a = some .black)
    (hcol : t.heap.colors g = some .black) :
    ∃ t', insertCase3 d t (some p) (some g) (top y) = some t' ∧
      Holds t' (plug c (join d p x (join d.flip g z y))) ∧
      t'.heap.colors = Function.update (Function.update t.heap.colors p (some .black)) g (some .red) ∧
      t'.heap.values = t.heap.values := by
  have hnd' := hnd
  simp only [List.nodup_append, List.nodup_cons, List.mem_append, List.mem_cons] at hnd
  have hgp : g ≠ p := by grind
  let h₁ := (t.heap.write g (·.setChild d (top y)) id).write p (·.setChild d.flip (some g)) id
  have hg₁ : h₁.links g = some (.of d (parentOf none c) (top y) (top z)) := by
    simp [h₁, hg, hgp, Heap.links_write_of_ne]
  have hp₁ : h₁.links p = some (.of d q (top x) (some g)) := by
    simp [h₁, hp, hgp.symm, Heap.links_write_of_ne]
  have hframe₁ : ∀ a, a ≠ g → a ≠ p → h₁.links a = t.heap.links a := by
    intro a hag hap
    simp [h₁, hag, hap, Heap.links_write_of_ne]
  have hcol₁ : h₁.colors = t.heap.colors := by simp [h₁]
  have hy₁ : Rep h₁.links (some p) y := rep_frame hy fun a ha => hframe₁ a (by grind) (by grind)
  obtain ⟨h₂, e₂, hy₂, hframe₂, hcol₂, hval₂⟩ := setColored_black hy₁ (by grind)
    (fun a ha => by rw [hcol₁, hblack a ha]) (some g)
  have hframe : ∀ a, a ∉ inorder y → a ≠ g → a ≠ p → h₂.links a = t.heap.links a :=
    fun a hay hag hap => (hframe₂ a hay).trans (hframe₁ a hag hap)
  obtain ⟨t', e', hrep, hcol', hval'⟩ := rbRotateSetParents_spec (t := ⟨t.node, h₂⟩) (l := p)
    (b := .black) ht
    (repCtx_frame hc fun a ha => hframe a (by grind) (by grind) (by grind))
    ((hframe₂ g (by grind)).trans hg₁) ((hframe₂ p (by grind)).trans hp₁)
    (rep_frame hx fun a ha => hframe a (by grind) (by grind) (by grind)) hy₂
    (rep_frame hz fun a ha => hframe a (by grind) (by grind) (by grind)) hnd'
    (by rw [hcol₂, hcol₁, hcol]) .red
  refine ⟨t', ?_, hrep, by rw [hcol', hcol₂, hcol₁], ?_⟩
  · rw [← e']
    simp only [insertCase3, Heap.setChild_some, hg, Option.map_some, Option.bind_eq_bind,
      Option.bind_some, Heap.links_write_of_ne _ _ hgp.symm, hp]
    exact congrArg (Option.bind · _) e₂
  · rw [hval', hval₂]
    simp [h₁]

/-- Case 2: `n` gets the parent below it, with its own subtree `y` moved to the parent. -/
theorem insertCase2_spec {p : A} (hp : h.links p = some (.of d (some g) (top x) (some n)))
    (hn : h.links n = some (.of d (some p) (top y) (top w))) (hx : Rep h.links (some p) x)
    (hy : Rep h.links (some n) y) (hnd : (n :: p :: (inorder x ++ inorder y)).Nodup)
    (hblack : ∀ a, top y = some a → h.colors a = some .black) (hred : h.colors p = some .red) :
    ∃ h', insertCase2 d h (some n) (some p) = some h' ∧
      h'.links n = some (.of d (some p) (some p) (top w)) ∧ Rep h'.links (some n) (join d p x y) ∧
      (∀ a, a ≠ n → a ∉ inorder (join d p x y) → h'.links a = h.links a) ∧
      h'.colors = h.colors ∧ h'.values = h.values := by
  simp only [List.nodup_cons, List.nodup_append, List.mem_cons, List.mem_append] at hnd
  have hnp : n ≠ p := by grind
  let h₁ := (h.write p (·.setChild d.flip (top y)) id).write n (·.setChild d (some p)) id
  have hp₁ : h₁.links p = some (.of d (some g) (top x) (top y)) := by
    simp [h₁, hp, hnp.symm, Heap.links_write_of_ne]
  have hn₁ : h₁.links n = some (.of d (some p) (some p) (top w)) := by
    simp [h₁, hn, hnp, Heap.links_write_of_ne]
  have hframe₁ : ∀ a, a ≠ n → a ≠ p → h₁.links a = h.links a := by
    intro a han hap
    simp [h₁, han, hap, Heap.links_write_of_ne]
  have hcol₁ : h₁.colors = h.colors := by simp [h₁]
  have hy₁ : Rep h₁.links (some n) y := rep_frame hy fun a ha => hframe₁ a (by grind) (by grind)
  obtain ⟨h₂, e₂, hy₂, hframe₂, hcol₂, hval₂⟩ := setColored_black hy₁ (by grind)
    (fun a ha => by rw [hcol₁, hblack a ha]) (some p)
  have hp₂ : h₂.links p = some (.of d (some g) (top x) (top y)) := (hframe₂ p (by grind)).trans hp₁
  let h₃ := h₂.write p (fun k => { k with parent := some n }) fun _ => .red
  have hframe₃ : ∀ a, a ≠ p → h₃.links a = h₂.links a :=
    fun a ha => Heap.links_write_of_ne _ _ ha
  refine ⟨h₃, ?_, ?_, ?_, ?_, ?_, ?_⟩
  · calc insertCase2 d h (some n) (some p)
        = (setColored h₁ (top y) (some p) .black).bind fun h =>
            rbSetParentColor h (some p) (some n) .red := by
          simp [insertCase2, hn, hp, hnp, Heap.links_write_of_ne, h₁]
      _ = some h₃ := by simp [e₂, hp₂, h₃]
  · rw [hframe₃ n hnp, hframe₂ n (by grind), hn₁]
  · refine rep_join.mpr ⟨by simp [h₃, hp₂], ?_, ?_⟩
    · refine rep_frame hx fun a ha => ?_
      rw [hframe₃ a (by grind), hframe₂ a (by grind), hframe₁ a (by grind) (by grind)]
    · exact rep_frame hy₂ fun a ha => hframe₃ a (by grind)
  · intro a han ha
    rw [mem_join, not_or, not_or] at ha
    rw [hframe₃ a ha.1, hframe₂ a ha.2.2, hframe₁ a han ha.1]
  · funext a
    rw [Heap.colors_write _ hp₂]
    by_cases ha : a = p
    · rw [ha, Function.update_self, hred]
    · rw [Function.update_of_ne ha, hcol₂, hcol₁]
  · simp [h₃, hval₂, h₁]

section Rotate
variable {p : A} {k : ℕ} {i : Color}

/-- The nodes of the two levels that a rotation at `g` moves. -/
theorem unrotated_perm : inorder (plug c (join d g (join d p x y) z)) ~
    addrs c ++ (g :: p :: (inorder x ++ inorder y ++ inorder z)) := by
  apply (inorder_plug_perm _ _).trans
  apply List.Perm.append_left
  calc inorder (join d g (join d p x y) z)
      ~ g :: inorder (join d p x y) ++ inorder z := inorder_join_perm
    _ ~ g :: p :: (inorder x ++ inorder y ++ inorder z) :=
      (inorder_join_perm.append_right _).cons g

/-- The node hangs on the outer side of its parent: case 3 alone makes the tree balanced. -/
theorem insert_outer (ht : Holds t (plug c (join d g (join d p x y) z)))
    (hc : Around t.heap.colors c i (k + 1)) (hg : t.heap.colors g = some .black)
    (hx : Balanced t.heap.colors x .red k) (hy : Balanced t.heap.colors y .black k)
    (hz : Balanced t.heap.colors z .black k) :
    ∃ t', insertCase3 d t (some p) (some g) (top y) = some t' ∧
      RbHolds t' (plug c (join d p x (join d.flip g z y))) ∧
      t'.heap.values = t.heap.values := by
  obtain ⟨hrc, hrg⟩ := rep_plug.mp ht.rep
  obtain ⟨hlg, hrp, hrz⟩ := rep_join.mp hrg
  obtain ⟨hlp, hrx, hry⟩ := rep_join.mp hrp
  rw [top_join] at hrc
  have hnd := unrotated_perm.nodup_iff.mp ht.nodup
  obtain ⟨t', e, hholds, hcol, hval⟩ := insertCase3_spec ht.root hrc hlg hlp hrx hry hrz hnd
    (fun a ha => hy.top_color ha) hg
  refine ⟨t', e, ⟨hholds, ?_⟩, hval⟩
  simp only [List.nodup_append, List.nodup_cons, List.mem_append, List.mem_cons] at hnd
  have hkeep : ∀ a, a ≠ g → a ≠ p → t'.heap.colors a = t.heap.colors a := by
    intro a hag hap
    rw [hcol, Function.update_of_ne hag, Function.update_of_ne hap]
  have hred : Balanced t'.heap.colors (join d.flip g z y) .red k := by
    apply Balanced.join_red
    · rw [hcol, Function.update_self]
    · exact hz.congr fun a ha => hkeep a (by grind) (by grind)
    · exact hy.congr fun a ha => hkeep a (by grind) (by grind)
  have htop : Balanced t'.heap.colors (join d p x (join d.flip g z y)) .black (k + 1) := by
    refine .join_black ?_ (hx.congr fun a ha => hkeep a (by grind) (by grind)) hred
    rw [hcol, Function.update_of_ne (by grind), Function.update_self]
  exact (hc.congr fun a ha => hkeep a (by grind) (by grind)).plug htop (fits_black _)

/-- It hangs on the inner side: case 2 puts it above its parent, and then case 3 follows. -/
theorem insert_inner (ht : Holds t (plug c (join d g (join d p x (join d n y w)) z)))
    (hc : Around t.heap.colors c i (k + 1)) (hg : t.heap.colors g = some .black)
    (hp : t.heap.colors p = some .red) (hx : Balanced t.heap.colors x .black k)
    (hy : Balanced t.heap.colors y .black k) (hw : Balanced t.heap.colors w .black k)
    (hz : Balanced t.heap.colors z .black k) :
    ∃ t', (do
        let h ← insertCase2 d t.heap (some n) (some p)
        insertCase3 d ⟨t.node, h⟩ (some n) (some g) (← h.child d.flip (some n))) = some t' ∧
      RbHolds t' (plug c (join d n (join d p x y) (join d.flip g z w))) ∧
      t'.heap.values = t.heap.values := by
  obtain ⟨hrc, hrg⟩ := rep_plug.mp ht.rep
  obtain ⟨hlg, hrp, hrz⟩ := rep_join.mp hrg
  obtain ⟨hlp, hrx, hrn⟩ := rep_join.mp hrp
  obtain ⟨hln, hry, hrw⟩ := rep_join.mp hrn
  rw [top_join] at hrc hlg hlp
  have hnd : (addrs c ++ (g :: n :: (inorder (join d p x y) ++ inorder w ++ inorder z))).Nodup := by
    refine (List.Perm.nodup_iff ?_).mp ht.nodup
    apply unrotated_perm.trans
    apply List.Perm.append_left
    apply List.Perm.cons
    simp only [List.perm_iff_count, List.count_cons, List.count_append,
      inorder_join_perm.count_eq]
    intro a
    omega
  have hnd' := hnd
  simp only [List.nodup_append, List.nodup_cons, List.mem_append, List.mem_cons, mem_join,
    nodup_join] at hnd
  obtain ⟨h₁, e₁, hn₁, hp₁, hframe₁, hcol₁, hval₁⟩ := insertCase2_spec hlp hln hrx hry
    (by simp only [List.nodup_cons, List.nodup_append, List.mem_cons, List.mem_append]; grind)
    (fun a ha => hy.top_color ha) hp
  have hframe : ∀ a, a ≠ n → a ≠ p → a ∉ inorder x → a ∉ inorder y →
      h₁.links a = t.heap.links a := by
    intro a han hap hax hay
    exact hframe₁ a han (by rw [mem_join]; tauto)
  have hn₁' : h₁.links n = some (.of d (some p) (top (join d p x y)) (top w)) := by
    rw [hn₁, top_join]
  obtain ⟨t', e, hholds, hcol, hval⟩ := insertCase3_spec (t := ⟨t.node, h₁⟩) ht.root
    (repCtx_frame hrc fun a ha => hframe a (by grind) (by grind) (by grind) (by grind))
    ((hframe g (by grind) (by grind) (by grind) (by grind)).trans hlg) hn₁' hp₁
    (rep_frame hrw fun a ha => hframe a (by grind) (by grind) (by grind) (by grind))
    (rep_frame hrz fun a ha => hframe a (by grind) (by grind) (by grind) (by grind)) hnd'
    (fun a ha => (congrFun hcol₁ a).trans (hw.top_color ha)) ((congrFun hcol₁ g).trans hg)
  refine ⟨t', ?_, ⟨hholds, ?_⟩, hval.trans hval₁⟩
  · simpa [e₁, hn₁] using e
  have hcol' : t'.heap.colors =
      Function.update (Function.update t.heap.colors n (some .black)) g (some .red) := by
    rw [hcol, hcol₁]
  have hkeep : ∀ a, a ≠ g → a ≠ n → t'.heap.colors a = t.heap.colors a := by
    intro a hag han
    rw [hcol', Function.update_of_ne hag, Function.update_of_ne han]
  have hpred : Balanced t'.heap.colors (join d p x y) .red k := by
    apply Balanced.join_red
    · exact (hkeep p (by grind) (by grind)).trans hp
    · exact hx.congr fun a ha => hkeep a (by grind) (by grind)
    · exact hy.congr fun a ha => hkeep a (by grind) (by grind)
  have hgred : Balanced t'.heap.colors (join d.flip g z w) .red k := by
    apply Balanced.join_red
    · rw [hcol', Function.update_self]
    · exact hz.congr fun a ha => hkeep a (by grind) (by grind)
    · exact hw.congr fun a ha => hkeep a (by grind) (by grind)
  have htop : Balanced t'.heap.colors (join d n (join d p x y) (join d.flip g z w)) .black
      (k + 1) := by
    refine .join_black ?_ hpred hgred
    rw [hcol', Function.update_of_ne (by grind), Function.update_self]
  exact (hc.congr fun a ha => hkeep a (by grind) (by grind)).plug htop (fits_black _)

/-- The uncle is black. -/
theorem insertRotate_spec {f f' : Frame A} (ht : Holds t (plug (f :: f' :: c) s))
    (hs : Balanced t.heap.colors s .red k) (hf : t.heap.colors f.addr = some .red)
    (hfs : Balanced t.heap.colors f.sib .black k) (hf' : t.heap.colors f'.addr = some .black)
    (hfs' : Balanced t.heap.colors f'.sib .black k) (hc : Around t.heap.colors c i (k + 1)) :
    ∃ t' T', insertRotate f'.dir t (top s) (some f.addr) (some f'.addr) = some t' ∧
      RbHolds t' T' ∧ inorder T' = inorder (plug (f :: f' :: c) s) ∧
      t'.heap.values = t.heap.values := by
  obtain ⟨e, p, x⟩ := f
  obtain ⟨d, g, z⟩ := f'
  obtain ⟨hlp, -, -⟩ := (rep_plug.mp ht.rep).1
  obtain ⟨n, y, w, rfl⟩ := hs.exists_join d (Or.inl rfl)
  obtain ⟨hn, hy, hw⟩ := hs.of_join_red
  simp only [plug] at ht hlp hf hfs hf' hfs' ⊢
  rcases side_cases d e with rfl | rfl
  · have hne : top (join e n y w) ≠ top x := by
      intro htop
      have hmem := top_mem (htop.symm.trans top_join)
      have hnd := unrotated_perm.nodup_iff.mp ht.nodup
      simp only [List.nodup_append, List.nodup_cons, List.mem_append, mem_join] at hnd
      grind
    obtain ⟨t', e', hrb, hval⟩ := insert_outer ht hc hf' hs hfs hfs'
    refine ⟨t', _, ?_, hrb, STree.inorder_plug_congr STree.inorder_rotate, hval⟩
    simp only [insertRotate, Heap.child_some, hlp, Option.map_some, Links.child_flip_of,
      Option.bind_eq_bind, Option.bind_some, if_neg hne, e']
  · rw [STree.join_flip] at ht ⊢
    obtain ⟨t', e', hrb, hval⟩ := insert_inner ht hc hf' hf hfs hy hw hfs'
    refine ⟨t', _, ?_, hrb, ?_, hval⟩
    · rw [top_join] at hlp ⊢
      simpa [insertRotate, hlp] using e'
    · apply STree.inorder_plug_congr
      cases d <;> simp [join, Side.flip]

/-- Case 1: the uncle is red. Only colors change, and the grandparent is the next node. -/
theorem insertCase1_spec {f f' : Frame A} (ht : Holds t (plug (f :: f' :: c) s))
    (hs : Balanced t.heap.colors s .red k) (hfs : Balanced t.heap.colors f.sib .black k)
    (hfs' : Balanced t.heap.colors f'.sib .red k) (hc : Around t.heap.colors c i (k + 1)) :
    ∃ h', insertCase1 t.heap (some f.addr) (some f'.addr) (top f'.sib) =
        some (parentOf none c, h') ∧
      Holds ⟨t.node, h'⟩ (plug (f :: f' :: c) s) ∧
      Balanced h'.colors (join f'.dir f'.addr (join f.dir f.addr s f.sib) f'.sib) .red (k + 1) ∧
      Around h'.colors c i (k + 1) ∧ h'.values = t.heap.values := by
  obtain ⟨e, p, y⟩ := f
  obtain ⟨d, g, z⟩ := f'
  obtain ⟨⟨hlp, -, hlg, hrz, -⟩, -⟩ := rep_plug.mp ht.rep
  have hnd : (addrs c ++ (g :: inorder (join e p s y) ++ inorder z)).Nodup :=
    ((inorder_plug_perm _ _).trans (inorder_join_perm.append_left _)).nodup_iff.mp ht.nodup
  simp only [List.nodup_append, List.nodup_cons, List.mem_append, List.mem_cons,
    List.cons_append, nodup_join, mem_join] at hnd
  obtain ⟨u, v, w, rfl⟩ := hfs'.exists_join .left (Or.inl rfl)
  obtain ⟨h₁, e₁, hlinks₁, hcol₁, hval₁⟩ := rbSetParentColor_same (rep_join (d := .left) |>.mp hrz).1 .black
  obtain ⟨h₂, e₂, hlinks₂, hcol₂, hval₂⟩ :=
    rbSetParentColor_same ((congrFun hlinks₁ p).trans hlp) .black
  have hlg₂ : h₂.links g = some (.of d (parentOf none c) (some p) (top (join .left u v w))) := by
    rw [hlinks₂, hlinks₁, hlg]
  obtain ⟨h₃, e₃, hlinks₃, hcol₃, hval₃⟩ := rbSetParentColor_same hlg₂ .red
  simp only [Links.parent_of, parentOf_cons] at e₁ e₂ e₃
  have hexec : insertCase1 t.heap (some p) (some g) (top (join .left u v w)) =
      some (parentOf none c, h₃) := by
    simp only [insertCase1, top_join, e₁, e₂, e₃, Heap.parent_some, hlg₂, Option.map_some,
      Links.parent_of, Option.bind_eq_bind, Option.bind_some, Option.pure_def]
  have hkeep : ∀ a, a ≠ g → a ≠ p → a ≠ u → h₃.colors a = t.heap.colors a := by
    intro a hag hap hau
    rw [hcol₃, Function.update_of_ne hag, hcol₂, Function.update_of_ne hap, hcol₁,
      Function.update_of_ne hau]
  have hu : u ∈ inorder (join .left u v w) := top_mem top_join
  have huncle : Balanced h₃.colors (join .left u v w) .black (k + 1) := by
    refine hfs'.blacken (by grind) (fun a ha => ?_) fun a ha hau => ?_
    · rw [top_join, Option.some_inj] at ha
      subst ha
      rw [hcol₃, Function.update_of_ne (by grind), hcol₂, Function.update_of_ne (by grind), hcol₁,
        Function.update_self]
    · rw [top_join, ne_eq, Option.some_inj] at hau
      exact hkeep a (by grind) (by grind) (Ne.symm hau)
  have hparent : Balanced h₃.colors (join e p s y) .black (k + 1) := by
    refine .join_black ?_ (hs.congr fun a ha => ?_) (hfs.congr fun a ha => ?_)
    · rw [hcol₃, Function.update_of_ne (by grind), hcol₂, Function.update_self]
    · exact hkeep a (by grind) (by grind) (by grind)
    · exact hkeep a (by grind) (by grind) (by grind)
  refine ⟨h₃, hexec, ⟨ht.root, ?_, ht.nodup⟩, ?_, ?_, by rw [hval₃, hval₂, hval₁]⟩
  · show Rep h₃.links none _
    rw [hlinks₃, hlinks₂, hlinks₁]
    exact ht.rep
  · refine .join_red ?_ hparent huncle
    rw [hcol₃, Function.update_self]
  · exact hc.congr fun a ha => hkeep a (by grind) (by grind) (by grind)

end Rotate

/-- The loop of `__rb_insert`. Its node is red, and all is balanced but that the parent may be red
as well. -/
theorem rbInsert_spec (fuel : ℕ) {i : Color} {k : ℕ} (ht : Holds t (plug c s))
    (hs : Balanced t.heap.colors s .red k) (hc : Around t.heap.colors c i k)
    (hfuel : c.length < 2 * fuel) :
    ∃ t' T', rbInsert fuel t (top s) (parentOf none c) = some t' ∧ RbHolds t' T' ∧
      inorder T' = inorder (plug c s) ∧ t'.heap.values = t.heap.values := by
  induction fuel generalizing t c s i k with
  | zero => omega
  | succ fuel ih =>
    obtain ⟨n, x, y, rfl⟩ := hs.exists_join .left (Or.inl rfl)
    have hrep := rep_plug.mp ht.rep
    cases hc with
    | root =>
      -- the node is the root
      obtain ⟨h', e, hlinks, hcol, hval⟩ := rbSetParentColor_same (rep_join.mp hrep.2).1 .black
      refine ⟨⟨t.node, h'⟩, _, ?_, ⟨⟨ht.root, hlinks ▸ ht.rep, ht.nodup⟩, k + 1, ?_⟩, rfl, hval⟩
      · rw [Links.parent_of, parentOf] at e
        simp only [rbInsert, top_join, parentOf, Option.isNone_none, if_true, e,
          Option.bind_eq_bind, Option.bind_some, Option.pure_def]
      · refine hs.blacken ht.nodup (fun a ha => ?_) fun a _ ha => ?_
        · rw [top_join, Option.some_inj] at ha
          rw [hcol, ha, Function.update_self]
        · rw [top_join, ne_eq, Option.some_inj] at ha
          rw [hcol, Function.update_of_ne (Ne.symm ha)]
    | black hf hfs hc' =>
      refine ⟨t, _, ?_, ⟨ht, ?_⟩, rfl, rfl⟩
      · simp [rbInsert, parentOf, hf]
      · exact (Around.black hf hfs hc').plug hs (fits_red _)
    | red hf hfs hc' =>
      cases hc' with
      | black hg hgs hc₂ =>
        rename_i f f' c i j
        obtain ⟨⟨hlp, -, hlg, -, -⟩, -⟩ := hrep
        have hne : some f.addr ≠ top f'.sib := by
          intro htop
          have hmem := top_mem htop.symm
          have hnd := nodup_plug.mp ht.nodup
          simp only [addrs, List.nodup_append, List.mem_append, List.mem_cons] at hnd
          grind
        have hturn : rbInsert (fuel + 1) t (top (join .left n x y)) (some f.addr) =
            if j = .red then
              (insertCase1 t.heap (some f.addr) (some f'.addr) (top f'.sib)).bind fun r =>
                rbInsert fuel ⟨t.node, r.2⟩ (some f'.addr) r.1
            else insertRotate f'.dir t (top (join .left n x y)) (some f.addr) (some f'.addr) := by
          simp [rbInsert, rbRedParent, hf, hlp, hlg, side_eq _ hne, isRed_spec hgs]
        rw [parentOf_cons, hturn]
        cases j with
        | red =>
          obtain ⟨h', e, ht', hs', hc', hval⟩ := insertCase1_spec ht hs hfs hgs hc₂
          simp only [List.length_cons] at hfuel
          obtain ⟨t', T', e', hrb, hin, hval'⟩ := ih (t := ⟨t.node, h'⟩) (c := c) ht' hs' hc'
            (by omega)
          refine ⟨t', T', ?_, hrb, hin, hval'.trans hval⟩
          rw [top_join] at e'
          rw [if_pos rfl, e, Option.bind_some, e']
        | black =>
          rw [if_neg Color.noConfusion]
          exact insertRotate_spec ht hs hf hfs hg hgs hc₂

end LinuxSummer.Rbtree
