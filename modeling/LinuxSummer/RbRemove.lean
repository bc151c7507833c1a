import LinuxSummer.RbErase

/-! `rb_erase` takes a node out of the tree, keeps the order of the others and leaves a balanced
tree. -/
set_option linter.unusedSectionVars false

namespace LinuxSummer.Rbtree
open BinaryTree LinkedTree RedBlack

variable {A : Type} [DecidableEq A] {t : Root A} {h : Heap A} {a n r : A} {d : Side}
  {par q : Option A} {c c₂ : Ctx A} {s v w x y z L R : BinaryTree A} {b : Color} {fuel : ℕ}

/-- The loop of case 3 goes down the left side. -/
theorem leftmost_spec (hs : Rep h.links par s) (hnil : s ≠ .nil) (hfuel : s.height ≤ fuel)
    (q : Option A) :
    ∃ c₂ r x, s = plug c₂ (.node r .nil x) ∧ (∀ f ∈ c₂, f.dir = .left) ∧
      leftmost h fuel q (top s) = some (parentOf q c₂, some r) := by
  induction s generalizing par fuel q with
  | nil => exact absurd rfl hnil
  | node a l x ihl =>
    obtain ⟨ha, hl, -⟩ := hs
    rw [height] at hfuel
    cases fuel with
    | zero => omega
    | succ fuel =>
      by_cases hln : l = .nil
      · subst hln
        exact ⟨[], a, x, rfl, nofun, by simp [leftmost, ha, Links.child, parentOf]⟩
      · have hle : l.height ≤ fuel := by omega
        obtain ⟨c₂, r, y, rfl, hdir, e⟩ := ihl hl hln hle (some a)
        obtain ⟨u, hu⟩ : ∃ u, top (plug c₂ (.node r .nil y)) = some u := by
          cases htop : plug c₂ (.node r .nil y) with
          | nil => exact absurd htop hln
          | node u _ _ => exact ⟨u, rfl⟩
        refine ⟨c₂ ++ [⟨.left, a, x⟩], r, y, by rw [plug_append]; rfl, ?_, ?_⟩
        · intro f hf
          rcases List.mem_append.mp hf with hf | hf
          · exact hdir f hf
          · rw [List.mem_singleton.mp hf]
        · rw [hu] at e
          rw [parentOf_append, parentOf_cons, ← e]
          simp [leftmost, ha, Links.child, hu]

/-- Taking the leftmost node `r` out of the right subtree `R` of a node: its right subtree hangs in
its place but for the parent pointer of its root. -/
theorem takeSuccessor_spec (hR : Rep h.links (some n) R) (hnd : (inorder R).Nodup)
    (hnil : R ≠ .nil) (hfuel : R.height ≤ fuel) :
    ∃ c₂ r x h' q, R = plug c₂ (.node r .nil x) ∧ (∀ f ∈ c₂, f.dir = .left) ∧
      takeSuccessor fuel h (top R) = some (some r, parentOf (some r) c₂, top x, h') ∧
      h'.links r = some ⟨q, none, top (plug c₂ x)⟩ ∧ RepCtx h'.links (some r) c₂ (top x) ∧
      Rep h'.links (some r) x ∧
      (∀ a, a ≠ r → a ∉ addrs c₂ → h'.links a = h.links a) ∧ h'.colors = h.colors ∧
      h'.values = h.values := by
  cases R with
  | nil => exact absurd rfl hnil
  | node a l x =>
    obtain ⟨ha, hl, hx⟩ := hR
    rw [height] at hfuel
    by_cases hln : l = .nil
    · -- case 2
      subst hln
      refine ⟨[], a, x, h, some n, rfl, nofun, ?_, ha, trivial, hx, fun _ _ _ => rfl, rfl, rfl⟩
      simp [takeSuccessor, ha, Links.child, parentOf]
    · -- case 3
      have hle : l.height ≤ fuel := by omega
      obtain ⟨c', r, y, rfl, hdir, e⟩ := leftmost_spec hl hln hle (some a)
      obtain ⟨f, c₃, hc₂⟩ : ∃ f c₃, c' ++ [⟨.left, a, x⟩] = f :: c₃ := by
        cases c' with
        | nil => exact ⟨_, _, rfl⟩
        | cons f c₃ => exact ⟨_, _, rfl⟩
      have hdir₂ : ∀ g ∈ f :: c₃, g.dir = .left := by
        intro g hg
        rw [← hc₂] at hg
        rcases List.mem_append.mp hg with hg | hg
        · exact hdir g hg
        · rw [List.mem_singleton.mp hg]
      have hplug : ∀ s, plug (f :: c₃) s = .node a (plug c' s) x := by
        intro s
        rw [← hc₂, plug_append]
        rfl
      have htop : ∀ s, top (plug (f :: c₃) s) = some a := fun s => by rw [hplug, top_node]
      have hparent : parentOf (some a) c' = some f.addr := by
        have happ := parentOf_append none c' [⟨.left, a, x⟩]
        rw [hc₂, parentOf_cons] at happ
        exact happ.symm
      have hRep : Rep h.links (some n) (plug (f :: c₃) (.node r .nil y)) := by
        rw [hplug]
        exact ⟨ha, hl, hx⟩
      rw [← hplug] at hnd hnil ⊢
      obtain ⟨hc, hr⟩ := rep_plug.mp hRep
      obtain ⟨hlr, -, hy⟩ := hr
      have hfl := hc.1
      rw [hdir₂ f (List.mem_cons_self ..)] at hfl
      have hnd' := nodup_plug.mp hnd
      have hfa : f.addr ∈ addrs (f :: c₃) := List.mem_cons_self ..
      simp only [List.nodup_append, inorder_node, inorder_nil, List.nil_append, List.nodup_cons,
        List.mem_cons] at hnd'
      have hrf : r ≠ f.addr := by grind
      have haf : a ∈ addrs (f :: c₃) := top_plug_mem (List.cons_ne_nil f c₃) (htop .nil)
      have hra : r ≠ a := by grind
      let h₁ := h.write f.addr (·.setChild .left (top y)) id
      have hframe₁ : ∀ u, u ≠ f.addr → h₁.links u = h.links u :=
        fun u hu => Heap.links_write_of_ne _ _ hu
      have hc₁ : RepCtx h₁.links (some n) (f :: c₃) (top y) := by
        refine repCtx_rewire hc hnd'.1 ?_ hframe₁
        simp [h₁, hfl, hdir₂ f (List.mem_cons_self ..)]
      obtain ⟨k, hk⟩ : ∃ k, h₁.links a = some k := by
        by_cases haf : a = f.addr
        · exact ⟨_, by rw [haf, Heap.links_write_self, hfl]; rfl⟩
        · exact ⟨_, (hframe₁ a haf).trans ha⟩
      let h₂ := h₁.write r (·.setChild .right (some a)) id
      have hframe₂ : ∀ u, u ≠ r → h₂.links u = h₁.links u :=
        fun u hu => Heap.links_write_of_ne _ _ hu
      let h₃ := h₂.write a (fun j => { j with parent := some r }) id
      have hframe₃ : ∀ u, u ≠ a → h₃.links u = h₂.links u :=
        fun u hu => Heap.links_write_of_ne _ _ hu
      have hc₃ : RepCtx h₃.links (some r) (f :: c₃) (top y) := by
        refine repCtx_reparent hc₁ hnd'.1 (fun u j hu hj => ?_) fun u hu hut => ?_
        · cases (htop _).symm.trans hu
          rw [Heap.links_write_self, hframe₂ a hra.symm, hj]
          rfl
        · rw [htop, ne_eq, Option.some_inj] at hut
          rw [hframe₃ u (Ne.symm hut), hframe₂ u (by grind)]
      refine ⟨f :: c₃, r, y, h₃, some f.addr, rfl, hdir₂, ?_, ?_, hc₃, ?_, ?_, ?_, ?_⟩
      · have hlr₁ : h₁.links r = some ⟨some f.addr, none, top y⟩ := (hframe₁ r hrf).trans hlr
        have hk₂ : h₂.links a = some k := (hframe₂ a hra.symm).trans hk
        obtain ⟨u, hu⟩ : ∃ u, top (plug c' (.node r .nil y)) = some u := by
          cases hcase : plug c' (.node r .nil y) with
          | nil => exact absurd hcase hln
          | node u _ _ => exact ⟨u, rfl⟩
        rw [hu] at e
        rw [htop]
        simp only [takeSuccessor, Heap.child_some, ha, Option.map_some, Links.child, hu, e, hlr,
          hparent, Option.isNone_some, Bool.false_eq_true, if_false, Heap.setChild_some, hfl,
          Heap.rbSetParent_some, Option.bind_eq_bind, Option.bind_some, Option.pure_def,
          parentOf_cons]
        rw [show (h.write f.addr _ id).links r = _ from hlr₁, Option.map_some, Option.bind_some,
          show ((h.write f.addr _ id).write r _ id).links a = _ from hk₂, Option.map_some,
          Option.bind_some]
      · rw [hframe₃ r hra, Heap.links_write_self, hframe₁ r hrf, hlr, htop]
        rfl
      · refine rep_frame hy fun u hu => ?_
        rw [hframe₃ u (by grind), hframe₂ u (by grind), hframe₁ u (by grind)]
      · intro u hur hu
        rw [hframe₃ u (by grind), hframe₂ u hur, hframe₁ u (by grind)]
      · simp [h₃, h₂, h₁]
      · simp [h₃, h₂, h₁]

/-- A node with two children: its successor `r` takes its place and color, and the right subtree of
`r` the place of `r`. -/
theorem eraseInner_spec (fuel : ℕ) (ht : Holds t (plug c (.node n L R))) (hL : L ≠ .nil) (hR : R ≠ .nil)
    (hb : t.heap.colors n = some b) (hfuel : R.height ≤ fuel) :
    ∃ c₂ r x t', R = plug c₂ (.node r .nil x) ∧ (∀ f ∈ c₂, f.dir = .left) ∧
      eraseInner fuel t (some n) (top R) =
        some (if (top x).isSome then none
          else if t.heap.colors r = some .black then parentOf (some r) c₂ else none, t') ∧
      Holds t' (plug c (.node r L (plug c₂ x))) ∧ t'.heap.colors r = some b ∧
      (∀ a, a ≠ r → top x ≠ some a → t'.heap.colors a = t.heap.colors a) ∧
      (∀ a, top x = some a → t'.heap.colors a = some .black) ∧
      t'.heap.values = t.heap.values := by
  obtain ⟨hrc, hln, hrL, hrR⟩ := rep_plug.mp ht.rep
  have hndR : (inorder R).Nodup := by
    have hnd := (List.nodup_append.mp (nodup_plug.mp ht.nodup)).2.1
    rw [inorder_node] at hnd
    exact (List.nodup_cons.mp (List.nodup_append.mp hnd).2.1).2
  obtain ⟨c₂, r, x, h', q, rfl, hdir, e', hlr, hc₂, hx, hframe, hcol, hval⟩ :=
    takeSuccessor_spec hrR hndR hR hfuel
  have hnd : (n :: (addrs c ++ (r :: (inorder L ++ (addrs c₂ ++ inorder x))))).Nodup := by
    refine (List.Perm.nodup_iff ?_).mp ht.nodup
    simp only [List.perm_iff_count, (inorder_plug_perm _ _).count_eq, inorder_node, inorder_nil,
      List.nil_append, List.count_cons, List.count_append]
    intro a
    omega
  have hnd₁ : (inorder (plug c (.node r L (plug c₂ x)))).Nodup := by
    refine (List.Perm.nodup_iff ?_).mpr (List.nodup_cons.mp hnd).2
    simp only [List.perm_iff_count, (inorder_plug_perm _ _).count_eq, inorder_node,
      List.count_cons, List.count_append]
    intro a
    omega
  simp only [List.nodup_append, List.nodup_cons, List.mem_append, List.mem_cons] at hnd
  have hln' : h'.links n = some ⟨parentOf none c, top L, top (plug c₂ (.node r .nil x))⟩ :=
    (hframe n (by grind) (by grind)).trans hln
  -- the left subtree
  let h₁ := h'.write r (·.setChild .left (top L)) id
  have hframe₁ : ∀ a, a ≠ r → a ∉ addrs c₂ → h₁.links a = t.heap.links a :=
    fun a har ha => (Heap.links_write_of_ne _ _ har).trans (hframe a har ha)
  have hlr₁ : h₁.links r = some ⟨q, top L, top (plug c₂ x)⟩ := by
    simp [h₁, hlr, Links.setChild]
  obtain ⟨h₂, e₂, hL₂, hframe₂, hcol₂, hval₂⟩ := setParentIf_spec
    (rep_frame hrL fun a ha => hframe₁ a (by grind) (by grind)) (by grind) (some r)
  have hln₂ := (hframe₂ n (by grind)).trans ((hframe₁ n (by grind) (by grind)).trans hln)
  have hb₂ : h₂.colors n = some b := by
    rw [hcol₂]
    simp [h₁, hcol, hb]
  -- the place of the node
  obtain ⟨t₃, e₃, hroot₃, hc₃, hframe₃, hcol₃, hval₃⟩ := rbChangeChild_spec (t := ⟨t.node, h₂⟩)
    ht.root (repCtx_frame hrc fun a ha =>
      (hframe₂ a (by grind)).trans (hframe₁ a (by grind) (by grind)))
    (by grind) (by grind) (.node r L (plug c₂ x))
  have hx₃ : Rep t₃.heap.links (some r) x := by
    refine rep_frame hx fun a ha => ?_
    rw [hframe₃ a (by grind), hframe₂ a (by grind)]
    exact Heap.links_write_of_ne _ _ (by grind)
  obtain ⟨h₄, e₄, hx₄, hframe₄, hother₄, htop₄, hval₄⟩ :=
    setColored_spec hx₃ (by grind) (parentOf (some r) c₂) .black
  have hlr₄ : h₄.links r = some ⟨q, top L, top (plug c₂ x)⟩ :=
    (hframe₄ r (by grind)).trans ((hframe₃ r (by grind)).trans ((hframe₂ r (by grind)).trans hlr₁))
  let h₅ := h₄.write r (fun k => { k with parent := parentOf none c }) fun _ => b
  have hframe₅ : ∀ a, a ≠ r → h₅.links a = h₄.links a := fun a ha => Heap.links_write_of_ne _ _ ha
  have hcol₅ : h₅.colors = Function.update h₄.colors r (some b) := Heap.colors_write _ hlr₄ _
  have hr₃ : t₃.heap.colors r = t.heap.colors r := by
    rw [hcol₃, hcol₂]
    simp [h₁, hcol]
  refine ⟨c₂, r, x, ⟨t₃.node, h₅⟩, rfl, hdir, ?_, ⟨hroot₃, ?_, hnd₁⟩, ?_, ?_, ?_, ?_⟩
  · obtain ⟨u, hu⟩ : ∃ u, top L = some u := by
      cases L with
      | nil => exact absurd rfl hL
      | node u _ _ => exact ⟨u, rfl⟩
    have e₂' : rbSetParent h₁ (some u) (some r) = some h₂ := by
      simpa only [setParentIf, hu, Option.isSome_some, if_true] using e₂
    have e₁ : h'.setChild .left (some r) (some u) = some h₁ := by
      rw [Heap.setChild_some, hlr, Option.map_some, ← hu]
    rw [top_node] at e₃
    have e₅ : rbSetParentColor h₄ (some r) (parentOf none c) b = some h₅ := by
      rw [Heap.rbSetParentColor_some, hlr₄, Option.map_some]
    simp only [eraseInner, e', Heap.child_some, hln', Option.map_some, Links.child, hu, e₁, e₂',
      Heap.parent_some, hln₂, Heap.color_some, hb₂, e₃, hr₃, Option.bind_eq_bind, Option.bind_some,
      Option.pure_def]
    cases x with
    | nil =>
      cases e₄
      obtain ⟨z, hz⟩ := Heap.colors_live hlr₄
      rw [hr₃] at hz
      simp only [top_nil, Option.isSome_none, Bool.false_eq_true, if_false, hz, Option.bind_some,
        e₅, Option.some_inj]
    | node v _ _ =>
      simp only [setColored, top_node, Option.isSome_some, if_true] at e₄
      simp only [top_node, Option.isSome_some, if_true, e₄, Option.bind_some, e₅]
  · refine rep_plug.mpr ⟨?_, ?_, ?_, rep_plug.mpr ⟨?_, ?_⟩⟩
    · exact repCtx_frame hc₃ fun a ha => (hframe₅ a (by grind)).trans (hframe₄ a (by grind))
    · simp [h₅, hlr₄]
    · refine rep_frame hL₂ fun a ha => ?_
      rw [hframe₅ a (by grind), hframe₄ a (by grind), hframe₃ a (by grind)]
    · refine repCtx_frame hc₂ fun a ha => ?_
      rw [hframe₅ a (by grind), hframe₄ a (by grind), hframe₃ a (by grind), hframe₂ a (by grind)]
      exact Heap.links_write_of_ne _ _ (by grind)
    · exact rep_frame hx₄ fun a ha => hframe₅ a (by grind)
  · show h₅.colors r = some b
    rw [hcol₅, Function.update_self]
  · intro a har hax
    show h₅.colors a = _
    rw [hcol₅, Function.update_of_ne har, hother₄ a hax, hcol₃, hcol₂]
    simp [h₁, hcol]
  · intro a ha
    have hmem := top_mem ha
    show h₅.colors a = _
    rw [hcol₅, Function.update_of_ne (by grind), htop₄ a ha]
  · show h₅.values = _
    simp only [h₅, h₁, Heap.values_write] at hval₂ ⊢
    rw [hval₄, hval₃, hval₂, hval]

theorem rbEraseAugmented_inner (ht : Holds t (plug c (.node n L R))) (hL : L ≠ .nil)
    (hR : R ≠ .nil) :
    rbEraseAugmented fuel t (some n) = eraseInner fuel t (some n) (top R) := by
  have hln := (rep_plug.mp ht.rep).2.1
  cases L with
  | nil => exact absurd rfl hL
  | node u _ _ =>
    cases R with
    | nil => exact absurd rfl hR
    | node v _ _ => simp [rbEraseAugmented, hln, Links.child]

/-- Case 1: the node only has the right child `x`, or none. -/
theorem eraseRight_spec (fuel : ℕ) (ht : Holds t (plug c (.node n .nil x))) (hb : t.heap.colors n = some b) :
    ∃ t', rbEraseAugmented fuel t (some n) =
        some (if (top x).isSome then none else if b = .black then parentOf none c else none, t') ∧
      Holds t' (plug c x) ∧ (∀ a, top x = some a → t'.heap.colors a = some b) ∧
      (∀ a, top x ≠ some a → t'.heap.colors a = t.heap.colors a) ∧
      t'.heap.values = t.heap.values := by
  obtain ⟨hrc, hln, -, hrx⟩ := rep_plug.mp ht.rep
  rw [top_node] at hrc
  have hnd := nodup_plug.mp ht.nodup
  simp only [List.nodup_append, inorder_node, inorder_nil, List.nil_append, List.nodup_cons,
    List.mem_cons] at hnd
  obtain ⟨t₁, e₁, hroot₁, hc₁, hframe₁, hcol₁, hval₁⟩ :=
    rbChangeChild_spec ht.root hrc hnd.1 (by grind) x
  have hx₁ : Rep t₁.heap.links (some n) x := rep_frame hrx fun a ha => hframe₁ a (by grind)
  obtain ⟨h₂, e₂, hx₂, hframe₂, hother₂, htop₂, hval₂⟩ :=
    setColored_spec hx₁ (by grind) (parentOf none c) b
  refine ⟨⟨t₁.node, h₂⟩, ?_, ⟨hroot₁, ?_, ?_⟩, htop₂, ?_, hval₂.trans hval₁⟩
  · cases x with
    | nil =>
      cases e₂
      rw [top_nil] at e₁ hln
      simp [rbEraseAugmented, hln, Links.child, hb, e₁]
    | node v _ _ =>
      simp only [setColored, top_node, Option.isSome_some, if_true] at e₂
      rw [top_node] at e₁ hln
      simp [rbEraseAugmented, hln, Links.child, hb, e₁, e₂, -Heap.rbSetParentColor_some]
  · exact rep_plug.mpr ⟨repCtx_frame hc₁ fun a ha => hframe₂ a (by grind), hx₂⟩
  · rw [nodup_plug, List.nodup_append]
    grind
  · intro a ha
    exact (hother₂ a ha).trans (congrFun hcol₁ a)

/-- Still case 1: it only has the left child `x`. -/
theorem eraseLeft_spec (fuel : ℕ) (ht : Holds t (plug c (.node n x .nil))) (hx : x ≠ .nil)
    (hb : t.heap.colors n = some b) :
    ∃ t', rbEraseAugmented fuel t (some n) = some (none, t') ∧ Holds t' (plug c x) ∧
      (∀ a, top x = some a → t'.heap.colors a = some b) ∧
      (∀ a, top x ≠ some a → t'.heap.colors a = t.heap.colors a) ∧
      t'.heap.values = t.heap.values := by
  obtain ⟨hrc, hln, hrx, -⟩ := rep_plug.mp ht.rep
  rw [top_node] at hrc
  have hnd := nodup_plug.mp ht.nodup
  simp only [List.nodup_append, inorder_node, inorder_nil, List.nodup_cons, List.mem_append,
    List.mem_singleton] at hnd
  obtain ⟨h₁, e₁, hx₁, hframe₁, hother₁, htop₁, hval₁⟩ :=
    setColored_spec hrx (by grind) (parentOf none c) b
  obtain ⟨t₂, e₂, hroot₂, hc₂, hframe₂, hcol₂, hval₂⟩ := rbChangeChild_spec (t := ⟨t.node, h₁⟩)
    ht.root (repCtx_frame hrc fun a ha => hframe₁ a (by grind)) hnd.1 (by grind) x
  refine ⟨t₂, ?_, ⟨hroot₂, ?_, ?_⟩, ?_, ?_, hval₂.trans hval₁⟩
  · cases x with
    | nil => exact absurd rfl hx
    | node v _ _ =>
      simp only [setColored, top_node, Option.isSome_some, if_true] at e₁
      rw [top_node] at e₂ hln
      simp [rbEraseAugmented, hln, Links.child, hb, e₁, e₂, -Heap.rbSetParentColor_some]
  · exact rep_plug.mpr ⟨hc₂, rep_frame hx₁ fun a ha => hframe₂ a (by grind)⟩
  · rw [nodup_plug, List.nodup_append]
    grind
  · intro a ha
    exact (congrFun hcol₂ a).trans (htop₁ a ha)
  · intro a ha
    exact (congrFun hcol₂ a).trans (hother₁ a ha)

/-- A node with one child at most is red without children, black without children, or black with a
red child. -/
theorem thin_cases {col : A → Option Color} {k : ℕ} (h : Balanced col (join d r .nil x) b k) :
    (x = .nil ∧ (b = .red ∧ k = 0 ∨ b = .black ∧ k = 1)) ∨
      x ≠ .nil ∧ b = .black ∧ k = 1 ∧ Balanced col x .red 0 := by
  rcases h.of_join with ⟨rfl, -, hnil, hx⟩ | ⟨m, y, z, rfl, rfl, -, hnil, hx⟩
  · cases hnil
    cases hx
    exact Or.inl ⟨rfl, Or.inl ⟨rfl, rfl⟩⟩
  · cases hnil
    cases hx with
    | nil => exact Or.inl ⟨rfl, Or.inr ⟨rfl, rfl⟩⟩
    | red ha hl hr => exact Or.inr ⟨nofun, rfl, rfl, .red ha hl hr⟩

/-- After such a node has made way for its child, the tree is balanced, or a black node is missing
in its place. -/
theorem rebalance_spec {col : A → Option Color} {k : ℕ} {i : Color} (ht : Holds t (plug c x))
    (hc : Around t.heap.colors c i k) (hthin : Balanced col (join d r .nil x) b k)
    (htop : b = .black → ∀ a, top x = some a → t.heap.colors a = some .black)
    (hother : ∀ a ∈ inorder x, top x ≠ some a → t.heap.colors a = col a) :
    ((if (top x).isSome then none else if b = .black then parentOf none c else none) = none ∧
      RbHolds t (plug c x)) ∨
    ∃ f c', c = f :: c' ∧ x = .nil ∧ Around t.heap.colors (f :: c') i 1 ∧
      (if (top x).isSome then none else if b = .black then parentOf none c else none) =
        some f.addr := by
  rcases thin_cases hthin with ⟨rfl, ⟨rfl, rfl⟩ | ⟨rfl, rfl⟩⟩ | ⟨hne, rfl, rfl, hx⟩
  · exact Or.inl ⟨rfl, ht, hc.plug .nil (fits_black _)⟩
  · cases c with
    | nil => exact Or.inl ⟨rfl, ht, 0, .nil⟩
    | cons f c' => exact Or.inr ⟨f, c', rfl, rfl, hc, rfl⟩
  · have hnd := (List.nodup_append.mp (nodup_plug.mp ht.nodup)).2.1
    refine Or.inl ⟨?_, ht, hc.plug (hx.blacken hnd (htop rfl) hother) (fits_black _)⟩
    cases x with
    | nil => exact absurd rfl hne
    | node u _ _ => rfl

/-- The second half of `rb_erase`. -/
theorem rbErase_of {t₁ : Root A} {i : Color} {rebalance : Option A}
    (e : rbEraseAugmented fuel t (some n) = some (rebalance, t₁)) (ht₁ : Holds t₁ (plug c x))
    (hfuel : c.length ≤ fuel)
    (h : (rebalance = none ∧ RbHolds t₁ (plug c x)) ∨ ∃ f c', c = f :: c' ∧ x = .nil ∧
      Around t₁.heap.colors (f :: c') i 1 ∧ rebalance = some f.addr) :
    ∃ t' T', rbErase fuel t (some n) = some t' ∧ RbHolds t' T' ∧
      inorder T' = inorder (plug c x) ∧ t'.heap.values = t₁.heap.values := by
  rcases h with ⟨rfl, hrb⟩ | ⟨f, c', rfl, rfl, hc, rfl⟩
  · exact ⟨t₁, _, by simp [rbErase, e], hrb, rfl, rfl⟩
  · rw [List.length_cons] at hfuel
    obtain ⟨t', T', e', hrb, hin, hval⟩ := rbEraseColor_spec fuel ht₁ .nil hc (by omega)
    refine ⟨t', T', ?_, hrb, hin, hval⟩
    simpa [rbErase, e] using e'

/-- `rb_erase` takes its node out of a red-black tree and leaves a red-black tree of the others. -/
theorem rbErase_spec (ht : RbHolds t (plug c (.node n L R)))
    (hfuel : (plug c (.node n L R)).height ≤ fuel) :
    ∃ t' T', rbErase fuel t (some n) = some t' ∧ RbHolds t' T' ∧
      inorder T' = before c ++ (inorder L ++ inorder R) ++ after c ∧
      t'.heap.values = t.heap.values := by
  obtain ⟨m, hbal⟩ := ht.balanced
  obtain ⟨b, i, k, hn, hc, hfit⟩ := hbal.unplug
  have hb : t.heap.colors n = some b := hn.top_color rfl
  have hlen := length_le_height c (.node n L R)
  have hnd := nodup_plug.mp ht.nodup
  simp only [List.nodup_append, inorder_node, List.nodup_cons, List.mem_append,
    List.mem_cons] at hnd
  by_cases hL : L = .nil
  · subst hL
    obtain ⟨t₁, e₁, ht₁, htop₁, hother₁, hval₁⟩ := eraseRight_spec fuel ht.toHolds hb
    have hkeep : ∀ a, a ∈ addrs c → t₁.heap.colors a = t.heap.colors a := by
      intro a ha
      apply hother₁
      intro htop
      have hmem := top_mem htop
      grind
    obtain ⟨t', T', e', hrb, hin, hval⟩ := rbErase_of e₁ ht₁ (by omega)
      (rebalance_spec (d := .left) ht₁ (hc.congr hkeep) hn (fun hblack => hblack ▸ htop₁)
        fun a _ ha => hother₁ a ha)
    exact ⟨t', T', e', hrb, by rw [hin, inorder_plug, inorder_nil, List.nil_append],
      hval.trans hval₁⟩
  · by_cases hR : R = .nil
    · subst hR
      obtain ⟨t₁, e₁, ht₁, htop₁, hother₁, hval₁⟩ := eraseLeft_spec fuel ht.toHolds hL hb
      have hkeep : ∀ a, a ∈ addrs c → t₁.heap.colors a = t.heap.colors a := by
        intro a ha
        apply hother₁
        intro htop
        have hmem := top_mem htop
        grind
      have hthin : Balanced t.heap.colors (join .right n .nil L) b k := hn
      have hdone := rebalance_spec ht₁ (hc.congr hkeep) hthin (fun hblack => hblack ▸ htop₁)
        fun a _ ha => hother₁ a ha
      have hsome : (top L).isSome := by
        cases L with
        | nil => exact absurd rfl hL
        | node u _ _ => rfl
      rw [if_pos hsome] at hdone
      obtain ⟨t', T', e', hrb, hin, hval⟩ := rbErase_of e₁ ht₁ (by omega) hdone
      exact ⟨t', T', e', hrb, by rw [hin, inorder_plug, inorder_nil, List.append_nil],
        hval.trans hval₁⟩
    · rw [height] at hlen
      obtain ⟨c₂, r, x, t₁, rfl, hdir, e₁, ht₁, hr₁, hother₁, htop₁, hval₁⟩ :=
        eraseInner_spec fuel ht.toHolds hL hR hb (by omega)
      -- the surroundings of the successor before and after it takes the place of the node
      have hold : plug c (.node n L (plug c₂ (.node r .nil x))) =
          plug (c₂ ++ ⟨.right, n, L⟩ :: c) (.node r .nil x) := by
        rw [plug_append]
        rfl
      have hnew : plug c (.node r L (plug c₂ x)) = plug (c₂ ++ ⟨.right, r, L⟩ :: c) x := by
        rw [plug_append]
        rfl
      rw [hold] at hbal
      obtain ⟨e, j, l, hr, hC, hfitr⟩ := hbal.unplug
      have hre : t.heap.colors r = some e := hr.top_color rfl
      have hlen' := length_le_height (c₂ ++ ⟨.right, n, L⟩ :: c) (.node r .nil x)
      rw [← hold, height, List.length_append, List.length_cons] at hlen'
      simp only [mem_plug, inorder_node, inorder_nil, List.nil_append, List.mem_cons,
        nodup_plug, List.nodup_append, List.nodup_cons] at hnd
      have hkeep : ∀ a, a ≠ r → a ∉ inorder x → t₁.heap.colors a = t.heap.colors a :=
        fun a har hax => hother₁ a har fun htop => hax (top_mem htop)
      have hC' : Around t₁.heap.colors (c₂ ++ ⟨.right, r, L⟩ :: c) j l := by
        refine hC.replace (hr₁.trans hb.symm) (fun a ha => ?_) (fun a ha => ?_) fun a ha => ?_
        · exact hkeep a (by grind) (by grind)
        · exact hkeep a (by grind) (by grind)
        · exact hkeep a (by grind) (by grind)
      have hparent : parentOf (some r) c₂ = parentOf none (c₂ ++ ⟨.right, r, L⟩ :: c) := by
        rw [parentOf_append, parentOf_cons]
      rw [hnew] at ht₁
      simp only [hparent, hre, Option.some_inj] at e₁
      rw [← rbEraseAugmented_inner ht.toHolds hL hR] at e₁
      have hdone := rebalance_spec (d := .left) ht₁ hC' hr (fun _ => htop₁)
        fun a ha hax => hother₁ a (by grind) hax
      obtain ⟨t', T', e', hrb, hin, hval⟩ := rbErase_of e₁ ht₁
        (by rw [List.length_append, List.length_cons]; omega) hdone
      refine ⟨t', T', e', hrb, ?_, hval.trans hval₁⟩
      rw [hin, ← hnew]
      simp only [inorder_plug, inorder_node, inorder_nil, List.nil_append, before_left hdir,
        List.cons_append, List.append_assoc]

end LinuxSummer.Rbtree
