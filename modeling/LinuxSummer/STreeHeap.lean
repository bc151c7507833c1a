import LinuxSummer.STreeModel

/-! What the pointer writes of the S-tree do to the tree that the heap holds. -/
set_option linter.unusedSectionVars false

namespace LinuxSummer.STree
open BinaryTree LinkedTree
open scoped List

variable {A K : Type} [DecidableEq A]

namespace Heap

/-- The pointers of the allocated nodes. -/
def links (h : Heap A K) (a : A) : Option (Links A) := (h a).map Node.toLinks

/-- What the allocated nodes hold beside their pointers. -/
def data (h : Heap A K) (a : A) : Option (ℤ × K) := (h a).map fun n => (n.hint, n.key)

/-- The heap after a write to the pointers of `a`. -/
def relink (h : Heap A K) (a : A) (f : Links A → Links A) : Heap A K :=
  Function.update h a ((h a).map fun n => { n with toLinks := f n.toLinks })

variable {h : Heap A K} {a b : A} {d : Side} {p x : Option A}

@[simp] theorem child_some : h.child d (some a) = (h.links a).map (·.child d) := by
  simp [child, links, Function.comp_def]

@[simp] theorem parent_some : h.parent (some a) = (h.links a).map (·.parent) := by
  simp [parent, links, Function.comp_def]

@[simp] theorem hint_some : h.hint (some a) = (h.data a).map (·.1) := by
  simp [hint, data, Function.comp_def]

@[simp] theorem setChild_some :
    h.setChild d (some a) x = (h.links a).map fun _ => h.relink a fun k => k.setChild d x := by
  cases ha : h a <;> simp [setChild, modify, links, relink, ha]

@[simp] theorem setParent_some :
    h.setParent (some a) x = (h.links a).map fun _ => h.relink a fun k => { k with parent := x } := by
  cases ha : h a <;> simp [setParent, modify, links, relink, ha]

@[simp] theorem setParent_none : h.setParent none x = none := rfl

@[simp] theorem links_relink_self (f : Links A → Links A) :
    (h.relink a f).links a = (h.links a).map f := by
  simp [links, relink, Function.comp_def]

theorem links_relink_of_ne (f : Links A → Links A) (hb : b ≠ a) :
    (h.relink a f).links b = h.links b := by
  simp [links, relink, hb]

@[simp] theorem data_relink (f : Links A → Links A) : (h.relink a f).data = h.data := by
  funext b
  by_cases hb : b = a
  · subst hb
    simp [data, relink, Function.comp_def]
  · simp [data, relink, hb]

end Heap

variable {h : Heap A K} {a n l r : A} {d : Side} {q par : Option A} {c : Ctx A}
  {t x y z s : BinaryTree A}

theorem reparent_spec (hr : Rep h.links par t) (hnd : (inorder t).Nodup) (q : Option A) :
    ∃ h', reparent h (top t) q = some h' ∧ Rep h'.links q t ∧
      (∀ a, a ∉ inorder t → h'.links a = h.links a) ∧ h'.data = h.data := by
  cases t with
  | nil => exact ⟨h, rfl, trivial, fun _ _ => rfl, rfl⟩
  | node a l r =>
    refine ⟨h.relink a fun k => { k with parent := q }, ?_, ?_, ?_, Heap.data_relink _⟩
    · simp [reparent, hr.1]
    · refine rep_reparent hr hnd ?_ ?_
      · rintro b k ⟨⟩ hk
        simp [hk]
      · intro b _ hb
        exact Heap.links_relink_of_ne _ fun hba => hb (by simp [hba])
    · intro b hb
      exact Heap.links_relink_of_ne _ fun hba => hb (by simp [hba])

theorem setChildOf_spec {f : Frame A} (hc : RepCtx h.links par (f :: c) (some n))
    (hnd : (addrs (f :: c)).Nodup) (hn : n ∉ addrs (f :: c)) (q : Option A) :
    ∃ h', setChildOf h (some f.addr) (some n) q = some h' ∧
      RepCtx h'.links par (f :: c) q ∧
      (∀ a, a ∉ addrs (f :: c) → h'.links a = h.links a) ∧ h'.data = h.data := by
  refine ⟨h.relink f.addr fun k => k.setChild f.dir q, ?_, ?_, ?_, Heap.data_relink _⟩
  · obtain ⟨d, a, s⟩ := f
    have hk := hc.1
    cases d with
    | left => simp_all [setChildOf, Links.of, Links.child]
    | right =>
      have hs : top s ≠ some n := fun hs => hn (by simp [addrs, top_mem hs])
      simp_all [setChildOf, Links.of, Links.child]
  · refine repCtx_rewire hc hnd (by simp [hc.1]) fun b hb => ?_
    exact Heap.links_relink_of_ne _ hb
  · intro b hb
    exact Heap.links_relink_of_ne _ fun hba => hb (by simp [hba, addrs])

theorem repoint_spec (hc : RepCtx h.links none c (some n)) (hnd : (addrs c).Nodup)
    (hn : n ∉ addrs c) (q : Option A) :
    ∃ h', repoint h (parentOf none c) (some n) q = some h' ∧ RepCtx h'.links none c q ∧
      (∀ a, a ∉ addrs c → h'.links a = h.links a) ∧ h'.data = h.data := by
  cases c with
  | nil => exact ⟨h, rfl, trivial, fun _ _ => rfl, rfl⟩
  | cons f c => exact setChildOf_spec hc hnd hn q

theorem stRotate_spec (hr : Rep h.links none (plug c (join d n (join d l x y) z)))
    (hnd : (inorder (plug c (join d n (join d l x y) z))).Nodup) :
    ∃ h', stRotate d h (some n) = some h' ∧
      Rep h'.links none (plug c (join d l x (join d.flip n z y))) ∧ h'.data = h.data := by
  rw [rep_plug] at hr
  obtain ⟨hc, ht⟩ := hr
  obtain ⟨hn, ht, hz⟩ := rep_join.mp ht
  obtain ⟨hl, hx, hy⟩ := rep_join.mp ht
  rw [top_join] at hc hn
  have hnd' : (addrs c ++ (n :: (l :: inorder x ++ inorder y) ++ inorder z)).Nodup := by
    refine (List.Perm.nodup_iff ?_).mp hnd
    refine (inorder_plug_perm _ _).trans (List.Perm.append_left _ ?_)
    refine inorder_join_perm.trans ?_
    exact (inorder_join_perm.append_right _).cons n
  simp only [List.nodup_append, List.nodup_cons, List.mem_append, List.mem_cons] at hnd'
  have hnl : n ≠ l := by grind
  let h₁ := (((h.relink l fun k => { k with parent := parentOf none c }).relink n
    fun k => k.setChild d (top y)).relink n fun k => { k with parent := some l }).relink l
    fun k => k.setChild d.flip (some n)
  have hexec : stRotate d h (some n) =
      (repoint h₁ (parentOf none c) (some n) (some l)).bind fun h₂ =>
        (h₂.child d (some n)).bind fun y => reparent h₂ y (some n) := by
    simp [stRotate, hn, hl, hnl, hnl.symm, Heap.links_relink_of_ne, h₁]
  have hn₁ : h₁.links n = some (.of d (some l) (top y) (top z)) := by
    simp [h₁, hn, hnl, Heap.links_relink_of_ne]
  have hl₁ : h₁.links l = some (.of d (parentOf none c) (top x) (some n)) := by
    simp [h₁, hl, hnl.symm, Heap.links_relink_of_ne]
  have hframe₁ : ∀ a, a ≠ n → a ≠ l → h₁.links a = h.links a := by
    intro a han hal
    simp [h₁, han, hal, Heap.links_relink_of_ne]
  have hd₁ : h₁.data = h.data := by simp [h₁]
  obtain ⟨h₂, e₂, hc₂, hframe₂, hd₂⟩ := repoint_spec
    (repCtx_frame hc fun a ha => hframe₁ a (by grind) (by grind)) (by grind) (by grind) (some l)
  have hy₂ : Rep h₂.links (some l) y := by
    refine rep_frame hy fun a ha => ?_
    rw [hframe₂ a (by grind), hframe₁ a (by grind) (by grind)]
  obtain ⟨h₃, e₃, hy₃, hframe₃, hd₃⟩ := reparent_spec hy₂ (by grind) (some n)
  have hn₂ : h₂.links n = some (.of d (some l) (top y) (top z)) := by
    rw [hframe₂ n (by grind), hn₁]
  refine ⟨h₃, ?_, ?_, by rw [hd₃, hd₂, hd₁]⟩
  · rw [hexec, e₂]
    simp [hn₂, e₃]
  · rw [rep_plug, rep_join, rep_join, top_join, top_join, Links.of_flip]
    refine ⟨repCtx_frame hc₂ fun a ha => hframe₃ a (by grind), ?_, ?_, ?_, ?_, hy₃⟩
    · rw [hframe₃ l (by grind), hframe₂ l (by grind), hl₁]
    · refine rep_frame hx fun a ha => ?_
      rw [hframe₃ a (by grind), hframe₂ a (by grind), hframe₁ a (by grind) (by grind)]
    · rw [hframe₃ n (by grind), hn₂]
    · refine rep_frame hz fun a ha => ?_
      rw [hframe₃ a (by grind), hframe₂ a (by grind), hframe₁ a (by grind) (by grind)]

/-- The last writes of a replacement: `r`, whose subtrees are `t` and `s`, is hung in the place of
`n`, and `s` gets it as its parent. -/
theorem attach_spec (hc : RepCtx h.links none c (some n)) (ht : Rep h.links (some r) t)
    (hs : Rep h.links (some n) s) {x : Option A} (hn : h.links n = some (.of d q x (top s)))
    (hr : h.links r = some (.of d (parentOf none c) (top t) (top s)))
    (hnd : (addrs c ++ (n :: r :: (inorder t ++ inorder s))).Nodup) :
    ∃ h', ((repoint h (parentOf none c) (some n) (some r)).bind fun h' =>
        (h'.child d.flip (some n)).bind fun y => reparent h' y (some r)) = some h' ∧
      Rep h'.links none (plug c (join d r t s)) ∧ h'.data = h.data := by
  simp only [List.nodup_append, List.nodup_cons, List.mem_append, List.mem_cons] at hnd
  obtain ⟨h₁, e₁, hc₁, hframe₁, hd₁⟩ := repoint_spec hc (by grind) (by grind) (some r)
  have hs₁ : Rep h₁.links (some n) s := rep_frame hs fun a ha => hframe₁ a (by grind)
  obtain ⟨h₂, e₂, hs₂, hframe₂, hd₂⟩ := reparent_spec hs₁ (by grind) (some r)
  have hn₁ : h₁.links n = some (.of d q x (top s)) := by rw [hframe₁ n (by grind), hn]
  refine ⟨h₂, ?_, ?_, by rw [hd₂, hd₁]⟩
  · simp [e₁, hn₁, e₂]
  · rw [rep_plug, rep_join, top_join]
    refine ⟨repCtx_frame hc₁ fun a ha => hframe₂ a (by grind), ?_, ?_, hs₂⟩
    · rw [hframe₂ r (by grind), hframe₁ r (by grind), hr]
    · refine rep_frame ht fun a ha => ?_
      rw [hframe₂ a (by grind), hframe₁ a (by grind)]

/-- `st_replace_right` and `st_replace_left` when `r` is the child of `n`. -/
theorem stReplace_child (hr : Rep h.links none (plug c (join d n (join d.flip r .nil x) s)))
    (hnd : (inorder (plug c (join d n (join d.flip r .nil x) s))).Nodup) :
    ∃ h', stReplace d h (some n) (some r) = some h' ∧
      Rep h'.links none (plug c (join d r x s)) ∧ h'.data = h.data := by
  obtain ⟨hc, ht⟩ := rep_plug.mp hr
  obtain ⟨hn, ht, hs⟩ := rep_join.mp ht
  obtain ⟨hr, -, hx⟩ := rep_join.mp ht
  rw [top_join] at hc hn
  have hnd' : (addrs c ++ (n :: (r :: inorder x) ++ inorder s)).Nodup := by
    refine (List.Perm.nodup_iff ?_).mp hnd
    refine (inorder_plug_perm _ _).trans (List.Perm.append_left _ ?_)
    refine inorder_join_perm.trans ?_
    exact (inorder_join_perm.append_right _).cons n
  have hnd₁ : (addrs c ++ (n :: r :: (inorder x ++ inorder s))).Nodup := by
    simpa only [List.cons_append] using hnd'
  simp only [List.nodup_append, List.nodup_cons, List.mem_append, List.mem_cons] at hnd'
  have hnr : n ≠ r := by grind
  have hpn : parentOf none c ≠ some n := fun h => by
    rcases parentOf_mem h with h | h <;> grind
  have hsr : top s ≠ some r := fun hs => by
    have := top_mem hs
    grind
  let h₁ := (h.relink r fun k => { k with parent := parentOf none c }).relink r
    fun k => k.setChild d.flip (top s)
  have hexec : stReplace d h (some n) (some r) =
      (repoint h₁ (parentOf none c) (some n) (some r)).bind fun h' =>
        (h'.child d.flip (some n)).bind fun y => reparent h' y (some r) := by
    simp [stReplace, hn, hr, hnr, hnr.symm, Heap.links_relink_of_ne, hpn, hsr, h₁, Links.of_flip]
  have hframe : ∀ a, a ≠ r → h₁.links a = h.links a := by
    intro a ha
    simp [h₁, ha, Heap.links_relink_of_ne]
  have hr₁ : h₁.links r = some (.of d (parentOf none c) (top x) (top s)) := by
    simp [h₁, hr, Links.of_flip]
  obtain ⟨h₂, e₂, hrep, hd⟩ := attach_spec
    (repCtx_frame hc fun a ha => hframe a (by grind))
    (rep_frame hx fun a ha => hframe a (by grind))
    (rep_frame hs fun a ha => hframe a (by grind))
    ((hframe n hnr).trans hn) hr₁ hnd₁
  exact ⟨h₂, by rw [hexec, e₂], hrep, by rw [hd]; simp [h₁]⟩

/-- Taking the end `r` of a subtree out of it: its own subtree takes its place. -/
theorem unlink_spec {f : Frame A} {c₂ : Ctx A} (hc : RepCtx h.links par (f :: c₂) (some r))
    (hx : Rep h.links (some r) x) (hnd : (addrs (f :: c₂) ++ inorder x).Nodup) :
    ∃ h', reparent (h.relink f.addr fun k => k.setChild f.dir (top x)) (top x) (some f.addr) =
        some h' ∧
      Rep h'.links par (plug (f :: c₂) x) ∧
      (∀ a, a ∉ inorder (plug (f :: c₂) x) → h'.links a = h.links a) ∧ h'.data = h.data := by
  simp only [List.nodup_append] at hnd
  have hfa : f.addr ∈ addrs (f :: c₂) := List.mem_cons_self ..
  have hframe : ∀ a, a ≠ f.addr →
      (h.relink f.addr fun k => k.setChild f.dir (top x)).links a = h.links a :=
    fun a ha => Heap.links_relink_of_ne _ ha
  have hc₁ : RepCtx (h.relink f.addr fun k => k.setChild f.dir (top x)).links par (f :: c₂)
      (top x) := repCtx_rewire hc hnd.1 (by simp [hc.1]) hframe
  obtain ⟨h', e, hx', hframe', hd⟩ := reparent_spec
    (rep_frame hx fun a ha => hframe a (by grind)) hnd.2.1 (some f.addr)
  refine ⟨h', e, rep_plug.mpr ⟨repCtx_frame hc₁ fun a ha => hframe' a (by grind), hx'⟩, ?_, ?_⟩
  · intro a ha
    rw [mem_plug, not_or] at ha
    rw [hframe' a ha.2, hframe a (by grind)]
  · rw [hd, Heap.data_relink]

/-- `if (st_parent(rp) == n) st_parent(rp) = r;` leaves the subtree around `rp` as it is, up to
the parent of its root. -/
theorem reparent_if_spec {f : Frame A} {c₂ : Ctx A}
    (ht : Rep h.links (some n) (plug (f :: c₂) x)) (hnd : (inorder (plug (f :: c₂) x)).Nodup)
    (hn : n ∉ inorder (plug (f :: c₂) x)) (r : A) :
    ∃ h' q, (if (parentOf (some n) c₂) = some n then h.setParent (some f.addr) (some r)
        else pure h) = some h' ∧
      Rep h'.links q (plug (f :: c₂) x) ∧
      (∀ a, a ∉ inorder (plug (f :: c₂) x) → h'.links a = h.links a) ∧ h'.data = h.data := by
  cases c₂ with
  | nil =>
    obtain ⟨h', e, ht', hframe, hd⟩ := reparent_spec ht hnd (some r)
    refine ⟨h', some r, ?_, ht', hframe, hd⟩
    simpa [reparent, plug, parentOf] using e
  | cons g c₂ =>
    have hg : g.addr ≠ n := by
      rintro rfl
      exact hn (mem_plug.mpr (Or.inl (by simp [addrs])))
    exact ⟨h, some n, by simp [parentOf, hg], ht, fun _ _ => rfl, rfl⟩

/-- `st_replace_right` and `st_replace_left` when `r` lies below the child of `n`. -/
theorem stReplace_below {f : Frame A} {c₂ : Ctx A} (hf : f.dir = d.flip)
    (hr : Rep h.links none (plug c (join d n (plug (f :: c₂) (join d.flip r .nil x)) s)))
    (hnd : (inorder (plug c (join d n (plug (f :: c₂) (join d.flip r .nil x)) s))).Nodup) :
    ∃ h', stReplace d h (some n) (some r) = some h' ∧
      Rep h'.links none (plug c (join d r (plug (f :: c₂) x) s)) ∧ h'.data = h.data := by
  obtain ⟨hc, ht⟩ := rep_plug.mp hr
  obtain ⟨hn, ht, hs⟩ := rep_join.mp ht
  obtain ⟨hc₂, ht⟩ := rep_plug.mp ht
  obtain ⟨hr, -, hx⟩ := rep_join.mp ht
  have hnd' : (addrs c ++ (n :: r :: (addrs (f :: c₂) ++ inorder x ++ inorder s))).Nodup := by
    have hp : inorder (plug (f :: c₂) (join d.flip r .nil x)) ~
        r :: (addrs (f :: c₂) ++ inorder x) :=
      (inorder_plug_perm _ _).trans ((inorder_join_perm.append_left _).trans List.perm_middle)
    refine (List.Perm.nodup_iff ?_).mp hnd
    refine (inorder_plug_perm _ _).trans (List.Perm.append_left _ ?_)
    exact inorder_join_perm.trans ((hp.append_right (inorder s)).cons n)
  have hnd₁ : (addrs c ++ (n :: r :: (inorder (plug (f :: c₂) x) ++ inorder s))).Nodup := by
    refine (List.Perm.nodup_iff (List.Perm.append_left _ ?_)).mpr hnd'
    exact (((inorder_plug_perm _ _).append_right _).cons r).cons n
  rw [top_join] at hc hc₂
  rw [top_plug (List.cons_ne_nil f c₂) _ x] at hn
  have hrn : top (plug (f :: c₂) x) ≠ some r := fun h => by
    have := top_mem h
    grind [List.nodup_append, List.nodup_cons]
  have hfx : f.addr ∈ inorder (plug (f :: c₂) x) := mem_plug.mpr (Or.inl (List.mem_cons_self ..))
  have hxm : (top (plug (f :: c₂) x)).isSome := by
    cases hxp : plug (f :: c₂) x with
    | nil => simp [hxp] at hfx
    | node a l r => rfl
  clear hnd
  obtain ⟨h₁, e₁, ht₁, hframe₁, hd₁⟩ := unlink_spec hc₂ hx (by grind [List.nodup_append, List.nodup_cons])
  simp only [List.nodup_append, List.nodup_cons, List.mem_append, List.mem_cons] at hnd₁
  obtain ⟨h₂, q, e₂, ht₂, hframe₂, hd₂⟩ := reparent_if_spec ht₁ (by grind) (by grind) r
  have hframe : ∀ a, a ∉ inorder (plug (f :: c₂) x) → h₂.links a = h.links a :=
    fun a ha => (hframe₂ a ha).trans (hframe₁ a ha)
  -- `r` gets the place of `n`
  let h₃ := ((h₂.relink r fun k => { k with parent := parentOf none c }).relink r
    fun k => k.setChild d.flip (top s)).relink r fun k => k.setChild d (top (plug (f :: c₂) x))
  have hframe₃ : ∀ a, a ≠ r → h₃.links a = h₂.links a := by
    intro a ha
    simp [h₃, ha, Heap.links_relink_of_ne]
  obtain ⟨h₄, e₄, ht₄, hframe₄, hd₄⟩ := reparent_spec
    (rep_frame ht₂ fun a ha => hframe₃ a (by grind)) (by grind) (some r)
  have hframe' : ∀ a, a ∉ inorder (plug (f :: c₂) x) → a ≠ r → h₄.links a = h.links a :=
    fun a ha har => (hframe₄ a ha).trans ((hframe₃ a har).trans (hframe a ha))
  have hr₂ : h₂.links r = some (.of d (some f.addr) (top x) none) := by
    rw [hframe r (by grind), hr, Links.of_flip]
    rfl
  have hn₂ : h₂.links n = some (.of d (parentOf none c) (top (plug (f :: c₂) x)) (top s)) := by
    rw [hframe n (by grind), hn]
  have hr₄ : h₄.links r = some (.of d (parentOf none c) (top (plug (f :: c₂) x)) (top s)) := by
    rw [hframe₄ r (by grind)]
    simp [h₃, hr₂]
  have hn₄ : h₄.links n = some (.of d (parentOf none c) (top (plug (f :: c₂) x)) (top s)) := by
    rw [hframe' n (by grind) (by grind), hn]
  have hnr : n ≠ r := by grind
  have hfr : f.addr ≠ r := by grind
  have hexec : stReplace d h (some n) (some r) =
      (repoint h₄ (parentOf none c) (some n) (some r)).bind fun h' =>
        (h'.child d.flip (some n)).bind fun y => reparent h' y (some r) := by
    have hfc := hc₂.1
    have hf₁ := (rep_plug.mp ht₁).1.1
    rw [hf] at hfc hf₁ e₁
    rw [Links.of_flip] at hr
    have e₄' : h₃.setParent (top (plug (f :: c₂) x)) (some r) = some h₄ := by
      simpa [reparent, hxm] using e₄
    by_cases hp : parentOf (some n) c₂ = some n
    · simp only [hp, if_true, Heap.setParent_some, hf₁, Option.map_some, Option.some.injEq] at e₂
      simp [stReplace, hn, hr, hfc, hfr.symm, Heap.links_relink_of_ne, e₁, hf₁, hp, e₂, hn₂, hr₂, hnr, hrn, h₃, e₄']
    · simp only [hp, if_false, Option.pure_def, Option.some.injEq] at e₂
      subst e₂
      simp [stReplace, hn, hr, hfc, hfr.symm, Heap.links_relink_of_ne, e₁, hf₁, hp, hn₂, hr₂, hnr, hrn, h₃, e₄']
  obtain ⟨h₅, e₅, hrep, hd₅⟩ := attach_spec
    (repCtx_frame hc fun a ha => hframe' a (by grind) (by grind)) ht₄
    (rep_frame hs fun a ha => hframe' a (by grind) (by grind)) hn₄ hr₄
    (by simp only [List.nodup_append, List.nodup_cons, List.mem_append, List.mem_cons]; grind)
  refine ⟨h₅, by rw [hexec, e₅], hrep, ?_⟩
  rw [hd₅, hd₄]
  simp [h₃, hd₂, hd₁]
end LinuxSummer.STree
