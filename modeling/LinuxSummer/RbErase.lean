import LinuxSummer.RbHeap
import LinuxSummer.STreeUpdate

/-! `____rb_erase_color` keeps the order of the nodes and makes the tree balanced again. -/
set_option linter.unusedSectionVars false

namespace LinuxSummer.Rbtree
open BinaryTree LinkedTree RedBlack
open scoped List

variable {A : Type} [DecidableEq A] {t : Root A} {h : Heap A} {a p n m : A} {d : Side}
  {par q r : Option A} {c : Ctx A} {s v w x y z : BinaryTree A} {b : Color}

/-- Case 1: the sibling `n` is red. It takes the place of the parent, and its inner subtree `y`
becomes the new sibling. -/
theorem eraseCase1_spec (ht : Holds t (plug c (join d p s (join d n y z)))) (hy : y ≠ .nil)
    (hblack : ∀ a, top y = some a → t.heap.colors a = some .black)
    (hb : t.heap.colors p = some b) :
    ∃ t', eraseCase1 d t (some p) (some n) = some (top y, t') ∧
      Holds t' (plug c (join d n (join d p s y) z)) ∧
      t'.heap.colors = Function.update (Function.update t.heap.colors n (some b)) p (some .red) ∧
      t'.heap.values = t.heap.values := by
  obtain ⟨hrc, hrp⟩ := rep_plug.mp ht.rep
  obtain ⟨hlp, hrs, hrn⟩ := rep_join.mp hrp
  obtain ⟨hln, hry, hrz⟩ := rep_join.mp hrn
  rw [top_join] at hrc hlp
  have hnd : (addrs c ++ (p :: n :: (inorder z ++ inorder y ++ inorder s))).Nodup := by
    refine (List.Perm.nodup_iff ?_).mp ht.nodup
    apply (inorder_plug_perm _ _).trans
    apply List.Perm.append_left
    simp only [List.perm_iff_count, inorder_join_perm.count_eq, List.count_cons,
      List.count_append]
    intro a
    omega
  have hnd' := hnd
  simp only [List.nodup_append, List.nodup_cons, List.mem_append, List.mem_cons] at hnd
  have hpn : p ≠ n := by grind
  let h₁ := (t.heap.write p (·.setChild d.flip (top y)) id).write n (·.setChild d (some p)) id
  have hp₁ : h₁.links p = some (.of d (parentOf none c) (top s) (top y)) := by
    simp [h₁, hlp, hpn, Heap.links_write_of_ne]
  have hn₁ : h₁.links n = some (.of d (some p) (some p) (top z)) := by
    simp [h₁, hln, hpn.symm, Heap.links_write_of_ne]
  have hframe₁ : ∀ a, a ≠ p → a ≠ n → h₁.links a = t.heap.links a := by
    intro a hap han
    simp [h₁, hap, han, Heap.links_write_of_ne]
  have hcol₁ : h₁.colors = t.heap.colors := by simp [h₁]
  have hy₁ : Rep h₁.links (some n) y := rep_frame hry fun a ha => hframe₁ a (by grind) (by grind)
  obtain ⟨h₂, e₂, hy₂, hframe₂, hcol₂, hval₂⟩ := setColored_black hy₁ (by grind)
    (fun a ha => by rw [hcol₁, hblack a ha]) (some p)
  have hframe : ∀ a, a ∉ inorder y → a ≠ p → a ≠ n → h₂.links a = t.heap.links a :=
    fun a hay hap han => (hframe₂ a hay).trans (hframe₁ a hap han)
  have hp₂ := (hframe₂ p (by grind)).trans hp₁
  have hn₂ := (hframe₂ n (by grind)).trans hn₁
  rw [← Links.of_flip] at hp₂ hn₂
  obtain ⟨t', e', hrep, hcol', hval'⟩ := rbRotateSetParents_spec (t := ⟨t.node, h₂⟩) ht.root
    (repCtx_frame hrc fun a ha => hframe a (by grind) (by grind) (by grind)) hp₂ hn₂
    (rep_frame hrz fun a ha => hframe a (by grind) (by grind) (by grind)) hy₂
    (rep_frame hrs fun a ha => hframe a (by grind) (by grind) (by grind)) hnd'
    ((congrFun (hcol₂.trans hcol₁) p).trans hb) .red
  rw [STree.join_flip, Side.flip_flip] at hrep
  refine ⟨t', ?_, hrep, by rw [hcol', hcol₂, hcol₁], ?_⟩
  · obtain ⟨u, hu⟩ : ∃ u, top y = some u := by
      cases y with
      | nil => exact absurd rfl hy
      | node u _ _ => exact ⟨u, rfl⟩
    have e₂' : rbSetParentColor h₁ (top y) (some p) .black = some h₂ := by
      simpa only [setColored, hu, Option.isSome_some, if_true] using e₂
    simp only [eraseCase1, Heap.child_some, hln, Option.map_some, Links.child_of,
      Heap.setChild_some, hlp, Option.bind_eq_bind, Option.bind_some,
      Heap.links_write_of_ne _ _ hpn.symm]
    rw [show rbSetParentColor _ (top y) (some p) .black = some h₂ from e₂', Option.bind_some, e']
    rfl
  · rw [hval', hval₂]
    simp [h₁]

/-- `if (n) rb_set_parent(n, q);` gives a subtree another parent. -/
theorem setParentIf_spec (hr : Rep h.links par y) (hnd : (inorder y).Nodup) (q : Option A) :
    ∃ h', setParentIf h (top y) q = some h' ∧ Rep h'.links q y ∧
      (∀ a, a ∉ inorder y → h'.links a = h.links a) ∧ h'.colors = h.colors ∧
      h'.values = h.values := by
  cases y with
  | nil => exact ⟨h, rfl, trivial, fun _ _ => rfl, rfl, rfl⟩
  | node a l r =>
    refine ⟨h.write a (fun k => { k with parent := q }) id, by simp [setParentIf, hr.1], ?_, ?_,
      Heap.colors_write_id _, Heap.values_write _ _⟩
    · apply rep_reparent hr hnd
      · rintro u k ⟨⟩ hk
        simp [hk]
      · intro u _ hu
        exact Heap.links_write_of_ne _ _ fun hua => hu (by simp [hua])
    · intro u hu
      exact Heap.links_write_of_ne _ _ fun hua => hu (by simp [hua])

/-- Case 4: the sibling `n` takes the place and the color of the parent, which becomes black like
the root `m` of the outer subtree `z`. -/
theorem eraseCase4_spec (ht : t.node = top (plug c x)) (hrc : RepCtx t.heap.links none c (some p))
    (hp : t.heap.links p = some (.of d (parentOf none c) (top s) r))
    (hn : t.heap.links n = some (.of d q (top y) (top z))) (hm : top z = some m)
    (hs : Rep t.heap.links (some p) s) (hy : Rep t.heap.links (some n) y)
    (hz : Rep t.heap.links par z)
    (hnd : (addrs c ++ (p :: n :: (inorder z ++ inorder y ++ inorder s))).Nodup)
    (hb : t.heap.colors p = some b) :
    ∃ t', eraseCase4 d t (some p) (some n) (top z) = some t' ∧
      Holds t' (plug c (join d n (join d p s y) z)) ∧
      t'.heap.colors = Function.update (Function.update
        (Function.update t.heap.colors m (some .black)) n (some b)) p (some .black) ∧
      t'.heap.values = t.heap.values := by
  have hnd' := hnd
  have hmz := top_mem hm
  simp only [List.nodup_append, List.nodup_cons, List.mem_append, List.mem_cons] at hnd
  have hpn : p ≠ n := by grind
  let h₁ := (t.heap.write p (·.setChild d.flip (top y)) id).write n (·.setChild d (some p)) id
  have hp₁ : h₁.links p = some (.of d (parentOf none c) (top s) (top y)) := by
    simp [h₁, hp, hpn, Heap.links_write_of_ne]
  have hn₁ : h₁.links n = some (.of d q (some p) (top z)) := by
    simp [h₁, hn, hpn.symm, Heap.links_write_of_ne]
  have hframe₁ : ∀ a, a ≠ p → a ≠ n → h₁.links a = t.heap.links a := by
    intro a hap han
    simp [h₁, hap, han, Heap.links_write_of_ne]
  have hcol₁ : h₁.colors = t.heap.colors := by simp [h₁]
  have hz₁ : Rep h₁.links par z := rep_frame hz fun a ha => hframe₁ a (by grind) (by grind)
  obtain ⟨h₂, e₂, hz₂, hframe₂, hother₂, htop₂, hval₂⟩ :=
    setColored_spec hz₁ (by grind) (some n) .black
  have hcol₂ : h₂.colors = Function.update t.heap.colors m (some .black) := by
    funext a
    by_cases ha : a = m
    · rw [ha, htop₂ m hm, Function.update_self]
    · rw [Function.update_of_ne ha, hother₂ a (by rw [hm]; simpa using Ne.symm ha), hcol₁]
  have hframe₂' : ∀ a, a ∉ inorder z → a ≠ p → a ≠ n → h₂.links a = t.heap.links a :=
    fun a haz hap han => (hframe₂ a haz).trans (hframe₁ a hap han)
  have hy₂ : Rep h₂.links (some n) y :=
    rep_frame hy fun a ha => hframe₂' a (by grind) (by grind) (by grind)
  obtain ⟨h₃, e₃, hy₃, hframe₃, hcol₃, hval₃⟩ := setParentIf_spec hy₂ (by grind) (some p)
  have hframe : ∀ a, a ∉ inorder y → a ∉ inorder z → a ≠ p → a ≠ n →
      h₃.links a = t.heap.links a :=
    fun a hay haz hap han => (hframe₃ a hay).trans (hframe₂' a haz hap han)
  have hp₃ := (hframe₃ p (by grind)).trans ((hframe₂ p (by grind)).trans hp₁)
  have hn₃ := (hframe₃ n (by grind)).trans ((hframe₂ n (by grind)).trans hn₁)
  rw [← Links.of_flip] at hp₃ hn₃
  obtain ⟨t', e', hrep, hcol', hval'⟩ := rbRotateSetParents_spec (t := ⟨t.node, h₃⟩) (b := b) ht
    (repCtx_frame hrc fun a ha => hframe a (by grind) (by grind) (by grind) (by grind)) hp₃ hn₃
    (rep_frame hz₂ fun a ha => hframe₃ a (by grind)) hy₃
    (rep_frame hs fun a ha => hframe a (by grind) (by grind) (by grind) (by grind)) hnd'
    (by rw [hcol₃, hcol₂, Function.update_of_ne (by grind), hb]) .black
  rw [STree.join_flip, Side.flip_flip] at hrep
  refine ⟨t', ?_, hrep, by rw [hcol', hcol₃, hcol₂], ?_⟩
  · have e₂' : rbSetParentColor h₁ (top z) (some n) .black = some h₂ := by
      simpa only [setColored, hm, Option.isSome_some, if_true] using e₂
    simp only [eraseCase4, Heap.child_some, hn, Option.map_some, Links.child_of,
      Heap.setChild_some, hp, Option.bind_eq_bind, Option.bind_some,
      Heap.links_write_of_ne _ _ hpn.symm]
    rw [show rbSetParentColor _ (top z) (some n) .black = some h₂ from e₂', Option.bind_some, e₃,
      Option.bind_some, e']
  · rw [hval', hval₃, hval₂]
    simp [h₁]

/-- Case 3: the inner child `m` of the sibling `n` is put between the parent and the sibling. -/
theorem eraseCase3_spec (hp : h.links p = some (.of d par q (some n)))
    (hn : h.links n = some (.of d (some p) (some m) (top z)))
    (hm : h.links m = some (.of d (some n) (top v) (top w))) (hz : Rep h.links (some n) z)
    (hv : Rep h.links (some m) v) (hw : Rep h.links (some m) w)
    (hnd : (p :: n :: m :: (inorder z ++ inorder v ++ inorder w)).Nodup)
    (hblack : ∀ a, top w = some a → h.colors a = some .black) :
    ∃ h', eraseCase3 d h (some p) (some n) (some m) = some h' ∧
      h'.links p = some (.of d par q (some m)) ∧
      h'.links m = some (.of d (some n) (top v) (some n)) ∧
      Rep h'.links (some p) (join d n w z) ∧ Rep h'.links (some m) v ∧
      (∀ a, a ≠ p → a ≠ m → a ∉ inorder (join d n w z) → h'.links a = h.links a) ∧
      h'.colors = h.colors ∧ h'.values = h.values := by
  simp only [List.nodup_cons, List.nodup_append, List.mem_cons, List.mem_append] at hnd
  have hpn : p ≠ n := by grind
  have hpm : p ≠ m := by grind
  have hnm : n ≠ m := by grind
  let h₁ := ((h.write n (·.setChild d (top w)) id).write m (·.setChild d.flip (some n)) id).write p
    (·.setChild d.flip (some m)) id
  have hp₁ : h₁.links p = some (.of d par q (some m)) := by
    simp [h₁, hp, hpn, hpm, Heap.links_write_of_ne]
  have hn₁ : h₁.links n = some (.of d (some p) (top w) (top z)) := by
    simp [h₁, hn, hpn.symm, hnm, Heap.links_write_of_ne]
  have hm₁ : h₁.links m = some (.of d (some n) (top v) (some n)) := by
    simp [h₁, hm, hpm.symm, hnm.symm, Heap.links_write_of_ne]
  have hframe₁ : ∀ a, a ≠ p → a ≠ n → a ≠ m → h₁.links a = h.links a := by
    intro a hap han ham
    simp [h₁, hap, han, ham, Heap.links_write_of_ne]
  have hcol₁ : h₁.colors = h.colors := by simp [h₁]
  have hw₁ : Rep h₁.links (some m) w :=
    rep_frame hw fun a ha => hframe₁ a (by grind) (by grind) (by grind)
  obtain ⟨h₂, e₂, hw₂, hframe₂, hcol₂, hval₂⟩ := setColored_black hw₁ (by grind)
    (fun a ha => by rw [hcol₁, hblack a ha]) (some n)
  have hframe : ∀ a, a ∉ inorder w → a ≠ p → a ≠ n → a ≠ m → h₂.links a = h.links a :=
    fun a haw hap han ham => (hframe₂ a haw).trans (hframe₁ a hap han ham)
  refine ⟨h₂, ?_, (hframe₂ p (by grind)).trans hp₁, (hframe₂ m (by grind)).trans hm₁, ?_, ?_, ?_,
    hcol₂.trans hcol₁, ?_⟩
  · simp only [eraseCase3, Heap.child_some, hm, Option.map_some, Links.child_flip_of,
      Heap.setChild_some, hn, hp, Option.bind_eq_bind, Option.bind_some,
      Heap.links_write_of_ne _ _ hnm.symm, Heap.links_write_of_ne _ _ hpm,
      Heap.links_write_of_ne _ _ hpn]
    exact e₂
  · refine rep_join.mpr ⟨(hframe₂ n (by grind)).trans hn₁, hw₂, ?_⟩
    exact rep_frame hz fun a ha => hframe a (by grind) (by grind) (by grind) (by grind)
  · exact rep_frame hv fun a ha => hframe a (by grind) (by grind) (by grind) (by grind)
  · intro a hap ham ha
    rw [mem_join, not_or, not_or] at ha
    exact hframe a ha.2.1 hap ha.1 ham
  · rw [hval₂]
    simp [h₁]

section Black
variable {k : ℕ} {i e : Color}

/-- The nodes that a rotation at `p` moves. -/
theorem sibling_perm : inorder (plug c (join d p s (join d n y z))) ~
    addrs c ++ (p :: n :: (inorder z ++ inorder y ++ inorder s)) := by
  apply (inorder_plug_perm _ _).trans
  apply List.Perm.append_left
  simp only [List.perm_iff_count, inorder_join_perm.count_eq, List.count_cons, List.count_append]
  intro a
  omega

/-- The far child of the black sibling is red: case 4 ends the loop. -/
theorem erase_far (ht : Holds t (plug c (join d p s (join d n y z))))
    (hs : Balanced t.heap.colors s .black k) (hy : Balanced t.heap.colors y e k)
    (hz : Balanced t.heap.colors z .red k) (hb : t.heap.colors p = some b)
    (hc : Around t.heap.colors c i (levels b (k + 1))) (hfit : Fits b i) :
    ∃ t', eraseCase4 d t (some p) (some n) (top z) = some t' ∧
      RbHolds t' (plug c (join d n (join d p s y) z)) ∧ t'.heap.values = t.heap.values := by
  obtain ⟨hrc, hrp⟩ := rep_plug.mp ht.rep
  obtain ⟨hlp, hrs, hrn⟩ := rep_join.mp hrp
  obtain ⟨hln, hry, hrz⟩ := rep_join.mp hrn
  rw [top_join] at hrc
  obtain ⟨m, u, v, hm⟩ := hz.exists_join .left (Or.inl rfl)
  have htop : top z = some m := by rw [hm, top_join]
  have hmz := top_mem htop
  have hnd := sibling_perm.nodup_iff.mp ht.nodup
  obtain ⟨t', e', hholds, hcol, hval⟩ :=
    eraseCase4_spec ht.root hrc hlp hln htop hrs hry hrz hnd hb
  refine ⟨t', e', ⟨hholds, ?_⟩, hval⟩
  simp only [List.nodup_append, List.nodup_cons, List.mem_append, List.mem_cons] at hnd
  have hkeep : ∀ a, a ≠ p → a ≠ n → a ≠ m → t'.heap.colors a = t.heap.colors a := by
    intro a hap han ham
    rw [hcol, Function.update_of_ne hap, Function.update_of_ne han, Function.update_of_ne ham]
  have hpar : Balanced t'.heap.colors (join d p s y) .black (k + 1) := by
    refine .join_black ?_ (hs.congr fun a ha => ?_) (hy.congr fun a ha => ?_)
    · rw [hcol, Function.update_self]
    · exact hkeep a (by grind) (by grind) (by grind)
    · exact hkeep a (by grind) (by grind) (by grind)
  have hfar : Balanced t'.heap.colors z .black (k + 1) := by
    refine hz.blacken (by grind) (fun a ha => ?_) fun a ha hne => ?_
    · rw [htop, Option.some_inj] at ha
      rw [hcol, Function.update_of_ne (by grind), Function.update_of_ne (by grind), ha,
        Function.update_self]
    · rw [htop, ne_eq, Option.some_inj] at hne
      exact hkeep a (by grind) (by grind) (Ne.symm hne)
  have hall : Balanced t'.heap.colors (join d n (join d p s y) z) b (levels b (k + 1)) := by
    refine .join_any ?_ hpar hfar
    rw [hcol, Function.update_of_ne (by grind), Function.update_self]
  exact (hc.congr fun a ha => hkeep a (by grind) (by grind) (by grind)).plug hall hfit

/-- Only the near child `m` of the black sibling is red: case 3 leads to case 4. -/
theorem erase_near (ht : Holds t (plug c (join d p s (join d n (join d m v w) z))))
    (hs : Balanced t.heap.colors s .black k) (hn : t.heap.colors n = some .black)
    (hv : Balanced t.heap.colors v .black k) (hw : Balanced t.heap.colors w .black k)
    (hz : Balanced t.heap.colors z .black k) (hb : t.heap.colors p = some b)
    (hc : Around t.heap.colors c i (levels b (k + 1))) (hfit : Fits b i) :
    ∃ t', ((eraseCase3 d t.heap (some p) (some n) (some m)).bind fun h =>
        eraseCase4 d ⟨t.node, h⟩ (some p) (some m) (some n)) = some t' ∧
      RbHolds t' (plug c (join d m (join d p s v) (join d n w z))) ∧
      t'.heap.values = t.heap.values := by
  obtain ⟨hrc, hrp⟩ := rep_plug.mp ht.rep
  obtain ⟨hlp, hrs, hrn⟩ := rep_join.mp hrp
  obtain ⟨hln, hrm, hrz⟩ := rep_join.mp hrn
  obtain ⟨hlm, hrv, hrw⟩ := rep_join.mp hrm
  rw [top_join] at hrc hlp hln
  have hnd : (addrs c ++
      (p :: m :: (inorder (join d n w z) ++ inorder v ++ inorder s))).Nodup := by
    refine (List.Perm.nodup_iff ?_).mp ht.nodup
    apply sibling_perm.trans
    apply List.Perm.append_left
    simp only [List.perm_iff_count, inorder_join_perm.count_eq, List.count_cons, List.count_append]
    intro a
    omega
  have hnd' := hnd
  simp only [List.nodup_append, List.nodup_cons, List.mem_append, List.mem_cons, mem_join,
    nodup_join] at hnd
  obtain ⟨h₁, e₁, hp₁, hm₁, hrn₁, hrv₁, hframe₁, hcol₁, hval₁⟩ := eraseCase3_spec hlp hln hlm hrz
    hrv hrw (by
      simp only [List.nodup_cons, List.nodup_append, List.mem_cons, List.mem_append]
      grind)
    (fun a ha => hw.top_color ha)
  have hframe : ∀ a, a ≠ p → a ≠ m → a ≠ n → a ∉ inorder w → a ∉ inorder z →
      h₁.links a = t.heap.links a := by
    intro a hap ham han haw haz
    exact hframe₁ a hap ham (by rw [mem_join]; tauto)
  have hm₁' : h₁.links m = some (.of d (some n) (top v) (top (join d n w z))) := by
    rw [hm₁, top_join]
  obtain ⟨t', e', hholds, hcol, hval⟩ := eraseCase4_spec (t := ⟨t.node, h₁⟩) ht.root
    (repCtx_frame hrc fun a ha =>
      hframe a (by grind) (by grind) (by grind) (by grind) (by grind)) hp₁ hm₁' top_join
    (rep_frame hrs fun a ha =>
      hframe a (by grind) (by grind) (by grind) (by grind) (by grind)) hrv₁ hrn₁ hnd'
    ((congrFun hcol₁ p).trans hb)
  rw [top_join] at e'
  refine ⟨t', by rw [e₁, Option.bind_some, e'], ⟨hholds, ?_⟩, hval.trans hval₁⟩
  have hkeep : ∀ a, a ≠ p → a ≠ m → t'.heap.colors a = t.heap.colors a := by
    intro a hap ham
    rw [hcol, Function.update_of_ne hap, Function.update_of_ne ham]
    by_cases han : a = n
    · rw [han, Function.update_self, hn]
    · rw [Function.update_of_ne han]
      exact congrFun hcol₁ a
  have hpar : Balanced t'.heap.colors (join d p s v) .black (k + 1) := by
    refine .join_black ?_ (hs.congr fun a ha => ?_) (hv.congr fun a ha => ?_)
    · rw [hcol, Function.update_self]
    · exact hkeep a (by grind) (by grind)
    · exact hkeep a (by grind) (by grind)
  have hsib : Balanced t'.heap.colors (join d n w z) .black (k + 1) := by
    refine .join_black ?_ (hw.congr fun a ha => ?_) (hz.congr fun a ha => ?_)
    · exact (hkeep n (by grind) (by grind)).trans hn
    · exact hkeep a (by grind) (by grind)
    · exact hkeep a (by grind) (by grind)
  have hall : Balanced t'.heap.colors (join d m (join d p s v) (join d n w z)) b
      (levels b (k + 1)) := by
    refine .join_any ?_ hpar hsib
    rw [hcol, Function.update_of_ne (by grind), Function.update_self]
  exact (hc.congr fun a ha => hkeep a (by grind) (by grind)).plug hall hfit

theorem rbSetBlack_spec {j : Links A} (hj : h.links p = some j) (hred : h.colors p = some .red) :
    ∃ h', rbSetBlack h (some p) = some h' ∧ h'.links = h.links ∧
      h'.colors = Function.update h.colors p (some .black) ∧ h'.values = h.values := by
  refine ⟨h.write p id fun _ => .black, ?_, ?_, Heap.colors_write _ hj _, Heap.values_write _ _⟩
  · obtain ⟨nd, hnd, -⟩ := Option.map_eq_some_iff.mp hj
    simp [rbSetBlack, hred, Heap.modify, Heap.write, hnd]
  · funext a
    by_cases ha : a = p
    · rw [ha, Heap.links_write_self, Option.map_id_apply]
    · exact Heap.links_write_of_ne _ _ ha

/-- Both children of the black sibling are black: case 2 makes it red, and a black node is made up
for at the parent if that is red. -/
theorem eraseCase2_spec (ht : Holds t (plug c (join d p s (join d n y z))))
    (hs : Balanced t.heap.colors s .black k) (hy : Balanced t.heap.colors y .black k)
    (hz : Balanced t.heap.colors z .black k) (hb : t.heap.colors p = some b)
    (hc : Around t.heap.colors c i (levels b (k + 1))) :
    ∃ t', ((rbSetParentColor t.heap (some n) (some p) .red).bind fun h =>
        (h.color (some p)).bind fun x =>
          if x = .red then (rbSetBlack h (some p)).bind fun h => some (false, ⟨t.node, h⟩)
          else some (true, (⟨t.node, h⟩ : Root A))) = some (decide (b = .black), t') ∧
      Holds t' (plug c (join d p s (join d n y z))) ∧
      Balanced t'.heap.colors (join d p s (join d n y z)) .black (k + 1) ∧
      Around t'.heap.colors c i (levels b (k + 1)) ∧ t'.heap.values = t.heap.values := by
  obtain ⟨hrc, hrp⟩ := rep_plug.mp ht.rep
  obtain ⟨hlp, hrs, hrn⟩ := rep_join.mp hrp
  have hnd := sibling_perm.nodup_iff.mp ht.nodup
  simp only [List.nodup_append, List.nodup_cons, List.mem_append, List.mem_cons] at hnd
  obtain ⟨h₁, e₁, hlinks₁, hcol₁, hval₁⟩ := rbSetParentColor_same (rep_join.mp hrn).1 .red
  rw [Links.parent_of] at e₁
  have hb₁ : h₁.colors p = some b := by rw [hcol₁, Function.update_of_ne (by grind), hb]
  obtain ⟨h₂, e₂, hlinks₂, hcol₂, hval₂⟩ :
      ∃ h₂, (if b = .red then (rbSetBlack h₁ (some p)).bind fun h => some (false, ⟨t.node, h⟩)
          else some (true, (⟨t.node, h₁⟩ : Root A))) = some (decide (b = .black), ⟨t.node, h₂⟩) ∧
        h₂.links = h₁.links ∧ h₂.colors = Function.update h₁.colors p (some .black) ∧
        h₂.values = h₁.values := by
    cases b with
    | red =>
      obtain ⟨h₂, e₂, hrest⟩ := rbSetBlack_spec ((congrFun hlinks₁ p).trans hlp) hb₁
      exact ⟨h₂, by rw [if_pos rfl, e₂]; rfl, hrest⟩
    | black =>
      refine ⟨h₁, rfl, rfl, ?_, rfl⟩
      rw [← hb₁, Function.update_eq_self]
  have hkeep : ∀ a, a ≠ p → a ≠ n → h₂.colors a = t.heap.colors a := by
    intro a hap han
    rw [hcol₂, Function.update_of_ne hap, hcol₁, Function.update_of_ne han]
  have hsib : Balanced h₂.colors (join d n y z) .red k := by
    refine .join_red ?_ (hy.congr fun a ha => ?_) (hz.congr fun a ha => ?_)
    · rw [hcol₂, Function.update_of_ne (by grind), hcol₁, Function.update_self]
    · exact hkeep a (by grind) (by grind)
    · exact hkeep a (by grind) (by grind)
  refine ⟨⟨t.node, h₂⟩, ?_, ⟨ht.root, ?_, ht.nodup⟩, ?_, ?_, hval₂.trans hval₁⟩
  · rw [e₁, Option.bind_some, Heap.color_some, hb₁, Option.bind_some, e₂]
  · show Rep h₂.links none _
    rw [hlinks₂, hlinks₁]
    exact ht.rep
  · refine .join_black ?_ (hs.congr fun a ha => hkeep a (by grind) (by grind)) hsib
    rw [hcol₂, Function.update_self]
  · exact hc.congr fun a ha => hkeep a (by grind) (by grind)

/-- Cases 2 to 4. The black node that is missing below `p` is put back, or it is missing in the
whole subtree at `p` now. -/
theorem eraseBlack_spec (ht : Holds t (plug c (join d p s x)))
    (hs : Balanced t.heap.colors s .black k) (hx : Balanced t.heap.colors x .black (k + 1))
    (hb : t.heap.colors p = some b) (hc : Around t.heap.colors c i (levels b (k + 1)))
    (hfit : Fits b i) :
    ∃ again t' T', eraseBlack d t (some p) (top x) = some (again, t') ∧ Holds t' (plug c T') ∧
      inorder (plug c T') = inorder (plug c (join d p s x)) ∧
      t'.heap.values = t.heap.values ∧
      ((again = false ∧ RbHolds t' (plug c T')) ∨
        again = true ∧ b = .black ∧ top T' = some p ∧
          Balanced t'.heap.colors T' .black (k + 1) ∧ Around t'.heap.colors c i (k + 2)) := by
  obtain ⟨n, y, z, rfl⟩ := hx.exists_join d (Or.inr (Nat.succ_pos k))
  obtain ⟨j, ey, ez, hj, hn, hy, hz⟩ := hx.of_join_black
  cases Nat.succ.inj hj
  have hln := (rep_join.mp (rep_join.mp (rep_plug.mp ht.rep).2).2.2).1
  cases ez with
  | red =>
    obtain ⟨t', e', hrb, hval⟩ := erase_far ht hs hy hz hb hc hfit
    refine ⟨false, t', _, ?_, hrb.toHolds, ?_, hval, Or.inl ⟨rfl, hrb⟩⟩
    · simp [eraseBlack, hln, isRed_spec hz, e']
    · apply STree.inorder_plug_congr
      cases d <;> simp [join]
  | black =>
    cases ey with
    | red =>
      obtain ⟨m, v, w, rfl⟩ := hy.exists_join d (Or.inl rfl)
      obtain ⟨hm, hv, hw⟩ := hy.of_join_red
      obtain ⟨t', e', hrb, hval⟩ := erase_near ht hs hn hv hw hz hb hc hfit
      refine ⟨false, t', _, ?_, hrb.toHolds, ?_, hval, Or.inl ⟨rfl, hrb⟩⟩
      · have hny := isRed_spec hy
        rw [top_join] at hln hny
        obtain ⟨h', e₃, e₄⟩ := Option.bind_eq_some_iff.mp e'
        simp [eraseBlack, hln, isRed_spec hz, hny, e₃, e₄]
      · apply STree.inorder_plug_congr
        cases d <;> simp [join]
    | black =>
      obtain ⟨t', e', hholds, hbal, haround, hval⟩ := eraseCase2_spec ht hs hy hz hb hc
      refine ⟨decide (b = .black), t', _, ?_, hholds, rfl, hval, ?_⟩
      · simpa [eraseBlack, hln, isRed_spec hz, isRed_spec hy] using e'
      · cases b with
        | red => exact Or.inl ⟨rfl, hholds, haround.plug hbal (fits_black _)⟩
        | black => exact Or.inr ⟨rfl, rfl, top_join, hbal, haround⟩

/-- The start of a turn: after it the sibling `x₁` is black, and if it was red the parent is red
now. -/
theorem eraseTurn_spec (ht : Holds t (plug c (join d p s x)))
    (hs : Balanced t.heap.colors s .black k) (hx : Balanced t.heap.colors x e (k + 1))
    (hb : t.heap.colors p = some b) (he : Fits e (if b = .red then .black else .red))
    (hc : Around t.heap.colors c i (levels b (k + 1))) (hfit : Fits b i) :
    ∃ t₁ c₁ x₁ i₁ b₁, (if e = .red then eraseCase1 d t (some p) (top x)
        else some (top x, t)) = some (top x₁, t₁) ∧
      Holds t₁ (plug c₁ (join d p s x₁)) ∧ Balanced t₁.heap.colors s .black k ∧
      Balanced t₁.heap.colors x₁ .black (k + 1) ∧ t₁.heap.colors p = some b₁ ∧
      Around t₁.heap.colors c₁ i₁ (levels b₁ (k + 1)) ∧ Fits b₁ i₁ ∧
      inorder (plug c₁ (join d p s x₁)) = inorder (plug c (join d p s x)) ∧
      t₁.heap.values = t.heap.values ∧ (b₁ = .black → c₁ = c) := by
  cases e with
  | black =>
    exact ⟨t, c, x, i, b, if_neg Color.noConfusion, ht, hs, hx, hb, hc, hfit, rfl, rfl,
      fun _ => rfl⟩
  | red =>
    have hblack : b = .black := by
      cases b with
      | red => rcases he with he | he <;> cases he
      | black => rfl
    subst hblack
    obtain ⟨n, y, z, rfl⟩ := hx.exists_join d (Or.inl rfl)
    obtain ⟨hn, hy, hz⟩ := hx.of_join_red
    have hnil : y ≠ .nil := by
      rintro rfl
      cases hy
    have hnd := sibling_perm.nodup_iff.mp ht.nodup
    simp only [List.nodup_append, List.nodup_cons, List.mem_append, List.mem_cons] at hnd
    obtain ⟨t', e', hholds, hcol, hval⟩ :=
      eraseCase1_spec ht hnil (fun a ha => hy.top_color ha) hb
    have hkeep : ∀ a, a ≠ p → a ≠ n → t'.heap.colors a = t.heap.colors a := by
      intro a hap han
      rw [hcol, Function.update_of_ne hap, Function.update_of_ne han]
    refine ⟨t', ⟨d, n, z⟩ :: c, y, .red, .red, ?_, hholds, ?_, ?_, ?_, ?_, fits_red _, ?_, hval,
      Color.noConfusion⟩
    · rw [if_pos rfl, top_join, e']
    · exact hs.congr fun a ha => hkeep a (by grind) (by grind)
    · exact hy.congr fun a ha => hkeep a (by grind) (by grind)
    · rw [hcol, Function.update_self]
    · refine .black (y := .black) ?_ (hz.congr fun a ha => hkeep a (by grind) (by grind))
        (hc.congr fun a ha => hkeep a (by grind) (by grind))
      rw [hcol, Function.update_of_ne (by grind), Function.update_self]
    · rw [plug]
      apply STree.inorder_plug_congr
      cases d <;> simp [join]

/-- The loop of `____rb_erase_color`. All is balanced but that a black node is missing on the
paths through the subtree `s`, whose root is black. -/
theorem rbEraseColor_spec (fuel : ℕ) {f : Frame A} (ht : Holds t (plug (f :: c) s))
    (hs : Balanced t.heap.colors s .black k) (hc : Around t.heap.colors (f :: c) i (k + 1))
    (hfuel : c.length < fuel) :
    ∃ t' T', rbEraseColor fuel t (some f.addr) (top s) = some t' ∧ RbHolds t' T' ∧
      inorder T' = inorder (plug (f :: c) s) ∧ t'.heap.values = t.heap.values := by
  induction fuel generalizing t f c s i k with
  | zero => omega
  | succ fuel ih =>
    obtain ⟨b, e, j, hb, hx, he, hc', hfit⟩ := hc.of_cons
    obtain ⟨d, p, x⟩ := f
    obtain ⟨hlp, -, -⟩ := (rep_plug.mp ht.rep).1
    simp only [plug] at ht hx hlp hb ⊢
    obtain ⟨n, v, w, rfl⟩ := hx.exists_join d (Or.inr (Nat.succ_pos k))
    have hn : t.heap.colors n = some e := hx.top_color top_join
    have hne : top s ≠ top (join d n v w) := by
      intro htop
      have hmem := top_mem (htop.trans top_join)
      have hnd := sibling_perm.nodup_iff.mp ht.nodup
      simp only [List.nodup_append, List.nodup_cons, List.mem_append, List.mem_cons] at hnd
      grind
    obtain ⟨t₁, c₁, x₁, i₁, b₁, e₁, ht₁, hs₁, hx₁, hb₁, hc₁, hfit₁, hin₁, hval₁, hsame⟩ :=
      eraseTurn_spec ht hs hx hb he hc' hfit
    obtain ⟨again, t₂, T₂, e₂, ht₂, hin₂, hval₂, hend⟩ :=
      eraseBlack_spec ht₁ hs₁ hx₁ hb₁ hc₁ hfit₁
    have hturn : rbEraseColor (fuel + 1) t (some p) (top s) =
        if again then (t₂.heap.parent (some p)).bind fun q =>
          if q.isSome then rbEraseColor fuel t₂ q (some p) else some t₂
        else some t₂ := by
      rw [top_join] at hlp hne e₁
      by_cases hred : e = .red
      · rw [if_pos hred] at e₁
        simp [rbEraseColor, hlp, side_eq _ hne, hn, hred, e₁, e₂]
      · rw [if_neg hred, Option.some_inj, Prod.mk.injEq] at e₁
        obtain ⟨htop, rfl⟩ := e₁
        rw [← htop] at e₂
        simp [rbEraseColor, hlp, side_eq _ hne, hn, hred, e₂]
    rw [hturn]
    rcases hend with ⟨rfl, hrb⟩ | ⟨rfl, hblack, htop, hbal, haround⟩
    · exact ⟨t₂, _, rfl, hrb, hin₂.trans hin₁, hval₂.trans hval₁⟩
    · cases hsame hblack
      have hlp₂ : ∃ j, t₂.heap.links p = some j ∧ j.parent = parentOf none c := by
        have hrep := (rep_plug.mp ht₂.rep).2
        cases T₂ with
        | nil => cases htop
        | node u l r =>
          cases Option.some.inj htop
          exact ⟨_, hrep.1, rfl⟩
      obtain ⟨j, hj, hpar⟩ := hlp₂
      simp only [if_true, Heap.parent_some, hj, Option.map_some, hpar, Option.bind_some]
      cases c with
      | nil =>
        exact ⟨t₂, T₂, rfl, ⟨ht₂, _, hbal⟩, hin₂.trans hin₁, hval₂.trans hval₁⟩
      | cons f c =>
        rw [List.length_cons] at hfuel
        obtain ⟨t', T', e', hrb, hin, hval⟩ := ih ht₂ hbal haround (by omega)
        rw [htop] at e'
        exact ⟨t', T', e', hrb, hin.trans (hin₂.trans hin₁), hval.trans (hval₂.trans hval₁)⟩

end Black

end LinuxSummer.Rbtree
