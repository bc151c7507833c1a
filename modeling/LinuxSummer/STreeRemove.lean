import LinuxSummer.STreeSearch

/-! What `st_remove` does to the contents of an S-tree. -/
set_option linter.unusedSectionVars false

namespace LinuxSummer.STree
open BinaryTree LinkedTree
open scoped List

variable {A K : Type} [DecidableEq A] [LinearOrder K] {t t' : Tree A K} {h : Heap A K}
  {M : Contents A K} {T s x y z : BinaryTree A} {n r : A} {c c₂ : Ctx A} {d : Side} {key : K}
  {cmp : K → K → ℤ} {narrow : ℤ → ℤ} {fuel : ℕ} {par : Option A}

/-- `st_first` and `st_last` walk down one side. -/
theorem stEnd_path (c : Ctx A) (fuel : ℕ) (hr : Rep h.links par (plug c s)) (hs : s ≠ .nil)
    (hc : ∀ f ∈ c, f.dir = d) :
    stEnd d h (c.length + fuel) (top (plug c s)) = stEnd d h fuel (top s) := by
  induction c generalizing s fuel with
  | nil => simp [plug]
  | cons f c ih =>
    obtain ⟨hf, hc⟩ := List.forall_mem_cons.mp hc
    have hlen : (f :: c).length + fuel = c.length + (fuel + 1) := by
      simp only [List.length_cons]
      omega
    have hl := (rep_plug.mp hr).1.1
    rw [hlen, plug, ih _ hr join_ne_nil hc, top_join]
    subst hf
    cases s with
    | nil => exact absurd rfl hs
    | node a u v => simp [stEnd, hl]

theorem stEnd_spec (hr : Rep h.links par (plug c (join d r .nil x))) (hc : ∀ f ∈ c, f.dir = d)
    (hfuel : c.length < fuel) :
    stEnd d h fuel (top (plug c (join d r .nil x))) = some (some r) := by
  obtain ⟨k, rfl⟩ : ∃ k, fuel = c.length + (k + 1) := ⟨fuel - c.length - 1, by omega⟩
  have hl := (rep_join.mp (rep_plug.mp hr).2).1
  rw [stEnd_path c (k + 1) hr join_ne_nil hc, top_join]
  simp [stEnd, hl]

/-- The nodes of the two subtrees of a node, in order. -/
def below (d : Side) (s z : BinaryTree A) : List A :=
  match d with
  | .left => inorder s ++ inorder z
  | .right => inorder z ++ inorder s

/-- The node next to the root on side `d` takes the place of the root. -/
theorem inorder_raise (hc : ∀ f ∈ c₂, f.dir = d.flip) :
    inorder (join d r (plug c₂ x) z) = below d (plug c₂ (join d.flip r .nil x)) z := by
  cases d with
  | left => simp [join, below, inorder_plug, after_right hc, Side.flip]
  | right => simp [join, below, inorder_plug, before_left hc, Side.flip]

theorem inorder_below : inorder (plug c (join d n s z)) ~ n :: (before c ++ below d s z ++ after c) := by
  rw [inorder_plug]
  have hj : inorder (join d n s z) ~ n :: below d s z := by
    cases d <;> exact List.perm_middle
  calc before c ++ inorder (join d n s z) ++ after c
      ~ before c ++ (n :: below d s z) ++ after c := (hj.append_left _).append_right _
    _ ~ n :: (before c ++ below d s z ++ after c) := by
      simpa only [List.append_assoc, List.cons_append] using List.perm_middle

theorem length_join : (inorder (join d n s z)).length =
    (inorder s).length + (inorder z).length + 1 := by
  rw [inorder_join_perm.length_eq, List.length_append, List.length_cons]
  omega

/-- The branch of `__st_remove` that replaces the node by the next one on side `d`, up to the call
of `st_update`. -/
theorem replaceAndUpdate_link (ht : Holds t (plug c (join d n s z))) (hs : s ≠ .nil)
    (hfuel : (inorder (plug c (join d n s z))).length + 2 ≤ fuel) :
    ∃ t₁ c₁ s₁, Holds t₁ (plug c₁ s₁) ∧
      inorder (plug c₁ s₁) = before c ++ below d s z ++ after c ∧ t₁.heap.data = t.heap.data ∧
      c₁.length + 2 ≤ fuel ∧
      ∀ narrow, replaceAndUpdate narrow fuel d t (some n) = stUpdate narrow fuel t₁ (top s₁) := by
  obtain ⟨c₂, r, x, rfl, hc₂⟩ := exists_end d.flip s hs
  have hn := (rep_join.mp (rep_plug.mp ht.rep).2).1
  have hrep := (rep_join.mp (rep_plug.mp ht.rep).2).2.1
  have hperm := inorder_below (c := c) (d := d) (n := n) (s := plug c₂ (join d.flip r .nil x)) (z := z)
  have hlen : c.length + c₂.length + 2 ≤
      (inorder (plug c (join d n (plug c₂ (join d.flip r .nil x)) z))).length := by
    have h₁ := length_ctx_le c (join d n (plug c₂ (join d.flip r .nil x)) z)
    have h₂ := length_ctx_le c₂ (join d.flip r .nil x)
    rw [length_join] at h₁ h₂
    omega
  have hend : stEnd d.flip t.heap fuel (top (plug c₂ (join d.flip r .nil x))) = some (some r) :=
    stEnd_spec hrep hc₂ (by omega)
  have horder : inorder (plug c (join d r (plug c₂ x) z)) =
      before c ++ below d (plug c₂ (join d.flip r .nil x)) z ++ after c := by
    rw [inorder_plug, inorder_raise hc₂]
  obtain ⟨h', e, hr', hd⟩ : ∃ h', stReplace d t.heap (some n) (some r) = some h' ∧
      Rep h'.links none (plug c (join d r (plug c₂ x) z)) ∧ h'.data = t.heap.data := by
    cases c₂ with
    | nil => exact stReplace_child ht.rep ht.nodup
    | cons f c₂ => exact stReplace_below (hc₂ f (List.mem_cons_self ..)) ht.rep ht.nodup
  have hroot := root_replace ht top_join (join d r (plug c₂ x) z)
  rw [top_join] at hroot
  have hT : Holds (⟨top (plug c (join d r (plug c₂ x) z)), h'⟩ : Tree A K)
      (plug (⟨d, r, z⟩ :: c) (plug c₂ x)) := by
    refine ⟨rfl, hr', ?_⟩
    rw [plug, horder]
    exact (List.nodup_cons.mp (hperm.nodup_iff.mp ht.nodup)).2
  have hr₁ := (rep_join.mp (rep_plug.mp hr').2).1
  refine ⟨_, _, _, hT, horder, hd, ?_, fun narrow => ?_⟩
  · rw [List.length_cons]
    omega
  · simp [replaceAndUpdate, hn, hend, e, hroot, hr₁]

/-- `__st_remove` takes one node out of the order of the nodes, and then `st_update` runs. -/
theorem stRemoveNode_link (ht : Holds t (plug c (.node n x y)))
    (hfuel : (inorder (plug c (.node n x y))).length + 2 ≤ fuel) :
    ∃ t₁ c₁ s₁, Holds t₁ (plug c₁ s₁) ∧
      inorder (plug c₁ s₁) = before c ++ (inorder x ++ inorder y) ++ after c ∧
      t₁.heap.data = t.heap.data ∧ c₁.length + 2 ≤ fuel ∧
      ∀ narrow, stRemoveNode narrow fuel t (some n) = stUpdate narrow fuel t₁ (top s₁) := by
  have hn := (rep_plug.mp ht.rep).2.1
  by_cases hy : y = .nil
  swap
  · have hcall (narrow : ℤ → ℤ) : stRemoveNode narrow fuel t (some n) =
        replaceAndUpdate narrow fuel .right t (some n) := by
      cases y with
      | nil => exact absurd rfl hy
      | node a u v => simp [stRemoveNode, hn, Links.child]
    simp only [hcall]
    exact replaceAndUpdate_link (d := .right) (s := y) (z := x) ht hy hfuel
  subst hy
  by_cases hx : x = .nil
  swap
  · have hcall (narrow : ℤ → ℤ) : stRemoveNode narrow fuel t (some n) =
        replaceAndUpdate narrow fuel .left t (some n) := by
      cases x with
      | nil => exact absurd rfl hx
      | node a u v => simp [stRemoveNode, hn, Links.child]
    simp only [hcall]
    exact replaceAndUpdate_link (d := .left) (s := x) (z := .nil) ht hx hfuel
  subst hx
  have hroot := root_iff ht top_node
  cases c with
  | nil =>
    have hr : t.root = some n := hroot.mpr rfl
    obtain ⟨f, rfl⟩ : ∃ f, fuel = f + 1 := ⟨fuel - 1, by omega⟩
    refine ⟨⟨none, t.heap⟩, [], .nil, ⟨rfl, trivial, List.nodup_nil⟩, rfl, rfl, ?_, fun narrow => ?_⟩
    · rw [List.length_nil]
      omega
    · simp [stRemoveNode, hn, hr, Links.child, stUpdate]
  | cons f c =>
    have hr : ¬ some n = t.root := fun h => List.cons_ne_nil f c (hroot.mp h.symm)
    have hnd := nodup_plug.mp ht.nodup
    simp only [inorder_node, inorder_nil, List.nil_append, List.nodup_append,
      List.mem_singleton] at hnd
    obtain ⟨h', e, hc', hframe, hd⟩ := setChildOf_spec (rep_plug.mp ht.rep).1 hnd.1
      (fun h => hnd.2.2 n h n rfl rfl) none
    have hT : Holds (⟨t.root, h'⟩ : Tree A K) (plug (f :: c) .nil) := by
      refine ⟨ht.root.trans (top_plug (List.cons_ne_nil f c) _ _),
        rep_plug.mpr ⟨hc', trivial⟩, nodup_plug.mpr ?_⟩
      simpa only [inorder_nil, List.append_nil] using hnd.1
    have hT₂ : Holds (⟨t.root, h'⟩ : Tree A K) (plug c (join f.dir f.addr .nil f.sib)) := hT
    have hlen := length_ctx_le (f :: c) (.node n .nil .nil)
    rw [List.length_cons] at hlen
    refine ⟨_, _, _, hT₂, inorder_plug (f :: c) .nil, hd, by omega, fun narrow => ?_⟩
    simp [stRemoveNode, hn, hr, e, Links.child]

theorem stRemoveNode_spec (narrow : ℤ → ℤ) (ht : Holds t (plug c (.node n x y)))
    (hfuel : (inorder (plug c (.node n x y))).length + 2 ≤ fuel) :
    (∃ t' T', stRemoveNode narrow fuel t (some n) = some t' ∧
      Updated narrow t t' (before c ++ (inorder x ++ inorder y) ++ after c) T') ∨
    (stRemoveNode narrow fuel t (some n) = none ∧
      ¬ ((∀ z, 0 ≤ z → 0 ≤ narrow z) ∧ t.heap.NonNeg)) := by
  obtain ⟨t₁, c₁, s₁, hT, horder, hd, hlen, hexec⟩ := stRemoveNode_link ht hfuel
  rcases stUpdate_run narrow c₁ fuel hT with ⟨t', T', e', hu⟩ | ⟨e', hfail⟩
  · refine Or.inl ⟨t', T', by rw [hexec, e'], hu.holds, hu.order.trans horder, ?_, ?_⟩
    · rw [hu.keys, Heap.keys_congr hd]
    · exact fun hnarrow hh => hu.nonNeg hnarrow (Heap.nonNeg_congr hd hh)
  · refine Or.inr ⟨by rw [hexec, e'], fun h => ?_⟩
    rcases hfail with hfail | hfail
    · omega
    · exact hfail ⟨h.1, Heap.nonNeg_congr hd h.2⟩

/-- The contents without the key of a node, when the order of the others is as before. -/
theorem stores_remove (ht : Stores t (plug c (.node n x y)) M) (hM : M key = some n)
    (hu : Updated narrow t t' (before c ++ (inorder x ++ inorder y) ++ after c) T) :
    ∃ h', destroyNode t'.heap (some n) = some h' ∧
      Stores ⟨t'.root, h'⟩ T (Function.update M key none) ∧ (t'.heap.NonNeg → h'.NonNeg) := by
  have hkn : t.heap.keys n = some key := (ht.contents key n).mp hM
  obtain ⟨nd, hnd, -⟩ := keys_some (hu.keys ▸ hkn)
  have hperm : inorder (plug c (.node n x y)) ~ n :: inorder T := by
    rw [hu.order]
    exact inorder_below (d := .left)
  have hmem : n ∉ inorder T := (List.nodup_cons.mp (hperm.nodup_iff.mp ht.holds.nodup)).1
  let h' : Heap A K := Function.update t'.heap n none
  have hlinks : ∀ a, a ≠ n → h'.links a = t'.heap.links a := by
    intro a ha
    simp [h', Heap.links, ha]
  have hkeys : ∀ a, a ≠ n → h'.keys a = t.heap.keys a := by
    intro a ha
    rw [← hu.keys]
    simp [h', Heap.keys, Heap.data, ha]
  have hkeysn : h'.keys n = none := by simp [h', Heap.keys, Heap.data]
  have hne : ∀ {a}, a ∈ inorder T → a ≠ n := fun {a} ha h => hmem (h ▸ ha)
  refine ⟨h', by simp [destroyNode, hnd, h'], ⟨⟨hu.holds.root, ?_, hu.holds.nodup⟩, ?_, ?_, ?_⟩, ?_⟩
  · exact rep_frame hu.holds.rep fun a ha => hlinks a (hne ha)
  · have hsub : List.Sublist (inorder T) (inorder (plug c (.node n x y))) := by
      rw [hu.order, inorder_plug, inorder_node]
      refine List.Sublist.append_right (List.Sublist.append_left ?_ _) _
      exact List.Sublist.append_left (List.sublist_cons_self n _) _
    refine (ht.sorted.sublist hsub).imp_of_mem fun {u v} hu hv huv => ?_
    simpa only [hkeys u (hne hu), hkeys v (hne hv)] using huv
  · intro a
    by_cases ha : a = n
    · subst ha
      simp [hmem, hkeysn]
    · have hlive := ht.live a
      rw [hperm.mem_iff, List.mem_cons] at hlive
      simpa only [ha, false_or, hkeys a ha] using hlive
  · intro k a
    by_cases ha : a = n
    · subst ha
      rw [hkeysn]
      by_cases hk : k = key
      · simp [hk]
      · have hMk : M k ≠ some a := fun h => by
          have := (ht.contents k a).mp h
          exact hk (Option.some.inj (this.symm.trans hkn))
        simp [hk, hMk]
    · rw [hkeys a ha, ← ht.contents]
      by_cases hk : k = key
      · subst hk
        have hna : ¬ n = a := fun h => ha h.symm
        simp [hM, hna]
      · simp [hk]
  · intro hh a
    by_cases ha : a = n
    · subst ha
      simp [h', Heap.hintAt, Heap.data]
    · simpa [h', Heap.hintAt, Heap.data, ha] using hh a

/-- `st_remove` of a key that is present. -/
theorem stRemove_present (narrow : ℤ → ℤ) (ht : Stores t (plug c (.node n x y)) M) (hM : M key = some n)
    (hfind : stFind cmp fuel t key = some (some n))
    (hfuel : (inorder (plug c (.node n x y))).length + 2 ≤ fuel) :
    Ends narrow t (plug c (.node n x y)) (stRemove narrow cmp fuel t key) 0
      (Function.update M key none) := by
  rcases stRemoveNode_spec narrow ht.holds hfuel with ⟨t', T', e, hu⟩ | ⟨e, hneg⟩
  · obtain ⟨h', e', hstores, hneg⟩ := stores_remove ht hM hu
    refine Or.inl ⟨_, T', by simp [stRemove, hfind, e, e'], hstores, ?_,
      fun hnarrow hh => hneg (hu.nonNeg hnarrow hh)⟩
    rw [hu.order, inorder_plug]
    simp only [inorder_node, List.length_append, List.length_cons]
    omega
  · exact Or.inr ⟨by simp [stRemove, hfind, e], hneg⟩

end LinuxSummer.STree
