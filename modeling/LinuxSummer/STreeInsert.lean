import LinuxSummer.STreeSearch

/-! What `st_insert` does to the contents of an S-tree. -/
set_option linter.unusedSectionVars false

namespace LinuxSummer.STree
open BinaryTree LinkedTree

variable {A K : Type} [DecidableEq A] [LinearOrder K] {t t' : Tree A K} {h : Heap A K}
  {M : Contents A K} {T : BinaryTree A} {new : A} {c : Ctx A} {d : Side} {key : K}
  {cmp : K → K → ℤ} {narrow : ℤ → ℤ} {fuel : ℕ}

theorem createNode_spec (key : K) (hnew : h new = none) :
    ∃ h', createNode h key new = some h' ∧ h'.links new = some ⟨none, none, none⟩ ∧
      (∀ a, a ≠ new → h'.links a = h.links a) ∧
      h'.keys = Function.update h.keys new (some key) ∧
      h'.hintAt = Function.update h.hintAt new 0 := by
  refine ⟨Function.update h new (some ⟨⟨none, none, none⟩, 0, key⟩), by simp [createNode, hnew],
    by simp [Heap.links], ?_, ?_, ?_⟩
  · intro a ha
    simp [Heap.links, ha]
  · funext a
    by_cases ha : a = new
    · subst ha
      simp [Heap.keys, Heap.data]
    · simp [Heap.keys, Heap.data, ha]
  · funext a
    by_cases ha : a = new
    · subst ha
      simp [Heap.hintAt, Heap.data]
    · simp [Heap.hintAt, Heap.data, ha]

/-- The two pointer writes of `__st_insert` hang the new node in the place where its key is
missing. -/
theorem link_new {f : Frame A} (hr : Rep h.links none (plug (f :: c) .nil))
    (hnd : (inorder (plug (f :: c) .nil)).Nodup) (hmem : new ∉ inorder (plug (f :: c) .nil))
    (hnew : h.links new = some ⟨none, none, none⟩) :
    ∃ h', (h.setChild f.dir (some f.addr) (some new)).bind
        (fun h => h.setParent (some new) (some f.addr)) = some h' ∧
      Rep h'.links none (plug (f :: c) (.node new .nil .nil)) ∧ h'.data = h.data := by
  obtain ⟨hc, -⟩ := rep_plug.mp hr
  simp only [mem_plug, inorder_nil, List.not_mem_nil, or_false] at hmem
  have hnd' : (addrs (f :: c)).Nodup := by
    simpa only [inorder_nil, List.append_nil] using nodup_plug.mp hnd
  have hne : f.addr ≠ new := by
    rintro rfl
    exact hmem (List.mem_cons_self ..)
  let h₁ := h.relink f.addr fun k => k.setChild f.dir (some new)
  have hc₁ : RepCtx h₁.links none (f :: c) (some new) :=
    repCtx_rewire hc hnd' (by simp [h₁, hc.1]) fun a ha => Heap.links_relink_of_ne _ ha
  have hnew₁ : h₁.links new = some ⟨none, none, none⟩ := by
    rw [Heap.links_relink_of_ne _ hne.symm, hnew]
  refine ⟨h₁.relink new fun k => { k with parent := some f.addr }, ?_, ?_, by simp [h₁]⟩
  · simp [hc.1, h₁, hnew₁]
  · refine rep_plug.mpr ⟨repCtx_frame hc₁ fun a ha => ?_, ?_, trivial, trivial⟩
    · refine Heap.links_relink_of_ne _ ?_
      rintro rfl
      exact hmem ha
    · simp [hnew₁]

theorem stInsertAt_eq (p : Option A) :
    stInsertAt narrow fuel t p (some new) (some d) =
      ((t.heap.setChild d p (some new)).bind fun h => h.setParent (some new) p).bind
        fun h => stUpdate narrow fuel ⟨t.root, h⟩ (some new) := by
  cases d <;> simp [stInsertAt, Option.bind_assoc]

/-- The contents with a new key, when the order of the nodes has its node in the right place. -/
theorem stores_insert (ht : Stores t (plug c .nil) M) (hc : ∀ f ∈ c, OnPath t.heap key f)
    (hM : M key = none) (hnew : t.heap new = none) (hT : Holds t' T)
    (horder : inorder T = inorder (plug c (.node new .nil .nil)))
    (hkeys : t'.heap.keys = Function.update t.heap.keys new (some key)) :
    Stores t' T (Function.update M key (some new)) := by
  have hkey : t'.heap.keys new = some key := by simp [hkeys]
  have hmem : new ∉ before c ++ after c := by
    intro h
    have hlive := (ht.live new).mp (by simpa [inorder_plug] using h)
    simp [Heap.keys, Heap.data, hnew] at hlive
  have hother : ∀ a, a ≠ new → t'.heap.keys a = t.heap.keys a := by
    intro a ha
    simp [hkeys, ha]
  obtain ⟨hb, ha⟩ := path_between hc ht.sorted
  have hlive := ht.live
  have hsorted := ht.sorted
  simp only [inorder_plug, inorder_nil, inorder_node, List.append_nil, List.nil_append]
    at hlive hsorted horder
  refine ⟨hT, ?_, fun a => ?_, fun k a => ?_⟩
  · have hne : ∀ u, u ∈ before c ∨ u ∈ after c → u ≠ new := by
      rintro u hu rfl
      exact hmem (List.mem_append.mpr hu)
    rw [List.pairwise_append] at hsorted
    obtain ⟨hsb, hsa, hba⟩ := hsorted
    rw [horder, List.append_assoc, List.singleton_append, List.pairwise_append, List.pairwise_cons]
    refine ⟨?_, ⟨?_, ?_⟩, ?_⟩
    · refine hsb.imp_of_mem fun {u v} hu hv huv => ?_
      rwa [hother u (hne u (Or.inl hu)), hother v (hne v (Or.inl hv))]
    · intro u hu ku kv hku hkv
      cases hkey.symm.trans hku
      rw [hother u (hne u (Or.inr hu))] at hkv
      exact ha u hu kv hkv
    · refine hsa.imp_of_mem fun {u v} hu hv huv => ?_
      rwa [hother u (hne u (Or.inr hu)), hother v (hne v (Or.inr hv))]
    · intro u hu v hv ku kv hku hkv
      rw [hother u (hne u (Or.inl hu))] at hku
      rcases List.mem_cons.mp hv with rfl | hv
      · cases hkey.symm.trans hkv
        exact hb u hu ku hku
      · rw [hother v (hne v (Or.inr hv))] at hkv
        exact hba u hu v hv ku kv hku hkv
  · rw [horder]
    by_cases han : a = new
    · subst han
      simp [hkey]
    · have := hlive a
      simp [hother a han, han] at this ⊢
      exact this
  · by_cases han : a = new
    · subst han
      by_cases hk : k = key
      · subst hk
        simp [hkey]
      · have hMk : M k ≠ some a := fun h => by
          have := (ht.contents k a).mp h
          simp [Heap.keys, Heap.data, hnew] at this
        have hk' : ¬ key = k := fun h => hk h.symm
        simp [hk, hk', hkey, hMk]
    · rw [hother a han, ← ht.contents]
      by_cases hk : k = key
      · subst hk
        have han' : ¬ new = a := fun h => han h.symm
        simp [hM, han']
      · simp [hk]

/-- `st_insert` up to the call of `st_update`: the new node hangs in the place where its key is
missing. -/
theorem stInsert_link (new : A) (ht : Holds t (plug c .nil))
    (hnew : t.heap new = none)
    (hfind : stFindFrom cmp key t.heap fuel t.root none none =
      some (none, parentOf none c, sideOf none c)) :
    ∃ t₁, Holds t₁ (plug c (.node new .nil .nil)) ∧
      t₁.heap.keys = Function.update t.heap.keys new (some key) ∧
      t₁.heap.hintAt = Function.update t.heap.hintAt new 0 ∧
      ((c = [] ∧ ∀ narrow, stInsert narrow cmp fuel t key new = some (0, t₁)) ∨
        (c ≠ [] ∧ ∀ narrow, stInsert narrow cmp fuel t key new =
          (stUpdate narrow fuel t₁ (some new)).map fun t' => (0, t'))) := by
  have hmem : new ∉ inorder (plug c .nil) := fun h => by
    obtain ⟨k, hk⟩ := rep_live ht.rep h
    simp [Heap.links, hnew] at hk
  have hnd : (inorder (plug c (.node new .nil .nil))).Nodup := by
    have hnd := ht.nodup
    simp only [mem_plug, inorder_nil, List.not_mem_nil, or_false] at hmem
    simp only [nodup_plug, inorder_nil, List.append_nil] at hnd
    rw [nodup_plug, inorder_node, List.nodup_append]
    simp only [inorder_nil, List.nil_append, List.nodup_singleton, List.mem_singleton]
    refine ⟨hnd, trivial, ?_⟩
    rintro u hu v rfl rfl
    exact hmem hu
  obtain ⟨h₁, e₁, hnew₁, hframe₁, hkeys₁, hhint₁⟩ := createNode_spec key hnew
  cases c with
  | nil =>
    have hroot := ht.root
    rw [plug, top_nil] at hroot
    refine ⟨⟨some new, h₁⟩, ⟨rfl, ⟨hnew₁, trivial, trivial⟩, hnd⟩, hkeys₁, hhint₁,
      Or.inl ⟨rfl, fun narrow => ?_⟩⟩
    rw [hroot] at hfind
    simp [stInsert, hfind, e₁, hroot]
  | cons f c =>
    have hc : f :: c ≠ [] := List.cons_ne_nil f c
    have hr₁ : Rep h₁.links none (plug (f :: c) .nil) :=
      rep_frame ht.rep fun a ha => hframe₁ a fun h => hmem (h ▸ ha)
    obtain ⟨h₂, e₂, hr₂, hd₂⟩ := link_new hr₁ ht.nodup hmem hnew₁
    refine ⟨⟨t.root, h₂⟩, ⟨ht.root.trans (top_plug hc _ _), hr₂, hnd⟩,
      (Heap.keys_congr hd₂).trans hkeys₁, (Heap.hintAt_congr hd₂).trans hhint₁, Or.inr ⟨hc, fun narrow => ?_⟩⟩
    have hroot : t.root.isSome := by
      rw [ht.root]
      exact top_plug_isSome hc _
    have hat : stInsertAt narrow fuel ⟨t.root, h₁⟩ (some f.addr) (some new) (some f.dir) =
        stUpdate narrow fuel ⟨t.root, h₂⟩ (some new) := by
      rw [stInsertAt_eq, e₂, Option.bind_some]
    simp [stInsert, hfind, e₁, hroot, sideOf, hat, Option.map_eq_bind, Function.comp_def]

/-- `st_insert` of a key that is missing. -/
theorem stInsert_absent (narrow : ℤ → ℤ) (ht : Stores t (plug c .nil) M)
    (hc : ∀ f ∈ c, OnPath t.heap key f) (hM : M key = none) (hnew : t.heap new = none)
    (hfind : stFindFrom cmp key t.heap fuel t.root none none =
      some (none, parentOf none c, sideOf none c)) (hfuel : c.length + 2 ≤ fuel) :
    Ends narrow t (plug c .nil) (stInsert narrow cmp fuel t key new) 0
      (Function.update M key (some new)) := by
  have hsize : (inorder (plug c (.node new .nil .nil))).length =
      (inorder (plug c (.nil : BinaryTree A))).length + 1 := by
    simp only [inorder_plug, inorder_node, inorder_nil, List.length_append, List.length_cons,
      List.length_nil]
    omega
  obtain ⟨t₁, hT₁, hkeys₁, hhint₁, hexec⟩ := stInsert_link _ ht.holds hnew hfind
  have hneg₁ : t.heap.NonNeg → t₁.heap.NonNeg := by
    intro hh a
    rw [hhint₁]
    by_cases ha : a = new
    · simp [ha]
    · simpa [ha] using hh a
  rcases hexec with ⟨-, hexec⟩ | ⟨-, hexec⟩
  · exact Or.inl ⟨t₁, _, hexec narrow, stores_insert ht hc hM hnew hT₁ rfl hkeys₁, Nat.le_of_eq hsize,
      fun _ => hneg₁⟩
  have hexec := hexec narrow
  rw [← top_node (t := .nil) (s := .nil)] at hexec
  rcases stUpdate_run narrow c fuel hT₁ with ⟨t', T', e, hu⟩ | ⟨e, hfail⟩
  · refine Or.inl ⟨t', T', by rw [hexec, e, Option.map_some], ?_, ?_, ?_⟩
    · exact stores_insert ht hc hM hnew hu.holds hu.order (by rw [hu.keys, hkeys₁])
    · exact Nat.le_of_eq (by rw [hu.order, hsize])
    · exact fun hnarrow hh => hu.nonNeg hnarrow (hneg₁ hh)
  · refine Or.inr ⟨by rw [hexec, e, Option.map_none], fun h => ?_⟩
    rcases hfail with hfail | hfail
    · omega
    · exact hfail ⟨h.1, hneg₁ h.2⟩

end LinuxSummer.STree
