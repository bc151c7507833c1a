import LinuxSummer.MpmcChain

/-! Reclamation in hw3/mpmc.c is safe. -/
namespace LinuxSummer.Mpmc
set_option linter.unusedSectionVars false

variable {nr : ℕ} {V : Type} {Q : Setup nr} {g g' : Shared nr V} {pc pc' : Pc nr V}
  {chain chain' : List ℕ} {base base' : ℕ} {s s' : Config (Fin nr) (Shared nr V) (Pc nr V)}

/-- The thread is about to return from its reclamation without having locked it. -/
theorem steps_dequeued {u : Fin nr} {i : ℕ} {cv : Word nr V} (hi : Inv Q chain base s)
    (hw : written u (s.thread u) = fun _ => none) :
    Steps Q chain base s u (dequeued s.shared i cv).1 (dequeued s.shared i cv).2 :=
  steps_quiet hi quiet_dequeued rfl hw trivial (fun h => h.elim) fun _ h => h.elim

/-- Steps that leave the heap and the chain alone, other than `Quiet` ones. -/
theorem steps_parts {u : Fin nr} (hinv : Inv Q chain base' ⟨g', Function.update s.thread u pc'⟩)
    (hbase : base ≤ base') (hlock : ¬ Locked (s.thread u) → base' = base)
    (hheap : g'.heap = s.shared.heap) (hw : written u (s.thread u) = fun _ => none) :
    Steps Q chain base s u g' pc' := by
  refine ⟨chain, base', hinv, .refl chain, hbase, hlock, fun i _ => ?_⟩
  rw [hw]
  simp only [cellAt, Shared.cell, hheap, Option.getD_none]

theorem steps_lock {u : Fin nr} {i index : ℕ} {cv : Word nr V} (hi : Inv Q chain base s)
    (hpc : s.thread u = .reclaim i cv (.casInit index)) (hid : s.shared.initId = index) :
    Steps Q chain base s u { s.shared with initId := -1 } (.reclaim i cv (.initNode index)) := by
  have hm := hi.memory
  have hindex : index = base := by
    rcases hm.initId with h | h <;> omega
  have hfree : ∀ v, ¬ Locked (s.thread v) := fun v hv => by
    have h := hi.locked v hv
    omega
  refine steps_parts (inv_of_parts hi ?_ hindex (fun v _ => ?_) (fun _ => ⟨rfl, fun v _ => hfree v⟩)
    (fun v _ h => rfl) fun k h => h.elim) (Nat.le_refl _) (fun _ => rfl) rfl (by rw [hpc]; rfl)
  · exact ⟨hm.nodup, hm.lt_used, hm.unlinked, hm.node, hm.freed, hm.freed_nodup, hm.initNode,
      Or.inl rfl, hm.handle, hm.spare, hm.spare_inj⟩
  · exact ⟨.refl chain, Nat.le_refl _, fun _ => rfl, rfl, fun _ _ => rfl, fun _ => Nat.le_refl _,
      fun _ _ _ h => h, fun _ _ _ h => h⟩

/-- The lock is released: `init_id` gets the place of `init_node`. -/
theorem inv_unlock {u : Fin nr} (log : Log nr V) (hi : Inv Q chain base s)
    (hlock : Locked (s.thread u))
    (hown : Local Q chain base { s.shared with initId := base, log := log } u pc')
    (hfree : ¬ Locked pc') (howns : ∀ k, Owns chain k pc' → Owns chain k (s.thread u)) :
    Inv Q chain base
      ⟨{ s.shared with initId := base, log := log }, Function.update s.thread u pc'⟩ := by
  have hm := hi.memory
  refine inv_of_parts hi ?_ hown (fun v _ => ?_) (fun h => absurd h hfree)
    (fun v hv h => absurd (hi.lock_unique v u h hlock) hv)
    fun k hk v hv h => hv (hi.disjoint v u k h (howns k hk))
  · exact ⟨hm.nodup, hm.lt_used, hm.unlinked, hm.node, hm.freed, hm.freed_nodup, hm.initNode,
      Or.inr rfl, hm.handle, hm.spare, hm.spare_inj⟩
  · exact ⟨.refl chain, Nat.le_refl _, fun _ => rfl, rfl, fun _ _ => rfl, fun _ => Nat.le_refl _,
      fun _ _ _ h => h, fun _ _ _ h => h⟩

/-- `q->init_node = min_node`: the nodes before `min` become those to free. -/
theorem inv_setInitNode {u : Fin nr} {i init min newId : ℕ} {cv : Word nr V}
    (hi : Inv Q chain base s) (hpc : s.thread u = .reclaim i cv (.setInitNode init min newId)) :
    Inv Q chain newId ⟨{ s.shared with initNode := min },
      Function.update s.thread u (.reclaim i cv (.reopen init min newId))⟩ := by
  have hl := hi.thread u
  have hlock : Locked (s.thread u) := by
    rw [hpc]
    trivial
  rw [hpc] at hl
  obtain ⟨hinit, hlt, hmin, hall⟩ := hl
  have hm := hi.memory
  refine inv_of_parts hi ?_ ⟨rfl, base, hlt, hinit, hmin, fun k p hk _ => live hm hk⟩ (fun v hv => ?_)
    (fun _ => ⟨hi.locked u hlock, fun v hv h => hv (hi.lock_unique v u h hlock)⟩)
    (fun v _ h => hi.locked v h) fun k hk v hv h => ?_
  · refine ⟨hm.nodup, hm.lt_used, hm.unlinked, hm.node, fun p k h => ?_, hm.freed_nodup, hmin,
      Or.inl (hi.locked u hlock), fun flag t ht => ?_, hm.spare, hm.spare_inj⟩
    · obtain ⟨hp, hk⟩ := hm.freed p k h
      exact ⟨hp, by omega⟩
    · obtain ⟨k, hk, -, hle⟩ := hm.handle flag t ht
      obtain ⟨k', hk', hge⟩ := hall flag t ht
      have hkk := place_unique hm.nodup hk hk'
      exact ⟨k, hk, by omega, hle⟩
  · exact ⟨.refl chain, hlt.le, fun h => absurd (hi.lock_unique v u h hlock) hv, rfl,
      fun _ _ => rfl, fun _ => Nat.le_refl _, fun _ _ _ h => h, fun _ _ _ h => h⟩
  · obtain ⟨a, b, ha, hb, hak, -⟩ := hk
    have hbase := place_unique hm.nodup ha hinit
    have hlt' := owns_lt hm.nodup (hi.thread v) h
    omega

/-- A step of the reclamation that only reads, inside the exclusive section. -/
theorem steps_scan {u : Fin nr} {i : ℕ} {cv : Word nr V} {p p' : ReclaimPc}
    (hi : Inv Q chain base s) (hpc : s.thread u = .reclaim i cv p)
    (hl : ReclaimInv Q chain base s.shared p')
    (hlock : Locked (.reclaim i cv p' : Pc nr V) → Locked (.reclaim i cv p : Pc nr V))
    (howns : ∀ k, Owns chain k (.reclaim i cv p' : Pc nr V) →
      Owns chain k (.reclaim i cv p : Pc nr V)) :
    Steps Q chain base s u s.shared (.reclaim i cv p') := by
  refine steps_quiet hi quiet_refl rfl (by rw [hpc]; rfl) hl ?_ ?_
  · rw [hpc]
    exact hlock
  · rw [hpc]
    exact howns

theorem scanned_succ {flag : QueueOp} {l m : ℕ} (h : Scanned Q chain g m flag l)
    (hl : ∀ t, (Q.handles flag)[l]? = some t → From chain m ((g.handle t).ptr flag)) :
    Scanned Q chain g m flag (l + 1) := by
  have hsucc : ∀ flag, (∀ t ∈ (Q.handles flag).take l, From chain m ((g.handle t).ptr flag)) →
      (∀ t, (Q.handles flag)[l]? = some t → From chain m ((g.handle t).ptr flag)) →
      ∀ t ∈ (Q.handles flag).take (l + 1), From chain m ((g.handle t).ptr flag) := by
    intro flag hpre hlast t ht
    rw [List.take_add_one, List.mem_append, Option.mem_toList] at ht
    rcases ht with ht | ht
    · exact hpre t ht
    · exact hlast t ht
  cases flag with
  | dequeue => exact hsucc _ h hl
  | enqueue => exact ⟨h.1, hsucc _ h.2 hl⟩

theorem scanned_mono_place {flag : QueueOp} {l m m' : ℕ} (hle : m' ≤ m)
    (h : Scanned Q chain g m flag l) : Scanned Q chain g m' flag l := by
  cases flag with
  | dequeue => exact fun t ht => (h t ht).mono (.refl chain) hle
  | enqueue =>
    exact ⟨fun t ht => (h.1 t ht).mono (.refl chain) hle,
      fun t ht => (h.2 t ht).mono (.refl chain) hle⟩

/-- The end of a loop over handles, by its condition or by `break`. -/
theorem scanEnd_inv {flag : QueueOp} {l init min : ℕ} (hinit : chain[base]? = some init)
    (hl : (Q.handles flag).length ≤ l)
    (h : MinInv chain base min fun m => Scanned Q chain g m flag l) :
    ReclaimInv Q chain base g (scanEnd base init min flag) := by
  obtain ⟨m, hm, hmin, hseen⟩ := h
  cases flag with
  | dequeue =>
    refine ⟨rfl, hinit, m, hm, hmin, hseen.imp_right fun h => ⟨fun t ht => h t ?_, by simp⟩⟩
    rwa [List.take_of_length_le hl]
  | enqueue =>
    refine ⟨rfl, hinit, m, hm, hmin, hseen.imp_right fun h flag t ht => ?_⟩
    cases flag with
    | dequeue => exact h.1 t ht
    | enqueue => exact h.2 t (by rwa [List.take_of_length_le hl])

theorem scanEnd_break {flag : QueueOp} {init min : ℕ} (hinit : chain[base]? = some init)
    (hmin : chain[base]? = some min) :
    ReclaimInv Q chain base g (scanEnd base init min flag) :=
  scanEnd_inv hinit (Nat.le_refl _) ⟨base, Nat.le_refl _, hmin, Or.inl rfl⟩

theorem scanEnd_locked (index init min : ℕ) (flag : QueueOp) (i : ℕ) (cv : Word nr V) :
    Locked (.reclaim i cv (scanEnd index init min flag) : Pc nr V) := by
  cases flag <;> trivial

theorem scanEnd_owns {index init min k : ℕ} {flag : QueueOp} {i : ℕ} {cv : Word nr V} :
    ¬ Owns chain k (.reclaim i cv (scanEnd index init min flag) : Pc nr V) := by
  cases flag <;> exact id

/-- The smaller of two nodes, and whether the scan may stop there. -/
theorem compare_inv {flag : QueueOp} {index init l min nextMin : ℕ} (hm : Memory Q chain base g)
    (h : ReclaimInv Q chain base g (.compare flag index init l min nextMin)) {min' : ℕ}
    (hmin' : min' = if (g.heap nextMin).id < (g.heap min).id then nextMin else min) :
    ReclaimInv Q chain base g (if (g.heap min').id ≤ index then scanEnd index init min' flag
      else .scan flag index init (l + 1) min') := by
  obtain ⟨rfl, hinit, ⟨m, hbm, hmin, hseen⟩, m', hbm', hnext, hfrom⟩ := h
  rw [id_eq hm hnext hbm', id_eq hm hmin hbm] at hmin'
  by_cases hlt : m' < m
  · rw [if_pos hlt] at hmin'
    subst hmin'
    rw [id_eq hm hnext hbm']
    split
    · have hbase : m' = index := by omega
      exact scanEnd_break hinit (hbase ▸ hnext)
    · refine ⟨rfl, hinit, m', hbm', hnext, Or.inr (scanned_succ ?_ hfrom)⟩
      rcases hseen with rfl | hseen
      · omega
      · exact scanned_mono_place hlt.le hseen
  · rw [if_neg hlt] at hmin'
    subst hmin'
    rw [id_eq hm hmin hbm]
    split
    · have hbase : m = index := by omega
      exact scanEnd_break hinit (hbase ▸ hmin)
    · refine ⟨rfl, hinit, m, hbm, hmin, Or.inr (scanned_succ ?_ fun t ht =>
        (hfrom t ht).mono (.refl chain) (by omega))⟩
      rcases hseen with rfl | hseen
      · omega
      · exact hseen

/-! ### The nodes that are freed -/

/-- The state after `free(init_node)`. -/
def afterFree (g : Shared nr V) (init : ℕ) (junk : Node nr V) (log : Log nr V) : Shared nr V :=
  { g with
    heap := Function.update g.heap init junk
    freed := (init, (g.heap init).id) :: g.freed
    log := log }

theorem memory_free {a b init : ℕ} {junk : Node nr V} {log : Log nr V} (hm : Memory Q chain base g)
    (hab : a < b) (hb : b ≤ base) (hinit : chain[a]? = some init) (hun : Unfreed g a b) :
    Memory Q chain base (afterFree g init junk log) := by
  have hid := (hm.node a init hinit (hun a init (Nat.le_refl _) hab)).1
  refine ⟨hm.nodup, hm.lt_used, fun p hp => ?_, fun k p hp hk => ?_, fun p k hp => ?_, ?_,
    hm.initNode, hm.initId, hm.handle, hm.spare, hm.spare_inj⟩
  · have hne : p ≠ init := fun h => hp (h ▸ mem_of_place hinit)
    simpa only [afterFree, Function.update_of_ne hne] using hm.unlinked p hp
  · simp only [afterFree, List.mem_cons, not_or, hid, Prod.mk.injEq] at hk
    have hne : p ≠ init := fun h => hk.1 ⟨h, place_unique hm.nodup hp (h ▸ hinit)⟩
    simpa only [afterFree, Function.update_of_ne hne] using hm.node k p hp hk.2
  · simp only [afterFree, List.mem_cons, hid, Prod.mk.injEq] at hp
    rcases hp with ⟨rfl, rfl⟩ | hp
    · exact ⟨hinit, by omega⟩
    · exact hm.freed p k hp
  · simp only [afterFree, List.map_cons, List.nodup_cons]
    refine ⟨fun h => ?_, hm.freed_nodup⟩
    obtain ⟨⟨p, k⟩, hpk, rfl⟩ := List.mem_map.mp h
    have hka := place_unique hm.nodup (hm.freed p k hpk).1 hinit
    exact hun a p (Nat.le_refl _) hab (hka ▸ hpk)

/-- A node that `u` is about to free is one that no other thread is about to free. -/
theorem inv_free {u : Fin nr} {i a b init min : ℕ} {tmp : Option ℕ} {cv : Word nr V}
    {junk : Node nr V} (log : Log nr V) (hi : Inv Q chain base s)
    (hpc : s.thread u = .reclaim i cv (.free init tmp min))
    (hab : a < b) (hb : b ≤ base) (hinit : chain[a]? = some init) (hmin : chain[b]? = some min)
    (hun : Unfreed s.shared a b)
    (hown : Local Q chain base (afterFree s.shared init junk log) u pc')
    (hlock : ¬ Locked pc') (howns : ∀ k, Owns chain k pc' → Owns chain k (s.thread u)) :
    Inv Q chain base ⟨afterFree s.shared init junk log, Function.update s.thread u pc'⟩ := by
  have hm := hi.memory
  have hid := (hm.node a init hinit (hun a init (Nat.le_refl _) hab)).1
  have hmine : Owns chain a (s.thread u) := by
    rw [hpc]
    exact ⟨a, b, hinit, hmin, Nat.le_refl _, hab⟩
  refine inv_of_unlocked hi (memory_free hm hab hb hinit hun) hown (fun v hv => ?_) rfl
    (fun h => absurd h hlock) howns
  refine ⟨.refl chain, Nat.le_refl _, fun _ => rfl, rfl, fun tmp' ht => ?_, fun _ => Nat.le_refl _,
    fun _ _ _ h => h, fun k p hk h => ?_⟩
  · have hne : tmp' ≠ init := fun h => (hm.spare v tmp' ht).2 (h ▸ mem_of_place hinit)
    simp only [afterFree, Function.update_of_ne hne]
  · simp only [afterFree, List.mem_cons, hid, Prod.mk.injEq, not_or]
    exact ⟨fun heq => hv (hi.disjoint v u a (heq.2 ▸ hk) hmine), h⟩

theorem steps_free {u : Fin nr} {i init min : ℕ} {tmp : Option ℕ} {cv : Word nr V}
    {junk : Node nr V} (hi : Inv Q chain base s)
    (hpc : s.thread u = .reclaim i cv (.free init tmp min))
    (hn : reclaim Q u s.shared junk i cv (.free init tmp min) = some (g', pc')) :
    Steps Q chain base s u g' pc' := by
  have hm := hi.memory
  have hl := hi.thread u
  rw [hpc] at hl
  obtain ⟨a, b, hab, hb, hinit, hmin, hun, htmp⟩ := hl
  have hid := (hm.node a init hinit (hun a init (Nat.le_refl _) hab)).1
  -- the node that is freed lies before `base`
  have hcell : ∀ log k, base ≤ k / Q.cells →
      cellAt Q chain (afterFree s.shared init junk log) k =
        (written u (s.thread u) k).getD (cellAt Q chain s.shared k) := by
    intro log k hk
    rw [hpc]
    simp only [written, Option.getD_none, cellAt, Shared.cell]
    cases hp : chain[k / Q.cells]? with
    | none => rfl
    | some p =>
      have hne : p ≠ init := fun h => by
        have := place_unique hm.nodup hp (h ▸ hinit)
        omega
      simp only [afterFree, Function.update_of_ne hne]
  simp only [reclaim] at hn
  split at hn
  · rename_i tmp
    split at hn
    · cases hn
      exact ⟨chain, base, inv_free _ hi hpc hab hb hinit hmin hun trivial id (fun _ h => h.elim),
        .refl chain, Nat.le_refl _, fun _ => rfl, hcell _⟩
    · rename_i hne
      cases hn
      have hab' : a + 1 < b := by
        rcases Nat.lt_or_ge (a + 1) b with h | h
        · exact h
        · have hbeq : b = a + 1 := by omega
          subst hbeq
          rw [hmin] at htmp
          exact absurd (Option.some.inj htmp) hne
      refine ⟨chain, base, inv_free s.shared.log hi hpc hab hb hinit hmin hun
        ⟨a + 1, b, hab', hb, htmp.symm, hmin, fun k p hak hkb h => ?_⟩ id (fun k h => ?_),
        .refl chain, Nat.le_refl _, fun _ => rfl, hcell _⟩
      · simp only [afterFree, List.mem_cons, hid, Prod.mk.injEq] at h
        rcases h with ⟨-, hka⟩ | h
        · omega
        · exact hun k p (by omega) hkb h
      · obtain ⟨a', b', ha', hb', hak, hkb⟩ := h
        have haa := place_unique hm.nodup ha' htmp.symm
        rw [hpc]
        exact ⟨a, b', hinit, hb', by omega, hkb⟩
  · cases hn

/-! ### All accesses -/

theorem steps_reclaim {u : Fin nr} {i : ℕ} {cv : Word nr V} {p : ReclaimPc} {junk : Node nr V}
    (hi : Inv Q chain base s) (hpc : s.thread u = .reclaim i cv p)
    (hn : reclaim Q u s.shared junk i cv p = some (g', pc')) : Steps Q chain base s u g' pc' := by
  have hm := hi.memory
  have hl := hi.thread u
  rw [hpc] at hl
  have hw : written u (s.thread u) = fun _ => none := by
    rw [hpc]
    rfl
  cases p with
  | loadInit =>
    simp only [reclaim] at hn
    split at hn <;> cases hn
    · exact steps_scan hi hpc trivial (fun h => h) fun _ h => h
    · exact steps_dequeued hi hw
  | casInit index =>
    simp only [reclaim] at hn
    split at hn <;> cases hn
    · exact steps_lock hi hpc ‹_›
    · exact steps_dequeued hi hw
  | initNode index =>
    cases hn
    exact steps_scan hi hpc ⟨hl, hm.initNode⟩ (fun h => h) fun _ h => h
  | first index init =>
    simp only [reclaim] at hn
    split at hn
    · rename_i t ht
      cases hn
      obtain ⟨k, hk, hbase, -⟩ := hm.handle .dequeue t (List.mem_of_getElem? ht)
      refine steps_scan hi hpc ⟨hl.1, hl.2, k, hbase, hk, Or.inr (scanned_succ (l := 0) ?_ ?_)⟩
        (fun h => h) fun _ h => h
      · intro t ht
        simp at ht
      · intro t' ht'
        change Q.dequeueHandles[0]? = some t' at ht'
        rw [ht] at ht'
        cases ht'
        exact ⟨k, hk, Nat.le_refl _⟩
    · cases hn
  | scan flag index init l min =>
    obtain ⟨rfl, hinit, hmin⟩ := hl
    simp only [reclaim] at hn
    split at hn
    · rename_i t ht
      cases hn
      obtain ⟨k, hk, hbase, -⟩ := hm.handle flag t (List.mem_of_getElem? ht)
      refine steps_scan hi hpc ⟨rfl, hinit, hmin, k, hbase, hk, fun t' ht' => ?_⟩ (fun h => h)
        fun _ h => h
      rw [ht] at ht'
      cases ht'
      exact ⟨k, hk, Nat.le_refl _⟩
    · rename_i hend
      cases hn
      exact steps_scan hi hpc (scanEnd_inv hinit (List.getElem?_eq_none_iff.mp hend) hmin)
        (fun _ => trivial) fun k h => absurd h scanEnd_owns
  | compare flag index init l min nextMin =>
    simp only [reclaim] at hn
    generalize hmin : (if (s.shared.heap nextMin).id < (s.shared.heap min).id then nextMin
      else min) = min' at hn
    have hcmp := compare_inv hm hl hmin.symm
    split at hn <;> rename_i hle <;> cases hn
    · rw [if_pos hle] at hcmp
      exact steps_scan hi hpc hcmp (fun _ => trivial) fun k h => absurd h scanEnd_owns
    · rw [if_neg hle] at hcmp
      exact steps_scan hi hpc hcmp (fun h => h) fun _ h => h
  | decide index init min =>
    obtain ⟨rfl, hinit, m, hbm, hmin, hseen⟩ := hl
    have hid := id_eq hm hmin hbm
    simp only [reclaim] at hn
    split at hn <;> rename_i hle <;> cases hn
    · exact steps_scan hi hpc rfl (fun h => h) fun _ h => h
    · rw [hid] at hle ⊢
      refine steps_scan hi hpc ⟨hinit, by omega, hmin, hseen.resolve_left (by omega)⟩ (fun h => h)
        fun _ h => h
  | restore index =>
    cases hn
    have hindex : index = base := hl
    subst hindex
    exact steps_parts (inv_unlock _ hi (by rw [hpc]; trivial) trivial id fun _ h => h.elim)
      (Nat.le_refl _) (fun _ => rfl) rfl hw
  | setInitNode init min newId =>
    cases hn
    exact steps_parts (inv_setInitNode hi hpc) hl.2.1.le
      (fun h => absurd (by rw [hpc]; trivial) h) rfl hw
  | reopen init min newId =>
    cases hn
    obtain ⟨rfl, a, hlt, hinit, hmin, hun⟩ := hl
    refine steps_parts (inv_unlock s.shared.log hi (by rw [hpc]; trivial)
      ⟨a, newId, hlt, Nat.le_refl _, hinit, hmin, hun⟩ id fun k h => ?_) (Nat.le_refl _)
      (fun _ => rfl) rfl hw
    rw [hpc]
    exact h
  | loadNext init min =>
    cases hn
    obtain ⟨a, b, hab, hb, hinit, hmin, hun⟩ := hl
    exact steps_scan hi hpc ⟨a, b, hab, hb, hinit, hmin, hun,
      (hm.node a init hinit (hun a init (Nat.le_refl _) hab)).2⟩ (fun h => h) fun _ h => h
  | free init tmp min => exact steps_free hi hpc hn

theorem steps_run {u : Fin nr} {junk : Node nr V} (hi : Inv Q chain base s)
    (hn : run Q u s.shared junk (s.thread u) = some (g', pc')) : Steps Q chain base s u g' pc' := by
  have hm := hi.memory
  have hl := hi.thread u
  have hquiet : ∀ put pop futex asleep log, s.shared.putIndex ≤ put → s.shared.popIndex ≤ pop →
      Quiet chain s.shared { s.shared with
        putIndex := put, popIndex := pop, futex := futex, asleep := asleep, log := log } :=
    fun put pop futex asleep log => quiet_fields put pop futex asleep log
  cases hpc : s.thread u <;> rw [hpc] at hn hl
  case idle => cases hn
  case fetch op =>
    cases op <;> cases hn
    · obtain ⟨k, hk, -, hle⟩ := hm.handle .enqueue u hl
      exact steps_quiet hi (hquiet _ s.shared.popIndex s.shared.futex s.shared.asleep _
        (Nat.le_succ _) (Nat.le_refl _)) rfl (by rw [hpc]; rfl)
        ⟨hl, Nat.lt_succ_self _, k, hk, Nat.zero_le _, hle⟩ (fun h => h.elim) fun _ h => h.elim
    · obtain ⟨k, hk, -, hle⟩ := hm.handle .dequeue u hl
      exact steps_quiet hi (hquiet s.shared.putIndex _ s.shared.futex s.shared.asleep _
        (Nat.le_refl _) (Nat.le_succ _)) rfl (by rw [hpc]; rfl)
        ⟨hl, Nat.lt_succ_self _, k, hk, Nat.zero_le _, hle⟩ (fun h => h.elim) fun _ h => h.elim
  case start op i =>
    cases hn
    exact steps_start hi hpc
  case next op i curr j =>
    simp only [run] at hn
    split at hn <;> rename_i hnext <;> cases hn
    · exact steps_advance hi (by rw [hpc]; rfl) hl hnext
    · exact steps_quiet hi quiet_refl rfl (by rw [hpc]; rfl) hl (fun h => h.elim) fun _ h => h.elim
  case fill op i curr j =>
    cases hn
    exact steps_fill hi hpc
  case link op i curr j tmp =>
    simp only [run] at hn
    split at hn <;> rename_i hnext <;> cases hn
    · exact steps_link hi hpc hnext
    · exact steps_advance hi (by rw [hpc]; rfl) ⟨hl.1, hl.2.1⟩ hnext
  case setPtr op i curr =>
    cases hn
    exact steps_setPtr hi hpc
  case xchgPush v i c =>
    simp only [run] at hn
    split at hn <;> cases hn
    · exact steps_setCell hi hl (quiet_fields _ _ _ _ _ (Nat.le_refl _) (Nat.le_refl _)) rfl
        (by rw [hpc]; rfl) trivial ⟨id, fun _ => id⟩
    · exact steps_setCell hi hl (quiet_fields _ _ _ _ _ (Nat.le_refl _) (Nat.le_refl _)) rfl
        (by rw [hpc]; rfl) trivial ⟨id, fun _ => id⟩
  case setWord i t =>
    cases hn
    exact steps_quiet hi (hquiet s.shared.putIndex s.shared.popIndex _ s.shared.asleep s.shared.log
      (Nat.le_refl _) (Nat.le_refl _)) rfl (by rw [hpc]; rfl) trivial (fun h => h.elim)
      fun _ h => h.elim
  case wake i t =>
    cases hn
    exact steps_quiet hi (hquiet s.shared.putIndex s.shared.popIndex s.shared.futex _ _
      (Nat.le_refl _) (Nat.le_refl _)) rfl (by rw [hpc]; rfl) trivial (fun h => h.elim)
      fun _ h => h.elim
  case spin i c times =>
    simp only [run] at hn
    split at hn
    · cases hn
      split
      · exact steps_quiet hi quiet_refl rfl (by rw [hpc]; rfl) hl (fun h => h.elim)
          fun _ h => h.elim
      · exact steps_quiet hi quiet_refl rfl (by rw [hpc]; rfl) hl (fun h => h.elim)
          fun _ h => h.elim
    · exact steps_over hi (by rw [hpc]; rfl) (Option.some.inj hn)
  case xchgPop i c =>
    simp only [run] at hn
    split at hn
    · cases hn
      exact steps_setCell hi hl quiet_refl rfl (by rw [hpc]; rfl) hl ⟨id, fun _ => id⟩
    · have hover := over_spec Q chain base (s.shared.setCell Q c i (.futex u)) u i
        (s.shared.cell Q c i)
      rw [Option.some.inj hn] at hover
      obtain ⟨hq, hheap, hown, hplain⟩ := hover
      exact steps_setCell hi hl hq hheap (by rw [hpc]; rfl) hown hplain
  case wait i c =>
    simp only [run] at hn
    split at hn <;> cases hn
    · exact steps_quiet hi (hquiet s.shared.putIndex s.shared.popIndex s.shared.futex _ s.shared.log
        (Nat.le_refl _) (Nat.le_refl _)) rfl (by rw [hpc]; rfl) hl (fun h => h.elim)
        fun _ h => h.elim
    · exact steps_quiet hi quiet_refl rfl (by rw [hpc]; rfl) hl (fun h => h.elim) fun _ h => h.elim
  case sleep i c =>
    simp only [run] at hn
    split at hn <;> cases hn
    exact steps_quiet hi quiet_refl rfl (by rw [hpc]; rfl) hl (fun h => h.elim) fun _ h => h.elim
  case check i c =>
    cases hn
    split
    · exact steps_quiet hi quiet_refl rfl (by rw [hpc]; rfl) hl (fun h => h.elim)
        fun _ h => h.elim
    · exact steps_quiet hi quiet_refl rfl (by rw [hpc]; rfl) hl (fun h => h.elim)
        fun _ h => h.elim
  case reload i c =>
    exact steps_over hi (by rw [hpc]; rfl) (Option.some.inj hn)
  case reclaim i cv p => exact steps_reclaim hi hpc hn

/-- A call in progress makes its next access, a sleeping thread wakes up by itself, or an idle
thread enters a call. -/
theorem next_cases {u : Fin nr} {a : Act nr V} (hn : next Q u g pc a = some (g', pc')) :
    (∃ junk, run Q u g junk pc = some (g', pc')) ∨
      (∃ i c, pc = .sleep i c ∧ pc' = .check i c ∧
        g' = { g with asleep := Function.update g.asleep u false }) ∨
      (pc = .idle ∧ ∃ v, u ∈ Q.enqueueHandles ∧ g' = g ∧ pc' = .fetch (.enqueue v)) ∨
      (pc = .idle ∧ u ∈ Q.dequeueHandles ∧ pc' = .fetch .dequeue ∧
        g' = { g with futex := Function.update g.futex u 1 }) := by
  unfold next at hn
  split at hn
  · split at hn
    · cases hn
      exact Or.inr (Or.inr (Or.inl ⟨rfl, _, ‹_›, rfl, rfl⟩))
    · cases hn
  · split at hn
    · cases hn
      exact Or.inr (Or.inr (Or.inr ⟨rfl, ‹_›, rfl, rfl⟩))
    · cases hn
  · cases hn
    exact Or.inr (Or.inl ⟨_, _, rfl, rfl, rfl⟩)
  · exact Or.inl ⟨_, hn⟩
  · cases hn

/-- The step lemma: every step of every thread keeps the invariant. -/
theorem steps_next {u : Fin nr} {a : Act nr V} (hi : Inv Q chain base s)
    (hn : next Q u s.shared (s.thread u) a = some (g', pc')) : Steps Q chain base s u g' pc' := by
  rcases next_cases hn with ⟨junk, hrun⟩ | ⟨i, c, hpc, rfl, rfl⟩ | ⟨hpc, v, hreg, rfl, rfl⟩ |
    ⟨hpc, hreg, rfl, rfl⟩
  · exact steps_run hi hrun
  · have hl := hi.thread u
    rw [hpc] at hl
    exact steps_quiet hi (quiet_fields _ _ _ _ _ (Nat.le_refl _) (Nat.le_refl _)) rfl
      (by rw [hpc]; rfl) hl (fun h => h.elim) fun _ h => h.elim
  · exact steps_quiet hi quiet_refl rfl (by rw [hpc]; rfl) hreg (fun h => h.elim) fun _ h => h.elim
  · exact steps_quiet hi (quiet_fields _ _ _ _ _ (Nat.le_refl _) (Nat.le_refl _)) rfl
      (by rw [hpc]; rfl) hreg (fun h => h.elim) fun _ h => h.elim

/-- After the registration the chain is the one node `init_node`. -/
theorem inv_start : Inv Q [0] 0 (start nr V) := by
  refine ⟨⟨by simp, fun p hp => ?_, fun p _ => ⟨rfl, rfl⟩, fun k p hp _ => ?_, fun p k h => ?_,
    by simp [start], rfl, Or.inr rfl, fun flag t _ => ?_, fun t p hp => ?_, fun t t' p hp hp' => ?_⟩,
    fun u => trivial, fun u h => h.elim, fun u v h => h.elim, fun u v k h => h.elim⟩
  · simp only [List.mem_singleton] at hp
    subst hp
    exact Nat.succ_pos nr
  · rw [List.getElem?_singleton] at hp
    split at hp
    · subst k
      exact ⟨rfl, rfl⟩
    · cases hp
  · cases h
  · exact ⟨0, by cases flag <;> rfl, Nat.le_refl _, Nat.zero_le _⟩
  · cases hp
    exact ⟨Nat.succ_lt_succ t.isLt, by simp⟩
  · cases hp
    simp only [start, Option.some.injEq, Nat.add_right_cancel_iff] at hp'
    exact Fin.ext hp'.symm

theorem inv_reachable (hr : (system V Q).Reachable System.free s) :
    ∃ chain base, Inv Q chain base s := by
  refine System.reachable_invariant (I := fun s => ∃ chain base, Inv Q chain base s)
    (fun s hs => ?_) (fun s a s' _ hi _ hn => ?_) hr
  · cases hs
    exact ⟨[0], 0, inv_start⟩
  · obtain ⟨chain, base, hi⟩ := hi
    obtain ⟨g', pc', hnext, rfl⟩ := Threads.step_cases hn
    obtain ⟨chain', base', hi', -⟩ := steps_next hi hnext
    exact ⟨chain', base', hi'⟩

/-- The node that an operation in progress is walking, or holds a cell of. -/
def InUse (n : ℕ) : Pc nr V → Prop
  | .next _ _ curr _ => n = curr
  | .fill _ _ curr _ => n = curr
  | .link _ _ curr _ _ => n = curr
  | .setPtr _ _ curr => n = curr
  | .xchgPush _ _ c => n = c
  | .spin _ c _ => n = c
  | .xchgPop _ c => n = c
  | .wait _ c => n = c
  | .sleep _ c => n = c
  | .check _ c => n = c
  | .reload _ c => n = c
  | _ => False

/-- Safety of the reclamation: it is exclusive, no node is freed twice, and a freed node had a
smaller id than every node that a registered handle is at or that an operation uses. -/
structure SafeReclamation (Q : Setup nr) (s : Config (Fin nr) (Shared nr V) (Pc nr V)) : Prop where
  exclusive : ∀ u v, Locked (s.thread u) → Locked (s.thread v) → u = v
  initId : s.shared.initId ≠ -1 → s.shared.initId = (s.shared.heap s.shared.initNode).id
  freed_once : (s.shared.freed.map Prod.fst).Nodup
  freed_lt_handle : ∀ p id, (p, id) ∈ s.shared.freed → ∀ flag, ∀ t ∈ Q.handles flag,
    id < (s.shared.heap ((s.shared.handle t).ptr flag)).id
  freed_lt_use : ∀ p id, (p, id) ∈ s.shared.freed → ∀ u n, InUse n (s.thread u) →
    id < (s.shared.heap n).id

theorem base_le_of_holds (hm : Memory Q chain base g) {u : Fin nr} {flag : QueueOp} {i c : ℕ}
    (h : Holds Q chain g u flag i c) : base ≤ i / Q.cells := by
  obtain ⟨hreg, hc, hptr⟩ := h
  obtain ⟨k, hk, hbase, -⟩ := hm.handle flag u hreg
  rw [hptr] at hk
  have hkk := place_unique hm.nodup hk hc
  omega

/-- A node in use has a place from `base` on. -/
theorem inUse_place {u : Fin nr} {n : ℕ} (hm : Memory Q chain base g)
    (hl : Local Q chain base g u pc) (h : InUse n pc) : ∃ k, base ≤ k ∧ chain[k]? = some n := by
  have hwalk : ∀ {op : Op V} {i j : ℕ}, Walking Q chain g u op i n j →
      ∃ k, base ≤ k ∧ chain[k]? = some n := fun {_ _ j} hw =>
    ⟨j, base_le_of_between hm hw.1 hw.2.2.2.2, hw.2.2.1⟩
  have hhold : ∀ {flag : QueueOp} {i : ℕ}, Holds Q chain g u flag i n →
      ∃ k, base ≤ k ∧ chain[k]? = some n := fun hh => ⟨_, base_le_of_holds hm hh, hh.2.1⟩
  cases pc <;> simp only [InUse] at h <;> subst h <;> simp only [Local] at hl
  case next => exact hwalk hl.1
  case fill => exact hwalk hl.1
  case link => exact hwalk hl.1
  case setPtr => exact hwalk hl
  all_goals exact hhold hl

theorem safe_of_inv (hi : Inv Q chain base s) : SafeReclamation Q s := by
  have hm := hi.memory
  refine ⟨hi.lock_unique, fun h => ?_, hm.freed_nodup, fun p id hp flag t ht => ?_,
    fun p id hp u n hn => ?_⟩
  · rw [id_eq hm hm.initNode (Nat.le_refl _)]
    exact hm.initId.resolve_left h
  · obtain ⟨k, hk, hbase, -⟩ := hm.handle flag t ht
    have hlt := (hm.freed p id hp).2
    rw [id_eq hm hk hbase]
    omega
  · obtain ⟨k, hbase, hk⟩ := inUse_place hm (hi.thread u) hn
    have hlt := (hm.freed p id hp).2
    rw [id_eq hm hk hbase]
    omega

/-- Reclamation is safe in every reachable state, for any numbers of producers and consumers, any
threshold and any size of the nodes. -/
theorem reclamation_safe (hr : (system V Q).Reachable System.free s) : SafeReclamation Q s := by
  obtain ⟨chain, base, hi⟩ := inv_reachable hr
  exact safe_of_inv hi

/-- Thread 0 enqueues two values, thread 1 dequeues them and reclaims the first node; a node has
one cell. -/
def reclaimSchedule (t u : Fin nr) : List (Fin nr × Act nr ℕ) :=
  (t, .enqueue 7) :: List.replicate 4 (t, .run newNode) ++
    (t, .enqueue 8) :: List.replicate 7 (t, .run newNode) ++
      (u, .dequeue) :: List.replicate 5 (u, .run newNode) ++
        (u, .dequeue) :: List.replicate 18 (u, .run ⟨none, 99, fun _ => .null⟩)

theorem reclamation_safe_two : ∃ s : Config (Fin 2) (Shared 2 ℕ) (Pc 2 ℕ),
    s.shared.freed = [(0, 0)] ∧ s.shared.log.dequeued 1 = some (.val 8) ∧
      SafeReclamation ⟨0, 0, 1, [0], [1]⟩ s := by
  have hrun : ((system ℕ ⟨0, 0, 1, [0], [1]⟩).exec (fun _ _ => true) (start 2 ℕ)
      (reclaimSchedule 0 1)).any (fun s => decide (s.shared.freed = [(0, 0)] ∧
        s.shared.log.dequeued 1 = some (.val 8))) = true := by decide +kernel
  obtain ⟨s, hs, hend⟩ := (Option.any_eq_true _ _).mp hrun
  obtain ⟨hfreed, hret⟩ := of_decide_eq_true hend
  exact ⟨s, hfreed, hret,
    reclamation_safe ⟨_, rfl, System.run_of_exec (fun _ _ _ => trivial) hs⟩⟩

end LinuxSummer.Mpmc
