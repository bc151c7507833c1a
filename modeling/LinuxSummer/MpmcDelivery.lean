import LinuxSummer.MpmcCells

/-! The queue of hw3/mpmc.c delivers each value once, in the order of the indices. -/
namespace LinuxSummer.Mpmc
set_option linter.unusedSectionVars false

variable {nr : ℕ} {V : Type} {Q : Setup nr} {g g' : Shared nr V} {pc pc' : Pc nr V}
  {chain chain' : List ℕ} {base base' : ℕ} {s s' : Config (Fin nr) (Shared nr V) (Pc nr V)}
  {cell cell' : ℕ → Word nr V} {u x : Fin nr}

/-- What a step of `x` does to the cells and to its own part of the invariant. -/
def CellStep (Q : Setup nr) (base' : ℕ) (cell cell' : ℕ → Word nr V)
    (s : Config (Fin nr) (Shared nr V) (Pc nr V)) (x : Fin nr) (g' : Shared nr V)
    (pc' : Pc nr V) : Prop :=
  Effect Q base' cell cell' s x g' pc' ∧ LogInv g' ∧ StageInv cell' g' x (stage pc')

/-- A step that changes no cell, no futex word and no record. -/
theorem effect_plain (hlog : g'.log = s.shared.log) (hpop : s.shared.popIndex ≤ g'.popIndex)
    (hfutex : g'.futex = s.shared.futex)
    (hasleep : ∀ v, v ≠ x → g'.asleep v = true → s.shared.asleep v = true)
    (hcell : ∀ i, base' ≤ i / Q.cells → cell' i = cell i)
    (hstay : ∀ i, stage (s.thread x) = .waiting i → s.shared.futex x = 1 →
      stage pc' = .waiting i)
    (henter : ∀ i, stage pc' = .waiting i → stage (s.thread x) = .waiting i)
    (hwake : ∀ i t, stage pc' ≠ .waking i t) : Effect Q base' cell cell' s x g' pc' where
  enqueue i p h := by rwa [hlog]
  dequeue i t h := by rwa [hlog]
  popIndex := hpop
  stored i v h := by rwa [hlog]
  index i hi := .same (by rw [hlog]) (hcell i hi)
  futex v _ := Or.inl (by rw [hfutex])
  asleep := hasleep
  enqueued i := Or.inl (by rw [hlog])
  stay i hst hone := ⟨hstay i hst hone, by rwa [hfutex]⟩
  enter i hst := Or.inl ⟨henter i hst, by rw [hfutex]⟩
  setWord i t h := absurd (congrArg stage h) (hwake i t)
  wake i t h := absurd (congrArg stage h) (hwake i t)

theorem stageInv_congr {st : Stage nr V} (hlog : g'.log = g.log) (hfutex : g'.futex = g.futex)
    (hasleep : g'.asleep = g.asleep) (hcell : ∀ i, st.index = some i → cell' i = cell i)
    (h : StageInv cell g x st) : StageInv cell' g' x st := by
  cases st <;> simp only [StageInv, Ready, hlog, hfutex, hasleep] at h ⊢
  case popping i => rwa [hcell i rfl]
  case waiting i => rwa [hcell i rfl]
  case reading i => rwa [hcell i rfl]
  all_goals exact h

theorem logInv_congr (hlog : g'.log = g.log) (hput : g'.putIndex = g.putIndex)
    (hpop : g'.popIndex = g.popIndex) (h : LogInv g) : LogInv g' := by
  refine ⟨?_, ?_, ?_, ?_, ?_⟩ <;> simp only [hlog, hput, hpop]
  · exact h.enqueue_lt
  · exact h.dequeue_lt
  · exact h.stored
  · exact h.enqueued
  · exact h.dequeued

/-- A step inside `mpmc_find_cell` or inside the reclamation. -/
theorem cellStep_plain (hc : Cells Q base cell s) (hlog : g'.log = s.shared.log)
    (hput : g'.putIndex = s.shared.putIndex) (hpop : g'.popIndex = s.shared.popIndex)
    (hfutex : g'.futex = s.shared.futex) (hasleep : g'.asleep = s.shared.asleep)
    (hcell : ∀ i, base' ≤ i / Q.cells → cell' i = cell i)
    (hidx : ∀ i, (stage pc').index = some i → base' ≤ i / Q.cells)
    (hst : stage pc' = stage (s.thread x)) (hwake : ∀ i t, stage pc' ≠ .waking i t) :
    CellStep Q base' cell cell' s x g' pc' := by
  refine ⟨effect_plain hlog hpop.ge hfutex (fun v _ h => by rwa [hasleep] at h) hcell
    (fun i h _ => hst.trans h) (fun i h => hst.symm.trans h) hwake,
    logInv_congr hlog hput hpop hc.log, ?_⟩
  exact stageInv_congr hlog hfutex hasleep (fun i hi => hcell i (hidx i hi)) (hst ▸ hc.thread x)

/-- The return of a dequeue with what it holds. -/
theorem cellStep_dequeued {i : ℕ} {cv : Word nr V} {p : ReclaimPc}
    (h : CellStep Q base' cell cell' s x g' (.reclaim i cv p)) :
    CellStep Q base' cell cell' s x (dequeued g' i cv).1 (dequeued g' i cv).2 := by
  obtain ⟨he, hlog, hown⟩ := h
  have hne : ∀ k, stage (.reclaim i cv p : Pc nr V) ≠ .waiting k := fun k h => by cases h
  refine ⟨⟨he.enqueue, he.dequeue, he.popIndex, he.stored, fun k hk => ?_, he.futex, he.asleep,
    he.enqueued, fun k hst hone => absurd (he.stay k hst hone).1 (hne k), fun _ h => (by cases h),
    fun _ _ h => (by cases h), fun _ _ h => (by cases h)⟩,
    ⟨hlog.enqueue_lt, hlog.dequeue_lt, hlog.stored, hlog.enqueued, fun k w hk => ?_⟩, trivial⟩
  · cases he.index k hk with
    | same hs hcell => exact .same hs hcell
    | push w hx hnone hs hcell => exact .push w hx hnone hs hcell
    | pop hx hs hcell hst => exact .pop hx hs hcell fun h => absurd (hst h) (hne k)
  · simp only [dequeued] at hk ⊢
    by_cases hki : k = i
    · subst hki
      rw [Function.update_self] at hk
      cases hk
      exact hown.2
    · rw [Function.update_of_ne hki] at hk
      exact hlog.dequeued k w hk

/-- From the label `over` with the value in hand. -/
theorem cellStep_over {g₀ : Shared nr V} {i : ℕ} {cv : Word nr V}
    (hn : atOver Q g₀ i cv = (g', pc'))
    (h : CellStep Q base' cell cell' s x g₀ (.reclaim i cv .loadInit)) :
    CellStep Q base' cell cell' s x g' pc' := by
  rcases over_cases Q g₀ i cv with heq | heq
  · rw [heq] at hn
    cases hn
    exact h
  · rw [heq] at hn
    cases hn
    exact cellStep_dequeued h

/-- `mpmc_enqueue` gets its index. -/
theorem cellStep_put {v : V} (hc : Cells Q base cell s) (hst : stage (s.thread x) = .out)
    (hcell : ∀ i, base' ≤ i / Q.cells → cell' i = cell i) :
    CellStep Q base' cell cell' s x { s.shared with
      putIndex := s.shared.putIndex + 1
      log := { s.shared.log with
        enqueue := Function.update s.shared.log.enqueue s.shared.putIndex (some (x, v)) } }
      (.start (.enqueue v) s.shared.putIndex) := by
  have hlog := hc.log
  have hnone : s.shared.log.enqueue s.shared.putIndex = none := by
    by_contra h
    exact absurd ((hlog.enqueue_lt _).mp h) (Nat.lt_irrefl _)
  have hstored : s.shared.log.stored s.shared.putIndex = none := by
    cases h : s.shared.log.stored s.shared.putIndex with
    | none => rfl
    | some w =>
      obtain ⟨u, hu⟩ := hlog.stored _ _ h
      rw [hnone] at hu
      cases hu
  have hmono : ∀ i p, s.shared.log.enqueue i = some p →
      Function.update s.shared.log.enqueue s.shared.putIndex (some (x, v)) i = some p := by
    intro i p h
    have hne : i ≠ s.shared.putIndex := fun heq => by
      rw [heq, hnone] at h
      cases h
    rwa [Function.update_of_ne hne]
  refine ⟨⟨hmono, fun _ _ h => h, Nat.le_refl _, fun _ _ h => h, fun i hi => .same rfl (hcell i hi),
    fun _ _ => Or.inl rfl, fun _ _ h => h, fun _ => Or.inl rfl, fun i h => ?_,
    fun _ h => (by cases h), fun _ _ h => (by cases h), fun _ _ h => (by cases h)⟩,
    ⟨fun i => ?_, hlog.dequeue_lt, fun i w h => ?_, hlog.enqueued, hlog.dequeued⟩, ?_, hstored⟩
  · rw [hst] at h
    cases h
  · by_cases hi : i = s.shared.putIndex
    · subst hi
      simp
    · simp only [Function.update_of_ne hi, hlog.enqueue_lt]
      omega
  · obtain ⟨u, hu⟩ := hlog.stored i w h
    exact ⟨u, hmono i _ hu⟩
  · exact Function.update_self ..

/-- `mpmc_dequeue` gets its index. -/
theorem cellStep_pop (hc : Cells Q base cell s) (hbase : base ≤ base')
    (hst : stage (s.thread x) = .entered)
    (hcell : ∀ i, base' ≤ i / Q.cells → cell' i = cell i)
    (hidx : base' ≤ s.shared.popIndex / Q.cells) :
    CellStep Q base' cell cell' s x { s.shared with
      popIndex := s.shared.popIndex + 1
      log := { s.shared.log with
        dequeue := Function.update s.shared.log.dequeue s.shared.popIndex (some x) } }
      (.start .dequeue s.shared.popIndex) := by
  have hlog := hc.log
  have hone := hc.thread x
  rw [hst] at hone
  have hmono : ∀ i t, s.shared.log.dequeue i = some t →
      Function.update s.shared.log.dequeue s.shared.popIndex (some x) i = some t := by
    intro i t h
    have hlt := (hlog.dequeue_lt i).mp (by rw [h]; exact Option.some_ne_none t)
    rwa [Function.update_of_ne (by omega)]
  refine ⟨⟨fun _ _ h => h, hmono, Nat.le_succ _, fun _ _ h => h,
    fun i hi => .same rfl (hcell i hi), fun _ _ => Or.inl rfl, fun _ _ h => h, fun _ => Or.inl rfl,
    fun i h => ?_, fun _ h => (by cases h), fun _ _ h => (by cases h), fun _ _ h => (by cases h)⟩,
    ⟨hlog.enqueue_lt, fun i => ?_, hlog.stored, hlog.enqueued, hlog.dequeued⟩, ?_, hone, ?_⟩
  · rw [hst] at h
    cases h
  · by_cases hi : i = s.shared.popIndex
    · subst hi
      simp
    · simp only [Function.update_of_ne hi, hlog.dequeue_lt]
      omega
  · exact Function.update_self ..
  · have hready := hc.fresh _ (Nat.le_refl _) (hbase.trans hidx)
    unfold Ready at hready ⊢
    rw [hcell _ hidx, hready]

/-- The exchange by `mpmc_enqueue`, up to the return or the write to the futex word. -/
theorem effect_push {v : V} {i c : ℕ} {enqueued : ℕ → Bool} (hc : Cells Q base cell s)
    (hpc : s.thread x = .xchgPush v i c)
    (hcell : ∀ k, base' ≤ k / Q.cells → cell' k = if k = i then .val v else cell k)
    (hlog : g'.log = { s.shared.log with
      stored := Function.update s.shared.log.stored i (some v), enqueued := enqueued })
    (hpop : g'.popIndex = s.shared.popIndex) (hfutex : g'.futex = s.shared.futex)
    (hasleep : g'.asleep = s.shared.asleep)
    (henq : ∀ k, enqueued k = s.shared.log.enqueued k ∨ (k = i ∧ cell i = .null))
    (hbase : base' ≤ i / Q.cells) (hst : ∀ k, stage pc' ≠ .waiting k)
    (hset : ∀ k t, pc' = .setWord k t →
      t ≠ x ∧ stage (s.thread t) = .waiting k ∧ s.shared.futex t = 1)
    (hwake : ∀ k t, pc' ≠ .wake k t) : Effect Q base' cell cell' s x g' pc' := by
  have hx := hc.thread x
  rw [hpc] at hx
  obtain ⟨hput, hnone⟩ := hx
  have hold : ∀ k, stage (s.thread x) ≠ .waiting k := fun k h => by
    rw [hpc] at h
    cases h
  refine ⟨fun k p h => by rwa [hlog], fun k t h => by rwa [hlog], hpop.ge, fun k w h => ?_,
    fun k hk => ?_, fun w _ => Or.inl (by rw [hfutex]), fun w _ h => by rwa [hasleep] at h,
    fun k => ?_, fun k h => absurd h (hold k), fun k h => absurd h (hst k), fun k t h => ?_,
    fun k t h => absurd h (hwake k t)⟩
  · have hne : k ≠ i := fun heq => by
      rw [heq, hnone] at h
      cases h
    rw [hlog]
    simpa only [Function.update_of_ne hne] using h
  · by_cases hki : k = i
    · subst hki
      exact .push v hput hnone (by rw [hlog]; exact Function.update_self ..) (by simp [hcell k hk])
    · refine .same ?_ (by simp [hcell k hk, hki])
      rw [hlog]
      exact Function.update_of_ne hki ..
  · rw [hlog]
    rcases henq k with h | ⟨rfl, hnull⟩
    · exact Or.inl h
    · exact Or.inr (Or.inl ⟨hnone, hnull, hbase⟩)
  · rw [hfutex]
    exact hset k t h

/-- The records after the exchange by `mpmc_enqueue`. -/
theorem logInv_push {v : V} {i : ℕ} {enqueued : ℕ → Bool} (hlog : LogInv s.shared)
    (hput : s.shared.log.enqueue i = some (x, v)) (hnone : s.shared.log.stored i = none)
    (henq : ∀ k, enqueued k = true → k = i ∨ s.shared.log.enqueued k = true)
    (heq : g'.log = { s.shared.log with
      stored := Function.update s.shared.log.stored i (some v), enqueued := enqueued })
    (hputI : g'.putIndex = s.shared.putIndex) (hpopI : g'.popIndex = s.shared.popIndex) :
    LogInv g' := by
  refine ⟨?_, ?_, fun k w h => ?_, fun k h => ?_, fun k w h => ?_⟩ <;>
    simp only [heq, hputI, hpopI] at *
  · exact hlog.enqueue_lt
  · exact hlog.dequeue_lt
  · by_cases hki : k = i
    · subst hki
      rw [Function.update_self] at h
      cases h
      exact ⟨x, hput⟩
    · rw [Function.update_of_ne hki] at h
      exact hlog.stored k w h
  · by_cases hki : k = i
    · subst hki
      simp
    · rw [Function.update_of_ne hki]
      exact hlog.enqueued k ((henq k h).resolve_left hki)
  · obtain ⟨w', hw', heqw⟩ := hlog.dequeued k w h
    have hki : k ≠ i := fun heq => by
      rw [heq, hnone] at hw'
      cases hw'
    exact ⟨w', by rwa [Function.update_of_ne hki], heqw⟩

theorem cellStep_xchgPush {v : V} {i c : ℕ} {junk : Node nr V} (hc : Cells Q base cell s)
    (hpc : s.thread x = .xchgPush v i c) (hat : cell i = s.shared.cell Q c i)
    (hbase : base ≤ i / Q.cells) (hbase' : base' ≤ i / Q.cells)
    (hcell : ∀ k, base' ≤ k / Q.cells → cell' k = if k = i then .val v else cell k)
    (hn : run Q x s.shared junk (.xchgPush v i c) = some (g', pc')) :
    CellStep Q base' cell cell' s x g' pc' := by
  have hx := hc.thread x
  rw [hpc] at hx
  obtain ⟨hput, hnone⟩ := hx
  simp only [run] at hn
  split at hn <;> rename_i hold <;> cases hn
  · refine ⟨effect_push hc hpc hcell rfl rfl rfl rfl (fun k => ?_) hbase' (fun _ h => (by cases h))
      (fun _ _ h => (by cases h)) (fun _ _ h => (by cases h)),
      logInv_push hc.log hput hnone (fun k h => ?_) rfl rfl rfl, trivial⟩
    · by_cases hki : k = i
      · exact Or.inr ⟨hki, hat.trans hold⟩
      · exact Or.inl (Function.update_of_ne hki ..)
    · by_cases hki : k = i
      · exact Or.inl hki
      · exact Or.inr (by rwa [Function.update_of_ne hki] at h)
  · -- the word in the cell is that of the dequeue that waits for this index
    rename_i t
    have hwaits : stage (s.thread t) = .waiting i := by
      rcases hc.waiter i hbase hnone with h | ⟨t', h, hst⟩
      · rw [hat, hold] at h
        cases h
      · rw [hat, hold] at h
        cases h
        exact hst
    have ht := hc.thread t
    rw [hwaits] at ht
    have htx : t ≠ x := fun h => by
      rw [h, hpc] at hwaits
      cases hwaits
    refine ⟨effect_push hc hpc hcell rfl rfl rfl rfl (fun _ => Or.inl rfl) hbase'
      (fun _ h => (by cases h)) (fun k t' h => ?_) (fun _ _ h => (by cases h)),
      logInv_push hc.log hput hnone (fun _ h => Or.inr h) rfl rfl rfl, ⟨v, hput⟩, ?_, ht.1⟩
    · cases h
      exact ⟨htx, hwaits, (ht.2.1 hnone).2⟩
    · simp

/-- The exchange by `mpmc_dequeue`. -/
theorem cellStep_xchgPop {i c : ℕ} {junk : Node nr V} (hc : Cells Q base cell s)
    (hpc : s.thread x = .xchgPop i c) (hat : cell i = s.shared.cell Q c i)
    (hbase : base' ≤ i / Q.cells)
    (hcell : ∀ k, base' ≤ k / Q.cells → cell' k = if k = i then .futex x else cell k)
    (hn : run Q x s.shared junk (.xchgPop i c) = some (g', pc')) :
    CellStep Q base' cell cell' s x g' pc' := by
  have hx := hc.thread x
  rw [hpc] at hx
  obtain ⟨hdeq, hone, hready⟩ := hx
  unfold Ready at hready
  have hold : ∀ k, stage (s.thread x) ≠ .waiting k := fun k h => by
    rw [hpc] at h
    cases h
  have heffect : ∀ pc' : Pc nr V, (s.shared.log.stored i = none → stage pc' = .waiting i) →
      (∀ k, stage pc' = .waiting k → s.shared.log.stored k = none) →
      (∀ k t, stage pc' ≠ .waking k t) →
      Effect Q base' cell cell' s x (s.shared.setCell Q c i (.futex x)) pc' := by
    intro pc' hst henter hwake
    refine ⟨fun _ _ h => h, fun _ _ h => h, Nat.le_refl _, fun _ _ h => h, fun k hk => ?_,
      fun _ _ => Or.inl rfl, fun _ _ h => h, fun _ => Or.inl rfl, fun k h => absurd h (hold k),
      fun k h => Or.inr (henter k h), fun k t h => absurd (congrArg stage h) (hwake k t),
      fun k t h => absurd (congrArg stage h) (hwake k t)⟩
    by_cases hki : k = i
    · subst hki
      exact .pop hdeq rfl (by simp [hcell k hk]) hst
    · exact .same rfl (by simp [hcell k hk, hki])
  have hlog : LogInv (s.shared.setCell Q c i (.futex x)) :=
    logInv_congr (g := s.shared) rfl rfl rfl hc.log
  simp only [run] at hn
  split at hn
  · rename_i hnull
    cases hn
    have hnone : s.shared.log.stored i = none := by
      rw [← hat, hready] at hnull
      cases hs : s.shared.log.stored i with
      | none => rfl
      | some w =>
        rw [hs] at hnull
        cases hnull
    refine ⟨heffect _ (fun _ => rfl) (fun k h => ?_) (fun _ _ h => (by cases h)), hlog, hdeq,
      fun _ => ⟨by simp [hcell i hbase], hone⟩, fun w h => ?_, fun _ => ?_⟩
    · cases h
      exact hnone
    · exact absurd (hnone.symm.trans h) (fun h => (by cases h))
    · cases hdone : s.shared.log.enqueued i with
      | false => exact hdone
      | true => exact absurd hnone (hc.log.enqueued i hdone)
  · rename_i hne
    have hsome : ∃ w, s.shared.log.stored i = some w := by
      cases hs : s.shared.log.stored i with
      | none =>
        rw [hs, hat] at hready
        exact absurd hready hne
      | some w => exact ⟨w, rfl⟩
    obtain ⟨w, hw⟩ := hsome
    refine cellStep_over (Option.some.inj hn) ⟨heffect _ (fun h => ?_) (fun _ h => (by cases h))
      (fun _ _ h => (by cases h)), hlog, hdeq, w, hw, ?_⟩
    · rw [hw] at h
      cases h
    · rw [← hat, hready, hw]
      rfl

theorem stage_walk (Q : Setup nr) (op : Op V) (i curr j : ℕ) :
    stage (walk Q op i curr j : Pc nr V) = op.stage i := by
  unfold walk
  split <;> rfl

theorem stage_ne_waking {op : Op V} {i k : ℕ} {t : Fin nr} : op.stage i ≠ .waking k t := by
  cases op <;> exact fun h => (by cases h)

/-- The reclamation keeps what the thread holds. -/
theorem cellStep_reclaim {i : ℕ} {cv : Word nr V} {p : ReclaimPc} {junk : Node nr V}
    (hc : Cells Q base cell s) (hpc : s.thread x = .reclaim i cv p)
    (hcell : ∀ k, base' ≤ k / Q.cells → cell' k = cell k)
    (hn : reclaim Q x s.shared junk i cv p = some (g', pc')) :
    CellStep Q base' cell cell' s x g' pc' := by
  have hplain : ∀ (g₀ : Shared nr V) p', g₀.log = s.shared.log →
      g₀.putIndex = s.shared.putIndex → g₀.popIndex = s.shared.popIndex →
      g₀.futex = s.shared.futex → g₀.asleep = s.shared.asleep →
      CellStep Q base' cell cell' s x g₀ (.reclaim i cv p') :=
    fun g₀ p' hlog hput hpop hfutex hasleep => cellStep_plain hc hlog hput hpop hfutex hasleep hcell
      (fun _ h => (by cases h)) (by rw [hpc]; rfl) fun _ _ h => (by cases h)
  have hret : ∀ g₀ : Shared nr V, g₀.log = s.shared.log →
      g₀.putIndex = s.shared.putIndex → g₀.popIndex = s.shared.popIndex →
      g₀.futex = s.shared.futex → g₀.asleep = s.shared.asleep →
      CellStep Q base' cell cell' s x (dequeued g₀ i cv).1 (dequeued g₀ i cv).2 :=
    fun g₀ hlog hput hpop hfutex hasleep =>
      cellStep_dequeued (hplain g₀ p hlog hput hpop hfutex hasleep)
  cases p <;> simp only [reclaim] at hn
  case loadInit =>
    split at hn <;> cases hn
    · exact hplain _ _ rfl rfl rfl rfl rfl
    · exact hret _ rfl rfl rfl rfl rfl
  case casInit index =>
    split at hn <;> cases hn
    · exact hplain _ _ rfl rfl rfl rfl rfl
    · exact hret _ rfl rfl rfl rfl rfl
  case first index init =>
    split at hn <;> cases hn
    exact hplain _ _ rfl rfl rfl rfl rfl
  case scan flag index init l min =>
    split at hn <;> cases hn
    · exact hplain _ _ rfl rfl rfl rfl rfl
    · exact hplain _ _ rfl rfl rfl rfl rfl
  case compare flag index init l min nextMin =>
    generalize (if (s.shared.heap nextMin).id < (s.shared.heap min).id then nextMin
      else min) = min' at hn
    split at hn <;> cases hn
    · exact hplain _ _ rfl rfl rfl rfl rfl
    · exact hplain _ _ rfl rfl rfl rfl rfl
  case decide index init min =>
    split at hn <;> cases hn
    · exact hplain _ _ rfl rfl rfl rfl rfl
    · exact hplain _ _ rfl rfl rfl rfl rfl
  case restore index =>
    cases hn
    exact hret { s.shared with initId := index } rfl rfl rfl rfl rfl
  case free init tmp min =>
    split at hn
    · split at hn <;> cases hn
      · exact hret (afterFree s.shared init junk s.shared.log) rfl rfl rfl rfl rfl
      · exact hplain _ _ rfl rfl rfl rfl rfl
    · cases hn
  all_goals
    cases hn
    exact hplain _ _ rfl rfl rfl rfl rfl

/-- The write to the futex word of the dequeue that waits. -/
theorem cellStep_setWord {i : ℕ} {t : Fin nr} (hc : Cells Q base cell s)
    (hpc : s.thread x = .setWord i t) (hcell : ∀ k, base' ≤ k / Q.cells → cell' k = cell k) :
    CellStep Q base' cell cell' s x { s.shared with futex := Function.update s.shared.futex t 0 }
      (.wake i t) := by
  have hx := hc.thread x
  rw [hpc] at hx
  have hold : ∀ k, stage (s.thread x) ≠ .waiting k := fun k h => by
    rw [hpc] at h
    cases h
  refine ⟨⟨fun _ _ h => h, fun _ _ h => h, Nat.le_refl _, fun _ _ h => h,
    fun k hk => .same rfl (hcell k hk), fun v _ => ?_, fun _ _ h => h, fun _ => Or.inl rfl,
    fun k h => absurd h (hold k), fun _ h => (by cases h), fun _ _ h => (by cases h),
    fun k t' h => ?_⟩, logInv_congr (g := s.shared) rfl rfl rfl hc.log, hx⟩
  · by_cases hvt : v = t
    · subst hvt
      exact Or.inr ⟨i, hpc, Function.update_self ..⟩
    · exact Or.inl (Function.update_of_ne hvt ..)
  · cases h
    simp

/-- `mpmc_enqueue` wakes the dequeue and returns. -/
theorem cellStep_wake {i : ℕ} {t : Fin nr} (hc : Cells Q base cell s)
    (hpc : s.thread x = .wake i t) (hcell : ∀ k, base' ≤ k / Q.cells → cell' k = cell k) :
    CellStep Q base' cell cell' s x
      (enqueued { s.shared with asleep := Function.update s.shared.asleep t false } i).1 .idle := by
  have hx := hc.thread x
  rw [hpc] at hx
  have hold : ∀ k, stage (s.thread x) ≠ .waiting k := fun k h => by
    rw [hpc] at h
    cases h
  have hlog := hc.log
  refine ⟨⟨fun _ _ h => h, fun _ _ h => h, Nat.le_refl _, fun _ _ h => h,
    fun k hk => .same rfl (hcell k hk), fun _ _ => Or.inl rfl, fun v _ h => ?_, fun k => ?_,
    fun k h => absurd h (hold k), fun _ h => (by cases h), fun _ _ h => (by cases h),
    fun _ _ h => (by cases h)⟩,
    ⟨hlog.enqueue_lt, hlog.dequeue_lt, hlog.stored, fun k h => ?_, hlog.dequeued⟩, trivial⟩
  · by_cases hvt : v = t
    · subst hvt
      simp [enqueued] at h
    · simpa only [enqueued, Function.update_of_ne hvt] using h
  · by_cases hki : k = i
    · subst hki
      exact Or.inr (Or.inr ⟨t, hpc, by simp [enqueued], rfl⟩)
    · exact Or.inl (by simp [enqueued, hki])
  · by_cases hki : k = i
    · subst hki
      exact hx.2.1
    · exact hlog.enqueued k (by simpa [enqueued, hki] using h)

/-- A step of a dequeue that waits, to where it still waits. -/
theorem cellStep_waiting {i : ℕ} {asleep : Bool} (hc : Cells Q base cell s)
    (hst : stage (s.thread x) = .waiting i) (hst' : stage pc' = .waiting i)
    (hasleep : asleep = true → s.shared.asleep x = true ∨ s.shared.futex x = 1)
    (hbase : base' ≤ i / Q.cells) (hcell : ∀ k, base' ≤ k / Q.cells → cell' k = cell k) :
    CellStep Q base' cell cell' s x
      { s.shared with asleep := Function.update s.shared.asleep x asleep } pc' := by
  have hx := hc.thread x
  rw [hst] at hx
  obtain ⟨hdeq, hnone, hsome, hdone⟩ := hx
  refine ⟨effect_plain rfl (Nat.le_refl _) rfl (fun v hv h => ?_) hcell (fun k h _ => ?_)
    (fun k h => ?_) (fun k t h => ?_), logInv_congr (g := s.shared) rfl rfl rfl hc.log, ?_⟩
  · simpa only [Function.update_of_ne hv] using h
  · exact hst'.trans (hst.symm.trans h)
  · exact hst.trans (hst'.symm.trans h)
  · rw [hst'] at h
    cases h
  · rw [hst']
    refine ⟨hdeq, fun h => ?_, fun w h => ?_, fun h => ?_⟩
    · exact ⟨(hcell i hbase).trans (hnone h).1, (hnone h).2⟩
    · exact (hcell i hbase).trans (hsome w h)
    · simp only [Function.update_self] at h
      rcases h with h | h
      · exact hdone (Or.inl h)
      · exact hdone (hasleep h).symm

/-- The load of the futex word after the system call. -/
theorem cellStep_check {i c : ℕ} (hc : Cells Q base cell s) (hpc : s.thread x = .check i c)
    (hbase : base' ≤ i / Q.cells) (hcell : ∀ k, base' ≤ k / Q.cells → cell' k = cell k) :
    CellStep Q base' cell cell' s x s.shared
      (if s.shared.futex x = 1 then .wait i c else .reload i c) := by
  split
  · exact cellStep_plain hc rfl rfl rfl rfl rfl hcell (fun k h => by cases h; exact hbase)
      (by rw [hpc]; rfl) fun _ _ h => (by cases h)
  · rename_i hne
    have hx := hc.thread x
    rw [hpc] at hx
    obtain ⟨hdeq, hnone, hsome, -⟩ := hx
    have hstored : s.shared.log.stored i ≠ none := fun h => hne (hnone h).2
    obtain ⟨w, hw⟩ := Option.ne_none_iff_exists'.mp hstored
    refine ⟨effect_plain rfl (Nat.le_refl _) rfl (fun _ _ h => h) hcell
      (fun k _ hone => absurd hone hne) (fun _ h => (by cases h)) fun _ _ h => (by cases h), hc.log,
      hdeq, w, hw, (hcell i hbase).trans (hsome w hw)⟩

/-- A dequeue has read its value from the cell. -/
theorem cellStep_read {i : ℕ} {v : V} {p : ReclaimPc} (hc : Cells Q base cell s)
    (hst : ∀ k, stage (s.thread x) ≠ .waiting k) (hdeq : s.shared.log.dequeue i = some x)
    (hv : s.shared.log.stored i = some v) (hcell : ∀ k, base' ≤ k / Q.cells → cell' k = cell k) :
    CellStep Q base' cell cell' s x s.shared (.reclaim i (.val v) p) :=
  ⟨effect_plain rfl (Nat.le_refl _) rfl (fun _ _ h => h) hcell (fun k h => absurd h (hst k))
    (fun _ h => (by cases h)) fun _ _ h => (by cases h), hc.log, hdeq, v, hv, rfl⟩

/-! ### All accesses -/

theorem cellAt_holds {flag : QueueOp} {i c : ℕ} (h : Holds Q chain g u flag i c) :
    cellAt Q chain g i = g.cell Q c i := by
  simp only [cellAt, h.2.1]

/-- The node of the cell that a call is to access is not reclaimed. -/
theorem index_place {i : ℕ} (hm : Memory Q chain base g) (hl : Local Q chain base g u pc)
    (h : (stage pc).index = some i) : base ≤ i / Q.cells := by
  have hop : ∀ (op : Op V) {k : ℕ}, (op.stage k : Stage nr V).index = some i → k = i := by
    intro op k h
    cases op <;> exact Option.some.inj h
  have hwalk : ∀ {op : Op V} {k curr j : ℕ}, Walking Q chain g u op k curr j → k = i →
      base ≤ i / Q.cells := by
    rintro op k curr j hw rfl
    exact (base_le_of_between hm hw.1 hw.2.2.2.2).trans hw.2.2.2.1
  have hhold : ∀ {flag : QueueOp} {k c : ℕ}, Holds Q chain g u flag k c → k = i →
      base ≤ i / Q.cells := by
    rintro flag k c hh rfl
    exact base_le_of_holds hm hh
  cases pc <;> simp only [Local] at hl <;> simp only [stage] at h
  case fetch op => cases op <;> cases h
  case start op k =>
    cases hop op h
    exact base_le_of_between hm hl.1 hl.2.2
  case next op k curr j => exact hwalk hl.1 (hop op h)
  case fill op k curr j => exact hwalk hl.1 (hop op h)
  case link op k curr j tmp => exact hwalk hl.1 (hop op h)
  case setPtr op k curr => exact hwalk hl (hop op h)
  case idle => cases h
  case setWord => cases h
  case wake => cases h
  case reclaim => cases h
  all_goals exact hhold hl (Option.some.inj h)

/-- The cells before and after a step of `x`, as far as they are not reclaimed. -/
def CellsAfter (Q : Setup nr) (base' : ℕ) (cell cell' : ℕ → Word nr V) (x : Fin nr)
    (pc : Pc nr V) : Prop :=
  ∀ i, base' ≤ i / Q.cells → cell' i = (written x pc i).getD (cell i)

theorem cellStep_run {junk : Node nr V} (hi : Inv Q chain base s)
    (hc : Cells Q base (cellAt Q chain s.shared) s) (hbase : base ≤ base')
    (hlock : ¬ Locked (s.thread x) → base' = base)
    (hcell : CellsAfter Q base' (cellAt Q chain s.shared) cell' x (s.thread x))
    (hidx : ∀ i, (stage pc').index = some i → base' ≤ i / Q.cells)
    (hn : run Q x s.shared junk (s.thread x) = some (g', pc')) :
    CellStep Q base' (cellAt Q chain s.shared) cell' s x g' pc' := by
  have hl := hi.thread x
  have hx := hc.thread x
  have hold : ∀ i, (stage (s.thread x)).index = some i → base ≤ i / Q.cells :=
    fun i h => index_place hi.memory hl h
  cases hpc : s.thread x <;> rw [hpc] at hn hl hx hcell hold hlock
  case idle => cases hn
  case fetch op =>
    cases op <;> cases hn
    · exact cellStep_put hc (by rw [hpc]; rfl) hcell
    · exact cellStep_pop hc hbase (by rw [hpc]; rfl) hcell (hidx _ rfl)
  case start op i =>
    cases hn
    rw [stage_walk] at hidx
    exact cellStep_plain hc rfl rfl rfl rfl rfl hcell (by rwa [stage_walk])
      (by rw [hpc, stage_walk]; rfl) (by rw [stage_walk]; exact fun _ _ => stage_ne_waking)
  case next op i curr j =>
    simp only [run] at hn
    split at hn <;> cases hn
    · exact cellStep_plain hc rfl rfl rfl rfl rfl hcell hidx (by rw [hpc, stage_walk]; rfl)
        (by rw [stage_walk]; exact fun _ _ => stage_ne_waking)
    · exact cellStep_plain hc rfl rfl rfl rfl rfl hcell hidx (by rw [hpc]; rfl)
        fun _ _ => stage_ne_waking
  case fill op i curr j =>
    cases hn
    have hspare : (spare x s.shared).1.log = s.shared.log ∧
        (spare x s.shared).1.putIndex = s.shared.putIndex ∧
        (spare x s.shared).1.popIndex = s.shared.popIndex ∧
        (spare x s.shared).1.futex = s.shared.futex ∧
        (spare x s.shared).1.asleep = s.shared.asleep := by
      unfold spare
      split <;> exact ⟨rfl, rfl, rfl, rfl, rfl⟩
    obtain ⟨hlog, hput, hpop, hfutex, hasleep⟩ := hspare
    exact cellStep_plain hc hlog hput hpop hfutex hasleep hcell hidx (by rw [hpc]; rfl)
      fun _ _ => stage_ne_waking
  case link op i curr j tmp =>
    simp only [run] at hn
    split at hn <;> cases hn
    · exact cellStep_plain hc rfl rfl rfl rfl rfl hcell hidx (by rw [hpc, stage_walk]; rfl)
        (by rw [stage_walk]; exact fun _ _ => stage_ne_waking)
    · exact cellStep_plain hc rfl rfl rfl rfl rfl hcell hidx (by rw [hpc, stage_walk]; rfl)
        (by rw [stage_walk]; exact fun _ _ => stage_ne_waking)
  case setPtr op i curr =>
    cases hn
    cases op
    · exact cellStep_plain hc rfl rfl rfl rfl rfl hcell hidx (by rw [hpc]; rfl)
        fun _ _ h => (by cases h)
    · exact cellStep_plain hc rfl rfl rfl rfl rfl hcell hidx (by rw [hpc]; rfl)
        fun _ _ h => (by cases h)
  case xchgPush v i c =>
    refine cellStep_xchgPush hc hpc (cellAt_holds hl) (hold i rfl)
      (hlock id ▸ hold i rfl) (fun k hk => ?_) hn
    rw [hcell k hk, written]
    split <;> rfl
  case setWord i t =>
    cases hn
    exact cellStep_setWord hc hpc hcell
  case wake i t =>
    cases hn
    exact cellStep_wake hc hpc hcell
  case spin i c times =>
    obtain ⟨hdeq, hone, hready⟩ := hx
    rw [Ready, cellAt_holds hl] at hready
    simp only [run] at hn
    split at hn
    · cases hn
      split
      · exact cellStep_plain hc rfl rfl rfl rfl rfl hcell (fun k h => hlock id ▸ hold k h)
          (by rw [hpc]; rfl) fun _ _ h => (by cases h)
      · exact cellStep_plain hc rfl rfl rfl rfl rfl hcell (fun k h => hlock id ▸ hold k h)
          (by rw [hpc]; rfl) fun _ _ h => (by cases h)
    · rename_i hne
      cases hs : s.shared.log.stored i with
      | none =>
        rw [hs] at hready
        exact absurd hready hne
      | some v =>
        rw [hs] at hready
        refine cellStep_over (Option.some.inj hn) ?_
        rw [hready]
        exact cellStep_read hc (fun k h => by rw [hpc] at h; cases h) hdeq hs hcell
  case xchgPop i c =>
    refine cellStep_xchgPop hc hpc (cellAt_holds hl) (hlock id ▸ hold i rfl) (fun k hk => ?_) hn
    rw [hcell k hk, written]
    split <;> rfl
  case wait i c =>
    simp only [run] at hn
    split at hn <;> cases hn
    · exact cellStep_waiting hc (by rw [hpc]; rfl) rfl (fun _ => Or.inr ‹_›)
        (hlock id ▸ hold i rfl) hcell
    · exact cellStep_plain hc rfl rfl rfl rfl rfl hcell hidx (by rw [hpc]; rfl)
        fun _ _ h => (by cases h)
  case sleep i c =>
    simp only [run] at hn
    split at hn <;> cases hn
    exact cellStep_plain hc rfl rfl rfl rfl rfl hcell hidx (by rw [hpc]; rfl)
      fun _ _ h => (by cases h)
  case check i c =>
    cases hn
    exact cellStep_check hc hpc (hlock id ▸ hold i rfl) hcell
  case reload i c =>
    obtain ⟨hdeq, v, hs, hv⟩ := hx
    rw [cellAt_holds hl] at hv
    refine cellStep_over (Option.some.inj hn) ?_
    rw [hv]
    exact cellStep_read hc (fun k h => by rw [hpc] at h; cases h) hdeq hs hcell
  case reclaim i cv p => exact cellStep_reclaim hc hpc hcell hn

theorem cellStep_next {a : Act nr V} (hi : Inv Q chain base s)
    (hc : Cells Q base (cellAt Q chain s.shared) s) (hbase : base ≤ base')
    (hlock : ¬ Locked (s.thread x) → base' = base)
    (hcell : CellsAfter Q base' (cellAt Q chain s.shared) cell' x (s.thread x))
    (hidx : ∀ i, (stage pc').index = some i → base' ≤ i / Q.cells)
    (hn : next Q x s.shared (s.thread x) a = some (g', pc')) :
    CellStep Q base' (cellAt Q chain s.shared) cell' s x g' pc' := by
  rcases next_cases hn with ⟨junk, hrun⟩ | ⟨i, c, hpc, rfl, rfl⟩ | ⟨hpc, v, hreg, rfl, rfl⟩ |
    ⟨hpc, hreg, rfl, rfl⟩
  · exact cellStep_run hi hc hbase hlock hcell hidx hrun
  · rw [hpc] at hcell
    exact cellStep_waiting hc (by rw [hpc]; rfl) rfl (fun h => (by cases h)) (hidx i rfl) hcell
  · rw [hpc] at hcell
    exact cellStep_plain hc rfl rfl rfl rfl rfl hcell (fun _ h => (by cases h)) (by rw [hpc]; rfl)
      fun _ _ h => (by cases h)
  · rw [hpc] at hcell
    have hold : ∀ k, stage (s.thread x) ≠ .waiting k := fun k h => by
      rw [hpc] at h
      cases h
    refine ⟨⟨fun _ _ h => h, fun _ _ h => h, Nat.le_refl _, fun _ _ h => h,
      fun k hk => .same rfl (hcell k hk), fun v hv => Or.inl (Function.update_of_ne hv ..),
      fun _ _ h => h, fun _ => Or.inl rfl, fun k h => absurd h (hold k), fun _ h => (by cases h),
      fun _ _ h => (by cases h), fun _ _ h => (by cases h)⟩,
      logInv_congr (g := s.shared) rfl rfl rfl hc.log, ?_⟩
    exact Function.update_self ..

/-- The step lemma: both invariants are kept, for a chain that grows at most. -/
theorem cells_next {a : Act nr V} (hi : Inv Q chain base s)
    (hc : Cells Q base (cellAt Q chain s.shared) s)
    (hn : next Q x s.shared (s.thread x) a = some (g', pc')) :
    ∃ chain' base', Inv Q chain' base' ⟨g', Function.update s.thread x pc'⟩ ∧
      Cells Q base' (cellAt Q chain' g') ⟨g', Function.update s.thread x pc'⟩ := by
  obtain ⟨chain', base', hi', -, hbase, hlock, hcell⟩ := steps_next hi hn
  have hidx : ∀ v i, (stage (Function.update s.thread x pc' v)).index = some i →
      base' ≤ i / Q.cells := fun v i h => index_place hi'.memory (hi'.thread v) h
  obtain ⟨he, hlog, hown⟩ := cellStep_next hi hc hbase hlock hcell
    (fun i h => hidx x i (by rwa [Function.update_self])) hn
  exact ⟨chain', base', hi', cells_of_effect hc hbase he hlog hown fun v i h hv =>
    hidx v i (by rwa [Function.update_of_ne hv])⟩

theorem cells_start : Cells Q 0 (cellAt Q [0] (start nr V).shared) (start nr V) := by
  have hnull : ∀ i, cellAt Q [0] (start nr V).shared i = .null := by
    intro i
    unfold cellAt
    split <;> rfl
  refine ⟨⟨fun i => ?_, fun i => ?_, fun _ _ h => (by cases h), fun _ h => (by cases h),
    fun _ _ h => (by cases h)⟩, fun _ => trivial, fun i _ _ => hnull i, fun i _ _ => Or.inl (hnull i),
    fun _ _ _ h => (by cases h), fun _ _ _ h => (by cases h)⟩
  · exact ⟨fun h => absurd rfl h, fun h => absurd h (Nat.not_lt_zero i)⟩
  · exact ⟨fun h => absurd rfl h, fun h => absurd h (Nat.not_lt_zero i)⟩

theorem cells_reachable (hr : (system V Q).Reachable System.free s) :
    ∃ chain base, Inv Q chain base s ∧ Cells Q base (cellAt Q chain s.shared) s := by
  refine System.reachable_invariant (I := fun s => ∃ chain base, Inv Q chain base s ∧
    Cells Q base (cellAt Q chain s.shared) s) (fun s hs => ?_) (fun s a s' _ hi _ hn => ?_) hr
  · cases hs
    exact ⟨[0], 0, inv_start, cells_start⟩
  · obtain ⟨chain, base, hi, hc⟩ := hi
    obtain ⟨g', pc', hnext, rfl⟩ := Threads.step_cases hn
    exact cells_next hi hc hnext

/-- Each index below a counter was obtained by one call. The dequeue that obtained an index
returns the value of the enqueue that obtained it, and no dequeue sleeps whose enqueue has
returned. -/
structure Delivered (s : Config (Fin nr) (Shared nr V) (Pc nr V)) : Prop where
  enqueue_lt : ∀ i, s.shared.log.enqueue i ≠ none ↔ i < s.shared.putIndex
  dequeue_lt : ∀ i, s.shared.log.dequeue i ≠ none ↔ i < s.shared.popIndex
  value : ∀ i w, s.shared.log.dequeued i = some w →
    ∃ u v, s.shared.log.enqueue i = some (u, v) ∧ w = .val v
  awake : ∀ t i c, s.thread t = .sleep i c → s.shared.asleep t = true →
    s.shared.log.enqueued i = false

/-- Each value is delivered once, in the order of the indices. -/
theorem delivered_in_order (hr : (system V Q).Reachable System.free s) : Delivered s := by
  obtain ⟨chain, base, -, hc⟩ := cells_reachable hr
  refine ⟨hc.log.enqueue_lt, hc.log.dequeue_lt, fun i w h => ?_, fun t i c hpc hasleep => ?_⟩
  · obtain ⟨v, hv, hw⟩ := hc.log.dequeued i w h
    obtain ⟨u, hu⟩ := hc.log.stored i v hv
    exact ⟨u, v, hu, hw⟩
  · have ht := hc.thread t
    rw [hpc] at ht
    exact ht.2.2.2 (Or.inr hasleep)

/-- Thread 1 waits for its value and sleeps; thread 0 enqueues it and wakes thread 1. A node has
two cells, and a dequeue loads its cell once before it waits. -/
def sleepSchedule (t u : Fin nr) : List (Fin nr × Act nr ℕ) :=
  (u, .dequeue) :: List.replicate 6 (u, .run newNode) ++
    (t, .enqueue 7) :: List.replicate 6 (t, .run newNode) ++ List.replicate 3 (u, .run newNode)

theorem delivered_in_order_sleep : ∃ s : Config (Fin 2) (Shared 2 ℕ) (Pc 2 ℕ),
    s.shared.log.dequeued 0 = some (.val 7) ∧ Delivered s := by
  have hrun : ((system ℕ ⟨1, 0, 1, [0], [1]⟩).exec (fun _ _ => true) (start 2 ℕ)
      (sleepSchedule 0 1)).any (fun s => decide (s.shared.log.dequeued 0 = some (.val 7))) = true := by
    decide +kernel
  obtain ⟨s, hs, hend⟩ := (Option.any_eq_true _ _).mp hrun
  exact ⟨s, of_decide_eq_true hend,
    delivered_in_order ⟨_, rfl, System.run_of_exec (fun _ _ _ => trivial) hs⟩⟩

end LinuxSummer.Mpmc
