import LinuxSummer.MpmcReclaim

/-! The cells of the queue of hw3/mpmc.c: what the calls know of them, and what a step may do. -/
namespace LinuxSummer.Mpmc
set_option linter.unusedSectionVars false

variable {nr : ℕ} {V : Type} {Q : Setup nr} {g g' : Shared nr V} {pc pc' : Pc nr V}
  {chain chain' : List ℕ} {base base' : ℕ} {s s' : Config (Fin nr) (Shared nr V) (Pc nr V)}
  {cell cell' : ℕ → Word nr V} {u x : Fin nr}

/-- How far a call is with the cell of its index. -/
inductive Stage (nr : ℕ) (V : Type) where
  | out
  /-- A dequeue without index, with its futex word set. -/
  | entered
  | pushing (v : V) (i : ℕ)
  /-- The cell held the futex word of `t`. -/
  | waking (i : ℕ) (t : Fin nr)
  | popping (i : ℕ)
  | waiting (i : ℕ)
  | reading (i : ℕ)
  | holding (i : ℕ) (cv : Word nr V)

def Op.stage (i : ℕ) : Op V → Stage nr V
  | .enqueue v => .pushing v i
  | .dequeue => .popping i

def stage : Pc nr V → Stage nr V
  | .idle => .out
  | .fetch (.enqueue _) => .out
  | .fetch .dequeue => .entered
  | .start op i => op.stage i
  | .next op i _ _ => op.stage i
  | .fill op i _ _ => op.stage i
  | .link op i _ _ _ => op.stage i
  | .setPtr op i _ => op.stage i
  | .xchgPush v i _ => .pushing v i
  | .setWord i t => .waking i t
  | .wake i t => .waking i t
  | .spin i _ _ => .popping i
  | .xchgPop i _ => .popping i
  | .wait i _ => .waiting i
  | .sleep i _ => .waiting i
  | .check i _ => .waiting i
  | .reload i _ => .reading i
  | .reclaim i cv _ => .holding i cv

/-- The cell of `i` before the exchange by the dequeue of `i`. -/
def Ready (log : Log nr V) (cell : ℕ → Word nr V) (i : ℕ) : Prop :=
  cell i = (log.stored i).elim .null .val

/-- What a call knows of the cell of its index. A dequeue that waits has its word in the cell until
the enqueue of the index has exchanged it, and sleeps only while that enqueue is in progress. -/
def StageInv (cell : ℕ → Word nr V) (g : Shared nr V) (u : Fin nr) : Stage nr V → Prop
  | .out => True
  | .entered => g.futex u = 1
  | .pushing v i => g.log.enqueue i = some (u, v) ∧ g.log.stored i = none
  | .waking i t =>
    (∃ v, g.log.enqueue i = some (u, v)) ∧ g.log.stored i ≠ none ∧ g.log.dequeue i = some t
  | .popping i => g.log.dequeue i = some u ∧ g.futex u = 1 ∧ Ready g.log cell i
  | .waiting i => g.log.dequeue i = some u ∧
    (g.log.stored i = none → cell i = .futex u ∧ g.futex u = 1) ∧
    (∀ v, g.log.stored i = some v → cell i = .val v) ∧
    (g.futex u = 1 ∨ g.asleep u = true → g.log.enqueued i = false)
  | .reading i => g.log.dequeue i = some u ∧ ∃ v, g.log.stored i = some v ∧ cell i = .val v
  | .holding i cv => g.log.dequeue i = some u ∧ ∃ v, g.log.stored i = some v ∧ cv = .val v

/-- The index of the cell that the call is still to access. -/
def Stage.index : Stage nr V → Option ℕ
  | .pushing _ i => some i
  | .popping i => some i
  | .waiting i => some i
  | .reading i => some i
  | _ => none

/-- What holds of the records of the indices. -/
structure LogInv (g : Shared nr V) : Prop where
  enqueue_lt : ∀ i, g.log.enqueue i ≠ none ↔ i < g.putIndex
  dequeue_lt : ∀ i, g.log.dequeue i ≠ none ↔ i < g.popIndex
  stored : ∀ i v, g.log.stored i = some v → ∃ u, g.log.enqueue i = some (u, v)
  enqueued : ∀ i, g.log.enqueued i = true → g.log.stored i ≠ none
  dequeued : ∀ i w, g.log.dequeued i = some w → ∃ v, g.log.stored i = some v ∧ w = .val v

/-- The invariant of the cells that are not reclaimed. A cell that waits for its value is null or
holds the word of the dequeue that waits for it; a thread about to write to a word writes to that
of a waiting dequeue; and one about to wake a dequeue has written to its word. -/
structure Cells (Q : Setup nr) (base : ℕ) (cell : ℕ → Word nr V)
    (s : Config (Fin nr) (Shared nr V) (Pc nr V)) : Prop where
  log : LogInv s.shared
  thread : ∀ u, StageInv cell s.shared u (stage (s.thread u))
  fresh : ∀ i, s.shared.popIndex ≤ i → base ≤ i / Q.cells → Ready s.shared.log cell i
  waiter : ∀ i, base ≤ i / Q.cells → s.shared.log.stored i = none →
    cell i = .null ∨ ∃ t, cell i = .futex t ∧ stage (s.thread t) = .waiting i
  word : ∀ u i t, s.thread u = .setWord i t →
    stage (s.thread t) = .waiting i ∧ s.shared.futex t = 1
  woken : ∀ u i t, s.thread u = .wake i t → stage (s.thread t) = .waiting i →
    s.shared.futex t ≠ 1

/-- What a step of `x` may do to the cell of `i`: nothing, the exchange by the enqueue of `i`, or
the exchange by its dequeue. -/
inductive CellEffect (x : Fin nr) (g g' : Shared nr V) (cell cell' : ℕ → Word nr V)
    (pc' : Pc nr V) (i : ℕ) : Prop
  | same : g'.log.stored i = g.log.stored i → cell' i = cell i →
    CellEffect x g g' cell cell' pc' i
  | push (w : V) : g.log.enqueue i = some (x, w) → g.log.stored i = none →
    g'.log.stored i = some w → cell' i = .val w → CellEffect x g g' cell cell' pc' i
  | pop : g.log.dequeue i = some x → g'.log.stored i = g.log.stored i → cell' i = .futex x →
    (g.log.stored i = none → stage pc' = .waiting i) → CellEffect x g g' cell cell' pc' i

/-- What a step of `x` from `pc` to `pc'` may do, as far as the other threads rely on it. -/
structure Effect (Q : Setup nr) (base' : ℕ) (cell cell' : ℕ → Word nr V)
    (s : Config (Fin nr) (Shared nr V) (Pc nr V)) (x : Fin nr) (g' : Shared nr V)
    (pc' : Pc nr V) : Prop where
  enqueue : ∀ i p, s.shared.log.enqueue i = some p → g'.log.enqueue i = some p
  dequeue : ∀ i t, s.shared.log.dequeue i = some t → g'.log.dequeue i = some t
  popIndex : s.shared.popIndex ≤ g'.popIndex
  stored : ∀ i v, s.shared.log.stored i = some v → g'.log.stored i = some v
  index : ∀ i, base' ≤ i / Q.cells → CellEffect x s.shared g' cell cell' pc' i
  futex : ∀ v, v ≠ x → g'.futex v = s.shared.futex v ∨
    ∃ i, s.thread x = .setWord i v ∧ g'.futex v = 0
  asleep : ∀ v, v ≠ x → g'.asleep v = true → s.shared.asleep v = true
  enqueued : ∀ i, g'.log.enqueued i = s.shared.log.enqueued i ∨
    (s.shared.log.stored i = none ∧ cell i = .null ∧ base' ≤ i / Q.cells) ∨
    ∃ t, s.thread x = .wake i t ∧ g'.asleep t = false ∧ g'.futex t = s.shared.futex t
  stay : ∀ i, stage (s.thread x) = .waiting i → s.shared.futex x = 1 →
    stage pc' = .waiting i ∧ g'.futex x = 1
  enter : ∀ i, stage pc' = .waiting i →
    (stage (s.thread x) = .waiting i ∧ g'.futex x = s.shared.futex x) ∨
      s.shared.log.stored i = none
  setWord : ∀ i t, pc' = .setWord i t →
    t ≠ x ∧ stage (s.thread t) = .waiting i ∧ g'.futex t = 1
  wake : ∀ i t, pc' = .wake i t → g'.futex t ≠ 1

variable {v : Fin nr}

/-- Another thread's exchange of the cell of `i` is that of the enqueue of `i`, if the dequeue of
`i` is that of `v`. -/
theorem effect_dequeue {i : ℕ} (he : CellEffect x g g' cell cell' pc' i) (hv : v ≠ x)
    (hi : g.log.dequeue i = some v) :
    (g'.log.stored i = g.log.stored i ∧ cell' i = cell i) ∨
      ∃ w, g.log.stored i = none ∧ g'.log.stored i = some w ∧ cell' i = .val w := by
  cases he with
  | same hs hcell => exact Or.inl ⟨hs, hcell⟩
  | push w _ hnone hs hcell => exact Or.inr ⟨w, hnone, hs, hcell⟩
  | pop hx =>
    rw [hi] at hx
    exact absurd (Option.some.inj hx) hv

/-- A dequeue that waits goes on waiting for the same thing, or its value has come. -/
theorem waiting_env {i : ℕ} (hc : Cells Q base cell s) (he : Effect Q base' cell cell' s x g' pc')
    (hv : v ≠ x) (hst : stage (s.thread v) = .waiting i) (hbase : base' ≤ i / Q.cells) :
    StageInv cell' g' v (.waiting i) := by
  have h := hc.thread v
  rw [hst] at h
  obtain ⟨hdeq, hnone, hsome, hdone⟩ := h
  have hword : g'.futex v = s.shared.futex v ∨
      (g'.futex v = 0 ∧ s.shared.log.stored i ≠ none) := by
    rcases he.futex v hv with h | ⟨i', hpc, h0⟩
    · exact Or.inl h
    · have hwaits := (hc.word x i' v hpc).1
      rw [hst] at hwaits
      cases hwaits
      have hx := hc.thread x
      rw [hpc] at hx
      exact Or.inr ⟨h0, hx.2.1⟩
  refine ⟨he.dequeue i v hdeq, fun h => ?_, fun w h => ?_, fun h => ?_⟩
  · rcases effect_dequeue (he.index i hbase) hv hdeq with ⟨hs, hcell⟩ | ⟨w, -, hs, -⟩
    · rw [hs] at h
      obtain ⟨hfut, hone⟩ := hnone h
      exact ⟨hcell.trans hfut, by
        rcases hword with hw | hw
        · rw [hw, hone]
        · exact absurd h hw.2⟩
    · rw [hs] at h
      cases h
  · rcases effect_dequeue (he.index i hbase) hv hdeq with ⟨hs, hcell⟩ | ⟨w', -, hs, hcell⟩
    · rw [hs] at h
      exact hcell.trans (hsome w h)
    · rw [hs] at h
      cases h
      exact hcell
  · have hold : s.shared.futex v = 1 ∨ s.shared.asleep v = true := by
      rcases h with h | h
      · rcases hword with hw | hw
        · exact Or.inl (hw ▸ h)
        · omega
      · exact Or.inr (he.asleep v hv h)
    rcases he.enqueued i with heq | ⟨hstored, hnull, -⟩ | ⟨t, hpc, hasleep, hfut⟩
    · rw [heq]
      exact hdone hold
    · rw [(hnone hstored).1] at hnull
      cases hnull
    · -- the enqueue of `i` is about to return: it has just woken `v`
      have hx := hc.thread x
      rw [hpc] at hx
      have htv : t = v := by
        have := hx.2.2
        rw [hdeq] at this
        exact (Option.some.inj this).symm
      subst htv
      have hne := hc.woken x i t hpc hst
      rcases h with h | h
      · exact absurd (hfut ▸ h) hne
      · rw [hasleep] at h
        cases h

/-- The other threads keep what they know of the cells of their indices. -/
theorem stageInv_env (hc : Cells Q base cell s) (he : Effect Q base' cell cell' s x g' pc')
    (hv : v ≠ x) (hidx : ∀ i, (stage (s.thread v)).index = some i → base' ≤ i / Q.cells) :
    StageInv cell' g' v (stage (s.thread v)) := by
  have h := hc.thread v
  have hmono : ∀ i, s.shared.log.stored i ≠ none → g'.log.stored i ≠ none := fun i hs => by
    obtain ⟨w, hw⟩ := Option.ne_none_iff_exists'.mp hs
    rw [he.stored i w hw]
    exact Option.some_ne_none w
  have hword : s.shared.futex v = 1 → (∀ i, stage (s.thread v) ≠ .waiting i) → g'.futex v = 1 := by
    intro hone hst
    rcases he.futex v hv with heq | ⟨i, hpc, -⟩
    · exact heq.trans hone
    · exact absurd (hc.word x i v hpc).1 (hst i)
  cases hst : stage (s.thread v) <;> rw [hst] at h hidx hword
  case out => trivial
  case entered => exact hword h fun i hi => by cases hi
  case pushing w i =>
    obtain ⟨henq, hnone⟩ := h
    refine ⟨he.enqueue i _ henq, ?_⟩
    cases he.index i (hidx i rfl) with
    | same hs _ => exact hs.trans hnone
    | push _ hx =>
      rw [henq] at hx
      exact absurd (congrArg Prod.fst (Option.some.inj hx)) hv
    | pop _ hs => exact hs.trans hnone
  case waking i t =>
    obtain ⟨⟨w, henq⟩, hs, hdeq⟩ := h
    exact ⟨⟨w, he.enqueue i _ henq⟩, hmono i hs, he.dequeue i t hdeq⟩
  case popping i =>
    obtain ⟨hdeq, hone, hready⟩ := h
    refine ⟨he.dequeue i v hdeq, hword hone (fun i hi => by cases hi), ?_⟩
    unfold Ready at hready ⊢
    rcases effect_dequeue (he.index i (hidx i rfl)) hv hdeq with ⟨hs, hcell⟩ | ⟨w, -, hs, hcell⟩
    · rw [hs, hcell, hready]
    · rw [hs, hcell]
      rfl
  case waiting i => exact waiting_env hc he hv hst (hidx i rfl)
  case reading i =>
    obtain ⟨hdeq, w, hs, hcell⟩ := h
    refine ⟨he.dequeue i v hdeq, w, he.stored i w hs, ?_⟩
    rcases effect_dequeue (he.index i (hidx i rfl)) hv hdeq with ⟨-, heq⟩ | ⟨w', hnone, -⟩
    · exact heq.trans hcell
    · rw [hs] at hnone
      cases hnone
  case holding i cv =>
    obtain ⟨hdeq, w, hs, hcv⟩ := h
    exact ⟨he.dequeue i v hdeq, w, he.stored i w hs, hcv⟩

/-- A step with such an effect keeps the invariant. -/
theorem cells_of_effect (hc : Cells Q base cell s) (hbase : base ≤ base')
    (he : Effect Q base' cell cell' s x g' pc') (hlog : LogInv g')
    (hown : StageInv cell' g' x (stage pc'))
    (hidx : ∀ v i, (stage (s.thread v)).index = some i → v ≠ x → base' ≤ i / Q.cells) :
    Cells Q base' cell' ⟨g', Function.update s.thread x pc'⟩ := by
  have hwake : ∀ u i t, s.thread u = .setWord i t ∨ s.thread u = .wake i t →
      (∃ v, s.shared.log.enqueue i = some (u, v)) ∧ s.shared.log.stored i ≠ none ∧
        s.shared.log.dequeue i = some t := by
    intro u i t h
    have hu := hc.thread u
    rcases h with h | h <;> rw [h] at hu <;> exact hu
  refine ⟨hlog, fun v => ?_, fun i hi hib => ?_, fun i hib hnone => ?_, fun u i t hpc => ?_,
    fun u i t hpc hst => ?_⟩
  · by_cases hv : v = x
    · subst hv
      simpa only [Function.update_self] using hown
    · simpa only [Function.update_of_ne hv] using stageInv_env hc he hv fun i h => hidx v i h hv
  · have hready := hc.fresh i (he.popIndex.trans hi) (hbase.trans hib)
    unfold Ready at hready ⊢
    cases he.index i hib with
    | same hs hcell => rw [hs, hcell, hready]
    | push w _ _ hs hcell =>
      rw [hs, hcell]
      rfl
    | pop hdeq =>
      have hlt := (hc.log.dequeue_lt i).mp (by rw [hdeq]; exact Option.some_ne_none x)
      have hle := he.popIndex
      simp only at hi
      omega
  · cases he.index i hib with
    | same hs hcell =>
      rw [hs] at hnone
      rcases hc.waiter i (hbase.trans hib) hnone with h | ⟨t, ht, hst⟩
      · exact Or.inl (hcell.trans h)
      · refine Or.inr ⟨t, hcell.trans ht, ?_⟩
        by_cases htx : t = x
        · subst htx
          have hx := hc.thread t
          rw [hst] at hx
          simpa only [Function.update_self] using (he.stay i hst (hx.2.1 hnone).2).1
        · simpa only [Function.update_of_ne htx] using hst
    | push w _ _ hs =>
      rw [hs] at hnone
      cases hnone
    | pop _ hs hcell hst =>
      rw [hs] at hnone
      exact Or.inr ⟨x, hcell, by simpa only [Function.update_self] using hst hnone⟩
  · by_cases hux : u = x
    · subst hux
      simp only [Function.update_self] at hpc
      obtain ⟨htu, hst, hone⟩ := he.setWord i t hpc
      exact ⟨by simpa only [Function.update_of_ne htu] using hst, hone⟩
    · simp only [Function.update_of_ne hux] at hpc
      obtain ⟨hst, hone⟩ := hc.word u i t hpc
      by_cases htx : t = x
      · subst htx
        simpa only [Function.update_self] using he.stay i hst hone
      · refine ⟨by simpa only [Function.update_of_ne htx] using hst, ?_⟩
        rcases he.futex t htx with h | ⟨i', hpcx, -⟩
        · exact h.trans hone
        · -- only one thread has the index that `t` waits for
          have hstx := (hc.word x i' t hpcx).1
          rw [hst] at hstx
          cases hstx
          obtain ⟨⟨w, hw⟩, -⟩ := hwake u i t (Or.inl hpc)
          obtain ⟨⟨w', hw'⟩, -⟩ := hwake x i t (Or.inl hpcx)
          rw [hw] at hw'
          exact absurd (congrArg Prod.fst (Option.some.inj hw')) hux
  · by_cases hux : u = x
    · subst hux
      simp only [Function.update_self] at hpc
      exact he.wake i t hpc
    · simp only [Function.update_of_ne hux] at hpc
      by_cases htx : t = x
      · subst htx
        simp only [Function.update_self] at hst
        rcases he.enter i hst with ⟨hold, heq⟩ | hnone
        · rw [heq]
          exact hc.woken u i t hpc hold
        · exact absurd hnone (hwake u i t (Or.inr hpc)).2.1
      · simp only [Function.update_of_ne htx] at hst
        have hne := hc.woken u i t hpc hst
        rcases he.futex t htx with h | ⟨i', -, h0⟩
        · rw [h]
          exact hne
        · rw [h0]
          exact Nat.zero_ne_one

end LinuxSummer.Mpmc
