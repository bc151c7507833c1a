import LinuxSummer.MpmcDelivery

/-! The calls in progress of the queue of hw3/mpmc.c. An index that was handed out is with one
thread until its call returns. -/
namespace LinuxSummer.Mpmc
set_option linter.unusedSectionVars false

variable {nr : ℕ} {V : Type} {Q : Setup nr} {g g' g₀ : Shared nr V} {pc pc' : Pc nr V}
  {s : Config (Fin nr) (Shared nr V) (Pc nr V)} {u x : Fin nr} {i : ℕ} {cv : Word nr V}

/-- The index that an enqueue has obtained. -/
def Stage.given : Stage nr V → Option ℕ
  | .pushing _ i | .waking i _ => some i
  | _ => none

/-- The index that a dequeue has obtained. -/
def Stage.taken : Stage nr V → Option ℕ
  | .popping i | .waiting i | .reading i | .holding i _ => some i
  | _ => none

/-- Where a call is with the index that it has obtained. -/
inductive Called : Pc nr V → Prop
  | idle : Called .idle
  | fetch (op : Op V) : Called (.fetch op)
  | given {pc : Pc nr V} (i : ℕ) : (stage pc).given = some i → (stage pc).taken = none → Called pc
  | taken {pc : Pc nr V} (i : ℕ) : (stage pc).taken = some i → (stage pc).given = none → Called pc

theorem called (pc : Pc nr V) : Called pc := by
  cases pc with
  | idle => exact .idle
  | fetch op => exact .fetch op
  | start op i | next op i | fill op i | link op i | setPtr op i =>
    cases op
    · exact .given i rfl rfl
    · exact .taken i rfl rfl
  | xchgPush v i | setWord i | wake i => exact .given i rfl rfl
  | spin i | xchgPop i | wait i | sleep i | check i | reload i | reclaim i => exact .taken i rfl rfl

/-- The fetch-and-add of `mpmc_enqueue`. -/
def Shared.put (g : Shared nr V) (u : Fin nr) (v : V) : Shared nr V :=
  { g with
    putIndex := g.putIndex + 1
    log := { g.log with enqueue := Function.update g.log.enqueue g.putIndex (some (u, v)) } }

/-- The fetch-and-add of `mpmc_dequeue`. -/
def Shared.pop (g : Shared nr V) (u : Fin nr) : Shared nr V :=
  { g with
    popIndex := g.popIndex + 1
    log := { g.log with dequeue := Function.update g.log.dequeue g.popIndex (some u) } }

theorem run_fetch {junk : Node nr V} (op : Op V) : run Q u g junk (.fetch op) =
    match op with
    | .enqueue v => some (g.put u v, .start (.enqueue v) g.putIndex)
    | .dequeue => some (g.pop u, .start .dequeue g.popIndex) := by
  cases op <;> rfl

/-- What an access does that obtains no index. The call goes on, or it returns and the records
say so. -/
inductive Turn (g g' : Shared nr V) (pc : Pc nr V) : Pc nr V → Prop
  | goes {pc' : Pc nr V} : (stage pc').given = (stage pc).given →
    (stage pc').taken = (stage pc).taken → g'.log.enqueued = g.log.enqueued →
    g'.log.dequeued = g.log.dequeued → Turn g g' pc pc'
  | enqueued (i : ℕ) : (stage pc).given = some i →
    g'.log.enqueued = Function.update g.log.enqueued i true →
    g'.log.dequeued = g.log.dequeued → Turn g g' pc .idle
  | dequeued (i : ℕ) (cv : Word nr V) : (stage pc).taken = some i →
    g'.log.enqueued = g.log.enqueued →
    g'.log.dequeued = Function.update g.log.dequeued i (some cv) → Turn g g' pc .idle

/-- An access leaves the counters and the owners of the indices alone. -/
structure SameIndices (g g' : Shared nr V) : Prop where
  put : g'.putIndex = g.putIndex
  pop : g'.popIndex = g.popIndex
  enqueue : g'.log.enqueue = g.log.enqueue
  dequeue : g'.log.dequeue = g.log.dequeue

theorem over_turn (h : atOver Q g₀ i cv = (g', pc')) (hsame : SameIndices g g₀)
    (henqueued : g₀.log.enqueued = g.log.enqueued) (hdequeued : g₀.log.dequeued = g.log.dequeued)
    (htaken : (stage pc).taken = some i) (hgiven : (stage pc).given = none) :
    SameIndices g g' ∧ Turn g g' pc pc' := by
  rcases over_cases Q g₀ i cv with heq | heq <;> rw [heq] at h <;> cases h
  · exact ⟨hsame, .goes hgiven.symm htaken.symm henqueued hdequeued⟩
  · refine ⟨⟨hsame.put, hsame.pop, hsame.enqueue, hsame.dequeue⟩,
      .dequeued i cv htaken henqueued ?_⟩
    rw [← hdequeued]

theorem reclaim_turn {p : ReclaimPc} {junk : Node nr V}
    (h : reclaim Q u g junk i cv p = some (g', pc')) :
    SameIndices g g' ∧ Turn g g' (.reclaim i cv p) pc' := by
  -- the reclamation goes on, or the dequeue returns what it holds
  have goes {g' : Shared nr V} {p' : ReclaimPc} (hsame : SameIndices g g')
      (hlog : g'.log = g.log) : SameIndices g g' ∧ Turn g g' (.reclaim i cv p) (.reclaim i cv p') :=
    ⟨hsame, .goes rfl rfl (by rw [hlog]) (by rw [hlog])⟩
  have returns {g₀ : Shared nr V} (hsame : SameIndices g g₀) (hlog : g₀.log = g.log) :
      SameIndices g (dequeued g₀ i cv).1 ∧
        Turn g (dequeued g₀ i cv).1 (.reclaim i cv p) (dequeued g₀ i cv).2 :=
    ⟨⟨hsame.put, hsame.pop, hsame.enqueue, hsame.dequeue⟩,
      .dequeued i cv rfl (by simp only [dequeued, hlog]) (by simp only [dequeued, hlog])⟩
  have same : SameIndices g g := ⟨rfl, rfl, rfl, rfl⟩
  cases p <;> simp only [reclaim] at h
  case loadInit =>
    split at h <;> cases h
    · exact goes same rfl
    · exact returns same rfl
  case casInit =>
    split at h <;> cases h
    · exact goes ⟨rfl, rfl, rfl, rfl⟩ rfl
    · exact returns same rfl
  case first | scan => split at h <;> cases h <;> exact goes same rfl
  case compare => split at h <;> split at h <;> cases h <;> exact goes same rfl
  case decide => split at h <;> cases h <;> exact goes same rfl
  case restore =>
    cases h
    exact returns ⟨rfl, rfl, rfl, rfl⟩ rfl
  case free =>
    split at h
    · split at h <;> cases h
      · exact returns ⟨rfl, rfl, rfl, rfl⟩ rfl
      · exact goes ⟨rfl, rfl, rfl, rfl⟩ rfl
    · cases h
  all_goals
    cases h
    exact goes ⟨rfl, rfl, rfl, rfl⟩ rfl

theorem next_run (u : Fin nr) (g : Shared nr V) (pc : Pc nr V) (junk : Node nr V) :
    next Q u g pc (.run junk) = run Q u g junk pc := by
  cases pc <;> rfl

/-- Every access but the fetch-and-add is a turn. -/
theorem run_turn {junk : Node nr V} (hf : ∀ op, pc ≠ .fetch op)
    (h : run Q u g junk pc = some (g', pc')) : SameIndices g g' ∧ Turn g g' pc pc' := by
  have same : SameIndices g g := ⟨rfl, rfl, rfl, rfl⟩
  have walks {op : Op V} {i curr j : ℕ} {g' : Shared nr V} {pc : Pc nr V}
      (hpc : stage pc = op.stage i) (hsame : SameIndices g g') (hlog : g'.log = g.log) :
      SameIndices g g' ∧ Turn g g' pc (walk Q op i curr j) :=
    ⟨hsame, .goes (by rw [stage_walk, hpc]) (by rw [stage_walk, hpc]) (by rw [hlog])
      (by rw [hlog])⟩
  have goes {g' : Shared nr V} {pc' : Pc nr V} (hsame : SameIndices g g') (hlog : g'.log = g.log)
      (hst : (stage pc').given = (stage pc).given ∧ (stage pc').taken = (stage pc).taken) :
      SameIndices g g' ∧ Turn g g' pc pc' :=
    ⟨hsame, .goes hst.1 hst.2 (by rw [hlog]) (by rw [hlog])⟩
  cases pc <;> simp only [run] at h
  case idle => cases h
  case fetch op => exact absurd rfl (hf op)
  case start op i =>
    cases h
    exact walks rfl same rfl
  case next op i curr j =>
    split at h <;> cases h
    · exact walks rfl same rfl
    · exact goes same rfl ⟨rfl, rfl⟩
  case fill op i curr j =>
    cases h
    have hspare : SameIndices g (spare u g).1 ∧ (spare u g).1.log = g.log := by
      unfold spare
      split <;> exact ⟨⟨rfl, rfl, rfl, rfl⟩, rfl⟩
    obtain ⟨⟨hput, hpop, henq, hdeq⟩, hlog⟩ := hspare
    exact goes ⟨hput, hpop, henq, hdeq⟩ hlog ⟨rfl, rfl⟩
  case link op i curr j tmp =>
    split at h <;> cases h
    · exact walks rfl ⟨rfl, rfl, rfl, rfl⟩ rfl
    · exact walks rfl same rfl
  case setPtr op i curr =>
    cases h
    cases op <;> exact goes ⟨rfl, rfl, rfl, rfl⟩ rfl ⟨rfl, rfl⟩
  case xchgPush v i c =>
    split at h <;> cases h
    · exact ⟨⟨rfl, rfl, rfl, rfl⟩, .enqueued i rfl rfl rfl⟩
    · exact ⟨⟨rfl, rfl, rfl, rfl⟩, .goes rfl rfl rfl rfl⟩
  case setWord i t =>
    cases h
    exact goes ⟨rfl, rfl, rfl, rfl⟩ rfl ⟨rfl, rfl⟩
  case wake i t =>
    cases h
    exact ⟨⟨rfl, rfl, rfl, rfl⟩, .enqueued i rfl rfl rfl⟩
  case spin i c times =>
    split at h
    · cases h
      split <;> exact goes same rfl ⟨rfl, rfl⟩
    · exact over_turn (Option.some.inj h) same rfl rfl rfl rfl
  case xchgPop i c =>
    split at h
    · cases h
      exact goes ⟨rfl, rfl, rfl, rfl⟩ rfl ⟨rfl, rfl⟩
    · exact over_turn (Option.some.inj h) ⟨rfl, rfl, rfl, rfl⟩ rfl rfl rfl rfl
  case wait i c =>
    split at h <;> cases h <;> exact goes ⟨rfl, rfl, rfl, rfl⟩ rfl ⟨rfl, rfl⟩
  case sleep i c =>
    split at h <;> cases h
    exact goes same rfl ⟨rfl, rfl⟩
  case check i c =>
    cases h
    split <;> exact goes same rfl ⟨rfl, rfl⟩
  case reload i c => exact over_turn (Option.some.inj h) same rfl rfl rfl rfl
  case reclaim i cv p => exact reclaim_turn h

/-! ### The calls in progress -/

theorem taken_ne_given {k : ℕ} (htaken : (stage pc).taken = some i) :
    (stage pc).given ≠ some k := by
  intro hgiven
  cases called pc with
  | idle => cases htaken
  | fetch op => cases op <;> cases htaken
  | given j _ hnone =>
    rw [hnone] at htaken
    cases htaken
  | taken j _ hnone =>
    rw [hnone] at hgiven
    cases hgiven

theorem Turn.keeps_given (h : Turn g g' pc pc') (hret : g'.log.enqueued i = false) :
    g.log.enqueued i = false ∧ ((stage pc).given = some i → (stage pc').given = some i) := by
  cases h with
  | goes hgiven _ henqueued => exact ⟨by rw [← henqueued, hret], hgiven.trans⟩
  | enqueued k hgiven henqueued =>
    have hik : i ≠ k := by
      intro heq
      rw [henqueued, heq, Function.update_self] at hret
      cases hret
    rw [henqueued, Function.update_of_ne hik] at hret
    refine ⟨hret, fun hi => ?_⟩
    rw [hgiven] at hi
    exact absurd (Option.some.inj hi).symm hik
  | dequeued k cv htaken henqueued =>
    exact ⟨by rw [← henqueued, hret], fun hi => absurd hi (taken_ne_given htaken)⟩

theorem Turn.keeps_taken (h : Turn g g' pc pc') (hret : g'.log.dequeued i = none) :
    g.log.dequeued i = none ∧ ((stage pc).taken = some i → (stage pc').taken = some i) := by
  cases h with
  | goes _ htaken _ hdequeued => exact ⟨by rw [← hdequeued, hret], htaken.trans⟩
  | enqueued k hgiven _ hdequeued =>
    exact ⟨by rw [← hdequeued, hret], fun hi => absurd hgiven (taken_ne_given hi)⟩
  | dequeued k cv htaken _ hdequeued =>
    have hik : i ≠ k := by
      intro heq
      rw [hdequeued, heq, Function.update_self] at hret
      cases hret
    rw [hdequeued, Function.update_of_ne hik] at hret
    refine ⟨hret, fun hi => ?_⟩
    rw [htaken] at hi
    exact absurd (Option.some.inj hi).symm hik

/-- An index whose call has not returned is with the thread that obtained it. -/
structure Pending (s : Config (Fin nr) (Shared nr V) (Pc nr V)) : Prop where
  enqueue : ∀ i t v, s.shared.log.enqueue i = some (t, v) → s.shared.log.enqueued i = false →
    (stage (s.thread t)).given = some i
  dequeue : ∀ i t, s.shared.log.dequeue i = some t → s.shared.log.dequeued i = none →
    (stage (s.thread t)).taken = some i

theorem Pending.turn (h : Pending s) (hsame : SameIndices s.shared g')
    (hturn : Turn s.shared g' (s.thread x) pc') :
    Pending ⟨g', Function.update s.thread x pc'⟩ := by
  constructor
  · intro i t v henq hret
    obtain ⟨hold, hkeep⟩ := hturn.keeps_given hret
    have hgiven := h.enqueue i t v (by rw [← hsame.enqueue, henq]) hold
    rcases eq_or_ne t x with rfl | ht
    · simpa only [Function.update_self] using hkeep hgiven
    · simpa only [Function.update_of_ne ht] using hgiven
  · intro i t hdeq hret
    obtain ⟨hold, hkeep⟩ := hturn.keeps_taken hret
    have htaken := h.dequeue i t (by rw [← hsame.dequeue, hdeq]) hold
    rcases eq_or_ne t x with rfl | ht
    · simpa only [Function.update_self] using hkeep htaken
    · simpa only [Function.update_of_ne ht] using htaken

/-- A thread without an index enters a call, or obtains an index. -/
theorem Pending.enter (h : Pending s) (hgiven : (stage (s.thread x)).given = none)
    (htaken : (stage (s.thread x)).taken = none)
    (henqueued : g'.log.enqueued = s.shared.log.enqueued)
    (hdequeued : g'.log.dequeued = s.shared.log.dequeued)
    (henq : ∀ i t v, g'.log.enqueue i = some (t, v) →
      s.shared.log.enqueue i = some (t, v) ∨ t = x ∧ (stage pc').given = some i)
    (hdeq : ∀ i t, g'.log.dequeue i = some t →
      s.shared.log.dequeue i = some t ∨ t = x ∧ (stage pc').taken = some i) :
    Pending ⟨g', Function.update s.thread x pc'⟩ := by
  constructor
  · intro i t v hi hret
    rcases henq i t v hi with hold | ⟨rfl, hnew⟩
    · have hold := h.enqueue i t v hold (by rw [← henqueued, hret])
      have ht : t ≠ x := by
        rintro rfl
        rw [hgiven] at hold
        cases hold
      simpa only [Function.update_of_ne ht] using hold
    · simpa only [Function.update_self] using hnew
  · intro i t hi hret
    rcases hdeq i t hi with hold | ⟨rfl, hnew⟩
    · have hold := h.dequeue i t hold (by rw [← hdequeued, hret])
      have ht : t ≠ x := by
        rintro rfl
        rw [htaken] at hold
        cases hold
      simpa only [Function.update_of_ne ht] using hold
    · simpa only [Function.update_self] using hnew

theorem pending_step {a : Act nr V} (h : Pending s)
    (hn : next Q x s.shared (s.thread x) a = some (g', pc')) :
    Pending ⟨g', Function.update s.thread x pc'⟩ := by
  rcases next_cases hn with ⟨junk, hrun⟩ | ⟨i, c, hpc, rfl, rfl⟩ | ⟨hpc, v, hreg, rfl, rfl⟩ |
    ⟨hpc, hreg, rfl, rfl⟩
  · by_cases hf : ∃ op, s.thread x = .fetch op
    · obtain ⟨op, hpc⟩ := hf
      rw [hpc, run_fetch] at hrun
      cases op with
      | enqueue v =>
        cases hrun
        refine h.enter (by rw [hpc]; rfl) (by rw [hpc]; rfl) rfl rfl (fun i t w hi => ?_)
          fun i t hi => .inl hi
        simp only [Shared.put] at hi
        rcases eq_or_ne i s.shared.putIndex with rfl | hne
        · rw [Function.update_self] at hi
          cases hi
          exact .inr ⟨rfl, rfl⟩
        · rw [Function.update_of_ne hne] at hi
          exact .inl hi
      | dequeue =>
        cases hrun
        refine h.enter (by rw [hpc]; rfl) (by rw [hpc]; rfl) rfl rfl (fun i t w hi => .inl hi)
          fun i t hi => ?_
        simp only [Shared.pop] at hi
        rcases eq_or_ne i s.shared.popIndex with rfl | hne
        · rw [Function.update_self] at hi
          cases hi
          exact .inr ⟨rfl, rfl⟩
        · rw [Function.update_of_ne hne] at hi
          exact .inl hi
    · obtain ⟨hsame, hturn⟩ := run_turn (fun op hop => hf ⟨op, hop⟩) hrun
      exact h.turn hsame hturn
  · exact h.turn ⟨rfl, rfl, rfl, rfl⟩ (hpc ▸ .goes rfl rfl rfl rfl)
  · exact h.enter (by rw [hpc]; rfl) (by rw [hpc]; rfl) rfl rfl (fun _ _ _ => .inl) fun _ _ => .inl
  · exact h.enter (by rw [hpc]; rfl) (by rw [hpc]; rfl) rfl rfl (fun _ _ _ => .inl) fun _ _ => .inl

theorem pending_reachable (hr : (system V Q).Reachable System.free s) : Pending s := by
  refine System.reachable_invariant (fun s hs => ?_) (fun s a s' _ h _ hn => ?_) hr
  · cases hs
    exact ⟨fun _ _ _ h => (by cases h), fun _ _ h => (by cases h)⟩
  · obtain ⟨g', pc', hnext, rfl⟩ := Threads.step_cases hn
    exact pending_step h hnext

end LinuxSummer.Mpmc
