import LinuxSummer.FutexInvariant

/-! Nobody is left asleep on the mutex word: the duty to wake the next sleeper is always
in the word itself or with an awake thread. -/
namespace LinuxSummer.Futex
set_option linter.unusedSectionVars false
variable {T C : Type*} [DecidableEq T] [DecidableEq C]
variable {p : WakePolicy} {t : T} {g g' : Shared T C} {l l' : Local C} {a : Act T C}
variable {s : Config T (Shared T C) (Local C)}

/-- An awake thread that has still to pass the wake-up on: it is about to call
`futex_wake` in `mutex_unlock`, or it was woken from a futex queue and has not set
`MUTEX_SLEEPING` since. -/
def CarriesDuty (s : Config T (Shared T C) (Local C)) (t : T) : Prop :=
  (∀ f, t ∉ s.shared.queue f) ∧
    ((∃ k, (s.thread t).pc = .unlockWake k) ∨ (s.thread t).woken = true ∨
      ∃ f, SleepsOn (s.thread t).pc f)

def BothSet (w : Word) : Prop := w = mutexLocked ||| mutexSleeping

/-- A sleeper on the mutex word is not forgotten. -/
def Relayed (s : Config T (Shared T C) (Local C)) : Prop :=
  s.shared.queue .mutex ≠ [] → BothSet s.shared.state ∨ ∃ u, CarriesDuty s u

/-- The mark of a woken thread goes only when it sets `MUTEX_SLEEPING`, and it sets that
bit only in a word that is locked. -/
theorem next_woken (hi : Inv s) (off : ∀ f, t ∉ s.shared.queue f)
    (hw : (s.thread t).woken = true ∨ ∃ f, SleepsOn (s.thread t).pc f)
    (h : next p t s.shared (s.thread t) a = some (g', l')) :
    l'.woken = true ∨ BothSet g'.state := by
  have awake (hn : ∀ f, ¬ SleepsOn (s.thread t).pc f) : (s.thread t).woken = true :=
    hw.resolve_right fun ⟨f, hf⟩ => hn f hf
  cases next_word h with
  | same state holds woken =>
    rcases woken with ⟨hk, hn | ⟨f, hf⟩⟩ | ⟨hk, -⟩
    · exact .inl (hk.trans (awake hn))
    · exact absurd hf (off f)
    · exact .inl hk
  | acquire unlocked hn state holds =>
    exact state.imp (fun hs => hs.2.trans (awake hn)) And.left
  | contend locked hn state holds =>
    exact state.imp (fun hs => hs.2.trans (awake hn)) And.left
  | release holder state holds woken wake =>
    have hn : ∀ f, ¬ SleepsOn (s.thread t).pc f := by
      rcases holder with ⟨k, hk⟩ | ⟨c, hc⟩ | ⟨c, hc⟩ <;> simp [*, SleepsOn]
    exact .inl (woken ▸ awake hn)
  | mark holder state holds woken =>
    exact .inr (state.trans (hi.word.or_sleeping (hi.holder_locked t (hi.holder_pc t holder))))

/-- The word loses its flags only in `mutex_unlock`, which then has to wake a sleeper. -/
theorem next_flags (hb : BothSet g.state) (h : next p t g l a = some (g', l')) :
    BothSet g'.state ∨ ∃ k, l'.pc = .unlockWake k := by
  have taken (hs : g'.state = g.state ||| mutexLocked ∧ l'.woken = l.woken ∨
      g'.state = mutexLocked ||| mutexSleeping ∧ l'.woken = false) : BothSet g'.state := by
    rcases hs with ⟨hs, -⟩ | ⟨hs, -⟩
    · rw [BothSet, hs, hb]
      decide
    · exact hs
  cases next_word h with
  | same state holds woken => exact .inl (state ▸ hb)
  | acquire unlocked awake state holds => exact .inl (taken state)
  | contend locked awake state holds => exact .inl (taken state)
  | release holder state holds woken wake =>
    refine .inr (wake.resolve_left fun hz => ?_)
    rw [hb] at hz
    exact absurd hz (by decide)
  | mark holder state holds woken =>
    refine .inl (state.trans ?_)
    rw [hb]
    decide

/-- `mutex_unlock` gives its duty to the thread it wakes, or finds nobody. -/
theorem next_unlockWake {k : UnlockFrom C} (hpc : l.pc = .unlockWake k)
    (h : next p t g l a = some (g', l')) :
    (g.queue .mutex = [] ∧ g' = g) ∨ ∃ w, w ∈ g.queue .mutex ∧ g' = g.dequeue .mutex w := by
  cases a with
  | call op =>
    obtain ⟨hidle, -, -⟩ := next_call h
    simp [hpc] at hidle
  | run =>
    simp only [next, run, hpc] at h
    split at h <;> rename_i hq <;> cases h
    exact .inl ⟨hq, rfl⟩
  | wake w =>
    simp only [next, wake, hpc] at h
    split at h <;> rename_i hq <;> cases h
    exact .inr ⟨w, hq.mem, rfl⟩
  | spurious => simp [next, spurious, hpc] at h

/-- A thread that carries the duty and does not move keeps it. -/
theorem CarriesDuty.of_other {u : T} (hi : Inv s) (hu : u ≠ t) (hd : CarriesDuty s u)
    (h : next p t s.shared (s.thread t) a = some (g', l')) :
    CarriesDuty ⟨g', Function.update s.thread t l'⟩ u := by
  refine ⟨fun f hf => ?_, by simpa only [Function.update_of_ne hu] using hd.2⟩
  rcases ((next_queue h).mem hi.queue_wf (hi.asleep t) hf).2 hu with hf | ⟨-, c, hc⟩
  · exact hd.1 f hf
  · exact hd.1 _ hc

/-- A thread taken off a futex queue by another one carries the duty. -/
theorem CarriesDuty.of_woken {w : T} {f : FutexAddr C} (hi : Inv s) (hw : w ∈ s.shared.queue f)
    (ht : ∀ f, ¬ SleepsOn (s.thread t).pc f) (off : ∀ f', w ∉ g'.queue f') :
    CarriesDuty ⟨g', Function.update s.thread t l'⟩ w := by
  have hne : w ≠ t := fun he => ht f (he ▸ hi.asleep w f hw)
  refine ⟨off, .inr (.inr ⟨f, ?_⟩)⟩
  simpa only [Function.update_of_ne hne] using hi.asleep w f hw

theorem wokenPc_tryFail (i : ℕ) (c : C) : WokenPc (tryFail l (.spin i (.condWaited c))).pc := by
  simp only [tryFail]
  split
  · exact .inr (.inl ⟨i + 1, c, rfl⟩)
  · exact .inl ⟨_, rfl⟩

theorem next_wokenPc (hw : l.woken = true → WokenPc l.pc)
    (h : next p t g l a = some (g', l')) (hw' : l'.woken = true) : WokenPc l'.pc := by
  by_cases hl : l.woken = true
  · -- the marked thread is at one of four places; `lockXchg` and `condOr` end the mark
    have hsleep : a = .run := by
      cases a with
      | run => rfl
      | call op =>
        have := (next_call h).1
        rcases hw hl with ⟨k, hk⟩ | ⟨i, c, hk⟩ | ⟨i, c, hk⟩ | ⟨c, hk⟩ <;> simp [this] at hk
      | wake w =>
        rcases hw hl with ⟨k, hk⟩ | ⟨i, c, hk⟩ | ⟨i, c, hk⟩ | ⟨c, hk⟩ <;>
          simp [next, wake, hk] at h
      | spurious =>
        rcases hw hl with ⟨k, hk⟩ | ⟨i, c, hk⟩ | ⟨i, c, hk⟩ | ⟨c, hk⟩ <;>
          simp [next, spurious, hk] at h
    subst hsleep
    rcases hw hl with ⟨k, hk⟩ | ⟨i, c, hk⟩ | ⟨i, c, hk⟩ | ⟨c, hk⟩ <;>
      simp only [next, run, hk] at h
    · split at h <;> cases h <;> simp at hw'
    · split at h <;> cases h
      · exact wokenPc_tryFail i c
      · exact .inr (.inr (.inl ⟨i, c, rfl⟩))
    · split at h <;> cases h
      · exact wokenPc_tryFail i c
      · exact .inr (.inr (.inr ⟨c, rfl⟩))
    · cases h
      simp at hw'
  · cases next_word h with
    | same state holds woken =>
      rcases woken with ⟨hk, -⟩ | ⟨-, hk⟩
      · exact absurd (hk.symm.trans hw') hl
      · exact hk
    | acquire unlocked awake state holds =>
      rcases state with ⟨-, hk⟩ | ⟨-, hk⟩ <;> simp_all
    | contend locked awake state holds =>
      rcases state with ⟨-, hk⟩ | ⟨-, hk⟩ <;> simp_all
    | release holder state holds woken wake => exact absurd (woken.symm.trans hw') hl
    | mark holder state holds woken => simp [woken] at hw'

/-- The mover keeps the duty, sets both flags, hands the duty to the thread it wakes, or
has found nobody to wake. -/
theorem CarriesDuty.of_self (hi : Inv s) (hw : (s.thread t).woken = true → WokenPc (s.thread t).pc)
    (hd : CarriesDuty s t) (h : next p t s.shared (s.thread t) a = some (g', l')) :
    BothSet g'.state ∨ (∃ u, CarriesDuty ⟨g', Function.update s.thread t l'⟩ u) ∨
      g'.queue .mutex = [] := by
  obtain ⟨off, ⟨k, hk⟩ | hd⟩ := hd
  · rcases next_unlockWake hk h with ⟨hq, rfl⟩ | ⟨w, hw, rfl⟩
    · exact .inr (.inr hq)
    · refine .inr (.inl ⟨w, .of_woken hi hw (by simp [hk, SleepsOn]) fun f hf => ?_⟩)
      obtain ⟨hf, hne⟩ := (mem_dequeue hi.queue_wf _ _ _ _).mp hf
      exact hne ⟨hi.queue_wf.disjoint hf hw, rfl⟩
  · rcases next_woken hi off hd h with hw' | hb
    · refine .inr (.inl ⟨t, fun f hf => ?_, .inr (.inl (by simpa using hw'))⟩)
      have hs := ((next_queue h).mem hi.queue_wf (hi.asleep t) hf).1 rfl
      rcases next_wokenPc hw h hw' with ⟨k, hk⟩ | ⟨i, c, hk⟩ | ⟨i, c, hk⟩ | ⟨c, hk⟩ <;>
        simp [hk, SleepsOn] at hs
    · exact .inl hb

theorem relayed_step (hi : Inv s) (hw : (s.thread t).woken = true → WokenPc (s.thread t).pc)
    (hr : Relayed s) (h : next p t s.shared (s.thread t) a = some (g', l')) :
    Relayed ⟨g', Function.update s.thread t l'⟩ := by
  intro hne
  by_cases hq : s.shared.queue .mutex = []
  · -- the queue was empty: the mover fell asleep on it, or moved sleepers to it
    cases next_queue h with
    | same queue off after => exact absurd (queue ▸ hq) hne
    | sleep f queue word before after =>
      rcases word with ⟨rfl, hb⟩ | ⟨c, seq, -, rfl, -⟩
      · rcases next_flags hb h with hb' | ⟨k, hk⟩
        · exact .inl hb'
        · simp [hk, SleepsOn] at after
      · have hq' : g'.queue .mutex = [] := by simp [queue, Shared.enqueue, hq]
        exact absurd hq' hne
    | leave wf mem order after =>
      obtain ⟨u, hu⟩ := List.exists_mem_of_ne_nil _ hne
      have hu' := ((mem hi.queue_wf u .mutex).mp hu).1
      simp [hq] at hu'
    | wake f w admits queue before after =>
      obtain ⟨u, hu⟩ := List.exists_mem_of_ne_nil _ hne
      rw [queue, mem_dequeue hi.queue_wf] at hu
      simp [hq] at hu
    | requeue c w admits queue before after =>
      have hw := admits.mem
      refine .inr ⟨w, .of_woken hi hw before fun f hf => ?_⟩
      rw [queue, mem_requeue hi.queue_wf] at hf
      rcases hf with ⟨hfc, hf | ⟨-, -, hf⟩⟩
      · exact hfc (hi.queue_wf.disjoint hf hw)
      · exact hf rfl
  · rcases hr hq with hb | ⟨u, hd⟩
    · rcases next_flags hb h with hb' | ⟨k, hk⟩
      · exact .inl hb'
      · refine .inr ⟨t, fun f hf => ?_, .inl ⟨k, by simpa using hk⟩⟩
        have hs := ((next_queue h).mem hi.queue_wf (hi.asleep t) hf).1 rfl
        simp [hk, SleepsOn] at hs
    · by_cases hu : u = t
      · subst hu
        rcases hd.of_self hi hw h with hb | hd' | hemp
        · exact .inl hb
        · exact .inr hd'
        · exact absurd hemp hne
      · exact .inr ⟨u, hd.of_other hi hu h⟩

theorem wokenPc_reachable {ok : Config T (Shared T C) (Local C) → T × Act T C → Prop}
    (h : (system T C p).Reachable ok s) (t : T) :
    (s.thread t).woken = true → WokenPc (s.thread t).pc := by
  revert t
  apply System.reachable_invariant (I := fun s => ∀ t, (s.thread t).woken = true →
    WokenPc (s.thread t).pc) _ _ h
  · rintro s rfl t
    simp [start]
  · intro s a s' _ hi _ hn
    obtain ⟨g, l, hnext, rfl⟩ := step_cases hn
    intro u
    by_cases hu : u = a.1
    · subst hu
      simpa using next_wokenPc (hi a.1) hnext
    · simpa [Function.update_of_ne hu] using hi u

theorem relayed_reachable {ok : Config T (Shared T C) (Local C) → T × Act T C → Prop}
    (h : (system T C p).Reachable ok s) : Relayed s := by
  apply System.reachable_invariant _ _ h
  · rintro s rfl hq
    exact absurd rfl hq
  · intro s a s' hs hr _ hn
    obtain ⟨g, l, hnext, rfl⟩ := step_cases hn
    exact relayed_step (inv_reachable hs) (wokenPc_reachable hs a.1) hr hnext

/-- If a thread is asleep on the mutex word, then both flags are set in the word or some
awake thread has still to pass the wake-up on. -/
theorem sleeper_not_stranded (h : (system T C p).Reachable System.free s)
    (ht : t ∈ s.shared.queue .mutex) :
    (s.shared.state &&& mutexLocked ≠ 0 ∧ s.shared.state &&& mutexSleeping ≠ 0) ∨
      ∃ u, CarriesDuty s u := by
  rcases relayed_reachable h (List.ne_nil_of_mem ht) with hb | hd
  · rw [hb]
    exact .inl (by decide)
  · exact .inr hd

/-- Thread 0 takes the mutex; thread 1 spins in vain and falls asleep. -/
def sleepSchedule {T : Type} (t u : T) : List (T × Act T Unit) :=
  [(t, .call .trylock), (t, .run), (t, .run), (u, .call .lock)] ++
    List.replicate (mutexSpins + 2) (u, .run)

theorem sleeper_not_stranded_two : ∃ s : Config (Fin 2) (Shared (Fin 2) Unit) (Local Unit),
    1 ∈ s.shared.queue .mutex ∧
    ((s.shared.state &&& mutexLocked ≠ 0 ∧ s.shared.state &&& mutexSleeping ≠ 0) ∨
      ∃ u, CarriesDuty s u) := by
  have hrun : ((system (Fin 2) Unit .any).exec (fun _ _ => true) (start _ _) (sleepSchedule 0 1)).any
      (fun s => decide (1 ∈ s.shared.queue .mutex)) = true := by decide +kernel
  obtain ⟨s, hs, hq⟩ := (Option.any_eq_true _ _).mp hrun
  exact ⟨s, of_decide_eq_true hq, sleeper_not_stranded
    ⟨_, rfl, System.run_of_exec (fun _ _ _ => trivial) hs⟩ (of_decide_eq_true hq)⟩

end LinuxSummer.Futex
