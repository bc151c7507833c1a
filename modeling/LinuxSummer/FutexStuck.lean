import LinuxSummer.FutexRefines

/-! Deadlocks on the mutexes of hw2/mutex.h and the condition variables of hw2/cond.h are deadlocks of
the program: the code loses no wake-up of its own. -/
namespace LinuxSummer.Futex
set_option linter.unusedSectionVars false
variable {T C : Type*} [DecidableEq T] [DecidableEq C] {p : WakePolicy} {t : T} {g : Shared T C}
  {l : Local C} {s : Config T (Shared T C) (Local C)}
  {ok : Config T (Shared T C) (Local C) → T × Act T C → Prop}

/-- The word is locked only while a thread holds the mutex. -/
theorem held_of_locked (h : (system T C p).Reachable ok s) :
    s.shared.state ≠ 0 → ∃ t, (s.thread t).holds = true := by
  apply System.reachable_invariant (I := fun s => s.shared.state ≠ 0 → ∃ t, (s.thread t).holds = true)
    ?_ ?_ h
  · rintro s rfl hne
    exact absurd rfl hne
  · rintro s ⟨t, a⟩ s' hs hi _ hn hne
    obtain ⟨g, l, hnext, rfl⟩ := step_cases hn
    have keep (hh : l.holds = (s.thread t).holds) (hu : ∃ u, (s.thread u).holds = true) :
        ∃ u, (Function.update s.thread t l u).holds = true := by
      obtain ⟨u, hu⟩ := hu
      refine ⟨u, ?_⟩
      by_cases hut : u = t
      · subst hut
        rwa [Function.update_self, hh]
      · rwa [Function.update_of_ne hut]
    cases next_word hnext with
    | same state holds woken => exact keep holds (hi (state ▸ hne))
    | acquire unlocked awake state holds => exact ⟨t, by simpa using holds⟩
    | contend locked awake state holds => exact keep holds (hi (WordRange.ne_zero locked))
    | release holder state holds woken wake => exact absurd state hne
    | mark holder state holds woken =>
      exact keep holds ⟨t, (inv_reachable hs).holder_pc t holder⟩

/-- When each call in progress sleeps, a mutex that some of them sleep on is held. -/
theorem held_of_asleep (h : (system T C p).Reachable ok s)
    (hasleep : ∀ u, (s.thread u).pc ≠ .idle → ∃ f, u ∈ s.shared.queue f)
    (hq : s.shared.queue .mutex ≠ []) : ∃ u, (s.thread u).holds = true := by
  rcases relayed_reachable h hq with hb | ⟨u, hoff, hduty⟩
  · refine held_of_locked h ?_
    rw [hb]
    decide
  · -- the thread with the duty to wake a sleeper is not asleep itself
    have hpc : (s.thread u).pc ≠ .idle := by
      intro hidle
      rcases hduty with ⟨k, hk⟩ | hw | ⟨f, hf⟩
      · simp [hidle] at hk
      · have hpc := wokenPc_reachable h u hw
        simp [hidle, WokenPc] at hpc
      · simp [hidle, SleepsOn] at hf
    obtain ⟨f, hf⟩ := hasleep u hpc
    exact absurd hf (hoff f)

/-- A thread within a call has a step, unless it is asleep. -/
theorem next_enabled (hidle : l.pc ≠ .idle) :
    (∃ a, (a = .run ∨ ∃ w, a = .wake w) ∧ next p t g l a ≠ none) ∨
      (∃ k, l.pc = .lockSleep k ∧ t ∈ g.queue .mutex) ∨
      ∃ c seq, l.pc = .condSleep c seq ∧ (t ∈ g.queue (.cond c) ∨ t ∈ g.queue .mutex) := by
  have reaches (q : List T) : q = [] ∨ ∃ w, p.admits q w := by
    cases q with
    | nil => exact .inl rfl
    | cons w q =>
      refine .inr ⟨w, ?_⟩
      cases p with
      | any => exact List.mem_cons_self
      | longest => rfl
  have now (h : next p t g l .run ≠ none) :
      ∃ a, (a = .run ∨ ∃ w, a = .wake w) ∧ next p t g l a ≠ none := ⟨.run, .inl rfl, h⟩
  cases hpc : l.pc with
  | idle => exact absurd hpc hidle
  | lockSleep k =>
    by_cases ht : t ∈ g.queue .mutex
    · exact .inr (.inl ⟨k, rfl, ht⟩)
    · exact .inl (now (by simp [next, run, hpc, ht]))
  | condSleep c seq =>
    by_cases ht : t ∈ g.queue (.cond c) ∨ t ∈ g.queue .mutex
    · exact .inr (.inr ⟨c, seq, rfl, ht⟩)
    · exact .inl (now (by simp [next, run, hpc, ht]))
  | unlockWake k =>
    rcases reaches (g.queue .mutex) with hq | ⟨w, hw⟩
    · exact .inl (now (by simp [next, run, hpc, hq]))
    · exact .inl ⟨.wake w, .inr ⟨w, rfl⟩, by simp [next, wake, hpc, hw]⟩
  | signalWake c | broadcastRequeue c =>
    rcases reaches (g.queue (.cond c)) with hq | ⟨w, hw⟩
    · exact .inl (now (by simp [next, run, hpc, hq]))
    · exact .inl ⟨.wake w, .inr ⟨w, rfl⟩, by simp [next, wake, hpc, hw]⟩
  | tryLoad k | tryOr k | lockXchg k | lockWait k | unlockXchg k | condFutex c seq =>
    refine .inl (now ?_)
    simp only [next, run, hpc]
    split <;> simp
  | condSpin c seq i =>
    refine .inl (now ?_)
    simp only [next, run, hpc]
    split
    · simp
    · split <;> simp
  | condLoad c | condOr c | signalAdd c | broadcastAdd c =>
    exact .inl (now (by simp [next, run, hpc]))

end LinuxSummer.Futex

namespace LinuxSummer.FutexProgram
open Monitor
set_option linter.unusedSectionVars false
variable {T M Γ L : Type*} [DecidableEq T] [DecidableEq M] {P : Program T M Γ L} {d : Γ} {t u : T}
  {m : M} {k x : L} {c : State T M Γ L} {s : Ideal T M Γ L} {ok : State T M Γ L → T × Act T → Prop}

/-- The thread has come to its end. -/
def Ended (P : Program T M Γ L) (c : State T M Γ L) (t : T) : Prop :=
  ∃ l, (c.thread t).place = .run l ∧ P.instr t l = .exit

theorem stuck_of_ended (h : ∀ t, Ended P c t) : Stuck P p c := by
  intro t a _
  obtain ⟨l, hl, hi⟩ := h t
  cases a <;> simp [next, hl, hi, perform, called]

section Stuck
variable (hc : (system P .longest d).Reachable ok c) (hstuck : Stuck P .longest c)
include hc hstuck

/-- In a deadlock a thread within a call is asleep. -/
theorem asleep_of_stuck (hpc : ((c.thread t).use m).pc ≠ .idle) :
    (∃ k, ((c.thread t).use m).pc = .lockSleep k ∧ t ∈ (c.shared.word m).queue .mutex) ∨
      ∃ seq, ((c.thread t).use m).pc = .condSleep () seq ∧
        (t ∈ (c.shared.word m).sleepers ∨ t ∈ (c.shared.word m).queue .mutex) := by
  obtain ⟨k, hplace⟩ : ∃ k, (c.thread t).place = .call m k := by
    by_contra hno
    exact hpc ((tidy_reachable hc).idle t m fun k hk => hno ⟨k, hk⟩)
  rcases Futex.next_enabled (p := .longest) (t := t) (g := c.shared.word m) hpc with ⟨b, hb, hne⟩ | h | ⟨⟨⟩, h⟩
  · obtain ⟨r, hr⟩ := Option.ne_none_iff_exists'.mp hne
    rcases hb with rfl | ⟨w, rfl⟩
    · have h := hstuck t .run (by simp)
      simp [next, hplace, access, hr] at h
    · have h := hstuck t (.notify w) (by simp)
      simp [next, hplace, access, hr] at h
  · exact .inl h
  · exact .inr h

/-- In a deadlock the mutex of a sleeper has an owner. -/
theorem held_of_stuck (ht : t ∈ (c.shared.word m).queue .mutex) :
    ∃ u, ((c.thread u).use m).holds = true := by
  refine Futex.held_of_asleep (free_view hc m) (fun u hu => ?_) (List.ne_nil_of_mem ht)
  rcases asleep_of_stuck hc hstuck hu with ⟨k, -, h⟩ | ⟨seq, -, h | h⟩
  · exact ⟨_, h⟩
  · exact ⟨_, h⟩
  · exact ⟨_, h⟩

/-- In a deadlock a thread that is at its end on correct mutexes is there on these. -/
theorem ended_of_stuck (hf : Refines P c s) (hfin : P.Finished s t) : Ended P c t := by
  obtain ⟨l, hl, hi⟩ := hfin
  cases hplace : (c.thread t).place with
  | run x =>
    have hx := hf.at_place t x hplace
    rw [hl] at hx
    cases hx
    exact ⟨l, hplace, hi⟩
  | call m k =>
    -- a call is not at the end, neither where it has begun nor where it waits
    exfalso
    have hmatch := hf.in_call t m k hplace
    have hidle := ((tidy_reachable hc).busy t m k hplace).1
    rcases asleep_of_stuck hc hstuck hidle with ⟨k', hpc, -⟩ | ⟨seq, hpc, -⟩
    · rw [hpc, hl] at hmatch
      rcases k'.stage_cases with hst | hst <;> rw [Futex.Pc.stage, hst] at hmatch
      · obtain ⟨x, hx, hlock⟩ := hmatch
        cases hx
        rw [hi] at hlock
        cases hlock
      · cases hmatch
    · rw [hpc, hl] at hmatch
      rcases hmatch with ⟨hk, -⟩ | hk <;> cases hk

variable (hr : (P.system d).Reachable System.free s) (hf : Refines P c s)
include hr hf

/-- In a deadlock a thread at a place of the program has come to its end, or waits for the data. -/
theorem blocked_at_place (hplace : (c.thread t).place = .run x) : P.Blocked s t := by
  have hst := hf.at_place t x hplace
  have hrun := hstuck t .run (by simp)
  simp only [next, hplace] at hrun
  -- the calls of a program can begin, as it gives back and waits with mutexes that it holds
  have begins {m : M} (hm : P.holds t x m) : ((c.thread t).use m).holds = true := by
    rw [← hf.owner, (sound_reachable hr).owner, hst]
    exact hm
  have hres := P.respects t x
  intro a ha
  rw [hst, Program.next]
  cases hi : P.instr t x <;> rw [hi] at hrun hres
  case access f =>
    have hnone : f s.shared.data = none := by
      rw [hf.data]
      simpa [perform] using hrun
    cases a <;> simp [Monitor.perform, hnone]
  case exit => cases a <;> rfl
  case attempt f => simp [perform] at hrun
  case lock | signal | broadcast => simp [perform, called, Futex.enter] at hrun
  case unlock | wait => simp [perform, called, Futex.enter, begins hres.1] at hrun

/-- In a deadlock the thread that sleeps on a mutex cannot take it. -/
theorem blocked_of_owner (hst : (∃ x, s.thread t = .run x ∧ P.instr t x = .lock m k) ∨
      s.thread t = .woken m k) (ht : t ∈ (c.shared.word m).queue .mutex) : P.Blocked s t := by
  obtain ⟨u, hu⟩ := held_of_stuck hc hstuck ht
  have hown := (hf.owner m u).mpr hu
  intro a ha
  rcases hst with ⟨x, hst, hi⟩ | hst
  · cases a <;> simp [Program.next, hst, hi, Monitor.perform, hown]
  · cases a <;> simp [Program.next, hst, hown]

theorem blocked_in_call [Fintype T]
    (hn : ∀ m, Futex.Notified (view m c) (s.shared.waiters m))
    (hplace : (c.thread t).place = .call m k) : P.Blocked s t := by
  have hs := sound_reachable hr
  have hmatch := hf.in_call t m k hplace
  have hidle := ((tidy_reachable hc).busy t m k hplace).1
  have hi := Futex.inv_reachable (free_view hc m)
  rcases asleep_of_stuck hc hstuck hidle with ⟨k', hpc, ht⟩ | ⟨seq, hpc, ht⟩
  · rw [hpc] at hmatch
    refine blocked_of_owner (k := k) hc hstuck hr hf ?_ ht
    rcases k'.stage_cases with hst | hst <;> rw [Futex.Pc.stage, hst] at hmatch
    · exact .inl hmatch
    · exact .inr hmatch
  · rw [hpc] at hmatch
    rcases ht with ht | ht
    · -- no call of `futex_wake` is under way, so no signal has been given to the thread
      have hnone (u : T) (h : ((c.thread u).use m).pc.Waking) : False := by
        have hu : ((c.thread u).use m).pc ≠ .idle := by
          rcases h with h | h <;> simp [h]
        rcases asleep_of_stuck hc hstuck hu with ⟨k', hk, -⟩ | ⟨seq', hk, -⟩ <;>
          simp [hk, Futex.Pc.Waking] at h
      have hwaits : t ∈ s.shared.waiters m := by
        rcases (hn m).covered with ⟨u, hu⟩ | ⟨n, hle, hdrop⟩
        · exact (hnone u (.inr hu)).elim
        · have hzero : Futex.pending (view m c).thread = 0 := by
            refine Finset.card_eq_zero.mpr (Finset.filter_eq_empty_iff.mpr fun u _ hu => ?_)
            exact hnone u (.inl hu)
          obtain rfl : n = 0 := by omega
          exact hdrop t ht
      obtain ⟨k', hk⟩ := hs.asleep t m hwaits
      intro a ha
      cases a <;> simp [Program.next, hk, hwaits]
      exact ha rfl
    · refine blocked_of_owner (k := k) hc hstuck hr hf (.inr ?_) ht
      rcases hmatch with ⟨hk, hwaits⟩ | hk
      · have hmem := (hn m).asleep t hwaits seq hpc
        have heq := hi.queue_wf.disjoint hmem ht
        cases heq
      · exact hk

end Stuck

/-- When no thread of the program has a step on these mutexes, then none has one on correct mutexes
either, in a state that the program reaches there with the same data. -/
theorem blocked_of_stuck [Fintype T] (hc : (system P .longest d).Reachable fewSignals c)
    (hstuck : Stuck P .longest c) :
    ∃ s, (P.system d).Reachable System.free s ∧ Refines P c s ∧ ∀ t, P.Blocked s t := by
  obtain ⟨s, hr, hf, hn⟩ := refines_run True
    (fun _ => ⟨rfl, fun _ _ h => h⟩) hc
  refine ⟨s, hr, hf, fun t => ?_⟩
  cases hplace : (c.thread t).place with
  | run x => exact blocked_at_place hc hstuck hr hf hplace
  | call m k => exact blocked_in_call hc hstuck hr hf (hn trivial) hplace

end LinuxSummer.FutexProgram
