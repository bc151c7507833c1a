import LinuxSummer.FutexPiCond

/-! Mutual exclusion of the PI mutex, as long as the kernel grants every `FUTEX_LOCK_PI2`. -/
namespace LinuxSummer.Futex
set_option linter.unusedSectionVars false
variable {T C : Type*} [DecidableEq T] [DecidableEq C] {p : WakePolicy} {tid : T ↪ Tid} {t : T}
  {g g' : PiShared T C} {l l' : Local C} {a : PiAct T C}
  {s : Config T (PiShared T C) (Local C)}

/-- The program counters of `mutex_trylock`, `mutex_lock` and `mutex_unlock` when the user calls
them. -/
def MutexPc : Pc C → Prop
  | .idle => True
  | .tryLoad k | .tryOr k => k = .call ∨ ∃ i, k = .spin i .call
  | .lockXchg k | .lockWait k | .lockSleep k => k = .call
  | .unlockXchg k | .unlockWake k => k = .call
  | _ => False

/-- The only functions that are called are `mutex_trylock`, `mutex_lock` and `mutex_unlock`. -/
def MutexCall : PiAct T C → Prop
  | .act (.call op) => op = .trylock ∨ op = .lock ∨ op = .unlock
  | _ => True

theorem mutexPc_tryFail {k : TryFrom C} (h : k = .call ∨ ∃ i, k = .spin i .call) :
    MutexPc (tryFail l k).pc := by
  rcases h with rfl | ⟨i, rfl⟩
  · trivial
  · simp only [tryFail]
    split
    · exact .inr ⟨i + 1, rfl⟩
    · exact rfl

theorem mutexPc_tryDone {k : TryFrom C} (h : k = .call ∨ ∃ i, k = .spin i .call) :
    MutexPc (tryDone l k).pc := by
  rcases h with rfl | ⟨i, rfl⟩
  · trivial
  · trivial

theorem mutexPc_enter {op : Op C} (hc : op = .trylock ∨ op = .lock ∨ op = .unlock)
    (h : enter l op = some l') : MutexPc l'.pc := by
  rcases hc with rfl | rfl | rfl
  · cases h
    exact .inl rfl
  · cases h
    exact .inr ⟨0, rfl⟩
  · simp only [enter] at h
    split at h <;> cases h
    exact rfl

/-- A thread that calls nothing else stays in these functions. -/
theorem nextPi_mutexPc (hc : MutexCall a) (hpc : MutexPc l.pc)
    (h : nextPi p tid t g l a = some (g', l')) : MutexPc l'.pc := by
  cases a with
  | act a =>
    cases a with
    | call op =>
      obtain ⟨g₀, hr, -⟩ := lift_some h
      obtain ⟨-, -, he⟩ := next_call hr
      exact mutexPc_enter hc he
    | run =>
      simp only [nextPi, runPi] at h
      cases hp : l.pc <;> simp only [hp] at h hpc
      case tryOr | lockXchg | lockWait | unlockWake => cases h
      case tryLoad k =>
        split at h <;> cases h
        · exact mutexPc_tryDone hpc
        · exact mutexPc_tryFail hpc
      case lockSleep k =>
        obtain rfl : k = .call := hpc
        split at h <;> cases h
        trivial
      case unlockXchg k =>
        obtain rfl : k = .call := hpc
        split at h <;> cases h
        · trivial
        · exact rfl
      case idle =>
        obtain ⟨g₀, hr, -⟩ := lift_some h
        simp [run, hp] at hr
      all_goals exact hpc.elim
    | wake w =>
      simp only [nextPi] at h
      split at h
      · cases h
      · obtain ⟨g₀, hr, -⟩ := lift_some h
        simp only [wake] at hr
        split at hr <;> simp_all [MutexPc]
    | spurious =>
      simp only [nextPi] at h
      split at h
      · cases h
      · obtain ⟨g₀, hr, -⟩ := lift_some h
        simp only [spurious] at hr
        split at hr <;> simp_all [MutexPc]
  | lockPi mark =>
    simp only [nextPi, futexLockPi] at h
    split at h
    · rename_i k hk
      rw [hk] at hpc
      obtain rfl : k = .call := hpc
      split at h
      · cases h
        trivial
      · split at h <;> cases h
        exact rfl
    · cases h
  | lockError =>
    simp only [nextPi, futexLockError] at h
    split at h
    · rename_i k hk
      rw [hk] at hpc
      obtain rfl : k = .call := hpc
      cases h
      trivial
    · rename_i k hk
      rw [hk] at hpc
      obtain rfl : k = .call := hpc
      split at h <;> cases h
      trivial
    · cases h
  | unlockPi top mark =>
    simp only [nextPi, futexUnlockPi] at h
    split at h
    · rename_i k hk
      rw [hk] at hpc
      obtain rfl : k = .call := hpc
      split at h
      · split at h <;> cases h
        trivial
      · split at h
        · split at h <;> cases h
          trivial
        · split at h <;> cases h
          trivial
    · cases h

/-- The environment of a PI mutex without a condition variable whose `FUTEX_LOCK_PI2` never
fails. -/
def MutexGranted (s : Config T (PiShared T C) (Local C)) (a : T × PiAct T C) : Prop :=
  MutexCall a.2 ∧ LockGranted s a

theorem mutexPc_reachable (h : (systemBy T C p tid .pi).Reachable MutexGranted s) (t : T) :
    MutexPc (s.thread t).pc := by
  revert t
  apply System.reachable_invariant (I := fun s => ∀ t, MutexPc (s.thread t).pc) ?_ ?_ h
  · intro s hs t
    rw [hs]
    trivial
  · intro s a s' _ hi hok hn u
    obtain ⟨t, a⟩ := a
    obtain ⟨g, l, hnext, rfl⟩ := Threads.step_cases hn
    by_cases hut : u = t
    · subst hut
      simp only [Function.update_self]
      exact nextPi_mutexPc hok.1 (hi u) hnext
    · simp only [Function.update_of_ne hut]
      exact hi u

/-- Without a condition variable nothing but the protocol of the kernel changes the word. -/
theorem piInv_reachable (h : (systemBy T C p tid .pi).Reachable MutexGranted s) : PiInv tid s := by
  apply System.reachable_invariant ?_ ?_ h
  · intro s hs
    exact hs ▸ PiInv.start
  · intro s a s' hr hi hok hn
    obtain ⟨t, a⟩ := a
    obtain ⟨g, l, hnext, rfl⟩ := Threads.step_cases hn
    refine hi.step (fun _ hcond => ?_) hok.2 hnext
    obtain ⟨c, hc⟩ := hcond
    have hpc := mutexPc_reachable hr t
    rw [hc] at hpc
    exact hpc.elim

/-- At most one thread is between an acquisition of the PI mutex and its release, in every run in
which no `FUTEX_LOCK_PI2` fails. -/
theorem pi_mutual_exclusion (h : (systemBy T C p tid .pi).Reachable MutexGranted s) :
    ∀ t u, (s.thread t).holds = true → (s.thread u).holds = true → t = u := by
  intro t u ht hu
  exact (piInv_reachable h).owner_unique (.inl hu) (.inl ht)

/-- Thread 0 takes the mutex, thread 1 spins and calls `FUTEX_LOCK_PI2`. -/
def contendedSchedule {T : Type} (t u : T) : List (T × PiAct T Unit) :=
  [(t, .act (.call .trylock)), (t, .act .run), (u, .act (.call .lock))] ++
    List.replicate mutexSpins (u, .act .run)

/-- The calls of a schedule, as `MutexGranted` allows them. -/
def mutexGranted (s : Config (Fin 2) (PiShared (Fin 2) Unit) (Local Unit))
    (a : Fin 2 × PiAct (Fin 2) Unit) : Bool :=
  granted s a && match a.2 with
    | .act (.call (.condWait _)) | .act (.call (.condSignal _)) | .act (.call (.condBroadcast _)) =>
      false
    | _ => true

theorem mutexGranted_iff {s : Config (Fin 2) (PiShared (Fin 2) Unit) (Local Unit)}
    {a : Fin 2 × PiAct (Fin 2) Unit} (h : mutexGranted s a = true) : MutexGranted s a := by
  rw [mutexGranted, Bool.and_eq_true] at h
  refine ⟨?_, lockGranted_of_granted h.1⟩
  obtain ⟨t, a⟩ := a
  have hcall := h.2
  simp only at hcall
  cases a with
  | act a =>
    cases a with
    | call op => cases op <;> simp_all [MutexCall]
    | _ => trivial
  | _ => trivial

/-- Thread 1 gets the mutex from thread 0. -/
theorem pi_mutual_exclusion_two : ∃ s : Config (Fin 2) (PiShared (Fin 2) Unit) (Local Unit),
    (s.thread 1).holds = true ∧
    ∀ t u, (s.thread t).holds = true → (s.thread u).holds = true → t = u := by
  have hrun : ((systemBy (Fin 2) Unit .any tids23 .pi).exec mutexGranted (startBy _ _)
      (contendedSchedule 0 1 ++ [(1, .lockPi true), (0, .act (.call .unlock)), (0, .act .run),
        (0, .unlockPi (some 1) false), (1, .act .run)])).any
      (fun s => (s.thread 1).holds) = true := by decide +kernel
  obtain ⟨s, hs, hh⟩ := (Option.any_eq_true _ _).mp hrun
  exact ⟨s, hh, pi_mutual_exclusion
    ⟨_, rfl, System.run_of_exec (fun _ _ hc => mutexGranted_iff hc) hs⟩⟩

/-- `FUTEX_LOCK_PI2` of thread 1 fails, and `mutex_lock` returns while thread 0 has the mutex. -/
theorem lock_error_shares : ¬ ∀ s : Config (Fin 2) (PiShared (Fin 2) Unit) (Local Unit),
    (systemBy (Fin 2) Unit .any tids23 .pi).Reachable (fun _ a => MutexCall a.2) s →
    ∀ t u, (s.thread t).holds = true → (s.thread u).holds = true → t = u := by
  intro hclaim
  have hrun : ((systemBy (Fin 2) Unit .any tids23 .pi).exec mutexGranted (startBy _ _)
      (contendedSchedule 0 1)).any (fun s =>
        ((systemBy (Fin 2) Unit .any tids23 .pi).next s (1, .lockError)).any fun s' =>
          (s'.thread 0).holds ∧ (s'.thread 1).holds) = true := by decide +kernel
  obtain ⟨s, hs, hc⟩ := (Option.any_eq_true _ _).mp hrun
  obtain ⟨s', hs', hd⟩ := (Option.any_eq_true _ _).mp hc
  obtain ⟨h0, h1⟩ := of_decide_eq_true hd
  have hr : (systemBy (Fin 2) Unit .any tids23 .pi).Reachable (fun _ a => MutexCall a.2) s :=
    ⟨_, rfl, System.run_of_exec (fun _ _ hc => (mutexGranted_iff hc).1) hs⟩
  have hboth := hclaim s' (System.reachable_step (a := (1, .lockError)) hr trivial hs') 0 1 h0 h1
  exact absurd hboth (by decide)

end LinuxSummer.Futex
