import LinuxSummer.FutexInvariant

/-! Mutual exclusion of the default mutex. -/
namespace LinuxSummer.Futex
variable {T C : Type*} [DecidableEq T] [DecidableEq C] {p : WakePolicy}
  {s : Config T (Shared T C) (Local C)}

/-- `MUTEX_SLEEPING` is never set alone. -/
theorem WordRange.sleeping_locked {w : Word} (hw : WordRange w) (h : w &&& mutexSleeping ≠ 0) :
    w &&& mutexLocked ≠ 0 := by
  rcases hw with rfl | rfl | rfl
  · exact absurd (by decide) h
  · decide
  · decide

/-- At most one thread is between an acquisition of the mutex and its release, the word says so,
and `MUTEX_SLEEPING` is not set without `MUTEX_LOCKED`. -/
theorem mutual_exclusion (h : (system T C p).Reachable System.free s) :
    (∀ t u, (s.thread t).holds = true → (s.thread u).holds = true → t = u) ∧
      (∀ t, (s.thread t).holds = true → s.shared.state &&& mutexLocked ≠ 0) ∧
      (s.shared.state &&& mutexSleeping ≠ 0 → s.shared.state &&& mutexLocked ≠ 0) := by
  have hi := inv_reachable h
  refine ⟨hi.holder_unique, fun t ht hw => ?_, hi.word.sleeping_locked⟩
  exact hi.holder_locked t ht (hi.word.unlocked hw)

/-- Thread 0 takes the mutex with `mutex_trylock` and calls `cond_wait`; thread 1 takes it in
between with `mutex_lock`. -/
def handoverSchedule {T : Type} (t u : T) : List (T × Act T Unit) :=
  [(t, .call .trylock), (t, .run), (t, .run), (t, .call (.condWait ())), (t, .run), (t, .run),
    (u, .call .lock), (u, .run), (u, .run)]

theorem mutual_exclusion_two : ∃ s : Config (Fin 2) (Shared (Fin 2) Unit) (Local Unit),
    (s.thread 1).holds = true ∧
    (∀ t u, (s.thread t).holds = true → (s.thread u).holds = true → t = u) ∧
      (∀ t, (s.thread t).holds = true → s.shared.state &&& mutexLocked ≠ 0) ∧
      (s.shared.state &&& mutexSleeping ≠ 0 → s.shared.state &&& mutexLocked ≠ 0) := by
  have hrun : ((system (Fin 2) Unit .any).exec (fun _ _ => true) (start _ _)
      (handoverSchedule 0 1)).any (fun s => (s.thread 1).holds) = true := by decide +kernel
  obtain ⟨s, hs, hh⟩ := (Option.any_eq_true _ _).mp hrun
  exact ⟨s, hh, mutual_exclusion ⟨_, rfl, System.run_of_exec (fun _ _ _ => trivial) hs⟩⟩

end LinuxSummer.Futex
