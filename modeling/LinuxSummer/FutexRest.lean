import Mathlib.Data.Prod.Lex
import LinuxSummer.FutexStuck
import LinuxSummer.Tally

/-! The calls of hw2/mutex.h and hw2/cond.h come to an end: what a thread still has to do gets less
with each access, and a wake-up pays for what the woken thread does again. -/
namespace LinuxSummer.Futex
set_option linter.unusedSectionVars false
variable {T C : Type*} [DecidableEq T] [DecidableEq C]

/-- What `mutex_lock` takes at most. -/
def lockWork : ℕ := 2 * mutexSpins + 8

/-- The accesses that a thread has still to make, as long as nobody gives the mutex back and nobody
wakes it. -/
@[simp] def work (g : Shared T C) (t : T) : Pc C → ℕ
  | .idle => 0
  | .tryLoad .call => 2
  | .tryOr .call => 1
  | .tryLoad (.spin i _) => 2 * (mutexSpins - i) + 8
  | .tryOr (.spin i _) => 2 * (mutexSpins - i) + 7
  | .lockXchg _ => 6
  | .lockWait _ => if g.state = mutexLocked ||| mutexSleeping then 3 else 7
  | .lockSleep _ => if t ∈ g.queue .mutex then 0 else 7
  | .unlockXchg _ => 0
  | .unlockWake .call => lockWork + 2
  | .unlockWake (.cond _ _) => condSpins + 2 * lockWork + 4
  | .condLoad _ => 1
  | .condSpin _ _ i => condSpins - i + lockWork + 2
  | .condFutex _ _ => lockWork + 1
  | .condSleep c _ => if t ∈ g.queue (.cond c) ∨ t ∈ g.queue .mutex then 0 else lockWork + 1
  | .condOr _ => 1
  | .signalAdd _ => lockWork + 3
  | .signalWake _ => lockWork + 2
  | .broadcastAdd _ => lockWork + 3
  | .broadcastRequeue _ => lockWork + 2

/-- The thread is going to give the mutex back. -/
def releases : Pc C → ℕ
  | .condLoad _ => 1
  | .unlockXchg _ => 1
  | _ => 0

variable {p : WakePolicy} {t v w : T} {g g' : Shared T C} {l l' : Local C} {pc : Pc C}
  {s s' : Config T (Shared T C) (Local C)}

/-- Who stays asleep has not more to do, unless the mutex has been given back. -/
theorem work_le (hstate : g.state = mutexLocked ||| mutexSleeping →
      g'.state = mutexLocked ||| mutexSleeping)
    (hq : ∀ f, v ∈ g.queue f → v ∈ g'.queue f ∨ v ∈ g'.queue .mutex) :
    work g' v pc ≤ work g v pc := by
  cases pc with
  | lockWait k =>
    simp only [work]
    split
    · split <;> omega
    · rename_i hne
      rw [if_neg fun h => hne (hstate h)]
  | lockSleep k =>
    simp only [work]
    split
    · omega
    · rename_i hne
      rw [if_neg fun h => hne ((hq .mutex h).elim id id)]
  | condSleep c seq =>
    simp only [work]
    split
    · omega
    · rename_i hne
      rw [if_neg fun h => hne ?_]
      rcases h with h | h
      · exact hq _ h
      · exact .inr ((hq .mutex h).elim id id)
  | tryLoad k | tryOr k | unlockWake k => cases k <;> exact Nat.le_refl _
  | _ => exact Nat.le_refl _

/-- What a wake-up costs. -/
theorem work_woken (hstate : g'.state = g.state) : work g' v pc ≤ work g v pc + (lockWork + 1) := by
  cases pc with
  | lockWait k =>
    simp only [work, hstate]
    omega
  | lockSleep k =>
    simp only [work, lockWork]
    split <;> omega
  | condSleep c seq =>
    simp only [work]
    split <;> omega
  | tryLoad k | tryOr k | unlockWake k => cases k <;> exact Nat.le_add_right _ _
  | _ => exact Nat.le_add_right _ _

theorem work_lockDone (l : Local C) (k : LockFrom C) : work g t (lockDone l k).pc ≤ 1 := by
  cases k <;> simp [lockDone]

theorem work_tryFail (l : Local C) (k : TryFrom C) :
    work g' t (tryFail l k).pc < work g t (.tryOr k) := by
  cases k with
  | call => simp [tryFail, Local.goto]
  | spin i k =>
    simp only [tryFail]
    split
    · simp only [Local.goto, work]
      omega
    · simp only [Local.goto, work]
      omega

theorem work_tryDone (l : Local C) (k : TryFrom C) :
    work g' t (tryDone l k).pc < work g t (.tryOr k) := by
  cases k with
  | call => simp [tryDone]
  | spin i k =>
    refine Nat.lt_of_le_of_lt (work_lockDone l k) ?_
    simp only [work]
    omega

theorem work_unlockDone (l : Local C) (k : UnlockFrom C) :
    work g' t (unlockDone l k).pc + (lockWork + 1) < work g t (.unlockWake k) := by
  cases k with
  | call => simp [unlockDone, Local.goto]
  | cond c seq =>
    simp only [unlockDone, Local.goto, work]
    omega

/-- An access that does not give the mutex back is progress of its thread. -/
theorem run_work (hpc : ∀ k, l.pc ≠ .unlockXchg k) (h : run t g l = some (g', l')) :
    work g' t l'.pc < work g t l.pc := by
  simp only [run] at h
  cases hl : l.pc <;> simp only [hl] at h
  case idle => cases h
  case tryLoad k =>
    have hor : work g t (.tryOr k) < work g t (.tryLoad k) := by
      cases k <;> simp
    split at h <;> cases h
    · exact (work_tryFail l k).trans hor
    · exact hor
  case tryOr k =>
    split at h <;> cases h
    · exact work_tryFail l k
    · exact work_tryDone l k
  case lockXchg k =>
    split at h <;> cases h
    · simp [Local.goto]
    · exact Nat.lt_of_le_of_lt (work_lockDone _ k) (by simp)
  case lockWait k =>
    split at h <;> rename_i hs <;> cases h
    · simp [Local.goto, Shared.enqueue, hs]
    · simp [Local.goto, hs]
  case lockSleep k =>
    split at h <;> rename_i hs <;> cases h
    simp [hs]
  case unlockXchg k => exact absurd hl (hpc k)
  case unlockWake k =>
    split at h <;> cases h
    exact Nat.lt_of_le_of_lt (Nat.le_add_right _ _) (work_unlockDone l k)
  case condLoad c =>
    cases h
    simp
  case condSpin c seq i =>
    split at h
    · cases h
      simp only [Local.goto, work, lockWork]
      omega
    · split at h <;> cases h
      · simp only [Local.goto, work]
        omega
      · simp only [Local.goto, work]
        omega
  case condFutex c seq =>
    split at h <;> cases h
    · simp [Local.goto, Shared.enqueue]
    · simp [Local.goto, lockWork]
  case condSleep c seq =>
    split at h <;> rename_i hs <;> cases h
    rw [work, work, if_neg hs]
    simp [lockWork]
  case condOr c | signalWake c | broadcastRequeue c =>
    first
      | cases h
      | (split at h <;> cases h)
    simp [Local.goto]
  case signalAdd c | broadcastAdd c =>
    cases h
    simp [Local.goto]

/-- An access that does not give the mutex back leaves the others with what they had to do. -/
theorem run_others (hpc : ∀ k, l.pc ≠ .unlockXchg k) (h : run t g l = some (g', l')) :
    work g' v pc ≤ work g v pc := by
  have keep (hstate : g'.state = g.state) (hq : g'.queue = g.queue) :
      work g' v pc ≤ work g v pc :=
    work_le (fun h => hstate ▸ h) fun f hf => .inl (hq ▸ hf)
  have grow (f₀ : FutexAddr C) (hg : g' = g.enqueue f₀ t) : work g' v pc ≤ work g v pc := by
    subst hg
    refine work_le (fun h => h) fun f hf => .inl ?_
    by_cases hff : f = f₀
    · subst hff
      simp [Shared.enqueue, hf]
    · simpa [Shared.enqueue, hff] using hf
  simp only [run] at h
  cases hl : l.pc <;> simp only [hl] at h
  case idle => cases h
  case tryLoad k => split at h <;> cases h <;> exact keep rfl rfl
  case tryOr k =>
    split at h <;> cases h <;> refine work_le (fun h => ?_) fun f hf => .inl hf
    · simp only [h]
      decide
    · simp only [h]
      decide
  case lockXchg k => split at h <;> cases h <;> exact work_le (fun _ => rfl) fun f hf => .inl hf
  case lockWait k =>
    split at h <;> cases h
    · exact grow .mutex rfl
    · exact keep rfl rfl
  case lockSleep k =>
    split at h <;> cases h
    exact keep rfl rfl
  case unlockXchg k => exact absurd hl (hpc k)
  case unlockWake k =>
    split at h <;> cases h
    exact keep rfl rfl
  case condLoad c =>
    cases h
    exact keep rfl rfl
  case condSpin c seq i =>
    split at h
    · cases h
      exact keep rfl rfl
    · split at h <;> cases h <;> exact keep rfl rfl
  case condFutex c seq =>
    split at h <;> cases h
    · exact grow (.cond c) rfl
    · exact keep rfl rfl
  case condSleep c seq =>
    split at h <;> cases h
    exact keep rfl rfl
  case condOr c =>
    cases h
    refine work_le (fun h => ?_) fun f hf => .inl hf
    simp only [h]
    decide
  case signalAdd c | broadcastAdd c =>
    cases h
    exact keep rfl rfl
  case signalWake c | broadcastRequeue c =>
    split at h <;> cases h
    exact keep rfl rfl

theorem dequeue_others (f₀ : FutexAddr C) (hv : v ≠ w) :
    work (g.dequeue f₀ w) v pc ≤ work g v pc := by
  refine work_le (fun h => h) fun f hf => .inl ?_
  by_cases hff : f = f₀
  · subst hff
    simpa [Shared.dequeue, List.mem_erase_of_ne hv] using hf
  · simpa [Shared.dequeue, hff] using hf

theorem requeue_others (c : C) (hv : v ≠ w) : work (g.requeue c w) v pc ≤ work g v pc := by
  refine work_le (fun h => h) fun f hf => ?_
  by_cases hfc : f = .cond c
  · subst hfc
    exact .inr (by simp [Shared.requeue, List.mem_erase_of_ne hv, hf])
  · refine .inl ?_
    cases f with
    | mutex => simp [Shared.requeue, hf]
    | cond c' => simpa [Shared.requeue, hfc] using hf

/-- The thread that wakes another one has paid for it. -/
theorem wake_work (h : wake p w g l = some (g', l')) :
    work g' t l'.pc + (lockWork + 1) < work g t l.pc ∧ g'.state = g.state ∧
      ∀ v pc, v ≠ w → work g' v pc ≤ work g v pc := by
  simp only [wake] at h
  cases hl : l.pc <;> simp only [hl] at h
  case unlockWake k =>
    split at h <;> cases h
    exact ⟨work_unlockDone l k, rfl, fun v pc hv => dequeue_others .mutex hv⟩
  case signalWake c =>
    split at h <;> cases h
    exact ⟨by simp [Local.goto], rfl, fun v pc hv => dequeue_others (.cond c) hv⟩
  case broadcastRequeue c =>
    split at h <;> cases h
    exact ⟨by simp [Local.goto], rfl, fun v pc hv => requeue_others c hv⟩
  all_goals cases h

theorem releases_tryFail (l : Local C) (k : TryFrom C) : releases (tryFail l k).pc = 0 := by
  cases k with
  | call => rfl
  | spin i k =>
    simp only [tryFail]
    split <;> rfl

theorem releases_lockDone (l : Local C) (k : LockFrom C) : releases (lockDone l k).pc = 0 := by
  cases k <;> rfl

theorem releases_tryDone (l : Local C) (k : TryFrom C) : releases (tryDone l k).pc = 0 := by
  cases k with
  | call => rfl
  | spin i k => exact releases_lockDone l k

theorem releases_unlockDone (l : Local C) (k : UnlockFrom C) :
    releases (unlockDone l k).pc = 0 := by
  cases k <;> rfl

/-- Within the calls only `cond_wait` comes to a place where it will give the mutex back. -/
theorem run_releases (h : run t g l = some (g', l')) :
    releases l'.pc = 0 ∨ releases l'.pc = 1 ∧ ∃ c, l.pc = .condLoad c := by
  simp only [run] at h
  cases hl : l.pc <;> simp only [hl] at h
  case idle => cases h
  case condLoad c =>
    cases h
    exact .inr ⟨rfl, c, rfl⟩
  all_goals left
  case tryLoad k =>
    split at h <;> cases h
    · exact releases_tryFail l k
    · rfl
  case tryOr k =>
    split at h <;> cases h
    · exact releases_tryFail l k
    · exact releases_tryDone l k
  case lockXchg k =>
    split at h <;> cases h
    · rfl
    · exact releases_lockDone _ k
  case unlockXchg k =>
    split at h <;> cases h
    · rfl
    · exact releases_unlockDone _ k
  case unlockWake k =>
    split at h <;> cases h
    exact releases_unlockDone l k
  case condSpin c seq i =>
    split at h
    · cases h
      rfl
    · split at h <;> cases h <;> rfl
  case lockWait k | condFutex c seq => split at h <;> cases h <;> rfl
  case lockSleep k | condSleep c seq | signalWake c | broadcastRequeue c =>
    split at h <;> cases h
    rfl
  case condOr c | signalAdd c | broadcastAdd c =>
    cases h
    rfl

theorem wake_releases (h : wake p w g l = some (g', l')) : releases l'.pc = 0 := by
  simp only [wake] at h
  cases hl : l.pc <;> simp only [hl] at h
  case unlockWake k =>
    split at h <;> cases h
    exact releases_unlockDone l k
  case signalWake c | broadcastRequeue c =>
    split at h <;> cases h
    rfl
  all_goals cases h

/-! ### Runs -/

/-- A step within a call, without a sleeper that wakes up by itself. -/
def Onward (p : WakePolicy) (s s' : Config T (Shared T C) (Local C)) : Prop :=
  ∃ t a, (a = .run ∨ ∃ w, a = .wake w) ∧ (system T C p).next s (t, a) = some s'

/-- No call goes on: those in progress sleep, and the mutex that some of them sleep on is held. -/
structure AtRest (s : Config T (Shared T C) (Local C)) : Prop where
  calls : ∀ t, (s.thread t).pc = .idle ∨
    (∃ k, (s.thread t).pc = .lockSleep k ∧ t ∈ s.shared.queue .mutex) ∨
    ∃ c seq, (s.thread t).pc = .condSleep c seq ∧
      (t ∈ s.shared.queue (.cond c) ∨ t ∈ s.shared.queue .mutex)
  held : s.shared.queue .mutex ≠ [] → ∃ t, (s.thread t).holds = true

section Runs
variable [Fintype T]

/-- How often the mutex is still given back, and how many accesses come before that. -/
def toDo (s : Config T (Shared T C) (Local C)) : ℕ ×ₗ ℕ :=
  toLex (∑ t, releases (s.thread t).pc, ∑ t, work s.shared t (s.thread t).pc)

theorem sum_releases_le (h : releases l'.pc ≤ releases (s.thread t).pc) :
    ∑ u, releases (Function.update s.thread t l' u).pc ≤ ∑ u, releases (s.thread u).pc := by
  refine Finset.sum_le_sum fun u _ => ?_
  by_cases hu : u = t
  · subst hu
    simpa using h
  · simp [hu]

theorem toDo_lt (h : releases l'.pc ≤ releases (s.thread t).pc) {e : ℕ}
    (ht : work g' t l'.pc + e < work s.shared t (s.thread t).pc)
    (hother : ∀ v, v ≠ t → work g' v (s.thread v).pc ≤
      work s.shared v (s.thread v).pc + if v = w then e else 0) :
    toDo ⟨g', Function.update s.thread t l'⟩ < toDo s := by
  simp only [toDo, Prod.Lex.toLex_lt_toLex]
  rcases Nat.lt_or_eq_of_le (sum_releases_le h) with hlt | heq
  · exact .inl hlt
  · refine .inr ⟨heq, sum_lt_of_paid (t := t) (u := w) (e := e) (by simpa using ht) fun v hv => ?_⟩
    simpa [hv] using hother v hv

theorem onward_lt (h : Onward p s s') : toDo s' < toDo s := by
  obtain ⟨t, a, ha, hn⟩ := h
  obtain ⟨g, l, hnext, rfl⟩ := step_cases hn
  rcases ha with rfl | ⟨w, rfl⟩
  · have hrun : run t s.shared (s.thread t) = some (g, l) := hnext
    by_cases hpc : ∃ k, (s.thread t).pc = .unlockXchg k
    · -- the mutex is given back: who waits for it may go round once more
      obtain ⟨k, hk⟩ := hpc
      have hzero : releases l.pc = 0 := by
        rcases run_releases hrun with h | ⟨-, c, hc⟩
        · exact h
        · rw [hk] at hc
          cases hc
      simp only [toDo, Prod.Lex.toLex_lt_toLex]
      refine .inl (Finset.sum_lt_sum (fun u _ => ?_) ⟨t, Finset.mem_univ t, ?_⟩)
      · by_cases hu : u = t
        · subst hu
          simp [hzero]
        · simp [hu]
      · rw [Function.update_self, hzero, hk]
        exact Nat.one_pos
    · have hne : ∀ k, (s.thread t).pc ≠ .unlockXchg k := fun k hk => hpc ⟨k, hk⟩
      refine toDo_lt (w := t) (e := 0) ?_ (by simpa using run_work hne hrun) fun v _ => ?_
      · rcases run_releases hrun with h | ⟨h, c, hc⟩
        · omega
        · rw [h, hc]
          exact Nat.le_refl 1
      · exact (run_others hne hrun).trans (Nat.le_add_right _ _)
  · have hwake : wake p w s.shared (s.thread t) = some (g, l) := hnext
    obtain ⟨hwork, hstate, hothers⟩ := wake_work hwake
    refine toDo_lt (w := w) (e := lockWork + 1) (by rw [wake_releases hwake]; omega) hwork
      fun v _ => ?_
    by_cases hvw : v = w
    · rw [if_pos hvw]
      exact work_woken hstate
    · rw [if_neg hvw]
      exact hothers v _ hvw

theorem atRest_of_stuck (hr : (system T C p).Reachable System.free s)
    (hstuck : ∀ s', ¬ Onward p s s') : AtRest s := by
  have hcalls (t : T) : (s.thread t).pc = .idle ∨
      (∃ k, (s.thread t).pc = .lockSleep k ∧ t ∈ s.shared.queue .mutex) ∨
      ∃ c seq, (s.thread t).pc = .condSleep c seq ∧
        (t ∈ s.shared.queue (.cond c) ∨ t ∈ s.shared.queue .mutex) := by
    by_cases hpc : (s.thread t).pc = .idle
    · exact .inl hpc
    · rcases next_enabled (p := p) (t := t) (g := s.shared) hpc with ⟨a, ha, hne⟩ | h
      · obtain ⟨r, hr⟩ := Option.ne_none_iff_exists'.mp hne
        refine absurd ⟨t, a, ha, ?_⟩ (hstuck ⟨r.1, Function.update s.thread t r.2⟩)
        simp [system, threads, Threads.system, hr]
      · exact .inr h
  refine ⟨hcalls, held_of_asleep hr fun u hu => ?_⟩
  rcases hcalls u with h | ⟨k, -, h⟩ | ⟨c, seq, -, h | h⟩
  · exact absurd h hu
  · exact ⟨_, h⟩
  · exact ⟨_, h⟩
  · exact ⟨_, h⟩

/-- The calls come to an end: no run goes on for ever in which no call begins and no thread wakes up
by itself, whoever the kernel wakes, and where it ends each call in progress sleeps. -/
theorem calls_come_to_rest (hr : (system T C p).Reachable System.free s) :
    (∀ f : ℕ → Config T (Shared T C) (Local C), f 0 = s → ¬ ∀ n, Onward p (f n) (f (n + 1))) ∧
      ((∀ s', ¬ Onward p s s') → AtRest s) := by
  refine ⟨fun f _ hsteps => ?_, atRest_of_stuck hr⟩
  obtain ⟨n, hn⟩ := WellFounded.not_rel_apply_succ (r := (· < ·)) fun n => toDo (f n)
  exact hn (onward_lt (hsteps n))

end Runs

theorem calls_come_to_rest_two : ∃ s : Config (Fin 2) (Shared (Fin 2) Unit) (Local Unit),
    (1 ∈ s.shared.queue (.cond ()) ∧ (s.thread 0).pc = .signalAdd ()) ∧
      (∀ f : ℕ → Config (Fin 2) (Shared (Fin 2) Unit) (Local Unit), f 0 = s →
        ¬ ∀ n, Onward .any (f n) (f (n + 1))) ∧ ((∀ s', ¬ Onward .any s s') → AtRest s) := by
  have hrun : ((system (Fin 2) Unit .any).exec (fun _ _ => true) (start _ _)
      (signalSchedule 0 1)).any (fun s => decide (1 ∈ s.shared.queue (.cond ())) &&
        decide ((s.thread 0).pc = .signalAdd ())) = true := by
    decide +kernel
  obtain ⟨s, hs, hend⟩ := (Option.any_eq_true _ _).mp hrun
  simp only [Bool.and_eq_true, decide_eq_true_eq] at hend
  exact ⟨s, hend, calls_come_to_rest ⟨_, rfl, System.run_of_exec (fun _ _ _ => trivial) hs⟩⟩

end LinuxSummer.Futex
