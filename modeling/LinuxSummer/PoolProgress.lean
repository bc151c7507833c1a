import LinuxSummer.PoolRun

/-! The pool is never stuck: no wake-up is lost, the mutexes are taken in order, and the thread that
the others wait for can always go on. -/
namespace LinuxSummer.Pool
open Monitor Qsort
set_option linter.unusedSectionVars false

/-- The thread need not wait any more. -/
def awaited {B : Type} (t : Thread) (_ : Loc) (m : Mutex) (d : Data B) : Prop :=
  ∃ i, t = .worker i ∧ m = .st i ∧ (d.pool i).st ≠ .idle

/-- On the way to signal the condition variable of `m`. -/
def owes : Thread → Loc → Mutex → Prop
  | .main, .main ⟨.hand p, _, _, _⟩, m => (p = .count ∨ p = .signal) ∧ m = .st 0
  | .main, .main ⟨.bail p, _, i, _⟩, m => p = .signal ∧ m = .st i
  | .worker _, .worker (.alloc p i _ _ _), m => (p.Fills ∨ p = .signal) ∧ m = .st i
  | .worker _, .worker (.term p i), m => p = .signal ∧ m = .st i
  | _, _, _ => False

section Wakeups
variable {B : Type} {x : Args B} {m₀ : ℤ → B} {first : Option Resource} {t : Thread} {l k : Loc}
  {m : Mutex} {d d' : Data B} {b : Bool} {i : ℕ}
  {s : Config Thread (Shared Thread Mutex (Data B)) (Status Mutex Loc)}

theorem owes_pays (ho : owes t l m) (he : Edge b (instr x t l) d d' k) :
    owes t k m ∨ instr x t l = .signal m k := by
  cases t with
  | main =>
    cases l with
    | worker pc => exact ho.elim
    | main l =>
      obtain ⟨pc, islot, i, bailout⟩ := l
      cases pc with
      | hand p =>
        obtain ⟨rfl | rfl, rfl⟩ := ho
        · obtain ⟨-, rfl⟩ := edge_statement he
          exact .inl ⟨.inr rfl, rfl⟩
        · obtain ⟨-, rfl⟩ := he
          exact .inr rfl
      | bail p =>
        obtain ⟨rfl, rfl⟩ := ho
        obtain ⟨-, rfl⟩ := he
        exact .inr rfl
      | _ => exact ho.elim
  | worker u =>
    cases l with
    | main l => exact ho.elim
    | worker pc =>
      cases pc with
      | alloc p i a n c =>
        obtain ⟨hp, rfl⟩ := ho
        cases p with
        | unlockAl =>
          obtain ⟨-, rfl⟩ := he
          exact .inl ⟨.inl trivial, rfl⟩
        | setA =>
          obtain ⟨-, rfl⟩ := edge_statement he
          exact .inl ⟨.inl trivial, rfl⟩
        | setN =>
          obtain ⟨-, rfl⟩ := edge_statement he
          exact .inl ⟨.inr rfl, rfl⟩
        | signal =>
          obtain ⟨-, rfl⟩ := he
          exact .inr rfl
        | _ => simp [AllocPc.Fills] at hp
      | term p i =>
        obtain ⟨rfl, rfl⟩ := ho
        obtain ⟨-, rfl⟩ := he
        exact .inr rfl
      | _ => exact ho.elim

/-- A change of one entry. -/
theorem setSt_cases {st : ThreadState} {j : ℕ}
    (h : st = .idle ∨ (holds t l (.st j) ∧ owes t k (.st j))) (i : ℕ) : ((d.setSt j st).pool i).st = (d.pool i).st ∨ ((d.setSt j st).pool i).st = .idle ∨
      (holds t l (.st i) ∧ owes t k (.st i)) := by
  by_cases hi : i = j
  · subst hi
    rw [setSt_self]
    exact .inr h
  · exact .inl (by rw [setSt_of_ne _ hi])

theorem setA_st (j : ℕ) (a : ℤ) (i : ℕ) : ((d.setA j a).pool i).st = (d.pool i).st := by
  by_cases hi : i = j
  · rw [hi, setA_self]
  · rw [setA_of_ne hi]

theorem setN_st (j : ℕ) (n : ℤ) (i : ℕ) : ((d.setN j n).pool i).st = (d.pool i).st := by
  by_cases hi : i = j
  · rw [hi, setN_self]
  · rw [setN_of_ne hi]

/-- Who changes the state of a thread, except to `ts_idle`, has its mutex and owes it a wake-up. -/
theorem edge_st (he : Edge b (instr x t l) d d' k) (i : ℕ) :
    (d'.pool i).st = (d.pool i).st ∨ (d'.pool i).st = .idle ∨
      (holds t l (.st i) ∧ owes t k (.st i)) := by
  have same (hd : d'.pool = d.pool) : (d'.pool i).st = (d.pool i).st ∨ (d'.pool i).st = .idle ∨
      (holds t l (.st i) ∧ owes t k (.st i)) := .inl (by rw [hd])
  cases t with
  | main =>
    cases l with
    | worker pc => exact he.elim
    | main l =>
      obtain ⟨pc, islot, j, bailout⟩ := l
      cases pc with
      | hand p =>
        cases p with
        | lock | signal | unlock => exact same (congrArg Data.pool he.1)
        | count => exact same ((congrArg Data.pool (edge_statement he).1).trans rfl)
        | setA =>
          obtain ⟨rfl, -⟩ := edge_statement he
          exact .inl (setA_st 0 _ i)
        | setN =>
          obtain ⟨rfl, -⟩ := edge_statement he
          exact .inl (setN_st 0 _ i)
        | setSt =>
          obtain ⟨rfl, rfl⟩ := edge_statement he
          refine setSt_cases (.inr ?_) i
          exact ⟨⟨by simp, rfl⟩, .inl rfl, rfl⟩
      | bail p =>
        cases p with
        | lock | signal | unlock => exact same (congrArg Data.pool he.1)
        | set =>
          obtain ⟨rfl, rfl⟩ := edge_statement he
          refine setSt_cases (.inr ?_) i
          exact ⟨⟨by simp, rfl⟩, rfl, rfl⟩
      | setIdle =>
        obtain ⟨rfl, rfl⟩ := edge_statement he
        exact setSt_cases (.inl rfl) i
      | calloc =>
        cases b <;> cases he
        · exact .inl rfl
        · exact .inr (.inl rfl)
      | initAl | initMutex | initCond | create =>
        cases b <;> cases he <;> exact .inl rfl
      | join =>
        simp only [instr, qsortMt, Edge] at he
        split at he <;> cases he
        exact .inl rfl
      | done => exact he.elim
      | _ => exact same ((congrArg Data.pool (edge_statement he).1).trans rfl)
  | worker u =>
    cases l with
    | main l => exact he.elim
    | worker pc =>
      cases pc with
      | start =>
        simp only [instr, qsortThread, Edge] at he
        split at he <;> cases he
        exact .inl rfl
      | wait p =>
        cases p with
        | test => exact same ((congrArg Data.pool (edge_statement he).1).trans rfl)
        | _ => exact same (congrArg Data.pool he.1)
      | sort c =>
        rcases c with _ | ⟨o, c⟩ | _
        · exact same (congrArg Data.pool he.1)
        · cases o with
          | allocate a n => exact same (congrArg Data.pool he.1)
          | _ => exact same ((congrArg Data.pool (edge_statement he).1).trans rfl)
        · cases he
      | alloc p j a n c =>
        cases p with
        | loop | test | decr => exact same ((congrArg Data.pool (edge_statement he).1).trans rfl)
        | setWork =>
          obtain ⟨rfl, rfl⟩ := edge_statement he
          refine setSt_cases (.inr ?_) i
          exact ⟨.inr rfl, .inl trivial, rfl⟩
        | setA =>
          obtain ⟨rfl, -⟩ := edge_statement he
          exact .inl (setA_st j a i)
        | setN =>
          obtain ⟨rfl, -⟩ := edge_statement he
          exact .inl (setN_st j n i)
        | lockSt | unlockAl | signal | unlockSt | fail => exact same (congrArg Data.pool he.1)
      | finish p =>
        cases p with
        | setIdle =>
          obtain ⟨rfl, rfl⟩ := edge_statement he
          exact setSt_cases (.inl rfl) i
        | unlock => exact same (congrArg Data.pool he.1)
        | _ => exact same ((congrArg Data.pool (edge_statement he).1).trans rfl)
      | term p j =>
        cases p with
        | set =>
          obtain ⟨rfl, rfl⟩ := edge_statement he
          refine setSt_cases (.inr ?_) i
          exact ⟨.inr ⟨by simp, rfl⟩, rfl, rfl⟩
        | _ => exact same (congrArg Data.pool he.1)
      | lastUnlock => exact same (congrArg Data.pool he.1)
      | done | aborted => exact he.elim
      | check | assert | load | last | leave =>
        exact same ((congrArg Data.pool (edge_statement he).1).trans rfl)

/-- A change of the state of a thread is followed by its wake-up. -/
theorem wakeups : Wakeups (pool x) awaited owes where
  awake ho m' k' hw := by
    obtain ⟨u, rfl, rfl, -⟩ := wait_instr hw
    exact ho
  pays ho he := (owes_pays ho he).imp_right .inl
  raises he u j m haw := by
    obtain ⟨i, rfl, rfl, hst⟩ := haw
    rcases edge_st he i with hs | hs | ⟨-, ho⟩
    · exact .inl ⟨i, rfl, rfl, hs ▸ hst⟩
    · exact absurd hs hst
    · exact .inr ho

/-- A thread goes to wait when it finds itself idle. -/
theorem to_cond {pc : WorkerPc} (he : Edge b (qsortThread x i pc) d d' (.worker (.wait .cond))) :
    d' = d ∧ (d.pool i).st = .idle := by
  cases pc with
  | start =>
    simp only [qsortThread, Edge] at he
    split at he <;> cases he
  | wait p =>
    cases p with
    | test =>
      obtain ⟨hd, hk⟩ := edge_statement he
      refine ⟨hd, ?_⟩
      by_contra hne
      simp only [hne, if_false] at hk
      cases hk
    | _ => cases he.2
  | sort c =>
    rcases c with _ | ⟨o, c⟩ | _
    · cases he.2
    · cases o with
      | allocate a n => cases he.2
      | _ => cases (edge_statement he).2
    · cases he
  | alloc p j a n c =>
    cases p with
    | test =>
      have hk := (edge_statement he).2
      simp only at hk
      split at hk <;> cases hk
    | loop | decr | setWork | setA | setN => cases (edge_statement he).2
    | lockSt | unlockAl | signal | unlockSt | fail => cases he.2
  | finish p =>
    cases p with
    | unlock => cases he.2
    | test =>
      have hk := (edge_statement he).2
      simp only at hk
      split at hk <;> cases hk
    | _ => cases (edge_statement he).2
  | term p j =>
    cases p with
    | set => cases (edge_statement he).2
    | _ => cases he.2
  | lastUnlock => cases he.2
  | done | aborted => exact he.elim
  | last j =>
    have hk := (edge_statement he).2
    simp only at hk
    split at hk
    · split at hk <;> cases hk
    · cases hk
  | check | assert =>
    have hk := (edge_statement he).2
    simp only at hk
    split at hk <;> cases hk
  | load | leave => cases (edge_statement he).2

/-- A thread is about to wait only while it is idle: it has its mutex. -/
theorem idle_at_cond (h : (system x m₀).Reachable (failsAt first) s)
    (hi : s.thread (.worker i) = .run (.worker (.wait .cond))) :
    (s.shared.data.pool i).st = .idle := by
  have hguard := guarded_invariant (P := pool x)
    (Q := fun t l d => ∀ i, t = .worker i → l = .worker (.wait .cond) → (d.pool i).st = .idle)
    ?_ ?_ ?_ ?_ h (.worker i) _ hi i rfl rfl
  · exact hguard
  · intro t j ht hl
    subst ht
    cases hl
  · intro t l b d d' k _ he j ht hk
    subst ht hk
    cases l with
    | main l => exact he.elim
    | worker pc =>
      obtain ⟨rfl, hidle⟩ := to_cond he
      exact hidle
  · intro t l m k hi d j ht hk
    obtain ⟨-, -, -, -, hk'⟩ := wait_instr hi
    rw [hk] at hk'
    cases hk'
  · intro t u l l' b d d' k _ hdisj hq he j ht hl
    rcases edge_st he j with hs | hs | ⟨hu, -⟩
    · exact hs.trans (hq j ht hl)
    · exact hs
    · subst ht hl
      exact absurd hu (hdisj _ ⟨by simp, rfl⟩)

/-- Two threads do not wait for one condition variable. -/
theorem waits_alone (h : (system x m₀).Reachable (failsAt first) s) {t u : Thread}
    (ht : t ∈ s.shared.waiters m) (hu : u ∈ s.shared.waiters m) : t = u := by
  have hs := sound_reachable h
  obtain ⟨k, hk⟩ := hs.asleep t m ht
  obtain ⟨k', hk'⟩ := hs.asleep u m hu
  obtain ⟨i, rfl, rfl, -⟩ := resumes_reachable h _ _ _ (.inl hk)
  obtain ⟨j, rfl, hm, -⟩ := resumes_reachable h _ _ _ (.inl hk')
  cases hm
  rfl

/-- No wake-up is lost. -/
theorem owed_reachable (h : (system x m₀).Reachable (failsAt first) s)
    (hi : s.thread (.worker i) = .asleep m k) (hmem : .worker i ∈ s.shared.waiters m)
    (hst : (s.shared.data.pool i).st ≠ .idle) :
    ∃ u l, s.thread u = .run l ∧ owes u l (.st i) := by
  obtain ⟨j, hj, rfl, rfl⟩ := resumes_reachable h _ _ _ (.inl hi)
  cases hj
  refine wakeup_owed wakeups (fun s t l m k hr hl hw haw => ?_)
    (fun s t u m hr ht hu _ => waits_alone hr ht hu) h _ _ _ hi hmem ⟨i, rfl, rfl, hst⟩
  obtain ⟨u, rfl, rfl, rfl, rfl⟩ := wait_instr hw
  obtain ⟨v, hv, -, hne⟩ := haw
  cases hv
  exact hne (idle_at_cond hr hl)

/-- `mtx_al` is taken before the mutexes of the threads. -/
def rank : Mutex → ℕ
  | .al => 0
  | .st _ => 1

theorem ranked : Ranked (pool x) rank where
  lock {t l m k} hi m' hm := by
    cases t with
    | main =>
      cases l with
      | worker pc => cases hi
      | main l =>
        obtain ⟨pc, islot, i, bailout⟩ := l
        cases pc with
        | hand p =>
          cases p with
          | lock => exact absurd rfl hm.1
          | _ => cases hi
        | bail p =>
          cases p with
          | lock => exact absurd rfl hm.1
          | _ => cases hi
        | _ => cases hi
    | worker u =>
      cases l with
      | main l => cases hi
      | worker pc =>
        cases pc with
        | wait p =>
          cases p with
          | lock => exact absurd rfl hm.1
          | _ => cases hi
        | sort c => exact hm.elim
        | alloc p =>
          cases p with
          | lockSt =>
            cases hi
            obtain rfl : m' = .al := hm
            exact Nat.zero_lt_one
          | _ => cases hi
        | finish p => cases p <;> cases hi
        | term p =>
          cases p with
          | lock =>
            cases hi
            obtain rfl : m' = .al := hm.resolve_right fun h => h.1 rfl
            exact Nat.zero_lt_one
          | _ => cases hi
        | _ => cases hi
  wait {t l m k} hi m' hm := by
    obtain ⟨u, rfl, rfl, rfl, -⟩ := wait_instr hi
    exact hm.2
  access {t l f d} hi hf m hm := by
    have never (g : Data B → Data B × Loc) (hg : statement g = .access f) : False := by
      cases hg
      cases hf
    cases t with
    | main =>
      cases l with
      | worker pc => cases hi
      | main l =>
        obtain ⟨pc, islot, i, bailout⟩ := l
        cases pc with
        | hand p =>
          cases p with
          | lock | signal | unlock => cases hi
          | _ => exact never _ hi
        | bail p =>
          cases p with
          | lock | signal | unlock => cases hi
          | _ => exact never _ hi
        | _ => exact hm.elim
    | worker u =>
      cases l with
      | main l => cases hi
      | worker pc =>
        cases pc with
        | wait p =>
          cases p with
          | test => exact never _ hi
          | _ => cases hi
        | alloc p =>
          cases p with
          | lockSt | unlockAl | signal | unlockSt | fail => cases hi
          | _ => exact never _ hi
        | finish p =>
          cases p with
          | unlock => cases hi
          | _ => exact never _ hi
        | last i => exact never _ hi
        | term p =>
          cases p with
          | set => exact never _ hi
          | _ => cases hi
        | lastUnlock => cases hi
        | _ => exact hm.elim

end Wakeups

/-! ### Deadlock -/

section Deadlock
variable {B : Type} {x : Args B} {m₀ : ℤ → B} {first : Option Resource} {t : Thread} {l : MainLoc}
  {w : ℕ → WorkerPc} {pc : WorkerPc} {k : Loc} {m : Mutex} {d : Data B} {i : ℕ}
  {s : Config Thread (Shared Thread Mutex (Data B)) (Status Mutex Loc)}

/-- Where a thread ends, or waits for the data. -/
def Halts (x : Args B) (t : Thread) (k : Loc) (d : Data B) : Prop :=
  instr x t k = .exit ∨ ∃ f, instr x t k = .access f ∧ f d = none

theorem statement_goes {f : Data B → Data B × Loc} (hi : instr x t k = statement f) :
    ¬ Halts x t k d := by
  rintro (he | ⟨g, hg, hnone⟩)
  · rw [hi] at he
    cases he
  · rw [hi] at hg
    cases hg
    cases hnone

/-- Who owes a wake-up can go on. -/
theorem owes_goes (ho : owes t k m) : ¬ Halts x t k d := by
  cases t with
  | main =>
    cases k with
    | worker pc => exact ho.elim
    | main l =>
      obtain ⟨pc, islot, i, bailout⟩ := l
      cases pc with
      | hand p =>
        obtain ⟨rfl | rfl, -⟩ := ho
        · exact statement_goes rfl
        · rintro (he | ⟨g, hg, -⟩)
          · cases he
          · cases hg
      | bail p =>
        obtain ⟨rfl, -⟩ := ho
        rintro (he | ⟨g, hg, -⟩)
        · cases he
        · cases hg
      | _ => exact ho.elim
  | worker u =>
    cases k with
    | main l => exact ho.elim
    | worker pc =>
      cases pc with
      | alloc p i a n c =>
        obtain ⟨hp, -⟩ := ho
        cases p with
        | unlockAl | signal =>
          rintro (he | ⟨g, hg, -⟩)
          · cases he
          · cases hg
        | setA | setN => exact statement_goes rfl
        | _ => simp [AllocPc.Fills] at hp
      | term p i =>
        obtain ⟨rfl, -⟩ := ho
        rintro (he | ⟨g, hg, -⟩)
        · cases he
        · cases hg
      | _ => exact ho.elim

theorem main_halts (hh : Halts x .main (.main l) d) :
    l.pc = .done ∨ l.pc = .join ∧ d.exited l.i = false := by
  obtain ⟨pc, islot, i, bailout⟩ := l
  cases pc with
  | done => exact .inl rfl
  | join =>
    refine .inr ⟨rfl, ?_⟩
    obtain he | ⟨f, hf, hnone⟩ := hh
    · cases he
    · cases hf
      simp only at hnone
      split at hnone
      · cases hnone
      · rename_i hexited
        simpa using hexited
  | hand p =>
    cases p with
    | lock | signal | unlock =>
      obtain he | ⟨f, hf, -⟩ := hh
      · cases he
      · cases hf
    | _ => exact absurd hh (statement_goes rfl)
  | bail p =>
    cases p with
    | lock | signal | unlock =>
      obtain he | ⟨f, hf, -⟩ := hh
      · cases he
      · cases hf
    | _ => exact absurd hh (statement_goes rfl)
  | initAl | calloc | initMutex | initCond | create =>
    obtain he | ⟨f, hf, -⟩ := hh
    · cases he
    · cases hf
  | _ => exact absurd hh (statement_goes rfl)

theorem worker_halts (hh : Halts x (.worker i) (.worker pc) d) :
    pc = .done ∨ pc = .aborted ∨ pc = .sort .stuck ∨ pc = .start ∧ d.acquired (.thread i) = 0 := by
  have call (he : instr x (.worker i) (.worker pc) ≠ .exit)
      (hf : ∀ f, instr x (.worker i) (.worker pc) ≠ .access f) : False := by
    obtain h | ⟨f, h, -⟩ := hh
    · exact he h
    · exact hf f h
  cases pc with
  | done => exact .inl rfl
  | aborted => exact .inr (.inl rfl)
  | start =>
    refine .inr (.inr (.inr ⟨rfl, ?_⟩))
    obtain he | ⟨f, hf, hnone⟩ := hh
    · cases he
    · cases hf
      simp only at hnone
      split at hnone
      · assumption
      · cases hnone
  | wait p =>
    cases p with
    | test => exact absurd hh (statement_goes rfl)
    | _ => exact (call (by simp [instr, qsortThread, waitForWork])
        (by simp [instr, qsortThread, waitForWork])).elim
  | sort c =>
    rcases c with _ | ⟨o, c⟩ | _
    · exact (call (by simp [instr, qsortThread, sortStep]) (by simp [instr, qsortThread, sortStep])).elim
    · cases o with
      | allocate a n =>
        exact (call (by simp [instr, qsortThread, sortStep])
          (by simp [instr, qsortThread, sortStep])).elim
      | _ => exact absurd hh (statement_goes rfl)
    · exact .inr (.inr (.inl rfl))
  | alloc p =>
    cases p with
    | lockSt | unlockAl | signal | unlockSt | fail =>
      exact (call (by simp [instr, qsortThread, allocate]) (by simp [instr, qsortThread, allocate])).elim
    | _ => exact absurd hh (statement_goes rfl)
  | finish p =>
    cases p with
    | unlock =>
      exact (call (by simp [instr, qsortThread, finish]) (by simp [instr, qsortThread, finish])).elim
    | _ => exact absurd hh (statement_goes rfl)
  | term p =>
    cases p with
    | set => exact absurd hh (statement_goes rfl)
    | _ =>
      exact (call (by simp [instr, qsortThread, setTerm]) (by simp [instr, qsortThread, setTerm])).elim
  | lastUnlock =>
    exact (call (by simp [instr, qsortThread]) (by simp [instr, qsortThread])).elim
  | check | assert | load | last | leave => exact absurd hh (statement_goes rfl)

variable (h : (system x m₀).Reachable (failsAt first) s) (hstuck : ∀ t, (pool x).Blocked s t)
include h hstuck

/-- When no thread can go on, each one halts where it is or is asleep. -/
theorem halts_or_asleep (t : Thread) : (∃ k, s.thread t = .run k ∧ Halts x t k s.shared.data) ∨
    ∃ m k, s.thread t = .asleep m k ∧ t ∈ s.shared.waiters m := by
  have hrank (m : Mutex) : rank m ≤ 1 := by
    cases m <;> simp [rank]
  rcases asleep_of_blocked ranked 1 hrank h hstuck t with ⟨k, hk, hi⟩ | hasleep | ⟨k, f, hk, hi, hf⟩
  · exact .inl ⟨k, hk, .inl hi⟩
  · exact .inr hasleep
  · exact .inl ⟨k, hk, .inr ⟨f, hi, hf⟩⟩

/-- Where a thread is when none can go on. -/
theorem stuck_worker (hlocs : Program.locs s = places l w) (i : ℕ) :
    w i = .done ∨ w i = .aborted ∨ w i = .sort .stuck ∨
      (w i = .start ∧ s.shared.data.acquired (.thread i) = 0) ∨
      (w i = .wait .test ∧ (s.shared.data.pool i).st = .idle) := by
  have hloc : (s.thread (.worker i)).loc = .worker (w i) := congrFun hlocs (.worker i)
  rcases halts_or_asleep h hstuck (.worker i) with ⟨k, hk, hh⟩ | ⟨m, k, hk, hmem⟩
  · rw [hk] at hloc
    obtain rfl : k = .worker (w i) := hloc
    rcases worker_halts hh with hd | hd | hd | hd
    · exact .inl hd
    · exact .inr (.inl hd)
    · exact .inr (.inr (.inl hd))
    · exact .inr (.inr (.inr (.inl hd)))
  · -- nobody is left to wake it
    obtain ⟨u, hu, rfl, rfl⟩ := resumes_reachable h _ _ _ (.inl hk)
    cases hu
    rw [hk] at hloc
    refine .inr (.inr (.inr (.inr ⟨(Loc.worker.inj hloc).symm, ?_⟩)))
    by_contra hst
    obtain ⟨u, k, hu, ho⟩ := owed_reachable h hk hmem hst
    rcases halts_or_asleep h hstuck u with ⟨k', hk', hh⟩ | ⟨m, k', hk', -⟩
    · rw [hu] at hk'
      cases hk'
      exact owes_goes ho hh
    · rw [hu] at hk'
      cases hk'

theorem stuck_main (hlocs : Program.locs s = places l w) :
    l.pc = .done ∨ l.pc = .join ∧ s.shared.data.exited l.i = false := by
  have hrun := main_running h hlocs
  rcases halts_or_asleep h hstuck .main with ⟨k, hk, hh⟩ | ⟨m, k, hk, -⟩
  · rw [hrun] at hk
    cases hk
    exact main_halts hh
  · rw [hrun] at hk
    cases hk

/-- There is work left and somebody can do it. -/
theorem Open.not_stuck (hlocs : Program.locs s = places l w) (ho : Open x m₀ s.shared.data w)
    (hcreated : ∀ i < x.maxthreads, s.shared.data.acquired (.thread i) ≠ 0) : False := by
  obtain ⟨j, hj, hal⟩ := ho.alive
  have htask := ho.task j
  rcases stuck_worker h hstuck hlocs j with hpc | hpc | hpc | ⟨hpc, hzero⟩ | ⟨hpc, hidle⟩
  · rw [hpc] at htask
    exact htask
  · rw [hpc] at htask
    exact htask
  · rw [hpc] at htask
    exact htask.2.not_stuck
  · exact hcreated j hj hzero
  · rw [hidle, hpc] at hal
    simp at hal

/-- A thread that is asked to terminate does so. -/
theorem Ending.done_of_term {last : Option ℕ} (hlocs : Program.locs s = places l w)
    (he : Ending x s.shared.data w last) (hcreated : s.shared.data.acquired (.thread i) ≠ 0)
    (hst : (s.shared.data.pool i).st = .term) : w i = .done := by
  have htask := he.task i
  rcases stuck_worker h hstuck hlocs i with hpc | hpc | hpc | ⟨-, hzero⟩ | ⟨-, hidle⟩
  · exact hpc
  · rw [hpc] at htask
    exact htask.elim
  · rw [hpc] at htask
    exact htask.elim
  · exact absurd hzero hcreated
  · rw [hst] at hidle
    cases hidle

/-- The last thread has asked all others to terminate. -/
theorem Ending.all_done {last : ℕ} (hlocs : Program.locs s = places l w)
    (he : Ending x s.shared.data w (some last))
    (hcreated : ∀ i < x.maxthreads, s.shared.data.acquired (.thread i) ≠ 0)
    (hi : i < x.maxthreads) : w i = .done := by
  have hlast := he.task last
  have hdone : w last = .done := by
    rcases stuck_worker h hstuck hlocs last with hpc | hpc | hpc | ⟨hpc, -⟩ | ⟨hpc, -⟩
    · exact hpc
    · rw [hpc] at hlast
      exact hlast.elim
    · rw [hpc] at hlast
      exact hlast.elim
    · rw [hpc] at hlast
      exact absurd rfl hlast.1
    · rw [hpc] at hlast
      exact absurd rfl hlast.1
  by_cases hil : i = last
  · rw [hil, hdone]
  rw [hdone] at hlast
  obtain ⟨hne, -⟩ | ⟨-, -, htold⟩ := hlast
  · exact absurd rfl hne
  · exact he.done_of_term h hstuck hlocs (hcreated i hi) (htold i hi hil)

omit h hstuck in
/-- As long as `qsort_mt` has not returned some thread can go on. -/
theorem not_stuck (hx : x.Valid)
    (hsize : x.maxthreads = 0 → first = some .mtxAl ∨ first = some .pool)
    (hq : first ≠ none ∨ x.n < x.forkelem → ∀ m, Result x m (x.qsort m))
    (h : (system x m₀).Reachable (failsAt first) s) (hlocs : Program.locs s = places l w)
    (hpc : l.pc ≠ .done) : ∃ t, ¬ (pool x).Blocked s t := by
  by_contra hnone
  have hstuck (t : Thread) : (pool x).Blocked s t := by
    by_contra ht
    exact hnone ⟨t, ht⟩
  obtain ⟨l', w', hlocs', haccount, hbounds, hlife, hstage⟩ := stage_reachable hx hsize hq h
  obtain ⟨rfl, rfl⟩ := places_inj (hlocs.symm.trans hlocs')
  obtain ⟨hjoin, hexited⟩ := (stuck_main h hstuck hlocs).resolve_left hpc
  have hnot : w l.i ≠ .done := fun hd => by
    rw [(hlife.exited _).mpr hd] at hexited
    cases hexited
  obtain ⟨pc, islot, i, bailout⟩ := l
  simp only at hjoin hnot
  subst hjoin
  obtain ⟨hislot, hi, hfin⟩ := hbounds
  simp only at hislot hi
  cases bailout with
  | true =>
    have hbail : Bailing x m₀ s.shared.data ⟨.join, islot, i, true⟩ w := hstage
    exact hnot (hbail.ending.done_of_term h hstuck hlocs (haccount.created i hi)
      (hbail.asked (.inr (.inr rfl))))
  | false =>
    have hall := (hfin.2 rfl).1
    simp only at hall
    have hcreated (j : ℕ) (hj : j < x.maxthreads) : s.shared.data.acquired (.thread j) ≠ 0 :=
      haccount.created j (hall ▸ hj)
    rcases hstage with ⟨hopen, -⟩ | ⟨last, hend, -⟩
    · exact hopen.not_stuck h hstuck hlocs hcreated
    · exact hnot (hend.all_done h hstuck hlocs hcreated (by omega))

end Deadlock

end LinuxSummer.Pool
