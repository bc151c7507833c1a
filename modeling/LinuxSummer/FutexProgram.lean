import LinuxSummer.FutexSignal
import LinuxSummer.FutexSleeper
import LinuxSummer.FutexStages
import LinuxSummer.Monitors

/-! Programs whose mutexes are those of hw2/mutex.h, each with one condition variable of hw2/cond.h.
A call of the program runs the code of the call, access by access. -/
namespace LinuxSummer.FutexProgram
open Monitor
set_option linter.unusedSectionVars false

/-- Where a thread is: at a place of the program, or in a call for the mutex `m`, after which it goes
on at `k`. -/
inductive Place (M L : Type*) where
  | run (l : L)
  | call (m : M) (k : L)

/-- The words of the mutexes and of the condition variables, with their sleepers, and the data. -/
structure Mem (T M Γ : Type*) where
  word : M → Futex.Shared T Unit
  data : Γ

/-- A thread, with its local variables in the calls for each mutex. -/
structure Local (M L : Type*) where
  place : Place M L
  use : M → Futex.Local Unit

/-- The function that an instruction calls, and where the program goes on. -/
def called {M Γ L : Type*} : Instr M Γ L → Option (M × Futex.Op Unit × L)
  | .lock m k => some (m, .lock, k)
  | .unlock m k => some (m, .unlock, k)
  | .wait m k => some (m, .condWait (), k)
  | .signal m k => some (m, .condSignal (), k)
  | .broadcast m k => some (m, .condBroadcast (), k)
  | .access _ => none
  | .attempt _ => none
  | .exit => none

/-- The access within a call. -/
def access {T : Type*} : Act T → Option (Futex.Act T Unit)
  | .run => some .run
  | .notify w => some (.wake w)
  | .spurious => some .spurious
  | .fail => none

variable {T M Γ L : Type*} [DecidableEq T] [DecidableEq M]

/-- The step of a thread at a place of the program. -/
def perform (g : Mem T M Γ) (use : M → Futex.Local Unit) :
    Instr M Γ L → Act T → Option (Mem T M Γ × Local M L)
  | .access f, .run => (f g.data).map fun r => ({ g with data := r.1 }, ⟨.run r.2, use⟩)
  | .attempt f, .run => some ({ g with data := (f true g.data).1 }, ⟨.run (f true g.data).2, use⟩)
  | .attempt f, .fail => some ({ g with data := (f false g.data).1 }, ⟨.run (f false g.data).2, use⟩)
  | i, .run => (called i).bind fun c => (Futex.enter (use c.1) c.2.1).map fun l =>
      (g, ⟨.call c.1 c.2.2, Function.update use c.1 l⟩)
  | _, _ => none

def next (P : Program T M Γ L) (p : Futex.WakePolicy) (t : T) (g : Mem T M Γ) (l : Local M L)
    (a : Act T) : Option (Mem T M Γ × Local M L) :=
  match l.place with
  | .run x => perform g l.use (P.instr t x) a
  | .call m k => (access a).bind fun b => (Futex.next p t (g.word m) (l.use m) b).map fun r =>
      ({ g with word := Function.update g.word m r.1 },
        ⟨if r.2.pc = .idle then .run k else .call m k, Function.update l.use m r.2⟩)

abbrev State (T M Γ L : Type*) := Config T (Mem T M Γ) (Local M L)

/-- After `mutex_init` and `cond_init` of all, every thread at its entry. -/
def start (P : Program T M Γ L) (d : Γ) : State T M Γ L :=
  ⟨⟨fun _ => (Futex.start T Unit).shared, d⟩,
    fun t => ⟨.run (P.entry t), fun _ => (Futex.start T Unit).thread t⟩⟩

/-- The program `P`, when the kernel wakes sleepers as `p` says. -/
def system (P : Program T M Γ L) (p : Futex.WakePolicy) (d : Γ) :
    System (State T M Γ L) (T × Act T) :=
  Threads.system ⟨next P p⟩ (· = start P d)

/-- The mutex `m` with its condition variable, as if the threads did nothing else. -/
def view (m : M) (c : State T M Γ L) : Config T (Futex.Shared T Unit) (Futex.Local Unit) :=
  ⟨c.shared.word m, fun t => (c.thread t).use m⟩

/-- No `seq` comes round within one `cond_wait`. -/
def FewSignals (c : State T M Γ L) : Prop := ∀ m, Futex.FewSignals (view m c)

def fewSignals (c : State T M Γ L) (_ : T × Act T) : Prop := FewSignals c

/-- No thread has a step, except for a sleeper that wakes up by itself. -/
def Stuck (P : Program T M Γ L) (p : Futex.WakePolicy) (c : State T M Γ L) : Prop :=
  ∀ t a, a ≠ .spurious → next P p t c.shared (c.thread t) a = none

variable {P : Program T M Γ L} {p : Futex.WakePolicy} {d : Γ} {t : T} {g g' : Mem T M Γ}
  {l l' : Local M L} {a : Act T} {c c' : State T M Γ L} {m : M} {k : L}
  {ok : State T M Γ L → T × Act T → Prop}

/-- While so few signals have been given at all, no `seq` has come round. -/
theorem fewSignals_of_adds (h : ∀ m, (c.shared.word m).adds () < 2 ^ 32) : FewSignals c :=
  fun m _ _ _ => Nat.lt_of_lt_of_le (h m) (Nat.le_add_left _ _)

/-! ### What a step does -/

/-- The cases of a step. -/
inductive Stepped (P : Program T M Γ L) (p : Futex.WakePolicy) (t : T) (g : Mem T M Γ)
    (l : Local M L) (a : Act T) : Mem T M Γ → Local M L → Prop
  /-- A statement on the data. -/
  | data {x : L} {b : Bool} {d : Γ} {k : L} (place : l.place = .run x)
    (called : called (P.instr t x) = none) (answers : Answers b (P.instr t x) a)
    (edge : Edge b (P.instr t x) g.data d k) : Stepped P p t g l a { g with data := d } ⟨.run k, l.use⟩
  | call {x : L} {m : M} {op : Futex.Op Unit} {k : L} {u : Futex.Local Unit} (place : l.place = .run x)
    (called : called (P.instr t x) = some (m, op, k)) (enter : Futex.enter (l.use m) op = some u) :
    Stepped P p t g l a g ⟨.call m k, Function.update l.use m u⟩
  | inside {m : M} {k : L} {b : Futex.Act T Unit} {w : Futex.Shared T Unit} {u : Futex.Local Unit}
    (place : l.place = .call m k) (next : Futex.next p t (g.word m) (l.use m) b = some (w, u)) :
    Stepped P p t g l a { g with word := Function.update g.word m w }
      ⟨if u.pc = .idle then .run k else .call m k, Function.update l.use m u⟩

theorem next_stepped (h : next P p t g l a = some (g', l')) : Stepped P p t g l a g' l' := by
  unfold next at h
  split at h
  case h_1 x hplace =>
    have hcall (i : Instr M Γ L) (hi : P.instr t x = i) (h : ((called i).bind fun c =>
        (Futex.enter (l.use c.1) c.2.1).map fun u =>
          (g, (⟨.call c.1 c.2.2, Function.update l.use c.1 u⟩ : Local M L))) = some (g', l')) :
        Stepped P p t g l a g' l' := by
      obtain ⟨⟨m, op, k⟩, hc, h⟩ := Option.bind_eq_some_iff.mp h
      obtain ⟨u, hu, he⟩ := Option.map_eq_some_iff.mp h
      cases he
      exact .call hplace (hi ▸ hc) hu
    cases hi : P.instr t x <;> cases a <;> simp only [hi, perform] at h
    case access.run f =>
      obtain ⟨⟨d, k⟩, hd, he⟩ := Option.map_eq_some_iff.mp h
      cases he
      exact .data (b := true) hplace (by rw [hi]; rfl) (by simp [Answers, hi])
        (by rw [hi]; exact hd)
    case attempt.run f =>
      cases h
      exact .data (b := true) hplace (by rw [hi]; rfl) (by simp [Answers]) (by rw [hi]; rfl)
    case attempt.fail f =>
      cases h
      exact .data (b := false) hplace (by rw [hi]; rfl) (by simp [Answers]) (by rw [hi]; rfl)
    case lock.run | unlock.run | wait.run | signal.run | broadcast.run | exit.run =>
      exact hcall _ hi h
    all_goals cases h
  case h_2 m k hplace =>
    obtain ⟨b, -, h⟩ := Option.bind_eq_some_iff.mp h
    obtain ⟨⟨w, u⟩, hn, he⟩ := Option.map_eq_some_iff.mp h
    cases he
    exact .inside hplace hn

theorem step_cases (h : (system P p d).next c (t, a) = some c') :
    ∃ g l, Stepped P p t c.shared (c.thread t) a g l ∧
      c' = ⟨g, Function.update c.thread t l⟩ := by
  obtain ⟨g, l, hn, rfl⟩ := Threads.step_cases h
  exact ⟨g, l, next_stepped hn, rfl⟩

/-! ### One mutex -/

theorem view_update (g : Mem T M Γ) (m : M) :
    view m (⟨g, Function.update c.thread t l⟩ : State T M Γ L) =
      ⟨g.word m, Function.update (view m c).thread t (l.use m)⟩ := by
  simp only [view, Config.mk.injEq, true_and]
  funext u
  by_cases hu : u = t
  · subst hu
    simp
  · simp [hu]

/-- What leaves a mutex alone. -/
theorem view_keep (hg : g.word m = c.shared.word m) (hl : l.use m = (c.thread t).use m) :
    view m (⟨g, Function.update c.thread t l⟩ : State T M Γ L) = view m c := by
  have hself : Function.update (view m c).thread t ((c.thread t).use m) = (view m c).thread :=
    Function.update_eq_self t _
  rw [view_update, hg, hl, hself]
  rfl

/-- The stage at which a call begins. -/
def opStage : Futex.Op Unit → Futex.Stage
  | .trylock => .trying
  | .lock => .locking
  | .unlock => .unlocking
  | .condWait _ => .entering
  | .condSignal _ => .signalling
  | .condBroadcast _ => .broadcasting

theorem enter_stage {op : Futex.Op Unit} {f f' : Futex.Local Unit} (h : Futex.enter f op = some f') :
    f'.pc.stage = opStage op ∧ f'.pc ≠ .idle ∧ f'.holds = f.holds := by
  cases op with
  | trylock | lock | condSignal | condBroadcast =>
    cases h
    exact ⟨rfl, by simp, rfl⟩
  | unlock | condWait =>
    simp only [Futex.enter] at h
    split at h <;> cases h
    exact ⟨rfl, by simp, rfl⟩

/-- Programs do not call `mutex_trylock`. -/
theorem called_stage {i : Instr M Γ L} {op : Futex.Op Unit} (h : called i = some (m, op, k)) :
    opStage op ≠ .trying := by
  cases i <;> cases h <;> simp [opStage]

/-- A thread is in a call for one mutex at most. -/
structure Tidy (c : State T M Γ L) : Prop where
  busy : ∀ t m k, (c.thread t).place = .call m k →
    ((c.thread t).use m).pc ≠ .idle ∧ ((c.thread t).use m).pc.stage ≠ .trying
  idle : ∀ t m, (∀ k, (c.thread t).place ≠ .call m k) → ((c.thread t).use m).pc = .idle

theorem tidy_start : Tidy (start P d) := by
  constructor
  · intro t m k h
    cases h
  · intro t m _
    rfl

/-- The step of a call as a step of its mutex. -/
theorem view_step (ht : Tidy c) (h : Stepped P p t c.shared (c.thread t) a g l) (m : M) :
    view m (⟨g, Function.update c.thread t l⟩ : State T M Γ L) = view m c ∨
      ∃ b, (Futex.system T Unit p).next (view m c) (t, b) =
        some (view m ⟨g, Function.update c.thread t l⟩) := by
  cases h with
  | data place called answers edge => exact .inl (view_keep rfl rfl)
  | @call x m₀ op k u place called enter =>
    by_cases hm : m = m₀
    · subst hm
      have hidle : ((c.thread t).use m).pc = .idle := ht.idle t m (by simp [place])
      refine .inr ⟨.call op, ?_⟩
      rw [view_update]
      simp only [Futex.system, Futex.threads, Threads.system, Futex.next, view, hidle, enter,
        Function.update_self, Option.map_some, if_true]
    · exact .inl (view_keep rfl (Function.update_of_ne hm ..))
  | @inside m₀ k b w u place next =>
    by_cases hm : m = m₀
    · subst hm
      refine .inr ⟨b, ?_⟩
      rw [view_update]
      simp only [Futex.system, Futex.threads, Threads.system, view, next, Function.update_self,
        Option.map_some]
    · exact .inl (view_keep (Function.update_of_ne hm ..) (Function.update_of_ne hm ..))

/-- What the step of a call does to its mutex. -/
theorem move_of_next (hi : Futex.Inv (view m c)) (ht : Tidy c)
    (hplace : (c.thread t).place = .call m k) {b : Futex.Act T Unit} {w : Futex.Shared T Unit}
    {u : Futex.Local Unit}
    (h : Futex.next p t (c.shared.word m) ((c.thread t).use m) b = some (w, u)) :
    Futex.Move p t (c.shared.word m) ((c.thread t).use m) w u := by
  obtain ⟨hidle, htry⟩ := ht.busy t m k hplace
  exact Futex.next_move htry hidle (fun f hf => hi.asleep t f hf) h

theorem tidy_step (hi : ∀ m, Futex.Inv (view m c)) (ht : Tidy c)
    (h : Stepped P p t c.shared (c.thread t) a g l) :
    Tidy (⟨g, Function.update c.thread t l⟩ : State T M Γ L) := by
  suffices hself : (∀ m k, l.place = .call m k → (l.use m).pc ≠ .idle ∧ (l.use m).pc.stage ≠ .trying) ∧
      ∀ m, (∀ k, l.place ≠ .call m k) → (l.use m).pc = .idle by
    constructor
    · intro u m k hu
      by_cases hut : u = t
      · subst hut
        simp only [Function.update_self] at hu ⊢
        exact hself.1 m k hu
      · simp only [Function.update_of_ne hut] at hu ⊢
        exact ht.busy u m k hu
    · intro u m hu
      by_cases hut : u = t
      · subst hut
        simp only [Function.update_self] at hu ⊢
        exact hself.2 m hu
      · simp only [Function.update_of_ne hut] at hu ⊢
        exact ht.idle u m hu
  cases h with
  | data place called answers edge =>
    refine ⟨fun m k h => ?_, fun m _ => ht.idle t m (by simp [place])⟩
    cases h
  | @call x m₀ op k u place called enter =>
    obtain ⟨hstage, hidle, -⟩ := enter_stage enter
    refine ⟨fun m k h => ?_, fun m h => ?_⟩
    · cases h
      simp only [Function.update_self, hstage]
      exact ⟨hidle, called_stage called⟩
    · have hm : m ≠ m₀ := fun he => h k (by rw [he])
      simp only [Function.update_of_ne hm]
      exact ht.idle t m (by simp [place])
  | @inside m₀ k b w u place next =>
    have htry : u.pc.stage ≠ .trying := by
      have hold := (ht.busy t m₀ k place).2
      cases move_of_next (hi m₀) ht place next with
      | quiet stage => rwa [stage]
      | acquire stage stage' | release stage stage' | enter stage stage' | onward stage stage'
      | leave stage stage' => simp [stage']
      | sleep seq pc pc' | signalAdd pc pc' | signalWake pc pc' | broadcastAdd pc pc'
      | broadcastRequeue pc pc' => simp [pc', Futex.Pc.stage]
    have hother (m : M) (hm : m ≠ m₀) : ((c.thread t).use m).pc = .idle :=
      ht.idle t m (by simp [place, Ne.symm hm])
    refine ⟨fun m k' h => ?_, fun m h => ?_⟩
    · split at h <;> rename_i hpc <;> cases h
      simp only [Function.update_self]
      exact ⟨hpc, htry⟩
    · by_cases hm : m = m₀
      · subst hm
        simp only [Function.update_self]
        by_contra hpc
        exact h k (by simp [hpc])
      · simp only [Function.update_of_ne hm]
        exact hother m hm

/-- In a run of a program each mutex with its condition variable runs as it would by itself. -/
theorem view_reachable (ok' : Config T (Futex.Shared T Unit) (Futex.Local Unit) →
      T × Futex.Act T Unit → Prop) (hok : ∀ c t a b m, ok c (t, a) → ok' (view m c) (t, b))
    (h : (system P p d).Reachable ok c) :
    Tidy c ∧ ∀ m, (Futex.system T Unit p).Reachable ok' (view m c) := by
  apply System.reachable_invariant (I := fun c => Tidy c ∧
    ∀ m, (Futex.system T Unit p).Reachable ok' (view m c)) ?_ ?_ h
  · rintro c rfl
    exact ⟨tidy_start, fun m => System.reachable_init rfl⟩
  · rintro c ⟨t, a⟩ c' - ⟨ht, hv⟩ ha hn
    obtain ⟨g, l, hstep, rfl⟩ := step_cases hn
    refine ⟨tidy_step (fun m => Futex.inv_reachable (hv m)) ht hstep, fun m => ?_⟩
    rcases view_step ht hstep m with he | ⟨b, hb⟩
    · rw [he]
      exact hv m
    · exact System.reachable_step (hv m) (hok c t a b m ha) hb

theorem tidy_reachable (h : (system P p d).Reachable ok c) : Tidy c :=
  (view_reachable System.free (fun _ _ _ _ _ _ => trivial) h).1

theorem free_view (h : (system P p d).Reachable ok c) (m : M) :
    (Futex.system T Unit p).Reachable System.free (view m c) :=
  (view_reachable System.free (fun _ _ _ _ _ _ => trivial) h).2 m

end LinuxSummer.FutexProgram
