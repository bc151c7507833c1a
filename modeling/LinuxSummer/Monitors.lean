import Mathlib.Data.List.Nodup
import LinuxSummer.Machine

/-! Threads that run programs over shared data, mutexes and condition variables. Each condition
variable is used with one mutex, which names both. A program is a table that gives the next call
of a thread at its place in the code. -/
namespace LinuxSummer.Monitor
set_option linter.unusedSectionVars false

/-- A call of a thread, with the place where it goes on. -/
inductive Instr (M Γ L : Type*) where
  | lock (m : M) (k : L)
  | unlock (m : M) (k : L)
  | wait (m : M) (k : L)
  | signal (m : M) (k : L)
  | broadcast (m : M) (k : L)
  /-- A statement on the shared data, `none` while it blocks. -/
  | access (f : Γ → Option (Γ × L))
  /-- A call that may succeed or fail. -/
  | attempt (f : Bool → Γ → Γ × L)
  | exit

inductive Act (T : Type*) where
  | run
  /-- The call fails. -/
  | fail
  /-- `signal` wakes `w`. -/
  | notify (w : T)
  /-- A waiting thread wakes up by itself. -/
  | spurious

structure Shared (T M Γ : Type*) where
  owner : M → Option T
  waiters : M → List T
  data : Γ

/-- A thread runs, or is in `wait`: asleep or woken and about to take the mutex again. -/
inductive Status (M L : Type*) where
  | run (l : L)
  | asleep (m : M) (k : L)
  | woken (m : M) (k : L)

/-- Where the thread goes on. -/
def Status.loc {M L : Type*} : Status M L → L
  | .run l => l
  | .asleep _ k => k
  | .woken _ k => k

/-- A call at `l` keeps the account of the mutexes that the thread holds. -/
def Respects {M Γ L : Type*} (holds : L → M → Prop) (l : L) : Instr M Γ L → Prop
  | .lock m k => ∀ m', holds k m' ↔ holds l m' ∨ m' = m
  | .unlock m k => holds l m ∧ ∀ m', holds k m' ↔ holds l m' ∧ m' ≠ m
  | .wait m k => holds l m ∧ ∀ m', holds k m' ↔ holds l m'
  | .signal _ k => ∀ m', holds k m' ↔ holds l m'
  | .broadcast _ k => ∀ m', holds k m' ↔ holds l m'
  | .access f => ∀ d d' k, f d = some (d', k) → ∀ m', holds k m' ↔ holds l m'
  | .attempt f => ∀ b d m', holds (f b d).2 m' ↔ holds l m'
  | .exit => ∀ m, ¬ holds l m

/-- A program whose calls of `lock` and `unlock` match: `holds` says which mutexes a thread holds
at a place. -/
structure Program (T M Γ L : Type*) where
  entry : T → L
  instr : T → L → Instr M Γ L
  holds : T → L → M → Prop
  entry_free : ∀ t m, ¬ holds t (entry t) m
  respects : ∀ t l, Respects (holds t) l (instr t l)

section Shared
variable {T M Γ : Type*} [DecidableEq T] [DecidableEq M] (g : Shared T M Γ)

def Shared.acquire (m : M) (t : T) : Shared T M Γ :=
  { g with owner := Function.update g.owner m (some t) }

def Shared.release (m : M) : Shared T M Γ := { g with owner := Function.update g.owner m none }

def Shared.enter (m : M) (t : T) : Shared T M Γ :=
  { g with waiters := Function.update g.waiters m (g.waiters m ++ [t]) }

def Shared.leave (m : M) (t : T) : Shared T M Γ :=
  { g with waiters := Function.update g.waiters m ((g.waiters m).erase t) }

def Shared.clear (m : M) : Shared T M Γ := { g with waiters := Function.update g.waiters m [] }

end Shared

variable {T M Γ L : Type*} [DecidableEq T] [DecidableEq M]

/-- The step of a running thread. -/
def perform (t : T) (g : Shared T M Γ) : Instr M Γ L → Act T → Option (Shared T M Γ × Status M L)
  | .lock m k, .run => if g.owner m = none then some (g.acquire m t, .run k) else none
  | .unlock m k, .run => some (g.release m, .run k)
  | .wait m k, .run => some ((g.release m).enter m t, .asleep m k)
  | .signal m k, .run => if g.waiters m = [] then some (g, .run k) else none
  | .signal m k, .notify w => if w ∈ g.waiters m then some (g.leave m w, .run k) else none
  | .broadcast m k, .run => some (g.clear m, .run k)
  | .access f, .run => (f g.data).map fun r => ({ g with data := r.1 }, .run r.2)
  | .attempt f, .run => some ({ g with data := (f true g.data).1 }, .run (f true g.data).2)
  | .attempt f, .fail => some ({ g with data := (f false g.data).1 }, .run (f false g.data).2)
  | _, _ => none

namespace Program

/-- The step of a thread, also within `wait`. -/
def next (P : Program T M Γ L) (t : T) (g : Shared T M Γ) :
    Status M L → Act T → Option (Shared T M Γ × Status M L)
  | .run l, a => perform t g (P.instr t l) a
  | .asleep m k, .run => if t ∈ g.waiters m then none else some (g, .woken m k)
  | .asleep m k, .spurious => if t ∈ g.waiters m then some (g.leave m t, .woken m k) else none
  | .woken m k, .run => if g.owner m = none then some (g.acquire m t, .run k) else none
  | _, _ => none

/-- Every thread at its entry, no mutex held. -/
def start (P : Program T M Γ L) (d : Γ) : Config T (Shared T M Γ) (Status M L) :=
  ⟨⟨fun _ => none, fun _ => [], d⟩, fun t => .run (P.entry t)⟩

def system (P : Program T M Γ L) (d : Γ) :
    System (Config T (Shared T M Γ) (Status M L)) (T × Act T) :=
  Threads.system ⟨P.next⟩ (· = P.start d)

/-- The mutexes that a thread has. -/
def Owns (P : Program T M Γ L) (t : T) : Status M L → M → Prop
  | .run l, m => P.holds t l m
  | .asleep m' k, m => P.holds t k m ∧ m ≠ m'
  | .woken m' k, m => P.holds t k m ∧ m ≠ m'

/-- Only a spurious wake-up could get the thread on. -/
def Blocked (P : Program T M Γ L) (s : Config T (Shared T M Γ) (Status M L)) (t : T) : Prop :=
  ∀ a, a ≠ .spurious → P.next t s.shared (s.thread t) a = none

def Finished (P : Program T M Γ L) (s : Config T (Shared T M Γ) (Status M L)) (t : T) : Prop :=
  ∃ l, s.thread t = .run l ∧ P.instr t l = .exit

/-- The places of all threads. -/
def locs (s : Config T (Shared T M Γ) (Status M L)) (t : T) : L := (s.thread t).loc

end Program

/-! ### What a step does -/

/-- The cases of a step. -/
inductive Stepped (P : Program T M Γ L) (t : T) (g : Shared T M Γ) (a : Act T) :
    Status M L → Shared T M Γ → Status M L → Prop
  | lock {l : L} {m : M} {k : L} (instr : P.instr t l = .lock m k) (free : g.owner m = none) :
    Stepped P t g a (.run l) (g.acquire m t) (.run k)
  | unlock {l : L} {m : M} {k : L} (instr : P.instr t l = .unlock m k) :
    Stepped P t g a (.run l) (g.release m) (.run k)
  | wait {l : L} {m : M} {k : L} (instr : P.instr t l = .wait m k) :
    Stepped P t g a (.run l) ((g.release m).enter m t) (.asleep m k)
  | quiet {l : L} {m : M} {k : L} (instr : P.instr t l = .signal m k) (none : g.waiters m = []) :
    Stepped P t g a (.run l) g (.run k)
  | signal {l : L} {m : M} {k : L} {w : T} (instr : P.instr t l = .signal m k)
    (mem : w ∈ g.waiters m) : Stepped P t g a (.run l) (g.leave m w) (.run k)
  | broadcast {l : L} {m : M} {k : L} (instr : P.instr t l = .broadcast m k) :
    Stepped P t g a (.run l) (g.clear m) (.run k)
  | access {l : L} {f : Γ → Option (Γ × L)} {d : Γ} {k : L} (instr : P.instr t l = .access f)
    (eq : f g.data = some (d, k)) : Stepped P t g a (.run l) { g with data := d } (.run k)
  | attempt {l : L} {f : Bool → Γ → Γ × L} {b : Bool} {d : Γ} {k : L}
    (instr : P.instr t l = .attempt f) (eq : f b g.data = (d, k)) (fails : b = false ↔ a = .fail) :
    Stepped P t g a (.run l) { g with data := d } (.run k)
  | wake {m : M} {k : L} (off : t ∉ g.waiters m) : Stepped P t g a (.asleep m k) g (.woken m k)
  | spurious {m : M} {k : L} (mem : t ∈ g.waiters m) :
    Stepped P t g a (.asleep m k) (g.leave m t) (.woken m k)
  | relock {m : M} {k : L} (free : g.owner m = none) :
    Stepped P t g a (.woken m k) (g.acquire m t) (.run k)

variable {P : Program T M Γ L} {t : T} {g g' : Shared T M Γ} {st st' : Status M L} {a : Act T}
  {d : Γ} {s s' : Config T (Shared T M Γ) (Status M L)}

theorem next_stepped (h : P.next t g st a = some (g', st')) : Stepped P t g a st g' st' := by
  cases st with
  | run l =>
    simp only [Program.next] at h
    cases hi : P.instr t l <;> cases a <;> simp only [hi, perform] at h
    case lock.run =>
      split at h <;> rename_i hf <;> cases h
      exact .lock hi hf
    case unlock.run =>
      cases h
      exact .unlock hi
    case wait.run =>
      cases h
      exact .wait hi
    case signal.run =>
      split at h <;> rename_i hn <;> cases h
      exact .quiet hi hn
    case signal.notify w =>
      split at h <;> rename_i hw <;> cases h
      exact .signal hi hw
    case broadcast.run =>
      cases h
      exact .broadcast hi
    case access.run =>
      obtain ⟨⟨d, k⟩, hd, he⟩ := Option.map_eq_some_iff.mp h
      cases he
      exact .access hi hd
    case attempt.run =>
      cases h
      exact .attempt hi rfl (by simp)
    case attempt.fail =>
      cases h
      exact .attempt hi rfl (by simp)
    all_goals cases h
  | asleep m k =>
    cases a <;> simp only [Program.next] at h
    case run =>
      split at h <;> rename_i ht <;> cases h
      exact .wake ht
    case spurious =>
      split at h <;> rename_i ht <;> cases h
      exact .spurious ht
    all_goals cases h
  | woken m k =>
    cases a <;> simp only [Program.next] at h
    case run =>
      split at h <;> rename_i hf <;> cases h
      exact .relock hf
    all_goals cases h

theorem step_cases (h : (P.system d).next s (t, a) = some s') :
    ∃ g st, Stepped P t s.shared a (s.thread t) g st ∧
      s' = ⟨g, Function.update s.thread t st⟩ := by
  obtain ⟨g, st, hn, rfl⟩ := Threads.step_cases h
  exact ⟨g, st, next_stepped hn, rfl⟩

/-! ### Mutual exclusion -/

/-- The mutexes have the owners that the program says, and the waiters are asleep there. -/
structure Sound (P : Program T M Γ L) (s : Config T (Shared T M Γ) (Status M L)) : Prop where
  owner : ∀ t m, s.shared.owner m = some t ↔ P.Owns t (s.thread t) m
  resumes : ∀ t m k, s.thread t = .asleep m k ∨ s.thread t = .woken m k → P.holds t k m
  asleep : ∀ t m, t ∈ s.shared.waiters m → ∃ k, s.thread t = .asleep m k
  nodup : ∀ m, (s.shared.waiters m).Nodup

theorem sound_start : Sound P (P.start d) := by
  constructor
  · intro t m
    simp [Program.start, Program.Owns, P.entry_free]
  · intro t m k h
    simp [Program.start] at h
  · intro t m h
    simp [Program.start] at h
  · intro m
    simp [Program.start]

/-- Who has which mutex when `t` takes `m`. -/
theorem owner_acquire (hs : Sound P s) {m : M} (hfree : s.shared.owner m = none)
    (hst : ∀ m', P.Owns t st' m' ↔ P.Owns t (s.thread t) m' ∨ m' = m) (u : T) (m' : M) :
    (s.shared.acquire m t).owner m' = some u ↔ P.Owns u (Function.update s.thread t st' u) m' := by
  have hnot (u : T) : ¬ P.Owns u (s.thread u) m := by
    rw [← hs.owner, hfree]
    simp
  by_cases hu : u = t
  · subst hu
    rw [Function.update_self, hst, ← hs.owner]
    by_cases hm : m' = m <;> simp [Shared.acquire, hm]
  · rw [Function.update_of_ne hu, ← hs.owner]
    by_cases hm : m' = m
    · subst hm
      have htu : t ≠ u := fun h => hu h.symm
      simp [Shared.acquire, htu, hfree]
    · simp [Shared.acquire, hm]

theorem owner_release (hs : Sound P s) {m : M} (howns : P.Owns t (s.thread t) m)
    (hst : ∀ m', P.Owns t st' m' ↔ P.Owns t (s.thread t) m' ∧ m' ≠ m) (u : T) (m' : M) :
    (s.shared.release m).owner m' = some u ↔ P.Owns u (Function.update s.thread t st' u) m' := by
  have ht := (hs.owner t m).mpr howns
  by_cases hu : u = t
  · subst hu
    rw [Function.update_self, hst, ← hs.owner]
    by_cases hm : m' = m <;> simp [Shared.release, hm]
  · rw [Function.update_of_ne hu, ← hs.owner]
    by_cases hm : m' = m
    · subst hm
      have htu : t ≠ u := fun h => hu h.symm
      simp [Shared.release, ht, htu]
    · simp [Shared.release, hm]

theorem owner_same (hs : Sound P s) (hg : g'.owner = s.shared.owner)
    (hst : ∀ m', P.Owns t st' m' ↔ P.Owns t (s.thread t) m') (u : T) (m' : M) :
    g'.owner m' = some u ↔ P.Owns u (Function.update s.thread t st' u) m' := by
  rw [hg, hs.owner]
  by_cases hu : u = t
  · subst hu
    rw [Function.update_self, hst]
  · rw [Function.update_of_ne hu]

theorem owner_step (hs : Sound P s) (h : Stepped P t s.shared a (s.thread t) g' st') (u : T)
    (m' : M) : g'.owner m' = some u ↔ P.Owns u (Function.update s.thread t st' u) m' := by
  generalize hst : s.thread t = st at h
  have hres (l : L) := P.respects t l
  cases h with
  | @lock l m k instr free =>
    have hl := hres l
    rw [instr] at hl
    exact owner_acquire hs free (fun m' => by rw [hst]; exact hl m') u m'
  | @unlock l m k instr =>
    have hl := hres l
    rw [instr] at hl
    exact owner_release hs (by rw [hst]; exact hl.1) (fun m' => by rw [hst]; exact hl.2 m') u m'
  | @wait l m k instr =>
    have hl := hres l
    rw [instr] at hl
    exact owner_release hs (by rw [hst]; exact hl.1)
      (fun m' => by rw [hst]; exact and_congr_left' (hl.2 m')) u m'
  | @quiet l m k instr none =>
    have hl := hres l
    rw [instr] at hl
    exact owner_same hs rfl (fun m' => by rw [hst]; exact hl m') u m'
  | @signal l m k w instr mem =>
    have hl := hres l
    rw [instr] at hl
    exact owner_same hs rfl (fun m' => by rw [hst]; exact hl m') u m'
  | @broadcast l m k instr =>
    have hl := hres l
    rw [instr] at hl
    exact owner_same hs rfl (fun m' => by rw [hst]; exact hl m') u m'
  | @access l f d k instr eq =>
    have hl := hres l
    rw [instr] at hl
    exact owner_same hs rfl (fun m' => by rw [hst]; exact hl _ _ _ eq m') u m'
  | @attempt l f b d k instr eq fails =>
    have hl := hres l
    rw [instr] at hl
    refine owner_same hs rfl (fun m' => ?_) u m'
    have hm := hl b s.shared.data m'
    rw [eq] at hm
    rw [hst]
    exact hm
  | wake off => exact owner_same hs rfl (fun m' => by rw [hst]; rfl) u m'
  | spurious mem => exact owner_same hs rfl (fun m' => by rw [hst]; rfl) u m'
  | @relock m k free =>
    refine owner_acquire hs free (fun m' => ?_) u m'
    have hm := hs.resumes t m k (.inr hst)
    rw [hst]
    simp only [Program.Owns]
    by_cases he : m' = m
    · simp [he, hm]
    · simp [he]

theorem resumes_step (hs : Sound P s) (h : Stepped P t s.shared a (s.thread t) g' st') (u : T)
    (m : M) (k : L) (hu : Function.update s.thread t st' u = .asleep m k ∨
      Function.update s.thread t st' u = .woken m k) : P.holds u k m := by
  by_cases hut : u = t
  · subst hut
    rw [Function.update_self] at hu
    generalize hst : s.thread u = st at h
    cases h with
    | @wait l m₀ k₀ instr =>
      have hl := P.respects u l
      rw [instr] at hl
      rcases hu with hu | hu <;> cases hu
      exact (hl.2 m).mpr hl.1
    | wake off =>
      rcases hu with hu | hu <;> cases hu
      exact hs.resumes u m k (.inl hst)
    | spurious mem =>
      rcases hu with hu | hu <;> cases hu
      exact hs.resumes u m k (.inl hst)
    | _ => rcases hu with hu | hu <;> cases hu
  · rw [Function.update_of_ne hut] at hu
    exact hs.resumes u m k hu

/-- Where the waiters after a step come from. -/
theorem waiters_step (hs : Sound P s) (h : Stepped P t s.shared a (s.thread t) g' st') (m : M) :
    (g'.waiters m).Nodup ∧ ∀ u ∈ g'.waiters m, ∃ k, Function.update s.thread t st' u = .asleep m k := by
  have other (u : T) (hu : u ∈ s.shared.waiters m) (hut : u ≠ t) :
      ∃ k, Function.update s.thread t st' u = .asleep m k := by
    rw [Function.update_of_ne hut]
    exact hs.asleep u m hu
  have kept (hne : ∀ m k, s.thread t ≠ .asleep m k) (u : T) (hu : u ∈ s.shared.waiters m) :
      ∃ k, Function.update s.thread t st' u = .asleep m k := by
    refine other u hu fun hut => ?_
    obtain ⟨k, hk⟩ := hs.asleep u m hu
    exact hne m k (hut ▸ hk)
  generalize hst : s.thread t = st at h
  cases h with
  | @wait l m₀ k instr =>
    have hoff : t ∉ s.shared.waiters m := fun ht => by
      obtain ⟨k, hk⟩ := hs.asleep t m ht
      rw [hst] at hk
      cases hk
    by_cases hm : m = m₀
    · subst hm
      simp only [Shared.enter, Shared.release, Function.update_self]
      refine ⟨(hs.nodup m).append (List.nodup_singleton t) (by simpa using hoff), fun u hu => ?_⟩
      rcases List.mem_append.mp hu with hu | hu
      · exact kept (by simp [hst]) u hu
      · rw [List.mem_singleton.mp hu, Function.update_self]
        exact ⟨k, rfl⟩
    · simp only [Shared.enter, Shared.release, Function.update_of_ne hm]
      exact ⟨hs.nodup m, kept (by simp [hst])⟩
  | @signal l m₀ k w instr mem =>
    by_cases hm : m = m₀
    · subst hm
      simp only [Shared.leave, Function.update_self]
      exact ⟨(hs.nodup m).erase w, fun u hu => kept (by simp [hst]) u (List.mem_of_mem_erase hu)⟩
    · simp only [Shared.leave, Function.update_of_ne hm]
      exact ⟨hs.nodup m, kept (by simp [hst])⟩
  | @broadcast l m₀ k instr =>
    by_cases hm : m = m₀
    · subst hm
      simp [Shared.clear]
    · simp only [Shared.clear, Function.update_of_ne hm]
      exact ⟨hs.nodup m, kept (by simp [hst])⟩
  | @spurious m₀ k mem =>
    by_cases hm : m = m₀
    · subst hm
      simp only [Shared.leave, Function.update_self]
      refine ⟨(hs.nodup m).erase t, fun u hu => ?_⟩
      rw [(hs.nodup m).mem_erase_iff] at hu
      exact other u hu.2 hu.1
    · simp only [Shared.leave, Function.update_of_ne hm]
      refine ⟨hs.nodup m, fun u hu => other u hu fun hut => ?_⟩
      obtain ⟨k', hk'⟩ := hs.asleep u m hu
      rw [hut, hst] at hk'
      cases hk'
      exact hm rfl
  | @wake m₀ k off =>
    refine ⟨hs.nodup m, fun u hu => other u hu fun hut => ?_⟩
    obtain ⟨k', hk'⟩ := hs.asleep u m hu
    rw [hut, hst] at hk'
    cases hk'
    exact off (hut ▸ hu)
  | _ => exact ⟨hs.nodup m, kept (by simp [hst])⟩

theorem sound_reachable {ok : Config T (Shared T M Γ) (Status M L) → T × Act T → Prop}
    (h : (P.system d).Reachable ok s) : Sound P s := by
  apply System.reachable_invariant ?_ ?_ h
  · intro s hs
    exact hs ▸ sound_start
  · intro s a s' _ hi _ hn
    obtain ⟨g, st, hstep, rfl⟩ := step_cases hn
    exact ⟨owner_step hi hstep, resumes_step hi hstep, fun u m => (waiters_step hi hstep m).2 u,
      fun m => (waiters_step hi hstep m).1⟩

/-- Two threads do not have the same mutex. -/
theorem Sound.unique (hs : Sound P s) {u : T} {m : M} (ht : P.Owns t (s.thread t) m)
    (hu : P.Owns u (s.thread u) m) : t = u := by
  have h₁ := (hs.owner t m).mpr ht
  have h₂ := (hs.owner u m).mpr hu
  rw [h₁] at h₂
  exact Option.some.inj h₂

/-! ### Invariants of the data and the places -/

/-- The statement at a place changes the data from `d` to `d'` and goes on at `k`; `b` is whether a
call that may fail succeeds. -/
def Edge (b : Bool) : Instr M Γ L → Γ → Γ → L → Prop
  | .lock _ k', d, d', k => d' = d ∧ k = k'
  | .unlock _ k', d, d', k => d' = d ∧ k = k'
  | .wait _ k', d, d', k => d' = d ∧ k = k'
  | .signal _ k', d, d', k => d' = d ∧ k = k'
  | .broadcast _ k', d, d', k => d' = d ∧ k = k'
  | .access f, d, d', k => f d = some (d', k)
  | .attempt f, d, d', k => f b d = (d', k)
  | .exit, _, _, _ => False

/-- A call that may fail does so in the step in which it is said to. -/
def Answers (b : Bool) (i : Instr M Γ L) (a : Act T) : Prop :=
  ∀ f, i = .attempt f → (b = false ↔ a = .fail)

/-- A step within `wait` changes neither the data nor the places. -/
theorem Stepped.edge (h : Stepped P t g a st g' st') :
    (g'.data = g.data ∧ st'.loc = st.loc ∧ ∃ m k, st = .asleep m k ∨ st = .woken m k) ∨
      ∃ l b, st = .run l ∧ Answers b (P.instr t l) a ∧
        (∀ m k, P.instr t l = .lock m k → g.owner m = none) ∧
        Edge b (P.instr t l) g.data g'.data st'.loc := by
  cases h with
  | lock instr free =>
    refine .inr ⟨_, true, rfl, by simp [Answers, instr], fun m k hi => ?_,
      by rw [instr]; exact ⟨rfl, rfl⟩⟩
    rw [instr] at hi
    cases hi
    exact free
  | unlock instr | wait instr | quiet instr | signal instr | broadcast instr =>
    exact .inr ⟨_, true, rfl, by simp [Answers, instr], by simp [instr],
      by rw [instr]; exact ⟨rfl, rfl⟩⟩
  | access instr eq =>
    exact .inr ⟨_, true, rfl, by simp [Answers, instr], by simp [instr], by rw [instr]; exact eq⟩
  | attempt instr eq fails =>
    exact .inr ⟨_, _, rfl, fun _ _ => fails, by simp [instr], by rw [instr]; exact eq⟩
  | wake | spurious => exact .inl ⟨rfl, rfl, _, _, .inl rfl⟩
  | relock => exact .inl ⟨rfl, rfl, _, _, .inr rfl⟩

/-- A step that changes the data is a statement of a thread that goes on running. -/
theorem Stepped.statement (h : Stepped P t g a st g' st') : g'.data = g.data ∨
    ∃ l k b, st = .run l ∧ st' = .run k ∧ Edge b (P.instr t l) g.data g'.data k := by
  cases h with
  | access instr eq => exact .inr ⟨_, _, true, rfl, rfl, by rw [instr]; exact eq⟩
  | attempt instr eq fails => exact .inr ⟨_, _, _, rfl, rfl, by rw [instr]; exact eq⟩
  | _ => exact .inl rfl

theorem locs_update (g : Shared T M Γ) (f : T → Status M L) (t : T) (st : Status M L) :
    Program.locs ⟨g, Function.update f t st⟩ =
      Function.update (fun u => (f u).loc) t st.loc := by
  funext u
  by_cases hu : u = t
  · subst hu
    simp [Program.locs]
  · simp [Program.locs, hu]

variable {ok : Config T (Shared T M Γ) (Status M L) → T × Act T → Prop}

/-- The rule for a property of the data and of the places: every statement keeps it, and a mutex is
free when a thread takes it. -/
theorem lock_invariant {I : Γ → (T → L) → Prop} (hstart : I d P.entry)
    (hedge : ∀ s t l a b d' k, (P.system d).Reachable ok s → I s.shared.data (Program.locs s) →
      s.thread t = .run l → ok s (t, a) → Answers b (P.instr t l) a →
      (∀ m k', P.instr t l = .lock m k' → s.shared.owner m = none) →
      Edge b (P.instr t l) s.shared.data d' k → I d' (Function.update (Program.locs s) t k))
    (h : (P.system d).Reachable ok s) : I s.shared.data (Program.locs s) := by
  apply System.reachable_invariant (I := fun s => I s.shared.data (Program.locs s)) ?_ ?_ h
  · intro s hs
    rw [hs]
    exact hstart
  · intro s a s' hr hi hok hn
    obtain ⟨t, a⟩ := a
    obtain ⟨g, st, hstep, rfl⟩ := step_cases hn
    rw [locs_update]
    rcases hstep.edge with ⟨hd, hl, -⟩ | ⟨l, b, hl, hb, hfree, he⟩
    · rw [hl]
      simp only [hd]
      have hsame : Function.update (fun u => (s.thread u).loc) t (s.thread t).loc =
          Program.locs s := Function.update_eq_self t _
      rw [hsame]
      exact hi
    · exact hedge s t l a b g.data st.loc hr hi hl hok hb hfree he

/-- The rule where it does not matter which mutexes are free. -/
theorem data_invariant {I : Γ → (T → L) → Prop} (hstart : I d P.entry)
    (hedge : ∀ s t l a b d' k, (P.system d).Reachable ok s → I s.shared.data (Program.locs s) →
      s.thread t = .run l → ok s (t, a) → Answers b (P.instr t l) a →
      Edge b (P.instr t l) s.shared.data d' k → I d' (Function.update (Program.locs s) t k))
    (h : (P.system d).Reachable ok s) : I s.shared.data (Program.locs s) :=
  lock_invariant hstart (fun s t l a b d' k hr hi hl hok hb _ => hedge s t l a b d' k hr hi hl hok hb)
    h

/-- What holds of the place where each `wait` goes on holds of the threads in `wait`. -/
theorem resume_rule {R : T → M → L → Prop} (hR : ∀ t l m k, P.instr t l = .wait m k → R t m k)
    (h : (P.system d).Reachable ok s) :
    ∀ t m k, s.thread t = .asleep m k ∨ s.thread t = .woken m k → R t m k := by
  apply System.reachable_invariant (I := fun s => ∀ t m k,
    s.thread t = .asleep m k ∨ s.thread t = .woken m k → R t m k) ?_ ?_ h
  · intro s hs t m k ht
    rw [hs] at ht
    rcases ht with ht | ht <;> cases ht
  · intro s a s' _ hi _ hn u m k hu
    obtain ⟨t, a⟩ := a
    obtain ⟨g, st, hstep, rfl⟩ := step_cases hn
    simp only at hu
    by_cases hut : u = t
    · subst hut
      rw [Function.update_self] at hu
      generalize hst : s.thread u = st₀ at hstep
      cases hstep with
      | @wait l m₀ k₀ instr =>
        rcases hu with hu | hu <;> cases hu
        exact hR u l m k instr
      | wake off =>
        rcases hu with hu | hu <;> cases hu
        exact hi u m k (.inl hst)
      | spurious mem =>
        rcases hu with hu | hu <;> cases hu
        exact hi u m k (.inl hst)
      | _ => rcases hu with hu | hu <;> cases hu
    · rw [Function.update_of_ne hut] at hu
      exact hi u m k hu

/-- The rule for what a running thread knows of the data: its own statements establish it, `wait`
gives it up, and the statements of threads with other mutexes leave it alone. -/
theorem guarded_invariant {Q : T → L → Γ → Prop} (hentry : ∀ t, Q t (P.entry t) d)
    (hown : ∀ t l b d d' k, Q t l d → Edge b (P.instr t l) d d' k → Q t k d')
    (hresume : ∀ t l m k, P.instr t l = .wait m k → ∀ d, Q t k d)
    (hother : ∀ t u l l' b d d' k, t ≠ u → (∀ m, P.holds t l m → ¬ P.holds u l' m) → Q t l d →
      Edge b (P.instr u l') d d' k → Q t l d')
    (h : (P.system d).Reachable ok s) : ∀ t l, s.thread t = .run l → Q t l s.shared.data := by
  apply System.reachable_invariant (I := fun s => ∀ t l, s.thread t = .run l →
    Q t l s.shared.data) ?_ ?_ h
  · intro s hs t l hl
    rw [hs] at hl ⊢
    cases hl
    exact hentry t
  · intro s a s' hr hi _ hn t l hl
    obtain ⟨u, a⟩ := a
    obtain ⟨g, st, hstep, rfl⟩ := step_cases hn
    simp only at hl ⊢
    have hs := sound_reachable hr
    by_cases htu : t = u
    · subst htu
      rw [Function.update_self] at hl
      subst hl
      rcases hstep.edge with ⟨-, -, m, k, hst | hst⟩ | ⟨l₀, b, hl₀, -, -, he⟩
      · rw [hst] at hstep
        cases hstep
      · rw [hst] at hstep
        cases hstep
        exact resume_rule (R := fun t _ k => ∀ d, Q t k d) hresume hr t m l (.inr hst) _
      · exact hown t l₀ b _ _ l (hi t l₀ hl₀) he
    · rw [Function.update_of_ne htu] at hl
      rcases hstep.statement with hd | ⟨l', k, b, hl', -, he⟩
      · rw [hd]
        exact hi t l hl
      · refine hother t u l l' b _ _ k htu (fun m ht hu => htu ?_) (hi t l hl) he
        exact hs.unique (m := m) (by rw [hl]; exact ht) (by rw [hl']; exact hu)

/-! ### Lost wake-ups -/

/-- `awaited u k m d`: the thread `u`, which goes on at `k`, need not wait at `m` any more.
`owes t l m`: the thread `t` at `l` is on its way to wake the waiters of `m`. Whoever makes a
condition true owes the wake-up until it is done. -/
structure Wakeups (P : Program T M Γ L) (awaited : T → L → M → Γ → Prop)
    (owes : T → L → M → Prop) : Prop where
  awake : ∀ {t l m}, owes t l m → ∀ m' k, P.instr t l ≠ .wait m' k
  pays : ∀ {t l m b d d' k}, owes t l m → Edge b (P.instr t l) d d' k →
    owes t k m ∨ P.instr t l = .signal m k ∨ P.instr t l = .broadcast m k
  raises : ∀ {t l b d d' k}, Edge b (P.instr t l) d d' k → ∀ u j m, awaited u j m d' →
    awaited u j m d ∨ owes t k m

/-- Only the thread itself goes to sleep. -/
theorem Stepped.waiters (h : Stepped P t g a st g' st') {u : T} {m : M} (hu : u ∈ g'.waiters m) :
    u ∈ g.waiters m ∨ u = t := by
  cases h with
  | @wait l m₀ k instr =>
    by_cases hm : m = m₀
    · subst hm
      simp only [Shared.enter, Shared.release, Function.update_self] at hu
      simpa using hu
    · exact .inl (by simpa [Shared.enter, Shared.release, hm] using hu)
  | @signal l m₀ k w instr mem =>
    by_cases hm : m = m₀
    · subst hm
      simp only [Shared.leave, Function.update_self] at hu
      exact .inl (List.mem_of_mem_erase hu)
    · exact .inl (by simpa [Shared.leave, hm] using hu)
  | @broadcast l m₀ k instr =>
    by_cases hm : m = m₀
    · simp [Shared.clear, hm] at hu
    · exact .inl (by simpa [Shared.clear, hm] using hu)
  | @spurious m₀ k mem =>
    by_cases hm : m = m₀
    · subst hm
      simp only [Shared.leave, Function.update_self] at hu
      exact .inl (List.mem_of_mem_erase hu)
    · exact .inl (by simpa [Shared.leave, hm] using hu)
  | _ => exact .inl hu

/-- A running thread wakes at most one other, unless it wakes all of them. -/
theorem Stepped.leaves {l : L} (h : Stepped P t g a (.run l) g' st') :
    ∃ v, ∀ u m, u ∈ g.waiters m → u ∈ g'.waiters m ∨
      (u = v ∧ ∃ m k, P.instr t l = .signal m k) ∨ ∃ m k, P.instr t l = .broadcast m k := by
  cases h with
  | @wait _ m₀ k instr =>
    refine ⟨t, fun u m hu => .inl ?_⟩
    by_cases hm : m = m₀
    · subst hm
      simp [Shared.enter, Shared.release, hu]
    · simpa [Shared.enter, Shared.release, hm] using hu
  | @signal _ m₀ k w instr mem =>
    refine ⟨w, fun u m hu => ?_⟩
    by_cases huw : u = w
    · exact .inr (.inl ⟨huw, m₀, k, instr⟩)
    refine .inl ?_
    by_cases hm : m = m₀
    · subst hm
      simpa [Shared.leave, List.mem_erase_of_ne huw] using hu
    · simpa [Shared.leave, hm] using hu
  | @broadcast _ m₀ k instr => exact ⟨t, fun u m hu => .inr (.inr ⟨m₀, k, instr⟩)⟩
  | _ => exact ⟨t, fun u m hu => .inl hu⟩

/-- A running thread goes on running unless it waits. -/
theorem Stepped.goes {l : L} (h : Stepped P t g a (.run l) g' st')
    (hw : ∀ m k, P.instr t l ≠ .wait m k) :
    ∃ b, st' = .run st'.loc ∧ Edge b (P.instr t l) g.data g'.data st'.loc := by
  rcases h.edge with ⟨-, -, m, k, hst | hst⟩ | ⟨l', b, hst, -, -, he⟩
  · cases hst
  · cases hst
  · cases hst
    refine ⟨b, ?_, he⟩
    cases h with
    | wait instr => exact absurd instr (hw _ _)
    | _ => rfl

/-- A thread that waits goes on when it has been woken. -/
theorem next_asleep {m : M} {k : L} (h : P.next t g (.asleep m k) a = some (g', st'))
    (ha : a ≠ .spurious) : g' = g ∧ st' = .woken m k ∧ t ∉ g.waiters m := by
  cases a with
  | run =>
    simp only [Program.next] at h
    split at h
    · cases h
    · cases h
      exact ⟨rfl, rfl, by assumption⟩
  | spurious => exact absurd rfl ha
  | fail | notify => cases h

theorem next_woken {m : M} {k : L} (h : P.next t g (.woken m k) a = some (g', st')) :
    g' = g.acquire m t ∧ st' = .run k := by
  cases a with
  | run =>
    simp only [Program.next] at h
    split at h <;> cases h
    exact ⟨rfl, rfl⟩
  | fail | notify | spurious => cases h

/-- A thread that owes a wake-up owes it after its step, or has woken everybody there. -/
theorem Wakeups.step {awaited : T → L → M → Γ → Prop} {owes : T → L → M → Prop}
    (hw : Wakeups P awaited owes) {l : L} {m : M} (ho : owes t l m)
    (hnodup : (g.waiters m).Nodup)
    (hsingle : ∀ u v k, P.instr t l = .signal m k → u ∈ g.waiters m → v ∈ g.waiters m → u = v)
    (h : Stepped P t g a (.run l) g' st') :
    (∃ k, st' = .run k ∧ owes t k m) ∨ g'.waiters m = [] := by
  have hpays {b : Bool} {d' : Γ} {k : L} (he : Edge b (P.instr t l) g.data d' k)
      (hs : ∀ m k, P.instr t l ≠ .signal m k) (hb : ∀ m k, P.instr t l ≠ .broadcast m k) :
      owes t k m := by
    rcases hw.pays ho he with hk | hk | hk
    · exact hk
    · exact absurd hk (hs m k)
    · exact absurd hk (hb m k)
  cases h with
  | @lock l m₀ k instr free =>
    have he : Edge true (P.instr t l) g.data g.data k := by rw [instr]; exact ⟨rfl, rfl⟩
    exact .inl ⟨_, rfl, hpays he (by simp [instr]) (by simp [instr])⟩
  | @unlock l m₀ k instr =>
    have he : Edge true (P.instr t l) g.data g.data k := by rw [instr]; exact ⟨rfl, rfl⟩
    exact .inl ⟨_, rfl, hpays he (by simp [instr]) (by simp [instr])⟩
  | wait instr => exact absurd instr (hw.awake ho _ _)
  | access instr eq =>
    exact .inl ⟨_, rfl, hpays (b := true) (by rw [instr]; exact eq) (by simp [instr])
      (by simp [instr])⟩
  | attempt instr eq fails =>
    exact .inl ⟨_, rfl, hpays (by rw [instr]; exact eq) (by simp [instr]) (by simp [instr])⟩
  | @quiet l m₀ k instr none =>
    have he : Edge true (P.instr t l) g.data g.data k := by rw [instr]; exact ⟨rfl, rfl⟩
    rcases hw.pays ho he with hk | hk | hk
    · exact .inl ⟨_, rfl, hk⟩
    · rw [instr] at hk
      cases hk
      exact .inr none
    · simp [instr] at hk
  | @signal l m₀ k w instr mem =>
    have he : Edge true (P.instr t l) g.data g.data k := by rw [instr]; exact ⟨rfl, rfl⟩
    rcases hw.pays ho he with hk | hk | hk
    · exact .inl ⟨_, rfl, hk⟩
    · rw [instr] at hk
      cases hk
      refine .inr (List.eq_nil_iff_forall_not_mem.mpr fun u hu => ?_)
      simp only [Shared.leave, Function.update_self, hnodup.mem_erase_iff] at hu
      exact hu.1 (hsingle u w _ instr hu.2 mem)
    · simp [instr] at hk
  | @broadcast l m₀ k instr =>
    have he : Edge true (P.instr t l) g.data g.data k := by rw [instr]; exact ⟨rfl, rfl⟩
    rcases hw.pays ho he with hk | hk | hk
    · exact .inl ⟨_, rfl, hk⟩
    · simp [instr] at hk
    · rw [instr] at hk
      cases hk
      exact .inr (by simp [Shared.clear])

/-- No wake-up is lost: when a thread is asleep although it need not wait, somebody is on the way
to wake it. A thread goes to sleep only when it has to wait, and where `signal` is used there is
one waiter at most. -/
theorem wakeup_owed {awaited : T → L → M → Γ → Prop} {owes : T → L → M → Prop}
    (hw : Wakeups P awaited owes)
    (hwait : ∀ s t l m k, (P.system d).Reachable ok s → s.thread t = .run l →
      P.instr t l = .wait m k → ¬ awaited t k m s.shared.data)
    (hsingle : ∀ s t u m, (P.system d).Reachable ok s → t ∈ s.shared.waiters m →
      u ∈ s.shared.waiters m → (∃ v l k, P.instr v l = .signal m k) → t = u)
    (h : (P.system d).Reachable ok s) : ∀ t m k, s.thread t = .asleep m k →
      t ∈ s.shared.waiters m → awaited t k m s.shared.data →
      ∃ u l, s.thread u = .run l ∧ owes u l m := by
  apply System.reachable_invariant (I := fun s => ∀ t m k, s.thread t = .asleep m k →
      t ∈ s.shared.waiters m → awaited t k m s.shared.data →
      ∃ u l, s.thread u = .run l ∧ owes u l m) ?_ ?_ h
  · intro s hs t m k ht
    rw [hs] at ht
    cases ht
  · intro s a s' hr hi hok hn v m k hv hmem haw
    obtain ⟨t, a⟩ := a
    obtain ⟨g, st, hstep, rfl⟩ := step_cases hn
    simp only at hv hmem haw ⊢
    have hs := sound_reachable hr
    -- the sleeper was asleep before
    have hvt : v ≠ t := by
      rintro rfl
      rw [Function.update_self] at hv
      subst hv
      generalize hst : s.thread v = st at hstep
      cases hstep with
      | wait instr => exact hwait s v _ m k hr hst instr haw
    rw [Function.update_of_ne hvt] at hv
    have hin : v ∈ s.shared.waiters m := (hstep.waiters hmem).resolve_right hvt
    have old (hold : awaited v k m s.shared.data) :
        ∃ u l, Function.update s.thread t st u = .run l ∧ owes u l m := by
      obtain ⟨u, l, hu, ho⟩ := hi v m k hv hin hold
      by_cases hut : u = t
      · subst hut
        rw [hu] at hstep
        have hone (u' v' : T) (k' : L) (hsig : P.instr u l = .signal m k')
            (hu' : u' ∈ s.shared.waiters m) (hv' : v' ∈ s.shared.waiters m) : u' = v' :=
          hsingle s u' v' m hr hu' hv' ⟨u, l, k', hsig⟩
        rcases hw.step ho (hs.nodup m) hone hstep with ⟨k', rfl, hk'⟩ | hnil
        · exact ⟨u, k', by simp, hk'⟩
        · simp [hnil] at hmem
      · exact ⟨u, l, by rw [Function.update_of_ne hut, hu], ho⟩
    rcases hstep.statement with hd | ⟨l, k', b, -, rfl, he⟩
    · exact old (hd ▸ haw)
    · rcases hw.raises he v k m haw with hold | ho
      · exact old hold
      · exact ⟨t, k', by simp, ho⟩

/-! ### Deadlock -/

/-- The order in which mutexes are taken: a thread that holds one waits for mutexes of greater rank
only, and for nothing else. -/
structure Ranked (P : Program T M Γ L) (rank : M → ℕ) : Prop where
  lock : ∀ {t l m k}, P.instr t l = .lock m k → ∀ m', P.holds t l m' → rank m' < rank m
  wait : ∀ {t l m k}, P.instr t l = .wait m k → ∀ m', P.holds t l m' → m' = m
  access : ∀ {t l f d}, P.instr t l = .access f → f d = none → ∀ m, ¬ P.holds t l m

/-- Why a thread is blocked. -/
theorem blocked_cases (h : P.Blocked s t) :
    P.Finished s t ∨
    (∃ l m k u, s.thread t = .run l ∧ P.instr t l = .lock m k ∧ s.shared.owner m = some u) ∨
    (∃ m k u, s.thread t = .woken m k ∧ s.shared.owner m = some u) ∨
    (∃ m k, s.thread t = .asleep m k ∧ t ∈ s.shared.waiters m) ∨
    ∃ l f, s.thread t = .run l ∧ P.instr t l = .access f ∧ f s.shared.data = none := by
  have hrun := h .run (by simp)
  cases hst : s.thread t with
  | run l =>
    simp only [hst, Program.next] at hrun
    cases hi : P.instr t l with
    | lock m k =>
      simp only [hi, perform] at hrun
      split at hrun <;> rename_i hf
      · cases hrun
      · obtain ⟨u, hu⟩ := Option.ne_none_iff_exists'.mp hf
        exact .inr (.inl ⟨l, m, k, u, rfl, hi, hu⟩)
    | signal m k =>
      simp only [hi, perform] at hrun
      split at hrun <;> rename_i hne
      · cases hrun
      · obtain ⟨w, hw⟩ := List.exists_mem_of_ne_nil _ hne
        have hnot := h (.notify w) (by simp)
        simp only [hst, Program.next, hi, perform, hw, if_true] at hnot
        cases hnot
    | access f =>
      simp only [hi, perform, Option.map_eq_none_iff] at hrun
      exact .inr (.inr (.inr (.inr ⟨l, f, rfl, hi, hrun⟩)))
    | exit => exact .inl ⟨l, hst, hi⟩
    | unlock m k | wait m k | broadcast m k | attempt f =>
      simp only [hi, perform] at hrun
      cases hrun
  | asleep m k =>
    simp only [hst, Program.next] at hrun
    split at hrun <;> rename_i ht
    · exact .inr (.inr (.inr (.inl ⟨m, k, rfl, ht⟩)))
    · cases hrun
  | woken m k =>
    simp only [hst, Program.next] at hrun
    split at hrun <;> rename_i hf
    · cases hrun
    · obtain ⟨u, hu⟩ := Option.ne_none_iff_exists'.mp hf
      exact .inr (.inr (.inl ⟨m, k, u, rfl, hu⟩))

/-- A thread in `wait` holds no other mutex. -/
theorem Ranked.holds_asleep {rank : M → ℕ} (hr : Ranked P rank) (h : (P.system d).Reachable ok s) :
    ∀ t m k, s.thread t = .asleep m k ∨ s.thread t = .woken m k → ∀ m', P.holds t k m' → m' = m := by
  refine resume_rule (fun t l m k hi m' hm' => ?_) h
  have hl := P.respects t l
  rw [hi] at hl
  exact hr.wait hi m' ((hl.2 m').mp hm')

/-- When every thread is blocked no mutex is taken: the holder of one waits for a mutex of greater
rank, which is taken as well. -/
theorem free_of_blocked {rank : M → ℕ} (hr : Ranked P rank) (B : ℕ) (hB : ∀ m, rank m ≤ B)
    (h : (P.system d).Reachable ok s) (hblocked : ∀ t, P.Blocked s t) (m : M) :
    s.shared.owner m = none := by
  have hs := sound_reachable h
  have hasleep := hr.holds_asleep h
  induction hn : B - rank m using Nat.strongRecOn generalizing m with
  | _ n ih =>
    by_contra hne
    obtain ⟨u, hu⟩ := Option.ne_none_iff_exists'.mp hne
    have howns := (hs.owner u m).mp hu
    rcases blocked_cases (hblocked u) with ⟨l, hl, hi⟩ | ⟨l, m', k, v, hl, hi, hv⟩ |
      ⟨m', k, v, hl, hv⟩ | ⟨m', k, hl, -⟩ | ⟨l, f, hl, hi, hf⟩
    · rw [hl] at howns
      have hres := P.respects u l
      rw [hi] at hres
      exact hres m howns
    · rw [hl] at howns
      have hlt := hr.lock hi m howns
      have hle := hB m'
      have hfree := ih (B - rank m') (by omega) m' rfl
      rw [hfree] at hv
      cases hv
    · rw [hl] at howns
      exact howns.2 (hasleep u m' k (.inr hl) m howns.1)
    · rw [hl] at howns
      exact howns.2 (hasleep u m' k (.inl hl) m howns.1)
    · rw [hl] at howns
      exact hr.access hi hf m howns

/-- When every thread is blocked each one has come to its end, is asleep, or waits for the data. -/
theorem asleep_of_blocked {rank : M → ℕ} (hr : Ranked P rank) (B : ℕ) (hB : ∀ m, rank m ≤ B)
    (h : (P.system d).Reachable ok s) (hblocked : ∀ t, P.Blocked s t) (t : T) :
    P.Finished s t ∨ (∃ m k, s.thread t = .asleep m k ∧ t ∈ s.shared.waiters m) ∨
      ∃ l f, s.thread t = .run l ∧ P.instr t l = .access f ∧ f s.shared.data = none := by
  have hfree := free_of_blocked hr B hB h hblocked
  rcases blocked_cases (hblocked t) with hf | ⟨l, m, k, u, -, -, hu⟩ | ⟨m, k, u, -, hu⟩ | ha | ha
  · exact .inl hf
  · simp [hfree m] at hu
  · simp [hfree m] at hu
  · exact .inr (.inl ha)
  · exact .inr (.inr ha)

end LinuxSummer.Monitor
