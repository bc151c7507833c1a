import Mathlib.Algebra.GroupWithZero.Nat
import LinuxSummer.Monitors

/-! The lock ring of hw2/perf-test/main.c: `T` threads and `T + 1` mutexes, over mutexes and a
condition variable that are correct. Every statement on shared data is one step, and every call of
a mutex or of the condition variable. -/
namespace LinuxSummer.LockRing
open Monitor

inductive Thread (T : ℕ) where
  | main
  | worker (id : Fin T)
deriving DecidableEq

/-- `common->mutexes[j]`, `common->ready_mutex` with its condition variable, and
`ctx[i].start_mutex`. -/
inductive Mutex where
  | ring (j : ℕ)
  | ready
  | start (i : ℕ)
deriving DecidableEq

structure Data where
  readyCount : ℕ
  /-- How many threads `contention_test` has created. -/
  created : ℕ
  exited : ℕ → Bool

inductive Pc where
  /-- The loops of `contention_test` over `i`; `launch` takes `start_mutex`, and after the loop
  `ready_mutex`. -/
  | launch
  | create
  | test
  | cond
  | readyUnlock
  | release
  | join
  /-- The thread is not created yet. -/
  | begin
  | first
  | countLock
  | count
  | signal
  | countUnlock
  | lineLock
  | lineUnlock
  /-- The test of the loop, with the call after it. -/
  | loop
  | prev
  | ret
  | done
deriving DecidableEq

/-- A place with the local variables. -/
structure Loc where
  pc : Pc
  i : ℕ
  loop : ℕ

def Loc.goto (l : Loc) (pc : Pc) : Loc := { l with pc := pc }

abbrev Call := Instr Mutex Data Loc

variable {T : ℕ}

/-- `(i + 1) % LOCK_MAX`. -/
def next (T i : ℕ) : ℕ := (i + 1) % (T + 1)

/-- `thread_func` for `iters` iterations. -/
def threadFunc (iters : ℕ) (id : Fin T) (l : Loc) : Call :=
  match l.pc with
  | .begin => .access fun d => if id < d.created then some (d, l.goto .first) else none
  | .first => .lock (.ring l.i) (l.goto .countLock)
  | .countLock => .lock .ready (l.goto .count)
  | .count => .access fun d => some ({ d with readyCount := d.readyCount + 1 },
      l.goto (if d.readyCount + 1 = T then .signal else .countUnlock))
  | .signal => .signal .ready (l.goto .countUnlock)
  | .countUnlock => .unlock .ready (l.goto .lineLock)
  | .lineLock => .lock (.start id) (l.goto .lineUnlock)
  | .lineUnlock => .unlock (.start id) (l.goto .loop)
  | .loop =>
    if l.loop < iters then .lock (.ring (next T l.i)) (l.goto .prev)
    else .unlock (.ring l.i) (l.goto .ret)
  | .prev => .unlock (.ring l.i) ⟨.loop, next T l.i, l.loop + 1⟩
  | .ret => .access fun d =>
      some ({ d with exited := Function.update d.exited id true }, l.goto .done)
  | _ => .exit

/-- `contention_test` after its initialisation. -/
def contentionTest (T : ℕ) (l : Loc) : Call :=
  match l.pc with
  | .launch => if l.i < T then .lock (.start l.i) (l.goto .create) else .lock .ready (l.goto .test)
  | .create => .access fun d => some ({ d with created := l.i + 1 }, ⟨.launch, l.i + 1, l.loop⟩)
  | .test => .access fun d =>
      some (d, l.goto (if d.readyCount < T then .cond else .readyUnlock))
  | .cond => .wait .ready (l.goto .test)
  | .readyUnlock => .unlock .ready ⟨.release, 0, l.loop⟩
  | .release =>
    if l.i < T then .unlock (.start l.i) ⟨.release, l.i + 1, l.loop⟩
    else .access fun d => some (d, ⟨.join, 0, l.loop⟩)
  | .join => .access fun d =>
      if l.i < T then if d.exited l.i then some (d, ⟨.join, l.i + 1, l.loop⟩) else none
      else some (d, l.goto .done)
  | _ => .exit

def instr (iters : ℕ) : Thread T → Loc → Call
  | .main, l => contentionTest T l
  | .worker id, l => threadFunc iters id l

def entry : Thread T → Loc
  | .main => ⟨.launch, 0, 1⟩
  | .worker id => ⟨.begin, id, 1⟩

/-- The mutexes that a thread holds at a place. -/
def holds (t : Thread T) (l : Loc) (m : Mutex) : Prop :=
  match t, l.pc with
  | .main, .launch => ∃ j, m = .start j ∧ j < l.i ∧ j < T
  | .main, .create => ∃ j, m = .start j ∧ j ≤ l.i ∧ j < T
  | .main, .test | .main, .cond | .main, .readyUnlock => m = .ready ∨ ∃ j, m = .start j ∧ j < T
  | .main, .release => ∃ j, m = .start j ∧ l.i ≤ j ∧ j < T
  | .worker _, .countLock | .worker _, .lineLock | .worker _, .loop => m = .ring l.i
  | .worker _, .count | .worker _, .signal | .worker _, .countUnlock => m = .ring l.i ∨ m = .ready
  | .worker id, .lineUnlock => m = .ring l.i ∨ m = .start id
  | .worker _, .prev => m = .ring l.i ∨ m = .ring (next T l.i)
  | _, _ => False

section Respects
variable {iters : ℕ}

theorem next_ne [NeZero T] (i : ℕ) : next T i ≠ i := by
  have hpos := Nat.pos_of_neZero T
  have hlt : (i + 1) % (T + 1) < T + 1 := Nat.mod_lt _ (by omega)
  intro h
  unfold next at h
  by_cases hi : i + 1 < T + 1
  · rw [Nat.mod_eq_of_lt hi] at h
    omega
  · obtain rfl : i = T := by omega
    rw [Nat.mod_self] at h
    omega

theorem contentionTest_respects (l : Loc) :
    Respects (holds (.main : Thread T)) l (contentionTest T l) := by
  obtain ⟨pc, i, loop⟩ := l
  cases pc with
  | launch =>
    unfold contentionTest
    simp only
    split
    · rename_i hi
      intro m
      simp only [holds, Loc.goto]
      constructor
      · rintro ⟨j, rfl, hj, hjT⟩
        rcases Nat.lt_or_eq_of_le hj with hlt | rfl
        · exact .inl ⟨j, rfl, hlt, hjT⟩
        · exact .inr rfl
      · rintro (⟨j, rfl, hj, hjT⟩ | rfl)
        · exact ⟨j, rfl, Nat.le_of_lt hj, hjT⟩
        · exact ⟨i, rfl, Nat.le_refl i, hi⟩
    · rename_i hi
      intro m
      simp only [holds, Loc.goto]
      constructor
      · rintro (rfl | ⟨j, rfl, hj⟩)
        · exact .inr rfl
        · exact .inl ⟨j, rfl, by omega, hj⟩
      · rintro (⟨j, rfl, -, hj⟩ | rfl)
        · exact .inr ⟨j, rfl, hj⟩
        · exact .inl rfl
  | create =>
    intro d d' k he m
    cases he
    simp only [holds, Nat.lt_succ_iff]
  | test =>
    intro d d' k he m
    cases he
    split <;> simp [holds, Loc.goto]
  | cond => simp [contentionTest, Respects, holds, Loc.goto]
  | readyUnlock =>
    refine ⟨.inl rfl, fun m => ?_⟩
    simp only [holds]
    constructor
    · rintro ⟨j, rfl, -, hj⟩
      exact ⟨.inr ⟨j, rfl, hj⟩, by simp⟩
    · rintro ⟨rfl | ⟨j, rfl, hj⟩, hne⟩
      · exact absurd rfl hne
      · exact ⟨j, rfl, Nat.zero_le j, hj⟩
  | release =>
    unfold contentionTest
    simp only
    split
    · rename_i hi
      refine ⟨⟨i, rfl, Nat.le_refl i, hi⟩, fun m => ?_⟩
      simp only [holds]
      constructor
      · rintro ⟨j, rfl, hj, hjT⟩
        exact ⟨⟨j, rfl, by omega, hjT⟩, by simp only [ne_eq, Mutex.start.injEq]; omega⟩
      · rintro ⟨⟨j, rfl, hj, hjT⟩, hne⟩
        simp only [ne_eq, Mutex.start.injEq] at hne
        exact ⟨j, rfl, by omega, hjT⟩
    · rename_i hi
      intro d d' k he m
      cases he
      simp only [holds, false_iff]
      rintro ⟨j, rfl, hj, hjT⟩
      omega
  | join =>
    intro d d' k he m
    simp only at he
    split at he
    · split at he <;> cases he
      simp [holds]
    · cases he
      simp [holds, Loc.goto]
  | _ => exact fun m => by simp [holds]

theorem threadFunc_respects [NeZero T] (id : Fin T) (l : Loc) :
    Respects (holds (.worker id)) l (threadFunc iters id l) := by
  obtain ⟨pc, i, loop⟩ := l
  cases pc with
  | begin =>
    intro d d' k he m
    simp only at he
    split at he <;> cases he
    simp [holds, Loc.goto]
  | count =>
    intro d d' k he m
    cases he
    split <;> simp [holds, Loc.goto]
  | signal => simp [threadFunc, Respects, holds, Loc.goto]
  | loop =>
    unfold threadFunc
    simp only
    split
    · exact fun m => by simp [holds, Loc.goto]
    · exact ⟨rfl, fun m => by simp [holds, Loc.goto]⟩
  | prev =>
    have hne := next_ne (T := T) i
    refine ⟨.inl rfl, fun m => ?_⟩
    simp only [holds]
    constructor
    · rintro rfl
      exact ⟨.inr rfl, by simp only [ne_eq, Mutex.ring.injEq]; exact hne⟩
    · rintro ⟨rfl | rfl, hm⟩
      · exact absurd rfl hm
      · rfl
  | ret =>
    intro d d' k he m
    cases he
    simp [holds, Loc.goto]
  | first | countLock | lineLock => exact fun m => by simp [holds, Loc.goto]
  | countUnlock =>
    refine ⟨.inr rfl, fun m => ?_⟩
    simp only [holds, Loc.goto]
    constructor
    · rintro rfl
      exact ⟨.inl rfl, by simp⟩
    · rintro ⟨rfl | rfl, hm⟩
      · rfl
      · exact absurd rfl hm
  | lineUnlock =>
    refine ⟨.inr rfl, fun m => ?_⟩
    simp only [holds, Loc.goto]
    constructor
    · rintro rfl
      exact ⟨.inl rfl, by simp⟩
    · rintro ⟨rfl | rfl, hm⟩
      · rfl
      · exact absurd rfl hm
  | _ => exact fun m => by simp [holds]

theorem instr_respects [NeZero T] (t : Thread T) (l : Loc) :
    Respects (holds t) l (instr iters t l) := by
  cases t with
  | main => exact contentionTest_respects l
  | worker id => exact threadFunc_respects id l

end Respects

def ring (T iters : ℕ) [NeZero T] : Program (Thread T) Mutex Data Loc where
  entry := entry
  instr := instr iters
  holds := holds
  entry_free t m := by cases t <;> simp [entry, holds]
  respects := instr_respects

def start : Data := ⟨0, 0, fun _ => false⟩

/-- `T` threads that take `iters` mutexes each. -/
def system (T iters : ℕ) [NeZero T] := (ring T iters).system start

end LinuxSummer.LockRing
