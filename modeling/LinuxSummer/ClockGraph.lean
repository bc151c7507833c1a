import Mathlib.Algebra.Group.Int.Defs
import Mathlib.Data.Int.Notation
import LinuxSummer.Monitors

/-! The clock graph of hw2/example/main.c: `N` nodes in a chain and a clock, over mutexes and
condition variables that are correct. Every statement on shared data is one step, and every call
of a mutex or of a condition variable. -/
namespace LinuxSummer.ClockGraph
open Monitor

inductive Thread (N : ℕ) where
  | main
  | node (self : Fin N)
deriving DecidableEq

/-- The mutexes, each with its condition variable. -/
inductive Mutex (N : ℕ) where
  | clock
  | node (n : Fin N)
deriving DecidableEq

structure Data (N : ℕ) where
  ticks : ℤ
  ready : Fin N → Bool
  /-- How many threads `main` has created. -/
  created : ℕ
  exited : Fin N → Bool

/-- Places in `clock_wait`; at `cond` the thread calls `cond_wait`. -/
inductive WaitPc where
  | lock
  | test
  | cond
  | ret
  | unlock (ret : Bool)
deriving DecidableEq

/-- Places in `clock_tick` and in `clock_stop`. -/
inductive SetPc where
  | lock
  | set
  | unlock
  | broadcast
deriving DecidableEq

/-- Places in `node_wait`. -/
inductive NodeWaitPc where
  | lock
  | test
  | cond
  | clear
  | unlock
deriving DecidableEq

/-- Places in `node_signal`. -/
inductive SignalPc where
  | lock
  | set
  | unlock
  | signal
deriving DecidableEq

inductive Pc where
  /-- `pthread_create` of the thread `i`. -/
  | create
  | start
  | wait (p : WaitPc)
  | nodeWait (p : NodeWaitPc)
  | tick (p : SetPc)
  /-- `last` after the loop of `thread_func`. -/
  | signal (last : Bool) (p : SignalPc)
  | stop (p : SetPc)
  /-- `pthread_join` of the thread `i`. -/
  | join
  | leave
  | done
deriving DecidableEq

/-- A place with the local variables. -/
structure Loc where
  pc : Pc
  i : ℕ
  bit : Bool

variable {N : ℕ}

def Loc.goto (l : Loc) (pc : Pc) : Loc := { l with pc := pc }

abbrev Call (N : ℕ) := Instr (Mutex N) (Data N) Loc

/-- `clock_wait(clock, ticks)`, which goes on at `k` with its result. -/
def clockWait (ticks : ℤ) (l : Loc) (k : Bool → Loc) : WaitPc → Call N
  | .lock => .lock .clock (l.goto (.wait .test))
  | .test => .access fun d =>
    some (d, l.goto (.wait (if d.ticks ≥ 0 ∧ d.ticks < ticks then .cond else .ret)))
  | .cond => .wait .clock (l.goto (.wait .test))
  | .ret => .access fun d => some (d, l.goto (.wait (.unlock (d.ticks ≥ ticks))))
  | .unlock ret => .unlock .clock (k ret)

/-- A critical section that sets `clock->ticks`, with a broadcast after it. -/
def clockSet (f : ℤ → ℤ) (l : Loc) (place : SetPc → Pc) (k : Loc) : SetPc → Call N
  | .lock => .lock .clock (l.goto (place .set))
  | .set => .access fun d => some ({ d with ticks := f d.ticks }, l.goto (place .unlock))
  | .unlock => .unlock .clock (l.goto (place .broadcast))
  | .broadcast => .broadcast .clock k

def clockTick (l : Loc) (k : Loc) : SetPc → Call N :=
  clockSet (fun ticks => if ticks ≥ 0 then ticks + 1 else ticks) l .tick k

def clockStop (l : Loc) (k : Loc) : SetPc → Call N := clockSet (fun _ => -1) l .stop k

def nodeWait (node : Fin N) (l : Loc) (k : Loc) : NodeWaitPc → Call N
  | .lock => .lock (.node node) (l.goto (.nodeWait .test))
  | .test => .access fun d =>
    some (d, l.goto (.nodeWait (if !d.ready node then .cond else .clear)))
  | .cond => .wait (.node node) (l.goto (.nodeWait .test))
  | .clear => .access fun d =>
    some ({ d with ready := Function.update d.ready node false }, l.goto (.nodeWait .unlock))
  | .unlock => .unlock (.node node) k

def nodeSignal (node : Fin N) (last : Bool) (l : Loc) (k : Loc) : SignalPc → Call N
  | .lock => .lock (.node node) (l.goto (.signal last .set))
  | .set => .access fun d =>
    some ({ d with ready := Function.update d.ready node true }, l.goto (.signal last .unlock))
  | .unlock => .unlock (.node node) (l.goto (.signal last .signal))
  | .signal => .signal (.node node) k

/-- `self->parent`. -/
def parent (self : Fin N) : Option (Fin N) :=
  if 0 < self.val then some ⟨self.val - 1, by omega⟩ else none

/-- The signal or the tick, by `bit`. -/
def Loc.action (l : Loc) : Loc := l.goto (if l.bit then .signal false .lock else .tick .lock)

/-- `bit = !bit; ++i`, and to `clock_wait` again. -/
def Loc.again (l : Loc) : Loc := ⟨.wait .lock, l.i + 1, !l.bit⟩

def threadFunc (self : Fin N) (l : Loc) : Call N :=
  match l.pc with
  | .start => .access fun d => if self.val < d.created then some (d, l.goto (.wait .lock)) else none
  | .wait p =>
    clockWait l.i l (fun ret =>
      if ret then
        if (parent self).isSome then l.goto (.nodeWait .lock) else l.action
      else l.goto (.signal true .lock)) p
  | .nodeWait p =>
    match parent self with
    | some node => nodeWait node l l.action p
    | none => .exit
  | .tick p => clockTick l l.again p
  | .signal last p => nodeSignal self last l (if last then l.goto .leave else l.again) p
  | .leave => .access fun d =>
    some ({ d with exited := Function.update d.exited self true }, l.goto .done)
  | _ => .exit

/-- `main` after its initialisation. It does not look at the result of `clock_wait`. -/
def main (N : ℕ) (l : Loc) : Call N :=
  match l.pc with
  | .create => .access fun d =>
    some (if l.i < N then ({ d with created := l.i + 1 }, { l with i := l.i + 1 })
      else (d, l.goto (.tick .lock)))
  | .tick p => clockTick l (l.goto (.wait .lock)) p
  | .wait p => clockWait (2 ^ N) l (fun _ => l.goto (.stop .lock)) p
  | .stop p => clockStop l ⟨.join, 0, l.bit⟩ p
  | .join => .access fun d =>
    if h : l.i < N then
      if d.exited ⟨l.i, h⟩ then some (d, { l with i := l.i + 1 }) else none
    else some (d, l.goto .done)
  | _ => .exit

def instr : Thread N → Loc → Call N
  | .main, l => main N l
  | .node self, l => threadFunc self l

def entry : Thread N → Loc
  | .main => ⟨.create, 0, false⟩
  | .node _ => ⟨.start, 1, false⟩

/-- The mutex that a thread holds at a place. -/
def holds (t : Thread N) (l : Loc) (m : Mutex N) : Prop :=
  match l.pc, t with
  | .wait p, _ => p ≠ .lock ∧ m = .clock
  | .tick p, _ => (p = .set ∨ p = .unlock) ∧ m = .clock
  | .stop p, .main => (p = .set ∨ p = .unlock) ∧ m = .clock
  | .nodeWait p, .node self => p ≠ .lock ∧ ∃ node, parent self = some node ∧ m = .node node
  | .signal _ p, .node self => (p = .set ∨ p = .unlock) ∧ m = .node self
  | _, _ => False

section Respects
variable {t : Thread N} {l k : Loc} {self node : Fin N} {i : ℕ} {bit : Bool} {m : Mutex N}

@[simp] theorem holds_wait {p : WaitPc} :
    holds t ⟨.wait p, i, bit⟩ m ↔ p ≠ .lock ∧ m = .clock := Iff.rfl

@[simp] theorem holds_tick {p : SetPc} :
    holds t ⟨.tick p, i, bit⟩ m ↔ (p = .set ∨ p = .unlock) ∧ m = .clock := Iff.rfl

@[simp] theorem holds_stop {p : SetPc} :
    holds .main ⟨.stop p, i, bit⟩ m ↔ (p = .set ∨ p = .unlock) ∧ m = .clock := Iff.rfl

@[simp] theorem holds_nodeWait {p : NodeWaitPc} : holds (.node self) ⟨.nodeWait p, i, bit⟩ m ↔
    p ≠ .lock ∧ ∃ node, parent self = some node ∧ m = .node node := Iff.rfl

@[simp] theorem holds_signal {last : Bool} {p : SignalPc} :
    holds (.node self) ⟨.signal last p, i, bit⟩ m ↔ (p = .set ∨ p = .unlock) ∧ m = .node self :=
  Iff.rfl

attribute [local simp] Respects clockWait clockSet nodeWait nodeSignal

/-- The places outside of the critical sections. -/
theorem not_holds (h : l.pc = .create ∨ l.pc = .start ∨ l.pc = .join ∨ l.pc = .leave ∨
    l.pc = .done) : ¬ holds t l m := by
  unfold holds
  rcases h with h | h | h | h | h <;> simp [h]

theorem clockWait_respects {ticks : ℤ} {k : Bool → Loc} {p : WaitPc}
    (hk : ∀ r m, ¬ holds t (k r) m) :
    Respects (holds t) ⟨.wait p, i, bit⟩ (clockWait ticks ⟨.wait p, i, bit⟩ k p) := by
  cases p with
  | test =>
    intro d d' k he m
    cases he
    split <;> simp [Loc.goto]
  | _ => simp [clockWait, Respects, Loc.goto, hk]

theorem clockTick_respects {p : SetPc} (hk : ∀ m, ¬ holds t k m) :
    Respects (holds t) ⟨.tick p, i, bit⟩ (clockTick ⟨.tick p, i, bit⟩ k p) := by
  cases p <;> simp [clockTick, clockSet, Respects, Loc.goto, hk]

theorem clockStop_respects {p : SetPc} (hk : ∀ m : Mutex N, ¬ holds .main k m) :
    Respects (holds (.main : Thread N)) ⟨.stop p, i, bit⟩
      (clockStop ⟨.stop p, i, bit⟩ k p) := by
  cases p <;> simp [clockStop, clockSet, Respects, Loc.goto, hk]

theorem nodeWait_respects {p : NodeWaitPc} (hnode : parent self = some node)
    (hk : ∀ m, ¬ holds (.node self) k m) :
    Respects (holds (.node self)) ⟨.nodeWait p, i, bit⟩
      (nodeWait node ⟨.nodeWait p, i, bit⟩ k p) := by
  cases p with
  | test =>
    intro d d' k he m
    cases he
    split <;> simp [Loc.goto]
  | _ => simp [nodeWait, Respects, hnode, Loc.goto, hk]

theorem nodeSignal_respects {last : Bool} {p : SignalPc} (hk : ∀ m, ¬ holds (.node self) k m) :
    Respects (holds (.node self)) ⟨.signal last p, i, bit⟩
      (nodeSignal self last ⟨.signal last p, i, bit⟩ k p) := by
  cases p <;> simp [nodeSignal, Respects, Loc.goto, hk]

theorem holds_action : ¬ holds t l.action m := by
  unfold Loc.action Loc.goto holds
  cases l.bit <;> cases t <;> simp

theorem main_respects (l : Loc) : Respects (holds (.main : Thread N)) l (main N l) := by
  obtain ⟨pc, i, bit⟩ := l
  cases pc with
  | create =>
    intro d d' k he m
    simp only [Option.some.injEq] at he
    split at he <;> cases he
    · simp [not_holds]
    · simp [not_holds, Loc.goto]
  | tick p => exact clockTick_respects fun m => by simp [Loc.goto]
  | wait p => exact clockWait_respects fun r m => by simp [Loc.goto]
  | stop p => exact clockStop_respects fun m => by simp [not_holds]
  | join =>
    intro d d' k he m
    simp only at he
    split at he
    · split at he <;> cases he
      simp [not_holds]
    · cases he
      simp [not_holds, Loc.goto]
  | start | leave | done => exact fun m => not_holds (by simp)
  | nodeWait p | signal last p => exact fun m => by simp [holds]

theorem threadFunc_respects (l : Loc) : Respects (holds (.node self)) l (threadFunc self l) := by
  obtain ⟨pc, i, bit⟩ := l
  cases pc with
  | start =>
    intro d d' k he m
    simp only at he
    split at he <;> cases he
    simp [not_holds, Loc.goto]
  | wait p =>
    refine clockWait_respects fun r m => ?_
    split
    · split
      · simp [Loc.goto]
      · exact holds_action
    · simp [Loc.goto]
  | nodeWait p =>
    simp only [threadFunc]
    split
    · rename_i node hnode
      exact nodeWait_respects hnode fun m => holds_action
    · rename_i hnode
      intro m
      simp [hnode]
  | tick p => exact clockTick_respects fun m => by simp [Loc.again]
  | signal last p =>
    refine nodeSignal_respects fun m => ?_
    cases last
    · simp [Loc.again]
    · simp [not_holds, Loc.goto]
  | leave =>
    intro d d' k he m
    cases he
    simp [not_holds, Loc.goto]
  | create | join | done => exact fun m => not_holds (by simp)
  | stop p => exact fun m => by simp [holds]

theorem instr_respects (t : Thread N) (l : Loc) : Respects (holds t) l (instr t l) := by
  cases t with
  | main => exact main_respects l
  | node self => exact threadFunc_respects l

end Respects

def graph (N : ℕ) : Program (Thread N) (Mutex N) (Data N) Loc where
  entry := entry
  instr := instr
  holds := holds
  entry_free t m := by cases t <;> simp [entry, holds]
  respects := instr_respects

def start (N : ℕ) : Data N := ⟨0, fun _ => false, 0, fun _ => false⟩

/-- The `N` nodes chained as in `main`. -/
def system (N : ℕ) := (graph N).system (start N)

end LinuxSummer.ClockGraph
