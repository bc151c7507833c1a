import Mathlib.Algebra.Group.Nat.Defs
import Mathlib.Data.List.Nodup
import LinuxSummer.Machine

/-! The default-protocol mutex of hw2/mutex.h with the condition variables of hw2/cond.h,
over the futex calls of hw2/futex.h. Every access to an atomic is one step, and so is
every futex system call. Fences and `spin_hint` do nothing under sequential consistency. -/
namespace LinuxSummer.Futex

abbrev Word := BitVec 32

def mutexLocked : Word := 1#32 <<< 0
def mutexSleeping : Word := 1#32 <<< 1
def mutexSpins : ℕ := 128
def condSpins : ℕ := 128

/-- The words that threads sleep on: `mutex->state`, and `seq` of each condition variable. -/
inductive FutexAddr (C : Type*) where
  | mutex
  | cond (c : C)
deriving DecidableEq

/-- Which sleeper a wake-up takes from a futex queue, kept in order of arrival. -/
inductive WakePolicy where
  | any
  | longest

def WakePolicy.admits {T : Type*} : WakePolicy → List T → T → Prop
  | .any, q, w => w ∈ q
  | .longest, q, w => q.head? = some w

instance {T : Type*} [DecidableEq T] (p : WakePolicy) (q : List T) (w : T) :
    Decidable (p.admits q w) :=
  match p with
  | .any => inferInstanceAs (Decidable (w ∈ q))
  | .longest => inferInstanceAs (Decidable (q.head? = some w))

/-- The call that `mutex_lock` was entered from: by the user, or by `cond_wait` when its
spin loop saw a new `seq` or after its `futex_wait`. -/
inductive LockFrom (C : Type*) where
  | call
  | condSpun (c : C)
  | condWaited (c : C)
deriving DecidableEq

/-- `mutex_trylock` is called by the user or in turn `i` of the loop in `mutex_lock`. -/
inductive TryFrom (C : Type*) where
  | call
  | spin (i : ℕ) (k : LockFrom C)
deriving DecidableEq

inductive UnlockFrom (C : Type*) where
  | call
  | cond (c : C) (seq : Word)
deriving DecidableEq

/-- The next atomic access of a thread, with the local variables that are live there. -/
inductive Pc (C : Type*) where
  | idle
  | tryLoad (k : TryFrom C)
  | tryOr (k : TryFrom C)
  | lockXchg (k : LockFrom C)
  | lockWait (k : LockFrom C)
  | lockSleep (k : LockFrom C)
  | unlockXchg (k : UnlockFrom C)
  | unlockWake (k : UnlockFrom C)
  | condLoad (c : C)
  | condSpin (c : C) (seq : Word) (i : ℕ)
  | condFutex (c : C) (seq : Word)
  | condSleep (c : C) (seq : Word)
  | condOr (c : C)
  | signalAdd (c : C)
  | signalWake (c : C)
  | broadcastAdd (c : C)
  | broadcastRequeue (c : C)
deriving DecidableEq

inductive Op (C : Type*) where
  | trylock
  | lock
  | unlock
  | condWait (c : C)
  | condSignal (c : C)
  | condBroadcast (c : C)

inductive Act (T C : Type*) where
  /-- An idle thread calls an operation. -/
  | call (op : Op C)
  /-- The next atomic access; a wake-up that finds no sleeper; a woken thread going on. -/
  | run
  /-- `futex_wake` or `futex_requeue` wakes `w`. -/
  | wake (w : T)
  /-- `futex_wait` returns although nobody woke the sleeper. -/
  | spurious

structure Shared (T C : Type*) where
  state : Word
  seq : C → Word
  queue : FutexAddr C → List T
  /-- How often `seq` has been incremented, without wrapping. -/
  adds : C → ℕ

structure Local (C : Type*) where
  pc : Pc C
  /-- Between the acquisition of the mutex and its release. -/
  holds : Bool
  /-- Woken from a futex queue, `MUTEX_SLEEPING` not set since. -/
  woken : Bool
  /-- `adds` when `cond_wait` read `seq`. -/
  since : ℕ
  /-- The number of calls of `cond_wait` so far. -/
  waits : ℕ

variable {T C : Type*} [DecidableEq T] [DecidableEq C]

def Local.goto (l : Local C) (pc : Pc C) : Local C := { l with pc := pc }

def Shared.enqueue (g : Shared T C) (f : FutexAddr C) (t : T) : Shared T C :=
  { g with queue := Function.update g.queue f (g.queue f ++ [t]) }

/-- Take `t` off the queue of `f`. -/
def Shared.dequeue (g : Shared T C) (f : FutexAddr C) (t : T) : Shared T C :=
  { g with queue := Function.update g.queue f ((g.queue f).erase t) }

/-- `futex_requeue(&cond->seq, 1, &mutex->state)` that wakes `w`: the other sleepers move. -/
def Shared.requeue (g : Shared T C) (c : C) (w : T) : Shared T C :=
  { g with queue := Function.update (Function.update g.queue .mutex
      (g.queue .mutex ++ (g.queue (.cond c)).erase w)) (.cond c) [] }

/-- `mutex_trylock` returned false. -/
def tryFail (l : Local C) : TryFrom C → Local C
  | .call => l.goto .idle
  | .spin i k => if i + 1 < mutexSpins then l.goto (.tryLoad (.spin (i + 1) k))
      else l.goto (.lockXchg k)

/-- `mutex_lock` returned: only after the `futex_wait` of `cond_wait` is there more to do. -/
def lockDone (l : Local C) : LockFrom C → Local C
  | .call => { l with pc := .idle, holds := true }
  | .condSpun _ => { l with pc := .idle, holds := true }
  | .condWaited c => { l with pc := .condOr c, holds := true }

/-- `mutex_trylock` returned true. -/
def tryDone (l : Local C) : TryFrom C → Local C
  | .call => { l with pc := .idle, holds := true }
  | .spin _ k => lockDone l k

def unlockDone (l : Local C) : UnlockFrom C → Local C
  | .call => l.goto .idle
  | .cond c seq => l.goto (.condSpin c seq 0)

/-- Enter an operation. `mutex_unlock` and `cond_wait` are called by the holder. -/
def enter (l : Local C) : Op C → Option (Local C)
  | .trylock => some (l.goto (.tryLoad .call))
  | .lock => some (l.goto (.tryLoad (.spin 0 .call)))
  | .unlock => if l.holds then some (l.goto (.unlockXchg .call)) else none
  | .condWait c => if l.holds then some { l with pc := .condLoad c, waits := l.waits + 1 }
      else none
  | .condSignal c => some (l.goto (.signalAdd c))
  | .condBroadcast c => some (l.goto (.broadcastAdd c))

/-- The step of thread `t` at its program counter. -/
def run (t : T) (g : Shared T C) (l : Local C) : Option (Shared T C × Local C) :=
  match l.pc with
  | .idle => none
  | .tryLoad k =>
    if g.state &&& mutexLocked ≠ 0 then some (g, tryFail l k) else some (g, l.goto (.tryOr k))
  | .tryOr k =>
    let g' := { g with state := g.state ||| mutexLocked }
    if g.state &&& mutexLocked ≠ 0 then some (g', tryFail l k) else some (g', tryDone l k)
  | .lockXchg k =>
    let g' := { g with state := mutexLocked ||| mutexSleeping }
    let l' := { l with woken := false }
    if g.state &&& mutexLocked ≠ 0 then some (g', l'.goto (.lockWait k))
    else some (g', lockDone l' k)
  | .lockWait k =>
    if g.state = mutexLocked ||| mutexSleeping then
      some (g.enqueue .mutex t, l.goto (.lockSleep k))
    else some (g, l.goto (.lockXchg k))
  | .lockSleep k =>
    if t ∈ g.queue .mutex then none else some (g, { l with pc := .lockXchg k, woken := true })
  | .unlockXchg k =>
    let g' := { g with state := 0 }
    let l' := { l with holds := false }
    if g.state &&& mutexSleeping ≠ 0 then some (g', l'.goto (.unlockWake k))
    else some (g', unlockDone l' k)
  | .unlockWake k => if g.queue .mutex = [] then some (g, unlockDone l k) else none
  | .condLoad c => some (g, { l with pc := .unlockXchg (.cond c (g.seq c)), since := g.adds c })
  | .condSpin c seq i =>
    if g.seq c ≠ seq then some (g, l.goto (.tryLoad (.spin 0 (.condSpun c))))
    else if i + 1 < condSpins then some (g, l.goto (.condSpin c seq (i + 1)))
    else some (g, l.goto (.condFutex c seq))
  | .condFutex c seq =>
    if g.seq c = seq then some (g.enqueue (.cond c) t, l.goto (.condSleep c seq))
    else some (g, l.goto (.tryLoad (.spin 0 (.condWaited c))))
  | .condSleep c _ =>
    if t ∈ g.queue (.cond c) ∨ t ∈ g.queue .mutex then none
    else some (g, { l with pc := .tryLoad (.spin 0 (.condWaited c)), woken := true })
  | .condOr _ =>
    some ({ g with state := g.state ||| mutexSleeping }, { l with pc := .idle, woken := false })
  | .signalAdd c =>
    some ({ g with seq := Function.update g.seq c (g.seq c + 1)
                   adds := Function.update g.adds c (g.adds c + 1) }, l.goto (.signalWake c))
  | .signalWake c => if g.queue (.cond c) = [] then some (g, l.goto .idle) else none
  | .broadcastAdd c =>
    some ({ g with seq := Function.update g.seq c (g.seq c + 1)
                   adds := Function.update g.adds c (g.adds c + 1) },
      l.goto (.broadcastRequeue c))
  | .broadcastRequeue c => if g.queue (.cond c) = [] then some (g, l.goto .idle) else none

/-- A futex call of the thread wakes `w`. -/
def wake (p : WakePolicy) (w : T) (g : Shared T C) (l : Local C) :
    Option (Shared T C × Local C) :=
  match l.pc with
  | .unlockWake k =>
    if p.admits (g.queue .mutex) w then some (g.dequeue .mutex w, unlockDone l k) else none
  | .signalWake c =>
    if p.admits (g.queue (.cond c)) w then some (g.dequeue (.cond c) w, l.goto .idle) else none
  | .broadcastRequeue c =>
    if p.admits (g.queue (.cond c)) w then some (g.requeue c w, l.goto .idle) else none
  | _ => none

/-- `futex_wait` of a sleeping thread returns by itself. -/
def spurious (t : T) (g : Shared T C) (l : Local C) : Option (Shared T C × Local C) :=
  match l.pc with
  | .lockSleep k =>
    if t ∈ g.queue .mutex then some (g.dequeue .mutex t, l.goto (.lockXchg k)) else none
  | .condSleep c _ =>
    if t ∈ g.queue (.cond c) ∨ t ∈ g.queue .mutex then
      some ((g.dequeue (.cond c) t).dequeue .mutex t,
        l.goto (.tryLoad (.spin 0 (.condWaited c))))
    else none
  | _ => none

def next (p : WakePolicy) (t : T) (g : Shared T C) (l : Local C) :
    Act T C → Option (Shared T C × Local C)
  | .call op => if l.pc = .idle then (enter l op).map fun l' => (g, l') else none
  | .run => run t g l
  | .wake w => wake p w g l
  | .spurious => spurious t g l

/-- Any number of threads over one mutex and its condition variables. -/
def threads (p : WakePolicy) : Threads T (Shared T C) (Local C) (Act T C) where
  next := next p

/-- After `mutex_init` without attributes and `cond_init`, no thread inside an operation. -/
def start (T C : Type*) : Config T (Shared T C) (Local C) :=
  ⟨⟨0, fun _ => 0, fun _ => [], fun _ => 0⟩, fun _ => ⟨.idle, false, false, 0, 0⟩⟩

/-- The system of hw2/mutex.h and hw2/cond.h under a wake-up policy of the kernel. -/
def system (T C : Type*) [DecidableEq T] [DecidableEq C] (p : WakePolicy) :
    System (Config T (Shared T C) (Local C)) (T × Act T C) :=
  (threads p).system (· = start T C)

end LinuxSummer.Futex
