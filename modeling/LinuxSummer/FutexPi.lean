import Mathlib.Data.Int.Notation
import LinuxSummer.FutexModel

/-! The two protocols of hw2/mutex.h under one condition variable implementation. The PI mutex
keeps the id of its owner in the word; `waiters` are the threads that the kernel holds in
`FUTEX_LOCK_PI2`. -/
namespace LinuxSummer.Futex

def prioNone : ℤ := 0
/-- The functions that `struct Mutex` points to. `mutex_init` sets the three together. -/
inductive Methods where
  | default
  | pi
deriving DecidableEq

def futexWaiters : Word := 0x80000000#32
def futexTidMask : Word := 0x3fffffff#32

/-- What `gettid` returns: a positive id below `2 ^ 29`. -/
@[ext] structure Tid where
  word : Word
  pos : 0 < word.toNat
  lt : word.toNat < 2 ^ 29

structure PiShared (T C : Type*) extends Shared T C where
  /-- Blocked in `FUTEX_LOCK_PI2` on `mutex->state`. -/
  waiters : List T

inductive PiAct (T C : Type*) where
  /-- A call, an access in user space, or a call of `FUTEX_WAIT`, `FUTEX_WAKE`, `FUTEX_REQUEUE`. -/
  | act (a : Act T C)
  /-- `FUTEX_LOCK_PI2`; whether `FUTEX_WAITERS` is set with the id of the caller. -/
  | lockPi (mark : Bool)
  /-- `FUTEX_LOCK_PI2` returns an error, which `futex_lock_pi` does not report. -/
  | lockError
  /-- `FUTEX_UNLOCK_PI`, which may hand the mutex to `top`. -/
  | unlockPi (top : Option T) (mark : Bool)

variable {T C : Type*} [DecidableEq T] [DecidableEq C]

/-- The word of a mutex that the thread with this id owns. -/
def Tid.owned (id : Tid) (mark : Bool) : Word :=
  if mark then id.word ||| futexWaiters else id.word

def PiShared.store (g : PiShared T C) (w : Word) : PiShared T C := { g with state := w }

/-- A step on the part of the state that the default mutex has as well. -/
def PiShared.lift (g : PiShared T C) (r : Option (Shared T C × Local C)) :
    Option (PiShared T C × Local C) :=
  r.map fun r => ({ g with toShared := r.1 }, r.2)

/-- The step at the program counter in user space. `mutex_trylock_pi` and the fast path of
`mutex_unlock_pi` are one compare-and-exchange each. -/
def runPi (tid : T → Tid) (t : T) (g : PiShared T C) (l : Local C) :
    Option (PiShared T C × Local C) :=
  match l.pc with
  | .tryLoad k =>
    if g.state = 0 then some (g.store (tid t).word, tryDone l k) else some (g, tryFail l k)
  | .lockSleep k => if t ∈ g.waiters then none else some (g, lockDone l k)
  | .unlockXchg k =>
    if g.state = (tid t).word then some (g.store 0, unlockDone { l with holds := false } k)
    else some (g, l.goto (.unlockWake k))
  | .tryOr _ | .lockXchg _ | .lockWait _ | .unlockWake _ => none
  | _ => g.lift (run t g.toShared l)

/-- `futex_lock_pi`: take a mutex without an owner, else wait for it. The owner itself gets an
error (`EDEADLK`). -/
def futexLockPi (tid : T → Tid) (t : T) (mark : Bool) (g : PiShared T C) (l : Local C) :
    Option (PiShared T C × Local C) :=
  match l.pc with
  | .lockXchg k =>
    if g.state &&& futexTidMask = 0 then some (g.store ((tid t).owned mark), lockDone l k)
    else if g.state &&& futexTidMask = (tid t).word then none
    else some ({ g.store (g.state ||| futexWaiters) with waiters := g.waiters ++ [t] },
      l.goto (.lockSleep k))
  | _ => none

/-- `futex_lock_pi` fails: the word stays as it is and `mutex_lock_pi` returns all the same. -/
def futexLockError (t : T) (g : PiShared T C) (l : Local C) : Option (PiShared T C × Local C) :=
  match l.pc with
  | .lockXchg k => some (g, lockDone l k)
  | .lockSleep k =>
    if t ∈ g.waiters then some ({ g with waiters := g.waiters.erase t }, lockDone l k) else none
  | _ => none

/-- `futex_unlock_pi`: an error (`EPERM`) for a caller that is not the owner, else the mutex goes
to a waiter when there is one. -/
def futexUnlockPi (tid : T → Tid) (t : T) (top : Option T) (mark : Bool) (g : PiShared T C)
    (l : Local C) : Option (PiShared T C × Local C) :=
  match l.pc with
  | .unlockWake k =>
    let l' := unlockDone { l with holds := false } k
    if g.state &&& futexTidMask ≠ (tid t).word then
      if top.isNone then some (g, l') else none
    else
      match top with
      | none => if g.waiters = [] then some (g.store 0, l') else none
      | some w =>
        if w ∈ g.waiters then
          some ({ g.store ((tid w).owned mark) with waiters := g.waiters.erase w }, l')
        else none
  | _ => none

/-- The step of a thread on a PI mutex. No thread sleeps on its word in `FUTEX_WAIT`, except
after a requeue. -/
def nextPi (p : WakePolicy) (tid : T → Tid) (t : T) (g : PiShared T C) (l : Local C) :
    PiAct T C → Option (PiShared T C × Local C)
  | .act .run => runPi tid t g l
  | .act (.wake w) =>
    match l.pc with
    | .unlockWake _ => none
    | _ => g.lift (wake p w g.toShared l)
  | .act .spurious =>
    match l.pc with
    | .lockSleep _ => none
    | _ => g.lift (spurious t g.toShared l)
  | .act (.call op) => g.lift (next p t g.toShared l (.call op))
  | .lockPi mark => futexLockPi tid t mark g l
  | .lockError => futexLockError t g l
  | .unlockPi top mark => futexUnlockPi tid t top mark g l

/-- The step of a thread on a mutex with the given methods. -/
def nextBy (p : WakePolicy) (tid : T → Tid) (m : Methods) (t : T) (g : PiShared T C) (l : Local C)
    (a : PiAct T C) : Option (PiShared T C × Local C) :=
  match m, a with
  | .default, .act a => g.lift (next p t g.toShared l a)
  | .default, _ => none
  | .pi, a => nextPi p tid t g l a

/-- After `mutex_init` and `cond_init`, no thread inside an operation. -/
def startBy (T C : Type*) : Config T (PiShared T C) (Local C) :=
  ⟨⟨(start T C).shared, []⟩, (start T C).thread⟩

/-- Any number of threads with their ids over one mutex of either protocol. -/
def systemBy (T C : Type*) [DecidableEq T] [DecidableEq C] (p : WakePolicy) (tid : T → Tid)
    (m : Methods) : System (Config T (PiShared T C) (Local C)) (T × PiAct T C) :=
  Threads.system ⟨nextBy p tid m⟩ (· = startBy T C)

section Bits
variable (id id' : Tid)

theorem toNat_and_tidMask (w : Word) : (w &&& futexTidMask).toNat = w.toNat % 2 ^ 30 := by
  rw [BitVec.toNat_and]
  exact Nat.and_two_pow_sub_one_eq_mod w.toNat 30

/-- The owner is read off the word. -/
theorem owned_tidMask (mark : Bool) : id.owned mark &&& futexTidMask = id.word := by
  have hlt := id.lt
  have hid : id.word.toNat % 2 ^ 30 = id.word.toNat := Nat.mod_eq_of_lt (by omega)
  apply BitVec.eq_of_toNat_eq
  rw [toNat_and_tidMask]
  cases mark with
  | false => exact hid
  | true =>
    have hw : futexWaiters.toNat % 2 ^ 30 = 0 := by decide
    simp only [Tid.owned, if_true, BitVec.toNat_or]
    rw [Nat.or_mod_two_pow, hid, hw, Nat.or_zero]

theorem Tid.word_ne_zero : id.word ≠ 0 := by
  intro h
  have hpos := id.pos
  rw [h] at hpos
  exact absurd hpos (by decide)

theorem owned_ne_zero (mark : Bool) : id.owned mark ≠ 0 := by
  intro h
  have hw := owned_tidMask id mark
  rw [h] at hw
  exact id.word_ne_zero (hw.symm.trans (by decide))

theorem owned_or_waiters (mark : Bool) : id.owned mark ||| futexWaiters = id.owned true := by
  cases mark with
  | false => rfl
  | true => simp only [Tid.owned, if_true, BitVec.or_assoc, BitVec.or_self]

/-- Setting bits that are set already changes nothing. -/
theorem or_eq_left_iff (w b : Word) : w ||| b = w ↔ b &&& w = b := by
  constructor
  · intro h
    rw [← h]
    ext i
    simp only [BitVec.getElem_and, BitVec.getElem_or]
    cases b[i] <;> simp
  · intro h
    rw [← h]
    ext i
    simp only [BitVec.getElem_and, BitVec.getElem_or]
    cases w[i] <;> simp

theorem owned_or_of_bit {b : Word} (mark : Bool) (h : b &&& id.word = b) :
    id.owned mark ||| b = id.owned mark := by
  have hw := (or_eq_left_iff id.word b).mpr h
  cases mark with
  | false => exact hw
  | true =>
    simp only [Tid.owned, if_true]
    rw [BitVec.or_assoc, BitVec.or_comm futexWaiters, ← BitVec.or_assoc, hw]

end Bits

end LinuxSummer.Futex
