import LinuxSummer.Monitors
import LinuxSummer.QsortModel

/-! `qsort_mt` of hw1/qsort-mt.c: it sets up a pool of threads, hands the array to the first one and
waits for all of them. Every statement on shared data is one step, and every call of a mutex or of a
condition variable; a thread in `qsort_algo` makes one comparison or exchange a step. The mutexes and
condition variables are correct; the calls that initialise something may fail. -/
namespace LinuxSummer.Pool
open Monitor Qsort

/-- `worker i` is the thread of `pool[i]`. -/
inductive Thread where
  | main
  | worker (i : ℕ)
deriving DecidableEq

/-- `st i` is `mtx_st` of `pool[i]`, with its condition variable `cond_st`. -/
inductive Mutex where
  | al
  | st (i : ℕ)
deriving DecidableEq

inductive ThreadState where
  | idle
  | work
  | term
deriving DecidableEq

/-- `struct qsort`. -/
structure Slot where
  st : ThreadState
  a : ℤ
  n : ℤ

inductive Resource where
  | mtxAl
  | pool
  | mtxSt (i : ℕ)
  | condSt (i : ℕ)
  | thread (i : ℕ)
deriving DecidableEq

/-- The fields of `struct common` that change after the first hand-out, the array in the memory, and
what has become of the threads and of all that is initialised. -/
structure Data (B : Type) where
  pool : ℕ → Slot
  nthreads : ℤ
  idlethreads : ℤ
  mem : ℤ → B
  exited : ℕ → Bool
  /-- How often each resource was initialised, allocated or created. -/
  acquired : Resource → ℕ
  /-- How often it was destroyed, freed or joined. -/
  released : Resource → ℕ
  /-- The indices of the elements that a thread has been given and has not handed on. No variable of
  the code. -/
  part : ℕ → ℤ × ℤ

/-- The arguments of `qsort_mt`, and `qsort` of the C library on them as a change of the memory. -/
structure Args (B : Type) where
  a : ℤ
  n : ℕ
  es : ℕ
  cmp : (Fin es → B) → (Fin es → B) → ℤ
  maxthreads : ℕ
  forkelem : ℕ
  qsort : (ℤ → B) → ℤ → B

/-! ### Places -/

/-- The first hand-out. -/
inductive HandPc where
  | lock
  | setA
  | setN
  | setSt
  | count
  | signal
  | unlock
deriving DecidableEq

/-- The store of `ts_term` with its signal. -/
inductive TermPc where
  | lock
  | set
  | signal
  | unlock
deriving DecidableEq

inductive MainPc where
  | start
  | initAl
  | calloc
  /-- The head of the loop over `islot`. -/
  | slots
  | initMutex
  | initCond
  /-- `pthread_mutex_destroy` after `pthread_cond_init` has failed. -/
  | dropMutex
  | setIdle
  | create
  /-- The two calls after `pthread_create` has failed. -/
  | undoMutex
  | undoCond
  | common
  | hand (p : HandPc)
  /-- The head of the loop over `i`, at the label `f3`. -/
  | joins
  | bail (p : TermPc)
  | join
  | destroyMutex
  | destroyCond
  | free
  | destroyAl
  | report
  | qsort
  | done
deriving DecidableEq

/-- A place in `qsort_mt` with its local variables. -/
structure MainLoc where
  pc : MainPc
  islot : ℕ
  i : ℕ
  bailout : Bool

/-- The wait for work. -/
inductive WaitPc where
  | lock
  | test
  | cond
  | unlock
deriving DecidableEq

/-- `allocate_thread`, and what `qsort_algo` does with the thread. -/
inductive AllocPc where
  | loop
  | test
  | decr
  | lockSt
  | setWork
  | unlockAl
  | setA
  | setN
  | signal
  | unlockSt
  /-- No thread is available. -/
  | fail
deriving DecidableEq

/-- After `qsort_algo`. -/
inductive FinishPc where
  | setIdle
  | count
  | test
  | unlock
deriving DecidableEq

/-- A place in `qsort_thread`: `sort t` is in `qsort_algo` with `t` still to be done. -/
inductive WorkerPc where
  | start
  | wait (p : WaitPc)
  | check
  | assert
  | load
  | sort (t : SortProg Unit)
  | alloc (p : AllocPc) (i : ℕ) (a n : ℤ) (k : Bool → SortProg Unit)
  | finish (p : FinishPc)
  /-- The head of the loop of the last thread. -/
  | last (i : ℕ)
  | term (p : TermPc) (i : ℕ)
  | lastUnlock
  | leave
  | done
  /-- The assertion has failed. -/
  | aborted

inductive Loc where
  | main (l : MainLoc)
  | worker (pc : WorkerPc)

abbrev Call (B : Type) := Instr Mutex (Data B) Loc

/-! ### Statements -/

section Statements
variable {B : Type} (x : Args B) (d : Data B)

def Data.setSt (i : ℕ) (st : ThreadState) : Data B :=
  { d with pool := Function.update d.pool i { d.pool i with st := st } }

def Data.setA (i : ℕ) (a : ℤ) : Data B :=
  { d with pool := Function.update d.pool i { d.pool i with a := a } }

def Data.setN (i : ℕ) (n : ℤ) : Data B :=
  { d with pool := Function.update d.pool i { d.pool i with n := n } }

def Data.acquire (r : Resource) : Data B :=
  { d with acquired := Function.update d.acquired r (d.acquired r + 1) }

def Data.release (r : Resource) : Data B :=
  { d with released := Function.update d.released r (d.released r + 1) }

/-- The thread `self` hands the `n` elements at `a` to the thread `i`; it keeps those after them. -/
def Data.handOver (self i : ℕ) (a n : ℤ) : Data B :=
  let lo := (a - x.a) / x.es
  let part := Function.update d.part i (lo, lo + n)
  { d with part := Function.update part self (lo + n, (d.part self).2) }

end Statements

/-- A statement that does not block. -/
def statement {B : Type} (f : Data B → Data B × Loc) : Call B := .access fun d => some (f d)

/-- `st = ts_term` of `pool[i]`, under its mutex and with a signal. -/
def setTerm {B : Type} (i : ℕ) (place : TermPc → Loc) (k : Loc) : TermPc → Call B
  | .lock => .lock (.st i) (place .set)
  | .set => statement fun d => (d.setSt i .term, place .signal)
  | .signal => .signal (.st i) (place .unlock)
  | .unlock => .unlock (.st i) k

/-! ### `qsort_mt` -/

section Main
variable {B : Type} (x : Args B)

def MainLoc.goto (l : MainLoc) (pc : MainPc) : Loc := .main { l with pc := pc }

/-- The label `f3`. -/
def MainLoc.cleanUp (l : MainLoc) : Loc := .main { l with pc := .joins, i := 0 }

def handOut (l : MainLoc) : HandPc → Call B
  | .lock => .lock (.st 0) (l.goto (.hand .setA))
  | .setA => statement fun d => (d.setA 0 x.a, l.goto (.hand .setN))
  | .setN => statement fun d => (d.setN 0 x.n, l.goto (.hand .setSt))
  | .setSt => statement fun d =>
    ({ (d.setSt 0 .work) with part := Function.update d.part 0 (0, x.n) }, l.goto (.hand .count))
  | .count => statement fun d =>
    ({ d with idlethreads := d.idlethreads - 1 }, l.goto (.hand .signal))
  | .signal => .signal (.st 0) (l.goto (.hand .unlock))
  | .unlock => .unlock (.st 0) l.cleanUp

/-- `qsort_mt`. A call that may fail gets whether it does not. -/
def qsortMt (l : MainLoc) : Call B :=
  match l.pc with
  | .start => statement fun d => (d, l.goto (if x.n < x.forkelem then .qsort else .initAl))
  | .initAl => .attempt fun ok d =>
    if ok then (d.acquire .mtxAl, l.goto .calloc) else (d, l.goto .qsort)
  | .calloc => .attempt fun ok d =>
    if ok then ({ (d.acquire .pool) with pool := fun _ => ⟨.idle, 0, 0⟩ },
      .main { l with pc := .slots, islot := 0 })
    else (d, l.goto .destroyAl)
  | .slots => statement fun d => (d, l.goto (if l.islot < x.maxthreads then .initMutex else .common))
  | .initMutex => .attempt fun ok d =>
    if ok then (d.acquire (.mtxSt l.islot), l.goto .initCond) else (d, l.cleanUp)
  | .initCond => .attempt fun ok d =>
    if ok then (d.acquire (.condSt l.islot), l.goto .setIdle) else (d, l.goto .dropMutex)
  | .dropMutex => statement fun d => (d.release (.mtxSt l.islot), l.cleanUp)
  | .setIdle => statement fun d => (d.setSt l.islot .idle, l.goto .create)
  | .create => .attempt fun ok d =>
    if ok then (d.acquire (.thread l.islot), .main { l with pc := .slots, islot := l.islot + 1 })
    else (d, l.goto .undoMutex)
  | .undoMutex => statement fun d => (d.release (.mtxSt l.islot), l.goto .undoCond)
  | .undoCond => statement fun d => (d.release (.condSt l.islot), l.cleanUp)
  | .common => statement fun d =>
    ({ d with nthreads := x.maxthreads, idlethreads := x.maxthreads },
      .main { l with pc := .hand .lock, bailout := false })
  | .hand p => handOut x l p
  | .joins => statement fun d =>
    (d, l.goto (if l.i < l.islot then (if l.bailout then .bail .lock else .join) else .free))
  | .bail p => setTerm l.i (fun p => l.goto (.bail p)) (l.goto .join) p
  | .join => .access fun d =>
    if d.exited l.i then some (d.release (.thread l.i), l.goto .destroyMutex) else none
  | .destroyMutex => statement fun d => (d.release (.mtxSt l.i), l.goto .destroyCond)
  | .destroyCond => statement fun d =>
    (d.release (.condSt l.i), .main { l with pc := .joins, i := l.i + 1 })
  | .free => statement fun d => (d.release .pool, l.goto .destroyAl)
  | .destroyAl => statement fun d => (d.release .mtxAl, l.goto .report)
  | .report => statement fun d => (d, l.goto (if l.bailout then .qsort else .done))
  | .qsort => statement fun d => ({ d with mem := x.qsort d.mem }, l.goto .done)
  | .done => .exit

end Main

/-! ### `qsort_thread` -/

section Worker
variable {B : Type} (x : Args B) (self : ℕ)

def waitForWork : WaitPc → Call B
  | .lock => .lock (.st self) (.worker (.wait .test))
  | .test => statement fun d =>
    (d, .worker (.wait (if (d.pool self).st = .idle then .cond else .unlock)))
  | .cond => .wait (.st self) (.worker (.wait .test))
  | .unlock => .unlock (.st self) (.worker .check)

/-- The next call of `qsort_algo`. `mtx_al` is taken in `allocate_thread`, and at the end. -/
def sortStep : SortProg Unit → Call B
  | .ret _ => .lock .al (.worker (.finish .setIdle))
  | .op (.allocate a n) k => .lock .al (.worker (.alloc .loop 0 a n k))
  | .op o k => statement fun d =>
    let r := onMemory x.es (swaptype x.a x.es) x.cmp o d.mem
    ({ d with mem := r.2 }, .worker (.sort (k r.1)))
  | .stuck => .access fun _ => none

/-- `allocate_thread`, which gives the `n` elements at `a` to a thread, or fails. -/
def allocate (i : ℕ) (a n : ℤ) (k : Bool → SortProg Unit) : AllocPc → Call B
  | .loop => statement fun d =>
    (d, .worker (.alloc (if i < d.nthreads then .test else .fail) i a n k))
  | .test => statement fun d =>
    (d, .worker (if (d.pool i).st = .idle then .alloc .decr i a n k
      else .alloc .loop (i + 1) a n k))
  | .decr => statement fun d =>
    ({ d with idlethreads := d.idlethreads - 1 }, .worker (.alloc .lockSt i a n k))
  | .lockSt => .lock (.st i) (.worker (.alloc .setWork i a n k))
  | .setWork => statement fun d =>
    ((d.setSt i .work).handOver x self i a n, .worker (.alloc .unlockAl i a n k))
  | .unlockAl => .unlock .al (.worker (.alloc .setA i a n k))
  | .setA => statement fun d => (d.setA i a, .worker (.alloc .setN i a n k))
  | .setN => statement fun d => (d.setN i n, .worker (.alloc .signal i a n k))
  | .signal => .signal (.st i) (.worker (.alloc .unlockSt i a n k))
  | .unlockSt => .unlock (.st i) (.worker (.sort (k true)))
  | .fail => .unlock .al (.worker (.sort (k false)))

/-- The end of a batch of work; the thread that makes all of them idle is the last one. -/
def finish : FinishPc → Call B
  | .setIdle => statement fun d => (d.setSt self .idle, .worker (.finish .count))
  | .count => statement fun d =>
    ({ d with idlethreads := d.idlethreads + 1 }, .worker (.finish .test))
  | .test => statement fun d =>
    (d, .worker (if d.idlethreads = d.nthreads then .last 0 else .finish .unlock))
  | .unlock => .unlock .al (.worker (.wait .lock))

/-- `qsort_thread`. The recursion of `qsort_algo` gets fuel enough for the number of elements. -/
def qsortThread : WorkerPc → Call B
  | .start => .access fun d =>
    if d.acquired (.thread self) = 0 then none else some (d, .worker (.wait .lock))
  | .wait p => waitForWork self p
  | .check => statement fun d => (d, .worker (if (d.pool self).st = .term then .leave else .assert))
  | .assert => statement fun d => (d, .worker (if (d.pool self).st = .work then .load else .aborted))
  | .load => statement fun d => (d, .worker (.sort (qsortAlgo x.es x.forkelem
      ((d.pool self).n.toNat + 1) (d.pool self).a (d.pool self).n)))
  | .sort t => sortStep x t
  | .alloc p i a n k => allocate x self i a n k p
  | .finish p => finish self p
  | .last i => statement fun d => (d, .worker (
      if i < d.nthreads then (if i = self then .last (i + 1) else .term .lock i) else .lastUnlock))
  | .term p i => setTerm i (fun p => .worker (.term p i)) (.worker (.last (i + 1))) p
  | .lastUnlock => .unlock .al (.worker .leave)
  | .leave => statement fun d =>
    ({ d with exited := Function.update d.exited self true }, .worker .done)
  | .done => .exit
  | .aborted => .exit

end Worker

section Pool
variable {B : Type} (x : Args B)

def instr : Thread → Loc → Call B
  | .main, .main l => qsortMt x l
  | .worker self, .worker pc => qsortThread x self pc
  | _, _ => .exit

def entry : Thread → Loc
  | .main => .main ⟨.start, 0, 0, true⟩
  | .worker _ => .worker .start

/-- The mutexes that a thread holds at a place. -/
def holds : Thread → Loc → Mutex → Prop
  | .main, .main ⟨.hand p, _, _, _⟩, m => p ≠ .lock ∧ m = .st 0
  | .main, .main ⟨.bail p, _, i, _⟩, m => p ≠ .lock ∧ m = .st i
  | .worker self, .worker (.wait p), m => p ≠ .lock ∧ m = .st self
  | .worker _, .worker (.alloc p i _ _ _), m =>
    match p with
    | .setWork | .unlockAl => m = .al ∨ m = .st i
    | .setA | .setN | .signal | .unlockSt => m = .st i
    | _ => m = .al
  | .worker _, .worker (.finish _), m => m = .al
  | .worker _, .worker (.last _), m => m = .al
  | .worker _, .worker (.term p i), m => m = .al ∨ p ≠ .lock ∧ m = .st i
  | .worker _, .worker .lastUnlock, m => m = .al
  | _, _, _ => False

/-- The pool entry that the call at a place is about. -/
def touches : Thread → Loc → Option ℕ
  | .main, .main l =>
    match l.pc with
    | .initMutex | .initCond | .dropMutex | .setIdle | .create | .undoMutex | .undoCond =>
      some l.islot
    | .hand _ => some 0
    | .bail _ | .join | .destroyMutex | .destroyCond => some l.i
    | _ => none
  | .worker self, .worker pc =>
    match pc with
    | .start | .wait _ | .check | .assert | .load | .sort _ | .finish .setIdle => some self
    | .alloc .loop _ _ _ _ | .alloc .decr _ _ _ _ | .alloc .unlockAl _ _ _ _
      | .alloc .fail _ _ _ _ => none
    | .alloc _ i _ _ _ | .term _ i => some i
    | _ => none
  | _, _ => none

end Pool

section Respects
variable {B : Type} {x : Args B} {t : Thread} {l : Loc} {m : Mutex} {self : ℕ}

theorem respects_statement {f : Data B → Data B × Loc}
    (h : ∀ d m, holds t (f d).2 m ↔ holds t l m) : Respects (holds t) l (statement f) := by
  intro d d' k he m
  have hk : k = (f d).2 := congrArg Prod.snd (Option.some.inj he).symm
  exact hk ▸ h d m

theorem respects_attempt {f : Bool → Data B → Data B × Loc}
    (h : ∀ ok d m, holds t (f ok d).2 m ↔ holds t l m) : Respects (holds t) l (.attempt f) := h

theorem qsortMt_respects (l : MainLoc) : Respects (holds .main) (.main l) (qsortMt x l) := by
  obtain ⟨pc, islot, i, bailout⟩ := l
  cases pc with
  | hand p => cases p <;>
      simp [qsortMt, handOut, statement, Respects, holds, MainLoc.goto, MainLoc.cleanUp]
  | bail p => cases p <;> simp [qsortMt, setTerm, statement, Respects, holds, MainLoc.goto]
  | initAl | calloc | initMutex | initCond | create =>
    refine respects_attempt fun ok d m => ?_
    cases ok <;> simp [holds, MainLoc.goto, MainLoc.cleanUp]
  | start | slots =>
    refine respects_statement fun d m => ?_
    split <;> simp [holds, MainLoc.goto]
  | joins =>
    refine respects_statement fun d m => ?_
    simp only
    split
    · split <;> simp [holds, MainLoc.goto]
    · simp [holds, MainLoc.goto]
  | report =>
    refine respects_statement fun d m => ?_
    cases bailout <;> simp [holds, MainLoc.goto]
  | join =>
    intro d d' k he m
    simp only at he
    split at he <;> cases he
    simp [holds, MainLoc.goto]
  | done => simp [qsortMt, Respects, holds]
  | dropMutex | setIdle | undoMutex | undoCond | common | destroyMutex | destroyCond | free
  | destroyAl | qsort =>
    refine respects_statement fun d m => ?_
    simp [holds, MainLoc.goto, MainLoc.cleanUp]

theorem qsortThread_respects (pc : WorkerPc) :
    Respects (holds (.worker self)) (.worker pc) (qsortThread x self pc) := by
  cases pc with
  | start =>
    intro d d' k he m
    simp only at he
    split at he <;> cases he
    simp [holds]
  | wait p =>
    cases p with
    | test =>
      refine respects_statement fun d m => ?_
      simp only
      split <;> simp [holds]
    | _ => simp [qsortThread, waitForWork, Respects, holds]
  | check | assert =>
    refine respects_statement fun d m => ?_
    simp only
    split <;> simp [holds]
  | sort t =>
    rcases t with _ | ⟨o, k⟩ | _
    · simp [qsortThread, sortStep, Respects, holds]
    · cases o with
      | allocate a n => simp [qsortThread, sortStep, Respects, holds]
      | _ => exact respects_statement fun d m => Iff.rfl
    · intro d d' k he
      cases he
  | alloc p i a n k =>
    cases p with
    | loop =>
      refine respects_statement fun d m => ?_
      simp only
      split <;> simp [holds]
    | test =>
      refine respects_statement fun d m => ?_
      simp only
      split <;> simp [holds]
    | unlockAl =>
      refine ⟨.inl rfl, fun m => ?_⟩
      cases m <;> simp [holds]
    | _ => simp [qsortThread, allocate, statement, Respects, holds]
  | finish p =>
    cases p with
    | test =>
      refine respects_statement fun d m => ?_
      simp only
      split <;> simp [holds]
    | _ => simp [qsortThread, finish, statement, Respects, holds]
  | last i =>
    refine respects_statement fun d m => ?_
    simp only
    split
    · split <;> simp [holds]
    · simp [holds]
  | term p i =>
    cases p with
    | unlock =>
      refine ⟨.inr ⟨by simp, rfl⟩, fun m => ?_⟩
      cases m <;> simp [holds]
    | _ => simp [qsortThread, setTerm, statement, Respects, holds]
  | load | leave => exact respects_statement fun d m => Iff.rfl
  | lastUnlock | done | aborted => simp [qsortThread, Respects, holds]

theorem instr_respects (t : Thread) (l : Loc) : Respects (holds t) l (instr x t l) := by
  cases t <;> cases l
  · exact qsortMt_respects _
  · exact fun m => by simp [holds]
  · exact fun m => by simp [holds]
  · exact qsortThread_respects _

end Respects

/-- `qsort_mt` and its threads. -/
def pool {B : Type} (x : Args B) : Program Thread Mutex (Data B) Loc where
  entry := entry
  instr := instr x
  holds := holds
  entry_free t m := by cases t <;> simp [entry, holds]
  respects := instr_respects

/-- The data when `qsort_mt` is called. The fields of `common` and of the pool are not yet set. -/
def start {B : Type} (m : ℤ → B) : Data B where
  pool := fun _ => ⟨.idle, 0, 0⟩
  nthreads := 0
  idlethreads := 0
  mem := m
  exited := fun _ => false
  acquired := fun _ => 0
  released := fun _ => 0
  part := fun _ => (0, 0)

def system {B : Type} (x : Args B) (m : ℤ → B) := (pool x).system (start m)

/-- What the call at a place initialises. -/
def initialises : Loc → Option Resource
  | .main ⟨.initAl, _, _, _⟩ => some .mtxAl
  | .main ⟨.calloc, _, _, _⟩ => some .pool
  | .main ⟨.initMutex, islot, _, _⟩ => some (.mtxSt islot)
  | .main ⟨.initCond, islot, _, _⟩ => some (.condSt islot)
  | .main ⟨.create, islot, _, _⟩ => some (.thread islot)
  | _ => none

/-- The initialisation of `first` fails, if there is one that does, and no other call. -/
def failsAt {B : Type} (first : Option Resource)
    (s : Config Thread (Shared Thread Mutex (Data B)) (Status Mutex Loc))
    (a : Thread × Act Thread) : Prop :=
  a.2 = .fail ↔ ∃ r, initialises (s.thread a.1).loc = some r ∧ first = some r

end LinuxSummer.Pool
