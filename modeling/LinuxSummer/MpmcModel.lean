import Mathlib.Data.Nat.Bitwise
import LinuxSummer.Machine

/-! The queue of hw3/mpmc.c. Every access to a location that another thread writes is one step;
reads of the own handle, of the `id` of a node at hand and of the futex word of the own frame go
with the step next to them. Indices and node ids are natural numbers, so a run is one in which
the counters of type `long` do not overflow. -/
namespace LinuxSummer.Mpmc

/-- The constants of the program and the registered handles. A node has `1 << bits` cells and
`mpmc_dequeue` spins `times + 1` times before it waits; in the source these are `1 << 12` and
`1 << 20`. The arrays of handles end at the first null entry. -/
structure Setup (nr : ℕ) where
  bits : ℕ := 12
  times : ℕ := 2 ^ 20
  threshold : ℤ
  enqueueHandles : List (Fin nr)
  dequeueHandles : List (Fin nr)

variable {nr : ℕ} {V : Type}

/-- `N` -/
def Setup.cells (Q : Setup nr) : ℕ := 2 ^ Q.bits

/-- `N_BITS` -/
def Setup.mask (Q : Setup nr) : ℕ := Q.cells - 1

/-- The content of a cell: null, a value, or the address of the futex word of a thread. -/
inductive Word (nr : ℕ) (V : Type) where
  | null
  | val (v : V)
  | futex (t : Fin nr)
deriving DecidableEq

/-- `node_t` -/
structure Node (nr : ℕ) (V : Type) where
  next : Option ℕ
  id : ℕ
  cells : ℕ → Word nr V

/-- `handle_t` -/
structure Handle where
  spare : Option ℕ
  push : ℕ
  pop : ℕ

/-- `enum queue_ops` -/
inductive QueueOp where
  | dequeue
  | enqueue
deriving DecidableEq

/-- An operation, with its value. -/
inductive Op (V : Type) where
  | enqueue (v : V)
  | dequeue

def Op.flag : Op V → QueueOp
  | .enqueue _ => .enqueue
  | .dequeue => .dequeue

/-- The pointer of the handle for an operation. -/
def Handle.ptr (h : Handle) : QueueOp → ℕ
  | .enqueue => h.push
  | .dequeue => h.pop

def Handle.setPtr (h : Handle) (p : ℕ) : QueueOp → Handle
  | .enqueue => { h with push := p }
  | .dequeue => { h with pop := p }

def Setup.handles (Q : Setup nr) : QueueOp → List (Fin nr)
  | .enqueue => Q.enqueueHandles
  | .dequeue => Q.dequeueHandles

/-- What happened to each index, read by no step: the calls that obtained it, the value that was
exchanged into its cell, whether its enqueue has returned, and what its dequeue has returned. -/
structure Log (nr : ℕ) (V : Type) where
  enqueue : ℕ → Option (Fin nr × V)
  stored : ℕ → Option V
  enqueued : ℕ → Bool
  dequeue : ℕ → Option (Fin nr)
  dequeued : ℕ → Option (Word nr V)

/-- `mpmc_t` with the nodes that `mpmc_new_node` has returned, numbered from 0, the handle of
each thread, its futex word, and whether it sleeps in the kernel. `freed` lists the nodes that
were freed, each with the id that it had. -/
structure Shared (nr : ℕ) (V : Type) where
  heap : ℕ → Node nr V
  used : ℕ
  freed : List (ℕ × ℕ)
  initNode : ℕ
  initId : ℤ
  putIndex : ℕ
  popIndex : ℕ
  handle : Fin nr → Handle
  futex : Fin nr → ℕ
  asleep : Fin nr → Bool
  log : Log nr V

/-- In `mpmc_dequeue` after `over`. -/
inductive ReclaimPc where
  | loadInit
  | casInit (index : ℕ)
  | initNode (index : ℕ)
  | first (index init : ℕ)
  /-- The head of the loop over one of the arrays of handles, at the handle `l`. -/
  | scan (flag : QueueOp) (index init l min : ℕ)
  | compare (flag : QueueOp) (index init l min nextMin : ℕ)
  | decide (index init min : ℕ)
  | restore (index : ℕ)
  | setInitNode (init min newId : ℕ)
  | reopen (init min newId : ℕ)
  | loadNext (init min : ℕ)
  | free (init : ℕ) (tmp : Option ℕ) (min : ℕ)

/-- The next access of a thread, with the local variables that are live there. -/
inductive Pc (nr : ℕ) (V : Type) where
  | idle
  | fetch (op : Op V)
  | start (op : Op V) (i : ℕ)
  /-- In the loop of `mpmc_find_cell`, at the node `curr` with the id `j`. -/
  | next (op : Op V) (i curr j : ℕ)
  | fill (op : Op V) (i curr j : ℕ)
  | link (op : Op V) (i curr j tmp : ℕ)
  | setPtr (op : Op V) (i curr : ℕ)
  | xchgPush (v : V) (i c : ℕ)
  | setWord (i : ℕ) (t : Fin nr)
  | wake (i : ℕ) (t : Fin nr)
  | spin (i c times : ℕ)
  | xchgPop (i c : ℕ)
  | wait (i c : ℕ)
  /-- In the system call, asleep or just woken. -/
  | sleep (i c : ℕ)
  | check (i c : ℕ)
  | reload (i c : ℕ)
  | reclaim (i : ℕ) (cv : Word nr V) (p : ReclaimPc)

inductive Act (nr : ℕ) (V : Type) where
  | enqueue (v : V)
  | dequeue
  /-- The next access of a call in progress. A node that it frees holds `junk` afterwards. -/
  | run (junk : Node nr V)
  /-- The thread wakes up by itself. -/
  | spurious

/-- `mpmc_new_node` -/
def newNode : Node nr V := ⟨none, 0, fun _ => .null⟩

/-- The cell of the index `i` in the node `c`. -/
def Shared.cell (Q : Setup nr) (g : Shared nr V) (c i : ℕ) : Word nr V :=
  (g.heap c).cells (i &&& Q.mask)

def Shared.setCell (Q : Setup nr) (g : Shared nr V) (c i : ℕ) (w : Word nr V) : Shared nr V :=
  { g with
    heap := Function.update g.heap c { g.heap c with
      cells := Function.update (g.heap c).cells (i &&& Q.mask) w } }

def Shared.setNext (g : Shared nr V) (p : ℕ) (next : Option ℕ) : Shared nr V :=
  { g with heap := Function.update g.heap p { g.heap p with next := next } }

def Shared.setId (g : Shared nr V) (p id : ℕ) : Shared nr V :=
  { g with heap := Function.update g.heap p { g.heap p with id := id } }

def Shared.setHandle (g : Shared nr V) (u : Fin nr) (h : Handle) : Shared nr V :=
  { g with handle := Function.update g.handle u h }

/-- The standby node of the handle, a new one if it has none. -/
def spare (u : Fin nr) (g : Shared nr V) : Shared nr V × ℕ :=
  match (g.handle u).spare with
  | some tmp => (g, tmp)
  | none => ({ g with
      heap := Function.update g.heap g.used newNode
      used := g.used + 1
      handle := Function.update g.handle u { g.handle u with spare := some g.used } }, g.used)

/-- The head of the loop of `mpmc_find_cell`. -/
def walk (Q : Setup nr) (op : Op V) (i curr j : ℕ) : Pc nr V :=
  if j < i / Q.cells then .next op i curr j else .setPtr op i curr

/-- `mpmc_find_cell` returns the cell of `i` in the node `c`. -/
def found (Q : Setup nr) (i c : ℕ) : Op V → Pc nr V
  | .enqueue v => .xchgPush v i c
  | .dequeue => .spin i c Q.times

/-- `mpmc_enqueue` returns. -/
def enqueued (g : Shared nr V) (i : ℕ) : Shared nr V × Pc nr V :=
  ({ g with log := { g.log with enqueued := Function.update g.log.enqueued i true } }, .idle)

/-- `mpmc_dequeue` returns. -/
def dequeued (g : Shared nr V) (i : ℕ) (cv : Word nr V) : Shared nr V × Pc nr V :=
  ({ g with log := { g.log with dequeued := Function.update g.log.dequeued i (some cv) } }, .idle)

/-- `mpmc_dequeue` from the label `over`. -/
def atOver (Q : Setup nr) (g : Shared nr V) (i : ℕ) (cv : Word nr V) : Shared nr V × Pc nr V :=
  if i &&& Q.mask = Q.mask then (g, .reclaim i cv .loadInit) else dequeued g i cv

/-- After the loop over the handles, also by `break`. -/
def scanEnd (index init min : ℕ) : QueueOp → ReclaimPc
  | .dequeue => .scan .enqueue index init 0 min
  | .enqueue => .decide index init min

/-- The reclamation in `mpmc_dequeue` of thread `u`, before it returns `cv`. -/
def reclaim (Q : Setup nr) (u : Fin nr) (g : Shared nr V) (junk : Node nr V) (i : ℕ)
    (cv : Word nr V) : ReclaimPc → Option (Shared nr V × Pc nr V)
  | .loadInit =>
    if (g.heap (g.handle u).pop).id - g.initId ≥ Q.threshold ∧ g.initId ≥ 0 then
      some (g, .reclaim i cv (.casInit g.initId.toNat))
    else some (dequeued g i cv)
  | .casInit index =>
    if g.initId = index then some ({ g with initId := -1 }, .reclaim i cv (.initNode index))
    else some (dequeued g i cv)
  | .initNode index => some (g, .reclaim i cv (.first index g.initNode))
  | .first index init =>
    match Q.dequeueHandles[0]? with
    | some t => some (g, .reclaim i cv (.scan .dequeue index init 1 (g.handle t).pop))
    | none => none
  | .scan flag index init l min =>
    match (Q.handles flag)[l]? with
    | some t => some (g, .reclaim i cv (.compare flag index init l min ((g.handle t).ptr flag)))
    | none => some (g, .reclaim i cv (scanEnd index init min flag))
  | .compare flag index init l min nextMin =>
    let min' := if (g.heap nextMin).id < (g.heap min).id then nextMin else min
    if (g.heap min').id ≤ index then some (g, .reclaim i cv (scanEnd index init min' flag))
    else some (g, .reclaim i cv (.scan flag index init (l + 1) min'))
  | .decide index init min =>
    if (g.heap min).id ≤ index then some (g, .reclaim i cv (.restore index))
    else some (g, .reclaim i cv (.setInitNode init min (g.heap min).id))
  | .restore index => some (dequeued { g with initId := index } i cv)
  | .setInitNode init min newId =>
    some ({ g with initNode := min }, .reclaim i cv (.reopen init min newId))
  | .reopen init min newId =>
    some ({ g with initId := newId }, .reclaim i cv (.loadNext init min))
  | .loadNext init min => some (g, .reclaim i cv (.free init (g.heap init).next min))
  | .free init tmp min =>
    let g' := { g with
      heap := Function.update g.heap init junk
      freed := (init, (g.heap init).id) :: g.freed }
    match tmp with
    | some tmp =>
      if tmp = min then some (dequeued g' i cv) else some (g', .reclaim i cv (.loadNext tmp min))
    | none => none

/-- The next access of thread `u`. There is none in a sleep, and none through a null pointer or
through a value taken for a futex word. -/
def run (Q : Setup nr) (u : Fin nr) (g : Shared nr V) (junk : Node nr V) :
    Pc nr V → Option (Shared nr V × Pc nr V)
  | .idle => none
  | .fetch (.enqueue v) =>
    some ({ g with
      putIndex := g.putIndex + 1
      log := { g.log with enqueue := Function.update g.log.enqueue g.putIndex (some (u, v)) } },
      .start (.enqueue v) g.putIndex)
  | .fetch .dequeue =>
    some ({ g with
      popIndex := g.popIndex + 1
      log := { g.log with dequeue := Function.update g.log.dequeue g.popIndex (some u) } },
      .start .dequeue g.popIndex)
  | .start op i =>
    let curr := (g.handle u).ptr op.flag
    some (g, walk Q op i curr (g.heap curr).id)
  | .next op i curr j =>
    match (g.heap curr).next with
    | some next => some (g, walk Q op i next (j + 1))
    | none => some (g, .fill op i curr j)
  | .fill op i curr j =>
    let (g', tmp) := spare u g
    some (g'.setId tmp (j + 1), .link op i curr j tmp)
  | .link op i curr j tmp =>
    match (g.heap curr).next with
    | none =>
      some ((g.setNext curr (some tmp)).setHandle u { g.handle u with spare := none },
        walk Q op i tmp (j + 1))
    | some next => some (g, walk Q op i next (j + 1))
  | .setPtr op i curr => some (g.setHandle u ((g.handle u).setPtr curr op.flag), found Q i curr op)
  | .xchgPush v i c =>
    let g' := { g.setCell Q c i (.val v) with
      log := { g.log with stored := Function.update g.log.stored i (some v) } }
    match g.cell Q c i with
    | .null => some (enqueued g' i)
    | .futex t => some (g', .setWord i t)
    | .val _ => none
  | .setWord i t => some ({ g with futex := Function.update g.futex t 0 }, .wake i t)
  | .wake i t => some (enqueued { g with asleep := Function.update g.asleep t false } i)
  | .spin i c times =>
    match g.cell Q c i with
    | .null => some (g, if 0 < times then .spin i c (times - 1) else .xchgPop i c)
    | cv => some (atOver Q g i cv)
  | .xchgPop i c =>
    match g.cell Q c i with
    | .null => some (g.setCell Q c i (.futex u), .wait i c)
    | cv => some (atOver Q (g.setCell Q c i (.futex u)) i cv)
  | .wait i c =>
    if g.futex u = 1 then
      some ({ g with asleep := Function.update g.asleep u true }, .sleep i c)
    else some (g, .check i c)
  | .sleep i c => if g.asleep u then none else some (g, .check i c)
  | .check i c => some (g, if g.futex u = 1 then .wait i c else .reload i c)
  | .reload i c => some (atOver Q g i (g.cell Q c i))
  | .reclaim i cv p => reclaim Q u g junk i cv p

/-- An idle thread enters a call that its registration allows. -/
def next (Q : Setup nr) (u : Fin nr) (g : Shared nr V) :
    Pc nr V → Act nr V → Option (Shared nr V × Pc nr V)
  | .idle, .enqueue v => if u ∈ Q.enqueueHandles then some (g, .fetch (.enqueue v)) else none
  | .idle, .dequeue =>
    if u ∈ Q.dequeueHandles then
      some ({ g with futex := Function.update g.futex u 1 }, .fetch .dequeue)
    else none
  | .sleep i c, .spurious =>
    some ({ g with asleep := Function.update g.asleep u false }, .check i c)
  | pc, .run junk => run Q u g junk pc
  | _, _ => none

def threads (Q : Setup nr) : Threads (Fin nr) (Shared nr V) (Pc nr V) (Act nr V) where
  next := next Q

/-- After `mpmc_init_queue` and the registration of all threads, each with its standby node. -/
def start (nr : ℕ) (V : Type) : Config (Fin nr) (Shared nr V) (Pc nr V) where
  shared :=
    { heap := fun _ => newNode
      used := nr + 1
      freed := []
      initNode := 0
      initId := 0
      putIndex := 0
      popIndex := 0
      handle := fun u => ⟨some (u + 1), 0, 0⟩
      futex := fun _ => 0
      asleep := fun _ => false
      log := ⟨fun _ => none, fun _ => none, fun _ => false, fun _ => none, fun _ => none⟩ }
  thread := fun _ => .idle

def system (V : Type) (Q : Setup nr) :
    System (Config (Fin nr) (Shared nr V) (Pc nr V)) (Fin nr × Act nr V) :=
  (threads Q).system (· = start nr V)

end LinuxSummer.Mpmc
