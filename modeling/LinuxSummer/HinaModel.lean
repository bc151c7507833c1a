import LinuxSummer.IndexWindow
import LinuxSummer.Machine

/-! The work-stealing deque of hw3/work-steal-qsort/src/deque.c, with the release of replaced
arrays by `deque_gc`. Every access to an atomic is one step, and so is `free`; `a->size` is read
together with the access before it. `top`, `bottom` and the loop counter of `deque_resize` wrap
at 64 bits; the size of an array is a number from 1 on. -/
namespace LinuxSummer.Hina
open IndexWindow

/-- `array_t`. A slot holds `none` until it is written. -/
abbrev Arr (V : Type*) := SlotArray (Option V)

/-- What a call returns; `done` is the return of `deque_push`. -/
inductive Result (V : Type*) where
  | done
  | empty
  | abort
  | work (x : Option V)
deriving DecidableEq

/-- The accesses of `deque_gc`. -/
inductive GcPc where
  | array
  | handle (a : ℕ)
  | old
  | cas (old : ℕ)
  /-- In the loop over the handles. -/
  | scan (old i : ℕ)
  | putBack (old : ℕ)
  | free (old : ℕ)
deriving DecidableEq

/-- The next access of a thread, with the local variables that are live there. -/
inductive Pc (V : Type*) where
  | idle
  | pushBottom (w : V)
  | pushTop (w : V) (b : ℕ)
  | pushArray (w : V) (b t : ℕ)
  | resizeArray (w : V) (b : ℕ)
  /-- `a` is the array to be replaced by `new`. -/
  | resizeTop (w : V) (b a new : ℕ)
  | resizeBottom (w : V) (b a new t : ℕ)
  /-- In the loop of `deque_resize`, which ends at `e`. -/
  | copyLoad (w : V) (b a new i e : ℕ)
  | copyStore (w : V) (b a new i e : ℕ) (x : Option V)
  | resizeStore (w : V) (b a new : ℕ)
  | resizeAssert (w : V) (b a : ℕ)
  | pushReload (w : V) (b : ℕ)
  | pushSlot (w : V) (b a : ℕ)
  | pushCas (w : V) (b : ℕ)
  | takeBottom
  | takeArray (b : ℕ)
  | takeTop (b a : ℕ)
  | takeSlot (b a t : ℕ)
  | takeCas (b : ℕ) (x : Option V)
  | takeStore (b : ℕ) (x : Option V)
  | stealTop
  | stealBottom (t : ℕ)
  | stealArray (t : ℕ)
  | stealSlot (t a : ℕ)
  | stealCas (t : ℕ) (x : Option V)
  /-- In `deque_gc`, before the return of `r`. -/
  | gc (r : Result V) (p : GcPc)

/-- `deque_t` for `nr` threads and the arrays `malloc` has returned, numbered from 0 and never
reused. The last two fields only record what happened. -/
structure Shared (nr : ℕ) (V : Type*) where
  top : ℕ
  bottom : ℕ
  array : ℕ
  oldArray : Option ℕ
  handle : Fin nr → ℕ
  heap : ℕ → Arr V
  used : ℕ
  freed : ℕ → Bool
  pushed : List V
  returned : List (Option V)

inductive Act (V : Type*) where
  | push (w : V)
  | take
  | steal
  /-- The next access of a call in progress. A load from a freed array reads `junk`. -/
  | run (junk : Option V)
  /-- A weak compare-and-swap that fails although the values are equal. -/
  | fail

variable {nr : ℕ} {V : Type*}

/-- What the current array holds for an index. -/
def Shared.slot (g : Shared nr V) (i : ℕ) : Option V := (g.heap g.array).get i

def Shared.store (g : Shared nr V) (a i : ℕ) (x : Option V) : Shared nr V :=
  { g with heap := putAt g.heap a i x }

def Shared.load (g : Shared nr V) (a i : ℕ) (junk : Option V) : Option V :=
  if g.freed a then junk else (g.heap a).get i

/-- A call returns. -/
def Shared.ret (g : Shared nr V) : Result V → Shared nr V
  | .work x => { g with returned := x :: g.returned }
  | _ => g

/-- The head of the loop of `deque_resize`. -/
def copyLoop (w : V) (b a new i e : ℕ) : Pc V :=
  if i < e then .copyLoad w b a new i e else .resizeStore w b a new

/-- `deque_gc` of thread `u`. -/
def runGc (u : Fin nr) (g : Shared nr V) (r : Result V) : GcPc → Option (Shared nr V × Pc V)
  | .array => some (g, .gc r (.handle g.array))
  | .handle a => some ({ g with handle := Function.update g.handle u a }, .gc r .old)
  | .old =>
    match g.oldArray with
    | none => some (g.ret r, .idle)
    | some old => some (g, .gc r (.cas old))
  | .cas old =>
    if g.oldArray = some old then some ({ g with oldArray := none }, .gc r (.scan old 0))
    else some (g.ret r, .idle)
  | .scan old i =>
    if h : i < nr then
      if g.handle ⟨i, h⟩ = old then some (g, .gc r (.putBack old))
      else some (g, .gc r (.scan old (i + 1)))
    else some (g, .gc r (.free old))
  | .putBack old => some ({ g with oldArray := some old }.ret r, .idle)
  | .free old => some ({ g with freed := Function.update g.freed old true }.ret r, .idle)

/-- The next access of thread `u`. There is none when an assertion fails. -/
def run (u : Fin nr) (g : Shared nr V) (junk : Option V) : Pc V → Option (Shared nr V × Pc V)
  | .idle => none
  | .pushBottom w => some (g, .pushTop w g.bottom)
  | .pushTop w b => some (g, .pushArray w b g.top)
  | .pushArray w b t =>
    if sub b t > (g.heap g.array).size - 1 then some (g, .resizeArray w b)  -- full queue
    else some (g, .pushSlot w b g.array)
  | .resizeArray w b =>
    some ({ g with
      heap := Function.update g.heap g.used ⟨(g.heap g.array).size * 2, fun _ => none⟩
      used := g.used + 1 }, .resizeTop w b g.array g.used)
  | .resizeTop w b a new => some (g, .resizeBottom w b a new g.top)
  | .resizeBottom w b a new t => some (g, copyLoop w b a new t g.bottom)
  | .copyLoad w b a new i e => some (g, .copyStore w b a new i e (g.load a i junk))
  | .copyStore w b a new i e x => some (g.store new i x, copyLoop w b a new (inc i) e)
  | .resizeStore w b a new => some ({ g with array := new }, .resizeAssert w b a)
  | .resizeAssert w b a =>
    if g.oldArray = none then some ({ g with oldArray := some a }, .pushReload w b) else none
  | .pushReload w b => some (g, .pushSlot w b g.array)
  | .pushSlot w b a => some (g.store a b (some w), .pushCas w b)
  | .pushCas w b =>
    if g.bottom = b then
      some ({ g with bottom := inc b, pushed := w :: g.pushed }, .gc .done .array)
    else some (g, .pushBottom w)
  | .takeBottom => some (g, .takeArray (dec g.bottom))
  | .takeArray b => some (g, .takeTop b g.array)
  | .takeTop b a =>
    if g.top ≤ b then some (g, .takeSlot b a g.top) else some (g, .gc .empty .array)
  | .takeSlot b a t =>
    if t = b then some (g, .takeCas b (g.load a b junk))
    else some (g, .takeStore b (g.load a b junk))
  | .takeCas b x =>
    if g.top = b then some ({ g with top := inc b }, .gc (.work x) .array)
    else some (g, .gc .empty .array)
  | .takeStore b x => some ({ g with bottom := b }, .gc (.work x) .array)
  | .stealTop => some (g, .stealBottom g.top)
  | .stealBottom t =>
    if t < g.bottom then some (g, .stealArray t) else some (g, .gc .empty .array)
  | .stealArray t => some (g, .stealSlot t g.array)
  | .stealSlot t a => some (g, .stealCas t (g.load a t junk))
  | .stealCas t x =>
    if g.top = t then some ({ g with top := inc t }, .gc (.work x) .array)
    else some (g, .gc .abort .array)
  | .gc r p => runGc u g r p

/-- Thread `o` calls `deque_push` and `deque_take`, the others call `deque_steal`. -/
def next (o u : Fin nr) (g : Shared nr V) : Pc V → Act V → Option (Shared nr V × Pc V)
  | .idle, .push w => if u = o then some (g, .pushBottom w) else none
  | .idle, .take => if u = o then some (g, .takeBottom) else none
  | .idle, .steal => if u = o then none else some (g, .stealTop)
  | .gc r (.cas _), .fail => some (g.ret r, .idle)
  | pc, .run junk => run u g junk pc
  | _, _ => none

def threads (o : Fin nr) : Threads (Fin nr) (Shared nr V) (Pc V) (Act V) where
  next := next o

/-- After `deque_init`, no thread inside a call. -/
def start (nr : ℕ) (V : Type*) (sizeHint : ℕ) : Config (Fin nr) (Shared nr V) (Pc V) :=
  ⟨⟨1, 1, 0, none, fun _ => 0, fun _ => ⟨sizeHint, fun _ => none⟩, 1, fun _ => false, [], []⟩,
    fun _ => .idle⟩

def system (V : Type*) (o : Fin nr) (sizeHint : ℕ) :
    System (Config (Fin nr) (Shared nr V) (Pc V)) (Fin nr × Act V) :=
  (threads o).system (· = start nr V sizeHint)

end LinuxSummer.Hina
