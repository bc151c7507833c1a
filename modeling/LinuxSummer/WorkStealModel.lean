import LinuxSummer.IndexWindow
import LinuxSummer.Machine

/-! The work-stealing deque of hw3/work-steal.c. Every access to an atomic is one step, except
that `a->size` is read together with the access before it: the size of an array does not change
after `malloc`. `top`, `bottom` and the loop counter of `resize` wrap at 64 bits; the size of an array
is a number from 1 on, since an array has to fit into the memory. -/
namespace LinuxSummer.WorkSteal
open IndexWindow

/-- `array_t`. A slot holds `none` until it is written. -/
abbrev Arr (V : Type*) := SlotArray (Option V)

/-- What `take` and `steal` return. -/
inductive Result (V : Type*) where
  | empty
  | abort
  | work (x : Option V)
deriving DecidableEq

/-- The next access of a thread, with the local variables that are live there. -/
inductive Pc (V : Type*) where
  | idle
  | pushBottom (w : V)
  | pushTop (w : V) (b : ℕ)
  | pushArray (w : V) (b t : ℕ)
  | resizeArray (w : V) (b : ℕ)
  /-- `a` is the array to be replaced by `new`. -/
  | resizeTop (w : V) (b a new : ℕ)
  | resizeBottom (w : V) (b a new t : ℕ)
  /-- In the loop of `resize`, which ends at `e`. -/
  | copyLoad (w : V) (b a new i e : ℕ)
  | copyStore (w : V) (b a new i e : ℕ) (x : Option V)
  | resizeStore (w : V) (b new : ℕ)
  | pushReload (w : V) (b : ℕ)
  | pushSlot (w : V) (b a : ℕ)
  | pushStore (w : V) (b : ℕ)
  | takeBottom
  | takeArray (b : ℕ)
  | takeLower (b a : ℕ)
  | takeTop (b a : ℕ)
  | takeSlot (b a t : ℕ)
  | takeCas (b : ℕ) (x : Option V)
  | takeRestore (b : ℕ) (r : Result V)
  | stealTop
  | stealBottom (t : ℕ)
  | stealArray (t : ℕ)
  | stealSlot (t a : ℕ)
  | stealCas (t : ℕ) (x : Option V)

/-- `deque_t` and the arrays `malloc` has returned, numbered from 0 and never freed. The last
four fields only record what happened. -/
structure Shared (V : Type*) where
  top : ℕ
  bottom : ℕ
  array : ℕ
  heap : ℕ → Arr V
  used : ℕ
  /-- One past the last index that belongs to the deque, also while `take` has lowered `bottom`. -/
  high : ℕ
  pushed : List V
  /-- Taken off the deque by a call of `take` that has not returned yet. -/
  claimed : List (Option V)
  returned : List (Option V)

inductive Who (T : Type*) where
  | owner
  | thief (t : T)
deriving DecidableEq

inductive Act (V : Type*) where
  | push (w : V)
  | take
  | steal
  /-- The next access of a call in progress. -/
  | run

variable {T V : Type*}

/-- What the current array holds for an index. -/
def Shared.slot (g : Shared V) (i : ℕ) : Option V := (g.heap g.array).get i

def Shared.store (g : Shared V) (a i : ℕ) (x : Option V) : Shared V :=
  { g with heap := putAt g.heap a i x }

def Shared.load (g : Shared V) (a i : ℕ) : Option V := (g.heap a).get i

/-- A call of `take` or `steal` returns. -/
def Shared.ret (g : Shared V) : Result V → Shared V
  | .work x => { g with returned := x :: g.returned }
  | _ => g

/-- The head of the loop of `resize`. -/
def copyLoop (w : V) (b a new i e : ℕ) : Pc V :=
  if i < e then .copyLoad w b a new i e else .resizeStore w b new

/-- The next access of a thread. -/
def run (g : Shared V) : Pc V → Option (Shared V × Pc V)
  | .idle => none
  | .pushBottom w => some (g, .pushTop w g.bottom)
  | .pushTop w b => some (g, .pushArray w b g.top)
  | .pushArray w b t =>
    if sub b t > (g.heap g.array).size - 1 then some (g, .resizeArray w b)  -- full queue
    else some (g, .pushSlot w b g.array)
  | .resizeArray w b =>
    some ({ g with
      heap := Function.update g.heap g.used ⟨(g.heap g.array).size * 2, fun _ => none⟩
      used := g.used + 1 }, .resizeTop w b g.array g.used)
  | .resizeTop w b a new => some (g, .resizeBottom w b a new g.top)
  | .resizeBottom w b a new t => some (g, copyLoop w b a new t g.bottom)
  | .copyLoad w b a new i e => some (g, .copyStore w b a new i e (g.load a i))
  | .copyStore w b a new i e x => some (g.store new i x, copyLoop w b a new (inc i) e)
  | .resizeStore w b new => some ({ g with array := new }, .pushReload w b)
  | .pushReload w b => some (g, .pushSlot w b g.array)
  | .pushSlot w b a => some (g.store a b (some w), .pushStore w b)
  | .pushStore w b =>
    some ({ g with bottom := inc b, high := inc b, pushed := w :: g.pushed }, .idle)
  | .takeBottom => some (g, .takeArray (dec g.bottom))
  | .takeArray b => some (g, .takeLower b g.array)
  | .takeLower b a => some ({ g with bottom := b }, .takeTop b a)
  | .takeTop b a =>
    if g.top < b then
      -- the last index is the owner's from here on
      some ({ g with high := b, claimed := [g.load a b] }, .takeSlot b a g.top)
    else if g.top = b then some (g, .takeSlot b a g.top)
    else some (g, .takeRestore b .empty)
  | .takeSlot b a t =>
    if t = b then some (g, .takeCas b (g.load a b))
    else some ({ g with claimed := [] }.ret (.work (g.load a b)), .idle)
  | .takeCas b x =>
    if g.top = b then
      some ({ g with top := inc b, claimed := [x] }, .takeRestore b (.work x))
    else some (g, .takeRestore b .empty)
  | .takeRestore b r => some ({ g with bottom := inc b, claimed := [] }.ret r, .idle)
  | .stealTop => some (g, .stealBottom g.top)
  | .stealBottom t =>
    if t < g.bottom then some (g, .stealArray t) else some (g.ret .empty, .idle)
  | .stealArray t => some (g, .stealSlot t g.array)
  | .stealSlot t a => some (g, .stealCas t (g.load a t))
  | .stealCas t x =>
    if g.top = t then some ({ g with top := inc t }.ret (.work x), .idle)
    else some (g.ret .abort, .idle)

/-- The owner calls `push` and `take`, the others call `steal`. -/
def next : Who T → Shared V → Pc V → Act V → Option (Shared V × Pc V)
  | .owner, g, .idle, .push w => some (g, .pushBottom w)
  | .owner, g, .idle, .take => some (g, .takeBottom)
  | .thief _, g, .idle, .steal => some (g, .stealTop)
  | _, g, pc, .run => run g pc
  | _, _, _, _ => none

/-- One owner and any number of thieves. -/
def threads : Threads (Who T) (Shared V) (Pc V) (Act V) where
  next := next

/-- After `init` with a size hint, no thread inside a call. -/
def start (T V : Type*) (sizeHint : ℕ) : Config (Who T) (Shared V) (Pc V) :=
  ⟨⟨0, 0, 0, fun _ => ⟨sizeHint, fun _ => none⟩, 1, 0, [], [], []⟩, fun _ => .idle⟩

def system (T V : Type*) [DecidableEq T] (sizeHint : ℕ) :
    System (Config (Who T) (Shared V) (Pc V)) (Who T × Act V) :=
  threads.system (· = start T V sizeHint)

/-- The first `take` comes after a completed `push`, and no `push` lets `bottom` wrap. -/
def Ok (s : Config (Who T) (Shared V) (Pc V)) (a : Who T × Act V) : Prop :=
  (a.2 = .take → s.shared.pushed ≠ []) ∧ ((∃ w, a.2 = .push w) → s.shared.bottom + 1 < 2 ^ 64)

end LinuxSummer.WorkSteal
