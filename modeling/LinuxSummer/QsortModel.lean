import Mathlib.Data.Int.Init
import Mathlib.Order.Lattice
import Mathlib.Algebra.Order.Ring.Int
import LinuxSummer.Programs

/-! `qsort_algo` of hw1/qsort-mt.c as a program that calls the comparison function, the exchanges
and `allocate_thread`. Pointers are integers, in bytes; `es` is the size of an element. The same
text with `es = 1` is the program on the indices of an array. -/
namespace LinuxSummer.Qsort

/-- What `qsort_algo` calls. `swap` and `swapfunc` are the exchange of two elements and that of two
blocks of `n` bytes; `allocate` is `allocate_thread` with the range that is handed out. -/
inductive SortOp where
  | cmp (p q : ℤ)
  | swap (p q : ℤ)
  | swapfunc (p q n : ℤ)
  | allocate (a n : ℤ)

/-- The answer of `allocate` is whether there was a thread. -/
def Answer : SortOp → Type
  | .cmp _ _ => ℤ
  | .swap _ _ => Unit
  | .swapfunc _ _ _ => Unit
  | .allocate _ _ => Bool

abbrev SortProg := Prog SortOp Answer

def cmp (p q : ℤ) : SortProg ℤ := .op (.cmp p q) .ret

def swap (p q : ℤ) : SortProg Unit := .op (.swap p q) .ret

def vecswap (p q n : ℤ) : SortProg Unit := if n > 0 then .op (.swapfunc p q n) .ret else pure ()

def allocateThread (a n : ℤ) : SortProg Bool := .op (.allocate a n) .ret

/-- The conversion to `int`. -/
def toInt (x : ℤ) : ℤ := x.bmod (2 ^ 32)

def med3 (a b c : ℤ) : SortProg ℤ := do
  if (← cmp a b) < 0 then
    if (← cmp b c) < 0 then pure b else if (← cmp a c) < 0 then pure c else pure a
  else
    if (← cmp b c) > 0 then pure b else if (← cmp a c) < 0 then pure a else pure c

/-- The inner loop of the insertion sort, which returns `swap_cnt`, or `none` by `goto nevermind`
when it exceeds `limit`. The insertion sort of a short array does not count. -/
def insert (es a : ℤ) (limit : Option ℤ) : ℕ → ℤ → ℤ → SortProg (Option ℤ)
  | 0, _, _ => .stuck
  | fuel + 1, cnt, pl =>
    if pl > a then do
      if (← cmp (pl - es) pl) > 0 then
        swap pl (pl - es)
        if limit.any (cnt + 1 > ·) then pure none
        else insert es a limit fuel (cnt + 1) (pl - es)
      else pure (some cnt)
    else pure (some cnt)

/-- The insertion sort, and whether it was not abandoned. -/
def insertionSort (es a n : ℤ) (limit : Option ℤ) (bound : ℕ) : ℕ → ℤ → ℤ → SortProg Bool
  | 0, _, _ => .stuck
  | fuel + 1, cnt, pm =>
    if pm < a + n * es then do
      match ← insert es a limit bound cnt pm with
      | some cnt => insertionSort es a n limit bound fuel cnt (pm + es)
      | none => pure false
    else pure true

/-- The choice of the pivot. -/
def pivot (es a n : ℤ) : SortProg ℤ :=
  let pm := a + n / 2 * es
  let pl := a
  let pn := a + (n - 1) * es
  if n > 40 then do
    let d := toInt (n / 8 * es)
    let pl ← med3 pl (pl + d) (pl + 2 * d)
    let pm ← med3 (pm - d) pm (pm + d)
    let pn ← med3 (pn - 2 * d) (pn - d) pn
    med3 pl pm pn
  else if n > 7 then med3 pl pm pn
  else pure pm

/-- The variables of the partition. -/
structure Ptrs where
  swapCnt : ℤ
  pa : ℤ
  pb : ℤ
  pc : ℤ
  pd : ℤ

/-- The first inner loop of the partition. -/
def scanUp (es a : ℤ) : ℕ → Ptrs → SortProg Ptrs
  | 0, _ => .stuck
  | fuel + 1, p =>
    if p.pb ≤ p.pc then do
      let r ← cmp p.pb a
      if r ≤ 0 then
        if r = 0 then
          swap p.pa p.pb
          scanUp es a fuel { p with swapCnt := 1, pa := p.pa + es, pb := p.pb + es }
        else scanUp es a fuel { p with pb := p.pb + es }
      else pure p
    else pure p

/-- The second inner loop of the partition. -/
def scanDown (es a : ℤ) : ℕ → Ptrs → SortProg Ptrs
  | 0, _ => .stuck
  | fuel + 1, p =>
    if p.pb ≤ p.pc then do
      let r ← cmp p.pc a
      if r ≥ 0 then
        if r = 0 then
          swap p.pc p.pd
          scanDown es a fuel { p with swapCnt := 1, pd := p.pd - es, pc := p.pc - es }
        else scanDown es a fuel { p with pc := p.pc - es }
      else pure p
    else pure p

def partition (es a : ℤ) (bound : ℕ) : ℕ → Ptrs → SortProg Ptrs
  | 0, _ => .stuck
  | fuel + 1, p => do
    let p ← scanUp es a bound p
    let p ← scanDown es a bound p
    if p.pb > p.pc then pure p
    else
      swap p.pb p.pc
      partition es a bound fuel { p with swapCnt := 1, pb := p.pb + es, pc := p.pc - es }

/-- The keys equal to the pivot move from both ends to the middle. -/
def gather (es a n : ℤ) (p : Ptrs) : SortProg Unit := do
  let pn := a + n * es
  let r := toInt (min (p.pa - a) (p.pb - p.pa))
  vecswap a (p.pb - r) r
  let r := toInt (min (p.pd - p.pc) (pn - p.pd - es))
  vecswap p.pb (pn - r) r

/-- One pass over the array from the label `top` to the label `nevermind`: the partition, and
whether the array was sorted by insertion. -/
def pass (es a n : ℤ) (fuel : ℕ) : SortProg (Ptrs × Bool) := do
  let pm ← pivot es a n
  swap a pm
  let p ← partition es a fuel fuel ⟨0, a + es, a + es, a + (n - 1) * es, a + (n - 1) * es⟩
  gather es a n p
  if p.swapCnt = 0 then do
    let sorted ← insertionSort es a n (some (toInt (1 + n / 4))) fuel fuel p.swapCnt (a + es)
    pure (p, sorted)
  else pure (p, false)

/-- `if (c) t`. -/
def when (c : Bool) (t : SortProg Unit) : SortProg Unit := if c then t else pure ()

/-- The first condition at the label `nevermind`. -/
def handOut (forkelem a nl nr : ℤ) : SortProg Bool :=
  if nl > forkelem ∧ nr > forkelem then allocateThread a nl else pure false

/-- `qsort_algo` on the `n` elements at `a`. It sets `qs->a` and `qs->n` for its recursive call only;
here these are the arguments. -/
def qsortAlgo (es forkelem : ℤ) : ℕ → ℤ → ℤ → SortProg Unit
  | 0, _, _ => .stuck
  | fuel + 1, a, n =>
    if n < 7 then do
      let _ ← insertionSort es a n none (fuel + 1) (fuel + 1) 0 (a + es)
      pure ()
    else do
      let (p, sorted) ← pass es a n (fuel + 1)
      if sorted then pure ()
      else
        -- the label `nevermind`
        let nl := (p.pb - p.pa) / es
        let nr := (p.pd - p.pc) / es
        let handed ← handOut forkelem a nl nr
        when (!handed && nl > 0) (qsortAlgo es forkelem fuel a nl)
        when (nr > 0) (qsortAlgo es forkelem fuel (a + n * es - nr * es) nr)

/-! ### The memory -/

variable {B : Type}

/-- `*(TYPE *) p` for a type of `size` bytes. -/
def load (m : ℤ → B) (p : ℤ) : ℤ → B := fun k => m (p + k)

def store (m : ℤ → B) (p size : ℤ) (t : ℤ → B) : ℤ → B :=
  fun x => if p ≤ x ∧ x < p + size then t (x - p) else m x

/-- The exchange of two values of `size` bytes. -/
def exchange (size : ℤ) (m : ℤ → B) (pi pj : ℤ) : ℤ → B :=
  let t := load m pi
  let m' := store m pi size (load m pj)
  store m' pj size t

/-- The loop of `swapcode`, for one exchange more than `i`. -/
def swapLoop (size : ℤ) : ℕ → (ℤ → B) → ℤ → ℤ → ℤ → B
  | 0, m, pi, pj => exchange size m pi pj
  | i + 1, m, pi, pj => swapLoop size i (exchange size m pi pj) (pi + size) (pj + size)

def swapcode (size : ℤ) (m : ℤ → B) (pi pj n : ℤ) : ℤ → B :=
  swapLoop size (n / size - 1).toNat m pi pj

def swapfunc (m : ℤ → B) (a b n swaptype : ℤ) : ℤ → B :=
  if swaptype ≤ 1 then swapcode 8 m a b n else swapcode 1 m a b n

/-- `swaptype` as `qsort_mt` sets it: a `long` has 8 bytes. -/
def swaptype (a es : ℤ) : ℤ := if a % 8 ≠ 0 ∨ es % 8 ≠ 0 then 2 else if es = 8 then 0 else 1

/-- The macro `swap`. -/
def swapMem (es swaptype : ℤ) (m : ℤ → B) (a b : ℤ) : ℤ → B :=
  if swaptype = 0 then exchange 8 m a b else swapfunc m a b (toInt es) swaptype

/-- The contents of the element at `p`. -/
def element (es : ℕ) (m : ℤ → B) (p : ℤ) : Fin es → B := fun k => m (p + k)

/-- The calls on the memory. `allocate_thread` finds no idle thread. -/
def onMemory (es : ℕ) (swaptype : ℤ) (cmp : (Fin es → B) → (Fin es → B) → ℤ) :
    (o : SortOp) → (ℤ → B) → Answer o × (ℤ → B)
  | .cmp p q, m => (cmp (element es m p) (element es m q), m)
  | .swap p q, m => ((), swapMem es swaptype m p q)
  | .swapfunc p q n, m => ((), swapfunc m p q n swaptype)
  | .allocate _ _, m => (false, m)

end LinuxSummer.Qsort
