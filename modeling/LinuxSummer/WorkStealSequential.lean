import LinuxSummer.WorkStealModel

/-! The deque of hw3/work-steal.c when its functions are called one at a time, against a list. -/
namespace LinuxSummer.WorkSteal
open IndexWindow

/-- `deque_t` with its current array. -/
structure Deque (V : Type*) where
  top : ℕ
  bottom : ℕ
  array : Arr V

inductive Call (V : Type*) where
  | push (w : V)
  | take
  | steal
deriving DecidableEq

/-- The deque after a call, what the call returns, and what it has read from slots of buffers. -/
structure Outcome (V : Type*) where
  deque : Deque V
  answer : Option (Result V)
  reads : List (Option V)

variable {V : Type*}

/-- The loop of `resize`, from `t` up to `b`. -/
def copy (a new : Arr V) (t b : ℕ) : Arr V :=
  (List.range' t (b - t)).foldl (fun new i => new.put i (a.get i)) new

/-- The deque after `resize`, and what its loop has read. -/
def resize (q : Deque V) : Deque V × List (Option V) :=
  let a := q.array
  let new : Arr V := ⟨a.size * 2 % 2 ^ 64, fun _ => none⟩
  let t := q.top
  let b := q.bottom
  ({ q with array := copy a new t b }, (List.range' t (b - t)).map a.get)

def take (q : Deque V) : Outcome V :=
  let b := dec q.bottom
  let a := q.array
  let q := { q with bottom := b }
  let t := q.top
  if t ≤ b then
    let x := a.get b
    if t = b then
      -- nobody interferes between the load of `top` and the exchange
      ⟨{ q with top := inc t, bottom := inc b }, some (.work x), [x]⟩
    else ⟨q, some (.work x), [x]⟩
  else ⟨{ q with bottom := inc b }, some .empty, []⟩

def push (q : Deque V) (w : V) : Outcome V :=
  let b := q.bottom
  let t := q.top
  let r := if sub b t > sub q.array.size 1 then resize q else (q, [])
  ⟨{ r.1 with array := r.1.array.put b (some w), bottom := inc b }, none, r.2⟩

def steal (q : Deque V) : Outcome V :=
  let t := q.top
  let b := q.bottom
  if t < b then
    let x := q.array.get t
    ⟨{ q with top := inc t }, some (.work x), [x]⟩
  else ⟨q, some .empty, []⟩

def Deque.call (q : Deque V) : Call V → Outcome V
  | .push w => push q w
  | .take => take q
  | .steal => steal q

/-- The outcomes of calls made one after the other. -/
def Deque.outcomes (q : Deque V) : List (Call V) → List (Outcome V)
  | [] => []
  | c :: cs => q.call c :: (q.call c).deque.outcomes cs

/-- `init`. -/
def init (sizeHint : ℕ) : Deque V := ⟨0, 0, ⟨sizeHint, fun _ => none⟩⟩

/-! ### The list -/

/-- What a call does to a list, and what it returns. -/
def listCall (xs : List V) : Call V → List V × Option (Result V)
  | .push w => (xs ++ [w], none)
  | .take => (xs.dropLast, some (xs.getLast?.elim .empty fun x => .work (some x)))
  | .steal => (xs.tail, some (xs.head?.elim .empty fun x => .work (some x)))

def listAnswers (xs : List V) : List (Call V) → List (Option (Result V))
  | [] => []
  | c :: cs => (listCall xs c).2 :: listAnswers (listCall xs c).1 cs

/-- The calls return what they would on a list, and read no slot that was never written. -/
def Agrees (q : Deque V) (xs : List V) (cs : List (Call V)) : Prop :=
  (q.outcomes cs).map Outcome.answer = listAnswers xs cs ∧ ∀ o ∈ q.outcomes cs, none ∉ o.reads

def Call.isPush : Call V → Bool
  | .push _ => true
  | _ => false

/-- How many calls of `push` there are. -/
def pushes (cs : List (Call V)) : ℕ := cs.countP Call.isPush

/-- No `take` comes before the first `push`. -/
def TakesAfterPush (cs : List (Call V)) : Prop := .take ∉ cs.takeWhile fun c => !c.isPush

/-! ### The deque holds the list -/

/-- The deque holds the list, after `n` calls of `push` at most. -/
structure Represents (q : Deque V) (xs : List V) (n : ℕ) : Prop where
  top_le : q.top ≤ q.bottom
  bottom_le : q.bottom ≤ n
  size_pos : 1 ≤ q.array.size
  size_lt : q.array.size < 2 ^ 64
  fits : q.bottom - q.top ≤ q.array.size
  holds : (List.range' q.top (q.bottom - q.top)).map q.array.get = xs.map some

theorem represents_init {sizeHint : ℕ} (h : 1 ≤ sizeHint) (hlt : sizeHint < 2 ^ 64) :
    Represents (init (V := V) sizeHint) [] 0 :=
  ⟨Nat.le_refl 0, Nat.le_refl 0, h, hlt, Nat.zero_le _, rfl⟩

section Copy
variable {a new : Arr V} {t i k : ℕ}

theorem copy_succ : copy a new t (t + (k + 1)) =
    (copy a new t (t + k)).put (t + k) (a.get (t + k)) := by
  unfold copy
  rw [Nat.add_sub_cancel_left, Nat.add_sub_cancel_left, List.range'_1_concat, List.foldl_append]
  rfl

@[simp] theorem size_copy : (copy a new t (t + k)).size = new.size := by
  induction k with
  | zero => simp [copy]
  | succ k ih => rw [copy_succ, SlotArray.size_put, ih]

/-- The new array gets what the old one has, when the indices have slots of their own there. -/
theorem get_copy (hk : k ≤ new.size) (hi : t ≤ i) (hi' : i < t + k) :
    (copy a new t (t + k)).get i = a.get i := by
  induction k with
  | zero => omega
  | succ k ih =>
    rw [copy_succ]
    by_cases hlast : i = t + k
    · rw [hlast, SlotArray.get_put_self]
    · have hne : i % (copy a new t (t + k)).size ≠ (t + k) % (copy a new t (t + k)).size := by
        rw [size_copy]
        exact mod_ne (by omega) (by omega)
      rw [SlotArray.get_put_of_ne hne]
      exact ih (by omega) (by omega)

end Copy

theorem push_room {q : Deque V} (w : V) (h : ¬ sub q.bottom q.top > sub q.array.size 1) :
    push q w = ⟨{ q with array := q.array.put q.bottom (some w), bottom := inc q.bottom }, none,
      []⟩ := by
  unfold push
  simp only [if_neg h]

theorem push_full {q : Deque V} (w : V) (h : sub q.bottom q.top > sub q.array.size 1) :
    push q w = ⟨{ (resize q).1 with array := (resize q).1.array.put q.bottom (some w)
                                    bottom := inc q.bottom }, none, (resize q).2⟩ := by
  unfold push
  simp only [if_pos h]

theorem push_bottom (q : Deque V) (w : V) : (push q w).deque.bottom = inc q.bottom := rfl

namespace Represents
variable {q : Deque V} {xs : List V} {n : ℕ} (h : Represents q xs n)
include h

theorem length_eq : xs.length = q.bottom - q.top := by
  have hlen := congrArg List.length h.holds
  simpa using hlen.symm

/-- The slots of the list are written. -/
theorem holds_written : none ∉ (List.range' q.top (q.bottom - q.top)).map q.array.get := by
  rw [h.holds]
  simp

/-- `resize` keeps the list, and makes room for one element more. -/
theorem resize (hn : n < 2 ^ 63) (hfull : q.bottom - q.top = q.array.size) :
    Represents (WorkSteal.resize q).1 xs n ∧
      q.bottom - q.top < (WorkSteal.resize q).1.array.size ∧ none ∉ (WorkSteal.resize q).2 := by
  have hle := h.top_le
  have hb := h.bottom_le
  have hpos := h.size_pos
  have hend : q.top + (q.bottom - q.top) = q.bottom := by omega
  have hsize : q.array.size * 2 % 2 ^ 64 = q.array.size * 2 := Nat.mod_eq_of_lt (by omega)
  have hnew : (WorkSteal.resize q).1.array.size = q.array.size * 2 := by
    simp only [WorkSteal.resize]
    rw [← hend, size_copy]
    exact hsize
  refine ⟨⟨hle, hb, by omega, by omega, ?_, ?_⟩, by omega, h.holds_written⟩
  · rw [hnew]
    change q.bottom - q.top ≤ _
    omega
  · refine Eq.trans (List.map_congr_left fun i hi => ?_) h.holds
    rw [List.mem_range'_1] at hi
    simp only [WorkSteal.resize] at hi ⊢
    rw [← hend]
    exact get_copy (by simp only; omega) hi.1 hi.2

/-- A write behind the newest element. -/
theorem append (hn : n < 2 ^ 63) (hroom : q.bottom - q.top < q.array.size) (w : V) :
    Represents { q with array := q.array.put q.bottom (some w), bottom := inc q.bottom }
      (xs ++ [w]) (n + 1) := by
  have hle := h.top_le
  have hb := h.bottom_le
  have hinc : inc q.bottom = q.bottom + 1 := inc_eq (by omega)
  have hcount : q.bottom + 1 - q.top = q.bottom - q.top + 1 := by omega
  refine ⟨?_, ?_, h.size_pos, h.size_lt, ?_, ?_⟩
  · simp only [hinc]
    omega
  · simp only [hinc]
    omega
  · simp only [hinc, SlotArray.size_put]
    omega
  · simp only [hinc, hcount]
    rw [List.range'_1_concat, List.map_append, List.map_append, ← h.holds]
    have hend : q.top + (q.bottom - q.top) = q.bottom := by omega
    congr 1
    · refine List.map_congr_left fun i hi => ?_
      rw [List.mem_range'_1] at hi
      exact SlotArray.get_put_of_ne (mod_ne (by omega) (by omega))
    · simp [hend]

/-- `push` appends to the list. -/
theorem push (hn : n < 2 ^ 63) (w : V) : Represents (WorkSteal.push q w).deque (xs ++ [w]) (n + 1) ∧
    none ∉ (WorkSteal.push q w).reads := by
  have hle := h.top_le
  have hb := h.bottom_le
  have hpos := h.size_pos
  have hfits := h.fits
  have hused : sub q.bottom q.top = q.bottom - q.top := sub_eq hle (by omega)
  have hlast : sub q.array.size 1 = q.array.size - 1 := sub_eq hpos h.size_lt
  by_cases hfull : sub q.bottom q.top > sub q.array.size 1
  · rw [push_full w hfull]
    rw [hused, hlast] at hfull
    obtain ⟨hrep, hroom, hreads⟩ := h.resize hn (by omega)
    exact ⟨hrep.append hn hroom w, hreads⟩
  · rw [push_room w hfull]
    rw [hused, hlast] at hfull
    exact ⟨h.append hn (by omega) w, by simp⟩

/-- The oldest element. -/
theorem head (hn : n < 2 ^ 63) (hlt : q.top < q.bottom) : ∃ x ys, xs = x :: ys ∧ q.array.get q.top = some x ∧
    Represents { q with top := inc q.top } ys n := by
  have hb := h.bottom_le
  obtain ⟨k, hk⟩ : ∃ k, q.bottom - q.top = k + 1 := ⟨q.bottom - q.top - 1, by omega⟩
  have hholds := h.holds
  rw [hk, List.range'_succ, List.map_cons] at hholds
  cases xs with
  | nil => cases hholds
  | cons x ys =>
    obtain ⟨hx, hys⟩ := List.cons.inj hholds
    have hinc : inc q.top = q.top + 1 := inc_eq (by omega)
    have hcount : q.bottom - (q.top + 1) = k := by omega
    have hfits := h.fits
    refine ⟨x, ys, rfl, hx, ?_, hb, h.size_pos, h.size_lt, ?_, ?_⟩
    · simp only [hinc]
      omega
    · simp only [hinc]
      omega
    · simp only [hinc, hcount]
      exact hys

/-- The newest element. -/
theorem last (hlt : q.top < q.bottom) : ∃ x ys, xs = ys ++ [x] ∧
    q.array.get (q.bottom - 1) = some x ∧ Represents { q with bottom := q.bottom - 1 } ys n := by
  have hb := h.bottom_le
  obtain ⟨k, hk⟩ : ∃ k, q.bottom - q.top = k + 1 := ⟨q.bottom - q.top - 1, by omega⟩
  have hend : q.top + k = q.bottom - 1 := by omega
  have hholds := h.holds
  rw [hk, List.range'_1_concat, List.map_append, hend] at hholds
  have hne : xs ≠ [] := by
    rintro rfl
    simp at hholds
  obtain ⟨ys, x, rfl⟩ : ∃ ys x, xs = ys ++ [x] :=
    ⟨xs.dropLast, xs.getLast hne, (List.dropLast_append_getLast hne).symm⟩
  rw [List.map_append] at hholds
  obtain ⟨hys, hx⟩ := List.append_inj' hholds rfl
  have hcount : q.bottom - 1 - q.top = k := by omega
  have hfits := h.fits
  refine ⟨x, ys, rfl, by simpa using hx, ?_, ?_, h.size_pos, h.size_lt, ?_, ?_⟩
  · simp only
    omega
  · simp only
    omega
  · simp only
    omega
  · simp only [hcount]
    exact hys

theorem empty (heq : q.top = q.bottom) : xs = [] := by
  have hlen := h.length_eq
  rw [heq, Nat.sub_self] at hlen
  exact List.eq_nil_of_length_eq_zero hlen

/-- `steal` takes the oldest element off the list. -/
theorem steal (hn : n < 2 ^ 63) : Represents (WorkSteal.steal q).deque (listCall xs .steal).1 n ∧
    (WorkSteal.steal q).answer = (listCall xs .steal).2 ∧ none ∉ (WorkSteal.steal q).reads := by
  have hle := h.top_le
  unfold WorkSteal.steal
  by_cases hlt : q.top < q.bottom
  · obtain ⟨x, ys, rfl, hx, hrep⟩ := h.head hn hlt
    simp only [if_pos hlt, hx]
    exact ⟨hrep, rfl, by simp⟩
  · obtain rfl := h.empty (by omega)
    simp only [if_neg hlt]
    exact ⟨h, rfl, by simp⟩

/-- `take` takes the newest element off the list, once `bottom` is not zero. -/
theorem take (hn : n < 2 ^ 63) (hpos : 0 < q.bottom) :
    Represents (WorkSteal.take q).deque (listCall xs .take).1 n ∧
      (WorkSteal.take q).answer = (listCall xs .take).2 ∧ none ∉ (WorkSteal.take q).reads ∧
      0 < (WorkSteal.take q).deque.bottom := by
  have hle := h.top_le
  have hb := h.bottom_le
  have hdec : dec q.bottom = q.bottom - 1 := by
    have := dec_add_one hpos (show q.bottom < 2 ^ 64 by omega)
    omega
  have hback : inc (q.bottom - 1) = q.bottom := by
    rw [inc_eq (by omega)]
    omega
  unfold WorkSteal.take
  simp only [hdec]
  by_cases hlt : q.top < q.bottom
  · obtain ⟨x, ys, rfl, hx, hrep⟩ := h.last hlt
    rw [if_pos (by omega : q.top ≤ q.bottom - 1), hx]
    have hlist : listCall (ys ++ [x]) .take = (ys, some (.work (some x))) := by simp [listCall]
    rw [hlist]
    by_cases hone : q.top = q.bottom - 1
    · rw [if_pos hone, hback]
      -- the last element goes through `top`
      obtain ⟨y, zs, heq, -, hrep'⟩ := h.head hn hlt
      have hys : ys = [] := by
        have hlen := h.length_eq
        rw [List.length_append, List.length_singleton] at hlen
        exact List.eq_nil_of_length_eq_zero (by omega)
      subst hys
      obtain rfl : zs = [] := (List.cons.inj heq).2.symm
      exact ⟨hrep', rfl, by simp, hpos⟩
    · rw [if_neg hone]
      exact ⟨hrep, rfl, by simp, by simp only; omega⟩
  · obtain rfl := h.empty (by omega)
    rw [if_neg (by omega : ¬ q.top ≤ q.bottom - 1), hback]
    exact ⟨h, rfl, by simp, hpos⟩

end Represents

/-! ### Sequences of calls -/

section Sequences
variable {q : Deque V} {xs : List V} {n : ℕ} {c : Call V} {cs : List (Call V)}

/-- The answers agree when those of the first call do and those of the others. -/
theorem agrees_cons (ha : (q.call c).answer = (listCall xs c).2) (hr : none ∉ (q.call c).reads)
    (h : Agrees (q.call c).deque (listCall xs c).1 cs) : Agrees q xs (c :: cs) := by
  refine ⟨congrArg₂ List.cons ha h.1, fun o ho => ?_⟩
  rcases List.mem_cons.mp ho with rfl | ho
  · exact hr
  · exact h.2 o ho

/-- Once `bottom` is not zero the deque is the list in every sequence of calls. -/
theorem agrees_of_pos (h : Represents q xs n) (hpos : 0 < q.bottom)
    (hn : n + pushes cs < 2 ^ 63) : Agrees q xs cs := by
  induction cs generalizing q xs n with
  | nil => exact ⟨rfl, by simp [Deque.outcomes]⟩
  | cons c cs ih =>
    cases c with
    | push w =>
      have hcount : pushes (.push w :: cs) = pushes cs + 1 := List.countP_cons_of_pos rfl
      obtain ⟨hrep, hreads⟩ := h.push (by omega) w
      have hb := h.bottom_le
      have hpos' : 0 < (push q w).deque.bottom := by
        rw [push_bottom, inc_eq (by omega)]
        omega
      exact agrees_cons rfl hreads (ih hrep hpos' (by omega))
    | take =>
      have hcount : pushes (.take :: cs) = pushes cs := by simp [pushes, Call.isPush]
      obtain ⟨hrep, ha, hreads, hpos'⟩ := h.take (by omega) hpos
      exact agrees_cons ha hreads (ih hrep hpos' (by omega))
    | steal =>
      have hcount : pushes (.steal :: cs) = pushes cs := by simp [pushes, Call.isPush]
      obtain ⟨hrep, ha, hreads⟩ := h.steal (by omega)
      have hpos' : 0 < (steal q).deque.bottom := by
        unfold steal
        simp only
        split <;> exact hpos
      exact agrees_cons ha hreads (ih hrep hpos' (by omega))

/-- On the deque as `init` makes it, `take` reads a slot that was never written. -/
theorem take_init (sizeHint : ℕ) : none ∈ (take (init (V := V) sizeHint)).reads := by
  have hdec : dec 0 = 2 ^ 64 - 1 := by decide
  simp [take, init, hdec, SlotArray.get]

end Sequences

/-- The deque is a list from the start in exactly those sequences of calls in which no `take` comes
before the first `push`. -/
theorem sequential_list {sizeHint : ℕ} (hsize : 1 ≤ sizeHint) (hint : sizeHint < 2 ^ 31)
    (cs : List (Call V)) (hn : pushes cs < 2 ^ 63) :
    Agrees (init sizeHint) [] cs ↔ TakesAfterPush cs := by
  have hinit : Represents (init (V := V) sizeHint) [] 0 := represents_init hsize (by omega)
  induction cs with
  | nil => exact iff_of_true ⟨rfl, by simp [Deque.outcomes]⟩ (by simp [TakesAfterPush])
  | cons c cs ih =>
    cases c with
    | push w =>
      have hcount : pushes (.push w :: cs) = pushes cs + 1 := List.countP_cons_of_pos rfl
      obtain ⟨hrep, hreads⟩ := hinit.push (by omega) w
      refine iff_of_true (agrees_cons rfl hreads (agrees_of_pos hrep ?_ (by omega))) ?_
      · change 0 < (push (init sizeHint) w).deque.bottom
        rw [push_bottom]
        exact (by decide : 0 < inc 0)
      · simp [TakesAfterPush, Call.isPush]
    | take =>
      refine iff_of_false (fun h => ?_) ?_
      · exact h.2 _ (List.mem_cons_self ..) (take_init sizeHint)
      · simp [TakesAfterPush, Call.isPush]
    | steal =>
      have hcount : pushes (.steal :: cs) = pushes cs := by simp [pushes, Call.isPush]
      have hafter : TakesAfterPush (.steal :: cs) ↔ TakesAfterPush cs := by
        simp [TakesAfterPush, Call.isPush]
      have hrest := ih (by omega)
      refine Iff.trans ?_ (hrest.trans hafter.symm)
      have hsame : (init (V := V) sizeHint).call .steal = ⟨init sizeHint, some .empty, []⟩ := by
        simp [Deque.call, steal, init]
      refine ⟨fun h => ?_, fun h => agrees_cons (by rw [hsame]; rfl) (by rw [hsame]; simp) ?_⟩
      · have hmap := (List.cons.inj h.1).2
        rw [hsame] at hmap
        refine ⟨hmap, fun o ho => h.2 o (List.mem_cons_of_mem _ ?_)⟩
        rw [hsame]
        exact ho
      · rw [hsame]
        exact h

/-- A deque that grows, is drained and is used again. -/
theorem sequential_list_drain :
    Agrees (init 1) [] [.steal, .push 3, .push 4, .push 5, .take, .steal, .take, .take, .push 6,
      .steal, .take] ↔ TakesAfterPush [.steal, .push 3, .push 4, .push 5, .take, .steal, .take,
      .take, .push 6, .steal, .take] :=
  sequential_list (by decide) (by decide) _ (by decide)

/-- `take` on a deque that has just been made. -/
theorem take_first : ¬ ∀ cs : List (Call ℕ), Agrees (init 4) [] cs :=
  fun h => (h [.take]).2 _ (List.mem_cons_self ..) (take_init 4)

end LinuxSummer.WorkSteal
