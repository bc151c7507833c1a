import LinuxSummer.Tally

/-! The loop in which a worker looks for work, as hw3/work-steal.c and
hw3/work-steal-qsort/src/hina.c have it in `thread`. Up to the call of `do_work` it reads
the deques and the flag `done` only; the deques are any that hand out what they hold. -/
set_option linter.unusedSectionVars false

namespace LinuxSummer.WorkLoop

/-- A `work_t *` that `take` or `steal` returns. -/
inductive Got (W : Type*) where
  | empty
  | abort
  | work (w : W)
deriving DecidableEq

variable {W C : Type*}

/-- What was returned came out of the deque, and nothing else did. -/
def Hands (q : List W) : Got W × List W → Prop
  | (.work w, q') => (w :: q').Perm q
  | (_, q') => q' = q

/-- `take` and `steal` on the contents of a deque. The choice settles what the contents do not,
such as whether a race is lost. -/
structure Deque (W C : Type*) where
  take : C → List W → Got W × List W
  steal : C → List W → Got W × List W
  take_hands : ∀ c q, Hands q (take c q)
  steal_hands : ∀ c q, Hands q (steal c q)
  take_ne_abort : ∀ c q, (take c q).1 ≠ .abort

/-- How a race for an element ends; only `steal` can lose it. -/
inductive Race where
  | won
  | lost

/-- `take` at the end where `push` works. -/
def take (q : List W) : Got W × List W :=
  match q.getLast? with
  | none => (.empty, q)
  | some w => (.work w, q.dropLast)

def steal : Race → List W → Got W × List W
  | .lost, q => (.abort, q)
  | .won, [] => (.empty, [])
  | .won, w :: q => (.work w, q)

/-- The double-ended queue. -/
def deque (W : Type*) : Deque W Race where
  take _ q := take q
  steal := steal
  take_hands _ q := by
    unfold take
    cases h : q.getLast? with
    | none => exact rfl
    | some w =>
      have hq : q.dropLast ++ [w] = q := List.dropLast_append_getLast? w h
      have hperm : ([w] ++ q.dropLast).Perm (q.dropLast ++ [w]) := List.perm_append_comm
      rwa [hq] at hperm
  steal_hands c q := by
    cases c with
    | lost => exact rfl
    | won =>
      cases q with
      | nil => exact rfl
      | cons w q => exact List.Perm.refl _
  take_ne_abort _ q := by
    unfold take
    cases q.getLast? <;> exact nofun

/-- Where a worker is in the body of its loop. -/
inductive Idle (W : Type*) where
  | take
  /-- At the head of the `for` loop. -/
  | steal (i : ℕ) (stolen : Got W)
  /-- `stolen` is `EMPTY`, and `done` is read next. -/
  | check
  /-- At the call of `do_work`. -/
  | found (x : Got W)
  | left
deriving DecidableEq

variable {n : ℕ}

/-- The next access of the worker `id` in its loop. -/
def idleStep (D : Deque W C) (id : Fin n) (queues : Fin n → List W) (done : Bool) (c : C) :
    Idle W → Option ((Fin n → List W) × Idle W)
  | .take =>
    let r := D.take c (queues id)
    some (Function.update queues id r.2, match r.1 with
      | .empty => .steal 0 .empty
      | x => .found x)
  | .steal i stolen =>
    if h : i < n then
      if i = id then some (queues, .steal (i + 1) stolen)
      else
        let r := D.steal c (queues ⟨i, h⟩)
        some (Function.update queues ⟨i, h⟩ r.2, match r.1 with
          | .abort => .steal i .abort  -- try again at the same i
          | .empty => .steal (i + 1) .empty
          | .work w => .found (.work w))
    else some (queues, match stolen with
      | .empty => .check
      | x => .found x)
  | .check => some (queues, if done then .left else .take)
  | .found _ => none
  | .left => none

/-! ### What the loop does -/

/-- The work a worker is about to pass to `do_work`. -/
def Idle.holds : Idle W → List W
  | .found (.work w) => [w]
  | _ => []

/-- `ABORT` is in `stolen` only on the way to another attempt at the same deque, and neither
constant is passed to `do_work`. -/
def Idle.Plain (id : Fin n) : Idle W → Prop
  | .steal i .abort => i < n ∧ i ≠ id
  | .steal _ (.work _) => False
  | .found x => ∃ w, x = .work w
  | _ => True

/-- What comes out of one deque is what the others and the worker have more. -/
theorem tally_hands [DecidableEq W] {queues : Fin n → List W} {i : Fin n} {r : Got W × List W}
    (h : Hands (queues i) r) (w : W) :
    tally (fun q => q) (Function.update queues i r.2) w + (Idle.found r.1).holds.count w =
      tally (fun q => q) queues w := by
  rcases r with ⟨x, q'⟩
  have htally : tally (fun q => q) (Function.update queues i q') w + (queues i).count w =
      tally (fun q => q) queues w + q'.count w := tally_update (fun q => q) queues i q' w
  cases x with
  | empty | abort =>
    obtain rfl : q' = queues i := h
    simp only [Idle.holds, List.count_nil]
    omega
  | work w' =>
    have hcount := List.Perm.count_eq h w
    rw [List.count_cons] at hcount
    simp only [Idle.holds, List.count_singleton]
    omega

/-- What one step in the loop does: it moves on with the deques as they are, and out of the loop
only after `done`, or it has found work that is now no more in its deque. -/
theorem idleStep_cases [DecidableEq W] {D : Deque W C} {id : Fin n} {queues queues' : Fin n → List W}
    {done : Bool} {c : C} {l l' : Idle W} (hl : l.Plain id)
    (h : idleStep D id queues done c l = some (queues', l')) :
    l.holds = [] ∧ l'.Plain id ∧ (l' = .left → done = true) ∧
      ∀ w, tally (fun q => q) queues' w + l'.holds.count w = tally (fun q => q) queues w := by
  cases l with
  | take =>
    simp only [idleStep, Option.some.injEq, Prod.mk.injEq] at h
    obtain ⟨rfl, rfl⟩ := h
    have htally := tally_hands (D.take_hands c (queues id))
    have habort := D.take_ne_abort c (queues id)
    generalize D.take c (queues id) = r at htally habort
    rcases r with ⟨_ | _ | w, q⟩
    · exact ⟨rfl, trivial, nofun, htally⟩
    · exact absurd rfl habort
    · exact ⟨rfl, ⟨w, rfl⟩, nofun, htally⟩
  | steal i stolen =>
    simp only [idleStep] at h
    split at h
    · rename_i hi
      split at h
      · rename_i hid
        cases h
        refine ⟨rfl, ?_, nofun, fun w => rfl⟩
        cases stolen with
        | empty => trivial
        | abort => exact absurd hid hl.2
        | work w => exact hl.elim
      · rename_i hid
        simp only [Option.some.injEq, Prod.mk.injEq] at h
        obtain ⟨rfl, rfl⟩ := h
        have htally := tally_hands (D.steal_hands c (queues ⟨i, hi⟩))
        generalize D.steal c (queues ⟨i, hi⟩) = r at htally
        rcases r with ⟨_ | _ | w, q⟩
        · exact ⟨rfl, trivial, nofun, htally⟩
        · exact ⟨rfl, ⟨hi, hid⟩, nofun, htally⟩
        · exact ⟨rfl, ⟨w, rfl⟩, nofun, htally⟩
    · rename_i hi
      cases h
      cases stolen with
      | empty => exact ⟨rfl, trivial, nofun, fun w => rfl⟩
      | abort => exact absurd hl.1 hi
      | work w => exact hl.elim
  | check =>
    simp only [idleStep, Option.some.injEq, Prod.mk.injEq] at h
    obtain ⟨rfl, rfl⟩ := h
    cases done with
    | false => exact ⟨rfl, trivial, nofun, fun w => rfl⟩
    | true => exact ⟨rfl, trivial, fun _ => rfl, fun w => rfl⟩
  | found x => cases h
  | left => cases h

end LinuxSummer.WorkLoop
