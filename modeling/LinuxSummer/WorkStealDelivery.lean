import LinuxSummer.WorkStealInvariant

/-! Exactly-once delivery of the deque of hw3/work-steal.c. -/
namespace LinuxSummer.WorkSteal
open IndexWindow
set_option linter.unusedSectionVars false

variable {T V : Type*} [DecidableEq T] {s : Config (Who T) (Shared V) (Pc V)} {sizeHint : ℕ}

/-- The works stored at the indices from `top` up to `bottom` of the current array. -/
def Shared.contents (g : Shared V) : Multiset (Option V) := window g.slot g.top g.bottom

/-- Nothing is returned that was not pushed, and no push is returned twice; with no call in
progress the pushes not yet returned are the contents of the deque. -/
def ExactlyOnce (s : Config (Who T) (Shared V) (Pc V)) : Prop :=
  (s.shared.returned : Multiset (Option V)) ≤ (s.shared.pushed.map some : List (Option V)) ∧
    ((∀ u, s.thread u = .idle) →
      (s.shared.pushed.map some : Multiset (Option V)) = s.shared.returned + s.shared.contents)

theorem exactlyOnce_of_inv (hi : Inv s) : ExactlyOnce s := by
  have hbal := hi.1.balance
  refine ⟨?_, fun hidle => ?_⟩
  · rw [hbal, add_assoc]
    exact Multiset.le_add_right _ _
  · have howner : OwnerInv s.shared (s.thread .owner) := hi.2 .owner
    rw [hidle] at howner
    obtain ⟨hbot, hclaim⟩ := howner
    rw [hbal, hclaim, Shared.contents, hbot, Multiset.coe_nil, add_zero]

/-- Exactly-once delivery, for any number of thieves and any interleaving. -/
theorem exactly_once (hsize : 1 ≤ sizeHint) (hr : (system T V sizeHint).Reachable Ok s) :
    ExactlyOnce s :=
  exactlyOnce_of_inv (inv_reachable hsize hr)

/-- Two works, the second of which makes the array grow; a thief steals the first one while the
owner takes the second. -/
def growSchedule : List (Who Bool × Act ℕ) :=
  (.owner, .push 7) :: List.replicate 5 (.owner, .run) ++
    (.owner, .push 8) :: List.replicate 12 (.owner, .run) ++
      [(.thief true, .steal), (.thief true, .run), (.owner, .take), (.owner, .run),
        (.thief true, .run), (.owner, .run), (.thief true, .run), (.owner, .run),
        (.thief true, .run), (.thief true, .run), (.owner, .run), (.owner, .run), (.owner, .run),
        (.owner, .run)]

theorem exactly_once_grow : ∃ s : Config (Who Bool) (Shared ℕ) (Pc ℕ),
    s.shared.returned = [some 8, some 7] ∧ ExactlyOnce s := by
  let check (s : Config (Who Bool) (Shared ℕ) (Pc ℕ)) (a : Who Bool × Act ℕ) : Bool :=
    match a.2 with
    | .take => !s.shared.pushed.isEmpty
    | .push _ => decide (s.shared.bottom + 1 < 2 ^ 64)
    | _ => true
  have hcheck : ∀ s a, check s a = true → Ok s a := by
    rintro s ⟨u, a⟩ h
    cases a <;> simp_all [check, Ok]
  have hrun : ((system Bool ℕ 1).exec check (start _ _ 1) growSchedule).any
      (fun s => decide (s.shared.returned = [some 8, some 7])) = true := by decide +kernel
  obtain ⟨s, hs, hret⟩ := (Option.any_eq_true _ _).mp hrun
  exact ⟨s, of_decide_eq_true hret,
    exactly_once (Nat.le_refl 1) ⟨_, rfl, System.run_of_exec hcheck hs⟩⟩

end LinuxSummer.WorkSteal
