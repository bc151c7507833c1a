import LinuxSummer.HinaReclaim

/-! The assertion of `deque_resize` in hw3/work-steal-qsort: when the slot `q->old_array` is empty
again by the next time the array is replaced. -/
namespace LinuxSummer.Hina
set_option linter.unusedSectionVars false

variable {nr : ℕ} {V : Type*} {g g' : Shared nr V} {pc pc' : Pc V} {o u : Fin nr}
  {s s' s₁ s₂ : Config (Fin nr) (Shared nr V) (Pc V)} {sizeHint : ℕ}

/-- The `bottom` that `deque_push` has loaded. -/
def loadedBottom : Pc V → Option ℕ
  | .pushTop _ b => some b
  | .pushArray _ b _ => some b
  | .resizeArray _ b => some b
  | .resizeTop _ b _ _ => some b
  | .resizeBottom _ b _ _ _ => some b
  | .copyLoad _ b _ _ _ _ => some b
  | .copyStore _ b _ _ _ _ _ => some b
  | .resizeStore _ b _ _ => some b
  | .resizeAssert _ b _ => some b
  | .pushReload _ b => some b
  | .pushSlot _ b _ => some b
  | .pushCas _ b => some b
  | _ => none

/-- The slot is empty, but for the end of a `deque_push` that has replaced the array and for the
`deque_gc` after it. -/
def SlotEmpty (g : Shared nr V) : Pc V → Prop
  | .gc _ .array => True
  | .gc _ (.handle _) => True
  | .gc _ .old => True
  | .gc _ (.cas x) => g.oldArray = none ∨ g.oldArray = some x
  | .pushReload _ _ => True
  | .pushSlot _ _ _ => True
  | .pushCas _ _ => True
  | _ => g.oldArray = none

/-- The condition on the steps from the owner's `deque_gc` on: no `deque_gc` puts an array back
into the slot, and the owner's compare-and-swap does not fail for no reason. -/
def NothingBack (o : Fin nr) (s : Config (Fin nr) (Shared nr V) (Pc V)) (a : Fin nr × Act V) : Prop :=
  a ≠ (o, .fail) ∧ ∀ r old, s.thread a.1 ≠ .gc r (.putBack old)

theorem ret_slot (g : Shared nr V) (r : Result V) :
    (g.ret r).bottom = g.bottom ∧ (g.ret r).oldArray = g.oldArray := by
  cases r <;> exact ⟨rfl, rfl⟩

/-- `deque_gc` leaves `bottom` alone, and empties the slot unless it puts an array back. -/
theorem runGc_slot {r : Result V} {p : GcPc} (hback : ∀ old, p ≠ .putBack old)
    (h : runGc u g r p = some (g', pc')) :
    g'.bottom = g.bottom ∧ (g'.oldArray = g.oldArray ∨ g'.oldArray = none) := by
  cases p <;> simp only [runGc] at h
  case putBack old => exact absurd rfl (hback old)
  case array | handle a =>
    cases h
    exact ⟨rfl, .inl rfl⟩
  case old =>
    split at h
    · cases h
      exact (ret_slot g r).imp id .inl
    · cases h
      exact ⟨rfl, .inl rfl⟩
  case cas old =>
    split at h
    · cases h
      exact ⟨rfl, .inr rfl⟩
    · cases h
      exact (ret_slot g r).imp id .inl
  case scan old i =>
    split at h
    · split at h
      · cases h
        exact ⟨rfl, .inl rfl⟩
      · cases h
        exact ⟨rfl, .inl rfl⟩
    · cases h
      exact ⟨rfl, .inl rfl⟩
  case free old =>
    cases h
    exact (ret_slot _ r).imp id .inl

/-- A step of a thief leaves `bottom` alone, and at most empties the slot. -/
theorem thief_slot {a : Act V} (hthief : ¬ OwnerOnly pc) (hback : ∀ r old, pc ≠ .gc r (.putBack old))
    (h : next o u g pc a = some (g', pc')) :
    g'.bottom = g.bottom ∧ (g'.oldArray = g.oldArray ∨ g'.oldArray = none) := by
  rcases next_cases h with ⟨junk, rfl, hrun⟩ | ⟨r, old, -, -, rfl, -⟩ | ⟨-, rfl, -⟩
  · cases pc <;> simp only [run] at hrun <;> try exact absurd trivial hthief
    case gc r p => exact runGc_slot (fun old hp => hback r old (by rw [hp])) hrun
    all_goals (repeat' split at hrun) <;> cases hrun <;> exact ⟨rfl, .inl rfl⟩
  · exact (ret_slot g r).imp id .inl
  · exact ⟨rfl, .inl rfl⟩

theorem loadedBottom_copyLoop (w : V) (b a new i e : ℕ) :
    loadedBottom (copyLoop w b a new i e) = some b := by
  unfold copyLoop
  split <;> rfl

theorem slotEmpty_copyLoop {w : V} {b a new i e : ℕ} (h : g.oldArray = none) :
    SlotEmpty g (copyLoop w b a new i e) := by
  unfold copyLoop
  split <;> exact h

/-- Only the owner writes `bottom`, so what it has loaded stays true. -/
theorem owner_bottom {a : Act V} (hb : ∀ b, loadedBottom pc = some b → b = g.bottom)
    (h : next o u g pc a = some (g', pc')) : ∀ b, loadedBottom pc' = some b → b = g'.bottom := by
  intro b hl
  rcases next_cases h with ⟨junk, rfl, hrun⟩ | ⟨r, old, -, -, rfl, rfl⟩ | ⟨-, rfl, hcall⟩
  · cases pc <;> simp only [run] at hrun
    case gc r p =>
      cases p <;> simp only [runGc] at hrun <;> (repeat' split at hrun) <;> cases hrun <;> cases hl
    case pushBottom w =>
      cases hrun
      exact (Option.some.inj hl).symm
    case resizeBottom w b' a new t =>
      cases hrun
      rw [loadedBottom_copyLoop] at hl
      exact hb b hl
    case copyStore w b' a new i e x =>
      cases hrun
      rw [loadedBottom_copyLoop] at hl
      exact hb b hl
    all_goals (repeat' split at hrun) <;> cases hrun <;> first | exact hb b hl | cases hl
  · cases hl
  · rcases hcall with ⟨w, -, -, rfl⟩ | ⟨-, rfl⟩ | ⟨-, rfl⟩ <;> cases hl

/-- The owner comes to its assertion with the slot empty: its `deque_gc` has found it empty, or
has taken the array out, or another thread's has. -/
theorem owner_slot {a : Act V} (hb : ∀ b, loadedBottom pc = some b → b = g.bottom)
    (hs : SlotEmpty g pc) (hfail : a ≠ .fail) (hback : ∀ r old, pc ≠ .gc r (.putBack old))
    (h : next o u g pc a = some (g', pc')) : SlotEmpty g' pc' := by
  rcases next_cases h with ⟨junk, rfl, hrun⟩ | ⟨r, old, hf, -⟩ | ⟨rfl, rfl, hcall⟩
  · cases pc <;> simp only [run] at hrun
    case gc r p =>
      cases p <;> simp only [runGc] at hrun
      case putBack old => exact absurd rfl (hback r old)
      case array | handle a =>
        cases hrun
        trivial
      case old =>
        split at hrun
        · cases hrun
          exact (ret_slot g r).2.trans ‹_›
        · cases hrun
          exact .inr ‹_›
      case cas old =>
        split at hrun
        · cases hrun
          rfl
        · cases hrun
          exact (ret_slot g r).2.trans (hs.resolve_right ‹_›)
      case scan old i =>
        (repeat' split at hrun) <;> cases hrun <;> exact hs
      case free old =>
        cases hrun
        exact (ret_slot _ r).2.trans hs
    case pushCas w b =>
      rw [if_pos (hb b rfl).symm] at hrun
      cases hrun
      trivial
    case resizeBottom w b' a new t =>
      cases hrun
      exact slotEmpty_copyLoop hs
    case copyStore w b' a new i e x =>
      cases hrun
      exact slotEmpty_copyLoop hs
    all_goals (repeat' split at hrun) <;> cases hrun <;> first | exact hs | trivial
  · exact absurd hf hfail
  · rcases hcall with ⟨w, -, -, rfl⟩ | ⟨-, rfl⟩ | ⟨-, rfl⟩ <;> exact hs

/-- What holds of the owner in every run. -/
structure OwnerReads (o : Fin nr) (s : Config (Fin nr) (Shared nr V) (Pc V)) : Prop where
  only : ∀ u, OwnerOnly (s.thread u) → u = o
  bottom : ∀ b, loadedBottom (s.thread o) = some b → b = s.shared.bottom

theorem loadedBottom_ownerOnly {b : ℕ} (h : loadedBottom pc = some b) : OwnerOnly pc := by
  cases pc <;> trivial

theorem next_bottom {a : Act V} (hthief : ¬ OwnerOnly pc) (h : next o u g pc a = some (g', pc')) :
    g'.bottom = g.bottom := by
  by_cases hback : ∃ r old, pc = .gc r (.putBack old)
  · obtain ⟨r, old, rfl⟩ := hback
    rcases next_cases h with ⟨junk, rfl, hrun⟩ | ⟨r', old', -, hpc, -⟩ | ⟨hpc, -⟩
    · cases hrun
      exact (ret_slot _ r).1
    · cases hpc
    · cases hpc
  · exact (thief_slot hthief (fun r old hp => hback ⟨r, old, hp⟩) h).1

theorem ownerReads_step {a : Fin nr × Act V} (hi : OwnerReads o s)
    (h : next o a.1 s.shared (s.thread a.1) a.2 = some (g', pc')) :
    OwnerReads o ⟨g', Function.update s.thread a.1 pc'⟩ := by
  refine ⟨ownerOnly_step hi.only h, fun b hb => ?_⟩
  by_cases ha : o = a.1
  · subst ha
    simp only [Function.update_self] at hb
    exact owner_bottom hi.bottom h b hb
  · simp only [Function.update_of_ne ha] at hb
    rw [hi.bottom b hb]
    exact (next_bottom (fun hown => ha (hi.only _ hown).symm) h).symm

theorem ownerReads_reachable {ok : Config (Fin nr) (Shared nr V) (Pc V) → Fin nr × Act V → Prop}
    (hr : (system V o sizeHint).Reachable ok s) : OwnerReads o s := by
  refine System.reachable_invariant (fun s hs => ?_) (fun s a s' _ hi _ hn => ?_) hr
  · cases hs
    exact ⟨nofun, nofun⟩
  · obtain ⟨g', pc', hnext, rfl⟩ := Threads.step_cases hn
    exact ownerReads_step hi hnext

theorem slotEmpty_of_slot (hs : SlotEmpty g pc)
    (h : g'.oldArray = g.oldArray ∨ g'.oldArray = none) : SlotEmpty g' pc := by
  have hnone : g.oldArray = none → g'.oldArray = none := fun hn => h.elim (·.trans hn) id
  cases pc with
  | gc r p =>
    cases p with
    | cas x => exact h.elim (fun h => hs.imp h.trans h.trans) .inl
    | array | handle _ | old => trivial
    | _ => exact hnone hs
  | pushReload | pushSlot | pushCas => trivial
  | _ => exact hnone hs

/-- From the owner's `deque_gc` on, or from `deque_init` on, every run in which nothing is put back
comes to the assertion of `deque_resize` with `q->old_array` empty. -/
theorem old_array_released {r : Result V} {w : V} {b a : ℕ}
    (h₁ : (system V o sizeHint).Reachable System.free s₁)
    (hgc : s₁ = start nr V sizeHint ∨ s₁.thread o = .gc r .array)
    (hrun : (system V o sizeHint).Run (NothingBack o) s₁ s₂)
    (hpc : s₂.thread o = .resizeAssert w b a) : s₂.shared.oldArray = none := by
  have hend : OwnerReads o s₂ ∧ SlotEmpty s₂.shared (s₂.thread o) := by
    refine System.run_preserves (I := fun s => OwnerReads o s ∧ SlotEmpty s.shared (s.thread o))
      (fun s c s' hi hok hn => ?_) hrun ⟨ownerReads_reachable h₁, ?_⟩
    · obtain ⟨hreads, hs⟩ := hi
      obtain ⟨g', pc', hnext, rfl⟩ := Threads.step_cases hn
      refine ⟨ownerReads_step hreads hnext, ?_⟩
      by_cases hc : o = c.1
      · subst hc
        simp only [Function.update_self]
        exact owner_slot hreads.bottom hs (fun hf => hok.1 (Prod.ext rfl hf)) hok.2 hnext
      · simp only [Function.update_of_ne hc]
        exact slotEmpty_of_slot hs
          (thief_slot (fun hown => hc (hreads.only _ hown).symm) hok.2 hnext).2
    · rcases hgc with rfl | hgc
      · rfl
      · rw [hgc]
        trivial
  have hs := hend.2
  rw [hpc] at hs
  exact hs

/-- The third push replaces the array for the second time. -/
def threePushes {nr : ℕ} (o : Fin nr) : List (Fin nr × Act ℕ) :=
  (o, .push 7) :: List.replicate 8 (o, .run none) ++ (o, .push 8) :: List.replicate 20 (o, .run none) ++
    (o, .push 9) :: List.replicate 11 (o, .run none)

/-- A test of the condition on a step, for the execution of schedules. -/
def backCheck (s : Config (Fin nr) (Shared nr V) (Pc V)) (a : Fin nr × Act V) : Bool :=
  match a.2, s.thread a.1 with
  | .fail, _ => false
  | _, .gc _ (.putBack _) => false
  | _, _ => true

theorem nothingBack_of_check {o : Fin nr} {a : Fin nr × Act V} (h : backCheck s a = true) :
    NothingBack o s a := by
  obtain ⟨u, a⟩ := a
  refine ⟨fun heq => ?_, fun r old hpc => ?_⟩
  · cases heq
    simp [backCheck] at h
  · cases a <;> simp [backCheck, hpc] at h

/-- The array that `deque_resize` has replaced, at its assertion. -/
def asserts : Pc V → Option ℕ
  | .resizeAssert _ _ a => some a
  | _ => none

theorem asserts_eq_some {pc : Pc V} {a : ℕ} :
    asserts pc = some a ↔ ∃ w b, pc = .resizeAssert w b a := by
  cases pc <;> simp [asserts]

/-- An owner alone frees the first array before it replaces the second one. -/
theorem old_array_released_alone : ∃ s : Config (Fin 1) (Shared 1 ℕ) (Pc ℕ),
    (∃ w b, s.thread 0 = .resizeAssert w b 1) ∧ s.shared.oldArray = none := by
  have hrun : ((system ℕ (0 : Fin 1) 1).exec backCheck (start 1 _ 1) (threePushes 0)).any
      (fun s => asserts (s.thread 0) = some 1) = true := by decide +kernel
  obtain ⟨s, hs, hpc⟩ := (Option.any_eq_true _ _).mp hrun
  obtain ⟨w, b, hpc⟩ := asserts_eq_some.mp (of_decide_eq_true hpc)
  exact ⟨s, ⟨w, b, hpc⟩, old_array_released (r := .done) (System.reachable_init rfl) (.inl rfl)
    (System.run_of_exec (fun _ _ => nothingBack_of_check) hs) hpc⟩

/-- With a second thread that never runs, the slot is not empty at the assertion. -/
theorem assertion_fails : ¬ ∀ s : Config (Fin 2) (Shared 2 ℕ) (Pc ℕ),
    (system ℕ (0 : Fin 2) 1).Reachable System.free s →
      ∀ w b a, s.thread 0 = .resizeAssert w b a → s.shared.oldArray = none := by
  intro hall
  have hrun : ((system ℕ (0 : Fin 2) 1).exec (fun _ _ => true) (start 2 _ 1) (threePushes 0)).any
      (fun s => (asserts (s.thread 0)).isSome && decide (s.shared.oldArray = some 0)) = true := by
    decide +kernel
  obtain ⟨s, hs, hend⟩ := (Option.any_eq_true _ _).mp hrun
  obtain ⟨hpc, hold⟩ := (Bool.and_eq_true _ _).mp hend
  obtain ⟨a, ha⟩ := Option.isSome_iff_exists.mp hpc
  obtain ⟨w, b, hpc⟩ := asserts_eq_some.mp ha
  have hnone := hall s ⟨_, rfl, System.run_of_exec (fun _ _ _ => trivial) hs⟩ w b a hpc
  rw [of_decide_eq_true hold] at hnone
  cases hnone

end LinuxSummer.Hina
