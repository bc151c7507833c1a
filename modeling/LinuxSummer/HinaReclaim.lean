import LinuxSummer.HinaArrays
import LinuxSummer.HinaInvariant

/-! The deque of hw3/work-steal-qsort follows the protocol of the arrays: `deque_gc` frees no array
in use, as long as the assertion of `deque_resize` is not evaluated in the middle of it. -/
namespace LinuxSummer.Hina
set_option linter.unusedSectionVars false

variable {nr : ℕ} {V : Type*} {g g' : Shared nr V} {pc pc' : Pc V} {o u : Fin nr}
  {s s' : Config (Fin nr) (Shared nr V) (Pc V)} {sizeHint : ℕ}

/-- What a thread has to do with the arrays. -/
def role : Pc V → Role
  | .resizeTop _ _ a new => .resizes a new
  | .resizeBottom _ _ a new _ => .resizes a new
  | .copyLoad _ _ a new _ _ => .resizes a new
  | .copyStore _ _ a new _ _ _ => .resizes a new
  | .resizeStore _ _ a new => .resizes a new
  | .resizeAssert _ _ a => .asserts a
  | .pushSlot _ _ a => .holds a
  | .takeTop _ a => .holds a
  | .takeSlot _ a _ => .holds a
  | .stealSlot _ a => .holds a
  | .gc _ (.handle a) => .announces a
  | .gc _ (.scan old i) => .scans old i
  | .gc _ (.putBack old) => .putsBack old
  | .gc _ (.free old) => .frees old
  | _ => .none

def arrays (s : Config (Fin nr) (Shared nr V) (Pc V)) : Arrays nr :=
  ⟨s.shared.array, s.shared.oldArray, s.shared.handle, s.shared.freed, s.shared.used,
    fun u => role (s.thread u)⟩

/-- Inside `deque_push` or `deque_take`, where only the owner comes. -/
def OwnerOnly : Pc V → Prop
  | .pushBottom _ | .pushTop _ _ | .pushArray _ _ _ | .resizeArray _ _ | .resizeTop _ _ _ _
  | .resizeBottom _ _ _ _ _ | .copyLoad _ _ _ _ _ _ | .copyStore _ _ _ _ _ _ _
  | .resizeStore _ _ _ _ | .resizeAssert _ _ _ | .pushReload _ _ | .pushSlot _ _ _
  | .pushCas _ _ | .takeBottom | .takeArray _ | .takeTop _ _ | .takeSlot _ _ _ | .takeCas _ _
  | .takeStore _ _ => True
  | _ => False

theorem arrays_step (s : Config (Fin nr) (Shared nr V) (Pc V)) (g' : Shared nr V) (u : Fin nr)
    (pc' : Pc V) : arrays ⟨g', Function.update s.thread u pc'⟩ =
      Arrays.setRole ⟨g'.array, g'.oldArray, g'.handle, g'.freed, g'.used, (arrays s).role⟩ u
        (role pc') := by
  simp only [arrays, Arrays.setRole, Arrays.mk.injEq, true_and]
  funext v
  by_cases hv : v = u
  · subst hv
    simp
  · simp [Function.update_of_ne hv]

theorem ret_arrays (g : Shared nr V) (r : Result V) : (g.ret r).array = g.array ∧
    (g.ret r).oldArray = g.oldArray ∧ (g.ret r).handle = g.handle ∧ (g.ret r).freed = g.freed ∧
    (g.ret r).used = g.used := by
  cases r <;> exact ⟨rfl, rfl, rfl, rfl, rfl⟩

theorem role_copyLoop (w : V) (b a new i e : ℕ) : role (copyLoop w b a new i e) = .resizes a new := by
  unfold copyLoop
  split <;> rfl

/-- The protocol step of an access of `deque_gc`. -/
theorem runGc_arrays {r : Result V} {p : GcPc} (hpc : s.thread u = .gc r p)
    (h : runGc u s.shared r p = some (g', pc')) :
    ArrayStep o u (arrays s) (arrays ⟨g', Function.update s.thread u pc'⟩) := by
  have hret : ∀ g : Shared nr V, arrays ⟨g.ret r, Function.update s.thread u .idle⟩ =
      Arrays.setRole ⟨g.array, g.oldArray, g.handle, g.freed, g.used, (arrays s).role⟩ u .none :=
    fun g => by
      obtain ⟨h₁, h₂, h₃, h₄, h₅⟩ := ret_arrays g r
      rw [arrays_step, h₁, h₂, h₃, h₄, h₅]
      rfl
  have hrole : (arrays s).role u = role (.gc r p : Pc V) := congrArg role hpc
  cases p <;> simp only [runGc] at h
  case array =>
    cases h
    rw [arrays_step]
    exact .loadGc hrole
  case handle a =>
    cases h
    rw [arrays_step]
    exact .announce hrole
  case old =>
    split at h
    · cases h
      rw [hret]
      exact .leave (.inl hrole)
    · cases h
      rw [arrays_step]
      exact .leave (.inl hrole)
  case cas old =>
    split at h
    · cases h
      rw [arrays_step]
      exact .collect hrole ‹_›
    · cases h
      rw [hret]
      exact .leave (.inl hrole)
  case scan old i =>
    split at h
    · split at h
      · cases h
        rw [arrays_step]
        exact .find hrole
      · rename_i hi hne
        cases h
        rw [arrays_step]
        exact .pass (i := ⟨i, hi⟩) hrole hne
    · cases h
      rw [arrays_step]
      exact .clear hrole (Nat.not_lt.mp ‹_›)
  case putBack old =>
    cases h
    rw [hret]
    exact .putBack hrole
  case free old =>
    cases h
    rw [hret]
    exact .free hrole

/-- The protocol step of an access. -/
theorem run_arrays {junk : Option V} (howner : OwnerOnly (s.thread u) → u = o)
    (h : run u s.shared junk (s.thread u) = some (g', pc')) :
    ArrayStep o u (arrays s) (arrays ⟨g', Function.update s.thread u pc'⟩) := by
  by_cases hgc : ∃ r p, s.thread u = .gc r p
  · obtain ⟨r, p, hpc⟩ := hgc
    rw [hpc] at h
    exact runGc_arrays hpc h
  have hkeep : role pc' = (arrays s).role u → ArrayStep o u (arrays s)
      ((arrays s).setRole u (role pc')) := fun h => by
    have hself : (arrays s).setRole u (role pc') = arrays s := by
      rw [h]
      simp [Arrays.setRole]
    rw [hself]
    exact .keep
  rw [arrays_step]
  have hrole : (arrays s).role u = role (s.thread u) := rfl
  cases hpc : s.thread u <;> rw [hpc] at h howner hrole <;> simp only [run] at h
  case idle => cases h
  case gc r p => exact absurd ⟨r, p, hpc⟩ hgc
  case pushBottom | pushTop | takeBottom | stealTop =>
    cases h
    exact .leave (.inl hrole)
  case pushArray w b t =>
    split at h
    · cases h
      exact .leave (.inl hrole)
    · cases h
      exact .load hrole
  case resizeArray w b =>
    cases h
    exact .allocate hrole (howner trivial)
  case resizeTop w b a new =>
    cases h
    exact hkeep hrole.symm
  case resizeBottom w b a new t =>
    cases h
    exact hkeep ((role_copyLoop w b a new t _).trans hrole.symm)
  case copyLoad w b a new i e =>
    cases h
    exact hkeep hrole.symm
  case copyStore w b a new i e x =>
    cases h
    exact hkeep ((role_copyLoop w b a new _ e).trans hrole.symm)
  case resizeStore w b a new =>
    cases h
    exact .replace (howner trivial) hrole
  case resizeAssert w b a =>
    split at h
    · cases h
      exact .install hrole ‹_›
    · cases h
  case pushReload w b =>
    cases h
    exact .load hrole
  case pushSlot w b a =>
    cases h
    exact .leave (.inr ⟨a, hrole⟩)
  case pushCas w b =>
    split at h
    · cases h
      exact .leave (.inl hrole)
    · cases h
      exact .leave (.inl hrole)
  case takeArray b =>
    cases h
    exact .load hrole
  case takeTop b a =>
    split at h
    · cases h
      exact hkeep hrole.symm
    · cases h
      exact .leave (.inr ⟨a, hrole⟩)
  case takeSlot b a t =>
    split at h
    · cases h
      exact .leave (.inr ⟨a, hrole⟩)
    · cases h
      exact .leave (.inr ⟨a, hrole⟩)
  case takeCas b x =>
    split at h
    · cases h
      exact .leave (.inl hrole)
    · cases h
      exact .leave (.inl hrole)
  case takeStore b x =>
    cases h
    exact .leave (.inl hrole)
  case stealBottom t =>
    split at h
    · cases h
      exact .leave (.inl hrole)
    · cases h
      exact .leave (.inl hrole)
  case stealArray t =>
    cases h
    exact .load hrole
  case stealSlot t a =>
    cases h
    exact .leave (.inr ⟨a, hrole⟩)
  case stealCas t x =>
    split at h
    · cases h
      exact .leave (.inl hrole)
    · cases h
      exact .leave (.inl hrole)

/-- A call of `deque_push` is made by the owner. -/
theorem ownerOnly_next {a : Act V} (howner : OwnerOnly pc → u = o)
    (h : next o u g pc a = some (g', pc')) : OwnerOnly pc' → u = o := by
  intro hpc'
  rcases next_cases h with ⟨junk, rfl, hrun⟩ | ⟨r, old, -, -, -, rfl⟩ | ⟨-, -, hcall⟩
  · refine howner ?_
    cases pc <;> simp only [run] at hrun <;> try trivial
    case gc r p =>
      cases p <;> simp only [runGc] at hrun <;> (repeat' split at hrun) <;> cases hrun <;>
        exact hpc'.elim
    all_goals (repeat' split at hrun) <;> cases hrun <;> exact hpc'.elim
  · cases hpc'
  · rcases hcall with ⟨w, hu, -⟩ | ⟨hu, -⟩ | ⟨-, rfl⟩
    · exact hu
    · exact hu
    · cases hpc'

/-! ### Releases -/

/-- The condition on the steps of a run: when `deque_resize` evaluates its assertion, no `deque_gc`
is between taking the replaced array out of `q->old_array` and the end of its loop. -/
def GcQuiet (s : Config (Fin nr) (Shared nr V) (Pc V)) (a : Fin nr × Act V) : Prop :=
  ∀ w b x, s.thread a.1 = .resizeAssert w b x → ∀ v r old,
    (∀ i, s.thread v ≠ .gc r (.scan old i)) ∧ s.thread v ≠ .gc r (.putBack old)

/-- The array that an operation in progress has loaded from `q->array` and may still access. -/
def inUse (pc : Pc V) : Option ℕ := (role pc).uses

/-- What `deque_gc` frees was not freed before, is not the current array, and is in no operation's
hands; nor does any operation get hold of a freed array. -/
structure ReleaseSafe (s : Config (Fin nr) (Shared nr V) (Pc V)) : Prop where
  frees : ∀ u r old, s.thread u = .gc r (.free old) → s.shared.freed old = false ∧
    old ≠ s.shared.array ∧ ∀ v, inUse (s.thread v) ≠ some old
  freed : ∀ a, s.shared.freed a = true → a ≠ s.shared.array ∧ ∀ v, inUse (s.thread v) ≠ some a

theorem role_asserts {a : ℕ} (h : role pc = .asserts a) : ∃ w b, pc = .resizeAssert w b a := by
  cases pc with
  | resizeAssert w b a' =>
    cases h
    exact ⟨w, b, rfl⟩
  | gc r p => cases p <;> cases h
  | _ => cases h

theorem role_collects {x : ℕ} (h : (role pc).collects = some x) :
    ∃ r, (∃ i, pc = .gc r (.scan x i)) ∨ pc = .gc r (.putBack x) := by
  cases pc with
  | gc r p =>
    cases p with
    | scan old i =>
      cases h
      exact ⟨r, .inl ⟨i, rfl⟩⟩
    | putBack old =>
      cases h
      exact ⟨r, .inr rfl⟩
    | _ => cases h
  | _ => cases h

theorem quiet_of_gcQuiet {a : Act V} (h : GcQuiet s (u, a)) : Quiet (arrays s) u := by
  intro x hx v
  obtain ⟨w, b, hpc⟩ := role_asserts hx
  refine Option.eq_none_iff_forall_ne_some.mpr fun old hold => ?_
  obtain ⟨r, ⟨i, hv⟩ | hv⟩ := role_collects hold
  · exact (h w b x hpc v r old).1 i hv
  · exact (h w b x hpc v r old).2 hv

theorem next_arrays {a : Act V} (howner : OwnerOnly (s.thread u) → u = o)
    (h : next o u s.shared (s.thread u) a = some (g', pc')) :
    ArrayStep o u (arrays s) (arrays ⟨g', Function.update s.thread u pc'⟩) := by
  rcases next_cases h with ⟨junk, rfl, hrun⟩ | ⟨r, old, -, hpc, rfl, rfl⟩ | ⟨hpc, rfl, hcall⟩
  · exact run_arrays howner hrun
  · obtain ⟨h₁, h₂, h₃, h₄, h₅⟩ := ret_arrays s.shared r
    rw [arrays_step, h₁, h₂, h₃, h₄, h₅]
    exact .leave (.inl (congrArg role hpc))
  · have hnone : (arrays s).role u = .none := congrArg role hpc
    rw [arrays_step]
    rcases hcall with ⟨w, -, -, rfl⟩ | ⟨-, rfl⟩ | ⟨-, rfl⟩ <;> exact .leave (.inl hnone)

theorem arraysInv_start : ArraysInv o (arrays (start nr V sizeHint)) := by
  have hnone : ∀ v, (arrays (start nr V sizeHint)).role v = .none := fun _ => rfl
  refine ⟨Nat.one_pos, fun v _ => ⟨rfl, rfl⟩, nofun, nofun, nofun, fun v x h => .inl ?_,
    fun v x h => ?_, nofun, nofun, nofun, fun x h => ?_⟩
  · exact (h.resolve_right nofun).symm
  · exact Nat.le_of_eq (h.resolve_right nofun)
  · rcases h with h | ⟨v, h⟩
    · cases h
    · cases h

theorem ownerOnly_step {a : Fin nr × Act V} (howner : ∀ u, OwnerOnly (s.thread u) → u = o)
    (h : next o a.1 s.shared (s.thread a.1) a.2 = some (g', pc')) (v : Fin nr)
    (hv : OwnerOnly (Function.update s.thread a.1 pc' v)) : v = o := by
  by_cases hva : v = a.1
  · subst hva
    rw [Function.update_self] at hv
    exact ownerOnly_next (howner a.1) h hv
  · rw [Function.update_of_ne hva] at hv
    exact howner v hv

theorem arraysInv_reachable (hr : (system V o sizeHint).Reachable GcQuiet s) :
    ArraysInv o (arrays s) := by
  have hboth : (∀ u, OwnerOnly (s.thread u) → u = o) ∧ ArraysInv o (arrays s) := by
    refine System.reachable_invariant (I := fun s => (∀ u, OwnerOnly (s.thread u) → u = o) ∧
      ArraysInv o (arrays s)) (fun s hs => ?_) (fun s a s' _ hi hok hn => ?_) hr
    · cases hs
      exact ⟨nofun, arraysInv_start⟩
    · obtain ⟨howner, hinv⟩ := hi
      obtain ⟨g', pc', hnext, rfl⟩ := Threads.step_cases hn
      exact ⟨ownerOnly_step howner hnext, arraysInv_step hinv (quiet_of_gcQuiet hok)
        (next_arrays (howner a.1) hnext)⟩
  exact hboth.2

/-- In every run whose steps all meet the condition, `deque_gc` frees nothing in use and nothing
twice. -/
theorem reclaim_safe (hr : (system V o sizeHint).Reachable GcQuiet s) : ReleaseSafe s := by
  have hi := arraysInv_reachable hr
  have hcleared : ∀ x, Cleared (arrays s) x → x ≠ s.shared.array ∧
      ∀ v, inUse (s.thread v) ≠ some x := fun x hx => by
    obtain ⟨hlt, hload, -⟩ := hi.cleared x hx
    refine ⟨Nat.ne_of_lt hlt, fun v hv => hload v (.inr ?_)⟩
    change (role (s.thread v)).loads = some x
    unfold inUse at hv
    revert hv
    cases role (s.thread v) <;> simp [Role.uses, Role.loads]
  refine ⟨fun u r old hpc => ?_, fun a ha => hcleared a (.inl ha)⟩
  have hfrees : ((arrays s).role u).releases = some old := by
    change (role (s.thread u)).releases = some old
    rw [hpc]
    rfl
  exact ⟨(hi.releases u old hfrees).1, hcleared old (.inr ⟨u, hfrees⟩)⟩

/-- In the loop of `deque_gc`, with the array taken out of the slot. -/
def collecting : Pc V → Bool
  | .gc _ (.scan _ _) => true
  | .gc _ (.putBack _) => true
  | _ => false

/-- A test of the condition on a step, for the execution of schedules. -/
def quietCheck (s : Config (Fin nr) (Shared nr V) (Pc V)) (a : Fin nr × Act V) : Bool :=
  match s.thread a.1 with
  | .resizeAssert _ _ _ => decide (∀ v, collecting (s.thread v) = false)
  | _ => true

theorem gcQuiet_of_check {a : Fin nr × Act V} (h : quietCheck s a = true) : GcQuiet s a := by
  intro w b x hpc v r old
  simp only [quietCheck, hpc, decide_eq_true_eq] at h
  have hv := h v
  refine ⟨fun i hi => ?_, fun hi => ?_⟩ <;> simp [collecting, hi] at hv

/-- The second push makes the array grow, and the owner's own `deque_gc` frees the old one. -/
def growAlone {nr : ℕ} (o : Fin nr) : List (Fin nr × Act ℕ) :=
  (o, .push 7) :: List.replicate 8 (o, .run none) ++ (o, .push 8) :: List.replicate 20 (o, .run none)

theorem reclaim_safe_grow : ∃ s : Config (Fin 1) (Shared 1 ℕ) (Pc ℕ),
    s.shared.freed 0 = true ∧ ReleaseSafe s := by
  have hrun : ((system ℕ (0 : Fin 1) 1).exec quietCheck (start 1 _ 1) (growAlone 0)).any
      (fun s => s.shared.freed 0) = true := by decide +kernel
  obtain ⟨s, hs, hfreed⟩ := (Option.any_eq_true _ _).mp hrun
  exact ⟨s, hfreed, reclaim_safe ⟨_, rfl, System.run_of_exec (fun _ _ => gcQuiet_of_check) hs⟩⟩

/-- Decides whether a `deque_gc` in an operation without a result is about to free `a`. -/
def frees (a : ℕ) : Pc V → Bool
  | .gc .done (.free old) => old == a
  | _ => false

/-- Thread 2 is about to look at `old_array` in `deque_gc`; the array grows; thread 1 loads the new
one; thread 2 takes the first array out of `old_array`; the array grows again. -/
def growTwice {nr : ℕ} (o t u : Fin nr) : List (Fin nr × Act ℕ) :=
  (u, .steal) :: List.replicate 4 (u, .run none) ++ (o, .push 7) :: List.replicate 8 (o, .run none) ++
    (o, .push 8) :: List.replicate 20 (o, .run none) ++ (t, .steal) :: List.replicate 3 (t, .run none) ++
      List.replicate 2 (u, .run none) ++ (o, .push 9) :: List.replicate 23 (o, .run none)

/-- Without the condition `deque_gc` frees an array that a thief is about to read. -/
theorem frees_in_use : ∃ s : Config (Fin 3) (Shared 3 ℕ) (Pc ℕ),
    (system ℕ (0 : Fin 3) 1).Reachable System.free s ∧ ¬ ReleaseSafe s := by
  have hrun : ((system ℕ (0 : Fin 3) 1).exec (fun _ _ => true) (start 3 _ 1) (growTwice 0 1 2)).any
      (fun s => frees 1 (s.thread 0) && decide (inUse (s.thread 1) = some 1)) = true := by
    decide +kernel
  obtain ⟨s, hs, hend⟩ := (Option.any_eq_true _ _).mp hrun
  obtain ⟨hfree, huse⟩ := (Bool.and_eq_true _ _).mp hend
  refine ⟨s, ⟨_, rfl, System.run_of_exec (fun _ _ _ => trivial) hs⟩, fun h => ?_⟩
  have hpc : s.thread 0 = .gc .done (.free 1) := by
    revert hfree
    cases s.thread 0 with
    | gc r p => cases r <;> cases p <;> simp [frees]
    | _ => simp [frees]
  exact (h.frees 0 .done 1 hpc).2.2 1 (of_decide_eq_true huse)

end LinuxSummer.Hina
