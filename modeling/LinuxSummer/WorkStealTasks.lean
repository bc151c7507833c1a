import LinuxSummer.Machine
import LinuxSummer.WorkLoop
import Mathlib.Data.Fintype.Prod
import Mathlib.Data.List.FinRange
import Mathlib.Data.Nat.Cast.Basic

/-! The scheduler of hw3/work-steal.c: workers that take and steal the print tasks `main` has
pushed, the join count, and the task that ends the run. The deques are atomic here. `join_count`,
which starts with the number of print tasks, is an integer. -/
set_option linter.unusedSectionVars false

namespace LinuxSummer.Tasks
open WorkLoop

variable {T p : ℕ}

/-- The `work_t`s of `main`: the `j`-th one pushed on the `i`-th queue, and `done_work`. -/
inductive Work (T p : ℕ) where
  | print (i : Fin T) (j : Fin p)
  | done
deriving DecidableEq

/-- What `main` allocates for them. -/
inductive Block (T p : ℕ) where
  | work (w : Work T p)
  | payload (i : Fin T) (j : Fin p)
deriving DecidableEq

/-- The next access of a worker. -/
inductive Pc (T p : ℕ) where
  /-- In the loop of `thread`. At `found`, `do_work` calls `do_one_work` next. -/
  | idle (l : Idle (Work T p))
  /-- In `print_task`, which reads its arguments and the payload. -/
  | printArgs (i : Fin T) (j : Fin p)
  | freePayload (i : Fin T) (j : Fin p)
  | freeWork (i : Fin T) (j : Fin p)
  /-- In `join_work`, for `done_work`. -/
  | join (i : Fin T) (j : Fin p)
  /-- In `done_task`. -/
  | freeDone
  | storeDone
deriving DecidableEq

/-- The last two fields only record what happened. -/
structure Shared (T p : ℕ) where
  queue : Fin T → List (Work T p)
  joinCount : ℤ
  done : Bool
  freed : List (Block T p)
  executed : List (Work T p)
  /-- The print tasks that have decremented the join count. -/
  joined : List (Work T p)

/-- `work->code` is called. -/
def code : Work T p → Pc T p
  | .print i j => .printArgs i j
  | .done => .freeDone

def next (id : Fin T) (g : Shared T p) : Pc T p → Race → Option (Shared T p × Pc T p)
  | .idle (.found (.work w)), _ => some ({ g with executed := w :: g.executed }, code w)
  | .idle l, c => (idleStep (deque _) id g.queue g.done c l).map fun r =>
    ({ g with queue := r.1 }, .idle r.2)
  | .printArgs i j, _ => some (g, .freePayload i j)
  | .freePayload i j, _ => some ({ g with freed := .payload i j :: g.freed }, .freeWork i j)
  | .freeWork i j, _ => some ({ g with freed := .work (.print i j) :: g.freed }, .join i j)
  | .join i j, _ =>
    some ({ g with joinCount := g.joinCount - 1, joined := .print i j :: g.joined },
      -- the one who brings the count to 0 goes on with the continuation
      .idle (if g.joinCount = 1 then .found (.work .done) else .take))
  | .freeDone, _ => some ({ g with freed := .work .done :: g.freed }, .storeDone)
  | .storeDone, _ => some ({ g with done := true }, .idle .take)

def threads (T p : ℕ) : Threads (Fin T) (Shared T p) (Pc T p) Race where
  next := next

/-- As `main` leaves it to the workers. -/
def start (T p : ℕ) : Config (Fin T) (Shared T p) (Pc T p) :=
  ⟨⟨fun i => (List.finRange p).map (.print i), (T * p : ℕ), false, [], [], []⟩, fun _ => .idle .take⟩

def system (T p : ℕ) : System (Config (Fin T) (Shared T p) (Pc T p)) (Fin T × Race) :=
  (threads T p).system (· = start T p)

/-! ### Where a task is -/

/-- The work a worker is about to execute. -/
def Pc.holds : Pc T p → List (Work T p)
  | .idle l => l.holds
  | _ => []

/-- The print task that has begun and has not decremented the join count. -/
def Pc.joining : Pc T p → List (Work T p)
  | .printArgs i j | .freePayload i j | .freeWork i j | .join i j => [.print i j]
  | _ => []

/-- The blocks of a task that has begun and that are still to be freed. -/
def Pc.owns : Pc T p → List (Block T p)
  | .printArgs i j | .freePayload i j => [.payload i j, .work (.print i j)]
  | .freeWork i j => [.work (.print i j)]
  | .freeDone => [.work .done]
  | _ => []

/-- The blocks that the next step reads, writes or frees. -/
def Pc.uses : Pc T p → List (Block T p)
  | .idle (.found (.work w)) => [.work w]
  | .printArgs i j => [.work (.print i j), .payload i j]
  | .freePayload i j => [.payload i j]
  | .freeWork i j => [.work (.print i j)]
  | .join _ _ | .freeDone => [.work .done]
  | _ => []

/-- The task whose code frees the block. -/
def Block.owner : Block T p → Work T p
  | .work w => w
  | .payload i j => .print i j

abbrev St (T p : ℕ) := Config (Fin T) (Shared T p) (Pc T p)

/-- In how many places `w` is: on the queues, about to be executed, or executed. -/
def St.places (s : St T p) (w : Work T p) : ℕ :=
  tally (fun q => q) s.shared.queue w + tally Pc.holds s.thread w + s.shared.executed.count w

/-- What a worker knows at each point. -/
def Pc.Local (id : Fin T) (g : Shared T p) : Pc T p → Prop
  | .idle l => l.Plain id ∧ (l = .left → g.done = true)
  | .freeDone | .storeDone => .done ∈ g.executed
  | _ => True

/-- Every print task is in one place, `done_work` is in one as soon as the count is 0, and
what has begun accounts for the join count and for the blocks that are freed. -/
structure Inv (s : St T p) : Prop where
  print : ∀ i j, s.places (.print i j) = 1
  done : s.places .done = if s.shared.joinCount = 0 then 1 else 0
  joining : ∀ i j, s.shared.executed.count (.print i j) =
    s.shared.joined.count (.print i j) + tally Pc.joining s.thread (.print i j)
  joined : Work.done ∉ s.shared.joined
  joinCount : s.shared.joinCount + s.shared.joined.length = (T * p : ℕ)
  freed : ∀ b, s.shared.freed.count b + tally Pc.owns s.thread b =
    s.shared.executed.count b.owner
  stored : s.shared.done = true → Work.done ∈ s.shared.executed
  thread : ∀ t, (s.thread t).Local t s.shared

variable {s s' : St T p} {t : Fin T} {i : Fin T} {j : Fin p} {w : Work T p} {c : Race}

def prints (T p : ℕ) : Finset (Work T p) :=
  Finset.univ.image fun x : Fin T × Fin p => .print x.1 x.2

theorem mem_prints : Work.print i j ∈ prints T p :=
  Finset.mem_image.mpr ⟨(i, j), Finset.mem_univ _, rfl⟩

theorem card_prints : (prints T p).card = T * p := by
  have hinj : Function.Injective fun x : Fin T × Fin p => (Work.print x.1 x.2 : Work T p) := by
    intro x y h
    simp only [Work.print.injEq] at h
    exact Prod.ext h.1 h.2
  calc
    _ = (Finset.univ : Finset (Fin T × Fin p)).card := Finset.card_image_of_injective _ hinj
    _ = _ := by simp

theorem executed_le (hi : Inv s) (w : Work T p) : s.shared.executed.count w ≤ 1 := by
  have hle : s.shared.executed.count w ≤ s.places w := Nat.le_add_left _ _
  cases w with
  | print i j => exact hle.trans (hi.print i j).le
  | done =>
    rw [hi.done] at hle
    split at hle <;> omega

theorem joined_nodup (hi : Inv s) : s.shared.joined.Nodup := by
  rw [List.nodup_iff_count_le_one]
  intro w
  cases w with
  | print i j =>
    have hcount := hi.joining i j
    have hle := executed_le hi (.print i j)
    omega
  | done => exact (List.count_eq_zero.mpr hi.joined).trans_le (Nat.zero_le 1)

theorem joined_subset (hi : Inv s) : s.shared.joined.toFinset ⊆ prints T p := by
  intro w hw
  cases w with
  | print i j => exact mem_prints
  | done => exact absurd (List.mem_toFinset.mp hw) hi.joined

theorem joinCount_nonneg (hi : Inv s) : 0 ≤ s.shared.joinCount := by
  have hcard := Finset.card_le_card (joined_subset hi)
  rw [List.toFinset_card_of_nodup (joined_nodup hi), card_prints] at hcard
  have hsum := hi.joinCount
  omega

/-- When the count is 0, every print task has decremented it. -/
theorem all_joined (hi : Inv s) (h : s.shared.joinCount = 0) : Work.print i j ∈ s.shared.joined := by
  have hsum := hi.joinCount
  have hcard : (prints T p).card ≤ s.shared.joined.toFinset.card := by
    rw [List.toFinset_card_of_nodup (joined_nodup hi), card_prints]
    omega
  have heq := Finset.eq_of_subset_of_card_le (joined_subset hi) hcard
  have hmem : Work.print i j ∈ prints T p := mem_prints
  rw [← heq] at hmem
  exact List.mem_toFinset.mp hmem

/-- A print task that has begun and has not joined keeps the count up. -/
theorem joinCount_pos (hi : Inv s) (h : Work.print i j ∈ (s.thread t).joining) :
    0 < s.shared.joinCount := by
  by_contra hno
  have hzero : s.shared.joinCount = 0 := by
    have hnonneg := joinCount_nonneg hi
    omega
  have hjoined := List.count_pos_iff.mpr (all_joined (i := i) (j := j) hi hzero)
  have hpos : 0 < tally Pc.joining s.thread (.print i j) := tally_pos h
  have hcount := hi.joining i j
  have hle := executed_le hi (.print i j)
  omega

theorem executed_done (hi : Inv s) (h : Work.done ∈ s.shared.executed) : s.shared.joinCount = 0 := by
  by_contra hne
  have hplaces := hi.done
  rw [if_neg hne] at hplaces
  have hpos := List.count_pos_iff.mpr h
  unfold St.places at hplaces
  omega

/-! ### One step -/

/-- `done` and what has been executed stay, so the other workers know what they knew. -/
theorem local_step {g : Shared T p} {pc : Pc T p} (hi : Inv s)
    (hdone : s.shared.done = true → g.done = true)
    (hexecuted : ∀ w ∈ s.shared.executed, w ∈ g.executed) (hpc : pc.Local t g) (u : Fin T) :
    (Function.update s.thread t pc u).Local u g := by
  rcases eq_or_ne u t with rfl | hu
  · rw [Function.update_self]
    exact hpc
  · rw [Function.update_of_ne hu]
    have hlocal := hi.thread u
    cases h : s.thread u <;> rw [h] at hlocal
    case idle l => exact ⟨hlocal.1, fun hl => hdone (hlocal.2 hl)⟩
    case freeDone | storeDone => exact hexecuted _ hlocal
    all_goals trivial

/-- What does not touch the queues, the tasks executed and the join count keeps their part. -/
theorem places_step (g : Shared T p) (pc : Pc T p) (hi : Inv s)
    (hqueue : g.queue = s.shared.queue) (hexecuted : g.executed = s.shared.executed)
    (hcount : g.joinCount = s.shared.joinCount) (hholds : pc.holds = (s.thread t).holds) :
    (∀ i j, St.places ⟨g, Function.update s.thread t pc⟩ (.print i j) = 1) ∧
      St.places ⟨g, Function.update s.thread t pc⟩ .done = if g.joinCount = 0 then 1 else 0 := by
  have heq (w : Work T p) : St.places ⟨g, Function.update s.thread t pc⟩ w = s.places w := by
    have htally := tally_update Pc.holds s.thread t pc w
    rw [hholds] at htally
    simp only [St.places, hqueue, hexecuted]
    omega
  refine ⟨fun i j => (heq _).trans (hi.print i j), (heq _).trans ?_⟩
  rw [hcount]
  exact hi.done

/-- The loop of `thread`, up to the call of `do_work`. -/
theorem inv_idle {l l' : Idle (Work T p)} {queue : Fin T → List (Work T p)} (hi : Inv s)
    (hl : s.thread t = .idle l) (h : idleStep (deque _) t s.shared.queue s.shared.done c l =
      some (queue, l')) :
    Inv ⟨{ s.shared with queue := queue }, Function.update s.thread t (.idle l')⟩ := by
  have hlocal := hi.thread t
  rw [hl] at hlocal
  obtain ⟨hnone, hplain, hleft, hhands⟩ := idleStep_cases hlocal.1 h
  -- work is only moved from a queue to the worker
  have heq (w : Work T p) : St.places ⟨{ s.shared with queue := queue },
      Function.update s.thread t (.idle l')⟩ w = s.places w := by
    have htally := tally_update Pc.holds s.thread t (.idle l') w
    rw [hl] at htally
    simp only [Pc.holds, hnone, List.count_nil] at htally
    have hqueue := hhands w
    simp only [St.places]
    omega
  refine ⟨fun i j => (heq _).trans (hi.print i j), (heq _).trans hi.done, fun i j => ?_, hi.joined,
    hi.joinCount, fun b => ?_, hi.stored,
    local_step hi (fun h => h) (fun _ h => h) ⟨hplain, hleft⟩⟩
  · have htally := tally_update Pc.joining s.thread t (.idle l') (.print i j)
    rw [hl] at htally
    rw [hi.joining i j, Nat.add_right_cancel htally]
  · have htally := tally_update Pc.owns s.thread t (.idle l') b
    rw [hl] at htally
    rw [Nat.add_right_cancel htally]
    exact hi.freed b

/-- `do_one_work` calls the code of a task. -/
theorem inv_code (hi : Inv s) (hw : s.thread t = .idle (.found (.work w))) :
    Inv ⟨{ s.shared with executed := w :: s.shared.executed },
      Function.update s.thread t (code w)⟩ := by
  have heq (x : Work T p) : St.places ⟨{ s.shared with executed := w :: s.shared.executed },
      Function.update s.thread t (code w)⟩ x = s.places x := by
    have htally := tally_update Pc.holds s.thread t (code w) x
    have hcode : (code w).holds = [] := by cases w <;> rfl
    rw [hw, hcode] at htally
    simp only [Pc.holds, Idle.holds, List.count_nil, List.count_singleton] at htally
    simp only [St.places, List.count_cons]
    omega
  refine ⟨fun i j => (heq _).trans (hi.print i j), (heq _).trans hi.done, fun i j => ?_, hi.joined,
    hi.joinCount, fun b => ?_, fun hd => List.mem_cons_of_mem _ (hi.stored hd),
    local_step hi (fun h => h) (fun _ => List.mem_cons_of_mem _) ?_⟩
  · have htally := tally_update Pc.joining s.thread t (code w) (.print i j)
    have hcount := hi.joining i j
    rw [hw] at htally
    cases w <;> simp only [code, Pc.joining, List.count_nil, List.count_cons, reduceCtorEq, beq_iff_eq,
      if_false] at htally ⊢ <;> omega
  · have htally := tally_update Pc.owns s.thread t (code w) b
    have hcount := hi.freed b
    rw [hw] at htally
    cases w <;> cases b <;> simp [code, Pc.owns, Block.owner, List.count_cons] at htally hcount ⊢ <;>
      omega
  · cases w with
    | print i j => trivial
    | done => exact List.mem_cons_self

/-- A step inside `print_task` before `join_work`, and one in `done_task`: it may free blocks. -/
theorem inv_task {freed : List (Block T p)} {pc : Pc T p} (hi : Inv s)
    (hholds : (s.thread t).holds = []) (hholds' : pc.holds = [])
    (hjoining : pc.joining = (s.thread t).joining)
    (hlocal : pc.Local t s.shared)
    (howns : ∀ b, freed.count b + pc.owns.count b =
      s.shared.freed.count b + (s.thread t).owns.count b) :
    Inv ⟨{ s.shared with freed := freed }, Function.update s.thread t pc⟩ := by
  obtain ⟨hprint, hdone⟩ := places_step (t := t)
    { s.shared with freed := freed } pc hi rfl rfl rfl (hholds'.trans hholds.symm)
  refine ⟨hprint, hdone, fun i j => ?_, hi.joined, hi.joinCount, fun b => ?_, hi.stored,
    local_step hi (fun h => h) (fun _ h => h) ?_⟩
  · have htally := tally_update Pc.joining s.thread t pc (.print i j)
    rw [hjoining] at htally
    rw [hi.joining i j, Nat.add_right_cancel htally]
  · have htally := tally_update Pc.owns s.thread t pc b
    have hsum := howns b
    have hcount := hi.freed b
    change freed.count b + tally Pc.owns (Function.update s.thread t pc) b =
      s.shared.executed.count b.owner
    omega
  · cases pc <;> exact hlocal

/-- `join_work`. -/
theorem inv_join (hi : Inv s) (hpc : s.thread t = .join i j) :
    Inv ⟨{ s.shared with
      joinCount := s.shared.joinCount - 1
      joined := .print i j :: s.shared.joined },
      Function.update s.thread t
        (.idle (if s.shared.joinCount = 1 then .found (.work .done) else .take))⟩ := by
  have hpos : 0 < s.shared.joinCount := joinCount_pos (t := t) (i := i) (j := j) hi (by
    rw [hpc]
    exact List.mem_singleton_self _)
  generalize hl : (if s.shared.joinCount = 1 then Idle.found (.work .done) else .take :
    Idle (Work T p)) = l
  have hholds (w : Work T p) : (Pc.idle l).holds.count w =
      if w = .done ∧ s.shared.joinCount = 1 then 1 else 0 := by
    subst hl
    split <;> cases w <;> simp_all [Pc.holds, Idle.holds]
  have htally (w : Work T p) := tally_update Pc.holds s.thread t (.idle l) w
  rw [hpc] at htally
  refine ⟨fun i' j' => ?_, ?_, fun i' j' => ?_, ?_, ?_, fun b => ?_, hi.stored,
    local_step hi (fun h => h) (fun _ h => h) ?_⟩
  · have hplaces := hi.print i' j'
    have hsum := htally (.print i' j')
    rw [hholds] at hsum
    simp only [Pc.holds, List.count_nil, reduceCtorEq, false_and, if_false] at hsum
    simp only [St.places] at hplaces ⊢
    omega
  · -- the last one to join is about to execute `done_work`
    have hplaces := hi.done
    have hsum := htally .done
    rw [hholds] at hsum
    simp only [Pc.holds, List.count_nil, true_and] at hsum
    rw [if_neg hpos.ne'] at hplaces
    simp only [St.places] at hplaces ⊢
    have hzero : s.shared.joinCount - 1 = 0 ↔ s.shared.joinCount = 1 := by omega
    simp only [hzero]
    omega
  · have hsum := tally_update Pc.joining s.thread t (.idle l) (.print i' j')
    rw [hpc] at hsum
    simp only [Pc.joining, List.count_nil, List.count_singleton] at hsum
    have hcount := hi.joining i' j'
    simp only [List.count_cons]
    omega
  · intro hmem
    rcases List.mem_cons.mp hmem with hmem | hmem
    · cases hmem
    · exact hi.joined hmem
  · have hcount := hi.joinCount
    simp only [List.length_cons]
    push_cast at hcount ⊢
    omega
  · have hsum := tally_update Pc.owns s.thread t (.idle l) b
    rw [hpc] at hsum
    rw [Nat.add_right_cancel hsum]
    exact hi.freed b
  · subst hl
    split
    · exact ⟨⟨_, rfl⟩, fun h => (by cases h)⟩
    · exact ⟨trivial, fun h => (by cases h)⟩

/-- `done_task` sets `done`. -/
theorem inv_storeDone (hi : Inv s) (hpc : s.thread t = .storeDone) :
    Inv ⟨{ s.shared with done := true }, Function.update s.thread t (.idle .take)⟩ := by
  have hmem := hi.thread t
  rw [hpc] at hmem
  obtain ⟨hprint, hdone⟩ := places_step (t := t)
    { s.shared with done := true } (.idle .take) hi rfl rfl rfl (by rw [hpc]; rfl)
  refine ⟨hprint, hdone, fun i j => ?_, hi.joined, hi.joinCount, fun b => ?_, fun _ => hmem,
    local_step hi (fun _ => rfl) (fun _ h => h) ⟨trivial, nofun⟩⟩
  · have htally := tally_update Pc.joining s.thread t (.idle .take) (.print i j)
    rw [hpc] at htally
    rw [hi.joining i j, Nat.add_right_cancel htally]
  · have htally := tally_update Pc.owns s.thread t (.idle .take) b
    rw [hpc] at htally
    rw [Nat.add_right_cancel htally]
    exact hi.freed b

theorem next_idle {g : Shared T p} {l : Idle (Work T p)} (hl : ∀ w, l ≠ .found (.work w)) :
    next t g (.idle l) c = (idleStep (deque _) t g.queue g.done c l).map fun r =>
      ({ g with queue := r.1 }, .idle r.2) := by
  cases l with
  | found x =>
    cases x with
    | work w => exact absurd rfl (hl w)
    | empty | abort => rfl
  | take | steal i stolen | check | left => rfl

theorem inv_step (hi : Inv s) (h : (system T p).next s (t, c) = some s') : Inv s' := by
  obtain ⟨g, pc, hn, rfl⟩ := Threads.step_cases h
  change next t s.shared (s.thread t) c = some (g, pc) at hn
  have hlocal := hi.thread t
  cases hpc : s.thread t with
  | idle l =>
    rw [hpc] at hn hlocal
    by_cases hl : ∃ w, l = .found (.work w)
    · obtain ⟨w, rfl⟩ := hl
      cases hn
      exact inv_code hi hpc
    · rw [next_idle fun w hw => hl ⟨w, hw⟩] at hn
      obtain ⟨r, hr, heq⟩ := Option.map_eq_some_iff.mp hn
      cases heq
      exact inv_idle hi hpc hr
  | printArgs i j =>
    rw [hpc] at hn
    cases hn
    exact inv_task hi (by rw [hpc]; rfl) rfl (by rw [hpc]; rfl) trivial fun b => by rw [hpc]; rfl
  | freePayload i j =>
    rw [hpc] at hn
    cases hn
    refine inv_task hi (by rw [hpc]; rfl) rfl (by rw [hpc]; rfl) trivial fun b => ?_
    rw [hpc]
    simp only [Pc.owns, List.count_cons]
    omega
  | freeWork i j =>
    rw [hpc] at hn
    cases hn
    refine inv_task hi (by rw [hpc]; rfl) rfl (by rw [hpc]; rfl) trivial fun b => ?_
    rw [hpc]
    simp only [Pc.owns, List.count_cons, List.count_nil]
    omega
  | join i j =>
    rw [hpc] at hn
    cases hn
    exact inv_join hi hpc
  | freeDone =>
    rw [hpc] at hn hlocal
    cases hn
    refine inv_task hi (by rw [hpc]; rfl) rfl (by rw [hpc]; rfl) hlocal fun b => ?_
    rw [hpc]
    simp only [Pc.owns, List.count_cons, List.count_nil]
    omega
  | storeDone =>
    rw [hpc] at hn
    cases hn
    exact inv_storeDone hi hpc

theorem inv_start (hT : 1 ≤ T) (hp : 1 ≤ p) : Inv (start T p) := by
  have hzero {A : Type} [DecidableEq A] (f : Pc T p → List A) (hf : f (.idle .take) = []) (a : A) :
      tally f (start T p).thread a = 0 := by
    apply Finset.sum_eq_zero
    intro t _
    simp [start, hf]
  have hcount : 0 < T * p := Nat.mul_pos hT hp
  refine ⟨fun i j => ?_, ?_, fun i j => ?_, List.not_mem_nil, ?_, fun b => ?_, nofun,
    fun t => ⟨trivial, nofun⟩⟩
  · have hqueue : tally (fun q => q) (start T p).shared.queue (.print i j) = 1 := by
      unfold tally
      rw [Finset.sum_eq_single i]
      · have hinj : Function.Injective (Work.print i : Fin p → Work T p) := by
          intro x y h
          exact (Work.print.inj h).2
        change ((List.finRange p).map (Work.print i)).count (.print i j) = 1
        rw [List.count_map_of_injective _ _ hinj]
        exact List.count_eq_one_of_mem (List.nodup_finRange p) (List.mem_finRange j)
      · intro u _ hu
        simp [start, List.count_eq_zero, hu]
      · exact fun h => absurd (Finset.mem_univ i) h
    unfold St.places
    rw [hqueue, hzero _ rfl]
    rfl
  · have hqueue : tally (fun q => q) (start T p).shared.queue .done = 0 := by
      apply Finset.sum_eq_zero
      intro u _
      simp [start, List.count_eq_zero]
    unfold St.places
    rw [hqueue, hzero _ rfl, if_neg]
    · rfl
    · change ((T * p : ℕ) : ℤ) ≠ 0
      omega
  · rw [hzero _ rfl]
    rfl
  · simp [start]
  · rw [hzero _ rfl]
    rfl

theorem inv_reachable (hT : 1 ≤ T) (hp : 1 ≤ p) (h : (system T p).Reachable System.free s) :
    Inv s := by
  refine System.reachable_invariant (fun s₀ h₀ => ?_) (fun s a s' _ hi _ hn => inv_step hi hn) h
  subst h₀
  exact inv_start hT hp

/-! ### What follows -/

/-- What a worker is about to use has not been freed. -/
theorem uses_not_freed (hi : Inv s) {b : Block T p} (hb : b ∈ (s.thread t).uses) :
    b ∉ s.shared.freed := by
  -- a block that is freed belongs to a task that has been executed
  have hexecuted {b : Block T p} (hf : b ∈ s.shared.freed) : b.owner ∈ s.shared.executed := by
    have hcount := hi.freed b
    have hpos := List.count_pos_iff.mpr hf
    exact List.count_pos_iff.mp (by omega)
  -- and nobody still has it to free
  have howned (hown : b ∈ (s.thread t).owns) : b ∉ s.shared.freed := by
    intro hf
    have hcount := hi.freed b
    have hle := executed_le hi b.owner
    have hpos := List.count_pos_iff.mpr hf
    have hpos' : 0 < tally Pc.owns s.thread b := tally_pos hown
    omega
  have hrunning {x : Work T p} (hx : x ∈ (s.thread t).holds) : Block.work x ∉ s.shared.freed := by
    intro hf
    have hpos := List.count_pos_iff.mpr (hexecuted hf)
    have hpos' : 0 < tally Pc.holds s.thread x := tally_pos hx
    have hle : s.places x ≤ 1 := by
      cases x with
      | print i j => exact (hi.print i j).le
      | done =>
        rw [hi.done]
        split <;> omega
    simp only [St.places, Block.owner] at hle hpos
    omega
  cases hpc : s.thread t with
  | idle l =>
    rw [hpc] at hb hrunning
    cases l with
    | found x =>
      cases x with
      | work w =>
        cases List.mem_singleton.mp hb
        exact hrunning (List.mem_singleton_self w)
      | empty | abort => cases hb
    | take | steal i stolen | check | left => cases hb
  | printArgs i j =>
    rw [hpc] at hb howned
    refine howned ?_
    simp only [Pc.uses, Pc.owns, List.mem_cons] at hb ⊢
    tauto
  | freePayload i j =>
    rw [hpc] at hb howned
    cases List.mem_singleton.mp hb
    exact howned List.mem_cons_self
  | freeWork i j =>
    rw [hpc] at hb howned
    exact howned hb
  | join i j =>
    rw [hpc] at hb
    cases List.mem_singleton.mp hb
    intro hf
    -- `done_work` is executed only when the count is 0, and this task has yet to decrement it
    have hzero := executed_done hi (hexecuted hf)
    have hpos := joinCount_pos (t := t) (i := i) (j := j) hi (by
      rw [hpc]
      exact List.mem_singleton_self _)
    omega
  | freeDone =>
    rw [hpc] at hb howned
    exact howned hb
  | storeDone =>
    rw [hpc] at hb
    cases hb

theorem freed_nodup (hi : Inv s) : s.shared.freed.Nodup := by
  rw [List.nodup_iff_count_le_one]
  intro b
  have hcount := hi.freed b
  have hle := executed_le hi b.owner
  omega

/-- Once `done` is set, everything has been executed. -/
theorem executed_eq_one (hi : Inv s) (h : s.shared.done = true) (w : Work T p) :
    s.shared.executed.count w = 1 := by
  have hdone := hi.stored h
  have hle := executed_le hi w
  cases w with
  | print i j =>
    have hjoined : Work.print i j ∈ s.shared.joined := all_joined hi (executed_done hi hdone)
    have hpos := List.count_pos_iff.mpr hjoined
    have hcount := hi.joining i j
    omega
  | done =>
    have hpos := List.count_pos_iff.mpr hdone
    omega

/-- Whatever the order of the steps: a print task is on a queue, about to be executed or has been
executed, once in all; `done_work` is executed at most once, after every print task has
decremented the join count; nothing is used after it was freed, or freed twice; no worker leaves
before `done` is set, and then every task has been executed. -/
theorem tasks_run_once (hT : 1 ≤ T) (hp : 1 ≤ p) (h : (system T p).Reachable System.free s) :
    (∀ i j, s.places (.print i j) = 1) ∧
    s.shared.executed.Nodup ∧
    (.done ∈ s.shared.executed → ∀ i j, .print i j ∈ s.shared.joined) ∧
    (∀ t, ∀ b ∈ (s.thread t).uses, b ∉ s.shared.freed) ∧
    s.shared.freed.Nodup ∧
    (∀ t, s.thread t = .idle .left → s.shared.done = true) ∧
    ((∀ t, s.thread t = .idle .left) → ∀ w, s.shared.executed.count w = 1) := by
  have hi := inv_reachable hT hp h
  have hleft (t : Fin T) (ht : s.thread t = .idle .left) : s.shared.done = true := by
    have hlocal := hi.thread t
    rw [ht] at hlocal
    exact hlocal.2 rfl
  refine ⟨hi.print, ?_, fun hd i j => all_joined hi (executed_done hi hd),
    fun t b hb => uses_not_freed hi hb, freed_nodup hi, hleft, fun hall => ?_⟩
  · rw [List.nodup_iff_count_le_one]
    exact executed_le hi
  · exact executed_eq_one hi (hleft ⟨0, hT⟩ (hall ⟨0, hT⟩))

/-- One of two workers executes everything, the task it steals from the other one included. -/
theorem tasks_run_once_steal :
    ∃ s : St 2 1, (∀ t, s.thread t = .idle .left) ∧ ∀ w, s.shared.executed.count w = 1 := by
  let schedule := List.replicate 22 ((0 : Fin 2), Race.won) ++ List.replicate 5 (1, .won)
  have hrun : ((system 2 1).exec (fun _ _ => true) (start 2 1) schedule).any
      (fun s => decide (∀ t, s.thread t = .idle .left)) = true := by decide +kernel
  obtain ⟨s, hs, hleft⟩ := (Option.any_eq_true _ _).mp hrun
  have hreach : (system 2 1).Reachable System.free s :=
    ⟨_, rfl, System.run_of_exec (fun _ _ _ => trivial) hs⟩
  have hall := of_decide_eq_true hleft
  obtain ⟨-, -, -, -, -, -, hcount⟩ := tasks_run_once (by decide) (Nat.le_refl 1) hreach
  exact ⟨s, hall, hcount hall⟩

end LinuxSummer.Tasks
